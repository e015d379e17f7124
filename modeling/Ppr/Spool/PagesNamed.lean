import Ppr.Spool.PagesWritten
import Ppr.Spool.ThingsNoted

/-!
# The records of the pages

What `end_of_page_processing()` writes for a page is what the comments in the header and in the
trailer of that page name, but for the media: `dump_page_media()` leaves its loop at the first medium
that is flagged, and what else is flagged is written for later pages.
-/

namespace Ppr

variable {V : Type}

/-! ## The comments of a page -/

/-- The tests of `read_pages()` that are not about the things. -/
def marks : PageThings Unit where
  atend line := (tokenize line)[1]? = some (ascii "atend")
  pagelevel _ s := (true, s)
  prepare := id
  dump s := ([], s)

/-- What a line is; `.comment` is one that `pagelevel()` gets. -/
def mark (l : DscLine) : Fate := (fate marks true l ()).1

/-- The comments that `pagelevel()` gets while a page is open. -/
structure PageComments where
  /-- Those in its header and in its trailer. -/
  own : List (List Byte)
  /-- The others: those in its body, and for the first page those before it. -/
  stray : List (List Byte)
  deriving DecidableEq

def PageComments.add (p : PageComments) (inside : Bool) (c : List Byte) : PageComments :=
  if inside then { p with own := p.own ++ [c] } else { p with stray := p.stray ++ [c] }

/-- The comments of each page, from the state of `read_pages()` on. -/
def sections (begun pageheader pagetrailer : Bool) (cur : PageComments) :
    List DscLine → List PageComments
  | [] => if begun then [cur] else []
  | l :: lines =>
    match mark l with
    | .page =>
      if begun then cur :: sections true true false ⟨[], []⟩ lines
      else sections true true false cur lines
    | .setup => sections begun false pagetrailer cur lines
    | .trailer => sections begun pageheader true cur lines
    | .stop => if begun then [cur] else []
    | .comment =>
      sections begun pageheader pagetrailer
        (cur.add (begun && (pageheader || pagetrailer)) (cstr l.line)) lines
    | .body => sections begun false pagetrailer cur lines
    | .skip | .text => sections begun pageheader pagetrailer cur lines

/-- The comments of each page of a document. -/
def pageSections (lines : List DscLine) : List PageComments :=
  sections false true false ⟨[], []⟩ lines

/-- The comments that `pagelevel()` gets. -/
def takenComments : List DscLine → List (List Byte)
  | [] => []
  | l :: lines =>
    match mark l with
    | .stop => []
    | .comment => cstr l.line :: takenComments lines
    | _ => takenComments lines

/-- What a comment names. -/
def named (D : Doubles V) (c : List Byte) : List (Item V) :=
  match pagelevel D c with
  | .notes items => items
  | _ => []

/-- What the comments in the header and trailer of the page name. -/
def PageComments.ownNames (D : Doubles V) (p : PageComments) : Set (Item V) :=
  {x | ∃ c ∈ p.own, x ∈ named D c}

/-- What all the comments of the page name. -/
def PageComments.names (D : Doubles V) (p : PageComments) : Set (Item V) :=
  {x | ∃ c ∈ p.own ++ p.stray, x ∈ named D c}

variable {D : Doubles V}

theorem names_add (p : PageComments) (inside : Bool) (c : List Byte) :
    (p.add inside c).names D = p.names D ∪ {x | x ∈ named D c} := by
  ext x
  unfold PageComments.names PageComments.add
  cases inside with
  | true =>
    simp only [if_true, List.append_assoc, List.mem_append, List.mem_singleton, Set.mem_union,
      Set.mem_ofPred_eq]
    constructor
    · rintro ⟨c', hc | rfl | hc, hx⟩
      · exact Or.inl ⟨c', Or.inl hc, hx⟩
      · exact Or.inr hx
      · exact Or.inl ⟨c', Or.inr hc, hx⟩
    · rintro (⟨c', hc | hc, hx⟩ | hx)
      · exact ⟨c', Or.inl hc, hx⟩
      · exact ⟨c', Or.inr (Or.inr hc), hx⟩
      · exact ⟨c, Or.inr (Or.inl rfl), hx⟩
  | false =>
    simp only [Bool.false_eq_true, if_false, List.mem_append, List.mem_singleton, Set.mem_union,
      Set.mem_ofPred_eq]
    constructor
    · rintro ⟨c', hc | hc | rfl, hx⟩
      · exact Or.inl ⟨c', Or.inl hc, hx⟩
      · exact Or.inl ⟨c', Or.inr hc, hx⟩
      · exact Or.inr hx
    · rintro (⟨c', hc | hc, hx⟩ | hx)
      · exact ⟨c', Or.inl hc, hx⟩
      · exact ⟨c', Or.inr (Or.inl hc), hx⟩
      · exact ⟨c, Or.inr (Or.inr rfl), hx⟩

theorem names_empty : (⟨[], []⟩ : PageComments).names D = ∅ := by
  ext x
  simp [PageComments.names]

theorem ownNames_subset (p : PageComments) : p.ownNames D ⊆ p.names D := by
  rintro x ⟨c, hc, hx⟩
  exact ⟨c, List.mem_append_left _ hc, hx⟩

theorem names_subset_of_stray {p : PageComments} (h : p.stray = []) : p.names D ⊆ p.ownNames D := by
  rintro x ⟨c, hc, hx⟩
  rw [h, List.append_nil] at hc
  exact ⟨c, hc, hx⟩

/-! ## One line -/

section Line

variable [DecidableEq V]

/-- What `pagelevel()` makes of the table. -/
theorem fate_eq (atEdge : Bool) (l : DscLine) (s : Option (Notes V)) :
    fate (pageThings D) atEdge l s =
      if mark l = .comment then
        match pagelevel D (cstr l.line) with
        | .other => (if atEdge then .comment else .text, s)
        | .notes items => (.skip, s.map fun n => { n with things := items.foldl notePage n.things })
        | .crash => (.skip, none)
      else (mark l, s) := by
  unfold mark fate
  dsimp only
  have hatend : (pageThings D).atend = marks.atend := rfl
  rw [hatend]
  by_cases hdsc : lmatch (cstr l.line) "%%" ∧ l.nested = false ∧ l.line.length ≤ maxTokenized
  · rw [if_pos hdsc, if_pos hdsc]
    by_cases hpage : lmatch (cstr l.line) "%%Page:" = true
    · simp only [if_pos hpage]
      rfl
    by_cases hsetup : cstr l.line = ascii "%%BeginPageSetup"
    · simp only [if_neg hpage, if_pos hsetup]
      rfl
    by_cases hstop : cstr l.line = ascii "%%Trailer" ∨ cstr l.line = ascii "%%EOF"
    · simp only [if_neg hpage, if_neg hsetup, if_pos hstop]
      rfl
    by_cases htrailer : cstr l.line = ascii "%%PageTrailer"
    · simp only [if_neg hpage, if_neg hsetup, if_neg hstop, if_pos htrailer]
      rfl
    by_cases hend : marks.atend (cstr l.line) = true
    · simp only [if_neg hpage, if_neg hsetup, if_neg hstop, if_neg htrailer, if_pos hend]
      rfl
    simp only [if_neg hpage, if_neg hsetup, if_neg hstop, if_neg htrailer, if_neg hend]
    change _ = match pagelevel D (cstr l.line) with
      | .other => (if atEdge then Fate.comment else .text, s)
      | .notes items =>
        (.skip, s.map fun n : Notes V => { n with things := items.foldl notePage n.things })
      | .crash => (.skip, none)
    cases hp : pagelevel D (cstr l.line) with
    | other =>
      have h : (pageThings D).pagelevel (cstr l.line) s = (true, s) := by
        simp only [pageThings, hp]
      rw [h]
      rfl
    | notes items =>
      have h : (pageThings D).pagelevel (cstr l.line) s =
          (false, s.map fun n => { n with things := items.foldl notePage n.things }) := by
        simp only [pageThings, hp]
      rw [h]
      rfl
    | crash =>
      have h : (pageThings D).pagelevel (cstr l.line) s = (false, none) := by
        simp only [pageThings, hp]
      rw [h]
      rfl
  · rw [if_neg hdsc, if_neg hdsc]
    rfl

/-- What a line makes of the table, where it does not end a page. -/
theorem things_readPagesLine {s : Spool (Option (Notes V))} (l : DscLine) {f : Fate} (hf : f ≠ .page) :
    (readPagesLine (pageThings D) s l f).things = s.things := by
  cases f with
  | page => exact absurd rfl hf
  | _ => rfl

theorem mark_ne_text (l : DscLine) : mark l ≠ .text := by
  unfold mark fate
  dsimp only
  have hlevel : (marks.pagelevel (cstr l.line) ()).1 = true := rfl
  split_ifs <;> simp_all

end Line

/-! ## The run -/

/-- What was written for the pages: the resources and requirements that a page names, and the first
of the media that it names or that the pages before left flagged. -/
def Reported (D : Doubles V) (name : ℕ → Option (List Byte)) :
    Set ℕ → List PageComments → List (List (Item V)) → Prop
  | _, [], [] => True
  | L, p :: ps, W :: Ws =>
    (∀ x : Item V, x.isMedia = false → (x ∈ W ↔ x ∈ p.names D)) ∧
    (∀ m, .media m ∈ W ↔ m ∈ Pending.served name (Pending.raise name L (mediaOf (p.names D)))) ∧
    Reported D name (Pending.rest (Pending.raise name L (mediaOf (p.names D)))) ps Ws
  | _, _, _ => False

section Run

variable [DecidableEq V] {name : ℕ → Option (List Byte)}

theorem things_endOfPage (s : Spool (Option (Notes V))) :
    (endOfPageProcessing (pageThings D) s).things = ((pageThings D).dump s.things).2 :=
  things_dumped _ _

/-- The end of the document. -/
theorem reported_end {L : Set ℕ} {cur : PageComments} {s : Spool (Option (Notes V))} {n : Notes V}
    (hs : s.things = some n) (h : PageHolds name L (cur.names D) n.things) :
    ∃ n' Ws, (if 0 < s.pagenumber then endOfPageProcessing (pageThings D) s else s).things = some n' ∧
      n'.written = n.written ++ Ws ∧
      Reported D name L (if decide (0 < s.pagenumber) then [cur] else []) Ws := by
  by_cases hpage : 0 < s.pagenumber
  · obtain ⟨-, W, hW, hother, hmedia⟩ := h.dump D
    refine ⟨(n.dump D).2, [W], ?_, hW, ?_⟩
    · rw [if_pos hpage, things_endOfPage, hs]
      rfl
    · rw [if_pos (decide_eq_true hpage)]
      exact ⟨hother, hmedia, trivial⟩
  · refine ⟨n, [], ?_, (List.append_nil _).symm, ?_⟩
    · rw [if_neg hpage, hs]
    · rw [if_neg (by simpa using hpage)]
      trivial

theorem PageHolds.refs {L : Set ℕ} {cur : Set (Item V)} {n : Notes V} (h : PageHolds name L cur n.things)
    (refs : List (ResourceRef × DscResource V)) : PageHolds name L cur (n.refer refs).things := by
  unfold Notes.refer
  dsimp only
  generalize n.things = things at h
  induction refs generalizing things with
  | nil => exact h
  | cons r refs ih => exact ih _ (h.refer r.1 r.2)

/-- A round of the loop: what the line makes of the files and of the table. -/
theorem readPagesRefs_cons (l : RefLine V) (lines : List (RefLine V)) (s : Spool (Option (Notes V))) :
    readPagesRefs D (l :: lines) s =
      let s := s.noting (s.things.map fun n => n.refer l.refs)
      if mark l.line = .stop then
        if 0 < s.pagenumber then endOfPageProcessing (pageThings D) s else s
      else
        let f := fate (pageThings D) (s.pageheader || s.pagetrailer) l.line s.things
        readPagesRefs D lines (readPagesLine (pageThings D) (s.noting f.2) l.line f.1) := by
  rw [readPagesRefs]
  dsimp only
  set s₁ := s.noting (s.things.map fun n => n.refer l.refs)
  have hstop : (fate (pageThings D) (s₁.pageheader || s₁.pagetrailer) l.line s₁.things).1 = .stop ↔
      mark l.line = .stop := by
    rw [fate_eq]
    by_cases hc : mark l.line = .comment
    · rw [if_pos hc, hc]
      cases pagelevel D (cstr l.line.line) with
      | other => split_ifs <;> simp
      | notes items => simp
      | crash => simp
    · rw [if_neg hc]
  by_cases h : mark l.line = .stop
  · rw [if_pos h, if_pos (hstop.2 h)]
    have hfate : fate (pageThings D) (s₁.pageheader || s₁.pagetrailer) l.line s₁.things =
        (.stop, s₁.things) := by
      rw [fate_eq, if_neg (by rw [h]; decide), h]
    simp only [readPages, hfate, if_true]
    rfl
  · rw [if_neg h, if_neg fun hf => h (hstop.1 hf)]

theorem reported_readPagesRefs (lines : List (RefLine V)) {s : Spool (Option (Notes V))} {n : Notes V}
    {cur : PageComments} {L : Set ℕ} (hs : s.things = some n)
    (h : PageHolds name L (cur.names D) n.things)
    (hok : ∀ c ∈ takenComments (lines.map RefLine.line), pagelevel D c ≠ .crash) :
    ∃ n' Ws, (readPagesRefs D lines s).things = some n' ∧ n'.written = n.written ++ Ws ∧
      Reported D name L (sections (decide (0 < s.pagenumber)) s.pageheader s.pagetrailer cur
        (lines.map RefLine.line)) Ws := by
  induction lines generalizing s n cur L with
  | nil => exact reported_end hs h
  | cons l lines ih =>
    -- What `getline_simplify()` noted first.
    set s₁ := s.noting (s.things.map fun n => n.refer l.refs) with hs₁
    set n₁ := n.refer l.refs with hn₁
    have hthings₁ : s₁.things = some n₁ := by rw [hs₁, Spool.noting, hs]; rfl
    have h₁ : PageHolds name L (cur.names D) n₁.things := h.refs l.refs
    rw [readPagesRefs_cons, List.map_cons]
    dsimp only
    rw [← hs₁, sections, fate_eq]
    rw [List.map_cons, takenComments] at hok
    change ∃ (n' : Notes V) (Ws : List (List (Item V))), _ ∧ n'.written = n₁.written ++ Ws ∧ _
    cases hm : mark l.line with
    | stop =>
      rw [if_pos rfl]
      exact reported_end hthings₁ h₁
    | page =>
      simp only [hm] at hok
      simp only [reduceCtorEq, if_false]
      have hstart := startPage_things (T := pageThings D) s₁ (cstr l.line.line)
      have hbegun : decide (0 < (startPage (pageThings D) s₁ (cstr l.line.line)).pagenumber) = true :=
        decide_eq_true (Nat.succ_pos _)
      by_cases hpage : 0 < s.pagenumber
      · obtain ⟨hholds, W, hW, hother, hmedia⟩ := h₁.dump D
        have hb : s₁.started = true := decide_eq_true hpage
        have hnext : (startPage (pageThings D) s₁ (cstr l.line.line)).things =
            some (n₁.dump D).2 := by
          rw [hstart, if_pos hb, hthings₁]
          rfl
        rw [← names_empty (D := D)] at hholds
        obtain ⟨n', Ws, hn', hw, hrep⟩ := ih hnext hholds hok
        rw [hbegun] at hrep
        refine ⟨n', W :: Ws, hn', ?_, ?_⟩
        · rw [hw, hW, List.append_assoc]
          rfl
        · rw [if_pos (decide_eq_true hpage)]
          exact ⟨hother, hmedia, hrep⟩
      · have hb : ¬ s₁.started = true := by
          change ¬ decide (0 < s.pagenumber) = true
          simpa using hpage
        have hnext : (startPage (pageThings D) s₁ (cstr l.line.line)).things = some n₁ := by
          rw [hstart, if_neg hb, hthings₁]
          rfl
        obtain ⟨n', Ws, hn', hw, hrep⟩ := ih hnext h₁ hok
        rw [hbegun] at hrep
        refine ⟨n', Ws, hn', hw, ?_⟩
        rw [if_neg (by simpa using hpage)]
        exact hrep
    | setup =>
      simp only [hm] at hok
      exact ih (n := n₁) hthings₁ h₁ hok
    | trailer =>
      simp only [hm] at hok
      exact ih (n := n₁) hthings₁ h₁ hok
    | body =>
      simp only [hm] at hok
      exact ih (n := n₁) hthings₁ h₁ hok
    | skip =>
      simp only [hm] at hok
      exact ih (n := n₁) hthings₁ h₁ hok
    | text => exact absurd hm (mark_ne_text _)
    | comment =>
      simp only [hm] at hok
      rw [if_neg (by decide), if_pos rfl]
      have hlevel : pagelevel D (cstr l.line.line) ≠ .crash := hok _ (List.mem_cons_self ..)
      have hrest : ∀ c ∈ takenComments (lines.map RefLine.line), pagelevel D c ≠ .crash :=
        fun c hc => hok c (List.mem_cons_of_mem _ hc)
      have hnames := names_add (D := D) cur (decide (0 < s.pagenumber) &&
        (s.pageheader || s.pagetrailer)) (cstr l.line.line)
      cases hp : pagelevel D (cstr l.line.line) with
      | crash => exact absurd hp hlevel
      | other =>
        have hsame : cur.names D = (cur.add (decide (0 < s.pagenumber) &&
            (s.pageheader || s.pagetrailer)) (cstr l.line.line)).names D := by
          rw [hnames, named, hp]
          simp
        rw [hsame] at h₁
        by_cases hedge : (s₁.pageheader || s₁.pagetrailer) = true
        · simp only [if_pos hedge]
          exact ih (n := n₁) hthings₁ h₁ hrest
        · simp only [if_neg hedge]
          exact ih (n := n₁) hthings₁ h₁ hrest
      | notes items =>
        have hnoted := h₁.notePages items
        have hset : {x | x ∈ items} = {x | x ∈ named D (cstr l.line.line)} := by rw [named, hp]
        rw [hset, ← hnames] at hnoted
        exact ih (n := { n₁ with things := items.foldl notePage n₁.things })
          (by rw [hthings₁]; rfl) hnoted hrest

/-! ### A crash -/

/-- After a crash there is no table. -/
theorem things_none_readPagesRefs (lines : List (RefLine V)) {s : Spool (Option (Notes V))}
    (hs : s.things = none) : (readPagesRefs D lines s).things = none := by
  have hend {s : Spool (Option (Notes V))} (hs : s.things = none) :
      (if 0 < s.pagenumber then endOfPageProcessing (pageThings D) s else s).things = none := by
    split_ifs
    · rw [things_endOfPage, hs]
      rfl
    · exact hs
  induction lines generalizing s with
  | nil => exact hend hs
  | cons l lines ih =>
    rw [readPagesRefs_cons]
    dsimp only
    set s₁ := s.noting (s.things.map fun n => n.refer l.refs) with hs₁
    have hthings₁ : s₁.things = none := by rw [hs₁, Spool.noting, hs]; rfl
    have hfate : (fate (pageThings D) (s₁.pageheader || s₁.pagetrailer) l.line s₁.things).2 = none := by
      rw [fate_eq, hthings₁]
      by_cases hc : mark l.line = .comment
      · rw [if_pos hc]
        cases pagelevel D (cstr l.line.line) <;> rfl
      · rw [if_neg hc]
    by_cases hstop : mark l.line = .stop
    · rw [if_pos hstop]
      exact hend hthings₁
    · rw [if_neg hstop]
      apply ih
      by_cases hpage : (fate (pageThings D) (s₁.pageheader || s₁.pagetrailer) l.line s₁.things).1 = .page
      · rw [hpage, hfate]
        change (startPage (pageThings D) _ _).things = none
        rw [startPage_things]
        split_ifs <;> rfl
      · rw [things_readPagesLine l.line hpage, hfate]
        rfl

theorem crashed_readPagesRefs (lines : List (RefLine V)) (s : Spool (Option (Notes V)))
    (h : ∃ c ∈ takenComments (lines.map RefLine.line), pagelevel D c = .crash) :
    (readPagesRefs D lines s).things = none := by
  induction lines generalizing s with
  | nil => exact absurd h (by rintro ⟨c, hc, -⟩; exact nomatch hc)
  | cons l lines ih =>
    rw [readPagesRefs_cons]
    dsimp only
    rw [List.map_cons, takenComments] at h
    by_cases hstop : mark l.line = .stop
    · simp only [hstop] at h
      obtain ⟨c, hc, -⟩ := h
      exact nomatch hc
    rw [if_neg hstop]
    by_cases hc : mark l.line = .comment
    · simp only [hc, List.mem_cons, exists_eq_or_imp] at h
      rw [fate_eq, if_pos hc]
      rcases h with h | h
      · rw [h]
        exact things_none_readPagesRefs lines rfl
      · exact ih _ h
    · have hrest : ∃ c ∈ takenComments (lines.map RefLine.line), pagelevel D c = .crash := by
        cases hm : mark l.line with
        | comment => exact absurd hm hc
        | stop => exact absurd hm hstop
        | _ => simpa only [hm] using h
      exact ih _ hrest

end Run

/-! ## The table before the pages -/

section Header

theorem holds_nil : PageHolds (mediumAt ([] : List (Thing V))) ∅ ∅ ([] : List (Thing V)) := by
  refine ⟨fun x _ => ?_, rfl, ?_, fun t ht => absurd ht List.not_mem_nil⟩
  · simp [NotedOnPage]
  · ext i
    simp [raisedMedia, markAt, Pending.raise, Pending.borne, mediaOf]

theorem raise_empty (name : ℕ → Option (List Byte)) :
    Pending.raise name ∅ (mediaOf (∅ : Set (Item V))) = ∅ := by
  simp [Pending.raise, Pending.borne, mediaOf]

/-- A medium that is declared is not on any page yet. -/
theorem holds_append_media {things : List (Thing V)} (h : PageHolds (mediumAt things) ∅ ∅ things)
    (m : List Byte) :
    PageHolds (mediumAt (things ++ [{ item := .media m, flags := 1 }])) ∅ ∅
      (things ++ [{ item := .media m, flags := 1 }]) := by
  set t : Thing V := { item := .media m, flags := 1 } 
  have hoff : t.onPage = false := (by decide : decide ((1 : BitVec 32) &&& 2 ≠ 0) = false)
  refine ⟨fun x hx => ?_, rfl, ?_, fun u hu hreq => ?_⟩
  · rw [← h.noted x hx]
    unfold NotedOnPage
    constructor
    · rintro ⟨u, hu, hux, hon⟩
      rcases List.mem_append.1 hu with hu | hu
      · exact ⟨u, hu, hux, hon⟩
      · rw [List.mem_singleton.1 hu, hoff] at hon
        cases hon
    · rintro ⟨u, hu, hux, hon⟩
      exact ⟨u, List.mem_append_left _ hu, hux, hon⟩
  · have hraised := h.raised
    rw [raise_empty] at hraised ⊢
    refine Set.eq_empty_iff_forall_notMem.2 fun i hi => ?_
    obtain ⟨u, hu, hp⟩ := mem_raisedMedia.1 hi
    by_cases hlt : i < things.length
    · rw [List.getElem?_append_left hlt] at hu
      have hmem : i ∈ raisedMedia things := mem_raisedMedia.2 ⟨u, hu, hp⟩
      rw [hraised] at hmem
      exact hmem
    · rw [List.getElem?_append_right (by omega)] at hu
      have hut : u = t := List.mem_singleton.1 (List.mem_of_getElem? hu)
      rw [hut, Thing.pageMedium, hoff, Bool.and_false] at hp
      exact absurd hp Bool.false_ne_true
  · rcases List.mem_append.1 hu with hu | hu
    · exact h.undeleted u hu hreq
    · rw [List.mem_singleton.1 hu] at hreq
      cases hreq

theorem PageHolds.own_name {name : ℕ → Option (List Byte)} {L : Set ℕ} {cur : Set (Item V)}
    {things : List (Thing V)} (h : PageHolds name L cur things) : PageHolds (mediumAt things) L cur things := by
  rw [h.medium]
  exact h

theorem holds_header [DecidableEq V] (header : List (DocRef V)) {things : List (Thing V)}
    (h : PageHolds (mediumAt things) ∅ ∅ things) :
    PageHolds (mediumAt (header.foldl DocRef.note things)) ∅ ∅ (header.foldl DocRef.note things) := by
  induction header generalizing things with
  | nil => exact h
  | cons r header ih =>
    apply ih
    cases r with
    | resource f r => exact (h.refer f r).own_name
    | media name => exact holds_append_media h _
    | requirement q =>
      exact (h.refer_other rfl (by decide : (1 : BitVec 32) &&& 2 = 0) fun _ =>
        (by decide : (1 : BitVec 32) &&& 4 = 0)).own_name

theorem mediumAt_iff {things : List (Thing V)} {m : List Byte} :
    (∃ i, mediumAt things i = some m) ↔ ∃ t ∈ things, t.item = .media m := by
  unfold mediumAt markAt
  constructor
  · rintro ⟨i, hi⟩
    obtain ⟨p, hp, rfl⟩ := Option.map_eq_some_iff.1 hi
    obtain ⟨t, ht, hmark⟩ := Option.bind_eq_some_iff.1 hp
    exact ⟨t, List.mem_of_getElem? ht, (Thing.mark_eq_some_iff (b := p.2).1 hmark).1⟩
  · rintro ⟨t, ht, hx⟩
    obtain ⟨i, hi⟩ := List.mem_iff_getElem?.1 ht
    refine ⟨i, ?_⟩
    rw [hi, Option.bind_some, Thing.mark_eq_some_iff.2 ⟨hx, rfl⟩]
    rfl

end Header

/-! ## What is written and what is named -/

/-- The table before the pages. -/
def headerThings [DecidableEq V] (header : List (DocRef V)) : List (Thing V) :=
  header.foldl DocRef.note []

/-- What is written for the page is what its header and trailer name; a medium only if it is
declared. -/
def NamesExactly (things : List (Thing V)) (own : Set (Item V)) (W : List (Item V)) : Prop :=
  ∀ x : Item V, x ∈ W ↔ x ∈ own ∧ (x.isMedia = true → ∃ t ∈ things, t.item = x)

/-- The comments in the body of a page name nothing that its header and trailer do not name. -/
def Placed (D : Doubles V) (lines : List DscLine) : Prop :=
  ∀ p ∈ pageSections lines, p.names D ⊆ p.ownNames D

/-- Of the media that are declared no page names two, and once a page names a medium that is declared
again, every later page names one that stands before the repetition. -/
structure MediaApart (D : Doubles V) (things : List (Thing V)) (pages : List PageComments) : Prop where
  one : ∀ p ∈ pages, Pending.One (mediumAt things) (mediaOf (p.ownNames D))
  ahead : pages.Pairwise fun p p' =>
    ∀ i ∈ Pending.repeats (mediumAt things) (mediaOf (p.ownNames D)),
      Pending.Ahead (mediumAt things) (mediaOf (p'.ownNames D)) i

/-- Every page is written as it is named. -/
def RecordsExact [DecidableEq V] (D : Doubles V) (header : List (DocRef V)) (pages text : List Byte)
    (lines : List (RefLine V)) : Prop :=
  ∃ n, (readDocument D header pages text lines).things = some n ∧
    List.Forall₂ (fun (p : PageComments) W => NamesExactly (headerThings header) (p.ownNames D) W)
      (pageSections (lines.map RefLine.line)) n.written

theorem Placed.names_eq {lines : List DscLine} (h : Placed D lines) {p : PageComments}
    (hp : p ∈ pageSections lines) : p.names D = p.ownNames D :=
  Set.Subset.antisymm (h p hp) (ownNames_subset p)

theorem mediaApart_iff {things : List (Thing V)} {ps : List PageComments} :
    MediaApart D things ps ↔
      Pending.Exact (mediumAt things) ∅ (ps.map fun p => mediaOf (p.ownNames D)) := by
  rw [Pending.exact_nil_iff, List.forall_mem_map, List.pairwise_map]
  exact ⟨fun h => ⟨h.one, h.ahead⟩, fun h => ⟨h.1, h.2⟩⟩

/-- Where the first of the media is the only one, what is reported is what is named. -/
theorem forall₂_iff_exact {things : List (Thing V)} {ps : List PageComments}
    (hplaced : ∀ p ∈ ps, p.names D = p.ownNames D) {L : Set ℕ} {Ws : List (List (Item V))}
    (h : Reported D (mediumAt things) L ps Ws) :
    List.Forall₂ (fun (p : PageComments) W => NamesExactly things (p.ownNames D) W) ps Ws ↔
      Pending.Exact (mediumAt things) L (ps.map fun p => mediaOf (p.ownNames D)) := by
  induction ps generalizing L Ws with
  | nil =>
    cases Ws with
    | nil => simp [Pending.Exact]
    | cons W Ws => exact absurd h id
  | cons p ps ih =>
    cases Ws with
    | nil => exact absurd h id
    | cons W Ws =>
      obtain ⟨hother, hmedia, hrest⟩ := h
      rw [hplaced p (List.mem_cons_self ..)] at hother hmedia hrest
      have hmem (m : List Byte) : m ∈ Pending.known (mediumAt things) (mediaOf (p.ownNames D)) ↔
          Item.media m ∈ p.ownNames D ∧ ∃ t ∈ things, t.item = .media m :=
        and_congr_right fun _ => mediumAt_iff
      have hpage : NamesExactly things (p.ownNames D) W ↔
          Pending.served (mediumAt things)
            (Pending.raise (mediumAt things) L (mediaOf (p.ownNames D))) =
            Pending.known (mediumAt things) (mediaOf (p.ownNames D)) := by
        constructor
        · intro hW
          ext m
          rw [← hmedia, hW, hmem]
          exact and_congr_right fun _ => ⟨fun h => h rfl, fun h _ => h⟩
        · intro hserved x
          by_cases hx : x.isMedia = true
          · cases x with
            | media m =>
              rw [hmedia, hserved, hmem]
              exact and_congr_right fun _ => ⟨fun h _ => h, fun h => h rfl⟩
            | resource r => cases hx
            | requirement q => cases hx
          · rw [hother x (Bool.eq_false_of_not_eq_true hx)]
            exact ⟨fun h => ⟨h, fun hm => absurd hm hx⟩, fun h => h.1⟩
      rw [List.forall₂_cons, List.map_cons, Pending.Exact, hpage,
        ih (fun q hq => hplaced q (List.mem_cons_of_mem _ hq)) hrest]

/-- What is reported for the pages of a document. -/
theorem reported_readDocument [DecidableEq V] (header : List (DocRef V)) (pages text : List Byte)
    {lines : List (RefLine V)}
    (hok : ∀ c ∈ takenComments (lines.map RefLine.line), pagelevel D c ≠ .crash) :
    ∃ n, (readDocument D header pages text lines).things = some n ∧
      Reported D (mediumAt (headerThings header)) ∅ (pageSections (lines.map RefLine.line))
        n.written := by
  have h : PageHolds (mediumAt (headerThings header)) ∅ ((⟨[], []⟩ : PageComments).names D)
      (headerThings header) := by
    rw [names_empty]
    exact holds_header header holds_nil
  obtain ⟨n, Ws, hn, hW, hrep⟩ := reported_readPagesRefs
    (s := Spool.start pages text (some ⟨headerThings header, []⟩)) lines rfl h hok
  refine ⟨n, hn, ?_⟩
  rw [hW, List.nil_append]
  exact hrep

theorem recordsExact_iff [DecidableEq V] (D : Doubles V) (header : List (DocRef V))
    (pages text : List Byte) (lines : List (RefLine V)) (hplaced : Placed D (lines.map RefLine.line)) :
    RecordsExact D header pages text lines ↔
      (∀ c ∈ takenComments (lines.map RefLine.line), pagelevel D c ≠ .crash) ∧
      MediaApart D (headerThings header) (pageSections (lines.map RefLine.line)) := by
  by_cases hok : ∀ c ∈ takenComments (lines.map RefLine.line), pagelevel D c ≠ .crash
  · obtain ⟨n, hn, hrep⟩ := reported_readDocument (D := D) header pages text hok
    rw [and_iff_right hok, mediaApart_iff,
      ← forall₂_iff_exact (fun p hp => hplaced.names_eq hp) hrep]
    constructor
    · rintro ⟨n', hn', h⟩
      rw [hn] at hn'
      exact Option.some.inj hn' ▸ h
    · intro h
      exact ⟨n, hn, h⟩
  · refine ⟨?_, fun h => absurd h.1 hok⟩
    rintro ⟨n, hn, -⟩
    push Not at hok
    have hnone := crashed_readPagesRefs lines
      (Spool.start pages text (some { things := headerThings header, written := [] })) hok
    exact absurd (hn.symm.trans hnone) (Option.some_ne_none n)

/-! ### Two documents -/

section Cases

def plainDoubles : Doubles ℕ := { zero := 0, getdouble := digitsValue, dtostr := decimal }

/-- A line with no references before it. -/
def plainLine (s : String) : RefLine ℕ :=
  { refs := [], line := { line := ascii s, overflow := false, nested := false } }

def twoMediaPages : List (RefLine ℕ) :=
  ["%%Page: 1 1", "%%PageMedia: Plain", "%%PageResources: font Courier", "%%BeginPageSetup", "showpage",
    "%%Page: 2 2", "%%PageMedia: Letterhead", "showpage", "%%Trailer"].map plainLine

theorem recordsExact_twoMedia :
    RecordsExact plainDoubles [.media (ascii "Plain"), .media (ascii "Letterhead")] [] []
        twoMediaPages ↔
      (∀ c ∈ takenComments (twoMediaPages.map RefLine.line), pagelevel plainDoubles c ≠ .crash) ∧
      MediaApart plainDoubles (headerThings [.media (ascii "Plain"), .media (ascii "Letterhead")])
        (pageSections (twoMediaPages.map RefLine.line)) :=
  recordsExact_iff plainDoubles _ [] [] twoMediaPages fun p hp =>
    names_subset_of_stray ((by decide +kernel :
      ∀ p ∈ pageSections (twoMediaPages.map RefLine.line), p.stray = []) p hp)

/-- The second page names no medium. -/
def oneMediumPages : List (RefLine ℕ) :=
  ["%%Page: 1 1", "%%PageMedia: Plain", "%%BeginPageSetup", "showpage", "%%Page: 2 2", "showpage",
    "%%Trailer"].map plainLine

/-- A medium that is declared twice and named by the first page is written for the second page too. -/
theorem not_recordsExact_declaredTwice : ¬ RecordsExact plainDoubles
    [.media (ascii "Plain"), .media (ascii "Plain")] [] [] oneMediumPages := by
  rintro ⟨n, hn, h⟩
  have hsections : pageSections (oneMediumPages.map RefLine.line) =
      [⟨[ascii "%%PageMedia: Plain"], []⟩, ⟨[], []⟩] := by decide +kernel
  have hwritten : (readDocument plainDoubles [.media (ascii "Plain"), .media (ascii "Plain")] [] []
      oneMediumPages).things.map Notes.written =
      some [[.media (paddedName (ascii "Plain"))], [.media (paddedName (ascii "Plain"))]] := by
    decide +kernel
  rw [hn, Option.map_some] at hwritten
  rw [hsections, Option.some.inj hwritten] at h
  obtain ⟨-, h₂, -⟩ := List.forall₂_cons.1 h |>.imp id List.forall₂_cons.1
  obtain ⟨⟨c, hc, -⟩, -⟩ := (h₂ _).1 (List.mem_singleton_self _)
  exact absurd hc List.not_mem_nil

end Cases

end Ppr
