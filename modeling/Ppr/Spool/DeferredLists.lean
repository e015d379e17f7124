import Ppr.Spool.DeferredKept

/-!
# Lists that supersede each other

The lists of resources are kept together in the flags of `things[]`, so that clearing the list of one comment
can take away what another has listed.  Lists that do not meet in this way are kept apart.
-/

namespace Ppr

variable {V : Type}

/-! ## The numbers of the comments -/

theorem simplifyLine_number (st : Simplifier) (line : List Byte) :
    st.number ≤ (simplifyLine st line).2.number ∧
      (simplifyLine st line).2.number ≤ (simplifyLine st line).1.number := by
  unfold simplifyLine
  split_ifs
  · exact ⟨le_rfl, le_rfl⟩
  · exact ⟨le_rfl, le_rfl⟩
  · split
    · exact ⟨le_rfl, le_rfl⟩
    · split_ifs
      · exact ⟨Nat.le_succ _, le_rfl⟩
      · exact ⟨le_rfl, le_rfl⟩
      · exact ⟨le_rfl, le_rfl⟩
    · exact ⟨le_rfl, le_rfl⟩

/-- The numbers do not fall. -/
theorem simplifyLines_sorted (st : Simplifier) (lines : List (List Byte)) :
    (∀ l ∈ (simplifyLines st lines).1, st.number ≤ l.number) ∧
      (simplifyLines st lines).1.Pairwise fun l m => l.number ≤ m.number := by
  induction lines generalizing st with
  | nil => exact ⟨nofun, .nil⟩
  | cons line lines ih =>
    obtain ⟨hle, hle'⟩ := simplifyLine_number st line
    obtain ⟨hall, hsorted⟩ := ih (simplifyLine st line).1
    exact ⟨List.forall_mem_cons.2 ⟨hle, fun l hl => (hle.trans hle').trans (hall l hl)⟩,
      List.pairwise_cons.2 ⟨fun l hl => hle'.trans (hall l hl), hsorted⟩⟩

theorem deferrableOf_eq {keyword : List Byte} {k : Deferrable} (h : deferrableOf keyword = some k) :
    keyword = ascii k.key := of_decide_eq_true (List.find?_some h :)

/-- Behind "%%", a comment has a capital letter. -/
theorem isupper_of_keyLine {l : HeaderLine} {x : Deferrable × KeyLine} (h : keyLine l = some x)
    (hcomment : l.isComment = true) : ∃ c t, l.line = 37 :: 37 :: c :: t ∧ isupper c = true := by
  rw [HeaderLine.isComment, Bool.and_eq_true, decide_eq_true_eq] at hcomment
  have hfirst : ∃ t, l.line = 37 :: t := by
    cases hl : l.line with
    | nil => rw [hl] at hcomment; exact absurd hcomment.1 (by decide)
    | cons c t =>
      rw [hl] at hcomment
      exact ⟨t, congrArg (· :: t) (List.cons.inj hcomment.1).1⟩
  obtain ⟨t, ht⟩ := hfirst
  unfold keyLine at h
  cases htokens : tokenize l.line with
  | nil => rw [htokens] at h; cases h
  | cons keyword args =>
    rw [htokens] at h
    obtain ⟨k, hk, -⟩ := Option.map_eq_some_iff.1 h
    obtain ⟨rest, hrest⟩ := tokenize_head (ht ▸ htokens)
    have hkey : ∃ c rest, ascii k.key = 37 :: 37 :: c :: rest ∧ isupper c = true := by
      cases k with
      | list c => cases c <;> exact ⟨68, _, rfl, rfl⟩
      | pages => exact ⟨80, _, rfl, rfl⟩
      | pageOrder => exact ⟨80, _, rfl, rfl⟩
      | orientation => exact ⟨79, _, rfl, rfl⟩
    obtain ⟨c, rest', hc, hupper⟩ := hkey
    refine ⟨c, rest' ++ rest, ?_, hupper⟩
    rw [ht, ← hrest, deferrableOf_eq hk, hc]
    rfl

/-- A comment that may be deferred has a number that is not 0. -/
theorem simplifyLine_pos {st : Simplifier} (hst : st.lastDSC ≠ [] → 0 < st.number) (line : List Byte) :
    ((simplifyLine st line).1.lastDSC ≠ [] → 0 < (simplifyLine st line).1.number) ∧
      ((simplifyLine st line).2.isComment = true → (keyLine (simplifyLine st line).2).isSome = true →
        0 < (simplifyLine st line).2.number) := by
  have hnot : ∀ {l : HeaderLine}, l.line.take 2 ≠ ascii "%%" → l.isComment = true → (keyLine l).isSome = true →
      0 < l.number := fun h hcomment => by
    rw [HeaderLine.isComment, Bool.and_eq_true, decide_eq_true_eq] at hcomment
    exact absurd hcomment.1 h
  have hupper : ∀ {l : HeaderLine} {b : Byte} {text : List Byte}, l.line = b :: 37 :: text →
      text.head?.any isupper = false → l.isComment = true → (keyLine l).isSome = true → 0 < l.number := by
    intro l b text hl hno hcomment hkey
    obtain ⟨x, hx⟩ := Option.isSome_iff_exists.1 hkey
    obtain ⟨c, t, hct, hup⟩ := isupper_of_keyLine hx hcomment
    rw [hl] at hct
    obtain rfl := (List.cons.inj (List.cons.inj hct).2).2
    rw [List.head?_cons, Option.any_some, hup] at hno
    cases hno
  unfold simplifyLine
  split_ifs with hfirst hlong
  · refine ⟨fun h => absurd rfl h, hnot fun htake => hfirst ?_⟩
    cases line with
    | nil =>
      have hnil : ([] : List Byte).take 2 ≠ ascii "%%" := by decide
      exact absurd htake hnil
    | cons c t => exact congrArg some (List.cons.inj htake).1
  · refine ⟨hst, fun hcomment => ?_⟩
    rw [HeaderLine.isComment, Bool.and_eq_true, decide_eq_true_eq, decide_eq_true_eq] at hcomment
    exact absurd hcomment.2 (by dsimp only; omega)
  · cases commentText line with
    | nil =>
      have hnil : ([] : List Byte).take 2 ≠ ascii "%%" := by decide
      exact ⟨hst, hnot hnil⟩
    | cons c text =>
      rw [List.drop_one, List.tail_cons]
      split
      · refine ⟨fun h => absurd rfl h, hnot fun htake => ?_⟩
        exact absurd (List.cons.inj (List.cons.inj htake).2).1 (by decide)
      · rename_i text
        split_ifs with hcapital hplus
        · exact ⟨fun _ => Nat.succ_pos _, fun _ _ => Nat.succ_pos _⟩
        · refine ⟨hst, ?_⟩
          unfold simplifyContinuation
          split_ifs with hno
          · refine hupper rfl ?_
            rw [hplus]
            decide
          · rw [not_or] at hno
            exact fun _ _ => hst hno.1
        · exact ⟨fun h => absurd rfl h, hupper rfl (by simpa using hcapital)⟩
      · rename_i hother hother'
        refine ⟨hst, hnot fun htake => ?_⟩
        cases text with
        | nil => exact absurd (List.cons.inj htake).2 (by decide)
        | cons d text =>
          obtain rfl : d = 37 := (List.cons.inj (List.cons.inj htake).2).1
          exact hother' text rfl

/-- All comments of a section. -/
theorem simplifyLines_pos {st : Simplifier} (hst : st.lastDSC ≠ [] → 0 < st.number) (lines : List (List Byte)) :
    ((simplifyLines st lines).2.lastDSC ≠ [] → 0 < (simplifyLines st lines).2.number) ∧
      ∀ l ∈ (simplifyLines st lines).1, l.isComment = true → (keyLine l).isSome = true → 0 < l.number := by
  induction lines generalizing st with
  | nil => exact ⟨hst, nofun⟩
  | cons line lines ih =>
    obtain ⟨hnext, hline⟩ := simplifyLine_pos hst line
    obtain ⟨hlast, hall⟩ := ih hnext
    exact ⟨hlast, List.forall_mem_cons.2 ⟨hline, hall⟩⟩

/-- The numbers of the comments of a section do not fall and are not 0. -/
structure Numbered (ls : List HeaderLine) : Prop where
  sorted : ls.Pairwise fun l m => l.number ≤ m.number
  pos : ∀ l ∈ ls, (keyLine l).isSome = true → 0 < l.number

theorem simplifierStart_pos : simplifierStart.lastDSC ≠ [] → 0 < simplifierStart.number := fun h => absurd rfl h

theorem headerLines_numbered (d : DscText V) : Numbered d.headerLines where
  sorted := ((simplifyLines_sorted simplifierStart d.header).2.sublist (List.takeWhile_sublist _)).filter _
  pos l hl := by
    obtain ⟨hmem, hcomment⟩ := List.mem_filter.1 hl
    exact (simplifyLines_pos simplifierStart_pos d.header).2 l ((List.takeWhile_sublist _).subset hmem) hcomment

theorem trailerLines_numbered (d : DscText V) : Numbered d.trailerLines where
  sorted := (simplifyLines_sorted _ d.trailer).2.filter _
  pos l hl := by
    obtain ⟨hmem, hcomment⟩ := List.mem_filter.1 hl
    exact (simplifyLines_pos (simplifyLines_pos simplifierStart_pos _).1 d.trailer).2 l hmem hcomment

theorem Numbered.linesOf {ls : List HeaderLine} (h : Numbered ls) (k : Deferrable) :
    ((linesOf k ls).Pairwise fun l m => l.number ≤ m.number) ∧ ∀ l ∈ linesOf k ls, 0 < l.number := by
  have hnumber : ∀ {l : HeaderLine} {m : KeyLine},
      ((keyLine l).bind fun x => if x.1 = k then some x.2 else none) = some m →
        (keyLine l).isSome = true ∧ m.number = l.number := by
    intro l m hm
    obtain ⟨x, hx, hxm⟩ := Option.bind_eq_some_iff.1 hm
    refine ⟨by rw [hx]; rfl, ?_⟩
    split_ifs at hxm
    obtain rfl := Option.some.inj hxm
    unfold keyLine at hx
    cases htokens : tokenize l.line with
    | nil => rw [htokens] at hx; cases hx
    | cons keyword args =>
      rw [htokens] at hx
      obtain ⟨k', -, rfl⟩ := Option.map_eq_some_iff.1 hx
      rfl
  constructor
  · refine List.pairwise_filterMap.2 (h.sorted.imp fun hle b hb b' hb' => ?_)
    rw [(hnumber hb).2, (hnumber hb').2]
    exact hle
  · intro m hm
    obtain ⟨l, hl, hlm⟩ := List.mem_filterMap.1 hm
    rw [(hnumber hlm).2]
    exact h.pos l hl (hnumber hlm).1

/-! ## The flags of resources -/

theorem or_and_ne_zero {x f g : BitVec 32} : (x ||| f) &&& g ≠ 0 ↔ x &&& g ≠ 0 ∨ f &&& g ≠ 0 := by
  have hor : (x ||| f) &&& g = (x &&& g) ||| (f &&& g) := by
    rw [BitVec.and_comm, BitVec.and_or_distrib_left, BitVec.and_comm g x, BitVec.and_comm g f]
  have hzero : (x &&& g) ||| (f &&& g) = 0 ↔ x &&& g = 0 ∧ f &&& g = 0 := BitVec.or_eq_zero_iff
  rw [hor, Ne, hzero, not_and_or]

/-- A reference notes its item, and no other. -/
theorem notedWith_refer [DecidableEq V] (f g : BitVec 32) (x y : Item V) (things : List (Thing V)) :
    NotedWith g y (refer f x things) ↔ NotedWith g y things ∨ y = x ∧ f &&& g ≠ 0 := by
  constructor
  · rintro ⟨u, hu, rfl, hflags⟩
    rcases mem_refer hu with hu | rfl | ⟨t, ht, htx, rfl⟩
    · exact .inl ⟨u, hu, rfl, hflags⟩
    · exact .inr ⟨rfl, hflags⟩
    · rcases or_and_ne_zero.1 hflags with hflags | hflags
      · exact .inl ⟨t, ht, rfl, hflags⟩
      · exact .inr ⟨htx, hflags⟩
  · rintro (⟨t, ht, rfl, hflags⟩ | ⟨rfl, hflags⟩)
    · by_cases htx : t.item = x
      · rcases refer_cases f x things with ⟨i, w, hw, hwx, heq⟩ | ⟨hne, -⟩
        · obtain ⟨j, hj⟩ := List.mem_iff_getElem?.1 ht
          by_cases hij : i = j
          · refine ⟨{ t with flags := t.flags ||| f }, List.mem_of_getElem? (i := j) ?_, rfl,
              or_and_ne_zero.2 (.inl hflags)⟩
            rw [heq, List.getElem?_modify, hj]
            exact congrArg some (if_pos hij)
          · refine ⟨t, List.mem_of_getElem? (i := j) ?_, rfl, hflags⟩
            rw [heq, List.getElem?_modify, hj]
            exact congrArg some (if_neg hij)
        · exact absurd htx (hne t ht)
      · exact ⟨t, mem_refer_of_ne ht htx, rfl, hflags⟩
    · rcases refer_cases f y things with ⟨i, w, hw, hwx, heq⟩ | ⟨-, heq⟩
      · refine ⟨{ w with flags := w.flags ||| f }, List.mem_of_getElem? (i := i) ?_, hwx,
          or_and_ne_zero.2 (.inr hflags)⟩
        rw [heq, List.getElem?_modify, hw]
        exact congrArg some (if_pos rfl)
      · exact ⟨_, by rw [heq]; exact List.mem_append_right _ (List.mem_singleton_self _), rfl, hflags⟩

/-- The flags of two lists are the same or have nothing in common. -/
theorem reftype_flags (c c' : ListComment) :
    c.reftype.flags &&& c'.reftype.flags ≠ 0 ↔ c'.reftype.flags = c.reftype.flags := by
  cases c <;> cases c' <;> decide

theorem and_not_and {x f g : BitVec 32} (h : f &&& g = 0) : x &&& ~~~f &&& g = x &&& g := by
  refine BitVec.eq_of_getLsbD_eq fun i hi => ?_
  have hbit : (f &&& g).getLsbD i = false := by rw [h]; simp
  rw [BitVec.getLsbD_and] at hbit
  simp only [BitVec.getLsbD_and, BitVec.getLsbD_not, hi, decide_true, Bool.true_and]
  cases hf : f.getLsbD i <;> cases hg : g.getLsbD i <;> simp_all

theorem clearThing_item (c : ListComment) (t : Thing V) : (clearThing c t).item = t.item := by
  unfold clearThing
  split
  · split_ifs <;> rfl
  · rfl

theorem clearThing_resource {c : ListComment} {t : Thing V} {r : DscResource V} (h : t.item = .resource r) :
    clearThing c t = if c.covers r.type then { t with flags := t.flags &&& ~~~c.reftype.flags } else t := by
  unfold clearThing
  rw [h]

/-- Clearing takes the flag of the comment from the resources that it covers. -/
theorem notedWith_clear (c c' : ListComment) (r : DscResource V) (things : List (Thing V)) :
    NotedWith c'.reftype.flags (.resource r) (resourceClear c things) ↔
      NotedWith c'.reftype.flags (.resource r) things ∧
        ¬(c'.reftype.flags = c.reftype.flags ∧ c.covers r.type = true) := by
  have hflags : ∀ x : BitVec 32, x &&& ~~~c.reftype.flags &&& c'.reftype.flags ≠ 0 ↔
      x &&& c'.reftype.flags ≠ 0 ∧ ¬c'.reftype.flags = c.reftype.flags := by
    intro x
    by_cases heq : c'.reftype.flags = c.reftype.flags
    · have hzero : x &&& ~~~c.reftype.flags &&& c.reftype.flags = 0 := by
        rw [BitVec.and_assoc]
        simp
      rw [heq, hzero]
      simp
    · rw [and_not_and (not_not.1 ((reftype_flags c c').not.2 heq))]
      simp [heq]
  constructor
  · rintro ⟨u, hu, hur, hne⟩
    obtain ⟨t, ht, rfl⟩ := List.mem_map.1 hu
    rw [clearThing_item] at hur
    rw [clearThing_resource hur] at hne
    split_ifs at hne with hcover
    · obtain ⟨hne, hdiff⟩ := (hflags t.flags).1 hne
      exact ⟨⟨t, ht, hur, hne⟩, fun h => hdiff h.1⟩
    · exact ⟨⟨t, ht, hur, hne⟩, fun h => hcover h.2⟩
  · rintro ⟨⟨t, ht, htr, hne⟩, hno⟩
    refine ⟨clearThing c t, List.mem_map_of_mem ht, (clearThing_item c t).trans htr, ?_⟩
    rw [clearThing_resource htr]
    split_ifs with hcover
    · exact (hflags t.flags).2 ⟨hne, fun h => hno ⟨h, hcover⟩⟩
    · exact hne

theorem notedWith_entries [DecidableEq V] (c c' : ListComment) (r : DscResource V) (es : List (DscResource V))
    (things : List (Thing V)) :
    NotedWith c'.reftype.flags (.resource r)
        (es.foldl (fun things r => refer c.reftype.flags (.resource r) things) things) ↔
      NotedWith c'.reftype.flags (.resource r) things ∨ r ∈ es ∧ c'.reftype.flags = c.reftype.flags := by
  induction es generalizing things with
  | nil => simp
  | cons e es ih =>
    rw [List.foldl_cons, ih, notedWith_refer, reftype_flags, List.mem_cons, Item.resource.injEq]
    tauto

/-- The references of the body are of other kinds than those of the lists. -/
theorem notedWith_body [DecidableEq V] (c : ListComment) (x : Item V) (refs : List (BodyRef × DscResource V))
    (things : List (Thing V)) :
    NotedWith c.reftype.flags x (refs.foldl (fun things y => refer y.1.flags (.resource y.2) things) things) ↔
      NotedWith c.reftype.flags x things := by
  induction refs generalizing things with
  | nil => exact Iff.rfl
  | cons y refs ih =>
    have hother : y.1.flags &&& c.reftype.flags = 0 := by
      cases y.1 <;> cases c <;> decide
    rw [List.foldl_cons, ih, notedWith_refer]
    exact or_iff_left fun h => h.2 hother

/-! ## What the lists have noted -/

/-- The numbers of the last comments, and the resources that they have listed. -/
structure ListsNoted (v : DscValues V) (found : ListComment → ℕ)
    (named : ListComment → List (DscResource V)) : Prop where
  found : v.found = found
  named : ∀ (c : ListComment) (r : DscResource V), NotedWith c.reftype.flags (.resource r) v.things ↔
    ∃ c' : ListComment, c'.reftype.flags = c.reftype.flags ∧ r ∈ named c'

theorem ListsNoted.of_eq {v : DscValues V} {found found' : ListComment → ℕ}
    {named named' : ListComment → List (DscResource V)} (h : ListsNoted v found named)
    (hfound : ∀ c, found' c = found c) (hnamed : ∀ c, named' c = named c) : ListsNoted v found' named' := by
  rw [funext hfound, funext hnamed]
  exact h

/-- The resources of a line are added. -/
theorem ListsNoted.add [DecidableEq V] {v : DscValues V} {found : ListComment → ℕ}
    {named : ListComment → List (DscResource V)} (h : ListsNoted v found named) (D : Doubles V) (trailer : Bool)
    {c : ListComment} {l : KeyLine} (hread : found c = 0 ∨ found c = l.number) :
    ListsNoted (readList D trailer v c l) (Function.update found c l.number)
      (Function.update named c (named c ++ entriesOf D c l.args)) := by
  obtain ⟨rfl, hnamed⟩ := h
  have hgoes : trailer = true ∨ v.found c = 0 ∨ l.number = v.found c := .inr (hread.imp_right Eq.symm)
  have hkeeps : ¬(trailer = true ∧ v.found c ≠ 0 ∧ v.found c ≠ l.number) := fun hno =>
    hread.elim hno.2.1 hno.2.2
  rw [readList, if_pos hgoes, if_neg hkeeps]
  refine ⟨rfl, fun c' r => ?_⟩
  rw [notedWith_entries, hnamed]
  constructor
  · rintro (⟨c'', hflags, hr⟩ | ⟨hr, hflags⟩)
    · refine ⟨c'', hflags, ?_⟩
      by_cases hc : c'' = c
      · rw [hc] at hr ⊢
        rw [Function.update_self]
        exact List.mem_append_left _ hr
      · rwa [Function.update_of_ne hc]
    · refine ⟨c, hflags.symm, ?_⟩
      rw [Function.update_self]
      exact List.mem_append_right _ hr
  · rintro ⟨c'', hflags, hr⟩
    by_cases hc : c'' = c
    · rw [hc, Function.update_self, List.mem_append] at hr
      rw [hc] at hflags
      exact hr.imp (fun hr => ⟨c, hflags, hr⟩) fun hr => ⟨hr, hflags.symm⟩
    · rw [Function.update_of_ne hc] at hr
      exact .inl ⟨c'', hflags, hr⟩

/-- The list of the comment before is replaced, and no other, if none has a resource that is cleared. -/
theorem ListsNoted.replace [DecidableEq V] {D : Doubles V} {v : DscValues V} {found : ListComment → ℕ}
    {named : ListComment → List (DscResource V)} (h : ListsNoted v found named) {c : ListComment} {l : KeyLine}
    (hfound : found c ≠ 0) (hnumber : found c ≠ l.number) (hcovers : ∀ r ∈ named c, c.covers r.type = true)
    (hothers : ∀ c' ≠ c, c'.reftype.flags = c.reftype.flags → ∀ r ∈ named c', c.covers r.type = false) :
    ListsNoted (readList D true v c l) (Function.update found c l.number)
      (Function.update named c (entriesOf D c l.args)) := by
  obtain ⟨rfl, hnamed⟩ := h
  rw [readList, if_pos (.inl rfl), if_pos ⟨rfl, hfound, hnumber⟩]
  refine ⟨rfl, fun c' r => ?_⟩
  rw [notedWith_entries, notedWith_clear, hnamed]
  constructor
  · rintro (⟨⟨c'', hflags, hr⟩, hclear⟩ | ⟨hr, hflags⟩)
    · refine ⟨c'', hflags, ?_⟩
      by_cases hc : c'' = c
      · rw [hc] at hr hflags
        exact absurd ⟨hflags.symm, hcovers r hr⟩ hclear
      · rwa [Function.update_of_ne hc]
    · refine ⟨c, hflags.symm, ?_⟩
      rwa [Function.update_self]
  · rintro ⟨c'', hflags, hr⟩
    by_cases hc : c'' = c
    · rw [hc, Function.update_self] at hr
      exact .inr ⟨hr, by rw [← hflags, hc]⟩
    · rw [Function.update_of_ne hc] at hr
      refine .inl ⟨⟨c'', hflags, hr⟩, fun ⟨hsame, hcover⟩ => ?_⟩
      rw [hothers c'' hc (hflags.trans hsame) r hr] at hcover
      cases hcover

theorem readComment_other [DecidableEq V] (D : Doubles V) (trailer : Bool) (v : DscValues V)
    {x : Deferrable × KeyLine} (hx : ∀ c, x.1 ≠ .list c) :
    (readComment D trailer v x).found = v.found ∧ (readComment D trailer v x).things = v.things := by
  obtain ⟨k, l⟩ := x
  cases k with
  | pages =>
    unfold readComment readPageCount
    dsimp only
    split_ifs
    · cases pagesNumbers l.line <;> exact ⟨rfl, rfl⟩
    · exact ⟨rfl, rfl⟩
  | pageOrder => exact ⟨rfl, rfl⟩
  | orientation =>
    unfold readComment readOrientation
    dsimp only
    split_ifs <;> exact ⟨rfl, rfl⟩
  | list c => exact absurd rfl (hx c)

/-- The other comments leave the lists alone. -/
theorem ListsNoted.other [DecidableEq V] {D : Doubles V} {trailer : Bool} {v : DscValues V}
    {found : ListComment → ℕ} {named : ListComment → List (DscResource V)} (h : ListsNoted v found named)
    {x : Deferrable × KeyLine} (hx : ∀ c, x.1 ≠ .list c) : ListsNoted (readComment D trailer v x) found named := by
  obtain ⟨hfound, hthings⟩ := readComment_other D trailer v hx
  refine ⟨hfound.trans h.found, fun c r => ?_⟩
  rw [hthings]
  exact h.named c r

/-! ## The lists of the header and of the trailer -/

def firstNumber (ls : List KeyLine) : ℕ := (ls.head?.map KeyLine.number).getD 0

def lastNumber (ls : List KeyLine) : ℕ := (ls.getLast?.map KeyLine.number).getD 0

/-- What the first occurrence lists. -/
def firstList (D : Doubles V) (c : ListComment) (ls : List KeyLine) : List (DscResource V) :=
  entriesIn D c (occurrence (firstNumber ls) ls)

/-- What the last occurrence lists. -/
def lastList (D : Doubles V) (c : ListComment) (ls : List KeyLine) : List (DscResource V) :=
  entriesIn D c (occurrence (lastNumber ls) ls)

theorem only_concat_self (k : Deferrable) (xs : List (Deferrable × KeyLine)) (l : KeyLine) :
    only k (xs ++ [(k, l)]) = only k xs ++ [l] := by
  rw [only_append, only_cons, if_pos rfl]
  rfl

theorem only_concat_ne {k k' : Deferrable} (h : k' ≠ k) (xs : List (Deferrable × KeyLine)) (l : KeyLine) :
    only k (xs ++ [(k', l)]) = only k xs := by
  rw [only_append, only_cons, if_neg h]
  exact List.append_nil _

theorem occurrence_concat (n : ℕ) (ls : List KeyLine) (l : KeyLine) :
    occurrence n (ls ++ [l]) = occurrence n ls ++ if l.number = n then [l] else [] := by
  rw [occurrence, List.filter_append, List.filter_singleton]
  by_cases h : l.number = n <;> simp [h, occurrence]

theorem occurrence_singleton (l : KeyLine) : occurrence l.number [l] = [l] := by
  simp [occurrence]

theorem firstNumber_singleton (l : KeyLine) : firstNumber [l] = l.number := rfl

theorem lastNumber_singleton (l : KeyLine) : lastNumber [l] = l.number := rfl

theorem entriesIn_append (D : Doubles V) (c : ListComment) (ls ms : List KeyLine) :
    entriesIn D c (ls ++ ms) = entriesIn D c ls ++ entriesIn D c ms := List.flatMap_append

theorem entriesIn_singleton (D : Doubles V) (c : ListComment) (l : KeyLine) :
    entriesIn D c [l] = entriesOf D c l.args := List.flatMap_singleton ..

theorem firstNumber_concat {ls : List KeyLine} (h : ls ≠ []) (l : KeyLine) :
    firstNumber (ls ++ [l]) = firstNumber ls := by
  rw [firstNumber, List.head?_append_of_ne_nil _ h, firstNumber]

theorem lastNumber_concat (ls : List KeyLine) (l : KeyLine) : lastNumber (ls ++ [l]) = l.number := by
  rw [lastNumber, List.getLast?_concat]
  rfl

theorem firstNumber_ne_zero {ls : List KeyLine} (hne : ls ≠ []) (hpos : ∀ l ∈ ls, 0 < l.number) :
    firstNumber ls ≠ 0 := by
  obtain ⟨l, rest, rfl⟩ := List.exists_cons_of_ne_nil hne
  exact (hpos l List.mem_cons_self).ne'

theorem lastNumber_ne_zero {ls : List KeyLine} (hne : ls ≠ []) (hpos : ∀ l ∈ ls, 0 < l.number) :
    lastNumber ls ≠ 0 := by
  obtain ⟨rest, l, rfl⟩ := (List.eq_nil_or_concat' ls).resolve_left hne
  rw [lastNumber_concat]
  exact (hpos l (List.mem_append_right _ (List.mem_singleton_self l))).ne'

/-- After the header, each list has what its first occurrence lists. -/
theorem header_lists [DecidableEq V] (D : Doubles V) {all : List (Deferrable × KeyLine)}
    (hpos : ∀ c, ∀ l ∈ only (.list c) all, 0 < l.number) {v : DscValues V}
    (hv : ListsNoted v (fun _ => 0) fun _ => []) :
    ListsNoted (all.foldl (readComment D false) v) (fun c => firstNumber (only (.list c) all))
      fun c => firstList D c (only (.list c) all) := by
  refine List.foldl_split (I := fun xs v => ListsNoted v (fun c => firstNumber (only (.list c) xs))
    fun c => firstList D c (only (.list c) xs)) (fun xs x ys v hall hv => ?_) hv
  obtain ⟨k, l⟩ := x
  by_cases hk : ∃ c, k = .list c
  swap
  · have honly : ∀ c, only (.list c) (xs ++ [(k, l)]) = only (.list c) xs := fun c =>
      only_concat_ne (fun hc => hk ⟨c, hc⟩) xs l
    exact (hv.other (x := (k, l)) fun c hc => hk ⟨c, hc⟩).of_eq (fun c => by rw [honly]) fun c => by rw [honly]
  obtain ⟨c, rfl⟩ := hk
  have hothers : ∀ c' ≠ c, only (.list c') (xs ++ [(.list c, l)]) = only (.list c') xs := fun c' hc =>
    only_concat_ne (fun h => hc (Deferrable.list.inj h).symm) xs l
  have hself := only_concat_self (.list c) xs l
  have hxs : ∀ m ∈ only (.list c) xs, 0 < m.number := fun m hm => hpos c m (by
    rw [hall, only_append]
    exact List.mem_append_left _ hm)
  by_cases hempty : only (.list c) xs = []
  · refine (hv.add D false (c := c) (l := l) (.inl (by rw [hempty]; rfl))).of_eq
      (fun c' => ?_) fun c' => ?_
    · by_cases hc : c' = c
      · rw [hc, hself, hempty, Function.update_self]
        rfl
      · rw [hothers c' hc, Function.update_of_ne hc]
    · by_cases hc : c' = c
      · rw [hc, hself, hempty, Function.update_self, List.nil_append, firstList, firstNumber_singleton,
          occurrence_singleton, entriesIn_singleton]
        rfl
      · rw [hothers c' hc, Function.update_of_ne hc]
  have hne := firstNumber_ne_zero hempty hxs
  by_cases hnumber : firstNumber (only (.list c) xs) = l.number
  · refine (hv.add D false (c := c) (l := l) (.inr hnumber)).of_eq (fun c' => ?_) fun c' => ?_
    · by_cases hc : c' = c
      · rw [hc, hself, firstNumber_concat hempty, Function.update_self, hnumber]
      · rw [hothers c' hc, Function.update_of_ne hc]
    · by_cases hc : c' = c
      · rw [hc, hself, Function.update_self, firstList, firstNumber_concat hempty, occurrence_concat,
          if_pos hnumber.symm, entriesIn_append, entriesIn_singleton]
        rfl
      · rw [hothers c' hc, Function.update_of_ne hc]
  · have hsame : readComment D false v (.list c, l) = v := by
      refine if_neg ?_
      rw [hv.found]
      rintro (h | h | h)
      · cases h
      · exact hne h
      · exact hnumber h.symm
    rw [hsame]
    refine hv.of_eq (fun c' => ?_) fun c' => ?_
    · by_cases hc : c' = c
      · rw [hc, hself, firstNumber_concat hempty]
      · rw [hothers c' hc]
    · by_cases hc : c' = c
      · rw [hc, hself, firstList, firstNumber_concat hempty, occurrence_concat, if_neg (Ne.symm hnumber),
          List.append_nil]
        rfl
      · rw [hothers c' hc]

theorem resourceOf_type (D : Doubles V) (type name : List Byte) (words : List (List Byte)) :
    (resourceOf D type name words).1.type = type := by
  unfold resourceOf
  split_ifs
  · cases words with
    | nil => rfl
    | cons version words =>
      dsimp only
      split_ifs
      · cases words with
        | nil => rfl
        | cons revision words =>
          dsimp only
          split_ifs <;> rfl
      · rfl
  · rfl

theorem mem_resourceLoop_type {D : Doubles V} {type : List Byte} {n : ℕ} {words : List (List Byte)}
    {r : DscResource V} (h : r ∈ resourceLoop D type n words) : r.type = type := by
  induction words generalizing n with
  | nil => cases n <;> cases h
  | cons word words ih =>
    cases n with
    | succ n => exact ih h
    | zero =>
      rcases List.mem_cons.1 h with rfl | h
      · exact resourceOf_type D type word words
      · exact ih h

/-- A comment covers what it lists. -/
theorem covers_of_mem {D : Doubles V} {c : ListComment} {ls : List KeyLine} {r : DscResource V}
    (h : r ∈ entriesIn D c ls) : c.covers r.type = true := by
  obtain ⟨l, -, hr⟩ := List.mem_flatMap.1 h
  rw [ListComment.covers]
  unfold entriesOf at hr
  cases htype : c.restype with
  | none => rfl
  | some type =>
    rw [htype] at hr
    simpa using (mem_resourceLoop_type hr).symm

/-- In lines with rising numbers, the lines before one with a new number have others. -/
theorem occurrence_new {ls : List KeyLine} {l : KeyLine} (hsorted : (ls ++ [l]).Pairwise fun l m => l.number ≤ m.number)
    (hnew : lastNumber ls ≠ l.number) : occurrence l.number ls = [] := by
  rw [occurrence, List.filter_eq_nil_iff]
  intro m hm hnumber
  obtain ⟨rest, t, rfl⟩ := (List.eq_nil_or_concat' ls).resolve_left (List.ne_nil_of_mem hm)
  rw [lastNumber_concat] at hnew
  have hlast : t.number ≤ l.number :=
    (List.pairwise_append.1 hsorted).2.2 t (List.mem_append_right _ (List.mem_singleton_self t)) l
      (List.mem_singleton_self l)
  have hm' : m.number ≤ t.number := by
    rcases List.mem_append.1 hm with hm | hm
    · exact (List.pairwise_append.1 (List.pairwise_append.1 hsorted).1).2.2 m hm t (List.mem_singleton_self t)
    · rw [List.mem_singleton.1 hm]
  have hsame : m.number = l.number := of_decide_eq_true hnumber
  omega

/-- What the lists have when some lines of the trailer have been read. -/
def listedSoFar (D : Doubles V) (start : ListComment → List (DscResource V)) (xs : List (Deferrable × KeyLine))
    (c : ListComment) : List (DscResource V) := start c ++ lastList D c (only (.list c) xs)

/-- Where an occurrence in the trailer replaces an earlier one, no other comment of the same kind of reference
has listed a resource of the types that it clears. -/
def Unmixed (D : Doubles V) (start : ListComment → List (DscResource V)) (ts : List (Deferrable × KeyLine)) : Prop :=
  ∀ xs c l ys, ts = xs ++ (.list c, l) :: ys → only (.list c) xs ≠ [] →
    lastNumber (only (.list c) xs) ≠ l.number →
      ∀ c' ≠ c, c'.reftype.flags = c.reftype.flags → ∀ r ∈ listedSoFar D start xs c', c.covers r.type = false

/-- After the trailer, each list has what its last occurrence there lists, or what it had before. -/
theorem trailer_lists [DecidableEq V] (D : Doubles V) {start : ListComment → List (DscResource V)}
    {number : ListComment → ℕ} {all : List (Deferrable × KeyLine)}
    (hpos : ∀ c, ∀ l ∈ only (.list c) all, 0 < l.number)
    (hsorted : ∀ c, (only (.list c) all).Pairwise fun l m => l.number ≤ m.number)
    (hapart : ∀ c, number c = 0 ∧ start c = [] ∨ only (.list c) all = []) (hunmixed : Unmixed D start all)
    {v : DscValues V} (hv : ListsNoted v number start) :
    ListsNoted (all.foldl (readComment D true) v)
      (fun c => if only (.list c) all = [] then number c else lastNumber (only (.list c) all))
      (listedSoFar D start all) := by
  refine List.foldl_split (I := fun xs v => ListsNoted v (fun c => if only (.list c) xs = [] then number c else
    lastNumber (only (.list c) xs)) (listedSoFar D start xs))
    (fun xs x ys v hall hv => ?_) (hv.of_eq (fun c => if_pos rfl) fun c => List.append_nil _)
  obtain ⟨k, l⟩ := x
  by_cases hk : ∃ c, k = .list c
  swap
  · have honly : ∀ c, only (.list c) (xs ++ [(k, l)]) = only (.list c) xs := fun c =>
      only_concat_ne (fun hc => hk ⟨c, hc⟩) xs l
    exact (hv.other (x := (k, l)) fun c hc => hk ⟨c, hc⟩).of_eq (fun c => by rw [honly]) fun c => by
      rw [listedSoFar, honly, listedSoFar]
  obtain ⟨c, rfl⟩ := hk
  have hothers : ∀ c' ≠ c, only (.list c') (xs ++ [(.list c, l)]) = only (.list c') xs := fun c' hc =>
    only_concat_ne (fun h => hc (Deferrable.list.inj h).symm) xs l
  have hself := only_concat_self (.list c) xs l
  have honly : only (.list c) all = only (.list c) xs ++ l :: only (.list c) ys := by
    rw [hall, only_append, only_cons, if_pos rfl]
    rfl
  obtain ⟨hzero, hnil⟩ := (hapart c).resolve_right (by rw [honly]; simp)
  have hxs : ∀ m ∈ only (.list c) xs, 0 < m.number := fun m hm => hpos c m (by
    rw [honly]
    exact List.mem_append_left _ hm)
  have hseen : only (.list c) xs ++ [l] ≠ [] := by simp
  have hlisted : ∀ zs, listedSoFar D start zs c = lastList D c (only (.list c) zs) := fun zs => by
    rw [listedSoFar, hnil, List.nil_append]
  -- The cases of `handle_superseded()`.
  by_cases hempty : only (.list c) xs = []
  · refine (hv.add D true (c := c) (l := l) (.inl (by rw [if_pos hempty, hzero]))).of_eq
      (fun c' => ?_) fun c' => ?_
    · by_cases hc : c' = c
      · rw [hc, hself, if_neg hseen, lastNumber_concat, Function.update_self]
      · rw [hothers c' hc, Function.update_of_ne hc]
    · by_cases hc : c' = c
      · rw [hc, Function.update_self, hlisted, hlisted, hself, hempty, List.nil_append, lastList, lastList,
          lastNumber_singleton, occurrence_singleton, entriesIn_singleton]
        rfl
      · rw [Function.update_of_ne hc, listedSoFar, hothers c' hc, listedSoFar]
  have hne := lastNumber_ne_zero hempty hxs
  by_cases hnumber : lastNumber (only (.list c) xs) = l.number
  · refine (hv.add D true (c := c) (l := l) (.inr (by rw [if_neg hempty, hnumber]))).of_eq
      (fun c' => ?_) fun c' => ?_
    · by_cases hc : c' = c
      · rw [hc, hself, if_neg hseen, lastNumber_concat, Function.update_self]
      · rw [hothers c' hc, Function.update_of_ne hc]
    · by_cases hc : c' = c
      · rw [hc, Function.update_self, hlisted, hlisted, hself, lastList, lastNumber_concat, occurrence_concat,
          if_pos rfl, entriesIn_append, entriesIn_singleton, lastList, hnumber]
      · rw [Function.update_of_ne hc, listedSoFar, hothers c' hc, listedSoFar]
  · refine (hv.replace (D := D) (c := c) (l := l) (by rwa [if_neg hempty]) (by rwa [if_neg hempty])
      (fun r hr => ?_) fun c' hc hflags r hr => ?_).of_eq (fun c' => ?_) fun c' => ?_
    · rw [hlisted] at hr
      exact covers_of_mem hr
    · exact hunmixed xs c l ys hall hempty hnumber c' hc hflags r hr
    · by_cases hc : c' = c
      · rw [hc, hself, if_neg hseen, lastNumber_concat, Function.update_self]
      · rw [hothers c' hc, Function.update_of_ne hc]
    · by_cases hc : c' = c
      · have hnew : occurrence l.number (only (.list c) xs) = [] := occurrence_new (by
          refine (hsorted c).sublist ?_
          rw [honly]
          exact (List.Sublist.refl _).append (List.singleton_sublist.2 List.mem_cons_self)) hnumber
        rw [hc, Function.update_self, hlisted, hself, lastList, lastNumber_concat, occurrence_concat, hnew,
          if_pos rfl, List.nil_append, entriesIn_singleton]
      · rw [Function.update_of_ne hc, listedSoFar, hothers c' hc, listedSoFar]

end Ppr
