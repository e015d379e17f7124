import Ppr.Spool.Deferred
import Ppr.Spool.ThingsNoted

/-!
# Which occurrence counts

The value of a comment that may be deferred is that of its first occurrence in the header or, if that is
"(atend)", of its last occurrence in the trailer.  This is shown of `header_trailer()` for the documents
on which its sentinel values and the clearing of lists do no harm.
-/

namespace Ppr

/-! ## What the comments should say -/

/-- The lines with one comment. -/
def linesOf (k : Deferrable) (ls : List HeaderLine) : List KeyLine :=
  ls.filterMap fun l => (keyLine l).bind fun x => if x.1 = k then some x.2 else none

/-- The line that counts, if the comment takes one line. -/
def settling (k : Deferrable) (header trailer : List HeaderLine) : Option KeyLine :=
  match (linesOf k header).head? with
  | none => none
  | some h => if isAtend k h.args then (linesOf k trailer).getLast? else some h

def pagesOf (l : KeyLine) : Option (BitVec 32) :=
  match pagesNumbers l.line with
  | n :: _ => some (n.number 32)
  | [] => none

def orderOf (l : KeyLine) : Option (BitVec 32) := l.args.head?.bind pageOrderOf

def orientOf (l : KeyLine) : Option Orientation := l.args.head?.bind orientationOf

/-- The lines of one occurrence. -/
def occurrence (n : ℕ) (ls : List KeyLine) : List KeyLine := ls.filter (·.number = n)

def lastOccurrence (ls : List KeyLine) : List KeyLine :=
  (ls.getLast?.map fun t => occurrence t.number ls).getD []

/-- A line that names something. -/
def KeyLine.worded (l : KeyLine) : Bool := l.args ≠ []

/-- The first line of an occurrence that names something is "(atend)". -/
def deferredBy (c : ListComment) (ls : List KeyLine) : Bool :=
  (ls.find? KeyLine.worded).any fun l => isAtend (.list c) l.args

variable {V : Type}

def entriesIn (D : Doubles V) (c : ListComment) (ls : List KeyLine) : List (DscResource V) :=
  ls.flatMap fun l => entriesOf D c l.args

/-- The resources that a comment lists. -/
def listed (D : Doubles V) (c : ListComment) (header trailer : List HeaderLine) : List (DscResource V) :=
  match (linesOf (.list c) header).head? with
  | none => []
  | some h =>
    if deferredBy c (occurrence h.number (linesOf (.list c) header)) then
      entriesIn D c (lastOccurrence (linesOf (.list c) trailer))
    else entriesIn D c (occurrence h.number (linesOf (.list c) header))

/-- An item is noted with one of the flags. -/
def NotedWith (flags : BitVec 32) (x : Item V) (things : List (Thing V)) : Prop :=
  ∃ t ∈ things, t.item = x ∧ t.flags &&& flags ≠ 0

/-- What ppr ends up with is what the comments that count say. -/
structure Kept (D : Doubles V) (header trailer : List HeaderLine) (v : DscValues V) : Prop where
  pages : v.pages = ((settling .pages header trailer).bind pagesOf).getD (-1)
  pageorder : v.pageorder = ((settling .pageOrder header trailer).bind orderOf).getD 1
  orientation : v.orientation = ((settling .orientation header trailer).bind orientOf).getD .unknown
  lists : ∀ (c : ListComment) (r : DscResource V), NotedWith c.reftype.flags (.resource r) v.things ↔
    ∃ c' : ListComment, c'.reftype.flags = c.reftype.flags ∧ r ∈ listed D c' header trailer

/-! ## The condition -/

/-- The line that counts has a value. -/
structure Settled (k : Deferrable) (valid : KeyLine → Bool) (header trailer : List HeaderLine) : Prop where
  first : ∀ h ∈ (linesOf k header).head?, isAtend k h.args = false → h.worded = true ∧ valid h = true
  last : ∀ h ∈ (linesOf k header).head?, isAtend k h.args = true → ∀ t ∈ (linesOf k trailer).getLast?,
    isAtend k t.args = false ∧ t.worded = true ∧ valid t = true

/-- The line gives a number of pages; -1 stands for none. -/
def pagesValid (l : KeyLine) : Bool := (pagesOf l).any (· ≠ -1)

def orderValid (l : KeyLine) : Bool := (orderOf l).isSome

def orientValid (l : KeyLine) : Bool := (orientOf l).isSome

/-- A line that is read where it is not ignored. -/
def KeyLine.heeded (k : Deferrable) (l : KeyLine) : Bool := l.worded && !isAtend k l.args

/-- No other comment sets the page order to something else. -/
structure OrderAlone (header trailer : List HeaderLine) : Prop where
  /-- No second number is read with the number of pages. -/
  pages : ∀ h ∈ (linesOf .pages header).head?,
    if isAtend .pages h.args then
      ∀ l ∈ linesOf .pages trailer, l.heeded .pages = true → (pagesNumbers l.line).length ≤ 1
    else (pagesNumbers h.line).length ≤ 1
  /-- A page order in the header that is not the first is the same. -/
  header : ∀ h ∈ (linesOf .pageOrder header).head?, isAtend .pageOrder h.args = false →
    ∀ l ∈ linesOf .pageOrder header, isAtend .pageOrder l.args = false → orderOf l = none ∨ orderOf l = orderOf h

/-- The occurrence of a list that counts is not empty, and "(atend)" is its only line that names something
or is not in it. -/
structure ListedWell (c : ListComment) (header trailer : List HeaderLine) : Prop where
  first : ∀ h ∈ (linesOf (.list c) header).head?,
    let occ := occurrence h.number (linesOf (.list c) header)
    (∃ l ∈ occ, l.worded = true) ∧ (deferredBy c occ = true ∨ ∀ l ∈ occ, isAtend (.list c) l.args = false)
  last : ∀ h ∈ (linesOf (.list c) header).head?,
    deferredBy c (occurrence h.number (linesOf (.list c) header)) = true →
      ∀ t ∈ (linesOf (.list c) trailer).getLast?,
        let occ := occurrence t.number (linesOf (.list c) trailer)
        (∃ l ∈ occ, l.worded = true) ∧ ∀ l ∈ occ, isAtend (.list c) l.args = false

/-! ## The comments that are read -/

/-- The comments that are read, with the flags before the lines. -/
def heedAll (trailer : Bool) : (Deferrable → AtendFlags) → List HeaderLine → List (Deferrable × KeyLine)
  | _, [] => []
  | atend, l :: ls => (heed trailer atend l).1.toList ++ heedAll trailer (heed trailer atend l).2 ls

def atendAll (trailer : Bool) (atend : Deferrable → AtendFlags) (ls : List HeaderLine) :
    Deferrable → AtendFlags :=
  ls.foldl (fun atend l => (heed trailer atend l).2) atend

theorem foldl_headerTrailer [DecidableEq V] (D : Doubles V) (trailer : Bool) (s : DscState V)
    (ls : List HeaderLine) : ls.foldl (headerTrailer D trailer) s =
      ⟨atendAll trailer s.atend ls, (heedAll trailer s.atend ls).foldl (readComment D trailer) s.values⟩ := by
  induction ls generalizing s with
  | nil => rfl
  | cons l ls ih =>
    rw [List.foldl_cons, ih]
    refine congrArg₂ DscState.mk rfl ?_
    rw [heedAll, List.foldl_append]
    unfold headerTrailer
    cases (heed trailer s.atend l).1 <;> rfl

/-- The lines of one comment. -/
def only (k : Deferrable) (xs : List (Deferrable × KeyLine)) : List KeyLine :=
  xs.filterMap fun x => if x.1 = k then some x.2 else none

/-- What is read of the lines of one comment. -/
def heedLines (k : Deferrable) (trailer : Bool) : AtendFlags → List KeyLine → List KeyLine
  | _, [] => []
  | flags, l :: ls =>
    if l.args = [] then heedLines k trailer flags ls
    else
      (if (handleAtend k flags l.args trailer).2 then [] else [l]) ++
        heedLines k trailer (handleAtend k flags l.args trailer).1 ls

/-- The flags of one comment behind its lines. -/
def flagsAfter (k : Deferrable) (trailer : Bool) (flags : AtendFlags) (ls : List KeyLine) : AtendFlags :=
  ls.foldl (fun flags l => if l.args = [] then flags else (handleAtend k flags l.args trailer).1) flags

theorem linesOf_cons (k : Deferrable) (l : HeaderLine) (ls : List HeaderLine) :
    linesOf k (l :: ls) =
      ((keyLine l).bind fun x => if x.1 = k then some x.2 else none).toList ++ linesOf k ls := by
  rw [linesOf, List.filterMap_cons]
  cases (keyLine l).bind fun x => if x.1 = k then some x.2 else none <;> rfl

theorem only_cons (k : Deferrable) (x : Deferrable × KeyLine) (xs : List (Deferrable × KeyLine)) :
    only k (x :: xs) = (if x.1 = k then some x.2 else none).toList ++ only k xs := by
  rw [only, List.filterMap_cons]
  cases (if x.1 = k then some x.2 else none) <;> rfl

theorem only_append (k : Deferrable) (xs ys : List (Deferrable × KeyLine)) :
    only k (xs ++ ys) = only k xs ++ only k ys := List.filterMap_append ..

/-- The comments are independent of each other. -/
theorem only_heedAll (k : Deferrable) (trailer : Bool) (atend : Deferrable → AtendFlags)
    (ls : List HeaderLine) :
    only k (heedAll trailer atend ls) = heedLines k trailer (atend k) (linesOf k ls) ∧
      atendAll trailer atend ls k = flagsAfter k trailer (atend k) (linesOf k ls) := by
  induction ls generalizing atend with
  | nil => exact ⟨rfl, rfl⟩
  | cons l ls ih =>
    obtain ⟨hlines, hflags⟩ := ih (heed trailer atend l).2
    rw [heedAll, only_append, hlines, linesOf_cons, atendAll, List.foldl_cons]
    rw [atendAll] at hflags
    rw [hflags]
    unfold heed
    cases hl : keyLine l with
    | none => exact ⟨rfl, rfl⟩
    | some x =>
      obtain ⟨k', kl⟩ := x
      dsimp only
      by_cases hk : k' = k
      · subst hk
        rw [Option.bind_some, if_pos rfl]
        by_cases hargs : kl.args = []
        · rw [if_pos hargs]
          simp [only, heedLines, flagsAfter, hargs]
        · rw [if_neg hargs]
          simp only [Function.update_self, Option.toList_some, List.singleton_append, heedLines, if_neg hargs,
            flagsAfter, List.foldl_cons]
          split_ifs <;> simp [only]
      · rw [Option.bind_some, if_neg hk]
        by_cases hargs : kl.args = []
        · rw [if_pos hargs]
          exact ⟨rfl, rfl⟩
        · rw [if_neg hargs]
          dsimp only
          rw [Function.update_of_ne (Ne.symm hk)]
          split_ifs <;> simp [only, hk]

theorem heedLines_trailer (k : Deferrable) (flags : AtendFlags) (ls : List KeyLine) :
    heedLines k true flags ls = if flags.deferred then ls.filter (KeyLine.heeded k) else [] := by
  induction ls generalizing flags with
  | nil => simp [heedLines]
  | cons l ls ih =>
    rw [heedLines]
    by_cases hargs : l.args = []
    · rw [if_pos hargs, ih, List.filter_cons_of_neg (by simp [KeyLine.heeded, KeyLine.worded, hargs])]
    · rw [if_neg hargs]
      unfold handleAtend
      cases hatend : isAtend k l.args
      · simp only [Bool.false_eq_true, if_false, if_true, ih]
        rw [List.filter_cons_of_pos (by simp [KeyLine.heeded, KeyLine.worded, hargs, hatend])]
        cases flags.deferred <;> simp
      · simp only [if_true, ih, List.nil_append]
        rw [List.filter_cons_of_neg (by simp [KeyLine.heeded, hatend])]

/-- When the comment has been seen, the flag does not change any more. -/
theorem heedLines_seen {k : Deferrable} {flags : AtendFlags} (hseen : flags.seen = true) (ls : List KeyLine) :
    heedLines k false flags ls = (if flags.deferred then [] else ls.filter (KeyLine.heeded k)) ∧
      (flagsAfter k false flags ls).deferred = flags.deferred := by
  induction ls generalizing flags with
  | nil => simp [heedLines, flagsAfter]
  | cons l ls ih =>
    rw [heedLines, flagsAfter, List.foldl_cons]
    by_cases hargs : l.args = []
    · rw [if_pos hargs, if_pos hargs, List.filter_cons_of_neg (by simp [KeyLine.heeded, KeyLine.worded, hargs])]
      exact ih hseen
    · rw [if_neg hargs, if_neg hargs]
      unfold handleAtend
      cases hatend : isAtend k l.args
      · obtain ⟨hlines, hflags⟩ := @ih { flags with seen := true } rfl
        rw [List.filter_cons_of_pos (by simp [KeyLine.heeded, KeyLine.worded, hargs, hatend])]
        simp only [Bool.false_eq_true, if_false, hlines]
        refine ⟨?_, hflags⟩
        cases flags.deferred <;> simp
      · obtain ⟨hlines, hflags⟩ := @ih { flags with wasDeferred := true } hseen
        rw [List.filter_cons_of_neg (by simp [KeyLine.heeded, hatend])]
        simp only [if_true, if_pos hseen, Bool.false_eq_true, if_false, hlines, List.nil_append]
        exact ⟨trivial, hflags⟩

/-- The first line with an argument says whether the comment is deferred. -/
def startsAtend (k : Deferrable) (ls : List KeyLine) : Bool :=
  (ls.find? KeyLine.worded).any fun l => isAtend k l.args

theorem heedLines_header (k : Deferrable) (ls : List KeyLine) :
    heedLines k false atendClear ls = (if startsAtend k ls then [] else ls.filter (KeyLine.heeded k)) ∧
      (flagsAfter k false atendClear ls).deferred = startsAtend k ls := by
  induction ls with
  | nil => exact ⟨rfl, rfl⟩
  | cons l ls ih =>
    rw [heedLines, flagsAfter, List.foldl_cons]
    by_cases hargs : l.args = []
    · have hworded : l.worded = false := by simp [KeyLine.worded, hargs]
      rw [if_pos hargs, if_pos hargs, List.filter_cons_of_neg (by simp [KeyLine.heeded, hworded]), startsAtend,
        List.find?_cons_of_neg (by simp [hworded])]
      exact ih
    · have hworded : l.worded = true := by simp [KeyLine.worded, hargs]
      rw [if_neg hargs, if_neg hargs, startsAtend, List.find?_cons_of_pos hworded, Option.any_some]
      unfold handleAtend
      cases hatend : isAtend k l.args
      · obtain ⟨hlines, hflags⟩ := @heedLines_seen k ⟨true, false, false⟩ rfl ls
        rw [List.filter_cons_of_pos (by simp [KeyLine.heeded, hworded, hatend])]
        simp only [atendClear, Bool.false_eq_true, if_false, hlines]
        exact ⟨rfl, hflags⟩
      · obtain ⟨hlines, hflags⟩ := @heedLines_seen k ⟨true, true, false⟩ rfl ls
        simp only [atendClear, if_true, Bool.false_eq_true, if_false, hlines]
        exact ⟨rfl, hflags⟩

/-- The flags and the comments of the header and of the trailer. -/
theorem heeded_lines (k : Deferrable) (header trailer : List HeaderLine) :
    only k (heedAll false (fun _ => atendClear) header) =
        (if startsAtend k (linesOf k header) then [] else (linesOf k header).filter (KeyLine.heeded k)) ∧
      only k (heedAll true (atendAll false (fun _ => atendClear) header) trailer) =
        if startsAtend k (linesOf k header) then (linesOf k trailer).filter (KeyLine.heeded k) else [] := by
  obtain ⟨hheader, hflags⟩ := heedLines_header k (linesOf k header)
  have hall := only_heedAll k false (fun _ => atendClear) header
  refine ⟨hall.1.trans hheader, ?_⟩
  rw [(only_heedAll k true _ trailer).1, heedLines_trailer, hall.2, hflags]

theorem worded_of_isAtend {k : Deferrable} {l : KeyLine} (h : isAtend k l.args = true) : l.worded = true := by
  unfold isAtend at h
  cases hargs : l.args with
  | nil => simp [hargs] at h
  | cons a args => simp [KeyLine.worded, hargs]

theorem startsAtend_cons {k : Deferrable} {h : KeyLine} (hw : h.worded = true) (ls : List KeyLine) :
    startsAtend k (h :: ls) = isAtend k h.args := by
  rw [startsAtend, List.find?_cons_of_pos hw, Option.any_some]

/-- What is read, if the line that counts has a value: the first line of the header and others, or lines of
the trailer that end with the last. -/
inductive Readings (k : Deferrable) (header trailer : List HeaderLine) :
    List KeyLine → List KeyLine → Prop where
  | none (h : settling k header trailer = none) : Readings k header trailer [] []
  | header (h : KeyLine) (ls : List KeyLine) (hhead : (linesOf k header).head? = some h)
      (hfirst : isAtend k h.args = false) (hsettling : settling k header trailer = some h)
      (hls : ∀ l ∈ ls, l ∈ linesOf k header ∧ isAtend k l.args = false) : Readings k header trailer (h :: ls) []
  | trailer (h : KeyLine) (ls : List KeyLine) (t : KeyLine) (hhead : (linesOf k header).head? = some h)
      (hfirst : isAtend k h.args = true) (hsettling : settling k header trailer = some t)
      (hls : ∀ l ∈ ls ++ [t], l ∈ linesOf k trailer ∧ l.heeded k = true) :
      Readings k header trailer [] (ls ++ [t])

theorem Settled.readings {k : Deferrable} {valid : KeyLine → Bool} {header trailer : List HeaderLine}
    (hs : Settled k valid header trailer) :
    Readings k header trailer (only k (heedAll false (fun _ => atendClear) header))
      (only k (heedAll true (atendAll false (fun _ => atendClear) header) trailer)) := by
  obtain ⟨hheader, htrailer⟩ := heeded_lines k header trailer
  rw [hheader, htrailer]
  cases hlines : linesOf k header with
  | nil => exact .none (by rw [settling, hlines]; rfl)
  | cons h ls =>
    have hhead : (linesOf k header).head? = some h := by rw [hlines]; rfl
    cases hatend : isAtend k h.args with
    | false =>
      obtain ⟨hw, -⟩ := hs.first h hhead hatend
      rw [startsAtend_cons hw, hatend, List.filter_cons_of_pos (by simp [KeyLine.heeded, hw, hatend])]
      refine .header h _ hhead hatend ?_ fun l hl => ?_
      · rw [settling, hhead]
        simp [hatend]
      · obtain ⟨hl, hheed⟩ := List.mem_filter.1 hl
        rw [KeyLine.heeded, Bool.and_eq_true, Bool.not_eq_true'] at hheed
        exact ⟨hlines ▸ List.mem_cons_of_mem _ hl, hheed.2⟩
    | true =>
      rw [startsAtend_cons (worded_of_isAtend hatend), hatend, if_pos rfl, if_pos rfl]
      have hsettling : settling k header trailer = (linesOf k trailer).getLast? := by
        rw [settling, hhead]
        simp [hatend]
      rcases List.eq_nil_or_concat' (linesOf k trailer) with hnil | ⟨ts, t, hts⟩
      · rw [hnil] at hsettling ⊢
        exact .none hsettling
      · have hlast : (linesOf k trailer).getLast? = some t := by rw [hts, List.getLast?_concat]
        obtain ⟨hno, hw, -⟩ := hs.last h hhead hatend t hlast
        have hheed : t.heeded k = true := by simp [KeyLine.heeded, hw, hno]
        have hmem : ∀ l ∈ (linesOf k trailer).filter (KeyLine.heeded k), l ∈ linesOf k trailer ∧
            l.heeded k = true := fun l hl => List.mem_filter.1 hl
        have hfilter : (linesOf k trailer).filter (KeyLine.heeded k) = ts.filter (KeyLine.heeded k) ++ [t] := by
          rw [hts, List.filter_append, List.filter_cons_of_pos hheed, List.filter_nil]
        rw [hfilter] at hmem ⊢
        exact .trailer h _ t hhead hatend (hsettling.trans hlast) hmem

/-! ## Pages, page order and orientation -/

/-- A value that is read in the header if there is none yet. -/
def cellStep {α : Type} [DecidableEq α] (trailer : Bool) (unset : α) (value : KeyLine → Option α) (x : α)
    (l : KeyLine) : α :=
  if trailer = true ∨ x = unset then (value l).getD x else x

theorem cell_set {α : Type} [DecidableEq α] {unset x : α} (hx : x ≠ unset) (value : KeyLine → Option α)
    (ls : List KeyLine) : ls.foldl (cellStep false unset value) x = x := by
  induction ls with
  | nil => rfl
  | cons l ls ih =>
    rw [List.foldl_cons, cellStep, if_neg (by simpa using hx)]
    exact ih

/-- Such a value is that of the line that counts. -/
theorem Settled.cell {α : Type} [DecidableEq α] {k : Deferrable} {valid : KeyLine → Bool}
    {header trailer : List HeaderLine} (hs : Settled k valid header trailer) (unset : α)
    (value : KeyLine → Option α) (hvalid : ∀ l, valid l = true → ∃ x, value l = some x ∧ x ≠ unset) :
    (only k (heedAll true (atendAll false (fun _ => atendClear) header) trailer)).foldl (cellStep true unset value)
        ((only k (heedAll false (fun _ => atendClear) header)).foldl (cellStep false unset value) unset) =
      ((settling k header trailer).bind value).getD unset := by
  have hread := hs.readings
  revert hread
  generalize only k (heedAll false (fun _ => atendClear) header) = hl
  generalize only k (heedAll true (atendAll false (fun _ => atendClear) header) trailer) = tl
  intro hread
  cases hread with
  | none hnone => rw [hnone]; rfl
  | header h ls hhead hfirst hsettling hls =>
    obtain ⟨x, hx, hne⟩ := hvalid h (hs.first h hhead hfirst).2
    rw [hsettling, Option.bind_some, hx, List.foldl_cons, cellStep, if_pos (.inr rfl), hx]
    exact cell_set hne value ls
  | trailer h ls t hhead hfirst hsettling hls =>
    have hlast : (linesOf k trailer).getLast? = some t := by
      have := hsettling
      rw [settling, hhead] at this
      simpa [hfirst] using this
    obtain ⟨x, hx, -⟩ := hvalid t (hs.last h hhead hfirst t hlast).2.2
    rw [hsettling, Option.bind_some, hx, List.foldl_append, List.foldl_cons, List.foldl_nil, cellStep,
      if_pos (.inl rfl), hx]
    rfl

theorem readList_scalars [DecidableEq V] (D : Doubles V) (trailer : Bool) (v : DscValues V) (c : ListComment)
    (l : KeyLine) : (readList D trailer v c l).pages = v.pages ∧
      (readList D trailer v c l).pageorder = v.pageorder ∧
      (readList D trailer v c l).orientation = v.orientation := by
  unfold readList
  split_ifs <;> exact ⟨rfl, rfl, rfl⟩

theorem readPageCount_orientation (trailer : Bool) (v : DscValues V) (l : KeyLine) :
    (readPageCount trailer v l).orientation = v.orientation := by
  unfold readPageCount
  split_ifs
  · cases pagesNumbers l.line <;> rfl
  · rfl

theorem readPageCount_pages (trailer : Bool) (v : DscValues V) (l : KeyLine) :
    (readPageCount trailer v l).pages = cellStep trailer (-1) pagesOf v.pages l := by
  unfold readPageCount cellStep pagesOf
  split_ifs
  · cases pagesNumbers l.line <;> rfl
  · rfl

theorem readOrientation_scalars (trailer : Bool) (v : DscValues V) (l : KeyLine) :
    (readOrientation trailer v l).pages = v.pages ∧ (readOrientation trailer v l).pageorder = v.pageorder ∧
      (readOrientation trailer v l).orientation = cellStep trailer .unknown orientOf v.orientation l := by
  unfold readOrientation cellStep orientOf
  split_ifs <;> exact ⟨rfl, rfl, rfl⟩

/-- A value that the lines of one comment alone change, as long as `I` holds. -/
theorem foldl_only {σ α : Type} {I : σ → Prop} {k : Deferrable} {proj : σ → α} {step : α → KeyLine → α}
    {read : σ → Deferrable × KeyLine → σ} {xs : List (Deferrable × KeyLine)}
    (hk : ∀ v l, proj (read v (k, l)) = step (proj v) l)
    (hI : ∀ v, I v → ∀ x ∈ xs, I (read v x) ∧ (x.1 ≠ k → proj (read v x) = proj v)) {v : σ} (hv : I v) :
    proj (xs.foldl read v) = (only k xs).foldl step (proj v) := by
  induction xs generalizing v with
  | nil => rfl
  | cons x xs ih =>
    obtain ⟨hx, hother⟩ := hI v hv x List.mem_cons_self
    rw [List.foldl_cons, ih (fun v hv x hx => hI v hv x (List.mem_cons_of_mem _ hx)) hx, only_cons]
    obtain ⟨k', l⟩ := x
    by_cases hkk : k' = k
    · rw [hkk, hk, if_pos rfl]
      rfl
    · rw [hother hkk, if_neg hkk]
      rfl

theorem pages_foldl [DecidableEq V] (D : Doubles V) (trailer : Bool) (v : DscValues V)
    (xs : List (Deferrable × KeyLine)) : (xs.foldl (readComment D trailer) v).pages =
      (only .pages xs).foldl (cellStep trailer (-1) pagesOf) v.pages := by
  refine foldl_only (I := fun _ => True) (readPageCount_pages trailer) (fun v _ x _ => ⟨trivial, fun hx => ?_⟩)
    trivial
  obtain ⟨k, l⟩ := x
  cases k with
  | pages => exact absurd rfl hx
  | pageOrder => rfl
  | orientation => exact (readOrientation_scalars trailer v l).1
  | list c => exact (readList_scalars D trailer v c l).1

theorem orientation_foldl [DecidableEq V] (D : Doubles V) (trailer : Bool) (v : DscValues V)
    (xs : List (Deferrable × KeyLine)) : (xs.foldl (readComment D trailer) v).orientation =
      (only .orientation xs).foldl (cellStep trailer .unknown orientOf) v.orientation := by
  refine foldl_only (I := fun _ => True) (fun v l => (readOrientation_scalars trailer v l).2.2)
    (fun v _ x _ => ⟨trivial, fun hx => ?_⟩) trivial
  obtain ⟨k, l⟩ := x
  cases k with
  | pages => exact readPageCount_orientation trailer v l
  | pageOrder => rfl
  | orientation => exact absurd rfl hx
  | list c => exact (readList_scalars D trailer v c l).2.2

/-- The next page order. -/
def orderStep (x : BitVec 32) (l : KeyLine) : BitVec 32 := (orderOf l).getD x

/-- The number of pages does not change the order, if it is alone on its line. -/
theorem readPageCount_pageorder {trailer : Bool} {v : DscValues V} {l : KeyLine}
    (h : (pagesNumbers l.line).length ≤ 1) : (readPageCount trailer v l).pageorder = v.pageorder := by
  unfold readPageCount
  split_ifs
  · cases hnumbers : pagesNumbers l.line with
    | nil => rfl
    | cons n order =>
      rw [hnumbers, List.length_cons] at h
      obtain rfl := List.eq_nil_of_length_eq_zero (by omega : order.length = 0)
      rfl
  · rfl

/-- The page order, if the lines of other comments leave it alone. -/
theorem order_foldl [DecidableEq V] (D : Doubles V) (trailer : Bool) {I : DscValues V → Prop} {v : DscValues V}
    {xs : List (Deferrable × KeyLine)} (hI : ∀ v, I v → ∀ x ∈ xs, I (readComment D trailer v x))
    (hpages : ∀ v, I v → ∀ l, (.pages, l) ∈ xs → (readPageCount trailer v l).pageorder = v.pageorder) (hv : I v) :
    (xs.foldl (readComment D trailer) v).pageorder = (only .pageOrder xs).foldl orderStep v.pageorder := by
  refine foldl_only (fun v l => rfl) (fun v hv x hx => ⟨hI v hv x hx, fun hk => ?_⟩) hv
  obtain ⟨k, l⟩ := x
  cases k with
  | pages => exact hpages v hv l hx
  | pageOrder => exact absurd rfl hk
  | orientation => exact (readOrientation_scalars trailer v l).2.1
  | list c => exact (readList_scalars D trailer v c l).2.1

/-- Once the number of pages is known, the header does not read another. -/
theorem order_foldl_known [DecidableEq V] (D : Doubles V) {v : DscValues V} (hv : v.pages ≠ -1)
    (xs : List (Deferrable × KeyLine)) :
    (xs.foldl (readComment D false) v).pageorder = (only .pageOrder xs).foldl orderStep v.pageorder := by
  have hpages : ∀ v : DscValues V, v.pages ≠ -1 → ∀ l, readPageCount false v l = v := fun v hv l =>
    if_neg (by simpa using hv)
  refine order_foldl D false (I := fun v => v.pages ≠ -1) (fun v hv x _ => ?_)
    (fun v hv l _ => congrArg _ (hpages v hv l)) hv
  obtain ⟨k, l⟩ := x
  cases k with
  | pages =>
    have hsame : readComment D false v (.pages, l) = v := hpages v hv l
    rwa [hsame]
  | pageOrder => exact hv
  | orientation => exact (readOrientation_scalars false v l).1.symm ▸ hv
  | list c => exact (readList_scalars D false v c l).1.symm ▸ hv

theorem order_foldl_header [DecidableEq V] (D : Doubles V) (v : DscValues V)
    {xs : List (Deferrable × KeyLine)}
    (h : ∀ l ∈ (only .pages xs).head?, pagesValid l = true ∧ (pagesNumbers l.line).length ≤ 1) :
    (xs.foldl (readComment D false) v).pageorder = (only .pageOrder xs).foldl orderStep v.pageorder := by
  induction xs generalizing v with
  | nil => rfl
  | cons x xs ih =>
    by_cases hv : v.pages = -1
    swap
    · exact order_foldl_known D hv _
    obtain ⟨k, l⟩ := x
    rw [List.foldl_cons]
    cases k with
    | pages =>
      obtain ⟨hvalid, hlen⟩ := h l rfl
      have hknown : (readComment D false v (.pages, l)).pages ≠ -1 := by
        refine (readPageCount_pages false v l).trans_ne ?_
        rw [pagesValid, Option.any_eq_true] at hvalid
        obtain ⟨n, hn, hne⟩ := hvalid
        rw [cellStep, if_pos (.inr hv), hn]
        simpa using hne
      have horder : (readComment D false v (.pages, l)).pageorder = v.pageorder := readPageCount_pageorder hlen
      rw [order_foldl_known D hknown, horder]
      rfl
    | pageOrder => exact ih _ h
    | orientation =>
      have horder : (readComment D false v (.orientation, l)).pageorder = v.pageorder :=
        (readOrientation_scalars false v l).2.1
      rw [ih _ h, horder]
      rfl
    | list c =>
      have horder : (readComment D false v (.list c, l)).pageorder = v.pageorder :=
        (readList_scalars D false v c l).2.1
      rw [ih _ h, horder]
      rfl

theorem mem_only {k : Deferrable} {l : KeyLine} {xs : List (Deferrable × KeyLine)} (h : (k, l) ∈ xs) :
    l ∈ only k xs := List.mem_filterMap.2 ⟨_, h, if_pos rfl⟩

theorem foldl_orderStep {o : BitVec 32} {ls : List KeyLine} (h : ∀ l ∈ ls, orderOf l = none ∨ orderOf l = some o) :
    ls.foldl orderStep o = o := by
  induction ls with
  | nil => rfl
  | cons l ls ih =>
    obtain ⟨hl, hls⟩ := List.forall_mem_cons.1 h
    have hstep : orderStep o l = o := by
      rcases hl with hl | hl <;> (rw [orderStep, hl]; rfl)
    rw [List.foldl_cons, hstep, ih hls]

/-- The page order is that of the line that counts. -/
theorem order_settled [DecidableEq V] (D : Doubles V) {header trailer : List HeaderLine} {v w : DscValues V}
    (hpages : Settled .pages pagesValid header trailer)
    (horder : Settled .pageOrder orderValid header trailer) (halone : OrderAlone header trailer)
    (hv : v.pageorder = 1)
    (hw : w.pageorder =
      ((heedAll false (fun _ => atendClear) header).foldl (readComment D false) v).pageorder) :
    ((heedAll true (atendAll false (fun _ => atendClear) header) trailer).foldl (readComment D true) w).pageorder =
      ((settling .pageOrder header trailer).bind orderOf).getD 1 := by
  have hcount := hpages.readings
  have hread := horder.readings
  have hfirst : ∀ l ∈ (only .pages (heedAll false (fun _ => atendClear) header)).head?,
      pagesValid l = true ∧ (pagesNumbers l.line).length ≤ 1 := by
    revert hcount
    generalize only .pages (heedAll false (fun _ => atendClear) header) = hl
    generalize only .pages (heedAll true (atendAll false (fun _ => atendClear) header) trailer) = tl
    intro hcount l hl
    cases hcount with
    | none => cases hl
    | header h ls hhead hno =>
      obtain rfl := Option.some.inj hl
      have hlen := halone.pages _ hhead
      rw [if_neg (by simp [hno])] at hlen
      exact ⟨(hpages.first _ hhead hno).2, hlen⟩
    | trailer => cases hl
  have hlast : ∀ l ∈ only .pages (heedAll true (atendAll false (fun _ => atendClear) header) trailer),
      (pagesNumbers l.line).length ≤ 1 := by
    revert hcount
    generalize only .pages (heedAll false (fun _ => atendClear) header) = hl
    generalize only .pages (heedAll true (atendAll false (fun _ => atendClear) header) trailer) = tl
    intro hcount l hl
    cases hcount with
    | none => cases hl
    | header => cases hl
    | trailer h ls t hhead hyes _ hls =>
      have hlen := halone.pages _ hhead
      rw [if_pos hyes] at hlen
      exact hlen l (hls l hl).1 (hls l hl).2
  rw [order_foldl D true (I := fun _ => True) (fun _ _ _ _ => trivial)
    (fun v _ l hl => readPageCount_pageorder (hlast l (mem_only hl))) trivial, hw,
    order_foldl_header D v hfirst, hv]
  revert hread
  generalize only .pageOrder (heedAll false (fun _ => atendClear) header) = hl
  generalize only .pageOrder (heedAll true (atendAll false (fun _ => atendClear) header) trailer) = tl
  intro hread
  cases hread with
  | none hnone => rw [hnone]; rfl
  | header h ls hhead hno hsettling hls =>
    obtain ⟨o, ho⟩ := Option.isSome_iff_exists.1 (horder.first h hhead hno).2
    have hsame : ∀ l ∈ ls, orderOf l = none ∨ orderOf l = some o := fun l hl => by
      obtain ⟨hmem, hlno⟩ := hls l hl
      exact ho ▸ halone.header h hhead hno l hmem hlno
    have hstep : orderStep 1 h = o := by rw [orderStep, ho]; rfl
    rw [hsettling, Option.bind_some, ho, List.foldl_cons, hstep, foldl_orderStep hsame]
    rfl
  | trailer h ls t hhead hyes hsettling hls =>
    have hlast : (linesOf .pageOrder trailer).getLast? = some t := by
      have := hsettling
      rw [settling, hhead] at this
      simpa [hyes] using this
    obtain ⟨o, ho⟩ := Option.isSome_iff_exists.1 (horder.last h hhead hyes t hlast).2.2
    rw [hsettling, Option.bind_some, ho, List.foldl_append, List.foldl_cons, List.foldl_nil, orderStep, ho]
    rfl

end Ppr
