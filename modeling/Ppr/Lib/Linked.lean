import Mathlib.Data.Finset.Card
import Mathlib.Data.Finset.Range
import Mathlib.Logic.Function.Basic
import Mathlib.Tactic.Common

/-!
# Linked lists

Singly linked lists whose cells are in one heap, searched and edited through pointers to pointers.  A
cell that has been freed cannot be read.  `Holds` says which lists a memory holds; each operation takes
it to the lists with one list changed.
-/

namespace Linked

variable {ι α : Type}

structure Cell (α : Type) where
  item : α
  next : Option ℕ

/-- A heap, and for each list a pointer to its first cell. -/
structure Memory (ι α : Type) where
  roots : ι → Option ℕ
  cells : ℕ → Option (Cell α)
  /-- From here on no cell has been allocated. -/
  brk : ℕ

/-- Where a pointer to a cell is stored. -/
inductive Slot (ι : Type) where
  | root (i : ι)
  | next (a : ℕ)

/-! ## Segments -/

/-- From `p` on the cells of `l` are linked one to the next, and the last one to `q`. -/
def Segment (cells : ℕ → Option (Cell α)) : Option ℕ → List (ℕ × α) → Option ℕ → Prop
  | p, [], q => p = q
  | p, c :: l, q => p = some c.1 ∧ ∃ next, cells c.1 = some ⟨c.2, next⟩ ∧ Segment cells next l q

theorem segment_append {cells : ℕ → Option (Cell α)} {p q : Option ℕ} {l₁ l₂ : List (ℕ × α)} :
    Segment cells p (l₁ ++ l₂) q ↔ ∃ r, Segment cells p l₁ r ∧ Segment cells r l₂ q := by
  induction l₁ generalizing p with
  | nil => exact ⟨fun h => ⟨p, rfl, h⟩, fun ⟨_, hp, h⟩ => hp ▸ h⟩
  | cons c l₁ ih =>
    constructor
    · rintro ⟨hp, next, hc, h⟩
      obtain ⟨r, h₁, h₂⟩ := ih.1 h
      exact ⟨r, ⟨hp, next, hc, h₁⟩, h₂⟩
    · rintro ⟨r, ⟨hp, next, hc, h₁⟩, h₂⟩
      exact ⟨hp, next, hc, ih.2 ⟨r, h₁, h₂⟩⟩

/-- Another cell may change. -/
theorem Segment.update {cells : ℕ → Option (Cell α)} {p q : Option ℕ} {l : List (ℕ × α)}
    (h : Segment cells p l q) {a : ℕ} (ha : a ∉ l.map Prod.fst) (c : Option (Cell α)) :
    Segment (Function.update cells a c) p l q := by
  induction l generalizing p with
  | nil => exact h
  | cons d l ih =>
    obtain ⟨hp, next, hd, h⟩ := h
    rw [List.map_cons, List.mem_cons, not_or] at ha
    exact ⟨hp, next, by rw [Function.update_of_ne (Ne.symm ha.1), hd], ih h ha.2⟩

theorem Segment.head {cells : ℕ → Option (Cell α)} {p : Option ℕ} {l : List (ℕ × α)}
    (h : Segment cells p l none) : p = l.head?.map Prod.fst := by
  cases l with
  | nil => exact h
  | cons c l => exact h.1

namespace Memory

/-! ## Operations -/

/-- Memory without lists. -/
def empty : Memory ι α := ⟨fun _ => none, fun _ => none, 0⟩

def readSlot (m : Memory ι α) : Slot ι → Option (Option ℕ)
  | .root i => some (m.roots i)
  | .next a => (m.cells a).map Cell.next

def writeSlot [DecidableEq ι] (m : Memory ι α) (p : Option ℕ) : Slot ι → Option (Memory ι α)
  | .root i => some { m with roots := Function.update m.roots i p }
  | .next a => (m.cells a).map fun c =>
    { m with cells := Function.update m.cells a (some { c with next := p }) }

/-- Other contents for a cell. -/
def store (m : Memory ι α) (a : ℕ) (item : α) : Option (Memory ι α) :=
  (m.cells a).map fun c => { m with cells := Function.update m.cells a (some { c with item }) }

/-- A new cell with nothing behind it. -/
def alloc (m : Memory ι α) (item : α) : Memory ι α :=
  { m with cells := Function.update m.cells m.brk (some ⟨item, none⟩), brk := m.brk + 1 }

def free (m : Memory ι α) (a : ℕ) : Memory ι α :=
  { m with cells := Function.update m.cells a none }

/-- The first cell that is looked for, and where the pointer to it is stored. -/
def walk (m : Memory ι α) (found : α → Bool) : ℕ → Slot ι → Option (Slot ι × Option ℕ)
  | 0, _ => none
  | fuel + 1, slot => do
    match ← m.readSlot slot with
    | none => return (slot, none)
    | some a =>
      let c ← m.cells a
      if found c.item then return (slot, some a) else m.walk found fuel (.next a)

/-- The contents of the first cell that is looked for. -/
def seek (m : Memory ι α) (found : α → Bool) : ℕ → Option ℕ → Option (Option α)
  | 0, _ => none
  | _ + 1, none => some none
  | fuel + 1, some a => do
    let c ← m.cells a
    if found c.item then return some c.item else m.seek found fuel c.next

/-! ## The lists that are held -/

/-- Each list is linked from its root on, and no cell is in two places. -/
structure Holds (m : Memory ι α) (lists : ι → List (ℕ × α)) : Prop where
  linked : ∀ i, Segment m.cells (m.roots i) (lists i) none
  nodup : ∀ i, ((lists i).map Prod.fst).Nodup
  apart : ∀ i j, i ≠ j → ∀ c ∈ lists i, ∀ d ∈ lists j, c.1 ≠ d.1
  allocated : ∀ i, ∀ c ∈ lists i, c.1 < m.brk

/-- The slot behind the cells of `before`. -/
def slotAfter (i : ι) (before : List (ℕ × α)) : Slot ι :=
  match before.getLast? with
  | none => .root i
  | some c => .next c.1

variable {m : Memory ι α} {lists : ι → List (ℕ × α)} {i : ι} {before rest : List (ℕ × α)} {c : ℕ × α}

theorem holds_empty : (empty : Memory ι α).Holds fun _ => [] :=
  ⟨fun _ => rfl, fun _ => List.nodup_nil, fun _ _ _ _ hc => (nomatch hc), fun _ _ hc => (nomatch hc)⟩

theorem slotAfter_concat (i : ι) (before : List (ℕ × α)) (c : ℕ × α) : slotAfter i (before ++ [c]) = .next c.1 := by
  simp [slotAfter]

theorem Holds.length_lt (h : m.Holds lists) (i : ι) : (lists i).length < m.brk + 1 := by
  have hsub : ((lists i).map Prod.fst).toFinset ⊆ Finset.range m.brk := by
    intro a ha
    rw [List.mem_toFinset, List.mem_map] at ha
    obtain ⟨c, hc, rfl⟩ := ha
    exact Finset.mem_range.2 (h.allocated i c hc)
  have hcard := Finset.card_le_card hsub
  rw [List.toFinset_card_of_nodup (h.nodup i), List.length_map, Finset.card_range] at hcard
  exact Nat.lt_succ_of_le hcard

theorem Holds.cell (h : m.Holds lists) (hi : lists i = before ++ c :: rest) :
    m.cells c.1 = some ⟨c.2, rest.head?.map Prod.fst⟩ := by
  have hlinked := h.linked i
  rw [hi, segment_append] at hlinked
  obtain ⟨_, -, -, next, hc, hrest⟩ := hlinked
  rw [hc, hrest.head]

theorem Holds.root (h : m.Holds lists) (i : ι) : m.roots i = (lists i).head?.map Prod.fst :=
  (h.linked i).head

theorem Holds.readSlot (h : m.Holds lists) (hi : lists i = before ++ rest) :
    m.readSlot (slotAfter i before) = some (rest.head?.map Prod.fst) := by
  rcases List.eq_nil_or_concat before with rfl | ⟨before, c, rfl⟩
  · show some (m.roots i) = _
    rw [h.root, hi]
    rfl
  · rw [List.concat_eq_append] at hi ⊢
    rw [List.append_assoc] at hi
    rw [slotAfter_concat, Memory.readSlot, h.cell hi]
    rfl

/-! ## Searches -/

theorem Holds.walk (h : m.Holds lists) {found : α → Bool} {passed : List (ℕ × α)}
    (hi : lists i = before ++ (passed ++ rest)) (hpassed : ∀ c ∈ passed, found c.2 = false)
    (hrest : ∀ c ∈ rest.head?, found c.2 = true) {fuel : ℕ} (hfuel : passed.length < fuel) :
    m.walk found fuel (slotAfter i before) =
      some (slotAfter i (before ++ passed), rest.head?.map Prod.fst) := by
  induction passed generalizing before fuel with
  | nil =>
    obtain ⟨fuel, rfl⟩ := Nat.exists_eq_add_one_of_ne_zero (Nat.ne_of_gt hfuel)
    rw [Memory.walk, h.readSlot hi, List.append_nil]
    cases rest with
    | nil => rfl
    | cons c rest =>
      have hfound : found c.2 = true := hrest c rfl
      show (m.cells c.1).bind _ = _
      rw [h.cell hi]
      show (if found c.2 then _ else _) = _
      rw [if_pos hfound]
      rfl
  | cons c passed ih =>
    obtain ⟨fuel, rfl⟩ := Nat.exists_eq_add_one_of_ne_zero (Nat.ne_of_gt (Nat.zero_lt_of_lt hfuel))
    have hc : found c.2 = false := hpassed c List.mem_cons_self
    rw [Memory.walk, h.readSlot hi]
    show (m.cells c.1).bind _ = _
    rw [h.cell hi]
    show (if found c.2 then _ else _) = _
    rw [if_neg (by rw [hc]; exact Bool.false_ne_true), ← slotAfter_concat i before c]
    have hi' : lists i = (before ++ [c]) ++ (passed ++ rest) := by
      rw [hi]
      simp
    have hnext := ih hi'
      (fun d hd => hpassed d (List.mem_cons_of_mem c hd)) (Nat.lt_of_succ_lt_succ hfuel)
    rw [hnext, List.append_assoc]
    rfl

theorem Holds.seek (h : m.Holds lists) {found : α → Bool} {passed : List (ℕ × α)}
    (hi : lists i = before ++ (passed ++ rest)) (hpassed : ∀ c ∈ passed, found c.2 = false)
    (hrest : ∀ c ∈ rest.head?, found c.2 = true) {fuel : ℕ} (hfuel : passed.length < fuel) :
    m.seek found fuel ((passed ++ rest).head?.map Prod.fst) = some (rest.head?.map Prod.snd) := by
  induction passed generalizing before fuel with
  | nil =>
    obtain ⟨fuel, rfl⟩ := Nat.exists_eq_add_one_of_ne_zero (Nat.ne_of_gt hfuel)
    cases rest with
    | nil => rfl
    | cons c rest =>
      have hfound : found c.2 = true := hrest c rfl
      show (m.cells c.1).bind _ = _
      rw [h.cell hi]
      show (if found c.2 then _ else _) = _
      rw [if_pos hfound]
      rfl
  | cons c passed ih =>
    obtain ⟨fuel, rfl⟩ := Nat.exists_eq_add_one_of_ne_zero (Nat.ne_of_gt (Nat.zero_lt_of_lt hfuel))
    have hc : found c.2 = false := hpassed c List.mem_cons_self
    show (m.cells c.1).bind _ = _
    rw [h.cell hi]
    show (if found c.2 then _ else _) = _
    rw [if_neg (by rw [hc]; exact Bool.false_ne_true)]
    have hi' : lists i = (before ++ [c]) ++ (passed ++ rest) := by
      rw [hi]
      simp
    exact ih hi' (fun d hd => hpassed d (List.mem_cons_of_mem c hd))
      (Nat.lt_of_succ_lt_succ hfuel)

/-! ## Edits -/

/-- What stands behind some cells is replaced. -/
theorem writeSlot_spec [DecidableEq ι] {r : Option ℕ} (h : Segment m.cells (m.roots i) before r)
    (hnodup : (before.map Prod.fst).Nodup) (p : Option ℕ) :
    ∃ m', m.writeSlot p (slotAfter i before) = some m' ∧ Segment m'.cells (m'.roots i) before p ∧
      m'.brk = m.brk ∧ (∀ j ≠ i, m'.roots j = m.roots j) ∧
      ∀ q l q', Segment m.cells q l q' → (∀ c ∈ before, c.1 ∉ l.map Prod.fst) → Segment m'.cells q l q' := by
  rcases List.eq_nil_or_concat before with rfl | ⟨before, c, rfl⟩
  · exact ⟨_, rfl, Function.update_self .., rfl, fun j hj => Function.update_of_ne hj .., fun _ _ _ h _ => h⟩
  · rw [List.concat_eq_append] at h hnodup ⊢
    obtain ⟨q, hbefore, rfl, next, hc, -⟩ := segment_append.1 h
    have hnot : c.1 ∉ before.map Prod.fst := by
      rw [List.map_append, List.nodup_append] at hnodup
      intro hmem
      exact hnodup.2.2 _ hmem _ (List.mem_singleton_self _) rfl
    refine ⟨{ m with cells := Function.update m.cells c.1 (some ⟨c.2, p⟩) }, ?_, ?_, rfl, fun _ _ => rfl, ?_⟩
    · rw [slotAfter_concat, writeSlot, hc]
      rfl
    · exact segment_append.2 ⟨_, hbefore.update hnot _, rfl, p, Function.update_self .., rfl⟩
    · intro q l q' hl hapart
      exact hl.update (hapart c (by simp)) _

variable [DecidableEq ι]

/-- The frame of an edit of one list. -/
theorem Holds.edit {m' : Memory ι α} {l : List (ℕ × α)} (h : m.Holds lists) (hlinked : Segment m'.cells (m'.roots i) l none)
    (hnodup : (l.map Prod.fst).Nodup) (hbrk : m.brk ≤ m'.brk)
    (hold : ∀ c ∈ l, c.1 ∈ (lists i).map Prod.fst ∨ (m.brk ≤ c.1 ∧ c.1 < m'.brk))
    (hother : ∀ j ≠ i, Segment m'.cells (m'.roots j) (lists j) none) : m'.Holds (Function.update lists i l) := by
  have hold' : ∀ j ≠ i, ∀ c ∈ l, ∀ d ∈ lists j, c.1 ≠ d.1 := by
    intro j hj c hc d hd hcd
    rcases hold c hc with hmem | ⟨hnew, -⟩
    · obtain ⟨e, he, hec⟩ := List.mem_map.1 hmem
      exact h.apart i j hj.symm e he d hd (hec.trans hcd)
    · exact absurd (h.allocated j d hd) (by omega)
  constructor
  · intro j
    by_cases hj : j = i
    · subst hj
      rw [Function.update_self]
      exact hlinked
    · rw [Function.update_of_ne hj]
      exact hother j hj
  · intro j
    by_cases hj : j = i
    · subst hj
      rw [Function.update_self]
      exact hnodup
    · rw [Function.update_of_ne hj]
      exact h.nodup j
  · intro j k hjk c hc d hd
    by_cases hj : j = i
    · subst hj
      rw [Function.update_self] at hc
      rw [Function.update_of_ne (Ne.symm hjk)] at hd
      exact hold' k (Ne.symm hjk) c hc d hd
    · rw [Function.update_of_ne hj] at hc
      by_cases hk : k = i
      · subst hk
        rw [Function.update_self] at hd
        exact (hold' j hj d hd c hc).symm
      · rw [Function.update_of_ne hk] at hd
        exact h.apart j k hjk c hc d hd
  · intro j c hc
    by_cases hj : j = i
    · subst hj
      rw [Function.update_self] at hc
      rcases hold c hc with hmem | ⟨-, hlt⟩
      · obtain ⟨e, he, hec⟩ := List.mem_map.1 hmem
        exact hec ▸ Nat.lt_of_lt_of_le (h.allocated j e he) hbrk
      · exact hlt
    · rw [Function.update_of_ne hj] at hc
      exact Nat.lt_of_lt_of_le (h.allocated j c hc) hbrk

/-- A cell is unlinked and freed. -/
theorem Holds.remove (h : m.Holds lists) (hi : lists i = before ++ c :: rest) :
    ∃ m', m.writeSlot (rest.head?.map Prod.fst) (slotAfter i before) = some m' ∧
      (m'.free c.1).Holds (Function.update lists i (before ++ rest)) := by
  have hlinked := h.linked i
  have hnodup := h.nodup i
  rw [hi, segment_append] at hlinked
  obtain ⟨r, hbefore, -, next, -, hrest⟩ := hlinked
  rw [hi, List.map_append, List.map_cons] at hnodup
  have hparts := List.nodup_append.1 hnodup
  have hrestNodup := List.nodup_cons.1 hparts.2.1
  obtain ⟨m', hwrite, hbefore', hbrk, hroots, hframe⟩ := writeSlot_spec hbefore hparts.1 (rest.head?.map Prod.fst)
  refine ⟨m', hwrite, h.edit ?_ ?_ hbrk.ge ?_ ?_⟩
  · have hrest' : Segment m'.cells (rest.head?.map Prod.fst) rest none := by
      apply hframe
      · rw [← hrest.head]
        exact hrest
      · intro d hd hmem
        exact hparts.2.2 _ (List.mem_map_of_mem hd) _ (List.mem_cons_of_mem _ hmem) rfl
    apply segment_append.2 ⟨_, hbefore'.update _ none, hrest'.update hrestNodup.1 none⟩
    intro hmem
    exact hparts.2.2 _ hmem _ List.mem_cons_self rfl
  · rw [List.map_append]
    exact hnodup.sublist (List.Sublist.append_left (List.sublist_cons_self ..) _)
  · intro d hd
    left
    rw [hi]
    apply List.mem_map_of_mem
    rcases List.mem_append.1 hd with hd | hd
    · exact List.mem_append_left _ hd
    · exact List.mem_append_right _ (List.mem_cons_of_mem c hd)
  · intro j hj
    have hapart : ∀ d ∈ lists i, d.1 ∉ (lists j).map Prod.fst := by
      intro d hd hmem
      obtain ⟨e, he, hed⟩ := List.mem_map.1 hmem
      exact h.apart i j hj.symm d hd e he hed.symm
    have hlinked : Segment m'.cells (m'.roots j) (lists j) none := by
      rw [hroots j hj]
      apply hframe _ _ _ (h.linked j)
      intro d hd
      exact hapart d (by rw [hi]; exact List.mem_append_left _ hd)
    exact hlinked.update (hapart c (by rw [hi]; simp)) none

/-- A cell is put at the end of a list. -/
theorem Holds.append (h : m.Holds lists) (i : ι) (item : α) :
    ∃ m', (m.alloc item).writeSlot (some m.brk) (slotAfter i (lists i)) = some m' ∧
      m'.Holds (Function.update lists i (lists i ++ [(m.brk, item)])) := by
  have hfresh : ∀ j, m.brk ∉ (lists j).map Prod.fst := by
    intro j hmem
    obtain ⟨c, hc, hbrk⟩ := List.mem_map.1 hmem
    exact absurd (h.allocated j c hc) (by omega)
  have halloc : ∀ j, Segment (m.alloc item).cells (m.roots j) (lists j) none := fun j =>
    (h.linked j).update (hfresh j) _
  have hitem : Segment (m.alloc item).cells (some m.brk) [(m.brk, item)] none :=
    ⟨rfl, none, Function.update_self .., rfl⟩
  obtain ⟨m', hwrite, hbefore, hbrk, hroots, hframe⟩ :=
    writeSlot_spec (m := m.alloc item) (halloc i) (h.nodup i) (some m.brk)
  refine ⟨m', hwrite, h.edit ?_ ?_ ?_ ?_ ?_⟩
  · apply segment_append.2 ⟨_, hbefore, hframe _ _ _ hitem _⟩
    intro c hc hmem
    have := h.allocated i c hc
    rw [List.map_singleton, List.mem_singleton] at hmem
    omega
  · rw [List.map_append, List.nodup_append]
    refine ⟨h.nodup i, List.nodup_singleton _, ?_⟩
    intro a ha b hb hab
    rw [List.map_singleton, List.mem_singleton] at hb
    rw [hab, hb] at ha
    exact hfresh i ha
  · rw [hbrk]
    exact Nat.le_succ _
  · intro c hc
    rcases List.mem_append.1 hc with hc | hc
    · exact .inl (List.mem_map_of_mem hc)
    · right
      rw [List.mem_singleton.1 hc, hbrk]
      exact ⟨le_rfl, Nat.lt_succ_self _⟩
  · intro j hj
    rw [hroots j hj]
    apply hframe _ _ _ (halloc j)
    intro c hc hmem
    obtain ⟨d, hd, hdc⟩ := List.mem_map.1 hmem
    exact h.apart i j hj.symm c hc d hd hdc.symm

/-- The contents of a cell are replaced. -/
theorem Holds.store (h : m.Holds lists) (hi : lists i = before ++ c :: rest) (item : α) :
    ∃ m', m.store c.1 item = some m' ∧ m'.Holds (Function.update lists i (before ++ (c.1, item) :: rest)) := by
  have hlinked := h.linked i
  have hnodup := h.nodup i
  rw [hi, segment_append] at hlinked
  obtain ⟨r, hbefore, rfl, next, hc, hrest⟩ := hlinked
  rw [hi, List.map_append, List.map_cons] at hnodup
  have hparts := List.nodup_append.1 hnodup
  have hrestNodup := List.nodup_cons.1 hparts.2.1
  refine ⟨{ m with cells := Function.update m.cells c.1 (some ⟨item, next⟩) }, ?_, h.edit ?_ ?_ le_rfl ?_ ?_⟩
  · rw [Memory.store, hc]
    rfl
  · refine segment_append.2 ⟨_, hbefore.update ?_ _, rfl, next, Function.update_self .., hrest.update hrestNodup.1 _⟩
    intro hmem
    exact hparts.2.2 _ hmem _ List.mem_cons_self rfl
  · rw [List.map_append, List.map_cons]
    exact hnodup
  · intro d hd
    left
    rw [hi, List.map_append, List.map_cons, ← List.map_cons (f := Prod.fst) (a := (c.1, item)), ← List.map_append]
    exact List.mem_map_of_mem hd
  · intro j hj
    apply (h.linked j).update
    intro hmem
    obtain ⟨d, hd, hdc⟩ := List.mem_map.1 hmem
    exact h.apart j i hj d hd c (by rw [hi]; simp) hdc

end Memory

end Linked
