import Mathlib.Data.Int.Basic
import Mathlib.Data.List.Basic
import Mathlib.Tactic.Common

/-!
# Perl compatible arrays

The arrays of `gu_pca.c`: a block of slots of which those from `removed_at_start` to `size_used` are in
use.  An item is a pointer, so it may be NULL.  Every access to a slot is checked against the block.
-/

namespace Ppr

/-- `struct PCA`; `size_allocated` is the length of `storage`. -/
structure Pca (α : Type) where
  removedAtStart : ℕ
  sizeUsed : ℕ
  increment : ℕ
  storage : List (Option α)

namespace Pca

/-- Why a function does not return. -/
inductive Fault where
  /-- It accesses a slot that is not in the block. -/
  | wild
  /-- "array is not growable". -/
  | notGrowable
  deriving DecidableEq

variable {α : Type}

/-! ## Slots -/

def read (storage : List (Option α)) (i : ℕ) : Except Fault (Option α) :=
  match storage[i]? with
  | some item => .ok item
  | none => .error .wild

def write (storage : List (Option α)) (i : ℕ) (item : Option α) : Except Fault (List (Option α)) :=
  if i < storage.length then .ok (storage.set i item) else .error .wild

/-- `memmove()` of `n` slots. -/
def memmove (storage : List (Option α)) (dst src n : ℕ) : Except Fault (List (Option α)) :=
  if n = 0 ∨ (dst + n ≤ storage.length ∧ src + n ≤ storage.length) then
    .ok (storage.take dst ++ (storage.drop src).take n ++ storage.drop (dst + n))
  else .error .wild

/-! ## The functions -/

/-- `gu_pca_new()`; `garbage` is what a slot has in it before it is written. -/
def new (garbage : Option α) (initialSize increment : ℕ) : Pca α :=
  ⟨0, 0, increment, List.replicate initialSize garbage⟩

/-- `gu_pca_expand()`. -/
def expand (garbage : Option α) (p : Pca α) : Except Fault (Pca α) :=
  if p.increment = 0 then .error .notGrowable
  else .ok { p with storage := p.storage ++ List.replicate p.increment garbage }

/-- `gu_pca_size()`. -/
def size (p : Pca α) : ℤ := p.sizeUsed - p.removedAtStart

/-- `gu_pca_index()`. -/
def index (p : Pca α) (index : ℤ) : Except Fault (Option α) :=
  let index := index + p.removedAtStart
  if 0 ≤ index ∧ index ≤ p.sizeUsed then read p.storage index.toNat else .ok none

/-- `gu_pca_pop()`. -/
def pop (p : Pca α) : Except Fault (Pca α × Option α) :=
  if p.removedAtStart < p.sizeUsed then do
    let item ← read p.storage (p.sizeUsed - 1)
    return ({ p with sizeUsed := p.sizeUsed - 1 }, item)
  else .ok (p, none)

/-- The room that `gu_pca_push()` makes at the end. -/
def makeRoom (garbage : Option α) (p : Pca α) : Except Fault (Pca α) :=
  if p.sizeUsed = p.storage.length then
    if 0 < p.removedAtStart then do
      -- slide the array down
      let storage ← memmove p.storage 0 p.removedAtStart (p.sizeUsed - p.removedAtStart)
      return { p with
        storage
        sizeUsed := p.sizeUsed - p.removedAtStart
        removedAtStart := 0 }
    else expand garbage p
  else .ok p

/-- `gu_pca_push()`. -/
def push (garbage : Option α) (p : Pca α) (item : Option α) : Except Fault (Pca α) := do
  let p ← makeRoom garbage p
  let storage ← write p.storage p.sizeUsed item
  return { p with storage, sizeUsed := p.sizeUsed + 1 }

/-- `gu_pca_shift()`. -/
def shift (p : Pca α) : Except Fault (Pca α × Option α) :=
  if p.removedAtStart < p.sizeUsed then do
    let item ← read p.storage p.removedAtStart
    return ({ p with removedAtStart := p.removedAtStart + 1 }, item)
  else .ok (p, none)

/-- `gu_pca_unshift()`. -/
def unshift (garbage : Option α) (p : Pca α) (item : Option α) : Except Fault (Pca α) :=
  if 0 < p.removedAtStart then do
    let storage ← write p.storage (p.removedAtStart - 1) item
    return { p with storage, removedAtStart := p.removedAtStart - 1 }
  else do
    let p ← (if p.sizeUsed = p.storage.length then expand garbage p else .ok p)
    let storage ← memmove p.storage 1 0 p.sizeUsed
    let storage ← write storage 0 item
    return { p with storage, sizeUsed := p.sizeUsed + 1 }

/-! ## Runs -/

inductive Op (α : Type) where
  | push (item : Option α)
  | pop
  | shift
  | unshift (item : Option α)
  | index (i : ℤ)
  | size

inductive Result (α : Type) where
  | done
  | item (item : Option α)
  | size (n : ℤ)
  deriving DecidableEq

/-- A call. -/
def step (garbage : Option α) (p : Pca α) : Op α → Except Fault (Pca α × Result α)
  | .push item => do return (← p.push garbage item, .done)
  | .pop => do
    let (p, item) ← p.pop
    return (p, .item item)
  | .shift => do
    let (p, item) ← p.shift
    return (p, .item item)
  | .unshift item => do return (← p.unshift garbage item, .done)
  | .index i => do return (p, .item (← p.index i))
  | .size => .ok (p, .size p.size)

/-- Calls one after the other, with their results. -/
def run (garbage : Option α) : Pca α → List (Op α) → Except Fault (Pca α × List (Result α))
  | p, [] => .ok (p, [])
  | p, op :: ops => do
    let (p, r) ← p.step garbage op
    let (p, rs) ← run garbage p ops
    return (p, r :: rs)

/-! ## Sequences -/

/-- What a call does to a sequence of items. -/
def Op.ideal : Op α → List (Option α) → List (Option α) × Result α
  | .push item, l => (l ++ [item], .done)
  | .pop, l => (l.dropLast, .item l.getLast?.join)
  | .shift, l => (l.tail, .item l.head?.join)
  | .unshift item, l => (item :: l, .done)
  | .index i, l => (l, .item (if 0 ≤ i then l[i.toNat]?.join else none))
  | .size, l => (l, .size l.length)

def idealRun : List (Option α) → List (Op α) → List (Option α) × List (Result α)
  | l, [] => (l, [])
  | l, op :: ops =>
    let (l, r) := op.ideal l
    let (l, rs) := idealRun l ops
    (l, r :: rs)

/-- The results are those of a sequence, and no slot is accessed that is not in the block. -/
def Refines (garbage : Option α) (initialSize increment : ℕ) (ops : List (Op α)) : Prop :=
  ∃ p, run garbage (new garbage initialSize increment) ops = .ok (p, (idealRun [] ops).2)

/-- Where `gu_pca_index()` looks there is an item, or it does not look. -/
def Spared (p : Pca α) : Op α → Prop
  | .index i => i ≠ p.size ∧ ¬(-(p.removedAtStart : ℤ) ≤ i ∧ i < 0)
  | _ => True

/-- Every call of the run is spared. -/
def SparedRun (garbage : Option α) : Pca α → List (Op α) → Prop
  | _, [] => True
  | p, op :: ops =>
    p.Spared op ∧
      match p.step garbage op with
      | .ok (p, _) => SparedRun garbage p ops
      | .error _ => True

/-! ## The items -/

/-- The array is the sequence: it stands in the block behind what was removed. -/
structure Represents (p : Pca α) (l : List (Option α)) : Prop where
  growable : 0 < p.increment
  block : ∃ a b, p.storage = a ++ (l ++ b) ∧ p.removedAtStart = a.length ∧ p.sizeUsed = a.length + l.length

theorem represents_new (garbage : Option α) (initialSize : ℕ) {increment : ℕ} (h : 0 < increment) :
    (new garbage initialSize increment).Represents [] :=
  ⟨h, [], _, rfl, rfl, rfl⟩

theorem read_append (a b : List (Option α)) (item : Option α) :
    read (a ++ item :: b) a.length = .ok item := by
  simp [read]

theorem write_append (a b : List (Option α)) (item new : Option α) :
    write (a ++ item :: b) a.length new = .ok (a ++ new :: b) := by
  simp [write]

theorem size_eq {p : Pca α} {l : List (Option α)} (h : p.Represents l) : p.size = l.length := by
  obtain ⟨-, a, b, -, hremoved, hused⟩ := h
  rw [size, hremoved, hused]
  omega

theorem index_spec {p : Pca α} {l : List (Option α)} (h : p.Represents l) {i : ℤ}
    (hspared : p.Spared (.index i)) :
    p.index i = .ok (if 0 ≤ i then l[i.toNat]?.join else none) := by
  have hsize := size_eq h
  obtain ⟨-, a, b, hblock, hremoved, hused⟩ := h
  obtain ⟨hne, hnot⟩ := hspared
  rw [hsize] at hne
  rw [hremoved] at hnot
  rw [index, hremoved, hused]
  by_cases hi : 0 ≤ i ∧ i < l.length
  · have hlt : i.toNat < l.length := by omega
    have hplace : (i + a.length).toNat = a.length + i.toNat := by omega
    have hread : read p.storage (i + a.length).toNat = .ok l[i.toNat] := by
      rw [read, hplace, hblock, List.getElem?_append_right (by omega), Nat.add_sub_cancel_left,
        List.getElem?_append_left hlt, List.getElem?_eq_getElem hlt]
    rw [if_pos (by push_cast; omega), hread, if_pos hi.1, List.getElem?_eq_getElem hlt]
    rfl
  · have hnone : (if 0 ≤ i then l[i.toNat]?.join else none) = none := by
      split_ifs with h0
      · rw [List.getElem?_eq_none (by omega)]
        rfl
      · rfl
    rw [if_neg (by push_cast; omega), hnone]

theorem pop_spec {p : Pca α} {l : List (Option α)} (h : p.Represents l) :
    ∃ p', p.pop = .ok (p', l.getLast?.join) ∧ p'.Represents l.dropLast := by
  obtain ⟨hgrow, a, b, hblock, hremoved, hused⟩ := h
  rw [pop, hremoved, hused]
  rcases List.eq_nil_or_concat l with rfl | ⟨init, item, rfl⟩
  · exact ⟨p, if_neg (by simp), hgrow, a, b, hblock, hremoved, hused⟩
  · rw [List.concat_eq_append] at hblock hused ⊢
    have hplace : a.length + (init ++ [item]).length - 1 = (a ++ init).length := by simp
    have hread : read p.storage (a.length + (init ++ [item]).length - 1) = .ok item := by
      have hsplit : a ++ (init ++ [item] ++ b) = (a ++ init) ++ item :: b := by simp
      rw [hplace, hblock, hsplit, read_append]
    rw [if_pos (by simp), hread, List.dropLast_concat, List.getLast?_concat]
    refine ⟨_, rfl, hgrow, a, item :: b, ?_, rfl, ?_⟩
    · rw [hblock]
      simp
    · simp [Nat.add_sub_assoc]

theorem shift_spec {p : Pca α} {l : List (Option α)} (h : p.Represents l) :
    ∃ p', p.shift = .ok (p', l.head?.join) ∧ p'.Represents l.tail := by
  obtain ⟨hgrow, a, b, hblock, hremoved, hused⟩ := h
  rw [shift, hremoved, hused]
  cases l with
  | nil => exact ⟨p, if_neg (by simp), hgrow, a, b, hblock, hremoved, hused⟩
  | cons item l =>
    have hread : read p.storage a.length = .ok item := by
      rw [hblock]
      exact read_append a (l ++ b) item
    rw [if_pos (by simp), hread]
    refine ⟨_, rfl, hgrow, a ++ [item], b, ?_, ?_, ?_⟩
    · rw [hblock]
      simp
    · simp
    · simp
      omega

theorem expand_spec (garbage : Option α) {p : Pca α} (h : 0 < p.increment) :
    ∃ free b, p.expand garbage = .ok { p with storage := p.storage ++ free :: b } := by
  obtain ⟨n, hn⟩ := Nat.exists_eq_add_of_lt h
  refine ⟨garbage, List.replicate n garbage, ?_⟩
  have hgrow : p.increment ≠ 0 := Nat.ne_of_gt h
  rw [expand, if_neg hgrow, hn, Nat.zero_add, List.replicate_succ]

/-- There is a free slot at the end. -/
theorem makeRoom_spec (garbage : Option α) {p : Pca α} {l : List (Option α)} (h : p.Represents l) :
    ∃ p' a b free, p.makeRoom garbage = .ok p' ∧ 0 < p'.increment ∧ p'.storage = a ++ (l ++ free :: b) ∧
      p'.removedAtStart = a.length ∧ p'.sizeUsed = a.length + l.length := by
  obtain ⟨hgrow, a, b, hblock, hremoved, hused⟩ := h
  have hlength : p.storage.length = a.length + l.length + b.length := by
    rw [hblock]
    simp
    omega
  rw [makeRoom, hused, hlength]
  cases b with
  | cons free b => exact ⟨p, a, b, free, if_neg (by simp), hgrow, hblock, hremoved, hused⟩
  | nil =>
    rw [if_pos (by simp), hremoved]
    cases a with
    | nil =>
      obtain ⟨free, b, hexpand⟩ := expand_spec garbage hgrow
      rw [if_neg (by simp), hexpand]
      refine ⟨_, [], b, free, rfl, hgrow, ?_, hremoved, hused⟩
      rw [hblock]
      simp
    | cons x a =>
      have hmove : memmove p.storage 0 (x :: a).length (((x :: a).length + l.length) - (x :: a).length) =
          .ok (l ++ (p.storage.drop l.length)) := by
        rw [Nat.add_sub_cancel_left, memmove, if_pos (.inr ⟨by rw [hlength]; omega, by rw [hlength]; simp⟩),
          hblock, List.drop_left]
        simp
      rw [if_pos (by simp), hmove]
      obtain ⟨free, b, hfree⟩ : ∃ free b, p.storage.drop l.length = free :: b := by
        apply List.exists_cons_of_ne_nil
        intro hnil
        have := List.drop_eq_nil_iff.1 hnil
        rw [hlength, List.length_cons] at this
        omega
      refine ⟨_, [], b, free, rfl, hgrow, ?_, rfl, ?_⟩
      · rw [hfree]
        rfl
      · simp

theorem push_spec (garbage : Option α) {p : Pca α} {l : List (Option α)} (h : p.Represents l)
    (item : Option α) : ∃ p', p.push garbage item = .ok p' ∧ p'.Represents (l ++ [item]) := by
  obtain ⟨p', a, b, free, hroom, hgrow, hblock, hremoved, hused⟩ := makeRoom_spec garbage h
  have hwrite : write p'.storage p'.sizeUsed item = .ok (a ++ l ++ item :: b) := by
    rw [hblock, hused, ← List.append_assoc, ← List.length_append, write_append]
  refine ⟨{ p' with storage := a ++ l ++ item :: b, sizeUsed := p'.sizeUsed + 1 }, ?_, hgrow, a, b, ?_, hremoved,
    ?_⟩
  · rw [push, hroom]
    show (write p'.storage p'.sizeUsed item >>= _) = _
    rw [hwrite]
    rfl
  · simp
  · simp [hused]
    omega

/-- The items are moved up by one slot. -/
theorem memmove_up (l b : List (Option α)) (free : Option α) :
    memmove (l ++ free :: b) 1 0 l.length = .ok ((l ++ free :: b).take 1 ++ (l ++ b)) := by
  have hfits : 1 + l.length ≤ (l ++ free :: b).length ∧ 0 + l.length ≤ (l ++ free :: b).length := by
    simp
    omega
  rw [memmove, if_pos (.inr hfits), List.drop_zero, List.take_left, Nat.add_comm 1, ← List.drop_drop,
    List.drop_left]
  simp

theorem unshift_spec (garbage : Option α) {p : Pca α} {l : List (Option α)} (h : p.Represents l)
    (item : Option α) : ∃ p', p.unshift garbage item = .ok p' ∧ p'.Represents (item :: l) := by
  obtain ⟨hgrow, a, b, hblock, hremoved, hused⟩ := h
  rw [unshift]
  rcases List.eq_nil_or_concat a with rfl | ⟨a, removed, rfl⟩
  · obtain ⟨p', free, b', hroom, hgrow', hblock', hremoved', hused'⟩ : ∃ p' free b',
        (if p.sizeUsed = p.storage.length then expand garbage p else .ok p) = .ok p' ∧ 0 < p'.increment ∧
          p'.storage = l ++ free :: b' ∧ p'.removedAtStart = 0 ∧ p'.sizeUsed = l.length := by
      rw [hblock, hused]
      cases b with
      | cons free b => exact ⟨p, free, b, if_neg (by simp), hgrow, hblock, hremoved, by simpa using hused⟩
      | nil =>
        obtain ⟨free, b, hexpand⟩ := expand_spec garbage hgrow
        refine ⟨_, free, b, (if_pos (by simp)).trans hexpand, hgrow, ?_, hremoved, by simpa using hused⟩
        rw [hblock]
        simp
    rw [if_neg (by simp [hremoved]), hroom]
    have hmove : memmove p'.storage 1 0 p'.sizeUsed = .ok ((l ++ free :: b').take 1 ++ (l ++ b')) := by
      rw [hblock', hused', memmove_up]
    obtain ⟨first, hfirst⟩ : ∃ first, (l ++ free :: b').take 1 = [first] := by
      cases l with
      | nil => exact ⟨free, rfl⟩
      | cons first l => exact ⟨first, rfl⟩
    refine ⟨{ p' with storage := item :: (l ++ b'), sizeUsed := p'.sizeUsed + 1 }, ?_, hgrow', [], b', rfl,
      hremoved', ?_⟩
    · have hwrite : write (first :: (l ++ b')) 0 item = .ok (item :: (l ++ b')) :=
        write_append [] (l ++ b') first item
      show (memmove p'.storage 1 0 p'.sizeUsed >>= _) = _
      rw [hmove, hfirst]
      simp only [bind, Except.bind, List.singleton_append, hwrite]
      rfl
    · simp [hused']
  · rw [List.concat_eq_append] at hblock hremoved hused
    have hwrite : write p.storage (p.removedAtStart - 1) item = .ok (a ++ item :: (l ++ b)) := by
      have hsplit : a ++ [removed] ++ (l ++ b) = a ++ removed :: (l ++ b) := by simp
      have hplace : p.removedAtStart - 1 = a.length := by simp [hremoved]
      rw [hblock, hsplit, hplace, write_append]
    rw [if_pos (by simp [hremoved]), hwrite]
    refine ⟨_, rfl, hgrow, a, b, rfl, ?_, ?_⟩
    · simp [hremoved]
    · simp [hused]
      omega

/-- One call. -/
theorem step_spec (garbage : Option α) {p : Pca α} {l : List (Option α)} (h : p.Represents l) {op : Op α}
    (hspared : p.Spared op) :
    ∃ p', p.step garbage op = .ok (p', (op.ideal l).2) ∧ p'.Represents (op.ideal l).1 := by
  cases op with
  | push item =>
    obtain ⟨p', hpush, hp'⟩ := push_spec garbage h item
    refine ⟨p', ?_, hp'⟩
    rw [step, hpush]
    rfl
  | pop =>
    obtain ⟨p', hpop, hp'⟩ := pop_spec h
    refine ⟨p', ?_, hp'⟩
    rw [step, hpop]
    rfl
  | shift =>
    obtain ⟨p', hshift, hp'⟩ := shift_spec h
    refine ⟨p', ?_, hp'⟩
    rw [step, hshift]
    rfl
  | unshift item =>
    obtain ⟨p', hunshift, hp'⟩ := unshift_spec garbage h item
    refine ⟨p', ?_, hp'⟩
    rw [step, hunshift]
    rfl
  | index i =>
    refine ⟨p, ?_, h⟩
    rw [step, index_spec h hspared]
    rfl
  | size =>
    refine ⟨p, ?_, h⟩
    rw [step, size_eq h]
    rfl

/-- Calls one after the other. -/
theorem run_spec (garbage : Option α) {p : Pca α} {l : List (Option α)} (h : p.Represents l) {ops : List (Op α)}
    (hspared : SparedRun garbage p ops) :
    ∃ p', run garbage p ops = .ok (p', (idealRun l ops).2) ∧ p'.Represents (idealRun l ops).1 := by
  induction ops generalizing p l with
  | nil => exact ⟨p, rfl, h⟩
  | cons op ops ih =>
    obtain ⟨p₁, hstep, hp₁⟩ := step_spec garbage h hspared.1
    have hrest := hspared.2
    rw [hstep] at hrest
    obtain ⟨p₂, hrun, hp₂⟩ := ih hp₁ hrest
    refine ⟨p₂, ?_, hp₂⟩
    rw [run, hstep]
    show (run garbage p₁ ops >>= _) = _
    rw [hrun]
    rfl

/-- The array is a double-ended queue as long as it is not asked for what is past its end or was removed. -/
theorem refines_of_sparedRun (garbage : Option α) (initialSize : ℕ) {increment : ℕ} (hgrow : 0 < increment)
    {ops : List (Op α)} (hspared : SparedRun garbage (new garbage initialSize increment) ops) :
    Refines garbage initialSize increment ops := by
  obtain ⟨p, hrun, -⟩ := run_spec garbage (represents_new garbage initialSize hgrow) hspared
  exact ⟨p, hrun⟩

theorem refines_push_unshift_index_pop :
    Refines (some 0) 0 1 [.push (some 1), .unshift (some 2), .index 1, .shift, .push none, .pop] :=
  refines_of_sparedRun (some 0) 0 Nat.one_pos
    ⟨trivial, trivial, ⟨by decide, by decide⟩, trivial, trivial, trivial, trivial⟩

/-- The slot past the end of a full array is outside the block. -/
theorem not_refines_index_size : ¬Refines (none : Option ℕ) 1 1 [.push (some 7), .index 1] := by
  rintro ⟨p, hp⟩
  have hwild : run none (new (none : Option ℕ) 1 1) [.push (some 7), .index 1] = .error .wild := rfl
  rw [hwild] at hp
  nomatch hp

end Pca

end Ppr
