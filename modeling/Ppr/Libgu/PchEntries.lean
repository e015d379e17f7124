import Ppr.Libgu.Pch
import Ppr.Lib.Linked

/-!
# Perl compatible hashes in memory

The functions of `gu_pch.c` on buckets of linked entries.  An entry that has been freed cannot be read, and
the iterator holds a pointer to the entry that comes next.  A value is a pointer, so it may be NULL.
-/

namespace Ppr.Libgu

open Linked

/-- `struct PCH` with `bucket_count` buckets; an item of `memory` is the key and the value of an entry. -/
structure Pch (bucketCount : ℕ) (α : Type) where
  memory : Memory (Fin bucketCount) (List Byte × Option α)
  keyCount : ℕ
  currentBucket : ℤ
  nextItem : Option ℕ

namespace Pch

variable {α : Type} {bucketCount : ℕ} [NeZero bucketCount]

/-- `gu_pch_new()`. -/
def new : Pch bucketCount α := ⟨.empty, 0, -1, none⟩

/-- The bound of the searches: they visit no entry twice. -/
def bound (p : Pch bucketCount α) : ℕ := p.memory.brk + 1

/-- `strcmp(entry->key, key) == 0`. -/
def hasKey (key : List Byte) (entry : List Byte × Option α) : Bool := entry.1 = key

/-- `gu_pch_set()`. -/
def set (p : Pch bucketCount α) (key : List Byte) (value : Option α) : Option (Pch bucketCount α) := do
  let (entryPp, entry) ← p.memory.walk (hasKey key) p.bound (.root (guHash bucketCount key))
  match entry with
  | some entry =>
    let (k, _) ← (p.memory.cells entry).map Cell.item
    return { p with memory := ← p.memory.store entry (k, value) }
  | none =>
    let memory ← (p.memory.alloc (key, value)).writeSlot (some p.memory.brk) entryPp
    return { p with memory, keyCount := p.keyCount + 1 }

/-- `gu_pch_get()`. -/
def get (p : Pch bucketCount α) (key : List Byte) : Option (Option α) := do
  let entry ← p.memory.seek (hasKey key) p.bound (p.memory.roots (guHash bucketCount key))
  return entry.bind Prod.snd

/-- `gu_pch_delete()`. -/
def delete (p : Pch bucketCount α) (key : List Byte) : Option (Pch bucketCount α × Option α) := do
  let (entryPp, entry) ← p.memory.walk (hasKey key) p.bound (.root (guHash bucketCount key))
  match entry with
  | some entry =>
    let ⟨(_, value), next⟩ ← p.memory.cells entry
    let memory ← p.memory.writeSlot next entryPp
    return ({ p with memory := memory.free entry, keyCount := p.keyCount - 1 }, value)
  | none => return (p, none)

/-- `gu_pch_rewind()`. -/
def rewind (p : Pch bucketCount α) : Pch bucketCount α :=
  { p with currentBucket := -1, nextItem := none }

/-- The loop of `gu_pch_nextkey()` that moves to the next bucket that is not empty. -/
def nextBucket (p : Pch bucketCount α) : Pch bucketCount α :=
  let currentBucket := p.currentBucket + 1
  if h : currentBucket.toNat < bucketCount ∧ 0 ≤ currentBucket then
    match p.memory.roots ⟨currentBucket.toNat, h.1⟩ with
    | some entry => { p with currentBucket, nextItem := some entry }
    | none => nextBucket { p with currentBucket }
  else { p with currentBucket }
termination_by (bucketCount - p.currentBucket - 1).toNat
decreasing_by
  show (bucketCount - (p.currentBucket + 1) - 1).toNat < _
  omega

/-- `gu_pch_nextkey()`. -/
def nextkey (p : Pch bucketCount α) : Option (Pch bucketCount α × Option (List Byte × Option α)) := do
  let p := if p.nextItem.isNone then p.nextBucket else p
  match p.nextItem with
  | some item =>
    let ⟨entry, next⟩ ← p.memory.cells item
    return ({ p with nextItem := next }, some entry)
  | none => return (p, none)

/-- `gu_pch_size()`. -/
def size (p : Pch bucketCount α) : ℕ := p.keyCount

/-! ## Runs -/

/-- The keys until `gu_pch_nextkey()` gives NULL, of which some are deleted as soon as they have been returned. -/
def traverse (deleted : List Byte → Bool) :
    ℕ → Pch bucketCount α → Option (Pch bucketCount α × List (List Byte × Option α))
  | 0, _ => none
  | fuel + 1, p => do
    match ← p.nextkey with
    | (p, none) => return (p, [])
    | (p, some entry) =>
      let p ← (if deleted entry.1 then (p.delete entry.1).map Prod.fst else some p)
      let (p, entries) ← traverse deleted fuel p
      return (p, entry :: entries)

inductive Op (α : Type) where
  | set (key : List Byte) (value : Option α)
  | get (key : List Byte)
  | delete (key : List Byte)
  | size
  /-- `gu_pch_rewind()` and an iteration. -/
  | foreach (deleted : List Byte → Bool)

inductive Result (α : Type) where
  | done
  | value (value : Option α)
  | size (n : ℕ)
  | entries (entries : List (List Byte × Option α))

def step (p : Pch bucketCount α) : Op α → Option (Pch bucketCount α × Result α)
  | .set key value => do return (← p.set key value, .done)
  | .get key => do return (p, .value (← p.get key))
  | .delete key => do
    let (p, value) ← p.delete key
    return (p, .value value)
  | .size => some (p, .size p.size)
  | .foreach deleted => do
    let (p, entries) ← p.rewind.traverse deleted (p.keyCount + 1)
    return (p, .entries entries)

/-- Calls one after the other, with their results. -/
def run : Pch bucketCount α → List (Op α) → Option (Pch bucketCount α × List (Result α))
  | p, [] => some (p, [])
  | p, op :: ops => do
    let (p, r) ← p.step op
    let (p, rs) ← run p ops
    return (p, r :: rs)

/-! ## Finite maps -/

/-- The values of the keys that are present. -/
abbrev Map (α : Type) := List Byte → Option (Option α)

/-- What a call on a finite map gives, and the map after it. -/
inductive Answers (m : Map α) : Op α → Result α → Map α → Prop
  | set (key : List Byte) (value : Option α) :
    Answers m (.set key value) .done (Function.update m key (some value))
  | get (key : List Byte) : Answers m (.get key) (.value (m key).join) m
  | delete (key : List Byte) : Answers m (.delete key) (.value (m key).join) (Function.update m key none)
  | size (keys : Finset (List Byte)) (h : ∀ key, key ∈ keys ↔ m key ≠ none) :
    Answers m .size (.size keys.card) m
  | foreach (deleted : List Byte → Bool) (entries : List (List Byte × Option α))
      (hnodup : (entries.map Prod.fst).Nodup) (h : ∀ key value, (key, value) ∈ entries ↔ m key = some value) :
    Answers m (.foreach deleted) (.entries entries) fun key => if deleted key then none else m key

/-- Calls one after the other. -/
inductive AnswersRun : Map α → List (Op α) → List (Result α) → Prop
  | nil (m : Map α) : AnswersRun m [] []
  | cons {m m' : Map α} {op : Op α} {r : Result α} {ops : List (Op α)} {rs : List (Result α)}
      (head : Answers m op r m') (tail : AnswersRun m' ops rs) : AnswersRun m (op :: ops) (r :: rs)

end Pch

end Ppr.Libgu
