import Ppr.Lib.Ascii
import Ppr.Lib.Outcome

/-!
# Perl Compatible Strings

`gu_pcs.c`: strings that are shared by counted references and copied when one that is shared is to be
changed.
-/

namespace Ppr.Pcs

/-- `struct PCS`; `storage_size` is the length of the storage, in which a byte is `none` until it is
written. -/
structure Object where
  storage : Option (List (Option Byte)) := none
  length : ℕ := 0
  refcount : ℕ := 1
  lurkers : ℕ := 0
  deriving DecidableEq

/-- The objects by their addresses, `none` when freed, and the pointer variables, `none` for NULL.  A
local variable of a function is the last one for as long as it is there. -/
structure State where
  heap : List (Option Object) := []
  vars : List (Option ℕ) := []
  deriving DecidableEq

inductive Fault where
  /-- NULL or a pointer to what has been freed is followed. -/
  | wild
  /-- Storage that is not allocated is read or written. -/
  | unallocated
  /-- `memcpy()` copies to where it copies from. -/
  | overlap
  deriving DecidableEq

/-! ## Memory -/

/-- `*pcs`, and the object it points to. -/
def State.deref (s : State) (v : ℕ) : Except Fault (ℕ × Object) :=
  match s.vars[v]? with
  | some (some a) =>
    match s.heap[a]? with
    | some (some o) => .ok (a, o)
    | _ => .error .wild
  | _ => .error .wild

def State.put (s : State) (a : ℕ) (o : Option Object) : State := { s with heap := s.heap.set a o }

def State.point (s : State) (v : ℕ) (p : Option ℕ) : State :=
  { s with vars := s.vars.set v p }

/-- The variable is given the value of the last one, which then is there no more. -/
def State.adopt (s : State) (v : ℕ) : State :=
  { s with vars := s.vars.dropLast.set v (s.vars.getLast?.getD none) }

def State.change (s : State) (v : ℕ) (f : Object → Object) : Except Fault State := do
  let (a, o) ← s.deref v
  return s.put a (some (f o))

/-- The first bytes of the storage. -/
def Object.read (o : Object) (n : ℕ) : Except Fault (List (Option Byte)) :=
  match o.storage with
  | some bytes => if n ≤ bytes.length then .ok (bytes.take n) else .error .unallocated
  | none => .error .unallocated

def Object.write (o : Object) (i : ℕ) (source : List (Option Byte)) : Except Fault Object :=
  match o.storage with
  | some bytes =>
    if i + source.length ≤ bytes.length then
      .ok { o with storage := some (bytes.take i ++ source ++ bytes.drop (i + source.length)) }
    else .error .unallocated
  | none => .error .unallocated

def State.write (s : State) (v i : ℕ) (source : List (Option Byte)) : Except Fault State := do
  let (a, o) ← s.deref v
  let o ← o.write i source
  return s.put a (some o)

/-! ## The functions -/

/-- `gu_pcs_grow()`. -/
def Object.grow (newSize : ℕ) (o : Object) : Object :=
  let bytes := o.storage.getD []
  if newSize + 1 > bytes.length then
    { o with
      storage := some ((bytes ++ List.replicate (newSize + 1 - bytes.length) none).set newSize (some 0)) }
  else o

def Object.setLength (n : ℕ) (o : Object) : Object := { o with length := n }

/-- `gu_pcs_new()`; its value goes to a new variable. -/
def guPcsNew (s : State) : State where
  heap := s.heap ++ [some {}]
  vars := s.vars ++ [some s.heap.length]

/-- `gu_pcs_free()`. -/
def guPcsFree (v : ℕ) (s : State) : Except Fault State := do
  let (a, o) ← s.deref v
  let o := { o with refcount := o.refcount - 1 }
  return (s.put a (if o.refcount = o.lurkers then none else some o)).point v none

/-- `gu_pcs_free_keep_cstr()`; the C string is the caller's. -/
def guPcsFreeKeepCstr (v : ℕ) (s : State) : Except Fault State := do
  let s ← s.change v (Object.grow 0)
  let (a, o) ← s.deref v
  let o := { o with lurkers := o.lurkers + 1 }
  return (s.put a (if o.refcount = o.lurkers then none else some o)).point v none

/-- `gu_pcs_snapshot()`; its value goes to a new variable. -/
def guPcsSnapshot (v : ℕ) (s : State) : Except Fault State := do
  let (a, o) ← s.deref v
  let s := s.put a (some { o with refcount := o.refcount + 1 })
  return { s with vars := s.vars ++ [some a] }

/-- The else part of `gu_pcs_set_pcs()`, for a target that is not shared. -/
def copyPcs (v w : ℕ) (s : State) : Except Fault State := do
  let (_, o₂) ← s.deref w
  let s ← s.change v fun o => (o.setLength o₂.length).grow o₂.length
  let (_, o₂) ← s.deref w
  let bytes ← o₂.read (o₂.length + 1)
  s.write v 0 bytes

/-- `gu_pcs_new_pcs()`; its value goes to a new variable.  What `gu_pcs_new()` returns is not shared. -/
def guPcsNewPcs (w : ℕ) (s : State) : Except Fault State :=
  copyPcs s.vars.length w (guPcsNew s)

/-- `gu_pcs_set_pcs()`. -/
def guPcsSetPcs (v w : ℕ) (s : State) : Except Fault State := do
  let (_, o) ← s.deref v
  let _ ← s.deref w
  if o.refcount > 1 then do
    let s ← guPcsFree v s
    let s ← guPcsNewPcs w s
    return s.adopt v
  else copyPcs v w s

/-- What `gu_pcs_set_cstr()` begins with: a string that is shared is exchanged for a new one. -/
def renew (v : ℕ) (s : State) : Except Fault State := do
  let (_, o) ← s.deref v
  if o.refcount > 1 then do
    let s ← guPcsFree v s
    return (guPcsNew s).adopt v
  else return s

/-- `gu_pcs_set_cstr()`. -/
def guPcsSetCstr (v : ℕ) (cstr : List Byte) (s : State) : Except Fault State := do
  let s ← renew v s
  let s ← s.change v fun o => (o.setLength cstr.length).grow cstr.length
  s.write v 0 (cstr.map some ++ [some 0])

/-- `gu_pcs_new_cstr()`; its value goes to a new variable. -/
def guPcsNewCstr (cstr : List Byte) (s : State) : Except Fault State :=
  guPcsSetCstr s.vars.length cstr (guPcsNew s)

/-- What the functions that change a string in part begin with. -/
def unshare (v : ℕ) (s : State) : Except Fault State := do
  let (_, o) ← s.deref v
  if o.refcount > 1 then do
    let s ← guPcsNewPcs v s
    let s ← guPcsFree v s
    return s.adopt v
  else return s

/-- `gu_pcs_get_cstr()`. -/
def guPcsGetCstr (v : ℕ) (s : State) : Except Fault State := s.change v (Object.grow 0)

/-- `gu_pcs_get_editable_cstr()`. -/
def guPcsGetEditableCstr (v : ℕ) (s : State) : Except Fault State := do
  let s ← unshare v s
  s.change v (Object.grow 0)

/-- `gu_pcs_truncate()`. -/
def guPcsTruncate (v newlen : ℕ) (s : State) : Except Fault State := do
  let (_, o) ← s.deref v
  if newlen < o.length then do
    let s ← unshare v s
    let s ← s.change v (Object.setLength newlen)
    s.write v newlen [some 0]
  else return s

/-- `gu_pcs_append_char()`. -/
def guPcsAppendChar (v : ℕ) (c : Byte) (s : State) : Except Fault State := do
  let s ← unshare v s
  let (_, o) ← s.deref v
  let newLength := o.length + 1
  let s ← s.change v (Object.grow newLength)
  let s ← s.write v o.length [some c]
  let s ← s.write v newLength [some 0]
  s.change v (Object.setLength newLength)

/-- `gu_pcs_append_cstr()`. -/
def guPcsAppendCstr (v : ℕ) (cstr : List Byte) (s : State) : Except Fault State := do
  let s ← unshare v s
  let (_, o) ← s.deref v
  let s ← s.change v (Object.grow (o.length + cstr.length))
  let s ← s.write v o.length (cstr.map some ++ [some 0])
  s.change v (Object.setLength (o.length + cstr.length))

/-- `gu_pcs_append_pcs()`. -/
def guPcsAppendPcs (v w : ℕ) (s : State) : Except Fault State := do
  let s ← unshare v s
  let (a, o) ← s.deref v
  let (b, o₂) ← s.deref w
  let newLength := o.length + o₂.length
  let s ← s.change v (Object.grow newLength)
  let (_, o₂) ← s.deref w
  let bytes ← o₂.read (o₂.length + 1)
  -- the terminator of a string is where its own end is copied to
  if a = b ∧ o.length ≠ 0 then .error .overlap
  let s ← s.write v o.length bytes
  s.change v (Object.setLength newLength)

/-- What is done to the strings. -/
inductive Op where
  | new
  | newCstr (cstr : List Byte)
  | newPcs (w : ℕ)
  | snapshot (w : ℕ)
  | free (v : ℕ)
  | freeKeepCstr (v : ℕ)
  | setCstr (v : ℕ) (cstr : List Byte)
  | setPcs (v w : ℕ)
  | appendChar (v : ℕ) (c : Byte)
  | appendCstr (v : ℕ) (cstr : List Byte)
  | appendPcs (v w : ℕ)
  | truncate (v newlen : ℕ)
  | getCstr (v : ℕ)
  /-- A character of what `gu_pcs_get_editable_cstr()` returns is replaced. -/
  | edit (v i : ℕ) (c : Byte)
  deriving DecidableEq

def step (s : State) : Op → Except Fault State
  | .new => return guPcsNew s
  | .newCstr cstr => guPcsNewCstr cstr s
  | .newPcs w => guPcsNewPcs w s
  | .snapshot w => guPcsSnapshot w s
  | .free v => guPcsFree v s
  | .freeKeepCstr v => guPcsFreeKeepCstr v s
  | .setCstr v cstr => guPcsSetCstr v cstr s
  | .setPcs v w => guPcsSetPcs v w s
  | .appendChar v c => guPcsAppendChar v c s
  | .appendCstr v cstr => guPcsAppendCstr v cstr s
  | .appendPcs v w => guPcsAppendPcs v w s
  | .truncate v newlen => guPcsTruncate v newlen s
  | .getCstr v => guPcsGetCstr v s
  | .edit v i c => do
    let s ← guPcsGetEditableCstr v s
    s.write v i [some c]

end Ppr.Pcs
