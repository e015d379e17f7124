import Ppr.Lib.Machine
import Ppr.Lib.Ascii

/-!
# The status file and who follows it

The file steps of `state_update_pprdrv_puts()` of `pprdrv_progress.c`, made by any number of pprdrv
processes, and those of `do_tail()` of `tail_status.c`.  When the file is too long it is unlinked, and
its "other execute" bit says to who has it open that it is finished.  What is open stays open.

`sticky` says whether the C library keeps `fgets()` at the end of the file once it was there, as the
standard has it; older libraries try again.  What `StatusState.appended` has is no variable of a
program: it notes what was written since the follower has opened its first file.
-/

namespace Ppr

/-- `STATE_UPDATE_PPRDRV_MAXBYTES` -/
def stateUpdatePprdrvMaxbytes : ℕ := 30000

variable {ω : Type}

/-- What one call of `state_update_pprdrv_puts()` writes, and the process that makes it. -/
structure StatusEntry (ω : Type) where
  writer : ω
  text : List Byte
  deriving DecidableEq

structure StatusFile (ω : Type) where
  entries : List (StatusEntry ω)
  /-- The "other execute" bit. -/
  finished : Bool

def StatusFile.bytes (f : StatusFile ω) : List Byte := f.entries.flatMap StatusEntry.text

def StatusFile.size (f : StatusFile ω) : ℕ := (f.entries.map fun e => e.text.length).sum

/-- Where a pprdrv is.  Outside of `state_update_pprdrv_puts()` it may have a handle. -/
inductive StatusWriter where
  | idle (handle : Option ℕ)
  | toOpen (text : List Byte)
  | toStat (text : List Byte) (file : ℕ)
  | toUnlink (text : List Byte) (file : ℕ)
  | toMark (text : List Byte) (file : ℕ)
  | toClose (text : List Byte) (file : ℕ)
  | toWrite (text : List Byte) (file : ℕ)

/-- A stream that is open for reading. -/
structure StatusStream where
  file : ℕ
  pos : ℕ
  /-- The end-of-file indicator. -/
  eof : Bool

/-- The variables of `tail_status()`, and what was passed to the callback. -/
structure StatusFollower where
  fd : Option StatusStream
  fileCount : ℕ
  /-- `fgets()` has returned `NULL`: the next is `fstat()`. -/
  atEnd : Bool
  passed : List (List Byte)

structure StatusState (ω : Type) where
  files : ℕ → StatusFile ω
  /-- The file the name leads to. -/
  path : Option ℕ
  /-- No file from here on was ever made. -/
  next : ℕ
  writers : ω → StatusWriter
  follower : StatusFollower
  appended : List (StatusEntry ω)

/-! ## The follower -/

/-- What `fgets()` with room for `n` characters takes. -/
def fgetsTake : ℕ → List Byte → List Byte
  | 0, _ => []
  | _ + 1, [] => []
  | n + 1, c :: s => if c = newline then [c] else c :: fgetsTake n s

/-- The line that `do_tail()` gets into its buffer of 256 bytes. -/
def tailLine (s : List Byte) : List Byte := fgetsTake 255 s

/-- The buffer as the callback gets it: up to the line feed. -/
def cutLine (l : List Byte) : List Byte := l.takeWhile fun c => c ≠ newline

/-- The next step of `do_tail()`. -/
def doTail (sticky : Bool) (files : ℕ → StatusFile ω) (path : Option ℕ) (t : StatusFollower) :
    StatusFollower :=
  match t.fd with
  | none =>
    match path with
    | none => t
    | some i =>
      -- the first file is read from its end
      let pos := if t.fileCount = 0 then (files i).size else 0
      { t with fd := some ⟨i, pos, false⟩, fileCount := t.fileCount + 1 }
  | some f =>
    if t.atEnd then
      if (files f.file).finished then { t with fd := none, atEnd := false }
      else { t with atEnd := false }
    else if sticky && f.eof then { t with atEnd := true }
    else
      let line := tailLine ((files f.file).bytes.drop f.pos)
      if line = [] then { t with fd := some { f with eof := true }, atEnd := true }
      else
        { t with
          fd := some
            { f with
              pos := f.pos + line.length
              eof := decide (line.length < 255 ∧ line.getLast? ≠ some newline) }
          passed := t.passed ++ [cutLine line] }

/-! ## The steps -/

/-- A step of a pprdrv, or of the follower. -/
inductive StatusStep (ω : Type) where
  | call (w : ω) (text : List Byte)
  | fopen (w : ω)
  | fstat (w : ω)
  | unlink (w : ω)
  | fchmod (w : ω)
  | close (w : ω)
  | write (w : ω)
  | exit (w : ω)
  | follow

variable [DecidableEq ω]

def StatusState.goto (s : StatusState ω) (w : ω) (p : StatusWriter) : StatusState ω :=
  { s with writers := Function.update s.writers w p }

def StatusState.edit (s : StatusState ω) (i : ℕ) (g : StatusFile ω → StatusFile ω) :
    StatusState ω :=
  { s with files := Function.update s.files i (g (s.files i)) }

def StatusState.follow (sticky : Bool) (s : StatusState ω) : StatusState ω :=
  { s with follower := doTail sticky s.files s.path s.follower }

/-- A step, if the process is where it can make it. -/
def StatusState.step (sticky : Bool) (s : StatusState ω) : StatusStep ω → Option (StatusState ω)
  | .call w text =>
    match s.writers w with
    | .idle none => some (s.goto w (.toOpen text))
    | .idle (some i) => some (s.goto w (.toStat text i))
    | _ => none
  | .fopen w =>
    match s.writers w with
    | .toOpen text =>
      match s.path with
      | some i => some (s.goto w (.toStat text i))
      | none =>
        some { s.goto w (.toStat text s.next) with path := some s.next, next := s.next + 1 }
    | _ => none
  | .fstat w =>
    match s.writers w with
    | .toStat text i =>
      if stateUpdatePprdrvMaxbytes < (s.files i).size then some (s.goto w (.toUnlink text i))
      else some (s.goto w (.toWrite text i))
    | _ => none
  | .unlink w =>
    match s.writers w with
    | .toUnlink text i => some { s.goto w (.toMark text i) with path := none }
    | _ => none
  | .fchmod w =>
    match s.writers w with
    | .toMark text i =>
      some ((s.edit i fun f => { f with finished := true }).goto w (.toClose text i))
    | _ => none
  | .close w =>
    match s.writers w with
    | .toClose text _ => some (s.goto w (.toOpen text))
    | _ => none
  | .write w =>
    match s.writers w with
    | .toWrite text i =>
      let e : StatusEntry ω := ⟨w, text⟩
      some { (s.edit i fun f => { f with entries := f.entries ++ [e] }).goto w (.idle (some i)) with
        appended := if s.follower.fileCount = 0 then [] else s.appended ++ [e] }
    | _ => none
  | .exit w =>
    match s.writers w with
    | .idle _ => some (s.goto w (.idle none))
    | _ => none
  | .follow => some (s.follow sticky)

/-- A status file that is not finished, or none, and a follower that has not opened it. -/
def StatusState.start (old : Option (List (StatusEntry ω))) : StatusState ω where
  files := fun i => if i = 0 then ⟨old.getD [], false⟩ else ⟨[], false⟩
  path := old.map fun _ => 0
  next := 1
  writers := fun _ => .idle none
  follower := ⟨none, 0, false, []⟩
  appended := []

/-- The interleavings of the steps of the processes. -/
def StatusRun (sticky : Bool) (old : Option (List (StatusEntry ω))) :
    List (StatusState ω × StatusStep ω) → StatusState ω → Prop :=
  Machine.Run (fun s => s = StatusState.start old) fun s a t => s.step sticky a = some t

/-! ## The property -/

/-- The text has one newline, at its end. -/
def IsLine (text : List Byte) : Prop :=
  text.getLast? = some newline ∧ newline ∉ text.dropLast

instance (text : List Byte) : Decidable (IsLine text) := inferInstanceAs (Decidable (_ ∧ _))

theorem length_fgetsTake_le (n : ℕ) (s : List Byte) : (fgetsTake n s).length ≤ s.length := by
  induction n generalizing s with
  | zero => exact Nat.zero_le _
  | succ n ih =>
    cases s with
    | nil => exact Nat.le_refl _
    | cons c s =>
      rw [fgetsTake]
      split
      · simp
      · simpa using ih s

theorem tailLine_ne_nil {s : List Byte} (h : s ≠ []) : tailLine s ≠ [] := by
  cases s with
  | nil => exact absurd rfl h
  | cons c s =>
    rw [tailLine, fgetsTake]
    split <;> simp

/-- The pieces in which the callback gets a text: a text that is longer than the buffer is cut. -/
def textPieces (text : List Byte) : List (List Byte) :=
  if _h : text = [] then []
  else cutLine (tailLine text) :: textPieces (text.drop (tailLine text).length)
termination_by text.length
decreasing_by
  have hlt := List.length_pos_iff.mpr (tailLine_ne_nil _h)
  have hle := List.length_pos_iff.mpr _h
  rw [List.length_drop]
  omega

def StatusEntry.pieces (e : StatusEntry ω) : List (List Byte) := textPieces e.text

/-- What one process has written. -/
def writtenBy (w : ω) (l : List (StatusEntry ω)) : List (StatusEntry ω) :=
  l.filter fun e => e.writer = w

/-- The callback got each text once, and those of one process in the order in which they were
written. -/
def StatusState.CaughtUp (s : StatusState ω) : Prop :=
  ∃ order : List (StatusEntry ω), s.follower.passed = order.flatMap StatusEntry.pieces ∧
    ∀ w, writtenBy w order = writtenBy w s.appended

/-- A process has unlinked the file, and not yet marked it. -/
def StatusWriter.isMarking : StatusWriter → Bool
  | .toMark _ _ => true
  | _ => false

/-- Nothing is lost and nothing comes twice: what the callback got is the beginning of what it is to
get; a line that fits into the buffer it gets as a whole; and when no process is on its way to mark a
file as finished, the follower by itself gets everything. -/
structure StatusState.Follows (sticky : Bool) (s : StatusState ω) : Prop where
  passed : ∃ order : List (StatusEntry ω),
    s.follower.passed <+: order.flatMap StatusEntry.pieces ∧
      ∀ w, writtenBy w order <+: writtenBy w s.appended
  whole : ∀ e ∈ s.appended, e.text.length < 256 → e.pieces = [e.text.dropLast]
  catches_up : (∀ w, (s.writers w).isMarking = false) →
    ∃ n, ((StatusState.follow sticky)^[n] s).CaughtUp

/-! ## The condition -/

def StatusWriter.written : StatusWriter → Option (List Byte × ℕ)
  | .toWrite text i => some (text, i)
  | _ => none

def StatusWriter.rotated : StatusWriter → Option ℕ
  | .toUnlink _ i => some i
  | .toMark _ i => some i
  | _ => none

/-- The follower has the file open. -/
def StatusFollower.reads (t : StatusFollower) (i : ℕ) : Bool := t.fd.any fun f => f.file = i

/-- Once there is a follower: what is written is a line, and goes to a file that the follower reads
and is not yet done with, or to the one that it opens next; who finds the file too long unlinks that
file and no newer one, and the follower has it open; and a file is not marked after the follower has
come to its end and before it looks at the mark, unless the follower has read all of it. -/
def OrderlyStatus (sticky : Bool) (s : StatusState ω) : StatusStep ω → Prop
  | .write w => s.follower.fileCount = 0 ∨ ∀ x ∈ (s.writers w).written, IsLine x.1 ∧
    if s.follower.reads x.2 then
      ((s.files x.2).finished = true → s.follower.atEnd = false) ∧
        ∀ f ∈ s.follower.fd, sticky = true → f.eof = false
    else s.path = some x.2
  | .unlink w => s.follower.fileCount = 0 ∨ ∀ i ∈ (s.writers w).rotated, ∀ j ∈ s.path,
    j = i ∧ s.follower.reads i = true
  | .fchmod w => ∀ i ∈ (s.writers w).rotated, ∀ f ∈ s.follower.fd, f.file = i →
    s.follower.atEnd = true → (s.files i).size ≤ f.pos
  | _ => True

instance (sticky : Bool) (s : StatusState ω) :
    ∀ a : StatusStep ω, Decidable (OrderlyStatus sticky s a)
  | .write w => inferInstanceAs (Decidable (s.follower.fileCount = 0 ∨
    ∀ x ∈ (s.writers w).written, IsLine x.1 ∧
      if s.follower.reads x.2 then
        ((s.files x.2).finished = true → s.follower.atEnd = false) ∧
          ∀ f ∈ s.follower.fd, sticky = true → f.eof = false
      else s.path = some x.2))
  | .unlink w => inferInstanceAs (Decidable (s.follower.fileCount = 0 ∨
    ∀ i ∈ (s.writers w).rotated, ∀ j ∈ s.path, j = i ∧ s.follower.reads i = true))
  | .fchmod w => inferInstanceAs (Decidable (∀ i ∈ (s.writers w).rotated,
    ∀ f ∈ s.follower.fd, f.file = i → s.follower.atEnd = true → (s.files i).size ≤ f.pos))
  | .call _ _ => inferInstanceAs (Decidable True)
  | .fopen _ => inferInstanceAs (Decidable True)
  | .fstat _ => inferInstanceAs (Decidable True)
  | .close _ => inferInstanceAs (Decidable True)
  | .exit _ => inferInstanceAs (Decidable True)
  | .follow => inferInstanceAs (Decidable True)

end Ppr
