import Ppr.Lib.Machine
import Ppr.Lib.Reading
import Ppr.Pprd.State

/-!
# The queue file between programs

The steps that `command_modify()` and `write_changes()` of `ppop_modify.c`,
`queue_write_status_and_flags()` of `pprd_queue.c`, `queuefile_progress_write()` of
`pprdrv_progress.c` and `give_reason()` of `pprdrv_reason.c` make on the queue file of a job.  A name
leads to a file, and `rename()` makes it lead to another one; what is open stays open.

The "PPRD:" line always has 64 bytes and a "Progress:" line 31, so that one is overwritten by another.
What `Shared.noted` has is no variable of a program: it notes what was written last.
-/

namespace Ppr

/-- The "Progress:" line. -/
structure ProgressLine where
  bytes : ℕ
  pagesStarted : ℕ
  pagesPrinted : ℕ
  deriving DecidableEq

/-- A line in the last part of the file. -/
inductive TailLine where
  | progress (p : ProgressLine)
  | reason (r : List Byte)
  | other (l : List Byte)
  deriving DecidableEq

def TailLine.progress? : TailLine → Option ProgressLine
  | .progress p => some p
  | _ => none

def TailLine.reason? : TailLine → Option (List Byte)
  | .reason r => some r
  | _ => none

variable {ν β : Type}

/-- The content of a queue file: its first line, the values of its fields, and what comes after
them. -/
structure QueueFile (ν β : Type) where
  pprd : PprdLine
  fields : ν → β
  tail : List TailLine

/-- The last "Progress:" line. -/
def QueueFile.progress (c : QueueFile ν β) : Option ProgressLine :=
  (c.tail.filterMap TailLine.progress?).getLast?

/-- The "Reason:" lines. -/
def QueueFile.reasons (c : QueueFile ν β) : List (List Byte) := c.tail.filterMap TailLine.reason?

/-- Where `ppop modify` is. -/
inductive Modify (ν β : Type) where
  | idle
  /-- It has read the file. -/
  | read (old : QueueFile ν β)
  /-- It has written a new file with the changes. -/
  | wrote (file : ℕ) (changes : List (ν × β))

/-- Where pprdrv is. -/
inductive DrvPhase where
  | idle
  /-- In `queuefile_progress_write()`, between opening and writing. -/
  | progress
  /-- In `give_reason()`, with the file open. -/
  | reason (file : ℕ)
  deriving DecidableEq

/-- What was written last. -/
structure Noted (ν β : Type) where
  pprd : PprdLine
  fields : ν → β
  progress : Option ProgressLine
  reasons : List (List Byte)

/-- The files, and what the programs have open. -/
structure Shared (ν β : Type) where
  files : ℕ → QueueFile ν β
  /-- The file the name leads to. -/
  path : ℕ
  /-- No file from here on was ever made. -/
  next : ℕ
  modify : ℕ → Modify ν β
  /-- The descriptor of `queue_write_status_and_flags()`. -/
  pprd : Option ℕ
  /-- The handle that pprdrv never closes, with its spot in the last part of the file. -/
  handle : Option (ℕ × ℕ)
  drv : DrvPhase
  noted : Noted ν β

/-- A step of a program. -/
inductive FileStep (ν β : Type) where
  | modifyRead (k : ℕ)
  /-- A change was not valid. -/
  | modifyAbandon (k : ℕ)
  | modifyWrite (k : ℕ) (changes : List (ν × β))
  | modifyRename (k : ℕ)
  | pprdOpen
  | pprdWrite (line : PprdLine)
  /-- A new pprdrv. -/
  | drvStart
  | progressOpen
  | progressWrite (p : ProgressLine)
  | reasonOpen
  | reasonWrite (r : List Byte)

variable [DecidableEq ν]

/-- Set fields, one after the other. -/
def setFields (changes : List (ν × β)) (fields : ν → β) : ν → β :=
  changes.foldl (fun f c => Function.update f c.1 c.2) fields

/-- What `write_changes()` makes of the file. -/
def QueueFile.modified (changes : List (ν × β)) (c : QueueFile ν β) : QueueFile ν β :=
  { c with fields := setFields changes c.fields }

/-- Write over the line at a spot, or at the end. -/
def overwrite (spot : ℕ) (l : TailLine) (tail : List TailLine) : List TailLine :=
  tail.take spot ++ l :: tail.drop (spot + 1)

/-- The spot of the "Progress:" line: at the last line if that is one. -/
def progressSpot (tail : List TailLine) : ℕ :=
  match tail.getLast? with
  | some (.progress _) => tail.length - 1
  | _ => tail.length

/-- Change a file. -/
def Shared.edit (s : Shared ν β) (i : ℕ) (f : QueueFile ν β → QueueFile ν β) : Shared ν β :=
  { s with files := Function.update s.files i (f (s.files i)) }

/-- A step, if the program is where it can make it. -/
def Shared.step (s : Shared ν β) : FileStep ν β → Option (Shared ν β)
  | .modifyRead k =>
    match s.modify k with
    | .idle => some { s with modify := Function.update s.modify k (.read (s.files s.path)) }
    | _ => none
  | .modifyAbandon k =>
    match s.modify k with
    | .read _ => some { s with modify := Function.update s.modify k .idle }
    | _ => none
  | .modifyWrite k changes =>
    match s.modify k with
    | .read old =>
      some { s with
        files := Function.update s.files s.next (old.modified changes)
        next := s.next + 1
        modify := Function.update s.modify k (.wrote s.next changes) }
    | _ => none
  | .modifyRename k =>
    match s.modify k with
    | .wrote file changes =>
      some { s with
        path := file
        modify := Function.update s.modify k .idle
        noted := { s.noted with fields := setFields changes s.noted.fields } }
    | _ => none
  | .pprdOpen =>
    match s.pprd with
    | none => some { s with pprd := some s.path }
    | some _ => none
  | .pprdWrite line =>
    match s.pprd with
    | some i =>
      some { s.edit i fun c => { c with pprd := line } with
        pprd := none, noted := { s.noted with pprd := line } }
    | none => none
  | .drvStart => some { s with handle := none, drv := .idle }
  | .progressOpen =>
    match s.drv, s.handle with
    | .idle, none =>
      some { s with handle := some (s.path, progressSpot (s.files s.path).tail), drv := .progress }
    | _, _ => none
  | .progressWrite p =>
    match s.drv, s.handle with
    | .reason _, _ => none
    | _, some (i, spot) =>
      some { s.edit i fun c => { c with tail := overwrite spot (.progress p) c.tail } with
        drv := .idle, noted := { s.noted with progress := some p } }
    | _, none => none
  | .reasonOpen =>
    match s.drv with
    | .idle => some { s with drv := .reason s.path }
    | _ => none
  | .reasonWrite r =>
    match s.drv with
    | .reason i =>
      some { s.edit i fun c => { c with tail := c.tail ++ [.reason r] } with
        drv := .idle, noted := { s.noted with reasons := s.noted.reasons ++ [r] } }
    | _ => none

/-- A queue file that no program has open. -/
def Shared.start (c : QueueFile ν β) : Shared ν β where
  files := fun _ => c
  path := 0
  next := 1
  modify := fun _ => .idle
  pprd := none
  handle := none
  drv := .idle
  noted := { pprd := c.pprd, fields := c.fields, progress := c.progress, reasons := c.reasons }

/-- The interleavings of the steps of the programs. -/
def FileRun (c : QueueFile ν β) : List (Shared ν β × FileStep ν β) → Shared ν β → Prop :=
  Machine.Run (fun s => s = Shared.start c) fun s e t => s.step e = some t

/-! ## The property and the condition -/

/-- All programs have finished. -/
def Shared.Finished (s : Shared ν β) : Prop :=
  (∀ k, s.modify k = .idle) ∧ s.pprd = none ∧ s.drv = .idle

/-- The file holds what was written last. -/
structure Shared.Holds (s : Shared ν β) : Prop where
  pprd : (s.files s.path).pprd = s.noted.pprd
  fields : (s.files s.path).fields = s.noted.fields
  progress : (s.files s.path).progress = s.noted.progress
  reasons : (s.files s.path).reasons = s.noted.reasons

/-- No modify is between its reading and its renaming. -/
def Shared.NoModify (s : Shared ν β) : Prop := ∀ k, s.modify k = .idle

/-- The programs do not get in each other's way: what is written to the file, and what replaces it,
comes when no (other) modify is between its reading and its renaming, and what is written is written
to the file that the name still leads to. -/
def Undisturbed (s : Shared ν β) : FileStep ν β → Prop
  | .pprdWrite _ => s.pprd = some s.path ∧ s.NoModify
  | .progressWrite _ => (∃ spot, s.handle = some (s.path, spot)) ∧ s.NoModify
  | .reasonWrite _ => s.drv = .reason s.path ∧ s.NoModify
  | .modifyRename k => ∀ k', k' ≠ k → s.modify k' = .idle
  | _ => True

/-! ## The last part of the file -/

/-- The spot has a "Progress:" line, and there is none after it. -/
def SpotHolds (spot : ℕ) (tail : List TailLine) : Prop :=
  ∃ before after p, tail = before ++ .progress p :: after ∧ before.length = spot ∧
    after.filterMap TailLine.progress? = []

/-- The spot is good for writing: it has the last "Progress:" line, or it is the end. -/
def SpotReady (spot : ℕ) (tail : List TailLine) : Prop :=
  SpotHolds spot tail ∨ spot = tail.length

theorem spotReady_progressSpot (tail : List TailLine) : SpotReady (progressSpot tail) tail := by
  unfold progressSpot
  rcases List.eq_nil_or_concat tail with rfl | ⟨before, l, rfl⟩
  · exact .inr rfl
  · rw [List.concat_eq_append, List.getLast?_append_cons, List.getLast?_singleton]
    cases l with
    | progress p => exact .inl ⟨before, [], p, rfl, by simp, rfl⟩
    | reason r => exact .inr rfl
    | other l => exact .inr rfl

theorem overwrite_append (before after : List TailLine) (l l' : TailLine) :
    overwrite before.length l (before ++ l' :: after) = before ++ l :: after := by
  simp [overwrite]

theorem overwrite_length (tail : List TailLine) (l : TailLine) :
    overwrite tail.length l tail = tail ++ [l] := by
  simp [overwrite]

/-- Writing at a good spot leaves a "Progress:" line there and keeps the other lines. -/
theorem overwrite_ready {spot : ℕ} {tail : List TailLine} (h : SpotReady spot tail)
    (p : ProgressLine) :
    SpotHolds spot (overwrite spot (.progress p) tail) ∧
      ((overwrite spot (.progress p) tail).filterMap TailLine.progress?).getLast? = some p ∧
      (overwrite spot (.progress p) tail).filterMap TailLine.reason? =
        tail.filterMap TailLine.reason? := by
  rcases h with ⟨before, after, p', rfl, rfl, hafter⟩ | rfl
  · rw [overwrite_append]
    refine ⟨⟨before, after, p, rfl, rfl, hafter⟩, ?_, ?_⟩
    · simp [TailLine.progress?, hafter]
    · rw [List.filterMap_append, List.filterMap_append, List.filterMap_cons_none rfl,
        List.filterMap_cons_none rfl]
  · rw [overwrite_length]
    refine ⟨⟨tail, [], p, rfl, rfl, rfl⟩, ?_, ?_⟩
    · simp [TailLine.progress?]
    · rw [List.filterMap_append, List.filterMap_cons_none rfl, List.filterMap_nil,
        List.append_nil]

theorem SpotHolds.append_reason {spot : ℕ} {tail : List TailLine} (h : SpotHolds spot tail)
    (r : List Byte) : SpotHolds spot (tail ++ [.reason r]) := by
  obtain ⟨before, after, p, rfl, hlen, hafter⟩ := h
  refine ⟨before, after ++ [.reason r], p, by simp, hlen, ?_⟩
  rw [List.filterMap_append, hafter]
  rfl

/-! ## The invariant -/

/-- What holds while the programs do not get in each other's way. -/
structure FileInv (s : Shared ν β) : Prop where
  holds : s.Holds
  path_lt : s.path < s.next
  read : ∀ k old, s.modify k = .read old → old = s.files s.path
  wrote : ∀ k file changes, s.modify k = .wrote file changes → file < s.next ∧ s.path ≠ file ∧
    (∀ spot, s.handle ≠ some (file, spot)) ∧
    s.files file = (s.files s.path).modified changes
  handle_lt : ∀ i spot, s.handle = some (i, spot) → i < s.next
  spot : ∀ spot, s.handle = some (s.path, spot) →
    if s.drv = .progress then SpotReady spot (s.files s.path).tail
    else SpotHolds spot (s.files s.path).tail

theorem FileInv.start (c : QueueFile ν β) : FileInv (Shared.start c) where
  holds := ⟨rfl, rfl, rfl, rfl⟩
  path_lt := Nat.one_pos
  read := fun k old h => by cases h
  wrote := fun k file changes h => by cases h
  handle_lt := fun i spot h => by cases h
  spot := fun spot h => by cases h

section Steps

theorem update_cases {γ : Type} {f : ℕ → γ} {k k' : ℕ} {v w : γ}
    (h : Function.update f k v k' = w) : k' = k ∧ v = w ∨ k' ≠ k ∧ f k' = w := by
  by_cases he : k' = k
  · subst he
    exact .inl ⟨rfl, by rwa [Function.update_self] at h⟩
  · exact .inr ⟨he, by rwa [Function.update_of_ne he] at h⟩

variable {s t : Shared ν β}

theorem FileInv.modifyRead (h : FileInv s) {k : ℕ} (hs : s.step (.modifyRead k) = some t) :
    FileInv t := by
  simp only [Shared.step] at hs
  split at hs
  · cases hs
    refine ⟨⟨h.holds.pprd, h.holds.fields, h.holds.progress, h.holds.reasons⟩, h.path_lt,
      fun k' old hk' => ?_, fun k' file changes hk' => ?_, h.handle_lt, h.spot⟩
    · obtain ⟨-, hk'⟩ | ⟨-, hk'⟩ := update_cases hk'
      · exact (Modify.read.inj hk').symm
      · exact h.read k' old hk'
    · obtain ⟨-, hk'⟩ | ⟨-, hk'⟩ := update_cases hk'
      · cases hk'
      · exact h.wrote k' file changes hk'
  · cases hs

theorem FileInv.modifyAbandon (h : FileInv s) {k : ℕ}
    (hs : s.step (.modifyAbandon k) = some t) : FileInv t := by
  simp only [Shared.step] at hs
  split at hs
  · cases hs
    refine ⟨⟨h.holds.pprd, h.holds.fields, h.holds.progress, h.holds.reasons⟩, h.path_lt,
      fun k' old hk' => ?_, fun k' file changes hk' => ?_, h.handle_lt, h.spot⟩
    · obtain ⟨-, hk'⟩ | ⟨-, hk'⟩ := update_cases hk'
      · cases hk'
      · exact h.read k' old hk'
    · obtain ⟨-, hk'⟩ | ⟨-, hk'⟩ := update_cases hk'
      · cases hk'
      · exact h.wrote k' file changes hk'
  · cases hs

theorem FileInv.modifyWrite (h : FileInv s) {k : ℕ} {changes : List (ν × β)}
    (hs : s.step (.modifyWrite k changes) = some t) : FileInv t := by
  simp only [Shared.step] at hs
  split at hs
  · rename_i old hk
    cases hs
    have hold := h.read k old hk
    -- the new file is none of those that were there
    have hsame : ∀ i, i < s.next →
        Function.update s.files s.next (old.modified changes) i = s.files i :=
      fun i hi => Function.update_of_ne hi.ne _ _
    have hpath := hsame s.path h.path_lt
    refine ⟨⟨?_, ?_, ?_, ?_⟩, Nat.lt_succ_of_lt h.path_lt, fun k' old' hk' => ?_,
      fun k' file changes' hk' => ?_, fun i spot hi => Nat.lt_succ_of_lt (h.handle_lt i spot hi),
      fun spot hspot => ?_⟩
    · exact (congrArg QueueFile.pprd hpath).trans h.holds.pprd
    · exact (congrArg QueueFile.fields hpath).trans h.holds.fields
    · exact (congrArg QueueFile.progress hpath).trans h.holds.progress
    · exact (congrArg QueueFile.reasons hpath).trans h.holds.reasons
    · obtain ⟨-, hk'⟩ | ⟨-, hk'⟩ := update_cases hk'
      · cases hk'
      · exact (h.read k' old' hk').trans hpath.symm
    · obtain ⟨-, hk'⟩ | ⟨-, hk'⟩ := update_cases hk'
      · cases hk'
        refine ⟨Nat.lt_succ_self _, h.path_lt.ne,
          fun spot hspot => (h.handle_lt _ spot hspot).ne rfl, ?_⟩
        dsimp only
        rw [hpath, Function.update_self, hold]
      · obtain ⟨hlt, hnew, hne, hfile⟩ := h.wrote k' file changes' hk'
        refine ⟨Nat.lt_succ_of_lt hlt, hnew, hne, ?_⟩
        dsimp only
        rw [hpath, hsame file hlt, hfile]
    · dsimp only
      rw [hpath]
      exact h.spot spot hspot
  · cases hs

/-- The new file takes the place of the old one: it has what the old one has, and the changes. -/
theorem FileInv.modifyRename (h : FileInv s) {k : ℕ} (hs : s.step (.modifyRename k) = some t)
    (hu : Undisturbed s (.modifyRename k)) : FileInv t := by
  simp only [Shared.step] at hs
  split at hs
  · rename_i file changes hk
    cases hs
    obtain ⟨hlt, -, hne, hfile⟩ := h.wrote k file changes hk
    have hidle : ∀ k', Function.update s.modify k .idle k' = .idle := by
      intro k'
      by_cases he : k' = k
      · rw [he, Function.update_self]
      · rw [Function.update_of_ne he]
        exact hu k' he
    refine ⟨⟨?_, ?_, ?_, ?_⟩, hlt, fun k' old hk' => ?_, fun k' file' changes' hk' => ?_,
      h.handle_lt, fun spot hspot => absurd hspot (hne spot)⟩
    · exact (congrArg QueueFile.pprd hfile).trans h.holds.pprd
    · show (s.files file).fields = setFields changes s.noted.fields
      rw [hfile, ← h.holds.fields, QueueFile.modified]
    · exact (congrArg QueueFile.progress hfile).trans h.holds.progress
    · exact (congrArg QueueFile.reasons hfile).trans h.holds.reasons
    · cases (hidle k').symm.trans hk'
    · cases (hidle k').symm.trans hk'
  · cases hs

theorem FileInv.pprdOpen (h : FileInv s) (hs : s.step .pprdOpen = some t) : FileInv t := by
  simp only [Shared.step] at hs
  split at hs
  · cases hs
    exact ⟨⟨h.holds.pprd, h.holds.fields, h.holds.progress, h.holds.reasons⟩, h.path_lt, h.read,
      h.wrote, h.handle_lt, h.spot⟩
  · cases hs

/-- Writing to the file that the name leads to, while there is no modify that has read it. -/
theorem FileInv.written (h : FileInv s) (hidle : s.NoModify) (hpath : t.path = s.path)
    (hnext : t.next = s.next) (hmodify : t.modify = s.modify) (hhandle : t.handle = s.handle)
    (hholds : t.Holds)
    (hspot : ∀ spot, s.handle = some (s.path, spot) →
      if t.drv = .progress then SpotReady spot (t.files s.path).tail
      else SpotHolds spot (t.files s.path).tail) : FileInv t := by
  have hmodify' : ∀ k, t.modify k = .idle := by
    rw [hmodify]
    exact hidle
  refine ⟨hholds, ?_, fun k old hk => ?_, fun k file changes hk => ?_, ?_, ?_⟩
  · rw [hpath, hnext]
    exact h.path_lt
  · cases (hmodify' k).symm.trans hk
  · cases (hmodify' k).symm.trans hk
  · rw [hhandle, hnext]
    exact h.handle_lt
  · rw [hhandle, hpath]
    exact hspot

theorem FileInv.pprdWrite (h : FileInv s) {line : PprdLine}
    (hs : s.step (.pprdWrite line) = some t) (hu : Undisturbed s (.pprdWrite line)) :
    FileInv t := by
  obtain ⟨hfd, hidle⟩ := hu
  simp only [Shared.step, hfd] at hs
  cases hs
  have hfile : (s.edit s.path fun c => { c with pprd := line }).files s.path =
      { s.files s.path with pprd := line } := Function.update_self _ _ _
  refine h.written hidle rfl rfl rfl rfl ⟨?_, ?_, ?_, ?_⟩ fun spot hspot => ?_
  · exact congrArg QueueFile.pprd hfile
  · exact (congrArg QueueFile.fields hfile).trans h.holds.fields
  · exact (congrArg QueueFile.progress hfile).trans h.holds.progress
  · exact (congrArg QueueFile.reasons hfile).trans h.holds.reasons
  · dsimp only
    rw [hfile]
    exact h.spot spot hspot

theorem FileInv.drvStart (h : FileInv s) (hs : s.step .drvStart = some t) : FileInv t := by
  simp only [Shared.step] at hs
  cases hs
  refine ⟨⟨h.holds.pprd, h.holds.fields, h.holds.progress, h.holds.reasons⟩, h.path_lt, h.read,
    fun k' file changes hk' => ?_, fun i spot hi => ?_, fun spot hspot => ?_⟩
  · obtain ⟨hlt, hnew, -, hfile⟩ := h.wrote k' file changes hk'
    refine ⟨hlt, hnew, fun spot hspot => ?_, hfile⟩
    cases hspot
  · cases hi
  · cases hspot

theorem FileInv.progressOpen (h : FileInv s) (hs : s.step .progressOpen = some t) :
    FileInv t := by
  simp only [Shared.step] at hs
  split at hs
  · cases hs
    refine ⟨⟨h.holds.pprd, h.holds.fields, h.holds.progress, h.holds.reasons⟩, h.path_lt, h.read,
      fun k' file changes hk' => ?_, fun i spot hi => ?_, fun spot hspot => ?_⟩
    · obtain ⟨hlt, hnew, -, hfile⟩ := h.wrote k' file changes hk'
      refine ⟨hlt, hnew, fun spot hspot => ?_, hfile⟩
      cases hspot
      exact hnew rfl
    · cases hi
      exact h.path_lt
    · cases hspot
      exact spotReady_progressSpot _
  · cases hs

theorem FileInv.progressWrite (h : FileInv s) {p : ProgressLine}
    (hs : s.step (.progressWrite p) = some t) (hu : Undisturbed s (.progressWrite p)) :
    FileInv t := by
  obtain ⟨⟨spot, hhandle⟩, hidle⟩ := hu
  -- the spot is good, whether the file was opened just now or before
  have hready : SpotReady spot (s.files s.path).tail := by
    have := h.spot spot hhandle
    split at this
    · exact this
    · exact .inl this
  obtain ⟨hholds, hprogress, hreasons⟩ := overwrite_ready hready p
  simp only [Shared.step, hhandle] at hs
  split at hs
  · cases hs
  · rename_i i spot' heq _
    cases heq
    cases hs
    have hfile : (s.edit s.path fun c => { c with tail := overwrite spot (.progress p) c.tail }).files
        s.path = { s.files s.path with tail := overwrite spot (.progress p) (s.files s.path).tail } :=
      Function.update_self _ _ _
    refine h.written hidle rfl rfl rfl rfl ⟨?_, ?_, ?_, ?_⟩ fun spot'' hspot => ?_
    · exact (congrArg QueueFile.pprd hfile).trans h.holds.pprd
    · exact (congrArg QueueFile.fields hfile).trans h.holds.fields
    · exact (congrArg QueueFile.progress hfile).trans hprogress
    · exact (congrArg QueueFile.reasons hfile).trans (hreasons.trans h.holds.reasons)
    · obtain rfl : spot'' = spot := by
        rw [hhandle] at hspot
        cases hspot
        rfl
      dsimp only
      rw [hfile, if_neg DrvPhase.noConfusion]
      exact hholds
  · cases hs

theorem FileInv.reasonOpen (h : FileInv s) (hs : s.step .reasonOpen = some t) : FileInv t := by
  simp only [Shared.step] at hs
  split at hs
  · rename_i hdrv
    cases hs
    refine ⟨⟨h.holds.pprd, h.holds.fields, h.holds.progress, h.holds.reasons⟩, h.path_lt, h.read,
      h.wrote, h.handle_lt, fun spot hspot => ?_⟩
    have := h.spot spot hspot
    rw [hdrv, if_neg DrvPhase.noConfusion] at this
    rw [if_neg DrvPhase.noConfusion]
    exact this
  · cases hs

theorem FileInv.reasonWrite (h : FileInv s) {r : List Byte}
    (hs : s.step (.reasonWrite r) = some t) (hu : Undisturbed s (.reasonWrite r)) :
    FileInv t := by
  obtain ⟨hdrv, hidle⟩ := hu
  simp only [Shared.step, hdrv] at hs
  cases hs
  have hfile : (s.edit s.path fun c => { c with tail := c.tail ++ [.reason r] }).files s.path =
      { s.files s.path with tail := (s.files s.path).tail ++ [.reason r] } :=
    Function.update_self _ _ _
  refine h.written hidle rfl rfl rfl rfl ⟨?_, ?_, ?_, ?_⟩ fun spot hspot => ?_
  · exact (congrArg QueueFile.pprd hfile).trans h.holds.pprd
  · exact (congrArg QueueFile.fields hfile).trans h.holds.fields
  · refine (congrArg QueueFile.progress hfile).trans (Eq.trans ?_ h.holds.progress)
    rw [QueueFile.progress, List.filterMap_append, List.filterMap_cons_none rfl,
      List.filterMap_nil, List.append_nil, QueueFile.progress]
  · refine (congrArg QueueFile.reasons hfile).trans ?_
    rw [QueueFile.reasons, List.filterMap_append, ← h.holds.reasons]
    rfl
  · have := h.spot spot hspot
    rw [hdrv, if_neg DrvPhase.noConfusion] at this
    dsimp only
    rw [hfile, if_neg DrvPhase.noConfusion]
    exact this.append_reason r

theorem FileInv.step (h : FileInv s) {e : FileStep ν β} (hs : s.step e = some t)
    (hu : Undisturbed s e) : FileInv t := by
  cases e with
  | modifyRead k => exact h.modifyRead hs
  | modifyAbandon k => exact h.modifyAbandon hs
  | modifyWrite k changes => exact h.modifyWrite hs
  | modifyRename k => exact h.modifyRename hs hu
  | pprdOpen => exact h.pprdOpen hs
  | pprdWrite line => exact h.pprdWrite hs hu
  | drvStart => exact h.drvStart hs
  | progressOpen => exact h.progressOpen hs
  | progressWrite p => exact h.progressWrite hs hu
  | reasonOpen => exact h.reasonOpen hs
  | reasonWrite r => exact h.reasonWrite hs hu

end Steps

section Runs

private def freshFile : QueueFile Bool ℕ where
  pprd := ⟨50, 1, 0, 0⟩
  fields := fun _ => 0
  tail := []

private def changedLine : PprdLine := ⟨50, 1, 2, 0⟩

end Runs

end Ppr
