import Ppr.Lib.Ascii

/-!
# Receiving a print job

`do_request_take_job()` of `lprsrv_print.c` and what it calls.  A subcommand is given with what came
after its line; the settings for `uprint` other than type, copies and name are left out.
-/

namespace Ppr.Lprsrv

/-- `MAX_FILES_PER_JOB`. -/
def maxFilesPerJob : ℕ := 100

/-- `MAX_NAME_CONSIDER`. -/
def maxNameConsider : ℕ := 40

/-- A `ssize_t` of -1 as a `size_t`. -/
def sizeMinusOne : ℕ := 2 ^ 64 - 1

/-- Why nothing can be said about what comes next. -/
inductive Fault where
  /-- The control file ends within a line, and what comes after the buffer is read. -/
  | pastBuffer
  /-- There is no buffer. -/
  | noBuffer
  /-- `data_files[-1]`. -/
  | beforeArray
  /-- A name in a buffer that was given back. -/
  | freedName
  deriving DecidableEq

/-- Where `DATA_FILE.Name` points to. -/
inductive NamePtr where
  | null
  | constant (s : List Byte)
  | buffer (s : List Byte)
  | freed
  deriving DecidableEq

/-- `struct DATA_FILE`. -/
structure DataFile where
  start : ℕ := 0
  length : ℕ := 0
  Name : NamePtr := .null
  type : Byte := 0
  copies : ℕ := 0
  deriving DecidableEq

/-! ## A data file -/

/-- How the transfer of a data file goes. -/
structure Transfer where
  /-- There is enough disk space before it. -/
  space : Bool
  /-- What comes before the end of the input. -/
  sent : List Byte
  /-- How much can be written. -/
  room : ℕ
  /-- What comes after the file. -/
  last : Option Byte
  deriving DecidableEq

/-- `receive_data_file()`: the length, and what is written to the temporary file. -/
def receiveDataFile (sizeOfFile : ℕ) (t : Transfer) : ℕ × List Byte :=
  if t.space then
    let data := t.sent.take sizeOfFile
    let written := data.take t.room
    let readerror := decide (data.length < sizeOfFile)
    let diskfull := decide (written.length < data.length)
    if readerror || t.last != some 0 then (sizeMinusOne, written)
    else if diskfull then (sizeMinusOne, written)
    else (sizeOfFile, written)
  else (sizeMinusOne, [])

/-! ## The control file -/

def isLineEnd (c : Byte) : Bool := c = 10 || c = 13

/-- The lines of the control file; the argument is the rest of the buffer. -/
def controlLines : ℕ → List Byte → Except Fault (List (List Byte))
  | _, [] => .error .pastBuffer
  | 0, _ => .error .pastBuffer
  | n + 1, c :: buf =>
    if c = 0 then .ok []
    else
      let line := (c :: buf).takeWhile fun c => !isLineEnd c && c != 0
      (line :: ·) <$> controlLines n (((c :: buf).drop (line.length + 1)).dropWhile isLineEnd)

/-- The letters for the types of files. -/
def fileLetters : List Byte := ascii "floprcgvndtx"

/-- The variables of `receive_control_file()`. -/
structure ControlState where
  dataFiles : ℕ → DataFile
  filesUnlinked : ℕ
  N_Count : ℕ := 0
  filesCount : ℕ := 0
  lastFileName : List Byte := []

/-- `line[1] != '/'` -/
def notSpurious (arg : List Byte) : Bool := arg.head? != some 47

/-- An original name is for the next file that has none. -/
def ControlState.setName (c : ControlState) (name : NamePtr) : ControlState :=
  { c with
    dataFiles := Function.update c.dataFiles c.N_Count { c.dataFiles c.N_Count with Name := name }
    N_Count := c.N_Count + 1 }

/-- An extra copy. -/
def ControlState.extraCopy (c : ControlState) (k : ℕ) : ControlState :=
  { c with
    dataFiles := Function.update c.dataFiles k
      { c.dataFiles k with copies := (c.dataFiles k).copies + 1 } }

/-- Another file. -/
def ControlState.newFile (c : ControlState) (letter : Byte) (name : List Byte) : ControlState :=
  { c with
    dataFiles := Function.update c.dataFiles c.filesCount
      { c.dataFiles c.filesCount with type := letter, copies := 1 }
    filesCount := c.filesCount + 1
    lastFileName := name.take (maxNameConsider - 1) }

/-- What is done with a line of the control file. -/
def controlLine (c : ControlState) : List Byte → Except Fault ControlState
  | [] => .ok c
  | letter :: arg =>
    if letter = 78 then
      if c.N_Count < maxFilesPerJob then
        .ok (c.setName (if arg = [32] then .constant (ascii "standard input") else .buffer arg))
      else .ok c
    else if letter = 85 then
      if arg.head? = some 100 then .ok { c with filesUnlinked := c.filesUnlinked + 1 } else .ok c
    else if letter ∈ fileLetters then
      if notSpurious arg then
        if arg.take maxNameConsider = c.lastFileName.take maxNameConsider then
          match c.filesCount with
          | 0 => .error .beforeArray
          | k + 1 => .ok (c.extraCopy k)
        else if c.filesCount < maxFilesPerJob then .ok (c.newFile letter arg)
        else .ok c
      else .ok c
    else .ok c

/-- What giving back the buffer does to a name. -/
def NamePtr.free : NamePtr → NamePtr
  | .buffer _ => .freed
  | p => p

/-! ## Subcommands -/

/-- A subcommand, with what came after its line. -/
inductive Subcommand where
  | abort
  | control (text : List Byte)
  | data (size : ℕ) (name : List Byte) (t : Transfer)
  /-- A data file, when the temporary file can't be opened. -/
  | noTemp
  | unrecognized
  deriving DecidableEq

/-- The variables of `do_request_take_job()`. -/
structure Job where
  dataFiles : ℕ → DataFile
  filesOnHand : ℕ
  filesToUnlink : ℕ
  /-- There is a `uprint` object. -/
  upr : Bool
  /-- What is in the temporary file, if it is open. -/
  tempfile : Option (List Byte)

def Job.start : Job where
  dataFiles := fun _ => {}
  filesOnHand := 0
  filesToUnlink := 0
  upr := false
  tempfile := none

/-- `receive_control_file()`: what the lines say. -/
def controlState (text : List Byte) (dataFiles : ℕ → DataFile) (filesUnlinked : ℕ) :
    Except Fault ControlState := do
  let lines ← controlLines (text.length + 1) (text ++ [0])
  lines.foldlM controlLine { dataFiles := dataFiles, filesUnlinked := filesUnlinked }

/-- `receive_control_file()`. -/
def receiveControlFile (text : List Byte) (j : Job) : Except Fault Job :=
  if text = [] then if j.upr then .ok j else .error .noBuffer
  else do
    let freed := fun i => { j.dataFiles i with Name := (j.dataFiles i).Name.free }
    let c ← controlState text freed j.filesToUnlink
    return { j with dataFiles := c.dataFiles, filesToUnlink := c.filesUnlinked, upr := true }

/-- Store a data file: its length, and what was written to the temporary file. -/
def Job.store (j : Job) (length : ℕ) (written : List Byte) : Job :=
  { j with
    dataFiles := Function.update j.dataFiles j.filesOnHand
      { j.dataFiles j.filesOnHand with start := (j.tempfile.getD []).length, length := length }
    tempfile := some (j.tempfile.getD [] ++ written)
    filesOnHand := j.filesOnHand + 1 }

/-- The part of the subcommand loop that depends on the subcommand. -/
def take (j : Job) : Subcommand → Except Fault Job
  | .abort => .ok j
  | .control text => receiveControlFile text j
  | .data size _ t =>
    if j.filesOnHand < maxFilesPerJob then
      let (length, written) := receiveDataFile size t
      .ok (j.store length written)
    else .ok j
  | .noTemp => .ok j
  | .unrecognized => .ok j

/-! ## Handing the files to ppr -/

/-- What ppr is given. -/
structure Handed where
  bytes : List Byte
  type : Byte
  /-- -1 if it is not said. -/
  copies : ℤ
  /-- The argument of "--lpq-filename". -/
  name : Option (List Byte)
  deriving DecidableEq

/-- `dispatch_files_run()`: what is written to ppr, and whether there is no `gu_Throw()`.  The loop
reads before it looks at the length, and nothing may be left to read. -/
def dispatchFilesRun (tempfile : List Byte) (start length : ℕ) : List Byte × Bool :=
  let bytes := (tempfile.drop start).take length
  (bytes, bytes.length == length && length != 0)

def NamePtr.argument : NamePtr → Except Fault (Option (List Byte))
  | .null => .ok none
  | .constant s => .ok (some (if s = [] then ascii "stdin" else s))
  | .buffer s => .ok (some (if s = [] then ascii "stdin" else s))
  | .freed => .error .freedName

/-- `uprint_set_copies()`: an unreasonable value is not set. -/
def uprintSetCopies (current copies : ℤ) : ℤ := if copies < -1 ∨ 9999 < copies then current else copies

/-- `dispatch_files()`, from a file on; the number of files that are left comes first.  What `uprint`
has made of copies and type is kept until one of them changes. -/
def dispatchFiles (tempfile : List Byte) (dataFiles : ℕ → DataFile) :
    ℕ → ℕ → ℕ → ℤ × Byte → Except Fault (List Handed)
  | 0, _, _, _ => .ok []
  | n + 1, findex, lastSet, args => do
    let data := dataFiles findex
    let changed := decide (findex = 0 ∨ data.copies ≠ (dataFiles lastSet).copies ∨
      data.type ≠ (dataFiles lastSet).type)
    let args :=
      if changed then (uprintSetCopies args.1 (if 1 < data.copies then data.copies else -1), data.type)
      else args
    let lastSet := if changed then findex else lastSet
    let name ← data.Name.argument
    let (bytes, fine) := dispatchFilesRun tempfile data.start data.length
    let handed := { bytes := bytes, type := args.2, copies := args.1, name := name }
    if fine then (handed :: ·) <$> dispatchFiles tempfile dataFiles n (findex + 1) lastSet args
    else .ok [handed]

/-- The subcommand loop of `do_request_take_job()`: what is dispatched, if anything is, and what is
left unread. -/
def doRequestTakeJob (j : Job) : List Subcommand →
    Except Fault (Option (List Handed) × List Subcommand)
  | [] => .ok (none, [])
  | .abort :: rest => .ok (none, rest)
  | cmd :: rest => do
    let j ← take j cmd
    if j.upr && decide (j.filesToUnlink ≤ j.filesOnHand) then
      let handed ← dispatchFiles (j.tempfile.getD []) j.dataFiles j.filesOnHand 0 0 (-1, 0)
      return (some handed, rest)
    else doRequestTakeJob j rest

end Ppr.Lprsrv
