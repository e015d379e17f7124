import Ppr.Lib.Machine
import Ppr.Lib.Reading

/-!
# Copying a job to the printer

`int_copy_job()` of `int_copy_job.c`: one loop copies standard input to the printer and what the
printer says to standard output.  What the system calls do in a round is a `Round`; `select()` does
not return descriptors it was not asked about, `write()` does not write more than it was given.

The buffers are the bytes between their pointers and lengths.  `events` is no variable of the program:
it notes what was read and written, and the calls of the functions that were passed in.
-/

namespace Ppr

/-- `enum COPYSTATE`. -/
inductive CopyPhase where
  | reading
  | writing
  deriving DecidableEq

/-- Something that was done. -/
inductive CopyEvent where
  /-- Bytes were read from standard input. -/
  | stdin (data : List Byte)
  /-- Standard input has ended. -/
  | stdinEof
  /-- Bytes of the job were written to the printer. -/
  | printer (data : List Byte)
  /-- Bytes that are not of the job were written to the printer. -/
  | inserted (data : List Byte)
  /-- Bytes were read from the printer. -/
  | feedback (data : List Byte)
  /-- Bytes were written to standard output. -/
  | stdout (data : List Byte)
  /-- `(*send_eoj_funct)()`. -/
  | eoj
  /-- `(*status_function)()`. -/
  | status
  deriving DecidableEq

/-- The variables of `int_copy_job()`. -/
structure CopyState where
  /-- The `xmit_len` bytes at `xmit_ptr`. -/
  xmit : List Byte
  /-- `xmit_ptr` points to the constant with the control-T, not into the buffer. -/
  xmitControlT : Bool
  xmitState : CopyPhase
  /-- The `recv_len` bytes at `recv_ptr`. -/
  recv : List Byte
  recvState : CopyPhase
  recvEoj : Bool
  lastStdinRead : ℤ
  timeNextControlT : ℤ
  timeNextStatus : ℤ
  selectWriteWrong : ℕ
  selectReadWrong : ℕ
  events : List CopyEvent

/-- The arguments of `int_copy_job()`, and the time when it is called. -/
structure CopyJob where
  /-- `int_cmdline.feedback`. -/
  feedback : Bool
  idleStatusInterval : ℤ
  /-- `send_eoj_funct` is not null. -/
  sendEoj : Bool
  statusInterval : ℤ
  /-- The initialization string after the byte with its length. -/
  initString : Option (List Byte)
  init_short : ∀ l, initString = some l → l.length < 256
  started : ℤ

/-- The size of the buffers. -/
def bufferSize : ℕ := 8192

/-- What `read()` does; after `EINTR` it is called again. -/
inductive ReadOutcome where
  | data (l : List Byte) (ne_nil : l ≠ []) (short : l.length ≤ bufferSize)
  | eof
  | eintr (again : ReadOutcome)
  | eagain
  /-- Another error; `returns` says whether `(*prn_err)()` comes back. -/
  | failed (returns : Bool)

/-- What `write()` does. -/
inductive WriteOutcome where
  | wrote (n : ℕ)
  | eintr (again : WriteOutcome)
  | eagain
  | failed (returns : Bool)

/-- What `select()` does. -/
inductive SelectOutcome where
  | eintr
  | failed (returns : Bool)
  | timeout (now : ℤ)
  | ready (stdin portWrite portRead stdout : Bool)

/-- What the system does in a round of the loop. -/
structure Round where
  select : SelectOutcome
  stdinRead : ReadOutcome
  portWrite : WriteOutcome
  portRead : ReadOutcome
  stdoutWrite : WriteOutcome
  now : ℤ

/-- Why the interface program ends. -/
inductive CopyExit where
  | defectiveDriver
  | prnErr
  | stdinFailed
  | stdoutFailed
  | assertion
  deriving DecidableEq

/-- Where `int_copy_job()` is. -/
inductive CopyStatus where
  | running (s : CopyState)
  | returned (s : CopyState)
  | exited (why : CopyExit) (s : CopyState)

def CopyStatus.state : CopyStatus → CopyState
  | .running s | .returned s | .exited _ s => s

/-- The initialization string as a list, empty if there is none. -/
def CopyJob.init (p : CopyJob) : List Byte := p.initString.getD []

/-- The start of `int_copy_job()`. -/
def CopyJob.start (p : CopyJob) : CopyState where
  xmit := p.init
  xmitControlT := false
  xmitState := if p.initString.isSome then .writing else .reading
  recv := []
  recvState := .reading
  recvEoj := false
  lastStdinRead :=
    match p.initString with
    | some l => l.length
    | none => 1
  timeNextControlT := if 0 < p.idleStatusInterval then p.started + p.idleStatusInterval else 0
  timeNextStatus := if 0 < p.statusInterval then p.started + p.statusInterval else 0
  selectWriteWrong := 0
  selectReadWrong := 0
  events := []

def CopyState.note (s : CopyState) (e : CopyEvent) : CopyState := { s with events := s.events ++ [e] }

/-- A part of a round: it goes on, or the program ends. -/
abbrev CopyM := Except (CopyExit × CopyState) CopyState

/-- Nothing was read: that is taken for the end of the job. -/
def stdinNothing (p : CopyJob) (s : CopyState) : CopyState :=
  if p.sendEoj then s.note .eoj else s

/-- "If pprdrv has sent us data". -/
def fromStdin (p : CopyJob) (s : CopyState) : ReadOutcome → CopyM
  | .data l _ _ =>
    .ok ({ s with
      xmit := l, xmitControlT := false, lastStdinRead := l.length, xmitState := .writing,
      timeNextControlT := 0 }.note (.stdin l))
  | .eof =>
    .ok (stdinNothing p ({ s with xmit := [], xmitControlT := false, lastStdinRead := 0 }.note .stdinEof))
  | .eintr again => fromStdin p s again
  | .eagain => .ok (stdinNothing p { s with xmit := [], xmitControlT := false, lastStdinRead := -1 })
  | .failed _ => .error (.stdinFailed, s)

/-- The `n` bytes that `write()` has written to the printer. -/
def CopyState.sent (s : CopyState) (n : ℕ) : CopyState :=
  if s.xmit.take n = [] then s
  else s.note (if s.xmitControlT then .inserted (s.xmit.take n) else .printer (s.xmit.take n))

/-- After `write()` to the printer. -/
def afterWrite (p : CopyJob) (now : ℤ) (s : CopyState) : CopyState :=
  if s.xmit = [] then
    { s with
      xmitState := .reading
      timeNextControlT :=
        if p.idleStatusInterval ≠ 0 then now + p.idleStatusInterval else s.timeNextControlT }
  else s

/-- "If the printer is ready to receive the data". -/
def toPrinter (p : CopyJob) (now : ℤ) (s : CopyState) : WriteOutcome → CopyM
  | .wrote n =>
    let len := min n s.xmit.length
    let s := s.sent len
    .ok (afterWrite p now { s with
      xmit := s.xmit.drop len
      selectWriteWrong := if 0 < len then 0 else s.selectWriteWrong })
  | .eintr again => toPrinter p now s again
  | .eagain => .ok (afterWrite p now { s with selectWriteWrong := s.selectWriteWrong + 1 })
  | .failed returns => if returns then .ok (afterWrite p now s) else .error (.prnErr, s)

/-- "If we have received feedback data from the printer". -/
def fromPrinter (s : CopyState) : ReadOutcome → CopyM
  | .data l _ _ =>
    .ok ({ s with recv := l, recvState := .writing, selectReadWrong := 0 }.note (.feedback l))
  | .eof => .ok { s with recv := [], recvEoj := true }
  | .eintr again => fromPrinter s again
  | .eagain =>
    .ok { s with recv := [], selectReadWrong := s.selectReadWrong + 1, recvEoj := true }
  | .failed returns =>
    if returns then .ok { s with recv := [], recvEoj := true } else .error (.prnErr, { s with recv := [] })

/-- After `write()` to standard output. -/
def afterStdout (s : CopyState) : CopyState :=
  if s.recv = [] then { s with recvState := .reading } else s

/-- "If the pipe to pprdrv can accept feedback data". -/
def toStdout (s : CopyState) : WriteOutcome → CopyM
  | .wrote n =>
    let len := min n s.recv.length
    let s := if s.recv.take len = [] then s else s.note (.stdout (s.recv.take len))
    .ok (afterStdout { s with recv := s.recv.drop len })
  | .eintr again => toStdout s again
  | .eagain => .ok (afterStdout s)
  | .failed _ => .error (.stdoutFailed, s)

/-- A timeout of `select()`. -/
def onTimeout (p : CopyJob) (now : ℤ) (s : CopyState) : CopyM := do
  let s ←
    if 0 < s.timeNextControlT ∧ s.timeNextControlT ≤ now then
      if s.xmitState ≠ .reading then .error (.assertion, s)
      else .ok { s with
        xmit := [0x14], xmitControlT := true, xmitState := .writing, timeNextControlT := 0 }
    else (.ok s : CopyM)
  .ok (if 0 < s.timeNextStatus ∧ s.timeNextStatus ≤ now then
    { s with timeNextStatus := now + p.statusInterval }.note .status else s)

/-- The descriptors that `select()` returns, of those it was asked about. -/
structure FdSets where
  stdin : Bool
  portWrite : Bool
  portRead : Bool
  stdout : Bool

def fdSets (p : CopyJob) (s : CopyState) (stdin portWrite portRead stdout : Bool) : FdSets where
  stdin := stdin && s.xmitState = .reading && s.lastStdinRead ≠ 0
  portWrite := portWrite && s.xmitState = .writing
  portRead := portRead && p.feedback && s.recvState = .reading
  stdout := stdout && p.feedback && s.recvState = .writing

/-- What is done with the descriptors that are ready. -/
def onReady (p : CopyJob) (r : Round) (fds : FdSets) (s : CopyState) : CopyM := do
  if (fds.stdin ∧ s.xmitState ≠ .reading) ∨ (fds.portWrite ∧ s.xmitState ≠ .writing) ∨
      (fds.portRead ∧ s.recvState ≠ .reading) ∨ (fds.stdout ∧ s.recvState ≠ .writing) then
    .error (.assertion, s)
  else
    let s ←
      if fds.stdin then fromStdin p s r.stdinRead
      else if fds.portWrite then toPrinter p r.now s r.portWrite
      else .ok s
    if fds.portRead then fromPrinter s r.portRead
    else if fds.stdout then toStdout s r.stdoutWrite
    else .ok s

/-- The body of the loop.  The lengths are those of lists, so that they are not negative at its
end. -/
def copyRound (p : CopyJob) (r : Round) (s : CopyState) : CopyM :=
  if 10 < s.selectWriteWrong ∨ 10 < s.selectReadWrong then .error (.defectiveDriver, s)
  else
    match r.select with
    | .eintr => .ok s
    | .failed returns => if returns then .ok s else .error (.prnErr, s)
    | .timeout now => onTimeout p now s
    | .ready stdin portWrite portRead stdout =>
      onReady p r (fdSets p s stdin portWrite portRead stdout) s

/-- The condition of the loop. -/
def CopyState.goesOn (p : CopyJob) (s : CopyState) : Prop :=
  s.lastStdinRead ≠ 0 ∨ s.recv ≠ [] ∨ (p.sendEoj ∧ s.recvEoj = false)

instance (p : CopyJob) (s : CopyState) : Decidable (s.goesOn p) :=
  inferInstanceAs (Decidable (_ ∨ _ ∨ _))

/-- The loop of `int_copy_job()`. -/
def copyStep (p : CopyJob) (r : Round) : CopyStatus → CopyStatus
  | .running s =>
    if s.goesOn p then
      match copyRound p r s with
      | .ok s => .running s
      | .error (why, s) => .exited why s
    else .returned s
  | t => t

/-- The runs of `int_copy_job()`, over every sequence of what the system does. -/
def CopyRun (p : CopyJob) : List (CopyStatus × Round) → CopyStatus → Prop :=
  Machine.Run (fun t => t = .running p.start) fun t r u => copyStep p r t = u

end Ppr
