import Ppr.Pprd.Queue

/-!
# The end of a pprdrv

`pprdrv_exited()` and the dispatch of dead children.  Alerts and messages to users are not modelled.
-/

namespace Ppr

/-- What `pprdrv_exited()` acts on; the more specific printer errors are merged into the two
generic ones. -/
inductive ExitCode where
  | printed | prnerr | prnerrNoretry | joberr | signal | engaged | starved | incapable
  deriving DecidableEq, Repr

/-- `EXIT_*` of `interface.h`; an unrecognized code is a printer error. -/
def ExitCode.ofExit : ℕ → ExitCode
  | 0 => .printed
  | 2 | 7 | 9 | 11 => .prnerrNoretry
  | 3 => .joberr
  | 4 => .signal
  | 5 => .engaged
  | 6 => .starved
  | 50 => .incapable
  | _ => .prnerr

/-- The exit code, or what stands for one if the process did not call `exit()`. -/
def exitCode : WaitStatus → ExitCode
  | .exited code => .ofExit code
  | .signaled core => if core then .prnerrNoretry else .signal
  | .stopped | .other => .prnerrNoretry

/-- A signal is a printer error unless the daemon had sent it. -/
def effectiveExitCode (status : PrnStatus) (w : WaitStatus) : ExitCode :=
  if exitCode w = .signal ∧ status ≠ .halting ∧ status ≠ .seizing ∧ status ≠ .canceling then .prnerr
  else exitCode w

/-- The case of a printer that is incapable of printing the job, with the status for the job.  The
queue is searched for the id and the sub-id. -/
def exitIncapable (s : Pprd) (prnid : ℕ) : Except Stop (Pprd × JobStatus) :=
  let p := s.printers prnid
  match s.queue.findIdx? fun q => q.id = p.jobId ∧ q.subid = p.jobSubid with
  | none => .error .jobMissing
  | some y =>
    if destidIsGroup s p.jobDestid = false then
      .ok (s.modifyJob y fun q => { q with never := q.never ||| 1 }, .stranded)
    else
      let never := (s.job y).never ||| destidPrinterBit s p.jobDestid prnid
      if never = allmask s p.jobDestid then
        let pass := (s.job y).pass + 1
        if pass > 2 then
          .ok (s.modifyJob y fun q => { q with never := never, pass := pass }, .stranded)
        else .ok (s.modifyJob y fun q => { q with never := 0, pass := pass }, .waiting)
      else .ok (s.modifyJob y fun q => { q with never := never }, .waiting)

/-- The retry counters after a printer error. -/
def faultRetry (p : PrinterSpoolState) : PrinterSpoolState :=
  { p with
    nextErrorRetry := p.nextErrorRetry + 1
    countdown := min ((p.nextErrorRetry + 1) * retryMultiplier) minRetry }

/-- The two switches over the exit code, with the status for the job. -/
def exitReport (s : Pprd) (prnid : ℕ) : ExitCode → Except Stop (Pprd × JobStatus)
  | .printed =>
    .ok (s.modifyPrinter prnid fun p =>
      { p with cancelJob := false, spoolState.nextErrorRetry := 0,
               spoolState.nextEngagedRetry := 0 }, .waiting)
  | .joberr =>
    .ok (s.modifyPrinter prnid fun p =>
      { p with spoolState.nextErrorRetry := 0, spoolState.nextEngagedRetry := 0 }, .arrested)
  | .incapable => exitIncapable s prnid
  | .engaged =>
    .ok (s.modifyPrinter prnid fun p =>
      { p with spoolState.nextEngagedRetry := p.spoolState.nextEngagedRetry + 1,
               spoolState.countdown := engagedRetry }, .waiting)
  | .starved => .ok ({ s with starvingPrinters := s.starvingPrinters + 1 }, .waiting)
  | .signal => .ok (s, .waiting)
  | .prnerr =>
    .ok (s.modifyPrinter prnid fun p => { p with spoolState := faultRetry p.spoolState }, .waiting)
  | .prnerrNoretry =>
    .ok (s.modifyPrinter prnid fun p =>
      { p with spoolState.nextErrorRetry := 0, spoolState.countdown := 0 }, .waiting)

/-- The status the exit code asks for. -/
def exitPrnStatus : ExitCode → PrnStatus
  | .engaged => .engaged
  | .starved => .starved
  | .prnerr | .prnerrNoretry => .fault
  | .printed | .joberr | .incapable | .signal => .idle

/-- Remove the job because it was printed or canceled, or set it to its new status. -/
def exitJob (os : ℕ → Bool) (s : Pprd) (prnid : ℕ) (estat : ExitCode) (jobStatus : JobStatus) :
    Except Stop Pprd :=
  let p := s.printers prnid
  if estat = .printed ∨ p.cancelJob then do
    let s ← queueDequeueJob s p.jobKey
    .ok (s.modifyPrinter prnid fun p => { p with cancelJob := false })
  else do
    let (s, x) ← queueJobNewStatus s p.jobKey jobStatus
    if jobStatus = .waiting then printerTryStart os s x else .ok s

/-- Set the printer to its new status, and look for something for it to do if it is now idle.
Stopping printers can only become stopt. -/
def exitPrinter (os : ℕ → Bool) (s : Pprd) (prnid : ℕ) (prnStatus : PrnStatus) :
    Except Stop Pprd :=
  let prnStatus :=
    if s.prnStatus prnid = .stopping ∨ s.prnStatus prnid = .halting then .stopt else prnStatus
  lookForWorkIfIdle os (printerNewStatus s prnid prnStatus) prnid

/-- The pprdrv is gone. -/
def pprdrvReaped (s : Pprd) (prnid : ℕ) : Pprd :=
  let s := s.modifyPrinter prnid fun p => { p with jobPid := 0 }
  { s with activePrinters := s.activePrinters - 1 }

/-- `pprdrv_exited()`. -/
def pprdrvExited (os : ℕ → Bool) (s : Pprd) (prnid : ℕ) (w : WaitStatus) : Except Stop Pprd := do
  let estat := effectiveExitCode (s.prnStatus prnid) w
  let (s, jobStatus) ← exitReport (pprdrvReaped s prnid) prnid estat
  -- An outstanding hold request takes precedence over every other status.
  let jobStatus := if (s.printers prnid).holdJob then .held else jobStatus
  let s := s.modifyPrinter prnid fun p => { p with holdJob := false }
  let s ← exitJob os s prnid estat jobStatus
  exitPrinter os s prnid (exitPrnStatus estat)

/-- `reapchild()`: `pprdrv_child_hook()` and then `question_child_hook()` look for the process. -/
def reapchild (os : ℕ → Bool) (now : ℤ) (s : Pprd) (pid : ℤ) (w : WaitStatus) : Except Stop Pprd :=
  match (List.range s.printerCount).find? fun x => (s.printers x).jobPid = pid with
  | some x => pprdrvExited os s x w
  | none => questionChildHook os now s pid w

end Ppr
