import Ppr.Pprd.Commands

/-!
# Requests of the IPP server

`pprd_ipp.c`.  A printer or group is given as "printer name" or "group name", a job by its id alone.
-/

namespace Ppr

/-- The status codes in replies to the IPP server. -/
inductive IppStatus where
  | ok | notFound | notPossible | internalError | badRequest
  deriving DecidableEq, Repr

/-- `struct PPRD_CALL_RETVAL`: the extra code is 1 if there was nothing to do. -/
structure PprdCallRetval where
  statusCode : IppStatus
  extraCode : ℕ
  deriving DecidableEq, Repr

/-- The argument "group name", "printer name" or something else. -/
inductive IppTarget where
  | group (name : String)
  | printer (name : String)
  | other
  deriving DecidableEq, Repr

/-- The operations. -/
inductive IppCommand where
  | cancelJob (jobid : ℤ)
  | holdJob (jobid : ℤ)
  | releaseJob (jobid : ℤ)
  | pausePrinter (target : IppTarget)
  | resumePrinter (target : IppTarget)
  | purgeJobs (target : IppTarget)
  | acceptJobs (target : IppTarget)
  | rejectJobs (target : IppTarget)
  | moveJob (jobid : ℤ) (target : IppTarget)
  deriving DecidableEq, Repr

/-- `ipp_cancel_job_core()`. -/
def ippCancelJobCore (s : Pprd) (destid : Option ℕ) (jobid : ℤ) :
    Except Stop (Pprd × PprdCallRetval) := do
  let t ← cancelJobs s destid jobid wildcard
  if s.queue.any fun q => q.isNamed destid jobid wildcard then .ok (t, ⟨.ok, 0⟩)
  else .ok (t, ⟨.notFound, 0⟩)

/-- The first entry with the given id. -/
def findJobid (s : Pprd) (jobid : ℤ) : Option ℕ := s.queue.findIdx? fun q => q.id = jobid

/-- `ipp_hold_job()`. -/
def ippHoldJob (s : Pprd) (jobid : ℤ) : Except Stop (Pprd × PprdCallRetval) :=
  match findJobid s jobid with
  | none => .ok (s, ⟨.notFound, 0⟩)
  | some x => do
    let retval : PprdCallRetval := match (s.job x).status with
      | .waiting | .waiting4media | .cancel | .printing _ | .receiving => ⟨.ok, 0⟩
      | .held | .seizing => ⟨.ok, 1⟩
      | .arrested => ⟨.notPossible, 0⟩
      | .stranded | .finished | .funds | .other _ => ⟨.internalError, 0⟩
    let s ← holdJob s x
    .ok (s, retval)

/-- `ipp_release_job()`: an arrested job can't be released this way. -/
def ippReleaseJob (os : ℕ → Bool) (s : Pprd) (jobid : ℤ) : Except Stop (Pprd × PprdCallRetval) :=
  match findJobid s jobid with
  | none => .ok (s, ⟨.notFound, 0⟩)
  | some x =>
    match (s.job x).status with
    | .held => do
      let s ← releaseJob os s x
      .ok (s, ⟨.ok, 0⟩)
    | .arrested | .seizing => .ok (s, ⟨.notPossible, 0⟩)
    | .receiving => .ok (s, ⟨.ok, 0⟩)
    | _ => .ok (s, ⟨.ok, 1⟩)

/-- `ipp_pause_printer()`: a group is held, a printer is halted unless it is stopping already. -/
def ippPausePrinter (s : Pprd) : IppTarget → Except Stop (Pprd × PprdCallRetval)
  | .group name =>
    match destidByGroup s name with
    | none => .ok (s, ⟨.notFound, 0⟩)
    | some destid => .ok (setHeld s (destidToGindex destid) true, ⟨.ok, 0⟩)
  | .printer name =>
    match destidByPrinter s name with
    | none => .ok (s, ⟨.notFound, 0⟩)
    | some prnid =>
      match s.prnStatus prnid with
      | .halting | .stopt | .stopping => .ok (s, ⟨.ok, 1⟩)
      | .deleted => .ok (s, ⟨.internalError, 0⟩)
      | _ => do
        let s ← stopPrinter s prnid true
        .ok (s, ⟨.ok, 0⟩)
  | .other => .ok (s, ⟨.internalError, 0⟩)

/-- `ipp_resume_printer()`. -/
def ippResumePrinter (os : ℕ → Bool) (s : Pprd) : IppTarget → Except Stop (Pprd × PprdCallRetval)
  | .group name =>
    match destidByGroup s name with
    | none => .ok (s, ⟨.notFound, 0⟩)
    | some destid => do
      let g := destidToGindex destid
      let s ← groupLookForWork os (setHeld s g false) g
      .ok (s, ⟨.ok, 0⟩)
  | .printer name =>
    match destidByPrinter s name with
    | none => .ok (s, ⟨.notFound, 0⟩)
    | some prnid => do
      let retval : PprdCallRetval := match s.prnStatus prnid with
        | .fault | .stopt | .stopping => ⟨.ok, 0⟩
        | .halting => ⟨.notPossible, 0⟩
        | .deleted => ⟨.internalError, 0⟩
        | _ => ⟨.ok, 1⟩
      let s ← startPrinter os s prnid
      .ok (s, retval)
  | .other => .ok (s, ⟨.internalError, 0⟩)

/-- `ipp_purge_jobs()`: what is looked up is the whole argument, not the name in it. -/
def ippPurgeJobs (s : Pprd) : IppTarget → Except Stop (Pprd × PprdCallRetval)
  | .group name =>
    match destidByGroup s ("group " ++ name) with
    | none => .ok (s, ⟨.notFound, 0⟩)
    | some destid => ippCancelJobCore s (some destid) wildcard
  | .printer name =>
    match destidByPrinter s ("printer " ++ name) with
    | none => .ok (s, ⟨.notFound, 0⟩)
    | some destid => ippCancelJobCore s (some destid) wildcard
  | .other => .ok (s, ⟨.internalError, 0⟩)

/-- `cups_accept_or_reject_jobs()`: a printer is looked up among the groups, and the id of a group
is no index of the printer table. -/
def cupsAcceptOrRejectJobs (s : Pprd) (accepting : Bool) :
    IppTarget → Except Stop (Pprd × PprdCallRetval)
  | .group name =>
    match destidByGroup s name with
    | none => .ok (s, ⟨.notFound, 0⟩)
    | some destid => .ok (setAccepting s destid accepting, ⟨.ok, 0⟩)
  | .printer name =>
    match destidByGroup s name with
    | none => .ok (s, ⟨.notFound, 0⟩)
    | some _ => .error .wildIndex
  | .other => .ok (s, ⟨.badRequest, 0⟩)

/-- The destination a job is to be moved to. -/
def moveTarget (s : Pprd) : IppTarget → Option ℕ
  | .group name => destidByGroup s name
  | .printer name => destidByPrinter s name
  | .other => none

/-- `cups_move_job()`: only the first entry with the id is moved. -/
def cupsMoveJob (os : ℕ → Bool) (s : Pprd) (jobid : ℤ) (target : IppTarget) :
    Except Stop (Pprd × PprdCallRetval) :=
  match moveTarget s target with
  | none => .ok (s, ⟨if target = .other then .internalError else .notFound, 0⟩)
  | some newDestid =>
    match findJobid s jobid with
    | none => .ok (s, ⟨.notFound, 0⟩)
    | some x =>
      match (s.job x).status with
      | .printing _ => .ok (s, ⟨.notPossible, 0⟩)
      | _ => do
        let s ← moveJob os s x newDestid (destidToName s newDestid)
        .ok (s, ⟨.ok, 0⟩)

/-- `ipp_dispatch()`. -/
def ippDispatch (os : ℕ → Bool) (s : Pprd) : IppCommand → Except Stop (Pprd × PprdCallRetval)
  | .cancelJob jobid => ippCancelJobCore s none jobid
  | .holdJob jobid => ippHoldJob s jobid
  | .releaseJob jobid => ippReleaseJob os s jobid
  | .pausePrinter target => ippPausePrinter s target
  | .resumePrinter target => ippResumePrinter os s target
  | .purgeJobs target => ippPurgeJobs s target
  | .acceptJobs target => cupsAcceptOrRejectJobs s true target
  | .rejectJobs target => cupsAcceptOrRejectJobs s false target
  | .moveJob jobid target => cupsMoveJob os s jobid target

end Ppr
