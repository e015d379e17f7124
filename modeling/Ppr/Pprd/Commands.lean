import Ppr.Pprd.Pprdrv

/-!
# Commands of ppop

`pprd_ppop.c`.  The IPP server's requests cancel, hold, release and move jobs and stop and start
printers with the same code, so that what is done to one job or one printer is a definition of its
own.  A reply is its code: the texts are not modelled.
-/

namespace Ppr

open Outcome

/-- `WILDCARD_JOBID` and `WILDCARD_SUBID`. -/
def wildcard : ℤ := -1

/-- The entry is one of those a command names; no destination stands for `QUEUEID_WILDCARD`. -/
def QEntry.isNamed (q : QEntry) (destid : Option ℕ) (id subid : ℤ) : Bool :=
  (destid.all fun d => q.destid = d) && (id = wildcard || q.id = id) &&
    (subid = wildcard || q.subid = subid)

/-! ## Operations on jobs -/

/-- Cancel a job that is printing: it will be deleted when pprdrv dies. -/
def cancelPrinting (s : Pprd) (x prnid : ℕ) : Pprd :=
  let s := if s.prnStatus prnid = .printing then printerNewStatus s prnid .canceling else s
  let s := s.modifyPrinter prnid fun p => { p with cancelJob := true }
  queuePJobNewStatus s x .cancel

/-- Cancel a job that is being held, on the first printer with its key. -/
def cancelSeizing (s : Pprd) (x : ℕ) : Pprd :=
  match (List.range s.printerCount).find? fun p => (s.printers p).jobKey = (s.job x).key with
  | none => s
  | some prnid =>
    let s := if s.prnStatus prnid = .seizing then printerNewStatus s prnid .canceling else s
    let s := s.modifyPrinter prnid fun p => { p with holdJob := false, cancelJob := true }
    queuePJobNewStatus s x .cancel

/-- Cancel entry `x`.  An entry that is not on a printer is deleted at once, and the next one is
then at its place. -/
def cancelJob (s : Pprd) (x : ℕ) : Except Stop (Flow Pprd) :=
  match (s.job x).status with
  | .printing prnid => .ok (.next (cancelPrinting s x prnid))
  | .cancel => .ok (.next s)
  | .seizing => .ok (.next (cancelSeizing s x))
  | _ => do
    let s ← queueDequeueJob s (s.job x).key
    .ok (.again s)

/-- Cancel the jobs a command names: the loop of `ppop_cancel_purge()` and of
`ipp_cancel_job_core()`. -/
def cancelJobs (s : Pprd) (destid : Option ℕ) (id subid : ℤ) : Except Stop Pprd :=
  forLoop (fun x s =>
    if (s.job x).isNamed destid id subid then cancelJob s x else .ok (.next s))
    s.queue.length 0 s

/-- Hold entry `x`.  To convert a cancel into a hold the printer is looked up under the status of
the job, `printers[STATUS_CANCEL]`. -/
def holdJob (s : Pprd) (x : ℕ) : Except Stop Pprd :=
  match (s.job x).status with
  | .waiting | .waiting4media => .ok (queuePJobNewStatus s x .held)
  | .cancel => .error .wildIndex
  | .printing prnid =>
    let s := printerNewStatus (queuePJobNewStatus s x .seizing) prnid .seizing
    .ok (s.modifyPrinter prnid fun p => { p with holdJob := true })
  | _ => .ok s

/-- Release entry `x`, which is held or arrested. -/
def releaseJob (os : ℕ → Bool) (s : Pprd) (x : ℕ) : Except Stop Pprd :=
  let s := mediaSetNotnowForJob (queuePJobNewStatus s x .waiting) x
  if (s.job x).status = .waiting then printerTryStart os s x else .ok s

/-- The first half of a move: the files are renamed and the entry is changed. -/
def moveEntry (s : Pprd) (x newDestid : ℕ) (newDestname : String) : Pprd :=
  let q := s.job x
  let s :=
    if q.destid ≠ newDestid then
      let d := s.disk.rename (queueFileName s q) (newDestname, q.id, q.subid)
      { s with disk := d }.modifyJob x fun q => { q with destid := newDestid }
    else s
  let s := if (s.job x).status = .stranded then queuePJobNewStatus s x .waiting else s
  let s := s.modifyJob x fun q =>
    { q with never := 0, pass := if destidIsGroup s q.destid then 1 else 0 }
  mediaSetNotnowForJob s x

/-- Move entry `x`, which is not printing. -/
def moveJob (os : ℕ → Bool) (s : Pprd) (x newDestid : ℕ) (newDestname : String) :
    Except Stop Pprd :=
  let s := moveEntry s x newDestid newDestname
  if (s.job x).status = .waiting then printerTryStart os s x else .ok s

/-! ## Operations on printers -/

/-- Start a printer that is not running. -/
def startPrinter (os : ℕ → Bool) (s : Pprd) (prnid : ℕ) : Except Stop Pprd :=
  match s.prnStatus prnid with
  | .fault | .stopt => do
    let s ← mediaStartstopUpdateWaitreason (printerNewStatus s prnid .idle) prnid
    printerLookForWork os s prnid
  | .stopping => mediaStartstopUpdateWaitreason (printerNewStatus s prnid .printing) prnid
  | _ => .ok s

/-- The status a printer gets when it is to be stopt, if it changes. -/
def stopStatus (halt : Bool) : PrnStatus → Option PrnStatus
  | .fault | .idle | .engaged | .starved => some .stopt
  | .canceling | .seizing => some .halting
  | .printing => some (if halt then .halting else .stopping)
  | .stopping => if halt then some .halting else none
  | .halting | .stopt | .deleted => none

/-- Stop a printer, at the end of the current job or now. -/
def stopPrinter (s : Pprd) (prnid : ℕ) (halt : Bool) : Except Stop Pprd :=
  match stopStatus halt (s.prnStatus prnid) with
  | none => .ok s
  | some newstatus => mediaStartstopUpdateWaitreason (printerNewStatus s prnid newstatus) prnid

/-- Accept or reject jobs for a destination. -/
def setAccepting (s : Pprd) (destid : ℕ) (accepting : Bool) : Pprd :=
  if destidIsGroup s destid then
    let g := destidToGindex destid
    groupSpoolStateSave
      (s.modifyGroup g fun c => { c with spoolState.accepting := accepting }) g
  else
    printerSpoolStateSave
      (s.modifyPrinter destid fun p => { p with spoolState.accepting := accepting }) destid

/-- Hold or release a group. -/
def setHeld (s : Pprd) (gindex : ℕ) (held : Bool) : Pprd :=
  groupSpoolStateSave
    (s.modifyGroup gindex fun c => { c with spoolState.held := held }) gindex

/-! ## ppop -/

/-- The codes in replies to ppop. -/
inductive PpopReply where
  | ok | okData | badDest | badJob | already | notPossible | prnOnly | badBin | cantWait | internal
  deriving DecidableEq, Repr

/-- The commands of ppop that change something. -/
inductive PpopCommand where
  | start (prnname : String)
  | stop (prnname : String)
  /-- Stop and wait; the pid is that of ppop. -/
  | wstop (prnname : String) (pid : ℤ)
  | halt (prnname : String)
  | hold (destname : String) (id subid : ℤ)
  | release (destname : String) (id subid : ℤ)
  | cancel (destname : String) (id subid : ℤ)
  | mount (printer binname medianame : String)
  | accept (destname : String)
  | reject (destname : String)
  | move (destname : String) (id subid : ℤ) (newDestname : String)
  /-- To the head of the queue if the position is 0, else to the tail. -/
  | rush (destname : String) (id subid : ℤ) (newpos : ℤ)
  | modifyQuestion (destname : String) (id subid : ℤ) (onOff : Bool)
  deriving DecidableEq, Repr

/-- Look up a printer for `ppop_start_stop_wstop_halt()` or `ppop_mount()` and go on with it. -/
def withPrinter (s : Pprd) (prnname : String)
    (f : ℕ → Except Stop (Pprd × PpopReply)) : Except Stop (Pprd × PpopReply) :=
  match destidByNameReversed s prnname with
  | none => .ok (s, .badDest)
  | some prnid => if destidIsGroup s prnid then .ok (s, .prnOnly) else f prnid

/-- Look up a destination and the first entry a command names and go on with it. -/
def withJob (s : Pprd) (destname : String) (id subid : ℤ)
    (f : ℕ → Except Stop (Pprd × PpopReply)) : Except Stop (Pprd × PpopReply) :=
  match destidByName s destname with
  | none => .ok (s, .badDest)
  | some destid =>
    match s.queue.findIdx? fun q =>
        q.destid = destid ∧ q.id = id ∧ (subid = wildcard ∨ q.subid = subid) with
    | none => .ok (s, .badJob)
    | some x => f x

/-- `ppop_start_stop_wstop_halt()`, action 0. -/
def ppopStart (os : ℕ → Bool) (s : Pprd) (prnname : String) : Except Stop (Pprd × PpopReply) :=
  withPrinter s prnname fun prnid => do
    let reply := match s.prnStatus prnid with
      | .fault | .stopt | .stopping => .ok
      | .halting => .notPossible
      | .deleted => .internal
      | _ => .already
    -- A ppop that waits for the stop has to wait no longer.
    let s :=
      if s.prnStatus prnid = .stopping then
        s.modifyPrinter prnid fun p => { p with ppopPid := if p.ppopPid > 0 then 0 else p.ppopPid }
      else s
    let s ← startPrinter os s prnid
    .ok (s, reply)

/-- `ppop_start_stop_wstop_halt()`, actions 1, 2 and 129; the last one comes with the pid of the
ppop that waits. -/
def ppopStop (s : Pprd) (prnname : String) (halt : Bool) (wait : Option ℤ) :
    Except Stop (Pprd × PpopReply) :=
  withPrinter s prnname fun prnid => do
    let t ← stopPrinter s prnid halt
    match s.prnStatus prnid, stopStatus halt (s.prnStatus prnid) with
    | .deleted, _ => .ok (t, .internal)
    | _, none => .ok (t, .already)
    | _, some .stopt => .ok (t, .ok)
    | _, some _ =>
      match wait with
      | none => .ok (t, .ok)
      | some pid =>
        if (t.printers prnid).ppopPid ≠ 0 then .ok (t, .cantWait)
        else .ok (t.modifyPrinter prnid fun p => { p with ppopPid := pid }, .ok)

/-- `ppop_hold_release()`, action 0. -/
def ppopHold (s : Pprd) (destname : String) (id subid : ℤ) : Except Stop (Pprd × PpopReply) :=
  withJob s destname id subid fun x => do
    let reply := match (s.job x).status with
      | .waiting | .waiting4media | .cancel | .printing _ => .ok
      | .held | .arrested | .seizing => .already
      | .receiving => .notPossible
      | .stranded | .finished | .funds | .other _ => .internal
    let s ← holdJob s x
    .ok (s, reply)

/-- `ppop_hold_release()`, action 1. -/
def ppopRelease (os : ℕ → Bool) (s : Pprd) (destname : String) (id subid : ℤ) :
    Except Stop (Pprd × PpopReply) :=
  withJob s destname id subid fun x =>
    match (s.job x).status with
    | .held | .arrested => do
      let s ← releaseJob os s x
      .ok (s, .ok)
    | .receiving => .ok (s, .notPossible)
    | _ => .ok (s, .already)

/-- `ppop_cancel_purge()`: "all" and "any" stand for every destination if none is called that. -/
def ppopCancelPurge (s : Pprd) (destname : String) (id subid : ℤ) :
    Except Stop (Pprd × PpopReply) :=
  let destid := destidByName s destname
  if destid = none ∧ destname ≠ "all" ∧ destname ≠ "any" then .ok (s, .badDest)
  else do
    let t ← cancelJobs s destid id subid
    if (s.queue.any fun q => q.isNamed destid id subid) = false ∧ id ≠ wildcard ∧
        subid ≠ wildcard then
      .ok (t, .badJob)
    else .ok (t, .okData)

/-- `ppop_mount()`. -/
def ppopMount (os : ℕ → Bool) (s : Pprd) (printer binname medianame : String) :
    Except Stop (Pprd × PpopReply) :=
  withPrinter s printer fun prnid =>
    if ((s.printers prnid).bins.any fun b => b.name = binname) then do
      let (s, m) ← getMediaId s medianame
      let s := s.modifyPrinter prnid fun p => { p with bins := setBin p.bins binname m }
      let s ← mediaUpdateNotnow s prnid
      let s ← lookForWorkIfIdle os s prnid
      .ok (mediaMountedSave s prnid, .ok)
    else .ok (s, .badBin)

/-- `ppop_accept_reject()`. -/
def ppopAcceptReject (s : Pprd) (destname : String) (accepting : Bool) :
    Except Stop (Pprd × PpopReply) :=
  match destidByName s destname with
  | none => .ok (s, .badDest)
  | some destid => .ok (setAccepting s destid accepting, .ok)

/-- The loop of `ppop_move()`: jobs that are printing are passed over. -/
def moveJobs (os : ℕ → Bool) (s : Pprd) (destid : ℕ) (id subid : ℤ) (newDestid : ℕ)
    (newDestname : String) : Except Stop Pprd :=
  forLoop (fun x s =>
    if (s.job x).isNamed (some destid) id subid then
      match (s.job x).status with
      | .printing _ => .ok (.next s)
      | _ => do
        let s ← moveJob os s x newDestid newDestname
        .ok (.next s)
    else .ok (.next s)) s.queue.length 0 s

/-- `ppop_move()`. -/
def ppopMove (os : ℕ → Bool) (s : Pprd) (destname : String) (id subid : ℤ)
    (newDestname : String) : Except Stop (Pprd × PpopReply) :=
  match destidByName s destname, destidByName s newDestname with
  | some destid, some newDestid => do
    let named := s.queue.filter fun q => q.isNamed (some destid) id subid
    let t ← moveJobs os s destid id subid newDestid newDestname
    if (named.all fun q => q.status.isPrinting) ∧ (id = wildcard ∨ named = []) then
      .ok (t, .badJob)
    else .ok (t, .ok)
  | _, _ => .ok (s, .badDest)

/-- Move entry `x` to the head or the tail of the queue and give it the priority that belongs
there.  The queue file is not written. -/
def rushEntry (s : Pprd) (x : ℕ) (newpos : ℤ) : Pprd :=
  let t := s.job x
  { s with
    queue :=
      if newpos = 0 then { t with priority := 101 } :: s.queue.eraseIdx x
      else s.queue.eraseIdx x ++ [{ t with priority := 1 }] }

/-- `ppop_rush()`. -/
def ppopRush (s : Pprd) (destname : String) (id subid newpos : ℤ) :
    Except Stop (Pprd × PpopReply) :=
  withJob s destname id subid fun x => .ok (rushEntry s x newpos, .ok)

/-- `ppop_modify_question()`. -/
def ppopModifyQuestion (os : ℕ → Bool) (s : Pprd) (destname : String) (id subid : ℤ)
    (onOff : Bool) : Except Stop (Pprd × PpopReply) :=
  withJob s destname id subid fun x => do
    let s ← questionOnOff os s x onOff
    .ok (s, .ok)

/-- `ppop_dispatch()`. -/
def ppopDispatch (os : ℕ → Bool) (s : Pprd) : PpopCommand → Except Stop (Pprd × PpopReply)
  | .start prnname => ppopStart os s prnname
  | .stop prnname => ppopStop s prnname false none
  | .wstop prnname pid => ppopStop s prnname false (some pid)
  | .halt prnname => ppopStop s prnname true none
  | .hold destname id subid => ppopHold s destname id subid
  | .release destname id subid => ppopRelease os s destname id subid
  | .cancel destname id subid => ppopCancelPurge s destname id subid
  | .mount printer binname medianame => ppopMount os s printer binname medianame
  | .accept destname => ppopAcceptReject s destname true
  | .reject destname => ppopAcceptReject s destname false
  | .move destname id subid newDestname => ppopMove os s destname id subid newDestname
  | .rush destname id subid newpos => ppopRush s destname id subid newpos
  | .modifyQuestion destname id subid onOff => ppopModifyQuestion os s destname id subid onOff

end Ppr
