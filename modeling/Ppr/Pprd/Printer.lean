import Ppr.Pprd.Media

/-!
# Starting printers

`pprd_printer.c` and `pprdrv_start()`.  Whether a call of `fork()` succeeds is up to the operating
system: `os n` is its answer to call number `n`, and the process then gets the number `n + 1`.
-/

namespace Ppr

open Outcome

/-- Return values of `printer_start()`. -/
inductive StartResult where
  /-- 0: job started. -/
  | started
  /-- -1: printer not idle or start attempt failed. -/
  | failed
  /-- -2: job can't be printed on this printer, at least not right now. -/
  | unsuitable
  deriving DecidableEq, Repr

/-- The printer must go without for now. -/
def starve (s : Pprd) (prnid : ℕ) : Pprd :=
  let s := printerNewStatus s prnid .starved
  { s with starvingPrinters := s.starvingPrinters + 1 }

/-- What the parent does first after a successful `fork()` in `pprdrv_start()`. -/
def pprdrvForked (s : Pprd) (prnid : ℕ) (job : QEntry) : Pprd :=
  let group :=
    if destidIsGroup s job.destid then some (s.groups (destidToGindex job.destid)) else none
  let launch := { prnid := prnid, printer := s.printers prnid, job := job, group := group }
  let s := { s with
    forks := s.forks + 1
    activePrinters := s.activePrinters + 1
    launches := launch :: s.launches }
  s.modifyPrinter prnid fun p =>
    { p with jobPid := s.forks, jobDestid := job.destid, jobId := job.id, jobSubid := job.subid }

/-- If it is a group job, mark the last printer in the group that was used. -/
def markLast (s : Pprd) (prnid destid : ℕ) : Pprd :=
  if destidIsGroup s destid then
    s.modifyGroup (destidToGindex destid) fun c =>
      { c with last := match destidGetMemberOffset s destid prnid with
        | some off => off
        | none => -1 }
  else s

/-- `pprdrv_start()`. -/
def pprdrvStart (os : ℕ → Bool) (s : Pprd) (prnid x : ℕ) : Except Stop (Pprd × StartResult) :=
  let job := s.job x
  if job.status ≠ .waiting then .error .jobNotWaiting
  else if s.prnStatus prnid ≠ .idle then .error .printerNotIdle
  else if s.activePrinters = maxActive then .ok (starve s prnid, .failed)
  else if (s.printers prnid).spoolState.previousStatus ≠ .starved ∧
      s.activePrinters + s.starvingPrinters ≥ maxActive then
    .ok (starve s prnid, .failed)
  else if os s.forks = false then .ok (starve { s with forks := s.forks + 1 } prnid, .failed)
  else do
    let s := printerNewStatus (pprdrvForked s prnid job) prnid .printing
    let (s, _) ← queueJobNewStatus s job.key (.printing prnid)
    .ok (markLast s prnid job.destid, .started)

/-- `printer_start()`. -/
def printerStart (os : ℕ → Bool) (s : Pprd) (prnid x : ℕ) : Except Stop (Pprd × StartResult) :=
  let job := s.job x
  let bitmask := destidPrinterBit s job.destid prnid
  if job.status ≠ .waiting then .error .jobNotWaiting
  else if s.prnStatus prnid ≠ .idle then .ok (s, .failed)
  else if destidHeld s job.destid then .ok (s, .unsuitable)
  else if job.notnow &&& bitmask ≠ 0 then .ok (s, .unsuitable)
  else if job.never &&& bitmask ≠ 0 then .ok (s, .unsuitable)
  else pprdrvStart os s prnid x

/-- `printer_look_for_work()`: the first suitable job is tried, and no other. -/
def printerLookForWork (os : ℕ → Bool) (s : Pprd) (prnid : ℕ) : Except Stop Pprd :=
  if s.prnStatus prnid ≠ .idle then .error .printerNotIdle
  else forLoop (fun x s =>
    if (s.job x).status = .waiting ∧ serves s prnid (s.job x).destid then do
      let (s, retval) ← printerStart os s prnid x
      .ok (if retval ≠ .unsuitable then .stop s else .next s)
    else .ok (.next s)) s.queue.length 0 s

/-- Call `printer_look_for_work()` if the printer is idle. -/
def lookForWorkIfIdle (os : ℕ → Bool) (s : Pprd) (prnid : ℕ) : Except Stop Pprd :=
  if s.prnStatus prnid = .idle then printerLookForWork os s prnid else .ok s

/-- `group_look_for_work()`. -/
def groupLookForWork (os : ℕ → Bool) (s : Pprd) (gindex : ℕ) : Except Stop Pprd :=
  if gindex < maxGroups then (s.groups gindex).printers.foldlM (lookForWorkIfIdle os) s
  else .error .wildIndex

/-- `printer_try_start_suitable_4_this_job()`: the members of a group are tried in turn until one
has started. -/
def printerTryStart (os : ℕ → Bool) (s : Pprd) (x : ℕ) : Except Stop Pprd :=
  if (s.job x).status ≠ .waiting then .error .jobNotWaiting
  else if destidIsGroup s (s.job x).destid then
    let cl := s.groups (destidToGindex (s.job x).destid)
    let next := ((if cl.rotate then cl.last else -1) + 1).toNat
    forLoop (fun i s => do
      let y := (next + i) % cl.printers.length
      let (s, retval) ← printerStart os s (cl.printers.getD y 0) x
      .ok (if retval = .started then .stop s else .next s)) cl.printers.length 0 s
  else do
    let (s, _) ← printerStart os s (s.job x).destid x
    .ok s

/-! ## The timer -/

/-- The retry time of a faulted or engaged printer may be over. -/
def retryPrinter (os : ℕ → Bool) (s : Pprd) (prnid : ℕ) : Except Stop Pprd :=
  let p := (s.printers prnid).spoolState
  if (p.status = .fault ∧ p.nextErrorRetry ≠ 0) ∨ p.status = .engaged then
    let s := s.modifyPrinter prnid fun p =>
      { p with spoolState.countdown := p.spoolState.countdown - tickInterval }
    if (s.printers prnid).spoolState.countdown ≤ 0 then
      printerLookForWork os (printerNewStatus s prnid .idle) prnid
    else .ok s
  else .ok s

/-- A starving printer is now considered fed. -/
def feedPrinter (os : ℕ → Bool) (s : Pprd) (prnid : ℕ) : Except Stop Pprd :=
  if s.prnStatus prnid = .starved then
    let s := printerNewStatus s prnid .idle
    printerLookForWork os { s with starvingPrinters := s.starvingPrinters - 1 } prnid
  else .ok s

/-- One round of the search for starving printers. -/
def hungryRound (os : ℕ → Bool) (s : Pprd) : Except Stop (Flow Pprd) :=
  if s.starvingPrinters ≠ 0 ∧ s.activePrinters < maxActive then do
    let s := if s.hungryX ≥ s.printerCount then { s with hungryX := 0 } else s
    let s ← feedPrinter os s s.hungryX
    .ok (.next { s with hungryX := s.hungryX + 1 })
  else .ok (.stop s)

/-- `printer_tick()`, called every `tickInterval` seconds. -/
def printerTick (os : ℕ → Bool) (s : Pprd) : Except Stop Pprd := do
  let s ← (List.range s.printerCount).foldlM (retryPrinter os) s
  let s := { s with hungryCountdown := s.hungryCountdown - tickInterval }
  if s.hungryCountdown ≤ 0 then
    forLoop (fun _ s => hungryRound os s) s.printerCount 0
      { s with hungryCountdown := starvingRetryInterval }
  else .ok s

end Ppr
