import Ppr.Pprd.State

/-!
# Destinations, job status and printer status

The functions of `pprd_destid.c`, the queue array primitives of `pprd_queue.c` and
`printer_new_status()`.  Everything here changes the tables and the files together.  Messages to
queue displays and to users are not modelled.
-/

namespace Ppr

/-! ## Destination ids -/

/-- `destid_is_group()`: printer ids run from 0 to `printer_count - 1`. -/
def destidIsGroup (s : Pprd) (destid : ℕ) : Bool := s.printerCount ≤ destid

/-- `destid_to_gindex()`.  Its assertion cannot fail: an id that is not a printer's was made by
`destidByGindex`. -/
def destidToGindex (destid : ℕ) : ℕ := destid - maxPrinters

/-- `destid_by_gindex()`. -/
def destidByGindex (gindex : ℕ) : ℕ := gindex + maxPrinters

/-- `destid_to_name()`. -/
def destidToName (s : Pprd) (destid : ℕ) : String :=
  if destidIsGroup s destid then
    let g := destidToGindex destid
    if g < s.groupCount ∧ (s.groups g).deleted = false then (s.groups g).name else "<invalid>"
  else if s.prnStatus destid ≠ .deleted then (s.printers destid).name
  else "<invalid>"

/-- `destid_by_printer()`. -/
def destidByPrinter (s : Pprd) (name : String) : Option ℕ :=
  (List.range s.printerCount).find? fun x =>
    s.prnStatus x ≠ .deleted ∧ (s.printers x).name = name

/-- `destid_by_group()`. -/
def destidByGroup (s : Pprd) (name : String) : Option ℕ :=
  ((List.range s.groupCount).find? fun x =>
    (s.groups x).deleted = false ∧ (s.groups x).name = name).map destidByGindex

/-- `destid_by_name()`: of a group and a printer with the same name, the group. -/
def destidByName (s : Pprd) (name : String) : Option ℕ :=
  (destidByGroup s name).or (destidByPrinter s name)

/-- `destid_by_name_reversed()`: of a group and a printer with the same name, the printer. -/
def destidByNameReversed (s : Pprd) (name : String) : Option ℕ :=
  (destidByPrinter s name).or (destidByGroup s name)

/-- The members of the group a destination id denotes. -/
def members (s : Pprd) (destid : ℕ) : List ℕ := (s.groups (destidToGindex destid)).printers

/-- `destid_get_member_offset()`. -/
def destidGetMemberOffset (s : Pprd) (destid prnid : ℕ) : Option ℕ :=
  (members s destid).findIdx? fun p => p = prnid

/-- `destid_printer_bit()`: the printer's bit in `never` and `notnow`, 0 if it does not serve the
destination. -/
def destidPrinterBit (s : Pprd) (destid prnid : ℕ) : BitVec 8 :=
  if prnid = destid then 1
  else if destidIsGroup s destid = false then 0
  else match destidGetMemberOffset s destid prnid with
    | none => 0
    | some off => 1 <<< off

/-- `destid_accepting()`. -/
def destidAccepting (s : Pprd) (destid : ℕ) : Bool :=
  if destidIsGroup s destid then (s.groups (destidToGindex destid)).spoolState.accepting
  else (s.printers destid).spoolState.accepting

/-- The destination is a group and the group is held. -/
def destidHeld (s : Pprd) (destid : ℕ) : Bool :=
  destidIsGroup s destid && (s.groups (destidToGindex destid)).spoolState.held

/-- The printer is the destination or a member of the destination group. -/
def serves (s : Pprd) (prnid destid : ℕ) : Bool :=
  decide (destid = prnid) ||
    (destidIsGroup s destid && (destidGetMemberOffset s destid prnid).isSome)

/-! ## Files -/

/-- The name of an entry's queue file. -/
def queueFileName (s : Pprd) (q : QEntry) : QName := (destidToName s q.destid, q.id, q.subid)

/-- `delete_job_files()`, as far as the queue file is concerned. -/
def deleteJobFiles (s : Pprd) (name : QName) : Pprd :=
  { s with disk.queue := Function.update s.disk.queue name none }

/-- `rename()` in the queue directory: it fails if the file does not exist, and replaces one with
the new name. -/
def Disk.rename (d : Disk) (oldname newname : QName) : Disk :=
  match d.queue oldname with
  | none => d
  | some f =>
    { d with queue := Function.update (Function.update d.queue oldname none) newname (some f) }

/-- The line `queue_write_status_and_flags()` writes for an entry. -/
def QEntry.line (q : QEntry) : PprdLine :=
  { priority := q.priority, sequenceNumber := q.sequenceNumber, status := q.status.code,
    flags := q.flags }

/-- Overwrite the "PPRD:" line of a queue file, if there is such a file. -/
def Disk.writeLine (d : Disk) (name : QName) (line : PprdLine) : Disk :=
  { d with
    queue := Function.update d.queue name ((d.queue name).map fun f => { f with line := line }) }

/-- `queue_write_status_and_flags()`. -/
def queueWriteStatusAndFlags (s : Pprd) (x : ℕ) : Pprd :=
  { s with disk := s.disk.writeLine (queueFileName s (s.job x)) (s.job x).line }

/-- `printer_spool_state_save()`. -/
def printerSpoolStateSave (s : Pprd) (prnid : ℕ) : Pprd :=
  let p := s.printers prnid
  { s with
    disk.printerState := Function.update s.disk.printerState p.name (some p.spoolState) }

/-- `group_spool_state_save()`. -/
def groupSpoolStateSave (s : Pprd) (gindex : ℕ) : Pprd :=
  let g := s.groups gindex
  { s with
    disk.groupState := Function.update s.disk.groupState g.name (some g.spoolState) }

/-! ## The queue array -/

/-- `job_count_adjust()`. -/
def jobCountAdjust (s : Pprd) (destid : ℕ) (increment : ℤ) (flush : Bool) : Pprd :=
  if destidIsGroup s destid then
    let g := destidToGindex destid
    let s := s.modifyGroup g fun c =>
      { c with spoolState.jobCount := c.spoolState.jobCount + increment }
    if flush then groupSpoolStateSave s g else s
  else
    let s := s.modifyPrinter destid fun p =>
      { p with spoolState.jobCount := p.spoolState.jobCount + increment }
    if flush then printerSpoolStateSave s destid else s

/-- The destination is in use: a deleted printer or group has lost its name. -/
def destidLive (s : Pprd) (destid : ℕ) : Bool :=
  if destidIsGroup s destid then !(s.groups (destidToGindex destid)).deleted
  else decide (s.prnStatus destid ≠ .deleted)

/-- `queue_dequeue_job()`: nothing happens if there is no such job.  The spool state of the
destination is saved under its name, which must not be gone. -/
def queueDequeueJob (s : Pprd) (k : JobKey) : Except Stop Pprd :=
  match s.findJob k with
  | none => .ok s
  | some x =>
    if destidLive s k.1 then
      let s := deleteJobFiles s (destidToName s k.1, k.2.1, k.2.2)
      .ok (jobCountAdjust { s with queue := s.queue.eraseIdx x } k.1 (-1) true)
    else .error .nullName

/-- `queue_p_job_new_status()`.  Its assertion cannot fail: the callers pass none of the statuses
it has no text for. -/
def queuePJobNewStatus (s : Pprd) (x : ℕ) (newstat : JobStatus) : Pprd :=
  queueWriteStatusAndFlags (s.modifyJob x fun q => { q with status := newstat }) x

/-- `queue_job_new_status()`, with the index of the entry it found. -/
def queueJobNewStatus (s : Pprd) (k : JobKey) (newstat : JobStatus) : Except Stop (Pprd × ℕ) :=
  match s.findJob k with
  | none => .error .jobNotFound
  | some x => .ok (queuePJobNewStatus s x newstat, x)

/-! ## Printer status -/

/-- `printer_new_status()`.  Deleted printers can't change state; a ppop that waits for a stop is
informed and forgotten. -/
def printerNewStatus (s : Pprd) (prnid : ℕ) (newstatus : PrnStatus) : Pprd :=
  if s.prnStatus prnid = .deleted then s
  else
    printerSpoolStateSave
      (s.modifyPrinter prnid fun p =>
        { p with
          spoolState.previousStatus := p.spoolState.status
          spoolState.status := newstatus
          ppopPid := if newstatus = .stopt then 0 else p.ppopPid })
      prnid

/-! ## Media names -/

/-- `get_media_name()`. -/
def getMediaName (s : Pprd) (mediaid : ℤ) : String :=
  if mediaid = -1 then "" else (s.media[mediaid.toNat]?).getD "<invalid>"

/-- `get_media_id()`: an unknown name is added to the table. -/
def getMediaId (s : Pprd) (medianame : String) : Except Stop (Pprd × ℤ) :=
  if medianame = "" then .ok (s, -1)
  else match s.media.findIdx? fun m => m = medianame with
    | some x => .ok (s, x)
    | none =>
      if s.media.length = maxMedia then .error .mediaOverflow
      else .ok ({ s with media := s.media ++ [medianame] }, s.media.length)

end Ppr
