import Ppr.Pprd.Tables

/-!
# Media

`pprd_media.c`: which printers have the media a job needs (`notnow`), which of a destination's
printers are stopt, and whether a job waits for a printer or for media.
-/

namespace Ppr

/-- `hasmedia()`: a printer without bins, or with one called AutoSelect, can print anything. -/
def hasmedia (s : Pprd) (prnid : ℕ) (job : QEntry) : Bool :=
  (s.printers prnid).bins.isEmpty || (s.printers prnid).autoSelectExists ||
    (job.media.takeWhile fun m => m ≠ -1).all fun m =>
      (s.printers prnid).bins.any fun b => b.media = m

/-- One bit for each member, from bit `x` on, set where `f` holds. -/
def memberMask (f : ℕ → Bool) : List ℕ → ℕ → BitVec 8
  | [], _ => 0
  | p :: l, x => (if f p then 1 <<< x else 0) ||| memberMask f l (x + 1)

/-- `(1 << members) - 1`. -/
def allmask (s : Pprd) (destid : ℕ) : BitVec 8 := (1 <<< (members s destid).length) - 1

/-- `stoptmask()`: the printers of a destination that are deliberately down. -/
def stoptmask (s : Pprd) (destid : ℕ) : BitVec 8 :=
  if destidIsGroup s destid = false then
    if (s.prnStatus destid).down then 1 else 0
  else memberMask (fun p => (s.prnStatus p).down) (members s destid) 0

/-- The status `media_set_job_wait_reason()` selects for a job that waits. -/
def waitReason (s : Pprd) (job : QEntry) (stoptMembersMask : BitVec 8) : JobStatus :=
  if destidIsGroup s job.destid then
    if job.notnow ||| stoptMembersMask = allmask s job.destid ∧
        stoptMembersMask ≠ allmask s job.destid then
      .waiting4media
    else .waiting
  else if job.notnow ≠ 0 ∧ stoptMembersMask = 0 then .waiting4media
  else .waiting

/-- `media_set_job_wait_reason()` for a job in the queue. -/
def mediaSetJobWaitReason (s : Pprd) (x : ℕ) (stoptMembersMask : BitVec 8) : Pprd :=
  if (s.job x).status.isWaiting then
    let newStatus := waitReason s (s.job x) stoptMembersMask
    if newStatus ≠ (s.job x).status then queuePJobNewStatus s x newStatus else s
  else s

/-- Do something for every entry of the queue with the given destination. -/
def forJobsOf (destid : ℕ) (f : Pprd → ℕ → Pprd) (s : Pprd) : Pprd :=
  (List.range s.queue.length).foldl (fun s x => if (s.job x).destid = destid then f s x else s) s

/-- `media_startstop_update_waitreason2()`. -/
def mediaStartstopUpdateWaitreason2 (s : Pprd) (destid : ℕ) : Pprd :=
  let stopt := stoptmask s destid
  forJobsOf destid (fun s x => mediaSetJobWaitReason s x stopt) s

/-- The loops over the group table call `destid_by_gindex()`, which asserts that the index is in
range. -/
def groupsInRange (s : Pprd) : Except Stop Unit :=
  if s.groupCount ≤ maxGroups then .ok () else .error .gindexOutOfRange

/-- `media_startstop_update_waitreason()`, called when a printer is started or stopt. -/
def mediaStartstopUpdateWaitreason (s : Pprd) (prnid : ℕ) : Except Stop Pprd := do
  groupsInRange s
  .ok <| (List.range s.groupCount).foldl
    (fun s g =>
      if (destidGetMemberOffset s (destidByGindex g) prnid).isSome then
        mediaStartstopUpdateWaitreason2 s (destidByGindex g)
      else s)
    (mediaStartstopUpdateWaitreason2 s prnid)

/-- `media_update_notnow2()`. -/
def mediaUpdateNotnow2 (s : Pprd) (destid : ℕ) (prnbit : BitVec 8) (prnid : ℕ) : Pprd :=
  let stopt := stoptmask s destid
  forJobsOf destid
    (fun s x =>
      let s := s.modifyJob x fun q =>
        { q with notnow :=
            if hasmedia s prnid (s.job x) then q.notnow &&& (255 ^^^ prnbit)
            else q.notnow ||| prnbit }
      mediaSetJobWaitReason s x stopt)
    s

/-- `media_update_notnow()`, called when the bins of a printer or the media on them change. -/
def mediaUpdateNotnow (s : Pprd) (prnid : ℕ) : Except Stop Pprd := do
  groupsInRange s
  .ok <| (List.range s.groupCount).foldl
    (fun s g =>
      let prnbit := destidPrinterBit s (destidByGindex g) prnid
      if prnbit ≠ 0 then mediaUpdateNotnow2 s (destidByGindex g) prnbit prnid else s)
    (mediaUpdateNotnow2 s prnid 1 prnid)

/-- The `notnow` mask of a job, computed from the mounted media. -/
def mediaNotnow (s : Pprd) (job : QEntry) : BitVec 8 :=
  if destidIsGroup s job.destid then
    memberMask (fun p => !hasmedia s p job) (members s job.destid) 0
  else if hasmedia s job.destid job then 0
  else 1

/-- `media_set_notnow_for_job()` for a job in the queue. -/
def mediaSetNotnowForJob (s : Pprd) (x : ℕ) : Pprd :=
  let s := s.modifyJob x fun q => { q with notnow := mediaNotnow s q }
  mediaSetJobWaitReason s x (stoptmask s (s.job x).destid)

/-- `media_set_notnow_for_job()` for a job not in the queue yet. -/
def mediaSetNotnowForNewJob (s : Pprd) (job : QEntry) : QEntry :=
  let job := { job with notnow := mediaNotnow s job }
  if job.status.isWaiting then
    { job with status := waitReason s job (stoptmask s job.destid) }
  else job

/-- What is left of a name of a bin or medium after `ASCIIZ_to_padded()` and
`padded_to_ASCIIZ()`. -/
def padded (name : String) : String :=
  String.ofList (((name.toList.take maxMedianame).reverse.dropWhile (· = ' ')).reverse)

/-- `media_mounted_save()`. -/
def mediaMountedSave (s : Pprd) (prnid : ℕ) : Pprd :=
  let pairs := (s.printers prnid).bins.map fun b => (padded b.name, padded (getMediaName s b.media))
  { s with
    disk.mounted := Function.update s.disk.mounted (destidToName s prnid) (some pairs) }

/-- Mount a medium on the first bin with the given name. -/
def setBin (bins : List Bin) (name : String) (media : ℤ) : List Bin :=
  match bins.findIdx? fun b => b.name = name with
  | none => bins
  | some y => bins.modify y fun b => { b with media := media }

/-- `media_mounted_recover()`: a missing file means nothing mounted. -/
def mediaMountedRecover (s : Pprd) (prnid : ℕ) : Except Stop Pprd :=
  match s.disk.mounted (destidToName s prnid) with
  | none => .ok s
  | some pairs =>
    pairs.foldlM (fun s (abin, amedia) =>
      if ((s.printers prnid).bins.any fun b => b.name = abin) then do
        let (s, m) ← getMediaId s amedia
        .ok (s.modifyPrinter prnid fun p => { p with bins := setBin p.bins abin m })
      else .ok s) s

end Ppr
