import Ppr.Pprd.Question

/-!
# Accepting jobs

`queue_accept_queuefile()` and `get_next_id()`, `write_queue_file()` and `split_job()` of ppr on the
other side of the FIFO.
-/

namespace Ppr

/-! ## The daemon -/

/-- `get_media_id()` for each "Media:" line. -/
def getMediaIds : Pprd → List String → Except Stop (Pprd × List ℤ)
  | s, [] => .ok (s, [])
  | s, m :: ms => do
    let (s, i) ← getMediaId s m
    let (s, is) ← getMediaIds s ms
    .ok (s, i :: is)

/-- The new job goes before this one: higher priority, or equal priority and earlier. -/
def goesBefore (newent q : QEntry) : Bool :=
  newent.priority > q.priority ||
    (newent.priority = q.priority && newent.sequenceNumber < q.sequenceNumber)

/-- The entry made from a queue file. -/
def newEntry (s : Pprd) (destid : ℕ) (name : QName) (f : QFile) (media : List ℤ) : QEntry :=
  mediaSetNotnowForNewJob s
    { destid := destid
      id := name.2.1
      subid := name.2.2
      priority := f.line.priority
      sequenceNumber := f.line.sequenceNumber
      status := .ofCode f.line.status
      flags := f.line.flags
      resendMessageAt := 0
      media := media ++ List.replicate (maxDocmedia - media.length) (-1)
      pass := if destidIsGroup s destid then 1 else 0
      never := 0
      notnow := 0 }

/-- Find or make a space in the queue array for the new entry and count it. -/
def queueInsert (s : Pprd) (newent : QEntry) (jobIsNew : Bool) : Pprd × ℕ :=
  let x := s.queue.findIdx (goesBefore newent)
  let s := { s with
    queueSize := if s.queue.length = s.queueSize then s.queueSize + queueSizeGrowby else s.queueSize
    queue := s.queue.insertIdx x newent }
  (jobCountAdjust s newent.destid 1 jobIsNew, x)

/-- A question about a new entry may have to be asked. -/
def queueQuestion (os : ℕ → Bool) (s : Pprd) (x : ℕ) : Except Stop Pprd :=
  if (s.job x).flags &&& flagQuestionUnanswered ≠ 0 ∧ (s.job x).status ≠ .receiving then
    questionJob os s x
  else .ok s

/-- The end of `queue_accept_queuefile()`: if pprd isn't restarting and the job is ready to print,
try to start a printer. -/
def queueAccepted (os : ℕ → Bool) (s : Pprd) (x : ℕ) (jobIsNew : Bool) : Except Stop Pprd := do
  let s ← queueQuestion os s x
  if jobIsNew ∧ (s.job x).status = .waiting then printerTryStart os s x else .ok s

/-- `queue_accept_queuefile()`: if anything is wrong the files of the job are deleted. -/
def queueAcceptQueuefile (os : ℕ → Bool) (s : Pprd) (name : QName) (jobIsNew reloadJob : Bool) :
    Except Stop Pprd :=
  match destidByName s name.1, s.disk.queue name with
  | some destid, some f =>
    if jobIsNew ∧ destidAccepting s destid = false then .ok (deleteJobFiles s name)
    else do
      let (s, media) ← getMediaIds s (f.media.take maxDocmedia)
      let newent := newEntry s destid name f media
      if reloadJob then
        match s.findJob newent.key with
        | none => .ok (deleteJobFiles s name)
        | some x => queueAccepted os { s with queue := s.queue.set x newent } x jobIsNew
      else if s.queue.length = s.queueSize ∧ queueSizeMax < s.queueSize + queueSizeGrowby then
        .ok (deleteJobFiles s name)
      else
        let (s, x) := queueInsert s newent jobIsNew
        queueAccepted os s x jobIsNew
  | _, _ => .ok (deleteJobFiles s name)

/-- The commands "j" and "J": the next submission in the FIFO. -/
def queueNewJob (os : ℕ → Bool) (s : Pprd) : Except Stop Pprd :=
  match s.fifo with
  | [] => .ok s
  | .new name :: rest => queueAcceptQueuefile os { s with fifo := rest } name true false
  | .reload name :: rest => queueAcceptQueuefile os { s with fifo := rest } name true true

/-! ## The submitting side -/

/-- The id after `tid`; ids run from 1 to 9999. -/
def succId (tid : ℤ) : ℤ := if tid + 1 < 1 ∨ tid + 1 > 9999 then 1 else tid + 1

/-- The loop of `get_next_id()`: skip the ids of jobs whose queue file, that of sub-id 0, exists
for the same destination. -/
def getNextIdLoop (d : Disk) (destname : String) : ℕ → ℤ → Option ℤ
  | 0, _ => none
  | n + 1, tid =>
    if (d.queue (destname, succId tid, 0)).isSome then getNextIdLoop d destname n (succId tid)
    else some (succId tid)

/-- `get_next_id()`: it gives up after 10001 tries. -/
def getNextId (d : Disk) (destname : String) : Option ℤ := getNextIdLoop d destname 10001 d.nextId

/-- The options of a ppr command that reach the daemon.  The priority is between 1 and 100 and the
sequence number is the time. -/
structure PprOptions where
  priority : ℕ
  priority_range : 1 ≤ priority ∧ priority ≤ 100
  time : ℕ
  hold : Bool
  save : Bool
  question : Bool
  media : List String
  deriving DecidableEq, Repr

/-- The queue file ppr writes. -/
def PprOptions.qfile (o : PprOptions) (skeleton : Bool) : QFile :=
  { line :=
      { priority := o.priority
        sequenceNumber := o.time
        status := if skeleton then 10 else if o.hold then 2 else 1
        flags := (if o.save then 1 else 0) ||| (if o.question then flagQuestionUnanswered else 0) }
    media := o.media }

/-- How a ppr process ends. -/
inductive PprEnd where
  /-- One job. -/
  | whole (o : PprOptions)
  /-- `-Y`: fragments with sub-ids from 1 on. -/
  | split (os : List PprOptions)
  /-- `--skeleton-create`. -/
  | skeleton (o : PprOptions)
  /-- An error; `created` says whether files had been created. -/
  | abort (created : Bool)
  deriving Repr

/-- `file_cleanup()`: the files of sub-id 0 are removed. -/
def fileCleanup (s : Pprd) (p : PprProc) : Pprd :=
  if p.skeletonJobid then s else deleteJobFiles s (p.dest, p.id, 0)

/-- `write_queue_file()` for a file that is not there yet. -/
def writeQueueFile (s : Pprd) (name : QName) (f : QFile) : Pprd :=
  { s with disk.queue := Function.update s.disk.queue name (some f) }

/-- `submit_job()`. -/
def submitJob (s : Pprd) (p : PprProc) (subid : ℤ) : Pprd :=
  let name := (p.dest, p.id, subid)
  { s with fifo := s.fifo ++ [if p.skeletonJobid then .reload name else .new name] }

/-- Write a queue file for each fragment, the next one having the given sub-id. -/
def writeFragments (p : PprProc) : Pprd → ℤ → List PprOptions → Pprd
  | s, _, [] => s
  | s, subid, o :: os =>
    writeFragments p (writeQueueFile s (p.dest, p.id, subid) (o.qfile false)) (subid + 1) os

/-- Submit each of `n` fragments. -/
def submitFragments (p : PprProc) : Pprd → ℤ → ℕ → Pprd
  | s, _, 0 => s
  | s, subid, n + 1 => submitFragments p (submitJob s p subid) (subid + 1) n

/-- A fragment of another job has one of the sub-ids: the data files of the new fragments cannot be
linked, and `split_job()` fails before it has written a queue file. -/
def fragmentExists (s : Pprd) (p : PprProc) (n : ℕ) : Bool :=
  (List.range n).any fun i => (s.disk.queue (p.dest, p.id, (i : ℤ) + 1)).isSome

/-- ppr writes its queue file or files and submits the job.  The file of a new job must not exist
yet; that of a skeleton is overwritten. -/
def pprEnd (s : Pprd) (p : PprProc) : PprEnd → Pprd
  | .whole o =>
    if p.skeletonJobid = false ∧ (s.disk.queue (p.dest, p.id, 0)).isSome then fileCleanup s p
    else submitJob (writeQueueFile s (p.dest, p.id, 0) (o.qfile false)) p 0
  | .split os =>
    if fragmentExists s p os.length then fileCleanup s p
    else submitFragments p (fileCleanup (writeFragments p s 1 os) p) 1 os.length
  | .skeleton o =>
    if (s.disk.queue (p.dest, p.id, 0)).isSome then s
    else submitJob (writeQueueFile s (p.dest, p.id, 0) (o.qfile true)) p 0
  | .abort created => if created then fileCleanup s p else s

/-- A ppr process gets its job id. -/
def pprStart (s : Pprd) (destname : String) : Pprd :=
  match getNextId s.disk destname with
  | none => s
  | some tid =>
    { s with
      disk.nextId := tid
      pprs := { dest := destname, id := tid, skeletonJobid := false } :: s.pprs }

/-- A ppr process takes up the skeleton of a job; it reads the command line kept with it. -/
def pprTakeSkeleton (s : Pprd) (destname : String) (id : ℤ) : Pprd :=
  if (s.disk.queue (destname, id, 0)).isSome then
    { s with pprs := { dest := destname, id := id, skeletonJobid := true } :: s.pprs }
  else s

/-- The ppr process number `i` ends. -/
def pprFinish (s : Pprd) (i : ℕ) (e : PprEnd) : Pprd :=
  match s.pprs[i]? with
  | none => s
  | some p => pprEnd { s with pprs := s.pprs.eraseIdx i } p e

end Ppr
