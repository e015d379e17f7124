import Ppr.Lib.Outcome

/-!
# The tables of pprd

The data of `pprd.h` and `global_structs.h`: the queue array, the printer and group tables, the
counters, and the files that pprd reads and writes (queue files, spool states, mounted media).
Destination ids are table indexes, a group's being its index plus `maxPrinters`.

Left out are the fields that no function modelled here reads: alert settings, charges, the
`protected` flag and the time of the last state change.
-/

namespace Ppr

/-- No more than 250 printers. -/
def maxPrinters : ℕ := 250

/-- Bins of one printer. -/
def maxBins : ℕ := 10

def maxGroups : ℕ := 150

/-- Members of one group. -/
def maxGroupsize : ℕ := 8

/-- Media types of one job. -/
def maxDocmedia : ℕ := 4

/-- Entries of the media name table. -/
def maxMedia : ℕ := 20

/-- Characters in the name of a bin or of a medium. -/
def maxMedianame : ℕ := 16

/-- Simultaneously active printers. -/
def maxActive : ℤ := 15

/-- Seconds between calls of `tick`. -/
def tickInterval : ℤ := 5

/-- Extra seconds for each retry after a fault. -/
def retryMultiplier : ℤ := 30

/-- A faulted printer is retried at least this often. -/
def minRetry : ℤ := 600

/-- Seconds before an engaged printer is retried. -/
def engagedRetry : ℤ := 60

def starvingRetryInterval : ℤ := 5

def queueSizeInitial : ℕ := 200

def queueSizeGrowby : ℕ := 50

def queueSizeMax : ℕ := 10000

/-- Slots for question processes. -/
def maxActiveQuestions : ℕ := 10

def maxLaunchesPerTick : ℕ := 3

/-- `PRNSTATUS_*`. -/
inductive PrnStatus where
  | idle | printing | canceling | seizing | fault | engaged | starved | stopt | stopping | halting
  | deleted
  deriving DecidableEq, Repr, Inhabited

/-- `status >= PRNSTATUS_DELIBERATELY_DOWN`. -/
def PrnStatus.down : PrnStatus → Bool
  | .stopt | .stopping | .halting | .deleted => true
  | _ => false

/-- `STATUS_*`: a status that is not negative is the printer at work on the job.  `other` is a
number that only a damaged queue file could contain. -/
inductive JobStatus where
  | printing (prnid : ℕ)
  | waiting | held | waiting4media | arrested | cancel | seizing | stranded | finished | funds
  | receiving
  | other (code : ℕ)
  deriving DecidableEq, Repr, Inhabited

/-- The number `queue_write_status_and_flags()` writes: 0 for a printing job, else the status with
its sign changed. -/
def JobStatus.code : JobStatus → ℕ
  | .printing _ => 0
  | .waiting => 1
  | .held => 2
  | .waiting4media => 3
  | .arrested => 4
  | .cancel => 5
  | .seizing => 6
  | .stranded => 7
  | .finished => 8
  | .funds => 9
  | .receiving => 10
  | .other n => n

/-- The status `queue_accept_queuefile()` reads back; a job that was printing is waiting again. -/
def JobStatus.ofCode : ℕ → JobStatus
  | 0 | 1 => .waiting
  | 2 => .held
  | 3 => .waiting4media
  | 4 => .arrested
  | 5 => .cancel
  | 6 => .seizing
  | 7 => .stranded
  | 8 => .finished
  | 9 => .funds
  | 10 => .receiving
  | n => .other n

/-- The job is waiting for a printer or for media. -/
def JobStatus.isWaiting : JobStatus → Bool
  | .waiting | .waiting4media => true
  | _ => false

/-- The job is printing. -/
def JobStatus.isPrinting : JobStatus → Bool
  | .printing _ => true
  | _ => false

/-- A pprdrv may be at work on the job: it is printing, being canceled or being seized. -/
def JobStatus.onPrinter : JobStatus → Bool
  | .printing _ | .cancel | .seizing => true
  | _ => false

/-- `JOB_FLAG_QUESTION_UNANSWERED`. -/
def flagQuestionUnanswered : BitVec 16 := 8

/-- `JOB_FLAG_QUESTION_ASKING_NOW`. -/
def flagQuestionAskingNow : BitVec 16 := 16

/-- The key of a queue entry: destination id, job id and sub-id. -/
abbrev JobKey := ℕ × ℤ × ℤ

/-- `struct QEntry`. -/
structure QEntry where
  destid : ℕ
  id : ℤ
  subid : ℤ
  priority : ℕ
  sequenceNumber : ℕ
  status : JobStatus
  flags : BitVec 16
  resendMessageAt : ℤ
  /-- Media ids, filled up with -1. -/
  media : List ℤ
  pass : ℕ
  /-- Members that have found themselves incapable. -/
  never : BitVec 8
  /-- Members without the required media. -/
  notnow : BitVec 8
  deriving DecidableEq, Repr, Inhabited

def QEntry.key (q : QEntry) : JobKey := (q.destid, q.id, q.subid)

/-- `struct PRINTER_SPOOL_STATE`. -/
structure PrinterSpoolState where
  accepting : Bool
  previousStatus : PrnStatus
  status : PrnStatus
  nextErrorRetry : ℤ
  nextEngagedRetry : ℤ
  countdown : ℤ
  jobCount : ℤ
  deriving DecidableEq, Repr, Inhabited

/-- One bin and the id of the medium mounted on it, -1 for none. -/
structure Bin where
  name : String
  media : ℤ
  deriving DecidableEq, Repr, Inhabited

/-- `struct Printer`. -/
structure Printer where
  name : String
  spoolState : PrinterSpoolState
  bins : List Bin
  autoSelectExists : Bool
  /-- Cancel the job at pprdrv exit. -/
  cancelJob : Bool
  /-- Hold the job at pprdrv exit. -/
  holdJob : Bool
  jobPid : ℤ
  jobDestid : ℕ
  jobId : ℤ
  jobSubid : ℤ
  /-- The ppop to inform when the printer has stopt. -/
  ppopPid : ℤ
  deriving DecidableEq, Repr, Inhabited

/-- The key of the job the printer is at work on, or was last. -/
def Printer.jobKey (p : Printer) : JobKey := (p.jobDestid, p.jobId, p.jobSubid)

def Printer.status (p : Printer) : PrnStatus := p.spoolState.status

/-- `struct GROUP_SPOOL_STATE`. -/
structure GroupSpoolState where
  accepting : Bool
  held : Bool
  jobCount : ℤ
  deriving DecidableEq, Repr, Inhabited

/-- `struct Group`. -/
structure Group where
  name : String
  spoolState : GroupSpoolState
  /-- Printer ids of the members. -/
  printers : List ℕ
  /-- Offset of the member last used, -1 at first. -/
  last : ℤ
  rotate : Bool
  deleted : Bool
  deriving DecidableEq, Repr, Inhabited

/-- The "PPRD:" line at the start of a queue file. -/
structure PprdLine where
  priority : ℕ
  sequenceNumber : ℕ
  status : ℕ
  flags : BitVec 16
  deriving DecidableEq, Repr, Inhabited

/-- What pprd reads in a queue file: the "PPRD:" line and the "Media:" lines. -/
structure QFile where
  line : PprdLine
  media : List String
  deriving DecidableEq, Repr, Inhabited

/-- A queue file name "dest-id.subid". -/
abbrev QName := String × ℤ × ℤ

/-- The spool directories. -/
structure Disk where
  queue : QName → Option QFile
  printerState : String → Option PrinterSpoolState
  groupState : String → Option GroupSpoolState
  /-- Bin and medium names, as in the file "mounted". -/
  mounted : String → Option (List (String × String))
  /-- The last job id given out. -/
  nextId : ℤ

/-- A slot of `active_question[]`; pid 0 marks a free one. -/
structure ActiveQuestion where
  pid : ℤ
  destid : ℕ
  id : ℤ
  subid : ℤ
  deriving DecidableEq, Repr, Inhabited

/-- The state of `pprd_question.c`. -/
structure Questions where
  slots : List ActiveQuestion
  active : ℕ
  launchesThisTick : ℕ
  outstanding : ℕ

/-- A pprdrv process started: what the tables held at that moment. -/
structure Launch where
  prnid : ℕ
  printer : Printer
  job : QEntry
  group : Option Group

/-- A job submission on its way from ppr to pprd. -/
inductive Submission where
  /-- The command "j": a new job. -/
  | new (name : QName)
  /-- The command "J": a job made from its skeleton. -/
  | reload (name : QName)
  deriving DecidableEq, Repr

/-- A ppr process that has its job id and has not submitted its job yet. -/
structure PprProc where
  dest : String
  id : ℤ
  /-- The id was given with `--skeleton-jobid`. -/
  skeletonJobid : Bool
  deriving DecidableEq, Repr

/-- The state of the daemon with the directories it works on and the processes that submit
jobs. -/
structure Pprd where
  queue : List QEntry
  queueSize : ℕ
  printers : ℕ → Printer
  printerCount : ℕ
  groups : ℕ → Group
  groupCount : ℕ
  activePrinters : ℤ
  starvingPrinters : ℤ
  /-- Seconds till the next mercy for starving printers. -/
  hungryCountdown : ℤ
  /-- Where the search for starving printers left off. -/
  hungryX : ℕ
  /-- Media names; an id is an index. -/
  media : List String
  questions : Questions
  disk : Disk
  /-- Submissions in the FIFO. -/
  fifo : List Submission
  pprs : List PprProc
  /-- Calls of `fork()` so far. -/
  forks : ℕ
  /-- The pprdrv processes started so far, the last one first. -/
  launches : List Launch

/-- Why the daemon stops. -/
inductive Stop where
  /-- `queue_job_new_status()`: not found in queue. -/
  | jobNotFound
  /-- `pprdrv_exited()`: job missing from array. -/
  | jobMissing
  /-- `printer_start()` and `printer_try_start_suitable_4_this_job()`: job not waiting. -/
  | jobNotWaiting
  /-- `printer_look_for_work()`, `pprdrv_start()`: printer not idle. -/
  | printerNotIdle
  /-- `get_media_id()`: media array overflow. -/
  | mediaOverflow
  /-- `destid_by_gindex()`: group index out of range. -/
  | gindexOutOfRange
  /-- `load_group()`: invalid Rotate option. -/
  | invalidRotate
  /-- `question_launch()`: no free slot. -/
  | noQuestionSlot
  /-- `question_child_hook()`: ASKING_NOW not set. -/
  | notAsking
  /-- The name of a deleted printer or group, which is a null pointer, was used. -/
  | nullName
  /-- A table was indexed outside its bounds; what happens then is undefined. -/
  | wildIndex
  deriving DecidableEq, Repr

/-- Entry `x` of the queue array. -/
def Pprd.job (s : Pprd) (x : ℕ) : QEntry := s.queue.getD x default

def Pprd.prnStatus (s : Pprd) (p : ℕ) : PrnStatus := (s.printers p).status

/-- Assign to entry `x`. -/
def Pprd.modifyJob (s : Pprd) (x : ℕ) (f : QEntry → QEntry) : Pprd :=
  { s with queue := s.queue.modify x f }

/-- Assign to printer `p`. -/
def Pprd.modifyPrinter (s : Pprd) (p : ℕ) (f : Printer → Printer) : Pprd :=
  { s with printers := Function.update s.printers p (f (s.printers p)) }

/-- Assign to group `g`. -/
def Pprd.modifyGroup (s : Pprd) (g : ℕ) (f : Group → Group) : Pprd :=
  { s with groups := Function.update s.groups g (f (s.groups g)) }

/-- The first entry with the given key. -/
def Pprd.findJob (s : Pprd) (k : JobKey) : Option ℕ := s.queue.findIdx? fun q => q.key = k

end Ppr
