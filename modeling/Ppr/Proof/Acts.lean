import Ppr.Proof.Frame

/-!
# What an event can do

An `Act` is one of the things that matter for who prints what: a job is started or comes back, a
command cancels or holds it, a job is accepted or moved, a printer or group is loaded or deleted.
`Change a s t` says when an act is done and what it does to the queue, the printers, the groups, the
counters and the files, up to a frame step.  What an event does is a path of acts.
-/

namespace Ppr

/-- The acts. -/
inductive Act where
  /-- Nothing that matters. -/
  | frame
  /-- The submitting side writes files or uses the FIFO, or a submission is refused. -/
  | ppr
  /-- Printer `p` starts the job of entry `x`, found again at `y`. -/
  | start (p x y : ℕ) (pid : ℤ)
  | starve (p : ℕ)
  /-- A starving printer is fed. -/
  | feed (p : ℕ)
  | status (p : ℕ) (st : PrnStatus)
  /-- Entry `x`, which printer `p` prints, is canceled. -/
  | cancel (x p : ℕ)
  /-- Entry `x`, which is being held, is canceled on printer `p`. -/
  | cancelSeizing (x p : ℕ)
  /-- A command removes entry `x`, which is not on a printer, found again at `y`. -/
  | purge (x y : ℕ)
  /-- Entry `x`, which printer `p` prints, is held. -/
  | seize (x p : ℕ)
  /-- The pprdrv of printer `p` ends and entry `y` is removed. -/
  | exitRemove (p : ℕ) (e : ExitCode) (y : ℕ)
  /-- The pprdrv of printer `p` ends and there is no entry to remove. -/
  | exitMiss (p : ℕ) (e : ExitCode)
  /-- The pprdrv of printer `p` ends and entry `y` gets a new status. -/
  | exitKeep (p : ℕ) (e : ExitCode) (y : ℕ) (st : JobStatus)
  | insert (x : ℕ) (q : QEntry)
  | replace (x : ℕ) (q : QEntry)
  | rush (x : ℕ) (newpos : ℤ)
  | move (x newDestid : ℕ) (newDestname : String)
  /-- Slot `p` is taken for a new printer. -/
  | newPrinter (p : ℕ) (c : PrinterCore)
  | reload (p : ℕ) (bins : List Bin) (auto : Bool)
  | mount (p : ℕ) (bins : List Bin)
  | deletePrinter (p : ℕ)
  /-- Slot `g` is taken for a new group. -/
  | newGroup (g : ℕ) (c : GroupCore)
  /-- Group `g` is loaded again, held, released or deleted. -/
  | group (g : ℕ) (c : GroupCore)

/-- A printer of the table or a member of a group. -/
def knownPrinter (s : Pprd) (p : ℕ) : Prop :=
  p < s.printerCount ∨ ∃ g, p ∈ (s.groups g).printers

/-- The status a printer has after its saved status has been loaded. -/
def recovered : PrnStatus → PrnStatus
  | .printing | .canceling | .seizing => .idle
  | .halting => .stopt
  | st => st

namespace Act

/-- What an act does to the queue array. -/
def queue : Act → List QEntry → List QEntry
  | .start p _ y _, l => l.modify y fun q => { q with status := .printing p }
  | .cancel x _, l | .cancelSeizing x _, l => l.modify x fun q => { q with status := .cancel }
  | .purge _ y, l => l.eraseIdx y
  | .seize x _, l => l.modify x fun q => { q with status := .seizing }
  | .exitRemove _ _ y, l => l.eraseIdx y
  | .exitKeep _ _ y st, l => l.modify y fun q => { q with status := st }
  | .insert x q, l => l.insertIdx x q
  | .replace x q, l => l.set x q
  | .rush x newpos, l =>
    if newpos = 0 then { l.getD x default with priority := 101 } :: l.eraseIdx x
    else l.eraseIdx x ++ [{ l.getD x default with priority := 1 }]
  | .move x d _, l => l.modify x fun q => { q with destid := d }
  | _, l => l

/-- What an act does to the printer it is about. -/
def core (k : JobKey) : Act → PrinterCore → PrinterCore
  | .start _ _ _ pid, c => { c with status := .printing, jobPid := pid, jobKey := k }
  | .starve _, c => { c with status := .starved }
  | .feed _, c => { c with status := .idle }
  | .status _ st, c => { c with status := st }
  | .cancel _ _, c =>
    { c with status := if c.status = .printing then .canceling else c.status, cancelJob := true }
  | .cancelSeizing _ _, c =>
    { c with
      status := if c.status = .seizing then .canceling else c.status
      cancelJob := true
      holdJob := false }
  | .seize _ _, c =>
    { c with
      status := if c.status = .deleted then .deleted else .seizing
      holdJob := true }
  | .exitRemove _ _ _, c | .exitMiss _ _, c | .exitKeep _ _ _ _, c =>
    { c with jobPid := 0, cancelJob := false, holdJob := false }
  | .newPrinter _ c', _ => c'
  | .reload _ bins auto, c =>
    { c with bins := bins, autoSelectExists := auto, cancelJob := false, holdJob := false }
  | .mount _ bins, c => { c with bins := bins }
  | .deletePrinter _, c => { c with status := .deleted }
  | _, c => c

/-- The printer an act is about. -/
def printer? : Act → Option ℕ
  | .start p .. | .starve p | .feed p | .status p _ | .cancel _ p | .cancelSeizing _ p
  | .seize _ p | .exitRemove p _ _ | .exitMiss p _ | .exitKeep p _ _ _ | .newPrinter p _
  | .reload p _ _ | .mount p _ | .deletePrinter p => some p
  | _ => none

/-- What an act adds to `active_printers`. -/
def active : Act → ℤ
  | .start .. => 1
  | .exitRemove .. | .exitMiss .. | .exitKeep .. => -1
  | _ => 0

/-- What an act adds to `starving_printers`. -/
def starving : Act → ℤ
  | .starve _ => 1
  | .feed _ => -1
  | .exitRemove _ e _ | .exitMiss _ e | .exitKeep _ e _ _ => if e = .starved then 1 else 0
  | _ => 0

/-- The queue files after an act. -/
def files (s : Pprd) : Act → (QName → Bool) → QName → Bool
  | .purge _ y, f | .exitRemove _ _ y, f => Function.update f (queueFileName s (s.job y)) false
  | .move x d n, f =>
    if (s.job x).destid = d then f
    else
      let old := queueFileName s (s.job x)
      if f old then Function.update (Function.update f old false) (n, old.2) true else f
  | _, f => f

/-- When an act is done. -/
def ok (s : Pprd) : Act → Prop
  | .start p x y pid =>
    x < s.queue.length ∧ (s.job x).status = .waiting ∧ s.findJob (s.job x).key = some y ∧
      s.prnStatus p = .idle ∧ s.activePrinters ≠ maxActive ∧ pid ≠ 0 ∧ knownPrinter s p
  | .starve p => s.prnStatus p = .idle ∧ knownPrinter s p
  | .feed p => s.prnStatus p = .starved ∧ p < s.printerCount
  | .status p st => s.prnStatus p ≠ .deleted ∧ st ≠ .deleted ∧ p < s.printerCount
  | .cancel x p | .seize x p => x < s.queue.length ∧ (s.job x).status = .printing p
  | .cancelSeizing x p =>
    x < s.queue.length ∧ (s.job x).status = .seizing ∧
      (List.range s.printerCount).find? (fun p => (s.printers p).jobKey = (s.job x).key) = some p
  | .purge x y =>
    x < s.queue.length ∧ (s.job x).status.onPrinter = false ∧
      s.findJob (s.job x).key = some y ∧ destidLive s (s.job x).destid
  | .exitRemove p e y =>
    p < s.printerCount ∧ (s.printers p).jobPid ≠ 0 ∧
      (e = .printed ∨ (s.printers p).cancelJob) ∧ s.findJob (s.printers p).jobKey = some y ∧
      destidLive s (s.printers p).jobKey.1
  | .exitMiss p e =>
    p < s.printerCount ∧ (s.printers p).jobPid ≠ 0 ∧
      (e = .printed ∨ (s.printers p).cancelJob) ∧ s.findJob (s.printers p).jobKey = none
  | .exitKeep p e y st =>
    p < s.printerCount ∧ (s.printers p).jobPid ≠ 0 ∧ e ≠ .printed ∧
      (s.printers p).cancelJob = false ∧ s.findJob (s.printers p).jobKey = some y ∧
      st.onPrinter = false ∧ ((s.printers p).holdJob → st = .held)
  | .insert x q =>
    x = s.queue.findIdx (goesBefore q) ∧ q.status.isPrinting = false
  | .replace x q =>
    x < s.queue.length ∧ q.key = (s.job x).key ∧ q.status.isPrinting = false
  | .rush x _ => x < s.queue.length
  | .move x _ _ => x < s.queue.length ∧ (s.job x).status.isPrinting = false
  | .newPrinter p c =>
    (p = s.printerCount ∨ p < s.printerCount ∧ s.prnStatus p = .deleted) ∧ p ≠ maxPrinters ∧
      c.jobPid = (s.printers p).jobPid ∧ c.jobKey = (s.printers p).jobKey ∧
      (c = (s.printers p).core ∨ c.cancelJob = false ∧ c.holdJob = false ∧
        c.status = recovered ((s.disk.printerState c.name).getD newPrinterSpoolState).status)
  | .reload p _ _ | .deletePrinter p => p < s.printerCount ∧ s.prnStatus p ≠ .deleted
  | .mount p bins =>
    p < s.printerCount ∧ bins.map Bin.name = (s.printers p).bins.map Bin.name
  | .newGroup g c =>
    (g = s.groupCount ∨ g < s.groupCount ∧ (s.groups g).deleted) ∧ g ≤ maxGroups ∧
      ∀ m ∈ c.printers, m < s.printerCount ∨ m ∈ (s.groups g).printers
  | .group g c =>
    g < s.groupCount ∧ (∀ m ∈ c.printers, m < s.printerCount ∨ m ∈ (s.groups g).printers) ∧
      c.name = (s.groups g).name ∧ ((s.groups g).deleted → c.deleted)
  | .frame | .ppr => True

/-- The number of printers after an act. -/
def printerCount (s : Pprd) : Act → ℕ
  | .newPrinter p _ => max s.printerCount (p + 1)
  | _ => s.printerCount

/-- The number of groups after an act. -/
def groupCount (s : Pprd) : Act → ℕ
  | .newGroup g _ => max s.groupCount (g + 1)
  | _ => s.groupCount

/-- The group an act is about, with its new contents. -/
def group? : Act → Option (ℕ × GroupCore)
  | .newGroup g c | .group g c => some (g, c)
  | _ => none

end Act

/-- The key of the job an act starts. -/
def Act.key (s : Pprd) : Act → JobKey
  | .start _ x _ _ => (s.job x).key
  | _ => default

/-- Act `a` is done in state `s` and leads to `t`. -/
structure Change (a : Act) (s t : Pprd) : Prop where
  ok : a.ok s
  queue : ∃ l, QueueFrame s.queue l ∧ t.queue = a.queue l
  printer : ∀ p, (t.printers p).core =
    if a.printer? = some p then a.core (a.key s) (s.printers p).core else (s.printers p).core
  printerCount : t.printerCount = a.printerCount s
  group : ∀ g, (t.groups g).core =
    match a.group? with
    | some (g', c) => if g' = g then c else (s.groups g).core
    | none => (s.groups g).core
  groupCount : t.groupCount = a.groupCount s
  active : t.activePrinters = s.activePrinters + a.active
  starving : t.starvingPrinters = s.starvingPrinters + a.starving
  files : a ≠ .ppr → ∀ n, (t.disk.queue n).isSome = a.files s (fun n => (s.disk.queue n).isSome) n
  fifo : a ≠ .ppr → t.fifo = s.fifo
  pprs : a ≠ .ppr → t.pprs = s.pprs

theorem Change.core_of {a : Act} {s t : Pprd} (h : Change a s t) {p : ℕ}
    (hp : a.printer? = some p) : (t.printers p).core = a.core (a.key s) (s.printers p).core := by
  rw [h.printer p, if_pos hp]

theorem Change.core_ne {a : Act} {s t : Pprd} (h : Change a s t) {p : ℕ}
    (hp : a.printer? ≠ some p) : (t.printers p).core = (s.printers p).core := by
  rw [h.printer p, if_neg hp]

/-- What an event does: a path of acts, each permitted by `K`. -/
abbrev Acts (K : Act → Pprd → Prop) : Pprd → Pprd → Prop := Machine.Trail Change K

end Ppr
