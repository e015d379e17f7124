import Ppr.Pprd.Ipp

/-!
# Loading the configuration and the queue

`pprd_load.c`.  Of a configuration file the lines that matter are kept: the bins of a printer, the
members and the "Rotate:" line of a group.  No file means that the printer or group is being
deleted.
-/

namespace Ppr

/-- A printer's configuration file. -/
structure PrinterConf where
  bins : List String
  deriving DecidableEq, Repr

/-- A group's configuration file; `rotate` is the last "Rotate:" line, or `some none` if one of
them is invalid. -/
structure GroupConf where
  printers : List String
  rotate : Option (Option Bool)
  deriving DecidableEq, Repr

/-- The state of a printer that has none saved. -/
def newPrinterSpoolState : PrinterSpoolState :=
  { accepting := true, previousStatus := .idle, status := .idle, nextErrorRetry := 0,
    nextEngagedRetry := 0, countdown := 0, jobCount := 0 }

/-- The state of a group that has none saved. -/
def newGroupSpoolState : GroupSpoolState := { accepting := true, held := false, jobCount := 0 }

/-- State transitions brought about by killing pprd. -/
def recoverStatus (s : Pprd) (prnid : ℕ) : Pprd :=
  match s.prnStatus prnid with
  | .printing | .canceling | .seizing => printerNewStatus s prnid .idle
  | .halting => printerNewStatus s prnid .stopt
  | _ => s

/-- `load_printer()`.  What pprdrv is doing for the printer is left as it is. -/
def loadPrinter (s : Pprd) (prnid : ℕ) (prnname : String) (conf : PrinterConf) : Pprd :=
  let saved := (s.disk.printerState prnname).getD newPrinterSpoolState
  let s := s.modifyPrinter prnid fun p =>
    { p with
      name := prnname
      ppopPid := 0
      cancelJob := false
      holdJob := false
      spoolState := { saved with jobCount := 0 } }
  let bins := conf.bins.take maxBins
  (recoverStatus s prnid).modifyPrinter prnid fun p =>
    { p with
      bins := bins.map fun b => { name := b, media := -1 }
      autoSelectExists := bins.any fun b => b = "AutoSelect" }

/-- `load_printers()` for one file. -/
def loadPrinters1 (s : Pprd) (prnname : String) (conf : PrinterConf) : Except Stop Pprd :=
  if s.printerCount = maxPrinters then .ok s
  else do
    let x := s.printerCount
    let s := { loadPrinter s x prnname conf with printerCount := x + 1 }
    let s ← mediaMountedRecover s x
    .ok (mediaMountedSave s x)

/-- Since its configuration is new, a printer may be able to print jobs it couldn't have printed
before. -/
def clearNever (s : Pprd) (prnid x : ℕ) : Pprd :=
  let prnbit := if (s.job x).destid = prnid then 1 else destidPrinterBit s (s.job x).destid prnid
  if prnbit ≠ 0 then
    let s := s.modifyJob x fun q => { q with never := q.never &&& (255 ^^^ prnbit) }
    if (s.job x).status = .stranded then queuePJobNewStatus s x .waiting else s
  else s

/-- Load a printer's configuration once more; its status and the waiting ppop are kept. -/
def reloadPrinter (os : ℕ → Bool) (s : Pprd) (prnid : ℕ) (prnname : String) (conf : PrinterConf) :
    Except Stop Pprd := do
  let savedStatus := s.prnStatus prnid
  let savedPpopPid := (s.printers prnid).ppopPid
  let s ← mediaMountedRecover (loadPrinter s prnid prnname conf) prnid
  let s := (mediaMountedSave s prnid).modifyPrinter prnid fun p =>
    { p with spoolState.status := savedStatus, ppopPid := savedPpopPid }
  let s := (List.range s.queue.length).foldl (fun s x => clearNever s prnid x) s
  let s ← mediaUpdateNotnow s prnid
  lookForWorkIfIdle os s prnid

/-- `new_printer_config()`. -/
def newPrinterConfig (os : ℕ → Bool) (s : Pprd) (prnname : String) (conf : Option PrinterConf) :
    Except Stop Pprd :=
  match destidByPrinter s prnname with
  | some prnid =>
    match conf with
    | none => .ok (s.modifyPrinter prnid fun p => { p with spoolState.status := .deleted })
    | some conf => reloadPrinter os s prnid prnname conf
  | none =>
    -- A new printer takes the first deleted slot, if there is one.
    let prnid := ((List.range s.printerCount).find? fun x =>
      s.prnStatus x = .deleted).getD s.printerCount
    if prnid = maxPrinters then .ok s
    else
      let s := if prnid = s.printerCount then { s with printerCount := prnid + 1 } else s
      match conf with
      | none => .ok s
      | some conf => do
        let s ← mediaMountedRecover (loadPrinter s prnid prnname conf) prnid
        .ok (mediaMountedSave s prnid)

/-- `load_group()`: a member that does not exist is left out. -/
def loadGroup (s : Pprd) (gindex : ℕ) (grpname : String) (conf : GroupConf) : Except Stop Pprd :=
  let saved := (s.disk.groupState grpname).getD newGroupSpoolState
  match conf.rotate.getD (some true) with
  | none => .error .invalidRotate
  | some rotate =>
    .ok (s.modifyGroup gindex fun _ =>
      { name := grpname
        spoolState := { saved with jobCount := 0 }
        printers := (conf.printers.filterMap (destidByPrinter s)).take maxGroupsize
        last := -1
        rotate := rotate
        deleted := false })

/-- `load_groups()` for one file. -/
def loadGroups1 (s : Pprd) (grpname : String) (conf : GroupConf) : Except Stop Pprd :=
  if s.groupCount = maxGroups then .ok s
  else do
    let s ← loadGroup s s.groupCount grpname conf
    .ok { s with groupCount := s.groupCount + 1 }

/-- Reset what an entry records about the members of its group. -/
def resetGroupJob (s : Pprd) (x : ℕ) : Pprd :=
  (mediaSetNotnowForJob s x).modifyJob x fun q => { q with never := 0 }

/-- `new_group_config()`.  After the loop over the queue the variable that held the group index
holds the number of queue entries, and that is the group that looks for work. -/
def newGroupConfig (os : ℕ → Bool) (s : Pprd) (grpname : String) (conf : Option GroupConf) :
    Except Stop Pprd :=
  let found := (List.range s.groupCount).find? fun x =>
    (s.groups x).deleted = false ∧ (s.groups x).name = grpname
  let slot := (List.range s.groupCount).find? fun x => (s.groups x).deleted
  let x := (found.or slot).getD s.groupCount
  let s := if x = s.groupCount then { s with groupCount := x + 1 } else s
  if x = maxGroups then .ok s
  else if x > maxGroups then .error .wildIndex
  else match conf with
    | none =>
      if found.isSome then .ok (s.modifyGroup x fun c => { c with deleted := true }) else .ok s
    | some conf => do
      let s ← loadGroup s x grpname conf
      let s := forJobsOf (destidByGindex x) resetGroupJob s
      groupLookForWork os s s.queue.length

/-! ## Starting the daemon -/

/-- What the daemon finds when it starts: the memory its printer table is put in, the configuration
files and the queue files in the order of their directories, and the spool directories. -/
structure Boot where
  mem : ℕ → Printer
  printers : List (String × PrinterConf)
  groups : List (String × GroupConf)
  queue : List QName
  disk : Disk

/-- The tables before anything has been loaded. -/
def Boot.empty (b : Boot) : Pprd :=
  { queue := []
    queueSize := queueSizeInitial
    printers := b.mem
    printerCount := 0
    groups := fun _ =>
      { name := "", spoolState := { accepting := false, held := false, jobCount := 0 },
        printers := [], last := 0, rotate := false, deleted := false }
    groupCount := 0
    activePrinters := 0
    starvingPrinters := 0
    hungryCountdown := 0
    hungryX := 0
    media := []
    questions :=
      { slots := List.replicate maxActiveQuestions { pid := 0, destid := 0, id := 0, subid := 0 }
        active := 0
        launchesThisTick := 0
        outstanding := 0 }
    disk := b.disk
    fifo := []
    pprs := []
    forks := 0
    launches := [] }

/-- `load_printers()` and `load_groups()`. -/
def loadTables (b : Boot) : Except Stop Pprd := do
  let s ← b.printers.foldlM (fun s f => loadPrinters1 s f.1 f.2) b.empty
  b.groups.foldlM (fun s f => loadGroups1 s f.1 f.2) s

/-- The loop of `initialize_queue()` over the queue directory. -/
def inheritQueue (os : ℕ → Bool) (s : Pprd) (names : List QName) : Except Stop Pprd :=
  names.foldlM (fun s name => queueAcceptQueuefile os s name false false) s

/-- `initialize_queue()`. -/
def initializeQueue (os : ℕ → Bool) (s : Pprd) (names : List QName) : Except Stop Pprd := do
  let s ← inheritQueue os s names
  -- Flush out the job counts.
  let s := (List.range s.printerCount).foldl printerSpoolStateSave s
  let s := (List.range s.groupCount).foldl groupSpoolStateSave s
  -- Give each idle printer a chance to start.
  (List.range s.printerCount).foldlM (lookForWorkIfIdle os) s

/-- The start of the daemon. -/
def boot (os : ℕ → Bool) (b : Boot) : Except Stop Pprd := do
  let s ← loadTables b
  initializeQueue os s b.queue

end Ppr
