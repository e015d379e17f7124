import Ppr.Lib.Machine
import Ppr.Pprd.Load

/-!
# Events and runs

The main loop of `pprd.c` handles one thing at a time: a command from the FIFO, a request of the IPP
server, the death of a child or the timer.  Meanwhile ppr processes get job ids, write queue files
and put submissions into the FIFO.  `step` is one such event, and a run starts with what the daemon
finds and goes on event by event.
-/

namespace Ppr

/-- What can happen. -/
inductive Event where
  /-- A ppr process gets an id for a new job. -/
  | pprStart (destname : String)
  /-- A ppr process takes up a skeleton. -/
  | pprTakeSkeleton (destname : String) (id : ℤ)
  /-- The ppr process number `i` ends. -/
  | pprFinish (i : ℕ) (e : PprEnd)
  /-- The next submission is read from the FIFO. -/
  | queueNewJob
  | newPrinterConfig (prnname : String) (conf : Option PrinterConf)
  | newGroupConfig (grpname : String) (conf : Option GroupConf)
  | ppop (c : PpopCommand)
  | ipp (c : IppCommand)
  /-- A child has died. -/
  | reapchild (now : ℤ) (pid : ℤ) (w : WaitStatus)
  | tick (now : ℤ)

/-- Process ids are positive. -/
def Event.possible : Event → Prop
  | .reapchild _ pid _ => 0 < pid
  | _ => True

/-- What an event does. -/
def step (os : ℕ → Bool) (s : Pprd) : Event → Except Stop Pprd
  | .pprStart destname => .ok (pprStart s destname)
  | .pprTakeSkeleton destname id => .ok (pprTakeSkeleton s destname id)
  | .pprFinish i e => .ok (pprFinish s i e)
  | .queueNewJob => queueNewJob os s
  | .newPrinterConfig prnname conf => newPrinterConfig os s prnname conf
  | .newGroupConfig grpname conf => newGroupConfig os s grpname conf
  | .ppop c => Prod.fst <$> ppopDispatch os s c
  | .ipp c => Prod.fst <$> ippDispatch os s c
  | .reapchild now pid w => reapchild os now s pid w
  | .tick now => do
    let s ← printerTick os s
    questionTick os now s

/-- What the daemon can find: `readdir()` gives no name twice and each queue file once, and the
priorities in queue files are those of ppr, or the ones `ppop_rush()` gives. -/
structure Boot.Wf (b : Boot) : Prop where
  printers : (b.printers.map Prod.fst).Nodup
  groups : (b.groups.map Prod.fst).Nodup
  queue_nodup : b.queue.Nodup
  queue_mem : ∀ name, name ∈ b.queue ↔ (b.disk.queue name).isSome
  priority : ∀ name f, b.disk.queue name = some f → 1 ≤ f.line.priority ∧ f.line.priority ≤ 101

/-- The runs in which what the daemon finds meets `B` and every event meets `C` in the state it
happens in. -/
abbrev Runs (os : ℕ → Bool) (B : Boot → Prop) (C : Pprd → Event → Prop) :
    List (Pprd × Event) → Pprd → Prop :=
  Machine.Run (fun s => ∃ b : Boot, b.Wf ∧ B b ∧ boot os b = .ok s)
    fun s ev t => ev.possible ∧ C s ev ∧ step os s ev = .ok t

end Ppr
