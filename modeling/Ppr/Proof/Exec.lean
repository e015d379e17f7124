import Ppr.Proof.Boots

/-!
# Executing runs

A run can be executed: `exec` takes the daemon from what it finds through a list of events, as long
as every event meets a condition that can be decided.
-/

namespace Ppr

variable {os : ℕ → Bool} {B : Boot → Prop} {C : Pprd → Event → Prop}

instance (ev : Event) : Decidable ev.possible :=
  match ev with
  | .reapchild _ pid _ => inferInstanceAs (Decidable (0 < pid))
  | .pprStart _ | .pprTakeSkeleton .. | .pprFinish .. | .queueNewJob | .newPrinterConfig ..
  | .newGroupConfig .. | .ppop _ | .ipp _ | .tick _ => isTrue trivial

/-- Let the events happen one after the other; `none` if one is not possible or does not meet the
condition, or if the daemon stops. -/
def exec (os : ℕ → Bool) (C : Pprd → Event → Prop) [∀ s ev, Decidable (C s ev)] :
    List Event → Pprd → Option Pprd
  | [], s => some s
  | ev :: evs, s =>
    if ev.possible ∧ C s ev then
      match step os s ev with
      | .ok t => exec os C evs t
      | .error _ => none
    else none

variable [∀ s ev, Decidable (C s ev)]

theorem runs_exec {hist : List (Pprd × Event)} {s t : Pprd} (evs : List Event)
    (hs : Runs os B C hist s) (h : exec os C evs s = some t) : ∃ hist, Runs os B C hist t := by
  induction evs generalizing hist s with
  | nil =>
    cases h
    exact ⟨hist, hs⟩
  | cons ev evs ih =>
    unfold exec at h
    split_ifs at h with hc
    split at h
    · rename_i u hu
      exact ih (hs.step ⟨hc.1, hc.2, hu⟩) h
    · cases h

/-- Start the daemon and let the events happen. -/
def execBoot (os : ℕ → Bool) (C : Pprd → Event → Prop) [∀ s ev, Decidable (C s ev)] (b : Boot)
    (evs : List Event) : Option Pprd :=
  match boot os b with
  | .ok s => exec os C evs s
  | .error _ => none

theorem runs_execBoot {b : Boot} (hw : b.Wf) (hB : B b) {evs : List Event} {t : Pprd}
    (h : execBoot os C b evs = some t) : ∃ hist, Runs os B C hist t := by
  unfold execBoot at h
  split at h
  · rename_i s hs
    exact runs_exec evs (.init ⟨b, hw, hB, hs⟩) h
  · cases h

/-- A state with a property that can be read off an execution. -/
theorem exists_runs (os : ℕ → Bool) (B : Boot → Prop) (C : Pprd → Event → Prop)
    [∀ s ev, Decidable (C s ev)] {b : Boot} (hw : b.Wf) (hB : B b) (evs : List Event) {α : Type}
    (f : Pprd → α) {a : α} (h : (execBoot os C b evs).map f = some a) :
    ∃ hist t, Runs os B C hist t ∧ f t = a := by
  obtain ⟨t, ht, hf⟩ := Option.map_eq_some_iff.1 h
  obtain ⟨hist, hr⟩ := runs_execBoot (B := B) hw hB ht
  exact ⟨hist, t, hr, hf⟩

/-! ## With the history -/

/-- One event, if it is possible and meets the condition. -/
def stepIf (os : ℕ → Bool) (C : Pprd → Event → Prop) [∀ s ev, Decidable (C s ev)] (s : Pprd)
    (ev : Event) : Option Pprd :=
  if ev.possible ∧ C s ev then (step os s ev).toOption else none

theorem step_of_stepIf {s t : Pprd} {ev : Event} (h : stepIf os C s ev = some t) :
    ev.possible ∧ C s ev ∧ step os s ev = .ok t := by
  unfold stepIf at h
  split_ifs at h with hc
  refine ⟨hc.1, hc.2, ?_⟩
  cases hs : step os s ev with
  | error e =>
    rw [hs] at h
    cases h
  | ok u =>
    rw [hs] at h
    cases h
    rfl

/-- A run with a property of its history and its last state that can be computed. -/
theorem exists_runs_replay (os : ℕ → Bool) (B : Boot → Prop) (C : Pprd → Event → Prop)
    [∀ s ev, Decidable (C s ev)] {b : Boot} (hw : b.Wf) (hB : B b) (evs : List Event)
    {P : List (Pprd × Event) → Pprd → Prop} [∀ h s, Decidable (P h s)]
    (h : (boot os b).toOption.any (fun s =>
      (Machine.replay (stepIf os C) [] s evs).any fun hs => decide (P hs.1 hs.2)) = true) :
    ∃ hist t, Runs os B C hist t ∧ P hist t := by
  obtain ⟨s, hs, h⟩ := (Option.any_eq_true ..).mp h
  have hboot : boot os b = .ok s := by
    cases hb : boot os b with
    | error e =>
      rw [hb] at hs
      cases hs
    | ok u =>
      rw [hb] at hs
      cases hs
      rfl
  obtain ⟨hist, t, hrun, hP⟩ : ∃ hist t,
      Machine.Run (fun s => ∃ b : Boot, b.Wf ∧ B b ∧ boot os b = .ok s)
        (fun s ev t => stepIf os C s ev = some t) hist t ∧ P hist t :=
    Machine.exists_run_of_replay evs ⟨b, hw, hB, hboot⟩ h
  exact ⟨hist, t, hrun.mono (fun _ h => h) fun _ _ _ => step_of_stepIf, hP⟩

/-! ## What a daemon finds that has been shut down in good order -/

/-- A slot of cleared memory. -/
def clearedPrinter : Printer :=
  { name := "", spoolState := newPrinterSpoolState, bins := [], autoSelectExists := false,
    cancelJob := false, holdJob := false, jobPid := 0, jobDestid := 0, jobId := 0, jobSubid := 0,
    ppopPid := 0 }

/-- Cleared memory, configuration files, queue files, and nothing else. -/
def Boot.ofFiles (printers : List (String × PrinterConf)) (groups : List (String × GroupConf))
    (files : List (QName × QFile)) : Boot :=
  { mem := fun _ => clearedPrinter
    printers := printers
    groups := groups
    queue := files.map Prod.fst
    disk :=
      { queue := fun n => (files.find? fun f => f.1 = n).map Prod.snd
        printerState := fun _ => none
        groupState := fun _ => none
        mounted := fun _ => none
        nextId := 0 } }

theorem Boot.wf_ofFiles {printers : List (String × PrinterConf)} {groups : List (String × GroupConf)}
    {files : List (QName × QFile)} (hp : (printers.map Prod.fst).Nodup)
    (hg : (groups.map Prod.fst).Nodup) (hf : (files.map Prod.fst).Nodup)
    (hpr : ∀ f ∈ files, 1 ≤ f.2.line.priority ∧ f.2.line.priority ≤ 101) :
    (Boot.ofFiles printers groups files).Wf where
  printers := hp
  groups := hg
  queue_nodup := hf
  queue_mem name := by
    simp only [Boot.ofFiles, Option.isSome_map, List.find?_isSome, List.mem_map, decide_eq_true_eq]
  priority name f h := by
    obtain ⟨g, hg, rfl⟩ := Option.map_eq_some_iff.1 h
    exact hpr g (List.mem_of_find?_eq_some hg)

/-- A queue file of a job without media requirements. -/
def plainFile (priority time status : ℕ) : QFile :=
  { line := { priority := priority, sequenceNumber := time, status := status, flags := 0 }
    media := [] }

end Ppr
