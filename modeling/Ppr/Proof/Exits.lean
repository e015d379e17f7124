import Ppr.Proof.Moves

/-!
# The end of a pprdrv as acts

First the job is removed or gets its new status, which is one act, and other printers may start it;
then the printer gets its new status and looks for work.
-/

namespace Ppr

open Outcome Machine

variable {K : Act → Pprd → Prop} {os : ℕ → Bool}

/-- The tables after the exit code has been looked at and before the job is dealt with. -/
structure Reaped (p : ℕ) (e : ExitCode) (s u : Pprd) : Prop where
  queue : QueueFrame s.queue u.queue
  printer : ∀ p', (u.printers p').core =
    if p' = p then
      { (s.printers p').core with
        jobPid := 0
        cancelJob := if e = .printed then false else (s.printers p').cancelJob
        holdJob := false }
    else (s.printers p').core
  printerCount : u.printerCount = s.printerCount
  groups : ∀ g, (u.groups g).core = (s.groups g).core
  groupCount : u.groupCount = s.groupCount
  active : u.activePrinters = s.activePrinters - 1
  starving : u.starvingPrinters = s.starvingPrinters + if e = .starved then 1 else 0
  files : ∀ n, (u.disk.queue n).isSome = (s.disk.queue n).isSome
  fifo : u.fifo = s.fifo
  pprs : u.pprs = s.pprs

theorem exitIncapable_ensures (s : Pprd) (p : ℕ) :
    Ensures (exitIncapable s p) fun r => Frame s r.1 ∧ r.2.onPrinter = false := by
  unfold exitIncapable
  dsimp only
  split
  · exact ensures_error
  · have frame : ∀ {f : QEntry → QEntry} {y : ℕ}, (∀ q, JobFrame q (f q)) →
        Frame s (s.modifyJob y f) := fun hf => frame_modifyJob s _ fun _ => hf _
    refine ensures_ite (fun _ => ?_) fun _ => ensures_ite (fun _ => ensures_ite (fun _ => ?_)
      fun _ => ?_) fun _ => ?_
    all_goals exact ensures_ok ⟨frame fun _ => ⟨rfl, rfl, rfl, rfl, .inl rfl⟩, rfl⟩

/-- What the two switches over the exit code do that matters. -/
def exitCounted (s : Pprd) (p : ℕ) (e : ExitCode) : Pprd :=
  { s.modifyPrinter p fun q => { q with cancelJob := if e = .printed then false else q.cancelJob }
    with starvingPrinters := s.starvingPrinters + if e = .starved then 1 else 0 }

theorem core_exitCounted (s : Pprd) (p : ℕ) (e : ExitCode) (p' : ℕ) :
    ((exitCounted s p e).printers p').core =
      if p' = p then
        { (s.printers p').core with
          cancelJob := if e = .printed then false else (s.printers p').core.cancelJob }
      else (s.printers p').core := by
  unfold exitCounted
  dsimp only
  rw [core_modifyPrinter]
  rfl

theorem frame_exitCounted {s : Pprd} {p : ℕ} {e : ExitCode} (h : e ≠ .printed)
    (h' : e ≠ .starved) : Frame (exitCounted s p e) s where
  queue := .refl _
  printers p' := by
    rw [core_exitCounted]
    simp [h]
  printerCount := rfl
  groups _ := rfl
  groupCount := rfl
  activePrinters := rfl
  starvingPrinters := by simp [exitCounted, h']
  files _ := rfl
  fifo := rfl
  pprs := rfl
  launches := rfl

theorem exitReport_ensures (s : Pprd) (p : ℕ) (e : ExitCode) :
    Ensures (exitReport s p e) fun r =>
      Frame (exitCounted s p e) r.1 ∧ r.2.onPrinter = false := by
  cases e with
  | incapable =>
    refine (exitIncapable_ensures s p).mono fun r hr => ⟨.trans ?_ hr.1, hr.2⟩
    exact frame_exitCounted (by simp) (by simp)
  | signal => exact ensures_ok ⟨frame_exitCounted (by simp) (by simp), rfl⟩
  | printed =>
    refine ensures_ok ⟨?_, rfl⟩
    exact { Frame.refl s with
      printers := fun p' => by
        rw [core_exitCounted, core_modifyPrinter]
        rfl
      starvingPrinters := by simp [exitCounted, Pprd.modifyPrinter] }
  | starved =>
    refine ensures_ok ⟨?_, rfl⟩
    exact { Frame.refl s with
      printers := fun p' => by
        rw [core_exitCounted]
        simp
      starvingPrinters := by simp [exitCounted] }
  | joberr | engaged | prnerr | prnerrNoretry =>
    refine ensures_ok ⟨.trans (frame_exitCounted (by simp) (by simp)) ?_, rfl⟩
    dsimp only
    apply frame_modifyPrinter
    rfl

theorem reaped_of_frame {s u : Pprd} {p : ℕ} {e : ExitCode}
    (h : Frame (exitCounted (pprdrvReaped s p) p e) u) :
    Reaped p e s (u.modifyPrinter p fun q => { q with holdJob := false }) where
  queue := h.queue
  printer p' := by
    rw [core_modifyPrinter_of _ p p' (fun c => { c with holdJob := false }) fun _ => rfl,
      h.printers p']
    by_cases hp : p' = p
    · subst hp
      simp [exitCounted, pprdrvReaped, Pprd.modifyPrinter, Printer.core, Printer.status,
        Printer.jobKey]
    · simp [exitCounted, pprdrvReaped, Pprd.modifyPrinter, hp]
  printerCount := h.printerCount
  groups := h.groups
  groupCount := h.groupCount
  active := h.activePrinters
  starving := h.starvingPrinters
  files := h.files
  fifo := h.fifo
  pprs := h.pprs

theorem findJob_of_queueFrame {s t : Pprd} (h : QueueFrame s.queue t.queue) (k : JobKey) :
    t.findJob k = s.findJob k := by
  have hk := h.map_eq QEntry.key fun _ _ h => h.key
  have e : ∀ l : List QEntry, (l.findIdx? fun q => decide (q.key = k)) =
      (l.map QEntry.key).findIdx? fun k' => decide (k' = k) := fun l => by
    rw [List.findIdx?_map]
    rfl
  rw [Pprd.findJob, Pprd.findJob, e, e, hk]

theorem Reaped.sameNames {s u : Pprd} {p : ℕ} {e : ExitCode} (h : Reaped p e s u) :
    SameNames s u := by
  have hc : ∀ p', (u.printers p').core.name = (s.printers p').name ∧
      (u.printers p').core.status = s.prnStatus p' := by
    intro p'
    rw [h.printer p']
    split_ifs <;> exact ⟨rfl, rfl⟩
  refine ⟨h.printerCount, fun p' => (hc p').1, fun p' => ?_, h.groups, h.groupCount⟩
  rw [← (hc p').2]
  rfl

theorem Reaped.jobKey {s u : Pprd} {p : ℕ} {e : ExitCode} (h : Reaped p e s u) (p' : ℕ) :
    (u.printers p').jobKey = (s.printers p').jobKey := by
  have := congrArg PrinterCore.jobKey (h.printer p')
  split_ifs at this <;> exact this

/-- The act of a pprdrv's end. -/
def Act.isExit (p : ℕ) (e : ExitCode) : Act → Prop
  | .exitRemove p' e' _ | .exitMiss p' e' | .exitKeep p' e' _ _ => p' = p ∧ e' = e
  | _ => False

theorem change_exitMiss {s u : Pprd} {p : ℕ} {e : ExitCode} (h : Reaped p e s u)
    (hp : p < s.printerCount) (hpid : (s.printers p).jobPid ≠ 0)
    (he : e = .printed ∨ (s.printers p).cancelJob)
    (hk : s.findJob (s.printers p).jobKey = none) :
    Change (.exitMiss p e) s (u.modifyPrinter p fun p => { p with cancelJob := false }) where
  ok := ⟨hp, hpid, he, hk⟩
  queue := ⟨u.queue, h.queue, rfl⟩
  printer p' := by
    rw [core_modifyPrinter_of _ p p' (fun c => { c with cancelJob := false }) fun _ => rfl,
      h.printer p']
    simp only [Act.printer?, Option.some.injEq, eq_comm (a := p)]
    split_ifs <;> rfl
  printerCount := h.printerCount
  group := h.groups
  groupCount := h.groupCount
  active := h.active
  starving := h.starving
  files _ := h.files
  fifo _ := h.fifo
  pprs _ := h.pprs

theorem change_exitRemove {s u v : Pprd} {p y : ℕ} {e : ExitCode} (h : Reaped p e s u)
    (hp : p < s.printerCount) (hpid : (s.printers p).jobPid ≠ 0)
    (he : e = .printed ∨ (s.printers p).cancelJob)
    (hk : s.findJob (s.printers p).jobKey = some y) (hl : destidLive s (s.printers p).jobKey.1)
    (hf : Frame (erased u y) v) (hq : v.queue = u.queue.eraseIdx y) :
    Change (.exitRemove p e y) s (v.modifyPrinter p fun p => { p with cancelJob := false }) where
  ok := ⟨hp, hpid, he, hk, hl⟩
  queue := ⟨u.queue, h.queue, hq⟩
  printer p' := by
    have hv : (v.printers p').core = (u.printers p').core := hf.printers p'
    rw [core_modifyPrinter_of _ p p' (fun c => { c with cancelJob := false }) fun _ => rfl, hv,
      h.printer p']
    simp only [Act.printer?, Option.some.injEq, eq_comm (a := p)]
    split_ifs <;> rfl
  printerCount := hf.printerCount.trans h.printerCount
  group g := (hf.groups g).trans (h.groups g)
  groupCount := hf.groupCount.trans h.groupCount
  active := hf.activePrinters.trans h.active
  starving := hf.starvingPrinters.trans h.starving
  files _ n := by
    have hn : queueFileName u (u.job y) = queueFileName s (s.job y) := by
      have hkey := (job_of_queueFrame h.queue y).key
      simp only [QEntry.key, Prod.mk.injEq] at hkey
      simp only [queueFileName, h.sameNames.destidToName, hkey]
    refine (hf.files n).trans ?_
    simp only [erased, deleteJobFiles, Act.files, Function.update_apply, hn]
    split_ifs
    · rfl
    · exact h.files n
  fifo _ := hf.fifo.trans h.fifo
  pprs _ := hf.pprs.trans h.pprs

theorem change_exitKeep {s u : Pprd} {p y : ℕ} {e : ExitCode} {st : JobStatus}
    (h : Reaped p e s u) (hp : p < s.printerCount) (hpid : (s.printers p).jobPid ≠ 0)
    (he : e ≠ .printed) (hc : (s.printers p).cancelJob = false)
    (hk : s.findJob (s.printers p).jobKey = some y) (hst : st.onPrinter = false)
    (hh : (s.printers p).holdJob → st = .held) :
    Change (.exitKeep p e y st) s (queuePJobNewStatus u y st) where
  ok := ⟨hp, hpid, he, hc, hk, hst, hh⟩
  queue := ⟨u.queue, h.queue, rfl⟩
  printer p' := by
    refine (h.printer p').trans ?_
    simp only [Act.printer?, Option.some.injEq, eq_comm (a := p)]
    by_cases hpp : p' = p
    · subst hpp
      simp only [if_true, if_neg he, hc]
      rfl
    · simp only [hpp, if_false]
  printerCount := h.printerCount
  group := h.groups
  groupCount := h.groupCount
  active := h.active
  starving := h.starving
  files _ n := (isSome_writeLine _ _ n _).trans (h.files n)
  fifo _ := h.fifo
  pprs _ := h.pprs

/-- Until the printer gets its new status. -/
def Exited (os : ℕ → Bool) (s : Pprd) (p : ℕ) (w : WaitStatus) (t : Pprd) : Prop :=
  let e := effectiveExitCode (s.prnStatus p) w
  ∃ a u v, Act.isExit p e a ∧ Change a s u ∧ Starts u v ∧
    exitPrinter os v p (exitPrnStatus e) = .ok t

/-- What `pprdrv_exited()` does. -/
theorem pprdrvExited_ensures {s : Pprd} {p : ℕ} (hp : p < s.printerCount)
    (hpid : (s.printers p).jobPid ≠ 0) (w : WaitStatus) :
    Ensures (pprdrvExited os s p w) (Exited os s p w) := by
  unfold pprdrvExited Exited
  generalize effectiveExitCode (s.prnStatus p) w = e
  refine Ensures.bind (exitReport_ensures (pprdrvReaped s p) p e) ?_
  rintro ⟨r, st⟩ ⟨hr, hst⟩
  dsimp only at hr hst ⊢
  have hold : (r.printers p).holdJob = (s.printers p).holdJob := by
    have := congrArg PrinterCore.holdJob (hr.printers p)
    simpa [exitCounted, pprdrvReaped, Pprd.modifyPrinter, Printer.core] using this
  -- The status for the job, after an outstanding hold request.
  have hjs : ∃ js : JobStatus, (if (r.printers p).holdJob then .held else st) = js ∧
      js.onPrinter = false ∧ ((s.printers p).holdJob → js = .held) := by
    refine ⟨_, rfl, ?_, fun h => if_pos (hold ▸ h)⟩
    split_ifs
    · rfl
    · exact hst
  obtain ⟨js, hjs, hjs1, hjs2⟩ := hjs
  rw [hjs]
  have hR := reaped_of_frame hr
  generalize hu : (r.modifyPrinter p fun q => { q with holdJob := false }) = u at hR ⊢
  have hcan : e ≠ .printed → (u.printers p).cancelJob = (s.printers p).cancelJob := by
    intro he
    refine (congrArg PrinterCore.cancelJob (hR.printer p)).trans ?_
    simp [he]
  have hfind := findJob_of_queueFrame hR.queue
  refine Ensures.bind (Q := fun v => ∃ a u, Act.isExit p e a ∧ Change a s u ∧ Starts u v) ?_ ?_
  · unfold exitJob
    dsimp only
    refine ensures_ite (fun he => ?_) fun he => ?_
    · -- The job was printed or canceled.
      have he' : e = .printed ∨ (s.printers p).cancelJob := by
        by_cases h : e = .printed
        · exact .inl h
        · exact .inr (hcan h ▸ he.resolve_left h)
      rw [hR.jobKey]
      refine Ensures.bind (queueDequeueJob_ensures u _) fun v hv => ensures_ok ?_
      rcases hv with ⟨hn, rfl⟩ | ⟨y, hy, hl, hf, hq⟩
      · exact ⟨.exitMiss p e, _, ⟨rfl, rfl⟩, change_exitMiss hR hp hpid he' (hfind _ ▸ hn), .refl _⟩
      · exact ⟨.exitRemove p e y, _, ⟨rfl, rfl⟩,
          change_exitRemove hR hp hpid he' (hfind _ ▸ hy) (hR.sameNames.destidLive _ ▸ hl) hf hq,
          .refl _⟩
    · rw [not_or] at he
      rw [hR.jobKey]
      refine Ensures.bind (Q := fun x => ∃ y, s.findJob (s.printers p).jobKey = some y ∧
        x = (queuePJobNewStatus u y js, y)) ?_ ?_
      · unfold queueJobNewStatus
        rw [hfind]
        split
        · exact ensures_error
        · rename_i y hy
          exact ensures_ok ⟨y, hy, rfl⟩
      · rintro _ ⟨y, hy, rfl⟩
        dsimp only
        have hc : Change (.exitKeep p e y js) s (queuePJobNewStatus u y js) :=
          change_exitKeep hR hp hpid he.1 (by rw [← hcan he.1]; simpa using he.2) hy hjs1 hjs2
        have hx : Act.isExit p e (.exitKeep p e y js) := ⟨rfl, rfl⟩
        refine ensures_ite (fun _ => ?_) fun _ => ensures_ok ⟨_, _, hx, hc, .refl _⟩
        refine (printerTryStart_starts ?_).mono fun v hv => ⟨_, _, hx, hc, hv⟩
        rw [length_queuePJobNewStatus, hR.queue.length]
        exact (findJob_eq_some hy).1
  · rintro v ⟨a, u', ha, hc, hs⟩ t ht
    exact ⟨a, u', v, ha, hc, hs, ht⟩

/-! ## As acts -/

theorem exitPrnStatus_ne_deleted (e : ExitCode) : exitPrnStatus e ≠ .deleted := by
  cases e <;> simp [exitPrnStatus]

theorem exitPrinter_acts (hK : Base K) {s : Pprd} {p : ℕ} {st : PrnStatus}
    (hp : p < s.printerCount) (hst : st ≠ .deleted) (hs : ∀ st, K (.status p st) s) :
    Ensures (exitPrinter os s p st) (Acts K s) := by
  unfold exitPrinter
  dsimp only
  generalize hnew : (if s.prnStatus p = .stopping ∨ s.prnStatus p = .halting then .stopt else st) =
    new
  have hne : new ≠ .deleted := by
    rw [← hnew]
    split_ifs
    · simp
    · exact hst
  have ha : Acts K s (printerNewStatus s p new) := by
    by_cases hd : s.prnStatus p = .deleted
    · rw [printerNewStatus, if_pos hd]
      exact .refl s
    · exact act_status (hs new) hd hne hp
  refine (lookForWorkIfIdle_starts (.inl ?_)).mono fun t ht => ha.trans (ht.acts hK)
  rwa [(printerOnly_printerNewStatus s p new).printerCount]

/-- Exits leave the status alone. -/
theorem core_of_isExit {a : Act} {p : ℕ} {e : ExitCode} {s u : Pprd} (ha : a.isExit p e)
    (hc : Change a s u) :
    (u.printers p).core =
      { (s.printers p).core with jobPid := 0, cancelJob := false, holdJob := false } := by
  cases a with
  | exitRemove p' e' y | exitMiss p' e' | exitKeep p' e' y st =>
    obtain ⟨rfl, rfl⟩ := ha
    exact hc.core_of rfl
  | _ => exact ha.elim

theorem printerCount_of_isExit {a : Act} {p : ℕ} {e : ExitCode} {s u : Pprd} (ha : a.isExit p e)
    (hc : Change a s u) : u.printerCount = s.printerCount := by
  rw [hc.printerCount]
  cases a <;> first | rfl | exact ha.elim

/-- Permission for the end of a pprdrv: the exit itself, and a new status for the printer.  If the
printer was not idle its pprdrv is gone by then and its status is as before. -/
structure ExitPermit (K : Act → Pprd → Prop) (s : Pprd) (p : ℕ) (w : WaitStatus) : Prop where
  exit : ∀ a, a.isExit p (effectiveExitCode (s.prnStatus p) w) → K a s
  status : ∀ t st, (s.prnStatus p ≠ .idle →
    (t.printers p).jobPid = 0 ∧ t.prnStatus p = s.prnStatus p) → K (.status p st) t

theorem pprdrvExited_acts (hK : Base K) {s : Pprd} {p : ℕ} {w : WaitStatus}
    (hp : p < s.printerCount) (hpid : (s.printers p).jobPid ≠ 0) (hx : ExitPermit K s p w) :
    Ensures (pprdrvExited os s p w) (Acts K s) := by
  intro t ht
  obtain ⟨a, u, v, ha, hc, hs, ht⟩ := pprdrvExited_ensures hp hpid w t ht
  have hcount : v.printerCount = s.printerCount :=
    hs.sameTables.printerCount.trans (printerCount_of_isExit ha hc)
  have hcore := core_of_isExit ha hc
  have hv : Acts K s v := (Trail.single (hx.exit a ha) hc).trans (hs.acts hK)
  refine hv.trans (exitPrinter_acts hK (hcount ▸ hp) (exitPrnStatus_ne_deleted _) ?_ t ht)
  refine fun st => hx.status v st fun hi => ?_
  have hui : u.prnStatus p ≠ .idle := by
    rwa [show u.prnStatus p = s.prnStatus p from congrArg PrinterCore.status hcore]
  have he := (hs.core_eq hui).trans hcore
  exact ⟨congrArg PrinterCore.jobPid he, congrArg PrinterCore.status he⟩

theorem reapchild_acts (hK : Base K) {s : Pprd} {now pid : ℤ} {w : WaitStatus} (hpid : 0 < pid)
    (hx : ∀ p < s.printerCount, (s.printers p).jobPid = pid → ExitPermit K s p w) :
    Ensures (reapchild os now s pid w) (Acts K s) := by
  unfold reapchild
  split
  · rename_i p hp
    have hmem := List.mem_range.1 (List.mem_of_find?_eq_some hp)
    have he : (s.printers p).jobPid = pid := by simpa using List.find?_some hp
    exact pprdrvExited_acts hK hmem (by omega) (hx p hmem he)
  · exact (frame_questionChildHook os now s pid w).mono fun t ht => hK.acts_frame ht

end Ppr
