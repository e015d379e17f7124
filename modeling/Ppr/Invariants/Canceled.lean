import Ppr.Invariants.Flagged

/-!
# What becomes of jobs that are canceled, and of the others

A job that is canceled while a printer is at work on it is removed when the pprdrv ends.  A job that
is removed was printed, or a command named it.
-/

namespace Ppr

open Outcome Machine

variable {os : ℕ → Bool}

/-! ## Computations that return -/

theorem exists_ok_of_avoids {ε α : Type} {x : Except ε α} (h : Avoids x fun _ => True) :
    ∃ a, x = .ok a := by
  cases x with
  | error e => exact absurd trivial (h e rfl)
  | ok a => exact ⟨a, rfl⟩

theorem pprdrvStart_returns {s : Pprd} {p x : ℕ} (hw : (s.job x).status = .waiting)
    (hi : s.prnStatus p = .idle) : Avoids (pprdrvStart os s p x) fun _ => True := by
  unfold pprdrvStart
  dsimp only
  rw [if_neg (not_not.2 hw), if_neg (not_not.2 hi)]
  refine avoids_ite (fun _ => avoids_ok) fun _ => ?_
  refine avoids_ite (fun _ => avoids_ok) fun _ => ?_
  refine avoids_ite (fun _ => avoids_ok) fun _ => ?_
  obtain ⟨y, hy⟩ := findJob_of_lt (lt_of_waiting hw)
  have hq := (printerOnly_printerNewStatus (pprdrvForked s p (s.job x)) p .printing).queue
  have hy' : (printerNewStatus (pprdrvForked s p (s.job x)) p .printing).findJob (s.job x).key =
      some y := by
    rw [Pprd.findJob, hq]
    exact hy
  refine Avoids.bind ?_ fun _ _ => avoids_ok
  unfold queueJobNewStatus
  rw [hy']
  exact avoids_ok

theorem printerStart_returns {s : Pprd} {p x : ℕ} (hw : (s.job x).status = .waiting) :
    Avoids (printerStart os s p x) fun _ => True := by
  unfold printerStart
  dsimp only
  rw [if_neg (not_not.2 hw)]
  refine avoids_ite (fun _ => avoids_ok) fun hi => ?_
  refine avoids_ite (fun _ => avoids_ok) fun _ => ?_
  refine avoids_ite (fun _ => avoids_ok) fun _ => ?_
  exact avoids_ite (fun _ => avoids_ok) fun _ => pprdrvStart_returns hw (not_not.1 hi)

theorem lookForWorkIfIdle_returns (s : Pprd) (p : ℕ) :
    Avoids (lookForWorkIfIdle os s p) fun _ => True := by
  refine avoids_ite (fun hi => ?_) fun _ => avoids_ok
  unfold printerLookForWork
  rw [if_neg (not_not.2 hi)]
  refine avoids_forLoop (fun x s => ?_) _ _ _
  exact avoids_ite (fun h => (printerStart_returns h.1).bind fun _ _ => avoids_ok)
    fun _ => avoids_ok

/-! ## The exit -/

theorem exitReport_returns {s : Pprd} {p y : ℕ} (h : s.findJob (s.printers p).jobKey = some y)
    (e : ExitCode) : Avoids (exitReport s p e) fun _ => True := by
  cases e with
  | incapable =>
    simp only [exitReport, exitIncapable]
    split
    · -- The job itself has the id and the sub-id.
      rename_i hn
      obtain ⟨hy, hk⟩ := findJob_eq_some h
      simp only [QEntry.key, Printer.jobKey, Prod.mk.injEq] at hk
      have := List.findIdx?_eq_none_iff.1 hn _ (job_mem hy)
      simp [hk.2.1, hk.2.2] at this
    · refine avoids_ite (fun _ => avoids_ok) fun _ => avoids_ite (fun _ => ?_) fun _ => avoids_ok
      exact avoids_ite (fun _ => avoids_ok) fun _ => avoids_ok
  | _ => exact avoids_ok

/-- The pprdrv of a printer whose job is canceled ends: the job goes. -/
theorem pprdrvExited_canceled {s : Pprd} {p y : ℕ}
    (hy : s.findJob (s.printers p).jobKey = some y) (hc : (s.printers p).cancelJob)
    (hl : destidLive s (s.printers p).jobKey.1) (w : WaitStatus) :
    Avoids (pprdrvExited os s p w) fun _ => True := by
  unfold pprdrvExited
  generalize effectiveExitCode (s.prnStatus p) w = e
  have hkey : ((pprdrvReaped s p).printers p).jobKey = (s.printers p).jobKey := by
    simp [pprdrvReaped, Pprd.modifyPrinter, Printer.jobKey]
  refine Avoids.bind (exitReport_returns (y := y) (hkey ▸ hy) e) ?_
  rintro ⟨r, st⟩ hr
  obtain ⟨hr, -⟩ := exitReport_ensures (pprdrvReaped s p) p e _ hr
  have hR := reaped_of_frame hr
  dsimp only
  generalize hu : (r.modifyPrinter p fun q => { q with holdJob := false }) = u at hR ⊢
  refine Avoids.bind ?_ fun v _ => lookForWorkIfIdle_returns _ _
  have hcan : e = .printed ∨ (u.printers p).cancelJob := by
    by_cases he : e = .printed
    · exact .inl he
    · refine .inr ((congrArg PrinterCore.cancelJob (hR.printer p)).trans ?_)
      simp [he, hc]
  unfold exitJob
  dsimp only
  rw [if_pos hcan, hR.jobKey]
  refine Avoids.bind ?_ fun _ _ => avoids_ok
  unfold queueDequeueJob
  rw [findJob_of_queueFrame hR.queue, hy]
  refine avoids_ite (fun _ => avoids_ok) fun h => absurd ?_ h
  exact hR.sameNames.destidLive _ ▸ hl

theorem Starts.keys {s t : Pprd} (h : Starts s t) : t.keys = s.keys := h.sameTables.keys

theorem exitPrinter_keys {s : Pprd} {p : ℕ} (hp : p < s.printerCount) (st : PrnStatus) :
    Ensures (exitPrinter os s p st) fun t => t.keys = s.keys := by
  unfold exitPrinter
  dsimp only
  generalize (if s.prnStatus p = .stopping ∨ s.prnStatus p = .halting then .stopt else st) = new
  have ho := printerOnly_printerNewStatus s p new
  refine (lookForWorkIfIdle_starts (.inl (ho.printerCount ▸ hp))).mono fun t ht => ?_
  exact ht.keys.trans (congrArg (List.map QEntry.key) ho.queue)

/-- The keys after the end of a pprdrv. -/
theorem pprdrvExited_keys {s : Pprd} {p : ℕ} (hp : p < s.printerCount) (hr : s.running p)
    (w : WaitStatus) :
    Ensures (pprdrvExited os s p w) fun t =>
      (∃ y, (s.findJob (s.printers p).jobKey = some y) ∧ t.keys = s.keys.eraseIdx y ∧
        (effectiveExitCode (s.prnStatus p) w = .printed ∨ (s.printers p).cancelJob)) ∨
      t.keys = s.keys ∧ (s.findJob (s.printers p).jobKey = none ∨
        effectiveExitCode (s.prnStatus p) w ≠ .printed ∧ (s.printers p).cancelJob = false) := by
  intro t ht
  obtain ⟨a, u, v, ha, hc, hs, ht⟩ := pprdrvExited_ensures hp hr w t ht
  have hv : p < v.printerCount := by
    rw [hs.sameTables.printerCount, printerCount_of_isExit ha hc]
    exact hp
  have hkeys : t.keys = a.keys s.keys :=
    ((exitPrinter_keys hv _ t ht).trans hs.keys).trans hc.keys
  have hok := hc.ok
  cases a with
  | exitRemove p' e y =>
    obtain ⟨rfl, rfl⟩ := ha
    exact .inl ⟨y, hok.2.2.2.1, hkeys, hok.2.2.1⟩
  | exitMiss p' e =>
    obtain ⟨rfl, rfl⟩ := ha
    exact .inr ⟨hkeys, .inl hok.2.2.2⟩
  | exitKeep p' e y st =>
    obtain ⟨rfl, rfl⟩ := ha
    exact .inr ⟨hkeys, .inr ⟨hok.2.2.1, hok.2.2.2.1⟩⟩
  | _ => exact ha.elim

/-- The process is that of printer `p`. -/
def Pprd.reapsFor (s : Pprd) (pid : ℤ) (p : ℕ) : Prop :=
  (List.range s.printerCount).find? (fun x => (s.printers x).jobPid = pid) = some p

instance (s : Pprd) (pid : ℤ) (p : ℕ) : Decidable (s.reapsFor pid p) :=
  inferInstanceAs (Decidable (_ = _))

theorem step_reapchild {s : Pprd} {pid : ℤ} {p : ℕ} (h : s.reapsFor pid p) (now : ℤ)
    (w : WaitStatus) : step os s (.reapchild now pid w) = pprdrvExited os s p w := by
  rw [Pprd.reapsFor] at h
  simp only [step, reapchild, h]

theorem reaps_of_reapsFor {s : Pprd} {pid : ℤ} {p : ℕ} (h : s.reapsFor pid p) (now : ℤ)
    (w : WaitStatus) :
    p < s.printerCount ∧ Event.reaps s (.reapchild now pid w) p =
      some (effectiveExitCode (s.prnStatus p) w) := by
  have hp := List.mem_range.1 (List.mem_of_find?_eq_some h)
  have he : (s.printers p).jobPid = pid := by simpa using List.find?_some h
  exact ⟨hp, by simp [Event.reaps, hp, he]⟩

/-- At the exit of the pprdrv a job that is canceled goes. -/
theorem Tracked.canceled_exit {s : Pprd} (h : Tracked s) {p : ℕ} {k : JobKey}
    (hw : s.worksOn p k) (hst : s.onPrinter k .cancel) (hl : destidLive s k.1) (w : WaitStatus) :
    ∃ t, pprdrvExited os s p w = .ok t ∧ k ∉ t.keys := by
  obtain ⟨hr, rfl⟩ := hw
  have hp := h.tidy.linked.lt hr
  obtain ⟨y, hy⟩ := h.tidy.findJob hr
  have hc : (s.printers p).cancelJob = true :=
    congrArg Prod.fst (h.flagged.job p .cancel hr hst)
  obtain ⟨t, ht⟩ := exists_ok_of_avoids (pprdrvExited_canceled hy hc hl w)
  refine ⟨t, ht, ?_⟩
  rcases pprdrvExited_keys hp hr w t ht with ⟨y', hy', hk, -⟩ | ⟨-, hn | ⟨-, hn⟩⟩
  · obtain ⟨hyl, hyk⟩ := findJob_eq_some hy'
    rw [hk, ← hyk]
    exact h.tidy.named.nodup.notMem_eraseIdx (keys_getElem? s hyl)
  · rw [hy] at hn
    cases hn
  · rw [hc] at hn
    cases hn

/-! ## Cancels that are pending -/

/-- The job with key `k` has been canceled while printer `p` was at work on it, and the pprdrv has not
ended since. -/
def pendingCancel (p : ℕ) (k : JobKey) : List (Pprd × Event) → Pprd → Prop
  | [], _ => False
  | (s, ev) :: hist, t => ev.reaps s p = none ∧
      (s.worksOn p k ∧ ¬ s.onPrinter k .cancel ∧ t.onPrinter k .cancel ∨ pendingCancel p k hist s)

instance decidablePendingCancel (p : ℕ) (k : JobKey) :
    ∀ hist s, Decidable (pendingCancel p k hist s)
  | [], _ => isFalse id
  | (s, _) :: hist, _ =>
    have := decidablePendingCancel p k hist s
    inferInstanceAs (Decidable (_ ∧ (_ ∨ _)))

/-- A job with a cancel that is pending is removed at the exit of the pprdrv, whatever its exit code.
`C` says which exits can occur. -/
def CancelNotLost (os : ℕ → Bool) (C : Pprd → Event → Prop) (hist : List (Pprd × Event)) (s : Pprd) :
    Prop :=
  ∀ p k, pendingCancel p k hist s → ∀ now pid w, 0 < pid → s.reapsFor pid p →
    C s (.reapchild now pid w) → ∃ t, step os s (.reapchild now pid w) = .ok t ∧ k ∉ t.keys

/-- The event leaves names, printers at work and their flags alone, and a pprdrv that ends finds the
destination of its job. -/
structure CancelsKept (s : Pprd) (ev : Event) : Prop where
  work : WorkKept s ev
  live : ∀ p < s.printerCount, (ev.reaps s p).isSome → destidLive s (s.printers p).jobKey.1

instance (s : Pprd) (ev : Event) : Decidable (CancelsKept s ev) :=
  decidable_of_iff (WorkKept s ev ∧
      ∀ p < s.printerCount, (ev.reaps s p).isSome → destidLive s (s.printers p).jobKey.1)
    ⟨fun h => ⟨h.1, h.2⟩, fun h => ⟨h.work, h.live⟩⟩

theorem Tracked.pending {s t : Pprd} {ev : Event} {p : ℕ} {k : JobKey} (h : Tracked s)
    (hev : ev.possible) (hk : WorkKept s ev) (hst : Ppr.step os s ev = .ok t)
    (hr : ev.reaps s p = none) (hw : s.worksOn p k) :
    t.worksOn p k ∧ (s.onPrinter k .cancel → t.onPrinter k .cancel) := by
  obtain ⟨hpath, ht⟩ := h.step hev hk hst
  have works := Tidy.along (I := fun u => u.worksOn p k)
    (fun a u v hu htu _ hl ha hc => worksOn_change htu hl ha hc hr hu) ht.tidy hpath hw
  refine ⟨works, fun hcan => ?_⟩
  exact (Tidy.along (I := fun u => u.worksOn p k ∧ u.onPrinter k .cancel)
    (fun a u v hu htu _ hl ha hc => ⟨worksOn_change htu hl ha hc hr hu.1,
      cancel_change htu hl (flagPermit_of_allowed hk.flags ha hc) ha hc hr hu.1 hu.2⟩)
    ht.tidy hpath ⟨hw, hcan⟩).2

theorem pendingCancel_canceled {B : Boot → Prop} {C : Pprd → Event → Prop}
    (hB : ∀ b, B b → b.Clean) (hC : ∀ s ev, C s ev → WorkKept s ev) {hist : List (Pprd × Event)}
    {s : Pprd} (run : Runs os B C hist s) {p : ℕ} {k : JobKey} (hp : pendingCancel p k hist s) :
    s.worksOn p k ∧ s.onPrinter k .cancel := by
  induction run with
  | init _ => exact hp.elim
  | step hrun hst ih =>
    obtain ⟨hev, hk, hst⟩ := hst
    have htr := Tracked.of_run hB hC hrun
    obtain ⟨hr, ⟨hw, -, hcan⟩ | hp⟩ := hp
    · exact ⟨(htr.pending hev (hC _ _ hk) hst hr hw).1, hcan⟩
    · obtain ⟨hw, hcan⟩ := ih hp
      obtain ⟨hw', hcan'⟩ := htr.pending hev (hC _ _ hk) hst hr hw
      exact ⟨hw', hcan' hcan⟩

/-- A command to cancel or purge jobs has named the job with key `k` since it came into the queue. -/
def canceledSince (k : JobKey) : List (Pprd × Event) → Bool
  | [] => false
  | (s, ev) :: hist => decide (k ∈ s.keys) &&
      ((s.queue.any fun q => decide (q.key = k) && ev.cancels s q) || canceledSince k hist)

/-- No job is lost: one that goes away, and is not just moved to another destination, was printed by
the pprdrv that ends, or a command to cancel jobs named it; and a command sets the flag
`cancel_job` of a printer at work only if it names the job there.  `C` says which events can occur. -/
structure JobsNotLost (os : ℕ → Bool) (C : Pprd → Event → Prop) (hist : List (Pprd × Event))
    (s : Pprd) : Prop where
  removed : ∀ ev t, ev.possible → C s ev → step os s ev = .ok t → ∀ k ∈ s.keys, k ∉ t.keys →
    (∀ x < s.queue.length, (s.job x).key = k → ev.moves s x = none) →
    (∃ p, s.worksOn p k ∧ ev.reaps s p = some .printed) ∨ canceledSince k ((s, ev) :: hist)
  aimed : ∀ ev t, ev.possible → C s ev → step os s ev = .ok t → ∀ p < s.printerCount,
    s.running p → (s.printers p).cancelJob = false → (t.printers p).cancelJob = true →
    ∃ q ∈ s.queue, q.key = (s.printers p).jobKey ∧ ev.cancels s q

theorem cancels_of_key {s : Pprd} {ev : Event} {q q' : QEntry} (h : ev.cancels s q)
    (hk : q'.key = q.key) : ev.cancels s q' := by
  obtain ⟨destid, id, subid, hnamed, -⟩ := cancels_cases (fun _ => true) h
  rw [hnamed] at h ⊢
  rwa [isNamed_of_key hk]

theorem mem_keys_of_running {s : Pprd} (h : Linked s) {p : ℕ} (hr : s.running p) :
    (s.printers p).jobKey ∈ s.keys := by
  obtain ⟨st, -, q, hq, hk, -⟩ := h.job p hr
  exact List.mem_map.2 ⟨q, hq, hk⟩

/-- The command names the job of a printer whose flag `cancel_job` it sets. -/
theorem Canceling.names {s u : Pprd} {ev : Event} (hs : Linked s) (hcg : Canceling s u) {x p : ℕ}
    (hcan : ev.cancels s (u.job x)) (hr : u.running p)
    (hk : (u.printers p).jobKey = (u.job x).key) :
    s.running p ∧ (u.printers p).jobKey = (s.printers p).jobKey ∧
      ∃ q ∈ s.queue, q.key = (s.printers p).jobKey ∧ ev.cancels s q := by
  have hrs : s.running p := fun h0 => hr ((hcg.jobPid p).trans h0)
  have hkey := hcg.jobKey p
  obtain ⟨st, -, q, hq, hqk, -⟩ := hs.job p hrs
  exact ⟨hrs, hkey, q, hq, hqk, cancels_of_key hcan (by rw [hqk, ← hkey, hk])⟩

/-- A printer whose flag `cancel_job` is set after an event is at work on the same job as before, and
the event names that job if the flag was not set. -/
theorem Tracked.canceling {s t : Pprd} {ev : Event} (h : Tracked s) (hev : ev.possible)
    (hk : WorkKept s ev) (hst : Ppr.step os s ev = .ok t) {p : ℕ}
    (hp : (t.printers p).cancelJob = true) :
    s.running p ∧ t.worksOn p (s.printers p).jobKey ∧
      ((s.printers p).cancelJob = true ∨
        ∃ q ∈ s.queue, q.key = (s.printers p).jobKey ∧ ev.cancels s q) := by
  obtain ⟨hpath, ht⟩ := h.step hev hk hst
  refine (Tidy.along (I := fun u => Flagged u ∧ ((u.printers p).cancelJob = true →
      s.running p ∧ u.worksOn p (s.printers p).jobKey ∧ ((s.printers p).cancelJob = true ∨
        ∃ q ∈ s.queue, q.key = (s.printers p).jobKey ∧ ev.cancels s q)))
    (fun a u v ⟨hfu, hu⟩ htu htv hl ha hc => ?_) ht.tidy hpath ⟨h.flagged, fun hc => ?_⟩).2 hp
  swap
  · have hr : s.running p := by
      by_contra hr
      have := congrArg Prod.fst (h.flagged.idle p hr)
      rw [show (s.flags p).1 = true from hc] at this
      cases this
    exact ⟨hr, ⟨hr, rfl⟩, .inl hc⟩
  have hf := flagPermit_of_allowed hk.flags ha hc
  refine ⟨hfu.act htu hl hf hc htv.named.nodup, fun hcan => ?_⟩
  by_cases hpr : a.printer? = some p
  swap
  · have hcore := hc.core_ne hpr
    obtain ⟨h1, h2⟩ := running_of_core hcore
    have hcu : (u.printers p).cancelJob = true :=
      (congrArg PrinterCore.cancelJob hcore).symm.trans hcan
    obtain ⟨hrs, ⟨hr, hkey⟩, hor⟩ := hu hcu
    exact ⟨hrs, ⟨h1.2 hr, h2.trans hkey⟩, hor⟩
  have hcore := hc.core_of hpr
  have hcan' : (Act.core (a.key u) a (u.printers p).core).cancelJob = true :=
    (congrArg PrinterCore.cancelJob hcore).symm.trans hcan
  have hok := hc.ok
  have same : a.changesWork = false → (u.printers p).cancelJob = true →
      s.running p ∧ v.worksOn p (s.printers p).jobKey ∧ ((s.printers p).cancelJob = true ∨
        ∃ q ∈ s.queue, q.key = (s.printers p).jobKey ∧ ev.cancels s q) := by
    intro hw hcu
    obtain ⟨hrs, ⟨hr, hkey⟩, hor⟩ := hu hcu
    have hsw := hc.sameWork hw
    exact ⟨hrs, ⟨(hsw.running p).2 hr, (hsw.jobKey p).trans hkey⟩, hor⟩
  -- The command cancels the job of the printer.
  have named : ∀ {x}, a.changesWork = false → u.running p →
      (u.printers p).jobKey = (u.job x).key → ev.cancels s (u.job x) ∧ Canceling s u →
      s.running p ∧ v.worksOn p (s.printers p).jobKey ∧ ((s.printers p).cancelJob = true ∨
        ∃ q ∈ s.queue, q.key = (s.printers p).jobKey ∧ ev.cancels s q) := by
    intro x hw hr hkey hx
    obtain ⟨hrs, hk', hq⟩ := hx.2.names h.tidy.linked hx.1 hr hkey
    have hsw := hc.sameWork hw
    exact ⟨hrs, ⟨(hsw.running p).2 hr, (hsw.jobKey p).trans hk'⟩, .inr hq⟩
  cases a with
  | start p' x y pid =>
    cases hpr
    have hb : ¬ u.running p := fun hr => by
      have hb := htu.linked.busy p hr
      rw [hok.2.2.2.1] at hb
      cases hb
    have := congrArg Prod.fst (hfu.idle p hb)
    rw [show (u.flags p).1 = true from hcan'] at this
    cases this
  | cancel x p' =>
    cases hpr
    obtain ⟨hr, hkey⟩ := htu.linked.attends hok.1 hok.2
    exact named rfl hr hkey ha
  | cancelSeizing x p' =>
    cases hpr
    exact named rfl hf (cancelSeizing_jobKey hok) ha
  | exitRemove | exitMiss | exitKeep | reload => cases hcan'
  | newPrinter p' c =>
    cases hpr
    rcases hok.2.2.2.2 with he | ⟨hfalse, -⟩
    · change c.cancelJob = true at hcan'
      rw [he] at hcan'
      exact same rfl hcan'
    · rw [show c.cancelJob = true from hcan'] at hfalse
      cases hfalse
  | starve | feed | status | mount | deletePrinter | seize => exact same rfl hcan'
  | _ => cases hpr

/-- What removes a job. -/
theorem Tracked.removes {s t : Pprd} {ev : Event} (h : Tracked s) (hev : ev.possible)
    (hk : WorkKept s ev) (hst : Ppr.step os s ev = .ok t) {k : JobKey} (hs : k ∈ s.keys)
    (ht : k ∉ t.keys)
    (hmove : ∀ x < s.queue.length, (s.job x).key = k → ev.moves s x = none) :
    (∃ p e, s.worksOn p k ∧ ev.reaps s p = some e ∧
        (e = .printed ∨ (s.printers p).cancelJob = true)) ∨
      ∃ q ∈ s.queue, q.key = k ∧ ev.cancels s q := by
  obtain ⟨hpath, htt⟩ := h.step hev hk hst
  refine (Tidy.along (I := fun u => k ∈ u.keys ∨
    ((∃ p e, s.worksOn p k ∧ ev.reaps s p = some e ∧
      (e = .printed ∨ (s.printers p).cancelJob = true)) ∨ ∃ q ∈ s.queue, q.key = k ∧ ev.cancels s q))
    (fun a u v hu htu _ hl ha hc => ?_) htt.tidy hpath (.inl hs)).resolve_left ht
  rcases hu with hu | hu
  swap
  · exact .inr hu
  by_cases hv : k ∈ v.keys
  · exact .inl hv
  right
  rw [hc.keys] at hv
  have hok := hc.ok
  -- An entry that is erased is the one with the key.
  have erased : ∀ {y}, y < u.queue.length → k ∉ u.keys.eraseIdx y → (u.job y).key = k := by
    intro y hy hn
    have hy' : y < u.keys.length := by simpa [Pprd.keys] using hy
    rw [← (List.getElem_cons_eraseIdx_perm hy').mem_iff, List.mem_cons] at hu
    have he := hu.resolve_right hn
    rw [← Option.some.inj ((List.getElem?_eq_getElem hy').symm.trans (keys_getElem? u hy)), he]
  cases a with
  | purge x y =>
    obtain ⟨hx, -, hy, -⟩ := hok
    obtain ⟨hyl, hyk⟩ := findJob_eq_some hy
    have hkx : (u.job x).key = k := hyk.symm.trans (erased hyl hv)
    obtain ⟨q, hq, hqk⟩ := List.mem_map.1 hs
    exact .inr ⟨q, hq, hqk, cancels_of_key ha.1 (hqk.trans hkx.symm)⟩
  | exitRemove p e y =>
    obtain ⟨rfl, hreap⟩ := ha
    obtain ⟨-, hr, he, hy, -⟩ := hok
    obtain ⟨hyl, hyk⟩ := findJob_eq_some hy
    exact .inl ⟨p, e, ⟨hr, hyk.symm.trans (erased hyl hv)⟩, hreap, he⟩
  | insert x q =>
    have hx : x ≤ u.keys.length := by
      rw [hok.1]
      simpa [Pprd.keys] using List.findIdx_le_length
    exact absurd ((List.mem_insertIdx hx).2 (.inr hu)) hv
  | rush x newpos =>
    have hx : x < u.keys.length := by
      rw [Pprd.keys, List.length_map]
      exact hok
    have hperm := List.getElem_cons_eraseIdx_perm hx
    refine absurd ?_ hv
    simp only [Act.keys, List.getD_eq_getElem _ _ hx]
    split_ifs
    · exact hperm.mem_iff.2 hu
    · exact ((List.perm_append_singleton _ _).trans hperm).mem_iff.2 hu
  | move x d n =>
    -- The entry that is moved is another one.
    obtain ⟨hm, hx, -, hmv⟩ := ha
    have hne : (u.job x).key ≠ k := by
      rw [(hmv.job x le_rfl hx).1]
      intro he
      rw [hmove x hx he] at hm
      cases hm
    refine absurd ?_ hv
    have hxl : x < u.keys.length := by simpa [Pprd.keys] using hok.1
    obtain ⟨y, hy, he⟩ := List.mem_iff_getElem.1 hu
    refine List.mem_iff_getElem.2 ⟨y, by simpa [Act.keys] using hy, ?_⟩
    have hxy : x ≠ y := by
      rintro rfl
      refine hne ?_
      rw [← he]
      exact Option.some.inj ((keys_getElem? u hok.1).symm.trans (List.getElem?_eq_getElem hxl))
    simp [Act.keys, hxy, he]
  | _ => exact absurd hu hv

/-- A printer whose flag `cancel_job` is set is at work on a job that a command has named. -/
def CancelsKnown (hist : List (Pprd × Event)) (s : Pprd) : Prop :=
  ∀ p, (s.printers p).cancelJob = true → canceledSince (s.printers p).jobKey hist = true

theorem canceledSince_cons {k : JobKey} {s : Pprd} {ev : Event} {hist : List (Pprd × Event)}
    (hk : k ∈ s.keys)
    (h : (∃ q ∈ s.queue, q.key = k ∧ ev.cancels s q) ∨ canceledSince k hist = true) :
    canceledSince k ((s, ev) :: hist) = true := by
  simp only [canceledSince, Bool.and_eq_true, Bool.or_eq_true, decide_eq_true_eq, List.any_eq_true]
  exact ⟨hk, h⟩

/-- No cancel is pending after the start. -/
theorem no_cancel_boot {b : Boot} (hb : b.Clean) :
    Ensures (boot os b) fun s => ∀ p, (s.printers p).cancelJob = false := by
  have keep : ∀ {a : Act} {s t : Pprd}, (a.isStart ∨ LoadAllowed s a) → Change a s t →
      (∀ p, (s.printers p).cancelJob = false) → ∀ p, (t.printers p).cancelJob = false := by
    intro a s t ha hc hs p
    change (t.printers p).core.cancelJob = false
    rw [hc.printer p]
    split_ifs with hp
    · have hok := hc.ok
      cases a with
      | newPrinter p' c =>
        cases hp
        rcases hok.2.2.2.2 with he | ⟨hfalse, -⟩
        · exact (congrArg PrinterCore.cancelJob he).trans (hs p)
        · exact hfalse
      | start | starve => exact hs p
      | _ => first | cases hp; done | (rcases ha with ha | ha <;> cases ha)
    · exact hs p
  have starts : ∀ {s t : Pprd}, Starts s t → (∀ p, (s.printers p).cancelJob = false) →
      ∀ p, (t.printers p).cancelJob = false := fun ht hs =>
    Trail.invariant (I := fun s : Pprd => ∀ p, (s.printers p).cancelJob = false)
      (fun a u v hu ha hc => keep (.inl ha) hc hu) ht hs
  refine boot_ensures (I := fun s => ∀ p, (s.printers p).cancelJob = false)
    (J := fun _ s => ∀ p, (s.printers p).cancelJob = false) (fun p => (hb.2 p).1)
    (fun a s t hs ha hc => keep (.inr ha) hc hs) (fun s hs _ _ => hs) ?_ fun s t hs ht => starts ht hs
  rintro name rest s t hs (⟨u, hu, rfl, -⟩ | ⟨u, v, q, a, hu, -, hc, hv, ha⟩)
  · exact starts (t := u) (.of_frame hu) hs
  · refine starts hv fun p => ?_
    have hsu := starts (.of_frame hu) hs p
    have hcore := hc.core_ne (p := p) (by rcases ha with ⟨-, rfl⟩ | ⟨-, x, rfl⟩ <;> simp [Act.printer?])
    exact (congrArg PrinterCore.cancelJob hcore).trans hsu

theorem CancelsKnown.of_run {B : Boot → Prop} {C : Pprd → Event → Prop} (hB : ∀ b, B b → b.Clean)
    (hC : ∀ s ev, C s ev → WorkKept s ev) {hist : List (Pprd × Event)} {s : Pprd}
    (run : Runs os B C hist s) : CancelsKnown hist s := by
  induction run with
  | init h =>
    obtain ⟨b, -, hb, hs⟩ := h
    intro p hp
    rw [no_cancel_boot (hB b hb) _ hs p] at hp
    cases hp
  | step hrun hst ih =>
    obtain ⟨hev, hk, hst⟩ := hst
    have h := Tracked.of_run hB hC hrun
    intro p hp
    obtain ⟨hr, ⟨-, hkey⟩, hor⟩ := h.canceling hev (hC _ _ hk) hst hp
    rw [hkey]
    exact canceledSince_cons (mem_keys_of_running h.tidy.linked hr) (hor.symm.imp_right (ih p))

/-- In every run that keeps printers and jobs linked, no job is lost. -/
theorem jobs_not_lost {hist : List (Pprd × Event)} {s : Pprd}
    (run : Runs os Boot.Clean WorkKept hist s) : JobsNotLost os WorkKept hist s := by
  have h := Tracked.of_run (fun _ h => h) (fun _ _ h => h) run
  have hc := CancelsKnown.of_run (fun _ h => h) (fun _ _ h => h) run
  refine ⟨fun ev t hev hk hst k hs ht hmove => ?_, fun ev t hev hk hst p _ hr hf hp => ?_⟩
  · rcases h.removes hev hk hst hs ht hmove with ⟨p, e, hw, hreap, he⟩ | hq
    · rcases he with rfl | he
      · exact .inl ⟨p, hw, hreap⟩
      · exact .inr (canceledSince_cons hs (.inr (hw.2 ▸ hc p he)))
    · exact .inr (canceledSince_cons hs (.inl hq))
  · obtain ⟨-, -, hor⟩ := h.canceling hev hk hst hp
    rcases hor with hor | hor
    · rw [hf] at hor
      cases hor
    · exact hor

/-- One job is canceled while its printer is at work on it, and the pprdrv ends with an error. -/
theorem jobs_not_lost_canceled :
    ∃ hist s, Runs (fun _ => true) Boot.Clean WorkKept hist s ∧ s.keys = [] ∧
      JobsNotLost (fun _ => true) WorkKept hist s := by
  obtain ⟨hist, s, run, hs⟩ := exists_runs (fun _ => true) Boot.Clean WorkKept startedBoot_wf
    startedBoot_clean [.ppop (.cancel "A" 1 0), .reapchild 0 1 (.exited 3)] Pprd.keys
    (a := []) (by decide +kernel)
  exact ⟨hist, s, run, hs, jobs_not_lost run⟩

/-- A group of two printers with a job, and a job for one of its members that is held. -/
def groupJobBoot : Boot :=
  .ofFiles [("A", ⟨[]⟩), ("B", ⟨[]⟩)] [("G", { printers := ["A", "B"], rotate := none })]
    [(("G", 1, 0), plainFile 50 1 1), (("A", 2, 0), plainFile 50 2 2)]

theorem groupJobBoot_wf : groupJobBoot.Wf :=
  Boot.wf_ofFiles (by decide) (by decide) (by decide) (by decide)

theorem groupJobBoot_clean : groupJobBoot.Clean := ⟨fun _ => rfl, fun _ => ⟨rfl, rfl⟩⟩

/-- The group's job fails on one printer and is printed on the other, where it is held and then
canceled.  The cancel takes the first printer for the one at work on it, and the next job there is
removed at its end, although nobody has canceled it and it was not printed. -/
theorem job_lost :
    ∃ hist s, Runs (fun _ => true) Boot.Clean (fun _ _ => True) hist s ∧
      ¬ JobsNotLost (fun _ => true) (fun _ _ => True) hist s := by
  obtain ⟨hist, s, run, hks, hs⟩ := exists_runs_replay (fun _ => true) Boot.Clean
    (fun _ _ => True) groupJobBoot_wf groupJobBoot_clean
    [.reapchild 0 1 (.exited 1), .ppop (.hold "G" 1 0), .ppop (.cancel "G" 1 0),
      .ppop (.release "A" 2 0), .ppop (.start "A")]
    (P := fun hist s => (0, 2, 0) ∈ s.keys ∧
      (step (fun _ => true) s (.reapchild 0 3 (.exited 3))).toOption.any (fun t =>
        decide ((0, 2, 0) ∉ t.keys) &&
        !canceledSince (0, 2, 0) ((s, .reapchild 0 3 (.exited 3)) :: hist) &&
        decide (∀ p < s.printerCount,
          Event.reaps s (.reapchild 0 3 (.exited 3)) p ≠ some .printed)) = true)
    (by decide +kernel)
  refine ⟨hist, s, run, fun h => ?_⟩
  obtain ⟨t, ht, hs⟩ := (Option.any_eq_true ..).1 hs
  simp only [Bool.and_eq_true, decide_eq_true_eq, Bool.not_eq_true'] at hs
  obtain ⟨⟨hkt, hcs⟩, hreap⟩ := hs
  have hst : step (fun _ => true) s (.reapchild 0 3 (.exited 3)) = .ok t := by
    cases he : step (fun _ => true) s (.reapchild 0 3 (.exited 3)) with
    | error e =>
      rw [he] at ht
      cases ht
    | ok u =>
      rw [he] at ht
      cases ht
      rfl
  rcases h.removed _ t (by decide) trivial hst _ hks hkt fun _ _ _ => rfl with ⟨p, -, hp⟩ | hc
  · have hlt : p < s.printerCount := by
      by_contra hlt
      simp [Event.reaps, hlt] at hp
    exact hreap p hlt hp
  · rw [hcs] at hc
    cases hc

end Ppr
