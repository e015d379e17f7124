import Ppr.Invariants.Bounds

/-!
# Stops that were asked for

Which pprdrv processes the daemon has sent a signal, and what becomes of their printers when they
exit.  That an exit was asked for is not recorded but in the printer's status, which a command that
comes in between can hide.
-/

namespace Ppr

open Outcome Machine

variable {os : ℕ → Bool}

/-- The entry a command to hold a job is about. -/
def Event.holds (s : Pprd) : Event → Option ℕ
  | .ppop (.hold destname id subid) =>
    (destidByName s destname).bind fun destid => s.queue.findIdx? fun q =>
      q.destid = destid ∧ q.id = id ∧ (subid = wildcard ∨ q.subid = subid)
  | .ipp (.holdJob jobid) => findJobid s jobid
  | _ => none

/-- The event is a command to stop printer `p` at once while it is printing. -/
def Event.halts (s : Pprd) : Event → ℕ → Bool
  | .ppop (.halt n), p =>
    destidByNameReversed s n = some p && !destidIsGroup s p &&
      (s.prnStatus p = .printing || s.prnStatus p = .stopping)
  | .ipp (.pausePrinter (.printer n)), p =>
    destidByPrinter s n = some p && s.prnStatus p = .printing
  | _, _ => false

/-- The event has `pprdrv_kill()` called for printer `p`, because of a job that is canceled. -/
def Event.killsToCancel (s : Pprd) (ev : Event) (p : ℕ) : Bool :=
  s.queue.any fun q => q.status = .printing p && ev.cancels s q

/-- The event has `pprdrv_kill()` called for printer `p`, because of a job that is held. -/
def Event.killsToHold (s : Pprd) (ev : Event) (p : ℕ) : Bool :=
  (ev.holds s).any fun x => (s.job x).status = .printing p

/-- The event has a signal sent to the pprdrv of printer `p`. -/
def Event.kills (s : Pprd) (ev : Event) (p : ℕ) : Bool :=
  0 < (s.printers p).jobPid && (ev.killsToCancel s p || ev.killsToHold s p || ev.halts s p)

/-- The event removes printer `p`: its configuration file is gone. -/
def Event.deletes (s : Pprd) : Event → ℕ → Bool
  | .newPrinterConfig n none, p => destidByPrinter s n = some p
  | _, _ => false

/-- The pprdrv of printer `p` has been sent a signal and has not exited since. -/
def signaled (p : ℕ) : List (Pprd × Event) → Bool
  | [] => false
  | (s, ev) :: hist => (ev.reaps s p).isNone && (ev.kills s p || signaled p hist)

/-- The statuses in which a signal is expected. -/
def PrnStatus.awaitsExit : PrnStatus → Bool
  | .canceling | .seizing | .halting => true
  | _ => false

/-- If the pprdrv of a printer exits because of a signal the daemon has sent it, the printer gets no
fault and no retry is counted. -/
def StopIsNoFault (os : ℕ → Bool) (hist : List (Pprd × Event)) (s : Pprd) : Prop :=
  ∀ now pid w p, 0 < pid →
    (List.range s.printerCount).find? (fun x => (s.printers x).jobPid = pid) = some p →
    exitCode w = .signal → signaled p hist →
    Ensures (step os s (.reapchild now pid w)) fun t => t.prnStatus p ≠ .fault ∧
      (t.printers p).spoolState.nextErrorRetry ≤ (s.printers p).spoolState.nextErrorRetry

/-- A command sends no signal without the printer's status saying so, and a printer whose pprdrv has
been sent one is not deleted: a job is canceled when its printer is not stopping, it is held when its
printer is not deleted. -/
structure OrderlyStop (s : Pprd) (ev : Event) : Prop where
  cancel : ∀ p < s.printerCount, ev.killsToCancel s p →
    s.prnStatus p = .printing ∨ (s.prnStatus p).awaitsExit
  hold : ∀ p < s.printerCount, ev.killsToHold s p → s.prnStatus p ≠ .deleted
  delete : ∀ p < s.printerCount, ev.deletes s p → (s.prnStatus p).awaitsExit = false

instance (s : Pprd) (ev : Event) : Decidable (OrderlyStop s ev) :=
  decidable_of_iff
    ((∀ p < s.printerCount, ev.killsToCancel s p →
        s.prnStatus p = .printing ∨ (s.prnStatus p).awaitsExit) ∧
      (∀ p < s.printerCount, ev.killsToHold s p → s.prnStatus p ≠ .deleted) ∧
      ∀ p < s.printerCount, ev.deletes s p → (s.prnStatus p).awaitsExit = false)
    ⟨fun h => ⟨h.1, h.2.1, h.2.2⟩, fun h => ⟨h.cancel, h.hold, h.delete⟩⟩

/-! ## Retry counters that stay as they are -/

/-- No printer's count of retries after errors has changed. -/
def SameRetries (s t : Pprd) : Prop :=
  ∀ p, (t.printers p).spoolState.nextErrorRetry = (s.printers p).spoolState.nextErrorRetry

theorem SameRetries.refl (s : Pprd) : SameRetries s s := fun _ => rfl

theorem SameRetries.trans {s t u : Pprd} (h : SameRetries s t) (h' : SameRetries t u) :
    SameRetries s u :=
  fun p => (h' p).trans (h p)

theorem sameRetries_of_eq {s t : Pprd} (h : t.printers = s.printers) : SameRetries s t := by
  intro p
  rw [h]

theorem sameRetries_modifyPrinter (s : Pprd) (p : ℕ) {f : Printer → Printer}
    (hf : (f (s.printers p)).spoolState.nextErrorRetry =
      (s.printers p).spoolState.nextErrorRetry) : SameRetries s (s.modifyPrinter p f) := by
  intro p'
  by_cases h : p' = p
  · subst h
    simpa [Pprd.modifyPrinter] using hf
  · simp [Pprd.modifyPrinter, h]

theorem sameRetries_printerSpoolStateSave (s : Pprd) (p : ℕ) :
    SameRetries s (printerSpoolStateSave s p) :=
  sameRetries_of_eq rfl

theorem sameRetries_printerNewStatus (s : Pprd) (p : ℕ) (st : PrnStatus) :
    SameRetries s (printerNewStatus s p st) := by
  unfold printerNewStatus
  by_cases h : s.prnStatus p = .deleted
  · rw [if_pos h]
    exact .refl s
  · rw [if_neg h]
    refine SameRetries.trans ?_ (sameRetries_printerSpoolStateSave _ p)
    exact sameRetries_modifyPrinter s p rfl

theorem sameRetries_pprdrvForked (s : Pprd) (p : ℕ) (q : QEntry) :
    SameRetries s (pprdrvForked s p q) := by
  unfold pprdrvForked
  exact (sameRetries_of_eq rfl).trans (sameRetries_modifyPrinter _ p rfl)

theorem sameRetries_markLast (s : Pprd) (p destid : ℕ) : SameRetries s (markLast s p destid) := by
  unfold markLast
  split_ifs
  · exact sameRetries_of_eq rfl
  · exact .refl s

theorem sameRetries_pprdrvStart {s t : Pprd} {p x : ℕ} {r : StartResult}
    (h : pprdrvStart os s p x = .ok (t, r)) : SameRetries s t := by
  obtain ⟨-, -, ⟨-, rfl | rfl⟩ | ⟨-, -, y, -, rfl⟩⟩ := pprdrvStart_cases h
  · exact (sameRetries_printerNewStatus s p .starved).trans (sameRetries_of_eq rfl)
  · exact (sameRetries_printerNewStatus { s with forks := s.forks + 1 } p .starved).trans
      (sameRetries_of_eq rfl)
  · refine SameRetries.trans ?_ (sameRetries_markLast _ _ _)
    have h1 := sameRetries_pprdrvForked s p (s.job x)
    have h2 := sameRetries_printerNewStatus (pprdrvForked s p (s.job x)) p .printing
    exact (h1.trans h2).trans (sameRetries_of_eq rfl)

theorem sameRetries_printerStart {s t : Pprd} {p x : ℕ} {r : StartResult}
    (h : printerStart os s p x = .ok (t, r)) : SameRetries s t := by
  obtain ⟨-, ⟨rfl, -⟩ | ⟨rfl, -⟩ | ⟨-, h⟩⟩ := printerStart_cases h
  · exact .refl _
  · exact .refl _
  · exact sameRetries_pprdrvStart h

theorem sameRetries_lookForWorkIfIdle (s : Pprd) (p : ℕ) :
    Ensures (lookForWorkIfIdle os s p) (SameRetries s) := by
  refine ensures_ite (fun _ t h => ?_) fun _ => ensures_ok (.refl s)
  obtain ⟨-, ⟨rfl, -⟩ | ⟨x, r, -, -, -, h⟩⟩ := printerLookForWork_cases h
  · exact .refl _
  · exact sameRetries_pprdrvStart h

theorem sameRetries_printerTryStart (s : Pprd) (x : ℕ) :
    Ensures (printerTryStart os s x) (SameRetries s) := by
  refine ensures_ite (fun _ => ensures_error) fun _ => ensures_ite (fun _ => ?_) fun _ => ?_
  · refine forLoop_invariant (SameRetries s) (fun i t ht => ?_) _ _ _ (.refl s)
    refine Ensures.bind (Q := fun r => SameRetries t r.1)
      (fun r hr => sameRetries_printerStart hr) fun r hr => ensures_ok ?_
    split_ifs <;> exact ht.trans hr
  · refine Ensures.bind (Q := fun r => SameRetries s r.1)
      (fun r hr => sameRetries_printerStart hr) fun r hr => ensures_ok hr

theorem sameRetries_jobCountAdjust (s : Pprd) (destid : ℕ) (increment : ℤ) (flush : Bool) :
    SameRetries s (jobCountAdjust s destid increment flush) := by
  unfold jobCountAdjust
  dsimp only
  split_ifs
  · exact sameRetries_of_eq rfl
  · exact sameRetries_of_eq rfl
  · refine SameRetries.trans ?_ (sameRetries_printerSpoolStateSave _ destid)
    exact sameRetries_modifyPrinter s destid rfl
  · exact sameRetries_modifyPrinter s destid rfl

theorem sameRetries_queueDequeueJob (s : Pprd) (k : JobKey) :
    Ensures (queueDequeueJob s k) (SameRetries s) := by
  unfold queueDequeueJob
  split
  · exact ensures_ok (.refl s)
  · refine ensures_ite (fun _ => ensures_ok ?_) fun _ => ensures_error
    refine SameRetries.trans ?_ (sameRetries_jobCountAdjust _ _ _ _)
    exact sameRetries_of_eq rfl

theorem sameRetries_exitJob (s : Pprd) (p : ℕ) (e : ExitCode) (st : JobStatus) :
    Ensures (exitJob os s p e st) (SameRetries s) := by
  refine ensures_ite (fun _ => ?_) fun _ => ?_
  · refine Ensures.bind (sameRetries_queueDequeueJob s _) fun t ht => ensures_ok ?_
    exact ht.trans (sameRetries_modifyPrinter t p rfl)
  · refine Ensures.bind (Q := fun r => SameRetries s r.1) ?_ fun r hr => ?_
    · unfold queueJobNewStatus
      split
      · exact ensures_error
      · exact ensures_ok (sameRetries_of_eq rfl)
    · refine ensures_ite (fun _ => ?_) fun _ => ensures_ok hr
      exact (sameRetries_printerTryStart r.1 r.2).mono fun t => hr.trans

/-- An exit that is taken for what it is leaves the counters alone. -/
theorem sameRetries_pprdrvExited {s : Pprd} {p : ℕ} {w : WaitStatus}
    (h : effectiveExitCode (s.prnStatus p) w = .signal) :
    Ensures (pprdrvExited os s p w) (SameRetries s) := by
  unfold pprdrvExited
  rw [h]
  have h0 : SameRetries s (pprdrvReaped s p) :=
    (sameRetries_modifyPrinter s p (f := fun p => { p with jobPid := 0 }) rfl).trans
      (sameRetries_of_eq rfl)
  refine Ensures.bind (Q := fun r => SameRetries s r.1) (ensures_ok h0) fun r hr => ?_
  have h1 := hr.trans
    (sameRetries_modifyPrinter r.1 p (f := fun p => { p with holdJob := false }) rfl)
  refine Ensures.bind (sameRetries_exitJob _ _ _ _) fun t ht => ?_
  refine (sameRetries_lookForWorkIfIdle _ p).mono fun u hu => ((h1.trans ht).trans ?_).trans hu
  exact sameRetries_printerNewStatus t p _

/-! ## The exit of a pprdrv that was sent a signal -/

theorem prnStatus_of_core {s t : Pprd} {p : ℕ} (h : (t.printers p).core = (s.printers p).core) :
    t.prnStatus p = s.prnStatus p :=
  congrArg PrinterCore.status h

/-- A search for work gives no printer a fault. -/
theorem Starts.ne_fault {s t : Pprd} (h : Starts s t) {p : ℕ} (hp : s.prnStatus p ≠ .fault) :
    t.prnStatus p ≠ .fault := by
  refine Trail.invariant (I := fun t => t.prnStatus p ≠ .fault) (fun a t u ht ha hc => ?_) h hp
  by_cases hpr : a.printer? = some p
  · have hst : u.prnStatus p = _ := congrArg PrinterCore.status (hc.core_of hpr)
    rw [hst]
    cases a with
    | start p' x y pid => simp [Act.core]
    | starve p' => simp [Act.core]
    | frame => cases hpr
    | _ => cases ha
  · rwa [prnStatus_of_core (hc.core_ne hpr)]

theorem effectiveExitCode_of_awaitsExit {st : PrnStatus} {w : WaitStatus} (h : st.awaitsExit)
    (hw : exitCode w = .signal) : effectiveExitCode st w = .signal := by
  unfold effectiveExitCode
  rw [if_neg, hw]
  rintro ⟨-, h1, h2, h3⟩
  cases st <;> simp_all [PrnStatus.awaitsExit]

/-- What becomes of the printer. -/
theorem pprdrvExited_ne_fault {s : Pprd} {p : ℕ} {w : WaitStatus} (hp : p < s.printerCount)
    (hpid : (s.printers p).jobPid ≠ 0) (hst : (s.prnStatus p).awaitsExit)
    (hw : exitCode w = .signal) :
    Ensures (pprdrvExited os s p w) fun t => t.prnStatus p ≠ .fault := by
  intro t ht
  obtain ⟨a, u, v, ha, hc, hs, ht⟩ := pprdrvExited_ensures hp hpid w t ht
  have hu : u.prnStatus p = s.prnStatus p := congrArg PrinterCore.status (core_of_isExit ha hc)
  have hidle : u.prnStatus p ≠ .idle := by
    rw [hu]
    intro h
    rw [h] at hst
    cases hst
  have hv : v.prnStatus p = s.prnStatus p := (prnStatus_of_core (hs.core_eq hidle)).trans hu
  have hvp : p < v.printerCount := by
    rw [hs.sameTables.printerCount, printerCount_of_isExit ha hc]
    exact hp
  rw [effectiveExitCode_of_awaitsExit hst hw] at ht
  unfold exitPrinter at ht
  dsimp only at ht
  generalize hnew : (if v.prnStatus p = .stopping ∨ v.prnStatus p = .halting then PrnStatus.stopt
    else exitPrnStatus .signal) = new at ht
  have hne : new ≠ .fault := by
    rw [← hnew]
    split_ifs <;> simp [exitPrnStatus]
  have hcount := (printerOnly_printerNewStatus v p new).printerCount
  refine (lookForWorkIfIdle_starts (.inl (hcount ▸ hvp)) t ht).ne_fault ?_
  have hcore := congrArg PrinterCore.status (core_printerNewStatus' v p new p)
  rw [if_pos rfl] at hcore
  change (printerNewStatus v p new).prnStatus p = _ at hcore
  rw [hcore]
  dsimp only
  split_ifs
  · simp
  · exact hne

/-! ## A printer that awaits an exit -/

theorem awaitsExit_stopStatus {halt : Bool} {old new : PrnStatus} (h : old.awaitsExit)
    (hs : stopStatus halt old = some new) : new.awaitsExit := by
  cases old <;> simp_all [stopStatus, PrnStatus.awaitsExit] <;> subst hs <;> rfl

/-- The status says so until the exit. -/
theorem awaitsExit_step {s t : Pprd} {ev : Event} {p : ℕ} (hev : ev.possible)
    (hst : step os s ev = .ok t) (ho : OrderlyStop s ev) (hp : p < s.printerCount)
    (h : (s.prnStatus p).awaitsExit) (hr : ev.reaps s p = none) : (t.prnStatus p).awaitsExit := by
  refine (Trail.invariant (I := fun u => p < u.printerCount ∧ (u.prnStatus p).awaitsExit)
    (fun a u v ⟨hu, hw⟩ ha hc => ⟨lt_of_lt_of_le hu hc.printerCount_le, ?_⟩)
    (step_acts hev t hst) ⟨hp, h⟩).2
  by_cases hpr : a.printer? = some p
  swap
  · rwa [prnStatus_of_core (hc.core_ne hpr)]
  have hcore : v.prnStatus p = _ := congrArg PrinterCore.status (hc.core_of hpr)
  rw [hcore]
  have hok := hc.ok
  cases a with
  | start p' x y pid =>
    cases hpr
    rw [hok.2.2.2.1] at hw
    cases hw
  | starve p' | feed p' =>
    cases hpr
    rw [hok.1] at hw
    cases hw
  | status p' st =>
    cases hpr
    rcases ha with ⟨hs, -⟩ | ⟨hs, -⟩ | ⟨-, rfl, halt, hs⟩ | ⟨hs, -⟩
    · rcases hs with hs | hs | hs <;> rw [hs] at hw <;> cases hw
    · rw [hs] at hw
      cases hw
    · exact awaitsExit_stopStatus hw hs
    · rw [hr] at hs
      cases hs
  | cancel x p' | cancelSeizing x p' =>
    cases hpr
    simp only [Act.core]
    split_ifs
    · rfl
    · exact hw
  | seize x p' =>
    cases hpr
    simp only [Act.core]
    split_ifs with hd
    · rw [show u.prnStatus p = .deleted from hd] at hw
      cases hw
    · rfl
  | exitRemove p' e y | exitMiss p' e | exitKeep p' e y st =>
    cases hpr
    have he : ev.reaps s p = some e := ha.2
    rw [hr] at he
    cases he
  | newPrinter p' c =>
    cases hpr
    rcases hok.1 with he | ⟨-, hd⟩
    · omega
    · rw [hd] at hw
      cases hw
  | reload p' bins auto => exact hw
  | mount p' bins => exact hw
  | deletePrinter p' =>
    cases hpr
    obtain ⟨rfl, n, rfl, hd⟩ := ha
    rw [ho.delete p hp (by simpa [Event.deletes] using hd)] at hw
    cases hw
  | _ => cases hpr

/-! ## Commands that send signals -/

/-- A command that cancels jobs runs the loop over those it names. -/
theorem cancels_cases (os : ℕ → Bool) {s : Pprd} {ev : Event} {q : QEntry} (h : ev.cancels s q) :
    ∃ destid id subid, (∀ q, ev.cancels s q = q.isNamed destid id subid) ∧
      Ensures (step os s ev) fun t => cancelJobs s destid id subid = .ok t := by
  have core : ∀ destid jobid, Ensures (ippCancelJobCore s destid jobid) fun r =>
      cancelJobs s destid jobid wildcard = .ok r.1 := by
    intro destid jobid
    refine Ensures.bind (Q := fun t => cancelJobs s destid jobid wildcard = .ok t)
      (fun t ht => ht) fun t ht => ?_
    exact ensures_ite (fun _ => ensures_ok ht) fun _ => ensures_ok ht
  cases ev with
  | ppop c =>
    cases c with
    | cancel n id subid =>
      simp only [Event.cancels, Bool.and_eq_true] at h
      refine ⟨destidByName s n, id, subid, fun q => ?_, ensures_fst ?_⟩
      · simp only [Event.cancels, h.1, Bool.true_and]
      · refine ensures_ite (fun hn => ?_) fun _ => ?_
        · simp_all
        · refine Ensures.bind (Q := fun t => cancelJobs s (destidByName s n) id subid = .ok t)
            (fun t ht => ht) fun t ht => ?_
          exact ensures_ite (fun _ => ensures_ok ht) fun _ => ensures_ok ht
    | _ => cases h
  | ipp c =>
    cases c with
    | cancelJob jobid => exact ⟨none, jobid, wildcard, fun _ => rfl, ensures_fst (core _ _)⟩
    | purgeJobs target =>
      cases target with
      | group n =>
        simp only [Event.cancels] at h
        obtain ⟨d, hd, -⟩ := (Option.any_eq_true ..).1 h
        refine ⟨some d, wildcard, wildcard, fun q => ?_, ensures_fst ?_⟩
        · simp [Event.cancels, hd]
        · simp only [ippDispatch, ippPurgeJobs, hd]
          exact core _ _
      | printer n =>
        simp only [Event.cancels] at h
        obtain ⟨d, hd, -⟩ := (Option.any_eq_true ..).1 h
        refine ⟨some d, wildcard, wildcard, fun q => ?_, ensures_fst ?_⟩
        · simp [Event.cancels, hd]
        · simp only [ippDispatch, ippPurgeJobs, hd]
          exact core _ _
      | other => cases h
    | _ => cases h
  | _ => cases h

/-- A command that holds a job holds that entry. -/
theorem holds_cases (os : ℕ → Bool) {s : Pprd} {ev : Event} {x : ℕ} (h : ev.holds s = some x) :
    x < s.queue.length ∧ Ensures (step os s ev) fun t => holdJob s x = .ok t := by
  cases ev with
  | ppop c =>
    cases c with
    | hold n id subid =>
      simp only [Event.holds] at h
      obtain ⟨d, hd, hx⟩ := Option.bind_eq_some_iff.1 h
      refine ⟨(List.findIdx?_eq_some_iff_getElem.1 hx).1, ensures_fst ?_⟩
      simp only [ppopDispatch, ppopHold, withJob, hd, hx]
      exact Ensures.bind (Q := fun t => holdJob s x = .ok t) (fun t ht => ht)
        fun t ht => ensures_ok ht
    | _ => cases h
  | ipp c =>
    cases c with
    | holdJob jobid =>
      have hx : findJobid s jobid = some x := h
      refine ⟨findJobid_lt hx, ensures_fst ?_⟩
      simp only [ippDispatch, ippHoldJob, hx]
      exact Ensures.bind (Q := fun t => holdJob s x = .ok t) (fun t ht => ht)
        fun t ht => ensures_ok ht
    | _ => cases h
  | _ => cases h

/-- A command that stops a printer at once does so. -/
theorem halts_cases (os : ℕ → Bool) {s : Pprd} {ev : Event} {p : ℕ} (h : ev.halts s p) :
    p < s.printerCount ∧ (s.prnStatus p = .printing ∨ s.prnStatus p = .stopping) ∧
      Ensures (step os s ev) fun t => stopPrinter s p true = .ok t := by
  cases ev with
  | ppop c =>
    cases c with
    | halt n =>
      simp only [Event.halts, Bool.and_eq_true, Bool.or_eq_true, decide_eq_true_eq] at h
      obtain ⟨⟨hn, hg⟩, hst⟩ := h
      have hg' : destidIsGroup s p = false := by simpa using hg
      have hp : p < s.printerCount := by simpa [destidIsGroup] using hg'
      refine ⟨hp, hst, ensures_fst ?_⟩
      simp only [ppopDispatch, ppopStop, withPrinter, hn, hg']
      refine Ensures.bind (Q := fun t => stopPrinter s p true = .ok t) (fun t ht => ht)
        fun t ht => ?_
      split <;> exact ensures_ok ht
    | _ => cases h
  | ipp c =>
    cases c with
    | pausePrinter target =>
      cases target with
      | printer n =>
        simp only [Event.halts, Bool.and_eq_true, decide_eq_true_eq] at h
        refine ⟨(destidByPrinter_eq_some h.1).1, .inl h.2, ensures_fst ?_⟩
        simp only [ippDispatch, ippPausePrinter, h.1, h.2]
        exact Ensures.bind (Q := fun t => stopPrinter s p true = .ok t) (fun t ht => ht)
          fun t ht => ensures_ok ht
      | _ => cases h
    | _ => cases h
  | _ => cases h

/-! ## The loop that cancels jobs -/

theorem job_of_queue_eq {s t : Pprd} (h : t.queue = s.queue) (z : ℕ) : t.job z = s.job z := by
  rw [Pprd.job, Pprd.job, h]

theorem job_queuePJobNewStatus_ne (s : Pprd) {x z : ℕ} (st : JobStatus) (h : x ≠ z) :
    (queuePJobNewStatus s x st).job z = s.job z := by
  refine (job_modifyJob s x z _).trans (if_neg ?_)
  exact fun hc => h hc.1

/-- One entry of the queue may have another status. -/
structure OneJob (x : ℕ) (s t : Pprd) : Prop where
  length : t.queue.length = s.queue.length
  job : ∀ z, x ≠ z → t.job z = s.job z

theorem OneJob.of_printerOnly {s u : Pprd} {x : ℕ} {st : JobStatus} (h : PrinterOnly s u) :
    OneJob x s (queuePJobNewStatus u x st) where
  length := (length_queuePJobNewStatus u x st).trans (congrArg List.length h.queue)
  job z hz := (job_queuePJobNewStatus_ne u st hz).trans (job_of_queue_eq h.queue z)

theorem oneJob_cancelPrinting (s : Pprd) (x p : ℕ) : OneJob x s (cancelPrinting s x p) :=
  .of_printerOnly ((printerOnly_statusIf s p .printing .canceling).trans
    (printerOnly_modifyPrinter _ p _))

theorem oneJob_cancelSeizing (s : Pprd) (x : ℕ) : OneJob x s (cancelSeizing s x) := by
  unfold cancelSeizing
  split
  · exact ⟨rfl, fun _ _ => rfl⟩
  · rename_i p _
    exact .of_printerOnly ((printerOnly_statusIf s p .seizing .canceling).trans
      (printerOnly_modifyPrinter _ p _))

theorem prnStatus_cancelPrinting {s : Pprd} {x p : ℕ} (hx : x < s.queue.length)
    (h : (s.job x).status = .printing p) (p' : ℕ) :
    (cancelPrinting s x p).prnStatus p' =
      if p = p' ∧ s.prnStatus p' = .printing then .canceling else s.prnStatus p' := by
  have hc := change_cancel hx h
  by_cases hp : p = p'
  · subst hp
    have hcore : (cancelPrinting s x p).prnStatus p = _ := congrArg PrinterCore.status (hc.core_of rfl)
    simp only [true_and, hcore]
    rfl
  · rw [if_neg fun h => hp h.1]
    refine prnStatus_of_core (hc.core_ne ?_)
    simpa [Act.printer?] using hp

theorem prnStatus_cancelSeizing {s : Pprd} {x : ℕ} (hx : x < s.queue.length)
    (h : (s.job x).status = .seizing) (p : ℕ) :
    (cancelSeizing s x).prnStatus p = s.prnStatus p ∨
      s.prnStatus p = .seizing ∧ (cancelSeizing s x).prnStatus p = .canceling := by
  cases hf : (List.range s.printerCount).find?
      fun p => (s.printers p).jobKey = (s.job x).key with
  | none =>
    left
    unfold cancelSeizing
    rw [hf]
  | some p' =>
    have hc := change_cancelSeizing hx h hf
    by_cases hp : p' = p
    · subst hp
      have hcore : (cancelSeizing s x).prnStatus p' = _ :=
        congrArg PrinterCore.status (hc.core_of rfl)
      simp only [Act.core] at hcore
      by_cases hs : s.prnStatus p' = .seizing
      · rw [if_pos (show (s.printers p').core.status = .seizing from hs)] at hcore
        exact .inr ⟨hs, hcore⟩
      · rw [if_neg (show ¬ (s.printers p').core.status = .seizing from hs)] at hcore
        exact .inl hcore
    · refine .inl (prnStatus_of_core (hc.core_ne ?_))
      simpa [Act.printer?] using hp

/-- A job that is not on a printer is removed, and the entries behind it move up. -/
theorem cancelJob_purge {s : Pprd} {x : ℕ} (hx : x < s.queue.length) :
    Ensures (queueDequeueJob s (s.job x).key) fun t =>
      t.queue.length + 1 = s.queue.length ∧ (∀ p, t.prnStatus p = s.prnStatus p) ∧
        ∀ z, x ≤ z → t.job z = s.job (z + 1) := by
  refine (queueDequeueJob_ensures s _).mono fun t ht => ?_
  obtain ⟨z, hz⟩ := findJob_of_lt hx
  rcases ht with ⟨hn, -⟩ | ⟨y, hy, -, hf, hq⟩
  · rw [hn] at hz
    cases hz
  have hlt := (findJob_eq_some hy).1
  -- The first entry with the key is removed, which is this one or one before it.
  have hyx : y ≤ x := by
    by_contra hlt
    have := (List.findIdx?_eq_some_iff_getElem.1 hy).2.2 x (by omega)
    rw [← job_eq_getElem hx] at this
    simp at this
  refine ⟨?_, fun p => ?_, fun z hz => ?_⟩
  · rw [hq]
    exact List.length_eraseIdx_add_one hlt
  · exact hf.prnStatus p
  · rw [Pprd.job, Pprd.job, hq, List.getD_eq_getElem?_getD, List.getD_eq_getElem?_getD,
      List.getElem?_eraseIdx, if_neg (by omega)]

/-- The printer awaits an exit, or an entry that will be canceled is on it. -/
def CancelAhead (named : QEntry → Bool) (p x : ℕ) (s : Pprd) : Prop :=
  (s.prnStatus p).awaitsExit ∨ s.prnStatus p = .printing ∧
    ∃ z, x ≤ z ∧ z < s.queue.length ∧ named (s.job z) ∧ (s.job z).status = .printing p

theorem cancelJobs_awaitsExit {s : Pprd} {destid : Option ℕ} {id subid : ℤ} {p : ℕ}
    (h : CancelAhead (fun q => q.isNamed destid id subid) p 0 s) :
    Ensures (cancelJobs s destid id subid) fun t => (t.prnStatus p).awaitsExit := by
  let named := fun q : QEntry => q.isNamed destid id subid
  refine forLoop_ensures
    (fun n x t => t.queue.length = x + n ∧ CancelAhead named p x t)
    (fun t => (t.prnStatus p).awaitsExit) (fun x t ⟨hl, ht⟩ => ?_) (fun n x t ⟨hl, ht⟩ => ?_)
    s.queue.length 0 s ⟨by simp, h⟩
  · rcases ht with ht | ⟨-, z, hz, hz', -⟩
    · exact ht
    · omega
  have hx : x < t.queue.length := by omega
  refine ensures_ite (fun hn => ?_) fun hn => ?_
  swap
  · refine ensures_ok ⟨by omega, ht.imp_right fun ⟨hp, z, hz, hz', hnz, hpz⟩ =>
      ⟨hp, z, ?_, hz', hnz, hpz⟩⟩
    rcases Nat.eq_or_lt_of_le hz with rfl | hz
    · exact absurd hnz hn
    · exact hz
  -- An entry behind this one is untouched.
  have behind : ∀ {u : Pprd}, OneJob x t u → u.prnStatus p = t.prnStatus p →
      (t.job x).status ≠ .printing p → CancelAhead named p (x + 1) u := by
    intro u hu hst hne
    rcases ht with ht | ⟨hp, z, hz, hz', hnz, hpz⟩
    · exact .inl (hst ▸ ht)
    · have hzx : x ≠ z := by
        rintro rfl
        exact hne hpz
      refine .inr ⟨hst.trans hp, z, by omega, ?_, ?_, ?_⟩
      · rw [hu.length]
        exact hz'
      · rwa [hu.job z hzx]
      · rwa [hu.job z hzx]
  unfold cancelJob
  cases hst : (t.job x).status with
  | printing p' =>
    have ho := oneJob_cancelPrinting t x p'
    refine ensures_ok ⟨by rw [ho.length]; omega, ?_⟩
    have hs := prnStatus_cancelPrinting hx hst p
    by_cases hp : p' = p
    · -- This is the entry, or one more on the same printer.
      left
      rw [hs]
      split_ifs with hc
      · rfl
      · exact ht.resolve_right fun h => hc ⟨hp, h.1⟩
    · rw [if_neg fun h => hp h.1] at hs
      refine behind ho hs ?_
      rw [hst]
      simpa using hp
  | cancel =>
    exact ensures_ok ⟨by omega, behind ⟨rfl, fun _ _ => rfl⟩ rfl (by simp [hst])⟩
  | seizing =>
    have ho := oneJob_cancelSeizing t x
    refine ensures_ok ⟨by rw [ho.length]; omega, ?_⟩
    rcases prnStatus_cancelSeizing hx hst p with hs | ⟨-, hs⟩
    · exact behind ho hs (by simp [hst])
    · left
      rw [hs]
      rfl
  | _ =>
    refine Ensures.bind (cancelJob_purge hx) fun u ⟨hul, hup, huj⟩ => ensures_ok ⟨by omega, ?_⟩
    rcases ht with ht | ⟨hp, z, hz, hz', hnz, hpz⟩
    · exact .inl (hup p ▸ ht)
    · have hzx : z ≠ x := by
        rintro rfl
        rw [hst] at hpz
        cases hpz
      have hj : u.job (z - 1) = t.job z := by
        rw [huj (z - 1) (by omega), Nat.sub_add_cancel (by omega)]
      exact .inr ⟨(hup p).trans hp, z - 1, by omega, by omega, hj ▸ hnz, hj ▸ hpz⟩

/-! ## Every run -/

/-- The status tells of a signal as soon as it has been sent. -/
theorem awaitsExit_of_kills {s t : Pprd} {ev : Event} {p : ℕ} (hb : InBounds s)
    (ho : OrderlyStop s ev) (hk : ev.kills s p) (hst : step os s ev = .ok t) :
    p < s.printerCount ∧ (t.prnStatus p).awaitsExit := by
  simp only [Event.kills, Bool.and_eq_true, Bool.or_eq_true] at hk
  obtain ⟨-, (hc | hh) | hh⟩ := hk
  · obtain ⟨q, hq, hqp⟩ := List.any_eq_true.1 hc
    simp only [Bool.and_eq_true, decide_eq_true_eq] at hqp
    have hp := hb.printing q hq p hqp.1
    obtain ⟨destid, id, subid, hnamed, hs⟩ := cancels_cases os hqp.2
    refine ⟨hp, cancelJobs_awaitsExit ?_ t (hs t hst)⟩
    refine (ho.cancel p hp hc).symm.imp_right fun h => ⟨h, ?_⟩
    obtain ⟨z, hz, rfl⟩ := mem_queue_iff.1 hq
    exact ⟨z, Nat.zero_le z, hz, (hnamed _).symm.trans hqp.2, hqp.1⟩
  · obtain ⟨x, hx, hxp⟩ := (Option.any_eq_true ..).1 hh
    have hxp : (s.job x).status = .printing p := by simpa using hxp
    obtain ⟨hlt, hs⟩ := holds_cases os hx
    have hp := hb.printing _ (job_mem hlt) p hxp
    have ht := hs t hst
    rw [holdJob, hxp] at ht
    cases ht
    have hcore := congrArg PrinterCore.status ((change_seize hlt hxp).core_of rfl)
    refine ⟨hp, ?_⟩
    rw [Pprd.prnStatus]
    change PrnStatus.awaitsExit (Printer.core _).status = true
    rw [hcore]
    simp only [Act.core]
    rw [if_neg (show ¬ (s.printers p).core.status = .deleted from ho.hold p hp hh)]
    rfl
  · obtain ⟨hp, hs, ht⟩ := halts_cases os hh
    refine ⟨hp, ?_⟩
    have ht := ht t hst
    have hnew : stopStatus true (s.prnStatus p) = some .halting := by
      rcases hs with hs | hs <;> rw [hs] <;> rfl
    rw [stopPrinter, hnew] at ht
    have hd : s.prnStatus p ≠ .deleted := by rcases hs with hs | hs <;> simp [hs]
    have hcore := congrArg PrinterCore.status (core_printerNewStatus .halting hd p)
    rw [if_pos rfl] at hcore
    rw [(frame_mediaStartstopUpdateWaitreason _ p t ht).prnStatus p,
      show (printerNewStatus s p .halting).prnStatus p = .halting from hcore]
    rfl

/-- A printer whose pprdrv has been sent a signal awaits its exit. -/
def SignalsKnown (hist : List (Pprd × Event)) (s : Pprd) : Prop :=
  ∀ p, signaled p hist → p < s.printerCount ∧ (s.prnStatus p).awaitsExit

theorem SignalsKnown.step {hist : List (Pprd × Event)} {s t : Pprd} {ev : Event}
    (h : SignalsKnown hist s) (hb : InBounds s) (hev : ev.possible) (ho : OrderlyStop s ev)
    (hst : step os s ev = .ok t) : SignalsKnown ((s, ev) :: hist) t := by
  intro p hp
  simp only [signaled, Bool.and_eq_true, Bool.or_eq_true, Option.isNone_iff_eq_none] at hp
  have hle : s.printerCount ≤ t.printerCount :=
    Trail.invariant (I := fun u => s.printerCount ≤ u.printerCount)
      (fun _ _ _ hu _ hc => hu.trans hc.printerCount_le) (step_acts hev t hst) le_rfl
  obtain ⟨hr, hk | hs⟩ := hp
  · have hk := awaitsExit_of_kills hb ho hk hst
    exact ⟨lt_of_lt_of_le hk.1 hle, hk.2⟩
  · have hs := h p hs
    exact ⟨lt_of_lt_of_le hs.1 hle, awaitsExit_step hev hst ho hs.1 hs.2 hr⟩

/-- In every run in which signals are sent in order, no exit that was asked for is taken for a
fault of the printer. -/
theorem requested_stop_no_fault {hist : List (Pprd × Event)} {s : Pprd}
    (run : Runs os (fun _ => True) OrderlyStop hist s) : StopIsNoFault os hist s := by
  have h : InBounds s ∧ SignalsKnown hist s := by
    refine run.history_invariant (I := fun hist s => InBounds s ∧ SignalsKnown hist s) ?_ ?_
    · rintro s ⟨b, -, -, hs⟩
      refine ⟨InBounds.boot b s hs, fun p hp => ?_⟩
      cases hp
    · rintro hist s ev t ⟨hb, h⟩ ⟨hev, ho, hst⟩
      exact ⟨hb.step hev hst, h.step hb hev ho hst⟩
  intro now pid w p hpid hfind hw hsig t ht
  have hst := (h.2 p hsig).2
  have hp := List.mem_range.1 (List.mem_of_find?_eq_some hfind)
  have he : (s.printers p).jobPid = pid := by simpa using List.find?_some hfind
  have hx : pprdrvExited os s p w = .ok t := by
    have : reapchild os now s pid w = .ok t := ht
    rwa [reapchild, hfind] at this
  refine ⟨pprdrvExited_ne_fault hp (by omega) hst hw t hx, ?_⟩
  exact (sameRetries_pprdrvExited (effectiveExitCode_of_awaitsExit hst hw) t hx p).le

/-- A daemon that finds a job for its only printer. -/
def oneJobBoot : Boot :=
  .ofFiles [("mud", ⟨[]⟩)] [] [(("mud", 1, 0), plainFile 50 1 1)]

theorem oneJobBoot_wf : oneJobBoot.Wf :=
  Boot.wf_ofFiles (by decide) (by decide) (by decide) (by decide)

/-- The job is canceled and then the printer is stopped. -/
theorem requested_stop_no_fault_canceled :
    ∃ hist s, Runs (fun _ => true) (fun _ => True) OrderlyStop hist s ∧ signaled 0 hist ∧
      StopIsNoFault (fun _ => true) hist s := by
  obtain ⟨hist, s, run, hs⟩ := exists_runs_replay (fun _ => true) (fun _ => True) OrderlyStop
    oneJobBoot_wf trivial
    [.ppop (.cancel "mud" 1 (-1)), .ppop (.stop "mud")] (P := fun hist _ => signaled 0 hist = true)
    (by decide +kernel)
  exact ⟨hist, s, run, hs, requested_stop_no_fault run⟩

/-- The printer is to stop after the job, the job is canceled, and the printer is started again: the
exit of the pprdrv that the daemon has killed is a fault. -/
theorem requested_stop_fault :
    ∃ os hist s, Runs os (fun _ => True) (fun _ _ => True) hist s ∧ ¬ StopIsNoFault os hist s := by
  obtain ⟨hist, s, run, hs, hf, ht⟩ := exists_runs_replay (fun _ => true) (fun _ => True)
    (fun _ _ => True) oneJobBoot_wf trivial
    [.ppop (.stop "mud"), .ppop (.cancel "mud" 1 (-1)), .ppop (.start "mud")]
    (P := fun hist s => signaled 0 hist = true ∧
      (List.range s.printerCount).find? (fun x => (s.printers x).jobPid = 1) = some 0 ∧
      (step (fun _ => true) s (.reapchild 0 1 (.exited 4))).toOption.any
        (fun t => t.prnStatus 0 = .fault) = true)
    (by decide +kernel)
  refine ⟨fun _ => true, hist, s, run, fun h => ?_⟩
  have h0 := h 0 1 (.exited 4) 0 (by decide) hf rfl hs
  cases hstep : step (fun _ => true) s (.reapchild 0 1 (.exited 4)) with
  | error e =>
    rw [hstep] at ht
    cases ht
  | ok t =>
    rw [hstep] at ht
    exact (h0 t hstep).1 (of_decide_eq_true ht)

end Ppr
