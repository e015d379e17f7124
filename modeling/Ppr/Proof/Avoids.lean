import Ppr.Proof.Steps

/-!
# Stops that do not occur

The daemon looks for a job that has just been seen in the queue, and indexes its tables with ids
that are stored in them.  `Stray` are the stops for a job that is not there and an index that is none
of the table; what is not said here to need anything avoids them in every state.
-/

namespace Ppr

open Outcome Machine

variable {os : ℕ → Bool}

/-- The stops for a job or a table entry that does not exist. -/
def Stray : Stop → Prop
  | .jobNotFound | .wildIndex => True
  | _ => False

theorem lt_of_waiting {s : Pprd} {x : ℕ} (h : (s.job x).status = .waiting) :
    x < s.queue.length := by
  by_contra hx
  rw [Pprd.job, List.getD_eq_default _ _ (by omega)] at h
  cases h

/-! ## Starting printers -/

theorem queueJobNewStatus_avoids {s : Pprd} {k : JobKey} {y : ℕ} (h : s.findJob k = some y)
    (st : JobStatus) : Avoids (queueJobNewStatus s k st) Stray := by
  unfold queueJobNewStatus
  rw [h]
  exact avoids_ok

theorem pprdrvStart_avoids (s : Pprd) (p x : ℕ) : Avoids (pprdrvStart os s p x) Stray := by
  unfold pprdrvStart
  dsimp only
  refine avoids_ite (fun _ => avoids_error id) fun hw => ?_
  refine avoids_ite (fun _ => avoids_error id) fun _ => ?_
  refine avoids_ite (fun _ => avoids_ok) fun _ => ?_
  refine avoids_ite (fun _ => avoids_ok) fun _ => ?_
  refine avoids_ite (fun _ => avoids_ok) fun _ => ?_
  obtain ⟨y, hy⟩ := findJob_of_lt (lt_of_waiting (not_not.1 hw))
  have hq := (printerOnly_printerNewStatus (pprdrvForked s p (s.job x)) p .printing).queue
  refine Avoids.bind (queueJobNewStatus_avoids (y := y) ?_ _) fun _ _ => avoids_ok
  rw [Pprd.findJob, hq]
  exact hy

theorem printerStart_avoids (s : Pprd) (p x : ℕ) : Avoids (printerStart os s p x) Stray := by
  unfold printerStart
  dsimp only
  refine avoids_ite (fun _ => avoids_error id) fun _ => ?_
  refine avoids_ite (fun _ => avoids_ok) fun _ => ?_
  refine avoids_ite (fun _ => avoids_ok) fun _ => ?_
  refine avoids_ite (fun _ => avoids_ok) fun _ => ?_
  exact avoids_ite (fun _ => avoids_ok) fun _ => pprdrvStart_avoids s p x

theorem printerLookForWork_avoids (s : Pprd) (p : ℕ) :
    Avoids (printerLookForWork os s p) Stray := by
  refine avoids_ite (fun _ => avoids_error id) fun _ => avoids_forLoop (fun x s => ?_) _ _ _
  exact avoids_ite (fun _ => (printerStart_avoids s p x).bind fun _ _ => avoids_ok)
    fun _ => avoids_ok

theorem lookForWorkIfIdle_avoids (s : Pprd) (p : ℕ) : Avoids (lookForWorkIfIdle os s p) Stray :=
  avoids_ite (fun _ => printerLookForWork_avoids s p) fun _ => avoids_ok

theorem groupLookForWork_avoids (s : Pprd) {g : ℕ} (hg : g < maxGroups) :
    Avoids (groupLookForWork os s g) Stray :=
  avoids_ite (fun _ => avoids_foldlM (fun s p _ => lookForWorkIfIdle_avoids s p) s)
    fun h => absurd hg h

theorem printerTryStart_avoids (s : Pprd) (x : ℕ) : Avoids (printerTryStart os s x) Stray := by
  refine avoids_ite (fun _ => avoids_error id) fun _ => avoids_ite (fun _ => ?_) fun _ => ?_
  · refine avoids_forLoop (fun i s => ?_) _ _ _
    exact (printerStart_avoids s _ x).bind fun _ _ => avoids_ok
  · exact (printerStart_avoids s _ x).bind fun _ _ => avoids_ok

/-! ## The end of a pprdrv -/

theorem exitReport_avoids (s : Pprd) (p : ℕ) (e : ExitCode) :
    Avoids (exitReport s p e) Stray := by
  cases e with
  | incapable =>
    simp only [exitReport, exitIncapable]
    split
    · exact avoids_error id
    · refine avoids_ite (fun _ => avoids_ok) fun _ => avoids_ite (fun _ => ?_) fun _ => avoids_ok
      exact avoids_ite (fun _ => avoids_ok) fun _ => avoids_ok
  | _ => exact avoids_ok

theorem queueDequeueJob_avoids (s : Pprd) (k : JobKey) : Avoids (queueDequeueJob s k) Stray := by
  unfold queueDequeueJob
  split
  · exact avoids_ok
  · exact avoids_ite (fun _ => avoids_ok) fun _ => avoids_error id

theorem exitPrinter_avoids (s : Pprd) (p : ℕ) (st : PrnStatus) :
    Avoids (exitPrinter os s p st) Stray :=
  lookForWorkIfIdle_avoids _ p

/-- The job of a pprdrv that ends is looked for in the queue. -/
theorem pprdrvExited_avoids {s : Pprd} {p y : ℕ} (h : s.findJob (s.printers p).jobKey = some y)
    (w : WaitStatus) : Avoids (pprdrvExited os s p w) Stray := by
  unfold pprdrvExited
  generalize effectiveExitCode (s.prnStatus p) w = e
  refine (exitReport_avoids _ p e).bind ?_
  rintro ⟨r, st⟩ hr
  obtain ⟨hr, -⟩ := exitReport_ensures (pprdrvReaped s p) p e _ hr
  have hR := reaped_of_frame hr
  dsimp only
  refine Avoids.bind ?_ fun u _ => exitPrinter_avoids u p _
  unfold exitJob
  dsimp only
  rw [hR.jobKey]
  refine avoids_ite (fun _ => ?_) fun _ => ?_
  · exact (queueDequeueJob_avoids _ _).bind fun _ _ => avoids_ok
  · have hy := (findJob_of_queueFrame hR.queue _).trans h
    refine (queueJobNewStatus_avoids hy _).bind fun r _ => ?_
    exact avoids_ite (fun _ => printerTryStart_avoids _ _) fun _ => avoids_ok

/-! ## Media and questions -/

theorem getMediaId_avoids (s : Pprd) (name : String) : Avoids (getMediaId s name) Stray := by
  refine avoids_ite (fun _ => avoids_ok) fun _ => ?_
  split
  · exact avoids_ok
  · exact avoids_ite (fun _ => avoids_error id) fun _ => avoids_ok

theorem getMediaIds_avoids (s : Pprd) (names : List String) :
    Avoids (getMediaIds s names) Stray := by
  induction names generalizing s with
  | nil => exact avoids_ok
  | cons m ms ih =>
    exact (getMediaId_avoids s m).bind fun r _ => (ih r.1).bind fun _ _ => avoids_ok

theorem groupsInRange_avoids (s : Pprd) : Avoids (groupsInRange s) Stray :=
  avoids_ite (fun _ => avoids_ok) fun _ => avoids_error id

theorem mediaStartstopUpdateWaitreason_avoids (s : Pprd) (p : ℕ) :
    Avoids (mediaStartstopUpdateWaitreason s p) Stray :=
  (groupsInRange_avoids s).bind fun _ _ => avoids_ok

theorem mediaUpdateNotnow_avoids (s : Pprd) (p : ℕ) : Avoids (mediaUpdateNotnow s p) Stray :=
  (groupsInRange_avoids s).bind fun _ _ => avoids_ok

theorem mediaMountedRecover_avoids (s : Pprd) (p : ℕ) :
    Avoids (mediaMountedRecover s p) Stray := by
  unfold mediaMountedRecover
  split
  · exact avoids_ok
  · refine avoids_foldlM (fun s b _ => ?_) s
    exact avoids_ite (fun _ => (getMediaId_avoids s b.2).bind fun _ _ => avoids_ok)
      fun _ => avoids_ok

theorem questionLaunch_avoids (s : Pprd) (x : ℕ) : Avoids (questionLaunch os s x) Stray := by
  unfold questionLaunch
  split
  · exact avoids_error id
  · exact avoids_ite (fun _ => avoids_ok) fun _ => avoids_ok

theorem questionScan_avoids (now : ℤ) (n x count : ℕ) (s : Pprd) :
    Avoids (questionScan os now n x count s) Stray := by
  induction n generalizing x count s with
  | zero => exact avoids_ok
  | succ n ih =>
    refine avoids_ite (fun _ => avoids_ite (fun _ => ?_) fun _ => ih _ _ _) fun _ => avoids_ok
    refine Avoids.bind ?_ fun t _ => ih _ _ t
    exact avoids_ite (fun _ => questionLaunch_avoids s x) fun _ => avoids_ok

theorem questionLookForWork_avoids (now : ℤ) (s : Pprd) :
    Avoids (questionLookForWork os now s) Stray :=
  avoids_ite (fun _ => questionScan_avoids now _ _ _ s) fun _ => avoids_ok

theorem questionJob_avoids (s : Pprd) (x : ℕ) : Avoids (questionJob os s x) Stray :=
  avoids_ite (fun _ => questionLaunch_avoids _ x) fun _ => avoids_ok

theorem questionChildHook_avoids (now : ℤ) (s : Pprd) (pid : ℤ) (w : WaitStatus) :
    Avoids (questionChildHook os now s pid w) Stray := by
  unfold questionChildHook
  split
  · exact avoids_ok
  · refine Avoids.bind ?_ fun t _ => questionLookForWork_avoids now _
    unfold questionAsked
    split
    · exact avoids_ok
    · exact avoids_ite (fun _ => avoids_error id) fun _ => avoids_ok

theorem questionOnOff_avoids (s : Pprd) (x : ℕ) (onOff : Bool) :
    Avoids (questionOnOff os s x onOff) Stray := by
  refine Avoids.bind ?_ fun _ _ => avoids_ok
  refine avoids_ite (fun _ => ?_) fun _ => avoids_ok
  exact avoids_ite (fun _ => questionJob_avoids _ x) fun _ => avoids_ok

/-! ## Submissions and configurations -/

theorem queueAccepted_avoids (s : Pprd) (x : ℕ) (jobIsNew : Bool) :
    Avoids (queueAccepted os s x jobIsNew) Stray := by
  refine Avoids.bind ?_ fun t _ => ?_
  · exact avoids_ite (fun _ => questionJob_avoids s x) fun _ => avoids_ok
  · exact avoids_ite (fun _ => printerTryStart_avoids t x) fun _ => avoids_ok

theorem queueAcceptQueuefile_avoids (s : Pprd) (name : QName) (jobIsNew reloadJob : Bool) :
    Avoids (queueAcceptQueuefile os s name jobIsNew reloadJob) Stray := by
  unfold queueAcceptQueuefile
  split
  · refine avoids_ite (fun _ => avoids_ok) fun _ => (getMediaIds_avoids s _).bind fun r _ => ?_
    refine avoids_ite (fun _ => ?_) fun _ => avoids_ite (fun _ => avoids_ok) fun _ =>
      queueAccepted_avoids _ _ _
    split
    · exact avoids_ok
    · exact queueAccepted_avoids _ _ _
  · exact avoids_ok

theorem queueNewJob_avoids (s : Pprd) : Avoids (queueNewJob os s) Stray := by
  unfold queueNewJob
  split
  · exact avoids_ok
  · exact queueAcceptQueuefile_avoids _ _ _ _
  · exact queueAcceptQueuefile_avoids _ _ _ _

theorem newPrinterConfig_avoids (s : Pprd) (n : String) (conf : Option PrinterConf) :
    Avoids (newPrinterConfig os s n conf) Stray := by
  unfold newPrinterConfig
  split
  · split
    · exact avoids_ok
    · refine (mediaMountedRecover_avoids _ _).bind fun _ _ => ?_
      exact (mediaUpdateNotnow_avoids _ _).bind fun _ _ => lookForWorkIfIdle_avoids _ _
  · cases conf with
    | none => exact avoids_ite (fun _ => avoids_ok) fun _ => avoids_ok
    | some conf =>
      refine avoids_ite (fun _ => avoids_ok) fun _ => ?_
      exact (mediaMountedRecover_avoids _ _).bind fun _ _ => avoids_ok

/-- The group that looks for work has the number of queue entries for its index. -/
theorem newGroupConfig_avoids {s : Pprd} {n : String} {conf : Option GroupConf}
    (hslot : groupSlot s n ≤ maxGroups)
    (hlook : ∀ c, conf = some c → groupSlot s n < maxGroups → c.rotate ≠ some none →
      s.queue.length < maxGroups) : Avoids (newGroupConfig os s n conf) Stray := by
  rw [newGroupConfig_eq]
  refine avoids_ite (fun _ => avoids_ok) fun hne => avoids_ite (fun hgt => by omega) fun _ => ?_
  cases conf with
  | none => exact avoids_ite (fun _ => avoids_ok) fun _ => avoids_ok
  | some conf =>
    have hload := loadGroup_ensures (withGroup s (groupSlot s n)) (groupSlot s n) n conf
    have hinvalid : conf.rotate = some none → ∀ s x,
        loadGroup s x n conf = .error .invalidRotate := by
      intro h s x
      rw [loadGroup, h]
      rfl
    refine Avoids.bind ?_ fun t ht => groupLookForWork_avoids _ ?_
    · unfold loadGroup
      dsimp only
      split
      · exact avoids_error id
      · exact avoids_ok
    · have hrotate : conf.rotate ≠ some none := by
        intro h
        rw [hinvalid h] at ht
        cases ht
      obtain ⟨c, -, -, -, rfl⟩ := hload t ht
      rw [(frame_forJobsOf (destidByGindex (groupSlot s n)) frame_resetGroupJob _).queue.length]
      exact hlook conf rfl (by omega) hrotate

/-! ## Commands -/

theorem cancelJobs_avoids (s : Pprd) (destid : Option ℕ) (id subid : ℤ) :
    Avoids (cancelJobs s destid id subid) Stray := by
  refine avoids_forLoop (fun x s => avoids_ite (fun _ => ?_) fun _ => avoids_ok) _ _ _
  unfold cancelJob
  split
  · exact avoids_ok
  · exact avoids_ok
  · exact avoids_ok
  · exact (queueDequeueJob_avoids _ _).bind fun _ _ => avoids_ok

/-- A job that is canceled can't be held. -/
theorem holdJob_avoids {s : Pprd} {x : ℕ} (h : (s.job x).status ≠ .cancel) :
    Avoids (holdJob s x) Stray := by
  unfold holdJob
  split
  · exact avoids_ok
  · exact avoids_ok
  · rename_i hc
    exact absurd hc h
  · exact avoids_ok
  · exact avoids_ok

theorem releaseJob_avoids (s : Pprd) (x : ℕ) : Avoids (releaseJob os s x) Stray :=
  avoids_ite (fun _ => printerTryStart_avoids _ x) fun _ => avoids_ok

theorem moveJob_avoids (s : Pprd) (x d : ℕ) (n : String) : Avoids (moveJob os s x d n) Stray :=
  avoids_ite (fun _ => printerTryStart_avoids _ x) fun _ => avoids_ok

theorem startPrinter_avoids (s : Pprd) (p : ℕ) : Avoids (startPrinter os s p) Stray := by
  unfold startPrinter
  split
  · exact (mediaStartstopUpdateWaitreason_avoids _ p).bind fun t _ => printerLookForWork_avoids t p
  · exact (mediaStartstopUpdateWaitreason_avoids _ p).bind fun t _ => printerLookForWork_avoids t p
  · exact mediaStartstopUpdateWaitreason_avoids _ p
  · exact avoids_ok

theorem stopPrinter_avoids (s : Pprd) (p : ℕ) (halt : Bool) :
    Avoids (stopPrinter s p halt) Stray := by
  unfold stopPrinter
  split
  · exact avoids_ok
  · exact mediaStartstopUpdateWaitreason_avoids _ p

theorem withPrinter_avoids {s : Pprd} {n : String} {f : ℕ → Except Stop (Pprd × PpopReply)}
    (h : ∀ p, Avoids (f p) Stray) : Avoids (withPrinter s n f) Stray := by
  unfold withPrinter
  split
  · exact avoids_ok
  · exact avoids_ite (fun _ => avoids_ok) fun _ => h _

theorem withJob_avoids {s : Pprd} {n : String} {id subid : ℤ}
    {f : ℕ → Except Stop (Pprd × PpopReply)}
    (h : ∀ x, ((destidByName s n).bind fun destid => s.queue.findIdx? fun q =>
      q.destid = destid ∧ q.id = id ∧ (subid = wildcard ∨ q.subid = subid)) = some x →
      Avoids (f x) Stray) : Avoids (withJob s n id subid f) Stray := by
  unfold withJob
  split
  · exact avoids_ok
  · rename_i d hd
    split
    · exact avoids_ok
    · rename_i x hx
      exact h x (by rw [hd]; exact hx)

theorem ppopStop_avoids (s : Pprd) (n : String) (halt : Bool) (wait : Option ℤ) :
    Avoids (ppopStop s n halt wait) Stray := by
  refine withPrinter_avoids fun p => (stopPrinter_avoids s p halt).bind fun t _ => ?_
  split
  · exact avoids_ok
  · exact avoids_ok
  · exact avoids_ok
  · cases wait with
    | none => exact avoids_ok
    | some pid => exact avoids_ite (fun _ => avoids_ok) fun _ => avoids_ok

theorem ppopDispatch_avoids {s : Pprd} {c : PpopCommand}
    (hhold : ∀ n id subid x, c = .hold n id subid →
      ((destidByName s n).bind fun destid => s.queue.findIdx? fun q =>
        q.destid = destid ∧ q.id = id ∧ (subid = wildcard ∨ q.subid = subid)) = some x →
      (s.job x).status ≠ .cancel) : Avoids (ppopDispatch os s c) Stray := by
  cases c with
  | start n =>
    exact withPrinter_avoids fun p => (startPrinter_avoids _ p).bind fun _ _ => avoids_ok
  | stop n => exact ppopStop_avoids s n false none
  | wstop n pid => exact ppopStop_avoids s n false (some pid)
  | halt n => exact ppopStop_avoids s n true none
  | hold n id subid =>
    refine withJob_avoids fun x hx => ?_
    exact (holdJob_avoids (hhold n id subid x rfl hx)).bind fun _ _ => avoids_ok
  | release n id subid =>
    refine withJob_avoids fun x _ => ?_
    split
    · exact (releaseJob_avoids s x).bind fun _ _ => avoids_ok
    · exact (releaseJob_avoids s x).bind fun _ _ => avoids_ok
    · exact avoids_ok
    · exact avoids_ok
  | cancel n id subid =>
    refine avoids_ite (fun _ => avoids_ok) fun _ => (cancelJobs_avoids s _ id subid).bind ?_
    exact fun _ _ => avoids_ite (fun _ => avoids_ok) fun _ => avoids_ok
  | mount prn bin medium =>
    refine withPrinter_avoids fun p => avoids_ite (fun _ => ?_) fun _ => avoids_ok
    refine (getMediaId_avoids s medium).bind fun r _ => ?_
    refine (mediaUpdateNotnow_avoids _ p).bind fun t _ => ?_
    exact (lookForWorkIfIdle_avoids t p).bind fun _ _ => avoids_ok
  | accept n | reject n =>
    simp only [ppopDispatch, ppopAcceptReject]
    split <;> exact avoids_ok
  | move n id subid n' =>
    simp only [ppopDispatch, ppopMove]
    split
    · refine Avoids.bind (avoids_forLoop (fun x s => ?_) _ _ _) fun _ _ =>
        avoids_ite (fun _ => avoids_ok) fun _ => avoids_ok
      refine avoids_ite (fun _ => ?_) fun _ => avoids_ok
      split
      · exact avoids_ok
      · exact (moveJob_avoids s x _ n').bind fun _ _ => avoids_ok
    · exact avoids_ok
  | rush n id subid pos => exact withJob_avoids fun _ _ => avoids_ok
  | modifyQuestion n id subid onOff =>
    exact withJob_avoids fun x _ => (questionOnOff_avoids s x onOff).bind fun _ _ => avoids_ok

/-- Accepting or rejecting jobs for a printer looks its name up among the groups. -/
def IppCommand.acceptsGroup (s : Pprd) : IppCommand → Bool
  | .acceptJobs (.printer n) | .rejectJobs (.printer n) => (destidByGroup s n).isSome
  | _ => false

theorem cupsAcceptOrRejectJobs_avoids {s : Pprd} {accepting : Bool} {target : IppTarget}
    (h : ∀ n, target = .printer n → destidByGroup s n = none) :
    Avoids (cupsAcceptOrRejectJobs s accepting target) Stray := by
  cases target with
  | other => exact avoids_ok
  | group n =>
    simp only [cupsAcceptOrRejectJobs]
    split <;> exact avoids_ok
  | printer n =>
    simp only [cupsAcceptOrRejectJobs, h n rfl]
    exact avoids_ok

theorem ippCancelJobCore_avoids (s : Pprd) (destid : Option ℕ) (jobid : ℤ) :
    Avoids (ippCancelJobCore s destid jobid) Stray :=
  (cancelJobs_avoids s destid jobid wildcard).bind fun _ _ =>
    avoids_ite (fun _ => avoids_ok) fun _ => avoids_ok

theorem ippDispatch_avoids {s : Pprd} {c : IppCommand}
    (hresume : ∀ n d, c = .resumePrinter (.group n) → destidByGroup s n = some d →
      destidToGindex d < maxGroups)
    (hhold : ∀ jobid x, c = .holdJob jobid → findJobid s jobid = some x →
      (s.job x).status ≠ .cancel)
    (haccept : c.acceptsGroup s = false) : Avoids (ippDispatch os s c) Stray := by
  cases c with
  | cancelJob jobid => exact ippCancelJobCore_avoids s none jobid
  | holdJob jobid =>
    simp only [ippDispatch, ippHoldJob]
    split
    · exact avoids_ok
    · rename_i x hx
      exact (holdJob_avoids (hhold jobid x rfl hx)).bind fun _ _ => avoids_ok
  | releaseJob jobid =>
    simp only [ippDispatch, ippReleaseJob]
    split
    · exact avoids_ok
    · split
      · exact (releaseJob_avoids s _).bind fun _ _ => avoids_ok
      all_goals exact avoids_ok
  | pausePrinter target =>
    cases target with
    | other => exact avoids_ok
    | group n =>
      simp only [ippDispatch, ippPausePrinter]
      split <;> exact avoids_ok
    | printer n =>
      simp only [ippDispatch, ippPausePrinter]
      split
      · exact avoids_ok
      · split
        all_goals first | exact avoids_ok |
          exact (stopPrinter_avoids s _ true).bind fun _ _ => avoids_ok
  | resumePrinter target =>
    cases target with
    | other => exact avoids_ok
    | group n =>
      simp only [ippDispatch, ippResumePrinter]
      split
      · exact avoids_ok
      · rename_i d hd
        exact (groupLookForWork_avoids _ (hresume n d rfl hd)).bind fun _ _ => avoids_ok
    | printer n =>
      simp only [ippDispatch, ippResumePrinter]
      split
      · exact avoids_ok
      · exact (startPrinter_avoids s _).bind fun _ _ => avoids_ok
  | purgeJobs target =>
    cases target with
    | other => exact avoids_ok
    | group n | printer n =>
      simp only [ippDispatch, ippPurgeJobs]
      split
      · exact avoids_ok
      · exact ippCancelJobCore_avoids s _ _
  | acceptJobs target | rejectJobs target =>
    refine cupsAcceptOrRejectJobs_avoids ?_
    rintro n rfl
    simpa [IppCommand.acceptsGroup] using haccept
  | moveJob jobid target =>
    simp only [ippDispatch, cupsMoveJob]
    split
    · exact avoids_ok
    · split
      · exact avoids_ok
      · split
        · exact avoids_ok
        · exact (moveJob_avoids s _ _ _).bind fun _ _ => avoids_ok

/-! ## The timer -/

theorem printerTick_avoids (s : Pprd) : Avoids (printerTick os s) Stray := by
  refine Avoids.bind (avoids_foldlM (fun s p _ => ?_) s) fun t _ => ?_
  · unfold retryPrinter
    dsimp only
    refine avoids_ite (fun _ => ?_) fun _ => avoids_ok
    exact avoids_ite (fun _ => printerLookForWork_avoids _ p) fun _ => avoids_ok
  · refine avoids_ite (fun _ => avoids_forLoop (fun _ s => ?_) _ _ _) fun _ => avoids_ok
    refine avoids_ite (fun _ => ?_) fun _ => avoids_ok
    refine Avoids.bind ?_ fun _ _ => avoids_ok
    exact avoids_ite (fun _ => printerLookForWork_avoids _ _) fun _ => avoids_ok

theorem reapchild_avoids {s : Pprd}
    (h : ∀ p < s.printerCount, (s.printers p).jobPid ≠ 0 →
      ∃ y, s.findJob (s.printers p).jobKey = some y)
    (now : ℤ) {pid : ℤ} (hpid : 0 < pid) (w : WaitStatus) :
    Avoids (reapchild os now s pid w) Stray := by
  unfold reapchild
  split
  · rename_i p hp
    have he : (s.printers p).jobPid = pid := by simpa using List.find?_some hp
    obtain ⟨y, hy⟩ := h p (List.mem_range.1 (List.mem_of_find?_eq_some hp)) (by omega)
    exact pprdrvExited_avoids hy w
  · exact questionChildHook_avoids now s pid w

end Ppr
