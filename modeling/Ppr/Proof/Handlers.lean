import Ppr.Proof.Start

/-!
# The handlers as paths of acts

Each function of the daemon that is more than a scan is a path of acts.  A handler's theorem asks
for the permission of the acts it can do besides starting printers, in terms of the state it starts
in.
-/

namespace Ppr

open Outcome Machine

variable {K : Act → Pprd → Prop} {os : ℕ → Bool}

/-! ## Printers -/

theorem act_status {s : Pprd} {p : ℕ} {st : PrnStatus} (hK : K (.status p st) s)
    (hold : s.prnStatus p ≠ .deleted) (hnew : st ≠ .deleted) (hp : p < s.printerCount) :
    Acts K s (printerNewStatus s p st) :=
  Trail.single hK (change_status hold hnew hp)

theorem stopStatus_ne_deleted {halt : Bool} {old new : PrnStatus}
    (h : stopStatus halt old = some new) : old ≠ .deleted ∧ new ≠ .deleted := by
  cases old <;> cases halt <;> simp_all [stopStatus] <;> subst h <;> simp

theorem stopPrinter_acts (hK : Base K) {s : Pprd} {p : ℕ} (halt : Bool) (hp : p < s.printerCount)
    (hs : ∀ st, stopStatus halt (s.prnStatus p) = some st → K (.status p st) s) :
    Ensures (stopPrinter s p halt) (Acts K s) := by
  unfold stopPrinter
  split
  · exact ensures_ok (.refl s)
  · rename_i st hst
    have h := stopStatus_ne_deleted hst
    refine (frame_mediaStartstopUpdateWaitreason _ p).mono fun t ht => hK.acts_then_frame ?_ ht
    exact act_status (hs st hst) h.1 h.2 hp

/-- A printer that is stopt or waits to be tried again becomes idle. -/
theorem retry_acts (hK : Base K) {s : Pprd} {p : ℕ} (hp : p < s.printerCount)
    (h : s.prnStatus p = .fault ∨ s.prnStatus p = .engaged ∨ s.prnStatus p = .stopt) :
    Acts K s (printerNewStatus s p .idle) :=
  act_status (hK.retry p s h) (by rcases h with h | h | h <;> simp [h]) (by simp) hp

theorem startPrinter_acts (hK : Base K) {s : Pprd} {p : ℕ} (hp : p < s.printerCount) :
    Ensures (startPrinter os s p) (Acts K s) := by
  have idle : s.prnStatus p = .fault ∨ s.prnStatus p = .stopt →
      Ensures (do
        let s ← mediaStartstopUpdateWaitreason (printerNewStatus s p .idle) p
        printerLookForWork os s p) (Acts K s) := by
    intro h
    refine Ensures.bind (frame_mediaStartstopUpdateWaitreason _ p) fun t ht => ?_
    have hn : t.printerCount = s.printerCount :=
      ht.printerCount.trans (printerOnly_printerNewStatus s p .idle).printerCount
    refine (printerLookForWork_starts (.inl (hn ▸ hp))).mono fun u hu => ?_
    exact (hK.acts_then_frame (retry_acts hK hp (h.imp_right .inr)) ht).trans (hu.acts hK)
  unfold startPrinter
  split
  · rename_i h
    exact idle (.inl h)
  · rename_i h
    exact idle (.inr h)
  · rename_i h
    refine (frame_mediaStartstopUpdateWaitreason _ p).mono fun t ht => hK.acts_then_frame ?_ ht
    exact act_status (hK.goOn p s h) (by simp [h]) (by simp) hp
  · exact ensures_ok (.refl s)

/-! ## The timer -/

theorem Frame.prnStatus {s t : Pprd} (h : Frame s t) (p : ℕ) : t.prnStatus p = s.prnStatus p :=
  congrArg PrinterCore.status (h.printers p)

theorem retryPrinter_acts (hK : Base K) {s : Pprd} {p : ℕ} (hp : p < s.printerCount) :
    Ensures (retryPrinter os s p) (Acts K s) := by
  refine ensures_ite (fun hc => ?_) fun _ => ensures_ok (.refl s)
  let t := s.modifyPrinter p fun p =>
    { p with spoolState.countdown := p.spoolState.countdown - tickInterval }
  have ht : Frame s t := frame_modifyPrinter s p rfl
  refine ensures_ite (fun _ => ?_) fun _ => ensures_ok (hK.acts_frame ht)
  have hst : t.prnStatus p = .fault ∨ t.prnStatus p = .engaged := by
    rw [ht.prnStatus]
    exact hc.imp (fun h => h.1) id
  have hn := (printerOnly_printerNewStatus t p .idle).printerCount
  refine (printerLookForWork_starts (.inl (hn ▸ hp))).mono fun u hu => ?_
  exact (hK.frame_acts ht (retry_acts hK hp (hst.imp_right .inl))).trans (hu.acts hK)

theorem change_feed {s : Pprd} {p : ℕ} (hp : p < s.printerCount) (h : s.prnStatus p = .starved) :
    Change (.feed p) s
      { printerNewStatus s p .idle with
        starvingPrinters := (printerNewStatus s p .idle).starvingPrinters - 1 } := by
  have ho := printerOnly_printerNewStatus s p .idle
  have hd : s.prnStatus p ≠ .deleted := by simp [h]
  exact {
    ok := ⟨h, hp⟩
    queue := ⟨s.queue, .refl _, ho.queue⟩
    printer := fun p' => by
      refine (core_printerNewStatus .idle hd p').trans ?_
      simp only [Act.printer?, Option.some.injEq, eq_comm (a := p)]
      rfl
    printerCount := ho.printerCount
    group := fun g => congrArg (fun f => (f g).core) ho.groups
    groupCount := ho.groupCount
    active := ho.activePrinters.trans (add_zero _).symm
    starving := congrArg (· - 1) ho.starvingPrinters
    files := fun _ n => congrArg (fun f => (f n).isSome) ho.files
    fifo := fun _ => ho.fifo
    pprs := fun _ => ho.pprs }

theorem feedPrinter_acts (hK : Base K) {s : Pprd} {p : ℕ} (hp : p < s.printerCount) :
    Ensures (feedPrinter os s p) (Acts K s) := by
  refine ensures_ite (fun h => ?_) fun _ => ensures_ok (.refl s)
  have hn := (printerOnly_printerNewStatus s p .idle).printerCount
  refine (printerLookForWork_starts (.inl ?_)).mono fun u hu => ?_
  · exact hn ▸ hp
  · exact (Trail.single (hK.feed p s) (change_feed hp h)).trans (hu.acts hK)

theorem hungryRound_acts (hK : Base K) {s : Pprd} (hp : 0 < s.printerCount) :
    Ensures (hungryRound os s) fun f => Acts K s f.state := by
  refine ensures_ite (fun _ => ?_) fun _ => ensures_ok (.refl s)
  let t := if s.hungryX ≥ s.printerCount then { s with hungryX := 0 } else s
  have ht : Frame s t := by
    unfold t
    split_ifs
    · exact { Frame.refl s with }
    · rfl
  have hx : t.hungryX < t.printerCount := by
    unfold t
    split_ifs with h
    · exact hp
    · exact not_le.1 h
  refine Ensures.bind (feedPrinter_acts hK hx) fun u hu => ensures_ok ?_
  exact hK.acts_then_frame (hK.frame_acts ht hu) { Frame.refl u with }

theorem printerTick_acts (hK : Base K) (s : Pprd) : Ensures (printerTick os s) (Acts K s) := by
  -- No act of the timer takes a new slot, so that the loops are over the printers of the table.
  suffices h : Ensures (printerTick os s) (Acts (fun a s => K a s ∧ a.isNew = false) s) from
    h.mono fun t ht => ht.weaken fun _ _ h => h.1
  have hK' := hK.not_new
  refine Ensures.bind (Q := Acts (fun a s => K a s ∧ a.isNew = false) s)
    (ensures_foldlM (fun t p hp ht => ?_) (.refl s)) fun t ht => ?_
  · refine (retryPrinter_acts hK' ?_).mono fun u => ht.trans
    rw [ht.printerCount_eq]
    exact List.mem_range.1 hp
  · have h0 : Frame t { t with hungryCountdown := t.hungryCountdown - tickInterval } :=
      { Frame.refl t with }
    refine ensures_ite (fun _ => ?_) fun _ => ensures_ok (hK'.acts_then_frame ht h0)
    refine forLoop_ensures
      (fun n _ u => n ≤ t.printerCount ∧ Acts (fun a s => K a s ∧ a.isNew = false) t u)
      (Acts (fun a s => K a s ∧ a.isNew = false) s) (fun _ u hu => ht.trans hu.2)
      (fun n x u ⟨hn, hu⟩ => ?_) _ 0 _ ⟨le_rfl, hK'.acts_frame { Frame.refl t with }⟩
    refine (hungryRound_acts hK' (s := u) (by rw [hu.printerCount_eq]; omega)).mono fun f hf => ?_
    have hv := hu.trans hf
    cases f with
    | next v | again v => exact ⟨by omega, hv⟩
    | stop v => exact ht.trans hv

/-! ## Canceling -/

/-- An act that gives one entry a new status and changes one printer. -/
theorem Change.of_job {a : Act} {s u : Pprd} {x : ℕ} {st : JobStatus} (h : PrinterOnly s u)
    (hok : a.ok s)
    (hc : ∀ p, (u.printers p).core =
      if a.printer? = some p then a.core (a.key s) (s.printers p).core else (s.printers p).core)
    (hq : ∀ l, a.queue l = l.modify x fun q => { q with status := st })
    (hn : a.printerCount s = s.printerCount) (hg : a.group? = none)
    (hgn : a.groupCount s = s.groupCount) (ha : a.active = 0) (hs : a.starving = 0)
    (hf : ∀ f, a.files s f = f) : Change a s (queuePJobNewStatus u x st) where
  ok := hok
  queue := ⟨s.queue, .refl _, by rw [hq, ← h.queue]; rfl⟩
  printer := hc
  printerCount := h.printerCount.trans hn.symm
  group g := by
    rw [hg]
    exact congrArg (fun f => (f g).core) h.groups
  groupCount := h.groupCount.trans hgn.symm
  active := by rw [ha, add_zero]; exact h.activePrinters
  starving := by rw [hs, add_zero]; exact h.starvingPrinters
  files _ n := by
    rw [hf]
    exact (isSome_writeLine _ _ n _).trans (congrArg (fun f => (f n).isSome) h.files)
  fifo _ := h.fifo
  pprs _ := h.pprs

/-- Give a printer a new status if it has a certain one. -/
theorem core_statusIf (s : Pprd) (p : ℕ) (old new : PrnStatus) (hold : old ≠ .deleted) (p' : ℕ) :
    ((if s.prnStatus p = old then printerNewStatus s p new else s).printers p').core =
      if p' = p then
        { (s.printers p').core with
          status := if (s.printers p').core.status = old then new else (s.printers p').core.status }
      else (s.printers p').core := by
  by_cases h : s.prnStatus p = old
  · rw [if_pos h, core_printerNewStatus new (h ▸ hold)]
    by_cases hp : p' = p
    · subst hp
      simp only [if_true, if_pos (show (s.printers p').core.status = old from h)]
    · simp only [hp, if_false]
  · rw [if_neg h]
    by_cases hp : p' = p
    · subst hp
      simp only [if_true, if_neg (show ¬ (s.printers p').core.status = old from h)]
    · simp only [hp, if_false]

theorem printerOnly_statusIf (s : Pprd) (p : ℕ) (old new : PrnStatus) :
    PrinterOnly s (if s.prnStatus p = old then printerNewStatus s p new else s) := by
  split_ifs
  · exact printerOnly_printerNewStatus s p new
  · exact ⟨rfl, rfl, rfl, rfl, rfl, rfl, rfl, rfl, rfl⟩

theorem change_cancel {s : Pprd} {x p : ℕ} (hx : x < s.queue.length)
    (h : (s.job x).status = .printing p) :
    Change (.cancel x p) s (cancelPrinting s x p) := by
  refine .of_job ((printerOnly_statusIf s p .printing .canceling).trans
    (printerOnly_modifyPrinter _ p _)) ⟨hx, h⟩ (fun p' => ?_) (fun _ => rfl) rfl rfl rfl rfl rfl
    fun _ => rfl
  rw [core_modifyPrinter_of _ p p' (fun c => { c with cancelJob := true }) fun _ => rfl,
    core_statusIf s p .printing .canceling (by simp) p']
  simp only [Act.printer?, Option.some.injEq, eq_comm (a := p)]
  by_cases hp : p' = p
  · simp only [hp, if_true]
    rfl
  · simp only [hp, if_false]

theorem change_cancelSeizing {s : Pprd} {x p : ℕ} (hx : x < s.queue.length)
    (h : (s.job x).status = .seizing)
    (hp : (List.range s.printerCount).find? (fun p => (s.printers p).jobKey = (s.job x).key) =
      some p) :
    Change (.cancelSeizing x p) s (cancelSeizing s x) := by
  unfold cancelSeizing
  rw [hp]
  refine .of_job ((printerOnly_statusIf s p .seizing .canceling).trans
    (printerOnly_modifyPrinter _ p _)) ⟨hx, h, hp⟩ (fun p' => ?_) (fun _ => rfl) rfl rfl rfl rfl
    rfl fun _ => rfl
  rw [core_modifyPrinter_of _ p p' (fun c => { c with holdJob := false, cancelJob := true })
    fun _ => rfl, core_statusIf s p .seizing .canceling (by simp) p']
  simp only [Act.printer?, Option.some.injEq, eq_comm (a := p)]
  by_cases hp : p' = p
  · simp only [hp, if_true]
    rfl
  · simp only [hp, if_false]

theorem change_seize {s : Pprd} {x p : ℕ} (hx : x < s.queue.length)
    (h : (s.job x).status = .printing p) :
    Change (.seize x p) s
      ((printerNewStatus (queuePJobNewStatus s x .seizing) p .seizing).modifyPrinter p
        fun p => { p with holdJob := true }) := by
  let t := queuePJobNewStatus s x .seizing
  have ho : PrinterOnly t ((printerNewStatus t p .seizing).modifyPrinter p
      fun p => { p with holdJob := true }) :=
    (printerOnly_printerNewStatus t p .seizing).trans (printerOnly_modifyPrinter _ p _)
  exact {
    ok := ⟨hx, h⟩
    queue := ⟨s.queue, .refl _, ho.queue⟩
    printer := fun p' => by
      rw [core_modifyPrinter_of _ p p' (fun c => { c with holdJob := true }) fun _ => rfl,
        core_printerNewStatus' t p .seizing p']
      simp only [Act.printer?, Option.some.injEq, eq_comm (a := p)]
      by_cases hp : p' = p
      · simp only [hp, if_true]
        rfl
      · simp only [hp, if_false]
        rfl
    printerCount := ho.printerCount
    group := fun g => congrArg (fun f => (f g).core) ho.groups
    groupCount := ho.groupCount
    active := ho.activePrinters.trans (add_zero _).symm
    starving := ho.starvingPrinters.trans (add_zero _).symm
    files := fun _ n =>
      (congrArg (fun f => (f n).isSome) ho.files).trans (isSome_writeLine _ _ n _)
    fifo := fun _ => ho.fifo
    pprs := fun _ => ho.pprs }

/-- Entry `y` and its queue file are gone. -/
def erased (s : Pprd) (y : ℕ) : Pprd :=
  { deleteJobFiles s (queueFileName s (s.job y)) with queue := s.queue.eraseIdx y }

theorem findJob_eq_some {s : Pprd} {k : JobKey} {y : ℕ} (h : s.findJob k = some y) :
    y < s.queue.length ∧ (s.job y).key = k := by
  obtain ⟨hy, hk, -⟩ := List.findIdx?_eq_some_iff_getElem.1 h
  exact ⟨hy, by rw [job_eq_getElem hy]; simpa using hk⟩

theorem findJob_eq_none {s : Pprd} {k : JobKey} (h : s.findJob k = none) :
    ∀ q ∈ s.queue, q.key ≠ k := by
  simpa [Pprd.findJob, List.findIdx?_eq_none_iff] using h

/-- What `queue_dequeue_job()` does. -/
theorem queueDequeueJob_ensures (s : Pprd) (k : JobKey) :
    Ensures (queueDequeueJob s k) fun t =>
      s.findJob k = none ∧ t = s ∨
        ∃ y, s.findJob k = some y ∧ destidLive s k.1 ∧ Frame (erased s y) t ∧
          t.queue = s.queue.eraseIdx y := by
  unfold queueDequeueJob
  split
  · rename_i h
    exact ensures_ok (.inl ⟨h, rfl⟩)
  · rename_i y h
    have hk := (findJob_eq_some h).2
    have he : { deleteJobFiles s (destidToName s k.1, k.2.1, k.2.2) with
        queue := s.queue.eraseIdx y } = erased s y := by
      unfold erased queueFileName
      rw [← hk]
      rfl
    refine ensures_ite (fun hl => ensures_ok (.inr ⟨y, h, hl, ?_⟩)) fun _ => ensures_error
    exact he ▸ ⟨frame_jobCountAdjust _ _ _ _, queue_jobCountAdjust _ _ _ _⟩

theorem change_purge {s : Pprd} {x y : ℕ} (hx : x < s.queue.length)
    (h : (s.job x).status.onPrinter = false) (hy : s.findJob (s.job x).key = some y)
    (hl : destidLive s (s.job x).destid) : Change (.purge x y) s (erased s y) where
  ok := ⟨hx, h, hy, hl⟩
  queue := ⟨s.queue, .refl _, rfl⟩
  printer p := by simp [Act.printer?, erased, deleteJobFiles]
  printerCount := rfl
  group _ := rfl
  groupCount := rfl
  active := (add_zero _).symm
  starving := (add_zero _).symm
  files _ n := by
    simp only [erased, deleteJobFiles, Act.files, Function.update_apply]
    split_ifs <;> rfl
  fifo _ := rfl
  pprs _ := rfl

/-- What a loop that cancels jobs leaves as it was: which job each printer has, and which jobs are
being held. -/
structure Canceling (s t : Pprd) : Prop where
  printerCount : t.printerCount = s.printerCount
  jobPid : ∀ p, (t.printers p).jobPid = (s.printers p).jobPid
  jobKey : ∀ p, (t.printers p).jobKey = (s.printers p).jobKey
  seizing : ∀ q ∈ t.queue, q.status = .seizing → ∃ q' ∈ s.queue, q'.key = q.key ∧
    q'.status = .seizing

theorem Canceling.refl (s : Pprd) : Canceling s s :=
  ⟨rfl, fun _ => rfl, fun _ => rfl, fun q hq h => ⟨q, hq, rfl, h⟩⟩

theorem Canceling.trans {s t u : Pprd} (h : Canceling s t) (h' : Canceling t u) :
    Canceling s u where
  printerCount := h'.printerCount.trans h.printerCount
  jobPid p := (h'.jobPid p).trans (h.jobPid p)
  jobKey p := (h'.jobKey p).trans (h.jobKey p)
  seizing q hq hs := by
    obtain ⟨q', hq', hk, hs'⟩ := h'.seizing q hq hs
    obtain ⟨q'', hq'', hk', hs''⟩ := h.seizing q' hq' hs'
    exact ⟨q'', hq'', hk'.trans hk, hs''⟩

/-- The acts that cancel jobs. -/
def Act.isCancel : Act → Bool
  | .frame | .cancel .. | .cancelSeizing .. | .purge .. => true
  | _ => false

theorem Canceling.of_change {a : Act} {s t : Pprd} (ha : a.isCancel) (h : Change a s t) :
    Canceling s t := by
  obtain ⟨l, hl, ht⟩ := h.queue
  -- Whatever entries the act leaves, those being held are so already.
  have hseize : ∀ q ∈ a.queue l, q.status = .seizing → q ∈ l := by
    intro q hq hs
    cases a with
    | frame => exact hq
    | cancel x p | cancelSeizing x p =>
      rcases List.mem_modify hq with hq | ⟨b, -, -, rfl⟩
      · exact hq
      · cases hs
    | purge x y => exact List.mem_of_mem_eraseIdx hq
    | _ => cases ha
  have hcore : ∀ k c, (a.core k c).jobPid = c.jobPid ∧ (a.core k c).jobKey = c.jobKey := by
    intro k c
    cases a <;> first | exact ⟨rfl, rfl⟩ | cases ha
  have hprn : ∀ p, (t.printers p).core.jobPid = (s.printers p).core.jobPid ∧
      (t.printers p).core.jobKey = (s.printers p).core.jobKey := by
    intro p
    rw [h.printer p]
    split_ifs
    · exact hcore _ _
    · exact ⟨rfl, rfl⟩
  refine ⟨?_, fun p => (hprn p).1, fun p => (hprn p).2, fun q hq hs => ?_⟩
  · rw [h.printerCount]
    cases a <;> first | rfl | cases ha
  · obtain ⟨q', hq', hf⟩ := hl.mem (hseize q (ht ▸ hq) hs)
    refine ⟨q', hq', hf.key.symm, ?_⟩
    rcases hf.status with h | ⟨-, h⟩
    · exact h.symm.trans hs
    · rw [hs] at h
      cases h

/-- Permission for a loop that cancels jobs. -/
def CancelPermit (K : Act → Pprd → Prop) (s : Pprd) (named : QEntry → Bool) : Prop :=
  ∀ t x, Canceling s t → x < t.queue.length → named (t.job x) →
    (∀ p, K (.cancel x p) t) ∧ (∀ y, K (.purge x y) t) ∧
      ((t.job x).status = .seizing → ∀ p, K (.cancelSeizing x p) t)

theorem findJob_of_lt {s : Pprd} {x : ℕ} (hx : x < s.queue.length) :
    ∃ y, s.findJob (s.job x).key = some y := by
  cases h : s.findJob (s.job x).key with
  | none => exact absurd rfl (findJob_eq_none h _ (job_mem hx))
  | some y => exact ⟨y, rfl⟩

/-- The number of entries after a round of a loop. -/
def Flow.KeepsLength (n : ℕ) : Flow Pprd → Prop
  | .next t | .stop t => t.queue.length = n
  | .again t => t.queue.length + 1 = n

theorem length_queuePJobNewStatus (s : Pprd) (x : ℕ) (st : JobStatus) :
    (queuePJobNewStatus s x st).queue.length = s.queue.length :=
  length_modifyJob s x _

theorem cancelJob_acts (hK : Base K) {s : Pprd} {x : ℕ} (hx : x < s.queue.length)
    (hc : ∀ p, K (.cancel x p) s) (hp : ∀ y, K (.purge x y) s)
    (hs : (s.job x).status = .seizing → ∀ p, K (.cancelSeizing x p) s) :
    Ensures (cancelJob s x) fun f =>
      Acts (fun a s => K a s ∧ a.isCancel) s f.state ∧ Flow.KeepsLength s.queue.length f := by
  have purge : (s.job x).status.onPrinter = false →
      Ensures (do
        let s ← queueDequeueJob s (s.job x).key
        Except.ok (Flow.again s)) fun f =>
        Acts (fun a s => K a s ∧ a.isCancel) s f.state ∧ Flow.KeepsLength s.queue.length f := by
    intro h
    refine Ensures.bind (queueDequeueJob_ensures s _) fun t ht => ensures_ok ?_
    obtain ⟨z, hz⟩ := findJob_of_lt hx
    rcases ht with ⟨hn, -⟩ | ⟨y, hy, hl, hf, -⟩
    · rw [hn] at hz
      cases hz
    · refine ⟨(Trail.single ⟨hp y, rfl⟩ (change_purge hx h hy hl)).trans
        (Trail.single ⟨hK.frame _, rfl⟩ (.of_frame hf)), ?_⟩
      have hl := List.length_eraseIdx_add_one (findJob_eq_some hy).1
      exact (congrArg (· + 1) hf.queue.length).trans hl
  unfold cancelJob
  cases hst : (s.job x).status with
  | printing p =>
    refine ensures_ok ⟨Trail.single ⟨hc p, rfl⟩ (change_cancel hx hst), ?_⟩
    refine (length_queuePJobNewStatus _ _ _).trans ?_
    exact congrArg List.length (printerOnly_statusIf s p .printing .canceling).queue
  | cancel => exact ensures_ok ⟨.refl s, rfl⟩
  | seizing =>
    refine ensures_ok ?_
    cases hf : (List.range s.printerCount).find?
        fun p => (s.printers p).jobKey = (s.job x).key with
    | none =>
      have : cancelSeizing s x = s := by
        unfold cancelSeizing
        rw [hf]
      simp only [this]
      exact ⟨.refl s, rfl⟩
    | some p =>
      refine ⟨Trail.single ⟨hs hst p, rfl⟩ (change_cancelSeizing hx hst hf), ?_⟩
      unfold cancelSeizing
      rw [hf]
      refine (length_queuePJobNewStatus _ _ _).trans ?_
      exact congrArg List.length (printerOnly_statusIf s p .seizing .canceling).queue
  | _ => exact purge (by rw [hst]; rfl)

theorem Canceling.of_acts {s t : Pprd} (h : Acts (fun a s => K a s ∧ a.isCancel) s t) :
    Canceling s t :=
  Trail.invariant (I := Canceling s) (fun _ _ _ ht ha hc => ht.trans (.of_change ha.2 hc)) h
    (.refl s)

theorem cancelJobs_acts (hK : Base K) {s : Pprd} {destid : Option ℕ} {id subid : ℤ}
    (hc : CancelPermit K s fun q => q.isNamed destid id subid) :
    Ensures (cancelJobs s destid id subid) (Acts K s) := by
  -- The loop stays inside the queue: each round goes on by one entry or makes the queue shorter.
  refine forLoop_ensures (fun n x t => x + n ≤ t.queue.length ∧
      Acts (fun a s => K a s ∧ a.isCancel) s t) (Acts K s)
    (fun _ _ h => h.2.weaken fun _ _ h => h.1) (fun n x t ⟨hn, ht⟩ => ?_) s.queue.length 0 s
    ⟨by simp, .refl s⟩
  refine ensures_ite (fun hnamed => ?_) fun _ => ensures_ok ⟨by omega, ht⟩
  have hx : x < t.queue.length := by omega
  obtain ⟨h1, h2, h3⟩ := hc t x (.of_acts ht) hx hnamed
  refine (cancelJob_acts hK hx h1 h2 h3).mono fun f ⟨hf, hl⟩ => ?_
  have hu := ht.trans hf
  cases f with
  | next u => exact ⟨by rw [show u.queue.length = _ from hl]; omega, hu⟩
  | again u =>
    have hl : u.queue.length + 1 = t.queue.length := hl
    exact ⟨by omega, hu⟩
  | stop u => exact hu.weaken fun _ _ h => h.1

/-! ## Holding and releasing -/

theorem holdJob_acts (hK : Base K) {s : Pprd} {x : ℕ} (hx : x < s.queue.length) :
    Ensures (holdJob s x) (Acts K s) := by
  unfold holdJob
  cases hst : (s.job x).status with
  | waiting | waiting4media =>
    exact ensures_ok (hK.acts_frame (frame_queuePJobNewStatus s x _ (fun _ => by rw [hst]; rfl) rfl))
  | cancel => exact ensures_error
  | printing p => exact ensures_ok (Trail.single (hK.seize x p s) (change_seize hx hst))
  | _ => exact ensures_ok (.refl s)

theorem releaseJob_acts (hK : Base K) {s : Pprd} {x : ℕ} (hx : x < s.queue.length)
    (h : (s.job x).status.onPrinter = false) : Ensures (releaseJob os s x) (Acts K s) := by
  have hf := (frame_queuePJobNewStatus s x .waiting (fun _ => h) rfl).trans
    (frame_mediaSetNotnowForJob _ x)
  refine ensures_ite (fun _ => ?_) fun _ => ensures_ok (hK.acts_frame hf)
  refine (printerTryStart_starts ?_).mono fun t ht => hK.frame_acts hf (ht.acts hK)
  exact hf.queue.length ▸ hx

end Ppr
