import Ppr.Lib.Lists
import Ppr.Lib.Machine
import Ppr.Pprd.Main

/-!
# What most of the code leaves alone

`Frame s t` says that nothing has happened between `s` and `t` that matters for who prints what: the
same jobs in the same order, those on a printer with the same status, the same printers, groups and
counters, the same set of queue files.  Masks, flags, retry counters, job counts and the statuses
of jobs that are not on a printer may have changed.  Every function of the media, question and spool
state code is a frame step.
-/

namespace Ppr

open Outcome

/-- The part of a printer that only starting, stopping, canceling, mounting and loading change. -/
@[ext]
structure PrinterCore where
  name : String
  status : PrnStatus
  bins : List Bin
  autoSelectExists : Bool
  cancelJob : Bool
  holdJob : Bool
  jobPid : ℤ
  jobKey : JobKey

def Printer.core (p : Printer) : PrinterCore :=
  ⟨p.name, p.status, p.bins, p.autoSelectExists, p.cancelJob, p.holdJob, p.jobPid, p.jobKey⟩

/-- The part of a group that only loading, holding and deleting change. -/
@[ext]
structure GroupCore where
  name : String
  held : Bool
  printers : List ℕ
  rotate : Bool
  deleted : Bool

def Group.core (c : Group) : GroupCore :=
  ⟨c.name, c.spoolState.held, c.printers, c.rotate, c.deleted⟩

/-- The same job, still or still not on a printer. -/
structure JobFrame (q q' : QEntry) : Prop where
  key : q'.key = q.key
  priority : q'.priority = q.priority
  sequenceNumber : q'.sequenceNumber = q.sequenceNumber
  media : q'.media = q.media
  status : q'.status = q.status ∨ q.status.onPrinter = false ∧ q'.status.onPrinter = false

@[refl]
theorem JobFrame.refl (q : QEntry) : JobFrame q q := ⟨rfl, rfl, rfl, rfl, .inl rfl⟩

theorem JobFrame.onPrinter {q q' : QEntry} (h : JobFrame q q') :
    q'.status.onPrinter = q.status.onPrinter := by
  rcases h.status with h | ⟨h, h'⟩
  · rw [h]
  · rw [h, h']

theorem JobFrame.symm {q q' : QEntry} (h : JobFrame q q') : JobFrame q' q :=
  ⟨h.key.symm, h.priority.symm, h.sequenceNumber.symm, h.media.symm,
    h.status.imp Eq.symm And.symm⟩

/-- A job that is printing still is. -/
theorem JobFrame.isPrinting {q q' : QEntry} (h : JobFrame q q') (hq : q.status.isPrinting) :
    q'.status.isPrinting := by
  rcases h.status with h | ⟨h, -⟩
  · rwa [h]
  · cases hs : q.status <;> simp_all [JobStatus.isPrinting, JobStatus.onPrinter]

theorem JobFrame.trans {q q' q'' : QEntry} (h : JobFrame q q') (h' : JobFrame q' q'') :
    JobFrame q q'' where
  key := h'.key.trans h.key
  priority := h'.priority.trans h.priority
  sequenceNumber := h'.sequenceNumber.trans h.sequenceNumber
  media := h'.media.trans h.media
  status := by
    rcases h.status with e | ⟨e, e'⟩
    · rw [← e]
      exact h'.status
    · exact .inr ⟨e, h'.onPrinter.trans e'⟩

/-! ## Entries of the queue array -/

theorem job_eq_getElem {s : Pprd} {x : ℕ} (h : x < s.queue.length) : s.job x = s.queue[x] := by
  simp [Pprd.job, h]

theorem job_mem {s : Pprd} {x : ℕ} (h : x < s.queue.length) : s.job x ∈ s.queue := by
  rw [job_eq_getElem h]
  exact List.getElem_mem h

theorem mem_queue_iff {s : Pprd} {q : QEntry} :
    q ∈ s.queue ↔ ∃ x, x < s.queue.length ∧ s.job x = q := by
  constructor
  · intro h
    obtain ⟨x, hx, rfl⟩ := List.mem_iff_getElem.1 h
    exact ⟨x, hx, job_eq_getElem hx⟩
  · rintro ⟨x, hx, rfl⟩
    exact job_mem hx

@[simp]
theorem length_modifyJob (s : Pprd) (x : ℕ) (f : QEntry → QEntry) :
    (s.modifyJob x f).queue.length = s.queue.length := by
  simp [Pprd.modifyJob]

theorem job_modifyJob (s : Pprd) (x y : ℕ) (f : QEntry → QEntry) :
    (s.modifyJob x f).job y = if x = y ∧ y < s.queue.length then f (s.job y) else s.job y := by
  simp only [Pprd.job, Pprd.modifyJob, List.getD_eq_getElem?_getD, List.getElem?_modify]
  by_cases hy : y < s.queue.length
  · by_cases hx : x = y <;> simp [hx, hy]
  · simp [hy]

/-- The same jobs in the same order. -/
structure QueueFrame (l l' : List QEntry) : Prop where
  length : l'.length = l.length
  job : ∀ x, JobFrame (l.getD x default) (l'.getD x default)

@[refl]
theorem QueueFrame.refl (l : List QEntry) : QueueFrame l l := ⟨rfl, fun _ => .refl _⟩

theorem QueueFrame.trans {l l' l'' : List QEntry} (h : QueueFrame l l') (h' : QueueFrame l' l'') :
    QueueFrame l l'' :=
  ⟨h'.length.trans h.length, fun x => (h.job x).trans (h'.job x)⟩

theorem QueueFrame.mem {l l' : List QEntry} (h : QueueFrame l l') {q' : QEntry} (hq : q' ∈ l') :
    ∃ q ∈ l, JobFrame q q' := by
  obtain ⟨x, hx, rfl⟩ := List.mem_iff_getElem.1 hq
  have hl : x < l.length := h.length ▸ hx
  have hj := h.job x
  rw [List.getD_eq_getElem _ _ hx, List.getD_eq_getElem _ _ hl] at hj
  exact ⟨l[x], List.getElem_mem hl, hj⟩

theorem QueueFrame.mem_left {l l' : List QEntry} (h : QueueFrame l l') {q : QEntry} (hq : q ∈ l) :
    ∃ q' ∈ l', JobFrame q q' := by
  obtain ⟨x, hl, rfl⟩ := List.mem_iff_getElem.1 hq
  have hx : x < l'.length := h.length ▸ hl
  have hj := h.job x
  rw [List.getD_eq_getElem _ _ hx, List.getD_eq_getElem _ _ hl] at hj
  exact ⟨l'[x], List.getElem_mem hx, hj⟩

/-- Nothing that matters for who prints what has changed. -/
structure Frame (s t : Pprd) : Prop where
  queue : QueueFrame s.queue t.queue
  printers : ∀ p, (t.printers p).core = (s.printers p).core
  printerCount : t.printerCount = s.printerCount
  groups : ∀ g, (t.groups g).core = (s.groups g).core
  groupCount : t.groupCount = s.groupCount
  activePrinters : t.activePrinters = s.activePrinters
  starvingPrinters : t.starvingPrinters = s.starvingPrinters
  files : ∀ n, (t.disk.queue n).isSome = (s.disk.queue n).isSome
  fifo : t.fifo = s.fifo
  pprs : t.pprs = s.pprs
  launches : t.launches = s.launches

@[refl]
theorem Frame.refl (s : Pprd) : Frame s s where
  queue := .refl _
  printers _ := rfl
  printerCount := rfl
  groups _ := rfl
  groupCount := rfl
  activePrinters := rfl
  starvingPrinters := rfl
  files _ := rfl
  fifo := rfl
  pprs := rfl
  launches := rfl

theorem Frame.trans {s t u : Pprd} (h : Frame s t) (h' : Frame t u) : Frame s u where
  queue := h.queue.trans h'.queue
  printers p := (h'.printers p).trans (h.printers p)
  printerCount := h'.printerCount.trans h.printerCount
  groups g := (h'.groups g).trans (h.groups g)
  groupCount := h'.groupCount.trans h.groupCount
  activePrinters := h'.activePrinters.trans h.activePrinters
  starvingPrinters := h'.starvingPrinters.trans h.starvingPrinters
  files n := (h'.files n).trans (h.files n)
  fifo := h'.fifo.trans h.fifo
  pprs := h'.pprs.trans h.pprs
  launches := h'.launches.trans h.launches

/-! ## Elementary frame steps -/

theorem frame_modifyJob (s : Pprd) (x : ℕ) {f : QEntry → QEntry}
    (hf : x < s.queue.length → JobFrame (s.job x) (f (s.job x))) : Frame s (s.modifyJob x f) where
  queue := by
    refine ⟨length_modifyJob s x f, fun y => ?_⟩
    change JobFrame (s.job y) ((s.modifyJob x f).job y)
    rw [job_modifyJob]
    split_ifs with h
    · obtain ⟨rfl, hy⟩ := h
      exact hf hy
    · rfl
  printers _ := rfl
  printerCount := rfl
  groups _ := rfl
  groupCount := rfl
  activePrinters := rfl
  starvingPrinters := rfl
  files _ := rfl
  fifo := rfl
  pprs := rfl
  launches := rfl

theorem frame_modifyPrinter (s : Pprd) (p : ℕ) {f : Printer → Printer}
    (hf : (f (s.printers p)).core = (s.printers p).core) : Frame s (s.modifyPrinter p f) where
  queue := .refl _
  printers p' := by
    by_cases h : p' = p
    · subst h
      simpa [Pprd.modifyPrinter] using hf
    · simp [Pprd.modifyPrinter, h]
  printerCount := rfl
  groups _ := rfl
  groupCount := rfl
  activePrinters := rfl
  starvingPrinters := rfl
  files _ := rfl
  fifo := rfl
  pprs := rfl
  launches := rfl

theorem frame_modifyGroup (s : Pprd) (g : ℕ) {f : Group → Group}
    (hf : (f (s.groups g)).core = (s.groups g).core) : Frame s (s.modifyGroup g f) where
  queue := .refl _
  printers _ := rfl
  printerCount := rfl
  groups g' := by
    by_cases h : g' = g
    · subst h
      simpa [Pprd.modifyGroup] using hf
    · simp [Pprd.modifyGroup, h]
  groupCount := rfl
  activePrinters := rfl
  starvingPrinters := rfl
  files _ := rfl
  fifo := rfl
  pprs := rfl
  launches := rfl

theorem isSome_writeLine (d : Disk) (name n : QName) (line : PprdLine) :
    ((d.writeLine name line).queue n).isSome = (d.queue n).isSome := by
  by_cases h : n = name
  · subst h
    simp [Disk.writeLine]
  · simp [Disk.writeLine, h]

theorem frame_queueWriteStatusAndFlags (s : Pprd) (x : ℕ) :
    Frame s (queueWriteStatusAndFlags s x) :=
  { Frame.refl s with files := fun n => isSome_writeLine _ _ n _ }

theorem frame_printerSpoolStateSave (s : Pprd) (p : ℕ) : Frame s (printerSpoolStateSave s p) :=
  { Frame.refl s with }

theorem frame_groupSpoolStateSave (s : Pprd) (g : ℕ) : Frame s (groupSpoolStateSave s g) :=
  { Frame.refl s with }

theorem frame_jobCountAdjust (s : Pprd) (destid : ℕ) (increment : ℤ) (flush : Bool) :
    Frame s (jobCountAdjust s destid increment flush) := by
  unfold jobCountAdjust
  split_ifs
  · exact (frame_modifyGroup s _ rfl).trans (frame_groupSpoolStateSave _ _)
  · exact frame_modifyGroup s _ rfl
  · exact (frame_modifyPrinter s _ rfl).trans (frame_printerSpoolStateSave _ _)
  · exact frame_modifyPrinter s _ rfl

/-- A job that is not on a printer may change its status as long as it does not get on one. -/
theorem queue_jobCountAdjust (s : Pprd) (destid : ℕ) (increment : ℤ) (flush : Bool) :
    (jobCountAdjust s destid increment flush).queue = s.queue := by
  unfold jobCountAdjust
  dsimp only
  split_ifs <;> rfl

theorem frame_queuePJobNewStatus (s : Pprd) (x : ℕ) (newstat : JobStatus)
    (hx : x < s.queue.length → (s.job x).status.onPrinter = false)
    (hn : newstat.onPrinter = false) : Frame s (queuePJobNewStatus s x newstat) :=
  (frame_modifyJob s x fun h => ⟨rfl, rfl, rfl, rfl, .inr ⟨hx h, hn⟩⟩).trans
    (frame_queueWriteStatusAndFlags _ _)

/-! ## Media -/

theorem onPrinter_of_isWaiting {st : JobStatus} (h : st.isWaiting) : st.onPrinter = false := by
  cases st <;> simp_all [JobStatus.isWaiting, JobStatus.onPrinter]

theorem waitReason_isWaiting (s : Pprd) (q : QEntry) (m : BitVec 8) :
    (waitReason s q m).isWaiting := by
  unfold waitReason
  split_ifs <;> rfl

theorem frame_mediaSetJobWaitReason (s : Pprd) (x : ℕ) (m : BitVec 8) :
    Frame s (mediaSetJobWaitReason s x m) := by
  unfold mediaSetJobWaitReason
  dsimp only
  split_ifs with hw
  · refine frame_queuePJobNewStatus s x _ (fun _ => onPrinter_of_isWaiting hw) ?_
    exact onPrinter_of_isWaiting (waitReason_isWaiting _ _ _)
  · rfl
  · rfl

theorem frame_forJobsOf (destid : ℕ) {f : Pprd → ℕ → Pprd} (hf : ∀ s x, Frame s (f s x))
    (s : Pprd) : Frame s (forJobsOf destid f s) := by
  refine foldl_invariant (fun t x _ ht => ?_) (Frame.refl s)
  split_ifs
  · exact ht.trans (hf t x)
  · exact ht

theorem frame_mediaStartstopUpdateWaitreason2 (s : Pprd) (destid : ℕ) :
    Frame s (mediaStartstopUpdateWaitreason2 s destid) :=
  frame_forJobsOf destid (fun s x => frame_mediaSetJobWaitReason s x _) s

theorem frame_mediaStartstopUpdateWaitreason (s : Pprd) (prnid : ℕ) :
    Ensures (mediaStartstopUpdateWaitreason s prnid) (Frame s) := by
  refine Ensures.bind (Q := fun _ => True) (fun _ _ => trivial) fun _ _ => ensures_ok ?_
  refine foldl_invariant (fun t g _ ht => ?_) (frame_mediaStartstopUpdateWaitreason2 s prnid)
  split_ifs
  · exact ht.trans (frame_mediaStartstopUpdateWaitreason2 t _)
  · exact ht

theorem frame_mediaUpdateNotnow2 (s : Pprd) (destid : ℕ) (prnbit : BitVec 8) (prnid : ℕ) :
    Frame s (mediaUpdateNotnow2 s destid prnbit prnid) := by
  refine frame_forJobsOf destid (fun s x => ?_) s
  exact (frame_modifyJob s x fun _ => ⟨rfl, rfl, rfl, rfl, .inl rfl⟩).trans
    (frame_mediaSetJobWaitReason _ _ _)

theorem frame_mediaUpdateNotnow (s : Pprd) (prnid : ℕ) :
    Ensures (mediaUpdateNotnow s prnid) (Frame s) := by
  refine Ensures.bind (Q := fun _ => True) (fun _ _ => trivial) fun _ _ => ensures_ok ?_
  refine foldl_invariant (fun t g _ ht => ?_) (frame_mediaUpdateNotnow2 s prnid 1 prnid)
  dsimp only
  split_ifs
  · exact ht.trans (frame_mediaUpdateNotnow2 t _ _ _)
  · exact ht

theorem frame_mediaSetNotnowForJob (s : Pprd) (x : ℕ) : Frame s (mediaSetNotnowForJob s x) :=
  (frame_modifyJob s x fun _ => ⟨rfl, rfl, rfl, rfl, .inl rfl⟩).trans
    (frame_mediaSetJobWaitReason _ _ _)

theorem frame_getMediaId (s : Pprd) (name : String) :
    Ensures (getMediaId s name) fun r => Frame s r.1 := by
  unfold getMediaId
  refine ensures_ite (fun _ => ensures_ok (.refl s)) fun _ => ?_
  split
  · exact ensures_ok (.refl s)
  · exact ensures_ite (fun _ => ensures_error) fun _ => ensures_ok { Frame.refl s with }

theorem frame_getMediaIds (s : Pprd) (names : List String) :
    Ensures (getMediaIds s names) fun r => Frame s r.1 := by
  induction names generalizing s with
  | nil => exact ensures_ok (.refl s)
  | cons m ms ih =>
    refine Ensures.bind (frame_getMediaId s m) fun r hr => ?_
    exact Ensures.bind (ih r.1) fun r' hr' => ensures_ok (hr.trans hr')

theorem frame_mediaMountedSave (s : Pprd) (prnid : ℕ) : Frame s (mediaMountedSave s prnid) :=
  { Frame.refl s with }

/-! ## Questions -/

theorem frame_questionLaunch (os : ℕ → Bool) (s : Pprd) (x : ℕ) :
    Ensures (questionLaunch os s x) (Frame s) := by
  unfold questionLaunch
  split
  · exact ensures_error
  · refine ensures_ite (fun _ => ensures_ok ?_) fun _ => ensures_ok { Frame.refl s with }
    exact (frame_modifyJob s x fun _ => ⟨rfl, rfl, rfl, rfl, .inl rfl⟩).trans
      { Frame.refl _ with }

theorem frame_questionRetry (os : ℕ → Bool) (now : ℤ) (s : Pprd) (x : ℕ) :
    Ensures (questionRetry os now s x) (Frame s) :=
  ensures_ite (fun _ => frame_questionLaunch os s x) fun _ => ensures_ok (.refl s)

theorem frame_questionScan (os : ℕ → Bool) (now : ℤ) (n x count : ℕ) (s : Pprd) :
    Ensures (questionScan os now n x count s) (Frame s) := by
  induction n generalizing x count s with
  | zero => exact ensures_ok { Frame.refl s with }
  | succ n ih =>
    unfold questionScan
    refine ensures_ite (fun _ => ?_) fun _ => ensures_ok (.refl s)
    refine ensures_ite (fun _ => ?_) fun _ => ih _ _ _
    exact Ensures.bind (frame_questionRetry os now s x) fun t ht =>
      (ih _ _ t).mono fun u => ht.trans

theorem frame_questionLookForWork (os : ℕ → Bool) (now : ℤ) (s : Pprd) :
    Ensures (questionLookForWork os now s) (Frame s) :=
  ensures_ite (fun _ => frame_questionScan os now _ _ _ s) fun _ => ensures_ok (.refl s)

theorem frame_questionJob (os : ℕ → Bool) (s : Pprd) (x : ℕ) :
    Ensures (questionJob os s x) (Frame s) := by
  have h : Frame s { s with questions.outstanding := s.questions.outstanding + 1 } :=
    { Frame.refl s with }
  exact ensures_ite (fun _ => (frame_questionLaunch os _ x).mono fun t => h.trans)
    fun _ => ensures_ok h

theorem frame_questionAsked (now : ℤ) (w : WaitStatus) (s : Pprd) (k : JobKey) :
    Ensures (questionAsked now w s k) (Frame s) := by
  unfold questionAsked
  split
  · exact ensures_ok (.refl s)
  · refine ensures_ite (fun _ => ensures_error) fun _ => ensures_ok ?_
    exact frame_modifyJob s _ fun _ => ⟨rfl, rfl, rfl, rfl, .inl rfl⟩

theorem frame_questionChildHook (os : ℕ → Bool) (now : ℤ) (s : Pprd) (pid : ℤ)
    (w : WaitStatus) : Ensures (questionChildHook os now s pid w) (Frame s) := by
  unfold questionChildHook
  split
  · exact ensures_ok (.refl s)
  · refine Ensures.bind (frame_questionAsked now w s _) fun t ht => ?_
    refine (frame_questionLookForWork os now _).mono fun u hu => ht.trans (.trans ?_ hu)
    exact { Frame.refl t with }

theorem frame_questionTick (os : ℕ → Bool) (now : ℤ) (s : Pprd) :
    Ensures (questionTick os now s) (Frame s) :=
  (frame_questionLookForWork os now _).mono fun _ =>
    Frame.trans (t := { s with questions.launchesThisTick := 0 }) { Frame.refl s with }

theorem frame_questionSet (os : ℕ → Bool) (s : Pprd) (x : ℕ) (onOff : Bool) :
    Ensures (questionSet os s x onOff) (Frame s) := by
  have h : ∀ v : BitVec 16, Frame s (s.modifyJob x fun q => { q with flags := q.flags ||| v }) :=
    fun _ => frame_modifyJob s x fun _ => ⟨rfl, rfl, rfl, rfl, .inl rfl⟩
  refine ensures_ite (fun _ => ?_) fun _ =>
    ensures_ok (frame_modifyJob s x fun _ => ⟨rfl, rfl, rfl, rfl, .inl rfl⟩)
  exact ensures_ite (fun _ => (frame_questionJob os _ x).mono fun t => (h _).trans)
    fun _ => ensures_ok (h _)

theorem frame_questionOnOff (os : ℕ → Bool) (s : Pprd) (x : ℕ) (onOff : Bool) :
    Ensures (questionOnOff os s x onOff) (Frame s) := by
  refine Ensures.bind (frame_questionSet os _ x onOff) fun t ht => ensures_ok ?_
  refine .trans ?_ (ht.trans (frame_queueWriteStatusAndFlags t x))
  exact frame_modifyJob s x fun _ => ⟨rfl, rfl, rfl, rfl, .inl rfl⟩

theorem frame_queueQuestion (os : ℕ → Bool) (s : Pprd) (x : ℕ) :
    Ensures (queueQuestion os s x) (Frame s) :=
  ensures_ite (fun _ => frame_questionJob os s x) fun _ => ensures_ok (.refl s)

end Ppr
