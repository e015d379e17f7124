import Ppr.Proof.Exits

/-!
# Accepting a job as acts

A submission is refused and its file deleted, or it becomes a new entry or replaces the entry made
from its skeleton.
-/

namespace Ppr

open Outcome Machine

variable {K : Act → Pprd → Prop} {os : ℕ → Bool}

theorem ofCode_isPrinting (n : ℕ) : (JobStatus.ofCode n).isPrinting = false := by
  unfold JobStatus.ofCode
  split <;> rfl

theorem jobFrame_mediaSetNotnowForNewJob (s : Pprd) (q : QEntry) :
    JobFrame q (mediaSetNotnowForNewJob s q) := by
  unfold mediaSetNotnowForNewJob
  dsimp only
  split_ifs with h
  · refine ⟨rfl, rfl, rfl, rfl, .inr ⟨onPrinter_of_isWaiting h, ?_⟩⟩
    exact onPrinter_of_isWaiting (waitReason_isWaiting _ _ _)
  · exact ⟨rfl, rfl, rfl, rfl, .inl rfl⟩

/-- The entry is the one made from a queue file. -/
structure Entered (s : Pprd) (name : QName) (q : QEntry) : Prop where
  dest : destidByName s name.1 = some q.destid
  id : q.id = name.2.1
  subid : q.subid = name.2.2
  file : ∃ f, s.disk.queue name = some f ∧ q.priority = f.line.priority ∧
    q.sequenceNumber = f.line.sequenceNumber
  status : q.status.isPrinting = false

theorem entered_newEntry {s u : Pprd} {name : QName} {d : ℕ} {f : QFile} (media : List ℤ)
    (hd : destidByName s name.1 = some d) (hf : s.disk.queue name = some f) :
    Entered s name (newEntry u d name f media) := by
  obtain ⟨q, he, hk, hpr, hseq, hst⟩ : ∃ q, newEntry u d name f media =
      mediaSetNotnowForNewJob u q ∧ q.key = (d, name.2.1, name.2.2) ∧
      q.priority = f.line.priority ∧ q.sequenceNumber = f.line.sequenceNumber ∧
      q.status = .ofCode f.line.status := ⟨_, rfl, rfl, rfl, rfl, rfl⟩
  rw [he]
  have h := jobFrame_mediaSetNotnowForNewJob u q
  have hkey := h.key.trans hk
  simp only [QEntry.key, Prod.mk.injEq] at hkey
  refine ⟨hd.trans (congrArg some hkey.1.symm), hkey.2.1, hkey.2.2,
    ⟨f, hf, h.priority.trans hpr, h.sequenceNumber.trans hseq⟩, ?_⟩
  by_contra hp
  have := h.symm.isPrinting (by simpa using hp)
  rw [hst, ofCode_isPrinting] at this
  cases this

theorem change_insert {s : Pprd} {q : QEntry} (size : ℕ) (h : q.status.isPrinting = false) :
    Change (.insert (s.queue.findIdx (goesBefore q)) q) s
      { s with
        queueSize := size
        queue := s.queue.insertIdx (s.queue.findIdx (goesBefore q)) q } where
  ok := ⟨rfl, h⟩
  queue := ⟨s.queue, .refl _, rfl⟩
  printer _ := by simp [Act.printer?]
  printerCount := rfl
  group _ := rfl
  groupCount := rfl
  active := (add_zero _).symm
  starving := (add_zero _).symm
  files _ _ := rfl
  fifo _ := rfl
  pprs _ := rfl

theorem change_replace {s : Pprd} {x : ℕ} {q : QEntry} (hx : x < s.queue.length)
    (hk : q.key = (s.job x).key) (h : q.status.isPrinting = false) :
    Change (.replace x q) s { s with queue := s.queue.set x q } where
  ok := ⟨hx, hk, h⟩
  queue := ⟨s.queue, .refl _, rfl⟩
  printer _ := by simp [Act.printer?]
  printerCount := rfl
  group _ := rfl
  groupCount := rfl
  active := (add_zero _).symm
  starving := (add_zero _).symm
  files _ _ := rfl
  fifo _ := rfl
  pprs _ := rfl

/-- The submitting side, or the refusal of a submission, leaves the tables alone. -/
theorem change_ppr {s t : Pprd} (hq : t.queue = s.queue) (hp : t.printers = s.printers)
    (hn : t.printerCount = s.printerCount) (hg : t.groups = s.groups)
    (hgn : t.groupCount = s.groupCount) (ha : t.activePrinters = s.activePrinters)
    (hs : t.starvingPrinters = s.starvingPrinters) : Change .ppr s t where
  ok := trivial
  queue := ⟨s.queue, .refl _, hq⟩
  printer p := by simp [Act.printer?, hp]
  printerCount := hn
  group g := congrArg (fun f => (f g).core) hg
  groupCount := hgn
  active := ha.trans (add_zero _).symm
  starving := hs.trans (add_zero _).symm
  files h := absurd rfl h
  fifo h := absurd rfl h
  pprs h := absurd rfl h

theorem queueAccepted_starts {s : Pprd} {x : ℕ} (hx : x < s.queue.length) (jobIsNew : Bool) :
    Ensures (queueAccepted os s x jobIsNew) (Starts s) := by
  refine Ensures.bind (frame_queueQuestion os s x) fun t ht => ?_
  refine ensures_ite (fun _ => ?_) fun _ => ensures_ok (.of_frame ht)
  exact (printerTryStart_starts (ht.queue.length ▸ hx)).mono fun u => (Starts.of_frame ht).trans

/-- A job made from its skeleton is not refused: its destination accepts jobs and its entry is in
the queue. -/
def reloadOk (s : Pprd) (name : QName) : Bool :=
  (destidByName s name.1).any fun d =>
    (s.disk.queue name).isSome && destidAccepting s d && (s.findJob (d, name.2)).isSome

/-- What `queue_accept_queuefile()` does. -/
def Accepted (s : Pprd) (name : QName) (reloadJob : Bool) (t : Pprd) : Prop :=
  (∃ u, Frame s u ∧ t = deleteJobFiles u name ∧ (reloadJob → reloadOk s name = false)) ∨
    ∃ u v q a, Frame s u ∧ Entered s name q ∧ Change a u v ∧ Starts v t ∧
      (reloadJob = false ∧ a = .insert (u.queue.findIdx (goesBefore q)) q ∨
        reloadJob ∧ ∃ x, a = .replace x q)

theorem queueAcceptQueuefile_ensures (s : Pprd) (name : QName) (jobIsNew reloadJob : Bool) :
    Ensures (queueAcceptQueuefile os s name jobIsNew reloadJob) (Accepted s name reloadJob) := by
  have refuse : ∀ u, Frame s u → (reloadJob → reloadOk s name = false) →
      Ensures (.ok (deleteJobFiles u name) : Except Stop Pprd) (Accepted s name reloadJob) :=
    fun u hu hr => ensures_ok (.inl ⟨u, hu, rfl, hr⟩)
  unfold queueAcceptQueuefile
  split
  · rename_i d f hd hf
    refine ensures_ite (fun ha => refuse s (.refl s) fun _ => ?_) fun _ => ?_
    · simp [reloadOk, hd, ha.2]
    refine Ensures.bind (frame_getMediaIds s _) ?_
    rintro ⟨u, media⟩ hu
    dsimp only at hu ⊢
    have hq := entered_newEntry (u := u) media hd hf
    generalize newEntry u d name f media = q at hq
    refine ensures_ite (fun hr => ?_) fun hr => ensures_ite (fun _ => refuse u hu (absurd · hr))
      fun _ => ?_
    · split
      · rename_i hx
        refine refuse u hu fun _ => ?_
        have hk : q.key = (d, name.2) := by
          simp [QEntry.key, hq.id, hq.subid, Option.some.inj (hd.symm.trans hq.dest)]
        rw [hk, findJob_of_queueFrame hu.queue] at hx
        simp [reloadOk, hd, hx]
      · rename_i x hx
        obtain ⟨hxl, hk⟩ := findJob_eq_some hx
        refine (queueAccepted_starts (by simpa using hxl) jobIsNew).mono fun t ht => ?_
        exact .inr ⟨u, _, q, _, hu, hq, change_replace hxl hk.symm hq.status, ht, .inr ⟨hr, x, rfl⟩⟩
    · have hins := change_insert (s := u) (q := q)
        (if u.queue.length = u.queueSize then u.queueSize + queueSizeGrowby else u.queueSize)
        hq.status
      have hadj := frame_jobCountAdjust { u with
        queueSize := if u.queue.length = u.queueSize then u.queueSize + queueSizeGrowby
          else u.queueSize
        queue := u.queue.insertIdx (u.queue.findIdx (goesBefore q)) q } q.destid 1 jobIsNew
      refine (queueAccepted_starts ?_ jobIsNew).mono fun t ht => ?_
      · refine hadj.queue.length ▸ ?_
        dsimp only
        rw [List.length_insertIdx_of_le_length List.findIdx_le_length]
        exact Nat.lt_succ_of_le List.findIdx_le_length
      · exact .inr ⟨u, _, q, _, hu, hq, hins, (Starts.of_frame hadj).trans ht,
          .inl ⟨by simpa using hr, rfl⟩⟩
  · rename_i hno
    refine refuse s (.refl s) fun _ => ?_
    cases hd : destidByName s name.1 with
    | none => simp [reloadOk, hd]
    | some d =>
      cases hf : s.disk.queue name with
      | none => simp [reloadOk, hd, hf]
      | some f => exact (hno d f hd hf).elim

/-- Permission for what a submission leads to. -/
def EnterPermit (K : Act → Pprd → Prop) (s : Pprd) (name : QName) (reloadJob : Bool) : Prop :=
  ∀ u q, Frame s u → Entered s name q →
    (reloadJob = false → K (.insert (u.queue.findIdx (goesBefore q)) q) u) ∧
      (reloadJob → ∀ x, K (.replace x q) u)

theorem queueAcceptQueuefile_acts (hK : Base K) {s : Pprd} {name : QName}
    {jobIsNew reloadJob : Bool} (hppr : ∀ s, K .ppr s) (hP : EnterPermit K s name reloadJob) :
    Ensures (queueAcceptQueuefile os s name jobIsNew reloadJob) (Acts K s) := by
  refine (queueAcceptQueuefile_ensures s name jobIsNew reloadJob).mono fun t ht => ?_
  rcases ht with ⟨u, hu, rfl, -⟩ | ⟨u, v, q, a, hu, hq, hc, hs, ha⟩
  · exact hK.frame_acts hu (Trail.single (hppr u) (change_ppr rfl rfl rfl rfl rfl rfl rfl))
  · obtain ⟨hi, hr⟩ := hP u q hu hq
    refine hK.frame_acts hu ((Trail.single ?_ hc).trans (hs.acts hK))
    rcases ha with ⟨h, rfl⟩ | ⟨h, x, rfl⟩
    · exact hi h
    · exact hr h x

theorem queueNewJob_acts (hK : Base K) {s : Pprd} (hppr : ∀ s, K .ppr s)
    (hnew : ∀ name rest, s.fifo = .new name :: rest →
      EnterPermit K { s with fifo := rest } name false)
    (hreload : ∀ name rest, s.fifo = .reload name :: rest →
      EnterPermit K { s with fifo := rest } name true) :
    Ensures (queueNewJob os s) (Acts K s) := by
  have pop : ∀ rest, Acts K s { s with fifo := rest } := fun rest =>
    Trail.single (hppr s) (change_ppr rfl rfl rfl rfl rfl rfl rfl)
  unfold queueNewJob
  split
  · exact ensures_ok (.refl s)
  · rename_i name rest h
    exact (queueAcceptQueuefile_acts hK hppr (hnew name rest h)).mono fun t => (pop rest).trans
  · rename_i name rest h
    exact (queueAcceptQueuefile_acts hK hppr (hreload name rest h)).mono fun t => (pop rest).trans

/-! ## The submitting side -/

/-- The submitting side changes files, the FIFO and the list of ppr processes. -/
structure PprOnly (s t : Pprd) : Prop where
  queue : t.queue = s.queue
  printers : t.printers = s.printers
  printerCount : t.printerCount = s.printerCount
  groups : t.groups = s.groups
  groupCount : t.groupCount = s.groupCount
  activePrinters : t.activePrinters = s.activePrinters
  starvingPrinters : t.starvingPrinters = s.starvingPrinters

theorem PprOnly.refl (s : Pprd) : PprOnly s s := ⟨rfl, rfl, rfl, rfl, rfl, rfl, rfl⟩

theorem PprOnly.trans {s t u : Pprd} (h : PprOnly s t) (h' : PprOnly t u) : PprOnly s u where
  queue := h'.queue.trans h.queue
  printers := h'.printers.trans h.printers
  printerCount := h'.printerCount.trans h.printerCount
  groups := h'.groups.trans h.groups
  groupCount := h'.groupCount.trans h.groupCount
  activePrinters := h'.activePrinters.trans h.activePrinters
  starvingPrinters := h'.starvingPrinters.trans h.starvingPrinters

theorem PprOnly.change {s t : Pprd} (h : PprOnly s t) : Change .ppr s t :=
  change_ppr h.queue h.printers h.printerCount h.groups h.groupCount h.activePrinters
    h.starvingPrinters

theorem pprOnly_fileCleanup (s : Pprd) (p : PprProc) : PprOnly s (fileCleanup s p) := by
  unfold fileCleanup
  split_ifs
  · exact .refl s
  · exact ⟨rfl, rfl, rfl, rfl, rfl, rfl, rfl⟩

theorem pprOnly_writeFragments (p : PprProc) (s : Pprd) (subid : ℤ) (l : List PprOptions) :
    PprOnly s (writeFragments p s subid l) := by
  induction l generalizing s subid with
  | nil => exact .refl s
  | cons o l ih =>
    have h : PprOnly s (writeQueueFile s (p.dest, p.id, subid) (o.qfile false)) :=
      ⟨rfl, rfl, rfl, rfl, rfl, rfl, rfl⟩
    exact h.trans (ih _ (subid + 1))

theorem pprOnly_submitFragments (p : PprProc) (s : Pprd) (subid : ℤ) (n : ℕ) :
    PprOnly s (submitFragments p s subid n) := by
  induction n generalizing s subid with
  | zero => exact .refl s
  | succ n ih =>
    have h : PprOnly s (submitJob s p subid) := ⟨rfl, rfl, rfl, rfl, rfl, rfl, rfl⟩
    exact h.trans (ih _ (subid + 1))

theorem pprOnly_pprEnd (s : Pprd) (p : PprProc) (e : PprEnd) : PprOnly s (pprEnd s p e) := by
  have submit : ∀ f, PprOnly s (submitJob (writeQueueFile s (p.dest, p.id, 0) f) p 0) := fun _ =>
    ⟨rfl, rfl, rfl, rfl, rfl, rfl, rfl⟩
  have ite : ∀ (c : Prop) [Decidable c] {t u : Pprd}, PprOnly s t → PprOnly s u →
      PprOnly s (if c then t else u) := by
    intro c _ t u ht hu
    split_ifs
    · exact ht
    · exact hu
  cases e with
  | whole o => exact ite _ (pprOnly_fileCleanup s p) (submit _)
  | split os =>
    refine ite _ (pprOnly_fileCleanup s p) ?_
    exact ((pprOnly_writeFragments p s 1 os).trans (pprOnly_fileCleanup _ p)).trans
      (pprOnly_submitFragments p _ 1 _)
  | skeleton o => exact ite _ (.refl s) (submit _)
  | abort created => exact ite _ (pprOnly_fileCleanup s p) (.refl s)

theorem pprOnly_pprStart (s : Pprd) (n : String) : PprOnly s (pprStart s n) := by
  unfold pprStart
  split
  · exact .refl s
  · exact ⟨rfl, rfl, rfl, rfl, rfl, rfl, rfl⟩

theorem pprOnly_pprTakeSkeleton (s : Pprd) (n : String) (id : ℤ) :
    PprOnly s (pprTakeSkeleton s n id) := by
  unfold pprTakeSkeleton
  split_ifs
  · exact ⟨rfl, rfl, rfl, rfl, rfl, rfl, rfl⟩
  · exact .refl s

theorem pprOnly_pprFinish (s : Pprd) (i : ℕ) (e : PprEnd) : PprOnly s (pprFinish s i e) := by
  unfold pprFinish
  split
  · exact .refl s
  · have h : PprOnly s { s with pprs := s.pprs.eraseIdx i } := ⟨rfl, rfl, rfl, rfl, rfl, rfl, rfl⟩
    exact h.trans (pprOnly_pprEnd _ _ e)

end Ppr
