import Ppr.Proof.Handlers

/-!
# Moving jobs

A loop that moves jobs also starts printers, so that what it finds at one entry depends on the
entries before.  `Moving` says what the tables have to do with those the loop started from.
-/

namespace Ppr

open Outcome Machine

variable {K : Act → Pprd → Prop} {os : ℕ → Bool}

/-! ## Names of destinations -/

/-- The tables name the same destinations. -/
structure SameNames (s t : Pprd) : Prop where
  printerCount : t.printerCount = s.printerCount
  name : ∀ p, (t.printers p).name = (s.printers p).name
  deleted : ∀ p, t.prnStatus p = .deleted ↔ s.prnStatus p = .deleted
  groups : ∀ g, (t.groups g).core = (s.groups g).core
  groupCount : t.groupCount = s.groupCount

theorem SameNames.refl (s : Pprd) : SameNames s s :=
  ⟨rfl, fun _ => rfl, fun _ => .rfl, fun _ => rfl, rfl⟩

theorem SameNames.trans {s t u : Pprd} (h : SameNames s t) (h' : SameNames t u) :
    SameNames s u where
  printerCount := h'.printerCount.trans h.printerCount
  name p := (h'.name p).trans (h.name p)
  deleted p := (h'.deleted p).trans (h.deleted p)
  groups g := (h'.groups g).trans (h.groups g)
  groupCount := h'.groupCount.trans h.groupCount

theorem SameNames.destidIsGroup {s t : Pprd} (h : SameNames s t) (d : ℕ) :
    destidIsGroup t d = destidIsGroup s d := by
  simp [Ppr.destidIsGroup, h.printerCount]

theorem SameNames.groupName {s t : Pprd} (h : SameNames s t) (g : ℕ) :
    (t.groups g).name = (s.groups g).name ∧ (t.groups g).deleted = (s.groups g).deleted :=
  ⟨congrArg GroupCore.name (h.groups g), congrArg GroupCore.deleted (h.groups g)⟩

theorem SameNames.destidToName {s t : Pprd} (h : SameNames s t) (d : ℕ) :
    destidToName t d = destidToName s d := by
  simp only [Ppr.destidToName, h.destidIsGroup, h.groupCount, (h.groupName _).1,
    (h.groupName _).2, h.name, ne_eq, h.deleted]

theorem SameNames.destidLive {s t : Pprd} (h : SameNames s t) (d : ℕ) :
    destidLive t d = destidLive s d := by
  simp only [Ppr.destidLive, h.destidIsGroup, (h.groupName _).2, ne_eq, h.deleted]

theorem SameNames.destidByName {s t : Pprd} (h : SameNames s t) (n : String) :
    destidByName t n = destidByName s n := by
  simp only [Ppr.destidByName, destidByGroup, destidByPrinter, h.groupCount, h.printerCount,
    (h.groupName _).1, (h.groupName _).2, h.name, ne_eq, h.deleted]

/-- The act neither loads nor deletes a printer or group. -/
def Act.keepsNames : Act → Bool
  | .newPrinter .. | .deletePrinter _ | .newGroup .. | .group .. => false
  | _ => true

/-- An act of that kind neither deletes a printer nor brings one back. -/
theorem Act.core_keepsNames {a : Act} {s : Pprd} {p : ℕ} (ha : a.keepsNames) (hok : a.ok s)
    (hp : a.printer? = some p) (k : JobKey) :
    (a.core k (s.printers p).core).name = (s.printers p).name ∧
      ((a.core k (s.printers p).core).status = .deleted ↔ s.prnStatus p = .deleted) := by
  have he : (s.printers p).core.status = s.prnStatus p := rfl
  cases a with
  | start p' x y pid =>
    cases hp
    exact ⟨rfl, by simp [Act.core, hok.2.2.2.1]⟩
  | starve p' | feed p' =>
    cases hp
    exact ⟨rfl, by simp [Act.core, hok.1]⟩
  | status p' st =>
    cases hp
    exact ⟨rfl, by simp [Act.core, hok.1, hok.2.1]⟩
  | cancel x p' | cancelSeizing x p' | seize x p' =>
    refine ⟨rfl, ?_⟩
    simp only [Act.core, he]
    split_ifs with h <;> simp [h]
  | exitRemove p' e y | exitMiss p' e | exitKeep p' e y st | reload p' bins auto
  | mount p' bins => exact ⟨rfl, .rfl⟩
  | newPrinter | deletePrinter => cases ha
  | _ => cases hp

theorem Change.sameNames {a : Act} {s t : Pprd} (h : Change a s t) (ha : a.keepsNames) :
    SameNames s t := by
  have hc : ∀ p, (t.printers p).core.name = (s.printers p).name ∧
      ((t.printers p).core.status = .deleted ↔ s.prnStatus p = .deleted) := by
    intro p
    rw [h.printer p]
    split_ifs with hp
    · exact Act.core_keepsNames ha h.ok hp _
    · exact ⟨rfl, .rfl⟩
  refine ⟨?_, fun p => (hc p).1, fun p => (hc p).2, fun g => ?_, ?_⟩
  · rw [h.printerCount]
    cases a <;> first | rfl | cases ha
  · have := h.group g
    cases a <;> first | exact this | cases ha
  · rw [h.groupCount]
    cases a <;> first | rfl | cases ha

theorem Frame.sameNames {s t : Pprd} (h : Frame s t) : SameNames s t :=
  (Change.of_frame h).sameNames rfl

/-! ## The loop -/

/-- The tables after the jobs before entry `x` have been moved, of those that are named: the jobs
from there on are the same ones, unless a printer has started one; a printer that is at work was so
before or is at work on a job that is printing; a new file has the new name of a moved job. -/
structure Moving (s : Pprd) (named : ℕ → Bool) (d : ℕ) (n : String) (x : ℕ) (t : Pprd) :
    Prop where
  names : SameNames s t
  length : t.queue.length = s.queue.length
  job : ∀ y, x ≤ y → y < s.queue.length → (t.job y).key = (s.job y).key ∧
    (JobFrame (s.job y) (t.job y) ∨ (t.job y).status.isPrinting)
  key : ∀ y < s.queue.length, (t.job y).key = (s.job y).key ∨
    y < x ∧ named y ∧ (t.job y).key = (d, (s.job y).id, (s.job y).subid)
  running : ∀ p, (t.printers p).jobPid ≠ 0 →
    (s.printers p).jobPid ≠ 0 ∧ (t.printers p).jobKey = (s.printers p).jobKey ∨
      ∃ q ∈ t.queue, q.status.isPrinting ∧ q.key = (t.printers p).jobKey
  fifo : t.fifo = s.fifo

variable {named : ℕ → Bool} {d : ℕ} {n : String}

theorem Moving.refl (s : Pprd) (x : ℕ) : Moving s named d n x s where
  names := .refl s
  length := rfl
  job _ _ _ := ⟨rfl, .inl (.refl _)⟩
  key _ _ := .inl rfl
  running _ h := .inl ⟨h, rfl⟩
  fifo := rfl

theorem job_of_queueFrame {s t : Pprd} (h : QueueFrame s.queue t.queue) (x : ℕ) :
    JobFrame (s.job x) (t.job x) := h.job x

/-- Starting printers does not disturb the loop. -/
theorem Moving.of_start {a : Act} {s t u : Pprd} {x : ℕ} (h : Moving s named d n x t)
    (ha : a.isStart) (hc : Change a t u) : Moving s named d n x u := by
  obtain ⟨l, hl, hu⟩ := hc.queue
  -- An entry becomes one that is printing or goes through a frame step.
  have hjob : ∀ y, (u.job y).key = (t.job y).key ∧
      (JobFrame (t.job y) (u.job y) ∨ (u.job y).status.isPrinting) := by
    intro y
    have hlj := hl.job y
    cases a with
    | frame | starve p =>
      have : u.job y = l.getD y default := congrArg (·.getD y default) hu
      rw [this]
      exact ⟨hlj.key, .inl hlj⟩
    | start p x' y' pid =>
      have he : u.job y = ({ t with queue := l }.modifyJob y'
          fun q => { q with status := .printing p }).job y := congrArg (·.getD y default) hu
      rw [he, job_modifyJob]
      split_ifs
      · exact ⟨hlj.key, .inr rfl⟩
      · exact ⟨hlj.key, .inl hlj⟩
    | _ => cases ha
  have hlen : u.queue.length = t.queue.length := by
    rw [hu]
    cases a with
    | frame | starve p => exact hl.length
    | start p x' y' pid => exact (List.length_modify ..).trans hl.length
    | _ => cases ha
  refine ⟨h.names.trans (hc.sameNames ?_), hlen.trans h.length, fun y hy hys => ?_,
    fun y hy => ?_, fun p hp => ?_, (hc.fifo ?_).trans h.fifo⟩
  · cases a <;> first | rfl | cases ha
  · refine ⟨(hjob y).1.trans (h.job y hy hys).1, ?_⟩
    rcases (hjob y).2 with hj | hj
    · exact (h.job y hy hys).2.imp (·.trans hj) hj.isPrinting
    · exact .inr hj
  · rw [(hjob y).1]
    exact h.key y hy
  · have keep : (u.printers p).core.jobPid = (t.printers p).jobPid →
        (u.printers p).core.jobKey = (t.printers p).jobKey →
        (s.printers p).jobPid ≠ 0 ∧ (u.printers p).jobKey = (s.printers p).jobKey ∨
          ∃ q ∈ u.queue, q.status.isPrinting ∧ q.key = (u.printers p).jobKey := by
      intro hpid hkey
      rcases h.running p (hpid ▸ hp) with h' | ⟨q, hq, hpr, hqk⟩
      · exact .inl ⟨h'.1, hkey.trans h'.2⟩
      · obtain ⟨y, hy, rfl⟩ := mem_queue_iff.1 hq
        refine .inr ⟨u.job y, job_mem (hlen ▸ hy), ?_, (hjob y).1.trans (hqk.trans hkey.symm)⟩
        exact (hjob y).2.elim (·.isPrinting hpr) id
    cases a with
    | frame =>
      rw [hc.core_ne (by simp [Act.printer?])] at keep
      exact keep rfl rfl
    | starve p' =>
      rw [hc.printer p] at keep
      split_ifs at keep <;> exact keep rfl rfl
    | start p' x' y' pid =>
      by_cases hpp : p' = p
      · -- The entry found again is the one that is printing now.
        have hy := findJob_eq_some hc.ok.2.2.1
        have hk : (u.printers p).jobKey = (t.job x').key :=
          congrArg PrinterCore.jobKey (hc.core_of (congrArg some hpp))
        refine .inr ⟨u.job y', job_mem (hlen ▸ hy.1), ?_, ?_⟩
        · have hl' : y' < l.length := hl.length ▸ hy.1
          rw [Pprd.job, hu]
          simp [Act.queue, hl', JobStatus.isPrinting]
        · rw [hk, (hjob y').1, hy.2]
      · rw [hc.core_ne fun e => hpp (Option.some.inj e)] at keep
        exact keep rfl rfl
    | _ => cases ha
  · rintro rfl
    cases ha

theorem Moving.of_starts {s t u : Pprd} {x : ℕ} (h : Moving s named d n x t) (hu : Starts t u) :
    Moving s named d n x u :=
  Trail.invariant (I := Moving s named d n x) (fun _ _ _ hv ha hc => hv.of_start ha hc) hu h

/-- Entry `x` has its new destination and its file has been renamed. -/
def moved (s : Pprd) (x d : ℕ) (n : String) : Pprd :=
  if (s.job x).destid ≠ d then
    { s with disk := s.disk.rename (queueFileName s (s.job x)) (n, (s.job x).id, (s.job x).subid) }
      |>.modifyJob x fun q => { q with destid := d }
  else s

theorem moved_queue (s : Pprd) (x d : ℕ) (n : String) :
    (moved s x d n).queue = s.queue.modify x fun q => { q with destid := d } := by
  unfold moved
  split_ifs with h
  · rfl
  · refine List.ext_getElem (by simp) fun y hy hy' => ?_
    by_cases hxy : x = y
    · subst hxy
      rw [not_not, job_eq_getElem hy] at h
      simp [← h]
    · simp [hxy]

theorem isSome_rename (d : Disk) (old new : QName) (m : QName) :
    ((d.rename old new).queue m).isSome =
      if (d.queue old).isSome then
        Function.update (Function.update (fun m => (d.queue m).isSome) old false) new true m
      else (d.queue m).isSome := by
  unfold Disk.rename
  cases h : d.queue old with
  | none => rfl
  | some f =>
    simp only [Option.isSome_some, if_true, Function.update_apply]
    split_ifs <;> rfl

theorem change_move {s : Pprd} {x d : ℕ} {n : String} (hx : x < s.queue.length)
    (h : (s.job x).status.isPrinting = false) : Change (.move x d n) s (moved s x d n) where
  ok := ⟨hx, h⟩
  queue := ⟨s.queue, .refl _, moved_queue s x d n⟩
  printer p := by
    unfold moved
    split_ifs <;> rfl
  printerCount := by
    unfold moved
    split_ifs <;> rfl
  group g := by
    unfold moved
    split_ifs <;> rfl
  groupCount := by
    unfold moved
    split_ifs <;> rfl
  active := by
    unfold moved
    split_ifs <;> exact (add_zero _).symm
  starving := by
    unfold moved
    split_ifs <;> exact (add_zero _).symm
  files _ m := by
    unfold moved
    by_cases hd : (s.job x).destid = d
    · simp [Act.files, hd]
    · rw [if_pos hd]
      simp only [Act.files, if_neg hd]
      refine (isSome_rename s.disk _ _ m).trans ?_
      split_ifs <;> rfl
  fifo _ := by
    unfold moved
    split_ifs <;> rfl
  pprs _ := by
    unfold moved
    split_ifs <;> rfl

theorem frame_moveEntry (s : Pprd) (x d : ℕ) (n : String) :
    Frame (moved s x d n) (moveEntry s x d n) := by
  unfold moveEntry
  dsimp only
  change Frame (moved s x d n) (mediaSetNotnowForJob (Pprd.modifyJob
    (if ((moved s x d n).job x).status = .stranded then
      queuePJobNewStatus (moved s x d n) x .waiting else moved s x d n) x _) x)
  refine Frame.trans (Frame.trans ?_ (frame_modifyJob _ x fun _ => ⟨rfl, rfl, rfl, rfl, .inl rfl⟩))
    (frame_mediaSetNotnowForJob _ x)
  split_ifs with h
  · exact frame_queuePJobNewStatus _ x _ (fun _ => by rw [h]; rfl) rfl
  · rfl

/-- The entry that is being moved is passed. -/
theorem Moving.of_move {s t : Pprd} {x : ℕ} (h : Moving s named d n x t) (hx : x < t.queue.length)
    (hnamed : named x) (hp : (t.job x).status.isPrinting = false) :
    Moving s named d n (x + 1) (moved t x d n) := by
  have hc : Change (.move x d n) t (moved t x d n) := change_move hx hp
  have hjob : ∀ y, x ≠ y → (moved t x d n).job y = t.job y := by
    intro y hxy
    rw [Pprd.job, moved_queue]
    simp [Pprd.job, hxy]
  have hjobx : (moved t x d n).job x = { t.job x with destid := d } := by
    rw [Pprd.job, moved_queue]
    simp [Pprd.job, hx]
  have hkey := (h.job x le_rfl (h.length ▸ hx)).1
  refine ⟨h.names.trans (hc.sameNames rfl), ?_, fun y hy hys => ?_, fun y hy => ?_,
    fun p hpid => ?_, (hc.fifo (by simp)).trans h.fifo⟩
  · rw [moved_queue, List.length_modify, h.length]
  · rw [hjob y (by omega)]
    exact h.job y (by omega) hys
  · by_cases hxy : x = y
    · subst hxy
      rw [hjobx]
      simp only [QEntry.key, Prod.mk.injEq] at hkey ⊢
      exact .inr ⟨by omega, hnamed, trivial, hkey.2.1, hkey.2.2⟩
    · rw [hjob y hxy]
      refine (h.key y hy).imp_right ?_
      rintro ⟨h1, h2⟩
      exact ⟨by omega, h2⟩
  · have he := hc.core_ne (p := p) (by simp [Act.printer?])
    have hk : ((moved t x d n).printers p).jobKey = (t.printers p).jobKey :=
      congrArg PrinterCore.jobKey he
    have hi : ((moved t x d n).printers p).jobPid = (t.printers p).jobPid :=
      congrArg PrinterCore.jobPid he
    rw [hk]
    refine (h.running p (hi ▸ hpid)).imp_right ?_
    rintro ⟨q, hq, hqp, hqk⟩
    obtain ⟨y, hy, rfl⟩ := mem_queue_iff.1 hq
    have hxy : x ≠ y := by
      rintro rfl
      rw [hp] at hqp
      cases hqp
    refine ⟨(moved t x d n).job y, job_mem ?_, ?_, ?_⟩
    · rwa [moved_queue, List.length_modify]
    · rwa [hjob y hxy]
    · rwa [hjob y hxy]

theorem moveJob_acts (hK : Base K) {s t : Pprd} {x : ℕ} (h : Moving s named d n x t)
    (hx : x < t.queue.length) (hnamed : named x)
    (hp : (t.job x).status.isPrinting = false) (hmove : K (.move x d n) t) :
    Ensures (moveJob os t x d n) fun u => Acts K t u ∧ Moving s named d n (x + 1) u := by
  have ha : Acts K t (moveEntry t x d n) :=
    hK.acts_then_frame (Trail.single hmove (change_move hx hp)) (frame_moveEntry t x d n)
  have hm : Moving s named d n (x + 1) (moveEntry t x d n) :=
    (h.of_move hx hnamed hp).of_starts (.of_frame (frame_moveEntry t x d n))
  refine ensures_ite (fun _ => ?_) fun _ => ensures_ok ⟨ha, hm⟩
  refine (printerTryStart_starts ?_).mono fun u hu => ⟨ha.trans (hu.acts hK), hm.of_starts hu⟩
  rwa [hm.length, ← h.length]

/-- Permission to move the named jobs that are not printing. -/
def MovePermit (K : Act → Pprd → Prop) (s : Pprd) (named : ℕ → Bool) (d : ℕ) (n : String) :
    Prop :=
  ∀ t x, Moving s named d n x t → x < s.queue.length → named x →
    (s.job x).status.isPrinting = false → K (.move x d n) t

theorem isNamed_of_key {q q' : QEntry} (h : q'.key = q.key) (destid : Option ℕ) (id subid : ℤ) :
    q'.isNamed destid id subid = q.isNamed destid id subid := by
  simp only [QEntry.key, Prod.mk.injEq] at h
  simp only [QEntry.isNamed, h.1, h.2.1, h.2.2]

theorem moveJobs_acts (hK : Base K) {s : Pprd} {destid : ℕ} {id subid : ℤ}
    (hm : MovePermit K s (fun x => (s.job x).isNamed (some destid) id subid) d n) :
    Ensures (moveJobs os s destid id subid d n) (Acts K s) := by
  refine forLoop_ensures (fun i x t => x + i = s.queue.length ∧ Acts K s t ∧
      Moving s (fun x => (s.job x).isNamed (some destid) id subid) d n x t) (Acts K s)
    (fun _ _ h => h.2.1) (fun i x t ⟨hi, ht, hmv⟩ => ?_) s.queue.length 0 s
    ⟨by simp, .refl s, .refl s 0⟩
  have hxs : x < s.queue.length := by omega
  have pass : Moving s (fun x => (s.job x).isNamed (some destid) id subid) d n (x + 1) t :=
    { hmv with
      job := fun y hy => hmv.job y (by omega)
      key := fun y hy => (hmv.key y hy).imp_right fun ⟨h1, h2⟩ => ⟨by omega, h2⟩ }
  have hx : x < t.queue.length := hmv.length ▸ hxs
  obtain ⟨hkey, hjob⟩ := hmv.job x le_rfl hxs
  refine ensures_ite (fun hnamed => ?_) fun _ => ensures_ok ⟨by omega, ht, pass⟩
  rw [isNamed_of_key hkey] at hnamed
  have move : (t.job x).status.isPrinting = false →
      Ensures (do
        let s ← moveJob os t x d n
        Except.ok (Flow.next s)) fun f => ∃ u, f = .next u ∧ x + 1 + i = s.queue.length ∧
          Acts K s u ∧ Moving s (fun x => (s.job x).isNamed (some destid) id subid) d n (x + 1) u := by
    intro hp
    have hps : (s.job x).status.isPrinting = false := by
      by_contra hps
      rcases hjob with hj | hj
      · exact absurd (hj.isPrinting (by simpa using hps)) (by simp [hp])
      · simp [hj] at hp
    refine Ensures.bind (moveJob_acts hK hmv hx hnamed hp (hm t x hmv hxs hnamed hps))
      fun u hu => ensures_ok ⟨u, rfl, by omega, ht.trans hu.1, hu.2⟩
  cases hst : (t.job x).status with
  | printing p => exact ensures_ok ⟨by omega, ht, pass⟩
  | _ =>
    refine (move (by rw [hst]; rfl)).mono ?_
    rintro f ⟨u, rfl, hu⟩
    exact hu

end Ppr
