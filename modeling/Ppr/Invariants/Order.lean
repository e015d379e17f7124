import Ppr.Invariants.Names
import Ppr.Proof.Boots

/-!
# The order of the queue

The queue is in order of the priorities.  As long as no job is rushed and none is made from its
skeleton, jobs of one priority are in order of their sequence numbers.
-/

namespace Ppr

open Outcome Machine

variable {os : ℕ → Bool}

/-! ## What acts do to the order -/

/-- Priority and sequence number. -/
def QEntry.rank (q : QEntry) : ℕ × ℕ := (q.priority, q.sequenceNumber)

def Pprd.ranks (s : Pprd) : List (ℕ × ℕ) := s.queue.map QEntry.rank

/-- What an act does to the ranks. -/
def Act.ranks : Act → List (ℕ × ℕ) → List (ℕ × ℕ)
  | .purge _ y, l | .exitRemove _ _ y, l => l.eraseIdx y
  | .insert x q, l => l.insertIdx x q.rank
  | .replace x q, l => l.set x q.rank
  | .rush x newpos, l =>
    if newpos = 0 then (101, (l.getD x default).2) :: l.eraseIdx x
    else l.eraseIdx x ++ [(1, (l.getD x default).2)]
  | _, l => l

theorem QueueFrame.ranks {l l' : List QEntry} (h : QueueFrame l l') :
    l'.map QEntry.rank = l.map QEntry.rank :=
  h.map_eq QEntry.rank fun _ _ h => Prod.ext h.priority h.sequenceNumber

theorem Change.ranks {a : Act} {s t : Pprd} (h : Change a s t) : t.ranks = a.ranks s.ranks := by
  obtain ⟨l, hl, ht⟩ := h.queue
  have hk := hl.ranks
  have status (st : JobStatus) (x : ℕ) :
      (l.modify x fun q => { q with status := st }).map QEntry.rank = l.map QEntry.rank :=
    List.map_modify_of_eq (f := fun q : QEntry => { q with status := st }) (fun _ => rfl) l x
  unfold Pprd.ranks
  rw [ht, ← hk]
  cases a with
  | start p x y pid => exact status _ _
  | cancel x p | cancelSeizing x p | seize x p => exact status _ _
  | exitKeep p e y st => exact status _ _
  | move x d n =>
    exact List.map_modify_of_eq (f := fun q : QEntry => { q with destid := d }) (fun _ => rfl) l x
  | purge x y | exitRemove p e y => exact (List.eraseIdx_map ..).symm
  | insert x q => exact List.map_insertIdx ..
  | replace x q => exact List.map_set
  | rush x newpos =>
    obtain hx := h.ok
    have hlx : x < l.length := hl.length ▸ hx
    by_cases hn : newpos = 0 <;>
      simp [Act.queue, Act.ranks, hn, hlx, List.eraseIdx_map, QEntry.rank]
  | _ => rfl

/-! ## The order -/

/-- Where a new job goes before another. -/
def overtakes (a b : ℕ × ℕ) : Bool := a.1 > b.1 || (a.1 = b.1 && a.2 < b.2)

/-- The order of new jobs: the higher priority first, and of one priority the lower number. -/
def Precedes (a b : ℕ × ℕ) : Prop := b.1 < a.1 ∨ b.1 = a.1 ∧ a.2 ≤ b.2

theorem Precedes.trans {a b c : ℕ × ℕ} (h : Precedes a b) (h' : Precedes b c) : Precedes a c := by
  unfold Precedes at *
  omega

theorem precedes_of_overtakes {a b : ℕ × ℕ} (h : overtakes a b = true) : Precedes a b := by
  simp only [overtakes, Bool.or_eq_true, Bool.and_eq_true, decide_eq_true_eq] at h
  unfold Precedes
  omega

theorem precedes_of_not_overtakes {a b : ℕ × ℕ} (h : ¬overtakes a b = true) : Precedes b a := by
  simp only [overtakes, Bool.or_eq_true, Bool.and_eq_true, decide_eq_true_eq] at h
  unfold Precedes
  omega

theorem Precedes.priority {a b : ℕ × ℕ} (h : Precedes a b) : b.1 ≤ a.1 := by
  unfold Precedes at h
  omega

theorem findIdx_goesBefore (s : Pprd) (q : QEntry) :
    s.queue.findIdx (goesBefore q) = s.ranks.findIdx (overtakes q.rank) := by
  rw [Pprd.ranks, List.findIdx_map]
  rfl

/-- The queue is in order of the priorities, which are those of ppr, or the ones `ppop_rush()` gives. -/
structure Graded (s : Pprd) : Prop where
  sorted : s.ranks.Pairwise fun a b => b.1 ≤ a.1
  range : ∀ r ∈ s.ranks, 1 ≤ r.1 ∧ r.1 ≤ 101

/-- The queue is in the order of new jobs. -/
def Sequenced (s : Pprd) : Prop := s.ranks.Pairwise Precedes

/-- The priority of a new entry is a priority, and that of one made anew is the old one. -/
def Act.keepsGrade (s : Pprd) : Act → Prop
  | .insert _ q => 1 ≤ q.priority ∧ q.priority ≤ 101
  | .replace x q => q.priority = (s.job x).priority
  | _ => True

theorem map_set_priority {l : List (ℕ × ℕ)} {x : ℕ} {r : ℕ × ℕ} (h : r.1 = (l.getD x default).1) :
    (l.set x r).map Prod.fst = l.map Prod.fst := by
  rw [List.map_set, h]
  by_cases hx : x < l.length
  · rw [List.getD_eq_getElem _ _ hx, ← List.getElem_map Prod.fst (h := by simpa using hx)]
    exact List.set_getElem_self _
  · rw [List.set_eq_of_length_le (by simpa using Nat.le_of_not_lt hx)]

theorem Graded.act {a : Act} {s t : Pprd} (h : Graded s) (hk : a.keepsGrade s) (hc : Change a s t) :
    Graded t := by
  have hranks := hc.ranks
  suffices hsuff : (a.ranks s.ranks).Pairwise (fun a b => b.1 ≤ a.1) ∧
      ∀ r ∈ a.ranks s.ranks, 1 ≤ r.1 ∧ r.1 ≤ 101 by
    rw [← hranks] at hsuff
    exact ⟨hsuff.1, hsuff.2⟩
  have hfewer (y : ℕ) : (s.ranks.eraseIdx y).Pairwise (fun a b => b.1 ≤ a.1) ∧
      ∀ r ∈ s.ranks.eraseIdx y, 1 ≤ r.1 ∧ r.1 ≤ 101 :=
    ⟨h.sorted.sublist (List.eraseIdx_sublist _ _),
      fun r hr => h.range r (List.mem_of_mem_eraseIdx hr)⟩
  cases a with
  | purge x y | exitRemove p e y => exact hfewer y
  | insert x q =>
    obtain ⟨rfl, -⟩ := hc.ok
    rw [Act.ranks, findIdx_goesBefore]
    constructor
    · refine h.sorted.insertIdx_findIdx (fun h h' => h'.trans h) (fun b _ hb => ?_) fun b _ hb => ?_
      · exact (precedes_of_overtakes hb).priority
      · exact (precedes_of_not_overtakes hb).priority
    · intro r hr
      obtain rfl | hr := List.eq_or_mem_of_mem_insertIdx hr
      · exact hk
      · exact h.range r hr
  | replace x q =>
    have hold : q.rank.1 = (s.ranks.getD x default).1 := by
      have hx := hc.ok.1
      have hjob : s.ranks.getD x default = (s.job x).rank := by simp [Pprd.ranks, Pprd.job, hx]
      rw [hjob]
      exact hk
    have hmap := map_set_priority hold
    constructor
    · have hsorted : (s.ranks.map Prod.fst).Pairwise (fun a b => b ≤ a) := List.pairwise_map.2 h.sorted
      rw [← hmap] at hsorted
      exact List.pairwise_map.1 hsorted
    · intro r hr
      have hmem : r.1 ∈ (s.ranks.set x q.rank).map Prod.fst := List.mem_map_of_mem hr
      rw [hmap] at hmem
      obtain ⟨r', hr', heq⟩ := List.mem_map.1 hmem
      rw [← heq]
      exact h.range r' hr'
  | rush x newpos =>
    obtain ⟨hsorted, hrange⟩ := hfewer x
    rw [Act.ranks]
    split_ifs
    · refine ⟨List.pairwise_cons.2 ⟨fun r hr => (hrange r hr).2, hsorted⟩, ?_⟩
      exact List.forall_mem_cons.2 ⟨by simp, hrange⟩
    · refine ⟨List.pairwise_append.2 ⟨hsorted, List.pairwise_singleton _ _, fun r hr b hb => ?_⟩,
        fun r hr => ?_⟩
      · obtain rfl := List.mem_singleton.1 hb
        exact (hrange r hr).1
      · obtain hr | hr := List.mem_append.1 hr
        · exact hrange r hr
        · obtain rfl := List.mem_singleton.1 hr
          simp
  | _ => exact ⟨h.sorted, h.range⟩

/-- The act neither rushes a job nor makes one from its skeleton. -/
def Act.isOrderly : Act → Bool
  | .replace .. | .rush .. => false
  | _ => true

theorem Sequenced.act {a : Act} {s t : Pprd} (h : Sequenced s) (hk : a.isOrderly) (hc : Change a s t) :
    Sequenced t := by
  have hsorted : s.ranks.Pairwise Precedes := h
  unfold Sequenced
  rw [hc.ranks]
  cases a with
  | purge x y | exitRemove p e y => exact hsorted.sublist (List.eraseIdx_sublist _ _)
  | insert x q =>
    obtain ⟨rfl, -⟩ := hc.ok
    rw [Act.ranks, findIdx_goesBefore]
    refine hsorted.insertIdx_findIdx Precedes.trans (fun b _ hb => ?_) fun b _ hb => ?_
    · exact precedes_of_overtakes hb
    · exact precedes_of_not_overtakes hb
  | replace x q => cases hk
  | rush x newpos => cases hk
  | _ => exact h

/-! ## Events -/

/-- The next submission fits in: the queue file of a new job has a priority, and that of a job made from
its skeleton has the priority of the skeleton's entry. -/
def RanksKept (s : Pprd) : Event → Prop
  | .queueNewJob =>
    match s.fifo with
    | .new name :: _ => ∀ f ∈ s.disk.queue name, 1 ≤ f.line.priority ∧ f.line.priority ≤ 101
    | .reload name :: _ => ∀ f ∈ s.disk.queue name, ∀ q ∈ s.queue,
        destidByName s name.1 = some q.destid → (q.id, q.subid) = name.2 → f.line.priority = q.priority
    | [] => True
  | _ => True

def decidableFifoRanked (s : Pprd) (fifo : List Submission) :
    Decidable (match fifo with
      | .new name :: _ => ∀ f ∈ s.disk.queue name, 1 ≤ f.line.priority ∧ f.line.priority ≤ 101
      | .reload name :: _ => ∀ f ∈ s.disk.queue name, ∀ q ∈ s.queue,
          destidByName s name.1 = some q.destid → (q.id, q.subid) = name.2 → f.line.priority = q.priority
      | [] => True) :=
  match fifo with
  | .new name :: _ =>
    inferInstanceAs (Decidable (∀ f ∈ s.disk.queue name, 1 ≤ f.line.priority ∧ f.line.priority ≤ 101))
  | .reload name :: _ =>
    inferInstanceAs (Decidable (∀ f ∈ s.disk.queue name, ∀ q ∈ s.queue,
      destidByName s name.1 = some q.destid → (q.id, q.subid) = name.2 → f.line.priority = q.priority))
  | [] => isTrue trivial

instance (s : Pprd) (ev : Event) : Decidable (RanksKept s ev) :=
  match ev with
  | .queueNewJob => decidableFifoRanked s s.fifo
  | .pprStart _ | .pprTakeSkeleton _ _ | .pprFinish _ _ | .newPrinterConfig _ _ | .newGroupConfig _ _ | .ppop _
  | .ipp _ | .reapchild _ _ _ | .tick _ => isTrue trivial

/-- The event rushes a job, or makes one from its skeleton. -/
def Event.reorders (s : Pprd) : Event → Bool
  | .queueNewJob => s.fifo.head?.any fun sub => match sub with
    | .new _ => false
    | .reload _ => true
  | ev => ev.rushes

theorem Allowed.keepsGrade {s u : Pprd} {ev : Event} {a : Act} (hk : RanksKept s ev)
    (ha : Allowed s ev u a) (hok : a.ok u) : a.keepsGrade u := by
  cases a with
  | insert x q =>
    obtain ⟨name, rfl, rest, name', hf, hname, -, hq⟩ := ha
    obtain rfl : name = name' := by simpa using hname
    obtain ⟨f, hfile, hpriority, -⟩ := hq.file
    simp only [RanksKept, hf] at hk
    change 1 ≤ q.priority ∧ q.priority ≤ 101
    rw [hpriority]
    exact hk f hfile
  | replace x q =>
    obtain ⟨name, rfl, rest, name', hf, hname, hu, hq⟩ := ha
    obtain rfl : name = name' := by simpa using hname
    obtain ⟨f, hfile, hpriority, -⟩ := hq.file
    obtain ⟨hx, hkey, -⟩ := hok
    have hjob : JobFrame (s.job x) (u.job x) := hu.queue.job x
    have hlt : x < s.queue.length := hu.queue.length ▸ hx
    have hmem : s.job x ∈ s.queue := by
      rw [Pprd.job, List.getD_eq_getElem _ _ hlt]
      exact List.getElem_mem hlt
    have hold := hjob.key.symm.trans hkey.symm
    simp only [QEntry.key, Prod.mk.injEq] at hold
    obtain ⟨hdestid, hid, hsubid⟩ := hold
    simp only [RanksKept, hf] at hk
    change q.priority = (u.job x).priority
    rw [hpriority, hjob.priority]
    refine hk f hfile _ hmem ?_ ?_
    · rw [hdestid]
      exact hq.dest
    · rw [hid, hsubid, hq.id, hq.subid]
  | _ => trivial

theorem Allowed.isOrderly {s u : Pprd} {ev : Event} {a : Act} (hk : ev.reorders s = false)
    (ha : Allowed s ev u a) : a.isOrderly := by
  cases a with
  | replace x q =>
    obtain ⟨name, rfl, rest, name', hf, -⟩ := ha
    simp [Event.reorders, hf] at hk
  | rush x newpos =>
    have hrush : ev.rushes = true := ha
    cases ev with
    | queueNewJob => cases hrush
    | _ => exact absurd (hrush.symm.trans hk) (by decide)
  | _ => rfl

theorem Graded.step {s t : Pprd} {ev : Event} (h : Graded s) (hev : ev.possible) (hk : RanksKept s ev)
    (hst : step os s ev = .ok t) : Graded t :=
  Trail.invariant (fun _ _ _ hu ha hc => hu.act (ha.keepsGrade hk hc.ok) hc) (step_acts hev t hst) h

theorem Sequenced.step {s t : Pprd} {ev : Event} (h : Sequenced s) (hev : ev.possible)
    (hk : ev.reorders s = false) (hst : step os s ev = .ok t) : Sequenced t :=
  Trail.invariant (fun _ _ _ hu ha hc => hu.act (ha.isOrderly hk) hc) (step_acts hev t hst) h

/-! ## The start of the daemon -/

/-- The order that the queue has at first, and that scans keep. -/
def InOrder (s : Pprd) : Prop := Graded s ∧ Sequenced s

theorem InOrder.act {a : Act} {s t : Pprd} (h : InOrder s) (hk : a.keepsGrade s) (ho : a.isOrderly)
    (hc : Change a s t) : InOrder t := ⟨h.1.act hk hc, h.2.act ho hc⟩

theorem InOrder.starts {s t : Pprd} (h : InOrder s) (hst : Starts s t) : InOrder t := by
  have hK : Base fun a s => a.keepsGrade s ∧ a.isOrderly := by
    constructor <;> intros <;> exact ⟨trivial, rfl⟩
  exact Trail.invariant (I := InOrder) (fun _ _ _ hu ha hc => hu.act ha.1 ha.2 hc) (hst.acts hK) h

/-- No queue file is there that was not there before. -/
def FilesLeft (s t : Pprd) : Prop := ∀ name, ∀ f ∈ t.disk.queue name, f ∈ s.disk.queue name

theorem FilesLeft.of_eq {s t : Pprd} (h : t.disk.queue = s.disk.queue) : FilesLeft s t := by
  intro name f hf
  rwa [h] at hf

theorem files_jobCountAdjust (s : Pprd) (destid : ℕ) (increment : ℤ) (flush : Bool) :
    (jobCountAdjust s destid increment flush).disk.queue = s.disk.queue := by
  unfold jobCountAdjust
  dsimp only
  split_ifs <;> simp [printerSpoolStateSave, groupSpoolStateSave, Pprd.modifyPrinter, Pprd.modifyGroup]

theorem files_getMediaIds (s : Pprd) (names : List String) :
    Ensures (getMediaIds s names) fun r => r.1.disk.queue = s.disk.queue := by
  induction names generalizing s with
  | nil => exact ensures_ok rfl
  | cons m ms ih =>
    refine Ensures.bind (getMediaId_ensures s m) fun r hr => ?_
    obtain ⟨media, hr⟩ := hr
    refine Ensures.bind (ih r.1) fun r' hr' => ensures_ok ?_
    rw [hr', hr]

theorem files_queueQuestion (s : Pprd) (x : ℕ) :
    Ensures (queueQuestion os s x) fun t => t.disk.queue = s.disk.queue := by
  refine ensures_ite (fun _ => ensures_ite (fun _ => ?_) fun _ => ensures_ok rfl) fun _ => ensures_ok rfl
  unfold questionLaunch
  split
  · exact ensures_error
  · dsimp only
    split_ifs <;> exact ensures_ok rfl

/-- While the daemon starts, the files of other jobs are left alone. -/
theorem files_queueAcceptQueuefile (s : Pprd) (name : QName) :
    Ensures (queueAcceptQueuefile os s name false false) (FilesLeft s) := by
  have refuse {u : Pprd} (hu : u.disk.queue = s.disk.queue) : FilesLeft s (deleteJobFiles u name) := by
    intro n f hf
    by_cases hn : n = name
    · subst hn
      simp [deleteJobFiles] at hf
    · simpa [deleteJobFiles, hn, hu] using hf
  unfold queueAcceptQueuefile
  split
  · refine ensures_ite (fun _ => ensures_ok (refuse rfl)) fun _ => ?_
    refine Ensures.bind (files_getMediaIds s _) ?_
    rintro ⟨u, media⟩ hu
    refine ensures_ite (fun h => absurd h (by decide)) fun _ => ?_
    refine ensures_ite (fun _ => ensures_ok (refuse hu)) fun _ => ?_
    refine Ensures.bind (files_queueQuestion _ _) fun v hv => ?_
    refine ensures_ite (fun h => absurd h.1 (by decide)) fun _ => ensures_ok (.of_eq ?_)
    rw [hv]
    exact (files_jobCountAdjust _ _ _ _).trans hu
  · exact ensures_ok (refuse rfl)

theorem files_loadPrinters1 (s : Pprd) (n : String) (conf : PrinterConf) :
    Ensures (loadPrinters1 s n conf) fun t => t.queue = s.queue ∧ t.disk.queue = s.disk.queue := by
  refine ensures_ite (fun _ => ensures_ok ⟨rfl, rfl⟩) fun _ => ?_
  obtain ⟨bins, auto, -, hload⟩ := loaded_loadPrinter s s.printerCount n conf
  refine Ensures.bind (mediaMountedRecover_ensures _ s.printerCount) ?_
  rintro t ⟨bins', -, ht⟩
  exact ensures_ok ⟨ht.only.queue.trans hload.only.queue, ht.only.files.trans hload.only.files⟩

theorem files_loadGroups1 (s : Pprd) (n : String) (conf : GroupConf) :
    Ensures (loadGroups1 s n conf) fun t => t.queue = s.queue ∧ t.disk.queue = s.disk.queue := by
  refine ensures_ite (fun _ => ensures_ok ⟨rfl, rfl⟩) fun _ => ?_
  refine Ensures.bind (loadGroup_ensures s s.groupCount n conf) ?_
  rintro t ⟨c, -, -, -, rfl⟩
  exact ensures_ok ⟨rfl, rfl⟩

theorem files_loadTables (b : Boot) :
    Ensures (loadTables b) fun s => s.queue = [] ∧ s.disk.queue = b.disk.queue := by
  refine Ensures.bind (Q := fun s => s.queue = [] ∧ s.disk.queue = b.disk.queue) ?_ fun s hs => ?_
  · refine ensures_foldlM (fun s f _ hs => ?_) ⟨rfl, rfl⟩
    exact (files_loadPrinters1 s f.1 f.2).mono fun t ht => ⟨ht.1.trans hs.1, ht.2.trans hs.2⟩
  · refine ensures_foldlM (fun s f _ hs => ?_) hs
    exact (files_loadGroups1 s f.1 f.2).mono fun t ht => ⟨ht.1.trans hs.1, ht.2.trans hs.2⟩

/-- The order of the queue when the daemon has accepted some queue files and the others have
priorities. -/
def Accepting (s : Pprd) : Prop :=
  InOrder s ∧ ∀ name, ∀ f ∈ s.disk.queue name, 1 ≤ f.line.priority ∧ f.line.priority ≤ 101

theorem Accepting.accept {s t : Pprd} {name : QName} (h : Accepting s) (ha : Accepted s name false t)
    (hfiles : FilesLeft s t) : Accepting t := by
  refine ⟨?_, fun n f hf => h.2 n f (hfiles n f hf)⟩
  rcases ha with ⟨u, hu, rfl, -⟩ | ⟨u, v, q, a, hu, hq, hc, hst, ⟨-, rfl⟩ | ⟨hr, -⟩⟩
  · have hu' := h.1.act (a := .frame) trivial rfl (.of_frame hu)
    have hc : Change .ppr u (deleteJobFiles u name) := change_ppr rfl rfl rfl rfl rfl rfl rfl
    exact hu'.act (a := .ppr) trivial rfl hc
  · have hu' := h.1.act (a := .frame) trivial rfl (.of_frame hu)
    obtain ⟨f, hf, hpriority, -⟩ := hq.file
    have hk : (Act.insert (u.queue.findIdx (goesBefore q)) q).keepsGrade u := by
      change 1 ≤ q.priority ∧ q.priority ≤ 101
      rw [hpriority]
      exact h.2 name f hf
    exact (hu'.act hk rfl hc).starts hst
  · cases hr

theorem InOrder.boot {b : Boot} (hb : b.Wf) : Ensures (boot os b) InOrder := by
  refine Ensures.bind (files_loadTables b) fun s hs => ?_
  obtain ⟨hqueue, hfiles⟩ := hs
  have hranks : s.ranks = [] := by rw [Pprd.ranks, hqueue, List.map_nil]
  have hs : Accepting s := by
    refine ⟨⟨⟨?_, ?_⟩, ?_⟩, fun name f hf => hb.priority name f ?_⟩
    · rw [hranks]
      exact List.Pairwise.nil
    · rw [hranks]
      exact fun r hr => absurd hr List.not_mem_nil
    · rw [Sequenced, hranks]
      exact List.Pairwise.nil
    · rwa [hfiles] at hf
  refine (initializeQueue_ensures (J := fun _ => Accepting) hs fun name rest s hs t ht => ?_).mono ?_
  · exact hs.accept (queueAcceptQueuefile_ensures s name false false t ht)
      (files_queueAcceptQueuefile s name t ht)
  · rintro u ⟨t, ht, hu⟩
    exact ht.1.starts hu

/-! ## Runs -/

/-- In every run in which the submissions fit in, the queue is in order of the priorities; and as long
as no job is rushed or made from its skeleton, it is in the order of new jobs. -/
theorem queue_sorted {hist : List (Pprd × Event)} {s : Pprd}
    (run : Runs os (fun _ => True) RanksKept hist s) :
    Graded s ∧ ((∀ e ∈ hist, e.2.reorders e.1 = false) → Sequenced s) := by
  refine run.history_invariant
    (I := fun hist s => Graded s ∧ ((∀ e ∈ hist, e.2.reorders e.1 = false) → Sequenced s)) ?_ ?_
  · rintro s ⟨b, hw, -, hs⟩
    obtain ⟨hg, hseq⟩ := InOrder.boot hw s hs
    exact ⟨hg, fun _ => hseq⟩
  · rintro hist s ev t ⟨hg, hseq⟩ ⟨hev, hk, hst⟩
    refine ⟨hg.step hev hk hst, fun hall => ?_⟩
    obtain ⟨hnow, hbefore⟩ := List.forall_mem_cons.1 hall
    exact (hseq hbefore).step hev hnow hst

/-- One printer, and no jobs. -/
def bareBoot : Boot := .ofFiles [("A", ⟨[]⟩)] [] []

theorem bareBoot_wf : bareBoot.Wf := Boot.wf_ofFiles (by decide) (by decide) (by decide) (by decide)

/-- A job submitted at some time. -/
def jobAt (time : ℕ) : PprOptions :=
  { priority := 50, priority_range := by decide, time := time, hold := false, save := false,
    question := false, media := [] }

/-- Two jobs of one priority; the later one is submitted first. -/
theorem queue_sorted_two :
    ∃ hist s, Runs (fun _ => false) (fun _ => True) RanksKept hist s ∧
      s.ranks = [(50, 1), (50, 2)] ∧ Graded s ∧ Sequenced s := by
  obtain ⟨hist, s, run, hall, hranks⟩ := exists_runs_replay (fun _ => false) (fun _ => True) RanksKept
    bareBoot_wf trivial
    [.pprStart "A", .pprFinish 0 (.whole (jobAt 2)), .queueNewJob,
      .pprStart "A", .pprFinish 0 (.whole (jobAt 1)), .queueNewJob]
    (P := fun hist s => (∀ e ∈ hist, e.2.reorders e.1 = false) ∧ s.ranks = [(50, 1), (50, 2)])
    (by decide +kernel)
  have hsorted := queue_sorted run
  exact ⟨hist, s, run, hranks, hsorted.1, hsorted.2 hall⟩

/-! ## Places -/

/-- The ids and sub-ids of the queued jobs, in order. -/
def Pprd.serials (s : Pprd) : List (ℤ × ℤ) := s.keys.map Prod.snd

/-- The act takes a job out of the queue. -/
def Act.takesOut : Act → Bool
  | .purge .. | .exitRemove .. => true
  | _ => false

/-- The act puts a job into the queue. -/
def Act.putsIn : Act → Bool
  | .insert .. => true
  | _ => false

/-- The act moves a job to the front or the back. -/
def Act.rushes : Act → Bool
  | .rush .. => true
  | _ => false

theorem serials_modify (l : List JobKey) (x d : ℕ) :
    (l.modify x fun k => (d, k.2)).map Prod.snd = l.map Prod.snd :=
  List.map_modify_of_eq (f := fun k : JobKey => (d, k.2)) (fun _ => rfl) l x

theorem Change.serials_sublist {a : Act} {s t : Pprd} (hc : Change a s t) (hin : a.putsIn = false)
    (hrush : a.rushes = false) : t.serials.Sublist s.serials := by
  rw [Pprd.serials, hc.keys]
  cases a with
  | purge x y | exitRemove p e y => exact (List.eraseIdx_sublist _ _).map _
  | insert x q => cases hin
  | rush x newpos => cases hrush
  | move x d n =>
    rw [Act.keys, serials_modify]
    exact List.Sublist.refl _
  | _ => exact List.Sublist.refl _

theorem Change.sublist_serials {a : Act} {s t : Pprd} (hc : Change a s t) (hout : a.takesOut = false)
    (hrush : a.rushes = false) : s.serials.Sublist t.serials := by
  rw [Pprd.serials, Pprd.serials, hc.keys]
  cases a with
  | purge x y | exitRemove p e y => cases hout
  | insert x q =>
    have hmem := (List.eraseIdx_sublist (s.keys.insertIdx x q.key) x).map Prod.snd
    rwa [List.eraseIdx_insertIdx_self] at hmem
  | rush x newpos => cases hrush
  | move x d n =>
    rw [Act.keys, serials_modify]
  | _ => exact List.Sublist.refl _

theorem Allowed.putsIn {s u : Pprd} {ev : Event} {a : Act} (hev : ev ≠ .queueNewJob)
    (ha : Allowed s ev u a) : a.putsIn = false := by
  cases a with
  | insert x q =>
    obtain ⟨name, heq, -⟩ := ha
    exact absurd heq hev
  | _ => rfl

theorem Allowed.takesOut {s u : Pprd} {a : Act} (ha : Allowed s .queueNewJob u a) :
    a.takesOut = false := by
  cases a with
  | purge x y => cases ha.1
  | exitRemove p e y => cases ha.2
  | _ => rfl

theorem Allowed.rushes {s u : Pprd} {ev : Event} {a : Act} (hev : ev.rushes = false)
    (ha : Allowed s ev u a) : a.rushes = false := by
  cases a with
  | rush x newpos => exact absurd (hev.symm.trans ha) (by decide)
  | _ => rfl

/-- One job may have left its place, and the others are in order. -/
structure OneMoved (s t : Pprd) : Prop where
  perm : t.serials.Perm s.serials
  others : ∃ x, (s.serials.eraseIdx x).Sublist t.serials

theorem OneMoved.rush {s t : Pprd} {x : ℕ} {newpos : ℤ} (hc : Change (.rush x newpos) s t) :
    OneMoved s t := by
  have hlt : x < s.queue.length := hc.ok
  have hx : x < s.keys.length := by simpa [Pprd.keys] using hlt
  have hperm := (List.getElem_cons_eraseIdx_perm hx).map Prod.snd
  suffices hsuff : t.serials.Perm s.serials ∧ (s.serials.eraseIdx x).Sublist t.serials from
    ⟨hsuff.1, x, hsuff.2⟩
  rw [Pprd.serials, Pprd.serials, hc.keys, List.eraseIdx_map, Act.keys,
    List.getD_eq_getElem _ _ hx]
  split_ifs
  · exact ⟨hperm, (List.sublist_cons_self _ _).map _⟩
  · refine ⟨?_, (List.sublist_append_left _ _).map _⟩
    exact (List.perm_append_comm.map _).trans hperm

/-- A submission takes no job out of the queue, a command that rushes a job takes only this one from its
place, and every other event only takes jobs out; all other jobs stay in order. -/
theorem step_serials {s t : Pprd} {ev : Event} (hev : ev.possible) (hst : step os s ev = .ok t) :
    (ev = .queueNewJob → s.serials.Sublist t.serials) ∧ (ev.rushes = true → OneMoved s t) ∧
      (ev ≠ .queueNewJob → ev.rushes = false → t.serials.Sublist s.serials) := by
  have hacts := step_acts hev t hst
  refine ⟨?_, fun hrush => ?_, fun hnew hrush => ?_⟩
  · rintro rfl
    refine Trail.invariant (I := fun t => s.serials.Sublist t.serials) (fun a u v hu ha hc => ?_) hacts
      (List.Sublist.refl _)
    exact hu.trans (hc.sublist_serials ha.takesOut (ha.rushes rfl))
  · cases ev with
    | ppop c =>
      cases c with
      | rush n id subid newpos =>
        have hrushed : Ensures (ppopRush s n id subid newpos) fun r => OneMoved s r.1 := by
          refine withJob_ensures ⟨.refl _, 0, List.eraseIdx_sublist _ _⟩ fun x hx => ?_
          exact ensures_ok (OneMoved.rush (change_rush newpos hx))
        exact ensures_fst hrushed t hst
      | _ => cases hrush
    | _ => cases hrush
  · refine Trail.invariant (I := fun t => t.serials.Sublist s.serials) (fun a u v hu ha hc => ?_) hacts
      (List.Sublist.refl _)
    exact (hc.serials_sublist (ha.putsIn hnew) (ha.rushes hrush)).trans hu

/-- A printer with two jobs. -/
def twoJobs : Pprd :=
  { bareBoot.empty with
    printers := fun _ => { clearedPrinter with name := "A" }
    printerCount := 1
    queue := [{ (default : QEntry) with id := 1 }, { (default : QEntry) with id := 2 }] }

/-- The second of two jobs is put to the front. -/
theorem step_serials_two :
    (rushEntry twoJobs 1 0).serials = [(2, 0), (1, 0)] ∧ OneMoved twoJobs (rushEntry twoJobs 1 0) := by
  have hst : step (fun _ => true) twoJobs (.ppop (.rush "A" 2 0 0)) = .ok (rushEntry twoJobs 1 0) := by
    rfl
  exact ⟨by rfl, (step_serials (by exact trivial) hst).2.1 rfl⟩

end Ppr
