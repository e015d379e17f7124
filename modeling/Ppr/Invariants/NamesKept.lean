import Ppr.Invariants.Names

/-!
# Runs that keep names apart

The submitting side writes files only under names nobody has, and the daemon accepts and moves jobs
only to names nobody has, in every run whose events are not of the kinds `NamesKept` rules out.
-/

namespace Ppr

open Outcome Machine

variable {os : ℕ → Bool}

/-! ## The submitting side -/

theorem PprOnly.sameNames {s t : Pprd} (ho : PprOnly s t) : SameNames s t where
  printerCount := ho.printerCount
  name _ := by rw [ho.printers]
  deleted _ := by rw [Pprd.prnStatus, ho.printers, Pprd.prnStatus]
  groups _ := by rw [ho.groups]
  groupCount := ho.groupCount

/-- Whose file is whose depends on the keys, the names of destinations and the FIFO. -/
theorem taken_iff {s t : Pprd} (hn : SameNames s t) (hk : t.keys = s.keys) (hfifo : t.fifo = s.fifo)
    (name : QName) : Taken t name ↔ Taken s name := by
  simp only [Taken, hk, hfifo, hn.destidLive, keyName_of_sameNames hn]

/-- The submitting side has left names alone but for the FIFO and the files. -/
theorem Named.of_pprOnly {s t : Pprd} (h : Named s) (ho : PprOnly s t)
    (hfile : ∀ name, Taken t name → (t.disk.queue name).isSome)
    (hpending : ∀ name, t.fifo.count (.new name) ≤ 1)
    (hfresh : ∀ name, .new name ∈ t.fifo →
      .new name ∈ s.fifo ∨ ¬ ∃ k ∈ s.keys, destidLive s k.1 ∧ keyName s k = name) : Named t := by
  have hk : t.keys = s.keys := congrArg (List.map QEntry.key) ho.queue
  have hname := keyName_of_sameNames ho.sameNames
  have hlive := ho.sameNames.destidLive
  refine ⟨hk ▸ h.nodup, ?_, hfile, hpending, fun k hkm hl hn => ?_, ?_,
    ho.printerCount ▸ h.count⟩
  · simp only [hk, hname, hlive]
    exact h.inj
  · rw [hk] at hkm
    rw [hlive] at hl
    rw [hname] at hn
    rcases hfresh _ hn with hs | hs
    · exact h.fresh k hkm hl hs
    · exact hs ⟨k, hkm, hl, rfl⟩
  · rw [hk, ho.printerCount, ho.groupCount]
    exact h.dests

theorem Named.of_files {s t : Pprd} (h : Named s) (ho : PprOnly s t) (hfifo : t.fifo = s.fifo)
    (hfile : ∀ name, Taken s name → (s.disk.queue name).isSome → (t.disk.queue name).isSome) :
    Named t := by
  refine h.of_pprOnly ho (fun name ht => ?_) (hfifo ▸ h.pending) fun name hn => .inl (hfifo ▸ hn)
  have hs := (taken_iff ho.sameNames (congrArg (List.map QEntry.key) ho.queue) hfifo name).1 ht
  exact hfile name hs (h.files name hs)

theorem Named.writeQueueFile {s : Pprd} (h : Named s) (name : QName) (f : QFile) :
    Named (writeQueueFile s name f) := by
  refine h.of_files ⟨rfl, rfl, rfl, rfl, rfl, rfl, rfl⟩ rfl fun m _ hm => ?_
  simp only [Ppr.writeQueueFile, Function.update_apply]
  split_ifs
  · rfl
  · exact hm

theorem Named.deleteJobFiles {s : Pprd} (h : Named s) {name : QName} (hn : ¬ Taken s name) :
    Named (deleteJobFiles s name) := by
  refine h.of_files ⟨rfl, rfl, rfl, rfl, rfl, rfl, rfl⟩ rfl fun m ht hm => ?_
  simp only [Ppr.deleteJobFiles, Function.update_apply]
  split_ifs with he
  · exact absurd (he ▸ ht) hn
  · exact hm

/-- A job is submitted under a name nobody has. -/
theorem Named.submitJob {s : Pprd} (h : Named s) {p : PprProc} {subid : ℤ}
    (hn : p.skeletonJobid = false → ¬ Taken s (p.dest, p.id, subid) ∧
      (s.disk.queue (p.dest, p.id, subid)).isSome) :
    Named (submitJob s p subid) := by
  have ho : PprOnly s (Ppr.submitJob s p subid) := ⟨rfl, rfl, rfl, rfl, rfl, rfl, rfl⟩
  cases hp : p.skeletonJobid with
  | true =>
    have hf : (Ppr.submitJob s p subid).fifo = s.fifo ++ [.reload (p.dest, p.id, subid)] := by
      simp [Ppr.submitJob, hp]
    refine h.of_pprOnly ho (fun name ht => h.files name ?_) (fun name => ?_) fun name hm => .inl ?_
    · refine ht.imp_right fun hm => ?_
      simpa [hf] using hm
    · simpa [hf] using h.pending name
    · simpa [hf] using hm
  | false =>
    obtain ⟨hfree, hfile⟩ := hn hp
    have hf : (Ppr.submitJob s p subid).fifo = s.fifo ++ [.new (p.dest, p.id, subid)] := by
      simp [Ppr.submitJob, hp]
    have hmem : ∀ name, .new name ∈ (Ppr.submitJob s p subid).fifo ↔
        .new name ∈ s.fifo ∨ name = (p.dest, p.id, subid) := fun name => by simp [hf]
    refine h.of_pprOnly ho (fun name ht => ?_) (fun name => ?_) fun name hm => ?_
    · rcases ht with hk | hm
      · exact h.files name (.inl hk)
      · rcases (hmem name).1 hm with hm | rfl
        · exact h.files name (.inr hm)
        · exact hfile
    · rw [hf, List.count_append, List.count_singleton]
      by_cases he : name = (p.dest, p.id, subid)
      · subst he
        have : s.fifo.count (.new (p.dest, p.id, subid)) = 0 :=
          List.count_eq_zero.2 fun hm => hfree (.inr hm)
        simp [this]
      · have := h.pending name
        simpa [Ne.symm he] using this
    · rcases (hmem name).1 hm with hm | rfl
      · exact .inl hm
      · exact .inr fun hk => hfree (.inl hk)

theorem taken_submitJob {s : Pprd} {p : PprProc} {subid : ℤ} {name : QName}
    (h : Taken (submitJob s p subid) name) : Taken s name ∨ name = (p.dest, p.id, subid) := by
  rcases h with h | h
  · exact .inl (.inl h)
  · simp only [submitJob, List.mem_append, List.mem_singleton] at h
    rcases h with h | h
    · exact .inl (.inr h)
    · split_ifs at h
      exact .inr (by simpa using h)

/-- Writing and removing files changes nobody's name. -/
theorem taken_of_pprOnly {s t : Pprd} (ho : PprOnly s t) (hfifo : t.fifo = s.fifo) (name : QName) :
    Taken t name ↔ Taken s name :=
  taken_iff ho.sameNames (congrArg (List.map QEntry.key) ho.queue) hfifo name

theorem fifo_fileCleanup (s : Pprd) (p : PprProc) : (fileCleanup s p).fifo = s.fifo := by
  unfold fileCleanup
  split_ifs <;> rfl

theorem fifo_writeFragments (p : PprProc) (s : Pprd) (subid : ℤ) (l : List PprOptions) :
    (writeFragments p s subid l).fifo = s.fifo := by
  induction l generalizing s subid with
  | nil => rfl
  | cons o l ih => exact (ih _ _).trans rfl

theorem Named.writeFragments {p : PprProc} (l : List PprOptions) {s : Pprd} (h : Named s)
    (subid : ℤ) : Named (writeFragments p s subid l) := by
  induction l generalizing s subid with
  | nil => exact h
  | cons o l ih => exact ih (h.writeQueueFile _ _) _

/-- Every fragment has its file, and no other file has gone. -/
theorem isSome_writeFragments {p : PprProc} (l : List PprOptions) (s : Pprd) (subid : ℤ)
    (name : QName) (h : (s.disk.queue name).isSome ∨
      ∃ i : ℕ, i < l.length ∧ name = (p.dest, p.id, subid + i)) :
    ((writeFragments p s subid l).disk.queue name).isSome := by
  induction l generalizing s subid with
  | nil => simpa [writeFragments] using h
  | cons o l ih =>
    refine ih _ _ ?_
    simp only [writeQueueFile, Function.update_apply]
    rcases h with h | ⟨i, hi, rfl⟩
    · left
      split_ifs
      · rfl
      · exact h
    · cases i with
      | zero => simp
      | succ i =>
        refine .inr ⟨i, by simpa using hi, ?_⟩
        simp only [Prod.mk.injEq, true_and]
        push_cast
        ring

theorem Named.fileCleanup {s : Pprd} (h : Named s) {p : PprProc}
    (hn : p.skeletonJobid = false → ¬ Taken s (p.dest, p.id, 0)) : Named (fileCleanup s p) := by
  unfold Ppr.fileCleanup
  split_ifs with hp
  · exact h
  · exact h.deleteJobFiles (hn (by simpa using hp))

theorem Named.submitFragments {p : PprProc} (n : ℕ) {s : Pprd} (h : Named s) (subid : ℤ)
    (hn : p.skeletonJobid = false → ∀ i : ℕ, i < n → ¬ Taken s (p.dest, p.id, subid + i) ∧
      (s.disk.queue (p.dest, p.id, subid + i)).isSome) :
    Named (submitFragments p s subid n) := by
  induction n generalizing s subid with
  | zero => exact h
  | succ n ih =>
    refine ih (h.submitJob fun hp => by simpa using hn hp 0 (by omega)) _ fun hp i hi => ?_
    have he : subid + 1 + (i : ℤ) = subid + ((i + 1 : ℕ) : ℤ) := by
      push_cast
      ring
    obtain ⟨h1, h2⟩ := hn hp (i + 1) (by omega)
    rw [he]
    refine ⟨fun ht => ?_, h2⟩
    rcases taken_submitJob ht with ht | ht
    · exact h1 ht
    · simp only [Prod.mk.injEq, true_and] at ht
      omega

/-- The end of a ppr process removes the files of sub-id 0. -/
def PprEnd.cleansUp (s : Pprd) (p : PprProc) : PprEnd → Bool
  | .whole _ => (s.disk.queue (p.dest, p.id, 0)).isSome
  | .split _ => true
  | .skeleton _ => false
  | .abort created => created

theorem Named.pprEnd {s : Pprd} (h : Named s) {p : PprProc} {e : PprEnd}
    (hn : p.skeletonJobid = false → e.cleansUp s p → ¬ Taken s (p.dest, p.id, 0)) :
    Named (pprEnd s p e) := by
  have submit : ∀ f, (p.skeletonJobid = false → (s.disk.queue (p.dest, p.id, 0)).isSome = false) →
      Named (Ppr.submitJob (Ppr.writeQueueFile s (p.dest, p.id, 0) f) p 0) := by
    intro f hfile
    refine (h.writeQueueFile _ f).submitJob fun hp => ⟨fun ht => ?_, by simp [Ppr.writeQueueFile]⟩
    have := h.files _ ((taken_of_pprOnly ⟨rfl, rfl, rfl, rfl, rfl, rfl, rfl⟩ rfl _).1 ht)
    rw [hfile hp] at this
    cases this
  cases e with
  | whole o =>
    simp only [Ppr.pprEnd]
    split_ifs with hc
    · exact h.fileCleanup fun hp => hn hp hc.2
    · exact submit _ fun hp => by simpa [hp] using hc
  | split os =>
    have hfree := fun hp => hn hp rfl
    simp only [Ppr.pprEnd]
    split_ifs with hc
    · exact h.fileCleanup hfree
    · have hw := pprOnly_writeFragments p s 1 os
      have htw := taken_of_pprOnly hw (fifo_writeFragments p s 1 os)
      have htc := taken_of_pprOnly (pprOnly_fileCleanup (Ppr.writeFragments p s 1 os) p)
        (fifo_fileCleanup _ p)
      have h2 := (h.writeFragments (p := p) os 1).fileCleanup (p := p)
        fun hp ht => hfree hp ((htw _).1 ht)
      refine h2.submitFragments _ 1 fun hp i hi => ⟨fun ht => ?_, ?_⟩
      · have hs := h.files _ ((htw _).1 ((htc _).1 ht))
        simp only [fragmentExists, List.any_eq_true, List.mem_range, not_exists, not_and] at hc
        exact hc i hi (by rwa [add_comm] at hs)
      · have := isSome_writeFragments (p := p) os s 1 (p.dest, p.id, 1 + (i : ℤ))
          (.inr ⟨i, hi, rfl⟩)
        simp only [Ppr.fileCleanup, hp, Bool.false_eq_true, if_false, Ppr.deleteJobFiles]
        rw [Function.update_of_ne]
        · exact this
        · simp only [ne_eq, Prod.mk.injEq, true_and]
          omega
  | skeleton o =>
    simp only [Ppr.pprEnd]
    split_ifs with hc
    · exact h
    · exact submit _ fun _ => by simpa using hc
  | abort created =>
    simp only [Ppr.pprEnd]
    split_ifs with hc
    · exact h.fileCleanup fun hp => hn hp hc
    · exact h

/-! ## Looking up destinations -/

theorem destidByPrinter_ok {s : Pprd} {n : String} {d : ℕ} (h : destidByPrinter s n = some d) :
    DestidOk s d ∧ destidToName s d = n := by
  obtain ⟨hd, hl, hn⟩ := destidByPrinter_eq_some h
  have hg : destidIsGroup s d = false := by simpa [destidIsGroup] using hd
  exact ⟨⟨by simp [destidLive, hg, hl], .inl hd⟩, by simp [destidToName, hg, hl, hn]⟩

theorem destidByGroup_ok {s : Pprd} (hc : s.printerCount ≤ maxPrinters) {n : String} {d : ℕ}
    (h : destidByGroup s n = some d) : DestidOk s d ∧ destidToName s d = n := by
  obtain ⟨g, hg, rfl⟩ := Option.map_eq_some_iff.1 h
  obtain ⟨hlt, hl, hn⟩ := findGroup_eq_some hg
  have he : destidToGindex (destidByGindex g) = g := by simp [destidToGindex, destidByGindex]
  have hmax : maxPrinters ≤ destidByGindex g := Nat.le_add_left _ _
  have hgr : destidIsGroup s (destidByGindex g) = true := decide_eq_true (hc.trans hmax)
  refine ⟨⟨by simp [destidLive, hgr, he, hl], .inr ⟨hmax, by rwa [he]⟩⟩, ?_⟩
  simp [destidToName, hgr, he, hlt, hl, hn]

theorem destidByName_ok {s : Pprd} (hc : s.printerCount ≤ maxPrinters) {n : String} {d : ℕ}
    (h : destidByName s n = some d) : DestidOk s d ∧ destidToName s d = n := by
  rcases Option.or_eq_some_iff.1 h with h | ⟨-, h⟩
  · exact destidByGroup_ok hc h
  · exact destidByPrinter_ok h

theorem Entered.keyName {s : Pprd} (hc : s.printerCount ≤ maxPrinters) {name : QName} {q : QEntry}
    (h : Entered s name q) : DestidOk s q.destid ∧ keyName s q.key = name := by
  obtain ⟨hd, hn⟩ := destidByName_ok hc h.dest
  refine ⟨hd, ?_⟩
  simp [Ppr.keyName, QEntry.key, hn, h.id, h.subid]

/-! ## Accepting jobs -/

theorem Named.of_starts {s t : Pprd} (h : Named s) (ht : Starts s t) : Named t := by
  refine Trail.invariant (I := Named) (fun a u v hu ha hc => hu.act ?_ hc) ht h
  cases a <;> trivial

theorem Named.of_frame {s t : Pprd} (h : Named s) (ht : Frame s t) : Named t :=
  h.of_starts (.of_frame ht)

theorem taken_of_frame {s t : Pprd} (h : Frame s t) (name : QName) : Taken t name ↔ Taken s name :=
  taken_iff h.sameNames h.queue.keys h.fifo name

/-- A new entry may have the name nobody has. -/
theorem Named.permit_insert {s u : Pprd} (h : Named s) {name : QName} {q : QEntry}
    (hu : Frame s u) (hq : Entered s name q) (hfree : ¬ Taken s name) :
    NamePermit u (.insert (u.queue.findIdx (goesBefore q)) q) := by
  obtain ⟨hd, hn⟩ := hq.keyName h.count
  obtain ⟨f, hf, -⟩ := hq.file
  have hnu : Ppr.keyName u q.key = name := (keyName_of_sameNames hu.sameNames q.key).trans hn
  refine ⟨List.findIdx_le_length, ?_, ?_, ?_⟩
  · simpa [DestidOk, hu.sameNames.destidLive, hu.printerCount, hu.groupCount] using hd
  · rwa [hnu, taken_of_frame hu]
  · rw [hnu, hu.files, hf]
    rfl

/-- The file of a submission that is refused is nobody's. -/
theorem Named.refuse {s u : Pprd} (h : Named s) {name : QName} {reloadJob : Bool}
    (hu : Frame s u) (hr : reloadJob → reloadOk s name = false)
    (hnew : reloadJob = false → ¬ Taken s name)
    (hreload : reloadJob → Taken s name → reloadOk s name) :
    Named (Ppr.deleteJobFiles u name) := by
  refine (h.of_frame hu).deleteJobFiles fun ht => ?_
  rw [taken_of_frame hu] at ht
  cases hrj : reloadJob with
  | false => exact hnew hrj ht
  | true =>
    have := hreload hrj ht
    rw [hr hrj] at this
    cases this

/-- A submission is refused or accepted under a name nobody else has; one made from its skeleton is
accepted if somebody has its name. -/
theorem Named.of_accepted {s t : Pprd} (h : Named s) {name : QName} {reloadJob : Bool}
    (ht : Accepted s name reloadJob t) (hnew : reloadJob = false → ¬ Taken s name)
    (hreload : reloadJob → Taken s name → reloadOk s name) : Named t := by
  rcases ht with ⟨u, hu, rfl, hr⟩ | ⟨u, v, q, a, hu, hq, hc, hs, ha⟩
  · exact h.refuse hu hr hnew hreload
  · refine ((h.of_frame hu).act ?_ hc).of_starts hs
    rcases ha with ⟨hrj, rfl⟩ | ⟨-, x, rfl⟩
    · exact h.permit_insert hu hq (hnew hrj)
    · trivial

/-- A submission is taken out of the FIFO. -/
theorem Named.of_pop {s : Pprd} (h : Named s) {sub : Submission} {rest : List Submission}
    (hf : s.fifo = sub :: rest) : Named { s with fifo := rest } := by
  have hmem : ∀ name, .new name ∈ rest → .new name ∈ s.fifo := fun name hm => by simp [hf, hm]
  refine h.of_pprOnly ⟨rfl, rfl, rfl, rfl, rfl, rfl, rfl⟩ (fun name ht => h.files name ?_)
    (fun name => ?_) fun name hm => .inl (hmem name hm)
  · exact ht.imp_right (hmem name)
  · have := h.pending name
    rw [hf, List.count_cons] at this
    exact le_trans (Nat.le_add_right _ _) this

/-- Once taken out of the FIFO the name of a new job is nobody's. -/
theorem Named.not_taken_of_pop {s : Pprd} (h : Named s) {name : QName} {rest : List Submission}
    (hf : s.fifo = .new name :: rest) : ¬ Taken { s with fifo := rest } name := by
  rintro (⟨k, hk, hl, rfl⟩ | hm)
  · refine h.fresh k hk hl ?_
    rw [hf]
    exact List.mem_cons_self
  · have := h.pending name
    rw [hf, List.count_cons_self] at this
    have := List.count_pos_iff.2 (show .new name ∈ rest from hm)
    omega

/-! ## Events -/

/-- The event does not bring a job under a name that is somebody else's: a ppr that gives up or splits
its job removes nobody else's file; a job made from its skeleton is not refused while its file is a
queued or submitted job's; no new printer or group gets the slot of a deleted one that queued jobs
still refer to; a job that is moved has a live destination, and the new name of its file is its own
or nobody's. -/
def NamesKept (s : Pprd) : Event → Prop
  | .pprFinish i e => ∀ p ∈ s.pprs[i]?, p.skeletonJobid = false → e.cleansUp s p →
      ¬ Taken s (p.dest, p.id, 0)
  | .queueNewJob =>
    match s.fifo with
    | .reload name :: _ => Taken s name → reloadOk s name
    | _ => True
  | .newPrinterConfig n conf => destidByPrinter s n = none → conf.isSome →
      ∀ k ∈ s.keys, k.1 ≠ freeSlot s
  | .newGroupConfig n conf => findGroup s n = none → conf.isSome →
      ∀ k ∈ s.keys, k.1 ≠ destidByGindex (freeGroup s)
  | ev => ∀ x < s.queue.length, ∀ t ∈ ev.moves s x, (s.job x).status.isPrinting = false →
      (s.job x).destid ≠ t.1 → destidLive s (s.job x).destid ∧
        ((t.2, (s.job x).key.2) = keyName s (s.job x).key ∨ ¬ Taken s (t.2, (s.job x).key.2))

instance (s : Pprd) (ev : Event) : Decidable (NamesKept s ev) := by
  unfold NamesKept
  split
  · infer_instance
  · split <;> infer_instance
  · infer_instance
  · infer_instance
  · infer_instance

/-- A command to move jobs, of ppop or of the IPP server. -/
theorem moves_cases {s : Pprd} {ev : Event} {x d : ℕ} {n : String}
    (h : ev.moves s x = some (d, n)) :
    (∃ destname id subid d', ev = .ppop (.move destname id subid n) ∧
        destidByName s destname = some d' ∧ destidByName s n = some d ∧
        (s.job x).isNamed (some d') id subid) ∨
      ∃ jobid target, ev = .ipp (.moveJob jobid target) ∧ moveTarget s target = some d ∧
        findJobid s jobid = some x ∧ n = destidToName s d := by
  cases ev with
  | ppop c =>
    cases c with
    | move destname id subid n' =>
      simp only [Event.moves] at h
      split at h
      · rename_i d1 d2 hd1 hd2
        split_ifs at h with hx
        cases h
        exact .inl ⟨destname, id, subid, d1, rfl, hd1, hd2, hx⟩
      · cases h
    | _ => cases h
  | ipp c =>
    cases c with
    | moveJob jobid target =>
      simp only [Event.moves] at h
      split at h
      · rename_i d' hd'
        split_ifs at h with hx
        cases h
        exact .inr ⟨jobid, target, rfl, hd', hx, rfl⟩
      · cases h
    | _ => cases h
  | _ => cases h

theorem moves_ok {s : Pprd} (hc : s.printerCount ≤ maxPrinters) {ev : Event} {x d : ℕ} {n : String}
    (h : ev.moves s x = some (d, n)) : DestidOk s d ∧ destidToName s d = n := by
  rcases moves_cases h with ⟨_, _, _, _, -, -, hd, -⟩ | ⟨_, target, -, hd, -, rfl⟩
  · exact destidByName_ok hc hd
  · refine ⟨?_, rfl⟩
    cases target with
    | group m => exact (destidByGroup_ok hc hd).1
    | printer m => exact (destidByPrinter_ok hd).1
    | other => cases hd

/-- The jobs an event moves have one destination. -/
theorem moves_destid {s : Pprd} {ev : Event} {x y : ℕ} (hx : (ev.moves s x).isSome)
    (hy : (ev.moves s y).isSome) : (s.job y).destid = (s.job x).destid := by
  obtain ⟨⟨d, n⟩, hx⟩ := Option.isSome_iff_exists.1 hx
  obtain ⟨⟨d', n'⟩, hy⟩ := Option.isSome_iff_exists.1 hy
  rcases moves_cases hx with ⟨_, _, _, c, rfl, hc, -, h1⟩ | ⟨_, _, rfl, -, h1, -⟩
  · rcases moves_cases hy with ⟨_, _, _, c', he, hc', -, h2⟩ | ⟨_, _, he, -⟩
    · cases he
      cases hc.symm.trans hc'
      simp only [QEntry.isNamed, Option.all_some, Bool.and_eq_true, decide_eq_true_eq] at h1 h2
      rw [h1.1.1, h2.1.1]
    · cases he
  · rcases moves_cases hy with ⟨_, _, _, c', he, -⟩ | ⟨_, _, he, -, h2, -⟩
    · cases he
    · cases he
      rw [Option.some.inj (h1.symm.trans h2)]

/-- A move that keeps names apart before the event still does in the middle of it. -/
theorem namePermit_move {s t : Pprd} {ev : Event} {x d : ℕ} {n : String} (h : Named s)
    (hm : ev.moves s x = some (d, n)) (hx : x < s.queue.length)
    (hmv : Moving s (fun z => (ev.moves s z).isSome) d n x t)
    (hkept : (s.job x).destid ≠ d → destidLive s (s.job x).destid ∧
      ((n, (s.job x).key.2) = keyName s (s.job x).key ∨ ¬ Taken s (n, (s.job x).key.2))) :
    NamePermit t (.move x d n) := by
  intro hne
  have hkx := (hmv.job x le_rfl hx).1
  have hdx : (t.job x).destid = (s.job x).destid := congrArg Prod.fst hkx
  obtain ⟨hl, hfree⟩ := hkept (hdx ▸ hne)
  obtain ⟨hd, hn⟩ := moves_ok h.count hm
  have hname := keyName_of_sameNames hmv.names
  have hlive := hmv.names.destidLive
  have hnew : keyName s (d, (s.job x).key.2) = (n, (s.job x).key.2) := congrArg (·, _) hn
  refine ⟨by rw [hdx, hlive]; exact hl, ?_, (hmv.names.destidToName d).trans hn, ?_⟩
  · simpa [DestidOk, hlive, hmv.names.printerCount, hmv.names.groupCount] using hd
  rw [hkx, hname, hname, hnew]
  refine hfree.imp_right fun hfree ht => ?_
  rcases ht with ⟨k, hk, hkl, hkn⟩ | hp
  · -- The name belongs to an entry that had it before or has just been moved.
    obtain ⟨q, hq, rfl⟩ := List.mem_map.1 hk
    obtain ⟨y, hy, rfl⟩ := mem_queue_iff.1 hq
    have hys : y < s.queue.length := hmv.length ▸ hy
    rw [hname] at hkn
    rw [hlive] at hkl
    rcases hmv.key y hys with he | ⟨hyx, hym, he⟩
    · rw [he] at hkn hkl
      exact hfree (.inl ⟨_, List.mem_of_getElem? (keys_getElem? s hys), hkl, hkn⟩)
    · have h2 : (s.job y).key.2 = (s.job x).key.2 := by
        have := congrArg Prod.snd hkn
        rw [he] at this
        exact this
      have h1 := moves_destid (by rw [hm]; rfl) hym
      have heq : (s.job y).key = (s.job x).key := Prod.ext h1 h2
      have := key_inj h.nodup hys hx heq
      omega
  · exact hfree (.inr (hmv.fifo ▸ hp))

/-- A slot that has just been added is nobody's destination. -/
theorem Named.ne_printerCount {s : Pprd} (h : Named s) (hm : s.printerCount ≠ maxPrinters)
    {k : JobKey} (hk : k ∈ s.keys) : k.1 ≠ s.printerCount := by
  have := h.count
  rcases h.dests k hk with hd | hd <;> omega

theorem Named.ne_groupCount {s : Pprd} (h : Named s) {k : JobKey} (hk : k ∈ s.keys) :
    k.1 ≠ destidByGindex s.groupCount := by
  have := h.count
  unfold destidByGindex
  rcases h.dests k hk with hd | ⟨hd, hg⟩
  · omega
  · unfold destidToGindex at hg
    omega

theorem namePermit_of_allowed {s u v : Pprd} {ev : Event} {a : Act} (h : Named s)
    (hev : ev.submits = false) (hkept : NamesKept s ev) (ha : Allowed s ev u a)
    (hc : Change a u v) : NamePermit u a := by
  cases a with
  | ppr =>
    rw [show ev.submits = true from ha] at hev
    cases hev
  | insert x q =>
    obtain ⟨_, rfl, -⟩ := ha
    cases hev
  | move x d n =>
    obtain ⟨hm, hx, hp, hmv⟩ := ha
    refine namePermit_move h hm hx hmv ?_
    rcases moves_cases hm with ⟨_, _, _, _, rfl, -⟩ | ⟨_, _, rfl, -⟩
    · exact hkept x hx (d, n) hm hp
    · exact hkept x hx (d, n) hm hp
  | newPrinter p c =>
    obtain ⟨rfl, _, _, rfl, hn, hp, hs⟩ := ha
    intro k hk
    rcases hs with hs | hs
    · rw [hs]
      exact h.ne_printerCount (hs ▸ hc.ok.2.1) hk
    · exact hp ▸ hkept hn hs k hk
  | newGroup g c =>
    obtain ⟨rfl, _, _, rfl, hn, hg, hs⟩ := ha
    intro k hk
    rcases hs with hs | hs
    · rw [hs]
      exact h.ne_groupCount hk
    · exact hg ▸ hkept hn hs k hk
  | _ => trivial

theorem Named.step {s t : Pprd} {ev : Event} (h : Named s) (hev : ev.possible)
    (hkept : NamesKept s ev) (hst : step os s ev = .ok t) : Named t := by
  -- What is not about the submitting side is a path of acts.
  have acts : ev.submits = false → Named t := fun hs =>
    Trail.invariant (I := Named) (fun a u v hu ha hc => hu.act
      (namePermit_of_allowed h hs hkept ha hc) hc) (step_acts hev t hst) h
  cases ev with
  | pprStart n =>
    cases hst
    refine h.of_files (pprOnly_pprStart s n) ?_ fun name _ hn => ?_
    all_goals unfold Ppr.pprStart
    · split <;> rfl
    · split <;> exact hn
  | pprTakeSkeleton n id =>
    cases hst
    refine h.of_files (pprOnly_pprTakeSkeleton s n id) ?_ fun name _ hn => ?_
    all_goals unfold Ppr.pprTakeSkeleton
    · split_ifs <;> rfl
    · split_ifs <;> exact hn
  | pprFinish i e =>
    cases hst
    unfold Ppr.pprFinish
    split
    · exact h
    · rename_i p hp
      have ho : PprOnly s { s with pprs := s.pprs.eraseIdx i } :=
        ⟨rfl, rfl, rfl, rfl, rfl, rfl, rfl⟩
      refine (h.of_files ho rfl fun _ _ hn => hn).pprEnd fun hs hc ht => ?_
      refine hkept p hp hs ?_ ((taken_of_pprOnly ho rfl _).1 ht)
      cases e <;> exact hc
  | queueNewJob =>
    simp only [Ppr.step, Ppr.queueNewJob] at hst
    split at hst
    · cases hst
      exact h
    · rename_i name rest hf
      exact (h.of_pop hf).of_accepted (queueAcceptQueuefile_ensures _ _ _ _ t hst)
        (fun _ => h.not_taken_of_pop hf) (by simp)
    · rename_i name rest hf
      refine (h.of_pop hf).of_accepted (queueAcceptQueuefile_ensures _ _ _ _ t hst) (by simp)
        fun _ ht => ?_
      simp only [NamesKept, hf] at hkept
      refine hkept (ht.imp_right fun hm => ?_)
      rw [hf]
      exact List.mem_cons_of_mem _ hm
  | _ => exact acts rfl

/-! ## The start -/

theorem Named.of_empty (b : Boot) : Named b.empty := by
  refine ⟨List.nodup_nil, ?_, ?_, ?_, ?_, ?_, Nat.zero_le _⟩
  all_goals simp [Boot.empty, Pprd.keys, Taken]

theorem Named.load {a : Act} {s t : Pprd} (h : Named s) (ha : LoadAllowed s a)
    (hc : Change a s t) : Named t := by
  refine h.act ?_ hc
  cases a with
  | newPrinter p c =>
    cases ha
    exact fun k hk => h.ne_printerCount hc.ok.2.1 hk
  | newGroup g c =>
    cases ha
    exact fun k hk => h.ne_groupCount hk
  | _ => cases ha

/-- The queue files still to be read are not those of queued jobs. -/
structure Inheriting (names : List QName) (s : Pprd) : Prop where
  named : Named s
  nodup : names.Nodup
  free : ∀ name ∈ names, ¬ Taken s name

theorem Taken.of_starts {s t : Pprd} (h : Starts s t) (name : QName) :
    Taken t name ↔ Taken s name := by
  refine Trail.invariant (I := fun t => Taken t name ↔ Taken s name)
    (fun a u v hu ha hc => (Iff.trans ?_ hu)) h Iff.rfl
  refine taken_iff (hc.sameNames ?_) (hc.keys.trans ?_) (hc.fifo ?_) name
  · cases a <;> first | rfl | cases ha
  · cases a <;> first | rfl | cases ha
  · rintro rfl
    cases ha

theorem Inheriting.accept {name : QName} {rest : List QName} {s t : Pprd}
    (h : Inheriting (name :: rest) s) (ht : Accepted s name false t) : Inheriting rest t := by
  obtain ⟨hnm, hnd⟩ := List.nodup_cons.1 h.nodup
  have hfree := h.free name List.mem_cons_self
  refine ⟨h.named.of_accepted ht (fun _ => hfree) (by simp), hnd, fun m hm htk => ?_⟩
  have hms : ¬ Taken s m := h.free m (List.mem_cons_of_mem _ hm)
  rcases ht with ⟨u, hu, rfl, -⟩ | ⟨u, v, q, a, hu, hq, hc, hs, ha⟩
  · exact hms ((taken_of_frame hu m).1
      ((taken_of_pprOnly ⟨rfl, rfl, rfl, rfl, rfl, rfl, rfl⟩ rfl m).1 htk))
  · rcases ha with ⟨-, rfl⟩ | ⟨h, -⟩
    · rw [Taken.of_starts hs] at htk
      have hn := hc.sameNames rfl
      rcases htk with ⟨k, hk, hl, hkn⟩ | hp
      · rw [hc.keys, Act.keys,
          List.mem_insertIdx (by simpa [Pprd.keys] using List.findIdx_le_length)] at hk
        rw [keyName_of_sameNames hn, keyName_of_sameNames hu.sameNames] at hkn
        rw [hn.destidLive, hu.sameNames.destidLive] at hl
        rcases hk with rfl | hk
        · -- The job that has just been accepted.
          rw [(hq.keyName h.named.count).2] at hkn
          exact hnm (hkn ▸ hm)
        · exact hms (.inl ⟨k, (show u.keys = s.keys from hu.queue.keys) ▸ hk, hl, hkn⟩)
      · rw [hc.fifo (by simp), hu.fifo] at hp
        exact hms (.inr hp)
    · cases h

theorem Named.boot {b : Boot} (hb : b.Wf) : Ensures (boot os b) Named :=
  boot_ensures (I := Named) (J := Inheriting) (.of_empty b) (fun _ _ _ h ha hc => h.load ha hc)
    (fun s h hq hf => ⟨h, hb.queue_nodup, fun name _ ht => by
      simp [Taken, Pprd.keys, hq, hf] at ht⟩)
    (fun _ _ _ _ h ht => h.accept ht) fun _ _ h ht => h.named.of_starts ht

/-! ## Runs -/

theorem Named.of_run {B : Boot → Prop} {C : Pprd → Event → Prop}
    (hC : ∀ s ev, C s ev → NamesKept s ev) {hist : List (Pprd × Event)} {s : Pprd}
    (run : Runs os B C hist s) : Named s := by
  refine run.invariant (I := Named) ?_ ?_
  · rintro s ⟨b, hb, -, hs⟩
    exact Named.boot hb s hs
  · rintro s ev t h ⟨hev, hk, hst⟩
    exact h.step hev (hC s ev hk) hst

/-- No two entries have the same key, the file of a queued job is no other queued job's, and no
submitted job has the name of a queued one. -/
structure KeysUnique (s : Pprd) : Prop where
  keys : (s.queue.map QEntry.key).Nodup
  files : ∀ x < s.queue.length, ∀ y < s.queue.length, destidLive s (s.job x).destid →
    destidLive s (s.job y).destid →
    queueFileName s (s.job x) = queueFileName s (s.job y) → x = y
  submitted : ∀ x < s.queue.length, destidLive s (s.job x).destid →
    .new (queueFileName s (s.job x)) ∉ s.fifo

/-- The event renames no job's file over that of a different queued job. -/
def RenamesApart (s : Pprd) (ev : Event) : Prop :=
  ∀ x < s.queue.length, ∀ y < s.queue.length, ∀ t ∈ ev.moves s x,
    (s.job x).status.isPrinting = false → (s.job x).destid ≠ t.1 →
    destidLive s (s.job y).destid →
    queueFileName s (s.job y) = (t.2, (s.job x).id, (s.job x).subid) → y = x

theorem Named.keysUnique {s : Pprd} (h : Named s) : KeysUnique s := by
  have mem : ∀ {x}, x < s.queue.length → (s.job x).key ∈ s.keys := fun hx =>
    List.mem_of_getElem? (keys_getElem? s hx)
  refine ⟨h.nodup, fun x hx y hy hlx hly he => ?_, fun x hx hl => h.fresh _ (mem hx) hl⟩
  exact key_inj h.nodup hx hy (h.inj _ (mem hx) _ (mem hy) hlx hly he)

theorem Named.renamesApart {s : Pprd} {ev : Event} (h : Named s) (hkept : NamesKept s ev) :
    RenamesApart s ev := by
  intro x hx y hy t ht hp hd hl he
  have hm : ev.moves s x = some (t.1, t.2) := ht
  have hkept : destidLive s (s.job x).destid ∧
      ((t.2, (s.job x).key.2) = keyName s (s.job x).key ∨ ¬ Taken s (t.2, (s.job x).key.2)) := by
    rcases moves_cases hm with ⟨_, _, _, _, rfl, -⟩ | ⟨_, _, rfl, -⟩
    · exact hkept x hx t ht hp hd
    · exact hkept x hx t ht hp hd
  have hmem := List.mem_of_getElem? (keys_getElem? s hy)
  rcases hkept with ⟨hlx, hown | hfree⟩
  · exact h.keysUnique.files y hy x hx hl hlx (he.trans hown)
  · exact absurd (.inl ⟨_, hmem, hl, he⟩) hfree

/-- In every run whose events keep names apart, keys and files are unique in every state, and no
event renames a file over another job's. -/
theorem keysUnique_of_namesKept {hist : List (Pprd × Event)} {s : Pprd}
    (run : Runs os (fun _ => True) NamesKept hist s) :
    KeysUnique s ∧ ∀ e ∈ hist, RenamesApart e.1 e.2 := by
  refine ⟨(Named.of_run (fun _ _ h => h) run).keysUnique, ?_⟩
  induction run with
  | init _ => simp
  | step hr hst ih =>
    intro e he
    rcases List.mem_cons.1 he with rfl | he
    · exact (Named.of_run (fun _ _ h => h) hr).renamesApart hst.2.1
    · exact ih e he

/-- Two held jobs with the same id, one for each of two printers. -/
def sameIdBoot : Boot :=
  .ofFiles [("A", ⟨[]⟩), ("B", ⟨[]⟩)] []
    [(("A", 1, 0), plainFile 50 1 2), (("B", 1, 0), plainFile 50 2 2)]

theorem sameIdBoot_wf : sameIdBoot.Wf :=
  Boot.wf_ofFiles (by decide) (by decide) (by decide) (by decide)

/-- Moving the one job to the other's destination gives it the other's key. -/
theorem move_onto_same_id :
    ∃ hist s, Runs (fun _ => true) (fun _ => True) (fun _ _ => True) hist s ∧ ¬ KeysUnique s := by
  obtain ⟨hist, s, run, hk⟩ := exists_runs (fun _ => true) (fun _ => True)
    (fun _ _ => True) sameIdBoot_wf trivial [.ppop (.move "A" 1 0 "B")] Pprd.keys
    (a := [(1, 1, 0), (1, 1, 0)]) (by decide +kernel)
  refine ⟨hist, s, run, fun h => ?_⟩
  have hn : s.keys.Nodup := h.keys
  rw [hk] at hn
  exact absurd hn (by decide)

/-- Moving a job to a name that is free. -/
theorem keysUnique_of_namesKept_move :
    ∃ hist s, Runs (fun _ => true) (fun _ => True) NamesKept hist s ∧
      s.keys = [(1, 1, 0), (1, 2, 0)] ∧ KeysUnique s := by
  obtain ⟨hist, s, run, hk⟩ := exists_runs (fun _ => true) (fun _ => True) NamesKept
    (b := .ofFiles [("A", ⟨[]⟩), ("B", ⟨[]⟩)] []
      [(("A", 1, 0), plainFile 50 1 2), (("B", 2, 0), plainFile 50 2 2)])
    (Boot.wf_ofFiles (by decide) (by decide) (by decide) (by decide)) trivial
    [.ppop (.move "A" 1 0 "B")] Pprd.keys (a := [(1, 1, 0), (1, 2, 0)]) (by decide +kernel)
  exact ⟨hist, s, run, hk, (keysUnique_of_namesKept run).1⟩

end Ppr
