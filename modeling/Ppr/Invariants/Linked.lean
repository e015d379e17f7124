import Ppr.Invariants.NamesKept
import Ppr.Invariants.Bounds
import Ppr.Proof.Avoids

/-!
# Printers and their jobs

Which job a printer is at work on is stored twice, in the status of the queue entry and in the
printer's record.  The two halves agree as long as nothing gives the entry another key behind the
printer's back and no new printer gets the record of one that is still at work.
-/

namespace Ppr

open Outcome Machine

variable {os : ℕ → Bool}

/-! ## Jobs on printers -/

/-- An entry of the list has the key and the status. -/
def HasStatus (l : List QEntry) (k : JobKey) (st : JobStatus) : Prop :=
  ∃ q ∈ l, q.key = k ∧ q.status = st

instance (l : List QEntry) (k : JobKey) (st : JobStatus) : Decidable (HasStatus l k st) :=
  inferInstanceAs (Decidable (∃ q ∈ l, _))

theorem hasStatus_cons {q : QEntry} {l : List QEntry} {k : JobKey} {st : JobStatus} :
    HasStatus (q :: l) k st ↔ q.key = k ∧ q.status = st ∨ HasStatus l k st := by
  simp [HasStatus]

theorem hasStatus_perm {l l' : List QEntry} (h : l.Perm l') {k : JobKey} {st : JobStatus} :
    HasStatus l k st ↔ HasStatus l' k st := by
  simp [HasStatus, h.mem_iff]

/-- One entry and the others. -/
theorem hasStatus_split {l : List QEntry} {x : ℕ} (hx : x < l.length) {k : JobKey}
    {st : JobStatus} :
    HasStatus l k st ↔ l[x].key = k ∧ l[x].status = st ∨ HasStatus (l.eraseIdx x) k st := by
  rw [← hasStatus_perm (List.getElem_cons_eraseIdx_perm hx), hasStatus_cons]

theorem hasStatus_eraseIdx {l : List QEntry} (h : (l.map QEntry.key).Nodup) {x : ℕ}
    (hx : x < l.length) {k : JobKey} {st : JobStatus} :
    HasStatus (l.eraseIdx x) k st ↔ k ≠ l[x].key ∧ HasStatus l k st := by
  have hkey : (l.map QEntry.key)[x]? = some l[x].key := by simp [hx]
  rw [hasStatus_split hx]
  constructor
  · rintro ⟨q, hq, rfl, rfl⟩
    refine ⟨fun he => h.notMem_eraseIdx hkey ?_, .inr ⟨q, hq, rfl, rfl⟩⟩
    rw [List.eraseIdx_map]
    exact List.mem_map.2 ⟨q, hq, he⟩
  · rintro ⟨hne, ⟨rfl, -⟩ | hl⟩
    · exact absurd rfl hne
    · exact hl

/-- An entry is changed. -/
theorem hasStatus_modify {l : List QEntry} (h : (l.map QEntry.key).Nodup) {x : ℕ}
    (hx : x < l.length) (f : QEntry → QEntry) {k : JobKey} {st : JobStatus} :
    HasStatus (l.modify x f) k st ↔
      k = (f l[x]).key ∧ st = (f l[x]).status ∨ k ≠ l[x].key ∧ HasStatus l k st := by
  have hx' : x < (l.modify x f).length := by simpa using hx
  rw [hasStatus_split hx', ← hasStatus_eraseIdx h hx, List.getElem_modify, if_pos rfl,
    List.eraseIdx_modify_eq, eq_comm, eq_comm (a := st)]

theorem hasStatus_of_queueFrame {l l' : List QEntry} (h : QueueFrame l l') {k : JobKey}
    {st : JobStatus} (hst : st.onPrinter) : HasStatus l' k st ↔ HasStatus l k st := by
  have same : ∀ {q q' : QEntry}, JobFrame q q' → q'.status = st → q.status = st := by
    intro q q' hf hq
    rcases hf.status with he | ⟨-, he⟩
    · exact he ▸ hq
    · rw [hq, hst] at he
      cases he
  constructor
  · rintro ⟨q', hq', hk, hs⟩
    obtain ⟨q, hq, hf⟩ := h.mem hq'
    exact ⟨q, hq, hf.key.symm.trans hk, same hf hs⟩
  · rintro ⟨q, hq, hk, hs⟩
    obtain ⟨q', hq', hf⟩ := h.mem_left hq
    exact ⟨q', hq', hf.key.trans hk, same hf.symm hs⟩

/-- The job with the key is on a printer, and `st` is its status. -/
def Pprd.onPrinter (s : Pprd) (k : JobKey) (st : JobStatus) : Prop :=
  st.onPrinter ∧ HasStatus s.queue k st

instance (s : Pprd) (k : JobKey) (st : JobStatus) : Decidable (s.onPrinter k st) :=
  inferInstanceAs (Decidable (_ ∧ _))

/-- The jobs on printers after the entry with key `k₀` has got the key `k₁` and the status `st₁`. -/
def Pprd.onPrinterAfter (s : Pprd) (k₀ k₁ : JobKey) (st₁ : JobStatus) (k : JobKey)
    (st : JobStatus) : Prop :=
  k = k₁ ∧ st = st₁ ∧ st.onPrinter ∨ k ≠ k₀ ∧ s.onPrinter k st

/-- The jobs on printers after an act. -/
def Act.onPrinter (s : Pprd) (k : JobKey) (st : JobStatus) : Act → Prop
  | .start p x _ _ => s.onPrinterAfter (s.job x).key (s.job x).key (.printing p) k st
  | .cancel x _ | .cancelSeizing x _ =>
    s.onPrinterAfter (s.job x).key (s.job x).key .cancel k st
  | .seize x _ => s.onPrinterAfter (s.job x).key (s.job x).key .seizing k st
  | .exitRemove p _ _ | .exitMiss p _ | .exitKeep p _ _ _ =>
    k ≠ (s.printers p).jobKey ∧ s.onPrinter k st
  | .insert _ q => k = q.key ∧ st = q.status ∧ st.onPrinter ∨ s.onPrinter k st
  | .replace _ q => s.onPrinterAfter q.key q.key q.status k st
  | .move x d _ => s.onPrinterAfter (s.job x).key (d, (s.job x).key.2) (s.job x).status k st
  | _ => s.onPrinter k st

theorem Change.onPrinter {a : Act} {s t : Pprd} (hs : s.keys.Nodup) (h : Change a s t)
    (k : JobKey) (st : JobStatus) : t.onPrinter k st ↔ a.onPrinter s k st := by
  by_cases hst : st.onPrinter
  swap
  · -- What is not the status of a job on a printer.
    refine ⟨fun h => absurd h.1 hst, fun h => absurd ?_ hst⟩
    cases a <;> first | exact h.1 | exact h.2.1 | exact h.elim (·.2.2) (·.1) |
      exact h.elim (·.2.2) (·.2.1)
  obtain ⟨l, hl, ht⟩ := h.queue
  have hframe : HasStatus l k st ↔ s.onPrinter k st := by
    rw [hasStatus_of_queueFrame hl hst, Pprd.onPrinter, and_iff_right hst]
  have hnd : (l.map QEntry.key).Nodup := hl.keys ▸ hs
  have hjob : ∀ {x : ℕ} (hx : x < l.length), l[x].key = (s.job x).key := by
    intro x hx
    have := (hl.job x).key
    rwa [List.getD_eq_getElem _ _ hx] at this
  rw [Pprd.onPrinter, and_iff_right hst, ht]
  -- An entry gets a new status.
  have modify : ∀ {x : ℕ} (st' : JobStatus) {k' : JobKey}, x < s.queue.length →
      (s.job x).key = k' → (HasStatus (l.modify x fun q => { q with status := st' }) k st ↔
        s.onPrinterAfter k' k' st' k st) := by
    rintro x st' _ hx rfl
    have hxl : x < l.length := hl.length ▸ hx
    rw [hasStatus_modify hnd hxl, hframe, Pprd.onPrinterAfter, ← hjob hxl]
    simp [hst, QEntry.key]
  have erase : ∀ {y : ℕ} {k' : JobKey}, y < s.queue.length → (s.job y).key = k' →
      (HasStatus (l.eraseIdx y) k st ↔ k ≠ k' ∧ s.onPrinter k st) := by
    rintro y _ hy rfl
    have hyl : y < l.length := hl.length ▸ hy
    rw [hasStatus_eraseIdx hnd hyl, hframe, hjob hyl]
  cases a with
  | start p x y pid =>
    obtain ⟨hy, hk⟩ := findJob_eq_some h.ok.2.2.1
    exact modify _ hy hk
  | cancel x p | seize x p | cancelSeizing x p => exact modify _ h.ok.1 rfl
  | purge x y =>
    -- The entry that is removed is not on a printer.
    obtain ⟨hx, hoff, hfind, -⟩ := h.ok
    obtain ⟨hy, hk⟩ := findJob_eq_some hfind
    refine (erase hy hk).trans (and_iff_right_of_imp fun ho => ?_)
    rintro rfl
    obtain ⟨-, q, hq, hqk, rfl⟩ := ho
    obtain ⟨z, hz, rfl⟩ := mem_queue_iff.1 hq
    rw [key_inj hs hz hx hqk, hoff] at hst
    cases hst
  | exitRemove p e y =>
    obtain ⟨hy, hk⟩ := findJob_eq_some h.ok.2.2.2.1
    exact erase hy hk
  | exitMiss p e =>
    refine hframe.trans (and_iff_right_of_imp ?_).symm
    rintro ⟨-, q, hq, hqk, -⟩ rfl
    exact findJob_eq_none h.ok.2.2.2 q hq hqk
  | exitKeep p e y st' =>
    obtain ⟨-, -, -, -, hfind, hoff, -⟩ := h.ok
    obtain ⟨hy, hk⟩ := findJob_eq_some hfind
    refine (modify st' hy hk).trans (or_iff_right ?_)
    rintro ⟨-, rfl, -⟩
    rw [hoff] at hst
    cases hst
  | insert x q =>
    have hx : x ≤ l.length := by
      rw [h.ok.1, hl.length]
      exact List.findIdx_le_length
    rw [Act.queue, hasStatus_perm (List.perm_insertIdx q l hx), hasStatus_cons, hframe]
    simp [Act.onPrinter, hst, eq_comm]
  | replace x q =>
    obtain ⟨hx, hk, -⟩ := h.ok
    have hxl : x < l.length := hl.length ▸ hx
    have he : l.set x q = l.modify x fun _ => q := by rw [List.set_eq_modify]
    rw [Act.queue, he, hasStatus_modify hnd hxl, hframe, hjob hxl, ← hk]
    simp [Act.onPrinter, Pprd.onPrinterAfter, hst]
  | rush x newpos =>
    have hx : x < l.length := hl.length ▸ h.ok
    change _ ↔ s.onPrinter k st
    rw [← hframe, hasStatus_split hx, Act.queue, List.getD_eq_getElem _ _ hx]
    split_ifs
    · rw [hasStatus_cons]
      rfl
    · rw [hasStatus_perm (List.perm_append_singleton ..), hasStatus_cons]
      rfl
  | move x d n =>
    have hxl : x < l.length := hl.length ▸ h.ok.1
    have hj := hl.job x
    rw [List.getD_eq_getElem _ _ hxl] at hj
    change JobFrame (s.job x) l[x] at hj
    have hkey : ({ l[x] with destid := d } : QEntry).key = (d, (s.job x).key.2) :=
      congrArg (d, ·) (congrArg Prod.snd hj.key)
    have hstatus : st = l[x].status ↔ st = (s.job x).status ∧ st.onPrinter := by
      rw [and_iff_left hst]
      rcases hj.status with he | ⟨h1, h2⟩
      · rw [he]
      · refine iff_of_false ?_ ?_ <;> rintro rfl <;> simp_all
    rw [Act.queue, hasStatus_modify hnd hxl, hframe, hjob hxl, hkey, hstatus]
    rfl
  | _ => exact hframe

/-! ## The invariant -/

/-- A pprdrv is at work for the printer. -/
def Pprd.running (s : Pprd) (p : ℕ) : Prop := (s.printers p).jobPid ≠ 0

instance (s : Pprd) (p : ℕ) : Decidable (s.running p) := inferInstanceAs (Decidable (_ ≠ _))

/-- The statuses a printer can have while a pprdrv is at work for it. -/
def PrnStatus.busy : PrnStatus → Bool
  | .printing | .canceling | .seizing | .stopping | .halting | .deleted => true
  | .idle | .fault | .engaged | .starved | .stopt => false

/-- A printer that is at work is at work on a job of its own that is in the queue, and a job that is
printing has its printer at work on it. -/
structure Linked (s : Pprd) : Prop where
  job : ∀ p, s.running p → ∃ st, s.onPrinter (s.printers p).jobKey st
  printing : ∀ k p, s.onPrinter k (.printing p) → s.running p ∧ (s.printers p).jobKey = k
  apart : ∀ p p', s.running p → s.running p' →
    (s.printers p).jobKey = (s.printers p').jobKey → p = p'
  busy : ∀ p, s.running p → (s.prnStatus p).busy
  fresh : ∀ p, s.printerCount ≤ p → ¬ s.running p

theorem Linked.lt {s : Pprd} (h : Linked s) {p : ℕ} (hp : s.running p) : p < s.printerCount := by
  by_contra hc
  exact h.fresh p (by omega) hp

/-- No printer is at work on the job with the key. -/
def Pprd.unattended (s : Pprd) (k : JobKey) : Prop :=
  ∀ p < s.printerCount, s.running p → (s.printers p).jobKey ≠ k

instance (s : Pprd) (k : JobKey) : Decidable (s.unattended k) :=
  inferInstanceAs (Decidable (∀ p < s.printerCount, s.running p → _))

/-- What an act must not do to printers at work. -/
def LinkPermit (s : Pprd) : Act → Prop
  | .status p st => s.running p → st.busy
  | .replace _ q => s.unattended q.key
  | .move x d _ => (s.job x).destid ≠ d → s.unattended (s.job x).key
  | .newPrinter p _ => ¬ s.running p
  | _ => True

/-- The printers have the same jobs. -/
structure SameWork (s t : Pprd) : Prop where
  jobPid : ∀ p, (t.printers p).jobPid = (s.printers p).jobPid
  jobKey : ∀ p, (t.printers p).jobKey = (s.printers p).jobKey

theorem SameWork.running {s t : Pprd} (h : SameWork s t) (p : ℕ) : t.running p ↔ s.running p := by
  rw [Pprd.running, h.jobPid, Pprd.running]

/-- The acts that give a printer a job or take it away. -/
def Act.changesWork : Act → Bool
  | .start .. | .exitRemove .. | .exitMiss .. | .exitKeep .. => true
  | _ => false

theorem Change.sameWork {a : Act} {s t : Pprd} (h : Change a s t) (ha : a.changesWork = false) :
    SameWork s t := by
  have core : ∀ p, (t.printers p).core.jobPid = (s.printers p).core.jobPid ∧
      (t.printers p).core.jobKey = (s.printers p).core.jobKey := by
    intro p
    rw [h.printer p]
    split_ifs with hp
    · have hok := h.ok
      cases a with
      | start | exitRemove | exitMiss | exitKeep => cases ha
      | newPrinter p' c =>
        cases hp
        exact ⟨hok.2.2.1, hok.2.2.2.1⟩
      | _ => exact ⟨rfl, rfl⟩
    · exact ⟨rfl, rfl⟩
  exact ⟨fun p => (core p).1, fun p => (core p).2⟩

/-- What an act that is about a printer at work leaves it busy. -/
theorem Change.busy {a : Act} {s t : Pprd} (h : Change a s t) (hp : LinkPermit s a) {p : ℕ}
    (hr : s.running p) (hb : (s.prnStatus p).busy) : (t.prnStatus p).busy := by
  change (t.printers p).core.status.busy
  rw [h.printer p]
  split_ifs with hpr
  · have hok := h.ok
    have he : (s.printers p).core.status = s.prnStatus p := rfl
    cases a with
    | starve p' | feed p' =>
      cases hpr
      rw [hok.1] at hb
      cases hb
    | status p' st =>
      cases hpr
      exact hp hr
    | newPrinter p' c =>
      cases hpr
      exact absurd hr hp
    | cancel x p' | cancelSeizing x p' | seize x p' =>
      simp only [Act.core, he]
      split_ifs
      · rfl
      · first | exact hb | rfl
    | start | deletePrinter => rfl
    | _ => exact hb
  · exact hb

theorem Linked.of_sameWork {s t : Pprd} (h : Linked s) (hw : SameWork s t)
    (hc : s.printerCount ≤ t.printerCount)
    (hjob : ∀ p, s.running p → ∃ st, t.onPrinter (s.printers p).jobKey st)
    (hprint : ∀ k p, t.onPrinter k (.printing p) → s.onPrinter k (.printing p))
    (hbusy : ∀ p, s.running p → (t.prnStatus p).busy) : Linked t := by
  refine ⟨fun p hp => ?_, fun k p hk => ?_, fun p p' hp hp' he => ?_, fun p hp => ?_,
    fun p hp => ?_⟩
  · rw [hw.jobKey]
    exact hjob p ((hw.running p).1 hp)
  · rw [hw.running, hw.jobKey]
    exact h.printing k p (hprint k p hk)
  · rw [hw.jobKey, hw.jobKey] at he
    exact h.apart p p' ((hw.running p).1 hp) ((hw.running p').1 hp') he
  · exact hbusy p ((hw.running p).1 hp)
  · rw [hw.running]
    exact h.fresh p (hc.trans hp)

theorem onPrinter_job {s : Pprd} (hs : s.keys.Nodup) {x : ℕ} (hx : x < s.queue.length)
    {st : JobStatus} (h : s.onPrinter (s.job x).key st) : (s.job x).status = st := by
  obtain ⟨-, q, hq, hk, rfl⟩ := h
  obtain ⟨y, hy, rfl⟩ := mem_queue_iff.1 hq
  rw [key_inj hs hy hx hk]

/-- No printer is at work on a job that is not on one. -/
theorem Linked.unattended {s : Pprd} (h : Linked s) (hs : s.keys.Nodup) {x : ℕ}
    (hx : x < s.queue.length) (hoff : (s.job x).status.onPrinter = false) :
    s.unattended (s.job x).key := by
  intro p _ hp he
  obtain ⟨st, hst⟩ := h.job p hp
  rw [he] at hst
  rw [onPrinter_job hs hx hst, hst.1] at hoff
  cases hoff

theorem Linked.of_start {s t : Pprd} (h : Linked s) (hs : s.keys.Nodup) {p x y : ℕ} {pid : ℤ}
    (hc : Change (.start p x y pid) s t) (hb : InBounds s) : Linked t := by
  obtain ⟨hx, hw, -, hidle, -, hpid, hknown⟩ := hc.ok
  have hfree : ∀ p, s.running p → (s.printers p).jobKey ≠ (s.job x).key := fun p hp =>
    h.unattended hs hx (by rw [hw]; rfl) p (h.lt hp) hp
  have hnot : ¬ s.running p := fun hr => by
    have := h.busy p hr
    rw [hidle] at this
    cases this
  have hon := hc.onPrinter hs
  have hself : (t.printers p).core = { (s.printers p).core with
      status := .printing, jobPid := pid, jobKey := (s.job x).key } := hc.core_of rfl
  have hkey : (t.printers p).jobKey = (s.job x).key := congrArg PrinterCore.jobKey hself
  have hrun : t.running p := by
    change (t.printers p).core.jobPid ≠ 0
    rw [hself]
    exact hpid
  have hother : ∀ p', p' ≠ p → (t.printers p').core = (s.printers p').core := fun p' hne =>
    hc.core_ne fun e => hne (Option.some.inj e).symm
  have hkey' : ∀ p', p' ≠ p → (t.printers p').jobKey = (s.printers p').jobKey := fun p' hne =>
    congrArg PrinterCore.jobKey (hother p' hne)
  have hrun' : ∀ p', p' ≠ p → (t.running p' ↔ s.running p') := fun p' hne => by
    rw [Pprd.running, show (t.printers p').jobPid = (s.printers p').jobPid from
      congrArg PrinterCore.jobPid (hother p' hne), Pprd.running]
  refine ⟨fun p' hp' => ?_, fun k p' hk => ?_, fun p₁ p₂ h1 h2 he => ?_, fun p' hp' => ?_,
    fun p' hp' => ?_⟩
  · by_cases hpp : p' = p
    · subst hpp
      rw [hkey]
      exact ⟨.printing p', (hon _ _).2 (.inl ⟨rfl, rfl, rfl⟩)⟩
    · rw [hkey' p' hpp]
      have hr := (hrun' p' hpp).1 hp'
      obtain ⟨st, hst⟩ := h.job p' hr
      exact ⟨st, (hon _ _).2 (.inr ⟨hfree p' hr, hst⟩)⟩
  · rcases (hon _ _).1 hk with ⟨rfl, he, -⟩ | ⟨hne, hk⟩
    · cases he
      exact ⟨hrun, hkey⟩
    · obtain ⟨hr, hkk⟩ := h.printing k p' hk
      have hpp : p' ≠ p := by
        rintro rfl
        exact hnot hr
      exact ⟨(hrun' p' hpp).2 hr, (hkey' p' hpp).trans hkk⟩
  · -- The job is on no other printer.
    by_cases e1 : p₁ = p <;> by_cases e2 : p₂ = p
    · rw [e1, e2]
    · rw [e1, hkey, hkey' p₂ e2] at he
      exact absurd he.symm (hfree p₂ ((hrun' p₂ e2).1 h2))
    · rw [e2, hkey, hkey' p₁ e1] at he
      exact absurd he (hfree p₁ ((hrun' p₁ e1).1 h1))
    · rw [hkey' p₁ e1, hkey' p₂ e2] at he
      exact h.apart p₁ p₂ ((hrun' p₁ e1).1 h1) ((hrun' p₂ e2).1 h2) he
  · by_cases hpp : p' = p
    · subst hpp
      rw [show t.prnStatus p' = .printing from congrArg PrinterCore.status hself]
      rfl
    · rw [show t.prnStatus p' = s.prnStatus p' from congrArg PrinterCore.status (hother p' hpp)]
      exact h.busy p' ((hrun' p' hpp).1 hp')
  · have hcount : t.printerCount = s.printerCount := hc.printerCount
    have hpp : p' ≠ p := by
      rintro rfl
      have := hb.knownPrinter hknown
      omega
    rw [hrun' p' hpp]
    exact h.fresh p' (hcount ▸ hp')

/-- The pprdrv of printer `p` has ended. -/
theorem Linked.of_exit {s t : Pprd} (h : Linked s) {p : ℕ} (hr : s.running p)
    (hself : (t.printers p).jobPid = 0)
    (hother : ∀ p', p' ≠ p → (t.printers p').core = (s.printers p').core)
    (hcount : t.printerCount = s.printerCount)
    (hon : ∀ k st, t.onPrinter k st ↔ k ≠ (s.printers p).jobKey ∧ s.onPrinter k st) :
    Linked t := by
  have hne : ∀ {p'}, t.running p' → p' ≠ p := by
    rintro p' hp' rfl
    exact hp' hself
  have hkey' : ∀ {p'}, p' ≠ p → (t.printers p').jobKey = (s.printers p').jobKey := fun hne =>
    congrArg PrinterCore.jobKey (hother _ hne)
  have hrun' : ∀ {p'}, p' ≠ p → (t.running p' ↔ s.running p') := fun {p'} hne => by
    rw [Pprd.running, show (t.printers p').jobPid = (s.printers p').jobPid from
      congrArg PrinterCore.jobPid (hother p' hne), Pprd.running]
  refine ⟨fun p' hp' => ?_, fun k p' hk => ?_, fun p₁ p₂ h1 h2 he => ?_, fun p' hp' => ?_,
    fun p' hp' => ?_⟩
  · have hr' := (hrun' (hne hp')).1 hp'
    obtain ⟨st, hst⟩ := h.job p' hr'
    rw [hkey' (hne hp')]
    exact ⟨st, (hon _ _).2 ⟨fun e => hne hp' (h.apart p' p hr' hr e), hst⟩⟩
  · obtain ⟨hk1, hk2⟩ := (hon _ _).1 hk
    obtain ⟨hr', hkk⟩ := h.printing k p' hk2
    have hpp : p' ≠ p := by
      rintro rfl
      exact hk1 hkk.symm
    exact ⟨(hrun' hpp).2 hr', (hkey' hpp).trans hkk⟩
  · rw [hkey' (hne h1), hkey' (hne h2)] at he
    exact h.apart p₁ p₂ ((hrun' (hne h1)).1 h1) ((hrun' (hne h2)).1 h2) he
  · rw [show t.prnStatus p' = s.prnStatus p' from
      congrArg PrinterCore.status (hother p' (hne hp'))]
    exact h.busy p' ((hrun' (hne hp')).1 hp')
  · intro hp
    exact h.fresh p' (hcount ▸ hp') ((hrun' (hne hp)).1 hp)

/-- One act keeps printers and jobs linked. -/
theorem Linked.act {a : Act} {s t : Pprd} (h : Linked s) (hs : s.keys.Nodup) (hb : InBounds s)
    (hp : LinkPermit s a) (hc : Change a s t) : Linked t := by
  have hon := hc.onPrinter hs
  -- An entry gets another key or status, and if it was on a printer it still is.
  have after : a.changesWork = false → ∀ (k₀ k₁ : JobKey) (st₁ : JobStatus),
      (∀ k st, a.onPrinter s k st ↔ s.onPrinterAfter k₀ k₁ st₁ k st) →
      (s.unattended k₀ ∨ k₁ = k₀ ∧ st₁.onPrinter) →
      (∀ p, st₁ = .printing p → s.onPrinter k₁ (.printing p)) → Linked t := by
    intro hw k₀ k₁ st₁ ha hold hnew
    refine h.of_sameWork (hc.sameWork hw) hc.printerCount_le (fun p hr => ?_) (fun k p hk => ?_)
      fun p hr => hc.busy hp hr (h.busy p hr)
    · obtain ⟨st, hst⟩ := h.job p hr
      by_cases hk : (s.printers p).jobKey = k₀
      · rcases hold with hold | ⟨rfl, hon₁⟩
        · exact absurd hk (hold p (h.lt hr) hr)
        · exact ⟨st₁, (hon _ _).2 ((ha _ _).2 (.inl ⟨hk, rfl, hon₁⟩))⟩
      · exact ⟨st, (hon _ _).2 ((ha _ _).2 (.inr ⟨hk, hst⟩))⟩
    · rcases (ha _ _).1 ((hon _ _).1 hk) with ⟨rfl, he, -⟩ | ⟨-, hk⟩
      · exact hnew p he.symm
      · exact hk
  have exit : ∀ p, a.printer? = some p → s.running p → t.printerCount = s.printerCount →
      (a.core (a.key s) (s.printers p).core).jobPid = 0 →
      (∀ k st, a.onPrinter s k st ↔ k ≠ (s.printers p).jobKey ∧ s.onPrinter k st) → Linked t := by
    intro p hap hr hcount hpid ha
    refine h.of_exit hr ?_ (fun p' hne => hc.core_ne fun e => ?_) hcount
      fun k st => (hon k st).trans (ha k st)
    · change (t.printers p).core.jobPid = 0
      rw [hc.core_of hap]
      exact hpid
    · rw [hap] at e
      exact hne (Option.some.inj e).symm
  cases a with
  | start p x y pid => exact h.of_start hs hc hb
  | exitRemove p e y => exact exit p rfl hc.ok.2.1 hc.printerCount rfl fun _ _ => .rfl
  | exitMiss p e => exact exit p rfl hc.ok.2.1 hc.printerCount rfl fun _ _ => .rfl
  | exitKeep p e y st => exact exit p rfl hc.ok.2.1 hc.printerCount rfl fun _ _ => .rfl
  | cancel x p | cancelSeizing x p | seize x p =>
    refine after rfl _ _ _ (fun _ _ => .rfl) (.inr ⟨rfl, rfl⟩) fun p he => ?_
    cases he
  | replace x q =>
    refine after rfl _ _ _ (fun _ _ => .rfl) (.inl hp) fun p he => ?_
    have := hc.ok.2.2
    rw [he] at this
    cases this
  | move x d n =>
    refine after rfl _ _ _ (fun _ _ => .rfl) ?_ fun p he => ?_
    · by_cases hd : (s.job x).destid = d
      · by_cases hoff : (s.job x).status.onPrinter
        · exact .inr ⟨by rw [← hd]; rfl, hoff⟩
        · exact .inl (h.unattended hs hc.ok.1 (by simpa using hoff))
      · exact .inl (hp hd)
    · have := hc.ok.2
      rw [he] at this
      cases this
  | insert x q =>
    refine h.of_sameWork (hc.sameWork rfl) hc.printerCount_le (fun p hr => ?_) (fun k p hk => ?_)
      fun p hr => hc.busy hp hr (h.busy p hr)
    · obtain ⟨st, hst⟩ := h.job p hr
      exact ⟨st, (hon _ _).2 (.inr hst)⟩
    · rcases (hon _ _).1 hk with ⟨-, he, -⟩ | hk
      · have := hc.ok.2
        rw [← he] at this
        cases this
      · exact hk
  | _ =>
    refine h.of_sameWork (hc.sameWork rfl) hc.printerCount_le (fun p hr => ?_) (fun k p hk => ?_)
      fun p hr => hc.busy hp hr (h.busy p hr)
    · obtain ⟨st, hst⟩ := h.job p hr
      exact ⟨st, (hon _ _).2 hst⟩
    · exact (hon _ _).1 hk

/-! ## Events -/

/-- Keys and names are unique, the ids in the tables are in use, and printers and jobs are
linked. -/
structure Tidy (s : Pprd) : Prop where
  named : Named s
  inBounds : InBounds s
  linked : Linked s

theorem Tidy.act {a : Act} {s t : Pprd} (h : Tidy s) (hn : NamePermit s a) (hl : LinkPermit s a)
    (hc : Change a s t) : Tidy t :=
  ⟨h.named.act hn hc, h.inBounds.act hc, h.linked.act h.named.nodup h.inBounds hl hc⟩

/-- Paths through tidy states. -/
abbrev TidyActs (K : Act → Pprd → Prop) : Pprd → Pprd → Prop :=
  Acts fun a u => (Tidy u ∧ LinkPermit u a) ∧ K a u

variable {K : Act → Pprd → Prop}

/-- A property that every act between tidy states keeps is kept along such a path. -/
theorem Tidy.along {I : Pprd → Prop} {s t : Pprd}
    (keep : ∀ a u v, I u → Tidy u → Tidy v → LinkPermit u a → K a u → Change a u v → I v)
    (ht : Tidy t) (h : TidyActs K s t) (hs : I s) : I t := by
  induction h with
  | refl => exact hs
  | step _ hK hc ih => exact keep _ _ _ (ih hK.1.1) hK.1.1 ht hK.1.2 hK.2 hc

/-- A path whose acts are permitted in tidy states is a path through tidy states. -/
theorem Tidy.path {s t : Pprd} (h : Tidy s) (ht : Acts K s t)
    (hp : ∀ a u v, Tidy u → K a u → Change a u v → NamePermit u a ∧ LinkPermit u a) :
    TidyActs K s t ∧ Tidy t := by
  induction ht with
  | refl => exact ⟨.refl _, h⟩
  | step _ hK hc ih =>
    obtain ⟨hpath, hu⟩ := ih
    obtain ⟨hn, hl⟩ := hp _ _ _ hu hK hc
    exact ⟨hpath.step ⟨⟨hu, hl⟩, hK⟩ hc, hu.act hn hl hc⟩

theorem Tidy.starts (hK : Base K) {s t : Pprd} (h : Tidy s) (ht : Starts s t) :
    TidyActs K s t ∧ Tidy t := by
  have permit : ∀ a : Act, a.isStart → ∀ u, NamePermit u a ∧ LinkPermit u a ∧ K a u := by
    intro a ha u
    cases a with
    | frame => exact ⟨trivial, trivial, hK.frame u⟩
    | start p x y pid => exact ⟨trivial, trivial, hK.start p x y pid u⟩
    | starve p => exact ⟨trivial, trivial, hK.starve p u⟩
    | _ => cases ha
  obtain ⟨hpath, htidy⟩ := h.path ht fun a u _ _ ha _ => ⟨(permit a ha u).1, (permit a ha u).2.1⟩
  exact ⟨hpath.weaken fun a u hu => ⟨hu.1, (permit a hu.2 u).2.2⟩, htidy⟩

theorem Tidy.frame (hK : Base K) {s t : Pprd} (h : Tidy s) (ht : Frame s t) :
    TidyActs K s t ∧ Tidy t :=
  h.starts hK (.of_frame ht)

/-- The submitting side or the refusal of a submission. -/
theorem Tidy.ppr (hppr : ∀ u, K .ppr u) {s t : Pprd} (h : Tidy s) (hc : Change .ppr s t)
    (ht : Named t) : TidyActs K s t ∧ Tidy t :=
  have hl : LinkPermit s .ppr := trivial
  ⟨Trail.single ⟨⟨h, hl⟩, hppr s⟩ hc,
    ht, h.inBounds.act hc, h.linked.act h.named.nodup h.inBounds hl hc⟩

theorem SameWork.unattended {s t : Pprd} (h : SameWork s t) (hc : t.printerCount = s.printerCount)
    {k : JobKey} (hs : s.unattended k) : t.unattended k := by
  intro p hp hr
  rw [h.jobKey]
  exact hs p (hc ▸ hp) ((h.running p).1 hr)

theorem Frame.sameWork {s t : Pprd} (h : Frame s t) : SameWork s t :=
  (Change.of_frame h).sameWork rfl

theorem Entered.key {s : Pprd} {name : QName} {q : QEntry} (h : Entered s name q) :
    ∃ d, destidByName s name.1 = some d ∧ q.key = (d, name.2) :=
  ⟨q.destid, h.dest, by simp [QEntry.key, h.id, h.subid]⟩

/-- A submission whose file is nobody's, or whose entry no printer is at work on. -/
theorem Tidy.accepted (hK : Base K) (hppr : ∀ u, K .ppr u) {s t : Pprd} {name : QName}
    {reloadJob : Bool} (h : Tidy s) (hin : EnterPermit K s name reloadJob)
    (hnew : reloadJob = false → ¬ Taken s name)
    (hreload : reloadJob → (Taken s name → reloadOk s name) ∧
      ∀ d, destidByName s name.1 = some d → s.unattended (d, name.2))
    (ht : Accepted s name reloadJob t) : TidyActs K s t ∧ Tidy t := by
  rcases ht with ⟨u, hu, rfl, hr⟩ | ⟨u, v, q, a, hu, hq, hc, hs, ha⟩
  · obtain ⟨p1, hu'⟩ := h.frame hK hu
    have hc : Change .ppr u (deleteJobFiles u name) := change_ppr rfl rfl rfl rfl rfl rfl rfl
    obtain ⟨p2, ht⟩ := hu'.ppr hppr hc (h.named.refuse hu hr hnew fun hrj => (hreload hrj).1)
    exact ⟨p1.trans p2, ht⟩
  · obtain ⟨p1, hu'⟩ := h.frame hK hu
    have permit : NamePermit u a ∧ LinkPermit u a ∧ K a u := by
      rcases ha with ⟨hrj, rfl⟩ | ⟨hrj, x, rfl⟩
      · exact ⟨h.named.permit_insert hu hq (hnew hrj), trivial, (hin u q hu hq).1 hrj⟩
      · obtain ⟨d, hd, hk⟩ := hq.key
        refine ⟨trivial, ?_, (hin u q hu hq).2 hrj x⟩
        change u.unattended q.key
        rw [hk]
        exact hu.sameWork.unattended hu.printerCount ((hreload hrj).2 d hd)
    obtain ⟨hn, hl, hk⟩ := permit
    have hv := hu'.act hn hl hc
    obtain ⟨p2, ht⟩ := hv.starts hK hs
    exact ⟨(p1.step ⟨⟨hu', hl⟩, hk⟩ hc).trans p2, ht⟩

/-- The event does nothing to a printer that is at work behind its back: the job it is at work on is
not moved to another destination or replaced by one made from a skeleton, and no new printer gets
its record. -/
def LinksKept (s : Pprd) : Event → Prop
  | .newPrinterConfig n conf => destidByPrinter s n = none → conf.isSome → ¬ s.running (freeSlot s)
  | .queueNewJob =>
    match s.fifo with
    | .reload name :: _ => ∀ d ∈ destidByName s name.1, s.unattended (d, name.2)
    | _ => True
  | ev => ∀ x < s.queue.length, ∀ t ∈ ev.moves s x, (s.job x).status.isPrinting = false →
      (s.job x).destid ≠ t.1 → s.unattended (s.job x).key

/-- Whether the jobs that an event moves stay with their printers. -/
def decidableMovesKept (s : Pprd) (ev : Event) :
    Decidable (∀ x < s.queue.length, ∀ t ∈ ev.moves s x, (s.job x).status.isPrinting = false →
      (s.job x).destid ≠ t.1 → s.unattended (s.job x).key) :=
  inferInstance

def decidableFifoKept (s : Pprd) (fifo : List Submission) :
    Decidable (match fifo with
      | .reload name :: _ => ∀ d ∈ destidByName s name.1, s.unattended (d, name.2)
      | _ => True) :=
  match fifo with
  | .reload name :: _ => inferInstanceAs (Decidable (∀ d ∈ destidByName s name.1, s.unattended (d, name.2)))
  | .new _ :: _ => isTrue trivial
  | [] => isTrue trivial

instance (s : Pprd) (ev : Event) : Decidable (LinksKept s ev) :=
  match ev with
  | .newPrinterConfig n conf =>
    inferInstanceAs (Decidable (destidByPrinter s n = none → conf.isSome → ¬ s.running (freeSlot s)))
  | .queueNewJob => decidableFifoKept s s.fifo
  | .pprStart n => decidableMovesKept s (.pprStart n)
  | .pprTakeSkeleton n id => decidableMovesKept s (.pprTakeSkeleton n id)
  | .pprFinish i e => decidableMovesKept s (.pprFinish i e)
  | .newGroupConfig n conf => decidableMovesKept s (.newGroupConfig n conf)
  | .ppop c => decidableMovesKept s (.ppop c)
  | .ipp c => decidableMovesKept s (.ipp c)
  | .reapchild now pid w => decidableMovesKept s (.reapchild now pid w)
  | .tick now => decidableMovesKept s (.tick now)

theorem busy_stopStatus {halt : Bool} {old new : PrnStatus} (h : stopStatus halt old = some new)
    (hb : old.busy) : new.busy := by
  cases old <;> cases halt <;> cases h <;> first | rfl | cases hb

theorem reaps_running {s : Pprd} {ev : Event} {p : ℕ} (hev : ev.possible)
    (h : (ev.reaps s p).isSome) : s.running p := by
  cases ev with
  | reapchild now pid w =>
    simp only [Event.reaps] at h
    split_ifs at h with hp
    · change (s.printers p).jobPid ≠ 0
      have : 0 < pid := hev
      omega
    · cases h
  | _ => cases h

/-- What an event that keeps links may do does. -/
theorem linkPermit_of_allowed {s u v : Pprd} {ev : Event} {a : Act} (hev : ev.possible)
    (h : Linked s) (hu : Tidy u) (hkept : LinksKept s ev) (ha : Allowed s ev u a)
    (hc : Change a u v) : LinkPermit u a := by
  cases a with
  | status p st =>
    intro hr
    have hb := hu.linked.busy p hr
    rcases ha with ⟨hst, rfl⟩ | ⟨hst, rfl⟩ | ⟨-, rfl, halt, hst⟩ | ⟨hreap, hst⟩
    · rcases hst with hst | hst | hst <;> rw [hst] at hb <;> cases hb
    · rfl
    · exact busy_stopStatus hst hb
    · exfalso
      have hbs := h.busy p (reaps_running hev hreap)
      refine hr (hst fun hi => ?_).1
      rw [hi] at hbs
      cases hbs
  | replace x q =>
    obtain ⟨name, rfl, rest, name', hf, hname, hfr, hq⟩ := ha
    obtain ⟨d, hd, hk⟩ := hq.key
    rcases hname with hname | hname
    · cases hname
    · cases hname
      simp only [LinksKept, hf] at hkept
      change u.unattended q.key
      rw [hk]
      exact hfr.sameWork.unattended hfr.printerCount (hkept d hd)
  | move x d n =>
    obtain ⟨hm, hx, hp, hmv⟩ := ha
    intro hd p hpl hr he
    have hkx := (hmv.job x le_rfl hx).1
    have hds : (s.job x).destid ≠ d := by
      rwa [show (s.job x).destid = (u.job x).destid from congrArg Prod.fst hkx.symm]
    have hfree : s.unattended (s.job x).key := by
      rcases moves_cases hm with ⟨_, _, _, _, rfl, -⟩ | ⟨_, _, rfl, -⟩
      · exact hkept x hx (d, n) hm hp hds
      · exact hkept x hx (d, n) hm hp hds
    rcases hmv.running p hr with ⟨hrs, hks⟩ | ⟨q, hq, hqp, hqk⟩
    · exact hfree p (hmv.names.printerCount ▸ hpl) hrs (by rw [← hks, he, hkx])
    · -- A printer that has been started in between is at work on a job that is printing.
      obtain ⟨z, hz, rfl⟩ := mem_queue_iff.1 hq
      rw [key_inj hu.named.nodup hz hc.ok.1 (hqk.trans he), hc.ok.2] at hqp
      cases hqp
  | newPrinter p c =>
    obtain ⟨rfl, n, conf, rfl, hn, hp, hs⟩ := ha
    rcases hs with hs | hs
    · exact h.fresh p hs.ge
    · exact hp ▸ hkept hn hs
  | _ => trivial

/-- What an event does goes through tidy states if it keeps names and links. -/
theorem Tidy.step {s t : Pprd} {ev : Event} (h : Tidy s) (hev : ev.possible)
    (hn : NamesKept s ev) (hl : LinksKept s ev) (hst : step os s ev = .ok t) :
    TidyActs (fun a u => Allowed s ev u a) s t ∧ Tidy t := by
  have hK := base_allowed s ev
  have acts : ev.submits = false → TidyActs (fun a u => Allowed s ev u a) s t ∧ Tidy t := fun hs =>
    h.path (step_acts hev t hst) fun a u v hu ha hc =>
      ⟨namePermit_of_allowed h.named hs hn ha hc,
        linkPermit_of_allowed hev h.linked hu hl ha hc⟩
  have only : ∀ {u}, ev.submits → PprOnly s u → Named u →
      TidyActs (fun a u => Allowed s ev u a) s u ∧ Tidy u := fun hs ho hu =>
    h.ppr (fun _ => hs) ho.change hu
  have hnamed := h.named.step hev hn hst
  cases ev with
  | pprStart n =>
    cases hst
    exact only rfl (pprOnly_pprStart s n) hnamed
  | pprTakeSkeleton n id =>
    cases hst
    exact only rfl (pprOnly_pprTakeSkeleton s n id) hnamed
  | pprFinish i e =>
    cases hst
    exact only rfl (pprOnly_pprFinish s i e) hnamed
  | queueNewJob =>
    simp only [Ppr.step, Ppr.queueNewJob] at hst
    split at hst
    · cases hst
      exact ⟨.refl _, h⟩
    · rename_i name rest hf
      have ho : PprOnly s { s with fifo := rest } := ⟨rfl, rfl, rfl, rfl, rfl, rfl, rfl⟩
      obtain ⟨p1, h1⟩ := only rfl ho (h.named.of_pop hf)
      have hin : EnterPermit (fun a u => Allowed s .queueNewJob u a) { s with fifo := rest } name
          false := fun u q hu hq => ⟨fun _ => ?_, by simp⟩
      · obtain ⟨p2, ht⟩ := h1.accepted hK (fun _ => rfl) hin (fun _ => h.named.not_taken_of_pop hf)
          (by simp) (queueAcceptQueuefile_ensures _ _ _ _ t hst)
        exact ⟨p1.trans p2, ht⟩
      · exact ⟨name, rfl, rest, name, hf, .inl rfl, hu, hq⟩
    · rename_i name rest hf
      have ho : PprOnly s { s with fifo := rest } := ⟨rfl, rfl, rfl, rfl, rfl, rfl, rfl⟩
      obtain ⟨p1, h1⟩ := only rfl ho (h.named.of_pop hf)
      have hin : EnterPermit (fun a u => Allowed s .queueNewJob u a) { s with fifo := rest } name
          true := fun u q hu hq => ⟨by simp, fun _ x => ?_⟩
      · simp only [NamesKept, hf] at hn
        simp only [LinksKept, hf] at hl
        have hreload : Taken { s with fifo := rest } name → reloadOk s name := by
          intro ht
          refine hn (ht.imp_right fun hm => ?_)
          rw [hf]
          exact List.mem_cons_of_mem _ hm
        obtain ⟨p2, ht⟩ := h1.accepted hK (fun _ => rfl) hin (by simp) (fun _ => ⟨hreload, hl⟩)
          (queueAcceptQueuefile_ensures _ _ _ _ t hst)
        exact ⟨p1.trans p2, ht⟩
      · exact ⟨name, rfl, rest, name, hf, .inr rfl, hu, hq⟩
  | _ => exact acts rfl

/-! ## Runs -/

/-- The memory of the printer table says of no printer that it is at work. -/
def Boot.Cleared (b : Boot) : Prop := ∀ p, (b.mem p).jobPid = 0

theorem Tidy.of_empty {b : Boot} (hb : b.Cleared) : Tidy b.empty := by
  refine ⟨.of_empty b, ⟨fun g m hm => absurd hm List.not_mem_nil,
    fun q hq => absurd hq List.not_mem_nil⟩, ?_⟩
  have idle : ∀ p, ¬ b.empty.running p := fun p hp => hp (hb p)
  refine ⟨fun p hp => absurd hp (idle p), ?_, fun p _ hp => absurd hp (idle p),
    fun p hp => absurd hp (idle p), fun p _ => idle p⟩
  rintro k p ⟨-, q, hq, -⟩
  cases hq

theorem Tidy.load {a : Act} {s t : Pprd} (h : Tidy s) (ha : LoadAllowed s a) (hc : Change a s t) :
    Tidy t := by
  refine ⟨h.named.load ha hc, h.inBounds.act hc, h.linked.act h.named.nodup h.inBounds ?_ hc⟩
  cases a with
  | newPrinter p c =>
    cases ha
    exact h.linked.fresh _ le_rfl
  | newGroup g c => trivial
  | _ => cases ha

theorem Tidy.boot {b : Boot} (hb : b.Wf) (hm : b.Cleared) : Ensures (boot os b) Tidy := by
  have hK : Base fun _ _ => True := by constructor <;> intros <;> trivial
  refine boot_ensures (I := Tidy) (J := fun names s => Inheriting names s ∧ Tidy s)
    (.of_empty hm) (fun _ _ _ h ha hc => h.load ha hc)
    (fun s h hq hf => ⟨⟨h.named, hb.queue_nodup, fun name _ ht => ?_⟩, h⟩)
    (fun name rest s t h ht => ⟨h.1.accept ht, ?_⟩) fun _ _ h ht => (h.2.starts hK ht).2
  · simp [Taken, Pprd.keys, hq, hf] at ht
  · exact (h.2.accepted hK (fun _ => trivial) (fun _ _ _ _ => ⟨fun _ => trivial, fun _ _ => trivial⟩)
      (fun _ => h.1.free name List.mem_cons_self) (by simp) ht).2

theorem Tidy.of_run {B : Boot → Prop} {C : Pprd → Event → Prop} (hB : ∀ b, B b → b.Cleared)
    (hC : ∀ s ev, C s ev → NamesKept s ev ∧ LinksKept s ev) {hist : List (Pprd × Event)} {s : Pprd}
    (run : Runs os B C hist s) : Tidy s := by
  refine run.invariant (I := Tidy) ?_ ?_
  · rintro s ⟨b, hw, hb, hs⟩
    exact Tidy.boot hw (hB b hb) s hs
  · rintro s ev t h ⟨hev, hk, hst⟩
    exact (h.step hev (hC s ev hk).1 (hC s ev hk).2 hst).2

/-- What printers and jobs say of each other: a printer that is at work has exactly one entry with
the key of its job, and no other printer is at work on it; a job that is printing has its printer at
work on it; and the end of a pprdrv finds its job. -/
structure JobsLinked (os : ℕ → Bool) (s : Pprd) : Prop where
  printer : ∀ p < s.printerCount, s.running p →
    (∃! x, x < s.queue.length ∧ (s.job x).key = (s.printers p).jobKey) ∧
      ∀ q ∈ s.queue, q.key = (s.printers p).jobKey →
        q.status = .printing p ∨ q.status = .cancel ∨ q.status = .seizing
  job : ∀ q ∈ s.queue, ∀ p, q.status = .printing p →
    p < s.printerCount ∧ s.running p ∧ (s.printers p).jobKey = q.key
  apart : ∀ p < s.printerCount, ∀ p' < s.printerCount, s.running p → s.running p' →
    (s.printers p).jobKey = (s.printers p').jobKey → p = p'
  reaped : ∀ p < s.printerCount, s.running p → ∀ w, pprdrvExited os s p w ≠ .error .jobNotFound

theorem Tidy.findJob {s : Pprd} (h : Tidy s) {p : ℕ} (hr : s.running p) :
    ∃ y, s.findJob (s.printers p).jobKey = some y := by
  obtain ⟨st, -, q, hq, hk, -⟩ := h.linked.job p hr
  cases hf : s.findJob (s.printers p).jobKey with
  | none => exact absurd hk (findJob_eq_none hf q hq)
  | some y => exact ⟨y, rfl⟩

theorem Tidy.jobsLinked {s : Pprd} (h : Tidy s) : JobsLinked os s := by
  have hnd := h.named.nodup
  refine ⟨fun p hp hr => ?_, fun q hq p hs => ?_, fun p _ p' _ => h.linked.apart p p',
    fun p hp hr w he => ?_⟩
  · obtain ⟨y, hy⟩ := h.findJob hr
    obtain ⟨hyl, hyk⟩ := findJob_eq_some hy
    refine ⟨⟨y, ⟨hyl, hyk⟩, fun x hx => key_inj hnd hx.1 hyl (hx.2.trans hyk.symm)⟩,
      fun q hq hk => ?_⟩
    obtain ⟨st, hst⟩ := h.linked.job p hr
    obtain ⟨x, hx, rfl⟩ := mem_queue_iff.1 hq
    rw [← hk] at hst
    have hs := onPrinter_job hnd hx hst
    rw [hs]
    have hon := hst.1
    cases st with
    | printing p' =>
      obtain ⟨hr', hk'⟩ := h.linked.printing _ p' hst
      rw [h.linked.apart p' p hr' hr (hk'.trans hk)]
      exact .inl rfl
    | cancel => exact .inr (.inl rfl)
    | seizing => exact .inr (.inr rfl)
    | _ => cases hon
  · obtain ⟨hr, hk⟩ := h.linked.printing q.key p ⟨by rw [← hs, hs]; rfl, q, hq, rfl, hs⟩
    exact ⟨h.linked.lt hr, hr, hk⟩
  · obtain ⟨y, hy⟩ := h.findJob hr
    exact pprdrvExited_avoids hy w _ he trivial

/-- In every run that keeps names and links apart from each other, printers and jobs are linked in
every state. -/
theorem jobs_linked {hist : List (Pprd × Event)} {s : Pprd}
    (run : Runs os Boot.Cleared (fun s ev => NamesKept s ev ∧ LinksKept s ev) hist s) :
    JobsLinked os s :=
  (Tidy.of_run (fun _ h => h) (fun _ _ h => h) run).jobsLinked

/-- Two printers, and a job for the first one, which starts it. -/
def startedBoot : Boot :=
  .ofFiles [("A", ⟨[]⟩), ("B", ⟨[]⟩)] [] [(("A", 1, 0), plainFile 50 1 1)]

theorem startedBoot_wf : startedBoot.Wf :=
  Boot.wf_ofFiles (by decide) (by decide) (by decide) (by decide)

theorem startedBoot_cleared : startedBoot.Cleared := fun _ => rfl

/-- A job that is canceled while its printer is at work on it. -/
theorem jobs_linked_canceled :
    ∃ hist s, Runs (fun _ => true) Boot.Cleared (fun s ev => NamesKept s ev ∧ LinksKept s ev) hist s ∧
      (s.keys, s.printerCount, (s.printers 0).jobPid) = ([(0, 1, 0)], 2, 1) ∧
      JobsLinked (fun _ => true) s := by
  obtain ⟨hist, s, run, hs⟩ := exists_runs (fun _ => true) Boot.Cleared
    (fun s ev => NamesKept s ev ∧ LinksKept s ev) startedBoot_wf startedBoot_cleared
    [.ppop (.cancel "A" 1 0)] (fun s => (s.keys, s.printerCount, (s.printers 0).jobPid))
    (a := ([(0, 1, 0)], 2, 1)) (by decide +kernel)
  exact ⟨hist, s, run, hs, jobs_linked run⟩

/-- A job that is being held can be moved to another destination; its printer is then at work on a job
that is not there. -/
theorem jobs_not_linked :
    ∃ hist s, Runs (fun _ => true) Boot.Cleared (fun _ _ => True) hist s ∧
      ¬ JobsLinked (fun _ => true) s := by
  obtain ⟨hist, s, run, hs⟩ := exists_runs (fun _ => true) Boot.Cleared (fun _ _ => True)
    startedBoot_wf startedBoot_cleared [.ppop (.hold "A" 1 0), .ppop (.move "A" 1 0 "B")]
    (fun s => (s.keys, s.printerCount, (s.printers 0).jobPid, (s.printers 0).jobKey))
    (a := ([(1, 1, 0)], 2, 1, (0, 1, 0))) (by decide +kernel)
  refine ⟨hist, s, run, fun h => ?_⟩
  simp only [Prod.mk.injEq] at hs
  obtain ⟨hk, hc, hpid, hkey⟩ := hs
  obtain ⟨⟨x, ⟨hx, he⟩, -⟩, -⟩ := h.printer 0 (by omega) (by rw [Pprd.running, hpid]; decide)
  have hm : (s.job x).key ∈ s.keys := List.mem_of_getElem? (keys_getElem? s hx)
  rw [he, hkey, hk] at hm
  exact absurd hm (by decide)

end Ppr
