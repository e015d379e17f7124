import Ppr.Invariants.Linked
import Ppr.Invariants.Stops

/-!
# Cancels and holds that are pending

A job that is canceled or held while a printer is at work on it waits for the exit of the pprdrv:
its status says what is to become of it, and so does a flag in the printer's record, which is what the
exit looks at.
-/

namespace Ppr

open Outcome Machine

variable {os : ℕ → Bool}

/-- The flags `cancel_job` and `hold_job` that go with the status of a job on a printer. -/
def JobStatus.flags : JobStatus → Bool × Bool
  | .cancel => (true, false)
  | .seizing => (false, true)
  | _ => (false, false)

def PrinterCore.flags (c : PrinterCore) : Bool × Bool := (c.cancelJob, c.holdJob)

/-- The flags of printer `p`. -/
def Pprd.flags (s : Pprd) (p : ℕ) : Bool × Bool := (s.printers p).core.flags

/-- The flags of a printer at work agree with the status of its job, and no other printer has one
set. -/
structure Flagged (s : Pprd) : Prop where
  job : ∀ p st, s.running p → s.onPrinter (s.printers p).jobKey st → s.flags p = st.flags
  idle : ∀ p, ¬ s.running p → s.flags p = (false, false)

/-- What an act must not do to the flags. -/
def FlagPermit (s : Pprd) : Act → Prop
  | .reload p _ _ => s.flags p = (false, false)
  | .cancelSeizing _ p => s.running p
  | _ => True

theorem flags_of_core {s t : Pprd} {p : ℕ} (h : (t.printers p).core = (s.printers p).core) :
    t.flags p = s.flags p :=
  congrArg PrinterCore.flags h

theorem running_of_core {s t : Pprd} {p : ℕ} (h : (t.printers p).core = (s.printers p).core) :
    (t.running p ↔ s.running p) ∧ (t.printers p).jobKey = (s.printers p).jobKey :=
  ⟨iff_of_eq (congrArg (fun c => PrinterCore.jobPid c ≠ 0) h), congrArg PrinterCore.jobKey h⟩

theorem onPrinter_unique {s : Pprd} (hs : s.keys.Nodup) {k : JobKey} {st st' : JobStatus}
    (h : s.onPrinter k st) (h' : s.onPrinter k st') : st = st' := by
  obtain ⟨-, q, hq, rfl, rfl⟩ := h
  obtain ⟨x, hx, rfl⟩ := mem_queue_iff.1 hq
  exact onPrinter_job hs hx h'

/-- The printer a command cancels or holds a job on is the one at work on it. -/
theorem Linked.attends {s : Pprd} (h : Linked s) {x p : ℕ} (hx : x < s.queue.length)
    (hp : (s.job x).status = .printing p) : s.running p ∧ (s.printers p).jobKey = (s.job x).key :=
  h.printing _ p ⟨by rw [← hp, hp]; rfl, s.job x, job_mem hx, rfl, hp⟩

theorem cancelSeizing_jobKey {s : Pprd} {x p : ℕ} (h : (Act.cancelSeizing x p).ok s) :
    (s.printers p).jobKey = (s.job x).key := by
  simpa using List.find?_some h.2.2

/-- What an act about another printer leaves of the job of a printer at work. -/
theorem Linked.job_kept {a : Act} {s t : Pprd} (h : Linked s) (hs : s.keys.Nodup)
    (hl : LinkPermit s a) (hf : FlagPermit s a) (hc : Change a s t) {p : ℕ} (hr : s.running p)
    (hp : a.printer? ≠ some p) {st : JobStatus} (hst : s.onPrinter (s.printers p).jobKey st) :
    t.onPrinter (s.printers p).jobKey st := by
  rw [hc.onPrinter hs]
  have hlt := h.lt hr
  -- Another printer at work has another job.
  have other : ∀ p', a.printer? = some p' → s.running p' →
      (s.printers p).jobKey ≠ (s.printers p').jobKey := by
    intro p' hp' hr' he
    rw [h.apart p p' hr hr' he] at hp
    exact hp hp'
  have hok := hc.ok
  cases a with
  | start p' x y pid =>
    refine .inr ⟨h.unattended hs hok.1 ?_ p hlt hr, hst⟩
    rw [hok.2.1]
    rfl
  | cancel x p' | seize x p' =>
    obtain ⟨hr', hk⟩ := h.attends hok.1 hok.2
    exact .inr ⟨hk ▸ other p' rfl hr', hst⟩
  | cancelSeizing x p' => exact .inr ⟨cancelSeizing_jobKey hok ▸ other p' rfl hf, hst⟩
  | exitRemove p' e y => exact ⟨other p' rfl hok.2.1, hst⟩
  | exitMiss p' e => exact ⟨other p' rfl hok.2.1, hst⟩
  | exitKeep p' e y st' => exact ⟨other p' rfl hok.2.1, hst⟩
  | insert x q => exact .inr hst
  | replace x q => exact .inr ⟨hl p hlt hr, hst⟩
  | move x d n =>
    by_cases hk : (s.printers p).jobKey = (s.job x).key
    · by_cases hd : (s.job x).destid = d
      · refine .inl ⟨?_, ?_, hst.1⟩
        · rw [hk, ← hd]
          rfl
        · rw [hk] at hst
          exact (onPrinter_job hs hok.1 hst).symm
      · exact absurd hk (hl hd p hlt hr)
    · exact .inr ⟨hk, hst⟩
  | _ => exact hst

/-- One act keeps flags and statuses in agreement. -/
theorem Flagged.act {a : Act} {s t : Pprd} (h : Flagged s) (ht : Tidy s) (hl : LinkPermit s a)
    (hf : FlagPermit s a) (hc : Change a s t) (hnd : t.keys.Nodup) : Flagged t := by
  have hs := ht.named.nodup
  have hlink := ht.linked
  have hon := hc.onPrinter hs
  -- The job has status `st₀` after the act, and no other.
  have only : ∀ {p : ℕ} {k : JobKey} {st : JobStatus} (st₀ : JobStatus), t.onPrinter k st₀ →
      t.flags p = st₀.flags → t.onPrinter k st → t.flags p = st.flags := by
    intro p k st st₀ h₀ hfl hst
    rw [onPrinter_unique hnd hst h₀]
    exact hfl
  refine ⟨fun p st hr hst => ?_, fun p hr => ?_⟩
  · by_cases hp : a.printer? = some p
    swap
    · have hcore := hc.core_ne hp
      obtain ⟨hrs, hk⟩ := running_of_core hcore
      rw [hk] at hst
      obtain ⟨st₀, hst₀⟩ := hlink.job p (hrs.1 hr)
      refine only st₀ (hlink.job_kept hs hl hf hc (hrs.1 hr) hp hst₀) ?_ hst
      rw [flags_of_core hcore]
      exact h.job p st₀ (hrs.1 hr) hst₀
    have hcore := hc.core_of hp
    have hok := hc.ok
    -- Acts that leave the job, its status and the flags as they are.
    have same : a.changesWork = false → (∀ k st, a.onPrinter s k st = s.onPrinter k st) →
        t.flags p = s.flags p → t.flags p = st.flags := by
      intro hw ha hfl
      have hsw := hc.sameWork hw
      rw [hon, ha, hsw.jobKey] at hst
      rw [hfl]
      exact h.job p st ((hsw.running p).1 hr) hst
    have hkey : (t.printers p).jobKey = _ := congrArg PrinterCore.jobKey hcore
    have hfl : t.flags p = _ := congrArg PrinterCore.flags hcore
    -- The job of the printer, with its status before the act, gets another one.
    have change : ∀ {x : ℕ} (st₀ st₁ : JobStatus), (s.job x).status = st₀ → x < s.queue.length →
        s.running p ∧ (s.printers p).jobKey = (s.job x).key → st₀.onPrinter → st₁.onPrinter →
        (t.printers p).jobKey = (s.printers p).jobKey →
        (∀ k st, a.onPrinter s k st = s.onPrinterAfter (s.job x).key (s.job x).key st₁ k st) →
        (s.flags p = st₀.flags → t.flags p = st₁.flags) → t.flags p = st.flags := by
      intro x st₀ st₁ hst₀ hx hat h0 h1 hk ha hflags
      refine only st₁ ?_ (hflags (h.job p st₀ hat.1 ?_)) hst
      · rw [hk, hat.2, hon, ha]
        exact .inl ⟨rfl, rfl, h1⟩
      · rw [hat.2]
        exact ⟨h0, _, job_mem hx, rfl, hst₀⟩
    cases a with
    | start p' x y pid =>
      cases hp
      refine only (.printing p) ?_ ?_ hst
      · rw [hkey]
        exact (hon _ _).2 (.inl ⟨rfl, rfl, rfl⟩)
      · rw [hfl]
        refine h.idle p fun hr => ?_
        have hb := hlink.busy p hr
        rw [hok.2.2.2.1] at hb
        cases hb
    | cancel x p' =>
      cases hp
      refine change _ .cancel hok.2 hok.1 (hlink.attends hok.1 hok.2) rfl rfl hkey
        (fun _ _ => rfl) fun h0 => ?_
      rw [hfl]
      exact congrArg (true, ·) (congrArg Prod.snd h0)
    | cancelSeizing x p' =>
      cases hp
      exact change _ .cancel hok.2.1 hok.1 ⟨hf, cancelSeizing_jobKey hok⟩ rfl rfl hkey
        (fun _ _ => rfl) fun _ => hfl
    | seize x p' =>
      cases hp
      refine change _ .seizing hok.2 hok.1 (hlink.attends hok.1 hok.2) rfl rfl hkey
        (fun _ _ => rfl) fun h0 => ?_
      rw [hfl]
      exact congrArg (·, true) (congrArg Prod.fst h0)
    | exitRemove p' e y | exitMiss p' e | exitKeep p' e y st' =>
      exact absurd (congrArg PrinterCore.jobPid hcore) hr
    | newPrinter p' c =>
      cases hp
      exact absurd ((hc.sameWork rfl).running p |>.1 hr) hl
    | reload p' bins auto =>
      cases hp
      refine same rfl (fun _ _ => rfl) ?_
      rw [hfl, show s.flags p = (false, false) from hf]
      rfl
    | starve | feed | status | mount | deletePrinter => exact same rfl (fun _ _ => rfl) hfl
    | _ => cases hp
  · by_cases hp : a.printer? = some p
    swap
    · have hcore := hc.core_ne hp
      rw [flags_of_core hcore]
      exact h.idle p fun hrs => hr ((running_of_core hcore).1.2 hrs)
    have hcore := hc.core_of hp
    have hok := hc.ok
    have hfl : t.flags p = _ := congrArg PrinterCore.flags hcore
    -- The printer was at work only if it is.
    have idle : a.changesWork = false → ¬ s.running p := fun hw hrs =>
      hr (((hc.sameWork hw).running p).2 hrs)
    cases a with
    | start p' x y pid =>
      refine absurd ?_ hr
      change (t.printers p).core.jobPid ≠ 0
      rw [hcore]
      exact hok.2.2.2.2.2.1
    | cancel x p' | seize x p' =>
      cases hp
      exact absurd (hlink.attends hok.1 hok.2).1 (idle rfl)
    | cancelSeizing x p' =>
      cases hp
      exact absurd hf (idle rfl)
    | newPrinter p' c =>
      cases hp
      rcases hok.2.2.2.2 with he | ⟨h1, h2, -⟩
      · rw [hfl]
        change c.flags = _
        rw [he]
        exact h.idle p (idle rfl)
      · rw [hfl]
        exact Prod.ext h1 h2
    | exitRemove | exitMiss | exitKeep | reload => exact hfl
    | starve | feed | status | mount | deletePrinter =>
      rw [hfl]
      exact h.idle p (idle rfl)
    | _ => cases hp

/-! ## Events -/

/-- The event is the configuration of printer `p`, to be loaded once more. -/
def Event.reloads (s : Pprd) : Event → ℕ → Bool
  | .newPrinterConfig n (some _), p => destidByPrinter s n = some p
  | _, _ => false

/-- The event leaves pending cancels and holds alone: the configuration of a printer is loaded again
only while none is pending there, and a job that is being held is canceled on the printer that is at
work on it. -/
structure FlagsKept (s : Pprd) (ev : Event) : Prop where
  reload : ∀ p < s.printerCount, ev.reloads s p → s.flags p = (false, false)
  cancel : ∀ q ∈ s.queue, q.status = .seizing → ev.cancels s q →
    ∀ p ∈ (List.range s.printerCount).find? (fun p => (s.printers p).jobKey = q.key), s.running p

instance (s : Pprd) (ev : Event) : Decidable (FlagsKept s ev) :=
  decidable_of_iff
    ((∀ p < s.printerCount, ev.reloads s p → s.flags p = (false, false)) ∧
      ∀ q ∈ s.queue, q.status = .seizing → ev.cancels s q →
        ∀ p ∈ (List.range s.printerCount).find? (fun p => (s.printers p).jobKey = q.key),
          s.running p)
    ⟨fun h => ⟨h.1, h.2⟩, fun h => ⟨h.reload, h.cancel⟩⟩

theorem flagPermit_of_allowed {s u v : Pprd} {ev : Event} {a : Act} (hkept : FlagsKept s ev)
    (ha : Allowed s ev u a) (hc : Change a u v) : FlagPermit u a := by
  cases a with
  | reload p bins auto =>
    obtain ⟨rfl, n, conf, rfl, hp⟩ := ha
    exact hkept.reload p (destidByPrinter_eq_some hp).1 (by simpa [Event.reloads] using hp)
  | cancelSeizing x p =>
    obtain ⟨hcan, hcg⟩ := ha
    obtain ⟨hx, hst, hp⟩ := hc.ok
    obtain ⟨q, hq, hk, hs⟩ := hcg.seizing _ (job_mem hx) hst
    obtain ⟨destid, id, subid, hnamed, -⟩ := cancels_cases (fun _ => true) hcan
    have hcq : ev.cancels s q := by
      rw [hnamed] at hcan ⊢
      rwa [isNamed_of_key hk]
    have hpq : (List.range s.printerCount).find? (fun p => (s.printers p).jobKey = q.key) =
        some p := by
      simpa only [hcg.printerCount, hcg.jobKey, hk] using hp
    have hr := hkept.cancel q hq hs hcq p hpq
    change (u.printers p).jobPid ≠ 0
    rw [hcg.jobPid]
    exact hr
  | _ => trivial

/-- What goes through an act that an event which keeps names, links and flags may do. -/
theorem Flagged.step {s t : Pprd} {ev : Event} (h : Flagged s) (ht : Tidy t)
    (hkept : FlagsKept s ev) (hpath : TidyActs (fun a u => Allowed s ev u a) s t) : Flagged t :=
  Tidy.along (fun _ _ _ hu htu htv hl ha hc =>
    hu.act htu hl (flagPermit_of_allowed hkept ha hc) hc htv.named.nodup) ht hpath h

theorem Flagged.of_permitted {K : Act → Pprd → Prop} {s t : Pprd} (h : Flagged s) (ht : Tidy t)
    (hpath : TidyActs K s t) (hK : ∀ a u, K a u → FlagPermit u a) : Flagged t :=
  Tidy.along (fun a u _ hu htu htv hl ha hc => hu.act htu hl (hK a u ha) hc htv.named.nodup)
    ht hpath h

/-! ## Runs -/

/-- The memory of the printer table is clear of pprdrv processes and of pending cancels and holds. -/
def Boot.Clean (b : Boot) : Prop :=
  b.Cleared ∧ ∀ p, (b.mem p).cancelJob = false ∧ (b.mem p).holdJob = false

theorem startedBoot_clean : startedBoot.Clean := ⟨startedBoot_cleared, fun _ => ⟨rfl, rfl⟩⟩

/-- Printers and jobs are linked and the flags agree. -/
structure Tracked (s : Pprd) : Prop where
  tidy : Tidy s
  flagged : Flagged s

/-- What a step must not do to names, to printers at work and to their flags. -/
structure WorkKept (s : Pprd) (ev : Event) : Prop where
  names : NamesKept s ev
  links : LinksKept s ev
  flags : FlagsKept s ev

instance (s : Pprd) (ev : Event) : Decidable (WorkKept s ev) :=
  decidable_of_iff (NamesKept s ev ∧ LinksKept s ev ∧ FlagsKept s ev)
    ⟨fun h => ⟨h.1, h.2.1, h.2.2⟩, fun h => ⟨h.names, h.links, h.flags⟩⟩

theorem base_flagPermit : Base fun a s => FlagPermit s a where
  frame _ := trivial
  start _ _ _ _ _ := trivial
  starve _ _ := trivial
  feed _ _ := trivial
  retry _ _ _ := trivial
  goOn _ _ _ := trivial
  mount _ _ _ := trivial
  seize _ _ _ := trivial
  hold _ _ _ := trivial

theorem Tracked.load {a : Act} {s t : Pprd} (h : Tracked s) (ha : LoadAllowed s a)
    (hc : Change a s t) : Tracked t := by
  have ht := h.tidy.load ha hc
  refine ⟨ht, h.flagged.act h.tidy ?_ ?_ hc ht.named.nodup⟩
  · cases a with
    | newPrinter p c =>
      cases ha
      exact h.tidy.linked.fresh _ le_rfl
    | newGroup g c => trivial
    | _ => cases ha
  · cases a <;> trivial

theorem Tracked.boot {b : Boot} (hb : b.Wf) (hm : b.Clean) : Ensures (boot os b) Tracked := by
  have step : ∀ {s t}, Tracked s → TidyActs (fun a s => FlagPermit s a) s t ∧ Tidy t → Tracked t :=
    fun h hp => ⟨hp.2, h.flagged.of_permitted hp.2 hp.1 fun _ _ => id⟩
  refine boot_ensures (I := Tracked) (J := fun names s => Inheriting names s ∧ Tracked s)
    ⟨.of_empty hm.1, ?_, ?_⟩ (fun _ _ _ h ha hc => h.load ha hc)
    (fun s h hq hf => ⟨⟨h.tidy.named, hb.queue_nodup, fun name _ ht => ?_⟩, h⟩)
    (fun name rest s t h ht => ⟨h.1.accept ht, step h.2 ?_⟩)
    fun _ _ h ht => step h.2 (h.2.tidy.starts base_flagPermit ht)
  · exact fun p st hp => absurd (hm.1 p) hp
  · exact fun p _ => Prod.ext (hm.2 p).1 (hm.2 p).2
  · simp [Taken, Pprd.keys, hq, hf] at ht
  · exact h.2.tidy.accepted base_flagPermit (fun _ => trivial)
      (fun _ _ _ _ => ⟨fun _ => trivial, fun _ _ => trivial⟩)
      (fun _ => h.1.free name List.mem_cons_self) (by simp) ht

theorem Tracked.step {s t : Pprd} {ev : Event} (h : Tracked s) (hev : ev.possible)
    (hk : WorkKept s ev) (hst : step os s ev = .ok t) :
    TidyActs (fun a u => Allowed s ev u a) s t ∧ Tracked t := by
  obtain ⟨hpath, ht⟩ := h.tidy.step hev hk.names hk.links hst
  exact ⟨hpath, ht, h.flagged.step ht hk.flags hpath⟩

theorem Tracked.of_run {B : Boot → Prop} {C : Pprd → Event → Prop} (hB : ∀ b, B b → b.Clean)
    (hC : ∀ s ev, C s ev → WorkKept s ev) {hist : List (Pprd × Event)} {s : Pprd}
    (run : Runs os B C hist s) : Tracked s := by
  refine run.invariant (I := Tracked) ?_ ?_
  · rintro s ⟨b, hw, hb, hs⟩
    exact Tracked.boot hw (hB b hb) s hs
  · rintro s ev t h ⟨hev, hk, hst⟩
    exact (h.step hev (hC s ev hk) hst).2

/-! ## A printer until the exit of its pprdrv -/

/-- The printer is at work on the job with the key. -/
def Pprd.worksOn (s : Pprd) (p : ℕ) (k : JobKey) : Prop := s.running p ∧ (s.printers p).jobKey = k

instance (s : Pprd) (p : ℕ) (k : JobKey) : Decidable (s.worksOn p k) :=
  inferInstanceAs (Decidable (_ ∧ _))

/-- Only the exit of its pprdrv ends a printer's work. -/
theorem worksOn_change {s u v : Pprd} {ev : Event} {a : Act} {p : ℕ} {k : JobKey} (hu : Tidy u)
    (hl : LinkPermit u a) (ha : Allowed s ev u a) (hc : Change a u v) (hev : ev.reaps s p = none)
    (hw : u.worksOn p k) : v.worksOn p k := by
  obtain ⟨hr, hk⟩ := hw
  by_cases hp : a.printer? = some p
  swap
  · obtain ⟨h1, h2⟩ := running_of_core (hc.core_ne hp)
    exact ⟨h1.2 hr, h2.trans hk⟩
  have same : a.changesWork = false → v.worksOn p k := fun hw =>
    ⟨((hc.sameWork hw).running p).2 hr, ((hc.sameWork hw).jobKey p).trans hk⟩
  cases a with
  | start p' x y pid =>
    cases hp
    have hb := hu.linked.busy p hr
    rw [hc.ok.2.2.2.1] at hb
    cases hb
  | exitRemove p' e y | exitMiss p' e | exitKeep p' e y st =>
    cases hp
    have he : ev.reaps s p = some e := ha.2
    rw [hev] at he
    cases he
  | _ => exact same rfl

/-- A job that is canceled stays so until then. -/
theorem cancel_change {s u v : Pprd} {ev : Event} {a : Act} {p : ℕ} {k : JobKey} (hu : Tidy u)
    (hl : LinkPermit u a) (hf : FlagPermit u a) (ha : Allowed s ev u a) (hc : Change a u v)
    (hev : ev.reaps s p = none) (hw : u.worksOn p k) (hst : u.onPrinter k .cancel) :
    v.onPrinter k .cancel := by
  obtain ⟨hr, rfl⟩ := hw
  have hs := hu.named.nodup
  by_cases hp : a.printer? = some p
  swap
  · exact hu.linked.job_kept hs hl hf hc hr hp hst
  rw [hc.onPrinter hs]
  have hok := hc.ok
  -- An entry with another status is not the one that is canceled.
  have other : ∀ {x}, x < u.queue.length → (u.job x).status ≠ .cancel →
      (u.printers p).jobKey = (u.job x).key → False := fun hx hne hk =>
    hne (onPrinter_job hs hx (hk ▸ hst))
  cases a with
  | start p' x y pid =>
    refine (other hok.1 ?_ ?_).elim
    · simp [hok.2.1]
    · cases hp
      have hb := hu.linked.busy p hr
      rw [hok.2.2.2.1] at hb
      cases hb
  | cancel x p' | seize x p' =>
    cases hp
    exact (other hok.1 (by simp [hok.2]) (hu.linked.attends hok.1 hok.2).2).elim
  | cancelSeizing x p' =>
    cases hp
    exact (other hok.1 (by simp [hok.2.1]) (cancelSeizing_jobKey hok)).elim
  | exitRemove p' e y | exitMiss p' e | exitKeep p' e y st =>
    cases hp
    have he : ev.reaps s p = some e := ha.2
    rw [hev] at he
    cases he
  | insert | replace | move => cases hp
  | _ => exact hst

end Ppr
