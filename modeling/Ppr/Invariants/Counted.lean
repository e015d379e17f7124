import Mathlib.Data.Finset.Card
import Ppr.Invariants.Linked

/-!
# The number of printers at work

`active_printers` counts the printers at work, of which there are never more than `MAX_ACTIVE`.
-/

namespace Ppr

open Outcome Machine

variable {os : ℕ → Bool}

/-- The printers that have a pprdrv. -/
def Pprd.atWork (s : Pprd) : Finset ℕ := (Finset.range s.printerCount).filter fun p => s.running p

/-- The counter says how many printers are at work, and they are not too many. -/
structure Counted (s : Pprd) : Prop where
  active : s.activePrinters = s.atWork.card
  limit : s.activePrinters ≤ maxActive

theorem Linked.mem_atWork {s : Pprd} (h : Linked s) {p : ℕ} : p ∈ s.atWork ↔ s.running p := by
  rw [Pprd.atWork, Finset.mem_filter, Finset.mem_range]
  exact and_iff_right_of_imp h.lt

theorem SameWork.atWork {s t : Pprd} (h : SameWork s t) (hs : Linked s) (ht : Linked t) :
    t.atWork = s.atWork := by
  ext p
  rw [ht.mem_atWork, hs.mem_atWork, h.running]

/-- A printer gets a pprdrv. -/
theorem atWork_start {s t : Pprd} (hs : Linked s) (ht : Linked t) {p x y : ℕ} {pid : ℤ}
    (hc : Change (.start p x y pid) s t) : p ∉ s.atWork ∧ t.atWork = insert p s.atWork := by
  obtain ⟨-, -, -, hidle, -, hpid, -⟩ := hc.ok
  have hself : (t.printers p).jobPid = pid := congrArg PrinterCore.jobPid (hc.core_of rfl)
  constructor
  · rw [hs.mem_atWork]
    intro hr
    have hbusy := hs.busy p hr
    rw [hidle] at hbusy
    cases hbusy
  · ext p'
    rw [Finset.mem_insert, ht.mem_atWork, hs.mem_atWork]
    by_cases hp : p' = p
    · rw [hp]
      exact iff_of_true (hself.trans_ne hpid) (.inl rfl)
    · have hsame : (t.printers p').jobPid = (s.printers p').jobPid :=
        congrArg PrinterCore.jobPid (hc.core_ne fun h => hp (Option.some.inj h).symm)
      rw [or_iff_right hp, Pprd.running, hsame, Pprd.running]

/-- The pprdrv of a printer ends. -/
theorem atWork_exit {s t : Pprd} (hs : Linked s) (ht : Linked t) {a : Act} {p : ℕ} (hc : Change a s t)
    (ha : a.printer? = some p) (hr : s.running p)
    (hcore : ∀ c, (a.core (a.key s) c).jobPid = 0) : p ∈ s.atWork ∧ t.atWork = s.atWork.erase p := by
  have hself : (t.printers p).jobPid = 0 :=
    (congrArg PrinterCore.jobPid (hc.core_of ha)).trans (hcore _)
  refine ⟨hs.mem_atWork.2 hr, ?_⟩
  ext p'
  rw [Finset.mem_erase, ht.mem_atWork, hs.mem_atWork]
  by_cases hp : p' = p
  · rw [hp]
    exact iff_of_false (fun h => h hself) fun h => h.1 rfl
  · have hsame : (t.printers p').jobPid = (s.printers p').jobPid :=
      congrArg PrinterCore.jobPid (hc.core_ne fun h => hp (Option.some.inj (ha.symm.trans h)).symm)
    rw [and_iff_right hp, Pprd.running, hsame, Pprd.running]

/-- Every act keeps the count. -/
theorem Counted.act {a : Act} {s t : Pprd} (h : Counted s) (hs : Linked s) (ht : Linked t)
    (hc : Change a s t) : Counted t := by
  have hactive := hc.active
  have hstop : ∀ p, p ∈ s.atWork ∧ t.atWork = s.atWork.erase p → a.active = -1 → Counted t := by
    rintro p ⟨hmem, hwork⟩ hone
    have hcard := Finset.card_erase_add_one hmem
    have hle := h.limit
    have heq := h.active
    refine ⟨?_, by omega⟩
    rw [hwork]
    omega
  cases a with
  | start p x y pid =>
    obtain ⟨hmem, hwork⟩ := atWork_start hs ht hc
    have hne := hc.ok.2.2.2.2.1
    have hle := h.limit
    have hcard := Finset.card_insert_of_notMem hmem
    have heq := h.active
    have hone : (Act.start p x y pid).active = 1 := rfl
    refine ⟨?_, by omega⟩
    rw [hwork]
    omega
  | exitRemove p e y => exact hstop p (atWork_exit hs ht hc rfl hc.ok.2.1 fun _ => rfl) rfl
  | exitMiss p e => exact hstop p (atWork_exit hs ht hc rfl hc.ok.2.1 fun _ => rfl) rfl
  | exitKeep p e y st => exact hstop p (atWork_exit hs ht hc rfl hc.ok.2.1 fun _ => rfl) rfl
  | _ =>
    have hwork := (hc.sameWork rfl).atWork hs ht
    have hsame : t.activePrinters = s.activePrinters := hactive.trans (add_zero _)
    exact ⟨by rw [hsame, hwork, h.active], hsame ▸ h.limit⟩

/-- What holds in every state of a run. -/
def TidyCounted (s : Pprd) : Prop := Tidy s ∧ Counted s

theorem TidyCounted.along {K : Act → Pprd → Prop} {s t : Pprd} (h : TidyCounted s)
    (hp : TidyActs K s t ∧ Tidy t) : TidyCounted t :=
  ⟨hp.2, Tidy.along (I := Counted) (fun _ _ _ hI hu hv _ _ hc => hI.act hu.linked hv.linked hc) hp.2
    hp.1 h.2⟩

theorem TidyCounted.boot {b : Boot} (hb : b.Wf) (hm : b.Cleared) : Ensures (boot os b) TidyCounted := by
  have hK : Base fun _ _ => True := by constructor <;> intros <;> trivial
  have hlimit : (0 : ℤ) ≤ maxActive := by decide
  refine boot_ensures (I := TidyCounted) (J := fun names s => Inheriting names s ∧ TidyCounted s)
    ⟨.of_empty hm, rfl, hlimit⟩ (fun _ _ _ h ha hc => ?_)
    (fun s h hq hf => ⟨⟨h.1.named, hb.queue_nodup, fun name _ ht => ?_⟩, h⟩)
    (fun name rest s t h ht => ⟨h.1.accept ht, h.2.along (K := fun _ _ => True) ?_⟩)
    fun _ _ h ht => h.2.along (h.2.1.starts hK ht)
  · have ht := h.1.load ha hc
    exact ⟨ht, h.2.act h.1.linked ht.linked hc⟩
  · simp [Taken, Pprd.keys, hq, hf] at ht
  · exact h.2.1.accepted hK (fun _ => trivial) (fun _ _ _ _ => ⟨fun _ => trivial, fun _ _ => trivial⟩)
      (fun _ => h.1.free name List.mem_cons_self) (by simp) ht

/-- In every run that keeps names and links apart from each other, `active_printers` is the number of
printers at work and no more than `MAX_ACTIVE`. -/
theorem active_counted {hist : List (Pprd × Event)} {s : Pprd}
    (run : Runs os Boot.Cleared (fun s ev => NamesKept s ev ∧ LinksKept s ev) hist s) : Counted s := by
  refine (run.invariant (I := TidyCounted) ?_ ?_).2
  · rintro s ⟨b, hw, hb, hs⟩
    exact TidyCounted.boot hw hb s hs
  · rintro s ev t h ⟨hev, hk, hst⟩
    exact h.along (h.1.step hev hk.1 hk.2 hst)

/-- The printer is still at work on the job that has been canceled. -/
theorem active_counted_canceled :
    ∃ hist s, Runs (fun _ => true) Boot.Cleared (fun s ev => NamesKept s ev ∧ LinksKept s ev) hist s ∧
      s.activePrinters = 1 ∧ Counted s := by
  obtain ⟨hist, s, run, hs⟩ := exists_runs (fun _ => true) Boot.Cleared
    (fun s ev => NamesKept s ev ∧ LinksKept s ev) startedBoot_wf startedBoot_cleared
    [.ppop (.cancel "A" 1 0)] (fun s => s.activePrinters) (a := 1) (by decide +kernel)
  exact ⟨hist, s, run, hs, active_counted run⟩

end Ppr
