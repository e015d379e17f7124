import Ppr.Proof.Acts

/-!
# Changes of the tables as acts

Elementary updates as acts, and paths that may begin or end with a frame step.  What a claim has to
exclude is an act, and `K` says in which states each act is permitted.
-/

namespace Ppr

open Outcome Machine

/-! ## Acts from their effects -/

theorem Change.of_frame {s t : Pprd} (h : Frame s t) : Change .frame s t where
  ok := trivial
  queue := ⟨t.queue, h.queue, rfl⟩
  printer p := by simpa [Act.printer?] using h.printers p
  printerCount := h.printerCount
  group := h.groups
  groupCount := h.groupCount
  active := by simp [Act.active, h.activePrinters]
  starving := by simp [Act.starving, h.starvingPrinters]
  files _ := h.files
  fifo _ := h.fifo
  pprs _ := h.pprs

/-- Permission for what does no harm anywhere: scans, the timer, starting printers, mounting media,
holding jobs that are printing, and holding groups. -/
structure Base (K : Act → Pprd → Prop) : Prop where
  frame : ∀ s, K .frame s
  start : ∀ p x y pid s, K (.start p x y pid) s
  starve : ∀ p s, K (.starve p) s
  feed : ∀ p s, K (.feed p) s
  retry : ∀ p s, s.prnStatus p = .fault ∨ s.prnStatus p = .engaged ∨ s.prnStatus p = .stopt →
    K (.status p .idle) s
  goOn : ∀ p s, s.prnStatus p = .stopping → K (.status p .printing) s
  mount : ∀ p bins s, K (.mount p bins) s
  seize : ∀ x p s, K (.seize x p) s
  hold : ∀ g held s, K (.group g { (s.groups g).core with held := held }) s

variable {K : Act → Pprd → Prop} {os : ℕ → Bool}

theorem Base.acts_frame (hK : Base K) {s t : Pprd} (h : Frame s t) : Acts K s t :=
  Trail.single (hK.frame s) (.of_frame h)

/-- A frame step before a path. -/
theorem Base.frame_acts (hK : Base K) {s t u : Pprd} (h : Frame s t) (h' : Acts K t u) :
    Acts K s u :=
  (hK.acts_frame h).trans h'

/-- A frame step after a path. -/
theorem Base.acts_then_frame (hK : Base K) {s t u : Pprd} (h : Acts K s t) (h' : Frame t u) :
    Acts K s u :=
  h.trans (hK.acts_frame h')

/-- The act takes a slot for a new printer. -/
def Act.isNew : Act → Bool
  | .newPrinter .. => true
  | _ => false

theorem Base.not_new (hK : Base K) : Base fun a s => K a s ∧ a.isNew = false where
  frame s := ⟨hK.frame s, rfl⟩
  start p x y pid s := ⟨hK.start p x y pid s, rfl⟩
  starve p s := ⟨hK.starve p s, rfl⟩
  feed p s := ⟨hK.feed p s, rfl⟩
  retry p s h := ⟨hK.retry p s h, rfl⟩
  goOn p s h := ⟨hK.goOn p s h, rfl⟩
  mount p bins s := ⟨hK.mount p bins s, rfl⟩
  seize x p s := ⟨hK.seize x p s, rfl⟩
  hold g held s := ⟨hK.hold g held s, rfl⟩

theorem Acts.printerCount_eq {s t : Pprd} (h : Acts (fun a s => K a s ∧ a.isNew = false) s t) :
    t.printerCount = s.printerCount := by
  refine Trail.invariant (I := fun t => t.printerCount = s.printerCount) (fun a t u ht ha hc => ?_)
    h rfl
  rw [hc.printerCount, ← ht]
  cases a with
  | newPrinter p c => exact absurd ha.2 (by simp [Act.isNew])
  | _ => rfl

/-! ## Printer status -/

theorem core_modifyPrinter (s : Pprd) (p p' : ℕ) (f : Printer → Printer) :
    ((s.modifyPrinter p f).printers p').core =
      if p' = p then (f (s.printers p')).core else (s.printers p').core := by
  by_cases h : p' = p
  · subst h
    simp [Pprd.modifyPrinter]
  · simp [Pprd.modifyPrinter, h]

/-- An update of a printer that amounts to one of its core. -/
theorem core_modifyPrinter_of (s : Pprd) (p p' : ℕ) {f : Printer → Printer}
    (g : PrinterCore → PrinterCore) (hf : ∀ q, (f q).core = g q.core) :
    ((s.modifyPrinter p f).printers p').core =
      if p' = p then g (s.printers p').core else (s.printers p').core := by
  rw [core_modifyPrinter, hf]

/-- What `printer_new_status()` does to a printer that is not deleted. -/
theorem core_printerNewStatus {s : Pprd} {p : ℕ} (st : PrnStatus) (h : s.prnStatus p ≠ .deleted)
    (p' : ℕ) :
    ((printerNewStatus s p st).printers p').core =
      if p' = p then { (s.printers p').core with status := st } else (s.printers p').core := by
  unfold printerNewStatus
  rw [if_neg h]
  rw [(frame_printerSpoolStateSave _ p).printers p', core_modifyPrinter]
  rfl

/-- What `printer_new_status()` does to any printer. -/
theorem core_printerNewStatus' (s : Pprd) (p : ℕ) (st : PrnStatus) (p' : ℕ) :
    ((printerNewStatus s p st).printers p').core =
      if p' = p then
        { (s.printers p').core with
          status := if (s.printers p').core.status = .deleted then .deleted else st }
      else (s.printers p').core := by
  by_cases h : s.prnStatus p = .deleted
  · unfold printerNewStatus
    rw [if_pos h]
    by_cases hp : p' = p
    · subst hp
      rw [if_pos rfl, if_pos (show (s.printers p').core.status = .deleted from h)]
      exact congrArg (fun st => { (s.printers p').core with status := st }) h
    · rw [if_neg hp]
  · rw [core_printerNewStatus st h]
    by_cases hp : p' = p
    · subst hp
      simp only [if_true, if_neg (show ¬ (s.printers p').core.status = .deleted from h)]
    · simp only [hp, if_false]

/-- Everything but one printer is as it was. -/
structure PrinterOnly (s t : Pprd) : Prop where
  queue : t.queue = s.queue
  printerCount : t.printerCount = s.printerCount
  groups : t.groups = s.groups
  groupCount : t.groupCount = s.groupCount
  activePrinters : t.activePrinters = s.activePrinters
  starvingPrinters : t.starvingPrinters = s.starvingPrinters
  files : t.disk.queue = s.disk.queue
  fifo : t.fifo = s.fifo
  pprs : t.pprs = s.pprs

theorem printerOnly_modifyPrinter (s : Pprd) (p : ℕ) (f : Printer → Printer) :
    PrinterOnly s (s.modifyPrinter p f) :=
  ⟨rfl, rfl, rfl, rfl, rfl, rfl, rfl, rfl, rfl⟩

theorem printerOnly_printerNewStatus (s : Pprd) (p : ℕ) (st : PrnStatus) :
    PrinterOnly s (printerNewStatus s p st) := by
  unfold printerNewStatus
  by_cases h : s.prnStatus p = .deleted
  · rw [if_pos h]
    exact ⟨rfl, rfl, rfl, rfl, rfl, rfl, rfl, rfl, rfl⟩
  · rw [if_neg h]
    exact ⟨rfl, rfl, rfl, rfl, rfl, rfl, rfl, rfl, rfl⟩

theorem PrinterOnly.trans {s t u : Pprd} (h : PrinterOnly s t) (h' : PrinterOnly t u) :
    PrinterOnly s u where
  queue := h'.queue.trans h.queue
  printerCount := h'.printerCount.trans h.printerCount
  groups := h'.groups.trans h.groups
  groupCount := h'.groupCount.trans h.groupCount
  activePrinters := h'.activePrinters.trans h.activePrinters
  starvingPrinters := h'.starvingPrinters.trans h.starvingPrinters
  files := h'.files.trans h.files
  fifo := h'.fifo.trans h.fifo
  pprs := h'.pprs.trans h.pprs

/-- An act that is about one printer only. -/
theorem Change.of_printerOnly {a : Act} {s t : Pprd} (h : PrinterOnly s t) (hok : a.ok s)
    (hc : ∀ p, (t.printers p).core =
      if a.printer? = some p then a.core (a.key s) (s.printers p).core else (s.printers p).core)
    (hq : a.queue s.queue = s.queue) (hn : a.printerCount s = s.printerCount)
    (hg : a.group? = none) (hgn : a.groupCount s = s.groupCount) (ha : a.active = 0)
    (hs : a.starving = 0) (hf : ∀ f, a.files s f = f) : Change a s t where
  ok := hok
  queue := ⟨s.queue, .refl _, h.queue.trans hq.symm⟩
  printer := hc
  printerCount := h.printerCount.trans hn.symm
  group g := by rw [hg, h.groups]
  groupCount := h.groupCount.trans hgn.symm
  active := by rw [h.activePrinters, ha, add_zero]
  starving := by rw [h.starvingPrinters, hs, add_zero]
  files _ n := by rw [hf, h.files]
  fifo _ := h.fifo
  pprs _ := h.pprs

theorem change_status {s : Pprd} {p : ℕ} {st : PrnStatus} (hold : s.prnStatus p ≠ .deleted)
    (hnew : st ≠ .deleted) (hp : p < s.printerCount) :
    Change (.status p st) s (printerNewStatus s p st) := by
  refine .of_printerOnly (printerOnly_printerNewStatus s p st) ⟨hold, hnew, hp⟩ (fun p' => ?_) rfl
    rfl rfl rfl rfl rfl fun _ => rfl
  rw [core_printerNewStatus st hold]
  simp only [Act.printer?, Option.some.injEq, eq_comm (a := p)]
  rfl

theorem change_deletePrinter {s : Pprd} {p : ℕ} (hp : p < s.printerCount)
    (h : s.prnStatus p ≠ .deleted) :
    Change (.deletePrinter p) s
      (s.modifyPrinter p fun p => { p with spoolState.status := .deleted }) := by
  refine .of_printerOnly (printerOnly_modifyPrinter s p _) ⟨hp, h⟩ (fun p' => ?_) rfl rfl rfl
    rfl rfl rfl fun _ => rfl
  rw [core_modifyPrinter]
  simp only [Act.printer?, Option.some.injEq, eq_comm (a := p)]
  rfl

end Ppr
