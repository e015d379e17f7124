import Ppr.Invariants.Bounds

/-!
# The tables of destinations

Every slot in use holds what the configuration file said that was last read for its name, no two
slots have the same name, and a command that cannot be carried out changes nothing.
-/

namespace Ppr

open Outcome Machine

variable {os : ℕ → Bool}

/-- The configuration file that was last read for a printer of this name. -/
def printerConf (b : Boot) : List (Pprd × Event) → String → Option PrinterConf
  | [], n => (b.printers.find? fun f => f.1 = n).map Prod.snd
  | (_, .newPrinterConfig n' (some conf)) :: hist, n =>
    if n' = n then some conf else printerConf b hist n
  | _ :: hist, n => printerConf b hist n

/-- The configuration file that was last read for a group of this name. -/
def groupConf (b : Boot) : List (Pprd × Event) → String → Option GroupConf
  | [], n => (b.groups.find? fun f => f.1 = n).map Prod.snd
  | (_, .newGroupConfig n' (some conf)) :: hist, n =>
    if n' = n then some conf else groupConf b hist n
  | _ :: hist, n => groupConf b hist n

/-- The tables can be used. -/
structure Usable (b : Boot) (hist : List (Pprd × Event)) (s : Pprd) : Prop where
  printerCount : s.printerCount ≤ maxPrinters
  groupCount : s.groupCount ≤ maxGroups
  printers : ∀ p < s.printerCount, s.prnStatus p ≠ .deleted →
    ∃ conf, printerConf b hist (s.printers p).name = some conf ∧
      conf.Fits (s.printers p).bins (s.printers p).autoSelectExists
  groups : ∀ g < s.groupCount, (s.groups g).deleted = false →
    ∃ conf, groupConf b hist (s.groups g).name = some conf ∧
      conf.Fits s.printerCount (s.groups g).printers (s.groups g).rotate
  printerNames : ∀ p < s.printerCount, ∀ p' < s.printerCount, s.prnStatus p ≠ .deleted →
    s.prnStatus p' ≠ .deleted → (s.printers p).name = (s.printers p').name → p = p'
  groupNames : ∀ g < s.groupCount, ∀ g' < s.groupCount, (s.groups g).deleted = false →
    (s.groups g').deleted = false → (s.groups g).name = (s.groups g').name → g = g'

/-- The event is a command that cannot be carried out: the file of a new printer or group is missing,
a "Rotate:" line is invalid, or the table is full. -/
def Event.failsToLoad (s : Pprd) : Event → Bool
  | .newPrinterConfig n conf =>
    (destidByPrinter s n).isNone && (conf.isNone || freeSlot s = maxPrinters)
  | .newGroupConfig n conf =>
    (findGroup s n).isNone && (conf.isNone || freeGroup s = maxGroups) ||
      conf.any fun c => (c.rotate.getD (some true)).isNone
  | _ => false

/-- What the tables are to be in every state, and what is to become of them when a command cannot be
carried out. -/
structure LoadsAtomic (os : ℕ → Bool) (b : Boot) (hist : List (Pprd × Event)) (s : Pprd)
    (C : Pprd → Event → Prop) : Prop where
  usable : Usable b hist s
  unchanged : ∀ ev, ev.failsToLoad s → C s ev → step os s ev = .ok s

/-- No slot is counted for nothing: the file of a new printer or group is there, or an old slot is
free, or it is a printer and the table is full. -/
def CarefulLoad (s : Pprd) : Event → Prop
  | .newPrinterConfig n conf =>
    destidByPrinter s n = none → freeSlot s = s.printerCount → s.printerCount ≠ maxPrinters →
      conf.isSome
  | .newGroupConfig n conf =>
    (findGroup s n = none → freeGroup s = s.groupCount →
      conf.isSome ∧ s.groupCount ≠ maxGroups) ∧
        ∀ c ∈ conf, (c.rotate.getD (some true)).isSome
  | _ => True

instance (s : Pprd) (ev : Event) : Decidable (CarefulLoad s ev) :=
  match ev with
  | .newPrinterConfig .. => by
    unfold CarefulLoad
    infer_instance
  | .newGroupConfig .. => by
    unfold CarefulLoad
    infer_instance
  | .pprStart _ | .pprTakeSkeleton .. | .pprFinish .. | .queueNewJob | .ppop _ | .ipp _
  | .reapchild .. | .tick _ => isTrue trivial

/-! ## What other events leave alone -/

/-- The same destinations with the same configuration; groups may have been held or released. -/
structure SameConf (s t : Pprd) : Prop where
  printerCount : t.printerCount = s.printerCount
  groupCount : t.groupCount = s.groupCount
  name : ∀ p, (t.printers p).name = (s.printers p).name
  deleted : ∀ p, t.prnStatus p = .deleted ↔ s.prnStatus p = .deleted
  bins : ∀ p, (t.printers p).bins.map Bin.name = (s.printers p).bins.map Bin.name
  auto : ∀ p, (t.printers p).autoSelectExists = (s.printers p).autoSelectExists
  group : ∀ g, ∃ held, (t.groups g).core = { (s.groups g).core with held := held }

theorem SameConf.refl (s : Pprd) : SameConf s s :=
  ⟨rfl, rfl, fun _ => rfl, fun _ => Iff.rfl, fun _ => rfl, fun _ => rfl, fun _ => ⟨_, rfl⟩⟩

theorem SameConf.trans {s t u : Pprd} (h : SameConf s t) (h' : SameConf t u) : SameConf s u where
  printerCount := h'.printerCount.trans h.printerCount
  groupCount := h'.groupCount.trans h.groupCount
  name p := (h'.name p).trans (h.name p)
  deleted p := (h'.deleted p).trans (h.deleted p)
  bins p := (h'.bins p).trans (h.bins p)
  auto p := (h'.auto p).trans (h.auto p)
  group g := by
    obtain ⟨held, hg⟩ := h.group g
    obtain ⟨held', hg'⟩ := h'.group g
    exact ⟨held', by rw [hg', hg]⟩

/-- The acts that leave the configuration alone. -/
def Act.keepsConf (s : Pprd) : Act → Prop
  | .newPrinter .. | .reload .. | .deletePrinter _ | .newGroup .. => False
  | .group g c => c = { (s.groups g).core with held := c.held }
  | _ => True

theorem base_keepsConf : Base fun a s => a.keepsConf s where
  frame _ := trivial
  start _ _ _ _ _ := trivial
  starve _ _ := trivial
  feed _ _ := trivial
  retry _ _ _ := trivial
  goOn _ _ _ := trivial
  mount _ _ _ := trivial
  seize _ _ _ := trivial
  hold _ _ _ := rfl

/-- What such an act does to a printer. -/
theorem core_of_keepsConf {a : Act} {s : Pprd} (ha : a.keepsConf s) (hok : a.ok s) {p : ℕ}
    (hp : a.printer? = some p) (k : JobKey) :
    (a.core k (s.printers p).core).name = (s.printers p).name ∧
      ((a.core k (s.printers p).core).status = .deleted ↔ s.prnStatus p = .deleted) ∧
      (a.core k (s.printers p).core).bins.map Bin.name = (s.printers p).bins.map Bin.name ∧
      (a.core k (s.printers p).core).autoSelectExists = (s.printers p).autoSelectExists := by
  -- The status becomes one of a printer that is not deleted, and was one.
  have status : ∀ st : PrnStatus, st ≠ .deleted → s.prnStatus p ≠ .deleted →
      (st = .deleted ↔ s.prnStatus p = .deleted) := fun st h h' => ⟨fun e => absurd e h,
        fun e => absurd e h'⟩
  cases a with
  | start p' x y pid =>
    cases hp
    refine ⟨rfl, status .printing (by decide) ?_, rfl, rfl⟩
    simp [hok.2.2.2.1]
  | starve p' =>
    cases hp
    exact ⟨rfl, status .starved (by decide) (by simp [hok.1]), rfl, rfl⟩
  | feed p' =>
    cases hp
    exact ⟨rfl, status .idle (by decide) (by simp [hok.1]), rfl, rfl⟩
  | status p' st =>
    cases hp
    exact ⟨rfl, status st hok.2.1 hok.1, rfl, rfl⟩
  | cancel x p' | cancelSeizing x p' =>
    refine ⟨rfl, ?_, rfl, rfl⟩
    change (if (s.printers p).core.status = _ then PrnStatus.canceling
      else (s.printers p).core.status) = .deleted ↔ (s.printers p).core.status = .deleted
    split_ifs with h
    · rw [h]
      decide
    · exact Iff.rfl
  | seize x p' =>
    refine ⟨rfl, ?_, rfl, rfl⟩
    change (if (s.printers p).core.status = .deleted then PrnStatus.deleted else .seizing) =
      .deleted ↔ (s.printers p).core.status = .deleted
    split_ifs with h
    · exact ⟨fun _ => h, fun _ => rfl⟩
    · exact ⟨fun e => (by cases e), fun e => absurd e h⟩
  | mount p' bins =>
    cases hp
    exact ⟨rfl, Iff.rfl, hok.2, rfl⟩
  | exitRemove p' e y | exitMiss p' e | exitKeep p' e y st => exact ⟨rfl, Iff.rfl, rfl, rfl⟩
  | newPrinter p' c | reload p' bins auto | deletePrinter p' => exact ha.elim
  | _ => cases hp

theorem SameConf.of_change {a : Act} {s t : Pprd} (ha : a.keepsConf s) (h : Change a s t) :
    SameConf s t := by
  have hprn : ∀ p, (t.printers p).name = (s.printers p).name ∧
      (t.prnStatus p = .deleted ↔ s.prnStatus p = .deleted) ∧
      (t.printers p).bins.map Bin.name = (s.printers p).bins.map Bin.name ∧
      (t.printers p).autoSelectExists = (s.printers p).autoSelectExists := by
    intro p
    by_cases hp : a.printer? = some p
    · have hc := core_of_keepsConf ha h.ok hp (a.key s)
      rw [← h.core_of hp] at hc
      exact hc
    · have hc := h.core_ne hp
      refine ⟨congrArg PrinterCore.name hc, ?_, congrArg (fun c => c.bins.map Bin.name) hc,
        congrArg PrinterCore.autoSelectExists hc⟩
      rw [show t.prnStatus p = s.prnStatus p from congrArg PrinterCore.status hc]
  refine ⟨?_, ?_, fun p => (hprn p).1, fun p => (hprn p).2.1, fun p => (hprn p).2.2.1,
    fun p => (hprn p).2.2.2, fun g => ?_⟩
  · rw [h.printerCount]
    cases a <;> first | rfl | exact ha.elim
  · rw [h.groupCount]
    cases a <;> first | rfl | exact ha.elim
  · have hg := h.group g
    cases a with
    | newGroup g' c => exact ha.elim
    | group g' c =>
      simp only [Act.group?] at hg
      split_ifs at hg with he
      · subst he
        exact ⟨c.held, hg.trans ha⟩
      · exact ⟨_, hg⟩
    | _ => exact ⟨_, hg⟩

theorem SameConf.of_acts {s t : Pprd} (h : Acts (fun a s => a.keepsConf s) s t) : SameConf s t :=
  Trail.invariant (I := SameConf s) (fun _ _ _ ht ha hc => ht.trans (.of_change ha hc)) h (.refl s)

theorem SameConf.of_starts {s t : Pprd} (h : Starts s t) : SameConf s t :=
  .of_acts (h.acts base_keepsConf)

theorem SameConf.of_frame {s t : Pprd} (h : Frame s t) : SameConf s t :=
  .of_acts (base_keepsConf.acts_frame h)

/-- The event is a command to load or delete a printer or a group. -/
def Event.configures : Event → Bool
  | .newPrinterConfig .. | .newGroupConfig .. => true
  | _ => false

theorem SameConf.of_step {s t : Pprd} {ev : Event} (hev : ev.possible) (hc : ev.configures = false)
    (hst : step os s ev = .ok t) : SameConf s t := by
  refine .of_acts ((step_acts hev t hst).weaken fun a u ha => ?_)
  cases a with
  | newPrinter p c =>
    obtain ⟨-, n, conf, rfl, -⟩ := ha
    cases hc
  | reload p bins auto =>
    obtain ⟨-, n, conf, rfl, -⟩ := ha
    cases hc
  | deletePrinter p =>
    obtain ⟨-, n, rfl, -⟩ := ha
    cases hc
  | newGroup g c =>
    obtain ⟨-, n, conf, rfl, -⟩ := ha
    cases hc
  | group g c =>
    rcases ha with ha | ⟨n, conf, rfl⟩
    · exact ha
    · cases hc
  | _ => trivial

theorem SameConf.usable {b : Boot} {hist : List (Pprd × Event)} {s t : Pprd} (h : SameConf s t)
    (hs : Usable b hist s) : Usable b hist t where
  printerCount := h.printerCount ▸ hs.printerCount
  groupCount := h.groupCount ▸ hs.groupCount
  printers p hp hd := by
    rw [h.printerCount] at hp
    obtain ⟨conf, hconf, hfit⟩ := hs.printers p hp fun e => hd ((h.deleted p).2 e)
    refine ⟨conf, by rw [h.name p, hconf], ?_⟩
    rw [h.auto p]
    exact hfit.of_names (h.bins p)
  groups g hg hd := by
    rw [h.groupCount] at hg
    obtain ⟨held, hcore⟩ := h.group g
    have hdel : (t.groups g).deleted = (s.groups g).deleted := congrArg GroupCore.deleted hcore
    obtain ⟨conf, hconf, hfit⟩ := hs.groups g hg (hdel ▸ hd)
    have hn : (t.groups g).name = (s.groups g).name := congrArg GroupCore.name hcore
    have hm : (t.groups g).printers = (s.groups g).printers := congrArg GroupCore.printers hcore
    have hr : (t.groups g).rotate = (s.groups g).rotate := congrArg GroupCore.rotate hcore
    exact ⟨conf, by rw [hn, hconf], by rwa [h.printerCount, hm, hr]⟩
  printerNames p hp p' hp' hd hd' hn := by
    rw [h.printerCount] at hp hp'
    refine hs.printerNames p hp p' hp' (fun e => hd ((h.deleted p).2 e))
      (fun e => hd' ((h.deleted p').2 e)) ?_
    rw [← h.name p, ← h.name p', hn]
  groupNames g hg g' hg' hd hd' hn := by
    rw [h.groupCount] at hg hg'
    obtain ⟨held, hcore⟩ := h.group g
    obtain ⟨held', hcore'⟩ := h.group g'
    refine hs.groupNames g hg g' hg' ?_ ?_ ?_
    · exact (congrArg GroupCore.deleted hcore).symm.trans hd
    · exact (congrArg GroupCore.deleted hcore').symm.trans hd'
    · exact (congrArg GroupCore.name hcore).symm.trans (hn.trans (congrArg GroupCore.name hcore'))

/-! ## Loading and deleting printers -/

theorem printerConf_ne {b : Boot} {hist : List (Pprd × Event)} {s : Pprd} {n n' : String}
    {conf : Option PrinterConf} (h : n' ≠ n) :
    printerConf b ((s, .newPrinterConfig n conf) :: hist) n' = printerConf b hist n' := by
  cases conf with
  | none => rfl
  | some conf => exact if_neg (Ne.symm h)

theorem groupConf_ne {b : Boot} {hist : List (Pprd × Event)} {s : Pprd} {n n' : String}
    {conf : Option GroupConf} (h : n' ≠ n) :
    groupConf b ((s, .newGroupConfig n conf) :: hist) n' = groupConf b hist n' := by
  cases conf with
  | none => rfl
  | some conf => exact if_neg (Ne.symm h)

theorem GroupConf.Fits.mono {conf : GroupConf} {count count' : ℕ} {printers : List ℕ}
    {rotate : Bool} (h : conf.Fits count printers rotate) (hc : count ≤ count') :
    conf.Fits count' printers rotate := by
  obtain ⟨hr, search, hs, hp⟩ := h
  exact ⟨hr, search, fun n p hn => lt_of_lt_of_le (hs n p hn) hc, hp⟩

theorem destidByPrinter_eq_none {s : Pprd} {n : String} (h : destidByPrinter s n = none) {p : ℕ}
    (hp : p < s.printerCount) (hd : s.prnStatus p ≠ .deleted) : (s.printers p).name ≠ n := by
  intro hn
  have := List.find?_eq_none.1 h p (List.mem_range.2 hp)
  simp [hd, hn] at this

theorem findGroup_eq_none {s : Pprd} {n : String} (h : findGroup s n = none) {g : ℕ}
    (hg : g < s.groupCount) (hd : (s.groups g).deleted = false) : (s.groups g).name ≠ n := by
  intro hn
  have := List.find?_eq_none.1 h g (List.mem_range.2 hg)
  simp [hd, hn] at this

/-- Slot `p` of the printer table has been loaded from the file of a printer that no other slot is
for. -/
theorem Usable.loadPrinter {b : Boot} {hist : List (Pprd × Event)} {s t : Pprd} {p : ℕ} {n : String}
    {conf : PrinterConf} (h : Usable b hist s) (hle : s.printerCount ≤ t.printerCount)
    (hmax : t.printerCount ≤ maxPrinters)
    (hslot : ∀ p' < t.printerCount, p' ≠ p → p' < s.printerCount)
    (hn : (t.printers p).name = n)
    (hfit : conf.Fits (t.printers p).bins (t.printers p).autoSelectExists)
    (hothers : ∀ p', p' ≠ p → (t.printers p').core = (s.printers p').core)
    (hfree : ∀ p' < s.printerCount, p' ≠ p → s.prnStatus p' ≠ .deleted → (s.printers p').name ≠ n)
    (hg : t.groups = s.groups) (hgc : t.groupCount = s.groupCount) :
    Usable b ((s, .newPrinterConfig n (some conf)) :: hist) t := by
  have hname : ∀ p', p' ≠ p → (t.printers p').name = (s.printers p').name := fun p' hp =>
    congrArg PrinterCore.name (hothers p' hp)
  have hst : ∀ p', p' ≠ p → t.prnStatus p' = s.prnStatus p' := fun p' hp =>
    congrArg PrinterCore.status (hothers p' hp)
  refine ⟨hmax, hgc ▸ h.groupCount, fun p' hp' hd => ?_, fun g hg' hd => ?_,
    fun p₁ h₁ p₂ h₂ hd₁ hd₂ he => ?_, ?_⟩
  · by_cases hpp : p' = p
    · subst hpp
      exact ⟨conf, by rw [hn]; exact if_pos rfl, hfit⟩
    · have hlt := hslot p' hp' hpp
      rw [hst p' hpp] at hd
      obtain ⟨conf', hconf, hfit'⟩ := h.printers p' hlt hd
      refine ⟨conf', ?_, ?_⟩
      · rw [hname p' hpp, printerConf_ne (hfree p' hlt hpp hd), hconf]
      · rw [show (t.printers p').bins = (s.printers p').bins from
            congrArg PrinterCore.bins (hothers p' hpp),
          show (t.printers p').autoSelectExists = (s.printers p').autoSelectExists from
            congrArg PrinterCore.autoSelectExists (hothers p' hpp)]
        exact hfit'
  · rw [hgc] at hg'
    rw [hg] at hd ⊢
    obtain ⟨conf', hconf, hfit'⟩ := h.groups g hg' hd
    exact ⟨conf', hconf, hfit'.mono hle⟩
  · by_cases hp₁ : p₁ = p
    · by_cases hp₂ : p₂ = p
      · exact hp₁.trans hp₂.symm
      · rw [hst p₂ hp₂] at hd₂
        refine absurd ?_ (hfree p₂ (hslot p₂ h₂ hp₂) hp₂ hd₂)
        rw [← hname p₂ hp₂, ← he, hp₁, hn]
    · rw [hst p₁ hp₁] at hd₁
      by_cases hp₂ : p₂ = p
      · refine absurd ?_ (hfree p₁ (hslot p₁ h₁ hp₁) hp₁ hd₁)
        rw [← hname p₁ hp₁, he, hp₂, hn]
      · rw [hst p₂ hp₂] at hd₂
        rw [hname p₁ hp₁, hname p₂ hp₂] at he
        exact h.printerNames p₁ (hslot p₁ h₁ hp₁) p₂ (hslot p₂ h₂ hp₂) hd₁ hd₂ he
  · rw [hg, hgc]
    exact h.groupNames

/-- Slot `g` of the group table has been loaded from the file of a group that no other slot is
for. -/
theorem Usable.loadGroup {b : Boot} {hist : List (Pprd × Event)} {s t : Pprd} {g : ℕ} {n : String}
    {conf : GroupConf} (h : Usable b hist s) (hmax : t.groupCount ≤ maxGroups)
    (hslot : ∀ g' < t.groupCount, g' ≠ g → g' < s.groupCount) (hn : (t.groups g).name = n)
    (hfit : conf.Fits s.printerCount (t.groups g).printers (t.groups g).rotate)
    (hothers : ∀ g', g' ≠ g → t.groups g' = s.groups g')
    (hfree : ∀ g' < s.groupCount, g' ≠ g → (s.groups g').deleted = false → (s.groups g').name ≠ n)
    (hp : t.printers = s.printers) (hpc : t.printerCount = s.printerCount) :
    Usable b ((s, .newGroupConfig n (some conf)) :: hist) t := by
  have hst : ∀ p, t.prnStatus p = s.prnStatus p := fun p => by rw [Pprd.prnStatus, hp]; rfl
  refine ⟨hpc ▸ h.printerCount, hmax, fun p hp' hd => ?_, fun g' hg' hd => ?_, ?_,
    fun g₁ h₁ g₂ h₂ hd₁ hd₂ he => ?_⟩
  · rw [hpc] at hp'
    rw [hst p] at hd
    rw [hp]
    exact h.printers p hp' hd
  · rw [hpc]
    by_cases hgg : g' = g
    · subst hgg
      exact ⟨conf, by rw [hn]; exact if_pos rfl, hfit⟩
    · have hlt := hslot g' hg' hgg
      rw [hothers g' hgg] at hd ⊢
      obtain ⟨conf', hconf, hfit'⟩ := h.groups g' hlt hd
      exact ⟨conf', by rw [groupConf_ne (hfree g' hlt hgg hd), hconf], hfit'⟩
  · simp only [hpc, hst, hp]
    exact h.printerNames
  · by_cases hg₁ : g₁ = g
    · by_cases hg₂ : g₂ = g
      · exact hg₁.trans hg₂.symm
      · rw [hothers g₂ hg₂] at hd₂ he
        refine absurd ?_ (hfree g₂ (hslot g₂ h₂ hg₂) hg₂ hd₂)
        rw [← he, hg₁, hn]
    · rw [hothers g₁ hg₁] at hd₁ he
      by_cases hg₂ : g₂ = g
      · refine absurd ?_ (hfree g₁ (hslot g₁ h₁ hg₁) hg₁ hd₁)
        rw [he, hg₂, hn]
      · rw [hothers g₂ hg₂] at hd₂ he
        exact h.groupNames g₁ (hslot g₁ h₁ hg₁) g₂ (hslot g₂ h₂ hg₂) hd₁ hd₂ he

/-- A command that reads a file for a name that is not in use leaves the tables usable if it leaves
them alone. -/
theorem Usable.printerNotFound {b : Boot} {hist : List (Pprd × Event)} {s : Pprd} {n : String}
    {conf : Option PrinterConf} (h : Usable b hist s) (hn : destidByPrinter s n = none) :
    Usable b ((s, .newPrinterConfig n conf) :: hist) s := by
  refine { h with printers := fun p hp hd => ?_, groups := h.groups }
  rw [printerConf_ne (destidByPrinter_eq_none hn hp hd)]
  exact h.printers p hp hd

theorem Usable.of_newPrinterConfig {b : Boot} {hist : List (Pprd × Event)} {s t : Pprd} {n : String}
    {conf : Option PrinterConf} (h : Usable b hist s)
    (hc : CarefulLoad s (.newPrinterConfig n conf)) (ht : newPrinterConfig os s n conf = .ok t) :
    Usable b ((s, .newPrinterConfig n conf) :: hist) t := by
  have hr := newPrinterConfig_ensures s n conf t ht
  cases hn : destidByPrinter s n with
  | some p =>
    obtain ⟨hlt, hd, hname⟩ := destidByPrinter_eq_some hn
    rw [hn] at hr
    cases conf with
    | none =>
      -- The slot is marked, and every other one is as before.
      have hlive : ∀ p', t.prnStatus p' ≠ .deleted →
          t.printers p' = s.printers p' ∧ s.prnStatus p' ≠ .deleted := by
        intro p' hp'
        subst hr
        by_cases hpp : p' = p
        · subst hpp
          exact absurd (by simp [Pprd.prnStatus, Pprd.modifyPrinter, Printer.status]) hp'
        · have he : (s.modifyPrinter p fun p => { p with spoolState.status := .deleted }).printers p'
              = s.printers p' := by
            simp [Pprd.modifyPrinter, hpp]
          exact ⟨he, by rwa [Pprd.prnStatus, he] at hp'⟩
      have hpc : t.printerCount = s.printerCount := by rw [hr]; rfl
      have hgr : t.groups = s.groups := by rw [hr]; rfl
      have hgc : t.groupCount = s.groupCount := by rw [hr]; rfl
      refine ⟨hpc ▸ h.printerCount, hgc ▸ h.groupCount, fun p' hp' hd' => ?_, ?_,
        fun p₁ h₁ p₂ h₂ hd₁ hd₂ he => ?_, ?_⟩
      · rw [(hlive p' hd').1]
        exact h.printers p' (hpc ▸ hp') (hlive p' hd').2
      · rw [hgc, hgr, hpc]
        exact h.groups
      · rw [(hlive p₁ hd₁).1, (hlive p₂ hd₂).1] at he
        exact h.printerNames p₁ (hpc ▸ h₁) p₂ (hpc ▸ h₂) (hlive p₁ hd₁).2 (hlive p₂ hd₂).2 he
      · rw [hgr, hgc]
        exact h.groupNames
    | some conf =>
      obtain ⟨bins, auto, u, hfit, hu, hs⟩ := hr
      refine (SameConf.of_starts hs).usable (h.loadPrinter (p := p) ?_ ?_ ?_ ?_ ?_ hu.others ?_
        hu.only.groups hu.only.groupCount)
      · rw [hu.only.printerCount]
      · rw [hu.only.printerCount]
        exact h.printerCount
      · rw [hu.only.printerCount]
        exact fun p' hp' _ => hp'
      · exact (congrArg PrinterCore.name hu.core).trans hname
      · rw [show (u.printers p).bins = bins from congrArg PrinterCore.bins hu.core,
          show (u.printers p).autoSelectExists = auto from
            congrArg PrinterCore.autoSelectExists hu.core]
        exact hfit
      · exact fun p' hp' hpp hd' he =>
          hpp (h.printerNames p' hp' p hlt hd' hd (he.trans hname.symm))
  | none =>
    rw [hn] at hr
    rcases hr with ⟨-, rfl⟩ | ⟨hne, hr⟩
    · exact h.printerNotFound hn
    cases conf with
    | none =>
      rcases freeSlot_cases s with hfresh | hold
      · exact absurd (hc hn hfresh (hfresh ▸ hne)) (by simp)
      · rw [withSlot_of_lt hold.1] at hr
        cases hr
        exact h.printerNotFound hn
    | some conf =>
      obtain ⟨bins, auto, hfit, hl⟩ := hr
      have hcount : t.printerCount = max s.printerCount (freeSlot s + 1) := hl.only.printerCount
      have hslot : freeSlot s ≤ s.printerCount :=
        (freeSlot_cases s).elim le_of_eq fun h => h.1.le
      have hmax := h.printerCount
      refine h.loadPrinter (p := freeSlot s) ?_ ?_ ?_ ?_ ?_ hl.others ?_ hl.only.groups
        hl.only.groupCount
      · omega
      · omega
      · intro p' hp' hpp
        omega
      · exact congrArg PrinterCore.name hl.core
      · rw [show (t.printers (freeSlot s)).bins = bins from congrArg PrinterCore.bins hl.core,
          show (t.printers (freeSlot s)).autoSelectExists = auto from
            congrArg PrinterCore.autoSelectExists hl.core]
        exact hfit
      · exact fun p' hp' _ hd' => destidByPrinter_eq_none hn hp' hd'

/-! ## Loading and deleting groups -/

theorem groupSlot_of_found {s : Pprd} {n : String} {g : ℕ} (h : findGroup s n = some g) :
    groupSlot s n = g := by
  rw [groupSlot, h]
  rfl

theorem groupSlot_of_new {s : Pprd} {n : String} (h : findGroup s n = none) :
    groupSlot s n = freeGroup s := by
  rw [groupSlot, h]
  rfl

theorem Usable.groupNotFound {b : Boot} {hist : List (Pprd × Event)} {s : Pprd} {n : String}
    (h : Usable b hist s) : Usable b ((s, .newGroupConfig n none) :: hist) s :=
  { h with printers := h.printers, groups := h.groups }

theorem Usable.of_newGroupConfig {b : Boot} {hist : List (Pprd × Event)} {s t : Pprd} {n : String}
    {conf : Option GroupConf} (h : Usable b hist s) (hc : CarefulLoad s (.newGroupConfig n conf))
    (ht : newGroupConfig os s n conf = .ok t) :
    Usable b ((s, .newGroupConfig n conf) :: hist) t := by
  have hmax := h.groupCount
  rcases newGroupConfig_ensures s n conf t ht with ⟨hslot, -⟩ | ⟨hlt, hr⟩
  · -- The slot after the last one is not used.
    exfalso
    cases hn : findGroup s n with
    | some g =>
      have := (findGroup_eq_some hn).1
      rw [groupSlot_of_found hn] at hslot
      omega
    | none =>
      rw [groupSlot_of_new hn] at hslot
      rcases freeGroup_cases s with hfresh | hold
      · exact (hc.1 hn hfresh).2 (hfresh.symm.trans hslot)
      · have := hold.1
        omega
  cases conf with
  | none =>
    cases hn : findGroup s n with
    | some g =>
      obtain ⟨hg, hlive, hname⟩ := findGroup_eq_some hn
      rw [hn, groupSlot_of_found hn] at hr
      simp only [Option.isSome_some, if_true] at hr
      have hgroup : ∀ g', (t.groups g').deleted = false →
          t.groups g' = s.groups g' := by
        intro g' hg'
        subst hr
        by_cases hgg : g' = g
        · subst hgg
          simp [Pprd.modifyGroup] at hg'
        · simp [Pprd.modifyGroup, hgg]
      have hgc : t.groupCount = s.groupCount := by rw [hr]; rfl
      have hpc : t.printerCount = s.printerCount := by rw [hr]; rfl
      have hpr : t.printers = s.printers := by rw [hr]; rfl
      have hst : ∀ p, t.prnStatus p = s.prnStatus p := fun p => by rw [Pprd.prnStatus, hpr]; rfl
      refine ⟨hpc ▸ h.printerCount, hgc ▸ h.groupCount, ?_, fun g' hg' hd => ?_, ?_,
        fun g₁ h₁ g₂ h₂ hd₁ hd₂ he => ?_⟩
      · simp only [hpc, hst, hpr]
        exact h.printers
      · have hd' := hd
        rw [hgroup g' hd, hpc]
        rw [hgroup g' hd] at hd'
        exact h.groups g' (hgc ▸ hg') hd'
      · simp only [hpc, hst, hpr]
        exact h.printerNames
      · have hd₁' := hd₁
        have hd₂' := hd₂
        rw [hgroup g₁ hd₁] at hd₁' he
        rw [hgroup g₂ hd₂] at hd₂' he
        exact h.groupNames g₁ (hgc ▸ h₁) g₂ (hgc ▸ h₂) hd₁' hd₂' he
    | none =>
      rw [hn, groupSlot_of_new hn] at hr
      simp only [Option.isSome_none, Bool.false_eq_true, if_false] at hr
      rcases freeGroup_cases s with hfresh | hold
      · exact absurd (hc.1 hn hfresh).1 (by simp)
      · rw [withGroup_of_lt hold.1] at hr
        cases hr
        exact h.groupNotFound
  | some conf =>
    obtain ⟨c, hcn, -, hfit, hs⟩ := hr
    have hle := groupSlot_le s n
    refine (SameConf.of_starts hs).usable (h.loadGroup (g := groupSlot s n) ?_ ?_ ?_ ?_ ?_ ?_ rfl rfl)
    · change max s.groupCount (groupSlot s n + 1) ≤ maxGroups
      omega
    · intro g' hg' hgg
      have hg' : g' < max s.groupCount (groupSlot s n + 1) := hg'
      omega
    · simpa [Pprd.modifyGroup] using hcn
    · simpa [Pprd.modifyGroup] using hfit
    · intro g' hgg
      simp [Pprd.modifyGroup, hgg, withGroup]
    · intro g' hg' hgg hd he
      cases hn : findGroup s n with
      | some g =>
        obtain ⟨hg, hlive, hname⟩ := findGroup_eq_some hn
        rw [groupSlot_of_found hn] at hgg
        exact hgg (h.groupNames g' hg' g hg hd hlive (he.trans hname.symm))
      | none => exact findGroup_eq_none hn hg' hd he

/-! ## Every run -/

/-- An event that is no command to load anything reads no file. -/
theorem Usable.of_conf_eq {b : Boot} {hist : List (Pprd × Event)} {s t : Pprd} {ev : Event}
    (hev : ev.configures = false) (h : Usable b hist t) : Usable b ((s, ev) :: hist) t := by
  have hp : ∀ n, printerConf b ((s, ev) :: hist) n = printerConf b hist n := by
    intro n
    cases ev with
    | newPrinterConfig n' conf | newGroupConfig n' conf => cases hev
    | _ => rfl
  have hg : ∀ n, groupConf b ((s, ev) :: hist) n = groupConf b hist n := by
    intro n
    cases ev with
    | newPrinterConfig n' conf | newGroupConfig n' conf => cases hev
    | _ => rfl
  refine { h with printers := fun p hp' hd => ?_, groups := fun g hg' hd => ?_ }
  · rw [hp]
    exact h.printers p hp' hd
  · rw [hg]
    exact h.groups g hg' hd

theorem Usable.step {b : Boot} {hist : List (Pprd × Event)} {s t : Pprd} {ev : Event}
    (h : Usable b hist s) (hev : ev.possible) (hc : CarefulLoad s ev) (hst : step os s ev = .ok t) :
    Usable b ((s, ev) :: hist) t := by
  cases hconf : ev.configures with
  | false => exact ((SameConf.of_step hev hconf hst).usable h).of_conf_eq hconf
  | true =>
    cases ev with
    | newPrinterConfig n conf => exact h.of_newPrinterConfig hc hst
    | newGroupConfig n conf => exact h.of_newGroupConfig hc hst
    | _ => cases hconf

/-- A command that cannot be carried out, and for which no slot is counted, changes nothing. -/
theorem Usable.unchanged {b : Boot} {hist : List (Pprd × Event)} {s : Pprd} {ev : Event}
    (h : Usable b hist s) (hf : ev.failsToLoad s) (hc : CarefulLoad s ev) :
    Ppr.step os s ev = .ok s := by
  cases ev with
  | newPrinterConfig n conf =>
    simp only [Event.failsToLoad, Bool.and_eq_true, Bool.or_eq_true, Option.isNone_iff_eq_none,
      decide_eq_true_eq] at hf
    obtain ⟨hn, hf⟩ := hf
    have hstep : Ppr.step os s (.newPrinterConfig n conf) = newPrinterConfig os s n conf := rfl
    rw [hstep, newPrinterConfig, hn]
    change (if freeSlot s = maxPrinters then _ else _) = _
    by_cases hm : freeSlot s = maxPrinters
    · rw [if_pos hm]
    rw [if_neg hm]
    obtain rfl := hf.resolve_right hm
    have hfresh : freeSlot s ≠ s.printerCount := fun he =>
      absurd (hc hn he (he ▸ hm)) (by simp)
    change Except.ok (if freeSlot s = s.printerCount then _ else s) = _
    rw [if_neg hfresh]
  | newGroupConfig n conf =>
    simp only [Event.failsToLoad, Bool.and_eq_true, Bool.or_eq_true, Option.isNone_iff_eq_none,
      decide_eq_true_eq] at hf
    rcases hf with ⟨hn, hf⟩ | hf
    · have hold : freeGroup s < s.groupCount := by
        refine ((freeGroup_cases s).resolve_left fun hfresh => ?_).1
        obtain ⟨hsome, hm⟩ := hc.1 hn hfresh
        rcases hf with rfl | hf
        · cases hsome
        · exact hm (hfresh ▸ hf)
      have hm := h.groupCount
      obtain rfl : conf = none := hf.resolve_right (by omega)
      have hstep : Ppr.step os s (.newGroupConfig n none) = newGroupConfig os s n none := rfl
      rw [hstep, newGroupConfig_eq]
      dsimp only
      rw [groupSlot_of_new hn, withGroup_of_lt hold, if_neg (by omega), if_neg (by omega), hn]
      rfl
    · obtain ⟨c, hcm, hr⟩ := (Option.any_eq_true ..).1 hf
      have := hc.2 c hcm
      rw [← Option.not_isNone] at this
      simp [hr] at this
  | _ => cases hf

/-! ## The start -/

/-- The first `printers` files of printers and `groups` files of groups have been loaded, as far as
there is room. -/
structure TablesLoaded (printers : List (String × PrinterConf)) (groups : List (String × GroupConf))
    (s : Pprd) : Prop where
  printerCount : s.printerCount ≤ maxPrinters
  groupCount : s.groupCount ≤ maxGroups
  printers : ∀ p < s.printerCount, ∃ f ∈ printers, f.1 = (s.printers p).name ∧
    f.2.Fits (s.printers p).bins (s.printers p).autoSelectExists
  groups : ∀ g < s.groupCount, ∃ f ∈ groups, f.1 = (s.groups g).name ∧
    f.2.Fits s.printerCount (s.groups g).printers (s.groups g).rotate
  printerNames : ∀ p < s.printerCount, ∀ p' < s.printerCount,
    (s.printers p).name = (s.printers p').name → p = p'
  groupNames : ∀ g < s.groupCount, ∀ g' < s.groupCount,
    (s.groups g).name = (s.groups g').name → g = g'

theorem loadPrinters1_tables {s : Pprd} {before : List (String × PrinterConf)} {n : String}
    {conf : PrinterConf} (h : TablesLoaded before [] s) (hn : n ∉ before.map Prod.fst) :
    Ensures (loadPrinters1 s n conf) (TablesLoaded (before ++ [(n, conf)]) []) := by
  have hg0 : s.groupCount = 0 := by
    by_contra h0
    obtain ⟨f, hf, -⟩ := h.groups 0 (by omega)
    cases hf
  unfold loadPrinters1
  refine ensures_ite (fun _ => ensures_ok { h with
    printers := fun p hp => ?_, groups := h.groups }) fun hne => ?_
  · obtain ⟨f, hf, hfit⟩ := h.printers p hp
    exact ⟨f, List.mem_append_left _ hf, hfit⟩
  obtain ⟨bins, auto, hfit, h1⟩ := loaded_loadPrinter s s.printerCount n conf
  have h2 : Loaded s.printerCount
      (loadedCore (withSlot s s.printerCount) s.printerCount n bins auto)
      (withSlot s s.printerCount)
      { loadPrinter s s.printerCount n conf with printerCount := s.printerCount + 1 } := by
    rw [show withSlot s s.printerCount = { s with printerCount := s.printerCount + 1 } by
      simp [withSlot]]
    exact ⟨{ h1.only with printerCount := rfl }, h1.core, h1.others⟩
  refine (mounted_ensures hfit h2).mono ?_
  rintro t ⟨bins, auto, hfit, ht⟩
  have hcount : t.printerCount = s.printerCount + 1 := by
    rw [ht.only.printerCount]
    simp [withSlot]
  have hmax := h.printerCount
  have hname : ∀ p < s.printerCount, (t.printers p).name = (s.printers p).name := fun p hp =>
    congrArg PrinterCore.name (ht.others p (by omega))
  have hlast : (t.printers s.printerCount).name = n := congrArg PrinterCore.name ht.core
  have hfree : ∀ p < s.printerCount, (s.printers p).name ≠ n := by
    rintro p hp rfl
    obtain ⟨f, hf, hfn, -⟩ := h.printers p hp
    exact hn (List.mem_map.2 ⟨f, hf, hfn⟩)
  have hgc : t.groupCount = 0 := ht.only.groupCount.trans hg0
  refine ⟨by omega, by omega, fun p hp => ?_, fun g hg => by omega, fun p hp p' hp' he => ?_,
    fun g hg => by omega⟩
  · rcases Nat.lt_succ_iff_lt_or_eq.1 (hcount ▸ hp) with hlt | rfl
    · obtain ⟨f, hf, hfn, hff⟩ := h.printers p hlt
      have hcore := ht.others p (by omega)
      refine ⟨f, List.mem_append_left _ hf, hfn.trans (hname p hlt).symm, ?_⟩
      rw [show (t.printers p).bins = (s.printers p).bins from congrArg PrinterCore.bins hcore,
        show (t.printers p).autoSelectExists = (s.printers p).autoSelectExists from
          congrArg PrinterCore.autoSelectExists hcore]
      exact hff
    · refine ⟨(n, conf), by simp, hlast.symm, ?_⟩
      rw [show (t.printers s.printerCount).bins = bins from congrArg PrinterCore.bins ht.core,
        show (t.printers s.printerCount).autoSelectExists = auto from
          congrArg PrinterCore.autoSelectExists ht.core]
      exact hfit
  · rcases Nat.lt_succ_iff_lt_or_eq.1 (hcount ▸ hp) with hlt | rfl <;>
      rcases Nat.lt_succ_iff_lt_or_eq.1 (hcount ▸ hp') with hlt' | rfl
    · rw [hname p hlt, hname p' hlt'] at he
      exact h.printerNames p hlt p' hlt' he
    · rw [hname p hlt, hlast] at he
      exact absurd he (hfree p hlt)
    · rw [hname p' hlt', hlast] at he
      exact absurd he.symm (hfree p' hlt')
    · rfl

theorem loadGroups1_tables {s : Pprd} {printers : List (String × PrinterConf)}
    {before : List (String × GroupConf)} {n : String} {conf : GroupConf}
    (h : TablesLoaded printers before s) (hn : n ∉ before.map Prod.fst) :
    Ensures (loadGroups1 s n conf) (TablesLoaded printers (before ++ [(n, conf)])) := by
  unfold loadGroups1
  refine ensures_ite (fun _ => ensures_ok { h with
    printers := h.printers, groups := fun g hg => ?_ }) fun hne => ?_
  · obtain ⟨f, hf, hfit⟩ := h.groups g hg
    exact ⟨f, List.mem_append_left _ hf, hfit⟩
  refine Ensures.bind (loadGroup_ensures s s.groupCount n conf) ?_
  rintro t ⟨c, hcn, -, hfit, rfl⟩
  refine ensures_ok ?_
  have hmax := h.groupCount
  have hold : ∀ g < s.groupCount, (s.modifyGroup s.groupCount fun _ => c).groups g = s.groups g :=
    fun g hg => by simp [Pprd.modifyGroup, hg.ne]
  have hlast : (s.modifyGroup s.groupCount fun _ => c).groups s.groupCount = c := by
    simp [Pprd.modifyGroup]
  have hfree : ∀ g < s.groupCount, (s.groups g).name ≠ n := by
    rintro g hg rfl
    obtain ⟨f, hf, hfn, -⟩ := h.groups g hg
    exact hn (List.mem_map.2 ⟨f, hf, hfn⟩)
  refine ⟨h.printerCount, show s.groupCount + 1 ≤ maxGroups by omega, h.printers, fun g hg => ?_,
    h.printerNames, fun g hg g' hg' he => ?_⟩
  · change ∃ f ∈ before ++ [(n, conf)],
      f.1 = ((s.modifyGroup s.groupCount fun _ => c).groups g).name ∧ _
    rcases Nat.lt_succ_iff_lt_or_eq.1 (show g < s.groupCount + 1 from hg) with hlt | rfl
    · obtain ⟨f, hf, hfn, hff⟩ := h.groups g hlt
      rw [hold g hlt]
      exact ⟨f, List.mem_append_left _ hf, hfn, hff⟩
    · rw [hlast]
      exact ⟨(n, conf), by simp, hcn.symm, hfit⟩
  · change ((s.modifyGroup s.groupCount fun _ => c).groups g).name =
      ((s.modifyGroup s.groupCount fun _ => c).groups g').name at he
    rcases Nat.lt_succ_iff_lt_or_eq.1 (show g < s.groupCount + 1 from hg) with hlt | rfl <;>
      rcases Nat.lt_succ_iff_lt_or_eq.1 (show g' < s.groupCount + 1 from hg') with hlt' | rfl
    · rw [hold g hlt, hold g' hlt'] at he
      exact h.groupNames g hlt g' hlt' he
    · rw [hold g hlt, hlast, hcn] at he
      exact absurd he (hfree g hlt)
    · rw [hold g' hlt', hlast, hcn] at he
      exact absurd he.symm (hfree g' hlt')
    · rfl

theorem not_mem_of_nodup_append {α β : Type} {l before after : List (α × β)} {f : α × β}
    (h : (l.map Prod.fst).Nodup) (hl : l = before ++ f :: after) : f.1 ∉ before.map Prod.fst := by
  intro hm
  rw [hl, List.map_append, List.map_cons] at h
  exact (List.nodup_append.1 h).2.2 _ hm _ List.mem_cons_self rfl

theorem loadTables_tables {b : Boot} (hw : b.Wf) :
    Ensures (loadTables b) (TablesLoaded b.printers b.groups) := by
  have h0 : TablesLoaded [] [] b.empty :=
    ⟨Nat.zero_le _, Nat.zero_le _, fun p hp => absurd hp (Nat.not_lt_zero p),
      fun g hg => absurd hg (Nat.not_lt_zero g), fun p hp => absurd hp (Nat.not_lt_zero p),
      fun g hg => absurd hg (Nat.not_lt_zero g)⟩
  refine Ensures.bind (ensures_foldlM_along (I := fun l => TablesLoaded l [])
    (fun before f after hl s hs => loadPrinters1_tables hs (not_mem_of_nodup_append hw.printers hl))
    h0) fun s hs => ?_
  exact ensures_foldlM_along (I := fun l => TablesLoaded b.printers l)
    (fun before f after hl s hs => loadGroups1_tables hs (not_mem_of_nodup_append hw.groups hl)) hs

theorem find?_of_nodup {α β : Type} [DecidableEq α] {l : List (α × β)} (h : (l.map Prod.fst).Nodup)
    {f : α × β} (hf : f ∈ l) : l.find? (fun f' => f'.1 = f.1) = some f := by
  cases hfind : l.find? (fun f' => f'.1 = f.1) with
  | none => exact absurd (List.find?_eq_none.1 hfind f hf) (by simp)
  | some f' =>
    have hn : f'.1 = f.1 := by simpa using List.find?_some hfind
    exact congrArg some (List.inj_on_of_nodup_map h (List.mem_of_find?_eq_some hfind) hf hn)

theorem TablesLoaded.usable {b : Boot} (hw : b.Wf) {s : Pprd}
    (h : TablesLoaded b.printers b.groups s) : Usable b [] s where
  printerCount := h.printerCount
  groupCount := h.groupCount
  printers p hp _ := by
    obtain ⟨f, hf, hn, hfit⟩ := h.printers p hp
    refine ⟨f.2, ?_, hfit⟩
    rw [← hn, printerConf, find?_of_nodup hw.printers hf]
    rfl
  groups g hg _ := by
    obtain ⟨f, hf, hn, hfit⟩ := h.groups g hg
    refine ⟨f.2, ?_, hfit⟩
    rw [← hn, groupConf, find?_of_nodup hw.groups hf]
    rfl
  printerNames p hp p' hp' _ _ := h.printerNames p hp p' hp'
  groupNames g hg g' hg' _ _ := h.groupNames g hg g' hg'

theorem usable_boot {b : Boot} (hw : b.Wf) : Ensures (boot os b) (Usable b []) := by
  refine Ensures.bind (loadTables_tables hw) fun s hs => ?_
  have hu := hs.usable hw
  refine (initializeQueue_ensures (J := fun _ => SameConf s) (.refl s) ?_).mono ?_
  · intro name rest t ht
    refine (queueAcceptQueuefile_ensures t name false false).mono ?_
    rintro u (⟨v, hv, rfl, -⟩ | ⟨v, w, q, a, hv, -, hc, hw, ha⟩)
    · refine (ht.trans (.of_frame hv)).trans (.of_change (a := .ppr) trivial ?_)
      exact change_ppr rfl rfl rfl rfl rfl rfl rfl
    · refine ((ht.trans (.of_frame hv)).trans (.of_change ?_ hc)).trans (.of_starts hw)
      rcases ha with ⟨-, rfl⟩ | ⟨-, x, rfl⟩ <;> trivial
  · rintro t ⟨v, hv, ht⟩
    exact (hv.trans (.of_starts ht)).usable hu

/-- In every run in which no slot is counted for nothing, the tables can be used in every state, and
a command that cannot be carried out changes nothing. -/
theorem loads_atomic {b : Boot} {hist : List (Pprd × Event)} {s : Pprd}
    (run : Runs os (fun b' => b' = b) CarefulLoad hist s) :
    LoadsAtomic os b hist s CarefulLoad := by
  have h : Usable b hist s := by
    refine run.history_invariant (I := Usable b) ?_ ?_
    · rintro s ⟨b', hw, rfl, hs⟩
      exact usable_boot hw s hs
    · rintro hist s ev t h ⟨hev, hc, hst⟩
      exact h.step hev hc hst
  exact ⟨h, fun ev hf hc => h.unchanged hf hc⟩

/-- A printer is removed, and then there is a command about one that never existed. -/
theorem loads_atomic_deleted :
    ∃ b hist s, Runs (fun _ => true) (fun b' => b' = b) CarefulLoad hist s ∧
      LoadsAtomic (fun _ => true) b hist s CarefulLoad ∧
      Event.failsToLoad s (.newPrinterConfig "C" none) := by
  obtain ⟨hist, s, run, hs⟩ := exists_runs_replay (fun _ => true)
    (fun b' => b' = .ofFiles [("A", ⟨["Upper"]⟩), ("B", ⟨[]⟩)] [("G", ⟨["A", "B"], none⟩)] [])
    CarefulLoad (Boot.wf_ofFiles (by decide) (by decide) (by decide) (by decide)) rfl
    [.newPrinterConfig "B" none, .newPrinterConfig "C" none, .newGroupConfig "H" (some ⟨["A"], none⟩)]
    (P := fun _ s => Event.failsToLoad s (.newPrinterConfig "C" none) = true) (by decide +kernel)
  exact ⟨_, hist, s, run, loads_atomic run, hs⟩

/-- A command about a printer that never existed, and the table has a slot that was never loaded. -/
theorem loads_not_atomic :
    ∃ os b hist s, Runs os (fun b' => b' = b) (fun _ _ => True) hist s ∧
      ¬ LoadsAtomic os b hist s fun _ _ => True := by
  obtain ⟨hist, s, run, hs⟩ := exists_runs_replay (fun _ => true)
    (fun b' => b' = .ofFiles [] [] []) (fun _ _ => True)
    (Boot.wf_ofFiles (by decide) (by decide) (by decide) (by decide)) rfl
    [.newPrinterConfig "mud" none]
    (P := fun hist s => 0 < s.printerCount ∧ s.prnStatus 0 ≠ .deleted ∧
      printerConf (.ofFiles [] [] []) hist (s.printers 0).name = none) (by decide +kernel)
  refine ⟨_, _, hist, s, run, fun h => ?_⟩
  obtain ⟨conf, hconf, -⟩ := h.usable.printers 0 hs.1 hs.2.1
  rw [hs.2.2] at hconf
  cases hconf

end Ppr
