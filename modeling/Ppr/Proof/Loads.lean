import Ppr.Proof.Accepts

/-!
# Loading printers and groups as acts
-/

namespace Ppr

open Outcome Machine

variable {K : Act → Pprd → Prop} {os : ℕ → Bool}

/-! ## Printers -/

/-- Only printer `p` has changed, and is now `c`. -/
structure Loaded (p : ℕ) (c : PrinterCore) (s t : Pprd) : Prop where
  only : PrinterOnly s t
  core : (t.printers p).core = c
  others : ∀ p', p' ≠ p → (t.printers p').core = (s.printers p').core

theorem Loaded.trans {p : ℕ} {c c' : PrinterCore} {s t u : Pprd} (h : Loaded p c s t)
    (h' : Loaded p c' t u) : Loaded p c' s u :=
  ⟨h.only.trans h'.only, h'.core, fun p' hp => (h'.others p' hp).trans (h.others p' hp)⟩

theorem loaded_modifyPrinter (s : Pprd) (p : ℕ) (f : Printer → Printer) :
    Loaded p (f (s.printers p)).core s (s.modifyPrinter p f) :=
  ⟨printerOnly_modifyPrinter s p f, by rw [core_modifyPrinter, if_pos rfl],
    fun p' hp => by rw [core_modifyPrinter, if_neg hp]⟩

theorem loaded_recoverStatus (s : Pprd) (p : ℕ) :
    Loaded p { (s.printers p).core with status := recovered (s.prnStatus p) } s
      (recoverStatus s p) := by
  have status : ∀ st, s.prnStatus p ≠ .deleted →
      Loaded p { (s.printers p).core with status := st } s (printerNewStatus s p st) :=
    fun st h => ⟨printerOnly_printerNewStatus s p st,
      by rw [core_printerNewStatus st h, if_pos rfl],
      fun p' hp => by rw [core_printerNewStatus st h, if_neg hp]⟩
  have same : Loaded p { (s.printers p).core with status := s.prnStatus p } s s :=
    ⟨⟨rfl, rfl, rfl, rfl, rfl, rfl, rfl, rfl, rfl⟩, rfl, fun _ _ => rfl⟩
  unfold recoverStatus
  cases h : s.prnStatus p with
  | printing | canceling | seizing => exact status .idle (by simp [h])
  | halting => exact status .stopt (by simp [h])
  | _ =>
    rw [h] at same
    exact same

/-- Bins and flags are those of the configuration file. -/
def PrinterConf.Fits (conf : PrinterConf) (bins : List Bin) (auto : Bool) : Prop :=
  bins.map Bin.name = conf.bins.take maxBins ∧
    auto = (conf.bins.take maxBins).any fun b => b = "AutoSelect"

theorem map_name_setBin (bins : List Bin) (name : String) (m : ℤ) :
    (setBin bins name m).map Bin.name = bins.map Bin.name := by
  unfold setBin
  split
  · rfl
  · exact List.map_modify_of_eq (f := fun b : Bin => { b with media := m }) (fun _ => rfl) bins _

theorem PrinterConf.Fits.of_names {conf : PrinterConf} {bins bins' : List Bin} {auto : Bool}
    (h : conf.Fits bins auto) (hb : bins'.map Bin.name = bins.map Bin.name) :
    conf.Fits bins' auto :=
  ⟨hb.trans h.1, h.2⟩

/-- The core of a printer that has just been loaded. -/
def loadedCore (s : Pprd) (p : ℕ) (n : String) (bins : List Bin) (auto : Bool) : PrinterCore :=
  { (s.printers p).core with
    name := n
    status := recovered ((s.disk.printerState n).getD newPrinterSpoolState).status
    bins := bins
    autoSelectExists := auto
    cancelJob := false
    holdJob := false }

/-- What `load_printer()` does. -/
theorem loaded_loadPrinter (s : Pprd) (p : ℕ) (n : String) (conf : PrinterConf) :
    ∃ bins auto, conf.Fits bins auto ∧
      Loaded p (loadedCore s p n bins auto) s (loadPrinter s p n conf) := by
  unfold loadPrinter
  dsimp only
  generalize hs1 : s.modifyPrinter p _ = s1
  have h1 := loaded_modifyPrinter s p fun p =>
    { p with
      name := n
      ppopPid := 0
      cancelJob := false
      holdJob := false
      spoolState :=
        { (s.disk.printerState n).getD newPrinterSpoolState with jobCount := 0 } }
  rw [hs1] at h1
  have h2 := loaded_recoverStatus s1 p
  have hst : s1.prnStatus p = ((s.disk.printerState n).getD newPrinterSpoolState).status :=
    congrArg PrinterCore.status h1.core
  rw [h1.core, hst] at h2
  have h3 := loaded_modifyPrinter (recoverStatus s1 p) p fun p =>
    { p with
      bins := (conf.bins.take maxBins).map fun b => { name := b, media := -1 }
      autoSelectExists := (conf.bins.take maxBins).any fun b => b = "AutoSelect" }
  refine ⟨(conf.bins.take maxBins).map fun b => { name := b, media := -1 },
    (conf.bins.take maxBins).any fun b => b = "AutoSelect", ⟨by simp [Function.comp_def], rfl⟩,
    { (h1.trans h2).trans h3 with core := h3.core.trans ?_ }⟩
  exact congrArg (fun c : PrinterCore => { c with
    bins := (conf.bins.take maxBins).map fun b => { name := b, media := -1 }
    autoSelectExists := (conf.bins.take maxBins).any fun b => b = "AutoSelect" }) h2.core

theorem getMediaId_ensures (s : Pprd) (name : String) :
    Ensures (getMediaId s name) fun r => ∃ m, r.1 = { s with media := m } := by
  refine ensures_ite (fun _ => ensures_ok ⟨s.media, rfl⟩) fun _ => ?_
  split
  · exact ensures_ok ⟨s.media, rfl⟩
  · exact ensures_ite (fun _ => ensures_error) fun _ => ensures_ok ⟨_, rfl⟩

theorem mediaMountedRecover_ensures (s : Pprd) (p : ℕ) :
    Ensures (mediaMountedRecover s p) fun t =>
      ∃ bins, bins.map Bin.name = (s.printers p).bins.map Bin.name ∧
        Loaded p { (s.printers p).core with bins := bins } s t := by
  have same : Loaded p { (s.printers p).core with bins := (s.printers p).bins } s s :=
    ⟨⟨rfl, rfl, rfl, rfl, rfl, rfl, rfl, rfl, rfl⟩, rfl, fun _ _ => rfl⟩
  unfold mediaMountedRecover
  split
  · exact ensures_ok ⟨_, rfl, same⟩
  · refine ensures_foldlM (fun t pair _ ht => ?_) ⟨_, rfl, same⟩
    refine ensures_ite (fun _ => ?_) fun _ => ensures_ok ht
    obtain ⟨bins, hbins, ht⟩ := ht
    refine Ensures.bind (getMediaId_ensures t _) ?_
    rintro ⟨_, m⟩ ⟨l, rfl⟩
    have hnames := map_name_setBin (t.printers p).bins pair.1 m
    have hb : (t.printers p).bins = bins := congrArg PrinterCore.bins ht.core
    refine ensures_ok ⟨setBin (t.printers p).bins pair.1 m, hnames.trans (hb ▸ hbins),
      ht.only.trans ?_, ?_, fun p' hp => ?_⟩
    · exact ⟨rfl, rfl, rfl, rfl, rfl, rfl, rfl, rfl, rfl⟩
    · dsimp only
      rw [core_modifyPrinter, if_pos rfl]
      exact congrArg (fun c : PrinterCore =>
        { c with bins := setBin (t.printers p).bins pair.1 m }) ht.core
    · rw [core_modifyPrinter, if_neg hp]
      exact ht.others p' hp

theorem frame_clearNever (s : Pprd) (p x : ℕ) : Frame s (clearNever s p x) := by
  have never : ∀ b, Frame s (s.modifyJob x fun q => { q with never := q.never &&& b }) := fun _ =>
    frame_modifyJob s x fun _ => ⟨rfl, rfl, rfl, rfl, .inl rfl⟩
  unfold clearNever
  dsimp only
  generalize (if (s.job x).destid = p then 1 else destidPrinterBit s (s.job x).destid p) = bit
  split_ifs with hb hst
  · exact (never _).trans (frame_queuePJobNewStatus _ x _ (fun _ => by rw [hst]; rfl) rfl)
  · exact never _
  · rfl

theorem change_reload {s u : Pprd} {p : ℕ} {bins : List Bin} {auto : Bool}
    (hp : p < s.printerCount) (hd : s.prnStatus p ≠ .deleted)
    (h : Loaded p
      { (s.printers p).core with
        bins := bins, autoSelectExists := auto, cancelJob := false, holdJob := false } s u) :
    Change (.reload p bins auto) s u := by
  refine .of_printerOnly h.only ⟨hp, hd⟩ (fun p' => ?_) rfl rfl rfl rfl rfl rfl fun _ => rfl
  simp only [Act.printer?, Option.some.injEq, eq_comm (a := p)]
  by_cases hpp : p' = p
  · subst hpp
    rw [if_pos rfl]
    exact h.core
  · rw [if_neg hpp]
    exact h.others p' hpp

theorem loaded_of_frame {p : ℕ} {s t : Pprd} (h : Frame s t) (ho : PrinterOnly s t) :
    Loaded p (s.printers p).core s t :=
  ⟨ho, h.printers p, fun p' _ => h.printers p'⟩

/-- What loading a printer's configuration once more does: its bins are loaded, and then it may find
work. -/
theorem reloadPrinter_ensures {s : Pprd} {p : ℕ} (conf : PrinterConf) (hp : p < s.printerCount) :
    Ensures (reloadPrinter os s p (s.printers p).name conf) fun t =>
      ∃ bins auto u, conf.Fits bins auto ∧ Loaded p
        { (s.printers p).core with
          bins := bins, autoSelectExists := auto, cancelJob := false, holdJob := false } s u ∧
        Starts u t := by
  obtain ⟨bins, auto, hfit, h1⟩ := loaded_loadPrinter s p (s.printers p).name conf
  refine Ensures.bind (mediaMountedRecover_ensures _ p) ?_
  rintro t ⟨bins', hbins, h2⟩
  have hfit' := hfit.of_names (hbins.trans (congrArg (fun c => c.bins.map Bin.name) h1.core))
  dsimp only
  generalize hu : (mediaMountedSave t p).modifyPrinter p _ = u
  have h3 : Loaded p { (s.printers p).core with
      bins := bins', autoSelectExists := auto, cancelJob := false, holdJob := false } s u := by
    subst hu
    have hm := (h1.trans h2).trans (loaded_of_frame (frame_mediaMountedSave t p)
      ⟨rfl, rfl, rfl, rfl, rfl, rfl, rfl, rfl, rfl⟩)
    have hcore : ((mediaMountedSave t p).printers p).core = _ :=
      (hm.core.trans h2.core).trans (congrArg (fun c : PrinterCore => { c with bins := bins' })
        h1.core)
    refine { hm.trans (loaded_modifyPrinter _ p _) with core := ?_ }
    rw [core_modifyPrinter, if_pos rfl]
    exact congrArg (fun c : PrinterCore => { c with status := s.prnStatus p }) hcore
  have h4 : Frame u ((List.range u.queue.length).foldl (fun s x => clearNever s p x) u) :=
    foldl_invariant (fun v x _ hv => hv.trans (frame_clearNever v p x)) (Frame.refl u)
  refine Ensures.bind (frame_mediaUpdateNotnow _ p) fun v hv => ?_
  have hv := h4.trans hv
  refine (lookForWorkIfIdle_starts (.inl ?_)).mono fun w hw => ?_
  · rw [hv.printerCount, h3.only.printerCount]
    exact hp
  · exact ⟨bins', auto, u, hfit', h3, (Starts.of_frame hv).trans hw⟩

/-- Slot `p` is counted. -/
def withSlot (s : Pprd) (p : ℕ) : Pprd := { s with printerCount := max s.printerCount (p + 1) }

/-- Slot `p` is taken for a printer. -/
theorem change_newPrinter {s t : Pprd} {p : ℕ} {c : PrinterCore} (h : Loaded p c (withSlot s p) t)
    (hp : p = s.printerCount ∨ p < s.printerCount ∧ s.prnStatus p = .deleted)
    (hm : p ≠ maxPrinters) (hpid : c.jobPid = (s.printers p).jobPid)
    (hkey : c.jobKey = (s.printers p).jobKey)
    (hc : c = (s.printers p).core ∨ c.cancelJob = false ∧ c.holdJob = false ∧
      c.status = recovered ((s.disk.printerState c.name).getD newPrinterSpoolState).status) :
    Change (.newPrinter p c) s t where
  ok := ⟨hp, hm, hpid, hkey, hc⟩
  queue := ⟨s.queue, .refl _, h.only.queue⟩
  printer p' := by
    simp only [Act.printer?, Option.some.injEq, eq_comm (a := p)]
    by_cases hpp : p' = p
    · subst hpp
      rw [if_pos rfl]
      exact h.core
    · rw [if_neg hpp]
      exact h.others p' hpp
  printerCount := h.only.printerCount
  group g := congrArg (fun f => (f g).core) h.only.groups
  groupCount := h.only.groupCount
  active := h.only.activePrinters.trans (add_zero _).symm
  starving := h.only.starvingPrinters.trans (add_zero _).symm
  files _ n := congrArg (fun f => (f n).isSome) h.only.files
  fifo _ := h.only.fifo
  pprs _ := h.only.pprs

/-- The end of loading a printer into a slot. -/
theorem mounted_ensures {s s1 : Pprd} {p : ℕ} {n : String} {conf : PrinterConf} {bins : List Bin}
    {auto : Bool} (hfit : conf.Fits bins auto) (h1 : Loaded p (loadedCore s p n bins auto) s s1) :
    Ensures (do
      let s ← mediaMountedRecover s1 p
      Except.ok (mediaMountedSave s p)) fun t =>
      ∃ bins auto, conf.Fits bins auto ∧ Loaded p (loadedCore s p n bins auto) s t := by
  refine Ensures.bind (mediaMountedRecover_ensures _ p) ?_
  rintro t ⟨bins', hbins, h2⟩
  have hm := (h1.trans h2).trans (loaded_of_frame (frame_mediaMountedSave t p)
    ⟨rfl, rfl, rfl, rfl, rfl, rfl, rfl, rfl, rfl⟩)
  have hfit' := hfit.of_names (hbins.trans (congrArg (fun c => c.bins.map Bin.name) h1.core))
  refine ensures_ok ⟨bins', auto, hfit', { hm with core := (hm.core.trans h2.core).trans ?_ }⟩
  exact congrArg (fun c : PrinterCore => { c with bins := bins' }) h1.core

/-- The slot a new printer takes. -/
def freeSlot (s : Pprd) : ℕ :=
  ((List.range s.printerCount).find? fun x => s.prnStatus x = .deleted).getD s.printerCount

theorem freeSlot_cases (s : Pprd) :
    freeSlot s = s.printerCount ∨ freeSlot s < s.printerCount ∧
      s.prnStatus (freeSlot s) = .deleted := by
  unfold freeSlot
  cases h : (List.range s.printerCount).find? fun x => s.prnStatus x = .deleted with
  | none => exact .inl rfl
  | some p =>
    exact .inr ⟨List.mem_range.1 (List.mem_of_find?_eq_some h), by simpa using List.find?_some h⟩

/-- Permission to load, reload and delete printers. -/
structure PrinterPermit (K : Act → Pprd → Prop) (s : Pprd) (n : String)
    (conf : Option PrinterConf) : Prop where
  delete : ∀ p, destidByPrinter s n = some p → conf = none → K (.deletePrinter p) s
  reload : ∀ p bins auto, destidByPrinter s n = some p → conf.isSome → K (.reload p bins auto) s
  new : ∀ c, destidByPrinter s n = none → freeSlot s = s.printerCount ∨ conf.isSome →
    K (.newPrinter (freeSlot s) c) s

theorem destidByPrinter_eq_some {s : Pprd} {n : String} {p : ℕ}
    (h : destidByPrinter s n = some p) :
    p < s.printerCount ∧ s.prnStatus p ≠ .deleted ∧ (s.printers p).name = n := by
  have hp := List.find?_some h
  simp only [decide_eq_true_eq] at hp
  exact ⟨List.mem_range.1 (List.mem_of_find?_eq_some h), hp⟩

/-- A printer loaded into a slot. -/
theorem act_newPrinter {s t : Pprd} {p : ℕ} {n : String} {bins : List Bin} {auto : Bool}
    (h : Loaded p (loadedCore (withSlot s p) p n bins auto) (withSlot s p) t)
    (hp : p = s.printerCount ∨ p < s.printerCount ∧ s.prnStatus p = .deleted)
    (hm : p ≠ maxPrinters) (hK : ∀ c : PrinterCore, K (.newPrinter p c) s) : Acts K s t :=
  Trail.single (hK (loadedCore (withSlot s p) p n bins auto))
    (change_newPrinter h hp hm rfl rfl (.inr ⟨rfl, rfl, rfl⟩))

theorem withSlot_of_lt {s : Pprd} {p : ℕ} (h : p < s.printerCount) : withSlot s p = s := by
  have : max s.printerCount (p + 1) = s.printerCount := by omega
  rw [withSlot, this]

/-- What `new_printer_config()` does. -/
theorem newPrinterConfig_ensures (s : Pprd) (n : String) (conf : Option PrinterConf) :
    Ensures (newPrinterConfig os s n conf) fun t =>
      match destidByPrinter s n, conf with
      | some p, none => t = s.modifyPrinter p fun p => { p with spoolState.status := .deleted }
      | some p, some conf => ∃ bins auto u, conf.Fits bins auto ∧ Loaded p
          { (s.printers p).core with
            bins := bins, autoSelectExists := auto, cancelJob := false, holdJob := false } s u ∧
          Starts u t
      | none, conf => freeSlot s = maxPrinters ∧ t = s ∨ freeSlot s ≠ maxPrinters ∧
          match conf with
          | none => t = withSlot s (freeSlot s)
          | some conf => ∃ bins auto, conf.Fits bins auto ∧ Loaded (freeSlot s)
              (loadedCore (withSlot s (freeSlot s)) (freeSlot s) n bins auto)
              (withSlot s (freeSlot s)) t := by
  unfold newPrinterConfig
  cases hn : destidByPrinter s n with
  | some p =>
    obtain ⟨hlt, -, rfl⟩ := destidByPrinter_eq_some hn
    cases conf with
    | none => exact ensures_ok rfl
    | some conf => exact reloadPrinter_ensures conf hlt
  | none =>
    change Ensures (if freeSlot s = maxPrinters then _ else _) _
    refine ensures_ite (fun h => ensures_ok (.inl ⟨h, rfl⟩)) fun hne => ?_
    have hs : (if freeSlot s = s.printerCount then { s with printerCount := freeSlot s + 1 } else s)
        = withSlot s (freeSlot s) := by
      have hslot := freeSlot_cases s
      unfold withSlot
      split_ifs with h
      · simp [h]
      · have : max s.printerCount (freeSlot s + 1) = s.printerCount := by omega
        rw [this]
    cases conf with
    | none =>
      change Ensures (.ok (if freeSlot s = s.printerCount then
        { s with printerCount := freeSlot s + 1 } else s)) _
      rw [hs]
      exact ensures_ok (.inr ⟨hne, rfl⟩)
    | some conf =>
      change Ensures (do
        let t ← mediaMountedRecover (loadPrinter (if freeSlot s = s.printerCount then
          { s with printerCount := freeSlot s + 1 } else s) (freeSlot s) n conf) (freeSlot s)
        Except.ok (mediaMountedSave t (freeSlot s))) _
      rw [hs]
      obtain ⟨bins, auto, hfit, h1⟩ :=
        loaded_loadPrinter (withSlot s (freeSlot s)) (freeSlot s) n conf
      exact (mounted_ensures hfit h1).mono fun t ht => .inr ⟨hne, ht⟩

theorem newPrinterConfig_acts (hK : Base K) {s : Pprd} {n : String} {conf : Option PrinterConf}
    (hP : PrinterPermit K s n conf) : Ensures (newPrinterConfig os s n conf) (Acts K s) := by
  intro t ht
  have h := newPrinterConfig_ensures s n conf t ht
  cases hn : destidByPrinter s n with
  | some p =>
    obtain ⟨hlt, hd, -⟩ := destidByPrinter_eq_some hn
    rw [hn] at h
    cases conf with
    | none =>
      cases h
      exact Trail.single (hP.delete p hn rfl) (change_deletePrinter hlt hd)
    | some conf =>
      obtain ⟨bins, auto, u, -, hu, ht⟩ := h
      exact (Trail.single (hP.reload p bins auto hn rfl) (change_reload hlt hd hu)).trans
        (ht.acts hK)
  | none =>
    rw [hn] at h
    rcases h with ⟨-, rfl⟩ | ⟨hne, h⟩
    · exact .refl t
    have hslot := freeSlot_cases s
    cases conf with
    | none =>
      cases h
      rcases hslot with hfresh | hold
      · refine Trail.single (hP.new (s.printers (freeSlot s)).core hn (.inl hfresh)) ?_
        refine change_newPrinter ?_ (.inl hfresh) hne rfl rfl (.inl rfl)
        exact ⟨⟨rfl, rfl, rfl, rfl, rfl, rfl, rfl, rfl, rfl⟩, rfl, fun _ _ => rfl⟩
      · rw [withSlot_of_lt hold.1]
        exact .refl s
    | some conf =>
      obtain ⟨bins, auto, -, h⟩ := h
      exact act_newPrinter h hslot hne fun c => hP.new c hn (.inr rfl)

theorem loadPrinters1_acts {s : Pprd} {n : String} {conf : PrinterConf}
    (hK : ∀ c : PrinterCore, K (.newPrinter s.printerCount c) s) :
    Ensures (loadPrinters1 s n conf) (Acts K s) := by
  refine ensures_ite (fun _ => ensures_ok (.refl s)) fun hne => ?_
  obtain ⟨bins, auto, hfit, h1⟩ := loaded_loadPrinter s s.printerCount n conf
  have hc : withSlot s s.printerCount = { s with printerCount := s.printerCount + 1 } := by
    simp [withSlot]
  have h2 : Loaded s.printerCount
      (loadedCore (withSlot s s.printerCount) s.printerCount n bins auto)
      (withSlot s s.printerCount)
      { loadPrinter s s.printerCount n conf with printerCount := s.printerCount + 1 } := by
    rw [hc]
    exact ⟨{ h1.only with printerCount := rfl }, h1.core, h1.others⟩
  refine (mounted_ensures hfit h2).mono fun t ⟨bins, auto, _, ht⟩ => ?_
  exact act_newPrinter ht (.inl rfl) hne hK

/-! ## Groups -/

/-- Only group `g` and the number of groups have changed. -/
theorem change_newGroup {s : Pprd} {g : ℕ} (f : Group → Group)
    (hg : g = s.groupCount ∨ g < s.groupCount ∧ (s.groups g).deleted) (hm : g ≤ maxGroups)
    (hf : ∀ m ∈ (f (s.groups g)).printers, m < s.printerCount ∨ m ∈ (s.groups g).printers) :
    Change (.newGroup g (f (s.groups g)).core) s
      ({ s with groupCount := max s.groupCount (g + 1) }.modifyGroup g f) where
  ok := ⟨hg, hm, hf⟩
  queue := ⟨s.queue, .refl _, rfl⟩
  printer p := by simp [Act.printer?, Pprd.modifyGroup]
  printerCount := rfl
  group g' := by
    by_cases h : g = g'
    · subst h
      simp [Act.group?, Pprd.modifyGroup]
    · simp [Act.group?, Pprd.modifyGroup, h, Ne.symm h]
  groupCount := rfl
  active := (add_zero _).symm
  starving := (add_zero _).symm
  files _ _ := rfl
  fifo _ := rfl
  pprs _ := rfl

theorem change_group {s : Pprd} {g : ℕ} (f : Group → Group) (hg : g < s.groupCount)
    (hf : ∀ m ∈ (f (s.groups g)).printers, m < s.printerCount ∨ m ∈ (s.groups g).printers)
    (hn : (f (s.groups g)).name = (s.groups g).name)
    (hd : (s.groups g).deleted → (f (s.groups g)).deleted) :
    Change (.group g (f (s.groups g)).core) s (s.modifyGroup g f) where
  ok := ⟨hg, hf, hn, hd⟩
  queue := ⟨s.queue, .refl _, rfl⟩
  printer p := by simp [Act.printer?, Pprd.modifyGroup]
  printerCount := rfl
  group g' := by
    by_cases h : g = g'
    · subst h
      simp [Act.group?, Pprd.modifyGroup]
    · simp [Act.group?, Pprd.modifyGroup, h, Ne.symm h]
  groupCount := rfl
  active := (add_zero _).symm
  starving := (add_zero _).symm
  files _ _ := rfl
  fifo _ := rfl
  pprs _ := rfl

/-- Slot `g` is counted. -/
def withGroup (s : Pprd) (g : ℕ) : Pprd := { s with groupCount := max s.groupCount (g + 1) }

/-- Members and flags are those of the configuration file: the members are what a search for the
names found, up to the limit. -/
def GroupConf.Fits (conf : GroupConf) (count : ℕ) (printers : List ℕ) (rotate : Bool) : Prop :=
  conf.rotate.getD (some true) = some rotate ∧ ∃ search : String → Option ℕ,
    (∀ n, ∀ p ∈ search n, p < count) ∧
      printers = (conf.printers.filterMap search).take maxGroupsize

theorem GroupConf.Fits.known {conf : GroupConf} {count : ℕ} {printers : List ℕ} {rotate : Bool}
    (h : conf.Fits count printers rotate) {m : ℕ} (hm : m ∈ printers) : m < count := by
  obtain ⟨-, search, hs, rfl⟩ := h
  obtain ⟨n, -, hn⟩ := List.mem_filterMap.1 (List.mem_of_mem_take hm)
  exact hs n m hn

/-- What `load_group()` puts into the table. -/
theorem loadGroup_ensures (s : Pprd) (g : ℕ) (n : String) (conf : GroupConf) :
    Ensures (loadGroup s g n conf) fun t => ∃ c : Group, c.name = n ∧ c.deleted = false ∧
      conf.Fits s.printerCount c.printers c.rotate ∧ t = s.modifyGroup g fun _ => c := by
  unfold loadGroup
  dsimp only
  split
  · exact ensures_error
  · rename_i rotate hr
    refine ensures_ok ⟨_, rfl, rfl, ⟨hr, destidByPrinter s, fun n p hp => ?_, rfl⟩, rfl⟩
    exact (destidByPrinter_eq_some hp).1

theorem loadGroups1_acts {s : Pprd} {n : String} {conf : GroupConf}
    (hm : s.groupCount ≤ maxGroups) (hK : ∀ c, K (.newGroup s.groupCount c) s) :
    Ensures (loadGroups1 s n conf) fun t => Acts K s t ∧ t.groupCount ≤ maxGroups := by
  refine ensures_ite (fun _ => ensures_ok ⟨.refl s, hm⟩) fun hne => ?_
  refine Ensures.bind (loadGroup_ensures s _ n conf) ?_
  rintro t ⟨c, -, -, hc, rfl⟩
  refine ensures_ok ⟨Trail.single (hK c.core) ?_, lt_of_le_of_ne hm hne⟩
  have h := change_newGroup (s := s) (fun _ => c) (.inl rfl) hm fun m hm => .inl (hc.known hm)
  rw [show max s.groupCount (s.groupCount + 1) = s.groupCount + 1 by omega] at h
  exact h

/-- The group of that name, if there is one. -/
def findGroup (s : Pprd) (n : String) : Option ℕ :=
  (List.range s.groupCount).find? fun x => (s.groups x).deleted = false ∧ (s.groups x).name = n

theorem findGroup_eq_some {s : Pprd} {n : String} {g : ℕ} (h : findGroup s n = some g) :
    g < s.groupCount ∧ (s.groups g).deleted = false ∧ (s.groups g).name = n := by
  have hg := List.find?_some h
  simp only [decide_eq_true_eq] at hg
  exact ⟨List.mem_range.1 (List.mem_of_find?_eq_some h), hg⟩

/-- The slot a new group takes. -/
def freeGroup (s : Pprd) : ℕ :=
  ((List.range s.groupCount).find? fun x => (s.groups x).deleted).getD s.groupCount

theorem freeGroup_cases (s : Pprd) :
    freeGroup s = s.groupCount ∨ freeGroup s < s.groupCount ∧ (s.groups (freeGroup s)).deleted := by
  unfold freeGroup
  cases h : (List.range s.groupCount).find? fun x => (s.groups x).deleted with
  | none => exact .inl rfl
  | some p =>
    exact .inr ⟨List.mem_range.1 (List.mem_of_find?_eq_some h), by simpa using List.find?_some h⟩

/-- The slot `new_group_config()` uses. -/
def groupSlot (s : Pprd) (n : String) : ℕ := (findGroup s n).getD (freeGroup s)

theorem groupSlot_le (s : Pprd) (n : String) : groupSlot s n ≤ s.groupCount := by
  unfold groupSlot
  cases h : findGroup s n with
  | none => exact (freeGroup_cases s).elim le_of_eq fun h => le_of_lt h.1
  | some g => exact le_of_lt (findGroup_eq_some h).1

/-- `new_group_config()` with the slot it uses. -/
theorem newGroupConfig_eq (os : ℕ → Bool) (s : Pprd) (n : String) (conf : Option GroupConf) :
    newGroupConfig os s n conf =
      (let x := groupSlot s n
      if x = maxGroups then .ok (withGroup s x)
      else if x > maxGroups then .error .wildIndex
      else match conf with
        | none =>
          if (findGroup s n).isSome then
            .ok ((withGroup s x).modifyGroup x fun c => { c with deleted := true })
          else .ok (withGroup s x)
        | some conf => do
          let s ← loadGroup (withGroup s x) x n conf
          let s := forJobsOf (destidByGindex x) resetGroupJob s
          groupLookForWork os s s.queue.length) := by
  have hx : ((findGroup s n).or ((List.range s.groupCount).find? fun x => (s.groups x).deleted)).getD
      s.groupCount = groupSlot s n := by
    unfold groupSlot freeGroup
    cases findGroup s n <;> rfl
  have hs : (if groupSlot s n = s.groupCount then { s with groupCount := groupSlot s n + 1 }
      else s) = withGroup s (groupSlot s n) := by
    have := groupSlot_le s n
    unfold withGroup
    split_ifs with h
    · simp [h]
    · have : max s.groupCount (groupSlot s n + 1) = s.groupCount := by omega
      rw [this]
  dsimp only
  rw [← hs, ← hx]
  rfl

theorem withGroup_of_lt {s : Pprd} {g : ℕ} (h : g < s.groupCount) : withGroup s g = s := by
  have : max s.groupCount (g + 1) = s.groupCount := by omega
  rw [withGroup, this]

theorem frame_resetGroupJob (s : Pprd) (x : ℕ) : Frame s (resetGroupJob s x) :=
  (frame_mediaSetNotnowForJob s x).trans
    (frame_modifyJob _ x fun _ => ⟨rfl, rfl, rfl, rfl, .inl rfl⟩)

/-- What `new_group_config()` does. -/
theorem newGroupConfig_ensures (s : Pprd) (n : String) (conf : Option GroupConf) :
    Ensures (newGroupConfig os s n conf) fun t =>
      groupSlot s n = maxGroups ∧ t = withGroup s (groupSlot s n) ∨ groupSlot s n < maxGroups ∧
        match conf with
        | none =>
          if (findGroup s n).isSome then
            t = s.modifyGroup (groupSlot s n) fun c => { c with deleted := true }
          else t = withGroup s (groupSlot s n)
        | some conf => ∃ c : Group, c.name = n ∧ c.deleted = false ∧
            conf.Fits s.printerCount c.printers c.rotate ∧
            Starts ((withGroup s (groupSlot s n)).modifyGroup (groupSlot s n) fun _ => c) t := by
  rw [newGroupConfig_eq]
  dsimp only
  refine ensures_ite (fun h => ensures_ok (.inl ⟨h, rfl⟩)) fun hne => ensures_ite
    (fun _ => ensures_error) fun h => ?_
  have hlt : groupSlot s n < maxGroups := by omega
  cases conf with
  | none =>
    refine ensures_ite (fun hf => ensures_ok (.inr ⟨hlt, ?_⟩)) fun hf =>
      ensures_ok (.inr ⟨hlt, ?_⟩)
    · obtain ⟨g, hg⟩ := Option.isSome_iff_exists.1 hf
      have hx : groupSlot s n = g := by simp [groupSlot, hg]
      simp only [hf, if_true]
      rw [withGroup_of_lt (hx ▸ (findGroup_eq_some hg).1)]
    · change if _ then _ else _
      rw [if_neg hf]
  | some conf =>
    refine Ensures.bind (loadGroup_ensures _ _ n conf) ?_
    rintro t ⟨c, hcn, hcd, hc, rfl⟩
    refine (groupLookForWork_starts _ _).mono fun u hu => .inr ⟨hlt, c, hcn, hcd, hc, ?_⟩
    exact (Starts.of_frame (frame_forJobsOf (destidByGindex (groupSlot s n)) frame_resetGroupJob
      _)).trans hu

theorem newGroupConfig_acts (hK : Base K) {s : Pprd} {n : String} {conf : Option GroupConf}
    (hP : ∀ c : GroupCore, findGroup s n = none → freeGroup s = s.groupCount ∨ conf.isSome →
      K (.newGroup (freeGroup s) c) s) (hG : ∀ g c s, K (.group g c) s) :
    Ensures (newGroupConfig os s n conf) (Acts K s) := by
  -- What is done first, to a new slot or to the group's own.
  have new : ∀ (f : Group → Group), groupSlot s n ≤ maxGroups →
      (∀ m ∈ (f (s.groups (groupSlot s n))).printers,
        m < s.printerCount ∨ m ∈ (s.groups (groupSlot s n)).printers) →
      (findGroup s n = some (groupSlot s n) → (f (s.groups (groupSlot s n))).name = n) →
      (findGroup s n = none → freeGroup s = s.groupCount ∨ conf.isSome) →
      Acts K s ((withGroup s (groupSlot s n)).modifyGroup (groupSlot s n) f) := by
    intro f hm hf hn hs
    cases h : findGroup s n with
    | none =>
      have hx : groupSlot s n = freeGroup s := by simp [groupSlot, h]
      rw [hx] at hm hf ⊢
      exact Trail.single (hP _ h (hs h)) (change_newGroup f (freeGroup_cases s) hm hf)
    | some g =>
      have hx : groupSlot s n = g := by simp [groupSlot, h]
      obtain ⟨hg, hlive, hname⟩ := findGroup_eq_some h
      rw [hx] at hf hn ⊢
      rw [withGroup_of_lt hg]
      exact Trail.single (hG _ _ _)
        (change_group f hg hf ((hn h).trans hname.symm) (by simp [hlive]))
  have hname : findGroup s n = some (groupSlot s n) → (s.groups (groupSlot s n)).name = n :=
    fun h => (findGroup_eq_some h).2.2
  have same : groupSlot s n ≤ maxGroups → Acts K s (withGroup s (groupSlot s n)) := by
    intro hm
    rcases (groupSlot_le s n).lt_or_eq with hlt | heq
    · rw [withGroup_of_lt hlt]
      exact .refl s
    · have h := new id hm (fun m hm => .inr hm) hname fun hnone => .inl (by
        rw [← heq, groupSlot, hnone]
        rfl)
      have he : (withGroup s (groupSlot s n)).modifyGroup (groupSlot s n) id =
          withGroup s (groupSlot s n) := by
        simp [Pprd.modifyGroup, withGroup]
      exact he ▸ h
  intro t ht
  rcases newGroupConfig_ensures s n conf t ht with ⟨h, rfl⟩ | ⟨h, ht⟩
  · exact same h.le
  cases conf with
  | none =>
    simp only at ht
    split_ifs at ht with hf
    · obtain ⟨g, hg⟩ := Option.isSome_iff_exists.1 hf
      have hx : groupSlot s n = g := by simp [groupSlot, hg]
      have hlt : groupSlot s n < s.groupCount := hx ▸ (findGroup_eq_some hg).1
      have h := new (fun c => { c with deleted := true }) h.le (fun m hm => .inr hm) hname
        fun hn => by simp [hn] at hf
      rw [withGroup_of_lt hlt] at h
      exact ht ▸ h
    · exact ht ▸ same h.le
  | some conf =>
    obtain ⟨c, hcn, -, hc, ht⟩ := ht
    exact (new (fun _ => c) h.le (fun m hm => .inl (hc.known hm)) (fun _ => hcn)
      fun _ => .inr rfl).trans (ht.acts hK)

end Ppr
