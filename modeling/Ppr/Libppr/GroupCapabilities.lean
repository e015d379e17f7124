import Ppr.Lib.Outcome
import Ppr.Libppr.QueueInfo

/-!
# What all printers of a group can do

The queries about a group of printers answer with what its weakest member can do.  The level comes
from the member with the oldest interpreter, and a resolution of 0 is taken for one that has not been
found yet: `lowestCommon_iff` says for which groups that makes no difference.
-/

namespace Ppr.Queueinfo

open Outcome

/-! ## The weakest member -/

/-- The least value that a printer has; `none` if there is none for one of them. -/
def weakest (attr : PrinterInfo → Option ℤ) (pips : List PrinterInfo) : Option ℤ :=
  if pips.all fun pip => (attr pip).isSome then (pips.filterMap attr).min? else none

/-- The language level. -/
def levelOf (pip : PrinterInfo) : Option ℤ := pip.ppd.map (·.psLanguageLevel)

/-- The free memory. -/
def freeVMOf (pip : PrinterInfo) : Option ℤ := (pip.ppd.map (·.psFreeVM)).filter (· ≠ 0)

/-- The resolution number. -/
def resolutionOf (pip : PrinterInfo) : Option ℤ := (pip.ppd.bind (·.resolution)).map atoi

/-- All printers have the same value. -/
def AllAgree (attr : PrinterInfo → Option (List Byte)) (pips : List PrinterInfo)
    (value : List Byte) : Prop :=
  pips ≠ [] ∧ ∀ pip ∈ pips, attr pip = some value

/-- The answers are what the weakest member can do, and what all agree on. -/
structure QueueInfo.LowestCommon (qip : QueueInfo) : Prop where
  level : qip.psLanguageLevel = (weakest levelOf qip.printers).getD 0
  freeVM : qip.psFreeVM = (weakest freeVMOf qip.printers).getD 0
  resolution : qip.resolution.map atoi = weakest resolutionOf qip.printers
  fonts_nodup : qip.fonts.Nodup
  mem_fonts : ∀ name, name ∈ qip.fonts ↔ qip.printers ≠ [] ∧ ∀ pip ∈ qip.printers, pip.hasFont name = true
  color : qip.colorDevice = true ↔ qip.printers ≠ [] ∧ ∀ pip ∈ qip.printers, pip.ppd.any (·.colorDevice) = true
  product : ∀ v, qip.product = some v ↔ AllAgree (fun pip => pip.ppd.bind (·.product)) qip.printers v
  ppdFile : ∀ v, qip.ppdFile = some v ↔ AllAgree (·.ppdFile) qip.printers v
  faxSupport : ∀ v, qip.faxSupport = some v ↔
    AllAgree (fun pip => pip.ppd.bind (·.faxSupport)) qip.printers v
  ttRasterizer : ∀ v, qip.ttRasterizer = some v ↔
    AllAgree (fun pip => pip.ppd.bind (·.ttRasterizer)) qip.printers v

/-- Two groups get the same answers, except for the order of the fonts. -/
structure QueueInfo.SameAnswers (p q : QueueInfo) : Prop where
  level : p.psLanguageLevel = q.psLanguageLevel
  freeVM : p.psFreeVM = q.psFreeVM
  resolution : p.resolution.map atoi = q.resolution.map atoi
  fonts : p.fonts.Perm q.fonts
  color : p.colorDevice = q.colorDevice
  product : p.product = q.product
  ppdFile : p.ppdFile = q.ppdFile
  faxSupport : p.faxSupport = q.faxSupport
  ttRasterizer : p.ttRasterizer = q.ttRasterizer

/-- The fonts have not been looked for. -/
structure QueueInfo.Fresh (qip : QueueInfo) : Prop where
  notFound : qip.commonFontsFound = false
  noFonts : qip.fontlist = []

/-- The printers have a PPD file each, and the level of every one with the oldest interpreter is the
lowest; or it is 0, if there is an interpreter without a version. -/
def LevelByVersion (ppds : List PpdInfo) : Prop :=
  (∀ a ∈ ppds, a.psVersion ≠ 0) ∧
      (∀ a ∈ ppds, (∀ b ∈ ppds, ¬b.older a) → ∀ b ∈ ppds, a.psLanguageLevel ≤ b.psLanguageLevel) ∨
    (∃ a ∈ ppds, a.psVersion = 0) ∧ (∃ a ∈ ppds, a.psLanguageLevel = 0) ∧
      ∀ a ∈ ppds, 0 ≤ a.psLanguageLevel

/-- The resolution numbers are all 0, or none is, or there is one below. -/
def ResolutionByNumber (resolutions : List ℤ) : Prop :=
  (∀ n ∈ resolutions, n = 0) ∨ (∀ n ∈ resolutions, n ≠ 0) ∨ ∃ n ∈ resolutions, n < 0

/-! ## Loading -/

namespace QueueInfo

variable {qip : QueueInfo}

/-- Nothing that is loaded touches the list of fonts. -/
theorem Fresh.printerLine (h : qip.Fresh) (depth : ℕ) (l : PrinterLine) :
    (qip.printerLine depth l).Fresh := by
  unfold QueueInfo.printerLine
  split <;> (try split_ifs) <;> exact ⟨h.notFound, h.noFonts⟩

theorem Fresh.doPrinter (h : qip.Fresh) (env : Setting) (name : List Byte) (depth : ℕ) :
    Ensures (qip.doPrinter env name depth) fun r => ∀ q ∈ r, q.Fresh := by
  rw [QueueInfo.doPrinter]
  cases env.files.printers name with
  | none => exact ensures_ok nofun
  | some text =>
    have hlines : ((printerLines text).foldl (QueueInfo.printerLine depth) qip).Fresh :=
      List.foldlRecOn _ _ h fun q hq l _ => hq.printerLine depth l
    dsimp only
    cases loadPrinter env.files.ppd env.decoder _ name depth text _ with
    | none => exact ensures_error
    | some pip =>
      refine ensures_ok fun q hq => ?_
      cases hq
      exact ⟨hlines.notFound, hlines.noFonts⟩

theorem Fresh.doGroup (h : qip.Fresh) (env : Setting) (name : List Byte) (depth : ℕ) :
    Ensures (qip.doGroup env name depth) fun r => ∀ q ∈ r, q.Fresh := by
  rw [QueueInfo.doGroup]
  cases env.files.groups name with
  | none => exact ensures_ok nofun
  | some text =>
    refine Ensures.bind (ensures_foldlM (fun q l _ hq => ?_) h) fun q hq => ?_
    · cases l with
      | printer p =>
        refine (hq.doPrinter env p (depth + 1)).bind fun r hr => ensures_ok ?_
        cases r with
        | none => exact hq
        | some q => exact hr q rfl
      | comment p =>
        refine ensures_ok ?_
        split_ifs
        · exact ⟨hq.notFound, hq.noFonts⟩
        · exact hq
      | passThru p => exact ensures_ok ⟨hq.notFound, hq.noFonts⟩
      | switchset p => exact ensures_ok ⟨hq.notFound, hq.noFonts⟩
      | forWhat p => exact ensures_ok hq
    · refine ensures_ok fun q' hq' => ?_
      cases hq'
      exact ⟨hq.notFound, hq.noFonts⟩

theorem Fresh.doAlias (h : qip.Fresh) (env : Setting) :
    Ensures (qip.doAlias env) fun r => ∀ q ∈ r, q.Fresh := by
  rw [QueueInfo.doAlias]
  cases env.files.aliases qip.name with
  | none => exact ensures_ok nofun
  | some text =>
    refine Ensures.bind (ensures_foldlM (fun q l _ hq => ?_) h) fun q hq => ensures_ok fun q' hq' => ?_
    · cases l with
      | forWhat p =>
        refine (hq.doGroup env p 1).bind fun r hr => ?_
        cases r with
        | some q => exact ensures_ok (hr q rfl)
        | none =>
          refine (hq.doPrinter env p 1).bind fun r hr => ?_
          cases r with
          | some q => exact ensures_ok (hr q rfl)
          | none => exact ensures_error
      | comment p => exact ensures_ok ⟨hq.notFound, hq.noFonts⟩
      | passThru p => exact ensures_ok ⟨hq.notFound, hq.noFonts⟩
      | switchset p => exact ensures_ok ⟨hq.notFound, hq.noFonts⟩
      | printer p => exact ensures_ok hq
    · cases hq'
      exact hq

theorem Fresh.loaded {attempt : Except Unloaded (Option QueueInfo)} {next : Except Unloaded QueueInfo}
    (ha : Ensures attempt fun r => ∀ q ∈ r, q.Fresh) (hn : Ensures next Fresh) :
    Ensures (loaded attempt next) Fresh := by
  refine ha.bind fun r hr => ?_
  cases r with
  | none => exact hn
  | some q => exact ensures_ok (hr q rfl)

/-- In an object that has just been loaded the fonts have not been looked for. -/
theorem fresh_newLoadConfig (env : Setting) (qit : QueueinfoType) (name : List Byte) :
    Ensures (newLoadConfig env qit name) Fresh := by
  have hnew : ({ name := name } : QueueInfo).Fresh := ⟨rfl, rfl⟩
  match qit with
  | .search =>
    exact .loaded (hnew.doAlias env) <| .loaded (hnew.doGroup env name 0) <|
      .loaded (hnew.doPrinter env name 0) ensures_error
  | .alias => exact .loaded (hnew.doAlias env) ensures_error
  | .group => exact .loaded (hnew.doGroup env name 0) ensures_error
  | .printer => exact .loaded (hnew.doPrinter env name 0) ensures_error

end QueueInfo

/-! ## Weakest members -/

section weakest

variable {attr : PrinterInfo → Option ℤ} {pips : List PrinterInfo}

theorem weakest_of_none (h : ∃ pip ∈ pips, attr pip = none) : weakest attr pips = none := by
  obtain ⟨pip, hp, hn⟩ := h
  refine if_neg fun hall => ?_
  have := List.all_eq_true.1 hall pip hp
  rw [hn] at this
  cases this

theorem weakest_of_some (h : ∀ pip ∈ pips, attr pip ≠ none) :
    weakest attr pips = (pips.filterMap attr).min? :=
  if_pos (List.all_eq_true.2 fun pip hp => Option.isSome_iff_ne_none.2 (h pip hp))

theorem min?_perm {l l' : List ℤ} (h : l.Perm l') : l.min? = l'.min? := by
  ext x
  simp only [List.min?_eq_some_iff, h.mem_iff]

theorem weakest_perm {pips' : List PrinterInfo} (h : pips.Perm pips') :
    weakest attr pips = weakest attr pips' := by
  have hall : (∀ pip ∈ pips, attr pip ≠ none) ↔ ∀ pip ∈ pips', attr pip ≠ none := by
    simp only [h.mem_iff]
  by_cases hs : ∀ pip ∈ pips, attr pip ≠ none
  · rw [weakest_of_some hs, weakest_of_some (hall.1 hs)]
    exact min?_perm (h.filterMap attr)
  · have hs' : ¬∀ pip ∈ pips', attr pip ≠ none := fun h' => hs (hall.2 h')
    push Not at hs hs'
    rw [weakest_of_none hs, weakest_of_none hs']

end weakest

/-! ## Lowest numbers, where 0 is not set yet -/

/-- A round of the loops over numbers. -/
def lowered (lowest n : ℤ) : ℤ := if lowest = 0 ∨ n < lowest then n else lowest

theorem lowered_of_ne {lowest : ℤ} (h : lowest ≠ 0) (n : ℤ) : lowered lowest n = min lowest n := by
  unfold lowered
  split_ifs <;> omega

theorem foldl_lowered_of_ne {ns : List ℤ} (hns : ∀ n ∈ ns, n ≠ 0) :
    ∀ {lowest : ℤ}, lowest ≠ 0 → ns.foldl lowered lowest = ns.foldl min lowest := by
  induction ns with
  | nil => exact fun _ => rfl
  | cons n ns ih =>
    intro lowest hl
    have hn := hns n List.mem_cons_self
    have hmin : min lowest n ≠ 0 := by omega
    rw [List.foldl_cons, List.foldl_cons, lowered_of_ne hl]
    exact ih (fun m hm => hns m (List.mem_cons_of_mem n hm)) hmin

/-- Where no number is 0, the loop finds the least. -/
theorem min?_of_ne {ns : List ℤ} (hns : ∀ n ∈ ns, n ≠ 0) : ns.min?.getD 0 = ns.foldl lowered 0 := by
  cases ns with
  | nil => rfl
  | cons n ns =>
    have hn := hns n List.mem_cons_self
    have hfirst : lowered 0 n = n := if_pos (.inl rfl)
    rw [List.min?_cons', List.foldl_cons, hfirst,
      foldl_lowered_of_ne (fun m hm => hns m (List.mem_cons_of_mem n hm)) hn]
    rfl

theorem min_foldl_lowered (ns : List ℤ) :
    ∀ lowest : ℤ, min 0 (ns.foldl lowered lowest) = ns.foldl min (min 0 lowest) := by
  induction ns with
  | nil => exact fun _ => rfl
  | cons n ns ih =>
    intro lowest
    have hstep : min 0 (lowered lowest n) = min (min 0 lowest) n := by
      unfold lowered
      split_ifs <;> omega
    rw [List.foldl_cons, List.foldl_cons, ih, hstep]

theorem foldl_min_le (ns : List ℤ) : ∀ m : ℤ, ns.foldl min m ≤ m ∧ ∀ n ∈ ns, ns.foldl min m ≤ n := by
  induction ns with
  | nil => exact fun m => ⟨le_refl m, fun n hn => nomatch hn⟩
  | cons a ns ih =>
    intro m
    obtain ⟨hm, hns⟩ := ih (min m a)
    refine ⟨hm.trans (min_le_left m a), fun n hn => ?_⟩
    rcases List.mem_cons.1 hn with rfl | hn
    · exact hm.trans (min_le_right m n)
    · exact hns n hn

/-- Where there is a number below 0, the loop finds the least. -/
theorem min?_of_neg {ns : List ℤ} (h : ∃ n ∈ ns, n < 0) : ns.min?.getD 0 = ns.foldl lowered 0 := by
  obtain ⟨n, hn, hneg⟩ := h
  have hmin := min_foldl_lowered ns 0
  have hle := (foldl_min_le ns 0).2 n hn
  cases ns with
  | nil => cases hn
  | cons a ns =>
    have hcomm : (a :: ns).foldl min 0 = min 0 (ns.foldl min a) := by
      rw [List.foldl_cons, List.foldl_assoc]
    rw [List.min?_cons', Option.getD_some]
    rw [min_self, hcomm] at hmin
    rw [hcomm] at hle
    omega

theorem foldl_lowered_nonneg {ns : List ℤ} (h : ∀ n ∈ ns, 0 ≤ n) : 0 ≤ ns.foldl lowered 0 := by
  have hmin := min_foldl_lowered ns 0
  have hge : ∀ {ns : List ℤ}, (∀ n ∈ ns, 0 ≤ n) → ns.foldl min 0 = 0 := by
    intro ns h
    induction ns with
    | nil => rfl
    | cons a ns ih =>
      rw [List.foldl_cons, min_eq_left (h a List.mem_cons_self)]
      exact ih fun n hn => h n (List.mem_cons_of_mem a hn)
  rw [min_self, hge h] at hmin
  omega


theorem min?_eq_lowered {ns : List ℤ} (hne : ns ≠ []) (h : ResolutionByNumber ns) :
    ns.min? = some (ns.foldl lowered 0) := by
  have hmin : ns.min?.getD 0 = ns.foldl lowered 0 := by
    rcases h with hzero | hnz | hneg
    · have hfold : ns.foldl lowered 0 = 0 := by
        clear hne
        induction ns with
        | nil => rfl
        | cons n ns ih =>
          obtain ⟨rfl, hns⟩ := List.forall_mem_cons.1 hzero
          exact ih hns
      obtain ⟨n, ns, rfl⟩ := List.exists_cons_of_ne_nil hne
      have hsome : (n :: ns).min? = some 0 := List.min?_eq_some_iff.2
        ⟨hzero n List.mem_cons_self ▸ List.mem_cons_self, fun m hm => (hzero m hm).ge⟩
      rw [hsome, hfold]
      rfl
    · exact min?_of_ne hnz
    · exact min?_of_neg hneg
  cases hm : ns.min? with
  | none => exact absurd (List.min?_eq_none_iff.1 hm) hne
  | some m =>
    rw [hm] at hmin
    exact congrArg some hmin

/-! ## The queries -/

namespace QueueInfo

section loops

variable {pips : List PrinterInfo}

theorem freeVMLoop_eq (h : ∀ pip ∈ pips, freeVMOf pip ≠ none) :
    ∀ lowest, freeVMLoop lowest pips = (pips.filterMap freeVMOf).foldl lowered lowest := by
  induction pips with
  | nil => exact fun _ => rfl
  | cons pip pips ih =>
    intro lowest
    have hpip := h pip List.mem_cons_self
    have ih := ih fun p hp => h p (List.mem_cons_of_mem pip hp)
    unfold freeVMOf at hpip
    cases hppd : pip.ppd with
    | none => simp [hppd] at hpip
    | some ppd =>
      have hne : ppd.psFreeVM ≠ 0 := by simpa [hppd] using hpip
      have hof : freeVMOf pip = some ppd.psFreeVM := by simp [freeVMOf, hppd, hne]
      rw [freeVMLoop, hppd, List.filterMap_cons_some hof, List.foldl_cons]
      dsimp only
      rw [if_neg hne, ih]
      rfl

theorem freeVMLoop_none (h : ∃ pip ∈ pips, freeVMOf pip = none) :
    ∀ lowest, freeVMLoop lowest pips = 0 := by
  induction pips with
  | nil => simp at h
  | cons pip pips ih =>
    intro lowest
    rw [freeVMLoop]
    cases hppd : pip.ppd with
    | none => rfl
    | some ppd =>
      dsimp only
      split_ifs with hz hlow
      · rfl
      all_goals
        obtain ⟨p, hp, hn⟩ := h
        rcases List.mem_cons.1 hp with rfl | hp
        · simp [freeVMOf, hppd, hz] at hn
        · exact ih ⟨p, hp, hn⟩ _

theorem psFreeVM_eq (qip : QueueInfo) : qip.psFreeVM = (weakest freeVMOf qip.printers).getD 0 := by
  by_cases h : ∀ pip ∈ qip.printers, freeVMOf pip ≠ none
  · have hne : ∀ n ∈ qip.printers.filterMap freeVMOf, n ≠ 0 := by
      intro n hn
      obtain ⟨pip, -, hp⟩ := List.mem_filterMap.1 hn
      simpa using (Option.filter_eq_some_iff.1 hp).2
    rw [psFreeVM, freeVMLoop_eq h, weakest_of_some h, min?_of_ne hne]
  · push Not at h
    rw [psFreeVM, freeVMLoop_none h, weakest_of_none h]
    rfl

/-- A string and its number. -/
def Numbered (lowest : ℤ × Option (List Byte)) : Prop := ∀ s ∈ lowest.2, lowest.1 = atoi s

theorem resolutionLoop_eq (h : ∀ pip ∈ pips, resolutionOf pip ≠ none) :
    ∀ lowest : ℤ × Option (List Byte), Numbered lowest → (lowest.2 = none → lowest.1 = 0) →
      (resolutionLoop lowest pips).map atoi =
        if lowest.2 = none ∧ pips = [] then none
        else some ((pips.filterMap resolutionOf).foldl lowered lowest.1) := by
  induction pips with
  | nil =>
    intro lowest hnum _
    rw [resolutionLoop]
    cases hl : lowest.2 with
    | none => simp
    | some s => simp [hnum s hl]
  | cons pip pips ih =>
    intro lowest hnum hnone
    have hpip := h pip List.mem_cons_self
    have ih := ih fun p hp => h p (List.mem_cons_of_mem pip hp)
    cases hr : pip.ppd.bind (·.resolution) with
    | none => simp [resolutionOf, hr] at hpip
    | some s =>
      have hof : resolutionOf pip = some (atoi s) := by simp [resolutionOf, hr]
      rw [resolutionLoop, hr, List.filterMap_cons_some hof, List.foldl_cons, if_neg (by simp)]
      dsimp only
      unfold lowered
      split_ifs with hlow
      · rw [ih _ (fun t ht => by cases ht; rfl) (by simp), if_neg (by simp)]
        rfl
      · have hset : lowest.2 ≠ none := fun hn => hlow (.inl (hnone hn))
        rw [ih _ hnum hnone, if_neg (by simp [hset])]
        rfl

theorem resolutionLoop_none (h : ∃ pip ∈ pips, resolutionOf pip = none) :
    ∀ lowest, resolutionLoop lowest pips = none := by
  induction pips with
  | nil => simp at h
  | cons pip pips ih =>
    intro lowest
    rw [resolutionLoop]
    cases hr : pip.ppd.bind (·.resolution) with
    | none => rfl
    | some s =>
      obtain ⟨p, hp, hn⟩ := h
      rcases List.mem_cons.1 hp with rfl | hp
      · simp [resolutionOf, hr] at hn
      · exact ih ⟨p, hp, hn⟩ _

/-- The number of the resolution that is reported. -/
theorem resolution_eq (qip : QueueInfo) (h : ∀ pip ∈ qip.printers, resolutionOf pip ≠ none) :
    qip.resolution.map atoi = if qip.printers = [] then none
      else some ((qip.printers.filterMap resolutionOf).foldl lowered 0) := by
  rw [resolution, resolutionLoop_eq h _ (fun s hs => by cases hs) fun _ => rfl]
  simp

theorem agreedLoop_some {attr : PrinterInfo → Option (List Byte)} {a v : List Byte} :
    agreedLoop attr (some a) pips = some v ↔ a = v ∧ ∀ pip ∈ pips, attr pip = some v := by
  induction pips with
  | nil => simp [agreedLoop]
  | cons pip pips ih =>
    rw [agreedLoop.eq_def]
    cases hp : attr pip with
    | none => simp [hp]
    | some b =>
      simp only [hp]
      split_ifs with hab
      · rw [ih]
        constructor
        · rintro ⟨rfl, h⟩
          exact ⟨rfl, List.forall_mem_cons.2 ⟨hp.trans (by rw [hab]), h⟩⟩
        · rintro ⟨rfl, h⟩
          exact ⟨rfl, (List.forall_mem_cons.1 h).2⟩
      · refine iff_of_false nofun ?_
        rintro ⟨rfl, h⟩
        have := (List.forall_mem_cons.1 h).1
        rw [hp] at this
        exact hab (Option.some.inj this).symm

theorem agreed_eq_some_iff {attr : PrinterInfo → Option (List Byte)} {qip : QueueInfo} {v : List Byte} :
    agreed attr qip = some v ↔ AllAgree attr qip.printers v := by
  unfold agreed AllAgree
  cases qip.printers with
  | nil => simp [agreedLoop]
  | cons pip pips =>
    rw [agreedLoop.eq_def]
    cases hp : attr pip with
    | none => simp [hp]
    | some a =>
      simp only [hp]
      rw [agreedLoop_some]
      constructor
      · rintro ⟨rfl, h⟩
        exact ⟨List.cons_ne_nil _ _, List.forall_mem_cons.2 ⟨hp, h⟩⟩
      · rintro ⟨-, h⟩
        obtain ⟨hpip, hpips⟩ := List.forall_mem_cons.1 h
        exact ⟨Option.some.inj (hp.symm.trans hpip), hpips⟩

theorem everyLoop_eq {can : PpdInfo → Bool} :
    ∀ answer, everyLoop can answer pips = true ↔
      (pips = [] → answer = true) ∧ ∀ pip ∈ pips, pip.ppd.any can = true := by
  induction pips with
  | nil => simp [everyLoop]
  | cons pip pips ih =>
    intro answer
    rw [everyLoop]
    split_ifs with h
    · simp [ih, h]
    · simp [h]

theorem colorDevice_iff (qip : QueueInfo) : qip.colorDevice = true ↔
    qip.printers ≠ [] ∧ ∀ pip ∈ qip.printers, pip.ppd.any (·.colorDevice) = true := by
  rw [colorDevice, everyLoop_eq]
  simp

theorem commonFontsLoop_eq (others : List PrinterInfo) (c : Chained.Table.Cursor (List Byte) Unit) :
    commonFontsLoop others c = c.rest.filter fun name => others.all (·.hasFont name) := by
  fun_induction commonFontsLoop others c with
  | case1 c h =>
    rw [c.rest_eq, h]
    rfl
  | case2 c name c' h hall ih =>
    rw [c.rest_eq, h]
    exact (congrArg _ ih).trans (List.filter_cons_of_pos (p := fun n => others.all (·.hasFont n)) hall).symm
  | case3 c name c' h hall ih =>
    rw [c.rest_eq, h]
    exact ih.trans (List.filter_cons_of_neg (p := fun n => others.all (·.hasFont n)) hall).symm

end loops

theorem Fresh.fonts {qip : QueueInfo} (h : qip.Fresh) :
    qip.fonts =
      match qip.printers with
      | [] => []
      | pip :: others =>
        match pip.ppd with
        | none => []
        | some ppd => ppd.fonts.keys.filter fun name => others.all (·.hasFont name) := by
  rw [QueueInfo.fonts, findCommonFonts, h.notFound, if_neg Bool.false_ne_true]
  dsimp only
  rw [h.noFonts, List.nil_append]
  cases qip.printers with
  | nil => rfl
  | cons pip others =>
    dsimp only
    cases pip.ppd with
    | none => rfl
    | some ppd =>
      dsimp only
      rw [commonFontsLoop_eq, Chained.Table.rest_rewind]

theorem Fresh.fonts_nodup {qip : QueueInfo} (h : qip.Fresh) : qip.fonts.Nodup := by
  rw [h.fonts]
  split
  · exact List.nodup_nil
  · split
    · exact List.nodup_nil
    · exact (Chained.Table.nodup_keys _).filter _

theorem Fresh.mem_fonts {qip : QueueInfo} (h : qip.Fresh) (name : List Byte) :
    name ∈ qip.fonts ↔ qip.printers ≠ [] ∧ ∀ pip ∈ qip.printers, pip.hasFont name = true := by
  rw [h.fonts]
  cases qip.printers with
  | nil => simp
  | cons pip others =>
    dsimp only
    cases hppd : pip.ppd with
    | none => simp [PrinterInfo.hasFont, hppd]
    | some ppd => simp [PrinterInfo.hasFont, hppd, Chained.Table.mem_keys]

end QueueInfo

/-! ## The level -/

/-- What `find_lowest_version()` compares. -/
def PpdInfo.age (ppd : PpdInfo) : ℚ ×ₗ ℤ := toLex (ppd.psVersion, ppd.psRevision)

theorem PpdInfo.older_iff {a b : PpdInfo} : a.older b ↔ a.age < b.age := by
  rw [PpdInfo.age, PpdInfo.age, Prod.Lex.toLex_lt_toLex]
  rfl

namespace QueueInfo

variable {pips : List PrinterInfo}

/-- The PPD files of the printers. -/
def ppds (pips : List PrinterInfo) : List PpdInfo := pips.filterMap (·.ppd)

/-- With a version for each, the loop finds the first of those with the oldest interpreter. -/
theorem lowestVersionLoop_eq (h : ∀ pip ∈ pips, ∃ ppd, pip.ppd = some ppd ∧ ppd.psVersion ≠ 0) :
    ∀ lowest, lowestVersionLoop lowest pips =
      (ppds pips).foldl (List.argAux fun b c => b.age < c.age) lowest := by
  induction pips with
  | nil => exact fun _ => rfl
  | cons pip pips ih =>
    intro lowest
    obtain ⟨⟨ppd, hppd, hne⟩, hpips⟩ := List.forall_mem_cons.1 h
    rw [lowestVersionLoop.eq_def]
    simp only [hppd, if_neg hne]
    rw [ppds, List.filterMap_cons_some hppd, List.foldl_cons]
    cases lowest with
    | none => exact ih hpips _
    | some l =>
      simp only [ih hpips, List.argAux, PpdInfo.older_iff, apply_ite some]
      rfl

theorem findLowestVersion_eq {qip : QueueInfo}
    (h : ∀ pip ∈ qip.printers, ∃ ppd, pip.ppd = some ppd ∧ ppd.psVersion ≠ 0) :
    qip.findLowestVersion = (ppds qip.printers).argmin PpdInfo.age :=
  lowestVersionLoop_eq h none

theorem lowestVersionLoop_none (h : ∃ pip ∈ pips, ∀ ppd, pip.ppd = some ppd → ppd.psVersion = 0) :
    ∀ lowest, lowestVersionLoop lowest pips = none := by
  induction pips with
  | nil => simp at h
  | cons pip pips ih =>
    intro lowest
    rw [lowestVersionLoop.eq_def]
    cases hppd : pip.ppd with
    | none => simp only [hppd]
    | some ppd =>
      simp only [hppd]
      split_ifs with hz
      · rfl
      · have hpips : ∃ pip ∈ pips, ∀ ppd, pip.ppd = some ppd → ppd.psVersion = 0 := by
          obtain ⟨p, hp, hn⟩ := h
          rcases List.mem_cons.1 hp with rfl | hp
          · exact absurd (hn ppd hppd) hz
          · exact ⟨p, hp, hn⟩
        cases lowest <;> exact ih hpips _

theorem psLanguageLevel_none {qip : QueueInfo}
    (h : ∃ pip ∈ qip.printers, ∀ ppd, pip.ppd = some ppd → ppd.psVersion = 0) :
    qip.psLanguageLevel = 0 := by
  rw [psLanguageLevel, findLowestVersion, lowestVersionLoop_none h]

theorem weakest_levelOf (h : ∀ pip ∈ pips, pip.ppd ≠ none) :
    weakest levelOf pips = ((ppds pips).map (·.psLanguageLevel)).min? := by
  have hlevel : ∀ pip ∈ pips, levelOf pip ≠ none := fun pip hp hn => h pip hp (Option.map_eq_none_iff.1 hn)
  rw [weakest_of_some hlevel, ppds, List.map_filterMap]
  rfl

theorem level_of_levelByVersion {qip : QueueInfo} (h : ∀ pip ∈ qip.printers, pip.ppd ≠ none)
    (hlevel : LevelByVersion (ppds qip.printers)) :
    qip.psLanguageLevel = (weakest levelOf qip.printers).getD 0 := by
  rw [weakest_levelOf h]
  rcases hlevel with ⟨hversion, holdest⟩ | ⟨hzero, ⟨a, ha, hlevel⟩, hpos⟩
  · have hall : ∀ pip ∈ qip.printers, ∃ ppd, pip.ppd = some ppd ∧ ppd.psVersion ≠ 0 := by
      intro pip hp
      obtain ⟨ppd, hppd⟩ := Option.ne_none_iff_exists'.1 (h pip hp)
      exact ⟨ppd, hppd, hversion ppd (List.mem_filterMap.2 ⟨pip, hp, hppd⟩)⟩
    rw [psLanguageLevel, findLowestVersion_eq hall]
    cases hmin : (ppds qip.printers).argmin PpdInfo.age with
    | none =>
      rw [List.argmin_eq_none.1 hmin]
      rfl
    | some a =>
      have hleast : ∀ b ∈ ppds qip.printers, ¬b.older a := by
        intro b hb hold
        exact absurd (PpdInfo.older_iff.1 hold) (not_lt.2 (List.le_of_mem_argmin hb hmin))
      have hsome : ((ppds qip.printers).map (·.psLanguageLevel)).min? = some a.psLanguageLevel := by
        refine List.min?_eq_some_iff.2 ⟨List.mem_map_of_mem (List.argmin_mem hmin), fun n hn => ?_⟩
        obtain ⟨b, hb, rfl⟩ := List.mem_map.1 hn
        exact holdest a (List.argmin_mem hmin) hleast b hb
      rw [hsome]
      rfl
  · have hnone : ∃ pip ∈ qip.printers, ∀ ppd, pip.ppd = some ppd → ppd.psVersion = 0 := by
      obtain ⟨b, hb, hz⟩ := hzero
      obtain ⟨pip, hp, hppd⟩ := List.mem_filterMap.1 hb
      exact ⟨pip, hp, fun ppd h => by rw [Option.some.inj (h.symm.trans hppd), hz]⟩
    have hsome : ((ppds qip.printers).map (·.psLanguageLevel)).min? = some 0 := by
      refine List.min?_eq_some_iff.2 ⟨List.mem_map.2 ⟨a, ha, hlevel⟩, fun n hn => ?_⟩
      obtain ⟨b, hb, rfl⟩ := List.mem_map.1 hn
      exact hpos b hb
    rw [psLanguageLevel_none hnone, hsome]
    rfl

/-- A group of printers. -/
def group (pips : List PrinterInfo) : QueueInfo := { name := [], printers := pips }

theorem fresh_group (pips : List PrinterInfo) : (group pips).Fresh := ⟨rfl, rfl⟩

/-- Any of the printers with the oldest interpreter may be the first. -/
theorem levelByVersion_of_level (h : ∀ pip ∈ pips, pip.ppd ≠ none)
    (hlevel : ∀ pips', pips'.Perm pips → (group pips').psLanguageLevel = (weakest levelOf pips').getD 0) :
    LevelByVersion (ppds pips) := by
  have hmin := hlevel pips (.refl pips)
  rw [weakest_levelOf h] at hmin
  by_cases hversion : ∀ a ∈ ppds pips, a.psVersion ≠ 0
  · refine .inl ⟨hversion, fun a ha hold b hb => ?_⟩
    obtain ⟨pip, hp, hppd⟩ := List.mem_filterMap.1 ha
    obtain ⟨l₁, l₂, rfl⟩ := List.append_of_mem hp
    have hperm : (pip :: (l₁ ++ l₂)).Perm (l₁ ++ pip :: l₂) := List.perm_middle.symm
    have hppds : ppds (pip :: (l₁ ++ l₂)) = a :: ppds (l₁ ++ l₂) := List.filterMap_cons_some hppd
    have hmem : ∀ {c}, c ∈ ppds (pip :: (l₁ ++ l₂)) ↔ c ∈ ppds (l₁ ++ pip :: l₂) :=
      (hperm.filterMap _).mem_iff
    have hall : ∀ p ∈ (group (pip :: (l₁ ++ l₂))).printers,
        ∃ ppd, p.ppd = some ppd ∧ ppd.psVersion ≠ 0 := by
      intro p hp
      obtain ⟨ppd, hppd⟩ := Option.ne_none_iff_exists'.1 (h p (hperm.mem_iff.1 hp))
      exact ⟨ppd, hppd, hversion ppd (List.mem_filterMap.2 ⟨p, hperm.mem_iff.1 hp, hppd⟩)⟩
    have hfirst : (ppds (pip :: (l₁ ++ l₂))).argmin PpdInfo.age = some a := by
      rw [hppds, List.argmin_cons]
      cases hrest : (ppds (l₁ ++ l₂)).argmin PpdInfo.age with
      | none => rfl
      | some c =>
        have hc : c ∈ ppds (l₁ ++ pip :: l₂) :=
          hmem.1 (hppds ▸ List.mem_cons_of_mem a (List.argmin_mem hrest))
        exact if_neg fun hlt => hold c hc (PpdInfo.older_iff.2 hlt)
    have hlevel := hlevel _ hperm
    rw [weakest_perm hperm, weakest_levelOf h, psLanguageLevel, findLowestVersion_eq hall] at hlevel
    simp only [group, hfirst] at hlevel
    cases hm : ((ppds (l₁ ++ pip :: l₂)).map (·.psLanguageLevel)).min? with
    | none =>
      rw [List.map_eq_nil_iff.1 (List.min?_eq_none_iff.1 hm)] at hb
      cases hb
    | some m =>
      rw [hm, Option.getD_some] at hlevel
      rw [hlevel]
      exact (List.min?_eq_some_iff.1 hm).2 _ (List.mem_map_of_mem hb)
  · push Not at hversion
    obtain ⟨a, ha, hz⟩ := hversion
    refine .inr ⟨⟨a, ha, hz⟩, ?_⟩
    have hnone : ∃ pip ∈ (group pips).printers, ∀ ppd, pip.ppd = some ppd → ppd.psVersion = 0 := by
      obtain ⟨pip, hp, hppd⟩ := List.mem_filterMap.1 ha
      exact ⟨pip, hp, fun ppd h => by rw [Option.some.inj (h.symm.trans hppd), hz]⟩
    rw [psLanguageLevel_none hnone] at hmin
    cases hm : ((ppds pips).map (·.psLanguageLevel)).min? with
    | none =>
      rw [List.map_eq_nil_iff.1 (List.min?_eq_none_iff.1 hm)] at ha
      cases ha
    | some m =>
      rw [hm, Option.getD_some] at hmin
      subst hmin
      obtain ⟨hmem, hle⟩ := List.min?_eq_some_iff.1 hm
      exact ⟨List.mem_map.1 hmem, fun b hb => hle _ (List.mem_map_of_mem hb)⟩

/-! ## The resolution -/

theorem resolution_none {qip : QueueInfo} (h : ∃ pip ∈ qip.printers, resolutionOf pip = none) :
    qip.resolution.map atoi = weakest resolutionOf qip.printers := by
  rw [resolution, resolutionLoop_none h, weakest_of_none h]
  rfl

theorem resolution_of_byNumber {qip : QueueInfo} (h : ∀ pip ∈ qip.printers, resolutionOf pip ≠ none)
    (hnumber : ResolutionByNumber (qip.printers.filterMap resolutionOf)) :
    qip.resolution.map atoi = weakest resolutionOf qip.printers := by
  rw [resolution_eq qip h, weakest_of_some h]
  split_ifs with hnil
  · rw [hnil]
    rfl
  · have hne : qip.printers.filterMap resolutionOf ≠ [] := by
      obtain ⟨pip, pips, hp⟩ := List.exists_cons_of_ne_nil hnil
      obtain ⟨n, hn⟩ := Option.ne_none_iff_exists'.1 (h pip (hp ▸ List.mem_cons_self))
      rw [hp, List.filterMap_cons_some hn]
      exact List.cons_ne_nil _ _
    exact (min?_eq_lowered hne hnumber).symm

/-- A printer without a resolution number may be the first, one with another number the last. -/
theorem byNumber_of_resolution (h : ∀ pip ∈ pips, resolutionOf pip ≠ none)
    (hnumber : ∀ pips', pips'.Perm pips →
      (group pips').resolution.map atoi = weakest resolutionOf pips') :
    ResolutionByNumber (pips.filterMap resolutionOf) := by
  by_contra hno
  simp only [ResolutionByNumber, not_or] at hno
  obtain ⟨hzero, hne, hneg⟩ := hno
  push Not at hzero hne hneg
  obtain ⟨n, hn, hpos⟩ := hzero
  obtain ⟨z, hz, rfl⟩ := hne
  obtain ⟨pip, hp, hpip⟩ := List.mem_filterMap.1 hn
  obtain ⟨l₁, l₂, rfl⟩ := List.append_of_mem hp
  have hperm : ((l₁ ++ l₂) ++ [pip]).Perm (l₁ ++ pip :: l₂) := by
    rw [List.append_assoc]
    exact (List.perm_append_singleton pip l₂).append_left l₁
  have hlast := hnumber _ hperm
  have hall : ∀ p ∈ (group ((l₁ ++ l₂) ++ [pip])).printers, resolutionOf p ≠ none :=
    fun p hp => h p (hperm.mem_iff.1 hp)
  have hmin : ((l₁ ++ pip :: l₂).filterMap resolutionOf).min? = some 0 :=
    List.min?_eq_some_iff.2 ⟨hz, hneg⟩
  have hnil : (group ((l₁ ++ l₂) ++ [pip])).printers ≠ [] := by simp [group]
  have hrest : ∀ m ∈ (l₁ ++ l₂).filterMap resolutionOf, 0 ≤ m := fun m hm =>
    hneg m ((hperm.filterMap _).mem_iff.1 (by rw [List.filterMap_append]; exact List.mem_append_left _ hm))
  have hge := foldl_lowered_nonneg hrest
  have hn0 : 0 ≤ n := hneg n hn
  rw [resolution_eq _ hall, if_neg hnil, weakest_perm hperm, weakest_of_some h, hmin,
    Option.some.injEq, group, List.filterMap_append, List.foldl_append,
    List.filterMap_cons_some hpip] at hlast
  change lowered _ n = 0 at hlast
  unfold lowered at hlast
  split_ifs at hlast <;> omega

/-! ## The answers -/

theorem Fresh.lowestCommon {qip : QueueInfo} (h : qip.Fresh)
    (hlevel : (∃ pip ∈ qip.printers, pip.ppd = none) ∨ LevelByVersion (ppds qip.printers))
    (hnumber : (∃ pip ∈ qip.printers, resolutionOf pip = none) ∨
      ResolutionByNumber (qip.printers.filterMap resolutionOf)) : qip.LowestCommon where
  level := by
    by_cases hnone : ∃ pip ∈ qip.printers, pip.ppd = none
    · obtain ⟨pip, hp, hppd⟩ := hnone
      rw [psLanguageLevel_none ⟨pip, hp, fun ppd h => by rw [hppd] at h; cases h⟩,
        weakest_of_none ⟨pip, hp, by rw [levelOf, hppd]; rfl⟩]
      rfl
    · exact level_of_levelByVersion (fun pip hp hn => hnone ⟨pip, hp, hn⟩) (hlevel.resolve_left hnone)
  freeVM := psFreeVM_eq qip
  resolution := by
    by_cases hnone : ∃ pip ∈ qip.printers, resolutionOf pip = none
    · exact resolution_none hnone
    · exact resolution_of_byNumber (fun pip hp hn => hnone ⟨pip, hp, hn⟩) (hnumber.resolve_left hnone)
  fonts_nodup := h.fonts_nodup
  mem_fonts := h.mem_fonts
  color := colorDevice_iff qip
  product _ := agreed_eq_some_iff
  ppdFile _ := agreed_eq_some_iff
  faxSupport _ := agreed_eq_some_iff
  ttRasterizer _ := agreed_eq_some_iff

theorem allAgree_perm {attr : PrinterInfo → Option (List Byte)} {pips pips' : List PrinterInfo}
    (h : pips.Perm pips') (v : List Byte) : AllAgree attr pips v ↔ AllAgree attr pips' v := by
  simp only [AllAgree, h.mem_iff, ne_eq, ← List.length_eq_zero_iff, h.length_eq]

/-- What the weakest member can do does not depend on the order. -/
theorem LowestCommon.sameAnswers {p q : QueueInfo} (hp : p.LowestCommon) (hq : q.LowestCommon)
    (h : p.printers.Perm q.printers) : p.SameAnswers q where
  level := by rw [hp.level, hq.level, weakest_perm h]
  freeVM := by rw [hp.freeVM, hq.freeVM, weakest_perm h]
  resolution := by rw [hp.resolution, hq.resolution, weakest_perm h]
  fonts := by
    refine (List.perm_ext_iff_of_nodup hp.fonts_nodup hq.fonts_nodup).2 fun name => ?_
    rw [hp.mem_fonts, hq.mem_fonts]
    simp only [h.mem_iff, ne_eq, ← List.length_eq_zero_iff, h.length_eq]
  color := by
    rw [Bool.eq_iff_iff, hp.color, hq.color]
    simp only [h.mem_iff, ne_eq, ← List.length_eq_zero_iff, h.length_eq]
  product := Option.ext fun v => (hp.product v).trans ((allAgree_perm h v).trans (hq.product v).symm)
  ppdFile := Option.ext fun v => (hp.ppdFile v).trans ((allAgree_perm h v).trans (hq.ppdFile v).symm)
  faxSupport := Option.ext fun v =>
    (hp.faxSupport v).trans ((allAgree_perm h v).trans (hq.faxSupport v).symm)
  ttRasterizer := Option.ext fun v =>
    (hp.ttRasterizer v).trans ((allAgree_perm h v).trans (hq.ttRasterizer v).symm)

/-- The answers for some printers, in whatever order, are what the weakest of them can do and what
all agree on, and do not depend on the order, if and only if the printers with the oldest interpreter
have the lowest level and resolution numbers of 0 do not stand beside others. -/
theorem lowestCommon_iff (pips : List PrinterInfo) :
    (∀ qip : QueueInfo, qip.Fresh → qip.printers.Perm pips → qip.LowestCommon ∧
        ∀ qip' : QueueInfo, qip'.Fresh → qip'.printers.Perm pips → qip.SameAnswers qip') ↔
      ((∃ pip ∈ pips, pip.ppd = none) ∨ LevelByVersion (ppds pips)) ∧
        ((∃ pip ∈ pips, resolutionOf pip = none) ∨
          ResolutionByNumber (pips.filterMap resolutionOf)) := by
  constructor
  · intro h
    refine ⟨?_, ?_⟩
    · by_cases hnone : ∃ pip ∈ pips, pip.ppd = none
      · exact .inl hnone
      · exact .inr (levelByVersion_of_level (fun pip hp hn => hnone ⟨pip, hp, hn⟩) fun pips' hperm =>
          (h _ (fresh_group pips') hperm).1.level)
    · by_cases hnone : ∃ pip ∈ pips, resolutionOf pip = none
      · exact .inl hnone
      · exact .inr (byNumber_of_resolution (fun pip hp hn => hnone ⟨pip, hp, hn⟩) fun pips' hperm =>
          (h _ (fresh_group pips') hperm).1.resolution)
  · rintro ⟨hlevel, hnumber⟩
    have hlowest : ∀ qip : QueueInfo, qip.Fresh → qip.printers.Perm pips → qip.LowestCommon := by
      intro qip hfresh hperm
      apply hfresh.lowestCommon
      · refine hlevel.imp (fun ⟨pip, hp, hn⟩ => ⟨pip, hperm.mem_iff.2 hp, hn⟩) fun h => ?_
        simpa only [LevelByVersion, ppds, (hperm.filterMap _).mem_iff] using h
      · refine hnumber.imp (fun ⟨pip, hp, hn⟩ => ⟨pip, hperm.mem_iff.2 hp, hn⟩) fun h => ?_
        simpa only [ResolutionByNumber, (hperm.filterMap _).mem_iff] using h
    intro qip hfresh hperm
    refine ⟨hlowest qip hfresh hperm, fun qip' hfresh' hperm' => ?_⟩
    exact (hlowest qip hfresh hperm).sameAnswers (hlowest qip' hfresh' hperm') (hperm.trans hperm'.symm)

/-- A printer with the version and the level. -/
def leveled (version : ℚ) (level : ℤ) : PrinterInfo where
  name := ascii "p"
  ppdFile := some (ascii "p.ppd")
  ppd := some {
    protocols := ⟨false, false⟩, binaryOK := false, psVersion := version, psLanguageLevel := level }

/-- Beside an old interpreter of level 2 there is a new one of level 1. -/
theorem not_lowestCommon_newer : ¬∀ qip : QueueInfo, qip.Fresh →
    qip.printers.Perm [leveled 2017 2, leveled 3010 1] → qip.LowestCommon := by
  intro h
  have hlevel := (h (group [leveled 2017 2, leveled 3010 1]) (fresh_group _) (.refl _)).level
  revert hlevel
  decide +kernel

end QueueInfo

end Ppr.Queueinfo
