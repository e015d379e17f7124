import Ppr.Pprdrv.Features

/-!
# Selecting the tray of a medium

`select_medium()` of `pprdrv_media.c`.  The features that it sends are kept in their order, without the
comments and the `stopped` context around each.
-/

namespace Ppr.Pprdrv

/-! ## The function -/

/-- `MAX_BINNAME` and `MAX_MEDIANAME` -/
def mountedNameLength : ℕ := 16

/-- `ASCIIZ_to_padded()` -/
def asciizToPadded (s : List Byte) : List Byte :=
  s.take mountedNameLength ++ List.replicate (mountedNameLength - s.length) 32

/-- `padded_to_ASCIIZ()` -/
def paddedToAsciiz (p : List Byte) : List Byte := cstr (p.rdropWhile (· = 32))

/-- `struct MOUNTED` -/
structure Mounted where
  bin : List Byte
  media : List Byte
  bin_length : bin.length = mountedNameLength
  media_length : media.length = mountedNameLength

def Mounted.name (m : Mounted) : List Byte := paddedToAsciiz m.bin

/-- `padded_cmp()` with the name of a medium -/
def Mounted.holds (m : Mounted) (medium : List Byte) : Bool := m.media = asciizToPadded medium

/-- A feature with the code that is sent for it. -/
structure SentFeature where
  keyword : List Byte
  option : List Byte
  code : List Byte
  deriving DecidableEq

def inputSlot : List Byte := ascii "*InputSlot"
def traySwitch : List Byte := ascii "*TraySwitch"
def autoSelect : List Byte := ascii "AutoSelect"
def upper : List Byte := ascii "Upper"
def lower : List Byte := ascii "Lower"

/-- The code of the PPD file for an option. -/
def PpdState.code (ppd : PpdState) (keyword option : List Byte) : Option (List Byte) :=
  match ppd.findFeature keyword (some option) with
  | .ok code => code
  | .error _ => none

/-- A feature, if the PPD file has code for it. -/
def PpdState.feature (ppd : PpdState) (keyword option : List Byte) : List SentFeature :=
  ((ppd.code keyword option).map fun code => ⟨keyword, option, code⟩).toList

/-- What is sent for the first bin that has the medium; `rest` are the bins behind it. -/
def selectBin (ppd : PpdState) (medium : List Byte) (bin : Mounted) (rest : List Mounted) :
    List SentFeature :=
  let abin := bin.name
  match ppd.code inputSlot abin with
  | none => []
  | some code =>
    ⟨inputSlot, abin, code⟩ ::
      if abin = upper ∨ abin = lower then
        -- `abin` is still the name of the bin that was selected.
        let tf := if rest.any fun b => b.holds medium && (abin = upper || abin = lower) then "True"
          else "False"
        ppd.feature traySwitch (ascii tf)
      else []

/-- The loop over the bins and what comes behind it. -/
def selectLoop (ppd : PpdState) (medium : List Byte) (autoSelectExists : Bool) :
    List Mounted → List SentFeature
  | [] => if autoSelectExists then ppd.feature inputSlot autoSelect else []
  | b :: rest =>
    if b.name = autoSelect then selectLoop ppd medium true rest
    else if b.holds medium then selectBin ppd medium b rest
    else selectLoop ppd medium autoSelectExists rest

/-- `select_medium()`: what is sent, and the result.  There may be no "mounted" file. -/
def selectMedium (ppd : PpdState) (mounted : Option (List Mounted)) (name : List Byte) :
    List SentFeature × Bool :=
  match mounted with
  | none | some [] => ([], false)
  | some bins => (selectLoop ppd name false bins, true)

/-! ## What is asked of it -/

/-- A bin of this name holds the medium. -/
def BinHolds (bins : List Mounted) (medium bin : List Byte) : Prop :=
  ∃ b ∈ bins, b.name = bin ∧ b.holds medium = true

/-- A bin other than "AutoSelect" that holds the medium and has code in the PPD file. -/
def Suitable (ppd : PpdState) (bins : List Mounted) (medium bin : List Byte) : Prop :=
  bin ≠ autoSelect ∧ BinHolds bins medium bin ∧ (ppd.code inputSlot bin).isSome

/-- The other of the trays "Upper" and "Lower". -/
def otherTray (bin : List Byte) : Option (List Byte) :=
  if bin = upper then some lower else if bin = lower then some upper else none

/-- The selected bin is "Upper" or "Lower", and the other one has the medium, too. -/
def Switchable (bins : List Mounted) (medium bin : List Byte) : Prop :=
  ∃ other, otherTray bin = some other ∧ BinHolds bins medium other

/-- The features are those for a tray with the medium. -/
structure TraySelected (ppd : PpdState) (bins : List Mounted) (medium : List Byte)
    (sent : List SentFeature) : Prop where
  suitable : ∀ f ∈ sent, f.keyword = inputSlot → f.option ≠ autoSelect →
    Suitable ppd bins medium f.option
  found : (∃ bin, Suitable ppd bins medium bin) →
    ∃ f ∈ sent, f.keyword = inputSlot ∧ f.option ≠ autoSelect
  auto : ∀ f ∈ sent, f.keyword = inputSlot → f.option = autoSelect →
    ¬∃ bin, Suitable ppd bins medium bin
  switchTrue : ∀ f ∈ sent, f.keyword = traySwitch → f.option = ascii "True" →
    ∃ s ∈ sent, s.keyword = inputSlot ∧ Switchable bins medium s.option
  switchFalse : ∀ f ∈ sent, f.keyword = traySwitch → f.option ≠ ascii "True" →
    f.option = ascii "False" ∧
      ∀ s ∈ sent, s.keyword = inputSlot → ¬Switchable bins medium s.option

/-- The loop goes on after this bin. -/
def passesBin (medium : List Byte) (b : Mounted) : Bool := b.name = autoSelect || !b.holds medium

/-- The first bin with the medium, of those that are not "AutoSelect", has code if any such bin has.  If
it is "Upper" or "Lower" and a bin behind it has the medium, then the other of the two has it, unless
the PPD file has no code for switching. -/
def FirstFits (ppd : PpdState) (bins : List Mounted) (medium : List Byte) : Prop :=
  ∀ b rest, bins.dropWhile (passesBin medium) = b :: rest →
    ((∃ bin, Suitable ppd bins medium bin) → (ppd.code inputSlot b.name).isSome) ∧
    ((ppd.code inputSlot b.name).isSome → (otherTray b.name).isSome →
      (ppd.code traySwitch (ascii "True")).isSome → (∃ c ∈ rest, c.holds medium = true) →
      Switchable bins medium b.name)

/-! ## Which bin is found -/

section

variable {ppd : PpdState} {medium : List Byte} {bins rest : List Mounted} {b : Mounted}

theorem mem_feature {f : SentFeature} {keyword option : List Byte} :
    f ∈ ppd.feature keyword option ↔
      f.keyword = keyword ∧ f.option = option ∧ ppd.code keyword option = some f.code := by
  cases f
  rw [PpdState.feature, Option.mem_toList, Option.map_eq_some_iff]
  constructor
  · rintro ⟨code, hcode, hf⟩
    cases hf
    exact ⟨rfl, rfl, hcode⟩
  · rintro ⟨hk, ho, hcode⟩
    dsimp only at hk ho
    exact ⟨_, hcode, by rw [hk, ho]⟩

/-- The loop stops at the first bin that has the medium. -/
theorem selectLoop_eq (auto : Bool) (bins : List Mounted) :
    selectLoop ppd medium auto bins =
      match bins.dropWhile (passesBin medium) with
      | [] => if auto || bins.any (·.name = autoSelect) then ppd.feature inputSlot autoSelect else []
      | b :: rest => selectBin ppd medium b rest := by
  induction bins generalizing auto with
  | nil => simp [selectLoop]
  | cons b bins ih =>
    by_cases hauto : b.name = autoSelect
    · rw [selectLoop, if_pos hauto, ih, List.dropWhile_cons_of_pos (by simp [passesBin, hauto])]
      simp [hauto]
    by_cases hholds : b.holds medium = true
    · rw [selectLoop, if_neg hauto, if_pos hholds,
        List.dropWhile_cons_of_neg (by simp [passesBin, hauto, hholds])]
    · rw [selectLoop, if_neg hauto, if_neg hholds, ih,
        List.dropWhile_cons_of_pos (by simp [passesBin, hholds])]
      simp [hauto]

theorem mem_of_dropWhile (h : bins.dropWhile (passesBin medium) = b :: rest) :
    b ∈ bins ∧ b.name ≠ autoSelect ∧ b.holds medium = true ∧ ∀ c ∈ rest, c ∈ bins := by
  have hsub : ∀ c ∈ b :: rest, c ∈ bins := fun c hc =>
    (List.dropWhile_suffix _).subset (h ▸ hc)
  have hb : passesBin medium b = false := by
    have := List.head?_dropWhile_not (passesBin medium) bins
    rw [h] at this
    simpa using this
  rw [passesBin, Bool.or_eq_false_iff, decide_eq_false_iff_not, Bool.not_eq_false'] at hb
  exact ⟨hsub b List.mem_cons_self, hb.1, hb.2, fun c hc => hsub c (List.mem_cons_of_mem _ hc)⟩

theorem no_suitable_of_dropWhile (h : bins.dropWhile (passesBin medium) = []) :
    ¬∃ bin, Suitable ppd bins medium bin := by
  rintro ⟨bin, hne, ⟨b, hb, rfl, hholds⟩, -⟩
  have hpass := List.dropWhile_eq_nil_iff.1 h b hb
  rw [passesBin, Bool.or_eq_true, decide_eq_true_iff, Bool.not_eq_true'] at hpass
  rcases hpass with hauto | hnot
  · exact hne hauto
  · rw [hholds] at hnot
    cases hnot

/-- No bin with the medium comes before the first one. -/
theorem mem_rest_of_holds (h : bins.dropWhile (passesBin medium) = b :: rest) {c : Mounted}
    (hc : c ∈ bins) (hauto : c.name ≠ autoSelect) (hholds : c.holds medium = true) :
    c = b ∨ c ∈ rest := by
  rw [← List.takeWhile_append_dropWhile (p := passesBin medium) (l := bins), h] at hc
  rcases List.mem_append.1 hc with hc | hc
  · have := List.mem_takeWhile_imp hc
    simp [passesBin, hauto, hholds] at this
  · exact List.mem_cons.1 hc

theorem otherTray_spec {bin other : List Byte} (h : otherTray bin = some other) :
    (bin = upper ∨ bin = lower) ∧ other ≠ bin ∧ other ≠ autoSelect := by
  unfold otherTray at h
  split_ifs at h with hu hl
  · cases h
    exact ⟨.inl hu, by rw [hu]; decide, by decide⟩
  · cases h
    exact ⟨.inr hl, by rw [hl]; decide, by decide⟩

theorem otherTray_isSome {bin : List Byte} : (otherTray bin).isSome ↔ bin = upper ∨ bin = lower := by
  constructor
  · intro h
    obtain ⟨other, ho⟩ := Option.isSome_iff_exists.1 h
    exact (otherTray_spec ho).1
  · rintro (rfl | rfl) <;> rfl

/-- If the other tray has the medium, it comes behind the one that is selected. -/
theorem Switchable.behind (h : bins.dropWhile (passesBin medium) = b :: rest)
    (hs : Switchable bins medium b.name) : ∃ c ∈ rest, c.holds medium = true := by
  obtain ⟨other, hother, c, hc, rfl, hholds⟩ := hs
  obtain ⟨-, hne, hauto⟩ := otherTray_spec hother
  rcases mem_rest_of_holds h hc hauto hholds with rfl | hrest
  · exact absurd rfl hne
  · exact ⟨c, hrest, hholds⟩

end

/-! ## What is sent for it -/

section

variable {ppd : PpdState} {medium : List Byte} {bins rest : List Mounted} {b : Mounted}

theorem traySwitch_ne : traySwitch ≠ inputSlot := by decide

/-- What is sent for the first bin, if there is code for it. -/
theorem mem_selectBin {code : List Byte} (hcode : ppd.code inputSlot b.name = some code) {f : SentFeature} :
    f ∈ selectBin ppd medium b rest ↔ f = ⟨inputSlot, b.name, code⟩ ∨
      (otherTray b.name).isSome ∧ f.keyword = traySwitch ∧
        f.option = ascii (if ∃ c ∈ rest, c.holds medium = true then "True" else "False") ∧
        ppd.code traySwitch f.option = some f.code := by
  have hany (hb : b.name = upper ∨ b.name = lower) :
      (rest.any fun c => c.holds medium && (b.name = upper || b.name = lower)) = true ↔
        ∃ c ∈ rest, c.holds medium = true := by
    have hb' : (decide (b.name = upper) || decide (b.name = lower)) = true := by simpa using hb
    simp only [hb', Bool.and_true, List.any_eq_true]
  rw [selectBin, hcode]
  dsimp only
  rw [List.mem_cons, otherTray_isSome]
  refine or_congr_right ?_
  by_cases hb : b.name = upper ∨ b.name = lower
  · rw [if_pos hb, and_iff_right hb]
    simp only [hany hb]
    rw [mem_feature]
    refine and_congr_right fun _ => and_congr_right fun ho => ?_
    rw [ho]
  · rw [if_neg hb]
    exact iff_of_false List.not_mem_nil fun h => hb h.1

/-- With code for the first bin, only the switching can go wrong. -/
theorem traySelected_selectBin (h : bins.dropWhile (passesBin medium) = b :: rest)
    (hcode : (ppd.code inputSlot b.name).isSome) :
    TraySelected ppd bins medium (selectBin ppd medium b rest) ↔
      ((otherTray b.name).isSome → (ppd.code traySwitch (ascii "True")).isSome →
        (∃ c ∈ rest, c.holds medium = true) → Switchable bins medium b.name) := by
  obtain ⟨hb, hauto, hholds, -⟩ := mem_of_dropWhile h
  obtain ⟨code, hcode⟩ := Option.isSome_iff_exists.1 hcode
  have hslot : ⟨inputSlot, b.name, code⟩ ∈ selectBin ppd medium b rest := (mem_selectBin hcode).2 (.inl rfl)
  have slot {f : SentFeature} (hf : f ∈ selectBin ppd medium b rest) (hk : f.keyword = inputSlot) :
      f.option = b.name := by
    rcases (mem_selectBin hcode).1 hf with rfl | ⟨-, hk', -⟩
    · rfl
    · exact absurd (hk'.symm.trans hk) traySwitch_ne
  constructor
  · intro hsel hother htrue hrest
    obtain ⟨tcode, htcode⟩ := Option.isSome_iff_exists.1 htrue
    have hmem : ⟨traySwitch, ascii "True", tcode⟩ ∈ selectBin ppd medium b rest := by
      refine (mem_selectBin hcode).2 (.inr ⟨hother, rfl, ?_, htcode⟩)
      rw [if_pos hrest]
    obtain ⟨s, hs, hk, hswitch⟩ := hsel.switchTrue _ hmem rfl rfl
    rwa [slot hs hk] at hswitch
  · intro hswitch
    refine ⟨fun f hf hk _ => ?_, fun _ => ⟨_, hslot, rfl, hauto⟩, fun f hf hk ho => ?_,
      fun f hf hk ho => ?_, fun f hf hk ho => ?_⟩
    · rw [slot hf hk]
      exact ⟨hauto, ⟨b, hb, rfl, hholds⟩, by rw [hcode]; rfl⟩
    · rw [slot hf hk] at ho
      exact absurd ho hauto
    · rcases (mem_selectBin hcode).1 hf with rfl | ⟨hother, -, hopt, htcode⟩
      · exact absurd hk.symm traySwitch_ne
      have hrest : ∃ c ∈ rest, c.holds medium = true := by
        by_contra hno
        rw [if_neg hno, ho] at hopt
        exact absurd hopt (by decide)
      rw [ho] at htcode
      exact ⟨_, hslot, rfl, hswitch hother (by rw [htcode]; rfl) hrest⟩
    · rcases (mem_selectBin hcode).1 hf with rfl | ⟨-, -, hopt, -⟩
      · exact absurd hk.symm traySwitch_ne
      have hno : ¬∃ c ∈ rest, c.holds medium = true := by
        intro hrest
        rw [if_pos hrest] at hopt
        exact ho hopt
      refine ⟨by rw [hopt, if_neg hno], fun s hs hks hsw => ?_⟩
      rw [slot hs hks] at hsw
      exact hno (hsw.behind h)

/-- Without code for the first bin nothing is sent. -/
theorem traySelected_nil : TraySelected ppd bins medium [] ↔ ¬∃ bin, Suitable ppd bins medium bin := by
  constructor
  · intro h hs
    obtain ⟨f, hf, -⟩ := h.found hs
    cases hf
  · intro h
    refine ⟨?_, fun hs => absurd hs h, ?_, ?_, ?_⟩ <;> exact fun f hf => nomatch hf

theorem selectMedium_fst (ppd : PpdState) (mounted : Option (List Mounted)) (medium : List Byte) :
    (selectMedium ppd mounted medium).1 = selectLoop ppd medium false (mounted.getD []) := by
  match mounted with
  | none => rfl
  | some [] => rfl
  | some (_ :: _) => rfl

end

/-- The right tray is selected if and only if the first bin with the medium fits. -/
theorem traySelected_iff_firstFits (ppd : PpdState) (mounted : Option (List Mounted))
    (medium : List Byte) :
    TraySelected ppd (mounted.getD []) medium (selectMedium ppd mounted medium).1 ↔
      FirstFits ppd (mounted.getD []) medium := by
  rw [selectMedium_fst, selectLoop_eq]
  generalize mounted.getD [] = bins
  split
  · rename_i h
    have hno : ¬∃ bin, Suitable ppd bins medium bin := no_suitable_of_dropWhile h
    refine iff_of_true ?_ fun b rest hb => ?_
    · have hauto : ∀ f ∈ (if (false || bins.any (·.name = autoSelect)) = true then
          ppd.feature inputSlot autoSelect else []), f.keyword = inputSlot ∧ f.option = autoSelect := by
        intro f hf
        split_ifs at hf
        · obtain ⟨hk, ho, -⟩ := mem_feature.1 hf
          exact ⟨hk, ho⟩
        · cases hf
      exact ⟨fun f hf _ ho => absurd (hauto f hf).2 ho, fun hs => absurd hs hno,
        fun _ _ _ _ => hno, fun f hf hk _ => absurd (hk.symm.trans (hauto f hf).1) traySwitch_ne,
        fun f hf hk _ => absurd (hk.symm.trans (hauto f hf).1) traySwitch_ne⟩
    · rw [h] at hb
      cases hb
  · rename_i b rest h
    have hfits : FirstFits ppd bins medium ↔
        ((∃ bin, Suitable ppd bins medium bin) → (ppd.code inputSlot b.name).isSome) ∧
        ((ppd.code inputSlot b.name).isSome → (otherTray b.name).isSome →
          (ppd.code traySwitch (ascii "True")).isSome → (∃ c ∈ rest, c.holds medium = true) →
          Switchable bins medium b.name) := by
      constructor
      · exact fun hf => hf b rest h
      · intro hf b' rest' h'
        obtain ⟨rfl, rfl⟩ := List.cons.inj (h.symm.trans h')
        exact hf
    rw [hfits]
    by_cases hcode : (ppd.code inputSlot b.name).isSome
    · rw [traySelected_selectBin h hcode, and_iff_right fun _ => hcode]
      exact ⟨fun hs _ => hs, fun hs => hs hcode⟩
    · have hsent : selectBin ppd medium b rest = [] := by
        rw [selectBin, Option.not_isSome_iff_eq_none.1 hcode]
      rw [hsent, traySelected_nil]
      exact ⟨fun hno => ⟨fun hs => absurd hs hno, fun hc => absurd hc hcode⟩,
        fun hf hs => hcode (hf.1 hs)⟩

/-! ## A third tray -/

theorem length_asciizToPadded (s : List Byte) : (asciizToPadded s).length = mountedNameLength := by
  rw [asciizToPadded, List.length_append, List.length_take, List.length_replicate]
  omega

/-- A row of the table that `media_mounted_save()` writes. -/
def mount (bin medium : String) : Mounted :=
  ⟨asciizToPadded (ascii bin), asciizToPadded (ascii medium), length_asciizToPadded _,
    length_asciizToPadded _⟩

/-- A printer with the trays "Upper" and "Side". -/
def sideTrayPpd : PpdFiles :=
  onePpd "*InputSlot Upper: \"0 tray\"\n*InputSlot Side: \"1 tray\"\n*TraySwitch True: \"true switch\"\n"

/-- "Upper" and "Side" have the same medium: trays are switched, although there is no "Lower". -/
theorem not_traySelected_side :
    ∃ ppd, readPpdFile sideTrayPpd 0 none (some (ascii "/a.ppd")) = .ok ppd ∧
      ¬TraySelected ppd [mount "Upper" "Letter", mount "Side" "Letter"] (ascii "Letter")
        (selectMedium ppd (some [mount "Upper" "Letter", mount "Side" "Letter"]) (ascii "Letter")).1 := by
  have run : ((readPpdFile sideTrayPpd 0 none (some (ascii "/a.ppd"))).map fun ppd =>
      (selectMedium ppd (some [mount "Upper" "Letter", mount "Side" "Letter"]) (ascii "Letter")).1).toOption =
      some [⟨inputSlot, upper, ascii "0 tray"⟩, ⟨traySwitch, ascii "True", ascii "true switch"⟩] := by
    decide +kernel
  cases h : readPpdFile sideTrayPpd 0 none (some (ascii "/a.ppd")) with
  | error e =>
    rw [h] at run
    cases run
  | ok ppd =>
    rw [h] at run
    refine ⟨ppd, rfl, fun hsel => ?_⟩
    have hsent : (selectMedium ppd (some [mount "Upper" "Letter", mount "Side" "Letter"])
        (ascii "Letter")).1 = _ := Option.some.inj run
    obtain ⟨s, hs, hk, other, hother, c, hc, hname, -⟩ :=
      hsel.switchTrue ⟨traySwitch, ascii "True", ascii "true switch"⟩ (by rw [hsent]; simp) rfl rfl
    rw [hsent] at hs
    rcases List.mem_cons.1 hs with rfl | hs
    · obtain rfl : lower = other := Option.some.inj hother
      have hnone : ∀ c ∈ [mount "Upper" "Letter", mount "Side" "Letter"], c.name ≠ lower := by decide
      exact hnone c hc hname
    · rw [List.mem_singleton.1 hs] at hk
      exact traySwitch_ne hk

end Ppr.Pprdrv
