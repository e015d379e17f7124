import Ppr.Lib.Outcome
import Ppr.Pprdrv.Capable

/-!
# What it means that a printer is accepted

`check_if_capable()` on the first pass over a group, on the second one and for other jobs: the
verdicts compared, and what an accepted printer has.
-/

open Outcome

namespace Ppr.Pprdrv

/-! ## What a job asks for -/

/-- The resources of a job. -/
def jobResources (qfile : List (List Byte)) : List ResLine :=
  (qfile.takeWhile (· ≠ ascii "EndRes")).filterMap resFields

/-- The requirement on a "Req:" line. -/
def reqField (line : List Byte) : Option (List Byte) := do
  let (_, p) ← guStrsep (· = 32) (some line)
  let (f1, _) ← guStrsep (· = 32) p
  return f1

/-- The requirements on the lines behind the resources. -/
def reqFields (qfile : List (List Byte)) : List (List Byte) :=
  (qfile.takeWhile (· ≠ ascii "EndReq")).filterMap reqField

/-- The requirements of a job. -/
def jobRequirements (qfile : List (List Byte)) : List (List Byte) :=
  reqFields (qfile.dropWhile (· ≠ ascii "EndRes")).tail

/-- A requirement that is recognized is met. -/
structure Meets (ppd : PpdState) (f1 : List Byte) : Prop where
  color : f1 = ascii "color" → ppd.features.colorDevice = true
  duplex : f1 = ascii "duplex" →
    ∃ v, ppd.findFeature (ascii "*Duplex") (some (ascii "None")) = .ok (some v)
  tumble : f1 = ascii "duplex(tumble)" →
    ∃ v, ppd.findFeature (ascii "*Duplex") (some (ascii "DuplexTumble")) = .ok (some v)
  fax : f1 = ascii "fax" → ppd.features.faxBase = true

namespace CapableEnv

variable (env : CapableEnv)

/-- The printer is accepted for a job. -/
def Accepts (groupPass : ℤ) (qfile : List (List Byte)) : Prop :=
  ∃ s reason, checkIfCapable env groupPass qfile = .ok (s, reason) ∧ s.incapable = false

section

variable (rs : List ResLine)

/-- The printer has a TrueType rasterizer, or it can be given one with a job that has these
resources. -/
def Rasterizer : Prop :=
  env.printer.ppd.features.ttRasterizer = .type42 ∨
    env.printer.ppd.features.ttRasterizer = .accept68K ∧
      ((∃ r ∈ rs, r.type = ascii "file" ∧ r.name = ascii "adobe_psp_TrueType") ∨
        (∃ r ∈ rs, r.type = ascii "procset" ∧ r.name = ascii "TrueDict") ∨
        (findResource env.cache (ascii "procset") (ascii "TrueDict") 27 0).isSome)

/-- A cached font that has no Type 1 section is of no use if its Type 42 section cannot be used. -/
def Usable (features : CInt) : Prop :=
  features &&& fontType42 ≠ 0 → features &&& fontType1 = 0 → env.Rasterizer rs

/-- The cache has a resource in a form that can be used. -/
def InCache (type name : List Byte) (version : ℚ) (revision : CInt) : Prop :=
  ∃ fnptr features, findResource env.cache type name version revision = some (fnptr, features) ∧
    env.Usable rs features

/-- A resource is in the printer, built in, or in the cache. -/
def Available (r : ResLine) : Prop :=
  (r.type = ascii "font" ∧ env.fontPresent r.name = true) ∨
    isInternal env.printer.ppd.features.languageLevel r.type r.name = true ∨
    env.InCache rs r.type r.name r.version r.revision

/-- A resource is a font which has a substitute in the printer or in the cache. -/
def Substitutable (r : ResLine) : Prop :=
  r.type = ascii "font" ∧ ∃ c ∈ env.substitutes r.name,
    env.fontPresent c.1 = true ∨ env.InCache rs (ascii "font") c.1 0 0

/-- Every resource that a job needs is available. -/
def HasResources : Prop := ∀ r ∈ rs, r.needed = true → env.Available rs r

/-- The same, but a font may be substituted if the ProofMode permits it. -/
def HasResourcesOrSubstitutes : Prop :=
  ∀ r ∈ rs, r.needed = true → env.Available rs r ∨
    (env.attr.proofmode = proofmodeSubstitute ∧ env.Substitutable rs r)

end

/-- Every requirement is met. -/
def MeetsAll (requirements : List (List Byte)) : Prop :=
  ∀ f1 ∈ requirements, Meets env.printer.ppd f1

end CapableEnv

theorem meets_of_isMet {ppd : PpdState} {f1 : List Byte} (h : Checked.isMet ppd f1 = true) :
    Meets ppd f1 := by
  -- What the option `option` of "*Duplex" has been looked up for.
  have found : ∀ option, Checked.isMet.has ppd option = true →
      ∃ v, ppd.findFeature (ascii "*Duplex") (some option) = .ok (some v) := by
    intro option ho
    unfold Checked.isMet.has at ho
    split at ho
    · exact ⟨_, ‹_›⟩
    · cases ho
  have hd : ascii "duplex" ≠ ascii "color" := by decide
  have ht : ascii "duplex(tumble)" ≠ ascii "color" := by decide
  have ht' : ascii "duplex(tumble)" ≠ ascii "duplex" := by decide
  have hf : ascii "fax" ≠ ascii "color" := by decide
  have hf' : ascii "fax" ≠ ascii "duplex" := by decide
  have hf'' : ascii "fax" ≠ ascii "duplex(tumble)" := by decide
  unfold Checked.isMet at h
  constructor
  · rintro rfl
    rwa [if_pos rfl] at h
  · rintro rfl
    rw [if_neg hd, if_pos rfl] at h
    exact found _ h
  · rintro rfl
    rw [if_neg ht, if_neg ht', if_pos rfl] at h
    exact found _ h
  · rintro rfl
    rwa [if_neg hf, if_neg hf', if_neg hf'', if_pos rfl] at h

/-! ## The rasterizer -/

namespace CapableEnv

variable {env : CapableEnv} {rs : List ResLine}

/-- As long as nothing has been decided, everything in the table that is no font is a resource of the
job. -/
structure TableOf (env : CapableEnv) (rs : List ResLine) (t : Resources) : Prop where
  undecided : t.decided = false → t.type42Ok = false ∧
    ∀ d ∈ t.drvres, d.type ≠ ascii "font" → ∃ r ∈ rs, r.type = d.type ∧ r.name = d.name
  rasterizer : t.type42Ok = true → env.Rasterizer rs

theorem TableOf.of_decided {t : Resources} (hd : t.decided = true)
    (h : t.type42Ok = true → env.Rasterizer rs) : TableOf env rs t where
  undecided hn := by
    rw [hd] at hn
    cases hn
  rasterizer := h

/-- An entry of the table is found by its type and name. -/
theorem exists_isCalled {l : List DrvRes} {type name : List Byte}
    (h : ∃ d ∈ l, d.isCalled type name = true) : ∃ d ∈ l, d.type = type ∧ d.name = name := by
  obtain ⟨d, hd, hc⟩ := h
  refine ⟨d, hd, ?_⟩
  unfold DrvRes.isCalled at hc
  rwa [Bool.and_eq_true, decide_eq_true_eq, decide_eq_true_eq] at hc

theorem addResource_decided {cache : Cache} {ppd : PpdState} {t t' : Resources}
    {type name : List Byte} {version : ℚ} {revision : CInt}
    (h : t.addResource cache ppd type name version revision = some t') :
    t'.decided = t.decided := by
  unfold Resources.addResource at h
  split at h
  · cases h
    rfl
  · dsimp only at h
    split_ifs at h
    · cases h
      rfl
    · obtain ⟨found, -, rfl⟩ := Option.map_eq_some_iff.1 h
      rfl

/-- TrueDict is found in the table or in the cache. -/
theorem of_addResource {cache : Cache} {ppd : PpdState} {t t' : Resources}
    {type name : List Byte} {version : ℚ} {revision : CInt} (hf : type ≠ ascii "font")
    (h : t.addResource cache ppd type name version revision = some t') :
    (∃ d ∈ t.drvres, d.type = type ∧ d.name = name) ∨
      (findResource cache type name version revision).isSome := by
  unfold Resources.addResource at h
  split at h
  next x hx =>
    obtain ⟨hl, hc, -⟩ := List.findIdx?_eq_some_iff_getElem.1 hx
    exact .inl (exists_isCalled ⟨_, List.getElem_mem hl, hc⟩)
  next =>
    dsimp only at h
    rw [if_neg (fun hc => hf hc.1)] at h
    obtain ⟨found, hfound, -⟩ := Option.map_eq_some_iff.1 h
    right
    rw [hfound]
    rfl

theorem TableOf.wantTtrasterizer {t : Resources} (h : TableOf env rs t) :
    TableOf env rs (t.wantTtrasterizer env.cache env.printer.ppd) := by
  unfold Resources.wantTtrasterizer
  by_cases hd : t.decided = true
  · rwa [if_pos hd]
  rw [if_neg hd]
  obtain ⟨-, lines⟩ := h.undecided (by simpa using hd)
  dsimp only
  split
  next htt => exact .of_decided rfl fun _ => .inl htt
  next htt =>
    split_ifs with hfile
    · refine .of_decided rfl fun _ => .inr ⟨htt, .inl ?_⟩
      obtain ⟨d, hdm, htype, hname⟩ := exists_isCalled (List.any_eq_true.1 hfile)
      obtain ⟨r, hr, hrt, hrn⟩ := lines d hdm (by rw [htype]; decide)
      exact ⟨r, hr, hrt.trans htype, hrn.trans hname⟩
    · split
      next t' hadd =>
        refine .of_decided (addResource_decided hadd) fun _ => .inr ⟨htt, .inr ?_⟩
        rcases of_addResource (by decide) hadd with ⟨d, hdm, htype, hname⟩ | hfound
        · obtain ⟨r, hr, hrt, hrn⟩ := lines d hdm (by rw [htype]; decide)
          exact .inl ⟨r, hr, hrt.trans htype, hrn.trans hname⟩
        · exact .inr hfound
      next => exact .of_decided rfl nofun
  next => exact .of_decided rfl nofun

theorem TableOf.tryRasterizer {t : Resources} (h : TableOf env rs t) (features : CInt) :
    TableOf env rs (env.tryRasterizer t features).1 ∧
      ((env.tryRasterizer t features).2 = true → env.Usable rs features) := by
  unfold CapableEnv.tryRasterizer
  split_ifs with h42 httf
  · refine ⟨h.wantTtrasterizer, fun hok _ h1 => h.wantTtrasterizer.rasterizer ?_⟩
    simpa [h1] using hok
  · exact ⟨h.wantTtrasterizer, fun _ hc => absurd hc h42⟩
  · exact ⟨h, fun _ hc => absurd hc h42⟩

/-! ## The search -/

theorem TableOf.substitute {t : Resources} (h : TableOf env rs t)
    (l : List (List Byte × List Byte)) :
    TableOf env rs (env.substitute t l).1 ∧ ((env.substitute t l).2.isSome = true →
      ∃ c ∈ l, env.fontPresent c.1 = true ∨ env.InCache rs (ascii "font") c.1 0 0) := by
  induction l generalizing t with
  | nil => exact ⟨h, nofun⟩
  | cons c l ih =>
    -- The search goes on with another table.
    have more : ∀ {t}, TableOf env rs t → TableOf env rs (env.substitute t l).1 ∧
        ((env.substitute t l).2.isSome = true → ∃ d ∈ c :: l,
          env.fontPresent d.1 = true ∨ env.InCache rs (ascii "font") d.1 0 0) := by
      intro t ht
      refine ⟨(ih ht).1, fun hs => ?_⟩
      obtain ⟨d, hd, hfound⟩ := (ih ht).2 hs
      exact ⟨d, List.mem_cons_of_mem c hd, hfound⟩
    unfold CapableEnv.substitute
    split_ifs with hp
    · exact ⟨h, fun _ => ⟨c, List.mem_cons_self .., .inl hp⟩⟩
    · split
      next => exact more h
      next fnptr features hfound =>
        obtain ⟨ht, hok⟩ := h.tryRasterizer features
        split
        next t' htry =>
          rw [htry] at ht hok
          exact ⟨ht, fun _ => ⟨c, List.mem_cons_self .., .inr ⟨_, _, hfound, hok rfl⟩⟩⟩
        next t' htry =>
          rw [htry] at ht
          exact more ht

/-- What is found is there, and the table is still one of the job. -/
def Finds (env : CapableEnv) (rs : List ResLine) (r : ResLine) : Found → Prop
  | .inPrinter => env.Available rs r
  | .cached t _ _ => TableOf env rs t ∧ env.Available rs r
  | .unusable t => TableOf env rs t
  | .substituted t _ => TableOf env rs t ∧
      env.attr.proofmode = proofmodeSubstitute ∧ env.Substitutable rs r
  | .missing t => TableOf env rs t

theorem TableOf.find {t : Resources} (h : TableOf env rs t) (r : ResLine) :
    env.Finds rs r (env.find t r) := by
  unfold CapableEnv.find
  dsimp only
  by_cases hp : (decide (r.type = ascii "font") && env.fontPresent r.name) = true
  · rw [if_pos hp]
    rw [Bool.and_eq_true, decide_eq_true_eq] at hp
    exact .inl hp
  rw [if_neg hp]
  by_cases hi : isInternal env.printer.ppd.features.languageLevel r.type r.name = true
  · rw [if_pos hi]
    exact .inr (.inl hi)
  rw [if_neg hi]
  split
  next fnptr features hfound =>
    obtain ⟨ht, hok⟩ := h.tryRasterizer features
    split
    next t' htry =>
      rw [htry] at ht hok
      exact ⟨ht, .inr (.inr ⟨_, _, hfound, hok rfl⟩)⟩
    next t' htry =>
      rw [htry] at ht
      exact ht
  next =>
    split
    next hs =>
      obtain ⟨ht, hsome⟩ := h.substitute (env.substitutes r.name)
      rw [Bool.and_eq_true, decide_eq_true_eq, decide_eq_true_eq] at hs
      split
      next t' sub hsub =>
        rw [hsub] at ht hsome
        exact ⟨ht, hs.2, hs.1, hsome rfl⟩
      next t' hsub =>
        rw [hsub] at ht
        exact ht
    next => exact h

/-! A search that leaves the rasterizer undecided has changed nothing. -/

theorem wantTtrasterizer_decided (cache : Cache) (ppd : PpdState) (t : Resources) :
    (t.wantTtrasterizer cache ppd).decided = true := by
  unfold Resources.wantTtrasterizer
  split_ifs with hd
  · exact hd
  · dsimp only
    split
    · rfl
    · split_ifs
      · rfl
      · split
        next hadd => exact addResource_decided hadd
        next => rfl
    · rfl

theorem tryRasterizer_undecided {t : Resources} {features : CInt}
    (h : (env.tryRasterizer t features).1.decided = false) :
    (env.tryRasterizer t features).1 = t := by
  have decided := wantTtrasterizer_decided env.cache env.printer.ppd t
  unfold CapableEnv.tryRasterizer at h ⊢
  split_ifs at h ⊢
  · exact absurd (decided.symm.trans h) (by decide)
  · exact absurd (decided.symm.trans h) (by decide)
  · rfl

theorem substitute_undecided {t : Resources} {l : List (List Byte × List Byte)}
    (h : (env.substitute t l).1.decided = false) : (env.substitute t l).1 = t := by
  induction l generalizing t with
  | nil => rfl
  | cons c l ih =>
    unfold CapableEnv.substitute at h ⊢
    split_ifs at h ⊢ with hp
    · rfl
    · split at h
      next => exact ih h
      next fnptr features hfound =>
        have same := @tryRasterizer_undecided env t features
        split at h
        next t' htry =>
          rw [htry] at same
          exact same h
        next t' htry =>
          rw [htry] at same
          have ht := ih h
          rw [ht] at h ⊢
          exact same h

theorem find_undecided {t t' : Resources} {r : ResLine} {sub : Substitute}
    (h : env.find t r = .substituted t' sub) (hd : t'.decided = false) : t' = t := by
  unfold CapableEnv.find at h
  dsimp only at h
  split at h
  · cases h
  split at h
  · cases h
  split at h
  · split at h <;> cases h
  · split at h
    · split at h
      next hsub =>
        cases h
        have same := @substitute_undecided env t (env.substitutes r.name)
        rw [hsub] at same
        exact same hd
      · cases h
    · cases h

end CapableEnv

/-! ## A round of the loop over the resources -/

namespace Checked

open CapableEnv

variable {env : CapableEnv} {rs : List ResLine} {groupPass : ℤ}

/-- The printer is not accepted if anything is missing. -/
def Strict (env : CapableEnv) (groupPass : ℤ) : Prop :=
  groupPass = 1 ∨ env.attr.proofmode = proofmodeNotifyme

theorem Strict.goesAhead (h : Strict env groupPass) (isFont : Bool) :
    env.goesAhead groupPass isFont = false := by
  unfold CapableEnv.goesAhead
  rcases h with rfl | h
  · simp
  · simp [h]

theorem refuse_incapable (s : Checked) (b : Bool) : (s.refuse b).incapable = (s.incapable || b) :=
  rfl

theorem addDrvres_tableOf {t : Resources} (h : TableOf env rs t) {r : ResLine} (hr : r ∈ rs) :
    TableOf env rs
      (t.addDrvres r.needed r.fixinclude r.type r.name r.version r.revision) where
  undecided hd := by
    refine ⟨(h.undecided hd).1, fun d hm hf => ?_⟩
    rcases List.mem_append.1 hm with hm | hm
    · exact (h.undecided hd).2 d hm hf
    · refine ⟨r, hr, ?_⟩
      rw [List.mem_singleton.1 hm]
      split_ifs
      · unfold DrvRes.force
        split_ifs <;> exact ⟨rfl, rfl⟩
      · exact ⟨rfl, rfl⟩
  rasterizer := h.rasterizer

/-- An entry may be changed, but its type and the name of what is no font must stay. -/
theorem modify_tableOf {t : Resources} (h : TableOf env rs t) {x : ℕ} {f : DrvRes → DrvRes}
    (hf : t.decided = false → ∀ d, t.drvres[x]? = some d →
      (f d).type = d.type ∧ (d.type ≠ ascii "font" → (f d).name = d.name)) :
    TableOf env rs { t with drvres := t.drvres.modify x f } where
  undecided hd := by
    refine ⟨(h.undecided hd).1, fun d hm hfont => ?_⟩
    rcases List.mem_modify hm with hm | ⟨e, hem, hx, rfl⟩
    · exact (h.undecided hd).2 d hm hfont
    · obtain ⟨ht, hn⟩ := hf hd e hx
      rw [ht] at hfont
      rw [ht, hn hfont]
      exact (h.undecided hd).2 e hem hfont
  rasterizer := h.rasterizer

/-- What a round does: it keeps the table one of the job, and if nothing may be missing and the
printer is still capable, the resource is there. -/
structure Round (env : CapableEnv) (rs : List ResLine) (groupPass : ℤ) (incapable : Bool)
    (r : ResLine) (t : Checked) : Prop where
  table : TableOf env rs t.resources
  capable : t.incapable = false → incapable = false
  found : Strict env groupPass → t.incapable = false → r.needed = true →
    env.Available rs r ∨ (env.attr.proofmode = proofmodeSubstitute ∧ env.Substitutable rs r)

theorem needed_round {s : Checked} (h : TableOf env rs s.resources) {x : ℕ} {r : ResLine}
    (hx : ∀ d, s.resources.drvres[x]? = some d → d.type = r.type) :
    Round env rs groupPass s.incapable r (s.needed env groupPass x r) := by
  have hfind := h.find r
  unfold Checked.needed
  split
  next hf =>
    rw [hf] at hfind
    exact ⟨h, id, fun _ _ _ => .inl hfind⟩
  next t fnptr features hf =>
    rw [hf] at hfind
    exact ⟨modify_tableOf hfind.1 fun _ _ _ => ⟨rfl, fun _ => rfl⟩, id, fun _ _ _ => .inl hfind.2⟩
  next t hf =>
    rw [hf] at hfind
    have refused : ((Checked.refuse { s with resources := t } true).incapable = false) → False := by
      rw [refuse_incapable, Bool.or_true]
      exact nofun
    exact ⟨hfind, fun hi => (refused hi).elim, fun _ hi => (refused hi).elim⟩
  next t sub hf =>
    have same := find_undecided hf
    rw [hf] at hfind
    refine ⟨modify_tableOf hfind.1 fun hd d hdx => ⟨rfl, fun hfont => ?_⟩, id,
      fun _ _ _ => .inr hfind.2⟩
    -- Only fonts are substituted.
    rw [same hd] at hdx
    exact absurd ((hx d hdx).trans hfind.2.2.1) hfont
  next t hf =>
    rw [hf] at hfind
    have refused : (Checked.missing env groupPass { s with resources := t }
        (r.type = ascii "font")).incapable = false →
        s.incapable = false ∧ env.goesAhead groupPass (r.type = ascii "font") = true := by
      unfold Checked.missing
      rw [refuse_incapable]
      split_ifs <;> simp
    refine ⟨?_, fun hi => (refused hi).1, fun hs hi => ?_⟩
    · unfold Checked.missing
      split_ifs <;> exact hfind
    · have := (refused hi).2
      rw [hs.goesAhead] at this
      cases this

theorem resource_round {s : Checked} (h : TableOf env rs s.resources) {r : ResLine} (hr : r ∈ rs) :
    Round env rs groupPass s.incapable r (s.resource env groupPass r) := by
  have htable := addDrvres_tableOf h hr
  unfold Checked.resource
  dsimp only
  split_ifs with hn
  · refine needed_round (s := { s with resources := _ }) htable fun d hd => ?_
    rw [List.getElem?_append_right le_rfl, Nat.sub_self, List.getElem?_cons_zero] at hd
    cases hd
    split_ifs
    · unfold DrvRes.force
      split_ifs <;> rfl
    · rfl
  · exact ⟨htable, id, fun _ _ hn' => absurd hn' hn⟩

/-! ## What is checked behind the loop -/

/-- The variables with another verdict. -/
def judged (s : Checked) (b : Bool) : Checked := { s with incapable := b }

@[simp] theorem judged_incapable (s : Checked) (b : Bool) : (s.judged b).incapable = b := rfl

/-- The function looks at other variables than `incapable` only, and it may refuse the printer. -/
def MayRefuse (f : Checked → Checked) : Prop :=
  ∀ s, ∃ c, ∀ b, f (s.judged b) = (f s).judged (b || c)

theorem MayRefuse.comp {f g : Checked → Checked} (hf : MayRefuse f) (hg : MayRefuse g) :
    MayRefuse fun s => g (f s) := by
  intro s
  obtain ⟨c, hc⟩ := hf s
  obtain ⟨d, hd⟩ := hg (f s)
  refine ⟨c || d, fun b => ?_⟩
  dsimp only
  rw [hc, hd, Bool.or_assoc]

theorem MayRefuse.incapable {f : Checked → Checked} (hf : MayRefuse f) (s : Checked) :
    ∃ c, (f s).incapable = (s.incapable || c) := by
  obtain ⟨c, hc⟩ := hf s
  exact ⟨c, congrArg Checked.incapable (hc s.incapable)⟩

/-- A check of one thing: what it counts is no concern here. -/
theorem mayRefuse_ite {p : Checked → Prop} [DecidablePred p] {g : Checked → Checked}
    (hp : ∀ s b, p (judged s b) ↔ p s) (hg : ∀ s b, g (judged s b) = (g s).judged b) :
    MayRefuse fun s => if p s then (g s).refuse true else s := by
  intro s
  by_cases h : p s
  · refine ⟨true, fun b => ?_⟩
    dsimp only
    rw [if_pos ((hp s b).2 h), if_pos h, hg]
    unfold refuse judged
    rw [Bool.or_true, Bool.or_true]
  · refine ⟨false, fun b => ?_⟩
    dsimp only
    rw [if_neg (fun hb => h ((hp s b).1 hb)), if_neg h, Bool.or_false]

theorem mayRefuse_langlevel (env : CapableEnv) : MayRefuse (langlevel env) :=
  mayRefuse_ite (fun _ _ => Iff.rfl) fun _ _ => rfl

theorem mayRefuse_extensions (env : CapableEnv) : MayRefuse (extensions env) :=
  mayRefuse_ite (fun _ _ => Iff.rfl) fun _ _ => rfl

theorem mayRefuse_grayOK (env : CapableEnv) : MayRefuse (grayOK env) :=
  mayRefuse_ite (fun _ _ => Iff.rfl) fun _ _ => rfl

theorem mayRefuse_pageslimit (env : CapableEnv) : MayRefuse (pageslimit env) :=
  mayRefuse_ite (fun _ _ => Iff.rfl) fun _ _ => rfl

theorem mayRefuse_kilobyteslimit (env : CapableEnv) : MayRefuse (kilobyteslimit env) :=
  mayRefuse_ite (fun _ _ => Iff.rfl) fun _ _ => rfl

/-- If the codes are known, nothing but the verdict depends on the channel. -/
theorem passesCodes_eq {env : CapableEnv} {s t : Checked} (h : s.passesCodes env = .ok t) :
    ∃ f, MayRefuse f ∧ ∀ s, passesCodes env s = .ok (f s) := by
  unfold passesCodes at h
  obtain ⟨required, hr, h⟩ := bind_eq_ok h
  obtain ⟨available, ha, -⟩ := bind_eq_ok h
  refine ⟨fun s => if available < required then
      { s with incapableCodes := s.incapableCodes + 1 }.refuse true else s,
    mayRefuse_ite (fun _ _ => Iff.rfl) fun _ _ => rfl, fun s => ?_⟩
  unfold passesCodes
  rw [hr, ha]
  rfl

theorem attributes_eq {env : CapableEnv} {s t : Checked} (h : s.attributes env = .ok t) :
    ∃ f, MayRefuse f ∧ ∀ s, attributes env s = .ok (f s) := by
  unfold attributes at h
  obtain ⟨u, hu, -⟩ := bind_eq_ok h
  obtain ⟨f, hf, hfs⟩ := passesCodes_eq hu
  refine ⟨fun s => ((f (((s.langlevel env).extensions env).grayOK env)).pageslimit env).kilobyteslimit
      env, ?_, fun s => ?_⟩
  · exact ((((mayRefuse_langlevel env).comp (mayRefuse_extensions env)).comp
      (mayRefuse_grayOK env)).comp hf).comp (mayRefuse_pageslimit env) |>.comp
        (mayRefuse_kilobyteslimit env)
  · unfold attributes
    rw [hfs]
    rfl

/-! ## The loops -/

theorem of_readRes {line : List Byte} {r : ResLine} (h : readRes line = .ok r) :
    resFields line = some r := by
  unfold readRes at h
  split at h
  · split at h
    next hr =>
      cases h
      exact hr
    next => cases h
  · cases h

theorem of_readReq {line f1 : List Byte} (h : readReq line = .ok f1) : reqField line = some f1 := by
  unfold readReq at h
  unfold reqField
  split at h
  · split at h
    next hp =>
      rw [hp]
      split at h
      next hf =>
        cases h
        rw [Option.bind_eq_bind, Option.bind_some]
        dsimp only
        rw [hf]
        rfl
      next => cases h
    next => cases h
  · cases h

theorem jobResources_endRes (qfile : List (List Byte)) :
    jobResources (ascii "EndRes" :: qfile) = [] := by
  simp [jobResources]

theorem jobResources_cons {qline : List Byte} (hend : qline ≠ ascii "EndRes") {r : ResLine}
    (hr : resFields qline = some r) (qfile : List (List Byte)) :
    jobResources (qline :: qfile) = r :: jobResources qfile := by
  simp [jobResources, hend, hr]

theorem reqFields_endReq (qfile : List (List Byte)) : reqFields (ascii "EndReq" :: qfile) = [] := by
  simp [reqFields]

theorem reqFields_cons {qline : List Byte} (hend : qline ≠ ascii "EndReq") {f1 : List Byte}
    (hf : reqField qline = some f1) (qfile : List (List Byte)) :
    reqFields (qline :: qfile) = f1 :: reqFields qfile := by
  simp [reqFields, hend, hf]

theorem resourceLoop_honest {qfile rest : List (List Byte)} {s t : Checked}
    (h : resourceLoop env groupPass qfile s = .ok (t, rest)) (hs : TableOf env rs s.resources)
    (hrs : ∀ r ∈ jobResources qfile, r ∈ rs) :
    rest = (qfile.dropWhile (· ≠ ascii "EndRes")).tail ∧
      (t.incapable = false → s.incapable = false ∧ (Strict env groupPass →
        ∀ r ∈ jobResources qfile, r.needed = true → env.Available rs r ∨
          (env.attr.proofmode = proofmodeSubstitute ∧ env.Substitutable rs r))) := by
  induction qfile generalizing s with
  | nil =>
    cases h
    exact ⟨rfl, fun hi => ⟨hi, fun _ r hr => by cases hr⟩⟩
  | cons qline qfile ih =>
    unfold resourceLoop at h
    by_cases hend : qline = ascii "EndRes"
    · rw [if_pos hend] at h
      cases h
      subst hend
      rw [jobResources_endRes]
      exact ⟨by simp, fun hi => ⟨hi, fun _ r hr => by cases hr⟩⟩
    · rw [if_neg hend] at h
      obtain ⟨r, hr, h⟩ := bind_eq_ok h
      rw [jobResources_cons hend (of_readRes hr)] at hrs ⊢
      have round : Round env rs groupPass s.incapable r (s.resource env groupPass r) :=
        resource_round hs (hrs r (List.mem_cons_self ..))
      obtain ⟨hrest, hcap⟩ := ih h round.table fun r' hr' => hrs r' (List.mem_cons_of_mem r hr')
      refine ⟨?_, fun hi => ?_⟩
      · rwa [List.dropWhile_cons_of_pos (by simpa using hend)]
      obtain ⟨hi, hfound⟩ := hcap hi
      refine ⟨round.capable hi, fun hstrict => ?_⟩
      rw [List.forall_mem_cons]
      exact ⟨round.found hstrict hi, hfound hstrict⟩

theorem requirementLoop_honest {qfile : List (List Byte)} {s t : Checked}
    (h : requirementLoop env groupPass qfile s = .ok t) (hi : t.incapable = false) :
    s.incapable = false ∧ (Strict env groupPass → env.MeetsAll (reqFields qfile)) := by
  induction qfile generalizing s with
  | nil =>
    cases h
    exact ⟨hi, fun _ f1 hf => by cases hf⟩
  | cons qline qfile ih =>
    unfold requirementLoop at h
    by_cases hend : qline = ascii "EndReq"
    · rw [if_pos hend] at h
      cases h
      rw [hend, reqFields_endReq]
      exact ⟨hi, fun _ f1 hf => by cases hf⟩
    · rw [if_neg hend] at h
      split_ifs at h
      obtain ⟨f1, hf, h⟩ := bind_eq_ok h
      obtain ⟨hs, hmeets⟩ := ih h
      unfold requirement at hs
      dsimp only at hs
      split_ifs at hs with hmet
      · refine ⟨hs, fun hstrict => ?_⟩
        unfold MeetsAll at hmeets ⊢
        rw [reqFields_cons hend (of_readReq hf), List.forall_mem_cons]
        exact ⟨meets_of_isMet hmet, hmeets hstrict⟩
      · rw [refuse_incapable, Bool.or_eq_false_iff] at hs
        refine ⟨hs.1, fun hstrict => ?_⟩
        rcases hstrict with hp | hp <;> simp [hp] at hs

/-! ## The passes compared -/

/-- The same variables, but the printer may be judged capable where it was not. -/
def Laxer (t s : Checked) : Prop := ∃ b, t = s.judged b ∧ (b = true → s.incapable = true)

theorem Laxer.refuse {s t : Checked} (h : Laxer t s) {c d : Bool} (hcd : c = true → d = true) :
    Laxer (t.refuse c) (s.refuse d) := by
  obtain ⟨b, rfl, hb⟩ := h
  refine ⟨b || c, rfl, fun hor => ?_⟩
  rw [refuse_incapable]
  rcases Bool.or_eq_true_iff.1 hor with hb' | hc
  · rw [hb hb', Bool.true_or]
  · rw [hcd hc, Bool.or_true]

/-- What does not look at the verdict keeps the relation. -/
theorem Laxer.map {s t : Checked} (h : Laxer t s) (f : Checked → Checked)
    (hf : ∀ s b, f (judged s b) = (f s).judged b) (hi : (f s).incapable = s.incapable) :
    Laxer (f t) (f s) := by
  obtain ⟨b, rfl, hb⟩ := h
  exact ⟨b, hf s b, fun h => hi.trans (hb h)⟩

theorem Laxer.mayRefuse {s t : Checked} (h : Laxer t s) {f : Checked → Checked} (hf : MayRefuse f) :
    Laxer (f t) (f s) := by
  obtain ⟨b, rfl, hb⟩ := h
  obtain ⟨c, hc⟩ := hf s
  have hi : (f s).incapable = (s.incapable || c) := congrArg Checked.incapable (hc s.incapable)
  refine ⟨b || c, hc b, fun hor => ?_⟩
  rw [hi]
  rcases Bool.or_eq_true_iff.1 hor with hb' | hc'
  · rw [hb hb', Bool.true_or]
  · rw [hc', Bool.or_true]

theorem Laxer.missing {s t : Checked} (h : Laxer t s) (isFont : Bool) :
    Laxer (t.missing env groupPass isFont) (s.missing env 1 isFont) := by
  unfold Checked.missing
  refine Laxer.refuse ?_ fun _ => ?_
  · split_ifs
    · exact h.map (fun s => { s with incapableFonts := s.incapableFonts + 1 }) (fun _ _ => rfl) rfl
    · exact h.map (fun s => { s with incapableResources := s.incapableResources + 1 })
        (fun _ _ => rfl) rfl
  · rw [Strict.goesAhead (.inl rfl)]
    rfl

theorem Laxer.needed {s t : Checked} (h : Laxer t s) (x : ℕ) (r : ResLine) :
    Laxer (t.needed env groupPass x r) (s.needed env 1 x r) := by
  have hres : t.resources = s.resources := by
    obtain ⟨b, rfl, -⟩ := h
    rfl
  unfold Checked.needed
  rw [hres]
  cases env.find s.resources r with
  | inPrinter => exact h
  | cached u fnptr features => exact h.map (·.modify u x (·.cached fnptr features)) (fun _ _ => rfl) rfl
  | unusable u => exact (h.map (fun s => { s with resources := u }) (fun _ _ => rfl) rfl).refuse id
  | substituted u sub => exact h.map (·.modify u x (·.substituted sub)) (fun _ _ => rfl) rfl
  | missing u => exact (h.map (fun s => { s with resources := u }) (fun _ _ => rfl) rfl).missing _

theorem Laxer.resource {s t : Checked} (h : Laxer t s) (r : ResLine) :
    Laxer (t.resource env groupPass r) (s.resource env 1 r) := by
  have hres : t.resources = s.resources := by
    obtain ⟨b, rfl, -⟩ := h
    rfl
  let add : Resources → Resources := fun u =>
    u.addDrvres r.needed r.fixinclude r.type r.name r.version r.revision
  have hadd := h.map (fun s => { s with resources := add s.resources }) (fun _ _ => rfl) rfl
  unfold Checked.resource
  dsimp only
  split_ifs
  · rw [hres] at hadd ⊢
    exact hadd.needed _ r
  · exact hadd

theorem Laxer.requirement {s t : Checked} (h : Laxer t s) (f1 : List Byte) :
    Laxer (t.requirement env groupPass f1) (s.requirement env 1 f1) := by
  have hreq := h.map (fun s => { s with
    drvreq := s.drvreq ++ [f1]
    colorDocument := s.colorDocument || decide (f1 = ascii "color") }) (fun _ _ => rfl) rfl
  unfold Checked.requirement
  dsimp only
  split_ifs
  · exact hreq
  · refine Laxer.refuse ?_ fun _ => by simp
    exact hreq.map (fun s => { s with incapableRequirements := s.incapableRequirements + 1 })
      (fun _ _ => rfl) rfl

variable (groupPass)

theorem Laxer.resourceLoop {qfile rest : List (List Byte)} {s s' t : Checked} (h : Laxer t s)
    (hs : resourceLoop env 1 qfile s = .ok (s', rest)) :
    ∃ t', Pprdrv.resourceLoop env groupPass qfile t = .ok (t', rest) ∧ Laxer t' s' := by
  induction qfile generalizing s t with
  | nil =>
    cases hs
    exact ⟨t, rfl, h⟩
  | cons qline qfile ih =>
    unfold Pprdrv.resourceLoop at hs ⊢
    split_ifs at hs ⊢ with hend
    · cases hs
      exact ⟨t, rfl, h⟩
    · obtain ⟨r, hr, hs⟩ := bind_eq_ok hs
      rw [hr]
      exact ih (h.resource r) hs

theorem Laxer.requirementLoop {qfile : List (List Byte)} {s s' t : Checked} (h : Laxer t s)
    (hs : requirementLoop env 1 qfile s = .ok s') :
    ∃ t', Pprdrv.requirementLoop env groupPass qfile t = .ok t' ∧ Laxer t' s' := by
  induction qfile generalizing s t with
  | nil =>
    cases hs
    exact ⟨t, rfl, h⟩
  | cons qline qfile ih =>
    have hreq : t.drvreq = s.drvreq := by
      obtain ⟨b, rfl, -⟩ := h
      rfl
    unfold Pprdrv.requirementLoop at hs ⊢
    rw [hreq]
    split_ifs at hs ⊢ with hend hfull
    · cases hs
      exact ⟨t, rfl, h⟩
    · obtain ⟨f1, hf, hs⟩ := bind_eq_ok hs
      rw [hf]
      exact ih (h.requirement f1) hs

end Checked

namespace CapableEnv

open Checked

variable {env : CapableEnv} {groupPass : ℤ} {qfile : List (List Byte)}

theorem accepts_iff : env.Accepts groupPass qfile ↔ ∃ s₁ rest s₂ s,
    resourceLoop env groupPass qfile {} = .ok (s₁, rest) ∧
      requirementLoop env groupPass rest s₁ = .ok s₂ ∧ s₂.attributes env = .ok s ∧
      s.incapable = false := by
  unfold CapableEnv.Accepts checkIfCapable
  constructor
  · rintro ⟨s, reason, h, hi⟩
    obtain ⟨⟨s₁, rest⟩, h₁, h⟩ := bind_eq_ok h
    obtain ⟨s₂, h₂, h⟩ := bind_eq_ok h
    obtain ⟨s₃, h₃, h⟩ := bind_eq_ok h
    cases h
    exact ⟨s₁, rest, s₂, _, h₁, h₂, h₃, hi⟩
  · rintro ⟨s₁, rest, s₂, s, h₁, h₂, h₃, hi⟩
    refine ⟨s, if s.incapable ∧ groupPass < 2 ∧ s.reason ≠ [] then some s.reason else none, ?_, hi⟩
    rw [h₁]
    show (requirementLoop env groupPass rest s₁ >>= _) = _
    rw [h₂]
    show (s₂.attributes env >>= _) = _
    rw [h₃]
    rfl

/-- What the first pass accepts is accepted on every pass. -/
theorem Accepts.of_first (h : env.Accepts 1 qfile) (groupPass : ℤ) :
    env.Accepts groupPass qfile := by
  obtain ⟨s₁, rest, s₂, s, h₁, h₂, h₃, hi⟩ := accepts_iff.1 h
  obtain ⟨t₁, ht₁, hl₁⟩ := Laxer.resourceLoop groupPass ⟨_, rfl, id⟩ h₁
  obtain ⟨t₂, ht₂, hl₂⟩ := hl₁.requirementLoop groupPass h₂
  obtain ⟨f, hf, hfs⟩ := attributes_eq h₃
  rw [hfs] at h₃
  cases h₃
  obtain ⟨b, ht, hb⟩ := hl₂.mayRefuse hf
  refine accepts_iff.2 ⟨t₁, rest, t₂, f t₂, ht₁, ht₂, hfs t₂, ?_⟩
  rw [ht, judged_incapable]
  exact Bool.eq_false_iff.2 fun hbt => absurd (hb hbt) (by simp [hi])

/-- What is accepted where nothing may be missing has everything, or substitutes for it. -/
theorem Accepts.of_strict (h : env.Accepts groupPass qfile) (hstrict : Strict env groupPass) :
    env.HasResourcesOrSubstitutes (jobResources qfile) ∧ env.MeetsAll (jobRequirements qfile) := by
  obtain ⟨s₁, rest, s₂, s, h₁, h₂, h₃, hi⟩ := accepts_iff.1 h
  obtain ⟨f, hf, hfs⟩ := attributes_eq h₃
  rw [hfs] at h₃
  cases h₃
  obtain ⟨c, hc⟩ := hf.incapable s₂
  rw [hc, Bool.or_eq_false_iff] at hi
  obtain ⟨hi₁, hmeets⟩ := requirementLoop_honest h₂ hi.1
  have empty : TableOf env (jobResources qfile) ({} : Checked).resources :=
    ⟨fun _ => ⟨rfl, fun d hd => by cases hd⟩, nofun⟩
  obtain ⟨hrest, hcap⟩ := resourceLoop_honest h₁ empty fun r hr => hr
  rw [hrest] at hmeets
  exact ⟨(hcap hi₁).2 hstrict, hmeets hstrict⟩

end CapableEnv

/-- What is accepted on the first pass is accepted on every pass.  It has everything that the job
needs, in the printer, built in or in the cache, but for fonts that have a substitute if the ProofMode
is "Substitute"; with "NotifyMe" it has everything on any pass. -/
theorem checkIfCapable_honest (env : CapableEnv) (qfile : List (List Byte)) :
    (env.Accepts 1 qfile → ∀ groupPass, env.Accepts groupPass qfile) ∧
      (env.Accepts 1 qfile → env.HasResourcesOrSubstitutes (jobResources qfile) ∧
        (env.attr.proofmode ≠ proofmodeSubstitute → env.HasResources (jobResources qfile)) ∧
        env.MeetsAll (jobRequirements qfile)) ∧
      (env.attr.proofmode = proofmodeNotifyme → ∀ groupPass, env.Accepts groupPass qfile →
        env.HasResources (jobResources qfile) ∧ env.MeetsAll (jobRequirements qfile)) := by
  have unsubstituted : ∀ {rs}, env.HasResourcesOrSubstitutes rs →
      env.attr.proofmode ≠ proofmodeSubstitute → env.HasResources rs := by
    intro rs h hp r hr hn
    exact (h r hr hn).resolve_right fun hs => hp hs.1
  refine ⟨fun h => h.of_first, fun h => ?_, fun hp groupPass h => ?_⟩
  · obtain ⟨hres, hreq⟩ := h.of_strict (.inl rfl)
    exact ⟨hres, unsubstituted hres, hreq⟩
  · obtain ⟨hres, hreq⟩ := h.of_strict (.inr hp)
    refine ⟨unsubstituted hres ?_, hreq⟩
    rw [hp]
    decide

/-- A color printer that has no font but Courier, and no cache. -/
def courierOnly (proofmode : CInt) : CapableEnv where
  printer := {
    conf := { codes := codesBinary }
    ppd := PpdState.font { features := { colorDevice := true, languageLevel := 2 } } (ascii "Courier")
    ripOptions := [] }
  attr := { (default : QEntryFile.Attr) with langlevel := 2, proofmode := proofmode, pages := 1 }
  cache := { fontIndex := none, tryResourceDir := fun _ _ _ _ => none }
  fontsub := some (ascii "Foo\n\tCourier\n")

/-- A job that needs a font. -/
def fontJob (name : String) : List (List Byte) :=
  [ascii "Res: 1 0 font " ++ ascii name ++ ascii " 0 0", ascii "EndRes", ascii "Req: color",
    ascii "EndReq"]

/-- A printer for which the run ends with this verdict. -/
theorem accepts_of_run {env : CapableEnv} {groupPass : ℤ} {qfile : List (List Byte)}
    (h : ((checkIfCapable env groupPass qfile).map (·.1.incapable)).toOption = some false) :
    env.Accepts groupPass qfile := by
  cases hc : checkIfCapable env groupPass qfile with
  | error e =>
    rw [hc] at h
    cases h
  | ok r =>
    rw [hc] at h
    exact ⟨r.1, r.2, hc, Option.some.inj h⟩

theorem checkIfCapable_courier :
    (courierOnly proofmodeNotifyme).Accepts 2 (fontJob "Courier") ∧
      (courierOnly proofmodeNotifyme).HasResources (jobResources (fontJob "Courier")) := by
  obtain ⟨onEvery, -, strictly⟩ :=
    checkIfCapable_honest (courierOnly proofmodeNotifyme) (fontJob "Courier")
  have first : (courierOnly proofmodeNotifyme).Accepts 1 (fontJob "Courier") := by
    apply accepts_of_run
    decide +kernel
  exact ⟨onEvery first 2, (strictly rfl 1 first).1⟩

/-- On the first pass too, a font is substituted. -/
theorem not_honest_of_substitute :
    (courierOnly proofmodeSubstitute).Accepts 1 (fontJob "Foo") ∧
      ¬ (courierOnly proofmodeSubstitute).HasResources (jobResources (fontJob "Foo")) := by
  refine ⟨?_, fun h => ?_⟩
  · apply accepts_of_run
    decide +kernel
  · have foo : (⟨true, false, ascii "font", ascii "Foo", 0, 0⟩ : ResLine) ∈
        jobResources (fontJob "Foo") := by
      decide +kernel
    rcases h _ foo rfl with ⟨-, hp⟩ | hi | ⟨fnptr, features, hc, -⟩
    · exact absurd hp (by decide +kernel)
    · exact absurd hi (by decide +kernel)
    · rw [show findResource (courierOnly proofmodeSubstitute).cache (ascii "font") (ascii "Foo") 0 0 =
        none from rfl] at hc
      cases hc

end Ppr.Pprdrv
