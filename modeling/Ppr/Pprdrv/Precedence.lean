import Ppr.Lib.Outcome
import Ppr.Pprdrv.PrinterConf

/-!
# Precedence of the settings of a printer

What the configuration file of a printer says comes before what its PPD file says and before what its
interface suggests.  `wantedSettings` looks each setting up in that order.  The code does the same for
all of them but one: a "*DefaultOutputOrder:" line is followed even if there was an "OutputOrder:"
line.
-/

namespace Ppr.Pprdrv

/-! ## What lines say -/

namespace ConfLine

def interface? : ConfLine → Option (List Byte)
  | interface name => some name
  | _ => none

def outputOrder? : ConfLine → Option ℤ
  | outputOrder word => PpdState.outputOrderOf word
  | _ => none

def rip? : ConfLine → Option Rip
  | rip p => Conf.ripSet p
  | _ => none

def feedback? : ConfLine → Option Bool
  | feedback p => guTorf p
  | _ => none

def jobBreak? : ConfLine → Option CInt
  | jobBreak n => some n
  | _ => none

def codes? : ConfLine → Option CInt
  | codes n => some n
  | _ => none

def ppdFile? (files : PpdFiles) : ConfLine → Option (List Byte)
  | ppdFile name => (files.findFile name).toOption
  | _ => none

end ConfLine

namespace Known

def outputOrder? : Known → Option ℤ
  | defaultOutputOrder p => PpdState.outputOrderOf p
  | _ => none

def rip? : Known → Option Rip
  | pprRip p => (PpdState.ripOf p).toOption
  | _ => none

def colorDevice? : Known → Option Bool
  | colorDevice p => guTorf p
  | _ => none

/-- The filter that a "*cupsFilter:" line has for a type. -/
def filter? (type : String) : Known → Option (List Byte)
  | cupsFilter p =>
    match PpdState.cupsFilterOf p with
    | some (f1, f3) => if f1 = ascii type then some f3 else none
    | none => none
  | _ => none

def hasProtocol (protocol : String) : Known → Bool
  | protocols p => ascii protocol ∈ fields isBlank p
  | _ => false

end Known

/-- The last line that says something. -/
def lastOf {α β : Type} (f : α → Option β) (lines : List α) : Option β :=
  lines.reverse.findSome? f

/-- The last line that says something, behind the last "Interface:" line. -/
def lastOfInterface {β : Type} (f : ConfLine → Option β) (lines : List ConfLine) : Option β :=
  (lines.reverse.takeWhile fun l => !l.interface?.isSome).findSome? f

/-- The lines of a configuration file. -/
def confLines (text : List Byte) : List ConfLine := ((rawLines text).map chop).filterMap confLine?

/-- The string that a line outside of strings begins goes on behind the line. -/
def opensString (line : List Byte) : Bool :=
  line.head? = some 42 && line.tail.head? ≠ some 37 && (known? line).isNone &&
    (PpdState.valueOf line).any fun p => 34 ∉ p

/-- The keywords of a PPD file that are looked for, outside of strings. -/
def knownLines : Bool → List (List Byte) → List Known
  | _, [] => []
  | true, line :: lines => knownLines (34 ∉ line) lines
  | false, line :: lines =>
    (if line.head? = some 42 ∧ line.tail.head? ≠ some 37 then (known? line).toList else []) ++
      knownLines (opensString line) lines

/-- The keywords of the PPD file of a printer. -/
def ppdKeywords (files : PpdFiles) : Option (List Byte) → List Known
  | none => []
  | some ppdFileName =>
    match files.ppdLines ppdFileName with
    | .error _ => []
    | .ok delivered => knownLines false delivered.1

/-! ## Settings -/

/-- The settings that may come from different places. -/
structure Settings where
  outputOrder : ℤ
  rip : Option Rip
  ripOptions : List (List Byte)
  feedback : Bool
  jobbreak : CInt
  codes : CInt
  deriving DecidableEq

def PrinterRead.settings (r : PrinterRead) : Settings :=
  ⟨r.ppd.outputOrder, r.ppd.rip, r.ripOptions, r.conf.feedback, r.conf.jobbreak, r.conf.codes⟩

/-- The RIP that filters of CUPS stand for. -/
def wantedCupsRip (ppd : List Known) : Option Rip :=
  match ppd.findSome? (Known.filter? "application/vnd.cups-raster") with
  | some f => some ⟨ascii "ppr-gs", ascii "PCL", some (ascii "cups=" ++ f)⟩
  | none =>
    if ppd.findSome? (Known.filter? "application/vnd.cups-postscript") = some (ascii "pstopxl") then
      some ⟨ascii "ppr-gs", ascii "PCLXL",
        some (ascii (if (lastOf Known.colorDevice? ppd).getD false then "-sDEVICE=pxlcolor"
          else "-sDEVICE=pxlmono"))⟩
    else none

/-- The RIP: of the configuration file, else the first of the PPD file, else one for CUPS. -/
def wantedRip (conf : List ConfLine) (ppd : List Known) : Option Rip :=
  (lastOf ConfLine.rip? conf).or ((ppd.findSome? Known.rip?).or (wantedCupsRip ppd))

/-- Each setting from the configuration file if it has a valid line for it, else from the PPD file or
the interface. -/
def wantedSettings (conf : List ConfLine) (ppd : List Known) : Settings :=
  let interface := (lastOf ConfLine.interface? conf).getD []
  { outputOrder :=
      (lastOf ConfLine.outputOrder? conf).getD ((lastOf Known.outputOrder? ppd).getD 0)
    rip := wantedRip conf ppd
    ripOptions := optionWords none (((wantedRip conf ppd).bind (·.options)).getD [])
    feedback :=
      (lastOfInterface ConfLine.feedback? conf).getD (interfaceDefaultFeedback interface)
    jobbreak :=
      (lastOfInterface ConfLine.jobBreak? conf).getD
        (interfaceDefaultJobbreak interface (ppd.any (·.hasProtocol "PJL")))
    codes :=
      (lastOfInterface ConfLine.codes? conf).getD
        (interfaceDefaultCodes interface (ppd.any (·.hasProtocol "TBCP"))) }

/-- The PPD file does not contradict an "OutputOrder:" line. -/
def OutputOrderKept (conf : List ConfLine) (ppd : List Known) : Prop :=
  ∀ order ∈ lastOf ConfLine.outputOrder? conf, ∀ order' ∈ lastOf Known.outputOrder? ppd,
    order' = order

/-! ## What remains of the PPD file -/

/-- What of the state depends on keywords, as far as settings come from it. -/
structure Said where
  outputOrder : ℤ
  rip : Option Rip
  tbcp : Bool
  pjl : Bool
  raster : Option (List Byte)
  postscript : Option (List Byte)
  colorDevice : Bool

def PpdState.said (s : PpdState) : Said :=
  ⟨s.outputOrder, s.rip, s.tbcp, s.pjl, s.cupsRasterFilter, s.cupsPostscriptFilter,
    s.features.colorDevice⟩

/-- What a keyword adds. -/
def Said.hear (s : Said) (k : Known) : Said where
  outputOrder := k.outputOrder?.getD s.outputOrder
  rip := s.rip.or k.rip?
  tbcp := s.tbcp || k.hasProtocol "TBCP"
  pjl := s.pjl || k.hasProtocol "PJL"
  raster := s.raster.or (k.filter? "application/vnd.cups-raster")
  postscript := s.postscript.or (k.filter? "application/vnd.cups-postscript")
  colorDevice := k.colorDevice?.getD s.colorDevice

/-- A keyword that adds nothing. -/
theorem Said.hear_eq_self {s : Said} {k : Known} (ho : k.outputOrder? = none) (hr : k.rip? = none)
    (hp : ∀ protocol, k.hasProtocol protocol = false) (hf : ∀ type, k.filter? type = none)
    (hc : k.colorDevice? = none) : s.hear k = s := by
  rw [hear, ho, hr, hp, hp, hf, hf, hc, Option.or_none, Bool.or_false, Bool.or_false,
    Option.or_none, Option.or_none]
  rfl

namespace PpdState

open Outcome

variable (s : PpdState)

theorem stringLine_ensures (string : List Byte) :
    Ensures (s.stringLine string) fun t => t.said = s.said ∧ t.instring = s.instring := by
  unfold stringLine
  apply ensures_ite <;> intro
  · exact ensures_error
  · exact ensures_ok ⟨rfl, rfl⟩

theorem wholeString_ensures (name string : List Byte) :
    Ensures (s.wholeString name string) fun t => t.said = s.said ∧ t.instring = false := by
  refine ((s.newString name).stringLine_ensures string).bind fun t ht => ?_
  exact ensures_ok ⟨ht.1, rfl⟩

theorem papersizeMoveto_ensures (nameline : List Byte) :
    Ensures (s.papersizeMoveto nameline) fun t => t.said = s.said := by
  unfold papersizeMoveto
  apply ensures_ite <;> intro
  · exact ensures_ok rfl
  apply ensures_ite <;> intro
  · exact ensures_error
  · exact ensures_ok rfl

theorem paperLine_ensures (line p : List Byte) (hs : s.instring = false) :
    Ensures (s.paperLine line p) fun t => t.said = s.said ∧ t.instring = false := by
  unfold paperLine
  split
  · refine (s.papersizeMoveto_ensures _).bind fun t ht => ?_
    exact (t.wholeString_ensures _ _).mono fun u hu => ⟨hu.1.trans ht, hu.2⟩
  · exact ensures_ok ⟨rfl, hs⟩

theorem languageLevel_ensures (line p : List Byte) (hs : s.instring = false) :
    Ensures (s.languageLevel line p) fun t => t.said = s.said ∧ t.instring = false := by
  unfold languageLevel
  split
  · exact wholeString_ensures _ _ _
  · exact ensures_ok ⟨rfl, hs⟩

theorem cupsFilter_said (p : List Byte) :
    (s.cupsFilter p).said = s.said.hear (.cupsFilter p) ∧
      (s.cupsFilter p).instring = s.instring := by
  have ne : ascii "application/vnd.cups-raster" ≠ ascii "application/vnd.cups-postscript" := by decide
  have hear : s.said.hear (.cupsFilter p) = { s.said with
      raster := s.said.raster.or ((Known.cupsFilter p).filter? "application/vnd.cups-raster")
      postscript :=
        s.said.postscript.or ((Known.cupsFilter p).filter? "application/vnd.cups-postscript") } := by
    simp [Said.hear, Known.outputOrder?, Known.rip?, Known.hasProtocol, Known.colorDevice?]
  rw [hear]
  simp only [cupsFilter, Known.filter?]
  cases cupsFilterOf p with
  | none => simp
  | some f =>
    obtain ⟨f1, f3⟩ := f
    by_cases hr : f1 = ascii "application/vnd.cups-raster"
    · subst hr
      cases h : s.cupsRasterFilter <;> simp [said, h, ne]
    · by_cases hp : f1 = ascii "application/vnd.cups-postscript"
      · subst hp
        cases h : s.cupsPostscriptFilter <;> simp [said, h, hr]
      · simp [hr, hp]

/-- What is done about a keyword. -/
theorem known_ensures (line : List Byte) (k : Known) (hs : s.instring = false) :
    Ensures (s.known line k) fun t => t.said = s.said.hear k ∧ t.instring = false := by
  have silent : s.said.hear .ignored = s.said :=
    Said.hear_eq_self rfl rfl (fun _ => rfl) (fun _ => rfl) rfl
  cases k with
  | cupsFilter p =>
    apply ensures_ok
    rw [← hs]
    exact s.cupsFilter_said p
  | colorDevice p =>
    apply ensures_ok
    unfold colorDevice
    cases h : guTorf p <;>
      exact ⟨by simp [said, Said.hear, Known.outputOrder?, Known.rip?, Known.hasProtocol,
        Known.filter?, Known.colorDevice?, h], hs⟩
  | defaultOutputOrder p =>
    apply ensures_ok
    exact ⟨by simp [said, defaultOutputOrder, Said.hear, Known.outputOrder?, Known.rip?,
      Known.hasProtocol, Known.filter?, Known.colorDevice?], hs⟩
  | extensions p => exact ensures_ok ⟨silent.symm, hs⟩
  | faxSupport p => exact ensures_ok ⟨silent.symm, hs⟩
  | fileSystem p => exact ensures_ok ⟨silent.symm, hs⟩
  | font p => exact ensures_ok ⟨silent.symm, hs⟩
  | paper p => exact (s.paperLine_ensures line p hs).mono fun t ht => ⟨ht.1.trans silent.symm, ht.2⟩
  | languageLevel p =>
    exact (s.languageLevel_ensures line p hs).mono fun t ht => ⟨ht.1.trans silent.symm, ht.2⟩
  | protocols p =>
    apply ensures_ok
    exact ⟨by simp [said, protocols, Said.hear, Known.outputOrder?, Known.rip?,
      Known.hasProtocol, Known.filter?, Known.colorDevice?], hs⟩
  | pprRip p =>
    have hear : s.said.hear (.pprRip p) = { s.said with rip := s.rip.or (ripOf p).toOption } := by
      simp [said, Said.hear, Known.outputOrder?, Known.rip?, Known.hasProtocol, Known.filter?,
        Known.colorDevice?]
    rw [known, pprRip, hear]
    cases hr : s.rip with
    | some rip => exact ensures_ok ⟨by simp [said, hr], hs⟩
    | none =>
      intro t ht
      obtain ⟨rip, hrip, ht⟩ := bind_eq_ok ht
      cases ht
      exact ⟨by simp [said, hrip, Except.toOption], hs⟩
  | ttRasterizer p => exact ensures_ok ⟨silent.symm, hs⟩
  | ignored => exact ensures_ok ⟨silent.symm, hs⟩

theorem valueLine_ensures (line : List Byte) (hs : s.instring = true) :
    Ensures (s.valueLine line) fun t => t.said = s.said ∧ t.instring = decide (34 ∉ line) := by
  have ended : ∀ t : PpdState, t.said = s.said ∧ t.instring = s.instring →
      Ensures (.ok (if 34 ∈ line then t.endString else t) : Except FatalError PpdState) fun t =>
        t.said = s.said ∧ t.instring = decide (34 ∉ line) := by
    intro t ht
    apply ensures_ok
    by_cases h : 34 ∈ line
    · rw [if_pos h]
      exact ⟨ht.1, (decide_eq_false (not_not.2 h)).symm⟩
    · rw [if_neg h]
      exact ⟨ht.1, (ht.2.trans hs).trans (decide_eq_true h).symm⟩
  unfold valueLine
  apply ensures_ite <;> intro
  · exact (s.stringLine_ensures _).bind ended
  · exact ended s ⟨rfl, rfl⟩

theorem otherLine_ensures (line : List Byte) (hs : s.instring = false) :
    Ensures (s.otherLine line) fun t =>
      t.said = s.said ∧ t.instring = (valueOf line).any fun p => 34 ∉ p := by
  unfold otherLine
  cases hp : valueOf line with
  | none => exact ensures_ok ⟨rfl, hs⟩
  | some p =>
    refine ((s.newString line).stringLine_ensures _).bind fun t ht => ?_
    apply ensures_ok
    rw [Option.any_some]
    by_cases h : 34 ∈ p
    · rw [if_pos h]
      exact ⟨ht.1, (decide_eq_false (not_not.2 h)).symm⟩
    · rw [if_neg h]
      exact ⟨ht.1, ht.2.trans (decide_eq_true h).symm⟩

/-- What a line outside of strings adds. -/
theorem line_ensures (line : List Byte) (hs : s.instring = false) :
    Ensures (s.line line) fun t =>
      t.said = (if line.head? = some 42 ∧ line.tail.head? ≠ some 37 then (known? line).toList
        else []).foldl Said.hear s.said ∧
      t.instring = opensString line := by
  rw [PpdState.line, hs, if_neg (by decide), opensString]
  by_cases h42 : line.head? = some 42
  · rw [if_pos h42, decide_eq_true h42, Bool.true_and]
    by_cases h37 : line.tail.head? = some 37
    · rw [if_pos h37, if_neg fun h => h.2 h37, decide_eq_false (not_not.2 h37)]
      exact ensures_ok ⟨rfl, hs⟩
    · rw [if_neg h37, if_pos ⟨h42, h37⟩, decide_eq_true h37, Bool.true_and]
      cases known? line with
      | some k => exact s.known_ensures line k hs
      | none => exact s.otherLine_ensures line hs
  · rw [if_neg h42, if_neg fun h => h42 h.1, decide_eq_false h42]
    exact ensures_ok ⟨rfl, hs⟩

theorem foldlM_line_ensures (lines : List (List Byte)) :
    Ensures (lines.foldlM PpdState.line s) fun t =>
      t.said = (knownLines s.instring lines).foldl Said.hear s.said := by
  induction lines generalizing s with
  | nil => exact ensures_ok (by rw [knownLines]; rfl)
  | cons line lines ih =>
    rw [List.foldlM_cons]
    cases hs : s.instring with
    | true =>
      have hline : Ensures (s.line line) fun t =>
          t.said = s.said ∧ t.instring = decide (34 ∉ line) := by
        rw [PpdState.line, if_pos hs]
        exact s.valueLine_ensures line hs
      refine hline.bind fun t ht => (ih t).mono fun u hu => ?_
      rw [hu, ht.1, ht.2, knownLines]
    | false =>
      refine (s.line_ensures line hs).bind fun t ht => (ih t).mono fun u hu => ?_
      rw [hu, ht.1, ht.2, knownLines, List.foldl_append]

end PpdState

/-- The keywords of a PPD file together. -/
theorem foldl_hear (ks : List Known) (s : Said) :
    ks.foldl Said.hear s =
      { outputOrder := (lastOf Known.outputOrder? ks).getD s.outputOrder
        rip := s.rip.or (ks.findSome? Known.rip?)
        tbcp := s.tbcp || ks.any (·.hasProtocol "TBCP")
        pjl := s.pjl || ks.any (·.hasProtocol "PJL")
        raster := s.raster.or (ks.findSome? (Known.filter? "application/vnd.cups-raster"))
        postscript := s.postscript.or (ks.findSome? (Known.filter? "application/vnd.cups-postscript"))
        colorDevice := (lastOf Known.colorDevice? ks).getD s.colorDevice } := by
  rw [lastOf, lastOf, ← List.foldl_getD, ← List.foldl_getD, ← List.foldl_or, ← List.foldl_or,
    ← List.foldl_or]
  induction ks generalizing s with
  | nil => simp
  | cons k ks ih =>
    rw [List.foldl_cons, ih]
    simp only [List.foldl_cons, List.any_cons, Said.hear, Bool.or_assoc]

/-! ## What remains of the configuration file -/

/-- What of the state the settings come from. -/
structure Heard where
  outputOrder : ℤ
  rip : Option Rip
  interface : Option (List Byte)
  ppdFile : Option (List Byte)
  feedback : Option Bool
  jobbreak : Option CInt
  codes : Option CInt

def Conf.heard (c : Conf) : Heard :=
  ⟨c.outputOrder, c.rip, c.interface, c.ppdFile, if c.sawFeedback then some c.feedback else none,
    if c.sawJobbreak then some c.jobbreak else none, if c.sawCodes then some c.codes else none⟩

/-- What a line adds. -/
def Heard.hear (files : PpdFiles) (h : Heard) (l : ConfLine) : Heard where
  outputOrder := l.outputOrder?.getD h.outputOrder
  rip := l.rip?.or h.rip
  interface := l.interface?.or h.interface
  ppdFile := (l.ppdFile? files).or h.ppdFile
  feedback := if l.interface?.isSome then none else l.feedback?.or h.feedback
  jobbreak := if l.interface?.isSome then none else l.jobBreak?.or h.jobbreak
  codes := if l.interface?.isSome then none else l.codes?.or h.codes

namespace Conf

open Outcome

variable (files : PpdFiles) (cfname : List Byte) (c : Conf)

/-- A line that adds nothing. -/
theorem heard_eq (h : Heard) {l : ConfLine} (ho : l.outputOrder? = none) (hr : l.rip? = none)
    (hi : l.interface? = none) (hp : l.ppdFile? files = none) (hf : l.feedback? = none)
    (hj : l.jobBreak? = none) (hc : l.codes? = none) : h.hear files l = h := by
  simp only [Heard.hear, ho, hr, hi, hp, hf, hj, hc, Option.isSome_none, Option.none_or]
  rfl

theorem torf_ensures (key : String) (p : List Byte) :
    Ensures (c.torf cfname key p) fun answer => guTorf p = some answer := by
  unfold torf
  split
  · rename_i h
    exact ensures_ok h
  · exact ensures_error

/-- What is done about a line that is understood. -/
theorem set_ensures (l : ConfLine) :
    Ensures (c.set files cfname l) fun d => d.heard = c.heard.hear files l := by
  have silent : c.heard.hear files (.charge []) = c.heard :=
    heard_eq files _ rfl rfl rfl rfl rfl rfl rfl
  cases l with
  | interface name => exact ensures_ok rfl
  | address address => exact ensures_ok silent.symm
  | feedback p =>
    refine (c.torf_ensures cfname _ p).bind fun answer ha => ensures_ok ?_
    simp [heard, Heard.hear, ConfLine.outputOrder?, ConfLine.rip?, ConfLine.interface?,
      ConfLine.ppdFile?, ConfLine.feedback?, ConfLine.jobBreak?, ConfLine.codes?, ha]
  | jobBreak n => exact ensures_ok rfl
  | codes n => exact ensures_ok rfl
  | options options => exact ensures_ok silent.symm
  | rip p =>
    rw [set]
    split
    · rename_i rip hr
      apply ensures_ok
      simp [heard, Heard.hear, ConfLine.outputOrder?, ConfLine.rip?, ConfLine.interface?,
        ConfLine.ppdFile?, ConfLine.feedback?, ConfLine.jobBreak?, ConfLine.codes?, hr]
    · exact ensures_error
  | charge amounts =>
    match amounts with
    | [] => exact ensures_ok silent.symm
    | [duplex] => exact ensures_ok silent.symm
    | duplex :: simplex :: more => exact ensures_ok silent.symm
  | flagPages votes =>
    unfold set
    split <;> try contradiction
    · split_ifs
      · exact ensures_ok silent.symm
      · exact ensures_error
    · exact ensures_error
  | outputOrder word =>
    rw [set]
    split
    · rename_i order ho
      apply ensures_ok
      simp [heard, Heard.hear, ConfLine.outputOrder?, ConfLine.rip?, ConfLine.interface?,
        ConfLine.ppdFile?, ConfLine.feedback?, ConfLine.jobBreak?, ConfLine.codes?, ho]
    · exact ensures_error
  | ppdFile name =>
    rw [set]
    split
    · rename_i found hf
      apply ensures_ok
      simp [heard, Heard.hear, ConfLine.outputOrder?, ConfLine.rip?, ConfLine.interface?,
        ConfLine.ppdFile?, ConfLine.feedback?, ConfLine.jobBreak?, ConfLine.codes?, hf,
        Except.toOption]
    · exact ensures_error
  | grayOK p => exact (c.torf_ensures cfname _ p).bind fun answer _ => ensures_ok silent.symm
  | limitPages found =>
    intro d hd
    obtain ⟨limits, -, hd⟩ := bind_eq_ok hd
    cases hd
    exact silent.symm
  | limitKilobytes found =>
    intro d hd
    obtain ⟨limits, -, hd⟩ := bind_eq_ok hd
    cases hd
    exact silent.symm
  | pageCountQuery n => exact ensures_ok silent.symm
  | pageTimeLimit n => exact ensures_ok silent.symm
  | customHook found =>
    unfold set
    split <;> try contradiction
    · exact ensures_ok silent.symm
    · exact ensures_error
  | userparams p =>
    intro d hd
    obtain ⟨u, -, hd⟩ := bind_eq_ok hd
    cases hd
    exact silent.symm

theorem line_ensures (line : List Byte) :
    Ensures (c.line files cfname line) fun d =>
      d.heard = (confLine? line).toList.foldl (Heard.hear files) c.heard := by
  unfold Conf.line
  cases confLine? line with
  | none => exact ensures_ok rfl
  | some l => exact set_ensures files cfname _ l

theorem foldlM_line_ensures (lines : List (List Byte)) :
    Ensures (lines.foldlM (Conf.line files cfname) c) fun d =>
      d.heard = (lines.filterMap confLine?).foldl (Heard.hear files) c.heard := by
  induction lines generalizing c with
  | nil => exact ensures_ok rfl
  | cons line lines ih =>
    rw [List.foldlM_cons]
    refine (line_ensures files cfname c line).bind fun d hd => (ih d).mono fun e he => ?_
    rw [he, hd, ← List.foldl_append, List.filterMap_cons]
    cases confLine? line <;> rfl

end Conf

/-- The lines of a configuration file together. -/
theorem foldl_heard (files : PpdFiles) (ls : List ConfLine) :
    ls.foldl (Heard.hear files) ({} : Conf).heard =
      { outputOrder := (lastOf ConfLine.outputOrder? ls).getD 0
        rip := lastOf ConfLine.rip? ls
        interface := lastOf ConfLine.interface? ls
        ppdFile := lastOf (ConfLine.ppdFile? files) ls
        feedback := lastOfInterface ConfLine.feedback? ls
        jobbreak := lastOfInterface ConfLine.jobBreak? ls
        codes := lastOfInterface ConfLine.codes? ls } := by
  have fields : ∀ h : Heard, ls.foldl (Heard.hear files) h =
      { outputOrder := ls.foldl (fun o l => l.outputOrder?.getD o) h.outputOrder
        rip := ls.foldl (fun o l => l.rip?.or o) h.rip
        interface := ls.foldl (fun o l => l.interface?.or o) h.interface
        ppdFile := ls.foldl (fun o l => (l.ppdFile? files).or o) h.ppdFile
        feedback := ls.foldl (fun o l =>
          if l.interface?.isSome then none else l.feedback?.or o) h.feedback
        jobbreak := ls.foldl (fun o l =>
          if l.interface?.isSome then none else l.jobBreak?.or o) h.jobbreak
        codes := ls.foldl (fun o l =>
          if l.interface?.isSome then none else l.codes?.or o) h.codes } := by
    induction ls with
    | nil => exact fun _ => rfl
    | cons l ls ih => exact fun h => ih (h.hear files l)
  rw [fields, List.foldl_getD, List.foldl_or_left, List.foldl_or_left, List.foldl_or_left]
  unfold lastOfInterface lastOf
  rw [← List.foldl_anew, ← List.foldl_anew, ← List.foldl_anew]
  simp [Conf.heard]

/-! ## What remains of both -/

open Outcome

theorem readPpdFile_ensures (files : PpdFiles) (outputOrder : ℤ) (rip : Option Rip)
    (ppdFileName : Option (List Byte)) :
    Ensures (readPpdFile files outputOrder rip ppdFileName) fun t =>
      t.outputOrder =
        (lastOf Known.outputOrder? (ppdKeywords files ppdFileName)).getD outputOrder ∧
      t.rip = (rip.or ((ppdKeywords files ppdFileName).findSome? Known.rip?)).or
        (wantedCupsRip (ppdKeywords files ppdFileName)) ∧
      t.tbcp = (ppdKeywords files ppdFileName).any (·.hasProtocol "TBCP") ∧
      t.pjl = (ppdKeywords files ppdFileName).any (·.hasProtocol "PJL") := by
  cases ppdFileName with
  | none =>
    apply ensures_ok
    simp [ppdKeywords, lastOf, wantedCupsRip]
  | some name =>
    rw [readPpdFile, ppdKeywords]
    cases files.ppdLines name with
    | error e => exact ensures_error
    | ok delivered =>
      refine (PpdState.foldlM_line_ensures _ delivered.1).bind fun t ht => ?_
      cases delivered.2 with
      | some e => exact ensures_error
      | none =>
        apply ensures_ok
        rw [foldl_hear] at ht
        injection ht with order hrip tbcp pjl raster postscript color
        have cups : t.cupsRip = wantedCupsRip (knownLines false delivered.1) := by
          unfold PpdState.cupsRip wantedCupsRip
          rw [raster, postscript, color]
          rfl
        exact ⟨order, congrArg₂ Option.or hrip cups, tbcp, pjl⟩

/-- The keywords of the PPD file that a configuration file names. -/
def ppdOf (files : PpdFiles) (text : List Byte) : List Known :=
  ppdKeywords files (lastOf (ConfLine.ppdFile? files) (confLines text))

/-- The settings are the wanted ones, except that the PPD file comes first for the output order. -/
theorem settings_eq {files : PpdFiles} {cfname printerName text : List Byte} {r : PrinterRead}
    (h : readPrinterConf files cfname printerName text = .ok r) :
    r.settings = { wantedSettings (confLines text) (ppdOf files text) with
      outputOrder := (lastOf Known.outputOrder? (ppdOf files text)).getD
        ((lastOf ConfLine.outputOrder? (confLines text)).getD 0) } := by
  obtain ⟨c, hc, h⟩ := bind_eq_ok h
  have heard := Conf.foldlM_line_ensures files cfname {} _ c hc
  rw [← confLines, foldl_heard] at heard
  injection heard with order hrip hinterface hppd feedback jobbreak codes
  rw [ppdOf, ← hppd]
  cases hi : c.interface with
  | none =>
    rw [hi] at h
    cases h
  | some interface =>
    rw [hi] at h
    obtain ⟨ppd, hread, h⟩ := bind_eq_ok h
    obtain ⟨order', hrip', tbcp, pjl⟩ := readPpdFile_ensures _ _ _ _ _ hread
    cases h
    have rip : wantedRip (confLines text) (ppdKeywords files c.ppdFile) = ppd.rip := by
      rw [hrip', wantedRip, Option.or_assoc, ← hrip]
    have saw : ∀ {α : Type} (saw : Bool) (a d : α),
        (if saw then some a else none).getD d = if saw then a else d := by
      intro α saw a d
      cases saw <;> rfl
    rw [wantedSettings, rip, ← hinterface, hi, ← order, ← order', ← feedback, ← jobbreak, ← codes,
      ← tbcp, ← pjl, saw, saw, saw]
    rfl

/-- Which of two answers comes first does not matter if they do not contradict. -/
theorem getD_getD_comm_iff {α : Type} (o o' : Option α) (d : α) :
    o'.getD (o.getD d) = o.getD (o'.getD d) ↔ ∀ a ∈ o, ∀ a' ∈ o', a' = a := by
  cases o <;> cases o' <;> simp

/-- Every setting comes from where it is wanted from if and only if the PPD file does not contradict
an "OutputOrder:" line. -/
theorem settings_eq_wanted_iff {files : PpdFiles} {cfname printerName text : List Byte}
    {r : PrinterRead} (h : readPrinterConf files cfname printerName text = .ok r) :
    r.settings = wantedSettings (confLines text) (ppdOf files text) ↔
      OutputOrderKept (confLines text) (ppdOf files text) := by
  rw [OutputOrderKept, ← getD_getD_comm_iff _ _ (0 : ℤ), settings_eq h]
  constructor
  · exact congrArg Settings.outputOrder
  · intro e
    rw [e]
    rfl

/-- Files of which one is a PPD file. -/
def onePpd (text : String) : PpdFiles where
  ppdIndex := ascii "/etc/ppr/ppdindex.db"
  ppddir := ascii "/usr/share/ppr/PPDFiles"
  fopen name :=
    if name = ascii "/a.ppd" then .ok (ascii text)
    else .error (ascii "errno=2 (No such file or directory)")

/-- A configuration file with an "OutputOrder:" line. -/
def reverseConf : List Byte :=
  ascii "Codes: 1\nInterface: parallel\nOutputOrder: Reverse\nPPDFile: /a.ppd\n"

/-- With a PPD file that does not say anything about the order. -/
theorem settings_of_protocols :
    ∃ r, readPrinterConf (onePpd "*Protocols: PJL TBCP\n") [] [] reverseConf = .ok r ∧
      r.settings = wantedSettings (confLines reverseConf)
        (ppdOf (onePpd "*Protocols: PJL TBCP\n") reverseConf) := by
  cases h : readPrinterConf (onePpd "*Protocols: PJL TBCP\n") [] [] reverseConf with
  | error e =>
    have ok : (readPrinterConf (onePpd "*Protocols: PJL TBCP\n") [] [] reverseConf).isOk = true := by
      decide +kernel
    rw [h] at ok
    cases ok
  | ok r =>
    refine ⟨r, rfl, (settings_eq_wanted_iff h).2 fun order _ order' ho' => ?_⟩
    have silent : lastOf Known.outputOrder?
        (ppdOf (onePpd "*Protocols: PJL TBCP\n") reverseConf) = none := by
      decide +kernel
    rw [silent] at ho'
    cases ho'

/-- With a PPD file that says what the printer does by default, the "OutputOrder:" line has no
effect. -/
theorem not_settings_of_defaultOutputOrder :
    ∃ r, readPrinterConf (onePpd "*DefaultOutputOrder: Normal\n") [] [] reverseConf = .ok r ∧
      r.settings.outputOrder = 1 ∧
      (wantedSettings (confLines reverseConf)
        (ppdOf (onePpd "*DefaultOutputOrder: Normal\n") reverseConf)).outputOrder = -1 := by
  have run : ((readPrinterConf (onePpd "*DefaultOutputOrder: Normal\n") [] [] reverseConf).map
      (·.settings.outputOrder)).toOption = some 1 := by
    decide +kernel
  cases h : readPrinterConf (onePpd "*DefaultOutputOrder: Normal\n") [] [] reverseConf with
  | error e =>
    rw [h] at run
    cases run
  | ok r =>
    rw [h] at run
    refine ⟨r, rfl, Option.some.inj run, ?_⟩
    decide +kernel

end Ppr.Pprdrv
