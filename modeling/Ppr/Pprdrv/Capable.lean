import Ppr.Libppr.QEntryFile
import Ppr.Pprdrv.Resources

/-!
# Can the printer print the job?

`check_if_capable()` of `pprdrv_capable.c`.  It reads the "Res:" and "Req:" lines of the queue file.
What is only logged is left out; the text for `give_reason()` is kept.
-/

namespace Ppr.Pprdrv

/-! ## Words of lines -/

/-- `gu_getdouble()`, exactly. -/
def guGetdouble (s : List Byte) : ℚ :=
  let s := s.dropWhile isBlank
  let (sign, s) := if s.head? = some 43 then (1, s.tail) else scanSign s
  sign * (digitsValue (s.takeWhile isdigit) + (scanFraction (s.dropWhile isdigit)).1)

/-- What stands in double quotes, behind the opening one, and what comes behind the closing one. -/
def unquoted : List Byte → Option (List Byte × List Byte)
  | [] => none
  | c :: s =>
    if c = 34 then some ([], s)
    else if c = 92 then
      match s with
      | [] => none
      | c :: s => (unquoted s).map fun (w, rest) => (c :: w, rest)
    else (unquoted s).map fun (w, rest) => (c :: w, rest)

/-- `gu_strsep_quoted()` without a list of characters to discard. -/
def guStrsepQuoted (isDelim : Byte → Bool) :
    Option (List Byte) → Option (List Byte × Option (List Byte))
  | none => none
  | some p =>
    match p with
    | 34 :: s =>
      match unquoted s with
      | none => none
      | some (w, c :: rest) => some (w, if isDelim c then some rest else none)
      | some (w, []) => some (w, none)
    | _ => guStrsep isDelim (some p)

/-- A "Res:" line. -/
structure ResLine where
  needed : Bool
  fixinclude : Bool
  type : List Byte
  name : List Byte
  version : ℚ
  revision : CInt
  deriving DecidableEq

def resFields (line : List Byte) : Option ResLine := do
  let space : Byte → Bool := (· = 32)
  let (_, p) ← guStrsep space (some line)
  let (f1, p) ← guStrsep space p
  let (f2, p) ← guStrsep space p
  let (f3, p) ← guStrsep space p
  let (f4, p) ← guStrsepQuoted space p
  let (f5, p) ← guStrsep space p
  let (f6, _) ← guStrsep space p
  return ⟨atoi f1 ≠ 0, atoi f2 ≠ 0, f3, f4, guGetdouble f5, BitVec.ofInt 32 (atoi f6)⟩

/-- The first word of a line. -/
def firstWord (line : List Byte) : List Byte := line.takeWhile (· ≠ 32)

/-- The line has been cut behind its first word when this is said. -/
def tooFewArguments (line : List Byte) : FatalError :=
  ⟨ascii "Queue file line has too few arguments: " ++ firstWord line⟩

/-- A "Res:" line, or the end. -/
def readRes (line : List Byte) : Except FatalError ResLine :=
  if lmatch line "Res:" then
    match resFields line with
    | some r => .ok r
    | none => .error (tooFewArguments line)
  else .error ⟨ascii "Queue file does not begin with \"Res:\": " ++ line⟩

/-- A "Req:" line, or the end. -/
def readReq (line : List Byte) : Except FatalError (List Byte) :=
  if lmatch line "Req:" then
    match guStrsep (· = 32) (some line) with
    | some (_, p) =>
      match guStrsep (· = 32) p with
      | some (f1, _) => .ok f1
      | none => .error (tooFewArguments line)
    | none => .error (tooFewArguments line)
  else .error ⟨ascii "Queue file line does not begin with \"Req:\": " ++ line⟩

/-! ## The state -/

/-- `MAX_DRVREQ`. -/
def maxDrvreq : ℕ := 40

/-- `PROOFMODE_NOTIFYME`. -/
def proofmodeNotifyme : CInt := -1

/-- `PROOFMODE_SUBSTITUTE`. -/
def proofmodeSubstitute : CInt := 0

/-- `PROOFMODE_TRUSTME`. -/
def proofmodeTrustme : CInt := 1

/-- What the function looks at. -/
structure CapableEnv where
  printer : PrinterRead
  attr : QEntryFile.Attr
  cache : Cache
  /-- The text of `FONTSUB`, if it can be opened. -/
  fontsub : Option (List Byte)

/-- The variables of `check_if_capable()`, with the table. -/
structure Checked where
  resources : Resources := {}
  drvreq : List (List Byte) := []
  incapable : Bool := false
  incapableFonts : ℕ := 0
  incapableResources : ℕ := 0
  incapableRequirements : ℕ := 0
  incapableProhibitions : ℕ := 0
  incapableCodes : ℕ := 0
  incapablePageslimit : ℕ := 0
  incapableKilobyteslimit : ℕ := 0
  colorDocument : Bool := false

/-- The printer is incapable if `b`. -/
def Checked.refuse (s : Checked) (b : Bool) : Checked := { s with incapable := s.incapable || b }

/-! ## Resources -/

/-- `internal_resources[]`, with the language level. -/
def internalResources : List (List Byte × List Byte × ℤ) := [
  (ascii "encoding", ascii "StandardEncoding", 1),
  (ascii "encoding", ascii "SymbolEncoding", 1),
  (ascii "encoding", ascii "ISOLatin1Encoding", 2),
  (ascii "procset", ascii "CIDInit", 3),
  (ascii "ProcSet", ascii "CIDInit", 3)]

/-- The resource is built into printers with this language level. -/
def isInternal (languageLevel : ℤ) (type name : List Byte) : Bool :=
  internalResources.any fun (t, n, minlevel) => type = t && name = n && minlevel ≤ languageLevel

/-- What `fgets()` reads from call to call into `temp[80]`. -/
def fontsubPieces (text : List Byte) : List (List Byte) :=
  (rawLines text).flatMap (List.toChunks 79)

/-- A comment or a blank line. -/
def isFontsubComment (temp : List Byte) : Bool :=
  temp.head? = some 59 || temp.head? = some 35 || temp.all isblank

/-- The substitutes in the entry of a font, with their codes; the first argument says that the entry
has begun. -/
def fontsubEntry (name : List Byte) : Bool → List (List Byte) → List (List Byte × List Byte)
  | _, [] => []
  | inEntry, temp :: pieces =>
    if isFontsubComment temp then fontsubEntry name inEntry pieces
    else if inEntry then
      if temp.head?.any isspace then
        let ptr := temp.dropWhile isBlank
        let codeptr := (ptr.dropWhile (!isblank ·)).tail.dropWhile isblank
        (ptr.takeWhile (!isblank ·), codeptr.takeWhile (· ≠ newline)) ::
          fontsubEntry name true pieces
      else []
    else if temp.head?.any isspace then fontsubEntry name false pieces
    else fontsubEntry name (temp.takeWhile (!isblank ·) = name) pieces

/-- A font that is used for another one. -/
structure Substitute where
  name : List Byte
  code : List Byte
  filename : Option (List Byte)
  dotTtf : Bool
  mactt : Bool

/-- What is found for a resource that is needed, with the table as the search leaves it. -/
inductive Found where
  | inPrinter
  | cached (t : Resources) (fnptr : List Byte) (features : CInt)
  /-- It has no Type 1 section and the printer has no TrueType rasterizer. -/
  | unusable (t : Resources)
  | substituted (t : Resources) (sub : Substitute)
  | missing (t : Resources)

namespace CapableEnv

variable (env : CapableEnv)

def fontPresent (name : List Byte) : Bool := env.printer.ppd.fontPresent name

/-- `want_ttrasterizer()`, and whether a cached font can be used then: not if it has a Type 42
section, there is no rasterizer and it has no Type 1 section. -/
def tryRasterizer (t : Resources) (features : CInt) : Resources × Bool :=
  if features &&& fontType42 ≠ 0 then
    let t := t.wantTtrasterizer env.cache env.printer.ppd
    (t, t.type42Ok || features &&& fontType1 ≠ 0)
  else if features &&& fontTypeTtf ≠ 0 then (t.wantTtrasterizer env.cache env.printer.ppd, true)
  else (t, true)

/-- `dot_ttf` of a resource with these features. -/
def isDotTtf (features : CInt) : Bool := features &&& fontType42 = 0 && features &&& fontTypeTtf ≠ 0

/-- The loop over the substitutes: the first one in the printer or in the cache. -/
def substitute (t : Resources) : List (List Byte × List Byte) → Resources × Option Substitute
  | [] => (t, none)
  | (ptr, code) :: more =>
    if env.fontPresent ptr then (t, some ⟨ptr, code, none, false, false⟩)
    else
      match findResource env.cache (ascii "font") ptr 0 0 with
      | none => substitute t more
      | some (fnptr, features) =>
        match env.tryRasterizer t features with
        | (t, true) =>
          (t, some ⟨ptr, code, some fnptr, isDotTtf features, features &&& fontMactruetype ≠ 0⟩)
        | (t, false) => substitute t more

/-- The substitutes that are considered for a font. -/
def substitutes (name : List Byte) : List (List Byte × List Byte) :=
  match env.fontsub with
  | some text => fontsubEntry name false (fontsubPieces text)
  | none => []

/-- The search for a resource: in the printer, in the cache, and among the substitutes if it is a font
and the ProofMode is "Substitute". -/
def find (t : Resources) (r : ResLine) : Found :=
  let isFont : Bool := r.type = ascii "font"
  if isFont && env.fontPresent r.name then .inPrinter
  else if isInternal env.printer.ppd.features.languageLevel r.type r.name then .inPrinter
  else
    match findResource env.cache r.type r.name r.version r.revision with
    | some (fnptr, features) =>
      match env.tryRasterizer t features with
      | (t, true) => .cached t fnptr features
      | (t, false) => .unusable t
    | none =>
      if isFont && env.attr.proofmode = proofmodeSubstitute then
        match env.substitute t (env.substitutes r.name) with
        | (t, some sub) => .substituted t sub
        | (t, none) => .missing t
      else .missing t

/-- A resource is missing but it ought to be ok to go ahead. -/
def goesAhead (groupPass : ℤ) (isFont : Bool) : Bool :=
  env.attr.proofmode ≠ proofmodeNotifyme && (env.attr.proofmode = proofmodeTrustme || isFont) &&
    groupPass ≠ 1

end CapableEnv

/-- The entry of the table for a cached file. -/
def DrvRes.cached (d : DrvRes) (fnptr : List Byte) (features : CInt) : DrvRes :=
  { d with
    filename := some fnptr
    needed := false
    dotTtf := CapableEnv.isDotTtf features
    mactt := features &&& fontMactruetype ≠ 0 }

/-- The entry of the table for a font that is substituted. -/
def DrvRes.substituted (d : DrvRes) (sub : Substitute) : DrvRes :=
  { d with
    filename := sub.filename
    needed := false
    dotTtf := sub.dotTtf
    mactt := sub.mactt
    formerName := some d.name
    name := sub.name
    substCode := if sub.code = [] then none else some sub.code }

namespace Checked

/-- The entry at a place of the table. -/
def modify (s : Checked) (t : Resources) (x : ℕ) (f : DrvRes → DrvRes) : Checked :=
  { s with resources := { t with drvres := t.drvres.modify x f } }

/-- A resource that is not there. -/
def missing (env : CapableEnv) (groupPass : ℤ) (s : Checked) (isFont : Bool) : Checked :=
  let s :=
    if isFont then { s with incapableFonts := s.incapableFonts + 1 }
    else { s with incapableResources := s.incapableResources + 1 }
  s.refuse !(env.goesAhead groupPass isFont)

/-- A needed resource, which has the place `x` of the table. -/
def needed (env : CapableEnv) (groupPass : ℤ) (s : Checked) (x : ℕ) (r : ResLine) : Checked :=
  match env.find s.resources r with
  | .inPrinter => s
  | .cached t fnptr features => s.modify t x (·.cached fnptr features)
  | .unusable t => { s with resources := t }.refuse true
  | .substituted t sub => s.modify t x (·.substituted sub)
  | .missing t => { s with resources := t }.missing env groupPass (r.type = ascii "font")

/-- A round of the loop over the resources. -/
def resource (env : CapableEnv) (groupPass : ℤ) (s : Checked) (r : ResLine) : Checked :=
  let x := s.resources.drvres.length
  let t := s.resources.addDrvres r.needed r.fixinclude r.type r.name r.version r.revision
  let s := { s with resources := t }
  if r.needed then s.needed env groupPass x r else s

/-! ## Requirements -/

/-- The requirement is met, or not recognized. -/
def isMet (ppd : PpdState) (f1 : List Byte) : Bool :=
  if f1 = ascii "color" then ppd.features.colorDevice
  else if f1 = ascii "duplex" then has (ascii "None")
  else if f1 = ascii "duplex(tumble)" then has (ascii "DuplexTumble")
  else if f1 = ascii "fax" then ppd.features.faxBase
  else true
where
  /-- `find_feature("*Duplex", option)` finds something. -/
  has (option : List Byte) : Bool :=
    match ppd.findFeature (ascii "*Duplex") (some option) with
    | .ok (some _) => true
    | _ => false

/-- A round of the loop over the requirements. -/
def requirement (env : CapableEnv) (groupPass : ℤ) (s : Checked) (f1 : List Byte) : Checked :=
  let s := { s with
    drvreq := s.drvreq ++ [f1]
    colorDocument := s.colorDocument || decide (f1 = ascii "color") }
  if isMet env.printer.ppd f1 then s
  else
    { s with incapableRequirements := s.incapableRequirements + 1 }.refuse
      (env.attr.proofmode = proofmodeNotifyme || groupPass = 1)

/-! ## Other attributes -/

/-- The language level is not high enough. -/
def langlevel (env : CapableEnv) (s : Checked) : Checked :=
  if env.printer.ppd.features.languageLevel < env.attr.langlevel.toInt then
    { s with incapableRequirements := s.incapableRequirements + 1 }.refuse true
  else s

/-- Extensions of level 1 are missing. -/
def extensions (env : CapableEnv) (s : Checked) : Checked :=
  if env.printer.ppd.features.languageLevel < 2 ∧
      env.attr.extensions &&& ~~~(BitVec.ofNat 32 env.printer.ppd.features.extensions) ≠ 0 then
    { s with incapableRequirements := s.incapableRequirements + 1 }.refuse true
  else s

/-- Grayscale documents are not permitted. -/
def grayOK (env : CapableEnv) (s : Checked) : Checked :=
  if !s.colorDocument && !env.printer.conf.grayOK then
    { s with incapableProhibitions := s.incapableProhibitions + 1 }.refuse true
  else s

/-- The codes that a job requires.  A value that is no name leaves `required` as it was set before
the `switch`, if the compiler is to be happy. -/
def requiredCodes (docdata : CInt) : Except FatalError ℕ :=
  if docdata = 1 then .ok 1
  else if docdata = codesClean8Bit then .ok 2
  else if docdata = codesBinary then .ok 3
  else if docdata = codesTbcp ∨ docdata = -1 then
    .error ⟨ascii "check_if_capable(): assertion failed"⟩
  else .ok 0

/-- The codes that a channel passes. -/
def availableCodes (codes : CInt) : Except FatalError ℕ :=
  if codes = codesUnknown then .ok 100
  else if codes = 1 then .ok 1
  else if codes = codesClean8Bit then .ok 2
  else if codes = codesBinary ∨ codes = codesTbcp then .ok 3
  else if codes = -1 then .error ⟨ascii "check_if_capable(): assertion failed"⟩
  else .ok 0

def passesCodes (env : CapableEnv) (s : Checked) : Except FatalError Checked := do
  let required ← requiredCodes env.attr.docdata
  let available ← availableCodes env.printer.conf.codes
  return if available < required then
      { s with incapableCodes := s.incapableCodes + 1 }.refuse true
    else s

/-- A number is outside of a range whose upper end may be missing. -/
def isOutside (limits : CInt × CInt) (n : ℤ) : Bool :=
  n < limits.1.toInt || (0 < limits.2.toInt && limits.2.toInt < n)

def pageslimit (env : CapableEnv) (s : Checked) : Checked :=
  if 0 < env.attr.pages.toInt ∧ isOutside env.printer.conf.limitPages env.attr.pages.toInt then
    { s with incapablePageslimit := s.incapablePageslimit + 1 }.refuse true
  else s

def kilobyteslimit (env : CapableEnv) (s : Checked) : Checked :=
  let kilobytes : CInt := BitVec.ofInt 32 (env.attr.postscriptBytes.toInt.tdiv 1024)
  if isOutside env.printer.conf.limitKilobytes kilobytes.toInt then
    { s with incapableKilobyteslimit := s.incapableKilobyteslimit + 1 }.refuse true
  else s

/-- What is checked behind the loops. -/
def attributes (env : CapableEnv) (s : Checked) : Except FatalError Checked := do
  let s ← (((s.langlevel env).extensions env).grayOK env).passesCodes env
  return (s.pageslimit env).kilobyteslimit env

/-! ## The reason -/

/-- "1 one", or how many. -/
def counted (n : ℕ) (one many : String) : List (List Byte) :=
  if n = 0 then []
  else if 1 < n then [decimal n ++ ascii " " ++ ascii many]
  else [ascii "1 " ++ ascii one]

/-- The text for `give_reason()`. -/
def reason (s : Checked) : List Byte :=
  let other := if s.incapableFonts ≠ 0 then "other " else ""
  let prohibitions :=
    if s.incapableProhibitions = 0 then []
    else if 1 < s.incapableProhibitions then
      [decimal s.incapableRequirements ++ ascii " ptr prohibitions"]
    else [ascii "1 ptr prohibition"]
  [44].intercalate
    (counted s.incapableFonts "missing font" "missing fonts" ++
      counted s.incapableResources (other ++ "missing rsrc") (other ++ "missing rsrcs") ++
      counted s.incapableRequirements "ptr incompatiblity" "ptr incompatibilities" ++
      prohibitions ++
      (if s.incapableCodes = 0 then [] else [ascii "unpassable codes"]) ++
      (if s.incapablePageslimit = 0 then [] else [ascii "outside pages limits"]) ++
      if s.incapableKilobyteslimit = 0 then [] else [ascii "outside kilobytes limits"])

end Checked

/-! ## The function -/

/-- The loop over the resources, and the lines that are left. -/
def resourceLoop (env : CapableEnv) (groupPass : ℤ) :
    List (List Byte) → Checked → Except FatalError (Checked × List (List Byte))
  | [], s => .ok (s, [])
  | qline :: qfile, s =>
    if qline = ascii "EndRes" then .ok (s, qfile)
    else do
      let r ← readRes qline
      resourceLoop env groupPass qfile (s.resource env groupPass r)

/-- The loop over the requirements. -/
def requirementLoop (env : CapableEnv) (groupPass : ℤ) :
    List (List Byte) → Checked → Except FatalError Checked
  | [], s => .ok s
  | qline :: qfile, s =>
    if qline = ascii "EndReq" then .ok s
    else if maxDrvreq ≤ s.drvreq.length then
      .error ⟨ascii "internal pprdrv error: DRVREQ overflow"⟩
    else do
      let f1 ← readReq qline
      requirementLoop env groupPass qfile (s.requirement env groupPass f1)

/-- `check_if_capable()` on the lines that are left of the queue file: its variables at the end, and
the text that is given as a reason. -/
def checkIfCapable (env : CapableEnv) (groupPass : ℤ) (qfile : List (List Byte)) :
    Except FatalError (Checked × Option (List Byte)) := do
  let (s, qfile) ← resourceLoop env groupPass qfile {}
  let s ← requirementLoop env groupPass qfile s
  let s ← s.attributes env
  return (s, if s.incapable ∧ groupPass < 2 ∧ s.reason ≠ [] then some s.reason else none)

end Ppr.Pprdrv
