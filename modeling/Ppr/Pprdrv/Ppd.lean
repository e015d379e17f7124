import Ppr.Libppr.ReadPpd

/-!
# Reading a PPD file

`read_PPD_file()` of `pprdrv_ppd.c`, with its callbacks and the hash tables, and `find_feature()`.
Of the sizes of paper only the names are kept; messages that are only logged are left out.
-/

namespace Ppr.Pprdrv

/-! ## Hash functions -/

/-- `PPD_TABSIZE`. -/
def ppdTabsize : ℕ := 128

/-- `FONT_TABSIZE`. -/
def fontTabsize : ℕ := 64

/-- A round of the loop.  Signed characters differ by a multiple of the sizes of the tables. -/
def hashRound (n : ℕ) (c : Byte) : ℕ := (32 * n + c.toNat) % 2 ^ 32

/-- `hash()`. -/
def hash (s : List Byte) (tabsize : ℕ) : ℕ := s.foldl hashRound 0 % tabsize

/-- `hash2()`. -/
def hash2 (s1 : List Byte) (s2 : Option (List Byte)) (tabsize : ℕ) : ℕ :=
  let n := s1.foldl hashRound 0
  match s2 with
  | none => n % tabsize
  | some s2 => s2.foldl hashRound (if s2 = [] then n else hashRound n 32) % tabsize

/-! ## Keywords that are looked for -/

/-- A line whose keyword is looked for, with what is behind the keyword. -/
inductive Known where
  | cupsFilter (p : List Byte)
  | colorDevice (p : List Byte)
  | defaultOutputOrder (p : List Byte)
  | extensions (p : List Byte)
  | faxSupport (p : List Byte)
  | fileSystem (p : List Byte)
  | font (p : List Byte)
  /-- "*ImageableArea" or "*PaperDimension". -/
  | paper (p : List Byte)
  | languageLevel (p : List Byte)
  | protocols (p : List Byte)
  | pprRip (p : List Byte)
  | ttRasterizer (p : List Byte)
  | ignored
  deriving DecidableEq

/-- A line that is passed over. -/
def passed (line : List Byte) (key : String) : Option Known :=
  if lmatch line key then some .ignored else none

/-- The lines that `switch(line[1])` catches. -/
def known? (line : List Byte) : Option Known :=
  (lmatchp line "*cupsFilter:").map .cupsFilter
  <|> (lmatchp line "*ColorDevice:").map .colorDevice
  <|> (lmatchp line "*DefaultOutputOrder:").map .defaultOutputOrder
  <|> (lmatchp line "*Extensions:").map .extensions
  <|> (lmatchp line "*FaxSupport:").map .faxSupport
  <|> (lmatchp line "*FileSystem:").map .fileSystem
  <|> (lmatchsp line "*Font").map .font
  <|> (lmatchsp line "*ImageableArea").map .paper
  <|> (lmatchp line "*LanguageLevel:").map .languageLevel
  <|> passed line "*Message:"
  <|> passed line "*OrderDependency:"
  <|> (lmatchsp line "*PaperDimension").map .paper
  <|> (lmatchp line "*Protocols:").map .protocols
  <|> passed line "*PrinterError:"
  <|> (lmatchp line "*pprRIP:").map .pprRip
  <|> passed line "*Source:"
  <|> passed line "*Status:"
  <|> (lmatchp line "*TTRasterizer:").map .ttRasterizer

/-! ## The state -/

/-- `MAX_PPDNAME`. -/
def maxPpdname : ℕ := 50

/-- `MAX_PPDTEXT`. -/
def maxPpdtext : ℕ := 8192

/-- `MAX_PAPERSIZES`. -/
def maxPapersizes : ℕ := 100

/-- A message with which `fatal()` ends the program. -/
structure FatalError where
  message : List Byte
  deriving DecidableEq

inductive TTRasterizer where
  | unknown
  | none
  | accept68K
  | type42
  deriving DecidableEq

/-- `struct FEATURES`. -/
structure Features where
  colorDevice : Bool := false
  /-- Flags: 1 DPS, 2 CMYK, 4 Composite, 8 FileSystem. -/
  extensions : ℕ := 0
  faxBase : Bool := false
  fileSystem : Bool := false
  languageLevel : ℤ := 1
  ttRasterizer : TTRasterizer := .unknown

/-- `printer.RIP`. -/
structure Rip where
  name : List Byte
  outputLanguage : List Byte
  options : Option (List Byte)
  deriving DecidableEq

/-- `struct PPDSTR`. -/
abbrev PpdStr := List Byte × List Byte

/-- The variables of `pprdrv_ppd.c`, and what it sets of `printer`. -/
structure PpdState where
  instring : Bool := false
  ppdname : List Byte := []
  ppdtext : List Byte := []
  ppdstr : ℕ → List PpdStr := fun _ => []
  ppdfont : ℕ → List (List Byte) := fun _ => []
  features : Features := {}
  papersizes : List (List Byte) := []
  cupsRasterFilter : Option (List Byte) := none
  cupsPostscriptFilter : Option (List Byte) := none
  tbcp : Bool := false
  pjl : Bool := false
  /-- `printer.OutputOrder`. -/
  outputOrder : ℤ := 0
  rip : Option Rip := none

namespace PpdState

/-! ## Callbacks -/

/-- The name that is stored, of at most `n` characters. -/
def storedName : ℕ → List Byte → List Byte
  | 0, _ => []
  | _ + 1, [] => []
  | n + 1, c :: name =>
    if c = 47 ∨ c = 58 then []
    else c :: storedName n (if c = 32 then name.dropWhile (· = 32) else name)

/-- `ppd_callback_new_string()`. -/
def newString (s : PpdState) (name : List Byte) : PpdState :=
  { s with ppdname := storedName maxPpdname name, ppdtext := [], instring := true }

/-- `ppd_callback_string_line()`. -/
def stringLine (s : PpdState) (string : List Byte) : Except FatalError PpdState :=
  let text :=
    if s.ppdtext.length ≠ 0 ∧ s.ppdtext.length ≠ maxPpdtext then s.ppdtext ++ [newline]
    else s.ppdtext
  if maxPpdtext < text.length + (string.length + 1) then
    .error ⟨ascii "ppd_callback_string_line(): text too long"⟩
  else .ok { s with ppdtext := text ++ string }

/-- `ppd_callback_end_string()`: the entry comes behind those of its slot. -/
def endString (s : PpdState) : PpdState :=
  let h := hash s.ppdname ppdTabsize
  { s with
    ppdstr := Function.update s.ppdstr h (s.ppdstr h ++ [(s.ppdname, s.ppdtext)])
    instring := false }

/-- `ppd_callback_papersize_moveto()`. -/
def papersizeMoveto (s : PpdState) (nameline : List Byte) : Except FatalError PpdState :=
  let ptr := (nameline.dropWhile fun c => !isBlank c).dropWhile isBlank
  let name := (ptr.takeWhile fun c => !(isBlank c || c = 58 || c = 47)).take 31
  if name ∈ s.papersizes then .ok s
  else if maxPapersizes ≤ s.papersizes.length then
    .error ⟨ascii "pprdrv: MAX_PAPERSIZES is not large enough"⟩
  else .ok { s with papersizes := s.papersizes ++ [name] }

/-- A string on one line. -/
def wholeString (s : PpdState) (name string : List Byte) : Except FatalError PpdState := do
  let s ← (s.newString name).stringLine string
  return s.endString

/-! ## What is done about keywords -/

/-- What a "*cupsFilter:" line says: the type and the filter. -/
def cupsFilterOf (p : List Byte) : Option (List Byte × List Byte) :=
  match p with
  | 34 :: p => do
    let (f1, p) ← guStrsep isBlank (some (untilQuote p))
    let (f2, p) ← guStrsep isBlank p
    if f2.all isdigit then
      let (f3, _) ← guStrsep (· = 9) p
      return (f1, f3)
    else none
  | _ => none

def cupsFilter (s : PpdState) (p : List Byte) : PpdState :=
  match cupsFilterOf p with
  | none => s
  | some (f1, f3) =>
    if s.cupsRasterFilter = none ∧ f1 = ascii "application/vnd.cups-raster" then
      { s with cupsRasterFilter := some f3 }
    else if s.cupsPostscriptFilter = none ∧ f1 = ascii "application/vnd.cups-postscript" then
      { s with cupsPostscriptFilter := some f3 }
    else s

def colorDevice (s : PpdState) (p : List Byte) : PpdState :=
  match guTorf p with
  | some b => { s with features := { s.features with colorDevice := b } }
  | none => s

/-- The value of a "*DefaultOutputOrder:" line. -/
def outputOrderOf (p : List Byte) : Option ℤ :=
  if p = ascii "Normal" then some 1 else if p = ascii "Reverse" then some (-1) else none

def defaultOutputOrder (s : PpdState) (p : List Byte) : PpdState :=
  { s with outputOrder := (outputOrderOf p).getD s.outputOrder }

def extensions (s : PpdState) (p : List Byte) : PpdState :=
  { s with features := { s.features with
    extensions := (fields isBlank p).foldl (fun n f =>
      if f = ascii "DPS" then n ||| 1
      else if f = ascii "CMYK" then n ||| 2
      else if f = ascii "Composite" then n ||| 4
      else if f = ascii "FileSystem" then n ||| 8
      else n) s.features.extensions } }

def faxSupport (s : PpdState) (p : List Byte) : PpdState :=
  { s with features := { s.features with
    faxBase := s.features.faxBase || decide (ascii "Base" ∈ fields isBlank p) } }

def fileSystem (s : PpdState) (p : List Byte) : PpdState :=
  { s with features := { s.features with
    fileSystem :=
      if p = ascii "True" then true
      else if p = ascii "False" then false
      else s.features.fileSystem } }

def font (s : PpdState) (p : List Byte) : PpdState :=
  let name := p.takeWhile (· ≠ 58)
  let h := hash name fontTabsize
  { s with ppdfont := Function.update s.ppdfont h (name :: s.ppdfont h) }

/-- "*ImageableArea" and "*PaperDimension": the value is on the line. -/
def paperLine (s : PpdState) (line p : List Byte) : Except FatalError PpdState :=
  match p.dropWhile (· ≠ 58) with
  | _ :: _ :: p => do
    let s ← s.papersizeMoveto (line.take (line.length - p.length - 1))
    s.wholeString line (untilQuote ((p.dropWhile isBlank).dropWhile (· = 34)))
  | _ => .ok s

def languageLevel (s : PpdState) (line p : List Byte) : Except FatalError PpdState :=
  match p with
  | 34 :: p =>
    { s with features := { s.features with languageLevel := atoi (untilQuote p) } }.wholeString line
      (untilQuote p)
  | _ => .ok s

def protocols (s : PpdState) (p : List Byte) : PpdState :=
  { s with
    tbcp := s.tbcp || decide (ascii "TBCP" ∈ fields isBlank p)
    pjl := s.pjl || decide (ascii "PJL" ∈ fields isBlank p) }

/-- What a "*pprRIP:" line says. -/
def ripOf (p : List Byte) : Except FatalError Rip :=
  match guStrsep isBlank (some p) with
  | some (name, rest) =>
    match guStrsep isBlank rest with
    | some (outputLanguage, options) =>
      if 47 ∈ name then
        .error ⟨ascii "Slashes are not allowed in RIP names in \"*pprRIP:\" lines in PPD files."⟩
      else .ok ⟨name, outputLanguage, options⟩
    | none => .error ⟨ascii "Can't parse RIP information in PPD file."⟩
  | none => .error ⟨ascii "Can't parse RIP information in PPD file."⟩

/-- The first one, if the configuration file has none. -/
def pprRip (s : PpdState) (p : List Byte) : Except FatalError PpdState :=
  match s.rip with
  | some _ => .ok s
  | none => do
    let rip ← ripOf p
    return { s with rip := some rip }

def ttRasterizer (s : PpdState) (p : List Byte) : PpdState :=
  { s with features := { s.features with
    ttRasterizer := (fields isBlank p).foldl (fun t f =>
      if f = ascii "None" then .none
      else if f = ascii "Accept68K" then .accept68K
      else if f = ascii "Type42" then .type42
      else t) s.features.ttRasterizer } }

/-- What is done about a line whose keyword is looked for. -/
def known (s : PpdState) (line : List Byte) : Known → Except FatalError PpdState
  | .cupsFilter p => .ok (s.cupsFilter p)
  | .colorDevice p => .ok (s.colorDevice p)
  | .defaultOutputOrder p => .ok (s.defaultOutputOrder p)
  | .extensions p => .ok (s.extensions p)
  | .faxSupport p => .ok (s.faxSupport p)
  | .fileSystem p => .ok (s.fileSystem p)
  | .font p => .ok (s.font p)
  | .paper p => s.paperLine line p
  | .languageLevel p => s.languageLevel line p
  | .protocols p => .ok (s.protocols p)
  | .pprRip p => s.pprRip p
  | .ttRasterizer p => .ok (s.ttRasterizer p)
  | .ignored => .ok s

/-! ## Lines -/

/-- What is behind the opening quote of a value.  The character behind the colon has been
overwritten. -/
def valueOf (line : List Byte) : Option (List Byte) :=
  match line.dropWhile (· ≠ 58) with
  | _ :: _ :: p =>
    match p.dropWhile isBlank with
    | 34 :: p => some p
    | _ => none
  | _ => none

/-- A line that is not caught before. -/
def otherLine (s : PpdState) (line : List Byte) : Except FatalError PpdState :=
  match valueOf line with
  | none => .ok s
  | some p => do
    let s ← (s.newString line).stringLine (untilQuote p)
    return if 34 ∈ p then s.endString else s

/-- A line of a string. -/
def valueLine (s : PpdState) (line : List Byte) : Except FatalError PpdState := do
  let s ← if untilQuote line ≠ [] then s.stringLine (untilQuote line) else .ok s
  return if 34 ∈ line then s.endString else s

/-- A round of the loop. -/
def line (s : PpdState) (line : List Byte) : Except FatalError PpdState :=
  if s.instring then s.valueLine line
  else if line.head? = some 42 then
    if line.tail.head? = some 37 then .ok s
    else
      match known? line with
      | some k => s.known line k
      | none => s.otherLine line
  else .ok s

/-- A RIP made from the "*cupsFilter:" lines. -/
def cupsRip (s : PpdState) : Option Rip :=
  match s.cupsRasterFilter with
  | some f => some ⟨ascii "ppr-gs", ascii "PCL", some (ascii "cups=" ++ f)⟩
  | none =>
    if s.cupsPostscriptFilter = some (ascii "pstopxl") then
      some ⟨ascii "ppr-gs", ascii "PCLXL",
        some (ascii (if s.features.colorDevice then "-sDEVICE=pxlcolor" else "-sDEVICE=pxlmono"))⟩
    else none

/-- The loop of `read_PPD_file()` over the lines, and what comes behind it. -/
def readLines (s : PpdState) (delivered : PpdFiles.Delivered) : Except FatalError PpdState := do
  let s ← delivered.1.foldlM PpdState.line s
  match delivered.2 with
  | some e => .error ⟨e.message⟩
  | none => return { s with rip := s.rip.or s.cupsRip }

end PpdState

/-- `read_PPD_file()`, with what the configuration file has set before. -/
def readPpdFile (files : PpdFiles) (outputOrder : ℤ) (rip : Option Rip) :
    Option (List Byte) → Except FatalError PpdState
  | none => .ok { outputOrder := outputOrder, rip := rip }
  | some ppdFileName =>
    match files.ppdLines ppdFileName with
    | .error _ => .error ⟨ascii "read_PPD_file(): can't open \"" ++ ppdFileName ++ ascii "\""⟩
    | .ok delivered => PpdState.readLines { outputOrder := outputOrder, rip := rip } delivered

/-- `strcmp()` of something with `NULL`. -/
inductive NullCompared where
  | fault
  deriving DecidableEq

/-- The loop of `find_feature()` over a slot. -/
def findIn (featuretype : List Byte) (option : Option (List Byte)) :
    List PpdStr → Except NullCompared (Option (List Byte))
  | [] => .ok none
  | (name, value) :: next =>
    if featuretype.isPrefixOf name then
      match name.drop featuretype.length, option with
      | [], none => .ok (some value)
      | 32 :: _, none => .error .fault
      | 32 :: rest, some option =>
        if rest = option then .ok (some value) else findIn featuretype (some option) next
      | _, option => findIn featuretype option next
    else findIn featuretype option next

/-- `find_feature()`. -/
def PpdState.findFeature (s : PpdState) (featuretype : List Byte) (option : Option (List Byte)) :
    Except NullCompared (Option (List Byte)) :=
  findIn featuretype option (s.ppdstr (hash2 featuretype option ppdTabsize))

end Ppr.Pprdrv
