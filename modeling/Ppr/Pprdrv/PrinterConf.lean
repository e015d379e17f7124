import Ppr.Pprdrv.Ppd

/-!
# Reading the configuration file of a printer

`pprdrv_read_printer_conf()` of `pprdrv.c`, with the defaults that `interfaces.c` knows for the
interfaces.
-/

namespace Ppr.Pprdrv

/-! ## Interfaces -/

def jobbreakNone : CInt := 0
def jobbreakSignal : CInt := 1
def jobbreakControlD : CInt := 2
def jobbreakPjl : CInt := 3
def jobbreakNewinterface : CInt := 6

def codesUnknown : CInt := 0
def codesClean8Bit : CInt := 2
def codesBinary : CInt := 3
def codesTbcp : CInt := 4

/-- `struct INTERFACE_INFO`. -/
structure InterfaceInfo where
  name : List Byte
  jobbreak : CInt
  pjlJobbreak : CInt
  feedback : Bool
  codes : CInt
  tbcpCodes : CInt

/-- An interface that ends jobs with control-D or PJL. -/
def plainInterface (name : String) (feedback : Bool) : InterfaceInfo :=
  ⟨ascii name, jobbreakControlD, jobbreakPjl, feedback, codesClean8Bit, codesTbcp⟩

/-- `interfaces[]`. -/
def interfaces : List InterfaceInfo := [
  plainInterface "simple" false,
  plainInterface "serial" true,
  plainInterface "parallel" false,
  plainInterface "usb" false,
  ⟨ascii "dummy", jobbreakNone, jobbreakNone, false, codesBinary, codesBinary⟩,
  plainInterface "tcpip" true,
  plainInterface "socketapi" true,
  ⟨ascii "appsocket", jobbreakNewinterface, jobbreakNewinterface, true, codesClean8Bit, codesTbcp⟩,
  plainInterface "jetdirect" true,
  ⟨ascii "atalk", jobbreakSignal, jobbreakSignal, true, codesBinary, codesBinary⟩,
  plainInterface "lpr" false,
  plainInterface "clispool" false,
  plainInterface "smb" false,
  plainInterface "pros" false]

/-- `find_interface()`. -/
def findInterface (name : List Byte) : Option InterfaceInfo := interfaces.find? (·.name = name)

/-- `interface_default_feedback()`. -/
def interfaceDefaultFeedback (name : List Byte) : Bool := (findInterface name).any (·.feedback)

/-- `interface_default_jobbreak()`. -/
def interfaceDefaultJobbreak (name : List Byte) (pjl : Bool) : CInt :=
  match findInterface name with
  | some i => if pjl then i.pjlJobbreak else i.jobbreak
  | none => jobbreakControlD

/-- `interface_default_codes()`. -/
def interfaceDefaultCodes (name : List Byte) (tbcp : Bool) : CInt :=
  match findInterface name with
  | some i => if tbcp then i.tbcpCodes else i.codes
  | none => codesUnknown

/-! ## Lines of the file -/

/-- A line that is understood, with what is extracted from it. -/
inductive ConfLine where
  | interface (name : List Byte)
  | address (address : List Byte)
  | feedback (p : List Byte)
  | jobBreak (n : CInt)
  | codes (n : CInt)
  | options (options : List Byte)
  | rip (p : List Byte)
  | charge (amounts : List Extracted)
  | flagPages (votes : List Extracted)
  | outputOrder (word : List Byte)
  | ppdFile (name : List Byte)
  | grayOK (p : List Byte)
  | limitPages (limits : List Extracted)
  | limitKilobytes (limits : List Extracted)
  | pageCountQuery (n : CInt)
  | pageTimeLimit (n : CInt)
  | customHook (found : List Extracted)
  | userparams (p : List Byte)

/-- `gu_sscanf()` with one conversion extracts a string. -/
def confString (line : List Byte) (format : String) (make : List Byte → ConfLine) : Option ConfLine :=
  (guSscanf (scanFormat format) line).head?.map fun found => make found.string

/-- `gu_sscanf()` with one conversion extracts a number. -/
def confNumber (line : List Byte) (format : String) (make : CInt → ConfLine) : Option ConfLine :=
  (guSscanf (scanFormat format) line).head?.map fun found => make (found.number 32)

/-- `gu_sscanf()` extracts something. -/
def confSome (line : List Byte) (format : String) (make : List Extracted → ConfLine) :
    Option ConfLine :=
  match guSscanf (scanFormat format) line with
  | [] => none
  | found => some (make found)

/-- `gu_sscanf(confline, "OutputOrder: %@s", sizeof(scratch), scratch)`: a word is cut off. -/
def scanOutputOrder (line : List Byte) : Option (List Byte) :=
  if lmatch line "OutputOrder:" then
    match (line.drop (ascii "OutputOrder:").length).dropWhile isspace with
    | [] => none
    | word => some ((word.takeWhile (!isspace ·)).take 9)
  else none

/-- The chain of tests.  Other lines are ignored, because pprdrv does not use all possible lines. -/
def confLine? (line : List Byte) : Option ConfLine :=
  if line.head? = some 59 ∨ line.head? = some 35 then none
  else
    confString line "Interface: %S" .interface
    <|> confString line "Address: %A" .address
    <|> (lmatchp line "Feedback:").map .feedback
    <|> confNumber line "JobBreak: %d" .jobBreak
    <|> confNumber line "Codes: %d" .codes
    <|> confString line "Options: %T" .options
    <|> (lmatchp line "RIP:").map .rip
    <|> confSome line "Charge: %f %f" .charge
    <|> confSome line "FlagPages: %d %d" .flagPages
    <|> (scanOutputOrder line).map .outputOrder
    <|> confString line "PPDFile: %A" .ppdFile
    <|> (lmatchp line "GrayOK:").map .grayOK
    <|> confSome line "LimitPages: %d %d" .limitPages
    <|> confSome line "LimitKilobytes: %d %d" .limitKilobytes
    <|> confNumber line "PageCountQuery: %d" .pageCountQuery
    <|> confNumber line "PageTimeLimit: %d" .pageTimeLimit
    <|> confSome line "CustomHook: %d %A" .customHook
    <|> (lmatchp line "Userparams:").map .userparams

/-! ## What is done about lines -/

/-- `printer.userparams`. -/
structure Userparams where
  jobTimeout : CInt := -1
  waitTimeout : CInt := -1
  manualfeedTimeout : CInt := -1
  doPrintErrors : CInt := -1

/-- The variables of `pprdrv_read_printer_conf()`, and what it sets of `printer`. -/
structure Conf where
  linenum : ℕ := 0
  sawFeedback : Bool := false
  sawJobbreak : Bool := false
  sawCodes : Bool := false
  interface : Option (List Byte) := none
  address : Option (List Byte) := none
  options : Option (List Byte) := none
  feedback : Bool := false
  jobbreak : CInt := 0
  codes : CInt := 0
  rip : Option Rip := none
  perDuplex : ℤ := 0
  perSimplex : ℤ := 0
  doBanner : CInt := 1
  doTrailer : CInt := 1
  outputOrder : ℤ := 0
  ppdFile : Option (List Byte) := none
  grayOK : Bool := true
  limitPages : CInt × CInt := (0, 0)
  limitKilobytes : CInt × CInt := (0, 0)
  pageCountQuery : CInt := 0
  pageTimeLimit : CInt := 0
  customHook : CInt × Option (List Byte) := (0, none)
  userparams : Userparams := {}

namespace Conf

/-- `Invalid "%s" (%s line %d).` -/
def invalid (cfname : List Byte) (c : Conf) (key : String) : FatalError :=
  ⟨ascii "Invalid \"" ++ ascii key ++ ascii "\" (" ++ cfname ++ ascii " line " ++
    decimal c.linenum ++ ascii ")."⟩

/-- `gu_torf_setBOOL()`, or the end. -/
def torf (cfname : List Byte) (c : Conf) (key : String) (p : List Byte) : Except FatalError Bool :=
  match guTorf p with
  | some answer => .ok answer
  | none => .error (c.invalid cfname key)

/-- `(int)(tf * 100.0 + 0.5)`. -/
def cents (amount : ℚ) : ℤ := (amount * 100 + 1 / 2).num.tdiv (amount * 100 + 1 / 2).den

/-- What a "RIP:" line says. -/
def ripSet (p : List Byte) : Option Rip :=
  match guSscanf (scanFormat "%S %S %T") p with
  | name :: outputLanguage :: options =>
    some ⟨name.string, outputLanguage.string, options.head?.map (·.string)⟩
  | _ => none

/-- Two limits, or the end. -/
def limits (cfname : List Byte) (c : Conf) (key : String) : List Extracted →
    Except FatalError (CInt × CInt)
  | [lower, upper] =>
    if (lower.number 32).toInt < 0 ∨ (upper.number 32).toInt < (lower.number 32).toInt then
      .error (c.invalid cfname key)
    else .ok (lower.number 32, upper.number 32)
  | _ => .error (c.invalid cfname key)

/-- A vote on flag pages. -/
def isVote (n : CInt) : Bool := 0 ≤ n.toInt && n.toInt ≤ 3

/-- One pair of a "Userparams:" line. -/
def userparam (cfname : List Byte) (c : Conf) (u : Userparams) (pair : List Byte) :
    Except FatalError Userparams :=
  match fields (· = 61) pair with
  | name :: value :: _ =>
    if name = [] ∨ value = [] then .error (syntaxError cfname c)
    else if sameWord name (ascii "JobTimeout") then
      .ok { u with jobTimeout := BitVec.ofInt 32 (atoi value) }
    else if sameWord name (ascii "WaitTimeout") then
      .ok { u with waitTimeout := BitVec.ofInt 32 (atoi value) }
    else if sameWord name (ascii "ManualfeedTimeout") then
      .ok { u with manualfeedTimeout := BitVec.ofInt 32 (atoi value) }
    else if sameWord name (ascii "DoPrintErrors") then
      match guTorf value with
      | some answer => .ok { u with doPrintErrors := if answer then 1 else 0 }
      | none => .error ⟨ascii "Value of \"DoPrintErrors\" in \"Userparams:\" must be boolean."⟩
    else .error ⟨ascii "Unrecognized userparams variable \"" ++ name ++ ascii "\"."⟩
  | _ => .error (syntaxError cfname c)
where
  syntaxError (cfname : List Byte) (c : Conf) : FatalError :=
    ⟨ascii "Syntax error in \"Userparams:\" (" ++ cfname ++ ascii " line " ++ decimal c.linenum ++
      ascii ")."⟩

/-- What is done about a line that is understood. -/
def set (files : PpdFiles) (cfname : List Byte) (c : Conf) : ConfLine → Except FatalError Conf
  | .interface name =>
    .ok { c with
      interface := some name, sawFeedback := false, sawJobbreak := false, sawCodes := false }
  | .address address => .ok { c with address := some address }
  | .feedback p => do
    let feedback ← c.torf cfname "Feedback:" p
    return { c with feedback := feedback, sawFeedback := true }
  | .jobBreak n => .ok { c with jobbreak := n, sawJobbreak := true }
  | .codes n => .ok { c with codes := n, sawCodes := true }
  | .options options => .ok { c with options := some options }
  | .rip p =>
    match ripSet p with
    | some rip => .ok { c with rip := some rip }
    | none => .error (c.invalid cfname "RIP:")
  | .charge [duplex] =>
    .ok { c with perDuplex := cents duplex.float, perSimplex := cents duplex.float }
  | .charge (duplex :: simplex :: _) =>
    .ok { c with perDuplex := cents duplex.float, perSimplex := cents simplex.float }
  | .charge [] => .ok c
  | .flagPages [banner, trailer] =>
    if isVote (banner.number 32) ∧ isVote (trailer.number 32) then
      .ok { c with doBanner := banner.number 32, doTrailer := trailer.number 32 }
    else .error (c.invalid cfname "FlagPages:")
  | .flagPages _ => .error (c.invalid cfname "FlagPages:")
  | .outputOrder word =>
    match PpdState.outputOrderOf word with
    | some order => .ok { c with outputOrder := order }
    | none => .error (c.invalid cfname "OutputOrder:")
  | .ppdFile name =>
    match files.findFile name with
    | .ok found => .ok { c with ppdFile := some found }
    | .error e => .error ⟨e.message⟩
  | .grayOK p => do
    let answer ← c.torf cfname "GrayOK:" p
    return { c with grayOK := answer }
  | .limitPages found => do
    let limits ← c.limits cfname "LimitPages:" found
    return { c with limitPages := limits }
  | .limitKilobytes found => do
    let limits ← c.limits cfname "LimitKilobytes:" found
    return { c with limitKilobytes := limits }
  | .pageCountQuery n => .ok { c with pageCountQuery := n }
  | .pageTimeLimit n => .ok { c with pageTimeLimit := n }
  | .customHook [flags, path] => .ok { c with customHook := (flags.number 32, some path.string) }
  | .customHook _ => .error (c.invalid cfname "CustomHook:")
  | .userparams p => do
    let u ← (fields (· = 32) p).foldlM (c.userparam cfname) c.userparams
    return { c with userparams := u }

/-- A round of the loop. -/
def line (files : PpdFiles) (cfname : List Byte) (c : Conf) (line : List Byte) :
    Except FatalError Conf :=
  match confLine? line with
  | none => .ok { c with linenum := c.linenum + 1 }
  | some l => { c with linenum := c.linenum + 1 }.set files cfname l

end Conf

/-! ## Options of the RIP -/

/-- A character of a word, with the quote it stands in. -/
def optionChar (w : List Byte × Byte) (c : Byte) : List Byte × Byte :=
  if c = 34 ∨ c = 39 then
    if c = w.2 then (w.1, 0)
    else if w.2 = 0 then (w.1, c)
    else (w.1 ++ [c], w.2)
  else (w.1 ++ [c], w.2)

/-- The loops that parse into "words" with crude quoting; the first argument is the word that was
begun. -/
def optionWords : Option (List Byte × Byte) → List Byte → List (List Byte)
  | none, [] => []
  | some w, [] => [w.1]
  | none, c :: s => if isBlank c then optionWords none s else optionWords (some (optionChar ([], 0) c)) s
  | some w, c :: s =>
    if isBlank c ∧ w.2 = 0 then w.1 :: optionWords none s else optionWords (some (optionChar w c)) s

example : optionWords none (ascii "a=1  'b c' d'e f'\"'\"") =
    [ascii "a=1", ascii "b c", ascii "de f'"] := by decide

/-! ## The function -/

/-- `printer` when it has been read. -/
structure PrinterRead where
  conf : Conf
  ppd : PpdState
  ripOptions : List (List Byte)

/-- `pprdrv_read_printer_conf()` of a printer whose file has the text `text`. -/
def readPrinterConf (files : PpdFiles) (cfname printerName text : List Byte) :
    Except FatalError PrinterRead := do
  let c ← ((rawLines text).map chop).foldlM (Conf.line files cfname) {}
  match c.interface with
  | none => .error ⟨ascii "No \"Interface:\" line in " ++ cfname⟩
  | some interface =>
    let ppd ← readPpdFile files c.outputOrder c.rip c.ppdFile
    return {
      conf := { c with
        address := some (c.address.getD printerName)
        options := some (c.options.getD [])
        feedback := if c.sawFeedback then c.feedback else interfaceDefaultFeedback interface
        jobbreak := if c.sawJobbreak then c.jobbreak else interfaceDefaultJobbreak interface ppd.pjl
        codes := if c.sawCodes then c.codes else interfaceDefaultCodes interface ppd.tbcp }
      ppd := ppd
      ripOptions := optionWords none ((ppd.rip.bind (·.options)).getD []) }

end Ppr.Pprdrv
