import Ppr.Libgu.Pch
import Ppr.Libppr.QuotedValue
import Ppr.Pprdrv.PrinterConf

/-!
# What queueinfo knows about a printer

`do_printer_ppd()` and the part of `do_printer()` that fills in a `PRINTER_INFO`, both of
`queueinfo.c`, and `printer_spool_state_load()`.  Memory is not cleared by `gu_alloc()`: what stands
in the fields that are not set is `Unset`.
-/

namespace Ppr.Queueinfo

open Pprdrv (codesBinary codesTbcp codesUnknown interfaceDefaultCodes)

/-! ## Data -/

instance neZero_fonts : NeZero 25 := ⟨by decide⟩

instance neZero_vmOptions : NeZero 6 := ⟨by decide⟩

instance neZero_ppdopts : NeZero 12 := ⟨by decide⟩

/-- `struct PPD_PROTOCOLS`. -/
structure Protocols where
  tbcp : Bool
  pjl : Bool
  deriving DecidableEq

/-- `struct PPD_INFO`. -/
structure PpdInfo where
  protocols : Protocols
  binaryOK : Bool
  product : Option (List Byte) := none
  modelName : Option (List Byte) := none
  nickName : Option (List Byte) := none
  shortNickName : Option (List Byte) := none
  psLanguageLevel : ℤ := 1
  psVersionStr : Option (List Byte) := none
  psVersion : ℚ := 0
  psRevision : ℤ := 0
  psFreeVM : ℤ := 0
  resolution : Option (List Byte) := none
  colorDevice : Bool := false
  faxSupport : Option (List Byte) := none
  ttRasterizer : Option (List Byte) := none
  fonts : Pch 25 Unit := .empty
  vmOptions : Pch 6 (List Byte) := .empty

/-- `struct PRINTER_SPOOL_STATE`. -/
structure PrinterSpoolState where
  accepting : CInt := 1
  previousStatus : CInt := 0
  status : CInt := 0
  nextErrorRetry : CInt := 0
  nextEngagedRetry : CInt := 0
  countdown : CInt := 0
  printerStateChangeTime : CInt := 0
  isProtected : CInt := 0
  jobCount : CInt := 0
  deriving DecidableEq

/-- `CODES_DEFAULT` and `JOBBREAK_DEFAULT`. -/
def notSaid : CInt := -1

/-- `struct PRINTER_INFO`. -/
structure PrinterInfo where
  name : List Byte
  interface : Option (List Byte) := none
  interfaceAddress : Option (List Byte) := none
  interfaceOptions : Option (List Byte) := none
  /-- `none` is -1. -/
  feedback : Option Bool := none
  jobbreak : CInt := notSaid
  codes : CInt := notSaid
  comment : Option (List Byte) := none
  location : Option (List Byte) := none
  ppdFile : Option (List Byte)
  ppd : Option PpdInfo := none
  ppdopts : Pch 12 (List Byte) := .empty
  spoolState : PrinterSpoolState := {}

/-- What memory from `gu_alloc()` has in the fields that nothing is stored in. -/
structure Unset where
  ppdFile : Option (List Byte)
  protocols : Protocols
  binaryOK : Bool

/-! ## The PPD file -/

/-- A segment behind the text that there is. -/
def joinSegment (text p : List Byte) : List Byte := if text = [] then p else text ++ newline :: p

/-- The rest of `ppd_finish_quoted_string()`, with the text so far and the next segment.  The lines
that are left are `none` where `ppdobj_readline()` has found no more. -/
def finishQuotedString (text p : List Byte) :
    List (List Byte) → List Byte × Option (List (List Byte))
  | [] =>
    if p.getLast? = some 34 then (joinSegment text p.dropLast, some []) else (joinSegment text p, none)
  | line :: lines =>
    if p.getLast? = some 34 then (joinSegment text p.dropLast, some (line :: lines))
    else finishQuotedString (joinSegment text p) line lines

/-- What `ppd_finish_QuotedValue()` needs: whether `char` is signed, and a bound on the rounds of
`ppd_decode_QuotedValue()`, which need not return. -/
structure Decoder where
  signed : Bool
  fuel : ℕ

/-- The decoded string. -/
def Decoder.decode (d : Decoder) (text : List Byte) : Option (List Byte) :=
  (ppdDecodeQuotedValue d.signed d.fuel (text ++ [0])).map fun r => cstr r.1

/-- Where a quoted value is stored. -/
inductive QuotedField where
  | modelName
  | nickName
  | product
  | shortNickName

/-- The variables of the loop. -/
structure PpdLoop where
  ppd : PpdInfo
  sawColorDevice : Bool := false
  sawLanguageLevel : Bool := false

namespace PpdLoop

def colorDevice (s : PpdLoop) (p : List Byte) : PpdLoop :=
  if s.sawColorDevice then s
  else
    { s with
      ppd := { s.ppd with
        colorDevice :=
          if p = ascii "True" then true
          else if p = ascii "False" then false
          else s.ppd.colorDevice }
      sawColorDevice := true }

/-- The resolution of one like "600x600dpi", where the numbers are the same. -/
def simpleResolution (p : List Byte) : List Byte :=
  if 120 ∈ p then
    let n := p.takeWhile (· ≠ 120)
    let rest := p.drop (n.length + 1)
    if n <+: rest ∧ rest.drop n.length = ascii "dpi" then rest else p
  else p

def resolution (s : PpdLoop) (p : List Byte) : PpdLoop :=
  if s.ppd.resolution = none ∧ p.head?.any isdigit then
    { s with ppd := { s.ppd with resolution := some (simpleResolution p) } }
  else s

def faxSupport (s : PpdLoop) (p : List Byte) : PpdLoop :=
  { s with ppd := { s.ppd with faxSupport := s.ppd.faxSupport.or (some p) } }

def font (s : PpdLoop) (p : List Byte) : PpdLoop :=
  { s with ppd := { s.ppd with fonts := s.ppd.fonts.set (p.takeWhile (· ≠ 58)) () } }

def freeVM (s : PpdLoop) (p : List Byte) : PpdLoop :=
  match p with
  | 34 :: p => if s.ppd.psFreeVM = 0 then { s with ppd := { s.ppd with psFreeVM := atoi p } } else s
  | _ => s

def languageLevel (s : PpdLoop) (p : List Byte) : PpdLoop :=
  match p with
  | 34 :: p =>
    if s.sawLanguageLevel then s
    else { s with ppd := { s.ppd with psLanguageLevel := atoi p }, sawLanguageLevel := true }
  | _ => s

/-- What `gu_sscanf(p, "(%f) %d", ...)` stores. -/
def psVersion (s : PpdLoop) (p : List Byte) : PpdLoop :=
  match p with
  | 34 :: p =>
    if s.ppd.psVersionStr = none then
      match guSscanf (scanFormat "(%f) %d") (untilQuote p) with
      | [version, revision] =>
        { s with ppd := { s.ppd with
          psVersionStr := some (untilQuote p)
          psVersion := version.float
          psRevision := (revision.number 32).toInt } }
      | _ => s
    else s
  | _ => s

def protocols (s : PpdLoop) (p : List Byte) : PpdLoop :=
  { s with ppd := { s.ppd with protocols :=
    { tbcp := s.ppd.protocols.tbcp || decide (ascii "TBCP" ∈ fields isBlank p)
      pjl := s.ppd.protocols.pjl || decide (ascii "PJL" ∈ fields isBlank p) } } }

def ttRasterizer (s : PpdLoop) (p : List Byte) : PpdLoop :=
  { s with ppd := { s.ppd with ttRasterizer := s.ppd.ttRasterizer.or (some p) } }

def vmOption (s : PpdLoop) (p : List Byte) : PpdLoop :=
  match p.dropWhile (· ≠ 58) with
  | [] => s
  | _ :: rest =>
    match rest.dropWhile isBlank with
    | 34 :: value =>
      { s with ppd := { s.ppd with
        vmOptions := s.ppd.vmOptions.set (p.takeWhile fun c => c ≠ 47 && c ≠ 58) (untilQuote value) } }
    | _ => s

/-- What is done about a line other than those with a quoted value. -/
def plainLine (s : PpdLoop) (line : List Byte) : PpdLoop :=
  ((lmatchp line "*ColorDevice:").map s.colorDevice
  <|> (lmatchp line "*DefaultResolution:").map s.resolution
  <|> (lmatchp line "*DefaultJCLResolution:").map s.resolution
  <|> (lmatchp line "*FaxSupport:").map s.faxSupport
  <|> (lmatchp line "*Font").map s.font
  <|> (lmatchp line "*FreeVM:").map s.freeVM
  <|> (lmatchp line "*LanguageLevel:").map s.languageLevel
  <|> (lmatchp line "*PSVersion:").map s.psVersion
  <|> (lmatchp line "*Protocols:").map s.protocols
  <|> (lmatchp line "*TTRasterizer:").map s.ttRasterizer
  <|> (lmatchp line "*VMOption ").map s.vmOption).getD s

/-- The value of a quoted field. -/
def quoted (s : PpdLoop) : QuotedField → Option (List Byte)
  | .modelName => s.ppd.modelName
  | .nickName => s.ppd.nickName
  | .product => s.ppd.product
  | .shortNickName => s.ppd.shortNickName

/-- A quoted field gets its value. -/
def store (s : PpdLoop) (value : List Byte) : QuotedField → PpdLoop
  | .modelName => { s with ppd := { s.ppd with modelName := some value } }
  | .nickName =>
    { s with ppd := { s.ppd with
      nickName := some value, shortNickName := s.ppd.shortNickName.or (some value) } }
  | .product => { s with ppd := { s.ppd with product := some value } }
  | .shortNickName => { s with ppd := { s.ppd with shortNickName := some value } }

/-- The field of a line with a quoted value, and what is behind the keyword. -/
def quotedLine? (line : List Byte) : Option (QuotedField × List Byte) :=
  (lmatchp line "*ModelName:").map (.modelName, ·)
  <|> (lmatchp line "*NickName:").map (.nickName, ·)
  <|> (lmatchp line "*Product:").map (.product, ·)
  <|> (lmatchp line "*ShortNickName:").map (.shortNickName, ·)

/-- The initial segment of a value that is to be stored. -/
def segment? (s : PpdLoop) (line : List Byte) : Option (QuotedField × List Byte) :=
  match quotedLine? line with
  | some (field, 34 :: p) => if s.quoted field = none then some (field, p) else none
  | _ => none

/-- The loop over the lines.  Behind the last one there is the end, or an exception if `throws`; a
string that an exception cuts off is not stored.  `none` if a value is not decoded. -/
def run (d : Decoder) (throws : Bool) : ℕ → PpdLoop → List (List Byte) → Option PpdLoop
  | 0, s, _ => some s
  | _ + 1, s, [] => some s
  | n + 1, s, line :: lines =>
    match s.segment? line with
    | none => run d throws n (s.plainLine line) lines
    | some (field, p) =>
      match finishQuotedString [] p lines with
      | (text, some lines) =>
        (d.decode text).bind fun value => run d throws n (s.store value field) lines
      | (text, none) =>
        if throws then some s else (d.decode text).map fun value => s.store value field

end PpdLoop

/-- `pip->ppd` before the file is read. -/
def PpdInfo.new (unset : Unset) : PpdInfo :=
  { protocols := unset.protocols, binaryOK := unset.binaryOK }

/-- `interface_default_codes()`, where there need not be an interface. -/
def defaultCodes (interface : Option (List Byte)) (tbcp : Bool) : CInt :=
  match interface with
  | some interface => interfaceDefaultCodes interface tbcp
  | none => codesUnknown

/-- The codes when those that are not specified have been chosen. -/
def PrinterInfo.chosenCodes (pip : PrinterInfo) (tbcp : Bool) : CInt :=
  let default := defaultCodes pip.interface tbcp
  let codes := if pip.feedback = none then default else pip.codes
  let codes := if pip.jobbreak = notSaid then default else codes
  if codes = notSaid then default else codes

/-- What comes behind the loop: the codes, and what depends on them and on the options. -/
def PrinterInfo.defaults (pip : PrinterInfo) (ppd : PpdInfo) : PrinterInfo :=
  let codes := pip.chosenCodes ppd.protocols.tbcp
  let ppd := if codes = codesBinary ∨ codes = codesTbcp then { ppd with binaryOK := true } else ppd
  let ppd :=
    match (pip.ppdopts.get (ascii "*InstalledMemory")).bind ppd.vmOptions.get with
    | some value => { ppd with psFreeVM := atoi value }
    | none => ppd
  { pip with codes := codes, ppd := some ppd }

/-- What is read of the PPD file, and whether that is all of it; `none` if the loop does not end. -/
def readPpd (files : PpdFiles) (d : Decoder) (unset : Unset) (ppdFile : List Byte) :
    Option (PpdInfo × Bool) :=
  match files.ppdLines ppdFile with
  | .error _ => some (.new unset, false)
  | .ok (lines, thrown) =>
    (PpdLoop.run d thrown.isSome lines.length { ppd := .new unset } lines).map fun s =>
      (s.ppd, !thrown.isSome)

/-- `do_printer_ppd()`; `none` if it does not return.  Its caller goes on after an exception. -/
def doPrinterPpd (files : PpdFiles) (d : Decoder) (unset : Unset) (pip : PrinterInfo) :
    Option PrinterInfo :=
  match pip.ppdFile with
  | none => some pip
  | some ppdFile =>
    (readPpd files d unset ppdFile).map fun (ppd, whole) =>
      if whole then pip.defaults ppd else { pip with ppd := some ppd }

/-! ## The configuration file -/

/-- A line that is understood, with what is extracted from it. -/
inductive PrinterLine where
  | address (p : List Byte)
  | comment (p : List Byte)
  | codes (p : List Byte)
  | charge
  | feedback (p : List Byte)
  | interface (p : List Byte)
  | jobBreak (p : List Byte)
  | location (p : List Byte)
  | options (p : List Byte)
  | ppdFile (p : List Byte)
  | ppdOpt (p : List Byte)
  | passThru (p : List Byte)
  | switchset (p : List Byte)
  deriving DecidableEq

/-- What `gu_sscanf()` with one conversion extracts. -/
def extractedString (line : List Byte) (format : String) : Option (List Byte) :=
  (guSscanf (scanFormat format) line).head?.map (·.string)

/-- The cases of `switch(line[0])`. -/
def printerLine? (line : List Byte) : Option PrinterLine :=
  (extractedString line "Address: %A").map .address
  <|> (lmatchp line "Comment:").map .comment
  <|> (lmatchp line "Codes:").map .codes
  <|> (lmatchp line "Charge:").map (fun _ => .charge)
  <|> (lmatchp line "Feedback:").map .feedback
  <|> (lmatchp line "Interface:").map .interface
  <|> (lmatchp line "JobBreak:").map .jobBreak
  <|> (lmatchp line "Location:").map .location
  <|> (extractedString line "Options: %T").map .options
  <|> (lmatchp line "PPDFile:").map .ppdFile
  <|> (lmatchp line "PPDOpt:").map .ppdOpt
  <|> (lmatchp line "PassThru:").map .passThru
  <|> (lmatchp line "Switchset:").map .switchset

/-- What a line does to the printer. -/
def PrinterInfo.line (pip : PrinterInfo) (depth : ℕ) : PrinterLine → PrinterInfo
  | .address p => { pip with interfaceAddress := some p }
  | .comment p => { pip with comment := some p }
  | .codes p => { pip with codes := BitVec.ofInt 32 (atoi p) }
  | .feedback p => { pip with feedback := (guTorf p).or pip.feedback }
  | .interface p =>
    { pip with
      interface := some p, interfaceAddress := none, interfaceOptions := none
      feedback := none, jobbreak := notSaid, codes := notSaid }
  | .jobBreak p => { pip with jobbreak := BitVec.ofInt 32 (atoi p) }
  | .location p => if depth = 0 then { pip with location := some p } else pip
  | .options p => { pip with interfaceOptions := some p }
  | .ppdFile p => { pip with ppdFile := some p }
  | .ppdOpt p =>
    match fields (· = 32) p with
    | name :: value :: _ => { pip with ppdopts := pip.ppdopts.set name value }
    | _ => pip
  | .charge | .passThru _ | .switchset _ => pip

/-- The lines of a configuration file that are understood. -/
def printerLines (text : List Byte) : List PrinterLine :=
  ((rawLines text).map chop).filterMap printerLine?

/-! ## The state of the printer -/

/-- `printer_spool_state_load()`, with what is in the file if it can be opened. -/
def printerSpoolStateLoad (file : Option (List Byte)) : PrinterSpoolState :=
  match file.map (·.take 128) with
  | none => {}
  | some data =>
    if data.length = 128 then {}
    else
      let found := guSscanf (scanFormat "%d %d %d %d %d %d %d %d %d") (cstr data)
      let at_ (i : ℕ) (default : CInt) := (found[i]?.map (·.number 32)).getD default
      { accepting := at_ 0 1, previousStatus := at_ 1 0, status := at_ 2 0, nextErrorRetry := at_ 3 0
        nextEngagedRetry := at_ 4 0, countdown := at_ 5 0, printerStateChangeTime := at_ 6 0
        isProtected := at_ 7 0, jobCount := at_ 8 0 }

/-- The `PRINTER_INFO` that `do_printer()` makes of a configuration file; `none` if it does not
return. -/
def loadPrinter (files : PpdFiles) (d : Decoder) (unset : Unset) (name : List Byte) (depth : ℕ)
    (text : List Byte) (spoolState : PrinterSpoolState) : Option PrinterInfo :=
  let pip := (printerLines text).foldl (·.line depth) { name := name, ppdFile := unset.ppdFile }
  (doPrinterPpd files d unset pip).map fun pip => { pip with spoolState := spoolState }

end Ppr.Queueinfo
