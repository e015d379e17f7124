import Ppr.Libppr.PrinterInfo

/-!
# Queues

`do_printer()`, `do_group()`, `do_alias()`, `queueinfo_new_load_config()` and the queries of
`queueinfo.c`.  Files are known by the names of the queues.
-/

namespace Ppr.Queueinfo

/-! ## Data -/

/-- `struct GROUP_SPOOL_STATE`. -/
structure GroupSpoolState where
  accepting : CInt := 1
  held : CInt := 0
  printerStateChangeTime : CInt := 0
  isProtected : CInt := 0
  jobCount : CInt := 0
  deriving DecidableEq

/-- `struct QUEUE_INFO`. -/
structure QueueInfo where
  name : List Byte
  comment : Option (List Byte) := none
  transparentMode : Bool := false
  psPassThru : Bool := false
  printers : List PrinterInfo := []
  commonFontsFound : Bool := false
  fontlist : List (List Byte) := []
  chargeExists : Bool := false
  /-- If it is valid. -/
  groupSpoolState : Option GroupSpoolState := none

/-- What is read: the configuration files, the PPD files and the state files. -/
structure QueueFiles where
  aliases : List Byte → Option (List Byte)
  groups : List Byte → Option (List Byte)
  printers : List Byte → Option (List Byte)
  ppd : PpdFiles
  groupState : List Byte → Option (List Byte)
  printerState : List Byte → Option (List Byte)

/-- The files and the machine; `unset` is for the first printer of the object, the second and so
on. -/
structure Setting where
  files : QueueFiles
  decoder : Decoder
  unset : ℕ → Unset

/-- Why there is no object. -/
inductive Unloaded where
  | thrown (message : List Byte)
  | endless
  deriving DecidableEq

/-- The comparison of `find_lowest_version()`. -/
def PpdInfo.older (a b : PpdInfo) : Prop :=
  a.psVersion < b.psVersion ∨ a.psVersion = b.psVersion ∧ a.psRevision < b.psRevision

instance (a b : PpdInfo) : Decidable (a.older b) := inferInstanceAs (Decidable (_ ∨ _ ∧ _))

/-- The PPD file has the font. -/
def PrinterInfo.hasFont (pip : PrinterInfo) (name : List Byte) : Bool :=
  pip.ppd.any fun ppd => (ppd.fonts.get name).isSome

/-! ## Loading -/

/-- `group_spool_state_load()`, with what is in the file if it can be opened. -/
def groupSpoolStateLoad (file : Option (List Byte)) : GroupSpoolState :=
  match file.map (·.take 128) with
  | none => {}
  | some data =>
    if data.length = 128 then {}
    else
      let found := guSscanf (scanFormat "%d %d %d %d %d") (cstr data)
      let at_ (i : ℕ) (default : CInt) := (found[i]?.map (·.number 32)).getD default
      { accepting := at_ 0 1, held := at_ 1 0, printerStateChangeTime := at_ 2 0
        isProtected := at_ 3 0, jobCount := at_ 4 0 }

namespace QueueInfo

/-- `do_switchset()`. -/
def doSwitchset (qip : QueueInfo) (switchset : List Byte) : QueueInfo :=
  { qip with transparentMode := (fields (· = 124) switchset).any fun p =>
      p = ascii "Htransparent" || p = ascii "-hack=transparent" }

/-- `do_passthru()`. -/
def doPassthru (qip : QueueInfo) (list : List Byte) : QueueInfo :=
  { qip with psPassThru := (fields (· = 124) list).any (· = ascii "postscript") }

/-- What a line of a printer does to the queue. -/
def printerLine (depth : ℕ) (qip : QueueInfo) : PrinterLine → QueueInfo
  | .comment p => if depth = 0 then { qip with comment := some p } else qip
  | .charge => { qip with chargeExists := true }
  | .passThru p => if depth = 0 then qip.doPassthru p else qip
  | .switchset p => if depth = 0 then qip.doSwitchset p else qip
  | _ => qip

/-- `do_printer()`; `none` if there is no such printer. -/
def doPrinter (env : Setting) (qip : QueueInfo) (name : List Byte) (depth : ℕ) :
    Except Unloaded (Option QueueInfo) :=
  match env.files.printers name with
  | none => .ok none
  | some text =>
    let qip := (printerLines text).foldl (printerLine depth) qip
    match loadPrinter env.files.ppd env.decoder (env.unset qip.printers.length) name depth text
        (printerSpoolStateLoad (env.files.printerState qip.name)) with
    | none => .error .endless
    | some pip => .ok (some { qip with printers := qip.printers ++ [pip] })

/-- A line of a group or an alias that is understood. -/
inductive QueueLine where
  | comment (p : List Byte)
  | printer (p : List Byte)
  | forWhat (p : List Byte)
  | passThru (p : List Byte)
  | switchset (p : List Byte)
  deriving DecidableEq

/-- The lines `do_group()` understands. -/
def groupLine? (line : List Byte) : Option QueueLine :=
  (lmatchp line "Comment:").map .comment
  <|> (lmatchp line "Printer:").map .printer
  <|> (lmatchp line "PassThru:").map .passThru
  <|> (lmatchp line "Switchset:").map .switchset

/-- The lines `do_alias()` understands. -/
def aliasLine? (line : List Byte) : Option QueueLine :=
  (lmatchp line "Comment:").map .comment
  <|> (lmatchp line "ForWhat:").map .forWhat
  <|> (lmatchp line "PassThru:").map .passThru
  <|> (lmatchp line "Switchset:").map .switchset

def groupLines (text : List Byte) : List QueueLine := ((rawLines text).map chop).filterMap groupLine?

def aliasLines (text : List Byte) : List QueueLine := ((rawLines text).map chop).filterMap aliasLine?

/-- What `do_group()` does about a line. -/
def groupLine (env : Setting) (depth : ℕ) (qip : QueueInfo) : QueueLine → Except Unloaded QueueInfo
  | .comment p => .ok (if depth = 0 then { qip with comment := some p } else qip)
  | .printer p => do return (← qip.doPrinter env p (depth + 1)).getD qip
  | .passThru p => .ok (qip.doPassthru p)
  | .switchset p => .ok (qip.doSwitchset p)
  | .forWhat _ => .ok qip

/-- `do_group()`; `none` if there is no such group. -/
def doGroup (env : Setting) (qip : QueueInfo) (name : List Byte) (depth : ℕ) :
    Except Unloaded (Option QueueInfo) :=
  match env.files.groups name with
  | none => .ok none
  | some text => do
    let qip ← (groupLines text).foldlM (groupLine env depth) qip
    return some { qip with groupSpoolState := some (groupSpoolStateLoad (env.files.groupState qip.name)) }

/-- What `do_alias()` does about a line. -/
def aliasLine (env : Setting) (qip : QueueInfo) : QueueLine → Except Unloaded QueueInfo
  | .comment p => .ok { qip with comment := some p }
  | .forWhat p => do
    match ← qip.doGroup env p 1 with
    | some qip => return qip
    | none =>
      match ← qip.doPrinter env p 1 with
      | some qip => return qip
      | none => throw (.thrown (ascii "broken alias"))
  | .passThru p => .ok (qip.doPassthru p)
  | .switchset p => .ok (qip.doSwitchset p)
  | .printer _ => .ok qip

/-- `do_alias()`; `none` if there is no such alias. -/
def doAlias (env : Setting) (qip : QueueInfo) : Except Unloaded (Option QueueInfo) :=
  match env.files.aliases qip.name with
  | none => .ok none
  | some text => do return some (← (aliasLines text).foldlM (aliasLine env) qip)

/-- `enum QUEUEINFO_TYPE`. -/
inductive QueueinfoType where
  | search
  | alias
  | group
  | printer

/-- There is none. -/
def missing (what : String) (name : List Byte) : Unloaded :=
  .thrown (ascii "There is no " ++ ascii what ++ ascii " called \"" ++ name ++ ascii "\"")

/-- The object if there is one, or what is tried next. -/
def loaded (attempt : Except Unloaded (Option QueueInfo)) (next : Except Unloaded QueueInfo) :
    Except Unloaded QueueInfo := do
  match ← attempt with
  | some qip => return qip
  | none => next

/-- `queueinfo_new_load_config()`. -/
def newLoadConfig (env : Setting) (qit : QueueinfoType) (name : List Byte) :
    Except Unloaded QueueInfo :=
  let qip : QueueInfo := { name := name }
  match qit with
  | .search =>
    loaded (qip.doAlias env) <| loaded (qip.doGroup env name 0) <| loaded (qip.doPrinter env name 0) <|
      .error (missing "alias, group, or printer" name)
  | .alias => loaded (qip.doAlias env) (.error (missing "alias" name))
  | .group => loaded (qip.doGroup env name 0) (.error (missing "group" name))
  | .printer => loaded (qip.doPrinter env name 0) (.error (missing "printer" name))

/-! ## Queries about the state -/

/-- Why there is no answer. -/
inductive Unanswered where
  | thrown (message : List Byte)
  /-- There is no first printer to look at. -/
  | fault
  deriving DecidableEq

/-- A query that groups answer from their own state, printers from that of the first. -/
def stateQuery {α : Type} (qip : QueueInfo) (group : GroupSpoolState → Except Unanswered α)
    (printer : PrinterSpoolState → α) : Except Unanswered α :=
  match qip.groupSpoolState with
  | some state => group state
  | none =>
    match qip.printers with
    | pip :: _ => .ok (printer pip.spoolState)
    | [] => .error .fault

/-- `queueinfo_queued_job_count()`. -/
def queuedJobCount (qip : QueueInfo) : Except Unanswered CInt :=
  qip.stateQuery (fun state => .ok state.jobCount) (·.jobCount)

/-- `queueinfo_accepting()`. -/
def accepting (qip : QueueInfo) : Except Unanswered CInt :=
  qip.stateQuery (fun state => .ok state.accepting) (·.accepting)

def notAPrinter : Unanswered := .thrown (ascii "not a printer")

/-- `queueinfo_status()`. -/
def status (qip : QueueInfo) : Except Unanswered CInt :=
  qip.stateQuery (fun _ => .error notAPrinter) (·.status)

/-- `queueinfo_retry()`: the count and the countdown. -/
def retry (qip : QueueInfo) : Except Unanswered (CInt × CInt) :=
  qip.stateQuery (fun _ => .error notAPrinter) fun state =>
    -- `PRNSTATUS_FAULT` and `PRNSTATUS_ENGAGED`
    if state.status = 4 then (state.nextErrorRetry, state.countdown)
    else if state.status = 5 then (state.nextEngagedRetry, state.countdown)
    else (0, 0)

/-- `queueinfo_state_change_time()`. -/
def stateChangeTime (qip : QueueInfo) : Except Unanswered CInt :=
  qip.stateQuery (fun state => .ok state.printerStateChangeTime) (·.printerStateChangeTime)

/-- `queueinfo_membername()`. -/
def membername (qip : QueueInfo) (index : ℕ) : Option (List Byte) := qip.printers[index]?.map (·.name)

/-! ## Queries about what the printers can do -/

/-- The loop of the queries whose answer all printers must agree on. -/
def agreedLoop (attr : PrinterInfo → Option (List Byte)) :
    Option (List Byte) → List PrinterInfo → Option (List Byte)
  | answer, [] => answer
  | answer, pip :: pips =>
    match attr pip, answer with
    | none, _ => none
    | some value, none => agreedLoop attr (some value) pips
    | some value, some answer => if answer = value then agreedLoop attr (some answer) pips else none

/-- A query whose answer all printers must agree on. -/
def agreed (attr : PrinterInfo → Option (List Byte)) (qip : QueueInfo) : Option (List Byte) :=
  agreedLoop attr none qip.printers

/-- `queueinfo_modelName()`. -/
def modelName : QueueInfo → Option (List Byte) := agreed fun pip => pip.ppd.bind (·.modelName)

/-- `queueinfo_ppdFile()`. -/
def ppdFile : QueueInfo → Option (List Byte) := agreed (·.ppdFile)

/-- `queueinfo_product()`. -/
def product : QueueInfo → Option (List Byte) := agreed fun pip => pip.ppd.bind (·.product)

/-- `queueinfo_shortNickName()`. -/
def shortNickName : QueueInfo → Option (List Byte) := agreed fun pip => pip.ppd.bind (·.shortNickName)

/-- `queueinfo_faxSupport()`. -/
def faxSupport : QueueInfo → Option (List Byte) := agreed fun pip => pip.ppd.bind (·.faxSupport)

/-- `queueinfo_ttRasterizer()`. -/
def ttRasterizer : QueueInfo → Option (List Byte) := agreed fun pip => pip.ppd.bind (·.ttRasterizer)

/-- The loop of the queries that are true if they are for all printers. -/
def everyLoop (can : PpdInfo → Bool) : Bool → List PrinterInfo → Bool
  | answer, [] => answer
  | _, pip :: pips => if pip.ppd.any can then everyLoop can true pips else false

/-- `queueinfo_binaryOK()`. -/
def binaryOK (qip : QueueInfo) : Bool := everyLoop (·.binaryOK) false qip.printers

/-- `queueinfo_colorDevice()`. -/
def colorDevice (qip : QueueInfo) : Bool := everyLoop (·.colorDevice) false qip.printers

/-- The loop of `find_lowest_version()`. -/
def lowestVersionLoop : Option PpdInfo → List PrinterInfo → Option PpdInfo
  | lowest, [] => lowest
  | lowest, pip :: pips =>
    match pip.ppd with
    | none => none
    | some ppd =>
      if ppd.psVersion = 0 then none
      else
        match lowest with
        | none => lowestVersionLoop (some ppd) pips
        | some l => lowestVersionLoop (some (if ppd.older l then ppd else l)) pips

/-- `find_lowest_version()`: the `ppd` of the printer. -/
def findLowestVersion (qip : QueueInfo) : Option PpdInfo := lowestVersionLoop none qip.printers

/-- `queueinfo_psLanguageLevel()`. -/
def psLanguageLevel (qip : QueueInfo) : ℤ :=
  match qip.findLowestVersion with
  | some ppd => ppd.psLanguageLevel
  | none => 0

/-- The loop of `queueinfo_psFreeVM()`. -/
def freeVMLoop : ℤ → List PrinterInfo → ℤ
  | lowest, [] => lowest
  | lowest, pip :: pips =>
    match pip.ppd with
    | none => 0
    | some ppd =>
      if ppd.psFreeVM = 0 then 0
      else freeVMLoop (if lowest = 0 ∨ ppd.psFreeVM < lowest then ppd.psFreeVM else lowest) pips

/-- `queueinfo_psFreeVM()`. -/
def psFreeVM (qip : QueueInfo) : ℤ := freeVMLoop 0 qip.printers

/-- The loop of `queueinfo_resolution()`. -/
def resolutionLoop : ℤ × Option (List Byte) → List PrinterInfo → Option (List Byte)
  | lowest, [] => lowest.2
  | lowest, pip :: pips =>
    match pip.ppd.bind (·.resolution) with
    | none => none
    | some resolution =>
      resolutionLoop (if lowest.1 = 0 ∨ atoi resolution < lowest.1 then (atoi resolution, some resolution)
        else lowest) pips

/-- `queueinfo_resolution()`. -/
def resolution (qip : QueueInfo) : Option (List Byte) := resolutionLoop (0, none) qip.printers

/-! ## Queries about fonts and options -/

/-- The loop over the fonts of the first printer. -/
def commonFontsLoop (others : List PrinterInfo) (fonts : Chained.Table.Cursor (List Byte) Unit) :
    List (List Byte) :=
  match _h : fonts.next with
  | none => []
  | some (fontname, fonts') =>
    if others.all (·.hasFont fontname) then fontname :: commonFontsLoop others fonts'
    else commonFontsLoop others fonts'
termination_by fonts.rest.length
decreasing_by all_goals simp [fonts.rest_eq, _h]

/-- `find_common_fonts()`. -/
def findCommonFonts (qip : QueueInfo) : QueueInfo :=
  if qip.commonFontsFound then qip
  else
    { qip with
      commonFontsFound := true
      fontlist := qip.fontlist ++
        match qip.printers with
        | [] => []
        | pip :: others =>
          match pip.ppd with
          | none => []
          | some ppd => commonFontsLoop others ppd.fonts.rewind }

/-- The fonts that `queueinfo_fontCount()` counts and `queueinfo_font()` gives. -/
def fonts (qip : QueueInfo) : List (List Byte) := qip.findCommonFonts.fontlist

/-- `queueinfo_fontExists()`. -/
def fontExists (qip : QueueInfo) (name : List Byte) : Bool :=
  qip.printers.all (·.hasFont name)

/-- `queueinfo_optionValue()`. -/
def optionValue (qip : QueueInfo) (name : List Byte) : Option (List Byte) :=
  match qip.ppdFile with
  | none => none
  | some _ => agreed (·.ppdopts.get name) qip

end QueueInfo

end Ppr.Queueinfo
