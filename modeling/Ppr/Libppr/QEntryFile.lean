import Ppr.Libgu.Sscanf

/-!
# The queue file

`struct QEntryFile` with `qentryfile_save()`, `qentryfile_clear()` and `qentryfile_load()`, and the
checks that `write_queue_file()` of `ppr_main.c` makes before it saves.  A string is its bytes and
`NULL` is `none`; `%s` of `NULL` is "(null)".  The C integers wrap; a `float` is a rational number.
The members that neither function touches are left out.
-/

namespace Ppr

/-! ## The structure -/

/-- `struct JOB_SPOOL_STATE`. -/
structure QEntryFile.SpoolState where
  priority : CInt
  sequenceNumber : BitVec 32
  status : BitVec 16
  flags : BitVec 16
  deriving DecidableEq, Inhabited

/-- `struct RESPONDER`. -/
structure QEntryFile.Responder where
  name : Option (List Byte)
  address : Option (List Byte)
  options : Option (List Byte)
  deriving DecidableEq, Inhabited

structure QEntryFile.Attr where
  langlevel : CInt
  extensions : CInt
  DSClevel : ℚ
  DSCJobType : Option (List Byte)
  pages : CInt
  pageorder : CInt
  pagefactor : CInt
  prolog : CInt
  docsetup : CInt
  script : CInt
  proofmode : CInt
  orientation : CInt
  inputBytes : BitVec 64
  postscriptBytes : BitVec 64
  parts : CInt
  docdata : CInt
  deriving DecidableEq, Inhabited

structure QEntryFile.Opts where
  binselect : CInt
  copies : CInt
  collate : CInt
  keepBadfeatures : CInt
  hacks : BitVec 32
  deriving DecidableEq, Inhabited

structure QEntryFile.NUp where
  N : CInt
  borders : CInt
  sigsheets : CInt
  sigpart : CInt
  jobDoesNUp : CInt
  deriving DecidableEq, Inhabited

structure QEntryFile.PageList where
  mask : Option (List Byte)
  count : CInt
  deriving DecidableEq, Inhabited

/-- `struct QEntryFile`. -/
structure QEntryFile where
  PPRVersion : ℚ
  lcMessages : Option (List Byte)
  spoolState : QEntryFile.SpoolState
  time : BitVec 64
  user : Option (List Byte)
  magicCookie : Option (List Byte)
  For : Option (List Byte)
  chargeTo : Option (List Byte)
  Routing : Option (List Byte)
  Title : Option (List Byte)
  Creator : Option (List Byte)
  lpqFileName : Option (List Byte)
  responder : QEntryFile.Responder
  commentary : CInt
  doBanner : CInt
  doTrailer : CInt
  attr : QEntryFile.Attr
  opts : QEntryFile.Opts
  nUp : QEntryFile.NUp
  draftNotice : Option (List Byte)
  PassThruPDL : Option (List Byte)
  Filters : Option (List Byte)
  StripPrinter : CInt
  pageList : QEntryFile.PageList
  question : Option (List Byte)
  ripopts : Option (List Byte)
  deriving DecidableEq, Inhabited

/-! ## Saving -/

/-- "%s". -/
def cString (s : Option (List Byte)) : List Byte := s.getD (ascii "(null)")

/-- "%d" and "%ld". -/
def cDecimal {w : ℕ} (i : BitVec w) : List Byte := decimalInt i.toInt

/-- Division of an `int`; where the machine traps there is no result. -/
def cDiv (a b : CInt) : Option CInt :=
  if b = 0 ∨ (a = BitVec.intMin 32 ∧ b = -1) then none else some (a.sdiv b)

/-- `gu_dtostr()`. -/
def guDtostr (n : ℚ) : List Byte :=
  let whole := ⌊|n|⌋₊
  let frac := ⌊(|n| - whole + 1 / 20000) * 10000⌋₊ % 10000
  if 999999999 < whole then ascii "<overflow>"
  else
    (if n < 0 then [45] else []) ++ decimal whole ++
      -- Four digits, without the zeros at the end.
      if frac = 0 then []
      else 46 :: ([frac / 1000, frac / 100 % 10, frac / 10 % 10, frac % 10].rdropWhile (· = 0)).map
        fun d => BitVec.ofNat 8 (48 + d)

namespace QEntryFile

/-- The content of the "PPRD:" line. -/
def pprdContent (s : SpoolState) : List Byte :=
  spaced [upperHex 2 s.priority.toNat, upperHex 8 s.sequenceNumber.toNat,
    upperHex 2 (-s.status.signExtend 32).toNat, upperHex 4 s.flags.toNat] ++ List.replicate 38 32

/-- A line that is there only if the member is. -/
def optional (name : String) (s : Option (List Byte)) : List (String × List Byte) :=
  s.toList.map fun s => (name, s)

/-- The lines down to "EndMisc", each with its name. -/
def miscLines (q : QEntryFile) : List (String × List Byte) :=
  [("PPRD: ", pprdContent q.spoolState), ("User: ", cString q.user),
    ("PPRVersion: ", ascii "2.00a1")] ++
  optional "LC_MESSAGES: " q.lcMessages ++
  [("Time: ", cDecimal q.time), ("MagicCookie: ", cString q.magicCookie),
    ("For: ", q.For.getD (ascii "???"))] ++
  optional "Charge-To: " q.chargeTo ++
  optional "Title: " (q.Title.filter (· ≠ [])) ++
  optional "DraftNotice: " q.draftNotice ++
  optional "Creator: " q.Creator ++
  optional "Routing: " q.Routing ++
  optional "lpqFileName: " q.lpqFileName ++
  [("Banners: ", spaced [cDecimal q.doBanner, cDecimal q.doTrailer]),
    ("Response: ", spaced [cString q.responder.name, cString q.responder.address,
      q.responder.options.getD []]),
    ("Commentary: ", cDecimal q.commentary),
    ("Attr-DSC: ", spaced [guDtostr q.attr.DSClevel, q.attr.DSCJobType.getD (ascii "NULL"),
      cDecimal q.attr.orientation, cDecimal q.attr.proofmode, cDecimal q.attr.docdata]),
    ("Attr-DSC-Sections: ",
      spaced [cDecimal q.attr.prolog, cDecimal q.attr.docsetup, cDecimal q.attr.script]),
    ("Attr-LangLevel: ", spaced [cDecimal q.attr.langlevel, cDecimal q.attr.extensions]),
    ("Attr-Pages: ",
      spaced [cDecimal q.attr.pages, cDecimal q.attr.pageorder, cDecimal q.attr.pagefactor]),
    ("Attr-ByteCounts: ", spaced [cDecimal q.attr.inputBytes, cDecimal q.attr.postscriptBytes]),
    ("Attr-Parts: ", cDecimal q.attr.parts),
    ("Opts: ", spaced [cDecimal q.opts.binselect, cDecimal q.opts.copies, cDecimal q.opts.collate,
      cDecimal q.opts.keepBadfeatures, decimal q.opts.hacks.toNat]),
    ("N-Up: ", spaced [cDecimal q.nUp.N, cDecimal q.nUp.borders, cDecimal q.nUp.sigsheets,
      cDecimal q.nUp.sigpart, cDecimal q.nUp.jobDoesNUp])] ++
  optional "Filters: " q.Filters ++
  optional "PassThruPDL: " q.PassThruPDL ++
  [("StripPrinter: ", cDecimal q.StripPrinter)] ++
  optional "PageList: " (q.pageList.mask.map fun m => spaced [cDecimal q.pageList.count, m]) ++
  optional "Question: " q.question ++
  optional "RIPopts: " q.ripopts

/-- The lines between "EndMisc" and "EndIPP", from the number of impressions and of sheets. -/
def ippLines (q : QEntryFile) (impressions sheets : CInt) : List (String × List Byte) :=
  [("job-originating-user-name ", q.user.getD (ascii "?"))] ++
  optional "job-name " (if q.Title.filter (· ≠ []) = none then q.lpqFileName else q.Title) ++
  [("job-k-octets ",
      cDecimal (((if q.PassThruPDL = none then q.attr.postscriptBytes else q.attr.inputBytes) +
        512).sdiv 1024)),
    ("job-impressions ", cDecimal impressions),
    ("job-media-sheets ", cDecimal (sheets * q.opts.copies))]

/-- Lines as they stand in the file. -/
def printed (lines : List (String × List Byte)) : List Byte :=
  lines.flatMap fun l => ascii l.1 ++ l.2 ++ [newline]

/-- `qentryfile_save()`; there is no result if it throws or stops at a division. -/
def qentryfileSave (q : QEntryFile) : Option (List Byte) := do
  guard ((printed [("PPRD: ", pprdContent q.spoolState)]).length = 64)
  let impressions ← cDiv (q.attr.pages + q.nUp.N - 1) q.nUp.N
  let sheets ← cDiv (q.attr.pages + q.attr.pagefactor - 1) q.attr.pagefactor
  some (printed q.miscLines ++ ascii "EndMisc\n" ++ printed (q.ippLines impressions sheets) ++
    ascii "EndIPP\n")

/-! ## Loading -/

/-- `qentryfile_clear()`. -/
def qentryfileClear (job : QEntryFile) : QEntryFile :=
  { job with
    spoolState := { priority := 1, sequenceNumber := 0, status := 0, flags := 0 }
    PPRVersion := 0
    time := 0
    commentary := 0
    StripPrinter := 1
    attr := { job.attr with DSCJobType := none }
    user := none
    For := none
    chargeTo := none
    magicCookie := none
    responder := { name := none, address := none, options := none }
    lcMessages := none
    Creator := none
    Title := none
    Routing := none
    lpqFileName := none
    PassThruPDL := none
    Filters := none
    pageList := { mask := none, count := -1 }
    draftNotice := none
    question := none
    ripopts := none }

/-- The lines that a queue file must have. -/
inductive Needed where
  | time
  | opts
  | user
  | for_
  | response
  | nup
  | banners
  deriving DecidableEq

/-- The lines whose absence `qentryfile_load()` reports. -/
def needed : List Needed := [.time, .opts, .user, .for_, .response, .nup, .banners]

/-- The variables of the loop. -/
structure Loading where
  job : QEntryFile
  found : List Needed
  /-- `retcode` is -1. -/
  failed : Bool

/-- How a line is compared with a name, and what happens if not enough is extracted from it. -/
inductive Test where
  /-- `gu_sscanf()` of the whole line; the next comparison is made. -/
  | scan
  /-- `MATCH()`; `retcode` is set. -/
  | name
  /-- `lmatchp()`; the function returns at once. -/
  | attr
  deriving DecidableEq

/-- A store through a pointer that `gu_sscanf()` is given. -/
abbrev Store := Extracted → QEntryFile → QEntryFile

/-- One kind of line. -/
structure Rule where
  name : String
  test : Test
  format : String
  /-- Where the values go, in the order of the conversions. -/
  stores : List Store
  least : ℕ
  found : Option Needed := none
  /-- What is done after enough was extracted. -/
  finish : QEntryFile → QEntryFile := id

/-- "%hx" into an `int` sets its low half. -/
def setLow (i : CInt) (h : BitVec 16) : CInt := i.extractLsb' 16 16 ++ h

namespace Rule

/-- A line with one string. -/
def string (name format : String) (set : Option (List Byte) → QEntryFile → QEntryFile)
    (found : Option Needed) : Rule :=
  { name := name, test := .name, format := format, least := 1, found := found
    stores := [fun v j => set (some v.string) j] }

def attrDSC : Rule :=
  { name := "Attr-DSC:", test := .attr, format := "%f %S %d %d %d", least := 5
    stores := [fun v j => { j with attr.DSClevel := v.float },
      fun v j => { j with attr.DSCJobType := some v.string },
      fun v j => { j with attr.orientation := v.number 32 },
      fun v j => { j with attr.proofmode := v.number 32 },
      fun v j => { j with attr.docdata := v.number 32 }]
    finish := fun j => { j with attr.DSCJobType := j.attr.DSCJobType.filter (· ≠ ascii "NULL") } }

def attrDSCSections : Rule :=
  { name := "Attr-DSC-Sections:", test := .attr, format := "%d %d %d", least := 3
    stores := [fun v j => { j with attr.prolog := v.number 32 },
      fun v j => { j with attr.docsetup := v.number 32 },
      fun v j => { j with attr.script := v.number 32 }] }

def attrLangLevel : Rule :=
  { name := "Attr-LangLevel:", test := .attr, format := "%d %d", least := 2
    stores := [fun v j => { j with attr.langlevel := v.number 32 },
      fun v j => { j with attr.extensions := v.number 32 }] }

def attrPages : Rule :=
  { name := "Attr-Pages:", test := .attr, format := "%d %d %d", least := 3
    stores := [fun v j => { j with attr.pages := v.number 32 },
      fun v j => { j with attr.pageorder := v.number 32 },
      fun v j => { j with attr.pagefactor := v.number 32 }] }

def attrByteCounts : Rule :=
  { name := "Attr-ByteCounts:", test := .attr, format := "%ld %ld", least := 2
    stores := [fun v j => { j with attr.inputBytes := v.number 64 },
      fun v j => { j with attr.postscriptBytes := v.number 64 }] }

def attrParts : Rule :=
  { name := "Attr-Parts:", test := .attr, format := "%d", least := 1
    stores := [fun v j => { j with attr.parts := v.number 32 }] }

def banners : Rule :=
  { name := "Banners: ", test := .name, format := "%d %d", least := 2, found := some .banners
    stores := [fun v j => { j with doBanner := v.number 32 },
      fun v j => { j with doTrailer := v.number 32 }] }

def chargeTo : Rule := string "Charge-To: " "%W" (fun s j => { j with chargeTo := s }) none

def creator : Rule := string "Creator: " "%T" (fun s j => { j with Creator := s }) none

def commentary : Rule :=
  { name := "Commentary: ", test := .name, format := "%d", least := 1
    stores := [fun v j => { j with commentary := v.number 32 }] }

def draftNotice : Rule := string "DraftNotice: " "%T" (fun s j => { j with draftNotice := s }) none

def for_ : Rule := string "For: " "%T" (fun s j => { j with For := s }) (some .for_)

def filters : Rule := string "Filters: " "%T" (fun s j => { j with Filters := s }) none

def lcMessages : Rule := string "LC_MESSAGES: " "%S" (fun s j => { j with lcMessages := s }) none

def lpqFileName : Rule := string "lpqFileName: " "%A" (fun s j => { j with lpqFileName := s }) none

def magicCookie : Rule := string "MagicCookie: " "%S" (fun s j => { j with magicCookie := s }) none

def nUp : Rule :=
  { name := "N-Up: ", test := .name, format := "%d %d %d %d %d", least := 5, found := some .nup
    stores := [fun v j => { j with nUp.N := v.number 32 },
      fun v j => { j with nUp.borders := v.number 32 },
      fun v j => { j with nUp.sigsheets := v.number 32 },
      fun v j => { j with nUp.sigpart := v.number 32 },
      fun v j => { j with nUp.jobDoesNUp := v.number 32 }] }

def opts : Rule :=
  { name := "Opts: ", test := .name, format := "%d %d %d %d %u", least := 5, found := some .opts
    stores := [fun v j => { j with opts.binselect := v.number 32 },
      fun v j => { j with opts.copies := v.number 32 },
      fun v j => { j with opts.collate := v.number 32 },
      fun v j => { j with opts.keepBadfeatures := v.number 32 },
      fun v j => { j with opts.hacks := v.number 32 }] }

def pprd : Rule :=
  { name := "PPRD: ", test := .scan, format := "PPRD: %hx %x %hx %hx", least := 4
    stores := [fun v j =>
        { j with spoolState.priority := setLow j.spoolState.priority (v.number 16) },
      fun v j => { j with spoolState.sequenceNumber := v.number 32 },
      fun v j => { j with spoolState.status := v.number 16 },
      fun v j => { j with spoolState.flags := v.number 16 }]
    finish := fun j => { j with spoolState.status := -j.spoolState.status } }

def pprVersion : Rule :=
  { name := "PPRVersion: ", test := .scan, format := "PPRVersion: %f", least := 1
    stores := [fun v j => { j with PPRVersion := v.float }] }

def passThruPDL : Rule := string "PassThruPDL: " "%T" (fun s j => { j with PassThruPDL := s }) none

def pageList : Rule :=
  { name := "PageList: ", test := .scan, format := "PageList: %d %T", least := 2
    stores := [fun v j => { j with pageList.count := v.number 32 },
      fun v j => { j with pageList.mask := some v.string }] }

def question : Rule := string "Question: " "%T" (fun s j => { j with question := s }) none

def routing : Rule := string "Routing: " "%T" (fun s j => { j with Routing := s }) none

def response : Rule :=
  { name := "Response: ", test := .name, format := "%S %S %T", least := 2, found := some .response
    stores := [fun v j => { j with responder.name := some v.string },
      fun v j => { j with responder.address := some v.string },
      fun v j => { j with responder.options := some v.string }] }

def ripopts : Rule := string "RIPopts: " "%T" (fun s j => { j with ripopts := s }) none

def stripPrinter : Rule :=
  { name := "StripPrinter: ", test := .scan, format := "StripPrinter: %d", least := 1
    stores := [fun v j => { j with StripPrinter := if v.number 32 = 0 then 0 else 1 }] }

def time : Rule :=
  { name := "Time: ", test := .name, format := "%U", least := 1, found := some .time
    stores := [fun v j => { j with time := v.number 64 }] }

def title : Rule := string "Title: " "%T" (fun s j => { j with Title := s }) none

/-- The user is read with `%T` for consistency with the IPP server. -/
def user : Rule := string "User: " "%T" (fun s j => { j with user := s }) (some .user)

end Rule

/-- The comparisons that `qentryfile_load()` makes, in their order. -/
def rules : List Rule :=
  [.attrDSC, .attrDSCSections, .attrLangLevel, .attrPages, .attrByteCounts, .attrParts, .banners,
    .chargeTo, .creator, .commentary, .draftNotice, .for_, .filters, .lcMessages, .lpqFileName,
    .magicCookie, .nUp, .opts, .pprd, .pprVersion, .passThruPDL, .pageList, .question, .routing,
    .response, .ripopts, .stripPrinter, .time, .title, .user]

/-- The stores that `gu_sscanf()` makes. -/
def storeAll : List Store → List Extracted → QEntryFile → QEntryFile
  | s :: ss, v :: vs, j => storeAll ss vs (s v j)
  | _, _, j => j

/-- The comparisons with one line; `.error` is a return from the function. -/
def tryRules (line : List Byte) : List Rule → Loading → Except Loading Loading
  | [], st => .ok { st with failed := true }
  | r :: rs, st =>
    let name := ascii r.name
    match r.test with
    | .scan =>
      let vs := guSscanf (scanFormat r.format) line
      let job := storeAll r.stores vs st.job
      if vs.length = r.least then .ok { st with job := r.finish job }
      else tryRules line rs { st with job := job }
    | .name =>
      if name <+: line then
        let vs := guSscanf (scanFormat r.format) (line.drop name.length)
        .ok
          { job := storeAll r.stores vs st.job
            found := r.found.toList ++ st.found
            failed := st.failed || decide (vs.length < r.least) }
      else tryRules line rs st
    | .attr =>
      if name <+: line then
        let vs := guSscanf (scanFormat r.format)
          ((line.drop name.length).dropWhile fun c => c = 32 || c = 9)
        let job := storeAll r.stores vs st.job
        if vs.length = r.least then .ok { st with job := r.finish job }
        else .error { st with job := job }
      else tryRules line rs st

/-- The loop down to "EndMisc", over the lines of the stream. -/
def loadMisc : List (List Byte) → Loading → Except (Loading × List (List Byte)) (Loading × List (List Byte))
  | [], st => .ok (st, [])
  | l :: ls, st =>
    if chop l = ascii "EndMisc" then .ok (st, ls)
    else if chop l = [] then .error (st, ls)
    else
      match tryRules (chop l) rules st with
      | .error st => .error (st, ls)
      | .ok st => loadMisc ls st

/-- The loop down to "EndIPP". -/
def skipIpp : List (List Byte) → List (List Byte)
  | [] => []
  | l :: ls => if chop l = ascii "EndIPP" then ls else skipIpp ls

/-- What `qentryfile_load()` leaves: its return value, the structure and the rest of the stream. -/
structure Loaded where
  ok : Bool
  job : QEntryFile
  rest : List Byte

/-- `qentryfile_load()`. -/
def qentryfileLoad (job : QEntryFile) (stream : List Byte) : Loaded :=
  match loadMisc (rawLines stream) { job := job, found := [], failed := false } with
  | .error (st, ls) => { ok := false, job := st.job, rest := ls.flatten }
  | .ok (st, ls) =>
    { ok := !st.failed && needed.all (· ∈ st.found)
      job := st.job
      rest := (skipIpp ls).flatten }

end QEntryFile

end Ppr
