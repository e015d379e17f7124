import Ppr.Pprdrv.Text

/-!
# Reading and copying a page

`dgetline()` and `copy_a_page()` of `pprdrv.c`, with the functions for the comments that `dgetline()`
does not return: `begin_feature()`, `include_feature()`, `begin_nonppd_feature()`,
`begin_resource()` and `include_resource()`.  What they look up does not change while a job is sent,
so that it is an `Env`; `copies_auto_collate` is 0 since `printer_can_collate()` always says no, and
`strip_binselects` is FALSE on a page since `select_medium_by_dsc_name()` always returns that.
-/

namespace Ppr.Pprdrv

/-- An entry of `drvres[]`. -/
structure Drvres where
  type : List Byte
  name : List Byte
  forceIntoProlog : Bool
  forceIntoDocsetup : Bool

/-- What the printer, the PPD file and the job say. -/
structure Env where
  /-- `find_feature()`. -/
  findFeature : List Byte → Option (List Byte) → Option (List Byte)
  /-- What `printer_puts_QuotedValue()` makes of a string. -/
  quotedValue : List Byte → List Byte
  stripSignature : Bool
  keepBadfeatures : Bool
  /-- `job.N_Up.N`. -/
  nUp : ℕ
  copiesAuto : ℤ
  /-- What `set_numcopies_bare()` writes. -/
  numcopies : List Byte
  drvres : List Drvres
  /-- `job.StripPrinter`. -/
  stripPrinter : Bool
  fontPresent : List Byte → Bool
  /-- What `include_resource_2()` writes, if it does not end with a fatal error. -/
  includeResource : List (List Byte) → Option (List Byte)
  /-- What `insert_userparams_jobtimeout()` writes. -/
  jobtimeout : List Byte
  mediaCount : ℕ
  binselect : Bool
  defaultPagemedia : List Byte
  /-- What `select_medium_by_dsc_name()` writes. -/
  selectMedium : List Byte → List Byte

/-- A fatal error. -/
inductive Fatal where
  | fuel
  | unterminated
  | assertion
  | noResource
  deriving DecidableEq

/-- A line that was read. -/
structure Line where
  bytes : List Byte
  overflow : Bool
  deriving DecidableEq

/-- The line as a string. -/
def Line.str (l : Line) : List Byte := cstr l.bytes

/-- `printer_write(line, line_len)` and the linefeed, if it was a whole line. -/
def Line.whole (l : Line) : List Byte := l.bytes ++ if l.overflow then [] else [newline]

/-- `printer_putline(line)`. -/
def Line.put (l : Line) : List Byte := l.str ++ [newline]

/-- The variables. -/
structure Text where
  /-- What is left of the "-text" file. -/
  file : List Byte
  level : ℕ
  /-- What was sent to the printer. -/
  out : List Byte
  /-- The line buffer. -/
  line : Line

def Text.send (t : Text) (o : List Byte) : Text := { t with out := t.out ++ o }

/-! ## Comments that are not returned -/

/-- A block that is copied up to its end comment. -/
structure Block where
  /-- What is sent before it. -/
  head : List Byte
  /-- The end comment. -/
  stop : List Byte
  /-- What is sent for a line. -/
  each : Line → List Byte
  /-- What is sent after it. -/
  done : Line → List Byte
  /-- The end of the file is a fatal error. -/
  strict : Bool

/-- What is to be done at a line. -/
inductive Act where
  /-- Return it to the caller, with a new level. -/
  | line (level : ℕ → ℕ)
  /-- Send something in its place. -/
  | send (o : List Byte)
  | block (b : Block)
  /-- Call `copy_data()`. -/
  | data
  | fatal (f : Fatal)

/-- `"%s %s"` or `"%s"`. -/
def withOption (featuretype : List Byte) (option : Option (List Byte)) : List Byte :=
  match option with
  | some o => featuretype ++ [32] ++ o
  | none => featuretype

/-- `feature_change()`: whether the feature stays. -/
def featureStays (env : Env) (featuretype : List Byte) : Bool :=
  !(env.stripSignature && (featuretype = ascii "*Signature" || featuretype = ascii "*Booklet"))

/-- The code for a feature as it is sent. -/
def featureCode (env : Env) (option : Option (List Byte)) (string : List Byte) : List Byte :=
  if option.isSome then string else env.quotedValue string

/-- `tolower()`. -/
def tolower (c : Byte) : Byte := if 65 ≤ c.toNat && c.toNat ≤ 90 then c + 32 else c

/-- `include_feature()`. -/
def includeFeature (env : Env) (tokens : List (List Byte)) : Act :=
  match tokens[1]? with
  | none => .send []
  | some featuretype =>
    let option := tokens[2]?
    if option = some [] then .fatal .assertion
    else if !featureStays env featuretype then .send []
    else
      match env.findFeature featuretype option with
      | some string =>
        .send (ascii "%%BeginFeature: " ++ withOption featuretype option ++ [newline] ++
          featureCode env option string ++ ascii "\n%%EndFeature\n")
      | none =>
        match option with
        | some o =>
          if env.nUp ≠ 1 ∧ featuretype = ascii "*PageRegion" then
            .send (ascii "%%BeginFeature: *PageRegion " ++ o ++ [newline] ++ o.map tolower ++ o ++
              ascii "\n%%EndFeature\n")
          else .send (ascii "%%IncludeFeature: " ++ withOption featuretype option ++ [newline])
        | none => .send (ascii "%%IncludeFeature: " ++ withOption featuretype option ++ [newline])

/-- What `begin_feature()` sends when the old code is kept. -/
def retained : List Byte :=
  ascii "% PPR retained the following feature code despite fact that no such\n" ++
  ascii "% feature is listed in the PPD file.  Use ppr's -K switch to change\n" ++
  ascii "% this behavior.\n"

/-- What `begin_feature()` sends when the old code is removed. -/
def removed : List Byte :=
  ascii "% The code for this printer feature was removed by PPR because\n" ++
  ascii "% there is no such feature listed in the PPD file.  Use ppr's -K\n" ++
  ascii "% switch to change this behavior.\n"

/-- `begin_feature()`. -/
def beginFeature (env : Env) (tokens : List (List Byte)) : Act :=
  match tokens[1]? with
  | none => .send []
  | some featuretype =>
    let option := tokens[2]?
    if featureStays env featuretype then
      let start := ascii "%%BeginFeature: " ++ withOption featuretype option ++ [newline]
      match env.findFeature featuretype option with
      | some string =>
        .block
          { head := start
            stop := ascii "%%EndFeature"
            each := fun _ => []
            done := fun _ => featureCode env option string ++ [newline] ++ ascii "%%EndFeature\n"
            strict := true }
      | none =>
        .block
          { head := start ++ if env.keepBadfeatures then retained else removed
            stop := ascii "%%EndFeature"
            each := if env.keepBadfeatures then Line.put else fun _ => []
            done := fun _ => ascii "%%EndFeature\n"
            strict := true }
    else
      .block
        { head := []
          stop := ascii "%%EndFeature"
          each := fun _ => []
          done := fun _ => ascii "% %%EndFeature\n"
          strict := true }

/-- `begin_nonppd_feature()`. -/
def beginNonppdFeature (env : Env) (tokens : List (List Byte)) : Act :=
  match tokens[1]?, tokens[2]? with
  | some name, some value =>
    if name = ascii "NumCopies" ∧ env.copiesAuto ≠ -1 then
      .block
        { head := ascii "% %%BeginNonPPDFeature: " ++ name ++ [32] ++ value ++ [newline] ++
            (ascii "%%BeginNonPPDFeature: " ++ name ++ [32] ++ decimalInt env.copiesAuto ++ [newline])
          stop := ascii "%%EndNonPPDFeature"
          each := fun _ => []
          done := fun _ => env.numcopies ++ ascii "%%EndNonPPDFeature\n"
          strict := true }
    else
      .block
        { head := ascii "%%BeginNonPPDFeature: " ++ name ++ [32] ++ value ++ [newline]
          stop := ascii "%%EndNonPPDFeature"
          each := Line.put
          done := fun _ => ascii "%%EndNonPPDFeature\n"
          strict := true }
  | _, _ => .send []

/-- `include_resource()`. -/
def includeResource (env : Env) (tokens : List (List Byte)) : Act :=
  match tokens[1]?, tokens[2]? with
  | some _, some _ =>
    match env.includeResource tokens with
    | some o => .send o
    | none => .fatal .noResource
  | _, _ => .send []

/-- The entry that `begin_resource()` finds: the one for the resource, or else the last one. -/
def findDrvres (drvres : List Drvres) (type name : List Byte) : Option Drvres :=
  (drvres.find? fun d => d.type = type ∧ d.name = name) <|> drvres.getLast?

/-- `begin_resource()`; the flags for prolog and document setup are FALSE on a page. -/
def beginResource (env : Env) (l : Line) (tokens : List (List Byte)) : Act :=
  let kept : Block :=
    { head := l.whole, stop := ascii "%%EndResource", each := Line.whole, done := Line.whole,
      strict := false }
  match tokens[1]?, tokens[2]? with
  | some type, some name =>
    match findDrvres env.drvres type name with
    | none => .fatal .assertion
    | some d =>
      if d.forceIntoProlog || d.forceIntoDocsetup ||
          (env.stripPrinter && type = ascii "font" && env.fontPresent name) then
        .block
          { head := ascii "%%IncludeResource: " ++ type ++ [32] ++ name ++ [newline]
            stop := ascii "%%EndResource"
            each := fun _ => []
            done := fun _ => []
            strict := false }
      else .block kept
  | _, _ => .block kept

/-- `dgetline_parse()`: what is to be done at a line that is not blank. -/
def dgetlineParse (env : Env) (l : Line) : Act :=
  let s := l.str
  let tokens := tokenize s
  if s.head? = some 37 then
    if lmatch s "%%BeginFeature:" then beginFeature env tokens
    else if lmatch s "%%IncludeFeature:" then includeFeature env tokens
    else if lmatch s "%%BeginNonPPDFeature:" then beginNonppdFeature env tokens
    else if lmatch s "%%IncludeResource:" then includeResource env tokens
    else if lmatch s "%%BeginResource:" then beginResource env l tokens
    else if lmatch s "%%BeginData:" then .data
    else if lmatch s "%%BeginDocument:" then .line (· + 1)
    else if s = ascii "%%EndDocument" then .line (· - 1)
    else .line id
  else .line id

/-! ## dgetline() -/

/-- What is in the line buffer after the loop of `copy_data()` over lines. -/
def lastLine : ℕ → List Byte → Line → Line
  | 0, _, l => l
  | n + 1, file, l =>
    let got := fgets maxLine file
    if got = [] then l else lastLine n (file.drop got.length) ⟨cstr got, l.overflow⟩

/-- `copy_data()` at the line in the buffer. -/
def Text.copyData (t : Text) : Text :=
  let tokens := tokenize t.line.str
  let (sent, rest) := Pprdrv.copyData t.line.str t.file
  let line :=
    match tokens[1]?, tokens[2]?, tokens[3]? with
    | some count, some _, some unit =>
      if unit = ascii "Lines" then lastLine (itemCount count).toNat t.file t.line else t.line
    | _, _, _ => t.line
  { t with file := rest, out := t.out ++ t.line.put ++ sent, line := line }

/-- The lines of a block; `next` is `dgetline()`. -/
def blockLoop (next : Text → Except Fatal (Option Line × Text)) (b : Block) :
    ℕ → Text → Except Fatal Text
  | 0, _ => .error .fuel
  | n + 1, t => do
    let (l, t) ← next t
    match l with
    | none => if b.strict then .error .unterminated else .ok t
    | some l =>
      if l.str = b.stop then .ok (t.send (b.done l)) else blockLoop next b n (t.send (b.each l))

/-- `dgetline()`, with a bound for the number of lines. -/
def dgetline (env : Env) : ℕ → Text → Except Fatal (Option Line × Text)
  | 0, _ => .error .fuel
  | n + 1, t =>
    match dgetlineRead t.file with
    | none => .ok (none, t)
    | some (bytes, overflow, rest) =>
      let l : Line := ⟨bytes, overflow⟩
      let t := { t with file := rest, line := l }
      if l.str = [] then .ok (some l, t)
      else
        match dgetlineParse env l with
        | .line level => .ok (some l, { t with level := level t.level })
        | .send o => dgetline env n (t.send o)
        | .data => dgetline env n t.copyData
        | .fatal f => .error f
        | .block b => do
          let t ← blockLoop (dgetline env n) b n (t.send b.head)
          dgetline env n t

/-- `dgetline()`: every line takes one byte of the file at least. -/
def getLine (env : Env) (t : Text) : Except Fatal (Option Line × Text) :=
  dgetline env (t.file.length + 1) t

/-! ## copy_a_page() -/

/-- `gu_sscanf(pline, "%%%%PageMedia: %@s", sizeof(pagemedia), pagemedia)`. -/
def scanPageMedia (pagemedia pline : List Byte) : List Byte :=
  let arg := (pline.drop 12).dropWhile isspace
  if lmatch pline "%%PageMedia:" ∧ arg ≠ [] then (arg.takeWhile fun c => !isspace c).take 16
  else pagemedia

/-- Copy blank lines. -/
def blankLoop (env : Env) : ℕ → Text → Except Fatal (Option Line × Text)
  | 0, _ => .error .fuel
  | n + 1, t => do
    let (l, t) ← getLine env t
    match l with
    | none => .ok (none, t)
    | some l => if l.str = [] then blankLoop env n (t.send [newline]) else .ok (some l, t)

/-- The end of a page. -/
def Line.endsPage (l : Line) : Bool := lmatch l.str "%%Page:" || l.str = ascii "%%Trailer"

/-- Copy the rest of the page text. -/
def copyRest (env : Env) : ℕ → Option Line → Text → Except Fatal (Option Line × Text)
  | _, none, t => .ok (none, t)
  | 0, some _, _ => .error .fuel
  | n + 1, some l, t =>
    if t.level = 0 ∧ l.endsPage then .ok (some l, t)
    else do
      let (l', t) ← getLine env (t.send l.whole)
      copyRest env n l' t

/-- The code that selects the medium for a page. -/
def pageMedium (env : Env) (pagemedia : List Byte) : List Byte :=
  if 1 < env.mediaCount ∧ env.binselect ∧ (pagemedia ≠ [] ∨ env.defaultPagemedia ≠ []) then
    env.selectMedium (if pagemedia ≠ [] then pagemedia else env.defaultPagemedia)
  else []

/-- `copy_a_page()`; `comments` are the lines of the record in the "-pages" file. -/
def copyAPage (env : Env) (comments : List (List Byte)) (newnumber : ℕ) (t : Text) :
    Except Fatal (Option Line × Text) := do
  let (_, t) ← getLine env t
  let label := (tokenize t.line.str)[1]?.getD (ascii "?")
  let t := t.send (ascii "%%Page: " ++ label ++ [32] ++ decimal newnumber ++ [newline])
  let t := t.send (comments.flatMap fun c => c ++ [newline])
  let pagemedia := comments.foldl scanPageMedia []
  let (l, t) ← blankLoop env (t.file.length + 1) t
  -- only 15 of the 16 characters are compared
  let (l, t) ←
    if lmatch t.line.str "%%BeginPageSetu" then getLine env (t.send t.line.put) else .ok (l, t)
  let t := t.send (env.jobtimeout ++ pageMedium env pagemedia)
  copyRest env (t.file.length + 1) l t

end Ppr.Pprdrv
