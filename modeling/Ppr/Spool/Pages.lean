import Ppr.Lib.Ascii

/-!
# The -pages file

`read_pages()` of `ppr_dscdoc.c` writes the "-pages" and "-text" files of a job;
`make_pagetable()` and the comment loop of `copy_a_page()` of `pprdrv.c` read the "-pages" file
back, with a shorter line buffer.  The lines come from `getline_simplify()`.

The words of a line, and the resources, requirements and media of a page, are kept by other parts of
ppr; `PageThings` stands for them.  `Spool.log` and `Spool.stray` are no variables of the program:
they note what was written to the "-pages" file.
-/

namespace Ppr

/-- `lmatch()`, `strncmp()` with the length of its second argument. -/
def lmatch (l : List Byte) (s : String) : Bool := (ascii s).isPrefixOf l

/-! ## The writer -/

/-- Longest line that is taken for a DSC comment. -/
def maxTokenized : ℕ := 512

/-- A line as `getline_simplify()` leaves it. -/
structure DscLine where
  /-- The `line_len` bytes in `line[]`. -/
  line : List Byte
  overflow : Bool
  /-- `nest_level()` is not 0. -/
  nested : Bool

/-- The things noted for a page. -/
structure PageThings (σ : Type) where
  /-- The second word of the line is "atend". -/
  atend : List Byte → Bool
  /-- `pagelevel()`: whether it returns 0. -/
  pagelevel : List Byte → σ → Bool × σ
  /-- `prepare_thing_bitmap()`. -/
  prepare : σ → σ
  /-- What `dump_page_resources()`, `dump_page_requirements()` and `dump_page_media()` write, each
  line after its "%%". -/
  dump : σ → List (List Byte) × σ

/-- A page as it was written: its "%%Page:" line, the offset of that line in "-text" and the
page-level comments. -/
structure PageRec where
  line : List Byte
  offset : ℕ
  comments : List (List Byte)

/-- The files and the variables of `read_pages()`. -/
structure Spool (σ : Type) where
  pages : List Byte
  text : List Byte
  pagenumber : ℕ
  pageheader : Bool
  pagetrailer : Bool
  things : σ
  /-- The page-level comments before the first page. -/
  stray : List (List Byte)
  /-- The pages so far. -/
  log : List PageRec

variable {σ : Type} (T : PageThings σ)

/-- `fprintf(page_comments, "%s\n", line)`. -/
def Spool.comment (s : Spool σ) (c : List Byte) : Spool σ :=
  { s with
    pages := s.pages ++ (c ++ [newline])
    stray := if s.log = [] then s.stray ++ [c] else s.stray
    log := s.log.modify (s.log.length - 1) fun r => { r with comments := r.comments ++ [c] } }

/-- `fprintf(text, "%s\n", line)`. -/
def Spool.toText (s : Spool σ) (c : List Byte) : Spool σ :=
  { s with text := s.text ++ (c ++ [newline]) }

/-- Change the things noted. -/
def Spool.noting (s : Spool σ) (things : σ) : Spool σ := { s with things := things }

/-- `end_of_page_processing()`. -/
def endOfPageProcessing (s : Spool σ) : Spool σ :=
  let d := T.dump s.things
  let s := d.1.foldl (fun s c => s.comment (ascii "%%" ++ cstr c)) (s.noting d.2)
  { s with pages := s.pages ++ [newline] }

/-- What `read_pages()` does with a line. -/
inductive Fate where
  /-- "%%Page:". -/
  | page
  /-- "%%BeginPageSetup". -/
  | setup
  /-- "%%Trailer" or "%%EOF". -/
  | stop
  /-- "%%PageTrailer". -/
  | trailer
  /-- Noted elsewhere, or "(atend)". -/
  | skip
  /-- A page-level comment in the header or the trailer of the page. -/
  | comment
  /-- A comment in the body of the page. -/
  | text
  /-- Not a DSC comment. -/
  | body
  deriving DecidableEq

/-- The tests of `read_pages()`; `atEdge` is `pageheader || pagetrailer`. -/
def fate (atEdge : Bool) (l : DscLine) (things : σ) : Fate × σ :=
  let c := cstr l.line
  if lmatch c "%%" ∧ l.nested = false ∧ l.line.length ≤ maxTokenized then
    if lmatch c "%%Page:" then (.page, things)
    else if c = ascii "%%BeginPageSetup" then (.setup, things)
    else if c = ascii "%%Trailer" ∨ c = ascii "%%EOF" then (.stop, things)
    else if c = ascii "%%PageTrailer" then (.trailer, things)
    else if T.atend c then (.skip, things)
    else
      let r := T.pagelevel c things
      (if r.1 = false then .skip else if atEdge then .comment else .text, r.2)
  else (.body, things)

/-- The start of a page: what `read_pages()` does at a "%%Page:" line. -/
def startPage (s : Spool σ) (c : List Byte) : Spool σ :=
  let s := if 0 < s.pagenumber then endOfPageProcessing T s else s
  { s with
    pages := s.pages ++ (c ++ [newline]) ++ (ascii "Offset: " ++ decimal s.text.length ++ [newline])
    text := s.text ++ (c ++ [newline])
    pagenumber := s.pagenumber + 1
    pageheader := true
    pagetrailer := false
    things := T.prepare s.things
    log := s.log ++ [{ line := c, offset := s.text.length, comments := [] }] }

/-- One round of `read_pages()`, but for the end. -/
def readPagesLine (s : Spool σ) (l : DscLine) : Fate → Spool σ
  | .page => startPage T s (cstr l.line)
  | .setup => { s.toText (cstr l.line) with pageheader := false }
  | .trailer => { s.toText (cstr l.line) with pagetrailer := true }
  | .comment => s.comment (cstr l.line)
  | .text => s.toText (cstr l.line)
  | .body =>
    { s with
      pageheader := false
      text := s.text ++ (l.line ++ if l.overflow then [] else [newline]) }
  | .skip | .stop => s

/-- `read_pages()`. -/
def readPages : List DscLine → Spool σ → Spool σ
  | [], s => if 0 < s.pagenumber then endOfPageProcessing T s else s
  | l :: lines, s =>
    let f := fate T (s.pageheader || s.pagetrailer) l s.things
    let s := s.noting f.2
    if f.1 = .stop then if 0 < s.pagenumber then endOfPageProcessing T s else s
    else readPages lines (readPagesLine T s l f.1)

/-- The record of the trailer in the "-pages" file. -/
def trailerRecord (text : List Byte) : List Byte :=
  ascii "%%Trailer" ++ [newline] ++ (ascii "Offset: " ++ decimal text.length ++ [newline])

/-- The files before the pages: the defaults section and the text of the prolog and setup. -/
def Spool.start (pages text : List Byte) (things : σ) : Spool σ :=
  { pages, text, pagenumber := 0, pageheader := true, pagetrailer := false, things, stray := [],
    log := [] }

/-! ## The reader -/

/-- Size of `pline[]`. -/
def plineSize : ℕ := 256

/-- `fgets()` of at most `n` characters. -/
def fgets : ℕ → List Byte → List Byte
  | 0, _ => []
  | _ + 1, [] => []
  | n + 1, c :: rest => if c = newline then [c] else c :: fgets n rest

/-- `getpline()` at a position of the "-pages" file: the line and the position after it.  The last
character is removed, whether it is a linefeed or not. -/
def getpline (file : List Byte) (pos : ℕ) : Option (List Byte × ℕ) :=
  let got := fgets (plineSize - 1) (file.drop pos)
  if got = [] then none else some ((cstr got).dropLast, pos + got.length)

/-- The conversion "%ld" of `gu_sscanf()`. -/
def scanLong (l : List Byte) : Option ℤ :=
  let r := if l.head? = some 45 then l.tail else l
  let digits := r.takeWhile isdigit
  if digits = [] then none
  else some (if l.head? = some 45 then -(digitsValue digits : ℤ) else digitsValue digits)

/-- `gu_sscanf(pline, "Offset: %ld", &temp_offset)`. -/
def scanOffset (l : List Byte) : Option ℤ :=
  if lmatch l "Offset:" then scanLong ((l.drop 7).dropWhile isspace) else none

/-- `struct PAGETABLE`. -/
structure PageEntry where
  pagesOffset : ℕ
  textOffset : ℤ
  deriving DecidableEq

/-- "bad job". -/
inductive BadJob where
  | eofForPage | notPage | eofForOffset | notOffset | overflow | eofInPage | assertion
  deriving DecidableEq

/-- Read up to the next blank line; each call of `getpline()` takes one of the file's bytes at
least. -/
def skipRecord (file : List Byte) : ℕ → ℕ → Except BadJob ℕ
  | 0, _ => .error .eofInPage
  | n + 1, pos =>
    match getpline file pos with
    | none => .error .eofInPage
    | some (l, pos) => if l = [] then .ok pos else skipRecord file n pos

/-- The "%%Page:" and "Offset:" lines of a record. -/
def readPageHead (file : List Byte) (pos : ℕ) : Except BadJob PageEntry :=
  match getpline file pos with
  | none => .error .eofForPage
  | some (l, pos) =>
    if lmatch l "%%Page:" = false then .error .notPage
    else match getpline file pos with
      | none => .error .eofForOffset
      | some (l, pos) =>
        match scanOffset l with
        | none => .error .notOffset
        | some offset => .ok { pagesOffset := pos, textOffset := offset }

/-- The loop of `make_pagetable()` over the page numbers in file order, with the table so far. -/
def pagetableLoop (file : List Byte) (select : ℕ → Bool) (printedPages : ℕ) :
    List ℕ → List PageEntry → ℕ → Except BadJob (List PageEntry × ℕ)
  | [], table, pos => .ok (table, pos)
  | page :: pages, table, pos => do
    let e ← readPageHead file pos
    let table ←
      (if select page then
        if printedPages ≤ table.length then .error .overflow else .ok (table ++ [e])
      else .ok table : Except BadJob (List PageEntry))
    let pos ← skipRecord file (file.length + 1) e.pagesOffset
    pagetableLoop file select printedPages pages table pos

/-- The page numbers in the order of the file. -/
def fileOrder (descend : Bool) (pages : ℕ) : List ℕ :=
  let l := (List.range pages).map (· + 1)
  if descend then l.reverse else l

/-- `make_pagetable()`, with the position it leaves; `select` is the page mask. -/
def makePagetable (file : List Byte) (pos : ℕ) (pages : ℕ) (descend : Bool) (select : ℕ → Bool) :
    Except BadJob (List PageEntry × ℕ) :=
  if pages = 0 then .ok ([], pos)
  else do
    let printedPages := (fileOrder descend pages).countP select
    let r ← pagetableLoop file select printedPages (fileOrder descend pages) [] pos
    if r.1.length ≠ printedPages then .error .assertion else .ok r

/-- The lines that `copy_a_page()` copies from the "-pages" file. -/
def copyPageComments (file : List Byte) : ℕ → ℕ → List (List Byte)
  | 0, _ => []
  | n + 1, pos =>
    match getpline file pos with
    | none => []
    | some (l, pos) => if l = [] then [] else l :: copyPageComments file n pos

end Ppr
