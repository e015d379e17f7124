import Mathlib.Logic.Function.Basic
import Ppr.Spool.Things

/-!
# Comments that may be deferred

`header_trailer()` of `ppr_dscdoc.c` for the comments whose value may be put off to the trailer with
"(atend)", `resource_clear()` of `ppr_res.c`, and what `getline_simplify()` of `ppr_simplify.c` does with
continuation lines and the numbers of comments.  The warnings are left out, and so are the comments that
`header_trailer()` takes for other purposes: they do not change what is kept here.
-/

namespace Ppr

/-! ## The comments -/

/-- The comments that list resources. -/
inductive ListComment where
  | documentFonts
  | documentProcSets
  | documentNeededResources
  | documentNeededFiles
  | documentNeededFonts
  | documentNeededProcSets
  | documentSuppliedResources
  | documentSuppliedFiles
  | documentSuppliedFonts
  | documentSuppliedProcSets
  deriving DecidableEq

def ListComment.key : ListComment → String
  | .documentFonts => "%%DocumentFonts:"
  | .documentProcSets => "%%DocumentProcSets:"
  | .documentNeededResources => "%%DocumentNeededResources:"
  | .documentNeededFiles => "%%DocumentNeededFiles:"
  | .documentNeededFonts => "%%DocumentNeededFonts:"
  | .documentNeededProcSets => "%%DocumentNeededProcSets:"
  | .documentSuppliedResources => "%%DocumentSuppliedResources:"
  | .documentSuppliedFiles => "%%DocumentSuppliedFiles:"
  | .documentSuppliedFonts => "%%DocumentSuppliedFonts:"
  | .documentSuppliedProcSets => "%%DocumentSuppliedProcSets:"

/-- The reference that the comment makes. -/
def ListComment.reftype : ListComment → ResourceRef
  | .documentFonts | .documentProcSets => .unclear
  | .documentNeededResources | .documentNeededFiles | .documentNeededFonts | .documentNeededProcSets => .needed
  | .documentSuppliedResources | .documentSuppliedFiles | .documentSuppliedFonts
  | .documentSuppliedProcSets => .supplied

/-- The type of the resources, if the comment does not give it. -/
def ListComment.restype : ListComment → Option (List Byte)
  | .documentNeededResources | .documentSuppliedResources => none
  | .documentFonts | .documentNeededFonts | .documentSuppliedFonts => some (ascii "font")
  | .documentProcSets | .documentNeededProcSets | .documentSuppliedProcSets => some (ascii "procset")
  | .documentNeededFiles | .documentSuppliedFiles => some (ascii "file")

/-- The comments that may be deferred. -/
inductive Deferrable where
  | pages
  | pageOrder
  | orientation
  | list (c : ListComment)
  deriving DecidableEq

def Deferrable.key : Deferrable → String
  | .pages => "%%Pages:"
  | .pageOrder => "%%PageOrder:"
  | .orientation => "%%Orientation:"
  | .list c => c.key

def deferrables : List Deferrable :=
  [.pages, .pageOrder, .orientation, .list .documentFonts, .list .documentProcSets,
    .list .documentNeededResources, .list .documentNeededFiles, .list .documentNeededFonts,
    .list .documentNeededProcSets, .list .documentSuppliedResources, .list .documentSuppliedFiles,
    .list .documentSuppliedFonts, .list .documentSuppliedProcSets]

def deferrableOf (keyword : List Byte) : Option Deferrable :=
  deferrables.find? fun k => keyword = ascii k.key

/-! ## Lines -/

/-- A line with its `dsc_comment_number`. -/
structure HeaderLine where
  number : ℕ
  line : List Byte

/-- What `getline_simplify()` remembers of the last comment. -/
structure Simplifier where
  lastDSC : List Byte
  overflow : Bool
  number : ℕ

/-- `MAX_CONT`. -/
def maxCont : ℕ := 32

def isupper (c : Byte) : Bool := 65 ≤ c.toNat && c.toNat ≤ 90

/-- The keyword of a comment, and whether it is too long to be continued. -/
def continuationKey (text : List Byte) : List Byte × Bool :=
  let len := (text.takeWhile (!isBlank ·)).length
  let colonpos := (text.takeWhile (· ≠ 58)).length
  let len := if len - colonpos > 1 then colonpos + 1 else len
  (text.take (min len maxCont), len > maxCont)

/-- `simplify_continuation()`. -/
def simplifyContinuation (st : Simplifier) (line : List Byte) : List Byte :=
  if st.lastDSC = [] ∨ st.overflow = true then line
  else ascii "%%" ++ st.lastDSC ++ 32 :: (line.drop 3).dropWhile isspace

/-- A comment without the blanks at its end, as a C string. -/
def commentText (line : List Byte) : List Byte := cstr (chop line)

/-- `getline_simplify()`: a line, and what is remembered for the next. -/
def simplifyLine (st : Simplifier) (line : List Byte) : Simplifier × HeaderLine :=
  if line.head? ≠ some 37 then ({ st with lastDSC := [] }, ⟨st.number, line⟩)
  else if (chop line).length > maxTokenized then (st, ⟨st.number, chop line⟩)
  else
    match (commentText line).drop 1 with
    | 33 :: _ => ({ st with lastDSC := [] }, ⟨st.number, commentText line⟩)
    | 37 :: text =>
      if text.head?.any isupper then
        (⟨(continuationKey text).1, (continuationKey text).2, st.number + 1⟩,
          ⟨st.number + 1, commentText line⟩)
      else if text.head? = some 43 then (st, ⟨st.number, simplifyContinuation st (commentText line)⟩)
      else ({ st with lastDSC := [] }, ⟨st.number, commentText line⟩)
    | _ => (st, ⟨st.number, commentText line⟩)

/-- The lines of a section, and what is remembered after it. -/
def simplifyLines (st : Simplifier) : List (List Byte) → List HeaderLine × Simplifier
  | [] => ([], st)
  | line :: lines =>
    let r := simplifyLines (simplifyLine st line).1 lines
    ((simplifyLine st line).2 :: r.1, r.2)

/-- A line with one of the comments. -/
structure KeyLine where
  number : ℕ
  line : List Byte
  /-- The words behind the keyword. -/
  args : List (List Byte)
  deriving DecidableEq

/-- The comment that a line is. -/
def keyLine (l : HeaderLine) : Option (Deferrable × KeyLine) :=
  match tokenize l.line with
  | [] => none
  | keyword :: args => (deferrableOf keyword).map fun k => (k, ⟨l.number, l.line, args⟩)

/-! ## "(atend)" -/

/-- The flags `ATEND_KEYWORD_SEEN`, `ATEND_DEFERED` and `ATEND_WAS_DEFERED`. -/
structure AtendFlags where
  seen : Bool
  deferred : Bool
  wasDeferred : Bool

/-- `ATEND_CLEAR`. -/
def atendClear : AtendFlags := ⟨false, false, false⟩

/-- The only argument is "(atend)"; a second argument of "%%Pages:" is overlooked. -/
def isAtend (k : Deferrable) (args : List (List Byte)) : Bool :=
  args.head? = some (ascii "atend") && (k = .pages || args.length = 1)

/-- `handle_atend()`: the flags, and whether the comment is to be ignored. -/
def handleAtend (k : Deferrable) (flags : AtendFlags) (args : List (List Byte)) (trailer : Bool) :
    AtendFlags × Bool :=
  if isAtend k args then
    (if trailer then { flags with seen := true }
      -- Only the first instance is valid.
      else if flags.seen then { flags with wasDeferred := true }
      else { flags with seen := true, deferred := true }, true)
  else ({ flags with seen := true }, if trailer then !flags.deferred else flags.deferred)

/-- `trap_noarg()` or `trap_nolist()`, and `handle_atend()`: the comment that is to be read, and the
flags. -/
def heed (trailer : Bool) (atend : Deferrable → AtendFlags) (l : HeaderLine) :
    Option (Deferrable × KeyLine) × (Deferrable → AtendFlags) :=
  match keyLine l with
  | none => (none, atend)
  | some (k, kl) =>
    if kl.args = [] then (none, atend)
    else
      (if (handleAtend k (atend k) kl.args trailer).2 then none else some (k, kl),
        Function.update atend k (handleAtend k (atend k) kl.args trailer).1)

/-! ## The values -/

inductive Orientation where
  | unknown
  | portrait
  | landscape
  deriving DecidableEq

/-- What the comments say. -/
structure DscValues (V : Type) where
  pages : BitVec 32
  pageorder : BitVec 32
  orientation : Orientation
  /-- `found_DocumentFonts` and so on. -/
  found : ListComment → ℕ
  things : List (Thing V)

variable {V : Type}

/-- "%%Pages: %d %d". -/
def pagesNumbers (line : List Byte) : List Extracted := guSscanf (scanFormat "Pages: %d %d") (line.drop 2)

def pageOrderOf (word : List Byte) : Option (BitVec 32) :=
  if word = ascii "Ascend" then some 1
  else if word = ascii "Descend" then some (-1)
  else if word = ascii "Special" then some 0
  else if word = ascii "Ascending" then some 1
  else if word = ascii "Descending" then some (-1)
  else none

def orientationOf (word : List Byte) : Option Orientation :=
  if word = ascii "Portrait" then some .portrait
  else if word = ascii "Landscape" then some .landscape
  else none

/-- The resources that a line of a list names. -/
def entriesOf (D : Doubles V) (c : ListComment) (args : List (List Byte)) : List (DscResource V) :=
  match c.restype, args with
  | some type, args => resourceLoop D type 0 args
  | none, type :: names => resourceLoop D type 0 names
  | none, [] => []

/-- Whether `resource_clear()` for the comment is about resources of a type. -/
def ListComment.covers (c : ListComment) (type : List Byte) : Bool := c.restype.all (· = type)

/-- `resource_clear()` for one entry of `things[]`. -/
def clearThing (c : ListComment) (t : Thing V) : Thing V :=
  match t.item with
  | .resource r => if c.covers r.type then { t with flags := t.flags &&& ~~~c.reftype.flags } else t
  | _ => t

/-- `resource_clear()`. -/
def resourceClear (c : ListComment) (things : List (Thing V)) : List (Thing V) := things.map (clearThing c)

/-- A list: `handle_superseded()` and the calls of `resource()`. -/
def readList [DecidableEq V] (D : Doubles V) (trailer : Bool) (v : DscValues V) (c : ListComment)
    (l : KeyLine) : DscValues V :=
  if trailer = true ∨ v.found c = 0 ∨ l.number = v.found c then
    let things :=
      if trailer = true ∧ v.found c ≠ 0 ∧ v.found c ≠ l.number then resourceClear c v.things else v.things
    { v with
      found := Function.update v.found c l.number
      things := (entriesOf D c l.args).foldl (fun things r => refer c.reftype.flags (.resource r) things) things }
  else v

/-- "%%Pages:", perhaps with a page order. -/
def readPageCount (trailer : Bool) (v : DscValues V) (l : KeyLine) : DscValues V :=
  if trailer = true ∨ v.pages = -1 then
    match pagesNumbers l.line with
    | [] => v
    | n :: order =>
      { v with
        pages := n.number 32
        pageorder := (order.head?.map (Extracted.number 32)).getD v.pageorder }
  else v

/-- "%%PageOrder:". -/
def readPageOrder (v : DscValues V) (l : KeyLine) : DscValues V :=
  { v with pageorder := (l.args.head?.bind pageOrderOf).getD v.pageorder }

/-- "%%Orientation:". -/
def readOrientation (trailer : Bool) (v : DscValues V) (l : KeyLine) : DscValues V :=
  if trailer = true ∨ v.orientation = .unknown then
    { v with orientation := (l.args.head?.bind orientationOf).getD v.orientation }
  else v

/-- A comment that is not ignored. -/
def readComment [DecidableEq V] (D : Doubles V) (trailer : Bool) (v : DscValues V)
    (x : Deferrable × KeyLine) : DscValues V :=
  match x.1 with
  | .pages => readPageCount trailer v x.2
  | .pageOrder => readPageOrder v x.2
  | .orientation => readOrientation trailer v x.2
  | .list c => readList D trailer v c x.2

/-- The flags and the values. -/
structure DscState (V : Type) where
  atend : Deferrable → AtendFlags
  values : DscValues V

/-- `header_trailer()`. -/
def headerTrailer [DecidableEq V] (D : Doubles V) (trailer : Bool) (s : DscState V) (l : HeaderLine) :
    DscState V where
  atend := (heed trailer s.atend l).2
  values := (heed trailer s.atend l).1.elim s.values (readComment D trailer s.values)

/-! ## A document -/

/-- The references that are made between the header and the trailer. -/
inductive BodyRef where
  | include
  | reallySupplied
  | page
  | removed

def BodyRef.flags : BodyRef → BitVec 32
  | .include => 4
  | .reallySupplied => 8
  | .page => 16
  | .removed => 64

/-- The lines of a document, and the references to resources that are made between the header and the
trailer. -/
structure DscText (V : Type) where
  header : List (List Byte)
  body : List (List Byte)
  refs : List (BodyRef × DscResource V)
  trailer : List (List Byte)

/-- Before the first line. -/
def simplifierStart : Simplifier := ⟨[], false, 0⟩

/-- A line that `header_trailer()` is called for. -/
def HeaderLine.isComment (l : HeaderLine) : Bool :=
  l.line.take 2 = ascii "%%" && l.line.length ≤ maxTokenized

/-- The lines of the header, which a long line ends. -/
def DscText.headerLines (d : DscText V) : List HeaderLine :=
  ((simplifyLines simplifierStart d.header).1.takeWhile fun l => l.line.length ≤ maxTokenized).filter
    HeaderLine.isComment

/-- The lines behind "%%Trailer". -/
def DscText.trailerLines (d : DscText V) : List HeaderLine :=
  (simplifyLines (simplifyLines simplifierStart (d.header ++ d.body ++ [ascii "%%Trailer"])).2
    d.trailer).1.filter HeaderLine.isComment

/-- Before the header. -/
def dscStart : DscState V where
  atend := fun _ => atendClear
  values := ⟨-1, 1, .unknown, fun _ => 0, []⟩

/-- `read_header_comments()`. -/
def readHeader [DecidableEq V] (D : Doubles V) (ls : List HeaderLine) : DscState V :=
  ls.foldl (headerTrailer D false) dscStart

/-- The calls of `resource()` in between. -/
def readBody [DecidableEq V] (refs : List (BodyRef × DscResource V)) (s : DscState V) : DscState V :=
  { s with values := { s.values with
    things := refs.foldl (fun things x => refer x.1.flags (.resource x.2) things) s.values.things } }

/-- The header, the body and `read_trailer()`. -/
def readDsc [DecidableEq V] (D : Doubles V) (d : DscText V) : DscState V :=
  d.trailerLines.foldl (headerTrailer D true) (readBody d.refs (readHeader D d.headerLines))

end Ppr
