import Mathlib.Data.List.DropRight
import Ppr.Libgu.Sscanf
import Ppr.Libgu.Strings
import Ppr.Libppr.Tokenize
import Ppr.Spool.Pages

/-!
# The things of a document

The table `things[]` of ppr: the resources of `ppr_res.c`, the requirements of `ppr_req.c` and the
media of `ppr_media.c`, with the flags that say where each was named, `pagelevel()` of
`ppr_dscdoc.c` and the routines that write what a page names.

Version numbers are floating point numbers, so their type is a parameter.  The bitmap of the things of
a page, the size of a medium and the warnings are left out.  `delete_requirement()` is called when
the pages have been read.
-/

namespace Ppr

/-- `gu_getdouble()` and `gu_dtostr()`. -/
structure Doubles (V : Type) where
  zero : V
  getdouble : List Byte → V
  dtostr : V → List Byte

/-- `struct Resource`. -/
structure DscResource (V : Type) where
  type : List Byte
  name : List Byte
  version : V
  revision : BitVec 32
  deriving DecidableEq

/-- What `th_type` and `th_ptr` of a thing say. -/
inductive Item (V : Type) where
  | resource (r : DscResource V)
  /-- By its name, padded. -/
  | media (medianame : List Byte)
  | requirement (name : List Byte)
  deriving DecidableEq

/-- `struct Thing`. -/
structure Thing (V : Type) where
  item : Item V
  flags : BitVec 32
  deriving DecidableEq

variable {V : Type}

/-- `REREF_PAGE`, `MREF_PAGE` or `REQ_PAGE`. -/
def Item.pageFlag : Item V → BitVec 32
  | .resource _ => 16
  | .media _ => 2
  | .requirement _ => 2

/-- `REQ_DELETED`. -/
def reqDeleted : BitVec 32 := 4

/-- The flag for the page is set. -/
def Thing.onPage (t : Thing V) : Bool := t.flags &&& t.item.pageFlag ≠ 0

/-- Clear the flag for the page. -/
def Thing.offPage (t : Thing V) : Thing V := { t with flags := t.flags &&& ~~~t.item.pageFlag }

/-! ## References -/

/-- Set flags of the first thing that is the item, which is added if there is none. -/
def refer [DecidableEq V] (flags : BitVec 32) (x : Item V) (things : List (Thing V)) :
    List (Thing V) :=
  match things.findIdx? fun t => t.item = x with
  | some i => things.modify i fun t => { t with flags := t.flags ||| flags }
  | none => things ++ [{ item := x, flags }]

/-- `MAX_MEDIANAME`. -/
def maxMedianameBytes : ℕ := 16

/-- `ASCIIZ_to_padded()` for the name of a medium. -/
def paddedName (name : List Byte) : List Byte :=
  (name.take maxMedianameBytes).rightpad maxMedianameBytes 32

/-- `padded_to_ASCIIZ()`. -/
def unpaddedName (medianame : List Byte) : List Byte := medianame.rdropWhile (· = 32)

/-- `media()` for a page: all the media of that name. -/
def mediaPage [DecidableEq V] (medianame : List Byte) (things : List (Thing V)) : List (Thing V) :=
  things.map fun t =>
    if t.item = .media medianame then { t with flags := t.flags ||| 2 } else t

/-- The other references to resources. -/
inductive ResourceRef where
  | needed
  | supplied
  | include
  | reallySupplied
  | unclear
  | removed
  | fixinclude

def ResourceRef.flags : ResourceRef → BitVec 32
  | .needed => 1
  | .supplied => 2
  | .include => 4
  | .reallySupplied => 8
  | .unclear => 32
  | .removed => 64
  | .fixinclude => 128

/-- A reference for the whole document, in the header or in the prolog. -/
inductive DocRef (V : Type) where
  | resource (reftype : ResourceRef) (r : DscResource V)
  | media (name : List Byte)
  | requirement (name : List Byte)

/-- `resource()`, `media()` and `requirement()` for the whole document. -/
def DocRef.note [DecidableEq V] (things : List (Thing V)) : DocRef V → List (Thing V)
  | .resource reftype r => refer reftype.flags (.resource r) things
  | .media name => things ++ [{ item := .media (paddedName name), flags := 1 }]
  | .requirement name => refer 1 (.requirement name) things

/-- A reference of a page. -/
def notePage [DecidableEq V] (things : List (Thing V)) : Item V → List (Thing V)
  | .media medianame => mediaPage medianame things
  | x => refer x.pageFlag x things

/-! ## The page level comments -/

/-- `tokens[first]` and the words after it as a resource, and how many of them were eaten. -/
def resourceOf (D : Doubles V) (type name : List Byte) (words : List (List Byte)) :
    DscResource V × ℕ :=
  if type = ascii "procset" then
    match words with
    | version :: words =>
      if version.all fun c => isdigit c || c = 46 then
        match words with
        | revision :: _ =>
          if revision.all isdigit then
            (⟨type, name, D.getdouble version, BitVec.ofInt 32 (atoi revision)⟩, 3)
          else (⟨type, name, D.getdouble version, 0⟩, 2)
        | [] => (⟨type, name, D.getdouble version, 0⟩, 2)
      else (⟨type, name, D.zero, 0⟩, 1)
    | [] => (⟨type, name, D.zero, 0⟩, 1)
  else (⟨type, name, D.zero, 0⟩, 1)

/-- The loop over `resource()`; `eaten` words belong to the resource before. -/
def resourceLoop (D : Doubles V) (type : List Byte) : ℕ → List (List Byte) → List (DscResource V)
  | _, [] => []
  | eaten + 1, _ :: words => resourceLoop D type eaten words
  | 0, name :: words =>
    let (r, rval) := resourceOf D type name words
    r :: resourceLoop D type (rval - 1) words

/-- The name under which `requirement()` notes a requirement, if it does. -/
def requirementName (name : List Byte) : Option (List Byte) :=
  let name :=
    match guSscanf (scanFormat "punch%d") name with
    | [x] =>
      let x := (x.number 32).toInt
      if x < 10 then (ascii "punch(" ++ decimalInt x ++ ascii ")").take 8 else name
    | _ => name
  if name = ascii "collate" ∨ lmatch name "numcopies(" then none else some name

/-- What `pagelevel()` does with a comment. -/
inductive PageLevel (V : Type) where
  /-- It returns 0. -/
  | other
  /-- It notes what the comment names. -/
  | notes (items : List (Item V))
  /-- It reads from a null pointer. -/
  | crash
  deriving DecidableEq

/-- The comments that `pagelevel()` is about. -/
def pagelevel (D : Doubles V) (line : List Byte) : PageLevel V :=
  let tokens := tokenize line
  let key := tokens.head?
  let c := (line.drop 6).head?
  if lmatch line "%%Page" then
    if c = some 82 ∧ key = some (ascii "%%PageResources:") then
      match tokens[1]? with
      | some type => .notes ((resourceLoop D type 0 (tokens.drop 2)).map .resource)
      | none => .notes []
    else if c = some 82 ∧ key = some (ascii "%%PageRequirements:") then
      .notes (((tokens.drop 1).filterMap requirementName).map .requirement)
    else if c = some 70 ∧ key = some (ascii "%%PageFonts:") then
      .notes ((resourceLoop D (ascii "font") 0 (tokens.drop 1)).map .resource)
    else if c = some 70 ∧ key = some (ascii "%%PageFiles:") then
      .notes ((resourceLoop D (ascii "file") 0 (tokens.drop 1)).map .resource)
    else if c = some 77 ∧ key = some (ascii "%%PageMedia:") then
      match tokens[1]? with
      | some name => .notes [.media (paddedName name)]
      | none => .crash
    else .other
  else .other

/-! ## What is written for a page -/

def Item.isResource : Item V → Bool
  | .resource _ => true
  | _ => false

def Item.isMedia : Item V → Bool
  | .media _ => true
  | _ => false

def Item.isRequirement : Item V → Bool
  | .requirement _ => true
  | _ => false

/-- The test of `dump_page_resources()`. -/
def Thing.pageResource (t : Thing V) : Bool := t.item.isResource && t.onPage

/-- The test of `dump_page_requirements()`. -/
def Thing.pageRequirement (t : Thing V) : Bool :=
  t.item.isRequirement && (t.flags &&& reqDeleted = 0) && t.onPage

/-- The test of `dump_page_media()`. -/
def Thing.pageMedium (t : Thing V) : Bool := t.item.isMedia && t.onPage

/-- The things with the property, and the table with the flags of these cleared. -/
def dumpAll (p : Thing V → Bool) (things : List (Thing V)) : List (Item V) × List (Thing V) :=
  ((things.filter p).map Thing.item, things.map fun t => if p t then t.offPage else t)

/-- `dump_page_resources()`. -/
def dumpPageResources (things : List (Thing V)) : List (Item V) × List (Thing V) :=
  dumpAll Thing.pageResource things

/-- `dump_page_requirements()`. -/
def dumpPageRequirements (things : List (Thing V)) : List (Item V) × List (Thing V) :=
  dumpAll Thing.pageRequirement things

/-- `dump_page_media()`: the loop ends at the first one. -/
def dumpPageMedia (things : List (Thing V)) : List (Item V) × List (Thing V) :=
  match things.findIdx? Thing.pageMedium with
  | some i => ((things[i]?.map Thing.item).toList, things.modify i Thing.offPage)
  | none => ([], things)

/-- `quote()`. -/
def quote (s : List Byte) : List Byte :=
  if s.any isBlank ∨ s.all isdigit then (ascii "(" ++ s ++ ascii ")").take 255 else s

/-- How an item is written. -/
def Item.text (D : Doubles V) : Item V → List Byte
  | .resource r =>
    r.type ++ ascii " " ++ quote r.name ++
      if r.type = ascii "procset" then
        ascii " " ++ D.dtostr r.version ++ ascii " " ++ decimalInt r.revision.toInt
      else []
  | .media medianame => unpaddedName medianame
  | .requirement name => name

/-- The lines of one comment, with continuation lines. -/
def commentLines (key : String) : List (List Byte) → List (List Byte)
  | [] => []
  | w :: ws => (ascii key ++ w) :: ws.map (ascii "+ " ++ ·)

/-- The table of things, and what was written for each page so far. -/
structure Notes (V : Type) where
  things : List (Thing V)
  written : List (List (Item V))

/-- `end_of_page_processing()`, but for the empty line. -/
def Notes.dump (D : Doubles V) (n : Notes V) : List (List Byte) × Notes V :=
  let (resources, things) := dumpPageResources n.things
  let (requirements, things) := dumpPageRequirements things
  let (media, things) := dumpPageMedia things
  (commentLines "PageResources: " (resources.map (Item.text D)) ++
      commentLines "PageRequirements: " (requirements.map (Item.text D)) ++
      commentLines "PageMedia: " (media.map (Item.text D)),
    { things, written := n.written ++ [resources ++ requirements ++ media] })

/-- The table in use; there is none after a crash. -/
def pageThings [DecidableEq V] (D : Doubles V) : PageThings (Option (Notes V)) where
  atend line := (tokenize line)[1]? = some (ascii "atend")
  pagelevel line s :=
    match pagelevel D line with
    | .other => (true, s)
    | .notes items => (false, s.map fun n => { n with things := items.foldl notePage n.things })
    | .crash => (false, none)
  prepare := id
  dump s :=
    match s with
    | some n => ((n.dump D).1, some (n.dump D).2)
    | none => ([], none)

/-- A line with the references to resources that `getline_simplify()` noted before it left it. -/
structure RefLine (V : Type) where
  refs : List (ResourceRef × DscResource V)
  line : DscLine

/-- `resource()` for each of the references. -/
def Notes.refer [DecidableEq V] (n : Notes V) (refs : List (ResourceRef × DscResource V)) : Notes V :=
  { n with things := refs.foldl (fun things r => Ppr.refer r.1.flags (.resource r.2) things) n.things }

/-- `read_pages()`, with the references that `getline_simplify()` notes between its rounds. -/
def readPagesRefs [DecidableEq V] (D : Doubles V) :
    List (RefLine V) → Spool (Option (Notes V)) → Spool (Option (Notes V))
  | [], s => readPages (pageThings D) [] s
  | l :: lines, s =>
    let s := s.noting (s.things.map fun n => n.refer l.refs)
    let f := fate (pageThings D) (s.pageheader || s.pagetrailer) l.line s.things
    if f.1 = .stop then readPages (pageThings D) [l.line] s
    else readPagesRefs D lines (readPagesLine (pageThings D) (s.noting f.2) l.line f.1)

/-- The spool files and the table when the pages have been read. -/
def readDocument [DecidableEq V] (D : Doubles V) (header : List (DocRef V)) (pages text : List Byte)
    (lines : List (RefLine V)) : Spool (Option (Notes V)) :=
  readPagesRefs D lines
    (Spool.start pages text (some { things := header.foldl DocRef.note [], written := [] }))

/-- Without such references it is `read_pages()`. -/
theorem readPagesRefs_of_none [DecidableEq V] (D : Doubles V) (lines : List DscLine)
    (s : Spool (Option (Notes V))) :
    readPagesRefs D (lines.map fun l => { refs := [], line := l }) s =
      readPages (pageThings D) lines s := by
  induction lines generalizing s with
  | nil => rfl
  | cons l lines ih =>
    have hnone : s.noting (s.things.map fun n => n.refer []) = s := by
      have hrefer : (fun n : Notes V => n.refer []) = id := rfl
      rw [hrefer, Option.map_id]
      rfl
    rw [List.map_cons, readPagesRefs]
    dsimp only
    rw [hnone]
    by_cases h : (fate (pageThings D) (s.pageheader || s.pagetrailer) l s.things).1 = .stop
    · rw [if_pos h]
      simp only [readPages, h, if_true]
    · rw [if_neg h, ih, readPages]
      simp only [h, if_false]

end Ppr
