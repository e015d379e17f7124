import Ppr.Libgu.Sscanf
import Ppr.Libgu.Strings

/-!
# Lines of PPD files

`ppd_find_file()` and the functions of a `PPDOBJ` of `readppd.c`.  What `ppdobj_readline()` returns
from call to call is one list; an exception ends it.
-/

namespace Ppr

/-- `MAX_PPD_NEST`. -/
def maxPpdNest : ℕ := 10

/-- `MAX_PPD_LINE`. -/
def maxPpdLine : ℕ := 256

/-- The files that are read.  What cannot be opened has "errno=%d (%s)" instead. -/
structure PpdFiles where
  ppdIndex : List Byte
  ppddir : List Byte
  fopen : List Byte → Except (List Byte) (List Byte)

/-- An exception, with its message. -/
structure Thrown where
  message : List Byte
  deriving DecidableEq

namespace PpdFiles

/-- The file that a line of the index has for a description. -/
def indexed (ppdname line : List Byte) : Option (List Byte) := do
  let (description, p) ← guStrsep (· = 58) (some line)
  let (filename, _) ← guStrsep (· = 58) p
  if description = ppdname then some filename else none

/-- `ppd_find_file()`. -/
def findFile (files : PpdFiles) (ppdname : List Byte) : Except Thrown (List Byte) :=
  if ppdname.head? = some 47 then .ok ppdname
  else
    match files.fopen files.ppdIndex with
    | .error e => .error ⟨ascii "can't open \"" ++ files.ppdIndex ++ ascii "\", " ++ e⟩
    | .ok index =>
      match ((rawLines index).map chop).findSome? (indexed ppdname) with
      | some filename => .ok filename
      | none => .ok (files.ppddir ++ ascii "/" ++ ppdname)

/-- The lines, and the exception at their end. -/
abbrev Delivered := List (List Byte) × Option Thrown

/-- More lines, if there was no exception before. -/
def Delivered.before (d more : Delivered) : Delivered :=
  match d.2 with
  | some e => (d.1, some e)
  | none => (d.1 ++ more.1, more.2)

/-- What `gzgets()` reads from call to call. -/
def pieces (text : List Byte) : List (List Byte) :=
  (rawLines text).flatMap (List.toChunks (maxPpdLine + 1))

/-- `ppdobj_readline()` on the pieces of a file; `included` delivers the lines of another. -/
def readLines (included : List Byte → Delivered) : List (List Byte) → Delivered
  | [] => ([], none)
  | piece :: rest =>
    if lmatch piece "*%" then readLines included rest
    else if chop piece = [] then readLines included rest
    else
      match lmatchp (chop piece) "*Include:" with
      | some p => (included (untilQuote (p.dropWhile (· = 34)))).before (readLines included rest)
      | none => Delivered.before ([chop piece], none) (readLines included rest)

/-- `ppdobj_open()` of a file that is included by another, with the levels that are left, and what
is read from it. -/
def included (files : PpdFiles) : ℕ → List Byte → List Byte → Delivered
  | 0, _, _ => ([], some ⟨ascii "PPD files nested too deeply (to 9 levels)"⟩)
  | n + 1, includer, ppdname =>
    if ppdname.head? ≠ some 47 ∧ 47 ∉ includer then
      ([], some ⟨ascii "ppdobj_open(): assertion failed\n"⟩)
    else
      let fname :=
        if ppdname.head? = some 47 then ppdname
        else includer.rdropWhile (· ≠ 47) ++ ppdname
      match files.fopen fname with
      | .error e =>
        ([], some ⟨ascii "can't open PPD file \"" ++ fname ++ ascii "\" (included from \"" ++
          includer ++ ascii "\"), " ++ e⟩)
      | .ok text => readLines (included files n fname) (pieces text)

/-- `ppdobj_new()`, and what is read then. -/
def ppdLines (files : PpdFiles) (ppdname : List Byte) : Except Thrown Delivered := do
  let fname ← files.findFile ppdname
  match files.fopen fname with
  | .error e => .error ⟨ascii "can't open PPD file \"" ++ fname ++ ascii "\", " ++ e⟩
  | .ok text => .ok (readLines (included files (maxPpdNest - 1) fname) (pieces text))

end PpdFiles

end Ppr
