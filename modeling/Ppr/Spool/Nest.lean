import Ppr.Spool.Deferred

/-!
# Nested structures

`ppr_nest.c`, `old_DSC_to_new()` of `ppr_old2new.c`, and what `getline_simplify()` of `ppr_simplify.c` does with
a line: the documents and resources within a document are counted, and comments of earlier versions of the
conventions are rewritten.  The warnings are left out, but for the one of `nest_pop()`.
-/

namespace Ppr

/-! ## The levels -/

/-- What is on `nest_stack[]`. -/
inductive NestType where
  | res
  | doc
  | badEps
  | badRes
  deriving DecidableEq

/-- Why ppr gives up. -/
inductive NestError where
  /-- `nest_pop()`: stack underflow. -/
  | underflow
  /-- `tokenize()`: line too long. -/
  | tooLong
  deriving DecidableEq

/-- A line, and the levels after it. -/
structure NestLine where
  line : List Byte
  stack : List NestType
  /-- `nest_pop()` has warned about bad nesting, and ignored the line. -/
  ignored : Bool

def NestLine.push (r : NestLine) (leveltype : NestType) : NestLine := { r with stack := leveltype :: r.stack }

/-- `nest_pop()`. -/
def NestLine.pop (r : NestLine) (leveltype : NestType) : Except NestError NestLine :=
  match r.stack with
  | [] => .error .underflow
  | level :: stack => .ok (if leveltype = level then { r with stack } else { r with ignored := true })

/-! ## Old comments -/

/-- The comments that `old_DSC_to_new()` knows. -/
inductive OldComment where
  | beginBinary
  | beginFile
  | beginFont
  | beginProcSet
  | beginDocumentSetup
  | beginPaperSize
  | endBinary
  | endProcSetColon
  | endProcset
  | endFile
  | endFont
  | endProcSet
  | endDocumentSetup
  | executeFile
  | endPaperSize
  | feature
  | includeFont
  | includeFile
  | includeProcSet
  deriving DecidableEq

def OldComment.key : OldComment → String
  | .beginBinary => "%%BeginBinary:"
  | .beginFile => "%%BeginFile:"
  | .beginFont => "%%BeginFont:"
  | .beginProcSet => "%%BeginProcSet:"
  | .beginDocumentSetup => "%%BeginDocumentSetup"
  | .beginPaperSize => "%%BeginPaperSize:"
  | .endBinary => "%%EndBinary"
  | .endProcSetColon => "%%EndProcSet:"
  | .endProcset => "%%EndProcset"
  | .endFile => "%%EndFile"
  | .endFont => "%%EndFont"
  | .endProcSet => "%%EndProcSet"
  | .endDocumentSetup => "%%EndDocumentSetup"
  | .executeFile => "%%ExecuteFile:"
  | .endPaperSize => "%%EndPaperSize"
  | .feature => "%%Feature:"
  | .includeFont => "%%IncludeFont:"
  | .includeFile => "%%IncludeFile:"
  | .includeProcSet => "%%IncludeProcSet:"

def oldComments : List OldComment :=
  [.beginBinary, .beginFile, .beginFont, .beginProcSet, .beginDocumentSetup, .beginPaperSize, .endBinary,
    .endProcSetColon, .endProcset, .endFile, .endFont, .endProcSet, .endDocumentSetup, .executeFile, .endPaperSize,
    .feature, .includeFont, .includeFile, .includeProcSet]

def oldCommentOf (keyword : List Byte) : Option OldComment :=
  oldComments.find? fun c => keyword = ascii c.key

/-- A line that is tokenized again. -/
def retokenize (line : List Byte) (stack : List NestType) : Except NestError NestLine :=
  if line.length ≤ maxTokenized then .ok ⟨line, stack, false⟩ else .error .tooLong

/-- `fixcomment()`. -/
def fixcomment (comment : String) (tail : List Byte) (stack : List NestType) : Except NestError NestLine :=
  retokenize (ascii "%%" ++ ascii comment ++ 32 :: (tail.dropWhile isBlank).take 255) stack

/-- The end of an old resource: its beginning was converted, or it was bad. -/
def endOldResource (line : List Byte) (stack : List NestType) : Except NestError NestLine :=
  if stack.head? = some .badRes then NestLine.pop ⟨line, stack, false⟩ .badRes
  else retokenize (ascii "%%EndResource") stack

/-- `old_DSC_to_new()`. -/
def oldDscToNew (line : List Byte) (stack : List NestType) : Except NestError NestLine :=
  match tokenize line with
  | [] => .ok ⟨line, stack, false⟩
  | keyword :: args =>
    match oldCommentOf keyword, args with
    | some .beginBinary, count :: _ =>
      retokenize (ascii "%%BeginData: " ++ count ++ ascii " Binary Bytes") stack
    | some .beginFile, [] => .ok ⟨line, .badRes :: stack, false⟩
    | some .beginFile, name :: _ => retokenize (ascii "%%BeginResource: file " ++ name) stack
    | some .beginFont, [] => .ok ⟨line, .badRes :: stack, false⟩
    | some .beginFont, name :: _ => retokenize (ascii "%%BeginResource: font " ++ name) stack
    | some .beginProcSet, [] => .ok ⟨line, .badRes :: stack, false⟩
    | some .beginProcSet, _ :: _ => fixcomment "BeginResource: procset" (line.drop 15) stack
    | some .beginDocumentSetup, [] => retokenize (ascii "%%BeginSetup") stack
    | some .beginPaperSize, _ => fixcomment "BeginFeature: *PageSize" (line.drop 17) stack
    | some .endBinary, [] => retokenize (ascii "%%EndData") stack
    | some .endProcSetColon, _ => endOldResource (ascii "%%EndProcSet") stack
    | some .endProcset, _ => endOldResource (ascii "%%EndProcSet") stack
    | some .endFile, _ => endOldResource line stack
    | some .endFont, _ => endOldResource line stack
    | some .endProcSet, _ => endOldResource line stack
    | some .endDocumentSetup, [] => retokenize (ascii "%%EndSetup") stack
    | some .executeFile, _ => fixcomment "IncludeDocument:" (line.drop 14) stack
    | some .endPaperSize, [] => retokenize (ascii "%%EndFeature") stack
    | some .feature, _ => fixcomment "IncludeFeature:" (line.drop 10) stack
    | some .includeFont, name :: _ => retokenize (ascii "%%IncludeResource: font " ++ name) stack
    | some .includeFile, name :: _ => retokenize (ascii "%%IncludeResource: file " ++ name) stack
    | some .includeProcSet, _ => fixcomment "IncludeResource: procset" (line.drop 17) stack
    | _, _ => .ok ⟨line, stack, false⟩

/-! ## A line -/

/-- `tokens[0]`. -/
def keywordOf (line : List Byte) : List Byte := (tokenize line).headD []

/-- The switch of `getline_simplify()`, for its effect on the levels. -/
def nestSwitch (badeps : Bool) (r : NestLine) : Except NestError NestLine :=
  if keywordOf r.line = ascii "%%BeginDocument:" then .ok (r.push .doc)
  else if keywordOf r.line = ascii "%%BeginResource:" then .ok (r.push .res)
  else if r.line = ascii "%%EndDocument" then if r.stack = [] then .ok r else r.pop .doc
  else if r.line = ascii "%%EndResource" then if r.stack = [] then .ok r else r.pop .res
  else if r.line = ascii "%%EOF" then
    if badeps = true ∧ r.stack.head? = some .badEps then
      ({ r with line := r.line ++ ascii "\n%%EndDocument" } : NestLine).pop .badEps
    else .ok r
  else .ok r

/-- An EPS header in the middle of the document. -/
def isEpsHeader (line : List Byte) : Bool := ((tokenize line)[1]?).any (lmatch · "EPSF-")

/-- What reads the lines. -/
inductive Reader where
  | header
  | defaults
  | prolog
  | pages
  | trailer
  deriving DecidableEq

/-- What `getline_simplify()` remembers. -/
structure NestState where
  simplifier : Simplifier
  stack : List NestType

def nestStart : NestState := ⟨simplifierStart, []⟩

/-- A line of `getline_simplify()`, but for copied data and stripped fonts. -/
def nestLine (badeps : Bool) (s : NestState) (reader : Reader) (line : List Byte) : Except NestError NestLine :=
  let new := (simplifyLine s.simplifier line).2.line
  if line.head? ≠ some 37 ∨ (chop line).length > maxTokenized then .ok ⟨new, s.stack, false⟩
  else
    match (commentText line).drop 1 with
    | 33 :: _ =>
      if isEpsHeader new ∧ s.stack = [] ∧ reader ≠ .header ∧ badeps then
        .ok ⟨ascii "%%BeginDocument:\n" ++ new, [.badEps], false⟩
      else .ok ⟨new, s.stack, false⟩
    | 37 :: text =>
      if text.head?.any isupper ∨ text.head? = some 43 then do
        let r ← retokenize new s.stack
        let r ← oldDscToNew r.line r.stack
        nestSwitch badeps r
      else .ok ⟨new, s.stack, false⟩
    | _ => .ok ⟨new, s.stack, false⟩

/-- The state after a line. -/
def nestStep (badeps : Bool) (s : NestState) (l : Reader × List Byte) : Except NestError NestState := do
  let r ← nestLine badeps s l.1 l.2
  return ⟨(simplifyLine s.simplifier l.2).1, r.stack⟩

/-- The state after the lines. -/
def nestAfter (badeps : Bool) (ls : List (Reader × List Byte)) : Except NestError NestState :=
  ls.foldlM (nestStep badeps) nestStart

/-- A comment that `read_prolog()`, `read_pages()` or `read_trailer()` takes for one of the outer document. -/
def takesComment : Reader → ℕ → List Byte → Bool
  | .prolog, level, line =>
    level = 0 && (lmatch line "%%Page:" || line = ascii "%%Trailer" || line = ascii "%%EOF")
  | .pages, level, line =>
    level = 0 && line.length ≤ maxTokenized &&
      (lmatch line "%%Page:" || line = ascii "%%Trailer" || line = ascii "%%EOF")
  | .trailer, level, line => level = 0 && line.length ≤ maxTokenized && line = ascii "%%EOF"
  | .header, _, _ | .defaults, _, _ => false

end Ppr
