import Ppr.Lib.Ascii

/-!
# The input of ppr

`in_getc()`, `in_ungetc()` and `in_getline()` of `ppr_infile.c`.  The buffer always has room for the
few characters that are pushed back, so the input is the list of bytes still to be read.
-/

namespace Ppr

/-- The types of input that `in_getline()` tells apart. -/
inductive InType where
  /-- PostScript with a PJL wrapper. -/
  | pjl
  /-- Tagged binary communications protocol. -/
  | tbcp
  | other
  deriving DecidableEq

/-- What `in_getline()` remembers from line to line. -/
structure ScanState where
  /-- Bytes left in the binary token. -/
  bintokenGrace : ℤ
  /-- Parenthesis nesting level. -/
  stringLevel : ℕ
  inAscii85 : Bool
  inComment : Bool
  deriving DecidableEq

/-- The input file. -/
structure Infile where
  input : List Byte
  logicalEof : Bool
  scan : ScanState
  deriving DecidableEq

/-- The longest line, `MAX_LINE`. -/
def maxLine : ℕ := 1024

/-- Take note of comments and strings. -/
def ScanState.note (s : ScanState) (prevc c : Byte) : ScanState :=
  if c = 37 then
    if s.inAscii85 = false ∧ s.stringLevel = 0 then { s with inComment := true } else s
  else if c = 40 then
    if s.inComment = false ∧ s.inAscii85 = false then { s with stringLevel := s.stringLevel + 1 }
    else s
  else if c = 41 then
    if prevc ≠ 92 ∧ s.stringLevel ≠ 0 then { s with stringLevel := s.stringLevel - 1 } else s
  else if c = 126 then
    if prevc = 60 ∧ s.stringLevel = 0 ∧ s.inComment = false then { s with inAscii85 := true } else s
  else if c = 62 then
    if prevc = 126 ∧ s.inAscii85 then { s with inAscii85 := false } else s
  else s

/-- A byte that is looked at and pushed back; -1 is `EOF`. -/
def peek (l : List Byte) (i : ℕ) : ℤ :=
  match l[i]? with
  | some c => c.toNat
  | none => -1

/-- The length of a number array, by the byte `c2` that says what its numbers are. -/
def arrayGrace (c2 c3 c4 : ℤ) : ℤ :=
  if c2 ≤ 31 ∨ c2 = 48 ∨ c2 = 49 then (c3 * 256 + c4) * 4
  else if c2 ≤ 47 then (c3 * 256 + c4) * 2
  else if c2 < 128 then 0
  else if c2 - 128 ≤ 31 ∨ c2 - 128 = 48 ∨ c2 - 128 = 49 then (c4 * 256 + c3) * 4
  else if c2 - 128 ≤ 47 then (c4 * 256 + c3) * 2
  else 0

/-- Bytes of the binary token that begins with `c`; `l` follows. -/
def tokenGrace (c : Byte) (l : List Byte) : ℤ :=
  let c2 := peek l 0
  let c3 := peek l 1
  if c ∈ ([132, 133, 138, 139, 140] : List Byte) then 4
  else if c ∈ ([134, 135] : List Byte) then 2
  else if c ∈ ([136, 141, 145, 146, 147, 148] : List Byte) then 1
  else if c = 137 then if c2 ≤ 31 ∨ (128 ≤ c2 ∧ c2 ≤ 159) then 2 else 5
  else if c = 142 then c2 + 1
  else if c = 143 then c2 * 256 + c3 + 2
  else if c = 144 then c3 * 256 + c2
  else if c = 149 then arrayGrace c2 c3 (peek l 2)
  else 0

/-- The state after a character that is put into the line. -/
def ScanState.next (s : ScanState) (prevc c : Byte) (l : List Byte) : ScanState :=
  if s.bintokenGrace ≠ 0 then { s with bintokenGrace := s.bintokenGrace - 1 }
  else
    let s := s.note prevc c
    if s.inComment = false ∧ s.stringLevel = 0 then { s with bintokenGrace := tokenGrace c l } else s

/-- A line as the loop of `in_getline()` leaves it. -/
structure Scanned where
  line : List Byte
  overflow : Bool
  /-- There was not even an empty line. -/
  eof : Bool
  rest : List Byte
  scan : ScanState
  deriving DecidableEq

/-- The end of a line: the other half of a CR-LF or LF-CR pair is eaten. -/
def eatPair (other : Byte) : List Byte → List Byte
  | [] => []
  | c :: l => if c = other then l else c :: l

/-- The loop of `in_getline()`, with the line so far. -/
def scanLine : List Byte → ScanState → List Byte → Byte → Scanned
  | [], s, acc, _ => { line := acc, overflow := false, eof := acc = [], rest := [], scan := s }
  | c :: l, s, acc, prevc =>
    if s.bintokenGrace = 0 ∧ (c = 10 ∨ c = 13) then
      { line := acc, overflow := false, eof := false,
        rest := eatPair (if c = 10 then 13 else 10) l, scan := { s with inComment := false } }
    else if maxLine ≤ (acc ++ [c]).length then
      { line := acc ++ [c], overflow := true, eof := false, rest := l, scan := s.next prevc c l }
    else scanLine l (s.next prevc c l) (acc ++ [c]) c

/-- A lone control-D, or the universal exit language where there was PJL. -/
def endsInput (type : InType) (line : List Byte) : Bool :=
  (cstr line = [4] && type ≠ .tbcp) ||
    (type ≠ .other && ((ascii "\x1b%-12345X").isPrefixOf line ||
      (ascii "\x04\x1b%-12345X").isPrefixOf line))

/-- `in_getline()`: the line and whether it overflows. -/
def inGetline (type : InType) (s : Infile) : (List Byte × Bool) × Infile :=
  if s.logicalEof then (([], false), s)
  else
    let r := scanLine s.input s.scan [] 0
    let s := { input := r.rest, logicalEof := r.eof, scan := r.scan }
    if r.overflow = false ∧ endsInput type r.line then (([], false), { s with logicalEof := true })
    else ((r.line, r.overflow), s)

theorem length_eatPair (other : Byte) (l : List Byte) : (eatPair other l).length ≤ l.length := by
  cases l with
  | nil => exact le_rfl
  | cons c l =>
    by_cases hc : c = other
    · rw [eatPair, if_pos hc]
      exact Nat.le_succ _
    · rw [eatPair, if_neg hc]

/-- A line takes nothing back; one that overflows takes something, and is not the end of the
input. -/
theorem scanLine_cases (l : List Byte) (s : ScanState) (acc : List Byte) (prevc : Byte) :
    (scanLine l s acc prevc).rest.length ≤ l.length ∧
      ((scanLine l s acc prevc).overflow = true →
        (scanLine l s acc prevc).rest.length < l.length ∧
          (scanLine l s acc prevc).eof = false) := by
  induction l generalizing s acc prevc with
  | nil => exact ⟨le_rfl, fun h => by cases h⟩
  | cons c l ih =>
    rw [scanLine]
    by_cases hline : s.bintokenGrace = 0 ∧ (c = 10 ∨ c = 13)
    · rw [if_pos hline]
      exact ⟨(length_eatPair _ l).trans (Nat.le_succ _), fun h => by cases h⟩
    by_cases hlong : maxLine ≤ (acc ++ [c]).length
    · rw [if_neg hline, if_pos hlong]
      exact ⟨Nat.le_succ _, fun _ => ⟨Nat.lt_succ_self _, rfl⟩⟩
    · rw [if_neg hline, if_neg hlong]
      obtain ⟨hle, hlt⟩ := ih (s.next prevc c l) (acc ++ [c]) c
      exact ⟨hle.trans (Nat.le_succ _), fun h => ⟨(hlt h).1.trans (Nat.lt_succ_self _), (hlt h).2⟩⟩

theorem inGetline_cases (type : InType) (s : Infile) :
    (inGetline type s).2.input.length ≤ s.input.length ∧
      ((inGetline type s).1.2 = true →
        (inGetline type s).2.input.length < s.input.length ∧
          (inGetline type s).2.logicalEof = false) := by
  obtain ⟨hle, hlt⟩ := scanLine_cases s.input s.scan [] 0
  unfold inGetline
  dsimp only
  by_cases heof : s.logicalEof
  · rw [if_pos heof]
    exact ⟨le_rfl, fun h => by cases h⟩
  rw [if_neg heof]
  split_ifs
  · exact ⟨hle, fun h => by cases h⟩
  · exact ⟨hle, hlt⟩

end Ppr
