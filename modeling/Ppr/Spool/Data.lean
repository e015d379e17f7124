import Ppr.Libppr.Tokenize
import Ppr.Spool.Infile

/-!
# Enclosed data, in ppr

`copy_data()` of `ppr_simplify.c`: the data between "%%BeginData:" and "%%EndData" goes to the
"-text" file without being looked at.
-/

namespace Ppr

/-- The number of items on a "%%BeginData:" line, a `long int` that is 0 if there is no number.
A loop `while(number--)` has `number.toNat` rounds. -/
def itemCount (token : List Byte) : BitVec 64 := BitVec.ofInt 64 ((scanLong token).getD 0)

/-- The loop for data measured in lines: a part of a line that overflows is not counted. -/
def copyDataLines (type : InType) (countdown : ℕ) (s : Infile) : List Byte × Infile :=
  if s.logicalEof = true ∨ countdown = 0 then ([], s)
  else
    let r := inGetline type s
    let more := copyDataLines type (if r.1.2 then countdown else countdown - 1) r.2
    (r.1.1 ++ (if r.1.2 then [] else [newline]) ++ more.1, more.2)
termination_by countdown + s.input.length
decreasing_by
  rename_i h
  rw [not_or] at h
  obtain ⟨hle, hlt⟩ := inGetline_cases type s
  by_cases ho : (inGetline type s).1.2 = true
  · rw [dif_pos ho]
    have := (hlt ho).1
    omega
  · rw [dif_neg ho]
    omega

/-- Keep copying until the five bytes in `temp` are "%%End"; at the end of the input the four that
are left are pushed back. -/
def searchEnd (temp : List Byte) : List Byte → List Byte × List Byte
  | [] => (temp.take 1, temp.drop 1)
  | c :: input =>
    let next := temp.drop 1 ++ [c]
    if next = ascii "%%End" then (temp.take 1, next ++ input)
    else
      let (out, rest) := searchEnd next input
      (temp.take 1 ++ out, rest)

/-- The part of `copy_data()` for data measured in bytes, up to the last `in_getline()`. -/
def copyDataBytes (number : ℕ) (s : Infile) : List Byte × Infile :=
  let after := s.input.drop number
  let temp := after.take 5
  let (out, rest) :=
    if temp.length = 5 ∧ temp ≠ ascii "%%End" then searchEnd temp (after.drop 5) else ([], after)
  -- What is pushed back undoes a logical end of file.
  (s.input.take number ++ out,
    { s with input := rest, logicalEof := if rest = [] then s.logicalEof else false })

/-- What `copy_data()` leaves: the data that went to the "-text" file after the "%%BeginData:" line,
the fresh line in the buffer, and the input. -/
structure CopiedData where
  written : List Byte
  line : List Byte
  overflow : Bool
  infile : Infile

/-- Read a fresh line. -/
def CopiedData.fresh (type : InType) (written : List Byte) (s : Infile) : CopiedData :=
  let r := inGetline type s
  { written, line := r.1.1, overflow := r.1.2, infile := r.2 }

/-- `copy_data()`. -/
def copyData (type : InType) (line : List Byte) (s : Infile) : CopiedData :=
  let tokens := tokenize line
  match tokens[1]?, tokens[2]?, tokens[3]? with
  | some count, some _, some unit =>
    let number := (itemCount count).toNat
    if unit = ascii "Lines" then
      let (written, s) := copyDataLines type number s
      -- The line that was the end of the file is still in the buffer, and it is empty.
      if s.logicalEof then { written, line := [], overflow := false, infile := s }
      else .fresh type written s
    else if unit = ascii "Bytes" then
      let (written, s) := copyDataBytes number s
      .fresh type written s
    else .fresh type [] s
  | _, _, _ => .fresh type [] s

/-- Something is copied before "%%End" is found. -/
theorem searchEnd_ne_nil {temp : List Byte} (h : temp ≠ []) (input : List Byte) :
    (searchEnd temp input).1 ≠ [] := by
  obtain ⟨c, temp, rfl⟩ := List.exists_cons_of_ne_nil h
  cases input with
  | nil => exact List.cons_ne_nil _ _
  | cons d input =>
    rw [searchEnd]
    split_ifs
    · exact List.cons_ne_nil _ _
    · exact List.cons_ne_nil _ _

end Ppr
