import Ppr.Spool.Data

/-!
# The -text file in pprdrv

`dgetline_read()` and `copy_data()` of `pprdrv.c`.  A file is the list of the bytes still to be
read.
-/

namespace Ppr.Pprdrv

/-- The loop of `dgetline_read()`: the line, whether it overflows, and what follows. -/
def readLine : ℕ → List Byte → List Byte × Bool × List Byte
  | 0, file => ([], true, file)
  | _ + 1, [] => ([], false, [])
  | n + 1, c :: file =>
    if c = newline then ([], false, file)
    else
      let (line, overflow, rest) := readLine n file
      (c :: line, overflow, rest)

/-- `dgetline_read()`. -/
def dgetlineRead (file : List Byte) : Option (List Byte × Bool × List Byte) :=
  if file = [] then none else some (readLine maxLine file)

/-- The loop of `copy_data()` over lines, which does not look whether a line was complete: what is
sent, and what follows in the file. -/
def copyLines : ℕ → List Byte → List Byte × List Byte
  | 0, file => ([], file)
  | n + 1, file =>
    let got := fgets maxLine file
    if got = [] then ([], file)
    else
      let (sent, rest) := copyLines n (file.drop got.length)
      (cstr got ++ sent, rest)

/-- `copy_data()`: what is sent after the "%%BeginData:" line, and what follows in the file. -/
def copyData (line file : List Byte) : List Byte × List Byte :=
  let tokens := tokenize line
  match tokens[1]?, tokens[2]?, tokens[3]? with
  | some count, some _, some unit =>
    let len := (itemCount count).toNat
    if unit = ascii "Lines" then copyLines len file else (file.take len, file.drop len)
  | _, _, _ => ([], file)

/-- A line that fits is read as it was written. -/
theorem readLine_append {line : List Byte} (hline : newline ∉ line) {n : ℕ} (h : line.length < n)
    (rest : List Byte) : readLine n (line ++ newline :: rest) = (line, false, rest) := by
  induction line generalizing n with
  | nil =>
    obtain ⟨m, rfl⟩ := Nat.exists_eq_succ_of_ne_zero (by omega : n ≠ 0)
    rfl
  | cons c line ih =>
    obtain ⟨m, rfl⟩ := Nat.exists_eq_succ_of_ne_zero (by omega : n ≠ 0)
    rw [List.length_cons] at h
    have hc : c ≠ newline := fun e => hline (e ▸ List.mem_cons_self ..)
    rw [List.cons_append, readLine, if_neg hc,
      ih (fun hm => hline (List.mem_cons_of_mem c hm)) (by omega)]

/-- There is no linefeed in a line. -/
theorem newline_notMem_readLine (n : ℕ) (file : List Byte) : newline ∉ (readLine n file).1 := by
  induction n generalizing file with
  | zero => exact List.not_mem_nil
  | succ n ih =>
    cases file with
    | nil => exact List.not_mem_nil
    | cons c file =>
      rw [readLine]
      split_ifs with hc
      · exact List.not_mem_nil
      · intro h
        rcases List.mem_cons.1 h with h | h
        · exact hc h.symm
        · exact ih file h

end Ppr.Pprdrv
