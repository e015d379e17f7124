import Ppr.Libppr.Tokenize
import Ppr.Libgu.Sscanf
import Ppr.Lib.Lists

/-!
# Strings

The macros of `gu.h` for lines that begin with a keyword, `gu_strsep()`, `gu_torf_setBOOL()`,
`gu_strcasecmp()` and `atoi()`.
-/

namespace Ppr

/-- `lmatchp()`: what comes behind the key and blanks. -/
def lmatchp (line : List Byte) (key : String) : Option (List Byte) :=
  if lmatch line key then some ((line.drop (ascii key).length).dropWhile isBlank) else none

/-- `lmatchsp()`: the key is followed by a space. -/
def lmatchsp (line : List Byte) (key : String) : Option (List Byte) :=
  if (line.drop (ascii key).length).head?.any isspace then lmatchp line key else none

/-- `gu_strsep()`: a field, and what is left. -/
def guStrsep (isDelim : Byte → Bool) : Option (List Byte) → Option (List Byte × Option (List Byte))
  | none => none
  | some p =>
    match p.dropWhile fun c => !isDelim c with
    | [] => some (p, none)
    | _ :: rest => some (p.takeWhile fun c => !isDelim c, some rest)

/-- The fields that `gu_strsep()` finds one after the other. -/
def fields (isDelim : Byte → Bool) (p : List Byte) : List (List Byte) := p.splitOnP isDelim

/-- `gu_torf_setBOOL()`: the answer, if there is one. -/
def guTorf (s : List Byte) : Option Bool :=
  match (s.dropWhile isBlank).head? with
  | some c =>
    if c ∈ ascii "yYtT" then some true
    else if c ∈ ascii "nNfF" then some false
    else none
  | none => none

/-- `toupper()`. -/
def toupper (c : Byte) : Byte := if 97 ≤ c.toNat ∧ c.toNat ≤ 122 then c - 32 else c

/-- `gu_strcasecmp() == 0`. -/
def sameWord (s t : List Byte) : Bool := s.map toupper = t.map toupper

/-- `atoi()`. -/
def atoi (s : List Byte) : ℤ :=
  match s.dropWhile isspace with
  | 45 :: s => -digitsValue (s.takeWhile isdigit)
  | 43 :: s => digitsValue (s.takeWhile isdigit)
  | s => digitsValue (s.takeWhile isdigit)

theorem decimal_span (n : ℕ) {s : List Byte} (hs : ∀ c ∈ s.head?, isdigit c = false) :
    (decimal n ++ s).takeWhile isdigit = decimal n ∧ (decimal n ++ s).dropWhile isdigit = s :=
  span_append isdigit s (fun _ hc => isdigit_decimal hc) hs

theorem atoi_decimal (n : ℕ) {s : List Byte} (hs : ∀ c ∈ s.head?, isdigit c = false) :
    atoi (decimal n ++ s) = n := by
  obtain ⟨htake, -⟩ := decimal_span n hs
  obtain ⟨c, d, hd⟩ := List.exists_cons_of_ne_nil (decimal_ne_nil n)
  have hdigit : isdigit c = true := isdigit_decimal (n := n) (by simp [hd])
  have hc : ∀ c, isdigit c = true → isspace c = false ∧ c ≠ 45 ∧ c ≠ 43 := by decide +kernel
  obtain ⟨hspace, hminus, hplus⟩ := hc c hdigit
  have hdrop : (decimal n ++ s).dropWhile isspace = decimal n ++ s := by
    rw [hd]
    exact List.dropWhile_cons_of_neg (by simp [hspace])
  have hvalue : digitsValue ((decimal n ++ s).takeWhile isdigit) = n := by
    rw [htake, digitsValue_decimal]
  unfold atoi
  rw [hdrop]
  rw [hd] at hvalue ⊢
  rw [List.cons_append] at hvalue ⊢
  split
  · rename_i heq
    exact absurd (List.cons.inj heq).1 hminus
  · rename_i heq
    exact absurd (List.cons.inj heq).1 hplus
  · rw [hvalue]

/-- The text up to the next quote. -/
def untilQuote (s : List Byte) : List Byte := s.takeWhile (· ≠ 34)

end Ppr
