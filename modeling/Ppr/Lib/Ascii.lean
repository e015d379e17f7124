import Ppr.Lib.Reading

/-!
# Text in bytes

String constants, decimal numbers and the classes of characters that programs test for.
-/

namespace Ppr

/-- The bytes of a string constant. -/
def ascii (s : String) : List Byte := s.toList.map fun c => BitVec.ofNat 8 c.toNat

/-- Spells a string constant out, which the kernel does with less work than unfolding `String.toList`. -/
theorem ascii_ofList (l : List Char) :
    ascii (String.ofList l) = l.map fun c => BitVec.ofNat 8 c.toNat := by
  rw [ascii, String.toList_ofList]

/-- `'\n'`. -/
def newline : Byte := 10

def isdigit (c : Byte) : Bool := 48 ≤ c.toNat && c.toNat ≤ 57

/-- `gu_ascii_isspace()`. -/
def isspace (c : Byte) : Bool := c ∈ ([32, 9, 11, 12, 13, 10] : List Byte)

/-- "%ld". -/
def decimal (n : ℕ) : List Byte :=
  if n = 0 then [48] else ((Nat.digits 10 n).map fun d => BitVec.ofNat 8 (48 + d)).reverse

/-- "%ld" for a number that may be negative. -/
def decimalInt (i : ℤ) : List Byte := (if i < 0 then [45] else []) ++ decimal i.natAbs

/-- The number in a string of digits. -/
def digitsValue (l : List Byte) : ℕ := l.foldl (fun n c => n * 10 + (c.toNat - 48)) 0

theorem digitsValue_reverse {l : List ℕ} (h : ∀ d ∈ l, d < 10) :
    digitsValue (l.map fun d => BitVec.ofNat 8 (48 + d)).reverse = Nat.ofDigits 10 l := by
  rw [digitsValue, List.foldl_reverse]
  induction l with
  | nil => rfl
  | cons d l ih =>
    have hd := h d (List.mem_cons_self ..)
    have hval : (BitVec.ofNat 8 (48 + d)).toNat - 48 = d := by
      rw [BitVec.toNat_ofNat, Nat.mod_eq_of_lt (by omega)]
      omega
    rw [List.map_cons, List.foldr_cons, ih fun e he => h e (List.mem_cons_of_mem d he),
      Nat.ofDigits_cons, hval, Nat.mul_comm, Nat.add_comm]

theorem digitsValue_decimal (n : ℕ) : digitsValue (decimal n) = n := by
  unfold decimal
  split_ifs with hn
  · rw [hn]
    decide
  · rw [digitsValue_reverse fun d hd => Nat.digits_lt_base (by decide) hd, Nat.ofDigits_digits]

theorem isdigit_decimal {n : ℕ} {c : Byte} (h : c ∈ decimal n) : isdigit c = true := by
  unfold decimal at h
  split_ifs at h with hn
  · rw [List.mem_singleton.1 h]
    decide
  · obtain ⟨d, hd, rfl⟩ := List.mem_map.1 (List.mem_reverse.1 h)
    have hd := Nat.digits_lt_base (by decide) hd
    simp only [isdigit, BitVec.toNat_ofNat, Nat.mod_eq_of_lt (by omega : 48 + d < 2 ^ 8)]
    simp
    omega

theorem decimal_ne_nil (n : ℕ) : decimal n ≠ [] := by
  unfold decimal
  split_ifs with hn
  · exact List.cons_ne_nil _ _
  · simpa [Nat.digits_eq_nil_iff_eq_zero] using hn

theorem isdigit_iff {c : Byte} : isdigit c = true ↔ 48 ≤ c.toNat ∧ c.toNat ≤ 57 := by simp [isdigit]

theorem not_isspace_of_lt {c : Byte} (h : 32 < c.toNat) : isspace c = false := by
  rw [← Bool.not_eq_true]
  intro hspace
  have hmem : c ∈ ([32, 9, 11, 12, 13, 10] : List Byte) := of_decide_eq_true hspace
  simp only [List.mem_cons, List.not_mem_nil, or_false] at hmem
  rcases hmem with rfl | rfl | rfl | rfl | rfl | rfl <;> simp at h

theorem not_isspace_of_isdigit (c : Byte) (h : isdigit c = true) : isspace c = false :=
  not_isspace_of_lt (by have := isdigit_iff.1 h; omega)

theorem length_decimal_le {n k : ℕ} (hk : 0 < k) (hn : n < 10 ^ k) : (decimal n).length ≤ k := by
  unfold decimal
  split_ifs
  · exact hk
  · rw [List.length_reverse, List.length_map]
    exact (Nat.digits_length_le_iff (by decide) n).2 hn

/-! ## Hexadecimal numbers -/

/-- `gu_ascii_xdigit_value()`. -/
def xdigitValue (c : Byte) : ℕ :=
  if isdigit c then c.toNat - 48
  else if 97 ≤ c.toNat ∧ c.toNat ≤ 102 then c.toNat - 87
  else c.toNat - 55

/-- `gu_ascii_isxdigit()`. -/
def isxdigit (c : Byte) : Bool :=
  isdigit c || (97 ≤ c.toNat && c.toNat ≤ 102) || (65 ≤ c.toNat && c.toNat ≤ 70)

/-- The number in a string of hexadecimal digits. -/
def hexValue (l : List Byte) : ℕ := l.foldl (fun n c => n * 16 + xdigitValue c) 0

/-- A digit of "%X". -/
def xdigit (d : ℕ) : Byte := if d < 10 then BitVec.ofNat 8 (48 + d) else BitVec.ofNat 8 (55 + d)

/-- "%0wX". -/
def upperHex (w n : ℕ) : List Byte :=
  List.replicate (w - (Nat.digits 16 n).length) 48 ++ ((Nat.digits 16 n).map xdigit).reverse

theorem xdigit_spec :
    ∀ d < 16, isxdigit (xdigit d) = true ∧ xdigitValue (xdigit d) = d := by
  decide

theorem hexValue_reverse {l : List ℕ} (h : ∀ d ∈ l, d < 16) :
    hexValue (l.map xdigit).reverse = Nat.ofDigits 16 l := by
  rw [hexValue, List.foldl_reverse]
  induction l with
  | nil => rfl
  | cons d l ih =>
    have hd := (xdigit_spec d (h d (List.mem_cons_self ..))).2
    rw [List.map_cons, List.foldr_cons, ih fun e he => h e (List.mem_cons_of_mem d he),
      Nat.ofDigits_cons, hd, Nat.mul_comm, Nat.add_comm]

theorem hexValue_upperHex (w n : ℕ) : hexValue (upperHex w n) = n := by
  have zeros : ∀ k, (List.replicate k (48 : Byte)).foldl (fun n c => n * 16 + xdigitValue c) 0 = 0 := by
    intro k
    induction k with
    | zero => rfl
    | succ k ih => rw [List.replicate_succ, List.foldl_cons]; exact ih
  rw [upperHex, hexValue, List.foldl_append, zeros]
  exact (hexValue_reverse fun d hd => Nat.digits_lt_base (by decide) hd).trans
    (Nat.ofDigits_digits 16 n)

theorem isxdigit_upperHex {w n : ℕ} {c : Byte} (h : c ∈ upperHex w n) : isxdigit c = true := by
  rcases List.mem_append.1 h with h | h
  · rw [List.eq_of_mem_replicate h]
    decide
  · obtain ⟨d, hd, rfl⟩ := List.mem_map.1 (List.mem_reverse.1 h)
    exact (xdigit_spec d (Nat.digits_lt_base (by decide) hd)).1

theorem length_upperHex (w n : ℕ) :
    (upperHex w n).length = max w (Nat.digits 16 n).length := by
  rw [upperHex, List.length_append, List.length_replicate, List.length_reverse, List.length_map]
  omega

theorem length_upperHex_eq_iff {w : ℕ} (n : ℕ) : (upperHex w n).length = w ↔ n < 16 ^ w := by
  rw [length_upperHex, max_eq_left_iff, Nat.digits_length_le_iff (by decide)]

end Ppr
