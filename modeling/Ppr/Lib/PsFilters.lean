import Mathlib

/-!
# Filters of PostScript

`RunLengthDecode` and `ASCII85Decode`, and what is to be written so that they give back some bytes.
-/

namespace PsFilters

abbrev Octet := BitVec 8

/-! ## Runs and literals -/

namespace RunLength

/-- One record of the encoded data. -/
inductive Code where
  | literal (bytes : List Octet) (fits : 0 < bytes.length ∧ bytes.length ≤ 128)
  | run (count : ℕ) (c : Octet) (fits : 2 ≤ count ∧ count ≤ 128)

namespace Code

/-- How a record is written. -/
def octets : Code → List Octet
  | literal bytes _ => BitVec.ofNat 8 (bytes.length - 1) :: bytes
  | run count c _ => [BitVec.ofNat 8 (257 - count), c]

/-- What a record stands for. -/
def data : Code → List Octet
  | literal bytes _ => bytes
  | run count c _ => List.replicate count c

/-- A record is at most twice as long as what it stands for. -/
theorem length_octets_le (code : Code) : code.octets.length ≤ 2 * code.data.length := by
  cases code with
  | literal bytes fits =>
    rw [octets, data, List.length_cons]
    have := fits.1
    omega
  | run count c fits =>
    rw [octets, data, List.length_replicate]
    have := fits.1
    simp only [List.length_cons, List.length_nil]
    omega

end Code

/-- `RunLengthDecode`; the data need not end with a record that says so. -/
def decode : List Octet → Option (List Octet)
  | [] => some []
  | n :: rest =>
    if n.toNat < 128 then
      if n.toNat + 1 ≤ rest.length then
        (decode (rest.drop (n.toNat + 1))).map (rest.take (n.toNat + 1) ++ ·)
      else none
    else if n.toNat = 128 then some []
    else
      match rest with
      | [] => none
      | c :: rest => (decode rest).map (List.replicate (257 - n.toNat) c ++ ·)
termination_by s => s.length
decreasing_by all_goals simp; try omega

@[simp]
theorem decode_nil : decode [] = some [] := by
  rw [decode]

theorem decode_cons (n : Octet) (rest : List Octet) :
    decode (n :: rest) =
      if n.toNat < 128 then
        if n.toNat + 1 ≤ rest.length then
          (decode (rest.drop (n.toNat + 1))).map (rest.take (n.toNat + 1) ++ ·)
        else none
      else if n.toNat = 128 then some []
      else
        match rest with
        | [] => none
        | c :: rest => (decode rest).map (List.replicate (257 - n.toNat) c ++ ·) := by
  rw [decode.eq_def]

theorem decode_code (code : Code) (rest : List Octet) :
    decode (code.octets ++ rest) = (decode rest).map (code.data ++ ·) := by
  cases code with
  | literal bytes fits =>
    have hn : (BitVec.ofNat 8 (bytes.length - 1)).toNat = bytes.length - 1 :=
      Nat.mod_eq_of_lt (by omega)
    have hlength : bytes.length - 1 + 1 = bytes.length := Nat.sub_add_cancel fits.1
    rw [Code.octets, List.cons_append, decode_cons, hn, hlength, if_pos (by omega), if_pos (by simp),
      List.drop_left, List.take_left]
    rfl
  | run count c fits =>
    have hn : (BitVec.ofNat 8 (257 - count)).toNat = 257 - count := Nat.mod_eq_of_lt (by omega)
    rw [Code.octets, List.cons_append, decode_cons, hn, if_neg (by omega), if_neg (by omega)]
    have hcount : 257 - (257 - count) = count := by omega
    rw [hcount]
    rfl

/-- Records stand for what each of them stands for. -/
theorem decode_codes (codes : List Code) :
    decode (codes.flatMap Code.octets) = some (codes.flatMap Code.data) := by
  induction codes with
  | nil => exact decode_nil
  | cons code codes ih => rw [List.flatMap_cons, decode_code, ih, List.flatMap_cons, Option.map_some]

theorem length_codes_le (codes : List Code) :
    (codes.flatMap Code.octets).length ≤ 2 * (codes.flatMap Code.data).length := by
  induction codes with
  | nil => exact Nat.le_refl 0
  | cons code codes ih =>
    have := code.length_octets_le
    simp only [List.flatMap_cons, List.length_append]
    omega

end RunLength

/-! ## Numbers to the base 85 -/

namespace Ascii85

/-- The number that four octets are. -/
def word (a b c d : Octet) : ℕ := ((a.toNat * 256 + b.toNat) * 256 + c.toNat) * 256 + d.toNat

/-- The octets of a number. -/
def octets (v : ℕ) : List Octet :=
  [BitVec.ofNat 8 (v / 2 ^ 24), BitVec.ofNat 8 (v / 2 ^ 16), BitVec.ofNat 8 (v / 2 ^ 8), BitVec.ofNat 8 v]

/-- The character for a digit. -/
def symbol (digit : ℕ) : Octet := BitVec.ofNat 8 (digit + 33)

/-- The five characters of a number. -/
def symbols (v : ℕ) : List Octet :=
  [symbol (v / 85 ^ 4), symbol (v / 85 ^ 3 % 85), symbol (v / 85 ^ 2 % 85), symbol (v / 85 % 85),
    symbol (v % 85)]

/-- Groups of four octets are five characters each, and what is left is one character longer. -/
def encode : List Octet → List Octet
  | [] => []
  | [a] => (symbols (word a 0 0 0)).take 2
  | [a, b] => (symbols (word a b 0 0)).take 3
  | [a, b, c] => (symbols (word a b c 0)).take 4
  | a :: b :: c :: d :: rest => symbols (word a b c d) ++ encode rest

/-- The digit that a character is. -/
def digit? (c : Octet) : Option ℕ :=
  if 33 ≤ c.toNat ∧ c.toNat ≤ 117 then some (c.toNat - 33) else none

/-- The number that five characters are. -/
def number? (a b c d e : Octet) : Option ℕ := do
  let v := (((← digit? a) * 85 + (← digit? b)) * 85 + (← digit? c)) * 85 + (← digit? d)
  let v := v * 85 + (← digit? e)
  if v < 2 ^ 32 then some v else none

/-- The characters before the end of the data.  Where a group is short, it goes on with `u`. -/
def decodeBody : List Octet → Option (List Octet)
  | [] => some []
  | 122 :: rest => (decodeBody rest).map ([0, 0, 0, 0] ++ ·)
  | [_] => none
  | [a, b] => (number? a b 117 117 117).map fun v => (octets v).take 1
  | [a, b, c] => (number? a b c 117 117).map fun v => (octets v).take 2
  | [a, b, c, d] => (number? a b c d 117).map fun v => (octets v).take 3
  | a :: b :: c :: d :: e :: rest =>
    (number? a b c d e).bind fun v => (decodeBody rest).map (octets v ++ ·)

/-- White space. -/
def white (c : Octet) : Bool := c = 0 || c = 9 || c = 10 || c = 12 || c = 13 || c = 32

/-- `ASCII85Decode`; the data ends with `~>`. -/
def decode (s : List Octet) : Option (List Octet) :=
  let s := s.filter (!white ·)
  match s.dropWhile (· ≠ 126) with
  | 126 :: 62 :: _ => decodeBody (s.takeWhile (· ≠ 126))
  | _ => none

theorem digit?_symbol {n : ℕ} (h : n < 85) : digit? (symbol n) = some n := by
  have hn : (symbol n).toNat = n + 33 := Nat.mod_eq_of_lt (by omega)
  rw [digit?, hn, if_pos (by omega)]
  simp

theorem word_lt (a b c d : Octet) : word a b c d < 2 ^ 32 := by
  have := a.isLt
  have := b.isLt
  have := c.isLt
  have := d.isLt
  unfold word
  omega

/-- Five digits below 85 are the number that they are of. -/
theorem number?_symbols {a b c d e : ℕ} (ha : a < 85) (hb : b < 85) (hc : c < 85) (hd : d < 85)
    (he : e < 85) (h : (((a * 85 + b) * 85 + c) * 85 + d) * 85 + e < 2 ^ 32) :
    number? (symbol a) (symbol b) (symbol c) (symbol d) (symbol e) =
      some ((((a * 85 + b) * 85 + c) * 85 + d) * 85 + e) := by
  simp only [number?, digit?_symbol, ha, hb, hc, hd, he, Option.bind_eq_bind, Option.bind_some]
  exact if_pos h

theorem octets_word (a b c d : Octet) : octets (word a b c d) = [a, b, c, d] := by
  have ha := a.isLt
  have hb := b.isLt
  have hc := c.isLt
  have hd := d.isLt
  unfold octets word
  simp only [List.cons.injEq, and_true]
  refine ⟨?_, ?_, ?_, ?_⟩
  all_goals
    apply BitVec.eq_of_toNat_eq
    rw [BitVec.toNat_ofNat]
    omega

theorem symbol_ne {n : ℕ} (h : n < 85) (c : Octet) (hc : 117 < c.toNat) : symbol n ≠ c := by
  rintro rfl
  have hn : (symbol n).toNat = n + 33 := Nat.mod_eq_of_lt (by omega)
  omega

/-- The digits of a number. -/
theorem digits_lt {v : ℕ} (h : v < 2 ^ 32) : v / 85 ^ 4 < 85 := by omega

theorem digits_two (v : ℕ) : v / 85 ^ 4 * 85 + v / 85 ^ 3 % 85 = v / 85 ^ 3 := by
  have h : v / 85 ^ 4 = v / 85 ^ 3 / 85 := (Nat.div_div_eq_div_mul v (85 ^ 3) 85).symm
  rw [h]
  omega

theorem digits_three (v : ℕ) :
    (v / 85 ^ 4 * 85 + v / 85 ^ 3 % 85) * 85 + v / 85 ^ 2 % 85 = v / 85 ^ 2 := by
  have h : v / 85 ^ 3 = v / 85 ^ 2 / 85 := (Nat.div_div_eq_div_mul v (85 ^ 2) 85).symm
  rw [digits_two, h]
  omega

theorem digits_four (v : ℕ) :
    ((v / 85 ^ 4 * 85 + v / 85 ^ 3 % 85) * 85 + v / 85 ^ 2 % 85) * 85 + v / 85 % 85 = v / 85 := by
  have h : v / 85 ^ 2 = v / 85 / 85 := (Nat.div_div_eq_div_mul v 85 85).symm
  rw [digits_three, h]
  omega

theorem decodeBody_symbols {v : ℕ} (h : v < 2 ^ 32) (rest : List Octet) :
    decodeBody (symbols v ++ rest) = (decodeBody rest).map (octets v ++ ·) := by
  have hhead := symbol_ne (digits_lt h) 122 (by decide)
  have hvalue : v / 85 * 85 + v % 85 = v := by omega
  have hnumber : number? (symbol (v / 85 ^ 4)) (symbol (v / 85 ^ 3 % 85)) (symbol (v / 85 ^ 2 % 85))
      (symbol (v / 85 % 85)) (symbol (v % 85)) = some v := by
    rw [number?_symbols (digits_lt h) (by omega) (by omega) (by omega) (by omega), digits_four, hvalue]
    rwa [digits_four, hvalue]
  change decodeBody (_ :: _ :: _ :: _ :: _ :: rest) = _
  rw [decodeBody, hnumber]
  · rfl
  · exact hhead

/-! Where digits are left out, the digits that stand for them change only octets that are left out,
too. -/

theorem ofNat_eq {n : ℕ} {a : Octet} (h : n % 256 = a.toNat) : BitVec.ofNat 8 n = a :=
  BitVec.eq_of_toNat_eq ((BitVec.toNat_ofNat n 8).trans h)

theorem decodeBody_two (a : Octet) : decodeBody ((symbols (word a 0 0 0)).take 2) = some [a] := by
  have hword : word a 0 0 0 = ((a.toNat * 256 + 0) * 256 + 0) * 256 + 0 := rfl
  have hlt := word_lt a 0 0 0
  have hhead := symbol_ne (digits_lt hlt) 122 (by decide)
  have ha := a.isLt
  generalize word a 0 0 0 = v at hword hlt hhead ⊢
  have hnumber : number? (symbol (v / 85 ^ 4)) (symbol (v / 85 ^ 3 % 85)) 117 117 117 =
      some (((v / 85 ^ 3 * 85 + 84) * 85 + 84) * 85 + 84) := by
    change number? _ _ (symbol 84) (symbol 84) (symbol 84) = _
    rw [number?_symbols (digits_lt hlt) (by omega) (by omega) (by omega) (by omega), digits_two]
    rw [digits_two]
    omega
  have hfirst : (((v / 85 ^ 3 * 85 + 84) * 85 + 84) * 85 + 84) / 2 ^ 24 = a.toNat := by omega
  change decodeBody [_, _] = _
  rw [decodeBody, hnumber]
  · change some [BitVec.ofNat 8 _] = _
    rw [hfirst, ofNat_eq (Nat.mod_eq_of_lt ha)]
  · exact hhead

theorem decodeBody_three (a b : Octet) :
    decodeBody ((symbols (word a b 0 0)).take 3) = some [a, b] := by
  have hword : word a b 0 0 = ((a.toNat * 256 + b.toNat) * 256 + 0) * 256 + 0 := rfl
  have hlt := word_lt a b 0 0
  have hhead := symbol_ne (digits_lt hlt) 122 (by decide)
  have ha := a.isLt
  have hb := b.isLt
  generalize word a b 0 0 = v at hword hlt hhead ⊢
  have hnumber : number? (symbol (v / 85 ^ 4)) (symbol (v / 85 ^ 3 % 85)) (symbol (v / 85 ^ 2 % 85))
      117 117 = some ((v / 85 ^ 2 * 85 + 84) * 85 + 84) := by
    change number? _ _ _ (symbol 84) (symbol 84) = _
    rw [number?_symbols (digits_lt hlt) (by omega) (by omega) (by omega) (by omega), digits_three]
    rw [digits_three]
    omega
  have hsecond : ((v / 85 ^ 2 * 85 + 84) * 85 + 84) / 2 ^ 16 = a.toNat * 256 + b.toNat := by omega
  have hfirst : ((v / 85 ^ 2 * 85 + 84) * 85 + 84) / 2 ^ 24 = a.toNat := by omega
  change decodeBody [_, _, _] = _
  rw [decodeBody, hnumber]
  · change some [BitVec.ofNat 8 _, BitVec.ofNat 8 _] = _
    rw [hfirst, hsecond, ofNat_eq (Nat.mod_eq_of_lt ha), ofNat_eq (a := b) (by omega)]
  · exact hhead

theorem decodeBody_four (a b c : Octet) :
    decodeBody ((symbols (word a b c 0)).take 4) = some [a, b, c] := by
  have hword : word a b c 0 = ((a.toNat * 256 + b.toNat) * 256 + c.toNat) * 256 + 0 := rfl
  have hlt := word_lt a b c 0
  have hhead := symbol_ne (digits_lt hlt) 122 (by decide)
  have ha := a.isLt
  have hb := b.isLt
  have hc := c.isLt
  generalize word a b c 0 = v at hword hlt hhead ⊢
  have hnumber : number? (symbol (v / 85 ^ 4)) (symbol (v / 85 ^ 3 % 85)) (symbol (v / 85 ^ 2 % 85))
      (symbol (v / 85 % 85)) 117 = some (v / 85 * 85 + 84) := by
    change number? _ _ _ _ (symbol 84) = _
    rw [number?_symbols (digits_lt hlt) (by omega) (by omega) (by omega) (by omega), digits_four]
    rw [digits_four]
    omega
  have hthird : (v / 85 * 85 + 84) / 2 ^ 8 = (a.toNat * 256 + b.toNat) * 256 + c.toNat := by omega
  have hsecond : (v / 85 * 85 + 84) / 2 ^ 16 = a.toNat * 256 + b.toNat := by omega
  have hfirst : (v / 85 * 85 + 84) / 2 ^ 24 = a.toNat := by omega
  change decodeBody [_, _, _, _] = _
  rw [decodeBody, hnumber]
  · change some [BitVec.ofNat 8 _, BitVec.ofNat 8 _, BitVec.ofNat 8 _] = _
    rw [hfirst, hsecond, hthird, ofNat_eq (Nat.mod_eq_of_lt ha), ofNat_eq (a := b) (by omega),
      ofNat_eq (a := c) (by omega)]
  · exact hhead

theorem decodeBody_encode : ∀ bytes : List Octet, decodeBody (encode bytes) = some bytes
  | [] => rfl
  | [a] => decodeBody_two a
  | [a, b] => decodeBody_three a b
  | [a, b, c] => decodeBody_four a b c
  | a :: b :: c :: d :: rest => by
    rw [encode, decodeBody_symbols (word_lt a b c d), decodeBody_encode rest, octets_word]
    rfl

/-- A character for a digit. -/
def IsSymbol (c : Octet) : Prop := 33 ≤ c.toNat ∧ c.toNat ≤ 117

theorem isSymbol_symbols {v : ℕ} (h : v < 2 ^ 32) : ∀ c ∈ symbols v, IsSymbol c := by
  have hdigit : ∀ n < 85, IsSymbol (symbol n) := by
    intro n hn
    have : (symbol n).toNat = n + 33 := Nat.mod_eq_of_lt (by omega)
    unfold IsSymbol
    omega
  intro c hc
  simp only [symbols, List.mem_cons, List.not_mem_nil, or_false] at hc
  rcases hc with rfl | rfl | rfl | rfl | rfl <;> exact hdigit _ (by omega)

theorem isSymbol_encode : ∀ bytes : List Octet, ∀ c ∈ encode bytes, IsSymbol c
  | [] => nofun
  | [a] => fun c hc => isSymbol_symbols (word_lt a 0 0 0) c (List.mem_of_mem_take hc)
  | [a, b] => fun c hc => isSymbol_symbols (word_lt a b 0 0) c (List.mem_of_mem_take hc)
  | [a, b, c] => fun c' hc => isSymbol_symbols (word_lt a b c 0) c' (List.mem_of_mem_take hc)
  | a :: b :: c :: d :: rest => fun c' hc => by
    rcases List.mem_append.1 hc with hc | hc
    · exact isSymbol_symbols (word_lt a b c d) c' hc
    · exact isSymbol_encode rest c' hc

/-- Where there is white space does not matter. -/
theorem decode_of_filter {s : List Octet} {bytes : List Octet}
    (h : s.filter (!white ·) = encode bytes ++ [126, 62]) : decode s = some bytes := by
  have hsymbols : ∀ c ∈ encode bytes, decide (c ≠ 126) = true := by
    intro c hc
    have := isSymbol_encode bytes c hc
    apply decide_eq_true
    rintro rfl
    exact absurd this.2 (by decide)
  have hdrop : (encode bytes ++ [126, 62]).dropWhile (· ≠ 126) = [126, 62] :=
    List.dropWhile_append_of_pos hsymbols
  have htake : (encode bytes ++ [126, 62]).takeWhile (· ≠ 126) = encode bytes := by
    rw [List.takeWhile_append_of_pos hsymbols]
    exact List.append_nil _
  unfold decode
  rw [h]
  dsimp only
  rw [hdrop, htake]
  exact decodeBody_encode bytes

end Ascii85

end PsFilters
