import Ppr.Lib.Ascii
import Ppr.Lib.Lists

/-!
# Strings for the PostScript interpreter

`printer_puts_escaped()` of `pprdrv_buf.c`, and the scanner of a PostScript interpreter that reads
what it has sent.  The scanner is an automaton, so that what it makes of a piece of text is found by
running it over the piece (`Feeds`).

Where `char` is signed, a byte of 128 or more is written as a negative number: its eleven octal
digits are read as one byte and eight more.
-/

namespace Ppr.Pprdrv

/-! ## Writing -/

/-- "%.3o": the eleven digits of an `int`, less leading zeros as long as there are more than three. -/
def octal (n : CInt) : List Byte :=
  let digits := (List.range 11).reverse.map fun i => BitVec.ofNat 8 (48 + n.toNat / 8 ^ i % 8)
  (digits.take 8).dropWhile (· = 48) ++ digits.drop 8

/-- `printer_putc_escaped()`: what is sent. -/
def printerPutcEscaped (c : CInt) : List Byte :=
  if c = 40 ∨ c = 41 ∨ c = 0x5C then [0x5C, c.setWidth 8]
  else if (32 : CInt).sle c && c.slt 127 then [c.setWidth 8]
  else 0x5C :: octal c

/-- `printer_puts_escaped()`. -/
def printerPutsEscaped (signed : Bool) (str : List Byte) : List Byte :=
  (cstr str).flatMap fun c => printerPutcEscaped (charToInt signed c)

/-! ## Reading -/

/-- Where in a string the scanner is. -/
inductive StringMode where
  | plain
  /-- After a backslash. -/
  | escape
  /-- After a backslash and this many octal digits with this value. -/
  | octal (digits value : ℕ)
  /-- After a carriage return. -/
  | cr
  deriving DecidableEq

/-- What a character does: bytes of the string, and either its end or another state.  The number is
that of parentheses within the string that are open. -/
inductive Scanned where
  | stop (bytes : List Byte)
  | go (bytes : List Byte) (mode : StringMode) (depth : ℕ)
  deriving DecidableEq

def Scanned.prepend (b : Byte) : Scanned → Scanned
  | .stop bytes => .stop (b :: bytes)
  | .go bytes mode depth => .go (b :: bytes) mode depth

/-- A character that no backslash precedes. -/
def scanPlain (depth : ℕ) (c : Byte) : Scanned :=
  if c = 0x5C then .go [] .escape depth
  else if c = 40 then .go [c] .plain (depth + 1)
  else if c = 41 then if depth = 0 then .stop [] else .go [c] .plain (depth - 1)
  else if c = 13 then .go [10] .cr depth
  else .go [c] .plain depth

def isOctal (c : Byte) : Bool := 48 ≤ c.toNat && c.toNat ≤ 55

/-- The character after a backslash. -/
def scanEscape (depth : ℕ) (c : Byte) : Scanned :=
  if isOctal c then .go [] (.octal 1 (c.toNat - 48)) depth
  else if c = 110 then .go [10] .plain depth
  else if c = 114 then .go [13] .plain depth
  else if c = 116 then .go [9] .plain depth
  else if c = 98 then .go [8] .plain depth
  else if c = 102 then .go [12] .plain depth
  else if c = 13 then .go [] .cr depth
  else if c = 10 then .go [] .plain depth
  else .go [c] .plain depth

/-- One character of a string.  An octal number has three digits at most, and is taken modulo 256. -/
def scanChar (depth : ℕ) (c : Byte) : StringMode → Scanned
  | .plain => scanPlain depth c
  | .escape => scanEscape depth c
  | .cr => if c = 10 then .go [] .plain depth else scanPlain depth c
  | .octal digits value =>
    if isOctal c then
      let value := value * 8 + (c.toNat - 48)
      if digits = 2 then .go [BitVec.ofNat 8 value] .plain depth
      else .go [] (.octal (digits + 1) value) depth
    else (scanPlain depth c).prepend (BitVec.ofNat 8 value)

/-- The rest of a string, and what follows it. -/
def scanString (mode : StringMode) (depth : ℕ) : List Byte → Option (List Byte × List Byte)
  | [] => none
  | c :: l =>
    match scanChar depth c mode with
    | .stop bytes => some (bytes, l)
    | .go bytes mode depth => (scanString mode depth l).map fun r => (bytes ++ r.1, r.2)

/-- The string at the beginning of the text, and what follows it. -/
def scanLiteral : List Byte → Option (List Byte × List Byte)
  | [] => none
  | c :: l => if c = 40 then scanString .plain 0 l else none

/-! ## Pieces of text -/

/-- What a piece of text does if the string does not end in it. -/
def feed (mode : StringMode) (depth : ℕ) : List Byte → Option (List Byte × StringMode × ℕ)
  | [] => some ([], mode, depth)
  | c :: l =>
    match scanChar depth c mode with
    | .stop _ => none
    | .go bytes mode depth => (feed mode depth l).map fun r => (bytes ++ r.1, r.2)

theorem scanString_append {mode mode' : StringMode} {depth depth' : ℕ} {w bytes : List Byte}
    (h : feed mode depth w = some (bytes, mode', depth')) (l : List Byte) :
    scanString mode depth (w ++ l) =
      (scanString mode' depth' l).map fun r => (bytes ++ r.1, r.2) := by
  induction w generalizing mode depth bytes with
  | nil =>
    cases h
    simp
  | cons c w ih =>
    rw [feed] at h
    rw [List.cons_append, scanString]
    split at h
    · cases h
    · rename_i b m d hc
      obtain ⟨⟨bs, m', d'⟩, hw, he⟩ := Option.map_eq_some_iff.1 h
      cases he
      rw [ih hw, Option.map_map]
      simp [Function.comp_def]

/-- What a byte that has been written is read as. -/
def readBack (signed : Bool) (c : Byte) : List Byte :=
  if signed = true ∧ 128 ≤ c.toNat then
    255 :: List.replicate 5 55 ++ [c.toNat / 64 + 4, c.toNat / 8 % 8, c.toNat % 8].map
      fun d => BitVec.ofNat 8 (48 + d)
  else [c]

/-- A number below 512 has three digits. -/
theorem octal_of_lt {n : CInt} (h : n.toNat < 512) :
    octal n = [.ofNat 8 (48 + n.toNat / 64), .ofNat 8 (48 + n.toNat / 8 % 8), .ofNat 8 (48 + n.toNat % 8)] := by
  have hdigits : (List.range 11).reverse = [10, 9, 8, 7, 6, 5, 4, 3, 2, 1, 0] := rfl
  have h10 : n.toNat / 1073741824 % 8 = 0 := by omega
  have h9 : n.toNat / 134217728 % 8 = 0 := by omega
  have h8 : n.toNat / 16777216 % 8 = 0 := by omega
  have h7 : n.toNat / 2097152 % 8 = 0 := by omega
  have h6 : n.toNat / 262144 % 8 = 0 := by omega
  have h5 : n.toNat / 32768 % 8 = 0 := by omega
  have h4 : n.toNat / 4096 % 8 = 0 := by omega
  have h3 : n.toNat / 512 % 8 = 0 := by omega
  have h2 : n.toNat / 64 % 8 = n.toNat / 64 := by omega
  rw [octal, hdigits]
  norm_num [h10, h9, h8, h7, h6, h5, h4, h3, h2]
  rfl

/-- A negative character has eleven digits. -/
theorem octal_of_negative {n : CInt} {c : ℕ} (h : n.toNat = 4294967040 + c) (_ : c < 256) :
    octal n = 51 :: (List.replicate 7 55 ++
      [.ofNat 8 (48 + (c / 64 + 4)), .ofNat 8 (48 + c / 8 % 8), .ofNat 8 (48 + c % 8)]) := by
  have hdigits : (List.range 11).reverse = [10, 9, 8, 7, 6, 5, 4, 3, 2, 1, 0] := rfl
  have h10 : n.toNat / 1073741824 % 8 = 3 := by omega
  have h9 : n.toNat / 134217728 % 8 = 7 := by omega
  have h8 : n.toNat / 16777216 % 8 = 7 := by omega
  have h7 : n.toNat / 2097152 % 8 = 7 := by omega
  have h6 : n.toNat / 262144 % 8 = 7 := by omega
  have h5 : n.toNat / 32768 % 8 = 7 := by omega
  have h4 : n.toNat / 4096 % 8 = 7 := by omega
  have h3 : n.toNat / 512 % 8 = 7 := by omega
  have h2 : n.toNat / 64 % 8 = c / 64 + 4 := by omega
  have h1 : n.toNat / 8 % 8 = c / 8 % 8 := by omega
  have h0 : n.toNat % 8 = c % 8 := by omega
  rw [octal, hdigits]
  norm_num [h10, h9, h8, h7, h6, h5, h4, h3, h2, h1, h0, List.replicate]
  rfl

theorem isOctal_digit {d : ℕ} (h : d < 8) : isOctal (.ofNat 8 (48 + d)) = true ∧ (BitVec.ofNat 8 (48 + d)).toNat - 48 = d := by
  have hnat : (BitVec.ofNat 8 (48 + d)).toNat = 48 + d := by
    rw [BitVec.toNat_ofNat, Nat.mod_eq_of_lt (by omega)]
  rw [isOctal, hnat]
  exact ⟨by simp; omega, by omega⟩

/-- A backslash and three digits are one byte. -/
theorem feed_octal {x y z : Byte} (hx : isOctal x = true) (hy : isOctal y = true) (hz : isOctal z = true) (l : List Byte) :
    feed .plain 0 (0x5C :: x :: y :: z :: l) =
      (feed .plain 0 l).map fun r =>
        (.ofNat 8 (((x.toNat - 48) * 8 + (y.toNat - 48)) * 8 + (z.toNat - 48)) :: r.1, r.2) := by
  simp [feed, scanChar, scanPlain, scanEscape, hx, hy, hz, Option.map_map, Function.comp_def]

/-- A character without a meaning of its own. -/
theorem feed_plain {c : Byte} (hc : c ≠ 0x5C ∧ c ≠ 40 ∧ c ≠ 41 ∧ c ≠ 13) (l : List Byte) :
    feed .plain 0 (c :: l) = (feed .plain 0 l).map fun r => (c :: r.1, r.2) := by
  rw [feed, scanChar, scanPlain, if_neg hc.1, if_neg hc.2.1, if_neg hc.2.2.1, if_neg hc.2.2.2]
  rfl

theorem digit_plain {d : ℕ} (h : d < 8) : (.ofNat 8 (48 + d) : Byte) ≠ 0x5C ∧
    (.ofNat 8 (48 + d) : Byte) ≠ 40 ∧ (.ofNat 8 (48 + d) : Byte) ≠ 41 ∧ (.ofNat 8 (48 + d) : Byte) ≠ 13 := by
  interval_cases d <;> decide

theorem printerPutcEscaped_negative {n : CInt} {c : ℕ} (h : n.toNat = 4294967040 + c) (h128 : 128 ≤ c) :
    printerPutcEscaped n = 0x5C :: octal n := by
  have hn : ∀ k : ℕ, k < 256 → n ≠ BitVec.ofNat 32 k := by
    intro k hk he
    rw [he, BitVec.toNat_ofNat] at h
    omega
  have hint : n.toInt < 0 := by
    rw [BitVec.toInt_eq_toNat_cond, h]
    split_ifs <;> omega
  have hsle : (32 : CInt).sle n = false := by
    rw [BitVec.sle_eq_decide]
    have h32 : (32 : CInt).toInt = 32 := by decide
    exact decide_eq_false (by omega)
  rw [printerPutcEscaped, if_neg, if_neg]
  · rw [hsle]
    exact Bool.false_ne_true
  · rintro (he | he | he)
    · exact hn 40 (by omega) he
    · exact hn 41 (by omega) he
    · exact hn 92 (by omega) he

theorem feed_negative {n : CInt} {c : ℕ} (h : n.toNat = 4294967040 + c) (h128 : 128 ≤ c) (hc : c < 256) :
    feed .plain 0 (printerPutcEscaped n) =
      some (255 :: List.replicate 5 55 ++
        [.ofNat 8 (48 + (c / 64 + 4)), .ofNat 8 (48 + c / 8 % 8), .ofNat 8 (48 + c % 8)], .plain, 0) := by
  have hseven : ∀ l, feed .plain 0 ((55 : Byte) :: l) = (feed .plain 0 l).map fun r => (55 :: r.1, r.2) :=
    feed_plain (by decide)
  rw [printerPutcEscaped_negative h h128, octal_of_negative h hc]
  show feed .plain 0 [0x5C, 51, 55, 55, 55, 55, 55, 55, 55, .ofNat 8 (48 + (c / 64 + 4)), .ofNat 8 (48 + c / 8 % 8),
    .ofNat 8 (48 + c % 8)] = _
  rw [feed_octal (by decide) (by decide) (by decide), hseven, hseven, hseven, hseven, hseven,
    feed_plain (digit_plain (by omega)), feed_plain (digit_plain (by omega)), feed_plain (digit_plain (by omega))]
  rfl

theorem feed_nonnegative (c : Byte) :
    feed .plain 0 (printerPutcEscaped (c.setWidth 32)) = some ([c], .plain, 0) := by
  have hlt := c.isLt
  have hnat : (c.setWidth 32 : CInt).toNat = c.toNat := by
    rw [BitVec.toNat_setWidth, Nat.mod_eq_of_lt (by omega)]
  have hback : ((c.setWidth 32 : CInt).setWidth 8) = c := by
    apply BitVec.eq_of_toNat_eq
    rw [BitVec.toNat_setWidth, hnat, Nat.mod_eq_of_lt hlt]
  have heq : ∀ k : ℕ, k < 256 → ((c.setWidth 32 : CInt) = BitVec.ofNat 32 k ↔ c = BitVec.ofNat 8 k) := by
    intro k hk
    rw [← BitVec.toNat_inj, ← BitVec.toNat_inj, hnat, BitVec.toNat_ofNat, BitVec.toNat_ofNat,
      Nat.mod_eq_of_lt (by omega), Nat.mod_eq_of_lt (by omega)]
  have hspecial : ((c.setWidth 32 : CInt) = 40 ∨ (c.setWidth 32 : CInt) = 41 ∨ (c.setWidth 32 : CInt) = 0x5C) ↔
      c = 40 ∨ c = 41 ∨ c = 0x5C := or_congr (heq 40 (by omega)) (or_congr (heq 41 (by omega)) (heq 92 (by omega)))
  rw [printerPutcEscaped, hback]
  by_cases hescape : c = 40 ∨ c = 41 ∨ c = 0x5C
  · rw [if_pos (hspecial.2 hescape)]
    rcases hescape with rfl | rfl | rfl <;> rfl
  · rw [if_neg fun h => hescape (hspecial.1 h)]
    simp only [not_or] at hescape
    split_ifs with hprint
    · have hcr : c ≠ 13 := by
        rintro rfl
        exact absurd hprint (by decide)
      rw [feed_plain ⟨hescape.2.2, hescape.1, hescape.2.1, hcr⟩]
      rfl
    · rw [octal_of_lt (by omega), hnat]
      have h1 := isOctal_digit (by omega : c.toNat / 64 < 8)
      have h2 := isOctal_digit (by omega : c.toNat / 8 % 8 < 8)
      have h3 := isOctal_digit (by omega : c.toNat % 8 < 8)
      rw [feed_octal h1.1 h2.1 h3.1, h1.2, h2.2, h3.2]
      have hvalue : (c.toNat / 64 * 8 + c.toNat / 8 % 8) * 8 + c.toNat % 8 = c.toNat := by omega
      rw [hvalue, BitVec.ofNat_toNat]
      simp [feed]

theorem feed_printerPutcEscaped (signed : Bool) (c : Byte) :
    feed .plain 0 (printerPutcEscaped (charToInt signed c)) =
      some (readBack signed c, .plain, 0) := by
  have hlt := c.isLt
  by_cases hneg : signed = true ∧ 128 ≤ c.toNat
  · have hmsb : c.msb = true := by
      rw [BitVec.msb_eq_decide]
      exact decide_eq_true hneg.2
    have hnat : (charToInt signed c).toNat = 4294967040 + c.toNat := by
      rw [charToInt, if_pos hneg.1, BitVec.toNat_signExtend, hmsb, BitVec.toNat_setWidth, Nat.mod_eq_of_lt (by omega)]
      norm_num
      omega
    rw [feed_negative hnat hneg.2 hlt, readBack, if_pos hneg]
    rfl
  · have hwide : charToInt signed c = c.setWidth 32 := by
      cases signed with
      | false => rfl
      | true =>
        have hmsb : c.msb = false := by
          rw [BitVec.msb_eq_decide]
          exact decide_eq_false fun h => hneg ⟨rfl, h⟩
        exact BitVec.signExtend_eq_setWidth_of_msb_false hmsb
    rw [hwide, feed_nonnegative, readBack, if_neg hneg]

theorem scanString_escaped (signed : Bool) (l rest : List Byte) :
    scanString .plain 0
        (l.flatMap (fun c => printerPutcEscaped (charToInt signed c)) ++ 41 :: rest) =
      some (l.flatMap (readBack signed), rest) := by
  induction l with
  | nil => rfl
  | cons c l ih =>
    rw [List.flatMap_cons, List.append_assoc,
      scanString_append (feed_printerPutcEscaped signed c), ih]
    rfl

/-- What is sent between parentheses is read as one string with the same bytes. -/
def ReadBack (signed : Bool) (str : List Byte) : Prop :=
  ∀ rest, scanLiteral (40 :: (printerPutsEscaped signed str ++ 41 :: rest)) = some (cstr str, rest)

theorem readBack_eq_iff {signed : Bool} {c : Byte} :
    readBack signed c = [c] ↔ signed = false ∨ c.toNat < 128 := by
  unfold readBack
  split_ifs with h
  · refine iff_of_false (fun he => ?_) fun hc => ?_
    · have hlen := congrArg List.length he
      simp at hlen
    · rcases hc with hc | hc
      · exact absurd h.1 (by simp [hc])
      · omega
  · rw [not_and_or, not_le] at h
    exact iff_of_true rfl (h.imp_left (Bool.eq_false_of_not_eq_true ·))

/-- A string is read back unless it has a byte of 128 or more and `char` is signed. -/
theorem escaped_read_back (signed : Bool) (str : List Byte) :
    ReadBack signed str ↔ signed = false ∨ ∀ c ∈ cstr str, c.toNat < 128 := by
  have hread : ReadBack signed str ↔ (cstr str).flatMap (readBack signed) = (cstr str).map id := by
    have h := scanString_escaped signed (cstr str)
    rw [List.map_id]
    refine ⟨fun hr => ?_, fun he rest => ?_⟩
    · have := (h []).symm.trans (hr [])
      exact (Prod.ext_iff.1 (Option.some.inj this)).1
    · exact (h rest).trans (by rw [he])
  rw [hread, List.flatMap_eq_map_iff_of_pos fun c _ => ?_]
  · simp only [id, readBack_eq_iff]
    cases signed <;> simp
  · unfold readBack
    split_ifs <;> simp

/-- The letter é of Latin-1. -/
theorem eacute_not_read_back : ¬ ReadBack true [0xE9] := by
  intro h
  have := h []
  revert this
  decide

end Ppr.Pprdrv
