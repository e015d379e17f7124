import Ppr.Lib.Ascii

/-!
# Quoted values of PPD files

A quoted value is text with hexadecimal substrings in it, each between `<` and `>`.  It is decoded in
place by `ppd_decode_QuotedValue()` of `readppd.c` and on the way to the printer by
`printer_puts_QuotedValue()` of `pprdrv_buf.c`; `quotedValue` says what it stands for.

The loop of the first over a substring does not step to the next character, so it ends only if there
is nothing in the substring or it overwrites the character it looks at with a NUL.
-/

namespace Ppr

/-! ## What a quoted value stands for -/

/-- The bytes a string of hexadecimal digits stands for. -/
def hexBytes : List Byte → List Byte
  | a :: b :: digits => BitVec.ofNat 8 (xdigitValue a * 16 + xdigitValue b) :: hexBytes digits
  | _ => []

/-- The bytes a quoted value stands for; in a substring, given the digits so far, the last one
first. -/
def quotedValue : Option (List Byte) → List Byte → List Byte
  | none, [] => []
  | some digits, [] => hexBytes digits.reverse
  | none, c :: s => if c = 60 then quotedValue (some []) s else c :: quotedValue none s
  | some digits, c :: s =>
    if c = 62 then hexBytes digits.reverse ++ quotedValue none s
    else if isxdigit c then quotedValue (some (c :: digits)) s
    else quotedValue (some digits) s

/-! ## Sending it to the printer -/

/-- What a character of a substring adds to a byte. -/
def hexLetter (c : CInt) : Option CInt :=
  if (48 : CInt).sle c && c.sle 57 then some (c - 48)
  else if (97 : CInt).sle c && c.sle 122 then some (c - 97 + 10)
  else if (65 : CInt).sle c && c.sle 90 then some (c - 65 + 10)
  else none

/-- Where in a quoted value `printer_puts_QuotedValue()` is. -/
inductive Place where
  | outside
  | first
  /-- After the first digit of a byte, with its value. -/
  | second (val : CInt)

/-- `printer_puts_QuotedValue()`: what it sends. -/
def printerPutsQuotedValue (signed : Bool) : Place → List Byte → List Byte
  | _, [] => []
  | .outside, c :: s =>
    if c ≠ 60 then c :: printerPutsQuotedValue signed .outside s
    else printerPutsQuotedValue signed .first s
  | .first, c :: s =>
    if c = 62 then printerPutsQuotedValue signed .outside s
    else
      match hexLetter (charToInt signed c) with
      | none => printerPutsQuotedValue signed .first s
      | some x => printerPutsQuotedValue signed (.second (x <<< 4)) s
  | .second val, c :: s =>
    if c = 62 then printerPutsQuotedValue signed .outside s
    else
      match hexLetter (charToInt signed c) with
      | none => printerPutsQuotedValue signed (.second val) s
      | some x => (val + x).setWidth 8 :: printerPutsQuotedValue signed .first s

/-! ## Decoding it in place -/

/-- What `ppd_decode_QuotedValue()` takes a character of a substring for. -/
def nibble (c : CInt) : Option CInt :=
  if (48 : CInt).sle c && c.sle 57 then some (c - 48)
  else if (97 : CInt).sle c && c.sle 102 then some (c - (97 + 10))
  else if (65 : CInt).sle c && c.sle 70 then some (c - (65 + 10))
  else none

/-- The memory and the variables of the loop over a substring. -/
structure HexState where
  p : ℕ → Byte
  di : ℕ
  count : ℕ
  highNibble : CInt

/-- What is done with a digit. -/
def HexState.digit (h : HexState) (v : CInt) : HexState :=
  if h.count % 2 = 0 then { h with highNibble := v, count := h.count + 1 }
  else
    { h with
      p := Function.update h.p h.di (((h.highNibble <<< 4) + v).setWidth 8)
      di := h.di + 1
      count := h.count + 1 }

/-- The loop over a substring. -/
def hexLoop (signed : Bool) (si : ℕ) : ℕ → HexState → Option HexState
  | 0, _ => none
  | fuel + 1, h =>
    let c := charToInt signed (h.p si)
    if c = 0 ∨ c = 62 then some h
    else
      match nibble c with
      | none => hexLoop signed si fuel h
      | some v => hexLoop signed si fuel (h.digit v)

/-- The loop over the string. -/
def decodeLoop (signed : Bool) (len : ℕ) : ℕ → (ℕ → Byte) → ℕ → ℕ → Option ((ℕ → Byte) × ℕ)
  | 0, _, _, _ => none
  | fuel + 1, p, si, di =>
    if si < len then
      if p si = 60 then do
        let h ← hexLoop signed (si + 1) fuel { p := p, di := di, count := 0, highNibble := 0 }
        decodeLoop signed len fuel h.p (si + 2) h.di
      else decodeLoop signed len fuel (Function.update p di (p si)) (si + 1) (di + 1)
    else some (p, di)

/-- `ppd_decode_QuotedValue()`: the string edited, and what is returned. -/
def ppdDecodeQuotedValue (signed : Bool) (fuel : ℕ) (block : List Byte) : Option (List Byte × ℕ) :=
  (decodeLoop signed (cstr block).length fuel (fun i => block.getD i 0) 0 0).map fun r =>
    ((List.range r.2).map r.1, r.2)

/-- The decoder returns, with the bytes that would be sent to the printer, which are those the value
stands for. -/
def Decoded (signed : Bool) (block : List Byte) : Prop :=
  ∃ fuel bytes len, ppdDecodeQuotedValue signed fuel block = some (bytes, len) ∧
    bytes = printerPutsQuotedValue signed .outside (cstr block) ∧
    bytes = quotedValue none (cstr block) ∧ len = bytes.length ∧ len ≤ (cstr block).length

/-- There is nothing in any substring. -/
def NoHex : List Byte → Prop
  | [] => True
  | c :: s => (c = 60 → s.head? = none ∨ s.head? = some 62) ∧ NoHex s

instance decidableNoHex : (s : List Byte) → Decidable (NoHex s)
  | [] => isTrue trivial
  | _ :: s =>
    have := decidableNoHex s
    inferInstanceAs (Decidable ((_ → _ ∨ _) ∧ _))

/-! ## The loop over a substring -/

theorem charToInt_eq : ∀ signed, ∀ c : Byte,
    (charToInt signed c = 0 ↔ c = 0) ∧ (charToInt signed c = 62 ↔ c = 62) := by
  decide +kernel

theorem nibble_zero (signed : Bool) : nibble (charToInt signed 48) = some 0 := by
  cases signed <;> decide

/-- The byte that is written for a character taken twice: for no digit but 0 does it end the
loop. -/
theorem twice_ne : ∀ signed, ∀ b : Byte, b ≠ 48 → (nibble (charToInt signed b)).all fun v : CInt =>
    ((v <<< 4) + v).setWidth 8 ≠ (0 : Byte) ∧ ((v <<< 4) + v).setWidth 8 ≠ (62 : Byte) := by
  decide +kernel

theorem hexLoop_done {signed : Bool} {si : ℕ} {h : HexState} (hp : h.p si = 0 ∨ h.p si = 62)
    (fuel : ℕ) : hexLoop signed si (fuel + 1) h = some h := by
  have hc := charToInt_eq signed (h.p si)
  exact if_pos (hp.imp hc.1.2 hc.2.2)

/-- The loop at a character that is neither the end nor the digit 0. -/
structure Stuck (signed : Bool) (si : ℕ) (b : Byte) (h : HexState) : Prop where
  goes : h.p si ≠ 0 ∧ h.p si ≠ 62
  same : h.di ≤ si → h.p si = b
  high : h.di ≤ si → h.count % 2 = 1 → nibble (charToInt signed b) = some h.highNibble

theorem Stuck.digit {signed : Bool} {si : ℕ} {b : Byte} (hb : b ≠ 48) {h : HexState}
    (hs : Stuck signed si b h) {v : CInt} (hv : nibble (charToInt signed (h.p si)) = some v) :
    Stuck signed si b (h.digit v) := by
  unfold HexState.digit
  split_ifs with hc
  · exact ⟨hs.goes, hs.same, fun hd _ => hs.same hd ▸ hv⟩
  · have hc : h.count % 2 = 1 := by omega
    by_cases hd : h.di = si
    · -- The loop overwrites the character it looks at.
      have he : h.highNibble = v := by
        have := hs.high hd.le hc
        rw [hs.same hd.le] at hv
        exact Option.some.inj (this.symm.trans hv)
      have hn := twice_ne signed b hb
      rw [← hs.same hd.le, hv, Option.all_some, decide_eq_true_eq] at hn
      refine ⟨?_, fun hle => ?_, fun hle => ?_⟩
      · dsimp only
        rw [hd, Function.update_self, he]
        exact hn
      · exact absurd hle (by dsimp only; omega)
      · exact absurd hle (by dsimp only; omega)
    · have hsame : Function.update h.p h.di (((h.highNibble <<< 4) + v).setWidth 8) si = h.p si :=
        Function.update_of_ne (Ne.symm hd) ..
      refine ⟨?_, fun hle => ?_, fun _ hodd => ?_⟩
      · dsimp only
        rw [hsame]
        exact hs.goes
      · dsimp only at hle ⊢
        rw [hsame]
        exact hs.same (by omega)
      · dsimp only at hodd
        omega

/-- The loop does not end. -/
theorem hexLoop_stuck {signed : Bool} {si : ℕ} {b : Byte} (hb : b ≠ 48) (fuel : ℕ) {h : HexState}
    (hs : Stuck signed si b h) : hexLoop signed si fuel h = none := by
  induction fuel generalizing h with
  | zero => rfl
  | succ n ih =>
    have hc := charToInt_eq signed (h.p si)
    have hgo : ¬ (charToInt signed (h.p si) = 0 ∨ charToInt signed (h.p si) = 62) := by
      rw [hc.1, hc.2, not_or]
      exact hs.goes
    rw [hexLoop, if_neg hgo]
    split
    · exact ih hs
    · rename_i v hv
      exact ih (hs.digit hb hv)

/-- At the digit 0 the loop writes NULs up to the digit. -/
theorem hexLoop_zero {signed : Bool} {si : ℕ} (fuel : ℕ) {h h' : HexState} (hp : h.p si = 48)
    (hd : h.di ≤ si) (hh : h.count % 2 = 1 → h.highNibble = 0)
    (hl : hexLoop signed si fuel h = some h') : h'.di = si + 1 ∧ ∀ j, si < j → h'.p j = h.p j := by
  induction fuel generalizing h with
  | zero => cases hl
  | succ n ih =>
    have hgo : ¬ (charToInt signed (h.p si) = 0 ∨ charToInt signed (h.p si) = 62) := by
      rw [(charToInt_eq signed _).1, (charToInt_eq signed _).2, hp]
      decide
    rw [hexLoop, if_neg hgo, hp, nibble_zero] at hl
    dsimp only [HexState.digit] at hl
    split_ifs at hl with hc
    · exact ih (h := { h with highNibble := 0, count := h.count + 1 }) hp hd (fun _ => rfl) hl
    · have hz : ((h.highNibble <<< 4) + 0).setWidth 8 = (0 : Byte) := by
        rw [hh (by omega)]
        decide
      rw [hz] at hl
      by_cases he : h.di = si
      · cases n with
        | zero => cases hl
        | succ m =>
          rw [hexLoop_done (by left; dsimp only; rw [he, Function.update_self])] at hl
          cases hl
          refine ⟨by dsimp only; omega, fun j hj => ?_⟩
          exact Function.update_of_ne (by omega) ..
      · have := ih (h := { h with p := Function.update h.p h.di 0, di := h.di + 1, count := h.count + 1 })
          (by dsimp only; rw [Function.update_of_ne (Ne.symm he), hp]) (by dsimp only; omega)
          (by dsimp only; omega) hl
        refine ⟨this.1, fun j hj => (this.2 j hj).trans ?_⟩
        exact Function.update_of_ne (by omega) ..

/-! ## What is written when the decoder returns -/

/-- From `si` on, the memory holds the string `s` and its NUL. -/
structure Holds (p : ℕ → Byte) (si len : ℕ) (s : List Byte) : Prop where
  len_eq : si + s.length = len
  chars : ∀ i ≤ s.length, p (si + i) = s.getD i 0
  ne_zero : 0 ∉ s

theorem Holds.head {p : ℕ → Byte} {si len : ℕ} {c : Byte} {s : List Byte}
    (h : Holds p si len (c :: s)) : p si = c := h.chars 0 (Nat.zero_le _)

theorem Holds.tail {p p' : ℕ → Byte} {si len : ℕ} {c : Byte} {s : List Byte}
    (h : Holds p si len (c :: s)) (hp : ∀ j, si < j → p' j = p j) : Holds p' (si + 1) len s where
  len_eq := by
    have := h.len_eq
    rw [List.length_cons] at this
    omega
  chars i hi := by
    rw [hp _ (by omega), Nat.add_assoc, Nat.add_comm 1]
    exact h.chars (i + 1) (Nat.succ_le_succ hi)
  ne_zero hm := h.ne_zero (List.mem_cons_of_mem c hm)

/-- A step over a character outside substrings. -/
theorem decodeLoop_plain {signed : Bool} {len fuel si di : ℕ} {p : ℕ → Byte} {c : Byte}
    {s : List Byte} (h : Holds p si len (c :: s)) (hc : c ≠ 60) :
    decodeLoop signed len (fuel + 1) p si di =
      decodeLoop signed len fuel (Function.update p di c) (si + 1) (di + 1) := by
  have := h.len_eq
  rw [List.length_cons] at this
  rw [decodeLoop, if_pos (by omega), h.head, if_neg hc]

/-- A step over a substring. -/
theorem decodeLoop_hex {signed : Bool} {len fuel si di : ℕ} {p : ℕ → Byte} {s : List Byte}
    (h : Holds p si len (60 :: s)) : decodeLoop signed len (fuel + 1) p si di =
      (hexLoop signed (si + 1) fuel { p := p, di := di, count := 0, highNibble := 0 }).bind
        fun h => decodeLoop signed len fuel h.p (si + 2) h.di := by
  have := h.len_eq
  rw [List.length_cons] at this
  rw [decodeLoop, if_pos (by omega), if_pos h.head]
  rfl

theorem decodeLoop_end {signed : Bool} {len fuel si di : ℕ} {p : ℕ → Byte} (h : len ≤ si) :
    decodeLoop signed len (fuel + 1) p si di = some (p, di) := by
  rw [decodeLoop, if_neg (by omega)]

/-- In one step over a character the printer is sent one byte at most. -/
theorem length_puts_cons (signed : Bool) (c : Byte) (s : List Byte) {n : ℕ}
    (h : ∀ place, (printerPutsQuotedValue signed place s).length ≤ n) (place : Place) :
    (printerPutsQuotedValue signed place (c :: s)).length ≤ n + 1 := by
  cases place with
  | outside =>
    rw [printerPutsQuotedValue]
    split_ifs
    · exact Nat.succ_le_succ (h _)
    · exact (h _).trans (Nat.le_succ n)
  | first =>
    rw [printerPutsQuotedValue]
    split_ifs
    · exact (h _).trans (Nat.le_succ n)
    · split <;> exact (h _).trans (Nat.le_succ n)
  | second val =>
    rw [printerPutsQuotedValue]
    split_ifs
    · exact (h _).trans (Nat.le_succ n)
    · split
      · exact (h _).trans (Nat.le_succ n)
      · exact Nat.succ_le_succ (h _)

theorem hexLetter_lt (signed : Bool) : hexLetter (charToInt signed 60) = none := by
  cases signed <;> decide

/-- At the beginning of a substring nothing is sent. -/
theorem length_puts_hex (signed : Bool) (s : List Byte) {n : ℕ}
    (h : ∀ place, (printerPutsQuotedValue signed place s).length ≤ n) (place : Place) :
    (printerPutsQuotedValue signed place (60 :: s)).length ≤ n := by
  cases place with
  | outside => exact h _
  | first | second val =>
    rw [printerPutsQuotedValue, if_neg (by decide), hexLetter_lt]
    exact h _

/-- What the decoder writes is as long as what the printer would be sent, and longer if there is
something in a substring. -/
theorem length_decodeLoop {signed : Bool} {len : ℕ} (fuel : ℕ) {p p' : ℕ → Byte} {si di di' : ℕ}
    {s : List Byte} (h : Holds p si len s) (hd : di ≤ si)
    (hl : decodeLoop signed len fuel p si di = some (p', di')) :
    (∀ place, (printerPutsQuotedValue signed place s).length ≤ di' - di) ∧ di ≤ di' ∧
      (¬ NoHex s → (printerPutsQuotedValue signed .outside s).length < di' - di) := by
  induction fuel generalizing p si di s with
  | zero => cases hl
  | succ n ih =>
    cases s with
    | nil =>
      rw [decodeLoop_end (show len ≤ si from h.len_eq.ge)] at hl
      cases hl
      refine ⟨fun place => ?_, le_rfl, fun hn => absurd trivial hn⟩
      cases place <;> exact Nat.zero_le _
    | cons c s =>
      by_cases hc : c ≠ 60
      · rw [decodeLoop_plain h hc] at hl
        obtain ⟨hp, hle, hs⟩ := ih
          (h.tail fun j hj => Function.update_of_ne (by omega : j ≠ di) ..) (by omega) hl
        refine ⟨fun place => ?_, by omega, fun hn => ?_⟩
        · have := length_puts_cons signed c s hp place
          omega
        · have hn : ¬ NoHex s := fun h => hn ⟨fun e => absurd e hc, h⟩
          have := hs hn
          rw [printerPutsQuotedValue, if_pos hc, List.length_cons]
          omega
      · obtain rfl : c = 60 := not_not.1 hc
        rw [decodeLoop_hex h] at hl
        obtain ⟨h', hh, hl⟩ := Option.bind_eq_some_iff.1 hl
        have ht := h.tail fun j _ => rfl
        cases s with
        | nil =>
          -- The substring is the end of the string.
          cases n with
          | zero => cases hh
          | succ m =>
            rw [hexLoop_done (.inl (ht.chars 0 le_rfl))] at hh
            cases hh
            have := h.len_eq
            rw [decodeLoop_end (by simp at this; omega)] at hl
            cases hl
            refine ⟨fun place => ?_, le_rfl, fun hn => absurd ⟨fun _ => .inl rfl, trivial⟩ hn⟩
            exact length_puts_hex signed [] (fun place => by cases place <;> exact Nat.zero_le _)
              place
        | cons b s =>
          by_cases hb0 : b = 62
          · subst hb0
            cases n with
            | zero => cases hh
            | succ m =>
              rw [hexLoop_done (.inr ht.head)] at hh
              cases hh
              obtain ⟨hp, hle, hs⟩ := ih (ht.tail fun j _ => rfl) (hd.trans (Nat.le_add_right si 2)) hl
              have hput : ∀ place, printerPutsQuotedValue signed place (60 :: 62 :: s) =
                  printerPutsQuotedValue signed .outside s := by
                intro place
                cases place with
                | outside => rfl
                | first | second val =>
                  rw [printerPutsQuotedValue, if_neg (by decide), hexLetter_lt]
                  rfl
              refine ⟨fun place => ?_, hle, fun hn => ?_⟩
              · rw [hput]
                exact hp _
              · rw [hput]
                refine hs fun h => hn ⟨fun _ => .inr rfl, fun e => ?_, h⟩
                cases e
          · have hz : b ≠ 0 := fun e => h.ne_zero (by simp [e])
            by_cases hb : b = 48
            · subst hb
              obtain ⟨hdi, hsame⟩ := hexLoop_zero n ht.head (by dsimp only; omega) (fun _ => rfl) hh
              obtain ⟨hp, hle, -⟩ := ih (ht.tail hsame) hdi.le hl
              have hlen := length_puts_hex signed _ (length_puts_cons signed 48 s hp)
              refine ⟨fun place => ?_, by omega, fun _ => ?_⟩
              · have := hlen place
                omega
              · -- The digit alone is nothing to send.
                have he : printerPutsQuotedValue signed .outside (60 :: 48 :: s) =
                    printerPutsQuotedValue signed (.second 0) s := by
                  cases signed <;> rfl
                have := hp (.second 0)
                rw [he]
                omega
            · have hstuck : Stuck signed (si + 1) b { p := p, di := di, count := 0, highNibble := 0 } :=
                { goes := ⟨fun e => hz (ht.head.symm.trans e), fun e => hb0 (ht.head.symm.trans e)⟩
                  same := fun _ => ht.head
                  high := fun _ h => by cases h }
              rw [hexLoop_stuck hb n hstuck] at hh
              cases hh

/-! ## Strings without hexadecimal substrings -/

theorem range_map_update (p : ℕ → Byte) (di : ℕ) (c : Byte) :
    (List.range (di + 1)).map (Function.update p di c) = (List.range di).map p ++ [c] := by
  rw [List.range_succ, List.map_append, List.map_singleton, Function.update_self]
  congr 1
  refine List.map_congr_left fun j hj => ?_
  exact Function.update_of_ne (List.mem_range.1 hj).ne ..

/-- Without substrings the decoder writes what the printer would be sent. -/
theorem decodeLoop_noHex (signed : Bool) {len : ℕ} {s : List Byte} (hs : NoHex s) (fuel : ℕ)
    (hf : s.length + 1 < fuel) {p : ℕ → Byte} {si di : ℕ} (h : Holds p si len s) (hd : di ≤ si) :
    ∃ p' di', decodeLoop signed len fuel p si di = some (p', di') ∧
      (List.range di').map p' =
        (List.range di).map p ++ printerPutsQuotedValue signed .outside s := by
  induction fuel generalizing p si di s with
  | zero => omega
  | succ n ih =>
    cases s with
    | nil =>
      refine ⟨p, di, decodeLoop_end (show len ≤ si from h.len_eq.ge), ?_⟩
      rw [printerPutsQuotedValue, List.append_nil]
    | cons c s =>
      rw [List.length_cons] at hf
      by_cases hc : c ≠ 60
      · rw [decodeLoop_plain h hc]
        have ht : Holds (Function.update p di c) (si + 1) len s :=
          h.tail fun j hj => Function.update_of_ne (by omega : j ≠ di) ..
        obtain ⟨p', di', hl, he⟩ := ih hs.2 (by omega) ht (by omega : di + 1 ≤ si + 1)
        refine ⟨p', di', hl, ?_⟩
        rw [he, range_map_update, printerPutsQuotedValue, if_pos hc, List.append_assoc]
        rfl
      · obtain rfl : c = 60 := not_not.1 hc
        rw [decodeLoop_hex h]
        have ht := h.tail fun j _ => rfl
        obtain ⟨m, rfl⟩ : ∃ m, n = m + 1 := ⟨n - 1, by omega⟩
        cases s with
        | nil =>
          have := h.len_eq
          rw [hexLoop_done (.inl (ht.chars 0 le_rfl)), Option.bind_some,
            decodeLoop_end (by simp at this; omega)]
          exact ⟨p, di, rfl, (List.append_nil _).symm⟩
        | cons b s =>
          obtain rfl : b = 62 := by simpa using hs.1 rfl
          rw [hexLoop_done (.inr ht.head), Option.bind_some]
          rw [List.length_cons] at hf
          exact ih hs.2.2 (by omega) (ht.tail fun j _ => rfl) (hd.trans (Nat.le_add_right si 2))

/-- Without substrings the printer is sent what the value stands for. -/
theorem puts_noHex (signed : Bool) : ∀ {s : List Byte}, NoHex s →
    printerPutsQuotedValue signed .outside s = quotedValue none s ∧
      (quotedValue none s).length ≤ s.length
  | [], _ => ⟨rfl, le_rfl⟩
  | c :: s, hs => by
    by_cases hc : c = 60
    · subst hc
      match s, hs with
      | [], _ => exact ⟨rfl, Nat.zero_le _⟩
      | b :: s, hs =>
        obtain rfl : b = 62 := by simpa using hs.1 rfl
        have ih := puts_noHex signed hs.2.2
        exact ⟨ih.1, ih.2.trans (Nat.le_add_right _ 2)⟩
    · have ih := puts_noHex signed hs.2
      rw [printerPutsQuotedValue, if_pos hc, quotedValue, if_neg hc, ih.1]
      exact ⟨rfl, Nat.succ_le_succ ih.2⟩

theorem holds_cstr (block : List Byte) :
    Holds (fun i => block.getD i 0) 0 (cstr block).length (cstr block) where
  len_eq := Nat.zero_add _
  chars i hi := by
    rw [Nat.zero_add]
    induction block generalizing i with
    | nil => rfl
    | cons c block ih =>
      by_cases hc : c = 0
      · subst hc
        rw [Nat.le_zero.1 hi]
        rfl
      · have hs : cstr (c :: block) = c :: cstr block :=
          List.takeWhile_cons_of_pos (decide_eq_true hc)
        rw [hs] at hi ⊢
        cases i with
        | zero => rfl
        | succ i => exact ih i (Nat.le_of_succ_le_succ hi)
  ne_zero hm := by simpa using List.mem_takeWhile_imp hm

theorem not_decoded_of_hex (signed : Bool) {block : List Byte} (hs : ¬ NoHex (cstr block)) :
    ¬ Decoded signed block := by
  rintro ⟨fuel, bytes, len, hl, hb, -, hlen, -⟩
  obtain ⟨⟨p, di⟩, hloop, he⟩ := Option.map_eq_some_iff.1 hl
  cases he
  have hlt := (length_decodeLoop fuel (holds_cstr block) le_rfl hloop).2.2 hs
  rw [← hb] at hlt
  simp at hlt

/-- The decoder does what it should if and only if there is nothing in any hexadecimal
substring. -/
theorem decoded_iff_noHex (signed : Bool) (block : List Byte) :
    Decoded signed block ↔ NoHex (cstr block) := by
  refine ⟨fun h => not_not.1 fun hs => not_decoded_of_hex signed hs h, fun hs => ?_⟩
  obtain ⟨p, di, hl, he⟩ := decodeLoop_noHex signed hs ((cstr block).length + 2) (by omega)
    (holds_cstr block) le_rfl
  rw [List.range_zero, List.map_nil, List.nil_append] at he
  obtain ⟨hput, hle⟩ := puts_noHex signed hs
  have hdi : di = (quotedValue none (cstr block)).length := by
    rw [← hput, ← he, List.length_map, List.length_range]
  refine ⟨(cstr block).length + 2, _, di, ?_, he, he.trans hput, ?_, hdi ▸ hle⟩
  · rw [ppdDecodeQuotedValue, hl]
    rfl
  · rw [List.length_map, List.length_range]

/-- "<41>" is the letter A. -/
theorem hex_not_decoded : ¬Decoded true (ascii "<41>") ∧ ¬Decoded false (ascii "<41>") :=
  ⟨not_decoded_of_hex true (by decide), not_decoded_of_hex false (by decide)⟩

end Ppr
