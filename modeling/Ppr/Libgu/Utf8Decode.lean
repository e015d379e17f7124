import Ppr.Lib.Reading

/-!
# Decoding UTF-8

`gu_utf8_sgetwc()`.  The encodings are those with up to six bytes; each has the shortest form that its
value allows.
-/

namespace Ppr.Utf8

/-- `INVALID_CHAR`. -/
def invalidChar : ℕ := 63

/-- `gu_sgetc()`; the string ends at a NUL. -/
def guSgetc : List Byte → Option (Byte × List Byte)
  | [] => none
  | c :: l => if c = 0 then none else some (c, l)

/-- What a first byte gives to the character, and `additional_bytes`. -/
def firstByte (c : ℕ) : Option (ℕ × ℕ) :=
  if c &&& 0xE0 = 0xC0 then some (c &&& 0x1F, 1)
  else if c &&& 0xF0 = 0xE0 then some (c &&& 0x0F, 2)
  else if c &&& 0xF8 = 0xF0 then some (c &&& 0x07, 3)
  else if c &&& 0xFC = 0xF8 then some (c &&& 0x03, 4)
  else if c &&& 0xFE = 0xFC then some (c &&& 0x01, 5)
  else none

/-- The loop over the additional bytes.  An error is what the function returns from it. -/
def additionalBytes (get : List Byte → Option (Byte × List Byte)) : ℕ → ℕ → List Byte → Except ℕ ℕ × List Byte
  | 0, c, s => (.ok c, s)
  | n + 1, c, s =>
    match get s with
    | none => (.error 0, s)
    | some (ca, s) =>
      if ca.toNat &&& 0xC0 ≠ 0x80 then (.error invalidChar, s)
      else additionalBytes get n (c <<< 6 ||| ca.toNat &&& 0x3F) s

/-- The largest character that has too many bytes. -/
def overlong : ℕ → Option ℕ
  | 2 => some 0x7F
  | 3 => some 0x7FF
  | 4 => some 0xFFFF
  | 5 => some 0x1FFFFF
  | 6 => some 0x3FFFFFF
  | _ => none

/-- What comes behind the loop: the detection of overlong sequences and of forbidden characters. -/
def checkCharacter (n : ℕ) : Except ℕ ℕ × List Byte → ℕ × List Byte
  | (.error r, s) => (r, s)
  | (.ok c, s) =>
    if (overlong (1 + n)).any (c ≤ ·) then (invalidChar, s)
    else if 0xD800 ≤ c ∧ c ≤ 0xDFFF then (invalidChar, s)
    else if c = 0xFFFE ∨ c = 0xFFFF then (invalidChar, s)
    else (c, s)

/-- `gu_utf8_getwc()`: the character, and what is left of what is read with `get`. -/
def guUtf8Getwc (get : List Byte → Option (Byte × List Byte)) (s : List Byte) : ℕ × List Byte :=
  match get s with
  | none => (0, s)
  | some (c, s) =>
    if c.toNat &&& 0x80 = 0 then (c.toNat, s)
    else
      match firstByte c.toNat with
      | none => (invalidChar, s)
      | some (c, n) => checkCharacter n (additionalBytes get n c s)

/-- `gu_utf8_sgetwc()`. -/
def guUtf8Sgetwc (s : List Byte) : ℕ × List Byte := guUtf8Getwc guSgetc s

/-- The characters up to the first 0, if it comes after so many calls. -/
def reads : ℕ → List Byte → Option (List ℕ)
  | 0, _ => none
  | fuel + 1, s =>
    if (guUtf8Sgetwc s).1 = 0 then some []
    else (reads fuel (guUtf8Sgetwc s).2).map ((guUtf8Sgetwc s).1 :: ·)

/-- Repeated `gu_utf8_sgetwc()`. -/
def decode (s : List Byte) : Option (List ℕ) := reads (s.length + 1) s

/-! ## Encodings -/

/-- The forms of the encodings: what the first byte stands for, and how many bytes follow it. -/
def form (b : ℕ) : Option (ℕ × ℕ) :=
  if 0xC0 ≤ b ∧ b < 0xE0 then some (b - 0xC0, 1)
  else if 0xE0 ≤ b ∧ b < 0xF0 then some (b - 0xE0, 2)
  else if 0xF0 ≤ b ∧ b < 0xF8 then some (b - 0xF0, 3)
  else if 0xF8 ≤ b ∧ b < 0xFC then some (b - 0xF8, 4)
  else if 0xFC ≤ b ∧ b < 0xFE then some (b - 0xFC, 5)
  else none

/-- A byte that is not the first one. -/
def Follows (b : Byte) : Prop := 0x80 ≤ b.toNat ∧ b.toNat < 0xC0

def value (c : ℕ) (bs : List Byte) : ℕ := bs.foldl (fun c b => c * 64 + (b.toNat - 0x80)) c

/-- The smallest character with `n` bytes behind the first one. -/
def least : ℕ → ℕ
  | 1 => 0x80
  | 2 => 0x800
  | 3 => 0x10000
  | 4 => 0x200000
  | _ => 0x4000000

/-- Not a surrogate, and neither U+FFFE nor U+FFFF. -/
def Permitted (v : ℕ) : Prop := ¬(0xD800 ≤ v ∧ v ≤ 0xDFFF) ∧ v ≠ 0xFFFE ∧ v ≠ 0xFFFF

/-- `bs` is the encoding of the character `v`. -/
inductive Encodes : ℕ → List Byte → Prop
  | ascii {b : Byte} (hlt : b.toNat < 0x80) (h0 : b ≠ 0) : Encodes b.toNat [b]
  | sequence {b : Byte} {bs : List Byte} {c n : ℕ} (hform : form b.toNat = some (c, n)) (hlen : bs.length = n)
      (hfollow : ∀ d ∈ bs, Follows d) (hleast : least n ≤ value c bs) (hpermitted : Permitted (value c bs)) :
    Encodes (value c bs) (b :: bs)

/-- A byte that begins nothing, or a sequence that is complete and does not encode a character. -/
inductive Malformed : List Byte → Prop
  | byte {b : Byte} (hle : 0x80 ≤ b.toNat) (hform : form b.toNat = none) : Malformed [b]
  | sequence {b : Byte} {bs : List Byte} {c n : ℕ} (hform : form b.toNat = some (c, n)) (hlen : bs.length = n)
      (hfollow : ∀ d ∈ bs, Follows d) (hnot : ¬(least n ≤ value c bs ∧ Permitted (value c bs))) :
    Malformed (b :: bs)

/-- A sequence with too few bytes behind the first one. -/
inductive Cut : List Byte → Prop
  | sequence {b : Byte} {bs : List Byte} {c n : ℕ} (hform : form b.toNat = some (c, n)) (hlen : bs.length < n)
      (hfollow : ∀ d ∈ bs, Follows d) : Cut (b :: bs)

/-- No character begins here. -/
def NoneBegins (s : List Byte) : Prop := ∀ v bs, Encodes v bs → ¬ bs <+: s

/-- Every call returns the character that comes next, or takes some bytes with which no character begins and
returns '?'. -/
inductive Faithful : List Byte → Prop
  | done {s : List Byte} (hend : guSgetc s = none) (hcall : guUtf8Sgetwc s = (0, s)) : Faithful s
  | char {v : ℕ} {bs rest : List Byte} (hv : Encodes v bs) (hcall : guUtf8Sgetwc (bs ++ rest) = (v, rest))
      (hrest : Faithful rest) : Faithful (bs ++ rest)
  | invalid {bs rest : List Byte} (hne : bs ≠ [])
      (hnone : ∀ x y, bs = x ++ y → y ≠ [] → NoneBegins (y ++ rest))
      (hcall : guUtf8Sgetwc (bs ++ rest) = (invalidChar, rest)) (hrest : Faithful rest) : Faithful (bs ++ rest)

/-- From the beginning on, what follows a sequence that is cut is a byte with which no character begins.  It is
taken with the sequence. -/
inductive Spared : List Byte → Prop
  | done {s : List Byte} (hend : guSgetc s = none) : Spared s
  | char {v : ℕ} {bs rest : List Byte} (hv : Encodes v bs) (hrest : Spared rest) : Spared (bs ++ rest)
  | malformed {bs rest : List Byte} (hbs : Malformed bs) (hrest : Spared rest) : Spared (bs ++ rest)
  | cut {bs rest : List Byte} {b : Byte} (hbs : Cut bs) (hb : ¬Follows b) (h0 : b ≠ 0)
      (hnone : NoneBegins (b :: rest)) (hrest : Spared rest) : Spared (bs ++ b :: rest)

/-! ## Bytes -/

theorem firstByte_eq (b : Byte) (h : 0x80 ≤ b.toNat) : firstByte b.toNat = form b.toNat := by
  have hall : ∀ n < 256, 0x80 ≤ n → firstByte n = form n := by decide +kernel
  exact hall b.toNat b.isLt h

theorem ascii_iff (b : Byte) : b.toNat &&& 0x80 = 0 ↔ b.toNat < 0x80 := by
  have hall : ∀ n < 256, n &&& 0x80 = 0 ↔ n < 0x80 := by decide +kernel
  exact hall b.toNat b.isLt

theorem follows_iff (b : Byte) : b.toNat &&& 0xC0 = 0x80 ↔ Follows b := by
  have hall : ∀ n < 256, n &&& 0xC0 = 0x80 ↔ 0x80 ≤ n ∧ n < 0xC0 := by decide +kernel
  exact hall b.toNat b.isLt

/-- Six more bits. -/
theorem shift_or (c : ℕ) {b : Byte} (h : Follows b) : c <<< 6 ||| b.toNat &&& 0x3F = c * 64 + (b.toNat - 0x80) := by
  have hall : ∀ n < 256, 0x80 ≤ n ∧ n < 0xC0 → n &&& 0x3F = n - 0x80 := by decide +kernel
  have hlt : b.toNat - 0x80 < 2 ^ 6 := by
    have := h.2
    omega
  rw [hall b.toNat b.isLt h, ← Nat.shiftLeft_add_eq_or_of_lt hlt, Nat.shiftLeft_eq]

theorem form_eq_some {b : ℕ} {c n : ℕ} (h : form b = some (c, n)) :
    0xC0 ≤ b ∧ b < 0xFE ∧ 1 ≤ n ∧ n ≤ 5 := by
  unfold form at h
  split_ifs at h <;> simp only [Option.some.injEq, Prod.mk.injEq] at h <;> omega

theorem Follows.ne_zero {b : Byte} (h : Follows b) : b ≠ 0 := by
  rintro rfl
  exact absurd h.1 (by decide)

theorem guSgetc_cons {b : Byte} (h : b ≠ 0) (s : List Byte) : guSgetc (b :: s) = some (b, s) := if_neg h

/-- In the range of the first bytes with `n` more. -/
theorem overlong_iff {n : ℕ} (h1 : 1 ≤ n) (h5 : n ≤ 5) (v : ℕ) :
    (overlong (1 + n)).any (v ≤ ·) = true ↔ ¬least n ≤ v := by
  have hcases : n = 1 ∨ n = 2 ∨ n = 3 ∨ n = 4 ∨ n = 5 := by omega
  rcases hcases with rfl | rfl | rfl | rfl | rfl <;> simp [overlong, least] <;> omega

/-! ## Calls -/

theorem additionalBytes_eq {n c : ℕ} {bs : List Byte} (hlen : bs.length = n) (hfollow : ∀ d ∈ bs, Follows d)
    (rest : List Byte) : additionalBytes guSgetc n c (bs ++ rest) = (.ok (value c bs), rest) := by
  induction bs generalizing n c with
  | nil =>
    subst hlen
    rfl
  | cons d bs ih =>
    subst hlen
    have hd := hfollow d List.mem_cons_self
    rw [List.cons_append, List.length_cons, additionalBytes, guSgetc_cons hd.ne_zero]
    dsimp only
    rw [if_neg (not_not.2 ((follows_iff d).2 hd)), shift_or c hd,
      ih rfl fun e he => hfollow e (List.mem_cons_of_mem d he), value, value, List.foldl_cons]

theorem additionalBytes_cut {n c : ℕ} {bs : List Byte} (hlen : bs.length < n) (hfollow : ∀ d ∈ bs, Follows d)
    {b : Byte} (hb : ¬Follows b) (h0 : b ≠ 0) (rest : List Byte) :
    additionalBytes guSgetc n c (bs ++ b :: rest) = (.error invalidChar, rest) := by
  induction bs generalizing n c with
  | nil =>
    obtain ⟨n, rfl⟩ := Nat.exists_eq_add_one_of_ne_zero (Nat.ne_of_gt hlen)
    rw [List.nil_append, additionalBytes, guSgetc_cons h0]
    dsimp only
    rw [if_pos fun h => hb ((follows_iff b).1 h)]
  | cons d bs ih =>
    obtain ⟨n, rfl⟩ := Nat.exists_eq_add_one_of_ne_zero (Nat.ne_of_gt (Nat.zero_lt_of_lt hlen))
    have hd := hfollow d List.mem_cons_self
    rw [List.cons_append, additionalBytes, guSgetc_cons hd.ne_zero]
    dsimp only
    rw [if_neg (not_not.2 ((follows_iff d).2 hd)), ih (Nat.lt_of_succ_lt_succ hlen)
      fun e he => hfollow e (List.mem_cons_of_mem d he)]

theorem additionalBytes_end {n c : ℕ} {bs : List Byte} (hlen : bs.length < n) (hfollow : ∀ d ∈ bs, Follows d)
    {rest : List Byte} (hend : guSgetc rest = none) : additionalBytes guSgetc n c (bs ++ rest) = (.error 0, rest) := by
  induction bs generalizing n c with
  | nil =>
    obtain ⟨n, rfl⟩ := Nat.exists_eq_add_one_of_ne_zero (Nat.ne_of_gt hlen)
    rw [List.nil_append, additionalBytes, hend]
  | cons d bs ih =>
    obtain ⟨n, rfl⟩ := Nat.exists_eq_add_one_of_ne_zero (Nat.ne_of_gt (Nat.zero_lt_of_lt hlen))
    have hd := hfollow d List.mem_cons_self
    rw [List.cons_append, additionalBytes, guSgetc_cons hd.ne_zero]
    dsimp only
    rw [if_neg (not_not.2 ((follows_iff d).2 hd)), ih (Nat.lt_of_succ_lt_succ hlen)
      fun e he => hfollow e (List.mem_cons_of_mem d he)]

/-- A call that meets the first byte of a form. -/
theorem guUtf8Sgetwc_form {b : Byte} {c n : ℕ} (hform : form b.toNat = some (c, n)) (s : List Byte) :
    guUtf8Sgetwc (b :: s) = checkCharacter n (additionalBytes guSgetc n c s) := by
  obtain ⟨hb, -, -, -⟩ := form_eq_some hform
  have h0 : b ≠ 0 := by
    rintro rfl
    exact absurd hb (by decide)
  have hascii : ¬b.toNat &&& 0x80 = 0 := by
    rw [ascii_iff]
    omega
  rw [guUtf8Sgetwc, guUtf8Getwc, guSgetc_cons h0]
  dsimp only
  rw [if_neg hascii, firstByte_eq b (by omega), hform]

theorem checkCharacter_ok {n v : ℕ} (h1 : 1 ≤ n) (h5 : n ≤ 5) (hleast : least n ≤ v) (hpermitted : Permitted v)
    (s : List Byte) : checkCharacter n (.ok v, s) = (v, s) := by
  obtain ⟨hsurrogate, hfffe, hffff⟩ := hpermitted
  rw [checkCharacter, if_neg (fun hany => (overlong_iff h1 h5 v).1 hany hleast), if_neg hsurrogate,
    if_neg (fun h => h.elim hfffe hffff)]

theorem checkCharacter_not {n v : ℕ} (h1 : 1 ≤ n) (h5 : n ≤ 5) (hnot : ¬(least n ≤ v ∧ Permitted v))
    (s : List Byte) : checkCharacter n (.ok v, s) = (invalidChar, s) := by
  rw [checkCharacter]
  by_cases hleast : least n ≤ v
  · rw [if_neg (fun hany => (overlong_iff h1 h5 v).1 hany hleast)]
    by_cases hsurrogate : 0xD800 ≤ v ∧ v ≤ 0xDFFF
    · rw [if_pos hsurrogate]
    · rw [if_neg hsurrogate, if_pos]
      by_contra hlast
      exact hnot ⟨hleast, hsurrogate, fun h => hlast (.inl h), fun h => hlast (.inr h)⟩
  · rw [if_pos ((overlong_iff h1 h5 v).2 hleast)]

/-- A character is returned, and nothing behind it is read. -/
theorem call_encodes {v : ℕ} {bs : List Byte} (h : Encodes v bs) (rest : List Byte) :
    guUtf8Sgetwc (bs ++ rest) = (v, rest) := by
  cases h with
  | @ascii b hlt h0 =>
    rw [List.singleton_append, guUtf8Sgetwc, guUtf8Getwc, guSgetc_cons h0]
    exact if_pos ((ascii_iff b).2 hlt)
  | sequence hform hlen hfollow hleast hpermitted =>
    obtain ⟨-, -, h1, h5⟩ := form_eq_some hform
    rw [List.cons_append, guUtf8Sgetwc_form hform, additionalBytes_eq hlen hfollow,
      checkCharacter_ok h1 h5 hleast hpermitted]

theorem call_malformed {bs : List Byte} (h : Malformed bs) (rest : List Byte) :
    guUtf8Sgetwc (bs ++ rest) = (invalidChar, rest) := by
  cases h with
  | @byte b hle hform =>
    have h0 : b ≠ 0 := by
      rintro rfl
      exact absurd hle (by decide)
    have hascii : ¬b.toNat &&& 0x80 = 0 := by
      rw [ascii_iff]
      omega
    rw [List.singleton_append, guUtf8Sgetwc, guUtf8Getwc, guSgetc_cons h0]
    dsimp only
    rw [if_neg hascii, firstByte_eq b hle, hform]
  | sequence hform hlen hfollow hnot =>
    obtain ⟨-, -, h1, h5⟩ := form_eq_some hform
    rw [List.cons_append, guUtf8Sgetwc_form hform, additionalBytes_eq hlen hfollow, checkCharacter_not h1 h5 hnot]

/-- The byte that shows that a sequence is cut is taken with it. -/
theorem call_cut {bs : List Byte} (h : Cut bs) {b : Byte} (hb : ¬Follows b) (h0 : b ≠ 0) (rest : List Byte) :
    guUtf8Sgetwc (bs ++ b :: rest) = (invalidChar, rest) := by
  obtain ⟨hform, hlen, hfollow⟩ := h
  rw [List.cons_append, guUtf8Sgetwc_form hform, additionalBytes_cut hlen hfollow hb h0]
  rfl

/-- A sequence that the end of the string cuts is taken for the end of the string. -/
theorem call_cut_end {bs rest : List Byte} (h : Cut bs) (hend : guSgetc rest = none) :
    guUtf8Sgetwc (bs ++ rest) = (0, rest) := by
  obtain ⟨hform, hlen, hfollow⟩ := h
  rw [List.cons_append, guUtf8Sgetwc_form hform, additionalBytes_end hlen hfollow hend]
  rfl

theorem call_end {s : List Byte} (hend : guSgetc s = none) : guUtf8Sgetwc s = (0, s) := by
  rw [guUtf8Sgetwc, guUtf8Getwc, hend]

/-! ## What a string begins with -/

theorem guSgetc_eq_none {s : List Byte} : guSgetc s = none ↔ ∀ b ∈ s.head?, b = 0 := by
  cases s with
  | nil => simp [guSgetc]
  | cons b s => simp [guSgetc]

/-- The bytes behind a first byte: all that it asks for, or fewer. -/
theorem follow_split (n : ℕ) (s : List Byte) :
    ∃ bs rest, s = bs ++ rest ∧ (∀ d ∈ bs, Follows d) ∧
      (bs.length = n ∨ bs.length < n ∧ ∀ b ∈ rest.head?, ¬Follows b) := by
  induction n generalizing s with
  | zero => exact ⟨[], s, rfl, by simp, .inl rfl⟩
  | succ n ih =>
    cases s with
    | nil => exact ⟨[], [], rfl, by simp, .inr ⟨Nat.succ_pos n, by simp⟩⟩
    | cons b s =>
      by_cases hb : Follows b
      · obtain ⟨bs, rest, rfl, hfollow, hlen⟩ := ih s
        refine ⟨b :: bs, rest, rfl, List.forall_mem_cons.2 ⟨hb, hfollow⟩, ?_⟩
        exact hlen.imp (congrArg Nat.succ) fun h => ⟨Nat.succ_lt_succ h.1, h.2⟩
      · refine ⟨[], b :: s, rfl, by simp, .inr ⟨Nat.succ_pos n, ?_⟩⟩
        intro d hd
        cases hd
        exact hb

/-- Where the string has not ended there is a character, something malformed, or a sequence that is cut, by
the end or by a byte. -/
inductive Begins (s : List Byte) : Prop
  | char {v : ℕ} {bs rest : List Byte} (hs : s = bs ++ rest) (hv : Encodes v bs) : Begins s
  | malformed {bs rest : List Byte} (hs : s = bs ++ rest) (hbs : Malformed bs) : Begins s
  | cut {bs rest : List Byte} {b : Byte} (hs : s = bs ++ b :: rest) (hbs : Cut bs) (hb : ¬Follows b) (h0 : b ≠ 0) :
    Begins s
  | cutEnd {bs rest : List Byte} (hs : s = bs ++ rest) (hbs : Cut bs) (hend : guSgetc rest = none) : Begins s

theorem begins {b : Byte} (h0 : b ≠ 0) (s : List Byte) : Begins (b :: s) := by
  by_cases hlt : b.toNat < 0x80
  · exact .char rfl (.ascii hlt h0)
  · cases hform : form b.toNat with
    | none => exact .malformed rfl (.byte (Nat.not_lt.1 hlt) hform)
    | some cn =>
      obtain ⟨c, n⟩ := cn
      obtain ⟨bs, rest, rfl, hfollow, hlen | ⟨hlen, hrest⟩⟩ := follow_split n s
      · by_cases hvalid : least n ≤ value c bs ∧ Permitted (value c bs)
        · exact .char rfl (.sequence hform hlen hfollow hvalid.1 hvalid.2)
        · exact .malformed rfl (.sequence hform hlen hfollow hvalid)
      · have hcut : Cut (b :: bs) := .sequence hform hlen hfollow
        cases rest with
        | nil => exact .cutEnd rfl hcut rfl
        | cons d rest =>
          by_cases hd : d = 0
          · have hend : guSgetc (d :: rest) = none := if_pos hd
            exact .cutEnd rfl hcut hend
          · exact .cut rfl hcut (hrest d rfl) hd

/-! ## Where no character begins -/

theorem Encodes.head {v : ℕ} {b : Byte} {bs : List Byte} (h : Encodes v (b :: bs)) : ¬Follows b := by
  rintro ⟨hle, hlt⟩
  cases h with
  | ascii hascii _ => omega
  | sequence hform _ _ _ _ =>
    have := (form_eq_some hform).1
    omega

theorem Encodes.ne_nil {v : ℕ} {bs : List Byte} (h : Encodes v bs) : bs ≠ [] := by
  cases h <;> exact List.cons_ne_nil _ _

theorem Encodes.ne_zero {v : ℕ} {bs : List Byte} (h : Encodes v bs) : v ≠ 0 := by
  cases h with
  | ascii _ h0 => exact fun h => h0 (BitVec.eq_of_toNat_eq h)
  | @sequence _ _ _ n hform _ _ hleast _ =>
    have hpos : 0x80 ≤ least n := by
      unfold least
      split <;> omega
    omega

/-- Only '?' itself is encoded with '?' for its value. -/
theorem Encodes.eq_of_invalidChar {v : ℕ} {b : Byte} {bs : List Byte} (h : Encodes v (b :: bs))
    (hv : v = invalidChar) : b.toNat < 0x80 := by
  cases h with
  | ascii hlt _ => exact hlt
  | @sequence _ _ _ n hform _ _ hleast _ =>
    have hpos : 0x80 ≤ least n := by
      unfold least
      split <;> omega
    rw [hv, invalidChar] at hleast
    omega

theorem noneBegins_follow {d : Byte} (hd : Follows d) (s : List Byte) : NoneBegins (d :: s) := by
  intro v bs hv hprefix
  cases bs with
  | nil => exact hv.ne_nil rfl
  | cons b bs =>
    obtain ⟨rfl, -⟩ := List.cons_prefix_cons.1 hprefix
    exact hv.head hd

/-- No character begins where a call that does not meet a '?' returns it. -/
theorem noneBegins_call {b : Byte} (hb : 0x80 ≤ b.toNat) {s rest : List Byte}
    (hcall : guUtf8Sgetwc (b :: s) = (invalidChar, rest)) : NoneBegins (b :: s) := by
  rintro v bs hv ⟨r, hr⟩
  have hv' := call_encodes hv r
  rw [hr, hcall] at hv'
  cases bs with
  | nil => exact hv.ne_nil rfl
  | cons d bs =>
    obtain ⟨rfl, -⟩ := List.cons.inj hr
    have hlt := hv.eq_of_invalidChar (congrArg Prod.fst hv').symm
    omega

theorem noneBegins_sequence {b : Byte} {bs s x y : List Byte} (hfollow : ∀ d ∈ bs, Follows d)
    (hfirst : NoneBegins (b :: (bs ++ s))) (hxy : b :: bs = x ++ y) (hy : y ≠ []) : NoneBegins (y ++ s) := by
  cases x with
  | nil =>
    rw [List.nil_append] at hxy
    rw [← hxy]
    exact hfirst
  | cons a x =>
    obtain ⟨-, rfl⟩ := List.cons.inj hxy
    cases y with
    | nil => exact absurd rfl hy
    | cons d y => exact noneBegins_follow (hfollow d (by simp)) _

theorem noneBegins_malformed {bs rest x y : List Byte} (h : Malformed bs) (hxy : bs = x ++ y) (hy : y ≠ []) :
    NoneBegins (y ++ rest) := by
  have hcall := call_malformed h rest
  cases h with
  | byte hle hform => exact noneBegins_sequence (by simp) (noneBegins_call hle hcall) hxy hy
  | sequence hform hlen hfollow hnot =>
    have hle : 0xC0 ≤ _ := (form_eq_some hform).1
    exact noneBegins_sequence hfollow (noneBegins_call (by omega) hcall) hxy hy

theorem noneBegins_cut {bs rest x y : List Byte} {b : Byte} (h : Cut bs) (hb : ¬Follows b) (h0 : b ≠ 0)
    (hnone : NoneBegins (b :: rest)) (hxy : bs ++ [b] = x ++ y) (hy : y ≠ []) : NoneBegins (y ++ rest) := by
  have hcall := call_cut h hb h0 rest
  rcases List.eq_nil_or_concat y with rfl | ⟨y, d, rfl⟩
  · exact absurd rfl hy
  · rw [List.concat_eq_append, ← List.append_assoc] at hxy
    obtain ⟨rfl, hd⟩ := List.append_inj' hxy rfl
    obtain rfl := List.head_eq_of_cons_eq hd
    rw [List.concat_eq_append, List.append_assoc, List.singleton_append]
    cases y with
    | nil => exact hnone
    | cons e y =>
      cases hcut : x ++ e :: y with
      | nil => simp at hcut
      | cons a bs =>
        rw [hcut] at h hcall
        cases h with
        | sequence hform hlen hfollow =>
          have hle : 0xC0 ≤ _ := (form_eq_some hform).1
          exact noneBegins_sequence hfollow (noneBegins_call (by omega) hcall) hcut.symm (List.cons_ne_nil _ _)

theorem invalidChar_ne_zero : invalidChar ≠ 0 := by decide

/-- The calls go as they should exactly when no character follows a sequence that is cut. -/
theorem faithful_iff (s : List Byte) : Faithful s ↔ Spared s := by
  constructor
  · intro h
    induction h with
    | done hend _ => exact .done hend
    | char hv _ _ ih => exact .char hv ih
    | @invalid bs rest hne hnone hcall _ ih =>
      have hhere := hnone [] bs rfl hne
      cases hs : bs ++ rest with
      | nil => exact absurd (List.append_eq_nil_iff.1 hs).1 hne
      | cons b s =>
        have h0 : b ≠ 0 := by
          intro h0
          have hend : guSgetc (b :: s) = none := if_pos h0
          rw [hs, call_end hend] at hcall
          exact invalidChar_ne_zero (congrArg Prod.fst hcall).symm
        rw [hs] at hcall hhere
        cases begins h0 s with
        | char hbegin hv => exact absurd ⟨_, hbegin.symm⟩ (hhere _ _ hv)
        | @malformed _ r hbegin hbs =>
          rw [hbegin, call_malformed hbs] at hcall
          have hr : r = rest := congrArg Prod.snd hcall
          rw [hbegin, hr]
          exact .malformed hbs ih
        | @cut cs r d hbegin hcs hd hd0 =>
          rw [hbegin, call_cut hcs hd hd0] at hcall
          have hr : r = rest := congrArg Prod.snd hcall
          have hbs : bs = cs ++ [d] := by
            refine List.append_cancel_right (?_ : bs ++ rest = cs ++ [d] ++ rest)
            rw [hs, hbegin, hr]
            simp
          rw [hbegin, hr]
          exact .cut hcs hd hd0 (hnone cs [d] hbs (List.cons_ne_nil d [])) ih
        | cutEnd hbegin hcs hend =>
          rw [hbegin, call_cut_end hcs hend] at hcall
          exact absurd (congrArg Prod.fst hcall).symm invalidChar_ne_zero
  · intro h
    induction h with
    | done hend => exact .done hend (call_end hend)
    | char hv _ ih => exact .char hv (call_encodes hv _) ih
    | @malformed bs _ hbs _ ih =>
      have hne : bs ≠ [] := by
        rintro rfl
        cases hbs
      exact .invalid hne (fun x y hxy hy => noneBegins_malformed hbs hxy hy) (call_malformed hbs _) ih
    | @cut bs rest b hbs hb h0 hnone _ ih =>
      have hcall := call_cut hbs hb h0 rest
      rw [List.append_cons] at hcall ⊢
      exact .invalid (by simp) (fun x y hxy hy => noneBegins_cut hbs hb h0 hnone hxy hy) hcall ih

/-! ## Strings -/

/-- A call that does not return 0 goes forward. -/
theorem call_shorter {s : List Byte} (h : (guUtf8Sgetwc s).1 ≠ 0) : (guUtf8Sgetwc s).2.length < s.length := by
  cases s with
  | nil => exact absurd rfl h
  | cons b s =>
    by_cases h0 : b = 0
    · have hend : guSgetc (b :: s) = none := if_pos h0
      rw [call_end hend] at h
      exact absurd rfl h
    · cases begins h0 s with
      | char hbegin hv =>
        have hpos := List.length_pos_iff.2 hv.ne_nil
        rw [hbegin, call_encodes hv, List.length_append]
        exact Nat.lt_add_of_pos_left hpos
      | malformed hbegin hbs =>
        rw [hbegin, call_malformed hbs, List.length_append]
        cases hbs <;> simp
      | cut hbegin hbs hb hd0 =>
        rw [hbegin, call_cut hbs hb hd0, List.length_append, List.length_cons]
        exact Nat.lt_of_lt_of_le (Nat.lt_succ_self _) (Nat.le_add_left ..)
      | cutEnd hbegin hbs hend =>
        rw [hbegin, call_cut_end hbs hend] at h
        exact absurd rfl h

theorem reads_isSome {fuel : ℕ} {s : List Byte} (h : s.length < fuel) : ∃ cs, reads fuel s = some cs := by
  induction fuel generalizing s with
  | zero => exact absurd h (Nat.not_lt_zero _)
  | succ fuel ih =>
    rw [reads]
    by_cases h0 : (guUtf8Sgetwc s).1 = 0
    · exact ⟨[], if_pos h0⟩
    · obtain ⟨cs, hcs⟩ := ih (Nat.lt_of_lt_of_le (call_shorter h0) (Nat.le_of_lt_succ h))
      rw [if_neg h0, hcs]
      exact ⟨_, rfl⟩

theorem Encodes.bytes {v : ℕ} {bs : List Byte} (h : Encodes v bs) :
    (∃ b : Byte, bs = [b] ∧ b.toNat = v ∧ b.toNat < 0x80 ∧ b ≠ 0) ∨ ∀ b ∈ bs, 0x80 ≤ b.toNat := by
  cases h with
  | ascii hlt h0 => exact .inl ⟨_, rfl, rfl, hlt, h0⟩
  | sequence hform _ hfollow _ _ =>
    right
    rw [List.forall_mem_cons]
    exact ⟨(by decide : 0x80 ≤ 0xC0).trans (form_eq_some hform).1, fun d hd => (hfollow d hd).1⟩

theorem Malformed.bytes {bs : List Byte} (h : Malformed bs) : ∀ b ∈ bs, 0x80 ≤ b.toNat := by
  cases h with
  | byte hle _ => simpa using hle
  | sequence hform _ hfollow _ =>
    rw [List.forall_mem_cons]
    exact ⟨(by decide : 0x80 ≤ 0xC0).trans (form_eq_some hform).1, fun d hd => (hfollow d hd).1⟩

theorem Cut.bytes {bs : List Byte} (h : Cut bs) : ∀ b ∈ bs, 0x80 ≤ b.toNat := by
  obtain ⟨hform, -, hfollow⟩ := h
  rw [List.forall_mem_cons]
  exact ⟨(by decide : 0x80 ≤ 0xC0).trans (form_eq_some hform).1, fun d hd => (hfollow d hd).1⟩

/-- The ASCII bytes of a string. -/
def asciiBytes (s : List Byte) : List ℕ := ((cstr s).filter fun b => b.toNat < 0x80).map BitVec.toNat

theorem asciiBytes_append {bs : List Byte} (h : ∀ b ∈ bs, 0x80 ≤ b.toNat) (rest : List Byte) :
    asciiBytes (bs ++ rest) = asciiBytes rest := by
  have hstring : cstr (bs ++ rest) = bs ++ cstr rest := by
    apply List.takeWhile_append_of_pos
    intro b hb
    apply decide_eq_true
    rintro rfl
    exact absurd (h 0 hb) (by decide)
  have hnone : (bs.filter fun b => b.toNat < 0x80) = [] := by
    rw [List.filter_eq_nil_iff]
    intro b hb
    have := h b hb
    simpa using this
  rw [asciiBytes, hstring, List.filter_append, hnone]
  rfl

theorem asciiBytes_cons {b : Byte} (hlt : b.toNat < 0x80) (h0 : b ≠ 0) (rest : List Byte) :
    asciiBytes (b :: rest) = b.toNat :: asciiBytes rest := by
  rw [asciiBytes, cstr, List.takeWhile_cons_of_pos (by simpa using h0), List.filter_cons_of_pos (by simpa using hlt)]
  rfl

theorem reads_cons {fuel v : ℕ} {s rest : List Byte} {cs : List ℕ} (hcall : guUtf8Sgetwc s = (v, rest)) (hv : v ≠ 0)
    (h : reads fuel s = some cs) : ∃ fuel' cs', reads fuel' rest = some cs' ∧ cs = v :: cs' := by
  cases fuel with
  | zero => cases h
  | succ fuel =>
    rw [reads, hcall, if_neg hv, Option.map_eq_some_iff] at h
    obtain ⟨cs', hcs', rfl⟩ := h
    exact ⟨fuel, cs', hcs', rfl⟩

/-- Where the calls go as they should every ASCII byte is returned. -/
theorem Spared.asciiBytes_sublist {s : List Byte} (h : Spared s) {fuel : ℕ} {cs : List ℕ}
    (hcs : reads fuel s = some cs) : (asciiBytes s).Sublist cs := by
  induction h generalizing fuel cs with
  | @done s hend =>
    have hnil : asciiBytes s = [] := by
      cases s with
      | nil => rfl
      | cons b s =>
        have h0 : b = 0 := guSgetc_eq_none.1 hend b rfl
        rw [asciiBytes, cstr, List.takeWhile_cons_of_neg (by simp [h0])]
        rfl
    rw [hnil]
    exact List.nil_sublist cs
  | @char _ bs rest hv _ ih =>
    obtain ⟨fuel', cs', hcs', rfl⟩ := reads_cons (call_encodes hv _) hv.ne_zero hcs
    rcases hv.bytes with ⟨b, rfl, rfl, hlt, h0⟩ | hbytes
    · rw [List.singleton_append, asciiBytes_cons hlt h0]
      exact (ih hcs').cons_cons _
    · rw [asciiBytes_append hbytes]
      exact (ih hcs').cons _
  | malformed hbs _ ih =>
    obtain ⟨fuel', cs', hcs', rfl⟩ := reads_cons (call_malformed hbs _) invalidChar_ne_zero hcs
    rw [asciiBytes_append hbs.bytes]
    exact (ih hcs').cons _
  | @cut bs rest b hbs hb h0 hnone _ ih =>
    obtain ⟨fuel', cs', hcs', rfl⟩ := reads_cons (call_cut hbs hb h0 _) invalidChar_ne_zero hcs
    have hle : 0x80 ≤ b.toNat := by
      by_contra hlt
      exact hnone b.toNat [b] (.ascii (Nat.not_le.1 hlt) h0) ⟨rest, rfl⟩
    have hb : ∀ d ∈ [b], 0x80 ≤ d.toNat := by simpa using hle
    have hlast : asciiBytes (b :: rest) = asciiBytes rest := asciiBytes_append hb rest
    rw [asciiBytes_append hbs.bytes, hlast]
    exact (ih hcs').cons _

/-- The encoding of a Unicode scalar value. -/
def utf8 (c : Char) : List Byte := (String.utf8EncodeChar c).map UInt8.toBitVec

theorem toNat_ofNat {n : ℕ} (h : n < 256) : (UInt8.ofNat n).toBitVec.toNat = n :=
  Nat.mod_eq_of_lt h

/-- A byte behind the first one holds six bits. -/
theorem follows_ofNat (n : ℕ) : Follows (UInt8.ofNat (n % 64 + 0x80)).toBitVec := by
  rw [Follows, toNat_ofNat (by omega)]
  omega

theorem encodes_of_value {b : Byte} {bs : List Byte} {c n v : ℕ} (hform : form b.toNat = some (c, n))
    (hlen : bs.length = n) (hfollow : ∀ d ∈ bs, Follows d) (hv : value c bs = v) (hleast : least n ≤ v)
    (hpermitted : Permitted v) : Encodes v (b :: bs) := by
  subst hv
  exact .sequence hform hlen hfollow hleast hpermitted

theorem encodes_utf8 {c : Char} (h0 : c ≠ '\x00') (hfffe : c.toNat ≠ 0xFFFE) (hffff : c.toNat ≠ 0xFFFF) :
    Encodes c.toNat (utf8 c) := by
  have hvalid : c.toNat < 0xD800 ∨ 0xDFFF < c.toNat ∧ c.toNat < 0x110000 := c.valid
  have hpermitted : Permitted c.toNat := ⟨by omega, hfffe, hffff⟩
  have hne : c.toNat ≠ 0 := fun h => h0 (Char.ext (UInt32.toNat_inj.1 h))
  have hval : c.val.toNat = c.toNat := rfl
  rw [utf8, String.utf8EncodeChar, hval]
  generalize c.toNat = v at *
  by_cases h1 : v ≤ 0x7F
  · rw [if_pos h1]
    have hb : (UInt8.ofNat v).toBitVec.toNat = v := toNat_ofNat (by omega)
    have hascii := Encodes.ascii (b := (UInt8.ofNat v).toBitVec) (by omega) (by
      intro hzero
      rw [hzero] at hb
      exact hne hb.symm)
    rw [hb] at hascii
    exact hascii
  · rw [if_neg h1]
    by_cases h2 : v ≤ 0x7FF
    · rw [if_pos h2]
      refine encodes_of_value (c := v / 64 % 32) (n := 1) ?_ rfl ?_ ?_ (Nat.lt_of_not_le h1) hpermitted
      · rw [toNat_ofNat (by omega), form, if_pos (by omega), Nat.add_sub_cancel]
      · simp only [List.map_cons, List.map_nil, List.forall_mem_cons]
        exact ⟨follows_ofNat v, by simp⟩
      · simp only [List.map_cons, List.map_nil, value, List.foldl_cons, List.foldl_nil]
        rw [toNat_ofNat (by omega)]
        omega
    · rw [if_neg h2]
      by_cases h3 : v ≤ 0xFFFF
      · rw [if_pos h3]
        refine encodes_of_value (c := v / 4096 % 16) (n := 2) ?_ rfl ?_ ?_ (Nat.lt_of_not_le h2) hpermitted
        · rw [toNat_ofNat (by omega), form, if_neg (by omega), if_pos (by omega), Nat.add_sub_cancel]
        · simp only [List.map_cons, List.map_nil, List.forall_mem_cons]
          exact ⟨follows_ofNat (v / 64), follows_ofNat v, by simp⟩
        · simp only [List.map_cons, List.map_nil, value, List.foldl_cons, List.foldl_nil]
          rw [toNat_ofNat (by omega), toNat_ofNat (by omega)]
          omega
      · rw [if_neg h3]
        refine encodes_of_value (c := v / 262144 % 8) (n := 3) ?_ rfl ?_ ?_ (Nat.lt_of_not_le h3) hpermitted
        · rw [toNat_ofNat (by omega), form, if_neg (by omega), if_neg (by omega), if_pos (by omega),
            Nat.add_sub_cancel]
        · simp only [List.map_cons, List.map_nil, List.forall_mem_cons]
          exact ⟨follows_ofNat (v / 4096), follows_ofNat (v / 64), follows_ofNat v, by simp⟩
        · simp only [List.map_cons, List.map_nil, value, List.foldl_cons, List.foldl_nil]
          rw [toNat_ofNat (by omega), toNat_ofNat (by omega), toNat_ofNat (by omega)]
          omega

theorem reads_utf8 {l : List Char} (h : ∀ c ∈ l, c ≠ '\x00' ∧ c.toNat ≠ 0xFFFE ∧ c.toNat ≠ 0xFFFF) {fuel : ℕ}
    (hfuel : (l.flatMap utf8).length < fuel) : reads fuel (l.flatMap utf8) = some (l.map Char.toNat) := by
  induction l generalizing fuel with
  | nil =>
    obtain ⟨fuel, rfl⟩ := Nat.exists_eq_add_one_of_ne_zero (Nat.ne_of_gt hfuel)
    rfl
  | cons c l ih =>
    obtain ⟨fuel, rfl⟩ := Nat.exists_eq_add_one_of_ne_zero (Nat.ne_of_gt (Nat.zero_lt_of_lt hfuel))
    obtain ⟨h0, hfffe, hffff⟩ := h c List.mem_cons_self
    have hc := encodes_utf8 h0 hfffe hffff
    have hpos := List.length_pos_iff.2 hc.ne_nil
    rw [List.flatMap_cons, List.length_append] at hfuel
    rw [List.flatMap_cons, reads, call_encodes hc, if_neg hc.ne_zero,
      ih (fun d hd => h d (List.mem_cons_of_mem c hd)) (by omega)]
    rfl

/-- Characters are read as they were written, every string is read to an end, and its calls go as they should
exactly when no character follows a sequence that is cut. -/
theorem decode_spec (l : List Char) (s : List Byte) :
    ((∀ c ∈ l, c ≠ '\x00' ∧ c.toNat ≠ 0xFFFE ∧ c.toNat ≠ 0xFFFF) →
      decode (l.flatMap utf8) = some (l.map Char.toNat)) ∧
    (∃ cs, decode s = some cs) ∧ (Faithful s ↔ Spared s) :=
  ⟨fun h => reads_utf8 h (Nat.lt_succ_self _), reads_isSome (Nat.lt_succ_self _), faithful_iff s⟩

/-- The 'A' behind a first byte is lost. -/
theorem not_faithful_cut : ¬Faithful [0xC3, 65] := by
  have hcall : guUtf8Sgetwc [0xC3, 65] = (invalidChar, []) := by decide +kernel
  generalize hs : [0xC3, (65 : Byte)] = s at hcall
  intro h
  cases h with
  | done _ hcall' => exact invalidChar_ne_zero (congrArg Prod.fst (hcall.symm.trans hcall'))
  | char hv hcall' =>
    obtain ⟨hinvalid, rfl⟩ := Prod.mk.inj (hcall'.symm.trans hcall)
    rw [List.append_nil] at hs
    rw [← hs] at hv
    exact absurd (hv.eq_of_invalidChar hinvalid) (by decide)
  | invalid _ hnone hcall' =>
    obtain ⟨-, rfl⟩ := Prod.mk.inj (hcall'.symm.trans hcall)
    rw [List.append_nil] at hs
    have hletter := hnone [0xC3] [65] hs.symm (List.cons_ne_nil _ _)
    exact hletter 65 [65] (.ascii (b := 65) (by decide) (by decide)) (List.prefix_refl _)

end Ppr.Utf8
