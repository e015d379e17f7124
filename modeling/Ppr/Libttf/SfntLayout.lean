import Mathlib.Data.Fintype.EquivFin
import Ppr.Libttf.SfntsValid

/-!
# The layout of the sfnts array

How many bytes each table takes, that the new offsets are those sums, and where the tables are in what
was written.
-/

namespace Ppr.Libttf

open Strings

/-! ## Rooms -/

/-- What a table takes with the padding. -/
def roomOf (length : ULong) : ℕ := length.toNat + (padding length).length

theorem roomOf_eq (length : ULong) : roomOf length = (length.toNat + 3) / 4 * 4 := by
  rw [roomOf, padding, List.length_replicate]
  omega

theorem roomOf_zero : roomOf 0 = 0 := rfl

theorem toNat_padded {length : ULong} (h : length.toNat + 3 < 2 ^ 32) :
    (padded length).toNat = roomOf length := by
  rw [roomOf_eq, padded]
  have h3 : (length + 3).toNat = length.toNat + 3 := by
    rw [BitVec.toNat_add]
    exact Nat.mod_eq_of_lt h
  rw [BitVec.toNat_mul, BitVec.toNat_udiv, h3]
  exact Nat.mod_eq_of_lt (by show (length.toNat + 3) / 4 * 4 < 2 ^ 32; omega)

/-- What tables take. -/
def roomsOf (tables : List Table) : ℕ := (tables.map fun t => roomOf t.length).sum

@[simp] theorem roomsOf_cons (t : Table) (tables : List Table) :
    roomsOf (t :: tables) = roomOf t.length + roomsOf tables := List.sum_cons

theorem roomsOf_append (tables more : List Table) :
    roomsOf (tables ++ more) = roomsOf tables + roomsOf more := by
  rw [roomsOf, List.map_append, List.sum_append]
  rfl

/-- As long as the sum fits it is not reduced. -/
theorem toNat_sum_padded {tables : List Table} (h : roomsOf tables + 3 < 2 ^ 32) :
    ((tables.map fun t => padded t.length).sum).toNat = roomsOf tables := by
  induction tables with
  | nil => rfl
  | cons t tables ih =>
    rw [roomsOf_cons] at h ⊢
    have hlength : t.length.toNat ≤ roomOf t.length := Nat.le_add_right _ _
    rw [List.map_cons, List.sum_cons, BitVec.toNat_add, toNat_padded (by omega), ih (by omega)]
    exact Nat.mod_eq_of_lt (by omega)

/-- The new offset of a table is where it is in what is sent. -/
theorem toNat_newoffset {names : List String} {directory : List Entry} {pre post : List Table} {t : Table}
    (h : found names directory 0 = pre ++ t :: post) (hfits : roomsOf pre + 3 < 2 ^ 32) :
    t.newoffset.toNat = roomsOf pre := by
  have hzero : (0 : ULong) + (pre.map fun t => padded t.length).sum =
      (pre.map fun t => padded t.length).sum := BitVec.zero_add _
  rw [newoffset_found h, hzero, toNat_sum_padded hfits]

/-! ## Tables that are sent well -/

namespace TtFont

variable (font : TtFont)

/-- The bytes of a table in the file. -/
def original (t : Table) : List Byte := (font.file.drop t.oldoffset.toNat).take t.length.toNat

/-- What is sent of a table ahead of the padding. -/
def body (t : Table) : List Byte :=
  if t.name = "glyf" then
    (font.file.drop t.oldoffset.toNat).take (total font.glyphLengths) ++
      List.replicate (t.length.toNat - total font.glyphLengths) 0
  else font.original t

/-- A table that is neither refused nor too long for the strings. -/
def Sound (t : Table) : Prop :=
  t.length ≠ 0 →
    if t.name = "glyf" then
      (∀ length ∈ font.glyphLengths, length.toNat ≤ 65534) ∧ total font.glyphLengths ≤ t.length.toNat ∧
        t.length.toNat - total font.glyphLengths ≤ 65534
    else t.length.toNat ≤ 65535

theorem total_le {lengths : List ULong} {n : ℕ} (h : ∀ length ∈ lengths, length.toNat ≤ n) :
    total lengths ≤ lengths.length * n := by
  induction lengths with
  | nil => exact Nat.zero_le _
  | cons length lengths ih =>
    rw [List.forall_mem_cons] at h
    have hrest := ih h.2
    rw [total_cons, List.length_cons, Nat.succ_mul]
    omega

end TtFont

/-- A loca table that can be sent has the offsets of few glyphs. -/
theorem TrueTypeFont.length_glyphLengths (font : TrueTypeFont)
    (h : ∀ e, font.find "loca" = some e → e.length.toNat ≤ 65535) :
    font.glyphLengths.length ≤ 32766 := by
  rw [TtFont.glyphLengths]
  cases hloca : font.find "loca" with
  | none => exact Nat.zero_le _
  | some e =>
    have hlong := font.loca_length e hloca
    have hshort := h e hloca
    rw [List.length_map, List.length_range]
    split_ifs at hlong <;> omega

/-- The most that a table takes. -/
def roomLimit (name : String) : ℕ := if name = "glyf" then 2147418048 else 65538

namespace TrueTypeFont

variable (font : TrueTypeFont)

theorem total_le_of_short (h : ∀ e, font.find "loca" = some e → e.length.toNat ≤ 65535)
    (hglyphs : ∀ length ∈ font.glyphLengths, length.toNat ≤ 65534) :
    total font.glyphLengths ≤ 32766 * 65534 :=
  (TtFont.total_le hglyphs).trans (Nat.mul_le_mul_right _ (font.length_glyphLengths h))

theorem roomOf_le (h : ∀ e, font.find "loca" = some e → e.length.toNat ≤ 65535) {t : Table}
    (ht : font.Sound t) : roomOf t.length ≤ roomLimit t.name := by
  by_cases hzero : t.length = 0
  · rw [hzero, roomOf_zero]
    exact Nat.zero_le _
  · have ht := ht hzero
    rw [roomOf_eq, roomLimit]
    split_ifs at ht ⊢ with hglyf
    · have htotal := font.total_le_of_short h ht.1
      omega
    · omega

/-- All the tables together have offsets of 32 bits. -/
theorem roomsOf_found (h : ∀ e, font.find "loca" = some e → e.length.toNat ≤ 65535)
    (hsound : ∀ t ∈ found tableNames font.directory 0, font.Sound t) :
    roomsOf (found tableNames font.directory 0) + 256 < 2 ^ 32 := by
  have hle : roomsOf (found tableNames font.directory 0) ≤
      (((found tableNames font.directory 0).map Table.name).map roomLimit).sum := by
    rw [roomsOf, List.map_map]
    exact List.sum_le_sum fun t ht => font.roomOf_le h (hsound t ht)
  have hsub : (((found tableNames font.directory 0).map Table.name).map roomLimit).sum ≤
      (tableNames.map roomLimit).sum :=
    ((names_found tableNames font.directory 0).map roomLimit).sum_le_sum fun _ _ => Nat.zero_le _
  have hall : (tableNames.map roomLimit).sum + 256 < 2 ^ 32 := by decide
  omega

/-! ## What is sent -/

/-- What makes a table sound. -/
theorem sound_of_put (hloca : ∀ e, font.find "loca" = some e → e.length.toNat ≤ 65535) {t : Table}
    (hrefuses : ¬font.Refuses t.name t.oldoffset t.length) {s : Strings} (hshort : (font.put s t).Short) :
    font.Sound t := by
  intro hlength
  rw [TtFont.Refuses, not_and] at hrefuses
  have hrefuses := hrefuses hlength
  rw [TtFont.put, if_neg hlength] at hshort
  by_cases hglyf : t.name = "glyf"
  · rw [if_pos hglyf] at hrefuses hshort ⊢
    rw [TtFont.RefusesGlyf, not_or, not_or, not_not] at hrefuses
    obtain ⟨-, hread, hle⟩ := hrefuses
    rw [short_pputBytes_iff, short_putGlyphs_iff hread.2] at hshort
    have hglyphs := hshort.1.2
    have htotal := font.total_le_of_short hloca hglyphs
    have hroom := hshort.2
    rw [TtFont.filling, List.length_append, List.length_replicate, Nat.mod_eq_of_lt (by omega)] at hroom
    rw [Nat.mod_eq_of_lt (by omega)] at hle
    exact ⟨hglyphs, by omega, by omega⟩
  · rw [if_neg hglyf] at hrefuses ⊢
    omega

theorem length_original {t : Table} (h : t.oldoffset.toNat + t.length.toNat ≤ font.file.length) :
    (font.original t).length = t.length.toNat := by
  rw [TtFont.original, List.length_take, List.length_drop]
  omega

theorem sent_eq (hloca : ∀ e, font.find "loca" = some e → e.length.toNat ≤ 65535) {t : Table}
    (hsound : font.Sound t) (hlength : t.length ≠ 0) :
    font.sent t = font.body t ++ padding t.length := by
  rw [TtFont.sent, TtFont.body, if_neg hlength]
  have hsound := hsound hlength
  split_ifs at hsound ⊢ with hglyf
  · have htotal := font.total_le_of_short hloca hsound.1
    rw [TtFont.filling, Nat.mod_eq_of_lt (by omega), List.append_assoc]
  · rfl

theorem length_body {t : Table} (hwithin : t.oldoffset.toNat + t.length.toNat ≤ font.file.length)
    (hsound : font.Sound t) (hlength : t.length ≠ 0) : (font.body t).length = t.length.toNat := by
  have hsound := hsound hlength
  rw [TtFont.body]
  split_ifs at hsound ⊢ with hglyf
  · rw [List.length_append, List.length_take, List.length_drop, List.length_replicate]
    omega
  · exact font.length_original hwithin

theorem length_sent (hloca : ∀ e, font.find "loca" = some e → e.length.toNat ≤ 65535) {t : Table}
    (hwithin : t.oldoffset.toNat + t.length.toNat ≤ font.file.length) (hsound : font.Sound t) :
    (font.sent t).length = roomOf t.length := by
  by_cases hlength : t.length = 0
  · rw [TtFont.sent, if_pos hlength, hlength]
    rfl
  · rw [font.sent_eq hloca hsound hlength, List.length_append, font.length_body hwithin hsound hlength]
    rfl

theorem length_sents (hloca : ∀ e, font.find "loca" = some e → e.length.toNat ≤ 65535)
    {tables : List Table} (hholds : font.Holds tables) (hsound : ∀ t ∈ tables, font.Sound t) :
    (tables.flatMap font.sent).length = roomsOf tables := by
  induction tables with
  | nil => rfl
  | cons t tables ih =>
    rw [TtFont.Holds, List.forall_mem_cons] at hholds
    rw [List.forall_mem_cons] at hsound
    rw [List.flatMap_cons, List.length_append, font.length_sent hloca hholds.1 hsound.1, ih hholds.2 hsound.2,
      roomsOf_cons]

/-- A table is in what is sent at the room of those ahead of it. -/
theorem slice_sents (hloca : ∀ e, font.find "loca" = some e → e.length.toNat ≤ 65535)
    {pre post : List Table} {t : Table} (hholds : font.Holds (pre ++ t :: post))
    (hsound : ∀ u ∈ pre ++ t :: post, font.Sound u) (hlength : t.length ≠ 0) :
    (((pre ++ t :: post).flatMap font.sent).drop (roomsOf pre)).take t.length.toNat = font.body t := by
  have ht : t ∈ pre ++ t :: post := List.mem_append_right _ List.mem_cons_self
  have hpre : (pre.flatMap font.sent).length = roomsOf pre :=
    font.length_sents hloca (fun u hu => hholds u (List.mem_append_left _ hu))
      fun u hu => hsound u (List.mem_append_left _ hu)
  have hbody := font.length_body (hholds t ht) (hsound t ht) hlength
  rw [List.flatMap_append, List.flatMap_cons, ← hpre, List.drop_left,
    font.sent_eq hloca (hsound t ht) hlength, List.append_assoc, ← hbody, List.take_left]

/-- What is sent of a table is what is in the file, but for zeros in the place of what is behind the
glyphs. -/
theorem body_eq_original_iff {t : Table} (hwithin : t.oldoffset.toNat + t.length.toNat ≤ font.file.length)
    (hsound : font.Sound t) (hlength : t.length ≠ 0) :
    font.body t = font.original t ↔
      (t.name = "glyf" → ∀ b ∈ (font.original t).drop (total font.glyphLengths), b = 0) := by
  by_cases hglyf : t.name = "glyf"
  · have hsound := hsound hlength
    rw [if_pos hglyf] at hsound
    have htake : (font.file.drop t.oldoffset.toNat).take (total font.glyphLengths) =
        (font.original t).take (total font.glyphLengths) := by
      rw [TtFont.original, List.take_take, Nat.min_eq_left hsound.2.1]
    have hrest : ((font.original t).drop (total font.glyphLengths)).length =
        t.length.toNat - total font.glyphLengths := by
      rw [List.length_drop, font.length_original hwithin]
    rw [TtFont.body, if_pos hglyf, htake]
    have hsplit := List.take_append_drop (total font.glyphLengths) (font.original t)
    constructor
    · intro h _ b hb
      nth_rewrite 2 [← hsplit] at h
      rw [← List.append_cancel_left h] at hb
      exact List.eq_of_mem_replicate hb
    · intro h
      have hzeros := List.eq_replicate_of_mem (h hglyf)
      rw [hrest] at hzeros
      rw [← hzeros, hsplit]
  · rw [TtFont.body, if_neg hglyf]
    exact ⟨fun _ h => absurd h hglyf, fun _ => rfl⟩

end TrueTypeFont

end Ppr.Libttf
