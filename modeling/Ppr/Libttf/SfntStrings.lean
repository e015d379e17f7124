import Ppr.Lib.Lists
import Ppr.Libttf.Sfnts

/-!
# The strings of the sfnts array

What the routines add to the strings, and how long the strings get.
-/

namespace Ppr.Libttf

namespace Strings

/-! ## Bytes and lengths -/

/-- What was written, without the dummy bytes. -/
def content (s : Strings) : List Byte := s.done.flatMap List.dropLast ++ s.cur.getD []

/-- The length of the open string. -/
def level (s : Strings) : ℕ := (s.cur.getD []).length

/-- No string is too long, with the dummy byte. -/
def Short (s : Strings) : Prop := (∀ str ∈ s.done, str.length ≤ 65535) ∧ s.level ≤ 65534

theorem pputBytes_append (s : Strings) (l m : List Byte) :
    s.pputBytes (l ++ m) = (s.pputBytes l).pputBytes m := List.foldl_append

@[simp] theorem done_pputBytes (s : Strings) (l : List Byte) : (s.pputBytes l).done = s.done := by
  induction l generalizing s with
  | nil => rfl
  | cons n l ih => exact ih (s.pputBYTE n)

@[simp] theorem cur_pputBytes (s : Strings) (l : List Byte) :
    (s.pputBytes l).cur.getD [] = s.cur.getD [] ++ l := by
  induction l generalizing s with
  | nil => exact (List.append_nil _).symm
  | cons n l ih =>
    show ((s.pputBYTE n).pputBytes l).cur.getD [] = _
    rw [ih]
    simp [pputBYTE]

@[simp] theorem content_pputBytes (s : Strings) (l : List Byte) :
    (s.pputBytes l).content = s.content ++ l := by
  simp [content]

@[simp] theorem level_pputBytes (s : Strings) (l : List Byte) :
    (s.pputBytes l).level = s.level + l.length := by
  simp [level]

theorem short_pputBytes_iff (s : Strings) (l : List Byte) :
    (s.pputBytes l).Short ↔ s.Short ∧ s.level + l.length ≤ 65534 := by
  rw [Short, Short, done_pputBytes, level_pputBytes]
  constructor
  · exact fun h => ⟨⟨h.1, by omega⟩, h.2⟩
  · exact fun h => ⟨h.1.1, h.2⟩

/-! ## The end of a string -/

@[simp] theorem content_endString (s : Strings) : s.endString.content = s.content := by
  obtain ⟨done, cur⟩ := s
  cases cur with
  | none => rfl
  | some c => simp [endString, content]

theorem level_endString (s : Strings) : s.endString.level = 0 := by
  obtain ⟨done, cur⟩ := s
  cases cur <;> rfl

theorem done_endString_iff (s : Strings) :
    (∀ str ∈ s.endString.done, str.length ≤ 65535) ↔ s.Short := by
  obtain ⟨done, cur⟩ := s
  cases cur with
  | none => exact ⟨fun h => ⟨h, Nat.zero_le _⟩, fun h => h.1⟩
  | some c =>
    simp only [endString, Short, level, Option.getD_some, List.forall_mem_append, List.forall_mem_singleton,
      List.length_append, List.length_singleton]
    exact and_congr_right fun _ => Nat.succ_le_succ_iff

theorem short_endString_iff (s : Strings) : s.endString.Short ↔ s.Short := by
  rw [← done_endString_iff s, Short, level_endString]
  exact and_iff_left (Nat.zero_le _)

@[simp] theorem content_newTable (s : Strings) (length : ULong) :
    (s.newTable length).content = s.content := by
  rw [newTable]
  split_ifs
  · exact content_endString s
  · rfl

@[simp] theorem short_newTable_iff (s : Strings) (length : ULong) :
    (s.newTable length).Short ↔ s.Short := by
  rw [newTable]
  split_ifs
  · exact short_endString_iff s
  · exact Iff.rfl

/-- How full the string is when something of a length may have made a new one. -/
def room (level length : ℕ) : ℕ := if 65528 < level + length then 0 else level

theorem level_newTable {s : Strings} (h : s.Short) {length : ULong} (hlength : length.toNat ≤ 65535) :
    (s.newTable length).level = room s.level length.toNat := by
  obtain ⟨done, cur⟩ := s
  cases cur with
  | none =>
    have hnew : (newTable ⟨done, none⟩ length).level = 0 := by
      rw [newTable]
      split_ifs <;> rfl
    have hroom : room (level ⟨done, none⟩) length.toNat = 0 := by
      rw [room]
      split_ifs <;> rfl
    rw [hnew, hroom]
  | some c =>
    have hc : c.length ≤ 65534 := h.2
    have hsum : (stringLen ⟨done, some c⟩ + length).toNat = c.length + length.toNat := by
      show (BitVec.ofNat 32 c.length + length).toNat = _
      rw [BitVec.toNat_add, BitVec.toNat_ofNat]
      omega
    have hlt : 65528 < stringLen ⟨done, some c⟩ + length ↔ 65528 < c.length + length.toNat := by
      rw [BitVec.lt_def, hsum]
      rfl
    have hlevel : level ⟨done, some c⟩ = c.length := rfl
    rw [newTable, room, hlevel]
    by_cases hfull : 65528 < c.length + length.toNat
    · rw [if_pos (hlt.2 hfull), if_pos hfull, level_endString]
    · rw [if_neg (mt hlt.1 hfull), if_neg hfull, hlevel]

/-! ## Pieces -/

/-- A piece that must not be broken up, with what follows it. -/
def putPiece (s : Strings) (length : ULong) (l : List Byte) : Strings := (s.newTable length).pputBytes l

@[simp] theorem content_putPiece (s : Strings) (length : ULong) (l : List Byte) :
    (s.putPiece length l).content = s.content ++ l := by
  rw [putPiece, content_pputBytes, content_newTable]

theorem length_le_of_short {s : Strings} {length : ULong} {l : List Byte}
    (h : (s.putPiece length l).Short) : s.Short ∧ l.length ≤ 65534 := by
  rw [putPiece, short_pputBytes_iff, short_newTable_iff] at h
  exact ⟨h.1, by omega⟩

theorem level_putPiece {s : Strings} (h : s.Short) {length : ULong} (hlength : length.toNat ≤ 65535)
    (l : List Byte) : (s.putPiece length l).level = room s.level length.toNat + l.length := by
  rw [putPiece, level_pputBytes, level_newTable h hlength]

/-- A piece fits if it is short enough for a string of its own, and little follows it. -/
theorem short_putPiece_iff {s : Strings} {length : ULong} {l : List Byte}
    (hle : length.toNat ≤ l.length) (hl : l.length ≤ length.toNat + 3) :
    (s.putPiece length l).Short ↔ s.Short ∧ l.length ≤ 65534 := by
  refine ⟨length_le_of_short, fun h => ?_⟩
  have hlevel := @level_newTable s h.1 length (by omega)
  rw [putPiece, short_pputBytes_iff, short_newTable_iff, hlevel, room]
  refine ⟨h.1, ?_⟩
  split_ifs <;> omega

/-! ## Glyphs -/

/-- The glyphs one by one. -/
def putGlyphs : List ULong → List Byte → Strings → Strings
  | [], _, s => s
  | length :: lengths, file, s =>
    putGlyphs lengths (file.drop length.toNat) (s.putPiece length (file.take length.toNat))

/-- How many bytes they are. -/
def total (lengths : List ULong) : ℕ := (lengths.map BitVec.toNat).sum

@[simp] theorem total_nil : total [] = 0 := rfl

@[simp] theorem total_cons (length : ULong) (lengths : List ULong) :
    total (length :: lengths) = length.toNat + total lengths := List.sum_cons

theorem content_putGlyphs (lengths : List ULong) (file : List Byte) (s : Strings) :
    (putGlyphs lengths file s).content = s.content ++ file.take (total lengths) := by
  induction lengths generalizing file s with
  | nil => simp [putGlyphs]
  | cons length lengths ih =>
    rw [putGlyphs, ih, content_putPiece, total_cons, List.take_add, List.append_assoc]

theorem short_putGlyphs_iff {lengths : List ULong} {file : List Byte}
    (hfile : total lengths ≤ file.length) (s : Strings) :
    (putGlyphs lengths file s).Short ↔ s.Short ∧ ∀ length ∈ lengths, length.toNat ≤ 65534 := by
  induction lengths generalizing file s with
  | nil => simp [putGlyphs]
  | cons length lengths ih =>
    rw [total_cons] at hfile
    have htake : (file.take length.toNat).length = length.toNat := by
      rw [List.length_take]
      omega
    rw [putGlyphs, ih (by rw [List.length_drop]; omega), short_putPiece_iff (by omega) (by omega), htake,
      List.forall_mem_cons, and_assoc]

/-- How full the last string is after the glyphs. -/
def fill (level : ℕ) (lengths : List ULong) : ℕ :=
  lengths.foldl (fun level length => room level length.toNat + length.toNat) level

theorem level_putGlyphs {lengths : List ULong} {file : List Byte} (hfile : total lengths ≤ file.length)
    {s : Strings} (h : (putGlyphs lengths file s).Short) :
    (putGlyphs lengths file s).level = fill s.level lengths := by
  induction lengths generalizing file s with
  | nil => rfl
  | cons length lengths ih =>
    obtain ⟨hs, hlengths⟩ := (short_putGlyphs_iff hfile s).1 h
    rw [total_cons] at hfile
    have hlength := hlengths length List.mem_cons_self
    have htake : (file.take length.toNat).length = length.toNat := by
      rw [List.length_take]
      omega
    rw [putGlyphs] at h ⊢
    rw [ih (by rw [List.length_drop]; omega) h, level_putPiece hs (by omega), htake]
    rfl

end Strings

/-! ## Copying -/

open Strings

theorem copyBytes_of_le (failure : TtfResult) {n : ℕ} {file : List Byte} (h : n ≤ file.length)
    (s : Strings) : copyBytes failure n file s = .ok (file.drop n, s.pputBytes (file.take n)) := by
  induction n generalizing file s with
  | zero => rw [copyBytes, List.take_zero, List.drop_zero]; rfl
  | succ n ih =>
    cases file with
    | nil => exact absurd h (Nat.not_succ_le_zero n)
    | cons c file => exact ih (Nat.le_of_succ_le_succ h) (s.pputBYTE c)

theorem copyBytes_of_lt (failure : TtfResult) {n : ℕ} {file : List Byte} (h : file.length < n)
    (s : Strings) : copyBytes failure n file s = .error failure := by
  induction n generalizing file s with
  | zero => exact absurd h (Nat.not_lt_zero _)
  | succ n ih =>
    cases file with
    | nil => rfl
    | cons c file => exact ih (Nat.lt_of_succ_lt_succ h) (s.pputBYTE c)

/-- All glyphs end at even offsets and in the file. -/
def GlyphsReadable (lengths : List ULong) (file : List Byte) : Prop :=
  (∀ length ∈ lengths, length % 2 = 0) ∧ total lengths ≤ file.length

theorem glyphLoop_of_readable {lengths : List ULong} {file : List Byte} (h : GlyphsReadable lengths file)
    (n : ULong) (s : Strings) :
    glyphLoop lengths file n s = .ok (n + BitVec.ofNat 32 (total lengths), putGlyphs lengths file s) := by
  obtain ⟨heven, hfile⟩ := h
  induction lengths generalizing file n s with
  | nil => simp [glyphLoop, putGlyphs]
  | cons length lengths ih =>
    rw [total_cons] at hfile
    rw [List.forall_mem_cons] at heven
    have hsum : n + length + BitVec.ofNat 32 (total lengths) =
        n + BitVec.ofNat 32 (length.toNat + total lengths) := by
      rw [BitVec.ofNat_add, BitVec.ofNat_toNat, BitVec.setWidth_eq, BitVec.add_assoc]
    rw [glyphLoop, if_neg (not_not.2 heven.1), copyBytes_of_le _ (by omega), total_cons, ← hsum]
    exact ih _ _ heven.2 (by rw [List.length_drop]; omega)

theorem glyphLoop_of_not_readable {lengths : List ULong} {file : List Byte}
    (h : ¬GlyphsReadable lengths file) (n : ULong) (s : Strings) :
    ∃ e, glyphLoop lengths file n s = .error e := by
  induction lengths generalizing file n s with
  | nil => exact absurd ⟨fun _ h => absurd h List.not_mem_nil, Nat.zero_le _⟩ h
  | cons length lengths ih =>
    rw [glyphLoop]
    by_cases hodd : length % 2 = 0
    · rw [if_neg (not_not.2 hodd)]
      rcases Nat.lt_or_ge file.length length.toNat with hshort | hlong
      · exact ⟨_, by rw [copyBytes_of_lt _ hshort]; rfl⟩
      · rw [copyBytes_of_le _ hlong]
        refine ih (fun hrest => h ⟨List.forall_mem_cons.2 ⟨hodd, hrest.1⟩, ?_⟩) _ _
        have htotal := hrest.2
        rw [List.length_drop] at htotal
        rw [total_cons]
        omega
    · exact ⟨_, by rw [if_pos hodd]⟩

end Ppr.Libttf
