import Ppr.Libttf.SfntTables

/-!
# The sfnts array as a font

What a reader of the strings finds where the directory says that the tables are.  The header is as long
as the new offsets count on only if all nine tables were found, and an entry is left out for a table that
has no bytes.
-/

namespace Ppr.Libttf

open Strings

/-! ## Reading a font -/

/-- `numTables`. -/
def numTables (s : List Byte) : ℕ := (getUSHORT (s.drop 4)).toNat

/-- An entry of the directory. -/
def entryAt (s : List Byte) (i : ℕ) : Entry :=
  let p := s.drop (12 + 16 * i)
  ⟨getULONG p, getULONG (p.drop 4), getULONG (p.drop 8), getULONG (p.drop 12)⟩

/-- An entry of the directory is for the table and says where its bytes are. -/
def Describes (s : List Byte) (i : ℕ) (tag : ULong) (bytes : List Byte) : Prop :=
  (entryAt s i).tag = tag ∧ (entryAt s i).length.toNat = bytes.length ∧
    (s.drop (entryAt s i).offset.toNat).take (entryAt s i).length.toNat = bytes

/-- It is a font with a directory, in which the wanted tables are as they were. -/
def TtFont.IsReduced (font : TtFont) (s : List Byte) : Prop :=
  s.take 4 = font.version ∧ 12 + 16 * numTables s ≤ s.length ∧
    ∀ name ∈ tableNames, ∀ e, font.find name = some e →
      ∃ i < numTables s, Describes s i (tagOf name) (font.bytes e)

/-- It throws, or the strings are short enough and make a font. -/
def TtFont.GoodOutcome (font : TtFont) : Except TtfResult (List (List Byte)) → Prop
  | .error _ => True
  | .ok strings => (∀ str ∈ strings, str.length ≤ 65535) ∧ font.IsReduced (strings.flatMap List.dropLast)

/-- It does not read behind the directory, and what comes out is good. -/
def TtFont.Valid (font : TtFont) : Prop := ∃ outcome, font.psSfnts = some outcome ∧ font.GoodOutcome outcome

/-! ## The condition -/

/-- How full a string is after a table that may have gone into a new one. -/
def levelAfter (level : ℕ) (length : ULong) : ℕ :=
  room level length.toNat + length.toNat + (padding length).length

/-- The font has all nine tables, they have bytes, and it can be cut into strings. -/
structure TtFont.Reducible (font : TtFont) : Prop where
  nonempty : ∀ name ∈ tableNames, ∃ e, font.find name = some e ∧ e.length ≠ 0
  tables_short : ∀ name ∈ tableNames, name ≠ "glyf" → ∀ e, font.find name = some e →
    e.length.toNat ≤ 65532
  glyphs_short : ∀ length ∈ font.glyphLengths, length.toNat ≤ 65534
  /-- Behind its glyphs the table `glyf` has only zeros. -/
  glyf_zeros : ∀ e, font.find "glyf" = some e →
    ∀ b ∈ (font.bytes e).drop (total font.glyphLengths), b = 0
  /-- There is room for these zeros behind the last glyph. -/
  glyf_room : ∀ c f g, font.find "cvt " = some c → font.find "fpgm" = some f → font.find "glyf" = some g →
    fill (levelAfter (levelAfter 156 c.length) f.length) font.glyphLengths +
      (g.length.toNat - total font.glyphLengths) + (padding g.length).length ≤ 65534

/-! ## Numbers -/

theorem getULONG_append {p q : List Byte} (h : p.length = 4) : getULONG (p ++ q) = getULONG p := by
  rw [getULONG, getULONG, List.take_append_of_le_length h.ge]

theorem getULONG_ulongBytes (n : ULong) : getULONG (ulongBytes n) = n := by
  apply BitVec.eq_of_toNat_eq
  have hn := n.isLt
  simp [getULONG, ulongBytes]
  omega

theorem getUSHORT_ushortBytes (n : BitVec 16) (q : List Byte) :
    getUSHORT (ushortBytes n ++ q) = n := by
  apply BitVec.eq_of_toNat_eq
  have hn := n.isLt
  simp [getUSHORT, ushortBytes]
  omega

/-! ## The new directory -/

theorem length_ascii_name {name : String} (h : name ∈ tableNames) : (ascii name).length = 4 := by
  revert name
  decide

theorem length_directoryEntry {count : ℕ} {t : Table} (h : t.name ∈ tableNames) :
    (t.directoryEntry count).length = 16 := by
  simp [Table.directoryEntry, ulongBytes, length_ascii_name h]

theorem drop_flatMap {α : Type} {f : α → List Byte} {k : ℕ} {l : List α} (h : ∀ x ∈ l, (f x).length = k)
    {i : ℕ} (hi : i < l.length) :
    (l.flatMap f).drop (k * i) = f l[i] ++ (l.drop (i + 1)).flatMap f := by
  induction l generalizing i with
  | nil => exact absurd hi (Nat.not_lt_zero _)
  | cons x l ih =>
    rw [List.forall_mem_cons] at h
    cases i with
    | zero => rfl
    | succ i =>
      have hk : k * (i + 1) = (f x).length + k * i := by
        rw [h.1, Nat.mul_succ]
        omega
      rw [List.flatMap_cons, hk, List.drop_length_add_append]
      exact ih h.2 (Nat.lt_of_succ_lt_succ hi)

/-- An entry of the new directory, behind a header of twelve bytes. -/
theorem entryAt_header {count : ℕ} {tables : List Table} (h : ∀ t ∈ tables, t.name ∈ tableNames)
    {head : List Byte} (hhead : head.length = 12) (data : List Byte) {i : ℕ} (hi : i < tables.length) :
    entryAt (head ++ (tables.flatMap (Table.directoryEntry count) ++ data)) i =
      ⟨tagOf tables[i].name, tables[i].checksum, tables[i].newoffset + 12 + BitVec.ofNat 32 (count * 16),
        tables[i].length⟩ := by
  have hentries : ∀ t ∈ tables, (t.directoryEntry count).length = 16 :=
    fun t ht => length_directoryEntry (h t ht)
  have hname := length_ascii_name (h _ (List.getElem_mem hi))
  have hle : 16 * i ≤ (tables.flatMap (Table.directoryEntry count)).length := by
    have hsum : (tables.flatMap (Table.directoryEntry count)).length = 16 * tables.length := by
      rw [List.length_flatMap, List.map_congr_left hentries, List.map_const', List.sum_replicate,
        smul_eq_mul, Nat.mul_comm]
    omega
  have hdrop : (head ++ (tables.flatMap (Table.directoryEntry count) ++ data)).drop (12 + 16 * i) =
      ascii tables[i].name ++ (ulongBytes tables[i].checksum ++
        (ulongBytes (tables[i].newoffset + 12 + BitVec.ofNat 32 (count * 16)) ++
          (ulongBytes tables[i].length ++ ((tables.drop (i + 1)).flatMap (Table.directoryEntry count) ++ data)))) := by
    rw [← hhead, List.drop_length_add_append, List.drop_append_of_le_length hle, drop_flatMap hentries hi]
    simp [Table.directoryEntry]
  have h4 : ∀ (p q : List Byte), p.length = 4 → (p ++ q).drop 4 = q := fun p q hp => by
    rw [← hp, List.drop_left]
  have hul : ∀ n, (ulongBytes n).length = 4 := fun _ => rfl
  rw [entryAt, hdrop]
  have h8 : ∀ l : List Byte, l.drop 8 = (l.drop 4).drop 4 := fun l => by rw [List.drop_drop]
  have h12 : ∀ l : List Byte, l.drop 12 = ((l.drop 4).drop 4).drop 4 := fun l => by
    rw [List.drop_drop, List.drop_drop]
  rw [h8, h12, h4 _ _ hname, h4 _ _ (hul _), h4 _ _ (hul _), getULONG_append hname,
    getULONG_append (hul _), getULONG_append (hul _), getULONG_append (hul _), getULONG_ulongBytes,
    getULONG_ulongBytes, getULONG_ulongBytes]
  rfl

end Ppr.Libttf
