import Ppr.Libttf.SfntStrings

/-!
# The tables of the sfnts array

Which tables the pass over the directory finds, which of them make it fail, and what it writes for the
others.
-/

namespace Ppr.Libttf

open Strings

/-! ## The pass over the directory -/

/-- The number that the name of a table is. -/
def tagOf (name : String) : ULong := getULONG (ascii name)

/-- A directory in order. -/
def Sorted (ptr : List Entry) : Prop := ptr.Pairwise fun e e' => e.tag.toNat ≤ e'.tag.toNat

/-- The first entry with a name. -/
def entryOf (name : String) (ptr : List Entry) : Option Entry := ptr.find? fun e => e.tag = tagOf name

/-- The tables of these names, laid out one after the other. -/
def found : List String → List Entry → ULong → List Table
  | [], _, _ => []
  | name :: names, directory, nextoffset =>
    match entryOf name directory with
    | none => found names directory nextoffset
    | some e =>
      ⟨name, e.offset, nextoffset, e.length, e.checksum⟩ ::
        found names directory (nextoffset + padded e.length)

theorem seek_cons (name : String) (e : Entry) (ptr : List Entry) :
    seek name (e :: ptr) =
      if (tagOf name).toNat < e.tag.toNat then some (none, e :: ptr)
      else if e.tag.toNat < (tagOf name).toNat then seek name ptr
      else some (some e, ptr) := by
  rw [seek]
  simp only [BitVec.lt_def]
  rfl

theorem seek_of_lt {name : String} {ptr : List Entry}
    (h : ∀ e ∈ ptr, e.tag.toNat < (tagOf name).toNat) : seek name ptr = none := by
  induction ptr with
  | nil => rfl
  | cons e ptr ih =>
    rw [List.forall_mem_cons] at h
    rw [seek_cons, if_neg h.1.not_gt, if_pos h.1]
    exact ih h.2

theorem entryOf_eq_none {name : String} {ptr : List Entry}
    (h : ∀ e ∈ ptr, e.tag.toNat ≠ (tagOf name).toNat) : entryOf name ptr = none := by
  rw [entryOf, List.find?_eq_none]
  intro e he
  rw [decide_eq_true_eq]
  exact fun heq => h e he (congrArg BitVec.toNat heq)

/-- It stops behind an entry with the name, or ahead of what is behind the name. -/
theorem seek_of_le {name : String} {ptr : List Entry} (hsorted : Sorted ptr)
    (h : ∃ e ∈ ptr, (tagOf name).toNat ≤ e.tag.toNat) :
    ∃ pre rest, ptr = pre ++ rest ∧ (∀ e ∈ pre, e.tag.toNat ≤ (tagOf name).toNat) ∧
      seek name ptr = some (entryOf name ptr, rest) := by
  induction ptr with
  | nil =>
    obtain ⟨e, he, -⟩ := h
    exact absurd he List.not_mem_nil
  | cons e ptr ih =>
    have hrest := List.pairwise_cons.1 hsorted
    rw [seek_cons]
    rcases lt_trichotomy (tagOf name).toNat e.tag.toNat with hlt | heq | hgt
    · have hnone : entryOf name (e :: ptr) = none := by
        apply entryOf_eq_none
        intro f hf
        rcases List.mem_cons.1 hf with rfl | hf
        · exact hlt.ne'
        · exact (hlt.trans_le (hrest.1 f hf)).ne'
      exact ⟨[], e :: ptr, rfl, by simp, by rw [if_pos hlt, hnone]⟩
    · have hsome : entryOf name (e :: ptr) = some e :=
        List.find?_cons_of_pos (by simp [BitVec.toNat_inj.1 heq])
      refine ⟨[e], ptr, rfl, by simp [heq], ?_⟩
      rw [if_neg heq.not_lt, if_neg heq.not_gt, hsome]
    · have hex : ∃ f ∈ ptr, (tagOf name).toNat ≤ f.tag.toNat := by
        obtain ⟨f, hf, hle⟩ := h
        rcases List.mem_cons.1 hf with rfl | hf
        · exact absurd hgt hle.not_gt
        · exact ⟨f, hf, hle⟩
      have hskip : entryOf name (e :: ptr) = entryOf name ptr :=
        List.find?_cons_of_neg (by simpa using fun h => hgt.ne (congrArg BitVec.toNat h))
      obtain ⟨pre, rest, hptr, hpre, hseek⟩ := ih hrest.2 hex
      refine ⟨e :: pre, rest, by rw [hptr]; rfl, List.forall_mem_cons.2 ⟨hgt.le, hpre⟩, ?_⟩
      rw [if_neg hgt.not_gt, if_pos hgt, hskip, hseek]

theorem found_congr {names : List String} {ptr rest : List Entry}
    (h : ∀ name ∈ names, entryOf name ptr = entryOf name rest) (nextoffset : ULong) :
    found names ptr nextoffset = found names rest nextoffset := by
  induction names generalizing nextoffset with
  | nil => rfl
  | cons name names ih =>
    rw [List.forall_mem_cons] at h
    rw [found, found, h.1]
    cases entryOf name rest with
    | none => exact ih h.2 nextoffset
    | some e => exact congrArg _ (ih h.2 _)

/-- For names in order the pass finds the tables, if it need not read behind the directory. -/
theorem scan_eq {names : List String} {ptr : List Entry}
    (hnames : names.Pairwise fun m n => (tagOf m).toNat < (tagOf n).toNat) (hsorted : Sorted ptr)
    (nextoffset : ULong) :
    ((∀ name ∈ names, ∃ e ∈ ptr, (tagOf name).toNat ≤ e.tag.toNat) →
      scan names ptr nextoffset = some (found names ptr nextoffset)) ∧
    ((∃ name ∈ names, ∀ e ∈ ptr, e.tag.toNat < (tagOf name).toNat) →
      scan names ptr nextoffset = none) := by
  induction names generalizing ptr nextoffset with
  | nil => simp [scan, found]
  | cons name names ih =>
    rw [List.pairwise_cons] at hnames
    by_cases hname : ∃ e ∈ ptr, (tagOf name).toNat ≤ e.tag.toNat
    · obtain ⟨pre, rest, rfl, hpre, hseek⟩ := seek_of_le hsorted hname
      -- what was passed over has none of the other names
      have hbehind : ∀ m ∈ names, ∀ e ∈ pre, e.tag.toNat < (tagOf m).toNat := fun m hm e he =>
        (hpre e he).trans_lt (hnames.1 m hm)
      have hfind : ∀ m ∈ names, entryOf m (pre ++ rest) = entryOf m rest := by
        intro m hm
        have hnone : entryOf m pre = none := entryOf_eq_none fun e he => (hbehind m hm e he).ne
        rw [entryOf, List.find?_append]
        show (entryOf m pre).or _ = _
        rw [hnone]
        rfl
      have hrest := ih hnames.2 (List.pairwise_append.1 hsorted).2.1
      rw [List.forall_mem_cons, List.exists_mem_cons_iff, scan, hseek, found]
      constructor
      · intro h
        have hall : ∀ m ∈ names, ∃ e ∈ rest, (tagOf m).toNat ≤ e.tag.toNat := by
          intro m hm
          obtain ⟨e, he, hle⟩ := h.2 m hm
          rcases List.mem_append.1 he with he | he
          · exact absurd (hbehind m hm e he) hle.not_gt
          · exact ⟨e, he, hle⟩
        cases entryOf name (pre ++ rest) with
        | none =>
          rw [found_congr hfind]
          exact (hrest nextoffset).1 hall
        | some e =>
          dsimp only
          rw [(hrest _).1 hall, found_congr hfind]
          rfl
      · intro h
        have hex : ∃ m ∈ names, ∀ e ∈ rest, e.tag.toNat < (tagOf m).toNat := by
          rcases h with h | ⟨m, hm, h⟩
          · obtain ⟨e, he, hle⟩ := hname
            exact absurd (h e he) hle.not_gt
          · exact ⟨m, hm, fun e he => h e (List.mem_append_right _ he)⟩
        cases entryOf name (pre ++ rest) with
        | none => exact (hrest nextoffset).2 hex
        | some e =>
          dsimp only
          rw [(hrest _).2 hex]
          rfl
    · push Not at hname
      rw [scan, seek_of_lt hname]
      refine ⟨fun h => ?_, fun _ => rfl⟩
      obtain ⟨e, he, hle⟩ := h name List.mem_cons_self
      exact absurd (hname e he) hle.not_gt

/-- It stays in the directory exactly if that has a name not ahead of the last one. -/
theorem scan_tableNames {directory : List Entry} (hsorted : Sorted directory) :
    scan tableNames directory 0 =
      if ∃ e ∈ directory, (tagOf "prep").toNat ≤ e.tag.toNat then some (found tableNames directory 0)
      else none := by
  have hnames : tableNames.Pairwise fun m n => (tagOf m).toNat < (tagOf n).toNat := by decide
  have hlast : ∀ name ∈ tableNames, (tagOf name).toNat ≤ (tagOf "prep").toNat := by decide
  obtain ⟨hsome, hnone⟩ := scan_eq hnames hsorted 0
  split_ifs with h
  · obtain ⟨e, he, hle⟩ := h
    exact hsome fun name hname => ⟨e, he, (hlast name hname).trans hle⟩
  · push Not at h
    exact hnone ⟨"prep", by decide, h⟩

/-! ## The tables that are found -/

theorem mem_found {names : List String} {directory : List Entry} {nextoffset : ULong} {t : Table}
    (h : t ∈ found names directory nextoffset) :
    t.name ∈ names ∧ ∃ e, entryOf t.name directory = some e ∧ t.oldoffset = e.offset ∧ t.length = e.length := by
  induction names generalizing nextoffset with
  | nil => exact absurd h List.not_mem_nil
  | cons name names ih =>
    rw [found] at h
    cases he : entryOf name directory with
    | none =>
      rw [he] at h
      exact ⟨List.mem_cons_of_mem _ (ih h).1, (ih h).2⟩
    | some e =>
      rw [he] at h
      rcases List.mem_cons.1 h with rfl | h
      · exact ⟨List.mem_cons_self, e, he, rfl, rfl⟩
      · exact ⟨List.mem_cons_of_mem _ (ih h).1, (ih h).2⟩

theorem exists_found {names : List String} {directory : List Entry} {name : String} {e : Entry}
    (hname : name ∈ names) (he : entryOf name directory = some e) (nextoffset : ULong) :
    ∃ t ∈ found names directory nextoffset, t.name = name := by
  induction names generalizing nextoffset with
  | nil => exact absurd hname List.not_mem_nil
  | cons m names ih =>
    rw [found]
    rcases List.mem_cons.1 hname with rfl | hname
    · rw [he]
      exact ⟨_, List.mem_cons_self, rfl⟩
    · cases entryOf m directory with
      | none => exact ih hname nextoffset
      | some f =>
        obtain ⟨t, ht, hname⟩ := ih hname (nextoffset + padded f.length)
        exact ⟨t, List.mem_cons_of_mem _ ht, hname⟩

theorem names_found (names : List String) (directory : List Entry) (nextoffset : ULong) :
    ((found names directory nextoffset).map Table.name).Sublist names := by
  induction names generalizing nextoffset with
  | nil => exact List.Sublist.refl _
  | cons name names ih =>
    rw [found]
    cases entryOf name directory with
    | none => exact (ih nextoffset).cons name
    | some e => exact (ih _).cons_cons name

/-- The new offset is what the tables ahead of it take. -/
theorem newoffset_found {names : List String} {directory : List Entry} {nextoffset : ULong}
    {pre post : List Table} {t : Table} (h : found names directory nextoffset = pre ++ t :: post) :
    t.newoffset = nextoffset + (pre.map fun t => padded t.length).sum := by
  induction names generalizing nextoffset pre with
  | nil => exact absurd h.symm (by simp [found])
  | cons name names ih =>
    rw [found] at h
    cases he : entryOf name directory with
    | none =>
      rw [he] at h
      exact ih h
    | some e =>
      rw [he] at h
      cases pre with
      | nil =>
        obtain ⟨rfl, -⟩ := List.cons.inj h
        simp
      | cons u pre =>
        obtain ⟨rfl, hrest⟩ := List.cons.inj h
        rw [ih hrest, List.map_cons, List.sum_cons, BitVec.add_assoc]

/-! ## Sending a table -/

namespace TtFont

variable (font : TtFont)

/-- The lengths of the glyphs. -/
def glyphLengths : List ULong :=
  match font.find "loca" with
  | some e => (List.range font.numGlyphs).map (font.glyphLength (font.bytes e))
  | none => []

/-- What makes the table `glyf` fail. -/
def RefusesGlyf (offset length : ULong) : Prop :=
  font.find "loca" = none ∨ ¬GlyphsReadable font.glyphLengths (font.file.drop offset.toNat) ∨
    length.toNat < total font.glyphLengths % 2 ^ 32

/-- A table of the name, at the place and of the length, makes it fail. -/
def Refuses (name : String) (offset length : ULong) : Prop :=
  length ≠ 0 ∧ if name = "glyf" then font.RefusesGlyf offset length else 65535 < length.toNat

/-- What is sent of a table `glyf` behind its glyphs. -/
def filling (length : ULong) : List Byte :=
  List.replicate (length.toNat - total font.glyphLengths % 2 ^ 32) 0 ++ padding length

/-- The strings after a table that does not make it fail. -/
def put (s : Strings) (t : Table) : Strings :=
  if t.length = 0 then s
  else if t.name = "glyf" then
    (putGlyphs font.glyphLengths (font.file.drop t.oldoffset.toNat) s).pputBytes (font.filling t.length)
  else
    s.putPiece t.length ((font.file.drop t.oldoffset.toNat).take t.length.toNat ++ padding t.length)

/-- What was sent of a table. -/
def sent (t : Table) : List Byte :=
  if t.length = 0 then []
  else if t.name = "glyf" then
    (font.file.drop t.oldoffset.toNat).take (total font.glyphLengths) ++ font.filling t.length
  else (font.file.drop t.oldoffset.toNat).take t.length.toNat ++ padding t.length

theorem content_put (s : Strings) (t : Table) : (font.put s t).content = s.content ++ font.sent t := by
  rw [put, sent]
  split_ifs
  · exact (List.append_nil _).symm
  · rw [content_pputBytes, content_putGlyphs, List.append_assoc]
  · rw [content_putPiece]

end TtFont

/-- The loca table can be loaded. -/
theorem TrueTypeFont.loadTable_eq (font : TrueTypeFont) {name : String} {e : Entry}
    (h : font.find name = some e) : font.loadTable name = .ok (font.bytes e) := by
  have hlength : (font.bytes e).length = e.length.toNat := by
    have hwithin := font.within e (List.mem_of_find?_eq_some h)
    rw [TtFont.bytes, List.length_take, List.length_drop]
    omega
  rw [TtFont.loadTable, h]
  exact if_pos hlength

/-- The lengths of the glyphs are looked up in the table that is there. -/
theorem TrueTypeFont.glyfTable_eq (font : TrueTypeFont) {e : Entry} (h : font.find "loca" = some e)
    (offset length : ULong) (s : Strings) :
    font.glyfTable offset length s =
      (glyphLoop font.glyphLengths (font.file.drop offset.toNat) 0 s >>= fun r =>
        if length < r.1 then .error .glyfSizeinc
        else .ok (r.2.pputBytes (List.replicate (length.toNat - r.1.toNat) 0))) := by
  have hlengths : font.glyphLengths =
      (List.range font.numGlyphs).map (font.glyphLength (font.bytes e)) := by
    rw [TtFont.glyphLengths, h]
  rw [TtFont.glyfTable, font.loadTable_eq h, hlengths]
  rfl

theorem TrueTypeFont.glyfTable_of_refuses (font : TrueTypeFont) {offset length : ULong}
    (h : font.RefusesGlyf offset length) (s : Strings) :
    ∃ e, font.glyfTable offset length s = .error e := by
  cases hloca : font.find "loca" with
  | none => exact ⟨_, by rw [TtFont.glyfTable, TtFont.loadTable, hloca]; rfl⟩
  | some e =>
    rw [font.glyfTable_eq hloca]
    by_cases hread : GlyphsReadable font.glyphLengths (font.file.drop offset.toNat)
    · have hless := (h.resolve_left (by simp [hloca])).resolve_left (not_not.2 hread)
      have hlt : length < BitVec.ofNat 32 (total font.glyphLengths) := by
        rw [BitVec.lt_def, BitVec.toNat_ofNat]
        exact hless
      have hzero : (0 : ULong) + BitVec.ofNat 32 (total font.glyphLengths) =
          BitVec.ofNat 32 (total font.glyphLengths) := BitVec.zero_add _
      rw [glyphLoop_of_readable hread, hzero]
      exact ⟨_, if_pos hlt⟩
    · obtain ⟨f, hf⟩ := glyphLoop_of_not_readable hread 0 s
      exact ⟨f, by rw [hf]; rfl⟩

theorem TrueTypeFont.glyfTable_of_not_refuses (font : TrueTypeFont) {offset length : ULong}
    (h : ¬font.RefusesGlyf offset length) (s : Strings) :
    font.glyfTable offset length s =
      .ok ((putGlyphs font.glyphLengths (font.file.drop offset.toNat) s).pputBytes
        (List.replicate (length.toNat - total font.glyphLengths % 2 ^ 32) 0)) := by
  rw [TtFont.RefusesGlyf, not_or, not_or, not_not, not_lt] at h
  obtain ⟨hloca, hread, hle⟩ := h
  obtain ⟨e, he⟩ := Option.ne_none_iff_exists'.1 hloca
  have hlt : ¬length < BitVec.ofNat 32 (total font.glyphLengths) := by
    rw [BitVec.lt_def, BitVec.toNat_ofNat]
    exact hle.not_gt
  have hzero : (0 : ULong) + BitVec.ofNat 32 (total font.glyphLengths) =
      BitVec.ofNat 32 (total font.glyphLengths) := BitVec.zero_add _
  rw [font.glyfTable_eq he, glyphLoop_of_readable hread, hzero, ← BitVec.toNat_ofNat]
  exact if_neg hlt

theorem TrueTypeFont.sendTable_of_refuses (font : TrueTypeFont) {t : Table}
    (h : font.Refuses t.name t.oldoffset t.length) (s : Strings) :
    ∃ e, font.sendTable s t = .error e := by
  obtain ⟨hlength, h⟩ := h
  rw [TtFont.sendTable, if_neg hlength]
  by_cases hglyf : t.name = "glyf"
  · rw [if_pos hglyf] at h ⊢
    obtain ⟨e, he⟩ := font.glyfTable_of_refuses h s
    exact ⟨e, by rw [he]; rfl⟩
  · rw [if_neg hglyf] at h ⊢
    have hbig : 65535 < t.length := BitVec.lt_def.2 h
    exact ⟨.tblToobig, by rw [if_pos hbig]; rfl⟩

theorem TrueTypeFont.sendTable_of_not_refuses (font : TrueTypeFont) {t : Table}
    (hwithin : t.oldoffset.toNat + t.length.toNat ≤ font.file.length)
    (h : ¬font.Refuses t.name t.oldoffset t.length) (s : Strings) :
    font.sendTable s t = .ok (font.put s t) := by
  rw [TtFont.sendTable, TtFont.put]
  by_cases hlength : t.length = 0
  · rw [if_pos hlength, if_pos hlength]
  · rw [TtFont.Refuses, not_and] at h
    have h := h hlength
    rw [if_neg hlength, if_neg hlength]
    by_cases hglyf : t.name = "glyf"
    · rw [if_pos hglyf] at h
      rw [if_pos hglyf, if_pos hglyf, font.glyfTable_of_not_refuses h, TtFont.filling, pputBytes_append]
      rfl
    · rw [if_neg hglyf] at h
      have hsmall : ¬65535 < t.length := fun hbig => h (BitVec.lt_def.1 hbig)
      have hcopy : t.length.toNat ≤ (font.file.drop t.oldoffset.toNat).length := by
        rw [List.length_drop]
        omega
      rw [if_neg hglyf, if_neg hglyf, if_neg hsmall, copyBytes_of_le _ hcopy, putPiece, pputBytes_append]
      rfl

/-! ## Sending the tables -/

/-- The tables are in the file. -/
def TtFont.Holds (font : TtFont) (tables : List Table) : Prop :=
  ∀ t ∈ tables, t.oldoffset.toNat + t.length.toNat ≤ font.file.length

theorem TrueTypeFont.holds_found (font : TrueTypeFont) (names : List String) (nextoffset : ULong) :
    font.Holds (found names font.directory nextoffset) := by
  intro t ht
  obtain ⟨-, e, he, hoffset, hlength⟩ := mem_found ht
  rw [hoffset, hlength]
  exact font.within e (List.mem_of_find?_eq_some he)

theorem TrueTypeFont.sendTables_of_not_refuses (font : TrueTypeFont) {tables : List Table}
    (hholds : font.Holds tables) (h : ∀ t ∈ tables, ¬font.Refuses t.name t.oldoffset t.length)
    (s : Strings) : tables.foldlM font.sendTable s = .ok (tables.foldl font.put s) := by
  induction tables generalizing s with
  | nil => rfl
  | cons t tables ih =>
    rw [TtFont.Holds, List.forall_mem_cons] at hholds
    rw [List.forall_mem_cons] at h
    rw [List.foldlM_cons, font.sendTable_of_not_refuses hholds.1 h.1]
    exact ih hholds.2 h.2 _

theorem TrueTypeFont.sendTables_of_refuses (font : TrueTypeFont) {tables : List Table}
    (hholds : font.Holds tables) (h : ∃ t ∈ tables, font.Refuses t.name t.oldoffset t.length)
    (s : Strings) : ∃ e, tables.foldlM font.sendTable s = .error e := by
  induction tables generalizing s with
  | nil =>
    obtain ⟨t, ht, -⟩ := h
    exact absurd ht List.not_mem_nil
  | cons t tables ih =>
    rw [TtFont.Holds, List.forall_mem_cons] at hholds
    rw [List.exists_mem_cons_iff] at h
    rw [List.foldlM_cons]
    by_cases ht : font.Refuses t.name t.oldoffset t.length
    · obtain ⟨e, he⟩ := font.sendTable_of_refuses ht s
      exact ⟨e, by rw [he]; rfl⟩
    · rw [font.sendTable_of_not_refuses hholds.1 ht]
      exact ih hholds.2 (h.resolve_left ht) _

theorem TtFont.content_putTables (font : TtFont) (tables : List Table) (s : Strings) :
    (tables.foldl font.put s).content = s.content ++ tables.flatMap font.sent := by
  induction tables generalizing s with
  | nil => exact (List.append_nil _).symm
  | cons t tables ih => rw [List.foldl_cons, ih, font.content_put, List.flatMap_cons, List.append_assoc]

end Ppr.Libttf
