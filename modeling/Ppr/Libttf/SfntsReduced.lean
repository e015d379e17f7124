import Ppr.Libttf.SfntsContent

/-!
# When the sfnts array is a font

The strings are a font with the tables of the file exactly if the nine tables are there and have bytes,
the strings can take them, and nothing but zeros is behind the last glyph.
-/

namespace Ppr.Libttf

open Strings

namespace TrueTypeFont

variable (font : TrueTypeFont)

/-! ## The lengths of the strings -/

/-- A table with bytes that goes into one string. -/
structure Plain (t : Table) : Prop where
  nonempty : t.length ≠ 0
  name : t.name ≠ "glyf"
  length_le : t.length.toNat ≤ 65535
  within : t.oldoffset.toNat + t.length.toNat ≤ font.file.length

theorem put_of_plain {t : Table} (h : font.Plain t) (s : Strings) :
    font.put s t = s.putPiece t.length (font.original t ++ padding t.length) := by
  rw [TtFont.put, if_neg h.nonempty, if_neg h.name]
  rfl

theorem length_of_plain {t : Table} (h : font.Plain t) :
    (font.original t ++ padding t.length).length = t.length.toNat + (padding t.length).length := by
  rw [List.length_append, font.length_original h.within]

theorem short_put_of_plain {t : Table} (h : font.Plain t) (s : Strings) :
    (font.put s t).Short ↔ s.Short ∧ t.length.toNat ≤ 65532 := by
  have hroom := font.length_of_plain h
  have hlength := h.length_le
  rw [padding, List.length_replicate] at hroom
  rw [font.put_of_plain h, short_putPiece_iff (by rw [padding]; omega) (by rw [padding]; omega), padding,
    hroom]
  refine and_congr_right fun _ => ?_
  omega

theorem level_put_of_plain {t : Table} (h : font.Plain t) {s : Strings} (hs : s.Short) :
    (font.put s t).level = levelAfter s.level t.length := by
  rw [font.put_of_plain h, level_putPiece hs h.length_le, font.length_of_plain h, levelAfter]
  omega

theorem short_putAll_of_plain {tables : List Table} (h : ∀ t ∈ tables, font.Plain t) (s : Strings) :
    (tables.foldl font.put s).Short ↔ s.Short ∧ ∀ t ∈ tables, t.length.toNat ≤ 65532 := by
  induction tables generalizing s with
  | nil => simp
  | cons t tables ih =>
    rw [List.forall_mem_cons] at h
    rw [List.foldl_cons, ih h.2, font.short_put_of_plain h.1, List.forall_mem_cons, and_assoc]

theorem short_put_of_glyf {t : Table} (hglyf : t.name = "glyf") (hlength : t.length ≠ 0)
    (hread : GlyphsReadable font.glyphLengths (font.file.drop t.oldoffset.toNat)) (s : Strings) :
    (font.put s t).Short ↔ (s.Short ∧ ∀ length ∈ font.glyphLengths, length.toNat ≤ 65534) ∧
      fill s.level font.glyphLengths + (font.filling t.length).length ≤ 65534 := by
  rw [TtFont.put, if_neg hlength, if_pos hglyf, short_pputBytes_iff, short_putGlyphs_iff hread.2]
  refine and_congr_right fun h => ?_
  rw [level_putGlyphs hread.2 ((short_putGlyphs_iff hread.2 s).2 h)]

/-- A string that was too long stays too long. -/
theorem short_of_put {s : Strings} {t : Table} (h : (font.put s t).Short) : s.Short := by
  rw [TtFont.put] at h
  split_ifs at h
  · exact h
  · have hglyphs : ∀ (lengths : List ULong) (file : List Byte) (s : Strings),
        (putGlyphs lengths file s).Short → s.Short := by
      intro lengths
      induction lengths with
      | nil => exact fun _ _ h => h
      | cons length lengths ih => exact fun _ _ h => (length_le_of_short (ih _ _ h)).1
    exact hglyphs _ _ _ ((short_pputBytes_iff _ _).1 h).1
  · exact (length_le_of_short h).1

theorem exists_short_put {tables : List Table} {s : Strings} (h : (tables.foldl font.put s).Short) :
    s.Short ∧ ∀ t ∈ tables, ∃ s, (font.put s t).Short := by
  induction tables generalizing s with
  | nil => exact ⟨h, fun _ ht => absurd ht List.not_mem_nil⟩
  | cons t tables ih =>
    obtain ⟨ht, hrest⟩ := ih h
    exact ⟨font.short_of_put ht, List.forall_mem_cons.2 ⟨⟨s, ht⟩, hrest⟩⟩

variable {font}

/-- The lengths of the tables decide whether the strings are short enough. -/
theorem short_sentAll_iff (hnot : ∀ t ∈ font.tables, ¬font.Refuses t.name t.oldoffset t.length)
    (hnonempty : ∀ t ∈ font.tables, t.length ≠ 0) {c f g : Table} {rest : List Table}
    (htables : font.tables = c :: f :: g :: rest)
    (hnames : font.tables.map Table.name = tableNames) :
    font.sentAll.Short ↔ (c.length.toNat ≤ 65532 ∧ f.length.toNat ≤ 65532 ∧
      (∀ length ∈ font.glyphLengths, length.toNat ≤ 65534) ∧
      fill (levelAfter (levelAfter 156 c.length) f.length) font.glyphLengths +
        (font.filling g.length).length ≤ 65534) ∧ ∀ t ∈ rest, t.length.toNat ≤ 65532 := by
  have hnine : font.tables.length = 9 := by
    rw [← List.length_map (f := Table.name), hnames]
    rfl
  have hplain : ∀ t ∈ font.tables, t.name ≠ "glyf" → font.Plain t := by
    intro t ht hname
    have hrefuses := hnot t ht
    rw [TtFont.Refuses, if_neg hname, not_and, not_lt] at hrefuses
    exact ⟨hnonempty t ht, hname, hrefuses (hnonempty t ht), font.holds_tables t ht⟩
  rw [htables] at hnames hplain hnot hnonempty
  simp only [List.map_cons, tableNames, List.cons.injEq] at hnames
  obtain ⟨hc, hf, hg, hrest⟩ := hnames
  have hlevel : (Strings.start.pputBytes (font.header font.tables)).level = 156 := by
    have hkept : (font.tables.filter fun t => t.length ≠ 0) = font.tables :=
      List.filter_eq_self.2 fun u hu => by
        rw [htables] at hu
        simpa using hnonempty u hu
    have hentries : ∀ t ∈ font.tables, (t.directoryEntry 9).length = 16 :=
      fun t ht => length_directoryEntry (font.find_of_mem ht).1
    rw [level_pputBytes, TtFont.header, hnine, if_pos rfl, hkept, List.length_append, List.length_flatMap,
      List.map_congr_left hentries, List.map_const', List.sum_replicate, hnine]
    simp [ushortBytes, font.version_length]
    rfl
  have hshort : (Strings.start.pputBytes (font.header font.tables)).Short := by
    refine ⟨?_, by rw [hlevel]; omega⟩
    rw [done_pputBytes]
    exact fun _ h => absurd h List.not_mem_nil
  have hplainc := hplain c (by simp) (by rw [hc]; decide)
  have hplainf := hplain f (by simp) (by rw [hf]; decide)
  have hplainrest : ∀ t ∈ rest, font.Plain t := by
    intro t ht
    apply hplain t (by simp [ht])
    have hmem : t.name ∈ ["head", "hhea", "hmtx", "loca", "maxp", "prep"] := by
      rw [← hrest]
      exact List.mem_map_of_mem ht
    revert hmem
    generalize t.name = n
    intro hmem hn
    rw [hn] at hmem
    exact absurd hmem (by decide)
  have hrefuses := hnot g (by simp)
  have hglen := hnonempty g (by simp)
  rw [TtFont.Refuses, hg, if_pos rfl, not_and] at hrefuses
  have hrefuses := hrefuses hglen
  rw [TtFont.RefusesGlyf, not_or, not_or, not_not] at hrefuses
  rw [sentAll, htables, List.foldl_cons, List.foldl_cons, List.foldl_cons, ← htables,
    font.short_putAll_of_plain hplainrest, font.short_put_of_glyf hg hglen hrefuses.2.1]
  refine and_congr_left fun _ => ?_
  rw [font.short_put_of_plain hplainf, font.short_put_of_plain hplainc]
  constructor
  · rintro ⟨⟨⟨⟨hs, hc⟩, hf⟩, hglyphs⟩, hfill⟩
    have hcshort := (font.short_put_of_plain hplainc _).2 ⟨hs, hc⟩
    rw [font.level_put_of_plain hplainf hcshort, font.level_put_of_plain hplainc hs, hlevel] at hfill
    exact ⟨hc, hf, hglyphs, hfill⟩
  · rintro ⟨hc, hf, hglyphs, hfill⟩
    have hcshort := (font.short_put_of_plain hplainc _).2 ⟨hshort, hc⟩
    refine ⟨⟨⟨⟨hshort, hc⟩, hf⟩, hglyphs⟩, ?_⟩
    rw [font.level_put_of_plain hplainf hcshort, font.level_put_of_plain hplainc hshort, hlevel]
    exact hfill

/-! ## The condition -/

theorem names_of_nonempty (h : ∀ name ∈ tableNames, ∃ e, font.find name = some e ∧ e.length ≠ 0) :
    font.tables.map Table.name = tableNames := by
  apply (names_found tableNames font.directory 0).eq_of_length_le
  have hsub : tableNames ⊆ font.tables.map Table.name := by
    intro name hname
    obtain ⟨e, he, -⟩ := h name hname
    obtain ⟨t, ht, rfl, -⟩ := font.mem_of_find hname he
    exact List.mem_map_of_mem ht
  have hnodup : tableNames.Nodup := by decide
  exact (hnodup.subperm hsub).length_le

theorem nonempty_of_find (h : ∀ name ∈ tableNames, ∃ e, font.find name = some e ∧ e.length ≠ 0) :
    ∀ t ∈ font.tables, t.length ≠ 0 := by
  intro t ht
  obtain ⟨hname, e, he, hlength, -⟩ := font.find_of_mem ht
  obtain ⟨e', he', hne⟩ := h t.name hname
  obtain rfl := Option.some.inj (he'.symm.trans he)
  rwa [hlength]

theorem loca_le (hnot : ∀ t ∈ font.tables, ¬font.Refuses t.name t.oldoffset t.length) :
    ∀ e, font.find "loca" = some e → e.length.toNat ≤ 65535 := by
  intro e he
  obtain ⟨t, ht, hname, hlength, -⟩ := font.mem_of_find (by decide) he
  by_contra hlong
  refine hnot t ht ⟨?_, ?_⟩
  · intro hzero
    rw [← hlength, hzero] at hlong
    exact hlong (Nat.zero_le _)
  · rw [hname, if_neg (by decide), hlength]
    omega

/-- The first three of nine tables. -/
theorem exists_three (hnames : font.tables.map Table.name = tableNames) :
    ∃ c f g rest, font.tables = c :: f :: g :: rest ∧ c.name = "cvt " ∧ f.name = "fpgm" ∧ g.name = "glyf" := by
  obtain ⟨c, l, htables, hc, hl⟩ := List.map_eq_cons_iff.1 hnames
  obtain ⟨f, l, rfl, hf, hl⟩ := List.map_eq_cons_iff.1 hl
  obtain ⟨g, l, rfl, hg, -⟩ := List.map_eq_cons_iff.1 hl
  exact ⟨c, f, g, l, htables, hc, hf, hg⟩

/-- What is behind the glyphs of a table that is not refused. -/
theorem length_filling (hnot : ∀ t ∈ font.tables, ¬font.Refuses t.name t.oldoffset t.length)
    (hglyphs : ∀ length ∈ font.glyphLengths, length.toNat ≤ 65534) (length : ULong) :
    (font.filling length).length =
      length.toNat - total font.glyphLengths + (padding length).length := by
  have htotal := font.total_le_of_short (loca_le hnot) hglyphs
  rw [TtFont.filling, List.length_append, List.length_replicate, Nat.mod_eq_of_lt (by omega)]

theorem reducible_of_valid (hnot : ∀ t ∈ font.tables, ¬font.Refuses t.name t.oldoffset t.length)
    (hshort : font.sentAll.Short) (hreduced : font.IsReduced font.content) : font.Reducible := by
  have hloca := loca_le hnot
  have hlaid : font.Laid := by
    refine ⟨font.length_tables_of_isReduced hreduced, hloca, fun t ht => ?_⟩
    obtain ⟨s, hs⟩ := (font.exists_short_put hshort).2 t ht
    exact font.sound_of_put hloca (hnot t ht) hs
  have hnonempty := hlaid.nonempty_of_isReduced hreduced
  have hnames : font.tables.map Table.name = tableNames :=
    (names_found tableNames font.directory 0).eq_of_length (by rw [List.length_map]; exact hlaid.nine)
  have hbody := (hlaid.isReduced_iff hnonempty).1 hreduced
  obtain ⟨c, f, g, rest, htables, hc, hf, hg⟩ := exists_three hnames
  obtain ⟨⟨hclen, hflen, hglyphs, hfill⟩, hrest⟩ :=
    (short_sentAll_iff hnot hnonempty htables hnames).1 hshort
  have hlookup : ∀ t ∈ font.tables, ∀ e, font.find t.name = some e → t.length = e.length := by
    intro t ht e he
    obtain ⟨-, e', he', hlength, -⟩ := font.find_of_mem ht
    obtain rfl := Option.some.inj (he'.symm.trans he)
    exact hlength
  have hmem : c ∈ font.tables ∧ f ∈ font.tables ∧ g ∈ font.tables := by simp [htables]
  constructor
  · intro name hname
    rw [← hnames] at hname
    obtain ⟨t, ht, rfl⟩ := List.mem_map.1 hname
    obtain ⟨-, e, he, hlength, -⟩ := font.find_of_mem ht
    exact ⟨e, he, hlength ▸ hnonempty t ht⟩
  · intro name hname hne e he
    rw [← hnames] at hname
    obtain ⟨t, ht, rfl⟩ := List.mem_map.1 hname
    rw [← hlookup t ht e he]
    rw [htables] at ht
    simp only [List.mem_cons] at ht
    rcases ht with rfl | rfl | rfl | ht
    · exact hclen
    · exact hflen
    · exact absurd hg hne
    · exact hrest t ht
  · exact hglyphs
  · intro e he
    obtain ⟨t, ht, hname, -, -, hbytes⟩ := font.mem_of_find (by decide) he
    rw [← hbytes]
    exact (font.body_eq_original_iff (font.holds_tables t ht) (hlaid.sound t ht) (hnonempty t ht)).1
      (hbody t ht) hname
  · intro c' f' g' hc' hf' hg'
    rw [length_filling hnot hglyphs] at hfill
    rw [← hc] at hc'
    rw [← hf] at hf'
    rw [← hg] at hg'
    rw [← hlookup c hmem.1 c' hc', ← hlookup f hmem.2.1 f' hf', ← hlookup g hmem.2.2 g' hg']
    omega

theorem valid_of_reducible (hnot : ∀ t ∈ font.tables, ¬font.Refuses t.name t.oldoffset t.length)
    (h : font.Reducible) : font.sentAll.Short ∧ font.IsReduced font.content := by
  have hloca := loca_le hnot
  have hnames := names_of_nonempty h.nonempty
  have hnonempty := nonempty_of_find h.nonempty
  obtain ⟨c, f, g, rest, htables, hc, hf, hg⟩ := exists_three hnames
  have hmem : c ∈ font.tables ∧ f ∈ font.tables ∧ g ∈ font.tables := by simp [htables]
  have hplain : ∀ t ∈ font.tables, t.name ≠ "glyf" → t.length.toNat ≤ 65532 := by
    intro t ht hne
    obtain ⟨hname, e, he, hlength, -⟩ := font.find_of_mem ht
    rw [hlength]
    exact h.tables_short t.name hname hne e he
  have hshort : font.sentAll.Short := by
    apply (short_sentAll_iff hnot hnonempty htables hnames).2
    refine ⟨⟨hplain c hmem.1 (by rw [hc]; decide), hplain f hmem.2.1 (by rw [hf]; decide),
      h.glyphs_short, ?_⟩, ?_⟩
    · obtain ⟨-, c', hc', hclen, -⟩ := font.find_of_mem hmem.1
      obtain ⟨-, f', hf', hflen, -⟩ := font.find_of_mem hmem.2.1
      obtain ⟨-, g', hg', hglen, -⟩ := font.find_of_mem hmem.2.2
      rw [hc] at hc'
      rw [hf] at hf'
      rw [hg] at hg'
      have hroom := h.glyf_room c' f' g' hc' hf' hg'
      rw [length_filling hnot h.glyphs_short, hclen, hflen, hglen]
      omega
    · intro t ht
      refine hplain t (by simp [htables, ht]) fun hname => ?_
      have hnodup := font.nodup_names
      rw [htables, List.map_cons, List.map_cons, List.map_cons] at hnodup
      have hg' := ((List.nodup_cons.1 (List.nodup_cons.1 hnodup).2).2)
      exact (List.nodup_cons.1 hg').1 (hg ▸ hname ▸ List.mem_map_of_mem ht)
  have hlaid : font.Laid := by
    refine ⟨?_, hloca, fun t ht => ?_⟩
    · rw [← List.length_map (f := Table.name), hnames]
      rfl
    · obtain ⟨s, hs⟩ := (font.exists_short_put hshort).2 t ht
      exact font.sound_of_put hloca (hnot t ht) hs
  refine ⟨hshort, (hlaid.isReduced_iff hnonempty).2 fun t ht => ?_⟩
  apply (font.body_eq_original_iff (font.holds_tables t ht) (hlaid.sound t ht) (hnonempty t ht)).2
  intro hname
  obtain ⟨-, e, he, -, -, hbytes⟩ := font.find_of_mem ht
  rw [hname] at he
  rw [hbytes]
  exact h.glyf_zeros e he

end TrueTypeFont

/-- What comes out is good exactly if the directory has a name that is not ahead of the last one that is
looked for, and the font is refused or can be reduced. -/
theorem valid_iff_reducible (font : TrueTypeFont) :
    font.Valid ↔ (∃ e ∈ font.directory, (tagOf "prep").toNat ≤ e.tag.toNat) ∧
      ((∃ name ∈ tableNames, ∃ e, font.find name = some e ∧ font.Refuses name e.offset e.length) ∨
        font.Reducible) := by
  by_cases hscan : ∃ e ∈ font.directory, (tagOf "prep").toNat ≤ e.tag.toNat
  · rw [and_iff_right hscan]
    by_cases hrefuses : ∃ t ∈ font.tables, font.Refuses t.name t.oldoffset t.length
    · refine iff_of_true (font.valid_of_refuses hscan hrefuses) (.inl ?_)
      obtain ⟨t, ht, hrefuses⟩ := hrefuses
      obtain ⟨hname, e, he, hlength, hoffset, -⟩ := font.find_of_mem ht
      exact ⟨t.name, hname, e, he, hoffset ▸ hlength ▸ hrefuses⟩
    · have hnone : ¬∃ name ∈ tableNames, ∃ e, font.find name = some e ∧
          font.Refuses name e.offset e.length := by
        rintro ⟨name, hname, e, he, hbad⟩
        obtain ⟨t, ht, rfl, hlength, hoffset, -⟩ := font.mem_of_find hname he
        exact hrefuses ⟨t, ht, hoffset ▸ hlength ▸ hbad⟩
      push Not at hrefuses
      rw [or_iff_right hnone, font.valid_iff_of_not_refuses hscan hrefuses]
      exact ⟨fun h => TrueTypeFont.reducible_of_valid hrefuses h.1 h.2,
        TrueTypeFont.valid_of_reducible hrefuses⟩
  · refine iff_of_false ?_ fun h => hscan h.1
    rintro ⟨outcome, houtcome, -⟩
    rw [font.psSfnts_eq, if_neg hscan] at houtcome
    cases houtcome

/-- One of the nine tables, with four bytes. -/
def onePrepFile : TtFont where
  version := [0, 1, 0, 0]
  directory := [⟨tagOf "prep", 0, 28, 4⟩]
  file := [0, 1, 0, 0, 0, 1, 0, 0, 0, 0, 0, 0] ++ ascii "prep" ++ [0, 0, 0, 0, 0, 0, 0, 28, 0, 0, 0, 4] ++
    [176, 1, 44, 45]
  numGlyphs := 0
  longLoca := false

def onePrep : TrueTypeFont where
  toTtFont := onePrepFile
  version_length := rfl
  sorted := List.pairwise_singleton _ _
  within := by decide
  loca_length := by
    intro e he
    have hnone : onePrepFile.find "loca" = none := by rfl
    rw [hnone] at he
    cases he

/-- The header of its font has six bytes and not twelve. -/
theorem not_valid_onePrep : ¬∀ font : TrueTypeFont, font.Valid := by
  intro h
  obtain ⟨outcome, houtcome, hgood⟩ := h onePrep
  have hout : onePrep.psSfnts = some (.ok [[0, 1, 0, 0, 0, 1] ++ ascii "prep" ++
      [0, 0, 0, 0, 0, 0, 0, 28, 0, 0, 0, 4] ++ [176, 1, 44, 45] ++ [0]]) := by rfl
  rw [← Option.some.inj (hout.symm.trans houtcome)] at hgood
  exact absurd hgood.2.2.1 (by decide)

end Ppr.Libttf
