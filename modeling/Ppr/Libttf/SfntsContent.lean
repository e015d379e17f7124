import Ppr.Libttf.SfntLayout

/-!
# The font in the sfnts array

What is written for a font that is not refused, and what a reader finds in it.  There are as many entries
as tables were found, so each must be for one of these.
-/

namespace Ppr.Libttf

open Strings

/-! ## The tables of a font -/

/-- The tables that the pass over the directory finds. -/
def TtFont.tables (font : TtFont) : List Table := found tableNames font.directory 0

namespace TrueTypeFont

variable (font : TrueTypeFont)

theorem find_of_mem {t : Table} (h : t ∈ font.tables) :
    t.name ∈ tableNames ∧ ∃ e, font.find t.name = some e ∧ t.length = e.length ∧ t.oldoffset = e.offset ∧
      font.original t = font.bytes e := by
  obtain ⟨hname, e, he, hoffset, hlength⟩ := mem_found h
  refine ⟨hname, e, he, hlength, hoffset, ?_⟩
  rw [TtFont.original, hoffset, hlength]
  rfl

theorem mem_of_find {name : String} {e : Entry} (hname : name ∈ tableNames)
    (he : font.find name = some e) :
    ∃ t ∈ font.tables, t.name = name ∧ t.length = e.length ∧ t.oldoffset = e.offset ∧
      font.original t = font.bytes e := by
  obtain ⟨t, ht, rfl⟩ := exists_found hname he 0
  obtain ⟨-, e', he', hlength, hoffset, hbytes⟩ := font.find_of_mem ht
  obtain rfl := Option.some.inj (he'.symm.trans he)
  exact ⟨t, ht, rfl, hlength, hoffset, hbytes⟩

theorem nodup_names : (font.tables.map Table.name).Nodup :=
  (names_found tableNames font.directory 0).nodup (by decide)

theorem length_tables_le : font.tables.length ≤ 9 := by
  have hlength := (names_found tableNames font.directory 0).length_le
  rw [List.length_map] at hlength
  exact hlength

theorem eq_of_tagOf_eq {t u : Table} (ht : t ∈ font.tables) (hu : u ∈ font.tables)
    (h : tagOf t.name = tagOf u.name) : t = u := by
  have htag : ∀ m ∈ tableNames, ∀ n ∈ tableNames, tagOf m = tagOf n → m = n := by decide
  exact List.inj_on_of_nodup_map font.nodup_names ht hu
    (htag _ (font.find_of_mem ht).1 _ (font.find_of_mem hu).1 h)

theorem holds_tables : font.Holds font.tables := font.holds_found tableNames 0

/-! ## What is written -/

/-- The bytes of the strings. -/
def content : List Byte := font.header font.tables ++ font.tables.flatMap font.sent

/-- The strings when all tables were sent. -/
def sentAll : Strings := font.tables.foldl font.put (Strings.start.pputBytes (font.header font.tables))

theorem psSfnts_eq :
    font.psSfnts =
      if ∃ e ∈ font.directory, (tagOf "prep").toNat ≤ e.tag.toNat then
        some (font.tables.foldlM font.sendTable (Strings.start.pputBytes (font.header font.tables)) >>=
          fun s => .ok s.endString.done)
      else none := by
  rw [TtFont.psSfnts, scan_tableNames font.sorted]
  split_ifs <;> rfl

theorem valid_of_refuses (hscan : ∃ e ∈ font.directory, (tagOf "prep").toNat ≤ e.tag.toNat)
    (h : ∃ t ∈ font.tables, font.Refuses t.name t.oldoffset t.length) : font.Valid := by
  obtain ⟨e, he⟩ := font.sendTables_of_refuses font.holds_tables h
    (Strings.start.pputBytes (font.header font.tables))
  refine ⟨.error e, ?_, trivial⟩
  rw [font.psSfnts_eq, if_pos hscan, he]
  rfl

theorem content_sentAll : font.sentAll.content = font.content := by
  rw [sentAll, TtFont.content_putTables, content_pputBytes]
  rfl

theorem flatMap_dropLast_endString (s : Strings) :
    s.endString.done.flatMap List.dropLast = s.content := by
  obtain ⟨done, cur⟩ := s
  cases cur with
  | none => exact (List.append_nil _).symm
  | some c => simp [endString, Strings.content]

theorem valid_iff_of_not_refuses (hscan : ∃ e ∈ font.directory, (tagOf "prep").toNat ≤ e.tag.toNat)
    (h : ∀ t ∈ font.tables, ¬font.Refuses t.name t.oldoffset t.length) :
    font.Valid ↔ font.sentAll.Short ∧ font.IsReduced font.content := by
  have hout : font.psSfnts = some (.ok font.sentAll.endString.done) := by
    rw [font.psSfnts_eq, if_pos hscan, font.sendTables_of_not_refuses font.holds_tables h]
    rfl
  have hgood : font.GoodOutcome (.ok font.sentAll.endString.done) ↔
      font.sentAll.Short ∧ font.IsReduced font.content := by
    rw [TtFont.GoodOutcome, done_endString_iff, flatMap_dropLast_endString, content_sentAll]
  rw [← hgood]
  constructor
  · rintro ⟨outcome, houtcome, hgood⟩
    rwa [Option.some.inj (hout.symm.trans houtcome)]
  · exact fun h => ⟨_, hout, h⟩

/-! ## Entries and tables -/

/-- If there are as many places as things and each thing has one, each place has a thing. -/
theorem exists_of_places {α : Type} {l : List α} (hl : l.Nodup) {P : ℕ → α → Prop}
    (hP : ∀ i, ∀ x ∈ l, ∀ y ∈ l, P i x → P i y → x = y) (h : ∀ x ∈ l, ∃ i < l.length, P i x) :
    ∀ i < l.length, ∃ x ∈ l, P i x := by
  choose f hf hP' using fun j : Fin l.length => h l[j] (List.getElem_mem j.isLt)
  let F : Fin l.length → Fin l.length := fun j => ⟨f j, hf j⟩
  have hinj : Function.Injective F := by
    intro j k hjk
    have hval : f j = f k := congrArg Fin.val hjk
    have heq := hP (f j) _ (List.getElem_mem j.isLt) _ (List.getElem_mem k.isLt) (hP' j)
      (by rw [hval]; exact hP' k)
    exact Fin.ext ((List.Nodup.getElem_inj_iff hl).1 heq)
  intro i hi
  obtain ⟨j, hj⟩ := Finite.injective_iff_surjective.1 hinj ⟨i, hi⟩
  have hval : f j = i := congrArg Fin.val hj
  exact ⟨l[j], List.getElem_mem j.isLt, hval ▸ hP' j⟩

/-- In a font with as many entries as tables were found every entry is for one of them. -/
theorem exists_describes {s : List Byte} (h : font.IsReduced s) (hcount : numTables s = font.tables.length) :
    ∀ i < font.tables.length, ∃ t ∈ font.tables, Describes s i (tagOf t.name) (font.original t) := by
  apply exists_of_places (List.Nodup.of_map _ font.nodup_names)
  · intro i t ht u hu hdt hdu
    exact font.eq_of_tagOf_eq ht hu (hdt.1.symm.trans hdu.1)
  · intro t ht
    obtain ⟨hname, e, he, -, -, hbytes⟩ := font.find_of_mem ht
    obtain ⟨i, hi, hd⟩ := h.2.2 t.name hname e he
    rw [hcount] at hi
    rw [hbytes]
    exact ⟨i, hi, hd⟩

theorem numTables_content : numTables font.content = font.tables.length := by
  have hle := font.length_tables_le
  have hdrop : font.content.drop 4 = ushortBytes (BitVec.ofNat 16 font.tables.length) ++
      ((if font.tables.length = 9 then ushortBytes 7 ++ ushortBytes 3 ++ ushortBytes 81 else []) ++
        (font.tables.filter fun t => t.length ≠ 0).flatMap (Table.directoryEntry font.tables.length) ++
        font.tables.flatMap font.sent) := by
    rw [content, TtFont.header, List.append_assoc, List.append_assoc, List.append_assoc,
      ← font.version_length, List.drop_left]
    simp
  rw [numTables, hdrop, getUSHORT_ushortBytes, BitVec.toNat_ofNat]
  exact Nat.mod_eq_of_lt (by omega)

/-! ## Nine tables -/

/-- The tables that are not passed over. -/
def kept : List Table := font.tables.filter fun t => t.length ≠ 0

theorem roomsOf_of_empty {tables : List Table} (h : ∀ t ∈ tables, t.length = 0) : roomsOf tables = 0 := by
  induction tables with
  | nil => rfl
  | cons t tables ih =>
    rw [List.forall_mem_cons] at h
    rw [roomsOf_cons, h.1, ih h.2]
    rfl

theorem sents_of_empty {tables : List Table} (h : ∀ t ∈ tables, t.length = 0) :
    tables.flatMap font.sent = [] := by
  rw [List.flatMap_eq_nil_iff]
  intro t ht
  rw [TtFont.sent, if_pos (h t ht)]

theorem empty_of_filter {tables : List Table} (h : (tables.filter fun t => t.length ≠ 0) = []) :
    ∀ t ∈ tables, t.length = 0 := by
  intro t ht
  have hnot := List.filter_eq_nil_iff.1 h t ht
  simpa using hnot

theorem ulongBytes_of_lt {n : ULong} (h : n.toNat < 65536) :
    ulongBytes n = [0, 0, (n / 0x100).setWidth 8, n.setWidth 8] := by
  have hhigh : (n / 0x1000000).setWidth 8 = (0 : Byte) := by
    apply BitVec.eq_of_toNat_eq
    simp
    omega
  have hlow : (n / 0x10000).setWidth 8 = (0 : Byte) := by
    apply BitVec.eq_of_toNat_eq
    simp
    omega
  rw [ulongBytes, hhigh, hlow]

theorem getULONG_mod (a b : Byte) (l : List Byte) : (getULONG (a :: b :: 0 :: 0 :: l)).toNat % 65536 = 0 := by
  simp [getULONG]
  omega

/-- With another number of tables the header is too short, and what stands in the place of the first
entry has part of an offset in the place of its name. -/
theorem length_tables_of_isReduced (h : font.IsReduced font.content) : font.tables.length = 9 := by
  by_contra hne
  have hle := font.length_tables_le
  have hcontent : font.content = font.version ++ (ushortBytes (BitVec.ofNat 16 font.tables.length) ++
      (font.kept.flatMap (Table.directoryEntry font.tables.length) ++ font.tables.flatMap font.sent)) := by
    rw [content, TtFont.header, if_neg hne, List.append_nil, List.append_assoc, List.append_assoc]
    rfl
  have hversion := font.version_length
  cases hkept : font.kept with
  | nil =>
    have hlong := h.2.1
    rw [hcontent, hkept, font.sents_of_empty (empty_of_filter hkept)] at hlong
    simp [ushortBytes, hversion] at hlong
    omega
  | cons t rest =>
    obtain ⟨pre, post, htables, hpre, -, -⟩ := List.filter_eq_cons_iff.1 hkept
    have hempty : ∀ u ∈ pre, u.length = 0 := fun u hu => by simpa using hpre u hu
    have hnew : t.newoffset.toNat = 0 := by
      rw [toNat_newoffset htables (by rw [roomsOf_of_empty hempty]; omega), roomsOf_of_empty hempty]
    have hoffset : (t.newoffset + 12 + BitVec.ofNat 32 (font.tables.length * 16)).toNat < 65536 := by
      rw [BitVec.toNat_add, BitVec.toNat_add, hnew, BitVec.toNat_ofNat]
      show ((0 + 12) % 2 ^ 32 + font.tables.length * 16 % 2 ^ 32) % 2 ^ 32 < 65536
      omega
    have hmem : t ∈ font.tables := by
      rw [htables]
      exact List.mem_append_right _ List.mem_cons_self
    have hname := length_ascii_name (font.find_of_mem hmem).1
    have hdrop : ∃ a b l, font.content.drop 12 = a :: b :: 0 :: 0 :: l := by
      obtain ⟨c1, c2, c3, c4, hchecksum⟩ : ∃ c1 c2 c3 c4, ulongBytes t.checksum = [c1, c2, c3, c4] :=
        ⟨_, _, _, _, rfl⟩
      have hhead : (font.version ++ (ushortBytes (BitVec.ofNat 16 font.tables.length) ++
          (ascii t.name ++ [c1, c2]))).length = 12 := by
        simp [ushortBytes, hversion, hname]
      let offset := t.newoffset + 12 + BitVec.ofNat 32 (font.tables.length * 16)
      refine ⟨c3, c4, (offset / 0x100).setWidth 8 :: offset.setWidth 8 :: (ulongBytes t.length ++
        (rest.flatMap (Table.directoryEntry font.tables.length) ++ font.tables.flatMap font.sent)), ?_⟩
      rw [hcontent, hkept, List.flatMap_cons, Table.directoryEntry, hchecksum, ulongBytes_of_lt hoffset,
        ← hhead]
      refine Eq.trans (congrArg _ ?_) List.drop_left
      simp [offset]
    obtain ⟨u, hu, hd⟩ := font.exists_describes h font.numTables_content 0 (List.length_pos_of_mem hmem)
    have hlow : ∀ name ∈ tableNames, (tagOf name).toNat % 65536 ≠ 0 := by decide
    obtain ⟨a, b, l, hdrop⟩ := hdrop
    have htag : (entryAt font.content 0).tag = getULONG (a :: b :: 0 :: 0 :: l) := congrArg getULONG hdrop
    apply hlow u.name (font.find_of_mem hu).1
    rw [← hd.1, htag, getULONG_mod]

/-! ## Nine tables with bytes -/

/-- The first twelve bytes, if nine tables were found. -/
def head : List Byte := font.version ++ ushortBytes 9 ++ (ushortBytes 7 ++ ushortBytes 3 ++ ushortBytes 81)

theorem length_head : font.head.length = 12 := by
  simp [head, ushortBytes, font.version_length]

theorem content_of_nine (h : font.tables.length = 9) :
    font.content = font.head ++ (font.kept.flatMap (Table.directoryEntry 9) ++ font.tables.flatMap font.sent) := by
  rw [content, TtFont.header, h, if_pos rfl, List.append_assoc]
  rfl

theorem name_of_mem_kept {t : Table} (h : t ∈ font.kept) : t.name ∈ tableNames :=
  (font.find_of_mem (List.mem_of_mem_filter h)).1

theorem length_directory : (font.kept.flatMap (Table.directoryEntry 9)).length = 16 * font.kept.length := by
  have hentries : ∀ t ∈ font.kept, (t.directoryEntry 9).length = 16 :=
    fun t ht => length_directoryEntry (font.name_of_mem_kept ht)
  rw [List.length_flatMap, List.map_congr_left hentries, List.map_const', List.sum_replicate, smul_eq_mul,
    Nat.mul_comm]

/-- What the tables of a font need so that all of it can be laid out. -/
structure Laid : Prop where
  nine : font.tables.length = 9
  loca : ∀ e, font.find "loca" = some e → e.length.toNat ≤ 65535
  sound : ∀ t ∈ font.tables, font.Sound t

variable {font}

namespace Laid

theorem length_sents (h : font.Laid) : (font.tables.flatMap font.sent).length = roomsOf font.tables :=
  font.length_sents h.loca font.holds_tables h.sound

theorem length_content (h : font.Laid) :
    font.content.length = 12 + 16 * font.kept.length + roomsOf font.tables := by
  rw [font.content_of_nine h.nine, List.length_append, List.length_append, font.length_head,
    font.length_directory, h.length_sents, Nat.add_assoc]

/-- The new offset in the directory. -/
theorem toNat_offset (h : font.Laid) {pre post : List Table} {t : Table}
    (htables : font.tables = pre ++ t :: post) :
    (t.newoffset + 12 + BitVec.ofNat 32 (9 * 16)).toNat = 156 + roomsOf pre := by
  have hfits := font.roomsOf_found h.loca h.sound
  have hsum : roomsOf font.tables = roomsOf pre + roomsOf (t :: post) := by
    rw [htables, roomsOf_append]
  have hall : roomsOf font.tables + 256 < 2 ^ 32 := hfits
  have hnew := toNat_newoffset htables (by omega)
  rw [BitVec.toNat_add, BitVec.toNat_add, hnew]
  show ((roomsOf pre + 12) % 2 ^ 32 + 144) % 2 ^ 32 = _
  omega

theorem entryAt_content (h : font.Laid) {i : ℕ} (hi : i < font.kept.length) :
    entryAt font.content i =
      ⟨tagOf font.kept[i].name, font.kept[i].checksum,
        font.kept[i].newoffset + 12 + BitVec.ofNat 32 (9 * 16), font.kept[i].length⟩ := by
  rw [font.content_of_nine h.nine]
  exact entryAt_header (fun t ht => font.name_of_mem_kept ht) font.length_head _ hi

/-- A table without bytes has no entry, and then the last of the others ends behind the end. -/
theorem nonempty_of_isReduced (h : font.Laid) (hreduced : font.IsReduced font.content) :
    ∀ t ∈ font.tables, t.length ≠ 0 := by
  by_contra hempty
  push Not at hempty
  obtain ⟨z, hz, hzero⟩ := hempty
  have hless : font.kept.length < 9 := by
    rw [← h.nine]
    exact List.length_filter_lt_length_iff_exists.2 ⟨z, hz, by simp [hzero]⟩
  have hcount : numTables font.content = 9 := by rw [font.numTables_content, h.nine]
  have hlength := h.length_content
  rcases List.eq_nil_or_concat font.kept with hnil | ⟨init, t, hconcat⟩
  · have hlong := hreduced.2.1
    rw [hcount, hlength, hnil, roomsOf_of_empty (empty_of_filter hnil)] at hlong
    simp at hlong
  · rw [List.concat_eq_append] at hconcat
    -- `t` is the last table with bytes
    obtain ⟨a, b, htables, -, hb⟩ := List.filter_eq_append_iff.1 hconcat
    obtain ⟨c, post, hb, -, hpos, hpost⟩ := List.filter_eq_cons_iff.1 hb
    have hpost := roomsOf_of_empty (empty_of_filter hpost)
    have htables : font.tables = (a ++ c) ++ t :: post := by
      rw [htables, hb, List.append_assoc]
    have hkept : font.kept.length = init.length + 1 := by rw [hconcat, List.length_append]; rfl
    have hi : init.length < font.kept.length := by omega
    have hget : font.kept[init.length] = t := by
      simp only [hconcat, List.getElem_concat_length]
    have hmem : t ∈ font.tables := by
      rw [htables]
      exact List.mem_append_right _ List.mem_cons_self
    obtain ⟨u, hu, hd⟩ :=
      font.exists_describes hreduced font.numTables_content init.length (by rw [h.nine]; omega)
    have hentry := h.entryAt_content hi
    rw [hget] at hentry
    have hut : u = t := by
      have htag := hd.1
      rw [hentry] at htag
      exact (font.eq_of_tagOf_eq hmem hu htag).symm
    have hbytes := congrArg List.length hd.2.2
    rw [hentry, hut, font.length_original (font.holds_tables t hmem), List.length_take, List.length_drop] at hbytes
    dsimp only at hbytes
    rw [h.toNat_offset htables, hlength, htables, roomsOf_append, roomsOf_cons, hpost, roomOf_eq] at hbytes
    have hne : t.length.toNat ≠ 0 := by
      have hpos : t.length ≠ 0 := by simpa using hpos
      exact fun h0 => hpos (BitVec.eq_of_toNat_eq h0)
    omega

/-- What an entry of the directory says. -/
theorem describes_iff (h : font.Laid) (hnonempty : ∀ t ∈ font.tables, t.length ≠ 0) {pre post : List Table}
    {t : Table} (htables : font.tables = pre ++ t :: post) (tag : ULong) (bytes : List Byte) :
    Describes font.content pre.length tag bytes ↔
      tagOf t.name = tag ∧ t.length.toNat = bytes.length ∧ font.body t = bytes := by
  have hkept : font.kept = font.tables := List.filter_eq_self.2 fun u hu => by simpa using hnonempty u hu
  have hi : pre.length < font.kept.length := by
    rw [hkept, htables, List.length_append, List.length_cons]
    omega
  have hget : font.kept[pre.length] = t := by
    simp only [hkept, htables]
    simp
  have hmem : t ∈ font.tables := by
    rw [htables]
    exact List.mem_append_right _ List.mem_cons_self
  have hhead : (font.head ++ font.kept.flatMap (Table.directoryEntry 9)).length = 156 := by
    rw [List.length_append, font.length_head, font.length_directory, hkept, h.nine]
  have hslice : (font.content.drop (156 + roomsOf pre)).take t.length.toNat = font.body t := by
    have hholds := font.holds_tables
    have hsound := h.sound
    rw [font.content_of_nine h.nine, ← List.append_assoc, ← hhead, List.drop_length_add_append, htables]
    rw [htables] at hholds hsound
    exact font.slice_sents h.loca hholds hsound (hnonempty t hmem)
  rw [Describes, h.entryAt_content hi, hget]
  dsimp only
  rw [h.toNat_offset htables, hslice]

/-- It is a font exactly if the tables are sent as they are. -/
theorem isReduced_iff (h : font.Laid) (hnonempty : ∀ t ∈ font.tables, t.length ≠ 0) :
    font.IsReduced font.content ↔ ∀ t ∈ font.tables, font.body t = font.original t := by
  have hcount : numTables font.content = 9 := by rw [font.numTables_content, h.nine]
  constructor
  · intro hreduced t ht
    obtain ⟨pre, post, htables⟩ := List.append_of_mem ht
    have hi : pre.length < font.tables.length := by
      rw [htables, List.length_append, List.length_cons]
      omega
    obtain ⟨u, hu, hd⟩ := font.exists_describes hreduced font.numTables_content pre.length hi
    obtain ⟨htag, -, hbody⟩ := (h.describes_iff hnonempty htables _ _).1 hd
    rwa [← font.eq_of_tagOf_eq ht hu htag] at hbody
  · intro hbody
    have hkept : font.kept = font.tables :=
      List.filter_eq_self.2 fun u hu => by simpa using hnonempty u hu
    refine ⟨?_, ?_, ?_⟩
    · rw [font.content_of_nine h.nine, head, List.append_assoc, List.append_assoc, ← font.version_length,
        List.take_left]
    · rw [hcount, h.length_content, hkept, h.nine]
      omega
    · intro name hname e he
      obtain ⟨t, ht, rfl, hlength, -, hbytes⟩ := font.mem_of_find hname he
      obtain ⟨pre, post, htables⟩ := List.append_of_mem ht
      refine ⟨pre.length, ?_, (h.describes_iff hnonempty htables _ _).2 ⟨rfl, ?_, ?_⟩⟩
      · rw [hcount, ← h.nine, htables, List.length_append, List.length_cons]
        omega
      · rw [← hbytes, font.length_original (font.holds_tables t ht)]
      · rw [← hbytes, hbody t ht]

end Laid

end TrueTypeFont

end Ppr.Libttf
