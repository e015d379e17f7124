import Ppr.Dotmatrix.Packing
import Ppr.Libppr.QuotedValue

/-!
# Decoding graphics

What the procedures of the procset read from the data that `graphic()` writes.  In the hexadecimal
form it is the graphic; in the compressed form one more byte comes behind it.
-/

namespace Ppr.Dotmatrix

open PsFilters.Ascii85 (symbols word IsSymbol white encode)

/-! ## ASCII85 -/

theorem tuple_eq (a b c d : Byte) : tuple a b c d = word a b c d := by
  unfold tuple word
  omega

theorem tupleText_eq (n v : ℕ) : tupleText (n + 1) v = (symbols v).take (n + 2) := by
  have h₃ : v % 85 ^ 4 / 85 ^ 3 = v / 85 ^ 3 % 85 := by omega
  have h₂ : v % 85 ^ 4 % 85 ^ 3 / 85 ^ 2 = v / 85 ^ 2 % 85 := by omega
  have h₁ : v % 85 ^ 4 % 85 ^ 3 % 85 ^ 2 / 85 = v / 85 % 85 := by omega
  have h₀ : v % 85 ^ 4 % 85 ^ 3 % 85 ^ 2 % 85 = v % 85 := by omega
  unfold tupleText
  dsimp only
  rw [h₀, h₁, h₂, h₃]
  match n with
  | 0 => rfl
  | 1 => rfl
  | 2 => rfl
  | n + 3 =>
    rw [if_pos (by omega), if_pos (by omega), if_pos (by omega), List.take_of_length_le]
    · rfl
    · change 5 ≤ n + 3 + 2
      omega

theorem isSymbol_tupleText {n v : ℕ} (hv : v < 2 ^ 32) : ∀ c ∈ tupleText (n + 1) v, IsSymbol c := by
  intro c hc
  rw [tupleText_eq] at hc
  exact PsFilters.Ascii85.isSymbol_symbols hv c (List.mem_of_mem_take hc)

theorem not_white_of_isSymbol {c : Byte} (h : IsSymbol c) : white c = false := by
  obtain ⟨h₁, -⟩ := h
  simp only [white, Bool.or_eq_false_iff, decide_eq_false_iff_not]
  refine ⟨⟨⟨⟨⟨?_, ?_⟩, ?_⟩, ?_⟩, ?_⟩, ?_⟩ <;> rintro rfl <;> exact absurd h₁ (by decide)

theorem filter_tupleText {n v : ℕ} (hv : v < 2 ^ 32) :
    (tupleText (n + 1) v).filter (!white ·) = tupleText (n + 1) v :=
  List.filter_eq_self.2 fun c hc => by simp [not_white_of_isSymbol (isSymbol_tupleText hv c hc)]

/-- Where the lines end does not change what is encoded. -/
theorem filter_ascii85Text_cons (n linelen : ℕ) (a b c d : Byte) (rest : List Byte) :
    (ascii85Text (n + 1) linelen (a :: b :: c :: d :: rest)).filter (!white ·) =
      tupleText (n + 1) (word a b c d) ++
        (ascii85Text (n + 1 - 4) (if a85Bpl < linelen + 4 then 4 else linelen + 4) rest).filter
          (!white ·) := by
  have hv := PsFilters.Ascii85.word_lt a b c d
  rw [ascii85Text]
  split_ifs
  · rw [List.filter_append, List.filter_cons_of_neg (by decide), tuple_eq, filter_tupleText hv]
  · rw [List.filter_append, tuple_eq, filter_tupleText hv]

theorem filter_ascii85Text (pad : ℕ) (hpad : pad < 4) : ∀ (linelen : ℕ) (bytes : List Byte),
    (bytes.length + pad) % 4 = 0 →
    (ascii85Text bytes.length linelen (bytes ++ List.replicate pad 0)).filter (!white ·) = encode bytes
  | _, [], _ => by simp [ascii85Text, encode]
  | linelen, [a], h => by
    obtain rfl : pad = 3 := by simp at h; omega
    change (ascii85Text (0 + 1) linelen [a, 0, 0, 0]).filter _ = _
    rw [filter_ascii85Text_cons, tupleText_eq]
    simp [ascii85Text, encode]
  | linelen, [a, b], h => by
    obtain rfl : pad = 2 := by simp at h; omega
    change (ascii85Text (1 + 1) linelen [a, b, 0, 0]).filter _ = _
    rw [filter_ascii85Text_cons, tupleText_eq]
    simp [ascii85Text, encode]
  | linelen, [a, b, c], h => by
    obtain rfl : pad = 1 := by simp at h; omega
    change (ascii85Text (2 + 1) linelen [a, b, c, 0]).filter _ = _
    rw [filter_ascii85Text_cons, tupleText_eq]
    simp [ascii85Text, encode]
  | linelen, a :: b :: c :: d :: rest, h => by
    change (ascii85Text (rest.length + 3 + 1) linelen (a :: b :: c :: d :: (rest ++ _))).filter _ = _
    have hlength : rest.length + 3 + 1 - 4 = rest.length := by omega
    rw [filter_ascii85Text_cons, tupleText_eq, hlength, filter_ascii85Text pad hpad _ rest, encode,
      List.take_of_length_le]
    · change 5 ≤ rest.length + 3 + 2
      omega
    · simp only [List.length_cons] at h
      omega

theorem ascii85Text_zero (linelen : ℕ) (l : List Byte) : ascii85Text 0 linelen l = [] := by
  rw [ascii85Text]
  exact nofun

theorem count_tupleText {n v : ℕ} (hv : v < 2 ^ 32) : (tupleText (n + 1) v).count newline = 0 :=
  List.count_eq_zero.2 fun h => absurd (isSymbol_tupleText hv _ h).1 (by decide)

/-- The ends of lines, where there are `m` tuples in the current one. -/
theorem count_ascii85Text (n m : ℕ) (l : List Byte) (hm : m ≤ 15) (hl : l.length = 4 * ((n + 3) / 4)) :
    (ascii85Text n (4 * m) l).count newline = (m + (n + 3) / 4 - 1) / 15 := by
  induction n using Nat.strong_induction_on generalizing m l with
  | _ n ih =>
    match n, l with
    | 0, l =>
      rw [ascii85Text_zero, List.count_nil]
      omega
    | n + 1, a :: b :: c :: d :: rest =>
      have hv := PsFilters.Ascii85.word_lt a b c d
      have hrest : rest.length = 4 * ((n + 1 - 4 + 3) / 4) := by
        simp only [List.length_cons] at hl
        omega
      rw [ascii85Text, tuple_eq]
      split_ifs with hfull
      · have hnext := ih (n + 1 - 4) (by omega) 1 rest (by omega) hrest
        rw [List.count_append, List.count_cons_self, count_tupleText hv, hnext]
        have hm' : m = 15 := by
          unfold a85Bpl at hfull
          omega
        omega
      · have hm' : m ≤ 14 := by
          unfold a85Bpl at hfull
          omega
        have hnext := ih (n + 1 - 4) (by omega) (m + 1) rest (by omega) hrest
        have hlinelen : 4 * m + 4 = 4 * (m + 1) := by omega
        rw [List.count_append, count_tupleText hv, hlinelen, hnext]
        omega
    | n + 1, [] | n + 1, [_] | n + 1, [_, _] | n + 1, [_, _, _] =>
      simp only [List.length_cons, List.length_nil] at hl
      omega

/-! ## Hexadecimal -/

theorem upperHex_two (b : Byte) : ∃ x y, upperHex 2 b.toNat = [x, y] ∧
    BitVec.ofNat 8 (xdigitValue x * 16 + xdigitValue y) = b := by
  have hlength := (length_upperHex_eq_iff (w := 2) b.toNat).2 b.isLt
  obtain ⟨x, y, hxy⟩ := List.length_eq_two.1 hlength
  have hvalue := hexValue_upperHex 2 b.toNat
  rw [hxy] at hvalue
  refine ⟨x, y, hxy, BitVec.eq_of_toNat_eq ?_⟩
  have hvalue : (0 * 16 + xdigitValue x) * 16 + xdigitValue y = b.toNat := hvalue
  have hlt := b.isLt
  rw [BitVec.toNat_ofNat]
  omega

theorem filter_hexText (linelen : ℕ) (bytes : List Byte) :
    (hexText linelen bytes).filter isxdigit = bytes.flatMap fun b => upperHex 2 b.toNat := by
  induction bytes generalizing linelen with
  | nil => rfl
  | cons b bytes ih =>
    have hdigits : (upperHex 2 b.toNat).filter isxdigit = upperHex 2 b.toNat :=
      List.filter_eq_self.2 fun c hc => isxdigit_upperHex hc
    rw [hexText, List.flatMap_cons]
    split_ifs
    · rw [List.filter_append, List.filter_cons_of_neg (by decide), hdigits, ih]
    · rw [List.filter_append, hdigits, ih]

theorem hexBytes_flatMap (bytes : List Byte) :
    hexBytes (bytes.flatMap fun b => upperHex 2 b.toNat) = bytes := by
  induction bytes with
  | nil => rfl
  | cons b bytes ih =>
    obtain ⟨x, y, hxy, hb⟩ := upperHex_two b
    rw [List.flatMap_cons, hxy, List.cons_append, List.cons_append, List.nil_append, hexBytes, hb, ih]

theorem count_hexText (bytes : List Byte) (m : ℕ) (hm : m ≤ 39) :
    (hexText m bytes).count newline = (m + bytes.length - 1) / 39 := by
  induction bytes generalizing m with
  | nil =>
    rw [hexText, List.count_nil, List.length_nil]
    omega
  | cons b bytes ih =>
    have hdigits : (upperHex 2 b.toNat).count newline = 0 :=
      List.count_eq_zero.2 fun h => absurd (isxdigit_upperHex h) (by decide)
    rw [hexText, List.length_cons]
    split_ifs with hfull
    · unfold hexBpl at hfull
      rw [List.count_append, List.count_cons_self, hdigits, ih 1 (by omega)]
      omega
    · unfold hexBpl at hfull
      rw [List.count_append, hdigits, ih (m + 1) (by omega)]
      omega

/-! ## The block -/

/-- What the procedures read: `ASCII85Decode` and `RunLengthDecode`, or `readhexstring`, which skips
what is not a digit. -/
def Block.decoded (level2 : Bool) (b : Block) : Option (List Byte) :=
  if level2 then (PsFilters.Ascii85.decode b.data).bind PsFilters.RunLength.decode
  else some (hexBytes (b.data.filter isxdigit))

/-- The lines between "%%BeginData:" and "%%EndData". -/
def Block.lines (b : Block) : ℕ := (b.command ++ b.data).count newline

theorem count_decimal (n : ℕ) : (decimal n).count newline = 0 :=
  List.count_eq_zero.2 fun h => by cases isdigit_decimal h

theorem count_commandLine (density length : ℕ) {procedure : String} (pins : ℕ)
    (h : (ascii procedure).count newline = 0) :
    (commandLine density length procedure pins).count newline = 1 := by
  have hspace : (ascii " ").count newline = 0 := by decide
  simp only [commandLine, List.count_append, count_decimal, hspace, h]
  decide

theorem length_readGraphic (countdown : ℕ) (input : List Byte) :
    (readGraphic countdown input).length = countdown := by
  induction countdown generalizing input with
  | zero => rfl
  | succ countdown ih =>
    cases input with
    | nil => rw [readGraphic, List.length_cons, ih]
    | cons c input => rw [readGraphic, List.length_cons, ih]

/-- The data and what is behind it. -/
theorem map_gbufferAt (bytes : List Byte) (memory : ℕ → Byte) :
    (List.range (bytes.length + 1)).map (gbufferAt bytes memory) = bytes ++ [memory bytes.length] := by
  rw [List.range_succ, List.map_append]
  congr 1
  · refine List.ext_getElem (by simp) fun i hi _ => ?_
    have hi : i < bytes.length := by simpa using hi
    simp [gbufferAt, List.getElem?_eq_getElem hi]
  · simp [gbufferAt]

/-- The graphic comes out as it is, and nothing else has been looked at. -/
structure RoundTrips (level2 : Bool) (g : Graphic) (b : Block) : Prop where
  decoded : b.decoded level2 = some g.bytes
  /-- Only what has been read from the input is encoded. -/
  onlyRead : ∀ i ∈ g.reads, i < g.bytes.length
  gbuffer : ∀ i ∈ g.reads, i < maxGbytes
  gbuffer2 : g.used ≤ gbuffer2Size
  lines : b.lines = b.declared

theorem level1_roundTrips {bytes : List Byte} (hpos : 0 < bytes.length) (hle : bytes.length ≤ maxGbytes)
    (density length pins : ℕ) :
    ∀ b ∈ (level1Graphic bytes density length pins).block,
      RoundTrips false (level1Graphic bytes density length pins) b := by
  rintro b ⟨⟩
  have hreads : ∀ i ∈ List.range bytes.length, i < bytes.length := fun i => List.mem_range.1
  refine ⟨?_, hreads, fun i hi => (hreads i hi).trans_le hle, Nat.zero_le _, ?_⟩
  · change some (hexBytes ((hexText 0 bytes ++ [newline]).filter isxdigit)) = some bytes
    have hnewline : [newline].filter isxdigit = [] := by decide
    rw [List.filter_append, filter_hexText, hnewline, List.append_nil, hexBytes_flatMap]
  · simp only [Block.lines, List.count_append, count_commandLine density length pins
      (by decide : (ascii "graphic").count newline = 0), count_hexText bytes 0 (by omega),
      List.count_cons_self, List.count_nil, hexBpl]
    omega

/-- What the level 2 form decodes to, what is looked at for it, and how long it is. -/
theorem level2_spec {bytes : List Byte} (hpos : 0 < bytes.length) (hle : bytes.length ≤ maxGbytes)
    (memory : ℕ → Byte) (density length pins : ℕ) :
    ∀ b ∈ (level2Graphic bytes memory density length pins).block,
      b.decoded true = some (bytes ++ [memory bytes.length]) ∧
        (∀ i, i ∈ (level2Graphic bytes memory density length pins).reads ↔ i ≤ bytes.length) ∧
        (level2Graphic bytes memory density length pins).used ≤ gbuffer2Size ∧ b.lines = b.declared := by
  rintro b ⟨⟩
  unfold maxGbytes at hle
  obtain ⟨⟨codes, hcodes, hdata⟩, hreads⟩ :=
    pack_spec (gbufferAt bytes memory) hpos (by omega : bytes.length + 1 < 2 ^ 32)
  rw [map_gbufferAt] at hdata
  have hdecode := PsFilters.RunLength.decode_codes codes
  have htwice := PsFilters.RunLength.length_codes_le codes
  rw [← hcodes, hdata] at hdecode htwice
  rw [List.length_append, List.length_singleton] at htwice
  have hpadded : (padded (pack (gbufferAt bytes memory) bytes.length).gbuffer2).length =
      4 * (((pack (gbufferAt bytes memory) bytes.length).gbuffer2.length + 3) / 4) := by
    rw [padded, List.length_append, List.length_replicate]
    omega
  refine ⟨?_, fun i => (hreads i).trans Nat.lt_succ_iff, ?_, ?_⟩
  · have htext := filter_ascii85Text
      ((4 - (pack (gbufferAt bytes memory) bytes.length).gbuffer2.length % 4) % 4) (by omega) 0
      (pack (gbufferAt bytes memory) bytes.length).gbuffer2 (by omega)
    have hend : (ascii "~>\n").filter (!white ·) = [126, 62] := by decide
    rw [Block.decoded, if_pos rfl, PsFilters.Ascii85.decode_of_filter]
    · exact hdecode
    · rw [List.filter_append, hend]
      exact congrArg (· ++ _) htext
  · change (padded _).length ≤ _
    rw [hpadded, gbuffer2Size]
    omega
  · have hsome : 0 < (pack (gbufferAt bytes memory) bytes.length).gbuffer2.length := by
      rw [List.length_pos_iff]
      intro hnil
      rw [hnil, PsFilters.RunLength.decode_nil] at hdecode
      exact absurd (Option.some.inj hdecode) (by simp)
    have hend : (ascii "~>\n").count newline = 1 := by decide
    have htext := count_ascii85Text (pack (gbufferAt bytes memory) bytes.length).gbuffer2.length 0 _
      (by omega) hpadded
    rw [Nat.mul_zero] at htext
    simp only [Block.lines, List.count_append, count_commandLine density length pins
      (by decide : (ascii "cgraphic").count newline = 0), htext, hend, a85Bpl]
    omega

/-- What is written for a graphic of a permitted length is in one of the two forms. -/
theorem graphic_block {level2 : Bool} {memory : ℕ → Byte} {mode length : ℕ} {pins : Pins}
    {input : List Byte} {g : Graphic} {b : Block}
    (hg : graphic level2 memory mode pins length input = .ok g) (hb : g.block = some b) :
    ∃ density truePins, 0 < g.bytes.length ∧ g.bytes.length ≤ maxGbytes ∧
      g = if level2 then level2Graphic g.bytes memory density length truePins
        else level1Graphic g.bytes density length truePins := by
  unfold graphic at hg
  split at hg
  · cases hg
  · rename_i density hdensity
    dsimp only at hg
    have hlength := length_readGraphic (shape mode pins length).1 input
    have hpos : (readGraphic (shape mode pins length).1 input).any (· ≠ 0) = true →
        0 < (readGraphic (shape mode pins length).1 input).length := by
      intro hblack
      obtain ⟨c, hc, -⟩ := List.any_eq_true.1 hblack
      exact List.length_pos_of_mem hc
    split_ifs at hg with hbig hblack hlevel
    · cases hg
      exact ⟨density, _, hpos hblack, hlength.trans_le (by omega), (if_pos hlevel).symm⟩
    · cases hg
      exact ⟨density, _, hpos hblack, hlength.trans_le (by omega), (if_neg hlevel).symm⟩
    · cases hg
      cases hb

/-- A graphic that is written comes out as it is, with nothing else looked at, if and only if it is not
compressed. -/
theorem graphic_roundTrips_iff {level2 : Bool} {memory : ℕ → Byte} {mode length : ℕ} {pins : Pins}
    {input : List Byte} {g : Graphic} {b : Block}
    (hg : graphic level2 memory mode pins length input = .ok g) (hb : g.block = some b) :
    RoundTrips level2 g b ↔ level2 = false := by
  obtain ⟨density, truePins, hpos, hle, hform⟩ := graphic_block hg hb
  cases level2 with
  | false =>
    have hroundTrips := level1_roundTrips hpos hle density length truePins
    rw [if_neg Bool.false_ne_true] at hform
    rw [← hform] at hroundTrips
    exact iff_of_true (hroundTrips b hb) rfl
  | true =>
    have hspec := level2_spec hpos hle memory density length truePins
    rw [if_pos rfl] at hform
    rw [← hform] at hspec
    refine iff_of_false (fun h => ?_) (by decide)
    have hone := congrArg List.length (Option.some.inj ((hspec b hb).1.symm.trans h.decoded))
    simp at hone

theorem roundTrips_line : ∃ b, (level1Graphic [255] 60 1 8).block = some b ∧
    RoundTrips false (level1Graphic [255] 60 1 8) b :=
  ⟨_, rfl, (graphic_roundTrips_iff
    (show graphic false (fun _ => 0) 0 .pins8or24 1 [255] = .ok (level1Graphic [255] 60 1 8) from rfl)
    rfl).2 rfl⟩

/-- Behind a graphic of one byte there is the next one in memory. -/
theorem not_roundTrips_compressed : ¬∀ (level2 : Bool) (memory : ℕ → Byte) (mode length : ℕ)
    (pins : Pins) (input : List Byte) (g : Graphic) (b : Block),
    graphic level2 memory mode pins length input = .ok g → g.block = some b →
      RoundTrips level2 g b := by
  intro h
  have hpos : 0 < ([255] : List Byte).length := by decide
  have hspec := level2_spec hpos (by decide) (fun _ => 0) 60 1 8 _ rfl
  have hround := h true (fun _ => 0) 0 1 .pins8or24 [255] _ _ rfl rfl
  exact absurd (hround.decoded.symm.trans hspec.1) (by decide)

end Ppr.Dotmatrix
