import Ppr.Dotmatrix.Linebuf
import Ppr.Pprdrv.Escaped

/-!
# Reading the line buffer

What a PostScript scanner reads in the strings that `empty_buffer()` writes.  An octal escape of a
control character has fewer than three digits, and a digit that is written right behind it becomes part
of it; and one of the places that close a string writes another operator.
-/

namespace Ppr.Dotmatrix

open Pprdrv (StringMode scanChar scanPlain)

/-! ## The scanner -/

/-- Where the scanner is. -/
inductive Place where
  | outside
  | inside (mode : StringMode) (depth : ℕ)
  /-- Behind a string, before its operator. -/
  | closed
  /-- Behind the operator `p`. -/
  | shown
  deriving DecidableEq

/-- What a character does: bytes of a string, and another place.  A string must be followed by the
operator that shows it, and there are strings and code only. -/
def scanStep (c : Byte) : Place → Option (List Byte × Place)
  | .outside =>
    if c = 40 then some ([], .inside .plain 0) else if isCode c then some ([], .outside) else none
  | .inside mode depth =>
    match scanChar depth c mode with
    | .stop bytes => some (bytes, .closed)
    | .go bytes mode depth => some (bytes, .inside mode depth)
  | .closed => if c = 112 then some ([], .shown) else none
  | .shown => if c = newline then some ([], .outside) else none

/-- The bytes of the strings in a text, and where the scanner is then. -/
def scan : Place → List Byte → Option (List Byte × Place)
  | place, [] => some ([], place)
  | place, c :: text =>
    (scanStep c place).bind fun r => (scan r.2 text).map fun r' => (r.1 ++ r'.1, r'.2)

theorem scan_append (place : Place) (a b : List Byte) :
    scan place (a ++ b) =
      (scan place a).bind fun r => (scan r.2 b).map fun r' => (r.1 ++ r'.1, r'.2) := by
  induction a generalizing place with
  | nil => cases hb : scan place b <;> simp [scan, hb]
  | cons c a ih =>
    rw [List.cons_append, scan, scan]
    cases scanStep c place with
    | none => rfl
    | some r =>
      rw [Option.bind_some, Option.bind_some, ih]
      cases scan r.2 a with
      | none => rfl
      | some r' =>
        simp only [Option.bind_some, Option.map_some]
        cases scan r'.2 b <;> simp

theorem scan_code {text : List Byte} (h : ∀ c ∈ text, isCode c = true) :
    scan .outside text = some ([], .outside) := by
  induction text with
  | nil => rfl
  | cons c text ih =>
    have hc := h c List.mem_cons_self
    have hopen : c ≠ 40 := by
      rintro rfl
      exact absurd hc (by decide)
    have hstep : scanStep c .outside = some ([], .outside) := by
      rw [scanStep, if_neg hopen, if_pos hc]
    rw [scan, hstep, Option.bind_some, ih fun c' hc' => h c' (List.mem_cons_of_mem c hc')]
    rfl

/-! ## Inside a string -/

/-- The byte that an octal escape stands for if it ends here. -/
def pending : StringMode → List Byte
  | .octal _ value => [BitVec.ofNat 8 value]
  | _ => []

/-- Where the scanner can be in a string of the line buffer. -/
def Within : StringMode → Prop
  | .plain => True
  | .octal digits _ => digits = 1 ∨ digits = 2
  | _ => False

theorem within_plain : Within .plain := trivial

/-- A character that is not an octal digit ends an octal escape. -/
theorem scan_pending {mode : StringMode} (h : Within mode) {c : Byte}
    (hc : Pprdrv.isOctal c = false) (text : List Byte) :
    scan (.inside mode 0) (c :: text) =
      (scan (.inside .plain 0) (c :: text)).map fun r => (pending mode ++ r.1, r.2) := by
  match mode, h with
  | .plain, _ =>
    simp only [pending, List.nil_append]
    cases scan (.inside .plain 0) (c :: text) <;> rfl
  | .octal digits value, _ =>
    have hstep : scanStep c (.inside (.octal digits value) 0) =
        (scanStep c (.inside .plain 0)).map fun r => (BitVec.ofNat 8 value :: r.1, r.2) := by
      simp only [scanStep, scanChar, hc]
      change (match (scanPlain 0 c).prepend (BitVec.ofNat 8 value) with
        | .stop bytes => some (bytes, Place.closed)
        | .go bytes mode depth => some (bytes, Place.inside mode depth)) = _
      cases scanPlain 0 c <;> rfl
    rw [scan, scan, hstep]
    cases scanStep c (.inside .plain 0) with
    | none => rfl
    | some r =>
      simp only [Option.map_some, Option.bind_some, pending]
      cases scan r.2 text <;> rfl

/-- What is read of a character, and where the scanner is behind it. -/
def afterChar (c : Byte) : List Byte × StringMode :=
  if c.toNat < 8 then ([], .octal 1 c.toNat)
  else if c.toNat < 32 then ([], .octal 2 c.toNat)
  else ([c], .plain)

theorem scan_charText_plain : ∀ c : Byte,
    scan (.inside .plain 0) (charText c) = some ((afterChar c).1, .inside (afterChar c).2 0) := by
  decide +kernel

theorem afterChar_pending (c : Byte) : (afterChar c).1 ++ pending (afterChar c).2 = [c] := by
  unfold afterChar
  split_ifs
  · simp [pending]
  · simp [pending]
  · rfl

theorem pending_of_control {c : Byte} (h : c.toNat < 32) : pending (afterChar c).2 = [c] := by
  have hnil : (afterChar c).1 = [] := by
    rw [afterChar]
    split_ifs <;> rfl
  have hpending := afterChar_pending c
  rwa [hnil] at hpending

theorem within_afterChar (c : Byte) : Within (afterChar c).2 := by
  unfold afterChar
  split_ifs
  · exact .inl rfl
  · exact .inr rfl
  · trivial

/-- Characters that are not octal digits begin with none. -/
theorem charText_head : ∀ c : Byte, Pprdrv.isOctal c = false →
    (charText c).head?.map Pprdrv.isOctal = some false := by
  decide +kernel

theorem charText_digit : ∀ c : Byte, Pprdrv.isOctal c = true → charText c = [c] := by
  decide +kernel

/-- The digit becomes part of the escape. -/
def Merges (mode : StringMode) (c : Byte) : Prop := pending mode ≠ [] ∧ Pprdrv.isOctal c = true

/-- A character in a string. -/
theorem scan_charText {mode : StringMode} (h : Within mode) {c : Byte} (hc : ¬Merges mode c) :
    scan (.inside mode 0) (charText c) =
      some (pending mode ++ (afterChar c).1, .inside (afterChar c).2 0) := by
  by_cases hp : pending mode = []
  · have hplain : mode = .plain := by
      match mode, h, hp with
      | .plain, _, _ => rfl
    rw [hplain, scan_charText_plain]
    rfl
  · have hoctal : Pprdrv.isOctal c = false := by
      by_contra hne
      exact hc ⟨hp, by simpa using hne⟩
    have hhead := charText_head c hoctal
    cases htext : charText c with
    | nil =>
      rw [htext] at hhead
      cases hhead
    | cons f text =>
      rw [htext] at hhead
      rw [scan_pending h (Option.some.inj hhead), ← htext, scan_charText_plain]
      rfl

/-- A digit that becomes part of an escape is not read as a byte. -/
theorem scan_merged {mode : StringMode} (h : Within mode) {c : Byte} (hc : Merges mode c) :
    ∃ bytes mode', scan (.inside mode 0) (charText c) = some (bytes, .inside mode' 0) ∧ Within mode' ∧
      bytes.length + (pending mode').length = 1 := by
  rw [charText_digit c hc.2]
  match mode, h, hc with
  | .octal 1 value, _, hc =>
    refine ⟨[], .octal 2 (value * 8 + (c.toNat - 48)), ?_, .inr rfl, rfl⟩
    simp [scan, scanStep, scanChar, hc.2]
  | .octal 2 value, _, hc =>
    refine ⟨[BitVec.ofNat 8 (value * 8 + (c.toNat - 48))], .plain, ?_, trivial, rfl⟩
    simp [scan, scanStep, scanChar, hc.2]
  | .plain, _, hc => exact absurd rfl hc.1

/-- Spaces in a string. -/
theorem scan_spaces {mode : StringMode} (h : Within mode) (n : ℕ) :
    scan (.inside mode 0) (List.replicate (n + 1) 32) =
      some (pending mode ++ List.replicate (n + 1) 32, .inside .plain 0) := by
  have along : ∀ n, scan (.inside .plain 0) (List.replicate n 32) =
      some (List.replicate n 32, .inside .plain 0) := by
    intro n
    induction n with
    | zero => rfl
    | succ n ih =>
      rw [List.replicate_succ, scan]
      change ((some ([32], Place.inside .plain 0)).bind _) = _
      rw [Option.bind_some, ih]
      rfl
  rw [List.replicate_succ, scan_pending h (by decide), ← List.replicate_succ, along]
  rfl

/-- The end of a string, with the operator. -/
theorem scan_close {mode : StringMode} (h : Within mode) :
    scan (.inside mode 0) [41, 112, newline] = some (pending mode, .outside) := by
  have hplain : scan (.inside .plain 0) [41, 112, newline] = some ([], .outside) := by decide
  rw [scan_pending h (by decide), hplain, Option.map_some, List.append_nil]

/-- With another operator it is not shown. -/
theorem scan_wrong {mode : StringMode} (h : Within mode) (text : List Byte) :
    scan (.inside mode 0) (41 :: 115 :: text) = none := by
  rw [scan_pending h (by decide)]
  have hplain : scan (.inside .plain 0) (41 :: 115 :: text) = none := by
    simp [scan, scanStep, scanChar, scanPlain]
  rw [hplain]
  rfl

/-! ## Code between strings -/

/-- A text without strings. -/
def Codes (text : List Byte) : Prop := ∀ c ∈ text, isCode c = true

theorem Codes.append {a b : List Byte} (ha : Codes a) (hb : Codes b) : Codes (a ++ b) :=
  fun c hc => (List.mem_append.1 hc).elim (ha c) (hb c)

theorem codes_nil : Codes [] := nofun

theorem codes_of_all {text : List Byte} (h : text.all isCode = true) : Codes text :=
  List.all_eq_true.1 h

theorem codes_decimal (n : ℕ) : Codes (decimal n) := by
  have hdigit : ∀ c : Byte, isdigit c = true → isCode c = true := by decide +kernel
  exact fun c hc => hdigit c (isdigit_decimal hc)

theorem codes_ite {c : Prop} [Decidable c] {a b : List Byte} (ha : Codes a) (hb : Codes b) :
    Codes (if c then a else b) := by
  split_ifs
  · exact ha
  · exact hb

theorem codes_decimalInt (i : ℤ) : Codes (decimalInt i) :=
  .append (codes_ite (codes_of_all (by decide)) codes_nil) (codes_decimal _)

theorem codes_fontText {D : Type} (F : Floats D) (p : BufferChar D) (s : Line D) :
    Codes (Line.fontText F p s) := by
  unfold Line.fontText
  refine .append (.append (.append (.append (.append ?_ ?_) ?_) ?_) ?_) ?_
  · exact codes_ite ((codes_decimalInt _).append (codes_of_all (by decide))) codes_nil
  · exact codes_ite (codes_of_all (by decide)) codes_nil
  · exact codes_of_all (by decide)
  · exact codes_ite (codes_of_all (by decide)) codes_nil
  · exact codes_ite (codes_of_all (by decide)) codes_nil
  · refine codes_ite (.append (.append (codes_of_all (by decide)) (F.text_code _))
      (codes_of_all (by decide))) ?_
    exact .append (.append (.append (.append (codes_of_all (by decide)) (F.text_code _))
      (codes_of_all (by decide))) (F.text_code _)) (codes_of_all (by decide))

namespace Line

variable {D : Type} {F : Floats D} {p : BufferChar D} {s s' : Line D}

/-- Code has been written, and nothing has happened to a string. -/
def Coded (s s' : Line D) : Prop :=
  s'.stringOpen = s.stringOpen ∧ ∃ code, Codes code ∧ s'.out = s.out ++ code

theorem coded_achievePosition (F : Floats D) (s : Line D) : Coded s (achievePosition F s) := by
  unfold achievePosition
  dsimp only
  split_ifs
  · exact ⟨rfl, _, codes_of_all (by decide), rfl⟩
  · exact ⟨rfl, _, .append (.append (.append (codes_decimalInt _) (codes_of_all (by decide)))
      (codes_decimalInt _)) (codes_of_all (by decide)), rfl⟩
  · exact ⟨rfl, _, .append (codes_decimalInt _) (codes_of_all (by decide)), rfl⟩
  · exact ⟨rfl, _, .append (codes_decimalInt _) (codes_of_all (by decide)), rfl⟩
  · exact ⟨rfl, _, .append (codes_decimalInt _) (codes_of_all (by decide)), rfl⟩
  · exact ⟨rfl, [], codes_nil, (List.append_nil _).symm⟩

/-- The string, if there is one, has been closed, and code has been written. -/
def Broken (s s' : Line D) : Prop :=
  s'.stringOpen = false ∧ ∃ code, Codes code ∧ s'.out = (s.close 112).out ++ code ∧ s'.out ≠ s.out

/-- Nothing has been written. -/
def Silent (s s' : Line D) : Prop := s'.stringOpen = s.stringOpen ∧ s'.out = s.out

theorem close_stringOpen (s : Line D) (op : Byte) : (s.close op).stringOpen = false := by
  unfold close
  cases hs : s.stringOpen
  · exact hs
  · rfl

theorem close_of_closed (h : s.stringOpen = false) (op : Byte) : s.close op = s := by
  rw [close, h]
  rfl

/-- Code behind a string that is closed if it is open. -/
theorem broken_write {code : List Byte} (hcode : Codes code) (hne : code ≠ [])
    (hopen : s'.stringOpen = false) (hout : s'.out = (s.close 112).out ++ code) : Broken s s' := by
  refine ⟨hopen, code, hcode, hout, ?_⟩
  rw [hout, close]
  cases s.stringOpen
  · simpa using hne
  · simp [write]

theorem append_ne_nil_right {a b : List Byte} (h : b ≠ []) : a ++ b ≠ [] :=
  fun h' => h (List.append_eq_nil_iff.1 h').2

theorem underline_spec (F : Floats D) (p : BufferChar D) (s : Line D) :
    Silent s (underline F p s) ∨ Broken s (underline F p s) := by
  unfold underline
  split_ifs
  · exact .inl ⟨rfl, rfl⟩
  · obtain ⟨hopen, code, hcode, hout⟩ := coded_achievePosition F { s.close 112 with xpos := p.xpos }
    have hcode := hcode.append ((codes_decimalInt
      (achievePosition F { s.close 112 with xpos := p.xpos }).ulStart).append
        (codes_of_all (by decide : (ascii " ul\n").all isCode = true)))
    refine .inr (broken_write hcode ?_ ?_ ?_)
    · exact append_ne_nil_right (append_ne_nil_right (by decide))
    · exact hopen.trans (close_stringOpen s 112)
    · rw [← List.append_assoc]
      exact congrArg (· ++ _) hout
  · exact .inl ⟨rfl, rfl⟩

theorem font_spec (F : Floats D) (p : BufferChar D) (s : Line D) :
    newFont F p s = false ∧ s.font F p = s ∨ newFont F p s = true ∧ Broken s (s.font F p) := by
  unfold font
  split_ifs with hnew
  · refine .inr ⟨hnew, broken_write (codes_fontText F p s) ?_ (close_stringOpen s 112) rfl⟩
    unfold fontText
    refine append_ne_nil_right ?_
    split_ifs
    · exact append_ne_nil_right (by decide)
    · exact append_ne_nil_right (by decide)
  · exact .inl ⟨by simpa using hnew, rfl⟩

theorem colour_spec (p : BufferChar D) (s : Line D) :
    p.colour = s.printColour ∧ s.colour p = s ∨
      p.colour ≠ s.printColour ∧ Broken s (s.colour p) := by
  unfold colour
  split_ifs with hnew
  · refine .inr ⟨hnew, broken_write ((codes_decimalInt _).append (codes_of_all (by decide)))
      (append_ne_nil_right (by decide)) (close_stringOpen s 112) rfl⟩
  · exact .inl ⟨not_not.1 hnew, rfl⟩

/-- Where there is no string the operator does not matter. -/
theorem extra_spec (p : BufferChar D) (s : Line D)
    (h : ¬(s.stringOpen = true ∧ p.extraSpace ≠ s.extraSpace)) :
    Silent s (s.extra p) ∨ Broken s (s.extra p) := by
  unfold extra
  split_ifs with hnew
  · have hclosed : s.stringOpen = false := by
      by_contra hopen
      exact h ⟨by simpa using hopen, hnew⟩
    have hcode := (codes_decimalInt p.extraSpace).append
      (codes_of_all (by decide : (ascii " e\n").all isCode = true))
    refine .inr (broken_write hcode (append_ne_nil_right (by decide)) (close_stringOpen s 115) ?_)
    rw [close_of_closed hclosed, close_of_closed hclosed]
    rfl
  · exact .inl ⟨rfl, rfl⟩

/-- Spaces have been written in a string that is still open. -/
def Spaced (s s' : Line D) : Prop :=
  s'.stringOpen = s.stringOpen ∧ ∃ n, s'.out = s.out ++ List.replicate n 32

theorem spaces_spec (F : Floats D) (fuel : ℕ) (rel : D) (s : Line D) :
    ∀ r ∈ spaces F fuel rel s, Spaced s r.1 := by
  induction fuel generalizing rel s with
  | zero =>
    intro r hr
    cases hr
  | succ fuel ih =>
    intro r hr
    rw [spaces] at hr
    split_ifs at hr
    · obtain ⟨hopen, n, hout⟩ := ih _ _ r hr
      refine ⟨hopen, n + 1, ?_⟩
      rw [hout, List.replicate_succ]
      simp [write]
    · cases hr
      exact ⟨rfl, 0, (List.append_nil _).symm⟩

theorem position_spec (F : Floats D) (p : BufferChar D) (fuel : ℕ) (s : Line D) :
    ∀ t ∈ s.position F p fuel, Silent s t ∨
      s.stringOpen = true ∧ ∃ u, Spaced s u ∧ (Silent u t ∨ Silent (u.close 112) t) := by
  intro t ht
  unfold position at ht
  dsimp only at ht
  split_ifs at ht with hplace hmoderate
  · obtain ⟨⟨u, rel⟩, hu, rfl⟩ := Option.map_eq_some_iff.1 ht
    obtain ⟨hopen, n, hout⟩ := spaces_spec F fuel _ _ _ hu
    refine .inr ⟨hplace.1, u, ⟨hopen, n, hout⟩, ?_⟩
    dsimp only
    split_ifs
    · exact .inr ⟨rfl, rfl⟩
    · exact .inl ⟨rfl, rfl⟩
  · cases ht
    refine .inr ⟨hplace.1, s, ⟨rfl, 0, (List.append_nil _).symm⟩, .inr ?_⟩
    have hopen : s.stringOpen = true := hplace.1
    simp [Silent, close, write, hopen]
  · cases ht
    exact .inl ⟨rfl, rfl⟩

theorem openString_spec (F : Floats D) (average : D) (s : Line D) :
    s.stringOpen = true ∧ openString F s average = s ∨ s.stringOpen = false ∧
      (openString F s average).stringOpen = true ∧
      ∃ code, Codes code ∧ (openString F s average).out = s.out ++ code ++ [40] := by
  unfold openString
  split_ifs with hopen
  · exact .inl ⟨hopen, rfl⟩
  · obtain ⟨-, code, hcode, hout⟩ := coded_achievePosition F s
    refine .inr ⟨by simpa using hopen, rfl, ?_⟩
    dsimp only
    split_ifs
    · refine ⟨code ++ (F.text average ++ ascii " s "),
        hcode.append (.append (F.text_code _) (codes_of_all (by decide))), ?_⟩
      simp [write, hout]
    · exact ⟨code, hcode, by simp [write, hout]⟩

/-! ## What the scanner makes of it -/

/-- Where the scanner is when the text so far has been read. -/
def place (s : Line D) (mode : StringMode) : Place :=
  if s.stringOpen then .inside mode 0 else .outside

/-- The bytes that are not spaces. -/
def inked (bytes : List Byte) : List Byte := bytes.filter (· ≠ 32)

theorem inked_append (a b : List Byte) : inked (a ++ b) = inked a ++ inked b := List.filter_append ..

theorem inked_cons {c : Byte} (h : c ≠ 32) (l : List Byte) : inked (c :: l) = c :: inked l :=
  List.filter_cons_of_pos (decide_eq_true h)

theorem inked_spaces (n : ℕ) : inked (List.replicate n 32) = [] := by
  induction n with
  | zero => rfl
  | succ n ih => rw [List.replicate_succ]; exact ih

/-- From `start`, the scanner has read `got` in what the round has written so far. -/
structure Reading (start : Place) (got : List Byte) (s : Line D) (mode : StringMode) : Prop where
  within : Within mode
  plain : s.stringOpen = false → mode = .plain
  read : ∃ bytes, scan start s.out = some (bytes, s.place mode) ∧ inked (bytes ++ pending mode) = got

section

variable {start : Place} {got : List Byte} {mode : StringMode}

theorem Reading.silent (h : Reading start got s mode) (hs : Silent s s') : Reading start got s' mode where
  within := h.within
  plain hopen := h.plain (hs.1.symm.trans hopen)
  read := by
    obtain ⟨bytes, hread, hgot⟩ := h.read
    refine ⟨bytes, ?_, hgot⟩
    rw [hs.2, hread, place, place, hs.1]

/-- What a text adds. -/
theorem Reading.write (h : Reading start got s mode) {text : List Byte} {mode' : StringMode}
    {bytes : List Byte} (hout : s'.out = s.out ++ text)
    (hscan : scan (s.place mode) text = some (bytes, s'.place mode')) (hwithin : Within mode')
    (hplain : s'.stringOpen = false → mode' = .plain) {got' : List Byte}
    (hgot : ∀ before, inked (before ++ pending mode) = got →
      inked (before ++ bytes ++ pending mode') = got') :
    Reading start got' s' mode' where
  within := hwithin
  plain := hplain
  read := by
    obtain ⟨before, hread, hbefore⟩ := h.read
    refine ⟨before ++ bytes, ?_, hgot before hbefore⟩
    rw [hout, scan_append, hread]
    simp [hscan]

theorem Reading.broken (h : Reading start got s mode) (hs : Broken s s') :
    Reading start got s' .plain := by
  obtain ⟨hopen, code, hcode, hout, -⟩ := hs
  cases hstring : s.stringOpen with
  | false =>
    have hscan : scan (s.place mode) code = some ([], s'.place .plain) := by
      rw [place, place, hstring, hopen]
      exact scan_code hcode
    rw [close_of_closed hstring] at hout
    refine h.write hout hscan within_plain (fun _ => rfl) fun before hb => ?_
    rw [h.plain hstring] at hb
    simpa using hb
  | true =>
    have htext : s'.out = s.out ++ ([41, 112, newline] ++ code) := by
      rw [hout, close, hstring]
      simp [Line.write]
    have hscan : scan (s.place mode) ([41, 112, newline] ++ code) =
        some (pending mode, s'.place .plain) := by
      rw [place, place, hstring, hopen, scan_append]
      change ((scan (.inside mode 0) [41, 112, newline]).bind _) = _
      rw [scan_close h.within, Option.bind_some, scan_code hcode]
      simp
    refine h.write htext hscan within_plain (fun _ => rfl) fun before hb => ?_
    rwa [show pending .plain = [] from rfl, List.append_nil]

theorem Reading.spaced (h : Reading start got s mode) (hstring : s.stringOpen = true)
    (hs : Spaced s s') : Silent s s' ∨ s'.out ≠ s.out ∧ Reading start got s' .plain := by
  obtain ⟨hopen, n, hout⟩ := hs
  cases n with
  | zero => exact .inl ⟨hopen, by simpa using hout⟩
  | succ n =>
    have hscan : scan (s.place mode) (List.replicate (n + 1) 32) =
        some (pending mode ++ List.replicate (n + 1) 32, s'.place .plain) := by
      rw [place, place, hopen, hstring]
      exact scan_spaces h.within n
    refine .inr ⟨by simp [hout], h.write hout hscan within_plain (fun _ => rfl) fun before hb => ?_⟩
    rw [show pending .plain = [] from rfl, List.append_nil, ← List.append_assoc, inked_append,
      inked_spaces, List.append_nil]
    exact hb

theorem Reading.opened (h : Reading start got s mode) (hstring : s.stringOpen = false)
    (hopen : s'.stringOpen = true) {code : List Byte} (hcode : Codes code)
    (hout : s'.out = s.out ++ code ++ [40]) : Reading start got s' .plain := by
  have hscan : scan (s.place mode) (code ++ [40]) = some ([], s'.place .plain) := by
    rw [place, place, hstring, hopen, scan_append]
    change ((scan .outside code).bind _) = _
    rw [scan_code hcode]
    rfl
  rw [List.append_assoc] at hout
  refine h.write hout hscan within_plain (fun _ => rfl) fun before hb => ?_
  rw [h.plain hstring] at hb
  simpa using hb

/-- Either nothing has been written, or something has and no escape is open. -/
def Moved (s : Line D) (mode : StringMode) (s' : Line D) (mode' : StringMode) : Prop :=
  Silent s s' ∧ mode' = mode ∨ s'.out ≠ [] ∧ mode' = .plain

theorem Moved.refl (s : Line D) (mode : StringMode) : Moved s mode s mode := .inl ⟨⟨rfl, rfl⟩, rfl⟩

theorem Moved.trans {s'' : Line D} {mode' mode'' : StringMode} (h : Moved s mode s' mode')
    (h' : Moved s' mode' s'' mode'') : Moved s mode s'' mode'' := by
  rcases h' with ⟨hs', rfl⟩ | h'
  · rcases h with ⟨hs, rfl⟩ | ⟨hout, rfl⟩
    · exact .inl ⟨⟨hs'.1.trans hs.1, hs'.2.trans hs.2⟩, rfl⟩
    · exact .inr ⟨by rwa [hs'.2], rfl⟩
  · exact .inr h'

theorem Broken.out_ne_nil (h : Broken s s') : s'.out ≠ [] := by
  obtain ⟨-, code, -, hout, hne⟩ := h
  intro hnil
  rw [hnil] at hout hne
  have hclose := (List.append_eq_nil_iff.1 hout.symm).1
  rw [close] at hclose
  split_ifs at hclose
  · simp [Line.write] at hclose
  · exact hne hclose.symm

theorem Reading.step (h : Reading start got s mode) (hs : Silent s s' ∨ Broken s s') :
    ∃ mode', Reading start got s' mode' ∧ Moved s mode s' mode' := by
  rcases hs with hs | hs
  · exact ⟨mode, h.silent hs, .inl ⟨hs, rfl⟩⟩
  · exact ⟨.plain, h.broken hs, .inr ⟨hs.out_ne_nil, rfl⟩⟩

theorem Reading.position (h : Reading start got s mode) {fuel : ℕ}
    (ht : s' ∈ s.position F p fuel) : ∃ mode', Reading start got s' mode' ∧ Moved s mode s' mode' := by
  rcases position_spec F p fuel s s' ht with hs | ⟨hopen, u, hspaced, hs⟩
  · exact h.step (.inl hs)
  · have hu : ∃ mode', Reading start got u mode' ∧ Moved s mode u mode' := by
      rcases h.spaced hopen hspaced with hs | ⟨hne, hr⟩
      · exact h.step (.inl hs)
      · refine ⟨.plain, hr, .inr ⟨fun hnil => ?_, rfl⟩⟩
        obtain ⟨-, n, hout⟩ := hspaced
        rw [hnil] at hout
        exact hne (by rw [hnil, (List.append_eq_nil_iff.1 hout.symm).1])
    obtain ⟨mode', hr, hmoved⟩ := hu
    have hlast : Silent u s' ∨ Broken u s' := by
      refine hs.imp_right fun hs => ⟨hs.1.trans (close_stringOpen u 112), [], codes_nil, ?_, ?_⟩
      · rw [List.append_nil]
        exact hs.2
      · have hopen : u.stringOpen = true := hspaced.1.trans hopen
        rw [hs.2, close, if_pos hopen]
        simp [Line.write]
    obtain ⟨mode'', hr'', hmoved'⟩ := hr.step hlast
    exact ⟨mode'', hr'', hmoved.trans hmoved'⟩

/-- The extra spacing changes and the string is still open, so that it is not shown. -/
def WrongClose (F : Floats D) (p : BufferChar D) (s : Line D) : Prop :=
  s.stringOpen = true ∧ newFont F p s = false ∧ p.colour = s.printColour ∧ p.extraSpace ≠ s.extraSpace

theorem Reading.prepare (h : Reading start got s mode) (hp : ¬WrongClose F p s) {average : D} {fuel : ℕ}
    (ht : s' ∈ s.prepare F p average fuel) :
    ∃ mode', Reading start got s' mode' ∧ Moved s mode s' mode' ∧ s'.stringOpen = true := by
  obtain ⟨u, hu, rfl⟩ := Option.map_eq_some_iff.1 ht
  have hfont : Silent s (s.font F p) ∨ Broken s (s.font F p) := by
    rcases font_spec F p s with ⟨-, hs⟩ | ⟨-, hs⟩
    · exact .inl (by rw [hs]; exact ⟨rfl, rfl⟩)
    · exact .inr hs
  obtain ⟨m₁, h₁, hm₁⟩ := h.step hfont
  have hcolour : Silent (s.font F p) ((s.font F p).colour p) ∨
      Broken (s.font F p) ((s.font F p).colour p) := by
    rcases colour_spec p (s.font F p) with ⟨-, hs⟩ | ⟨-, hs⟩
    · exact .inl (by rw [hs]; exact ⟨rfl, rfl⟩)
    · exact .inr hs
  obtain ⟨m₂, h₂, hm₂⟩ := h₁.step hcolour
  have hextra := extra_spec p ((s.font F p).colour p) (by
    rintro ⟨hopen, hne⟩
    rcases colour_spec p (s.font F p) with ⟨hsame, hs⟩ | ⟨-, hs⟩
    · rw [hs] at hopen hne
      rcases font_spec F p s with ⟨hnew, hs⟩ | ⟨-, hs⟩
      · rw [hs] at hopen hne hsame
        exact hp ⟨hopen, hnew, hsame, hne⟩
      · rw [hs.1] at hopen
        cases hopen
    · rw [hs.1] at hopen
      cases hopen)
  obtain ⟨m₃, h₃, hm₃⟩ := h₂.step hextra
  obtain ⟨m₄, h₄, hm₄⟩ := h₃.position hu
  have hmoved := hm₁.trans (hm₂.trans (hm₃.trans hm₄))
  rcases openString_spec F average u with ⟨hopen, hs⟩ | ⟨hclosed, hopen, code, hcode, hout⟩
  · rw [hs]
    exact ⟨m₄, h₄, hmoved, hopen⟩
  · refine ⟨.plain, h₄.opened hclosed hopen hcode hout, hmoved.trans (.inr ⟨?_, rfl⟩), hopen⟩
    rw [hout]
    simp

/-- Where the extra spacing closes the string, the text cannot be read. -/
theorem scan_wrongClose (hwithin : Within mode) (hout : s.out = []) (hp : WrongClose F p s) {average : D}
    {fuel : ℕ} (ht : s' ∈ s.prepare F p average fuel) (rest : List Byte) :
    scan (.inside mode 0) (s'.out ++ rest) = none := by
  obtain ⟨hopen, hnew, hsame, hne⟩ := hp
  have hfont : s.font F p = s := by
    rcases font_spec F p s with h | h
    · exact h.2
    · rw [hnew] at h
      cases h.1
  have hcolour : s.colour p = s := if_neg (not_not.2 hsame)
  obtain ⟨u, hu, rfl⟩ := Option.map_eq_some_iff.1 ht
  rw [hfont, hcolour] at hu
  have hextra : (s.extra p).stringOpen = false ∧
      ∃ text, (s.extra p).out = 41 :: 115 :: text := by
    rw [extra, if_pos hne, close, if_pos hopen]
    exact ⟨rfl, _, by simp only [Line.write, hout]; rfl⟩
  obtain ⟨hclosed, text, htext⟩ := hextra
  rcases position_spec F p fuel _ u hu with hs | hs
  · rcases openString_spec F average u with h | ⟨-, -, code, -, hcode⟩
    · rw [hs.1, hclosed] at h
      cases h.1
    · rw [hcode, hs.2, htext, List.cons_append, List.cons_append, List.cons_append, List.cons_append,
        List.cons_append, List.cons_append]
      exact scan_wrong hwithin _
  · rw [hclosed] at hs
    cases hs.1

/-- A character behind which nothing has been written. -/
theorem Reading.put (h : Reading start got s mode) (hopen : s.stringOpen = true) (hc : p.c ≠ 32)
    (hm : ¬Merges mode p.c) : Reading start (got ++ [p.c]) (s.put F p) (afterChar p.c).2 := by
  have hscan : scan (s.place mode) (charText p.c) =
      some (pending mode ++ (afterChar p.c).1, (s.put F p).place (afterChar p.c).2) := by
    have hopen' : (s.put F p).stringOpen = true := hopen
    rw [place, place, hopen, hopen']
    exact scan_charText h.within hm
  refine h.write rfl hscan (within_afterChar p.c) (fun hn => ?_) fun before hb => ?_
  · exact absurd (hopen.symm.trans hn) (by decide)
  · have hink : inked [p.c] = [p.c] := inked_cons hc []
    rw [← List.append_assoc, List.append_assoc, afterChar_pending, inked_append, hink, hb]

end

/-! ## Rounds -/

/-- What the scanner is in the middle of behind the last character. -/
def modeBehind : Option Byte → StringMode
  | some c => (afterChar c).2
  | none => .plain

/-- No round closes a string with the wrong operator, and none writes an octal digit right behind a
control character.  Behind `last` nothing has been written. -/
def Readable (F : Floats D) (average : D) (fuel : ℕ) :
    Option Byte → Line D → List (BufferChar D) → Prop
  | _, _, [] => True
  | last, s, p :: ps =>
    let u := underline F p { s with out := [] }
    if p.c = 32 then Readable F average fuel (if u.out = [] then last else none) (u.space p) ps
    else
      ¬WrongClose F p u ∧ ∀ t ∈ u.prepare F p average fuel,
        ¬(t.out = [] ∧ (∃ c ∈ last, c.toNat < 32) ∧ Pprdrv.isOctal p.c = true) ∧
          Readable F average fuel (some p.c) (t.put F p) ps

section

variable {start : Place} {got got' : List Byte} {mode mode' : StringMode}

/-- What is written later is read from where the scanner is. -/
theorem Reading.comp (h : Reading start got s mode) {text : List Byte}
    (h' : Reading (s.place mode) got' { s' with out := text } mode') :
    ∃ before, got = before ++ inked (pending mode) ∧
      Reading start (before ++ got') { s' with out := s.out ++ text } mode' := by
  obtain ⟨bytes, hread, hgot⟩ := h.read
  obtain ⟨bytes', hread', hgot'⟩ := h'.read
  refine ⟨inked bytes, hgot.symm.trans (inked_append _ _), h'.within, h'.plain, bytes ++ bytes', ?_, ?_⟩
  · rw [scan_append, hread]
    have hread' : scan (s.place mode) text = some (bytes', s'.place mode') := hread'
    simp only [Option.bind_some, hread', Option.map_some]
    rfl
  · rw [List.append_assoc, inked_append, hgot']

theorem Reading.comp_none (h : Reading start got s mode) {text : List Byte}
    (h' : scan (s.place mode) text = none) : scan start (s.out ++ text) = none := by
  obtain ⟨bytes, hread, -⟩ := h.read
  rw [scan_append, hread, Option.bind_some, h']
  rfl

/-- What is read of some rounds: it is not more than the characters, and those where the rounds are
readable; otherwise it is less. -/
def Reads (readable : Prop) (last : Option Byte) (s : Line D) (mode : StringMode)
    (chars : List Byte) (r : List Byte × Line D) : Prop :=
  (scan (s.place mode) r.1 = none ∧ ¬readable) ∨
    ∃ got mode', Reading (s.place mode) got { r.2 with out := r.1 } mode' ∧
      got.length ≤ (inked (pending mode)).length + (inked chars).length ∧
      (mode = modeBehind last →
        (readable → got = inked (pending mode) ++ inked chars) ∧
        (¬readable → got.length < (inked (pending mode)).length + (inked chars).length))

/-- A round that is read well, and the others. -/
theorem Reads.cons {readable readable' : Prop} {last last' : Option Byte} {chars : List Byte}
    {r : List Byte × Line D} {c : Byte} {t : Line D} {start : Line D}
    (ht : Reading (start.place mode) (inked (pending mode) ++ inked [c]) t mode')
    (hreadable : mode = modeBehind last → (readable' ↔ readable)) (hnone : readable' → readable)
    (hlast : mode = modeBehind last → mode' = modeBehind last')
    (h : Reads readable last' t mode' chars r) :
    Reads readable' last start mode (c :: chars) (t.out ++ r.1, r.2) := by
  have hchars : inked (c :: chars) = inked [c] ++ inked chars := inked_append [c] chars
  rcases h with ⟨hfail, hr⟩ | ⟨got, m, hread, hle, hsync⟩
  · exact .inl ⟨ht.comp_none hfail, fun h' => hr (hnone h')⟩
  · obtain ⟨before, hbefore, hcomp⟩ := ht.comp hread
    have hlength := congrArg List.length hbefore
    simp only [List.length_append] at hlength
    refine .inr ⟨before ++ got, m, hcomp, ?_, fun hm => ⟨fun h' => ?_, fun h' => ?_⟩⟩
    · rw [hchars, List.length_append, List.length_append]
      omega
    · rw [(hsync (hlast hm)).1 ((hreadable hm).1 h'), hchars, ← List.append_assoc, ← hbefore,
        List.append_assoc]
    · have hlt := (hsync (hlast hm)).2 fun h => h' ((hreadable hm).2 h)
      rw [hchars, List.length_append, List.length_append]
      omega

/-- A digit that becomes part of an escape is lost. -/
theorem Reads.merged {readable readable' : Prop} {last last' : Option Byte} {chars : List Byte}
    {r : List Byte × Line D} {c : Byte} {t start : Line D}
    (ht : Reading (start.place mode) got t mode') (hgot : got.length ≤ 1) (hc : c ≠ 32)
    (hreadable : mode = modeBehind last → ¬readable') (hnone : readable' → readable)
    (hpending : mode = modeBehind last → (inked (pending mode)).length = 1)
    (h : Reads readable last' t mode' chars r) :
    Reads readable' last start mode (c :: chars) (t.out ++ r.1, r.2) := by
  have hchars : (inked (c :: chars)).length = (inked chars).length + 1 := by
    rw [inked_cons hc, List.length_cons]
  rcases h with ⟨hfail, hr⟩ | ⟨got', m, hread, hle, -⟩
  · exact .inl ⟨ht.comp_none hfail, fun h' => hr (hnone h')⟩
  · obtain ⟨before, hbefore, hcomp⟩ := ht.comp hread
    have hlength := congrArg List.length hbefore
    simp only [List.length_append] at hlength
    refine .inr ⟨before ++ got', m, hcomp, ?_,
      fun hm => ⟨fun h' => absurd h' (hreadable hm), fun _ => ?_⟩⟩
    · rw [hchars, List.length_append]
      omega
    · have hone := hpending hm
      rw [hchars, List.length_append]
      omega

theorem inked_pending_modeBehind {last : Option Byte} (h : pending (modeBehind last) ≠ []) :
    (inked (pending (modeBehind last))).length = 1 ∧ ∃ c ∈ last, c.toNat < 32 := by
  cases last with
  | none => exact absurd rfl h
  | some c =>
    have hc : c.toNat < 32 := by
      by_contra hc
      refine h ?_
      rw [modeBehind, afterChar, if_neg (by omega), if_neg (by omega)]
      rfl
    have hne : c ≠ 32 := by
      rintro rfl
      exact absurd hc (by decide)
    refine ⟨?_, c, rfl, hc⟩
    rw [modeBehind, pending_of_control hc, inked_cons hne]
    rfl

end

theorem readable_space {average : D} {fuel : ℕ} {last : Option Byte} {ps : List (BufferChar D)}
    (hc : p.c = 32) :
    Readable F average fuel last s (p :: ps) ↔
      Readable F average fuel (if (underline F p { s with out := [] }).out = [] then last else none)
        ((underline F p { s with out := [] }).space p) ps := by
  rw [Readable]
  exact iff_of_eq (if_pos hc)

theorem readable_char {average : D} {fuel : ℕ} {last : Option Byte} {ps : List (BufferChar D)}
    (hc : p.c ≠ 32) :
    Readable F average fuel last s (p :: ps) ↔
      ¬WrongClose F p (underline F p { s with out := [] }) ∧
        ∀ t ∈ (underline F p { s with out := [] }).prepare F p average fuel,
          ¬(t.out = [] ∧ (∃ c ∈ last, c.toNat < 32) ∧ Pprdrv.isOctal p.c = true) ∧
            Readable F average fuel (some p.c) (t.put F p) ps := by
  rw [Readable]
  exact iff_of_eq (if_neg hc)

/-- What the scanner reads in the rounds. -/
theorem rounds_spec (F : Floats D) (average : D) (fuel : ℕ) (ps : List (BufferChar D)) (s : Line D)
    (mode : StringMode) (last : Option Byte) (hwithin : Within mode)
    (hplain : s.stringOpen = false → mode = .plain) :
    ∀ r ∈ rounds F average fuel s ps,
      Reads (Readable F average fuel last s ps) last s mode (ps.map (·.c)) r := by
  induction ps generalizing s mode last with
  | nil =>
    intro r hr
    cases hr
    refine .inr ⟨inked (pending mode), mode, ⟨hwithin, hplain, [], rfl, rfl⟩, by simp [inked], ?_⟩
    exact fun _ => ⟨fun _ => by simp [inked], fun h => absurd trivial h⟩
  | cons p ps ih =>
    intro r hr
    obtain ⟨s₁, hround, hr⟩ := Option.bind_eq_some_iff.1 hr
    obtain ⟨r', hr', rfl⟩ := Option.map_eq_some_iff.1 hr
    have hstart : Reading (s.place mode) (inked (pending mode)) { s with out := [] } mode :=
      ⟨hwithin, hplain, [], rfl, rfl⟩
    obtain ⟨mode', hu, hmoved⟩ := hstart.step (underline_spec F p { s with out := [] })
    rw [List.map_cons]
    unfold Line.round at hround
    dsimp only at hround
    split_ifs at hround with hc
    · -- A space.
      cases hround
      have hspace : Reading (s.place mode) (inked (pending mode) ++ inked [p.c])
          ((underline F p { s with out := [] }).space p) mode' := by
        rw [hc]
        exact (List.append_nil (inked (pending mode))).symm ▸ hu.silent ⟨rfl, rfl⟩
      refine Reads.cons hspace (fun _ => readable_space hc) (readable_space hc).1 (fun hm => ?_)
        (ih _ mode' _ hspace.within hspace.plain r' hr')
      rcases hmoved with ⟨hsilent, rfl⟩ | ⟨hout, rfl⟩
      · rwa [if_pos hsilent.2]
      · rw [if_neg hout]
        rfl
    · obtain ⟨t, ht, rfl⟩ := Option.map_eq_some_iff.1 hround
      by_cases hwrong : WrongClose F p (underline F p { s with out := [] })
      · -- Another operator closes the string.
        refine .inl ⟨?_, fun h => ((readable_char hc).1 h).1 hwrong⟩
        rcases underline_spec F p { s with out := [] } with hs | hs
        · have hopen : s.stringOpen = true := hs.1.symm.trans hwrong.1
          rw [place, if_pos hopen]
          change scan _ ((t.out ++ charText p.c) ++ r'.1) = none
          rw [List.append_assoc]
          exact scan_wrongClose hwithin hs.2 hwrong ht _
        · exact absurd (hs.1.symm.trans hwrong.1) (by decide)
      · obtain ⟨mode'', hread, hmoved', hopen⟩ := hu.prepare hwrong ht
        have hall := hmoved.trans hmoved'
        by_cases hm : Merges mode'' p.c
        · -- Nothing has been written behind the escape.
          rcases hall with ⟨hs, rfl⟩ | ⟨-, rfl⟩
          · obtain ⟨bytes, mode₃, hscan, hwithin₃, hone⟩ := scan_merged hread.within hm
            have hput : Reading (s.place mode'') (inked (bytes ++ pending mode₃)) (t.put F p) mode₃ := by
              refine ⟨hwithin₃, fun hn => absurd (hopen.symm.trans hn) (by decide), bytes, ?_, rfl⟩
              have hout : (t.put F p).out = charText p.c := congrArg (· ++ charText p.c) hs.2
              have hs₁ : s.stringOpen = true := hs.1.symm.trans hopen
              have hs₂ : (t.put F p).stringOpen = true := hopen
              rw [hout, place, place, if_pos hs₁, if_pos hs₂]
              exact hscan
            refine Reads.merged hput ?_ hc (fun hm' h => ?_)
              (fun h => (((readable_char hc).1 h).2 t ht).2) (fun hm' => ?_) (ih _ mode₃ _ hput.within hput.plain r' hr')
            · refine (List.length_filter_le _ _).trans ?_
              rw [List.length_append, hone]
            · have hlast := (inked_pending_modeBehind (hm' ▸ hm.1)).2
              exact (((readable_char hc).1 h).2 t ht).1 ⟨hs.2, hlast, hm.2⟩
            · rw [hm'] at hm ⊢
              exact (inked_pending_modeBehind hm.1).1
          · exact absurd rfl hm.1
        · have hput := hread.put (F := F) hopen hc hm
          have hink : inked [p.c] = [p.c] := inked_cons hc []
          rw [← hink] at hput
          refine Reads.cons hput
            (fun hsync => ⟨fun h => (((readable_char hc).1 h).2 t ht).2, fun h => ?_⟩)
            (fun h => (((readable_char hc).1 h).2 t ht).2) (fun _ => rfl)
            (ih _ _ (some p.c) hput.within hput.plain r' hr')
          refine (readable_char hc).2 ⟨hwrong, fun t' ht' => ?_⟩
          obtain rfl : t = t' := Option.some.inj (ht.symm.trans ht')
          refine ⟨?_, h⟩
          rintro ⟨hout, ⟨c, hc', hlt⟩, hdigit⟩
          rcases hall with ⟨-, rfl⟩ | ⟨hne, -⟩
          · refine hm ⟨?_, hdigit⟩
            rw [hsync, Option.mem_def.1 hc', modeBehind, pending_of_control hlt]
            exact List.cons_ne_nil c []
          · exact hne hout

theorem finish_spec (F : Floats D) (s : Line D) :
    (s.finish F).stringOpen = false ∧
      (Silent { s with out := [] } (s.finish F) ∨ Broken { s with out := [] } (s.finish F)) := by
  unfold finish
  generalize ({ s with out := [] } : Line D) = t
  dsimp only
  have hclosed := close_stringOpen t 112
  split_ifs with hul
  · obtain ⟨hopen, code, hcode, hout⟩ := coded_achievePosition F (t.close 112)
    have hcode := hcode.append ((codes_decimalInt (t.close 112).ulStart).append
      (codes_of_all (by decide : (ascii " ul\n").all isCode = true)))
    have hfinal : ((achievePosition F (t.close 112)).write
        (decimalInt (t.close 112).ulStart ++ ascii " ul\n")).stringOpen = false := hopen.trans hclosed
    refine ⟨hfinal, .inr (broken_write hcode ?_ hfinal ?_)⟩
    · exact append_ne_nil_right (append_ne_nil_right (by decide))
    · rw [← List.append_assoc]
      exact congrArg (· ++ _) hout
  · refine ⟨hclosed, ?_⟩
    cases hopen : t.stringOpen with
    | false =>
      rw [close_of_closed hopen]
      exact .inl ⟨rfl, rfl⟩
    | true =>
      refine .inr ⟨hclosed, [], codes_nil, (List.append_nil _).symm, ?_⟩
      rw [close, if_pos hopen]
      simp [Line.write]

end Line

/-! ## The buffer -/

/-- Every string is complete and followed by the operator that shows it, and the bytes of the strings
are the characters, except for spaces. -/
def Decodes {D : Type} (out : List Byte) (buffer : List (BufferChar D)) : Prop :=
  ∃ bytes, scan .outside out = some (bytes, .outside) ∧ Line.inked bytes = Line.inked (buffer.map (·.c))

/-- Numbers that are not rounded, with six decimals. -/
def rationals : Floats ℚ where
  ofInt i := i
  toInt d := if 0 ≤ d then ⌊d⌋ else ⌈d⌉
  add := (· + ·)
  sub := (· - ·)
  mul := (· * ·)
  div := (· / ·)
  lt a b := a < b
  le a b := a ≤ b
  eq a b := a = b
  oneAndHalf := 3 / 2
  tolerr := 9 / 5
  text d :=
    let n := ⌊|d| * 10 ^ 6 + 1 / 2⌋₊
    (if d < 0 then [45] else []) ++ decimal (n / 10 ^ 6) ++ 46 ::
      (List.range 6).reverse.map fun i => BitVec.ofNat 8 (48 + n / 10 ^ i % 10)
  text_code d := by
    dsimp only
    refine Codes.append (.append (codes_ite (codes_of_all (by decide)) codes_nil) (codes_decimal _))
      fun c hc => ?_
    rcases List.mem_cons.1 hc with rfl | hc
    · decide
    · obtain ⟨i, -, rfl⟩ := List.mem_map.1 hc
      have hdigit : ∀ n < 10, isCode (BitVec.ofNat 8 (48 + n)) = true := by decide
      exact hdigit _ (Nat.mod_lt _ (by decide))

/-- A character in the plain style. -/
def plainChar (c : Byte) (xpos : ℤ) : BufferChar ℚ where
  style := 0
  hscale := 1
  vscale := 1
  movement := 0
  xpos := xpos
  fixedSpacing := 24
  width := 24
  extraSpace := 0
  c := c
  colour := 0

/-- The variables at the top of a page. -/
def topLine : Line ℚ where
  horizontalUnits := 240
  outStyle := 0
  outHscale := 1
  outVscale := 1
  blbias := 0
  printColour := 0
  extraSpace := 0
  spaceWidth := 24
  postscriptXpos := -1
  postscriptYpos := -1
  lm := 0
  ls := 0
  xpos := 0
  ypos := 0
  acumulatedError := 0

end Ppr.Dotmatrix
