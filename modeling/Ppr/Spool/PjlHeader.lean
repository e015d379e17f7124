import Ppr.Spool.Infile
import Ppr.Libgu.Strings
import Ppr.Libgu.Sscanf

/-!
# The PJL header of an input file

`check_for_PJL()` of `ppr_infile.c`: the commands of the Printer Job Language at the beginning of the
input are taken off it and kept for the queue file, up to the command that selects the language.
-/

namespace Ppr

/-! ## Types of input -/

/-- An entry of `filters[]`. -/
structure FilterEntry where
  inType : ℤ
  mime : Option String
  name : String

def filters : List FilterEntry :=
  [⟨0, some "application/postscript", "postscript"⟩, ⟨1, none, "postscript-d-ps"⟩,
    ⟨2, none, "postscript-pjl"⟩, ⟨3, none, "postscript-tbcp"⟩, ⟨100, none, "lp"⟩,
    ⟨101, none, "lp_autolf"⟩, ⟨105, some "text/plain", "text"⟩, ⟨102, none, "pr"⟩,
    ⟨103, none, "fortran"⟩, ⟨104, none, "email"⟩, ⟨200, none, "cat4"⟩, ⟨201, none, "ditroff"⟩,
    ⟨202, none, "dvi"⟩, ⟨203, none, "wmf"⟩, ⟨204, none, "emf"⟩, ⟨205, none, "mgc"⟩,
    ⟨300, none, "pcl"⟩, ⟨302, none, "hpgl2"⟩, ⟨301, none, "dotmatrix"⟩, ⟨303, none, "pclxl"⟩,
    ⟨304, none, "PCL3GUI"⟩, ⟨500, none, "troff"⟩, ⟨501, none, "tex"⟩, ⟨502, none, "wp"⟩,
    ⟨503, some "application/rtf", "rtf"⟩, ⟨504, none, "texinfo"⟩, ⟨505, some "text/html", "html"⟩,
    ⟨506, none, "sgml"⟩, ⟨507, none, "pdf"⟩, ⟨600, some "image/jpeg", "jpeg"⟩,
    ⟨601, some "image/gif", "gif"⟩, ⟨602, none, "sunras"⟩, ⟨603, none, "plot"⟩, ⟨604, none, "cif"⟩,
    ⟨605, some "image/tiff", "tiff"⟩, ⟨606, none, "bmp"⟩, ⟨607, some "image/xbm", "xbm"⟩,
    ⟨608, some "image/xpm", "xpm"⟩, ⟨609, none, "xwd"⟩, ⟨610, none, "pnm"⟩,
    ⟨611, some "image/png", "png"⟩, ⟨612, none, "fig"⟩, ⟨4, none, "internal-bad-ps"⟩,
    ⟨1000, none, "internal-unrecognized"⟩, ⟨1001, none, "internal-binary"⟩]

/-- `infile_force_type()`: the new value of `in_type`. -/
def infileForceType (type : List Byte) : ℤ :=
  let found := if 47 ∉ type then filters.find? fun f => sameWord type (ascii f.name)
    else filters.find? fun f => f.mime.any fun m => sameWord type (ascii m)
  match found with
  | some f => f.inType
  | none => 1000

/-- What `in_getline()` makes of `in_type`. -/
def scanType (inType : ℤ) : InType := if inType = 2 then .pjl else if inType = 3 then .tbcp else .other

/-! ## The lines of the header -/

/-- `gu_strncasecmp() == 0` for all of the key. -/
def caseMatch (line : List Byte) (key : String) : Bool :=
  sameWord (line.take (ascii key).length) (ascii key)

/-- White space is made a single space; there is none around a colon or an equal sign, or at the end.
`credit` says that a space is due, `skip` that white space is being passed over. -/
def squeeze : List Byte → Bool → Bool → List Byte
  | [], _, _ => []
  | c :: l, credit, skip =>
    if skip = true ∧ isspace c then squeeze l false true
    else if c ∈ ([32, 9, 13, 10] : List Byte) then squeeze l true false
    else if c = 61 ∨ c = 58 then c :: squeeze l false true
    else (if credit then [32] else []) ++ c :: squeeze l false false

def simplifyPJL (line : List Byte) : List Byte := squeeze line false false

/-- The variables that `check_for_PJL()` changes. -/
structure PjlState where
  infile : Infile
  inType : ℤ
  /-- `qentry.PJL`. -/
  pjl : Option (List Byte)

def isEaten (c : Byte) : Bool := c ∈ ([4, 13, 10] : List Byte)

/-- Eat up control-d which some drivers insert and blank lines. -/
def eatBlank (s : Infile) : Infile :=
  let rest := s.input.dropWhile isEaten
  { s with input := rest, logicalEof := if rest = [] then s.logicalEof else false }

/-- The loop that reads PJL lines, with `pjl_buffer`. -/
def pjlLoop : ℕ → PjlState → Option (List Byte) → PjlState
  | 0, j, _ => j
  | n + 1, j, buffer =>
    if j.infile.logicalEof then { j with pjl := buffer }
    else
      let r := inGetline (scanType j.inType) j.infile
      let j := { j with infile := r.2 }
      -- If not PJL line, then go back to auto-detect.
      if !caseMatch (cstr r.1.1) "@PJL" then j
      else
        let line := simplifyPJL (cstr r.1.1)
        if caseMatch line "@PJL ENTER LANGUAGE=" then
          let type := infileForceType (line.drop 20)
          if type = 0 then { infile := eatBlank j.infile, inType := 2, pjl := buffer }
          else { j with inType := type, pjl := buffer }
        else if caseMatch line "@PJL USTATUS" then pjlLoop n j buffer
        else pjlLoop n j (some (buffer.getD [] ++ line ++ [newline]))

/-- Universal Exit Language. -/
def uel : List Byte := ascii "\x1b%-12345X"

/-- `check_for_PJL()`; `inLeft` bytes of the input are in the buffer. -/
def checkForPJL (inLeft : ℕ) (j : PjlState) : PjlState :=
  let block := j.infile.input.take inLeft
  let zeros := (block.takeWhile (· = 0)).length
  let reset := if (ascii "\x1bE").isPrefixOf (block.drop zeros) then 2 else 0
  if uel.isPrefixOf (block.drop (zeros + reset)) then
    let input := j.infile.input.drop (zeros + reset + 9)
    pjlLoop (input.length + 1) { j with infile := { j.infile with input := input } } none
  else j

/-! ## Reading one line -/

/-- The state of the line reader after `line`, with `rest` behind it. -/
def ScanState.over (s : ScanState) (prevc : Byte) : List Byte → List Byte → ScanState
  | [], _ => s
  | c :: line, rest => (s.next prevc c (line ++ rest)).over c line rest

/-- The line reader finds the end of the line: no binary token goes on there. -/
inductive LineRead : ScanState → List Byte → List Byte → List Byte → ScanState → Prop
  | ended {s : ScanState} {line tl : List Byte} {e : Byte} (he : e = 10 ∨ e = 13)
      (hgrace : (s.over 0 line (e :: tl)).bintokenGrace = 0) :
      LineRead s (line ++ e :: tl) line (eatPair (if e = 10 then 13 else 10) tl)
        { s.over 0 line (e :: tl) with inComment := false }
  | last {s : ScanState} {line : List Byte} : LineRead s line line [] (s.over 0 line [])

/-- A command of the Printer Job Language that fits into the line buffer. -/
structure PjlLine (line : List Byte) : Prop where
  key : caseMatch line "@PJL" = true
  short : line.length < maxLine
  noNul : 0 ∉ line
  noEnd : ∀ c ∈ line, c ≠ 10 ∧ c ≠ 13

/-- The characters of a concrete line are compared as numbers. -/
instance (line : List Byte) : Decidable (∀ c ∈ line, c ≠ 10 ∧ c ≠ 13) :=
  decidable_of_iff ((line.all fun c => c.toNat != 10 && c.toNat != 13) = true) (by
    simp only [List.all_eq_true, Bool.and_eq_true, bne_iff_ne, ne_eq, ← BitVec.toNat_inj]
    rfl)

theorem scanLine_ended {line tl : List Byte} {e : Byte} (he : e = 10 ∨ e = 13)
    (hline : ∀ c ∈ line, c ≠ 10 ∧ c ≠ 13) {s : ScanState} {acc : List Byte} {prevc : Byte}
    (hshort : acc.length + line.length < maxLine)
    (hgrace : (s.over prevc line (e :: tl)).bintokenGrace = 0) :
    scanLine (line ++ e :: tl) s acc prevc =
      { line := acc ++ line, overflow := false, eof := false,
        rest := eatPair (if e = 10 then 13 else 10) tl,
        scan := { s.over prevc line (e :: tl) with inComment := false } } := by
  induction line generalizing s acc prevc with
  | nil => rw [List.nil_append, scanLine, if_pos ⟨hgrace, he⟩, List.append_nil, ScanState.over]
  | cons c line ih =>
    obtain ⟨hc, hline⟩ := List.forall_mem_cons.1 hline
    rw [List.length_cons] at hshort
    rw [List.cons_append, scanLine, if_neg (fun h => h.2.elim hc.1 hc.2),
      if_neg (by rw [List.length_append, List.length_singleton]; omega),
      ih hline (by rw [List.length_append, List.length_singleton]; omega) hgrace, List.append_assoc,
      List.singleton_append, ScanState.over]

theorem scanLine_last {line : List Byte} (hline : ∀ c ∈ line, c ≠ 10 ∧ c ≠ 13) {s : ScanState}
    {acc : List Byte} {prevc : Byte} (hshort : acc.length + line.length < maxLine) :
    scanLine line s acc prevc =
      { line := acc ++ line, overflow := false, eof := acc ++ line = [], rest := [],
        scan := s.over prevc line [] } := by
  induction line generalizing s acc prevc with
  | nil => rw [scanLine, List.append_nil, ScanState.over]
  | cons c line ih =>
    obtain ⟨hc, hline⟩ := List.forall_mem_cons.1 hline
    rw [List.length_cons] at hshort
    rw [scanLine, if_neg (fun h => h.2.elim hc.1 hc.2),
      if_neg (by rw [List.length_append, List.length_singleton]; omega),
      ih hline (by rw [List.length_append, List.length_singleton]; omega), List.append_assoc,
      List.singleton_append, ScanState.over, List.append_nil]

theorem eq_at_of_toupper : ∀ c : Byte, toupper c = 64 → c = 64 := by decide +kernel

/-- Such a line begins with an at sign, so it does not end the input. -/
theorem PjlLine.head {line : List Byte} (h : PjlLine line) : ∃ t, line = 64 :: t := by
  have hkey := h.key
  unfold caseMatch sameWord at hkey
  cases line with
  | nil => exact absurd hkey (by decide)
  | cons c t =>
    have hfirst := congrArg List.head? (of_decide_eq_true hkey)
    exact ⟨t, by rw [eq_at_of_toupper c (Option.some.inj hfirst)]⟩

theorem endsInput_at (type : InType) (t : List Byte) : endsInput type (64 :: t) = false := by
  have hcstr : cstr (64 :: t) ≠ [4] := by
    rw [cstr, List.takeWhile_cons_of_pos (by decide)]
    exact fun e => absurd (List.cons.inj e).1 (by decide)
  rw [endsInput, decide_eq_false hcstr]
  simp [ascii, List.isPrefixOf]

/-- A line of the header is read as it stands. -/
theorem inGetline_pjl {type : InType} {s : ScanState} {input line rest : List Byte} {s' : ScanState}
    (hread : LineRead s input line rest s') (hline : PjlLine line) :
    inGetline type { input := input, logicalEof := false, scan := s } =
      ((line, false), { input := rest, logicalEof := false, scan := s' }) := by
  obtain ⟨t, ht⟩ := hline.head
  have hends : endsInput type line = false := ht ▸ endsInput_at type t
  have hne : line ≠ [] := ht ▸ List.cons_ne_nil _ _
  have hshort : ([] : List Byte).length + line.length < maxLine := by
    simpa using hline.short
  cases hread with
  | ended he hgrace =>
    rw [inGetline, if_neg (by simp), scanLine_ended he hline.noEnd hshort hgrace]
    simp [hends]
  | last =>
    rw [inGetline, if_neg (by simp), scanLine_last hline.noEnd hshort]
    simp [hends, hne]

/-! ## The header -/

/-- The header ends with the command that selects the language: the commands before it, this command, and
the data behind it. -/
inductive PjlHeader : ScanState → List Byte → List (List Byte) → List Byte → List Byte → Prop
  | enter {s s' : ScanState} {input last data : List Byte} (hread : LineRead s input last data s')
      (hline : PjlLine last) (henter : caseMatch (simplifyPJL last) "@PJL ENTER LANGUAGE=" = true) :
      PjlHeader s input [] last data
  | line {s s' : ScanState} {input line rest last data : List Byte} {ls : List (List Byte)}
      (hread : LineRead s input line rest s') (hline : PjlLine line)
      (hother : caseMatch (simplifyPJL line) "@PJL ENTER LANGUAGE=" = false)
      (hrest : PjlHeader s' rest ls last data) : PjlHeader s input (line :: ls) last data

/-- Commands that pprdrv generates itself. -/
def isUstatus (line : List Byte) : Bool := caseMatch (simplifyPJL line) "@PJL USTATUS"

/-- The commands in the queue file, with simplified white space, if there are any. -/
def keptPJL (ls : List (List Byte)) : Option (List Byte) :=
  if ls.all isUstatus then none
  else some ((ls.filter fun l => !isUstatus l).flatMap fun l => simplifyPJL l ++ [newline])

/-- A text behind the one that is in the buffer. -/
def behind (buffer more : Option (List Byte)) : Option (List Byte) :=
  match more with
  | none => buffer
  | some text => some (buffer.getD [] ++ text)

theorem keptPJL_cons (l : List Byte) (ls : List (List Byte)) (buffer : Option (List Byte)) :
    behind buffer (keptPJL (l :: ls)) =
      behind (if isUstatus l then buffer else some (buffer.getD [] ++ simplifyPJL l ++ [newline]))
        (keptPJL ls) := by
  unfold keptPJL
  by_cases hl : isUstatus l = true
  · simp [hl]
  · by_cases hall : ls.all isUstatus = true
    · have hnone : ls.filter (fun l => !isUstatus l) = [] := by
        simpa [List.filter_eq_nil_iff] using hall
      simp [hl, hall, hnone, behind]
    · simp [hl, hall, behind]

/-- What is in front of the language command is shorter than the input. -/
theorem PjlHeader.length_lt {s : ScanState} {input last data : List Byte} {ls : List (List Byte)}
    (h : PjlHeader s input ls last data) : ls.length < input.length := by
  have hread : ∀ {s s' : ScanState} {input line rest : List Byte}, LineRead s input line rest s' →
      PjlLine line → rest.length < input.length := by
    intro s s' input line rest hread hline
    obtain ⟨t, rfl⟩ := hline.head
    cases hread with
    | ended he hgrace =>
      refine (length_eatPair _ _).trans_lt ?_
      rw [List.length_append, List.length_cons, List.length_cons]
      omega
    | last => exact Nat.zero_lt_succ _
  induction h with
  | enter hr hl _ => exact (Nat.zero_le _).trans_lt (hread hr hl)
  | line hr hl _ _ ih =>
    have := hread hr hl
    rw [List.length_cons]
    omega

/-- A turn of the loop for a line of the header. -/
theorem pjlLoop_line {s s' : ScanState} {input line rest : List Byte}
    (hread : LineRead s input line rest s') (hline : PjlLine line) (n : ℕ) (inType : ℤ)
    (pjl buffer : Option (List Byte)) :
    pjlLoop (n + 1) ⟨⟨input, false, s⟩, inType, pjl⟩ buffer =
      if caseMatch (simplifyPJL line) "@PJL ENTER LANGUAGE=" then
        let type := infileForceType ((simplifyPJL line).drop 20)
        if type = 0 then ⟨eatBlank ⟨rest, false, s'⟩, 2, buffer⟩ else ⟨⟨rest, false, s'⟩, type, buffer⟩
      else pjlLoop n ⟨⟨rest, false, s'⟩, inType, pjl⟩
        (if isUstatus line then buffer else some (buffer.getD [] ++ simplifyPJL line ++ [newline])) := by
  have hcstr : cstr line = line := cstr_eq_self.2 hline.noNul
  rw [pjlLoop, if_neg (by simp)]
  dsimp only
  rw [inGetline_pjl hread hline]
  dsimp only
  rw [hcstr, hline.key, if_neg (by simp)]
  refine if_congr Iff.rfl rfl ?_
  rw [isUstatus, apply_ite (pjlLoop n _)]

/-- The loop reads the header and what it is to keep of it. -/
theorem pjlLoop_header {s : ScanState} {input last data : List Byte} {ls : List (List Byte)}
    (h : PjlHeader s input ls last data) {n : ℕ} (hn : ls.length < n) (inType : ℤ)
    (pjl buffer : Option (List Byte)) :
    ∃ s', pjlLoop n ⟨⟨input, false, s⟩, inType, pjl⟩ buffer =
      let type := infileForceType ((simplifyPJL last).drop 20)
      if type = 0 then ⟨eatBlank ⟨data, false, s'⟩, 2, behind buffer (keptPJL ls)⟩
      else ⟨⟨data, false, s'⟩, type, behind buffer (keptPJL ls)⟩ := by
  induction h generalizing n buffer with
  | @enter s s' input last data hread hline henter =>
    obtain ⟨n, rfl⟩ := Nat.exists_eq_add_one_of_ne_zero (Nat.ne_of_gt hn)
    refine ⟨s', ?_⟩
    rw [pjlLoop_line hread hline, if_pos henter]
    rfl
  | @line s s' input line rest last data ls hread hline hother hrest ih =>
    rw [List.length_cons] at hn
    obtain ⟨n, rfl⟩ := Nat.exists_eq_add_one_of_ne_zero (Nat.ne_of_gt (Nat.zero_lt_of_lt hn))
    obtain ⟨t, ht⟩ := @ih n (by omega) _
    refine ⟨t, ?_⟩
    rw [pjlLoop_line hread hline, if_neg (by simp [hother]), keptPJL_cons]
    exact ht

/-- The start of the input: null bytes, perhaps a reset, and the exit sequence. -/
structure PjlStart (start : List Byte) : Prop where
  eq : ∃ n reset, start = List.replicate n 0 ++ (reset ++ uel) ∧ (reset = [] ∨ reset = ascii "\x1bE")

/-- The exit sequence is found and taken off. -/
theorem checkForPJL_start {start body : List Byte} {inLeft : ℕ} {s : ScanState} (hstart : PjlStart start)
    (hleft : start.length ≤ inLeft) (inType : ℤ) (pjl : Option (List Byte)) :
    checkForPJL inLeft ⟨⟨start ++ body, false, s⟩, inType, pjl⟩ =
      pjlLoop (body.length + 1) ⟨⟨body, false, s⟩, inType, pjl⟩ none := by
  obtain ⟨n, reset, rfl, hreset⟩ := hstart.eq
  have hblock : ((List.replicate n 0 ++ (reset ++ uel)) ++ body).take inLeft =
      List.replicate n 0 ++
        (reset ++ (uel ++ body.take (inLeft - (List.replicate n 0 ++ (reset ++ uel)).length))) := by
    rw [List.take_append, List.take_of_length_le hleft, List.append_assoc, List.append_assoc]
  generalize body.take (inLeft - (List.replicate n 0 ++ (reset ++ uel)).length) = tail at hblock
  have hfirst : ∀ c ∈ (reset ++ (uel ++ tail)).head?, (c = 0 : Bool) = false := by
    rcases hreset with rfl | rfl <;> rintro _ ⟨⟩ <;> rfl
  obtain ⟨hzeros, -⟩ := span_append (w := List.replicate n (0 : Byte)) (fun c => c = 0)
    (reset ++ (uel ++ tail)) (fun b hb => by simp [List.eq_of_mem_replicate hb]) hfirst
  have hdrop : ∀ l : List Byte, (List.replicate n (0 : Byte) ++ l).drop n = l := fun l =>
    List.drop_left' List.length_replicate
  have hdrop' : ∀ (l : List Byte) (k : ℕ), (List.replicate n (0 : Byte) ++ l).drop (n + k) = l.drop k :=
    fun l k => by rw [← List.drop_drop, hdrop]
  have hreset' : (if (ascii "\x1bE").isPrefixOf (reset ++ (uel ++ tail)) then 2 else 0) = reset.length := by
    rcases hreset with rfl | rfl <;> rfl
  rw [checkForPJL]
  dsimp only
  rw [hblock, hzeros, List.length_replicate, hdrop, hreset', hdrop', List.drop_left,
    if_pos (List.isPrefixOf_iff_prefix.2 (List.prefix_append _ _)), List.append_assoc, Nat.add_assoc, hdrop',
    List.append_assoc, ← List.drop_drop, List.drop_left, List.drop_left' (by rfl)]

/-- The type of input that the language command selects. -/
def languageType (last : List Byte) : ℤ := infileForceType ((simplifyPJL last).drop 20)

/-- The header is taken off the input and the commands are kept.  For PostScript, control-D and blank
lines behind the header are taken off too. -/
theorem checkForPJL_header {start body last data : List Byte} {ls : List (List Byte)} {inLeft : ℕ}
    {s : ScanState} (hstart : PjlStart start) (hleft : start.length ≤ inLeft)
    (hheader : PjlHeader s body ls last data) (inType : ℤ) (pjl : Option (List Byte)) :
    ∃ scan, checkForPJL inLeft ⟨⟨start ++ body, false, s⟩, inType, pjl⟩ =
      ⟨⟨if languageType last = 0 then data.dropWhile isEaten else data, false, scan⟩,
        if languageType last = 0 then 2 else languageType last, keptPJL ls⟩ := by
  have hlen : ls.length < body.length + 1 := Nat.lt_succ_of_lt hheader.length_lt
  obtain ⟨scan, hloop⟩ := pjlLoop_header hheader hlen inType pjl none
  have hbehind : behind none (keptPJL ls) = keptPJL ls := by
    cases keptPJL ls <;> rfl
  refine ⟨scan, (checkForPJL_start hstart hleft inType pjl).trans (hloop.trans ?_)⟩
  rw [hbehind, languageType]
  dsimp only
  split_ifs with hps
  · have hback : eatBlank ⟨data, false, scan⟩ = ⟨data.dropWhile isEaten, false, scan⟩ := by
      simp [eatBlank]
    rw [hback]
  · rfl

/-! ## A header -/

/-- A line that ends with CR-LF. -/
theorem LineRead.crlf {s : ScanState} {line rest : List Byte}
    (hgrace : (s.over 0 line (13 :: 10 :: rest)).bintokenGrace = 0) :
    LineRead s (line ++ 13 :: 10 :: rest) line rest
      { s.over 0 line (13 :: 10 :: rest) with inComment := false } := .ended (.inr rfl) hgrace

/-- `in_reset_buffering()`. -/
def resetScan : ScanState := { bintokenGrace := 0, stringLevel := 0, inAscii85 := false, inComment := false }

theorem pjlStart_uel : PjlStart uel := ⟨0, [], rfl, .inl rfl⟩

/-- Two commands, of which one is kept, in front of a PostScript file. -/
theorem setCopies_header :
    ∃ scan, checkForPJL 8192 ⟨⟨uel ++ (ascii "@PJL USTATUS JOB = ON" ++ 13 :: 10 ::
        (ascii "@PJL SET  COPIES = 2 " ++ 13 :: 10 ::
          (ascii "@PJL ENTER LANGUAGE = PostScript" ++ 13 :: 10 :: ascii "%!PS-Adobe"))), false, resetScan⟩,
      -1, none⟩ = ⟨⟨ascii "%!PS-Adobe", false, scan⟩, 2, some (ascii "@PJL SET COPIES=2\n")⟩ := by
  have hustatus : PjlLine (ascii "@PJL USTATUS JOB = ON") := ⟨by decide, by decide, by decide, by decide⟩
  have hcopies : PjlLine (ascii "@PJL SET  COPIES = 2 ") := ⟨by decide, by decide, by decide, by decide⟩
  have henter : PjlLine (ascii "@PJL ENTER LANGUAGE = PostScript") :=
    ⟨by decide, by decide, by decide, by decide⟩
  have hbody := PjlHeader.line (s := resetScan) (.crlf (by decide)) hustatus (by decide)
    (.line (.crlf (by decide)) hcopies (by decide)
      (.enter (@LineRead.crlf _ _ (ascii "%!PS-Adobe") (by decide)) henter (by decide)))
  obtain ⟨scan, h⟩ := checkForPJL_header pjlStart_uel (by decide : uel.length ≤ 8192) hbody (-1) none
  refine ⟨scan, h.trans ?_⟩
  have hps : languageType (ascii "@PJL ENTER LANGUAGE = PostScript") = 0 := by decide
  have hdata : (ascii "%!PS-Adobe").dropWhile isEaten = ascii "%!PS-Adobe" := by decide
  have hkept : keptPJL [ascii "@PJL USTATUS JOB = ON", ascii "@PJL SET  COPIES = 2 "] =
      some (ascii "@PJL SET COPIES=2\n") := by decide
  rw [if_pos hps, if_pos hps, hdata, hkept]

/-- The control-D in front of a PostScript file is taken off with the header. -/
theorem not_exact_controlD :
    ¬∀ (start body last data : List Byte) (ls : List (List Byte)) (inLeft : ℕ) (s : ScanState) (inType : ℤ)
      (pjl : Option (List Byte)), PjlStart start → start.length ≤ inLeft → PjlHeader s body ls last data →
        (checkForPJL inLeft ⟨⟨start ++ body, false, s⟩, inType, pjl⟩).infile.input = data ∧
          (checkForPJL inLeft ⟨⟨start ++ body, false, s⟩, inType, pjl⟩).pjl = keptPJL ls := by
  intro h
  have henter : PjlLine (ascii "@PJL ENTER LANGUAGE=POSTSCRIPT") :=
    ⟨by decide, by decide, by decide, by decide⟩
  have hbody := PjlHeader.enter (s := resetScan) (@LineRead.crlf _ _ (ascii "\x04%!PS") (by decide)) henter
    (by decide)
  have hexact := (h uel _ _ _ _ 8192 resetScan (-1) none pjlStart_uel (by decide) hbody).1
  exact absurd hexact (by decide)

end Ppr
