import Ppr.Libppr.QEntryLines

/-!
# When a queue file can be read back

The structure that `qentryfile_load()` makes of what `qentryfile_save()` wrote, for every structure
that `write_queue_file()` accepts.  The lines with numbers come back as they were.  A string comes back
if the conversion that reads its line takes all of it: one without a space at its end for `%T`, a word
for `%S`, an unquoted word for `%W`, and what does not begin with a quote for `%A`.
-/

namespace Ppr.QEntryFile

/-! ## What is required of the structure -/

/-- `assert_ok_value()`. -/
def assertOkValue (value : Option (List Byte)) (nullOk emptyOk entirelyWhitespaceOk : Bool) : Bool :=
  match value with
  | none => nullOk
  | some s =>
    newline ∉ s && if s = [] then emptyOk else entirelyWhitespaceOk || s.any (!isspace ·)

/-- What `write_queue_file()` checks, for a job that is not being printed. -/
structure Accepted (q : QEntryFile) : Prop where
  For : assertOkValue q.For false false false
  chargeTo : assertOkValue q.chargeTo true false false
  Title : assertOkValue q.Title true true false
  draftNotice : assertOkValue q.draftNotice true false false
  Creator : assertOkValue q.Creator true false false
  Routing : assertOkValue q.Routing true false false
  lpqFileName : assertOkValue q.lpqFileName true false false
  responderName : assertOkValue q.responder.name false false false
  responderAddress : assertOkValue q.responder.address false false false
  responderOptions : assertOkValue q.responder.options true true true
  ripopts : assertOkValue q.ripopts true true true
  lcMessages : assertOkValue q.lcMessages true false false
  status : q.spoolState.status.toInt < 0

/-- `j` has what was saved of `q`: an empty title or empty options may be absent. -/
structure Agrees (q j : QEntryFile) : Prop where
  spoolState : j.spoolState = q.spoolState
  user : j.user = q.user
  lcMessages : j.lcMessages = q.lcMessages
  time : j.time = q.time
  magicCookie : j.magicCookie = q.magicCookie
  For : j.For = q.For
  chargeTo : j.chargeTo = q.chargeTo
  Title : j.Title = q.Title ∨ q.Title = some [] ∧ j.Title = none
  draftNotice : j.draftNotice = q.draftNotice
  Creator : j.Creator = q.Creator
  Routing : j.Routing = q.Routing
  lpqFileName : j.lpqFileName = q.lpqFileName
  doBanner : j.doBanner = q.doBanner
  doTrailer : j.doTrailer = q.doTrailer
  responderName : j.responder.name = q.responder.name
  responderAddress : j.responder.address = q.responder.address
  responderOptions : j.responder.options = q.responder.options ∨
    q.responder.options = some [] ∧ j.responder.options = none
  commentary : j.commentary = q.commentary
  attr : { j.attr with DSClevel := q.attr.DSClevel } = q.attr
  opts : j.opts = q.opts
  nUp : j.nUp = q.nUp
  Filters : j.Filters = q.Filters
  PassThruPDL : j.PassThruPDL = q.PassThruPDL
  StripPrinter : j.StripPrinter = q.StripPrinter
  mask : j.pageList.mask = q.pageList.mask
  /-- The count is saved with the mask. -/
  count : q.pageList.mask ≠ none → j.pageList.count = q.pageList.count
  question : j.question = q.question
  ripopts : j.ripopts = q.ripopts

/-- What is saved can be loaded, whatever follows it and whatever the structure had before. -/
def RoundTrips (q : QEntryFile) : Prop :=
  ∃ text, qentryfileSave q = some text ∧
    ∀ (job : QEntryFile) (rest : List Byte),
      (qentryfileLoad (qentryfileClear job) (text ++ rest)).ok = true ∧
      Agrees q (qentryfileLoad (qentryfileClear job) (text ++ rest)).job ∧
      (qentryfileLoad (qentryfileClear job) (text ++ rest)).rest = rest

/-- A string that `%T` reads. -/
def TextKept (s : List Byte) : Prop := s ≠ [] ∧ chop s = s ∧ newline ∉ s

/-- A string that `%S` reads. -/
def WordKept (s : List Byte) : Prop := s ≠ [] ∧ chop s = s ∧ ∀ b ∈ s, isblank b = false

/-- No quote comes first. -/
def Unquoted (s : List Byte) : Prop := s.head? ≠ some 34 ∧ s.head? ≠ some 39

/-- No space comes first. -/
def Unspaced (s : List Byte) : Prop := ∀ b ∈ s.head?, isspace b = false

/-- The strings of the "Response:" line come back. -/
structure ResponderKept (r : Responder) : Prop where
  name : ∀ s ∈ r.name, ∀ b ∈ s, isblank b = false
  address : ∀ s ∈ r.address, Unspaced s ∧ ∀ b ∈ s, isblank b = false
  options : ∀ s ∈ r.options, s ≠ [] → TextKept s ∧ Unspaced s
  /-- Without options, the address is at the end of the line. -/
  last : r.options.getD [] = [] → ∀ s ∈ r.address, chop s = s

/-- Everything that is saved can be read back. -/
structure Readable (q : QEntryFile) : Prop where
  priority : q.spoolState.priority.toNat < 256
  status : -256 < q.spoolState.status.toInt
  user : ∃ s, q.user = some s ∧ TextKept s
  lcMessages : ∀ s ∈ q.lcMessages, WordKept s
  time : 0 ≤ q.time.toInt
  magicCookie : ∃ s, q.magicCookie = some s ∧ WordKept s
  For : ∀ s ∈ q.For, TextKept s
  chargeTo : ∀ s ∈ q.chargeTo, WordKept s ∧ Unquoted s
  Title : ∀ s ∈ q.Title, s ≠ [] → TextKept s
  draftNotice : ∀ s ∈ q.draftNotice, TextKept s
  Creator : ∀ s ∈ q.Creator, TextKept s
  Routing : ∀ s ∈ q.Routing, TextKept s
  lpqFileName : ∀ s ∈ q.lpqFileName, TextKept s ∧ Unquoted s
  responder : ResponderKept q.responder
  level : ⌊|q.attr.DSClevel|⌋₊ ≤ 999999999
  jobType : ∀ s ∈ q.attr.DSCJobType,
    s ≠ [] ∧ Unspaced s ∧ (∀ b ∈ s, isblank b = false) ∧ s ≠ ascii "NULL"
  Filters : ∀ s ∈ q.Filters, TextKept s
  PassThruPDL : ∀ s ∈ q.PassThruPDL, TextKept s
  StripPrinter : q.StripPrinter = 0 ∨ q.StripPrinter = 1
  mask : ∀ s ∈ q.pageList.mask, TextKept s ∧ Unspaced s
  question : ∀ s ∈ q.question, TextKept s
  ripopts : ∀ s ∈ q.ripopts, TextKept s
  impressions : cDiv (q.attr.pages + q.nUp.N - 1) q.nUp.N ≠ none
  sheets : cDiv (q.attr.pages + q.attr.pagefactor - 1) q.attr.pagefactor ≠ none

/-! ## The lines by their kinds -/

/-- A line that is there only if the member is. -/
def optionalLine (r : Rule) (s : Option (List Byte)) : List (Rule × List Byte) :=
  s.toList.map fun s => (r, s)

/-- The content of the "Response:" line. -/
def responseContent (r : Responder) : List Byte :=
  spaced [cString r.name, cString r.address, r.options.getD []]

/-- The content of the "Attr-DSC:" line. -/
def dscContent (a : Attr) : List Byte :=
  spaced [guDtostr a.DSClevel, a.DSCJobType.getD (ascii "NULL"), cDecimal a.orientation,
    cDecimal a.proofmode, cDecimal a.docdata]

/-- The lines of `miscLines`, with their kinds. -/
def lines (q : QEntryFile) : List (Rule × List Byte) :=
  [(.pprd, pprdContent q.spoolState), (.user, cString q.user), (.pprVersion, ascii "2.00a1")] ++
  optionalLine .lcMessages q.lcMessages ++
  [(.time, cDecimal q.time), (.magicCookie, cString q.magicCookie),
    (.for_, q.For.getD (ascii "???"))] ++
  optionalLine .chargeTo q.chargeTo ++
  optionalLine .title (q.Title.filter (· ≠ [])) ++
  optionalLine .draftNotice q.draftNotice ++
  optionalLine .creator q.Creator ++
  optionalLine .routing q.Routing ++
  optionalLine .lpqFileName q.lpqFileName ++
  [(.banners, spaced [cDecimal q.doBanner, cDecimal q.doTrailer]),
    (.response, responseContent q.responder),
    (.commentary, cDecimal q.commentary),
    (.attrDSC, dscContent q.attr),
    (.attrDSCSections,
      spaced [cDecimal q.attr.prolog, cDecimal q.attr.docsetup, cDecimal q.attr.script]),
    (.attrLangLevel, spaced [cDecimal q.attr.langlevel, cDecimal q.attr.extensions]),
    (.attrPages,
      spaced [cDecimal q.attr.pages, cDecimal q.attr.pageorder, cDecimal q.attr.pagefactor]),
    (.attrByteCounts, spaced [cDecimal q.attr.inputBytes, cDecimal q.attr.postscriptBytes]),
    (.attrParts, cDecimal q.attr.parts),
    (.opts, spaced [cDecimal q.opts.binselect, cDecimal q.opts.copies, cDecimal q.opts.collate,
      cDecimal q.opts.keepBadfeatures, decimal q.opts.hacks.toNat]),
    (.nUp, spaced [cDecimal q.nUp.N, cDecimal q.nUp.borders, cDecimal q.nUp.sigsheets,
      cDecimal q.nUp.sigpart, cDecimal q.nUp.jobDoesNUp])] ++
  optionalLine .filters q.Filters ++
  optionalLine .passThruPDL q.PassThruPDL ++
  [(.stripPrinter, cDecimal q.StripPrinter)] ++
  optionalLine .pageList (q.pageList.mask.map fun m => spaced [cDecimal q.pageList.count, m]) ++
  optionalLine .question q.question ++
  optionalLine .ripopts q.ripopts

theorem miscLines_eq (q : QEntryFile) : q.miscLines = q.lines.map fun l => (l.1.saved, l.2) := by
  have opt : ∀ (r : Rule) (s : Option (List Byte)),
      (optionalLine r s).map (fun l => (l.1.saved, l.2)) = optional r.saved s := by
    intro r s
    simp [optionalLine, optional]
  simp only [lines, List.map_append, opt]
  rfl

theorem mem_rules_of_mem_lines {q : QEntryFile} {l : Rule × List Byte} (h : l ∈ q.lines) :
    l.1 ∈ rules := by
  have opt : ∀ {r : Rule} {s : Option (List Byte)}, r ∈ rules → ∀ l ∈ optionalLine r s, l.1 ∈ rules := by
    intro r s hr l hl
    obtain ⟨_, _, rfl⟩ := List.mem_map.1 hl
    exact hr
  revert l
  simp only [lines, List.forall_mem_append, List.forall_mem_cons]
  and_intros
  all_goals first
    | exact opt (by simp [rules])
    | simp [rules]

theorem printed_miscLines (q : QEntryFile) : printed q.miscLines = textOf q.lines := by
  rw [miscLines_eq, printed, textOf, List.flatMap_map]
  refine List.flatMap_congr fun l hl => ?_
  rw [(rules_key l.1 (mem_rules_of_mem_lines hl)).1, List.append_assoc, List.append_assoc,
    List.append_assoc, List.singleton_append, List.cons_append]

/-! ## Numbers -/

theorem chop_of_forall {l : List Byte} (h : ∀ b ∈ l, isspace b = false) : chop l = l :=
  chop_eq_self_iff.2 fun b hb => h b (List.mem_of_mem_getLast? hb)

theorem chop_decimal (n : ℕ) : chop (decimal n) = decimal n :=
  chop_of_forall fun b hb => not_isspace_of_isdigit b (isdigit_decimal hb)

theorem chop_cDecimal {w : ℕ} (i : BitVec w) : chop (cDecimal i) = cDecimal i := by
  rw [cDecimal, decimalInt, chop_append_of_eq_self (chop_decimal _) (decimal_ne_nil _)]

/-- What ends in a field without a space at its end. -/
theorem chop_spaced (ts : List (List Byte)) {t : List Byte} (hne : t ≠ []) (ht : chop t = t) :
    chop (spaced (ts ++ [t])) = spaced (ts ++ [t]) ∧ spaced (ts ++ [t]) ≠ [] := by
  induction ts with
  | nil => rw [List.nil_append, spaced_singleton]; exact ⟨ht, hne⟩
  | cons a ts ih =>
    obtain ⟨b, l, hl⟩ := List.exists_cons_of_ne_nil (List.append_ne_nil_of_right_ne_nil ts (List.cons_ne_nil t []))
    rw [hl] at ih
    have h32 : chop (32 :: spaced (b :: l)) = 32 :: spaced (b :: l) := by
      rw [← List.singleton_append, chop_append_of_eq_self ih.1 ih.2]
    rw [List.cons_append, hl, spaced_cons_cons, chop_append_of_eq_self h32 (List.cons_ne_nil _ _)]
    exact ⟨rfl, List.append_ne_nil_of_right_ne_nil _ (List.cons_ne_nil _ _)⟩

theorem dropWhile_of_head {p : Byte → Bool} {l : List Byte} (h : ∀ b ∈ l.head?, p b = false) :
    l.dropWhile p = l := by
  cases l with
  | nil => rfl
  | cons b l => rw [List.dropWhile_cons_of_neg (by simp [h b rfl])]

theorem not_blank_of_not_isspace : ∀ b : Byte, isspace b = false → (b = 32 || b = 9) = false := by
  decide +kernel

theorem not_isblank_of_not_isspace : ∀ b : Byte, isspace b = false → isblank b = false := by
  decide +kernel

/-- What a line extracts of a content that begins and ends without a space. -/
theorem Rule.read_of_fits {r : Rule} {c : List Byte} (hc : chop c = c) (hhead : Unspaced c) :
    r.read c = guSscanf r.contentFormat c := by
  rw [Rule.read, hc]
  cases r.test with
  | scan => rw [dropWhile_of_head hhead]
  | name => rfl
  | attr =>
    dsimp only
    rw [dropWhile_of_head fun b hb => not_blank_of_not_isspace b (hhead b hb)]

/-- A line of fields. -/
theorem Rule.read_spaced (r : Rule) (fs : List (Char × List Byte × Extracted))
    (f : Char × List Byte × Extracted)
    (hfmt : r.contentFormat = directives ((fs ++ [f]).map (·.1)))
    (hfs : ∀ g ∈ fs ++ [f], Scans g.1 g.2.1 g.2.2) (hf : chop f.2.1 = f.2.1) :
    r.read (spaced ((fs ++ [f]).map (·.2.1))) = (fs ++ [f]).map (·.2.2) := by
  have hchop : chop (spaced ((fs ++ [f]).map (·.2.1))) = spaced ((fs ++ [f]).map (·.2.1)) := by
    rw [List.map_append]
    exact (chop_spaced _ (hfs f (by simp)).ne hf).1
  have hhead : Unspaced (spaced ((fs ++ [f]).map (·.2.1))) := by
    obtain ⟨g, l, hl⟩ := List.exists_cons_of_ne_nil (List.append_ne_nil_of_right_ne_nil fs (List.cons_ne_nil f []))
    have hg := hfs g (hl ▸ List.mem_cons_self ..)
    have hfirst : (spaced ((g :: l).map (·.2.1))).head? = g.2.1.head? := by
      cases l with
      | nil => rw [List.map_cons, List.map_nil, spaced_singleton]
      | cons k l =>
        rw [List.map_cons, List.map_cons, spaced_cons_cons, List.head?_append_of_ne_nil _ hg.ne]
    rw [Unspaced, hl, hfirst]
    exact hg.head
  rw [r.read_of_fits hchop hhead, hfmt, guSscanf_spaced _ hfs]

/-- A field with a number. -/
theorem scans_cDecimal {w : ℕ} (i : BitVec w) : Scans 'd' (cDecimal i) (.num i.toInt) := scans_d _

section Numbers

variable {w : ℕ} (a b c d e : BitVec w)

theorem read_one (r : Rule) (hfmt : r.contentFormat = directives ['d']) :
    r.read (cDecimal a) = [.num a.toInt] := by
  have h := r.read_spaced [] ('d', cDecimal a, .num a.toInt) hfmt
    (by simp [scans_cDecimal]) (chop_cDecimal a)
  rwa [List.nil_append, List.map_cons, List.map_nil, spaced_singleton] at h

theorem read_two (r : Rule) (hfmt : r.contentFormat = directives ['d', 'd']) :
    r.read (spaced [cDecimal a, cDecimal b]) = [.num a.toInt, .num b.toInt] :=
  r.read_spaced [('d', cDecimal a, .num a.toInt)] ('d', cDecimal b, .num b.toInt) hfmt
    (by simp [scans_cDecimal]) (chop_cDecimal b)

theorem read_three (r : Rule) (hfmt : r.contentFormat = directives ['d', 'd', 'd']) :
    r.read (spaced [cDecimal a, cDecimal b, cDecimal c]) =
      [.num a.toInt, .num b.toInt, .num c.toInt] :=
  r.read_spaced [('d', cDecimal a, .num a.toInt), ('d', cDecimal b, .num b.toInt)]
    ('d', cDecimal c, .num c.toInt) hfmt (by simp [scans_cDecimal]) (chop_cDecimal c)

theorem read_nUp :
    Rule.nUp.read (spaced [cDecimal a, cDecimal b, cDecimal c, cDecimal d, cDecimal e]) =
      [.num a.toInt, .num b.toInt, .num c.toInt, .num d.toInt, .num e.toInt] :=
  Rule.nUp.read_spaced [('d', cDecimal a, .num a.toInt), ('d', cDecimal b, .num b.toInt),
    ('d', cDecimal c, .num c.toInt), ('d', cDecimal d, .num d.toInt)]
    ('d', cDecimal e, .num e.toInt)
    (show Rule.nUp.contentFormat = directives ['d', 'd', 'd', 'd', 'd'] by decide)
    (by simp [scans_cDecimal]) (chop_cDecimal e)

theorem read_opts (n : ℕ) :
    Rule.opts.read (spaced [cDecimal a, cDecimal b, cDecimal c, cDecimal d, decimal n]) =
      [.num a.toInt, .num b.toInt, .num c.toInt, .num d.toInt, .num n] :=
  Rule.opts.read_spaced [('d', cDecimal a, .num a.toInt), ('d', cDecimal b, .num b.toInt),
    ('d', cDecimal c, .num c.toInt), ('d', cDecimal d, .num d.toInt)]
    ('u', decimal n, .num n)
    (show Rule.opts.contentFormat = directives ['d', 'd', 'd', 'd', 'u'] by decide)
    (by simp [scans_cDecimal, scans_u]) (chop_decimal n)

end Numbers

theorem read_pprd (s : SpoolState) :
    Rule.pprd.read (pprdContent s) = [.num s.priority.toNat, .num s.sequenceNumber.toNat,
      .num (-s.status.signExtend 32).toNat, .num s.flags.toNat] := by
  have hhex : ∀ w n, chop (upperHex w n) = upperHex w n := fun w n =>
    chop_of_forall fun b hb => not_isspace_of_isxdigit b (isxdigit_upperHex hb)
  have hpad : chop (List.replicate 38 32) = [] := by decide
  have hread := Rule.pprd.read_spaced [('x', upperHex 2 s.priority.toNat, .num s.priority.toNat),
    ('x', upperHex 8 s.sequenceNumber.toNat, .num s.sequenceNumber.toNat),
    ('x', upperHex 2 (-s.status.signExtend 32).toNat, .num (-s.status.signExtend 32).toNat)]
    ('x', upperHex 4 s.flags.toNat, .num s.flags.toNat)
    (show Rule.pprd.contentFormat = directives ['x', 'x', 'x', 'x'] by decide)
    (by
      simp only [List.cons_append, List.nil_append, List.forall_mem_cons]
      exact ⟨scans_x (by decide) _, scans_x (by decide) _, scans_x (by decide) _,
        scans_x (by decide) _, fun g hg => absurd hg List.not_mem_nil⟩)
    (hhex ..)
  have hsame : ∀ c, Rule.pprd.read (c ++ List.replicate 38 32) = Rule.pprd.read c := by
    intro c
    rw [Rule.read, Rule.read, chop_append_of_eq hpad]
  rw [pprdContent, hsame]
  exact hread

theorem read_pprVersion : Rule.pprVersion.read (ascii "2.00a1") = [.real 2] := by decide +kernel

/-- The time is read without a sign. -/
theorem read_time (t : BitVec 64) :
    Rule.time.read (cDecimal t) = [.num (if 0 ≤ t.toInt then t.toInt else 0)] := by
  have hfmt : Rule.time.contentFormat = [.conv 'U'] := by decide
  have hread : Rule.time.read (cDecimal t) = guSscanf [.conv 'U'] (cDecimal t) := by
    rw [Rule.time.read_of_fits (chop_cDecimal t) (scans_cDecimal t).head, hfmt]
  rw [hread]
  by_cases ht : 0 ≤ t.toInt
  · have hdec : cDecimal t = decimal t.toInt.natAbs := by
      rw [cDecimal, decimalInt, if_neg (by omega), List.nil_append]
    rw [hdec, (scans_U _).guSscanf_last, if_pos ht, Int.natAbs_of_nonneg ht]
  · have hdec : cDecimal t = 45 :: decimal t.toInt.natAbs := by
      rw [cDecimal, decimalInt, if_pos (by omega), List.singleton_append]
    rw [hdec, guSscanf_conv (List.cons_ne_nil _ _), if_neg ht]
    have hconv : convert 'U' (45 :: decimal t.toInt.natAbs) =
        some (.num 0, 45 :: decimal t.toInt.natAbs) := by
      simp only [convert]
      rw [List.takeWhile_cons_of_neg (by decide), List.dropWhile_cons_of_neg (by decide)]
      rfl
    rw [hconv]
    rfl

/-! ## Strings -/

/-- The string that a line gives. -/
def Rule.got (r : Rule) (c : List Byte) : List Byte := ((r.read c).headD (.num 0)).string

/-- The line gives its content back. -/
def Rule.Keeps (r : Rule) (c : List Byte) : Prop := r.Enough (r.read c) ∧ r.got c = c

section Strings

variable {name : String} {set : Option (List Byte) → QEntryFile → QEntryFile} {found : Option Needed}
  {c : List Byte}

theorem read_string (format : String) :
    (Rule.string name format set found).read c = guSscanf (scanFormat format) (chop c) :=
  rfl

/-- A line with one string, by what the conversion takes of the line. -/
theorem keeps_of_taken {format : String} (taken : List Byte → List Byte)
    (hread : chop c ≠ [] → guSscanf (scanFormat format) (chop c) = [.str (taken (chop c))]) :
    (Rule.string name format set found).Keeps c ↔ chop c ≠ [] ∧ taken (chop c) = c := by
  by_cases hc : chop c = []
  · constructor
    · rintro ⟨henough, -⟩
      rw [read_string, hc, guSscanf_nil] at henough
      exact absurd henough (Nat.not_succ_le_zero 0)
    · exact fun h => absurd hc h.1
  · rw [Rule.Keeps, Rule.got, read_string, hread hc]
    constructor
    · exact fun h => ⟨hc, h.2⟩
    · exact fun h => ⟨le_refl 1, h.2⟩

/-- A part of the line that is all of the content. -/
theorem chop_eq_self_of_prefix {t : List Byte} (ht : t <+: chop c) (h : t = c) : chop c = c :=
  (chop_isPrefix c).eq_of_length_le (h ▸ ht.length_le)

theorem keeps_text (hc : newline ∉ c) : (Rule.string name "%T" set found).Keeps c ↔ TextKept c := by
  have htake : (chop c).takeWhile (· ≠ newline) = chop c := by
    rw [List.takeWhile_eq_self_iff]
    intro b hb
    have : b ≠ newline := fun e => hc (mem_of_mem_chop (e ▸ hb))
    simpa using this
  rw [keeps_of_taken id ?_, TextKept]
  · constructor
    · rintro ⟨hne, h⟩
      rw [id] at h
      exact ⟨h ▸ hne, h, hc⟩
    · rintro ⟨hne, h, -⟩
      rw [id, h]
      exact ⟨hne, rfl⟩
  · intro hne
    rw [show scanFormat "%T" = [.conv 'T'] by decide, guSscanf_conv hne]
    simp only [convert, htake]
    rfl

theorem guSscanf_word {s : List Byte} (hne : s ≠ []) :
    guSscanf (scanFormat "%S") s = [.str (s.takeWhile (!isblank ·))] := by
  rw [show scanFormat "%S" = [.conv 'S'] by decide, guSscanf_conv hne]
  rfl

theorem wordKept_iff : WordKept c ↔ chop c ≠ [] ∧ (chop c).takeWhile (!isblank ·) = c := by
  constructor
  · rintro ⟨hne, hchop, hw⟩
    rw [hchop]
    exact ⟨hne, List.takeWhile_eq_self_iff.2 fun b hb => by simp [hw b hb]⟩
  · rintro ⟨hne, h⟩
    have hchop := chop_eq_self_of_prefix (List.takeWhile_prefix _) h
    rw [hchop] at hne h
    refine ⟨hne, hchop, fun b hb => ?_⟩
    rw [← h] at hb
    simpa using (mem_takeWhile hb).2

theorem keeps_word : (Rule.string name "%S" set found).Keeps c ↔ WordKept c := by
  rw [keeps_of_taken (List.takeWhile (!isblank ·)) fun hne => guSscanf_word hne, wordKept_iff]

/-- What comes out of quotes does not begin with the quote. -/
theorem scanQuoted_ne {q : Byte} (hq : (chop c).head? = some q) :
    (scanQuoted q (chop c).tail).1 ≠ c := by
  intro h
  have hmem : q ∈ c := mem_of_mem_chop (List.mem_of_mem_head? hq)
  rw [← h] at hmem
  exact (scanQuoted_mem.1 hmem).2 rfl

theorem head?_chop (h : chop c ≠ []) : (chop c).head? = c.head? := by
  obtain ⟨t, ht⟩ := chop_isPrefix c
  conv_rhs => rw [← ht, List.head?_append_of_ne_nil _ h]

/-- What `%W` and `%A` take, if `bare` is what they take of a string that begins with no quote. -/
def unquote (bare : List Byte → List Byte) (s : List Byte) : List Byte :=
  if s.head? = some 34 then (scanQuoted 34 s.tail).1
  else if s.head? = some 39 then (scanQuoted 39 s.tail).1
  else bare s

theorem unquote_eq_iff {bare : List Byte → List Byte} (hne : chop c ≠ []) :
    unquote bare (chop c) = c ↔ bare (chop c) = c ∧ Unquoted c := by
  rw [Unquoted, ← head?_chop hne, unquote]
  by_cases h34 : (chop c).head? = some 34
  · rw [if_pos h34]
    exact ⟨fun h => absurd h (scanQuoted_ne h34), fun h => absurd h34 h.2.1⟩
  · rw [if_neg h34]
    by_cases h39 : (chop c).head? = some 39
    · rw [if_pos h39]
      exact ⟨fun h => absurd h (scanQuoted_ne h39), fun h => absurd h39 h.2.2⟩
    · rw [if_neg h39]
      exact ⟨fun h => ⟨h, h34, h39⟩, fun h => h.1⟩

theorem keeps_quotable :
    (Rule.string name "%W" set found).Keeps c ↔ WordKept c ∧ Unquoted c := by
  rw [keeps_of_taken (unquote (List.takeWhile (!isblank ·))) ?_, wordKept_iff]
  · constructor
    · rintro ⟨hne, h⟩
      obtain ⟨h, hq⟩ := (unquote_eq_iff hne).1 h
      exact ⟨⟨hne, h⟩, hq⟩
    · rintro ⟨⟨hne, h⟩, hq⟩
      exact ⟨hne, (unquote_eq_iff hne).2 ⟨h, hq⟩⟩
  · intro hne
    rw [show scanFormat "%W" = [.conv 'W'] by decide, guSscanf_conv hne, unquote]
    simp only [convert]
    split_ifs <;> rfl

theorem keeps_address (hc : newline ∉ c) :
    (Rule.string name "%A" set found).Keeps c ↔ TextKept c ∧ Unquoted c := by
  have hchop : chop (chop c) = chop c := List.rdropWhile_idempotent _ _
  rw [keeps_of_taken (unquote chop) ?_, TextKept]
  · constructor
    · rintro ⟨hne, h⟩
      obtain ⟨h, hq⟩ := (unquote_eq_iff hne).1 h
      rw [hchop] at h
      exact ⟨⟨h ▸ hne, h, hc⟩, hq⟩
    · rintro ⟨⟨hne, h, -⟩, hq⟩
      refine ⟨h.symm ▸ hne, (unquote_eq_iff (h.symm ▸ hne)).2 ⟨?_, hq⟩⟩
      rw [hchop, h]
  · intro hne
    rw [show scanFormat "%A" = [.conv 'A'] by decide, guSscanf_conv hne, unquote]
    simp only [convert]
    split_ifs <;> rfl

end Strings

/-! ## Lines of several kinds of fields -/

/-- The parts of a `float` that is not too large to be printed. -/
theorem guDtostr_parts {x : ℚ} (h : ⌊|x|⌋₊ ≤ 999999999) : ∃ tail : List Byte,
    guDtostr x = (if decide (x < 0) = true then [45] else []) ++ decimal ⌊|x|⌋₊ ++ tail ∧
    (tail = [] ∨ ∃ ds, tail = 46 :: ds ∧ ∀ b ∈ ds, isdigit b = true) := by
  refine ⟨_, by rw [guDtostr, if_neg (by omega)]; simp only [decide_eq_true_eq]; rfl, ?_⟩
  split_ifs with hfrac
  · exact .inl rfl
  · refine .inr ⟨_, rfl, fun b hb => ?_⟩
    obtain ⟨d, hd, rfl⟩ := List.mem_map.1 hb
    have hd : d < 10 := by
      have := (List.rdropWhile_prefix _ _).subset hd
      simp only [List.mem_cons, List.not_mem_nil, or_false] at this
      omega
    simp only [isdigit, BitVec.toNat_ofNat, Nat.mod_eq_of_lt (by omega : 48 + d < 2 ^ 8)]
    simp
    omega

theorem guDtostr_overflow {x : ℚ} (h : 999999999 < ⌊|x|⌋₊) : guDtostr x = ascii "<overflow>" := by
  rw [guDtostr]
  exact if_pos h

/-- A `float` is read, unless it is too large to be printed. -/
theorem scans_guDtostr {x : ℚ} (h : ⌊|x|⌋₊ ≤ 999999999) : ∃ v, Scans 'f' (guDtostr x) v := by
  obtain ⟨tail, htext, htail⟩ := guDtostr_parts h
  have hdigits : ∀ b ∈ decimal ⌊|x|⌋₊, isdigit b = true := fun b hb => isdigit_decimal hb
  refine ⟨.real ((if decide (x < 0) = true then (-1 : ℤ) else 1) *
    (⌊|x|⌋₊ + (scanFraction tail).1)), ?_, ?_, fun rest hrest => ?_⟩
  · rw [htext]
    simp [decimal_ne_nil]
  · intro b hb
    rw [htext] at hb
    by_cases hx : x < 0
    · rw [if_pos (by simpa using hx)] at hb
      cases hb
      decide
    · rw [if_neg (by simpa using hx), List.nil_append, List.head?_append_of_ne_nil _ (decimal_ne_nil _)] at hb
      exact not_isspace_of_isdigit b (hdigits b (List.mem_of_mem_head? hb))
  · have hstop : ∀ b ∈ (tail ++ rest).head?, isdigit b = false := by
      intro b hb
      rcases htail with rfl | ⟨ds, rfl, -⟩
      · rw [hrest b hb]
        decide
      · cases hb
        decide
    have hspan := span_append isdigit (tail ++ rest) hdigits hstop
    have hfrac : scanFraction (tail ++ rest) = ((scanFraction tail).1, rest) := by
      rcases htail with rfl | ⟨ds, rfl, hds⟩
      · have hhead : rest.head? ≠ some 46 := fun e => by cases hrest 46 e
        rw [List.nil_append, scanFraction, if_neg hhead]
        rfl
      · have hend := span_append isdigit rest hds fun b hb => by
          rw [hrest b hb]
          decide
        have hall : ds.takeWhile isdigit = ds := List.takeWhile_eq_self_iff.2 hds
        simp only [scanFraction, List.cons_append, List.head?_cons, if_true, List.tail_cons, hend.1,
          hend.2, hall]
    simp only [convert]
    rw [htext, List.append_assoc, scanSign_print]
    dsimp only
    rw [hspan.1, hspan.2, if_neg (decimal_ne_nil _), hfrac, digitsValue_decimal]

section Dsc

variable (a : Attr)

/-- The numbers at the end of the "Attr-DSC:" line. -/
def dscNumbers : List Byte :=
  spaced [cDecimal a.orientation, cDecimal a.proofmode, cDecimal a.docdata]

theorem dscContent_eq : dscContent a =
    guDtostr a.DSClevel ++ 32 :: (a.DSCJobType.getD (ascii "NULL") ++ 32 :: dscNumbers a) := by
  rw [dscContent, spaced_cons_cons, spaced_cons_cons]
  rfl

theorem chop_dscNumbers : chop (dscNumbers a) = dscNumbers a ∧ dscNumbers a ≠ [] :=
  chop_spaced [cDecimal a.orientation, cDecimal a.proofmode] (scans_cDecimal _).ne (chop_cDecimal _)

theorem chop_dscContent : chop (dscContent a) = dscContent a := by
  have h := chop_append_of_eq_self (l := guDtostr a.DSClevel ++ 32 ::
    (a.DSCJobType.getD (ascii "NULL") ++ [32])) (chop_dscNumbers a).1 (chop_dscNumbers a).2
  rw [dscContent_eq]
  simpa using h

theorem read_dsc_of_overflow (h : 999999999 < ⌊|a.DSClevel|⌋₊) :
    Rule.attrDSC.read (dscContent a) = [] := by
  have htext := guDtostr_overflow h
  have hhead : Unspaced (dscContent a) := by
    rw [dscContent_eq, htext]
    intro b hb
    cases hb
    decide
  rw [Rule.read_of_fits (chop_dscContent a) hhead, dscContent_eq, htext]
  rfl

theorem read_dsc {v : Extracted} (hv : Scans 'f' (guDtostr a.DSClevel) v) :
    Rule.attrDSC.read (dscContent a) = v :: guSscanf (directives ['S', 'd', 'd', 'd'])
      ((a.DSCJobType.getD (ascii "NULL") ++ 32 :: dscNumbers a).dropWhile isspace) := by
  have hhead : Unspaced (dscContent a) := by
    rw [dscContent_eq, Unspaced, List.head?_append_of_ne_nil _ hv.ne]
    exact hv.head
  rw [Rule.read_of_fits (chop_dscContent a) hhead, dscContent_eq]
  exact hv.guSscanf_cons _ _

/-- The type of the job is there for the `%S`. -/
theorem read_dsc_of_word {v : Extracted} (hv : Scans 'f' (guDtostr a.DSClevel) v)
    (ht : ∀ t ∈ a.DSCJobType, t ≠ [] ∧ Unspaced t ∧ ∀ b ∈ t, isblank b = false) :
    Rule.attrDSC.read (dscContent a) = [v, .str (a.DSCJobType.getD (ascii "NULL")),
      .num a.orientation.toInt, .num a.proofmode.toInt, .num a.docdata.toInt] := by
  have hword : Scans 'S' (a.DSCJobType.getD (ascii "NULL"))
      (.str (a.DSCJobType.getD (ascii "NULL"))) := by
    cases htype : a.DSCJobType with
    | none => exact scans_S (by decide) (by decide) (by decide)
    | some t =>
      obtain ⟨hne, hhead, hblank⟩ := ht t htype
      exact scans_S hne hhead hblank
  rw [read_dsc a hv, hword.dropWhile]
  have hfields := guSscanf_spaced [('S', a.DSCJobType.getD (ascii "NULL"),
    .str (a.DSCJobType.getD (ascii "NULL"))), ('d', cDecimal a.orientation, .num a.orientation.toInt),
    ('d', cDecimal a.proofmode, .num a.proofmode.toInt), ('d', cDecimal a.docdata, .num a.docdata.toInt)]
    (by simp [hword, scans_cDecimal])
  simp only [List.map_cons, List.map_nil] at hfields
  rw [spaced_cons_cons] at hfields
  rw [dscNumbers, hfields]

/-- What the `%S` takes is a word. -/
theorem read_dsc_string {v : Extracted} (hv : Scans 'f' (guDtostr a.DSClevel) v) :
    ∃ t vs, Rule.attrDSC.read (dscContent a) = v :: .str t :: vs ∧ t ≠ [] ∧ Unspaced t ∧
      ∀ b ∈ t, isblank b = false := by
  set s := (a.DSCJobType.getD (ascii "NULL") ++ 32 :: dscNumbers a).dropWhile isspace with hs
  have hhead : Unspaced s := dropWhile_head _
  have hne : s ≠ [] := by
    intro h
    have hall := List.dropWhile_eq_nil_iff.1 (hs.symm.trans h)
    have hd := (scans_cDecimal a.orientation).head
    obtain ⟨b, l, hb⟩ := List.exists_cons_of_ne_nil (scans_cDecimal a.orientation).ne
    have hmem : b ∈ dscNumbers a := by
      rw [dscNumbers, spaced_cons_cons, hb]
      exact List.mem_cons_self ..
    have := hall b (List.mem_append_right _ (List.mem_cons_of_mem _ hmem))
    rw [hd b (by rw [hb]; rfl)] at this
    cases this
  obtain ⟨b, s', hb⟩ := List.exists_cons_of_ne_nil hne
  have hbb : isblank b = false := not_isblank_of_not_isspace b (hhead b (by rw [hb]; rfl))
  have htake : s.takeWhile (!isblank ·) = b :: s'.takeWhile (!isblank ·) := by
    rw [hb, List.takeWhile_cons_of_pos (by simp [hbb])]
  refine ⟨s.takeWhile (!isblank ·),
    guSscanf (.space :: directives ['d', 'd', 'd']) (s.dropWhile (!isblank ·)), ?_, ?_, ?_, ?_⟩
  · rw [read_dsc a hv]
    show v :: guSscanf (.conv 'S' :: .space :: directives ['d', 'd', 'd']) s = _
    rw [guSscanf_conv hne]
    rfl
  · rw [htake]
    exact List.cons_ne_nil _ _
  · rw [htake]
    intro b' hb'
    cases hb'
    exact hhead b (by rw [hb]; rfl)
  · intro b hb
    simpa using (mem_takeWhile hb).2

end Dsc

end Ppr.QEntryFile
