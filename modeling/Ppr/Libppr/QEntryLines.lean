import Ppr.Libppr.QEntryFile

/-!
# The lines of a queue file, read back

What `qentryfile_load()` does with lines that have the names that `qentryfile_save()` writes.  No name
is the beginning of another, so each line comes to the comparison of its own kind; what it leaves in
the structure is determined by what that comparison extracts, and one line from which too little is
extracted is enough for the load to fail.
-/

namespace Ppr.QEntryFile

/-! ## The table -/

/-- The name of a kind of line, without the space after it. -/
def Rule.key (r : Rule) : List Byte := chop (ascii r.name)

/-- The name that `qentryfile_save()` writes. -/
def Rule.saved (r : Rule) : String := if r.test = .attr then r.name ++ " " else r.name

/-- The part of the format that is for the content. -/
def Rule.contentFormat (r : Rule) : List Directive :=
  if r.test = .scan then (scanFormat r.format).drop (r.key.length + 1) else scanFormat r.format

theorem rules_keys :
    rules.Pairwise fun r r' => ¬r.key <+: r'.key ∧ ¬r'.key <+: r.key := by
  decide +kernel

theorem rules_scan : ∀ r ∈ rules, r.test = .scan →
    scanFormat r.format = r.key.map .lit ++ .space :: r.contentFormat := by
  decide +kernel

theorem rules_key : ∀ r ∈ rules, ascii r.saved = r.key ++ [32] ∧ chop r.key = r.key ∧ r.key ≠ [] ∧
    ¬r.key <+: ascii "EndMisc" ∧ newline ∉ r.key ∧ 0 < r.least := by
  decide +kernel

theorem rules_found : ∀ r ∈ rules, r.test ≠ .name → r.found = none := by decide +kernel

theorem rules_finish : ∀ r ∈ rules, r.test = .name → r.finish = id := by
  simp [rules, Rule.attrDSC, Rule.pprd, Rule.string, Rule.attrDSCSections, Rule.attrLangLevel,
    Rule.attrPages, Rule.attrByteCounts, Rule.attrParts, Rule.banners, Rule.chargeTo, Rule.creator,
    Rule.commentary, Rule.draftNotice, Rule.for_, Rule.filters, Rule.lcMessages, Rule.lpqFileName,
    Rule.magicCookie, Rule.nUp, Rule.opts, Rule.pprVersion, Rule.passThruPDL, Rule.pageList,
    Rule.question, Rule.routing, Rule.response, Rule.ripopts, Rule.stripPrinter, Rule.time,
    Rule.title, Rule.user]

/-! ## One line -/

/-- What is extracted from a line with the content `c`. -/
def Rule.read (r : Rule) (c : List Byte) : List Extracted :=
  guSscanf r.contentFormat
    (match r.test with
    | .scan => (chop c).dropWhile isspace
    | .name => chop c
    | .attr => (chop c).dropWhile fun b => b = 32 || b = 9)

/-- Enough is extracted for the kind of line. -/
def Rule.Enough (r : Rule) (vs : List Extracted) : Prop :=
  match r.test with
  | .name => r.least ≤ vs.length
  | _ => vs.length = r.least

/-- What a good line leaves. -/
def Rule.put (r : Rule) (vs : List Extracted) (st : Loading) : Loading :=
  { job := r.finish (storeAll r.stores vs st.job)
    found := r.found.toList ++ st.found
    failed := st.failed }

/-- The line that `gu_getline()` returns for a kind and a content. -/
def Rule.line (r : Rule) (c : List Byte) : List Byte := chop (r.key ++ 32 :: c)

section Line

variable {r : Rule} {c line : List Byte} {st st' : Loading}

theorem Rule.line_of_ne (hc : chop c ≠ []) : r.line c = r.key ++ 32 :: chop c := by
  rw [Rule.line, ← List.singleton_append, ← List.append_assoc, chop_append_of_ne hc,
    List.append_assoc, List.singleton_append]

theorem Rule.line_of_eq (hr : r ∈ rules) (hc : chop c = []) : r.line c = r.key := by
  have h32 : chop (32 :: c) = [] := by
    rw [← List.singleton_append, chop_append_of_eq hc]
    decide
  rw [Rule.line, chop_append_of_eq h32, (rules_key r hr).2.1]

theorem Rule.key_prefix_line (hr : r ∈ rules) (c : List Byte) : r.key <+: r.line c := by
  by_cases hc : chop c = []
  · rw [r.line_of_eq hr hc]
  · rw [Rule.line_of_ne hc]
    exact List.prefix_append _ _

theorem storeAll_nil (ss : List Store) (j : QEntryFile) : storeAll ss [] j = j := by
  cases ss <;> rfl

/-- A comparison with another name. -/
theorem tryRules_skip (hr : r ∈ rules) (hkey : ¬r.key <+: line) (rs : List Rule) :
    tryRules line (r :: rs) st = tryRules line rs st := by
  have hname : ¬ascii r.name <+: line := fun h => hkey ((chop_isPrefix _).trans h)
  have hleast := (rules_key r hr).2.2.2.2.2
  rw [tryRules]
  cases htest : r.test with
  | scan =>
    have hvs : guSscanf (scanFormat r.format) line = [] := by
      rw [rules_scan r hr htest, guSscanf_lits, if_neg hkey]
    dsimp only
    rw [hvs, storeAll_nil, if_neg (by rw [List.length_nil]; omega)]
  | name =>
    dsimp only
    rw [if_neg hname]
  | attr =>
    dsimp only
    rw [if_neg hname]

theorem tryRules_skips {rs : List Rule} (hrs : ∀ r ∈ rs, r ∈ rules ∧ ¬r.key <+: line)
    (rest : List Rule) : tryRules line (rs ++ rest) st = tryRules line rest st := by
  induction rs with
  | nil => rfl
  | cons r rs ih =>
    obtain ⟨hr, hkey⟩ := hrs r (List.mem_cons_self ..)
    rw [List.cons_append, tryRules_skip hr hkey]
    exact ih fun r' hr' => hrs r' (List.mem_cons_of_mem r hr')

/-- A line comes to the comparison with its own name. -/
theorem exists_tryRules_eq (hr : r ∈ rules) (hkey : r.key <+: line) (st : Loading) :
    ∃ post, tryRules line rules st = tryRules line (r :: post) st ∧
      ∀ st, tryRules line post st = .ok { st with failed := true } := by
  obtain ⟨pre, post, hsplit⟩ := List.append_of_mem hr
  have hpw := rules_keys
  rw [hsplit, List.pairwise_append] at hpw
  obtain ⟨-, hpost, hpre⟩ := hpw
  rw [List.pairwise_cons] at hpost
  have other : ∀ r' : Rule, ¬r.key <+: r'.key ∧ ¬r'.key <+: r.key → ¬r'.key <+: line := by
    rintro r' ⟨h1, h2⟩ h
    exact (List.prefix_or_prefix_of_prefix hkey h).elim h1 h2
  have hmem : ∀ r' ∈ pre ++ r :: post, r' ∈ rules := fun r' h => hsplit ▸ h
  refine ⟨post, ?_, fun st => ?_⟩
  · rw [hsplit]
    refine tryRules_skips (fun r' hr' => ⟨hmem r' (List.mem_append_left _ hr'), ?_⟩) _
    have := hpre r' hr' r (List.mem_cons_self ..)
    exact other r' ⟨this.2, this.1⟩
  · have hskip : ∀ r' ∈ post, r' ∈ rules ∧ ¬r'.key <+: line := fun r' hr' =>
      ⟨hmem r' (List.mem_append_right _ (List.mem_cons_of_mem r hr')), other r' (hpost.1 r' hr')⟩
    rw [← List.append_nil post, tryRules_skips hskip, tryRules]

/-- What the comparison with the right name extracts. -/
theorem extracted_of_test (hr : r ∈ rules) :
    (r.test = .scan → guSscanf (scanFormat r.format) (r.line c) = r.read c) ∧
    (r.test = .name → if ascii r.name <+: r.line c then
        guSscanf (scanFormat r.format) ((r.line c).drop (ascii r.name).length) = r.read c
      else r.read c = []) ∧
    (r.test = .attr → ascii r.name <+: r.line c ∧
      guSscanf (scanFormat r.format) (((r.line c).drop (ascii r.name).length).dropWhile
        fun b => b = 32 || b = 9) = r.read c) := by
  obtain ⟨hsaved, hchop, -⟩ := rules_key r hr
  refine ⟨fun htest => ?_, fun htest => ?_, fun htest => ?_⟩
  · rw [rules_scan r hr htest, guSscanf_lits, if_pos (r.key_prefix_line hr c), guSscanf_space,
      Rule.read, htest]
    by_cases hc : chop c = []
    · rw [r.line_of_eq hr hc, hc, List.drop_length]
    · rw [Rule.line_of_ne hc, List.drop_left, List.dropWhile_cons_of_pos (by decide)]
  · have hname : ascii r.name = r.key ++ [32] := by
      rw [← hsaved, Rule.saved, if_neg (by rw [htest]; decide)]
    have hfmt : r.contentFormat = scanFormat r.format := by
      rw [Rule.contentFormat, if_neg (by rw [htest]; decide)]
    have hread : r.read c = guSscanf (scanFormat r.format) (chop c) := by
      rw [Rule.read, htest, hfmt]
    rw [hread]
    by_cases hc : chop c = []
    · have hnot : ¬ascii r.name <+: r.line c := by
        rw [r.line_of_eq hr hc, hname]
        intro h
        have := h.length_le
        simp at this
      rw [if_neg hnot, hc, guSscanf_nil]
    · rw [Rule.line_of_ne hc, ← List.singleton_append, ← List.append_assoc, ← hname,
        if_pos (List.prefix_append _ _), List.drop_left]
  · have hname : ascii r.name = r.key := by
      have h := hsaved
      rw [Rule.saved, if_pos htest] at h
      have happ : ascii (r.name ++ " ") = ascii r.name ++ [32] := by
        rw [ascii, String.toList_append, List.map_append]
        rfl
      rw [happ] at h
      exact List.append_cancel_right h
    have hread : r.read c = guSscanf (scanFormat r.format) ((chop c).dropWhile fun b => b = 32 || b = 9) := by
      rw [Rule.read, htest, Rule.contentFormat, if_neg (by rw [htest]; decide)]
    refine ⟨hname ▸ r.key_prefix_line hr c, ?_⟩
    rw [hread, hname]
    by_cases hc : chop c = []
    · rw [r.line_of_eq hr hc, hc, List.drop_length]
    · rw [Rule.line_of_ne hc, List.drop_left, List.dropWhile_cons_of_pos (by decide)]

/-- A line from which enough is extracted. -/
theorem tryRules_enough (hr : r ∈ rules) (h : r.Enough (r.read c)) (st : Loading) :
    tryRules (r.line c) rules st = .ok (r.put (r.read c) st) := by
  obtain ⟨post, hpost, -⟩ := exists_tryRules_eq hr (r.key_prefix_line hr c) st
  obtain ⟨hscan, hname, hattr⟩ := extracted_of_test (c := c) hr
  have hleast := (rules_key r hr).2.2.2.2.2
  rw [hpost, tryRules]
  cases htest : r.test with
  | scan =>
    rw [Rule.Enough, htest] at h
    have hfound := rules_found r hr (by rw [htest]; decide)
    dsimp only
    rw [hscan htest, if_pos h, Rule.put, hfound]
    rfl
  | name =>
    rw [Rule.Enough, htest] at h
    dsimp only at h ⊢
    have hname := hname htest
    split_ifs at hname with hpre
    · rw [if_pos hpre, hname, Rule.put, rules_finish r hr htest]
      have : decide ((r.read c).length < r.least) = false := by
        rw [decide_eq_false_iff_not]
        omega
      rw [this, Bool.or_false]
      rfl
    · rw [hname, List.length_nil] at h
      omega
  | attr =>
    rw [Rule.Enough, htest] at h
    have hfound := rules_found r hr (by rw [htest]; decide)
    obtain ⟨hpre, hread⟩ := hattr htest
    dsimp only
    rw [if_pos hpre, hread, if_pos h, Rule.put, hfound]
    rfl

/-- A line from which too little is extracted. -/
theorem failed_of_short (hr : r ∈ rules) (h : ¬r.Enough (r.read c))
    (hst : tryRules (r.line c) rules st = .ok st') : st'.failed = true := by
  obtain ⟨post, hpost, hrest⟩ := exists_tryRules_eq hr (r.key_prefix_line hr c) st
  obtain ⟨hscan, hname, hattr⟩ := extracted_of_test (c := c) hr
  rw [hpost, tryRules] at hst
  cases htest : r.test with
  | scan =>
    rw [Rule.Enough, htest] at h
    rw [htest] at hst
    dsimp only at h hst
    rw [hscan htest, if_neg h, hrest] at hst
    cases hst
    rfl
  | name =>
    rw [Rule.Enough, htest] at h
    rw [htest] at hst
    dsimp only at h hst
    have hname := hname htest
    split_ifs at hname with hpre
    · rw [if_pos hpre, hname] at hst
      cases hst
      simp only [Bool.or_eq_true, decide_eq_true_eq]
      omega
    · rw [if_neg hpre, hrest] at hst
      cases hst
      rfl
  | attr =>
    rw [Rule.Enough, htest] at h
    obtain ⟨hpre, hread⟩ := hattr htest
    rw [htest] at hst
    dsimp only at h hst
    rw [if_pos hpre, hread, if_neg h] at hst
    cases hst

/-- An error is not forgotten. -/
theorem tryRules_failed {rs : List Rule} (h : st.failed = true)
    (hst : tryRules line rs st = .ok st') : st'.failed = true := by
  induction rs generalizing st with
  | nil =>
    cases hst
    rfl
  | cons r rs ih =>
    rw [tryRules] at hst
    cases htest : r.test <;> rw [htest] at hst <;> dsimp only at hst
    · split_ifs at hst
      · cases hst
        exact h
      · refine ih ?_ hst
        exact h
    · split_ifs at hst
      · cases hst
        simp [h]
      · exact ih h hst
    · split_ifs at hst
      · cases hst
        exact h
      · exact ih h hst

end Line

/-! ## All the lines -/

theorem loadMisc_failed {ls rest : List (List Byte)} {st st' : Loading} (h : st.failed = true)
    (hst : loadMisc ls st = .ok (st', rest)) : st'.failed = true := by
  induction ls generalizing st with
  | nil =>
    cases hst
    exact h
  | cons l ls ih =>
    rw [loadMisc] at hst
    split_ifs at hst
    · cases hst
      exact h
    · split at hst
      · cases hst
      · rename_i htry
        exact ih (tryRules_failed h htry) hst

/-- Lines as they stand in the file, by their kinds. -/
def textOf (lines : List (Rule × List Byte)) : List Byte :=
  lines.flatMap fun l => l.1.key ++ 32 :: l.2 ++ [newline]

/-- What good lines leave. -/
def putAll (lines : List (Rule × List Byte)) (st : Loading) : Loading :=
  lines.foldl (fun st l => l.1.put (l.1.read l.2) st) st

section Lines

variable {lines : List (Rule × List Byte)}

theorem loadMisc_textOf_cons {l : Rule × List Byte} (hl : l.1 ∈ rules) (hnl : newline ∉ l.2)
    (s : List Byte) (st : Loading) :
    loadMisc (rawLines (textOf (l :: lines) ++ s)) st =
      match tryRules (l.1.line l.2) rules st with
      | .error st => .error (st, rawLines (textOf lines ++ s))
      | .ok st => loadMisc (rawLines (textOf lines ++ s)) st := by
  obtain ⟨-, hchop, hne, hend, hkey, -⟩ := rules_key l.1 hl
  have htext : textOf (l :: lines) ++ s = (l.1.key ++ 32 :: l.2) ++ newline :: (textOf lines ++ s) := by
    simp [textOf]
  have hbody : newline ∉ l.1.key ++ 32 :: l.2 := by
    rw [List.mem_append, List.mem_cons]
    rintro (h | h | h)
    · exact hkey h
    · cases h
    · exact hnl h
  have hpre := l.1.key_prefix_line hl l.2
  have hend' : l.1.line l.2 ≠ ascii "EndMisc" := fun e => hend (e ▸ hpre)
  have hne' : l.1.line l.2 ≠ [] := fun e => hne (List.prefix_nil.1 (e ▸ hpre))
  have hline : chop (l.1.key ++ 32 :: l.2 ++ [newline]) = l.1.line l.2 := chop_concat_newline _
  rw [htext, rawLines_append hbody, loadMisc, hline, if_neg hend']
  exact if_neg hne'

/-- Good lines are read one by one. -/
theorem loadMisc_textOf (h : ∀ l ∈ lines, l.1 ∈ rules ∧ newline ∉ l.2 ∧ l.1.Enough (l.1.read l.2))
    (s : List Byte) (st : Loading) :
    loadMisc (rawLines (textOf lines ++ s)) st = loadMisc (rawLines s) (putAll lines st) := by
  induction lines generalizing st with
  | nil => rfl
  | cons l lines ih =>
    obtain ⟨hl, hnl, henough⟩ := h l (List.mem_cons_self ..)
    rw [loadMisc_textOf_cons hl hnl, tryRules_enough hl henough]
    exact ih (fun k hk => h k (List.mem_cons_of_mem l hk)) _

/-- Lines that are loaded without an error are good. -/
theorem enough_of_loadMisc (h : ∀ l ∈ lines, l.1 ∈ rules ∧ newline ∉ l.2) {s : List Byte}
    {st st' : Loading} {rest : List (List Byte)}
    (hst : loadMisc (rawLines (textOf lines ++ s)) st = .ok (st', rest)) (hok : st'.failed = false) :
    ∀ l ∈ lines, l.1.Enough (l.1.read l.2) := by
  induction lines generalizing st with
  | nil => exact fun l hl => absurd hl List.not_mem_nil
  | cons l lines ih =>
    obtain ⟨hl, hnl⟩ := h l (List.mem_cons_self ..)
    rw [loadMisc_textOf_cons hl hnl] at hst
    have henough : l.1.Enough (l.1.read l.2) := by
      by_contra hshort
      split at hst
      · cases hst
      · rename_i htry
        rw [loadMisc_failed (failed_of_short hl hshort htry) hst] at hok
        cases hok
    rw [tryRules_enough hl henough] at hst
    intro k hk
    rcases List.mem_cons.1 hk with rfl | hk
    · exact henough
    · exact ih (fun k hk => h k (List.mem_cons_of_mem l hk)) hst k hk

end Lines

end Ppr.QEntryFile
