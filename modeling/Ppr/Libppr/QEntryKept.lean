import Ppr.Libppr.QEntryReadBack

/-!
# The round trip of a queue file

`qentryfile_load()` gives back what `qentryfile_save()` wrote exactly if every string is one that its
line can carry, the numbers of the "PPRD:" line have their widths, and no division stops the save.
What is loaded never has a newline in a string, so a string with a newline never comes back.
-/

namespace Ppr.QEntryFile

/-! ## What is loaded has no newlines -/

/-- The strings that `write_queue_file()` does not check. -/
def unchecked (j : QEntryFile) : List (Option (List Byte)) :=
  [j.user, j.magicCookie, j.attr.DSCJobType, j.PassThruPDL, j.Filters, j.pageList.mask, j.question]

/-- None of them has a newline. -/
def Clean (j : QEntryFile) : Prop := ∀ o ∈ j.unchecked, ∀ s ∈ o, newline ∉ s

/-- A store that keeps them so. -/
def CleanStore (s : Store) : Prop :=
  ∀ (v : Extracted) (j : QEntryFile), newline ∉ v.string → Clean j → Clean (s v j)

theorem CleanStore.of_eq {s : Store} (h : ∀ v j, (s v j).unchecked = j.unchecked) : CleanStore s := by
  intro v j _ hj
  rw [Clean, h]
  exact hj

theorem CleanStore.of_set {s : Store} (i : ℕ)
    (h : ∀ v j, (s v j).unchecked = j.unchecked.set i (some v.string)) : CleanStore s := by
  intro v j hv hj
  rw [Clean, h]
  intro o ho
  rcases List.mem_or_eq_of_mem_set ho with ho | rfl
  · exact hj o ho
  · rintro _ ⟨⟩
    exact hv

theorem rules_clean : ∀ r ∈ rules, ∀ s ∈ r.stores, CleanStore s := by
  have none : ∀ s ∈ ([] : List Store), CleanStore s := fun s hs => absurd hs List.not_mem_nil
  have keep : ∀ {s : Store} {ss : List Store}, (∀ v j, (s v j).unchecked = j.unchecked) →
      (∀ t ∈ ss, CleanStore t) → ∀ t ∈ s :: ss, CleanStore t :=
    fun h hss => List.forall_mem_cons.2 ⟨.of_eq h, hss⟩
  have set : ∀ {s : Store} {ss : List Store} (i : ℕ),
      (∀ v j, (s v j).unchecked = j.unchecked.set i (some v.string)) →
      (∀ t ∈ ss, CleanStore t) → ∀ t ∈ s :: ss, CleanStore t :=
    fun i h hss => List.forall_mem_cons.2 ⟨.of_set i h, hss⟩
  simp only [rules, List.forall_mem_cons]
  and_intros
  · exact keep (fun _ _ => rfl) (set 2 (fun _ _ => rfl) (keep (fun _ _ => rfl)
      (keep (fun _ _ => rfl) (keep (fun _ _ => rfl) none))))
  all_goals
    repeat first
      | exact fun r hr => absurd hr List.not_mem_nil
      | exact none
      | refine keep (fun _ _ => rfl) ?_
      | refine set 0 (fun _ _ => rfl) ?_
      | refine set 1 (fun _ _ => rfl) ?_
      | refine set 3 (fun _ _ => rfl) ?_
      | refine set 4 (fun _ _ => rfl) ?_
      | refine set 5 (fun _ _ => rfl) ?_
      | refine set 6 (fun _ _ => rfl) ?_

theorem finish_clean : ∀ r ∈ rules, ∀ j, Clean j → Clean (r.finish j) := by
  have stay : ∀ {r : Rule}, (∀ j, (r.finish j).unchecked = j.unchecked) →
      ∀ j, Clean j → Clean (r.finish j) := by
    intro r h j hj
    rw [Clean, h]
    exact hj
  simp only [rules, List.forall_mem_cons]
  refine ⟨fun j hj => ?_, ?_⟩
  · show ∀ o ∈ j.unchecked.set 2 (j.attr.DSCJobType.filter (· ≠ ascii "NULL")), ∀ s ∈ o, newline ∉ s
    intro o ho
    rcases List.mem_or_eq_of_mem_set ho with ho | rfl
    · exact hj o ho
    · intro s hs
      have hmem : s ∈ j.attr.DSCJobType := (Option.mem_filter_iff.1 hs).1
      exact hj _ (by simp [unchecked]) s hmem
  · and_intros
    all_goals first
      | exact stay fun _ => rfl
      | exact fun r hr => absurd hr List.not_mem_nil

theorem storeAll_clean {ss : List Store} {vs : List Extracted} {j : QEntryFile}
    (hss : ∀ s ∈ ss, CleanStore s) (hvs : ∀ v ∈ vs, newline ∉ v.string) (hj : Clean j) :
    Clean (storeAll ss vs j) := by
  induction ss generalizing vs j with
  | nil => exact hj
  | cons s ss ih =>
    cases vs with
    | nil => exact hj
    | cons v vs =>
      obtain ⟨hs, hss⟩ := List.forall_mem_cons.1 hss
      obtain ⟨hv, hvs⟩ := List.forall_mem_cons.1 hvs
      exact ih hss hvs (hs v j hv hj)

/-- The comparisons with a line keep the strings clean. -/
theorem tryRules_clean {line : List Byte} (hline : newline ∉ line) {rs : List Rule}
    (hrs : ∀ r ∈ rs, r ∈ rules) {st : Loading} (hst : Clean st.job) :
    match tryRules line rs st with
    | .ok st' => Clean st'.job
    | .error st' => Clean st'.job := by
  have extracted : ∀ (p : List Directive) {s : List Byte}, (∀ b ∈ s, b ∈ line) →
      ∀ v ∈ guSscanf p s, newline ∉ v.string :=
    fun p s hs v hv hmem => hline (hs _ (mem_of_mem_guSscanf hv _ hmem))
  induction rs generalizing st with
  | nil => exact hst
  | cons r rs ih =>
    obtain ⟨hr, hrs⟩ := List.forall_mem_cons.1 hrs
    have hstores := rules_clean r hr
    rw [tryRules]
    cases htest : r.test with
    | scan =>
      have hjob := storeAll_clean hstores
        (extracted (scanFormat r.format) (s := line) fun b hb => hb) hst
      dsimp only
      split_ifs
      · exact finish_clean r hr _ hjob
      · exact ih hrs hjob
    | name =>
      dsimp only
      split_ifs
      · exact storeAll_clean hstores (extracted _ fun b hb => List.mem_of_mem_drop hb) hst
      · exact ih hrs hst
    | attr =>
      dsimp only
      split_ifs
      · refine finish_clean r hr _ (storeAll_clean hstores (extracted _ fun b hb => ?_) hst)
        exact List.mem_of_mem_drop ((List.dropWhile_suffix _).subset hb)
      · refine storeAll_clean hstores (extracted _ fun b hb => ?_) hst
        exact List.mem_of_mem_drop ((List.dropWhile_suffix _).subset hb)
      · exact ih hrs hst

theorem loadMisc_clean (ls : List (List Byte)) (hls : ∀ l ∈ ls, newline ∉ chop l) (st : Loading)
    (hst : Clean st.job) :
    match loadMisc ls st with
    | .ok (st', _) => Clean st'.job
    | .error (st', _) => Clean st'.job := by
  induction ls generalizing st with
  | nil => exact hst
  | cons l ls ih =>
    obtain ⟨hl, hls⟩ := List.forall_mem_cons.1 hls
    rw [loadMisc]
    split_ifs
    · exact hst
    · exact hst
    · have htry := tryRules_clean hl (fun r hr => hr) hst
      cases h : tryRules (chop l) rules st with
      | error st' =>
        rw [h] at htry
        exact htry
      | ok st' =>
        rw [h] at htry
        exact ih hls st' htry

theorem load_clean (job : QEntryFile) (s : List Byte) :
    Clean (qentryfileLoad (qentryfileClear job) s).job := by
  have hclear : Clean (qentryfileClear job) := by
    intro o ho s hs
    simp only [unchecked, qentryfileClear, List.mem_cons, List.not_mem_nil, or_false, or_self] at ho
    subst ho
    cases hs
  have h := loadMisc_clean (rawLines s) (fun l hl => newline_notMem_chop hl)
    { job := qentryfileClear job, found := [], failed := false } hclear
  rw [qentryfileLoad]
  split <;> rename_i hload <;> rw [hload] at h <;> exact h

/-! ## What is saved -/

/-- No string has a newline. -/
structure NewlineFree (q : QEntryFile) : Prop where
  unchecked : Clean q
  lcMessages : ∀ s ∈ q.lcMessages, newline ∉ s
  For : ∀ s ∈ q.For, newline ∉ s
  chargeTo : ∀ s ∈ q.chargeTo, newline ∉ s
  Title : ∀ s ∈ q.Title, newline ∉ s
  draftNotice : ∀ s ∈ q.draftNotice, newline ∉ s
  Creator : ∀ s ∈ q.Creator, newline ∉ s
  Routing : ∀ s ∈ q.Routing, newline ∉ s
  lpqFileName : ∀ s ∈ q.lpqFileName, newline ∉ s
  responderName : ∀ s ∈ q.responder.name, newline ∉ s
  responderAddress : ∀ s ∈ q.responder.address, newline ∉ s
  responderOptions : ∀ s ∈ q.responder.options, newline ∉ s
  ripopts : ∀ s ∈ q.ripopts, newline ∉ s

theorem newline_notMem_of_ok {o : Option (List Byte)} {a b c : Bool} (h : assertOkValue o a b c) :
    ∀ s ∈ o, newline ∉ s := by
  rintro s hs
  rw [Option.mem_def] at hs
  rw [hs, assertOkValue, Bool.and_eq_true] at h
  simpa using h.1

theorem NewlineFree.of_accepted {q : QEntryFile} (h : Accepted q) (hc : Clean q) : NewlineFree q where
  unchecked := hc
  lcMessages := newline_notMem_of_ok h.lcMessages
  For := newline_notMem_of_ok h.For
  chargeTo := newline_notMem_of_ok h.chargeTo
  Title := newline_notMem_of_ok h.Title
  draftNotice := newline_notMem_of_ok h.draftNotice
  Creator := newline_notMem_of_ok h.Creator
  Routing := newline_notMem_of_ok h.Routing
  lpqFileName := newline_notMem_of_ok h.lpqFileName
  responderName := newline_notMem_of_ok h.responderName
  responderAddress := newline_notMem_of_ok h.responderAddress
  responderOptions := newline_notMem_of_ok h.responderOptions
  ripopts := newline_notMem_of_ok h.ripopts

theorem newline_notMem_spaced {ts : List (List Byte)} (h : ∀ t ∈ ts, newline ∉ t) :
    newline ∉ spaced ts := by
  induction ts with
  | nil => exact List.not_mem_nil
  | cons t ts ih =>
    obtain ⟨ht, hts⟩ := List.forall_mem_cons.1 h
    cases ts with
    | nil => rwa [spaced_singleton]
    | cons u ts =>
      rw [spaced_cons_cons, List.mem_append, List.mem_cons]
      rintro (hm | hm | hm)
      · exact ht hm
      · cases hm
      · exact ih hts hm

theorem newline_notMem_decimal (n : ℕ) : newline ∉ decimal n := by
  intro h
  cases isdigit_decimal h

theorem not_isspace_cDecimal {w : ℕ} {i : BitVec w} {b : Byte} (h : b ∈ cDecimal i) :
    isspace b = false := by
  rw [cDecimal, decimalInt, List.mem_append] at h
  rcases h with h | h
  · split_ifs at h
    · rw [List.mem_singleton.1 h]
      decide
    · cases h
  · exact not_isspace_of_isdigit b (isdigit_decimal h)

theorem newline_notMem_cDecimal {w : ℕ} (i : BitVec w) : newline ∉ cDecimal i := by
  intro h
  cases not_isspace_cDecimal h

theorem newline_notMem_upperHex (w n : ℕ) : newline ∉ upperHex w n := by
  intro h
  cases isxdigit_upperHex h

theorem not_isspace_guDtostr {x : ℚ} {b : Byte} (hb : b ∈ guDtostr x) : isspace b = false := by
  by_cases h : ⌊|x|⌋₊ ≤ 999999999
  · obtain ⟨tail, htext, htail⟩ := guDtostr_parts h
    rw [htext, List.mem_append, List.mem_append] at hb
    rcases hb with (hm | hm) | hm
    · split_ifs at hm
      · rw [List.mem_singleton.1 hm]
        decide
      · cases hm
    · exact not_isspace_of_isdigit b (isdigit_decimal hm)
    · rcases htail with rfl | ⟨ds, rfl, hds⟩
      · cases hm
      · rcases List.mem_cons.1 hm with rfl | hm
        · decide
        · exact not_isspace_of_isdigit b (hds _ hm)
  · rw [guDtostr_overflow (by omega)] at hb
    revert b
    decide

theorem newline_notMem_guDtostr (x : ℚ) : newline ∉ guDtostr x := by
  intro h
  cases not_isspace_guDtostr h

theorem newline_notMem_getD {o : Option (List Byte)} (ho : ∀ s ∈ o, newline ∉ s) {d : List Byte}
    (hd : newline ∉ d) : newline ∉ o.getD d := by
  cases o with
  | none => exact hd
  | some s => exact ho s rfl

theorem newline_notMem_optionalLine {r : Rule} {o : Option (List Byte)} (ho : ∀ s ∈ o, newline ∉ s) :
    ∀ l ∈ optionalLine r o, newline ∉ l.2 := by
  intro l hl
  obtain ⟨s, hs, rfl⟩ := List.mem_map.1 hl
  exact ho s (Option.mem_toList.1 hs)

/-- The lines of a structure without newlines are lines. -/
theorem newline_notMem_pprdContent (s : SpoolState) : newline ∉ pprdContent s := by
  rw [pprdContent, List.mem_append]
  rintro (hm | hm)
  · refine newline_notMem_spaced ?_ hm
    simp only [List.forall_mem_cons]
    exact ⟨newline_notMem_upperHex _ _, newline_notMem_upperHex _ _, newline_notMem_upperHex _ _,
      newline_notMem_upperHex _ _, fun t ht => absurd ht List.not_mem_nil⟩
  · revert hm
    decide

theorem newline_notMem_lines {q : QEntryFile} (h : NewlineFree q) : ∀ l ∈ q.lines, newline ∉ l.2 := by
  have hnull : newline ∉ ascii "(null)" := by decide
  have hq : ∀ o ∈ q.unchecked, ∀ s ∈ o, newline ∉ s := h.unchecked
  simp only [unchecked, List.forall_mem_cons] at hq
  obtain ⟨huser, hcookie, htype, hpdl, hfilters, hmask, hquestion, -⟩ := hq
  have hnums : ∀ ts : List CInt, newline ∉ spaced (ts.map cDecimal) := by
    intro ts
    refine newline_notMem_spaced fun t ht => ?_
    obtain ⟨i, -, rfl⟩ := List.mem_map.1 ht
    exact newline_notMem_cDecimal i
  have nil : ∀ {P : Rule × List Byte → Prop}, ∀ l ∈ ([] : List (Rule × List Byte)), P l :=
    fun l hl => absurd hl List.not_mem_nil
  simp only [lines, List.forall_mem_append, List.forall_mem_cons]
  refine ⟨⟨⟨⟨⟨⟨⟨⟨⟨⟨⟨⟨⟨⟨⟨⟨newline_notMem_pprdContent _, newline_notMem_getD huser hnull, by decide, nil⟩,
    newline_notMem_optionalLine h.lcMessages⟩, newline_notMem_cDecimal _,
    newline_notMem_getD hcookie hnull, newline_notMem_getD h.For (by decide), nil⟩,
    newline_notMem_optionalLine h.chargeTo⟩, newline_notMem_optionalLine ?_⟩,
    newline_notMem_optionalLine h.draftNotice⟩, newline_notMem_optionalLine h.Creator⟩,
    newline_notMem_optionalLine h.Routing⟩, newline_notMem_optionalLine h.lpqFileName⟩,
    hnums [_, _], newline_notMem_spaced ?_, newline_notMem_cDecimal _, newline_notMem_spaced ?_,
    hnums [_, _, _], hnums [_, _], hnums [_, _, _], newline_notMem_spaced ?_,
    newline_notMem_cDecimal _, newline_notMem_spaced ?_, hnums [_, _, _, _, _], nil⟩,
    newline_notMem_optionalLine hfilters⟩, newline_notMem_optionalLine hpdl⟩,
    newline_notMem_cDecimal _, nil⟩, newline_notMem_optionalLine ?_⟩,
    newline_notMem_optionalLine hquestion⟩, newline_notMem_optionalLine h.ripopts⟩
  · exact fun s hs => h.Title s (Option.mem_filter_iff.1 hs).1
  · simp only [List.forall_mem_cons]
    exact ⟨newline_notMem_getD h.responderName hnull, newline_notMem_getD h.responderAddress hnull,
      newline_notMem_getD h.responderOptions List.not_mem_nil, fun t ht => absurd ht List.not_mem_nil⟩
  · simp only [List.forall_mem_cons]
    exact ⟨newline_notMem_guDtostr _, newline_notMem_getD htype (by decide),
      newline_notMem_cDecimal _, newline_notMem_cDecimal _, newline_notMem_cDecimal _,
      fun t ht => absurd ht List.not_mem_nil⟩
  · simp only [List.forall_mem_cons]
    exact ⟨newline_notMem_cDecimal _, newline_notMem_cDecimal _,
      fun t ht => absurd ht List.not_mem_nil⟩
  · simp only [List.forall_mem_cons]
    exact ⟨newline_notMem_cDecimal _, newline_notMem_cDecimal _, newline_notMem_cDecimal _,
      newline_notMem_cDecimal _, newline_notMem_decimal _, fun t ht => absurd ht List.not_mem_nil⟩
  · intro s hs
    obtain ⟨m, hm, rfl⟩ := Option.mem_map.1 hs
    refine newline_notMem_spaced ?_
    simp only [List.forall_mem_cons]
    exact ⟨newline_notMem_cDecimal _, hmask m hm, fun t ht => absurd ht List.not_mem_nil⟩

/-! ## The load of what is saved -/

/-- The state of `qentryfile_load()` before the first line. -/
def starting (job : QEntryFile) : Loading := { job := job, found := [], failed := false }

theorem qentryfileLoad_of_misc {job : QEntryFile} {stream : List Byte} {st : Loading}
    {ls : List (List Byte)} (h : loadMisc (rawLines stream) (starting job) = .ok (st, ls)) :
    qentryfileLoad job stream =
      { ok := !st.failed && needed.all (· ∈ st.found), job := st.job, rest := (skipIpp ls).flatten } := by
  rw [starting] at h
  rw [qentryfileLoad, h]

theorem goodLines_of_ok {q job : QEntryFile} (hq : NewlineFree q) {s : List Byte}
    (h : (qentryfileLoad job (textOf q.lines ++ s)).ok = true) :
    GoodLines q := by
  have hlines : ∀ l ∈ q.lines, l.1 ∈ rules ∧ newline ∉ l.2 :=
    fun l hl => ⟨mem_rules_of_mem_lines hl, newline_notMem_lines hq l hl⟩
  rw [qentryfileLoad] at h
  split at h
  · cases h
  · rename_i st ls hload
    rw [Bool.and_eq_true] at h
    exact goodLines_iff.1 (enough_of_loadMisc hlines hload (by simpa using h.1))

/-- Lines that do not begin as the end does are skipped. -/
theorem skipIpp_printed {lines : List (String × List Byte)} (hnl : ∀ l ∈ lines, newline ∉ l.2)
    (hname : ∀ l ∈ lines, newline ∉ ascii l.1 ∧ (ascii l.1).head? = some 106) (s : List Byte) :
    skipIpp (rawLines (printed lines ++ s)) = skipIpp (rawLines s) := by
  induction lines with
  | nil => rfl
  | cons l lines ih =>
    obtain ⟨hl, hnl⟩ := List.forall_mem_cons.1 hnl
    obtain ⟨⟨hl', hhead⟩, hname⟩ := List.forall_mem_cons.1 hname
    have htext : printed (l :: lines) ++ s = (ascii l.1 ++ l.2) ++ newline :: (printed lines ++ s) := by
      simp [printed]
    have hbody : newline ∉ ascii l.1 ++ l.2 := by
      rw [List.mem_append, not_or]
      exact ⟨hl', hl⟩
    have hend : chop (ascii l.1 ++ l.2 ++ [newline]) ≠ ascii "EndIPP" := by
      intro he
      have hpre := chop_isPrefix (ascii l.1 ++ l.2 ++ [newline])
      rw [he] at hpre
      have hne : ascii l.1 ≠ [] := by
        intro h
        rw [h] at hhead
        cases hhead
      obtain ⟨b, t, hb⟩ := List.exists_cons_of_ne_nil hne
      rw [hb, List.head?_cons] at hhead
      rw [hb] at hpre
      have : ascii "EndIPP" = 69 :: ascii "ndIPP" := by decide
      rw [this, List.cons_append, List.cons_append, List.cons_prefix_cons] at hpre
      cases hhead
      cases hpre.1
    rw [htext, rawLines_append hbody, skipIpp, if_neg hend, ih hnl hname]

theorem newline_notMem_ippLines {q : QEntryFile} (h : NewlineFree q) (i s : CInt) :
    ∀ l ∈ q.ippLines i s, newline ∉ l.2 := by
  have hname : ∀ l ∈ optional "job-name "
      (if q.Title.filter (· ≠ []) = none then q.lpqFileName else q.Title), newline ∉ l.2 := by
    intro l hl
    obtain ⟨t, ht, rfl⟩ := List.mem_map.1 hl
    rw [Option.mem_toList] at ht
    split_ifs at ht
    · exact h.lpqFileName t ht
    · exact h.Title t ht
  have huser : ∀ t ∈ q.user, newline ∉ t := h.unchecked q.user (List.mem_cons_self ..)
  simp only [ippLines, List.forall_mem_append, List.forall_mem_cons]
  exact ⟨⟨⟨newline_notMem_getD huser (by decide), fun l hl => absurd hl List.not_mem_nil⟩, hname⟩,
    newline_notMem_cDecimal _, newline_notMem_cDecimal _, newline_notMem_cDecimal _,
    fun l hl => absurd hl List.not_mem_nil⟩

theorem ippLines_names (q : QEntryFile) (i s : CInt) :
    ∀ l ∈ q.ippLines i s, newline ∉ ascii l.1 ∧ (ascii l.1).head? = some 106 := by
  have hname : ∀ o, ∀ l ∈ optional "job-name " o, newline ∉ ascii l.1 ∧ (ascii l.1).head? = some 106 := by
    intro o l hl
    obtain ⟨t, -, rfl⟩ := List.mem_map.1 hl
    show newline ∉ ascii "job-name " ∧ (ascii "job-name ").head? = some 106
    decide
  simp only [ippLines, List.forall_mem_append, List.forall_mem_cons]
  exact ⟨⟨⟨by decide, fun l hl => absurd hl List.not_mem_nil⟩, hname _⟩, by decide, by decide,
    by decide, fun l hl => absurd hl List.not_mem_nil⟩

/-- What is saved. -/
def savedText (q : QEntryFile) (impressions sheets : CInt) : List Byte :=
  textOf q.lines ++ (ascii "EndMisc\n" ++ (printed (q.ippLines impressions sheets) ++ ascii "EndIPP\n"))

/-- The load, if every line is good. -/
theorem load_savedText {q job : QEntryFile} (hq : NewlineFree q)
    (h : GoodLines q) (i s : CInt) (rest : List Byte) :
    qentryfileLoad job (q.savedText i s ++ rest) = { ok := true, job := q.reread job, rest := rest } := by
  have hlines : ∀ l ∈ q.lines, l.1 ∈ rules ∧ newline ∉ l.2 ∧ l.1.Enough (l.1.read l.2) :=
    fun l hl => ⟨mem_rules_of_mem_lines hl, newline_notMem_lines hq l hl, goodLines_iff.2 h l hl⟩
  obtain ⟨hjob, hfailed, hfound⟩ := putAll_lines h (starting job)
  have htext : q.savedText i s ++ rest = textOf q.lines ++ (ascii "EndMisc" ++ newline ::
      (printed (q.ippLines i s) ++ (ascii "EndIPP" ++ newline :: rest))) := by
    have h1 : ascii "EndMisc\n" = ascii "EndMisc" ++ [newline] := by decide
    have h2 : ascii "EndIPP\n" = ascii "EndIPP" ++ [newline] := by decide
    rw [savedText, h1, h2]
    simp
  have hmisc : loadMisc (rawLines (q.savedText i s ++ rest)) (starting job) =
      .ok (putAll q.lines (starting job),
        rawLines (printed (q.ippLines i s) ++ (ascii "EndIPP" ++ newline :: rest))) := by
    rw [htext, loadMisc_textOf hlines, rawLines_append (by decide), loadMisc, if_pos (by decide)]
  have hskip : skipIpp (rawLines (printed (q.ippLines i s) ++ (ascii "EndIPP" ++ newline :: rest))) =
      rawLines rest := by
    rw [skipIpp_printed (newline_notMem_ippLines hq i s) (ippLines_names q i s),
      rawLines_append (by decide), skipIpp, if_pos (by decide)]
  have hall : (needed.all fun x => decide (x ∈ (putAll q.lines (starting job)).found)) = true := by
    rw [List.all_eq_true]
    intro x hx
    simpa using hfound x hx
  rw [qentryfileLoad_of_misc hmisc, hskip, flatten_rawLines, hjob, hfailed, hall]
  rfl

/-! ## The "PPRD:" line -/

theorem length_pprd_iff (s : SpoolState) :
    (printed [("PPRD: ", pprdContent s)]).length = 64 ↔
      s.priority.toNat < 256 ∧ (-s.status.signExtend 32).toNat < 256 := by
  have h2 := length_upperHex_eq_iff (w := 2) s.priority.toNat
  have h8 := (length_upperHex_eq_iff (w := 8) s.sequenceNumber.toNat).2 s.sequenceNumber.isLt
  have h2' := length_upperHex_eq_iff (w := 2) (-s.status.signExtend 32).toNat
  have h4 := (length_upperHex_eq_iff (w := 4) s.flags.toNat).2 s.flags.isLt
  have hle : ∀ n, 2 ≤ (upperHex 2 n).length := fun n => by
    rw [length_upperHex]
    exact le_max_left _ _
  have hlen : (printed [("PPRD: ", pprdContent s)]).length =
      (upperHex 2 s.priority.toNat).length + (upperHex 2 (-s.status.signExtend 32).toNat).length + 60 := by
    simp only [printed, pprdContent, spaced_cons_cons, spaced_singleton, List.flatMap_cons,
      List.flatMap_nil, List.length_append, List.length_cons, List.length_replicate, h8, h4,
      List.length_nil]
    have : (ascii "PPRD: ").length = 6 := by decide
    omega
  rw [hlen]
  have hp := hle s.priority.toNat
  have hs := hle (-s.status.signExtend 32).toNat
  constructor
  · intro h
    exact ⟨h2.1 (by omega), h2'.1 (by omega)⟩
  · rintro ⟨h, h'⟩
    have := h2.2 h
    have := h2'.2 h'
    omega

theorem neg_status_lt_iff {s : BitVec 16} (hs : s.toInt < 0) :
    (-s.signExtend 32).toNat < 256 ↔ -256 < s.toInt := by
  have hlo := BitVec.le_two_mul_toInt (x := s)
  have hse : (s.signExtend 32).toInt = s.toInt := BitVec.toInt_signExtend_of_le (by decide)
  have hneg : (-s.signExtend 32).toInt = -s.toInt := by
    rw [BitVec.toInt_neg, hse, Int.bmod_eq_of_le] <;> omega
  have hnat : ((-s.signExtend 32).toNat : ℤ) = -s.toInt := by
    rw [← hneg, BitVec.toInt_eq_toNat_of_lt]
    have := BitVec.toInt_eq_toNat_cond (-s.signExtend 32)
    split_ifs at this <;> omega
  omega

theorem neg_neg_status (s : BitVec 16) : -BitVec.ofInt 16 (-s.signExtend 32).toNat = s := by
  rw [BitVec.ofInt_natCast, BitVec.ofNat_toNat, BitVec.setWidth_neg_of_le (by decide), neg_neg]
  refine BitVec.eq_of_getLsbD_eq fun i hi => ?_
  simp only [BitVec.getLsbD_setWidth, BitVec.getLsbD_signExtend, hi, if_true]
  have : i < 32 := by omega
  simp [this]

theorem spoolStateRead_eq {old s : SpoolState} (hold : old.priority = 1)
    (hp : s.priority.toNat < 256) : spoolStateRead old s = s := by
  have hprio : setLow old.priority (BitVec.ofInt 16 s.priority.toNat) = s.priority := by
    rw [hold]
    apply BitVec.eq_of_toNat_eq
    have hhigh : ((1 : CInt).extractLsb' 16 16).toNat = 0 := by decide
    rw [setLow, BitVec.toNat_append, hhigh, BitVec.ofInt_natCast, BitVec.toNat_ofNat,
      Nat.mod_eq_of_lt (by omega)]
    simp
  rw [spoolStateRead, hprio, neg_neg_status]

/-! ## Every member -/

/-- Optional strings that come back. -/
theorem forall_keeps_of_or {r : Rule} {o old : Option (List Byte)} (hold : old = none)
    (h : ∀ s ∈ o, r.Enough (r.read s)) (heq : (o.map r.got).or old = o) : ∀ s ∈ o, r.Keeps s := by
  rintro s hs
  rw [Option.mem_def] at hs
  refine ⟨h s hs, ?_⟩
  rw [hold, hs] at heq
  exact Option.some.inj heq

theorem or_eq_of_keeps {r : Rule} {o old : Option (List Byte)} (hold : old = none)
    (h : ∀ s ∈ o, r.Keeps s) : (o.map r.got).or old = o := by
  rw [hold]
  cases o with
  | none => rfl
  | some s =>
    show some (r.got s) = some s
    rw [(h s rfl).2]

theorem saved_iff {q : QEntryFile} {text : List Byte} : qentryfileSave q = some text ↔
    (printed [("PPRD: ", pprdContent q.spoolState)]).length = 64 ∧
    ∃ i s, cDiv (q.attr.pages + q.nUp.N - 1) q.nUp.N = some i ∧
      cDiv (q.attr.pages + q.attr.pagefactor - 1) q.attr.pagefactor = some s ∧
      text = q.savedText i s := by
  have htext : ∀ i s, printed q.miscLines ++ ascii "EndMisc\n" ++ printed (q.ippLines i s) ++
      ascii "EndIPP\n" = q.savedText i s := by
    intro i s
    rw [savedText, printed_miscLines]
    simp
  simp only [qentryfileSave, bind, Option.bind_eq_some_iff, Option.guard_eq_some', htext]
  constructor
  · rintro ⟨⟨⟩, hlen, i, hi, s, hs, heq⟩
    exact ⟨hlen, i, s, hi, hs, (Option.some.inj heq).symm⟩
  · rintro ⟨hlen, i, s, hi, hs, rfl⟩
    exact ⟨(), hlen, i, hi, s, hs, rfl⟩

section Members

variable {q : QEntryFile} (h : Accepted q)
include h

theorem Accepted.name : ∃ n, q.responder.name = some n := by
  cases hn : q.responder.name with
  | none =>
    have := h.responderName
    rw [hn] at this
    cases this
  | some n => exact ⟨n, rfl⟩

theorem Accepted.address : ∃ a, q.responder.address = some a ∧ a ≠ [] := by
  cases ha : q.responder.address with
  | none =>
    have := h.responderAddress
    rw [ha] at this
    cases this
  | some a =>
    refine ⟨a, rfl, ?_⟩
    rintro rfl
    have := h.responderAddress
    rw [ha] at this
    exact absurd this (by decide)

theorem Accepted.for_ : ∃ s, q.For = some s := by
  cases hf : q.For with
  | none =>
    have := h.For
    rw [hf] at this
    cases this
  | some s => exact ⟨s, rfl⟩

end Members

theorem newline_notMem_responseContent {q : QEntryFile} (h : NewlineFree q) :
    newline ∉ responseContent q.responder :=
  newline_notMem_lines h (.response, responseContent q.responder) (by simp [lines])

/-- A structure that comes back can be read. -/
theorem Readable.of_roundTrips {q : QEntryFile} (h : Accepted q) (hq : RoundTrips q) : Readable q := by
  obtain ⟨text, hsave, hload⟩ := hq
  obtain ⟨hlen, i, s, hi, hs, rfl⟩ := saved_iff.1 hsave
  obtain ⟨hprio, hstatus⟩ := (length_pprd_iff q.spoolState).1 hlen
  obtain ⟨hok, hagree, -⟩ := hload default []
  -- What is loaded has no newlines, so nothing of what was saved has.
  have hclean : Clean q := by
    have hsame : q.unchecked =
        (qentryfileLoad (qentryfileClear default) (q.savedText i s ++ [])).job.unchecked := by
      simp only [unchecked, hagree.user, hagree.magicCookie, hagree.PassThruPDL, hagree.Filters,
        hagree.mask, hagree.question]
      rw [← congrArg Attr.DSCJobType hagree.attr]
    rw [Clean, hsame]
    exact load_clean default _
  have hnl := NewlineFree.of_accepted h hclean
  have hq : ∀ o ∈ q.unchecked, ∀ s ∈ o, newline ∉ s := hclean
  simp only [unchecked, List.forall_mem_cons] at hq
  obtain ⟨huser, -, -, hpdl, hfilters, hmask, hquestion, -⟩ := hq
  have hgood : GoodLines q := by
    rw [List.append_nil, savedText] at hok
    exact goodLines_of_ok hnl hok
  rw [load_savedText hnl hgood] at hagree
  obtain ⟨n, hn⟩ := h.name
  obtain ⟨a, ha, hane⟩ := h.address
  obtain ⟨f, hf⟩ := h.for_
  have user : ∃ u, q.user = some u ∧ Rule.user.Keeps u := by
    have heq : some (Rule.user.got (cString q.user)) = q.user := hagree.user
    refine ⟨_, heq.symm, ?_⟩
    have hgot : cString q.user = Rule.user.got (cString q.user) := congrArg cString heq.symm
    exact ⟨hgot ▸ hgood.user, congrArg Rule.user.got hgot.symm⟩
  have cookie : ∃ u, q.magicCookie = some u ∧ Rule.magicCookie.Keeps u := by
    have heq : some (Rule.magicCookie.got (cString q.magicCookie)) = q.magicCookie :=
      hagree.magicCookie
    refine ⟨_, heq.symm, ?_⟩
    have hgot : cString q.magicCookie = Rule.magicCookie.got (cString q.magicCookie) :=
      congrArg cString heq.symm
    exact ⟨hgot ▸ hgood.magicCookie, congrArg Rule.magicCookie.got hgot.symm⟩
  have level : ⌊|q.attr.DSClevel|⌋₊ ≤ 999999999 := by
    by_contra hover
    have hdsc := hgood.dsc
    rw [read_dsc_of_overflow _ (by omega)] at hdsc
    cases hdsc
  obtain ⟨v, hv⟩ := scans_guDtostr level
  refine
    { priority := hprio
      status := (neg_status_lt_iff h.status).1 hstatus
      user := ?_
      lcMessages := fun s hs =>
        keeps_word.1 (forall_keeps_of_or rfl hgood.lcMessages hagree.lcMessages s hs)
      time := ?_
      magicCookie := ?_
      For := ?_
      chargeTo := fun s hs =>
        keeps_quotable.1 (forall_keeps_of_or rfl hgood.chargeTo hagree.chargeTo s hs)
      Title := ?_
      draftNotice := fun s hs => (keeps_text (hnl.draftNotice s hs)).1
        (forall_keeps_of_or rfl hgood.draftNotice hagree.draftNotice s hs)
      Creator := fun s hs => (keeps_text (hnl.Creator s hs)).1
        (forall_keeps_of_or rfl hgood.Creator hagree.Creator s hs)
      Routing := fun s hs => (keeps_text (hnl.Routing s hs)).1
        (forall_keeps_of_or rfl hgood.Routing hagree.Routing s hs)
      lpqFileName := fun s hs => (keeps_address (hnl.lpqFileName s hs)).1
        (forall_keeps_of_or rfl hgood.lpqFileName hagree.lpqFileName s hs)
      responder := ?_
      level := level
      jobType := ?_
      Filters := fun s hs => (keeps_text (hfilters s hs)).1
        (forall_keeps_of_or rfl hgood.Filters hagree.Filters s hs)
      PassThruPDL := fun s hs => (keeps_text (hpdl s hs)).1
        (forall_keeps_of_or rfl hgood.PassThruPDL hagree.PassThruPDL s hs)
      StripPrinter := ?_
      mask := ?_
      question := fun s hs => (keeps_text (hquestion s hs)).1
        (forall_keeps_of_or rfl hgood.question hagree.question s hs)
      ripopts := fun s hs => (keeps_text (hnl.ripopts s hs)).1
        (forall_keeps_of_or rfl hgood.ripopts hagree.ripopts s hs)
      impressions := by rw [hi]; exact Option.some_ne_none i
      sheets := by rw [hs]; exact Option.some_ne_none s }
  · obtain ⟨u, hu, hk⟩ := user
    exact ⟨u, hu, (keeps_text (huser u hu)).1 hk⟩
  · by_contra htime
    have heq : BitVec.ofInt 64 (if 0 ≤ q.time.toInt then q.time.toInt else 0) = q.time := hagree.time
    rw [if_neg htime] at heq
    rw [← heq] at htime
    exact htime (by decide)
  · obtain ⟨u, hu, hk⟩ := cookie
    exact ⟨u, hu, keeps_word.1 hk⟩
  · intro s hs
    rw [Option.mem_def] at hs
    have heq : some (Rule.for_.got (q.For.getD (ascii "???"))) = q.For := hagree.For
    have henough := hgood.For
    rw [hs, Option.getD_some] at heq henough
    exact (keeps_text (hnl.For s hs)).1 ⟨henough, Option.some.inj heq⟩
  · intro s hs hne
    rw [Option.mem_def] at hs
    have hfilter : q.Title.filter (· ≠ []) = some s := by
      rw [hs, Option.filter_some, if_pos (by simpa using hne)]
    have heq : ((q.Title.filter (· ≠ [])).map Rule.title.got).or none = q.Title := by
      rcases hagree.Title with heq | ⟨hnil, -⟩
      · exact heq
      · rw [hs] at hnil
        exact absurd (Option.some.inj hnil) hne
    rw [hfilter, hs] at heq
    exact (keeps_text (hnl.Title s hs)).1 ⟨hgood.Title s hfilter, Option.some.inj heq⟩
  · have hopts := hagree.responderOptions
    simp only [reread, qentryfileClear, Option.or_none] at hopts
    exact .of_read hn ha hane (newline_notMem_responseContent hnl) hgood.response
      (hagree.responderName.trans hn) (hagree.responderAddress.trans ha) hopts
  · intro t ht
    obtain ⟨t', vs, hread, hne, hus, hblank⟩ := read_dsc_string q.attr hv
    have heq : (some t').filter (· ≠ ascii "NULL") = q.attr.DSCJobType := by
      have := congrArg Attr.DSCJobType hagree.attr
      simp only [reread, attrRead, hread] at this
      exact this
    rw [Option.mem_def.1 ht] at heq
    obtain ⟨htt, hnull⟩ := Option.filter_eq_some_iff.1 heq
    cases htt
    exact ⟨hne, hus, hblank, by simpa using hnull⟩
  · have heq : (if q.StripPrinter = 0 then 0 else 1) = q.StripPrinter := hagree.StripPrinter
    split_ifs at heq
    · exact .inl heq.symm
    · exact .inr heq.symm
  · intro m hm
    have heq : (pageListRead (qentryfileClear default).pageList q.pageList).mask = q.pageList.mask :=
      hagree.mask
    rw [Option.mem_def] at hm
    simp only [pageListRead, hm] at heq
    exact (mask_kept_iff q.pageList.count (hmask m hm)).1 ⟨hgood.mask m hm, Option.some.inj heq⟩

theorem WordKept.newline {s : List Byte} (h : WordKept s) : newline ∉ s := by
  intro hm
  cases h.2.2 _ hm

/-- What can be read has no newlines. -/
theorem Readable.clean {q : QEntryFile} (h : Readable q) : Clean q := by
  obtain ⟨u, hu, huser⟩ := h.user
  obtain ⟨c, hc, hcookie⟩ := h.magicCookie
  simp only [Clean, unchecked, List.forall_mem_cons]
  refine ⟨?_, ?_, fun s hs => ?_, fun s hs => (h.PassThruPDL s hs).2.2,
    fun s hs => (h.Filters s hs).2.2, fun s hs => (h.mask s hs).1.2.2,
    fun s hs => (h.question s hs).2.2, fun o ho => absurd ho List.not_mem_nil⟩
  · rw [hu]
    rintro _ ⟨⟩
    exact huser.2.2
  · rw [hc]
    rintro _ ⟨⟩
    exact hcookie.newline
  · intro hm
    cases (h.jobType s hs).2.2.1 _ hm

section Read

variable {q : QEntryFile} (h : Accepted q) (hr : Readable q)
include hr

/-- A title that is saved comes back. -/
theorem Readable.keeps_title {s : List Byte} (hs : s ∈ q.Title.filter (· ≠ [])) :
    Rule.title.Keeps s := by
  obtain ⟨hs, hne⟩ := Option.mem_filter_iff.1 hs
  have hkept := hr.Title s hs (by simpa using hne)
  exact (keeps_text hkept.2.2).2 hkept

theorem Readable.dsc_word : ∀ t ∈ q.attr.DSCJobType,
    t ≠ [] ∧ Unspaced t ∧ ∀ b ∈ t, isblank b = false :=
  fun t ht => ⟨(hr.jobType t ht).1, (hr.jobType t ht).2.1, (hr.jobType t ht).2.2.1⟩

include h

/-- The strings that are always saved come back. -/
theorem Readable.keeps : Rule.user.Keeps (cString q.user) ∧
    Rule.magicCookie.Keeps (cString q.magicCookie) ∧
    Rule.for_.Keeps (q.For.getD (ascii "???")) := by
  obtain ⟨u, hu, huser⟩ := hr.user
  obtain ⟨c, hc, hcookie⟩ := hr.magicCookie
  obtain ⟨f, hf⟩ := h.for_
  rw [hu, hc, hf]
  exact ⟨(keeps_text huser.2.2).2 huser, keeps_word.2 hcookie,
    (keeps_text (hr.For f hf).2.2).2 (hr.For f hf)⟩

theorem Readable.goodLines : GoodLines q := by
  have hnl := NewlineFree.of_accepted h hr.clean
  obtain ⟨huser, hcookie, hfor⟩ := hr.keeps h
  obtain ⟨n, hn⟩ := h.name
  obtain ⟨a, ha, hane⟩ := h.address
  obtain ⟨v, hv⟩ := scans_guDtostr hr.level
  exact
    { user := huser.1
      lcMessages := fun s hs => (keeps_word.2 (hr.lcMessages s hs)).1
      magicCookie := hcookie.1
      For := hfor.1
      chargeTo := fun s hs => (keeps_quotable.2 (hr.chargeTo s hs)).1
      Title := fun s hs => (hr.keeps_title hs).1
      draftNotice := fun s hs => ((keeps_text (hnl.draftNotice s hs)).2 (hr.draftNotice s hs)).1
      Creator := fun s hs => ((keeps_text (hnl.Creator s hs)).2 (hr.Creator s hs)).1
      Routing := fun s hs => ((keeps_text (hnl.Routing s hs)).2 (hr.Routing s hs)).1
      lpqFileName := fun s hs => ((keeps_address (hnl.lpqFileName s hs)).2 (hr.lpqFileName s hs)).1
      response := by
        rw [read_response_of_kept hn ha hane (newline_notMem_responseContent hnl) hr.responder]
        exact Nat.le_add_left 2 _
      dsc := by
        rw [read_dsc_of_word _ hv hr.dsc_word]
        exact rfl
      Filters := fun s hs => ((keeps_text (hr.Filters s hs).2.2).2 (hr.Filters s hs)).1
      PassThruPDL := fun s hs => ((keeps_text (hr.PassThruPDL s hs).2.2).2 (hr.PassThruPDL s hs)).1
      mask := fun s hs => ((mask_kept_iff _ (hr.mask s hs).1.2.2).2 (hr.mask s hs)).1
      question := fun s hs => ((keeps_text (hr.question s hs).2.2).2 (hr.question s hs)).1
      ripopts := fun s hs => ((keeps_text (hnl.ripopts s hs)).2 (hr.ripopts s hs)).1 }

/-- The structure that is read back agrees with the one that was saved. -/
theorem Readable.agrees (job : QEntryFile) : Agrees q (q.reread (qentryfileClear job)) := by
  have hnl := NewlineFree.of_accepted h hr.clean
  obtain ⟨huser, hcookie, hfor⟩ := hr.keeps h
  obtain ⟨u, hu, -⟩ := hr.user
  obtain ⟨c, hc, -⟩ := hr.magicCookie
  obtain ⟨f, hf⟩ := h.for_
  obtain ⟨n, hn⟩ := h.name
  obtain ⟨a, ha, hane⟩ := h.address
  obtain ⟨v, hv⟩ := scans_guDtostr hr.level
  have hread := read_response_of_kept hn ha hane (newline_notMem_responseContent hnl) hr.responder
  refine
    { spoolState := spoolStateRead_eq rfl hr.priority
      user := ?_
      lcMessages := or_eq_of_keeps rfl fun s hs => keeps_word.2 (hr.lcMessages s hs)
      time := ?_
      magicCookie := ?_
      For := ?_
      chargeTo := or_eq_of_keeps rfl fun s hs => keeps_quotable.2 (hr.chargeTo s hs)
      Title := ?_
      draftNotice := or_eq_of_keeps rfl fun s hs =>
        (keeps_text (hnl.draftNotice s hs)).2 (hr.draftNotice s hs)
      Creator := or_eq_of_keeps rfl fun s hs => (keeps_text (hnl.Creator s hs)).2 (hr.Creator s hs)
      Routing := or_eq_of_keeps rfl fun s hs => (keeps_text (hnl.Routing s hs)).2 (hr.Routing s hs)
      lpqFileName := or_eq_of_keeps rfl fun s hs =>
        (keeps_address (hnl.lpqFileName s hs)).2 (hr.lpqFileName s hs)
      doBanner := rfl
      doTrailer := rfl
      responderName := ?_
      responderAddress := ?_
      responderOptions := ?_
      commentary := rfl
      attr := ?_
      opts := rfl
      nUp := rfl
      Filters := or_eq_of_keeps rfl fun s hs =>
        (keeps_text (hr.Filters s hs).2.2).2 (hr.Filters s hs)
      PassThruPDL := or_eq_of_keeps rfl fun s hs =>
        (keeps_text (hr.PassThruPDL s hs).2.2).2 (hr.PassThruPDL s hs)
      StripPrinter := ?_
      mask := ?_
      count := ?_
      question := or_eq_of_keeps rfl fun s hs =>
        (keeps_text (hr.question s hs).2.2).2 (hr.question s hs)
      ripopts := or_eq_of_keeps rfl fun s hs => (keeps_text (hnl.ripopts s hs)).2 (hr.ripopts s hs) }
  · show some (Rule.user.got (cString q.user)) = q.user
    rw [huser.2, hu]
    rfl
  · show BitVec.ofInt 64 (if 0 ≤ q.time.toInt then q.time.toInt else 0) = q.time
    rw [if_pos hr.time, BitVec.ofInt_toInt]
  · show some (Rule.magicCookie.got (cString q.magicCookie)) = q.magicCookie
    rw [hcookie.2, hc]
    rfl
  · show some (Rule.for_.got (q.For.getD (ascii "???"))) = q.For
    rw [hfor.2, hf]
    rfl
  · have heq : ((q.Title.filter (· ≠ [])).map Rule.title.got).or none = q.Title.filter (· ≠ []) :=
      or_eq_of_keeps rfl fun s hs => hr.keeps_title hs
    show ((q.Title.filter (· ≠ [])).map Rule.title.got).or none = q.Title ∨
      q.Title = some [] ∧ ((q.Title.filter (· ≠ [])).map Rule.title.got).or none = none
    rw [heq]
    cases htitle : q.Title with
    | none => exact .inl rfl
    | some s =>
      by_cases hs : s = []
      · exact .inr ⟨by rw [hs], by rw [hs]; rfl⟩
      · exact .inl (by rw [Option.filter_some, if_pos (by simpa using hs)])
  · show (responderRead q.responder).name = q.responder.name
    rw [responderRead, hread, hn]
    rfl
  · show (responderRead q.responder).address = q.responder.address
    rw [responderRead, hread, ha]
    rfl
  · show (responderRead q.responder).options.or none = q.responder.options ∨
      q.responder.options = some [] ∧ (responderRead q.responder).options.or none = none
    rw [responderRead, hread]
    cases hopt : q.responder.options with
    | none => exact .inl rfl
    | some o =>
      by_cases ho : o = []
      · exact .inr ⟨by rw [ho], by rw [ho]; rfl⟩
      · exact .inl (by rw [Option.getD_some, if_neg ho]; rfl)
  · have hdsc := read_dsc_of_word q.attr hv hr.dsc_word
    simp only [reread, attrRead, hdsc]
    have htype : (some (q.attr.DSCJobType.getD (ascii "NULL"))).filter (· ≠ ascii "NULL") =
        q.attr.DSCJobType := by
      cases ht : q.attr.DSCJobType with
      | none => rfl
      | some t => rw [Option.getD_some, Option.filter_some, if_pos (by simpa using (hr.jobType t ht).2.2.2)]
    show ({ q.attr with
      DSClevel := q.attr.DSClevel
      DSCJobType := (some (q.attr.DSCJobType.getD (ascii "NULL"))).filter (· ≠ ascii "NULL")
      orientation := BitVec.ofInt 32 q.attr.orientation.toInt
      proofmode := BitVec.ofInt 32 q.attr.proofmode.toInt
      docdata := BitVec.ofInt 32 q.attr.docdata.toInt } : Attr) = q.attr
    rw [htype, BitVec.ofInt_toInt, BitVec.ofInt_toInt, BitVec.ofInt_toInt]
  · show (if q.StripPrinter = 0 then 0 else 1) = q.StripPrinter
    rcases hr.StripPrinter with hs | hs <;> rw [hs] <;> rfl
  · show (pageListRead (qentryfileClear job).pageList q.pageList).mask = q.pageList.mask
    cases hm : q.pageList.mask with
    | none =>
      simp only [pageListRead, hm]
      rfl
    | some m =>
      have hkept := (mask_kept_iff q.pageList.count (hr.mask m hm).1.2.2).2 (hr.mask m hm)
      simp only [pageListRead, hm, hkept.2]
  · intro hne
    show (pageListRead (qentryfileClear job).pageList q.pageList).count = q.pageList.count
    obtain ⟨m, hm⟩ := Option.ne_none_iff_exists'.1 hne
    simp only [pageListRead, hm, read_pageList q.pageList.count (hr.mask m hm).1.2.2]
    exact BitVec.ofInt_toInt

end Read

/-- What is saved comes back exactly if every line can carry its members. -/
theorem roundTrips_iff {q : QEntryFile} (h : Accepted q) : RoundTrips q ↔ Readable q := by
  constructor
  · exact Readable.of_roundTrips h
  · intro hr
    obtain ⟨i, hi⟩ := Option.ne_none_iff_exists'.1 hr.impressions
    obtain ⟨s, hs⟩ := Option.ne_none_iff_exists'.1 hr.sheets
    have hlen := (length_pprd_iff q.spoolState).2
      ⟨hr.priority, (neg_status_lt_iff h.status).2 hr.status⟩
    refine ⟨_, saved_iff.2 ⟨hlen, i, s, hi, hs, rfl⟩, fun job rest => ?_⟩
    rw [load_savedText (NewlineFree.of_accepted h hr.clean) (hr.goodLines h)]
    exact ⟨rfl, hr.agrees h job, rfl⟩

/-- A letter of one page. -/
def letter : QEntryFile :=
  { (default : QEntryFile) with
    spoolState := { priority := 50, sequenceNumber := 7, status := -1, flags := 0 }
    user := some (ascii "alice")
    time := 1145000000
    magicCookie := some (ascii "0A1B2C3D")
    For := some (ascii "Alice Smith")
    Title := some (ascii "letter to Bob")
    responder :=
      { name := some (ascii "write"), address := some (ascii "alice@mouse"), options := none }
    attr := { (default : Attr) with DSClevel := 3, pages := 1, pagefactor := 1 }
    nUp := { (default : NUp) with N := 1 }
    StripPrinter := 1 }

theorem letter_accepted : Accepted letter := by
  constructor <;> decide

theorem letter_roundTrips : Accepted letter ∧ RoundTrips letter := by
  have text : ∀ {s : List Byte}, s ≠ [] ∧ chop s = s ∧ newline ∉ s → TextKept s := id
  refine ⟨letter_accepted, (roundTrips_iff letter_accepted).2 ?_⟩
  exact
    { priority := by decide
      status := by decide
      user := ⟨_, rfl, text (by decide)⟩
      lcMessages := nofun
      time := by decide
      magicCookie := ⟨_, rfl, by rw [WordKept]; decide⟩
      For := by rintro _ ⟨⟩; exact text (by decide)
      chargeTo := nofun
      Title := by rintro _ ⟨⟩ _; exact text (by decide)
      draftNotice := nofun
      Creator := nofun
      Routing := nofun
      lpqFileName := nofun
      responder :=
        { name := by rintro _ ⟨⟩; decide
          address := by rintro _ ⟨⟩; rw [Unspaced]; decide
          options := nofun
          last := by rintro _ _ ⟨⟩; decide }
      level := by norm_num [letter]
      jobType := nofun
      Filters := nofun
      PassThruPDL := nofun
      StripPrinter := .inr rfl
      mask := nofun
      question := nofun
      ripopts := nofun
      impressions := by decide
      sheets := by decide }

/-- An account whose name has a space in it is accepted and does not come back. -/
theorem charged_letter_lost :
    let q := { letter with chargeTo := some (ascii "Physics Lab") }
    Accepted q ∧ ¬RoundTrips q := by
  have haccepted : Accepted { letter with chargeTo := some (ascii "Physics Lab") } := by
    constructor <;> decide
  refine ⟨haccepted, fun hq => ?_⟩
  have hword := ((Readable.of_roundTrips haccepted hq).chargeTo _ rfl).1.2.2
  exact absurd (hword 32 (by decide)) (by decide)

end Ppr.QEntryFile
