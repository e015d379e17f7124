import Ppr.Spool.Split

/-!
# When a job is split well

Each page goes to one segment, in order, and each segment has a "-pages" file of its own.  The records
that `split_job()` copies end at the next line that begins with "%%Page:" or "%%Trailer"; they are the
records of the pages if the file begins with the first of them and no other line looks so.
-/

namespace Ppr

/-! ## Copying records -/

/-- The lines behind the first one that end a record. -/
def breaks (lines : List (List Byte)) : ℕ := lines.tail.countP startsRecord

theorem copyRecord_block {pre post : List (List Byte)} {m : List Byte} (hpre : pre ≠ [])
    (hno : ∀ x ∈ pre.tail, startsRecord x = false) (hm : startsRecord m = true) :
    copyRecord (pre ++ m :: post) = some (pre.flatMap cstr, m :: post) := by
  induction pre with
  | nil => exact absurd rfl hpre
  | cons l pre ih =>
    cases pre with
    | nil =>
      rw [List.singleton_append, copyRecord, if_pos hm]
      simp
    | cons k pre =>
      have hk : startsRecord k = false := hno k List.mem_cons_self
      have hrest := ih (List.cons_ne_nil _ _) fun x hx => hno x (List.mem_cons_of_mem _ hx)
      rw [List.cons_append] at hrest
      rw [List.cons_append, List.cons_append, copyRecord, if_neg (by simp [hk]), hrest]
      simp

/-- A record that is copied. -/
theorem exists_block {lines : List (List Byte)} (h : 0 < breaks lines) :
    ∃ pre m post, lines = pre ++ m :: post ∧ pre ≠ [] ∧ (∀ x ∈ pre.tail, startsRecord x = false) ∧
      startsRecord m = true ∧ breaks (m :: post) + 1 = breaks lines := by
  cases lines with
  | nil => exact absurd h (Nat.lt_irrefl 0)
  | cons l t =>
    have hdrop : t.dropWhile (fun x => !startsRecord x) ≠ [] := by
      rw [Ne, List.dropWhile_eq_nil_iff]
      intro hall
      have hzero : t.countP startsRecord = 0 := List.countP_eq_zero.2 fun x hx => by
        simpa using hall x hx
      exact absurd hzero h.ne'
    obtain ⟨m, post, hpost⟩ := List.exists_cons_of_ne_nil hdrop
    have ht : t = t.takeWhile (fun x => !startsRecord x) ++ m :: post := by
      rw [← hpost, List.takeWhile_append_dropWhile]
    have hm : startsRecord m = true := by
      have := List.head?_dropWhile_not (fun x => !startsRecord x) t
      rw [hpost] at this
      simpa using this
    have hno : ∀ x ∈ t.takeWhile (fun x => !startsRecord x), startsRecord x = false := fun x hx => by
      simpa using List.mem_takeWhile_imp hx
    refine ⟨l :: t.takeWhile (fun x => !startsRecord x), m, post, by rw [List.cons_append, ← ht],
      List.cons_ne_nil _ _, hno, hm, ?_⟩
    have hzero : (t.takeWhile fun x => !startsRecord x).countP startsRecord = 0 :=
      List.countP_eq_zero.2 fun x hx => by simp [hno x hx]
    rw [breaks, breaks, List.tail_cons, List.tail_cons]
    conv_rhs => rw [ht]
    rw [List.countP_append, List.countP_cons_of_pos hm, hzero]
    omega

/-- The records that are copied for so many pages, and the lines that are left. -/
def copyRecords : ℕ → List (List Byte) → Option (List (List Byte) × List (List Byte))
  | 0, lines => some ([], lines)
  | n + 1, lines => (copyRecord lines).bind fun r => (copyRecords n r.2).map fun q => (r.1 :: q.1, q.2)

/-- What is copied for `n` pages, if there are so many ends of records. -/
structure Copied (n : ℕ) (lines : List (List Byte)) (rs rest : List (List Byte)) : Prop where
  length : rs.length = n
  text : rs.flatten ++ rest.flatten = lines.flatten
  suffix : rest <:+ lines
  breaks : breaks rest + n = breaks lines
  starts : (∀ l ∈ lines.head?, startsRecord l = true) → ∀ r ∈ rs, startsRecord r = true
  tail : ∀ r ∈ rs.tail, startsRecord r = true

theorem startsRecord_append {l : List Byte} (h : startsRecord l = true) (m : List Byte) :
    startsRecord (l ++ m) = true := by
  unfold startsRecord lmatch at *
  rw [Bool.or_eq_true] at *
  exact h.imp isPrefixOf_append_left isPrefixOf_append_left

theorem flatMap_cstr {lines : List (List Byte)} (h : ∀ l ∈ lines, 0 ∉ l) :
    lines.flatMap cstr = lines.flatten := by
  rw [List.flatMap, List.map_congr_left fun l hl => cstr_eq_self.2 (h l hl), List.map_id']

theorem copyRecords_spec {n : ℕ} {lines : List (List Byte)} (h0 : ∀ l ∈ lines, 0 ∉ l)
    (h : n ≤ breaks lines) : ∃ rs rest, copyRecords n lines = some (rs, rest) ∧ Copied n lines rs rest := by
  induction n generalizing lines with
  | zero => exact ⟨[], lines, rfl, rfl, rfl, List.suffix_rfl, rfl, fun _ => nofun, nofun⟩
  | succ n ih =>
    obtain ⟨pre, m, post, rfl, hpre, hno, hm, hbreaks⟩ := exists_block (by omega : 0 < breaks lines)
    have h0' : ∀ l ∈ m :: post, 0 ∉ l := fun l hl => h0 l (List.mem_append_right _ hl)
    obtain ⟨rs, rest, hcopy, hcopied⟩ := ih h0' (by omega)
    have hstarts : ∀ r ∈ rs, startsRecord r = true := hcopied.starts fun l hl => by
      obtain rfl := Option.some.inj hl
      exact hm
    refine ⟨pre.flatten :: rs, rest, ?_, ?_, ?_, ?_, ?_, ?_, hstarts⟩
    · rw [copyRecords, copyRecord_block hpre hno hm, Option.bind_some, hcopy,
        flatMap_cstr fun l hl => h0 l (List.mem_append_left _ hl)]
      rfl
    · rw [List.length_cons, hcopied.length]
    · rw [List.flatten_cons, List.append_assoc, hcopied.text, List.flatten_append]
    · exact hcopied.suffix.trans (List.suffix_append _ _)
    · have := hcopied.breaks
      omega
    · intro hhead
      refine List.forall_mem_cons.2 ⟨?_, hstarts⟩
      obtain ⟨l, pre, rfl⟩ := List.exists_cons_of_ne_nil hpre
      exact startsRecord_append (hhead l rfl) _

/-! ## The files of the segments -/

/-- What is appended to the segment files, record by record. -/
theorem putRecords_eq {assignments : List ℕ} (h1 : ∀ a ∈ assignments, 1 ≤ a)
    (lines segfiles : List (List Byte)) :
    putRecords assignments lines segfiles =
      (copyRecords assignments.length lines).map fun r =>
        (segfiles.mapIdx fun k file => file ++ (fiber (assignments.zip r.1) (k + 1)).flatten, r.2) := by
  induction assignments generalizing lines segfiles with
  | nil =>
    rw [putRecords, List.length_nil, copyRecords]
    refine congrArg some (Prod.ext (List.ext_getElem (by simp) fun k _ _ => ?_) rfl)
    simp [fiber]
  | cons a as ih =>
    obtain ⟨ha, has⟩ := List.forall_mem_cons.1 h1
    rw [putRecords, List.length_cons, copyRecords]
    cases copyRecord lines with
    | none => rfl
    | some r =>
      rw [Option.bind_some, Option.bind_some, ih has]
      cases copyRecords as.length r.2 with
      | none => rfl
      | some q =>
        simp only [Option.map_some, Option.some.injEq, Prod.mk.injEq, and_true]
        refine List.ext_getElem? fun k => ?_
        rw [List.getElem?_mapIdx, List.getElem?_mapIdx, List.getElem?_modify]
        cases segfiles[k]? with
        | none => rfl
        | some file =>
          simp only [Option.map_eq_map, Option.map_some, Option.some.injEq, List.zip_cons_cons, fiber]
          by_cases hk : a = k + 1
          · rw [if_pos (by omega), List.filter_cons_of_pos (by simp [hk]), List.map_cons, List.flatten_cons,
              List.append_assoc]
          · rw [if_neg (by omega), List.filter_cons_of_neg (by simpa using hk)]

theorem assignments_pos (j : SplitJob) : ∀ a ∈ j.assignments, 1 ≤ a :=
  fun _ ha => (mem_assignPages (Nat.zero_le _) ha).1

theorem length_assignments (j : SplitJob) : j.assignments.length = j.pagenumber :=
  length_assignPages ..

/-- A segment of the records that were copied. -/
def segmentOf (j : SplitJob) (rs rest : List (List Byte)) (k : ℕ) : Segment :=
  ⟨j.assignments.count (k + 1), (fiber (j.assignments.zip rs) (k + 1)).flatten ++ rest.flatten⟩

/-- The segments, if the lines of the file are copied so. -/
theorem splitJob_eq {j : SplitJob} {rs rest : List (List Byte)} (hsplit : splitJob j ≠ .notSplit)
    (h0 : ∀ l ∈ readAll j.file, 0 ∉ l)
    (hhead : (readAll j.file).head? ≠ some (ascii "%%BeginDefaults"))
    (hcopy : copyRecords j.pagenumber (readAll j.file) = some (rs, rest)) (hrest : rest <:+ readAll j.file) :
    splitJob j = .split ((List.range j.created).map (segmentOf j rs rest)) := by
  have hdefaults : splitDefaults (readAll j.file) = some ([], readAll j.file) := by
    refine if_neg fun h => hhead ?_
    cases hlines : readAll j.file with
    | nil => rw [hlines] at h; cases h
    | cons l lines =>
      rw [hlines] at h h0
      rw [List.head?_cons, Option.map_some, cstr_eq_self.2 (h0 l List.mem_cons_self)] at h
      exact h
  have hfiles : j.files = some ((List.range j.created).map fun k =>
      (fiber (j.assignments.zip rs) (k + 1)).flatten ++ rest.flatten) := by
    rw [SplitJob.files]
    change (splitDefaults (readAll j.file)).bind _ = _
    rw [hdefaults, Option.bind_some, putRecords_eq (assignments_pos j), length_assignments, hcopy,
      Option.map_some, Option.map_some, flatMap_cstr fun l hl => h0 l (hrest.subset hl)]
    refine congrArg some (List.ext_getElem (by simp) fun k _ _ => ?_)
    simp
  unfold splitJob at hsplit ⊢
  split_ifs at hsplit ⊢ with hno
  · exact absurd rfl hsplit
  · rw [hfiles]
    refine congrArg SplitOutcome.split (List.ext_getElem (by simp) fun k _ _ => ?_)
    simp [segmentOf]

/-! ## The lines of the file -/

/-- A line of the "-pages" file. -/
structure FileLine (c : List Byte) : Prop where
  noNul : 0 ∉ c
  noEnd : newline ∉ c

/-- A job with its "-pages" file: the defaults section, if there is one, the records of the pages and the
trailer record. -/
structure Paged (j : SplitJob) (defaults : List (List Byte)) (recs : List PageRec) (text : List Byte) :
    Prop where
  file : j.file = defaults.flatMap lineBytes ++ (recs.flatMap PageRec.bytes ++ trailerRecord text)
  count : j.pagenumber = recs.length
  page : ∀ r ∈ recs, lmatch r.line "%%Page:" = true ∧ FileLine r.line ∧ ∀ c ∈ r.comments, FileLine c
  defaultsHead : ∀ c ∈ defaults.head?, c = ascii "%%BeginDefaults"
  defaults : ∀ c ∈ defaults, FileLine c
  pagefactor : 0 < j.pagefactor
  segments : 2 ≤ j.segments ∧ j.segments ≤ maxSegments

theorem wholeLines_bytes (r : PageRec) : WholeLines r.bytes := .inr (by simp [PageRec.bytes])

theorem ne_nil_bytes (r : PageRec) : r.bytes ≠ [] := by simp [PageRec.bytes]

theorem trailerRecord_eq (text : List Byte) :
    trailerRecord text = lineBytes (ascii "%%Trailer") ++ lineBytes (offsetLine text.length) := by
  simp [trailerRecord, lineBytes, offsetLine]

theorem readAll_trailerRecord (text : List Byte) : readAll (trailerRecord text) =
    lineBytes (ascii "%%Trailer") :: readAll (lineBytes (offsetLine text.length)) := by
  rw [trailerRecord_eq, readAll_append (wholeLines_lineBytes _)]
  rfl

theorem mem_of_mem_readAll {file l : List Byte} (hl : l ∈ readAll file) {c : Byte} (hc : c ∈ l) : c ∈ file := by
  rw [← flatten_readAll file]
  exact List.mem_flatten_of_mem hl hc

theorem percent_of_startsRecord {l : List Byte} (h : startsRecord l = true) : (37 : Byte) ∈ l := by
  unfold startsRecord lmatch at h
  rw [Bool.or_eq_true, List.isPrefixOf_iff_prefix, List.isPrefixOf_iff_prefix] at h
  exact h.elim (fun h => h.subset (by decide)) (fun h => h.subset (by decide))

/-- The trailer record has no second line that ends a record. -/
theorem breaks_trailerRecord (text : List Byte) : breaks (readAll (trailerRecord text)) = 0 := by
  rw [readAll_trailerRecord, breaks, List.tail_cons, List.countP_eq_zero]
  intro l hl hstart
  have hmem := mem_of_mem_readAll hl (percent_of_startsRecord hstart)
  rw [lineBytes, List.mem_append, offsetLine, List.mem_append] at hmem
  rcases hmem with (hmem | hmem) | hmem
  · exact absurd hmem (by decide)
  · exact absurd (isdigit_decimal hmem) (by decide)
  · exact absurd hmem (by decide)

/-- A record begins with its "%%Page:" line. -/
theorem startsRecord_head {r : PageRec} (hline : lmatch r.line "%%Page:" = true) :
    ∃ l t, readAll r.bytes = l :: t ∧ startsRecord l = true := by
  refine ⟨_, _, readAll_cons (ne_nil_bytes r), ?_⟩
  have hfront : ascii "%%Page:" <+: r.bytes := by
    refine (List.isPrefixOf_iff_prefix.1 hline).trans ?_
    rw [PageRec.bytes, PageRec.head, lineBytes]
    simp only [List.append_assoc]
    exact List.prefix_append _ _
  have hgot := prefix_fgets (n := 511) hfront (by decide) (by decide)
  unfold startsRecord lmatch
  rw [List.isPrefixOf_iff_prefix.2 hgot, Bool.true_or]

/-- The lines of the records and the trailer. -/
def recordLines (recs : List PageRec) (text : List Byte) : List (List Byte) :=
  recs.flatMap (fun r => readAll r.bytes) ++ readAll (trailerRecord text)

theorem head_recordLines {recs : List PageRec} (h : ∀ r ∈ recs, lmatch r.line "%%Page:" = true)
    (text : List Byte) : ∃ l t, recordLines recs text = l :: t ∧ startsRecord l = true := by
  cases recs with
  | nil => exact ⟨_, _, readAll_trailerRecord text, rfl⟩
  | cons r recs =>
    obtain ⟨l, t, ht, hl⟩ := startsRecord_head (h r List.mem_cons_self)
    refine ⟨l, t ++ recordLines recs text, ?_, hl⟩
    rw [recordLines, List.flatMap_cons, ht]
    simp [recordLines]

theorem recordLines_cons (r : PageRec) (recs : List PageRec) (text : List Byte) :
    recordLines (r :: recs) text = readAll r.bytes ++ recordLines recs text := by
  simp [recordLines]

theorem breaks_append {x l : List Byte} {xs ls : List (List Byte)} (h : startsRecord l = true) :
    breaks (x :: xs ++ l :: ls) = breaks (x :: xs) + (breaks (l :: ls) + 1) := by
  simp [breaks, List.countP_append, List.countP_cons_of_pos h]

/-- Every page and the trailer end a record; other lines may too. -/
theorem breaks_recordLines {recs : List PageRec} (h : ∀ r ∈ recs, lmatch r.line "%%Page:" = true)
    (text : List Byte) :
    breaks (recordLines recs text) = (recs.map fun r => breaks (readAll r.bytes)).sum + recs.length := by
  induction recs with
  | nil => exact breaks_trailerRecord text
  | cons r recs ih =>
    obtain ⟨hr, hrecs⟩ := List.forall_mem_cons.1 h
    obtain ⟨l, t, ht, -⟩ := startsRecord_head hr
    obtain ⟨m, u, hu, hm⟩ := head_recordLines hrecs text
    have ih := ih hrecs
    rw [hu] at ih
    rw [recordLines_cons, ht, hu, breaks_append hm, List.map_cons, List.sum_cons, List.length_cons, ht, ih]
    omega

/-- If no other line ends a record, the records are copied. -/
theorem copyRecords_recordLines {recs : List PageRec} (h : ∀ r ∈ recs, lmatch r.line "%%Page:" = true)
    (h0 : ∀ r ∈ recs, 0 ∉ r.bytes) (hno : ∀ r ∈ recs, breaks (readAll r.bytes) = 0) (text : List Byte) :
    copyRecords recs.length (recordLines recs text) =
      some (recs.map PageRec.bytes, readAll (trailerRecord text)) := by
  induction recs with
  | nil => rfl
  | cons r recs ih =>
    obtain ⟨hr, hrecs⟩ := List.forall_mem_cons.1 h
    obtain ⟨hr0, hrecs0⟩ := List.forall_mem_cons.1 h0
    obtain ⟨hrno, hrecsno⟩ := List.forall_mem_cons.1 hno
    obtain ⟨l, t, ht, -⟩ := startsRecord_head hr
    obtain ⟨m, u, hu, hm⟩ := head_recordLines hrecs text
    have ih := ih hrecs hrecs0 hrecsno
    have htail : ∀ x ∈ (readAll r.bytes).tail, startsRecord x = false := fun x hx => by
      simpa using List.countP_eq_zero.1 hrno x hx
    have hne : readAll r.bytes ≠ [] := by
      rw [ht]
      exact List.cons_ne_nil _ _
    rw [hu] at ih
    rw [recordLines_cons, hu, List.length_cons, copyRecords, copyRecord_block hne htail hm, Option.bind_some,
      ih, flatMap_cstr fun l hl hzero => hr0 (mem_of_mem_readAll hl hzero), flatten_readAll]
    rfl

/-! ## The segments -/

/-- A split that is a partition: each page goes to one of the segments, in order, all segments but the last
have a multiple of pagefactor pages, and the files have the records of just their pages between the defaults
section and the trailer record. -/
def SplitsWell (j : SplitJob) (defaults : List (List Byte)) (recs : List PageRec) (text : List Byte) : Prop :=
  ∃ parts : List (List PageRec), parts.flatten = recs ∧ parts.length ≤ j.segments ∧
    (∀ p ∈ parts.dropLast, j.pagefactor ∣ p.length) ∧
    splitJob j = .split (parts.map fun p =>
      ⟨p.length, defaults.flatMap lineBytes ++ (p.flatMap PageRec.bytes ++ trailerRecord text)⟩)

section Segments

variable {j : SplitJob}

theorem le_pagesPerFragment {pagenumber segments pagefactor : ℕ} (h : 0 < pagefactor) :
    pagenumber / segments ≤ pagesPerFragment pagenumber segments pagefactor := by
  unfold pagesPerFragment
  generalize pagenumber / segments = q
  have hmod := Nat.div_add_mod (q + pagefactor - 1) pagefactor
  have hlt := Nat.mod_lt (q + pagefactor - 1) h
  rw [Nat.mul_comm] at hmod
  omega

theorem created_of_split (h : splitJob j ≠ .notSplit) : 1 < j.created ∧ j.segments ≠ 0 := by
  unfold splitJob at h
  split_ifs at h with hno
  · exact absurd rfl h
  · simp only [not_or] at hno
    exact ⟨by omega, hno.2.2.2.1⟩

theorem created_mem (h : 1 < j.created) : j.created ∈ j.assignments := by
  unfold SplitJob.created at h ⊢
  cases hlast : j.assignments.getLast? with
  | none => rw [hlast] at h; exact absurd h (by decide)
  | some a => exact List.mem_of_getLast? hlast

theorem le_created {a : ℕ} (h : a ∈ j.assignments) : a ≤ j.created := getLast_assignPages (Nat.zero_le _) h

/-- The pages up to the beginning of the last segment. -/
theorem created_le (h : 1 < j.created) :
    (j.created - 1) * (pagesPerFragment j.pagenumber j.segments j.pagefactor + 2) ≤ j.pagenumber := by
  simpa using (mem_assignPages (Nat.zero_le _) (created_mem h)).2

/-- There are no more segments than were asked for. -/
theorem created_le_segments (h : 1 < j.created) (hf : 0 < j.pagefactor) (hs : 0 < j.segments) :
    j.created ≤ j.segments := by
  by_contra hlt
  have hle := created_le h
  have hq := @le_pagesPerFragment j.pagenumber j.segments _ hf
  have hmul : j.segments * (j.pagenumber / j.segments + 2) ≤
      (j.created - 1) * (pagesPerFragment j.pagenumber j.segments j.pagefactor + 2) :=
    Nat.mul_le_mul (by omega) (by omega)
  have hdiv := Nat.lt_mul_div_succ j.pagenumber hs
  have hadd : j.segments * (j.pagenumber / j.segments + 2) =
      j.segments * (j.pagenumber / j.segments + 1) + j.segments := by ring
  omega

/-- The first segment has one page more than was computed. -/
theorem count_first (h : 1 < j.created) :
    j.assignments.count 1 = pagesPerFragment j.pagenumber j.segments j.pagefactor + 1 := by
  have hle := created_le h
  have hcount := (@count_assignPages (pagesPerFragment j.pagenumber j.segments j.pagefactor) j.pagenumber 0 1
    (Nat.zero_le _)).1
  have hone : pagesPerFragment j.pagenumber j.segments j.pagefactor + 2 ≤ j.pagenumber :=
    (Nat.le_mul_of_pos_left _ (by omega)).trans hle
  rw [SplitJob.assignments, hcount]
  omega

theorem two_mem (h : 1 < j.created) : 2 ∈ j.assignments := by
  have hle := created_le h
  have hone : pagesPerFragment j.pagenumber j.segments j.pagefactor + 2 ≤ j.pagenumber :=
    (Nat.le_mul_of_pos_left _ (by omega)).trans hle
  exact (count_assignPages (Nat.zero_le _)).2 (by omega)

/-- The segments, one after the other. -/
theorem flatMap_segments {α : Type} {xs : List α} (hlen : xs.length = j.pagenumber) :
    (List.range j.created).flatMap (fun k => fiber (j.assignments.zip xs) (k + 1)) = xs := by
  have hlen' : xs.length = j.assignments.length := hlen.trans (length_assignments j).symm
  have hfst : (j.assignments.zip xs).map Prod.fst = j.assignments := List.map_fst_zip hlen'.ge
  have hkey : ∀ x ∈ j.assignments.zip xs, x.1 ∈ j.assignments := fun x hx => by
    rw [← hfst]
    exact List.mem_map_of_mem hx
  have hall := @flatMap_fiber α (j.assignments.zip xs) 1 j.created
    (by rw [hfst]; exact pairwise_assignPages (Nat.zero_le _)) (fun x hx => assignments_pos j _ (hkey x hx))
    (fun x hx => by have := le_created (hkey x hx); omega)
  rw [List.map_snd_zip hlen'.le] at hall
  simpa only [Nat.add_comm] using hall

theorem length_fiber {α : Type} {xs : List α} (hlen : xs.length = j.pagenumber) (k : ℕ) :
    (fiber (j.assignments.zip xs) k).length = j.assignments.count k := by
  have hfst : (j.assignments.zip xs).map Prod.fst = j.assignments :=
    List.map_fst_zip (hlen.trans (length_assignments j).symm).ge
  rw [fiber, List.length_map]
  conv_rhs => rw [← hfst]
  rw [List.count, List.countP_map, List.countP_eq_length_filter]
  rfl

/-! ## The condition -/

variable {defaults : List (List Byte)} {recs : List PageRec} {text : List Byte}

theorem Paged.lines (h : Paged j defaults recs text) :
    readAll j.file = defaults.flatMap (fun c => readAll (lineBytes c)) ++ recordLines recs text := by
  rw [h.file, readAll_flatMap fun c _ => wholeLines_lineBytes c, recordLines,
    readAll_flatMap fun r _ => wholeLines_bytes r]

theorem Paged.pages (h : Paged j defaults recs text) : ∀ r ∈ recs, lmatch r.line "%%Page:" = true :=
  fun r hr => (h.page r hr).1

theorem Paged.noNul_bytes (h : Paged j defaults recs text) : ∀ r ∈ recs, 0 ∉ r.bytes := by
  intro r hr
  obtain ⟨-, hline, hcomments⟩ := h.page r hr
  have hoffset := zero_notMem_offsetLine r.offset
  have hcs : 0 ∉ r.comments.flatMap lineBytes := by
    intro hmem
    obtain ⟨c, hc, hmem⟩ := List.mem_flatMap.1 hmem
    rw [lineBytes, List.mem_append] at hmem
    exact hmem.elim (hcomments c hc).noNul (by decide)
  simp only [PageRec.bytes, PageRec.head, lineBytes, List.mem_append, List.mem_singleton, not_or]
  exact ⟨⟨⟨hline.noNul, by decide⟩, hoffset, by decide⟩, hcs, by decide⟩

theorem Paged.noNul (h : Paged j defaults recs text) : 0 ∉ j.file := by
  have hoffset := zero_notMem_offsetLine text.length
  rw [h.file, List.mem_append, List.mem_append, trailerRecord_eq]
  rintro (hmem | hmem | hmem)
  · obtain ⟨c, hc, hmem⟩ := List.mem_flatMap.1 hmem
    rw [lineBytes, List.mem_append] at hmem
    exact hmem.elim (h.defaults c hc).noNul (by decide)
  · obtain ⟨r, hr, hmem⟩ := List.mem_flatMap.1 hmem
    exact h.noNul_bytes r hr hmem
  · simp only [lineBytes, List.mem_append] at hmem
    rcases hmem with (hmem | hmem) | hmem | hmem
    · exact absurd hmem (by decide)
    · exact absurd hmem (by decide)
    · exact hoffset hmem
    · exact absurd hmem (by decide)

/-- The first line has its linefeed. -/
theorem Paged.head_ne (h : Paged j defaults recs text) :
    (readAll j.file).head? ≠ some (ascii "%%BeginDefaults") := by
  rw [h.lines]
  cases hd : defaults with
  | nil =>
    obtain ⟨l, t, ht, hl⟩ := head_recordLines h.pages text
    rw [List.flatMap_nil, List.nil_append, ht, List.head?_cons]
    rintro ⟨⟩
    exact absurd hl (by decide)
  | cons c cs =>
    have hc := h.defaultsHead c (by rw [hd]; rfl)
    have hread : readAll (lineBytes (ascii "%%BeginDefaults")) = [lineBytes (ascii "%%BeginDefaults")] := rfl
    rw [hc, List.flatMap_cons, hread, List.singleton_append, List.cons_append, List.head?_cons]
    exact fun e => absurd (Option.some.inj e) (by decide)

/-- There are at least as many ends of records as pages. -/
theorem Paged.le_breaks (h : Paged j defaults recs text) : j.pagenumber ≤ breaks (readAll j.file) := by
  obtain ⟨l, t, ht, hl⟩ := head_recordLines h.pages text
  have hbreaks := breaks_recordLines h.pages text
  rw [h.lines, h.count]
  cases hd : defaults.flatMap fun c => readAll (lineBytes c) with
  | nil =>
    rw [List.nil_append, hbreaks]
    exact Nat.le_add_left _ _
  | cons x xs =>
    rw [ht] at hbreaks ⊢
    rw [breaks_append hl, hbreaks]
    omega

/-- What the split gives. -/
theorem Paged.split (h : Paged j defaults recs text) (hsplit : splitJob j ≠ .notSplit) :
    ∃ rs rest, copyRecords j.pagenumber (readAll j.file) = some (rs, rest) ∧
      Copied j.pagenumber (readAll j.file) rs rest ∧
      splitJob j = .split ((List.range j.created).map (segmentOf j rs rest)) := by
  have h0 : ∀ l ∈ readAll j.file, 0 ∉ l := fun l hl hzero => h.noNul (mem_of_mem_readAll hl hzero)
  obtain ⟨rs, rest, hcopy, hcopied⟩ := copyRecords_spec h0 h.le_breaks
  exact ⟨rs, rest, hcopy, hcopied, splitJob_eq hsplit h0 h.head_ne hcopy hcopied.suffix⟩

/-- Enough for a good split. -/
theorem Paged.splitsWell (h : Paged j defaults recs text) (hsplit : splitJob j ≠ .notSplit)
    (hfactor : j.pagefactor = 1) (hdefaults : defaults = [])
    (hno : ∀ r ∈ recs, breaks (readAll r.bytes) = 0) : SplitsWell j defaults recs text := by
  obtain ⟨hcreated, hsegments⟩ := created_of_split hsplit
  obtain ⟨rs, rest, hcopy, -, heq⟩ := h.split hsplit
  have hlines := h.lines
  subst hdefaults
  rw [List.flatMap_nil, List.nil_append] at hlines
  rw [hlines, h.count, copyRecords_recordLines h.pages h.noNul_bytes hno] at hcopy
  obtain ⟨rfl, rfl⟩ := Prod.mk.inj (Option.some.inj hcopy)
  refine ⟨(List.range j.created).map fun k => fiber (j.assignments.zip recs) (k + 1), ?_, ?_, ?_, ?_⟩
  · rw [← List.flatMap_def]
    exact flatMap_segments h.count.symm
  · rw [List.length_map, List.length_range]
    exact created_le_segments hcreated (by omega) (Nat.pos_of_ne_zero hsegments)
  · intro p _
    rw [hfactor]
    exact one_dvd _
  · rw [heq, List.map_map]
    refine congrArg SplitOutcome.split (List.map_congr_left fun k _ => ?_)
    have hfiber : fiber (j.assignments.zip (recs.map PageRec.bytes)) (k + 1) =
        (fiber (j.assignments.zip recs) (k + 1)).map PageRec.bytes := by
      rw [fiber, fiber, List.zip_map_right, List.filter_map, List.map_map, List.map_map]
      rfl
    rw [Function.comp_apply, length_fiber h.count.symm, segmentOf, hfiber, flatten_readAll]
    rfl

/-- The lists of segments, compared. -/
theorem segments_eq {parts : List (List PageRec)} {rs rest : List (List Byte)} {base tail : List Byte}
    (h : SplitOutcome.split ((List.range j.created).map (segmentOf j rs rest)) =
      .split (parts.map fun p => ⟨p.length, base ++ (p.flatMap PageRec.bytes ++ tail)⟩)) :
    parts.length = j.created ∧ ∀ k (hk : k < parts.length),
      parts[k].length = j.assignments.count (k + 1) ∧
        base ++ (parts[k].flatMap PageRec.bytes ++ tail) =
          (fiber (j.assignments.zip rs) (k + 1)).flatten ++ rest.flatten := by
  have hmap := SplitOutcome.split.inj h
  have hlen := congrArg List.length hmap
  rw [List.length_map, List.length_map, List.length_range] at hlen
  refine ⟨hlen.symm, fun k hk => ?_⟩
  have hk' := congrArg (fun l => l[k]?) hmap
  simp only [List.getElem?_map, List.getElem?_range (hlen ▸ hk), List.getElem?_eq_getElem hk,
    Option.map_some, Option.some.injEq, segmentOf, Segment.mk.injEq] at hk'
  exact ⟨hk'.1.symm, hk'.2.symm⟩

/-- The first segment shows that pagefactor is 1. -/
theorem pagefactor_of_splitsWell {parts : List (List PageRec)} (hcreated : 1 < j.created)
    (hlen : parts.length = j.created) (hfirst : ∀ h : 0 < parts.length, parts[0].length = j.assignments.count 1)
    (hdvd : ∀ p ∈ parts.dropLast, j.pagefactor ∣ p.length) : j.pagefactor = 1 := by
  have hpos : 0 < parts.length := by omega
  have hmem : parts[0] ∈ parts.dropLast := by
    have hdrop : 0 < parts.dropLast.length := by
      rw [List.length_dropLast]
      omega
    have := List.getElem_mem hdrop
    rwa [List.getElem_dropLast] at this
  have hcount := hdvd _ hmem
  rw [hfirst hpos, count_first hcreated] at hcount
  exact Nat.dvd_one.1 ((Nat.dvd_add_right ⟨_, Nat.mul_comm _ _⟩).1 hcount)

/-- The second segment does not begin with the defaults section. -/
theorem Paged.defaults_of_second (h : Paged j defaults recs text) {rs rest : List (List Byte)}
    (hcopied : Copied j.pagenumber (readAll j.file) rs rest) (hcreated : 1 < j.created) {more : List Byte}
    (hfile : defaults.flatMap lineBytes ++ more = (fiber (j.assignments.zip rs) 2).flatten ++ rest.flatten) :
    defaults = [] := by
  by_contra hne
  obtain ⟨c, cs, rfl⟩ := List.exists_cons_of_ne_nil hne
  have hstart : startsRecord ((c :: cs).flatMap lineBytes ++ more) = false := by
    rw [h.defaultsHead c rfl]
    rfl
  -- The second segment begins with a line that has ended a record.
  have hmem : ∀ r ∈ fiber (j.assignments.zip rs) 2, r ∈ rs.tail := by
    intro r hr
    obtain ⟨⟨a, r'⟩, hx, rfl⟩ := List.mem_map.1 hr
    obtain ⟨hx, ha⟩ := List.mem_filter.1 hx
    have ha : a = 2 := by simpa using ha
    obtain ⟨n, hn⟩ := Nat.exists_eq_succ_of_ne_zero (n := j.pagenumber) (by
      have := created_le hcreated
      have := Nat.le_mul_of_pos_left (pagesPerFragment j.pagenumber j.segments j.pagefactor + 2)
        (by omega : 0 < j.created - 1)
      omega)
    cases rs with
    | nil => rw [List.zip_nil_right] at hx; cases hx
    | cons r1 rs =>
      rw [SplitJob.assignments, hn, assignPages, if_neg (Nat.not_lt_zero _), List.zip_cons_cons] at hx
      rcases List.mem_cons.1 hx with heq | hx
      · exact absurd (ha.symm.trans (congrArg Prod.fst heq)) (by simp)
      · exact (List.of_mem_zip hx).2
  have hcount := length_fiber hcopied.length 2
  have hpos := List.count_pos_iff.2 (two_mem hcreated)
  obtain ⟨r, l, hrl⟩ := List.exists_cons_of_length_pos (hcount ▸ hpos)
  rw [hfile, hrl, List.flatten_cons, List.append_assoc,
    startsRecord_append (hcopied.tail r (hmem r (hrl ▸ List.mem_cons_self)))] at hstart
  cases hstart

/-- What is left of some lines is told by its size. -/
theorem eq_of_suffixes {lines a b : List (List Byte)} (ha : a <:+ lines) (hb : b <:+ lines)
    (hne : ∀ l ∈ lines, l ≠ []) (hlen : a.flatten.length = b.flatten.length) : a = b := by
  have hsuffix : ∀ {a b : List (List Byte)}, b <:+ lines → a <:+ b →
      a.flatten.length = b.flatten.length → a = b := by
    rintro a b hb ⟨x, rfl⟩ hlen
    rw [List.flatten_append, List.length_append] at hlen
    cases x with
    | nil => rfl
    | cons l x =>
      have hl := hne l (hb.subset (List.mem_append_left _ List.mem_cons_self))
      have hpos := List.length_pos_iff.2 hl
      rw [List.flatten_cons, List.length_append] at hlen
      omega
  rcases Nat.le_total a.length b.length with hle | hle
  · exact hsuffix hb (List.suffix_of_suffix_length_le ha hb hle) hlen
  · exact (hsuffix ha (List.suffix_of_suffix_length_le hb ha hle) hlen.symm).symm

theorem sizes_eq {parts : List (List PageRec)} {rs rest : List (List Byte)} {tail : List Byte}
    (hlen : parts.length = j.created)
    (hfiles : ∀ k (hk : k < parts.length), parts[k].flatMap PageRec.bytes ++ tail =
      (fiber (j.assignments.zip rs) (k + 1)).flatten ++ rest.flatten) :
    parts.map (fun p => (p.flatMap PageRec.bytes).length + tail.length) =
      (List.range j.created).map fun k =>
        (fiber (j.assignments.zip rs) (k + 1)).flatten.length + rest.flatten.length := by
  refine List.ext_getElem (by simp [hlen]) fun k hk _ => ?_
  rw [List.length_map] at hk
  have hsize := congrArg List.length (hfiles k hk)
  rw [List.length_append, List.length_append] at hsize
  simpa using hsize

theorem sum_sizes (parts : List (List PageRec)) (n : ℕ) :
    (parts.map fun p => (p.flatMap PageRec.bytes).length + n).sum =
      (parts.flatten.flatMap PageRec.bytes).length + parts.length * n := by
  induction parts with
  | nil => simp
  | cons p parts ih =>
    rw [List.map_cons, List.sum_cons, ih, List.flatten_cons, List.flatMap_append, List.length_append,
      List.length_cons, Nat.add_mul]
    omega

theorem sum_sizes' (F : ℕ → List (List Byte)) (ks : List ℕ) (n : ℕ) :
    (ks.map fun k => (F k).flatten.length + n).sum = (ks.flatMap F).flatten.length + ks.length * n := by
  induction ks with
  | nil => simp
  | cons k ks ih =>
    rw [List.map_cons, List.sum_cons, ih, List.flatMap_cons, List.flatten_append, List.length_append,
      List.length_cons, Nat.add_mul]
    omega

/-- The sizes of the files show that the trailer record is all that is left of the lines. -/
theorem Paged.noBreaks_of_sizes (h : Paged j defaults recs text) {rs rest : List (List Byte)}
    (hcopied : Copied j.pagenumber (readAll j.file) rs rest) (hcreated : 1 < j.created)
    (hdefaults : defaults = []) {parts : List (List PageRec)} (hparts : parts.flatten = recs)
    (hlen : parts.length = j.created)
    (hfiles : ∀ k (hk : k < parts.length), parts[k].flatMap PageRec.bytes ++ trailerRecord text =
      (fiber (j.assignments.zip rs) (k + 1)).flatten ++ rest.flatten) :
    ∀ r ∈ recs, breaks (readAll r.bytes) = 0 := by
  subst hdefaults
  have hlines := h.lines
  have hfile := h.file
  rw [List.flatMap_nil, List.nil_append] at hlines hfile
  have hrest : rest.flatten.length = (trailerRecord text).length := by
    have htext := congrArg List.length hcopied.text
    rw [flatten_readAll, hfile, List.length_append, List.length_append] at htext
    have hsizes := congrArg List.sum (sizes_eq hlen hfiles)
    rw [sum_sizes, sum_sizes', hparts, flatMap_segments hcopied.length, hlen, List.length_range] at hsizes
    obtain ⟨d, hd⟩ := Nat.exists_eq_add_of_lt hcreated
    rw [hd] at hsizes
    have hcancel : (d + 1) * rest.flatten.length = (d + 1) * (trailerRecord text).length := by
      ring_nf at hsizes ⊢
      omega
    exact Nat.eq_of_mul_eq_mul_left (Nat.succ_pos d) hcancel
  have hrest' : rest = readAll (trailerRecord text) := by
    refine eq_of_suffixes hcopied.suffix ?_ (fun l hl => ne_nil_of_mem_readAll hl) ?_
    · rw [hlines]
      exact List.suffix_append _ _
    · rw [flatten_readAll]
      exact hrest
  have hbreaks := hcopied.breaks
  rw [hrest', breaks_trailerRecord, hlines, breaks_recordLines h.pages, h.count] at hbreaks
  intro r hr
  have hle : breaks (readAll r.bytes) ≤ (recs.map fun r => breaks (readAll r.bytes)).sum :=
    List.le_sum_of_mem (List.mem_map_of_mem hr)
  omega

/-- `make_pagetable()` accepts the file of such a segment: it finds the records and stops at the trailer. -/
theorem makePagetable_segment {p : List PageRec} (hrec : Records p) (hfit : ∀ r ∈ p, r.Fits)
    (base tail : List Byte) (descend : Bool) (select : ℕ → Bool) :
    makePagetable (base ++ (p.flatMap PageRec.bytes ++ tail)) base.length p.length descend select =
      .ok (chosen select (fileOrder descend p.length) (located base.length p),
        base.length + (p.flatMap PageRec.bytes).length) := by
  have horder := length_fileOrder descend p.length
  have hloop := pagetableLoop_fits hrec hfit select ((fileOrder descend p.length).countP select)
    (fileOrder descend p.length) [] horder (by simp)
    (List.drop_left : (base ++ (p.flatMap PageRec.bytes ++ tail)).drop base.length = _)
  have hchosen := length_chosen select (fileOrder descend p.length) (l := located base.length p)
    (by rw [horder, length_located])
  rw [List.nil_append] at hloop
  rw [makePagetable]
  split_ifs with hzero
  · obtain rfl := List.length_eq_zero_iff.1 hzero
    simp [chosen, located]
  · dsimp only
    rw [hloop]
    show (if _ then _ else _) = _
    rw [if_neg (not_not.2 hchosen)]

end Segments

/-! ## Four pages -/

/-- A job of four pages, to be split in two. -/
def fourPages (pagefactor : ℕ) : List PageRec × SplitJob :=
  let recs := (List.range 4).map fun n => ⟨ascii "%%Page: " ++ decimal (n + 1) ++ ascii " 1", 80 * n, []⟩
  (recs,
    { pagenumber := 4, pagefactor := pagefactor, special := false, segments := 2
      file := recs.flatMap PageRec.bytes ++ trailerRecord [] })

theorem fourPages_paged {pagefactor : ℕ} (h : 0 < pagefactor) :
    Paged (fourPages pagefactor).2 [] (fourPages pagefactor).1 [] where
  file := rfl
  count := rfl
  page := by
    intro r hr
    simp only [fourPages, List.mem_map, List.mem_range] at hr
    obtain ⟨n, hn, rfl⟩ := hr
    interval_cases n <;> exact ⟨by decide, ⟨by decide, by decide⟩, nofun⟩
  defaultsHead := nofun
  defaults := nofun
  pagefactor := h
  segments := ⟨le_rfl, (by decide : 2 ≤ maxSegments)⟩

theorem splitJob_ne_notSplit {j : SplitJob} (h : ¬(j.pagenumber = 0 ∨ j.special = true ∨
    j.pagenumber ≤ j.pagefactor ∨ j.segments = 0 ∨ j.created ≤ 1)) : splitJob j ≠ .notSplit := by
  rw [splitJob, if_neg h]
  cases j.files <;> simp

end Ppr
