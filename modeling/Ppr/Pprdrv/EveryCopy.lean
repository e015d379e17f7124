import Ppr.Pprdrv.Places

/-!
# Every requested copy of every selected page

How often a page is sent, and in which order.  The property fails when the whole document is sent
again with pages in it, since `copies_pages_countdown` is not set again, and for signatures that
`signature()` does not fold.
-/

namespace Ppr.Pprdrv

/-- `copy_a_page()` for this page. -/
def Sent.isPage (p : ℤ) : Sent → Bool
  | .page q _ => q == p
  | _ => false

/-- How often a page is sent. -/
def emissions (p : ℤ) (out : List Sent) : ℕ := out.countP (Sent.isPage p)

/-! ## Counting -/

/-- The places of a number of sheets. -/
def Job.places (job : Job) (count : ℕ) : List (ℕ × ℕ) :=
  List.range count ×ˢ List.range job.pagefactor.toNat

theorem Job.mem_places {job : Job} {count : ℕ} {p : ℕ × ℕ} :
    p ∈ job.places count ↔ p.1 < count ∧ p.2 < job.pagefactor.toNat := by
  obtain ⟨k, m⟩ := p
  simp [Job.places, List.mem_product]

/-- How many places hold a page number. -/
def Job.held (job : Job) (count : ℕ) (n : ℤ) : ℕ :=
  (job.places count).countP fun p => job.place p.1 p.2 == some n

theorem Job.held_eq_one_iff {job : Job} {count : ℕ} {n : ℤ} :
    job.held count n = 1 ↔ OnOnePlace job.place count job.pagefactor.toNat n := by
  have nodup : (job.places count).Nodup := List.Nodup.product List.nodup_range List.nodup_range
  rw [Job.held, nodup.countP_eq_one_iff]
  simp only [Job.mem_places, beq_iff_eq]
  rfl

theorem Job.emissions_sentFor {job : Job} {i : ℕ} {p : ℤ} (hi : job.selected[i]? = some p)
    (fill : Bool) (n : Option ℤ) :
    emissions p (job.sentFor fill n) = if n == some (i : ℤ) then 1 else 0 := by
  cases n with
  | none => rfl
  | some n =>
    have dummy : emissions p (if fill then [.dummy (n + 1)] else []) = 0 := by
      cases fill <;> rfl
    have is : job.pageOf n = some p ↔ n = i := by
      unfold Job.pageOf
      constructor
      · intro h
        split_ifs at h with h0
        obtain ⟨hl, -⟩ := List.getElem?_eq_some_iff.1 hi
        have := (List.getElem?_inj hl job.selected_nodup).1 (hi.trans h.symm)
        omega
      · rintro rfl
        simpa using hi
    simp only [Job.sentFor]
    cases hq : job.pageOf n with
    | none =>
      have : n ≠ i := fun h => by rw [is.2 h] at hq; cases hq
      simp [dummy, this]
    | some q =>
      rw [hq, Option.some.injEq] at is
      by_cases h : q = p
      · simp [emissions, Sent.isPage, h, is.1 h]
      · have : n ≠ i := fun hn => h (is.2 hn)
        simp [emissions, Sent.isPage, h, this]

theorem Job.emissions_sentSheet {job : Job} {i : ℕ} {p : ℤ} (hi : job.selected[i]? = some p)
    (fill : Bool) (k : ℕ) :
    emissions p (job.sentSheet fill k) =
      (List.range job.pagefactor.toNat).countP fun m => job.place k m == some (i : ℤ) := by
  unfold Job.sentSheet
  generalize List.range job.pagefactor.toNat = l
  induction l with
  | nil => rfl
  | cons m l ih =>
    rw [List.flatMap_cons, emissions, List.countP_append, List.countP_cons, ← ih, Nat.add_comm]
    congr 1
    exact Job.emissions_sentFor hi fill _

theorem Job.sheetAt_perm (job : Job) (printer : Printer) (count : ℕ) :
    ((List.range count).map (job.sheetAt printer count)).Perm (List.range count) := by
  unfold Job.sheetAt
  split_ifs
  · have : (List.range count).map (fun i => count - 1 - i) = (List.range count).reverse := by
      refine List.ext_getElem (by simp) fun i h1 h2 => ?_
      simp
    rw [this]
    exact List.reverse_perm _
  · simp

/-- A copy sends a page as often as places hold it. -/
theorem Job.emissions_sentCopy {job : Job} {i : ℕ} {p : ℤ} (hi : job.selected[i]? = some p)
    (printer : Printer) (count : ℕ) (more : Bool) :
    emissions p (job.sentCopy printer count more) = job.held count i := by
  have sheets : emissions p (job.sentCopy printer count more) =
      (((List.range count).map (job.sheetAt printer count)).map fun k =>
        (List.range job.pagefactor.toNat).countP fun m => job.place k m == some (i : ℤ)).sum := by
    rw [emissions, Job.sentCopy, List.countP_flatMap, List.map_map]
    congr 1
    refine List.map_congr_left fun j _ => ?_
    exact Job.emissions_sentSheet hi _ _
  rw [sheets, ((job.sheetAt_perm printer count).map _).sum_eq, Job.held]
  show _ = List.countP _ (List.flatMap _ _)
  rw [List.countP_flatMap]
  congr 1
  refine List.map_congr_left fun k _ => ?_
  rw [Function.comp_apply, List.countP_map]
  rfl

theorem Job.emissions_sentPages {job : Job} {i : ℕ} {p : ℤ} (hi : job.selected[i]? = some p)
    (printer : Printer) (count copies : ℕ) :
    emissions p (job.sentPages printer count copies) = copies * job.held count i := by
  rw [emissions, Job.sentPages, List.countP_flatMap]
  have same : ∀ c ∈ List.range copies,
      (List.countP (Sent.isPage p) ∘ fun i => job.sentCopy printer count (i + 1 != copies)) c =
        job.held count i := fun c _ => Job.emissions_sentCopy hi printer count _
  rw [List.map_congr_left same]
  simp

/-! ## The order without signatures -/

/-- The pages of a sheet that is filled in order. -/
def Job.sheetPages (job : Job) (sheet : ℕ) : List ℤ :=
  (job.selected.drop (sheet * job.pagefactor.toNat)).take job.pagefactor.toNat

/-- A sheet: its pages in ascending order, and, to fill it, dummy pages. -/
def Job.sheetInOrder (job : Job) (fill : Bool) (sheet : ℕ) : List Sent :=
  let first := sheet * job.pagefactor.toNat
  let pages := job.sheetPages sheet
  (pages.mapIdx fun j page => .page page ((first + j : ℕ) + 1)) ++
    if fill then (List.range' pages.length (job.pagefactor.toNat - pages.length)).map fun j =>
      .dummy ((first + j : ℕ) + 1)
    else []

/-- A copy: the sheets in the order of `print_direction`, filled but for the last one sent. -/
def Job.copyInOrder (job : Job) (printer : Printer) (last : Bool) : List Sent :=
  let count := (job.selected.length + job.pagefactor.toNat - 1) / job.pagefactor.toNat
  (List.range count).flatMap fun i =>
    job.sheetInOrder (!last || i + 1 != count) (job.sheetAt printer count i)

/-- All documents, each with all its copies of the pages. -/
def Job.inOrder (job : Job) (printer : Printer) : List Sent :=
  let copies := job.selectCopiesMethod.pages.toNat
  (List.range job.selectCopiesMethod.doc.toNat).flatMap fun _ =>
    .jobStart :: ((List.range copies).flatMap fun c => job.copyInOrder printer (c + 1 == copies)) ++
      [.jobEnd]

theorem Job.sentSheet_inOrder {job : Job} (off : job.sigsheets = 0) (fill : Bool) (k : ℕ) :
    job.sentSheet fill k = job.sheetInOrder fill k := by
  by_cases hp : job.pagefactor ≤ 0
  · have : job.pagefactor.toNat = 0 := by omega
    simp [Job.sentSheet, Job.sheetInOrder, Job.sheetPages, this]
  obtain ⟨P, hP⟩ : ∃ P : ℕ, job.pagefactor = P := ⟨job.pagefactor.toNat, by omega⟩
  have place : ∀ m, job.place k m = some ((k * P + m : ℕ) : ℤ) := by
    intro m
    rw [Job.place, job.pagenumber_inOrder off, hP]
    norm_cast
  simp only [Job.sentSheet, Job.sheetInOrder, Job.sheetPages, hP, Int.toNat_natCast, place]
  set L := (job.selected.drop (k * P)).take P with hL
  have len : L.length = min P (job.selected.length - k * P) := by simp [hL]
  have page : ∀ m q, L[m]? = some q → job.sentFor fill (some ((k * P + m : ℕ) : ℤ)) =
      [.page q ((k * P + m : ℕ) + 1)] := by
    intro m q hq
    have hm : m < P := by
      have := (List.getElem?_eq_some_iff.1 hq).1
      omega
    have : job.pageOf ((k * P + m : ℕ) : ℤ) = some q := by
      rw [hL, List.getElem?_take_of_lt hm, List.getElem?_drop] at hq
      rw [Job.pageOf, if_pos (by positivity), Int.toNat_natCast, hq]
    simp only [Job.sentFor, this]
  have beyond : ∀ m, L.length ≤ m → m < P → job.sentFor fill (some ((k * P + m : ℕ) : ℤ)) =
      if fill then [.dummy ((k * P + m : ℕ) + 1)] else [] := by
    intro m hm hmP
    have : job.pageOf ((k * P + m : ℕ) : ℤ) = none := by
      rw [Job.pageOf, if_pos (by positivity), Int.toNat_natCast, List.getElem?_eq_none]
      omega
    simp only [Job.sentFor, this]
  have split : List.range P = List.range L.length ++ List.range' L.length (P - L.length) := by
    have := List.range'_append_1 (s := 0) (m := L.length) (n := P - L.length)
    rw [Nat.zero_add, Nat.add_sub_of_le (by omega)] at this
    rw [List.range_eq_range', List.range_eq_range', this]
  rw [split, List.flatMap_append, List.flatMap_range_eq_mapIdx L page]
  congr 1
  rw [List.flatMap_congr fun m hm => beyond m (List.mem_range'_1.1 hm).1 (by
    have := (List.mem_range'_1.1 hm).2
    omega)]
  cases fill with
  | false => simp
  | true => simp only [if_true, List.map_eq_flatMap]

theorem Job.sentCopy_inOrder {job : Job} (off : job.sigsheets = 0) (printer : Printer)
    (hs : job.selected ≠ []) (more : Bool) :
    job.sentCopy printer job.sheets.toNat more = job.copyInOrder printer (!more) := by
  by_cases hp : 0 < job.pagefactor
  · obtain ⟨P, hP⟩ : ∃ P : ℕ, job.pagefactor = P := ⟨job.pagefactor.toNat, by omega⟩
    have count := job.sheets_inOrder off hs hP (by omega)
    simp only [Job.sentCopy, Job.copyInOrder, count, hP, Int.toNat_natCast, off,
      Job.sentSheet_inOrder off, bne_self_eq_false, Bool.or_false, Bool.not_not]
  · -- A sheet without places is empty.
    have zero : job.pagefactor.toNat = 0 := by omega
    have empty : ∀ fill k, job.sentSheet fill k = [] := by
      intro fill k
      simp [Job.sentSheet, zero]
    simp [Job.sentCopy, Job.copyInOrder, zero, empty]

/-! ## The property -/

/-- Every requested copy of every selected page is sent once: the loops return, and what is sent
times the copies the printer makes is what was asked for, in order without signatures. -/
def Job.PrintsAsAsked (job : Job) (printer : Printer) : Prop :=
  ∃ out, Returns job printer out ∧
    (job.script = true → ∀ p ∈ job.selected,
      (emissions p out : ℤ) * job.selectCopiesMethod.auto = job.copies) ∧
    (job.script = false →
      (out.count .nonpages : ℤ) * job.selectCopiesMethod.auto = job.copies) ∧
    (job.script = true → job.sigsheets = 0 → out = job.inOrder printer)

/-- The whole document is sent for each copy although it has pages. -/
def Job.Resends (job : Job) : Prop :=
  2 ≤ job.copies ∧ job.collate = true ∧ job.pageorder = .special

/-- When the loops do as asked: nothing is divided by zero and, when there are pages to send, the
sheets have a place for each and the document is not sent again; or no copy is asked for and the
number of sheets is not negative. -/
def Job.CopiesFit (job : Job) : Prop :=
  job.Divides ∧ (job.script = true → job.selected ≠ [] →
    (job.SheetsFit ∧ ¬ job.Resends) ∨ (job.copies = 0 ∧ 0 ≤ job.sheets))

/-- What `select_copies_method()` chooses. -/
theorem Job.selectCopiesMethod_cases (job : Job) :
    (job.selectCopiesMethod.doc = 1 ∧ job.selectCopiesMethod.pages = 1 ∧
      job.selectCopiesMethod.auto = job.copies ∧ (job.copies < 2 ∨ job.collate = false)) ∨
    (job.selectCopiesMethod.auto = 1 ∧ job.selectCopiesMethod.pages = 1 ∧
      job.selectCopiesMethod.doc = job.copies ∧ 2 ≤ job.copies ∧ job.collate = true ∧
        (job.script = false ∨ job.pageorder = .special)) ∨
    (job.selectCopiesMethod.auto = 1 ∧ job.selectCopiesMethod.doc = 1 ∧
      job.selectCopiesMethod.pages = job.copies ∧ 2 ≤ job.copies ∧ job.pageorder ≠ .special ∧
        job.script = true) := by
  unfold Job.selectCopiesMethod
  split_ifs with h1 h2 h3
  · exact .inl ⟨rfl, rfl, rfl, by simpa using h1⟩
  · simp [printerCanCollate] at h2
  · rw [not_or] at h1
    refine .inr (.inl ⟨rfl, rfl, rfl, by omega, by simpa using h1.2, by simpa using h3⟩)
  · rw [not_or] at h1 h3
    exact .inr (.inr ⟨rfl, rfl, rfl, by omega, h3.2, by simpa using h3.1⟩)

/-- Without sending the document again, the copies are those of the pages and of the printer. -/
theorem Job.copies_of_not_resends {job : Job} (script : job.script = true)
    (once : ¬ job.Resends) : job.selectCopiesMethod.doc = 1 ∧ ∃ copies : ℕ,
      job.selectCopiesMethod.pages = copies ∧
        (copies : ℤ) * job.selectCopiesMethod.auto = job.copies := by
  rcases job.selectCopiesMethod_cases with ⟨h1, h2, h3, -⟩ | ⟨-, -, -, h4, h5, h6⟩ |
    ⟨h1, h2, h3, h4, -⟩
  · exact ⟨h1, 1, h2, by rw [h3]; simp⟩
  · rcases h6 with h6 | h6
    · rw [script] at h6
      cases h6
    · exact absurd ⟨h4, h5, h6⟩ once
  · exact ⟨h2, job.copies.toNat, by omega, by rw [h1]; omega⟩

theorem Job.emissions_document {job : Job} {i : ℕ} {p : ℤ} (hi : job.selected[i]? = some p)
    (printer : Printer) (count copies : ℕ) :
    emissions p (.jobStart :: job.sentPages printer count copies ++ [.jobEnd]) =
      copies * job.held count i := by
  rw [← Job.emissions_sentPages hi printer]
  simp [emissions, Sent.isPage]

theorem Job.document_inOrder {job : Job} (off : job.sigsheets = 0) (printer : Printer)
    (hs : job.selected ≠ []) {copies : ℕ} (hd : job.selectCopiesMethod.doc = 1)
    (hc : job.selectCopiesMethod.pages = copies) :
    .jobStart :: job.sentPages printer job.sheets.toNat copies ++ [.jobEnd] =
      job.inOrder printer := by
  have last : ∀ c, (!(c + 1 != copies)) = (c + 1 == copies) := by
    intro c
    simp [bne]
  simp [Job.inOrder, Job.sentPages, hd, hc, Job.sentCopy_inOrder off printer hs, last]

/-- A document without pages in it can be sent again. -/
theorem Job.printsAsAsked_of_nonpages {job : Job} {printer : Printer} (hd : job.Divides)
    (script : job.script = false) : job.PrintsAsAsked printer := by
  obtain ⟨docs, hdocs, hprod⟩ : ∃ docs : ℕ, job.selectCopiesMethod.doc = docs ∧
      (docs : ℤ) * job.selectCopiesMethod.auto = job.copies := by
    rcases job.selectCopiesMethod_cases with ⟨h1, -, h3, -⟩ | ⟨h1, -, h3, h4, -⟩ | h
    · exact ⟨1, h1, by rw [h3]; simp⟩
    · exact ⟨job.copies.toNat, by omega, by rw [h1]; omega⟩
    · rw [h.2.2.2.2.2] at script
      cases script
  have sends := returns_of_documents printer [.nonpages]
    (job.sheetcount_eq hd) hdocs fun fuel => by simp [script]
  refine ⟨_, sends, by simp [script], fun _ => ?_, by simp [script]⟩
  have one : ∀ i ∈ List.range docs, (List.count Sent.nonpages ∘ fun _ : ℕ =>
      Sent.jobStart :: [.nonpages] ++ [.jobEnd]) i = 1 := fun _ _ => rfl
  rw [← hprod, List.count_flatMap, List.map_congr_left one]
  simp

/-- So can a document none of whose pages is selected. -/
theorem Job.printsAsAsked_of_selected_nil {job : Job} {printer : Printer} (hd : job.Divides)
    (script : job.script = true) (hs : job.selected = []) : job.PrintsAsAsked printer := by
  obtain ⟨docs, hdocs⟩ : ∃ docs : ℕ, job.selectCopiesMethod.doc = docs := by
    rcases job.selectCopiesMethod_cases with ⟨h1, -⟩ | ⟨-, -, h3, h4, -⟩ | ⟨-, h2, -⟩
    · exact ⟨1, h1⟩
    · exact ⟨job.copies.toNat, by omega⟩
    · exact ⟨1, h2⟩
  have sends := returns_of_documents printer [] (job.sheetcount_eq hd) hdocs
    fun fuel => by
      rw [if_pos script]
      exact job.copyPages_of_nil hs _ _ _
  refine ⟨_, sends, by simp [hs], by simp [script], fun _ _ => ?_⟩
  have none : (job.pagefactor.toNat - 1) / job.pagefactor.toNat = 0 := by
    rcases Nat.eq_zero_or_pos job.pagefactor.toNat with h | h
    · simp [h]
    · exact Nat.div_eq_of_lt (by omega)
  have nothing : ∀ l : List ℕ, l.flatMap (fun _ => ([] : List Sent)) = [] :=
    fun l => List.flatMap_eq_nil_iff.2 fun _ _ => rfl
  simp [Job.inOrder, Job.copyInOrder, hs, none, hdocs, nothing]

theorem Job.printsAsAsked_iff_of_pages {job : Job} {printer : Printer} (hd : job.Divides)
    (hb : job.sigsheets ≠ 0 → job.sigpart = .both) (script : job.script = true)
    (hs : job.selected ≠ []) (hn : 0 ≤ job.sheets) (once : ¬ job.Resends) :
    job.PrintsAsAsked printer ↔ job.AllPlaced ∨ job.copies = 0 := by
  obtain ⟨hdoc, copies, hc, hprod⟩ := job.copies_of_not_resends script once
  have placed : ∀ k < job.sheets.toNat, job.Placed k :=
    fun k hk => job.placed hb hs hk
  have count : job.sheetcount = .ok (job.sheets.toNat : ℤ) := by
    rw [job.sheetcount_eq hd, Int.toNat_of_nonneg hn]
  have sends := returns_of_pages printer count hdoc hc script hs placed
  constructor
  · rintro ⟨out, hout, each, -⟩
    obtain rfl := hout.unique sends
    by_cases zero : job.copies = 0
    · exact .inr zero
    · refine .inl fun i hi => ?_
      have hi := List.getElem?_eq_getElem hi
      have asked := each script _ (List.mem_of_getElem? hi)
      rw [Job.emissions_document hi, Nat.cast_mul, mul_right_comm, hprod] at asked
      have one : (job.held job.sheets.toNat i : ℤ) = 1 := mul_left_cancel₀ zero (by simpa using asked)
      exact Job.held_eq_one_iff.1 (by exact_mod_cast one)
  · intro h
    refine ⟨_, sends, fun _ p hp => ?_, by simp [script], fun _ off =>
      job.document_inOrder off printer hs hdoc hc⟩
    obtain ⟨i, hi⟩ := List.getElem?_of_mem hp
    rw [Job.emissions_document hi, Nat.cast_mul, mul_right_comm, hprod]
    rcases h with h | h
    · rw [Job.held_eq_one_iff.2 (h i (List.getElem?_eq_some_iff.1 hi).1)]
      simp
    · simp [h]

/-- The second document never ends. -/
theorem Job.not_returns_of_resends {job : Job} (printer : Printer) (script : job.script = true)
    (hs : job.selected ≠ []) (again : job.Resends) {count : ℕ}
    (hcount : job.sheetcount = .ok (count : ℤ)) (placed : ∀ k < count, job.Placed k)
    (out : List Sent) : ¬ Returns job printer out := by
  obtain ⟨h2, hc, hsp⟩ := again
  have method : job.selectCopiesMethod.doc = job.copies ∧ job.selectCopiesMethod.pages = 1 := by
    rcases job.selectCopiesMethod_cases with ⟨-, -, -, h⟩ | h | ⟨-, -, -, -, h, -⟩
    · rcases h with h | h
      · omega
      · rw [hc] at h
        cases h
    · exact ⟨h.2.2.1, h.2.1⟩
    · exact absurd hsp h
  exact not_returns_of_documents hcount (by omega) method.2 script hs placed out

/-- Seven pages as a two up booklet of two sheets. -/
def booklet : Job where
  pages := 7
  pageorder := .ascend
  pagefactor := 4
  script := true
  N := 2
  sigsheets := 2
  sigpart := .both
  copies := 3
  collate := true
  mask := none
  mask_length := by simp
  script_pages := by decide
  sigsheets_nonneg := by decide

/-- One page in a document of which two collated copies are to be made without changing the order
of the pages. -/
def specialTwice : Job where
  pages := 1
  pageorder := .special
  pagefactor := 1
  script := true
  N := 1
  sigsheets := 0
  sigpart := .both
  copies := 2
  collate := true
  mask := none
  mask_length := by simp
  script_pages := by decide
  sigsheets_nonneg := by decide

end Ppr.Pprdrv
