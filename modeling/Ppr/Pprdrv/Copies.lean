import Ppr.Lib.Lists
import Ppr.Pprdrv.Pages

/-!
# Every copy of every page

What the page loops send: first the page table, then one sheet, one copy, one document and the job.
-/

namespace Ppr.Pprdrv

open Loops

/-! ## The page table -/

/-- The pages that the mask selects, in ascending order. -/
def Job.selected (job : Job) : List ℤ := job.allPages.filter job.pagemaskGetBit

theorem Job.mem_allPages {job : Job} {p : ℤ} : p ∈ job.allPages ↔ 1 ≤ p ∧ p ≤ job.pages := by
  simp only [Job.allPages, List.mem_map, List.mem_range]
  constructor
  · rintro ⟨i, hi, rfl⟩
    omega
  · intro h
    exact ⟨(p - 1).toNat, by omega, by omega⟩

theorem Job.allPages_nodup (job : Job) : job.allPages.Nodup :=
  List.nodup_range.map fun a b h => by simpa using h

theorem Job.selected_nodup (job : Job) : job.selected.Nodup := job.allPages_nodup.filter _

theorem Job.selected_length (job : Job) (hp : 0 ≤ job.pages) :
    (job.selected.length : ℤ) = job.pagemaskCount := by
  rw [Job.selected, ← List.countP_eq_length_filter, Job.allPages, List.countP_map,
    Job.pagemaskCount]
  cases hm : job.mask with
  | none =>
    have all : ∀ i ∈ List.range job.pages.toNat,
        (job.pagemaskGetBit ∘ fun i : ℕ => (i : ℤ) + 1) i = true := by
      intro i _
      simp [Job.pagemaskGetBit, hm]
    rw [List.countP_eq_length.2 all]
    simp only [List.length_range]
    omega
  | some m =>
    have hl := job.mask_length m hm
    have bit : ∀ i ∈ List.range m.length,
        (job.pagemaskGetBit ∘ fun i : ℕ => (i : ℤ) + 1) i = m.getD i false := by
      intro i hi
      have hi := List.mem_range.1 hi
      have inside : ¬ ((i : ℤ) + 1 ≤ 0 ∨ job.pages < (i : ℤ) + 1) := by omega
      simp only [Function.comp_apply, Job.pagemaskGetBit, hm, if_neg inside]
      congr 1
      omega
    rw [← hl, List.countP_congr fun i hi => by rw [bit i hi]]
    have count := List.countP_range_getD m false id
    simp only [id] at count
    rw [count, List.count]
    congr 2
    funext b
    cases b <;> rfl

theorem Job.selected_eq_nil_of_pages {job : Job} (hp : job.pages ≤ 0) : job.selected = [] := by
  have : job.pages.toNat = 0 := by omega
  simp [Job.selected, Job.allPages, this]

theorem Job.pagetableLoop_eq (job : Job) (rest table : List ℤ)
    (h : ((table ++ rest.filter job.pagemaskGetBit).length : ℤ) ≤ job.pagemaskCount) :
    job.pagetableLoop table rest = .ok (table ++ rest.filter job.pagemaskGetBit) := by
  induction rest generalizing table with
  | nil => simp [Job.pagetableLoop]
  | cons page rest ih =>
    rw [Job.pagetableLoop]
    by_cases hb : job.pagemaskGetBit page = true
    · rw [List.filter_cons_of_pos hb] at h ⊢
      have room : ¬ job.pagemaskCount ≤ table.length := by
        simp only [List.length_append, List.length_cons] at h
        omega
      rw [if_pos hb, if_neg room, ih _ (by simpa using h)]
      simp
    · rw [List.filter_cons_of_neg hb] at h ⊢
      rw [if_neg hb]
      exact ih _ h

/-- The page table: the selected pages in the order of the file. -/
def Job.table (job : Job) : List ℤ :=
  if job.pageorder = .descend then job.selected.reverse else job.selected

theorem Job.table_length (job : Job) : job.table.length = job.selected.length := by
  unfold Job.table
  split_ifs <;> simp

theorem Job.makePagetable_eq (job : Job) : job.makePagetable = .ok job.table := by
  unfold Job.makePagetable
  by_cases hp : job.pages ≤ 0
  · simp [hp, Job.table, Job.selected_eq_nil_of_pages hp]
  · have hl := job.selected_length (by omega)
    have loop : job.pagetableLoop []
        (if job.pageorder = .descend then job.allPages.reverse else job.allPages) =
          .ok job.table := by
      have ht : ([] ++ (if job.pageorder = .descend then job.allPages.reverse
          else job.allPages).filter job.pagemaskGetBit) = job.table := by
        unfold Job.table Job.selected
        split_ifs <;> simp
      rw [Job.pagetableLoop_eq, ht]
      rw [ht, job.table_length]
      exact hl.le
    rw [if_neg hp, loop]
    show (if _ then _ else _) = _
    rw [if_neg (by rw [job.table_length]; omega)]

/-- The page with a page number. -/
def Job.pageOf (job : Job) (n : ℤ) : Option ℤ :=
  if 0 ≤ n then job.selected[n.toNat]? else none

/-- A page number means the same page in either order of the file. -/
theorem Job.pageAt_table (job : Job) (n : ℤ) : job.pageAt job.table n = job.pageOf n := by
  have hl := job.table_length
  unfold Job.pageAt Job.pageOf
  rw [hl]
  by_cases ho : job.pageorder = .descend
  · have hd : job.currentJobDirection ≠ 1 := by simp [Job.currentJobDirection, ho]
    have ht : job.table = job.selected.reverse := by simp [Job.table, ho]
    simp only [if_neg hd, ht]
    split_ifs with h1 h2 h2
    · rw [List.getElem?_reverse (by omega)]
      congr 1
      omega
    · omega
    · rw [List.getElem?_eq_none (by omega)]
    · rfl
  · have hd : job.currentJobDirection = 1 := by
      unfold Job.currentJobDirection
      cases h : job.pageorder <;> simp_all
    have ht : job.table = job.selected := by simp [Job.table, ho]
    simp only [if_pos hd, ht]
    split_ifs with h1 h2 h2
    · rfl
    · omega
    · rw [List.getElem?_eq_none (by omega)]
    · rfl

/-! ## One sheet -/

/-- The number of the page on a place of a sheet, nothing when it is skipped. -/
def Job.place (job : Job) (sheet member : ℕ) : Option ℤ :=
  match job.pagenumber sheet member with
  | .ok n => n
  | .error _ => none

/-- What is sent for a page number. -/
def Job.sentFor (job : Job) (fill : Bool) : Option ℤ → List Sent
  | none => []
  | some n =>
    match job.pageOf n with
    | some page => [.page page (n + 1)]
    | none => if fill then [.dummy (n + 1)] else []

/-- What is sent for a sheet. -/
def Job.sentSheet (job : Job) (fill : Bool) (sheet : ℕ) : List Sent :=
  (List.range job.pagefactor.toNat).flatMap fun m => job.sentFor fill (job.place sheet m)

/-- Every place of a sheet has a number. -/
def Job.Placed (job : Job) (sheet : ℕ) : Prop :=
  ∀ m < job.pagefactor.toNat, job.pagenumber sheet m = .ok (job.place sheet m)

theorem Job.copySheet_eq {job : Job} {sheet : ℕ} (h : job.Placed sheet) (fill : Bool) :
    job.copySheet job.table fill sheet = .ok (job.sentSheet fill sheet) := by
  have member : ∀ m ∈ List.range job.pagefactor.toNat,
      job.copyMember job.table fill sheet m = .ok (job.sentFor fill (job.place sheet m)) := by
    intro m hm
    rw [Job.copyMember, h m (List.mem_range.1 hm)]
    show (match job.place sheet m with | none => _ | some n => _) = _
    cases job.place sheet m with
    | none => rfl
    | some n =>
      simp only [Job.sentFor, job.pageAt_table]
      cases job.pageOf n <;> rfl
  have members : ∀ l : List ℕ, (∀ m ∈ l, m ∈ List.range job.pagefactor.toNat) →
      (l.mapM fun m : ℕ => job.copyMember job.table fill sheet m) =
        .ok (l.map fun m => job.sentFor fill (job.place sheet m)) := by
    intro l
    induction l with
    | nil => exact fun _ => rfl
    | cons m l ih =>
      intro hl
      rw [List.mapM_cons, member m (hl m (by simp)), ih fun m hm => hl m (by simp [hm])]
      rfl
  rw [Job.copySheet, members _ fun _ hm => hm]
  show Except.ok _ = _
  rw [Job.sentSheet, List.flatMap_def]

/-! ## One copy -/

/-- The sheet that is sent as number `i` of a copy. -/
def Job.sheetAt (job : Job) (printer : Printer) (count i : ℕ) : ℕ :=
  if job.printDirection printer = -1 then count - 1 - i else i

/-- What is sent for a copy; `more` is set when another copy follows. -/
def Job.sentCopy (job : Job) (printer : Printer) (count : ℕ) (more : Bool) : List Sent :=
  (List.range count).flatMap fun i =>
    job.sentSheet (more || job.sigsheets != 0 || i + 1 != count) (job.sheetAt printer count i)

theorem Job.printDirection_cases (job : Job) (printer : Printer) :
    job.printDirection printer = 1 ∨ job.printDirection printer = -1 := by
  unfold Job.printDirection
  split_ifs <;> simp

/-- The paging of a job with `count` sheets. -/
def Job.paging (job : Job) (printer : Printer) (sheetcount : ℤ) : Paging :=
  ⟨sheetcount, job.currentJobDirection, job.printDirection printer⟩

/-- The first sheet sent and the end of the sheets. -/
def Job.sheetStart (job : Job) (printer : Printer) (sheetcount : ℤ) : ℤ :=
  if job.printDirection printer = -1 then sheetcount - 1 else 0

def Job.sheetLimit (job : Job) (printer : Printer) (sheetcount : ℤ) : ℤ :=
  if job.printDirection printer = -1 then -1 else sheetcount

theorem Job.sheets_eq {job : Job} {printer : Printer} {count : ℕ}
    (placed : ∀ k < count, job.Placed k) (countdown : ℤ) {fuel : ℕ} (hf : count < fuel) :
    loop .outOfFuel (job.sheetRound (job.paging printer count) job.table
      (job.sheetLimit printer count) countdown) fuel (job.sheetStart printer count) =
      .ok (job.sentCopy printer count (countdown != 0), job.sheetLimit printer count) := by
  -- The sheet after `i` rounds.
  let at_ : ℕ → ℤ := fun i => job.sheetStart printer count + i * job.printDirection printer
  have start : job.sheetStart printer count = at_ 0 := by simp [at_]
  have sheet : ∀ i < count, at_ i = (job.sheetAt printer count i : ℕ) := by
    intro i hi
    simp only [at_, Job.sheetStart, Job.sheetAt]
    rcases job.printDirection_cases printer with h | h
    · simp [h]
    · simp [h]
      omega
  have next : ∀ i, at_ i + job.printDirection printer = at_ (i + 1) := by
    intro i
    simp only [at_]
    push_cast
    ring
  have limit : ∀ i ≤ count, at_ i = job.sheetLimit printer count ↔ i = count := by
    intro i hi
    simp only [at_, Job.sheetStart, Job.sheetLimit]
    rcases job.printDirection_cases printer with h | h
    · simp [h]
    · simp [h]
      omega
  rw [start]
  refine loop_counted (s := at_) (fun i hi => ?_) ?_ hf
  · have here : at_ i ≠ job.sheetLimit printer count := by
      rw [Ne, limit i hi.le]
      omega
    have lt : job.sheetAt printer count i < count := by
      unfold Job.sheetAt
      split_ifs <;> omega
    have last : (decide (countdown ≠ 0 ∨ job.sigsheets ≠ 0 ∨
        at_ (i + 1) ≠ job.sheetLimit printer count)) =
          (countdown != 0 || job.sigsheets != 0 || i + 1 != count) := by
      simp only [ne_eq, limit (i + 1) hi]
      by_cases h1 : countdown = 0 <;> by_cases h2 : job.sigsheets = 0 <;>
        by_cases h3 : i + 1 = count <;> simp [h1, h2, h3]
    rw [Job.sheetRound, if_neg here]
    simp only [Job.paging, next, last]
    rw [sheet i hi, Job.copySheet_eq (placed _ lt)]
    rfl
  · rw [Job.sheetRound, if_pos ((limit count le_rfl).2 rfl), (limit count le_rfl).2 rfl]

/-- Without an end in reach the sheet loop does not return. -/
theorem Job.sheets_endless {job : Job} {printer : Printer} {sheetcount : ℤ} (h : sheetcount < 0)
    (countdown : ℤ) (fuel : ℕ) (r : List Sent × ℤ) :
    loop .outOfFuel (job.sheetRound (job.paging printer sheetcount) job.table
      (job.sheetLimit printer sheetcount) countdown) fuel (job.sheetStart printer sheetcount) ≠
      .ok r := by
  -- Upwards every sheet is past the limit, and downwards below it.
  let I : ℤ → Prop := fun s => (job.printDirection printer = -1 ∧ s < -1) ∨
    (job.printDirection printer = 1 ∧ 0 ≤ s)
  refine loop_endless (I := I) (fun s t hs ht => ?_) ?_ fuel r
  · have here : s ≠ job.sheetLimit printer sheetcount := by
      unfold Job.sheetLimit
      rcases hs with ⟨hd, hs⟩ | ⟨hd, hs⟩ <;> simp only [hd] <;> simp <;> omega
    rw [Job.sheetRound, if_neg here] at ht
    obtain ⟨sent, -, ht⟩ := Outcome.bind_eq_ok ht
    cases ht
    refine ⟨sent, _, rfl, ?_⟩
    rcases hs with ⟨hd, hs⟩ | ⟨hd, hs⟩
    · exact .inl ⟨hd, by simp only [Job.paging, hd]; omega⟩
    · exact .inr ⟨hd, by simp only [Job.paging, hd]; omega⟩
  · unfold Job.sheetStart
    rcases job.printDirection_cases printer with hd | hd
    · exact .inr ⟨hd, by simp [hd]⟩
    · exact .inl ⟨hd, by simp only [hd, if_true]; omega⟩

/-! ## The copies of the pages -/

/-- What `copy_pages()` sends for `copies` copies. -/
def Job.sentPages (job : Job) (printer : Printer) (count copies : ℕ) : List Sent :=
  (List.range copies).flatMap fun i => job.sentCopy printer count (i + 1 != copies)

theorem Job.pagesRound_eq (job : Job) (printer : Printer) (sheetcount countdown : ℤ) (fuel : ℕ)
    (h : countdown ≠ 0) :
    job.pagesRound (job.paging printer sheetcount) job.table fuel countdown =
      (loop .outOfFuel (job.sheetRound (job.paging printer sheetcount) job.table
        (job.sheetLimit printer sheetcount) (countdown - 1)) fuel
        (job.sheetStart printer sheetcount) >>= fun p => .ok (.more p.1 (countdown - 1))) := by
  rw [Job.pagesRound, if_neg h]
  rfl

theorem Job.copyPages_eq {job : Job} (printer : Printer) {count : ℕ} (hs : job.selected ≠ [])
    (placed : ∀ k < count, job.Placed k) (copies : ℕ) {fuel : ℕ} (hf : count < fuel)
    (hc : copies < fuel) :
    job.copyPages (job.paging printer count) fuel copies =
      .ok (job.sentPages printer count copies, -1) := by
  have full : ¬ job.table.length = 0 := by
    rw [job.table_length, List.length_eq_zero_iff]
    exact hs
  rw [Job.copyPages, job.makePagetable_eq]
  show (if _ then _ else _) = _
  rw [if_neg full]
  have start : (copies : ℤ) = (copies : ℤ) - (0 : ℕ) := by simp
  rw [start]
  refine loop_counted (s := fun i : ℕ => (copies : ℤ) - i) (fun i hi => ?_) ?_ hc
  · have here : (copies : ℤ) - i ≠ 0 := by omega
    have more : ((copies : ℤ) - i - 1 != 0) = (i + 1 != copies) := by
      rw [Bool.eq_iff_iff, bne_iff_ne, bne_iff_ne]
      omega
    rw [job.pagesRound_eq printer count _ fuel here, Job.sheets_eq placed _ hf, more]
    show Except.ok _ = _
    congr 2
    push_cast
    omega
  · rw [Job.pagesRound, if_pos (by omega)]
    congr 2
    omega

theorem Job.copyPages_of_nil {job : Job} (hs : job.selected = []) (paging : Paging) (fuel : ℕ)
    (countdown : ℤ) : job.copyPages paging fuel countdown = .ok ([], countdown) := by
  have empty : job.table.length = 0 := by
    rw [job.table_length, hs]
    rfl
  rw [Job.copyPages, job.makePagetable_eq]
  show (if _ then _ else _) = _
  rw [if_pos empty]

/-- The countdown of a loop that has ended is -1, and the next `while` does not end. -/
theorem Job.copyPages_endless {job : Job} {paging : Paging} (hs : job.selected ≠ [])
    {countdown : ℤ} (hc : countdown < 0) (fuel : ℕ) (r : List Sent × ℤ) :
    job.copyPages paging fuel countdown ≠ .ok r := by
  have full : ¬ job.table.length = 0 := by
    rw [job.table_length, List.length_eq_zero_iff]
    exact hs
  rw [Job.copyPages, job.makePagetable_eq]
  show (if _ then _ else _) ≠ _
  rw [if_neg full]
  refine loop_endless (I := fun c => c < 0) (fun c t hc ht => ?_) hc fuel r
  rw [Job.pagesRound, if_neg hc.ne] at ht
  obtain ⟨p, -, ht⟩ := Outcome.bind_eq_ok ht
  cases ht
  exact ⟨_, _, rfl, by omega⟩

/-- With a negative number of sheets no copy of the pages ends. -/
theorem Job.copyPages_endless_of_sheetcount {job : Job} {printer : Printer} {sheetcount : ℤ}
    (hs : job.selected ≠ []) (h : sheetcount < 0) {countdown : ℤ} (hc : countdown ≠ 0) (fuel : ℕ)
    (r : List Sent × ℤ) : job.copyPages (job.paging printer sheetcount) fuel countdown ≠ .ok r := by
  have full : ¬ job.table.length = 0 := by
    rw [job.table_length, List.length_eq_zero_iff]
    exact hs
  rw [Job.copyPages, job.makePagetable_eq]
  show (if _ then _ else _) ≠ _
  rw [if_neg full]
  intro hl
  obtain ⟨out, c⟩ := r
  obtain ⟨n, rfl, ⟨-, hd⟩ | ⟨sent, rest, c', hr, -, -⟩⟩ := loop_cases hl
  · rw [job.pagesRound_eq _ _ _ _ hc] at hd
    obtain ⟨p, hp, hd⟩ := Outcome.bind_eq_ok hd
    cases hd
  · rw [job.pagesRound_eq _ _ _ _ hc] at hr
    obtain ⟨p, hp, -⟩ := Outcome.bind_eq_ok hr
    exact job.sheets_endless h _ _ _ hp

/-! ## The copies of the document -/

/-- With enough fuel the page loops return, and this is what they send. -/
def Returns (job : Job) (printer : Printer) (out : List Sent) : Prop :=
  ∃ enough, ∀ fuel ≥ enough, sendJob job printer fuel = .ok out

theorem Returns.unique {job : Job} {printer : Printer} {out out' : List Sent}
    (h : Returns job printer out) (h' : Returns job printer out') : out = out' := by
  obtain ⟨n, hn⟩ := h
  obtain ⟨m, hm⟩ := h'
  have := (hn (max n m) (le_max_left n m)).symm.trans (hm (max n m) (le_max_right n m))
  exact Except.ok.inj this

theorem sendJob_eq {job : Job} {printer : Printer} {sheetcount : ℤ}
    (h : job.sheetcount = .ok sheetcount) (fuel : ℕ) :
    sendJob job printer fuel =
      (loop .outOfFuel (job.docRound (job.paging printer sheetcount) fuel) fuel
        (job.selectCopiesMethod.doc, job.selectCopiesMethod.pages) >>= fun p => .ok p.1) := by
  rw [sendJob, pageComputations, h]
  rfl

/-- When each document sends the same and leaves the countdown alone, all documents are sent. -/
theorem returns_of_documents {job : Job} (printer : Printer) {sheetcount : ℤ} (sent : List Sent)
    (h : job.sheetcount = .ok sheetcount) {docs : ℕ} (hd : job.selectCopiesMethod.doc = docs)
    (document : ∀ fuel, (if job.script then job.copyPages (job.paging printer sheetcount) fuel
        job.selectCopiesMethod.pages else .ok ([.nonpages], job.selectCopiesMethod.pages)) =
      .ok (sent, job.selectCopiesMethod.pages)) :
    Returns job printer ((List.range docs).flatMap fun _ => .jobStart :: sent ++ [.jobEnd]) := by
  refine ⟨docs + 1, fun fuel hf => ?_⟩
  rw [sendJob_eq h, hd]
  let at_ : ℕ → ℤ × ℤ := fun i => ((docs : ℤ) - i, job.selectCopiesMethod.pages)
  have start : ((docs : ℤ), job.selectCopiesMethod.pages) = at_ 0 := by simp [at_]
  have more : ∀ i < docs, job.docRound (job.paging printer sheetcount) fuel (at_ i) =
      .ok (.more (.jobStart :: sent ++ [.jobEnd]) (at_ (i + 1))) := by
    intro i hi
    simp only [Job.docRound, at_]
    rw [if_neg (by omega), document fuel]
    show Except.ok _ = _
    congr 3
    push_cast
    omega
  have done : job.docRound (job.paging printer sheetcount) fuel (at_ docs) =
      .ok (.done (-1, job.selectCopiesMethod.pages)) := by
    simp only [Job.docRound, at_]
    rw [if_pos (by omega)]
    congr 3
    omega
  rw [start, loop_counted more done (by omega : docs < fuel)]
  rfl

/-- A single document with pages. -/
theorem returns_of_pages {job : Job} (printer : Printer) {count copies : ℕ}
    (h : job.sheetcount = .ok (count : ℤ)) (hd : job.selectCopiesMethod.doc = 1)
    (hc : job.selectCopiesMethod.pages = copies) (script : job.script = true)
    (hs : job.selected ≠ []) (placed : ∀ k < count, job.Placed k) :
    Returns job printer (.jobStart :: job.sentPages printer count copies ++ [.jobEnd]) := by
  refine ⟨count + copies + 2, fun fuel hf => ?_⟩
  obtain ⟨fuel, rfl⟩ : ∃ m, fuel = m + 2 := ⟨fuel - 2, by omega⟩
  have first : job.docRound (job.paging printer count) (fuel + 2) (1, (copies : ℤ)) =
      .ok (.more (.jobStart :: job.sentPages printer count copies ++ [.jobEnd]) (0, -1)) := by
    simp only [Job.docRound]
    rw [if_neg (by decide), if_pos script, job.copyPages_eq printer hs placed copies (by omega) (by omega)]
    rfl
  have second : job.docRound (job.paging printer count) (fuel + 2) (0, -1) =
      .ok (.done (-1, -1)) := by
    rfl
  rw [sendJob_eq h, hd, hc, loop_more first, loop_done second]
  show Except.ok _ = _
  simp

/-- A document whose pages do not end is not sent. -/
theorem not_returns_of_pages {job : Job} {printer : Printer} {sheetcount : ℤ}
    (h : job.sheetcount = .ok sheetcount) (hd : job.selectCopiesMethod.doc ≠ 0)
    (script : job.script = true)
    (endless : ∀ fuel r, job.copyPages (job.paging printer sheetcount) fuel
      job.selectCopiesMethod.pages ≠ .ok r) (out : List Sent) : ¬ Returns job printer out := by
  rintro ⟨n, hn⟩
  have hn := hn n le_rfl
  rw [sendJob_eq h] at hn
  obtain ⟨⟨sent, last⟩, hl, -⟩ := Outcome.bind_eq_ok hn
  obtain ⟨m, -, ⟨-, hr⟩ | ⟨_, _, _, hr, -⟩⟩ := loop_cases hl
  all_goals
    simp only [Job.docRound] at hr
    rw [if_neg hd, if_pos script] at hr
    obtain ⟨r, hr, -⟩ := Outcome.bind_eq_ok hr
    exact endless n r hr

/-- The second document never ends: the first leaves `copies_pages_countdown` at -1. -/
theorem not_returns_of_documents {job : Job} {printer : Printer} {count : ℕ}
    (h : job.sheetcount = .ok (count : ℤ)) (hd : 2 ≤ job.selectCopiesMethod.doc)
    (hc : job.selectCopiesMethod.pages = 1) (script : job.script = true) (hs : job.selected ≠ [])
    (placed : ∀ k < count, job.Placed k) (out : List Sent) : ¬ Returns job printer out := by
  rintro ⟨n, hn⟩
  have hn := hn (n + count + 2) (by omega)
  rw [sendJob_eq h, hc] at hn
  obtain ⟨⟨sent, last⟩, hl, -⟩ := Outcome.bind_eq_ok hn
  have round : ∀ d p : ℤ, d ≠ 0 →
      job.docRound (job.paging printer count) (n + count + 2) (d, p) =
        (job.copyPages (job.paging printer count) (n + count + 2) p >>= fun q =>
          .ok (.more (.jobStart :: q.1 ++ [.jobEnd]) (d - 1, q.2))) := by
    intro d p hd
    simp only [Job.docRound]
    rw [if_neg hd, if_pos script]
  have first : job.docRound (job.paging printer count) (n + count + 2)
      (job.selectCopiesMethod.doc, 1) =
        .ok (.more (.jobStart :: job.sentPages printer count 1 ++ [.jobEnd])
          (job.selectCopiesMethod.doc - 1, -1)) := by
    rw [round _ _ (by omega)]
    have := job.copyPages_eq printer hs placed 1 (by omega : count < n + count + 2)
      (by omega)
    rw [Nat.cast_one] at this
    rw [this]
    rfl
  rw [loop_more first] at hl
  obtain ⟨r, hl, -⟩ := Outcome.bind_eq_ok hl
  obtain ⟨m, -, ⟨-, hr⟩ | ⟨_, _, _, hr, -⟩⟩ := loop_cases hl
  all_goals
    rw [round _ _ (by omega)] at hr
    obtain ⟨q, hq, -⟩ := Outcome.bind_eq_ok hr
    exact job.copyPages_endless hs (by decide) _ _ hq

end Ppr.Pprdrv
