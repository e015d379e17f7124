import Ppr.Pprdrv.Copies

/-!
# The places of the pages

Every page number has one place on the sheets when they are filled in order, and when `signature()`
folds them two up.  The cases in which `signature()` does not do this are here too.
-/

namespace Ppr.Pprdrv

/-- Exactly one of the places of `count` sheets holds page number `n`. -/
def OnOnePlace (f : ℕ → ℕ → Option ℤ) (count places : ℕ) (n : ℤ) : Prop :=
  ∃! p : ℕ × ℕ, (p.1 < count ∧ p.2 < places) ∧ f p.1 p.2 = some n

/-- Page numbers in blocks of `b`. -/
theorem block_unique {b q r q' r' : ℕ} (hr : r < b) (hr' : r' < b)
    (h : q * b + r = q' * b + r') : q = q' ∧ r = r' := by
  have hq : (q * b + r) / b = q := by
    rw [Nat.mul_comm, Nat.mul_add_div (by omega), Nat.div_eq_of_lt hr, Nat.add_zero]
  have hq' : (q' * b + r') / b = q' := by
    rw [Nat.mul_comm, Nat.mul_add_div (by omega), Nat.div_eq_of_lt hr', Nat.add_zero]
  have : q = q' := by rw [← hq, h, hq']
  subst this
  exact ⟨rfl, by omega⟩

theorem onOnePlace_inOrder {b count n : ℕ} (hn : n < count * b) :
    OnOnePlace (fun k m => some ((k * b + m : ℕ) : ℤ)) count b n := by
  have hb : 0 < b := by
    rcases Nat.eq_zero_or_pos b with rfl | h
    · omega
    · exact h
  refine ⟨(n / b, n % b), ⟨⟨?_, Nat.mod_lt n hb⟩, ?_⟩, ?_⟩
  · exact Nat.div_lt_of_lt_mul (by rwa [Nat.mul_comm])
  · simp only [Nat.div_add_mod']
  · rintro ⟨k, m⟩ ⟨⟨-, hm⟩, h⟩
    have h : k * b + m = n := by exact_mod_cast Option.some.inj h
    have split : n / b * b + n % b = n := Nat.div_add_mod' n b
    obtain ⟨rfl, rfl⟩ := block_unique hm (Nat.mod_lt n hb) (h.trans split.symm)
    rfl

/-- In simplex the two sides of a sheet are two sheets. -/
theorem OnOnePlace.sides {f : ℕ → ℕ → Option ℤ} {count N : ℕ} {n : ℤ}
    (h : OnOnePlace f count (2 * N) n) :
    OnOnePlace (fun k m => f (k / 2) (m + N * (k % 2))) (count * 2) N n := by
  obtain ⟨⟨k, m⟩, ⟨⟨hk, hm⟩, hf⟩, hu⟩ := h
  have side : ∃ j < 2, ∃ i < N, m = i + N * j := by
    by_cases hmN : m < N
    · exact ⟨0, by omega, m, hmN, by omega⟩
    · exact ⟨1, by omega, m - N, by omega, by omega⟩
  obtain ⟨j, hj, i, hi, rfl⟩ := side
  have back : (k * 2 + j) / 2 = k ∧ (k * 2 + j) % 2 = j := by omega
  refine ⟨(k * 2 + j, i), ⟨⟨?_, hi⟩, ?_⟩, ?_⟩
  · show k * 2 + j < count * 2
    omega
  · show f ((k * 2 + j) / 2) (i + N * ((k * 2 + j) % 2)) = some n
    rw [back.1, back.2]
    exact hf
  · rintro ⟨k', i'⟩ ⟨⟨hk', hi'⟩, h'⟩
    have hk' : k' < count * 2 := hk'
    have hi' : i' < N := hi'
    have inside : i' + N * (k' % 2) < 2 * N := by
      rcases Nat.mod_two_eq_zero_or_one k' with h0 | h0 <;> rw [h0] <;> omega
    have same := hu (k' / 2, i' + N * (k' % 2)) ⟨⟨by show k' / 2 < count; omega, inside⟩, h'⟩
    have hk2 : k' / 2 = k := congrArg Prod.fst same
    have hm2 : i' + N * (k' % 2) = i + N * j := congrArg Prod.snd same
    have hj2 : k' % 2 = j ∧ i' = i := by
      rcases Nat.mod_two_eq_zero_or_one k' with h0 | h0 <;> rw [h0] at hm2 ⊢ <;>
        obtain rfl | rfl : j = 0 ∨ j = 1 := by omega
      all_goals simp only [Nat.mul_zero, Nat.mul_one, Nat.add_zero] at hm2
      all_goals omega
    obtain ⟨rfl, rfl⟩ := hj2
    ext
    · show k' = k * 2 + k' % 2
      omega
    · rfl

/-! ## Two up -/

/-- The page of a two up signature of `S` sheets on place `j` of its sheet `s`. -/
def foldPage (S s : ℕ) : ℕ → ℕ
  | 0 => 2 * S - 1 - 2 * s
  | 1 => 2 * S + 2 * s
  | 2 => 2 * S + 2 * s + 1
  | _ => 2 * S - 2 - 2 * s

theorem foldPage_lt {S s : ℕ} (hs : s < S) (j : ℕ) : foldPage S s j < 4 * S := by
  unfold foldPage
  split <;> omega

theorem foldPage_inj {S s s' j j' : ℕ} (hs : s < S) (hs' : s' < S) (hj : j < 4) (hj' : j' < 4)
    (h : foldPage S s j = foldPage S s' j') : s = s' ∧ j = j' := by
  interval_cases j <;> interval_cases j' <;> simp only [foldPage] at h <;> omega

theorem exists_foldPage {S r : ℕ} (hr : r < 4 * S) : ∃ s < S, ∃ j < 4, foldPage S s j = r := by
  by_cases half : r < 2 * S
  · by_cases odd : r % 2 = 1
    · exact ⟨(2 * S - 1 - r) / 2, by omega, 0, by omega, by simp only [foldPage]; omega⟩
    · exact ⟨(2 * S - 2 - r) / 2, by omega, 3, by omega, by simp only [foldPage]; omega⟩
  · by_cases odd : r % 2 = 1
    · exact ⟨(r - 2 * S) / 2, by omega, 2, by omega, by simp only [foldPage]; omega⟩
    · exact ⟨(r - 2 * S) / 2, by omega, 1, by omega, by simp only [foldPage]; omega⟩

theorem onOnePlace_folded {S count n : ℕ} (hS : 0 < S) (hn : n < count * (4 * S)) :
    OnOnePlace (fun k m => some ((k / S * (4 * S) + foldPage S (k % S) m : ℕ) : ℤ)) (count * S) 4
      n := by
  have hb : 0 < 4 * S := by omega
  have hr : n % (4 * S) < 4 * S := Nat.mod_lt n hb
  have hq : n / (4 * S) < count := Nat.div_lt_of_lt_mul (by rwa [Nat.mul_comm])
  have split : n / (4 * S) * (4 * S) + n % (4 * S) = n := Nat.div_add_mod' n (4 * S)
  obtain ⟨s, hs, j, hj, hf⟩ := exists_foldPage hr
  have sheet : (n / (4 * S) * S + s) / S = n / (4 * S) ∧ (n / (4 * S) * S + s) % S = s := by
    constructor
    · rw [Nat.mul_comm, Nat.mul_add_div hS, Nat.div_eq_of_lt hs, Nat.add_zero]
    · rw [Nat.mul_comm, Nat.mul_add_mod, Nat.mod_eq_of_lt hs]
  refine ⟨(n / (4 * S) * S + s, j), ⟨⟨?_, hj⟩, ?_⟩, ?_⟩
  · calc n / (4 * S) * S + s < n / (4 * S) * S + S := by omega
      _ = (n / (4 * S) + 1) * S := by ring
      _ ≤ count * S := Nat.mul_le_mul_right S hq
  · show some (((n / (4 * S) * S + s) / S * (4 * S) +
      foldPage S ((n / (4 * S) * S + s) % S) j : ℕ) : ℤ) = some (n : ℤ)
    rw [sheet.1, sheet.2, hf, split]
  · rintro ⟨k, m⟩ ⟨⟨-, hm⟩, h⟩
    have h : k / S * (4 * S) + foldPage S (k % S) m = n := by exact_mod_cast Option.some.inj h
    have hk : k % S < S := Nat.mod_lt k hS
    obtain ⟨hq', hr'⟩ := block_unique (foldPage_lt hk m) hr (h.trans split.symm)
    obtain ⟨hs', rfl⟩ := foldPage_inj hk hs hm hj (hr'.trans hf.symm)
    have : k = n / (4 * S) * S + s := by rw [← hq', ← hs', Nat.div_add_mod']
    rw [this]

theorem OnOnePlace.congr {f g : ℕ → ℕ → Option ℤ} {count places : ℕ} {n : ℤ}
    (h : ∀ k < count, ∀ m < places, f k m = g k m) (hf : OnOnePlace f count places n) :
    OnOnePlace g count places n := by
  obtain ⟨⟨k, m⟩, ⟨⟨hk, hm⟩, hn⟩, hu⟩ := hf
  refine ⟨(k, m), ⟨⟨hk, hm⟩, (h k hk m hm).symm.trans hn⟩, ?_⟩
  rintro ⟨k', m'⟩ ⟨⟨hk', hm'⟩, hn'⟩
  exact hu (k', m') ⟨⟨hk', hm'⟩, (h k' hk' m' hm').trans hn'⟩

/-! ## The page numbers of the code -/

/-- The number of sheets by the formulas of `page_computations()`. -/
def Job.sheets (job : Job) : ℤ :=
  if job.sigsheets = 0 then (job.pagemaskCount + job.pagefactor - 1).tdiv job.pagefactor
  else (job.pagemaskCount + job.N * 2 * job.sigsheets - 1).tdiv (job.N * 2 * job.sigsheets) *
    job.sigsheets * (job.N * 2).tdiv job.pagefactor

/-- `page_computations()` does not divide by zero. -/
def Job.Divides (job : Job) : Prop := job.pagefactor ≠ 0 ∧ (job.sigsheets ≠ 0 → job.N ≠ 0)

theorem Job.sheetcount_eq {job : Job} (h : job.Divides) : job.sheetcount = .ok job.sheets := by
  unfold Job.sheetcount Job.sheets cdiv
  by_cases hs : job.sigsheets = 0
  · simp [hs, h.1]
  · have hN := h.2 hs
    simp only [if_neg hs, if_neg h.1]
    rw [if_neg (by simp [hN, hs])]
    rfl

theorem Job.sheetcount_error {job : Job} (h : ¬ job.Divides) :
    job.sheetcount = .error .divideByZero := by
  unfold Job.sheetcount cdiv
  by_cases hs : job.sigsheets = 0
  · have hp : job.pagefactor = 0 := by
      by_contra hp
      exact h ⟨hp, fun h => absurd hs h⟩
    simp [hs, hp]
  · by_cases hN : job.N = 0
    · simp [hs, hN]
      rfl
    · have hp : job.pagefactor = 0 := by
        by_contra hp
        exact h ⟨hp, fun _ => hN⟩
      simp only [if_neg hs, hp, if_true]
      rw [if_neg (by simp [hN, hs])]
      rfl

/-- Page numbers without signatures. -/
theorem Job.pagenumber_inOrder {job : Job} (h : job.sigsheets = 0) (k m : ℕ) :
    job.pagenumber k m = .ok (some (k * job.pagefactor + m)) := by
  simp [Job.pagenumber, h]

/-- The number of the page on place `m` of the sheet `k` of the signatures, both sides on it. -/
def sigNumber (N : ℤ) (S k m : ℕ) : ℤ :=
  (k / S : ℕ) * (N * 2 * S) + if N = 2 then (foldPage S (k % S) m : ℤ) else m

theorem Job.sigpage_eq {job : Job} {S s m : ℕ} (hs : s < S) (hm : job.N = 2 → m < 4) :
    job.sigpage ((job.N * S * 2).tdiv 2 - 1) s m =
      .ok (if job.N = 2 then (foldPage S s m : ℤ) else m) := by
  have centre : (job.N * S * 2).tdiv 2 = job.N * S := Int.mul_tdiv_cancel _ (by decide)
  rw [centre, Job.sigpage]
  by_cases hN : job.N = 2
  · have hm := hm hN
    simp only [hN, if_true]
    interval_cases m <;> simp [foldPage] <;> omega
  · simp [hN]

theorem Job.signature_eq {job : Job} (hb : job.sigpart = .both) {S : ℕ}
    (hS : job.sigsheets = S) (pos : 0 < S) {k m : ℕ} (hm : job.N = 2 → m < 4)
    {sheetnumber sheetpage : ℤ}
    (hk : (if job.N = job.pagefactor then sheetnumber.tdiv 2 else sheetnumber) = k)
    (hp : (if job.N = job.pagefactor ∧ sheetnumber % 2 = 1 then sheetpage + job.N else sheetpage) =
      m) :
    job.signature sheetnumber sheetpage = .ok (sigNumber job.N S k m) := by
  unfold Job.signature
  simp only [hk, hp, hb, SigPart.hasFronts, SigPart.hasBacks, Bool.not_true, Bool.false_eq_true,
    and_false, or_self, if_false, hS]
  have hq : (k : ℤ).tdiv S = ((k / S : ℕ) : ℤ) := by norm_cast
  have hr : (k : ℤ).tmod S = ((k % S : ℕ) : ℤ) := by norm_cast
  rw [hq, hr, Job.sigpage_eq (Nat.mod_lt k pos) hm]
  show Except.ok _ = _
  congr 1
  unfold sigNumber
  ring

section Signatures

variable {job : Job} (hb : job.sigpart = .both) {S : ℕ} (hS : job.sigsheets = S) (pos : 0 < S)

include hb hS pos

/-- Page numbers of signatures when a sheet has both sides. -/
theorem Job.pagenumber_duplex (hN : job.N ≠ job.pagefactor) {k m : ℕ} (hm : job.N = 2 → m < 4) :
    job.pagenumber k m =
      .ok (if sigNumber job.N S k m = -1 then none else some (sigNumber job.N S k m)) := by
  have on : job.sigsheets ≠ 0 := by omega
  rw [Job.pagenumber, if_neg on, Job.signature_eq hb hS pos hm (if_neg hN) (if_neg (by simp [hN]))]
  rfl

/-- Page numbers of signatures when the sides of a sheet are two sheets. -/
theorem Job.pagenumber_simplex {N : ℕ} (hN : job.N = N) (hp : job.pagefactor = N) {k m : ℕ}
    (hm : N = 2 → m < 2) :
    job.pagenumber k m = .ok (some (sigNumber job.N S (k / 2) (m + N * (k % 2)))) := by
  have on : job.sigsheets ≠ 0 := by omega
  have same : job.N = job.pagefactor := by rw [hN, hp]
  have half : (if job.N = job.pagefactor then (k : ℤ).tdiv 2 else k) = ((k / 2 : ℕ) : ℤ) := by
    rw [if_pos same]
    norm_cast
  have side : (if job.N = job.pagefactor ∧ (k : ℤ) % 2 = 1 then (m : ℤ) + job.N else m) =
      ((m + N * (k % 2) : ℕ) : ℤ) := by
    rcases Nat.mod_two_eq_zero_or_one k with h | h
    · have hk : ¬ (k : ℤ) % 2 = 1 := by omega
      simp [hk, h]
    · have hk : (k : ℤ) % 2 = 1 := by omega
      simp [hk, h, same, hp]
  have inside : job.N = 2 → m + N * (k % 2) < 4 := by
    intro h
    have h2 : N = 2 := by omega
    have := hm h2
    subst h2
    omega
  have value : sigNumber job.N S (k / 2) (m + N * (k % 2)) ≠ -1 := by
    have : 0 ≤ sigNumber job.N S (k / 2) (m + N * (k % 2)) := by
      rw [sigNumber, hN]
      split_ifs <;> positivity
    omega
  rw [Job.pagenumber, if_neg on, Job.signature_eq hb hS pos inside half side]
  show Except.ok _ = _
  rw [if_neg value]

/-- No place of a sheet is fatal. -/
theorem Job.placed_of_signatures {k : ℕ} (hk : k < job.sheets.toNat) : job.Placed k := by
  intro m hm
  have hpf : 0 < job.pagefactor := by omega
  have on : job.sigsheets ≠ 0 := by omega
  -- A two up sheet with more than four places is not among the sheets.
  have four : job.N = 2 → job.pagefactor ≤ 4 := by
    intro hN
    by_contra h
    have : (job.N * 2).tdiv job.pagefactor = 0 :=
      Int.tdiv_eq_zero_of_lt (by omega) (by omega)
    rw [Job.sheets, if_neg on, this] at hk
    simp at hk
  by_cases hN : job.N = job.pagefactor
  · obtain ⟨N, hN'⟩ : ∃ N : ℕ, job.N = N := ⟨job.N.toNat, by omega⟩
    have number := Job.pagenumber_simplex hb hS pos hN' (by omega) (k := k) (m := m)
      (by intro h; omega)
    rw [Job.place, number]
  · have number := Job.pagenumber_duplex hb hS pos hN (k := k) (m := m)
      (by intro h; have := four h; omega)
    rw [Job.place, number]

end Signatures

theorem Job.placed {job : Job} (hb : job.sigsheets ≠ 0 → job.sigpart = .both)
    (hs : job.selected ≠ []) {k : ℕ} (hk : k < job.sheets.toNat) : job.Placed k := by
  by_cases off : job.sigsheets = 0
  · intro m _
    rw [Job.place, job.pagenumber_inOrder off]
  · have pages : 0 < job.pages := by
      by_contra h
      exact hs (Job.selected_eq_nil_of_pages (by omega))
    have nonneg := job.sigsheets_nonneg pages
    obtain ⟨S, hS⟩ : ∃ S : ℕ, job.sigsheets = S := ⟨job.sigsheets.toNat, by omega⟩
    exact Job.placed_of_signatures (hb off) hS (by omega) hk

/-! ## When every page has one place -/

theorem le_ceil_mul (n : ℕ) {b : ℕ} (hb : 0 < b) : n ≤ (n + b - 1) / b * b := by
  have split := Nat.div_add_mod (n + b - 1) b
  have rest := Nat.mod_lt (n + b - 1) hb
  rw [Nat.mul_comm]
  omega

theorem Job.pagemaskCount_eq {job : Job} (hs : job.selected ≠ []) :
    job.pagemaskCount = job.selected.length := by
  refine (job.selected_length ?_).symm
  by_contra h
  exact hs (Job.selected_eq_nil_of_pages (by omega))

theorem Job.pages_pos {job : Job} (hs : job.selected ≠ []) : 0 < job.pages := by
  by_contra h
  exact hs (Job.selected_eq_nil_of_pages (by omega))

theorem Job.sheets_inOrder {job : Job} (off : job.sigsheets = 0) (hs : job.selected ≠ []) {P : ℕ}
    (hP : job.pagefactor = P) (pos : 0 < P) :
    job.sheets = ((job.selected.length + P - 1) / P : ℕ) := by
  rw [Job.sheets, if_pos off, Job.pagemaskCount_eq hs, hP]
  have : ((job.selected.length : ℤ) + P - 1) = ((job.selected.length + P - 1 : ℕ) : ℤ) := by omega
  rw [this]
  norm_cast

theorem Job.sheets_signatures {job : Job} (hs : job.selected ≠ []) {S N P : ℕ}
    (hS : job.sigsheets = S) (hN : job.N = N) (hP : job.pagefactor = P) (posS : 0 < S)
    (posN : 0 < N) :
    job.sheets =
      ((job.selected.length + N * 2 * S - 1) / (N * 2 * S) * S * (N * 2 / P) : ℕ) := by
  have on : job.sigsheets ≠ 0 := by omega
  have pos : 0 < N * 2 * S := by positivity
  rw [Job.sheets, if_neg on, Job.pagemaskCount_eq hs, hP, hN, hS]
  have : ((job.selected.length : ℤ) + N * 2 * S - 1) =
      ((job.selected.length + N * 2 * S - 1 : ℕ) : ℤ) := by
    push_cast [Nat.cast_sub (by omega : 1 ≤ job.selected.length + N * 2 * S)]
    ring
  rw [this]
  norm_cast

/-- Every selected page has one place on the sheets. -/
def Job.AllPlaced (job : Job) : Prop :=
  ∀ i < job.selected.length, OnOnePlace job.place job.sheets.toNat job.pagefactor.toNat (i : ℕ)

theorem Job.allPlaced_inOrder {job : Job} (off : job.sigsheets = 0) (hs : job.selected ≠ [])
    (hp : 0 < job.pagefactor) : job.AllPlaced := by
  obtain ⟨P, hP⟩ : ∃ P : ℕ, job.pagefactor = P := ⟨job.pagefactor.toNat, by omega⟩
  have pos : 0 < P := by omega
  have count := job.sheets_inOrder off hs hP pos
  intro i hi
  rw [count, hP, Int.toNat_natCast, Int.toNat_natCast]
  refine (onOnePlace_inOrder (lt_of_lt_of_le hi (le_ceil_mul _ pos))).congr fun k _ m _ => ?_
  rw [Job.place, job.pagenumber_inOrder off, hP]
  norm_cast

section Signatures

variable {job : Job} (hb : job.sigpart = .both) {S : ℕ} (hS : job.sigsheets = S) (pos : 0 < S)
  (hs : job.selected ≠ [])

include hb hS pos hs

/-- Two up every signature is folded right, in simplex and in duplex. -/
theorem Job.allPlaced_twoUp (hN : job.N = 2) (hp : job.pagefactor = 2 ∨ job.pagefactor = 4) :
    job.AllPlaced := by
  have hN' : job.N = (2 : ℕ) := hN
  have folded : ∀ k m, sigNumber job.N S k m =
      ((k / S * (4 * S) + foldPage S (k % S) m : ℕ) : ℤ) := by
    intro k m
    rw [sigNumber, if_pos hN, hN]
    push_cast
    ring
  have room : ∀ i < job.selected.length,
      i < (job.selected.length + 2 * 2 * S - 1) / (2 * 2 * S) * (4 * S) :=
    fun i hi => lt_of_lt_of_le hi (le_ceil_mul _ (by omega : 0 < 4 * S))
  intro i hi
  rcases hp with hp | hp
  · have hP : job.pagefactor = (2 : ℕ) := hp
    rw [job.sheets_signatures hs hS hN' hP pos (by decide), hP, Int.toNat_natCast,
      Int.toNat_natCast]
    refine (OnOnePlace.sides (N := 2) (onOnePlace_folded pos (room i hi))).congr
      fun k _ m hm => ?_
    rw [Job.place, Job.pagenumber_simplex hb hS pos hN' hP (fun _ => hm), folded]
  · have hP : job.pagefactor = (4 : ℕ) := hp
    rw [job.sheets_signatures hs hS hN' hP pos (by decide), hP, Int.toNat_natCast,
      Int.toNat_natCast, Nat.mul_one]
    refine (onOnePlace_folded pos (room i hi)).congr fun k _ m hm => ?_
    rw [Job.place, Job.pagenumber_duplex hb hS pos (by omega) (fun _ => hm), folded,
      if_neg (by omega)]

end Signatures

/-- Not two up, a signature of one sheet is filled in order. -/
theorem Job.allPlaced_oneSheet {job : Job} (hb : job.sigpart = .both) (hS : job.sigsheets = 1)
    (hs : job.selected ≠ []) {N : ℕ} (hN : job.N = N) (posN : 0 < N) (two : N ≠ 2) {P : ℕ}
    (hP : job.pagefactor = P) (posP : 0 < P) (hle : P ≤ 2 * N)
    (hp : P = N ∨ P = 2 * N ∨ job.selected.length ≤ P) : job.AllPlaced := by
  have hS' : job.sigsheets = (1 : ℕ) := hS
  have two' : job.N ≠ 2 := by omega
  have inOrder : ∀ k m, sigNumber job.N 1 k m = ((k * (2 * N) + m : ℕ) : ℤ) := by
    intro k m
    rw [sigNumber, if_neg two', hN, Nat.div_one]
    push_cast
    ring
  have room : ∀ i < job.selected.length,
      i < (job.selected.length + N * 2 * 1 - 1) / (N * 2 * 1) * (2 * N) := by
    intro i hi
    have room := le_ceil_mul job.selected.length (by omega : 0 < N * 2 * 1)
    rw [Nat.mul_one] at room ⊢
    rw [Nat.mul_comm 2 N]
    exact lt_of_lt_of_le hi room
  intro i hi
  rw [job.sheets_signatures hs hS' hN hP (by decide) posN, hP, Int.toNat_natCast,
    Int.toNat_natCast, Nat.mul_one]
  by_cases simplex : P = N
  · subst simplex
    rw [Nat.mul_div_cancel_left 2 posN]
    refine (OnOnePlace.sides (onOnePlace_inOrder (room i hi))).congr fun k _ m hm => ?_
    rw [Job.place, Job.pagenumber_simplex hb hS' (by decide) hN hP (by intro h; omega), inOrder]
  · have number : ∀ k m, job.place k m = some ((k * (2 * N) + m : ℕ) : ℤ) := by
      intro k m
      rw [Job.place, Job.pagenumber_duplex hb hS' (by decide) (by omega)
        (by intro h; omega), inOrder, if_neg (by omega)]
    by_cases duplex : P = 2 * N
    · have one : N * 2 / P = 1 := by
        rw [duplex, Nat.mul_comm]
        exact Nat.div_self (by omega)
      rw [one, Nat.mul_one, duplex]
      exact (onOnePlace_inOrder (room i hi)).congr fun k _ m _ => (number k m).symm
    · -- All pages are on the first sheet.
      have few : job.selected.length ≤ P := by omega
      have one : (job.selected.length + N * 2 * 1 - 1) / (N * 2 * 1) = 1 := by
        rw [Nat.div_eq_iff (by omega)]
        omega
      have sheets : 0 < N * 2 / P := Nat.div_pos (by omega) posP
      rw [one, Nat.one_mul]
      refine ⟨(0, i), ⟨⟨sheets, by show i < P; omega⟩, by rw [number]; simp⟩, ?_⟩
      rintro ⟨k, m⟩ ⟨⟨-, hm⟩, h⟩
      have hm : m < P := hm
      rw [number] at h
      have h : k * (2 * N) + m = 0 * (2 * N) + i := by
        have : k * (2 * N) + m = i := by exact_mod_cast Option.some.inj h
        omega
      obtain ⟨rfl, rfl⟩ := block_unique (by omega : m < 2 * N) (by omega : i < 2 * N) h
      rfl

/-! ## When a page is lost or repeated -/

/-- A page without a place. -/
theorem Job.not_allPlaced_of_lost {job : Job} {i : ℕ} (hi : i < job.selected.length)
    (lost : ∀ k < job.sheets.toNat, ∀ m < job.pagefactor.toNat, job.place k m ≠ some (i : ℕ)) :
    ¬ job.AllPlaced := by
  intro h
  obtain ⟨⟨k, m⟩, ⟨⟨hk, hm⟩, hn⟩, -⟩ := h i hi
  exact lost k hk m hm hn

section Signatures

variable {job : Job} (hb : job.sigpart = .both) {S : ℕ} (hS : job.sigsheets = S) (pos : 0 < S)
  (hs : job.selected ≠ [])

include hb hS pos hs

/-- Two up on a sheet that has neither two nor four places the first page is lost. -/
theorem Job.not_allPlaced_twoUp (hN : job.N = 2) (h2 : job.pagefactor ≠ 2)
    (h4 : job.pagefactor ≠ 4) : ¬ job.AllPlaced := by
  refine Job.not_allPlaced_of_lost (i := 0) (List.length_pos_of_ne_nil hs) fun k hk m hm => ?_
  have placed := Job.placed_of_signatures hb hS pos hk
  have le : job.pagefactor ≤ 4 := by
    by_contra h
    have zero : (job.N * 2).tdiv job.pagefactor = 0 :=
      Int.tdiv_eq_zero_of_lt (by omega) (by omega)
    rw [Job.sheets, if_neg (by omega), zero] at hk
    simp at hk
  have three : m < 3 := by omega
  have hr : k % S < S := Nat.mod_lt k pos
  rw [Job.place, Job.pagenumber_duplex hb hS pos (by omega) (fun _ => by omega)]
  have value : 0 < sigNumber job.N S k m := by
    have : 0 < foldPage S (k % S) m := by
      interval_cases m <;> simp only [foldPage] <;> omega
    rw [sigNumber, if_pos hN, hN]
    positivity
  split_ifs
  · simp
  · intro h
    have h := Option.some.inj h
    simp only [Nat.cast_zero] at h
    omega

/-- Not two up, the sheets of a longer signature all hold the same pages. -/
theorem Job.not_allPlaced_longer {N : ℕ} (hN : job.N = N) (posN : 0 < N) (two : N ≠ 2)
    (longer : S ≠ 1) (hp : 0 < job.pagefactor) : ¬ job.AllPlaced := by
  have two' : job.N ≠ 2 := by omega
  obtain ⟨P, hP⟩ : ∃ P : ℕ, job.pagefactor = P := ⟨job.pagefactor.toNat, by omega⟩
  have count := job.sheets_signatures hs hS hN hP pos posN
  intro h
  obtain ⟨⟨k, m⟩, ⟨⟨hk, hm⟩, -⟩, hu⟩ := h 0 (List.length_pos_of_ne_nil hs)
  have hm : 0 < job.pagefactor.toNat := by omega
  have hk : k < job.sheets.toNat := hk
  -- There is a whole number of signatures on the sheets.
  have enough : S * (N * 2 / P) ≤ job.sheets.toNat ∧ 0 < N * 2 / P := by
    rw [count, Int.toNat_natCast] at hk ⊢
    have pos' : 0 < (job.selected.length + N * 2 * S - 1) / (N * 2 * S) * S * (N * 2 / P) := by
      omega
    have h1 : 0 < (job.selected.length + N * 2 * S - 1) / (N * 2 * S) := by
      by_contra h0
      rw [Nat.eq_zero_of_not_pos h0] at pos'
      simp at pos'
    refine ⟨?_, Nat.pos_of_mul_pos_left pos'⟩
    rw [Nat.mul_assoc]
    exact Nat.le_mul_of_pos_left _ h1
  by_cases simplex : job.N = job.pagefactor
  · have hPN : P = N := by omega
    have sheets : S * 2 ≤ job.sheets.toNat := by
      have := enough.1
      rwa [hPN, Nat.mul_div_cancel_left 2 posN] at this
    have at0 : ∀ k, k % 2 = 0 → k / 2 < S → job.place k 0 = some ((0 : ℕ) : ℤ) := by
      intro k h0 hk
      rw [Job.place, Job.pagenumber_simplex hb hS pos hN (by omega) (by intro h; omega), sigNumber,
        if_neg two', h0, Nat.div_eq_of_lt hk]
      simp
    have e0 := hu (0, 0) ⟨⟨by show 0 < _; omega, hm⟩, at0 0 (by omega) (by omega)⟩
    have e2 := hu (2, 0) ⟨⟨by show 2 < _; omega, hm⟩, at0 2 (by omega) (by omega)⟩
    exact absurd (e0.trans e2.symm) (by decide)
  · have sheets : S ≤ job.sheets.toNat := le_trans (Nat.le_mul_of_pos_right S enough.2) enough.1
    have at0 : ∀ k < S, job.place k 0 = some ((0 : ℕ) : ℤ) := by
      intro k hk
      rw [Job.place, Job.pagenumber_duplex hb hS pos simplex (fun h => absurd h two'), sigNumber,
        if_neg two', Nat.div_eq_of_lt hk]
      simp
    have e0 := hu (0, 0) ⟨⟨by show 0 < _; omega, hm⟩, at0 0 (by omega)⟩
    have e1 := hu (1, 0) ⟨⟨by show 1 < _; omega, hm⟩, at0 1 (by omega)⟩
    exact absurd (e0.trans e1.symm) (by decide)

/-- With a negative N-Up a page past the first sheet is lost. -/
theorem Job.not_allPlaced_negative (hN : job.N < 0) (hp : 0 < job.pagefactor) :
    ¬ job.AllPlaced := by
  have hn := List.length_pos_of_ne_nil hs
  have two : job.N ≠ 2 := by omega
  have number : ∀ k m : ℕ, (m : ℤ) < job.pagefactor → ∀ i : ℕ, job.place k m = some (i : ℤ) →
      (i : ℤ) < job.pagefactor := by
    intro k m hm i h
    rw [Job.place, Job.pagenumber_duplex hb hS pos (by omega) (fun h => absurd h two)] at h
    have : ((k / S : ℕ) : ℤ) * (job.N * 2 * S) ≤ 0 := by
      refine mul_nonpos_of_nonneg_of_nonpos (by positivity) ?_
      exact mul_nonpos_of_nonpos_of_nonneg (by omega) (by positivity)
    have value : sigNumber job.N S k m ≤ m := by
      rw [sigNumber, if_neg two]
      omega
    dsimp only at h
    split_ifs at h
    have := Option.some.inj h
    omega
  by_cases none : job.sheets ≤ 0
  · exact Job.not_allPlaced_of_lost hn fun k hk => by omega
  · -- Then there are more pages than places.
    have more : job.pagefactor < job.selected.length := by
      rw [Job.sheets, if_neg (by omega), Job.pagemaskCount_eq hs, hS] at none
      by_contra le
      have double : job.pagefactor ≤ -(job.N * 2) := by
        by_contra h
        have zero : (job.N * 2).tdiv job.pagefactor = 0 := by
          have := Int.tdiv_eq_zero_of_lt (by omega : 0 ≤ -(job.N * 2)) (not_le.1 h)
          rw [Int.neg_tdiv] at this
          omega
        rw [zero] at none
        simp at none
      have whole : job.N * 2 * S ≤ job.N * 2 := by nlinarith
      have signatures : 0 ≤ ((job.selected.length : ℤ) + job.N * 2 * S - 1).tdiv
          (job.N * 2 * S) := Int.tdiv_nonneg_of_nonpos_of_nonpos (by omega) (by omega)
      have halves : (job.N * 2).tdiv job.pagefactor ≤ 0 := by
        have := Int.tdiv_nonneg (by omega : 0 ≤ -(job.N * 2)) hp.le
        rw [Int.neg_tdiv] at this
        omega
      exact none (mul_nonpos_of_nonneg_of_nonpos (by positivity) halves)
    refine Job.not_allPlaced_of_lost (i := job.pagefactor.toNat) (by omega) fun k _ m hm h => ?_
    have := number k m (by omega) _ h
    omega

end Signatures

/-- One sheet with fewer places than pages loses the first page that does not fit. -/
theorem Job.not_allPlaced_oneSheet {job : Job} (hb : job.sigpart = .both) (hS : job.sigsheets = 1)
    (hs : job.selected ≠ []) {N : ℕ} (hN : job.N = N) (posN : 0 < N) (two : N ≠ 2) {P : ℕ}
    (hP : job.pagefactor = P) (posP : 0 < P)
    (hp : ¬ (P ≤ 2 * N ∧ (P = N ∨ P = 2 * N ∨ job.selected.length ≤ P))) : ¬ job.AllPlaced := by
  have hS' : job.sigsheets = (1 : ℕ) := hS
  by_cases hle : P ≤ 2 * N
  · refine Job.not_allPlaced_of_lost (i := P) (by omega) fun k hk m hm => ?_
    rw [Job.place, Job.pagenumber_duplex hb hS' (by decide) (by omega) (by intro h; omega)]
    have value : sigNumber job.N 1 k m = ((k * (2 * N) + m : ℕ) : ℤ) := by
      rw [sigNumber, if_neg (by omega), hN, Nat.div_one]
      push_cast
      ring
    rw [value, if_neg (by omega)]
    intro h
    have h : k * (2 * N) + m = 0 * (2 * N) + P := by
      have : k * (2 * N) + m = P := by exact_mod_cast Option.some.inj h
      omega
    have hm : m < P := by omega
    obtain ⟨-, hmP⟩ := block_unique (by omega : m < 2 * N) (by omega : P < 2 * N) h
    omega
  · have zero : N * 2 / P = 0 := Nat.div_eq_of_lt (by omega)
    refine Job.not_allPlaced_of_lost (List.length_pos_of_ne_nil hs) fun k hk => ?_
    rw [job.sheets_signatures hs hS' hN hP (by decide) posN, zero] at hk
    simp at hk

/-- The sheets have a place for every page: without signatures always, two up when a sheet is a
sheet of paper or a side, and otherwise when a signature is one sheet and the pages fit. -/
def Job.SheetsFit (job : Job) : Prop :=
  0 < job.pagefactor ∧ (job.sigsheets = 0 ∨
    (job.N = 2 ∧ (job.pagefactor = 2 ∨ job.pagefactor = 4)) ∨
    (job.N ≠ 2 ∧ 0 < job.N ∧ job.sigsheets = 1 ∧ job.pagefactor ≤ 2 * job.N ∧
      (job.pagefactor = job.N ∨ job.pagefactor = 2 * job.N ∨
        job.selected.length ≤ job.pagefactor)))

instance (job : Job) : Decidable job.SheetsFit := inferInstanceAs (Decidable (_ ∧ _))

theorem Job.allPlaced_iff {job : Job} (hb : job.sigsheets ≠ 0 → job.sigpart = .both)
    (hs : job.selected ≠ []) (hd : job.Divides) : job.AllPlaced ↔ job.SheetsFit := by
  by_cases hp : 0 < job.pagefactor
  swap
  · -- Without places nothing is placed.
    refine ⟨fun h => absurd h ?_, fun h => absurd h.1 hp⟩
    exact Job.not_allPlaced_of_lost (List.length_pos_of_ne_nil hs) fun k _ m hm => by omega
  by_cases off : job.sigsheets = 0
  · exact ⟨fun _ => ⟨hp, .inl off⟩, fun _ => Job.allPlaced_inOrder off hs hp⟩
  have hb := hb off
  have nonneg := job.sigsheets_nonneg (Job.pages_pos hs)
  obtain ⟨S, hS⟩ : ∃ S : ℕ, job.sigsheets = S := ⟨job.sigsheets.toNat, by omega⟩
  have pos : 0 < S := by omega
  by_cases two : job.N = 2
  · by_cases h24 : job.pagefactor = 2 ∨ job.pagefactor = 4
    · exact ⟨fun _ => ⟨hp, .inr (.inl ⟨two, h24⟩)⟩,
        fun _ => Job.allPlaced_twoUp hb hS pos hs two h24⟩
    · refine ⟨fun h => absurd h ?_, ?_⟩
      · rw [not_or] at h24
        exact Job.not_allPlaced_twoUp hb hS pos hs two h24.1 h24.2
      · rintro ⟨-, h | ⟨-, h⟩ | ⟨h, -⟩⟩
        · exact absurd h off
        · exact absurd h h24
        · exact absurd two h
  by_cases posN : 0 < job.N
  swap
  · refine ⟨fun h => absurd h ?_, ?_⟩
    · exact Job.not_allPlaced_negative hb hS pos hs (by have := hd.2 off; omega) hp
    · rintro ⟨-, h | ⟨h, -⟩ | ⟨-, h, -⟩⟩
      · exact absurd h off
      · exact absurd h two
      · exact absurd h posN
  obtain ⟨N, hN⟩ : ∃ N : ℕ, job.N = N := ⟨job.N.toNat, by omega⟩
  obtain ⟨P, hP⟩ : ∃ P : ℕ, job.pagefactor = P := ⟨job.pagefactor.toNat, by omega⟩
  constructor
  · intro h
    by_contra hfit
    by_cases one : job.sigsheets = 1
    · refine Job.not_allPlaced_oneSheet hb one hs hN (by omega) (by omega) hP (by omega) ?_ h
      rintro ⟨h1, h2⟩
      exact hfit ⟨hp, .inr (.inr ⟨two, posN, one, by omega, by omega⟩)⟩
    · exact Job.not_allPlaced_longer hb hS pos hs hN (by omega) (by omega) (by omega) hp h
  · rintro ⟨-, h | ⟨h, -⟩ | ⟨-, -, one, h1, h2⟩⟩
    · exact absurd h off
    · exact absurd h two
    · exact Job.allPlaced_oneSheet hb one hs hN (by omega) (by omega) hP (by omega) (by omega)
        (by omega)

end Ppr.Pprdrv
