import Ppr.Pprdrv.UsedSheets

/-!
# The charge against the sheets

The formulas of the charge and of the print log evaluated, and compared with the sheets used.
-/

namespace Ppr.Pprdrv

/-! ## The comparison -/

/-- The charge and the log in terms of one copy. -/
theorem Job.chargedAsPrinted_iff_of {job : Job} {printer : Printer} {perDuplex perSimplex : ℤ}
    {k z d s : ℤ} (hk : job.sheetcount = .ok k) (hz : job.sidecount k = .ok z)
    (hd : chargedSheets job.pagemaskCount job.N job.pagefactor job.sigsheets job.sigpart =
      .ok (d, s)) (hc : 1 ≤ job.copies) :
    job.ChargedAsPrinted printer perDuplex perSimplex ↔ ∃ out, Returns job printer out ∧
      d * job.copies = job.sheetsWith 2 out * job.selectCopiesMethod.auto ∧
      s * job.copies = job.sheetsWith 1 out * job.selectCopiesMethod.auto ∧
      k = d + s ∧ z = 2 * d + s := by
  have charge : job.charge perDuplex perSimplex = .ok
      { perDuplex, perSimplex, duplexSheets := d * job.copies, simplexSheets := s * job.copies
        total := d * job.copies * perDuplex + s * job.copies * perSimplex } := by
    rw [Job.charge, computeCharge, hd]
    show Except.ok _ = _
    rw [if_pos (by omega : 0 ≤ job.copies)]
  have times : (if 1 < job.copies then job.copies else 1) = job.copies := by
    split_ifs <;> omega
  obtain ⟨cents, log⟩ : ∃ cents, job.printerUseLog perDuplex perSimplex = .ok
      { pages := job.pagemaskCount, totalPrintedSheets := k * job.copies
        totalPrintedSides := z * job.copies, charge := cents } := by
    unfold Job.printerUseLog
    rw [hk]
    show ∃ cents, (job.sidecount k >>= _) = _
    rw [hz, charge, times]
    by_cases h : 0 < perDuplex ∨ 0 < perSimplex
    · exact ⟨_, by rw [if_pos h]; rfl⟩
    · exact ⟨0, by rw [if_neg h]; rfl⟩
  have cancel : ∀ a b : ℤ, a * job.copies = b * job.copies ↔ a = b :=
    fun a b => mul_left_inj' (by omega)
  constructor
  · rintro ⟨out, c, l, ret, hc', hl, h2, h1, hsheets, hsides⟩
    rw [charge] at hc'
    rw [log] at hl
    cases hc'
    cases hl
    dsimp only at hsheets hsides
    refine ⟨out, ret, h2, h1, (cancel _ _).1 ?_, (cancel _ _).1 ?_⟩
    · rw [hsheets]
      ring
    · rw [hsides]
      ring
  · rintro ⟨out, ret, h2, h1, rfl, rfl⟩
    refine ⟨out, _, _, ret, charge, log, h2, h1, ?_, ?_⟩
    · ring
    · ring

/-- When the charge is right: no page is printed, or the document is not sent again and there are no
signatures or duplex ones with both sides that the pages reach. -/
def Job.ChargeFits (job : Job) : Prop :=
  job.selected = [] ∨ (¬ job.Resends ∧ (job.sigsheets = 0 ∨
    (job.sigpart = .both ∧ job.pagefactor = 2 * job.N ∧ job.LastFull)))

theorem cdiv_ceil (n : ℕ) {b : ℕ} (hb : 0 < b) :
    cdiv ((n : ℤ) + b - 1) b = .ok (((n + b - 1) / b : ℕ) : ℤ) := by
  have : (n : ℤ) + b - 1 = ((n + b - 1 : ℕ) : ℤ) := by omega
  rw [cdiv, if_neg (by omega), this]
  norm_cast

/-- The sides of a copy, and of its sheets. -/
theorem ceil_sides {N q r : ℕ} (hr : r < 2 * N) :
    (q * (2 * N) + r + N - 1) / N =
      2 * (q + if N < r then 1 else 0) + if 0 < r ∧ r ≤ N then 1 else 0 := by
  have pos : 0 < N := by omega
  have split : q * (2 * N) + r + N - 1 = r + N - 1 + N * (2 * q) := by
    have : q * (2 * N) = N * (2 * q) := by ring
    omega
  rw [split, Nat.add_mul_div_left _ _ pos]
  have rest : (r + N - 1) / N = 2 * (if N < r then 1 else 0) + if 0 < r ∧ r ≤ N then 1 else 0 := by
    by_cases h0 : 0 < r
    · by_cases h1 : N < r
      · rw [if_pos h1, if_neg (by omega)]
        exact Nat.div_eq_of_lt_le (by omega) (by omega)
      · rw [if_neg h1, if_pos (by omega)]
        exact Nat.div_eq_of_lt_le (by omega) (by omega)
    · rw [if_neg (by omega), if_neg (by omega)]
      exact Nat.div_eq_of_lt (by omega)
  rw [rest]
  omega

theorem ceil_sheets {N q r : ℕ} (hr : r < 2 * N) :
    (q * (2 * N) + r + 2 * N - 1) / (2 * N) = q + if 0 < r then 1 else 0 := by
  have pos : 0 < 2 * N := by omega
  have split : q * (2 * N) + r + 2 * N - 1 = r + 2 * N - 1 + 2 * N * q := by
    have : q * (2 * N) = 2 * N * q := by ring
    omega
  rw [split, Nat.add_mul_div_left _ _ pos]
  have rest : (r + 2 * N - 1) / (2 * N) = if 0 < r then 1 else 0 := by
    by_cases h0 : 0 < r
    · rw [if_pos h0]
      exact Nat.div_eq_of_lt_le (by omega) (by omega)
    · rw [if_neg h0]
      exact Nat.div_eq_of_lt (by omega)
  rw [rest]
  omega

theorem Job.pagemaskCount_of_script {job : Job} (script : job.script = true) :
    job.pagemaskCount = job.selected.length :=
  (job.selected_length (job.script_pages script).le).symm

theorem Job.chargedSheets_inOrder {job : Job} (script : job.script = true) {N : ℕ}
    (hN : job.N = N) (posN : 0 < N) (off : job.sigsheets = 0) {sides : ℕ}
    (hsides : (job.selected.length + N - 1) / N = sides) :
    chargedSheets job.pagemaskCount job.N job.pagefactor job.sigsheets job.sigpart =
      .ok (if job.pagefactor = job.N then (0, (sides : ℤ)) else
        (((sides / 2 : ℕ) : ℤ), ((sides % 2 : ℕ) : ℤ))) ∧
      ∀ k, job.sidecount k = .ok (sides : ℤ) := by
  have div : cdiv (job.pagemaskCount + job.N - 1) job.N = .ok (sides : ℤ) := by
    rw [job.pagemaskCount_of_script script, hN, cdiv_ceil _ posN, hsides]
  constructor
  · rw [chargedSheets, if_neg (by simp [off]), div]
    show (if _ then _ else _) = _
    split_ifs <;> norm_cast
  · intro k
    rw [Job.sidecount, if_pos off, div]

theorem Job.chargedSheets_signatures {job : Job} (script : job.script = true) {N : ℕ}
    (hN : job.N = N) (posN : 0 < N) {P : ℕ} (hP : job.pagefactor = P) (posP : 0 < P) {S : ℕ}
    (hS : job.sigsheets = S) (posS : 0 < S) {sheets : ℕ}
    (hsheets : (job.selected.length + N * 2 * S - 1) / (N * 2 * S) * S = sheets) :
    chargedSheets job.pagemaskCount job.N job.pagefactor job.sigsheets job.sigpart =
      .ok (if job.sigpart = .both then (((sheets * (N * 2 / P) : ℕ) : ℤ), 0)
        else if P = N then (0, (sheets : ℤ)) else ((((sheets + 1) / 2 : ℕ) : ℤ), 0)) ∧
      job.sheetcount = .ok ((sheets * (N * 2 / P) : ℕ) : ℤ) := by
  have on : job.sigsheets ≠ 0 := by omega
  have div : cdiv (job.pagemaskCount + job.N * 2 * job.sigsheets - 1) (job.N * 2 * job.sigsheets) =
      .ok (((job.selected.length + N * 2 * S - 1) / (N * 2 * S) : ℕ) : ℤ) := by
    rw [job.pagemaskCount_of_script script, hN, hS]
    have := cdiv_ceil job.selected.length (by positivity : 0 < N * 2 * S)
    push_cast at this ⊢
    exact this
  have double : cdiv (job.N * 2) job.pagefactor = .ok ((N * 2 / P : ℕ) : ℤ) := by
    rw [hN, hP, cdiv, if_neg (by omega)]
    norm_cast
  have whole : (((job.selected.length + N * 2 * S - 1) / (N * 2 * S) : ℕ) : ℤ) * S = sheets := by
    exact_mod_cast hsheets
  constructor
  · rw [chargedSheets, if_pos on, div]
    show (if _ then _ else _) = _
    by_cases both : job.sigpart = .both
    · rw [if_pos both, if_pos both, double]
      show Except.ok (_, _) = _
      rw [hS, whole]
      norm_cast
    · rw [if_neg both, if_neg both, hS, whole, hN, hP]
      simp only [Nat.cast_inj]
      split_ifs <;> norm_cast
  · rw [Job.sheetcount, if_neg on, div, double]
    show Except.ok _ = _
    rw [hS, whole]
    norm_cast

theorem Job.chargedAsPrinted_of_nil {job : Job} {printer : Printer} {perDuplex perSimplex : ℤ}
    (script : job.script = true) {N : ℕ} (hN : job.N = N) (posN : 0 < N) {P : ℕ}
    (hP : job.pagefactor = P) (posP : 0 < P) (hc : 1 ≤ job.copies) (hs : job.selected = []) :
    job.ChargedAsPrinted printer perDuplex perSimplex := by
  have div : job.Divides := ⟨by omega, fun _ => by omega⟩
  obtain ⟨docs, hdocs⟩ : ∃ docs : ℕ, job.selectCopiesMethod.doc = docs := by
    rcases job.selectCopiesMethod_cases with ⟨h1, -⟩ | ⟨-, -, h3, -⟩ | ⟨-, h2, -⟩
    · exact ⟨1, h1⟩
    · exact ⟨job.copies.toNat, by omega⟩
    · exact ⟨1, h2⟩
  obtain ⟨out, ret, two, one⟩ : ∃ out, Returns job printer out ∧ job.sheetsWith 2 out = 0 ∧
      job.sheetsWith 1 out = 0 := by
    have blank : ∀ s ∈ (List.range docs).flatMap fun _ => Sent.jobStart :: [] ++ [.jobEnd],
        s.isDocument = false := by
      intro s h
      obtain ⟨_, -, h⟩ := List.mem_flatMap.1 h
      simp only [List.cons_append, List.nil_append, List.mem_cons, List.not_mem_nil, or_false] at h
      rcases h with rfl | rfl <;> rfl
    refine ⟨_, returns_of_documents printer [] (job.sheetcount_eq div) hdocs fun fuel => ?_,
      job.sheetsWith_of_no_page blank (by decide), job.sheetsWith_of_no_page blank (by decide)⟩
    rw [if_pos script]
    exact job.copyPages_of_nil hs _ _ _
  have none : ∀ b : ℕ, 0 < b → (job.selected.length + b - 1) / b = 0 := by
    intro b hb
    rw [hs]
    exact Nat.div_eq_of_lt (by simp; omega)
  by_cases off : job.sigsheets = 0
  · have count : job.sheetcount = .ok 0 := by
      have := cdiv_ceil job.selected.length posP
      rw [none P posP] at this
      rw [Job.sheetcount, if_pos off, job.pagemaskCount_of_script script, hP, this]
      rfl
    obtain ⟨charged, sides⟩ := job.chargedSheets_inOrder script hN posN off (none N posN)
    have charged : chargedSheets job.pagemaskCount job.N job.pagefactor job.sigsheets job.sigpart =
        .ok (0, 0) := by
      rw [charged]
      split_ifs <;> rfl
    rw [Job.chargedAsPrinted_iff_of count (sides 0) charged hc]
    exact ⟨out, ret, by simp [two], by simp [one], rfl, rfl⟩
  · have nonneg := job.sigsheets_nonneg (job.script_pages script)
    obtain ⟨S, hS⟩ : ∃ S : ℕ, job.sigsheets = S := ⟨job.sigsheets.toNat, by omega⟩
    have posS : 0 < S := by omega
    have zero : (job.selected.length + N * 2 * S - 1) / (N * 2 * S) * S = 0 := by
      rw [none _ (by positivity), Nat.zero_mul]
    obtain ⟨charged, count⟩ := job.chargedSheets_signatures script hN posN hP posP hS posS zero
    have charged : chargedSheets job.pagemaskCount job.N job.pagefactor job.sigsheets job.sigpart =
        .ok (0, 0) := by
      rw [charged]
      split_ifs <;> simp
    have sides : job.sidecount 0 = .ok 0 := by
      rw [Job.sidecount, if_neg off]
      split_ifs <;> rfl
    rw [Job.chargedAsPrinted_iff_of (by simpa using count) sides charged hc]
    exact ⟨out, ret, by simp [two], by simp [one], rfl, rfl⟩

/-- What is sent when the document is sent once. -/
theorem Job.returns_of_not_resends {job : Job} (printer : Printer) (script : job.script = true)
    (hb : job.sigsheets ≠ 0 → job.sigpart = .both) (hd : job.Divides) (hs : job.selected ≠ [])
    (hn : 0 ≤ job.sheets) (once : ¬ job.Resends) (hc : 1 ≤ job.copies) :
    ∃ copies : ℕ, 0 < copies ∧ (copies : ℤ) * job.selectCopiesMethod.auto = job.copies ∧
      Returns job printer
        (.jobStart :: job.sentPages printer job.sheets.toNat copies ++ [.jobEnd]) := by
  obtain ⟨hdoc, copies, hcp, hprod⟩ := job.copies_of_not_resends script once
  have count : job.sheetcount = .ok (job.sheets.toNat : ℤ) := by
    rw [job.sheetcount_eq hd, Int.toNat_of_nonneg hn]
  refine ⟨copies, ?_, hprod, returns_of_pages printer count hdoc hcp script hs
    fun k hk => job.placed hb hs hk⟩
  rcases Nat.eq_zero_or_pos copies with rfl | h
  · simp at hprod
    omega
  · exact h

theorem Job.chargedAsPrinted_inOrder {job : Job} {printer : Printer} {perDuplex perSimplex : ℤ}
    (script : job.script = true) {N : ℕ} (hN : job.N = N) (posN : 0 < N)
    (hp : job.pagefactor = job.N ∨ job.pagefactor = 2 * job.N) (hc : 1 ≤ job.copies)
    (hs : job.selected ≠ []) (once : ¬ job.Resends) (off : job.sigsheets = 0) :
    job.ChargedAsPrinted printer perDuplex perSimplex := by
  obtain ⟨P, hP, posP⟩ : ∃ P : ℕ, job.pagefactor = P ∧ 0 < P :=
    ⟨job.pagefactor.toNat, by omega, by omega⟩
  have div : job.Divides := ⟨by omega, fun h => absurd off h⟩
  have count := job.sheets_inOrder off hs hP posP
  have nonneg : 0 ≤ job.sheets := by
    rw [count]
    exact Int.natCast_nonneg _
  obtain ⟨copies, posC, hprod, ret⟩ := job.returns_of_not_resends printer script
    (fun h => absurd off h) div hs nonneg once hc
  have used := Job.sheetsWith_inOrder off hs hN posN hP posP printer posC
  obtain ⟨charged, sides⟩ := job.chargedSheets_inOrder script hN posN off rfl
  -- It is enough to compare one copy.
  have compare : ∀ {d s : ℕ}, job.sheetsInOrder job.sheets.toNat N 2 = d →
      job.sheetsInOrder job.sheets.toNat N 1 = s →
      chargedSheets job.pagemaskCount job.N job.pagefactor job.sigsheets job.sigpart =
        .ok ((d : ℤ), (s : ℤ)) → job.sheets = d + s →
      (job.selected.length + N - 1) / N = 2 * d + s →
      job.ChargedAsPrinted printer perDuplex perSimplex := by
    intro d s h2 h1 charged hsheets hsides
    rw [Job.chargedAsPrinted_iff_of (job.sheetcount_eq div) (sides _) charged hc]
    refine ⟨_, ret, ?_, ?_, hsheets, by rw [hsides]; push_cast; ring⟩
    · rw [used, h2, ← hprod]
      push_cast
      ring
    · rw [used, h1, ← hprod]
      push_cast
      ring
  rcases hp with hp | hp
  · have hPN : P = N := by omega
    subst hPN
    have some_ : ∀ k < job.sheets.toNat, 0 < job.pagesOn k := job.pagesOn_pos off hs hP posP
    obtain ⟨h2, h1⟩ := job.sheetsInOrder_simplex hP some_
    rw [if_pos (by omega)] at charged
    refine compare h2 h1 ?_ (by simpa using (Int.toNat_of_nonneg nonneg).symm) ?_
    · rw [charged, count, Int.toNat_natCast]
      rfl
    · rw [count, Int.toNat_natCast]
      omega
  · have hP2 : P = 2 * N := by omega
    subst hP2
    obtain ⟨q, r, hn, hr⟩ : ∃ q r, job.selected.length = q * (2 * N) + r ∧ r < 2 * N :=
      ⟨job.selected.length / (2 * N), job.selected.length % (2 * N),
        (Nat.div_add_mod' _ _).symm, Nat.mod_lt _ (by omega)⟩
    have sheets : job.sheets = ((q + if 0 < r then 1 else 0 : ℕ) : ℤ) := by
      rw [count, hn, ceil_sheets hr]
    have hsides : (job.selected.length + N - 1) / N =
        2 * (q + if N < r then 1 else 0) + if 0 < r ∧ r ≤ N then 1 else 0 := by
      rw [hn, ceil_sides hr]
    obtain ⟨h2, h1⟩ := job.sheetsInOrder_duplex hP hn hr
    rw [if_neg (by omega), hsides] at charged
    rw [← Int.toNat_natCast (q + if 0 < r then 1 else 0), ← sheets] at h2 h1
    refine compare h2 h1 ?_ ?_ hsides
    · rw [charged]
      congr 3
      · split_ifs <;> omega
      · split_ifs <;> omega
    · rw [sheets]
      split_ifs <;> push_cast <;> omega

theorem Job.chargedAsPrinted_duplex_iff {job : Job} {printer : Printer}
    {perDuplex perSimplex : ℤ} (script : job.script = true) {N : ℕ} (hN : job.N = N)
    (posN : 0 < N) (hP : job.pagefactor = (2 * N : ℕ)) (hc : 1 ≤ job.copies)
    (hs : job.selected ≠ []) (once : ¬ job.Resends) {S : ℕ} (hS : job.sigsheets = S)
    (posS : 0 < S) (hb : job.sigpart = .both) :
    job.ChargedAsPrinted printer perDuplex perSimplex ↔ job.LastFull := by
  have div : job.Divides := ⟨by omega, fun _ => by omega⟩
  have one : N * 2 / (2 * N) = 1 := by
    rw [Nat.mul_comm]
    exact Nat.div_self (by omega)
  have count := job.sheets_signatures hs hS hN hP posS posN
  rw [one, Nat.mul_one] at count
  have nonneg : 0 ≤ job.sheets := by
    rw [count]
    exact Int.natCast_nonneg _
  obtain ⟨copies, posC, hprod, ret⟩ := job.returns_of_not_resends printer script
    (fun _ => hb) div hs nonneg once hc
  have used := Job.sheetsWith_signatures hb hS posS hN posN hP hs printer posC
  obtain ⟨charged, -⟩ := job.chargedSheets_signatures script hN posN hP (by omega) hS posS rfl
  rw [if_pos hb, one, Nat.mul_one, ← count] at charged
  have sides : job.sidecount job.sheets = .ok (job.sheets * 2) := by
    rw [Job.sidecount, if_neg (by omega), if_pos hb]
  rw [Job.chargedAsPrinted_iff_of (job.sheetcount_eq div) sides charged hc,
    ← Job.all_duplex_iff hb hS posS hN posN hP hs]
  have all : (∀ k < job.sheets.toNat, printedSides N (job.sentSheet true k) = 2) ↔
      ((List.range job.sheets.toNat).countP fun k =>
        printedSides N (job.sentSheet true k) == 2) = job.sheets.toNat := by
    have h := List.countP_eq_length (p := fun k => printedSides N (job.sentSheet true k) == 2)
      (l := List.range job.sheets.toNat)
    rw [List.length_range] at h
    rw [h]
    simp [List.mem_range]
  rw [all]
  constructor
  · rintro ⟨out, hout, h2, -⟩
    obtain rfl := hout.unique ret
    rw [used, Nat.cast_mul, mul_right_comm, hprod, mul_comm] at h2
    have := mul_left_cancel₀ (by omega) h2
    omega
  · intro h
    have none : ((List.range job.sheets.toNat).countP fun k =>
        printedSides N (job.sentSheet true k) == 1) = 0 := by
      rw [List.countP_eq_zero]
      intro k hk
      simp [all.2 h k (List.mem_range.1 hk)]
    refine ⟨_, ret, ?_, ?_, by ring, by ring⟩
    · rw [used, h, Nat.cast_mul, mul_right_comm, hprod, Int.toNat_of_nonneg nonneg, mul_comm]
    · rw [used, none]
      simp

/-- The fronts of a two up signature of one sheet, in simplex. -/
def frontsOnly : Job where
  pages := 4
  pageorder := .ascend
  pagefactor := 2
  script := true
  N := 2
  sigsheets := 1
  sigpart := .fronts
  copies := 1
  collate := false
  mask := none
  mask_length := by simp
  script_pages := by decide
  sigsheets_nonneg := by decide

end Ppr.Pprdrv
