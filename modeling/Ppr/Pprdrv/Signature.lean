import Ppr.Pprdrv.Places

/-!
# Signatures

What `signature()` promises of a booklet: every page number has one place, each side of a leaf is
printed by itself when it is asked for, and two up the back of a leaf continues its front.
-/

namespace Ppr.Pprdrv

/-- The job with another `sigpart`. -/
def Job.withPart (job : Job) (part : SigPart) : Job :=
  { job with
    sigpart := part
    mask_length := job.mask_length
    script_pages := job.script_pages
    sigsheets_nonneg := job.sigsheets_nonneg }

/-- What `ppr` makes of a job with signatures: the number of virtual pages on a sheet is that on one
side of it in simplex, and that on both in duplex. -/
structure Job.HasSignatures (job : Job) : Prop where
  on : 1 ≤ job.sigsheets
  up : 1 ≤ job.N
  factor : job.pagefactor = job.N ∨ job.pagefactor = 2 * job.N
  pages : 0 ≤ job.pagemaskCount

/-- Virtual pages per signature. -/
def Job.signaturePages (job : Job) : ℤ := job.N * 2 * job.sigsheets

/-- `signature_count` of `page_computations()`. -/
def Job.signatureCount (job : Job) : ℤ :=
  (job.pagemaskCount + job.signaturePages - 1).tdiv job.signaturePages

/-- The page number `signature()` returns for a place. -/
def Job.taken (job : Job) (sheet member : ℕ) : Option ℤ :=
  match job.signature sheet member with
  | .ok n => some n
  | .error _ => none

/-- The place is on the front of its leaf. -/
def Job.onFront (job : Job) (sheet member : ℕ) : Bool :=
  if job.N = job.pagefactor then sheet % 2 = 0 else (member : ℤ) < job.N

/-- The page number for place `j` of a side of a leaf, the front being side 0. -/
def Job.leafPage (job : Job) (leaf side j : ℕ) : Option ℤ :=
  if job.N = job.pagefactor then job.taken (2 * leaf + side) j
  else job.taken leaf (2 * side + j)

/-- The pages of the signatures are imposed on their sheets. -/
structure Job.Imposed (job : Job) : Prop where
  /-- Every page number has one place. -/
  once : ∀ n : ℕ, n < job.signatureCount * job.signaturePages →
    OnOnePlace (job.withPart .both).taken job.sheets.toNat job.pagefactor.toNat n
  /-- Every place has a page number of the signatures. -/
  inside : ∀ k < job.sheets.toNat, ∀ m < job.pagefactor.toNat, ∃ n : ℕ,
    (job.withPart .both).taken k m = some (n : ℤ) ∧ n < job.signatureCount * job.signaturePages
  fronts : ∀ k < job.sheets.toNat, ∀ m < job.pagefactor.toNat, (job.withPart .fronts).taken k m =
    if job.onFront k m then (job.withPart .both).taken k m else some (-1)
  backs : ∀ k < job.sheets.toNat, ∀ m < job.pagefactor.toNat, (job.withPart .backs).taken k m =
    if job.onFront k m then some (-1) else (job.withPart .both).taken k m
  /-- Two up the pages on the back of a leaf follow and precede those on its front. -/
  back : job.N = 2 → ∀ leaf : ℕ, leaf < job.signatureCount * job.sigsheets → ∃ left right : ℤ,
    (job.withPart .both).leafPage leaf 0 0 = some left ∧
      (job.withPart .both).leafPage leaf 0 1 = some right ∧
      (job.withPart .both).leafPage leaf 1 0 = some (right + 1) ∧
      (job.withPart .both).leafPage leaf 1 1 = some (left - 1)

/-! ## The sides -/

theorem Job.signature_withPart (job : Job) (part : SigPart) (k m : ℤ) :
    (job.withPart part).signature k m =
      let m' := if job.N = job.pagefactor ∧ k % 2 = 1 then m + job.N else m
      if (m' < job.pagefactor.tdiv 2 ∧ !part.hasFronts) ∨
          (job.pagefactor.tdiv 2 ≤ m' ∧ !part.hasBacks) then .ok (-1)
      else (job.withPart .both).signature k m := by
  unfold Job.signature
  simp only [Job.withPart, SigPart.hasFronts, SigPart.hasBacks, Bool.not_true, Bool.false_eq_true,
    and_false, or_self, if_false]
  rfl

section Signatures

variable {job : Job} (h : job.HasSignatures)

include h

/-- The numbers as natural numbers. -/
theorem Job.HasSignatures.nat : ∃ N S P : ℕ, job.N = N ∧ job.sigsheets = S ∧
    job.pagemaskCount = P ∧ 1 ≤ N ∧ 1 ≤ S ∧
    job.signatureCount = ((P + N * 2 * S - 1) / (N * 2 * S) : ℕ) := by
  obtain ⟨hS, hN, -, hP⟩ := h
  obtain ⟨N, hN'⟩ : ∃ N : ℕ, job.N = N := ⟨job.N.toNat, by omega⟩
  obtain ⟨S, hS'⟩ : ∃ S : ℕ, job.sigsheets = S := ⟨job.sigsheets.toNat, by omega⟩
  obtain ⟨P, hP'⟩ : ∃ P : ℕ, job.pagemaskCount = P := ⟨job.pagemaskCount.toNat, by omega⟩
  refine ⟨N, S, P, hN', hS', hP', by omega, by omega, ?_⟩
  have hpos : 1 ≤ N * 2 * S := Nat.mul_pos (by omega) (by omega)
  have hcast : (P + N * 2 * S - 1 : ℤ) = ((P + N * 2 * S - 1 : ℕ) : ℤ) := by
    push_cast [Nat.cast_sub (by omega : 1 ≤ P + N * 2 * S)]
    rfl
  rw [Job.signatureCount, Job.signaturePages, hN', hS', hP', hcast]
  norm_cast

end Signatures

/-! ## The numbers on the sheets -/

theorem Job.taken_duplex {job : Job} {S : ℕ} (hS : job.sigsheets = S) (pos : 0 < S)
    (hN : job.N ≠ job.pagefactor) {k m : ℕ} (hm : job.N = 2 → m < 4) :
    (job.withPart .both).taken k m = some (sigNumber job.N S k m) := by
  have both : (job.withPart .both).sigpart = .both := rfl
  have number : (job.withPart .both).signature k m = .ok (sigNumber job.N S k m) :=
    Job.signature_eq both hS pos hm (if_neg hN) (if_neg fun h => hN h.1)
  rw [Job.taken, number]

/-- In simplex the first sheet of a signature is the front of its first leaf. -/
theorem Job.taken_simplex_first {job : Job} {S : ℕ} (hS : job.sigsheets = S) (pos : 0 < S)
    (hN : job.N = job.pagefactor) {m : ℕ} (hm : job.N = 2 → m < 4) :
    (job.withPart .both).taken 0 m = some (sigNumber job.N S 0 m) := by
  have both : (job.withPart .both).sigpart = .both := rfl
  have number : (job.withPart .both).signature (0 : ℕ) m = .ok (sigNumber job.N S 0 m) :=
    Job.signature_eq both hS pos hm (if_pos hN) (if_neg (by simp))
  rw [Job.taken, number]

section Signatures

variable {job : Job} (h : job.HasSignatures)

include h

theorem Job.HasSignatures.sheets_eq :
    job.sheets = job.signatureCount * job.sigsheets * (job.N * 2).tdiv job.pagefactor := by
  have on := h.on
  rw [Job.sheets, if_neg (by omega)]
  rfl

theorem Job.HasSignatures.sheets_duplex (duplex : job.pagefactor = 2 * job.N) :
    job.sheets = job.signatureCount * job.sigsheets := by
  have up := h.up
  have one : (job.N * 2).tdiv job.pagefactor = 1 := by
    rw [duplex, Int.mul_comm]
    apply Int.tdiv_self
    omega
  rw [h.sheets_eq, one, Int.mul_one]

theorem Job.HasSignatures.sheets_simplex (simplex : job.pagefactor = job.N) :
    job.sheets = job.signatureCount * job.sigsheets * 2 := by
  have up := h.up
  rw [h.sheets_eq, simplex, Int.mul_tdiv_cancel_left 2 (by omega)]

/-- Without pages there are no sheets. -/
theorem Job.HasSignatures.imposed_of_empty (empty : job.pagemaskCount = 0) : job.Imposed := by
  obtain ⟨N, S, P, -, -, hP, hN, hS, count⟩ := h.nat
  have none : job.signatureCount = 0 := by
    have zero : (P + N * 2 * S - 1) / (N * 2 * S) = 0 := by
      have pos : 0 < N * 2 * S := by positivity
      apply Nat.div_eq_of_lt
      omega
    rw [count, zero]
    rfl
  have sheets : job.sheets.toNat = 0 := by
    rw [h.sheets_eq, none]
    simp
  constructor
  · intro n hn
    rw [none] at hn
    omega
  · intro k hk
    omega
  · intro k hk
    omega
  · intro k hk
    omega
  · intro _ leaf hleaf
    rw [none] at hleaf
    omega

/-- In duplex the first half of the places of a sheet is its front. -/
theorem Job.HasSignatures.taken_side (duplex : job.pagefactor = 2 * job.N) (part : SigPart)
    (k m : ℕ) : (job.withPart part).taken k m =
      if (job.onFront k m = true ∧ !part.hasFronts) ∨ (job.onFront k m = false ∧ !part.hasBacks)
      then some (-1) else (job.withPart .both).taken k m := by
  have up := h.up
  have other : job.N ≠ job.pagefactor := by omega
  have half : job.pagefactor.tdiv 2 = job.N := by
    rw [duplex, Int.mul_comm]
    exact Int.mul_tdiv_cancel _ (by decide)
  have front : job.onFront k m = decide ((m : ℤ) < job.N) := by
    rw [Job.onFront, if_neg other]
  rw [Job.taken, Job.signature_withPart, front, half]
  simp only [other, false_and, if_false, decide_eq_true_eq, decide_eq_false_iff_not, not_lt]
  by_cases skipped : ((m : ℤ) < job.N ∧ !part.hasFronts) ∨ (job.N ≤ (m : ℤ) ∧ !part.hasBacks)
  · rw [if_pos skipped, if_pos skipped]
  · rw [if_neg skipped, if_neg skipped]
    rfl

theorem Job.HasSignatures.taken_fronts (duplex : job.pagefactor = 2 * job.N) (k m : ℕ) :
    (job.withPart .fronts).taken k m =
      if job.onFront k m then (job.withPart .both).taken k m else some (-1) := by
  rw [h.taken_side duplex]
  cases front : job.onFront k m
  · rw [if_pos (.inr ⟨rfl, by decide⟩)]
    rfl
  · rw [if_neg (by decide), if_pos rfl]

theorem Job.HasSignatures.taken_backs (duplex : job.pagefactor = 2 * job.N) (k m : ℕ) :
    (job.withPart .backs).taken k m =
      if job.onFront k m then some (-1) else (job.withPart .both).taken k m := by
  rw [h.taken_side duplex]
  cases front : job.onFront k m
  · rw [if_neg (by decide)]
    rfl
  · rw [if_pos (.inl ⟨rfl, by decide⟩), if_pos rfl]

/-- Two up in duplex every signature is folded. -/
theorem Job.HasSignatures.imposed_twoUp (duplex : job.pagefactor = 2 * job.N) (two : job.N = 2) :
    job.Imposed := by
  obtain ⟨N, S, P, -, hS, -, -, pos, count⟩ := h.nat
  obtain ⟨C, hC⟩ : ∃ C : ℕ, job.signatureCount = C := ⟨_, count⟩
  have places : job.pagefactor.toNat = 4 := by omega
  have sheets : job.sheets.toNat = C * S := by
    rw [h.sheets_duplex duplex, hC, hS]
    norm_cast
  have pages : job.signatureCount * job.signaturePages = ((C * (4 * S) : ℕ) : ℤ) := by
    rw [Job.signaturePages, hC, two, hS]
    push_cast
    ring
  have number : ∀ k m, m < 4 → (job.withPart .both).taken k m =
      some ((k / S * (4 * S) + foldPage S (k % S) m : ℕ) : ℤ) := by
    intro k m hm
    rw [Job.taken_duplex hS pos (by omega) (fun _ => hm), sigNumber, if_pos two, two]
    push_cast
    congr 1
  constructor
  · intro n hn
    rw [sheets, places]
    have hn : n < C * (4 * S) := by
      rw [pages] at hn
      exact_mod_cast hn
    exact (onOnePlace_folded pos hn).congr fun k _ m hm => (number k m hm).symm
  · intro k hk m hm
    rw [sheets] at hk
    rw [places] at hm
    refine ⟨_, number k m hm, ?_⟩
    rw [pages]
    have inside := foldPage_lt (Nat.mod_lt k pos) m
    have signature : k / S < C := Nat.div_lt_of_lt_mul (by rwa [Nat.mul_comm])
    have : k / S * (4 * S) + foldPage S (k % S) m < C * (4 * S) := by
      calc k / S * (4 * S) + foldPage S (k % S) m < (k / S + 1) * (4 * S) := by
            rw [Nat.add_mul]
            omega
        _ ≤ C * (4 * S) := Nat.mul_le_mul_right _ signature
    exact_mod_cast this
  · exact fun k _ m _ => h.taken_fronts duplex k m
  · exact fun k _ m _ => h.taken_backs duplex k m
  · intro _ leaf _
    have other : ¬ (job.withPart .both).N = (job.withPart .both).pagefactor := by
      show ¬ job.N = job.pagefactor
      omega
    have s := Nat.mod_lt leaf pos
    simp only [Job.leafPage, if_neg other]
    refine ⟨_, _, number leaf 0 (by decide), number leaf 1 (by decide), ?_, ?_⟩
    · rw [number leaf 2 (by decide)]
      simp only [foldPage]
      push_cast
      congr 1
    · rw [number leaf 3 (by decide)]
      simp only [foldPage]
      congr 1
      omega

/-- Not two up, one sheet in duplex is filled in order. -/
theorem Job.HasSignatures.imposed_oneSheet (duplex : job.pagefactor = 2 * job.N)
    (two : job.N ≠ 2) (one : job.sigsheets = 1) : job.Imposed := by
  obtain ⟨N, S, P, hN, -, -, posN, -, count⟩ := h.nat
  obtain ⟨C, hC⟩ : ∃ C : ℕ, job.signatureCount = C := ⟨_, count⟩
  have places : job.pagefactor.toNat = 2 * N := by omega
  have sheets : job.sheets.toNat = C := by
    rw [h.sheets_duplex duplex, hC, one]
    omega
  have pages : job.signatureCount * job.signaturePages = ((C * (2 * N) : ℕ) : ℤ) := by
    rw [Job.signaturePages, hC, one, hN]
    push_cast
    ring
  have number : ∀ k m : ℕ,
      (job.withPart .both).taken k m = some ((k * (2 * N) + m : ℕ) : ℤ) := by
    intro k m
    rw [Job.taken_duplex (S := 1) one (by decide) (by omega) (fun h => absurd h two), sigNumber,
      if_neg two, hN, Nat.div_one]
    push_cast
    congr 1
    ring
  constructor
  · intro n hn
    rw [sheets, places]
    have hn : n < C * (2 * N) := by
      rw [pages] at hn
      exact_mod_cast hn
    exact (onOnePlace_inOrder hn).congr fun k _ m _ => (number k m).symm
  · intro k hk m hm
    rw [sheets] at hk
    rw [places] at hm
    refine ⟨_, number k m, ?_⟩
    rw [pages]
    have : k * (2 * N) + m < C * (2 * N) := by
      calc k * (2 * N) + m < (k + 1) * (2 * N) := by
            rw [Nat.add_mul]
            omega
        _ ≤ C * (2 * N) := Nat.mul_le_mul_right _ hk
    exact_mod_cast this
  · exact fun k _ m _ => h.taken_fronts duplex k m
  · exact fun k _ m _ => h.taken_backs duplex k m
  · intro h2
    exact absurd h2 two

/-- In simplex the last place of the first front is taken for a back. -/
theorem Job.HasSignatures.not_imposed_simplex (simplex : job.pagefactor = job.N)
    (some : 0 < job.sheets) : ¬ job.Imposed := by
  obtain ⟨N, S, P, hN, hS, -, posN, pos, -⟩ := h.nat
  intro imposed
  have front := imposed.fronts 0 (by omega) (N - 1) (by omega)
  have skipped : (job.withPart .fronts).taken 0 (N - 1) = Option.some (-1) := by
    have late : job.pagefactor.tdiv 2 ≤ ((N - 1 : ℕ) : ℤ) := by
      have := Int.tdiv_eq_ediv_of_nonneg (by omega : 0 ≤ job.pagefactor) (b := 2)
      omega
    rw [Job.taken, Job.signature_withPart]
    simp [SigPart.hasFronts, SigPart.hasBacks, late]
  have first : job.onFront 0 (N - 1) = true := by
    rw [Job.onFront, if_pos simplex.symm]
    simp
  rw [skipped, first, if_pos rfl, Job.taken_simplex_first hS pos simplex.symm (by omega)] at front
  have number := Option.some.inj front
  have nonneg : 0 ≤ sigNumber job.N S 0 (N - 1) := by
    rw [sigNumber, hN]
    split_ifs <;> positivity
  omega

/-- Not two up, all the sheets of a signature hold the same pages. -/
theorem Job.HasSignatures.not_imposed_longer (duplex : job.pagefactor = 2 * job.N)
    (two : job.N ≠ 2) (longer : job.sigsheets ≠ 1) (some : 0 < job.signatureCount) :
    ¬ job.Imposed := by
  obtain ⟨N, S, P, hN, hS, -, posN, pos, -⟩ := h.nat
  intro imposed
  have sheets : 2 ≤ job.sheets.toNat := by
    have : 2 ≤ job.sheets := by
      calc (2 : ℤ) = 1 * 2 := by decide
        _ ≤ job.signatureCount * job.sigsheets := by
          apply mul_le_mul <;> omega
        _ = job.sheets := (h.sheets_duplex duplex).symm
    omega
  have page : ((0 : ℕ) : ℤ) < job.signatureCount * job.signaturePages := by
    rw [Job.signaturePages, hN, hS]
    positivity
  have at0 : ∀ k < S, (job.withPart .both).taken k 0 = Option.some ((0 : ℕ) : ℤ) := by
    intro k hk
    rw [Job.taken_duplex hS pos (by omega) (fun h => absurd h two), sigNumber, if_neg two,
      Nat.div_eq_of_lt hk]
    simp
  obtain ⟨p, -, unique⟩ := imposed.once 0 page
  have e0 := unique (0, 0) ⟨⟨by show 0 < _; omega, by show 0 < _; omega⟩, at0 0 (by omega)⟩
  have e1 := unique (1, 0) ⟨⟨by show 1 < _; omega, by show 0 < _; omega⟩, at0 1 (by omega)⟩
  exact absurd (e0.trans e1.symm) (by decide)

/-- With a page there is a signature. -/
theorem Job.HasSignatures.signatureCount_pos (pages : job.pagemaskCount ≠ 0) :
    0 < job.signatureCount := by
  obtain ⟨N, S, P, -, -, hP, hN, hS, count⟩ := h.nat
  have pos : 0 < N * 2 * S := by positivity
  have : 0 < (P + N * 2 * S - 1) / (N * 2 * S) := by
    apply Nat.div_pos <;> omega
  rw [count]
  exact_mod_cast this

end Signatures

/-- Nine pages, `N` up on both sides of the paper, in signatures of two sheets. -/
def signatureJob (N : ℤ) : Job where
  pages := 9
  pageorder := .ascend
  pagefactor := 2 * N
  script := true
  N := N
  sigsheets := 2
  sigpart := .both
  copies := 1
  collate := false
  mask := none
  mask_length := by simp
  script_pages := by decide
  sigsheets_nonneg := by decide

theorem hasSignatures_signatureJob {N : ℤ} (h : 1 ≤ N) : (signatureJob N).HasSignatures :=
  ⟨by show (1 : ℤ) ≤ 2; decide, h, .inr rfl, by show (0 : ℤ) ≤ 9; decide⟩

end Ppr.Pprdrv
