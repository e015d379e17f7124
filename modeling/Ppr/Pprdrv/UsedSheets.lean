import Ppr.Pprdrv.Charge

/-!
# The sheets a job uses

Which sheets come out of the printer for what the page loops send, and how many of their sides are
printed: first when the sheets are filled in order, then for duplex signatures.
-/

namespace Ppr.Pprdrv

/-! ## The sheets of a job -/

/-- A page or a dummy page. -/
def Sent.onSheet : Sent → Bool
  | .page _ _ => true
  | .dummy _ => true
  | _ => false

theorem eject_onSheet {places : ℕ} {sheet : List Sent} {s : Sent} (hs : s.onSheet = true)
    (rest : List Sent) :
    eject places sheet (s :: rest) = if sheet.length + 1 = places then
      (sheet ++ [s]) :: eject places [] rest else eject places (sheet ++ [s]) rest := by
  cases s with
  | page p n => rfl
  | dummy n => rfl
  | _ => cases hs

/-- A sheet whose places are not all used stays in the printer. -/
theorem eject_append {places : ℕ} {sheet part : List Sent} (hp : ∀ s ∈ part, s.onSheet = true)
    (h : sheet.length + part.length < places) (rest : List Sent) :
    eject places sheet (part ++ rest) = eject places (sheet ++ part) rest := by
  induction part generalizing sheet with
  | nil => simp
  | cons s part ih =>
    rw [List.length_cons] at h
    rw [List.cons_append, eject_onSheet (hp s (by simp)), if_neg (by omega),
      ih (fun t ht => hp t (by simp [ht])) (by simp; omega)]
    simp

theorem eject_full {places : ℕ} {sheet : List Sent} (hs : ∀ s ∈ sheet, s.onSheet = true)
    (h : sheet.length = places) (pos : 0 < places) (rest : List Sent) :
    eject places [] (sheet ++ rest) = sheet :: eject places [] rest := by
  have ne : sheet ≠ [] := by
    rintro rfl
    simp at h
    omega
  have split := List.dropLast_append_getLast ne
  have len : sheet.dropLast.length + 1 = places := by
    rw [List.length_dropLast]
    omega
  rw [← split, List.append_assoc, eject_append (fun s hm => hs s (List.mem_of_mem_dropLast hm))
    (by simp; omega), List.singleton_append, eject_onSheet (hs _ (List.getLast_mem ne))]
  simp only [List.nil_append]
  rw [if_pos len]

/-- The last sheet of a document comes out although it is not full. -/
theorem eject_last {places : ℕ} {sheet : List Sent} (hs : ∀ s ∈ sheet, s.onSheet = true)
    (h : sheet.length ≤ places) (ne : sheet ≠ []) :
    eject places [] (sheet ++ [.jobEnd]) = [sheet] := by
  have pos := List.length_pos_of_ne_nil ne
  rcases Nat.lt_or_eq_of_le h with h | h
  · rw [eject_append hs (by simpa using h)]
    simp [eject, ne]
  · rw [eject_full hs h (by omega)]
    rfl

theorem eject_flatten {places : ℕ} (pos : 0 < places) {sheets : List (List Sent)}
    (h : ∀ sheet ∈ sheets, (∀ s ∈ sheet, s.onSheet = true) ∧ sheet.length = places)
    (rest : List Sent) :
    eject places [] (sheets.flatten ++ rest) = sheets ++ eject places [] rest := by
  induction sheets with
  | nil => rfl
  | cons sheet sheets ih =>
    have here := h sheet (by simp)
    rw [List.flatten_cons, List.append_assoc, eject_full here.1 here.2 pos,
      ih fun t ht => h t (by simp [ht])]
    rfl

/-- No sheet holds more than its places. -/
theorem length_le_of_mem_eject {places : ℕ} {out sheet : List Sent} {cur : List Sent}
    (hc : cur.length < places) (h : sheet ∈ eject places cur out) : sheet.length ≤ places := by
  induction out generalizing cur with
  | nil => cases h
  | cons s out ih =>
    have pos : ([] : List Sent).length < places := by
      simp
      omega
    by_cases hs : s.onSheet = true
    · rw [eject_onSheet hs] at h
      split_ifs at h with hf
      · rcases List.mem_cons.1 h with rfl | h
        · simp [hf]
        · exact ih pos h
      · exact ih (by simp; omega) h
    · cases s with
      | page p n => exact absurd rfl hs
      | dummy n => exact absurd rfl hs
      | jobStart => exact ih hc h
      | nonpages => exact ih hc h
      | jobEnd =>
        rw [eject] at h
        split_ifs at h with he
        · exact ih pos h
        · rcases List.mem_cons.1 h with rfl | h
          · omega
          · exact ih pos h

/-- Everything on a sheet was sent. -/
theorem mem_of_mem_eject {places : ℕ} {out sheet : List Sent} {cur : List Sent} {s : Sent}
    (h : sheet ∈ eject places cur out) (hs : s ∈ sheet) : s ∈ cur ∨ s ∈ out := by
  induction out generalizing cur with
  | nil => cases h
  | cons t out ih =>
    have later : ∀ cur' : List Sent, (∀ u ∈ cur', u ∈ cur ∨ u = t) →
        sheet ∈ eject places cur' out → s ∈ cur ∨ s ∈ t :: out := by
      intro cur' hc h
      rcases ih h with h | h
      · rcases hc s h with h | rfl
        · exact .inl h
        · exact .inr (by simp)
      · exact .inr (by simp [h])
    by_cases ht : t.onSheet = true
    · rw [eject_onSheet ht] at h
      split_ifs at h
      · rcases List.mem_cons.1 h with rfl | h
        · rcases List.mem_append.1 hs with h | h
          · exact .inl h
          · exact .inr (by simp_all)
        · exact later [] (by simp) h
      · exact later _ (by simp) h
    · cases t with
      | page p n => exact absurd rfl ht
      | dummy n => exact absurd rfl ht
      | jobStart => exact later cur (fun u hu => .inl hu) h
      | nonpages => exact later cur (fun u hu => .inl hu) h
      | jobEnd =>
        rw [eject] at h
        split_ifs at h
        · exact later [] (by simp) h
        · rcases List.mem_cons.1 h with rfl | h
          · exact .inl hs
          · exact later [] (by simp) h

/-- Nothing is printed when no page is sent. -/
theorem Job.sheetsWith_of_no_page (job : Job) {out : List Sent}
    (h : ∀ s ∈ out, s.isDocument = false) {sides : ℕ} (hs : 0 < sides) :
    job.sheetsWith sides out = 0 := by
  rw [Job.sheetsWith, List.countP_eq_zero]
  intro sheet hm
  have blank : ∀ s ∈ sheet, s.isDocument = false := by
    intro s hs
    rcases mem_of_mem_eject hm hs with h' | h'
    · cases h'
    · exact h s h'
  have front : (sheet.take job.N.toNat).any Sent.isDocument = false :=
    List.any_eq_false.2 fun s hs => by simp [blank s (List.mem_of_mem_take hs)]
  have back : (sheet.drop job.N.toNat).any Sent.isDocument = false :=
    List.any_eq_false.2 fun s hs => by simp [blank s (List.mem_of_mem_drop hs)]
  simp [printedSides, front, back]
  omega

/-- In simplex no sheet has two printed sides. -/
theorem Job.sheetsWith_two_of_simplex {job : Job} (hN : 1 ≤ job.N)
    (hp : job.pagefactor = job.N) (out : List Sent) : job.sheetsWith 2 out = 0 := by
  rw [Job.sheetsWith, List.countP_eq_zero]
  intro sheet hm
  have len := length_le_of_mem_eject (by simp; omega) hm
  have back : sheet.drop job.N.toNat = [] := List.drop_eq_nil_of_le (by omega)
  simp only [printedSides, back, List.any_nil, Bool.false_eq_true, if_false]
  split_ifs <;> simp

theorem Job.sentSheet_onSheet (job : Job) (fill : Bool) (k : ℕ) :
    ∀ s ∈ job.sentSheet fill k, s.onSheet = true := by
  intro s hs
  obtain ⟨m, -, hs⟩ := List.mem_flatMap.1 hs
  cases hp : job.place k m with
  | none =>
    rw [hp] at hs
    cases hs
  | some n =>
    rw [hp] at hs
    simp only [Job.sentFor] at hs
    split at hs
    · rw [List.mem_singleton.1 hs]
      rfl
    · split_ifs at hs
      · rw [List.mem_singleton.1 hs]
        rfl
      · cases hs

/-- What a document uses: sheet `k` of each copy has `h k` printed sides. -/
theorem Job.sheetsWith_document {job : Job} {count copies : ℕ} (printer : Printer)
    (posP : 0 < job.pagefactor) (posC : 0 < count) (posN : 0 < copies) {h : ℕ → ℕ}
    (full : ∀ k < count, (job.sentSheet true k).length = job.pagefactor.toNat)
    (last : ∀ k < count, job.sentSheet (job.sigsheets != 0) k ≠ [] ∧
      (job.sentSheet (job.sigsheets != 0) k).length ≤ job.pagefactor.toNat)
    (sides : ∀ k < count, ∀ fill, fill = true ∨ fill = (job.sigsheets != 0) →
      printedSides job.N.toNat (job.sentSheet fill k) = h k) (j : ℕ) :
    job.sheetsWith j (.jobStart :: job.sentPages printer count copies ++ [.jobEnd]) =
      copies * (List.range count).countP fun k => h k == j := by
  obtain ⟨c, rfl⟩ : ∃ c, count = c + 1 := ⟨count - 1, by omega⟩
  obtain ⟨n, rfl⟩ : ∃ n, copies = n + 1 := ⟨copies - 1, by omega⟩
  have lt : ∀ i < c + 1, job.sheetAt printer (c + 1) i < c + 1 := by
    intro i hi
    unfold Job.sheetAt
    split_ifs <;> omega
  -- The sheets in the order they are sent, the last one apart.
  let before : List (List Sent) :=
    ((List.range n).flatMap fun _ => (List.range (c + 1)).map fun i =>
      job.sentSheet true (job.sheetAt printer (c + 1) i)) ++
    (List.range c).map fun i => job.sentSheet true (job.sheetAt printer (c + 1) i)
  let final : List Sent := job.sentSheet (job.sigsheets != 0) (job.sheetAt printer (c + 1) c)
  have copy : job.sentCopy printer (c + 1) true = ((List.range (c + 1)).map fun i =>
      job.sentSheet true (job.sheetAt printer (c + 1) i)).flatten := by
    simp [Job.sentCopy, List.flatMap_def]
  have lastCopy : job.sentCopy printer (c + 1) false = ((List.range c).map fun i =>
      job.sentSheet true (job.sheetAt printer (c + 1) i)).flatten ++ final := by
    have filled : ∀ i ∈ List.range c, (false || job.sigsheets != 0 || i + 1 != c + 1) = true := by
      intro i hi
      have : i ≠ c := (List.mem_range.1 hi).ne
      simp [this]
    rw [Job.sentCopy, List.range_succ, List.flatMap_append, List.flatMap_singleton,
      List.flatMap_congr fun i hi => by rw [filled i hi], List.flatMap_def]
    simp [final]
  have sent : job.sentPages printer (c + 1) (n + 1) = before.flatten ++ final := by
    have more : ∀ i ∈ List.range n, (i + 1 != n + 1) = true := by
      intro i hi
      have : i ≠ n := (List.mem_range.1 hi).ne
      simp [this]
    rw [Job.sentPages, List.range_succ, List.flatMap_append, List.flatMap_singleton,
      List.flatMap_congr fun i hi => by rw [more i hi, copy], bne_self_eq_false, lastCopy]
    simp only [before, List.flatten_append, List.append_assoc, List.append_cancel_right_eq,
      List.flatMap_def, List.flatten_flatten, List.map_map]
    rfl
  have out : eject job.pagefactor.toNat [] (.jobStart :: job.sentPages printer (c + 1) (n + 1) ++
      [.jobEnd]) = before ++ [final] := by
    rw [List.cons_append, eject, sent, List.append_assoc, eject_flatten (by omega), eject_last]
    · exact job.sentSheet_onSheet _ _
    · exact (last _ (lt c (by omega))).2
    · exact (last _ (lt c (by omega))).1
    · intro sheet hs
      obtain ⟨i, hi, rfl⟩ : ∃ i < c + 1,
          job.sentSheet true (job.sheetAt printer (c + 1) i) = sheet := by
        rcases List.mem_append.1 hs with hs | hs
        · obtain ⟨_, -, hs⟩ := List.mem_flatMap.1 hs
          obtain ⟨i, hi, hs⟩ := List.mem_map.1 hs
          exact ⟨i, List.mem_range.1 hi, hs⟩
        · obtain ⟨i, hi, hs⟩ := List.mem_map.1 hs
          have := List.mem_range.1 hi
          exact ⟨i, by omega, hs⟩
      exact ⟨job.sentSheet_onSheet _ _, full _ (lt i hi)⟩
  have printed : (before ++ [final]).map (printedSides job.N.toNat) =
      (List.range (n + 1)).flatMap fun _ =>
        ((List.range (c + 1)).map (job.sheetAt printer (c + 1))).map h := by
    have sheet : ∀ fill, fill = true ∨ fill = (job.sigsheets != 0) → ∀ i < c + 1,
        printedSides job.N.toNat (job.sentSheet fill (job.sheetAt printer (c + 1) i)) =
          h (job.sheetAt printer (c + 1) i) :=
      fun fill hf i hi => sides _ (lt i hi) fill hf
    have row : ∀ m ≤ c + 1, ((List.range m).map fun i =>
        job.sentSheet true (job.sheetAt printer (c + 1) i)).map (printedSides job.N.toNat) =
          ((List.range m).map (job.sheetAt printer (c + 1))).map h := by
      intro m hm
      rw [List.map_map, List.map_map]
      refine List.map_congr_left fun i hi => sheet true (.inl rfl) i ?_
      have := List.mem_range.1 hi
      omega
    simp only [before, final, List.map_append, List.map_flatMap, List.map_singleton]
    rw [List.flatMap_congr fun i _ => row (c + 1) le_rfl, row c (by omega),
      sheet _ (.inr rfl) c (by omega)]
    rw [List.range_succ (n := n), List.flatMap_append, List.flatMap_singleton, List.append_assoc]
    congr 1
    rw [List.range_succ (n := c)]
    simp
  have count : (before ++ [final]).countP (fun sheet => printedSides job.N.toNat sheet == j) =
      ((before ++ [final]).map (printedSides job.N.toNat)).countP (· == j) := by
    rw [List.countP_map]
    rfl
  rw [Job.sheetsWith, out, count, printed, List.countP_flatMap]
  have same : ∀ i ∈ List.range (n + 1), (List.countP (· == j) ∘ fun _ : ℕ =>
      ((List.range (c + 1)).map (job.sheetAt printer (c + 1))).map h) i =
        (List.range (c + 1)).countP fun k => h k == j := by
    intro i _
    rw [Function.comp_apply, ((job.sheetAt_perm printer (c + 1)).map h).countP_eq, List.countP_map]
    rfl
  rw [List.map_congr_left same]
  simp

/-! ## Without signatures -/

/-- The pages on a sheet that is filled in order. -/
def Job.pagesOn (job : Job) (k : ℕ) : ℕ :=
  min job.pagefactor.toNat (job.selected.length - k * job.pagefactor.toNat)

/-- The printed sides of a sheet with `pages` pages on its first places. -/
def sidesFor (N pages : ℕ) : ℕ := (if 0 < pages then 1 else 0) + if N < pages then 1 else 0

theorem Job.sheetPages_length (job : Job) (k : ℕ) :
    (job.sheetPages k).length = job.pagesOn k := by
  simp [Job.sheetPages, Job.pagesOn]

theorem Job.sheetInOrder_length (job : Job) (fill : Bool) (k : ℕ) :
    (job.sheetInOrder fill k).length = if fill then job.pagefactor.toNat else job.pagesOn k := by
  have le : job.pagesOn k ≤ job.pagefactor.toNat := Nat.min_le_left _ _
  simp only [Job.sheetInOrder, List.length_append, List.length_mapIdx, job.sheetPages_length]
  cases fill with
  | false => simp
  | true =>
    simp only [if_true, List.length_map, List.length_range']
    omega

theorem any_take_append {N : ℕ} {pages dummies : List Sent} (pos : 0 < N)
    (hp : ∀ s ∈ pages, s.isDocument = true) (hd : ∀ s ∈ dummies, s.isDocument = false) :
    ((pages ++ dummies).take N).any Sent.isDocument = decide (0 < pages.length) ∧
      ((pages ++ dummies).drop N).any Sent.isDocument = decide (N < pages.length) := by
  have blank : ∀ l : List Sent, (∀ s ∈ l, s ∈ dummies) → l.any Sent.isDocument = false :=
    fun l hl => List.any_eq_false.2 fun s hs => by simp [hd s (hl s hs)]
  rw [List.take_append, List.drop_append, List.any_append, List.any_append,
    blank (dummies.take _) fun s hs => List.mem_of_mem_take hs,
    blank (dummies.drop _) fun s hs => List.mem_of_mem_drop hs, Bool.or_false, Bool.or_false]
  have some_ : ∀ l : List Sent, (∀ s ∈ l, s ∈ pages) →
      l.any Sent.isDocument = decide (0 < l.length) := by
    intro l hl
    cases l with
    | nil => rfl
    | cons s l => simp [hp s (hl s (by simp))]
  rw [some_ _ fun s hs => List.mem_of_mem_take hs, some_ _ fun s hs => List.mem_of_mem_drop hs]
  simp only [List.length_take, List.length_drop]
  refine ⟨?_, ?_⟩
  · congr 1
    simp
    omega
  · congr 1
    simp

theorem Job.printedSides_inOrder {job : Job} {N : ℕ} (pos : 0 < N) (fill : Bool) (k : ℕ) :
    printedSides N (job.sheetInOrder fill k) = sidesFor N (job.pagesOn k) := by
  have pages : ∀ s ∈ (job.sheetPages k).mapIdx (fun j page =>
      Sent.page page ((k * job.pagefactor.toNat + j : ℕ) + 1)), s.isDocument = true := by
    intro s hs
    obtain ⟨_, _, rfl⟩ := List.mem_mapIdx.1 hs
    rfl
  have dummies : ∀ s ∈ (if fill then (List.range' (job.sheetPages k).length
      (job.pagefactor.toNat - (job.sheetPages k).length)).map fun j =>
        Sent.dummy ((k * job.pagefactor.toNat + j : ℕ) + 1) else []), s.isDocument = false := by
    intro s hs
    split_ifs at hs
    · obtain ⟨_, _, rfl⟩ := List.mem_map.1 hs
      rfl
    · cases hs
  have both := any_take_append pos pages dummies
  rw [List.length_mapIdx] at both
  simp only [printedSides, Job.sheetInOrder, both.1, both.2]
  simp only [sidesFor, decide_eq_true_eq, job.sheetPages_length]

/-- How many of the sheets have this many printed sides. -/
def Job.sheetsInOrder (job : Job) (count N sides : ℕ) : ℕ :=
  (List.range count).countP fun k => sidesFor N (job.pagesOn k) == sides

/-- Every sheet has a page. -/
theorem Job.pagesOn_pos {job : Job} (off : job.sigsheets = 0) (hs : job.selected ≠ []) {P : ℕ}
    (hP : job.pagefactor = P) (posP : 0 < P) : ∀ k < job.sheets.toNat, 0 < job.pagesOn k := by
  intro k hk
  rw [job.sheets_inOrder off hs hP posP, Int.toNat_natCast] at hk
  have : k * P < job.selected.length := by
    have h1 : (k + 1) * P ≤ (job.selected.length + P - 1) / P * P := Nat.mul_le_mul_right P hk
    have h2 := Nat.div_mul_le_self (job.selected.length + P - 1) P
    rw [Nat.add_mul, Nat.one_mul] at h1
    omega
  rw [Job.pagesOn, hP, Int.toNat_natCast]
  omega

section InOrder

variable {job : Job} (off : job.sigsheets = 0) (hs : job.selected ≠ []) {N : ℕ} (hN : job.N = N)
  (posN : 0 < N) {P : ℕ} (hP : job.pagefactor = P) (posP : 0 < P)

include off hs hN posN hP posP

theorem Job.sheetsWith_inOrder (printer : Printer) {copies : ℕ} (hc : 0 < copies) (j : ℕ) :
    job.sheetsWith j (.jobStart :: job.sentPages printer job.sheets.toNat copies ++ [.jobEnd]) =
      copies * job.sheetsInOrder job.sheets.toNat N j := by
  have hn := List.length_pos_of_ne_nil hs
  have count := job.sheets_inOrder off hs hP posP
  have posC : 0 < job.sheets.toNat := by
    rw [count, Int.toNat_natCast]
    exact Nat.div_pos (by omega) posP
  refine job.sheetsWith_document printer (by omega) posC hc (fun k _ => ?_) (fun k hk => ?_)
    (fun k _ fill _ => ?_) j
  · rw [Job.sentSheet_inOrder off, job.sheetInOrder_length]
    rfl
  · have le : job.pagesOn k ≤ job.pagefactor.toNat := Nat.min_le_left _ _
    have pos := job.pagesOn_pos off hs hP posP k hk
    rw [Job.sentSheet_inOrder off]
    have len := job.sheetInOrder_length (job.sigsheets != 0) k
    refine ⟨fun h => ?_, ?_⟩
    · rw [h] at len
      simp only [List.length_nil] at len
      split_ifs at len <;> omega
    · rw [len]
      split_ifs <;> omega
  · rw [Job.sentSheet_inOrder off, hN, Int.toNat_natCast]
    exact Job.printedSides_inOrder posN fill k

end InOrder

/-- In simplex every sheet has one printed side. -/
theorem Job.sheetsInOrder_simplex {job : Job} {N count : ℕ} (hP : job.pagefactor = N)
    (some_ : ∀ k < count, 0 < job.pagesOn k) :
    job.sheetsInOrder count N 2 = 0 ∧ job.sheetsInOrder count N 1 = count := by
  have one : ∀ k ∈ List.range count, sidesFor N (job.pagesOn k) = 1 := by
    intro k hk
    have pos := some_ k (List.mem_range.1 hk)
    have le : job.pagesOn k ≤ N := by
      rw [Job.pagesOn, hP, Int.toNat_natCast]
      exact Nat.min_le_left _ _
    simp [sidesFor, pos, Nat.not_lt.2 le]
  unfold Job.sheetsInOrder
  constructor
  · rw [List.countP_eq_zero]
    intro k hk
    simp [one k hk]
  · conv_rhs => rw [← List.length_range (n := count)]
    rw [List.countP_eq_length]
    intro k hk
    simp [one k hk]

/-- In duplex the last sheet has one printed side when at most `N` pages are left for it. -/
theorem Job.sheetsInOrder_duplex {job : Job} {N q r : ℕ} (hP : job.pagefactor = (2 * N : ℕ))
    (hn : job.selected.length = q * (2 * N) + r) (hr : r < 2 * N) :
    job.sheetsInOrder (q + if 0 < r then 1 else 0) N 2 = q + (if N < r then 1 else 0) ∧
      job.sheetsInOrder (q + if 0 < r then 1 else 0) N 1 = if 0 < r ∧ r ≤ N then 1 else 0 := by
  have full : ∀ k ∈ List.range q, sidesFor N (job.pagesOn k) = 2 := by
    intro k hk
    have hk := List.mem_range.1 hk
    have : (k + 1) * (2 * N) ≤ q * (2 * N) := Nat.mul_le_mul_right _ hk
    have all : job.pagesOn k = 2 * N := by
      rw [Job.pagesOn, hP, Int.toNat_natCast, hn]
      rw [Nat.add_mul] at this
      omega
    rw [all, sidesFor, if_pos (by omega), if_pos (by omega)]
  have last : job.pagesOn q = r := by
    rw [Job.pagesOn, hP, Int.toNat_natCast, hn]
    omega
  have two : (List.range q).countP (fun k => sidesFor N (job.pagesOn k) == 2) = q := by
    conv_rhs => rw [← List.length_range (n := q)]
    rw [List.countP_eq_length]
    intro k hk
    simp [full k hk]
  have one : (List.range q).countP (fun k => sidesFor N (job.pagesOn k) == 1) = 0 := by
    rw [List.countP_eq_zero]
    intro k hk
    simp [full k hk]
  unfold Job.sheetsInOrder
  by_cases h0 : 0 < r
  · rw [if_pos h0, List.range_succ, List.countP_append, List.countP_append, two, one,
      List.countP_singleton, List.countP_singleton, last, sidesFor, if_pos h0]
    by_cases h1 : N < r
    · have : ¬ r ≤ N := by omega
      simp [h1, this]
    · have : r ≤ N := by omega
      simp [h1, this, h0]
  · have h1 : ¬ N < r := by omega
    simp [h0, h1, two, one]

/-! ## Signatures -/

/-- The pages in the last signature. -/
def Job.lastSignature (job : Job) : ℤ :=
  (job.selected.length - 1) % (job.N * 2 * job.sigsheets) + 1

/-- The pages of the last signature reach both sides of each of its sheets. -/
def Job.LastFull (job : Job) : Prop :=
  if job.N = 2 then 2 * job.sigsheets ≤ job.lastSignature else job.N < job.lastSignature

section Signatures

variable {job : Job} (hb : job.sigpart = .both) {S : ℕ} (hS : job.sigsheets = S) (pos : 0 < S)
  {N : ℕ} (hN : job.N = N) (posN : 0 < N) (hP : job.pagefactor = (2 * N : ℕ))

include hb hS pos hN posN hP

theorem Job.place_duplex {k m : ℕ} (hm : m < 2 * N) :
    job.place k m = some (sigNumber job.N S k m) ∧ 0 ≤ sigNumber job.N S k m := by
  have nonneg : 0 ≤ sigNumber job.N S k m := by
    rw [sigNumber, hN]
    split_ifs <;> positivity
  rw [Job.place, Job.pagenumber_duplex hb hS pos (by omega) (by intro h; omega),
    if_neg (by omega)]
  exact ⟨rfl, nonneg⟩

theorem Job.sentSheet_duplex (k : ℕ) : ∃ sent : ℕ → Sent,
    job.sentSheet true k = (List.range (2 * N)).map sent ∧
    ∀ m < 2 * N, (sent m).isDocument = decide (sigNumber job.N S k m < job.selected.length) := by
  refine ⟨fun m => (job.pageOf (sigNumber job.N S k m)).elim (.dummy (sigNumber job.N S k m + 1)) fun page =>
    .page page (sigNumber job.N S k m + 1), ?_, ?_⟩
  · rw [Job.sentSheet, hP, Int.toNat_natCast, List.map_eq_flatMap]
    refine List.flatMap_congr fun m hm => ?_
    rw [(Job.place_duplex hb hS pos hN posN hP (List.mem_range.1 hm)).1]
    simp only [Job.sentFor, if_true]
    cases job.pageOf (sigNumber job.N S k m) <;> rfl
  · intro m hm
    have nonneg := (Job.place_duplex hb hS pos hN posN hP (k := k) hm).2
    have page : job.pageOf (sigNumber job.N S k m) =
        job.selected[(sigNumber job.N S k m).toNat]? := by
      rw [Job.pageOf, if_pos nonneg]
    dsimp only
    by_cases h : sigNumber job.N S k m < job.selected.length
    · rw [page, List.getElem?_eq_getElem (by omega)]
      simp [Sent.isDocument, h]
    · rw [page, List.getElem?_eq_none (by omega)]
      simp [Sent.isDocument, h]

theorem Job.printedSides_duplex (k : ℕ) :
    printedSides N (job.sentSheet true k) = 2 ↔
      (∃ m < N, sigNumber job.N S k m < job.selected.length) ∧
      ∃ m, N ≤ m ∧ m < 2 * N ∧ sigNumber job.N S k m < job.selected.length := by
  obtain ⟨sent, hsent, doc⟩ := Job.sentSheet_duplex hb hS pos hN posN hP k
  have front : ((job.sentSheet true k).take N).any Sent.isDocument = true ↔
      ∃ m < N, sigNumber job.N S k m < job.selected.length := by
    rw [hsent, ← List.map_take, List.take_range, Nat.min_eq_left (by omega), List.any_map,
      List.any_eq_true]
    constructor
    · rintro ⟨m, hm, h⟩
      have hm := List.mem_range.1 hm
      rw [Function.comp_apply, doc m (by omega), decide_eq_true_eq] at h
      exact ⟨m, hm, h⟩
    · rintro ⟨m, hm, h⟩
      refine ⟨m, List.mem_range.2 hm, ?_⟩
      rw [Function.comp_apply, doc m (by omega), decide_eq_true_eq]
      exact h
  have back : ((job.sentSheet true k).drop N).any Sent.isDocument = true ↔
      ∃ m, N ≤ m ∧ m < 2 * N ∧ sigNumber job.N S k m < job.selected.length := by
    have rest : (List.range (2 * N)).drop N = List.range' N N := by
      rw [List.range_eq_range', List.drop_range']
      simp
      omega
    rw [hsent, ← List.map_drop, rest, List.any_map, List.any_eq_true]
    constructor
    · rintro ⟨m, hm, h⟩
      obtain ⟨h1, h2⟩ := List.mem_range'_1.1 hm
      rw [Function.comp_apply, doc m (by omega), decide_eq_true_eq] at h
      exact ⟨m, h1, by omega, h⟩
    · rintro ⟨m, h1, h2, h⟩
      refine ⟨m, List.mem_range'_1.2 ⟨h1, by omega⟩, ?_⟩
      rw [Function.comp_apply, doc m (by omega), decide_eq_true_eq]
      exact h
  rw [← front, ← back, printedSides]
  split_ifs with h1 h2 h2 <;> simp [h1, h2]

omit hb in
theorem Job.sheets_duplex (hs : job.selected ≠ []) :
    job.sheets.toNat = ((job.selected.length - 1) / (N * 2 * S) + 1) * S := by
  have hn := List.length_pos_of_ne_nil hs
  have b : 0 < N * 2 * S := by positivity
  have one : N * 2 / (2 * N) = 1 := by
    rw [Nat.mul_comm]
    exact Nat.div_self (by omega)
  rw [job.sheets_signatures hs hS hN hP pos posN, Int.toNat_natCast, one, Nat.mul_one]
  congr 1
  rw [show job.selected.length + N * 2 * S - 1 = job.selected.length - 1 + N * 2 * S by omega,
    Nat.add_div_right _ b]

/-- Every sheet has two printed sides exactly when the last signature reaches both sides. -/
theorem Job.all_duplex_iff (hs : job.selected ≠ []) :
    (∀ k < job.sheets.toNat, printedSides N (job.sentSheet true k) = 2) ↔ job.LastFull := by
  have hn := List.length_pos_of_ne_nil hs
  have posB : 0 < N * 2 * S := by positivity
  set b := N * 2 * S with hb'
  set q := (job.selected.length - 1) / b with hq
  have split : q * b + (job.selected.length - 1) % b = job.selected.length - 1 :=
    Nat.div_add_mod' _ _
  have last : job.lastSignature = ((job.selected.length - 1) % b + 1 : ℕ) := by
    rw [Job.lastSignature, hN, hS]
    have : (job.selected.length : ℤ) - 1 = ((job.selected.length - 1 : ℕ) : ℤ) := by omega
    rw [this]
    push_cast [hb']
    rfl
  have value : ∀ k m, sigNumber job.N S k m =
      ((k / S * b + if N = 2 then foldPage S (k % S) m else m : ℕ) : ℤ) := by
    intro k m
    rw [sigNumber, hN, hb']
    by_cases h2 : N = 2
    · simp [h2]
    · have : ¬ (N : ℤ) = 2 := by omega
      simp [h2, this]
  rw [Job.sheets_duplex hS pos hN posN hP hs]
  simp only [Job.printedSides_duplex hb hS pos hN posN hP, value, Nat.cast_lt]
  -- The sheets of the last signature decide.
  have below : ∀ k < (q + 1) * S, k / S * b ≤ q * b := by
    intro k hk
    refine Nat.mul_le_mul_right b (Nat.lt_succ_iff.1 ?_)
    exact Nat.div_lt_of_lt_mul (by rwa [Nat.mul_comm])
  have atLast : ∀ s < S, q * S + s < (q + 1) * S ∧ (q * S + s) / S = q ∧ (q * S + s) % S = s := by
    intro s hs
    refine ⟨by rw [Nat.add_mul]; omega, ?_, ?_⟩
    · rw [Nat.mul_comm, Nat.mul_add_div pos, Nat.div_eq_of_lt hs, Nat.add_zero]
    · rw [Nat.mul_comm, Nat.mul_add_mod, Nat.mod_eq_of_lt hs]
  by_cases two : N = 2
  · have two' : job.N = 2 := by omega
    rw [Job.LastFull, if_pos two', last, hS]
    simp only [if_pos two]
    constructor
    · intro h
      obtain ⟨h1, h2, h3⟩ := atLast 0 pos
      obtain ⟨⟨m, hm, hlt⟩, -⟩ := h _ h1
      rw [h2, h3] at hlt
      have : m = 0 ∨ m = 1 := by omega
      rcases this with rfl | rfl <;> simp only [foldPage] at hlt <;> push_cast <;> omega
    · intro h k hk
      have hle := below k hk
      have hr : k % S < S := Nat.mod_lt k pos
      push_cast at h
      refine ⟨⟨0, by omega, ?_⟩, 3, by omega, by omega, ?_⟩
      · simp only [foldPage]
        omega
      · simp only [foldPage]
        omega
  · have two' : job.N ≠ 2 := by omega
    rw [Job.LastFull, if_neg two', last, hN]
    simp only [if_neg two]
    constructor
    · intro h
      obtain ⟨h1, h2, h3⟩ := atLast 0 pos
      obtain ⟨-, m, hm, -, hlt⟩ := h _ h1
      rw [h2] at hlt
      push_cast
      omega
    · intro h k hk
      have hle := below k hk
      push_cast at h
      exact ⟨⟨0, posN, by omega⟩, N, le_rfl, by omega, by omega⟩

theorem Job.sheetsWith_signatures (hs : job.selected ≠ []) (printer : Printer) {copies : ℕ}
    (hc : 0 < copies) (j : ℕ) :
    job.sheetsWith j (.jobStart :: job.sentPages printer job.sheets.toNat copies ++ [.jobEnd]) =
      copies * (List.range job.sheets.toNat).countP fun k =>
        printedSides N (job.sentSheet true k) == j := by
  have on : (job.sigsheets != 0) = true := by
    simp [hS]
    omega
  have len : ∀ k, (job.sentSheet true k).length = job.pagefactor.toNat := by
    intro k
    obtain ⟨sent, hsent, -⟩ := Job.sentSheet_duplex hb hS pos hN posN hP k
    rw [hsent, hP, Int.toNat_natCast]
    simp
  have count : 0 < job.sheets.toNat := by
    rw [Job.sheets_duplex hS pos hN posN hP hs]
    positivity
  refine job.sheetsWith_document printer (by omega) count hc (fun k _ => len k) (fun k _ => ?_)
    (fun k _ fill hf => ?_) j
  · rw [on]
    refine ⟨fun h => ?_, (len k).le⟩
    have := len k
    rw [h, hP] at this
    simp at this
    omega
  · rw [on] at hf
    obtain rfl : fill = true := by simpa using hf
    rw [hN, Int.toNat_natCast]

end Signatures

end Ppr.Pprdrv
