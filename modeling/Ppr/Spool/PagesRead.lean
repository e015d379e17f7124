import Ppr.Lib.Outcome
import Ppr.Spool.PagesWritten

/-!
# The -pages file is read back

`getpline()` returns a line that fits the buffer whole (`getpline_fits`), and of one that does not
only a part (`getpline_unfit`).  So `make_pagetable()` finds the records and `copy_a_page()` the
comments exactly if all the lines fit.
-/

namespace Ppr

variable {file rest : List Byte} {pos : ℕ}

/-! ## Lines -/

theorem fgets_line {n : ℕ} {c : List Byte} (hn : c.length < n) (hc : newline ∉ c)
    (rest : List Byte) : fgets n (lineBytes c ++ rest) = lineBytes c := by
  induction c generalizing n with
  | nil =>
    obtain ⟨n, rfl⟩ := Nat.exists_eq_succ_of_ne_zero (by simp at hn; omega : n ≠ 0)
    simp [lineBytes, fgets]
  | cons a c ih =>
    rw [List.length_cons] at hn
    obtain ⟨n, rfl⟩ := Nat.exists_eq_succ_of_ne_zero (by omega : n ≠ 0)
    have ha : a ≠ newline := fun e => hc (e ▸ List.mem_cons_self ..)
    have hc' : newline ∉ c := fun h => hc (List.mem_cons_of_mem a h)
    show (if a = newline then [a] else a :: fgets n (lineBytes c ++ rest)) = _
    rw [if_neg ha, ih (by omega) hc']
    rfl

/-- Of a line that is too long, or has a linefeed in it, `fgets()` takes a part. -/
theorem fgets_part {n : ℕ} {c : List Byte} (hn : 0 < n) (h : ¬ (c.length < n ∧ newline ∉ c))
    (rest : List Byte) :
    fgets n (lineBytes c ++ rest) <+: c ∧ fgets n (lineBytes c ++ rest) ≠ [] := by
  induction c generalizing n with
  | nil => exact absurd ⟨hn, List.not_mem_nil⟩ h
  | cons a c ih =>
    obtain ⟨n, rfl⟩ := Nat.exists_eq_succ_of_ne_zero (by omega : n ≠ 0)
    show (if a = newline then [a] else a :: fgets n (lineBytes c ++ rest)) <+: a :: c ∧
      (if a = newline then [a] else a :: fgets n (lineBytes c ++ rest)) ≠ []
    split_ifs with ha
    · exact ⟨⟨c, rfl⟩, List.cons_ne_nil _ _⟩
    · refine ⟨List.cons_prefix_cons.2 ⟨rfl, ?_⟩, List.cons_ne_nil _ _⟩
      cases n with
      | zero => exact List.nil_prefix
      | succ n =>
        refine (ih (Nat.succ_pos n) fun hc => h ⟨?_, ?_⟩).1
        · rw [List.length_cons]
          omega
        · intro hm
          rcases List.mem_cons.1 hm with e | hm
          · exact ha e.symm
          · exact hc.2 hm

theorem getpline_fits {c : List Byte} (h : file.drop pos = lineBytes c ++ rest) (hc : Fits c)
    (h0 : 0 ∉ c) : getpline file pos = some (c, pos + (lineBytes c).length) := by
  have h0' : cstr (lineBytes c) = lineBytes c := by
    rw [cstr_eq_self, lineBytes, List.mem_append, List.mem_singleton]
    rintro (hm | hm)
    · exact h0 hm
    · exact absurd hm (by decide)
  have hne : lineBytes c ≠ [] := by simp [lineBytes]
  rw [getpline, h, fgets_line hc.1 hc.2]
  simp only [hne, if_false, h0']
  rw [lineBytes, List.dropLast_concat]

theorem getpline_unfit {c : List Byte} (h : file.drop pos = lineBytes c ++ rest) (hc : ¬ Fits c)
    (h0 : 0 ∉ c) : ∃ got, got <+: c ∧ got ≠ [] ∧
      getpline file pos = some (got.dropLast, pos + got.length) := by
  obtain ⟨hpre, hne⟩ := fgets_part (by decide : 0 < plineSize - 1) hc rest
  refine ⟨_, hpre, hne, ?_⟩
  have h0' := cstr_eq_self.2 fun hm => h0 (hpre.subset hm)
  rw [getpline, h]
  simp only [hne, if_false, h0']

/-- The rest of the file after its part that was read. -/
theorem drop_add {w : List Byte} (h : file.drop pos = w ++ rest) :
    file.drop (pos + w.length) = rest := by
  rw [← List.drop_drop, h, List.drop_left]

/-- `getpline()` does not read beyond the end of the line. -/
theorem getpline_le {c l : List Byte} {p : ℕ} (h : file.drop pos = lineBytes c ++ rest)
    (h0 : 0 ∉ c) (hget : getpline file pos = some (l, p)) :
    p ≤ pos + (lineBytes c).length := by
  by_cases hc : Fits c
  · rw [getpline_fits h hc h0] at hget
    cases hget
    exact Nat.le_refl _
  · obtain ⟨got, hpre, -, hget'⟩ := getpline_unfit h hc h0
    rw [hget'] at hget
    cases hget
    have := hpre.length_le
    rw [lineBytes, List.length_append]
    omega

/-! ## Offsets -/

theorem scanOffset_offsetLine (n : ℕ) : scanOffset (offsetLine n) = some (n : ℤ) := by
  obtain ⟨c, l, hcl⟩ := List.exists_cons_of_ne_nil (decimal_ne_nil n)
  have hc : isdigit c = true := isdigit_decimal (n := n) (by simp [hcl])
  have hspace := not_isspace_of_isdigit c hc
  have hminus : c ≠ 45 := by
    rintro rfl
    exact absurd hc (by decide)
  have hdrop : (offsetLine n).drop 7 = 32 :: decimal n := rfl
  have htake : (decimal n).takeWhile isdigit = decimal n :=
    List.takeWhile_eq_self_iff.2 fun c hc => isdigit_decimal hc
  have hhead : (decimal n).head? ≠ some 45 := by simpa [hcl] using hminus
  have hmatch : lmatch (offsetLine n) "Offset:" = true := rfl
  rw [scanOffset, if_pos hmatch, hdrop, List.dropWhile_cons_of_pos (by decide), hcl,
    List.dropWhile_cons_of_neg (by simp [hspace]), ← hcl, scanLong]
  simp only [if_neg hhead, htake, if_neg (decimal_ne_nil n), digitsValue_decimal]

theorem fits_offsetLine {n : ℕ} (hn : n < 2 ^ 63) : Fits (offsetLine n) := by
  refine ⟨?_, ?_⟩
  · have h1 : (decimal n).length ≤ 19 := length_decimal_le (by decide) (hn.trans (by norm_num))
    have h2 : (ascii "Offset: ").length = 8 := rfl
    rw [offsetLine, List.length_append, h2, plineSize]
    omega
  · rw [offsetLine, List.mem_append]
    rintro (h | h)
    · exact absurd h (by decide)
    · exact absurd (isdigit_decimal h) (by decide)

theorem zero_notMem_offsetLine (n : ℕ) : 0 ∉ offsetLine n := by
  rw [offsetLine, List.mem_append]
  rintro (h | h)
  · exact absurd h (by decide)
  · exact absurd (isdigit_decimal h) (by decide)

/-! ## Records -/

theorem length_lineBytes (c : List Byte) : (lineBytes c).length = c.length + 1 := by
  simp [lineBytes]

/-- A record that fits is found. -/
theorem readPageHead_fits {r : PageRec} (h : file.drop pos = r.head ++ rest) (hr : Fits r.line)
    (hline : lmatch r.line "%%Page:" = true) (h0 : 0 ∉ r.line) (hoff : r.offset < 2 ^ 63) :
    readPageHead file pos =
      .ok { pagesOffset := pos + r.head.length, textOffset := r.offset } := by
  rw [PageRec.head, List.append_assoc] at h
  have h2 := drop_add h
  rw [readPageHead, getpline_fits h hr h0]
  simp only [hline, Bool.true_eq_false, if_false]
  rw [getpline_fits h2 (fits_offsetLine hoff) (zero_notMem_offsetLine _)]
  simp only [scanOffset_offsetLine, PageRec.head, List.length_append, Nat.add_assoc]

/-- If the "%%Page:" line does not fit, the comments are not looked for where they are. -/
theorem readPageHead_unfit {r : PageRec} (h : file.drop pos = r.head ++ rest) (hr : ¬ Fits r.line)
    (h0 : 0 ∉ r.line) {e : PageEntry} (he : readPageHead file pos = .ok e) :
    e.pagesOffset < pos + r.head.length := by
  rw [PageRec.head, List.append_assoc] at h
  obtain ⟨got, ⟨c, hc⟩, hne, hget⟩ := getpline_unfit h hr h0
  have h2 : file.drop (pos + got.length) =
      lineBytes c ++ (lineBytes (offsetLine r.offset) ++ rest) := by
    refine drop_add (h.trans ?_)
    simp only [lineBytes, ← hc, List.append_assoc]
  have h0' : 0 ∉ c := fun hm => h0 (hc ▸ List.mem_append_right got hm)
  have hlen : got.length + c.length = r.line.length := by rw [← hc, List.length_append]
  rw [readPageHead, hget] at he
  simp only at he
  split_ifs at he
  split at he
  · cases he
  · rename_i l p hp
    have hle := getpline_le h2 h0' hp
    split at he
    · cases he
    · cases he
      simp only [PageRec.head, List.length_append, length_lineBytes] at hle ⊢
      omega

/-- The blank line after a record. -/
theorem getpline_blank (h : file.drop pos = newline :: rest) :
    getpline file pos = some ([], pos + 1) :=
  getpline_fits (c := []) h ⟨by decide, List.not_mem_nil⟩ List.not_mem_nil

theorem IsComment.ne_nil {c : List Byte} (h : IsComment c) : c ≠ [] := by
  rintro rfl
  exact absurd h.1 (by decide)

theorem skipRecord_fits {cs : List (List Byte)} (n : ℕ) (hn : cs.length < n)
    (h : file.drop pos = cs.flatMap lineBytes ++ newline :: rest) (hfit : ∀ c ∈ cs, Fits c)
    (hcs : ∀ c ∈ cs, IsComment c) :
    skipRecord file n pos = .ok (pos + ((cs.flatMap lineBytes).length + 1)) := by
  induction cs generalizing n pos with
  | nil =>
    obtain ⟨n, rfl⟩ := Nat.exists_eq_succ_of_ne_zero (by simp at hn; omega : n ≠ 0)
    rw [skipRecord, getpline_blank h]
    rfl
  | cons c cs ih =>
    rw [List.length_cons] at hn
    obtain ⟨n, rfl⟩ := Nat.exists_eq_succ_of_ne_zero (by omega : n ≠ 0)
    have hc := hcs c (List.mem_cons_self ..)
    rw [List.flatMap_cons, List.append_assoc] at h
    rw [skipRecord, getpline_fits h (hfit c (List.mem_cons_self ..)) hc.2]
    simp only [hc.ne_nil, if_false]
    rw [ih n (by omega) (drop_add h) (fun d hd => hfit d (List.mem_cons_of_mem c hd))
      fun d hd => hcs d (List.mem_cons_of_mem c hd), List.flatMap_cons, List.length_append]
    congr 1
    omega

theorem copyPageComments_fits {cs : List (List Byte)} (n : ℕ) (hn : cs.length < n)
    (h : file.drop pos = cs.flatMap lineBytes ++ newline :: rest) (hfit : ∀ c ∈ cs, Fits c)
    (hcs : ∀ c ∈ cs, IsComment c) : copyPageComments file n pos = cs := by
  induction cs generalizing n pos with
  | nil =>
    obtain ⟨n, rfl⟩ := Nat.exists_eq_succ_of_ne_zero (by simp at hn; omega : n ≠ 0)
    rw [copyPageComments, getpline_blank h]
    rfl
  | cons c cs ih =>
    rw [List.length_cons] at hn
    obtain ⟨n, rfl⟩ := Nat.exists_eq_succ_of_ne_zero (by omega : n ≠ 0)
    have hc := hcs c (List.mem_cons_self ..)
    rw [List.flatMap_cons, List.append_assoc] at h
    rw [copyPageComments, getpline_fits h (hfit c (List.mem_cons_self ..)) hc.2]
    simp only [hc.ne_nil, if_false]
    rw [ih n (by omega) (drop_add h) (fun d hd => hfit d (List.mem_cons_of_mem c hd))
      fun d hd => hcs d (List.mem_cons_of_mem c hd)]

/-- Comments that are copied unchanged fit: of the first that did not, only a part would come
out. -/
theorem fits_of_copyPageComments {cs : List (List Byte)} (n : ℕ) (hn : cs.length < n)
    (h : file.drop pos = cs.flatMap lineBytes ++ newline :: rest)
    (hcs : ∀ c ∈ cs, IsComment c) (hcopy : copyPageComments file n pos = cs) :
    ∀ c ∈ cs, Fits c := by
  induction cs generalizing n pos with
  | nil => exact fun c hc => absurd hc List.not_mem_nil
  | cons c cs ih =>
    rw [List.length_cons] at hn
    obtain ⟨n, rfl⟩ := Nat.exists_eq_succ_of_ne_zero (by omega : n ≠ 0)
    have hc := hcs c (List.mem_cons_self ..)
    rw [List.flatMap_cons, List.append_assoc] at h
    by_cases hf : Fits c
    · rw [copyPageComments, getpline_fits h hf hc.2] at hcopy
      simp only [hc.ne_nil, if_false, List.cons.injEq, true_and] at hcopy
      exact List.forall_mem_cons.2 ⟨hf, ih n (by omega) (drop_add h)
        (fun d hd => hcs d (List.mem_cons_of_mem c hd)) hcopy⟩
    · obtain ⟨got, hpre, hne, hget⟩ := getpline_unfit h hf hc.2
      rw [copyPageComments, hget] at hcopy
      simp only at hcopy
      split_ifs at hcopy
      have hlen := congrArg List.length (List.cons.inj hcopy).1
      have hle := hpre.length_le
      have hpos := List.length_pos_of_ne_nil hne
      rw [List.length_dropLast] at hlen
      omega

/-! ## The page table -/

/-- The entries of the records that begin at a position. -/
def located (pos : ℕ) : List PageRec → List PageEntry
  | [] => []
  | r :: rs =>
    { pagesOffset := pos + r.head.length, textOffset := r.offset } ::
      located (pos + r.bytes.length) rs

/-- The entries of the pages that are selected. -/
def chosen {α : Type} (select : ℕ → Bool) (pages : List ℕ) (l : List α) : List α :=
  ((pages.zip l).filter fun x => select x.1).map Prod.snd

/-- What is known of the records in the file. -/
structure Records (log : List PageRec) : Prop where
  line : ∀ r ∈ log, lmatch r.line "%%Page:" = true ∧ 0 ∉ r.line
  comments : ∀ r ∈ log, ∀ c ∈ r.comments, IsComment c
  offset : ∀ r ∈ log, r.offset < 2 ^ 63

theorem Records.tail {r : PageRec} {rs : List PageRec} (h : Records (r :: rs)) : Records rs where
  line q hq := h.line q (List.mem_cons_of_mem r hq)
  comments q hq := h.comments q (List.mem_cons_of_mem r hq)
  offset q hq := h.offset q (List.mem_cons_of_mem r hq)

theorem length_le_flatMap_lineBytes (cs : List (List Byte)) :
    cs.length ≤ (cs.flatMap lineBytes).length := by
  induction cs with
  | nil => exact Nat.le_refl _
  | cons c cs ih =>
    rw [List.flatMap_cons, List.length_append, length_lineBytes, List.length_cons]
    omega

/-- There are fewer comments in a record than bytes in the file. -/
theorem length_comments_lt {r : PageRec} (h : file.drop pos = r.bytes ++ rest) :
    r.comments.length < file.length + 1 := by
  have h1 := length_le_flatMap_lineBytes r.comments
  have h2 := congrArg List.length h
  simp only [List.length_drop, PageRec.bytes, List.length_append] at h2
  omega

theorem drop_head {r : PageRec} (h : file.drop pos = r.bytes ++ rest) :
    file.drop pos = r.head ++ (r.comments.flatMap lineBytes ++ newline :: rest) := by
  rw [h, PageRec.bytes]
  simp

theorem drop_comments {r : PageRec} (h : file.drop pos = r.bytes ++ rest) :
    file.drop (pos + r.head.length) = r.comments.flatMap lineBytes ++ newline :: rest := by
  exact drop_add (drop_head h)

theorem chosen_cons {α : Type} (select : ℕ → Bool) (page : ℕ) (pages : List ℕ) (a : α)
    (l : List α) : chosen select (page :: pages) (a :: l) =
      (if select page then [a] else []) ++ chosen select pages l := by
  rw [chosen, List.zip_cons_cons, List.filter_cons]
  split_ifs <;> rfl

/-- If all the records fit, the loop finds the entries of the selected pages. -/
theorem pagetableLoop_fits {recs : List PageRec} (hrec : Records recs)
    (hfit : ∀ r ∈ recs, r.Fits) (select : ℕ → Bool) (printed : ℕ) (pages : List ℕ)
    (table : List PageEntry) (hpages : pages.length = recs.length)
    (hprinted : table.length + pages.countP select ≤ printed)
    (h : file.drop pos = recs.flatMap PageRec.bytes ++ rest) :
    pagetableLoop file select printed pages table pos =
      .ok (table ++ chosen select pages (located pos recs),
        pos + (recs.flatMap PageRec.bytes).length) := by
  induction recs generalizing pos pages table with
  | nil =>
    obtain rfl := List.length_eq_zero_iff.1 hpages
    simp [pagetableLoop, chosen]
  | cons r rs ih =>
    obtain ⟨page, pages, rfl⟩ := List.exists_cons_of_length_eq_add_one hpages
    rw [List.flatMap_cons, List.append_assoc] at h
    obtain ⟨hline, h0⟩ := hrec.line r (List.mem_cons_self ..)
    obtain ⟨hfl, hfc⟩ := hfit r (List.mem_cons_self ..)
    have hhead := readPageHead_fits (drop_head h) hfl hline h0
      (hrec.offset r (List.mem_cons_self ..))
    have hskip := skipRecord_fits _ (length_comments_lt h) (drop_comments h) hfc
      (hrec.comments r (List.mem_cons_self ..))
    have hnext : pos + r.head.length + ((r.comments.flatMap lineBytes).length + 1) =
        pos + r.bytes.length := by
      simp [PageRec.bytes, Nat.add_assoc]
    have ih' := fun table hp => ih hrec.tail (fun q hq => hfit q (List.mem_cons_of_mem r hq)) pages
      table (by simpa using hpages) hp (drop_add h)
    rw [pagetableLoop, hhead]
    simp only [List.countP_cons] at hprinted
    rw [located, chosen_cons, List.flatMap_cons, List.length_append, ← Nat.add_assoc]
    by_cases hs : select page
    · have hlt : ¬ printed ≤ table.length := by simp only [hs, if_true] at hprinted; omega
      simp only [hs, if_true, hlt, if_false] at hprinted ⊢
      show (skipRecord _ _ _ >>= _) = _
      rw [hskip, hnext]
      show pagetableLoop _ _ _ _ _ _ = _
      rw [ih' _ (by rw [List.length_append, List.length_singleton]; omega), List.append_assoc]
    · simp only [hs] at hprinted ⊢
      show (skipRecord _ _ _ >>= _) = _
      rw [hskip, hnext]
      exact ih' _ (by simpa using hprinted)

/-- The table so far is the start of the table. -/
theorem prefix_pagetableLoop {select : ℕ → Bool} {printed p : ℕ} {pages : List ℕ}
    {table result : List PageEntry}
    (h : pagetableLoop file select printed pages table pos = .ok (result, p)) :
    table <+: result := by
  induction pages generalizing table pos with
  | nil =>
    cases h
    exact List.prefix_rfl
  | cons page pages ih =>
    obtain ⟨e, -, h⟩ := Outcome.bind_eq_ok h
    obtain ⟨table', ht, h⟩ := Outcome.bind_eq_ok h
    obtain ⟨q, -, h⟩ := Outcome.bind_eq_ok h
    refine List.IsPrefix.trans ?_ (ih h)
    split_ifs at ht
    · cases ht
      exact List.prefix_append _ _
    · cases ht
      exact List.prefix_rfl

/-- If the loop finds every record where it is, and the comments of each are copied unchanged, then
all the records fit. -/
theorem fits_of_pagetableLoop {recs : List PageRec} (hrec : Records recs) {printed p : ℕ}
    {pages : List ℕ} {table : List PageEntry} (hpages : pages.length = recs.length)
    (h : file.drop pos = recs.flatMap PageRec.bytes ++ rest)
    (hloop : pagetableLoop file (fun _ => true) printed pages table pos =
      .ok (table ++ located pos recs, p))
    (hcopy : ∀ x ∈ (located pos recs).zip recs,
      copyPageComments file (file.length + 1) x.1.pagesOffset = x.2.comments) :
    ∀ r ∈ recs, r.Fits := by
  induction recs generalizing pos pages table with
  | nil => exact fun r hr => absurd hr List.not_mem_nil
  | cons r rs ih =>
    obtain ⟨page, pages, rfl⟩ := List.exists_cons_of_length_eq_add_one hpages
    rw [List.flatMap_cons, List.append_assoc] at h
    obtain ⟨hline, h0⟩ := hrec.line r (List.mem_cons_self ..)
    have hcomments := hrec.comments r (List.mem_cons_self ..)
    obtain ⟨e, he, hloop⟩ := Outcome.bind_eq_ok hloop
    obtain ⟨table', ht, hloop⟩ := Outcome.bind_eq_ok hloop
    obtain ⟨q, hq, hloop⟩ := Outcome.bind_eq_ok hloop
    rw [if_pos rfl] at ht
    split_ifs at ht
    cases ht
    -- The entry of this page is the one located.
    obtain ⟨tail, htail⟩ := prefix_pagetableLoop hloop
    rw [List.append_assoc, located, List.append_cancel_left_eq, List.singleton_append,
      List.cons.injEq] at htail
    obtain ⟨rfl, -⟩ := htail
    have hfl : Fits r.line := by
      by_contra hfl
      exact absurd (readPageHead_unfit (drop_head h) hfl h0 he) (Nat.lt_irrefl _)
    have hfc := fits_of_copyPageComments _ (length_comments_lt h) (drop_comments h) hcomments
      (hcopy (_, r) (List.mem_cons_self ..))
    rw [skipRecord_fits _ (length_comments_lt h) (drop_comments h) hfc hcomments] at hq
    have hnext : pos + r.head.length + ((r.comments.flatMap lineBytes).length + 1) =
        pos + r.bytes.length := by
      simp [PageRec.bytes, Nat.add_assoc]
    cases hq
    rw [hnext, located, List.append_cons table _ (located (pos + r.bytes.length) rs)] at hloop
    exact List.forall_mem_cons.2 ⟨⟨hfl, hfc⟩, ih hrec.tail (by simpa using hpages) (drop_add h)
      hloop fun x hx => hcopy x (List.mem_cons_of_mem _ hx)⟩

/-! ## The result -/

variable {σ : Type}

/-- The "-pages" file of the job. -/
def Spool.pagesFile (f : Spool σ) : List Byte := f.pages ++ trailerRecord f.text

/-- Where the record of the first page begins. -/
def Spool.firstRecord (base : List Byte) (f : Spool σ) : ℕ :=
  base.length + (f.stray.flatMap lineBytes).length

/-- Whatever pages are selected: `make_pagetable()` finds the records of just these, each with the
offset of its page in the "-text" file, stops at the record of the trailer, and `copy_a_page()`
copies the comments of each unchanged. -/
def ReadBack (base : List Byte) (f : Spool σ) : Prop :=
  (∀ r ∈ f.log, lineBytes r.line <+: f.text.drop r.offset) ∧
  ∀ (descend : Bool) (select : ℕ → Bool),
    makePagetable f.pagesFile base.length f.pagenumber descend select =
      .ok (chosen select (fileOrder descend f.pagenumber) (located (f.firstRecord base) f.log),
        f.pages.length) ∧
    ∀ x ∈ chosen select (fileOrder descend f.pagenumber)
        ((located (f.firstRecord base) f.log).zip f.log),
      copyPageComments f.pagesFile (f.pagesFile.length + 1) x.1.pagesOffset = x.2.comments

theorem length_fileOrder (descend : Bool) (n : ℕ) : (fileOrder descend n).length = n := by
  cases descend <;> simp [fileOrder]

theorem length_located (pos : ℕ) (recs : List PageRec) :
    (located pos recs).length = recs.length := by
  induction recs generalizing pos with
  | nil => rfl
  | cons r rs ih => exact congrArg Nat.succ (ih _)

theorem chosen_true {α : Type} {pages : List ℕ} {l : List α} (h : pages.length = l.length) :
    chosen (fun _ => true) pages l = l := by
  rw [chosen, List.filter_true, List.map_snd_zip (Nat.le_of_eq h.symm)]

theorem length_chosen {α : Type} (select : ℕ → Bool) (pages : List ℕ) {l : List α}
    (h : pages.length = l.length) : (chosen select pages l).length = pages.countP select := by
  rw [chosen, List.length_map, ← List.countP_eq_length_filter]
  conv_rhs => rw [← List.map_fst_zip (Nat.le_of_eq h), List.countP_map]
  rfl

theorem mem_of_mem_chosen {α : Type} {select : ℕ → Bool} {pages : List ℕ} {l : List α} {a : α}
    (h : a ∈ chosen select pages l) : a ∈ l := by
  obtain ⟨⟨n, b⟩, hb, rfl⟩ := List.mem_map.1 h
  exact (List.of_mem_zip (List.mem_of_mem_filter hb)).2

/-- The comments of records that fit are copied. -/
theorem copyPageComments_located {recs : List PageRec} (hrec : Records recs)
    (hfit : ∀ r ∈ recs, r.Fits) (h : file.drop pos = recs.flatMap PageRec.bytes ++ rest) :
    ∀ x ∈ (located pos recs).zip recs,
      copyPageComments file (file.length + 1) x.1.pagesOffset = x.2.comments := by
  induction recs generalizing pos with
  | nil => exact fun x hx => absurd hx List.not_mem_nil
  | cons r rs ih =>
    rw [List.flatMap_cons, List.append_assoc] at h
    rw [located, List.zip_cons_cons, List.forall_mem_cons]
    exact ⟨copyPageComments_fits _ (length_comments_lt h) (drop_comments h)
      (hfit r (List.mem_cons_self ..)).2 (hrec.comments r (List.mem_cons_self ..)),
      ih hrec.tail (fun q hq => hfit q (List.mem_cons_of_mem r hq)) (drop_add h)⟩

/-- The finished files of a job, with offsets that fit a `long`. -/
structure Finished (base : List Byte) (f : Spool σ) : Prop where
  ok : f.Ok base []
  size : f.text.length < 2 ^ 63

theorem Finished.records {base : List Byte} {f : Spool σ} (h : Finished base f) :
    Records f.log where
  line := h.ok.line
  comments := h.ok.comments
  offset r hr := (h.ok.offset r hr).2.trans_lt h.size

theorem Finished.drop_firstRecord {base : List Byte} {f : Spool σ} (h : Finished base f) :
    f.pagesFile.drop (f.firstRecord base) =
      f.log.flatMap PageRec.bytes ++ trailerRecord f.text := by
  have hpages := h.ok.pages
  rw [List.append_nil, ← List.append_assoc] at hpages
  rw [Spool.pagesFile, hpages, Spool.firstRecord, ← List.length_append, List.append_assoc,
    List.drop_left]

theorem Finished.length_pages {base : List Byte} {f : Spool σ} (h : Finished base f) :
    f.pages.length = f.firstRecord base + (f.log.flatMap PageRec.bytes).length := by
  have hpages := h.ok.pages
  rw [List.append_nil] at hpages
  rw [hpages, Spool.firstRecord]
  simp only [List.length_append]
  omega

theorem readBack_of_fit {base : List Byte} {f : Spool σ} (h : Finished base f) (hfit : f.Fit) :
    ReadBack base f := by
  have hdrop := h.drop_firstRecord
  have hlen := h.length_pages
  have hfirst : f.firstRecord base = base.length := by simp [Spool.firstRecord, hfit.1]
  refine ⟨fun r hr => (h.ok.offset r hr).1, fun descend select => ⟨?_, fun x hx => ?_⟩⟩
  · have hcount := length_fileOrder descend f.pagenumber
    rw [hfirst] at hdrop hlen ⊢
    have hloop := pagetableLoop_fits h.records hfit.2 select
      ((fileOrder descend f.pagenumber).countP select) (fileOrder descend f.pagenumber) []
      (hcount.trans h.ok.count) (by simp) hdrop
    rw [List.nil_append, ← hlen] at hloop
    rw [makePagetable]
    split_ifs with hzero
    · have hlog : f.log = [] := List.length_eq_zero_iff.1 (h.ok.count ▸ hzero)
      rw [hlen, hlog]
      simp [chosen, located]
    · have hchosen := length_chosen select (fileOrder descend f.pagenumber)
        (l := located base.length f.log) (by rw [hcount, length_located, h.ok.count])
      dsimp only
      rw [hloop]
      show (if _ then _ else _) = _
      rw [if_neg (not_not.2 hchosen)]
  · exact copyPageComments_located h.records hfit.2 hdrop x (mem_of_mem_chosen hx)

/-- A stray comment is not taken for a page. -/
theorem readPageHead_stray {c : List Byte} (h : file.drop pos = lineBytes c ++ rest)
    (h0 : 0 ∉ c) (hc : lmatch c "%%Page:" = false) {e : PageEntry} :
    readPageHead file pos ≠ .ok e := by
  intro he
  by_cases hf : Fits c
  · rw [readPageHead, getpline_fits h hf h0] at he
    simp only [hc, if_true] at he
    cases he
  · obtain ⟨got, hpre, -, hget⟩ := getpline_unfit h hf h0
    have hno : lmatch got.dropLast "%%Page:" = false := by
      rw [← Bool.not_eq_true] at hc ⊢
      intro hm
      refine hc (List.isPrefixOf_iff_prefix.2 ?_)
      exact (List.isPrefixOf_iff_prefix.1 hm).trans ((List.dropLast_prefix got).trans hpre)
    rw [readPageHead, hget] at he
    simp only [hno, if_true] at he
    cases he

/-- The file after its defaults section. -/
theorem Finished.drop_base {base : List Byte} {f : Spool σ} (h : Finished base f) :
    f.pagesFile.drop base.length =
      f.stray.flatMap lineBytes ++ (f.log.flatMap PageRec.bytes ++ trailerRecord f.text) := by
  have hpages := h.ok.pages
  rw [List.append_nil] at hpages
  rw [Spool.pagesFile, hpages, List.append_assoc, List.drop_left, List.append_assoc]

theorem fit_of_readBack {base : List Byte} {f : Spool σ} (h : Finished base f)
    (hread : ReadBack base f) : f.Fit := by
  obtain ⟨htable, hcopy⟩ := hread.2 false fun _ => true
  have hcount := length_fileOrder false f.pagenumber
  have hloc := length_located (f.firstRecord base) f.log
  rw [chosen_true (by rw [hcount, hloc, h.ok.count])] at htable
  rw [chosen_true (by rw [hcount, List.length_zip, hloc, Nat.min_self, h.ok.count])] at hcopy
  rw [makePagetable] at htable
  split_ifs at htable with hzero
  · -- There are no pages, and the reader has not moved.
    have hlog : f.log = [] := List.length_eq_zero_iff.1 (h.ok.count ▸ hzero)
    have hpos := congrArg Prod.snd (Except.ok.inj htable)
    have hlen := h.length_pages
    simp only [hlog, List.flatMap_nil, List.length_nil, Spool.firstRecord] at hlen
    have hstray := length_le_flatMap_lineBytes f.stray
    refine ⟨List.length_eq_zero_iff.1 ?_, by simp [hlog]⟩
    simp only at hpos
    omega
  · obtain ⟨r, hloop, hr⟩ := Outcome.bind_eq_ok htable
    split_ifs at hr
    cases hr
    have hne : fileOrder false f.pagenumber ≠ [] := by
      rw [← List.length_pos_iff, hcount]
      omega
    obtain ⟨page, pages, hpages⟩ := List.exists_cons_of_ne_nil hne
    have hstray : f.stray = [] := by
      by_contra hs
      obtain ⟨c, cs, hcs⟩ := List.exists_cons_of_ne_nil hs
      have hdrop := h.drop_base
      rw [hcs, List.flatMap_cons, List.append_assoc] at hdrop
      obtain ⟨hc, h0⟩ := h.ok.stray c (hcs ▸ List.mem_cons_self ..)
      rw [hpages] at hloop
      obtain ⟨e, he, -⟩ := Outcome.bind_eq_ok hloop
      exact readPageHead_stray hdrop h0 hc he
    have hfirst : f.firstRecord base = base.length := by simp [Spool.firstRecord, hstray]
    rw [hfirst] at hloop hcopy
    exact ⟨hstray, fits_of_pagetableLoop h.records (hcount.trans h.ok.count)
      (hfirst ▸ h.drop_firstRecord) hloop hcopy⟩

/-! ## The size of the text -/

variable {T : PageThings σ}

theorem text_dumped (ds : List (List Byte)) (s : Spool σ) :
    (ds.foldl (fun s c => s.comment (ascii "%%" ++ cstr c)) s).text = s.text := by
  induction ds generalizing s with
  | nil => rfl
  | cons d ds ih => exact ih _

theorem text_endOfPage (s : Spool σ) : (endOfPageProcessing T s).text = s.text :=
  text_dumped _ _

theorem length_cstr_le (l : List Byte) : (cstr l).length ≤ l.length := 
  (List.takeWhile_prefix _).length_le

theorem text_line_le (s : Spool σ) (l : DscLine) (f : Fate) :
    (readPagesLine T s l f).text.length ≤ s.text.length + (l.line.length + 1) := by
  have hc := length_cstr_le l.line
  cases f with
  | page =>
    simp only [readPagesLine, startPage]
    split_ifs
    · simp only [text_endOfPage, List.length_append, List.length_singleton]
      omega
    · simp only [List.length_append, List.length_singleton]
      omega
  | setup | trailer | text =>
    simp only [readPagesLine, Spool.toText, List.length_append, List.length_singleton]
    omega
  | comment | skip | stop =>
    simp only [readPagesLine, Spool.comment]
    omega
  | body =>
    simp only [readPagesLine]
    split_ifs <;> simp

/-- "-text" grows by no more than the lines and their linefeeds. -/
theorem text_readPages_le (lines : List DscLine) (s : Spool σ) :
    (readPages T lines s).text.length ≤
      s.text.length + (lines.map fun l => l.line.length + 1).sum := by
  induction lines generalizing s with
  | nil =>
    rw [readPages]
    split_ifs
    · rw [text_endOfPage]
      exact Nat.le_add_right _ _
    · exact Nat.le_add_right _ _
  | cons l lines ih =>
    have hline := text_line_le (T := T) (s.noting (fate T (s.pageheader || s.pagetrailer) l
      s.things).2) l (fate T (s.pageheader || s.pagetrailer) l s.things).1
    rw [readPages, List.map_cons, List.sum_cons]
    split_ifs
    · rw [text_endOfPage]
      exact Nat.le_add_right _ _
    · exact Nat.le_add_right _ _
    · refine (ih _).trans ?_
      simp only [Spool.noting] at hline ⊢
      omega

theorem finished_readPages (base : List Byte) {text : List Byte} (things : σ) {lines : List DscLine}
    (hsize : text.length + (lines.map fun l => l.line.length + 1).sum < 2 ^ 63) :
    Finished base (readPages T lines (Spool.start base text things)) where
  ok := readPages_ok lines (start_ok base text things)
  size := (text_readPages_le lines _).trans_lt hsize

theorem fit_start (base text : List Byte) (things : σ) : (Spool.start base text things).Fit :=
  ⟨rfl, fun _ hr => absurd hr List.not_mem_nil⟩

/-- The "-pages" file of a job is read back correctly exactly if every line that goes to it fits the
reader's buffer, and follows a "%%Page:" line. -/
theorem readBack_iff_allFit (base text : List Byte) (things : σ) (lines : List DscLine)
    (hsize : text.length + (lines.map fun l => l.line.length + 1).sum < 2 ^ 63) :
    ReadBack base (readPages T lines (Spool.start base text things)) ↔
      AllFit T lines false true false things := by
  have hfin := finished_readPages (T := T) base things hsize
  have hfit := fit_readPages (T := T) lines (start_ok base text things)
  constructor
  · exact fun h => (hfit.1 (fit_of_readBack hfin h)).2
  · exact fun h => readBack_of_fit hfin (hfit.2 ⟨fit_start base text things, h⟩)

/-- Nothing is noted for a page, and every comment is copied. -/
def plainThings : PageThings Unit :=
  { atend := fun _ => false
    pagelevel := fun _ x => (true, x)
    prepare := id
    dump := fun x => ([], x) }

/-- What is written of a page with one page-level comment. -/
def pageWithComment (comment : List Byte) : Spool Unit :=
  readPages plainThings
    [{ line := ascii "%%Page: 1 1", overflow := false, nested := false },
     { line := comment, overflow := false, nested := false }] (Spool.start [] [] ())

/-- A comment of 255 bytes is cut, and its linefeed taken for the end of the record. -/
theorem longComment_not_readBack :
    ¬ ReadBack [] (pageWithComment (ascii "%%PageCustomColors: " ++ List.replicate 235 0x78)) := by
  intro h
  have hfit := fit_of_readBack (finished_readPages _ _ (by decide +kernel)) h
  exact absurd hfit (by decide +kernel)

/-- A comment that fits is read back. -/
theorem readBack_iff_allFit_short :
    ReadBack [] (pageWithComment (ascii "%%PageOrientation: Portrait")) := by
  refine (readBack_iff_allFit [] [] () _ (by decide +kernel)).2 ?_
  exact ((fit_readPages _ (start_ok [] [] ())).1 (by decide +kernel)).2

end Ppr
