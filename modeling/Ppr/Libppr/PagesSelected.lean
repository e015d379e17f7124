import Ppr.Lib.Outcome
import Ppr.Libppr.Pagemask
import Ppr.Libppr.QEntryReadBack

/-!
# What a list of pages selects

A list of pages is a list of items with commas between them.  The mask that `pagemask_encode()` makes
is described by the set of pages whose bits are set; a byte of it stands for six pages.
-/

open Outcome

namespace Ppr.QEntryFile

/-! ## Lists of pages -/

/-- The digits of a number. -/
structure PageNumber where
  text : List Byte
  ne_nil : text ≠ []
  digits : ∀ c ∈ text, isdigit c = true

def PageNumber.value (n : PageNumber) : ℕ := digitsValue n.text

/-- "n", "n-m", "-m" and "n-". -/
inductive PageItem where
  | single (n : PageNumber)
  | range (n m : PageNumber)
  | upTo (m : PageNumber)
  | onwards (n : PageNumber)

inductive PageToken where
  | number (n : PageNumber)
  | hyphen
  | comma

def PageToken.text : PageToken → List Byte
  | .number n => n.text
  | .hyphen => [45]
  | .comma => [44]

namespace PageItem

def tokens : PageItem → List PageToken
  | .single n => [.number n]
  | .range n m => [.number n, .hyphen, .number m]
  | .upTo m => [.hyphen, .number m]
  | .onwards n => [.number n, .hyphen]

/-- The item contains page `p`; a range whose numbers are not in order is its first number. -/
def contains : PageItem → ℕ → Prop
  | .single n, p => p = n.value
  | .range n m, p => p = n.value ∨ n.value ≤ p ∧ p ≤ m.value
  | .upTo m, p => p ≤ m.value
  | .onwards n, p => n.value ≤ p

/-- The bit of page `p` is set for the item, when the running page is `start`. -/
def marks (start : ℕ) : PageItem → ℕ → Prop
  | .upTo m, p => start ≤ p ∧ p ≤ m.value
  | i, p => i.contains p

/-- The item ends with a range that has been closed, so that the running page is 1 again. -/
def closes : PageItem → Bool
  | .range .. | .upTo _ => true
  | .single _ | .onwards _ => false

def isUpTo : PageItem → Bool
  | .upTo _ => true
  | _ => false

end PageItem

/-- The items with commas between them. -/
def pageTokens : List PageItem → List PageToken
  | [] => []
  | [i] => i.tokens
  | i :: is => i.tokens ++ .comma :: pageTokens is

/-- A text that consists of tokens, with spaces anywhere between them. -/
inductive Spaced : List PageToken → List Byte → Prop
  | nil {sp : List Byte} : (∀ c ∈ sp, isspace c = true) → Spaced [] sp
  | cons {sp : List Byte} {t : PageToken} {ts : List PageToken} {rest : List Byte} :
      (∀ c ∈ sp, isspace c = true) → Spaced ts rest → Spaced (t :: ts) (sp ++ (t.text ++ rest))

/-- A character that a list of pages can have. -/
def isPageChar (c : Byte) : Bool := isspace c || isdigit c || c = 44 || c = 45

/-- Every number in the text is an `int`. -/
def SmallNumbers (text : List Byte) : Prop :=
  ∀ d, d <:+: text → (∀ c ∈ d, isdigit c = true) → digitsValue d < 2 ^ 31

/-! ## The bits -/

theorem bit_eq {y : ℕ} (hy : y < 32) : bit (y : ℕ) = BitVec.twoPow 32 y := by
  have hmod : ((y : ℤ) % 32).toNat = y := by omega
  rw [bit, hmod]
  rfl

theorem bit_spec (y : ℕ) (hy : y < 6) (b : ℕ) (hb : b < 8) :
    ((bit (y : ℕ)).setWidth 8).getLsbD b = decide (b = y) := by
  rw [bit_eq (by omega), BitVec.getLsbD_setWidth, BitVec.getLsbD_twoPow]
  simp [hb, show y < 32 by omega, eq_comm]

/-- The bits of the mask are those of the pages with the property `S`, as far as there are such
pages. -/
structure Marked (N : ℕ) (S : ℕ → Prop) (mask : List Byte) : Prop where
  length : mask.length = (N + 5) / 6 + 1
  bits : ∀ x, ∀ b < 8, (mask.getD x 0).getLsbD b = true ↔
    b < 6 ∧ 6 * x + b + 1 ≤ N ∧ S (6 * x + b + 1)

variable {N : ℕ} {S : ℕ → Prop} {mask : List Byte}

theorem Marked.congr {T : ℕ → Prop} (h : Marked N S mask)
    (hST : ∀ p, 1 ≤ p → p ≤ N → (S p ↔ T p)) : Marked N T mask where
  length := h.length
  bits x b hb := by
    rw [h.bits x b hb]
    refine and_congr_right fun _ => and_congr_right fun hN => hST _ (by omega) hN

theorem marked_replicate (N : ℕ) : Marked N (fun _ => False) (List.replicate ((N + 5) / 6 + 1) 0) where
  length := List.length_replicate
  bits x b hb := by
    have hzero : (List.replicate ((N + 5) / 6 + 1) (0 : Byte)).getD x 0 = 0 := by
      rw [List.getD_eq_getElem?_getD, List.getElem?_replicate]
      split_ifs <;> rfl
    rw [hzero]
    simp

/-- One more page. -/
theorem Marked.setPage (h : Marked N S mask) {p : ℕ} (hp : 1 ≤ p) (hN : p ≤ N) :
    ∃ mask', setPage mask p = .ok mask' ∧ Marked N (fun r => S r ∨ r = p) mask' := by
  obtain ⟨o, rfl⟩ : ∃ o, p = o + 1 := ⟨p - 1, by omega⟩
  have hoff : ((o + 1 : ℕ) : ℤ) - 1 = o := by push_cast; ring
  have hdiv : (o : ℤ).tdiv 6 = ((o / 6 : ℕ) : ℤ) := by
    rw [Int.tdiv_eq_ediv_of_nonneg (by omega)]
    norm_cast
  have hmod : (o : ℤ).tmod 6 = ((o % 6 : ℕ) : ℤ) := by
    rw [Int.tmod_eq_emod_of_nonneg (by omega)]
    norm_cast
  have hlt : o / 6 < mask.length := by
    rw [h.length]
    omega
  refine ⟨mask.modify (o / 6) fun c => c ||| (bit ((o % 6 : ℕ) : ℤ)).setWidth 8, ?_, ?_⟩
  · unfold QEntryFile.setPage
    dsimp only
    rw [hoff, hdiv, hmod, if_pos (by omega), Int.toNat_natCast]
  · refine ⟨by rw [List.length_modify, h.length], fun x b hb => ?_⟩
    have hx : (mask.modify (o / 6) fun c => c ||| (bit ((o % 6 : ℕ) : ℤ)).setWidth 8).getD x 0 =
        if o / 6 = x then mask.getD x 0 ||| (bit ((o % 6 : ℕ) : ℤ)).setWidth 8
        else mask.getD x 0 := by
      rw [List.getD_eq_getElem?_getD, List.getElem?_modify, List.getD_eq_getElem?_getD]
      split_ifs with hox
      · subst hox
        rw [List.getElem?_eq_getElem hlt]
        rfl
      · simp
    rw [hx]
    split_ifs with hox
    · rw [BitVec.getLsbD_or, Bool.or_eq_true, h.bits x b hb,
        bit_spec (o % 6) (Nat.mod_lt _ (by decide)) b hb, decide_eq_true_eq]
      constructor
      · rintro (⟨h6, hle, hS⟩ | rfl)
        · exact ⟨h6, hle, .inl hS⟩
        · exact ⟨by omega, by omega, .inr (by omega)⟩
      · rintro ⟨h6, hle, hS | hpo⟩
        · exact .inl ⟨h6, hle, hS⟩
        · exact .inr (by omega)
    · rw [h.bits x b hb]
      refine and_congr_right fun h6 => and_congr_right fun _ => ?_
      exact ⟨.inl, fun hS => hS.resolve_right (by omega)⟩

/-- There is no page 0; its bit is none of those of the first byte. -/
theorem Marked.setPage_zero (h : Marked N S mask) : QEntryFile.setPage mask 0 = .ok mask := by
  have hpos : 0 < mask.length := by
    rw [h.length]
    omega
  have hzero : ∀ c : Byte, c ||| (bit (Int.tmod (0 - 1) 6)).setWidth 8 = c := by
    decide +kernel
  unfold QEntryFile.setPage
  dsimp only
  rw [if_pos ⟨by decide, by simpa using hpos⟩]
  congr 1
  refine List.ext_getElem (by simp) fun i hi hi' => ?_
  rw [List.getElem_modify]
  split_ifs
  · exact hzero _
  · rfl

/-- The pages from `a` on. -/
theorem Marked.setMore (h : Marked N S mask) (a n : ℕ) (hN : n = 0 ∨ a + n ≤ N + 1) :
    ∃ mask', (List.range n).foldlM (fun mask (i : ℕ) => QEntryFile.setPage mask ((a : ℤ) + i)) mask =
      .ok mask' ∧ Marked N (fun p => S p ∨ a ≤ p ∧ p < a + n) mask' := by
  induction n with
  | zero => exact ⟨mask, rfl, h.congr fun p _ _ => ⟨.inl, fun hS => hS.resolve_right (by omega)⟩⟩
  | succ n ih =>
    obtain ⟨mask', hfold, hmask'⟩ := ih (by omega)
    rw [List.range_succ, List.foldlM_append, hfold]
    by_cases h0 : a + n = 0
    · obtain ⟨rfl, rfl⟩ : a = 0 ∧ n = 0 := by omega
      refine ⟨mask', ?_, hmask'.congr fun p hp _ => or_congr_right (by omega)⟩
      show (QEntryFile.setPage mask' 0 >>= fun mask => .ok mask) = _
      rw [hmask'.setPage_zero]
      rfl
    · obtain ⟨mask'', hset, hmask''⟩ := hmask'.setPage (p := a + n) (by omega) (by omega)
      refine ⟨mask'', ?_, hmask''.congr fun p _ _ => ?_⟩
      · show (QEntryFile.setPage mask' ((a : ℤ) + n) >>= fun mask => .ok mask) = _
        rw [← Nat.cast_add, hset]
        rfl
      · rw [or_assoc]
        exact or_congr_right (by omega)

/-! ## The tokens -/

/-- The state of the parser: the pages whose bits are set, the running page, and whether a range is
open. -/
structure Parsed (N : ℕ) (S : ℕ → Prop) (page : ℕ) (range : Bool) (s : Encoding) : Prop where
  mask : Marked N S s.mask
  page : s.page = page
  range : s.range = range

variable {page : ℕ} {range : Bool} {s : Encoding}

/-- The bits from the running page to `value` are set. -/
theorem Parsed.setPages (h : Parsed N S page range s) (value : ℕ) :
    ∃ t, s.setPages N value = .ok t ∧
      Parsed N (fun p => S p ∨ page ≤ p ∧ p ≤ value) (max page (min value N + 1)) range t := by
  have hn : s.rounds N value = min value N + 1 - page := by
    unfold Encoding.rounds
    rw [h.page]
    omega
  obtain ⟨mask', hfold, hmask'⟩ := h.mask.setMore page (min value N + 1 - page) (by omega)
  refine ⟨{ s with mask := mask', page := s.page + (min value N + 1 - page : ℕ) }, ?_,
    hmask'.congr fun p _ _ => or_congr_right (by omega), ?_, h.range⟩
  · unfold Encoding.setPages
    dsimp only
    rw [hn, h.page, hfold]
    rfl
  · dsimp only
    rw [h.page]
    omega

/-- A number where no range is open. -/
theorem Parsed.start (h : Parsed N S page false s) (value : ℕ) :
    ∃ t, s.number N value = .ok t ∧
      Parsed N (fun p => S p ∨ p = value) (max value (min value N + 1)) false t := by
  obtain ⟨t, ht, hp⟩ := Parsed.setPages (s := { s with page := value }) ⟨h.mask, rfl, h.range⟩ value
  refine ⟨t, ?_, hp.mask.congr fun p _ _ => or_congr_right (by omega), hp.page, hp.range⟩
  have hs : (if s.range then s else { s with page := (value : ℤ) }) = { s with page := (value : ℤ) } :=
    if_neg (by simp [h.range])
  unfold Encoding.number
  rw [hs]
  dsimp only
  rw [ht]
  show Except.ok (if t.range then _ else t) = _
  rw [hp.range, if_neg (by decide)]

/-- A number that ends a range. -/
theorem Parsed.finish (h : Parsed N S page true s) (value : ℕ) :
    ∃ t, s.number N value = .ok t ∧ Parsed N (fun p => S p ∨ page ≤ p ∧ p ≤ value) 1 false t := by
  obtain ⟨t, ht, hp⟩ := h.setPages value
  refine ⟨{ t with range := false, page := 1 }, ?_, hp.mask, rfl, rfl⟩
  unfold Encoding.number
  rw [h.range, if_pos rfl]
  show (s.setPages N value >>= _) = _
  rw [ht]
  show Except.ok (if t.range then _ else t) = _
  rw [hp.range, if_pos rfl]

theorem Parsed.hyphen (h : Parsed N S page range s) :
    Parsed N S page true { s with range := true } :=
  ⟨h.mask, h.page, rfl⟩

theorem Parsed.close_closed (h : Parsed N S page false s) : s.close N = .ok s := by
  unfold Encoding.close
  rw [h.range, if_neg (by decide)]

/-- An open range. -/
theorem Parsed.close_range (h : Parsed N S page true s) :
    ∃ t, s.close N = .ok t ∧
      Parsed N (fun p => S p ∨ page ≤ p ∧ p ≤ N) (max page (N + 1)) false t := by
  obtain ⟨t, ht, hp⟩ := h.setPages N
  refine ⟨{ t with range := false }, ?_, hp.mask, by simpa using hp.page, rfl⟩
  unfold Encoding.close
  rw [h.range, if_pos rfl, ht]
  rfl

/-- What is done with a token. -/
def Encoding.token (pages : ℤ) (s : Encoding) : PageToken → Except WildWrite Encoding
  | .number n => s.number pages n.value
  | .hyphen => .ok { s with range := true }
  | .comma => s.close pages

def PageToken.isNumber : PageToken → Bool
  | .number _ => true
  | _ => false

theorem intOfDigits_eq {d : List Byte} (h : digitsValue d < 2 ^ 31) :
    intOfDigits d = digitsValue d := by
  unfold intOfDigits
  rw [min_eq_left (by omega), BitVec.toInt_eq_toNat_of_lt]
  · rw [BitVec.toNat_ofNat, Nat.mod_eq_of_lt (by omega)]
  · rw [BitVec.toNat_ofNat]
    omega

theorem SmallNumbers.of_suffix {text rest : List Byte} (h : SmallNumbers text)
    (hs : rest <:+ text) : SmallNumbers rest :=
  fun d hd => h d (hd.trans hs.isInfix)

/-- A short text has small numbers. -/
theorem SmallNumbers.of_length {text : List Byte} (h : text.length ≤ 9) : SmallNumbers text := by
  have hdigit : ∀ c, isdigit c = true → c.toNat - 48 ≤ 9 := by
    intro c hc
    have := isdigit_iff.1 hc
    omega
  have hlt : ∀ d : List Byte, (∀ c ∈ d, isdigit c = true) → digitsValue d < 10 ^ d.length := by
    intro d
    induction d using List.reverseRecOn with
    | nil => intro _; decide
    | append_singleton d c ih =>
      intro hd
      have hlast := hdigit c (hd c (by simp))
      have hinit := ih fun e he => hd e (List.mem_append_left _ he)
      have happend : digitsValue (d ++ [c]) = digitsValue d * 10 + (c.toNat - 48) := by
        simp [digitsValue]
      rw [happend, List.length_append, List.length_singleton, Nat.pow_succ]
      omega
  intro d hd hdigits
  calc digitsValue d < 10 ^ d.length := hlt d hdigits
    _ ≤ 10 ^ 9 := Nat.pow_le_pow_right (by decide) (hd.length_le.trans h)
    _ < 2 ^ 31 := by decide

/-! ## A single item -/

/-- An item up to its comma or the end of the list. -/
def Encoding.item (pages : ℤ) (s : Encoding) (i : PageItem) : Except WildWrite Encoding := do
  let s ← i.tokens.foldlM (Encoding.token pages) s
  s.close pages

/-- Behind an item, no range is open; the running page is 1 if the item has closed one. -/
theorem Parsed.item (h : Parsed N S page false s) (i : PageItem) :
    ∃ t page', s.item N i = .ok t ∧ Parsed N (fun p => S p ∨ i.marks page p) page' false t ∧
      (i.closes → page' = 1) := by
  cases i with
  | single n =>
    obtain ⟨t, ht, hp⟩ := h.start n.value
    refine ⟨t, _, ?_, hp, nofun⟩
    show (s.number N n.value >>= fun t => .ok t) >>= Encoding.close N = _
    rw [ht]
    exact hp.close_closed
  | range n m =>
    obtain ⟨t, ht, hp⟩ := h.start n.value
    obtain ⟨u, hu, hq⟩ := hp.hyphen.finish m.value
    refine ⟨u, 1, ?_, ⟨hq.mask.congr fun p _ hN => ?_, hq.page, hq.range⟩, fun _ => rfl⟩
    · show ((s.number N n.value >>= fun t => .ok { t with range := true } >>= fun t =>
        t.number N m.value >>= fun t => .ok t) >>= Encoding.close N) = _
      rw [ht]
      show ((({ t with range := true } : Encoding).number N m.value >>= fun t => .ok t) >>=
        Encoding.close N) = _
      rw [hu]
      exact hq.close_closed
    · rw [or_assoc]
      refine or_congr_right ?_
      unfold PageItem.marks PageItem.contains
      omega
  | upTo m =>
    obtain ⟨t, ht, hp⟩ := h.hyphen.finish m.value
    refine ⟨t, 1, ?_, hp, fun _ => rfl⟩
    show ((({ s with range := true } : Encoding).number N m.value >>= fun t => .ok t) >>=
      Encoding.close N) = _
    rw [ht]
    exact hp.close_closed
  | onwards n =>
    obtain ⟨t, ht, hp⟩ := h.start n.value
    obtain ⟨u, hu, hq⟩ := hp.hyphen.close_range
    refine ⟨u, _, ?_, ⟨hq.mask.congr fun p _ hN => ?_, hq.page, hq.range⟩, nofun⟩
    · show ((s.number N n.value >>= fun t => .ok { t with range := true }) >>= Encoding.close N) = _
      rw [ht]
      exact hu
    · rw [or_assoc]
      refine or_congr_right ?_
      unfold PageItem.marks PageItem.contains
      omega

/-! ## Any text -/

theorem Parsed.number (h : Parsed N S page range s) (value : ℕ) :
    ∃ t T page', s.number N value = .ok t ∧ Parsed N T page' false t := by
  cases range with
  | false =>
    obtain ⟨t, ht, hp⟩ := h.start value
    exact ⟨t, _, _, ht, hp⟩
  | true =>
    obtain ⟨t, ht, hp⟩ := h.finish value
    exact ⟨t, _, _, ht, hp⟩

theorem Parsed.close (h : Parsed N S page range s) :
    ∃ t T page', s.close N = .ok t ∧ Parsed N T page' false t := by
  cases range with
  | false => exact ⟨s, S, page, h.close_closed, h⟩
  | true =>
    obtain ⟨t, ht, hp⟩ := h.close_range
    exact ⟨t, _, _, ht, hp⟩

/-- The digits in front of a text are an `int`. -/
theorem SmallNumbers.intOfDigits {text : List Byte} (h : SmallNumbers text) :
    intOfDigits (text.takeWhile isdigit) = digitsValue (text.takeWhile isdigit) := by
  apply intOfDigits_eq
  exact h _ (List.takeWhile_prefix _).isInfix fun c hc => List.mem_takeWhile_imp hc

/-- Whatever the text is, no byte outside of the mask is written, and the text is accepted if it has
no other characters than those of a list. -/
theorem Parsed.encodeLoop {n : ℕ} {text : List Byte} (hn : text.length ≤ n)
    (hsmall : SmallNumbers text) (h : Parsed N S page range s) :
    ∃ t T page' range', QEntryFile.encodeLoop N n text s = .ok (t, text.all isPageChar) ∧
      Parsed N T page' range' t := by
  induction n generalizing text S page range s with
  | zero =>
    obtain rfl : text = [] := List.length_eq_zero_iff.1 (by omega)
    obtain ⟨t, T, page', ht, hp⟩ := h.close
    refine ⟨t, T, page', false, ?_, hp⟩
    unfold QEntryFile.encodeLoop
    rw [ht]
    rfl
  | succ n ih =>
    cases text with
    | nil =>
      obtain ⟨t, T, page', ht, hp⟩ := h.close
      refine ⟨t, T, page', false, ?_, hp⟩
      unfold QEntryFile.encodeLoop
      rw [ht]
      rfl
    | cons c p =>
      have hp := hsmall.of_suffix (List.suffix_cons c p)
      have hlen : p.length ≤ n := by simpa using hn
      unfold QEntryFile.encodeLoop
      rw [List.all_cons]
      by_cases hspace : isspace c
      · have hc : isPageChar c = true := by simp [isPageChar, hspace]
        rw [if_pos hspace, hc, Bool.true_and]
        exact ih hlen hp h
      rw [if_neg hspace]
      by_cases hdigit : isdigit c
      · obtain ⟨t, T, page', ht, hparsed⟩ := h.number (digitsValue ((c :: p).takeWhile isdigit))
        have hall : (isPageChar c && p.all isPageChar) =
            ((c :: p).dropWhile isdigit).all isPageChar := by
          have htake : ((c :: p).takeWhile isdigit).all isPageChar = true := by
            rw [List.all_eq_true]
            intro x hx
            simp [isPageChar, List.mem_takeWhile_imp hx]
          rw [← Bool.true_and (((c :: p).dropWhile isdigit).all isPageChar), ← htake,
            ← List.all_append, List.takeWhile_append_dropWhile, List.all_cons]
        rw [if_pos hdigit, hsmall.intOfDigits, ht, hall]
        refine ih ?_ (hsmall.of_suffix (List.dropWhile_suffix _)) hparsed
        rw [List.dropWhile_cons_of_pos hdigit]
        exact (List.dropWhile_suffix _).length_le.trans hlen
      rw [if_neg hdigit]
      by_cases hcomma : c = 44
      · obtain ⟨t, T, page', ht, hparsed⟩ := h.close
        have hc : isPageChar c = true := by simp [isPageChar, hcomma]
        rw [if_pos hcomma, hc, Bool.true_and, ht]
        exact ih hlen hp hparsed
      rw [if_neg hcomma]
      by_cases hhyphen : c = 45
      · have hc : isPageChar c = true := by simp [isPageChar, hhyphen]
        rw [if_pos hhyphen, hc, Bool.true_and]
        exact ih hlen hp h.hyphen
      · have hc : isPageChar c = false := by
          simp only [isPageChar, hspace, hdigit, decide_eq_false hcomma, decide_eq_false hhyphen]
          rfl
        rw [if_neg hhyphen, hc, Bool.false_and]
        exact ⟨s, S, page, range, rfl, h⟩

/-! ## A list of items -/

/-- The tokens can be told apart without spaces. -/
def Separated (ts : List PageToken) : Prop :=
  ts.IsChain fun a b => ¬ (a.isNumber = true ∧ b.isNumber = true)

theorem separated_pageTokens : ∀ items : List PageItem, Separated (pageTokens items)
  | [] => List.isChain_nil
  | [i] => by cases i <;> simp [pageTokens, PageItem.tokens, Separated, PageToken.isNumber]
  | i :: j :: is => by
    have ih := separated_pageTokens (j :: is)
    have hcomma : Separated (.comma :: pageTokens (j :: is)) :=
      List.isChain_cons.2 ⟨fun _ _ h => absurd h.1 (by decide), ih⟩
    cases i <;> simpa [pageTokens, PageItem.tokens, Separated, PageToken.isNumber] using hcomma

/-- What follows a number does not go on with a digit. -/
theorem Spaced.head_not_digit {ts : List PageToken} {text : List Byte} (h : Spaced ts text)
    (hts : ∀ t ∈ ts.head?, t.isNumber = false) : ∀ c ∈ text.head?, isdigit c = false := by
  have hsp : ∀ c, isspace c = true → isdigit c = false := by
    intro c hc
    by_contra hd
    rw [not_isspace_of_isdigit c (by simpa using hd)] at hc
    cases hc
  cases h with
  | nil hspaces =>
    intro c hc
    exact hsp c (hspaces c (List.mem_of_mem_head? hc))
  | @cons sp t ts rest hspaces hrest =>
    intro c hc
    cases sp with
    | nil =>
      cases t with
      | number n => cases hts _ rfl
      | hyphen =>
        cases hc
        decide
      | comma =>
        cases hc
        decide
    | cons d sp =>
      cases hc
      exact hsp c (hspaces c List.mem_cons_self)

theorem encodeLoop_spaces (pages : ℤ) {sp : List Byte} (hsp : ∀ c ∈ sp, isspace c = true)
    {n : ℕ} (rest : List Byte) (s : Encoding) :
    encodeLoop pages (sp.length + n) (sp ++ rest) s = encodeLoop pages n rest s := by
  induction sp with
  | nil => rw [List.length_nil, Nat.zero_add, List.nil_append]
  | cons c sp ih =>
    rw [List.length_cons, Nat.add_right_comm, List.cons_append]
    conv => lhs; unfold encodeLoop
    rw [if_pos (hsp c List.mem_cons_self)]
    exact ih fun d hd => hsp d (List.mem_cons_of_mem c hd)

theorem Separated.tail {a : PageToken} {ts : List PageToken} (h : Separated (a :: ts)) :
    Separated ts :=
  (List.isChain_cons.1 h).2

theorem PageNumber.takeWhile (n : PageNumber) {rest : List Byte}
    (h : ∀ c ∈ rest.head?, isdigit c = false) :
    (n.text ++ rest).takeWhile isdigit = n.text ∧ (n.text ++ rest).dropWhile isdigit = rest :=
  span_append isdigit rest n.digits h

theorem encodeLoop_number (pages : ℤ) (m : PageNumber) {rest : List Byte}
    (hrest : ∀ c ∈ rest.head?, isdigit c = false) (hsmall : SmallNumbers (m.text ++ rest)) (k : ℕ)
    (s : Encoding) :
    encodeLoop pages (k + 1) (m.text ++ rest) s =
      s.number pages m.value >>= fun s => encodeLoop pages k rest s := by
  obtain ⟨htake, hdrop⟩ := m.takeWhile hrest
  have hvalue := hsmall.intOfDigits
  rw [htake] at hvalue
  obtain ⟨c, p, hm⟩ := List.exists_cons_of_ne_nil m.ne_nil
  have hdigit : isdigit c = true := m.digits c (by simp [hm])
  have hspace : ¬ isspace c = true := by simp [not_isspace_of_isdigit c hdigit]
  have hcons : m.text ++ rest = c :: (p ++ rest) := by simp [hm]
  rw [hcons]
  conv => lhs; unfold encodeLoop
  rw [if_neg hspace, if_pos hdigit, ← hcons, htake, hdrop, hvalue]
  rfl

theorem PageToken.length_pos : ∀ a : PageToken, 0 < a.text.length
  | .number m => List.length_pos_iff.2 m.ne_nil
  | .hyphen | .comma => Nat.one_pos

/-- The loop does with a text of tokens what is done with the tokens one by one. -/
theorem encodeLoop_spaced (pages : ℤ) {ts : List PageToken} {text : List Byte} (h : Spaced ts text)
    (hts : Separated ts) (hsmall : SmallNumbers text) {n : ℕ} (hn : text.length ≤ n)
    {s t : Encoding} (hrun : ts.foldlM (Encoding.token pages) s >>= Encoding.close pages = .ok t) :
    encodeLoop pages n text s = .ok (t, true) := by
  induction h generalizing n s with
  | @nil sp hsp =>
    obtain ⟨k, rfl⟩ := Nat.exists_eq_add_of_le hn
    have hspaces := encodeLoop_spaces pages hsp [] s (n := k)
    rw [List.append_nil] at hspaces
    rw [hspaces]
    have hclose : s.close pages = .ok t := hrun
    unfold encodeLoop
    rw [hclose]
    rfl
  | @cons sp a ts rest hsp hrest ih =>
    have hlen : sp.length + (a.text.length + rest.length) ≤ n := by simpa using hn
    have hpos := a.length_pos
    obtain ⟨k, rfl⟩ : ∃ k, n = sp.length + (k + 1) := ⟨n - sp.length - 1, by omega⟩
    rw [encodeLoop_spaces pages hsp]
    have hsmall := hsmall.of_suffix (List.suffix_append sp _)
    have hrun : Encoding.token pages s a >>= (fun u =>
        ts.foldlM (Encoding.token pages) u >>= Encoding.close pages) = .ok t := by
      rw [← bind_assoc]
      exact hrun
    obtain ⟨u, hu, hrun⟩ := bind_eq_ok hrun
    have hnext := ih hts.tail (hsmall.of_suffix (List.suffix_append a.text rest)) (n := k)
      (by omega) hrun
    cases a with
    | number m =>
      have hhead := hrest.head_not_digit fun t ht => by
        have hsep := (List.isChain_cons.1 hts).1 t ht
        simpa [PageToken.isNumber] using hsep
      have hu : s.number pages m.value = .ok u := hu
      show encodeLoop pages (k + 1) (m.text ++ rest) s = _
      rw [encodeLoop_number pages m hhead hsmall, hu]
      exact hnext
    | hyphen =>
      cases hu
      exact hnext
    | comma =>
      have hu : s.close pages = .ok u := hu
      show (s.close pages >>= fun s => encodeLoop pages k rest s) = _
      rw [hu]
      exact hnext

/-- The items one by one. -/
theorem pageTokens_foldlM {N : ℕ} {S : ℕ → Prop} {page : ℕ} {s : Encoding} (h : Parsed N S page false s)
    (items : List PageItem) :
    (pageTokens items).foldlM (Encoding.token N) s >>= Encoding.close N =
      items.foldlM (Encoding.item N) s := by
  induction items generalizing S page s with
  | nil => exact h.close_closed
  | cons i is ih =>
    obtain ⟨t, page', ht, hp, -⟩ := h.item i
    rw [List.foldlM_cons, ht]
    cases is with
    | nil => exact ht
    | cons j is =>
      have hitem : (i.tokens.foldlM (Encoding.token N) s >>= Encoding.close N) = .ok t := ht
      show (i.tokens ++ .comma :: pageTokens (j :: is)).foldlM (Encoding.token N) s >>= _ = _
      rw [List.foldlM_append]
      simp only [List.foldlM_cons, bind_assoc]
      rw [← bind_assoc]
      show (i.tokens.foldlM (Encoding.token N) s >>= Encoding.close N) >>= _ = _
      rw [hitem]
      exact ih hp

/-- A range from page 1 comes first, or behind an item that has closed a range. -/
def Restarted (items : List PageItem) : Prop :=
  items.IsChain fun i j => j.isUpTo = true → i.closes = true

/-- The pages of the items. -/
theorem Parsed.items {N : ℕ} {S : ℕ → Prop} {page : ℕ} {s : Encoding} (h : Parsed N S page false s)
    {items : List PageItem} (hitems : Restarted items)
    (hpage : ∀ i ∈ items.head?, i.isUpTo = true → page = 1) :
    ∃ t page', items.foldlM (Encoding.item N) s = .ok t ∧
      Parsed N (fun p => S p ∨ ∃ i ∈ items, i.contains p) page' false t := by
  induction items generalizing S page s with
  | nil => exact ⟨s, page, rfl, h.mask.congr fun p _ _ => by simp, h.page, h.range⟩
  | cons i is ih =>
    obtain ⟨t, page', ht, hp, hcloses⟩ := h.item i
    obtain ⟨hnext, hrest⟩ := List.isChain_cons.1 hitems
    obtain ⟨u, page'', hu, hq⟩ := ih hp hrest fun j hj hup => hcloses (hnext j hj hup)
    refine ⟨u, page'', ?_, hq.mask.congr fun p hp1 _ => ?_, hq.page, hq.range⟩
    · rw [List.foldlM_cons, ht]
      exact hu
    · have hmarks : i.marks page p ↔ i.contains p := by
        cases i with
        | upTo m =>
          rw [hpage _ rfl rfl]
          exact and_iff_right hp1
        | single n => exact Iff.rfl
        | range n m => exact Iff.rfl
        | onwards n => exact Iff.rfl
      simp only [or_assoc, hmarks, List.mem_cons, exists_eq_or_imp]

/-! ## The finished mask -/

/-- The bit of a page in the mask. -/
def pageBit (mask : List Byte) (o : ℕ) : Bool := (mask.getD (o / 6) 0).getLsbD (o % 6)

theorem Marked.pageBit_iff (h : Marked N S mask) (o : ℕ) :
    pageBit mask o = true ↔ o + 1 ≤ N ∧ S (o + 1) := by
  have hmod : o % 6 < 6 := Nat.mod_lt _ (by decide)
  have ho : 6 * (o / 6) + o % 6 + 1 = o + 1 := by rw [Nat.div_add_mod]
  unfold pageBit
  rw [h.bits (o / 6) (o % 6) (by omega), ho]
  exact and_iff_right hmod

theorem and_bit_ne (x : CInt) {y : ℕ} (hy : y < 32) :
    decide (x &&& bit (y : ℕ) ≠ 0) = x.getLsbD y := by
  have hne : BitVec.twoPow 32 y ≠ 0 := by
    intro h
    have := congrArg (fun z => z.getLsbD y) h
    simp [hy] at this
  rw [bit_eq hy, BitVec.and_twoPow]
  cases hx : x.getLsbD y with
  | false => rfl
  | true => exact decide_eq_true hne

theorem and_bit (c : Byte) (y : ℕ) (hy : y < 6) :
    decide (c.signExtend 32 &&& bit (y : ℕ) ≠ 0) = c.getLsbD y := by
  rw [and_bit_ne _ (by omega), BitVec.getLsbD_signExtend]
  simp [show y < 8 by omega, show y < 32 by omega]

theorem lt_of_clear {c : Byte} (h6 : c.getLsbD 6 = false) (h7 : c.getLsbD 7 = false) : c.toNat < 64 := by
  apply Nat.lt_pow_two_of_testBit (n := 6)
  intro i hi
  change c.getLsbD i = false
  rcases (by omega : i = 6 ∨ i = 7 ∨ 8 ≤ i) with rfl | rfl | hi
  · exact h6
  · exact h7
  · exact BitVec.getLsbD_of_ge c i hi

theorem toNat_add_33 {c : Byte} (h : c.toNat < 64) : (c + 33).toNat = c.toNat + 33 := by
  rw [BitVec.toNat_add]
  simp
  omega

/-- 33 is added and taken away again. -/
theorem and_bit_printable (c : Byte) (h6 : c.getLsbD 6 = false) (h7 : c.getLsbD 7 = false) (y : ℕ)
    (hy : y < 6) : decide (((c + 33).signExtend 32 - 33) &&& bit (y : ℕ) ≠ 0) = c.getLsbD y := by
  have hlt := lt_of_clear h6 h7
  have hsum : (c + 33).signExtend 32 - 33 = c.setWidth 32 := by
    have hmsb : (c + 33).msb = false := by
      rw [BitVec.msb_eq_false_iff_two_mul_lt, toNat_add_33 hlt]
      omega
    rw [BitVec.signExtend_eq_setWidth_of_msb_false hmsb]
    apply BitVec.eq_of_toNat_eq
    rw [BitVec.toNat_sub, BitVec.toNat_setWidth, toNat_add_33 hlt, BitVec.toNat_setWidth]
    simp
    omega
  rw [hsum, and_bit_ne _ (by omega), BitVec.getLsbD_setWidth]
  simp [show y < 32 by omega]

theorem printable (c : Byte) (h6 : c.getLsbD 6 = false) (h7 : c.getLsbD 7 = false) :
    isspace (c + 33) = false ∧ c + 33 ≠ newline := by
  have hsum := toNat_add_33 (lt_of_clear h6 h7)
  refine ⟨not_isspace_of_lt (by omega), fun he => ?_⟩
  rw [he] at hsum
  have : newline.toNat = 10 := rfl
  omega

/-- The two bits above the six are clear. -/
theorem Marked.clear (h : Marked N S mask) {c : Byte} (hc : c ∈ mask) :
    c.getLsbD 6 = false ∧ c.getLsbD 7 = false := by
  obtain ⟨x, hx, rfl⟩ := List.getElem_of_mem hc
  have hget : mask.getD x 0 = mask[x] := by
    rw [List.getD_eq_getElem?_getD, List.getElem?_eq_getElem hx]
    rfl
  have hbits := h.bits x
  rw [hget] at hbits
  constructor
  · by_contra hset
    have := ((hbits 6 (by decide)).1 (by simpa using hset)).1
    omega
  · by_contra hset
    have := ((hbits 7 (by decide)).1 (by simpa using hset)).1
    omega

theorem countP_pageBit (mask : List Byte) (k : ℕ) :
    ((List.range k).map fun x => (List.range 6).countP fun y => (mask.getD x 0).getLsbD y).sum =
      (List.range (6 * k)).countP (pageBit mask) := by
  induction k with
  | zero => rfl
  | succ k ih =>
    rw [List.range_succ (n := k), List.map_append, List.sum_append, ih, Nat.mul_succ, List.range_add,
      List.countP_append, List.countP_map, List.map_singleton, List.sum_singleton]
    congr 1
    apply List.countP_congr
    intro y hy
    have hy : y < 6 := List.mem_range.1 hy
    have hdiv : (6 * k + y) / 6 = k := by omega
    have hmod : (6 * k + y) % 6 = y := by omega
    rw [Function.comp_apply, pageBit, hdiv, hmod]

/-- The bits that are counted are those of the pages. -/
theorem Marked.bitsSet_dropLast (h : Marked N S mask) :
    bitsSet mask.dropLast = (List.range N).countP (pageBit mask) := by
  have hlen := h.length
  have hdrop : mask.dropLast = (List.range ((N + 5) / 6)).map fun x => mask.getD x 0 := by
    refine List.ext_getElem (by simp [hlen]) fun x hx hx' => ?_
    rw [List.getElem_dropLast, List.getElem_map, List.getElem_range, List.getD_eq_getElem?_getD,
      List.getElem?_eq_getElem]
    rfl
  have hbyte : ∀ c : Byte, ((List.range 6).countP fun (y : ℕ) => c.signExtend 32 &&& bit y ≠ 0) =
      (List.range 6).countP fun y => c.getLsbD y := by
    intro c
    apply List.countP_congr
    intro y hy
    rw [and_bit c y (List.mem_range.1 hy)]
  have hsplit : List.range (6 * ((N + 5) / 6)) =
      List.range N ++ (List.range (6 * ((N + 5) / 6) - N)).map (N + ·) := by
    rw [← List.range_add, Nat.add_sub_cancel' (by omega)]
  unfold bitsSet
  simp only [hbyte]
  rw [hdrop, List.map_map]
  show ((List.range ((N + 5) / 6)).map fun x => (List.range 6).countP fun y =>
    (mask.getD x 0).getLsbD y).sum = _
  rw [countP_pageBit, hsplit, List.countP_append, List.countP_map, Nat.add_eq_left,
    List.countP_eq_zero]
  intro o _ ho
  have := ((h.pageBit_iff (N + o)).1 ho).1
  omega

/-! ## The selection of a job -/

variable {job : QEntryFile}

/-- The bits that are asked for. -/
theorem Marked.getBit (h : Marked N S mask) (hN : job.attr.pages.toInt = N)
    (hmask : job.pageList.mask = some (mask.dropLast.map (· + 33))) {o : ℕ} (ho : o < N) :
    pagemaskGetBit job (o + 1 : ℕ) = pageBit mask o := by
  have hlen := h.length
  have hlt : o / 6 < mask.dropLast.length := by
    rw [List.length_dropLast]
    omega
  have hget : (mask.dropLast.map (· + 33)).getD (o / 6) 0 = mask.getD (o / 6) 0 + 33 := by
    rw [List.getD_eq_getElem?_getD, List.getElem?_map, List.getElem?_eq_getElem hlt,
      List.getD_eq_getElem?_getD, List.getElem?_eq_getElem (by omega), List.getElem_dropLast]
    rfl
  have hclear : ∀ i, 6 ≤ i → i < 8 → (mask.getD (o / 6) 0).getLsbD i = false := by
    intro i hi hi8
    by_contra hset
    have := ((h.bits (o / 6) i hi8).1 (by simpa using hset)).1
    omega
  have hoff : ((o + 1 : ℕ) : ℤ) - 1 = o := by push_cast; ring
  have hdiv : (o : ℤ).tdiv 6 = ((o / 6 : ℕ) : ℤ) := by
    rw [Int.tdiv_eq_ediv_of_nonneg (by omega)]
    norm_cast
  have hmod : (o : ℤ).tmod 6 = ((o % 6 : ℕ) : ℤ) := by
    rw [Int.tmod_eq_emod_of_nonneg (by omega)]
    norm_cast
  have hin : ¬ (((o + 1 : ℕ) : ℤ) ≤ 0 ∨ job.attr.pages.toInt < (o + 1 : ℕ)) := by
    rw [hN]
    omega
  unfold pagemaskGetBit
  rw [hmask]
  dsimp only
  rw [if_neg hin, hoff, hdiv, hmod, Int.toNat_natCast, hget]
  exact and_bit_printable _ (hclear 6 le_rfl (by decide)) (hclear 7 (by decide) (by decide)) _
    (Nat.mod_lt _ (by decide))

theorem Marked.selects (h : Marked N S mask) (hN : job.attr.pages.toInt = N)
    (hmask : job.pageList.mask = some (mask.dropLast.map (· + 33))) {p : ℕ} (hp1 : 1 ≤ p)
    (hpN : p ≤ N) : pagemaskGetBit job p = true ↔ S p := by
  obtain ⟨o, rfl⟩ : ∃ o, p = o + 1 := ⟨p - 1, by omega⟩
  rw [h.getBit hN hmask (by omega), h.pageBit_iff]
  exact and_iff_right hpN

/-- The pages that are counted. -/
theorem Marked.count (h : Marked N S mask) (hN : job.attr.pages.toInt = N)
    (hmask : job.pageList.mask = some (mask.dropLast.map (· + 33))) :
    (List.range N).countP (fun o => pagemaskGetBit job (o + 1 : ℕ)) = bitsSet mask.dropLast := by
  rw [h.bitsSet_dropLast]
  apply List.countP_congr
  intro o ho
  rw [h.getBit hN hmask (List.mem_range.1 ho)]

theorem Stepped.eq {s s' : Loading} {f : QEntryFile → QEntryFile} {found : List Needed}
    (h : Stepped s s' f found) :
    s' = { job := f s.job, found := found ++ s.found, failed := s.failed } := by
  obtain ⟨job, found', failed⟩ := s'
  obtain ⟨rfl, rfl, rfl⟩ := h
  rfl

/-- The line that is saved for the mask brings it back. -/
theorem Marked.read_pageList (h : Marked N S mask) (hN : 0 < N) (count : CInt) (st : Loading) :
    tryRules (chop (ascii "PageList: " ++
        spaced [cDecimal count, mask.dropLast.map (· + 33)])) rules st =
      .ok { st with job.pageList := { mask := some (mask.dropLast.map (· + 33)), count := count } } := by
  have hlen := h.length
  have hprint : ∀ c ∈ mask.dropLast.map (· + 33), isspace c = false ∧ c ≠ newline := by
    intro c hc
    obtain ⟨d, hd, rfl⟩ := List.mem_map.1 hc
    obtain ⟨h6, h7⟩ := h.clear (List.mem_of_mem_dropLast hd)
    exact printable d h6 h7
  have hnl : newline ∉ mask.dropLast.map (· + 33) := fun hm => (hprint _ hm).2 rfl
  have hne : mask.dropLast.map (· + 33) ≠ [] := by
    intro hnil
    have := congrArg List.length hnil
    simp only [List.length_map, List.length_dropLast, List.length_nil] at this
    omega
  have hchop : chop (mask.dropLast.map (· + 33)) = mask.dropLast.map (· + 33) := by
    unfold chop
    rw [List.rdropWhile_eq_self_iff]
    intro hl
    rw [(hprint _ (List.getLast_mem hl)).1]
    decide
  have hkept := (mask_kept_iff count hnl).2
    ⟨⟨hne, hchop, hnl⟩, fun c hc => (hprint c (List.mem_of_mem_head? hc)).1⟩
  refine (tryRules_enough (r := .pageList) (by simp [rules]) hkept.1 st).trans ?_
  have hstep := (stepped_pageList
    (l := { mask := some (mask.dropLast.map (· + 33)), count := count })
    (fun m hm => by cases hm; exact hkept.1) st).eq
  have hcount : ((Rule.pageList.read (spaced [cDecimal count, mask.dropLast.map (· + 33)])).getD 0
      (.num 0)).number 32 = count := by
    rw [QEntryFile.read_pageList count hnl]
    exact BitVec.ofInt_toInt
  simp only [pageListRead, hkept.2, hcount] at hstep
  exact congrArg Except.ok hstep

theorem toInt_pages {N : ℕ} (hN : N + 5 < 2 ^ 31) (hpages : job.attr.pages = BitVec.ofNat 32 N) :
    job.attr.pages.toInt = N := by
  rw [hpages, BitVec.toInt_eq_toNat_of_lt]
  · rw [BitVec.toNat_ofNat, Nat.mod_eq_of_lt (by omega)]
  · rw [BitVec.toNat_ofNat]
    omega

/-- The bytes of the mask. -/
theorem bytes_pages {N : ℕ} (hN : N + 5 < 2 ^ 31) (hpages : job.attr.pages = BitVec.ofNat 32 N) :
    ((job.attr.pages + 5).sdiv 6).toInt.toNat = (N + 5) / 6 := by
  have hnat : (job.attr.pages + 5).toNat = N + 5 := by
    rw [hpages, BitVec.toNat_add, BitVec.toNat_ofNat]
    show (N % 2 ^ 32 + 5) % 2 ^ 32 = _
    omega
  have hmsb : (job.attr.pages + 5).msb = false := by
    rw [BitVec.msb_eq_false_iff_two_mul_lt, hnat]
    omega
  have hdiv : ((job.attr.pages + 5).sdiv 6).toNat = (N + 5) / 6 := by
    rw [BitVec.sdiv_eq, hmsb]
    show ((job.attr.pages + 5) / 6).toNat = _
    rw [BitVec.toNat_udiv, hnat]
    rfl
  rw [BitVec.toInt_eq_toNat_of_lt (by omega), hdiv, Int.toNat_natCast]

theorem pagemaskEncode_eq {N : ℕ} (hN : N + 5 < 2 ^ 31) (hpages : job.attr.pages = BitVec.ofNat 32 N)
    {text : List Byte} {t : Encoding} {ok : Bool}
    (ht : encodeLoop N text.length text { mask := List.replicate ((N + 5) / 6 + 1) 0 } = .ok (t, ok)) :
    pagemaskEncode job text = .ok (if ok then
      ({ job with pageList := { mask := some (t.mask.dropLast.map (· + 33)),
                                count := BitVec.ofNat 32 (bitsSet t.mask.dropLast) } }, true)
      else ({ job with pageList.mask := some t.mask.dropLast }, false)) := by
  unfold pagemaskEncode
  dsimp only
  rw [bytes_pages hN hpages, toInt_pages hN hpages, ht]
  rfl

/-- Whatever the text is, the mask is rebuilt without a byte outside of it being written, and the
text is accepted if it has no other characters than those of a list of pages.  The count is the
number of pages selected, and the line of the queue file brings the mask back.  The pages of a list
of items are those that some item contains, if its ranges from page 1 come first or behind a range
that has been closed. -/
theorem pagemaskEncode_selects (job : QEntryFile) (N : ℕ) (hN : N + 5 < 2 ^ 31)
    (hpages : job.attr.pages = BitVec.ofNat 32 N) (text : List Byte) (hsmall : SmallNumbers text) :
    ∃ job', pagemaskEncode job text = .ok (job', text.all isPageChar) ∧
      job' = { job with pageList := job'.pageList } ∧
      (text.all isPageChar = true →
        (pagemaskCount job').toInt =
          (List.range N).countP (fun o => pagemaskGetBit job' (o + 1 : ℕ)) ∧
        (∀ items, Spaced (pageTokens items) text → Restarted items → ∀ p, 1 ≤ p → p ≤ N →
          (pagemaskGetBit job' p = true ↔ ∃ i ∈ items, i.contains p)) ∧
        (0 < N → ∃ m, job'.pageList.mask = some m ∧ ∀ st,
          tryRules (chop (ascii "PageList: " ++ spaced [cDecimal (pagemaskCount job'), m])) rules st =
            .ok { st with job.pageList := job'.pageList })) := by
  have hint := toInt_pages hN hpages
  have hstart : Parsed N (fun _ => False) 1 false { mask := List.replicate ((N + 5) / 6 + 1) 0 } :=
    ⟨marked_replicate N, rfl, rfl⟩
  obtain ⟨t, T, page', range', ht, hp⟩ := hstart.encodeLoop le_rfl hsmall
  rw [pagemaskEncode_eq hN hpages ht]
  cases hok : text.all isPageChar with
  | false => exact ⟨_, rfl, rfl, nofun⟩
  | true =>
    rw [hok] at ht
    refine ⟨_, rfl, rfl, fun _ => ⟨?_, fun items hspaced hitems p hp1 hpN => ?_, fun hpos =>
      ⟨_, rfl, hp.mask.read_pageList hpos _⟩⟩⟩
    · have hle : bitsSet t.mask.dropLast ≤ N := by
        rw [hp.mask.bitsSet_dropLast]
        simpa using List.countP_le_length (p := pageBit t.mask) (l := List.range N)
      refine Eq.trans ?_ (congrArg Nat.cast (hp.mask.count ?_ ?_).symm)
      · show (BitVec.ofNat 32 (bitsSet t.mask.dropLast)).toInt = _
        rw [BitVec.toInt_eq_toNat_of_lt (by rw [BitVec.toNat_ofNat]; omega), BitVec.toNat_ofNat,
          Nat.mod_eq_of_lt (by omega)]
      · exact hint
      · rfl
    · obtain ⟨u, page'', hu, hq⟩ := hstart.items hitems fun _ _ _ => rfl
      have hrun := encodeLoop_spaced N hspaced (separated_pageTokens items) hsmall le_rfl
        ((pageTokens_foldlM hstart items).trans hu)
      obtain ⟨rfl, -⟩ := Prod.mk.inj (Except.ok.inj (ht.symm.trans hrun))
      refine (hq.mask.selects ?_ ?_ hp1 hpN).trans (or_iff_right id)
      · exact hint
      · rfl

/-- Three pages of ten. -/
theorem pagemaskEncode_three :
    ∃ job', pagemaskEncode { (default : QEntryFile) with attr.pages := 10 } (ascii "8, 2-3") =
        .ok (job', true) ∧
      pagemaskGetBit job' 3 = true ∧ pagemaskGetBit job' 9 = false := by
  let eight : PageNumber := ⟨ascii "8", by decide, by decide⟩
  let two : PageNumber := ⟨ascii "2", by decide, by decide⟩
  let three : PageNumber := ⟨ascii "3", by decide, by decide⟩
  have hnone : ∀ c ∈ ([] : List Byte), isspace c = true := by decide
  have hblank : ∀ c ∈ ([32] : List Byte), isspace c = true := by decide
  have hspaced : Spaced (pageTokens [.single eight, .range two three]) (ascii "8, 2-3") :=
    .cons hnone <| .cons hnone <| .cons hblank <| .cons hnone <| .cons hnone <| .nil hnone
  obtain ⟨job', hrun, -, hselects⟩ := pagemaskEncode_selects
    { (default : QEntryFile) with attr.pages := 10 } 10 (by decide) rfl (ascii "8, 2-3")
    (.of_length (by decide))
  have hok : (ascii "8, 2-3").all isPageChar = true := by decide
  rw [hok] at hrun
  have hbits := (hselects hok).2.1 _ hspaced (by simp [Restarted, PageItem.isUpTo])
  refine ⟨job', hrun, ?_, ?_⟩
  · exact (hbits 3 (by decide) (by decide)).2 ⟨.range two three, by simp, .inr (by decide)⟩
  · have hnot := (hbits 9 (by decide) (by decide)).not.2 (by
      simp only [List.mem_cons, List.not_mem_nil, or_false, exists_eq_or_imp, exists_eq_left,
        PageItem.contains]
      decide)
    simpa using hnot

/-- A range from page 1 is not begun again behind a number; a range that is not in order has its
first number; another character leaves no selection; a number that is no `int` is looked for outside
of the mask; an empty mask cannot be read back. -/
theorem pagemaskEncode_slips :
    let ten : QEntryFile := { (default : QEntryFile) with attr.pages := 10 }
    (∃ job', pagemaskEncode ten (ascii "5,-2") = .ok (job', true) ∧ pagemaskGetBit job' 1 = false) ∧
    (∃ job', pagemaskEncode ten (ascii "3-2") = .ok (job', true) ∧ pagemaskGetBit job' 3 = true) ∧
    (∃ job', pagemaskEncode { ten with pageList := { mask := some (ascii "`!"), count := 6 } }
        (ascii "x") = .ok (job', false) ∧ job'.pageList.mask = some [0, 0]) ∧
    pagemaskEncode ten (ascii "2147483649") = .error ⟨⟩ ∧
    (∃ job', pagemaskEncode default (ascii "1") = .ok (job', true) ∧ job'.pageList.mask = some [] ∧
      ∃ st', tryRules (chop (ascii "PageList: " ++ spaced [cDecimal (pagemaskCount job'), []])) rules
        { job := default, found := [], failed := false } = .ok st' ∧ st'.failed = true) := by
  refine ⟨⟨_, rfl, by decide +kernel⟩, ⟨_, rfl, by decide +kernel⟩, ⟨_, rfl, rfl⟩, rfl,
    ⟨_, rfl, rfl, _, rfl, rfl⟩⟩

end Ppr.QEntryFile
