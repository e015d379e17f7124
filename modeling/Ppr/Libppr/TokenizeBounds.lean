import Ppr.Libppr.Tokenize
import Ppr.Lib.Outcome

/-!
# The arrays of the tokenizer

`tokenize()` on its two static arrays: the words are written one behind the other into `tokenized_line[]`,
and `tokens[]` says where they begin.  Every write is checked against the array.
-/

namespace Ppr

/-- The static arrays of `tokenize.c`; a pointer into `tokenized_line[]` is an index. -/
structure Tokenizer where
  tokenizedLine : List Byte
  tokens : List (Option ℕ)
  tokensCount : ℕ

namespace Tokenizer

/-- Before `main()`. -/
def static : Tokenizer :=
  ⟨List.replicate (maxTokenized + 2) 0, List.replicate (maxTokens + 1) none, 0⟩

inductive Fault where
  /-- "line too long". -/
  | lineTooLong
  /-- A write that is not in the array. -/
  | wild
  deriving DecidableEq

def putByte (t : Tokenizer) (dptr : ℕ) (c : Byte) : Except Fault Tokenizer :=
  if dptr < t.tokenizedLine.length then .ok { t with tokenizedLine := t.tokenizedLine.set dptr c }
  else .error .wild

def putToken (t : Tokenizer) (tptr : ℕ) (token : Option ℕ) : Except Fault Tokenizer :=
  if tptr < t.tokens.length then .ok { t with tokens := t.tokens.set tptr token } else .error .wild

/-- The loop that copies a word; the first word ends at a colon. -/
def copyWord (first : Bool) :
    List Byte → Quotes → Bool → Byte → ℕ → Tokenizer → Except Fault (List Byte × Quotes × ℕ × Tokenizer)
  | [], q, _, _, dptr, t => .ok ([], q, dptr, t)
  | c :: l, q, fresh, lastc, dptr, t =>
    match wordStep q fresh lastc c with
    | .stop => .ok (c :: l, q, dptr, t)
    | .discard q => copyWord first l q fresh lastc dptr t
    | .store q => do
      let t ← t.putByte dptr c
      if first ∧ c = 58 then return (l, q, dptr + 1, t)
      else copyWord first l q false c (dptr + 1) t

/-- The loop over the words, which stops when there is no room for another pointer. -/
def copyWords : ℕ → List Byte → Quotes → ℕ → ℕ → Tokenizer → Except Fault (ℕ × Tokenizer)
  | 0, _, _, _, tptr, t => .ok (tptr, t)
  | _ + 1, [], _, _, tptr, t => .ok (tptr, t)
  | room + 1, c :: l, q, dptr, tptr, t => do
    let t ← t.putToken tptr (some dptr)
    let (rest, q, dptr, t) ← copyWord (tptr = 0) (c :: l) q true 0 dptr t
    let t ← t.putByte dptr 0
    copyWords room (rest.dropWhile isBlank) q (dptr + 1) (tptr + 1) t

/-- The null pointers behind the words. -/
def clearTokens : ℕ → ℕ → Tokenizer → Except Fault Tokenizer
  | 0, _, t => .ok t
  | room + 1, tptr, t => do
    let t ← t.putToken tptr none
    clearTokens room (tptr + 1) t

/-- `tokenize()`; `line_len` is a variable of its own. -/
def tokenize (lineLen : ℕ) (line : List Byte) (t : Tokenizer) : Except Fault Tokenizer :=
  if maxTokenized < lineLen then .error .lineTooLong
  else do
    let (tptr, t) ← copyWords maxTokens line ⟨0, 0⟩ 0 0 t
    clearTokens (maxTokens - tptr) tptr { t with tokensCount := tptr }

/-! ## The room that the words take -/

/-- A word is not longer than what it is made from, and if it is not the first one and something is left,
a blank is left. -/
theorem length_word (first : Bool) (l : List Byte) (q : Quotes) (fresh : Bool) (lastc : Byte) :
    (word first l q fresh lastc).1.length + (word first l q fresh lastc).2.1.length ≤ l.length ∧
      (first = false → ∀ c ∈ (word first l q fresh lastc).2.1.head?, isBlank c = true) := by
  induction l generalizing q fresh lastc with
  | nil => exact ⟨le_rfl, fun _ c hc => by cases hc⟩
  | cons c l ih =>
    rw [word]
    cases hstep : wordStep q fresh lastc c with
    | stop =>
      refine ⟨Nat.le_of_eq (Nat.zero_add _), ?_⟩
      rintro - d hd
      cases hd
      unfold wordStep at hstep
      dsimp only at hstep
      split_ifs at hstep with hstop
      exact hstop.2.2
    | discard q' =>
      obtain ⟨hlength, hblank⟩ := ih q' fresh lastc
      exact ⟨hlength.trans (Nat.le_succ _), hblank⟩
    | store q' =>
      dsimp only
      by_cases hcolon : first = true ∧ c = 58
      · rw [if_pos hcolon]
        refine ⟨Nat.le_of_eq (Nat.add_comm 1 l.length), ?_⟩
        intro hfirst
        rw [hfirst] at hcolon
        exact absurd hcolon.1 Bool.false_ne_true
      · obtain ⟨hlength, hblank⟩ := ih q' false c
        rw [if_neg hcolon]
        refine ⟨?_, hblank⟩
        rw [List.length_cons, List.length_cons, Nat.add_right_comm]
        exact Nat.succ_le_succ hlength

/-- The words with a NUL behind each. -/
def stored (ws : List (List Byte)) : List Byte := ws.flatMap (· ++ [0])

theorem length_dropWhile_isBlank {l : List Byte} (h : ∀ c ∈ l.head?, isBlank c = true) :
    (l.dropWhile isBlank).length ≤ l.length - 1 := by
  cases l with
  | nil => exact Nat.zero_le _
  | cons c l =>
    rw [List.dropWhile_cons_of_pos (h c rfl)]
    exact List.length_dropWhile_le ..

/-- The blank that ended a word makes room for its NUL; the last word and a first word with a colon have
none. -/
theorem length_stored_words (n : ℕ) (first : Bool) (q : Quotes) (l : List Byte) :
    (stored (words n first q l)).length ≤ l.length + if first then 2 else 1 := by
  induction n generalizing first q l with
  | zero => exact Nat.zero_le _
  | succ n ih =>
    cases l with
    | nil => exact Nat.zero_le _
    | cons c l =>
      obtain ⟨hlength, hblank⟩ := length_word first (c :: l) q true 0
      rw [words]
      generalize word first (c :: l) q true 0 = w at hlength hblank
      obtain ⟨w, rest, q'⟩ := w
      have hrest := ih false q' (rest.dropWhile isBlank)
      show (stored (w :: words n false q' (rest.dropWhile isBlank))).length ≤ _
      rw [stored, List.flatMap_cons, List.length_append, List.length_append, List.length_singleton]
      change (stored _).length ≤ _ at hrest
      rw [stored] at hrest
      dsimp only at hlength hblank
      cases first with
      | true =>
        have hdrop := List.length_dropWhile_le isBlank rest
        simp only [Bool.false_eq_true, if_false, if_true] at hrest ⊢
        omega
      | false =>
        have hdrop := length_dropWhile_isBlank (hblank rfl)
        simp only [Bool.false_eq_true, if_false] at hrest ⊢
        cases rest with
        | nil =>
          have hwords : words n false q' ([].dropWhile isBlank) = [] := by cases n <;> rfl
          rw [hwords, List.flatMap_nil]
          simpa using hlength
        | cons d rest =>
          rw [List.length_cons] at hdrop hlength
          omega

/-! ## What is written -/

theorem putByte_eq {t : Tokenizer} {a b : List Byte} {x : Byte} (h : t.tokenizedLine = a ++ x :: b) (c : Byte) :
    t.putByte a.length c = .ok { t with tokenizedLine := a ++ c :: b } := by
  have hlt : a.length < t.tokenizedLine.length := by
    rw [h]
    simp
  rw [putByte, if_pos hlt, h, List.set_append_right _ _ le_rfl, Nat.sub_self]
  rfl

theorem putToken_eq {t : Tokenizer} {a b : List (Option ℕ)} {x : Option ℕ} (h : t.tokens = a ++ x :: b)
    (token : Option ℕ) : t.putToken a.length token = .ok { t with tokens := a ++ token :: b } := by
  have hlt : a.length < t.tokens.length := by
    rw [h]
    simp
  rw [putToken, if_pos hlt, h, List.set_append_right _ _ le_rfl, Nat.sub_self]
  rfl

/-- A word is put behind what was written. -/
theorem copyWord_eq (first : Bool) (l : List Byte) (q : Quotes) (fresh : Bool) (lastc : Byte) {t : Tokenizer}
    {a b : List Byte} (h : t.tokenizedLine = a ++ b) (hroom : (word first l q fresh lastc).1.length ≤ b.length) :
    copyWord first l q fresh lastc a.length t =
      .ok ((word first l q fresh lastc).2.1, (word first l q fresh lastc).2.2,
        (a ++ (word first l q fresh lastc).1).length,
        { t with tokenizedLine :=
            a ++ (word first l q fresh lastc).1 ++ b.drop (word first l q fresh lastc).1.length }) := by
  induction l generalizing q fresh lastc t a b with
  | nil =>
    rw [copyWord]
    simp [word, ← h]
  | cons c l ih =>
    rw [word] at hroom ⊢
    rw [copyWord]
    cases hstep : wordStep q fresh lastc c with
    | stop => simp [← h]
    | discard q' =>
      rw [hstep] at hroom
      exact ih q' fresh lastc h hroom
    | store q' =>
      rw [hstep] at hroom
      dsimp only at hroom ⊢
      by_cases hcolon : first = true ∧ c = 58
      · rw [if_pos hcolon] at hroom ⊢
        cases b with
        | nil => exact absurd hroom (by simp)
        | cons x b =>
          rw [putByte_eq h]
          show (if first = true ∧ c = 58 then _ else _) = _
          rw [if_pos hcolon]
          simp
          rfl
      · rw [if_neg hcolon] at hroom ⊢
        cases b with
        | nil => exact absurd hroom (by simp)
        | cons x b =>
          have hnext := ih q' false c (t := { t with tokenizedLine := a ++ c :: b }) (a := a ++ [c]) (b := b)
            (by simp) (Nat.le_of_succ_le_succ hroom)
          rw [List.length_append, List.length_singleton] at hnext
          rw [putByte_eq h]
          show (if first = true ∧ c = 58 then _ else _) = _
          rw [if_neg hcolon, hnext]
          simp

/-- Where words begin that are stored from `dptr` on. -/
def starts : ℕ → List (List Byte) → List ℕ
  | _, [] => []
  | dptr, w :: ws => dptr :: starts (dptr + w.length + 1) ws

theorem length_starts (dptr : ℕ) (ws : List (List Byte)) : (starts dptr ws).length = ws.length := by
  induction ws generalizing dptr with
  | nil => rfl
  | cons w ws ih => exact congrArg Nat.succ (ih _)

theorem copyWords_eq (n : ℕ) (l : List Byte) (q : Quotes) {t : Tokenizer} {a b : List Byte}
    {ts us : List (Option ℕ)} (hline : t.tokenizedLine = a ++ b) (htokens : t.tokens = ts ++ us)
    (hroom : (stored (words n (ts.length = 0) q l)).length ≤ b.length) (hn : n ≤ us.length) :
    copyWords n l q a.length ts.length t =
      .ok (ts.length + (words n (ts.length = 0) q l).length,
        { t with
          tokenizedLine := a ++ stored (words n (ts.length = 0) q l) ++
            b.drop (stored (words n (ts.length = 0) q l)).length
          tokens := ts ++ (starts a.length (words n (ts.length = 0) q l)).map some ++
            us.drop (words n (ts.length = 0) q l).length }) := by
  induction n generalizing l q t a b ts us with
  | zero =>
    rw [copyWords, words]
    simp [stored, starts, ← hline, ← htokens]
  | succ n ih =>
    cases l with
    | nil =>
      rw [copyWords, words]
      simp [stored, starts, ← hline, ← htokens]
    | cons c l =>
      cases us with
      | nil => exact absurd hn (by simp)
      | cons u us =>
        rw [words] at hroom ⊢
        have hcopy := copyWord_eq (ts.length = 0) (c :: l) q true 0
          (t := { t with tokens := ts ++ some a.length :: us }) hline
        generalize word (ts.length = 0) (c :: l) q true 0 = r at hroom hcopy ⊢
        obtain ⟨w, rest, q'⟩ := r
        dsimp only at hroom hcopy ⊢
        rw [stored, List.flatMap_cons, List.length_append, List.length_append, List.length_singleton] at hroom
        have hw : w.length < b.length := by omega
        obtain ⟨x, b', hb⟩ : ∃ x b', b.drop w.length = x :: b' := by
          apply List.exists_cons_of_ne_nil
          intro hnil
          exact absurd (List.drop_eq_nil_iff.1 hnil) (Nat.not_le_of_lt hw)
        have hb' : b' = b.drop (w.length + 1) := by
          rw [← List.drop_drop, hb]
          rfl
        rw [copyWords, putToken_eq htokens]
        show (copyWord _ _ _ _ _ _ _ >>= _) = _
        rw [hcopy (Nat.le_of_lt hw)]
        show (putByte _ _ _ >>= _) = _
        rw [putByte_eq (by rw [hb])]
        have hline' : a ++ w ++ 0 :: b' = (a ++ w ++ [0]) ++ b' := by simp
        have htokens' : ts ++ some a.length :: us = (ts ++ [some a.length]) ++ us := by simp
        have hnext := ih (rest.dropWhile isBlank) q'
          (t := { t with
            tokenizedLine := a ++ w ++ 0 :: b'
            tokens := ts ++ some a.length :: us }) hline' htokens'
        have hfirst : decide ((ts ++ [some a.length]).length = 0) = false := by simp
        have hafter : (stored (words n false q' (rest.dropWhile isBlank))).length ≤ b'.length := by
          rw [hb', List.length_drop, stored]
          omega
        have hplace : (a ++ w ++ [0]).length = (a ++ w).length + 1 := List.length_append
        have hcount : (ts ++ [some a.length]).length = ts.length + 1 := List.length_append
        rw [hfirst, hplace, hcount] at hnext
        show copyWords n (rest.dropWhile isBlank) q' ((a ++ w).length + 1) (ts.length + 1) _ = _
        rw [hnext hafter (Nat.le_of_succ_le_succ hn)]
        generalize words n false q' (rest.dropWhile isBlank) = ws at hafter ⊢
        have hdrop : b'.drop (stored ws).length = b.drop (stored (w :: ws)).length := by
          rw [hb', List.drop_drop, stored, stored, List.flatMap_cons, List.length_append, List.length_append,
            List.length_singleton]
        rw [hdrop, stored, stored, List.flatMap_cons, List.length_append]
        simp [starts, Nat.add_assoc, Nat.add_comm 1]

theorem clearTokens_eq (n : ℕ) {t : Tokenizer} {ts us : List (Option ℕ)} (htokens : t.tokens = ts ++ us)
    (hn : n ≤ us.length) :
    clearTokens n ts.length t = .ok { t with tokens := ts ++ List.replicate n none ++ us.drop n } := by
  induction n generalizing t ts us with
  | zero =>
    rw [clearTokens]
    simp [← htokens]
  | succ n ih =>
    cases us with
    | nil => exact absurd hn (by simp)
    | cons u us =>
      have htokens' : ts ++ none :: us = (ts ++ [none]) ++ us := by simp
      have hnext := ih (t := { t with tokens := ts ++ none :: us }) htokens' (Nat.le_of_succ_le_succ hn)
      rw [List.length_append, List.length_singleton] at hnext
      rw [clearTokens, putToken_eq htokens]
      show clearTokens n (ts.length + 1) _ = _
      rw [hnext]
      simp [List.replicate_succ]

/-! ## Calls -/

/-- What a caller promises: a string that is not longer than `line_len` says. -/
structure Fits (lineLen : ℕ) (line : List Byte) : Prop where
  string : (0 : Byte) ∉ line
  held : line.length ≤ lineLen
  short : lineLen ≤ maxTokenized

/-- The arrays after any calls. -/
inductive Reached : Tokenizer → Prop
  | static : Reached static
  | call {t t' : Tokenizer} {lineLen : ℕ} {line : List Byte} (h : Reached t) (hfits : Fits lineLen line)
      (hcall : t.tokenize lineLen line = .ok t') : Reached t'

/-- `tokens[i]` is a pointer to the string `w` at `p`. -/
structure Token (t : Tokenizer) (i p : ℕ) (w : List Byte) : Prop where
  pointer : t.tokens[i]? = some (some p)
  terminated : w ++ [0] <+: t.tokenizedLine.drop p
  string : (0 : Byte) ∉ w

/-- What a call leaves in the arrays. -/
structure Bounded (line : List Byte) (t t' : Tokenizer) : Prop where
  written : ∃ bytes : List Byte, bytes.length ≤ maxTokenized + 2 ∧
    t'.tokenizedLine = bytes ++ t.tokenizedLine.drop bytes.length
  count : t'.tokensCount = (Ppr.tokenize line).length
  few : t'.tokensCount ≤ maxTokens
  tokens : ∀ i w, (Ppr.tokenize line)[i]? = some w → ∃ p, t'.Token i p w
  apart : ∀ i j p q v w, i < j → t'.Token i p v → t'.Token j q w → p + v.length < q
  null : ∀ i, t'.tokensCount ≤ i → i ≤ maxTokens → t'.tokens[i]? = some none

structure Sized (t : Tokenizer) : Prop where
  line : t.tokenizedLine.length = maxTokenized + 2
  tokens : t.tokens.length = maxTokens + 1
  /-- Nothing is ever written there. -/
  last : t.tokens.drop maxTokens = [none]

theorem sized_static : Sized static := ⟨List.length_replicate, List.length_replicate, rfl⟩

theorem length_words_le (n : ℕ) (first : Bool) (q : Quotes) (l : List Byte) : (words n first q l).length ≤ n := by
  induction n generalizing first q l with
  | zero => exact le_rfl
  | succ n ih =>
    cases l with
    | nil => exact Nat.zero_le _
    | cons c l => exact Nat.succ_le_succ (ih ..)

theorem length_stored_le {lineLen : ℕ} {line : List Byte} (hfits : Fits lineLen line) :
    (stored (Ppr.tokenize line)).length ≤ maxTokenized + 2 := by
  have hwords : (stored (Ppr.tokenize line)).length ≤ line.length + 2 :=
    length_stored_words maxTokens true ⟨0, 0⟩ line
  exact hwords.trans (Nat.add_le_add_right (hfits.held.trans hfits.short) 2)

/-- The words one behind the other before what was there, and null pointers behind the pointers to them. -/
def filled (ws : List (List Byte)) (behind : List Byte) : Tokenizer where
  tokenizedLine := stored ws ++ behind
  tokens := (starts 0 ws).map some ++ List.replicate (maxTokens - ws.length) none ++ [none]
  tokensCount := ws.length

theorem tokenize_eq {t : Tokenizer} (h : Sized t) {lineLen : ℕ} {line : List Byte} (hfits : Fits lineLen line) :
    t.tokenize lineLen line =
      .ok (filled (Ppr.tokenize line) (t.tokenizedLine.drop (stored (Ppr.tokenize line)).length)) := by
  have hcount : (Ppr.tokenize line).length ≤ maxTokens := length_words_le ..
  have hstored : (stored (Ppr.tokenize line)).length ≤ t.tokenizedLine.length :=
    (length_stored_le hfits).trans_eq h.line.symm
  have hline : t.tokenizedLine = [] ++ t.tokenizedLine := rfl
  have htokens : t.tokens = [] ++ t.tokens := rfl
  have hcopy := copyWords_eq maxTokens line ⟨0, 0⟩ hline htokens hstored (by rw [h.tokens]; exact Nat.le_succ _)
  change copyWords maxTokens line ⟨0, 0⟩ 0 0 t = .ok (0 + (Ppr.tokenize line).length,
    { t with
      tokenizedLine := stored (Ppr.tokenize line) ++ t.tokenizedLine.drop (stored (Ppr.tokenize line)).length
      tokens := (starts 0 (Ppr.tokenize line)).map some ++ t.tokens.drop (Ppr.tokenize line).length }) at hcopy
  rw [Nat.zero_add] at hcopy
  generalize Ppr.tokenize line = ws at hcount hcopy ⊢
  have hroom : maxTokens - ws.length ≤ (t.tokens.drop ws.length).length := by
    rw [List.length_drop, h.tokens]
    omega
  have hpointers : Tokenizer.tokens
      { tokenizedLine := stored ws ++ t.tokenizedLine.drop (stored ws).length
        tokens := (starts 0 ws).map some ++ t.tokens.drop ws.length
        tokensCount := ws.length } = (starts 0 ws).map some ++ t.tokens.drop ws.length := rfl
  have hclear := clearTokens_eq (maxTokens - ws.length) hpointers hroom
  rw [List.length_map, length_starts, List.drop_drop, Nat.add_sub_cancel' hcount, h.last] at hclear
  rw [tokenize, if_neg (Nat.not_lt.2 hfits.short), hcopy]
  exact hclear

theorem Reached.sized {t : Tokenizer} (h : Reached t) : Sized t := by
  induction h with
  | static => exact sized_static
  | @call _ _ _ line _ hfits hcall ih =>
    rw [tokenize_eq ih hfits] at hcall
    cases hcall
    have hstored := length_stored_le hfits
    have hcount : (Ppr.tokenize line).length ≤ maxTokens := length_words_le ..
    refine ⟨?_, ?_, ?_⟩
    · rw [filled, List.length_append, List.length_drop, ih.line]
      exact Nat.add_sub_cancel' hstored
    · rw [filled, List.length_append, List.length_append, List.length_map, length_starts, List.length_replicate,
        Nat.add_sub_cancel' hcount]
      rfl
    · rw [filled, List.drop_append_of_le_length, List.drop_eq_nil_of_le]
      · rfl
      · rw [List.length_append, List.length_map, length_starts, List.length_replicate, Nat.add_sub_cancel' hcount]
      · rw [List.length_append, List.length_map, length_starts, List.length_replicate, Nat.add_sub_cancel' hcount]

theorem mem_word (first : Bool) (l : List Byte) (q : Quotes) (fresh : Bool) (lastc : Byte) {c : Byte} :
    c ∈ (word first l q fresh lastc).1 ∨ c ∈ (word first l q fresh lastc).2.1 → c ∈ l := by
  induction l generalizing q fresh lastc with
  | nil => exact fun h => h.elim id id
  | cons d l ih =>
    rw [word]
    cases wordStep q fresh lastc d with
    | stop => exact fun h => h.elim (fun h => absurd h List.not_mem_nil) id
    | discard q' => exact fun h => List.mem_cons_of_mem d (ih q' fresh lastc h)
    | store q' =>
      dsimp only
      split_ifs
      · rintro (h | h)
        · exact List.mem_cons.2 (.inl (List.mem_singleton.1 h))
        · exact List.mem_cons_of_mem d h
      · rintro (h | h)
        · rcases List.mem_cons.1 h with rfl | h
          · exact List.mem_cons_self
          · exact List.mem_cons_of_mem d (ih q' false d (.inl h))
        · exact List.mem_cons_of_mem d (ih q' false d (.inr h))

theorem mem_words {n : ℕ} {first : Bool} {q : Quotes} {l w : List Byte} (hw : w ∈ words n first q l) {c : Byte}
    (hc : c ∈ w) : c ∈ l := by
  induction n generalizing first q l with
  | zero => exact absurd hw List.not_mem_nil
  | succ n ih =>
    cases l with
    | nil => exact absurd hw List.not_mem_nil
    | cons d l =>
      rw [words] at hw
      rcases List.mem_cons.1 hw with rfl | hw
      · exact mem_word first (d :: l) q true 0 (.inl hc)
      · exact mem_word first (d :: l) q true 0 (.inr ((List.dropWhile_sublist _).subset (ih hw)))

/-! ## Where the words are -/

theorem stored_take_drop (ws : List (List Byte)) (i : ℕ) : stored ws = stored (ws.take i) ++ stored (ws.drop i) := by
  rw [stored, stored, stored, ← List.flatMap_append, List.take_append_drop]

theorem getElem_starts (ws : List (List Byte)) {d i : ℕ} (hi : i < ws.length) :
    (starts d ws)[i]? = some (d + (stored (ws.take i)).length) := by
  induction ws generalizing d i with
  | nil => exact absurd hi (Nat.not_lt_zero i)
  | cons w ws ih =>
    cases i with
    | zero => rfl
    | succ i =>
      rw [starts, List.getElem?_cons_succ, ih (Nat.lt_of_succ_lt_succ hi), List.take_succ_cons, stored, stored,
        List.flatMap_cons, List.length_append, List.length_append, List.length_singleton]
      congr 1
      omega

/-- A string in memory ends at its first NUL. -/
theorem eq_of_terminated {v w l : List Byte} (hv : v ++ [0] <+: l) (hw : w ++ [0] <+: l) (hv0 : (0 : Byte) ∉ v)
    (hw0 : (0 : Byte) ∉ w) : v = w := by
  have hcstr : ∀ u : List Byte, u ++ [0] <+: l → (0 : Byte) ∉ u → cstr l = u := by
    rintro u ⟨r, rfl⟩ hu
    rw [List.append_assoc, cstr, List.takeWhile_append_of_pos]
    · simp
    · intro c hc
      exact decide_eq_true fun h => hu (h ▸ hc)
  rw [← hcstr v hv hv0, hcstr w hw hw0]

theorem token_filled {ws : List (List Byte)} (behind : List Byte) {i : ℕ} {w : List Byte} (hi : ws[i]? = some w)
    (h0 : (0 : Byte) ∉ w) : (filled ws behind).Token i (stored (ws.take i)).length w := by
  obtain ⟨hlt, hw⟩ := List.getElem?_eq_some_iff.1 hi
  refine ⟨?_, ?_, h0⟩
  · have hstart := getElem_starts ws (d := 0) hlt
    rw [Nat.zero_add] at hstart
    rw [filled, List.append_assoc, List.getElem?_append_left (by simpa [length_starts] using hlt), List.getElem?_map,
      hstart]
    rfl
  · have hdrop : ws.drop i = w :: ws.drop (i + 1) := by rw [List.drop_eq_getElem_cons hlt, hw]
    rw [filled, stored_take_drop ws i, List.append_assoc, List.drop_left, hdrop, stored, List.flatMap_cons,
      List.append_assoc]
    exact List.prefix_append ..

theorem eq_of_token_filled {ws : List (List Byte)} {behind : List Byte} (h0 : ∀ w ∈ ws, (0 : Byte) ∉ w) {i p : ℕ}
    {w : List Byte} (h : (filled ws behind).Token i p w) : ws[i]? = some w ∧ p = (stored (ws.take i)).length := by
  have hpointer := h.pointer
  have hlt : i < ws.length := by
    by_contra hle
    rw [filled, List.append_assoc, List.getElem?_append_right (by simpa [length_starts] using hle)] at hpointer
    obtain ⟨-, hmem⟩ | hmem := List.mem_append.1 (List.mem_of_getElem? hpointer) |>.imp List.mem_replicate.1 id
    · cases hmem
    · cases List.mem_singleton.1 hmem
  have hi := List.getElem?_eq_getElem hlt
  have htoken := token_filled behind hi (h0 _ (List.getElem_mem hlt))
  have hp : p = (stored (ws.take i)).length := by
    have := hpointer.symm.trans htoken.pointer
    simpa using this
  refine ⟨?_, hp⟩
  rw [hi, eq_of_terminated htoken.terminated (hp ▸ h.terminated) htoken.string h.string]

/-- The words stand one behind the other in the array, each with its NUL, and behind their pointers there are
null pointers. -/
theorem tokenize_bounded {t : Tokenizer} (h : Reached t) {lineLen : ℕ} {line : List Byte}
    (hfits : Fits lineLen line) : ∃ t', t.tokenize lineLen line = .ok t' ∧ Bounded line t t' := by
  have hcount : (Ppr.tokenize line).length ≤ maxTokens := length_words_le ..
  have hnul : ∀ w ∈ Ppr.tokenize line, (0 : Byte) ∉ w := fun w hw h0 => hfits.string (mem_words hw h0)
  refine ⟨_, tokenize_eq h.sized hfits, ⟨_, length_stored_le hfits, rfl⟩, rfl, hcount, ?_, ?_, ?_⟩
  · intro i w hi
    exact ⟨_, token_filled _ hi (hnul w (List.mem_of_getElem? hi))⟩
  · intro i j p q v w hij hv hw
    obtain ⟨hi, rfl⟩ := eq_of_token_filled hnul hv
    obtain ⟨-, rfl⟩ := eq_of_token_filled hnul hw
    have htake : (Ppr.tokenize line).take (i + 1) = (Ppr.tokenize line).take i ++ [v] := by
      rw [List.take_add_one, hi]
      rfl
    have hbefore := congrArg List.length (stored_take_drop ((Ppr.tokenize line).take j) (i + 1))
    rw [List.take_take, Nat.min_eq_left hij, htake, List.length_append] at hbefore
    have hmiddle : (stored ((Ppr.tokenize line).take i ++ [v])).length =
        (stored ((Ppr.tokenize line).take i)).length + v.length + 1 := by
      simp [stored]
      omega
    omega
  · intro i hi hle
    change (Ppr.tokenize line).length ≤ i at hi
    rw [filled, List.append_assoc, List.getElem?_append_right (by simpa [length_starts] using hi),
      ← List.replicate_succ', List.length_map, length_starts, List.getElem?_replicate, if_pos (by omega)]

/-- A first word with a colon and a last word fill the array. -/
theorem tokenize_bounded_full :
    ∃ t', static.tokenize 512 (List.replicate 510 65 ++ [58, 65]) = .ok t' ∧
      Bounded (List.replicate 510 65 ++ [58, 65]) static t' :=
  tokenize_bounded .static ⟨by decide +kernel, by decide +kernel, le_rfl⟩

end Tokenizer

end Ppr
