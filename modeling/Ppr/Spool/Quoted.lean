import Ppr.Spool.Things

/-!
# Names in quotes

What `tokenize()` reads of a name that `quote()` has put into a comment.  The quotes are put around a
name with blanks and around one that looks like a number; the tokenizer gives a meaning to parentheses
and double quotes at the beginning of any word, and to closing parentheses and backslashes in quotes.
-/

namespace Ppr

/-! ## Words -/

/-- A word and what is left of the line. -/
structure Consumed (l : List Byte) (r : List Byte × List Byte × Quotes) : Prop where
  split : ∃ p, l = p ++ r.2.1 ∧ r.1.Sublist p
  stop : ∀ c ∈ r.2.1.head?, isBlank c = true

theorem isBlank_of_stop {q : Quotes} {fresh : Bool} {lastc c : Byte}
    (h : wordStep q fresh lastc c = .stop) : isBlank c = true := by
  unfold wordStep at h
  dsimp only at h
  split_ifs at h with hstop
  exact hstop.2.2

/-- A word is what was consumed, less what was discarded. -/
theorem word_consumed (l : List Byte) (q : Quotes) (fresh : Bool) (lastc : Byte) :
    Consumed l (word false l q fresh lastc) := by
  induction l generalizing q fresh lastc with
  | nil => exact ⟨⟨[], rfl, .slnil⟩, nofun⟩
  | cons c l ih =>
    rw [word]
    cases h : wordStep q fresh lastc c with
    | stop =>
      refine ⟨⟨[], rfl, .slnil⟩, ?_⟩
      rintro d ⟨⟩
      exact isBlank_of_stop h
    | discard q' =>
      obtain ⟨⟨p, hl, hp⟩, hstop⟩ := ih q' fresh lastc
      exact ⟨⟨c :: p, by rw [List.cons_append, ← hl], hp.cons c⟩, hstop⟩
    | store q' =>
      obtain ⟨⟨p, hl, hp⟩, hstop⟩ := ih q' false c
      dsimp only
      rw [if_neg (by simp)]
      exact ⟨⟨c :: p, by rw [List.cons_append, ← hl], hp.cons_cons c⟩, hstop⟩

/-- Out of quotes, a word that has begun goes on to the next blank. -/
theorem word_bare (l : List Byte) (lastc : Byte) :
    word false l ⟨0, 0⟩ false lastc = (l.takeWhile (!isBlank ·), l.dropWhile (!isBlank ·), ⟨0, 0⟩) := by
  induction l generalizing lastc with
  | nil => rfl
  | cons c l ih =>
    rw [word]
    by_cases hc : isBlank c = true
    · have hstep : wordStep ⟨0, 0⟩ false lastc c = .stop := by
        unfold wordStep
        exact if_pos ⟨rfl, rfl, hc⟩
      rw [hstep, List.takeWhile_cons_of_neg (by simp [hc]), List.dropWhile_cons_of_neg (by simp [hc])]
    · have hstep : wordStep ⟨0, 0⟩ false lastc c = .store ⟨0, 0⟩ := by
        unfold wordStep
        simp [hc]
      rw [hstep, List.takeWhile_cons_of_pos (by simp [hc]), List.dropWhile_cons_of_pos (by simp [hc])]
      dsimp only
      rw [if_neg (by simp), ih]

/-! ## In quotes -/

/-- How many closing parentheses without a backslash before them there are; `lastc` is before the text. -/
def closes (lastc : Byte) : List Byte → ℕ
  | [] => 0
  | c :: l => (if c = 41 ∧ lastc ≠ 92 then 1 else 0) + closes c l

/-- The last character of a text behind another. -/
def lastOf (lastc : Byte) (l : List Byte) : Byte := l.getLast?.getD lastc

theorem lastOf_cons (lastc c : Byte) (l : List Byte) : lastOf lastc (c :: l) = lastOf c l := by
  rw [lastOf, List.getLast?_cons, lastOf]
  rfl

theorem closes_append (lastc : Byte) (u v : List Byte) :
    closes lastc (u ++ v) = closes lastc u + closes (lastOf lastc u) v := by
  induction u generalizing lastc with
  | nil => simp [closes, lastOf]
  | cons c u ih => rw [List.cons_append, closes, ih, lastOf_cons, closes, Nat.add_assoc]

/-- The parenthesis closes one level more than those before it. -/
theorem closes_closed {lastc : Byte} {u : List Byte} (h : lastOf lastc u ≠ 92) (v : List Byte) :
    closes lastc u + 1 ≤ closes lastc (u ++ 41 :: v) := by
  rw [closes_append, closes, if_pos ⟨rfl, h⟩]
  omega

/-- There is one place at most where the quotes are closed. -/
theorem closed_unique {lastc : Byte} {u v u' v' : List Byte} (h : u ++ 41 :: v = u' ++ 41 :: v')
    (hu : lastOf lastc u ≠ 92) (hu' : lastOf lastc u' ≠ 92) (heq : closes lastc u = closes lastc u') :
    u = u' ∧ v = v' := by
  wlog hle : u.length ≤ u'.length generalizing u v u' v'
  · obtain ⟨rfl, rfl⟩ := this h.symm hu' hu heq.symm (by omega)
    exact ⟨rfl, rfl⟩
  rcases List.append_eq_append_iff.1 h with ⟨a, ha, hv⟩ | ⟨a, ha, hv⟩
  · cases a with
    | nil =>
      rw [List.append_nil] at ha
      exact ⟨ha.symm, (List.cons.inj hv).2⟩
    | cons c a =>
      obtain ⟨rfl, -⟩ := List.cons.inj hv
      have hlt := closes_closed hu a
      rw [← ha] at hlt
      omega
  · have hlen := congrArg List.length ha
    rw [List.length_append] at hlen
    obtain rfl : a = [] := List.eq_nil_of_length_eq_zero (by omega)
    rw [List.append_nil] at ha
    exact ⟨ha, (List.cons.inj hv).2.symm⟩

/-- A word in `d + 1` levels of quotes: either they are not closed in the text, or there is the
parenthesis that closes the last of them. -/
theorem word_quoted (l : List Byte) (d : ℕ) (lastc : Byte) :
    (closes lastc l ≤ d ∧ ∃ q, word false l ⟨d + 1, 0⟩ false lastc = (l, [], q)) ∨
    ∃ u v, l = u ++ 41 :: v ∧ closes lastc u = d ∧ lastOf lastc u ≠ 92 ∧
      word false l ⟨d + 1, 0⟩ false lastc =
        (u ++ v.takeWhile (!isBlank ·), v.dropWhile (!isBlank ·), ⟨0, 0⟩) := by
  induction l generalizing d lastc with
  | nil => exact .inl ⟨Nat.zero_le _, _, rfl⟩
  | cons c l ih =>
    by_cases hclose : c = 41 ∧ lastc ≠ 92
    · obtain ⟨rfl, hlast⟩ := hclose
      cases d with
      | zero =>
        right
        refine ⟨[], l, rfl, rfl, hlast, ?_⟩
        have hstep : wordStep ⟨0 + 1, 0⟩ false lastc 41 = .discard ⟨0, 0⟩ := by
          unfold wordStep
          rw [if_neg (by simp), if_neg (by simp), if_pos ⟨Nat.succ_pos _, rfl, hlast⟩]
          rfl
        rw [word, hstep]
        dsimp only
        rw [word_bare, List.nil_append]
      | succ d =>
        have hstep : wordStep ⟨d + 1 + 1, 0⟩ false lastc 41 = .store ⟨d + 1, 0⟩ := by
          unfold wordStep
          rw [if_neg (by simp), if_neg (by simp), if_pos ⟨Nat.succ_pos _, rfl, hlast⟩]
          rfl
        have hcloses : ∀ m, closes lastc (41 :: m) = 1 + closes 41 m := fun m => by
          rw [closes, if_pos ⟨rfl, hlast⟩]
        rcases ih d 41 with ⟨hle, q, hword⟩ | ⟨u, v, rfl, hu, hlast', hword⟩
        · left
          refine ⟨by rw [hcloses]; omega, q, ?_⟩
          rw [word, hstep]
          dsimp only
          rw [if_neg (by simp), hword]
        · right
          refine ⟨41 :: u, v, rfl, by rw [hcloses]; omega, by rwa [lastOf_cons], ?_⟩
          rw [word, hstep]
          dsimp only
          rw [if_neg (by simp), hword, List.cons_append]
    · have hstep : wordStep ⟨d + 1, 0⟩ false lastc c = .store ⟨d + 1, 0⟩ := by
        unfold wordStep
        rw [if_neg (by simp), if_neg (by simp), if_neg (fun h => hclose h.2), if_neg (by simp)]
      have hcloses : ∀ m, closes lastc (c :: m) = closes c m := fun m => by
        rw [closes, if_neg hclose, Nat.zero_add]
      rcases ih d c with ⟨hle, q, hword⟩ | ⟨u, v, rfl, hu, hlast', hword⟩
      · left
        refine ⟨by rw [hcloses]; exact hle, q, ?_⟩
        rw [word, hstep]
        dsimp only
        rw [if_neg (by simp), hword]
      · right
        refine ⟨c :: u, v, rfl, by rw [hcloses]; exact hu, by rwa [lastOf_cons], ?_⟩
        rw [word, hstep]
        dsimp only
        rw [if_neg (by simp), hword, List.cons_append]

/-- A word whose quotes are closed. -/
theorem word_closed {u : List Byte} {lastc : Byte} (h : lastOf lastc u ≠ 92) (v : List Byte) :
    word false (u ++ 41 :: v) ⟨closes lastc u + 1, 0⟩ false lastc =
      (u ++ v.takeWhile (!isBlank ·), v.dropWhile (!isBlank ·), ⟨0, 0⟩) := by
  rcases word_quoted (u ++ 41 :: v) (closes lastc u) lastc with ⟨hle, -⟩ | ⟨u', v', heq, hu', hlast, hword⟩
  · exact absurd (closes_closed h v) (by omega)
  · obtain ⟨rfl, rfl⟩ := closed_unique heq h hlast hu'.symm
    exact hword

/-! ## The comment -/

/-- A word that stands for itself. -/
structure PlainWord (w : List Byte) : Prop where
  ne : w ≠ []
  noBlank : ∀ c ∈ w, isBlank c = false
  head : w.head? ≠ some 40 ∧ w.head? ≠ some 34

/-- The name of a comment. -/
structure Keyword (k : List Byte) : Prop where
  noBlank : ∀ c ∈ k, isBlank c = false
  noColon : (58 : Byte) ∉ k

/-- "%%Keyword: w1 quote(name) w2". -/
def quotedComment (k w1 name w2 : List Byte) : List Byte :=
  37 :: 37 :: (k ++ 58 :: 32 :: (w1 ++ 32 :: (quote name ++ 32 :: w2)))

/-- A character that begins a plain word. -/
theorem wordStep_plain {c lastc : Byte} {fresh : Bool} (hc : isBlank c = false)
    (h : fresh = true → c ≠ 40 ∧ c ≠ 34) : wordStep ⟨0, 0⟩ fresh lastc c = .store ⟨0, 0⟩ := by
  unfold wordStep
  rw [if_neg (by simp [hc]), if_neg (fun hp => (h hp.1).1 hp.2.1), if_neg (by simp)]
  cases fresh with
  | true => rw [if_neg fun hq => (h rfl).2 hq.2]
  | false => simp

theorem blank_dropWhile {l : List Byte} (hl : ∀ c ∈ l.head?, isBlank c = false) (s : List Byte) (hne : l ≠ []) :
    (32 :: (l ++ s)).dropWhile isBlank = l ++ s := by
  obtain ⟨c, t, rfl⟩ := List.exists_cons_of_ne_nil hne
  rw [List.dropWhile_cons_of_pos (by decide), List.cons_append,
    List.dropWhile_cons_of_neg (by simp [hl c rfl])]

/-- A plain word is read as it is, whatever is behind it. -/
theorem PlainWord.word {w : List Byte} (h : PlainWord w) {l : List Byte}
    (hl : ∀ c ∈ l.head?, isBlank c = true) : word false (w ++ l) ⟨0, 0⟩ true 0 = (w, l, ⟨0, 0⟩) := by
  obtain ⟨c, t, rfl⟩ := List.exists_cons_of_ne_nil h.ne
  obtain ⟨hc, ht⟩ := List.forall_mem_cons.1 h.noBlank
  have hstep : wordStep ⟨0, 0⟩ true 0 c = .store ⟨0, 0⟩ :=
    wordStep_plain hc fun _ => ⟨fun e => h.head.1 (congrArg some e), fun e => h.head.2 (congrArg some e)⟩
  obtain ⟨htake, hdrop⟩ := span_append (!isBlank ·) l (fun b hb => by simp [ht b hb])
    (fun b hb => by simp [hl b hb])
  rw [List.cons_append, Ppr.word, hstep]
  dsimp only
  rw [if_neg (by simp), word_bare, htake, hdrop]

theorem PlainWord.head_notBlank {w : List Byte} (h : PlainWord w) : ∀ c ∈ w.head?, isBlank c = false :=
  fun c hc => h.noBlank c (List.mem_of_mem_head? hc)

theorem words_cons {l : List Byte} (hne : l ≠ []) (n : ℕ) (first : Bool) (q : Quotes) :
    words (n + 1) first q l = (word first l q true 0).1 ::
      words n false (word first l q true 0).2.2 ((word first l q true 0).2.1.dropWhile isBlank) := by
  obtain ⟨c, l, rfl⟩ := List.exists_cons_of_ne_nil hne
  rfl

theorem PlainWord.words {w : List Byte} (h : PlainWord w) (n : ℕ) :
    words (n + 1) false ⟨0, 0⟩ w = [w] := by
  have hword := h.word (l := []) nofun
  rw [List.append_nil] at hword
  rw [words_cons h.ne, hword]
  cases n <;> rfl

/-- The keyword ends at its colon. -/
theorem word_keyword {k : List Byte} (hk : Keyword k) (s : List Byte) (lastc : Byte) :
    word true (k ++ 58 :: s) ⟨0, 0⟩ false lastc = (k ++ [58], s, ⟨0, 0⟩) := by
  induction k generalizing lastc with
  | nil => rfl
  | cons c k ih =>
    obtain ⟨hc, hblank⟩ := List.forall_mem_cons.1 hk.noBlank
    have hcolon := hk.noColon
    rw [List.mem_cons, not_or] at hcolon
    have hstep : wordStep ⟨0, 0⟩ false lastc c = .store ⟨0, 0⟩ := wordStep_plain hc (by simp)
    rw [List.cons_append, word, hstep]
    dsimp only
    rw [if_neg (fun h => hcolon.1 h.2.symm), ih ⟨hblank, hcolon.2⟩]
    rfl

/-- `quote()` puts quotes around the name. -/
def NeedsQuotes (name : List Byte) : Prop := name.any isBlank ∨ name.all isdigit

instance (name : List Byte) : Decidable (NeedsQuotes name) := inferInstanceAs (Decidable (_ ∨ _))

theorem quote_of_needs {name : List Byte} (h : NeedsQuotes name) :
    quote name = 40 :: (name ++ [41]).take 254 := if_pos h

theorem quote_of_not {name : List Byte} (h : ¬NeedsQuotes name) : quote name = name := if_neg h

theorem ne_of_not_needs {name : List Byte} (h : ¬NeedsQuotes name) : name ≠ [] := by
  rintro rfl
  exact h (.inr rfl)

theorem noBlank_of_not_needs {name : List Byte} (h : ¬NeedsQuotes name) : ∀ c ∈ name, isBlank c = false := by
  rw [NeedsQuotes, not_or] at h
  simpa using h.1

theorem quote_ne (name : List Byte) : quote name ≠ [] := by
  by_cases h : NeedsQuotes name
  · rw [quote_of_needs h]
    exact List.cons_ne_nil _ _
  · rw [quote_of_not h]
    exact ne_of_not_needs h

theorem quote_head (name : List Byte) : ∀ c ∈ (quote name).head?, isBlank c = false := by
  by_cases h : NeedsQuotes name
  · rw [quote_of_needs h]
    rintro _ ⟨⟩
    decide
  · rw [quote_of_not h]
    exact fun c hc => noBlank_of_not_needs h c (List.mem_of_mem_head? hc)

/-- The words before the name. -/
theorem tokenize_quotedComment {k w1 : List Byte} (hk : Keyword k) (h1 : PlainWord w1)
    (name w2 : List Byte) :
    tokenize (quotedComment k w1 name w2) =
      (37 :: 37 :: (k ++ [58])) :: w1 :: words 18 false ⟨0, 0⟩ (quote name ++ 32 :: w2) := by
  have hkey : word true (quotedComment k w1 name w2) ⟨0, 0⟩ true 0 =
      (37 :: 37 :: (k ++ [58]), 32 :: (w1 ++ 32 :: (quote name ++ 32 :: w2)), ⟨0, 0⟩) := by
    rw [quotedComment, word, wordStep_plain (by decide) (by decide)]
    dsimp only
    rw [if_neg (by decide), word, wordStep_plain (by decide) (by decide)]
    dsimp only
    rw [if_neg (by decide), word_keyword hk]
  have hw1 := h1.word (l := 32 :: (quote name ++ 32 :: w2)) (by simp [isBlank])
  have hne : quotedComment k w1 name w2 ≠ [] := List.cons_ne_nil _ _
  rw [tokenize, maxTokens, words_cons hne, hkey]
  dsimp only
  rw [blank_dropWhile h1.head_notBlank _ h1.ne, words_cons (by simp [h1.ne]), hw1]
  dsimp only
  rw [blank_dropWhile (quote_head name) _ (quote_ne name)]

/-! ## Names that survive -/

/-- The levels of quotes above the first one when the first character of the name was read. -/
def levels (name : List Byte) : ℕ := if name.head? = some 40 then 1 else 0

/-- In quotes a name is some text, not ending in a backslash, and closing parentheses behind it.  The
text has no closing parenthesis without a backslash before it, or one if the name begins with an opening
parenthesis. -/
def Balanced (name : List Byte) : Prop :=
  ∃ u n, name = u ++ List.replicate n 41 ∧ u.getLast? ≠ some 92 ∧ closes 0 u = levels name

/-- The names that come back. -/
def Survives (name : List Byte) : Prop :=
  (NeedsQuotes name → name.length ≤ 253 ∧ Balanced name) ∧
  (¬NeedsQuotes name → name.head? ≠ some 40 ∧ name.head? ≠ some 34)

/-- The name is read as it is, and the last word behind it. -/
def ReadsBack (name w2 : List Byte) : Prop :=
  words 18 false ⟨0, 0⟩ (quote name ++ 32 :: w2) = [name, w2]

section Reading

variable {name w2 : List Byte}

/-- What is read as the name, and what then is left for the last word. -/
theorem readsBack_iff (name w2 : List Byte) : ReadsBack name w2 ↔
    (word false (quote name ++ 32 :: w2) ⟨0, 0⟩ true 0).1 = name ∧
      words 17 false (word false (quote name ++ 32 :: w2) ⟨0, 0⟩ true 0).2.2
        ((word false (quote name ++ 32 :: w2) ⟨0, 0⟩ true 0).2.1.dropWhile isBlank) = [w2] := by
  rw [ReadsBack, words_cons (by simp [quote_ne]), List.cons.injEq]

/-- If there is a last word, then the name ends at a blank of the text or at the one behind it. -/
theorem split_of_rest (hw : PlainWord w2) {text p rest : List Byte} (h : text ++ 32 :: w2 = p ++ rest)
    (hne : rest ≠ []) (hblank : ∀ c ∈ rest.head?, isBlank c = true) :
    ∃ x, text = p ++ x ∧ rest = x ++ 32 :: w2 := by
  rcases List.append_eq_append_iff.1 h with ⟨a, hp, hrest⟩ | ⟨x, htext, hrest⟩
  · cases a with
    | nil =>
      refine ⟨[], by simp [hp], ?_⟩
      rw [List.nil_append, ← List.nil_append rest, ← hrest]
    | cons c a =>
      obtain ⟨d, t, rfl⟩ := List.exists_cons_of_ne_nil hne
      have hmem : d ∈ w2 := by
        rw [(List.cons.inj hrest).2]
        exact List.mem_append_right _ List.mem_cons_self
      have hd := hblank d rfl
      rw [hw.noBlank d hmem] at hd
      exact absurd hd Bool.false_ne_true
  · exact ⟨x, htext, hrest⟩

/-- What is behind the name when it is read back. -/
theorem words_rest (hw : PlainWord w2) (n : ℕ) :
    words (n + 1) false ⟨0, 0⟩ ((32 :: w2).dropWhile isBlank) = [w2] := by
  have hdrop := blank_dropWhile hw.head_notBlank [] hw.ne
  rw [List.append_nil] at hdrop
  rw [hdrop, hw.words n]

/-- The opening parenthesis of the quotes. -/
theorem word_open (l : List Byte) : word false (40 :: l) ⟨0, 0⟩ true 0 = word false l ⟨1, 0⟩ true 0 := rfl

theorem word_first {c : Byte} (hc : c ≠ 41) (l : List Byte) :
    word false (c :: l) ⟨1, 0⟩ true 0 =
      (c :: (word false l ⟨levels (c :: l) + 1, 0⟩ false c).1,
        (word false l ⟨levels (c :: l) + 1, 0⟩ false c).2) := by
  have hstep : wordStep ⟨1, 0⟩ true 0 c = .store ⟨levels (c :: l) + 1, 0⟩ := by
    by_cases hopen : c = 40
    · subst hopen
      rfl
    · have hlevels : levels (c :: l) = 0 := if_neg fun h => hopen (Option.some.inj h)
      rw [hlevels]
      unfold wordStep
      rw [if_neg (by simp), if_neg (fun h => hopen h.2.1), if_neg (fun h => hc h.2.1), if_neg (by simp)]
  rw [word, hstep]
  rfl

theorem closes_first {c : Byte} (hc : c ≠ 41) (lastc : Byte) (l : List Byte) :
    closes lastc (c :: l) = closes c l := by
  rw [closes, if_neg (fun h => hc h.1), Nat.zero_add]

theorem eq_replicate_of_cons_eq_append {a : Byte} {l : List Byte} (h : a :: l = l ++ [a]) :
    l = List.replicate l.length a := by
  induction l with
  | nil => rfl
  | cons b l ih =>
    rw [List.cons_append] at h
    obtain ⟨rfl, htail⟩ := List.cons.inj h
    rw [List.length_cons, List.replicate_succ, ← ih htail]

/-- A name that fits into the buffer with its quotes. -/
theorem take_of_length_lt (h : name.length < ((name ++ [41]).take 254).length) :
    name.length ≤ 253 ∧ (name ++ [(41 : Byte)]).take 254 = name ++ [41] := by
  rw [List.length_take, List.length_append, List.length_singleton] at h
  refine ⟨by omega, List.take_of_length_le ?_⟩
  rw [List.length_append, List.length_singleton]
  omega

/-- The name in quotes, up to where it was read. -/
theorem survives_of_bare (hw : PlainWord w2) (hneeds : ¬NeedsQuotes name) (h : ReadsBack name w2) :
    name.head? ≠ some 40 ∧ name.head? ≠ some 34 := by
  obtain ⟨hname, hrest⟩ := (readsBack_iff name w2).1 h
  rw [quote_of_not hneeds] at hname hrest
  -- A first character that opens quotes is lost, so there are too few characters before the blank.
  have hlost : ∀ c q t, name = c :: t → wordStep ⟨0, 0⟩ true 0 c ≠ .discard q := by
    rintro c q t rfl hstep
    rw [List.cons_append, word, hstep] at hname hrest
    dsimp only at hname hrest
    obtain ⟨⟨p, htext, hsub⟩, hstop⟩ := word_consumed (t ++ 32 :: w2) q true 0
    obtain ⟨x, hx, -⟩ := split_of_rest hw htext (by rintro hnil; rw [hnil] at hrest; cases hrest) hstop
    rw [hname] at hsub
    have hle := hsub.length_le
    rw [hx, List.length_cons, List.length_append] at hle
    omega
  obtain ⟨c, t, rfl⟩ := List.exists_cons_of_ne_nil (ne_of_not_needs hneeds)
  rw [List.head?_cons]
  constructor
  · rintro ⟨⟩
    exact hlost _ _ t rfl rfl
  · rintro ⟨⟩
    exact hlost _ _ t rfl rfl

theorem survives_of_quoted (hw : PlainWord w2) (hneeds : NeedsQuotes name) (h : ReadsBack name w2) :
    name.length ≤ 253 ∧ Balanced name := by
  obtain ⟨hname, hrest⟩ := (readsBack_iff name w2).1 h
  rw [quote_of_needs hneeds, List.cons_append, word_open] at hname hrest
  have hlen := @take_of_length_lt name
  obtain ⟨c, t, htake⟩ : ∃ c t, (name ++ [(41 : Byte)]).take 254 = c :: t :=
    List.exists_cons_of_ne_nil (by simp)
  rw [htake] at hname hrest hlen
  by_cases hc : c = 41
  · -- The quotes are closed at once, so the name is what is left of the text.
    subst hc
    have hword : word false (41 :: t ++ 32 :: w2) ⟨1, 0⟩ true 0 = word false (t ++ 32 :: w2) ⟨0, 0⟩ true 0 := rfl
    rw [hword] at hname hrest
    obtain ⟨⟨p, htext, hsub⟩, hstop⟩ := word_consumed (t ++ 32 :: w2) ⟨0, 0⟩ true 0
    obtain ⟨x, hx, -⟩ := split_of_rest hw htext (by rintro hnil; rw [hnil] at hrest; cases hrest) hstop
    rw [hname] at hsub
    have hle := hsub.length_le
    have hxlen := congrArg List.length hx
    rw [List.length_append] at hxlen
    obtain ⟨hshort, htext'⟩ := hlen (by rw [List.length_cons]; omega)
    have htlen := congrArg List.length htext'
    rw [List.length_append, List.length_cons, List.length_singleton] at htlen
    have hnp : name = p := hsub.eq_of_length (by omega)
    have hnil : x = [] := List.eq_nil_of_length_eq_zero (by omega)
    rw [hnil, List.append_nil, ← hnp] at hx
    rw [hx] at htext'
    refine ⟨hshort, [], name.length, eq_replicate_of_cons_eq_append htext', by simp, ?_⟩
    have hhead : name.head? ≠ some 40 := by
      rw [eq_replicate_of_cons_eq_append htext', List.head?_replicate]
      split_ifs <;> decide
    rw [closes, levels, if_neg hhead]
  · rw [List.cons_append, word_first hc] at hname hrest
    rcases word_quoted (t ++ 32 :: w2) (levels (c :: (t ++ 32 :: w2))) c with
      ⟨-, q, hword⟩ | ⟨u, v, htext, hcloses, hlast, hword⟩
    · rw [hword] at hrest
      cases hrest
    · rw [hword] at hname hrest
      dsimp only at hname hrest
      have hsplit : t ++ 32 :: w2 = (u ++ 41 :: v.takeWhile (!isBlank ·)) ++ v.dropWhile (!isBlank ·) := by
        rw [htext, List.append_assoc, List.cons_append, List.takeWhile_append_dropWhile]
      obtain ⟨x, hx, -⟩ := split_of_rest hw hsplit (by rintro hnil; rw [hnil] at hrest; cases hrest)
        fun b hb => by simpa using dropWhile_head v b hb
      have hlong : name.length < (c :: t).length := by
        rw [← hname, hx]
        simp only [List.length_cons, List.length_append]
        omega
      obtain ⟨hshort, htext'⟩ := hlen hlong
      have hreplicate := eq_replicate_of_cons_eq_append (l := v.takeWhile (!isBlank ·)) (a := 41) (by
        rw [← hname, hx, List.cons_append, List.append_assoc, List.append_assoc] at htext'
        have htail := List.append_cancel_left (List.cons.inj htext').2
        have hnil : x = [] := by
          have hlen' := congrArg List.length htail
          simp only [List.length_append, List.length_cons, List.length_nil] at hlen'
          exact List.eq_nil_of_length_eq_zero (by omega)
        rwa [hnil, List.append_nil] at htail)
      refine ⟨hshort, c :: u, (v.takeWhile (!isBlank ·)).length, ?_, ?_, ?_⟩
      · rw [← hreplicate, ← hname, List.cons_append]
      · rw [List.getLast?_cons]
        exact fun e => hlast (Option.some.inj e)
      · rw [closes_first hc, hcloses, ← hname]
        rfl

/-- A name in quotes. -/
theorem readsBack_of_quoted (hw : PlainWord w2) (hneeds : NeedsQuotes name) (hshort : name.length ≤ 253)
    (h : Balanced name) : ReadsBack name w2 := by
  have htake : (name ++ [(41 : Byte)]).take 254 = name ++ [41] :=
    List.take_of_length_le (by rw [List.length_append, List.length_singleton]; omega)
  obtain ⟨u, n, hname, hlast, hcloses⟩ := h
  suffices hword : word false (name ++ 41 :: 32 :: w2) ⟨1, 0⟩ true 0 = (name, 32 :: w2, ⟨0, 0⟩) by
    rw [readsBack_iff, quote_of_needs hneeds, htake, List.cons_append, word_open, List.append_assoc,
      List.singleton_append, hword]
    exact ⟨rfl, words_rest hw 16⟩
  cases name with
  | nil => rfl
  | cons c t =>
    cases u with
    | nil =>
      -- A name of parentheses alone is not put in quotes.
      rw [List.nil_append] at hname
      have hall : ∀ b ∈ c :: t, b = 41 := fun b hb => List.eq_of_mem_replicate (hname ▸ hb)
      rcases hneeds with hblank | hdigit
      · obtain ⟨b, hb, hblank⟩ := List.any_eq_true.1 hblank
        rw [hall b hb] at hblank
        exact absurd hblank (by decide)
      · have hfirst := List.all_eq_true.1 hdigit c List.mem_cons_self
        rw [hall c List.mem_cons_self] at hfirst
        exact absurd hfirst (by decide)
    | cons d u =>
      rw [List.cons_append] at hname
      obtain ⟨rfl, rfl⟩ := List.cons.inj hname
      have hc : c ≠ 41 := by
        rintro rfl
        rw [closes, if_pos ⟨rfl, by decide⟩, levels, if_neg (by simp)] at hcloses
        omega
      rw [closes_first hc] at hcloses
      rw [List.getLast?_cons] at hlast
      have hlevels : levels (c :: (u ++ List.replicate n 41 ++ 41 :: 32 :: w2)) = closes c u := hcloses.symm
      have hmove : u ++ List.replicate n 41 ++ 41 :: 32 :: w2 = u ++ 41 :: (List.replicate n 41 ++ 32 :: w2) := by
        rw [List.append_assoc, List.append_cons, ← List.replicate_succ', List.replicate_succ]
        simp
      obtain ⟨hparens, hrest⟩ := span_append (w := List.replicate n (41 : Byte)) (!isBlank ·) (32 :: w2)
        (fun b hb => by rw [List.eq_of_mem_replicate hb]; rfl) (by simp [isBlank])
      rw [List.cons_append, word_first hc, hlevels, hmove,
        word_closed (fun e => hlast (congrArg some e)), hparens, hrest]

/-- The names that are read back. -/
theorem readsBack_iff_survives (hw : PlainWord w2) : ReadsBack name w2 ↔ Survives name := by
  by_cases hneeds : NeedsQuotes name
  · rw [Survives]
    refine ⟨fun h => ⟨fun _ => survives_of_quoted hw hneeds h, absurd hneeds⟩, fun h => ?_⟩
    exact readsBack_of_quoted hw hneeds (h.1 hneeds).1 (h.1 hneeds).2
  · refine ⟨fun h => ⟨fun hn => absurd hn hneeds, fun _ => survives_of_bare hw hneeds h⟩, fun h => ?_⟩
    have hplain : PlainWord name := ⟨ne_of_not_needs hneeds, noBlank_of_not_needs hneeds, h.2 hneeds⟩
    rw [readsBack_iff, quote_of_not hneeds, hplain.word (by simp [isBlank])]
    exact ⟨rfl, words_rest hw 16⟩

end Reading

/-! ## Reading the comment -/

/-- `tokenize()` throws when `line_len` is above the limit. -/
def tokenizeLine (line : List Byte) : Option (List (List Byte)) :=
  if line.length ≤ maxTokenized then some (tokenize line) else none

/-- What is expected of the comment. -/
def commentTokens (k w1 name w2 : List Byte) : List (List Byte) := [37 :: 37 :: (k ++ [58]), w1, name, w2]

/-- The name comes back if and only if the comment may be tokenized and the name survives. -/
theorem quotedComment_readBack_iff {k w1 w2 : List Byte} (hk : Keyword k) (h1 : PlainWord w1)
    (h2 : PlainWord w2) (name : List Byte) :
    tokenizeLine (quotedComment k w1 name w2) = some (commentTokens k w1 name w2) ↔
      (quotedComment k w1 name w2).length ≤ maxTokenized ∧ Survives name := by
  rw [tokenizeLine, ← readsBack_iff_survives h2, ReadsBack]
  by_cases hlen : (quotedComment k w1 name w2).length ≤ maxTokenized
  · rw [if_pos hlen, Option.some.injEq, tokenize_quotedComment hk h1, commentTokens, List.cons.injEq,
      List.cons.injEq]
    simp [hlen]
  · rw [if_neg hlen]
    simp [hlen]

/-- The name "Times Roman" of a font comes back. -/
theorem timesRoman_readBack :
    tokenizeLine (quotedComment (ascii "PageResources") (ascii "font") (ascii "Times Roman") (ascii "1")) =
      some (commentTokens (ascii "PageResources") (ascii "font") (ascii "Times Roman") (ascii "1")) :=
  (quotedComment_readBack_iff ⟨by decide, by decide⟩ ⟨by decide, by decide, by decide⟩
    ⟨by decide, by decide, by decide⟩ _).2
    ⟨by decide, fun _ => ⟨by decide, ascii "Times Roman", 0, by decide, by decide, by decide⟩,
      fun h => absurd (by decide) h⟩

/-- The name `a) b`, which an Apple quoted word can be, does not: its parenthesis ends the quotes. -/
theorem not_readBack_parenthesis :
    ¬∀ line name : List Byte, line.length ≤ maxTokenized → name ∈ tokenize line →
      ∀ k w1 w2 : List Byte, Keyword k → PlainWord w1 → PlainWord w2 →
        tokenizeLine (quotedComment k w1 name w2) = some (commentTokens k w1 name w2) := by
  intro h
  have hback := h (ascii "%%DocumentFonts: \"a) b\"") (ascii "a) b") (by decide) (by decide)
    (ascii "PageResources") (ascii "font") (ascii "1") ⟨by decide, by decide⟩
    ⟨by decide, by decide, by decide⟩ ⟨by decide, by decide, by decide⟩
  exact absurd hback (by decide)

end Ppr
