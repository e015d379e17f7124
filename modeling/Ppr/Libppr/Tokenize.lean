import Ppr.Spool.Pages

/-!
# Breaking a comment into words

`tokenize()` of `tokenize.c`, with its two kinds of quotes.  The line is a C string; a word of it
that is there is an entry of the list.
-/

namespace Ppr

/-- Limit on words per comment line. -/
def maxTokens : ℕ := 20

/-- `' '` or `'\t'`. -/
def isBlank (c : Byte) : Bool := c = 32 || c = 9

/-- The quote levels, which outlast a word. -/
structure Quotes where
  /-- PostScript quotes. -/
  qlevel : ℕ
  /-- Apple quotes. -/
  alevel : ℕ
  deriving DecidableEq

/-- What becomes of a character of a word; `fresh` says that nothing was stored for the word yet. -/
inductive WordStep where
  | stop
  | discard (q : Quotes)
  | store (q : Quotes)

def wordStep (q : Quotes) (fresh : Bool) (lastc c : Byte) : WordStep :=
  if q.qlevel = 0 ∧ q.alevel = 0 ∧ isBlank c then .stop
  else if fresh ∧ c = 40 ∧ lastc ≠ 92 then
    let q' := { q with qlevel := q.qlevel + 1 }
    if q'.qlevel = 1 then .discard q' else .store q'
  else if 0 < q.qlevel ∧ c = 41 ∧ lastc ≠ 92 then
    let q' := { q with qlevel := q.qlevel - 1 }
    if q'.qlevel = 0 then .discard q' else .store q'
  else if q.qlevel = 0 ∧ c = 34 then
    if fresh then .discard { q with alevel := q.alevel + 1 }
    else if 0 < q.alevel then .discard { q with alevel := q.alevel - 1 }
    else .store q
  else .store q

/-- One word and what follows it.  The first word ends at a colon. -/
def word (first : Bool) : List Byte → Quotes → Bool → Byte → List Byte × List Byte × Quotes
  | [], q, _, _ => ([], [], q)
  | c :: l, q, fresh, lastc =>
    match wordStep q fresh lastc c with
    | .stop => ([], c :: l, q)
    | .discard q => word first l q fresh lastc
    | .store q =>
      if first ∧ c = 58 then ([c], l, q)
      else
        let (w, rest, q) := word first l q false c
        (c :: w, rest, q)

/-- The words of the rest of a line, at most `n`. -/
def words : ℕ → Bool → Quotes → List Byte → List (List Byte)
  | 0, _, _, _ => []
  | _ + 1, _, _, [] => []
  | n + 1, first, q, c :: l =>
    let (w, rest, q) := word first (c :: l) q true 0
    w :: words n false q (rest.dropWhile isBlank)

/-- `tokenize()`: the array `tokens[]` without its null pointers. -/
def tokenize (line : List Byte) : List (List Byte) := words maxTokens true ⟨0, 0⟩ line

/-- Once something of the first word is stored, the word is the text of the line. -/
theorem word_isPrefix (l : List Byte) (lastc : Byte) :
    (word true l ⟨0, 0⟩ false lastc).1 <+: l := by
  induction l generalizing lastc with
  | nil => exact List.nil_prefix
  | cons c l ih =>
    have hstep : wordStep ⟨0, 0⟩ false lastc c = .stop ∨
        wordStep ⟨0, 0⟩ false lastc c = .store ⟨0, 0⟩ := by
      unfold wordStep
      by_cases hb : isBlank c <;> simp [hb]
    rw [word]
    rcases hstep with h | h
    · rw [h]
      exact List.nil_prefix
    · rw [h]
      dsimp only
      split_ifs
      · exact ⟨l, rfl⟩
      · exact List.cons_prefix_cons.2 ⟨rfl, ih c⟩

/-- The first word of a comment begins the line. -/
theorem tokenize_head {l t : List Byte} {ts : List (List Byte)} (h : tokenize (37 :: l) = t :: ts) :
    t <+: 37 :: l := by
  have hword : word true (37 :: l) ⟨0, 0⟩ true 0 =
      (37 :: (word true l ⟨0, 0⟩ false 37).1, (word true l ⟨0, 0⟩ false 37).2) := rfl
  have ht : t = (word true (37 :: l) ⟨0, 0⟩ true 0).1 := (List.cons.inj h).1.symm
  rw [ht, hword]
  exact List.cons_prefix_cons.2 ⟨rfl, word_isPrefix l 37⟩

end Ppr
