import Mathlib

/-!
# Words and lines

The words of a text are what is between its breaks, without the empty pieces.  Texts that are put together from
lines are taken apart into the same lines.
-/

namespace Words

variable {α : Type} {isBreak : α → Bool}

/-- The pieces between breaks that are not empty. -/
def words (isBreak : α → Bool) (t : List α) : List (List α) := (t.splitOnP isBreak).filter (· ≠ [])

theorem words_nil : words isBreak [] = [] := by
  rw [words, List.splitOnP_nil]
  rfl

theorem words_append_cons {c : α} (hc : isBreak c = true) (s t : List α) :
    words isBreak (s ++ c :: t) = words isBreak s ++ words isBreak t := by
  rw [words, List.splitOnP_append_cons s t hc, List.filter_append]
  rfl

theorem words_cons {c : α} (hc : isBreak c = true) (t : List α) : words isBreak (c :: t) = words isBreak t := by
  have h := words_append_cons hc [] t
  rwa [words_nil] at h

/-- A text without breaks is one word. -/
theorem words_eq_singleton {w : List α} (hw : ∀ c ∈ w, isBreak c = false) (hne : w ≠ []) : words isBreak w = [w] := by
  have hsplit : w.splitOnP isBreak = [w] := List.splitOnP_eq_singleton hw
  rw [words, hsplit]
  exact List.filter_eq_self.2 fun v hv => by simpa [List.mem_singleton.1 hv] using hne

theorem words_breaks_append {b : List α} (hb : ∀ c ∈ b, isBreak c = true) (t : List α) :
    words isBreak (b ++ t) = words isBreak t := by
  induction b with
  | nil => rfl
  | cons c b ih =>
    rw [List.cons_append, words_cons (hb c List.mem_cons_self)]
    exact ih fun d hd => hb d (List.mem_cons_of_mem c hd)

/-- What is on the two sides of some breaks is not in one word. -/
theorem words_append_breaks_append {s b t : List α} (hb : ∀ c ∈ b, isBreak c = true) (hor : s = [] ∨ b ≠ []) :
    words isBreak (s ++ (b ++ t)) = words isBreak s ++ words isBreak t := by
  cases b with
  | nil =>
    cases hor with
    | inl hs =>
      rw [hs, words_nil]
      rfl
    | inr h => exact absurd rfl h
  | cons c b =>
    rw [List.cons_append, words_append_cons (hb c List.mem_cons_self)]
    rw [words_breaks_append fun d hd => hb d (List.mem_cons_of_mem c hd)]

/-! ## Lines -/

/-- Lines with a newline behind each of them. -/
def ended (nl : α) (ls : List (List α)) : List α := ls.flatMap (· ++ [nl])

theorem ended_append (nl : α) (ls : List (List α)) (l : List α) : ended nl (ls ++ [l]) = ended nl ls ++ (l ++ [nl]) := by
  simp [ended]

/-- The lines, and what is behind the last newline. -/
theorem splitOn_ended_append [DecidableEq α] {nl : α} {ls : List (List α)} (hls : ∀ l ∈ ls, nl ∉ l) {last : List α} (hlast : nl ∉ last) :
    (ended nl ls ++ last).splitOn nl = ls ++ [last] := by
  induction ls with
  | nil => exact List.splitOn_eq_singleton hlast
  | cons l ls ih =>
    have hcons : ended nl (l :: ls) ++ last = l ++ nl :: (ended nl ls ++ last) := by simp [ended]
    rw [hcons, List.splitOn_append_cons_self, ih fun m hm => hls m (List.mem_cons_of_mem l hm)]
    rw [List.splitOn_eq_singleton (hls l List.mem_cons_self)]
    rfl

end Words
