import Mathlib.Data.List.Infix
import Mathlib.Tactic.Common

/-!
# Patterns with stars

A pattern is a list of symbols, of which one, the star, stands for any text.  A matcher that goes from
left to right may say of a failure that it is final: no text that is left to try begins a match either.
`Told` is what its answer has to mean, and there is a rule for each way in which such a matcher comes to
an answer.
-/

namespace Glob

/-- A character with a property, or any text. -/
inductive Symbol (α : Type*) where
  | one (has : α → Prop)
  | star

variable {α : Type*} {has : α → Prop} {p : List (Symbol α)} {a : α} {t : List α} {yes abort : Prop}

/-- The texts that a pattern stands for. -/
inductive Denotes : List (Symbol α) → List α → Prop
  | nil : Denotes [] []
  | one {has : α → Prop} {p : List (Symbol α)} {a : α} {t : List α} (ha : has a) (h : Denotes p t) :
      Denotes (.one has :: p) (a :: t)
  | star {p : List (Symbol α)} {t : List α} (skipped : List α) (h : Denotes p t) :
      Denotes (.star :: p) (skipped ++ t)

theorem denotes_one_iff : Denotes (.one has :: p) (a :: t) ↔ has a ∧ Denotes p t := by
  constructor
  · intro h
    cases h with
    | one ha h => exact ⟨ha, h⟩
  · rintro ⟨ha, h⟩
    exact .one ha h

theorem not_denotes_one_nil : ¬Denotes (.one has :: p) [] := by
  intro h
  cases h

theorem denotes_star_iff : Denotes (.star :: p) t ↔ ∃ r, r <:+ t ∧ Denotes p r := by
  constructor
  · intro h
    cases h with
    | star skipped h => exact ⟨_, List.suffix_append _ _, h⟩
  · rintro ⟨r, ⟨skipped, rfl⟩, h⟩
    exact .star skipped h

/-- Two stars stand for what one stands for. -/
theorem denotes_star_star : Denotes (.star :: .star :: p) t ↔ Denotes (.star :: p) t := by
  rw [denotes_star_iff, denotes_star_iff]
  constructor
  · rintro ⟨r, hr, h⟩
    obtain ⟨r', hr', h⟩ := denotes_star_iff.1 h
    exact ⟨r', hr'.trans hr, h⟩
  · rintro ⟨r, hr, h⟩
    exact ⟨r, hr, .star [] h⟩

theorem denotes_star_cons :
    Denotes (.star :: p) (a :: t) ↔ Denotes p (a :: t) ∨ Denotes (.star :: p) t := by
  rw [denotes_star_iff, denotes_star_iff]
  constructor
  · rintro ⟨r, hr, h⟩
    rcases List.suffix_cons_iff.1 hr with rfl | hr
    · exact .inl h
    · exact .inr ⟨r, hr, h⟩
  · rintro (h | ⟨r, hr, h⟩)
    · exact ⟨_, List.suffix_rfl, h⟩
    · exact ⟨r, hr.trans (List.suffix_cons a t), h⟩

/-! ## What an answer means -/

/-- The answer is right, and if it is final then no rest of the text matches. -/
structure Told (p : List (Symbol α)) (t : List α) (yes abort : Prop) : Prop where
  right : yes ↔ Denotes p t
  final : abort → ∀ r, r <:+ t → ¬Denotes p r

/-- The text is at its end. -/
theorem Told.ended : Told (.one has :: p) [] False True where
  right := (iff_false_intro not_denotes_one_nil).symm
  final _ r hr := by
    rw [List.suffix_nil.1 hr]
    exact not_denotes_one_nil

theorem Told.refused (h : ¬has a) : Told (.one has :: p) (a :: t) False False where
  right := ⟨False.elim, fun hd => h (denotes_one_iff.1 hd).1⟩
  final := False.elim

theorem Told.one (ha : has a) (h : Told p t yes abort) : Told (.one has :: p) (a :: t) yes abort where
  right := h.right.trans ⟨fun hd => .one ha hd, fun hd => (denotes_one_iff.1 hd).2⟩
  final hab r hr hd := by
    cases hd with
    | @one _ _ b r _ hd =>
      rcases List.suffix_cons_iff.1 hr with heq | hr
      · obtain ⟨-, rfl⟩ := List.cons.inj heq
        exact h.final hab _ List.suffix_rfl hd
      · exact h.final hab _ ((List.suffix_cons b r).trans hr) hd

/-- Behind a star nothing is left to try. -/
theorem Told.exhausted (h : ¬Denotes p []) : Told (.star :: p) [] False True := by
  have hnone : ¬Denotes (.star :: p) [] := by
    rw [denotes_star_iff]
    rintro ⟨r, hr, hd⟩
    rw [List.suffix_nil.1 hr] at hd
    exact h hd
  refine ⟨(iff_false_intro hnone).symm, fun _ r hr => ?_⟩
  rw [List.suffix_nil.1 hr]
  exact hnone

theorem Told.found (h : Told p t True abort) : Told (.star :: p) t True False where
  right := ⟨fun _ => .star [] (h.right.1 trivial), fun _ => trivial⟩
  final := False.elim

/-- A final failure behind a star is one of the whole. -/
theorem Told.given_up (h : Told p t False True) : Told (.star :: p) t False True := by
  have hnone : ∀ r, r <:+ t → ¬Denotes (.star :: p) r := by
    intro r hr hd
    obtain ⟨r', hr', hd⟩ := denotes_star_iff.1 hd
    exact h.final trivial r' (hr'.trans hr) hd
  exact ⟨(iff_false_intro (hnone t List.suffix_rfl)).symm, fun _ => hnone⟩

/-- The star takes one character more. -/
theorem Told.skipped (h : Told p (a :: t) False False) (hrest : Told (.star :: p) t yes abort) :
    Told (.star :: p) (a :: t) yes abort where
  right := by
    rw [denotes_star_cons, hrest.right, ← h.right, false_or]
  final hab r hr := by
    rcases List.suffix_cons_iff.1 hr with rfl | hr
    · rw [denotes_star_cons, ← h.right, false_or]
      exact hrest.final hab t List.suffix_rfl
    · exact hrest.final hab r hr

end Glob
