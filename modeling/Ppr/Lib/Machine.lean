import Mathlib

/-!
# Runs and trails of state machines

A `Run` is a sequence of events from an initial state, with its history: each event with the state
it happened in.  A `Trail` is what one event does: a sequence of labelled acts, each of which was
permitted in the state it was done in.  Both have one invariant rule.
-/

namespace Machine

variable {σ ε α : Type}

/-- The runs of a machine; the history has the last event first. -/
inductive Run (init : σ → Prop) (step : σ → ε → σ → Prop) : List (σ × ε) → σ → Prop
  | init {s : σ} : init s → Run init step [] s
  | step {h : List (σ × ε)} {s t : σ} {e : ε} :
      Run init step h s → step s e t → Run init step ((s, e) :: h) t

variable {init : σ → Prop} {step : σ → ε → σ → Prop}

/-- A relation between history and state that holds at first and that every step keeps holds in
every run. -/
theorem Run.history_invariant {I : List (σ × ε) → σ → Prop} (base : ∀ s, init s → I [] s)
    (keep : ∀ h s e t, I h s → step s e t → I ((s, e) :: h) t) {h : List (σ × ε)} {s : σ}
    (run : Run init step h s) : I h s := by
  induction run with
  | init h0 => exact base _ h0
  | step _ hst ih => exact keep _ _ _ _ ih hst

/-- A property that holds at first and that every step keeps holds in every state reached. -/
theorem Run.invariant {I : σ → Prop} (base : ∀ s, init s → I s)
    (keep : ∀ s e t, I s → step s e t → I t) {h : List (σ × ε)} {s : σ}
    (run : Run init step h s) : I s :=
  run.history_invariant (I := fun _ => I) base fun _ => keep

/-- A run of a machine is a run of one with more initial states and more steps. -/
theorem Run.mono {init' : σ → Prop} {step' : σ → ε → σ → Prop} (hi : ∀ s, init s → init' s)
    (hs : ∀ s e t, step s e t → step' s e t) {h : List (σ × ε)} {s : σ}
    (run : Run init step h s) : Run init' step' h s := by
  induction run with
  | init h0 => exact .init (hi _ h0)
  | step _ hst ih => exact .step ih (hs _ _ _ hst)

/-- Do events one after another, and add them to the history. -/
def replay (f : σ → ε → Option σ) : List (σ × ε) → σ → List ε → Option (List (σ × ε) × σ)
  | h, s, [] => some (h, s)
  | h, s, e :: es =>
    match f s e with
    | some t => replay f ((s, e) :: h) t es
    | none => none

theorem Run.replay {f : σ → ε → Option σ} (hf : ∀ s e t, f s e = some t → step s e t)
    {es : List ε} {h : List (σ × ε)} {s : σ} (run : Run init step h s) {h' : List (σ × ε)} {t : σ}
    (he : replay f h s es = some (h', t)) : Run init step h' t := by
  induction es generalizing h s with
  | nil =>
    cases he
    exact run
  | cons e es ih =>
    simp only [Machine.replay] at he
    split at he
    · rename_i u hu
      exact ih (run.step (hf s e u hu)) he
    · cases he

/-- A run with a property that can be computed from it. -/
theorem exists_run_of_replay {f : σ → ε → Option σ} {P : List (σ × ε) → σ → Prop}
    [∀ h s, Decidable (P h s)] (es : List ε) {s : σ} (hs : init s)
    (h : (replay f [] s es).any (fun hs => decide (P hs.1 hs.2)) = true) :
    ∃ h t, Run init (fun s e t => f s e = some t) h t ∧ P h t := by
  obtain ⟨⟨h', t⟩, he, hP⟩ := (Option.any_eq_true ..).mp h
  exact ⟨h', t, (Run.init hs).replay (fun _ _ _ => id) he, of_decide_eq_true hP⟩

/-- Sequences of acts, each permitted by `K` in the state it is done in. -/
inductive Trail (act : α → σ → σ → Prop) (K : α → σ → Prop) : σ → σ → Prop
  | refl (s : σ) : Trail act K s s
  | step {s t u : σ} {a : α} : Trail act K s t → K a t → act a t u → Trail act K s u

variable {act : α → σ → σ → Prop} {K : α → σ → Prop}

theorem Trail.single {s t : σ} {a : α} (hK : K a s) (ha : act a s t) : Trail act K s t :=
  .step (.refl s) hK ha

theorem Trail.trans {s t u : σ} (h : Trail act K s t) (h' : Trail act K t u) : Trail act K s u := by
  induction h' with
  | refl => exact h
  | step _ hK ha ih => exact .step ih hK ha

/-- A property that every permitted act keeps is kept along a trail. -/
theorem Trail.invariant {I : σ → Prop} (keep : ∀ a s t, I s → K a s → act a s t → I t) {s t : σ}
    (h : Trail act K s t) (hs : I s) : I t := by
  induction h with
  | refl => exact hs
  | step _ hK ha ih => exact keep _ _ _ ih hK ha

/-- The acts of a trail may be permitted under an invariant that they keep. -/
theorem Trail.permit {K' : α → σ → Prop} {I : σ → Prop}
    (keep : ∀ a s t, I s → K a s → act a s t → I t) (hK : ∀ a s, I s → K a s → K' a s) {s t : σ}
    (h : Trail act K s t) (hs : I s) : Trail act K' s t := by
  induction h with
  | refl => exact .refl _
  | step hp hk ha ih => exact .step ih (hK _ _ (hp.invariant keep hs) hk) ha

theorem Trail.weaken {K' : α → σ → Prop} {s t : σ} (h : Trail act K s t)
    (hK : ∀ a s, K a s → K' a s) : Trail act K' s t :=
  h.permit (I := fun _ => True) (fun _ _ _ _ _ _ => trivial) (fun a s _ => hK a s) trivial

end Machine
