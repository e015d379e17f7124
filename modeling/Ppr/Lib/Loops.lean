import Ppr.Lib.Outcome

/-!
# Loops that send

A `while` loop whose rounds send things and whose end nothing promises.  `loop` runs it with fuel;
`loop_counted` says what a loop that counts sends, and `loop_endless` that one which keeps going
returns with no amount of fuel.
-/

namespace Loops

variable {ε α σ : Type}

/-- What a round of a loop does: it sends something and goes on, or it finds the end. -/
inductive Turn (α σ : Type) where
  | more (sent : List α) (next : σ)
  | done (last : σ)

/-- Rounds until one finds the end; `late` when the fuel is used up. -/
def loop (late : ε) (round : σ → Except ε (Turn α σ)) : ℕ → σ → Except ε (List α × σ)
  | 0, _ => .error late
  | fuel + 1, s => do
    match ← round s with
    | .done last => .ok ([], last)
    | .more sent next =>
      let (rest, last) ← loop late round fuel next
      .ok (sent ++ rest, last)

variable {late : ε} {round : σ → Except ε (Turn α σ)}

theorem loop_done {s t : σ} (h : round s = .ok (.done t)) (fuel : ℕ) :
    loop late round (fuel + 1) s = .ok ([], t) := by
  rw [loop, h]
  rfl

theorem loop_more {s s' : σ} {sent : List α} (h : round s = .ok (.more sent s')) (fuel : ℕ) :
    loop late round (fuel + 1) s =
      (loop late round fuel s' >>= fun p => .ok (sent ++ p.1, p.2)) := by
  rw [loop, h]
  rfl

/-- What a loop that returns has done. -/
theorem loop_cases {fuel : ℕ} {s t : σ} {out : List α} (h : loop late round fuel s = .ok (out, t)) :
    ∃ n, fuel = n + 1 ∧ ((out = [] ∧ round s = .ok (.done t)) ∨ ∃ sent rest s',
      round s = .ok (.more sent s') ∧ loop late round n s' = .ok (rest, t) ∧ out = sent ++ rest) := by
  cases fuel with
  | zero => cases h
  | succ n =>
    refine ⟨n, rfl, ?_⟩
    obtain ⟨r, hr, h⟩ := Outcome.bind_eq_ok h
    cases r with
    | done u =>
      cases h
      exact .inl ⟨rfl, hr⟩
    | more sent s' =>
      obtain ⟨⟨rest, u⟩, hl, h⟩ := Outcome.bind_eq_ok h
      cases h
      exact .inr ⟨sent, rest, s', hr, hl, rfl⟩

/-- A loop through the states `s 0`, ..., `s n` sends what its rounds send. -/
theorem loop_counted {s : ℕ → σ} {f : ℕ → List α} {n : ℕ} {t : σ}
    (more : ∀ i < n, round (s i) = .ok (.more (f i) (s (i + 1))))
    (done : round (s n) = .ok (.done t)) {fuel : ℕ} (hf : n < fuel) :
    loop late round fuel (s 0) = .ok ((List.range n).flatMap f, t) := by
  induction n generalizing fuel s f with
  | zero =>
    obtain ⟨fuel, rfl⟩ : ∃ m, fuel = m + 1 := ⟨fuel - 1, by omega⟩
    exact loop_done done fuel
  | succ n ih =>
    obtain ⟨fuel, rfl⟩ : ∃ m, fuel = m + 1 := ⟨fuel - 1, by omega⟩
    have rest := ih (s := fun i => s (i + 1)) (f := fun i => f (i + 1))
      (fun i hi => more (i + 1) (by omega)) done (by omega : n < fuel)
    rw [loop_more (more 0 (by omega)), rest, List.range_succ_eq_map, List.flatMap_cons,
      List.flatMap_map]
    rfl

/-- A loop in which every round that returns goes on does not return. -/
theorem loop_endless {I : σ → Prop}
    (more : ∀ s r, I s → round s = .ok r → ∃ sent s', r = .more sent s' ∧ I s') {s : σ} (h : I s)
    (fuel : ℕ) (r : List α × σ) : loop late round fuel s ≠ .ok r := by
  induction fuel generalizing s r with
  | zero =>
    intro hl
    cases hl
  | succ n ih =>
    obtain ⟨out, t⟩ := r
    intro hl
    obtain ⟨m, hm, ⟨-, hd⟩ | ⟨sent, rest, s', hr, hl, -⟩⟩ := loop_cases hl
    · obtain ⟨_, _, hd', -⟩ := more s _ h hd
      cases hd'
    · obtain ⟨_, _, hm', hs⟩ := more s _ h hr
      cases hm'
      obtain rfl : n = m := by omega
      exact ih hs _ hl

end Loops
