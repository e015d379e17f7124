import Mathlib

/-!
# Computations that may stop

A computation that may stop before it returns is an `Except ε α`.  `Ensures x Q` says that every
value `x` returns satisfies `Q`, and `Avoids x E` that `x` does not stop for a reason in `E`.  The
rules follow the monad structure; `forLoop` is a counted loop whose body may go on, look at the same
index again (after deleting the item there) or break, and it has one invariant rule.
-/

namespace Outcome

variable {ε α β σ : Type}

theorem bind_eq_ok {x : Except ε α} {f : α → Except ε β} {b : β} (h : (x >>= f) = .ok b) :
    ∃ a, x = .ok a ∧ f a = .ok b := by
  cases x with
  | error e => cases h
  | ok a => exact ⟨a, rfl, h⟩

theorem bind_eq_error {x : Except ε α} {f : α → Except ε β} {e : ε} (h : (x >>= f) = .error e) :
    x = .error e ∨ ∃ a, x = .ok a ∧ f a = .error e := by
  cases x with
  | error e' =>
    cases h
    exact Or.inl rfl
  | ok a => exact Or.inr ⟨a, rfl, h⟩

/-- Every value the computation returns satisfies `Q`. -/
def Ensures (x : Except ε α) (Q : α → Prop) : Prop := ∀ a, x = .ok a → Q a

theorem ensures_ok {a : α} {Q : α → Prop} (h : Q a) : Ensures (.ok a : Except ε α) Q := by
  intro b hb
  cases hb
  exact h

theorem ensures_error {e : ε} {Q : α → Prop} : Ensures (.error e) Q := by
  intro b hb
  cases hb

theorem Ensures.mono {x : Except ε α} {Q R : α → Prop} (h : Ensures x Q) (hQ : ∀ a, Q a → R a) :
    Ensures x R :=
  fun a ha => hQ a (h a ha)

theorem Ensures.bind {x : Except ε α} {f : α → Except ε β} {Q : α → Prop} {R : β → Prop}
    (hx : Ensures x Q) (hf : ∀ a, Q a → Ensures (f a) R) : Ensures (x >>= f) R := by
  intro b hb
  obtain ⟨a, ha, hb⟩ := bind_eq_ok hb
  exact hf a (hx a ha) b hb

theorem ensures_ite {c : Prop} [Decidable c] {x y : Except ε α} {Q : α → Prop}
    (hx : c → Ensures x Q) (hy : ¬ c → Ensures y Q) : Ensures (if c then x else y) Q := by
  split_ifs with h
  · exact hx h
  · exact hy h

/-- A property that every round keeps holds after a fold over a list. -/
theorem ensures_foldlM {f : σ → β → Except ε σ} {I : σ → Prop} {l : List β}
    (round : ∀ s, ∀ b ∈ l, I s → Ensures (f s b) I) {s : σ} (h : I s) :
    Ensures (l.foldlM f s) I := by
  induction l generalizing s with
  | nil => exact ensures_ok h
  | cons b l ih =>
    rw [List.foldlM_cons]
    refine Ensures.bind (round s b (List.mem_cons_self ..) h) fun t ht => ?_
    exact ih (fun s c hc => round s c (List.mem_cons_of_mem b hc)) ht

/-- The same for a property that knows which items have been dealt with. -/
theorem ensures_foldlM_along {f : σ → β → Except ε σ} {I : List β → σ → Prop} {l : List β}
    (round : ∀ before b after, l = before ++ b :: after → ∀ s, I before s →
      Ensures (f s b) (I (before ++ [b])))
    {s : σ} (h : I [] s) : Ensures (l.foldlM f s) (I l) := by
  suffices ∀ before rest, l = before ++ rest → ∀ s, I before s → Ensures (rest.foldlM f s) (I l) from
    this [] l rfl s h
  intro before rest
  induction rest generalizing before with
  | nil =>
    intro hl s hs
    rw [List.append_nil] at hl
    exact ensures_ok (hl ▸ hs)
  | cons b rest ih =>
    intro hl s hs
    rw [List.foldlM_cons]
    refine Ensures.bind (round before b rest hl s hs) fun t ht => ?_
    exact ih (before ++ [b]) (by rw [hl, List.append_assoc]; rfl) t ht

theorem mapM_eq_ok {f : α → Except ε β} {g : α → β} {l : List α} (h : ∀ a ∈ l, f a = .ok (g a)) :
    l.mapM f = .ok (l.map g) := by
  induction l with
  | nil => rfl
  | cons a l ih =>
    rw [List.mapM_cons, h a (List.mem_cons_self ..), ih fun b hb => h b (List.mem_cons_of_mem a hb)]
    rfl

/-- If `mapM` returns, the function returns for every item. -/
theorem mem_of_mapM {f : α → Except ε β} {l : List α} {bs : List β} (h : l.mapM f = .ok bs) :
    ∀ a ∈ l, ∃ b, f a = .ok b := by
  induction l generalizing bs with
  | nil => exact fun a ha => absurd ha List.not_mem_nil
  | cons a l ih =>
    rw [List.mapM_cons] at h
    obtain ⟨b, hb, h⟩ := bind_eq_ok h
    obtain ⟨bs', hbs, -⟩ := bind_eq_ok h
    exact List.forall_mem_cons.2 ⟨⟨b, hb⟩, ih hbs⟩

/-- What `mapM` returns is what the function returns for the items. -/
theorem mem_mapM {f : α → Except ε β} {l : List α} {bs : List β} (h : l.mapM f = .ok bs) {b : β}
    (hb : b ∈ bs) : ∃ a ∈ l, f a = .ok b := by
  induction l generalizing bs with
  | nil =>
    cases h
    cases hb
  | cons a l ih =>
    rw [List.mapM_cons] at h
    obtain ⟨c, hc, h⟩ := bind_eq_ok h
    obtain ⟨bs', hbs, he⟩ := bind_eq_ok h
    cases he
    rcases List.mem_cons.1 hb with rfl | hb
    · exact ⟨a, List.mem_cons_self .., hc⟩
    · obtain ⟨a', ha', hf⟩ := ih hbs hb
      exact ⟨a', List.mem_cons_of_mem a ha', hf⟩

/-- The same for a fold that always returns. -/
theorem foldl_invariant {f : σ → β → σ} {I : σ → Prop} {l : List β}
    (round : ∀ s, ∀ b ∈ l, I s → I (f s b)) {s : σ} (h : I s) : I (l.foldl f s) := by
  induction l generalizing s with
  | nil => exact h
  | cons b l ih =>
    exact ih (fun s c hc => round s c (List.mem_cons_of_mem b hc))
      (round s b (List.mem_cons_self ..) h)

/-- The computation does not stop for a reason in `E`. -/
def Avoids (x : Except ε α) (E : ε → Prop) : Prop := ∀ e, x = .error e → ¬ E e

theorem avoids_ok {a : α} {E : ε → Prop} : Avoids (.ok a : Except ε α) E := by
  intro e he
  cases he

theorem avoids_error {e : ε} {E : ε → Prop} (h : ¬ E e) : Avoids (.error e : Except ε α) E := by
  intro e' he
  cases he
  exact h

theorem Avoids.bind {x : Except ε α} {f : α → Except ε β} {E : ε → Prop}
    (hx : Avoids x E) (hf : ∀ a, x = .ok a → Avoids (f a) E) : Avoids (x >>= f) E := by
  intro e he
  rcases bind_eq_error he with h | ⟨a, ha, h⟩
  · exact hx e h
  · exact hf a ha e h

theorem Avoids.map {x : Except ε α} {E : ε → Prop} (h : Avoids x E) (f : α → β) :
    Avoids (f <$> x) E := by
  intro e he
  cases x with
  | error e' =>
    cases he
    exact h e rfl
  | ok a => cases he

theorem avoids_ite {c : Prop} [Decidable c] {x y : Except ε α} {E : ε → Prop}
    (hx : c → Avoids x E) (hy : ¬ c → Avoids y E) : Avoids (if c then x else y) E := by
  split_ifs with h
  · exact hx h
  · exact hy h

theorem avoids_foldlM {f : σ → β → Except ε σ} {E : ε → Prop} {l : List β}
    (h : ∀ s, ∀ b ∈ l, Avoids (f s b) E) (s : σ) : Avoids (l.foldlM f s) E := by
  induction l generalizing s with
  | nil => exact avoids_ok
  | cons b l ih =>
    rw [List.foldlM_cons]
    refine Avoids.bind (h s b (List.mem_cons_self ..)) fun t _ => ?_
    exact ih (fun s c hc => h s c (List.mem_cons_of_mem b hc)) t

/-- What the body of a loop asks for: the next index, the same index again, or the end. -/
inductive Flow (σ : Type) where
  | next (s : σ)
  | again (s : σ)
  | stop (s : σ)

/-- The state a loop body leaves. -/
def Flow.state : Flow σ → σ
  | .next s | .again s | .stop s => s

/-- `for (x = i; ...; x++)` for at most `n` rounds. -/
def forLoop (body : ℕ → σ → Except ε (Flow σ)) : ℕ → ℕ → σ → Except ε σ
  | 0, _, s => .ok s
  | n + 1, x, s => do
    match ← body x s with
    | .next s => forLoop body n (x + 1) s
    | .again s => forLoop body n x s
    | .stop s => .ok s

theorem forLoop_succ (body : ℕ → σ → Except ε (Flow σ)) (n x : ℕ) (s : σ) :
    forLoop body (n + 1) x s = (body x s >>= fun f => match f with
      | .next s => forLoop body n (x + 1) s
      | .again s => forLoop body n x s
      | .stop s => .ok s) := rfl

/-- The invariant `I n x s` holds with `n` rounds left at index `x`; a `stop` establishes the
result at once. -/
theorem forLoop_ensures {body : ℕ → σ → Except ε (Flow σ)} (I : ℕ → ℕ → σ → Prop) (Q : σ → Prop)
    (done : ∀ x s, I 0 x s → Q s)
    (round : ∀ n x s, I (n + 1) x s → Ensures (body x s) fun f => match f with
      | .next t => I n (x + 1) t
      | .again t => I n x t
      | .stop t => Q t) :
    ∀ n x s, I n x s → Ensures (forLoop body n x s) Q := by
  intro n
  induction n with
  | zero => exact fun x s h => ensures_ok (done x s h)
  | succ n ih =>
    intro x s h
    rw [forLoop_succ]
    refine Ensures.bind (round n x s h) fun f hf => ?_
    cases f with
    | next t => exact ih _ _ hf
    | again t => exact ih _ _ hf
    | stop t => exact ensures_ok hf

/-- A property that every round keeps holds after the loop. -/
theorem forLoop_invariant {body : ℕ → σ → Except ε (Flow σ)} (I : σ → Prop)
    (round : ∀ x s, I s → Ensures (body x s) fun f => I f.state) (n x : ℕ) (s : σ) (h : I s) :
    Ensures (forLoop body n x s) I := by
  refine forLoop_ensures (fun _ _ => I) I (fun _ _ => id) (fun n x s hs => ?_) n x s h
  refine (round x s hs).mono fun f hf => ?_
  cases f <;> exact hf

theorem avoids_forLoop {body : ℕ → σ → Except ε (Flow σ)} {E : ε → Prop}
    (h : ∀ x s, Avoids (body x s) E) (n x : ℕ) (s : σ) : Avoids (forLoop body n x s) E := by
  induction n generalizing x s with
  | zero => exact avoids_ok
  | succ n ih =>
    rw [forLoop_succ]
    refine Avoids.bind (h x s) fun f _ => ?_
    cases f with
    | next t | again t => exact ih _ t
    | stop t => exact avoids_ok

end Outcome
