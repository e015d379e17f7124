import Mathlib

/-!
# Bytes, and programs that read them

C bytes and integers, and one relation for programs that read a stream through some state: `x`
*leads* over the items `w` to `y` if, wherever `w` comes next, running `x` is running `y` in a state
where what follows `w` comes next.  `Presents s l` says that the state `s` will deliver the items
`l`, however they are buffered.
-/

/-- A byte. -/
abbrev Byte := BitVec 8

/-- A C `int`. -/
abbrev CInt := BitVec 32

instance lawfulBEq_byte : LawfulBEq Byte := inferInstance

instance lawfulBEq_bytes : LawfulBEq (List Byte) := inferInstance

instance lawfulBEq_cInt : LawfulBEq CInt := inferInstance

/-- A `char` as an `int`; whether it is signed depends on the machine. -/
def charToInt (signed : Bool) (c : Byte) : CInt := if signed then c.signExtend 32 else c.setWidth 32

/-- The string in a block of memory: it ends before the first NUL. -/
def cstr (block : List Byte) : List Byte := block.takeWhile fun c => c ≠ 0

theorem cstr_append_zero (l : List Byte) : cstr (l ++ [0]) = cstr l := by
  induction l with
  | nil => rfl
  | cons c l ih =>
    simp only [cstr, List.cons_append, List.takeWhile_cons] at ih ⊢
    split_ifs
    · rw [ih]
    · rfl

theorem cstr_eq_self {l : List Byte} : cstr l = l ↔ 0 ∉ l := by
  rw [cstr, List.takeWhile_eq_self_iff]
  constructor
  · intro h h0
    simpa using h 0 h0
  · intro h c hc
    have : c ≠ 0 := fun e => h (e ▸ hc)
    simpa using this

namespace Reading

variable {σ ε β α γ : Type} (Presents : σ → List β → Prop)

/-- Over the items `w`, running `x` comes down to running `y`. -/
def Leads (x : StateT σ (Except ε) α) (w : List β) (y : StateT σ (Except ε) α) : Prop :=
  ∀ s l, Presents s (w ++ l) → ∃ t, x s = y t ∧ Presents t l

/-- Where `w` comes next, `x` ends with an error. -/
def Throws (x : StateT σ (Except ε) α) (w : List β) : Prop :=
  ∀ s l, Presents s (w ++ l) → ∃ e, x s = .error e

variable {Presents}

theorem Leads.refl (x : StateT σ (Except ε) α) : Leads Presents x [] x :=
  fun s _ h => ⟨s, rfl, h⟩

theorem Leads.trans {x y z : StateT σ (Except ε) α} {v w : List β} (h : Leads Presents x v y)
    (h' : Leads Presents y w z) : Leads Presents x (v ++ w) z := by
  intro s l hs
  rw [List.append_assoc] at hs
  obtain ⟨t, hx, ht⟩ := h s _ hs
  obtain ⟨u, hy, hu⟩ := h' t _ ht
  exact ⟨u, hx.trans hy, hu⟩

/-- A part that returns hands its result on. -/
theorem Leads.bind {x : StateT σ (Except ε) α} {w : List β} {a : α}
    (h : Leads Presents x w (pure a)) (f : α → StateT σ (Except ε) γ) :
    Leads Presents (x >>= f) w (f a) := by
  intro s l hs
  obtain ⟨t, hx, ht⟩ := h s l hs
  refine ⟨t, ?_, ht⟩
  show (x s >>= fun r => f r.1 r.2) = f a t
  rw [hx]
  rfl

theorem Leads.map {x : StateT σ (Except ε) α} {w : List β} {a : α}
    (h : Leads Presents x w (pure a)) (f : α → γ) : Leads Presents (f <$> x) w (pure (f a)) :=
  h.bind fun a => pure (f a)

theorem Leads.throws {x y : StateT σ (Except ε) α} {v w : List β} (h : Leads Presents x v y)
    (h' : Throws Presents y w) : Throws Presents x (v ++ w) := by
  intro s l hs
  rw [List.append_assoc] at hs
  obtain ⟨t, hx, ht⟩ := h s _ hs
  rw [hx]
  exact h' t l ht

theorem Throws.append {x : StateT σ (Except ε) α} {v : List β} (h : Throws Presents x v)
    (w : List β) : Throws Presents x (v ++ w) :=
  fun s l hs => h s (w ++ l) (List.append_assoc v w l ▸ hs)

theorem Throws.bind {x : StateT σ (Except ε) α} {w : List β} (h : Throws Presents x w)
    {f : α → StateT σ (Except ε) γ} : Throws Presents (x >>= f) w := by
  intro s l hs
  obtain ⟨e, he⟩ := h s l hs
  refine ⟨e, ?_⟩
  show (x s >>= fun r => f r.1 r.2) = _
  rw [he]
  rfl

/-- A program that has taken everything and returned. -/
theorem Leads.run {x : StateT σ (Except ε) α} {w : List β} {a : α}
    (h : Leads Presents x w (pure a)) {s : σ} {l : List β} (hs : Presents s (w ++ l)) :
    ∃ t, x s = .ok (a, t) ∧ Presents t l := h s l hs

end Reading
