import Mathlib.Order.Nat
import Mathlib.Order.Lattice.Nat
import Mathlib.Data.Set.Insert
import Mathlib.Tactic.Common

/-!
# Positions raised by name and served one at a time

Positions bear names, some of them the same name.  Each round raises every position that bears one of
a set of names and then serves the first position that is raised, and only that one.  The rounds are
independent of each other exactly when no round raises two names and no position left raised by an
earlier round comes before what a later round raises.
-/

namespace Ppr

namespace Pending

variable {α : Type*} (name : ℕ → Option α)

/-- The positions that bear one of the names. -/
def borne (N : Set α) : Set ℕ := {i | ∃ a ∈ N, name i = some a}

/-- What is raised after the names of a round are added. -/
def raise (R : Set ℕ) (N : Set α) : Set ℕ := R ∪ borne name N

/-- The name that is served. -/
def served (F : Set ℕ) : Set α := {a | F.Nonempty ∧ name (sInf F) = some a}

/-- What is still raised after one position is served. -/
def rest (F : Set ℕ) : Set ℕ := F \ {sInf F}

/-- The names among `N` that some position bears. -/
def known (N : Set α) : Set α := {a ∈ N | ∃ i, name i = some a}

/-- The positions that bear one of the names again. -/
def repeats (N : Set α) : Set ℕ := {i ∈ borne name N | ∃ p < i, name p = name i}

/-- A position before `i` bears one of the names. -/
def Ahead (N : Set α) (i : ℕ) : Prop := ∃ p < i, p ∈ borne name N

/-- No two different names among `N` are borne. -/
def One (N : Set α) : Prop := (known name N).Subsingleton

/-- Every round serves the names it raises, starting with `R` raised. -/
def Exact (R : Set ℕ) : List (Set α) → Prop
  | [] => True
  | N :: Ns => served name (raise name R N) = known name N ∧ Exact (rest (raise name R N)) Ns

variable {name} {R : Set ℕ} {N : Set α}

theorem sInf_mem_raise (h : (raise name R N).Nonempty) :
    sInf (raise name R N) ∈ raise name R N := Nat.sInf_mem h

theorem known_of_borne {i : ℕ} (hi : i ∈ borne name N) : ∃ a ∈ known name N, name i = some a := by
  obtain ⟨a, ha, hn⟩ := hi
  exact ⟨a, ⟨ha, i, hn⟩, hn⟩

theorem borne_of_known {a : α} (ha : a ∈ known name N) : ∃ i ∈ borne name N, name i = some a := by
  obtain ⟨hN, i, hn⟩ := ha
  exact ⟨i, ⟨a, hN, hn⟩, hn⟩

/-- The first position raised is one that the round raises itself. -/
theorem first_borne (hR : ∀ i ∈ R, Ahead name N i) (h : (raise name R N).Nonempty) :
    sInf (raise name R N) ∈ borne name N := by
  rcases sInf_mem_raise h with hR' | hb
  · obtain ⟨p, hlt, hp⟩ := hR _ hR'
    exact absurd (Or.inr hp) (Nat.notMem_of_lt_sInf hlt)
  · exact hb

theorem served_eq (hone : One name N) (hR : ∀ i ∈ R, Ahead name N i) :
    served name (raise name R N) = known name N := by
  apply Set.Subset.antisymm
  · rintro a ⟨hne, ha⟩
    obtain ⟨b, hb, hn⟩ := known_of_borne (first_borne hR hne)
    rw [hn] at ha
    exact Option.some.inj ha ▸ hb
  · intro a ha
    obtain ⟨i, hi, -⟩ := borne_of_known ha
    have hne : (raise name R N).Nonempty := ⟨i, Or.inr hi⟩
    obtain ⟨b, hb, hn⟩ := known_of_borne (first_borne hR hne)
    exact ⟨hne, by rw [hn, hone hb ha]⟩

theorem one_of_served (h : served name (raise name R N) = known name N) : One name N := by
  intro a ha b hb
  rw [← h] at ha hb
  exact Option.some.inj (ha.2.symm.trans hb.2)

/-- Where a round serves its own names, the positions left raised by the rounds before, which repeat
an earlier name, come after one that the round raises. -/
theorem ahead_of_served (h : served name (raise name R N) = known name N)
    (hrep : ∀ i ∈ R, ∃ p < i, name p = name i ∧ (name i).isSome) {i : ℕ} (hi : i ∈ R) :
    Ahead name N i := by
  have hne : (raise name R N).Nonempty := ⟨i, Or.inl hi⟩
  have hle : sInf (raise name R N) ≤ i := Nat.sInf_le (Or.inl hi)
  have hborne {a : α} (hn : name (sInf (raise name R N)) = some a) : a ∈ N := by
    have ha : a ∈ served name (raise name R N) := ⟨hne, hn⟩
    rw [h] at ha
    exact ha.1
  rcases hle.lt_or_eq with hlt | heq
  · rcases sInf_mem_raise hne with hR' | hb
    · obtain ⟨-, -, -, hsome⟩ := hrep _ hR'
      obtain ⟨a, ha⟩ := Option.isSome_iff_exists.1 hsome
      exact ⟨_, hlt, a, hborne ha, ha⟩
    · exact ⟨_, hlt, hb⟩
  · -- A position that repeats a name is not the first one that bears it.
    obtain ⟨p, hlt, hp, hsome⟩ := hrep i hi
    obtain ⟨a, ha⟩ := Option.isSome_iff_exists.1 hsome
    have haN : a ∈ N := hborne (by rw [heq, ha])
    exact ⟨p, hlt, a, haN, hp.trans ha⟩

/-- What a round leaves raised: what it found, and the positions that bear its name again. -/
theorem rest_eq (hone : One name N) (hR : ∀ i ∈ R, Ahead name N i) :
    rest (raise name R N) = R ∪ repeats name N := by
  ext i
  constructor
  · rintro ⟨hi, hne⟩
    rcases hi with hi | hi
    · exact Or.inl hi
    · have hmem : i ∈ raise name R N := Or.inr hi
      have hlt : sInf (raise name R N) < i :=
        lt_of_le_of_ne (Nat.sInf_le hmem) fun h => hne h.symm
      obtain ⟨a, ha, hn⟩ := known_of_borne (first_borne hR ⟨i, hmem⟩)
      obtain ⟨b, hb, hni⟩ := known_of_borne hi
      exact Or.inr ⟨hi, _, hlt, by rw [hn, hni, hone ha hb]⟩
  · intro hi
    have hahead : Ahead name N i := by
      rcases hi with hi | ⟨⟨a, ha, hn⟩, p, hlt, hp⟩
      · exact hR i hi
      · exact ⟨p, hlt, a, ha, hp.trans hn⟩
    obtain ⟨p, hlt, hp⟩ := hahead
    have hle : sInf (raise name R N) ≤ p := Nat.sInf_le (Or.inr hp)
    refine ⟨hi.imp id fun h => h.1, ?_⟩
    intro h
    rw [Set.mem_singleton_iff] at h
    omega

/-- The rounds serve what they raise exactly when every round raises at most one name, ahead of every
position that an earlier round raised again. -/
theorem exact_iff (Ns : List (Set α)) {R : Set ℕ}
    (hrep : ∀ i ∈ R, ∃ p < i, name p = name i ∧ (name i).isSome) :
    Exact name R Ns ↔ (∀ N ∈ Ns, One name N ∧ ∀ i ∈ R, Ahead name N i) ∧
      Ns.Pairwise fun M N => ∀ i ∈ repeats name M, Ahead name N i := by
  induction Ns generalizing R with
  | nil => simp [Exact]
  | cons N Ns ih =>
    have hrep' : ∀ i ∈ R ∪ repeats name N, ∃ p < i, name p = name i ∧ (name i).isSome := by
      rintro i (hi | ⟨⟨a, -, hn⟩, p, hlt, hp⟩)
      · exact hrep i hi
      · exact ⟨p, hlt, hp, by rw [hn]; rfl⟩
    have hstep : served name (raise name R N) = known name N ↔
        One name N ∧ ∀ i ∈ R, Ahead name N i :=
      ⟨fun h => ⟨one_of_served h, fun i hi => ahead_of_served h hrep hi⟩,
        fun h => served_eq h.1 h.2⟩
    rw [Exact, List.forall_mem_cons, List.pairwise_cons]
    constructor
    · rintro ⟨hserved, hrest⟩
      obtain ⟨hone, hR⟩ := hstep.1 hserved
      rw [rest_eq hone hR, ih hrep'] at hrest
      exact ⟨⟨⟨hone, hR⟩, fun M hM => ⟨(hrest.1 M hM).1, fun i hi => (hrest.1 M hM).2 i (Or.inl hi)⟩⟩,
        fun M hM i hi => (hrest.1 M hM).2 i (Or.inr hi), hrest.2⟩
    · rintro ⟨⟨hN, hNs⟩, hpair, hpairs⟩
      refine ⟨hstep.2 hN, ?_⟩
      rw [rest_eq hN.1 hN.2, ih hrep']
      exact ⟨fun M hM => ⟨(hNs M hM).1, fun i hi => hi.elim ((hNs M hM).2 i) (hpair M hM i)⟩, hpairs⟩

theorem exact_nil_iff (Ns : List (Set α)) :
    Exact name ∅ Ns ↔ (∀ N ∈ Ns, One name N) ∧
      Ns.Pairwise fun M N => ∀ i ∈ repeats name M, Ahead name N i := by
  rw [exact_iff Ns (fun i hi => absurd hi (Set.notMem_empty i))]
  simp only [Set.mem_empty_iff_false, false_implies, implies_true, and_true]

end Pending

end Ppr
