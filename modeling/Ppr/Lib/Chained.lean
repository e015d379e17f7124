import Mathlib

/-!
# Hash tables with chains

A table of `n` chains in which every key is in the chain of its hash value, once.  A cursor goes
through the chains one after the other; `next` gives one key, and what it still has to give is `rest`.
-/

namespace Chained

variable {κ β : Type} {n : ℕ}

/-- A table with the hash function `hash`. -/
structure Table (κ β : Type) {n : ℕ} (hash : κ → Fin n) where
  chains : Fin n → List (κ × β)
  placed : ∀ i, ∀ e ∈ chains i, hash e.1 = i
  nodup : ∀ i, ((chains i).map Prod.fst).Nodup

/-- The value of a key in a chain. -/
def find [DecidableEq κ] (k : κ) (l : List (κ × β)) : Option β := (l.find? (·.1 = k)).map Prod.snd

/-- A chain with a new value for a key, which is put at the end if it was not there. -/
def put [DecidableEq κ] (k : κ) (v : β) : List (κ × β) → List (κ × β)
  | [] => [(k, v)]
  | e :: l => if e.1 = k then (e.1, v) :: l else e :: put k v l

section

variable [DecidableEq κ]

theorem map_fst_put (k : κ) (v : β) (l : List (κ × β)) :
    (put k v l).map Prod.fst = if k ∈ l.map Prod.fst then l.map Prod.fst else l.map Prod.fst ++ [k] := by
  induction l with
  | nil => simp [put]
  | cons e l ih =>
    rw [put]
    by_cases he : e.1 = k
    · rw [if_pos he, if_pos (by simp [he])]
      rfl
    · rw [if_neg he, List.map_cons, ih, List.map_cons]
      by_cases hk : k ∈ l.map Prod.fst
      · rw [if_pos hk, if_pos (List.mem_cons_of_mem _ hk)]
      · have hne : k ∉ e.1 :: l.map Prod.fst := fun h =>
          (List.mem_cons.1 h).elim (fun h => he h.symm) hk
        rw [if_neg hk, if_neg hne]
        rfl

theorem mem_put {k : κ} {v : β} {l : List (κ × β)} {e : κ × β} (h : e ∈ put k v l) :
    e.1 = k ∨ e ∈ l := by
  induction l with
  | nil => exact .inl (by rw [List.mem_singleton.1 h])
  | cons a l ih =>
    rw [put] at h
    split_ifs at h with ha
    · rcases List.mem_cons.1 h with rfl | h
      · exact .inl ha
      · exact .inr (List.mem_cons_of_mem a h)
    · rcases List.mem_cons.1 h with rfl | h
      · exact .inr List.mem_cons_self
      · exact (ih h).imp_right (List.mem_cons_of_mem a)

theorem find_cons (k : κ) (e : κ × β) (l : List (κ × β)) :
    find k (e :: l) = if e.1 = k then some e.2 else find k l := by
  rw [find, List.find?_cons]
  by_cases he : e.1 = k
  · rw [if_pos he, decide_eq_true he]
    rfl
  · rw [if_neg he, decide_eq_false he]
    rfl

theorem find_put (k k' : κ) (v : β) (l : List (κ × β)) :
    find k' (put k v l) = if k' = k then some v else find k' l := by
  induction l with
  | nil =>
    rw [put, find_cons]
    exact if_congr eq_comm rfl rfl
  | cons e l ih =>
    rw [put]
    by_cases he : e.1 = k
    · rw [if_pos he, find_cons, find_cons, he]
      by_cases hk : k' = k
      · rw [if_pos hk.symm, if_pos hk]
      · rw [if_neg (Ne.symm hk), if_neg hk, if_neg (Ne.symm hk)]
    · rw [if_neg he, find_cons, find_cons, ih]
      by_cases hk : k' = k
      · rw [if_neg (hk ▸ he), if_pos hk]
        rw [if_pos hk]
      · rw [if_neg hk, if_neg hk]

/-- A key that is there gets another value. -/
theorem put_append {k : κ} {v old : β} {l r : List (κ × β)} (hl : ∀ e ∈ l, e.1 ≠ k) :
    put k v (l ++ (k, old) :: r) = l ++ (k, v) :: r := by
  induction l with
  | nil => exact if_pos rfl
  | cons e l ih =>
    rw [List.cons_append, put, if_neg (hl e List.mem_cons_self),
      ih fun e he => hl e (List.mem_cons_of_mem _ he)]
    rfl

/-- A key that is not there comes to the end. -/
theorem put_of_forall_ne {k : κ} {v : β} {l : List (κ × β)} (hl : ∀ e ∈ l, e.1 ≠ k) :
    put k v l = l ++ [(k, v)] := by
  induction l with
  | nil => rfl
  | cons e l ih =>
    rw [put, if_neg (hl e List.mem_cons_self), ih fun e he => hl e (List.mem_cons_of_mem _ he)]
    rfl

/-- A chain without a key. -/
def remove (k : κ) (l : List (κ × β)) : List (κ × β) := l.filter (·.1 ≠ k)

theorem find_remove (k k' : κ) (l : List (κ × β)) :
    find k' (remove k l) = if k' = k then none else find k' l := by
  induction l with
  | nil => exact (ite_self _).symm
  | cons e l ih =>
    rw [remove, List.filter_cons, find_cons]
    by_cases he : e.1 = k
    · rw [if_neg (by simp [he])]
      by_cases hk : k' = k
      · rw [if_pos hk, ← remove, ih, if_pos hk]
      · rw [if_neg hk, ← remove, ih, if_neg hk, if_neg (by rw [he]; exact Ne.symm hk)]
    · rw [if_pos (by simp [he]), find_cons, ← remove, ih]
      by_cases hk : k' = k
      · rw [if_neg (hk ▸ he), if_pos hk, if_pos hk]
      · rw [if_neg hk, if_neg hk]

theorem remove_of_forall_ne {k : κ} {l : List (κ × β)} (hl : ∀ e ∈ l, e.1 ≠ k) : remove k l = l :=
  List.filter_eq_self.2 fun e he => decide_eq_true (hl e he)

theorem remove_append {k : κ} {v : β} {l r : List (κ × β)} (hl : ∀ e ∈ l, e.1 ≠ k) (hr : ∀ e ∈ r, e.1 ≠ k) :
    remove k (l ++ (k, v) :: r) = l ++ r := by
  rw [remove, List.filter_append, List.filter_cons, if_neg (by simp), ← remove, ← remove,
    remove_of_forall_ne hl, remove_of_forall_ne hr]

theorem find_isSome_iff (k : κ) (l : List (κ × β)) : (find k l).isSome ↔ k ∈ l.map Prod.fst := by
  rw [find, Option.isSome_map, List.find?_isSome, List.mem_map]
  simp

/-- In a chain with every key once. -/
theorem mem_iff_find {l : List (κ × β)} (h : (l.map Prod.fst).Nodup) (k : κ) (v : β) :
    (k, v) ∈ l ↔ find k l = some v := by
  induction l with
  | nil => exact ⟨fun h => (nomatch h), fun h => (nomatch h)⟩
  | cons e l ih =>
    rw [List.map_cons, List.nodup_cons] at h
    rw [List.mem_cons, find_cons, ih h.2]
    by_cases he : e.1 = k
    · rw [if_pos he]
      have hnot : find k l ≠ some v := by
        intro hv
        have hmem := (find_isSome_iff k l).1 (by rw [hv]; rfl)
        exact h.1 (he ▸ hmem)
      constructor
      · rintro (rfl | hv)
        · rfl
        · exact absurd hv hnot
      · intro hv
        left
        rw [← he, ← Option.some.inj hv]
    · rw [if_neg he]
      constructor
      · rintro (rfl | hv)
        · exact absurd rfl he
        · exact hv
      · exact .inr

end

namespace Table

variable {hash : κ → Fin n}

theorem eq_of_chains {t t' : Table κ β hash} (h : t.chains = t'.chains) : t = t' := by
  cases t
  cases t'
  cases h
  rfl

/-- A table without keys. -/
def empty : Table κ β hash where
  chains _ := []
  placed _ _ h := nomatch h
  nodup _ := List.nodup_nil

section

variable [DecidableEq κ]

def get (t : Table κ β hash) (k : κ) : Option β := find k (t.chains (hash k))

def set (t : Table κ β hash) (k : κ) (v : β) : Table κ β hash where
  chains := Function.update t.chains (hash k) (put k v (t.chains (hash k)))
  placed i e he := by
    by_cases hi : i = hash k
    · subst hi
      rw [Function.update_self] at he
      rcases mem_put he with h | h
      · rw [h]
      · exact t.placed _ e h
    · rw [Function.update_of_ne hi] at he
      exact t.placed i e he
  nodup i := by
    by_cases hi : i = hash k
    · subst hi
      rw [Function.update_self, map_fst_put]
      split_ifs with hk
      · exact t.nodup _
      · exact List.nodup_append.2 ⟨t.nodup _, List.nodup_singleton _, fun a ha b hb hab =>
          hk ((hab.trans (List.mem_singleton.1 hb)) ▸ ha)⟩
    · rw [Function.update_of_ne hi]
      exact t.nodup i

/-- The table without a key. -/
def erase (t : Table κ β hash) (k : κ) : Table κ β hash where
  chains := Function.update t.chains (hash k) (remove k (t.chains (hash k)))
  placed i e he := by
    by_cases hi : i = hash k
    · subst hi
      rw [Function.update_self] at he
      exact t.placed _ e (List.mem_of_mem_filter he)
    · rw [Function.update_of_ne hi] at he
      exact t.placed i e he
  nodup i := by
    by_cases hi : i = hash k
    · subst hi
      rw [Function.update_self]
      exact (t.nodup _).sublist (List.filter_sublist.map _)
    · rw [Function.update_of_ne hi]
      exact t.nodup i

theorem get_set (t : Table κ β hash) (k k' : κ) (v : β) :
    (t.set k v).get k' = if k' = k then some v else t.get k' := by
  show find k' (Function.update t.chains (hash k) (put k v (t.chains (hash k))) (hash k')) = _
  by_cases hi : hash k' = hash k
  · rw [hi, Function.update_self, find_put, ← hi]
    rfl
  · rw [Function.update_of_ne hi, if_neg (fun h => hi (congrArg hash h))]
    rfl

theorem get_erase (t : Table κ β hash) (k k' : κ) :
    (t.erase k).get k' = if k' = k then none else t.get k' := by
  show find k' (Function.update t.chains (hash k) (remove k (t.chains (hash k))) (hash k')) = _
  by_cases hi : hash k' = hash k
  · rw [hi, Function.update_self, find_remove, ← hi]
    rfl
  · rw [Function.update_of_ne hi, if_neg (fun h => hi (congrArg hash h))]
    rfl

end

/-- The keys with their values, in the order of the chains. -/
def entries (t : Table κ β hash) : List (κ × β) := (List.ofFn t.chains).flatten

theorem mem_entries [DecidableEq κ] {t : Table κ β hash} {k : κ} {v : β} :
    (k, v) ∈ t.entries ↔ t.get k = some v := by
  rw [get, ← mem_iff_find (t.nodup (hash k)), entries, List.mem_flatten]
  constructor
  · rintro ⟨l, hl, he⟩
    obtain ⟨i, rfl⟩ := (List.mem_ofFn' t.chains l).1 hl
    rw [t.placed i _ he]
    exact he
  · intro he
    exact ⟨_, (List.mem_ofFn' t.chains _).2 ⟨hash k, rfl⟩, he⟩

/-- The number of entries when one chain is another one. -/
theorem length_entries_update {t t' : Table κ β hash} {i : Fin n} {l : List (κ × β)}
    (h : t'.chains = Function.update t.chains i l) :
    t'.entries.length + (t.chains i).length = t.entries.length + l.length := by
  have hsum : ∀ u : Table κ β hash, u.entries.length = ∑ j, (u.chains j).length := by
    intro u
    rw [entries, List.length_flatten, List.map_ofFn, List.sum_ofFn]
    rfl
  rw [hsum, hsum, h, ← Finset.add_sum_erase _ _ (Finset.mem_univ i), ← Finset.add_sum_erase _ _ (Finset.mem_univ i),
    Function.update_self]
  have hrest : ∑ j ∈ Finset.univ.erase i, (Function.update t.chains i l j).length =
      ∑ j ∈ Finset.univ.erase i, (t.chains j).length := by
    apply Finset.sum_congr rfl
    intro j hj
    rw [Function.update_of_ne (Finset.ne_of_mem_erase hj)]
  rw [hrest]
  omega

/-- The keys in the order of the chains. -/
def keys (t : Table κ β hash) : List κ :=
  (List.ofFn t.chains).flatten.map Prod.fst

theorem mem_keys [DecidableEq κ] {t : Table κ β hash} {k : κ} : k ∈ t.keys ↔ (t.get k).isSome := by
  rw [get, find_isSome_iff, keys, List.map_flatten, List.mem_flatten]
  constructor
  · rintro ⟨l, hl, hk⟩
    obtain ⟨c, hc, rfl⟩ := List.mem_map.1 hl
    obtain ⟨i, rfl⟩ := (List.mem_ofFn' t.chains c).1 hc
    obtain ⟨e, he, rfl⟩ := List.mem_map.1 hk
    rw [t.placed i e he]
    exact hk
  · intro hk
    exact ⟨_, List.mem_map_of_mem ((List.mem_ofFn' t.chains _).2 ⟨hash k, rfl⟩), hk⟩

theorem nodup_keys (t : Table κ β hash) : t.keys.Nodup := by
  rw [keys, List.map_flatten, List.nodup_flatten]
  refine ⟨fun l hl => ?_, ?_⟩
  · obtain ⟨c, hc, rfl⟩ := List.mem_map.1 hl
    obtain ⟨i, rfl⟩ := (List.mem_ofFn' t.chains c).1 hc
    exact t.nodup i
  · -- A key in two chains would have two hash values.
    rw [List.pairwise_map, List.pairwise_ofFn]
    intro i j hij k hi hj
    obtain ⟨e, he, rfl⟩ := List.mem_map.1 hi
    obtain ⟨e', he', hk⟩ := List.mem_map.1 hj
    have heq : i = j := by rw [← t.placed i e he, ← t.placed j e' he', hk]
    exact absurd heq (ne_of_lt hij)

/-! ## Going through the keys -/

/-- What is left of the chain that has been reached, and the chains behind it. -/
structure Cursor (κ β : Type) where
  item : List (κ × β)
  later : List (List (κ × β))

/-- Before the first key. -/
def rewind (t : Table κ β hash) : Cursor κ β := ⟨[], List.ofFn t.chains⟩

/-- The next key. -/
def Cursor.next (c : Cursor κ β) : Option (κ × Cursor κ β) :=
  match c.item with
  | e :: item => some (e.1, ⟨item, c.later⟩)
  | [] =>
    match c.later.dropWhile (·.isEmpty) with
    | (e :: item) :: later => some (e.1, ⟨item, later⟩)
    | _ => none

/-- The keys that are still to come. -/
def Cursor.rest (c : Cursor κ β) : List κ := (c.item ++ c.later.flatten).map Prod.fst

theorem flatten_dropWhile_isEmpty (l : List (List (κ × β))) :
    (l.dropWhile (·.isEmpty)).flatten = l.flatten := by
  induction l with
  | nil => rfl
  | cons c l ih =>
    cases c with
    | nil => exact ih
    | cons e c => rfl

theorem Cursor.rest_eq (c : Cursor κ β) :
    c.rest = match c.next with
      | none => []
      | some (k, c') => k :: c'.rest := by
  obtain ⟨item, later⟩ := c
  cases item with
  | cons e item => rfl
  | nil =>
    rw [Cursor.rest, List.nil_append, ← flatten_dropWhile_isEmpty, Cursor.next]
    dsimp only
    cases h : later.dropWhile (·.isEmpty) with
    | nil => rfl
    | cons d later' =>
      cases d with
      | nil =>
        have := List.head?_dropWhile_not (fun l : List (κ × β) => l.isEmpty) later
        rw [h] at this
        simp at this
      | cons e item => rfl

theorem rest_rewind (t : Table κ β hash) : t.rewind.rest = t.keys := rfl

end Table

end Chained
