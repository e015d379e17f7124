import Ppr.Libgu.Pcs

/-!
# Perl Compatible Strings as values

Each variable has a text of its own.  The heap represents these texts as long as every object is pointed
to by as many variables as it counts, so that an object that is not shared can be changed.
-/

namespace Ppr.Pcs

/-! ## Objects -/

/-- The object has the text, with a terminator as soon as there is storage. -/
structure Object.Keeps (o : Object) (text : List Byte) : Prop where
  length : o.length = text.length
  unstored : o.storage = none → text = []
  stored : ∀ bytes, o.storage = some bytes → ∃ rest, bytes = text.map some ++ some 0 :: rest

theorem keeps_new (refcount lurkers : ℕ) :
    ({ refcount := refcount, lurkers := lurkers } : Object).Keeps [] :=
  ⟨rfl, fun _ => rfl, nofun⟩

/-- Only storage and length matter. -/
theorem Object.Keeps.recount {o : Object} {text : List Byte} (h : o.Keeps text) (r l : ℕ) :
    ({ o with refcount := r, lurkers := l } : Object).Keeps text :=
  ⟨h.length, h.unstored, h.stored⟩

@[simp] theorem Object.grow_refcount (o : Object) (n : ℕ) : (o.grow n).refcount = o.refcount := by
  unfold Object.grow
  dsimp only
  split_ifs <;> rfl

@[simp] theorem Object.grow_lurkers (o : Object) (n : ℕ) : (o.grow n).lurkers = o.lurkers := by
  unfold Object.grow
  dsimp only
  split_ifs <;> rfl

@[simp] theorem Object.grow_length (o : Object) (n : ℕ) : (o.grow n).length = o.length := by
  unfold Object.grow
  dsimp only
  split_ifs <;> rfl

/-- There is room for `n` characters and the terminator. -/
theorem Object.grow_room (o : Object) (n : ℕ) :
    ∃ bytes, (o.grow n).storage = some bytes ∧ n + 1 ≤ bytes.length := by
  unfold Object.grow
  dsimp only
  by_cases h : n + 1 > (o.storage.getD []).length
  · rw [if_pos h]
    refine ⟨_, rfl, ?_⟩
    rw [List.length_set, List.length_append, List.length_replicate]
    omega
  · rw [if_neg h]
    cases hs : o.storage with
    | none =>
      rw [hs] at h
      exact absurd (Nat.succ_pos n) h
    | some bytes =>
      rw [hs] at h
      exact ⟨bytes, rfl, not_lt.mp h⟩

/-- What is stored stays where it is. -/
theorem Object.Keeps.grow_text {o : Object} {text : List Byte} (h : o.Keeps text) (n : ℕ) :
    ∃ bytes, (o.grow n).storage = some bytes ∧ n + 1 ≤ bytes.length ∧
      bytes.take text.length = text.map some := by
  obtain ⟨bytes, hbytes, hroom⟩ := o.grow_room n
  refine ⟨bytes, hbytes, hroom, ?_⟩
  cases hs : o.storage with
  | none =>
    rw [h.unstored hs]
    rfl
  | some old =>
    obtain ⟨rest, rfl⟩ := h.stored old hs
    unfold Object.grow at hbytes
    simp only [hs, Option.getD_some] at hbytes
    by_cases hn : n + 1 > (text.map some ++ some 0 :: rest).length
    · rw [if_pos hn] at hbytes
      cases hbytes
      simp only [List.length_append, List.length_map, List.length_cons] at hn
      rw [List.append_assoc, List.set_append_right _ _ (by rw [List.length_map]; omega)]
      exact List.take_left' (List.length_map _)
    · rw [if_neg hn, hs] at hbytes
      cases hbytes
      exact List.take_left' (List.length_map _)

/-- The text becomes a C string when it is asked for. -/
theorem Object.Keeps.grow_zero {o : Object} {text : List Byte} (h : o.Keeps text) :
    (o.grow 0).Keeps text := by
  refine ⟨(o.grow_length 0).trans h.length, fun hnone => ?_, fun bytes hbytes => ?_⟩
  · obtain ⟨bytes, hbytes, -⟩ := o.grow_room 0
    rw [hbytes] at hnone
    cases hnone
  · unfold Object.grow at hbytes
    cases hs : o.storage with
    | none =>
      rw [hs] at hbytes
      cases hbytes
      rw [h.unstored hs]
      exact ⟨[], rfl⟩
    | some old =>
      obtain ⟨rest, rfl⟩ := h.stored old hs
      rw [hs, Option.getD_some] at hbytes
      dsimp only at hbytes
      rw [if_neg (by rw [List.length_append, List.length_cons]; omega), hs] at hbytes
      cases hbytes
      exact ⟨rest, rfl⟩

theorem Object.Keeps.read {o : Object} {text : List Byte} (h : o.Keeps text)
    (hs : o.storage ≠ none) : o.read (o.length + 1) = .ok (text.map some ++ [some 0]) := by
  obtain ⟨bytes, hbytes⟩ := Option.ne_none_iff_exists'.mp hs
  obtain ⟨rest, rfl⟩ := h.stored bytes hbytes
  unfold Object.read
  rw [hbytes, h.length]
  dsimp only
  have htake : (text.map some ++ some 0 :: rest).take (text.length + 1) =
      text.map some ++ [some 0] := by
    rw [List.take_append, List.length_map, Nat.add_sub_cancel_left,
      List.take_of_length_le (by rw [List.length_map]; omega)]
    rfl
  rw [htake, if_pos (by rw [List.length_append, List.length_map, List.length_cons]; omega)]

/-- A text and its terminator are written behind what is left of another text. -/
theorem Object.Keeps.append {o : Object} {text : List Byte} (h : o.Keeps text) {n : ℕ}
    {x : List Byte} (hn : text.length + x.length ≤ n) :
    ∃ o', (o.grow n).write text.length (x.map some ++ [some 0]) = .ok o' ∧
      o'.refcount = o.refcount ∧ o'.lurkers = o.lurkers ∧
      (o'.setLength (text.length + x.length)).Keeps (text ++ x) := by
  obtain ⟨bytes, hbytes, hroom, htake⟩ := h.grow_text n
  unfold Object.write
  rw [hbytes]
  dsimp only
  rw [if_pos (by simp only [List.length_append, List.length_map, List.length_singleton]; omega),
    htake]
  refine ⟨_, rfl, o.grow_refcount n, o.grow_lurkers n, ?_, nofun, ?_⟩
  · exact List.length_append.symm
  · rintro _ hsome
    cases hsome
    refine ⟨bytes.drop (text.length + (x.map some ++ [some 0]).length), ?_⟩
    rw [List.map_append, List.append_assoc, List.append_assoc, List.append_assoc]
    rfl

/-- A text and its terminator are written in place of another text. -/
theorem Object.overwrite (o : Object) (x : List Byte) :
    ∃ o', ((o.setLength x.length).grow x.length).write 0 (x.map some ++ [some 0]) = .ok o' ∧
      o'.refcount = o.refcount ∧ o'.lurkers = o.lurkers ∧ o'.Keeps x := by
  obtain ⟨bytes, hbytes, hroom⟩ := (o.setLength x.length).grow_room x.length
  unfold Object.write
  rw [hbytes]
  dsimp only
  rw [if_pos (by simp only [List.length_append, List.length_map, List.length_singleton]; omega)]
  refine ⟨_, rfl, (o.setLength x.length).grow_refcount _, (o.setLength x.length).grow_lurkers _,
    (o.setLength x.length).grow_length _, nofun, ?_⟩
  rintro _ hsome
  cases hsome
  refine ⟨bytes.drop (0 + (x.map some ++ [some 0]).length), ?_⟩
  rw [List.take_zero, List.nil_append, List.append_assoc]
  rfl

/-! ## The heap -/

/-- The texts of the variables that do not hold NULL. -/
abbrev Texts := List (Option (List Byte))

structure Represents (s : State) (t : Texts) : Prop where
  length : s.vars.length = t.length
  null : ∀ v : ℕ, s.vars[v]? = some none → t[v]? = some none
  shown : ∀ v a : ℕ, s.vars[v]? = some (some a) →
    ∃ o text, s.heap[a]? = some (some o) ∧ t[v]? = some (some text) ∧ o.Keeps text
  counted : ∀ (a : ℕ) (o : Object), s.heap[a]? = some (some o) →
    o.refcount = s.vars.count (some a) + o.lurkers ∧ 0 < s.vars.count (some a)

theorem represents_nil : Represents {} [] :=
  ⟨rfl, nofun, nofun, nofun⟩

section Heap

variable {s : State} {t : Texts} {v a : ℕ} {o o' : Object} {text : List Byte}

theorem deref_eq (hv : s.vars[v]? = some (some a)) (ha : s.heap[a]? = some (some o)) :
    s.deref v = .ok (a, o) := by
  unfold State.deref
  rw [hv]
  dsimp only
  rw [ha]

/-- A variable with a text points to an object that has it. -/
theorem Represents.points (h : Represents s t) (hv : t[v]? = some (some text)) :
    ∃ a o, s.vars[v]? = some (some a) ∧ s.heap[a]? = some (some o) ∧ o.Keeps text := by
  obtain ⟨hlt, -⟩ := List.getElem?_eq_some_iff.mp hv
  have hvl : v < s.vars.length := h.length ▸ hlt
  have hvar := List.getElem?_eq_getElem hvl
  cases hp : s.vars[v] with
  | none =>
    rw [hp] at hvar
    rw [h.null v hvar] at hv
    cases hv
  | some a =>
    rw [hp] at hvar
    obtain ⟨o, text', ha, hv', hk⟩ := h.shown v a hvar
    rw [hv] at hv'
    cases hv'
    exact ⟨a, o, hvar, ha, hk⟩

/-- When a pointer of a list is overwritten it is found once less. -/
theorem count_set_some {l : List (Option ℕ)} (hv : l[v]? = some (some a)) (b : ℕ) :
    (l.set v none).count (some b) = l.count (some b) - if a = b then 1 else 0 := by
  obtain ⟨hvl, hv⟩ := List.getElem?_eq_some_iff.mp hv
  rw [List.count_set hvl, hv]
  simp

/-- Two variables that point to an object count. -/
theorem index_unique {l : List (Option ℕ)} {w : ℕ} (hcount : l.count (some a) ≤ 1)
    (hv : l[v]? = some (some a)) (hw : l[w]? = some (some a)) : v = w := by
  by_contra hne
  have hset := count_set_some hv a
  have hmem : some a ∈ l.set v none := by
    rw [List.mem_iff_getElem?]
    exact ⟨w, by rw [List.getElem?_set_ne hne, hw]⟩
  have hpos := List.count_pos_iff.mpr hmem
  rw [if_pos rfl] at hset
  omega

/-- An object that is not shared is given another text. -/
theorem Represents.replace (h : Represents s t) (hv : s.vars[v]? = some (some a))
    (ha : s.heap[a]? = some (some o)) (hown : o.refcount ≤ 1) (hr : o'.refcount = o.refcount)
    (hl : o'.lurkers = o.lurkers) (hk : o'.Keeps text) :
    Represents (s.put a (some o')) (t.set v (some text)) := by
  obtain ⟨hcount, hpos⟩ := h.counted a o ha
  obtain ⟨hvl, -⟩ := List.getElem?_eq_some_iff.mp hv
  obtain ⟨hal, -⟩ := List.getElem?_eq_some_iff.mp ha
  have hother : ∀ w b, s.vars[w]? = some (some b) → w ≠ v → a ≠ b := by
    rintro w b hw hne rfl
    exact hne (index_unique (by omega) hw hv)
  refine ⟨?_, fun w hw => ?_, fun w b hw => ?_, fun b p hb => ?_⟩
  · rw [List.length_set]
    exact h.length
  · have hne : v ≠ w := by
      rintro rfl
      cases hv.symm.trans hw
    rw [List.getElem?_set_ne hne]
    exact h.null w hw
  · change ∃ p x, (s.heap.set a (some o'))[b]? = _ ∧ _
    by_cases hne : w = v
    · subst hne
      cases hv.symm.trans hw
      exact ⟨o', text, List.getElem?_set_self hal, List.getElem?_set_self (h.length ▸ hvl), hk⟩
    · rw [List.getElem?_set_ne (hother w b hw hne), List.getElem?_set_ne (Ne.symm hne)]
      exact h.shown w b hw
  · change (s.heap.set a (some o'))[b]? = _ at hb
    change _ = s.vars.count _ + _ ∧ 0 < s.vars.count _
    by_cases hne : a = b
    · subst hne
      rw [List.getElem?_set_self hal] at hb
      cases hb
      rw [hr, hl]
      exact ⟨hcount, hpos⟩
    · rw [List.getElem?_set_ne hne] at hb
      exact h.counted b p hb

/-- An object may be given more storage. -/
theorem Represents.refresh (h : Represents s t) (ha : s.heap[a]? = some (some o))
    (hr : o'.refcount = o.refcount) (hl : o'.lurkers = o.lurkers)
    (hk : ∀ text, o.Keeps text → o'.Keeps text) : Represents (s.put a (some o')) t := by
  obtain ⟨hal, -⟩ := List.getElem?_eq_some_iff.mp ha
  refine ⟨h.length, h.null, fun w b hw => ?_, fun b p hb => ?_⟩
  · change ∃ p x, (s.heap.set a (some o'))[b]? = _ ∧ _
    obtain ⟨p, x, hb, hx, hp⟩ := h.shown w b hw
    by_cases hne : a = b
    · subst hne
      cases ha.symm.trans hb
      exact ⟨o', x, List.getElem?_set_self hal, hx, hk x hp⟩
    · rw [List.getElem?_set_ne hne]
      exact ⟨p, x, hb, hx, hp⟩
  · change (s.heap.set a (some o'))[b]? = _ at hb
    change _ = s.vars.count _ + _ ∧ 0 < s.vars.count _
    by_cases hne : a = b
    · subst hne
      rw [List.getElem?_set_self hal] at hb
      cases hb
      rw [hr, hl]
      exact h.counted a o ha
    · rw [List.getElem?_set_ne hne] at hb
      exact h.counted b p hb

/-- Nothing points to where the next object will be. -/
theorem Represents.fresh (h : Represents s t) : s.vars.count (some s.heap.length) = 0 := by
  rw [List.count_eq_zero]
  intro hmem
  obtain ⟨v, hv⟩ := List.mem_iff_getElem?.mp hmem
  obtain ⟨o, text, ha, -⟩ := h.shown v _ hv
  obtain ⟨hlt, -⟩ := List.getElem?_eq_some_iff.mp ha
  exact lt_irrefl _ hlt

theorem Represents.new (h : Represents s t) : Represents (guPcsNew s) (t ++ [some []]) := by
  refine ⟨?_, fun w hw => ?_, fun w b hw => ?_, fun b p hb => ?_⟩
  · change (s.vars ++ [_]).length = (t ++ [_]).length
    rw [List.length_append, List.length_append, h.length]
    rfl
  · change (s.vars ++ [some s.heap.length])[w]? = _ at hw
    rw [List.getElem?_append] at hw ⊢
    split_ifs at hw with hlt
    · rw [if_pos (h.length ▸ hlt)]
      exact h.null w hw
    · rw [List.getElem?_singleton] at hw
      split_ifs at hw
      cases hw
  · change (s.vars ++ [some s.heap.length])[w]? = _ at hw
    change ∃ p x, (s.heap ++ [some ({} : Object)])[b]? = _ ∧ _
    rw [List.getElem?_append] at hw
    rw [@List.getElem?_append _ t]
    split_ifs at hw with hlt
    · obtain ⟨p, x, hb, hx, hp⟩ := h.shown w b hw
      obtain ⟨hbl, -⟩ := List.getElem?_eq_some_iff.mp hb
      rw [if_pos (h.length ▸ hlt), List.getElem?_append_left hbl]
      exact ⟨p, x, hb, hx, hp⟩
    · rw [List.getElem?_singleton] at hw
      split_ifs at hw with hzero
      cases hw
      rw [if_neg (h.length ▸ hlt), ← h.length, hzero, List.getElem?_concat_length]
      exact ⟨{}, [], rfl, rfl, keeps_new 1 0⟩
  · change (s.heap ++ [some ({} : Object)])[b]? = _ at hb
    change _ = (s.vars ++ [some s.heap.length]).count _ + _ ∧ 0 < (s.vars ++ [_]).count _
    rw [List.count_append, List.count_singleton]
    rw [List.getElem?_append] at hb
    split_ifs at hb with hlt
    · have hne : (some s.heap.length == some b) = false :=
        beq_eq_false_iff_ne.mpr fun heq => hlt.ne' (Option.some.inj heq)
      rw [hne]
      exact h.counted b p hb
    · rw [List.getElem?_singleton] at hb
      split_ifs at hb with hzero
      cases hb
      have hlen : b = s.heap.length := by omega
      rw [hlen, h.fresh, beq_self_eq_true]
      exact ⟨rfl, Nat.one_pos⟩

theorem Represents.snapshot (h : Represents s t) (hv : t[v]? = some (some text)) :
    ∃ s', guPcsSnapshot v s = .ok s' ∧ Represents s' (t ++ [some text]) := by
  obtain ⟨a, o, hvar, ha, hk⟩ := h.points hv
  obtain ⟨hal, -⟩ := List.getElem?_eq_some_iff.mp ha
  refine ⟨⟨s.heap.set a (some { o with refcount := o.refcount + 1 }), s.vars ++ [some a]⟩, ?_,
    ?_, fun w hw => ?_, fun w b hw => ?_, fun b p hb => ?_⟩
  · rw [guPcsSnapshot, deref_eq hvar ha]
    rfl
  · change (s.vars ++ [_]).length = (t ++ [_]).length
    rw [List.length_append, List.length_append, h.length]
    rfl
  · change (s.vars ++ [some a])[w]? = _ at hw
    rw [List.getElem?_append] at hw ⊢
    split_ifs at hw with hlt
    · rw [if_pos (h.length ▸ hlt)]
      exact h.null w hw
    · rw [List.getElem?_singleton] at hw
      split_ifs at hw
      cases hw
  · change (s.vars ++ [some a])[w]? = _ at hw
    change ∃ p x, (s.heap.set a _)[b]? = _ ∧ _
    have hset : ∀ p, s.heap[b]? = some (some p) →
        ∃ p' : Object, (s.heap.set a (some { o with refcount := o.refcount + 1 }))[b]? =
          some (some p') ∧ ∀ x, p.Keeps x → p'.Keeps x := by
      intro p hb
      by_cases hne : a = b
      · subst hne
        cases ha.symm.trans hb
        exact ⟨_, List.getElem?_set_self hal, fun x hx => hx.recount _ _⟩
      · exact ⟨p, (List.getElem?_set_ne hne).trans hb, fun x hx => hx⟩
    rw [List.getElem?_append] at hw
    rw [@List.getElem?_append _ t]
    split_ifs at hw with hlt
    · obtain ⟨p, x, hb, hx, hp⟩ := h.shown w b hw
      obtain ⟨p', hb', hk'⟩ := hset p hb
      rw [if_pos (h.length ▸ hlt)]
      exact ⟨p', x, hb', hx, hk' x hp⟩
    · rw [List.getElem?_singleton] at hw
      split_ifs at hw with hzero
      cases hw
      obtain ⟨p', hb', hk'⟩ := hset o ha
      rw [if_neg (h.length ▸ hlt), ← h.length, hzero]
      exact ⟨p', text, hb', rfl, hk' text hk⟩
  · change (s.heap.set a _)[b]? = _ at hb
    change _ = (s.vars ++ [some a]).count _ + _ ∧ 0 < (s.vars ++ [_]).count _
    rw [List.count_append, List.count_singleton]
    by_cases hne : a = b
    · subst hne
      rw [List.getElem?_set_self hal] at hb
      cases hb
      obtain ⟨hcount, hpos⟩ := h.counted a o ha
      rw [beq_self_eq_true]
      exact ⟨by simp only [if_true]; omega, by omega⟩
    · rw [List.getElem?_set_ne hne] at hb
      have hfalse : (some a == some b) = false :=
        beq_eq_false_iff_ne.mpr fun heq => hne (Option.some.inj heq)
      rw [hfalse]
      exact h.counted b p hb

/-- A variable gives up its object, which is freed if it was the last one. -/
theorem Represents.drop (h : Represents s t) (hv : s.vars[v]? = some (some a))
    (ha : s.heap[a]? = some (some o)) (hr : o'.refcount + o.lurkers + 1 = o.refcount + o'.lurkers)
    (hk : ∀ text, o.Keeps text → o'.Keeps text) :
    Represents ((s.put a (if o'.refcount = o'.lurkers then none else some o')).point v none)
      (t.set v none) := by
  obtain ⟨hcount, hpos⟩ := h.counted a o ha
  obtain ⟨hvl, -⟩ := List.getElem?_eq_some_iff.mp hv
  obtain ⟨hal, -⟩ := List.getElem?_eq_some_iff.mp ha
  have hfreed : o'.refcount = o'.lurkers ↔ s.vars.count (some a) = 1 := by omega
  refine ⟨?_, fun w hw => ?_, fun w b hw => ?_, fun b p hb => ?_⟩
  · change (s.vars.set v none).length = _
    rw [List.length_set, List.length_set]
    exact h.length
  · change (s.vars.set v none)[w]? = _ at hw
    by_cases hne : v = w
    · subst hne
      exact List.getElem?_set_self (h.length ▸ hvl)
    · rw [List.getElem?_set_ne hne] at hw ⊢
      exact h.null w hw
  · change (s.vars.set v none)[w]? = _ at hw
    change ∃ p x, (s.heap.set a _)[b]? = _ ∧ _
    have hne : v ≠ w := by
      rintro rfl
      rw [List.getElem?_set_self hvl] at hw
      cases hw
    rw [List.getElem?_set_ne hne] at hw ⊢
    obtain ⟨p, x, hb, hx, hp⟩ := h.shown w b hw
    by_cases hab : a = b
    · subst hab
      cases ha.symm.trans hb
      -- another variable points to the object
      have hshared : ¬ o'.refcount = o'.lurkers := fun hlast =>
        hne (index_unique (hfreed.mp hlast).le hv hw)
      rw [if_neg hshared]
      exact ⟨o', x, List.getElem?_set_self hal, hx, hk x hp⟩
    · rw [List.getElem?_set_ne hab]
      exact ⟨p, x, hb, hx, hp⟩
  · change (s.heap.set a _)[b]? = _ at hb
    change _ = (s.vars.set v none).count _ + _ ∧ 0 < (s.vars.set v none).count _
    rw [count_set_some hv]
    by_cases hab : a = b
    · subst hab
      rw [List.getElem?_set_self hal] at hb
      by_cases hlast : o'.refcount = o'.lurkers
      · rw [if_pos hlast] at hb
        cases hb
      · rw [if_neg hlast] at hb
        cases hb
        rw [if_pos rfl]
        omega
    · rw [List.getElem?_set_ne hab] at hb
      rw [if_neg hab, Nat.sub_zero]
      exact h.counted b p hb

/-- The last variable becomes another one, which held NULL. -/
theorem Represents.adopt {x : Option (List Byte)} (h : Represents s (t ++ [x]))
    (hv : s.vars[v]? = some none) (hvt : v < t.length) : Represents (s.adopt v) (t.set v x) := by
  obtain ⟨vs, q, hvars⟩ : ∃ vs q, s.vars = vs ++ [q] := by
    have hlen := h.length
    rw [List.length_append] at hlen
    rcases List.eq_nil_or_concat' s.vars with hnil | hconcat
    · rw [hnil] at hlen
      cases hlen
    · exact hconcat
  have hlen : vs.length = t.length := by
    have := h.length
    rw [hvars, List.length_append, List.length_append] at this
    exact Nat.add_right_cancel this
  have hadopt : (s.adopt v).vars = vs.set v q := by
    change (s.vars.dropLast.set v (s.vars.getLast?.getD none)) = _
    rw [hvars, List.dropLast_concat, List.getLast?_concat]
    rfl
  have hvl : v < vs.length := hlen ▸ hvt
  have hvs : vs[v]? = some none := by
    rwa [hvars, List.getElem?_append_left hvl] at hv
  -- what a variable points to afterwards some variable pointed to before
  have hback : ∀ (w : ℕ) (p : Option ℕ), (vs.set v q)[w]? = some p → ∃ w' : ℕ, s.vars[w']? = some p ∧
      (t ++ [x])[w']? = (t.set v x)[w]? := by
    intro w p hw
    by_cases hne : v = w
    · subst hne
      rw [List.getElem?_set_self hvl] at hw
      refine ⟨vs.length, ?_, ?_⟩
      · rw [hvars, List.getElem?_concat_length, hw]
      · rw [hlen, List.getElem?_concat_length, List.getElem?_set_self hvt]
    · rw [List.getElem?_set_ne hne] at hw ⊢
      obtain ⟨hwl, -⟩ := List.getElem?_eq_some_iff.mp hw
      exact ⟨w, by rw [hvars, List.getElem?_append_left hwl, hw],
        List.getElem?_append_left (hlen ▸ hwl)⟩
  refine ⟨?_, fun w hw => ?_, fun w b hw => ?_, fun b p hb => ?_⟩
  · rw [hadopt, List.length_set, List.length_set, hlen]
  · rw [hadopt] at hw
    obtain ⟨w', hw', heq⟩ := hback w none hw
    rw [← heq]
    exact h.null w' hw'
  · rw [hadopt] at hw
    obtain ⟨w', hw', heq⟩ := hback w _ hw
    rw [← heq]
    exact h.shown w' b hw'
  · have hcount : (vs.set v q).count (some b) = s.vars.count (some b) := by
      obtain ⟨hvl', hvs⟩ := List.getElem?_eq_some_iff.mp hvs
      rw [List.count_set hvl', hvs, hvars, List.count_append, List.count_singleton]
      rfl
    rw [hadopt, hcount]
    exact h.counted b p hb

end Heap

end Ppr.Pcs
