import Mathlib

/-!
# Lists used as arrays

Facts about `modify`, `eraseIdx` and `insertIdx` that Mathlib does not have.
-/

namespace List

variable {α β : Type}

/-- A projection that a modification keeps. -/
theorem map_modify_of_eq {f : α → α} {g : α → β} (h : ∀ a, g (f a) = g a) (l : List α) (i : ℕ) :
    (l.modify i f).map g = l.map g := by
  refine List.ext_getElem (by simp) fun j hj hj' => ?_
  by_cases hij : i = j
  · subst hij
    simp [h]
  · simp [hij]

/-- An item of a modified list. -/
theorem mem_modify {f : α → α} {l : List α} {i : ℕ} {a : α} (h : a ∈ l.modify i f) :
    a ∈ l ∨ ∃ b ∈ l, l[i]? = some b ∧ a = f b := by
  obtain ⟨j, hj⟩ := List.mem_iff_getElem?.1 h
  rw [List.getElem?_modify] at hj
  obtain ⟨b, hb, hba⟩ := Option.map_eq_some_iff.1 hj
  have hmem := List.mem_of_getElem? hb
  by_cases hij : i = j
  · subst hij
    exact .inr ⟨b, hmem, hb, by simpa using hba.symm⟩
  · rw [if_neg hij] at hba
    exact .inl (hba ▸ hmem)

theorem eraseIdx_modify_eq (f : α → α) (l : List α) (i : ℕ) :
    (l.modify i f).eraseIdx i = l.eraseIdx i := by
  induction l generalizing i with
  | nil => simp
  | cons a l ih =>
    cases i with
    | zero => simp
    | succ i => simp [ih]

/-- An item put before the first one that it has to precede leaves the list in order. -/
theorem Pairwise.insertIdx_findIdx {r : α → α → Prop} {p : α → Bool} {l : List α} (h : l.Pairwise r)
    (trans : ∀ {a b c}, r a b → r b c → r a c) {a : α} (hp : ∀ b ∈ l, p b = true → r a b)
    (hn : ∀ b ∈ l, ¬p b = true → r b a) : (l.insertIdx (l.findIdx p) a).Pairwise r := by
  induction l with
  | nil => exact List.pairwise_singleton r a
  | cons b l ih =>
    obtain ⟨hb, hl⟩ := List.pairwise_cons.1 h
    by_cases hpb : p b = true
    · have hab := hp b List.mem_cons_self hpb
      rw [List.findIdx_cons, hpb, cond_true, List.insertIdx_zero]
      refine List.pairwise_cons.2 ⟨fun c hc => ?_, h⟩
      obtain rfl | hc := List.mem_cons.1 hc
      · exact hab
      · exact trans hab (hb c hc)
    · have hba := hn b List.mem_cons_self hpb
      rw [List.findIdx_cons, Bool.eq_false_iff.2 hpb, cond_false, List.insertIdx_succ_cons]
      refine List.pairwise_cons.2 ⟨fun c hc => ?_, ?_⟩
      · obtain rfl | hc := List.eq_or_mem_of_mem_insertIdx hc
        · exact hba
        · exact hb c hc
      · exact ih hl (fun c hc => hp c (List.mem_cons_of_mem _ hc))
          fun c hc => hn c (List.mem_cons_of_mem _ hc)

/-- An item that is erased from a list without duplicates is gone. -/
theorem Nodup.notMem_eraseIdx {l : List α} (h : l.Nodup) {i : ℕ} {a : α} (hi : l[i]? = some a) :
    a ∉ l.eraseIdx i := by
  intro ha
  obtain ⟨j, hj, hji, rfl⟩ := List.mem_eraseIdx_iff_getElem.1 ha
  obtain ⟨hil, hi⟩ := List.getElem?_eq_some_iff.1 hi
  exact hji ((h.getElem_inj_iff).1 hi.symm)

/-- A modification that brings in a new item keeps a list free of duplicates. -/
theorem Nodup.modify {l : List α} (h : l.Nodup) {i : ℕ} {f : α → α}
    (hf : ∀ a, l[i]? = some a → f a ≠ a → f a ∉ l) : (l.modify i f).Nodup := by
  rw [List.nodup_iff_injective_getElem]
  rintro ⟨j, hj⟩ ⟨k, hk⟩ he
  rw [List.length_modify] at hj hk
  have inj : l[j] = l[k] → j = k := fun e => h.getElem_inj_iff.1 e
  -- An item that is not modified is not the new one.
  have ne : ∀ a, l[i]? = some a → ∀ m (hm : m < l.length), i ≠ m → f a ≠ l[m] := by
    intro a ha m hm him e
    obtain ⟨hil, ha'⟩ := List.getElem?_eq_some_iff.1 ha
    by_cases hfa : f a = a
    · rw [hfa, ← ha'] at e
      exact him (h.getElem_inj_iff.1 e)
    · exact hf a ha hfa (e ▸ List.getElem_mem hm)
  simp only [List.getElem_modify] at he
  refine Fin.ext ?_
  dsimp only
  split_ifs at he with h1 h2 h2
  · omega
  · subst h1
    exact absurd he (ne _ (by simp [hj]) k hk h2)
  · subst h2
    exact absurd he.symm (ne _ (by simp [hk]) j hj h1)
  · exact inj he

/-- Exactly one item of a list without duplicates satisfies `p`. -/
theorem Nodup.countP_eq_one_iff {l : List α} (h : l.Nodup) {p : α → Bool} :
    l.countP p = 1 ↔ ∃! a, a ∈ l ∧ p a = true := by
  rw [List.countP_eq_length_filter, List.length_eq_one_iff]
  constructor
  · rintro ⟨a, ha⟩
    have mem : ∀ b, b ∈ l ∧ p b = true ↔ b = a := by
      intro b
      rw [← List.mem_filter, ha, List.mem_singleton]
    exact ⟨a, (mem a).2 rfl, fun b hb => (mem b).1 hb⟩
  · rintro ⟨a, ha, hu⟩
    have sub : ∀ b ∈ l.filter p, b = a := fun b hb => hu b (List.mem_filter.1 hb)
    rw [List.eq_replicate_of_mem sub]
    have nd : (l.filter p).Nodup := h.filter p
    rw [List.eq_replicate_of_mem sub, List.nodup_replicate] at nd
    have pos : 0 < (l.filter p).length := List.length_pos_of_mem (List.mem_filter.2 ha)
    obtain hn : (l.filter p).length = 1 := by omega
    exact ⟨a, by rw [hn]; rfl⟩

/-- The items at the places where `p` holds, counted over the places. -/
theorem countP_range_getD (l : List α) (d : α) (p : α → Bool) :
    (List.range l.length).countP (fun i => p (l.getD i d)) = l.countP p := by
  have items : (List.range l.length).map (fun i => l.getD i d) = l := by
    refine List.ext_getElem (by simp) fun i hi hi' => ?_
    simp [hi']
  conv_rhs => rw [← items, List.countP_map]
  rfl

/-! ## Pieces between dividers -/

/-- The pieces of a list between its dividers; nothing comes after a divider at the end. -/
def segments (d : α → Bool) : List α → List (List α)
  | [] => [[]]
  | a :: l =>
    if d a then if l = [] then [[]] else [] :: segments d l
    else
      match segments d l with
      | [] => [[a]]
      | s :: ss => (a :: s) :: ss

variable {d : α → Bool}

theorem segments_ne_nil (l : List α) : segments d l ≠ [] := by
  cases l with
  | nil => exact cons_ne_nil _ _
  | cons a l =>
    unfold segments
    split_ifs
    · exact cons_ne_nil _ _
    · exact cons_ne_nil _ _
    · split <;> exact cons_ne_nil _ _

theorem segments_cons_of_neg {a : α} (ha : d a = false) {l s : List α} {ss : List (List α)}
    (h : segments d l = s :: ss) : segments d (a :: l) = (a :: s) :: ss := by
  rw [segments, if_neg (by simp [ha]), h]

/-- What is no divider is in a piece. -/
theorem mem_segments {l : List α} {a : α} (hl : a ∈ l) (ha : d a = false) :
    ∃ s ∈ segments d l, a ∈ s := by
  induction l with
  | nil => cases hl
  | cons b l ih =>
    by_cases hb : d b
    · have hm : a ∈ l := by
        rcases mem_cons.1 hl with rfl | hm
        · rw [hb] at ha
          cases ha
        · exact hm
      have hne : l ≠ [] := ne_nil_of_mem hm
      obtain ⟨s, hs, has⟩ := ih hm
      refine ⟨s, ?_, has⟩
      rw [segments, if_pos hb, if_neg hne]
      exact mem_cons_of_mem _ hs
    · obtain ⟨s, ss, hseg⟩ := exists_cons_of_ne_nil (segments_ne_nil (d := d) l)
      rw [segments_cons_of_neg (by simpa using hb) hseg]
      rcases mem_cons.1 hl with rfl | hm
      · exact ⟨a :: s, mem_cons_self .., mem_cons_self ..⟩
      · obtain ⟨s', hs', has⟩ := ih hm
        rw [hseg] at hs'
        rcases mem_cons.1 hs' with rfl | hs'
        · exact ⟨b :: s', mem_cons_self .., mem_cons_of_mem b has⟩
        · exact ⟨s', mem_cons_of_mem _ hs', has⟩

/-- A piece has no dividers. -/
theorem mem_of_mem_segments {l s : List α} (hs : s ∈ segments d l) {a : α} (ha : a ∈ s) :
    a ∈ l ∧ d a = false := by
  induction l generalizing s with
  | nil =>
    rw [mem_singleton.1 hs] at ha
    cases ha
  | cons b l ih =>
    have tail : ∀ {s}, s ∈ segments d l → a ∈ s → a ∈ b :: l ∧ d a = false :=
      fun hs ha => ⟨mem_cons_of_mem b (ih hs ha).1, (ih hs ha).2⟩
    by_cases hb : d b
    · rw [segments, if_pos hb] at hs
      split_ifs at hs
      · rw [mem_singleton.1 hs] at ha
        cases ha
      · rcases mem_cons.1 hs with rfl | hs
        · cases ha
        · exact tail hs ha
    · have hb : d b = false := by simpa using hb
      obtain ⟨s', ss, hseg⟩ := exists_cons_of_ne_nil (segments_ne_nil (d := d) l)
      rw [segments_cons_of_neg hb hseg] at hs
      rcases mem_cons.1 hs with rfl | hs
      · rcases mem_cons.1 ha with rfl | ha
        · exact ⟨mem_cons_self .., hb⟩
        · exact tail (by rw [hseg]; exact mem_cons_self ..) ha
      · exact tail (by rw [hseg]; exact mem_cons_of_mem _ hs) ha

/-- There is one piece exactly if the only divider is at the end. -/
theorem segments_eq_singleton_iff {l : List α} :
    (∃ s, segments d l = [s]) ↔ ∀ a ∈ l.dropLast, d a = false := by
  induction l with
  | nil => simp [segments]
  | cons b l ih =>
    by_cases hl : l = []
    · subst hl
      by_cases hb : d b <;> simp [segments, hb]
    · have hdrop : (b :: l).dropLast = b :: l.dropLast := dropLast_cons_of_ne_nil hl
      by_cases hb : d b
      · have hne := segments_ne_nil (d := d) l
        rw [segments, if_pos hb, if_neg hl, hdrop]
        constructor
        · rintro ⟨s, hs⟩
          exact absurd (cons.inj hs).2 hne
        · intro h
          have := h b (mem_cons_self ..)
          rw [hb] at this
          cases this
      · have hb : d b = false := by simpa using hb
        obtain ⟨s, ss, hseg⟩ := exists_cons_of_ne_nil (segments_ne_nil (d := d) l)
        rw [segments_cons_of_neg hb hseg, hdrop, forall_mem_cons, ← ih, hseg]
        simp [hb]

theorem segments_eq_filter {l s : List α} (h : segments d l = [s]) :
    s = l.filter fun a => d a = false := by
  induction l generalizing s with
  | nil =>
    cases h
    rfl
  | cons b l ih =>
    by_cases hb : d b
    · rw [segments, if_pos hb] at h
      split_ifs at h with hl
      · cases h
        simp [hl, hb]
      · exact absurd (cons.inj h).2 (segments_ne_nil l)
    · have hb : d b = false := by simpa using hb
      obtain ⟨s', ss, hseg⟩ := exists_cons_of_ne_nil (segments_ne_nil (d := d) l)
      rw [segments_cons_of_neg hb hseg] at h
      cases h
      rw [ih hseg]
      simp [hb]

/-- A list in which every item stands for one of another list, or has been dropped. -/
theorem flatMap_eq_map_iff {β : Type} {f : α → List β} {g : α → β} {l : List α}
    (hf : ∀ a ∈ l, (f a).length ≤ 1) : l.flatMap f = l.map g ↔ ∀ a ∈ l, f a = [g a] := by
  induction l with
  | nil => simp
  | cons a l ih =>
    have hl : ∀ b ∈ l, (f b).length ≤ 1 := fun b hb => hf b (mem_cons_of_mem a hb)
    rw [flatMap_cons, map_cons, forall_mem_cons, ← ih hl]
    constructor
    · intro h
      have hlen : (l.flatMap f).length ≤ l.length := by
        clear h ih
        induction l with
        | nil => simp
        | cons b l ih =>
          have hb := hl b (mem_cons_self ..)
          have := ih (fun c hc => hf c (by simp at hc ⊢; tauto))
            fun c hc => hl c (mem_cons_of_mem b hc)
          rw [flatMap_cons, length_append, length_cons]
          omega
      have ha := hf a (mem_cons_self ..)
      match hfa : f a with
      | [] =>
        rw [hfa, nil_append] at h
        have := congrArg length h
        rw [length_cons, length_map] at this
        omega
      | [b] =>
        rw [hfa, singleton_append] at h
        obtain ⟨hb, ht⟩ := cons.inj h
        exact ⟨by rw [hb], ht⟩
      | _ :: _ :: _ =>
        rw [hfa] at ha
        simp at ha
    · rintro ⟨h, h'⟩
      rw [h, h']
      rfl

/-- A list in which every item stands for one of another list, or for several. -/
theorem flatMap_eq_map_iff_of_pos {β : Type} {f : α → List β} {g : α → β} {l : List α}
    (hf : ∀ a ∈ l, 1 ≤ (f a).length) : l.flatMap f = l.map g ↔ ∀ a ∈ l, f a = [g a] := by
  induction l with
  | nil => simp
  | cons a l ih =>
    have hl : ∀ b ∈ l, 1 ≤ (f b).length := fun b hb => hf b (mem_cons_of_mem a hb)
    rw [flatMap_cons, map_cons, forall_mem_cons, ← ih hl]
    constructor
    · intro h
      have hlen : l.length ≤ (l.flatMap f).length := by
        rw [length_flatMap, ← length_map (fun b => (f b).length)]
        exact length_le_sum_of_one_le _ (by simpa using hl)
      have ha := hf a (mem_cons_self ..)
      have ht := congrArg length h
      rw [length_append, length_cons, length_map] at ht
      obtain ⟨b, hb⟩ := length_eq_one_iff.1 (by omega : (f a).length = 1)
      rw [hb] at h ⊢
      obtain ⟨he, ht⟩ := cons.inj h
      exact ⟨by rw [he], ht⟩
    · rintro ⟨h, h'⟩
      rw [h, h']
      rfl

/-- The part of a list put together from pieces that one piece has made. -/
theorem flatMap_slice {β : Type} {l : List α} {f : α → List β} {k : ℕ} {a : α} (h : l[k]? = some a) :
    ((l.flatMap f).drop ((l.take k).flatMap f).length).take (f a).length = f a := by
  induction l generalizing k with
  | nil => cases h
  | cons b l ih =>
    cases k with
    | zero =>
      cases h
      simp
    | succ k =>
      have hk : l[k]? = some a := h
      rw [take_succ_cons, flatMap_cons, flatMap_cons, length_append, drop_append, drop_eq_nil_of_le,
        nil_append, Nat.add_sub_cancel_left, ih hk]
      omega

theorem drop_length_takeWhile (p : α → Bool) (l : List α) :
    l.drop (l.takeWhile p).length = l.dropWhile p := by
  calc l.drop (l.takeWhile p).length
      = (l.takeWhile p ++ l.dropWhile p).drop (l.takeWhile p).length := by
        rw [takeWhile_append_dropWhile]
    _ = l.dropWhile p := drop_left

/-! ### Folds that keep one of the items found -/

section Found

variable (f : α → Option β)

/-- The last one found. -/
theorem foldl_getD (l : List α) (b : β) :
    l.foldl (fun b a => (f a).getD b) b = (l.reverse.findSome? f).getD b := by
  rw [← foldr_reverse]
  induction l.reverse with
  | nil => rfl
  | cons a l ih =>
    rw [foldr_cons, ih, findSome?_cons]
    cases f a <;> rfl

theorem foldl_or_left (l : List α) (o : Option β) :
    l.foldl (fun o a => (f a).or o) o = (l.reverse.findSome? f).or o := by
  rw [← foldr_reverse]
  induction l.reverse with
  | nil => rfl
  | cons a l ih =>
    rw [foldr_cons, ih, findSome?_cons]
    cases f a <;> rfl

/-- The first one found. -/
theorem foldl_or (l : List α) (o : Option β) :
    l.foldl (fun o a => o.or (f a)) o = o.or (l.findSome? f) := by
  induction l generalizing o with
  | nil => rw [foldl_nil, findSome?_nil, Option.or_none]
  | cons a l ih =>
    rw [foldl_cons, ih, Option.or_assoc, findSome?_cons]
    cases f a <;> rfl

/-- The last one found behind the last item that starts anew. -/
theorem foldl_anew (r : α → Bool) (l : List α) :
    l.foldl (fun o a => if r a then none else (f a).or o) none =
      (l.reverse.takeWhile fun a => !r a).findSome? f := by
  rw [← foldr_reverse]
  induction l.reverse with
  | nil => rfl
  | cons a l ih =>
    rw [foldr_cons, ih]
    by_cases hr : r a = true
    · rw [if_pos hr, takeWhile_cons_of_neg (by simp [hr]), findSome?_nil]
    · rw [if_neg hr, takeWhile_cons_of_pos (by simpa using hr), findSome?_cons]
      cases f a <;> rfl

end Found

theorem filterMap_cons_toList (f : α → Option β) (a : α) (l : List α) :
    (a :: l).filterMap f = (f a).toList ++ l.filterMap f := by
  cases h : f a <;> simp [h]

/-- A loop over the places of a list that gives one item for each. -/
theorem flatMap_range_eq_mapIdx (l : List α) {f : ℕ → List β} {g : ℕ → α → β}
    (h : ∀ m a, l[m]? = some a → f m = [g m a]) :
    (List.range l.length).flatMap f = l.mapIdx g := by
  induction l generalizing f g with
  | nil => rfl
  | cons a l ih =>
    have rest := ih (f := fun m => f (m + 1)) (g := fun m => g (m + 1))
      fun m b hb => h (m + 1) b (by simpa using hb)
    rw [List.length_cons, List.range_succ_eq_map, List.flatMap_cons, List.flatMap_map,
      List.mapIdx_cons, h 0 a (by simp), rest]
    rfl

/-- What holds before an item and is kept by it holds behind all of them. -/
theorem foldl_split {σ : Type} {I : List α → σ → Prop} {step : σ → α → σ} {all : List α}
    (hstep : ∀ xs x ys v, all = xs ++ x :: ys → I xs v → I (xs ++ [x]) (step v x)) {v : σ} (hv : I [] v) :
    I all (all.foldl step v) := by
  have hsplit : ∀ ys xs v, all = xs ++ ys → I xs v → I all (ys.foldl step v) := by
    intro ys
    induction ys with
    | nil =>
      intro xs v hall hv
      rw [hall, List.append_nil]
      exact hv
    | cons x ys ih =>
      intro xs v hall hv
      exact ih (xs ++ [x]) (step v x) (by simpa using hall) (hstep xs x ys v hall hv)
  exact hsplit all [] v rfl hv

end List
