import Ppr.Libgu.PchEntries

/-!
# Perl compatible hashes are finite maps

The entries in memory are the chains of a table, and the calls do to the table what they do to a finite map.
While an iteration goes on, `Pending` says which entries it still has to give; the entry just returned is not
one of them, so it can be deleted.
-/

namespace Ppr.Libgu.Pch

open Linked Chained

variable {α : Type} {bucketCount : ℕ} [NeZero bucketCount]

/-- What the entries of a bucket are: an address, and the key with its value. -/
abbrev Buckets (bucketCount : ℕ) (α : Type) := Fin bucketCount → List (ℕ × (List Byte × Option α))

/-- The entries in memory are those of the table. -/
structure Represents (p : Pch bucketCount α) (t : Ppr.Pch bucketCount (Option α)) (buckets : Buckets bucketCount α) :
    Prop where
  holds : p.memory.Holds buckets
  chains : ∀ i, (buckets i).map Prod.snd = t.chains i
  count : p.keyCount = t.entries.length

variable {p : Pch bucketCount α} {t : Ppr.Pch bucketCount (Option α)} {buckets : Buckets bucketCount α}

theorem represents_new : (new : Pch bucketCount α).Represents .empty fun _ => [] := by
  refine ⟨Memory.holds_empty, fun _ => rfl, ?_⟩
  have hentries : (Table.empty : Ppr.Pch bucketCount (Option α)).entries = [] := by
    rw [Table.entries, List.flatten_eq_nil_iff]
    intro l hl
    obtain ⟨i, rfl⟩ := (List.mem_ofFn' _ l).1 hl
    rfl
  rw [hentries]
  rfl

/-! ## Calls -/

/-- No other entry of a bucket has the key of an entry. -/
theorem Represents.others (h : p.Represents t buckets) {i : Fin bucketCount}
    {before rest : List (ℕ × (List Byte × Option α))} {a : ℕ} {e : List Byte × Option α}
    (hi : buckets i = before ++ (a, e) :: rest) :
    (∀ c ∈ before, c.2.1 ≠ e.1) ∧ ∀ c ∈ rest, c.2.1 ≠ e.1 := by
  have hnodup := t.nodup i
  rw [← h.chains, hi, List.map_append, List.map_append, List.map_cons, List.map_cons, List.nodup_append,
    List.nodup_cons] at hnodup
  constructor
  · intro c hc hk
    exact hnodup.2.2 c.2.1 (List.mem_map_of_mem (List.mem_map_of_mem hc)) e.1 List.mem_cons_self hk
  · intro c hc hk
    apply hnodup.2.1.1
    have hmem := List.mem_map_of_mem (f := Prod.fst) (List.mem_map_of_mem (f := Prod.snd) hc)
    rwa [hk] at hmem

/-- The entries of the other keys stand around the entry of a key, or there is none. -/
theorem Represents.split (h : p.Represents t buckets) (key : List Byte) :
    (∃ before a value rest, buckets (guHash bucketCount key) = before ++ (a, (key, value)) :: rest ∧
      (∀ c ∈ before, c.2.1 ≠ key) ∧ (∀ c ∈ rest, c.2.1 ≠ key) ∧ t.get key = some value) ∨
    ((∀ c ∈ buckets (guHash bucketCount key), c.2.1 ≠ key) ∧ t.get key = none) := by
  have hchain := h.chains (guHash bucketCount key)
  by_cases hkey : ∃ c ∈ buckets (guHash bucketCount key), c.2.1 = key
  · left
    obtain ⟨⟨a, k, value⟩, hc, rfl⟩ := hkey
    obtain ⟨before, rest, hsplit⟩ := List.append_of_mem hc
    obtain ⟨hbefore, hrest⟩ := h.others hsplit
    refine ⟨before, a, value, rest, hsplit, hbefore, hrest, ?_⟩
    rw [Table.get, ← mem_iff_find (t.nodup _), ← hchain]
    exact List.mem_map_of_mem hc
  · right
    have hne : ∀ c ∈ buckets (guHash bucketCount key), c.2.1 ≠ key := fun c hc hk => hkey ⟨c, hc, hk⟩
    refine ⟨hne, ?_⟩
    rw [← Option.not_isSome_iff_eq_none, Table.get, find_isSome_iff, ← hchain]
    intro hmem
    obtain ⟨e, he, hek⟩ := List.mem_map.1 hmem
    obtain ⟨c, hc, rfl⟩ := List.mem_map.1 he
    exact hne c hc hek

theorem hasKey_eq_false {key : List Byte} {e : List Byte × Option α} (h : e.1 ≠ key) : hasKey key e = false :=
  decide_eq_false h

theorem length_lt_bound (h : p.Represents t buckets) {i : Fin bucketCount} {before rest : List (ℕ × (List Byte × Option α))}
    (hi : buckets i = before ++ rest) : before.length < p.bound := by
  have hlength := h.holds.length_lt i
  rw [hi, List.length_append] at hlength
  exact Nat.lt_of_le_of_lt (Nat.le_add_right ..) hlength

/-- The search comes upon the entry of the key. -/
theorem walk_entry (h : p.Represents t buckets) {key : List Byte} {before rest : List (ℕ × (List Byte × Option α))}
    {a : ℕ} {value : Option α} (hi : buckets (guHash bucketCount key) = before ++ (a, (key, value)) :: rest)
    (hbefore : ∀ c ∈ before, c.2.1 ≠ key) :
    p.memory.walk (hasKey key) p.bound (.root (guHash bucketCount key)) =
      some (Memory.slotAfter (guHash bucketCount key) before, some a) := by
  have hfound : ∀ c ∈ ((a, (key, value)) :: rest).head?, hasKey key c.2 = true := by
    intro c hc
    cases hc
    exact decide_eq_true rfl
  exact h.holds.walk (hi.trans (List.nil_append _).symm) (fun c hc => hasKey_eq_false (hbefore c hc)) hfound (length_lt_bound h hi)

/-- The search comes to the end of the bucket. -/
theorem walk_end (h : p.Represents t buckets) {key : List Byte}
    (hne : ∀ c ∈ buckets (guHash bucketCount key), c.2.1 ≠ key) :
    p.memory.walk (hasKey key) p.bound (.root (guHash bucketCount key)) =
      some (Memory.slotAfter (guHash bucketCount key) (buckets (guHash bucketCount key)), none) := by
  have hi : buckets (guHash bucketCount key) = buckets (guHash bucketCount key) ++ [] := (List.append_nil _).symm
  exact h.holds.walk (hi.trans (List.nil_append _).symm)
    (fun c hc => hasKey_eq_false (hne c hc)) (by simp) (length_lt_bound h hi)

theorem get_spec (h : p.Represents t buckets) (key : List Byte) : p.get key = some (t.get key).join := by
  have hroot := h.holds.root (guHash bucketCount key)
  rw [get, hroot]
  rcases h.split key with ⟨before, a, value, rest, hi, hbefore, -, hget⟩ | ⟨hne, hget⟩
  · have hfound : ∀ c ∈ ((a, (key, value)) :: rest).head?, hasKey key c.2 = true := by
      intro c hc
      cases hc
      exact decide_eq_true rfl
    have hseek := h.holds.seek (hi.trans (List.nil_append _).symm) (fun c hc => hasKey_eq_false (hbefore c hc)) hfound
      (length_lt_bound h hi)
    rw [hi, hseek, hget]
    rfl
  · have hi : buckets (guHash bucketCount key) = buckets (guHash bucketCount key) ++ [] := (List.append_nil _).symm
    have hseek := h.holds.seek (hi.trans (List.nil_append _).symm)
      (fun c hc => hasKey_eq_false (hne c hc)) (by simp) (length_lt_bound h hi)
    rw [List.append_nil] at hseek
    rw [hseek, hget]
    rfl

omit [NeZero bucketCount] in
theorem map_update {i : Fin bucketCount} {l : List (ℕ × (List Byte × Option α))}
    {chains : Fin bucketCount → List (List Byte × Option α)} (h : ∀ j, (buckets j).map Prod.snd = chains j)
    (j : Fin bucketCount) :
    (Function.update buckets i l j).map Prod.snd = Function.update chains i (l.map Prod.snd) j := by
  by_cases hj : j = i
  · subst hj
    rw [Function.update_self, Function.update_self]
  · rw [Function.update_of_ne hj, Function.update_of_ne hj, h]

theorem set_spec (h : p.Represents t buckets) (key : List Byte) (value : Option α) :
    ∃ p' buckets', p.set key value = some p' ∧ p'.Represents (t.set key value) buckets' := by
  rcases h.split key with ⟨before, a, old, rest, hi, hbefore, -, -⟩ | ⟨hne, -⟩
  · obtain ⟨memory, hstore, hholds⟩ := h.holds.store hi (key, value)
    have hput : put key value (t.chains (guHash bucketCount key)) =
        (before ++ (a, (key, value)) :: rest).map Prod.snd := by
      rw [← h.chains, hi, List.map_append, List.map_cons, put_append, List.map_append, List.map_cons]
      intro e he
      obtain ⟨c, hc, rfl⟩ := List.mem_map.1 he
      exact hbefore c hc
    refine ⟨{ p with memory }, _, ?_, hholds, ?_, ?_⟩
    · rw [set, walk_entry h hi hbefore]
      show ((p.memory.cells a).map Cell.item).bind _ = _
      rw [h.holds.cell hi]
      show (p.memory.store a (key, value)).bind _ = _
      rw [hstore]
      rfl
    · intro i
      rw [map_update h.chains, ← hput]
      rfl
    · have hupdate : (t.set key value).chains = Function.update t.chains _ _ := rfl
      have hlength := Table.length_entries_update hupdate
      rw [hput, ← h.chains, hi, List.length_map, List.length_map, List.length_append, List.length_append] at hlength
      show p.keyCount = _
      rw [h.count]
      exact (Nat.add_right_cancel hlength).symm
  · obtain ⟨memory, hwrite, hholds⟩ := h.holds.append (guHash bucketCount key) (key, value)
    have hput : put key value (t.chains (guHash bucketCount key)) =
        (buckets (guHash bucketCount key) ++ [(p.memory.brk, (key, value))]).map Prod.snd := by
      rw [← h.chains, put_of_forall_ne, List.map_append]
      · rfl
      · intro e he
        obtain ⟨c, hc, rfl⟩ := List.mem_map.1 he
        exact hne c hc
    refine ⟨{ p with memory, keyCount := p.keyCount + 1 }, _, ?_, hholds, ?_, ?_⟩
    · rw [set, walk_end h hne]
      show ((p.memory.alloc (key, value)).writeSlot (some p.memory.brk) _).bind _ = _
      rw [hwrite]
      rfl
    · intro i
      rw [map_update h.chains, ← hput]
      rfl
    · have hupdate : (t.set key value).chains = Function.update t.chains _ _ := rfl
      have hlength := Table.length_entries_update hupdate
      rw [hput, ← h.chains, List.length_map, List.length_map, List.length_append, List.length_singleton] at hlength
      show p.keyCount + 1 = _
      rw [h.count]
      omega

theorem delete_entry (h : p.Represents t buckets) {key : List Byte} {before rest : List (ℕ × (List Byte × Option α))}
    {a : ℕ} {value : Option α} (hi : buckets (guHash bucketCount key) = before ++ (a, (key, value)) :: rest)
    (hbefore : ∀ c ∈ before, c.2.1 ≠ key) (hrest : ∀ c ∈ rest, c.2.1 ≠ key) :
    ∃ p', p.delete key = some (p', value) ∧ p'.currentBucket = p.currentBucket ∧ p'.nextItem = p.nextItem ∧
      p'.Represents (t.erase key) (Function.update buckets (guHash bucketCount key) (before ++ rest)) := by
  obtain ⟨memory, hwrite, hholds⟩ := h.holds.remove hi
  have hremove : remove key (t.chains (guHash bucketCount key)) = (before ++ rest).map Prod.snd := by
    rw [← h.chains, hi, List.map_append, List.map_cons, remove_append, List.map_append]
    · intro e he
      obtain ⟨c, hc, rfl⟩ := List.mem_map.1 he
      exact hbefore c hc
    · intro e he
      obtain ⟨c, hc, rfl⟩ := List.mem_map.1 he
      exact hrest c hc
  refine ⟨{ p with memory := memory.free a, keyCount := p.keyCount - 1 }, ?_, rfl, rfl, hholds, ?_, ?_⟩
  · rw [delete, walk_entry h hi hbefore]
    show (p.memory.cells a).bind _ = _
    rw [h.holds.cell hi]
    show (p.memory.writeSlot (rest.head?.map Prod.fst) _).bind _ = _
    rw [hwrite]
    rfl
  · intro i
    rw [map_update h.chains, ← hremove]
    rfl
  · have hupdate : (t.erase key).chains = Function.update t.chains _ _ := rfl
    have hlength := Table.length_entries_update hupdate
    rw [hremove, ← h.chains, hi, List.length_map, List.length_map, List.length_append, List.length_append,
      List.length_cons] at hlength
    show p.keyCount - 1 = _
    rw [h.count]
    omega

theorem delete_spec (h : p.Represents t buckets) (key : List Byte) :
    ∃ p' buckets', p.delete key = some (p', (t.get key).join) ∧ p'.Represents (t.erase key) buckets' := by
  rcases h.split key with ⟨before, a, value, rest, hi, hbefore, hrest, hget⟩ | ⟨hne, hget⟩
  · obtain ⟨p', hdelete, -, -, hp'⟩ := delete_entry h hi hbefore hrest
    exact ⟨p', _, by rw [hdelete, hget]; rfl, hp'⟩
  · have hremove : remove key (t.chains (guHash bucketCount key)) = t.chains (guHash bucketCount key) := by
      apply remove_of_forall_ne
      intro e he
      rw [← h.chains] at he
      obtain ⟨c, hc, rfl⟩ := List.mem_map.1 he
      exact hne c hc
    have hsame : t.erase key = t := by
      apply Table.eq_of_chains
      show Function.update t.chains _ _ = _
      rw [hremove, Function.update_eq_self]
    refine ⟨p, buckets, ?_, hsame.symm ▸ h⟩
    rw [delete, walk_end h hne, hget]
    rfl

/-! ## Iterations -/

section

omit [NeZero bucketCount]

/-- What follows the first `j` buckets. -/
def behind (buckets : Buckets bucketCount α) (j : ℕ) : List (ℕ × (List Byte × Option α)) :=
  ((List.ofFn buckets).drop j).flatten

/-- The iteration still has the entries `l` to give. -/
def Pending (p : Pch bucketCount α) (buckets : Buckets bucketCount α) (l : List (List Byte × Option α)) : Prop :=
  ∃ (j : ℕ) (item : List (ℕ × (List Byte × Option α))), p.currentBucket + 1 = j ∧
    p.nextItem = item.head?.map Prod.fst ∧ l = (item ++ behind buckets j).map Prod.snd ∧
    (item = [] ∨ ∃ i : Fin bucketCount, i + 1 = j ∧ ∃ before, buckets i = before ++ item)

theorem behind_eq (buckets : Buckets bucketCount α) (i : Fin bucketCount) :
    behind buckets i = buckets i ++ behind buckets (i + 1) := by
  have hi : (i : ℕ) < (List.ofFn buckets).length := by simp
  rw [behind, List.drop_eq_getElem_cons hi, List.flatten_cons, List.getElem_ofFn]
  rfl

theorem behind_eq_nil (buckets : Buckets bucketCount α) {j : ℕ} (hj : bucketCount ≤ j) : behind buckets j = [] := by
  rw [behind, List.drop_eq_nil_of_le (by simpa using hj)]
  rfl

/-- A bucket that has been reached does not matter. -/
theorem behind_update (buckets : Buckets bucketCount α) (i : Fin bucketCount) (l : List (ℕ × (List Byte × Option α))) :
    behind (Function.update buckets i l) (i + 1) = behind buckets (i + 1) := by
  have hdrop : (List.ofFn (Function.update buckets i l)).drop (i + 1) = (List.ofFn buckets).drop (i + 1) := by
    apply List.ext_getElem
    · simp
    · intro k hk hk'
      rw [List.getElem_drop, List.getElem_drop, List.getElem_ofFn, List.getElem_ofFn, Function.update_of_ne]
      intro hi
      have := congrArg Fin.val hi
      simp at this
      omega
  rw [behind, hdrop, behind]

end

section

omit [NeZero bucketCount]

theorem nextBucket_eq {i : Fin bucketCount} (hi : p.currentBucket + 1 = (i : ℕ)) :
    p.nextBucket = (p.memory.roots i).elim (nextBucket { p with currentBucket := i }) fun entry =>
      { p with currentBucket := i, nextItem := some entry } := by
  have hbound : (p.currentBucket + 1).toNat < bucketCount ∧ 0 ≤ p.currentBucket + 1 := by
    have := i.2
    omega
  have hindex : (⟨(p.currentBucket + 1).toNat, hbound.1⟩ : Fin bucketCount) = i := by
    apply Fin.ext
    show (p.currentBucket + 1).toNat = _
    omega
  rw [nextBucket, dif_pos hbound, hindex, hi]
  cases p.memory.roots i <;> rfl

theorem nextBucket_of_le (h : bucketCount ≤ p.currentBucket + 1) :
    p.nextBucket = { p with currentBucket := p.currentBucket + 1 } := by
  rw [nextBucket]
  exact dif_neg (by omega)

end

omit [NeZero bucketCount] in
/-- The loop over the buckets. -/
theorem nextBucket_spec (h : p.memory.Holds buckets) (hitem : p.nextItem = none) {j : ℕ}
    (hj : p.currentBucket + 1 = j) :
    (behind buckets j = [] ∧ ∃ k, p.nextBucket = { p with currentBucket := k }) ∨
    ∃ (i : Fin bucketCount) (c : ℕ × (List Byte × Option α)) (item : List (ℕ × (List Byte × Option α))),
      buckets i = c :: item ∧ behind buckets j = c :: item ++ behind buckets (i + 1) ∧
      p.nextBucket = { p with currentBucket := i, nextItem := some c.1 } := by
  induction hn : bucketCount - j generalizing p j with
  | zero => exact .inl ⟨behind_eq_nil buckets (by omega), _, nextBucket_of_le (by omega)⟩
  | succ n ih =>
    have hlt : j < bucketCount := by omega
    have hroot := h.root ⟨j, hlt⟩
    have hbehind := behind_eq buckets ⟨j, hlt⟩
    rw [nextBucket_eq (i := ⟨j, hlt⟩) hj]
    cases hbucket : buckets ⟨j, hlt⟩ with
    | nil =>
      rw [hbucket] at hroot hbehind
      rw [hroot, show behind buckets j = behind buckets (j + 1) from hbehind]
      exact ih (p := { p with currentBucket := j }) h hitem (by push_cast; rfl) (by omega)
    | cons c item =>
      rw [hbucket] at hroot hbehind
      right
      refine ⟨⟨j, hlt⟩, c, item, hbucket, hbehind, ?_⟩
      rw [hroot]
      rfl

/-- The next entry. -/
theorem nextkey_spec (h : p.Represents t buckets) {e : List Byte × Option α} {l : List (List Byte × Option α)}
    (hpending : p.Pending buckets (e :: l)) :
    ∃ (p' : Pch bucketCount α) (i : Fin bucketCount) (before item : List (ℕ × (List Byte × Option α))) (a : ℕ),
      p.nextkey = some (p', some e) ∧ p'.Represents t buckets ∧ buckets i = before ++ (a, e) :: item ∧
      p'.currentBucket = i ∧ p'.nextItem = item.head?.map Prod.fst ∧
      l = (item ++ behind buckets (i + 1)).map Prod.snd := by
  obtain ⟨j, item, hj, hitem, hl, hplace⟩ := hpending
  cases item with
  | nil =>
    -- the bucket is used up
    rw [List.nil_append] at hl
    rcases nextBucket_spec h.holds hitem hj with ⟨hnil, -⟩ | ⟨i, c, item, hi, hbehind, hnext⟩
    · rw [hnil] at hl
      cases hl
    · rw [hbehind, List.cons_append, List.map_cons, List.cons.injEq] at hl
      obtain ⟨rfl, rfl⟩ := hl
      refine ⟨{ p with currentBucket := i, nextItem := item.head?.map Prod.fst }, i, [], item, c.1, ?_,
        ⟨h.holds, h.chains, h.count⟩, hi, rfl, rfl, rfl⟩
      rw [nextkey, hitem]
      simp only [hnext]
      show (p.memory.cells c.1).bind _ = _
      rw [h.holds.cell (hi.trans (List.nil_append _).symm)]
      rfl
  | cons c item =>
    rcases hplace with hnil | ⟨i, rfl, before, hi⟩
    · cases hnil
    · rw [List.cons_append, List.map_cons, List.cons.injEq] at hl
      obtain ⟨rfl, rfl⟩ := hl
      refine ⟨{ p with nextItem := item.head?.map Prod.fst }, i, before, item, c.1, ?_,
        ⟨h.holds, h.chains, h.count⟩, hi, ?_, rfl, rfl⟩
      · rw [nextkey, hitem]
        simp only [List.head?_cons, Option.map_some, Option.isNone_some, Bool.false_eq_true, if_false, hitem]
        show (p.memory.cells c.1).bind _ = _
        rw [h.holds.cell hi]
        rfl
      · show p.currentBucket = _
        push_cast at hj
        omega

/-- NULL after the last entry. -/
theorem nextkey_end (h : p.Represents t buckets) (hpending : p.Pending buckets []) :
    ∃ p', p.nextkey = some (p', none) ∧ p'.Represents t buckets := by
  obtain ⟨j, item, hj, hitem, hl, -⟩ := hpending
  have hnil := List.append_eq_nil_iff.1 (List.map_eq_nil_iff.1 hl.symm)
  rw [hnil.1] at hitem
  rcases nextBucket_spec h.holds hitem hj with ⟨-, k, hnext⟩ | ⟨i, c, item, -, hbehind, -⟩
  · refine ⟨{ p with currentBucket := k }, ?_, h.holds, h.chains, h.count⟩
    rw [nextkey, hitem]
    simp only [List.head?_nil, Option.map_none, Option.isNone_none, if_true, hnext, hitem]
    rfl
  · rw [hnil.2] at hbehind
    cases hbehind

theorem pending_rewind (h : p.Represents t buckets) : p.rewind.Pending buckets t.entries := by
  refine ⟨0, [], rfl, rfl, ?_, .inl rfl⟩
  rw [Table.entries, behind, List.drop_zero, List.nil_append, List.map_flatten, List.map_ofFn]
  congr 2
  funext i
  exact (h.chains i).symm

/-- The iteration gives the entries that are pending, whichever of them are deleted. -/
theorem traverse_spec (h : p.Represents t buckets) {l : List (List Byte × Option α)}
    (hpending : p.Pending buckets l) (hnodup : (l.map Prod.fst).Nodup) (deleted : List Byte → Bool) {fuel : ℕ}
    (hfuel : l.length < fuel) :
    ∃ p' t' buckets', p.traverse deleted fuel = some (p', l) ∧ p'.Represents t' buckets' ∧
      ∀ key, t'.get key = if key ∈ l.map Prod.fst ∧ deleted key = true then none else t.get key := by
  induction l generalizing p t buckets fuel with
  | nil =>
    obtain ⟨fuel, rfl⟩ := Nat.exists_eq_add_one_of_ne_zero (Nat.ne_of_gt hfuel)
    obtain ⟨p', hnext, hp'⟩ := nextkey_end h hpending
    refine ⟨p', t, buckets, ?_, hp', fun key => by simp⟩
    rw [traverse, hnext]
    rfl
  | cons e l ih =>
    obtain ⟨fuel, rfl⟩ := Nat.exists_eq_add_one_of_ne_zero (Nat.ne_of_gt (Nat.zero_lt_of_lt hfuel))
    obtain ⟨p₁, i, before, item, a, hnext, hp₁, hi, hcurrent, hitem, hl⟩ := nextkey_spec h hpending
    rw [List.map_cons, List.nodup_cons] at hnodup
    by_cases hdeleted : deleted e.1 = true
    · have hmem : e ∈ t.chains i := by
        rw [← hp₁.chains, hi]
        simp
      obtain rfl : guHash bucketCount e.1 = i := t.placed i e hmem
      obtain ⟨hbefore, hrest⟩ := hp₁.others hi
      obtain ⟨p₂, hdelete, hcurrent₂, hitem₂, hp₂⟩ := delete_entry hp₁ hi hbefore hrest
      have hplace : p₂.Pending (Function.update buckets (guHash bucketCount e.1) (before ++ item)) l := by
        refine ⟨_, item, by rw [hcurrent₂, hcurrent]; rfl, hitem₂.trans hitem, ?_,
          .inr ⟨_, rfl, before, Function.update_self ..⟩⟩
        rw [behind_update]
        exact hl
      obtain ⟨p', t', buckets', htraverse, hp', hget⟩ := ih hp₂ hplace hnodup.2 (Nat.lt_of_succ_lt_succ hfuel)
      refine ⟨p', t', buckets', ?_, hp', ?_⟩
      · rw [traverse, hnext]
        show ((if deleted e.1 then (p₁.delete e.1).map Prod.fst else _) >>= _) = _
        rw [if_pos hdeleted, hdelete]
        show (p₂.traverse deleted fuel).bind _ = _
        rw [htraverse]
        rfl
      · intro key
        rw [hget, Table.get_erase]
        by_cases hkey : key = e.1
        · simp only [hkey, hdeleted, List.map_cons, List.mem_cons, true_or, and_self, if_true, ite_self]
        · simp only [hkey, List.map_cons, List.mem_cons, false_or, if_false]
    · have hplace : p₁.Pending buckets l :=
        ⟨i + 1, item, by rw [hcurrent]; rfl, hitem, hl, .inr ⟨i, rfl, before ++ [(a, e)], by rw [hi]; simp⟩⟩
      obtain ⟨p', t', buckets', htraverse, hp', hget⟩ := ih hp₁ hplace hnodup.2 (Nat.lt_of_succ_lt_succ hfuel)
      refine ⟨p', t', buckets', ?_, hp', ?_⟩
      · rw [traverse, hnext]
        show ((if deleted e.1 then _ else some p₁) >>= _) = _
        rw [if_neg hdeleted]
        show (p₁.traverse deleted fuel).bind _ = _
        rw [htraverse]
        rfl
      · intro key
        rw [hget]
        by_cases hkey : key = e.1
        · simp [hkey, hdeleted]
        · simp only [hkey, List.map_cons, List.mem_cons, false_or]

theorem size_spec (h : p.Represents t buckets) :
    ∃ keys : Finset (List Byte), (∀ key, key ∈ keys ↔ t.get key ≠ none) ∧ p.size = keys.card := by
  refine ⟨t.keys.toFinset, ?_, ?_⟩
  · intro key
    rw [List.mem_toFinset, Table.mem_keys, Option.isSome_iff_ne_none]
  · rw [List.toFinset_card_of_nodup t.nodup_keys, size, h.count]
    exact (List.length_map _).symm

/-! ## Runs -/

/-- One call gives what the finite map of the table gives. -/
theorem step_spec (h : p.Represents t buckets) (op : Op α) :
    ∃ p' r t' buckets', p.step op = some (p', r) ∧ p'.Represents t' buckets' ∧ Answers t.get op r t'.get := by
  cases op with
  | set key value =>
    obtain ⟨p', buckets', hset, hp'⟩ := set_spec h key value
    have hget : (t.set key value).get = Function.update t.get key (some value) := by
      funext k
      rw [Table.get_set, Function.update_apply]
    refine ⟨p', _, _, buckets', ?_, hp', hget ▸ Answers.set key value⟩
    rw [step, hset]
    rfl
  | get key =>
    refine ⟨p, _, t, buckets, ?_, h, .get key⟩
    rw [step, get_spec h]
    rfl
  | delete key =>
    obtain ⟨p', buckets', hdelete, hp'⟩ := delete_spec h key
    have hget : (t.erase key).get = Function.update t.get key none := by
      funext k
      rw [Table.get_erase, Function.update_apply]
    refine ⟨p', _, _, buckets', ?_, hp', hget ▸ Answers.delete key⟩
    rw [step, hdelete]
    rfl
  | size =>
    obtain ⟨keys, hkeys, hcard⟩ := size_spec h
    exact ⟨p, _, t, buckets, rfl, h, hcard ▸ Answers.size keys hkeys⟩
  | foreach deleted =>
    have hrewind : p.rewind.Represents t buckets := ⟨h.holds, h.chains, h.count⟩
    have hfuel : t.entries.length < p.keyCount + 1 := by
      rw [h.count]
      exact Nat.lt_succ_self _
    obtain ⟨p', t', buckets', htraverse, hp', hget⟩ :=
      traverse_spec hrewind (pending_rewind h) t.nodup_keys deleted hfuel
    have hget' : t'.get = fun key => if deleted key then none else t.get key := by
      funext key
      rw [hget]
      have hmem : key ∈ t.entries.map Prod.fst ↔ (t.get key).isSome := Table.mem_keys
      cases hkey : t.get key with
      | none => simp
      | some value =>
        rw [hkey] at hmem
        simp only [hmem.2 rfl, true_and]
    refine ⟨p', _, t', buckets', ?_, hp', hget' ▸ Answers.foreach deleted t.entries t.nodup_keys fun key value => Table.mem_entries⟩
    rw [step, htraverse]
    rfl

theorem run_spec (h : p.Represents t buckets) (ops : List (Op α)) :
    ∃ p' rs, p.run ops = some (p', rs) ∧ AnswersRun t.get ops rs := by
  induction ops generalizing p t buckets with
  | nil => exact ⟨p, [], rfl, .nil _⟩
  | cons op ops ih =>
    obtain ⟨p₁, r, t₁, buckets₁, hstep, hp₁, hr⟩ := step_spec h op
    obtain ⟨p₂, rs, hrun, hrs⟩ := ih hp₁
    refine ⟨p₂, r :: rs, ?_, .cons hr hrs⟩
    rw [run, hstep]
    show (p₁.run ops).bind _ = _
    rw [hrun]
    rfl

/-- Whatever the number of buckets, the hash is a finite map, also to an iteration that deletes. -/
theorem answersRun_new (bucketCount : ℕ) [NeZero bucketCount] (ops : List (Op α)) :
    ∃ (p : Pch bucketCount α) (rs : List (Result α)), (new : Pch bucketCount α).run ops = some (p, rs) ∧ AnswersRun (fun _ => none) ops rs := by
  have hnew : (new : Pch bucketCount α).Represents .empty fun _ => [] := represents_new
  obtain ⟨p, rs, hrun, hrs⟩ := run_spec hnew ops
  exact ⟨p, rs, hrun, hrs⟩

theorem answersRun_new_three : ∃ (p : Pch 3 ℕ) (rs : List (Result ℕ)),
    (new : Pch 3 ℕ).run [.set [200] (some 1), .set [65] none, .foreach fun _ => true, .size] = some (p, rs) ∧
      AnswersRun (fun _ => none) [.set [200] (some 1), .set [65] none, .foreach fun _ => true, .size] rs :=
  answersRun_new 3 _

end Ppr.Libgu.Pch
