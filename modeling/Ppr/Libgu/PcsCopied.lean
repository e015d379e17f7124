import Ppr.Libgu.PcsValues

/-!
# Perl Compatible Strings are copied when they are changed

Each function does to the texts what it is for, except that a string that has no storage cannot be
copied, that one which is not empty cannot be appended to itself, and that one which is shared cannot be
set from itself.
-/

namespace Ppr.Pcs

/-- Storage has been allocated for the string. -/
def State.stored (s : State) (v : ℕ) : Bool :=
  match s.deref v with
  | .ok (_, o) => o.storage.isSome
  | .error _ => false

/-- A change of the string begins with a copy. -/
def State.shared (s : State) (v : ℕ) : Bool :=
  match s.deref v with
  | .ok (_, o) => decide (o.refcount > 1)
  | .error _ => false

section Memory

variable {s : State} {t : Texts} {v a : ℕ} {o o' : Object} {text : List Byte}

theorem stored_eq (hv : s.vars[v]? = some (some a)) (ha : s.heap[a]? = some (some o)) :
    s.stored v = o.storage.isSome := by
  rw [State.stored, deref_eq hv ha]

theorem shared_eq (hv : s.vars[v]? = some (some a)) (ha : s.heap[a]? = some (some o)) :
    s.shared v = decide (o.refcount > 1) := by
  rw [State.shared, deref_eq hv ha]

theorem stored_points (h : s.stored v = true) :
    ∃ a o, s.vars[v]? = some (some a) ∧ s.heap[a]? = some (some o) ∧ o.storage ≠ none := by
  unfold State.stored State.deref at h
  split at h
  · next b p hd =>
    split at hd
    · next a hv =>
      split at hd
      · next o ha =>
        cases hd
        exact ⟨_, _, hv, ha, Option.isSome_iff_ne_none.mp h⟩
      · cases hd
    · cases hd
  · cases h

theorem put_get (ha : s.heap[a]? = some (some o)) : (s.put a (some o')).heap[a]? = some (some o') :=
  List.getElem?_set_self (List.getElem?_eq_some_iff.mp ha).1

theorem put_put (s : State) (a : ℕ) (p q : Option Object) : (s.put a p).put a q = s.put a q := by
  unfold State.put
  rw [List.set_set]

theorem change_eq (hv : s.vars[v]? = some (some a)) (ha : s.heap[a]? = some (some o))
    (f : Object → Object) : s.change v f = .ok (s.put a (some (f o))) := by
  rw [State.change, deref_eq hv ha]
  rfl

theorem write_eq (hv : s.vars[v]? = some (some a)) (ha : s.heap[a]? = some (some o)) {i : ℕ}
    {source : List (Option Byte)} (hw : o.write i source = .ok o') :
    s.write v i source = .ok (s.put a (some o')) := by
  rw [State.write, deref_eq hv ha]
  change (o.write i source >>= _) = _
  rw [hw]
  rfl

end Memory

/-! ## Copies -/

section Copies

variable {s : State} {t : Texts} {v w a : ℕ} {o : Object} {text : List Byte}

/-- A string grows to the size it has by being given storage. -/
theorem Object.Keeps.grow_self (h : o.Keeps text) :
    (o.grow o.length).Keeps text ∧ (o.grow o.length).storage ≠ none := by
  obtain ⟨bytes, hbytes, -⟩ := o.grow_room o.length
  refine ⟨?_, by rw [hbytes]; exact Option.some_ne_none _⟩
  cases hs : o.storage with
  | none =>
    have hzero : o.length = 0 := by rw [h.length, h.unstored hs, List.length_nil]
    rw [hzero]
    exact h.grow_zero
  | some old =>
    obtain ⟨rest, hold⟩ := h.stored old hs
    have hroom : ¬ o.length + 1 > (o.storage.getD []).length := by
      rw [hs, Option.getD_some, hold, h.length]
      simp only [List.length_append, List.length_map, List.length_cons]
      omega
    have heq : o.grow o.length = o := if_neg hroom
    rw [heq]
    exact h

/-- What is not shared becomes a copy of what is stored, or of itself. -/
theorem copy_spec (h : Represents s t) (hv : s.vars[v]? = some (some a))
    (ha : s.heap[a]? = some (some o)) (hw : t[w]? = some (some text))
    (hstored : s.stored w = true ∨ w = v) :
    ∃ o', copyPcs v w s = .ok (s.put a (some o')) ∧ o'.refcount = o.refcount ∧
      o'.lurkers = o.lurkers ∧ o'.Keeps text := by
  obtain ⟨b, o₂, hwb, hb, hk⟩ := h.points hw
  have hlen := hk.length
  obtain ⟨o', hwrite, hr, hl, hkeeps⟩ := o.overwrite text
  refine ⟨o', ?_, hr, hl, hkeeps⟩
  -- the source, when the target has been given its length
  obtain ⟨p, hp, hpk, hps⟩ : ∃ p, (s.put a (some ((o.setLength o₂.length).grow o₂.length))).heap[b]? =
      some (some p) ∧ p.Keeps text ∧ p.storage ≠ none := by
    by_cases hab : a = b
    · subst hab
      cases ha.symm.trans hb
      exact ⟨_, put_get ha, hk.grow_self⟩
    · refine ⟨o₂, (List.getElem?_set_ne hab).trans hb, hk, ?_⟩
      rcases hstored with hstored | rfl
      · rw [stored_eq hwb hb] at hstored
        exact Option.isSome_iff_ne_none.mp hstored
      · cases hv.symm.trans hwb
        exact absurd rfl hab
  unfold copyPcs
  rw [deref_eq hwb hb]
  change (s.change v (fun o => (o.setLength o₂.length).grow o₂.length) >>= _) = _
  rw [change_eq hv ha]
  change ((s.put a (some ((o.setLength o₂.length).grow o₂.length))).deref w >>= _) = _
  rw [deref_eq (s := s.put a (some ((o.setLength o₂.length).grow o₂.length))) hwb hp]
  change (p.read (p.length + 1) >>= _) = _
  rw [hpk.read hps]
  change State.write _ v 0 _ = _
  rw [hlen, write_eq (s := s.put a _) hv (put_get ha) hwrite, put_put]

theorem new_stored (hw : s.stored w = true) : (guPcsNew s).stored w = true := by
  obtain ⟨b, o, hwb, hb, hs⟩ := stored_points hw
  obtain ⟨hwl, -⟩ := List.getElem?_eq_some_iff.mp hwb
  obtain ⟨hbl, -⟩ := List.getElem?_eq_some_iff.mp hb
  rw [stored_eq ((List.getElem?_append_left hwl).trans hwb)
    ((List.getElem?_append_left hbl).trans hb)]
  exact Option.isSome_iff_ne_none.mpr hs

/-- What a new variable is given by the functions that make strings. -/
structure Added (s s' : State) : Prop where
  vars : s'.vars = s.vars ++ [some s.heap.length]
  alone : ∃ o, s'.heap[s.heap.length]? = some (some o) ∧ o.refcount = 1
  stored : ∀ w, s.stored w = true → s'.stored w = true

theorem added_new (s : State) : Added s (guPcsNew s) :=
  ⟨rfl, ⟨{}, List.getElem?_concat_length, rfl⟩, fun _ => new_stored⟩

theorem newPcs_spec (h : Represents s t) (hw : t[w]? = some (some text)) (hs : s.stored w = true) :
    ∃ s', guPcsNewPcs w s = .ok s' ∧ Represents s' (t ++ [some text]) ∧ Added s s' := by
  have hnew := h.new
  obtain ⟨hwl, -⟩ := List.getElem?_eq_some_iff.mp hw
  have hv : (guPcsNew s).vars[s.vars.length]? = some (some s.heap.length) :=
    List.getElem?_concat_length
  have ha : (guPcsNew s).heap[s.heap.length]? = some (some {}) := List.getElem?_concat_length
  obtain ⟨o', hcopy, hr, hl, hk⟩ := copy_spec hnew hv ha
    ((List.getElem?_append_left hwl).trans hw) (Or.inl (new_stored hs))
  refine ⟨_, hcopy, ?_, rfl, ⟨o', put_get ha, hr⟩, fun u hu => ?_⟩
  · have hrep := hnew.replace hv ha le_rfl hr hl hk
    rwa [h.length, List.set_append_right _ _ le_rfl, Nat.sub_self] at hrep
  · obtain ⟨b, p, hub, hb, hp⟩ := stored_points hu
    obtain ⟨hul, -⟩ := List.getElem?_eq_some_iff.mp hub
    obtain ⟨hbl, -⟩ := List.getElem?_eq_some_iff.mp hb
    have hub' : ((guPcsNew s).put s.heap.length (some o')).vars[u]? = some (some b) :=
      (List.getElem?_append_left hul).trans hub
    have hb' : ((guPcsNew s).put s.heap.length (some o')).heap[b]? = some (some p) :=
      ((List.getElem?_set_ne hbl.ne').trans (List.getElem?_append_left hbl)).trans hb
    rw [stored_eq hub' hb']
    exact Option.isSome_iff_ne_none.mpr hp

/-- The other variables keep what they point to when one gives it up. -/
theorem free_spec (h : Represents s t) (hv : t[v]? = some (some text)) :
    ∃ s', guPcsFree v s = .ok s' ∧ Represents s' (t.set v none) ∧ s'.vars = s.vars.set v none ∧
      s'.heap.length = s.heap.length ∧
      (∀ b, s.vars[v]? ≠ some (some b) → s'.heap[b]? = s.heap[b]?) ∧
      ∀ w, w ≠ v → s.stored w = true → s'.stored w = true := by
  obtain ⟨a, o, hva, ha, hk⟩ := h.points hv
  obtain ⟨hcount, hpos⟩ := h.counted a o ha
  refine ⟨_, by rw [guPcsFree, deref_eq hva ha]; rfl,
    @Represents.drop s t v a o { o with refcount := o.refcount - 1 } h hva ha (by dsimp only; omega)
      (fun x hx => hx.recount _ _), rfl, List.length_set, fun b hb => ?_, fun w hne hw => ?_⟩
  · exact List.getElem?_set_ne fun hab : a = b => hb (hab ▸ hva)
  · obtain ⟨b, p, hwb, hb, hp⟩ := stored_points hw
    have hwb' : (s.vars.set v none)[w]? = some (some b) :=
      (List.getElem?_set_ne (Ne.symm hne)).trans hwb
    by_cases hab : a = b
    · subst hab
      cases ha.symm.trans hb
      have hmany : ¬ o.refcount - 1 = o.lurkers := fun hlast =>
        hne (index_unique (by omega) hwb hva)
      obtain ⟨hal, -⟩ := List.getElem?_eq_some_iff.mp ha
      rw [stored_eq hwb' (List.getElem?_set_self hal |>.trans (by rw [if_neg hmany]))]
      exact Option.isSome_iff_ne_none.mpr hp
    · rw [stored_eq hwb' ((List.getElem?_set_ne hab).trans hb)]
      exact Option.isSome_iff_ne_none.mpr hp

/-- The variable points to an object that is not shared. -/
def Alone (s : State) (v : ℕ) : Prop :=
  ∃ a o, s.vars[v]? = some (some a) ∧ s.heap[a]? = some (some o) ∧ o.refcount ≤ 1

theorem alone_of_not_shared (h : Represents s t) (hv : t[v]? = some (some text))
    (hs : s.shared v = false) : Alone s v := by
  obtain ⟨a, o, hva, ha, -⟩ := h.points hv
  rw [shared_eq hva ha, decide_eq_false_iff_not, not_lt] at hs
  exact ⟨a, o, hva, ha, hs⟩

theorem adopt_vars {vs : List (Option ℕ)} {q : Option ℕ} (hs : s.vars = vs ++ [q]) :
    (s.adopt v).vars = vs.set v q := by
  change s.vars.dropLast.set v (s.vars.getLast?.getD none) = _
  rw [hs, List.dropLast_concat, List.getLast?_concat]
  rfl

theorem adopt_alone {vs : List (Option ℕ)} (hs : s.vars = vs ++ [some a])
    (ha : s.heap[a]? = some (some o)) (ho : o.refcount ≤ 1) (hv : v < vs.length) :
    Alone (s.adopt v) v :=
  ⟨a, o, by rw [adopt_vars hs, List.getElem?_set_self hv], ha, ho⟩

theorem adopt_stored {vs : List (Option ℕ)} {q : Option ℕ} (hs : s.vars = vs ++ [q]) (hne : w ≠ v)
    (hw : w < vs.length) (h : s.stored w = true) : (s.adopt v).stored w = true := by
  obtain ⟨b, p, hwb, hb, hp⟩ := stored_points h
  rw [hs, List.getElem?_append_left hw] at hwb
  have hwb' : (s.adopt v).vars[w]? = some (some b) := by
    rw [adopt_vars hs, List.getElem?_set_ne (Ne.symm hne), hwb]
  rw [stored_eq hwb' hb]
  exact Option.isSome_iff_ne_none.mpr hp

/-- A variable gives up its object and is given the one that is added then. -/
theorem exchange {s₁ s₂ : State} {x : List Byte} (h : Represents s₁ (t.set v none))
    (hvars : s₁.vars[v]? = some none) (hv : v < t.length) (hadd : Added s₁ s₂)
    (h₂ : Represents s₂ (t.set v none ++ [some x])) :
    Represents (s₂.adopt v) (t.set v (some x)) ∧ Alone (s₂.adopt v) v := by
  have hlen := h.length
  rw [List.length_set] at hlen
  have hvl : v < s₁.vars.length := hlen ▸ hv
  obtain ⟨o, ho, hr⟩ := hadd.alone
  constructor
  · have hnull : s₂.vars[v]? = some none := by
      rw [hadd.vars, List.getElem?_append_left hvl, hvars]
    have hrep := h₂.adopt hnull (by rwa [List.length_set])
    rwa [List.set_set] at hrep
  · exact adopt_alone hadd.vars ho hr.le hvl

/-- A variable that is going to be changed has the string for itself. -/
theorem unshare_spec (h : Represents s t) (hv : t[v]? = some (some text))
    (hs : s.shared v = true → s.stored v = true) :
    ∃ s', unshare v s = .ok s' ∧ Represents s' t ∧ Alone s' v ∧
      ∀ w, w ≠ v → s.stored w = true → s'.stored w = true := by
  obtain ⟨a, o, hva, ha, hk⟩ := h.points hv
  obtain ⟨hvl, hvt⟩ := List.getElem?_eq_some_iff.mp hv
  have hshared := shared_eq hva ha
  unfold unshare
  rw [deref_eq hva ha]
  by_cases hmany : o.refcount > 1
  · rw [decide_eq_true hmany] at hshared
    obtain ⟨s₁, hnew, hrep₁, hadd⟩ := newPcs_spec h hv (hs hshared)
    have hv₁ : (t ++ [some text])[v]? = some (some text) :=
      (List.getElem?_append_left hvl).trans hv
    obtain ⟨s₂, hfree, hrep₂, hvars₂, hlen₂, hheap₂, hstored₂⟩ := free_spec hrep₁ hv₁
    have hvl' : v < s.vars.length := h.length ▸ hvl
    have hset : s₂.vars = s.vars.set v none ++ [some s.heap.length] := by
      rw [hvars₂, hadd.vars, List.set_append_left _ _ hvl']
    refine ⟨s₂.adopt v, ?_, ?_, ?_, fun w hne hw => ?_⟩
    · change (if o.refcount > 1 then _ else _) = _
      rw [if_pos hmany, hnew]
      change (guPcsFree v s₁ >>= _) = _
      rw [hfree]
      rfl
    · have hnull : s₂.vars[v]? = some none := by
        rw [hset, List.getElem?_append_left (by rwa [List.length_set]), List.getElem?_set_self hvl']
      rw [List.set_append_left _ _ hvl] at hrep₂
      have hrep := hrep₂.adopt hnull (by rwa [List.length_set])
      rwa [List.set_set, ← hvt, List.set_getElem_self] at hrep
    · obtain ⟨p, hp, hr⟩ := hadd.alone
      have hne : s₁.vars[v]? ≠ some (some s.heap.length) := by
        rw [hadd.vars, List.getElem?_append_left hvl', hva]
        rintro heq
        cases heq
        exact lt_irrefl _ (List.getElem?_eq_some_iff.mp ha).1
      exact adopt_alone hset ((hheap₂ _ hne).trans hp) hr.le (by rwa [List.length_set])
    · have hwl : w < s.vars.length := by
        obtain ⟨b, p, hwb, -⟩ := stored_points hw
        exact (List.getElem?_eq_some_iff.mp hwb).1
      exact adopt_stored hset hne (by rwa [List.length_set]) (hstored₂ w hne (hadd.stored w hw))
  · rw [decide_eq_false hmany] at hshared
    refine ⟨s, if_neg hmany, h, alone_of_not_shared h hv hshared, fun w _ hw => hw⟩

theorem renew_spec (h : Represents s t) (hv : t[v]? = some (some text)) :
    ∃ s' x, renew v s = .ok s' ∧ Represents s' (t.set v (some x)) ∧ Alone s' v := by
  obtain ⟨a, o, hva, ha, hk⟩ := h.points hv
  obtain ⟨hvl, hvt⟩ := List.getElem?_eq_some_iff.mp hv
  have hshared := shared_eq hva ha
  unfold renew
  rw [deref_eq hva ha]
  by_cases hmany : o.refcount > 1
  · obtain ⟨s₁, hfree, hrep₁, hvars₁, -⟩ := free_spec h hv
    have hnull : s₁.vars[v]? = some none := by
      rw [hvars₁, List.getElem?_set_self (h.length ▸ hvl)]
    obtain ⟨hrep, halone⟩ := exchange hrep₁ hnull hvl (added_new s₁) hrep₁.new
    refine ⟨_, [], ?_, hrep, halone⟩
    change (if o.refcount > 1 then _ else _) = _
    rw [if_pos hmany, hfree]
    rfl
  · rw [decide_eq_false hmany] at hshared
    refine ⟨s, text, if_neg hmany, ?_, alone_of_not_shared h hv hshared⟩
    rwa [← hvt, List.set_getElem_self]

end Copies

end Ppr.Pcs
