import Ppr.Libgu.PcsCopied

/-!
# What is done to Perl Compatible Strings

The meaning of each operation on the texts, when the code does what is meant, and runs of operations.
-/

namespace Ppr.Pcs

/-! ## Writing -/

section Objects

variable {o : Object} {text : List Byte}

theorem Object.write_eq {bytes source : List (Option Byte)} (hs : o.storage = some bytes) {i : ℕ}
    (hfit : i + source.length ≤ bytes.length) : o.write i source =
      .ok { o with storage := some (bytes.take i ++ source ++ bytes.drop (i + source.length)) } := by
  unfold Object.write
  rw [hs]
  exact if_pos hfit

/-- Writing one thing behind another is writing both. -/
theorem Object.write_split {i : ℕ} {x y : List (Option Byte)} {o₂ : Object}
    (h : o.write i (x ++ y) = .ok o₂) :
    ∃ o₁, o.write i x = .ok o₁ ∧ o₁.write (i + x.length) y = .ok o₂ := by
  unfold Object.write at h ⊢
  cases hs : o.storage with
  | none =>
    rw [hs] at h
    cases h
  | some bytes =>
    rw [hs] at h
    dsimp only at h ⊢
    rw [List.length_append] at h
    by_cases hfit : i + (x.length + y.length) ≤ bytes.length
    · rw [if_pos hfit] at h
      cases h
      rw [if_pos (by omega)]
      refine ⟨_, rfl, ?_⟩
      dsimp only
      have hlen : (bytes.take i).length = i := List.length_take_of_le (by omega)
      have hfront : (bytes.take i ++ x).length = i + x.length := by rw [List.length_append, hlen]
      rw [if_pos (by rw [List.length_append, hfront, List.length_drop]; omega),
        List.take_left' hfront, List.drop_append, hfront, Nat.add_sub_cancel_left,
        List.drop_eq_nil_of_le (by rw [hfront]; omega), List.nil_append, List.drop_drop,
        List.append_assoc _ x y, Nat.add_assoc]
    · rw [if_neg hfit] at h
      cases h

theorem Object.Keeps.truncate (h : o.Keeps text) (hs : o.storage ≠ none) {n : ℕ}
    (hn : n ≤ text.length) : ∃ o', (o.setLength n).write n [some 0] = .ok o' ∧
      o'.refcount = o.refcount ∧ o'.lurkers = o.lurkers ∧ o'.Keeps (text.take n) := by
  obtain ⟨bytes, hbytes⟩ := Option.ne_none_iff_exists'.mp hs
  obtain ⟨rest, rfl⟩ := h.stored bytes hbytes
  rw [Object.write_eq (o := o.setLength n) hbytes (by
    simp only [List.length_append, List.length_map, List.length_cons, List.length_nil]
    omega)]
  refine ⟨_, rfl, rfl, rfl, ?_, nofun, ?_⟩
  · exact (List.length_take_of_le hn).symm
  · rintro _ hsome
    cases hsome
    refine ⟨(text.map some ++ some 0 :: rest).drop (n + 1), ?_⟩
    rw [List.take_append_of_le_length (by rwa [List.length_map]), List.map_take, List.append_assoc]
    rfl

theorem Object.Keeps.edit (h : o.Keeps text) (hs : o.storage ≠ none) {i : ℕ}
    (hi : i < text.length) (c : Byte) : ∃ o', o.write i [some c] = .ok o' ∧
      o'.refcount = o.refcount ∧ o'.lurkers = o.lurkers ∧ o'.Keeps (text.set i c) := by
  obtain ⟨bytes, hbytes⟩ := Option.ne_none_iff_exists'.mp hs
  obtain ⟨rest, rfl⟩ := h.stored bytes hbytes
  rw [Object.write_eq hbytes (by
    simp only [List.length_append, List.length_map, List.length_cons, List.length_nil]
    omega)]
  refine ⟨_, rfl, rfl, rfl, ?_, nofun, ?_⟩
  · rw [List.length_set]
    exact h.length
  · rintro _ hsome
    cases hsome
    have hi' : i < (text.map some).length := by rwa [List.length_map]
    refine ⟨rest, ?_⟩
    have hdrop : (text.map some ++ some 0 :: rest).drop (i + [some c].length) =
        (text.map some).drop (i + 1) ++ some 0 :: rest := List.drop_append_of_le_length hi'
    rw [List.take_append_of_le_length hi'.le, hdrop, List.append_assoc,
      List.map_set, List.set_eq_take_append_cons_drop, if_pos hi', List.append_assoc]
    rfl

end Objects

/-! ## What the operations mean -/

def Texts.text (t : Texts) (v : ℕ) : List Byte := (t[v]?.getD none).getD []

/-- What is meant to become of the texts; a value that is returned goes to a new variable. -/
def Op.meaning (t : Texts) : Op → Texts
  | .new => t ++ [some []]
  | .newCstr cstr => t ++ [some cstr]
  | .newPcs w | .snapshot w => t ++ [some (t.text w)]
  | .free v | .freeKeepCstr v => t.set v none
  | .setCstr v cstr => t.set v (some cstr)
  | .setPcs v w => t.set v (some (t.text w))
  | .appendChar v c => t.set v (some (t.text v ++ [c]))
  | .appendCstr v cstr => t.set v (some (t.text v ++ cstr))
  | .appendPcs v w => t.set v (some (t.text v ++ t.text w))
  | .truncate v newlen => t.set v (some ((t.text v).take newlen))
  | .getCstr _ => t
  | .edit v i c => t.set v (some ((t.text v).set i c))

/-- The variable does not hold NULL. -/
def Texts.Held (t : Texts) (v : ℕ) : Prop := t[v]? = some (some (t.text v))

/-- The caller passes variables that do not hold NULL, and replaces characters of the text. -/
def Op.Proper (t : Texts) : Op → Prop
  | .new | .newCstr _ => True
  | .newPcs w | .snapshot w => t.Held w
  | .free v | .freeKeepCstr v | .setCstr v _ | .appendChar v _ | .appendCstr v _ | .truncate v _
  | .getCstr v => t.Held v
  | .setPcs v w | .appendPcs v w => t.Held v ∧ t.Held w
  | .edit v i _ => t.Held v ∧ i < (t.text v).length

/-- What the code needs: that a string which is copied has storage, that one which is shared is not set
from itself, and that one which is not empty is not appended to itself. -/
def Op.Sound (s : State) : Op → Prop
  | .newPcs w => s.stored w = true
  | .setPcs v w => if v = w then s.shared v = false else s.stored w = true
  | .appendChar v _ | .appendCstr v _ | .edit v _ _ => s.shared v = true → s.stored v = true
  | .appendPcs v w => (s.shared v = true → s.stored v = true) ∧
      if v = w then ∃ a o, s.deref v = .ok (a, o) ∧ o.length = 0 else s.stored w = true
  | _ => True

/-! ## What they do -/

section Ops

variable {s : State} {t : Texts} {v w : ℕ} {x : List Byte}

/-- The string that is the variable's own is replaced by what is made of it. -/
theorem Represents.revise (h : Represents s t) (halone : Alone s v) (hv : t[v]? = some (some x))
    {r : Except Fault State} {y : List Byte}
    (hf : ∀ a o, s.vars[v]? = some (some a) → s.heap[a]? = some (some o) → o.Keeps x →
      ∃ o', r = .ok (s.put a (some o')) ∧ o'.refcount = o.refcount ∧ o'.lurkers = o.lurkers ∧
        o'.Keeps y) :
    ∃ s', r = .ok s' ∧ Represents s' (t.set v (some y)) := by
  obtain ⟨a, o, hva, ha, hown⟩ := halone
  obtain ⟨b, p, hvb, hb, hk⟩ := h.points hv
  cases hva.symm.trans hvb
  cases ha.symm.trans hb
  obtain ⟨o', hdo, hr, hl, hk'⟩ := hf a o hva ha hk
  exact ⟨_, hdo, h.replace hva ha hown hr hl hk'⟩

theorem setCstr_spec (h : Represents s t) (hv : t[v]? = some (some x)) (cstr : List Byte) :
    ∃ s', guPcsSetCstr v cstr s = .ok s' ∧ Represents s' (t.set v (some cstr)) := by
  obtain ⟨s₁, y, hrenew, hrep, halone⟩ := renew_spec h hv
  have hvl := (List.getElem?_eq_some_iff.mp hv).1
  obtain ⟨s₂, hdo, hrep₂⟩ := hrep.revise halone (List.getElem?_set_self hvl) (y := cstr)
    (r := do
      let s ← s₁.change v fun o => (o.setLength cstr.length).grow cstr.length
      s.write v 0 (cstr.map some ++ [some 0])) <| by
    intro a o hva ha hk
    obtain ⟨o', hwrite, hkeeps⟩ := o.overwrite cstr
    refine ⟨o', ?_, hkeeps⟩
    rw [change_eq hva ha]
    change State.write _ v 0 _ = _
    rw [write_eq (s := s₁.put a _) hva (put_get ha) hwrite, put_put]
  rw [List.set_set] at hrep₂
  refine ⟨s₂, ?_, hrep₂⟩
  rw [guPcsSetCstr, hrenew]
  exact hdo

theorem newCstr_spec (h : Represents s t) (cstr : List Byte) :
    ∃ s', guPcsNewCstr cstr s = .ok s' ∧ Represents s' (t ++ [some cstr]) := by
  have hv : (t ++ [some []])[s.vars.length]? = some (some []) := by
    rw [h.length, List.getElem?_concat_length]
  obtain ⟨s', hdo, hrep⟩ := setCstr_spec h.new hv cstr
  refine ⟨s', hdo, ?_⟩
  rwa [h.length, List.set_append_right _ _ le_rfl, Nat.sub_self] at hrep

theorem setPcs_spec (h : Represents s t) {y : List Byte} (hv : t[v]? = some (some x))
    (hw : t[w]? = some (some y)) (hs : if v = w then s.shared v = false else s.stored w = true) :
    ∃ s', guPcsSetPcs v w s = .ok s' ∧ Represents s' (t.set v (some y)) := by
  obtain ⟨a, o, hva, ha, hk⟩ := h.points hv
  obtain ⟨b, o₂, hwb, hb, -⟩ := h.points hw
  have hvl := (List.getElem?_eq_some_iff.mp hv).1
  have hdo : guPcsSetPcs v w s = if o.refcount > 1 then do
      let s ← guPcsFree v s
      let s ← guPcsNewPcs w s
      return s.adopt v
    else copyPcs v w s := by
    rw [guPcsSetPcs, deref_eq hva ha]
    change (s.deref w >>= _) = _
    rw [deref_eq hwb hb]
    rfl
  by_cases hmany : o.refcount > 1
  · -- the variable gives up the shared object
    have hne : w ≠ v := by
      rintro rfl
      rw [if_pos rfl, shared_eq hva ha, decide_eq_true hmany] at hs
      cases hs
    rw [if_neg (Ne.symm hne)] at hs
    obtain ⟨s₁, hfree, hrep₁, hvars₁, -, -, hstored₁⟩ := free_spec h hv
    have hw₁ : (t.set v none)[w]? = some (some y) := (List.getElem?_set_ne (Ne.symm hne)).trans hw
    obtain ⟨s₂, hnew, hrep₂, hadd⟩ := newPcs_spec hrep₁ hw₁ (hstored₁ w hne hs)
    have hnull : s₁.vars[v]? = some none := by
      rw [hvars₁, List.getElem?_set_self (h.length ▸ hvl)]
    refine ⟨s₂.adopt v, ?_, (exchange hrep₁ hnull hvl hadd hrep₂).1⟩
    rw [hdo, if_pos hmany, hfree]
    change (guPcsNewPcs w s₁ >>= _) = _
    rw [hnew]
    rfl
  · have hstored : s.stored w = true ∨ w = v := by
      by_cases hne : v = w
      · exact Or.inr hne.symm
      · rw [if_neg hne] at hs
        exact Or.inl hs
    obtain ⟨o', hcopy, hr, hl, hk'⟩ := copy_spec h hva ha hw hstored
    refine ⟨_, ?_, h.replace hva ha (not_lt.mp hmany) hr hl hk'⟩
    rw [hdo, if_neg hmany, hcopy]

theorem appendChar_spec (h : Represents s t) (hv : t[v]? = some (some x))
    (hs : s.shared v = true → s.stored v = true) (c : Byte) :
    ∃ s', guPcsAppendChar v c s = .ok s' ∧ Represents s' (t.set v (some (x ++ [c]))) := by
  obtain ⟨s₁, hun, hrep, halone, -⟩ := unshare_spec h hv hs
  unfold guPcsAppendChar
  rw [hun]
  refine hrep.revise halone hv ?_
  intro a o hva ha hk
  have hlen := hk.length
  obtain ⟨o₂, hwrite, hr, hl, hk'⟩ := hk.append (n := o.length + 1) (x := [c])
    (by rw [hlen, List.length_singleton])
  obtain ⟨o₁, hfirst, hsecond⟩ := Object.write_split (x := [some c]) (y := [some 0]) hwrite
  rw [List.length_singleton] at hsecond
  refine ⟨o₂.setLength (x.length + 1), ?_, hr, hl, hk'⟩
  change (s₁.deref v >>= _) = _
  rw [deref_eq hva ha]
  change (s₁.change v (Object.grow (o.length + 1)) >>= _) = _
  rw [change_eq hva ha]
  change (State.write _ v o.length [some c] >>= _) = _
  rw [hlen, write_eq (s := s₁.put a _) hva (put_get ha) (hlen ▸ hfirst), put_put]
  change (State.write _ v (x.length + 1) [some 0] >>= _) = _
  rw [write_eq (s := s₁.put a _) hva (put_get ha) hsecond, put_put]
  change State.change _ v _ = _
  rw [change_eq (s := s₁.put a _) hva (put_get ha), put_put]

theorem appendCstr_spec (h : Represents s t) (hv : t[v]? = some (some x))
    (hs : s.shared v = true → s.stored v = true) (cstr : List Byte) :
    ∃ s', guPcsAppendCstr v cstr s = .ok s' ∧ Represents s' (t.set v (some (x ++ cstr))) := by
  obtain ⟨s₁, hun, hrep, halone, -⟩ := unshare_spec h hv hs
  unfold guPcsAppendCstr
  rw [hun]
  refine hrep.revise halone hv ?_
  intro a o hva ha hk
  have hlen := hk.length
  obtain ⟨o', hwrite, hr, hl, hk'⟩ := hk.append (n := o.length + cstr.length) (x := cstr)
    (by rw [hlen])
  refine ⟨o'.setLength (x.length + cstr.length), ?_, hr, hl, hk'⟩
  change (s₁.deref v >>= _) = _
  rw [deref_eq hva ha]
  change (s₁.change v (Object.grow (o.length + cstr.length)) >>= _) = _
  rw [change_eq hva ha]
  change (State.write _ v o.length _ >>= _) = _
  rw [hlen, write_eq (s := s₁.put a _) hva (put_get ha) (hlen ▸ hwrite), put_put]
  change State.change _ v _ = _
  rw [change_eq (s := s₁.put a _) hva (put_get ha), put_put]

theorem appendPcs_spec (h : Represents s t) {y : List Byte} (hv : t[v]? = some (some x))
    (hw : t[w]? = some (some y)) (hs : s.shared v = true → s.stored v = true)
    (hsource : if v = w then ∃ a o, s.deref v = .ok (a, o) ∧ o.length = 0 else s.stored w = true) :
    ∃ s', guPcsAppendPcs v w s = .ok s' ∧ Represents s' (t.set v (some (x ++ y))) := by
  obtain ⟨s₁, hun, hrep, halone, hstored⟩ := unshare_spec h hv hs
  unfold guPcsAppendPcs
  rw [hun]
  refine hrep.revise halone hv ?_
  intro a o hva ha hk
  obtain ⟨b, o₂, hwb, hb, hk₂⟩ := hrep.points hw
  have hlen := hk.length
  have hlen₂ := hk₂.length
  -- the string itself is appended only when there is nothing in it
  have hself : v = w → x = [] := by
    rintro rfl
    rw [if_pos rfl] at hsource
    obtain ⟨b, p, hd, hp⟩ := hsource
    obtain ⟨b', p', hvb, hb', hk'⟩ := h.points hv
    rw [deref_eq hvb hb'] at hd
    cases hd
    exact List.length_eq_zero_iff.mp (hk'.length.symm.trans hp)
  have hover : ¬ (a = b ∧ o.length ≠ 0) := by
    rintro ⟨rfl, hne⟩
    have halone' : o.refcount ≤ 1 := by
      obtain ⟨a', p, hva', ha', hp⟩ := halone
      cases hva.symm.trans hva'
      cases ha.symm.trans ha'
      exact hp
    obtain ⟨hcount, -⟩ := hrep.counted a o ha
    have hvw : v = w := index_unique (by omega) hva hwb
    exact hne (hlen.trans (by rw [hself hvw, List.length_nil]))
  obtain ⟨p, hp, hpk, hps⟩ : ∃ p, (s₁.put a (some (o.grow (o.length + o₂.length)))).heap[b]? =
      some (some p) ∧ p.Keeps y ∧ p.storage ≠ none := by
    by_cases hab : a = b
    · subst hab
      cases ha.symm.trans hb
      have hzero : o.length = 0 := by
        by_contra hne
        exact hover ⟨rfl, hne⟩
      have hgrow := hk₂.grow_self
      rw [hzero] at hgrow ⊢
      exact ⟨_, put_get ha, hgrow⟩
    · have hne : w ≠ v := by
        rintro rfl
        cases hva.symm.trans hwb
        exact hab rfl
      rw [if_neg (Ne.symm hne)] at hsource
      have hst := hstored w hne hsource
      rw [stored_eq hwb hb] at hst
      exact ⟨o₂, (List.getElem?_set_ne hab).trans hb, hk₂, Option.isSome_iff_ne_none.mp hst⟩
  obtain ⟨o', hwrite, hr, hl, hk'⟩ := hk.append (n := o.length + o₂.length) (x := y)
    (by rw [hlen, hlen₂])
  refine ⟨o'.setLength (x.length + y.length), ?_, hr, hl, hk'⟩
  change (s₁.deref v >>= _) = _
  rw [deref_eq hva ha]
  change (s₁.deref w >>= _) = _
  rw [deref_eq hwb hb]
  change (s₁.change v (Object.grow (o.length + o₂.length)) >>= _) = _
  rw [change_eq hva ha]
  change ((s₁.put a (some (o.grow (o.length + o₂.length)))).deref w >>= _) = _
  rw [deref_eq (s := s₁.put a (some (o.grow (o.length + o₂.length)))) hwb hp]
  change (p.read (p.length + 1) >>= _) = _
  rw [hpk.read hps]
  change (if a = b ∧ o.length ≠ 0 then _ else _) = _
  rw [if_neg hover]
  rw [hlen, hlen₂, write_eq (s := s₁.put a _) hva (put_get ha) (hlen ▸ hlen₂ ▸ hwrite), put_put]
  change State.change _ v _ = _
  rw [change_eq (s := s₁.put a _) hva (put_get ha), put_put]

theorem truncate_spec (h : Represents s t) (hv : t[v]? = some (some x)) (n : ℕ) :
    ∃ s', guPcsTruncate v n s = .ok s' ∧ Represents s' (t.set v (some (x.take n))) := by
  obtain ⟨a, o, hva, ha, hk⟩ := h.points hv
  have hlen := hk.length
  obtain ⟨hvl, hvt⟩ := List.getElem?_eq_some_iff.mp hv
  unfold guPcsTruncate
  rw [deref_eq hva ha]
  by_cases hn : n < o.length
  · -- there is something to cut off, so it is stored
    have hfull : ∀ p : Object, p.Keeps x → p.storage ≠ none := by
      intro p hp hnone
      rw [hlen, hp.unstored hnone] at hn
      exact absurd hn (Nat.not_lt_zero n)
    obtain ⟨s₁, hun, hrep, halone, -⟩ := unshare_spec h hv fun _ => by
      rw [stored_eq hva ha]
      exact Option.isSome_iff_ne_none.mpr (hfull o hk)
    obtain ⟨s₂, hdo, hrep₂⟩ := hrep.revise halone hv (y := x.take n) (r := do
      let s ← s₁.change v (Object.setLength n)
      s.write v n [some 0]) <| by
      intro a o hva ha hk
      obtain ⟨o', hwrite, hkeeps⟩ := hk.truncate (hfull o hk) (hlen ▸ hn).le
      refine ⟨o', ?_, hkeeps⟩
      rw [change_eq hva ha]
      change State.write _ v n _ = _
      rw [write_eq (s := s₁.put a _) hva (put_get ha) hwrite, put_put]
    refine ⟨s₂, ?_, hrep₂⟩
    change (if n < o.length then _ else _) = _
    rw [if_pos hn, hun]
    exact hdo
  · refine ⟨s, if_neg hn, ?_⟩
    rw [List.take_of_length_le (hlen ▸ not_lt.mp hn)]
    rwa [← hvt, List.set_getElem_self]

theorem getCstr_spec (h : Represents s t) (hv : t[v]? = some (some x)) :
    ∃ s', guPcsGetCstr v s = .ok s' ∧ Represents s' t := by
  obtain ⟨a, o, hva, ha, hk⟩ := h.points hv
  refine ⟨_, change_eq hva ha _, ?_⟩
  exact h.refresh ha (o.grow_refcount 0) (o.grow_lurkers 0) fun _ hx => hx.grow_zero

theorem edit_spec (h : Represents s t) (hv : t[v]? = some (some x))
    (hs : s.shared v = true → s.stored v = true) {i : ℕ} (hi : i < x.length) (c : Byte) :
    ∃ s', step s (.edit v i c) = .ok s' ∧ Represents s' (t.set v (some (x.set i c))) := by
  obtain ⟨s₁, hun, hrep, halone, -⟩ := unshare_spec h hv hs
  obtain ⟨s₂, hdo, hrep₂⟩ := hrep.revise halone hv (y := x.set i c) (r := do
    let s ← s₁.change v (Object.grow 0)
    s.write v i [some c]) <| by
    intro a o hva ha hk
    obtain ⟨bytes, hbytes, -⟩ := o.grow_room 0
    obtain ⟨o', hwrite, hr, hl, hkeeps⟩ :=
      hk.grow_zero.edit (by rw [hbytes]; exact Option.some_ne_none _) hi c
    refine ⟨o', ?_, hr.trans (o.grow_refcount 0), hl.trans (o.grow_lurkers 0), hkeeps⟩
    rw [change_eq hva ha]
    change State.write _ v i _ = _
    rw [write_eq (s := s₁.put a _) hva (put_get ha) hwrite, put_put]
  refine ⟨s₂, ?_, hrep₂⟩
  change (guPcsGetEditableCstr v s >>= _) = _
  rw [guPcsGetEditableCstr, hun]
  exact hdo

theorem freeKeepCstr_spec (h : Represents s t) (hv : t[v]? = some (some x)) :
    ∃ s', guPcsFreeKeepCstr v s = .ok s' ∧ Represents s' (t.set v none) := by
  obtain ⟨a, o, hva, ha, hk⟩ := h.points hv
  have hgrow := h.refresh ha (o.grow_refcount 0) (o.grow_lurkers 0) fun _ hx => hx.grow_zero
  have ha₁ : (s.put a (some (o.grow 0))).heap[a]? = some (some (o.grow 0)) := put_get ha
  refine ⟨_, ?_, @Represents.drop _ t v a (o.grow 0)
    { o.grow 0 with lurkers := (o.grow 0).lurkers + 1 } hgrow hva ha₁ (by dsimp only; omega)
    (fun x hx => hx.recount _ _)⟩
  rw [guPcsFreeKeepCstr, change_eq hva ha]
  change ((s.put a (some (o.grow 0))).deref v >>= _) = _
  rw [deref_eq (s := s.put a (some (o.grow 0))) hva ha₁]
  rfl

/-- Each operation does what it means. -/
theorem step_spec (h : Represents s t) {op : Op} (hp : op.Proper t) (hs : op.Sound s) :
    ∃ s', step s op = .ok s' ∧ Represents s' (op.meaning t) := by
  cases op with
  | new => exact ⟨_, rfl, h.new⟩
  | newCstr cstr => exact newCstr_spec h cstr
  | newPcs w =>
    obtain ⟨s', hdo, hrep, -⟩ := newPcs_spec h hp hs
    exact ⟨s', hdo, hrep⟩
  | snapshot w => exact h.snapshot hp
  | free v =>
    obtain ⟨s', hdo, hrep, -⟩ := free_spec h hp
    exact ⟨s', hdo, hrep⟩
  | freeKeepCstr v => exact freeKeepCstr_spec h hp
  | setCstr v cstr => exact setCstr_spec h hp cstr
  | setPcs v w => exact setPcs_spec h hp.1 hp.2 hs
  | appendChar v c => exact appendChar_spec h hp hs c
  | appendCstr v cstr => exact appendCstr_spec h hp hs cstr
  | appendPcs v w => exact appendPcs_spec h hp.1 hp.2 hs.1 hs.2
  | truncate v newlen => exact truncate_spec h hp newlen
  | getCstr v => exact getCstr_spec h hp
  | edit v i c => exact edit_spec h hp.1 hs hp.2 c

end Ops

/-! ## Runs -/

/-- Every operation of a sequence is used properly. -/
def ProperAll : Texts → List Op → Prop
  | _, [] => True
  | t, op :: ops => op.Proper t ∧ ProperAll (op.meaning t) ops

/-- The code has what it needs for every operation. -/
def SoundAll : State → List Op → Prop
  | _, [] => True
  | s, op :: ops => op.Sound s ∧ ∀ s', step s op = .ok s' → SoundAll s' ops

/-- What `gu_pcs_length()` and `gu_pcs_get_cstr()` show. -/
def Shows (s : State) (t : Texts) : Prop :=
  ∀ (v : ℕ) (x : List Byte), t[v]? = some (some x) → ∃ a o, s.deref v = .ok (a, o) ∧
    o.length = x.length ∧ (o.grow 0).read (x.length + 1) = .ok (x.map some ++ [some 0])

theorem Represents.shows {s : State} {t : Texts} (h : Represents s t) : Shows s t := by
  intro v x hv
  obtain ⟨a, o, hva, ha, hk⟩ := h.points hv
  obtain ⟨bytes, hbytes, -⟩ := o.grow_room 0
  refine ⟨a, o, deref_eq hva ha, hk.length, ?_⟩
  have hread := hk.grow_zero.read (by rw [hbytes]; exact Option.some_ne_none _)
  rwa [hk.grow_zero.length] at hread

theorem run_spec {ops : List Op} {s : State} {t : Texts} (h : Represents s t)
    (hp : ProperAll t ops) (hs : SoundAll s ops) :
    ∃ s', ops.foldlM step s = .ok s' ∧ Represents s' (ops.foldl Op.meaning t) := by
  induction ops generalizing s t with
  | nil => exact ⟨s, rfl, h⟩
  | cons op ops ih =>
    obtain ⟨s₁, hdo, hrep⟩ := step_spec h hp.1 hs.1
    obtain ⟨s₂, hrun, hrep₂⟩ := ih hrep hp.2 (hs.2 s₁ hdo)
    refine ⟨s₂, ?_, hrep₂⟩
    rw [List.foldlM_cons, hdo]
    exact hrun

/-- As long as no string that has no storage is copied, no string that is not empty is appended to itself
and no string that is shared is set from itself, every string has the text that only the operations on
it made. -/
theorem values_of_sound {ops : List Op} (hp : ProperAll [] ops) (hs : SoundAll {} ops) :
    ∃ s, ops.foldlM step {} = .ok s ∧ Shows s (ops.foldl Op.meaning []) := by
  obtain ⟨s, hrun, hrep⟩ := run_spec represents_nil hp hs
  exact ⟨s, hrun, hrep.shows⟩

/-- A snapshot is taken of a string, which is added to after that. -/
theorem values_of_sound_snapshot :
    ∃ s, [Op.newCstr [104, 105], .snapshot 0, .appendChar 0 33].foldlM step {} = .ok s ∧
      Shows s [some [104, 105, 33], some [104, 105]] := by
  have hp : ProperAll [] [.newCstr [104, 105], .snapshot 0, .appendChar 0 33] :=
    ⟨trivial, rfl, rfl, trivial⟩
  have hs : SoundAll {} [.newCstr [104, 105], .snapshot 0, .appendChar 0 33] := by
    refine ⟨trivial, fun s₁ h₁ => ?_⟩
    cases h₁
    refine ⟨trivial, fun s₂ h₂ => ?_⟩
    cases h₂
    exact ⟨fun _ => rfl, fun _ _ => trivial⟩
  exact values_of_sound hp hs

/-- A new string, which has no storage, is copied: NULL is read.  A string is appended to itself: its
terminator is overwritten before it is copied.  A shared string is set from itself: NULL is followed. -/
theorem values_lost : ¬ (∀ ops, ProperAll [] ops →
      ∃ s, ops.foldlM step {} = .ok s ∧ Shows s (ops.foldl Op.meaning [])) ∧
    ProperAll [] [.new, .newPcs 0] ∧
    [Op.new, .newPcs 0].foldlM step {} = .error .unallocated ∧
    ProperAll [] [.newCstr [104, 105], .appendPcs 0 0] ∧
    [Op.newCstr [104, 105], .appendPcs 0 0].foldlM step {} = .error .overlap ∧
    ProperAll [] [.newCstr [104, 105], .snapshot 0, .setPcs 0 0] ∧
    [Op.newCstr [104, 105], .snapshot 0, .setPcs 0 0].foldlM step {} = .error .wild := by
  have hp : ProperAll [] [.new, .newPcs 0] := ⟨trivial, rfl, trivial⟩
  refine ⟨fun hall => ?_, hp, rfl, ⟨trivial, ⟨rfl, rfl⟩, trivial⟩, rfl,
    ⟨trivial, rfl, ⟨rfl, rfl⟩, trivial⟩, rfl⟩
  obtain ⟨s, hrun, -⟩ := hall _ hp
  cases hrun

end Ppr.Pcs
