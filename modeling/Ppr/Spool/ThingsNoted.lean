import Ppr.Lib.Pending
import Ppr.Spool.Things

/-!
# What the table of things says of a page

`PageHolds` ties the table to what the comments of a page named: the flags of the resources and
requirements are those of the page itself, and the media that are flagged are those of the page
and what the pages before it left.
-/

namespace Ppr

variable {V : Type}

/-! ## The flags -/

theorem or_flag_and (f p : BitVec 32) : (f ||| p) &&& p = p := by
  ext i
  simp only [BitVec.getElem_and, BitVec.getElem_or]
  cases p[i] <;> simp

theorem or_other_and {q p : BitVec 32} (f : BitVec 32) (h : q &&& p = 0) :
    (f ||| q) &&& p = f &&& p := by
  rw [BitVec.and_or_distrib_right, h]
  exact BitVec.or_zero

theorem and_not_flag_and (f p : BitVec 32) : (f &&& ~~~p) &&& p = 0 := by
  ext i
  simp

theorem Item.pageFlag_ne_zero (x : Item V) : x.pageFlag ≠ 0 := by
  cases x with
  | resource r => exact (by decide : (16 : BitVec 32) ≠ 0)
  | media m => exact (by decide : (2 : BitVec 32) ≠ 0)
  | requirement q => exact (by decide : (2 : BitVec 32) ≠ 0)

theorem Thing.onPage_or (t : Thing V) :
    ({ t with flags := t.flags ||| t.item.pageFlag } : Thing V).onPage = true := by
  unfold Thing.onPage
  rw [or_flag_and]
  exact decide_eq_true (Item.pageFlag_ne_zero _)

theorem Thing.onPage_or_other (t : Thing V) {f : BitVec 32} (h : f &&& t.item.pageFlag = 0) :
    ({ t with flags := t.flags ||| f } : Thing V).onPage = t.onPage := by
  unfold Thing.onPage
  rw [or_other_and _ h]

@[simp] theorem Thing.onPage_offPage (t : Thing V) : t.offPage.onPage = false := by
  unfold Thing.onPage Thing.offPage
  rw [and_not_flag_and]
  rfl

@[simp] theorem Thing.item_offPage (t : Thing V) : t.offPage.item = t.item := rfl

/-! ## What is noted -/

/-- A thing of the table is the item and has the flag for the page. -/
def NotedOnPage (things : List (Thing V)) (x : Item V) : Prop :=
  ∃ t ∈ things, t.item = x ∧ t.onPage = true

/-- The medium at a place of the table, and its flag. -/
def Thing.mark (t : Thing V) : Option (List Byte × Bool) :=
  match t.item with
  | .media m => some (m, t.onPage)
  | _ => none

def markAt (things : List (Thing V)) (i : ℕ) : Option (List Byte × Bool) :=
  things[i]?.bind Thing.mark

/-- The name of the medium at a place. -/
def mediumAt (things : List (Thing V)) (i : ℕ) : Option (List Byte) := (markAt things i).map Prod.fst

/-- The places of the media that have the flag for the page. -/
def raisedMedia (things : List (Thing V)) : Set ℕ := {i | ∃ m, markAt things i = some (m, true)}

/-- No requirement is deleted. -/
def Undeleted (things : List (Thing V)) : Prop :=
  ∀ t ∈ things, t.item.isRequirement = true → t.flags &&& reqDeleted = 0

theorem Thing.mark_eq_none {t : Thing V} (h : t.item.isMedia = false) : t.mark = none := by
  unfold Thing.mark
  cases hx : t.item with
  | media m => rw [hx] at h; exact nomatch h
  | resource r => rfl
  | requirement q => rfl

theorem Thing.mark_eq_some_iff {t : Thing V} {m : List Byte} {b : Bool} :
    t.mark = some (m, b) ↔ t.item = .media m ∧ t.onPage = b := by
  unfold Thing.mark
  cases hx : t.item with
  | media m' => simp
  | resource r => simp
  | requirement q => simp

theorem mem_raisedMedia {things : List (Thing V)} {i : ℕ} : i ∈ raisedMedia things ↔
    ∃ t, things[i]? = some t ∧ t.pageMedium = true := by
  unfold raisedMedia markAt Thing.pageMedium
  constructor
  · rintro ⟨m, hm⟩
    obtain ⟨t, ht, hmark⟩ := Option.bind_eq_some_iff.1 hm
    obtain ⟨hx, hb⟩ := Thing.mark_eq_some_iff.1 hmark
    exact ⟨t, ht, by rw [hx, hb]; rfl⟩
  · rintro ⟨t, ht, hp⟩
    obtain ⟨hmedia, hb⟩ := Bool.and_eq_true_iff.1 hp
    cases hx : t.item with
    | media m => exact ⟨m, by rw [ht]; exact Thing.mark_eq_some_iff.2 ⟨hx, hb⟩⟩
    | resource r => rw [hx] at hmedia; exact nomatch hmedia
    | requirement q => rw [hx] at hmedia; exact nomatch hmedia

section Refer

variable [DecidableEq V]

/-- Where `refer` finds the item, or that it adds it. -/
theorem refer_cases (f : BitVec 32) (x : Item V) (things : List (Thing V)) :
    (∃ i t, things[i]? = some t ∧ t.item = x ∧
      refer f x things = things.modify i fun t => { t with flags := t.flags ||| f }) ∨
    (∀ t ∈ things, t.item ≠ x) ∧ refer f x things = things ++ [{ item := x, flags := f }] := by
  unfold refer
  cases h : things.findIdx? fun t => t.item = x with
  | none =>
    right
    exact ⟨fun t ht => of_decide_eq_false (List.findIdx?_eq_none_iff.1 h t ht), rfl⟩
  | some i =>
    left
    obtain ⟨hi, hp, -⟩ := List.findIdx?_eq_some_iff_getElem.1 h
    exact ⟨i, things[i], List.getElem?_eq_getElem hi, of_decide_eq_true hp, rfl⟩

/-- The things that `refer` leaves. -/
theorem mem_refer {f : BitVec 32} {x : Item V} {things : List (Thing V)} {u : Thing V}
    (h : u ∈ refer f x things) : u ∈ things ∨ u = { item := x, flags := f } ∨
      ∃ t ∈ things, t.item = x ∧ u = { t with flags := t.flags ||| f } := by
  rcases refer_cases f x things with ⟨i, t, ht, hx, heq⟩ | ⟨-, heq⟩
  · rw [heq] at h
    obtain ⟨j, hj⟩ := List.mem_iff_getElem?.1 h
    rw [List.getElem?_modify] at hj
    obtain ⟨w, hw, rfl⟩ := Option.map_eq_some_iff.1 hj
    split_ifs with hij
    · subst hij
      obtain rfl : t = w := Option.some.inj (ht.symm.trans hw)
      exact Or.inr (Or.inr ⟨t, List.mem_of_getElem? ht, hx, rfl⟩)
    · exact Or.inl (List.mem_of_getElem? hw)
  · rw [heq, List.mem_append, List.mem_singleton] at h
    exact h.imp id Or.inl

/-- A thing that is not the item stays as it is. -/
theorem mem_refer_of_ne {f : BitVec 32} {x : Item V} {things : List (Thing V)} {t : Thing V}
    (h : t ∈ things) (hne : t.item ≠ x) : t ∈ refer f x things := by
  rcases refer_cases f x things with ⟨i, w, hw, hx, heq⟩ | ⟨-, heq⟩
  · obtain ⟨j, hj⟩ := List.mem_iff_getElem?.1 h
    have hij : i ≠ j := by
      rintro rfl
      exact hne (Option.some.inj (hj.symm.trans hw) ▸ hx)
    rw [heq]
    refine List.mem_of_getElem? (i := j) ?_
    rw [List.getElem?_modify, hj]
    exact congrArg some (if_neg hij)
  · rw [heq]
    exact List.mem_append_left _ h

theorem noted_refer (x : Item V) (things : List (Thing V)) (y : Item V) :
    NotedOnPage (refer x.pageFlag x things) y ↔ NotedOnPage things y ∨ y = x := by
  constructor
  · rintro ⟨u, hu, rfl, hon⟩
    rcases mem_refer hu with h | rfl | ⟨t, ht, hx, rfl⟩
    · exact Or.inl ⟨u, h, rfl, hon⟩
    · exact Or.inr rfl
    · exact Or.inr hx
  · intro h
    by_cases hy : y = x
    · subst hy
      rcases refer_cases y.pageFlag y things with ⟨i, t, ht, rfl, heq⟩ | ⟨-, heq⟩
      · rw [heq]
        refine ⟨{ t with flags := t.flags ||| t.item.pageFlag }, ?_, rfl, t.onPage_or⟩
        refine List.mem_of_getElem? (i := i) ?_
        rw [List.getElem?_modify, ht]
        exact congrArg some (if_pos rfl)
      · rw [heq]
        refine ⟨_, List.mem_append_right _ (List.mem_singleton_self _), rfl, ?_⟩
        unfold Thing.onPage
        rw [BitVec.and_self]
        exact decide_eq_true (Item.pageFlag_ne_zero _)
    · obtain ⟨t, ht, rfl, hon⟩ := h.resolve_right hy
      exact ⟨t, mem_refer_of_ne ht hy, rfl, hon⟩

/-- A reference that is not of the page notes nothing for the page. -/
theorem noted_refer_other {f : BitVec 32} {x : Item V} (hf : f &&& x.pageFlag = 0)
    (things : List (Thing V)) (y : Item V) : NotedOnPage (refer f x things) y ↔ NotedOnPage things y := by
  constructor
  · rintro ⟨u, hu, rfl, hon⟩
    rcases mem_refer hu with h | rfl | ⟨t, ht, rfl, rfl⟩
    · exact ⟨u, h, rfl, hon⟩
    · have hoff : ({ item := x, flags := f } : Thing V).onPage = false := by
        unfold Thing.onPage
        rw [hf]
        rfl
      rw [hoff] at hon
      exact absurd hon (by decide)
    · rw [Thing.onPage_or_other t hf] at hon
      exact ⟨t, ht, rfl, hon⟩
  · rintro ⟨t, ht, rfl, hon⟩
    by_cases hx : t.item = x
    · subst hx
      obtain ⟨j, hj⟩ := List.mem_iff_getElem?.1 ht
      rcases refer_cases f t.item things with ⟨i, w, hw, hx, heq⟩ | ⟨hne, -⟩
      · have hmem : (if i = j then { t with flags := t.flags ||| f } else t) ∈
            refer f t.item things := by
          rw [heq]
          refine List.mem_of_getElem? (i := j) ?_
          rw [List.getElem?_modify, hj]
          rfl
        refine ⟨_, hmem, ?_, ?_⟩
        · split_ifs <;> rfl
        · split_ifs
          · rw [Thing.onPage_or_other t hf]
            exact hon
          · exact hon
      · exact absurd rfl (hne t ht)
    · exact ⟨t, mem_refer_of_ne ht hx, rfl, hon⟩

/-- Only media are marked. -/
theorem markAt_refer {x : Item V} (hx : x.isMedia = false) (f : BitVec 32) (things : List (Thing V))
    (i : ℕ) : markAt (refer f x things) i = markAt things i := by
  unfold markAt
  rcases refer_cases f x things with ⟨j, t, ht, rfl, heq⟩ | ⟨-, heq⟩
  · rw [heq, List.getElem?_modify]
    by_cases hij : j = i
    · subst hij
      rw [ht]
      have hnone : ({ t with flags := t.flags ||| f } : Thing V).mark = none :=
        Thing.mark_eq_none hx
      simp [hnone, Thing.mark_eq_none hx]
    · simp only [if_neg hij]
      exact congrArg (Option.bind · Thing.mark) (Option.map_id' ..)
  · rw [heq]
    by_cases hi : i < things.length
    · rw [List.getElem?_append_left hi]
    · rw [List.getElem?_append_right (by omega), List.getElem?_eq_none (by omega : things.length ≤ i)]
      have hnone : ({ item := x, flags := f } : Thing V).mark = none := Thing.mark_eq_none hx
      cases h : i - things.length with
      | zero => exact hnone
      | succ k => rfl

theorem undeleted_refer {things : List (Thing V)} (h : Undeleted things) {f : BitVec 32} {x : Item V}
    (hf : x.isRequirement = true → f &&& reqDeleted = 0) : Undeleted (refer f x things) := by
  intro u hu hreq
  rcases mem_refer hu with hu | rfl | ⟨t, ht, rfl, rfl⟩
  · exact h u hu hreq
  · exact hf hreq
  · rw [or_other_and _ (hf hreq)]
    exact h t ht hreq

/-! ### The media of a page -/

theorem markAt_mediaPage (m : List Byte) (things : List (Thing V)) (i : ℕ) :
    markAt (mediaPage m things) i =
      (markAt things i).map fun p => (p.1, p.2 || decide (p.1 = m)) := by
  unfold markAt mediaPage
  rw [List.getElem?_map]
  cases things[i]? with
  | none => rfl
  | some t =>
    rw [Option.map_some, Option.bind_some, Option.bind_some]
    by_cases hm : t.item = .media m
    · rw [if_pos hm]
      have hflag : t.item.pageFlag = 2 := by rw [hm]; rfl
      have hon : ({ t with flags := t.flags ||| 2 } : Thing V).onPage = true := by
        rw [← hflag]
        exact t.onPage_or
      have hset : ({ t with flags := t.flags ||| 2 } : Thing V).mark = some (m, true) :=
        Thing.mark_eq_some_iff.2 ⟨hm, hon⟩
      rw [hset, Thing.mark_eq_some_iff.2 ⟨hm, rfl⟩]
      simp
    · rw [if_neg hm]
      cases hmark : t.mark with
      | none => rfl
      | some p =>
        have hp := (Thing.mark_eq_some_iff (m := p.1) (b := p.2)).1 hmark
        have hne : p.1 ≠ m := fun h => hm (h ▸ hp.1)
        simp [hne]

theorem noted_mediaPage {y : Item V} (hy : y.isMedia = false) (m : List Byte)
    (things : List (Thing V)) : NotedOnPage (mediaPage m things) y ↔ NotedOnPage things y := by
  have hne (t : Thing V) (h : t.item = y) : t.item ≠ .media m := by
    rintro hm
    rw [← h, hm] at hy
    exact nomatch hy
  constructor
  · rintro ⟨u, hu, hx, hon⟩
    obtain ⟨t, ht, rfl⟩ := List.mem_map.1 hu
    by_cases hm : t.item = .media m
    · rw [if_pos hm] at hx
      exact absurd hm (hne t hx)
    · rw [if_neg hm] at hx hon
      exact ⟨t, ht, hx, hon⟩
  · rintro ⟨t, ht, hx, hon⟩
    exact ⟨t, List.mem_map.2 ⟨t, ht, if_neg (hne t hx)⟩, hx, hon⟩

theorem undeleted_mediaPage {things : List (Thing V)} (h : Undeleted things) (m : List Byte) :
    Undeleted (mediaPage m things) := by
  intro u hu hreq
  obtain ⟨t, ht, rfl⟩ := List.mem_map.1 hu
  by_cases hm : t.item = .media m
  · rw [if_pos hm] at hreq
    rw [hm] at hreq
    exact nomatch hreq
  · rw [if_neg hm] at hreq ⊢
    exact h t ht hreq

end Refer

/-! ## What is written and cleared -/

section Dump

variable {p : Thing V → Bool} {things : List (Thing V)}

theorem mem_dumpAll {x : Item V} :
    x ∈ (dumpAll p things).1 ↔ ∃ t ∈ things, t.item = x ∧ p t = true := by
  unfold dumpAll
  rw [List.mem_map]
  constructor
  · rintro ⟨t, ht, hx⟩
    exact ⟨t, (List.mem_filter.1 ht).1, hx, (List.mem_filter.1 ht).2⟩
  · rintro ⟨t, ht, hx, hp⟩
    exact ⟨t, List.mem_filter.2 ⟨ht, hp⟩, hx⟩

theorem noted_dumpAll {x : Item V} :
    NotedOnPage (dumpAll p things).2 x ↔ ∃ t ∈ things, t.item = x ∧ t.onPage = true ∧ p t = false := by
  constructor
  · rintro ⟨u, hu, hx, hon⟩
    obtain ⟨t, ht, rfl⟩ := List.mem_map.1 hu
    by_cases hp : p t = true
    · rw [if_pos hp, Thing.onPage_offPage] at hon
      exact nomatch hon
    · rw [if_neg hp] at hx hon
      exact ⟨t, ht, hx, hon, Bool.eq_false_of_not_eq_true hp⟩
  · rintro ⟨t, ht, hx, hon, hp⟩
    exact ⟨t, List.mem_map.2 ⟨t, ht, if_neg (by rw [hp]; decide)⟩, hx, hon⟩

theorem markAt_dumpAll (hp : ∀ t : Thing V, t.item.isMedia = true → p t = false) :
    markAt (dumpAll p things).2 = markAt things := by
  funext i
  unfold markAt dumpAll
  rw [List.getElem?_map]
  cases things[i]? with
  | none => rfl
  | some t =>
    rw [Option.map_some, Option.bind_some, Option.bind_some]
    by_cases h : p t = true
    · have hmedia : t.item.isMedia = false := by
        by_contra hm
        rw [hp t (Bool.eq_true_of_not_eq_false hm)] at h
        exact nomatch h
      rw [if_pos h, Thing.mark_eq_none hmedia]
      exact Thing.mark_eq_none hmedia
    · rw [if_neg h]

theorem undeleted_offPage {t : Thing V} (h : t.flags &&& reqDeleted = 0) :
    t.offPage.flags &&& reqDeleted = 0 := by
  unfold Thing.offPage
  rw [BitVec.and_assoc, BitVec.and_comm (~~~t.item.pageFlag), ← BitVec.and_assoc, h]
  exact BitVec.zero_and

theorem undeleted_dumpAll (h : Undeleted things) : Undeleted (dumpAll p things).2 := by
  intro u hu hreq
  obtain ⟨t, ht, rfl⟩ := List.mem_map.1 hu
  by_cases hp : p t = true
  · rw [if_pos hp] at hreq ⊢
    exact undeleted_offPage (h t ht hreq)
  · rw [if_neg hp] at hreq ⊢
    exact h t ht hreq

theorem mem_dumpPageResources {x : Item V} :
    x ∈ (dumpPageResources things).1 ↔ x.isResource = true ∧ NotedOnPage things x := by
  rw [dumpPageResources, mem_dumpAll]
  constructor
  · rintro ⟨t, ht, rfl, hp⟩
    obtain ⟨hx, hon⟩ := Bool.and_eq_true_iff.1 hp
    exact ⟨hx, t, ht, rfl, hon⟩
  · rintro ⟨hx, t, ht, rfl, hon⟩
    exact ⟨t, ht, rfl, Bool.and_eq_true_iff.2 ⟨hx, hon⟩⟩

theorem noted_dumpPageResources {x : Item V} :
    NotedOnPage (dumpPageResources things).2 x ↔ NotedOnPage things x ∧ x.isResource = false := by
  rw [dumpPageResources, noted_dumpAll]
  constructor
  · rintro ⟨t, ht, rfl, hon, hp⟩
    rw [Thing.pageResource, hon, Bool.and_true] at hp
    exact ⟨⟨t, ht, rfl, hon⟩, hp⟩
  · rintro ⟨⟨t, ht, rfl, hon⟩, hx⟩
    exact ⟨t, ht, rfl, hon, by rw [Thing.pageResource, hx, Bool.false_and]⟩

theorem pageRequirement_eq (h : Undeleted things) {t : Thing V} (ht : t ∈ things) :
    t.pageRequirement = (t.item.isRequirement && t.onPage) := by
  unfold Thing.pageRequirement
  by_cases hreq : t.item.isRequirement = true
  · rw [h t ht hreq]
    simp
  · simp [Bool.eq_false_of_not_eq_true hreq]

theorem mem_dumpPageRequirements (h : Undeleted things) {x : Item V} :
    x ∈ (dumpPageRequirements things).1 ↔ x.isRequirement = true ∧ NotedOnPage things x := by
  rw [dumpPageRequirements, mem_dumpAll]
  constructor
  · rintro ⟨t, ht, rfl, hp⟩
    rw [pageRequirement_eq h ht] at hp
    obtain ⟨hx, hon⟩ := Bool.and_eq_true_iff.1 hp
    exact ⟨hx, t, ht, rfl, hon⟩
  · rintro ⟨hx, t, ht, rfl, hon⟩
    exact ⟨t, ht, rfl, by rw [pageRequirement_eq h ht, hx, hon]; rfl⟩

theorem noted_dumpPageRequirements (h : Undeleted things) {x : Item V} :
    NotedOnPage (dumpPageRequirements things).2 x ↔ NotedOnPage things x ∧ x.isRequirement = false := by
  rw [dumpPageRequirements, noted_dumpAll]
  constructor
  · rintro ⟨t, ht, rfl, hon, hp⟩
    rw [pageRequirement_eq h ht, hon, Bool.and_true] at hp
    exact ⟨⟨t, ht, rfl, hon⟩, hp⟩
  · rintro ⟨⟨t, ht, rfl, hon⟩, hx⟩
    exact ⟨t, ht, rfl, hon, by rw [pageRequirement_eq h ht, hx, Bool.false_and]⟩

/-! ### The medium -/

/-- The first medium that is flagged, if there is one. -/
theorem dumpPageMedia_cases (things : List (Thing V)) :
    raisedMedia things = ∅ ∧ dumpPageMedia things = ([], things) ∨
    ∃ i t m, things[i]? = some t ∧ t.item = .media m ∧ t.onPage = true ∧
      IsLeast (raisedMedia things) i ∧
      dumpPageMedia things = ([.media m], things.modify i Thing.offPage) := by
  unfold dumpPageMedia
  cases h : things.findIdx? Thing.pageMedium with
  | none =>
    left
    refine ⟨Set.eq_empty_iff_forall_notMem.2 fun i hi => ?_, rfl⟩
    obtain ⟨t, ht, hp⟩ := mem_raisedMedia.1 hi
    rw [List.findIdx?_eq_none_iff.1 h t (List.mem_of_getElem? ht)] at hp
    exact nomatch hp
  | some i =>
    right
    obtain ⟨hi, hp, hmin⟩ := List.findIdx?_eq_some_iff_getElem.1 h
    have ht : things[i]? = some things[i] := List.getElem?_eq_getElem hi
    have hmem : i ∈ raisedMedia things := mem_raisedMedia.2 ⟨_, ht, hp⟩
    obtain ⟨m, hm⟩ := hmem
    have hmark : things[i].mark = some (m, true) := by
      rw [markAt, ht] at hm
      exact hm
    obtain ⟨hx, hon⟩ := Thing.mark_eq_some_iff.1 hmark
    refine ⟨i, things[i], m, ht, hx, hon, ⟨mem_raisedMedia.2 ⟨_, ht, hp⟩, fun j hj => ?_⟩, ?_⟩
    · by_contra hlt
      obtain ⟨u, hu, hpu⟩ := mem_raisedMedia.1 hj
      have hj' : j < things.length := by omega
      rw [List.getElem?_eq_getElem hj'] at hu
      exact hmin j (by omega) (Option.some.inj hu ▸ hpu)
    · dsimp only
      rw [ht, Option.map_some, hx]
      rfl

theorem mediumAt_dumpPageMedia (things : List (Thing V)) :
    mediumAt (dumpPageMedia things).2 = mediumAt things := by
  rcases dumpPageMedia_cases things with ⟨-, heq⟩ | ⟨i, t, m, ht, hx, -, -, heq⟩
  · rw [heq]
  · funext j
    rw [heq]
    unfold mediumAt markAt
    rw [List.getElem?_modify]
    by_cases hij : i = j
    · subst hij
      simp only [if_true, ht]
      have hoff : t.offPage.mark = some (m, false) :=
        Thing.mark_eq_some_iff.2 ⟨hx, t.onPage_offPage⟩
      change (t.offPage.mark).map Prod.fst = t.mark.map Prod.fst
      rw [hoff, Thing.mark_eq_some_iff.2 ⟨hx, rfl⟩]
      rfl
    · simp only [if_neg hij]
      exact congrArg (fun o => (Option.bind o Thing.mark).map Prod.fst) (Option.map_id' ..)

theorem mem_dumpPageMedia {x : Item V} : x ∈ (dumpPageMedia things).1 ↔
    ∃ m ∈ Pending.served (mediumAt things) (raisedMedia things), x = .media m := by
  rcases dumpPageMedia_cases things with ⟨hnone, heq⟩ | ⟨i, t, m, ht, hx, hon, hleast, heq⟩
  · rw [heq, hnone]
    simp [Pending.served]
  · have hname : mediumAt things i = some m := by
      unfold mediumAt markAt
      rw [ht, Option.bind_some, Thing.mark_eq_some_iff.2 ⟨hx, rfl⟩]
      rfl
    rw [heq, List.mem_singleton]
    constructor
    · rintro rfl
      exact ⟨m, ⟨⟨i, hleast.1⟩, by rw [hleast.csInf_eq, hname]⟩, rfl⟩
    · rintro ⟨m', ⟨-, hm'⟩, rfl⟩
      rw [hleast.csInf_eq, hname] at hm'
      rw [Option.some.inj hm']

theorem raisedMedia_dumpPageMedia (things : List (Thing V)) :
    raisedMedia (dumpPageMedia things).2 = Pending.rest (raisedMedia things) := by
  rcases dumpPageMedia_cases things with ⟨hnone, heq⟩ | ⟨i, t, m, ht, hx, hon, hleast, heq⟩
  · rw [heq, hnone]
    simp [Pending.rest]
  · rw [heq, Pending.rest, hleast.csInf_eq]
    ext j
    rw [mem_raisedMedia, Set.mem_sdiff, Set.mem_singleton_iff, mem_raisedMedia]
    rw [List.getElem?_modify]
    by_cases hij : i = j
    · subst hij
      simp [ht, Thing.pageMedium]
    · have hji : j ≠ i := fun h => hij h.symm
      simp [hij, hji]

theorem noted_dumpPageMedia {y : Item V} (hy : y.isMedia = false) :
    NotedOnPage (dumpPageMedia things).2 y ↔ NotedOnPage things y := by
  rcases dumpPageMedia_cases things with ⟨-, heq⟩ | ⟨i, t, m, ht, hx, -, -, heq⟩
  · rw [heq]
  · rw [heq]
    have hne : t.item ≠ y := by
      rintro h
      rw [← h, hx] at hy
      exact nomatch hy
    constructor
    · rintro ⟨u, hu, rfl, hon⟩
      obtain ⟨j, hj⟩ := List.mem_iff_getElem?.1 hu
      rw [List.getElem?_modify] at hj
      obtain ⟨w, hw, rfl⟩ := Option.map_eq_some_iff.1 hj
      by_cases hij : i = j
      · rw [if_pos hij, Thing.onPage_offPage] at hon
        exact nomatch hon
      · rw [if_neg hij] at hon ⊢
        exact ⟨w, List.mem_of_getElem? hw, rfl, hon⟩
    · rintro ⟨w, hw, hwy, hon⟩
      obtain ⟨j, hj⟩ := List.mem_iff_getElem?.1 hw
      have hij : i ≠ j := by
        rintro rfl
        exact hne (Option.some.inj (hj.symm.trans ht) ▸ hwy)
      refine ⟨w, List.mem_of_getElem? (i := j) ?_, hwy, hon⟩
      rw [List.getElem?_modify, hj]
      exact congrArg some (if_neg hij)

theorem undeleted_dumpPageMedia (h : Undeleted things) : Undeleted (dumpPageMedia things).2 := by
  rcases dumpPageMedia_cases things with ⟨-, heq⟩ | ⟨i, t, m, ht, hx, -, -, heq⟩
  · rw [heq]
    exact h
  · rw [heq]
    intro u hu hreq
    obtain ⟨j, hj⟩ := List.mem_iff_getElem?.1 hu
    rw [List.getElem?_modify] at hj
    obtain ⟨w, hw, rfl⟩ := Option.map_eq_some_iff.1 hj
    have hw' : w ∈ things := List.mem_of_getElem? hw
    by_cases hij : i = j
    · rw [if_pos hij] at hreq ⊢
      exact undeleted_offPage (h w hw' hreq)
    · rw [if_neg hij] at hreq ⊢
      exact h w hw' hreq

end Dump

/-! ## The table while a page is read -/

/-- The names of the media among the items. -/
def mediaOf (cur : Set (Item V)) : Set (List Byte) := {m | .media m ∈ cur}

/-- The table when the comments of the page have named `cur`: `L` are the places of the media that
the pages before left flagged. -/
structure PageHolds (name : ℕ → Option (List Byte)) (L : Set ℕ) (cur : Set (Item V))
    (things : List (Thing V)) : Prop where
  noted : ∀ x : Item V, x.isMedia = false → (NotedOnPage things x ↔ x ∈ cur)
  medium : mediumAt things = name
  raised : raisedMedia things = Pending.raise name L (mediaOf cur)
  undeleted : Undeleted things

section PageHolds

variable {name : ℕ → Option (List Byte)} {L : Set ℕ} {cur : Set (Item V)} {things : List (Thing V)}

theorem raisedMedia_congr {things' : List (Thing V)} (h : markAt things' = markAt things) :
    raisedMedia things' = raisedMedia things := by
  unfold raisedMedia
  rw [h]

theorem mediumAt_congr {things' : List (Thing V)} (h : markAt things' = markAt things) :
    mediumAt things' = mediumAt things := by
  unfold mediumAt
  rw [h]

theorem mediaOf_insert_of_ne {x : Item V} (hx : x.isMedia = false) (cur : Set (Item V)) :
    mediaOf (insert x cur) = mediaOf cur := by
  ext m
  unfold mediaOf
  rw [Set.mem_ofPred_eq, Set.mem_ofPred_eq, Set.mem_insert_iff]
  refine or_iff_right ?_
  rintro rfl
  exact nomatch hx

theorem ResourceRef.flags_and (f : ResourceRef) (r : DscResource V) :
    f.flags &&& (Item.resource r).pageFlag = 0 := by
  change f.flags &&& 16 = 0
  cases f <;> decide

/-- A reference that is not of the page. -/
theorem PageHolds.refer_other [DecidableEq V] (h : PageHolds name L cur things) {f : BitVec 32} {x : Item V}
    (hx : x.isMedia = false) (hf : f &&& x.pageFlag = 0)
    (hd : x.isRequirement = true → f &&& reqDeleted = 0) : PageHolds name L cur (refer f x things) := by
  have hmark : markAt (refer f x things) = markAt things := funext (markAt_refer hx f things)
  refine ⟨fun y hy => ?_, ?_, ?_, undeleted_refer h.undeleted hd⟩
  · rw [noted_refer_other hf, h.noted y hy]
  · rw [mediumAt_congr hmark, h.medium]
  · rw [raisedMedia_congr hmark, h.raised]

theorem PageHolds.refer [DecidableEq V] (h : PageHolds name L cur things) (f : ResourceRef)
    (r : DscResource V) : PageHolds name L cur (refer f.flags (.resource r) things) :=
  h.refer_other rfl (f.flags_and r) fun hreq => nomatch hreq

theorem PageHolds.notePage_of_ne [DecidableEq V] (h : PageHolds name L cur things) {x : Item V}
    (hx : x.isMedia = false) :
    PageHolds name L (insert x cur) (Ppr.refer x.pageFlag x things) := by
  have hmark : markAt (Ppr.refer x.pageFlag x things) = markAt things :=
    funext (markAt_refer hx x.pageFlag things)
  refine ⟨fun y hy => ?_, ?_, ?_, undeleted_refer h.undeleted fun hreq => ?_⟩
  · rw [noted_refer, h.noted y hy, Set.mem_insert_iff, or_comm]
  · rw [mediumAt_congr hmark, h.medium]
  · rw [raisedMedia_congr hmark, h.raised, mediaOf_insert_of_ne hx]
  · cases hitem : x with
    | requirement q => exact (by decide : (2 : BitVec 32) &&& 4 = 0)
    | resource r => rw [hitem] at hreq; exact nomatch hreq
    | media m => rw [hitem] at hreq; exact nomatch hreq

theorem PageHolds.notePage_media [DecidableEq V] (h : PageHolds name L cur things) (m : List Byte) :
    PageHolds name L (insert (.media m) cur) (mediaPage m things) := by
  refine ⟨fun y hy => ?_, ?_, ?_, undeleted_mediaPage h.undeleted m⟩
  · rw [noted_mediaPage hy, h.noted y hy, Set.mem_insert_iff]
    refine (or_iff_right ?_).symm
    rintro rfl
    exact nomatch hy
  · rw [← h.medium]
    funext i
    unfold mediumAt
    rw [markAt_mediaPage, Option.map_map]
    rfl
  · ext i
    have hraised : i ∈ raisedMedia things ↔ i ∈ Pending.raise name L (mediaOf cur) := by
      rw [h.raised]
    have hname : (markAt things i).map Prod.fst = name i := congrFun h.medium i
    have hmem : i ∈ raisedMedia (mediaPage m things) ↔
        i ∈ raisedMedia things ∨ name i = some m := by
      unfold raisedMedia
      rw [Set.mem_ofPred_eq, Set.mem_ofPred_eq, markAt_mediaPage, ← hname]
      cases markAt things i with
      | none => simp
      | some p =>
        obtain ⟨n, b⟩ := p
        cases b <;> simp
    have hborne : i ∈ Pending.borne name (mediaOf (insert (.media m) cur)) ↔
        name i = some m ∨ i ∈ Pending.borne name (mediaOf cur) := by
      simp [Pending.borne, mediaOf]
    rw [hmem, hraised, Pending.raise, Pending.raise, Set.mem_union, Set.mem_union, hborne]
    tauto

/-- What a page level comment names is added. -/
theorem PageHolds.notePage [DecidableEq V] (h : PageHolds name L cur things) (x : Item V) :
    PageHolds name L (insert x cur) (notePage things x) := by
  cases x with
  | media m => exact h.notePage_media m
  | resource r => exact h.notePage_of_ne rfl
  | requirement q => exact h.notePage_of_ne rfl

theorem PageHolds.notePages [DecidableEq V] (items : List (Item V)) {cur : Set (Item V)}
    {things : List (Thing V)} (h : PageHolds name L cur things) :
    PageHolds name L (cur ∪ {x | x ∈ items}) (items.foldl Ppr.notePage things) := by
  induction items generalizing cur things with
  | nil => simpa using h
  | cons x items ih =>
    have hset : cur ∪ {y | y ∈ x :: items} = insert x cur ∪ {y | y ∈ items} := by
      ext y
      simp only [Set.mem_union, Set.mem_ofPred_eq, List.mem_cons, Set.mem_insert_iff]
      tauto
    rw [hset]
    exact ih (h.notePage x)

theorem Item.isMedia_eq_false_iff {x : Item V} :
    x.isMedia = false ↔ x.isResource = true ∨ x.isRequirement = true := by
  cases x <;> simp [Item.isMedia, Item.isResource, Item.isRequirement]

theorem Item.not_isMedia {x : Item V} (h : x.isResource = true ∨ x.isRequirement = true) (m : List Byte) :
    x ≠ .media m := by
  rintro rfl
  exact nomatch Item.isMedia_eq_false_iff.2 h

/-- What is written at the end of a page, and what is left in the table for the next page. -/
theorem PageHolds.dump {n : Notes V} (h : PageHolds name L cur n.things) (D : Doubles V) :
    PageHolds name (Pending.rest (Pending.raise name L (mediaOf cur))) ∅ (n.dump D).2.things ∧
    ∃ W, (n.dump D).2.written = n.written ++ [W] ∧
      (∀ x : Item V, x.isMedia = false → (x ∈ W ↔ x ∈ cur)) ∧
      ∀ m, .media m ∈ W ↔ m ∈ Pending.served name (Pending.raise name L (mediaOf cur)) := by
  set t₁ := (dumpPageResources n.things).2
  set t₂ := (dumpPageRequirements t₁).2
  have hu₁ : Undeleted t₁ := undeleted_dumpAll h.undeleted
  have hmark₁ : markAt t₁ = markAt n.things :=
    markAt_dumpAll fun t ht => by cases hx : t.item <;> simp_all [Thing.pageResource, Item.isResource,
      Item.isMedia]
  have hmark₂ : markAt t₂ = markAt n.things :=
    (markAt_dumpAll fun t ht => by cases hx : t.item <;> simp_all [Thing.pageRequirement,
      Item.isRequirement, Item.isMedia]).trans hmark₁
  have hmedium : mediumAt t₂ = name := (mediumAt_congr hmark₂).trans h.medium
  have hraised : raisedMedia t₂ = Pending.raise name L (mediaOf cur) :=
    (raisedMedia_congr hmark₂).trans h.raised
  have hnoted₁ (x : Item V) : NotedOnPage t₁ x ↔ NotedOnPage n.things x ∧ x.isResource = false :=
    noted_dumpPageResources
  have hnoted₂ (x : Item V) : NotedOnPage t₂ x ↔ NotedOnPage t₁ x ∧ x.isRequirement = false :=
    noted_dumpPageRequirements hu₁
  refine ⟨⟨fun x hx => ?_, ?_, ?_, undeleted_dumpPageMedia (undeleted_dumpAll hu₁)⟩,
    (dumpPageResources n.things).1 ++ (dumpPageRequirements t₁).1 ++ (dumpPageMedia t₂).1, rfl,
    fun x hx => ?_, fun m => ?_⟩
  · change NotedOnPage (dumpPageMedia t₂).2 x ↔ x ∈ (∅ : Set (Item V))
    rw [noted_dumpPageMedia hx, hnoted₂, hnoted₁]
    rcases Item.isMedia_eq_false_iff.1 hx with hr | hr <;> simp [hr]
  · exact (mediumAt_dumpPageMedia t₂).trans hmedium
  · have hempty : Pending.raise name (Pending.rest (Pending.raise name L (mediaOf cur)))
        (mediaOf (∅ : Set (Item V))) = Pending.rest (Pending.raise name L (mediaOf cur)) := by
      simp [Pending.raise, Pending.borne, mediaOf]
    rw [hempty, ← hraised]
    exact raisedMedia_dumpPageMedia t₂
  · rw [List.mem_append, List.mem_append, mem_dumpPageResources, mem_dumpPageRequirements hu₁,
      hnoted₁, h.noted x hx]
    have hne : ¬ x ∈ (dumpPageMedia t₂).1 := by
      rw [mem_dumpPageMedia]
      rintro ⟨m, -, hm⟩
      exact Item.not_isMedia (Item.isMedia_eq_false_iff.1 hx) m hm
    cases hitem : x with
    | media m => exact absurd hitem (Item.not_isMedia (Item.isMedia_eq_false_iff.1 hx) m)
    | resource r =>
      rw [hitem] at hne
      simp [hne, Item.isResource, Item.isRequirement]
    | requirement q =>
      rw [hitem] at hne
      simp [hne, Item.isResource, Item.isRequirement]
  · rw [List.mem_append, List.mem_append, mem_dumpPageResources, mem_dumpPageRequirements hu₁,
      mem_dumpPageMedia, hmedium, hraised]
    simp [Item.isResource, Item.isRequirement]

end PageHolds

end Ppr
