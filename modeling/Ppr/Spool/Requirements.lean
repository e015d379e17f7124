import Ppr.Spool.ThingsNoted

/-!
# Deleting a requirement

`requirement()`, `delete_requirement()` and `write_requirement_lines()` of `ppr_req.c`.  The comparison
walks along the recorded requirement and the name at once; it goes on behind a character that differs,
takes what is longer for what is shorter, and the flag it sets is honoured only at the end of a page.

The comparison may look one byte behind the end of the name: that byte is a parameter.
-/

namespace Ppr

variable {V : Type}

/-! ## The routines -/

/-- The loop of `delete_requirement()` and the test behind it: a recorded requirement, and the name. -/
def deletes (beyond : Byte) : List Byte → List Byte → Bool
  | [], nptr => nptr.head?.all (· = 40)
  -- the end of the name is the character that differs
  | _ :: sptr, [] => sptr = [] && (beyond = 40 || beyond = 0)
  | c :: sptr, d :: nptr =>
    if c = d then deletes beyond sptr nptr else sptr = [] && nptr.head?.all (· = 40)

def Thing.isDeleted (t : Thing V) : Bool := t.flags &&& reqDeleted ≠ 0

/-- What `delete_requirement()` does to a thing. -/
def Thing.delete (beyond : Byte) (reqName : List Byte) (t : Thing V) : Thing V :=
  match t.item with
  | .requirement name =>
    if deletes beyond name reqName then { t with flags := t.flags ||| reqDeleted } else t
  | _ => t

/-- `delete_requirement()`. -/
def deleteRequirement (beyond : Byte) (reqName : List Byte) (things : List (Thing V)) : List (Thing V) :=
  things.map (Thing.delete beyond reqName)

/-- `requirement()`. -/
def requirement [DecidableEq V] (reftype : BitVec 32) (reqName : List Byte) (things : List (Thing V)) :
    List (Thing V) :=
  match requirementName reqName with
  | some name => refer reftype (.requirement name) things
  | none => things

/-- `REQ_DOC`. -/
def reqDoc : BitVec 32 := 1

/-- `REQ_PAGE`. -/
def reqPage : BitVec 32 := 2

/-- `write_requirement_lines()`: every thing is in every fragment. -/
def writeRequirementLines (things : List (Thing V)) : List (List Byte) :=
  things.filterMap fun t =>
    match t.item with
    | .requirement name => some (ascii "Req: " ++ name)
    | _ => none

/-! ## What happens later -/

/-- A later event for the requirements. -/
inductive ReqStep where
  | requirement (reftype : BitVec 32) (reqName : List Byte)
  | endOfPage

/-- The step notes the requirement. -/
def ReqStep.notes (name : List Byte) : ReqStep → Prop
  | .requirement _ reqName => requirementName reqName = some name
  | .endOfPage => False

/-- The requirements that are written for pages, and the table at the end. -/
def laterPages [DecidableEq V] : List ReqStep → List (Thing V) → List (Item V) × List (Thing V)
  | [], things => ([], things)
  | .requirement reftype reqName :: steps, things =>
    laterPages steps (requirement reftype reqName things)
  | .endOfPage :: steps, things =>
    let (page, things) := dumpPageRequirements things
    let (pages, things) := laterPages steps things
    (page ++ pages, things)

/-! ## The comparison -/

/-- The requirement is the name, or the name with options. -/
def IsRequirement (reqName name : List Byte) : Prop :=
  name = reqName ∨ ∃ options, name = reqName ++ ascii "(" ++ options ++ ascii ")"

/-- The byte ends a name: it is its end or the beginning of options. -/
def EndsName (rest : List Byte) : Prop := rest = [] ∨ ∃ options, rest = 40 :: options

/-- What the comparison takes for the name: the name, the name without its options, and either of them
with another last character or with one more. -/
inductive Confused (beyond : Byte) (reqName : List Byte) : List Byte → Prop where
  | same {name rest : List Byte} : reqName = name ++ rest → EndsName rest → Confused beyond reqName name
  | last {init rest : List Byte} {c d : Byte} : reqName = init ++ d :: rest → EndsName rest → c ≠ d →
      Confused beyond reqName (init ++ [c])
  | longer {c : Byte} : beyond = 40 ∨ beyond = 0 → Confused beyond reqName (reqName ++ [c])

theorem head?_all_iff (rest : List Byte) : rest.head?.all (· = 40) = true ↔ EndsName rest := by
  cases rest with
  | nil => simp [EndsName]
  | cons b rest => simp [EndsName, eq_comm]

section Confused

variable {beyond c d : Byte} {name reqName : List Byte}

theorem confused_nil_iff : Confused beyond reqName [] ↔ EndsName reqName := by
  constructor
  · intro h
    generalize hname : ([] : List Byte) = name at h
    cases h with
    | same h hrest =>
      rw [h, ← hname]
      exact hrest
    | last => simp at hname
    | longer => simp at hname
  · exact fun h => .same (List.nil_append _).symm h

theorem confused_nil_left_iff :
    Confused beyond [] (c :: name) ↔ name = [] ∧ (beyond = 40 ∨ beyond = 0) := by
  constructor
  · intro h
    generalize hname : c :: name = s at h
    generalize hreq : ([] : List Byte) = n at h
    cases h with
    | same h =>
      rw [← hreq, ← hname] at h
      cases h
    | last h =>
      rw [← hreq] at h
      exact absurd h.symm (by simp)
    | longer hbeyond =>
      subst hreq
      exact ⟨(List.cons.inj hname).2, hbeyond⟩
  · rintro ⟨rfl, h⟩
    exact Confused.longer h

theorem confused_cons_iff : Confused beyond (d :: reqName) (c :: name) ↔
    c = d ∧ Confused beyond reqName name ∨ c ≠ d ∧ name = [] ∧ EndsName reqName := by
  constructor
  · intro h
    generalize hname : c :: name = s at h
    generalize hreq : d :: reqName = n at h
    cases h with
    | same h hrest =>
      rw [← hreq, ← hname, List.cons_append] at h
      obtain ⟨rfl, rfl⟩ := List.cons.inj h
      exact .inl ⟨rfl, .same rfl hrest⟩
    | @last init rest c' d' h hrest hne =>
      rw [← hreq] at h
      cases init with
      | nil =>
        obtain ⟨rfl, rfl⟩ := List.cons.inj h
        obtain ⟨rfl, rfl⟩ := List.cons.inj hname
        exact .inr ⟨hne, rfl, hrest⟩
      | cons b init =>
        obtain ⟨rfl, rfl⟩ := List.cons.inj h
        obtain ⟨rfl, rfl⟩ := List.cons.inj hname
        exact .inl ⟨rfl, .last rfl hrest hne⟩
    | longer hbeyond =>
      rw [← hreq] at hname
      obtain ⟨rfl, rfl⟩ := List.cons.inj hname
      exact .inl ⟨rfl, .longer hbeyond⟩
  · rintro (⟨rfl, h⟩ | ⟨hne, rfl, h⟩)
    · cases h with
      | same h hrest =>
        rw [h]
        exact .same (List.cons_append ..).symm hrest
      | @last init _ _ _ h hrest hne =>
        rw [h]
        exact @Confused.last _ _ (c :: init) _ _ _ rfl hrest hne
      | longer hbeyond => exact Confused.longer hbeyond
    · exact @Confused.last _ _ [] _ _ _ rfl h hne

end Confused

theorem deletes_iff (beyond : Byte) (name reqName : List Byte) :
    deletes beyond name reqName = true ↔ Confused beyond reqName name := by
  fun_induction deletes beyond name reqName with
  | case1 n => rw [head?_all_iff, confused_nil_iff]
  | case2 c s => simp [confused_nil_left_iff]
  | case3 s d n ih => rw [ih, confused_cons_iff]; simp
  | case4 c s d n hne =>
    rw [Bool.and_eq_true, head?_all_iff, confused_cons_iff, decide_eq_true_eq]
    simp [hne]

/-! ## The property -/

section Deletion

variable [DecidableEq V]

/-- A requirement that is deleted. -/
def Deleted (things : List (Thing V)) (name : List Byte) : Prop :=
  ∃ t ∈ things, t.item = .requirement name ∧ t.isDeleted = true

/-- `delete_requirement()` does what it is for. -/
structure DeletesWell (beyond : Byte) (reqName : List Byte) (things : List (Thing V)) : Prop where
  /-- What is of that name is deleted, and nothing else. -/
  exact : ∀ t ∈ things, ∀ name, t.item = .requirement name →
    ((t.delete beyond reqName).isDeleted = true ↔ t.isDeleted = true ∨ IsRequirement reqName name)
  /-- What is deleted is not written, until it is noted again. -/
  hidden : ∀ name, Deleted (deleteRequirement beyond reqName things) name →
    ∀ steps : List ReqStep, (∀ s ∈ steps, ¬s.notes name) →
      let (pages, things) := laterPages steps (deleteRequirement beyond reqName things)
      .requirement name ∉ pages ∧ ascii "Req: " ++ name ∉ writeRequirementLines things
  /-- If it is noted again, it is written again. -/
  again : ∀ name, Deleted (deleteRequirement beyond reqName things) name → ∀ reftype ∈ [reqDoc, reqPage],
    ∀ reqName', requirementName reqName' = some name →
      let things := requirement reftype reqName' (deleteRequirement beyond reqName things)
      ascii "Req: " ++ name ∈ writeRequirementLines things ∧
        (reftype = reqPage → .requirement name ∈ (dumpPageRequirements things).1)

/-- There is nothing to delete, and nothing that is taken for it. -/
def NothingDeleted (beyond : Byte) (reqName : List Byte) (things : List (Thing V)) : Prop :=
  ∀ t ∈ things, ∀ name, t.item = .requirement name →
    t.isDeleted = false ∧ ¬IsRequirement reqName name ∧ ¬Confused beyond reqName name

omit [DecidableEq V] in
theorem isDeleted_delete {beyond : Byte} {reqName name : List Byte} {t : Thing V}
    (ht : t.item = .requirement name) :
    (t.delete beyond reqName).isDeleted = (t.isDeleted || deletes beyond name reqName) := by
  have hor : ∀ flags : BitVec 32, (flags ||| reqDeleted) &&& reqDeleted = reqDeleted := by
    intro flags
    apply BitVec.eq_of_getLsbD_eq
    intro i _
    cases h : reqDeleted.getLsbD i <;> simp [h]
  rw [Thing.delete, ht]
  dsimp only
  split_ifs with h
  · rw [h, Bool.or_true, Thing.isDeleted, hor]
    decide
  · rw [Bool.eq_false_iff.2 h, Bool.or_false]

omit [DecidableEq V] in
theorem item_delete (beyond : Byte) (reqName : List Byte) (t : Thing V) :
    (t.delete beyond reqName).item = t.item := by
  unfold Thing.delete
  split
  · split_ifs <;> rfl
  · rfl

omit [DecidableEq V] in
/-- Whatever its flags say, a requirement is written to the queue file. -/
theorem mem_writeRequirementLines {things : List (Thing V)} {t : Thing V} (ht : t ∈ things)
    {name : List Byte} (hname : t.item = .requirement name) :
    ascii "Req: " ++ name ∈ writeRequirementLines things := by
  rw [writeRequirementLines, List.mem_filterMap]
  exact ⟨t, ht, by rw [hname]⟩

omit [DecidableEq V] in
theorem deleted_deleteRequirement_iff (beyond : Byte) (reqName : List Byte) (things : List (Thing V))
    (name : List Byte) : Deleted (deleteRequirement beyond reqName things) name ↔
      ∃ t ∈ things, t.item = .requirement name ∧
        (t.isDeleted = true ∨ Confused beyond reqName name) := by
  constructor
  · rintro ⟨t', ht', hitem, hdel⟩
    obtain ⟨t, ht, rfl⟩ := List.mem_map.1 ht'
    rw [item_delete] at hitem
    rw [isDeleted_delete hitem, Bool.or_eq_true, deletes_iff] at hdel
    exact ⟨t, ht, hitem, hdel⟩
  · rintro ⟨t, ht, hitem, hdel⟩
    refine ⟨_, List.mem_map_of_mem ht, by rw [item_delete, hitem], ?_⟩
    rw [isDeleted_delete hitem, Bool.or_eq_true, deletes_iff]
    exact hdel

/-- Every requirement is written to the queue file, so the claim holds only where nothing is deleted. -/
theorem deletesWell_iff (beyond : Byte) (reqName : List Byte) (things : List (Thing V)) :
    DeletesWell beyond reqName things ↔ NothingDeleted beyond reqName things := by
  constructor
  · intro h t ht name hname
    have hnone : ¬Deleted (deleteRequirement beyond reqName things) name := by
      intro hdel
      obtain ⟨t', ht', hitem, -⟩ := id hdel
      exact (h.hidden name hdel [] nofun).2 (mem_writeRequirementLines ht' hitem)
    rw [deleted_deleteRequirement_iff] at hnone
    have hkept : ¬(t.isDeleted = true ∨ Confused beyond reqName name) :=
      fun hdel => hnone ⟨t, ht, hname, hdel⟩
    rw [not_or] at hkept
    have hexact := h.exact t ht name hname
    rw [isDeleted_delete hname, Bool.or_eq_true, deletes_iff] at hexact
    refine ⟨Bool.eq_false_iff.2 hkept.1, fun hnamed => ?_, hkept.2⟩
    exact (hexact.2 (.inr hnamed)).elim hkept.1 hkept.2
  · intro h
    have hnone : ∀ name, ¬Deleted (deleteRequirement beyond reqName things) name := by
      intro name hdel
      obtain ⟨t, ht, hname, hdel⟩ := (deleted_deleteRequirement_iff ..).1 hdel
      obtain ⟨hkept, -, hconfused⟩ := h t ht name hname
      rw [hkept] at hdel
      exact hdel.elim nofun hconfused
    refine ⟨fun t ht name hname => ?_, fun name hdel => absurd hdel (hnone name),
      fun name hdel => absurd hdel (hnone name)⟩
    obtain ⟨hkept, hnamed, hconfused⟩ := h t ht name hname
    rw [isDeleted_delete hname, Bool.or_eq_true, deletes_iff, hkept]
    simp [hnamed, hconfused]

/-! ## The pages after a deletion -/

/-- The requirement is recorded, and is deleted wherever it is. -/
structure Gone (name : List Byte) (things : List (Thing V)) : Prop where
  recorded : ∃ t ∈ things, t.item = .requirement name
  deleted : ∀ t ∈ things, t.item = .requirement name → t.isDeleted = true

variable {name : List Byte} {things : List (Thing V)}

omit [DecidableEq V] in
theorem isDeleted_iff (t : Thing V) : t.isDeleted = true ↔ t.flags.getLsbD 2 = true := by
  have hbit : reqDeleted = BitVec.twoPow 32 2 := by decide
  rw [Thing.isDeleted, decide_eq_true_eq, hbit, BitVec.and_twoPow]
  by_cases h : t.flags.getLsbD 2 = true
  · rw [if_pos h]
    exact ⟨fun _ => h, fun _ => by decide⟩
  · rw [if_neg h]
    exact ⟨fun hne => absurd rfl hne, fun h' => absurd h' h⟩

omit [DecidableEq V] in
/-- A change of flags that does not clear this one. -/
theorem Gone.of_map {change : Thing V → Thing V} (h : Gone name things)
    (hitem : ∀ t, (change t).item = t.item) (hflag : ∀ t, t.isDeleted = true → (change t).isDeleted = true) :
    Gone name (things.map change) where
  recorded := by
    obtain ⟨t, ht, hname⟩ := h.recorded
    exact ⟨_, List.mem_map_of_mem ht, by rw [hitem, hname]⟩
  deleted := by
    intro u hu hname
    obtain ⟨t, ht, rfl⟩ := List.mem_map.1 hu
    rw [hitem] at hname
    exact hflag t (h.deleted t ht hname)

/-- Noting a requirement again does not bring it back. -/
theorem Gone.requirement (h : Gone name things) (reftype : BitVec 32) (reqName : List Byte) :
    Gone name (requirement reftype reqName things) := by
  unfold Ppr.requirement
  split
  · rename_i x hx
    rcases refer_cases reftype (.requirement x) things with ⟨i, t, -, -, hrefer⟩ | ⟨hnew, hrefer⟩
    · rw [hrefer]
      constructor
      · obtain ⟨t, ht, hname⟩ := h.recorded
        obtain ⟨j, hj⟩ := List.mem_iff_getElem?.1 ht
        refine ⟨if i = j then { t with flags := t.flags ||| reftype } else t,
          List.mem_iff_getElem?.2 ⟨j, ?_⟩, ?_⟩
        · rw [List.getElem?_modify, hj]
          split_ifs <;> rfl
        · split_ifs <;> exact hname
      · intro t ht hname
        rcases List.mem_modify ht with ht | ⟨b, hb, -, rfl⟩
        · exact h.deleted t ht hname
        · have hb' := h.deleted b hb hname
          rw [isDeleted_iff] at hb' ⊢
          rw [BitVec.getLsbD_or, hb', Bool.true_or]
    · obtain ⟨t, ht, hname⟩ := h.recorded
      rw [hrefer]
      refine ⟨⟨t, List.mem_append_left _ ht, hname⟩, fun u hu hu' => ?_⟩
      rcases List.mem_append.1 hu with hu | hu
      · exact h.deleted u hu hu'
      · rw [List.mem_singleton.1 hu] at hu'
        exact absurd (hname.trans hu'.symm) (hnew t ht)
  · exact h

omit [DecidableEq V] in
/-- Nor does the end of a page, where it is not written. -/
theorem Gone.dump (h : Gone name things) :
    .requirement name ∉ (dumpPageRequirements things).1 ∧ Gone name (dumpPageRequirements things).2 := by
  constructor
  · intro hmem
    obtain ⟨t, ht, hname⟩ := List.mem_map.1 hmem
    obtain ⟨ht, hpage⟩ := List.mem_filter.1 ht
    have hdel := h.deleted t ht hname
    rw [Thing.isDeleted, decide_eq_true_eq] at hdel
    rw [Thing.pageRequirement, Bool.and_eq_true, Bool.and_eq_true, decide_eq_true_eq] at hpage
    exact hdel hpage.1.2
  · apply h.of_map
    · intro t
      split_ifs <;> rfl
    · intro t hdel
      split_ifs with hpage
      · rw [Thing.pageRequirement, Bool.and_eq_true, Bool.and_eq_true, decide_eq_true_eq] at hpage
        rw [Thing.isDeleted, decide_eq_true_eq] at hdel
        exact absurd hpage.1.2 hdel
      · exact hdel

/-- A requirement that is deleted is on no later page, even if it is noted again. -/
theorem Gone.notMem_laterPages (h : Gone name things) (steps : List ReqStep) :
    .requirement name ∉ (laterPages steps things).1 := by
  induction steps generalizing things with
  | nil => exact List.not_mem_nil
  | cons step steps ih =>
    cases step with
    | requirement reftype reqName => exact ih (h.requirement reftype reqName)
    | endOfPage =>
      obtain ⟨hpage, hgone⟩ := h.dump
      show Item.requirement name ∉ (dumpPageRequirements things).1 ++ _
      rw [List.mem_append, not_or]
      exact ⟨hpage, ih hgone⟩

end Deletion

/-- The requirement of a document that is to be printed with the pages tumbled. -/
def tumbled : List (Thing ℕ) := [⟨.requirement (ascii "duplex(tumble)"), reqDoc⟩]

/-- It is not deleted with "duplex". -/
theorem not_deletesWell_tumbled :
    ¬∀ (beyond : Byte) (reqName : List Byte) (things : List (Thing ℕ)),
      DeletesWell beyond reqName things := by
  intro h
  have hexact := (h 0 (ascii "duplex") tumbled).exact _ (List.mem_singleton_self _) _ rfl
  have hnamed : IsRequirement (ascii "duplex") (ascii "duplex(tumble)") :=
    .inr ⟨ascii "tumble", by decide⟩
  exact absurd (hexact.2 (.inr hnamed)) (by decide)

end Ppr
