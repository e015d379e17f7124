import Ppr.Lib.Machine
import Ppr.Libgu.Sscanf

/-!
# Edits of one configuration file

The file steps of `conf_set_name()` of `ppad_conf.c`, with `conf_open()` and `conf_close()`, made by any
number of processes on one destination.  A lock belongs to a file and not to its name: `rename()` makes
the name lead to another file, and what is open stays open.  The temporary file has the number of its
process in its name, so it is part of where the process is.
-/

namespace Ppr

/-- What `conf_set_name()` is called with; without a value the keyword is deleted. -/
structure ConfEdit where
  name : List Byte
  value : Option (List Byte)

/-- The line begins with the keyword and a colon. -/
def ConfEdit.matches (e : ConfEdit) (l : List Byte) : Bool := (e.name ++ [58]).isPrefixOf l

/-- The new line. -/
def ConfEdit.line (e : ConfEdit) : List Byte :=
  match e.value with
  | some v => e.name ++ [58, 32] ++ v ++ [newline]
  | none => []

/-- Where a process is. -/
inductive ConfPhase where
  /-- It is about to open the file. -/
  | start
  | opened (file : ℕ)
  /-- It copies the lines that the file still has.  The new line is written or not. -/
  | copying (file : ℕ) (found : Bool) (rest : List (List Byte)) (out : List Byte)
  /-- It is in `conf_close()`. -/
  | copied (file : ℕ) (out : List Byte)
  /-- It has closed the old file, but the new one is not yet in its place. -/
  | closed (out : List Byte)
  | done
  deriving DecidableEq

variable {π : Type}

/-- The files, the locks on them, and the processes. -/
structure ConfState (π : Type) where
  files : ℕ → List Byte
  /-- The file the name leads to. -/
  path : ℕ
  /-- No file from here on was ever made. -/
  next : ℕ
  lock : ℕ → Option π
  phase : π → ConfPhase

/-- A step of a process. -/
inductive ConfStep (π : Type) where
  | fopen (p : π)
  /-- `gu_lock_exclusive()` without waiting; if it fails, the file is closed. -/
  | tryLock (p : π)
  /-- One turn of a loop of `conf_set_name()`, or the end of one. -/
  | copyLine (p : π)
  | closeIn (p : π)
  | rename (p : π)

variable [DecidableEq π]

def ConfState.goto (s : ConfState π) (p : π) (ph : ConfPhase) : ConfState π :=
  { s with phase := Function.update s.phase p ph }

/-- One turn of the first loop up to its end, and of the second one. -/
def copyTurn (e : ConfEdit) (file : ℕ) : Bool → List (List Byte) → List Byte → ConfPhase
  | false, l :: rest, out =>
    if e.matches (chop l) then .copying file true rest (out ++ e.line)
    else .copying file false rest (out ++ chop l ++ [newline])
  | false, [], out => .copying file true [] (out ++ e.line)
  | true, l :: rest, out =>
    if e.matches (chop l) then .copying file true rest out
    else .copying file true rest (out ++ chop l ++ [newline])
  | true, [], out => .copied file out

/-- A step, if the process is where it can make it. -/
def ConfState.step (edit : π → ConfEdit) (s : ConfState π) : ConfStep π → Option (ConfState π)
  | .fopen p =>
    match s.phase p with
    | .start => some (s.goto p (.opened s.path))
    | _ => none
  | .tryLock p =>
    match s.phase p with
    | .opened i =>
      match s.lock i with
      | none =>
        some { s.goto p (.copying i false (rawLines (s.files i)) []) with
          lock := Function.update s.lock i (some p) }
      | some _ => some (s.goto p .start)
    | _ => none
  | .copyLine p =>
    match s.phase p with
    | .copying i found rest out => some (s.goto p (copyTurn (edit p) i found rest out))
    | _ => none
  | .closeIn p =>
    match s.phase p with
    | .copied i out =>
      some { s.goto p (.closed out) with lock := Function.update s.lock i none }
    | _ => none
  | .rename p =>
    match s.phase p with
    | .closed out =>
      some { s.goto p .done with
        files := Function.update s.files s.next out
        path := s.next
        next := s.next + 1 }
    | _ => none

/-- A configuration file that no process has open. -/
def ConfState.initial (c : List Byte) : ConfState π where
  files := fun _ => c
  path := 0
  next := 1
  lock := fun _ => none
  phase := fun _ => .start

/-- The interleavings of the steps of the processes. -/
def ConfRun (edit : π → ConfEdit) (c : List Byte) :
    List (ConfState π × ConfStep π) → ConfState π → Prop :=
  Machine.Run (fun s => s = ConfState.initial c) fun s a t => s.step edit a = some t

/-! ## The property and the condition -/

/-- An edit of the lines of a file: the first line with the keyword is replaced, or else a line is
added; further ones are removed, and every other line is kept as it is. -/
def ConfEdit.editLines (e : ConfEdit) (ls : List (List Byte)) : List (List Byte) :=
  ls.takeWhile (fun l => !e.matches l) ++
    e.line :: (ls.dropWhile fun l => !e.matches l).tail.filter fun l => !e.matches l

def ConfEdit.apply (e : ConfEdit) (c : List Byte) : List Byte := (e.editLines (rawLines c)).flatten

/-- The file that the name leads to. -/
def ConfState.content (s : ConfState π) : List Byte := s.files s.path

/-- The file is the result of the edits of all that are done, one after another in some order. -/
def ConfState.Serialised (edit : π → ConfEdit) (c : List Byte) (s : ConfState π) : Prop :=
  ∃ order : List π, order.Nodup ∧ (∀ p, p ∈ order ↔ s.phase p = .done) ∧
    s.content = order.foldl (fun c p => (edit p).apply c) c

def ConfPhase.openedFile : ConfPhase → Option ℕ
  | .opened i => some i
  | _ => none

/-- The line that is copied next. -/
def ConfPhase.nextLine : ConfPhase → Option (List Byte)
  | .copying _ _ rest _ => rest.head?
  | _ => none

def ConfPhase.isClosed : ConfPhase → Bool
  | .closed _ => true
  | _ => false

/-- A lock is taken on the file that the name leads to, while no process is between closing the old
file and renaming the new one; and each line that is copied has nothing but a newline after its last
character that is not space. -/
def OrderlyStep (edit : π → ConfEdit) (s : ConfState π) : ConfStep π → Prop
  | .tryLock p => ∀ i ∈ (s.phase p).openedFile, s.lock i = none →
    i = s.path ∧ ∀ q, (s.phase q).isClosed = false
  | .copyLine p => ∀ l ∈ (s.phase p).nextLine, (edit p).matches l = false → chop l ++ [newline] = l
  | _ => True

instance [Fintype π] (edit : π → ConfEdit) (s : ConfState π) :
    ∀ a : ConfStep π, Decidable (OrderlyStep edit s a)
  | .fopen _ => inferInstanceAs (Decidable True)
  | .tryLock p => inferInstanceAs (Decidable (∀ i ∈ (s.phase p).openedFile, s.lock i = none →
    i = s.path ∧ ∀ q, (s.phase q).isClosed = false))
  | .copyLine p => inferInstanceAs (Decidable (∀ l ∈ (s.phase p).nextLine,
    (edit p).matches l = false → chop l ++ [newline] = l))
  | .closeIn _ => inferInstanceAs (Decidable True)
  | .rename _ => inferInstanceAs (Decidable True)

/-! ## One copy -/

theorem ConfEdit.matches_chop (e : ConfEdit) (l : List Byte) : e.matches (chop l) = e.matches l := by
  have h : e.name ++ [58] <+: chop l ↔ e.name ++ [58] <+: l := by
    constructor
    · exact fun h => h.trans (chop_isPrefix l)
    · rintro ⟨t, rfl⟩
      rcases eq_or_ne (chop t) [] with ht | ht
      · have hcolon : chop (e.name ++ [58]) = e.name ++ [58] := by
          rw [chop_eq_self_iff]
          simp [isspace]
        rw [chop_append_of_eq ht, hcolon]
      · rw [chop_append_of_ne ht]
        exact List.prefix_append _ _
  rw [ConfEdit.matches, ConfEdit.matches, Bool.eq_iff_iff, List.isPrefixOf_iff_prefix,
    List.isPrefixOf_iff_prefix]
  exact h

/-- What an edit makes of the lines that are still to be copied. -/
def ConfEdit.remaining (e : ConfEdit) : Bool → List (List Byte) → List Byte
  | false, rest => (e.editLines rest).flatten
  | true, rest => (rest.filter fun l => !e.matches l).flatten

theorem editLines_cons_of_matches {e : ConfEdit} {l : List Byte} (h : e.matches l = true)
    (rest : List (List Byte)) :
    e.editLines (l :: rest) = e.line :: rest.filter fun l => !e.matches l := by
  simp [ConfEdit.editLines, h]

theorem editLines_cons_of_not_matches {e : ConfEdit} {l : List Byte} (h : e.matches l = false)
    (rest : List (List Byte)) : e.editLines (l :: rest) = l :: e.editLines rest := by
  simp [ConfEdit.editLines, h]

/-- Where a process is in its edit of the file that the name leads to. -/
def Proceeds (e : ConfEdit) (s : ConfState π) (p : π) : ConfPhase → Prop
  | .start => True
  | .opened _ => True
  | .copying i found rest out =>
    i = s.path ∧ s.lock i = some p ∧ out ++ e.remaining found rest = e.apply s.content
  | .copied i out => i = s.path ∧ s.lock i = some p ∧ out = e.apply s.content
  | .closed out => out = e.apply s.content
  | .done => True

omit [DecidableEq π] in
/-- A turn brings the process forward. -/
theorem Proceeds.copyTurn {e : ConfEdit} {s : ConfState π} {p : π} {i : ℕ} {found : Bool}
    {rest : List (List Byte)} {out : List Byte} (h : Proceeds e s p (.copying i found rest out))
    (hl : ∀ l ∈ rest.head?, e.matches l = false → chop l ++ [newline] = l) :
    Proceeds e s p (copyTurn e i found rest out) := by
  obtain ⟨hi, hlock, hout⟩ := h
  cases found with
  | false =>
    cases rest with
    | nil =>
      refine ⟨hi, hlock, ?_⟩
      rw [← hout]
      simp [ConfEdit.remaining, ConfEdit.editLines]
    | cons l rest =>
      cases hm : e.matches l with
      | true =>
        rw [Ppr.copyTurn, e.matches_chop, if_pos hm]
        refine ⟨hi, hlock, ?_⟩
        rw [← hout, ConfEdit.remaining, ConfEdit.remaining, editLines_cons_of_matches hm,
          List.flatten_cons, List.append_assoc]
      | false =>
        rw [Ppr.copyTurn, e.matches_chop, if_neg (by simp [hm])]
        refine ⟨hi, hlock, ?_⟩
        rw [← hout, List.append_assoc out, hl l rfl hm, ConfEdit.remaining, ConfEdit.remaining,
          editLines_cons_of_not_matches hm, List.flatten_cons, List.append_assoc]
  | true =>
    cases rest with
    | nil =>
      refine ⟨hi, hlock, ?_⟩
      rw [← hout]
      simp [ConfEdit.remaining]
    | cons l rest =>
      cases hm : e.matches l with
      | true =>
        rw [Ppr.copyTurn, e.matches_chop, if_pos hm]
        refine ⟨hi, hlock, ?_⟩
        rw [← hout]
        simp [ConfEdit.remaining, hm]
      | false =>
        rw [Ppr.copyTurn, e.matches_chop, if_neg (by simp [hm])]
        refine ⟨hi, hlock, ?_⟩
        rw [← hout, List.append_assoc out, hl l rfl hm]
        simp [ConfEdit.remaining, hm]

/-! ## The invariant -/

/-- The process has the lock, or has just given it up. -/
def ConfPhase.Active : ConfPhase → Prop
  | .copying _ _ _ _ => True
  | .copied _ _ => True
  | .closed _ => True
  | _ => False

/-- What holds while the steps are orderly. -/
structure ConfInv (edit : π → ConfEdit) (c : List Byte) (s : ConfState π) : Prop where
  serialised : s.Serialised edit c
  proceeds : ∀ p, Proceeds (edit p) s p (s.phase p)
  alone : ∀ p q, (s.phase p).Active → (s.phase q).Active → p = q

variable {edit : π → ConfEdit} {c : List Byte} {s t : ConfState π}

omit [DecidableEq π] in
theorem ConfInv.initial (edit : π → ConfEdit) (c : List Byte) :
    ConfInv edit c (ConfState.initial c) where
  serialised := ⟨[], List.nodup_nil, fun p => by simp [ConfState.initial], rfl⟩
  proceeds := fun p => trivial
  alone := fun p q h => h.elim

omit [DecidableEq π] in
theorem Proceeds.of_not_active {e : ConfEdit} {p : π} {ph : ConfPhase} (h : ¬ph.Active) :
    Proceeds e s p ph := by
  cases ph with
  | start => trivial
  | opened i => trivial
  | copying i found rest out => exact absurd trivial h
  | copied i out => exact absurd trivial h
  | closed out => exact absurd trivial h
  | done => trivial

omit [DecidableEq π] in
/-- The others are not active. -/
theorem ConfInv.others (h : ConfInv edit c s) {p : π} (hp : (s.phase p).Active) :
    ∀ q, q ≠ p → ¬(s.phase q).Active :=
  fun q hq hact => hq (h.alone q p hact hp)

omit [DecidableEq π] in
/-- It is enough to look at one process if the others are not active. -/
theorem ConfInv.of_others {p : π} (hser : t.Serialised edit c)
    (hp : Proceeds (edit p) t p (t.phase p)) (hothers : ∀ q, q ≠ p → ¬(t.phase q).Active) :
    ConfInv edit c t where
  serialised := hser
  proceeds := by
    intro q
    by_cases hq : q = p
    · rw [hq]
      exact hp
    · exact .of_not_active (hothers q hq)
  alone := by
    intro q r hq hr
    have hqp : q = p := by_contra fun h => hothers q h hq
    have hrp : r = p := by_contra fun h => hothers r h hr
    rw [hqp, hrp]

/-- As long as no process gets done, the same edits are done. -/
theorem ConfState.Serialised.goto (h : s.Serialised edit c) {p : π} {ph : ConfPhase}
    (hp : s.phase p ≠ .done) (hph : ph ≠ .done) : (s.goto p ph).Serialised edit c := by
  obtain ⟨order, hnodup, hmem, hcontent⟩ := h
  refine ⟨order, hnodup, fun q => ?_, hcontent⟩
  rw [hmem q]
  by_cases hq : q = p
  · subst hq
    simp [ConfState.goto, hp, hph]
  · simp [ConfState.goto, Function.update_of_ne hq]

theorem phase_goto_self (s : ConfState π) (p : π) (ph : ConfPhase) : (s.goto p ph).phase p = ph :=
  Function.update_self ..

theorem phase_goto_of_ne (s : ConfState π) {p q : π} (h : q ≠ p) (ph : ConfPhase) :
    (s.goto p ph).phase q = s.phase q :=
  Function.update_of_ne h ..

/-- A process that is not active can go where it is not active. -/
theorem ConfInv.goto_inactive (h : ConfInv edit c s) {p : π} {ph : ConfPhase}
    (hp : s.phase p ≠ .done) (hph : ph ≠ .done) (hact : ¬ph.Active) :
    ConfInv edit c (s.goto p ph) where
  serialised := h.serialised.goto hp hph
  proceeds := by
    intro q
    by_cases hq : q = p
    · rw [hq, phase_goto_self]
      exact .of_not_active hact
    · rw [phase_goto_of_ne s hq]
      exact h.proceeds q
  alone := by
    have hstays : ∀ q, ((s.goto p ph).phase q).Active → (s.phase q).Active := by
      intro q hq
      by_cases hqp : q = p
      · rw [hqp, phase_goto_self] at hq
        exact absurd hq hact
      · rwa [phase_goto_of_ne s hqp] at hq
    exact fun q r hq hr => h.alone q r (hstays q hq) (hstays r hr)

/-! ## The steps -/

section Steps

variable {p : π}

theorem ConfInv.fopen (h : ConfInv edit c s) (hs : s.step edit (.fopen p) = some t) :
    ConfInv edit c t := by
  simp only [ConfState.step] at hs
  split at hs
  · rename_i hp
    cases hs
    exact h.goto_inactive (by simp [hp]) (by simp) id
  · cases hs

/-- A process that gets the lock on the file that the name leads to is the only active one. -/
theorem ConfInv.tryLock (h : ConfInv edit c s) (hs : s.step edit (.tryLock p) = some t)
    (ho : OrderlyStep edit s (.tryLock p)) : ConfInv edit c t := by
  simp only [ConfState.step] at hs
  split at hs
  · rename_i i hp
    split at hs
    · rename_i hlock
      cases hs
      obtain ⟨rfl, hclosed⟩ := ho i (by rw [hp]; rfl) hlock
      have hnone : ∀ q, ¬(s.phase q).Active := by
        intro q hq
        have hproceeds := h.proceeds q
        -- whoever copies has the lock, which was free
        cases hph : s.phase q with
        | start => rw [hph] at hq; exact hq
        | opened i => rw [hph] at hq; exact hq
        | copying i found rest out =>
          rw [hph] at hproceeds
          obtain ⟨rfl, hq', -⟩ := hproceeds
          rw [hlock] at hq'
          cases hq'
        | copied i out =>
          rw [hph] at hproceeds
          obtain ⟨rfl, hq', -⟩ := hproceeds
          rw [hlock] at hq'
          cases hq'
        | closed out => simpa [hph, ConfPhase.isClosed] using hclosed q
        | done => rw [hph] at hq; exact hq
      have hgoto : (s.goto p (.copying s.path false (rawLines (s.files s.path)) [])).Serialised
          edit c := h.serialised.goto (by simp [hp]) (by simp)
      refine .of_others (p := p) hgoto ?_ fun q hq => ?_
      · show Proceeds _ _ _ ((s.goto p _).phase p)
        rw [phase_goto_self]
        exact ⟨rfl, Function.update_self .., rfl⟩
      · show ¬((s.goto p _).phase q).Active
        rw [phase_goto_of_ne s hq]
        exact hnone q
    · cases hs
      exact h.goto_inactive (by simp [hp]) (by simp) id
  · cases hs

theorem ConfInv.copyLine (h : ConfInv edit c s) (hs : s.step edit (.copyLine p) = some t)
    (ho : OrderlyStep edit s (.copyLine p)) : ConfInv edit c t := by
  simp only [ConfState.step] at hs
  split at hs
  · rename_i i found rest out hp
    cases hs
    have hproceeds := h.proceeds p
    rw [hp] at hproceeds
    have hl : ∀ l ∈ rest.head?, (edit p).matches l = false → chop l ++ [newline] = l := by
      simpa only [OrderlyStep, hp, ConfPhase.nextLine] using ho
    have hturn : copyTurn (edit p) i found rest out ≠ .done := by
      cases found <;> cases rest <;> simp only [copyTurn] <;> try split_ifs
      all_goals simp
    refine .of_others (p := p) (h.serialised.goto (by simp [hp]) hturn) ?_ fun q hq => ?_
    · rw [phase_goto_self]
      exact hproceeds.copyTurn hl
    · rw [phase_goto_of_ne s hq]
      exact h.others (by rw [hp]; trivial) q hq
  · cases hs

theorem ConfInv.closeIn (h : ConfInv edit c s) (hs : s.step edit (.closeIn p) = some t) :
    ConfInv edit c t := by
  simp only [ConfState.step] at hs
  split at hs
  · rename_i i out hp
    cases hs
    have hproceeds := h.proceeds p
    rw [hp] at hproceeds
    have hgoto : (s.goto p (.closed out)).Serialised edit c :=
      h.serialised.goto (by simp [hp]) (by simp)
    refine .of_others (p := p) hgoto ?_ fun q hq => ?_
    · show Proceeds _ _ _ ((s.goto p _).phase p)
      rw [phase_goto_self]
      exact hproceeds.2.2
    · show ¬((s.goto p _).phase q).Active
      rw [phase_goto_of_ne s hq]
      exact h.others (by rw [hp]; trivial) q hq
  · cases hs

/-- The new file is that of the edits before, with the edit of the process. -/
theorem ConfInv.rename (h : ConfInv edit c s) (hs : s.step edit (.rename p) = some t) :
    ConfInv edit c t := by
  simp only [ConfState.step] at hs
  split at hs
  · rename_i out hp
    cases hs
    have hout := h.proceeds p
    rw [hp] at hout
    obtain ⟨order, hnodup, hmem, hcontent⟩ := h.serialised
    have hnew : p ∉ order := by
      rw [hmem p, hp]
      simp
    refine .of_others (p := p) ⟨order ++ [p], ?_, fun q => ?_, ?_⟩ ?_ fun q hq => ?_
    · exact hnodup.append (List.nodup_singleton p) (by simpa using hnew)
    · show q ∈ order ++ [p] ↔ (s.goto p .done).phase q = .done
      by_cases hq : q = p
      · simp [hq, phase_goto_self]
      · rw [phase_goto_of_ne s hq, ← hmem q]
        simp [hq]
    · rw [List.foldl_append, ← hcontent]
      exact (Function.update_self ..).trans hout
    · show Proceeds _ _ _ ((s.goto p .done).phase p)
      rw [phase_goto_self]
      trivial
    · show ¬((s.goto p _).phase q).Active
      rw [phase_goto_of_ne s hq]
      exact h.others (by rw [hp]; trivial) q hq
  · cases hs

end Steps

theorem ConfInv.step (h : ConfInv edit c s) {a : ConfStep π} (hs : s.step edit a = some t)
    (ho : OrderlyStep edit s a) : ConfInv edit c t := by
  cases a with
  | fopen p => exact h.fopen hs
  | tryLock p => exact h.tryLock hs ho
  | copyLine p => exact h.copyLine hs ho
  | closeIn p => exact h.closeIn hs
  | rename p => exact h.rename hs

/-- In every interleaving of orderly steps, the file is the result of the edits one after another. -/
theorem edits_serialised (edit : π → ConfEdit) (c : List Byte) (h : List (ConfState π × ConfStep π))
    (s : ConfState π) (run : ConfRun edit c h s) (ho : ∀ sa ∈ h, OrderlyStep edit sa.1 sa.2) :
    s.Serialised edit c := by
  have hinv : (∀ sa ∈ h, OrderlyStep edit sa.1 sa.2) → ConfInv edit c s := by
    refine Machine.Run.history_invariant (I := fun h s =>
      (∀ sa ∈ h, OrderlyStep edit sa.1 sa.2) → ConfInv edit c s) ?_ ?_ run
    · rintro s rfl -
      exact .initial edit c
    · intro h s a t ih hs ho
      rw [List.forall_mem_cons] at ho
      exact (ih ho.2).step hs ho.1
  exact (hinv ho).serialised

section Runs

theorem exists_confRun (edit : π → ConfEdit) (c : List Byte) {P : List (ConfState π × ConfStep π) → ConfState π → Prop}
    [∀ h s, Decidable (P h s)] (steps : List (ConfStep π))
    (h : (Machine.replay (ConfState.step edit) [] (ConfState.initial c) steps).any
      (fun hs => decide (P hs.1 hs.2)) = true) : ∃ h s, ConfRun edit c h s ∧ P h s :=
  Machine.exists_run_of_replay steps rfl h

/-- One process sets "X" to 1, and the other "Y" to 2. -/
private def twoEdits : Bool → ConfEdit
  | false => ⟨[88], some [49]⟩
  | true => ⟨[89], some [50]⟩

/-- The line "X: 0". -/
private def oneLine : List Byte := [88, 58, 32, 48, 10]

/-- One process gets the lock; the other does not, and opens the file again when the first is done. -/
private def inTurn : List (ConfStep Bool) :=
  [.fopen false, .tryLock false, .fopen true, .tryLock true, .copyLine false, .copyLine false,
    .closeIn false, .rename false, .fopen true, .tryLock true, .copyLine true, .copyLine true,
    .copyLine true, .closeIn true, .rename true]

theorem edits_serialised_in_turn : ∃ h s, ConfRun twoEdits oneLine h s ∧
    (∀ sa ∈ h, OrderlyStep twoEdits sa.1 sa.2) ∧ (∀ p, s.phase p = .done) ∧
    s.content = [88, 58, 32, 49, 10, 89, 58, 32, 50, 10] ∧ s.Serialised twoEdits oneLine := by
  obtain ⟨h, s, run, ho, hdone, hcontent⟩ := exists_confRun twoEdits oneLine
    (P := fun h s => (∀ sa ∈ h, OrderlyStep twoEdits sa.1 sa.2) ∧ (∀ p, s.phase p = .done) ∧
      s.content = [88, 58, 32, 49, 10, 89, 58, 32, 50, 10]) inTurn (by decide)
  exact ⟨h, s, run, ho, hdone, hcontent, edits_serialised _ _ h s run ho⟩

/-- A process has closed the old file, and before it renames the new one another process gets the
lock on the old one. -/
private def lockedTooEarly : List (ConfStep Bool) :=
  [.fopen false, .tryLock false, .copyLine false, .copyLine false, .closeIn false, .fopen true,
    .tryLock true, .rename false, .copyLine true, .copyLine true, .copyLine true, .closeIn true,
    .rename true]

theorem edit_lost : ¬∀ (edit : Bool → ConfEdit) (c : List Byte) h s, ConfRun edit c h s →
    (∀ p, s.phase p = .done) → s.Serialised edit c := by
  intro hall
  obtain ⟨h, s, run, hdone, hlost⟩ := exists_confRun twoEdits oneLine
    (P := fun _ s => (∀ p, s.phase p = .done) ∧ s.content = oneLine ++ [89, 58, 32, 50, 10])
    lockedTooEarly (by decide)
  obtain ⟨order, hnodup, hmem, hcontent⟩ := hall twoEdits oneLine h s run hdone
  have hperm : order ∈ [false, true].permutations' := by
    rw [List.mem_permutations', List.perm_ext_iff_of_nodup hnodup (by decide)]
    simp [hmem, hdone]
  have hboth : ∀ order ∈ [false, true].permutations',
      oneLine ++ [89, 58, 32, 50, 10] ≠ order.foldl (fun c p => (twoEdits p).apply c) oneLine := by
    decide
  exact hboth order hperm (hlost.symm.trans hcontent)

end Runs

end Ppr
