import Mathlib.Data.List.Basic
import Mathlib.Tactic.Common

/-!
# Paths in a tree of files

A place in a tree is the list of the names on the way to it from the root.  A path is walked hop by
hop, and every hop is made from a directory.  What a path comes to when its hops are cancelled against
each other is its route: some directories up and then some names down.
-/

namespace Paths

variable {N : Type}

/-- A component of a path. -/
inductive Hop (N : Type) where
  /-- No name, or `.`. -/
  | stay
  /-- `..`. -/
  | up
  | down (n : N)
  deriving DecidableEq

/-- Directories and other files, without links. -/
structure FileTree (N : Type) where
  isDir : List N → Bool
  isFile : List N → Bool
  /-- What is there is in a directory. -/
  parent : ∀ p n, isDir (p ++ [n]) ∨ isFile (p ++ [n]) → isDir p

/-! ## Walking -/

/-- Where a hop leads; above the root is the root. -/
def after (p : List N) : Hop N → List N
  | .stay => p
  | .up => p.dropLast
  | .down n => p ++ [n]

/-- Where the hops lead. -/
def place (p : List N) (hs : List (Hop N)) : List N := hs.foldl after p

@[simp] theorem place_nil (p : List N) : place p [] = p := rfl

@[simp] theorem place_cons (p : List N) (h : Hop N) (hs : List (Hop N)) :
    place p (h :: hs) = place (after p h) hs := rfl

theorem place_append (p : List N) (hs ks : List (Hop N)) :
    place p (hs ++ ks) = place (place p hs) ks := List.foldl_append

theorem place_down (p ns : List N) : place p (ns.map .down) = p ++ ns := by
  induction ns generalizing p with
  | nil => simp
  | cons n ns ih => simp [after, ih]

namespace FileTree

variable (t : FileTree N)

/-- Something is there. -/
def present (p : List N) : Bool := t.isDir p || t.isFile p

/-- What is found from a place. -/
def walk (p : List N) : List (Hop N) → Option (List N)
  | [] => if t.present p then some p else none
  | h :: hs => if t.isDir p then walk (after p h) hs else none

variable {t}

theorem walk_place {p q : List N} {hs : List (Hop N)} (h : t.walk p hs = some q) : q = place p hs := by
  induction hs generalizing p with
  | nil =>
    rw [walk] at h
    split_ifs at h
    exact (Option.some.inj h).symm
  | cons k hs ih =>
    rw [walk] at h
    split_ifs at h
    exact ih h

/-- The hops of the first part are made first. -/
theorem walk_append {p q : List N} {hs ks : List (Hop N)} (h : t.walk p (hs ++ ks) = some q) :
    t.walk p hs = some (place p hs) ∧ t.walk (place p hs) ks = some q := by
  induction hs generalizing p with
  | nil =>
    refine ⟨?_, h⟩
    have hpresent : t.present p = true := by
      cases ks with
      | nil =>
        rw [List.nil_append, walk] at h
        split_ifs at h with hp
        exact hp
      | cons k ks =>
        rw [List.nil_append, walk] at h
        split_ifs at h with hp
        rw [present, hp, Bool.true_or]
    rw [walk, if_pos hpresent, place_nil]
  | cons k hs ih =>
    rw [List.cons_append, walk] at h
    split_ifs at h with hp
    rw [walk, if_pos hp, place_cons]
    exact ih h

/-- Every place is a directory. -/
def full : FileTree N where
  isDir _ := true
  isFile _ := false
  parent _ _ _ := rfl

theorem walk_full (p : List N) (hs : List (Hop N)) : full.walk p hs = some (place p hs) := by
  induction hs generalizing p with
  | nil => rfl
  | cons h hs ih => exact ih _

/-- The files of a list, and the directories that they are in. -/
def ofFiles [DecidableEq N] (files : List (List N)) : FileTree N where
  isDir p := files.any fun f => p.isPrefixOf f && p.length < f.length
  isFile p := files.contains p
  parent p n h := by
    have hprefix : ∃ f ∈ files, p ++ [n] <+: f := by
      rcases h with h | h
      · obtain ⟨f, hf, hp⟩ := List.any_eq_true.1 h
        rw [Bool.and_eq_true, List.isPrefixOf_iff_prefix] at hp
        exact ⟨f, hf, hp.1⟩
      · exact ⟨p ++ [n], List.contains_iff_mem.1 h, List.prefix_rfl⟩
    obtain ⟨f, hf, hp⟩ := hprefix
    have hlength := hp.length_le
    rw [List.length_append, List.length_singleton] at hlength
    refine List.any_eq_true.2 ⟨f, hf, ?_⟩
    rw [Bool.and_eq_true, List.isPrefixOf_iff_prefix, decide_eq_true_eq]
    exact ⟨(List.prefix_append p [n]).trans hp, by omega⟩

end FileTree

/-! ## Below a directory -/

/-- The place is under the directory `base`. -/
def Below (base p : List N) : Prop := ∃ e ≠ [], p = base ++ e

/-- A path with its hops cancelled. -/
structure Route (N : Type) where
  ups : ℕ
  downs : List N

namespace Route

/-- One more hop. -/
def hop (r : Route N) : Hop N → Route N
  | .stay => r
  | .up => if r.downs = [] then { r with ups := r.ups + 1 } else { r with downs := r.downs.dropLast }
  | .down n => { r with downs := r.downs ++ [n] }

/-- What the hops come to. -/
def of (hs : List (Hop N)) : Route N := hs.foldl hop ⟨0, []⟩

/-- Where it leads. -/
def place (r : Route N) (base : List N) : List N := base.take (base.length - r.ups) ++ r.downs

/-- It goes down from `base`, if need be by the names by which it went up, and further. -/
def Descends (r : Route N) (base : List N) : Prop :=
  ∃ e ≠ [], r.downs = base.drop (base.length - r.ups) ++ e

theorem place_hop (r : Route N) (base : List N) (h : Hop N) :
    (r.hop h).place base = after (r.place base) h := by
  cases h with
  | stay => rfl
  | up =>
    rw [hop, after]
    by_cases hnil : r.downs = []
    · have hmin : min ((base.take (base.length - r.ups)).length - 1) (base.length - r.ups) =
          base.length - (r.ups + 1) := by
        rw [List.length_take]
        omega
      rw [if_pos hnil, place, place, hnil, List.append_nil, List.append_nil, List.dropLast_eq_take,
        List.take_take, hmin]
    · rw [if_neg hnil, place, place, List.dropLast_append_of_ne_nil hnil]
  | down n => rw [hop, after, place, place, List.append_assoc]

theorem place_of (hs : List (Hop N)) (base : List N) : (of hs).place base = Paths.place base hs := by
  have hrun : ∀ r : Route N, (hs.foldl hop r).place base = Paths.place (r.place base) hs := by
    induction hs with
    | nil => exact fun r => rfl
    | cons h hs ih =>
      intro r
      rw [List.foldl_cons, ih, place_hop, place_cons]
  have hstart : (⟨0, []⟩ : Route N).place base = base := by simp [place]
  rw [of, hrun, hstart]

theorem descends_iff (r : Route N) (base : List N) : r.Descends base ↔ Below base (r.place base) := by
  refine exists_congr fun e => and_congr_right fun _ => ?_
  have hsplit := List.take_append_drop (base.length - r.ups) base
  constructor
  · intro h
    rw [place, h, ← List.append_assoc, hsplit]
  · intro h
    rw [place] at h
    nth_rewrite 3 [← hsplit] at h
    rw [List.append_assoc] at h
    exact List.append_cancel_left h

/-- Without a way up it is enough to go down. -/
theorem descends_of_ups {r : Route N} (hups : r.ups = 0) (hdowns : r.downs ≠ []) (base : List N) :
    r.Descends base := by
  refine ⟨r.downs, hdowns, ?_⟩
  rw [hups, Nat.sub_zero, List.drop_length, List.nil_append]

end Route

end Paths
