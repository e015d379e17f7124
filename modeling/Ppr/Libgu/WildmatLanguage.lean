import Ppr.Lib.Glob
import Ppr.Libgu.Wildmat

/-!
# The language of a wildcard pattern

A pattern in which every class is closed spells a list of symbols, and `gu_wildmat()` tells whether the
text is one that they stand for.  That `DoMatch()` gives up when it is at the end of the text, and with
it every loop behind a star, loses no match.
-/

namespace Ppr

open Glob

/-! ## The grammar of patterns -/

/-- An item of a class. -/
inductive ClassItem where
  | single (c : Byte)
  | range (first last : Byte)

def ClassItem.Has (t : Byte) : ClassItem → Prop
  | .single c => t = c
  | .range first last => first.sle t ∧ t.sle last

/-- The items up to the bracket that closes the class, and what follows it.  A range begins with the
character before its hyphen, whatever that one has been. -/
def classItems : Byte → List Byte → Option (List ClassItem × List Byte)
  | _, [] => none
  | last, c :: p =>
    if c = 93 then some ([], p)
    else if c = 45 then
      match p with
      | [] => none
      | d :: p =>
        if d = 93 then some ([.single c], p)
        else (classItems d p).map fun r => (.range last d :: r.1, r.2)
    else (classItems c p).map fun r => (.single c :: r.1, r.2)

/-- The items behind an opening bracket and a caret; a bracket or a hyphen that comes first is one of
the characters. -/
def itemsOf (last : Byte) (p : List Byte) : Option (List ClassItem × List Byte) :=
  match p with
  | [] => none
  | c :: q =>
    if c = 93 ∨ c = 45 then (classItems c q).map fun r => (.single c :: r.1, r.2)
    else classItems last p

/-- The characters of a class, and what follows its closing bracket. -/
def patternClass (p : List Byte) : Option ((Byte → Prop) × List Byte) :=
  if p.head? = some 94 then
    (itemsOf 94 p.tail).map fun r => (fun t => ¬∃ i ∈ r.1, i.Has t, r.2)
  else (itemsOf 91 p).map fun r => (fun t => ∃ i ∈ r.1, i.Has t, r.2)

/-- A pattern, and the symbols that it spells. -/
inductive Spells : List Byte → List (Symbol Byte) → Prop
  | nil : Spells [] []
  | star {p : List Byte} {as : List (Symbol Byte)} (h : Spells p as) : Spells (42 :: p) (.star :: as)
  | any {p : List Byte} {as : List (Symbol Byte)} (h : Spells p as) :
      Spells (63 :: p) (.one (fun _ => True) :: as)
  | escape {p : List Byte} {as : List (Symbol Byte)} (h : Spells (escaped p).2 as) :
      Spells (92 :: p) (.one (fun t => t.toInt = (escaped p).1) :: as)
  | cls {p rest : List Byte} {has : Byte → Prop} {as : List (Symbol Byte)}
      (hclass : patternClass p = some (has, rest)) (h : Spells rest as) :
      Spells (91 :: p) (.one has :: as)
  | char {c : Byte} {p : List Byte} {as : List (Symbol Byte)}
      (hc : c ≠ 42 ∧ c ≠ 63 ∧ c ≠ 91 ∧ c ≠ 92) (h : Spells p as) :
      Spells (c :: p) (.one (fun t => t = c) :: as)

/-! ## Classes -/

theorem length_classItems {last : Byte} {p : List Byte} {r : List ClassItem × List Byte}
    (h : classItems last p = some r) : r.2.length < p.length := by
  fun_induction classItems last p generalizing r with
  | case1 last => cases h
  | case2 last p =>
    cases h
    exact Nat.lt_succ_self _
  | case3 last hc => cases h
  | case4 last p hc =>
    cases h
    exact Nat.lt_succ_of_lt (Nat.lt_succ_self _)
  | case5 last hc d p hd ih =>
    obtain ⟨r, hr, rfl⟩ := Option.map_eq_some_iff.1 h
    have := ih hr
    simp only [List.length_cons]
    omega
  | case6 last c p hc hc' ih =>
    obtain ⟨r, hr, rfl⟩ := Option.map_eq_some_iff.1 h
    have := ih hr
    simp only [List.length_cons]
    omega

/-- The loop over a class that is closed ends behind its bracket. -/
theorem classLoop_eq (t : Byte) {last : Byte} {p : List Byte} {r : List ClassItem × List Byte}
    (h : classItems last p = some r) (matched : Bool) :
    ∃ b, classLoop t last matched p = .ok (b, some r.2) ∧
      (b = true ↔ matched = true ∨ ∃ i ∈ r.1, i.Has t) := by
  fun_induction classItems last p generalizing r matched with
  | case1 last => cases h
  | case2 last p =>
    cases h
    refine ⟨matched, ?_, by simp⟩
    rw [classLoop.eq_def]
    exact if_pos rfl
  | case3 last hc => cases h
  | case4 last p hc =>
    cases h
    refine ⟨matched || t = 45, ?_, by simp [ClassItem.Has]⟩
    rw [classLoop.eq_def]
    rfl
  | case5 last d p hd hc ih =>
    obtain ⟨r, hr, rfl⟩ := Option.map_eq_some_iff.1 h
    obtain ⟨b, hb, hiff⟩ := ih hr (matched || (t.sle d && last.sle t))
    refine ⟨b, ?_, ?_⟩
    · rw [classLoop.eq_def]
      exact (if_neg hd).trans hb
    · rw [hiff]
      simp [ClassItem.Has, or_assoc, and_comm]
  | case6 last c p hc hc' ih =>
    obtain ⟨r, hr, rfl⟩ := Option.map_eq_some_iff.1 h
    obtain ⟨b, hb, hiff⟩ := ih hr (matched || t = c)
    refine ⟨b, ?_, ?_⟩
    · rw [classLoop.eq_def]
      exact (if_neg hc).trans ((if_neg hc').trans hb)
    · rw [hiff]
      simp [ClassItem.Has, or_assoc]

/-- The beginning of a class, and what is done with the answer. -/
def classStart {β : Type} (t last : Byte) (k : Bool × Option (List Byte) → Except WildRead β) :
    List Byte → Except WildRead β
  | c :: p =>
    if c = 93 ∨ c = 45 then classLoop t c (c = t) p >>= k
    else classLoop t last false (c :: p) >>= k
  | [] => classLoop t last false [] >>= k

theorem itemsOf_eq (t : Byte) {last : Byte} {p : List Byte} {r : List ClassItem × List Byte}
    (h : itemsOf last p = some r) :
    r.2.length < p.length ∧ ∃ b, (b = true ↔ ∃ i ∈ r.1, i.Has t) ∧
      ∀ {β : Type} (k : Bool × Option (List Byte) → Except WildRead β),
        classStart t last k p = k (b, some r.2) := by
  cases p with
  | nil => cases h
  | cons c p =>
    rw [itemsOf] at h
    by_cases hc : c = 93 ∨ c = 45
    · rw [if_pos hc] at h
      obtain ⟨r, hr, rfl⟩ := Option.map_eq_some_iff.1 h
      obtain ⟨b, hb, hiff⟩ := classLoop_eq t hr (decide (c = t))
      have hlen := length_classItems hr
      refine ⟨Nat.lt_succ_of_lt hlen, b, ?_, fun k => ?_⟩
      · rw [hiff]
        simp [ClassItem.Has, eq_comm (a := c)]
      · rw [classStart, if_pos hc, hb]
        rfl
    · rw [if_neg hc] at h
      obtain ⟨b, hb, hiff⟩ := classLoop_eq t h false
      refine ⟨length_classItems h, b, by simpa using hiff, fun k => ?_⟩
      rw [classStart, if_neg hc, hb]
      rfl

/-- A class that is closed is read up to its bracket. -/
theorem classMatch_eq (t : Byte) {p rest : List Byte} {has : Byte → Prop}
    (h : patternClass p = some (has, rest)) :
    rest.length < p.length ∧ ∃ b, classMatch t p = .ok (b, some rest) ∧ (b = true ↔ has t) := by
  unfold patternClass at h
  unfold classMatch
  by_cases hrev : p.head? = some 94
  · rw [if_pos hrev] at h
    obtain ⟨r, hr, heq⟩ := Option.map_eq_some_iff.1 h
    obtain ⟨rfl, rfl⟩ := Prod.mk.inj heq
    obtain ⟨hlen, b, hiff, hk⟩ := itemsOf_eq t hr
    refine ⟨hlen.trans_le (by simp), !b, ?_, ?_⟩
    · simp only [hrev, if_true, decide_true]
      refine (hk fun r => pure (r.1 != true, r.2)).trans ?_
      cases b <;> rfl
    · dsimp only
      rw [← hiff]
      cases b <;> simp
  · rw [if_neg hrev] at h
    obtain ⟨r, hr, heq⟩ := Option.map_eq_some_iff.1 h
    obtain ⟨rfl, rfl⟩ := Prod.mk.inj heq
    obtain ⟨hlen, b, hiff, hk⟩ := itemsOf_eq t hr
    refine ⟨hlen, b, ?_, hiff⟩
    simp only [hrev, if_false, decide_false]
    refine (hk fun r => pure (r.1 != false, r.2)).trans ?_
    cases b <;> rfl

/-! ## The matcher -/

/-- The answers of the matcher. -/
abbrev ToldBy (as : List (Symbol Byte)) (text : List Byte) (m : Matched) : Prop :=
  Told as text (m = .yes) (m = .abort)

theorem length_escaped_le (p : List Byte) : (escaped p).2.length ≤ p.length := by
  cases p with
  | nil => exact le_rfl
  | cons c p =>
    unfold escaped
    dsimp only
    split_ifs
    · simp
    · simp
      omega
    · simp

/-- The stars that follow a star change nothing. -/
theorem Spells.dropStars {p : List Byte} {as : List (Symbol Byte)} (h : Spells p as) :
    ∃ as', Spells (p.dropWhile (· = 42)) as' ∧
      ∀ text, Denotes (.star :: as) text ↔ Denotes (.star :: as') text := by
  induction h with
  | nil => exact ⟨[], .nil, fun _ => Iff.rfl⟩
  | @star p as h ih =>
    obtain ⟨as', h', hiff⟩ := ih
    refine ⟨as', by simpa using h', fun text => denotes_star_star.trans (hiff text)⟩
  | any h => exact ⟨_, by simpa using h.any, fun _ => Iff.rfl⟩
  | escape h => exact ⟨_, by simpa using h.escape, fun _ => Iff.rfl⟩
  | cls hclass h => exact ⟨_, by simpa using h.cls hclass, fun _ => Iff.rfl⟩
  | char hc h =>
    refine ⟨_, ?_, fun _ => Iff.rfl⟩
    rw [List.dropWhile_cons_of_neg (by simpa using hc.1)]
    exact h.char hc

/-- What is left of a pattern when its stars are dropped does not stand for the empty text. -/
theorem Spells.not_denotes_nil {p : List Byte} {as : List (Symbol Byte)} (h : Spells p as) (hp : p ≠ [])
    (hstar : p.head? ≠ some 42) : ¬Denotes as [] := by
  cases h with
  | nil => exact absurd rfl hp
  | star h => exact absurd rfl hstar
  | _ => exact not_denotes_one_nil

/-- The loop behind a star. -/
theorem starLoop_told {as : List (Symbol Byte)} {f : List Byte → Except WildRead Matched}
    (hnil : ¬Denotes as []) (hf : ∀ text, ∃ m, f text = .ok m ∧ ToldBy as text m) (text : List Byte) :
    ∃ m, starLoop f text = .ok m ∧ ToldBy (.star :: as) text m := by
  induction text with
  | nil =>
    have hno : Matched.abort ≠ .yes := by decide
    exact ⟨.abort, rfl, by simpa [ToldBy, hno] using Told.exhausted hnil⟩
  | cons t text ih =>
    obtain ⟨m, hm, htold⟩ := hf (t :: text)
    rw [starLoop, hm]
    cases m with
    | yes => exact ⟨.yes, rfl, by simpa [ToldBy] using Told.found (by simpa [ToldBy] using htold)⟩
    | abort => exact ⟨.abort, rfl, by simpa [ToldBy] using Told.given_up (by simpa [ToldBy] using htold)⟩
    | no =>
      obtain ⟨m, hm, hrest⟩ := ih
      exact ⟨m, hm, Told.skipped (by simpa [ToldBy] using htold) hrest⟩

theorem toldBy_ended {has : Byte → Prop} {as : List (Symbol Byte)} :
    ToldBy (.one has :: as) [] .abort := by
  have hended : Told (.one has :: as) [] False True := Told.ended
  simpa [ToldBy] using hended

theorem toldBy_refused {has : Byte → Prop} {as : List (Symbol Byte)} {t : Byte} (h : ¬has t)
    (text : List Byte) : ToldBy (.one has :: as) (t :: text) .no := by
  simpa [ToldBy] using Told.refused h (t := text) (p := as)

theorem toldBy_nil (text : List Byte) : ToldBy [] text (if text = [] then .yes else .no) := by
  have hiff : Denotes [] text ↔ text = [] := by
    constructor
    · intro h
      cases h
      rfl
    · rintro rfl
      exact .nil
  constructor
  · rw [hiff]
    split_ifs with h <;> simp [h]
  · intro h
    split_ifs at h

/-- What `DoMatch()` says of a text is right, and where it gives up nothing is lost. -/
theorem doMatch_told {n : ℕ} {p : List Byte} {as : List (Symbol Byte)} (h : Spells p as)
    (hn : p.length ≤ n) (text : List Byte) : ∃ m, doMatch n text p = .ok m ∧ ToldBy as text m := by
  induction n generalizing p as text with
  | zero =>
    obtain rfl := List.length_eq_zero_iff.1 (Nat.le_zero.1 hn)
    cases h
    exact ⟨_, rfl, toldBy_nil text⟩
  | succ n ih =>
    cases h with
    | nil => exact ⟨_, rfl, toldBy_nil text⟩
    | @star p as h =>
      obtain ⟨as', h', hiff⟩ := h.dropStars
      have hlen : (p.dropWhile (· = 42)).length ≤ n :=
        (List.dropWhile_suffix _).length_le.trans (Nat.le_of_succ_le_succ hn)
      unfold doMatch
      rw [if_pos rfl]
      dsimp only
      by_cases hp : p.dropWhile (· = 42) = []
      · rw [hp] at h'
        cases h'
        rw [if_pos hp]
        refine ⟨.yes, rfl, ⟨fun _ => ?_, fun _ => rfl⟩, fun h => by cases h⟩
        rw [hiff, denotes_star_iff]
        exact ⟨[], List.nil_suffix, .nil⟩
      · have hhead : (p.dropWhile (· = 42)).head? ≠ some 42 := by
          intro hhead
          have := List.head?_dropWhile_not (p := fun c => decide (c = 42)) p
          rw [hhead] at this
          simp at this
        obtain ⟨m, hm, htold⟩ :=
          starLoop_told (h'.not_denotes_nil hp hhead) (fun text => ih h' hlen text) text
        rw [if_neg hp]
        refine ⟨m, hm, htold.right.trans (hiff text).symm, fun hab r hr => ?_⟩
        rw [hiff]
        exact htold.final hab r hr
    | @any p as h =>
      cases text with
      | nil => exact ⟨.abort, rfl, toldBy_ended⟩
      | cons t text =>
        obtain ⟨m, hm, htold⟩ := ih h (Nat.le_of_succ_le_succ hn) text
        exact ⟨m, hm, htold.one trivial⟩
    | @escape p as h =>
      cases text with
      | nil => exact ⟨.abort, rfl, toldBy_ended⟩
      | cons t text =>
        obtain ⟨m, hm, htold⟩ :=
          ih h ((length_escaped_le p).trans (Nat.le_of_succ_le_succ hn)) text
        unfold doMatch
        rw [if_neg (by decide)]
        dsimp only
        rw [if_pos rfl]
        by_cases ht : t.toInt = (escaped p).1
        · rw [if_pos ht]
          exact ⟨m, hm, htold.one ht⟩
        · rw [if_neg ht]
          exact ⟨.no, rfl, toldBy_refused ht text⟩
    | @cls p rest has as hclass h =>
      cases text with
      | nil => exact ⟨.abort, rfl, toldBy_ended⟩
      | cons t text =>
        obtain ⟨hlen, b, hb, hiff⟩ := classMatch_eq t hclass
        have hrest : rest.length ≤ n := hlen.le.trans (Nat.le_of_succ_le_succ hn)
        obtain ⟨m, hm, htold⟩ := ih h hrest text
        unfold doMatch
        rw [if_neg (by decide)]
        dsimp only
        rw [if_neg (by decide), if_neg (by decide), if_pos rfl, hb]
        cases b with
        | false => exact ⟨.no, rfl, toldBy_refused (fun ht => Bool.false_ne_true (hiff.2 ht)) text⟩
        | true => exact ⟨m, hm, htold.one (hiff.1 rfl)⟩
    | @char c p as hc h =>
      obtain ⟨hstar, hany, hclass, hescape⟩ := hc
      unfold doMatch
      rw [if_neg hstar]
      cases text with
      | nil => exact ⟨.abort, rfl, toldBy_ended⟩
      | cons t text =>
        obtain ⟨m, hm, htold⟩ := ih h (Nat.le_of_succ_le_succ hn) text
        dsimp only
        rw [if_neg hescape, if_neg hany, if_neg hclass]
        by_cases ht : t = c
        · rw [if_pos ht]
          exact ⟨m, hm, htold.one ht⟩
        · have hno : ToldBy (.one (fun t => t = c) :: as) (t :: text) .no := @toldBy_refused (fun t => t = c) as t ht text
          rw [if_neg ht]
          exact ⟨.no, rfl, hno⟩

/-- A pattern whose classes are closed matches exactly the texts of its language, and nothing behind it
is read. -/
theorem guWildmat_iff {p : List Byte} {as : List (Symbol Byte)} (h : Spells p as) (text : List Byte) :
    ∃ b, guWildmat text p = .ok b ∧ (b = true ↔ Denotes as text) := by
  unfold guWildmat
  by_cases hp : p = [42]
  · subst hp
    cases h with
    | star h =>
      cases h
      refine ⟨true, rfl, fun _ => ?_, fun _ => rfl⟩
      rw [denotes_star_iff]
      exact ⟨[], List.nil_suffix, .nil⟩
    | char hc h => exact absurd rfl hc.1
  · obtain ⟨m, hm, htold⟩ := doMatch_told h le_rfl text
    rw [if_neg hp, hm]
    exact ⟨decide (m = .yes), rfl, by rw [decide_eq_true_iff, htold.right]⟩

/-- The pattern "a*[0-9]" and the user "ab7". -/
theorem guWildmat_iff_ab7 : ∃ as, Spells [97, 42, 91, 48, 45, 57, 93] as ∧
    ∃ b, guWildmat [97, 98, 55] [97, 42, 91, 48, 45, 57, 93] = .ok b ∧
      (b = true ↔ Denotes as [97, 98, 55]) := by
  have hspells : Spells [97, 42, 91, 48, 45, 57, 93] _ := .char (by decide) (.star (.cls rfl .nil))
  exact ⟨_, hspells, guWildmat_iff hspells [97, 98, 55]⟩

end Ppr
