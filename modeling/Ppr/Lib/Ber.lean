import Mathlib

/-!
# Basic Encoding Rules

Reading of values that are encoded as a tag, a definite length and contents: lengths, integers in two's
complement, and object identifiers, whose components are numbers to the base 128.
-/

namespace Ber

abbrev Octet := BitVec 8

/-- The number that the octets are, the first being the most significant. -/
def bigEndian (l : List Octet) : ℕ := l.foldl (fun n b => n * 256 + b.toNat) 0

/-- A definite length, and what follows it. -/
def length : List Octet → Option (ℕ × List Octet)
  | [] => none
  | b :: rest =>
    if b.toNat < 128 then some (b.toNat, rest)
    else if b.toNat = 128 ∨ b.toNat = 255 ∨ rest.length < b.toNat - 128 then none
    else some (bigEndian (rest.take (b.toNat - 128)), rest.drop (b.toNat - 128))

/-- The contents of a value with the given tag, and what follows the value. -/
def value (tag : Octet) : List Octet → Option (List Octet × List Octet)
  | [] => none
  | t :: rest =>
    if t = tag then
      match length rest with
      | some (n, rest) => if n ≤ rest.length then some (rest.take n, rest.drop n) else none
      | none => none
    else none

/-- Items that follow one another to the end; each takes at least one octet. -/
def all {α : Type} (item : List Octet → Option (α × List Octet)) : ℕ → List Octet → Option (List α)
  | _, [] => some []
  | 0, _ :: _ => none
  | n + 1, b :: l =>
    match item (b :: l) with
    | some (a, rest) => (all item n rest).map (a :: ·)
    | none => none

/-- The contents of an integer, which may be in more octets than it needs. -/
def integer : List Octet → Option ℤ
  | [] => none
  | b :: rest =>
    some (if 128 ≤ b.toNat then (bigEndian (b :: rest) : ℤ) - 256 ^ (rest.length + 1)
      else bigEndian (b :: rest))

/-- Numbers to the base 128, of which every octet but the last one has its high bit set. -/
def subidentifiers : ℕ → Bool → List Octet → Option (List ℕ)
  | _, within, [] => if within then none else some []
  | n, _, b :: rest =>
    if b.toNat < 128 then (subidentifiers 0 false rest).map ((n * 128 + b.toNat) :: ·)
    else subidentifiers (n * 128 + (b.toNat - 128)) true rest

/-- The contents of an object identifier; the first two components are in one number. -/
def objectIdentifier (contents : List Octet) : Option (List ℕ) :=
  match subidentifiers 0 false contents with
  | some (s :: rest) => some (min (s / 40) 2 :: (s - 40 * min (s / 40) 2) :: rest)
  | _ => none

/-! ## Lengths -/

theorem length_short {n : ℕ} (h : n < 128) (rest : List Octet) :
    length (BitVec.ofNat 8 n :: rest) = some (n, rest) := by
  have hn : (BitVec.ofNat 8 n).toNat = n := by
    rw [BitVec.toNat_ofNat]
    exact Nat.mod_eq_of_lt (h.trans (by norm_num))
  rw [length, hn, if_pos h]

theorem length_long {b : Octet} {m : ℕ} (hb : b.toNat = 128 + m) (hm : 0 < m) (hm' : m < 127)
    {l rest : List Octet} (hl : l.length = m) : length (b :: (l ++ rest)) = some (bigEndian l, rest) := by
  have hsub : b.toNat - 128 = m := by omega
  have hfit : ¬ (b.toNat = 128 ∨ b.toNat = 255 ∨ (l ++ rest).length < m) := by
    rw [List.length_append]
    omega
  rw [length, if_neg (by omega), hsub, if_neg hfit, List.take_left' hl, List.drop_left' hl]

/-- A length in two octets. -/
theorem length_two {n : ℕ} (h : n < 65536) (rest : List Octet) :
    length (0x82 :: BitVec.ofNat 8 (n / 256) :: BitVec.ofNat 8 n :: rest) = some (n, rest) := by
  have hhigh : (BitVec.ofNat 8 (n / 256)).toNat = n / 256 := by
    rw [BitVec.toNat_ofNat]
    exact Nat.mod_eq_of_lt (by omega)
  have hlow : (BitVec.ofNat 8 n).toNat = n % 256 := BitVec.toNat_ofNat n 8
  have hvalue : bigEndian [BitVec.ofNat 8 (n / 256), BitVec.ofNat 8 n] = n := by
    unfold bigEndian
    rw [List.foldl_cons, List.foldl_cons, List.foldl_nil, hhigh, hlow]
    omega
  have hlong : length (0x82 :: ([BitVec.ofNat 8 (n / 256), BitVec.ofNat 8 n] ++ rest)) =
      some (bigEndian [BitVec.ofNat 8 (n / 256), BitVec.ofNat 8 n], rest) :=
    length_long (m := 2) rfl (by norm_num) (by norm_num) rfl
  rwa [hvalue] at hlong

/-- A length takes at least one octet. -/
theorem length_shrinks {l rest : List Octet} {n : ℕ} (h : length l = some (n, rest)) :
    rest.length < l.length := by
  cases l with
  | nil => cases h
  | cons b l =>
    rw [length] at h
    split_ifs at h
    · cases h
      exact Nat.lt_succ_self _
    · obtain ⟨-, rfl⟩ := Prod.mk.inj (Option.some.inj h)
      rw [List.length_drop, List.length_cons]
      omega

/-! ## Values -/

theorem value_append {tag : Octet} {l contents rest : List Octet}
    (h : length (l ++ (contents ++ rest)) = some (contents.length, contents ++ rest)) :
    value tag (tag :: (l ++ (contents ++ rest))) = some (contents, rest) := by
  rw [value, if_pos rfl, h]
  dsimp only
  rw [if_pos (by rw [List.length_append]; omega), List.take_left' rfl, List.drop_left' rfl]

theorem value_short {tag : Octet} {contents : List Octet} (h : contents.length < 128)
    (rest : List Octet) :
    value tag (tag :: BitVec.ofNat 8 contents.length :: (contents ++ rest)) = some (contents, rest) :=
  value_append (l := [BitVec.ofNat 8 contents.length]) (length_short h _)

theorem value_two {tag : Octet} {contents : List Octet} (h : contents.length < 65536)
    (rest : List Octet) :
    value tag (tag :: 0x82 :: BitVec.ofNat 8 (contents.length / 256) ::
      BitVec.ofNat 8 contents.length :: (contents ++ rest)) = some (contents, rest) :=
  value_append (l := [0x82, BitVec.ofNat 8 (contents.length / 256),
    BitVec.ofNat 8 contents.length]) (length_two h _)

/-- A value takes at least two octets besides its contents. -/
theorem value_shrinks {tag : Octet} {l contents rest : List Octet}
    (h : value tag l = some (contents, rest)) : contents.length + rest.length + 2 ≤ l.length := by
  cases l with
  | nil => cases h
  | cons t l =>
    rw [value] at h
    split_ifs at h
    cases hl : length l with
    | none =>
      rw [hl] at h
      cases h
    | some p =>
      obtain ⟨n, more⟩ := p
      rw [hl] at h
      dsimp only at h
      split_ifs at h
      cases h
      have := length_shrinks hl
      rw [List.length_take, List.length_drop, List.length_cons]
      omega

/-- If a value takes no more than two octets besides its contents, its length is in one octet. -/
theorem value_tight {tag t b : Octet} {l contents rest : List Octet}
    (h : value tag (t :: b :: l) = some (contents, rest))
    (hlen : contents.length + rest.length = l.length) :
    b.toNat < 128 ∧ contents = l.take b.toNat ∧ rest = l.drop b.toNat ∧ b.toNat ≤ l.length := by
  rw [value] at h
  split_ifs at h
  rw [length] at h
  split_ifs at h with hb hbad
  · dsimp only at h
    split_ifs at h with hn
    cases h
    exact ⟨hb, rfl, rfl, hn⟩
  · dsimp only at h
    split_ifs at h
    obtain ⟨rfl, rfl⟩ := Prod.mk.inj (Option.some.inj h)
    simp only [not_or] at hbad
    simp only [List.length_take, List.length_drop] at hlen
    omega

/-! ## Items -/

theorem all_nil {α : Type} (item : List Octet → Option (α × List Octet)) (n : ℕ) :
    all item n [] = some [] := by
  cases n <;> rfl

theorem all_append {α : Type} {item : List Octet → Option (α × List Octet)} {l rest : List Octet}
    {a : Option α} (hl : l ≠ []) (h : item (l ++ rest) = a.map (·, rest)) (n : ℕ) :
    all item (n + 1) (l ++ rest) = a.bind fun a => (all item n rest).map (a :: ·) := by
  obtain ⟨b, l, rfl⟩ := List.exists_cons_of_ne_nil hl
  rw [List.cons_append] at h ⊢
  rw [all, h]
  cases a <;> rfl

/-- Items that each leave what is behind them alone. -/
theorem all_flatMap {α β : Type} {item : List Octet → Option (α × List Octet)} {f : β → List Octet}
    {g : β → Option α} {bs : List β} (hf : ∀ b ∈ bs, f b ≠ [])
    (h : ∀ b ∈ bs, ∀ rest, item (f b ++ rest) = (g b).map (·, rest)) {n : ℕ}
    (hn : (bs.flatMap f).length ≤ n) : all item n (bs.flatMap f) = bs.mapM g := by
  induction bs generalizing n with
  | nil => exact all_nil item n
  | cons b bs ih =>
    obtain ⟨hb, hbs⟩ := List.forall_mem_cons.mp h
    obtain ⟨hfb, hfbs⟩ := List.forall_mem_cons.mp hf
    have hpos := List.length_pos_iff.mpr hfb
    rw [List.flatMap_cons, List.length_append] at hn
    obtain ⟨n, rfl⟩ := Nat.exists_eq_add_one_of_ne_zero (show n ≠ 0 by omega)
    rw [List.flatMap_cons, all_append hfb (hb _), ih hfbs hbs (by omega), List.mapM_cons]
    cases g b with
    | none => rfl
    | some a => cases bs.mapM g <;> rfl

/-! ## Object identifiers -/

theorem subidentifiers_length {n : ℕ} {within : Bool} {l : List Octet} {ns : List ℕ}
    (h : subidentifiers n within l = some ns) : ns.length ≤ l.length := by
  induction l generalizing n within ns with
  | nil =>
    rw [subidentifiers] at h
    split_ifs at h
    cases h
    exact le_rfl
  | cons b l ih =>
    rw [subidentifiers] at h
    split_ifs at h
    · obtain ⟨ms, hms, rfl⟩ := Option.map_eq_some_iff.mp h
      exact Nat.succ_le_succ (ih hms)
    · exact (ih h).trans (Nat.le_succ _)

/-- Numbers that take one octet each. -/
theorem subidentifiers_single {l : List Octet} (h : ∀ b ∈ l, b.toNat < 128) :
    subidentifiers 0 false l = some (l.map (·.toNat)) := by
  induction l with
  | nil => rfl
  | cons b l ih =>
    obtain ⟨hb, hl⟩ := List.forall_mem_cons.mp h
    rw [subidentifiers, if_pos hb, ih hl, Nat.zero_mul, Nat.zero_add]
    rfl

/-- There are as many numbers as octets only if each takes one octet. -/
theorem subidentifiers_full {l : List Octet} {ns : List ℕ} (h : subidentifiers 0 false l = some ns)
    (hlen : ns.length = l.length) : ns = l.map (·.toNat) ∧ ∀ b ∈ l, b.toNat < 128 := by
  induction l generalizing ns with
  | nil =>
    cases h
    exact ⟨rfl, nofun⟩
  | cons b l ih =>
    rw [subidentifiers] at h
    split_ifs at h with hb
    · obtain ⟨ms, hms, rfl⟩ := Option.map_eq_some_iff.mp h
      obtain ⟨rfl, hall⟩ := ih hms (Nat.succ.inj hlen)
      rw [Nat.zero_mul, Nat.zero_add]
      exact ⟨rfl, List.forall_mem_cons.mpr ⟨hb, hall⟩⟩
    · have hle := subidentifiers_length h
      rw [hlen, List.length_cons] at hle
      exact absurd hle (Nat.not_succ_le_self _)

end Ber
