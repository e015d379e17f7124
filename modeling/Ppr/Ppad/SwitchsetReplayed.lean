import Ppr.Ppad.Switchset

/-!
# Which switchsets come back

The line of a switchset has no way to write a '|', ends its arguments at the end of the line and
tells a switch from an argument by its hyphen.  `PprSwitch.Plain` says what an argument may not have.
Several lines are joined with a blank, which separates nothing.
-/

namespace Ppr

/-! ## The tables -/

theorem find_optionWords : ∀ w ∈ optionWords, (optionWords.find? fun v => v.name = w.name) = some w := by
  decide +kernel

/-- The names are written in small letters and hyphens. -/
theorem letters_of_mem {w : OptionWord} (h : w ∈ optionWords) :
    w.name ≠ [] ∧ ∀ c ∈ w.name, c = 45 ∨ 97 ≤ c.toNat ∧ c.toNat ≤ 122 := by
  have hall : (optionWords.all fun w => !w.name.isEmpty &&
      w.name.all fun c => c.toNat == 45 || 97 ≤ c.toNat && c.toNat ≤ 122) = true := by
    decide +kernel
  have hw := List.all_eq_true.1 hall w h
  simp only [Bool.and_eq_true, Bool.not_eq_true', List.isEmpty_eq_false_iff, List.all_eq_true,
    Bool.or_eq_true, beq_iff_eq, decide_eq_true_eq] at hw
  exact ⟨hw.1, fun c hc => (hw.2 c hc).imp_left fun he => BitVec.eq_of_toNat_eq he⟩

theorem optionWords_plain (w : OptionWord) (h : w ∈ optionWords) :
    61 ∉ w.name ∧ 124 ∉ w.name ∧ newline ∉ w.name ∧ 32 ∉ w.name ∧ w.name ≠ [] ∧ chop w.name = w.name := by
  obtain ⟨hne, hletters⟩ := letters_of_mem h
  have hnot : ∀ c : Byte, c ≠ 45 → (c.toNat < 97 ∨ 122 < c.toNat) → c ∉ w.name := by
    intro c hc hrange hmem
    rcases hletters c hmem with rfl | hletter
    · exact hc rfl
    · omega
  refine ⟨hnot 61 (by decide) (by decide), hnot 124 (by decide) (by decide),
    hnot newline (by decide) (by decide), hnot 32 (by decide) (by decide), hne, ?_⟩
  apply List.rdropWhile_eq_self_iff.2
  intro hl
  have hlast : 32 < (w.name.getLast hl).toNat := by
    rcases hletters _ (List.getLast_mem hl) with he | he
    · rw [he]
      decide
    · omega
  rw [not_isspace_of_lt hlast]
  exact Bool.false_ne_true

theorem mem_optionDescriptionString {c : Byte} (h : c ∈ optionDescriptionString) :
    57 < c.toNat ∧ c.toNat < 124 := by
  have hall : (optionDescriptionString.all fun c => 57 < c.toNat && c.toNat < 124) = true := by
    rw [show optionDescriptionString = _ from ascii_ofList _]
    decide +kernel
  simpa using List.all_eq_true.1 hall c h

theorem shortNeedsArg_ne {c : Byte} {b : Bool} (h : shortNeedsArg c = some b) :
    c ≠ 45 ∧ c ≠ 124 ∧ c ≠ newline ∧ c ≠ 32 ∧ isspace c = false := by
  have hmem : c ∈ optionDescriptionString := by
    by_contra hc
    have hnil : optionDescriptionString.dropWhile (· ≠ c) = [] := by
      rw [List.dropWhile_eq_nil_iff]
      exact fun b hb => decide_eq_true fun he => hc (he ▸ hb)
    rw [shortNeedsArg, hnil] at h
    cases h
  obtain ⟨hlow, hhigh⟩ := mem_optionDescriptionString hmem
  refine ⟨?_, ?_, ?_, ?_, not_isspace_of_lt (by omega)⟩ <;> rintro rfl <;> revert hlow hhigh <;>
    decide

/-! ## The parts of a switch -/

namespace PprSwitch

def arg : PprSwitch → Option (List Byte)
  | short _ arg _ => arg
  | long _ arg _ _ => arg

/-- The argument is a word of its own. -/
def separate : PprSwitch → Bool
  | short _ _ _ => true
  | long _ _ joined _ => !joined

def isShort : PprSwitch → Bool
  | short _ _ _ => true
  | long _ _ _ _ => false

/-- The first character of the piece for a switch. -/
def head : PprSwitch → Byte
  | short c _ _ => c
  | long _ _ _ _ => 45

/-- The rest of a piece that has no argument. -/
def bareTail : PprSwitch → List Byte
  | short _ _ _ => []
  | long w _ _ _ => w.name

/-- The rest of the piece. -/
def tail : PprSwitch → List Byte
  | short _ arg _ => arg.getD []
  | long w none _ _ => w.name
  | long w (some a) _ _ => w.name ++ 61 :: a

/-- The piece for a switch. -/
def piece (s : PprSwitch) : List Byte := s.head :: s.tail

/-- The argument is taken for one. -/
def Direct (s : PprSwitch) : Prop := ∀ a, s.arg = some a → s.separate = true → a.head? ≠ some 45

/-- The argument can be told from what stands around it. -/
structure Suits (s : PprSwitch) : Prop where
  direct : s.Direct
  bar : ∀ a, s.arg = some a → 124 ∉ a
  ne_nil : ∀ a, s.arg = some a → s.isShort = true → a ≠ []

/-- It has no '|' and no newline, does not begin with a hyphen if it is a word of its own, and is not
empty if the switch is a short one. -/
structure Plain (s : PprSwitch) : Prop extends s.Suits where
  newline_notMem : ∀ a, s.arg = some a → newline ∉ a

end PprSwitch

open PprSwitch

theorem isspace_head (s : PprSwitch) : isspace s.head = false := by
  cases s with
  | short c arg h => exact (shortNeedsArg_ne h).2.2.2.2
  | long w arg joined h => rfl

theorem mem_tail {s : PprSwitch} {b : Byte} (h : b ∈ s.tail) (hb : b ≠ 61) :
    (∃ a, s.arg = some a ∧ b ∈ a) ∨ ∃ w ∈ optionWords, b ∈ w.name := by
  cases s with
  | short c arg hs =>
    cases arg with
    | none => exact nomatch h
    | some a => exact Or.inl ⟨a, rfl, h⟩
  | long w arg joined hs =>
    cases arg with
    | none => exact Or.inr ⟨w, hs.1, h⟩
    | some a =>
      rcases List.mem_append.1 h with h | h
      · exact Or.inr ⟨w, hs.1, h⟩
      · exact Or.inl ⟨a, rfl, (List.mem_cons.1 h).resolve_left hb⟩

theorem arg_mem_tail {s : PprSwitch} {a : List Byte} (ha : s.arg = some a) {b : Byte} (h : b ∈ a) :
    b ∈ s.tail := by
  cases s with
  | short c arg hs =>
    obtain rfl : arg = some a := ha
    exact h
  | long w arg joined hs =>
    obtain rfl : arg = some a := ha
    exact List.mem_append_right _ (List.mem_cons_of_mem _ h)

theorem bar_notMem_tail_iff (s : PprSwitch) : 124 ∉ s.tail ↔ ∀ a, s.arg = some a → 124 ∉ a := by
  constructor
  · intro h a ha hmem
    exact h (arg_mem_tail ha hmem)
  · intro h hmem
    rcases mem_tail hmem (by decide) with ⟨a, ha, hb⟩ | ⟨w, hw, hb⟩
    · exact h a ha hb
    · exact (optionWords_plain w hw).2.1 hb

/-! ## The pieces -/

/-- The words after a switch begin with a hyphen. -/
def Hyphened (words : List (List Byte)) : Prop := ∀ w ∈ words.head?, w.head? = some 45

theorem hyphened_words (sw : List PprSwitch) : Hyphened (sw.flatMap PprSwitch.words) := by
  intro w hw
  cases sw with
  | nil => exact nomatch hw
  | cons s sw =>
    cases s with
    | short c arg h => exact Option.some.inj hw ▸ rfl
    | long v arg joined h =>
      cases arg with
      | none => exact Option.some.inj hw ▸ rfl
      | some a => cases joined <;> exact Option.some.inj hw ▸ rfl

theorem switchPieces_bare {w piece sep : List Byte} (hw : switchStart w = some (piece, sep))
    {words : List (List Byte)} (h : Hyphened words) :
    switchPieces (w :: words) = (switchPieces words).map (piece :: ·) := by
  cases words with
  | nil => simp only [switchPieces, hw, Option.map_some]
  | cons a words =>
    rw [switchPieces, hw]
    exact if_pos (h a rfl)

theorem switchPieces_arg {w piece sep a : List Byte} (hw : switchStart w = some (piece, sep))
    (ha : a.head? ≠ some 45) (words : List (List Byte)) :
    switchPieces (w :: a :: words) = (switchPieces words).map ((piece ++ sep ++ a) :: ·) := by
  rw [switchPieces, hw]
  exact if_neg ha

theorem switchStart_short {c : Byte} (hc : c ≠ 45) : switchStart [45, c] = some ([c], []) := by
  unfold switchStart
  split
  · simp_all
  · simp_all
  · simp_all

theorem switchStart_long (name : List Byte) : switchStart (45 :: 45 :: name) = some (45 :: name, [61]) :=
  rfl

/-- What the loop makes of the words of a switch. -/
theorem switchPieces_words (s : PprSwitch) {words : List (List Byte)} (h : Hyphened words) :
    (s.Direct → switchPieces (s.words ++ words) = (switchPieces words).map (s.piece :: ·)) ∧
    (¬ s.Direct → ∃ a, switchPieces (s.words ++ words) =
      (switchPieces (a :: words)).map ((s.head :: s.bareTail) :: ·)) := by
  cases s with
  | short c arg hs =>
    have hstart := switchStart_short (shortNeedsArg_ne hs).1
    cases arg with
    | none => exact ⟨fun _ => switchPieces_bare hstart h, fun hd => absurd (fun a ha => nomatch ha) hd⟩
    | some a =>
      refine ⟨fun hd => switchPieces_arg hstart (hd a rfl rfl) words, fun hd => ⟨a, ?_⟩⟩
      have ha : a.head? = some 45 := by
        by_contra ha
        exact hd fun b hb _ => Option.some.inj hb ▸ ha
      refine switchPieces_bare hstart fun w hw => ?_
      exact Option.some.inj hw ▸ ha
  | long w arg joined hs =>
    cases arg with
    | none =>
      exact ⟨fun _ => switchPieces_bare (switchStart_long w.name) h,
        fun hd => absurd (fun a ha => nomatch ha) hd⟩
    | some a =>
      cases joined with
      | true =>
        refine ⟨fun _ => ?_, fun hd => absurd (fun b hb hj => nomatch hj) hd⟩
        have hword : PprSwitch.words (.long w (some a) true hs) = [45 :: 45 :: (w.name ++ 61 :: a)] := by
          simp [PprSwitch.words]
        rw [hword]
        exact switchPieces_bare (switchStart_long _) h
      | false =>
        refine ⟨fun hd => ?_, fun hd => ⟨a, ?_⟩⟩
        · have hpiece := switchPieces_arg (switchStart_long w.name) (hd a rfl rfl) words
          simpa [PprSwitch.words, piece, head, tail] using hpiece
        · have ha : a.head? = some 45 := by
            by_contra ha
            exact hd fun b hb _ => Option.some.inj hb ▸ ha
          refine switchPieces_bare (switchStart_long w.name) fun v hv => ?_
          exact Option.some.inj hv ▸ ha

/-- Where every argument is taken for one, the pieces are those of the switches. -/
theorem switchPieces_direct (sw : List PprSwitch) (h : ∀ s ∈ sw, s.Direct) :
    switchPieces (sw.flatMap PprSwitch.words) = some (sw.map PprSwitch.piece) := by
  induction sw with
  | nil => rfl
  | cons s sw ih =>
    rw [List.flatMap_cons, (switchPieces_words s (hyphened_words sw)).1 (h s (List.mem_cons_self ..)),
      ih fun s hs => h s (List.mem_cons_of_mem _ hs)]
    rfl

theorem mem_switchStart {w piece sep : List Byte} (h : switchStart w = some (piece, sep)) :
    (∀ b ∈ piece, b ∈ w) ∧ ∀ b ∈ sep, b = 61 := by
  unfold switchStart at h
  split at h
  · obtain ⟨rfl, rfl⟩ := Prod.mk.inj (Option.some.inj h)
    simp
  · obtain ⟨rfl, rfl⟩ := Prod.mk.inj (Option.some.inj h)
    simp
  · exact nomatch h

/-- What stands in a piece stands in a word. -/
theorem mem_switchPieces {words pieces : List (List Byte)} (h : switchPieces words = some pieces)
    {b : Byte} (hb : b ∈ pieces.flatten) : b = 61 ∨ b ∈ words.flatten := by
  induction words using switchPieces.induct generalizing pieces with
  | case1 =>
    obtain rfl : pieces = [] := (Option.some.inj h).symm
    exact nomatch hb
  | case2 w =>
    obtain ⟨start, hw, rfl⟩ := Option.map_eq_some_iff.1 h
    simp only [List.flatten_cons, List.flatten_nil, List.append_nil] at hb ⊢
    exact Or.inr ((mem_switchStart hw).1 b hb)
  | case3 w a words hw =>
    rw [switchPieces, hw] at h
    exact nomatch h
  | case4 w a words piece sep hw ha ih =>
    rw [switchPieces, hw] at h
    obtain ⟨rest, hrest, rfl⟩ := Option.map_eq_some_iff.1 ((if_pos ha).symm.trans h)
    rw [List.flatten_cons, List.mem_append] at hb ⊢
    rcases hb with hb | hb
    · exact Or.inr (Or.inl ((mem_switchStart hw).1 b hb))
    · exact (ih hrest hb).imp id Or.inr
  | case5 w a words piece sep hw ha ih =>
    rw [switchPieces, hw] at h
    obtain ⟨rest, hrest, rfl⟩ := Option.map_eq_some_iff.1 ((if_neg ha).symm.trans h)
    simp only [List.flatten_cons, List.mem_append] at hb ⊢
    rcases hb with ((hb | hb) | hb) | hb
    · exact Or.inr (Or.inl ((mem_switchStart hw).1 b hb))
    · exact Or.inl ((mem_switchStart hw).2 b hb)
    · exact Or.inr (Or.inr (Or.inl hb))
    · exact (ih hrest hb).imp id fun h => Or.inr (Or.inr h)

/-! ## The parser -/

theorem parseSwitchsetLoop_eq {n : ℕ} {line : List Byte} (h : line.length ≤ n) :
    parseSwitchsetLoop n line = parseSwitchset line := by
  unfold parseSwitchset
  induction n using Nat.strong_induction_on generalizing line with
  | _ n ih =>
    cases line with
    | nil => cases n <;> rfl
    | cons c l =>
      obtain ⟨n, rfl⟩ : ∃ m, n = m + 1 := ⟨n - 1, by rw [List.length_cons] at h; omega⟩
      rw [List.length_cons] at h ⊢
      have hrest : (l.dropWhile (· ≠ 124)).tail.length ≤ l.length := by
        rw [List.length_tail]
        exact (Nat.sub_le _ _).trans (List.dropWhile_suffix _).length_le
      have hl : l.length ≤ n := by omega
      simp only [parseSwitchsetLoop]
      cases parseOption c (l.takeWhile (· ≠ 124)) with
      | none => rfl
      | some call =>
        dsimp only
        rw [ih n (by omega) (hrest.trans hl)]
        rcases hl.lt_or_eq with hlt | rfl
        · rw [ih l.length (by omega) hrest]
        · rw [ih l.length (by omega) hrest]

/-- The first option of a text and the others. -/
theorem parseSwitchset_cons (c : Byte) (l : List Byte) : parseSwitchset (c :: l) =
    match parseOption c (l.takeWhile (· ≠ 124)) with
    | none => ([], false)
    | some call =>
      (call :: (parseSwitchset (l.dropWhile (· ≠ 124)).tail).1,
        (parseSwitchset (l.dropWhile (· ≠ 124)).tail).2) := by
  have hrest : (l.dropWhile (· ≠ 124)).tail.length ≤ l.length := by
    rw [List.length_tail]
    exact (Nat.sub_le _ _).trans (List.dropWhile_suffix _).length_le
  rw [parseSwitchset, List.length_cons, parseSwitchsetLoop]
  cases parseOption c (l.takeWhile (· ≠ 124)) with
  | none => rfl
  | some call =>
    dsimp only
    rw [parseSwitchsetLoop_eq hrest]

theorem parseSwitchset_cons_iff {c : Byte} {l : List Byte} {call : OptCall} {calls : List OptCall} :
    parseSwitchset (c :: l) = (call :: calls, true) ↔
      parseOption c (l.takeWhile (· ≠ 124)) = some call ∧
        parseSwitchset (l.dropWhile (· ≠ 124)).tail = (calls, true) := by
  rw [parseSwitchset_cons]
  cases parseOption c (l.takeWhile (· ≠ 124)) with
  | none => simp
  | some call' => simp [Prod.ext_iff, and_assoc]

theorem parseSwitchset_nil_iff {line : List Byte} : parseSwitchset line = ([], true) ↔ line = [] := by
  cases line with
  | nil => exact ⟨fun _ => rfl, fun _ => rfl⟩
  | cons c l =>
    rw [parseSwitchset_cons]
    cases parseOption c (l.takeWhile (· ≠ 124)) <;> simp

/-- The text after a '='. -/
theorem takeWhile_equals {name a : List Byte} (h : 61 ∉ name) :
    (name ++ 61 :: a).takeWhile (· ≠ 61) = name ∧ (name ++ 61 :: a).dropWhile (· ≠ 61) = 61 :: a := by
  have hname : ∀ b ∈ name, decide (b ≠ 61) = true := fun b hb =>
    decide_eq_true fun he => h (he ▸ hb)
  have hspan := span_append (fun b => decide (b ≠ 61)) (w := name) (61 :: a) hname (by simp)
  exact hspan

/-- A switch is taken for what it is exactly when its text is. -/
theorem parseOption_iff (s : PprSwitch) (g : List Byte) :
    parseOption s.head g = some s.call ↔
      g = s.tail ∧ ∀ a, s.arg = some a → s.isShort = true → a ≠ [] := by
  cases s with
  | short c arg h =>
    have hc : c ≠ 45 := (shortNeedsArg_ne h).1
    have hparse : parseOption c g =
        if arg.isSome = decide (g ≠ []) then some ⟨c.toNat, some g, []⟩ else none := by
      rw [parseOption, if_neg hc, h]
    change parseOption c g = some ⟨c.toNat, some (arg.getD []), []⟩ ↔
      g = arg.getD [] ∧ ∀ a, arg = some a → true = true → a ≠ []
    rw [hparse]
    cases arg with
    | none => by_cases hg : g = [] <;> simp [hg]
    | some a =>
      by_cases hg : g = []
      · subst hg
        simp [eq_comm]
      · simp only [Option.isSome_some, hg, ne_eq, not_false_eq_true, decide_true, if_true,
          Option.some.injEq, OptCall.mk.injEq, Option.getD_some, true_and, and_true, forall_const]
        exact ⟨fun h => ⟨h, fun b hb => hb ▸ h ▸ hg⟩, fun h => h.1⟩
  | long w arg joined h =>
    obtain ⟨hw, harg⟩ := h
    obtain ⟨hequals, -⟩ := optionWords_plain w hw
    change parseOption 45 g = some ⟨w.code, arg, w.name⟩ ↔ g = tail (.long w arg joined ⟨hw, harg⟩) ∧ _
    have hshort : ∀ a, (PprSwitch.long w arg joined ⟨hw, harg⟩).arg = some a →
        (PprSwitch.long w arg joined ⟨hw, harg⟩).isShort = true → a ≠ [] := fun a _ hs => nomatch hs
    rw [and_iff_left hshort]
    constructor
    · intro hp
      rw [parseOption, if_pos rfl] at hp
      dsimp only at hp
      cases hf : optionWords.find? fun v => v.name = g.takeWhile (· ≠ 61) with
      | none =>
        rw [hf] at hp
        exact nomatch hp
      | some v =>
        rw [hf] at hp
        dsimp only at hp
        split_ifs at hp with hmem hneed hneed
        all_goals obtain ⟨-, hvalue, hname⟩ := OptCall.mk.inj (Option.some.inj hp)
        all_goals have hfound : v.name = g.takeWhile (· ≠ 61) := by simpa using List.find?_some hf
        all_goals have htake : g.takeWhile (· ≠ 61) = w.name := hfound.symm.trans hname
        · obtain rfl : arg = some _ := hvalue.symm
          have hdrop : g.dropWhile (· ≠ 61) = 61 :: (g.dropWhile (· ≠ 61)).tail := by
            cases hd : g.dropWhile (· ≠ 61) with
            | nil =>
              have hall := List.dropWhile_eq_nil_iff.1 hd 61 hmem
              exact absurd rfl (of_decide_eq_true hall)
            | cons b rest =>
              have hb := dropWhile_head (p := fun b => decide (b ≠ 61)) g b (by rw [hd]; rfl)
              rw [not_not.1 (of_decide_eq_false hb)]
              rfl
          calc g = g.takeWhile (· ≠ 61) ++ g.dropWhile (· ≠ 61) := List.takeWhile_append_dropWhile.symm
            _ = _ := by rw [htake, hdrop]; rfl
        · obtain rfl : arg = none := hvalue.symm
          have hall : g.takeWhile (· ≠ 61) = g := by
            rw [List.takeWhile_eq_self_iff]
            exact fun b hb => decide_eq_true fun he => hmem (he ▸ hb)
          exact hall.symm.trans htake
    · rintro rfl
      cases arg with
      | none =>
        have hall : w.name.takeWhile (· ≠ 61) = w.name := by
          rw [List.takeWhile_eq_self_iff]
          exact fun b hb => decide_eq_true fun he => hequals (he ▸ hb)
        change parseOption 45 w.name = _
        rw [parseOption, if_pos rfl]
        simp only [hall, find_optionWords w hw, if_neg hequals]
        exact if_pos harg
      | some a =>
        obtain ⟨htake, hdrop⟩ := takeWhile_equals (a := a) hequals
        have hmem : (61 : Byte) ∈ w.name ++ 61 :: a := List.mem_append_right _ (List.mem_cons_self ..)
        change parseOption 45 (w.name ++ 61 :: a) = _
        rw [parseOption, if_pos rfl]
        simp only [htake, hdrop, find_optionWords w hw, if_pos hmem]
        exact if_pos harg

/-- Without its argument a switch is none. -/
theorem parseOption_bare {s : PprSwitch} (h : s.arg ≠ none) : parseOption s.head s.bareTail = none := by
  cases s with
  | short c arg hs =>
    have harg : arg.isSome = true := Option.isSome_iff_ne_none.2 h
    change parseOption c [] = none
    rw [parseOption, if_neg (shortNeedsArg_ne hs).1, hs, harg]
    rfl
  | long w arg joined hs =>
    obtain ⟨hw, harg⟩ := hs
    obtain ⟨hequals, -⟩ := optionWords_plain w hw
    have harg' : w.needsarg = true := harg.trans (Option.isSome_iff_ne_none.2 h)
    have hall : w.name.takeWhile (· ≠ 61) = w.name := by
      rw [List.takeWhile_eq_self_iff]
      exact fun b hb => decide_eq_true fun he => hequals (he ▸ hb)
    change parseOption 45 w.name = none
    rw [parseOption, if_pos rfl]
    simp only [hall, find_optionWords w hw, if_neg hequals, harg']
    rfl

/-! ## One line -/

theorem chop_cons_of_not_isspace {c : Byte} (hc : isspace c = false) (l : List Byte) :
    chop (c :: l) = c :: chop l := by
  rcases eq_or_ne (chop l) [] with h | h
  · have hone : chop [c] = [c] := by
      rw [chop_eq_self_iff]
      exact fun b hb => Option.some.inj hb ▸ hc
    rw [h, ← hone]
    exact chop_append_of_eq (l := [c]) h
  · exact chop_append_of_ne (l := [c]) h

theorem chop_append_cons {c : Byte} (hc : isspace c = false) (x l : List Byte) :
    chop (x ++ c :: l) = x ++ c :: chop l := by
  have hne : chop (c :: l) ≠ [] := by
    rw [chop_cons_of_not_isspace hc]
    exact List.cons_ne_nil _ _
  rw [chop_append_of_ne hne, chop_cons_of_not_isspace hc]

theorem intercalate_cons {p : List Byte} {ps : List (List Byte)} (h : ps ≠ []) :
    List.intercalate [124] (p :: ps) = p ++ 124 :: List.intercalate [124] ps := by
  cases ps with
  | nil => exact absurd rfl h
  | cons q qs => simp [List.intercalate]

theorem intercalate_singleton (p : List Byte) : List.intercalate [124] [p] = p := by
  simp [List.intercalate]

theorem takeWhile_bar {g : List Byte} (h : 124 ∉ g) (l : List Byte) :
    (g ++ 124 :: l).takeWhile (· ≠ 124) = g ∧ (g ++ 124 :: l).dropWhile (· ≠ 124) = 124 :: l :=
  span_append (fun b => decide (b ≠ 124)) (w := g) (124 :: l)
    (fun b hb => decide_eq_true fun he => h (he ▸ hb)) (by simp)

theorem bar_notMem_takeWhile (l : List Byte) : 124 ∉ l.takeWhile (· ≠ 124) := by
  intro h
  exact absurd rfl (of_decide_eq_true (mem_takeWhile (p := fun b => decide (b ≠ 124)) h).2)

theorem chop_tail_iff (s : PprSwitch) : chop s.tail = s.tail ↔ ∀ a, s.arg = some a → chop a = a := by
  cases s with
  | short c arg h =>
    cases arg with
    | none => exact ⟨fun _ a ha => (nomatch ha), fun _ => rfl⟩
    | some a => exact ⟨fun h b hb => Option.some.inj hb ▸ h, fun h => h a rfl⟩
  | long w arg joined h =>
    cases arg with
    | none =>
      have hname : chop w.name = w.name := (optionWords_plain w h.1).2.2.2.2.2
      exact ⟨fun _ a ha => (nomatch ha), fun _ => hname⟩
    | some a =>
      have hchop : chop (w.name ++ 61 :: a) = w.name ++ 61 :: chop a :=
        chop_append_cons (by decide) _ _
      change chop (w.name ++ 61 :: a) = w.name ++ 61 :: a ↔ _
      rw [hchop]
      constructor
      · intro h b hb
        obtain rfl : a = b := Option.some.inj hb
        exact (List.cons.inj (List.append_cancel_left h)).2
      · intro h
        rw [h a rfl]

/-- The piece for a switch before others. -/
theorem parse_piece_bar (s : PprSwitch) (l : List Byte) (calls : List OptCall) :
    parseSwitchset (s.piece ++ 124 :: l) = (s.call :: calls, true) ↔
      (124 ∉ s.tail ∧ ∀ a, s.arg = some a → s.isShort = true → a ≠ []) ∧
        parseSwitchset l = (calls, true) := by
  rw [piece, List.cons_append, parseSwitchset_cons_iff, parseOption_iff]
  by_cases hbar : 124 ∈ s.tail
  · refine iff_of_false (fun h => ?_) fun h => h.1.1 hbar
    exact bar_notMem_takeWhile _ (h.1.1 ▸ hbar)
  · obtain ⟨htake, hdrop⟩ := takeWhile_bar hbar l
    rw [htake, hdrop, List.tail_cons]
    simp only [hbar, not_false_eq_true, true_and]

/-- The piece for the last switch, when white space at its end is gone. -/
theorem parse_piece_end (s : PprSwitch) : parseSwitchset (chop s.piece) = ([s.call], true) ↔
    (124 ∉ s.tail ∧ ∀ a, s.arg = some a → s.isShort = true → a ≠ []) ∧ chop s.tail = s.tail := by
  rw [piece, chop_cons_of_not_isspace (isspace_head s), parseSwitchset_cons_iff, parseOption_iff,
    parseSwitchset_nil_iff]
  constructor
  · rintro ⟨⟨htake, hne⟩, -⟩
    have hbar : 124 ∉ s.tail := htake ▸ bar_notMem_takeWhile _
    have hle : s.tail.length ≤ (chop s.tail).length := by
      calc s.tail.length = ((chop s.tail).takeWhile (· ≠ 124)).length := by rw [htake]
        _ ≤ (chop s.tail).length := (List.takeWhile_prefix _).length_le
    exact ⟨⟨hbar, hne⟩, (chop_isPrefix s.tail).eq_of_length_le hle⟩
  · rintro ⟨⟨hbar, hne⟩, hchop⟩
    have hall : ∀ b ∈ s.tail, decide (b ≠ 124) = true := fun b hb =>
      decide_eq_true fun he => hbar (he ▸ hb)
    have htake : s.tail.takeWhile (· ≠ 124) = s.tail := List.takeWhile_eq_self_iff.2 hall
    have hdrop : s.tail.dropWhile (· ≠ 124) = [] := List.dropWhile_eq_nil_iff.2 hall
    rw [hchop, htake, hdrop]
    exact ⟨⟨rfl, hne⟩, rfl⟩

theorem suits_iff (s : PprSwitch) : s.Suits ↔
    s.Direct ∧ 124 ∉ s.tail ∧ ∀ a, s.arg = some a → s.isShort = true → a ≠ [] := by
  rw [bar_notMem_tail_iff]
  exact ⟨fun h => ⟨h.direct, h.bar, h.ne_nil⟩, fun h => ⟨h.1, h.2.1, h.2.2⟩⟩

theorem switchPieces_ne_nil {w : List Byte} {words pieces : List (List Byte)}
    (h : switchPieces (w :: words) = some pieces) : pieces ≠ [] := by
  rintro rfl
  cases words with
  | nil =>
    obtain ⟨start, -, hs⟩ := Option.map_eq_some_iff.1 h
    exact nomatch hs
  | cons a words =>
    rw [switchPieces] at h
    split at h
    · exact nomatch h
    · split_ifs at h
      · obtain ⟨rest, -, hs⟩ := Option.map_eq_some_iff.1 h
        exact nomatch hs
      · obtain ⟨rest, -, hs⟩ := Option.map_eq_some_iff.1 h
        exact nomatch hs

/-- The last argument does not end in white space. -/
def EndsPlain (sw : List PprSwitch) : Prop := ∀ s ∈ sw.getLast?, ∀ a, s.arg = some a → chop a = a

/-- What is parsed from the pieces of a list of switches. -/
theorem parse_pieces_iff (sw : List PprSwitch) {pieces : List (List Byte)}
    (h : switchPieces (sw.flatMap PprSwitch.words) = some pieces) :
    parseSwitchset (chop (List.intercalate [124] pieces)) = (sw.map PprSwitch.call, true) ↔
      (∀ s ∈ sw, s.Suits) ∧ EndsPlain sw := by
  induction sw generalizing pieces with
  | nil =>
    obtain rfl : pieces = [] := (Option.some.inj h).symm
    refine iff_of_true rfl ⟨fun s hs => (nomatch hs), fun s hs => nomatch hs⟩
  | cons s sw ih =>
    rw [List.flatMap_cons] at h
    obtain ⟨hdirect, hbare⟩ := switchPieces_words s (hyphened_words sw)
    rw [List.map_cons, List.forall_mem_cons, suits_iff]
    by_cases hd : s.Direct
    · rw [hdirect hd] at h
      obtain ⟨rest, hrest, rfl⟩ := Option.map_eq_some_iff.1 h
      cases sw with
      | nil =>
        obtain rfl : rest = [] := (Option.some.inj hrest).symm
        have hends : EndsPlain [s] ↔ chop s.tail = s.tail := by
          rw [chop_tail_iff]
          exact ⟨fun h => h s rfl, fun h t ht => Option.some.inj ht ▸ h⟩
        rw [intercalate_singleton, List.map_nil, parse_piece_end, hends]
        simp [hd]
      | cons t sw =>
        have hne : rest ≠ [] := by
          rintro rfl
          obtain ⟨w, ws, hw⟩ : ∃ w ws, (t :: sw).flatMap PprSwitch.words = w :: ws := by
            cases t with
            | short c arg ht => exact ⟨_, _, rfl⟩
            | long v arg joined ht =>
              cases arg with
              | none => exact ⟨_, _, rfl⟩
              | some a => cases joined <;> exact ⟨_, _, rfl⟩
          rw [hw] at hrest
          exact switchPieces_ne_nil hrest rfl
        have hends : EndsPlain (s :: t :: sw) ↔ EndsPlain (t :: sw) := by
          unfold EndsPlain
          rw [List.getLast?_cons_cons]
        rw [intercalate_cons hne, chop_append_cons (by decide), parse_piece_bar, ih hrest, hends]
        tauto
    · obtain ⟨a, ha⟩ := hbare hd
      rw [ha] at h
      obtain ⟨rest, hrest, rfl⟩ := Option.map_eq_some_iff.1 h
      have harg : s.arg ≠ none := fun hn => hd fun a ha => nomatch hn.symm.trans ha
      have hbar : 124 ∉ s.bareTail := by
        cases s with
        | short c arg hs => exact List.not_mem_nil
        | long w arg joined hs => exact (optionWords_plain w hs.1).2.1
      obtain ⟨htake, -⟩ := takeWhile_bar hbar (chop (List.intercalate [124] rest))
      refine iff_of_false (fun hp => ?_) fun hs => hd hs.1.1.1
      rw [intercalate_cons (switchPieces_ne_nil hrest), chop_append_cons (by decide), List.cons_append,
        parseSwitchset_cons_iff, htake, parseOption_bare harg] at hp
      exact nomatch hp.1

/-! ## The line in the file -/

theorem isBlank_of_not_isspace (c : Byte) (h : isspace c = false) : isBlank c = false := by
  simp only [isspace, isBlank] at *
  simp_all

/-- The text of a line, by its key. -/
theorem switchsetText_eq (isAlias : Bool) (l : List Byte) : switchsetText isAlias l =
    if ascii "Switchset:" <+: l then
      if isAlias then
        if (l.drop 10).dropWhile isspace = [] then none
        else some (((l.drop 10).dropWhile isspace).takeWhile (· ≠ newline))
      else some ((l.drop 10).dropWhile isBlank)
    else none := by
  unfold switchsetText
  have hlen : (ascii "Switchset:").length = 10 := rfl
  cases isAlias with
  | true =>
    have hformat : scanFormat "Switchset: %T" =
        (ascii "Switchset:").map .lit ++ [.space, .conv 'T'] := by decide
    simp only [if_true]
    rw [hformat, guSscanf_lits, hlen]
    by_cases hkey : ascii "Switchset:" <+: l
    · rw [if_pos hkey, if_pos hkey, guSscanf_space]
      by_cases hrest : (l.drop 10).dropWhile isspace = []
      · rw [hrest, guSscanf_nil, if_pos rfl]
      · rw [guSscanf_conv hrest, if_neg hrest]
        rfl
    · rw [if_neg hkey, if_neg hkey]
  | false =>
    simp only [Bool.false_eq_true, if_false]
    rw [lmatchp, hlen, lmatch]
    by_cases hkey : ascii "Switchset:" <+: l
    · rw [if_pos hkey, if_pos (List.isPrefixOf_iff_prefix.2 hkey)]
    · rw [if_neg hkey, if_neg fun h => hkey (List.isPrefixOf_iff_prefix.1 h)]

theorem mem_switchsetText {isAlias : Bool} {l t : List Byte} (h : switchsetText isAlias l = some t)
    {b : Byte} (hb : b ∈ t) : b ∈ l := by
  rw [switchsetText_eq] at h
  split_ifs at h
  · rw [← Option.some.inj h] at hb
    exact List.drop_subset _ _ ((List.dropWhile_suffix _).subset ((List.takeWhile_prefix _).subset hb))
  · rw [← Option.some.inj h] at hb
    exact List.drop_subset _ _ ((List.dropWhile_suffix _).subset hb)

theorem newline_notMem_texts {isAlias : Bool} {conf t : List Byte}
    (h : t ∈ switchsetTexts isAlias conf) : newline ∉ t := by
  obtain ⟨l, hl, ht⟩ := List.mem_filterMap.1 h
  obtain ⟨raw, hraw, rfl⟩ := List.mem_map.1 hl
  exact fun hb => newline_notMem_chop hraw (mem_switchsetText ht hb)

theorem filterMap_switchsetText_lines {isAlias : Bool} {ls : List (List Byte)}
    (h : ∀ l ∈ ls, ¬ ascii "Switchset:" <+: l) :
    ((ls.map (· ++ [newline])).map chop).filterMap (switchsetText isAlias) = [] := by
  rw [List.filterMap_eq_nil_iff]
  intro l hl
  obtain ⟨l', hl', rfl⟩ := List.mem_map.1 hl
  obtain ⟨l, hmem, rfl⟩ := List.mem_map.1 hl'
  rw [switchsetText_eq, chop_concat_newline]
  exact if_neg fun hkey => h l hmem (hkey.trans (chop_isPrefix l))

/-- The texts in a file with a new value. -/
theorem texts_confSetName (isAlias : Bool) (conf : List Byte) (value : Option (List Byte))
    (hvalue : ∀ v ∈ value, newline ∉ v ∧ ∃ c l, v = c :: l ∧ isspace c = false) :
    switchsetTexts isAlias (confSetName { name := ascii "Switchset", value } conf) =
      (value.map chop).toList := by
  set e : ConfEdit := { name := ascii "Switchset", value }
  have hkey : e.name ++ [58] = ascii "Switchset:" := rfl
  have hmatch (l : List Byte) : e.matches l = false ↔ ¬ ascii "Switchset:" <+: l := by
    rw [ConfEdit.matches, hkey, ← List.isPrefixOf_iff_prefix, Bool.not_eq_true]
  have hlines : ∀ l ∈ (rawLines conf).map chop, newline ∉ l := by
    intro l hl
    obtain ⟨raw, hraw, rfl⟩ := List.mem_map.1 hl
    exact newline_notMem_chop hraw
  set before := ((rawLines conf).map chop).takeWhile fun l => !e.matches l
  set after := (((rawLines conf).map chop).dropWhile fun l => !e.matches l).tail.filter
    fun l => !e.matches l
  have hbefore : ∀ l ∈ before, newline ∉ l ∧ ¬ ascii "Switchset:" <+: l := by
    intro l hl
    refine ⟨hlines l ((List.takeWhile_prefix _).subset hl), (hmatch l).1 ?_⟩
    have hp := List.mem_takeWhile_imp (p := fun l => !e.matches l) hl
    simpa using hp
  have hafter : ∀ l ∈ after, newline ∉ l ∧ ¬ ascii "Switchset:" <+: l := by
    intro l hl
    obtain ⟨hmem, hp⟩ := List.mem_filter.1 hl
    refine ⟨hlines l ((List.dropWhile_suffix _).subset (List.mem_of_mem_tail hmem)), (hmatch l).1 ?_⟩
    simpa using hp
  have hrest : rawLines (after.flatMap (· ++ [newline])) = after.map (· ++ [newline]) := by
    have h := rawLines_flatMap (fun l hl => (hafter l hl).1) []
    rwa [List.append_nil, rawLines, List.append_nil] at h
  have hfile : confSetName e conf = before.flatMap (· ++ [newline]) ++
      (e.line ++ after.flatMap (· ++ [newline])) := List.append_assoc ..
  rw [hfile, switchsetTexts, rawLines_flatMap fun l hl => (hbefore l hl).1, List.map_append,
    List.filterMap_append, filterMap_switchsetText_lines fun l hl => (hbefore l hl).2,
    List.nil_append]
  cases hv : value with
  | none =>
    have hline : e.line = [] := by
      simp only [ConfEdit.line, e, hv]
    rw [hline, List.nil_append, hrest, filterMap_switchsetText_lines fun l hl => (hafter l hl).2]
    rfl
  | some v =>
    obtain ⟨hnl, c, l, rfl, hc⟩ := hvalue v hv
    have hline : e.line = ascii "Switchset: " ++ c :: l ++ [newline] := by
      simp only [ConfEdit.line, e, hv]
      rfl
    have hnl' : newline ∉ ascii "Switchset: " ++ c :: l := by
      rw [List.mem_append, not_or]
      exact ⟨by decide, hnl⟩
    have htext : switchsetText isAlias (ascii "Switchset: " ++ c :: chop l) = some (c :: chop l) := by
      have hdrop : (ascii "Switchset: " ++ c :: chop l).drop 10 = 32 :: c :: chop l := rfl
      have hspace : (32 :: c :: chop l).dropWhile isspace = c :: chop l := by
        rw [List.dropWhile_cons_of_pos (by decide), List.dropWhile_cons_of_neg (by simp [hc])]
      have hblank : (32 :: c :: chop l).dropWhile isBlank = c :: chop l := by
        rw [List.dropWhile_cons_of_pos (by decide),
          List.dropWhile_cons_of_neg (by simp [isBlank_of_not_isspace c hc])]
      have htake : (c :: chop l).takeWhile (· ≠ newline) = c :: chop l := by
        rw [List.takeWhile_eq_self_iff]
        refine fun b hb => decide_eq_true fun he => hnl ?_
        rw [← he]
        exact List.cons_subset_cons c (chop_isPrefix l).subset hb
      have hkey : ascii "Switchset:" <+: ascii "Switchset: " ++ c :: chop l :=
        List.IsPrefix.trans ⟨[32], rfl⟩ (List.prefix_append _ _)
      rw [switchsetText_eq, hdrop, hspace, hblank, htake, if_pos hkey, if_neg (List.cons_ne_nil _ _),
        ite_self]
    rw [hline, List.append_assoc, List.append_assoc, List.singleton_append]
    rw [← List.append_assoc, rawLines_append hnl', hrest, List.map_cons, chop_concat_newline,
      chop_append_cons hc, List.filterMap_cons, htext,
      filterMap_switchsetText_lines fun l hl => (hafter l hl).2, Option.map_some,
      chop_cons_of_not_isspace hc]
    rfl

/-! ## What is stored and replayed -/

theorem mem_parseOption {c : Byte} {g a : List Byte} {call : OptCall} (h : parseOption c g = some call)
    (ha : call.optarg = some a) {b : Byte} (hb : b ∈ a) : b ∈ g := by
  unfold parseOption at h
  split_ifs at h with hc hmem
  · dsimp only at h
    split at h
    · exact nomatch h
    · split_ifs at h
      rw [← Option.some.inj h] at ha
      rw [← Option.some.inj ha] at hb
      exact (List.dropWhile_suffix _).subset (List.mem_of_mem_tail hb)
  · dsimp only at h
    split at h
    · exact nomatch h
    · split_ifs at h
      rw [← Option.some.inj h] at ha
      exact nomatch ha
  · split at h
    · exact nomatch h
    · split_ifs at h
      rw [← Option.some.inj h] at ha
      exact Option.some.inj ha ▸ hb

/-- What stands in an argument stands in the text. -/
theorem mem_parseSwitchset {t a : List Byte} {call : OptCall} (h : call ∈ (parseSwitchset t).1)
    (ha : call.optarg = some a) {b : Byte} (hb : b ∈ a) : b ∈ t := by
  induction hn : t.length using Nat.strong_induction_on generalizing t with
  | _ n ih =>
    cases t with
    | nil => exact nomatch h
    | cons c l =>
      rw [parseSwitchset_cons] at h
      cases hp : parseOption c (l.takeWhile (· ≠ 124)) with
      | none =>
        rw [hp] at h
        exact nomatch h
      | some call' =>
        rw [hp] at h
        rcases List.mem_cons.1 h with rfl | h
        · exact List.mem_cons_of_mem _ ((List.takeWhile_prefix _).subset (mem_parseOption hp ha hb))
        · have hlen : (l.dropWhile (· ≠ 124)).tail.length ≤ l.length := by
            rw [List.length_tail]
            exact (Nat.sub_le _ _).trans (List.dropWhile_suffix _).length_le
          have hmem := ih _ (by rw [← hn, List.length_cons]; omega) h rfl
          exact List.mem_cons_of_mem _ ((List.dropWhile_suffix _).subset (List.mem_of_mem_tail hmem))

theorem mem_intercalate {ps : List (List Byte)} {b : Byte} (h : b ∈ List.intercalate [124] ps) :
    b = 124 ∨ b ∈ ps.flatten := by
  induction ps with
  | nil => simp [List.intercalate] at h
  | cons p ps ih =>
    rcases eq_or_ne ps [] with rfl | hne
    · rw [intercalate_singleton] at h
      exact Or.inr (by simpa using h)
    · rw [intercalate_cons hne, List.mem_append, List.mem_cons] at h
      rw [List.flatten_cons, List.mem_append]
      rcases h with h | h | h
      · exact Or.inr (Or.inl h)
      · exact Or.inl h
      · exact (ih h).imp id Or.inr

theorem mem_words {s : PprSwitch} {b : Byte} (h : b ∈ s.words.flatten) :
    b = 45 ∨ b = 61 ∨ b = s.head ∨ b ∈ s.tail := by
  cases s with
  | short c arg hs =>
    cases arg with
    | none =>
      simp only [PprSwitch.words, Option.toList, List.flatten_cons, List.flatten_nil, List.append_nil,
        List.mem_cons, List.not_mem_nil, or_false] at h
      exact h.imp id fun h => Or.inr (Or.inl h)
    | some a =>
      simp only [PprSwitch.words, Option.toList, List.flatten_cons, List.flatten_nil, List.append_nil,
        List.cons_append, List.nil_append, List.mem_cons] at h
      rcases h with h | h | h
      · exact Or.inl h
      · exact Or.inr (Or.inr (Or.inl h))
      · exact Or.inr (Or.inr (Or.inr h))
  | long w arg joined hs =>
    cases arg with
    | none =>
      simp only [PprSwitch.words, List.flatten_cons, List.flatten_nil, List.append_nil, List.mem_cons] at h
      rcases h with h | h | h
      · exact Or.inl h
      · exact Or.inl h
      · exact Or.inr (Or.inr (Or.inr h))
    | some a =>
      have htail : b ∈ w.name ∨ b ∈ a → b ∈ w.name ++ 61 :: a := fun h =>
        h.elim (List.mem_append_left _) fun h => List.mem_append_right _ (List.mem_cons_of_mem _ h)
      cases joined with
      | true =>
        simp only [PprSwitch.words, List.flatten_cons, List.flatten_nil, List.append_nil, List.mem_append,
          List.mem_cons, List.not_mem_nil, or_false, List.cons_append] at h
        rcases h with h | h | (h | h) | h
        · exact Or.inl h
        · exact Or.inl h
        · exact Or.inr (Or.inr (Or.inr (htail (Or.inl h))))
        · exact Or.inr (Or.inl h)
        · exact Or.inr (Or.inr (Or.inr (htail (Or.inr h))))
      | false =>
        simp only [PprSwitch.words, List.flatten_cons, List.flatten_nil, List.append_nil, List.mem_append,
          List.mem_cons, List.cons_append] at h
        rcases h with h | h | h | h
        · exact Or.inl h
        · exact Or.inl h
        · exact Or.inr (Or.inr (Or.inr (htail (Or.inl h))))
        · exact Or.inr (Or.inr (Or.inr (htail (Or.inr h))))

theorem makeSwitchsetLine_words (sw : List PprSwitch) :
    makeSwitchsetLine (sw.flatMap PprSwitch.words) =
      (switchPieces (sw.flatMap PprSwitch.words)).map (List.intercalate [124]) := by
  have hhyphen := hyphened_words sw
  cases hw : sw.flatMap PprSwitch.words with
  | nil => rfl
  | cons w words =>
    rw [hw] at hhyphen
    have hne : ¬ sameWord w (ascii "none") = true := by
      intro h
      obtain ⟨l, rfl⟩ : ∃ l, w = 45 :: l := by
        cases w with
        | nil => exact nomatch hhyphen _ rfl
        | cons b l => exact ⟨l, by rw [Option.some.inj (hhyphen _ rfl)]⟩
      rw [sameWord, decide_eq_true_eq] at h
      exact absurd (List.cons.inj h).1 (by decide)
    exact if_neg hne

/-- No newline gets into the line but from an argument. -/
theorem newline_notMem_line {sw : List PprSwitch} {pieces : List (List Byte)}
    (h : switchPieces (sw.flatMap PprSwitch.words) = some pieces)
    (harg : ∀ s ∈ sw, ∀ a, s.arg = some a → newline ∉ a) :
    newline ∉ List.intercalate [124] pieces := by
  intro hmem
  rcases mem_intercalate hmem with hb | hb
  · exact absurd hb (by decide)
  · rcases mem_switchPieces h hb with hb | hb
    · exact absurd hb (by decide)
    · obtain ⟨w, hw, hbw⟩ := List.mem_flatten.1 hb
      obtain ⟨s, hs, hws⟩ := List.mem_flatMap.1 hw
      rcases mem_words (List.mem_flatten.2 ⟨w, hws, hbw⟩) with hb | hb | hb | hb
      · exact absurd hb (by decide)
      · exact absurd hb (by decide)
      · have hspace := isspace_head s
        rw [← hb] at hspace
        exact absurd hspace (by decide)
      · rcases mem_tail hb (by decide) with ⟨a, ha, hna⟩ | ⟨w, hw, hnw⟩
        · exact harg s hs a ha hna
        · exact (optionWords_plain w hw).2.2.1 hnw

theorem newline_notMem_foldl (isAlias : Bool) (ts : List (List Byte)) (hts : ∀ t ∈ ts, newline ∉ t)
    (acc : Option (List Byte)) (hacc : ∀ t ∈ acc, newline ∉ t) :
    ∀ t ∈ ts.foldl (fun switchset text => some (addSwitchset isAlias switchset text)) acc,
      newline ∉ t := by
  induction ts generalizing acc with
  | nil => exact hacc
  | cons u ts ih =>
    refine ih (fun t ht => hts t (List.mem_cons_of_mem _ ht)) _ fun t ht => ?_
    obtain rfl : addSwitchset isAlias acc u = t := Option.some.inj ht
    have hu := hts u (List.mem_cons_self ..)
    unfold addSwitchset
    cases acc with
    | none => exact hu
    | some s =>
      cases isAlias with
      | true => exact hu
      | false =>
        simp only [Bool.false_eq_true, if_false, List.mem_append, not_or]
        exact ⟨⟨hacc s rfl, by decide⟩, hu⟩

theorem newline_notMem_cache {isAlias : Bool} {conf t : List Byte}
    (h : cacheSwitchset isAlias conf = some t) : newline ∉ t :=
  newline_notMem_foldl isAlias _ (fun _ ht => newline_notMem_texts ht) none (fun _ ht => nomatch ht) t h

/-- The line begins with the first switch. -/
theorem line_head {s : PprSwitch} {sw : List PprSwitch} {pieces : List (List Byte)}
    (h : switchPieces ((s :: sw).flatMap PprSwitch.words) = some pieces) :
    ∃ l, List.intercalate [124] pieces = s.head :: l := by
  obtain ⟨p, rest, rfl, hp⟩ : ∃ p rest, pieces = (s.head :: p) :: rest ∧ True := by
    rw [List.flatMap_cons] at h
    obtain ⟨hdirect, hbare⟩ := switchPieces_words s (hyphened_words sw)
    by_cases hd : s.Direct
    · rw [hdirect hd] at h
      obtain ⟨rest, -, rfl⟩ := Option.map_eq_some_iff.1 h
      exact ⟨_, _, rfl, trivial⟩
    · obtain ⟨a, ha⟩ := hbare hd
      rw [ha] at h
      obtain ⟨rest, -, rfl⟩ := Option.map_eq_some_iff.1 h
      exact ⟨_, _, rfl, trivial⟩
  rcases eq_or_ne rest [] with rfl | hne
  · exact ⟨p, intercalate_singleton _⟩
  · exact ⟨_, intercalate_cons hne⟩

/-- The switches that are stored are the switches that are replayed. -/
def Replays (isAlias : Bool) (conf : List Byte) (sw : List PprSwitch) : Prop :=
  match commandSwitchset conf (sw.flatMap PprSwitch.words) with
  | .rejected => True
  | .overflow => False
  | .stored conf' => switchsetCalls isAlias conf' = (sw.map PprSwitch.call, true)

/-- If there is a line for the switches, it fits, and it says what the arguments are. -/
def SwitchesEncodable (sw : List PprSwitch) : Prop :=
  ∀ line, makeSwitchsetLine (sw.flatMap PprSwitch.words) = some line →
    line.length < newsetSize ∧ (∀ s ∈ sw, s.Plain) ∧ EndsPlain sw

theorem replays_iff (isAlias : Bool) (conf : List Byte) (sw : List PprSwitch) :
    Replays isAlias conf sw ↔ SwitchesEncodable sw := by
  unfold Replays SwitchesEncodable commandSwitchset
  rw [makeSwitchsetLine_words]
  cases hp : switchPieces (sw.flatMap PprSwitch.words) with
  | none => exact iff_of_true trivial fun line h => nomatch h
  | some pieces =>
    set line := List.intercalate [124] pieces with hline
    have hall (P : List Byte → Prop) :
        (∀ l, (some pieces).map (List.intercalate [124]) = some l → P l) ↔ P line :=
      ⟨fun h => h line rfl, fun h l hl => Option.some.inj hl ▸ h⟩
    rw [hall]
    simp only [Option.map_some]
    rw [← hline]
    by_cases hsize : newsetSize ≤ line.length
    · rw [if_pos hsize]
      exact iff_of_false id fun h => absurd h.1 (Nat.not_lt.2 hsize)
    · rw [if_neg hsize, and_iff_right (Nat.not_le.1 hsize)]
      dsimp only
      cases sw with
      | nil =>
        obtain rfl : pieces = [] := (Option.some.inj hp).symm
        have htexts := texts_confSetName isAlias conf none (fun v hv => nomatch hv)
        refine iff_of_true ?_ ⟨fun s hs => (nomatch hs), fun s hs => nomatch hs⟩
        have hnil : line = [] := rfl
        rw [if_pos hnil, switchsetCalls, cacheSwitchset, htexts]
        rfl
      | cons s sw =>
        obtain ⟨l, hl⟩ := line_head hp
        have hlne : line ≠ [] := by
          rw [hline, hl]
          exact List.cons_ne_nil _ _
        rw [if_neg hlne]
        set conf' := confSetName { name := ascii "Switchset", value := some line } conf
        have hcalls (hnl : newline ∉ line) :
            switchsetCalls isAlias conf' = parseSwitchset (chop line) := by
          have htexts := texts_confSetName isAlias conf (some line) fun v hv =>
            Option.some.inj hv ▸ ⟨hnl, s.head, l, hl, isspace_head s⟩
          rw [switchsetCalls, cacheSwitchset, htexts]
          rfl
        constructor
        · intro h
          -- What is parsed stands in a line of the file, so no argument has a newline.
          have harg : ∀ t ∈ s :: sw, ∀ a, t.arg = some a → newline ∉ a := by
            intro t ht a ha hb
            have hcall : t.call ∈ (switchsetCalls isAlias conf').1 := by
              rw [h]
              exact List.mem_map_of_mem ht
            have hopt : t.call.optarg = some a := by
              cases t with
              | short c arg hs =>
                obtain rfl : arg = some a := ha
                rfl
              | long w arg joined hs => exact ha
            unfold switchsetCalls at hcall
            cases hc : cacheSwitchset isAlias conf' with
            | none =>
              rw [hc] at hcall
              exact nomatch hcall
            | some text =>
              rw [hc] at hcall
              exact newline_notMem_cache hc (mem_parseSwitchset hcall hopt hb)
          rw [hcalls (newline_notMem_line hp harg)] at h
          obtain ⟨hsuits, hends⟩ := (parse_pieces_iff (s :: sw) hp).1 h
          exact ⟨fun t ht => { hsuits t ht with newline_notMem := harg t ht }, hends⟩
        · rintro ⟨hplain, hends⟩
          have hnl : newline ∉ line :=
            newline_notMem_line hp fun t ht a ha => (hplain t ht).newline_notMem a ha
          rw [hcalls hnl]
          exact (parse_pieces_iff (s :: sw) hp).2 ⟨fun t ht => (hplain t ht).toSuits, hends⟩

/-! ## Several lines -/

/-- The blank and what follows it change the option that they are joined to. -/
theorem parseOption_joined_ne {c : Byte} {l : List Byte} {call : OptCall} (h : parseOption c l = some call)
    (u : List Byte) : parseOption c (l ++ 32 :: u) ≠ some call := by
  intro hjoined
  unfold parseOption at h hjoined
  by_cases hc : c = 45
  · rw [if_pos hc] at h hjoined
    dsimp only at h hjoined
    cases hf : optionWords.find? fun w => w.name = (l ++ 32 :: u).takeWhile (· ≠ 61) with
    | none =>
      rw [hf] at hjoined
      exact nomatch hjoined
    | some v =>
      cases hf' : optionWords.find? fun w => w.name = l.takeWhile (· ≠ 61) with
      | none =>
        rw [hf'] at h
        exact nomatch h
      | some w =>
        rw [hf] at hjoined
        rw [hf'] at h
        dsimp only at h hjoined
        split_ifs at h with hmem hw hw
        all_goals split_ifs at hjoined with hmem' hv hv
        all_goals obtain ⟨-, hvalue, -⟩ := OptCall.mk.inj (Option.some.inj (hjoined.trans h.symm))
        · -- The value is longer.
          have hlen := congrArg List.length (Option.some.inj hvalue)
          have hdrop : (l ++ 32 :: u).dropWhile (· ≠ 61) = l.dropWhile (· ≠ 61) ++ 32 :: u := by
            rw [List.dropWhile_append, if_neg]
            intro hempty
            have hall := List.dropWhile_eq_nil_iff.1 (List.isEmpty_iff.1 hempty) 61 hmem
            exact absurd rfl (of_decide_eq_true hall)
          have hne : l.dropWhile (· ≠ 61) ≠ [] := by
            intro hempty
            have hall := List.dropWhile_eq_nil_iff.1 hempty 61 hmem
            exact absurd rfl (of_decide_eq_true hall)
          have hpos := List.length_pos_iff.2 hne
          rw [hdrop, List.length_tail, List.length_tail, List.length_append, List.length_cons] at hlen
          omega
        · exact absurd (List.mem_append_left _ hmem) hmem'
        · -- The name has a blank in it.
          exact nomatch hvalue
        · have hname : v.name = (l ++ 32 :: u).takeWhile (· ≠ 61) := by simpa using List.find?_some hf
          have hmemv : v ∈ optionWords := List.mem_of_find?_eq_some hf
          have hblank : (32 : Byte) ∈ v.name := by
            have hall : (l ++ 32 :: u).takeWhile (· ≠ 61) = l ++ 32 :: u := by
              rw [List.takeWhile_eq_self_iff]
              exact fun b hb => decide_eq_true fun he => hmem' (he ▸ hb)
            rw [hname, hall]
            exact List.mem_append_right _ (List.mem_cons_self ..)
          exact (optionWords_plain v hmemv).2.2.2.1 hblank
  · rw [if_neg hc] at h hjoined
    cases hs : shortNeedsArg c with
    | none =>
      rw [hs] at h
      exact nomatch h
    | some needsarg =>
      rw [hs] at h hjoined
      dsimp only at h hjoined
      split_ifs at h
      split_ifs at hjoined
      obtain ⟨-, hvalue, -⟩ := OptCall.mk.inj (Option.some.inj (hjoined.trans h.symm))
      have hlen := congrArg List.length (Option.some.inj hvalue)
      rw [List.length_append, List.length_cons] at hlen
      omega

/-- A text that another one is joined to is not read as itself. -/
theorem parse_joined_ne {t : List Byte} (ht : (parseSwitchset t).2 = true) (u : List Byte)
    (calls : List OptCall) :
    parseSwitchset (t ++ 32 :: u) ≠ ((parseSwitchset t).1 ++ calls, true) := by
  induction hn : t.length using Nat.strong_induction_on generalizing t with
  | _ n ih =>
    cases t with
    | nil =>
      rw [List.nil_append, parseSwitchset_cons]
      have hnone : parseOption 32 (u.takeWhile (· ≠ 124)) = none := by
        rw [parseOption, if_neg (by decide), (by decide : shortNeedsArg 32 = none)]
      rw [hnone]
      exact fun h => nomatch (Prod.mk.inj h).2
    | cons c l =>
      rw [List.cons_append]
      intro h
      cases hp : parseOption c (l.takeWhile (· ≠ 124)) with
      | none =>
        rw [parseSwitchset_cons, hp] at ht
        exact nomatch ht
      | some call =>
        have hfirst : parseSwitchset (c :: l) = (call :: (parseSwitchset (l.dropWhile (· ≠ 124)).tail).1,
            (parseSwitchset (l.dropWhile (· ≠ 124)).tail).2) := by
          rw [parseSwitchset_cons, hp]
        rw [hfirst] at h ht
        rw [List.cons_append, parseSwitchset_cons_iff] at h
        obtain ⟨hcall, hrest⟩ := h
        by_cases hbar : 124 ∈ l
        · -- The first option is the same, so the rest is compared.
          obtain ⟨g, r, rfl, hg⟩ := List.eq_append_cons_of_mem hbar
          obtain ⟨-, hdrop⟩ := takeWhile_bar hg r
          rw [hdrop, List.tail_cons] at hrest ht
          have hdrop' : (g ++ 124 :: r ++ 32 :: u).dropWhile (· ≠ 124) = 124 :: (r ++ 32 :: u) := by
            rw [List.append_assoc, List.cons_append, (takeWhile_bar hg _).2]
          rw [hdrop', List.tail_cons] at hrest
          refine ih r.length ?_ ht rfl hrest
          rw [← hn, List.length_cons, List.length_append, List.length_cons]
          omega
        · have hpos : ∀ b ∈ l, decide (b ≠ 124) = true := fun b hb =>
            decide_eq_true fun he => hbar (he ▸ hb)
          have hall : l.takeWhile (· ≠ 124) = l := List.takeWhile_eq_self_iff.2 hpos
          have hjoined : (l ++ 32 :: u).takeWhile (· ≠ 124) = l ++ 32 :: u.takeWhile (· ≠ 124) := by
            rw [List.takeWhile_append_of_pos hpos, List.takeWhile_cons_of_pos (by decide)]
          rw [hall] at hp
          rw [hjoined] at hcall
          exact parseOption_joined_ne hp _ hcall

theorem cache_alias (t : List Byte) (ts : List (List Byte)) :
    ts.foldl (fun switchset text => some (addSwitchset true switchset text)) (some t) =
      some ((t :: ts).getLast (List.cons_ne_nil _ _)) := by
  induction ts generalizing t with
  | nil => rfl
  | cons u ts ih =>
    rw [List.foldl_cons, List.getLast_cons (List.cons_ne_nil _ _)]
    exact ih u

theorem cache_joined (t u : List Byte) (ts : List (List Byte)) :
    ∃ v, ts.foldl (fun switchset text => some (addSwitchset false switchset text))
      (some (t ++ 32 :: u)) = some (t ++ 32 :: v) := by
  induction ts generalizing u with
  | nil => exact ⟨u, rfl⟩
  | cons w ts ih =>
    obtain ⟨v, hv⟩ := ih (u ++ 32 :: w)
    refine ⟨v, ?_⟩
    rw [List.foldl_cons, ← hv]
    congr 2
    change t ++ 32 :: u ++ [32] ++ w = _
    simp

/-- The text of a line in the file of an alias is not empty. -/
theorem alias_text_ne_nil {conf t : List Byte} (h : t ∈ switchsetTexts true conf) : t ≠ [] := by
  obtain ⟨l, -, ht⟩ := List.mem_filterMap.1 h
  rw [switchsetText_eq] at ht
  simp only [if_true] at ht
  split_ifs at ht with hkey hrest
  obtain rfl := Option.some.inj ht
  intro hempty
  cases hd : (l.drop 10).dropWhile isspace with
  | nil => exact hrest hd
  | cons b r =>
    rw [hd] at hempty
    by_cases hb : b = newline
    · have hspace := dropWhile_head (p := isspace) (l.drop 10) b (by rw [hd]; rfl)
      rw [hb] at hspace
      exact absurd hspace (by decide)
    · have hpos : decide (b ≠ newline) = true := decide_eq_true hb
      rw [List.takeWhile_cons, if_pos hpos] at hempty
      exact nomatch hempty

/-- The lines of a file act as one line after another. -/
def ActsTogether (isAlias : Bool) (conf : List Byte) : Prop :=
  switchsetCalls isAlias conf =
    ((switchsetTexts isAlias conf).flatMap fun t => (parseSwitchset t).1, true)

theorem actsTogether_iff {isAlias : Bool} {conf : List Byte}
    (h : ∀ t ∈ switchsetTexts isAlias conf, (parseSwitchset t).2 = true) :
    ActsTogether isAlias conf ↔ (switchsetTexts isAlias conf).length ≤ 1 := by
  unfold ActsTogether switchsetCalls cacheSwitchset
  have hne (halias : isAlias = true) : ∀ t ∈ switchsetTexts isAlias conf, t ≠ [] := by
    intro t ht
    rw [halias] at ht
    exact alias_text_ne_nil ht
  generalize switchsetTexts isAlias conf = ts at h hne
  cases ts with
  | nil => exact iff_of_true rfl (Nat.zero_le _)
  | cons t ts =>
    cases ts with
    | nil =>
      refine iff_of_true ?_ le_rfl
      change parseSwitchset t = _
      rw [List.flatMap_singleton]
      exact Prod.ext rfl (h t (List.mem_singleton_self _))
    | cons u ts =>
      refine iff_of_false (fun hcalls => ?_) (by simp)
      cases isAlias with
      | true =>
        have hfold : (t :: u :: ts).foldl (fun switchset text => some (addSwitchset true switchset text)) none =
            some ((u :: ts).getLast (List.cons_ne_nil u ts)) := cache_alias u ts
        rw [hfold] at hcalls
        dsimp only at hcalls
        -- The last line makes its own calls only, and the first one makes some.
        have hlast := List.getLast_mem (List.cons_ne_nil u ts)
        have hlen := congrArg (fun r => r.1.length) hcalls
        simp only [List.flatMap_cons, List.length_append] at hlen
        have hsub : (parseSwitchset ((u :: ts).getLast (List.cons_ne_nil u ts))).1.length ≤
            ((u :: ts).flatMap fun t => (parseSwitchset t).1).length := by
          rw [List.flatMap_def]
          exact (List.sublist_flatten_of_mem
            (List.mem_map_of_mem (f := fun t => (parseSwitchset t).1) hlast)).length_le
        rw [List.flatMap_cons, List.length_append] at hsub
        have hzero : (parseSwitchset t).1 = [] := by
          rw [← List.length_eq_zero_iff]
          omega
        have ht : parseSwitchset t = ([], true) := Prod.ext hzero (h t (List.mem_cons_self ..))
        exact hne rfl t (List.mem_cons_self ..) (parseSwitchset_nil_iff.1 ht)
      | false =>
        have hjoin : addSwitchset false (some t) u = t ++ 32 :: u := by
          change t ++ [32] ++ u = _
          simp
        obtain ⟨v, hv⟩ := cache_joined t u ts
        rw [List.foldl_cons, List.foldl_cons, addSwitchset, hjoin, hv] at hcalls
        dsimp only at hcalls
        rw [List.flatMap_cons] at hcalls
        exact parse_joined_ne (h t (List.mem_cons_self ..)) v _ hcalls

/-- A switchset is replayed exactly when its line says what it is, and lines act together exactly when
there are no two of them. -/
theorem switchsets_iff (isAlias : Bool) (conf : List Byte) (sw : List PprSwitch)
    (h : ∀ t ∈ switchsetTexts isAlias conf, (parseSwitchset t).2 = true) :
    (Replays isAlias conf sw ↔ SwitchesEncodable sw) ∧
      (ActsTogether isAlias conf ↔ (switchsetTexts isAlias conf).length ≤ 1) :=
  ⟨replays_iff isAlias conf sw, actsTogether_iff h⟩

def titleSwitch (title : String) : PprSwitch :=
  .short 67 (some (ascii title)) (by decide : shortNeedsArg 67 = some true)

theorem switchsets_title :
    (Replays false (ascii "Switchset: U\n") [titleSwitch "a title"] ↔ SwitchesEncodable [titleSwitch "a title"]) ∧
      (ActsTogether false (ascii "Switchset: U\n") ↔
        (switchsetTexts false (ascii "Switchset: U\n")).length ≤ 1) :=
  switchsets_iff false (ascii "Switchset: U\n") [titleSwitch "a title"] (by decide +kernel)

/-- A '|' in a title ends it, and two lines are not two lists of switches. -/
theorem not_replays_bar : ¬ Replays false [] [titleSwitch "a|U"] ∧
    ¬ ActsTogether false (ascii "Switchset: U\nSwitchset: I\n") := by
  constructor
  · have hstored : commandSwitchset [] ([titleSwitch "a|U"].flatMap PprSwitch.words) =
        .stored (ascii "Switchset: Ca|U\n") := by decide +kernel
    rw [Replays, hstored]
    decide +kernel
  · rw [ActsTogether]
    decide +kernel

end Ppr
