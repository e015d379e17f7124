import Ppr.FilterLp.Passes

/-!
# The arrays of the line printer filter

The column goes below zero with more backspaces than characters, and what is read then is stored in front of the
arrays.  As long as that does not happen every access is in the arrays.
-/

namespace Ppr.FilterLp

section Blocks

variable {α : Type} {block : List α} {i : ℤ}

theorem peek_eq {a : α} {n : ℕ} (h : block[n]? = some a) (hi : i = n) : peek block i = .ok a := by
  rw [peek, if_pos (by omega), hi, Int.toNat_natCast, h]
  rfl

theorem peek_ok (h0 : 0 ≤ i) (h : i < block.length) : ∃ a, peek block i = .ok a := by
  have hlt : i.toNat < block.length := by omega
  exact ⟨block[i.toNat], peek_eq (List.getElem?_eq_getElem hlt) (by omega)⟩

theorem peek_wild (h : i < 0) : peek block i = .error .wild := if_neg (by omega)

theorem poke_ok (h0 : 0 ≤ i) (h : i < block.length) (a : α) : poke block i a = .ok (block.set i.toNat a) :=
  if_pos ⟨h0, by omega⟩

end Blocks

/-! ## The column -/

/-- A character that ends the line. -/
def Ends (t : Settings) (c : ℕ) : Prop := c = 10 ∨ c = 12 ∨ (c = 13 ∧ t.autoLf = true)

/-- A character that only moves back, or is ignored. -/
def Moves (c : ℕ) : Prop := c = 0 ∨ c = 8 ∨ c = 13

instance (t : Settings) (c : ℕ) : Decidable (Ends t c) := inferInstanceAs (Decidable (_ ∨ _ ∨ _))

instance (c : ℕ) : Decidable (Moves c) := inferInstanceAs (Decidable (_ ∨ _ ∨ _))

/-- The column behind a character that does not end the line. -/
def columnAfter (t : Settings) (c : ℕ) (column : ℤ) : ℤ :=
  if c = 0 then column
  else if c = 8 then column - 1
  else if c = 13 then 0
  else if c = 9 then column + (t.tabWidth - column.tmod t.tabWidth)
  else column + 1

def charactersFrom (get : List Byte → Option ℕ × List Byte) : ℕ → List Byte → List (Option ℕ)
  | 0, _ => []
  | _ + 1, [] => []
  | fuel + 1, c :: stdin => (get (c :: stdin)).1 :: charactersFrom get fuel (get (c :: stdin)).2

/-- The characters of the input one after the other; where the function gives EOF there is none. -/
def characters (get : List Byte → Option ℕ × List Byte) (stdin : List Byte) : List (Option ℕ) :=
  charactersFrom get stdin.length stdin

/-- From a column of a line with so many columns on, nothing is printed in front of the first column before the reader
first finds EOF with nothing on the line. -/
def Spared (t : Settings) : ℤ → ℤ → List (Option ℕ) → Prop
  | _, _, [] => True
  | _, width, none :: cs => width ≠ 0 → Spared t 0 0 cs
  | column, width, some c :: cs =>
    if Ends t c then Spared t 0 0 cs
    else if Moves c then Spared t (columnAfter t c column) width cs
    else
      0 ≤ column ∧
        if (t.maxWidth : ℤ) ≤ columnAfter t c column then Spared t 0 0 cs
        else Spared t (columnAfter t c column) (max width (columnAfter t c column)) cs

/-! ## One character -/

/-- The arrays are as long as `main()` has made them, and there is nothing behind the line. -/
structure Scan.Sized (t : Settings) (s : Scan) : Prop where
  line : s.line.length = t.maxWidth + t.tabWidth + 1
  attr : s.lineAttr.length = t.maxWidth + t.tabWidth
  nonneg : 0 ≤ s.maxcount
  zero : ∀ i : ℕ, max s.maxcount s.count ≤ i → i < s.line.length → s.line[i]? = some 0

namespace Scan.Sized

variable {t : Settings} {s : Scan}

/-- A step of the column after the character in it has been set. -/
theorem set_line (h : s.Sized t) (h0 : 0 ≤ s.count) (c : ℕ) :
    Sized t { s with line := s.line.set s.count.toNat c, count := s.count + 1 } := by
  refine ⟨?_, h.attr, h.nonneg, ?_⟩
  · rw [← h.line]
    exact List.length_set
  · intro i hi hlt
    have hi' : max s.maxcount (s.count + 1) ≤ (i : ℤ) := hi
    have hlt' : i < s.line.length := by simpa using hlt
    have hne : s.count.toNat ≠ i := by omega
    show (s.line.set s.count.toNat c)[i]? = some 0
    rw [List.getElem?_set_ne hne]
    exact h.zero i (by omega) hlt'

theorem step (h : s.Sized t) : Sized t { s with count := s.count + 1 } := by
  refine ⟨h.line, h.attr, h.nonneg, ?_⟩
  intro i hi hlt
  have hi' : max s.maxcount (s.count + 1) ≤ (i : ℤ) := hi
  exact h.zero i (by omega) hlt

theorem move (h : s.Sized t) {count : ℤ} (hcount : count ≤ max s.maxcount s.count) (hle : s.count ≤ s.maxcount) :
    Sized t { s with count := count } := by
  refine ⟨h.line, h.attr, h.nonneg, ?_⟩
  intro i hi hlt
  have hi' : max s.maxcount count ≤ (i : ℤ) := hi
  exact h.zero i (by omega) hlt

theorem advance (h : s.Sized t) (h0 : 0 ≤ s.count) (hlt : s.count < t.maxWidth + t.tabWidth) :
    ∃ line, s.advance = .ok { s with line, count := s.count + 1 } ∧
      Sized t { s with line, count := s.count + 1 } := by
  have hlen := h.line
  have hin : s.count < s.line.length := by omega
  obtain ⟨c, hc⟩ := peek_ok h0 hin
  by_cases hzero : c = 0
  · refine ⟨s.line.set s.count.toNat 32, ?_, h.set_line h0 32⟩
    rw [Scan.advance, hc]
    show ((if c = 0 then poke s.line s.count 32 else Except.ok s.line) >>= _) = _
    rw [if_pos hzero, poke_ok h0 hin]
    rfl
  · refine ⟨s.line, ?_, h.step⟩
    rw [Scan.advance, hc]
    show ((if c = 0 then poke s.line s.count 32 else Except.ok s.line) >>= _) = _
    rw [if_neg hzero]
    rfl

theorem tab (h : s.Sized t) (x : ℕ) (h0 : 0 ≤ s.count) (hlt : s.count + x < t.maxWidth + t.tabWidth) :
    ∃ line, s.tab x = .ok { s with line, count := s.count + x } ∧ Sized t { s with line, count := s.count + x } := by
  induction x generalizing s with
  | zero =>
    refine ⟨s.line, ?_, ?_⟩
    · rw [Scan.tab]
      simp
    · simpa using h
  | succ x ih =>
    push_cast at hlt
    obtain ⟨line, hadvance, hline⟩ := h.advance h0 (by omega)
    obtain ⟨line', htab, hline'⟩ := ih hline (by show 0 ≤ s.count + 1; omega) (by show s.count + 1 + x < _; omega)
    have hcount : s.count + 1 + (x : ℤ) = s.count + ((x + 1 : ℕ) : ℤ) := by
      push_cast
      omega
    refine ⟨line', ?_, ?_⟩
    · rw [Scan.tab, hadvance, ← hcount]
      exact htab
    · rw [← hcount]
      exact hline'

theorem mark (h : s.Sized t) (h0 : 0 ≤ s.count) (hlt : s.count < t.maxWidth + t.tabWidth) (attr : Byte) :
    ∃ lineAttr, s.mark attr = .ok { s with lineAttr } ∧ Sized t { s with lineAttr } := by
  have hlen := h.attr
  have hin : s.count < s.lineAttr.length := by omega
  obtain ⟨a, ha⟩ := peek_ok h0 hin
  refine ⟨s.lineAttr.set s.count.toNat (a ||| attr), ?_, h.line, ?_, h.nonneg, h.zero⟩
  · rw [Scan.mark, ha]
    show (poke s.lineAttr s.count (a ||| attr) >>= _) = _
    rw [poke_ok h0 hin]
    rfl
  · rw [← h.attr]
    exact List.length_set

theorem strike (h : s.Sized t) (h0 : 0 ≤ s.count) (hlt : s.count < t.maxWidth + t.tabWidth) (c : ℕ) :
    ∃ line lineAttr, s.strike c = .ok { s with line, lineAttr, count := s.count + 1 } ∧
      Sized t { s with line, lineAttr, count := s.count + 1 } := by
  have hlen := h.line
  have hin : s.count < s.line.length := by omega
  obtain ⟨d, hd⟩ := peek_ok h0 hin
  by_cases heq : d = c
  · obtain ⟨lineAttr, hmark, hsized⟩ := h.mark h0 hlt attrBold
    refine ⟨s.line, lineAttr, ?_, hsized.step⟩
    rw [Scan.strike, hd]
    show (if d = c then _ else _) = _
    rw [if_pos heq, hmark]
    rfl
  · refine ⟨s.line.set s.count.toNat c, s.lineAttr, ?_, h.set_line h0 c⟩
    rw [Scan.strike, hd]
    show (if d = c then _ else _) = _
    rw [if_neg heq, poke_ok h0 hin]
    rfl

end Scan.Sized

section Character

variable {t : Settings} {s : Scan} {c : ℕ}

theorem character_ends (h : Ends t c) :
    character t c s = .ok (s, some (if c = 12 then .formfeed else .endOfLine)) := by
  rcases h with rfl | rfl | ⟨rfl, hlf⟩
  · simp [character]
  · simp [character]
  · simp [character, hlf]

theorem character_moves (hends : ¬Ends t c) (h : Moves c) :
    character t c s = .ok ({ s with count := columnAfter t c s.count }, none) := by
  rcases h with rfl | rfl | rfl
  · simp [character, columnAfter]
  · simp [character, columnAfter]
  · have hlf : t.autoLf = false := by simpa [Ends] using hends
    simp [character, columnAfter, hlf]

theorem columnAfter_moves_le (h : Moves c) (hle : s.count ≤ s.maxcount) (h0 : 0 ≤ s.maxcount) :
    columnAfter t c s.count ≤ s.maxcount := by
  rcases h with rfl | rfl | rfl <;> simp [columnAfter] <;> omega

/-- The number of spaces up to the next tab stop. -/
theorem tab_stop (h0 : 0 ≤ s.count) :
    0 < (t.tabWidth : ℤ) - s.count.tmod t.tabWidth ∧ (t.tabWidth : ℤ) - s.count.tmod t.tabWidth ≤ t.tabWidth := by
  have hpos : (0 : ℤ) < t.tabWidth := by exact_mod_cast t.tab_ok
  have hmod : s.count.tmod t.tabWidth = s.count % t.tabWidth := Int.tmod_eq_emod_of_nonneg h0
  have hlt := Int.emod_lt_of_pos s.count hpos
  have hnonneg := Int.emod_nonneg s.count (Int.ne_of_gt hpos)
  omega

theorem tab_negative (h : s.count < 0) : 0 < ((t.tabWidth : ℤ) - s.count.tmod t.tabWidth).toNat := by
  have hpos : (0 : ℤ) < t.tabWidth := by exact_mod_cast t.tab_ok
  have hnonneg : 0 ≤ (-s.count).tmod t.tabWidth := Int.tmod_nonneg t.tabWidth (by omega)
  rw [Int.neg_tmod] at hnonneg
  omega

theorem columnAfter_prints (hmoves : ¬Moves c) (h0 : 0 ≤ s.count) (hlt : s.count < t.maxWidth) :
    s.count < columnAfter t c s.count ∧ columnAfter t c s.count < t.maxWidth + t.tabWidth := by
  have htab := tab_stop (t := t) h0
  have hone : (1 : ℤ) ≤ t.tabWidth := by exact_mod_cast t.tab_ok
  simp only [Moves, not_or] at hmoves
  rw [columnAfter, if_neg hmoves.1, if_neg hmoves.2.1, if_neg hmoves.2.2]
  split_ifs <;> omega

/-- A character that is printed on the line. -/
theorem character_prints (hends : ¬Ends t c) (hmoves : ¬Moves c) (h : s.Sized t) (h0 : 0 ≤ s.count) (hlt : s.count < t.maxWidth) :
    ∃ line lineAttr, character t c s = .ok ({ s with line, lineAttr, count := columnAfter t c s.count }, none) ∧
      Scan.Sized t { s with line, lineAttr, count := columnAfter t c s.count } := by
  have hroom : s.count < t.maxWidth + t.tabWidth := by omega
  simp only [Ends, Moves, not_or] at hends hmoves
  rw [character, columnAfter, if_neg hmoves.1, if_neg hmoves.2.1, if_neg hmoves.1, if_neg hmoves.2.1, if_neg hmoves.2.2]
  by_cases htab : c = 9
  · have hstop := tab_stop (t := t) h0
    have hnat : (((t.tabWidth : ℤ) - s.count.tmod t.tabWidth).toNat : ℤ) = t.tabWidth - s.count.tmod t.tabWidth :=
      Int.toNat_of_nonneg (Int.le_of_lt hstop.1)
    obtain ⟨line, hline, hsized⟩ := h.tab ((t.tabWidth : ℤ) - s.count.tmod t.tabWidth).toNat h0 (by omega)
    rw [hnat] at hline hsized
    refine ⟨line, s.lineAttr, ?_, ?_⟩
    · rw [if_pos htab, if_pos htab, hline]
      rfl
    · rw [if_pos htab]
      exact hsized
  · have h13 : ¬(c = 13 ∧ t.autoLf = false) := fun h => hmoves.2.2 h.1
    have hend : ¬(c = 13 ∨ c = 10) := by
      rintro (h | h)
      · exact hmoves.2.2 h
      · exact hends.1 h
    rw [if_neg htab, if_neg h13, if_neg hend, if_neg hends.2.1, if_neg htab]
    split_ifs with hunder hspace
    · obtain ⟨lineAttr, hmark, hsized⟩ := h.mark h0 hroom attrUnderline
      obtain ⟨line, hadvance, hsized'⟩ := hsized.advance h0 hroom
      refine ⟨line, lineAttr, ?_, hsized'⟩
      rw [hmark]
      show (Scan.advance { s with lineAttr } >>= _) = _
      rw [hadvance]
      rfl
    · obtain ⟨line, hadvance, hsized⟩ := h.advance h0 hroom
      refine ⟨line, s.lineAttr, ?_, hsized⟩
      rw [hadvance]
      rfl
    · obtain ⟨line, lineAttr, hstrike, hsized⟩ := h.strike h0 hroom c
      refine ⟨line, lineAttr, ?_, hsized⟩
      rw [hstrike]
      rfl

/-- A character that is printed in front of the line. -/
theorem character_wild (hends : ¬Ends t c) (hmoves : ¬Moves c) (h0 : s.count < 0) : character t c s = .error .wild := by
  have hadvance : s.advance = .error .wild := by
    rw [Scan.advance, peek_wild h0]
    rfl
  simp only [Ends, Moves, not_or] at hends hmoves
  rw [character, if_neg hmoves.1, if_neg hmoves.2.1]
  by_cases htab : c = 9
  · obtain ⟨x, hx⟩ := Nat.exists_eq_add_one_of_ne_zero (Nat.ne_of_gt (tab_negative (t := t) h0))
    rw [if_pos htab, hx, Scan.tab, hadvance]
    rfl
  · have h13 : ¬(c = 13 ∧ t.autoLf = false) := fun h => hmoves.2.2 h.1
    have hend : ¬(c = 13 ∨ c = 10) := by
      rintro (h | h)
      · exact hmoves.2.2 h
      · exact hends.1 h
    rw [if_neg htab, if_neg h13, if_neg hend, if_neg hends.2.1]
    split_ifs
    · rw [Scan.mark, peek_wild h0]
      rfl
    · rw [hadvance]
      rfl
    · rw [Scan.strike, peek_wild h0]
      rfl

end Character

/-! ## One line -/

/-- A function that gets a character takes something from what is not at its end. -/
structure Getter (get : List Byte → Option ℕ × List Byte) : Prop where
  nil : get [] = (none, [])
  shorter : ∀ c stdin, (get (c :: stdin)).2.length ≤ stdin.length

section Scanning

variable {t : Settings} {get : List Byte → Option ℕ × List Byte} {s : Scan}

theorem charactersFrom_eq (hget : Getter get) {n : ℕ} {stdin : List Byte} (hn : stdin.length ≤ n) :
    charactersFrom get n stdin = characters get stdin := by
  induction n using Nat.strong_induction_on generalizing stdin with
  | _ n ih =>
    cases stdin with
    | nil => cases n <;> rfl
    | cons c stdin =>
      obtain ⟨n, rfl⟩ := Nat.exists_eq_add_one_of_ne_zero (Nat.ne_of_gt (Nat.zero_lt_of_lt hn))
      have hshorter := hget.shorter c stdin
      rw [List.length_cons] at hn
      rw [charactersFrom, characters, List.length_cons, charactersFrom]
      rw [ih n (Nat.lt_succ_self n) (by omega), ← ih stdin.length (by omega) hshorter]

theorem characters_cons (hget : Getter get) (c : Byte) (stdin : List Byte) :
    characters get (c :: stdin) = (get (c :: stdin)).1 :: characters get (get (c :: stdin)).2 := by
  rw [characters, List.length_cons, charactersFrom, charactersFrom_eq hget (hget.shorter c stdin)]

/-- What has been found when the loop has been left. -/
structure Left (t : Settings) (s s' : Scan) : Prop where
  sized : s'.Sized t
  count_le : s'.count ≤ s'.maxcount
  maxcount_lt : s'.maxcount < t.maxWidth + t.tabWidth
  le : s'.stdin.length ≤ s.stdin.length
  shorter : s.stdin = [] ∨ (t.maxWidth : ℤ) ≤ s.count ∨ s'.stdin.length < s.stdin.length

/-- What is read on the line, and on the next one if the line is full. -/
def SparedAt (t : Settings) (get : List Byte → Option ℕ × List Byte) (s : Scan) : Prop :=
  if (t.maxWidth : ℤ) ≤ s.count then Spared t 0 0 (characters get s.stdin)
  else Spared t s.count (max s.maxcount s.count) (characters get s.stdin)

/-- A step that goes on: where the column is then, and what is still to be read. -/
structure Goes (t : Settings) (s s' : Scan) : Prop where
  sized : s'.Sized t
  maxcount_le : max s'.maxcount s'.count < t.maxWidth + t.tabWidth
  shorter : s'.stdin.length < s.stdin.length

theorem Left.of_goes {s s' s'' : Scan} (h : Goes t s s') (hleft : Left t s' s'') : Left t s s'' := by
  have hshorter := h.shorter
  have hle := hleft.le
  exact ⟨hleft.sized, hleft.count_le, hleft.maxcount_lt, by omega, Or.inr (Or.inr (by omega))⟩

/-- At the beginning of a round `maxcount` is brought up to date. -/
def Scan.update (s : Scan) : Scan := { s with maxcount := max s.maxcount s.count }

theorem Scan.Sized.update (h : s.Sized t) : s.update.Sized t := by
  refine ⟨h.line, h.attr, le_max_of_le_left h.nonneg, ?_⟩
  intro i hi hlt
  have hi' : max (max s.maxcount s.count) s.count ≤ (i : ℤ) := hi
  exact h.zero i (by omega) hlt

theorem scan_none {fuel : ℕ} {stdin : List Byte} (h : s.count < t.maxWidth) (hc : get s.stdin = (none, stdin)) :
    scan t get (fuel + 1) s = .ok ({ s.update with stdin }, .eof) := by
  rw [scan]
  dsimp only
  rw [if_neg (not_le.2 h), hc]
  rfl

theorem scan_some {fuel c : ℕ} {stdin : List Byte} (h : s.count < t.maxWidth) (hc : get s.stdin = (some c, stdin)) :
    scan t get (fuel + 1) s = character t c { s.update with stdin } >>= fun next =>
      next.2.elim (scan t get fuel next.1) fun stop => .ok (next.1, stop) := by
  rw [scan]
  dsimp only
  rw [if_neg (not_le.2 h), hc]
  rfl

/-- One round of the loop, in which the line is left, or a character is in front of it, or the column goes on. -/
theorem scan_round (hget : Getter get) {fuel : ℕ} {s : Scan} (hs : s.Sized t)
    (hmax : max s.maxcount s.count < t.maxWidth + t.tabWidth) :
    (∃ s' stop, scan t get (fuel + 1) s = .ok (s', stop) ∧ Left t s s' ∧
      (¬(stop = .eof ∧ s'.maxcount = 0) → (SparedAt t get s ↔ Spared t 0 0 (characters get s'.stdin))) ∧
      (stop = .eof ∧ s'.maxcount = 0 → SparedAt t get s)) ∨
    (scan t get (fuel + 1) s = .error .wild ∧ ¬SparedAt t get s) ∨
    ∃ s', scan t get (fuel + 1) s = scan t get fuel s' ∧ Goes t s s' ∧ (SparedAt t get s ↔ SparedAt t get s') := by
  by_cases hfull : (t.maxWidth : ℤ) ≤ s.count
  · refine Or.inl ⟨s.update, .endOfLine, ?_, ?_, ?_, ?_⟩
    · rw [scan]
      exact if_pos hfull
    · exact ⟨hs.update, le_max_right _ _, hmax, le_rfl, Or.inr (Or.inl hfull)⟩
    · intro _
      rw [SparedAt, if_pos hfull]
      exact Iff.rfl
    · rintro ⟨h, -⟩
      cases h
  · have hupdate : s.update.Sized t := hs.update
    have hlt : s.count < t.maxWidth := not_le.1 hfull
    cases hstdin : s.stdin with
    | nil =>
      refine Or.inl ⟨{ s.update with stdin := [] }, .eof, ?_, ?_, ?_, ?_⟩
      · apply scan_none hlt
        rw [hstdin, hget.nil]
      · refine ⟨⟨hupdate.line, hupdate.attr, hupdate.nonneg, hupdate.zero⟩, le_max_right _ _, hmax, ?_, Or.inl hstdin⟩
        exact Nat.zero_le _
      · intro _
        rw [SparedAt, if_neg hfull, hstdin]
        exact iff_of_true trivial trivial
      · intro _
        rw [SparedAt, if_neg hfull, hstdin]
        exact trivial
    | cons d stdin =>
      have hshorter := hget.shorter d stdin
      have hcharacters := characters_cons hget d stdin
      generalize hnext : get (d :: stdin) = next at hshorter hcharacters
      obtain ⟨c, rest⟩ := next
      rw [← hstdin] at hnext
      have hrest : rest.length < s.stdin.length := by
        rw [hstdin, List.length_cons]
        exact Nat.lt_succ_of_le hshorter
      have hsized : Scan.Sized t { s.update with stdin := rest } :=
        ⟨hupdate.line, hupdate.attr, hupdate.nonneg, hupdate.zero⟩
      have hat : SparedAt t get s ↔ Spared t s.count (max s.maxcount s.count) (c :: characters get rest) := by
        rw [SparedAt, if_neg hfull, hstdin, hcharacters]
      cases c with
      | none =>
        refine Or.inl ⟨{ s.update with stdin := rest }, .eof, scan_none hlt hnext, ?_, ?_, ?_⟩
        · exact ⟨hsized, le_max_right _ _, hmax, hrest.le, Or.inr (Or.inr hrest)⟩
        · intro hne
          have hwidth : max s.maxcount s.count ≠ 0 := fun h => hne ⟨rfl, h⟩
          rw [hat, Spared]
          exact ⟨fun h => h hwidth, fun h _ => h⟩
        · rintro ⟨-, hwidth⟩
          rw [hat, Spared]
          exact fun h => absurd hwidth h
      | some c =>
        rw [Spared] at hat
        rw [scan_some hlt hnext]
        by_cases hends : Ends t c
        · refine Or.inl ⟨{ s.update with stdin := rest }, if c = 12 then .formfeed else .endOfLine, ?_, ?_, ?_, ?_⟩
          · rw [character_ends hends]
            rfl
          · exact ⟨hsized, le_max_right _ _, hmax, hrest.le, Or.inr (Or.inr hrest)⟩
          · intro _
            rw [hat, if_pos hends]
          · rintro ⟨h, -⟩
            split_ifs at h
        · rw [if_neg hends] at hat
          by_cases hmoves : Moves c
          · have hcolumn := columnAfter_moves_le (t := t) (s := s.update) hmoves (le_max_right _ _) hupdate.nonneg
            have hcolumn' : columnAfter t c s.count ≤ max s.maxcount s.count := hcolumn
            refine Or.inr (Or.inr ⟨{ s.update with stdin := rest, count := columnAfter t c s.count }, ?_, ?_, ?_⟩)
            · rw [character_moves hends hmoves]
              rfl
            · refine ⟨hsized.move ?_ ?_, ?_, hrest⟩
              · exact le_max_of_le_left hcolumn
              · exact le_max_right _ _
              · show max (max s.maxcount s.count) (columnAfter t c s.count) < _
                rw [max_eq_left hcolumn']
                exact hmax
            · have hnot : ¬(t.maxWidth : ℤ) ≤ columnAfter t c s.count := by
                have hwidth := t.width_ok
                rcases hmoves with rfl | rfl | rfl <;> simp [columnAfter] <;> omega
              rw [hat, if_pos hmoves, SparedAt]
              show _ ↔ if (t.maxWidth : ℤ) ≤ columnAfter t c s.count then _ else
                Spared t (columnAfter t c s.count) (max (max s.maxcount s.count) (columnAfter t c s.count)) _
              rw [if_neg hnot, max_eq_left hcolumn']
          · rw [if_neg hmoves] at hat
            by_cases h0 : 0 ≤ s.count
            · obtain ⟨line, lineAttr, hcharacter, hsized'⟩ := character_prints hends hmoves hsized h0 hlt
              have hcolumn := columnAfter_prints (t := t) (s := s) hmoves h0 hlt
              refine Or.inr (Or.inr
                ⟨{ s.update with stdin := rest, line, lineAttr, count := columnAfter t c s.count }, ?_, ?_, ?_⟩)
              · rw [hcharacter]
                rfl
              · exact ⟨hsized', max_lt hmax hcolumn.2, hrest⟩
              · rw [hat]
                exact and_iff_right h0
            · refine Or.inr (Or.inl ⟨?_, fun h => h0 (hat.1 h).1⟩)
              have hwild : character t c { s.update with stdin := rest } = .error .wild :=
                character_wild hends hmoves (not_le.1 h0)
              rw [hwild]
              rfl

/-- The loop is left, and if the characters are spared no access is wild. -/
theorem scan_spec (hget : Getter get) {fuel : ℕ} {s : Scan} (hs : s.Sized t)
    (hmax : max s.maxcount s.count < t.maxWidth + t.tabWidth) (hfuel : s.stdin.length < fuel) :
    (∃ s' stop, scan t get fuel s = .ok (s', stop) ∧ Left t s s' ∧
      (¬(stop = .eof ∧ s'.maxcount = 0) → (SparedAt t get s ↔ Spared t 0 0 (characters get s'.stdin))) ∧
      (stop = .eof ∧ s'.maxcount = 0 → SparedAt t get s)) ∨
    (scan t get fuel s = .error .wild ∧ ¬SparedAt t get s) := by
  induction fuel generalizing s with
  | zero => exact absurd hfuel (Nat.not_lt_zero _)
  | succ fuel ih =>
    rcases scan_round hget hs hmax with hleft | hwild | ⟨s1, hround, hgoes, hat⟩
    · exact Or.inl hleft
    · exact Or.inr hwild
    · have hshorter := hgoes.shorter
      rw [hround, hat]
      rcases ih hgoes.sized hgoes.maxcount_le (by omega) with ⟨s', stop, hscan, hleft, hrest, heof⟩ | hwild
      · exact Or.inl ⟨s', stop, hscan, hleft.of_goes hgoes, hrest, heof⟩
      · exact Or.inr hwild

end Scanning

end Ppr.FilterLp
