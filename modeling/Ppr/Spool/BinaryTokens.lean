import Ppr.Spool.Infile

/-!
# Binary tokens

The bytes that `in_getline()` takes one after the other are followed from line to line.  A token is
whole if every byte of it is taken while `bintoken_grace` is not zero, and the first byte behind it as
if it came first in a line.
-/

namespace Ppr

/-! ## Tokens -/

/-- The bytes of a fixed-point number, by its representation. -/
def fixedSize (r : Byte) : Option ℕ :=
  if r.toNat % 128 ≤ 31 then some 4 else if r.toNat % 128 ≤ 47 then some 2 else none

/-- The bytes of each number in an array, by their representation. -/
def numberSize (r : Byte) : Option ℕ :=
  if r.toNat % 128 = 48 ∨ r.toNat % 128 = 49 then some 4 else fixedSize r

/-- A length of two bytes, with the high-order byte first or last. -/
def length16 (highFirst : Bool) (a b : Byte) : ℕ :=
  if highFirst then a.toNat * 256 + b.toNat else b.toNat * 256 + a.toNat

/-- How many bytes of the token that begins with `c` are in `l`, which follows; at least those that
say how long it is, if the input ends before.  `none` if no token begins so. -/
def tokenLength (c : Byte) (l : List Byte) : Option ℕ :=
  if c ∈ ([132, 133, 138, 139, 140] : List Byte) then some 4
  else if c ∈ ([134, 135] : List Byte) then some 2
  else if c ∈ ([136, 141, 145, 146, 147, 148] : List Byte) then some 1
  else if c = 137 then
    match l with
    | [] => some 1
    | r :: _ => (fixedSize r).map (1 + ·)
  else if c = 142 then
    match l with
    | [] => some 1
    | n :: _ => some (1 + n.toNat)
  else if c = 143 then
    match l with
    | a :: b :: _ => some (2 + length16 true a b)
    | _ => some 2
  else if c = 144 then
    match l with
    | a :: b :: _ => some (2 + length16 false a b)
    | _ => some 2
  else if c = 149 then
    match l with
    | [] => some 3
    | [r] | [r, _] => (numberSize r).map fun _ => 3
    | r :: a :: b :: _ => (numberSize r).map (3 + length16 (r.toNat < 128) a b * ·)
  else none

/-! ## Following the input -/

/-- The variables of the loop in `in_getline()`, as the arguments of `scanLine`. -/
structure Loop where
  l : List Byte
  s : ScanState
  acc : List Byte
  prevc : Byte

namespace Loop

def scanned (x : Loop) : Scanned := scanLine x.l x.s x.acc x.prevc

/-- The start of a call. -/
def entry (l : List Byte) (s : ScanState) : Loop := { l := l, s := s, acc := [], prevc := 0 }

/-- A round of the loop, if it goes on. -/
def turn (x : Loop) : Option Loop :=
  match x.l with
  | [] => none
  | c :: l =>
    if x.s.bintokenGrace = 0 ∧ (c = 10 ∨ c = 13) then none
    else if maxLine ≤ (x.acc ++ [c]).length then none
    else some { l := l, s := x.s.next x.prevc c l, acc := x.acc ++ [c], prevc := c }

/-- The call sets `logical_eof`. -/
def atEof (type : InType) (x : Loop) : Bool :=
  x.scanned.eof || (!x.scanned.overflow && endsInput type x.scanned.line)

/-- The next round, in this call or in the next one. -/
def succ (type : InType) (x : Loop) : Option Loop :=
  match x.turn with
  | some y => some y
  | none => if x.atEof type then none else some (entry x.scanned.rest x.scanned.scan)

def after (type : InType) : ℕ → Loop → Option Loop
  | 0, x => some x
  | k + 1, x => (x.succ type).bind (after type k)

theorem scanned_turn {x y : Loop} (h : x.turn = some y) : y.scanned = x.scanned := by
  obtain ⟨l, s, acc, prevc⟩ := x
  cases l with
  | nil => cases h
  | cons c l =>
    unfold turn at h
    unfold scanned
    dsimp only at h ⊢
    split_ifs at h with hline hlong
    cases h
    rw [scanLine, if_neg hline, if_neg hlong]

/-- The calls of `in_getline()` are the ones that are followed. -/
theorem inGetline_entry (type : InType) (l : List Byte) (s : ScanState) :
    (inGetline type { input := l, logicalEof := false, scan := s }).2 =
      { input := (entry l s).scanned.rest, logicalEof := (entry l s).atEof type,
        scan := (entry l s).scanned.scan } := by
  unfold inGetline atEof
  rw [if_neg (by simp)]
  change (if (entry l s).scanned.overflow = false ∧ endsInput type (entry l s).scanned.line = true
    then _ else _ : _ × Infile).2 = _
  split_ifs with h
  · rw [h.1, h.2]
    simp [scanned, entry]
  · have hno : (!(entry l s).scanned.overflow && endsInput type (entry l s).scanned.line) = false := by
      simpa using h
    rw [hno, Bool.or_false]
    rfl

/-- A byte that does not end the line is taken; the line may have become too long, and the next call
goes on. -/
theorem succ_char (type : InType) {x : Loop} {c : Byte} {l : List Byte} (hl : x.l = c :: l)
    (hc : ¬ (x.s.bintokenGrace = 0 ∧ (c = 10 ∨ c = 13))) :
    ∃ y, x.succ type = some y ∧ y.l = l ∧ y.s = x.s.next x.prevc c l ∧
      (if maxLine ≤ x.acc.length + 1 then y.acc = [] ∧ y.prevc = 0
        else y.acc = x.acc ++ [c] ∧ y.prevc = c) := by
  obtain ⟨l', s, acc, prevc⟩ := x
  cases hl
  by_cases hlong : maxLine ≤ (acc ++ [c]).length
  · have hturn : turn { l := c :: l, s := s, acc := acc, prevc := prevc } = none := by
      unfold turn
      dsimp only
      rw [if_neg hc, if_pos hlong]
    have hscanned : scanned { l := c :: l, s := s, acc := acc, prevc := prevc } =
        { line := acc ++ [c], overflow := true, eof := false, rest := l,
          scan := s.next prevc c l } := by
      unfold scanned
      rw [scanLine, if_neg hc, if_pos hlong]
    refine ⟨entry l (s.next prevc c l), ?_, rfl, rfl, ?_⟩
    · unfold succ atEof
      rw [hturn, hscanned]
      rfl
    · rw [if_pos (by simpa using hlong)]
      exact ⟨rfl, rfl⟩
  · refine ⟨{ l := l, s := s.next prevc c l, acc := acc ++ [c], prevc := c }, ?_, rfl, rfl, ?_⟩
    · unfold succ turn
      dsimp only
      rw [if_neg hc, if_neg hlong]
    · rw [if_neg (by simpa using hlong)]
      exact ⟨rfl, rfl⟩

/-- A line has room for another byte. -/
def Room (x : Loop) : Prop := x.acc.length < maxLine

theorem room_succ {type : InType} {x y : Loop} (hy : x.succ type = some y) : y.Room := by
  unfold succ at hy
  cases hturn : x.turn with
  | some z =>
    rw [hturn] at hy
    cases hy
    unfold turn at hturn
    split at hturn
    · cases hturn
    · split_ifs at hturn with hline hlong
      cases hturn
      exact not_le.1 hlong
  | none =>
    rw [hturn] at hy
    dsimp only at hy
    split_ifs at hy
    cases hy
    exact Nat.zero_lt_succ _

/-- Where a call has been begun, there is no byte before. -/
theorem succ_acc {type : InType} {x y : Loop} {c : Byte} {l : List Byte} (hl : x.l = c :: l)
    (hroom : x.Room) (hc : ¬ (x.s.bintokenGrace = 0 ∧ (c = 10 ∨ c = 13))) (hy : x.succ type = some y) :
    y.acc.length = (x.acc.length + 1) % maxLine ∧
      y.prevc = if (x.acc.length + 1) % maxLine = 0 then 0 else c := by
  obtain ⟨z, hz, -, -, hacc⟩ := succ_char type hl hc
  obtain rfl : z = y := Option.some.inj (hz.symm.trans hy)
  unfold Room at hroom
  split_ifs at hacc with hlong
  · have hmod : (x.acc.length + 1) % maxLine = 0 := by
      have : x.acc.length + 1 = maxLine := by omega
      rw [this, Nat.mod_self]
    rw [hmod, if_pos rfl, hacc.1, hacc.2]
    exact ⟨rfl, rfl⟩
  · have hmod : (x.acc.length + 1) % maxLine = x.acc.length + 1 := Nat.mod_eq_of_lt (by omega)
    rw [hmod, if_neg (by omega), hacc.1, hacc.2]
    exact ⟨by simp, rfl⟩

/-- As long as `bintoken_grace` does not become zero, the bytes are taken without being looked at. -/
theorem after_inside (type : InType) {x : Loop} (hroom : x.Room) {k : ℕ} (hk : k ≤ x.l.length)
    (hgrace : ∀ j : ℕ, j < k → x.s.bintokenGrace - j ≠ 0) :
    ∃ y, after type k x = some y ∧ y.l = x.l.drop k ∧
      y.s = { x.s with bintokenGrace := x.s.bintokenGrace - k } ∧
      (∀ c, 0 < k → x.l[k - 1]? = some c →
        y.prevc = if (x.acc.length + k) % maxLine = 0 then 0 else c) := by
  induction k generalizing x with
  | zero => exact ⟨x, rfl, rfl, by simp, fun _ h => absurd h (by decide)⟩
  | succ k ih =>
    cases hl : x.l with
    | nil =>
      rw [hl] at hk
      cases hk
    | cons c l =>
      have hg : x.s.bintokenGrace ≠ 0 := by simpa using hgrace 0 (Nat.succ_pos k)
      have hc : ¬ (x.s.bintokenGrace = 0 ∧ (c = 10 ∨ c = 13)) := fun h => hg h.1
      obtain ⟨z, hz, hzl, hzs, -⟩ := succ_char type hl hc
      obtain ⟨hacc, hprevc⟩ := succ_acc hl hroom hc hz
      have hnext : z.s = { x.s with bintokenGrace := x.s.bintokenGrace - 1 } := by
        rw [hzs, ScanState.next, if_pos hg]
      obtain ⟨y, hy, hyl, hys, hyp⟩ := ih (x := z) (room_succ hz)
        (by rw [hzl]; simpa [hl] using hk) fun j hj => by
          rw [hnext]
          have := hgrace (j + 1) (by omega)
          push_cast at this
          dsimp only
          omega
      refine ⟨y, ?_, by rw [hyl, hzl, List.drop_succ_cons], ?_, fun b _ hb => ?_⟩
      · unfold after
        rw [hz]
        exact hy
      · rw [hys, hnext]
        dsimp only
        congr 1
        push_cast
        ring
      · cases k with
        | zero =>
          cases hy
          cases hb
          exact hprevc
        | succ k =>
          rw [hzl] at hyp
          have hsum : x.acc.length + 1 + (k + 1) = x.acc.length + (k + 1 + 1) := by omega
          rw [hyp b (Nat.succ_pos k) (by simpa using hb), hacc, Nat.mod_add_mod, hsum]

/-! ## Whole tokens -/

/-- A token of `n` more bytes begins here, outside of strings, comments and ASCII85 data. -/
structure Starts (x : Loop) (c : Byte) (l : List Byte) (n : ℕ) : Prop where
  text : x.l = c :: l
  grace : x.s.bintokenGrace = 0
  comment : x.s.inComment = false
  string : x.s.stringLevel = 0
  ascii85 : x.s.inAscii85 = false
  length : tokenLength c l = some n

/-- The `n` bytes are taken as bytes of a token, as far as the input goes, and the scanning goes on
behind them as it was, with no byte of the token taken for one before. -/
structure Whole (type : InType) (x : Loop) (l : List Byte) (n : ℕ) : Prop where
  inside : ∀ k, k < n → k < l.length → ∃ y, after type (k + 1) x = some y ∧ y.l = l.drop k ∧
    y.s.bintokenGrace ≠ 0
  behind : n < l.length → ∃ y, after type (n + 1) x = some y ∧ y.l = l.drop n ∧ y.s = x.s ∧
    ∀ c ∈ y.l.head?, y.s.note y.prevc c = y.s.note 0 c

/-- The bytes that are taken without being looked at, of `len` bytes that are left. -/
def taken (grace : ℤ) (len : ℕ) : ℕ := if grace < 0 then len else min grace.toNat len

theorem taken_le (grace : ℤ) (len : ℕ) : taken grace len ≤ len := by
  unfold taken
  split_ifs
  · exact le_rfl
  · exact min_le_right _ _

theorem sub_ne_zero_of_lt_taken {grace : ℤ} {len j : ℕ} (h : j < taken grace len) :
    grace - j ≠ 0 := by
  unfold taken at h
  split_ifs at h with hneg
  · omega
  · have := lt_min_iff.1 h
    omega

variable {type : InType} {x : Loop} {c : Byte} {l : List Byte} {n : ℕ}

theorem Starts.char (h : x.Starts c l n) : c ≠ 37 ∧ c ≠ 40 ∧ c ≠ 41 ∧ c ≠ 126 ∧ c ≠ 62 ∧ c ≠ 10 ∧ c ≠ 13 := by
  have hlength := h.length
  refine ⟨?_, ?_, ?_, ?_, ?_, ?_, ?_⟩ <;>
    · rintro rfl
      cases hlength

/-- The first byte of a token. -/
theorem Starts.succ (type : InType) (h : x.Starts c l n) : ∃ y, x.succ type = some y ∧ y.l = l ∧
    y.s = { x.s with bintokenGrace := tokenGrace c l } := by
  obtain ⟨h37, h40, h41, h126, h62, h10, h13⟩ := h.char
  obtain ⟨y, hy, hyl, hys, -⟩ := succ_char type h.text fun hline => hline.2.elim h10 h13
  refine ⟨y, hy, hyl, ?_⟩
  have hnote : x.s.note x.prevc c = x.s := by
    unfold ScanState.note
    rw [if_neg h37, if_neg h40, if_neg h41, if_neg h126, if_neg h62]
  rw [hys, ScanState.next, if_neg (not_not.2 h.grace)]
  dsimp only
  rw [hnote, if_pos ⟨h.comment, h.string⟩]

/-- The state when `k` more bytes have been taken. -/
theorem Starts.after (type : InType) (h : x.Starts c l n) (hroom : x.Room) {k : ℕ}
    (hk : k ≤ taken (tokenGrace c l) l.length) :
    ∃ y, after type (k + 1) x = some y ∧ y.l = l.drop k ∧
      y.s = { x.s with bintokenGrace := tokenGrace c l - k } ∧
      ∀ b, 0 < k → l[k - 1]? = some b →
        y.prevc = if (x.acc.length + 1 + k) % maxLine = 0 then 0 else b := by
  obtain ⟨z, hz, hzl, hzs⟩ := h.succ type
  have hgrace : z.s.bintokenGrace = tokenGrace c l := by rw [hzs]
  obtain ⟨hacc, -⟩ := succ_acc h.text hroom
    (fun hline => hline.2.elim h.char.2.2.2.2.2.1 h.char.2.2.2.2.2.2) hz
  obtain ⟨y, hy, hyl, hys, hyp⟩ := after_inside type (room_succ hz) (k := k)
    (by rw [hzl]; exact hk.trans (taken_le _ _)) fun j hj => by
      rw [hgrace]
      exact sub_ne_zero_of_lt_taken (hj.trans_le hk)
  refine ⟨y, ?_, by rw [hyl, hzl], by rw [hys, hzs], fun b hk hb => ?_⟩
  · unfold Loop.after
    rw [hz]
    exact hy
  · rw [hyp b hk (by rwa [hzl]), hacc, Nat.mod_add_mod]

/-- Outside of strings and ASCII85 data, only one pair of bytes is taken together. -/
theorem note_iff {s : ScanState} (hcomment : s.inComment = false) (hstring : s.stringLevel = 0)
    (hascii85 : s.inAscii85 = false) (p c : Byte) :
    s.note p c = s.note 0 c ↔ ¬ (p = 60 ∧ c = 126) := by
  by_cases h126 : c = 126
  · subst h126
    have hnote : ∀ q : Byte, s.note q 126 =
        if q = 60 ∧ s.stringLevel = 0 ∧ s.inComment = false then { s with inAscii85 := true } else s :=
      fun _ => rfl
    rw [hnote, hnote, if_neg (c := (0 : Byte) = 60 ∧ _) fun h => absurd h.1 (by decide)]
    by_cases hp : p = 60
    · rw [if_pos ⟨hp, hstring, hcomment⟩]
      refine iff_of_false (fun h => ?_) fun h => h ⟨hp, rfl⟩
      have hflag := congrArg ScanState.inAscii85 h
      rw [hascii85] at hflag
      cases hflag
    · rw [if_neg fun h => hp h.1]
      exact iff_of_true rfl fun h => hp h.1
  · refine iff_of_true ?_ fun h => h126 h.2
    have h41 : ∀ q : Byte, ¬ (q ≠ 92 ∧ s.stringLevel ≠ 0) := fun _ h => h.2 hstring
    have h62 : ∀ q : Byte, ¬ (q = 126 ∧ s.inAscii85 = true) := by simp [hascii85]
    unfold ScanState.note
    rw [if_neg h126, if_neg h126, if_neg (h41 p), if_neg (h41 0), if_neg (h62 p), if_neg (h62 0)]

theorem taken_eq_of_lt {grace : ℤ} {len : ℕ} (h : taken grace len < len) : grace = taken grace len := by
  unfold taken at h ⊢
  split_ifs at h ⊢ with hneg
  · exact absurd h (lt_irrefl _)
  · have := min_lt_iff.1 h
    omega

theorem tokenLength_pos {c : Byte} {l : List Byte} {n : ℕ} (h : tokenLength c l = some n) : 0 < n := by
  unfold tokenLength at h
  split_ifs at h
  · cases h
    decide
  · cases h
    decide
  · cases h
    decide
  · cases l with
    | nil =>
      cases h
      decide
    | cons r l =>
      obtain ⟨m, -, rfl⟩ := Option.map_eq_some_iff.1 h
      omega
  · cases l with
    | nil =>
      cases h
      decide
    | cons r l =>
      obtain rfl := Option.some.inj h
      omega
  · split at h <;>
    · obtain rfl := Option.some.inj h
      omega
  · split at h <;>
    · obtain rfl := Option.some.inj h
      omega
  · split at h
    · cases h
      decide
    all_goals
      obtain ⟨m, -, rfl⟩ := Option.map_eq_some_iff.1 h
      omega

/-- The last byte of the token and the one behind it are not taken for the start of ASCII85 data. -/
def Apart (x : Loop) (l : List Byte) (n : ℕ) : Prop :=
  ¬ (l[n - 1]? = some 60 ∧ l[n]? = some 126 ∧ (x.acc.length + 1 + n) % maxLine ≠ 0)

/-- A token is whole if `bintoken_grace` is right, as far as the input goes. -/
theorem Starts.whole_iff (h : x.Starts c l n) (hroom : x.Room) :
    Whole type x l n ↔ taken (tokenGrace c l) l.length = min n l.length ∧ x.Apart l n := by
  have hn := tokenLength_pos h.length
  have hlast : n < l.length → ∃ b, l[n - 1]? = some b := fun hlt =>
    ⟨l[n - 1], List.getElem?_eq_getElem (by omega)⟩
  constructor
  · intro hw
    have htaken : taken (tokenGrace c l) l.length = min n l.length := by
      rcases lt_trichotomy (taken (tokenGrace c l) l.length) (min n l.length) with hlt | heq | hlt
      · obtain ⟨hltn, hltl⟩ := lt_min_iff.1 hlt
        obtain ⟨y, hy, -, hys, -⟩ := h.after type hroom le_rfl
        obtain ⟨z, hz, -, hzs⟩ := hw.inside _ hltn hltl
        obtain rfl : y = z := Option.some.inj (hy.symm.trans hz)
        rw [hys] at hzs
        exact absurd (sub_eq_zero.2 (taken_eq_of_lt hltl)) hzs
      · exact heq
      · have hltl : n < l.length := by
          have := hlt.trans_le (taken_le _ _)
          omega
        rw [min_eq_left hltl.le] at hlt
        obtain ⟨y, hy, -, hys, -⟩ := h.after type hroom hlt.le
        obtain ⟨z, hz, -, hzs, -⟩ := hw.behind hltl
        obtain rfl : y = z := Option.some.inj (hy.symm.trans hz)
        have hgrace := congrArg ScanState.bintokenGrace (hys.symm.trans hzs)
        rw [h.grace] at hgrace
        exact absurd hgrace (sub_ne_zero_of_lt_taken hlt)
    refine ⟨htaken, fun ⟨hprev, hnext, hmod⟩ => ?_⟩
    have hltl : n < l.length := (List.getElem?_eq_some_iff.1 hnext).1
    rw [min_eq_left hltl.le] at htaken
    obtain ⟨y, hy, hyl, -, hyp⟩ := h.after type hroom htaken.ge
    obtain ⟨z, hz, -, hzs, hznote⟩ := hw.behind hltl
    obtain rfl : y = z := Option.some.inj (hy.symm.trans hz)
    have hnote := hznote 126 (by rw [hyl, List.head?_drop, hnext]; rfl)
    rw [hyp 60 hn hprev, if_neg hmod, hzs] at hnote
    exact (note_iff h.comment h.string h.ascii85 60 126).1 hnote ⟨rfl, rfl⟩
  · rintro ⟨htaken, hapart⟩
    refine ⟨fun k hkn hkl => ?_, fun hltl => ?_⟩
    · have hk : k < taken (tokenGrace c l) l.length := by
        rw [htaken]
        exact lt_min hkn hkl
      obtain ⟨y, hy, hyl, hys, -⟩ := h.after type hroom hk.le
      refine ⟨y, hy, hyl, ?_⟩
      rw [hys]
      exact sub_ne_zero_of_lt_taken hk
    · rw [min_eq_left hltl.le] at htaken
      obtain ⟨y, hy, hyl, hys, hyp⟩ := h.after type hroom htaken.ge
      have hgrace : tokenGrace c l - n = 0 := by
        have := taken_eq_of_lt (htaken.trans_lt hltl)
        omega
      have hs : y.s = x.s := by
        rw [hys, hgrace, ← h.grace]
      refine ⟨y, hy, hyl, hs, fun b hb => ?_⟩
      obtain ⟨a, ha⟩ := hlast hltl
      rw [hyl, List.head?_drop] at hb
      rw [hyp a hn ha, hs, note_iff h.comment h.string h.ascii85]
      rintro ⟨hprev, rfl⟩
      split_ifs at hprev with hmod
      · cases hprev
      · exact hapart ⟨by rw [ha, hprev], hb, hmod⟩

/-! ## Which tokens are whole -/

theorem taken_natCast (g len : ℕ) : taken (g : ℤ) len = min g len := by
  unfold taken
  rw [if_neg (by omega), Int.toNat_natCast]

theorem taken_of_neg {g : ℤ} (h : g < 0) (len : ℕ) : taken g len = len := if_pos h

/-- The tokens of a kind whose length is found wrong: numbers of fixed point, long strings with the
low-order byte first, and arrays of numbers.  Nothing of the input is taken wrong if it ends early
enough. -/
def Unharmed (c : Byte) (l : List Byte) (n : ℕ) : Prop :=
  (c = 137 → l.length ≤ if n = 5 then 2 else 3) ∧
  (c = 144 → 2 ≤ l.length → l.length ≤ n - 2) ∧
  (c = 149 → 3 ≤ l.length → l.length ≤ n - 3)

theorem unharmed_of_ne {c : Byte} (h : c ≠ 137 ∧ c ≠ 144 ∧ c ≠ 149) (l : List Byte) (n : ℕ) :
    Unharmed c l n :=
  ⟨fun hc => absurd hc h.1, fun hc => absurd hc h.2.1, fun hc => absurd hc h.2.2⟩

/-- Fixed-point numbers: 2 is taken for 5, and 5 for 3. -/
theorem taken_fixed {l : List Byte} {n : ℕ} (h : tokenLength 137 l = some n) :
    taken (tokenGrace 137 l) l.length = min n l.length ↔ Unharmed 137 l n := by
  have hgrace : tokenGrace 137 l =
      if peek l 0 ≤ 31 ∨ (128 ≤ peek l 0 ∧ peek l 0 ≤ 159) then 2 else 5 := rfl
  have hunharmed : Unharmed 137 l n ↔ l.length ≤ if n = 5 then 2 else 3 := by simp [Unharmed]
  rw [hgrace, hunharmed]
  cases l with
  | nil =>
    cases h
    decide
  | cons r l =>
    have hpeek : peek (r :: l) 0 = r.toNat := rfl
    have hr := r.isLt
    obtain ⟨m, hm, rfl⟩ := Option.map_eq_some_iff.1 h
    rw [hpeek]
    unfold fixedSize at hm
    split_ifs at hm with hwide hnarrow <;> cases hm
    · rw [if_pos (by omega), if_pos rfl]
      show taken ((2 : ℕ) : ℤ) _ = _ ↔ _
      rw [taken_natCast]
      omega
    · rw [if_neg (by omega), if_neg (by decide)]
      show taken ((5 : ℕ) : ℤ) _ = _ ↔ _
      rw [taken_natCast]
      omega

/-- Strings with the low-order byte of their length first: the length itself is not counted. -/
theorem taken_lowString {l : List Byte} {n : ℕ} (h : tokenLength 144 l = some n) :
    taken (tokenGrace 144 l) l.length = min n l.length ↔ Unharmed 144 l n := by
  have hgrace : tokenGrace 144 l = peek l 1 * 256 + peek l 0 := rfl
  have hunharmed : Unharmed 144 l n ↔ (2 ≤ l.length → l.length ≤ n - 2) := by simp [Unharmed]
  rw [hgrace, hunharmed]
  match l, h with
  | [], h =>
    cases h
    decide
  | [a], h =>
    have ha := a.isLt
    have hpeek : peek [a] 1 * 256 + peek [a] 0 = -1 * 256 + a.toNat := rfl
    obtain rfl : 2 = n := Option.some.inj h
    rw [hpeek, taken_of_neg (by omega)]
    simp
  | a :: b :: l, h =>
    have hpeek : peek (a :: b :: l) 1 * 256 + peek (a :: b :: l) 0 =
        ((b.toNat * 256 + a.toNat : ℕ) : ℤ) := by
      push_cast
      rfl
    obtain rfl : 2 + (b.toNat * 256 + a.toNat) = n := Option.some.inj h
    rw [hpeek, taken_natCast]
    simp only [List.length_cons]
    omega

theorem numberSize_cases {r : Byte} {size : ℕ} (h : numberSize r = some size) :
    size = 2 ∨ size = 4 := by
  unfold numberSize fixedSize at h
  split_ifs at h <;> simp_all

theorem arrayGrace_eq {r : Byte} {size : ℕ} (h : numberSize r = some size) (c3 c4 : ℤ) :
    arrayGrace r.toNat c3 c4 =
      (if r.toNat < 128 then c3 * 256 + c4 else c4 * 256 + c3) * size := by
  have hr := r.isLt
  unfold numberSize fixedSize at h
  unfold arrayGrace
  split_ifs at h with hreal hwide hnarrow <;> cases h
  · by_cases hhigh : r.toNat < 128
    · rw [if_pos (by omega), if_pos hhigh]
      rfl
    · rw [if_neg (by omega), if_neg (by omega), if_neg (by omega), if_pos (by omega), if_neg hhigh]
      rfl
  · by_cases hhigh : r.toNat < 128
    · rw [if_pos (by omega), if_pos hhigh]
      rfl
    · rw [if_neg (by omega), if_neg (by omega), if_neg (by omega), if_pos (by omega), if_neg hhigh]
      rfl
  · by_cases hhigh : r.toNat < 128
    · rw [if_neg (by omega), if_pos (by omega), if_pos hhigh]
      rfl
    · rw [if_neg (by omega), if_neg (by omega), if_neg (by omega), if_neg (by omega),
        if_pos (by omega), if_neg hhigh]
      rfl

/-- Arrays: the representation and the length are not counted. -/
theorem taken_array {l : List Byte} {n : ℕ} (h : tokenLength 149 l = some n) :
    taken (tokenGrace 149 l) l.length = min n l.length ↔ Unharmed 149 l n := by
  have hgrace : tokenGrace 149 l = arrayGrace (peek l 0) (peek l 1) (peek l 2) := rfl
  have hunharmed : Unharmed 149 l n ↔ (3 ≤ l.length → l.length ≤ n - 3) := by simp [Unharmed]
  rw [hgrace, hunharmed]
  match l, h with
  | [], h =>
    cases h
    decide
  | [r], h =>
    obtain ⟨size, hsize, rfl⟩ := Option.map_eq_some_iff.1 h
    have hpeek : arrayGrace (peek [r] 0) (peek [r] 1) (peek [r] 2) = arrayGrace r.toNat (-1) (-1) := rfl
    have hcases := numberSize_cases hsize
    rw [hpeek, arrayGrace_eq hsize, taken_of_neg]
    · simp
    · rw [ite_self]
      omega
  | [r, a], h =>
    obtain ⟨size, hsize, rfl⟩ := Option.map_eq_some_iff.1 h
    have hpeek : arrayGrace (peek [r, a] 0) (peek [r, a] 1) (peek [r, a] 2) =
        arrayGrace r.toNat a.toNat (-1) := rfl
    have ha := a.isLt
    rw [hpeek, arrayGrace_eq hsize]
    refine iff_of_true ?_ (by simp)
    -- With a byte of the length missing, it is negative or more than what is left.
    unfold taken
    simp only [List.length_cons, List.length_nil]
    rcases numberSize_cases hsize with rfl | rfl
    all_goals
      split_ifs <;> omega
  | r :: a :: b :: l, h =>
    obtain ⟨size, hsize, rfl⟩ := Option.map_eq_some_iff.1 h
    have hpeek : arrayGrace (peek (r :: a :: b :: l) 0) (peek (r :: a :: b :: l) 1)
        (peek (r :: a :: b :: l) 2) = arrayGrace r.toNat a.toNat b.toNat := rfl
    have hlength : (if r.toNat < 128 then (a.toNat : ℤ) * 256 + b.toNat else b.toNat * 256 + a.toNat) *
        size = ((length16 (r.toNat < 128) a b * size : ℕ) : ℤ) := by
      unfold length16
      push_cast
      simp only [decide_eq_true_eq]
    rw [hpeek, arrayGrace_eq hsize, hlength, taken_natCast]
    simp only [List.length_cons]
    omega

theorem taken_iff {c : Byte} {l : List Byte} {n : ℕ} (h : tokenLength c l = some n) :
    taken (tokenGrace c l) l.length = min n l.length ↔ Unharmed c l n := by
  by_cases h137 : c = 137
  · subst h137
    exact taken_fixed h
  by_cases h144 : c = 144
  · subst h144
    exact taken_lowString h
  by_cases h149 : c = 149
  · subst h149
    exact taken_array h
  refine iff_of_true ?_ (unharmed_of_ne ⟨h137, h144, h149⟩ l n)
  unfold tokenLength at h
  unfold tokenGrace
  dsimp only
  split_ifs at h with h4 h2 h1 h142 h143
  · rw [if_pos h4, ← Option.some.inj h]
    exact taken_natCast 4 _
  · rw [if_neg h4, if_pos h2, ← Option.some.inj h]
    exact taken_natCast 2 _
  · rw [if_neg h4, if_neg h2, if_pos h1, ← Option.some.inj h]
    exact taken_natCast 1 _
  · rw [if_neg h4, if_neg h2, if_neg h1, if_neg h137, if_pos h142]
    cases l with
    | nil => cases h; decide
    | cons b l =>
      obtain rfl := Option.some.inj h
      have hpeek : peek (b :: l) 0 + 1 = ((1 + b.toNat : ℕ) : ℤ) := by
        push_cast
        exact add_comm _ _
      rw [hpeek, taken_natCast]
  · rw [if_neg h4, if_neg h2, if_neg h1, if_neg h137, if_neg h142, if_pos h143]
    match l, h with
    | [], h => cases h; decide
    | [a], h =>
      obtain rfl : 2 = n := Option.some.inj h
      have hpeek : peek [a] 0 * 256 + peek [a] 1 + 2 = ((a.toNat * 256 + 1 : ℕ) : ℤ) := by
        show (a.toNat : ℤ) * 256 + -1 + 2 = _
        push_cast
        ring
      rw [hpeek, taken_natCast]
      simp
    | a :: b :: l, h =>
      obtain rfl := Option.some.inj h
      have hpeek : peek (a :: b :: l) 0 * 256 + peek (a :: b :: l) 1 + 2 =
          ((2 + length16 true a b : ℕ) : ℤ) := by
        show (a.toNat : ℤ) * 256 + b.toNat + 2 = ((2 + (a.toNat * 256 + b.toNat) : ℕ) : ℤ)
        push_cast
        ring
      rw [hpeek, taken_natCast]

/-! ## Every token of the input -/

/-- What `in_reset_buffering()` sets. -/
def reset : ScanState :=
  { bintokenGrace := 0, stringLevel := 0, inAscii85 := false, inComment := false }

/-- The rounds of the calls that read an input from its start. -/
inductive Reached (type : InType) (input : List Byte) : Loop → Prop
  | start : Reached type input (entry input reset)
  | next {x y : Loop} : Reached type input x → x.succ type = some y → Reached type input y

theorem Reached.room {input : List Byte} (h : Reached type input x) : x.Room := by
  cases h with
  | start => exact Nat.zero_lt_succ _
  | next _ hy => exact room_succ hy

/-- The tokens of an input are whole, wherever one begins. -/
def TokensWhole (type : InType) (input : List Byte) : Prop :=
  ∀ x c l n, Reached type input x → x.Starts c l n → Whole type x l n

end Loop

end Ppr
