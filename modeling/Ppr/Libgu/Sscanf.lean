import Ppr.Lib.Ascii

/-!
# Lines and what is scanned from them

`gu_getline()` of `getline.c` and `gu_sscanf()` of `gu_sscanf.c`, with the conversions that the queue
file needs.  `gu_sscanf()` here returns the list of what it extracts; the number of them is the return
value of the source, and the caller stores them.  Numbers are returned as they stand in the text: the
wrapping of the accumulator is that of the variable in which the caller stores them.  A `%f` is exact.
-/

namespace Ppr

/-- A line without the space at its end. -/
def chop (l : List Byte) : List Byte := l.rdropWhile isspace

/-- The lines of a stream, each with its newline. -/
def rawLines : List Byte → List (List Byte)
  | [] => []
  | c :: s =>
    if c = newline then [c] :: rawLines s
    else
      match rawLines s with
      | [] => [[c]]
      | l :: ls => (c :: l) :: ls

/-- `gu_getline()`: the next line of those that the stream has, and the others. -/
def guGetline : List (List Byte) → Option (List Byte × List (List Byte))
  | [] => none
  | l :: ls => some (chop l, ls)

/-! ## Formats -/

/-- A part of a format. -/
inductive Directive where
  /-- A conversion, by its type character. -/
  | conv (c : Char)
  | space
  | lit (b : Byte)
  deriving DecidableEq

/-- The parts of a format.  The `l` and `h` say only what the argument points to. -/
def formatParts : List Char → List Directive
  | '%' :: 'l' :: c :: s => .conv c :: formatParts s
  | '%' :: 'h' :: c :: s => .conv c :: formatParts s
  | '%' :: c :: s => .conv c :: formatParts s
  | c :: s =>
    let b := BitVec.ofNat 8 c.toNat
    (if isspace b then .space else .lit b) :: formatParts s
  | [] => []

def scanFormat (s : String) : List Directive := formatParts s.toList

/-! ## Conversions -/

/-- What one conversion extracts. -/
inductive Extracted where
  | num (n : ℤ)
  | real (x : ℚ)
  | str (s : List Byte)
  deriving DecidableEq

/-- What is stored in a variable of `w` bits. -/
def Extracted.number (w : ℕ) : Extracted → BitVec w
  | .num n => BitVec.ofInt w n
  | _ => 0

def Extracted.string : Extracted → List Byte
  | .str s => s
  | _ => []

def Extracted.float : Extracted → ℚ
  | .real x => x
  | _ => 0

/-- The end of a `%S` and of a bare `%W`. -/
def isblank (c : Byte) : Bool := c = 32 || c = 9 || c = newline

/-- A quoted string of `%W` and `%A`, after the opening quote `q`. -/
def scanQuoted (q : Byte) (s : List Byte) : List Byte × List Byte :=
  let rest := s.dropWhile (· ≠ q)
  -- The closing quote may be of either kind.
  (s.takeWhile (· ≠ q), if rest.head? = some 34 ∨ rest.head? = some 39 then rest.tail else rest)

/-- The minus sign of `%d` and `%f`. -/
def scanSign (s : List Byte) : ℤ × List Byte := if s.head? = some 45 then (-1, s.tail) else (1, s)

/-- The digits after the point of a `%f`. -/
def scanFraction (s : List Byte) : ℚ × List Byte :=
  if s.head? = some 46 then
    let ds := s.tail.takeWhile isdigit
    (digitsValue ds / 10 ^ ds.length, s.tail.dropWhile isdigit)
  else (0, s)

/-- One conversion, where there is something left of the string. -/
def convert (c : Char) (s : List Byte) : Option (Extracted × List Byte) :=
  match c with
  | 'd' =>
    let (sign, s) := scanSign s
    if s.takeWhile isdigit = [] then none
    else some (.num (sign * digitsValue (s.takeWhile isdigit)), s.dropWhile isdigit)
  | 'u' =>
    if s.takeWhile isdigit = [] then none
    else some (.num (digitsValue (s.takeWhile isdigit)), s.dropWhile isdigit)
  | 'x' => some (.num (hexValue (s.takeWhile isxdigit)), s.dropWhile isxdigit)
  | 'f' =>
    let (sign, s) := scanSign s
    if s.takeWhile isdigit = [] then none
    else
      let (fraction, rest) := scanFraction (s.dropWhile isdigit)
      some (.real (sign * (digitsValue (s.takeWhile isdigit) + fraction)), rest)
  | 'S' => some (.str (s.takeWhile (!isblank ·)), s.dropWhile (!isblank ·))
  | 'W' =>
    if s.head? = some 34 then some ((scanQuoted 34 s.tail).map .str id)
    else if s.head? = some 39 then some ((scanQuoted 39 s.tail).map .str id)
    else some (.str (s.takeWhile (!isblank ·)), s.dropWhile (!isblank ·))
  | 'T' => some (.str (s.takeWhile (· ≠ newline)), s.dropWhile (· ≠ newline))
  | 'A' =>
    if s.head? = some 34 then some ((scanQuoted 34 s.tail).map .str id)
    else if s.head? = some 39 then some ((scanQuoted 39 s.tail).map .str id)
    else some (.str (chop s), s.drop (chop s).length)
  | 'U' => some (.num (digitsValue (s.takeWhile isdigit)), s.dropWhile isdigit)
  | _ => none

/-- `gu_sscanf()`. -/
def guSscanf : List Directive → List Byte → List Extracted
  | [], _ => []
  | _ :: _, [] => []
  | .conv c :: p, b :: s =>
    match convert c (b :: s) with
    | none => []
    | some (v, rest) => v :: guSscanf p rest
  | .space :: p, b :: s => guSscanf p ((b :: s).dropWhile isspace)
  | .lit a :: p, b :: s => if a = b then guSscanf p s else []

example : guSscanf (scanFormat "%d %T") (ascii "12  a b") = [.num 12, .str (ascii "a b")] := by decide

/-! ## Lines -/

theorem chop_append_of_ne {l c : List Byte} (h : chop c ≠ []) : chop (l ++ c) = l ++ chop c := by
  rw [chop, List.rdropWhile, Ne, List.reverse_eq_nil_iff] at h
  rw [chop, chop, List.rdropWhile, List.rdropWhile, List.reverse_append, List.dropWhile_append,
    if_neg (by simpa using h), List.reverse_append, List.reverse_reverse]

theorem chop_append_of_eq {l c : List Byte} (h : chop c = []) : chop (l ++ c) = chop l := by
  rw [chop, List.rdropWhile, List.reverse_eq_nil_iff] at h
  rw [chop, chop, List.rdropWhile, List.rdropWhile, List.reverse_append, List.dropWhile_append,
    if_pos (by simp [h])]

theorem chop_concat_newline (l : List Byte) : chop (l ++ [newline]) = chop l :=
  chop_append_of_eq (by decide)

theorem chop_isPrefix (l : List Byte) : chop l <+: l := List.rdropWhile_prefix _ _

theorem mem_of_mem_chop {l : List Byte} {b : Byte} (h : b ∈ chop l) : b ∈ l :=
  (chop_isPrefix l).subset h

/-- A line has no space at its end. -/
theorem chop_eq_self_iff {l : List Byte} : chop l = l ↔ ∀ b ∈ l.getLast?, isspace b = false := by
  rw [chop, List.rdropWhile_eq_self_iff]
  constructor
  · intro h b hb
    obtain ⟨hne, rfl⟩ := List.mem_getLast?_eq_getLast hb
    simpa using h hne
  · intro h hne
    simpa using h _ (List.getLast?_eq_some_getLast hne)

theorem chop_append_of_eq_self {l c : List Byte} (hc : chop c = c) (hne : c ≠ []) :
    chop (l ++ c) = l ++ c := by
  rw [chop_append_of_ne (by rwa [hc]), hc]

theorem rawLines_append {l : List Byte} (h : newline ∉ l) (s : List Byte) :
    rawLines (l ++ newline :: s) = (l ++ [newline]) :: rawLines s := by
  induction l with
  | nil => rw [List.nil_append, rawLines, if_pos rfl, List.nil_append]
  | cons b l ih =>
    rw [List.mem_cons, not_or] at h
    rw [List.cons_append, rawLines, if_neg fun e => h.1 e.symm, ih h.2, List.cons_append]

theorem rawLines_flatMap {ls : List (List Byte)} (h : ∀ l ∈ ls, newline ∉ l) (rest : List Byte) :
    rawLines (ls.flatMap (· ++ [newline]) ++ rest) = ls.map (· ++ [newline]) ++ rawLines rest := by
  induction ls with
  | nil => rfl
  | cons l ls ih =>
    rw [List.flatMap_cons, List.append_assoc, List.append_assoc, List.singleton_append,
      rawLines_append (h l (List.mem_cons_self ..)), ih fun l' hl => h l' (List.mem_cons_of_mem _ hl)]
    rfl

theorem flatten_rawLines (s : List Byte) : (rawLines s).flatten = s := by
  induction s with
  | nil => rfl
  | cons b s ih =>
    rw [rawLines]
    split_ifs with hb
    · rw [List.flatten_cons, ih, List.singleton_append]
    · split <;> rename_i hs <;> rw [hs] at ih <;> simp [← ih]

theorem newline_notMem_chop {s l : List Byte} (h : l ∈ rawLines s) : newline ∉ chop l := by
  -- The only newline of a line is at its end.
  have hinit : newline ∉ l.dropLast := by
    induction s generalizing l with
    | nil => cases h
    | cons b s ih =>
      rw [rawLines] at h
      split_ifs at h with hb
      · rcases List.mem_cons.1 h with rfl | h
        · exact List.not_mem_nil
        · exact ih h
      · split at h
        · rw [List.mem_singleton.1 h]
          exact List.not_mem_nil
        · rename_i l' ls hs
          rcases List.mem_cons.1 h with rfl | h
          · have hl' := ih (hs ▸ List.mem_cons_self ..)
            cases l' with
            | nil => exact List.not_mem_nil
            | cons c l' =>
              rw [List.dropLast_cons_of_ne_nil (List.cons_ne_nil _ _), List.mem_cons, not_or]
              exact ⟨fun e => hb e.symm, hl'⟩
          · exact ih (hs ▸ List.mem_cons_of_mem _ h)
  intro hmem
  rcases List.eq_nil_or_concat l with rfl | ⟨init, b, rfl⟩
  · exact absurd hmem List.not_mem_nil
  · rw [List.concat_eq_append] at hmem hinit
    rw [List.dropLast_concat] at hinit
    by_cases hb : b = newline
    · rw [hb, chop_concat_newline] at hmem
      exact hinit (mem_of_mem_chop hmem)
    · rcases List.mem_append.1 (mem_of_mem_chop hmem) with h | h
      · exact hinit h
      · exact hb (List.mem_singleton.1 h).symm

/-! ## What is extracted -/

/-- A part of a string up to where `p` ends. -/
theorem span_append (p : Byte → Bool) {w : List Byte} (rest : List Byte)
    (hw : ∀ b ∈ w, p b = true) (hr : ∀ b ∈ rest.head?, p b = false) :
    (w ++ rest).takeWhile p = w ∧ (w ++ rest).dropWhile p = rest := by
  rw [List.takeWhile_append_of_pos hw, List.dropWhile_append_of_pos hw]
  cases rest with
  | nil => simp
  | cons b rest =>
    have hb := hr b rfl
    rw [List.takeWhile_cons_of_neg (by simp [hb]), List.dropWhile_cons_of_neg (by simp [hb]),
      List.append_nil]
    exact ⟨rfl, rfl⟩

theorem dropWhile_head {p : Byte → Bool} (l : List Byte) : ∀ b ∈ (l.dropWhile p).head?, p b = false := by
  intro b hb
  have := List.head?_dropWhile_not p l
  rw [hb] at this
  simpa using this

theorem mem_takeWhile {p : Byte → Bool} {l : List Byte} {b : Byte} (h : b ∈ l.takeWhile p) :
    b ∈ l ∧ p b = true :=
  ⟨(List.takeWhile_prefix p).subset h, List.mem_takeWhile_imp h⟩

theorem scanQuoted_mem {q b : Byte} {s : List Byte} :
    (b ∈ (scanQuoted q s).1 → b ∈ s ∧ b ≠ q) ∧ (b ∈ (scanQuoted q s).2 → b ∈ s) := by
  refine ⟨fun h => ?_, fun h => ?_⟩
  · obtain ⟨hs, hq⟩ := mem_takeWhile h
    exact ⟨hs, by simpa using hq⟩
  · have hrest : b ∈ s.dropWhile (· ≠ q) := by
      rw [scanQuoted] at h
      dsimp only at h
      split_ifs at h
      · exact List.mem_of_mem_tail h
      · exact h
    exact (List.dropWhile_suffix _).subset hrest

theorem convert_mem {c : Char} {s rest : List Byte} {v : Extracted}
    (h : convert c s = some (v, rest)) :
    (∀ b ∈ v.string, b ∈ s) ∧ ∀ b ∈ rest, b ∈ s := by
  have take : ∀ {p : Byte → Bool} {l : List Byte}, ∀ b ∈ l.takeWhile p, b ∈ l :=
    fun b hb => (mem_takeWhile hb).1
  have dropped : ∀ {p : Byte → Bool} {l : List Byte}, ∀ b ∈ l.dropWhile p, b ∈ l :=
    fun b hb => (List.dropWhile_suffix _).subset hb
  have sign : ∀ b ∈ (scanSign s).2, b ∈ s := by
    intro b hb
    unfold scanSign at hb
    split_ifs at hb
    · exact List.mem_of_mem_tail hb
    · exact hb
  have fraction : ∀ {l : List Byte}, ∀ b ∈ (scanFraction l).2, b ∈ l := by
    intro l b hb
    unfold scanFraction at hb
    split_ifs at hb
    · exact List.mem_of_mem_tail (dropped b hb)
    · exact hb
  have none : ∀ b ∈ ([] : List Byte), b ∈ s := fun b hb => absurd hb List.not_mem_nil
  have quoted : ∀ q, (∀ b ∈ (scanQuoted q s.tail).1, b ∈ s) ∧ ∀ b ∈ (scanQuoted q s.tail).2, b ∈ s :=
    fun q => ⟨fun b hb => List.mem_of_mem_tail (scanQuoted_mem.1 hb).1,
      fun b hb => List.mem_of_mem_tail (scanQuoted_mem.2 hb)⟩
  unfold convert at h
  split at h
  · dsimp only at h
    split_ifs at h
    cases h
    exact ⟨none, fun b hb => sign b (dropped b hb)⟩
  · split_ifs at h
    cases h
    exact ⟨none, dropped⟩
  · cases h
    exact ⟨none, dropped⟩
  · dsimp only at h
    split_ifs at h
    cases h
    exact ⟨none, fun b hb => sign b (dropped b (fraction b hb))⟩
  · cases h
    exact ⟨take, dropped⟩
  · split_ifs at h
    · cases h
      exact quoted 34
    · cases h
      exact quoted 39
    · cases h
      exact ⟨take, dropped⟩
  · cases h
    exact ⟨take, dropped⟩
  · split_ifs at h
    · cases h
      exact quoted 34
    · cases h
      exact quoted 39
    · cases h
      exact ⟨fun b hb => mem_of_mem_chop hb, fun b hb => List.mem_of_mem_drop hb⟩
  · cases h
    exact ⟨none, dropped⟩
  · cases h

theorem guSscanf_conv {s : List Byte} (hs : s ≠ []) (c : Char) (p : List Directive) :
    guSscanf (.conv c :: p) s =
      match convert c s with
      | none => []
      | some (v, rest) => v :: guSscanf p rest := by
  obtain ⟨b, s, rfl⟩ := List.exists_cons_of_ne_nil hs
  rw [guSscanf]

theorem guSscanf_space (p : List Directive) (s : List Byte) :
    guSscanf (.space :: p) s = guSscanf p (s.dropWhile isspace) := by
  cases s with
  | nil => cases p <;> simp [guSscanf]
  | cons b s => rw [guSscanf]

theorem guSscanf_nil (p : List Directive) : guSscanf p [] = [] := by cases p <;> rfl

/-- The literal part of a format. -/
theorem guSscanf_lits (key : List Byte) (p : List Directive) (s : List Byte) :
    guSscanf (key.map .lit ++ p) s = if key <+: s then guSscanf p (s.drop key.length) else [] := by
  induction key generalizing s with
  | nil => simp
  | cons a key ih =>
    cases s with
    | nil => simp [guSscanf]
    | cons b s =>
      rw [List.map_cons, List.cons_append, guSscanf, ih]
      by_cases hab : a = b <;> simp [hab, List.cons_prefix_cons]

/-- Strings that are extracted have no bytes but those of the input. -/
theorem mem_of_mem_guSscanf {p : List Directive} {s : List Byte} {v : Extracted}
    (hv : v ∈ guSscanf p s) : ∀ b ∈ v.string, b ∈ s := by
  fun_induction guSscanf p s with
  | case1 => cases hv
  | case2 => cases hv
  | case3 => cases hv
  | case4 c p b s v' rest hc ih =>
    obtain ⟨hstr, hrest⟩ := convert_mem hc
    rcases List.mem_cons.1 hv with rfl | hv
    · exact hstr
    · exact fun b hb => hrest b (ih hv b hb)
  | case5 p b s ih => exact fun a ha => (List.dropWhile_suffix _).subset (ih hv a ha)
  | case6 p b s ih => exact fun a ha => List.mem_cons_of_mem b (ih hv a ha)
  | case7 => cases hv

/-! ## What is printed and read back -/

/-- What is printed with spaces between. -/
def spaced (l : List (List Byte)) : List Byte := List.intercalate [32] l

theorem spaced_cons_cons (a b : List Byte) (l : List (List Byte)) :
    spaced (a :: b :: l) = a ++ 32 :: spaced (b :: l) := by
  simp [spaced, List.intercalate]

theorem spaced_singleton (a : List Byte) : spaced [a] = a := by simp [spaced, List.intercalate]

/-- The conversion `c` reads `t`, if a space or nothing comes next. -/
structure Scans (c : Char) (t : List Byte) (v : Extracted) : Prop where
  ne : t ≠ []
  head : ∀ b ∈ t.head?, isspace b = false
  conv : ∀ rest : List Byte, (∀ b ∈ rest.head?, b = 32) → convert c (t ++ rest) = some (v, rest)

section Scans

variable {c : Char} {t : List Byte} {v : Extracted}

theorem Scans.guSscanf_cons (h : Scans c t v) (p : List Directive) (s : List Byte) :
    guSscanf (.conv c :: .space :: p) (t ++ 32 :: s) = v :: guSscanf p (s.dropWhile isspace) := by
  have hne : t ++ 32 :: s ≠ [] := by simp
  rw [guSscanf_conv hne, h.conv (32 :: s) (by simp)]
  dsimp only
  rw [guSscanf_space, List.dropWhile_cons_of_pos (by decide)]

theorem Scans.guSscanf_last (h : Scans c t v) : guSscanf [.conv c] t = [v] := by
  have hconv := h.conv [] (by simp)
  rw [List.append_nil] at hconv
  rw [guSscanf_conv h.ne, hconv]
  rfl

theorem Scans.dropWhile (h : Scans c t v) (s : List Byte) :
    (t ++ s).dropWhile isspace = t ++ s := by
  obtain ⟨b, t', rfl⟩ := List.exists_cons_of_ne_nil h.ne
  rw [List.cons_append, List.dropWhile_cons_of_neg (by simp [h.head b rfl])]

/-- A number. -/
theorem Scans.of_digits {p : Byte → Bool} (hp : p 32 = false)
    (hspace : ∀ b, p b = true → isspace b = false) (hne : t ≠ []) (ht : ∀ b ∈ t, p b = true)
    (hconv : ∀ s : List Byte, s.takeWhile p = t → convert c s = some (v, s.dropWhile p)) :
    Scans c t v where
  ne := hne
  head b hb := hspace b (ht b (List.mem_of_mem_head? hb))
  conv rest hrest := by
    have hspan := span_append p rest ht fun b hb => by rw [hrest b hb, hp]
    rw [hconv _ hspan.1, hspan.2]

theorem scans_u (n : ℕ) : Scans 'u' (decimal n) (.num n) := by
  refine Scans.of_digits (by decide) not_isspace_of_isdigit (decimal_ne_nil n)
    (fun b hb => isdigit_decimal hb) fun s hs => ?_
  simp only [convert]
  rw [hs, if_neg (decimal_ne_nil n), digitsValue_decimal]

theorem scans_U (n : ℕ) : Scans 'U' (decimal n) (.num n) := by
  refine Scans.of_digits (by decide) not_isspace_of_isdigit (decimal_ne_nil n)
    (fun b hb => isdigit_decimal hb) fun s hs => ?_
  simp only [convert]
  rw [hs, digitsValue_decimal]

theorem not_isspace_of_isxdigit : ∀ c : Byte, isxdigit c = true → isspace c = false := by
  decide +kernel

theorem scans_x {w : ℕ} (hw : 0 < w) (n : ℕ) : Scans 'x' (upperHex w n) (.num n) := by
  have hne : upperHex w n ≠ [] := by
    have := length_upperHex w n
    exact List.ne_nil_of_length_pos (by omega)
  refine Scans.of_digits (by decide) not_isspace_of_isxdigit hne (fun b hb => isxdigit_upperHex hb)
    fun s hs => ?_
  simp only [convert]
  rw [hs, hexValue_upperHex]

/-- The sign of a number that is printed. -/
theorem scanSign_print {i : Bool} {n : ℕ} (rest : List Byte) :
    scanSign ((if i then [45] else []) ++ decimal n ++ rest) =
      (if i then -1 else 1, decimal n ++ rest) := by
  obtain ⟨b, d, hd⟩ := List.exists_cons_of_ne_nil (decimal_ne_nil n)
  have hb : isdigit b = true := isdigit_decimal (hd ▸ List.mem_cons_self ..)
  have hne : ¬b = 45#8 := by
    rintro rfl
    cases hb
  cases i <;> simp [scanSign, hd, hne]

theorem scans_d (i : ℤ) : Scans 'd' (decimalInt i) (.num i) := by
  have hval : (if decide (i < 0) = true then (-1 : ℤ) else 1) * (i.natAbs : ℤ) = i := by
    split_ifs with h <;> simp at h <;> omega
  have hsplit : ∀ rest, decimalInt i ++ rest =
      (if decide (i < 0) = true then [45] else []) ++ decimal i.natAbs ++ rest := by
    intro rest
    simp [decimalInt]
  refine ⟨by simp [decimalInt, decimal_ne_nil], ?_, fun rest hrest => ?_⟩
  · intro b hb
    by_cases h : i < 0
    · rw [decimalInt, if_pos h] at hb
      cases hb
      decide
    · rw [decimalInt, if_neg h, List.nil_append] at hb
      exact not_isspace_of_isdigit b (isdigit_decimal (List.mem_of_mem_head? hb))
  · have hdigits : ∀ b ∈ decimal i.natAbs, isdigit b = true := fun b hb => isdigit_decimal hb
    have hspan := span_append isdigit rest hdigits fun b hb => by
      rw [hrest b hb]
      decide
    simp only [convert]
    rw [hsplit, scanSign_print]
    dsimp only
    rw [hspan.1, hspan.2, if_neg (decimal_ne_nil _), digitsValue_decimal, hval]

/-- A word. -/
theorem scans_S {w : List Byte} (hne : w ≠ []) (hhead : ∀ b ∈ w.head?, isspace b = false)
    (hw : ∀ b ∈ w, isblank b = false) : Scans 'S' w (.str w) where
  ne := hne
  head := hhead
  conv rest hrest := by
    have hbytes : ∀ b ∈ w, (!isblank b) = true := fun b hb => by simp [hw b hb]
    have hspan := span_append (!isblank ·) rest hbytes fun b hb => by
      rw [hrest b hb]
      decide
    simp only [convert]
    rw [hspan.1, hspan.2]

end Scans

/-- A format of conversions with spaces between. -/
def directives : List Char → List Directive
  | [] => []
  | [c] => [.conv c]
  | c :: cs => .conv c :: .space :: directives cs

/-- Fields that are printed with spaces between are read one by one. -/
theorem guSscanf_spaced (fs : List (Char × List Byte × Extracted))
    (h : ∀ f ∈ fs, Scans f.1 f.2.1 f.2.2) :
    guSscanf (directives (fs.map (·.1))) (spaced (fs.map (·.2.1))) = fs.map (·.2.2) := by
  induction fs with
  | nil => rfl
  | cons f fs ih =>
    have hf := h f (List.mem_cons_self ..)
    have hfs : ∀ g ∈ fs, Scans g.1 g.2.1 g.2.2 := fun g hg => h g (List.mem_cons_of_mem f hg)
    cases fs with
    | nil =>
      simp only [List.map_cons, List.map_nil, directives]
      rw [spaced_singleton, hf.guSscanf_last]
    | cons g fs =>
      have hg := hfs g (List.mem_cons_self ..)
      have hdrop : (spaced (g.2.1 :: fs.map (·.2.1))).dropWhile isspace =
          spaced (g.2.1 :: fs.map (·.2.1)) := by
        cases fs with
        | nil =>
          have := hg.dropWhile []
          rw [List.append_nil] at this
          rwa [List.map_nil, spaced_singleton]
        | cons k fs => rw [List.map_cons, spaced_cons_cons, hg.dropWhile]
      simp only [List.map_cons, directives] at ih ⊢
      rw [spaced_cons_cons, hf.guSscanf_cons, hdrop, ih hfs]

end Ppr
