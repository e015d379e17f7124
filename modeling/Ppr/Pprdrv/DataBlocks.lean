import Ppr.Pprdrv.Text

/-!
# ppr and pprdrv on enclosed data

What ppr has copied without looking at it between "%%BeginData:" and the line it goes on with is what
pprdrv sends without looking at it, if and only if the data fits (`DataFits`).
-/

namespace Ppr

/-! ## Pieces of a file -/

/-- What is left of a file after `n` pieces of it: a piece ends with a linefeed or after 1024 bytes.
The piece that is being read has `k` bytes so far. -/
def afterPieces : List Byte → ℕ → ℕ → List Byte
  | [], _, _ => []
  | c :: l, 0, _ => c :: l
  | c :: l, n + 1, k =>
    if c = newline ∨ k + 1 = maxLine then afterPieces l n 0 else afterPieces l (n + 1) (k + 1)

/-- The number of pieces of a text. -/
def pieces : List Byte → ℕ → ℕ
  | [], k => if k = 0 then 0 else 1
  | c :: l, k => if c = newline ∨ k + 1 = maxLine then pieces l 0 + 1 else pieces l (k + 1)

theorem afterPieces_zero (l : List Byte) (k : ℕ) : afterPieces l 0 k = l := by
  cases l <;> rfl

theorem length_afterPieces (l : List Byte) (n k : ℕ) : (afterPieces l n k).length ≤ l.length := by
  induction l generalizing n k with
  | nil => exact le_rfl
  | cons c l ih =>
    cases n with
    | zero => exact le_rfl
    | succ n =>
      rw [afterPieces]
      split_ifs
      · exact (ih n 0).trans (Nat.le_succ _)
      · exact (ih (n + 1) (k + 1)).trans (Nat.le_succ _)

theorem length_afterPieces_succ (c : Byte) (l : List Byte) (n k : ℕ) :
    (afterPieces (c :: l) (n + 1) k).length ≤ l.length := by
  rw [afterPieces]
  split_ifs
  · exact length_afterPieces l n 0
  · exact length_afterPieces l (n + 1) (k + 1)

/-- `fgets()` reads one piece. -/
theorem afterPieces_fgets (l : List Byte) (n : ℕ) {k : ℕ} (hk : k < maxLine) :
    afterPieces l (n + 1) k = afterPieces (l.drop (fgets (maxLine - k) l).length) n 0 := by
  induction l generalizing k with
  | nil => simp [afterPieces]
  | cons c l ih =>
    obtain ⟨m, hm⟩ := Nat.exists_eq_succ_of_ne_zero (by omega : maxLine - k ≠ 0)
    rw [hm, afterPieces, Nat.succ_eq_add_one, fgets]
    by_cases hc : c = newline
    · rw [if_pos (.inl hc), if_pos hc]
      rfl
    rw [if_neg hc, List.length_cons, List.drop_succ_cons]
    by_cases hlast : k + 1 = maxLine
    · obtain rfl : m = 0 := by omega
      rw [if_pos (.inr hlast)]
      rfl
    · rw [if_neg (by tauto), ih (by omega), show maxLine - (k + 1) = m by omega]

theorem copyLines_rest (n : ℕ) (file : List Byte) :
    (Pprdrv.copyLines n file).2 = afterPieces file n 0 := by
  induction n generalizing file with
  | zero => exact (afterPieces_zero file 0).symm
  | succ n ih =>
    rw [afterPieces_fgets file n (by decide), Pprdrv.copyLines]
    dsimp only
    split_ifs with hgot
    · cases file with
      | nil => cases n <;> rfl
      | cons c l =>
        have hne : fgets maxLine (c :: l) ≠ [] := by
          show fgets (1023 + 1) (c :: l) ≠ []
          rw [fgets]
          split_ifs <;> exact List.cons_ne_nil _ _
        exact absurd hgot hne
    · exact ih _

theorem pieces_pos {l : List Byte} {k : ℕ} (h : l ≠ [] ∨ k ≠ 0) : 0 < pieces l k := by
  induction l generalizing k with
  | nil =>
    rw [pieces, if_neg (h.resolve_left fun h => h rfl)]
    exact Nat.one_pos
  | cons c l ih =>
    rw [pieces]
    split_ifs
    · exact Nat.succ_pos _
    · exact ih (.inr (Nat.succ_ne_zero k))

/-- The text is complete lines, after `k` bytes of a line. -/
def EndsLine (l : List Byte) (k : ℕ) : Prop := l.getLast? = some newline ∨ (l = [] ∧ k = 0)

/-- Reading `n` pieces takes a text of complete lines exactly if it has `n` pieces, or fewer with
nothing after it. -/
theorem afterPieces_append_iff {l : List Byte} {k : ℕ} (h : EndsLine l k) (n : ℕ)
    (rest : List Byte) :
    afterPieces (l ++ rest) n k = rest ↔ pieces l k = n ∨ (pieces l k < n ∧ rest = []) := by
  induction l generalizing n k with
  | nil =>
    obtain ⟨-, rfl⟩ := h.resolve_left (by simp)
    rw [List.nil_append, pieces, if_pos rfl]
    cases n with
    | zero => simp [afterPieces_zero]
    | succ n =>
      cases rest with
      | nil => simp [afterPieces]
      | cons c rest =>
        refine iff_of_false (fun he => ?_) (by simp)
        have := length_afterPieces_succ c rest n 0
        rw [he, List.length_cons] at this
        omega
  | cons c l ih =>
    have hlast : (c :: l).getLast? = some newline := h.resolve_right (by simp)
    cases n with
    | zero =>
      have hpos := pieces_pos (l := c :: l) (k := k) (.inl (List.cons_ne_nil _ _))
      rw [afterPieces_zero]
      refine iff_of_false (fun he => ?_) (by omega)
      have := congrArg List.length he
      rw [List.length_append, List.length_cons] at this
      omega
    | succ n =>
      rw [List.cons_append, afterPieces, pieces]
      by_cases hc : c = newline ∨ k + 1 = maxLine
      · rw [if_pos hc, if_pos hc]
        have hl : EndsLine l 0 := by
          cases l with
          | nil => exact .inr ⟨rfl, rfl⟩
          | cons d l => exact .inl (by rwa [List.getLast?_cons_cons] at hlast)
        rw [ih hl, Nat.add_right_cancel_iff, Nat.add_lt_add_iff_right]
      · rw [if_neg hc, if_neg hc]
        have hl : EndsLine l (k + 1) := by
          cases l with
          | nil =>
            rw [List.getLast?_singleton, Option.some.injEq] at hlast
            exact absurd (.inl hlast) hc
          | cons d l => exact .inl (by rwa [List.getLast?_cons_cons] at hlast)
        exact ih hl (n + 1)

/-! ## What is sent -/

theorem fgets_append_drop (n : ℕ) (l : List Byte) : fgets n l ++ l.drop (fgets n l).length = l := by
  induction n generalizing l with
  | zero => rfl
  | succ n ih =>
    cases l with
    | nil => rfl
    | cons c l =>
      rw [fgets]
      split_ifs
      · rfl
      · rw [List.length_cons, List.drop_succ_cons, List.cons_append, ih]

/-- The pieces that are read are sent as C strings. -/
theorem copyLines_sent (n : ℕ) (file : List Byte) :
    ∃ gots : List (List Byte), file = gots.flatten ++ (Pprdrv.copyLines n file).2 ∧
      (Pprdrv.copyLines n file).1 = gots.flatMap cstr := by
  induction n generalizing file with
  | zero => exact ⟨[], rfl, rfl⟩
  | succ n ih =>
    rw [Pprdrv.copyLines]
    dsimp only
    split_ifs with hgot
    · exact ⟨[], rfl, rfl⟩
    · obtain ⟨gots, hfile, hsent⟩ := ih (file.drop (fgets maxLine file).length)
      refine ⟨fgets maxLine file :: gots, ?_, ?_⟩
      · rw [List.flatten_cons, List.append_assoc, ← hfile]
        exact (fgets_append_drop maxLine file).symm
      · rw [hsent, List.flatMap_cons]

/-- C strings are the pieces themselves exactly if there is no NUL. -/
theorem flatMap_cstr_iff (gots : List (List Byte)) :
    gots.flatMap cstr = gots.flatten ↔ 0 ∉ gots.flatten := by
  have le : ∀ l : List Byte, (cstr l).length ≤ l.length := fun l =>
    (List.takeWhile_prefix _).length_le
  have les : ∀ gots : List (List Byte), (gots.flatMap cstr).length ≤ gots.flatten.length := by
    intro gots
    induction gots with
    | nil => exact le_rfl
    | cons g gots ih =>
      rw [List.flatMap_cons, List.flatten_cons, List.length_append, List.length_append]
      exact Nat.add_le_add (le g) ih
  induction gots with
  | nil => simp
  | cons g gots ih =>
    rw [List.flatMap_cons, List.flatten_cons, List.mem_append, not_or]
    refine Iff.trans ?_ (and_congr cstr_eq_self ih)
    constructor
    · intro h
      have hlen := congrArg List.length h
      rw [List.length_append, List.length_append] at hlen
      have := le g
      have := les gots
      exact List.append_inj h (by omega)
    · rintro ⟨hg, hgots⟩
      rw [hg, hgots]

/-- Lines of data are sent as they are exactly if they have no NUL and `n` pieces, or fewer with
nothing after them. -/
theorem copyLines_eq_iff {data : List Byte} (h : EndsLine data 0) (n : ℕ) (rest : List Byte) :
    Pprdrv.copyLines n (data ++ rest) = (data, rest) ↔
      0 ∉ data ∧ (pieces data 0 = n ∨ (pieces data 0 < n ∧ rest = [])) := by
  obtain ⟨gots, hfile, hsent⟩ := copyLines_sent n (data ++ rest)
  rw [Prod.ext_iff, ← afterPieces_append_iff h, ← copyLines_rest, and_comm (a := 0 ∉ data),
    and_comm (a := (Pprdrv.copyLines n (data ++ rest)).1 = _)]
  refine and_congr_right fun hrest => ?_
  rw [show (data, rest).2 = rest from rfl] at hrest
  rw [hrest] at hfile
  have hdata : data = gots.flatten := List.append_cancel_right hfile
  rw [hsent, hdata]
  exact flatMap_cstr_iff gots

/-! ## Lines of data -/

/-- The lines that `in_getline()` finds in the input, up to the given number; the parts of a line that
overflows are put together. -/
def dataLines (type : InType) (countdown : ℕ) (s : Infile) (part : List Byte) :
    List (List Byte) :=
  if s.logicalEof = true ∨ countdown = 0 then []
  else
    let r := inGetline type s
    if r.1.2 = true then dataLines type countdown r.2 (part ++ r.1.1)
    else (part ++ r.1.1) :: dataLines type (countdown - 1) r.2 []
termination_by countdown + s.input.length
decreasing_by
  · rename_i ho
    have := ((inGetline_cases type s).2 ho).1
    omega
  · rename_i h _
    rw [not_or] at h
    have := (inGetline_cases type s).1
    omega

/-- Complete lines. -/
def textOf (lines : List (List Byte)) : List Byte := lines.flatMap fun l => l ++ [newline]

theorem copyDataLines_eq (type : InType) (countdown : ℕ) (s : Infile) (part : List Byte)
    (h : part = [] ∨ (s.logicalEof = false ∧ countdown ≠ 0)) :
    part ++ (copyDataLines type countdown s).1 = textOf (dataLines type countdown s part) := by
  induction countdown, s, part using dataLines.induct type with
  | case1 countdown s part hend =>
    rw [copyDataLines, if_pos hend, dataLines, if_pos hend]
    rcases h with rfl | ⟨heof, hcount⟩
    · rfl
    · rcases hend with he | he
      · rw [he] at heof
        cases heof
      · exact absurd he hcount
  | case2 countdown s part hend r hover ih =>
    rw [copyDataLines, if_neg hend, dataLines, if_neg hend]
    dsimp only
    rw [if_pos hover, if_pos hover, if_pos hover, List.append_nil, ← List.append_assoc]
    rw [not_or] at hend
    exact ih (.inr ⟨((inGetline_cases type s).2 hover).2, hend.2⟩)
  | case3 countdown s part hend r hover ih =>
    rw [copyDataLines, if_neg hend, dataLines, if_neg hend]
    dsimp only
    rw [if_neg hover, if_neg hover, if_neg hover]
    have ih := ih (.inl rfl)
    rw [List.nil_append] at ih
    rw [ih]
    simp only [textOf, List.flatMap_cons, List.append_assoc]
    rfl

theorem endsLine_append {l rest : List Byte} (h : EndsLine rest 0) : EndsLine (l ++ newline :: rest) 0 := by
  left
  rcases h with h | ⟨rfl, -⟩
  · have hne : rest ≠ [] := by
      rintro rfl
      cases h
    obtain ⟨c, rest, rfl⟩ := List.exists_cons_of_ne_nil hne
    rw [List.getLast?_append_cons, List.getLast?_cons_cons]
    exact h
  · rw [List.getLast?_append_cons]
    rfl

theorem endsLine_textOf (lines : List (List Byte)) : EndsLine (textOf lines) 0 := by
  induction lines with
  | nil => exact .inr ⟨rfl, rfl⟩
  | cons l lines ih =>
    rw [textOf, List.flatMap_cons, List.append_assoc]
    exact endsLine_append ih

theorem pieces_append {l : List Byte} {k : ℕ} (h : EndsLine l k) (rest : List Byte) :
    pieces (l ++ rest) k = pieces l k + pieces rest 0 := by
  induction l generalizing k with
  | nil =>
    obtain ⟨-, rfl⟩ := h.resolve_left (by simp)
    rw [List.nil_append, pieces, if_pos rfl, Nat.zero_add]
  | cons c l ih =>
    have hlast : (c :: l).getLast? = some newline := h.resolve_right (by simp)
    rw [List.cons_append, pieces, pieces]
    by_cases hc : c = newline ∨ k + 1 = maxLine
    · rw [if_pos hc, if_pos hc]
      have hl : EndsLine l 0 := by
        cases l with
        | nil => exact .inr ⟨rfl, rfl⟩
        | cons d l => exact .inl (by rwa [List.getLast?_cons_cons] at hlast)
      rw [ih hl]
      omega
    · rw [if_neg hc, if_neg hc]
      have hl : EndsLine l (k + 1) := by
        cases l with
        | nil =>
          rw [List.getLast?_singleton, Option.some.injEq] at hlast
          exact absurd (.inl hlast) hc
        | cons d l => exact .inl (by rwa [List.getLast?_cons_cons] at hlast)
      exact ih hl

/-- The pieces of a line of data. -/
def linePieces (l : List Byte) : ℕ := pieces (l ++ [newline]) 0

theorem pieces_textOf (lines : List (List Byte)) :
    pieces (textOf lines) 0 = (lines.map linePieces).sum := by
  induction lines with
  | nil => rfl
  | cons l lines ih =>
    have hl : EndsLine (l ++ [newline]) 0 := endsLine_append (.inr ⟨rfl, rfl⟩)
    rw [textOf, List.flatMap_cons, pieces_append hl, List.map_cons, List.sum_cons, ← ih]
    rfl

theorem zero_mem_textOf (lines : List (List Byte)) : 0 ∉ textOf lines ↔ ∀ l ∈ lines, 0 ∉ l := by
  rw [textOf, List.mem_flatMap]
  push Not
  refine forall₂_congr fun l _ => ?_
  rw [List.mem_append, not_or, and_iff_left]
  decide

/-! ## The block -/

/-- A "%%BeginData:" line as `getline_simplify()` hands it to `copy_data()`. -/
structure BeginData where
  line : List Byte
  no_nul : 0 ∉ line
  short : line.length ≤ maxTokenized
  comment : line.head? = some 37
  keyword : (tokenize line).head? = some (ascii "%%BeginData:")

/-- What pprdrv makes of a file that comes to a "%%BeginData:" line: the line, what is sent after it
without being looked at, and what follows. -/
def drvBlock (file : List Byte) : Option (List Byte × List Byte × List Byte) :=
  match Pprdrv.dgetlineRead file with
  | none => none
  | some (line, _, file) =>
    if lmatch (cstr line) "%%BeginData:" then some (line, Pprdrv.copyData (cstr line) file) else none

/-- After ppr has written the line, the data and the rest of the "-text" file, pprdrv takes the same
line and exactly the same data, and sends it unchanged. -/
def BlockAgrees (type : InType) (b : BeginData) (s : Infile) (rest : List Byte) : Prop :=
  let data := (copyData type b.line s).written
  drvBlock (b.line ++ newline :: (data ++ rest)) = some (b.line, data, rest)

/-- Data measured in lines: the lines have no NUL, and in the pieces that `fgets()` reads there are
as many of them as the comment says, or fewer and nothing comes after them. -/
def LinesFit (type : InType) (number : ℕ) (s : Infile) (rest : List Byte) : Prop :=
  let lines := dataLines type number s []
  (∀ l ∈ lines, 0 ∉ l) ∧
    ((lines.map linePieces).sum = number ∨ ((lines.map linePieces).sum < number ∧ rest = []))

/-- Data measured in bytes: after them the input has "%%End" or ends within five bytes, or it ends
before and nothing comes after the data. -/
def BytesFit (number : ℕ) (s : Infile) (rest : List Byte) : Prop :=
  if number ≤ s.input.length then
    (s.input.drop number).length < 5 ∨ ascii "%%End" <+: s.input.drop number
  else rest = []

/-- The data fits: there is no linefeed in the "%%BeginData:" line, and what it says is right, by the
unit.  With a unit that is not known it must say that there is no data, or be the last of the
file. -/
def DataFits (type : InType) (b : BeginData) (s : Infile) (rest : List Byte) : Prop :=
  newline ∉ b.line ∧
    match (tokenize b.line)[1]?, (tokenize b.line)[2]?, (tokenize b.line)[3]? with
    | some count, some _, some unit =>
      let number := (itemCount count).toNat
      if unit = ascii "Lines" then LinesFit type number s rest
      else if unit = ascii "Bytes" then BytesFit number s rest
      else number = 0 ∨ rest = []
    | _, _, _ => True

section Agreement

variable (type : InType) (s : Infile) (rest : List Byte)

theorem lines_agree_iff (number : ℕ) :
    Pprdrv.copyLines number ((copyDataLines type number s).1 ++ rest) =
        ((copyDataLines type number s).1, rest) ↔ LinesFit type number s rest := by
  have hdata : (copyDataLines type number s).1 = textOf (dataLines type number s []) :=
    copyDataLines_eq type number s [] (.inl rfl)
  rw [hdata, copyLines_eq_iff (endsLine_textOf _), pieces_textOf, zero_mem_textOf]
  rfl

theorem take_drop_iff {data : List Byte} (number : ℕ) :
    ((data ++ rest).take number, (data ++ rest).drop number) = (data, rest) ↔
      data.length = number ∨ (data.length < number ∧ rest = []) := by
  rw [Prod.mk.injEq]
  constructor
  · rintro ⟨htake, hdrop⟩
    have hlen := congrArg List.length htake
    rw [List.length_take, List.length_append] at hlen
    rcases Nat.lt_trichotomy data.length number with h | h | h
    · exact .inr ⟨h, List.length_eq_zero_iff.1 (by omega)⟩
    · exact .inl h
    · omega
  · rintro (rfl | ⟨hlt, rfl⟩)
    · exact ⟨List.take_left, List.drop_left⟩
    · rw [List.append_nil]
      exact ⟨List.take_of_length_le hlt.le, List.drop_of_length_le hlt.le⟩

/-- ppr does not find "%%End" after the data and copies more. -/
def Searches (number : ℕ) (s : Infile) : Prop :=
  ((s.input.drop number).take 5).length = 5 ∧ (s.input.drop number).take 5 ≠ ascii "%%End"

theorem length_copyDataBytes_of_searches {number : ℕ} (h : Searches number s) :
    number < (copyDataBytes number s).1.length := by
  obtain ⟨hlen, hend⟩ := h
  have hne : (s.input.drop number).take 5 ≠ [] := by
    intro he
    rw [he] at hlen
    cases hlen
  have hout := List.length_pos_of_ne_nil (searchEnd_ne_nil hne ((s.input.drop number).drop 5))
  rw [List.length_take, List.length_drop] at hlen
  unfold copyDataBytes
  dsimp only
  rw [if_pos ⟨by rw [List.length_take, List.length_drop]; exact hlen, hend⟩, List.length_append,
    List.length_take]
  omega

theorem length_copyDataBytes {number : ℕ} (h : ¬ Searches number s) :
    (copyDataBytes number s).1.length = min number s.input.length := by
  unfold copyDataBytes
  dsimp only
  rw [if_neg (show ¬ (_ ∧ _) from h)]
  simp

/-- ppr does not search exactly if the input ends soon or goes on with "%%End". -/
theorem not_searches_iff (number : ℕ) :
    ¬ Searches number s ↔
      (s.input.drop number).length < 5 ∨ ascii "%%End" <+: s.input.drop number := by
  rw [Searches, not_and_or, not_not, List.prefix_iff_eq_take, List.length_take, eq_comm (a := ascii _)]
  refine or_congr ?_ Iff.rfl
  omega

theorem bytes_agree_iff (number : ℕ) :
    (((copyDataBytes number s).1 ++ rest).take number,
        ((copyDataBytes number s).1 ++ rest).drop number) = ((copyDataBytes number s).1, rest) ↔
      BytesFit number s rest := by
  rw [take_drop_iff, BytesFit, ← not_searches_iff]
  by_cases h : Searches number s
  · have hlong := length_copyDataBytes_of_searches s h
    have hle : number ≤ s.input.length := by
      have := h.1
      rw [List.length_take, List.length_drop] at this
      omega
    rw [if_pos hle]
    exact iff_of_false (by omega) fun hn => hn h
  · rw [length_copyDataBytes s h]
    split_ifs with hle
    · exact iff_of_true (.inl (by omega)) h
    · constructor
      · rintro (he | ⟨-, hr⟩)
        · omega
        · exact hr
      · exact fun hr => .inr ⟨by omega, hr⟩

/-- With a unit that pprdrv takes for bytes and ppr does not know, nothing is data for ppr. -/
theorem unknown_agree_iff (number : ℕ) :
    (([] ++ rest).take number, ([] ++ rest).drop number) = (([] : List Byte), rest) ↔
      number = 0 ∨ rest = [] := by
  rw [take_drop_iff, List.length_nil]
  constructor
  · rintro (h | ⟨-, h⟩)
    · exact .inl h.symm
    · exact .inr h
  · rintro (rfl | h)
    · exact .inl rfl
    · rcases Nat.eq_zero_or_pos number with rfl | hn
      · exact .inl rfl
      · exact .inr ⟨hn, h⟩

end Agreement

/-- The line matches for pprdrv, too. -/
theorem BeginData.lmatch (b : BeginData) : lmatch b.line "%%BeginData:" = true := by
  obtain ⟨t, ts, ht⟩ : ∃ t ts, tokenize b.line = t :: ts := by
    cases h : tokenize b.line with
    | nil =>
      have := b.keyword
      rw [h] at this
      cases this
    | cons t ts => exact ⟨t, ts, rfl⟩
  have hkey := b.keyword
  rw [ht, List.head?_cons, Option.some.injEq] at hkey
  obtain ⟨c, l, hl⟩ : ∃ c l, b.line = c :: l := by
    cases h : b.line with
    | nil =>
      have := b.comment
      rw [h] at this
      cases this
    | cons c l => exact ⟨c, l, rfl⟩
  have hc := b.comment
  rw [hl, List.head?_cons, Option.some.injEq] at hc
  subst hc
  rw [hl] at ht
  have hpre := tokenize_head ht
  rw [hkey, ← hl] at hpre
  exact List.isPrefixOf_iff_prefix.2 hpre

/-- Without a linefeed in it, pprdrv reads the line that ppr wrote. -/
theorem drvBlock_eq (b : BeginData) (h : newline ∉ b.line) (file : List Byte) :
    drvBlock (b.line ++ newline :: file) = some (b.line, Pprdrv.copyData b.line file) := by
  have hlen : b.line.length < maxLine := b.short.trans_lt (by decide)
  have hread : Pprdrv.dgetlineRead (b.line ++ newline :: file) = some (b.line, false, file) := by
    rw [Pprdrv.dgetlineRead, if_neg (by simp), Pprdrv.readLine_append h hlen]
  rw [drvBlock, hread]
  dsimp only
  rw [cstr_eq_self.2 b.no_nul, if_pos b.lmatch]

/-- What ppr copies, by the unit. -/
theorem written_copyData (type : InType) (line : List Byte) (s : Infile) :
    (copyData type line s).written =
      match (tokenize line)[1]?, (tokenize line)[2]?, (tokenize line)[3]? with
      | some count, some _, some unit =>
        if unit = ascii "Lines" then (copyDataLines type (itemCount count).toNat s).1
        else if unit = ascii "Bytes" then (copyDataBytes (itemCount count).toNat s).1
        else []
      | _, _, _ => [] := by
  unfold copyData
  dsimp only
  generalize (tokenize line)[1]? = t1, (tokenize line)[2]? = t2, (tokenize line)[3]? = t3
  match t1, t2, t3 with
  | some count, some _, some unit =>
    dsimp only
    split_ifs <;> rfl
  | none, _, _ | some _, none, _ | some _, some _, none => rfl

/-- For every document, both programs take the same data, unchanged, if and only if it fits. -/
theorem blockAgrees_iff_dataFits (type : InType) (b : BeginData) (s : Infile) (rest : List Byte) :
    BlockAgrees type b s rest ↔ DataFits type b s rest := by
  by_cases hline : newline ∈ b.line
  · refine iff_of_false (fun h => ?_) fun h => h.1 hline
    unfold BlockAgrees drvBlock Pprdrv.dgetlineRead at h
    dsimp only at h
    rw [if_neg (by simp)] at h
    dsimp only at h
    split_ifs at h
    have hread := congrArg Prod.fst (Option.some.inj h)
    dsimp only at hread
    exact Pprdrv.newline_notMem_readLine _ _ (by rw [hread]; exact hline)
  unfold BlockAgrees DataFits
  dsimp only
  rw [drvBlock_eq b hline, and_iff_right hline, Option.some.injEq, Prod.mk.injEq, and_iff_right rfl,
    written_copyData, Pprdrv.copyData]
  dsimp only
  generalize (tokenize b.line)[1]? = t1, (tokenize b.line)[2]? = t2, (tokenize b.line)[3]? = t3
  match t1, t2, t3 with
  | some count, some _, some unit =>
    dsimp only
    by_cases hl : unit = ascii "Lines"
    · rw [if_pos hl, if_pos hl, if_pos hl]
      exact lines_agree_iff type s rest _
    rw [if_neg hl, if_neg hl, if_neg hl]
    by_cases hb : unit = ascii "Bytes"
    · rw [if_pos hb, if_pos hb]
      exact bytes_agree_iff s rest _
    · rw [if_neg hb, if_neg hb]
      exact unknown_agree_iff rest _
  | none, _, _ | some _, none, _ | some _, some _, none => exact iff_of_true rfl trivial

/-- A block that is one byte longer than it says. -/
def wrongCount : BeginData where
  line := ascii "%%BeginData: 2 Binary Bytes"
  no_nul := by decide +kernel
  short := by decide +kernel
  comment := by decide +kernel
  keyword := by decide +kernel

/-- ppr goes on to "%%EndData", pprdrv stops before it. -/
theorem wrongCount_disagrees :
    ¬ BlockAgrees .other wrongCount
      { input := ascii "abc\n%%EndData\n", logicalEof := false, scan := ⟨0, 0, false, false⟩ }
      (ascii "%%EndData\n") := by
  unfold BlockAgrees
  decide +kernel

end Ppr
