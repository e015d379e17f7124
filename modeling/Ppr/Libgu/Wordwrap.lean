import Ppr.Lib.Reading
import Ppr.Lib.Words

/-!
# Word wrap

`gu_wordwrap()` of `wordwrap.c`, which rewrites a string where it stands.  Each write is checked: what it goes
over must have been read.
-/

namespace Ppr.Wordwrap

open Words

inductive Fault where
  /-- A write to a byte that is still to be read. -/
  | overtaken
  /-- A read or a write that is not in the memory. -/
  | wild
  /-- More rounds than there are bytes. -/
  | endless
  deriving DecidableEq

/-- The variables of `gu_wordwrap()`; the pointers `si` and `di` are indexes into the memory. -/
structure Wrapping where
  string : List Byte
  si : ℕ
  di : ℕ
  curlen : ℕ
  spacelen : ℕ

namespace Wrapping

/-- A write when `read` bytes have been read. -/
def put (w : Wrapping) (read pos : ℕ) (c : Byte) : Except Fault (List Byte) :=
  if read ≤ pos then .error .overtaken
  else if w.string.length ≤ pos then .error .wild
  else .ok (w.string.set pos c)

/-- The loop over the blanks and newlines in front of a word. -/
def copySpaces : ℕ → Wrapping → Except Fault Wrapping
  | 0, _ => .error .endless
  | fuel + 1, w =>
    match w.string[w.si]? with
    | none => .error .wild
    | some c =>
      if c = 32 ∨ c = 10 then
        if 0 < w.curlen then do
          let string ← w.put (w.si + 1) w.di 32
          copySpaces fuel ⟨string, w.si + 1, w.di + 1, w.curlen + 1, w.spacelen + 1⟩
        else copySpaces fuel { w with si := w.si + 1 }
      else .ok w

/-- `strcspn(si, " \n")`. -/
def wordlen (w : Wrapping) : ℕ :=
  ((w.string.drop w.si).takeWhile fun c => c ≠ 32 ∧ c ≠ 10 ∧ c ≠ 0).length

/-- The blanks are taken back and replaced by a newline. -/
def breakLine (w : Wrapping) : Except Fault Wrapping :=
  if w.di < w.spacelen then .error .wild
  else do
    let string ← w.put w.si (w.di - w.spacelen) 10
    return ⟨string, w.si, w.di - w.spacelen + 1, 0, 0⟩

/-- `memmove(di, si, wordlen)` and the steps behind it. -/
def copyWord (w : Wrapping) (wordlen : ℕ) : Except Fault Wrapping :=
  if w.si < w.di then .error .overtaken
  else if w.string.length < w.si + wordlen then .error .wild
  else .ok
    { w with
      string := w.string.take w.di ++ ((w.string.drop w.si).take wordlen ++ w.string.drop (w.di + wordlen))
      si := w.si + wordlen
      di := w.di + wordlen
      curlen := w.curlen + wordlen }

/-- The loop over the words. -/
def copyWords (width : ℤ) : ℕ → Wrapping → Except Fault Wrapping
  | 0, _ => .error .endless
  | fuel + 1, w =>
    match w.string[w.si]? with
    | none => .error .wild
    | some c =>
      if c = 0 then .ok w
      else do
        let w ← copySpaces w.string.length w
        let len := w.wordlen
        let w ← (if 0 < w.curlen ∧ width < (w.curlen + len : ℕ) then w.breakLine else .ok w)
        let w ← w.copyWord len
        copyWords width fuel { w with spacelen := 0 }

end Wrapping

/-- `gu_wordwrap()`: what is in the memory then, and the length that is returned. -/
def guWordwrap (string : List Byte) (width : ℤ) : Except Fault (List Byte × ℕ) :=
  if width ≤ 0 then .ok (string, 0)
  else do
    let w ← Wrapping.copyWords width string.length ⟨string, 0, 0, 0, 0⟩
    let string ← (if 0 < w.di ∧ w.string[w.di - 1]? = some 32 then w.put (w.si + 1) (w.di - 1) 10 else .ok w.string)
    let string ← { w with string := string }.put (w.si + 1) w.di 0
    return (string, w.di)

/-! ## The memory -/

/-- What has been written, and what is still to be read, in memory of `n` bytes. -/
structure Holds (w : Wrapping) (n : ℕ) (done unread : List Byte) : Prop where
  string : ∃ gap, w.string = done ++ (gap ++ unread)
  di : w.di = done.length
  si : w.si + unread.length = n
  length : w.string.length = n

namespace Holds

variable {w : Wrapping} {n : ℕ} {done unread : List Byte}

theorem drop (h : Holds w n done unread) : w.string.drop w.si = unread := by
  obtain ⟨gap, hgap⟩ := h.string
  have hlen := h.length
  have hsi := h.si
  rw [hgap, List.length_append, List.length_append] at hlen
  have heq : w.si = (done ++ gap).length := by
    rw [List.length_append]
    omega
  rw [hgap, ← List.append_assoc, heq, List.drop_left]

theorem read (h : Holds w n done unread) : w.string[w.si]? = unread.head? := by
  rw [← h.drop, List.head?_drop]

theorem di_le (h : Holds w n done unread) : w.di ≤ w.si := by
  obtain ⟨gap, hgap⟩ := h.string
  have hlen := h.length
  rw [hgap, List.length_append, List.length_append] at hlen
  have hsi := h.si
  have hdi := h.di
  omega

/-- A byte is written when the next one has been read. -/
theorem put {c : Byte} (h : Holds w n done (c :: unread)) (d : Byte) (curlen spacelen : ℕ) :
    ∃ string, w.put (w.si + 1) w.di d = .ok string ∧
      Holds ⟨string, w.si + 1, w.di + 1, curlen, spacelen⟩ n (done ++ [d]) unread := by
  obtain ⟨gap, hgap⟩ := h.string
  have hsi := h.si
  have hle := h.di_le
  have hlen := h.length
  rw [List.length_cons] at hsi
  refine ⟨w.string.set w.di d, ?_, ?_⟩
  · rw [Wrapping.put, if_neg (by omega), if_neg (by omega)]
  · constructor
    · refine ⟨(gap ++ [c]).tail, ?_⟩
      show w.string.set w.di d = _
      rw [hgap, h.di]
      cases gap <;> simp
    · simp [h.di]
    · show w.si + 1 + unread.length = n
      omega
    · simpa using hlen

/-- The last byte that was written is written again. -/
theorem putLast {c c' : Byte} (h : Holds w n (done ++ [c']) (c :: unread)) (d : Byte) :
    ∃ string, w.put (w.si + 1) (w.di - 1) d = .ok string ∧
      Holds { w with string := string } n (done ++ [d]) (c :: unread) := by
  obtain ⟨gap, hgap⟩ := h.string
  have hsi := h.si
  have hle := h.di_le
  have hlen := h.length
  have hdi := h.di
  rw [List.length_cons] at hsi
  rw [List.length_append, List.length_singleton] at hdi
  refine ⟨w.string.set (w.di - 1) d, ?_, ?_⟩
  · rw [Wrapping.put, if_neg (by omega), if_neg (by omega)]
  · constructor
    · refine ⟨gap, ?_⟩
      show w.string.set (w.di - 1) d = _
      rw [hgap, hdi]
      simp
    · simp [hdi]
    · exact h.si
    · simpa using hlen

end Holds

/-- A blank or a newline. -/
def isBreak (c : Byte) : Bool := c = 32 ∨ c = 10

/-- How many blanks are copied. -/
def pending (curlen : ℕ) (spaces : List Byte) : ℕ := if 0 < curlen then spaces.length else 0

theorem copySpaces_spec {n : ℕ} {spaces unread : List Byte} {c : Byte} (hspaces : ∀ d ∈ spaces, isBreak d = true)
    (hc : isBreak c = false) {fuel : ℕ} (hfuel : spaces.length < fuel) {w : Wrapping} {done : List Byte}
    (h : Holds w n done (spaces ++ c :: unread)) :
    ∃ w', w.copySpaces fuel = .ok w' ∧
      Holds w' n (done ++ List.replicate (pending w.curlen spaces) 32) (c :: unread) ∧
      w'.curlen = w.curlen + pending w.curlen spaces ∧ w'.spacelen = w.spacelen + pending w.curlen spaces := by
  induction spaces generalizing fuel w done with
  | nil =>
    obtain ⟨fuel, rfl⟩ := Nat.exists_eq_add_one_of_ne_zero (Nat.ne_of_gt hfuel)
    have hread : w.string[w.si]? = some c := h.read
    have hnot : ¬(c = 32 ∨ c = 10) := by simpa [isBreak] using hc
    have hpending : pending w.curlen [] = 0 := by simp [pending]
    refine ⟨w, ?_, ?_, ?_, ?_⟩
    · simp only [Wrapping.copySpaces, hread, if_neg hnot]
    · simpa [hpending] using h
    · simp [hpending]
    · simp [hpending]
  | cons d spaces ih =>
    obtain ⟨fuel, rfl⟩ := Nat.exists_eq_add_one_of_ne_zero (Nat.ne_of_gt (Nat.zero_lt_of_lt hfuel))
    have hread : w.string[w.si]? = some d := h.read
    have hd : d = 32 ∨ d = 10 := by simpa [isBreak] using hspaces d List.mem_cons_self
    have hrest : ∀ e ∈ spaces, isBreak e = true := fun e he => hspaces e (List.mem_cons_of_mem d he)
    have hlt : spaces.length < fuel := Nat.lt_of_succ_lt_succ hfuel
    by_cases hcur : 0 < w.curlen
    · obtain ⟨string, hput, hnext⟩ := h.put 32 (w.curlen + 1) (w.spacelen + 1)
      obtain ⟨w', hw', hholds, hcurlen, hspacelen⟩ := ih hrest hlt hnext
      have hstep : pending w.curlen (d :: spaces) = 1 + pending (w.curlen + 1) spaces := by
        simp [pending, hcur, Nat.add_comm]
      refine ⟨w', ?_, ?_, ?_, ?_⟩
      · simp only [Wrapping.copySpaces, hread, if_pos hd, if_pos hcur, hput]
        exact hw'
      · rw [hstep, List.replicate_add, ← List.append_assoc]
        exact hholds
      · rw [hcurlen, hstep, Nat.add_assoc]
      · rw [hspacelen, hstep, Nat.add_assoc]
    · have hnext : Holds { w with si := w.si + 1 } n done (spaces ++ c :: unread) := by
        obtain ⟨gap, hgap⟩ := h.string
        have hsi := h.si
        rw [List.cons_append, List.length_cons] at hsi
        constructor
        · exact ⟨gap ++ [d], by simpa using hgap⟩
        · exact h.di
        · show w.si + 1 + _ = n
          omega
        · exact h.length
      obtain ⟨w', hw', hholds, hcurlen, hspacelen⟩ := ih hrest hlt hnext
      have hstep : pending w.curlen (d :: spaces) = pending w.curlen spaces := by simp [pending, hcur]
      rw [hstep]
      refine ⟨w', ?_, hholds, hcurlen, hspacelen⟩
      simp only [Wrapping.copySpaces, hread, if_pos hd, if_neg hcur]
      exact hw'

theorem breakLine_spec {n k : ℕ} {w : Wrapping} {done unread : List Byte} (hk : 0 < k)
    (h : Holds w n (done ++ List.replicate k 32) unread) (hspacelen : w.spacelen = k) :
    ∃ w', w.breakLine = .ok w' ∧ Holds w' n (done ++ [10]) unread ∧ w'.curlen = 0 := by
  obtain ⟨gap, hgap⟩ := h.string
  have hle := h.di_le
  have hdi := h.di
  have hsi := h.si
  have hlen := h.length
  rw [List.length_append, List.length_replicate] at hdi
  have hsub : w.di - w.spacelen = done.length := by omega
  refine ⟨⟨w.string.set done.length 10, w.si, done.length + 1, 0, 0⟩, ?_, ?_, rfl⟩
  · simp only [Wrapping.breakLine, hsub]
    rw [if_neg (by omega), Wrapping.put, if_neg (by omega), if_neg (by omega)]
    rfl
  · constructor
    · refine ⟨List.replicate (k - 1) 32 ++ gap, ?_⟩
      obtain ⟨k, rfl⟩ := Nat.exists_eq_add_one_of_ne_zero (Nat.ne_of_gt hk)
      show w.string.set done.length 10 = _
      rw [hgap]
      simp [List.replicate_succ]
    · simp
    · exact hsi
    · simpa using hlen

theorem copyWord_spec {n : ℕ} {w : Wrapping} {done word unread : List Byte} (h : Holds w n done (word ++ unread)) :
    ∃ w', w.copyWord word.length = .ok w' ∧ Holds { w' with spacelen := 0 } n (done ++ word) unread ∧
      w'.curlen = w.curlen + word.length := by
  obtain ⟨gap, hgap⟩ := h.string
  have hle := h.di_le
  have hsi := h.si
  have hlen := h.length
  rw [List.length_append] at hsi
  have hcopy : w.copyWord word.length = .ok
      { w with
        string := w.string.take w.di ++ ((w.string.drop w.si).take word.length ++ w.string.drop (w.di + word.length))
        si := w.si + word.length
        di := w.di + word.length
        curlen := w.curlen + word.length } := by
    rw [Wrapping.copyWord, if_neg (by omega), if_neg (by omega)]
  have htail : w.string.drop (w.di + word.length) = (gap ++ word).drop word.length ++ unread := by
    rw [hgap, h.di, List.drop_length_add_append, ← List.append_assoc]
    exact List.drop_append_of_le_length (by simp)
  have hhead : w.string.take w.di = done := by rw [hgap, h.di, List.take_left]
  have hword : (w.string.drop w.si).take word.length = word := by rw [h.drop, List.take_left]
  refine ⟨_, hcopy, ?_, rfl⟩
  constructor
  · refine ⟨(gap ++ word).drop word.length, ?_⟩
    show w.string.take w.di ++ _ = _
    rw [htail, hhead, hword, List.append_assoc]
  · simp [h.di]
  · show w.si + word.length + unread.length = n
    omega
  · show (w.string.take w.di ++ (_ ++ w.string.drop (w.di + word.length))).length = n
    rw [hword, List.length_append, List.length_append, List.length_take, List.length_drop]
    omega

/-! ## The text -/

/-- A line that is not too long, or is one word, and does not begin with a blank. -/
structure Fits (width : ℤ) (line : List Byte) : Prop where
  fits : (line.length : ℤ) ≤ width ∨ ∀ c ∈ line, isBreak c = false
  begins : line.head? ≠ some 32
  newline : 10 ∉ line

/-- What has been written of what has been read. -/
structure Laid (width : ℤ) (read done : List Byte) (lines : List (List Byte)) (last : List Byte) : Prop where
  text : done = ended 10 lines ++ last
  lines_fit : ∀ line ∈ lines, Fits width line
  last_fits : Fits width last
  words_eq : words isBreak done = words isBreak read
  zero : 0 ∉ done

theorem isBreak_eq_false {c : Byte} : isBreak c = false ↔ c ≠ 32 ∧ c ≠ 10 := by
  simp [isBreak]

theorem fits_word {width : ℤ} {word : List Byte} (hword : ∀ c ∈ word, isBreak c = false) : Fits width word := by
  constructor
  · exact Or.inr hword
  · intro h
    have h32 := hword 32 (List.mem_of_mem_head? h)
    exact absurd h32 (by decide)
  · intro h
    exact absurd (hword 10 h) (by decide)

namespace Laid

variable {width : ℤ} {read done : List Byte} {lines : List (List Byte)} {last spaces word : List Byte}

theorem nil : Laid width [] [] [] [] := by
  constructor
  · rfl
  · simp
  · exact fits_word (by simp)
  · rfl
  · simp

/-- The first word. -/
theorem first (hspaces : ∀ c ∈ spaces, isBreak c = true) (hword : ∀ c ∈ word, isBreak c = false) (hzero : 0 ∉ word) :
    Laid width (spaces ++ word) word [] word := by
  constructor
  · rfl
  · simp
  · exact fits_word hword
  · exact (words_breaks_append hspaces word).symm
  · exact hzero

/-- A word that fits on the line. -/
theorem keep (h : Laid width read done lines last) (hlast : last ≠ []) (hne : spaces ≠ [])
    (hspaces : ∀ c ∈ spaces, isBreak c = true) (hword : ∀ c ∈ word, isBreak c = false) (hzero : 0 ∉ word)
    (hfits : ((last.length + spaces.length + word.length : ℕ) : ℤ) ≤ width) :
    Laid width (read ++ (spaces ++ word)) (done ++ (List.replicate spaces.length 32 ++ word)) lines
      (last ++ (List.replicate spaces.length 32 ++ word)) := by
  have hlen : spaces.length ≠ 0 := by simpa using hne
  have hblanks : ∀ c ∈ List.replicate spaces.length (32 : Byte), isBreak c = true := by
    intro c hc
    rw [List.eq_of_mem_replicate hc]
    rfl
  constructor
  · rw [h.text, List.append_assoc]
  · exact h.lines_fit
  · constructor
    · apply Or.inl
      simpa [Nat.add_assoc] using hfits
    · rw [List.head?_append_of_ne_nil _ hlast]
      exact h.last_fits.begins
    · have hnot : 10 ∉ word := fun h10 => absurd (hword 10 h10) (by decide)
      simpa using ⟨h.last_fits.newline, hnot⟩
  · rw [words_append_breaks_append hblanks (Or.inr (by simpa using hne)), h.words_eq]
    exact (words_append_breaks_append hspaces (Or.inr hne)).symm
  · simpa using ⟨h.zero, hzero⟩

/-- A word on a line of its own. -/
theorem newLine (h : Laid width read done lines last) (hne : spaces ≠ []) (hspaces : ∀ c ∈ spaces, isBreak c = true)
    (hword : ∀ c ∈ word, isBreak c = false) (hzero : 0 ∉ word) :
    Laid width (read ++ (spaces ++ word)) (done ++ [10] ++ word) (lines ++ [last]) word := by
  constructor
  · rw [ended_append, h.text]
    simp
  · intro line hline
    rcases List.mem_append.1 hline with hline | hline
    · exact h.lines_fit line hline
    · rw [List.mem_singleton.1 hline]
      exact h.last_fits
  · exact fits_word hword
  · rw [List.append_assoc, List.singleton_append, words_append_cons (by rfl), h.words_eq]
    exact (words_append_breaks_append hspaces (Or.inr hne)).symm
  · simpa using ⟨h.zero, hzero⟩

/-- A blank at the end becomes a newline. -/
theorem close (h : Laid width read (done ++ [32]) lines last) : ∃ line, Laid width read (done ++ [10]) (lines ++ [line]) [] := by
  have hdone := h.text
  rcases List.eq_nil_or_concat last with hnil | ⟨line, c, hline⟩
  · rw [hnil, List.append_nil] at hdone
    rcases List.eq_nil_or_concat lines with hlines | ⟨lines', l, hlines⟩
    · rw [hlines] at hdone
      exact absurd hdone (by simp [ended])
    · rw [hlines, List.concat_eq_append, ended_append, ← List.append_assoc] at hdone
      have h32 := List.append_inj_right' hdone rfl
      exact absurd h32 (by decide)
  · rw [List.concat_eq_append] at hline
    rw [hline, ← List.append_assoc] at hdone
    have hc : [32] = [c] := List.append_inj_right' hdone rfl
    have hpre : done = ended 10 lines ++ line := List.append_inj_left' hdone rfl
    have hlast := h.last_fits
    rw [hline, ← hc] at hlast
    have hblank : isBreak 32 = true := rfl
    refine ⟨line, ?_, ?_, fits_word (by simp), ?_, ?_⟩
    · rw [ended_append, hpre]
      simp
    · intro l hl
      rcases List.mem_append.1 hl with hl | hl
      · exact h.lines_fit l hl
      · rw [List.mem_singleton.1 hl]
        constructor
        · rcases hlast.fits with hle | hword
          · rw [List.length_append] at hle
            push_cast at hle
            exact Or.inl (by omega)
          · exact absurd (hword 32 (by simp)) (by decide)
        · intro hhead
          apply hlast.begins
          rw [List.head?_append, hhead]
          rfl
        · intro h10
          exact hlast.newline (List.mem_append_left _ h10)
    · rw [← h.words_eq, words_append_cons (by rfl) done [], words_append_cons hblank done []]
    · have hzero := h.zero
      simp only [List.mem_append, not_or] at hzero
      simpa using hzero.1

end Laid

/-! ## The loop -/

/-- Between two rounds no word is cut. -/
structure Between (width : ℤ) (s rest : List Byte) (n : ℕ) (w : Wrapping) (read todo done : List Byte)
    (lines : List (List Byte)) (last : List Byte) : Prop where
  string : s = read ++ todo
  holds : Holds w n done (todo ++ 0 :: rest)
  laid : Laid width read done lines last
  curlen : w.curlen = last.length
  spacelen : w.spacelen = 0
  first : todo ≠ [] → last = [] → read = [] ∧ done = []
  behind : last ≠ [] → ∀ c ∈ todo.head?, isBreak c = true

/-- The blanks, the word behind them and what is behind the word. -/
theorem exists_word (todo : List Byte) : ∃ spaces word more, todo = spaces ++ (word ++ more) ∧
    (∀ c ∈ spaces, isBreak c = true) ∧ (∀ c ∈ word, isBreak c = false) ∧
    (more = [] ∨ (word ≠ [] ∧ ∃ c ∈ more.head?, isBreak c = true)) := by
  refine ⟨todo.takeWhile isBreak, (todo.dropWhile isBreak).takeWhile fun c => !isBreak c,
    (todo.dropWhile isBreak).dropWhile fun c => !isBreak c, ?_, ?_, ?_, ?_⟩
  · rw [List.takeWhile_append_dropWhile, List.takeWhile_append_dropWhile]
  · intro c hc
    exact List.mem_takeWhile_imp hc
  · intro c hc
    simpa using List.mem_takeWhile_imp hc
  · generalize hl : todo.dropWhile isBreak = l
    cases l with
    | nil => exact Or.inl rfl
    | cons d l =>
      have hd : isBreak d = false := by
        have hhead := List.head?_dropWhile_not isBreak todo
        rw [hl] at hhead
        simpa using hhead
      cases hmore : (d :: l).dropWhile fun c => !isBreak c with
      | nil => exact Or.inl rfl
      | cons e more =>
        refine Or.inr ⟨by simp [hd], e, rfl, ?_⟩
        have hhead := List.head?_dropWhile_not (fun c => !isBreak c) (d :: l)
        rw [hmore] at hhead
        simpa using hhead

theorem wordlen_eq {n : ℕ} {w : Wrapping} {done word behind : List Byte} {c : Byte}
    (h : Holds w n done (word ++ c :: behind)) (hword : ∀ d ∈ word, isBreak d = false) (hzero : 0 ∉ word)
    (hc : c = 0 ∨ isBreak c = true) : w.wordlen = word.length := by
  have hall : ∀ d ∈ word, decide (d ≠ 32 ∧ d ≠ 10 ∧ d ≠ 0) = true := by
    intro d hd
    have hbreak := isBreak_eq_false.1 (hword d hd)
    have hne : d ≠ 0 := fun h0 => hzero (h0 ▸ hd)
    exact decide_eq_true ⟨hbreak.1, hbreak.2, hne⟩
  have hstop : ¬decide (c ≠ 32 ∧ c ≠ 10 ∧ c ≠ 0) = true := by
    rw [decide_eq_true_eq]
    rintro ⟨h32, h10, h0⟩
    rcases hc with hc | hc
    · exact h0 hc
    · rw [isBreak_eq_false.2 ⟨h32, h10⟩] at hc
      exact Bool.false_ne_true hc
  rw [Wrapping.wordlen, h.drop, List.takeWhile_append_of_pos hall, List.takeWhile_cons, if_neg hstop,
    List.append_nil]

/-- What a round does after the blanks. -/
theorem round_tail {width : ℤ} {n : ℕ} {w : Wrapping} {read done lines last spaces word more rest}
    (hlaid : Laid width read done lines last)
    (h : Holds w n (done ++ List.replicate (pending last.length spaces) 32) (word ++ (more ++ 0 :: rest)))
    (hcurlen : w.curlen = last.length + pending last.length spaces) (hspacelen : w.spacelen = pending last.length spaces)
    (hfirst : last = [] → read = [] ∧ done = []) (hne : last ≠ [] → spaces ≠ [])
    (hspaces : ∀ c ∈ spaces, isBreak c = true) (hword : ∀ c ∈ word, isBreak c = false) (hzero : 0 ∉ word) :
    ∃ w1 w' done' lines' last',
      (if 0 < w.curlen ∧ width < (w.curlen + word.length : ℕ) then w.breakLine else .ok w) = .ok w1 ∧
      w1.copyWord word.length = .ok w' ∧ Holds { w' with spacelen := 0 } n done' (more ++ 0 :: rest) ∧
      Laid width (read ++ (spaces ++ word)) done' lines' last' ∧ w'.curlen = last'.length ∧
      word.length ≤ w'.curlen := by
  by_cases hlast : last = []
  · obtain ⟨hread, hdone⟩ := hfirst hlast
    have hpending : pending last.length spaces = 0 := by simp [pending, hlast]
    rw [hpending] at h hcurlen
    rw [hlast] at hcurlen
    have hcur : w.curlen = 0 := hcurlen
    rw [if_neg (by omega)]
    obtain ⟨w', hcopy, hholds, hcurlen'⟩ := copyWord_spec h
    rw [hdone] at hholds
    rw [hcur, Nat.zero_add] at hcurlen'
    refine ⟨w, w', word, [], word, rfl, hcopy, by simpa using hholds, ?_, hcurlen', hcurlen'.ge⟩
    rw [hread]
    exact Laid.first hspaces hword hzero
  · have hlen : 0 < last.length := List.length_pos_iff.2 hlast
    have hpending : pending last.length spaces = spaces.length := if_pos hlen
    rw [hpending] at h hcurlen hspacelen
    by_cases hfits : width < (w.curlen + word.length : ℕ)
    · rw [if_pos ⟨by omega, hfits⟩]
      obtain ⟨w1, hbreak, hholds1, hcurlen1⟩ :=
        breakLine_spec (List.length_pos_iff.2 (hne hlast)) h hspacelen
      obtain ⟨w', hcopy, hholds, hcurlen'⟩ := copyWord_spec hholds1
      rw [hcurlen1, Nat.zero_add] at hcurlen'
      exact ⟨w1, w', _, _, word, hbreak, hcopy, hholds, hlaid.newLine (hne hlast) hspaces hword hzero, hcurlen',
        hcurlen'.ge⟩
    · rw [if_neg fun h => hfits h.2]
      obtain ⟨w', hcopy, hholds, hcurlen'⟩ := copyWord_spec h
      rw [hcurlen] at hcurlen' hfits
      rw [List.append_assoc] at hholds
      refine ⟨w, w', _, _, _, rfl, hcopy, hholds, hlaid.keep hlast (hne hlast) hspaces hword hzero (not_lt.1 hfits), ?_, ?_⟩
      · simp [hcurlen', Nat.add_assoc]
      · omega

theorem spaces_ne_nil {todo spaces word more : List Byte} (htodo : todo = spaces ++ (word ++ more)) (hne : todo ≠ [])
    (hbreak : ∀ c ∈ todo.head?, isBreak c = true) (hword : ∀ c ∈ word, isBreak c = false)
    (hmore : more = [] ∨ word ≠ []) : spaces ≠ [] := by
  rintro rfl
  cases word with
  | nil =>
    rcases hmore with rfl | h
    · exact hne htodo
    · exact h rfl
  | cons c word =>
    have hc : isBreak c = true := hbreak c (by rw [htodo]; rfl)
    rw [hword c List.mem_cons_self] at hc
    exact Bool.false_ne_true hc

theorem behind_spaces {word more : List Byte} (rest : List Byte) (hword : ∀ c ∈ word, isBreak c = false)
    (hmore : more = [] ∨ word ≠ []) : ∃ d behind, word ++ (more ++ 0 :: rest) = d :: behind ∧ isBreak d = false := by
  cases word with
  | nil =>
    rcases hmore with rfl | h
    · exact ⟨0, rest, rfl, rfl⟩
    · exact absurd rfl h
  | cons d word => exact ⟨d, word ++ (more ++ 0 :: rest), rfl, hword d List.mem_cons_self⟩

theorem behind_word {more : List Byte} (rest : List Byte) (hmore : more = [] ∨ ∃ c ∈ more.head?, isBreak c = true) :
    ∃ e behind, more ++ 0 :: rest = e :: behind ∧ (e = 0 ∨ isBreak e = true) := by
  cases more with
  | nil => exact ⟨0, rest, rfl, Or.inl rfl⟩
  | cons e more =>
    refine ⟨e, more ++ 0 :: rest, rfl, ?_⟩
    rcases hmore with h | ⟨c, hc, hbreak⟩
    · cases h
    · cases hc
      exact Or.inr hbreak

/-- One round. -/
theorem round {width : ℤ} {s rest : List Byte} {n : ℕ} (h0 : 0 ∉ s) {w : Wrapping} {read todo done lines last}
    (h : Between width s rest n w read todo done lines last) (hne : todo ≠ []) (fuel : ℕ) :
    ∃ w' read' todo' done' lines' last', w.copyWords width (fuel + 1) = w'.copyWords width fuel ∧
      Between width s rest n w' read' todo' done' lines' last' ∧ todo'.length < todo.length := by
  obtain ⟨spaces, word, more, htodo, hspaces, hword, hmore⟩ := exists_word todo
  have hzero : 0 ∉ spaces ++ (word ++ more) := fun hmem => h0 (by rw [h.string, htodo]; exact List.mem_append_right _ hmem)
  have hzeroword : 0 ∉ word := fun hmem => hzero (List.mem_append_right _ (List.mem_append_left _ hmem))
  have hspacesne : last ≠ [] → spaces ≠ [] := fun hlast =>
    spaces_ne_nil htodo hne (h.behind hlast) hword (hmore.imp_right And.left)
  obtain ⟨d, behind, hd, hdbreak⟩ := behind_spaces rest hword (hmore.imp_right And.left)
  obtain ⟨e, behind', he, hebreak⟩ := behind_word rest (hmore.imp_right And.right)
  have hholds := h.holds
  rw [htodo, List.append_assoc, List.append_assoc, hd] at hholds
  have hfuel : spaces.length < w.string.length := by
    have hlen := hholds.si
    rw [List.length_append, List.length_cons] at hlen
    rw [hholds.length]
    omega
  obtain ⟨w1, hcopy, hholds1, hcurlen1, hspacelen1⟩ := copySpaces_spec hspaces hdbreak hfuel hholds
  rw [← hd] at hholds1
  rw [h.curlen] at hholds1 hcurlen1 hspacelen1
  rw [h.spacelen, Nat.zero_add] at hspacelen1
  have hlen : w1.wordlen = word.length := by
    rw [he] at hholds1
    exact wordlen_eq hholds1 hword hzeroword hebreak
  obtain ⟨w2, w3, done', lines', last', hline, hcopyWord, hholds3, hlaid, hcurlen3, hle⟩ :=
    round_tail h.laid hholds1 hcurlen1 hspacelen1 (h.first hne) hspacesne hspaces hword hzeroword
  refine ⟨{ w3 with spacelen := 0 }, read ++ (spaces ++ word), more, done', lines', last', ?_, ?_, ?_⟩
  · obtain ⟨c, t, ht⟩ := List.exists_cons_of_ne_nil hne
    have hread : w.string[w.si]? = some c := by
      rw [h.holds.read, ht]
      rfl
    have hc : c ≠ 0 := fun hc => h0 (by rw [h.string, ht, hc]; simp)
    rw [Wrapping.copyWords, hread]
    dsimp only
    rw [if_neg hc, hcopy]
    show ((if 0 < w1.curlen ∧ width < (w1.curlen + w1.wordlen : ℕ) then w1.breakLine else .ok w1) >>= _) = _
    rw [hlen, hline]
    show (w2.copyWord word.length >>= _) = _
    rw [hcopyWord]
    rfl
  · constructor
    · rw [h.string, htodo]
      simp
    · exact hholds3
    · exact hlaid
    · exact hcurlen3
    · rfl
    · intro hmorene hlast
      rcases hmore with hmore | hmore
      · exact absurd hmore hmorene
      · have hpos := List.length_pos_iff.2 hmore.1
        rw [hlast] at hcurlen3
        simp only [List.length_nil] at hcurlen3
        omega
    · intro _ c hc
      rcases hmore with rfl | ⟨-, d, hd, hdbreak⟩
      · cases hc
      · cases Option.mem_unique hc hd
        exact hdbreak
  · have hpos := List.length_pos_iff.2 hne
    rw [htodo, List.length_append, List.length_append] at hpos ⊢
    rcases hmore with rfl | hmore
    · simpa using hpos
    · have hpos := List.length_pos_iff.2 hmore.1
      omega

theorem copyWords_spec {width : ℤ} {s rest : List Byte} {n : ℕ} (h0 : 0 ∉ s) {fuel : ℕ} {w : Wrapping}
    {read todo done lines last} (h : Between width s rest n w read todo done lines last) (hfuel : todo.length < fuel) :
    ∃ w' done lines last, w.copyWords width fuel = .ok w' ∧ Holds w' n done (0 :: rest) ∧
      Laid width s done lines last := by
  induction fuel generalizing w read todo done lines last with
  | zero => exact absurd hfuel (Nat.not_lt_zero _)
  | succ fuel ih =>
    by_cases hne : todo = []
    · have hstring := h.string
      have hholds := h.holds
      rw [hne, List.append_nil] at hstring
      rw [hne] at hholds
      have hread : w.string[w.si]? = some 0 := hholds.read
      refine ⟨w, done, lines, last, ?_, hholds, hstring ▸ h.laid⟩
      simp only [Wrapping.copyWords, hread]
      rfl
    · obtain ⟨w', read', todo', done', lines', last', hround, hbetween, hlt⟩ := round h0 h hne fuel
      rw [hround]
      exact ih hbetween (Nat.lt_of_lt_of_le hlt (Nat.le_of_lt_succ hfuel))

/-! ## The whole string -/

theorem between_start (width : ℤ) (s rest : List Byte) :
    Between width s rest (s ++ 0 :: rest).length ⟨s ++ 0 :: rest, 0, 0, 0, 0⟩ [] s [] [] [] := by
  constructor
  · rfl
  · constructor
    · exact ⟨[], rfl⟩
    · rfl
    · exact Nat.zero_add _
    · rfl
  · exact Laid.nil
  · rfl
  · rfl
  · exact fun _ _ => ⟨rfl, rfl⟩
  · exact fun h => absurd rfl h

/-- A blank at the end is written over. -/
theorem closed {width : ℤ} {s rest : List Byte} {n : ℕ} {w : Wrapping} {done : List Byte} {lines : List (List Byte)}
    {last : List Byte} (h : Holds w n done (0 :: rest)) (hlaid : Laid width s done lines last) :
    ∃ string out lines last,
      (if 0 < w.di ∧ w.string[w.di - 1]? = some 32 then w.put (w.si + 1) (w.di - 1) 10 else .ok w.string) =
        .ok string ∧
      Holds { w with string := string } n out (0 :: rest) ∧ Laid width s out lines last := by
  have hdi := h.di
  rcases List.eq_nil_or_concat done with hnil | ⟨front, c, hdone⟩
  · rw [hnil, List.length_nil] at hdi
    refine ⟨w.string, done, lines, last, if_neg ?_, h, hlaid⟩
    omega
  · rw [List.concat_eq_append] at hdone
    rw [hdone, List.length_append, List.length_singleton] at hdi
    have hread : w.string[w.di - 1]? = some c := by
      obtain ⟨gap, hgap⟩ := h.string
      rw [hgap, hdone, hdi]
      simp
    by_cases hc : c = 32
    · rw [hdone] at h hlaid
      rw [hc] at hlaid
      obtain ⟨string, hput, hholds⟩ := h.putLast 10
      obtain ⟨line, hclose⟩ := hlaid.close
      refine ⟨string, front ++ [10], _, [], ?_, hholds, hclose⟩
      rw [hread, hc, if_pos ⟨by omega, rfl⟩, hput]
    · refine ⟨w.string, done, lines, last, if_neg ?_, h, hlaid⟩
      rw [hread]
      rintro ⟨-, hsome⟩
      exact hc (Option.some.inj hsome)

/-- Every string is rewritten in its place: no byte is written before it has been read, the words are the same, a
line that is too long is one word, and no line begins with a blank. -/
theorem guWordwrap_wraps {s rest : List Byte} {width : ℤ} (h0 : 0 ∉ s) (hwidth : 1 ≤ width) :
    ∃ out gap, guWordwrap (s ++ 0 :: rest) width = .ok (out ++ 0 :: (gap ++ rest), out.length) ∧ 0 ∉ out ∧
      out.length + gap.length = s.length ∧ words isBreak out = words isBreak s ∧
      ∀ line ∈ out.splitOn 10,
        ((line.length : ℤ) ≤ width ∨ words isBreak line = [line]) ∧ line.head? ≠ some 32 := by
  have hfuel : s.length < (s ++ 0 :: rest).length := by simp
  obtain ⟨w, done, lines, last, hloop, hholds, hlaid⟩ := copyWords_spec h0 (between_start width s rest) hfuel
  obtain ⟨string, out, lines', last', hclose, hholds', hlaid'⟩ := closed hholds hlaid
  obtain ⟨string', hput, hholds''⟩ := hholds'.put 0 0 0
  obtain ⟨gap, hgap⟩ := hholds''.string
  refine ⟨out, gap, ?_, hlaid'.zero, ?_, hlaid'.words_eq, ?_⟩
  · rw [guWordwrap, if_neg (by omega), hloop]
    show ((if 0 < w.di ∧ w.string[w.di - 1]? = some 32 then w.put (w.si + 1) (w.di - 1) 10 else .ok w.string) >>= _) = _
    rw [hclose]
    show (Wrapping.put { w with string := string } (w.si + 1) w.di 0 >>= _) = _
    rw [hput]
    show Except.ok (string', w.di) = _
    rw [show string' = _ from hgap, show w.di = _ from hholds'.di]
    simp
  · have hlen := hholds''.length
    rw [show string' = _ from hgap] at hlen
    simp only [List.length_append, List.length_cons, List.length_nil] at hlen
    omega
  · intro line hline
    have hnewline : ∀ l ∈ lines', 10 ∉ l := fun l hl => (hlaid'.lines_fit l hl).newline
    rw [hlaid'.text, splitOn_ended_append hnewline hlaid'.last_fits.newline] at hline
    have hfits : Fits width line := by
      rcases List.mem_append.1 hline with hmem | hmem
      · exact hlaid'.lines_fit line hmem
      · rw [List.mem_singleton.1 hmem]
        exact hlaid'.last_fits
    refine ⟨?_, hfits.begins⟩
    rcases hfits.fits with hle | hword
    · exact Or.inl hle
    · by_cases hne : line = []
      · apply Or.inl
        rw [hne]
        exact_mod_cast (by omega : (0 : ℤ) ≤ width)
      · exact Or.inr (words_eq_singleton hword hne)

/-- "aa  b" in lines of 4. -/
theorem guWordwrap_wraps_four : ∃ out gap,
    guWordwrap ([97, 97, 32, 32, 98] ++ 0 :: []) 4 = .ok (out ++ 0 :: (gap ++ []), out.length) ∧ 0 ∉ out ∧
      out.length + gap.length = [97, 97, 32, 32, (98 : Byte)].length ∧
      words isBreak out = words isBreak [97, 97, 32, 32, 98] ∧
      ∀ line ∈ out.splitOn 10,
        ((line.length : ℤ) ≤ 4 ∨ words isBreak line = [line]) ∧ line.head? ≠ some 32 :=
  guWordwrap_wraps (by decide) (by decide)

end Ppr.Wordwrap
