import Ppr.Libppr.QueryStreams

/-!
# Lines on stdout

However stdout is delivered, its lines are those of the whole text without the blank lines that begin
with another byte than the one that ended the line before.
-/

namespace Ppr.Query

/-! ## Searching -/

/-- There is no end of a line. -/
def Plain (l : List Byte) : Prop := ∀ c ∈ l, ¬ EndsALine c

theorem plain_or_split (buf : List Byte) :
    Plain buf ∨ ∃ l t rest, buf = l ++ t :: rest ∧ Plain l ∧ EndsALine t := by
  induction buf with
  | nil => exact Or.inl nofun
  | cons c buf ih =>
    by_cases hc : EndsALine c
    · exact Or.inr ⟨[], c, buf, rfl, nofun, hc⟩
    · rcases ih with hplain | ⟨l, t, rest, rfl, hl, ht⟩
      · exact Or.inl (List.forall_mem_cons.mpr ⟨hc, hplain⟩)
      · exact Or.inr ⟨c :: l, t, rest, rfl, List.forall_mem_cons.mpr ⟨hc, hl⟩, ht⟩

theorem memchr_none {c : Byte} {l : List Byte} (h : c ∉ l) : memchr c l = none := by
  rw [memchr, List.findIdx?_eq_none_iff]
  intro d hd
  exact decide_eq_false fun heq => h (heq ▸ hd)

theorem memchr_append {c : Byte} {l : List Byte} (h : c ∉ l) (r : List Byte) :
    memchr c (l ++ r) = (memchr c r).map (· + l.length) := by
  have := memchr_none h
  unfold memchr at this ⊢
  rw [List.findIdx?_append, this]
  rfl

theorem memchr_cons_self (c : Byte) (r : List Byte) : memchr c (c :: r) = some 0 := by
  unfold memchr
  rw [List.findIdx?_cons, decide_eq_true rfl]
  rfl

theorem memchr_cons_ne {c d : Byte} (h : d ≠ c) (r : List Byte) :
    memchr c (d :: r) = (memchr c r).map (· + 1) := by
  unfold memchr
  rw [List.findIdx?_cons, decide_eq_false h]
  rfl

theorem Plain.not_mem {l : List Byte} (h : Plain l) {c : Byte} (hc : EndsALine c) : c ∉ l :=
  fun hmem => h c hmem hc

theorem Plain.append {l r : List Byte} (hl : Plain l) (hr : Plain r) : Plain (l ++ r) :=
  List.forall_mem_append.mpr ⟨hl, hr⟩

theorem stdoutEnd_plain {buf : List Byte} (h : Plain buf) : stdoutEnd buf = none := by
  rw [stdoutEnd, memchr_none (h.not_mem (Or.inl rfl)), memchr_none (h.not_mem (Or.inr rfl))]

/-- The end found is the first one. -/
theorem stdoutEnd_split {l rest : List Byte} {t : Byte} (hl : Plain l) (ht : EndsALine t) :
    stdoutEnd (l ++ t :: rest) = some l.length := by
  have h₁ := memchr_append (hl.not_mem (Or.inl rfl : EndsALine 10)) (t :: rest)
  have h₂ := memchr_append (hl.not_mem (Or.inr rfl : EndsALine 13)) (t :: rest)
  unfold stdoutEnd
  rcases ht with rfl | rfl
  · rw [memchr_cons_self] at h₁
    rw [memchr_cons_ne (by decide)] at h₂
    rw [h₁, h₂]
    cases memchr 13 rest with
    | none => simp
    | some p => simp
  · rw [memchr_cons_ne (by decide)] at h₁
    rw [memchr_cons_self] at h₂
    rw [h₁, h₂]
    cases memchr 10 rest with
    | none => simp
    | some p => simp

/-! ## What is returned of the whole text -/

/-- The lines of stdout when all of it is there. -/
def returned (last : Byte) (cur : List Byte) : List Byte → List (List Byte)
  | [] => []
  | c :: rest =>
    if EndsALine c then
      if cur = [] ∧ c ≠ last then returned c [] rest else cstr cur :: returned c [] rest
    else if cur = [] ∧ Mark c then [c] :: returned last [] rest
    else returned last (cur ++ [c]) rest

/-- The text does not begin with a mark where one would be looked for. -/
def Unmarked (cur l : List Byte) : Prop := cur = [] → ∀ c ∈ l.head?, ¬ Mark c

theorem unmarked_snoc (cur : List Byte) (c : Byte) (l : List Byte) : Unmarked (cur ++ [c]) l :=
  fun h => absurd h (List.append_ne_nil_of_right_ne_nil _ (List.cons_ne_nil _ _))

theorem returned_plain {last : Byte} {cur l : List Byte} (hl : Plain l) (hm : Unmarked cur l)
    (more : List Byte) : returned last cur (l ++ more) = returned last (cur ++ l) more := by
  induction l generalizing cur with
  | nil => rw [List.nil_append, List.append_nil]
  | cons c l ih =>
    obtain ⟨hc, hl⟩ := List.forall_mem_cons.mp hl
    have hmark : ¬ (cur = [] ∧ Mark c) := fun h => hm h.1 c rfl h.2
    rw [List.cons_append, returned, if_neg hc, if_neg hmark, ih hl (unmarked_snoc cur c l),
      List.append_assoc]
    rfl

theorem pieces_plain {marks : Bool} {cur l : List Byte} (hl : Plain l)
    (hm : marks = true → Unmarked cur l) (more : List Byte) :
    pieces marks cur (l ++ more) = pieces marks (cur ++ l) more := by
  induction l generalizing cur with
  | nil => rw [List.nil_append, List.append_nil]
  | cons c l ih =>
    obtain ⟨hc, hl⟩ := List.forall_mem_cons.mp hl
    have hmark : ¬ (marks = true ∧ cur = [] ∧ Mark c) := fun h => hm h.1 h.2.1 c rfl h.2.2
    rw [List.cons_append, pieces, if_neg hc, if_neg hmark,
      ih hl fun _ => unmarked_snoc cur c l, List.append_assoc]
    rfl

/-- What has been found of a line is part of it. -/
theorem exists_piece (marks : Bool) (cur more : List Byte) :
    ∃ l ∈ pieces marks cur more, cur.length ≤ l.text.length := by
  induction more generalizing cur with
  | nil => exact ⟨_, List.mem_singleton_self _, le_rfl⟩
  | cons c more ih =>
    rw [pieces]
    by_cases hc : EndsALine c
    · rw [if_pos hc]
      exact ⟨_, List.mem_cons_self .., le_rfl⟩
    · rw [if_neg hc]
      by_cases hm : marks = true ∧ cur = [] ∧ Mark c
      · rw [if_pos hm, hm.2.1]
        exact ⟨_, List.mem_cons_self .., Nat.zero_le _⟩
      · rw [if_neg hm]
        obtain ⟨l, hl, hle⟩ := ih (cur ++ [c])
        rw [List.length_append] at hle
        exact ⟨l, hl, by omega⟩

/-- What is taken from the buffer is taken from the text. -/
structure Taken (last : Byte) (buf : List Byte) (result : Option (List Byte) × Byte × List Byte) :
    Prop where
  shrinks : result.2.2.length + result.1.toList.length ≤ buf.length
  returned : ∀ more, returned last [] (buf ++ more) =
    result.1.toList ++ returned result.2.1 [] (result.2.2 ++ more)
  pieces : ∀ more, ∃ front, pieces true [] (buf ++ more) = front ++ pieces true [] (result.2.2 ++ more)
  left : result.1 = none → Plain result.2.2 ∧ Unmarked [] result.2.2 ∧
    stdoutLine result.2.1 result.2.2 = result

theorem taken_mark {last c : Byte} {rest : List Byte} (hc : Mark c) :
    Taken last (c :: rest) (some [c], last, rest) := by
  have hend : ¬ EndsALine c := by
    rcases hc with rfl | rfl <;> decide
  refine ⟨le_rfl, fun more => ?_, fun more => ⟨[⟨[c], []⟩], ?_⟩, nofun⟩
  · rw [List.cons_append, Query.returned, if_neg hend, if_pos ⟨rfl, hc⟩]
    rfl
  · rw [List.cons_append, Query.pieces, if_neg hend, if_pos ⟨rfl, rfl, hc⟩]
    rfl

theorem stdoutLine_taken (last : Byte) (buf : List Byte) : Taken last buf (stdoutLine last buf) := by
  induction buf generalizing last with
  | nil => exact ⟨le_rfl, fun _ => rfl, fun _ => ⟨[], rfl⟩, fun _ => ⟨nofun, nofun, rfl⟩⟩
  | cons c rest ih =>
    by_cases h4 : c = 4
    · rw [stdoutLine, if_pos h4, ← h4]
      exact taken_mark (Or.inl h4)
    by_cases h12 : c = 12
    · rw [stdoutLine, if_neg h4, if_pos h12, ← h12]
      exact taken_mark (Or.inr h12)
    have hmark : Unmarked [] (c :: rest) := by
      rintro - d hd hm
      cases hd
      rcases hm with hm | hm
      · exact h4 hm
      · exact h12 hm
    rcases plain_or_split (c :: rest) with hplain | ⟨l, t, rest', hsplit, hl, ht⟩
    · have hline : stdoutLine last (c :: rest) = (none, last, c :: rest) := by
        rw [stdoutLine, if_neg h4, if_neg h12, stdoutEnd_plain hplain]
      rw [hline]
      exact ⟨le_rfl, fun _ => rfl, fun _ => ⟨[], rfl⟩, fun _ => ⟨hplain, hmark, hline⟩⟩
    · cases l with
      | nil =>
        obtain ⟨rfl, rfl⟩ := List.cons.inj hsplit
        have hend : stdoutEnd (c :: rest) = some 0 := stdoutEnd_split (l := []) hl ht
        have hpieces : ∀ more, pieces true [] (c :: rest ++ more) =
            [⟨[], [c]⟩] ++ pieces true [] (rest ++ more) := by
          intro more
          rw [List.cons_append, Query.pieces, if_pos ht]
          rfl
        by_cases hlast : c ≠ last
        · -- the second half of the end of a line, or what is taken for it
          have hline : stdoutLine last (c :: rest) = stdoutLine c rest := by
            rw [stdoutLine, if_neg h4, if_neg h12, hend]
            exact if_pos hlast
          rw [hline]
          obtain ⟨hshrinks, hret, hpie, hleft⟩ := ih c
          refine ⟨hshrinks.trans (Nat.le_succ _), fun more => ?_, fun more => ?_, hleft⟩
          · rw [← hret more, List.cons_append, Query.returned, if_pos ht, if_pos ⟨rfl, hlast⟩]
          · obtain ⟨front, hfront⟩ := hpie more
            exact ⟨[⟨[], [c]⟩] ++ front, by rw [hpieces, hfront, List.append_assoc]⟩
        · have hline : stdoutLine last (c :: rest) = (some [], c, rest) := by
            rw [stdoutLine, if_neg h4, if_neg h12, hend]
            exact if_neg hlast
          rw [hline]
          refine ⟨le_rfl, fun more => ?_, fun more => ⟨_, hpieces more⟩, nofun⟩
          rw [List.cons_append, Query.returned, if_pos ht, if_neg fun h => hlast h.2]
          rfl
      | cons d l =>
        obtain ⟨rfl, hrest⟩ := List.cons.inj hsplit
        change rest = l ++ t :: rest' at hrest
        subst hrest
        have hend : stdoutEnd (c :: l ++ t :: rest') = some (c :: l).length := stdoutEnd_split hl ht
        have hline : stdoutLine last (c :: (l ++ t :: rest')) = (some (cstr (c :: l)), t, rest') := by
          rw [List.cons_append] at hend
          rw [stdoutLine, if_neg h4, if_neg h12, hend]
          have htake : (c :: (l ++ t :: rest')).take (l.length + 1) = c :: l :=
            congrArg (c :: ·) (List.take_left' rfl)
          have hget : (c :: (l ++ t :: rest')).getD (l.length + 1) 0 = t := by
            rw [List.getD_cons_succ, List.getD_append_right _ _ _ _ le_rfl, Nat.sub_self]
            rfl
          have hdrop : (l ++ t :: rest').drop (l.length + 1) = rest' := by
            rw [← List.drop_drop, List.drop_left' rfl]
            rfl
          change (some (cstr ((c :: (l ++ t :: rest')).take (l.length + 1))),
            (c :: (l ++ t :: rest')).getD (l.length + 1) 0,
            (l ++ t :: rest').drop (l.length + 1)) = _
          rw [htake, hget, hdrop]
        have hmark' : Unmarked [] (c :: l) := fun h e he => hmark h e he
        rw [hline]
        refine ⟨?_, fun more => ?_, fun more => ⟨[⟨c :: l, [t]⟩], ?_⟩, nofun⟩
        · simp only [Option.toList_some, List.length_cons, List.length_append, List.length_nil]
          omega
        · change Query.returned last [] ((c :: l) ++ t :: rest' ++ more) = _
          rw [List.append_assoc, returned_plain hl hmark', List.cons_append, Query.returned,
            if_pos ht, if_neg fun h => List.cons_ne_nil _ _ h.1]
          rfl
        · change Query.pieces true [] ((c :: l) ++ t :: rest' ++ more) = _
          rw [List.append_assoc, pieces_plain hl fun _ => hmark', List.cons_append, Query.pieces,
            if_pos ht]
          rfl

/-! ## Runs -/

theorem Short.left {buf more : List Byte} (h : Short true (buf ++ more)) (hp : Plain buf)
    (hm : Unmarked [] buf) : buf.length < bufferSize := by
  obtain ⟨l, hl, hle⟩ := exists_piece true buf more
  rw [← List.nil_append buf, ← pieces_plain hp fun _ => hm] at hl
  exact hle.trans_lt (h l hl)

theorem Short.rest {marks : Bool} {text rest : List Byte} {front : List Line} (h : Short marks text)
    (heq : pieces marks [] text = front ++ pieces marks [] rest) : Short marks rest :=
  fun l hl => h l (heq ▸ List.mem_append_right _ hl)

theorem scans_stdout : Scans stdoutLine (Short true) where
  idle last buf last' buf' hs := by
    have htaken := stdoutLine_taken last buf
    rw [hs] at htaken
    exact (htaken.left rfl).2.2
  shrinks last buf text last' buf' hs := by
    have htaken := stdoutLine_taken last buf
    rw [hs] at htaken
    exact htaken.shrinks
  keepsLine last buf text last' buf' more hs hshort := by
    have htaken := stdoutLine_taken last buf
    rw [hs] at htaken
    obtain ⟨front, hfront⟩ := htaken.pieces more
    exact hshort.rest hfront
  keepsNone last buf last' buf' more hs hshort := by
    have htaken := stdoutLine_taken last buf
    rw [hs] at htaken
    obtain ⟨front, hfront⟩ := htaken.pieces more
    have hrest := hshort.rest hfront
    obtain ⟨hp, hm, -⟩ := htaken.left rfl
    exact ⟨hrest, htaken.shrinks, hrest.left hp hm⟩

/-- Nothing is left to read at the end. -/
theorem Stream.read_done {s : Stream} {k : ℕ} (hroom : s.buf.length < bufferSize)
    (h : (s.read k).eof = true) : (s.read k).pending = [] := by
  change (s.pending.take _).isEmpty = true at h
  change s.pending.drop _ = []
  rw [List.isEmpty_iff, List.take_eq_nil_iff, min_eq_iff] at h
  rcases h with (⟨h, -⟩ | ⟨h, -⟩) | h
  · exact absurd h (Nat.succ_ne_zero k)
  · exact absurd hroom (not_lt.mpr (Nat.sub_eq_zero_iff_le.mp h))
  · rw [h, List.drop_nil]

/-- In whatever pieces it is delivered, stdout yields the same lines. -/
theorem Yields.stdout {s : Stream} {reads : List ℕ} {lines : List (List Byte)}
    (h : Yields stdoutLine s reads lines) (hshort : Short true (s.buf ++ s.pending))
    (hend : s.eof = true → s.pending = []) :
    lines = returned s.last [] (s.buf ++ s.pending) := by
  induction h with
  | @line s text last buf reads lines hs _ ih =>
    have htaken := stdoutLine_taken s.last s.buf
    rw [hs] at htaken
    rw [htaken.returned, ← ih (scans_stdout.keepsLine _ _ _ _ _ _ hs hshort) hend]
    rfl
  | @read s last buf k reads lines hs heof _ ih =>
    have htaken := stdoutLine_taken s.last s.buf
    rw [hs] at htaken
    obtain ⟨hrest, -, hroom⟩ := scans_stdout.keepsNone _ _ _ _ _ hs hshort
    rw [htaken.returned]
    have htext := Stream.read_text (s := { s with last, buf }) k
    have hlines := ih (by rw [htext]; exact hrest) (Stream.read_done hroom)
    rw [htext] at hlines
    exact hlines
  | @done s last buf reads hs heof =>
    have htaken := stdoutLine_taken s.last s.buf
    rw [hs] at htaken
    obtain ⟨hp, hm, -⟩ := htaken.left rfl
    rw [hend heof, htaken.returned, returned_plain hp hm]
    rfl

/-! ## Which lines there are -/

/-- The lines without the blank ones that are taken for the end of the line before. -/
def kept (last : Byte) : List Line → List Line
  | [] => []
  | l :: ls =>
    if l.text = [] ∧ l.ended.head? ≠ some last then kept (l.ended.getLast?.getD last) ls
    else l :: kept (l.ended.getLast?.getD last) ls

theorem kept_ended (last c : Byte) (cur e : List Byte) (ls : List Line) :
    kept last (⟨cur, c :: e⟩ :: ls) = if cur = [] ∧ c ≠ last then kept ((c :: e).getLast?.getD last) ls
      else ⟨cur, c :: e⟩ :: kept ((c :: e).getLast?.getD last) ls := by
  have hiff : (some c ≠ some last) ↔ c ≠ last := not_congr Option.some_inj
  rw [kept]
  simp only [List.head?_cons, hiff]

theorem kept_mark (last c : Byte) (ls : List Line) :
    kept last (⟨[c], []⟩ :: ls) = ⟨[c], []⟩ :: kept last ls := by
  rw [kept, if_neg fun h => List.cons_ne_nil _ _ h.1]
  rfl

/-- The blank lines that are lost are what makes the difference. -/
theorem returned_kept (last : Byte) (cur text : List Byte) :
    returned last cur text = (kept last (divide true cur text)).map fun l => cstr l.text := by
  have hmarked : ∀ c, Mark c → cstr [c] = [c] := by
    rintro c (rfl | rfl) <;> rfl
  induction cur, text using divide.induct true generalizing last with
  | case1 => rfl
  | case2 cur c hc =>
    rw [returned, divide, if_pos hc, if_pos hc, kept_ended]
    split_ifs <;> rfl
  | case3 cur c hc hm =>
    rw [returned, divide, if_neg hc, if_neg hc, if_pos hm, if_pos hm.2, kept_mark, List.map_cons,
      hmarked c hm.2.2]
    rfl
  | case4 cur c hc hm =>
    rw [returned, divide, if_neg hc, if_neg hc, if_neg hm, if_neg fun h => hm ⟨rfl, h⟩]
    rfl
  | case5 cur c d rest hc hd ih =>
    -- the second half is skipped, for the line has been ended by the first
    have hskip : returned c [] (d :: rest) = returned d [] rest := by
      rw [returned, if_pos hd.1, if_pos ⟨rfl, hd.2⟩]
    rw [returned, divide, if_pos hc, if_pos hc, if_pos hd, kept_ended, hskip, ih d]
    split_ifs <;> rfl
  | case6 cur c d rest hc hd ih =>
    rw [returned, divide, if_pos hc, if_pos hc, if_neg hd, kept_ended, ih c]
    split_ifs <;> rfl
  | case7 cur c d rest hc hm ih =>
    rw [returned, divide, if_neg hc, if_neg hc, if_pos hm, if_pos hm.2, kept_mark, List.map_cons,
      hmarked c hm.2.2, ih]
  | case8 cur c d rest hc hm ih =>
    rw [returned, divide, if_neg hc, if_neg hc, if_neg hm, if_neg fun h => hm ⟨rfl, h⟩, ih]

theorem kept_sublist (last : Byte) (ls : List Line) : (kept last ls).Sublist ls := by
  induction ls generalizing last with
  | nil => exact .slnil
  | cons l ls ih =>
    rw [kept]
    split_ifs
    · exact (ih _).cons l
    · exact (ih _).cons_cons l

/-- The text that is kept is the text itself if no line is lost and none contains a NUL. -/
theorem map_kept_iff (last : Byte) (ls : List Line) :
    ((kept last ls).map fun l => cstr l.text) = ls.map (·.text) ↔
      kept last ls = ls ∧ ∀ l ∈ ls, (0 : Byte) ∉ l.text := by
  constructor
  · intro h
    have hlen := congrArg List.length h
    rw [List.length_map, List.length_map] at hlen
    have heq := (kept_sublist last ls).eq_of_length hlen
    refine ⟨heq, fun l hl => ?_⟩
    rw [heq] at h
    exact cstr_eq_self.mp (List.map_inj_left.mp h l hl)
  · rintro ⟨hkept, htext⟩
    rw [hkept]
    exact List.map_congr_left fun l hl => cstr_eq_self.mpr (htext l hl)

/-- A blank line is kept when it begins with the byte that ended the line before. -/
theorem kept_iff (last : Byte) (ls : List Line) : kept last ls = ls ↔
    ∀ before e after, ls = before ++ ⟨[], e⟩ :: after →
      e.head? = some ((before.flatMap (·.ended)).getLast?.getD last) := by
  induction ls generalizing last with
  | nil =>
    refine ⟨fun _ before e after h => ?_, fun _ => rfl⟩
    exact absurd h (List.append_ne_nil_of_right_ne_nil _ (List.cons_ne_nil _ _)).symm
  | cons l ls ih =>
    have hlast : ∀ before : List Line, ((l :: before).flatMap (·.ended)).getLast?.getD last =
        (before.flatMap (·.ended)).getLast?.getD (l.ended.getLast?.getD last) := by
      intro before
      rw [List.flatMap_cons, List.getLast?_append]
      cases (before.flatMap (·.ended)).getLast? with
      | none => rw [Option.none_or, Option.getD_none]
      | some c => rfl
    rw [kept]
    by_cases hlost : l.text = [] ∧ l.ended.head? ≠ some last
    · rw [if_pos hlost]
      refine ⟨fun h => ?_, fun h => ?_⟩
      · have hle := (kept_sublist (l.ended.getLast?.getD last) ls).length_le
        rw [h, List.length_cons] at hle
        exact absurd hle (Nat.not_succ_le_self _)
      · refine absurd (h [] l.ended ls ?_) hlost.2
        rw [← hlost.1]
        rfl
    · rw [if_neg hlost, List.cons.injEq, eq_self_iff_true, true_and, ih]
      constructor
      · rintro h (_ | ⟨x, before⟩) e after heq
        · cases heq
          by_contra hne
          exact hlost ⟨rfl, hne⟩
        · obtain ⟨rfl, rfl⟩ := List.cons.inj heq
          rw [hlast]
          exact h before e after rfl
      · intro h before e after heq
        rw [← hlast]
        exact h (l :: before) e after (by rw [heq]; rfl)

/-- A line without an end is a mark. -/
theorem divide_blank {marks : Bool} {cur text : List Byte} {l : Line}
    (hl : l ∈ divide marks cur text) : l.text ≠ [] ∨ ∃ c, l.ended.head? = some c ∧ EndsALine c := by
  induction cur, text using divide.induct marks with
  | case1 => cases hl
  | case2 cur c hc =>
    rw [divide, if_pos hc, List.mem_singleton] at hl
    rw [hl]
    exact Or.inr ⟨c, rfl, hc⟩
  | case3 cur c hc hm =>
    rw [divide, if_neg hc, if_pos hm, List.mem_singleton] at hl
    rw [hl]
    exact Or.inl (List.cons_ne_nil _ _)
  | case4 cur c hc hm =>
    rw [divide, if_neg hc, if_neg hm] at hl
    cases hl
  | case5 cur c d rest hc hd ih =>
    rw [divide, if_pos hc, if_pos hd, List.mem_cons] at hl
    rcases hl with rfl | hl
    · exact Or.inr ⟨c, rfl, hc⟩
    · exact ih hl
  | case6 cur c d rest hc hd ih =>
    rw [divide, if_pos hc, if_neg hd, List.mem_cons] at hl
    rcases hl with rfl | hl
    · exact Or.inr ⟨c, rfl, hc⟩
    · exact ih hl
  | case7 cur c d rest hc hm ih =>
    rw [divide, if_neg hc, if_pos hm, List.mem_cons] at hl
    rcases hl with rfl | hl
    · exact Or.inl (List.cons_ne_nil _ _)
    · exact ih hl
  | case8 cur c d rest hc hm ih =>
    rw [divide, if_neg hc, if_neg hm] at hl
    exact ih hl

/-- What stdout must be like: no line contains a NUL, and every blank line begins with the byte that
ended the line before. -/
structure OutKept (out : List Byte) : Prop where
  text : ∀ l ∈ divide true [] out, (0 : Byte) ∉ l.text
  blank : ∀ before e after, divide true [] out = before ++ ⟨[], e⟩ :: after →
    e.head? = (before.flatMap (·.ended)).getLast?

theorem returned_iff (out : List Byte) :
    returned 0 [] out = (divide true [] out).map (·.text) ↔ OutKept out := by
  rw [returned_kept, map_kept_iff, kept_iff]
  have hends : ∀ before e after, divide true [] out = before ++ ⟨[], e⟩ :: after →
      (e.head? = some ((before.flatMap (·.ended)).getLast?.getD 0) ↔
        e.head? = (before.flatMap (·.ended)).getLast?) := by
    intro before e after heq
    have hmem : (⟨[], e⟩ : Line) ∈ divide true [] out := by
      rw [heq]
      exact List.mem_append_right _ (List.mem_cons_self ..)
    rcases divide_blank hmem with hne | ⟨c, hc, hend⟩
    · exact absurd rfl hne
    · have hzero : c ≠ 0 := by
        rintro rfl
        exact absurd hend (by decide)
      rw [show e.head? = some c from hc]
      cases (before.flatMap (·.ended)).getLast? with
      | none => exact iff_of_false (fun h => hzero (Option.some.inj h)) nofun
      | some d => rfl
  constructor
  · rintro ⟨hblank, htext⟩
    exact ⟨htext, fun before e after heq => (hends before e after heq).mp (hblank before e after heq)⟩
  · rintro ⟨htext, hblank⟩
    exact ⟨fun before e after heq => (hends before e after heq).mpr (hblank before e after heq), htext⟩

end Ppr.Query
