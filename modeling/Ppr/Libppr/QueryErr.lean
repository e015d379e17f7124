import Ppr.Libppr.QueryOut

/-!
# Lines on stderr

On stderr an LF anywhere in the buffer is found before a CR, and each of the bytes of CRLF ends a line.
So the lines are those of the text only if it has no such pairs and no CR is read together with an LF that
comes later.
-/

namespace Ppr.Query

/-! ## The text cut at every LF and CR -/

def cut (cur : List Byte) : List Byte → List Line
  | [] => []
  | c :: rest => if EndsALine c then ⟨cur, [c]⟩ :: cut [] rest else cut (cur ++ [c]) rest

/-- What is behind the last end of a line. -/
def leftover (cur : List Byte) : List Byte → List Byte
  | [] => cur
  | c :: rest => if EndsALine c then leftover [] rest else leftover (cur ++ [c]) rest

theorem leftover_split (l rest : List Byte) {t : Byte} (ht : EndsALine t) (cur : List Byte) :
    leftover cur (l ++ t :: rest) = leftover [] rest := by
  induction l generalizing cur with
  | nil => rw [List.nil_append, leftover, if_pos ht]
  | cons c l ih =>
    rw [List.cons_append, leftover]
    split_ifs
    · exact ih []
    · exact ih _

theorem plain_nil : Plain [] := fun _ h => absurd h List.not_mem_nil

theorem pieces_cut (cur text : List Byte) :
    pieces false cur text = cut cur text ++ [⟨leftover cur text, []⟩] := by
  induction text generalizing cur with
  | nil => rfl
  | cons c rest ih =>
    rw [pieces, cut, leftover]
    by_cases hc : EndsALine c
    · rw [if_pos hc, if_pos hc, if_pos hc, ih]
      rfl
    · rw [if_neg hc, if_neg hc, if_neg hc, if_neg fun h => Bool.false_ne_true h.1, ih]

theorem cut_plain {cur l : List Byte} (hl : Plain l) (more : List Byte) :
    cut cur (l ++ more) = cut (cur ++ l) more := by
  induction l generalizing cur with
  | nil => rw [List.nil_append, List.append_nil]
  | cons c l ih =>
    obtain ⟨hc, hl⟩ := List.forall_mem_cons.mp hl
    rw [List.cons_append, cut, if_neg hc, ih hl, List.append_assoc]
    rfl

theorem cut_split {l rest : List Byte} {t : Byte} (hl : Plain l) (ht : EndsALine t) :
    cut [] (l ++ t :: rest) = ⟨l, [t]⟩ :: cut [] rest := by
  rw [cut_plain hl, List.nil_append, cut, if_pos ht]

/-- The first line, and what it is a line of. -/
theorem cut_eq_cons {text : List Byte} {x : Line} {xs : List Line} (h : cut [] text = x :: xs) :
    ∃ t rest, text = x.text ++ t :: rest ∧ x.ended = [t] ∧ Plain x.text ∧ EndsALine t ∧
      cut [] rest = xs := by
  rcases plain_or_split text with hplain | ⟨l, t, rest, rfl, hl, ht⟩
  · rw [← List.append_nil text, cut_plain hplain] at h
    cases h
  · rw [cut_split hl ht] at h
    cases h
    exact ⟨t, rest, rfl, rfl, hl, ht, rfl⟩

/-- The lines are cut again where they were paired. -/
theorem cut_length (cur text : List Byte) :
    (cut cur text).length = ((divide false cur text).map fun l => l.ended.length).sum := by
  induction cur, text using divide.induct false with
  | case1 => rfl
  | case2 cur c hc =>
    rw [cut, divide, if_pos hc, if_pos hc]
    rfl
  | case3 cur c hc hm => exact absurd hm.1 Bool.false_ne_true
  | case4 cur c hc hm =>
    rw [cut, divide, if_neg hc, if_neg hc, if_neg hm]
    rfl
  | case5 cur c d rest hc hd ih =>
    rw [cut, divide, if_pos hc, if_pos hc, if_pos hd, cut, if_pos hd.1, List.length_cons,
      List.length_cons, ih, List.map_cons, List.sum_cons]
    simp only [List.length_cons, List.length_nil]
    omega
  | case6 cur c d rest hc hd ih =>
    rw [cut, divide, if_pos hc, if_pos hc, if_neg hd, List.length_cons, ih, List.map_cons,
      List.sum_cons, Nat.add_comm]
    rfl
  | case7 cur c d rest hc hm ih => exact absurd hm.1 Bool.false_ne_true
  | case8 cur c d rest hc hm ih => rw [cut, divide, if_neg hc, if_neg hc, if_neg hm, ih]

theorem divide_ended {cur text : List Byte} {l : Line} (hl : l ∈ divide false cur text) :
    1 ≤ l.ended.length := by
  induction cur, text using divide.induct false with
  | case1 => cases hl
  | case2 cur c hc =>
    rw [divide, if_pos hc, List.mem_singleton] at hl
    rw [hl]
    exact le_rfl
  | case3 cur c hc hm => exact absurd hm.1 Bool.false_ne_true
  | case4 cur c hc hm =>
    rw [divide, if_neg hc, if_neg hm] at hl
    cases hl
  | case5 cur c d rest hc hd ih =>
    rw [divide, if_pos hc, if_pos hd, List.mem_cons] at hl
    rcases hl with rfl | hl
    · exact Nat.le_succ _
    · exact ih hl
  | case6 cur c d rest hc hd ih =>
    rw [divide, if_pos hc, if_neg hd, List.mem_cons] at hl
    rcases hl with rfl | hl
    · exact le_rfl
    · exact ih hl
  | case7 cur c d rest hc hm ih => exact absurd hm.1 Bool.false_ne_true
  | case8 cur c d rest hc hm ih =>
    rw [divide, if_neg hc, if_neg hm] at hl
    exact ih hl

/-- Without pairs the lines are those cut at every LF and CR. -/
theorem divide_eq_cut {cur text : List Byte} (h : ∀ l ∈ divide false cur text, l.ended.length = 1) :
    divide false cur text = cut cur text := by
  induction cur, text using divide.induct false with
  | case1 => rfl
  | case2 cur c hc =>
    rw [cut, divide, if_pos hc, if_pos hc]
    rfl
  | case3 cur c hc hm => exact absurd hm.1 Bool.false_ne_true
  | case4 cur c hc hm =>
    rw [cut, divide, if_neg hc, if_neg hc, if_neg hm]
    rfl
  | case5 cur c d rest hc hd ih =>
    rw [divide, if_pos hc, if_pos hd] at h
    exact absurd (Nat.succ.inj (h _ (List.mem_cons_self ..))) Nat.one_ne_zero
  | case6 cur c d rest hc hd ih =>
    rw [divide, if_pos hc, if_neg hd] at h
    rw [cut, divide, if_pos hc, if_pos hc, if_neg hd, ih fun l hl => h l (List.mem_cons_of_mem _ hl)]
  | case7 cur c d rest hc hm ih => exact absurd hm.1 Bool.false_ne_true
  | case8 cur c d rest hc hm ih =>
    rw [divide, if_neg hc, if_neg hm] at h
    rw [cut, divide, if_neg hc, if_neg hc, if_neg hm, ih h]

theorem sum_eq_length {l : List ℕ} (hpos : ∀ n ∈ l, 1 ≤ n) (hsum : l.sum = l.length) :
    ∀ n ∈ l, n = 1 := by
  induction l with
  | nil => exact nofun
  | cons n l ih =>
    obtain ⟨hn, hl⟩ := List.forall_mem_cons.mp hpos
    have hle : l.length ≤ l.sum := by
      have := List.card_nsmul_le_sum l 1 hl
      rwa [smul_eq_mul, mul_one] at this
    rw [List.sum_cons, List.length_cons] at hsum
    exact List.forall_mem_cons.mpr ⟨by omega, ih hl (by omega)⟩

/-- There are as many lines cut as paired only if none are paired. -/
theorem single_of_length {text : List Byte} (h : (cut [] text).length = (divide false [] text).length) :
    ∀ l ∈ divide false [] text, l.ended.length = 1 := by
  rw [cut_length] at h
  have hall := sum_eq_length (l := (divide false [] text).map fun l => l.ended.length)
    (fun n hn => by
      obtain ⟨l, hl, rfl⟩ := List.mem_map.mp hn
      exact divide_ended hl) (by rw [h, List.length_map])
  exact fun l hl => hall _ (List.mem_map.mpr ⟨l, hl, rfl⟩)

/-! ## Searching -/

theorem stderrEnd_plain {buf : List Byte} (h : Plain buf) : stderrEnd buf = none := by
  rw [stderrEnd, memchr_none (h.not_mem (Or.inl rfl)), memchr_none (h.not_mem (Or.inr rfl))]

/-- An LF is found, also behind a CR. -/
theorem stderrEnd_lf {l rest : List Byte} (hl : (10 : Byte) ∉ l) :
    stderrEnd (l ++ 10 :: rest) = some l.length := by
  have h := memchr_append hl (10 :: rest)
  rw [memchr_cons_self] at h
  rw [stderrEnd, h]
  simp

/-- A CR is found when there is no LF. -/
theorem stderrEnd_cr {l rest : List Byte} (hl : Plain l) (hrest : (10 : Byte) ∉ rest) :
    stderrEnd (l ++ 13 :: rest) = some l.length := by
  have h := memchr_append (hl.not_mem (Or.inr rfl : EndsALine 13)) (13 :: rest)
  have hnone : (10 : Byte) ∉ l ++ 13 :: rest := by
    rw [List.mem_append, List.mem_cons, not_or, not_or]
    exact ⟨hl.not_mem (Or.inl rfl), by decide, hrest⟩
  rw [memchr_cons_self] at h
  rw [stderrEnd, memchr_none hnone]
  dsimp only
  rw [h]
  simp

theorem stderrLine_at {last : Byte} {l rest : List Byte} {t : Byte}
    (h : stderrEnd (l ++ t :: rest) = some l.length) :
    stderrLine last (l ++ t :: rest) = (some (cstr l), last, rest) := by
  unfold stderrLine
  rw [h]
  dsimp only
  rw [List.take_left' rfl, ← List.drop_drop, List.drop_left' rfl]
  rfl

theorem stderrLine_plain {last : Byte} {buf : List Byte} (h : Plain buf) :
    stderrLine last buf = (none, last, buf) := by
  unfold stderrLine
  rw [stderrEnd_plain h]

theorem scans_stderr : Scans stderrLine (Short false) := by
  -- whatever is found ends in an LF or a CR
  have hfound : ∀ buf p, stderrEnd buf = some p →
      ∃ l t rest, buf = l ++ t :: rest ∧ l.length = p ∧ EndsALine t := by
    intro buf p hp
    have hmem : ∀ c : Byte, EndsALine c → memchr c buf = some p →
        ∃ l t rest, buf = l ++ t :: rest ∧ l.length = p ∧ EndsALine t := by
      intro c hc hm
      obtain ⟨hlt, hget, -⟩ := List.findIdx?_eq_some_iff_getElem.mp hm
      refine ⟨buf.take p, buf[p], buf.drop (p + 1), ?_, List.length_take_of_le hlt.le, ?_⟩
      · rw [List.getElem_cons_drop, List.take_append_drop]
      · rw [of_decide_eq_true hget]
        exact hc
    unfold stderrEnd at hp
    split at hp
    · next q hq =>
      cases hp
      exact hmem 10 (Or.inl rfl) hq
    · exact hmem 13 (Or.inr rfl) hp
  have hcut : ∀ (l rest : List Byte) (t : Byte), EndsALine t →
      ∀ cur, ∃ front, pieces false cur (l ++ t :: rest) = front ++ pieces false [] rest := by
    intro l rest t ht
    induction l with
    | nil =>
      intro cur
      refine ⟨[⟨cur, [t]⟩], ?_⟩
      rw [List.nil_append, pieces, if_pos ht]
      rfl
    | cons c l ih =>
      intro cur
      rw [List.cons_append, pieces]
      by_cases hc : EndsALine c
      · obtain ⟨front, hfront⟩ := ih []
        exact ⟨⟨cur, [c]⟩ :: front, by rw [if_pos hc, hfront]; rfl⟩
      · rw [if_neg hc, if_neg fun h => Bool.false_ne_true h.1]
        exact ih _
  have hline : ∀ last buf text last' buf', stderrLine last buf = (some text, last', buf') →
      ∃ l t, buf = l ++ t :: buf' ∧ EndsALine t := by
    intro last buf text last' buf' hs
    unfold stderrLine at hs
    split at hs
    · next p hp =>
      obtain ⟨l, t, rest, rfl, rfl, ht⟩ := hfound buf p hp
      cases hs
      refine ⟨l, t, ?_, ht⟩
      rw [← List.drop_drop, List.drop_left' rfl]
      rfl
    · cases hs
  have hnone : ∀ last buf last' buf', stderrLine last buf = (none, last', buf') →
      last' = last ∧ buf' = buf ∧ Plain buf := by
    intro last buf last' buf' hs
    rcases plain_or_split buf with hplain | ⟨l, t, rest, rfl, hl, ht⟩
    · rw [stderrLine_plain hplain] at hs
      cases hs
      exact ⟨rfl, rfl, hplain⟩
    · exfalso
      unfold stderrLine at hs
      split at hs
      · cases hs
      · next hend =>
        unfold stderrEnd at hend
        split at hend
        · cases hend
        · next h10 =>
          rw [memchr, List.findIdx?_eq_none_iff] at h10 hend
          have hmem : t ∈ l ++ t :: rest := List.mem_append_right _ (List.mem_cons_self ..)
          rcases ht with rfl | rfl
          · exact absurd (h10 _ hmem) (by decide)
          · exact absurd (hend _ hmem) (by decide)
  refine ⟨?_, ?_, ?_, ?_⟩
  · intro last buf last' buf' hs
    obtain ⟨rfl, rfl, -⟩ := hnone _ _ _ _ hs
    exact hs
  · intro last buf text last' buf' hs
    obtain ⟨l, t, rfl, -⟩ := hline _ _ _ _ _ hs
    rw [List.length_append, List.length_cons]
    omega
  · intro last buf text last' buf' more hs hshort
    obtain ⟨l, t, rfl, ht⟩ := hline _ _ _ _ _ hs
    rw [List.append_assoc, List.cons_append] at hshort
    obtain ⟨front, hfront⟩ := hcut l (buf' ++ more) t ht []
    exact hshort.rest hfront
  · intro last buf last' buf' more hs hshort
    obtain ⟨rfl, rfl, hplain⟩ := hnone _ _ _ _ hs
    refine ⟨hshort, le_rfl, ?_⟩
    obtain ⟨l, hl, hle⟩ := exists_piece false buf' more
    rw [← List.nil_append buf', ← pieces_plain hplain fun h => absurd h Bool.false_ne_true] at hl
    exact hle.trans_lt (hshort l hl)

/-! ## Lines that are far enough apart -/

/-- A line that ends in CR and the next one, if that ends in LF, do not fit into the buffer together. -/
def Apart (ls : List Line) : Prop :=
  ∀ l l', [l, l'] <:+: ls → l.ended = [13] → l'.ended = [10] →
    bufferSize < l.text.length + l'.text.length + 2

theorem Apart.tail {l : Line} {ls : List Line} (h : Apart (l :: ls)) : Apart ls :=
  fun u u' hin => h u u' (List.infix_cons hin)

/-- Some line that ends in CR comes before the first one that ends in LF. -/
theorem cr_then_lf (n : ℕ) {l rest : List Byte} (hn : rest.length ≤ n) (hl : Plain l)
    (hlf : (10 : Byte) ∈ rest) (more : List Byte) :
    ∃ u u', [u, u'] <:+: cut [] (l ++ 13 :: (rest ++ more)) ∧ u.ended = [13] ∧ u'.ended = [10] ∧
      u.text.length + u'.text.length + 2 ≤ l.length + 1 + rest.length := by
  induction n generalizing l rest with
  | zero =>
    rw [List.length_eq_zero_iff.mp (Nat.le_zero.mp hn)] at hlf
    cases hlf
  | succ n ih =>
    rcases plain_or_split rest with hplain | ⟨l₂, t, rest₂, rfl, hl₂, ht⟩
    · exact absurd (Or.inl rfl) (hplain 10 hlf)
    · rw [List.length_append, List.length_cons] at hn ⊢
      rw [cut_split hl (Or.inr rfl), List.append_assoc, List.cons_append]
      rcases ht with rfl | rfl
      · rw [cut_split hl₂ (Or.inl rfl)]
        refine ⟨⟨l, [13]⟩, ⟨l₂, [10]⟩, ⟨[], _, rfl⟩, rfl, rfl, ?_⟩
        dsimp only
        omega
      · have hlf₂ : (10 : Byte) ∈ rest₂ := by
          rcases List.mem_append.mp hlf with hmem | hmem
          · exact absurd (Or.inl rfl) (hl₂ 10 hmem)
          · exact (List.mem_cons.mp hmem).resolve_left (by decide)
        obtain ⟨u, u', hin, hu, hu', hle⟩ := ih (by omega) hl₂ hlf₂
        exact ⟨u, u', List.infix_cons hin, hu, hu', by omega⟩

/-- Then what is found in the buffer is the first end of a line. -/
theorem stderrEnd_first {l rest more : List Byte} {t : Byte} (hl : Plain l) (ht : EndsALine t)
    (hfit : (l ++ t :: rest).length ≤ bufferSize) (hapart : Apart (cut [] (l ++ t :: rest ++ more))) :
    stderrEnd (l ++ t :: rest) = some l.length := by
  rcases ht with rfl | rfl
  · exact stderrEnd_lf (hl.not_mem (Or.inl rfl))
  · by_cases hlf : (10 : Byte) ∈ rest
    · obtain ⟨u, u', hin, hu, hu', hle⟩ := cr_then_lf rest.length le_rfl hl hlf more
      rw [List.append_assoc, List.cons_append] at hapart
      have := hapart u u' hin hu hu'
      rw [List.length_append, List.length_cons] at hfit
      omega
    · exact stderrEnd_cr hl hlf

theorem Stream.read_fits {s : Stream} {k : ℕ} (h : s.buf.length ≤ bufferSize) :
    (s.read k).buf.length ≤ bufferSize := by
  change (s.buf ++ s.pending.take _).length ≤ _
  have hle : (s.pending.take (min (k + 1) (bufferSize - s.buf.length))).length ≤
      bufferSize - s.buf.length :=
    (List.length_take_le _ _).trans (min_le_right _ _)
  rw [List.length_append]
  omega

/-- In whatever pieces it is delivered, stderr yields the lines that are cut. -/
theorem Yields.stderr {s : Stream} {reads : List ℕ} {lines : List (List Byte)}
    (h : Yields stderrLine s reads lines) (hshort : Short false (s.buf ++ s.pending))
    (hend : s.eof = true → s.pending = []) (hfit : s.buf.length ≤ bufferSize)
    (hapart : Apart (cut [] (s.buf ++ s.pending))) :
    lines = (cut [] (s.buf ++ s.pending)).map fun l => cstr l.text := by
  induction h with
  | @line s text last buf reads lines hs _ ih =>
    rcases plain_or_split s.buf with hplain | ⟨l, t, rest, hbuf, hl, ht⟩
    · rw [stderrLine_plain hplain] at hs
      cases hs
    · rw [hbuf] at hfit hapart hshort
      rw [hbuf, stderrLine_at (stderrEnd_first hl ht hfit hapart), Prod.mk.injEq, Prod.mk.injEq,
        Option.some.injEq] at hs
      obtain ⟨rfl, rfl, rfl⟩ := hs
      have hcut : cut [] (l ++ t :: rest ++ s.pending) = ⟨l, [t]⟩ :: cut [] (rest ++ s.pending) := by
        rw [List.append_assoc, List.cons_append, cut_split hl ht]
      rw [hcut] at hapart
      rw [hbuf, hcut, List.map_cons]
      rw [List.length_append, List.length_cons] at hfit
      refine congrArg _ (ih ?_ hend ?_ hapart.tail)
      · rw [List.append_assoc, List.cons_append] at hshort
        refine hshort.rest (?_ : _ = [(⟨l, [t]⟩ : Line)] ++ _)
        rw [pieces_cut, pieces_cut, cut_split hl ht]
        have hleft : leftover [] (l ++ t :: (rest ++ s.pending)) = leftover [] (rest ++ s.pending) :=
          leftover_split l _ ht []
        rw [hleft]
        rfl
      · dsimp only
        omega
  | @read s last buf k reads lines hs heof _ ih =>
    have hnone := scans_stderr.keepsNone _ _ _ _ _ hs hshort
    have hsame : last = s.last ∧ buf = s.buf := by
      unfold stderrLine at hs
      split at hs
      · cases hs
      · cases hs
        exact ⟨rfl, rfl⟩
    obtain ⟨rfl, rfl⟩ := hsame
    have htext := Stream.read_text (s := s) k
    have hlines := ih (htext ▸ hshort) (Stream.read_done hnone.2.2) (Stream.read_fits hfit)
      (htext ▸ hapart)
    rw [htext] at hlines
    exact hlines
  | @done s last buf reads hs heof =>
    rw [hend heof, List.append_nil]
    rcases plain_or_split s.buf with hplain | ⟨l, t, rest, hbuf, hl, ht⟩
    · rw [← List.append_nil s.buf, cut_plain hplain]
      rfl
    · rw [hend heof, List.append_nil, hbuf] at hapart
      rw [hbuf] at hfit hs
      have hfirst := @stderrEnd_first l rest [] t hl ht hfit (by rwa [List.append_nil])
      rw [stderrLine_at hfirst] at hs
      cases hs

/-! ## Byte by byte -/

/-- A text that comes byte by byte is cut at every LF and CR. -/
theorem Yields.bytes {front rest : List Byte} {last : Byte} {reads : List ℕ}
    {lines : List (List Byte)} {buf : List Byte} (hbuf : Plain buf)
    (hshort : ∀ l ∈ pieces false buf (front ++ rest), l.text.length < bufferSize)
    (h : Yields stderrLine ⟨last, buf, front ++ rest, false⟩
      (List.replicate front.length 0 ++ reads) lines) :
    ∃ lines', lines = (cut buf front).map (fun l => cstr l.text) ++ lines' ∧
      Yields stderrLine ⟨last, leftover buf front, rest, false⟩ reads lines' := by
  induction front generalizing buf lines with
  | nil => exact ⟨lines, rfl, h⟩
  | cons c front ih =>
    have hroom : buf.length < bufferSize := by
      obtain ⟨l, hl, hle⟩ := exists_piece false buf (c :: front ++ rest)
      exact hle.trans_lt (hshort l hl)
    have hread : Stream.read 0 ⟨last, buf, c :: front ++ rest, false⟩ =
        ⟨last, buf ++ [c], front ++ rest, false⟩ := by
      have hone : min (0 + 1) (bufferSize - buf.length) = 1 := min_eq_left (by omega)
      simp only [Stream.read, hone]
      rfl
    rw [cut, leftover]
    rw [List.cons_append, pieces] at hshort
    rw [List.length_cons, List.replicate_succ, List.cons_append] at h
    have h₁ := h.read_inv (stderrLine_plain hbuf) rfl
    change Yields stderrLine (Stream.read 0 ⟨last, buf, c :: front ++ rest, false⟩) _ _ at h₁
    rw [hread] at h₁
    by_cases hc : EndsALine c
    · have hline : stderrLine last (buf ++ [c]) = (some (cstr buf), last, []) := by
        refine stderrLine_at ?_
        rcases hc with rfl | rfl
        · exact stderrEnd_lf (hbuf.not_mem (Or.inl rfl))
        · exact stderrEnd_cr hbuf List.not_mem_nil
      rw [if_pos hc] at hshort
      rw [if_pos hc, if_pos hc]
      obtain ⟨lines₁, rfl, h₂⟩ := h₁.line_inv hline
      obtain ⟨lines', rfl, hrest⟩ := ih plain_nil (fun l hl => hshort l (List.mem_cons_of_mem _ hl)) h₂
      exact ⟨lines', rfl, hrest⟩
    · rw [if_neg hc, if_neg fun h => Bool.false_ne_true h.1] at hshort
      rw [if_neg hc, if_neg hc]
      exact ih (hbuf.append (List.forall_mem_singleton.mpr hc)) hshort h₁

/-- At the end there is nothing more. -/
theorem Yields.end {s : Stream} {reads : List ℕ} {lines : List (List Byte)}
    (h : Yields stderrLine s reads lines) (hbuf : Plain s.buf) (hp : s.pending = []) : lines = [] := by
  induction h with
  | line hs _ _ =>
    rw [stderrLine_plain hbuf] at hs
    cases hs
  | @read s last buf k reads lines hs _ _ ih =>
    rw [stderrLine_plain hbuf] at hs
    cases hs
    have hread : (s.read k).buf = s.buf := by
      change s.buf ++ s.pending.take _ = s.buf
      rw [hp, List.take_nil, List.append_nil]
    refine ih ?_ ?_
    · change Plain (s.read k).buf
      rwa [hread]
    · change s.pending.drop _ = []
      rw [hp, List.drop_nil]
  | done => rfl

end Ppr.Query
