import Ppr.Libppr.QueryErr

/-!
# Lines in whatever pieces they come

When the lines that `query_getline()` returns are those of the text, however it is delivered.
-/

namespace Ppr.Query

/-- What stderr must be like: no line contains a NUL, no CR and LF stand next to each other, and a line
that ends in CR and the next one, if that ends in LF, do not fit into the buffer together. -/
structure ErrKept (err : List Byte) : Prop where
  text : ∀ l ∈ divide false [] err, (0 : Byte) ∉ l.text
  single : ∀ l ∈ divide false [] err, l.ended.length = 1
  apart : Apart (divide false [] err)

/-- However the streams are delivered, calls return their lines and then NULL. -/
def LinesKept (out err : List Byte) : Prop :=
  ∀ rounds, Enough rounds out err → ∀ n, out.length + err.length < n →
    ∃ lines, calls n rounds (connected out err) = (lines, .null) ∧
      linesOf false lines = (divide true [] out).map (·.text) ∧
      linesOf true lines = (divide false [] err).map (·.text)

/-- Calls do come to an end. -/
theorem calls_connected {out err : List Byte} (hout : Short true out) (herr : Short false err)
    {rounds : List Round} (henough : Enough rounds out err) {n : ℕ} (hn : out.length + err.length < n) :
    ∃ lines, calls n rounds (connected out err) = (lines, .null) ∧
      linesOf false lines = returned 0 [] out ∧
      Yields stderrLine { pending := err } (rounds.filterMap (·.err)) (linesOf true lines) := by
  have hsize : (connected out err).size = out.length + err.length := by
    change 0 + out.length + (0 + err.length) = _
    rw [zero_add, zero_add]
  obtain ⟨lines, hcalls, hyout, hyerr⟩ := calls_spec scans_stdout scans_stderr
    (s := connected out err) (ready_connected hout henough.1) (ready_connected herr henough.2)
    (hsize.trans_lt hn)
  exact ⟨lines, hcalls, hyout.stdout hout nofun, hyerr⟩

theorem ErrKept.lines {err : List Byte} (h : ErrKept err) (hshort : Short false err)
    {reads : List ℕ} {lines : List (List Byte)}
    (hy : Yields stderrLine { pending := err } reads lines) :
    lines = (divide false [] err).map (·.text) := by
  have hcut := divide_eq_cut h.single
  have happly := hy.stderr hshort nofun (Nat.zero_le _) (by
    change Apart (cut [] err)
    rw [← hcut]
    exact h.apart)
  change lines = (cut [] err).map _ at happly
  rw [happly, ← hcut]
  exact List.map_congr_left fun l hl => cstr_eq_self.mpr (h.text l hl)

/-- Stdout is read byte by byte, and stderr in the given pieces. -/
def slowly (reads : List ℕ) : List Round := reads.map fun k => ⟨some 0, some k⟩

theorem slowly_out (reads : List ℕ) : ((slowly reads).filterMap (·.out)).length = reads.length := by
  unfold slowly
  induction reads with
  | nil => rfl
  | cons k reads ih =>
    rw [List.map_cons, List.filterMap_cons]
    exact congrArg Nat.succ ih

theorem slowly_err (reads : List ℕ) : (slowly reads).filterMap (·.err) = reads := by
  unfold slowly
  induction reads with
  | nil => rfl
  | cons k reads ih =>
    rw [List.map_cons, List.filterMap_cons]
    exact congrArg (k :: ·) ih

theorem plain_leftover {cur : List Byte} (h : Plain cur) (text : List Byte) :
    Plain (leftover cur text) := by
  induction text generalizing cur with
  | nil => exact h
  | cons c text ih =>
    rw [leftover]
    split_ifs with hc
    · exact ih plain_nil
    · exact ih (h.append (List.forall_mem_singleton.mpr hc))

theorem cstr_append {l : List Byte} (h : (0 : Byte) ∉ l) {c : Byte} (hc : c ≠ 0) (r : List Byte) :
    cstr (l ++ c :: r) = l ++ c :: cstr r := by
  have hl : ∀ d ∈ l, decide (d ≠ (0 : Byte)) = true := by
    intro d hd
    exact decide_eq_true fun h0 => h (h0 ▸ hd)
  unfold cstr
  rw [List.takeWhile_append_of_pos hl, List.takeWhile_cons, if_pos (decide_eq_true hc)]

/-- A part of the lines that are cut is cut from a part of the text. -/
theorem cut_eq_append {text : List Byte} {xs ys : List Line} (h : cut [] text = xs ++ ys) :
    ∃ before after, text = before ++ after ∧ cut [] before = xs ∧ leftover [] before = [] ∧
      cut [] after = ys := by
  induction xs generalizing text with
  | nil => exact ⟨[], text, rfl, rfl, rfl, h⟩
  | cons x xs ih =>
    obtain ⟨t, rest, rfl, hx, hp, ht, hrest⟩ := cut_eq_cons h
    obtain ⟨before, after, rfl, hb, hl, ha⟩ := ih hrest
    refine ⟨x.text ++ t :: before, after, ?_, ?_, ?_, ha⟩
    · rw [List.append_assoc, List.cons_append]
    · rw [cut_split hp ht, hb, ← hx]
    · rw [leftover_split _ _ ht, hl]

/-- An LF that comes in one piece with a CR before it ends a line that goes on across the CR. -/
theorem Yields.block {last : Byte} {l l' rest : List Byte} {reads : List ℕ}
    {lines : List (List Byte)} (hl : Plain l) (hl' : Plain l')
    (hfit : l.length + l'.length + 2 ≤ bufferSize)
    (h : Yields stderrLine ⟨last, [], l ++ 13 :: (l' ++ 10 :: rest), false⟩
      ((l.length + l'.length + 1) :: reads) lines) :
    ∃ lines', lines = cstr (l ++ 13 :: l') :: lines' := by
  have hblock : l ++ 13 :: (l' ++ 10 :: rest) = (l ++ 13 :: l') ++ 10 :: rest := by
    rw [List.append_assoc, List.cons_append]
  have hread : Stream.read (l.length + l'.length + 1) ⟨last, [], l ++ 13 :: (l' ++ 10 :: rest), false⟩ =
      ⟨last, (l ++ 13 :: l') ++ [10], rest, false⟩ := by
    have hn : min (l.length + l'.length + 1 + 1) (bufferSize - 0) = ((l ++ 13 :: l') ++ [10]).length := by
      rw [Nat.sub_zero, min_eq_left hfit]
      simp only [List.length_append, List.length_cons, List.length_nil]
      omega
    have hsplit : l ++ 13 :: (l' ++ 10 :: rest) = ((l ++ 13 :: l') ++ [10]) ++ rest := by
      rw [hblock, List.append_assoc (l ++ 13 :: l') [10] rest]
      rfl
    simp only [Stream.read, List.length_nil, hn, hsplit, List.take_left, List.drop_left,
      List.nil_append]
    simp
  have hlf : (10 : Byte) ∉ l ++ 13 :: l' := by
    rw [List.mem_append, List.mem_cons, not_or, not_or]
    exact ⟨hl.not_mem (Or.inl rfl), by decide, hl'.not_mem (Or.inl rfl)⟩
  have hline : stderrLine last ((l ++ 13 :: l') ++ [10]) = (some (cstr (l ++ 13 :: l')), last, []) :=
    stderrLine_at (stderrEnd_lf hlf)
  have h₁ := h.read_inv (stderrLine_plain plain_nil) rfl
  change Yields stderrLine
    (Stream.read (l.length + l'.length + 1) ⟨last, [], l ++ 13 :: (l' ++ 10 :: rest), false⟩) _ _ at h₁
  rw [hread] at h₁
  obtain ⟨lines', rfl, -⟩ := h₁.line_inv hline
  exact ⟨lines', rfl⟩

/-- The lines are those of the text in whatever pieces it comes if, and only if, no line contains a NUL,
every blank line on stdout begins with the byte that ended the line before, and on stderr no CR and LF stand
next to each other and a line that ends in CR and the next one, if that ends in LF, do not fit into the
buffer together. -/
theorem linesKept_iff {out err : List Byte} (hout : Short true out) (herr : Short false err) :
    LinesKept out err ↔ OutKept out ∧ ErrKept err := by
  constructor
  · intro h
    have hslow : ∀ reads : List ℕ, out.length < reads.length → err.length < reads.length →
        OutKept out ∧
          Yields stderrLine { pending := err } reads ((divide false [] err).map (·.text)) := by
      intro reads hn hn'
      have henough : Enough (slowly reads) out err := by
        refine ⟨?_, ?_⟩
        · rwa [slowly_out]
        · rwa [slowly_err]
      obtain ⟨lines, hcalls, hlo, hy⟩ := calls_connected hout herr henough (Nat.lt_succ_self _)
      obtain ⟨lines', hcalls', hlo', hle'⟩ := h _ henough _ (Nat.lt_succ_self _)
      cases hcalls.symm.trans hcalls'
      rw [slowly_err, hle'] at hy
      exact ⟨(returned_iff out).mp (hlo.symm.trans hlo'), hy⟩
    have hpieces : ∀ front rest, err = front ++ rest →
        ∀ l ∈ pieces false [] (front ++ rest), l.text.length < bufferSize := by
      rintro front rest rfl
      exact herr
    obtain ⟨hkept, hy⟩ := hslow (List.replicate err.length 0 ++ List.replicate (out.length + 1) 0)
      (by simp only [List.length_append, List.length_replicate]; omega)
      (by simp only [List.length_append, List.length_replicate]; omega)
    refine ⟨hkept, ?_⟩
    -- byte by byte, all the lines that are cut are returned
    obtain ⟨lines', hlines, hrest⟩ := Yields.bytes plain_nil
      (hpieces err [] (List.append_nil _).symm) (by rw [List.append_nil]; exact hy)
    rw [hrest.end (plain_leftover plain_nil err) rfl, List.append_nil] at hlines
    have hlen : (cut [] err).length = (divide false [] err).length := by
      have := congrArg List.length hlines
      rw [List.length_map, List.length_map] at this
      exact this.symm
    have hsingle := single_of_length hlen
    have hcut := divide_eq_cut hsingle
    have htext : ∀ l ∈ divide false [] err, (0 : Byte) ∉ l.text := by
      intro l hl
      rw [← hcut] at hlines
      exact cstr_eq_self.mp (List.map_inj_left.mp hlines l hl).symm
    refine ⟨htext, hsingle, ?_⟩
    rintro l l' ⟨xs, ys, hin⟩ hl hl'
    by_contra hfit
    -- the two lines are delivered together
    have hcut' : cut [] err = xs ++ l :: l' :: ys := by
      rw [← hcut, ← hin, List.append_assoc]
      rfl
    obtain ⟨before, after, heq, hbefore, hleft, hafter⟩ := cut_eq_append hcut'
    obtain ⟨t, rest, rfl, ht, hp, -, hafter⟩ := cut_eq_cons hafter
    obtain ⟨t', rest', rfl, ht', hp', -, -⟩ := cut_eq_cons hafter
    cases ht.symm.trans hl
    cases ht'.symm.trans hl'
    obtain ⟨-, hy⟩ := hslow (List.replicate before.length 0 ++
        (l.text.length + l'.text.length + 1) :: List.replicate (out.length + err.length) 0)
      (by simp only [List.length_append, List.length_cons, List.length_replicate]; omega)
      (by simp only [List.length_append, List.length_cons, List.length_replicate]; omega)
    obtain ⟨lines', hlines, hrest⟩ := Yields.bytes plain_nil (hpieces _ _ heq) (by rw [← heq]; exact hy)
    rw [hleft] at hrest
    obtain ⟨lines'', rfl⟩ := hrest.block hp hp' (not_lt.mp hfit)
    have hmem : ∀ x ∈ xs, (0 : Byte) ∉ x.text := by
      intro x hx
      refine htext x ?_
      rw [hcut, hcut']
      exact List.mem_append_left _ hx
    have hfront : xs.map (fun l => cstr l.text) = xs.map (·.text) :=
      List.map_congr_left fun x hx => cstr_eq_self.mpr (hmem x hx)
    rw [hcut, hcut', List.map_append, hbefore, hfront] at hlines
    have hhead := (List.cons.inj (List.append_cancel_left hlines)).1
    have hnul : (0 : Byte) ∉ l.text := by
      refine htext l ?_
      rw [hcut, hcut']
      exact List.mem_append_right _ (List.mem_cons_self ..)
    rw [cstr_append hnul (by decide)] at hhead
    have hlen : l.text.length = (l.text ++ 13 :: cstr l'.text).length := congrArg List.length hhead
    rw [List.length_append, List.length_cons] at hlen
    omega
  · rintro ⟨hkept, hkept'⟩ rounds henough n hn
    obtain ⟨lines, hcalls, hlo, hy⟩ := calls_connected hout herr henough hn
    exact ⟨lines, hcalls, hlo.trans ((returned_iff out).mpr hkept), hkept'.lines herr hy⟩

theorem linesKept_iff_lf : LinesKept (ascii "ready\n\n") (ascii "warning\n") ↔
    OutKept (ascii "ready\n\n") ∧ ErrKept (ascii "warning\n") :=
  linesKept_iff (by unfold Short; decide) (by unfold Short; decide)

/-- A blank line between lines that end in CRLF is lost; and of two lines on stderr, of which one ends in CR
and one in LF, one line is made when they come together. -/
theorem lines_lost : (Short true [97, 13, 10, 13, 10, 98, 13, 10] ∧ Short false [] ∧
      ¬ LinesKept [97, 13, 10, 13, 10, 98, 13, 10] []) ∧
    Short true [] ∧ Short false [97, 13, 98, 10] ∧ ¬ LinesKept [] [97, 13, 98, 10] := by
  refine ⟨⟨by unfold Short; decide, by unfold Short; decide, fun h => ?_⟩, by unfold Short; decide,
    by unfold Short; decide, fun h => ?_⟩
  · obtain ⟨lines, hcalls, hout, -⟩ := h (slowly (List.replicate 9 0)) ⟨by decide, by decide⟩ 9
      (by decide)
    have hrun : calls 9 (slowly (List.replicate 9 0)) (connected [97, 13, 10, 13, 10, 98, 13, 10] []) =
      ([(false, [97]), (false, [98])], .null) := by
      decide +kernel
    cases hcalls.symm.trans hrun
    exact absurd hout (by decide)
  · obtain ⟨lines, hcalls, -, herr⟩ := h [⟨some 0, some 3⟩, ⟨some 0, some 0⟩, ⟨some 0, some 0⟩,
      ⟨some 0, some 0⟩, ⟨some 0, some 0⟩] ⟨by decide, by decide⟩ 5 (by decide)
    have hrun : calls 5 [⟨some 0, some 3⟩, ⟨some 0, some 0⟩, ⟨some 0, some 0⟩, ⟨some 0, some 0⟩,
      ⟨some 0, some 0⟩] (connected [] [97, 13, 98, 10]) = ([(true, [97, 13, 98])], .null) := by
      decide +kernel
    cases hcalls.symm.trans hrun
    exact absurd herr (by decide)

end Ppr.Query
