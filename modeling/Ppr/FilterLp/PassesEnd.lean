import Ppr.FilterLp.ReadersEnd

/-!
# The passes end

Both passes read the same lines and come to their ends in the arrays exactly if nothing is printed in front of the
first column, or, with FORTRAN carriage control, if the input is records with a newline behind each.
-/

namespace Ppr.FilterLp

/-! ## Writing a line -/

theorem length_takeWhile_le {α : Type} {p : α → Bool} {l : List α} {k : ℕ} {a : α} (h : l[k]? = some a) (ha : p a = false) :
    (l.takeWhile p).length ≤ k := by
  induction l generalizing k with
  | nil => exact Nat.zero_le _
  | cons b l ih =>
    cases k with
    | zero =>
      have hb : b = a := Option.some.inj h
      rw [List.takeWhile_cons_of_neg (by rw [hb, ha]; exact Bool.false_ne_true)]
      exact le_rfl
    | succ k =>
      rw [List.takeWhile_cons]
      split_ifs
      · exact Nat.succ_le_succ (ih h)
      · exact Nat.zero_le _

/-- There is a 0 behind the line, and there are attributes up to it. -/
structure Closed (cells : List ℕ) (lineAttr : List Byte) (z : ℕ) : Prop where
  zero : cells[z]? = some 0
  attr : z < lineAttr.length

section Writing

variable {cells : List ℕ} {lineAttr : List Byte} {z : ℕ}

theorem Closed.lt (h : Closed cells lineAttr z) : z < cells.length := (List.getElem?_eq_some_iff.1 h.zero).1

theorem wcsspn_spec (h : Closed cells lineAttr z) {i : ℕ} (hi : i ≤ z) : ∃ n, wcsspn cells i = .ok n ∧ i + n ≤ z := by
  have hlt := h.lt
  have hdrop : (cells.drop i)[z - i]? = some 0 := by
    rw [List.getElem?_drop, Nat.add_sub_cancel' hi]
    exact h.zero
  have hle : ((cells.drop i).takeWhile (· = 32)).length ≤ z - i := length_takeWhile_le hdrop rfl
  refine ⟨((cells.drop i).takeWhile (· = 32)).length, ?_, by omega⟩
  rw [wcsspn, if_pos (by omega)]

theorem peek_closed (h : Closed cells lineAttr z) {i : ℕ} (hi : i ≤ z) :
    ∃ c, peek cells (i : ℤ) = .ok c ∧ (c ≠ 0 → i < z) := by
  have hlt := h.lt
  rcases Nat.lt_or_eq_of_le hi with hi | rfl
  · obtain ⟨c, hc⟩ : ∃ c, peek cells (i : ℤ) = .ok c := peek_ok (Int.natCast_nonneg i) (by omega)
    exact ⟨c, hc, fun _ => hi⟩
  · exact ⟨0, peek_eq h.zero rfl, fun h => absurd rfl h⟩

theorem peek_attr (h : Closed cells lineAttr z) {i : ℕ} (hi : i ≤ z) : ∃ a, peek lineAttr (i : ℤ) = .ok a := by
  have hlt := h.attr
  exact peek_ok (Int.natCast_nonneg i) (by omega)

theorem underscores_spec (h : Closed cells lineAttr z) (skip n x : ℕ) (hle : skip + x + n ≤ z) :
    ∃ out, underscores skip n x cells = .ok out ∧ out.length = cells.length ∧ Closed out lineAttr z := by
  induction n generalizing x cells with
  | zero => exact ⟨cells, rfl, rfl, h⟩
  | succ n ih =>
    have hlt := h.lt
    have hpoke : poke cells ((skip + x : ℕ) : ℤ) 95 = .ok (cells.set (skip + x) 95) :=
      poke_ok (Int.natCast_nonneg _) (by omega) 95
    have hclosed : Closed (cells.set (skip + x) 95) lineAttr z := by
      refine ⟨?_, h.attr⟩
      rw [List.getElem?_set_ne (by omega)]
      exact h.zero
    obtain ⟨out, hout, hlen, hz⟩ := ih hclosed (x + 1) (by omega)
    refine ⟨out, ?_, by simpa using hlen, hz⟩
    rw [underscores, hpoke]
    exact hout

theorem underlineEnd_spec {u : Underlining} (h : Closed u.line lineAttr z) {skip index start : ℕ}
    (hindex : skip + index ≤ z) (hstart : start ≤ index) :
    ∃ u', underlineEnd skip index start u = .ok u' ∧ u'.line.length = u.line.length ∧ Closed u'.line lineAttr z ∧
      u'.ulstart = none := by
  rw [underlineEnd]
  by_cases hcommand : u.ul = true ∨ 7 < index - start
  · rw [if_pos hcommand]
    exact ⟨_, rfl, rfl, h, rfl⟩
  · obtain ⟨out, hout, hlen, hz⟩ := underscores_spec h skip (index - start) start (by omega)
    rw [if_neg hcommand, hout]
    exact ⟨_, rfl, hlen, hz, rfl⟩

/-- One round, which goes on only in front of the end of the line. -/
theorem underlineStep_spec {u : Underlining} (h : Closed u.line lineAttr z) {skip index : ℕ} (hindex : skip + index ≤ z)
    (hstart : ∀ start ∈ u.ulstart, start ≤ index) :
    ∃ u' c, underlineStep skip index lineAttr u = .ok (u', c) ∧ u'.line.length = u.line.length ∧
      Closed u'.line lineAttr z ∧ (∀ start ∈ u'.ulstart, start ≤ index) ∧ (c ≠ 0 → skip + index < z) := by
  obtain ⟨c, hc, hlt⟩ := peek_closed h hindex
  obtain ⟨a, ha⟩ := peek_attr h hindex
  rw [underlineStep, hc]
  show ∃ u' c', (peek lineAttr ((skip + index : ℕ) : ℤ) >>= _) = .ok (u', c') ∧ _
  rw [ha]
  by_cases hunder : a &&& attrUnderline ≠ 0
  · refine ⟨_, c, if_pos hunder, rfl, h, ?_, hlt⟩
    intro start hmem
    have hmem' : some (u.ulstart.getD index) = some start := hmem
    rcases Option.eq_none_or_eq_some u.ulstart with hold | ⟨old, hold⟩
    · rw [hold] at hmem'
      exact (Option.some.inj hmem').symm.le
    · rw [hold] at hmem'
      exact (Option.some.inj hmem') ▸ hstart old hold
  · rcases Option.eq_none_or_eq_some u.ulstart with hold | ⟨start, hold⟩
    · refine ⟨{ u with retval := u.retval || (decide (c ≠ 0) && decide (c ≠ 32)) }, c, ?_, rfl, h, hstart, hlt⟩
      refine (if_neg hunder).trans ?_
      show (u.ulstart.elim _ _ >>= _) = _
      rw [hold]
      rfl
    · obtain ⟨u', hend, hlen, hz, hnone⟩ :=
        underlineEnd_spec (u := { u with retval := u.retval || (decide (c ≠ 0) && decide (c ≠ 32)) }) h hindex
          (hstart start hold)
      refine ⟨u', c, ?_, hlen, hz, ?_, hlt⟩
      · refine (if_neg hunder).trans ?_
        show (u.ulstart.elim _ _ >>= _) = _
        rw [hold] at hend ⊢
        show (underlineEnd skip index start _ >>= _) = _
        rw [hend]
        rfl
      · intro start' hmem
        rw [hnone] at hmem
        cases hmem

theorem underlineLoop_spec {u : Underlining} (h : Closed u.line lineAttr z) {skip index fuel : ℕ} (hindex : skip + index ≤ z)
    (hstart : ∀ start ∈ u.ulstart, start ≤ index) (hfuel : z < skip + index + fuel) :
    ∃ u', underlineLoop skip lineAttr fuel index u = .ok u' ∧ u'.line.length = u.line.length ∧ Closed u'.line lineAttr z := by
  induction fuel generalizing u index with
  | zero => exact absurd hfuel (by omega)
  | succ fuel ih =>
    obtain ⟨u', c, hstep, hlen, hz, hstart', hlt⟩ := underlineStep_spec h hindex hstart
    rw [underlineLoop, hstep]
    show ∃ u'', (if c = 0 then _ else _) = Except.ok u'' ∧ _
    by_cases hc : c = 0
    · rw [if_pos hc]
      exact ⟨u', rfl, hlen, hz⟩
    · have hindex' := hlt hc
      obtain ⟨u'', hloop, hlen', hz'⟩ :=
        ih hz (by omega : skip + (index + 1) ≤ z) (fun start hmem => (hstart' start hmem).trans (Nat.le_succ _)) (by omega)
      rw [if_neg hc]
      exact ⟨u'', hloop, hlen'.trans hlen, hz'⟩

theorem underline_spec (h : Closed cells lineAttr z) {skip : ℕ} (hskip : skip ≤ z) :
    ∃ out cells' retval, underline skip cells lineAttr = .ok (out, cells', retval) ∧ cells'.length = cells.length ∧
      Closed cells' lineAttr z := by
  have hlt := h.lt
  obtain ⟨u, hloop, hlen, hz⟩ :=
    underlineLoop_spec (u := ⟨cells, none, false, false, []⟩) h (by omega : skip + 0 ≤ z)
      (fun start hmem => absurd hmem (Option.not_mem_none start)) (by omega : z < skip + 0 + (cells.length + 1))
  refine ⟨u.out, u.line, u.retval, ?_, hlen, hz⟩
  rw [underline, hloop]
  rfl

theorem outputLoop_spec (h : Closed cells lineAttr z) (unicode : Bool) {fuel pos : ℕ} (hpos : pos ≤ z) (hfuel : z < pos + fuel)
    (started newindent : Bool) (pen : Pen) :
    ∃ out, outputLoop unicode cells lineAttr fuel pos started newindent pen = .ok out := by
  induction fuel generalizing pos started newindent pen with
  | zero => exact absurd hfuel (by omega)
  | succ fuel ih =>
    obtain ⟨c, hc, hlt⟩ := peek_closed h hpos
    rw [outputLoop, hc]
    show ∃ out, (if c = 0 then _ else _) = Except.ok out
    by_cases hzero : c = 0
    · rw [if_pos hzero]
      exact ⟨_, rfl⟩
    · have hpos' := hlt hzero
      obtain ⟨n, hn, hle⟩ := wcsspn_spec h hpos
      rw [if_neg hzero, hn]
      show ∃ out, (if 3 < n then _ else _) = Except.ok out
      by_cases hrun : 3 < n
      · obtain ⟨⟨out, pen', started'⟩, hloop⟩ := ih hle (by omega) started newindent pen
        rw [if_pos hrun, hloop]
        exact ⟨_, rfl⟩
      · obtain ⟨a, ha⟩ : ∃ a, (if c = 32 then Except.ok 0 else peek lineAttr (pos : ℤ)) = .ok a := by
          split_ifs
          · exact ⟨0, rfl⟩
          · exact peek_attr h hpos
        obtain ⟨⟨out, pen', started'⟩, hloop⟩ :=
          ih (by omega : pos + 1 ≤ z) (by omega) true false { pen.select c a with fontChanged := false }
        rw [if_neg hrun, ha]
        show ∃ out, (outputLoop unicode cells lineAttr fuel (pos + 1) true false _ >>= _) = Except.ok out
        rw [hloop]
        exact ⟨_, rfl⟩

theorem outputLine_spec (h : Closed cells lineAttr z) {skip : ℕ} (hskip : skip ≤ z) (unicode : Bool) (pen : Pen) :
    ∃ out, outputLine skip unicode cells lineAttr pen = .ok out := by
  have hlt := h.lt
  obtain ⟨n, hn, hle⟩ := wcsspn_spec h hskip
  obtain ⟨⟨out, pen', started⟩, hloop⟩ :=
    outputLoop_spec h unicode hle (by omega : z < skip + n + (cells.length + 1)) false (n ≠ pen.indent) { pen with indent := n }
  rw [outputLine, hn]
  show ∃ out, (outputLoop unicode cells lineAttr (cells.length + 1) ((skip + n : ℕ) : ℤ).toNat false _ _ >>= _) = Except.ok out
  rw [Int.toNat_natCast, hloop]
  exact ⟨_, rfl⟩

end Writing

/-! ## Two readers at one place -/

/-- What a call depends on is the same. -/
structure Agree (r r' : Reader) : Prop where
  stdin : r.stdin = r'.stdin
  formfeedPending : r.formfeedPending = r'.formfeedPending
  column : r.column = r'.column
  linenum : r.linenum = r'.linenum

/-- Calls of two readers that agree. -/
structure Same (readline : Reader → Except Fault (Option ℕ × Reader)) : Prop where
  call : ∀ {r1 r2 r1' : Reader} {len : Option ℕ}, Agree r1 r2 → readline r1 = .ok (len, r1') →
    ∃ r2', readline r2 = .ok (len, r2') ∧ Agree r1' r2' ∧ r1'.formfeed = r2'.formfeed ∧
      ∀ n, len = some n → 0 < n → r1'.line = r2'.line ∧ r1'.lineAttr = r2'.lineAttr

theorem same_readline (t : Settings) (get : List Byte → Option ℕ × List Byte) : Same (readline t get) := by
  constructor
  intro r1 r2 r1' len h hcall
  cases hpending : r1.formfeedPending with
  | true =>
    have hpending' : r2.formfeedPending = true := h.formfeedPending ▸ hpending
    rw [readline, if_pos hpending] at hcall
    cases hcall
    refine ⟨_, if_pos hpending', ⟨h.stdin, rfl, h.column, h.linenum⟩, rfl, ?_⟩
    intro n hn hlt
    cases hn
    exact absurd hlt (Nat.lt_irrefl 0)
  | false =>
    have heq : readline t get r1 = readline t get r2 := by
      obtain ⟨hstdin, hpend, hcolumn, hlinenum⟩ := h
      have hpending' : r2.formfeedPending = false := hpend ▸ hpending
      rw [readline, readline, hpending, hpending', hstdin, hcolumn, hlinenum]
      rw [if_neg Bool.false_ne_true, if_neg Bool.false_ne_true]
    refine ⟨r1', heq ▸ hcall, ⟨rfl, rfl, rfl, rfl⟩, rfl, fun _ _ _ => ⟨rfl, rfl⟩⟩

theorem same_readlineFortran (t : Settings) : Same (readlineFortran t) := by
  constructor
  intro r1 r2 r1' len h hcall
  have hrest : ∀ {r1 r2 : Reader}, Agree r1 r2 → fortranRest t r1 = fortranRest t r2 := by
    rintro r1 r2 ⟨hstdin, hpend, hcolumn, hlinenum⟩
    rw [fortranRest, fortranRest, hstdin, hpend, hcolumn, hlinenum]
  have hsame : ∀ {r1 r2 : Reader}, Agree r1 r2 → fortranRest t r1 = .ok (len, r1') →
      ∃ r2', fortranRest t r2 = .ok (len, r2') ∧ Agree r1' r2' ∧ r1'.formfeed = r2'.formfeed ∧
        ∀ n, len = some n → 0 < n → r1'.line = r2'.line ∧ r1'.lineAttr = r2'.lineAttr := by
    intro r1 r2 h hcall
    exact ⟨r1', hrest h ▸ hcall, ⟨rfl, rfl, rfl, rfl⟩, rfl, fun _ _ _ => ⟨rfl, rfl⟩⟩
  rw [readlineFortran] at hcall ⊢
  rw [← h.column, ← h.stdin, ← h.linenum]
  by_cases hcolumn : r1.column = 0
  · rw [if_pos hcolumn] at hcall ⊢
    cases hstdin : r1.stdin with
    | nil =>
      rw [hstdin] at hcall
      cases hcall
      refine ⟨_, rfl, ⟨rfl, h.formfeedPending, rfl, rfl⟩, rfl, ?_⟩
      intro n hn
      cases hn
    | cons c stdin =>
      rw [hstdin] at hcall
      dsimp only at hcall ⊢
      by_cases hpage : c = 49 ∧ 0 < r1.linenum
      · rw [if_pos hpage] at hcall ⊢
        cases hcall
        refine ⟨_, rfl, ⟨rfl, h.formfeedPending, rfl, rfl⟩, rfl, ?_⟩
        intro n hn hlt
        cases hn
        exact absurd hlt (Nat.lt_irrefl 0)
      · rw [if_neg hpage] at hcall ⊢
        refine hsame ?_ hcall
        exact ⟨rfl, h.formfeedPending, rfl, rfl⟩
  · rw [if_neg hcolumn] at hcall ⊢
    refine hsame ?_ hcall
    exact ⟨rfl, h.formfeedPending, rfl, rfl⟩

/-! ## The first pass -/

theorem returned_eq {t : Settings} {m : Mode} {r : Reader} {n : ℕ} (hr : r.Sized t m) (h : r.Returns t n) :
    r.returned n = .ok ⟨r.formfeed, r.line.take n, r.lineAttr.take n⟩ := by
  have hroom := h.room
  have hline := hr.line
  have hattr := hr.attr
  exact if_pos ⟨by omega, by omega⟩

theorem closed_of_returns {t : Settings} {m : Mode} {r : Reader} {n : ℕ} (hr : r.Sized t m) (h : r.Returns t n) (hn : 0 < n) :
    Closed r.line r.lineAttr n := by
  refine ⟨h.zero hn, ?_⟩
  rw [hr.attr]
  exact h.room

/-- The spaces before a line. -/
theorem leadlen_spec {t : Settings} {m : Mode} {r : Reader} {n : ℕ} (hr : r.Sized t m) (h : r.Returns t n) :
    ∃ leadlen, (if 0 < n then wcsspn r.line 0 else .ok 0) = .ok leadlen ∧ (0 < n → leadlen ≤ n) := by
  by_cases hn : 0 < n
  · obtain ⟨leadlen, hlead, hle⟩ := wcsspn_spec (closed_of_returns hr h hn) (Nat.zero_le n)
    rw [if_pos hn]
    exact ⟨leadlen, hlead, fun _ => by omega⟩
  · rw [if_neg hn]
    exact ⟨0, rfl, fun h => absurd h hn⟩

section Passes

variable {t : Settings} {m : Mode} {readline : Reader → Except Fault (Option ℕ × Reader)} {good : Reader → Prop}
  {r r' : Reader} {v : Survey} {fuel : ℕ}

theorem pass1_none (h : readline r = .ok (none, r')) : pass1 readline (fuel + 1) r v = .ok (v.finish, [], r') := by
  rw [pass1, h]
  rfl

theorem pass1_some {n : ℕ} (h : readline r = .ok (some n, r')) :
    pass1 readline (fuel + 1) r v = r'.returned n >>= fun got =>
      (if 0 < n then wcsspn r'.line 0 else .ok 0) >>= fun leadlen =>
        pass1 readline fuel r' (v.line n leadlen r'.formfeed) >>= fun x => .ok (x.1, got :: x.2.1, x.2.2) := by
  rw [pass1, h]
  rfl

theorem leftSkip_finish_le (v : Survey) : v.finish.leftSkip ≤ v.leftSkip := by
  show (if v.leftSkip = 1000 then 0 else v.leftSkip) ≤ v.leftSkip
  split_ifs
  · exact Nat.zero_le _
  · exact le_rfl

theorem leftSkip_line (n leadlen : ℕ) (formfeed : Bool) (v : Survey) :
    (v.line n leadlen formfeed).leftSkip = if 0 < n then min leadlen v.leftSkip else v.leftSkip := by
  by_cases hn : 0 < n
  · cases formfeed <;> simp [Survey.line, Survey.text, Survey.page, hn]
  · cases formfeed <;> simp [Survey.line, Survey.page, hn]

/-- What a pass over the rest of the input has found. -/
structure Surveyed (t : Settings) (m : Mode) (v v' : Survey) (lines : List Line) (r' : Reader) : Prop where
  sized : r'.Sized t m
  rewound : r'.formfeedPending = false ∧ r'.column = 0 ∧ r'.linenum = 0
  leftSkip_le : v'.leftSkip ≤ v.leftSkip
  skips : ∀ got ∈ lines, got.line ≠ [] → v'.leftSkip ≤ got.line.length

theorem pass1_good (hreads : Reads t m readline good) (hr : r.Sized t m) (hgood : good r)
    (hfuel : 2 * r.stdin.length + r.formfeedPending.toNat < fuel) (v : Survey) :
    ∃ v' lines r', pass1 readline fuel r v = .ok (v', lines, r') ∧ Surveyed t m v v' lines r' := by
  induction fuel generalizing r v with
  | zero => exact absurd hfuel (Nat.not_lt_zero _)
  | succ fuel ih =>
    obtain ⟨len, r', hcall, hsized, hnone, hsome⟩ := hreads.returns r hr hgood
    cases len with
    | none =>
      refine ⟨v.finish, [], r', pass1_none hcall, hsized, hnone rfl, leftSkip_finish_le v, ?_⟩
      intro got hmem
      exact absurd hmem List.not_mem_nil
    | some n =>
      obtain ⟨hgood', hreturns, hless⟩ := hsome n rfl
      have hline := hsized.line
      have hroom := hreturns.room
      obtain ⟨leadlen, hlead, hle⟩ := leadlen_spec hsized hreturns
      obtain ⟨v', lines, r'', hpass, h⟩ := ih hsized hgood' (by omega) (v.line n leadlen r'.formfeed)
      have hskip := h.leftSkip_le
      rw [leftSkip_line] at hskip
      refine ⟨v', ⟨r'.formfeed, r'.line.take n, r'.lineAttr.take n⟩ :: lines, r'', ?_, h.sized, h.rewound, ?_, ?_⟩
      · rw [pass1_some hcall, returned_eq hsized hreturns, hlead]
        show (pass1 readline fuel r' (v.line n leadlen r'.formfeed) >>= _) = _
        rw [hpass]
        rfl
      · split_ifs at hskip
        · exact hskip.trans (min_le_right _ _)
        · exact hskip
      · intro got hmem hne
        rcases List.mem_cons.1 hmem with rfl | hmem
        · have hn : 0 < n := by
            rcases Nat.eq_zero_or_pos n with rfl | hn
            · exact absurd rfl hne
            · exact hn
          rw [if_pos hn] at hskip
          show v'.leftSkip ≤ (r'.line.take n).length
          rw [List.length_take, min_eq_left (by omega)]
          exact (hskip.trans (min_le_left _ _)).trans (hle hn)
        · exact h.skips got hmem hne

/-- A pass that goes wrong, or that does not end. -/
theorem pass1_bad (hreads : Reads t m readline good) (hr : r.Sized t m) (hbad : ¬good r) (v : Survey)
    (x : Survey × List Line × Reader) : pass1 readline fuel r v ≠ .ok x := by
  induction fuel generalizing r v x with
  | zero =>
    intro h
    cases h
  | succ fuel ih =>
    intro h
    rcases hreads.fails r hr hbad with ⟨e, hcall⟩ | ⟨n, r', hcall, hsized, hbad'⟩
    · rw [pass1, hcall] at h
      cases h
    · rw [pass1_some hcall] at h
      cases hreturned : r'.returned n with
      | error e =>
        rw [hreturned] at h
        cases h
      | ok got =>
        rw [hreturned] at h
        cases hlead : (if 0 < n then wcsspn r'.line 0 else .ok 0) with
        | error e =>
          rw [hlead] at h
          cases h
        | ok leadlen =>
          rw [hlead] at h
          cases hpass : pass1 readline fuel r' (v.line n leadlen r'.formfeed) with
          | error e =>
            have hpass' : (pass1 readline fuel r' (v.line n leadlen r'.formfeed) >>= fun x =>
                Except.ok (x.1, got :: x.2.1, x.2.2)) = .ok x := h
            rw [hpass] at hpass'
            cases hpass'
          | ok y => exact ih hsized hbad' _ y hpass

/-! ## The second pass -/

theorem printText_spec {l : Layout} {n : ℕ} (hr : r.Sized t m) (h : r.Returns t n) (hn : 0 < n) (hskip : l.leftSkip ≤ n)
    (p : Printing) :
    ∃ text p' line, printText l r p = .ok (text, p', { r with line }) ∧ line.length = r.line.length := by
  obtain ⟨underlines, line, retval, hunder, hlen, hclosed⟩ := underline_spec (closed_of_returns hr h hn) hskip
  rw [printText, hunder]
  cases retval with
  | false => exact ⟨_, _, line, rfl, hlen⟩
  | true =>
    obtain ⟨⟨out, pen⟩, hout⟩ :=
      outputLine_spec hclosed hskip l.unicode (if p.writ then p.pen else { p.pen with bold := false, indent := 0 })
    refine ⟨(if p.writ then [] else startpage p.currentPage l.rotate) ++ newlines p.nlpend ++ underlines ++ out,
      { p with writ := true, nlpend := 0, pen }, line, ?_, hlen⟩
    show (outputLine l.leftSkip l.unicode line r.lineAttr _ >>= _) = _
    rw [hout]
    rfl

theorem printLine_spec {l : Layout} {n : ℕ} (hr : r.Sized t m) (h : r.Returns t n) (hskip : 0 < n → l.leftSkip ≤ n)
    (p : Printing) :
    ∃ text p' line filled, printLine l r n p = .ok (text, p', { r with line }, filled) ∧ line.length = r.line.length := by
  rw [printLine]
  dsimp only
  by_cases htop : p.linen + 1 ≤ l.topSkip
  · rw [if_pos htop]
    exact ⟨_, _, r.line, _, rfl, rfl⟩
  · rw [if_neg htop]
    by_cases hn : n = 0
    · rw [if_pos hn]
      exact ⟨_, _, r.line, _, rfl, rfl⟩
    · have hpos : 0 < n := Nat.pos_of_ne_zero hn
      obtain ⟨text, p', line, hprint, hlen⟩ :=
        printText_spec hr h hpos (hskip hpos) { p with linen := p.linen + 1, linen2 := p.linen2 + 1 }
      refine ⟨text, p', line, p'.linen2 = l.linesPerPage, ?_, hlen⟩
      rw [if_neg hn, hprint]
      rfl

theorem pass2_none {l : Layout} {p : Printing} (h : readline r = .ok (none, r')) :
    pass2 readline l (fuel + 1) r p = .ok (p.endPage.1, [], p.endPage.2) := by
  rw [pass2, h]
  rfl

/-- A line that begins a page. -/
theorem pass2_formfeed {l : Layout} {p : Printing} {n : ℕ} {got : Line} {out : List Byte} {lines : List Line} {pages : ℕ}
    (h : readline r = .ok (some n, r')) (hgot : r'.returned n = .ok got) (hff : r'.formfeed = true)
    (hrest : pass2 readline l fuel r' p.nextPage = .ok (out, lines, pages)) :
    pass2 readline l (fuel + 1) r p = .ok (p.endPage.1 ++ out, got :: lines, pages) := by
  rw [pass2, h]
  show (r'.returned n >>= _) = _
  rw [hgot]
  show (if r'.formfeed = true then _ else _) = _
  rw [if_pos hff, hrest]
  rfl

/-- A line of a page. -/
theorem pass2_text {l : Layout} {p p' : Printing} {n : ℕ} {got : Line} {text out : List Byte} {lines : List Line} {pages : ℕ}
    {r'' : Reader} {filled : Bool} (h : readline r = .ok (some n, r')) (hgot : r'.returned n = .ok got)
    (hff : r'.formfeed = false) (hprint : printLine l r' n p = .ok (text, p', r'', filled))
    (hrest : pass2 readline l fuel r'' (if filled then p'.nextPage else p') = .ok (out, lines, pages)) :
    pass2 readline l (fuel + 1) r p = .ok (text ++ (if filled then p'.endPage.1 else []) ++ out, got :: lines, pages) := by
  rw [pass2, h]
  show (r'.returned n >>= _) = _
  rw [hgot]
  show (if r'.formfeed = true then _ else _) = _
  rw [if_neg (by rw [hff]; exact Bool.false_ne_true), hprint]
  show (pass2 readline l fuel r'' (if filled then p'.nextPage else p') >>= _) = _
  rw [hrest]
  rfl

/-- A reader whose line has been written on goes on as before. -/
theorem Agree.write {r1 r2 : Reader} (h : Agree r1 r2) (line : List ℕ) : Agree r1 { r2 with line } :=
  ⟨h.stdin, h.formfeedPending, h.column, h.linenum⟩

theorem Reader.Sized.write (hr : r.Sized t m) {line : List ℕ} (hlen : line.length = r.line.length) :
    Reader.Sized t m { r with line } :=
  ⟨hlen.trans hr.line, hr.attr, hr.other⟩

/-- What two readers that agree have returned. -/
theorem returned_same {r1 r2 : Reader} {n : ℕ} (h2 : r2.Sized t m) (hreturns : r1.Returns t n)
    (hff : r1.formfeed = r2.formfeed) (hline : 0 < n → r1.line = r2.line ∧ r1.lineAttr = r2.lineAttr) :
    r2.Returns t n ∧ r2.returned n = .ok ⟨r1.formfeed, r1.line.take n, r1.lineAttr.take n⟩ := by
  rcases Nat.eq_zero_or_pos n with rfl | hn
  · have hreturns' : r2.Returns t 0 := ⟨hreturns.room, fun h => absurd h (Nat.lt_irrefl 0)⟩
    refine ⟨hreturns', ?_⟩
    rw [returned_eq h2 hreturns', hff]
    rfl
  · obtain ⟨heq, hattr⟩ := hline hn
    have hreturns' : r2.Returns t n := ⟨hreturns.room, fun h => heq ▸ hreturns.zero h⟩
    refine ⟨hreturns', ?_⟩
    rw [returned_eq h2 hreturns', hff, heq, hattr]

/-- The second pass reads what the first one has read. -/
theorem pass2_good (hreads : Reads t m readline good) (hsame : Same readline)
    (hdepends : ∀ {r1 r2 : Reader}, Agree r1 r2 → good r1 → good r2) {l : Layout} {r1 r2 : Reader} (h1 : r1.Sized t m)
    (h2 : r2.Sized t m) (hgood : good r1) (hagree : Agree r1 r2) {v v' : Survey} {lines : List Line} (hpass : pass1 readline fuel r1 v = .ok (v', lines, r'))
    (hskips : ∀ got ∈ lines, got.line ≠ [] → l.leftSkip ≤ got.line.length) (p : Printing) :
    ∃ out pages, pass2 readline l fuel r2 p = .ok (out, lines, pages) := by
  induction fuel generalizing r1 r2 v lines p with
  | zero => cases hpass
  | succ fuel ih =>
    obtain ⟨len, r1', hcall, hsized, -, hsome⟩ := hreads.returns r1 h1 hgood
    obtain ⟨r2', hcall2, hagree', hff, hline⟩ := hsame.call hagree hcall
    obtain ⟨len2, r2'', hcall2', hsized2, -, -⟩ := hreads.returns r2 h2 (hdepends hagree hgood)
    rw [hcall2] at hcall2'
    cases hcall2'
    cases len with
    | none =>
      rw [pass1_none hcall] at hpass
      cases hpass
      exact ⟨p.endPage.1, p.endPage.2, pass2_none hcall2⟩
    | some n =>
      obtain ⟨hgood', hreturns, -⟩ := hsome n rfl
      obtain ⟨hreturns2, hgot2⟩ := returned_same hsized2 hreturns hff (hline n rfl)
      obtain ⟨leadlen, hlead, -⟩ := leadlen_spec hsized hreturns
      rw [pass1_some hcall, returned_eq hsized hreturns, hlead] at hpass
      have hpass' : (pass1 readline fuel r1' (v.line n leadlen r1'.formfeed) >>= fun x =>
          Except.ok (x.1, ⟨r1'.formfeed, r1'.line.take n, r1'.lineAttr.take n⟩ :: x.2.1, x.2.2)) = .ok (v', lines, r') := hpass
      cases hrest : pass1 readline fuel r1' (v.line n leadlen r1'.formfeed) with
      | error e =>
        rw [hrest] at hpass'
        cases hpass'
      | ok x =>
        rw [hrest] at hpass'
        cases hpass'
        have hskips' : ∀ got ∈ x.2.1, got.line ≠ [] → l.leftSkip ≤ got.line.length := fun got hmem =>
          hskips got (List.mem_cons_of_mem _ hmem)
        cases hformfeed : r1'.formfeed with
        | true =>
          obtain ⟨out, pages, hpass2⟩ := ih hsized hsized2 hgood' hagree' hrest hskips' p.nextPage
          rw [hformfeed] at hgot2
          exact ⟨_, pages, pass2_formfeed hcall2 hgot2 (hff ▸ hformfeed) hpass2⟩
        | false =>
          have hskip : 0 < n → l.leftSkip ≤ n := by
            intro hn
            have hlen := hsized.line
            have hroom := hreturns.room
            have htake : (r1'.line.take n).length = n := by
              rw [List.length_take, min_eq_left (by omega)]
            have hne : r1'.line.take n ≠ [] := List.ne_nil_of_length_pos (by rwa [htake])
            exact (hskips _ List.mem_cons_self hne).trans htake.le
          obtain ⟨text, p', line, filled, hprint, hlen⟩ := printLine_spec hsized2 hreturns2 hskip p
          obtain ⟨out, pages, hpass2⟩ :=
            ih hsized (hsized2.write hlen) hgood' (hagree'.write line) hrest hskips'
              (if filled then p'.nextPage else p')
          rw [hformfeed] at hgot2
          exact ⟨_, pages, pass2_text hcall2 hgot2 (hff ▸ hformfeed) hprint hpass2⟩

end Passes

/-! ## Both passes -/

/-- The input that a reader comes to the end of in its arrays. -/
def Mode.Spares (t : Settings) (input : List Byte) : Mode → Prop
  | .normal => Spared t 0 0 (characters getNormal input)
  | .utf8 => Spared t 0 0 (characters guUtf8Fgetwc input)
  | .fortran => Records input

/-- With every page length and font both passes come to their ends in the arrays, and they have read the same lines. -/
def WellRead (m : Mode) (t : Settings) (input : List Byte) : Prop :=
  ∀ o unicode rotate, ∃ fuel lines out pages, passes m t o unicode rotate fuel input = .ok (lines, lines, out, pages)

/-- What is before a reader. -/
def Mode.Good (t : Settings) : Mode → Reader → Prop
  | .normal, r => Spared t 0 0 (characters getNormal r.stdin)
  | .utf8, r => Spared t 0 0 (characters guUtf8Fgetwc r.stdin)
  | .fortran, r => r.AtRecord

theorem Mode.reads (t : Settings) : ∀ m : Mode, Reads t m (m.readline t) (m.Good t)
  | .normal => reads_readline getter_getNormal (by decide)
  | .utf8 => reads_readline getter_guUtf8Fgetwc (by decide)
  | .fortran => reads_readlineFortran

theorem Mode.same (t : Settings) : ∀ m : Mode, Same (m.readline t)
  | .normal => same_readline t getNormal
  | .utf8 => same_readline t guUtf8Fgetwc
  | .fortran => same_readlineFortran t

theorem Mode.good_of_agree {t : Settings} (m : Mode) {r1 r2 : Reader} (h : Agree r1 r2) (hgood : m.Good t r1) : m.Good t r2 := by
  cases m with
  | normal => rwa [Mode.Good, h.stdin] at hgood
  | utf8 => rwa [Mode.Good, h.stdin] at hgood
  | fortran => rwa [Mode.Good, Reader.AtRecord, h.stdin, h.column] at hgood

theorem sized_reader (m : Mode) (t : Settings) (input : List Byte) : (t.reader input).Sized t m := by
  refine ⟨List.length_replicate, List.length_replicate, ?_⟩
  split_ifs
  · exact rfl
  · exact ⟨rfl, rfl⟩

theorem good_reader (m : Mode) (t : Settings) (input : List Byte) : m.Good t (t.reader input) ↔ m.Spares t input := by
  cases m with
  | normal => exact Iff.rfl
  | utf8 => exact Iff.rfl
  | fortran =>
    show (if (0 : ℕ) = 0 then Records input else Terminated input) ↔ Records input
    rw [if_pos rfl]

theorem leftSkip_layout (v : Survey) (o : PageLength) (unicode : Bool) (rotate : List Byte) :
    (v.layout o unicode rotate).leftSkip = v.leftSkip := by
  rw [Survey.layout]
  split_ifs <;> rfl

theorem wellRead_of_spares {m : Mode} {t : Settings} {input : List Byte} (h : m.Spares t input) : WellRead m t input := by
  intro o unicode rotate
  have hgood := (good_reader m t input).2 h
  have hfuel : 2 * (t.reader input).stdin.length + (t.reader input).formfeedPending.toNat < 2 * input.length + 1 :=
    Nat.lt_succ_self _
  obtain ⟨v, lines, r, hpass, hsurvey⟩ := pass1_good (m.reads t) (sized_reader m t input) hgood hfuel Survey.start
  obtain ⟨hpending, hcolumn, hlinenum⟩ := hsurvey.rewound
  have hagree : Agree (t.reader input) { r with stdin := input } := ⟨rfl, hpending.symm, hcolumn.symm, hlinenum.symm⟩
  have hsized : Reader.Sized t m { r with stdin := input } := ⟨hsurvey.sized.line, hsurvey.sized.attr, hsurvey.sized.other⟩
  have hskips : ∀ got ∈ lines, got.line ≠ [] → (v.layout o unicode rotate).leftSkip ≤ got.line.length := by
    rw [leftSkip_layout]
    exact hsurvey.skips
  obtain ⟨out, pages, hpass2⟩ :=
    pass2_good (m.reads t) (m.same t) (m.good_of_agree (t := t)) (sized_reader m t input) hsized hgood hagree hpass hskips
      Printing.start
  refine ⟨2 * input.length + 1, lines, out, pages, ?_⟩
  rw [passes, hpass]
  show (pass2 (m.readline t) (v.layout o unicode rotate) (2 * input.length + 1) { r with stdin := input } Printing.start >>= _) = _
  rw [hpass2]
  rfl

theorem spares_of_wellRead {m : Mode} {t : Settings} {input : List Byte} (h : WellRead m t input) : m.Spares t input := by
  by_contra hnot
  have hbad : ¬m.Good t (t.reader input) := fun hgood => hnot ((good_reader m t input).1 hgood)
  obtain ⟨fuel, lines, out, pages, hpasses⟩ := h ⟨1, 1, 1, Nat.one_pos, le_rfl, le_rfl⟩ false []
  cases hpass : pass1 (m.readline t) fuel (t.reader input) Survey.start with
  | error e =>
    rw [passes, hpass] at hpasses
    cases hpasses
  | ok x => exact pass1_bad (m.reads t) (sized_reader m t input) hbad Survey.start x hpass

/-- The readers return -1 after so many calls, every access is in the arrays, and both passes read the same lines, exactly
if nothing is printed in front of the first column, or, with FORTRAN carriage control, if every record has its newline. -/
theorem wellRead_iff (m : Mode) (t : Settings) (input : List Byte) : WellRead m t input ↔ m.Spares t input :=
  ⟨spares_of_wellRead, wellRead_of_spares⟩

/-- A backspace and a letter, and a line of FORTRAN without a newline. -/
theorem not_wellRead_backspace :
    ¬WellRead .normal ⟨300, 8, false, by decide, by decide⟩ [8, 65] ∧
      ¬WellRead .fortran ⟨300, 8, false, by decide, by decide⟩ [32, 97] := by
  constructor
  · intro h
    have hspared := spares_of_wellRead h
    simp [Mode.Spares, characters, charactersFrom, getNormal, fgetc, Spared, Ends, Moves, columnAfter] at hspared
  · intro h
    have hrecords : Records [32, 97] := spares_of_wellRead h
    obtain ⟨text, rest, hstdin, -, -⟩ := records_cons.1 hrecords
    have hmem : (10 : Byte) ∈ [(97 : Byte)] := by
      rw [hstdin]
      simp
    exact absurd hmem (by decide)

end Ppr.FilterLp
