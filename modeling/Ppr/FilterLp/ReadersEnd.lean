import Ppr.FilterLp.Bounds

/-!
# The ends of the line readers

When the readers return -1 after so many lines, and when they stay in the arrays.  After a line of FORTRAN without a
newline the reader returns an empty line whenever it is called.
-/

namespace Ppr.FilterLp

/-! ## What a reader leaves -/

/-- The arrays of a reader are as long as `main()` has made them, and the static variables of the other readers are as
they were at first. -/
structure Reader.Sized (t : Settings) (m : Mode) (r : Reader) : Prop where
  line : r.line.length = t.maxWidth + t.tabWidth + 1
  attr : r.lineAttr.length = t.maxWidth + t.tabWidth
  other : if m = .fortran then r.formfeedPending = false else r.column = 0 ∧ r.linenum = 0

/-- What is returned is in the arrays with a 0 behind it. -/
structure Reader.Returns (t : Settings) (r : Reader) (len : ℕ) : Prop where
  room : len < t.maxWidth + t.tabWidth
  zero : 0 < len → r.line[len]? = some 0

theorem trim_spec {lineAttr : List Byte} (n : ℕ) {cells : List ℕ} (hline : n ≤ cells.length) (hattr : n ≤ lineAttr.length)
    (hzero : ∀ i, n ≤ i → i < cells.length → cells[i]? = some 0) :
    ∃ len trimmed, trim lineAttr n cells = .ok (len, trimmed) ∧ len ≤ n ∧ trimmed.length = cells.length ∧
      ∀ i, len ≤ i → i < cells.length → trimmed[i]? = some 0 := by
  induction n generalizing cells with
  | zero => exact ⟨0, cells, rfl, le_rfl, rfl, hzero⟩
  | succ n ih =>
    obtain ⟨c, hc⟩ : ∃ c, peek cells n = .ok c := peek_ok (Int.natCast_nonneg n) (by omega)
    obtain ⟨a, ha⟩ : ∃ a, peek lineAttr n = .ok a := peek_ok (Int.natCast_nonneg n) (by omega)
    rw [trim, hc]
    by_cases hspace : c = 32
    · by_cases hplain : a = 0
      · have hpoke : poke cells (n : ℤ) 0 = .ok (cells.set n 0) := poke_ok (Int.natCast_nonneg n) (by omega) 0
        have hzero' : ∀ i, n ≤ i → i < (cells.set n 0).length → (cells.set n 0)[i]? = some 0 := by
          intro i hi hlt
          rw [List.length_set] at hlt
          by_cases heq : n = i
          · rw [heq, List.getElem?_set_self hlt]
          · rw [List.getElem?_set_ne heq]
            exact hzero i (by omega) hlt
        obtain ⟨len, trimmed, htrim, hle, hlen, hz⟩ := ih (by simp; omega) (by omega) hzero'
        rw [List.length_set] at hlen hz
        refine ⟨len, trimmed, ?_, by omega, hlen, hz⟩
        show (if c = 32 then _ else _) = _
        rw [if_pos hspace, ha]
        show (if a = 0 then _ else _) = _
        rw [if_pos hplain, hpoke]
        exact htrim
      · refine ⟨n + 1, cells, ?_, le_rfl, rfl, hzero⟩
        show (if c = 32 then _ else _) = _
        rw [if_pos hspace, ha]
        show (if a = 0 then _ else _) = _
        rw [if_neg hplain]
        rfl
    · refine ⟨n + 1, cells, ?_, le_rfl, rfl, hzero⟩
      show (if c = 32 then _ else _) = _
      rw [if_neg hspace]
      rfl

/-- What a reader has before it: how much is left to be done, and whether it will be in the arrays. -/
structure Reads (t : Settings) (m : Mode) (readline : Reader → Except Fault (Option ℕ × Reader)) (good : Reader → Prop) :
    Prop where
  /-- The reader comes back, and as long as it has not returned -1 something has been done. -/
  returns : ∀ r, r.Sized t m → good r → ∃ len r', readline r = .ok (len, r') ∧ r'.Sized t m ∧
    (len = none → r'.formfeedPending = false ∧ r'.column = 0 ∧ r'.linenum = 0) ∧
    ∀ n, len = some n → good r' ∧ r'.Returns t n ∧
      2 * r'.stdin.length + r'.formfeedPending.toNat < 2 * r.stdin.length + r.formfeedPending.toNat
  /-- Otherwise there is an access that is not in the arrays, or the reader does not return -1. -/
  fails : ∀ r, r.Sized t m → ¬good r → (∃ e, readline r = .error e) ∨
    ∃ n r', readline r = .ok (some n, r') ∧ r'.Sized t m ∧ ¬good r'

theorem getter_getNormal : Getter getNormal := ⟨rfl, fun _ _ => le_rfl⟩

theorem length_additionalBytes_le (n c : ℕ) (stdin : List Byte) :
    (Utf8.additionalBytes fgetc n c stdin).2.length ≤ stdin.length := by
  induction n generalizing c stdin with
  | zero => exact le_rfl
  | succ n ih =>
    cases stdin with
    | nil => exact le_rfl
    | cons d stdin =>
      rw [Utf8.additionalBytes, fgetc]
      dsimp only
      split_ifs
      · exact Nat.le_succ _
      · exact (ih _ stdin).trans (Nat.le_succ _)

theorem length_checkCharacter (n : ℕ) (x : Except ℕ ℕ × List Byte) :
    (Utf8.checkCharacter n x).2 = x.2 := by
  obtain ⟨r, stdin⟩ := x
  cases r with
  | error e => rfl
  | ok c =>
    rw [Utf8.checkCharacter]
    split_ifs <;> rfl

theorem getter_guUtf8Fgetwc : Getter guUtf8Fgetwc := by
  constructor
  · rfl
  · intro c stdin
    show (Utf8.guUtf8Getwc fgetc (c :: stdin)).2.length ≤ stdin.length
    rw [Utf8.guUtf8Getwc, fgetc]
    dsimp only
    split_ifs
    · exact le_rfl
    · cases Utf8.firstByte c.toNat with
      | none => exact le_rfl
      | some first =>
        rw [length_checkCharacter]
        exact length_additionalBytes_le first.2 first.1 stdin

section Normal

variable {t : Settings} {get : List Byte → Option ℕ × List Byte}

/-- The variables before the first character of a line. -/
def Scan.start (t : Settings) (stdin : List Byte) : Scan :=
  ⟨stdin, List.replicate (t.maxWidth + t.tabWidth + 1) 0, List.replicate (t.maxWidth + t.tabWidth) 0, 0, 0⟩

theorem sized_start (stdin : List Byte) : (Scan.start t stdin).Sized t := by
  refine ⟨List.length_replicate, List.length_replicate, le_rfl, ?_⟩
  intro i _ hlt
  have hlt' : i < t.maxWidth + t.tabWidth + 1 := by simpa [Scan.start] using hlt
  exact List.getElem?_replicate_of_lt hlt'

theorem sparedAt_start (stdin : List Byte) :
    SparedAt t get (Scan.start t stdin) ↔ Spared t 0 0 (characters get stdin) := by
  have hwidth := t.width_ok
  rw [SparedAt, if_neg (by show ¬(t.maxWidth : ℤ) ≤ 0; omega)]
  exact Iff.rfl

/-- A line that is not only the end of the input takes something of it. -/
theorem scan_start_shorter (hget : Getter get) {stdin : List Byte} {fuel : ℕ} {s' : Scan} {stop : Stop}
    (hscan : scan t get (fuel + 1) (Scan.start t stdin) = .ok (s', stop)) (hleft : Left t (Scan.start t stdin) s')
    (hne : ¬(stop = .eof ∧ s'.maxcount = 0)) : s'.stdin.length < stdin.length := by
  have hwidth := t.width_ok
  have hzero : (Scan.start t stdin).count < t.maxWidth := by
    show (0 : ℤ) < t.maxWidth
    omega
  rcases hleft.shorter with hnil | hfull | hlt
  · have hstdin : stdin = [] := hnil
    rw [scan_none hzero (hnil ▸ hget.nil)] at hscan
    cases hscan
    exact absurd ⟨rfl, rfl⟩ hne
  · omega
  · exact hlt

theorem readline_eof {r : Reader} {s' : Scan} {stop : Stop} (hpending : r.formfeedPending = false)
    (hscan : scan t get (r.stdin.length + 1) (Scan.start t r.stdin) = .ok (s', stop)) (heof : stop = .eof ∧ s'.maxcount = 0) :
    readline t get r =
      .ok (none, { r with stdin := s'.stdin, line := s'.line, lineAttr := s'.lineAttr, formfeed := false }) := by
  rw [readline, if_neg (by rw [hpending]; exact Bool.false_ne_true)]
  show (scan t get (r.stdin.length + 1) (Scan.start t r.stdin) >>= _) = _
  rw [hscan]
  show (if stop = .eof ∧ s'.maxcount = 0 then _ else _) = _
  rw [if_pos heof]
  rfl

/-- A line that is returned. -/
theorem readline_line {m : Mode} (hm : m ≠ .fortran) {r : Reader} {s' : Scan} {stop : Stop} (hr : r.Sized t m)
    (hpending : r.formfeedPending = false)
    (hscan : scan t get (r.stdin.length + 1) (Scan.start t r.stdin) = .ok (s', stop))
    (hleft : Left t (Scan.start t r.stdin) s') (hne : ¬(stop = .eof ∧ s'.maxcount = 0)) :
    ∃ len r', readline t get r = .ok (some len, r') ∧ r'.Sized t m ∧ r'.Returns t len ∧ r'.stdin = s'.stdin := by
  have hline := hleft.sized.line
  have hattr := hleft.sized.attr
  have hlt := hleft.maxcount_lt
  have hnonneg := hleft.sized.nonneg
  have hzero : ∀ i, s'.maxcount.toNat ≤ i → i < s'.line.length → s'.line[i]? = some 0 := by
    intro i hi hlen
    have hcount := hleft.count_le
    exact hleft.sized.zero i (by omega) hlen
  obtain ⟨len, trimmed, htrim, hle, hlen, hz⟩ :=
    trim_spec s'.maxcount.toNat (by omega) (by omega : _ ≤ s'.lineAttr.length) hzero
  refine ⟨len,
    { r with
      stdin := s'.stdin
      line := trimmed
      lineAttr := s'.lineAttr
      formfeed := stop = .formfeed ∧ s'.count = 0
      formfeedPending := stop = .formfeed ∧ s'.count ≠ 0 }, ?_, ?_, ?_, rfl⟩
  · rw [readline, if_neg (by rw [hpending]; exact Bool.false_ne_true)]
    show (scan t get (r.stdin.length + 1) (Scan.start t r.stdin) >>= _) = _
    rw [hscan]
    show (if stop = .eof ∧ s'.maxcount = 0 then _ else _) = _
    rw [if_neg hne, htrim]
    rfl
  · refine ⟨hlen.trans hline, hattr, ?_⟩
    rw [if_neg hm]
    have hother := hr.other
    rwa [if_neg hm] at hother
  · exact ⟨by omega, fun _ => hz len le_rfl (by omega)⟩

theorem room_start (stdin : List Byte) :
    max (Scan.start t stdin).maxcount (Scan.start t stdin).count < t.maxWidth + t.tabWidth := by
  have hwidth := t.width_ok
  show max (0 : ℤ) 0 < _
  omega

theorem reads_readline (hget : Getter get) {m : Mode} (hm : m ≠ .fortran) :
    Reads t m (readline t get) fun r => Spared t 0 0 (characters get r.stdin) := by
  have hwidth := t.width_ok
  have hpend : ∀ r : Reader, r.formfeedPending = true →
      readline t get r = .ok (some 0, { r with formfeedPending := false, formfeed := true }) := fun r h => if_pos h
  have hkept : ∀ r : Reader, r.Sized t m → Reader.Sized t m { r with formfeedPending := false, formfeed := true } := by
    intro r hr
    have hother := hr.other
    rw [if_neg hm] at hother
    exact ⟨hr.line, hr.attr, by rw [if_neg hm]; exact hother⟩
  constructor
  · intro r hr hgood
    cases hpending : r.formfeedPending with
    | true =>
      refine ⟨some 0, _, hpend r hpending, hkept r hr, ?_, ?_⟩
      · intro h
        cases h
      · rintro n h
        cases h
        exact ⟨hgood, ⟨by omega, fun h => absurd h (Nat.lt_irrefl 0)⟩, Nat.lt_succ_self _⟩
    | false =>
      rcases scan_spec hget (sized_start r.stdin) (room_start r.stdin) (Nat.lt_succ_self _) with
        ⟨s', stop, hscan, hleft, hrest, -⟩ | ⟨-, hnot⟩
      · by_cases heof : stop = .eof ∧ s'.maxcount = 0
        · have hother := hr.other
          rw [if_neg hm] at hother
          refine ⟨none, _, readline_eof hpending hscan heof, ?_, fun _ => ⟨hpending, hother⟩, ?_⟩
          · exact ⟨hleft.sized.line, hleft.sized.attr, by rw [if_neg hm]; exact hother⟩
          · intro n h
            cases h
        · obtain ⟨len, r', hline, hsized, hreturns, hstdin⟩ := readline_line hm hr hpending hscan hleft heof
          refine ⟨some len, r', hline, hsized, ?_, ?_⟩
          · intro h
            cases h
          · rintro n h
            cases h
            have hshorter := scan_start_shorter hget hscan hleft heof
            have hbit := Bool.toNat_lt r'.formfeedPending
            have hspared := (hrest heof).1 ((sparedAt_start r.stdin).2 hgood)
            refine ⟨by rwa [hstdin], hreturns, ?_⟩
            rw [hstdin]
            omega
      · exact absurd ((sparedAt_start r.stdin).2 hgood) hnot
  · intro r hr hbad
    cases hpending : r.formfeedPending with
    | true => exact Or.inr ⟨0, _, hpend r hpending, hkept r hr, hbad⟩
    | false =>
      have hnot : ¬SparedAt t get (Scan.start t r.stdin) := fun h => hbad ((sparedAt_start r.stdin).1 h)
      rcases scan_spec hget (sized_start r.stdin) (room_start r.stdin) (Nat.lt_succ_self _) with
        ⟨s', stop, hscan, hleft, hrest, heof⟩ | ⟨hwild, -⟩
      · have hne : ¬(stop = .eof ∧ s'.maxcount = 0) := fun h => hnot (heof h)
        obtain ⟨len, r', hline, hsized, -, hstdin⟩ := readline_line hm hr hpending hscan hleft hne
        refine Or.inr ⟨len, r', hline, hsized, ?_⟩
        rw [hstdin]
        exact fun h => hnot ((hrest hne).2 h)
      · refine Or.inl ⟨.wild, ?_⟩
        rw [readline, if_neg (by rw [hpending]; exact Bool.false_ne_true)]
        have hscan : scan t get (r.stdin.length + 1) (Scan.start t r.stdin) = .error .wild := hwild
        show (scan t get (r.stdin.length + 1) (Scan.start t r.stdin) >>= _) = _
        rw [hscan]
        rfl

end Normal

/-! ## FORTRAN carriage control -/

/-- Records with a control character each, and with a newline behind each. -/
inductive Records : List Byte → Prop
  | nil : Records []
  | cons (c : Byte) {text rest : List Byte} (htext : 10 ∉ text) (hrest : Records rest) : Records (c :: (text ++ 10 :: rest))

/-- The rest of a record, and records. -/
def Terminated (stdin : List Byte) : Prop := ∃ text rest, stdin = text ++ 10 :: rest ∧ 10 ∉ text ∧ Records rest

theorem not_terminated_nil : ¬Terminated [] := by
  rintro ⟨text, rest, h, -, -⟩
  cases text <;> cases h

theorem records_cons {c : Byte} {stdin : List Byte} : Records (c :: stdin) ↔ Terminated stdin := by
  constructor
  · generalize hl : c :: stdin = l
    intro h
    cases h with
    | nil => cases hl
    | @cons d text rest htext hrest =>
      obtain ⟨-, rfl⟩ := List.cons.inj hl
      exact ⟨text, rest, rfl, htext, hrest⟩
  · rintro ⟨text, rest, rfl, htext, hrest⟩
    exact .cons c htext hrest

theorem terminated_newline {stdin : List Byte} : Terminated (10 :: stdin) ↔ Records stdin := by
  constructor
  · rintro ⟨text, rest, h, htext, hrest⟩
    cases text with
    | nil =>
      cases h
      exact hrest
    | cons c text =>
      obtain ⟨rfl, -⟩ := List.cons.inj h
      exact absurd List.mem_cons_self htext
  · intro h
    exact ⟨[], stdin, rfl, List.not_mem_nil, h⟩

theorem terminated_cons {c : Byte} (hc : c ≠ 10) {stdin : List Byte} : Terminated (c :: stdin) ↔ Terminated stdin := by
  constructor
  · rintro ⟨text, rest, h, htext, hrest⟩
    cases text with
    | nil =>
      cases h
      exact absurd rfl hc
    | cons d text =>
      obtain ⟨-, rfl⟩ := List.cons.inj h
      exact ⟨text, rest, rfl, fun hmem => htext (List.mem_cons_of_mem d hmem), hrest⟩
  · rintro ⟨text, rest, rfl, htext, hrest⟩
    refine ⟨c :: text, rest, rfl, ?_, hrest⟩
    intro hmem
    rcases List.mem_cons.1 hmem with rfl | hmem
    · exact hc rfl
    · exact htext hmem

section Fortran

variable {t : Settings}

theorem fortranTab_spec (x : ℕ) {cells : List ℕ} {len : ℕ} (h : len + x ≤ cells.length) :
    ∃ out, fortranTab x cells len = .ok (out, len + x) ∧ out.length = cells.length := by
  induction x generalizing cells len with
  | zero => exact ⟨cells, rfl, rfl⟩
  | succ x ih =>
    have hpoke : poke cells (len : ℤ) 32 = .ok (cells.set len 32) := poke_ok (Int.natCast_nonneg len) (by omega) 32
    have hroom : len + 1 + x ≤ (cells.set len 32).length := by
      rw [List.length_set]
      omega
    obtain ⟨out, htab, hlen⟩ := ih hroom
    refine ⟨out, ?_, by simpa using hlen⟩
    rw [fortranTab, hpoke, ← Nat.add_assoc, Nat.add_right_comm]
    exact htab

/-- What the loop leaves. -/
structure Scanned (t : Settings) (stdin : List Byte) (len column : ℕ) (stdin' : List Byte) (cells : List ℕ)
    (len' column' : ℕ) (newline : Bool) : Prop where
  line : cells.length = t.maxWidth + t.tabWidth + 1
  room : len' < t.maxWidth + t.tabWidth
  column_le : column ≤ column'
  le : stdin'.length ≤ stdin.length
  shorter : stdin = [] ∨ t.maxWidth ≤ len ∨ stdin'.length < stdin.length
  rest : Terminated stdin ↔ if newline then Records stdin' else Terminated stdin'

theorem Scanned.cons {c : Byte} {stdin stdin' : List Byte} {cells : List ℕ} {len len' len1 column column' column1 : ℕ}
    {newline : Bool} (hc : c ≠ 10) (hcolumn : column ≤ column1)
    (h : Scanned t stdin len1 column1 stdin' cells len' column' newline) :
    Scanned t (c :: stdin) len column stdin' cells len' column' newline :=
  ⟨h.line, h.room, hcolumn.trans h.column_le, h.le.trans (Nat.le_succ _), Or.inr (Or.inr (Nat.lt_succ_of_le h.le)),
    (terminated_cons hc).trans h.rest⟩

theorem fortranScan_spec (stdin : List Byte) {cells : List ℕ} {len : ℕ} (column : ℕ)
    (hline : cells.length = t.maxWidth + t.tabWidth + 1) (hlen : len < t.maxWidth + t.tabWidth) :
    ∃ stdin' cells' len' column' newline, fortranScan t stdin cells len column = .ok (stdin', cells', len', column', newline) ∧
      Scanned t stdin len column stdin' cells' len' column' newline := by
  induction stdin generalizing cells len column with
  | nil => exact ⟨[], cells, len, column, false, rfl, hline, hlen, le_rfl, le_rfl, Or.inl rfl, Iff.rfl⟩
  | cons c stdin ih =>
    rw [fortranScan]
    by_cases hfull : t.maxWidth ≤ len
    · rw [if_pos hfull]
      exact ⟨_, _, _, _, _, rfl, hline, hlen, le_rfl, le_rfl, Or.inr (Or.inl hfull), Iff.rfl⟩
    · rw [if_neg hfull]
      by_cases hnewline : c = 10
      · rw [if_pos hnewline, hnewline]
        exact ⟨_, _, _, _, _, rfl, hline, hlen, le_rfl, Nat.le_succ _, Or.inr (Or.inr (Nat.lt_succ_self _)),
          terminated_newline⟩
      · rw [if_neg hnewline]
        have htabs := t.tab_ok
        by_cases hcr : c = 13
        · obtain ⟨stdin', cells', len', column', newline, hscan, h⟩ := ih (column + 1) hline hlen
          rw [if_pos hcr, hscan]
          exact ⟨_, _, _, _, _, rfl, h.cons hnewline (Nat.le_succ _)⟩
        · rw [if_neg hcr]
          by_cases htab : c = 9
          · have hstop : t.tabWidth - len % t.tabWidth ≤ t.tabWidth := Nat.sub_le _ _
            have hroom : len + (t.tabWidth - len % t.tabWidth) < t.maxWidth + t.tabWidth := by omega
            obtain ⟨out, htabbed, hout⟩ : ∃ out, fortranTab (t.tabWidth - len % t.tabWidth) cells len = .ok (out, _) ∧ _ :=
              fortranTab_spec (t.tabWidth - len % t.tabWidth) (by omega)
            obtain ⟨stdin', cells', len', column', newline, hscan, h⟩ := ih (column + 1) (hout.trans hline) hroom
            rw [if_pos htab, htabbed]
            exact ⟨_, _, _, _, _, hscan, h.cons hnewline (Nat.le_succ _)⟩
          · have hpoke : poke cells (len : ℤ) c.toNat = .ok (cells.set len c.toNat) :=
              poke_ok (Int.natCast_nonneg len) (by omega) c.toNat
            have hset : (cells.set len c.toNat).length = t.maxWidth + t.tabWidth + 1 := List.length_set.trans hline
            have hroom : len + 1 < t.maxWidth + t.tabWidth := by omega
            obtain ⟨stdin', cells', len', column', newline, hscan, h⟩ := ih (column + 1) hset hroom
            rw [if_neg htab, hpoke]
            exact ⟨_, _, _, _, _, hscan, h.cons hnewline (Nat.le_succ _)⟩

theorem fortranTrim_spec {cells : List ℕ} {len : ℕ} (h : len ≤ cells.length) :
    ∃ n, fortranTrim cells len = .ok n ∧ n ≤ len := by
  induction len with
  | zero => exact ⟨0, rfl, le_rfl⟩
  | succ len ih =>
    obtain ⟨c, hc⟩ : ∃ c, peek cells len = .ok c := peek_ok (Int.natCast_nonneg len) (by omega)
    rw [fortranTrim, hc]
    show ∃ n, (if c = 32 then fortranTrim cells len else _) = .ok n ∧ _
    by_cases hspace : c = 32
    · rw [if_pos hspace]
      obtain ⟨n, hn, hle⟩ := ih (by omega)
      exact ⟨n, hn, hle.trans (Nat.le_succ _)⟩
    · rw [if_neg hspace]
      exact ⟨len + 1, rfl, le_rfl⟩

/-- The rest of a record, of which something is taken if there is something left. -/
theorem fortranRest_spec {r : Reader} (hpending : r.formfeedPending = false) (hcolumn : 0 < r.column) :
    ∃ len r', fortranRest t r = .ok (some len, r') ∧ r'.Sized t .fortran ∧ r'.Returns t len ∧
      r'.stdin.length ≤ r.stdin.length ∧ (r.stdin ≠ [] → r'.stdin.length < r.stdin.length) ∧
      (Terminated r.stdin ↔ if r'.column = 0 then Records r'.stdin else Terminated r'.stdin) := by
  have hwidth := t.width_ok
  obtain ⟨stdin, cells, len, column, newline, hscan, h⟩ :=
    fortranScan_spec (t := t) r.stdin r.column List.length_replicate (by omega : 0 < t.maxWidth + t.tabWidth)
  have hline := h.line
  have hroom := h.room
  have hle := h.column_le
  obtain ⟨n, htrim, hn⟩ := fortranTrim_spec (by omega : len ≤ cells.length)
  have hpoke : poke cells (n : ℤ) 0 = .ok (cells.set n 0) := poke_ok (Int.natCast_nonneg n) (by omega) 0
  refine ⟨n,
    { r with
      stdin
      line := cells.set n 0
      lineAttr := List.replicate (t.maxWidth + t.tabWidth) 0
      formfeed := false
      column := if newline then 0 else column
      linenum := r.linenum + 1 }, ?_, ?_, ?_, h.le, ?_, ?_⟩
  · rw [fortranRest, hscan]
    show (fortranTrim cells len >>= _) = _
    rw [htrim]
    show (poke cells (n : ℤ) 0 >>= _) = _
    rw [hpoke]
    rfl
  · exact ⟨List.length_set.trans hline, List.length_replicate, by rw [if_pos rfl]; exact hpending⟩
  · refine ⟨by omega, fun _ => ?_⟩
    exact List.getElem?_set_self (by omega)
  · intro hne
    rcases h.shorter with hnil | hfull | hlt
    · exact absurd hnil hne
    · omega
    · exact hlt
  · rw [h.rest]
    cases newline with
    | true => exact Iff.rfl
    | false =>
      have hne : column ≠ 0 := by omega
      show _ ↔ if column = 0 then _ else _
      rw [if_neg hne]
      exact Iff.rfl

/-- The records that are left, behind the control character of one of them or not. -/
def Reader.AtRecord (r : Reader) : Prop := if r.column = 0 then Records r.stdin else Terminated r.stdin

/-- A call that is not at the end of the input. -/
theorem readlineFortran_some {r : Reader} (hr : r.Sized t .fortran) (hnot : ¬(r.column = 0 ∧ r.stdin = [])) :
    ∃ len r', readlineFortran t r = .ok (some len, r') ∧ r'.Sized t .fortran ∧ r'.Returns t len ∧
      (r.stdin ≠ [] → r'.stdin.length < r.stdin.length) ∧ (r.AtRecord ↔ r'.AtRecord) := by
  have hwidth := t.width_ok
  have hpending : r.formfeedPending = false := hr.other
  by_cases hcolumn : r.column = 0
  · cases hstdin : r.stdin with
    | nil => exact absurd ⟨hcolumn, hstdin⟩ hnot
    | cons c stdin =>
      have hat : r.AtRecord ↔ Terminated stdin := by
        rw [Reader.AtRecord, if_pos hcolumn, hstdin, records_cons]
      rw [readlineFortran, if_pos hcolumn, hstdin]
      by_cases hpage : c = 49 ∧ 0 < r.linenum
      · refine ⟨0, { r with stdin, formfeed := true, column := 1 }, if_pos hpage, ⟨hr.line, hr.attr, hr.other⟩, ?_, ?_, ?_⟩
        · exact ⟨by omega, fun h => absurd h (Nat.lt_irrefl 0)⟩
        · exact fun _ => Nat.lt_succ_self _
        · exact hat
      · obtain ⟨len, r', hrest, hsized, hreturns, hle, -, hiff⟩ :=
          fortranRest_spec (t := t) (r := { r with stdin, column := 1 }) hpending Nat.one_pos
        refine ⟨len, r', ?_, hsized, hreturns, fun _ => Nat.lt_succ_of_le hle, hat.trans hiff⟩
        exact (if_neg hpage).trans hrest
  · obtain ⟨len, r', hrest, hsized, hreturns, -, hshorter, hiff⟩ :=
      fortranRest_spec (t := t) (r := { r with column := r.column + 1 }) hpending (Nat.succ_pos _)
    have hat : r.AtRecord ↔ Terminated r.stdin := by rw [Reader.AtRecord, if_neg hcolumn]
    refine ⟨len, r', ?_, hsized, hreturns, hshorter, hat.trans hiff⟩
    rw [readlineFortran, if_neg hcolumn]
    exact hrest

theorem reads_readlineFortran : Reads t .fortran (readlineFortran t) Reader.AtRecord := by
  constructor
  · intro r hr hgood
    have hpending : r.formfeedPending = false := hr.other
    by_cases hend : r.column = 0 ∧ r.stdin = []
    · refine ⟨none, { r with formfeed := false, column := 0, linenum := 0 }, ?_, ⟨hr.line, hr.attr, hr.other⟩,
        fun _ => ⟨hpending, rfl, rfl⟩, ?_⟩
      · rw [readlineFortran, if_pos hend.1, hend.2]
      · intro n h
        cases h
    · obtain ⟨len, r', hline, hsized, hreturns, hshorter, hiff⟩ := readlineFortran_some hr hend
      refine ⟨some len, r', hline, hsized, ?_, ?_⟩
      · intro h
        cases h
      · rintro n h
        cases h
        have hne : r.stdin ≠ [] := by
          intro hnil
          rw [Reader.AtRecord, if_neg fun hcolumn => hend ⟨hcolumn, hnil⟩, hnil] at hgood
          exact not_terminated_nil hgood
        have hpending' : r'.formfeedPending = false := hsized.other
        have hlt := hshorter hne
        refine ⟨hiff.1 hgood, hreturns, ?_⟩
        rw [hpending, hpending']
        show 2 * r'.stdin.length + 0 < 2 * r.stdin.length + 0
        omega
  · intro r hr hbad
    have hend : ¬(r.column = 0 ∧ r.stdin = []) := by
      rintro ⟨hcolumn, hnil⟩
      apply hbad
      rw [Reader.AtRecord, if_pos hcolumn, hnil]
      exact .nil
    obtain ⟨len, r', hline, hsized, -, -, hiff⟩ := readlineFortran_some hr hend
    exact Or.inr ⟨len, r', hline, hsized, fun h => hbad (hiff.2 h)⟩

end Fortran

end Ppr.FilterLp
