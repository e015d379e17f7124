import Ppr.Lib.Lists
import Ppr.Libppr.Query

/-!
# What comes from each of the streams

The lines that come from a stream depend on how that stream is read and on nothing else; and as long as
no buffer fills up, calls come to an end.
-/

namespace Ppr.Query

/-! ## One stream -/

/-- The lines of a stream that is read in pieces of the given sizes. -/
inductive Yields (scan : Scanner) : Stream → List ℕ → List (List Byte) → Prop
  | line {s : Stream} {text : List Byte} {last : Byte} {buf : List Byte} {reads : List ℕ}
      {lines : List (List Byte)} : scan s.last s.buf = (some text, last, buf) →
      Yields scan { s with last, buf } reads lines → Yields scan s reads (text :: lines)
  | read {s : Stream} {last : Byte} {buf : List Byte} {k : ℕ} {reads : List ℕ}
      {lines : List (List Byte)} : scan s.last s.buf = (none, last, buf) → s.eof = false →
      Yields scan (Stream.read k { s with last, buf }) reads lines → Yields scan s (k :: reads) lines
  | done {s : Stream} {last : Byte} {buf : List Byte} {reads : List ℕ} :
      scan s.last s.buf = (none, last, buf) → s.eof = true → Yields scan s reads []

/-- What is left when there is no line to return is not looked at in vain, and is not too long while the
text has `P`. -/
structure Scans (scan : Scanner) (P : List Byte → Prop) : Prop where
  idle : ∀ last buf last' buf', scan last buf = (none, last', buf') →
    scan last' buf' = (none, last', buf')
  shrinks : ∀ last buf text last' buf', scan last buf = (some text, last', buf') →
    buf'.length < buf.length
  keepsLine : ∀ last buf text last' buf' more, scan last buf = (some text, last', buf') →
    P (buf ++ more) → P (buf' ++ more)
  keepsNone : ∀ last buf last' buf' more, scan last buf = (none, last', buf') →
    P (buf ++ more) → P (buf' ++ more) ∧ buf'.length ≤ buf.length ∧ buf'.length < bufferSize

/-- The reads will do for the rest of the stream, after whose end there is no more to return. -/
structure Ready (scan : Scanner) (P : List Byte → Prop) (s : Stream) (reads : List ℕ) : Prop where
  settled : s.eof = true → ∃ last buf, scan s.last s.buf = (none, last, buf)
  text : P (s.buf ++ s.pending)
  enough : s.eof = true ∨ s.pending.length < reads.length

def Stream.size (s : Stream) : ℕ := s.buf.length + s.pending.length

section OneStream

variable {scan : Scanner} {P : List Byte → Prop} {s : Stream} {reads : List ℕ} {last : Byte}
  {buf : List Byte} {lines : List (List Byte)} {text : List Byte}

/-- When there is a line it comes next. -/
theorem Yields.line_inv (h : Yields scan s reads lines)
    (hs : scan s.last s.buf = (some text, last, buf)) :
    ∃ lines', lines = text :: lines' ∧ Yields scan { s with last, buf } reads lines' := by
  cases h with
  | line hline h =>
    cases hs.symm.trans hline
    exact ⟨_, rfl, h⟩
  | read hnone _ _ => cases hs.symm.trans hnone
  | done hnone _ => cases hs.symm.trans hnone

/-- When there is none the stream is read. -/
theorem Yields.read_inv {k : ℕ} (h : Yields scan s (k :: reads) lines)
    (hs : scan s.last s.buf = (none, last, buf)) (heof : s.eof = false) :
    Yields scan (Stream.read k { s with last, buf }) reads lines := by
  cases h with
  | line hline _ => cases hs.symm.trans hline
  | read hnone _ h =>
    cases hs.symm.trans hnone
    exact h
  | done _ htrue => cases heof.symm.trans htrue

theorem Yields.scanned (hscan : Scans scan P) (hs : scan s.last s.buf = (none, last, buf))
    (h : Yields scan { s with last, buf } reads lines) : Yields scan s reads lines := by
  have hidle := hscan.idle _ _ _ _ hs
  cases h with
  | line hline _ => cases hidle.symm.trans hline
  | read hnone heof h =>
    cases hidle.symm.trans hnone
    exact .read hs heof h
  | done hnone heof => exact .done hs heof

theorem Ready.scanned (hscan : Scans scan P) (h : Ready scan P s reads)
    (hs : scan s.last s.buf = (none, last, buf)) : Ready scan P { s with last, buf } reads where
  settled _ := ⟨last, buf, hscan.idle _ _ _ _ hs⟩
  text := (hscan.keepsNone _ _ _ _ _ hs h.text).1
  enough := h.enough

theorem Ready.line (hscan : Scans scan P) (h : Ready scan P s reads)
    (hs : scan s.last s.buf = (some text, last, buf)) : Ready scan P { s with last, buf } reads where
  settled heof := by
    obtain ⟨last', buf', hnone⟩ := h.settled heof
    cases hs.symm.trans hnone
  text := hscan.keepsLine _ _ _ _ _ _ hs h.text
  enough := h.enough

/-- Reading goes on until the end. -/
theorem Stream.read_enough {k : ℕ} (hroom : s.buf.length < bufferSize) {n : ℕ}
    (h : s.pending.length < n + 1) : (s.read k).eof = true ∨ (s.read k).pending.length < n := by
  change (s.pending.take _).isEmpty = true ∨ (s.pending.drop _).length < n
  cases hp : s.pending with
  | nil =>
    rw [List.take_nil]
    exact Or.inl rfl
  | cons c rest =>
    rw [hp, List.length_cons] at h
    rw [List.length_drop, List.length_cons]
    have hpos : 0 < min (k + 1) (bufferSize - s.buf.length) := by
      rw [lt_min_iff]
      exact ⟨Nat.succ_pos k, Nat.sub_pos_of_lt hroom⟩
    right
    omega

theorem Stream.read_text (k : ℕ) : (s.read k).buf ++ (s.read k).pending = s.buf ++ s.pending := by
  change s.buf ++ s.pending.take _ ++ s.pending.drop _ = _
  rw [List.append_assoc, List.take_append_drop]

theorem Stream.read_eof {k : ℕ} (h : (s.read k).eof = true) : (s.read k).buf = s.buf := by
  change (s.pending.take _).isEmpty = true at h
  change s.buf ++ s.pending.take _ = s.buf
  rw [List.isEmpty_iff.mp h, List.append_nil]

variable (lines) in
/-- The stream is looked at, and there may be something to read. -/
theorem Ready.next {r : Option ℕ} (h : Ready scan P s (r.toList ++ reads))
    (hnone : scan s.last s.buf = (none, s.last, s.buf)) (hroom : s.buf.length < bufferSize) :
    Ready scan P (s.ready r) reads ∧ (s.ready r).size = s.size ∧
      (Yields scan (s.ready r) reads lines → Yields scan s (r.toList ++ reads) lines) := by
  cases r with
  | none => exact ⟨h, rfl, id⟩
  | some k =>
    unfold Stream.ready
    dsimp only
    cases heof : s.eof with
    | true =>
      rw [if_pos rfl]
      refine ⟨⟨fun _ => ⟨_, _, hnone⟩, h.text, Or.inl heof⟩, rfl, fun hy => ?_⟩
      cases hy with
      | line hline _ => cases hnone.symm.trans hline
      | read _ hne _ => cases heof.symm.trans hne
      | done hn _ => exact .done hn heof
    | false =>
      rw [if_neg Bool.false_ne_true]
      have hleft : s.pending.length < reads.length + 1 := by
        rcases h.enough with he | he
        · cases heof.symm.trans he
        · exact he
      refine ⟨⟨fun he => ?_, ?_, Stream.read_enough hroom hleft⟩, ?_, fun hy => .read hnone heof hy⟩
      · rw [Stream.read_eof he]
        exact ⟨_, _, hnone⟩
      · rw [Stream.read_text]
        exact h.text
      · unfold Stream.size
        rw [← List.length_append, ← List.length_append, Stream.read_text]

end OneStream

/-! ## Calls -/

def Session.size (s : Session) : ℕ := s.out.size + s.err.size

variable {P Q : List Byte → Prop}

/-- What has been found out after some of the rounds, or in a call: the lines still to come continue
those found, `fst` on stdout and `snd` on stderr. -/
structure Continues (P Q : List Byte → Prop) (rounds rounds' : List Round) (s s' : Session)
    (fst snd : List (List Byte)) : Prop where
  out : Ready stdoutLine P s'.out (rounds'.filterMap (·.out))
  err : Ready stderrLine Q s'.err (rounds'.filterMap (·.err))
  outYields : ∀ lines, Yields stdoutLine s'.out (rounds'.filterMap (·.out)) lines →
    Yields stdoutLine s.out (rounds.filterMap (·.out)) (fst ++ lines)
  errYields : ∀ lines, Yields stderrLine s'.err (rounds'.filterMap (·.err)) lines →
    Yields stderrLine s.err (rounds.filterMap (·.err)) (snd ++ lines)

/-- The end of both streams: there are no more lines. -/
structure Over (rounds : List Round) (s : Session) : Prop where
  null : queryGetline rounds s = .null
  out : Yields stdoutLine s.out (rounds.filterMap (·.out)) []
  err : Yields stderrLine s.err (rounds.filterMap (·.err)) []

/-- A line is returned. -/
def Returns (P Q : List Byte → Prop) (rounds : List Round) (s : Session) : Prop :=
  ∃ b text s' rounds', queryGetline rounds s = .line b text s' rounds' ∧ s'.size < s.size ∧
    Continues P Q rounds rounds' s s' (if b then [] else [text]) (if b then [text] else [])

/-- What is done before `select()` is called again. -/
theorem getline_step (hP : Scans stdoutLine P) (hQ : Scans stderrLine Q) {rounds : List Round}
    {s : Session} (hout : Ready stdoutLine P s.out (rounds.filterMap (·.out)))
    (herr : Ready stderrLine Q s.err (rounds.filterMap (·.err))) :
    Over rounds s ∨ Returns P Q rounds s ∨
    ∃ r rest s₁, rounds = r :: rest ∧ queryGetline rounds s = queryGetline rest s₁ ∧
      s₁.size ≤ s.size ∧ Continues P Q rounds rest s s₁ [] [] := by
  by_cases hend : s.out.eof ∧ s.err.eof
  · obtain ⟨_, _, hn⟩ := hout.settled hend.1
    obtain ⟨_, _, hn'⟩ := herr.settled hend.2
    refine Or.inl ⟨?_, .done hn hend.1, .done hn' hend.2⟩
    rw [queryGetline.eq_def, if_pos hend]
  right
  rcases hso : stdoutLine s.out.last s.out.buf with ⟨_ | text, last, buf⟩
  · obtain ⟨-, hle, hroom⟩ := hP.keepsNone _ _ _ _ _ hso hout.text
    have hout₁ := hout.scanned hP hso
    rcases hse : stderrLine s.err.last s.err.buf with ⟨_ | text, last', buf'⟩
    · right
      obtain ⟨-, hle', hroom'⟩ := hQ.keepsNone _ _ _ _ _ hse herr.text
      have herr₁ := herr.scanned hQ hse
      have hsame : last' = s.err.last ∧ buf' = s.err.buf := by
        unfold stderrLine at hse
        split at hse
        · cases hse
        · cases hse
          exact ⟨rfl, rfl⟩
      obtain ⟨rfl, rfl⟩ := hsame
      cases rounds with
      | nil =>
        exfalso
        refine hend ⟨?_, ?_⟩
        · exact hout.enough.resolve_right (Nat.not_lt_zero _)
        · exact herr.enough.resolve_right (Nat.not_lt_zero _)
      | cons r rest =>
        rw [List.filterMap_cons_toList] at hout₁ herr₁
        have hnext := fun lines => hout₁.next lines (hP.idle _ _ _ _ hso) hroom
        have hnext' := fun lines => herr₁.next lines hse hroom'
        refine ⟨r, rest, ⟨Stream.ready r.out { s.out with last, buf }, s.err.ready r.err⟩, rfl, ?_, ?_, (hnext []).1, (hnext' []).1, fun lines hy => ?_,
          fun lines hy => ?_⟩
        · rw [queryGetline.eq_def, if_neg hend, hso]
          dsimp only
          rw [if_neg hroom.ne, hse]
          dsimp only
          rw [if_neg hroom'.ne]
        · change Stream.size _ + Stream.size _ ≤ Stream.size _ + Stream.size _
          rw [(hnext []).2.1, (hnext' []).2.1]
          unfold Stream.size
          dsimp only
          omega
        · rw [List.filterMap_cons_toList]
          exact .scanned hP hso ((hnext lines).2.2 hy)
        · rw [List.filterMap_cons_toList]
          exact (hnext' lines).2.2 hy
    · left
      have hlt := hQ.shrinks _ _ _ _ _ hse
      refine ⟨true, text, ⟨{ s.out with last, buf }, { s.err with last := last', buf := buf' }⟩,
        rounds, ?_, ?_, hout₁, herr.line hQ hse, fun lines hy => ?_, fun lines hy => .line hse hy⟩
      · rw [queryGetline.eq_def, if_neg hend, hso]
        dsimp only
        rw [if_neg hroom.ne, hse]
      · change Stream.size _ + Stream.size _ < Stream.size _ + Stream.size _
        unfold Stream.size
        dsimp only
        omega
      · exact .scanned hP hso hy
  · left
    have hlt := hP.shrinks _ _ _ _ _ hso
    refine ⟨false, text, ⟨{ s.out with last, buf }, s.err⟩, rounds, ?_, ?_, hout.line hP hso, herr,
      fun lines hy => .line hso hy, fun lines hy => hy⟩
    · rw [queryGetline.eq_def, if_neg hend, hso]
    · change Stream.size _ + Stream.size _ < Stream.size _ + Stream.size _
      unfold Stream.size
      dsimp only
      omega

/-- What a call does. -/
theorem getline_spec (hP : Scans stdoutLine P) (hQ : Scans stderrLine Q) {rounds : List Round}
    {s : Session} (hout : Ready stdoutLine P s.out (rounds.filterMap (·.out)))
    (herr : Ready stderrLine Q s.err (rounds.filterMap (·.err))) :
    Over rounds s ∨ Returns P Q rounds s := by
  induction rounds generalizing s with
  | nil =>
    rcases getline_step hP hQ hout herr with hover | hret | ⟨r, rest, s₁, hcons, -⟩
    · exact Or.inl hover
    · exact Or.inr hret
    · cases hcons
  | cons r rounds ih =>
    rcases getline_step hP hQ hout herr with hover | hret | ⟨r, rest, s₁, hcons, heq, hsize, hcont⟩
    · exact Or.inl hover
    · exact Or.inr hret
    · cases hcons
      rcases ih hcont.out hcont.err with hover | ⟨b, text, s', rounds', hline, hlt, hcont'⟩
      · exact Or.inl ⟨heq.trans hover.null, hcont.outYields _ hover.out, hcont.errYields _ hover.err⟩
      · refine Or.inr ⟨b, text, s', rounds', heq.trans hline, hlt.trans_le hsize, hcont'.out,
          hcont'.err, fun lines hy => ?_, fun lines hy => ?_⟩
        · exact hcont.outYields _ (hcont'.outYields lines hy)
        · exact hcont.errYields _ (hcont'.errYields lines hy)

/-- The lines of one of the streams among those that calls return. -/
def linesOf (isStderr : Bool) (lines : List (Bool × List Byte)) : List (List Byte) :=
  (lines.filter fun l => l.1 = isStderr).map (·.2)

/-- Calls return the lines of both streams, and then NULL. -/
theorem calls_spec (hP : Scans stdoutLine P) (hQ : Scans stderrLine Q) {n : ℕ} {rounds : List Round}
    {s : Session} (hout : Ready stdoutLine P s.out (rounds.filterMap (·.out)))
    (herr : Ready stderrLine Q s.err (rounds.filterMap (·.err))) (hn : s.size < n) :
    ∃ lines, calls n rounds s = (lines, .null) ∧
      Yields stdoutLine s.out (rounds.filterMap (·.out)) (linesOf false lines) ∧
      Yields stderrLine s.err (rounds.filterMap (·.err)) (linesOf true lines) := by
  induction n generalizing rounds s with
  | zero => exact absurd hn (Nat.not_lt_zero _)
  | succ n ih =>
    rcases getline_spec hP hQ hout herr with hover | ⟨b, text, s', rounds', hline, hlt, hcont⟩
    · refine ⟨[], ?_, hover.out, hover.err⟩
      rw [calls, hover.null]
    · obtain ⟨lines, hcalls, hyout, hyerr⟩ := ih hcont.out hcont.err (by omega)
      refine ⟨(b, text) :: lines, ?_, ?_, ?_⟩
      · rw [calls, hline]
        dsimp only
        rw [hcalls]
      · have hy := hcont.outYields _ hyout
        cases b <;> exact hy
      · have hy := hcont.errYields _ hyerr
        cases b <;> exact hy

theorem ready_connected {scan : Scanner} {P : List Byte → Prop} {text : List Byte}
    {reads : List ℕ} (ht : P text) (h : text.length < reads.length) :
    Ready scan P { pending := text } reads :=
  ⟨nofun, ht, Or.inr h⟩

end Ppr.Query
