import Ppr.Libppr.IntCopyJob

/-!
# Nothing is lost between pprdrv and the printer

What `int_copy_job()` has written is at every moment a prefix of what it has read, up to control-Ts
that are put in when nothing is pending, and it returns only when everything is written.  This holds
in every run in which the initialization string is written before a control-T is due, if it is not
empty, and in which standard input is never found empty when the end of the job is to be announced
(`Meets`).
-/

namespace Ppr

/-! ## What was read and written -/

/-- The bytes that some of the events carry. -/
def carried (f : CopyEvent → List Byte) (tr : List CopyEvent) : List Byte := tr.flatMap f

/-- The bytes read from standard input. -/
def dataIn : List CopyEvent → List Byte := carried fun
  | .stdin d => d
  | _ => []

/-- The bytes of the job written to the printer. -/
def dataOut : List CopyEvent → List Byte := carried fun
  | .printer d => d
  | _ => []

/-- The bytes read from the printer. -/
def feedIn : List CopyEvent → List Byte := carried fun
  | .feedback d => d
  | _ => []

/-- The bytes written to standard output. -/
def feedOut : List CopyEvent → List Byte := carried fun
  | .stdout d => d
  | _ => []

@[simp]
theorem carried_append (f : CopyEvent → List Byte) (tr tr' : List CopyEvent) :
    carried f (tr ++ tr') = carried f tr ++ carried f tr' :=
  List.flatMap_append

@[simp]
theorem carried_nil (f : CopyEvent → List Byte) : carried f [] = [] := rfl

@[simp]
theorem carried_cons (f : CopyEvent → List Byte) (e : CopyEvent) (tr : List CopyEvent) :
    carried f (e :: tr) = f e ++ carried f tr :=
  List.flatMap_cons

/-- An event is as it should be after the events `pre`. -/
def CopyEvent.Fine (p : CopyJob) (pre : List CopyEvent) : CopyEvent → Prop
  | .printer d => dataOut pre ++ d <+: p.init ++ dataIn pre
  | .inserted d => d = [0x14] ∧ dataOut pre = p.init ++ dataIn pre
  | .stdout d => feedOut pre ++ d <+: feedIn pre
  | .eoj => .stdinEof ∈ pre ∧ .eoj ∉ pre ∧ dataOut pre = p.init ++ dataIn pre
  | _ => True

/-- Every event is as it should be. -/
def AllFine (p : CopyJob) (tr : List CopyEvent) : Prop :=
  ∀ pre e post, tr = pre ++ e :: post → e.Fine p pre

theorem allFine_nil (p : CopyJob) : AllFine p [] := by
  intro pre e post h
  simp at h

theorem AllFine.snoc {p : CopyJob} {tr : List CopyEvent} (h : AllFine p tr) {e : CopyEvent}
    (he : e.Fine p tr) : AllFine p (tr ++ [e]) := by
  intro pre e' post heq
  rcases List.eq_nil_or_concat post with rfl | ⟨post, d, rfl⟩
  · obtain ⟨rfl, hlast⟩ := List.append_inj' heq rfl
    rw [← (List.cons.inj hlast).1]
    exact he
  · rw [List.concat_eq_append, ← List.cons_append, ← List.append_assoc] at heq
    exact h pre e' post (List.append_inj' heq rfl).1

/-- Everything that was read is written, and the end of the job was announced once. -/
structure Complete (p : CopyJob) (tr : List CopyEvent) : Prop where
  data : dataOut tr = p.init ++ dataIn tr
  feed : feedOut tr = feedIn tr
  ended : .stdinEof ∈ tr
  eoj : tr.count .eoj = if p.sendEoj then 1 else 0

/-- Nothing is lost: every event is as it should be, no assertion fails, and when `int_copy_job()`
returns everything is complete. -/
def Conserves (p : CopyJob) (t : CopyStatus) : Prop :=
  AllFine p t.state.events ∧
    match t with
    | .running _ => True
    | .returned s => Complete p s.events
    | .exited why _ => why ≠ .assertion

/-! ## The condition -/

/-- `read()` ends with `EAGAIN`. -/
def ReadOutcome.IsEagain : ReadOutcome → Prop
  | .eintr again => again.IsEagain
  | .eagain => True
  | _ => False

/-- Standard input is read in the round. -/
def Round.ReadsStdin (p : CopyJob) (s : CopyState) (r : Round) : Prop :=
  match r.select with
  | .ready stdin portWrite portRead stdout => (fdSets p s stdin portWrite portRead stdout).stdin
  | _ => False

/-- A control-T is due in the round. -/
def Round.DueControlT (s : CopyState) (r : Round) : Prop :=
  match r.select with
  | .timeout now => 0 < s.timeNextControlT ∧ s.timeNextControlT ≤ now
  | _ => False

/-- If the end of the job is to be announced, reading standard input does not give `EAGAIN`; and when
a control-T is due, the initialization string has been written. -/
def Meets (p : CopyJob) : CopyStatus → Round → Prop
  | .running s, r =>
    (p.sendEoj = true → r.ReadsStdin p s → ¬ r.stdinRead.IsEagain) ∧
      (r.DueControlT s → p.init <+: dataOut s.events)
  | _, _ => True

/-! ## The invariant -/

/-- What holds at every moment. -/
structure CopyInv (p : CopyJob) (s : CopyState) : Prop where
  fine : AllFine p s.events
  data : p.init ++ dataIn s.events = dataOut s.events ++ if s.xmitControlT then [] else s.xmit
  control : s.xmitControlT = true → s.xmit = [0x14] ∨ s.xmit = []
  idle : s.xmitState = .reading → s.xmit = []
  -- While the timer runs, it is the initialization string that is being written.
  timer : s.xmitState = .writing → 0 < s.timeNextControlT →
    dataIn s.events = [] ∧ s.xmitControlT = false
  feed : feedIn s.events = feedOut s.events ++ s.recv
  quiet : s.recvState = .reading → s.recv = []
  going : s.lastStdinRead ≠ 0 → .stdinEof ∉ s.events ∧ .eoj ∉ s.events
  ended : s.lastStdinRead = 0 → .stdinEof ∈ s.events ∧ (s.xmitControlT = true ∨ s.xmit = []) ∧
    s.events.count .eoj = if p.sendEoj then 1 else 0

/-- There is something to write. -/
def CopyState.Busy (s : CopyState) : Prop := s.xmitState = .writing → s.xmit ≠ []

/-- A part of a round keeps the invariant. -/
def Good (p : CopyJob) : CopyM → Prop
  | .ok s => CopyInv p s ∧ s.Busy
  | .error (why, s) => AllFine p s.events ∧ why ≠ .assertion

theorem CopyInv.start (p : CopyJob) (hinit : p.initString ≠ some []) : CopyInv p p.start where
  fine := allFine_nil p
  data := List.append_nil _
  control := fun h => by cases h
  idle := by
    intro h
    cases hp : p.initString with
    | none => simp [CopyJob.start, CopyJob.init, hp]
    | some l => simp [CopyJob.start, hp] at h
  timer := fun _ _ => ⟨rfl, rfl⟩
  feed := rfl
  quiet := fun _ => rfl
  going := fun _ => ⟨List.not_mem_nil, List.not_mem_nil⟩
  ended := by
    intro h
    cases hp : p.initString with
    | none => simp [CopyJob.start, hp] at h
    | some l =>
      simp only [CopyJob.start, hp, Nat.cast_eq_zero, List.length_eq_zero_iff] at h
      exact absurd (by rw [hp, h]) hinit

theorem busy_start (p : CopyJob) (hinit : p.initString ≠ some []) : p.start.Busy := by
  intro h he
  cases hp : p.initString with
  | none => simp [CopyJob.start, hp] at h
  | some l =>
    refine hinit ?_
    rw [hp]
    simpa [CopyJob.start, CopyJob.init, hp] using he

/-- While nothing is pending, everything is written. -/
theorem CopyInv.written {p : CopyJob} {s : CopyState} (h : CopyInv p s)
    (hx : s.xmitControlT = true ∨ s.xmit = []) : dataOut s.events = p.init ++ dataIn s.events := by
  have hd := h.data
  rcases hx with hx | hx
  · rw [hx] at hd
    simpa using hd.symm
  · rw [hx] at hd
    simpa using hd.symm

/-! ## The parts of a round -/

section Parts

variable {p : CopyJob} {s : CopyState}

theorem fromStdin_good (h : CopyInv p s) (hstate : s.xmitState = .reading)
    (hlast : s.lastStdinRead ≠ 0) (r : ReadOutcome) (hr : p.sendEoj = true → ¬ r.IsEagain) :
    Good p (fromStdin p s r) := by
  have hwritten := h.written (.inr (h.idle hstate))
  obtain ⟨heof, heoj⟩ := h.going hlast
  induction r with
  | data l hne hshort =>
    have hpos : (l.length : ℤ) ≠ 0 := by simpa using hne
    refine ⟨?_, fun _ => hne⟩
    exact {
      fine := h.fine.snoc trivial
      data := by
        simp [CopyState.note, dataIn, dataOut] at hwritten ⊢
        rw [hwritten]
        simp
      control := fun hc => by cases hc
      idle := fun hs => by cases hs
      timer := fun _ ht => by cases ht
      feed := by simpa [CopyState.note, feedIn, feedOut] using h.feed
      quiet := h.quiet
      going := fun _ => by simp [CopyState.note, heof, heoj]
      ended := fun hz => absurd hz hpos }
  | eof =>
    have hended : AllFine p (s.events ++ [.stdinEof]) := h.fine.snoc trivial
    cases hsend : p.sendEoj with
    | false =>
      rw [fromStdin, stdinNothing, hsend]
      refine ⟨?_, fun hs => by cases hstate.symm.trans hs⟩
      exact {
        fine := hended
        data := by simpa [CopyState.note, dataIn, dataOut] using hwritten.symm
        control := fun hc => by cases hc
        idle := fun _ => rfl
        timer := fun hs => by cases hstate.symm.trans hs
        feed := by simpa [CopyState.note, feedIn, feedOut] using h.feed
        quiet := h.quiet
        going := fun hz => absurd rfl hz
        ended := fun _ => by simp [CopyState.note, hsend, List.count_eq_zero.2 heoj] }
    | true =>
      rw [fromStdin, stdinNothing, hsend]
      refine ⟨?_, fun hs => by cases hstate.symm.trans hs⟩
      exact {
        fine := by
          refine hended.snoc ⟨by simp, by simpa using heoj, ?_⟩
          simpa [CopyState.note, dataIn, dataOut] using hwritten
        data := by simpa [CopyState.note, dataIn, dataOut] using hwritten.symm
        control := fun hc => by cases hc
        idle := fun _ => rfl
        timer := fun hs => by cases hstate.symm.trans hs
        feed := by simpa [CopyState.note, feedIn, feedOut] using h.feed
        quiet := h.quiet
        going := fun hz => absurd rfl hz
        ended := fun _ => by simp [CopyState.note, hsend, List.count_eq_zero.2 heoj] }
  | eintr again ih => exact ih hr
  | eagain =>
    have hno : p.sendEoj = false := by
      by_contra hyes
      exact hr (by simpa using hyes) trivial
    rw [fromStdin, stdinNothing, hno]
    refine ⟨?_, fun hs => by cases hstate.symm.trans hs⟩
    exact {
      fine := h.fine
      data := by simpa using hwritten.symm
      control := fun hc => by cases hc
      idle := fun _ => rfl
      timer := fun hs => by cases hstate.symm.trans hs
      feed := h.feed
      quiet := h.quiet
      going := fun _ => ⟨heof, heoj⟩
      ended := fun hz => by cases hz }
  | failed returns => exact ⟨h.fine, by decide⟩

/-- After `write()` there is something to write, or the state is that of reading. -/
theorem afterWrite_good (h : CopyInv p s) (now : ℤ) :
    CopyInv p (afterWrite p now s) ∧ (afterWrite p now s).Busy := by
  unfold afterWrite
  by_cases hx : s.xmit = []
  · rw [if_pos hx]
    refine ⟨?_, fun hs => by cases hs⟩
    exact {
      fine := h.fine
      data := h.data
      control := h.control
      idle := fun _ => hx
      timer := fun hs => by cases hs
      feed := h.feed
      quiet := h.quiet
      going := h.going
      ended := h.ended }
  · rw [if_neg hx]
    exact ⟨h, fun _ => hx⟩

/-- Some bytes were written to the printer. -/
theorem sent_good (h : CopyInv p s) (hstate : s.xmitState = .writing) {n : ℕ}
    (hn : s.xmit.take n ≠ []) :
    CopyInv p { s.note (if s.xmitControlT then .inserted (s.xmit.take n) else
      .printer (s.xmit.take n)) with xmit := s.xmit.drop n } := by
  cases hc : s.xmitControlT with
  | true =>
    obtain ⟨hx, htake⟩ : s.xmit.drop n = [] ∧ s.xmit.take n = [0x14] := by
      rcases h.control hc with hx | hx
      · rw [hx] at hn ⊢
        cases n with
        | zero => exact absurd rfl hn
        | succ n => simp
      · rw [hx, List.take_nil] at hn
        exact absurd rfl hn
    have hwritten := h.written (.inl hc)
    exact {
      fine := h.fine.snoc ⟨htake, hwritten⟩
      data := by simpa [CopyState.note, dataIn, dataOut, hc] using hwritten.symm
      control := fun _ => .inr hx
      idle := fun hs => by cases hstate.symm.trans hs
      timer := fun hs ht => by
        obtain ⟨-, hc'⟩ := h.timer hstate ht
        rw [hc] at hc'
        cases hc'
      feed := by simpa [CopyState.note, feedIn, feedOut] using h.feed
      quiet := h.quiet
      going := fun hz => by simpa [CopyState.note] using h.going hz
      ended := fun hz => by
        obtain ⟨heof, -, hcount⟩ := h.ended hz
        exact ⟨List.mem_append_left _ heof, .inl hc, by simpa [CopyState.note] using hcount⟩ }
  | false =>
    have hdata : p.init ++ dataIn s.events = dataOut s.events ++ s.xmit := by
      simpa [hc] using h.data
    exact {
      fine := by
        refine h.fine.snoc ?_
        show dataOut s.events ++ s.xmit.take n <+: p.init ++ dataIn s.events
        rw [hdata]
        exact (List.prefix_append_right_inj _).2 (List.take_prefix _ _)
      data := by
        have : p.init ++ dataIn s.events = dataOut s.events ++ s.xmit.take n ++ s.xmit.drop n := by
          rw [List.append_assoc, List.take_append_drop, hdata]
        simpa [CopyState.note, dataIn, dataOut, hc] using this
      control := fun hc' => by cases hc.symm.trans hc'
      idle := fun hs => by cases hstate.symm.trans hs
      timer := fun _ ht => by simpa [CopyState.note, dataIn, hc] using (h.timer hstate ht).1
      feed := by simpa [CopyState.note, feedIn, feedOut] using h.feed
      quiet := h.quiet
      going := fun hz => by simpa [CopyState.note] using h.going hz
      ended := fun hz => by
        obtain ⟨heof, hx, hcount⟩ := h.ended hz
        refine ⟨List.mem_append_left _ heof, .inr ?_, by simpa [CopyState.note] using hcount⟩
        rw [hx.resolve_left (by simp [hc]), List.drop_nil] }

theorem toPrinter_good (h : CopyInv p s) (hstate : s.xmitState = .writing) (now : ℤ)
    (w : WriteOutcome) : Good p (toPrinter p now s w) := by
  induction w with
  | wrote n =>
    refine afterWrite_good ?_ now
    unfold CopyState.sent
    by_cases hn : s.xmit.take (min n s.xmit.length) = []
    · rw [if_pos hn]
      have hlen := congrArg List.length hn
      rw [List.length_take, List.length_nil] at hlen
      have hzero : min n s.xmit.length = 0 := by omega
      rw [hzero, List.drop_zero]
      exact { h with }
    · rw [if_neg hn]
      have hsent := sent_good h hstate hn
      exact { hsent with }
  | eintr again ih => exact ih
  | eagain =>
    have hwrong : CopyInv p { s with selectWriteWrong := s.selectWriteWrong + 1 } := { h with }
    exact afterWrite_good hwrong now
  | failed returns =>
    cases returns with
    | true => exact afterWrite_good h now
    | false => exact ⟨h.fine, by decide⟩

/-- The event is not about the job itself. -/
def CopyEvent.isAside : CopyEvent → Bool
  | .feedback _ | .stdout _ | .status => true
  | _ => false

/-- What is not about the job only matters for what the printer says. -/
theorem CopyInv.aside (h : CopyInv p s) (e : CopyEvent) (he : e.isAside = true)
    (hfine : e.Fine p s.events) {recv : List Byte} {phase : CopyPhase}
    (hfeed : feedIn (s.events ++ [e]) = feedOut (s.events ++ [e]) ++ recv)
    (hquiet : phase = .reading → recv = []) :
    CopyInv p { s.note e with recv := recv, recvState := phase } := by
  have hin : dataIn (s.events ++ [e]) = dataIn s.events := by
    cases e with
    | feedback | stdout | status => simp [dataIn]
    | _ => cases he
  have hout : dataOut (s.events ++ [e]) = dataOut s.events := by
    cases e with
    | feedback | stdout | status => simp [dataOut]
    | _ => cases he
  have heof : CopyEvent.stdinEof ∈ s.events ++ [e] ↔ CopyEvent.stdinEof ∈ s.events := by
    cases e with
    | feedback | stdout | status => simp
    | _ => cases he
  have heoj : (s.events ++ [e]).count .eoj = s.events.count .eoj := by
    cases e with
    | feedback | stdout | status => simp
    | _ => cases he
  exact {
    fine := h.fine.snoc hfine
    data := by
      show p.init ++ dataIn (s.events ++ [e]) = dataOut (s.events ++ [e]) ++ _
      rw [hin, hout]
      exact h.data
    control := h.control
    idle := h.idle
    timer := fun hs ht => ⟨hin.trans (h.timer hs ht).1, (h.timer hs ht).2⟩
    feed := hfeed
    quiet := hquiet
    going := fun hz => by
      obtain ⟨h1, h2⟩ := h.going hz
      refine ⟨fun hm => h1 (heof.1 hm), ?_⟩
      rw [← List.count_eq_zero] at h2 ⊢
      exact heoj.trans h2
    ended := fun hz => by
      obtain ⟨h1, h2, h3⟩ := h.ended hz
      exact ⟨heof.2 h1, h2, heoj.trans h3⟩ }

theorem fromPrinter_good (h : CopyInv p s) (hb : s.Busy) (hstate : s.recvState = .reading)
    (r : ReadOutcome) : Good p (fromPrinter s r) := by
  have hrecv := h.quiet hstate
  have hfeed : feedIn s.events = feedOut s.events := by simpa [hrecv] using h.feed
  induction r with
  | data l hne hshort =>
    have hnoted : CopyInv p { s.note (.feedback l) with recv := l, recvState := .writing } :=
      h.aside (.feedback l) rfl trivial (by simpa [feedIn, feedOut] using hfeed) fun hs => by cases hs
    exact ⟨{ hnoted with }, hb⟩
  | eof => exact ⟨{ h with feed := by simpa using hfeed, quiet := fun _ => rfl }, hb⟩
  | eintr again ih => exact ih
  | eagain => exact ⟨{ h with feed := by simpa using hfeed, quiet := fun _ => rfl }, hb⟩
  | failed returns =>
    cases returns with
    | true => exact ⟨{ h with feed := by simpa using hfeed, quiet := fun _ => rfl }, hb⟩
    | false => exact ⟨h.fine, by decide⟩

theorem afterStdout_good (h : CopyInv p s) (hb : s.Busy) :
    CopyInv p (afterStdout s) ∧ (afterStdout s).Busy := by
  unfold afterStdout
  by_cases hr : s.recv = []
  · rw [if_pos hr]
    exact ⟨{ h with quiet := fun _ => hr }, hb⟩
  · rw [if_neg hr]
    exact ⟨h, hb⟩

theorem toStdout_good (h : CopyInv p s) (hb : s.Busy) (w : WriteOutcome) :
    Good p (toStdout s w) := by
  induction w with
  | wrote n =>
    rw [toStdout]
    by_cases hn : s.recv.take (min n s.recv.length) = []
    · rw [if_pos hn]
      have hlen := congrArg List.length hn
      rw [List.length_take, List.length_nil] at hlen
      have hzero : min n s.recv.length = 0 := by omega
      rw [hzero, List.drop_zero]
      exact afterStdout_good h hb
    · rw [if_neg hn]
      set len := min n s.recv.length
      have hfeed : feedIn s.events = feedOut s.events ++ s.recv.take len ++ s.recv.drop len := by
        rw [List.append_assoc, List.take_append_drop]
        exact h.feed
      have hfine : (CopyEvent.stdout (s.recv.take len)).Fine p s.events := by
        show feedOut s.events ++ s.recv.take len <+: feedIn s.events
        rw [hfeed]
        exact List.prefix_append _ _
      have hnoted : CopyInv p { s.note (.stdout (s.recv.take len)) with
          recv := s.recv.drop len, recvState := s.recvState } := by
        refine h.aside _ rfl hfine (by simpa [feedIn, feedOut] using hfeed) fun hs => ?_
        rw [h.quiet hs, List.drop_nil]
      exact afterStdout_good hnoted hb
  | eintr again ih => exact ih
  | eagain => exact afterStdout_good h hb
  | failed returns => exact ⟨h.fine, by decide⟩

theorem onTimeout_good (h : CopyInv p s) (hb : s.Busy) (now : ℤ)
    (hdue : 0 < s.timeNextControlT ∧ s.timeNextControlT ≤ now → p.init <+: dataOut s.events) :
    Good p (onTimeout p now s) := by
  -- The status function changes nothing that matters.
  have status : ∀ {s : CopyState}, CopyInv p s → s.Busy → Good p (.ok (if 0 < s.timeNextStatus ∧
      s.timeNextStatus ≤ now then { s with timeNextStatus := now + p.statusInterval }.note .status
      else s)) := by
    intro s h hb
    split_ifs
    · have hnoted : CopyInv p { s.note .status with recv := s.recv, recvState := s.recvState } :=
        h.aside .status rfl trivial (by simpa [feedIn, feedOut] using h.feed) h.quiet
      exact ⟨{ hnoted with }, hb⟩
    · exact ⟨h, hb⟩
  unfold onTimeout
  by_cases ht : 0 < s.timeNextControlT ∧ s.timeNextControlT ≤ now
  · rw [if_pos ht]
    by_cases hstate : s.xmitState = .reading
    · rw [if_neg (not_not.2 hstate)]
      have hwritten := h.written (.inr (h.idle hstate))
      refine status ?_ fun _ => List.cons_ne_nil _ _
      exact { h with
        data := by simpa using hwritten.symm
        control := fun _ => .inl rfl
        idle := fun hs => by cases hs
        timer := fun _ ht => by cases ht
        ended := fun hz => ⟨(h.ended hz).1, .inl rfl, (h.ended hz).2.2⟩ }
    · -- The timer runs, so the initialization string is not written yet.
      have hw : s.xmitState = .writing := by
        cases hs : s.xmitState with
        | reading => exact absurd hs hstate
        | writing => rfl
      obtain ⟨hin, hc⟩ := h.timer hw ht.1
      have hdata := h.data
      rw [hin, hc, List.append_nil] at hdata
      have hle := (hdue ht).length_le
      rw [hdata, if_neg (by simp), List.length_append] at hle
      exact absurd (List.length_eq_zero_iff.1 (by omega)) (hb hw)
  · rw [if_neg ht]
    exact status h hb

/-- What goes to the printer leaves alone what comes from it. -/
theorem fromStdin_recvState {t : CopyState} (r : ReadOutcome) (ht : fromStdin p s r = .ok t) :
    t.recvState = s.recvState := by
  induction r with
  | data =>
    cases ht
    rfl
  | eof | eagain =>
    cases ht
    unfold stdinNothing
    split_ifs <;> rfl
  | eintr again ih => exact ih ht
  | failed => cases ht

theorem afterWrite_recvState (now : ℤ) : (afterWrite p now s).recvState = s.recvState := by
  unfold afterWrite
  by_cases hx : s.xmit = []
  · rw [if_pos hx]
  · rw [if_neg hx]

theorem toPrinter_recvState {t : CopyState} (now : ℤ) (w : WriteOutcome)
    (ht : toPrinter p now s w = .ok t) : t.recvState = s.recvState := by
  induction w with
  | wrote n =>
    cases ht
    rw [afterWrite_recvState]
    show (s.sent _).recvState = s.recvState
    unfold CopyState.sent
    split_ifs <;> rfl
  | eintr again ih => exact ih ht
  | eagain =>
    cases ht
    rw [afterWrite_recvState]
  | failed returns =>
    cases returns with
    | true =>
      cases ht
      rw [afterWrite_recvState]
    | false => cases ht

theorem onReady_good (h : CopyInv p s) (hb : s.Busy) (r : Round)
    (stdin portWrite portRead stdout : Bool)
    (hr : p.sendEoj = true → (fdSets p s stdin portWrite portRead stdout).stdin = true →
      ¬ r.stdinRead.IsEagain) :
    Good p (onReady p r (fdSets p s stdin portWrite portRead stdout) s) := by
  set fds := fdSets p s stdin portWrite portRead stdout with hfds
  have hstdin : fds.stdin = true → s.xmitState = .reading ∧ s.lastStdinRead ≠ 0 := by
    intro hf
    simp only [hfds, fdSets, Bool.and_eq_true, decide_eq_true_eq] at hf
    exact ⟨hf.1.2, hf.2⟩
  have hportWrite : fds.portWrite = true → s.xmitState = .writing := by
    intro hf
    simp only [hfds, fdSets, Bool.and_eq_true, decide_eq_true_eq] at hf
    exact hf.2
  have hportRead : fds.portRead = true → s.recvState = .reading := by
    intro hf
    simp only [hfds, fdSets, Bool.and_eq_true, decide_eq_true_eq] at hf
    exact hf.2
  have hstdout : fds.stdout = true → s.recvState = .writing := by
    intro hf
    simp only [hfds, fdSets, Bool.and_eq_true, decide_eq_true_eq] at hf
    exact hf.2
  -- The part for what the printer says, after the part for the job.
  have recv : ∀ {t : CopyState}, CopyInv p t → t.Busy → t.recvState = s.recvState →
      Good p (if fds.portRead = true then fromPrinter t r.portRead
        else if fds.stdout = true then toStdout t r.stdoutWrite else .ok t) := by
    intro t ht hbt hrs
    by_cases h1 : fds.portRead = true
    · rw [if_pos h1]
      exact fromPrinter_good ht hbt (hrs.trans (hportRead h1)) r.portRead
    rw [if_neg h1]
    by_cases h2 : fds.stdout = true
    · rw [if_pos h2]
      exact toStdout_good ht hbt r.stdoutWrite
    · rw [if_neg h2]
      exact ⟨ht, hbt⟩
  have chain : ∀ {x : CopyM}, Good p x → (∀ t, x = .ok t → t.recvState = s.recvState) →
      Good p (x >>= fun t => if fds.portRead = true then fromPrinter t r.portRead
        else if fds.stdout = true then toStdout t r.stdoutWrite else .ok t) := by
    intro x hx hrs
    cases x with
    | error e => exact hx
    | ok t => exact recv hx.1 hx.2 (hrs t rfl)
  unfold onReady
  rw [if_neg]
  · by_cases h1 : fds.stdin = true
    · rw [if_pos h1]
      obtain ⟨hstate, hlast⟩ := hstdin h1
      exact chain (fromStdin_good h hstate hlast _ fun he => hr he h1)
        fun t => fromStdin_recvState r.stdinRead
    rw [if_neg h1]
    by_cases h2 : fds.portWrite = true
    · rw [if_pos h2]
      exact chain (toPrinter_good h (hportWrite h2) r.now r.portWrite)
        fun t => toPrinter_recvState r.now r.portWrite
    · rw [if_neg h2]
      exact chain ⟨h, hb⟩ fun t ht => by cases ht; rfl
  · rintro (⟨hf, hn⟩ | ⟨hf, hn⟩ | ⟨hf, hn⟩ | ⟨hf, hn⟩)
    · exact hn (hstdin hf).1
    · exact hn (hportWrite hf)
    · exact hn (hportRead hf)
    · exact hn (hstdout hf)

theorem copyRound_good (h : CopyInv p s) (hb : s.Busy) (r : Round) (hm : Meets p (.running s) r) :
    Good p (copyRound p r s) := by
  obtain ⟨heagain, hdue⟩ := hm
  unfold copyRound
  by_cases hwrong : 10 < s.selectWriteWrong ∨ 10 < s.selectReadWrong
  · rw [if_pos hwrong]
    exact ⟨h.fine, by decide⟩
  rw [if_neg hwrong]
  unfold Round.ReadsStdin at heagain
  unfold Round.DueControlT at hdue
  cases hsel : r.select with
  | eintr => exact ⟨h, hb⟩
  | failed returns =>
    cases returns with
    | true => exact ⟨h, hb⟩
    | false => exact ⟨h.fine, by decide⟩
  | timeout now =>
    rw [hsel] at hdue
    exact onTimeout_good h hb now hdue
  | ready stdin portWrite portRead stdout =>
    rw [hsel] at heagain
    exact onReady_good h hb r stdin portWrite portRead stdout heagain

end Parts

/-! ## Every run -/

/-- What holds of a status. -/
def StatusInv (p : CopyJob) : CopyStatus → Prop
  | .running s => CopyInv p s ∧ s.Busy
  | .returned s => CopyInv p s ∧ Complete p s.events
  | .exited why s => AllFine p s.events ∧ why ≠ .assertion

/-- When the loop ends, everything is written. -/
theorem CopyInv.complete {p : CopyJob} {s : CopyState} (h : CopyInv p s) (hend : ¬ s.goesOn p) :
    Complete p s.events := by
  unfold CopyState.goesOn at hend
  push Not at hend
  obtain ⟨hlast, hrecv, -⟩ := hend
  obtain ⟨heof, hx, hcount⟩ := h.ended hlast
  refine ⟨h.written hx, ?_, heof, hcount⟩
  rw [h.feed, hrecv, List.append_nil]

theorem StatusInv.step {p : CopyJob} {t : CopyStatus} (h : StatusInv p t) {r : Round}
    (hm : Meets p t r) : StatusInv p (copyStep p r t) := by
  cases t with
  | running s =>
    obtain ⟨hinv, hb⟩ := h
    unfold copyStep
    dsimp only
    by_cases hgo : s.goesOn p
    · rw [if_pos hgo]
      have hgood := copyRound_good hinv hb r hm
      cases hround : copyRound p r s with
      | ok s' =>
        rw [hround] at hgood
        exact hgood
      | error e =>
        rw [hround] at hgood
        exact hgood
    · rw [if_neg hgo]
      exact ⟨hinv, hinv.complete hgo⟩
  | returned s => exact h
  | exited why s => exact h

/-- In every run whose rounds meet the condition, nothing is lost. -/
theorem copyRun_conserves {p : CopyJob} (hinit : p.initString ≠ some [])
    {h : List (CopyStatus × Round)} {t : CopyStatus} (run : CopyRun p h t)
    (hmeets : ∀ x ∈ h, Meets p x.1 x.2) : Conserves p t := by
  have hinv : (∀ x ∈ h, Meets p x.1 x.2) → StatusInv p t := by
    refine Machine.Run.history_invariant (I := fun h t => (∀ x ∈ h, Meets p x.1 x.2) → StatusInv p t)
      ?_ ?_ run
    · rintro s rfl -
      exact ⟨CopyInv.start p hinit, busy_start p hinit⟩
    · rintro h s r u ih rfl hm
      exact (ih fun x hx => hm x (List.mem_cons_of_mem _ hx)).step (hm _ (List.mem_cons_self ..))
  have ht := hinv hmeets
  cases t with
  | running s => exact ⟨ht.1.fine, trivial⟩
  | returned s => exact ⟨ht.1.fine, ht.2⟩
  | exited why s => exact ht

/-- A job with or without an announcement of its end, and nothing else. -/
def plainJob (sendEoj : Bool) : CopyJob where
  feedback := true
  idleStatusInterval := 0
  sendEoj := sendEoj
  statusInterval := 0
  initString := none
  init_short := fun _ h => by cases h
  started := 0

/-- A round in which standard input and the printer are ready. -/
def plainRound (r : ReadOutcome) : Round where
  select := .ready true true false false
  stdinRead := r
  portWrite := .wrote 1
  portRead := .eof
  stdoutWrite := .eagain
  now := 0

/-- One byte is read and written, then standard input ends. -/
def byteRounds : List Round :=
  [plainRound (.data [65] (by decide) (by decide)), plainRound .eof, plainRound .eof, plainRound .eof]

/-- The statuses of a run, the last first, with the rounds that follow them. -/
def copyHistory (p : CopyJob) : List Round → List (CopyStatus × Round) × CopyStatus :=
  List.foldl (fun ht r => ((ht.2, r) :: ht.1, copyStep p r ht.2)) ([], .running p.start)

theorem copyRun_copyHistory (p : CopyJob) (rounds : List Round) :
    CopyRun p (copyHistory p rounds).1 (copyHistory p rounds).2 := by
  induction rounds using List.reverseRecOn with
  | nil => exact .init rfl
  | append_singleton rounds r ih =>
    rw [copyHistory, List.foldl_append]
    exact .step ih rfl

theorem plainJob_conserves :
    Conserves (plainJob false) (copyHistory (plainJob false) byteRounds).2 ∧
      (copyHistory (plainJob false) byteRounds).2.state.events =
        [.stdin [65], .printer [65], .stdinEof] := by
  refine ⟨copyRun_conserves (by simp [plainJob]) (copyRun_copyHistory _ _) ?_, by decide⟩
  intro x hx
  have hready : ∃ r, x.2 = plainRound r := by
    simp only [copyHistory, byteRounds, List.foldl_cons, List.foldl_nil, List.mem_cons,
      List.not_mem_nil, or_false] at hx
    rcases hx with rfl | rfl | rfl | rfl <;> exact ⟨_, rfl⟩
  obtain ⟨t, r⟩ := x
  obtain ⟨o, rfl⟩ := hready
  cases t with
  | running s =>
    refine ⟨fun h => ?_, False.elim⟩
    cases h
  | returned s => trivial
  | exited why s => trivial

/-- The end of the job is announced when standard input is found empty. -/
theorem eagain_announces :
    CopyRun (plainJob true) (copyHistory (plainJob true) [plainRound .eagain]).1
        (copyHistory (plainJob true) [plainRound .eagain]).2 ∧
      ¬ Conserves (plainJob true) (copyHistory (plainJob true) [plainRound .eagain]).2 := by
  refine ⟨copyRun_copyHistory _ _, fun h => ?_⟩
  have heoj : (CopyEvent.eoj).Fine (plainJob true) [] := h.1 [] .eoj [] (by decide)
  exact absurd heoj.1 List.not_mem_nil

end Ppr
