import Ppr.Spool.StatusWriters

/-!
# What the follower gets

The steps of the follower keep where the texts are, and when no process is on its way to mark a file,
they bring all of them to the callback.
-/

namespace Ppr

variable {ω : Type} [DecidableEq ω] {sticky : Bool} {s : StatusState ω}

/-! ## The steps of the follower -/

/-- All that is still to be read was written since there is a follower. -/
theorem FollowInv.isLine_of_mem (h : FollowInv sticky s) {f : StatusStream}
    {order todo : List (StatusEntry ω)} {part : List Byte} (hr : s.Reads f order todo part)
    {e : StatusEntry ω} (he : e ∈ todo) : IsLine e.text := by
  apply h.lines e
  have hmem : e ∈ writtenBy e.writer s.appended := by
    rw [hr.all e.writer, writtenBy, List.mem_filter]
    simp [he]
  exact List.mem_of_mem_filter hmem

/-- Where there is something to read, there is a line to read. -/
theorem FollowInv.reads_line (h : FollowInv sticky s) {f : StatusStream}
    (hf : s.follower.fd = some f) (hlt : f.pos < (s.files f.file).size) :
    ∃ order todo part, s.Reads f order todo part ∧ IsLine part := by
  obtain ⟨order, todo, part, hr⟩ := (h.reading f hf).reads
  rcases hr.line with rfl | hline
  · cases todo with
    | nil =>
      have hrest := congrArg List.length hr.rest
      rw [List.length_drop, StatusFile.length_bytes] at hrest
      simp at hrest
      omega
    | cons e todo =>
      refine ⟨order ++ [e], todo, e.text, ⟨?_, hr.pos_le, ?_, ?_, ?_⟩,
        h.isLine_of_mem hr List.mem_cons_self⟩
      · simpa using hr.rest
      · exact .inr (h.isLine_of_mem hr List.mem_cons_self)
      · have hpassed := hr.passed
        rw [textPieces_nil, List.append_nil] at hpassed
        simp [hpassed, StatusEntry.pieces]
      · simpa using hr.all
  · exact ⟨order, todo, part, hr, hline⟩

/-- When the file is read to its end the callback got everything in it. -/
theorem FollowInv.reads_all (h : FollowInv sticky s) {f : StatusStream}
    (hf : s.follower.fd = some f) (hle : (s.files f.file).size ≤ f.pos) :
    ∃ order : List (StatusEntry ω), s.follower.passed = order.flatMap StatusEntry.pieces ∧
      ∀ w, writtenBy w s.appended = writtenBy w (order ++ s.elsewhere f.file) := by
  obtain ⟨order, todo, part, hr⟩ := (h.reading f hf).reads
  have hrest := hr.rest
  rw [List.drop_of_length_le (by rwa [StatusFile.length_bytes]), eq_comm,
    List.append_eq_nil_iff] at hrest
  obtain ⟨rfl, htodo⟩ := hrest
  obtain rfl : todo = [] := by
    rw [List.flatMap_eq_nil_iff] at htodo
    rw [List.eq_nil_iff_forall_not_mem]
    exact fun e he => (h.isLine_of_mem hr he).ne_nil (htodo e he)
  refine ⟨order, ?_, fun w => ?_⟩
  · have hpassed := hr.passed
    rwa [textPieces_nil, List.append_nil] at hpassed
  · rw [hr.all w, List.append_nil]

/-- Only the follower changes. -/
theorem FollowInv.with_follower (h : FollowInv sticky s) {t : StatusFollower}
    (hcount : t.fileCount ≠ 0) (hclosed : t.fd = none → t.atEnd = false)
    (hwaiting : t.fd = none → ∃ order : List (StatusEntry ω),
      t.passed = order.flatMap StatusEntry.pieces ∧
        ∀ w, writtenBy w s.appended = writtenBy w (order ++ s.pathEntries))
    (hreading : ∀ f, t.fd = some f → StatusState.Reading sticky { s with follower := t } f) :
    FollowInv sticky { s with follower := t } where
  path_last := h.path_last
  unfinished := h.unfinished
  fresh := h.fresh
  handles := fun w i hi => ⟨(h.handles w i hi).lt, (h.handles w i hi).newer⟩
  marking := h.marking
  lines := h.lines
  closed := hclosed
  before := fun h0 => absurd h0 hcount
  waiting := fun _ => hwaiting
  reading := hreading

theorem FollowInv.fileCount_ne_zero (h : FollowInv sticky s) {f : StatusStream}
    (hf : s.follower.fd = some f) : s.follower.fileCount ≠ 0 := by
  intro hcount
  cases (h.before hcount).1.symm.trans hf

/-- The first file is opened at its end; a later one has only what is still to be passed. -/
theorem FollowInv.open_path (h : FollowInv sticky s) (hfd : s.follower.fd = none) {i : ℕ}
    (hi : s.path = some i) : FollowInv sticky { s with follower := { s.follower with
      fd := some ⟨i, if s.follower.fileCount = 0 then (s.files i).size else 0, false⟩
      fileCount := s.follower.fileCount + 1 } } := by
  have hatEnd := h.closed hfd
  refine h.with_follower (Nat.succ_ne_zero _) (fun h => nomatch h) (fun h => nomatch h) fun f hf => ?_
  cases hf
  have hlt : i < s.next := by
    have := h.path_last i hi
    omega
  refine ⟨hlt, ?_, fun _ heof => (nomatch heof), fun hend => ?_, fun hp => absurd hi hp⟩
  · by_cases hcount : s.follower.fileCount = 0
    · obtain ⟨-, happended, hpassed⟩ := h.before hcount
      refine ⟨[], [], [], ⟨?_, ?_, .inl rfl, ?_, fun w => ?_⟩⟩
      · show (s.files i).bytes.drop (if _ then _ else _) = _
        rw [if_pos hcount, ← StatusFile.length_bytes, List.drop_length]
        rfl
      · show (if _ then _ else _) ≤ _
        rw [if_pos hcount]
      · show s.follower.passed ++ textPieces [] = _
        rw [hpassed, textPieces_nil]
        rfl
      · show writtenBy w s.appended = _
        rw [happended]
        simp [StatusState.elsewhere, hi]
    · obtain ⟨order, hpassed, hall⟩ := h.waiting hcount hfd
      refine ⟨order, (s.files i).entries, [], ⟨?_, ?_, .inl rfl, ?_, fun w => ?_⟩⟩
      · show (s.files i).bytes.drop (if _ then _ else _) = _
        rw [if_neg hcount]
        rfl
      · show (if _ then _ else _) ≤ _
        rw [if_neg hcount]
        exact Nat.zero_le _
      · show s.follower.passed ++ textPieces [] = _
        rw [hpassed, textPieces_nil, List.append_nil]
      · show writtenBy w s.appended = _
        rw [hall w]
        simp [StatusState.elsewhere, StatusState.pathEntries, hi]
  · cases hend.symm.trans hatEnd

/-- The file is finished, and the follower has read all of it. -/
theorem FollowInv.close_finished (h : FollowInv sticky s) {f : StatusStream}
    (hf : s.follower.fd = some f) (hend : s.follower.atEnd = true)
    (hfin : (s.files f.file).finished = true) :
    FollowInv sticky { s with follower := { s.follower with fd := none, atEnd := false } } := by
  refine h.with_follower (h.fileCount_ne_zero hf) (fun _ => rfl) (fun _ => ?_)
    fun f hf => (nomatch hf)
  obtain ⟨order, hpassed, hall⟩ := h.reads_all hf ((h.reading f hf).ended hend hfin)
  refine ⟨order, hpassed, fun w => ?_⟩
  have hpath : s.path ≠ some f.file := by
    intro hp
    cases hfin.symm.trans (h.unfinished _ hp)
  rw [hall w, StatusState.elsewhere, if_neg hpath]

/-- Only the indicators change. -/
theorem FollowInv.indicators (h : FollowInv sticky s) {f : StatusStream}
    (hf : s.follower.fd = some f) {eof atEnd : Bool}
    (heof : sticky = true → eof = true → (s.files f.file).size ≤ f.pos)
    (hend : atEnd = true → (s.files f.file).finished = true → (s.files f.file).size ≤ f.pos) :
    FollowInv sticky { s with follower := { s.follower with
      fd := some { f with eof := eof }, atEnd := atEnd } } := by
  refine h.with_follower (h.fileCount_ne_zero hf) (fun h => nomatch h) (fun h => nomatch h)
    fun f' hf' => ?_
  cases hf'
  obtain ⟨hlt, ⟨order, todo, part, hr⟩, -, -, hreplaced⟩ := h.reading f hf
  exact ⟨hlt, ⟨order, todo, part, hr.rest, hr.pos_le, hr.line, hr.passed, hr.all⟩, heof, hend,
    hreplaced⟩

/-- A line, or a piece of one, is passed. -/
theorem FollowInv.pass_line (h : FollowInv sticky s) {f : StatusStream}
    (hf : s.follower.fd = some f) (hend : s.follower.atEnd = false) {line : List Byte}
    (hline : tailLine ((s.files f.file).bytes.drop f.pos) = line) (hne : line ≠ []) :
    FollowInv sticky { s with follower := { s.follower with
      fd := some
        { f with
          pos := f.pos + line.length
          eof := decide (line.length < 255 ∧ line.getLast? ≠ some newline) }
      passed := s.follower.passed ++ [cutLine line] } } := by
  have hlt : f.pos < (s.files f.file).size := by
    by_contra hle
    rw [List.drop_of_length_le (by rw [StatusFile.length_bytes]; omega)] at hline
    exact hne hline.symm
  obtain ⟨order, todo, part, hr, hpart⟩ := h.reads_line hf hlt
  have hlt := (h.reading f hf).lt
  have hreplaced := (h.reading f hf).replaced
  rw [hr.rest, hpart.tailLine_append] at hline
  subst hline
  have hlen : (tailLine part).length ≤ part.length := length_fgetsTake_le 255 part
  refine h.with_follower (h.fileCount_ne_zero hf) (fun h => nomatch h) (fun h => nomatch h)
    fun f' hf' => ?_
  cases hf'
  refine ⟨hlt, ⟨order, todo, part.drop (tailLine part).length, ?_, ?_, hpart.drop_tailLine, ?_,
    hr.all⟩, fun _ heof => ?_, fun hend' => ?_, hreplaced⟩
  · show (s.files f.file).bytes.drop (f.pos + _) = _
    rw [← List.drop_drop, hr.rest, List.drop_append_of_le_length hlen]
  · show f.pos + _ ≤ (s.files f.file).size
    have hrest := congrArg List.length hr.rest
    rw [List.length_drop, StatusFile.length_bytes, List.length_append] at hrest
    have hpos := hr.pos_le
    omega
  · show s.follower.passed ++ [_] ++ _ = _
    rw [← hr.passed, textPieces_of_ne_nil hpart.ne_nil, List.append_assoc]
    rfl
  · exact absurd (of_decide_eq_true heof) hpart.tailLine_ends
  · cases hend.symm.trans hend'

theorem FollowInv.follow (h : FollowInv sticky s) : FollowInv sticky (s.follow sticky) := by
  unfold StatusState.follow doTail
  split
  · rename_i hfd
    split
    · exact h
    · rename_i i hi
      exact h.open_path hfd hi
  · rename_i f hf
    by_cases hend : s.follower.atEnd = true
    · rw [if_pos hend]
      by_cases hfin : (s.files f.file).finished = true
      · rw [if_pos hfin]
        exact h.close_finished hf hend hfin
      · rw [if_neg hfin, hf]
        apply h.indicators hf (h.reading f hf).eof
        intro hnone
        cases hnone
    · rw [if_neg hend]
      rw [Bool.not_eq_true] at hend
      by_cases hsticky : (sticky && f.eof) = true
      · rw [if_pos hsticky, hf]
        rw [Bool.and_eq_true] at hsticky
        have hread := (h.reading f hf).eof hsticky.1 hsticky.2
        exact h.indicators hf (h.reading f hf).eof fun _ _ => hread
      · rw [if_neg hsticky]
        dsimp only
        by_cases hline : tailLine ((s.files f.file).bytes.drop f.pos) = []
        · rw [if_pos hline]
          have hread : (s.files f.file).size ≤ f.pos := by
            rw [← StatusFile.length_bytes, ← List.drop_eq_nil_iff]
            by_contra hne
            exact tailLine_ne_nil hne hline
          exact h.indicators hf (fun _ _ => hread) fun _ _ => hread
        · rw [if_neg hline]
          exact h.pass_line hf hend rfl hline

theorem FollowInv.step (h : FollowInv sticky s) {a : StatusStep ω} {t : StatusState ω}
    (hs : s.step sticky a = some t) (ho : OrderlyStatus sticky s a) : FollowInv sticky t := by
  cases a with
  | call w text => exact h.call hs
  | fopen w => exact h.fopen hs
  | fstat w => exact h.fstat hs
  | unlink w => exact h.unlink hs ho
  | fchmod w => exact h.fchmod hs ho
  | close w => exact h.close hs
  | write w => exact h.write hs ho
  | exit w => exact h.exit hs
  | follow =>
    cases hs
    exact h.follow

/-! ## The follower alone -/

theorem exists_iterate {α : Type} {f : α → α} {P : α → Prop} {a : α} (m : ℕ)
    (h : ∃ n, P (f^[n] (f^[m] a))) : ∃ n, P (f^[n] a) := by
  obtain ⟨n, hn⟩ := h
  exact ⟨n + m, by rwa [Function.iterate_add_apply]⟩

theorem FollowInv.iterate_follow (h : FollowInv sticky s) (n : ℕ) :
    FollowInv sticky ((StatusState.follow sticky)^[n] s) := by
  induction n generalizing s with
  | zero => exact h
  | succ n ih => exact ih h.follow

omit [DecidableEq ω] in
/-- The follower changes nothing else. -/
theorem iterate_follow_eq (sticky : Bool) (s : StatusState ω) (n : ℕ) :
    ∃ t, (StatusState.follow sticky)^[n] s = { s with follower := t } := by
  induction n generalizing s with
  | zero => exact ⟨s.follower, rfl⟩
  | succ n ih =>
    obtain ⟨t, ht⟩ := ih (s.follow sticky)
    exact ⟨t, ht⟩

omit [DecidableEq ω] in
/-- At the end of the file. -/
theorem follow_end {f : StatusStream} (hf : s.follower.fd = some f)
    (hend : s.follower.atEnd = false) (hle : (s.files f.file).size ≤ f.pos) :
    ∃ f', (s.follow sticky).follower.fd = some f' ∧ f'.file = f.file ∧ f'.pos = f.pos ∧
      (s.follow sticky).follower.atEnd = true := by
  have hline : tailLine ((s.files f.file).bytes.drop f.pos) = [] := by
    rw [List.drop_of_length_le (by rwa [StatusFile.length_bytes])]
    rfl
  simp only [StatusState.follow, doTail, hf, hend, hline]
  by_cases hsticky : (sticky && f.eof) = true
  · simp [hsticky]
  · simp [hsticky]

/-- Where there is something to read it is read. -/
theorem FollowInv.follow_line (h : FollowInv sticky s) {f : StatusStream}
    (hf : s.follower.fd = some f) (hend : s.follower.atEnd = false)
    (hlt : f.pos < (s.files f.file).size) :
    ∃ f', (s.follow sticky).follower.fd = some f' ∧ f'.file = f.file ∧ f.pos < f'.pos ∧
      (s.follow sticky).follower.atEnd = false := by
  have hline : tailLine ((s.files f.file).bytes.drop f.pos) ≠ [] := by
    apply tailLine_ne_nil
    rw [Ne, List.drop_eq_nil_iff, StatusFile.length_bytes]
    omega
  have hsticky : (sticky && f.eof) = false := by
    rw [Bool.and_eq_false_iff]
    by_contra hboth
    simp only [not_or, Bool.not_eq_false] at hboth
    have := (h.reading f hf).eof hboth.1 hboth.2
    omega
  have hpos := List.length_pos_iff.mpr hline
  simp [StatusState.follow, doTail, hf, hend, hline, hsticky]
  exact hpos

/-- The follower comes to the end of the file. -/
theorem FollowInv.reaches_end (h : FollowInv sticky s) {f : StatusStream}
    (hf : s.follower.fd = some f) (hend : s.follower.atEnd = false) :
    ∃ n f', ((StatusState.follow sticky)^[n] s).follower.fd = some f' ∧ f'.file = f.file ∧
      ((StatusState.follow sticky)^[n] s).follower.atEnd = true ∧
        (s.files f.file).size ≤ f'.pos := by
  -- by induction on what is still to be read
  induction hk : (s.files f.file).size - f.pos using Nat.strong_induction_on generalizing s f with
  | _ k ih =>
    by_cases hle : (s.files f.file).size ≤ f.pos
    · obtain ⟨f', hf', hfile, hpos, hend'⟩ := follow_end hf hend hle
      exact ⟨1, f', hf', hfile, hend', hpos ▸ hle⟩
    · obtain ⟨f', hf', hfile, hpos, hend'⟩ := h.follow_line hf hend (Nat.lt_of_not_le hle)
      have hsize : ((s.follow sticky).files f'.file).size = (s.files f.file).size := by
        rw [hfile]
        rfl
      obtain ⟨n, f'', hf'', hfile', hend'', hread⟩ := ih _ (by omega) h.follow hf' hend' rfl
      exact ⟨n + 1, f'', hf'', hfile'.trans hfile, hend'', hsize ▸ hread⟩

theorem FollowInv.caughtUp_of_closed (h : FollowInv sticky s) (hfd : s.follower.fd = none)
    (hpath : s.path = none) : s.CaughtUp := by
  by_cases hcount : s.follower.fileCount = 0
  · obtain ⟨-, happended, hpassed⟩ := h.before hcount
    exact ⟨[], hpassed, fun w => by rw [happended]⟩
  · obtain ⟨order, hpassed, hall⟩ := h.waiting hcount hfd
    refine ⟨order, hpassed, fun w => ?_⟩
    rw [hall w, StatusState.pathEntries, hpath, Option.elim_none, List.append_nil]

/-- The follower has open what the name leads to. -/
theorem FollowInv.catches_up_path (h : FollowInv sticky s) {f : StatusStream}
    (hf : s.follower.fd = some f) (hpath : s.path = some f.file) :
    ∃ n, ((StatusState.follow sticky)^[n] s).CaughtUp := by
  have hreads : ∀ {s : StatusState ω}, FollowInv sticky s → s.follower.fd = some f →
      s.path = some f.file → s.follower.atEnd = false →
      ∃ n, ((StatusState.follow sticky)^[n] s).CaughtUp := by
    intro s h hf hpath hend
    obtain ⟨n, f', hf', hfile, -, hread⟩ := h.reaches_end hf hend
    obtain ⟨t, ht⟩ := iterate_follow_eq sticky s n
    have hinv := h.iterate_follow n
    rw [ht] at hinv hf'
    obtain ⟨order, hpassed, hall⟩ := hinv.reads_all hf' (by rw [hfile]; exact hread)
    refine ⟨n, order, ?_, fun w => ?_⟩
    · rw [ht]
      exact hpassed
    · rw [ht, hall w, StatusState.elsewhere, if_pos (by rw [hfile]; exact hpath), List.append_nil]
  by_cases hend : s.follower.atEnd = true
  · -- it looks at the mark first, which is not set
    apply exists_iterate 1
    have hfin := h.unfinished _ hpath
    have hnext : s.follow sticky = { s with follower := { s.follower with atEnd := false } } := by
      simp [StatusState.follow, doTail, hf, hend, hfin]
    have hinv := h.follow
    rw [hnext] at hinv
    show ∃ n, ((StatusState.follow sticky)^[n] (s.follow sticky)).CaughtUp
    rw [hnext]
    exact hreads hinv hf hpath rfl
  · exact hreads h hf hpath (Bool.eq_false_of_not_eq_true hend)

theorem FollowInv.catches_up_closed (h : FollowInv sticky s) (hfd : s.follower.fd = none) :
    ∃ n, ((StatusState.follow sticky)^[n] s).CaughtUp := by
  cases hpath : s.path with
  | none => exact ⟨0, h.caughtUp_of_closed hfd hpath⟩
  | some i =>
    apply exists_iterate 1
    have hinv : FollowInv sticky (s.follow sticky) := h.follow
    refine hinv.catches_up_path (f :=
      ⟨i, if s.follower.fileCount = 0 then (s.files i).size else 0, false⟩) ?_ hpath
    simp [StatusState.follow, doTail, hfd, hpath]

/-- When no process is on its way to mark a file, the follower by itself gets everything. -/
theorem FollowInv.catches_up (h : FollowInv sticky s)
    (hmark : ∀ w, (s.writers w).isMarking = false) :
    ∃ n, ((StatusState.follow sticky)^[n] s).CaughtUp := by
  cases hf : s.follower.fd with
  | none => exact h.catches_up_closed hf
  | some f =>
    by_cases hpath : s.path = some f.file
    · exact h.catches_up_path hf hpath
    · have hfin : (s.files f.file).finished = true := by
        refine ((h.reading f hf).replaced hpath).resolve_right ?_
        rintro ⟨w, text, hw⟩
        have := hmark w
        rw [hw] at this
        cases this
      have hcloses : ∀ {s : StatusState ω} {f : StatusStream}, FollowInv sticky s →
          s.follower.fd = some f → (s.files f.file).finished = true → s.follower.atEnd = true →
          ∃ n, ((StatusState.follow sticky)^[n] s).CaughtUp := by
        intro s f h hf hfin hend
        apply exists_iterate 1
        have hinv : FollowInv sticky (s.follow sticky) := h.follow
        refine hinv.catches_up_closed ?_
        simp [StatusState.follow, doTail, hf, hend, hfin]
      by_cases hend : s.follower.atEnd = true
      · exact hcloses h hf hfin hend
      · obtain ⟨n, f', hf', hfile, hend', -⟩ :=
          h.reaches_end hf (Bool.eq_false_of_not_eq_true hend)
        apply exists_iterate n
        refine hcloses (h.iterate_follow n) hf' ?_ hend'
        obtain ⟨t, ht⟩ := iterate_follow_eq sticky s n
        rw [ht, hfile]
        exact hfin

theorem FollowInv.follows (h : FollowInv sticky s) : s.Follows sticky where
  passed := by
    by_cases hcount : s.follower.fileCount = 0
    · refine ⟨[], ?_, fun w => List.nil_prefix⟩
      rw [(h.before hcount).2.2]
      exact List.nil_prefix
    · cases hf : s.follower.fd with
      | none =>
        obtain ⟨order, hpassed, hall⟩ := h.waiting hcount hf
        refine ⟨order, by rw [hpassed], fun w => ?_⟩
        rw [hall w, writtenBy_append]
        exact List.prefix_append _ _
      | some f =>
        obtain ⟨order, todo, part, hr⟩ := (h.reading f hf).reads
        refine ⟨order, ?_, fun w => ?_⟩
        · rw [← hr.passed]
          exact List.prefix_append _ _
        · rw [hr.all w, writtenBy_append, writtenBy_append, List.append_assoc]
          exact List.prefix_append _ _
  whole := fun e he hlen => (h.lines e he).pieces_of_short hlen
  catches_up := h.catches_up

/-- In every interleaving of orderly steps the follower gets each line once. -/
theorem status_followed (sticky : Bool) (old : Option (List (StatusEntry ω)))
    (h : List (StatusState ω × StatusStep ω)) (s : StatusState ω) (run : StatusRun sticky old h s)
    (ho : ∀ sa ∈ h, OrderlyStatus sticky sa.1 sa.2) : s.Follows sticky := by
  have hinv : (∀ sa ∈ h, OrderlyStatus sticky sa.1 sa.2) → FollowInv sticky s := by
    refine Machine.Run.history_invariant (I := fun h s =>
      (∀ sa ∈ h, OrderlyStatus sticky sa.1 sa.2) → FollowInv sticky s) ?_ ?_ run
    · rintro s rfl -
      exact .start sticky old
    · intro h s a t ih hs ho
      rw [List.forall_mem_cons] at ho
      exact (ih ho.2).step hs ho.1
  exact (hinv ho).follows

section Runs

theorem exists_statusRun (sticky : Bool) (old : Option (List (StatusEntry ω)))
    {P : List (StatusState ω × StatusStep ω) → StatusState ω → Prop} [∀ h s, Decidable (P h s)]
    (steps : List (StatusStep ω))
    (h : (Machine.replay (StatusState.step sticky) [] (StatusState.start old) steps).any
      (fun hs => decide (P hs.1 hs.2)) = true) : ∃ h s, StatusRun sticky old h s ∧ P h s :=
  Machine.exists_run_of_replay steps rfl h

/-- A file that has just the most bytes that a file may have before it is unlinked. -/
private def fullFile : List (StatusEntry Unit) :=
  List.replicate 200 ⟨(), List.replicate 149 120 ++ [newline]⟩

private def twoLines : List (StatusEntry Unit) := [⟨(), [49, newline]⟩, ⟨(), [50, newline]⟩]

/-- The follower reads the first line before the file is unlinked, and then opens the next file. -/
private def keepsUp : List (StatusStep Unit) :=
  [.call () [49, newline], .fopen (), .fstat (), .follow, .write (), .follow,
    .call () [50, newline], .fstat (), .unlink (), .fchmod (), .close (), .fopen (), .fstat (),
    .write (), .follow, .follow, .follow, .follow]

theorem status_followed_across_files : ∃ h s, StatusRun false (some fullFile) h s ∧
    (∀ sa ∈ h, OrderlyStatus false sa.1 sa.2) ∧ s.appended = twoLines ∧
    s.follower.passed = [[49], [50]] ∧ s.Follows false := by
  obtain ⟨h, s, run, ho, happended, hpassed⟩ := exists_statusRun false (some fullFile)
    (P := fun h s => (∀ sa ∈ h, OrderlyStatus false sa.1 sa.2) ∧ s.appended = twoLines ∧
      s.follower.passed = [[49], [50]]) keepsUp (by decide +kernel)
  exact ⟨h, s, run, ho, happended, hpassed, status_followed false _ h s run ho⟩

/-- The follower has come to the end of the file, and before it looks at the mark the first line is
written, the file is found too long, unlinked and marked. -/
private def marksTooEarly : List (StatusStep Unit) :=
  [.call () [49, newline], .fopen (), .fstat (), .follow, .follow, .write (),
    .call () [50, newline], .fstat (), .unlink (), .fchmod (), .close (), .fopen (), .fstat (),
    .write (), .follow, .follow, .follow]

/-- The first line is lost, and only the second one is passed. -/
theorem status_line_lost : ¬∀ (old : Option (List (StatusEntry Unit))) h s,
    StatusRun false old h s → s.Follows false := by
  intro hall
  obtain ⟨h, s, run, happended, hpassed⟩ := exists_statusRun false (some fullFile)
    (P := fun _ s => s.appended = twoLines ∧ s.follower.passed = [[50]]) marksTooEarly
    (by decide +kernel)
  obtain ⟨order, hfront, hwritten⟩ := (hall _ h s run).passed
  have hall : ∀ l : List (StatusEntry Unit), writtenBy () l = l := fun l => by simp [writtenBy]
  have horder := hwritten ()
  rw [hall, hall, happended] at horder
  rw [hpassed] at hfront
  -- what was passed would have to begin with the first line
  cases order with
  | nil => simp at hfront
  | cons e order =>
    have he : e = ⟨(), [49, newline]⟩ := (List.cons_prefix_cons.mp horder).1
    have hpieces : e.pieces = [[49]] := by
      rw [he]
      exact IsLine.pieces_of_short (by decide) (by decide)
    rw [List.flatMap_cons, hpieces] at hfront
    have := (List.cons_prefix_cons.mp hfront).1
    revert this
    decide

end Runs

end Ppr
