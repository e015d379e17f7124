import Ppr.Spool.StatusFile

/-!
# What is written to the status file

As long as the steps are orderly, the texts are in three places: those that the callback got, those
that the follower has still to read in the file that it has open, and those in the file that the name
leads to by now.  The steps of the processes keep that.
-/

namespace Ppr

/-! ## Lines and their pieces -/

theorem IsLine.exists_eq {p : List Byte} (h : IsLine p) : ∃ t, p = t ++ [newline] ∧ newline ∉ t := by
  obtain ⟨hlast, hmem⟩ := h
  have hne : p ≠ [] := fun h => by rw [h] at hlast; cases hlast
  refine ⟨p.dropLast, ?_, hmem⟩
  rw [List.getLast?_eq_some_getLast hne, Option.some.injEq] at hlast
  rw [← hlast, List.dropLast_append_getLast]

theorem isLine_append {t : List Byte} (h : newline ∉ t) : IsLine (t ++ [newline]) := by
  constructor
  · simp
  · simpa using h

theorem IsLine.ne_nil {p : List Byte} (h : IsLine p) : p ≠ [] := by
  obtain ⟨t, rfl, -⟩ := h.exists_eq
  simp

theorem fgetsTake_line (n : ℕ) {t : List Byte} (ht : newline ∉ t) (rest : List Byte) :
    fgetsTake n (t ++ newline :: rest) = if t.length < n then t ++ [newline] else t.take n := by
  induction n generalizing t with
  | zero => simp [fgetsTake]
  | succ n ih =>
    cases t with
    | nil => simp [fgetsTake]
    | cons c t =>
      rw [List.mem_cons, not_or] at ht
      rw [List.cons_append, fgetsTake, if_neg (Ne.symm ht.1), ih ht.2]
      by_cases hlt : t.length < n
      · simp [hlt]
      · simp [hlt]

theorem tailLine_line {t : List Byte} (ht : newline ∉ t) (rest : List Byte) :
    tailLine (t ++ newline :: rest) = if t.length < 255 then t ++ [newline] else t.take 255 :=
  fgetsTake_line 255 ht rest

/-- The follower does not read beyond the line. -/
theorem IsLine.tailLine_append {p : List Byte} (h : IsLine p) (rest : List Byte) :
    tailLine (p ++ rest) = tailLine p := by
  obtain ⟨t, rfl, ht⟩ := h.exists_eq
  rw [List.append_assoc, List.singleton_append, tailLine_line ht, ← tailLine_line ht []]

/-- After the end of the line there is nothing, or what is left is a line. -/
theorem IsLine.drop_tailLine {p : List Byte} (h : IsLine p) :
    p.drop (tailLine p).length = [] ∨ IsLine (p.drop (tailLine p).length) := by
  obtain ⟨t, rfl, ht⟩ := h.exists_eq
  rw [tailLine_line ht]
  by_cases hlt : t.length < 255
  · left
    rw [if_pos hlt, List.drop_length]
  · right
    rw [if_neg hlt, List.length_take, Nat.min_eq_left (Nat.le_of_not_lt hlt),
      List.drop_append_of_le_length (Nat.le_of_not_lt hlt)]
    exact isLine_append fun hmem => ht (List.mem_of_mem_drop hmem)

/-- The end of the file is not what ends the reading of a line. -/
theorem IsLine.tailLine_ends {p : List Byte} (h : IsLine p) :
    ¬((tailLine p).length < 255 ∧ (tailLine p).getLast? ≠ some newline) := by
  obtain ⟨t, rfl, ht⟩ := h.exists_eq
  rw [tailLine_line ht]
  by_cases hlt : t.length < 255
  · simp [hlt]
  · simp [hlt]

theorem textPieces_nil : textPieces [] = [] := by
  rw [textPieces]
  rfl

theorem textPieces_of_ne_nil {p : List Byte} (h : p ≠ []) :
    textPieces p = cutLine (tailLine p) :: textPieces (p.drop (tailLine p).length) := by
  rw [textPieces, dif_neg h]

theorem cutLine_line {t : List Byte} (ht : newline ∉ t) : cutLine (t ++ [newline]) = t := by
  rw [cutLine, List.takeWhile_append_of_pos]
  · simp
  · intro c hc
    simpa using fun h : c = newline => ht (h ▸ hc)

/-- A line that fits into the buffer is passed as a whole. -/
theorem IsLine.pieces_of_short {p : List Byte} (h : IsLine p) (hlen : p.length < 256) :
    textPieces p = [p.dropLast] := by
  obtain ⟨t, rfl, ht⟩ := h.exists_eq
  rw [List.length_append, List.length_singleton] at hlen
  rw [textPieces_of_ne_nil h.ne_nil, tailLine_line ht, if_pos (by omega), List.drop_length,
    textPieces_nil, cutLine_line ht, List.dropLast_concat]

/-! ## The invariant -/

variable {ω : Type}

theorem StatusFile.length_bytes (f : StatusFile ω) : f.bytes.length = f.size := by
  rw [StatusFile.bytes, StatusFile.size, List.length_flatMap]

/-- The texts in the file that the name leads to. -/
def StatusState.pathEntries (s : StatusState ω) : List (StatusEntry ω) :=
  s.path.elim [] fun i => (s.files i).entries

/-- Those of them that are not in the file. -/
def StatusState.elsewhere (s : StatusState ω) (i : ℕ) : List (StatusEntry ω) :=
  if s.path = some i then [] else s.pathEntries

def StatusWriter.handle : StatusWriter → Option ℕ
  | .idle h => h
  | .toOpen _ => none
  | .toStat _ i => some i
  | .toUnlink _ i => some i
  | .toMark _ i => some i
  | .toClose _ i => some i
  | .toWrite _ i => some i

variable [DecidableEq ω]

/-- A process that has the file open has written to no newer one. -/
structure StatusState.Handles (s : StatusState ω) (w : ω) (i : ℕ) : Prop where
  lt : i < s.next
  newer : ∀ k, i < k → writtenBy w (s.files k).entries = []

/-- The callback got the texts of `order`, but of the last one `part` is still to be read, and after
it those of `todo`. -/
structure StatusState.Reads (s : StatusState ω) (f : StatusStream)
    (order todo : List (StatusEntry ω)) (part : List Byte) : Prop where
  rest : (s.files f.file).bytes.drop f.pos = part ++ todo.flatMap StatusEntry.text
  pos_le : f.pos ≤ (s.files f.file).size
  line : part = [] ∨ IsLine part
  passed : s.follower.passed ++ textPieces part = order.flatMap StatusEntry.pieces
  all : ∀ w, writtenBy w s.appended = writtenBy w (order ++ todo ++ s.elsewhere f.file)

/-- The follower has a file open. -/
structure StatusState.Reading (sticky : Bool) (s : StatusState ω) (f : StatusStream) : Prop where
  lt : f.file < s.next
  reads : ∃ order todo part, s.Reads f order todo part
  eof : sticky = true → f.eof = true → (s.files f.file).size ≤ f.pos
  ended : s.follower.atEnd = true → (s.files f.file).finished = true →
    (s.files f.file).size ≤ f.pos
  replaced : s.path ≠ some f.file →
    (s.files f.file).finished = true ∨ ∃ w text, s.writers w = .toMark text f.file

/-- What holds while the steps are orderly. -/
structure FollowInv (sticky : Bool) (s : StatusState ω) : Prop where
  path_last : ∀ i, s.path = some i → i + 1 = s.next
  unfinished : ∀ i, s.path = some i → (s.files i).finished = false
  fresh : ∀ i, s.next ≤ i → s.files i = ⟨[], false⟩
  handles : ∀ w i, (s.writers w).handle = some i → s.Handles w i
  marking : ∀ w text i, s.writers w = .toMark text i → s.path ≠ some i
  lines : ∀ e ∈ s.appended, IsLine e.text
  closed : s.follower.fd = none → s.follower.atEnd = false
  before : s.follower.fileCount = 0 →
    s.follower.fd = none ∧ s.appended = [] ∧ s.follower.passed = []
  waiting : s.follower.fileCount ≠ 0 → s.follower.fd = none →
    ∃ order : List (StatusEntry ω), s.follower.passed = order.flatMap StatusEntry.pieces ∧
      ∀ w, writtenBy w s.appended = writtenBy w (order ++ s.pathEntries)
  reading : ∀ f, s.follower.fd = some f → s.Reading sticky f

variable {sticky : Bool} {s : StatusState ω}

theorem FollowInv.start (sticky : Bool) (old : Option (List (StatusEntry ω))) :
    FollowInv sticky (StatusState.start old) where
  path_last := by
    intro i h
    cases old with
    | none => cases h
    | some l => cases h; rfl
  unfinished := by
    intro i h
    cases old with
    | none => cases h
    | some l => cases h; rfl
  fresh := fun i hi => if_neg (Nat.ne_of_gt hi)
  handles := fun w i h => by cases h
  marking := fun w text i h => by cases h
  lines := fun e he => by cases he
  closed := fun _ => rfl
  before := fun _ => ⟨rfl, rfl, rfl⟩
  waiting := fun h => absurd rfl h
  reading := fun f h => by cases h

/-! ## The steps of the processes -/

section Writers

variable {w : ω} {t : StatusState ω}

theorem writtenBy_append (w : ω) (l l' : List (StatusEntry ω)) :
    writtenBy w (l ++ l') = writtenBy w l ++ writtenBy w l' :=
  List.filter_append ..

theorem writtenBy_singleton_of_ne {w : ω} {e : StatusEntry ω} (h : e.writer ≠ w) :
    writtenBy w [e] = [] := by
  simp [writtenBy, h]

/-- Whoever is on its way to mark a file, it is not the process that goes elsewhere. -/
theorem FollowInv.exists_marking {i : ℕ} (h : ∃ w text, s.writers w = .toMark text i)
    (hold : (s.writers w).isMarking = false) (p : StatusWriter) :
    ∃ w' text, (s.goto w p).writers w' = .toMark text i := by
  obtain ⟨w', text, hw'⟩ := h
  have hne : w' ≠ w := by
    rintro rfl
    rw [hw'] at hold
    cases hold
  exact ⟨w', text, (Function.update_of_ne hne ..).trans hw'⟩

/-- A process goes elsewhere and changes no file. -/
theorem FollowInv.goto (h : FollowInv sticky s) {p : StatusWriter}
    (hold : (s.writers w).isMarking = false) (hmark : p.isMarking = false)
    (hhandle : ∀ i, p.handle = some i → s.Handles w i) : FollowInv sticky (s.goto w p) where
  path_last := h.path_last
  unfinished := h.unfinished
  fresh := h.fresh
  handles := by
    intro w' i hi
    by_cases hw : w' = w
    · subst hw
      obtain ⟨hlt, hnewer⟩ := hhandle i (by simpa [StatusState.goto] using hi)
      exact ⟨hlt, hnewer⟩
    · obtain ⟨hlt, hnewer⟩ := h.handles w' i (by simpa [StatusState.goto, hw] using hi)
      exact ⟨hlt, hnewer⟩
  marking := by
    intro w' text i hi
    by_cases hw : w' = w
    · subst hw
      rw [show p = .toMark text i by simpa [StatusState.goto] using hi] at hmark
      cases hmark
    · exact h.marking w' text i (by simpa [StatusState.goto, hw] using hi)
  lines := h.lines
  closed := h.closed
  before := h.before
  waiting := h.waiting
  reading := by
    intro f hf
    obtain ⟨hlt, ⟨order, todo, part, hr⟩, heof, hended, hreplaced⟩ := h.reading f hf
    refine ⟨hlt, ⟨order, todo, part, hr.rest, hr.pos_le, hr.line, hr.passed, hr.all⟩, heof, hended,
      fun hp => (hreplaced hp).imp_right fun hm => ?_⟩
    exact FollowInv.exists_marking hm hold p

theorem FollowInv.call (h : FollowInv sticky s) {text : List Byte}
    (hs : s.step sticky (.call w text) = some t) : FollowInv sticky t := by
  simp only [StatusState.step] at hs
  split at hs
  · rename_i hw
    cases hs
    exact h.goto (by rw [hw]; rfl) rfl fun i hi => by cases hi
  · rename_i i hw
    cases hs
    refine h.goto (by rw [hw]; rfl) rfl fun j hj => h.handles w j ?_
    rw [hw]
    exact hj
  · cases hs

theorem FollowInv.fstat (h : FollowInv sticky s) (hs : s.step sticky (.fstat w) = some t) :
    FollowInv sticky t := by
  simp only [StatusState.step] at hs
  split at hs
  · rename_i text i hw
    have hkeeps : ∀ j, some i = some j → s.Handles w j := by
      intro j hj
      apply h.handles w j
      rw [hw]
      exact hj
    split at hs
    · cases hs
      exact h.goto (by rw [hw]; rfl) rfl hkeeps
    · cases hs
      exact h.goto (by rw [hw]; rfl) rfl hkeeps
  · cases hs

theorem FollowInv.close (h : FollowInv sticky s) (hs : s.step sticky (.close w) = some t) :
    FollowInv sticky t := by
  simp only [StatusState.step] at hs
  split at hs
  · rename_i text i hw
    cases hs
    exact h.goto (by rw [hw]; rfl) rfl fun i hi => by cases hi
  · cases hs

theorem FollowInv.exit (h : FollowInv sticky s) (hs : s.step sticky (.exit w) = some t) :
    FollowInv sticky t := by
  simp only [StatusState.step] at hs
  split at hs
  · rename_i hw
    cases hs
    exact h.goto (by rw [hw]; rfl) rfl fun i hi => by cases hi
  · cases hs

/-- The newest file has nothing newer. -/
theorem FollowInv.handles_path (h : FollowInv sticky s) (w : ω) {i : ℕ} (hi : s.path = some i) :
    s.Handles w i := by
  have hnext := h.path_last i hi
  refine ⟨by omega, fun k hk => ?_⟩
  rw [h.fresh k (by omega)]
  rfl

/-- A new file is made, if the name leads to none. -/
theorem FollowInv.create (h : FollowInv sticky s) (hpath : s.path = none) :
    FollowInv sticky { s with path := some s.next, next := s.next + 1 } where
  path_last := by
    intro i hi
    cases hi
    rfl
  unfinished := by
    intro i hi
    cases hi
    exact congrArg StatusFile.finished (h.fresh s.next (Nat.le_refl _))
  fresh := fun i hi => h.fresh i (by simp only at hi; omega)
  handles := by
    intro w i hi
    obtain ⟨hlt, hnewer⟩ := h.handles w i hi
    exact ⟨Nat.lt_succ_of_lt hlt, hnewer⟩
  marking := by
    intro w text i hi heq
    cases heq
    have := (h.handles w s.next (by rw [hi]; rfl)).lt
    omega
  lines := h.lines
  closed := h.closed
  before := h.before
  waiting := by
    intro hcount hfd
    obtain ⟨order, hpassed, hall⟩ := h.waiting hcount hfd
    refine ⟨order, hpassed, fun w => ?_⟩
    rw [hall w]
    simp [StatusState.pathEntries, hpath, h.fresh s.next (Nat.le_refl _)]
  reading := by
    intro f hf
    obtain ⟨hlt, ⟨order, todo, part, hr⟩, heof, hended, hreplaced⟩ := h.reading f hf
    refine ⟨Nat.lt_succ_of_lt hlt, ⟨order, todo, part, hr.rest, hr.pos_le, hr.line, hr.passed,
      fun w => ?_⟩, heof, hended, fun _ => hreplaced (by simp [hpath])⟩
    rw [hr.all w]
    simp [StatusState.elsewhere, StatusState.pathEntries, hpath, h.fresh s.next (Nat.le_refl _)]

theorem FollowInv.fopen (h : FollowInv sticky s) (hs : s.step sticky (.fopen w) = some t) :
    FollowInv sticky t := by
  simp only [StatusState.step] at hs
  split at hs
  · rename_i text hw
    split at hs
    · rename_i i hpath
      cases hs
      refine h.goto (by rw [hw]; rfl) rfl fun j hj => ?_
      cases hj
      exact h.handles_path w hpath
    · rename_i hpath
      cases hs
      have hcreate := h.create hpath
      refine hcreate.goto (p := .toStat text s.next) (by rw [hw]; rfl) rfl fun j hj => ?_
      cases hj
      exact hcreate.handles_path w rfl
  · cases hs

omit [DecidableEq ω] in
theorem reads_of_fd {f : StatusStream} (hf : s.follower.fd = some f) (i : ℕ) :
    s.follower.reads i = decide (f.file = i) := by
  simp [StatusFollower.reads, hf]

/-- The name is removed: the follower has the file open that it led to. -/
theorem FollowInv.unlink (h : FollowInv sticky s) (hs : s.step sticky (.unlink w) = some t)
    (ho : OrderlyStatus sticky s (.unlink w)) : FollowInv sticky t := by
  simp only [StatusState.step] at hs
  split at hs
  · rename_i text i hw
    cases hs
    have hhandle := h.handles w i (by rw [hw]; rfl)
    have horderly : s.follower.fileCount ≠ 0 → ∀ j, s.path = some j →
        j = i ∧ s.follower.reads i = true :=
      fun hcount j hj => ho.resolve_left hcount i (by rw [hw]; rfl) j hj
    refine ⟨(fun _ hj => nomatch hj), (fun _ hj => nomatch hj), h.fresh, fun w' j hj => ?_,
      (fun _ _ _ _ hj => nomatch hj), h.lines, h.closed, h.before, fun hcount hfd => ?_,
      fun f hf => ?_⟩
    · by_cases hw' : w' = w
      · subst hw'
        obtain rfl : i = j := by simpa [StatusState.goto, StatusWriter.handle] using hj
        exact ⟨hhandle.lt, hhandle.newer⟩
      · obtain ⟨hlt, hnewer⟩ := h.handles w' j (by simpa [StatusState.goto, hw'] using hj)
        exact ⟨hlt, hnewer⟩
    · obtain ⟨order, hpassed, hall⟩ := h.waiting hcount hfd
      refine ⟨order, hpassed, fun w' => ?_⟩
      have hpath : s.path = none := by
        rw [Option.eq_none_iff_forall_ne_some]
        intro j hj
        have hreads := (horderly hcount j hj).2
        rw [StatusFollower.reads, show s.follower.fd = none from hfd] at hreads
        cases hreads
      refine (hall w').trans ?_
      simp [StatusState.pathEntries, hpath]
    · have hf' : s.follower.fd = some f := hf
      have hcount : s.follower.fileCount ≠ 0 := by
        intro hcount
        rw [(h.before hcount).1] at hf'
        cases hf'
      obtain ⟨hlt, ⟨order, todo, part, hr⟩, heof, hended, hreplaced⟩ := h.reading f hf
      have hpath : ∀ j, s.path = some j → j = f.file := by
        intro j hj
        obtain ⟨rfl, hreads⟩ := horderly hcount j hj
        rw [reads_of_fd hf', decide_eq_true_iff] at hreads
        exact hreads.symm
      refine ⟨hlt, ⟨order, todo, part, hr.rest, hr.pos_le, hr.line, hr.passed, fun w' => ?_⟩, heof,
        hended, fun _ => ?_⟩
      · refine (hr.all w').trans ?_
        cases hp : s.path with
        | none => simp [StatusState.elsewhere, StatusState.pathEntries, hp]
        | some j =>
          rw [hpath j hp] at hp
          simp [StatusState.elsewhere, StatusState.pathEntries, hp]
      · by_cases hp : s.path = some f.file
        · obtain ⟨hi, -⟩ := horderly hcount _ hp
          right
          exact ⟨w, text, by simp [StatusState.goto, hi]⟩
        · exact (hreplaced hp).imp_right fun hm =>
            FollowInv.exists_marking hm (by rw [hw]; rfl) _
  · cases hs

/-- A file is marked that the name does not lead to. -/
theorem FollowInv.fchmod (h : FollowInv sticky s) (hs : s.step sticky (.fchmod w) = some t)
    (ho : OrderlyStatus sticky s (.fchmod w)) : FollowInv sticky t := by
  simp only [StatusState.step] at hs
  split at hs
  · rename_i text i hw
    cases hs
    have hhandle := h.handles w i (by rw [hw]; rfl)
    have hpath := h.marking w text i hw
    -- only the mark of one file is new
    obtain ⟨files, hfiles⟩ : ∃ files, files =
        Function.update s.files i { s.files i with finished := true } := ⟨_, rfl⟩
    have hfile : ∀ k, files k =
        { s.files k with finished := (s.files k).finished || decide (k = i) } := by
      intro k
      rw [hfiles]
      by_cases hk : k = i <;> simp [hk]
    have hentries : ∀ k, (files k).entries = (s.files k).entries := fun k => by rw [hfile k]
    have hsize : ∀ k, (files k).size = (s.files k).size := fun k => by rw [hfile k]; rfl
    have hbytes : ∀ k, (files k).bytes = (s.files k).bytes := fun k => by rw [hfile k]; rfl
    show FollowInv sticky ⟨Function.update s.files i { s.files i with finished := true }, s.path,
      s.next, Function.update s.writers w (.toClose text i), s.follower, s.appended⟩
    rw [← hfiles]
    refine ⟨h.path_last, fun j hj => ?_, fun k hk => ?_, fun w' j hj => ?_, fun w' text' j hj => ?_,
      h.lines, h.closed, h.before, fun hcount hfd => ?_, fun f hf => ?_⟩
    · have hne : j ≠ i := fun hji => hpath (hji ▸ hj)
      show (files j).finished = false
      rw [hfile j, h.unfinished j hj]
      simpa using hne
    · have hne : k ≠ i := by
        have := hhandle.lt
        have : s.next ≤ k := hk
        omega
      show files k = _
      rw [hfile k, h.fresh k hk]
      simp [hne]
    · have hj' : (s.writers w').handle = some j := by
        by_cases hw' : w' = w
        · subst hw'
          rw [hw]
          simpa [StatusWriter.handle] using hj
        · simpa [hw'] using hj
      obtain ⟨hlt, hnewer⟩ := h.handles w' j hj'
      refine ⟨hlt, fun k hk => ?_⟩
      show writtenBy w' (files k).entries = []
      rw [hentries k]
      exact hnewer k hk
    · have hne : w' ≠ w := by
        rintro rfl
        simp at hj
      exact h.marking w' text' j (by simpa [hne] using hj)
    · obtain ⟨order, hpassed, hall⟩ := h.waiting hcount hfd
      refine ⟨order, hpassed, fun w' => (hall w').trans ?_⟩
      simp only [StatusState.pathEntries, hentries]
    · obtain ⟨hlt, ⟨order, todo, part, hr⟩, heof, hended, hreplaced⟩ := h.reading f hf
      refine ⟨hlt, ⟨order, todo, part, ?_, ?_, hr.line, hr.passed, fun w' => (hr.all w').trans ?_⟩,
        ?_, ?_, fun hp => ?_⟩
      · show (files f.file).bytes.drop f.pos = _
        rw [hbytes]
        exact hr.rest
      · show f.pos ≤ (files f.file).size
        rw [hsize]
        exact hr.pos_le
      · simp only [StatusState.elsewhere, StatusState.pathEntries, hentries]
      · show sticky = true → f.eof = true → (files f.file).size ≤ f.pos
        rwa [hsize]
      · show s.follower.atEnd = true → (files f.file).finished = true → (files f.file).size ≤ f.pos
        rw [hsize, hfile]
        intro hend hfinished
        by_cases hi : f.file = i
        · subst hi
          exact ho f.file (by rw [hw]; rfl) f hf rfl hend
        · exact hended hend (by simpa [hi] using hfinished)
      · show (files f.file).finished = true ∨ ∃ w' text', Function.update s.writers w _ w' = _
        by_cases hi : f.file = i
        · left
          rw [hfile]
          simp [hi]
        · refine (hreplaced hp).imp (fun hfinished => ?_) fun hm => ?_
          · rw [hfile, hfinished]
            rfl
          · obtain ⟨w', text', hw'⟩ := hm
            have hne : w' ≠ w := by
              rintro rfl
              rw [hw] at hw'
              cases hw'
              exact hi rfl
            exact ⟨w', text', (Function.update_of_ne hne ..).trans hw'⟩
  · cases hs

omit [DecidableEq ω] in
theorem StatusFile.bytes_append (f : StatusFile ω) (e : StatusEntry ω) :
    StatusFile.bytes { f with entries := f.entries ++ [e] } = f.bytes ++ e.text := by
  simp [StatusFile.bytes]

omit [DecidableEq ω] in
theorem StatusFile.size_append (f : StatusFile ω) (e : StatusEntry ω) :
    StatusFile.size { f with entries := f.entries ++ [e] } = f.size + e.text.length := by
  simp [StatusFile.size]

/-- What is written goes to the file that the follower reads, or to the one that it opens next. -/
theorem FollowInv.write (h : FollowInv sticky s) (hs : s.step sticky (.write w) = some t)
    (ho : OrderlyStatus sticky s (.write w)) : FollowInv sticky t := by
  simp only [StatusState.step] at hs
  split at hs
  · rename_i text i hw
    cases hs
    have hhandle := h.handles w i (by rw [hw]; rfl)
    have horderly : s.follower.fileCount ≠ 0 → _ :=
      fun hcount => ho.resolve_left hcount (text, i) (by rw [hw]; rfl)
    obtain ⟨e, he⟩ : ∃ e : StatusEntry ω, e = ⟨w, text⟩ := ⟨_, rfl⟩
    have hwriter : e.writer = w := by rw [he]
    have hother : ∀ w', w' ≠ w → writtenBy w' [e] = [] :=
      fun w' hw' => writtenBy_singleton_of_ne (by rw [hwriter]; exact hw'.symm)
    obtain ⟨files, hfiles⟩ : ∃ files, files =
        Function.update s.files i { s.files i with entries := (s.files i).entries ++ [e] } :=
      ⟨_, rfl⟩
    have hself : files i = { s.files i with entries := (s.files i).entries ++ [e] } := by
      rw [hfiles, Function.update_self]
    have hne : ∀ k, k ≠ i → files k = s.files k := fun k hk => by
      rw [hfiles, Function.update_of_ne hk]
    have hfinished : ∀ k, (files k).finished = (s.files k).finished := by
      intro k
      by_cases hk : k = i
      · rw [hk, hself]
      · rw [hne k hk]
    show FollowInv sticky ⟨Function.update s.files i { s.files i with
        entries := (s.files i).entries ++ [⟨w, text⟩] }, s.path, s.next,
      Function.update s.writers w (.idle (some i)), s.follower,
      if s.follower.fileCount = 0 then [] else s.appended ++ [⟨w, text⟩]⟩
    rw [← he, ← hfiles]
    refine ⟨h.path_last, fun j hj => ?_, fun k hk => ?_, fun w' j hj => ?_, fun w' text' j hj => ?_,
      fun e' he' => ?_, h.closed, fun hcount => ?_, fun hcount hfd => ?_, fun f hf => ?_⟩
    · show (files j).finished = false
      rw [hfinished]
      exact h.unfinished j hj
    · have hki : k ≠ i := by
        have := hhandle.lt
        have : s.next ≤ k := hk
        omega
      exact (hne k hki).trans (h.fresh k hk)
    · have hj' : (s.writers w').handle = some j := by
        by_cases hw' : w' = w
        · subst hw'
          rw [hw]
          simpa [StatusWriter.handle] using hj
        · simpa [hw'] using hj
      obtain ⟨hlt, hnewer⟩ := h.handles w' j hj'
      refine ⟨hlt, fun k hk => ?_⟩
      show writtenBy w' (files k).entries = []
      by_cases hki : k = i
      · -- the process that writes has no older file open
        have hw' : w' ≠ w := by
          rintro rfl
          have hij : i = j := by simpa [hw, StatusWriter.handle] using hj'
          omega
        rw [hki, hself, writtenBy_append, hother w' hw', ← hki, hnewer k hk]
        rfl
      · rw [hne k hki]
        exact hnewer k hk
    · have hw' : w' ≠ w := by
        rintro rfl
        simp at hj
      exact h.marking w' text' j (by simpa [hw'] using hj)
    · by_cases hcount : s.follower.fileCount = 0
      · simp [hcount] at he'
      · simp only [hcount, if_false, List.mem_append, List.mem_singleton] at he'
        rcases he' with he' | rfl
        · exact h.lines e' he'
        · rw [he]
          exact (horderly hcount).1
    · obtain ⟨hfd, -, hpassed⟩ := h.before hcount
      exact ⟨hfd, if_pos hcount, hpassed⟩
    · obtain ⟨order, hpassed, hall⟩ := h.waiting hcount hfd
      have hpath : s.path = some i := by
        have hreads : s.follower.reads i = false := by
          rw [StatusFollower.reads, show s.follower.fd = none from hfd]
          rfl
        simpa [hreads] using (horderly hcount).2
      refine ⟨order, hpassed, fun w' => ?_⟩
      show writtenBy w' (if s.follower.fileCount = 0 then [] else s.appended ++ [e]) = _
      rw [if_neg hcount, writtenBy_append, hall w']
      simp only [StatusState.pathEntries, hpath, Option.elim_some, hself, writtenBy_append,
        List.append_assoc]
    · have hcount : s.follower.fileCount ≠ 0 := by
        intro hcount
        cases (h.before hcount).1.symm.trans hf
      have hgoes := (horderly hcount).2
      rw [reads_of_fd hf] at hgoes
      obtain ⟨hlt, ⟨order, todo, part, hr⟩, heof, hended, hreplaced⟩ := h.reading f hf
      have hmarking : s.path ≠ some f.file → (files f.file).finished = true ∨
          ∃ w' text', Function.update s.writers w (.idle (some i)) w' = .toMark text' f.file := by
        intro hp
        rw [hfinished]
        exact (hreplaced hp).imp_right fun hm =>
          FollowInv.exists_marking hm (by rw [hw]; rfl) (.idle (some i))
      by_cases hi : f.file = i
      · -- it is the file that the follower reads
        obtain ⟨hnotEnd, hnotEof⟩ : ((s.files i).finished = true → s.follower.atEnd = false) ∧
            ∀ f ∈ s.follower.fd, sticky = true → f.eof = false := by simpa [hi] using hgoes
        subst hi
        have helsewhere : ∀ k, s.path = some k → k ≠ f.file →
            files k = s.files k ∧ writtenBy w (s.files k).entries = [] := by
          intro k hk hkf
          have hlast := h.path_last k hk
          exact ⟨hne k hkf, hhandle.newer k (by omega)⟩
        refine ⟨hlt, ⟨order, todo ++ [e], part, ?_, ?_, hr.line, hr.passed, fun w' => ?_⟩, ?_, ?_,
          hmarking⟩
        · show (files f.file).bytes.drop f.pos = _
          rw [hself, StatusFile.bytes_append, List.drop_append_of_le_length, hr.rest]
          · simp
          · rw [StatusFile.length_bytes]
            exact hr.pos_le
        · show f.pos ≤ (files f.file).size
          rw [hself, StatusFile.size_append]
          exact Nat.le_add_right_of_le hr.pos_le
        · show writtenBy w' (if s.follower.fileCount = 0 then [] else s.appended ++ [e]) = _
          rw [if_neg hcount, writtenBy_append, hr.all w', StatusState.elsewhere,
            StatusState.elsewhere]
          split
          · simp only [writtenBy_append, List.append_assoc, List.append_nil]
          · rename_i hp
            cases hk : s.path with
            | none =>
              simp only [StatusState.pathEntries, hk, Option.elim_none, writtenBy_append,
                List.append_assoc, List.append_nil]
            | some k =>
              obtain ⟨hfile, hw'⟩ := helsewhere k hk fun hkf => hp (hkf ▸ hk)
              simp only [StatusState.pathEntries, hk, Option.elim_some, writtenBy_append, hfile]
              -- nobody has written to both files
              by_cases hww : w' = w
              · simp [hww, hw']
              · simp [hother w' hww]
        · show sticky = true → f.eof = true → (files f.file).size ≤ f.pos
          intro hsticky heof'
          cases heof'.symm.trans (hnotEof f hf hsticky)
        · show s.follower.atEnd = true → (files f.file).finished = true →
            (files f.file).size ≤ f.pos
          intro hend hfin
          rw [hfinished] at hfin
          cases hend.symm.trans (hnotEnd hfin)
      · -- it is the file that the name leads to
        have hpath : s.path = some i := by simpa [hi] using hgoes
        have hfile : files f.file = s.files f.file := hne _ hi
        have hnot : ¬s.path = some f.file := by
          rw [hpath, Option.some.injEq]
          exact Ne.symm hi
        refine ⟨hlt, ⟨order, todo, part, ?_, ?_, hr.line, hr.passed, fun w' => ?_⟩, ?_, ?_, hmarking⟩
        · show (files f.file).bytes.drop f.pos = _
          rw [hfile]
          exact hr.rest
        · show f.pos ≤ (files f.file).size
          rw [hfile]
          exact hr.pos_le
        · show writtenBy w' (if s.follower.fileCount = 0 then [] else s.appended ++ [e]) = _
          rw [if_neg hcount, writtenBy_append, hr.all w']
          simp only [StatusState.elsewhere, StatusState.pathEntries, hpath, Option.elim_some, hself,
            writtenBy_append, List.append_assoc, Option.some.injEq, Ne.symm hi, if_false]
        · show sticky = true → f.eof = true → (files f.file).size ≤ f.pos
          rwa [hfile]
        · show s.follower.atEnd = true → (files f.file).finished = true →
            (files f.file).size ≤ f.pos
          rwa [hfile]
  · cases hs

end Writers

end Ppr
