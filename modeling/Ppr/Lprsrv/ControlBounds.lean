import Ppr.Lib.Lists
import Ppr.Lib.Outcome
import Ppr.Lprsrv.ControlFile

/-!
# Control files of any client

`receive_control_file()` from the length that the client has sent on: the input may end too early,
and the lines may be any.  What is touched beyond the `control_file_len + 1` bytes of the control
file or beyond `data_files[]` is a fault.
-/

namespace Ppr.Lprsrv

/-! ## Reading -/

/-- The loop that reads the control file: its text, and what is left.  The input comes in pieces, and
behind them `read()` returns 0. -/
def readLoop : ℕ → ℕ → List (List Byte) → Option (List Byte × List (List Byte))
  | _, 0, input => some ([], input)
  | 0, _ + 1, _ => none
  | fuel + 1, toread + 1, [] => readLoop fuel (toread + 1) []
  | fuel + 1, toread + 1, piece :: input =>
    let justread := piece.take (toread + 1)
    let input := if toread + 1 < piece.length then piece.drop (toread + 1) :: input else input
    (readLoop fuel (toread + 1 - justread.length) input).map fun r => (justread ++ r.1, r.2)

/-- A call of `receive_control_file()`. -/
structure ControlCall where
  /-- `control_file_len`. -/
  length : ℤ
  input : List (List Byte)
  /-- An earlier control file has left its buffer. -/
  earlier : Bool
  dataFiles : ℕ → DataFile
  filesUnlinked : ℕ

/-- The variables before the first line. -/
def ControlCall.start (call : ControlCall) : ControlState where
  dataFiles := fun i =>
    if 0 < call.length ∧ call.earlier then
      { call.dataFiles i with Name := (call.dataFiles i).Name.free }
    else call.dataFiles i
  filesUnlinked := call.filesUnlinked

/-- `receive_control_file()`. -/
def ControlCall.receive (call : ControlCall) (fuel : ℕ) : Option (Except Fault ControlState) :=
  match readLoop fuel call.length.toNat call.input with
  | none => none
  | some (text, _) =>
    -- The NUL behind the text.
    if ¬ (0 < call.length ∨ call.earlier) then some (.error .noBuffer)
    else if call.length < 0 then some (.error .pastBuffer)
    else some (controlState text call.start.dataFiles call.filesUnlinked)

/-! ## What is promised -/

def isDivider (c : Byte) : Bool := isLineEnd c || c = 0

/-- The lines of a text, given the line so far, and whether the last one is closed.  A NUL where a
line could begin ends the text. -/
def textLines : List Byte → List Byte → List (List Byte) × Bool
  | [], line => (if line = [] then [] else [line], line = [])
  | c :: text, line =>
    if c = 0 ∧ line = [] then ([], true)
    else if isDivider c then
      (if line = [] then (textLines text []).1 else line :: (textLines text []).1,
        (textLines text []).2)
    else textLines text (line ++ [c])

/-- The file names in lines. -/
def namesOf (lines : List (List Byte)) : List (List Byte) :=
  (lines.filterMap fileLine?).map Prod.snd

/-- Another name: it is for the last file if it is the same. -/
def addName : List (List Byte × ℕ) → List Byte → List (List Byte × ℕ)
  | [], name => [(name, 1)]
  | (last, n) :: files, name =>
    if name = last then (last, n + 1) :: files else (name, 1) :: (last, n) :: files

/-- The files, the last one first, with the numbers of their names that follow one another. -/
def filesOf (names : List (List Byte)) : List (List Byte × ℕ) := names.foldl addName []

/-- The number of copies of the file at a place. -/
def copiesAt : List (List Byte × ℕ) → ℕ → Option ℕ
  | [], _ => none
  | file :: files, i => if i = files.length then some file.2 else copiesAt files i

/-- The copies of the files have been counted, and what is behind the array is as before. -/
structure Counted (before : ℕ → DataFile) (files : List (List Byte × ℕ)) (c : ControlState) :
    Prop where
  copies : ∀ i < maxFilesPerJob,
    (c.dataFiles i).copies = (copiesAt files i).getD (before i).copies
  inside : ∀ i, maxFilesPerJob ≤ i → c.dataFiles i = before i

/-- The text that is sent. -/
def ControlCall.text (call : ControlCall) : List Byte := call.input.flatten.take call.length.toNat

def ControlCall.lines (call : ControlCall) : List (List Byte) := (textLines call.text []).1

/-- The call returns without a fault, and has counted right after every line. -/
def ControlCall.Received (call : ControlCall) : Prop :=
  (∃ fuel c, call.receive fuel = some (.ok c)) ∧
    ∀ k, ∃ c, (call.lines.take k).foldlM controlLine call.start = .ok c ∧
      Counted call.start.dataFiles (filesOf (namesOf (call.lines.take k))) c

/-! ## When this is so -/

/-- The name of the last file that has a place. -/
def storedName : List (List Byte × ℕ) → List Byte
  | [] => []
  | file :: files => if files.length < maxFilesPerJob then file.1 else storedName files

/-- The name is told from that of the last file before it. -/
def NameFits (files : List (List Byte × ℕ)) (name : List Byte) : Prop :=
  match files with
  | [] => name ≠ []
  | (last, _) :: before =>
    if before.length < maxFilesPerJob then
      if name = last then name.length < maxNameConsider
      else ¬ (maxNameConsider ≤ last.length ∧ name = last.take (maxNameConsider - 1))
    else name.take maxNameConsider ≠ (storedName files).take (maxNameConsider - 1)

/-- The condition on a control file. -/
structure ControlCall.Fits (call : ControlCall) : Prop where
  buffer : 0 < call.length ∨ call.length = 0 ∧ call.earlier
  sent : call.length ≤ call.input.flatten.length
  closed : (textLines call.text []).2
  names : ∀ before name after, namesOf call.lines = before ++ name :: after →
    NameFits (filesOf before) name

/-! ## The text -/

theorem readLoop_some {fuel toread : ℕ} {input : List (List Byte)}
    {r : List Byte × List (List Byte)} (h : readLoop fuel toread input = some r) :
    toread ≤ input.flatten.length ∧ r.1 = input.flatten.take toread := by
  induction fuel generalizing toread input r with
  | zero =>
    cases toread with
    | zero =>
      cases h
      exact ⟨Nat.zero_le _, rfl⟩
    | succ n => cases h
  | succ fuel ih =>
    cases toread with
    | zero =>
      cases h
      exact ⟨Nat.zero_le _, rfl⟩
    | succ n =>
      cases input with
      | nil => exact ih h
      | cons piece input =>
        obtain ⟨r', hr, rfl⟩ := Option.map_eq_some_iff.1 h
        obtain ⟨le, text⟩ := ih hr
        rw [List.flatten_cons, List.length_append, List.take_append]
        by_cases longer : n + 1 < piece.length
        · have none : n + 1 - (piece.take (n + 1)).length = 0 := by
            rw [List.length_take]
            omega
          refine ⟨by omega, ?_⟩
          rw [text, none, List.take_zero, Nat.sub_eq_zero_of_le longer.le, List.take_zero]
        · rw [if_neg longer] at le text
          have whole : (piece.take (n + 1)).length = piece.length := by
            rw [List.length_take]
            omega
          rw [whole] at le text
          refine ⟨by omega, ?_⟩
          rw [text]

theorem exists_readLoop {toread : ℕ} {input : List (List Byte)}
    (h : toread ≤ input.flatten.length) : ∃ fuel r, readLoop fuel toread input = some r := by
  induction input generalizing toread with
  | nil =>
    obtain rfl : toread = 0 := Nat.le_zero.1 h
    exact ⟨0, _, rfl⟩
  | cons piece input ih =>
    cases toread with
    | zero => exact ⟨0, _, rfl⟩
    | succ n =>
      by_cases longer : n + 1 < piece.length
      · have none : n + 1 - (piece.take (n + 1)).length = 0 := by
          rw [List.length_take]
          omega
        refine ⟨1, (piece.take (n + 1) ++ [], piece.drop (n + 1) :: input), ?_⟩
        rw [readLoop, if_pos longer, none]
        rfl
      · rw [List.flatten_cons, List.length_append] at h
        have whole : (piece.take (n + 1)).length = piece.length := by
          rw [List.length_take]
          omega
        have rest : n + 1 - piece.length ≤ input.flatten.length := by omega
        obtain ⟨fuel, r, hr⟩ := ih rest
        refine ⟨fuel + 1, (piece.take (n + 1) ++ r.1, r.2), ?_⟩
        rw [readLoop, if_neg longer, whole, hr]
        rfl

/-! ## The lines -/

theorem textLines_plain {l : List Byte} (h : ∀ c ∈ l, isDivider c = false)
    (text line : List Byte) : textLines (l ++ text) line = textLines text (line ++ l) := by
  induction l generalizing line with
  | nil => rw [List.nil_append, List.append_nil]
  | cons c l ih =>
    have plain := h c (List.mem_cons_self ..)
    have some : c ≠ 0 := by
      rintro rfl
      exact absurd plain (by decide)
    rw [List.cons_append, textLines, if_neg fun h => some h.1, if_neg (by simp [plain]),
      ih fun c hc => h c (List.mem_cons_of_mem _ hc), List.append_assoc]
    rfl

theorem textLines_dropWhile (text : List Byte) :
    textLines (text.dropWhile isLineEnd) [] = textLines text [] := by
  induction text with
  | nil => rfl
  | cons c text ih =>
    by_cases hc : isLineEnd c
    · have some : c ≠ 0 := by
        rintro rfl
        exact absurd hc (by decide)
      rw [List.dropWhile_cons, if_pos hc, ih, textLines, if_neg fun h => some h.1,
        if_pos (by simp [isDivider, hc]), if_pos rfl]
    · rw [List.dropWhile_cons, if_neg hc]

theorem exists_divider (l : List Byte) : (∀ c ∈ l, isDivider c = false) ∨
    ∃ line d rest, l = line ++ d :: rest ∧ (∀ c ∈ line, isDivider c = false) ∧ isDivider d := by
  induction l with
  | nil => exact .inl fun c hc => absurd hc List.not_mem_nil
  | cons c l ih =>
    by_cases hc : isDivider c
    · exact .inr ⟨[], c, l, rfl, fun c hc => absurd hc List.not_mem_nil, hc⟩
    · have hc : isDivider c = false := by simpa using hc
      rcases ih with all | ⟨line, d, rest, rfl, plain, hd⟩
      · exact .inl (List.forall_mem_cons.2 ⟨hc, all⟩)
      · exact .inr ⟨c :: line, d, rest, rfl, List.forall_mem_cons.2 ⟨hc, plain⟩, hd⟩

theorem takeWhile_line {line : List Byte} (plain : ∀ c ∈ line, isDivider c = false) {d : Byte}
    (hd : isDivider d) (rest : List Byte) :
    (line ++ d :: rest).takeWhile (fun c => !isLineEnd c && c != 0) = line := by
  have inLine : ∀ c ∈ line, (!isLineEnd c && c != 0) = true := by
    intro c hc
    have := plain c hc
    simpa [isDivider] using this
  have stops : ¬ (!isLineEnd d && d != 0) = true := by
    simpa [isDivider, or_iff_not_imp_left] using hd
  rw [List.takeWhile_append_of_pos inLine, List.takeWhile_cons, if_neg stops, List.append_nil]

theorem dropWhile_isLineEnd (rest : List Byte) :
    (rest ++ [0]).dropWhile isLineEnd = rest.dropWhile isLineEnd ++ [0] := by
  induction rest with
  | nil => rfl
  | cons c rest ih =>
    rw [List.cons_append, List.dropWhile_cons, List.dropWhile_cons]
    split_ifs
    · exact ih
    · rfl

/-- What `controlLines` finds. -/
theorem controlLines_eq {fuel : ℕ} {text : List Byte} (hf : text.length < fuel) :
    if (textLines text []).2 then ∃ lines, controlLines fuel (text ++ [0]) = .ok lines ∧
      lines.filter (· ≠ []) = (textLines text []).1
    else controlLines fuel (text ++ [0]) = .error .pastBuffer := by
  induction fuel generalizing text with
  | zero => omega
  | succ fuel ih =>
    cases text with
    | nil => exact ⟨[], rfl, rfl⟩
    | cons c text =>
      by_cases hc : c = 0
      · subst hc
        exact ⟨[], rfl, rfl⟩
      have step : ∀ line d rest, c :: text ++ [0] = line ++ d :: rest →
          (∀ a ∈ line, isDivider a = false) → isDivider d →
          controlLines (fuel + 1) (c :: text ++ [0]) =
            (line :: ·) <$> controlLines fuel (rest.dropWhile isLineEnd) := by
        intro line d rest parts plain hd
        have behind : (line ++ d :: rest).drop (line.length + 1) = rest := by
          rw [← List.drop_drop, List.drop_left]
          rfl
        rw [List.cons_append, controlLines, if_neg hc, ← List.cons_append, parts]
        simp only [takeWhile_line plain hd, behind]
      rcases exists_divider (c :: text) with all | ⟨line, d, rest, parts, plain, hd⟩
      · have lines := textLines_plain all [] []
        rw [List.append_nil, List.nil_append] at lines
        have opened : (textLines (c :: text) []).2 = false := by
          rw [lines]
          rfl
        rw [opened, if_neg (by decide), step (c :: text) 0 [] rfl all (by decide)]
        cases fuel <;> rfl
      · have lines : textLines (c :: text) [] =
            (if line = [] then (textLines rest []).1 else line :: (textLines rest []).1,
              (textLines rest []).2) := by
          rw [parts, textLines_plain plain, List.nil_append, textLines, if_neg, if_pos hd]
          rintro ⟨rfl, rfl⟩
          exact hc (List.cons.inj parts).1
        have length := congrArg List.length parts
        rw [List.length_append, List.length_cons, List.length_cons] at length
        rw [List.length_cons] at hf
        have shorter := (List.dropWhile_sublist isLineEnd (l := rest)).length_le
        have enough : (rest.dropWhile isLineEnd).length < fuel := by omega
        have found := ih enough
        rw [textLines_dropWhile] at found
        rw [lines, step line d (rest ++ [0]) (by rw [parts]; simp) plain hd, dropWhile_isLineEnd]
        by_cases closed : (textLines rest []).2
        · rw [if_pos closed] at found
          obtain ⟨ls, run, eq⟩ := found
          dsimp only
          rw [if_pos closed, run]
          refine ⟨line :: ls, rfl, ?_⟩
          rw [List.filter_cons, eq]
          by_cases empty : line = [] <;> simp [empty]
        · rw [if_neg closed] at found
          dsimp only
          rw [if_neg closed, found]
          rfl

theorem controlLine_nil (c : ControlState) : controlLine c [] = .ok c := rfl

theorem foldlM_filter (lines : List (List Byte)) (c : ControlState) :
    (lines.filter (· ≠ [])).foldlM controlLine c = lines.foldlM controlLine c := by
  induction lines generalizing c with
  | nil => rfl
  | cons line lines ih =>
    by_cases empty : line = []
    · subst empty
      rw [List.filter_cons, if_neg (by simp), ih, List.foldlM_cons, controlLine_nil]
      rfl
    · rw [List.filter_cons, if_pos (by simpa using empty), List.foldlM_cons, List.foldlM_cons]
      exact bind_congr ih

theorem controlState_eq (text : List Byte) (dataFiles : ℕ → DataFile) (n : ℕ) :
    controlState text dataFiles n =
      if (textLines text []).2 then
        (textLines text []).1.foldlM controlLine { dataFiles := dataFiles, filesUnlinked := n }
      else .error .pastBuffer := by
  have found := controlLines_eq (Nat.lt_succ_self text.length)
  rw [controlState]
  by_cases closed : (textLines text []).2
  · rw [if_pos closed] at found ⊢
    obtain ⟨lines, run, eq⟩ := found
    rw [run, ← eq, foldlM_filter]
    rfl
  · rw [if_neg closed] at found ⊢
    rw [found]
    rfl

/-! ## The names -/

theorem take_eq_take {name last : List Byte} : name.take maxNameConsider =
    last.take (maxNameConsider - 1) ↔
      (last.length < maxNameConsider ∧ name = last) ∨
        (maxNameConsider ≤ last.length ∧ name = last.take (maxNameConsider - 1)) := by
  constructor
  · intro h
    have length := congrArg List.length h
    rw [List.length_take, List.length_take] at length
    have short : name.length < maxNameConsider := by
      unfold maxNameConsider at *
      omega
    rw [List.take_of_length_le short.le] at h
    by_cases long : maxNameConsider ≤ last.length
    · exact .inr ⟨long, h⟩
    · rw [List.take_of_length_le (by unfold maxNameConsider at *; omega)] at h
      exact .inl ⟨by omega, h⟩
  · rintro (⟨short, rfl⟩ | ⟨-, rfl⟩)
    · rw [List.take_of_length_le short.le,
        List.take_of_length_le (by unfold maxNameConsider at *; omega)]
    · rw [List.take_take]
      rfl

/-- The state after lines with some names. -/
structure StateOf (before : ℕ → DataFile) (files : List (List Byte × ℕ)) (c : ControlState) : Prop
    extends Counted before files c where
  count : c.filesCount = min files.length maxFilesPerJob
  last : c.lastFileName = (storedName files).take (maxNameConsider - 1)

theorem copiesAt_eq_none : ∀ {files : List (List Byte × ℕ)} {i : ℕ}, files.length ≤ i →
    copiesAt files i = none
  | [], _, _ => rfl
  | file :: files, i, h => by
    rw [List.length_cons] at h
    rw [copiesAt, if_neg (by omega)]
    exact copiesAt_eq_none (by omega)

/-- A line that is not about a file. -/
theorem StateOf.quiet {before : ℕ → DataFile} {files : List (List Byte × ℕ)} {c : ControlState}
    (h : StateOf before files c) {line : List Byte} (quiet : fileLine? line = none) :
    ∃ c', controlLine c line = .ok c' ∧ StateOf before files c' := by
  cases hn : nameLine? line with
  | none => exact ⟨_, controlLine_count quiet hn c, ⟨h.copies, h.inside⟩, h.count, h.last⟩
  | some arg =>
    obtain rfl : line = 78 :: arg := by
      cases line with
      | nil => cases hn
      | cons letter arg' =>
        simp only [nameLine?] at hn
        split_ifs at hn with h
        rw [h, Option.some.inj hn]
    rw [controlLine, if_pos rfl]
    by_cases room : c.N_Count < maxFilesPerJob
    · rw [if_pos room]
      refine ⟨_, rfl, ⟨fun i hi => ?_, fun i hi => ?_⟩, h.count, h.last⟩
      · rw [setName_dataFiles]
        exact h.copies i hi
      · rw [setName_dataFiles, if_neg (by omega)]
        exact h.inside i hi
    · rw [if_neg room]
      exact ⟨c, rfl, h⟩

/-- A line for a file. -/
theorem controlLine_file {line name : List Byte} {letter : Byte}
    (file : fileLine? line = some (letter, name)) (c : ControlState) : controlLine c line =
      if name.take maxNameConsider = c.lastFileName.take maxNameConsider then
        match c.filesCount with
        | 0 => .error .beforeArray
        | k + 1 => .ok (c.extraCopy k)
      else if c.filesCount < maxFilesPerJob then .ok (c.newFile letter name)
      else .ok c := by
  cases line with
  | nil => cases file
  | cons letter' arg =>
    simp only [fileLine?] at file
    split_ifs at file with good
    cases file
    have h78 : letter ≠ 78 := fun h => absurd (h ▸ good.1) (by decide)
    have h85 : letter ≠ 85 := fun h => absurd (h ▸ good.1) (by decide)
    rw [controlLine, if_neg h78, if_neg h85, if_pos good.1]
    exact if_pos good.2

theorem copiesAt_same (last : List Byte) (n : ℕ) (files : List (List Byte × ℕ)) (i : ℕ) :
    copiesAt (addName ((last, n) :: files) last) i =
      if i = files.length then some (n + 1) else copiesAt ((last, n) :: files) i := by
  rw [addName, if_pos rfl, copiesAt, copiesAt]
  split_ifs <;> rfl

theorem copiesAt_other {name last : List Byte} (other : name ≠ last) (n : ℕ)
    (files : List (List Byte × ℕ)) (i : ℕ) :
    copiesAt (addName ((last, n) :: files) name) i =
      if i = files.length + 1 then some 1 else copiesAt ((last, n) :: files) i := by
  rw [addName, if_neg other, copiesAt, List.length_cons]

/-- Names that find no place change nothing. -/
theorem addName_full {files : List (List Byte × ℕ)} (last : List Byte) (n : ℕ)
    (full : maxFilesPerJob ≤ files.length) (name : List Byte) :
    (∀ i < maxFilesPerJob,
      copiesAt (addName ((last, n) :: files) name) i = copiesAt ((last, n) :: files) i) ∧
    maxFilesPerJob ≤ (addName ((last, n) :: files) name).length ∧
    storedName (addName ((last, n) :: files) name) = storedName ((last, n) :: files) := by
  by_cases same : name = last
  · subst same
    refine ⟨fun i hi => ?_, ?_, ?_⟩
    · rw [copiesAt_same, if_neg (by omega)]
    · rw [addName, if_pos rfl, List.length_cons]
      omega
    · rw [addName, if_pos rfl, storedName, if_neg (by omega), storedName, if_neg (by omega)]
  · refine ⟨fun i hi => ?_, ?_, ?_⟩
    · rw [copiesAt_other same, if_neg (by omega)]
    · rw [addName, if_neg same, List.length_cons, List.length_cons]
      omega
    · rw [addName, if_neg same, storedName, if_neg (by rw [List.length_cons]; omega)]

theorem StateOf.newFile {before : ℕ → DataFile} {files : List (List Byte × ℕ)} {c : ControlState}
    (h : StateOf before files c) {name : List Byte} (letter : Byte)
    (none : files.length < maxFilesPerJob)
    {files' : List (List Byte × ℕ)}
    (added : files' = (name, 1) :: files) : StateOf before files' (c.newFile letter name) := by
  have place : c.filesCount = files.length := by
    rw [h.count]
    omega
  subst added
  refine ⟨⟨fun i hi => ?_, fun i hi => ?_⟩, ?_, ?_⟩
  · rw [newFile_dataFiles, copiesAt, place]
    dsimp only
    split_ifs
    · rfl
    · exact h.copies i hi
  · rw [newFile_dataFiles, if_neg (by omega), if_neg (by omega)]
    exact h.inside i hi
  · show c.filesCount + 1 = _
    rw [place, List.length_cons]
    omega
  · rw [storedName, if_pos none]
    rfl

/-- The test for another copy, when the last file has a place. -/
theorem nameFits_iff {name last : List Byte} {n : ℕ} {fs : List (List Byte × ℕ)}
    (room : fs.length < maxFilesPerJob) : NameFits ((last, n) :: fs) name ↔
      (name.take maxNameConsider = (storedName ((last, n) :: fs)).take (maxNameConsider - 1) ↔
        name = last) := by
  rw [NameFits, if_pos room, storedName, if_pos room]
  simp only [take_eq_take]
  by_cases same : name = last
  · subst same
    have long : maxNameConsider ≤ name.length → name ≠ name.take (maxNameConsider - 1) := by
      intro long eq
      have := congrArg List.length eq
      rw [List.length_take] at this
      unfold maxNameConsider at *
      omega
    rw [if_pos rfl]
    constructor
    · exact fun short => iff_of_true (.inl ⟨short, rfl⟩) rfl
    · intro taken
      rcases taken.2 rfl with ⟨short, -⟩ | ⟨le, eq⟩
      · exact short
      · exact absurd eq (long le)
  · rw [if_neg same]
    constructor
    · intro other
      refine iff_of_false ?_ same
      rintro (⟨-, eq⟩ | cut)
      · exact same eq
      · exact other cut
    · exact fun taken cut => same (taken.1 (.inr cut))

section Name

variable {before : ℕ → DataFile} {files : List (List Byte × ℕ)} {c : ControlState}
  (h : StateOf before files c) {line name : List Byte} {letter : Byte}
  (file : fileLine? line = some (letter, name))

include h file

/-- The test for another copy compares with the name of the last file that has a place. -/
theorem StateOf.controlLine_eq : controlLine c line =
    if name.take maxNameConsider = (storedName files).take (maxNameConsider - 1) then
      match min files.length maxFilesPerJob with
      | 0 => .error .beforeArray
      | k + 1 => .ok (c.extraCopy k)
    else if files.length < maxFilesPerJob then .ok (c.newFile letter name)
    else .ok c := by
  have last : c.lastFileName.take maxNameConsider =
      (storedName files).take (maxNameConsider - 1) := by
    rw [h.last, List.take_take]
    rfl
  have room : c.filesCount < maxFilesPerJob ↔ files.length < maxFilesPerJob := by
    rw [h.count]
    omega
  rw [controlLine_file file, last]
  simp only [room]
  rw [h.count]

theorem StateOf.name_fits (fits : NameFits files name) :
    ∃ c', controlLine c line = .ok c' ∧ StateOf before (addName files name) c' := by
  rw [h.controlLine_eq file]
  match files with
  | [] =>
    have other : name.take maxNameConsider ≠ (storedName []).take (maxNameConsider - 1) := by
      intro eq
      rcases take_eq_take.1 eq with ⟨-, empty⟩ | ⟨long, -⟩
      · exact fits empty
      · exact absurd long (by decide)
    rw [if_neg other, if_pos (by decide)]
    exact ⟨_, rfl, h.newFile letter (by decide) rfl⟩
  | (last, n) :: fs =>
    by_cases room : fs.length < maxFilesPerJob
    · have taken := (nameFits_iff room).1 fits
      by_cases same : name = last
      · -- Another copy of the last file.
        have place : min ((last, n) :: fs).length maxFilesPerJob = fs.length + 1 := by
          rw [List.length_cons]
          omega
        rw [if_pos (taken.2 same), place]
        subst same
        refine ⟨_, rfl, ⟨fun i hi => ?_, fun i hi => ?_⟩, ?_, ?_⟩
        · rw [extraCopy_dataFiles, copiesAt_same]
          dsimp only
          rw [h.copies i hi, copiesAt]
          split_ifs <;> rfl
        · rw [extraCopy_dataFiles, if_neg (by omega)]
          exact h.inside i hi
        · rw [addName, if_pos rfl]
          exact h.count
        · rw [addName, if_pos rfl, storedName, if_pos room]
          have := h.last
          rwa [storedName, if_pos room] at this
      · rw [if_neg fun eq => same (taken.1 eq)]
        have added : addName ((last, n) :: fs) name = (name, 1) :: (last, n) :: fs := by
          rw [addName, if_neg same]
        by_cases more : ((last, n) :: fs).length < maxFilesPerJob
        · rw [if_pos more]
          exact ⟨_, rfl, h.newFile letter more added⟩
        · -- No room for the file.
          rw [if_neg more]
          rw [List.length_cons] at more
          refine ⟨c, rfl, ⟨fun i hi => ?_, h.inside⟩, ?_, ?_⟩
          · rw [copiesAt_other same, if_neg (by omega)]
            exact h.copies i hi
          · have := h.count
            rw [added]
            simp only [List.length_cons] at this ⊢
            omega
          · have stored : storedName ((name, 1) :: (last, n) :: fs) = storedName ((last, n) :: fs) := by
              rw [storedName, List.length_cons, if_neg more]
            rw [h.last, added, stored]
    · obtain ⟨copies, count, stored⟩ := addName_full last n (not_lt.1 room) name
      have other : name.take maxNameConsider ≠
          (storedName ((last, n) :: fs)).take (maxNameConsider - 1) := by
        rwa [NameFits, if_neg room] at fits
      rw [if_neg other, if_neg (by rw [List.length_cons]; omega)]
      refine ⟨c, rfl, ⟨fun i hi => ?_, h.inside⟩, ?_, ?_⟩
      · rw [copies i hi]
        exact h.copies i hi
      · rw [h.count, List.length_cons]
        omega
      · rw [h.last, stored]

theorem StateOf.not_counted (bad : ¬ NameFits files name) {c' : ControlState}
    (run : controlLine c line = .ok c') : ¬ Counted before (addName files name) c' := by
  rw [h.controlLine_eq file] at run
  intro counted
  match files with
  | [] =>
    -- `data_files[-1]`.
    have empty : name = [] := not_not.1 bad
    rw [empty] at run
    cases run
  | (last, n) :: fs =>
    by_cases room : fs.length < maxFilesPerJob
    · have copies := counted.copies fs.length room
      have old := h.copies fs.length room
      rw [copiesAt, if_pos rfl] at old
      rw [nameFits_iff room] at bad
      by_cases same : name = last
      · -- A copy that is not counted.
        have other : ¬ name.take maxNameConsider =
            (storedName ((last, n) :: fs)).take (maxNameConsider - 1) :=
          fun eq => bad (iff_of_true eq same)
        subst same
        rw [copiesAt_same, if_pos rfl] at copies
        rw [if_neg other] at run
        split_ifs at run with more
        · cases run
          have place : fs.length ≠ c.filesCount := by
            rw [h.count, List.length_cons]
            omega
          rw [newFile_dataFiles] at copies
          dsimp only at copies
          rw [if_neg place, old] at copies
          simp at copies
        · cases run
          rw [old] at copies
          simp at copies
      · -- A file that is counted as a copy.
        have taken : name.take maxNameConsider =
            (storedName ((last, n) :: fs)).take (maxNameConsider - 1) := by
          by_contra other
          exact bad (iff_of_false other same)
        have place : min ((last, n) :: fs).length maxFilesPerJob = fs.length + 1 := by
          rw [List.length_cons]
          omega
        rw [if_pos taken, place] at run
        cases run
        rw [extraCopy_dataFiles, copiesAt_other same, if_neg (Nat.lt_succ_self _).ne, copiesAt,
          if_pos rfl] at copies
        dsimp only at copies
        rw [old, if_pos rfl] at copies
        simp at copies
    · have taken : name.take maxNameConsider =
          (storedName ((last, n) :: fs)).take (maxNameConsider - 1) := by
        rw [NameFits, if_neg room] at bad
        exact not_not.1 bad
      obtain ⟨same, -, -⟩ := addName_full last n (not_lt.1 room) name
      have place : min ((last, n) :: fs).length maxFilesPerJob = 99 + 1 := by
        rw [List.length_cons]
        unfold maxFilesPerJob at *
        omega
      have copies := counted.copies 99 (by decide)
      have old := h.copies 99 (by decide)
      rw [if_pos taken, place] at run
      cases run
      rw [extraCopy_dataFiles, same _ (by decide), ← old] at copies
      simp at copies

end Name

/-! ## A control file -/

theorem namesOf_cons_none {line : List Byte} (quiet : fileLine? line = none)
    (lines : List (List Byte)) : namesOf (line :: lines) = namesOf lines := by
  rw [namesOf, List.filterMap_cons_none quiet]
  rfl

theorem namesOf_cons_some {line name : List Byte} {letter : Byte}
    (file : fileLine? line = some (letter, name)) (lines : List (List Byte)) :
    namesOf (line :: lines) = name :: namesOf lines := by
  rw [namesOf, List.filterMap_cons_some file]
  rfl

/-- From a state on, all counts are right exactly if every name is told from the one before. -/
theorem StateOf.counted_iff {before : ℕ → DataFile} {c : ControlState}
    {files : List (List Byte × ℕ)} (h : StateOf before files c) (lines : List (List Byte)) :
    (∀ k, ∃ c', (lines.take k).foldlM controlLine c = .ok c' ∧
      Counted before ((namesOf (lines.take k)).foldl addName files) c') ↔
    ∀ earlier name later, namesOf lines = earlier ++ name :: later →
      NameFits (earlier.foldl addName files) name := by
  induction lines generalizing c files with
  | nil =>
    constructor
    · intro _ earlier name later none
      exact absurd none (by simp [namesOf])
    · intro _ k
      rw [List.take_nil]
      exact ⟨c, rfl, h.toCounted⟩
  | cons line lines ih =>
    -- The counts after the line are those from the state that it leads to.
    have next : ∀ {c' files'}, controlLine c line = .ok c' →
        (∀ k, (namesOf (line :: lines.take k)).foldl addName files =
          (namesOf (lines.take k)).foldl addName files') →
        ((∀ k, ∃ c'', ((line :: lines).take k).foldlM controlLine c = .ok c'' ∧
          Counted before ((namesOf ((line :: lines).take k)).foldl addName files) c'') ↔
        ∀ k, ∃ c'', (lines.take k).foldlM controlLine c' = .ok c'' ∧
          Counted before ((namesOf (lines.take k)).foldl addName files') c'') := by
      intro c' files' run names
      constructor
      · intro all k
        obtain ⟨c'', run', counted⟩ := all (k + 1)
        rw [List.take_succ_cons, List.foldlM_cons, run] at run'
        rw [List.take_succ_cons, names] at counted
        exact ⟨c'', run', counted⟩
      · intro all k
        cases k with
        | zero => exact ⟨c, rfl, h.toCounted⟩
        | succ k =>
          rw [List.take_succ_cons, List.foldlM_cons, run, names]
          exact all k
    cases file : fileLine? line with
    | none =>
      obtain ⟨c', run, h'⟩ := h.quiet file
      have same : ∀ k, (namesOf (line :: lines.take k)).foldl addName files =
          (namesOf (lines.take k)).foldl addName files :=
        fun k => by rw [namesOf_cons_none file]
      rw [next run same, ih h', namesOf_cons_none file]
    | some f =>
      obtain ⟨letter, name⟩ := f
      rw [namesOf_cons_some file]
      by_cases fits : NameFits files name
      · obtain ⟨c', run, h'⟩ := h.name_fits file fits
        have added : ∀ k, (namesOf (line :: lines.take k)).foldl addName files =
            (namesOf (lines.take k)).foldl addName (addName files name) :=
          fun k => by rw [namesOf_cons_some file]; rfl
        rw [next run added, ih h']
        constructor
        · intro all earlier name' later eq
          cases earlier with
          | nil =>
            cases eq
            exact fits
          | cons first earlier =>
            obtain ⟨rfl, rest⟩ := List.cons.inj eq
            exact all earlier name' later rest
        · intro all earlier name' later eq
          exact all (name :: earlier) name' later (congrArg (name :: ·) eq)
      · refine iff_of_false (fun all => ?_) fun all => fits (all [] name _ rfl)
        obtain ⟨c', run, counted⟩ := all 1
        have one : (line :: lines).take 1 = [line] := rfl
        rw [one, namesOf_cons_some file] at counted
        rw [one, List.foldlM_cons] at run
        obtain ⟨c'', run, last⟩ := Outcome.bind_eq_ok run
        cases last
        exact h.not_counted file fits run counted

theorem StateOf.start (call : ControlCall) : StateOf call.start.dataFiles [] call.start :=
  ⟨⟨fun _ _ => rfl, fun _ _ => rfl⟩, rfl, rfl⟩

/-- When the call returns. -/
theorem ControlCall.receive_iff (call : ControlCall) :
    (∃ fuel c, call.receive fuel = some (.ok c)) ↔
      (0 < call.length ∨ call.length = 0 ∧ call.earlier) ∧
        call.length ≤ call.input.flatten.length ∧ (textLines call.text []).2 = true ∧
          ∃ c, call.lines.foldlM controlLine call.start = .ok c := by
  constructor
  · rintro ⟨fuel, c, run⟩
    unfold ControlCall.receive at run
    split at run
    · cases run
    rename_i text _ read
    split_ifs at run with buffer negative <;> try cases run
    obtain ⟨sent, rfl⟩ := readLoop_some read
    have run := Option.some.inj run
    rw [controlState_eq] at run
    split_ifs at run with closed
    refine ⟨?_, by omega, closed, c, run⟩
    rcases buffer with positive | earlier
    · exact .inl positive
    · by_cases positive : 0 < call.length
      · exact .inl positive
      · exact .inr ⟨by omega, earlier⟩
  · rintro ⟨buffer, sent, closed, c, run⟩
    obtain ⟨fuel, ⟨text, rest⟩, read⟩ := exists_readLoop
      (by omega : call.length.toNat ≤ call.input.flatten.length)
    obtain ⟨-, rfl⟩ := readLoop_some read
    refine ⟨fuel, c, ?_⟩
    unfold ControlCall.receive
    rw [read]
    dsimp only
    rw [if_neg (not_not.2 (by tauto)), if_neg (by omega), controlState_eq]
    exact congrArg some ((if_pos closed).trans run)

end Ppr.Lprsrv
