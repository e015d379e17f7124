import Ppr.Lprsrv.TakeJob

/-!
# What a control file says

A control file names files, and says for each the type, the number of copies and the original name.
`receive_control_file()` puts this in the places of an array, in the order of the lines.  For a
control file that is well formed (`Says`) the place of each file is known.
-/

namespace Ppr.Lprsrv

/-! ## What a control file says -/

/-- The letter and the name in a line for a file. -/
def fileLine? : List Byte → Option (Byte × List Byte)
  | [] => none
  | letter :: arg => if letter ∈ fileLetters ∧ notSpurious arg then some (letter, arg) else none

/-- The name in an "N" line. -/
def nameLine? : List Byte → Option (List Byte)
  | [] => none
  | letter :: arg => if letter = 78 then some arg else none

/-- A "U" line for a file of the job. -/
def isUnlink : List Byte → Bool
  | 85 :: 100 :: _ => true
  | _ => false

/-- A line for this file. -/
def isFor (name line : List Byte) : Bool := (fileLine? line).any fun f => f.2 = name

/-- A line for another file. -/
def isForOther (name line : List Byte) : Bool := (fileLine? line).any fun f => f.2 ≠ name

/-- The type that the lines give for a file. -/
def typeFor (lines : List (List Byte)) (name : List Byte) : Byte :=
  (((lines.filterMap fileLine?).find? fun f => f.2 = name).map Prod.fst).getD 0

/-- The number of copies that the lines give for a file. -/
def copiesFor (lines : List (List Byte)) (name : List Byte) : ℕ := lines.countP (isFor name)

/-- The original name that the lines give for a file: the "N" line comes after the lines for the file
and before those for the next one. -/
def originalFor (lines : List (List Byte)) (name : List Byte) : Option (List Byte) :=
  ((lines.dropWhile fun l => !isFor name l).takeWhile fun l => !isForOther name l).findSome? nameLine?

/-- A name as it is shown by lpq. -/
def shownName (s : List Byte) : List Byte :=
  if s = [32] then ascii "standard input" else if s = [] then ascii "stdin" else s

/-! ## Well formed control files -/

/-- The lines of a control file. -/
def linesOf (text : List Byte) : List (List Byte) :=
  match controlLines (text.length + 1) (text ++ [0]) with
  | .ok lines => lines
  | .error _ => []

/-- What a control file says about a file. -/
structure Entry where
  letter : Byte
  name : List Byte
  copies : ℕ
  original : Option (List Byte)

namespace Entry

/-- The name is so short that it is compared as a whole, and the number of copies is reasonable. -/
structure Valid (e : Entry) : Prop where
  letter : e.letter ∈ fileLetters
  notSpurious : notSpurious e.name = true
  ne_nil : e.name ≠ []
  short : e.name.length < maxNameConsider
  pos : 0 < e.copies
  reasonable : e.copies ≤ 9999

/-- The lines for a file: as many as there are copies, and then one "U" line and the "N" line, if
there is one, in some order and among others. -/
def Lines (e : Entry) (block : List (List Byte)) : Prop :=
  ∃ tail, block = List.replicate e.copies (e.letter :: e.name) ++ tail ∧
    (∀ l ∈ tail, fileLine? l = none) ∧ tail.countP isUnlink = 1 ∧
    tail.filterMap nameLine? = e.original.toList

end Entry

/-- The lines for some files, one after the other.  A file without "N" line is not followed by one
that has it. -/
inductive Blocks : List Entry → List (List Byte) → Prop
  | nil : Blocks [] []
  | cons {e : Entry} {es : List Entry} {block rest : List (List Byte)} : e.Valid → e.Lines block →
      (e.original = none → ∀ e' ∈ es, e'.original = none) → (∀ e' ∈ es, e'.name ≠ e.name) →
      Blocks es rest → Blocks (e :: es) (block ++ rest)

/-- The control file says these things, after some lines that are not about files. -/
def Says (text : List Byte) (entries : List Entry) : Prop :=
  text ≠ [] ∧ ∃ before rest, controlLines (text.length + 1) (text ++ [0]) = .ok (before ++ rest) ∧
    (∀ l ∈ before, fileLine? l = none ∧ isUnlink l = false ∧ nameLine? l = none) ∧
    Blocks entries rest ∧ entries.length ≤ maxFilesPerJob

/-! ## Reading the control file -/

/-- Where the name of an "N" line is. -/
def namePtr (arg : List Byte) : NamePtr :=
  if arg = [32] then .constant (ascii "standard input") else .buffer arg

theorem argument_namePtr (s : List Byte) : (namePtr s).argument = .ok (some (shownName s)) := by
  unfold namePtr shownName
  split_ifs with h1 h2
  · rfl
  · rw [NamePtr.argument, if_pos h2]
  · rw [NamePtr.argument, if_neg h2]

/-- What lines do to names and counts. -/
structure NamesRead (lines : List (List Byte)) (c c' : ControlState) : Prop where
  unlinked : c'.filesUnlinked = c.filesUnlinked + lines.countP isUnlink
  count : c'.N_Count = c.N_Count + (lines.filterMap nameLine?).length
  names : ∀ k s, (lines.filterMap nameLine?)[k]? = some s →
    (c'.dataFiles (c.N_Count + k)).Name = namePtr s
  before : ∀ i, i < c.N_Count → (c'.dataFiles i).Name = (c.dataFiles i).Name
  after : ∀ i, c'.N_Count ≤ i → (c'.dataFiles i).Name = (c.dataFiles i).Name
  place : ∀ i, (c'.dataFiles i).start = (c.dataFiles i).start ∧
    (c'.dataFiles i).length = (c.dataFiles i).length

theorem NamesRead.nil (c : ControlState) : NamesRead [] c c where
  unlinked := rfl
  count := rfl
  names := fun k s h => by cases h
  before := fun _ _ => rfl
  after := fun _ _ => rfl
  place := fun _ => ⟨rfl, rfl⟩

theorem NamesRead.append {l l' : List (List Byte)} {c c' c'' : ControlState}
    (h : NamesRead l c c') (h' : NamesRead l' c' c'') : NamesRead (l ++ l') c c'' where
  unlinked := by rw [h'.unlinked, h.unlinked, List.countP_append, Nat.add_assoc]
  count := by rw [h'.count, h.count, List.filterMap_append, List.length_append, Nat.add_assoc]
  names := fun k s hk => by
    rw [List.filterMap_append] at hk
    by_cases hlt : k < (l.filterMap nameLine?).length
    · rw [List.getElem?_append_left hlt] at hk
      have hlt' : c.N_Count + k < c'.N_Count := by
        rw [h.count]
        omega
      rw [h'.before _ hlt', h.names k s hk]
    · rw [List.getElem?_append_right (by omega)] at hk
      have := h'.names _ s hk
      rwa [h.count, show c.N_Count + (l.filterMap nameLine?).length +
        (k - (l.filterMap nameLine?).length) = c.N_Count + k by omega] at this
  before := fun i hi => by
    have hlt : i < c'.N_Count := by
      rw [h.count]
      omega
    rw [h'.before i hlt, h.before i hi]
  after := fun i hi => by
    have hle : c'.N_Count ≤ i := by
      have := h'.count
      omega
    rw [h'.after i hi, h.after i hle]
  place := fun i => ⟨(h'.place i).1.trans (h.place i).1, (h'.place i).2.trans (h.place i).2⟩

/-- A change that only is about type, copies and the last file name. -/
theorem NamesRead.of_file {l : List Byte} {c c' : ControlState} (hl : fileLine? l ≠ none)
    (hu : c'.filesUnlinked = c.filesUnlinked) (hn : c'.N_Count = c.N_Count)
    (hfiles : ∀ i, (c'.dataFiles i).Name = (c.dataFiles i).Name ∧
      (c'.dataFiles i).start = (c.dataFiles i).start ∧
      (c'.dataFiles i).length = (c.dataFiles i).length) : NamesRead [l] c c' := by
  obtain ⟨hnotName, hnotUnlink⟩ : nameLine? l = none ∧ isUnlink l = false := by
    cases l with
    | nil => exact ⟨rfl, rfl⟩
    | cons letter arg =>
      have hletter : letter ∈ fileLetters := by
        by_contra hnot
        exact hl (if_neg fun h => hnot h.1)
      have h78 : letter ≠ 78 := fun h => absurd (h ▸ hletter) (by decide)
      have h85 : letter ≠ 85 := fun h => absurd (h ▸ hletter) (by decide)
      refine ⟨if_neg h78, ?_⟩
      unfold isUnlink
      split
      · rename_i heq
        exact absurd (List.cons.inj heq).1 h85
      · rfl
  refine ⟨?_, ?_, fun k s hk => ?_, fun i _ => (hfiles i).1, fun i _ => (hfiles i).1,
    fun i => (hfiles i).2⟩
  · rw [List.countP_singleton, hnotUnlink, hu]
    rfl
  · rw [List.filterMap_cons_none hnotName, hn]
    rfl
  · rw [List.filterMap_cons_none hnotName] at hk
    cases hk

/-- What lines do to types and copies: there are some more files. -/
structure FilesRead (es : List Entry) (c c' : ControlState) : Prop where
  count : c'.filesCount = c.filesCount + es.length
  files : ∀ k e, es[k]? = some e → (c'.dataFiles (c.filesCount + k)).type = e.letter ∧
    (c'.dataFiles (c.filesCount + k)).copies = e.copies
  before : ∀ i, i < c.filesCount → (c'.dataFiles i).type = (c.dataFiles i).type ∧
    (c'.dataFiles i).copies = (c.dataFiles i).copies

theorem FilesRead.append {es es' : List Entry} {c c' c'' : ControlState} (h : FilesRead es c c')
    (h' : FilesRead es' c' c'') : FilesRead (es ++ es') c c'' where
  count := by rw [h'.count, h.count, List.length_append, Nat.add_assoc]
  files := fun k e hk => by
    by_cases hlt : k < es.length
    · rw [List.getElem?_append_left hlt] at hk
      have hlt' : c.filesCount + k < c'.filesCount := by
        rw [h.count]
        omega
      rw [(h'.before _ hlt').1, (h'.before _ hlt').2]
      exact h.files k e hk
    · rw [List.getElem?_append_right (by omega)] at hk
      have := h'.files _ e hk
      rwa [h.count, show c.filesCount + es.length + (k - es.length) = c.filesCount + k by omega]
        at this
  before := fun i hi => by
    have hlt : i < c'.filesCount := by
      rw [h.count]
      omega
    exact ⟨(h'.before i hlt).1.trans (h.before i hi).1, (h'.before i hlt).2.trans (h.before i hi).2⟩

theorem FilesRead.of_same {c c' : ControlState} (hcount : c'.filesCount = c.filesCount)
    (hfiles : ∀ i, (c'.dataFiles i).type = (c.dataFiles i).type ∧
      (c'.dataFiles i).copies = (c.dataFiles i).copies) : FilesRead [] c c' where
  count := hcount
  files := fun k e h => by cases h
  before := fun i _ => hfiles i

theorem isUnlink_eq_false {letter : Byte} {arg : List Byte}
    (h : letter ≠ 85 ∨ arg.head? ≠ some 100) : isUnlink (letter :: arg) = false := by
  unfold isUnlink
  split
  · rename_i heq
    obtain ⟨hletter, harg⟩ := List.cons.inj heq
    rcases h with h | h
    · exact absurd hletter h
    · rw [harg] at h
      exact absurd rfl h
  · rfl

/-- A line that is only counted. -/
theorem NamesRead.of_count {l : List Byte} (hl : nameLine? l = none) (c : ControlState) :
    NamesRead [l] c { c with filesUnlinked := c.filesUnlinked + [l].countP isUnlink } where
  unlinked := rfl
  count := by
    rw [List.filterMap_cons_none hl]
    rfl
  names := fun k s hk => by
    rw [List.filterMap_cons_none hl] at hk
    cases hk
  before := fun _ _ => rfl
  after := fun _ _ => rfl
  place := fun _ => ⟨rfl, rfl⟩

theorem setName_dataFiles (c : ControlState) (p : NamePtr) (i : ℕ) :
    (c.setName p).dataFiles i =
      { c.dataFiles i with Name := if i = c.N_Count then p else (c.dataFiles i).Name } := by
  simp only [ControlState.setName, Function.update_apply]
  split_ifs with hi
  · rw [hi]
  · rfl

theorem extraCopy_dataFiles (c : ControlState) (k i : ℕ) :
    (c.extraCopy k).dataFiles i =
      { c.dataFiles i with copies := (c.dataFiles i).copies + if i = k then 1 else 0 } := by
  simp only [ControlState.extraCopy, Function.update_apply]
  split_ifs with hi
  · rw [hi]
  · rfl

theorem newFile_dataFiles (c : ControlState) (letter : Byte) (name : List Byte) (i : ℕ) :
    (c.newFile letter name).dataFiles i =
      { c.dataFiles i with
        type := if i = c.filesCount then letter else (c.dataFiles i).type
        copies := if i = c.filesCount then 1 else (c.dataFiles i).copies } := by
  simp only [ControlState.newFile, Function.update_apply]
  split_ifs with hi
  · rw [hi]
  · rfl

theorem controlLine_name (c : ControlState) (arg : List Byte) (hc : c.N_Count < maxFilesPerJob) :
    ∃ c', controlLine c (78 :: arg) = .ok c' ∧ NamesRead [78 :: arg] c c' ∧ FilesRead [] c c' ∧
      c'.lastFileName = c.lastFileName := by
  have hfiles := setName_dataFiles c (namePtr arg)
  refine ⟨c.setName (namePtr arg), ?_, ⟨rfl, rfl, fun k s hk => ?_, fun i hi => ?_, fun i hi => ?_,
    fun i => ?_⟩, .of_same rfl fun i => ?_, rfl⟩
  · rw [controlLine, if_pos rfl, if_pos hc]
    rfl
  · cases k with
    | zero =>
      cases hk
      rw [hfiles]
      exact if_pos rfl
    | succ k => cases hk
  · rw [hfiles]
    exact if_neg hi.ne
  · rw [hfiles]
    exact if_neg (Nat.lt_of_succ_le hi).ne'
  · rw [hfiles]
    exact ⟨rfl, rfl⟩
  · rw [hfiles]
    exact ⟨rfl, rfl⟩

theorem controlLine_count {l : List Byte} (hl : fileLine? l = none) (hn : nameLine? l = none)
    (c : ControlState) :
    controlLine c l = .ok { c with filesUnlinked := c.filesUnlinked + [l].countP isUnlink } := by
  cases l with
  | nil => rfl
  | cons letter arg =>
    have hN : letter ≠ 78 := by
      intro h
      rw [nameLine?, if_pos h] at hn
      cases hn
    rw [controlLine, if_neg hN, List.countP_singleton]
    by_cases hU : letter = 85
    · rw [if_pos hU, hU]
      by_cases hd : arg.head? = some 100
      · rw [if_pos hd]
        cases arg with
        | nil => cases hd
        | cons a arg' =>
          rw [Option.some.inj hd]
          rfl
      · rw [if_neg hd, isUnlink_eq_false (.inr hd)]
        rfl
    · rw [if_neg hU, isUnlink_eq_false (.inl hU)]
      by_cases hletter : letter ∈ fileLetters
      · have hspurious : ¬ notSpurious arg = true := by
          intro h
          rw [fileLine?, if_pos ⟨hletter, h⟩] at hl
          cases hl
        rw [if_pos hletter, if_neg hspurious]
        rfl
      · rw [if_neg hletter]
        rfl

/-- A line that is not about a file. -/
theorem controlLine_quiet {l : List Byte} (hl : fileLine? l = none) (c : ControlState)
    (hc : c.N_Count + (nameLine? l).toList.length ≤ maxFilesPerJob) :
    ∃ c', controlLine c l = .ok c' ∧ NamesRead [l] c c' ∧ FilesRead [] c c' ∧
      c'.lastFileName = c.lastFileName := by
  cases hn : nameLine? l with
  | none =>
    exact ⟨_, controlLine_count hl hn c, .of_count hn c, .of_same rfl fun _ => ⟨rfl, rfl⟩, rfl⟩
  | some arg =>
    obtain rfl : l = 78 :: arg := by
      cases l with
      | nil => cases hn
      | cons letter arg' =>
        simp only [nameLine?] at hn
        split_ifs at hn with h
        rw [h, Option.some.inj hn]
    rw [hn] at hc
    exact controlLine_name c arg hc

/-- Lines that are not about files. -/
theorem quiet_run {lines : List (List Byte)} (hl : ∀ l ∈ lines, fileLine? l = none)
    (c : ControlState) (hc : c.N_Count + (lines.filterMap nameLine?).length ≤ maxFilesPerJob) :
    ∃ c', lines.foldlM controlLine c = .ok c' ∧ NamesRead lines c c' ∧ FilesRead [] c c' ∧
      c'.lastFileName = c.lastFileName := by
  induction lines generalizing c with
  | nil => exact ⟨c, rfl, .nil c, .of_same rfl fun _ => ⟨rfl, rfl⟩, rfl⟩
  | cons l lines ih =>
    have hlen : ((l :: lines).filterMap nameLine?).length =
        (nameLine? l).toList.length + (lines.filterMap nameLine?).length := by
      rw [List.filterMap_cons]
      cases nameLine? l with
      | none => simp
      | some s => simp [Nat.add_comm]
    rw [hlen] at hc
    obtain ⟨c1, hrun, hnames, hfiles, hlast⟩ := controlLine_quiet (hl l List.mem_cons_self) c (by omega)
    have hcount : c1.N_Count = c.N_Count + (nameLine? l).toList.length := by
      rw [hnames.count]
      cases h : nameLine? l with
      | none => rw [List.filterMap_cons_none h]; rfl
      | some s => rw [List.filterMap_cons_some h]; rfl
    obtain ⟨c2, hrun2, hnames2, hfiles2, hlast2⟩ :=
      ih (fun l' h' => hl l' (List.mem_cons_of_mem _ h')) c1 (by omega)
    refine ⟨c2, ?_, hnames.append hnames2, hfiles.append hfiles2, hlast2.trans hlast⟩
    rw [List.foldlM_cons, hrun]
    exact hrun2

section Block

variable {e : Entry} (he : e.Valid)

include he

theorem Entry.Valid.fileLine : fileLine? (e.letter :: e.name) = some (e.letter, e.name) :=
  if_pos ⟨he.letter, he.notSpurious⟩

/-- A line for a file comes down to the comparison with the last file name. -/
theorem Entry.Valid.controlLine_eq (c : ControlState) :
    controlLine c (e.letter :: e.name) =
      if e.name = c.lastFileName.take maxNameConsider then
        match c.filesCount with
        | 0 => .error .beforeArray
        | k + 1 => .ok (c.extraCopy k)
      else if c.filesCount < maxFilesPerJob then .ok (c.newFile e.letter e.name)
      else .ok c := by
  have h78 : e.letter ≠ 78 := fun h => absurd (h ▸ he.letter) (by decide)
  have h85 : e.letter ≠ 85 := fun h => absurd (h ▸ he.letter) (by decide)
  have htake : e.name.take maxNameConsider = e.name := List.take_of_length_le he.short.le
  rw [controlLine, if_neg h78, if_neg h85, if_pos he.letter]
  refine (if_pos he.notSpurious).trans ?_
  by_cases hlast : e.name = c.lastFileName.take maxNameConsider
  · rw [if_pos hlast]
    exact if_pos (htake.trans hlast)
  · rw [if_neg hlast]
    exact if_neg fun h => hlast (htake.symm.trans h)

/-- The other lines for the same file. -/
theorem Entry.Valid.copies_run (n : ℕ) (c : ControlState) {k : ℕ} (hk : c.filesCount = k + 1)
    (hlast : c.lastFileName = e.name) :
    ∃ c', (List.replicate n (e.letter :: e.name)).foldlM controlLine c = .ok c' ∧
      NamesRead (List.replicate n (e.letter :: e.name)) c c' ∧ c'.filesCount = k + 1 ∧
      c'.lastFileName = e.name ∧ (c'.dataFiles k).type = (c.dataFiles k).type ∧
      (c'.dataFiles k).copies = (c.dataFiles k).copies + n ∧
      ∀ i, i < k → (c'.dataFiles i).type = (c.dataFiles i).type ∧
        (c'.dataFiles i).copies = (c.dataFiles i).copies := by
  induction n generalizing c with
  | zero => exact ⟨c, rfl, .nil c, hk, hlast, rfl, rfl, fun _ _ => ⟨rfl, rfl⟩⟩
  | succ n ih =>
    have hstep := he.controlLine_eq c
    rw [hlast, List.take_of_length_le he.short.le, if_pos rfl, hk] at hstep
    obtain ⟨c', hrun, hnames, hk', hlast', htype, hcopies, hbefore⟩ := ih (c.extraCopy k) hk hlast
    have hline : NamesRead [e.letter :: e.name] c (c.extraCopy k) := by
      refine .of_file (by rw [he.fileLine]; exact Option.some_ne_none _) rfl rfl fun i => ?_
      rw [extraCopy_dataFiles]
      exact ⟨rfl, rfl, rfl⟩
    refine ⟨c', ?_, hline.append hnames, hk', hlast', ?_, ?_, fun i hi => ?_⟩
    · rw [List.replicate_succ, List.foldlM_cons, hstep]
      exact hrun
    · rw [htype, extraCopy_dataFiles]
    · rw [hcopies, extraCopy_dataFiles]
      simp only [if_true]
      omega
    · rw [(hbefore i hi).1, (hbefore i hi).2, extraCopy_dataFiles]
      exact ⟨rfl, by simp [hi.ne]⟩

/-- All the lines for a file. -/
theorem Entry.Valid.block_run {block : List (List Byte)} (hb : e.Lines block) (c : ControlState)
    (hfiles : c.filesCount < maxFilesPerJob)
    (hnames : c.N_Count + e.original.toList.length ≤ maxFilesPerJob)
    (hlast : c.lastFileName.length < maxNameConsider) (hne : e.name ≠ c.lastFileName) :
    ∃ c', block.foldlM controlLine c = .ok c' ∧ NamesRead block c c' ∧ FilesRead [e] c c' ∧
      c'.lastFileName = e.name := by
  obtain ⟨tail, rfl, hquiet, -, horiginal⟩ := hb
  obtain ⟨n, hn⟩ : ∃ n, e.copies = n + 1 := ⟨e.copies - 1, by have := he.pos; omega⟩
  -- the first line
  have hstep := he.controlLine_eq c
  rw [List.take_of_length_le hlast.le, if_neg hne, if_pos hfiles] at hstep
  have hline : NamesRead [e.letter :: e.name] c (c.newFile e.letter e.name) := by
    refine .of_file (by rw [he.fileLine]; exact Option.some_ne_none _) rfl rfl fun i => ?_
    rw [newFile_dataFiles]
    exact ⟨rfl, rfl, rfl⟩
  -- its other lines
  obtain ⟨c1, hrun1, hnames1, hcount1, hlast1, htype1, hcopies1, hbefore1⟩ :=
    he.copies_run n (c.newFile e.letter e.name) rfl
      (List.take_of_length_le (Nat.le_sub_one_of_lt he.short))
  have hhead := hline.append hnames1
  have hnone : nameLine? (e.letter :: e.name) = none :=
    if_neg fun h => absurd (h ▸ he.letter) (by decide)
  have hN1 : c1.N_Count = c.N_Count := by
    rw [hnames1.count, List.filterMap_replicate_of_none hnone]
    rfl
  -- and those that are not about a file
  obtain ⟨c2, hrun2, hnames2, hfiles2, hlast2⟩ := quiet_run hquiet c1 (by rw [horiginal, hN1]; exact hnames)
  have hfiles1 : FilesRead [e] c c1 := by
    refine ⟨hcount1, fun k e' hk => ?_, fun i hi => ?_⟩
    · cases k with
      | zero =>
        cases hk
        rw [Nat.add_zero, htype1, hcopies1, newFile_dataFiles]
        simp only [if_true, true_and]
        omega
      | succ k => cases hk
    · rw [(hbefore1 i hi).1, (hbefore1 i hi).2, newFile_dataFiles]
      simp [hi.ne]
  refine ⟨c2, ?_, ?_, hfiles1.append hfiles2, hlast2.trans hlast1⟩
  · rw [hn, List.replicate_succ, List.foldlM_append, List.foldlM_cons, hstep]
    show ((List.replicate n (e.letter :: e.name)).foldlM controlLine _ >>= _) = _
    rw [hrun1]
    exact hrun2
  · rw [hn]
    exact hhead.append hnames2

omit he in
theorem isFor_of_none {l : List Byte} (hl : fileLine? l = none) (name : List Byte) :
    isFor name l = false ∧ isForOther name l = false := by
  simp [isFor, isForOther, hl]

theorem Entry.Valid.isFor (name : List Byte) :
    isFor name (e.letter :: e.name) = decide (e.name = name) ∧
      isForOther name (e.letter :: e.name) = decide (e.name ≠ name) := by
  simp [Lprsrv.isFor, isForOther, he.fileLine]

variable {block : List (List Byte)} (hb : e.Lines block)

include hb

theorem Entry.Valid.block_unlinks : block.countP isUnlink = 1 := by
  obtain ⟨tail, rfl, -, hunlink, -⟩ := hb
  have hnot : isUnlink (e.letter :: e.name) = false :=
    isUnlink_eq_false (.inl fun h => absurd (h ▸ he.letter) (by decide))
  rw [List.countP_append, List.countP_replicate, hnot, hunlink]
  rfl

theorem Entry.Valid.block_names : block.filterMap nameLine? = e.original.toList := by
  obtain ⟨tail, rfl, -, -, horiginal⟩ := hb
  have hnone : nameLine? (e.letter :: e.name) = none :=
    if_neg fun h => absurd (h ▸ he.letter) (by decide)
  rw [List.filterMap_append, List.filterMap_replicate_of_none hnone, horiginal, List.nil_append]

theorem Entry.Valid.block_files :
    block.filterMap fileLine? = List.replicate e.copies (e.letter, e.name) := by
  obtain ⟨tail, rfl, hquiet, -, -⟩ := hb
  rw [List.filterMap_append, List.filterMap_replicate_of_some he.fileLine,
    List.filterMap_eq_nil_iff.2 hquiet, List.append_nil]

/-- A line of the block is for this file or for none. -/
theorem Entry.Valid.block_isFor {l : List Byte} (hl : l ∈ block) (name : List Byte) :
    (isForOther e.name l = false) ∧ (e.name ≠ name → Lprsrv.isFor name l = false) := by
  obtain ⟨tail, rfl, hquiet, -, -⟩ := hb
  rcases List.mem_append.1 hl with hl | hl
  · rw [List.eq_of_mem_replicate hl, (he.isFor _).1, (he.isFor _).2]
    simp
  · exact ⟨(isFor_of_none (hquiet l hl) _).2, fun _ => (isFor_of_none (hquiet l hl) _).1⟩

/-- The block starts with a line for the file. -/
theorem Entry.Valid.block_head : ∃ more, block = (e.letter :: e.name) :: more := by
  obtain ⟨tail, rfl, -, -, -⟩ := hb
  obtain ⟨n, hn⟩ : ∃ n, e.copies = n + 1 := ⟨e.copies - 1, by have := he.pos; omega⟩
  rw [hn, List.replicate_succ]
  exact ⟨_, rfl⟩

theorem Entry.Valid.block_copies (name : List Byte) :
    block.countP (Lprsrv.isFor name) = if e.name = name then e.copies else 0 := by
  obtain ⟨tail, rfl, hquiet, -, -⟩ := hb
  rw [List.countP_append, List.countP_replicate, (he.isFor name).1, List.countP_eq_zero.2]
  · simp
  · intro l hl
    simp [(isFor_of_none (hquiet l hl) name).1]

end Block

theorem Blocks.run {es : List Entry} {lines : List (List Byte)} (hb : Blocks es lines)
    (c : ControlState) (hfiles : c.filesCount + es.length ≤ maxFilesPerJob)
    (hnames : c.N_Count + es.length ≤ maxFilesPerJob)
    (hlast : c.lastFileName.length < maxNameConsider) (hne : ∀ e ∈ es, e.name ≠ c.lastFileName) :
    ∃ c', lines.foldlM controlLine c = .ok c' ∧ NamesRead lines c c' ∧ FilesRead es c c' := by
  induction hb generalizing c with
  | nil => exact ⟨c, rfl, .nil c, .of_same rfl fun _ => ⟨rfl, rfl⟩⟩
  | @cons e es block rest he hblock _ hdistinct _ ih =>
    rw [List.length_cons] at hfiles hnames
    have horiginal : e.original.toList.length ≤ 1 := by
      cases e.original <;> simp
    obtain ⟨c1, hrun1, hnames1, hfiles1, hlast1⟩ :=
      he.block_run hblock c (by omega) (by omega) hlast (hne e List.mem_cons_self)
    have hN1 := hnames1.count
    rw [he.block_names hblock] at hN1
    have hcount1 : c1.filesCount = c.filesCount + 1 := hfiles1.count
    obtain ⟨c2, hrun2, hnames2, hfiles2⟩ := ih c1 (by omega) (by omega)
      (by rw [hlast1]; exact he.short) (by rw [hlast1]; exact hdistinct)
    refine ⟨c2, ?_, hnames1.append hnames2, hfiles1.append hfiles2⟩
    rw [List.foldlM_append, hrun1]
    exact hrun2

theorem Blocks.unlinks {es : List Entry} {lines : List (List Byte)} (hb : Blocks es lines) :
    lines.countP isUnlink = es.length := by
  induction hb with
  | nil => rfl
  | cons he hblock _ _ _ ih =>
    rw [List.countP_append, he.block_unlinks hblock, ih, List.length_cons, Nat.add_comm]

theorem Blocks.names {es : List Entry} {lines : List (List Byte)} (hb : Blocks es lines) :
    lines.filterMap nameLine? = es.filterMap Entry.original := by
  induction hb with
  | nil => rfl
  | @cons e es _ _ he hblock _ _ _ ih =>
    rw [List.filterMap_append, he.block_names hblock, ih, List.filterMap_cons]
    cases e.original <;> rfl

/-- The "N" line of a file is where the file is. -/
theorem Blocks.original_get {es : List Entry} {lines : List (List Byte)} (hb : Blocks es lines)
    {k : ℕ} {e : Entry} (hk : es[k]? = some e) :
    (es.filterMap Entry.original)[k]? = e.original := by
  induction hb generalizing k with
  | nil => cases hk
  | @cons e' es _ _ _ _ hprefix _ _ ih =>
    cases horiginal : e'.original with
    | none =>
      have hall : ∀ e ∈ e' :: es, e.original = none := by
        intro e he
        rcases List.mem_cons.1 he with rfl | he
        · exact horiginal
        · exact hprefix horiginal e he
      rw [List.filterMap_eq_nil_iff.2 hall, hall e (List.mem_of_getElem? hk)]
      rfl
    | some s =>
      rw [List.filterMap_cons_some horiginal]
      cases k with
      | zero =>
        cases hk
        rw [horiginal]
        rfl
      | succ k => exact ih hk

theorem Blocks.files {es : List Entry} {lines : List (List Byte)} (hb : Blocks es lines)
    {f : Byte × List Byte} : f ∈ lines.filterMap fileLine? ↔ ∃ e ∈ es, f = (e.letter, e.name) := by
  induction hb with
  | nil => simp
  | cons he hblock _ _ _ ih =>
    rw [List.filterMap_append, List.mem_append, ih, he.block_files hblock, List.mem_replicate]
    simp [he.pos.ne']

theorem Blocks.type {es : List Entry} {lines : List (List Byte)} (hb : Blocks es lines) {e : Entry}
    (he : e ∈ es) :
    (lines.filterMap fileLine?).find? (fun f => f.2 = e.name) = some (e.letter, e.name) := by
  induction hb with
  | nil => cases he
  | @cons e' es block rest he' hblock _ hdistinct _ ih =>
    rw [List.filterMap_append, he'.block_files hblock, List.find?_append, List.find?_replicate,
      if_neg he'.pos.ne']
    rcases List.mem_cons.1 he with rfl | he
    · simp
    · have hne : e'.name ≠ e.name := (hdistinct e he).symm
      simp [hne, ih he]

theorem Blocks.copies {es : List Entry} {lines : List (List Byte)} (hb : Blocks es lines)
    (name : List Byte) (hnot : ∀ e ∈ es, e.name ≠ name) : lines.countP (isFor name) = 0 := by
  induction hb with
  | nil => rfl
  | cons he hblock _ _ _ ih =>
    rw [List.countP_append, he.block_copies hblock, if_neg (hnot _ List.mem_cons_self),
      ih fun e he => hnot e (List.mem_cons_of_mem _ he)]

theorem Blocks.copiesFor {es : List Entry} {lines : List (List Byte)} (hb : Blocks es lines)
    {e : Entry} (he : e ∈ es) : lines.countP (isFor e.name) = e.copies := by
  induction hb with
  | nil => cases he
  | cons he' hblock _ hdistinct hrest ih =>
    rw [List.countP_append, he'.block_copies hblock]
    rcases List.mem_cons.1 he with rfl | he
    · rw [if_pos rfl, hrest.copies _ hdistinct]
      rfl
    · rw [if_neg (hdistinct e he).symm, ih he, Nat.zero_add]

theorem Blocks.original {es : List Entry} {lines : List (List Byte)} (hb : Blocks es lines)
    {e : Entry} (he : e ∈ es) : originalFor lines e.name = e.original := by
  induction hb with
  | nil => cases he
  | @cons e' es block rest he' hblock _ hdistinct hrest ih =>
    rcases List.mem_cons.1 he with rfl | he
    · obtain ⟨more, hmore⟩ := he'.block_head hblock
      have hdrop : (block ++ rest).dropWhile (fun l => !isFor e.name l) = block ++ rest := by
        rw [hmore, List.cons_append, List.dropWhile_cons_of_neg]
        simp [(he'.isFor e.name).1]
      have hrest' : rest.takeWhile (fun l => !isForOther e.name l) = [] := by
        cases hrest with
        | nil => rfl
        | cons he2 hblock2 _ _ _ =>
          obtain ⟨more2, rfl⟩ := he2.block_head hblock2
          rw [List.cons_append, List.takeWhile_cons_of_neg]
          simp [(he2.isFor e.name).2, hdistinct _ List.mem_cons_self]
      have htake : (block ++ rest).takeWhile (fun l => !isForOther e.name l) = block := by
        rw [List.takeWhile_append_of_pos, hrest', List.append_nil]
        intro l hl
        simp [(he'.block_isFor hblock hl e.name).1]
      rw [originalFor, hdrop, htake, ← List.head?_filterMap, he'.block_names hblock]
      cases e.original <;> rfl
    · have hdrop : (block ++ rest).dropWhile (fun l => !isFor e.name l) =
          rest.dropWhile (fun l => !isFor e.name l) := by
        apply List.dropWhile_append_of_pos
        intro l hl
        simp [(he'.block_isFor hblock hl e.name).2 (hdistinct e he).symm]
      rw [originalFor, hdrop]
      exact ih he

section Says

variable {text : List Byte} {es : List Entry} (h : Says text es)

include h

/-- The lines of the control file: some that are not about files, and the blocks. -/
theorem Says.lines : ∃ before rest, linesOf text = before ++ rest ∧
    (∀ l ∈ before, fileLine? l = none ∧ isUnlink l = false ∧ nameLine? l = none) ∧ Blocks es rest := by
  obtain ⟨-, before, rest, hlines, hbefore, hblocks, -⟩ := h
  exact ⟨before, rest, by rw [linesOf, hlines], hbefore, hblocks⟩

theorem Says.unlinks : (linesOf text).countP isUnlink = es.length := by
  obtain ⟨before, rest, hlines, hbefore, hblocks⟩ := h.lines
  rw [hlines, List.countP_append, hblocks.unlinks, List.countP_eq_zero.2, Nat.zero_add]
  intro l hl
  simp [(hbefore l hl).2.1]

theorem Says.fileLines {f : Byte × List Byte} :
    f ∈ (linesOf text).filterMap fileLine? ↔ ∃ e ∈ es, f = (e.letter, e.name) := by
  obtain ⟨before, rest, hlines, hbefore, hblocks⟩ := h.lines
  rw [hlines, List.filterMap_append, List.filterMap_eq_nil_iff.2 fun l hl => (hbefore l hl).1,
    List.nil_append, hblocks.files]

/-- What the control file gives for a file is what its entry says. -/
theorem Says.given {e : Entry} (he : e ∈ es) : typeFor (linesOf text) e.name = e.letter ∧
    copiesFor (linesOf text) e.name = e.copies ∧ originalFor (linesOf text) e.name = e.original := by
  obtain ⟨before, rest, hlines, hbefore, hblocks⟩ := h.lines
  refine ⟨?_, ?_, ?_⟩
  · rw [typeFor, hlines, List.filterMap_append,
      List.filterMap_eq_nil_iff.2 fun l hl => (hbefore l hl).1, List.nil_append, hblocks.type he]
    rfl
  · rw [copiesFor, hlines, List.countP_append, hblocks.copiesFor he, List.countP_eq_zero.2,
      Nat.zero_add]
    intro l hl
    simp [(isFor_of_none (hbefore l hl).1 e.name).1]
  · have hdrop : (before ++ rest).dropWhile (fun l => !isFor e.name l) =
        rest.dropWhile (fun l => !isFor e.name l) := by
      apply List.dropWhile_append_of_pos
      intro l hl
      simp [(isFor_of_none (hbefore l hl).1 e.name).1]
    rw [hlines, originalFor, hdrop]
    exact hblocks.original he

end Says

theorem Blocks.valid {es : List Entry} {lines : List (List Byte)} (hb : Blocks es lines) :
    ∀ e ∈ es, e.Valid := by
  induction hb with
  | nil => simp
  | cons he _ _ _ _ ih => exact List.forall_mem_cons.2 ⟨he, ih⟩

theorem Blocks.names_nodup {es : List Entry} {lines : List (List Byte)} (hb : Blocks es lines) :
    (es.map Entry.name).Nodup := by
  induction hb with
  | nil => exact List.nodup_nil
  | @cons e es _ _ _ _ _ hdistinct _ ih =>
    rw [List.map_cons, List.nodup_cons]
    refine ⟨fun hmem => ?_, ih⟩
    obtain ⟨e', he', hname⟩ := List.mem_map.1 hmem
    exact hdistinct e' he' hname

/-- The file at a place has what the entry at the place says. -/
structure FileSays (f : DataFile) (e : Entry) : Prop where
  type : f.type = e.letter
  copies : f.copies = e.copies
  name : f.Name = (e.original.map namePtr).getD .null

/-- Reading a control file that says something. -/
theorem Says.read {text : List Byte} {es : List Entry} (h : Says text es) {files : ℕ → DataFile}
    (hnull : ∀ i, (files i).Name = .null) (u : ℕ) :
    ∃ c, controlState text files u = .ok c ∧ c.filesUnlinked = u + es.length ∧
      (∀ i, (c.dataFiles i).start = (files i).start ∧ (c.dataFiles i).length = (files i).length) ∧
      ∀ k e, es[k]? = some e → FileSays (c.dataFiles k) e := by
  obtain ⟨-, before, rest, hlines, hbefore, hblocks, hmax⟩ := h
  have hnone : before.filterMap nameLine? = [] :=
    List.filterMap_eq_nil_iff.2 fun l hl => (hbefore l hl).2.2
  obtain ⟨c1, hrun1, hnames1, hfiles1, hlast1⟩ := quiet_run (fun l hl => (hbefore l hl).1)
    { dataFiles := files, filesUnlinked := u } (by rw [hnone]; exact Nat.zero_le _)
  have hN1 : c1.N_Count = 0 := by rw [hnames1.count, hnone]; rfl
  have hF1 : c1.filesCount = 0 := hfiles1.count
  have hlast : c1.lastFileName = [] := hlast1
  obtain ⟨c2, hrun2, hnames2, hfiles2⟩ := hblocks.run c1 (by omega) (by omega)
    (by rw [hlast]; decide) fun e he => by rw [hlast]; exact (hblocks.valid e he).ne_nil
  have hread := hnames1.append hnames2
  refine ⟨c2, ?_, ?_, hread.place, fun k e hk => ⟨?_, ?_, ?_⟩⟩
  · rw [controlState, hlines]
    show List.foldlM _ _ _ = _
    rw [List.foldlM_append, hrun1]
    exact hrun2
  · rw [hread.unlinked, List.countP_append, hblocks.unlinks, List.countP_eq_zero.2, Nat.zero_add]
    intro l hl
    simp [(hbefore l hl).2.1]
  · have := (hfiles2.files k e hk).1
    rwa [hF1, Nat.zero_add] at this
  · have := (hfiles2.files k e hk).2
    rwa [hF1, Nat.zero_add] at this
  · have hget := hblocks.original_get hk
    rw [← hblocks.names] at hget
    cases horiginal : e.original with
    | some s =>
      have := hnames2.names k s (by rw [hget, horiginal])
      rwa [hN1, Nat.zero_add] at this
    | none =>
      rw [horiginal] at hget
      have hle : c2.N_Count ≤ k := by
        rw [hnames2.count, hN1, Nat.zero_add]
        exact List.getElem?_eq_none_iff.1 hget
      rw [hread.after k hle]
      exact hnull k

end Ppr.Lprsrv
