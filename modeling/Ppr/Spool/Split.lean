import Ppr.Spool.PagesRead

/-!
# Splitting a job

`split_job()` of `ppr_split.c`: the pages are assigned to segments, and the "-pages" file of each segment
is written from the records in the job's own.  Of what is written for a segment, its "-pages" file and the
number of pages in its queue file are kept.
-/

namespace Ppr

/-! ## The assignment of the pages -/

/-- Limit on the number of segments. -/
def maxSegments : ℕ := 10

/-- Round up to the next multiple of pagefactor. -/
def pagesPerFragment (pagenumber segments pagefactor : ℕ) : ℕ :=
  (pagenumber / segments + pagefactor - 1) / pagefactor * pagefactor

/-- `page_segment_assignments[]` for the pages that are left, with `this_frag` and
`segments_created`. -/
def assignPages (perFragment : ℕ) : ℕ → ℕ → ℕ → List ℕ
  | 0, _, _ => []
  | n + 1, thisFrag, created =>
    if perFragment < thisFrag then (created + 1) :: assignPages perFragment n 0 (created + 1)
    else created :: assignPages perFragment n (thisFrag + 1) created

/-! ## The files -/

/-- What `fgets()` with the buffer `line[512]` reads from call to call, `n` calls at most. -/
def fgetsAll : ℕ → List Byte → List (List Byte)
  | 0, _ => []
  | n + 1, file =>
    let got := fgets 511 file
    if got = [] then [] else got :: fgetsAll n (file.drop got.length)

/-- The test that ends the record of a page. -/
def startsRecord (line : List Byte) : Bool := lmatch line "%%Page:" || lmatch line "%%Trailer"

/-- Copy a page record: what is written, and the lines from the one in the buffer on; `none` is an internal
error at the end of the file. -/
def copyRecord : List (List Byte) → Option (List Byte × List (List Byte))
  | [] => none
  | [_] => none
  | l :: m :: lines =>
    if startsRecord m then some (cstr l, m :: lines)
    else (copyRecord (m :: lines)).map fun r => (cstr l ++ r.1, r.2)

/-- Copy the document defaults section. -/
def copyDefaultsSection : List (List Byte) → Option (List Byte × List (List Byte))
  | [] => none
  | [_] => none
  | l :: m :: lines =>
    -- The comparison is one character longer than the text.
    if cstr l = ascii "%%EndDefaults" then some (cstr l, m :: lines)
    else (copyDefaultsSection (m :: lines)).map fun r => (cstr l ++ r.1, r.2)

/-- The defaults, if the file begins with them. -/
def splitDefaults (lines : List (List Byte)) : Option (List Byte × List (List Byte)) :=
  if lines.head?.map cstr = some (ascii "%%BeginDefaults") then copyDefaultsSection lines
  else some ([], lines)

/-- Copy each page record to the appropriate segment file. -/
def putRecords :
    List ℕ → List (List Byte) → List (List Byte) → Option (List (List Byte) × List (List Byte))
  | [], lines, segfiles => some (segfiles, lines)
  | a :: assignments, lines, segfiles =>
    (copyRecord lines).bind fun r =>
      putRecords assignments r.2 (segfiles.modify (a - 1) (· ++ r.1))

/-- A segment: the number of pages in the queue file, and the "-pages" file. -/
structure Segment where
  pages : ℕ
  file : List Byte
  deriving DecidableEq

inductive SplitOutcome where
  | notSplit
  /-- Internal error. -/
  | fatal
  | split (segments : List Segment)
  deriving DecidableEq

/-- What a job has when it may be split. -/
structure SplitJob where
  pagenumber : ℕ
  pagefactor : ℕ
  /-- PageOrder is "Special". -/
  special : Bool
  /-- "segments=", 0 if there is none. -/
  segments : ℕ
  /-- The "-pages" file. -/
  file : List Byte

def SplitJob.assignments (j : SplitJob) : List ℕ :=
  assignPages (pagesPerFragment j.pagenumber j.segments j.pagefactor) j.pagenumber 0 1

/-- `segments_created` after the loop. -/
def SplitJob.created (j : SplitJob) : ℕ := j.assignments.getLast?.getD 1

/-- The files of the segments. -/
def SplitJob.files (j : SplitJob) : Option (List (List Byte)) :=
  (splitDefaults (fgetsAll j.file.length j.file)).bind fun d =>
    (putRecords j.assignments d.2 (List.replicate j.created d.1)).map fun r =>
      -- The trailer record goes to all of them.
      r.1.map (· ++ r.2.flatMap cstr)

/-- `split_job()`. -/
def splitJob (j : SplitJob) : SplitOutcome :=
  if j.pagenumber = 0 ∨ j.special = true ∨ j.pagenumber ≤ j.pagefactor ∨ j.segments = 0 ∨
      j.created ≤ 1 then .notSplit
  else
    match j.files with
    | none => .fatal
    | some files => .split (files.mapIdx fun k file => ⟨j.assignments.count (k + 1), file⟩)

/-! ## The numbers of the segments -/

theorem length_assignPages (perFragment n thisFrag created : ℕ) :
    (assignPages perFragment n thisFrag created).length = n := by
  induction n generalizing thisFrag created with
  | zero => rfl
  | succ n ih =>
    rw [assignPages]
    split_ifs <;> rw [List.length_cons, ih]

/-- A segment after the current one begins when the current one and those between are full. -/
theorem mem_assignPages {perFragment n thisFrag created a : ℕ} (hthis : thisFrag ≤ perFragment + 1)
    (h : a ∈ assignPages perFragment n thisFrag created) :
    created ≤ a ∧ (a - created) * (perFragment + 2) ≤ n + thisFrag := by
  induction n generalizing thisFrag created with
  | zero => cases h
  | succ n ih =>
    rw [assignPages] at h
    split_ifs at h with hfull
    · have hnext : created + 1 ≤ a ∧ (a - (created + 1)) * (perFragment + 2) ≤ n := by
        rcases List.mem_cons.1 h with rfl | h
        · simp
        · simpa using ih (Nat.zero_le _) h
      obtain ⟨hle, hn⟩ := hnext
      refine ⟨by omega, ?_⟩
      have hsub : a - created = (a - (created + 1)) + 1 := by omega
      rw [hsub, Nat.add_mul]
      omega
    · rcases List.mem_cons.1 h with rfl | h
      · simp
      · obtain ⟨hle, hn⟩ := ih (by omega) h
        exact ⟨hle, by omega⟩

/-- The segments follow each other. -/
theorem pairwise_assignPages {perFragment n thisFrag created : ℕ} (hthis : thisFrag ≤ perFragment + 1) :
    (assignPages perFragment n thisFrag created).Pairwise (· ≤ ·) := by
  induction n generalizing thisFrag created with
  | zero => exact .nil
  | succ n ih =>
    rw [assignPages]
    split_ifs with hfull
    · exact List.pairwise_cons.2 ⟨fun a ha => (mem_assignPages (Nat.zero_le _) ha).1, ih (Nat.zero_le _)⟩
    · exact List.pairwise_cons.2
        ⟨fun a ha => (mem_assignPages (by omega) ha).1, ih (by omega)⟩

/-- The current segment takes the pages up to its full size, which is one more than intended. -/
theorem count_assignPages {perFragment n thisFrag created : ℕ} (hthis : thisFrag ≤ perFragment + 1) :
    (assignPages perFragment n thisFrag created).count created = min n (perFragment + 1 - thisFrag) ∧
      (perFragment + 1 - thisFrag < n → created + 1 ∈ assignPages perFragment n thisFrag created) := by
  induction n generalizing thisFrag with
  | zero => simp [assignPages]
  | succ n ih =>
    rw [assignPages]
    split_ifs with hfull
    · have hnone : (assignPages perFragment n 0 (created + 1)).count created = 0 :=
        List.count_eq_zero.2 fun hmem => by
          have := (mem_assignPages (Nat.zero_le _) hmem).1
          omega
      rw [List.count_cons_of_ne (by omega), hnone]
      exact ⟨by omega, fun _ => List.mem_cons_self⟩
    · obtain ⟨hcount, hmem⟩ := ih (by omega : thisFrag + 1 ≤ perFragment + 1)
      rw [List.count_cons_self, hcount]
      exact ⟨by omega, fun h => List.mem_cons_of_mem _ (hmem (by omega))⟩

theorem getLast_assignPages {perFragment n thisFrag created : ℕ} (hthis : thisFrag ≤ perFragment + 1)
    {a : ℕ} (h : a ∈ assignPages perFragment n thisFrag created) :
    a ≤ (assignPages perFragment n thisFrag created).getLast?.getD 1 := by
  obtain ⟨l, b, hlb⟩ := List.eq_nil_or_concat' (assignPages perFragment n thisFrag created) |>.resolve_left
    (List.ne_nil_of_mem h)
  have hsorted : (assignPages perFragment n thisFrag created).Pairwise (· ≤ ·) := pairwise_assignPages hthis
  rw [hlb] at h hsorted ⊢
  rw [List.getLast?_concat, Option.getD_some]
  rcases List.mem_append.1 h with h | h
  · exact (List.pairwise_append.1 hsorted).2.2 a h b (List.mem_singleton_self b)
  · exact (List.mem_singleton.1 h).le

/-- What was assigned to a segment. -/
def fiber {α : Type} (l : List (ℕ × α)) (k : ℕ) : List α := (l.filter fun x => x.1 = k).map Prod.snd

theorem filter_eq_append_filter_lt {α : Type} {l : List (ℕ × α)} {lo : ℕ}
    (hsorted : (l.map Prod.fst).Pairwise (· ≤ ·)) (hlo : ∀ x ∈ l, lo ≤ x.1) :
    l.filter (fun x => x.1 = lo) ++ l.filter (fun x => lo < x.1) = l := by
  induction l with
  | nil => rfl
  | cons x l ih =>
    obtain ⟨hx, hlo⟩ := List.forall_mem_cons.1 hlo
    rw [List.map_cons, List.pairwise_cons] at hsorted
    by_cases hxlo : x.1 = lo
    · rw [List.filter_cons_of_pos (by simpa using hxlo), List.filter_cons_of_neg (by simp [hxlo]),
        List.cons_append, ih hsorted.2 hlo]
    · have hgt : ∀ y ∈ l, lo < y.1 := fun y hy => by
        have := hsorted.1 y.1 (List.mem_map_of_mem hy)
        omega
      rw [List.filter_cons_of_neg (by simpa using hxlo), List.filter_cons_of_pos (by simp; omega),
        List.filter_eq_nil_iff.2 fun y hy => by simpa using (hgt y hy).ne',
        List.filter_eq_self.2 fun y hy => by simpa using hgt y hy, List.nil_append]

/-- The segments, one after the other, are the whole. -/
theorem flatMap_fiber {α : Type} {l : List (ℕ × α)} {lo m : ℕ}
    (hsorted : (l.map Prod.fst).Pairwise (· ≤ ·)) (hlo : ∀ x ∈ l, lo ≤ x.1) (hm : ∀ x ∈ l, x.1 < lo + m) :
    (List.range m).flatMap (fun k => fiber l (lo + k)) = l.map Prod.snd := by
  induction m generalizing l lo with
  | zero =>
    have hnil : l = [] := List.eq_nil_iff_forall_not_mem.2 fun x hx => by
      have := hlo x hx
      have := hm x hx
      omega
    rw [hnil]
    rfl
  | succ m ih =>
    have hrest := @ih (l.filter fun x => lo < x.1) (lo + 1)
      (hsorted.sublist ((List.filter_sublist).map Prod.fst))
      (fun x hx => by simpa using (List.mem_filter.1 hx).2)
      (fun x hx => by
        have := hm x (List.mem_filter.1 hx).1
        omega)
    have hfiber : ∀ k, fiber (l.filter fun x => lo < x.1) (lo + 1 + k) = fiber l (lo + (k + 1)) := by
      intro k
      rw [fiber, fiber, List.filter_filter]
      refine congrArg _ (List.filter_congr fun x _ => ?_)
      rw [Bool.eq_iff_iff]
      simp only [Bool.and_eq_true, decide_eq_true_eq]
      omega
    simp only [hfiber] at hrest
    rw [List.range_succ_eq_map, List.flatMap_cons, List.flatMap_map, hrest, Nat.add_zero, fiber,
      ← List.map_append, filter_eq_append_filter_lt hsorted hlo]

/-! ## Reading with fgets() -/

theorem fgets_append {n : ℕ} {a : List Byte} (h : newline ∈ a) (b : List Byte) :
    fgets n (a ++ b) = fgets n a := by
  induction a generalizing n with
  | nil => cases h
  | cons c a ih =>
    cases n with
    | zero => rfl
    | succ n =>
      rw [List.cons_append, fgets, fgets]
      by_cases hc : c = newline
      · rw [if_pos hc, if_pos hc]
      · rw [if_neg hc, if_neg hc, ih (List.mem_of_ne_of_mem (Ne.symm hc) h)]

theorem fgets_isPrefix (n : ℕ) (l : List Byte) : fgets n l <+: l := by
  induction l generalizing n with
  | nil => cases n <;> exact List.nil_prefix
  | cons c l ih =>
    cases n with
    | zero => exact List.nil_prefix
    | succ n =>
      rw [fgets]
      split_ifs
      · exact ⟨l, rfl⟩
      · exact List.cons_prefix_cons.2 ⟨rfl, ih n⟩

theorem fgets_ne_nil {l : List Byte} (hl : l ≠ []) : fgets 511 l ≠ [] := by
  obtain ⟨c, l, rfl⟩ := List.exists_cons_of_ne_nil hl
  rw [fgets]
  split_ifs <;> exact List.cons_ne_nil _ _

/-- A text without linefeeds that begins the line is read. -/
theorem prefix_fgets {p l : List Byte} {n : ℕ} (h : p <+: l) (hp : newline ∉ p) (hn : p.length ≤ n) :
    p <+: fgets n l := by
  induction p generalizing l n with
  | nil => exact List.nil_prefix
  | cons c p ih =>
    obtain ⟨t, rfl⟩ := h
    rw [List.mem_cons, not_or] at hp
    rw [List.length_cons] at hn
    obtain ⟨n, rfl⟩ := Nat.exists_eq_succ_of_ne_zero (by omega : n ≠ 0)
    rw [List.cons_append, fgets, if_neg (Ne.symm hp.1)]
    exact List.cons_prefix_cons.2 ⟨rfl, ih (List.prefix_append _ _) hp.2 (by omega)⟩

theorem fgetsAll_fuel {n m : ℕ} {file : List Byte} (hn : file.length ≤ n) (hm : file.length ≤ m) :
    fgetsAll n file = fgetsAll m file := by
  induction n generalizing m file with
  | zero =>
    obtain rfl := List.eq_nil_of_length_eq_zero (Nat.le_zero.1 hn)
    cases m <;> rfl
  | succ n ih =>
    cases m with
    | zero =>
      obtain rfl := List.eq_nil_of_length_eq_zero (Nat.le_zero.1 hm)
      rfl
    | succ m =>
      rw [fgetsAll, fgetsAll]
      split_ifs with hgot
      · rfl
      · have hpos := List.length_pos_iff.2 hgot
        have hle : (file.drop (fgets 511 file).length).length ≤ n ∧
            (file.drop (fgets 511 file).length).length ≤ m := by
          rw [List.length_drop]
          omega
        rw [ih hle.1 hle.2]

/-- All that is read of a file. -/
def readAll (file : List Byte) : List (List Byte) := fgetsAll file.length file

theorem readAll_cons {file : List Byte} (h : file ≠ []) :
    readAll file = fgets 511 file :: readAll (file.drop (fgets 511 file).length) := by
  obtain ⟨n, hn⟩ := Nat.exists_eq_succ_of_ne_zero (List.length_pos_iff.2 h).ne'
  have hgot : fgets 511 file ≠ [] := fgets_ne_nil h
  have hpos := List.length_pos_iff.2 hgot
  rw [readAll, hn, fgetsAll, if_neg hgot, readAll,
    fgetsAll_fuel (by rw [List.length_drop]; omega : (file.drop (fgets 511 file).length).length ≤ n) le_rfl]

theorem flatten_readAll (file : List Byte) : (readAll file).flatten = file := by
  induction hlen : file.length using Nat.strong_induction_on generalizing file with
  | _ n ih =>
    by_cases h : file = []
    · rw [h]
      rfl
    · have hpos := List.length_pos_iff.2 (fgets_ne_nil h)
      have hfile := List.length_pos_iff.2 h
      rw [readAll_cons h, List.flatten_cons, ih _ (by rw [List.length_drop]; omega) _ rfl]
      exact List.prefix_iff_eq_append.1 (fgets_isPrefix 511 file)

theorem ne_nil_of_mem_readAll {file p : List Byte} (h : p ∈ readAll file) : p ≠ [] := by
  induction hlen : file.length using Nat.strong_induction_on generalizing file with
  | _ n ih =>
    by_cases hfile : file = []
    · rw [hfile] at h
      cases h
    · have hpos := List.length_pos_iff.2 (fgets_ne_nil hfile)
      have hlong := List.length_pos_iff.2 hfile
      rw [readAll_cons hfile] at h
      rcases List.mem_cons.1 h with rfl | h
      · exact fgets_ne_nil hfile
      · exact ih _ (by rw [List.length_drop]; omega) h rfl

/-- Lines, each with its linefeed. -/
def WholeLines (a : List Byte) : Prop := a = [] ∨ a.getLast? = some newline

/-- What ends with a line is read before what is behind it. -/
theorem readAll_append {a : List Byte} (ha : WholeLines a) (b : List Byte) :
    readAll (a ++ b) = readAll a ++ readAll b := by
  induction hlen : a.length using Nat.strong_induction_on generalizing a with
  | _ n ih =>
    rcases ha with rfl | ha
    · rfl
    · have hne : a ≠ [] := by
        rintro rfl
        cases ha
      have hpos := List.length_pos_iff.2 (fgets_ne_nil hne)
      have hlong := List.length_pos_iff.2 hne
      have hgot : fgets 511 (a ++ b) = fgets 511 a := fgets_append (List.mem_of_getLast? ha) b
      have hle := (fgets_isPrefix 511 a).length_le
      have hrest : WholeLines (a.drop (fgets 511 a).length) := by
        by_cases hnil : a.drop (fgets 511 a).length = []
        · exact .inl hnil
        · refine .inr ?_
          rw [List.getLast?_drop, if_neg (by rw [List.drop_eq_nil_iff] at hnil; omega), ha]
      rw [readAll_cons (by simp [hne]), readAll_cons hne, hgot, List.drop_append_of_le_length hle,
        ih _ (by rw [List.length_drop]; omega) hrest rfl, List.cons_append]

theorem WholeLines.append {a b : List Byte} (ha : WholeLines a) (hb : WholeLines b) : WholeLines (a ++ b) := by
  rcases hb with rfl | hb
  · rwa [List.append_nil]
  · exact .inr (by rw [List.getLast?_append, hb]; rfl)

theorem wholeLines_lineBytes (c : List Byte) : WholeLines (lineBytes c) := .inr (by simp [lineBytes])

theorem WholeLines.flatMap {α : Type} {f : α → List Byte} {l : List α} (h : ∀ x ∈ l, WholeLines (f x)) :
    WholeLines (l.flatMap f) := by
  induction l with
  | nil => exact .inl rfl
  | cons x l ih =>
    obtain ⟨hx, hl⟩ := List.forall_mem_cons.1 h
    rw [List.flatMap_cons]
    exact hx.append (ih hl)

theorem readAll_flatMap {α : Type} {f : α → List Byte} {l : List α} (h : ∀ x ∈ l, WholeLines (f x))
    (b : List Byte) : readAll (l.flatMap f ++ b) = l.flatMap (fun x => readAll (f x)) ++ readAll b := by
  induction l with
  | nil => rfl
  | cons x l ih =>
    obtain ⟨hx, hl⟩ := List.forall_mem_cons.1 h
    rw [List.flatMap_cons, List.append_assoc, readAll_append hx, ih hl, List.flatMap_cons, List.append_assoc]

end Ppr
