import Ppr.Libgu.Sscanf

/-!
# The progress of a job

The "Progress:" line that `queuefile_progress_write()` of `pprdrv_progress.c` keeps in the queue file,
with the counters and the functions that others call, and `give_reason()` of `pprdrv_reason.c`.  The
file is followed byte by byte through any number of attempts to print the job.
-/

namespace Ppr.Progress

/-- `SLACK_BYTES_COUNT`. -/
def slackBytesCount : ℤ := 5120

/-- "%0wd". -/
def zeroPadded (w : ℕ) (i : ℤ) : List Byte :=
  let sign : List Byte := if i < 0 then [45] else []
  let digits := decimal i.natAbs
  sign ++ List.replicate (w - sign.length - digits.length) 48 ++ digits

/-- The counters. -/
structure Totals where
  pagesStarted : CInt := 0
  pagesPrinted : CInt := 0
  bytes : BitVec 64 := 0
  deriving DecidableEq

/-- The bytes that are reported: small counts are suppressed. -/
def Totals.bytesShown (t : Totals) : ℤ := if slackBytesCount < t.bytes.toInt then t.bytes.toInt else 0

/-- What `snprintf()` makes of the counters. -/
def Totals.text (t : Totals) : List Byte :=
  ascii "Progress: " ++ zeroPadded 10 t.bytesShown ++ [32] ++ zeroPadded 4 t.pagesStarted.toInt ++
    [32] ++ zeroPadded 4 t.pagesPrinted.toInt ++ [newline]

/-- A run of pprdrv: its counters, and the spot of its line once the queue file is open. -/
structure Attempt where
  totals : Totals := {}
  spot : Option ℕ := none
  deriving DecidableEq

/-- Where the line is going to be, when the file is opened. -/
def findSpot (file : List Byte) : ℕ :=
  if (file.drop (file.length - 31)).take 10 = ascii "Progress: " then file.length - 31
  else file.length

/-- `queuefile_progress_write()`.  A file that is too short is a fatal error. -/
def queuefileProgressWrite (file : List Byte) (a : Attempt) : Option (List Byte × Attempt) :=
  if a.spot = none ∧ file.length < 31 then none
  else
    let spot := a.spot.getD (findSpot file)
    some (file.take spot ++ a.totals.text.take 31 ++ file.drop (spot + 31), { a with spot := some spot })

/-- `give_reason()`. -/
def giveReason (file reason : List Byte) : List Byte := file ++ ascii "Reason: " ++ reason ++ [newline]

/-- What a run of pprdrv does to the file. -/
inductive Event where
  /-- pprdrv is started for the job. -/
  | attempt
  /-- `progress_page_start_comment_sent()`. -/
  | pageStart
  /-- `progress_pages_truly_printed()`. -/
  | pagesPrinted (n : CInt)
  /-- `progress_bytes_sent()`. -/
  | bytesSent (n : CInt)
  /-- `progress_bytes_sent_correction()`. -/
  | correction (n : CInt)
  | reason (text : List Byte)
  deriving DecidableEq

/-- The queue file and the present attempt; and, of what has been done, the counts last recorded and
all that there is besides. -/
structure History where
  file : List Byte
  present : Attempt := {}
  recorded : Option Totals := none
  others : List Byte
  deriving DecidableEq

/-- The counters after an event, if it is one that records them. -/
def Totals.count (t : Totals) : Event → Option Totals
  | .pageStart => some { t with pagesStarted := t.pagesStarted + 1 }
  | .pagesPrinted n => some { t with pagesPrinted := t.pagesPrinted + n }
  | .bytesSent n => some { t with bytes := t.bytes + n.signExtend 64 }
  | _ => none

def History.step (h : History) (e : Event) : Option History :=
  match h.present.totals.count e with
  | some totals => do
    let (file, present) ← queuefileProgressWrite h.file { h.present with totals := totals }
    return { h with file := file, present := present, recorded := some totals }
  | none =>
    match e with
    | .attempt => some { h with present := {} }
    | .correction n =>
      let totals := h.present.totals
      some { h with present.totals := { totals with bytes := totals.bytes - n.signExtend 64 } }
    | .reason text =>
      some { h with file := giveReason h.file text, others := giveReason h.others text }
    | _ => some h

/-! ## Lines -/

def isProgress (l : List Byte) : Bool := (ascii "Progress: ").isPrefixOf l

/-- The text ends with a newline, if it is not empty. -/
def Ended (s : List Byte) : Prop := s = [] ∨ s.getLast? = some newline

theorem rawLines_append_ended {s : List Byte} (h : Ended s) (t : List Byte) :
    rawLines (s ++ t) = rawLines s ++ rawLines t := by
  induction s with
  | nil => rfl
  | cons c s ih =>
    rw [List.cons_append, rawLines, rawLines]
    have hlast : Ended s := by
      rcases h with h | h
      · cases h
      · rw [List.getLast?_cons] at h
        rcases List.eq_nil_or_concat s with rfl | ⟨r, d, rfl⟩
        · exact .inl rfl
        · exact .inr (by simpa using h)
    rw [ih hlast]
    by_cases hc : c = newline
    · rw [if_pos hc, if_pos hc, List.cons_append]
    · rw [if_neg hc, if_neg hc]
      cases hs : rawLines s with
      | nil =>
        exfalso
        have hflatten := flatten_rawLines s
        rw [hs] at hflatten
        obtain rfl : s = [] := hflatten.symm
        rcases h with h | h
        · cases h
        · exact hc (Option.some.inj h)
      | cons l ls => rfl

theorem Ended.append {s t : List Byte} (hs : Ended s) (ht : Ended t) : Ended (s ++ t) := by
  rcases ht with rfl | ht
  · rwa [List.append_nil]
  · refine .inr ?_
    rw [List.getLast?_append, ht]
    rfl

/-- There is no "Progress:" line. -/
def Without (s : List Byte) : Prop := Ended s ∧ ∀ l ∈ rawLines s, isProgress l = false

/-- The file has one "Progress:" line, complete and with the counts last recorded, or none if none have
been; and every other byte is what it was. -/
structure Tidy (h : History) : Prop where
  line : (rawLines h.file).filter isProgress = (h.recorded.map Totals.text).toList
  length : ∀ t ∈ h.recorded, t.text.length = 31
  others : ((rawLines h.file).filter fun l => !isProgress l).flatten = h.others

theorem Without.append {s t : List Byte} (hs : Without s) (ht : Without t) : Without (s ++ t) := by
  refine ⟨hs.1.append ht.1, fun l hl => ?_⟩
  rw [rawLines_append_ended hs.1] at hl
  exact (List.mem_append.1 hl).elim (hs.2 l) (ht.2 l)

theorem Without.filter {s : List Byte} (h : Without s) :
    (rawLines s).filter isProgress = [] ∧ (rawLines s).filter (fun l => !isProgress l) = rawLines s := by
  constructor
  · rw [List.filter_eq_nil_iff]
    intro l hl
    simp [h.2 l hl]
  · rw [List.filter_eq_self]
    intro l hl
    simp [h.2 l hl]

/-! ## The text of a line -/

theorem newline_notMem_zeroPadded (w : ℕ) (i : ℤ) : newline ∉ zeroPadded w i := by
  intro h
  unfold zeroPadded at h
  rcases List.mem_append.1 h with h | h
  · rcases List.mem_append.1 h with h | h
    · split_ifs at h
      · cases List.mem_singleton.1 h
      · cases h
    · cases (List.mem_replicate.1 h).2
  · cases isdigit_decimal h

theorem length_zeroPadded {k : ℕ} (hk : 0 < k) {i : ℤ} (hlow : -10 ^ k < i) (hhigh : i < 10 ^ (k + 1)) :
    (zeroPadded (k + 1) i).length = k + 1 := by
  unfold zeroPadded
  simp only [List.length_append, List.length_replicate]
  by_cases hneg : i < 0
  · have habs : i.natAbs < 10 ^ k := by
      zify
      rw [abs_of_neg hneg]
      omega
    have hdigits := length_decimal_le hk habs
    rw [if_pos hneg, List.length_singleton]
    omega
  · have habs : i.natAbs < 10 ^ (k + 1) := by
      zify
      rwa [abs_of_nonneg (not_lt.1 hneg)]
    have hdigits := length_decimal_le (Nat.succ_pos k) habs
    rw [if_neg hneg, List.length_nil]
    omega

/-- The counters that the line has room for. -/
structure Totals.Fits (t : Totals) : Prop where
  bytes : t.bytes.toInt ≤ 9999999999
  pagesStarted : -999 ≤ t.pagesStarted.toInt ∧ t.pagesStarted.toInt ≤ 9999
  pagesPrinted : -999 ≤ t.pagesPrinted.toInt ∧ t.pagesPrinted.toInt ≤ 9999

theorem Totals.Fits.length {t : Totals} (h : t.Fits) : t.text.length = 31 := by
  have hshown : 0 ≤ t.bytesShown ∧ t.bytesShown ≤ 9999999999 := by
    have hbytes := h.bytes
    unfold Totals.bytesShown slackBytesCount
    split_ifs <;> omega
  have hbytes : (zeroPadded 10 t.bytesShown).length = 10 := by
    apply length_zeroPadded (by decide)
    · exact lt_of_lt_of_le (by norm_num) hshown.1
    · exact lt_of_le_of_lt hshown.2 (by norm_num)
  have hpages : ∀ i : ℤ, -999 ≤ i ∧ i ≤ 9999 → (zeroPadded 4 i).length = 4 := by
    intro i hi
    apply length_zeroPadded (by decide)
    · exact lt_of_lt_of_le (by norm_num) hi.1
    · exact lt_of_le_of_lt hi.2 (by norm_num)
  unfold Totals.text
  simp only [List.length_append, hbytes, hpages _ h.pagesStarted, hpages _ h.pagesPrinted]
  rfl

theorem rawLines_text (t : Totals) (s : List Byte) : rawLines (t.text ++ s) = t.text :: rawLines s := by
  unfold Totals.text
  rw [List.append_assoc _ [newline], List.singleton_append, rawLines_append]
  simp only [List.mem_append, not_or]
  refine ⟨⟨⟨⟨⟨?_, ?_⟩, ?_⟩, ?_⟩, ?_⟩, ?_⟩
  · decide
  · exact newline_notMem_zeroPadded _ _
  · decide
  · exact newline_notMem_zeroPadded _ _
  · decide
  · exact newline_notMem_zeroPadded _ _

theorem isProgress_text (t : Totals) : isProgress t.text = true := by
  unfold isProgress Totals.text
  simp only [List.append_assoc]
  exact List.isPrefixOf_iff_prefix.2 (List.prefix_append _ _)

/-! ## Every run -/

/-- The line is at the end of the file, or there is none, and nothing looks like one there. -/
def Findable (file : List Byte) : Prop :=
  if (rawLines file).any isProgress then ∃ l ∈ (rawLines file).getLast?, isProgress l = true
  else (file.drop (file.length - 31)).take 10 ≠ ascii "Progress: "

/-- What an event must be for the line to stay in order: the counters that it records have room, and
when the file is opened its line can be found; no line of a reason is such a line. -/
def Orderly (h : History) (e : Event) : Prop :=
  (∀ t ∈ h.present.totals.count e, t.Fits ∧ (h.present.spot = none → Findable h.file)) ∧
    ∀ text, e = .reason text → ∀ l ∈ rawLines (giveReason [] text), isProgress l = false

/-- The file is made of the line and of what is around it. -/
structure Placed (h : History) (t : Totals) (before after : List Byte) : Prop where
  file : h.file = before ++ (t.text ++ after)
  others : h.others = before ++ after
  front : Without before
  back : Without after
  length : t.text.length = 31
  spot : ∀ s ∈ h.present.spot, s = before.length

def Kept (h : History) : Prop :=
  match h.recorded with
  | none => h.file = h.others ∧ Without h.others ∧ h.present.spot = none
  | some t => ∃ before after, Placed h t before after

theorem Placed.rawLines {h : History} {t : Totals} {before after : List Byte}
    (hp : Placed h t before after) :
    rawLines h.file = Ppr.rawLines before ++ t.text :: Ppr.rawLines after := by
  rw [hp.file, rawLines_append_ended hp.front.1, rawLines_text]

theorem Kept.tidy {h : History} (hk : Kept h) : Tidy h := by
  unfold Kept at hk
  cases hr : h.recorded with
  | none =>
    rw [hr] at hk
    obtain ⟨hfile, hwithout, -⟩ := hk
    refine ⟨?_, by simp [hr], ?_⟩
    · rw [hfile, hr, hwithout.filter.1]
      rfl
    · rw [hfile, hwithout.filter.2, flatten_rawLines]
  | some t =>
    rw [hr] at hk
    obtain ⟨before, after, hp⟩ := hk
    refine ⟨?_, ?_, ?_⟩
    · rw [hp.rawLines, List.filter_append, List.filter_cons_of_pos (isProgress_text t),
        hp.front.filter.1, hp.back.filter.1, hr]
      rfl
    · intro u hu
      obtain rfl : t = u := Option.some.inj (hr.symm.trans hu)
      exact hp.length
    · rw [hp.rawLines, List.filter_append, List.filter_cons_of_neg (by simp [isProgress_text]),
        hp.front.filter.2, hp.back.filter.2, List.flatten_append, flatten_rawLines,
        flatten_rawLines, hp.others]

theorem giveReason_eq (s text : List Byte) : giveReason s text = s ++ giveReason [] text := by
  simp [giveReason]

theorem take_text (t : Totals) : t.text.take 10 = ascii "Progress: " := by
  unfold Totals.text
  simp only [List.append_assoc]
  exact List.take_left' rfl

/-- The line that was recorded is where the next one goes. -/
theorem Placed.spot_eq {h : History} {t : Totals} {before after : List Byte}
    (hp : Placed h t before after) (hfind : h.present.spot = none → Findable h.file) :
    h.present.spot.getD (findSpot h.file) = before.length := by
  cases hspot : h.present.spot with
  | some s => exact hp.spot s hspot
  | none =>
    have hfind := hfind hspot
    have hany : (Ppr.rawLines h.file).any isProgress = true := by
      rw [hp.rawLines, List.any_append, List.any_cons, isProgress_text]
      simp
    unfold Findable at hfind
    rw [if_pos hany, hp.rawLines] at hfind
    obtain ⟨l, hl, hlast⟩ := hfind
    -- Behind the line there would be another one at the end.
    obtain rfl : after = [] := by
      by_contra hne
      obtain ⟨r, rs, hr⟩ := List.exists_cons_of_ne_nil (l := Ppr.rawLines after) fun hnil => by
        have hflatten := flatten_rawLines after
        rw [hnil] at hflatten
        exact hne hflatten.symm
      rw [List.getLast?_append, List.getLast?_cons_of_ne_nil (by simp [hr]), hr] at hl
      have hmem : l ∈ Ppr.rawLines after := by
        rw [hr]
        exact List.mem_of_mem_getLast? (by simpa [List.getLast?_cons] using hl)
      rw [hp.back.2 l hmem] at hlast
      cases hlast
    have hlen : h.file.length = before.length + 31 := by
      rw [hp.file, List.append_nil, List.length_append, hp.length]
    show findSpot h.file = _
    unfold findSpot
    rw [hlen, Nat.add_sub_cancel, hp.file, List.append_nil, List.drop_left, if_pos (take_text t)]

theorem Placed.write {h : History} {t : Totals} {before after : List Byte}
    (hp : Placed h t before after) (hfind : h.present.spot = none → Findable h.file) {u : Totals}
    (hu : u.Fits) {file : List Byte} {present : Attempt}
    (hw : queuefileProgressWrite h.file { h.present with totals := u } = some (file, present)) :
    Placed { h with file := file, present := present, recorded := some u } u before after := by
  unfold queuefileProgressWrite at hw
  dsimp only at hw
  rw [hp.spot_eq hfind, List.take_of_length_le hu.length.le] at hw
  split_ifs at hw
  cases hw
  refine ⟨?_, hp.others, hp.front, hp.back, hu.length, fun s hs => (Option.some.inj hs).symm⟩
  dsimp only
  rw [hp.file, List.take_left, ← List.drop_drop, List.drop_left, List.drop_left' hp.length,
    List.append_assoc]

/-- The first line is put at the end. -/
theorem placed_first {h : History} (hfile : h.file = h.others) (hwithout : Without h.others)
    (hspot : h.present.spot = none) (hfind : Findable h.file) {u : Totals} (hu : u.Fits)
    {file : List Byte} {present : Attempt}
    (hw : queuefileProgressWrite h.file { h.present with totals := u } = some (file, present)) :
    Placed { h with file := file, present := present, recorded := some u } u h.others [] := by
  have hany : (rawLines h.file).any isProgress = false := by
    rw [hfile, List.any_eq_false]
    intro l hl
    simp [hwithout.2 l hl]
  have hend : findSpot h.file = h.file.length := by
    unfold Findable at hfind
    rw [hany, if_neg (by decide)] at hfind
    exact if_neg hfind
  unfold queuefileProgressWrite at hw
  dsimp only at hw
  rw [hspot, Option.getD_none, hend, List.take_of_length_le hu.length.le, List.take_length,
    List.drop_eq_nil_of_le (Nat.le_add_right _ _), List.append_nil] at hw
  split_ifs at hw
  cases hw
  refine ⟨?_, (List.append_nil _).symm, hwithout, ⟨.inl rfl, fun l hl => by cases hl⟩, hu.length,
    fun s hs => ?_⟩
  · dsimp only
    rw [List.append_nil, hfile]
  · rw [← hfile]
    exact (Option.some.inj hs).symm

theorem Kept.write {h : History} (hk : Kept h) (hfind : h.present.spot = none → Findable h.file)
    {u : Totals} (hu : u.Fits) {file : List Byte} {present : Attempt}
    (hw : queuefileProgressWrite h.file { h.present with totals := u } = some (file, present)) :
    Kept { h with file := file, present := present, recorded := some u } := by
  unfold Kept at hk
  cases hr : h.recorded with
  | none =>
    rw [hr] at hk
    obtain ⟨hfile, hwithout, hspot⟩ := hk
    exact ⟨_, _, placed_first hfile hwithout hspot (hfind hspot) hu hw⟩
  | some t =>
    rw [hr] at hk
    obtain ⟨before, after, hp⟩ := hk
    exact ⟨_, _, hp.write hfind hu hw⟩

theorem Kept.reason {h : History} (hk : Kept h) {text : List Byte}
    (htext : ∀ l ∈ rawLines (giveReason [] text), isProgress l = false) :
    Kept { h with file := giveReason h.file text, others := giveReason h.others text } := by
  have hreason : Without (giveReason [] text) := ⟨.inr (by simp [giveReason]), htext⟩
  rw [giveReason_eq h.file, giveReason_eq h.others]
  unfold Kept at hk ⊢
  dsimp only
  cases hr : h.recorded with
  | none =>
    rw [hr] at hk
    obtain ⟨hfile, hwithout, hspot⟩ := hk
    exact ⟨by rw [hfile], hwithout.append hreason, hspot⟩
  | some t =>
    rw [hr] at hk
    obtain ⟨before, after, hp⟩ := hk
    refine ⟨before, after ++ giveReason [] text, ?_, ?_, hp.front, hp.back.append hreason, hp.length,
      hp.spot⟩
    · dsimp only
      rw [hp.file]
      simp only [List.append_assoc]
    · dsimp only
      rw [hp.others, List.append_assoc]

/-- Changes of the counters and a new run do not move the line. -/
theorem Kept.present {h : History} (hk : Kept h) {present : Attempt}
    (hspot : present.spot = none ∨ present.spot = h.present.spot) :
    Kept { h with present := present } := by
  unfold Kept at hk ⊢
  dsimp only
  cases hr : h.recorded with
  | none =>
    rw [hr] at hk
    exact ⟨hk.1, hk.2.1, hspot.elim id fun heq => heq.trans hk.2.2⟩
  | some t =>
    rw [hr] at hk
    obtain ⟨before, after, hp⟩ := hk
    refine ⟨before, after, hp.file, hp.others, hp.front, hp.back, hp.length, fun s hs => ?_⟩
    rcases hspot with hnone | heq
    · rw [hnone] at hs
      cases hs
    · exact hp.spot s (heq ▸ hs)

theorem Kept.step {h h' : History} (hk : Kept h) {e : Event} (ho : Orderly h e)
    (hs : h.step e = some h') : Kept h' := by
  unfold History.step at hs
  cases hcount : h.present.totals.count e with
  | some u =>
    rw [hcount] at hs
    obtain ⟨hfits, hfind⟩ := ho.1 u hcount
    obtain ⟨⟨file, present⟩, hw, hs⟩ := Option.bind_eq_some_iff.1 hs
    cases hs
    exact hk.write hfind hfits hw
  | none =>
    rw [hcount] at hs
    cases e with
    | attempt =>
      cases hs
      exact hk.present (.inl rfl)
    | correction n =>
      cases hs
      exact hk.present (.inr rfl)
    | reason text =>
      cases hs
      exact hk.reason (ho.2 text rfl)
    | pageStart => cases hcount
    | pagesPrinted n => cases hcount
    | bytesSent n => cases hcount

/-- What a job's queue file goes through when every event is in order. -/
inductive Reached (file : List Byte) : History → Prop
  | start : Reached file { file := file, others := file }
  | step {h h' : History} {e : Event} :
      Reached file h → Orderly h e → h.step e = some h' → Reached file h'

theorem Reached.kept {file : List Byte} (hfile : Without file) {h : History} (hr : Reached file h) :
    Kept h := by
  induction hr with
  | start => exact ⟨rfl, hfile, rfl⟩
  | step _ ho hs ih => exact ih.step ho hs

/-- Whatever is reported in any number of runs, the file stays in order, if no run looks for the line
of an earlier one in vain and the counters have room. -/
theorem progress_tidy {file : List Byte} (hfile : Without file) {h : History}
    (hr : Reached file h) : Tidy h :=
  (hr.kept hfile).tidy

/-- Enough of a queue file for a line to be looked for at its end. -/
def shortQueueFile : List Byte := ascii "PPRD: 0032 00000000 FFFE 0000\nEndMisc\nEndIPP\n"

/-- The first page. -/
theorem progress_tidy_page :
    ∃ h, (History.step { file := shortQueueFile, others := shortQueueFile } .pageStart) = some h ∧
      Tidy h := by
  have hwithout : Without shortQueueFile := ⟨.inr (by decide), by decide +kernel⟩
  have ho : Orderly { file := shortQueueFile, others := shortQueueFile } .pageStart := by
    refine ⟨fun t ht => ?_, nofun⟩
    cases ht
    refine ⟨⟨by decide, by decide, by decide⟩, fun _ => ?_⟩
    unfold Findable
    decide +kernel
  exact ⟨_, rfl, progress_tidy hwithout (.step .start ho rfl)⟩

/-- A job is arrested with a reason and is printed again: the second run writes another line. -/
theorem not_tidy_after_reason :
    ∃ h, ([.pageStart, .reason (ascii "PostScript error"), .attempt, .pageStart] : List Event).foldlM
        History.step { file := shortQueueFile, others := shortQueueFile } = some h ∧
      ((rawLines h.file).filter isProgress).length = 2 ∧ ¬ Tidy h := by
  have hlines : ∃ h, ([.pageStart, .reason (ascii "PostScript error"), .attempt, .pageStart] :
      List Event).foldlM History.step { file := shortQueueFile, others := shortQueueFile } = some h ∧
      ((rawLines h.file).filter isProgress).length = 2 := ⟨_, rfl, by decide +kernel⟩
  obtain ⟨h, hrun, htwo⟩ := hlines
  refine ⟨h, hrun, htwo, fun htidy => ?_⟩
  rw [htidy.line] at htwo
  cases hr : h.recorded <;> rw [hr] at htwo <;> cases htwo

end Ppr.Progress
