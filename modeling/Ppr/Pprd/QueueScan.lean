import Ppr.Libgu.Sscanf
import Ppr.Pprd.State

/-!
# What pprd reads from a queue file

The loop of `queue_accept_queuefile()` that loads limited information from the queue file of a job.  It
looks at every line of the file.  A medium is kept as its name: `get_media_id()` only numbers the names.
-/

namespace Ppr

/-- The members of `newent` that come from the file. -/
@[ext]
structure NewEnt where
  priority : BitVec 16
  sequenceNumber : BitVec 32
  status : BitVec 16
  flags : BitVec 16
  /-- The first `media_index` media. -/
  media : List (List Byte)
  pprdLineSeen : Bool
  deriving DecidableEq, Inhabited

/-- What `gu_sscanf()` extracts from a "PPRD:" line. -/
def pprdValues (line : List Byte) : List Extracted :=
  guSscanf (scanFormat "PPRD: %hx %x %hx %hx") line

/-- `gu_sscanf(line, "Media: %@s", sizeof(tmedia), tmedia)`. -/
def mediaValue (line : List Byte) : Option (List Byte) :=
  if ascii "Media:" <+: line then
    let s := (line.drop 6).dropWhile isspace
    if s = [] then none else some ((s.takeWhile (!isspace ·)).take maxMedianame)
  else none

/-- The value that a line gives the priority, if it gives it one. -/
def priorityValue (line : List Byte) : Option (BitVec 16) :=
  (pprdValues line)[0]?.map (Extracted.number 16)

def sequenceValue (line : List Byte) : Option (BitVec 32) :=
  (pprdValues line)[1]?.map (Extracted.number 32)

/-- The sign is changed only if the whole line is good. -/
def statusValue (line : List Byte) : Option (BitVec 16) :=
  (pprdValues line)[2]?.map fun v =>
    if (pprdValues line).length = 4 then -v.number 16 else v.number 16

def flagsValue (line : List Byte) : Option (BitVec 16) :=
  (pprdValues line)[3]?.map (Extracted.number 16)

/-- One turn of the loop: what a line has of the four numbers is stored in any case. -/
def NewEnt.line (e : NewEnt) (line : List Byte) : NewEnt :=
  let e :=
    { e with
      priority := (priorityValue line).getD e.priority
      sequenceNumber := (sequenceValue line).getD e.sequenceNumber
      status := (statusValue line).getD e.status
      flags := (flagsValue line).getD e.flags }
  if (pprdValues line).length = 4 then { e with pprdLineSeen := true }
  else if e.media.length < maxDocmedia then
    { e with media := e.media ++ (mediaValue line).toList }
  else e

/-- The loop, from what is in the members before it. -/
def scanQueueFile (init : NewEnt) (lines : List (List Byte)) : NewEnt :=
  lines.foldl (fun e l => e.line (chop l)) init

/-- What is loaded, or the exception "no PPRD line".  The members are not set before the loop. -/
def loadNewEnt (init : NewEnt) (text : List Byte) : Option NewEnt :=
  let e := scanQueueFile { init with media := [], pprdLineSeen := false } (rawLines text)
  if e.pprdLineSeen then some e else none

/-! ## The values of the members -/

/-- The values that the lines give a member. -/
def given {α : Type} (value : List Byte → Option α) (lines : List (List Byte)) : List α :=
  lines.filterMap fun l => value (chop l)

theorem given_append {α : Type} (value : List Byte → Option α) (ls ms : List (List Byte)) :
    given value (ls ++ ms) = given value ls ++ given value ms :=
  List.filterMap_append

/-- A member is what the last line that gives it a value gives. -/
theorem foldl_member {α : Type} {value : List Byte → Option α} {member : NewEnt → α}
    (h : ∀ e l, member (e.line l) = (value l).getD (member e)) (lines : List (List Byte))
    (init : NewEnt) :
    member (scanQueueFile init lines) = (given value lines).getLast?.getD (member init) := by
  induction lines generalizing init with
  | nil => rfl
  | cons l lines ih =>
    have hstep : member (scanQueueFile init (l :: lines)) =
        member (scanQueueFile (init.line (chop l)) lines) := rfl
    have hgiven : given value (l :: lines) = (value (chop l)).toList ++ given value lines := by
      rw [given, List.filterMap_cons]
      cases value (chop l) <;> rfl
    rw [hstep, ih, h, hgiven, List.getLast?_append]
    cases value (chop l) <;> cases (given value lines).getLast? <;> rfl

theorem line_members (e : NewEnt) (l : List Byte) :
    (e.line l).priority = (priorityValue l).getD e.priority ∧
    (e.line l).sequenceNumber = (sequenceValue l).getD e.sequenceNumber ∧
    (e.line l).status = (statusValue l).getD e.status ∧
    (e.line l).flags = (flagsValue l).getD e.flags := by
  unfold NewEnt.line
  dsimp only
  split_ifs <;> exact ⟨rfl, rfl, rfl, rfl⟩

/-- A line is not both. -/
theorem mediaValue_of_pprd {l : List Byte} (h : pprdValues l ≠ []) : mediaValue l = none := by
  rw [mediaValue, if_neg]
  intro hl
  obtain ⟨t, rfl⟩ := hl
  have hformat : scanFormat "PPRD: %hx %x %hx %hx" =
      .lit 80 :: (scanFormat "PPRD: %hx %x %hx %hx").tail := by decide
  have hline : ascii "Media:" ++ t = 77 :: (ascii "edia:" ++ t) := rfl
  apply h
  rw [pprdValues, hformat, hline, guSscanf, if_neg (by decide)]

theorem line_media (e : NewEnt) (l : List Byte) :
    (e.line l).media =
      if e.media.length < maxDocmedia then e.media ++ (mediaValue l).toList else e.media := by
  unfold NewEnt.line
  dsimp only
  by_cases h4 : (pprdValues l).length = 4
  · have hne : pprdValues l ≠ [] := by
      intro h
      rw [h] at h4
      cases h4
    rw [if_pos h4, mediaValue_of_pprd hne]
    split_ifs <;> simp
  · rw [if_neg h4]
    split_ifs <;> rfl

/-- The media are the first that the lines name. -/
theorem scan_media (lines : List (List Byte)) (init : NewEnt) (h : init.media.length ≤ maxDocmedia) :
    (scanQueueFile init lines).media = (init.media ++ given mediaValue lines).take maxDocmedia := by
  induction lines generalizing init with
  | nil =>
    show init.media = _
    rw [given, List.filterMap_nil, List.append_nil, List.take_of_length_le h]
  | cons l lines ih =>
    have hline := line_media init (chop l)
    have hmed : (scanQueueFile init (l :: lines)).media =
        (scanQueueFile (init.line (chop l)) lines).media := rfl
    rw [hmed, ih _ ?_, hline]
    · rw [given, given, List.filterMap_cons]
      split_ifs with hlt
      · cases mediaValue (chop l) <;> simp
      · have hlen : init.media.length = maxDocmedia := by omega
        cases mediaValue (chop l) <;> simp [hlen]
    · rw [hline]
      split_ifs with hlt
      · cases mediaValue (chop l) <;> simp <;> omega
      · exact h

theorem scan_seen (lines : List (List Byte)) (init : NewEnt) :
    (scanQueueFile init lines).pprdLineSeen =
      (init.pprdLineSeen || lines.any fun l => (pprdValues (chop l)).length = 4) := by
  induction lines generalizing init with
  | nil => simp [scanQueueFile]
  | cons l lines ih =>
    have hseen : (init.line (chop l)).pprdLineSeen =
        (init.pprdLineSeen || (pprdValues (chop l)).length = 4) := by
      unfold NewEnt.line
      dsimp only
      split_ifs with h4 <;> simp [h4]
    have hmed : (scanQueueFile init (l :: lines)).pprdLineSeen =
        (scanQueueFile (init.line (chop l)) lines).pprdLineSeen := rfl
    rw [hmed, ih, hseen, List.any_cons, Bool.or_assoc]

/-! ## More lines -/

/-- The lines that are left over give a member nothing but what the new ones give it last, and name no
medium unless the new ones name as many as there is room for. -/
structure AddsNothing (new left : List (List Byte)) : Prop where
  priority : ∀ v ∈ (given priorityValue left).getLast?, v ∈ (given priorityValue new).getLast?
  sequenceNumber : ∀ v ∈ (given sequenceValue left).getLast?, v ∈ (given sequenceValue new).getLast?
  status : ∀ v ∈ (given statusValue left).getLast?, v ∈ (given statusValue new).getLast?
  flags : ∀ v ∈ (given flagsValue left).getLast?, v ∈ (given flagsValue new).getLast?
  media : (given mediaValue new).length < maxDocmedia → given mediaValue left = []

theorem or_getD_eq_iff {α : Type} {a b : Option α} (hb : b ≠ none) (d : α) :
    (a.or b).getD d = b.getD d ↔ ∀ v ∈ a, v ∈ b := by
  obtain ⟨y, rfl⟩ := Option.ne_none_iff_exists'.1 hb
  cases a with
  | none => simp
  | some x => simp [eq_comm]

/-- A member that the first lines set. -/
theorem member_append_iff {α : Type} {value : List Byte → Option α} {member : NewEnt → α}
    (h : ∀ e l, member (e.line l) = (value l).getD (member e)) {new : List (List Byte)}
    (hnew : given value new ≠ []) (left : List (List Byte)) (init : NewEnt) :
    member (scanQueueFile init (new ++ left)) = member (scanQueueFile init new) ↔
      ∀ v ∈ (given value left).getLast?, v ∈ (given value new).getLast? := by
  rw [foldl_member h, foldl_member h, given_append, List.getLast?_append]
  exact or_getD_eq_iff (by simpa using hnew) _

theorem given_ne_nil {α : Type} {value : List Byte → Option α} {lines : List (List Byte)}
    (h : ∃ l ∈ lines, value (chop l) ≠ none) : given value lines ≠ [] := by
  obtain ⟨l, hl, hv⟩ := h
  obtain ⟨v, hv⟩ := Option.ne_none_iff_exists'.1 hv
  exact List.ne_nil_of_mem (List.mem_filterMap.2 ⟨l, hl, hv⟩)

/-- The media of more lines are the same if there are no more or if there is no room for them. -/
theorem media_append_iff (new left : List (List Byte)) (init : NewEnt) (h : init.media = []) :
    (scanQueueFile init (new ++ left)).media = (scanQueueFile init new).media ↔
      ((given mediaValue new).length < maxDocmedia → given mediaValue left = []) := by
  have h0 : init.media.length ≤ maxDocmedia := by
    rw [h]
    decide
  rw [scan_media _ _ h0, scan_media _ _ h0, h, List.nil_append, List.nil_append, given_append,
    List.take_append]
  constructor
  · intro heq hlt
    rw [List.append_right_eq_self, List.take_eq_nil_iff] at heq
    exact heq.resolve_left (by omega)
  · intro hleft
    rcases Nat.lt_or_ge (given mediaValue new).length maxDocmedia with hlt | hge
    · rw [hleft hlt, List.take_nil, List.append_nil]
    · rw [Nat.sub_eq_zero_of_le hge, List.take_zero, List.append_nil]

/-- More lines behind a text with a whole "PPRD:" line do not change what is loaded exactly if they add
nothing. -/
theorem loadNewEnt_append_iff {s t : List Byte} (happend : rawLines (s ++ t) = rawLines s ++ rawLines t)
    (hpprd : ∃ l ∈ rawLines s, (pprdValues (chop l)).length = 4) :
    (∀ init, loadNewEnt init (s ++ t) = loadNewEnt init s) ↔ AddsNothing (rawLines s) (rawLines t) := by
  obtain ⟨l, hl, h4⟩ := hpprd
  have hvalue : ∀ {w : ℕ} {f : Extracted → BitVec w} {i : ℕ}, i < 4 →
      (pprdValues (chop l))[i]?.map f ≠ none := by
    intro w f i hi
    rw [Ne, Option.map_eq_none_iff, List.getElem?_eq_none_iff]
    omega
  have hpriority : given priorityValue (rawLines s) ≠ [] := given_ne_nil ⟨l, hl, hvalue (by decide)⟩
  have hsequence : given sequenceValue (rawLines s) ≠ [] := given_ne_nil ⟨l, hl, hvalue (by decide)⟩
  have hstatus : given statusValue (rawLines s) ≠ [] := given_ne_nil ⟨l, hl, hvalue (by decide)⟩
  have hflags : given flagsValue (rawLines s) ≠ [] := given_ne_nil ⟨l, hl, hvalue (by decide)⟩
  have hseen : ∀ init left, (scanQueueFile init (rawLines s ++ left)).pprdLineSeen = true := by
    intro init left
    rw [scan_seen, List.any_append]
    have : ((rawLines s).any fun l => decide ((pprdValues (chop l)).length = 4)) = true := by
      rw [List.any_eq_true]
      exact ⟨l, hl, decide_eq_true h4⟩
    rw [this, Bool.true_or, Bool.or_true]
  have hload : ∀ init, (loadNewEnt init (s ++ t) = loadNewEnt init s ↔
      AddsNothing (rawLines s) (rawLines t)) := by
    intro init
    have hs := hseen { init with media := [], pprdLineSeen := false } []
    rw [List.append_nil] at hs
    rw [loadNewEnt, loadNewEnt, happend, if_pos (hseen _ _), if_pos hs, Option.some.injEq, NewEnt.ext_iff,
      member_append_iff (fun e l => (line_members e l).1) hpriority,
      member_append_iff (fun e l => (line_members e l).2.1) hsequence,
      member_append_iff (fun e l => (line_members e l).2.2.1) hstatus,
      member_append_iff (fun e l => (line_members e l).2.2.2) hflags,
      media_append_iff _ _ _ rfl, hseen, hs]
    exact ⟨fun h => ⟨h.1, h.2.1, h.2.2.1, h.2.2.2.1, h.2.2.2.2.1⟩,
      fun h => ⟨h.priority, h.sequenceNumber, h.status, h.flags, h.media, rfl⟩⟩
  exact ⟨fun h => (hload default).1 (h default), fun h init => (hload init).2 h⟩

end Ppr
