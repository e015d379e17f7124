import Ppr.Lib.Outcome
import Ppr.Spool.DeferredLists
import Ppr.Spool.Nest

/-!
# The levels follow the document

In a document whose structures are properly nested, and whose begin and end comments are not continued, the
stack of `ppr_nest.c` is that of the structures that are open.
-/

namespace Ppr

/-! ## Structures -/

inductive StructureKind where
  | document
  | resource
  | file
  | font
  | procSet
  /-- An EPS file without "%%BeginDocument:", where the badeps hack is used. -/
  | eps
  deriving DecidableEq

inductive StructureMark where
  | opens (k : StructureKind)
  | closes (k : StructureKind)
  deriving DecidableEq

/-- The comments with which structures begin and end. -/
def structureMarks : List (String × StructureMark) :=
  [("%%BeginDocument:", .opens .document), ("%%EndDocument", .closes .document),
    ("%%BeginResource:", .opens .resource), ("%%EndResource", .closes .resource),
    ("%%BeginFile:", .opens .file), ("%%EndFile", .closes .file),
    ("%%BeginFont:", .opens .font), ("%%EndFont", .closes .font),
    ("%%BeginProcSet:", .opens .procSet), ("%%EndProcSet", .closes .procSet),
    ("%%EndProcSet:", .closes .procSet), ("%%EndProcset", .closes .procSet)]

def markOfKeyword (keyword : List Byte) : Option StructureMark :=
  (structureMarks.find? fun m => keyword = ascii m.1).map Prod.snd

/-- A line that may be a comment. -/
def isShortComment (line : List Byte) : Bool := line.head? = some 37 && (chop line).length ≤ maxTokenized

def markOf (line : List Byte) : Option StructureMark :=
  if isShortComment line then markOfKeyword (keywordOf (commentText line)) else none

/-- An open structure, and whether its first comment has an argument. -/
structure OpenStructure where
  kind : StructureKind
  worded : Bool

/-- The structures that are open after a line; there are none if it ends a structure that is not the
innermost one. -/
def openStep (badeps : Bool) (opened : List OpenStructure) (l : Reader × List Byte) :
    Option (List OpenStructure) :=
  match markOf l.2 with
  | some (.opens k) => some (⟨k, (tokenize (commentText l.2)).length ≠ 1⟩ :: opened)
  | some (.closes k) =>
    match opened with
    | [] => none
    | s :: opened => if s.kind = k then some opened else none
  | none =>
    if badeps = true ∧ isShortComment l.2 = true ∧ opened = [] ∧ l.1 ≠ .header ∧
        lmatch (commentText l.2) "%!" = true ∧ isEpsHeader (commentText l.2) = true then
      some [⟨.eps, true⟩]
    else if badeps = true ∧ isShortComment l.2 = true ∧ commentText l.2 = ascii "%%EOF" ∧
        opened.head?.map OpenStructure.kind = some .eps then
      some opened.tail
    else some opened

/-- The structures that are open after the lines, if they are properly nested. -/
def openAfter (badeps : Bool) (ls : List (Reader × List Byte)) : Option (List OpenStructure) :=
  ls.foldlM (openStep badeps) []

/-- What `nest_stack[]` should say of a structure. -/
def OpenStructure.nestType (s : OpenStructure) : NestType :=
  match s.kind with
  | .document => .doc
  | .resource => .res
  | .eps => .badEps
  | .file | .font | .procSet => if s.worded then .res else .badRes

/-! ## What should hold -/

/-- The type that the comments of an old structure stand for. -/
def StructureKind.oldType : StructureKind → Option (List Byte)
  | .file => some (ascii "file")
  | .font => some (ascii "font")
  | .procSet => some (ascii "procset")
  | .document | .resource | .eps => none

/-- The comments of an old structure that has an argument are made new ones. -/
def MadeNew (opened : List OpenStructure) (line new : List Byte) : Prop :=
  match markOf line with
  | some (.opens k) => ∀ type, k.oldType = some type → (tokenize (commentText line)).length ≠ 1 →
      ∃ tail, new = ascii "%%BeginResource: " ++ type ++ 32 :: tail
  | some (.closes k) => ∀ s ∈ opened.head?, k.oldType ≠ none → s.worded = true → new = ascii "%%EndResource"
  | none => True

/-- A line is followed: no end comment is ignored, the level is that of the open structures, old comments are
made new ones, and within a structure no comment is taken for one of the outer document. -/
structure LineFollowed (badeps : Bool) (s : NestState) (l : Reader × List Byte) (before after : List OpenStructure) :
    Prop where
  underflow : nestLine badeps s l.1 l.2 ≠ .error .underflow
  level : ∀ r, nestLine badeps s l.1 l.2 = .ok r → r.stack.length = after.length
  popped : ∀ r, nestLine badeps s l.1 l.2 = .ok r → r.ignored = false
  madeNew : ∀ r, nestLine badeps s l.1 l.2 = .ok r → MadeNew before l.2 r.line
  inside : ∀ r, nestLine badeps s l.1 l.2 = .ok r → before ≠ [] ∨ after ≠ [] →
    ∀ reader, takesComment reader r.stack.length r.line = false

/-- All lines of a document. -/
def Followed (badeps : Bool) (ls : List (Reader × List Byte)) : Prop :=
  ∀ before l after, ls = before ++ l :: after → ∀ s, nestAfter badeps before = .ok s →
    ∀ opened opened', openAfter badeps before = some opened → openStep badeps opened l = some opened' →
      LineFollowed badeps s l opened opened'

/-! ## The documents -/

def simplifierAfter (ls : List (Reader × List Byte)) : Simplifier :=
  ls.foldl (fun st l => (simplifyLine st l.2).1) simplifierStart

/-- No comment that begins or ends a structure is continued with "%%+". -/
def Uncontinued (ls : List (Reader × List Byte)) : Prop :=
  ∀ before l after, ls = before ++ l :: after → isShortComment l.2 = true → lmatch (commentText l.2) "%%+" = true →
    markOfKeyword (keywordOf (simplifyContinuation (simplifierAfter before) (commentText l.2))) = none

/-- "%%EndDocument" and "%%EndResource" have no arguments. -/
def BareEnds (ls : List (Reader × List Byte)) : Prop :=
  ∀ l ∈ ls, (markOf l.2 = some (.closes .document) → commentText l.2 = ascii "%%EndDocument") ∧
    (markOf l.2 = some (.closes .resource) → commentText l.2 = ascii "%%EndResource")

/-! ## A line that is a comment -/

theorem commentText_cons (t : List Byte) : ∃ t', commentText (37 :: t) = 37 :: t' := by
  have hchop : ∃ t', chop (37 :: t) = 37 :: t' := by
    have hsplit : (37 : Byte) :: t = [37] ++ t := rfl
    by_cases ht : chop t = []
    · rw [hsplit, chop_append_of_eq ht]
      exact ⟨[], by decide⟩
    · rw [hsplit, chop_append_of_ne ht]
      exact ⟨chop t, rfl⟩
  obtain ⟨t', ht'⟩ := hchop
  rw [commentText, ht']
  exact ⟨cstr t', rfl⟩

theorem commentText_of_short {line : List Byte} (h : isShortComment line = true) :
    ∃ t, commentText line = 37 :: t := by
  rw [isShortComment, Bool.and_eq_true, decide_eq_true_eq] at h
  cases line with
  | nil => cases h.1
  | cons c t =>
    obtain rfl : c = 37 := Option.some.inj h.1
    exact commentText_cons t

theorem length_commentText {line : List Byte} (h : isShortComment line = true) :
    (commentText line).length ≤ maxTokenized := by
  rw [isShortComment, Bool.and_eq_true, decide_eq_true_eq, decide_eq_true_eq] at h
  exact ((List.takeWhile_sublist _).length_le).trans h.2

theorem keywordOf_isPrefix {t : List Byte} : keywordOf (37 :: t) <+: 37 :: t := by
  unfold keywordOf
  cases htokens : tokenize (37 :: t) with
  | nil => exact List.nil_prefix
  | cons keyword args => exact tokenize_head htokens

/-- What a line does that is not looked at. -/
theorem nestLine_other {badeps : Bool} {s : NestState} {reader : Reader} {line : List Byte}
    (h : isShortComment line = false) :
    nestLine badeps s reader line = .ok ⟨(simplifyLine s.simplifier line).2.line, s.stack, false⟩ := by
  refine if_pos ?_
  rw [isShortComment, Bool.and_eq_false_iff, decide_eq_false_iff_not, decide_eq_false_iff_not, not_le] at h
  exact h

theorem simplifyLine_comment {st : Simplifier} {line text : List Byte} (h : isShortComment line = true)
    (htext : commentText line = 37 :: 37 :: text) (hupper : text.head?.any isupper = true) :
    (simplifyLine st line).2.line = commentText line := by
  rw [isShortComment, Bool.and_eq_true, decide_eq_true_eq, decide_eq_true_eq] at h
  unfold simplifyLine
  rw [if_neg (not_not.2 h.1), if_neg (not_lt.2 h.2), htext]
  exact congrArg (fun x : Simplifier × HeaderLine => x.2.line) (if_pos hupper)

theorem simplifyLine_continued {st : Simplifier} {line text : List Byte} (h : isShortComment line = true)
    (htext : commentText line = 37 :: 37 :: 43 :: text) :
    (simplifyLine st line).2.line = simplifyContinuation st (commentText line) := by
  rw [isShortComment, Bool.and_eq_true, decide_eq_true_eq, decide_eq_true_eq] at h
  unfold simplifyLine
  have hlower : ¬((43 :: text).head?.any isupper = true) := by
    rw [List.head?_cons, Option.any_some]
    decide
  rw [if_neg (not_not.2 h.1), if_neg (not_lt.2 h.2), htext]
  exact congrArg (fun x : Simplifier × HeaderLine => x.2.line) ((if_neg hlower).trans (if_pos rfl))

/-- A comment is rewritten, and then looked at. -/
theorem nestLine_comment {badeps : Bool} {s : NestState} {reader : Reader} {line text new : List Byte}
    (h : isShortComment line = true) (htext : commentText line = 37 :: 37 :: text)
    (hcomment : text.head?.any isupper = true ∨ text.head? = some 43)
    (hnew : (simplifyLine s.simplifier line).2.line = new) :
    nestLine badeps s reader line =
      retokenize new s.stack >>= fun r => oldDscToNew r.line r.stack >>= nestSwitch badeps := by
  rw [isShortComment, Bool.and_eq_true, decide_eq_true_eq, decide_eq_true_eq] at h
  unfold nestLine
  rw [if_neg (not_or.2 ⟨not_not.2 h.1, not_lt.2 h.2⟩), htext, hnew]
  exact if_pos hcomment

/-- The keyword of a line that begins with it. -/
theorem head_of_keyword {line rest : List Byte} {c : Byte} (h : isShortComment line = true)
    (hkey : keywordOf (commentText line) = 37 :: 37 :: c :: rest) :
    ∃ text, commentText line = 37 :: 37 :: c :: text := by
  obtain ⟨t, ht⟩ := commentText_of_short h
  have hfirst : keywordOf (37 :: t) <+: 37 :: t := keywordOf_isPrefix
  rw [ht] at hkey ⊢
  rw [hkey] at hfirst
  obtain ⟨text, htext⟩ := hfirst
  exact ⟨rest ++ text, htext.symm⟩

/-! ## The switch -/

/-- The words that the switch knows. -/
def switchKeywords : List (List Byte) :=
  [ascii "%%BeginDocument:", ascii "%%BeginResource:", ascii "%%EndDocument", ascii "%%EndResource"]

theorem nestSwitch_other {badeps : Bool} {r : NestLine} (h : keywordOf r.line ∉ switchKeywords)
    (heof : r.line ≠ ascii "%%EOF") : nestSwitch badeps r = .ok r := by
  have hne : ∀ key ∈ switchKeywords, keywordOf r.line ≠ key := fun key hkey heq => h (heq ▸ hkey)
  have hline : ∀ key ∈ switchKeywords, keywordOf key = key → r.line ≠ key := fun key hkey hself heq =>
    hne key hkey ((congrArg keywordOf heq).trans hself)
  unfold nestSwitch
  rw [if_neg (hne _ (by decide)), if_neg (hne _ (by decide)), if_neg (hline _ (by decide) (by decide)),
    if_neg (hline _ (by decide) (by decide)), if_neg heof]

theorem nestSwitch_opens {badeps : Bool} {r : NestLine} (h : keywordOf r.line = ascii "%%BeginResource:") :
    nestSwitch badeps r = .ok (r.push .res) := by
  have hne : keywordOf r.line ≠ ascii "%%BeginDocument:" := by rw [h]; decide
  rw [nestSwitch, if_neg hne, if_pos h]

/-- A line that is no mark is only looked at if it is "%%EOF". -/
theorem nestSwitch_unmarked {badeps : Bool} {line : List Byte} {stack : List NestType}
    (h : markOfKeyword (keywordOf line) = none) :
    nestSwitch badeps ⟨line, stack, false⟩ =
      if badeps = true ∧ line = ascii "%%EOF" ∧ stack.head? = some .badEps then
        .ok ⟨ascii "%%EOF\n%%EndDocument", stack.tail, false⟩
      else .ok ⟨line, stack, false⟩ := by
  by_cases heof : line = ascii "%%EOF"
  · subst heof
    have hswitch : nestSwitch badeps ⟨ascii "%%EOF", stack, false⟩ =
        if badeps = true ∧ stack.head? = some .badEps then
          NestLine.pop ⟨ascii "%%EOF" ++ ascii "\n%%EndDocument", stack, false⟩ .badEps
        else .ok ⟨ascii "%%EOF", stack, false⟩ := by
      have hkeyword : keywordOf (ascii "%%EOF") = ascii "%%EOF" := by decide
      unfold nestSwitch
      rw [hkeyword]
      rfl
    rw [hswitch]
    by_cases hpop : badeps = true ∧ stack.head? = some .badEps
    · obtain ⟨hbad, hhead⟩ := hpop
      rw [if_pos ⟨hbad, hhead⟩, if_pos ⟨hbad, rfl, hhead⟩]
      cases stack with
      | nil => cases hhead
      | cons level stack =>
        obtain rfl : level = .badEps := Option.some.inj hhead
        rfl
    · rw [if_neg hpop, if_neg fun hno => hpop ⟨hno.1, hno.2.2⟩]
  · have hmarked : ∀ key ∈ switchKeywords, markOfKeyword key ≠ none := by decide
    rw [if_neg fun hno => heof hno.2.1]
    exact nestSwitch_other (fun hmem => hmarked _ hmem h) heof

/-! ## Old comments -/

theorem retokenize_cases (line : List Byte) (stack : List NestType) :
    retokenize line stack = .error .tooLong ∨ retokenize line stack = .ok ⟨line, stack, false⟩ := by
  unfold retokenize
  by_cases h : line.length ≤ maxTokenized
  · exact .inr (if_pos h)
  · exact .inl (if_neg h)

theorem oldCommentOf_eq {keyword : List Byte} {c : OldComment} (h : oldCommentOf keyword = some c) :
    keyword = ascii c.key := of_decide_eq_true (List.find?_some h :)

/-- A line that is made a new one, which the switch does not know. -/
theorem retokenize_other {badeps : Bool} {line key : List Byte} (stack : List NestType)
    (hkey : keywordOf line = key) (h : key ∉ ascii "%%EOF" :: switchKeywords) :
    (retokenize line stack >>= nestSwitch badeps) = .error .tooLong ∨
      (retokenize line stack >>= nestSwitch badeps) = .ok ⟨line, stack, false⟩ := by
  rw [List.mem_cons, not_or] at h
  have heof : line ≠ ascii "%%EOF" := fun heq => by
    have hself : keywordOf (ascii "%%EOF") = ascii "%%EOF" := by decide
    rw [heq, hself] at hkey
    exact h.1 hkey.symm
  rcases retokenize_cases line stack with hline | hline
  · rw [hline]
    exact .inl rfl
  · rw [hline]
    exact .inr (nestSwitch_other (hkey ▸ h.2) heof)

/-- Other comments do not change the levels. -/
theorem old_unmarked {badeps : Bool} {line : List Byte} {stack : List NestType}
    (h : markOfKeyword (keywordOf line) = none) :
    (oldDscToNew line stack >>= nestSwitch badeps) = .error .tooLong ∨
      (oldDscToNew line stack >>= nestSwitch badeps) = nestSwitch badeps ⟨line, stack, false⟩ ∨
        ∃ new, (oldDscToNew line stack >>= nestSwitch badeps) = .ok ⟨new, stack, false⟩ := by
  have hnew : ∀ new key, keywordOf new = key → key ∉ ascii "%%EOF" :: switchKeywords →
      (retokenize new stack >>= nestSwitch badeps) = .error .tooLong ∨
        (retokenize new stack >>= nestSwitch badeps) = nestSwitch badeps ⟨line, stack, false⟩ ∨
          ∃ new', (retokenize new stack >>= nestSwitch badeps) = .ok ⟨new', stack, false⟩ :=
    fun new key hkey hother => (retokenize_other stack hkey hother).imp_right fun hok => .inr ⟨new, hok⟩
  unfold keywordOf at h
  unfold oldDscToNew
  cases htokens : tokenize line with
  | nil => exact .inr (.inl rfl)
  | cons keyword args =>
    rw [htokens, List.headD_cons] at h
    dsimp only
    cases hold : oldCommentOf keyword with
    | none => cases args <;> exact .inr (.inl rfl)
    | some c =>
      rw [oldCommentOf_eq hold] at h
      cases c with
      | beginBinary =>
        cases args with
        | nil => exact .inr (.inl rfl)
        | cons count args => exact hnew _ (ascii "%%BeginData:") rfl (by decide)
      | beginFile => exact absurd h (by decide)
      | beginFont => exact absurd h (by decide)
      | beginProcSet => exact absurd h (by decide)
      | beginDocumentSetup =>
        cases args with
        | nil => exact hnew _ (ascii "%%BeginSetup") rfl (by decide)
        | cons arg args => exact .inr (.inl rfl)
      | beginPaperSize => exact hnew _ (ascii "%%BeginFeature:") rfl (by decide)
      | endBinary =>
        cases args with
        | nil => exact hnew _ (ascii "%%EndData") rfl (by decide)
        | cons arg args => exact .inr (.inl rfl)
      | endProcSetColon => exact absurd h (by decide)
      | endProcset => exact absurd h (by decide)
      | endFile => exact absurd h (by decide)
      | endFont => exact absurd h (by decide)
      | endProcSet => exact absurd h (by decide)
      | endDocumentSetup =>
        cases args with
        | nil => exact hnew _ (ascii "%%EndSetup") rfl (by decide)
        | cons arg args => exact .inr (.inl rfl)
      | executeFile => exact hnew _ (ascii "%%IncludeDocument:") rfl (by decide)
      | endPaperSize =>
        cases args with
        | nil => exact hnew _ (ascii "%%EndFeature") rfl (by decide)
        | cons arg args => exact .inr (.inl rfl)
      | feature => exact hnew _ (ascii "%%IncludeFeature:") rfl (by decide)
      | includeFont =>
        cases args with
        | nil => exact .inr (.inl rfl)
        | cons name args => exact hnew _ (ascii "%%IncludeResource:") rfl (by decide)
      | includeFile =>
        cases args with
        | nil => exact .inr (.inl rfl)
        | cons name args => exact hnew _ (ascii "%%IncludeResource:") rfl (by decide)
      | includeProcSet => exact hnew _ (ascii "%%IncludeResource:") rfl (by decide)

theorem markOfKeyword_eq {keyword : List Byte} {m : StructureMark} (h : markOfKeyword keyword = some m) :
    ∃ p ∈ structureMarks, keyword = ascii p.1 ∧ p.2 = m := by
  obtain ⟨p, hp, rfl⟩ := Option.map_eq_some_iff.1 h
  exact ⟨p, List.mem_of_find?_eq_some hp, of_decide_eq_true (List.find?_some hp :), rfl⟩

/-- A line with a mark has a keyword. -/
theorem tokenize_of_mark {line : List Byte} {m : StructureMark} (h : markOfKeyword (keywordOf line) = some m) :
    ∃ args, tokenize line = keywordOf line :: args := by
  unfold keywordOf at h ⊢
  cases htokens : tokenize line with
  | nil =>
    have hnone : markOfKeyword [] = none := by decide
    rw [htokens, List.headD_nil, hnone] at h
    cases h
  | cons keyword args => exact ⟨args, rfl⟩

theorem oldDscToNew_cons {line keyword : List Byte} {args : List (List Byte)} {stack : List NestType}
    (h : tokenize line = keyword :: args) (hnone : oldCommentOf keyword = none) :
    oldDscToNew line stack = .ok ⟨line, stack, false⟩ := by
  unfold oldDscToNew
  rw [h]
  dsimp only
  rw [hnone]

/-- The beginning of an old structure. -/
theorem old_opens {k : StructureKind} {type line : List Byte} (stack : List NestType)
    (hk : k.oldType = some type) (hmark : markOfKeyword (keywordOf line) = some (.opens k)) :
    ((tokenize line).length = 1 ∧ oldDscToNew line stack = .ok ⟨line, .badRes :: stack, false⟩) ∨
      ((tokenize line).length ≠ 1 ∧ (oldDscToNew line stack = .error .tooLong ∨
        ∃ tail, oldDscToNew line stack = .ok ⟨ascii "%%BeginResource: " ++ type ++ 32 :: tail, stack, false⟩)) := by
  obtain ⟨args, htokens⟩ := tokenize_of_mark hmark
  obtain ⟨p, hp, hkey, hpk⟩ := markOfKeyword_eq hmark
  rw [hkey] at htokens
  have hnew : ∀ tail, retokenize (ascii "%%BeginResource: " ++ type ++ 32 :: tail) stack = .error .tooLong ∨
      ∃ tail', retokenize (ascii "%%BeginResource: " ++ type ++ 32 :: tail) stack =
        .ok ⟨ascii "%%BeginResource: " ++ type ++ 32 :: tail', stack, false⟩ := fun tail =>
    (retokenize_cases _ stack).imp_right fun hok => ⟨tail, hok⟩
  unfold oldDscToNew
  rw [htokens]
  cases k with
  | file =>
    have hfirst : ∀ p ∈ structureMarks, p.2 = .opens .file → p.1 = "%%BeginFile:" := by decide
    have hold : oldCommentOf (ascii "%%BeginFile:") = some .beginFile := by decide
    obtain rfl := Option.some.inj hk
    rw [hfirst p hp hpk]
    dsimp only
    rw [hold]
    cases args with
    | nil => exact .inl ⟨rfl, rfl⟩
    | cons name args => exact .inr ⟨by simp, hnew name⟩
  | font =>
    have hfirst : ∀ p ∈ structureMarks, p.2 = .opens .font → p.1 = "%%BeginFont:" := by decide
    have hold : oldCommentOf (ascii "%%BeginFont:") = some .beginFont := by decide
    obtain rfl := Option.some.inj hk
    rw [hfirst p hp hpk]
    dsimp only
    rw [hold]
    cases args with
    | nil => exact .inl ⟨rfl, rfl⟩
    | cons name args => exact .inr ⟨by simp, hnew name⟩
  | procSet =>
    have hfirst : ∀ p ∈ structureMarks, p.2 = .opens .procSet → p.1 = "%%BeginProcSet:" := by decide
    have hold : oldCommentOf (ascii "%%BeginProcSet:") = some .beginProcSet := by decide
    obtain rfl := Option.some.inj hk
    rw [hfirst p hp hpk]
    dsimp only
    rw [hold]
    cases args with
    | nil => exact .inl ⟨rfl, rfl⟩
    | cons name args => exact .inr ⟨by simp, hnew (((line.drop 15).dropWhile isBlank).take 255)⟩
  | document => cases hk
  | resource => cases hk
  | eps => cases hk

/-- The end of an old structure. -/
theorem old_closes {k : StructureKind} {line : List Byte} (stack : List NestType)
    (hk : k.oldType ≠ none) (hmark : markOfKeyword (keywordOf line) = some (.closes k)) :
    ∃ line', markOfKeyword (keywordOf line') = some (.closes k) ∧
      oldDscToNew line stack = endOldResource line' stack := by
  obtain ⟨args, htokens⟩ := tokenize_of_mark hmark
  obtain ⟨p, hp, hkey, hpk⟩ := markOfKeyword_eq hmark
  unfold oldDscToNew
  rw [htokens, hkey]
  rw [hkey] at hmark
  cases k with
  | file =>
    have hfirst : ∀ p ∈ structureMarks, p.2 = .closes .file → p.1 = "%%EndFile" := by decide
    have hold : oldCommentOf (ascii "%%EndFile") = some .endFile := by decide
    rw [hfirst p hp hpk] at hkey ⊢
    refine ⟨line, by rw [hkey]; decide, ?_⟩
    dsimp only
    rw [hold]
  | font =>
    have hfirst : ∀ p ∈ structureMarks, p.2 = .closes .font → p.1 = "%%EndFont" := by decide
    have hold : oldCommentOf (ascii "%%EndFont") = some .endFont := by decide
    rw [hfirst p hp hpk] at hkey ⊢
    refine ⟨line, by rw [hkey]; decide, ?_⟩
    dsimp only
    rw [hold]
  | procSet =>
    have hfirst : ∀ p ∈ structureMarks, p.2 = .closes .procSet →
        p.1 = "%%EndProcSet" ∨ p.1 = "%%EndProcSet:" ∨ p.1 = "%%EndProcset" := by decide
    have hnew : markOfKeyword (keywordOf (ascii "%%EndProcSet")) = some (.closes .procSet) := by decide
    rcases hfirst p hp hpk with hp | hp | hp
    · have hold : oldCommentOf (ascii "%%EndProcSet") = some .endProcSet := by decide
      rw [hp] at hkey ⊢
      refine ⟨line, by rw [hkey]; decide, ?_⟩
      dsimp only
      rw [hold]
    · have hold : oldCommentOf (ascii "%%EndProcSet:") = some .endProcSetColon := by decide
      rw [hp]
      refine ⟨_, hnew, ?_⟩
      dsimp only
      rw [hold]
    · have hold : oldCommentOf (ascii "%%EndProcset") = some .endProcset := by decide
      rw [hp]
      refine ⟨_, hnew, ?_⟩
      dsimp only
      rw [hold]
  | document => exact absurd rfl hk
  | resource => exact absurd rfl hk
  | eps => exact absurd rfl hk

/-! ## What a line does -/

/-- A line that is not taken for one of the outer document. -/
def IsPlain (line : List Byte) : Prop :=
  lmatch line "%%Page:" = false ∧ line ≠ ascii "%%Trailer" ∧ line ≠ ascii "%%EOF"

/-- The result of a line that is followed. -/
def GoesTo (x : Except NestError NestLine) (opened opened' : List OpenStructure) (line : List Byte) : Prop :=
  x = .error .tooLong ∨ ∃ r, x = .ok r ∧ r.stack = opened'.map OpenStructure.nestType ∧ r.ignored = false ∧
    MadeNew opened line r.line ∧ (opened' = [] → opened ≠ [] → IsPlain r.line)

theorem isPlain_of_closes {line : List Byte} {k : StructureKind}
    (h : markOfKeyword (keywordOf line) = some (.closes k)) : IsPlain line := by
  refine ⟨?_, ?_, ?_⟩
  · cases hpage : lmatch line "%%Page:" with
    | false => rfl
    | true =>
      obtain ⟨t, rfl⟩ := List.isPrefixOf_iff_prefix.1 hpage
      have hnone : markOfKeyword (ascii "%%Page:") = none := by decide
      have hkey : keywordOf (ascii "%%Page:" ++ t) = ascii "%%Page:" := rfl
      rw [hkey, hnone] at h
      cases h
  · rintro rfl
    have hnone : markOfKeyword (keywordOf (ascii "%%Trailer")) = none := by decide
    rw [hnone] at h
    cases h
  · rintro rfl
    have hnone : markOfKeyword (keywordOf (ascii "%%EOF")) = none := by decide
    rw [hnone] at h
    cases h

theorem nestLine_marked {badeps : Bool} {s : NestState} {reader : Reader} {line : List Byte} {m : StructureMark}
    (h : markOf line = some m) :
    nestLine badeps s reader line = oldDscToNew (commentText line) s.stack >>= nestSwitch badeps := by
  unfold markOf at h
  split_ifs at h with hshort
  obtain ⟨p, hp, hkey, -⟩ := markOfKeyword_eq h
  have hupper : ∀ p ∈ structureMarks, ∃ c rest, ascii p.1 = 37 :: 37 :: c :: rest ∧ isupper c = true := by
    intro p hp
    simp only [structureMarks, List.mem_cons, List.not_mem_nil, or_false] at hp
    rcases hp with rfl | rfl | rfl | rfl | rfl | rfl | rfl | rfl | rfl | rfl | rfl | rfl <;>
      exact ⟨_, _, rfl, rfl⟩
  obtain ⟨c, rest, hc, hupper⟩ := hupper p hp
  obtain ⟨text, htext⟩ := head_of_keyword hshort (hkey.trans hc)
  have hfirst : (c :: text).head?.any isupper = true := hupper
  have hlen : retokenize (commentText line) s.stack = .ok ⟨commentText line, s.stack, false⟩ :=
    if_pos (length_commentText hshort)
  rw [nestLine_comment hshort htext (.inl hfirst) (simplifyLine_comment hshort htext hfirst), hlen]
  rfl

/-- The switch does not know the old comments. -/
theorem notMem_switchKeywords {p : String × StructureMark} (hp : p ∈ structureMarks) {k : StructureKind}
    (hpk : p.2 = .opens k ∨ p.2 = .closes k) (hk : k.oldType ≠ none) : ascii p.1 ∉ switchKeywords := by
  have hall : ∀ p ∈ structureMarks, ascii p.1 ∈ switchKeywords →
      p.2 ∈ [.opens .document, .closes .document, .opens .resource, .closes .resource] := by decide
  intro hmem
  have hnew := hall p hp hmem
  simp only [List.mem_cons, List.not_mem_nil, or_false] at hnew
  rcases hpk with hpk | hpk <;> rw [hpk] at hnew <;> cases k <;> simp at hnew <;> exact hk rfl

/-- A line that begins a structure. -/
theorem opens_goesTo {badeps : Bool} {s : NestState} {l : Reader × List Byte} {k : StructureKind}
    {opened : List OpenStructure} (hstack : s.stack = opened.map OpenStructure.nestType)
    (hmark : markOf l.2 = some (.opens k)) :
    GoesTo (nestLine badeps s l.1 l.2) opened (⟨k, (tokenize (commentText l.2)).length ≠ 1⟩ :: opened) l.2 := by
  have hkeyword : markOfKeyword (keywordOf (commentText l.2)) = some (.opens k) := by
    unfold markOf at hmark
    split_ifs at hmark
    exact hmark
  obtain ⟨args, htokens⟩ := tokenize_of_mark hkeyword
  obtain ⟨p, hp, hkey, hpk⟩ := markOfKeyword_eq hkeyword
  rw [nestLine_marked hmark]
  -- A structure of the new style.
  have hnew : ∀ key leveltype, ascii p.1 = key → oldCommentOf key = none → k.oldType = none →
      (∀ r : NestLine, keywordOf r.line = key → nestSwitch badeps r = .ok (r.push leveltype)) →
      (OpenStructure.mk k (decide ((tokenize (commentText l.2)).length ≠ 1))).nestType = leveltype →
        GoesTo (oldDscToNew (commentText l.2) s.stack >>= nestSwitch badeps) opened
          (⟨k, (tokenize (commentText l.2)).length ≠ 1⟩ :: opened) l.2 := by
    intro key leveltype hpkey hold htype hswitch hnest
    rw [oldDscToNew_cons htokens (by rw [hkey, hpkey, hold])]
    refine .inr ⟨_, hswitch _ (hkey.trans hpkey), ?_, rfl, ?_, fun h => by cases h⟩
    · rw [List.map_cons, hnest, ← hstack]
      rfl
    · unfold MadeNew
      rw [hmark]
      intro type hsome
      rw [htype] at hsome
      cases hsome
  -- A structure of the old style.
  have hold : ∀ type, k.oldType = some type →
      (∀ worded, (OpenStructure.mk k worded).nestType = if worded then .res else .badRes) →
        GoesTo (oldDscToNew (commentText l.2) s.stack >>= nestSwitch badeps) opened
          (⟨k, (tokenize (commentText l.2)).length ≠ 1⟩ :: opened) l.2 := by
    intro type htype hnest
    have hother : keywordOf (commentText l.2) ∉ switchKeywords := by
      rw [hkey]
      exact notMem_switchKeywords hp (.inl hpk) (by rw [htype]; exact Option.some_ne_none _)
    have heof : commentText l.2 ≠ ascii "%%EOF" := by
      intro heq
      have hnone : markOfKeyword (keywordOf (ascii "%%EOF")) = none := by decide
      rw [heq, hnone] at hkeyword
      cases hkeyword
    rcases old_opens s.stack htype hkeyword with ⟨hlen, hline⟩ | ⟨hlen, hline | ⟨tail, hline⟩⟩
    · rw [hline]
      refine .inr ⟨_, nestSwitch_other hother heof, ?_, rfl, ?_, fun h => by cases h⟩
      · rw [List.map_cons, hnest, ← hstack, hlen]
        rfl
      · unfold MadeNew
        rw [hmark]
        exact fun type _ hwords => absurd hlen hwords
    · rw [hline]
      exact .inl rfl
    · have hpush : nestSwitch badeps ⟨ascii "%%BeginResource: " ++ type ++ 32 :: tail, s.stack, false⟩ =
          .ok ⟨ascii "%%BeginResource: " ++ type ++ 32 :: tail, .res :: s.stack, false⟩ := nestSwitch_opens rfl
      rw [hline]
      refine .inr ⟨_, hpush, ?_, rfl, ?_, fun h => by cases h⟩
      · rw [List.map_cons, hnest, ← hstack, if_pos (decide_eq_true hlen)]
      · unfold MadeNew
        rw [hmark]
        intro type' htype' _
        obtain rfl := Option.some.inj (htype.symm.trans htype')
        exact ⟨tail, rfl⟩
  cases k with
  | document =>
    have hfirst : ∀ p ∈ structureMarks, p.2 = .opens .document → p.1 = "%%BeginDocument:" := by decide
    refine hnew (ascii "%%BeginDocument:") .doc (by rw [hfirst p hp hpk]) (by decide) rfl (fun r hr => ?_) rfl
    rw [nestSwitch, if_pos hr]
  | resource =>
    have hfirst : ∀ p ∈ structureMarks, p.2 = .opens .resource → p.1 = "%%BeginResource:" := by decide
    exact hnew (ascii "%%BeginResource:") .res (by rw [hfirst p hp hpk]) (by decide) rfl
      (fun r hr => nestSwitch_opens hr) rfl
  | file => exact hold _ rfl fun worded => rfl
  | font => exact hold _ rfl fun worded => rfl
  | procSet => exact hold _ rfl fun worded => rfl
  | eps =>
    have hnone : ∀ p ∈ structureMarks, p.2 ≠ .opens .eps := by decide
    exact absurd hpk (hnone p hp)

/-- A line that ends the innermost structure. -/
theorem closes_goesTo {badeps : Bool} {s : NestState} {l : Reader × List Byte} {o : OpenStructure}
    {opened : List OpenStructure} (hstack : s.stack = (o :: opened).map OpenStructure.nestType)
    (hmark : markOf l.2 = some (.closes o.kind))
    (hbare : o.kind = .document → commentText l.2 = ascii "%%EndDocument")
    (hbare' : o.kind = .resource → commentText l.2 = ascii "%%EndResource") :
    GoesTo (nestLine badeps s l.1 l.2) (o :: opened) opened l.2 := by
  have hkeyword : markOfKeyword (keywordOf (commentText l.2)) = some (.closes o.kind) := by
    unfold markOf at hmark
    split_ifs at hmark
    exact hmark
  rw [nestLine_marked hmark, hstack, List.map_cons]
  -- A structure of the new style.
  have hnew : ∀ key leveltype, commentText l.2 = key → o.nestType = leveltype → o.kind.oldType = none →
      (oldDscToNew key (leveltype :: opened.map OpenStructure.nestType) >>= nestSwitch badeps) =
        .ok ⟨key, opened.map OpenStructure.nestType, false⟩ → IsPlain key →
        GoesTo (oldDscToNew (commentText l.2) (o.nestType :: opened.map OpenStructure.nestType) >>=
          nestSwitch badeps) (o :: opened) opened l.2 := by
    intro key leveltype hkey hnest htype hline hplain
    rw [hkey, hnest]
    refine .inr ⟨_, hline, rfl, rfl, ?_, fun _ _ => hplain⟩
    unfold MadeNew
    rw [hmark]
    intro o' ho' hold
    obtain rfl := Option.some.inj ho'
    exact absurd htype hold
  -- A structure of the old style.
  have hold : o.kind.oldType ≠ none → o.nestType = (if o.worded then .res else .badRes) →
      GoesTo (oldDscToNew (commentText l.2) (o.nestType :: opened.map OpenStructure.nestType) >>=
        nestSwitch badeps) (o :: opened) opened l.2 := by
    intro htype hnest
    obtain ⟨line', hmark', hline⟩ :=
      old_closes (o.nestType :: opened.map OpenStructure.nestType) htype hkeyword
    rw [hline, hnest]
    cases hworded : o.worded with
    | true =>
      have hpop : (endOldResource line' (.res :: opened.map OpenStructure.nestType) >>= nestSwitch badeps) =
          .ok ⟨ascii "%%EndResource", opened.map OpenStructure.nestType, false⟩ := rfl
      have hplain : IsPlain (ascii "%%EndResource") := isPlain_of_closes (k := .resource) (by decide)
      refine .inr ⟨_, hpop, rfl, rfl, ?_, fun _ _ => hplain⟩
      unfold MadeNew
      rw [hmark]
      exact fun _ _ _ _ => rfl
    | false =>
      obtain ⟨p, hp, hkey, hpk⟩ := markOfKeyword_eq hmark'
      have hplain := isPlain_of_closes hmark'
      have hswitch : nestSwitch badeps ⟨line', opened.map OpenStructure.nestType, false⟩ =
          .ok ⟨line', opened.map OpenStructure.nestType, false⟩ :=
        nestSwitch_other (by rw [hkey]; exact notMem_switchKeywords hp (.inr hpk) htype) hplain.2.2
      refine .inr ⟨_, hswitch, rfl, rfl, ?_, fun _ _ => hplain⟩
      unfold MadeNew
      rw [hmark]
      intro o' ho' _ hworded'
      obtain rfl := Option.some.inj ho'
      rw [hworded] at hworded'
      cases hworded'
  obtain ⟨k, worded⟩ := o
  cases k with
  | document => exact hnew _ .doc (hbare rfl) rfl rfl rfl (isPlain_of_closes (k := .document) (by decide))
  | resource => exact hnew _ .res (hbare' rfl) rfl rfl rfl (isPlain_of_closes (k := .resource) (by decide))
  | file => exact hold (Option.some_ne_none _) rfl
  | font => exact hold (Option.some_ne_none _) rfl
  | procSet => exact hold (Option.some_ne_none _) rfl
  | eps =>
    obtain ⟨p, hp, -, hpk⟩ := markOfKeyword_eq hkeyword
    have hnone : ∀ p ∈ structureMarks, p.2 ≠ .closes .eps := by decide
    exact absurd hpk (hnone p hp)

theorem keep_goesTo {x : Except NestError NestLine} {new line : List Byte} {opened : List OpenStructure}
    (hmark : markOf line = none) (hx : x = .ok ⟨new, opened.map OpenStructure.nestType, false⟩) :
    GoesTo x opened opened line := by
  refine .inr ⟨_, hx, rfl, rfl, ?_, fun h hne => absurd h hne⟩
  unfold MadeNew
  rw [hmark]
  trivial

theorem head?_nestType {opened : List OpenStructure} :
    (opened.map OpenStructure.nestType).head? = some .badEps ↔
      opened.head?.map OpenStructure.kind = some .eps := by
  cases opened with
  | nil => simp
  | cons o opened =>
    obtain ⟨k, worded⟩ := o
    cases k <;> cases worded <;> simp [OpenStructure.nestType]

/-- A comment that is rewritten and looked at, but neither begins nor ends a structure. -/
theorem unmarked_goesTo {badeps : Bool} {new line : List Byte} {opened opened' : List OpenStructure}
    (hmark : markOf line = none) (hnew : markOfKeyword (keywordOf new) = none)
    (hopen : opened' = if badeps = true ∧ new = ascii "%%EOF" ∧
      opened.head?.map OpenStructure.kind = some .eps then opened.tail else opened) :
    GoesTo (oldDscToNew new (opened.map OpenStructure.nestType) >>= nestSwitch badeps) opened opened' line := by
  have hswitch := @nestSwitch_unmarked badeps new (opened.map OpenStructure.nestType) hnew
  by_cases heof : new = ascii "%%EOF"
  · have hold : oldDscToNew (ascii "%%EOF") (opened.map OpenStructure.nestType) =
        .ok ⟨ascii "%%EOF", opened.map OpenStructure.nestType, false⟩ :=
      @oldDscToNew_cons _ (ascii "%%EOF") [] _ (by decide) (by decide)
    subst heof
    rw [hold]
    by_cases hpop : badeps = true ∧ opened.head?.map OpenStructure.kind = some .eps
    · rw [if_pos ⟨hpop.1, rfl, head?_nestType.2 hpop.2⟩] at hswitch
      rw [if_pos ⟨hpop.1, rfl, hpop.2⟩] at hopen
      have hplain : IsPlain (ascii "%%EOF\n%%EndDocument") := ⟨by decide, by decide, by decide⟩
      refine .inr ⟨_, hswitch, by rw [hopen, List.map_tail], rfl, ?_, fun _ _ => hplain⟩
      unfold MadeNew
      rw [hmark]
      trivial
    · rw [if_neg fun h => hpop ⟨h.1, head?_nestType.1 h.2.2⟩] at hswitch
      rw [if_neg fun h => hpop ⟨h.1, h.2.2⟩] at hopen
      rw [hopen]
      exact keep_goesTo hmark hswitch
  · rw [if_neg fun h => heof h.2.1] at hopen hswitch
    rw [hopen]
    rcases @old_unmarked badeps new (opened.map OpenStructure.nestType) hnew with h | h | ⟨new', h⟩
    · exact .inl h
    · exact keep_goesTo hmark (h.trans hswitch)
    · exact keep_goesTo hmark h

/-- A continuation line that is expanded has a blank in it. -/
theorem simplifyContinuation_ne_eof (st : Simplifier) {text : List Byte} (h : text ≠ ascii "%%EOF") :
    simplifyContinuation st text ≠ ascii "%%EOF" := by
  unfold simplifyContinuation
  split_ifs
  · exact h
  · intro heq
    have hblank : (32 : Byte) ∈ ascii "%%EOF" := by
      rw [← heq]
      simp
    exact absurd hblank (by decide)

/-- The line as it was, if it is no comment of the conventions. -/
theorem nestLine_plain {badeps : Bool} {s : NestState} {reader : Reader} {line t : List Byte}
    (hshort : isShortComment line = true) (ht : commentText line = 37 :: t) (hbang : t.head? ≠ some 33)
    (hcomment : ∀ text, t = 37 :: text → ¬(text.head?.any isupper = true ∨ text.head? = some 43)) :
    nestLine badeps s reader line = .ok ⟨(simplifyLine s.simplifier line).2.line, s.stack, false⟩ := by
  rw [isShortComment, Bool.and_eq_true, decide_eq_true_eq, decide_eq_true_eq] at hshort
  unfold nestLine
  dsimp only
  rw [if_neg (not_or.2 ⟨not_not.2 hshort.1, not_lt.2 hshort.2⟩), ht, List.drop_one, List.tail_cons]
  split
  · exact absurd rfl hbang
  · rename_i text
    exact if_neg (hcomment text rfl)
  · rfl

theorem nestLine_bang {badeps : Bool} {s : NestState} {reader : Reader} {line t : List Byte}
    (hshort : isShortComment line = true) (ht : commentText line = 37 :: 33 :: t) :
    nestLine badeps s reader line =
      if isEpsHeader (commentText line) = true ∧ s.stack = [] ∧ reader ≠ .header ∧ badeps = true then
        .ok ⟨ascii "%%BeginDocument:\n" ++ commentText line, [.badEps], false⟩
      else .ok ⟨commentText line, s.stack, false⟩ := by
  have hnew : (simplifyLine s.simplifier line).2.line = commentText line := by
    rw [isShortComment, Bool.and_eq_true, decide_eq_true_eq, decide_eq_true_eq] at hshort
    unfold simplifyLine
    rw [if_neg (not_not.2 hshort.1), if_neg (not_lt.2 hshort.2), ht]
    rfl
  rw [isShortComment, Bool.and_eq_true, decide_eq_true_eq, decide_eq_true_eq] at hshort
  unfold nestLine
  rw [hnew, if_neg (not_or.2 ⟨not_not.2 hshort.1, not_lt.2 hshort.2⟩), ht]
  rfl

theorem lmatch_bang {c : Byte} {t : List Byte} : lmatch (37 :: c :: t) "%!" = true ↔ c = 33 := by
  constructor
  · intro h
    obtain ⟨t', ht⟩ := List.isPrefixOf_iff_prefix.1 h
    exact (List.cons.inj (List.cons.inj ht).2).1.symm
  · rintro rfl
    exact List.isPrefixOf_iff_prefix.2 ⟨t, rfl⟩

/-- A line that neither begins nor ends a structure. -/
theorem other_goesTo {badeps : Bool} {s : NestState} {l : Reader × List Byte} {opened opened' : List OpenStructure}
    (hstack : s.stack = opened.map OpenStructure.nestType) (hmark : markOf l.2 = none)
    (hopen : openStep badeps opened l = some opened')
    (hcont : isShortComment l.2 = true → lmatch (commentText l.2) "%%+" = true →
      markOfKeyword (keywordOf (simplifyContinuation s.simplifier (commentText l.2))) = none) :
    GoesTo (nestLine badeps s l.1 l.2) opened opened' l.2 := by
  unfold openStep at hopen
  rw [hmark] at hopen
  dsimp only at hopen
  cases hshort : isShortComment l.2 with
  | false =>
    rw [if_neg (by simp [hshort]), if_neg (by simp [hshort])] at hopen
    rw [← Option.some.inj hopen]
    exact keep_goesTo hmark (by rw [nestLine_other hshort, hstack])
  | true =>
    have hkeyword : markOfKeyword (keywordOf (commentText l.2)) = none := by
      rwa [markOf, if_pos hshort] at hmark
    obtain ⟨t, ht⟩ := commentText_of_short hshort
    by_cases hbang : t.head? = some 33
    · obtain ⟨t', rfl⟩ : ∃ t', t = 33 :: t' := by
        cases t with
        | nil => cases hbang
        | cons c t' => exact ⟨t', congrArg (· :: t') (Option.some.inj hbang)⟩
      have hne : commentText l.2 ≠ ascii "%%EOF" := fun h =>
        absurd (List.cons.inj (List.cons.inj (ht.symm.trans h)).2).1 (by decide)
      rw [nestLine_bang hshort ht]
      by_cases heps : badeps = true ∧ opened = [] ∧ l.1 ≠ .header ∧ isEpsHeader (commentText l.2) = true
      · obtain ⟨hbad, rfl, hreader, hheader⟩ := heps
        rw [if_pos ⟨hbad, hshort, rfl, hreader, by rw [ht]; exact lmatch_bang.2 rfl, hheader⟩] at hopen
        rw [if_pos ⟨hheader, hstack, hreader, hbad⟩, ← Option.some.inj hopen]
        refine .inr ⟨_, rfl, rfl, rfl, ?_, fun _ h => absurd rfl h⟩
        unfold MadeNew
        rw [hmark]
        trivial
      · rw [if_neg fun h => heps ⟨h.1, h.2.2.1, h.2.2.2.1, h.2.2.2.2.2⟩, if_neg fun h => hne h.2.2.1] at hopen
        have hno : ¬(isEpsHeader (commentText l.2) = true ∧ s.stack = [] ∧ l.1 ≠ .header ∧ badeps = true) :=
          fun h => heps ⟨h.2.2.2, List.map_eq_nil_iff.1 (hstack.symm.trans h.2.1), h.2.2.1, h.1⟩
        rw [if_neg hno, ← Option.some.inj hopen, hstack]
        exact keep_goesTo hmark rfl
    -- No EPS header begins here.
    have hopen : opened' = if badeps = true ∧ commentText l.2 = ascii "%%EOF" ∧
        opened.head?.map OpenStructure.kind = some .eps then opened.tail else opened := by
      have hno : lmatch (commentText l.2) "%!" ≠ true := by
        rw [ht]
        cases t with
        | nil => decide
        | cons c t' => exact fun h => hbang (congrArg some (lmatch_bang.1 h))
      rw [if_neg fun h => hno h.2.2.2.2.1] at hopen
      by_cases hpop : badeps = true ∧ commentText l.2 = ascii "%%EOF" ∧
          opened.head?.map OpenStructure.kind = some .eps
      · rw [if_pos ⟨hpop.1, hshort, hpop.2⟩] at hopen
        rw [if_pos hpop, Option.some.inj hopen]
      · rw [if_neg fun h => hpop ⟨h.1, h.2.2⟩] at hopen
        rw [if_neg hpop, Option.some.inj hopen]
    by_cases hcomment : ∃ text, t = 37 :: text ∧ (text.head?.any isupper = true ∨ text.head? = some 43)
    swap
    · have hne : commentText l.2 ≠ ascii "%%EOF" := fun h => hcomment
        ⟨ascii "EOF", (List.cons.inj (ht.symm.trans h)).2, .inl (by decide)⟩
      rw [if_neg fun h => hne h.2.1] at hopen
      have hline : nestLine badeps s l.1 l.2 = .ok ⟨_, s.stack, false⟩ :=
        nestLine_plain hshort ht hbang fun text htext h => hcomment ⟨text, htext, h⟩
      rw [hopen]
      rw [hstack] at hline
      exact keep_goesTo hmark hline
    obtain ⟨text, rfl, hcomment⟩ := hcomment
    by_cases hupper : text.head?.any isupper = true
    · have hlen : retokenize (commentText l.2) s.stack = .ok ⟨commentText l.2, s.stack, false⟩ :=
        if_pos (length_commentText hshort)
      rw [nestLine_comment hshort ht hcomment (simplifyLine_comment hshort ht hupper), hlen, hstack]
      exact unmarked_goesTo hmark hkeyword hopen
    · have hplus := hcomment.resolve_left hupper
      obtain ⟨text', rfl⟩ : ∃ text', text = 43 :: text' := by
        cases text with
        | nil => cases hplus
        | cons c text' => exact ⟨text', congrArg (· :: text') (Option.some.inj hplus)⟩
      have hne : commentText l.2 ≠ ascii "%%EOF" := fun h =>
        absurd (List.cons.inj (List.cons.inj (List.cons.inj (ht.symm.trans h)).2).2).1 (by decide)
      have hcont := hcont hshort (by rw [ht]; exact List.isPrefixOf_iff_prefix.2 ⟨text', rfl⟩)
      rw [nestLine_comment hshort ht hcomment (simplifyLine_continued hshort ht)]
      rcases retokenize_cases (simplifyContinuation s.simplifier (commentText l.2)) s.stack with hlen | hlen
      · rw [hlen]
        exact .inl rfl
      · rw [hlen, hstack]
        refine unmarked_goesTo hmark hcont ?_
        rw [if_neg fun h => simplifyContinuation_ne_eof _ hne h.2.1, hopen, if_neg fun h => hne h.2.1]

/-! ## A document -/

theorem line_goesTo {badeps : Bool} {s : NestState} {l : Reader × List Byte} {opened opened' : List OpenStructure}
    (hstack : s.stack = opened.map OpenStructure.nestType) (hopen : openStep badeps opened l = some opened')
    (hcont : isShortComment l.2 = true → lmatch (commentText l.2) "%%+" = true →
      markOfKeyword (keywordOf (simplifyContinuation s.simplifier (commentText l.2))) = none)
    (hbare : markOf l.2 = some (.closes .document) → commentText l.2 = ascii "%%EndDocument")
    (hbare' : markOf l.2 = some (.closes .resource) → commentText l.2 = ascii "%%EndResource") :
    GoesTo (nestLine badeps s l.1 l.2) opened opened' l.2 := by
  cases hmark : markOf l.2 with
  | none => exact other_goesTo hstack hmark hopen hcont
  | some m =>
    unfold openStep at hopen
    rw [hmark] at hopen hbare hbare'
    cases m with
    | opens k =>
      rw [← Option.some.inj hopen]
      exact opens_goesTo hstack hmark
    | closes k =>
      cases opened with
      | nil => cases hopen
      | cons o opened =>
        dsimp only at hopen
        split_ifs at hopen with hk
        obtain rfl := Option.some.inj hopen
        rw [← hk] at hmark hbare hbare'
        exact closes_goesTo hstack hmark (fun h => hbare (by rw [h])) fun h => hbare' (by rw [h])

/-- What is remembered before a line. -/
theorem nestAfter_open {badeps : Bool} {ls rest : List (Reader × List Byte)} (hcont : Uncontinued (ls ++ rest))
    (hbare : BareEnds (ls ++ rest)) {s : NestState} (hs : nestAfter badeps ls = .ok s) {opened : List OpenStructure}
    (hopen : openAfter badeps ls = some opened) :
    s.simplifier = simplifierAfter ls ∧ s.stack = opened.map OpenStructure.nestType := by
  induction ls using List.reverseRecOn generalizing rest s opened with
  | nil =>
    obtain rfl := Except.ok.inj hs
    obtain rfl := Option.some.inj hopen
    exact ⟨rfl, rfl⟩
  | append_singleton ls l ih =>
    rw [List.append_assoc] at hcont hbare
    have hlines : ls ++ ([l] ++ rest) = ls ++ l :: rest := rfl
    rw [nestAfter, List.foldlM_append] at hs
    rw [openAfter, List.foldlM_append] at hopen
    obtain ⟨s', hs', hs⟩ := Outcome.bind_eq_ok hs
    obtain ⟨opened', hopen', hopen⟩ := Option.bind_eq_some_iff.1 hopen
    obtain ⟨hsimplifier, hstack⟩ := ih hcont hbare hs' hopen'
    have hs : nestStep badeps s' l = .ok s := by
      rw [← hs, List.foldlM_cons]
      exact (bind_pure _).symm
    have hopen : openStep badeps opened' l = some opened := by
      rw [← hopen, List.foldlM_cons]
      exact (bind_pure _).symm
    obtain ⟨r, hr, hs⟩ := Outcome.bind_eq_ok hs
    obtain rfl := Except.ok.inj hs
    refine ⟨by rw [simplifierAfter, List.foldl_append, hsimplifier]; rfl, ?_⟩
    have hmem := hbare l (List.mem_append_right _ List.mem_cons_self)
    rcases line_goesTo hstack hopen (hsimplifier ▸ hcont ls l rest hlines) hmem.1 hmem.2 with
      herror | ⟨r', hr', hstack', -⟩
    · rw [hr] at herror
      cases herror
    · obtain rfl := Except.ok.inj (hr.symm.trans hr')
      exact hstack'

theorem takesComment_nested {reader : Reader} {level : ℕ} (h : level ≠ 0) (line : List Byte) :
    takesComment reader level line = false := by
  cases reader <;> simp [takesComment, h]

theorem takesComment_plain {reader : Reader} {level : ℕ} {line : List Byte} (h : IsPlain line) :
    takesComment reader level line = false := by
  obtain ⟨hpage, htrailer, heof⟩ := h
  cases reader <;> simp [takesComment, hpage, htrailer, heof]

/-- The levels follow a document in which no begin or end comment is continued, and the ends of documents and
resources have no arguments. -/
theorem followed_of_uncontinued (badeps : Bool) {ls : List (Reader × List Byte)} (hcont : Uncontinued ls)
    (hbare : BareEnds ls) : Followed badeps ls := by
  rintro before l after rfl s hs opened opened' hopened hopen
  obtain ⟨hsimplifier, hstack⟩ := nestAfter_open hcont hbare hs hopened
  have hmem := hbare l (List.mem_append_right _ List.mem_cons_self)
  have hgoes := line_goesTo hstack hopen (hsimplifier ▸ hcont before l after rfl) hmem.1 hmem.2
  have hok : ∀ r, nestLine badeps s l.1 l.2 = .ok r → r.stack = opened'.map OpenStructure.nestType ∧
      r.ignored = false ∧ MadeNew opened l.2 r.line ∧ (opened' = [] → opened ≠ [] → IsPlain r.line) := by
    intro r hr
    rcases hgoes with herror | ⟨r', hr', h⟩
    · rw [hr] at herror
      cases herror
    · obtain rfl := Except.ok.inj (hr.symm.trans hr')
      exact h
  refine ⟨?_, fun r hr => ?_, fun r hr => (hok r hr).2.1, fun r hr => (hok r hr).2.2.1, fun r hr hin reader => ?_⟩
  · rcases hgoes with herror | ⟨r, hr, -⟩
    · rw [herror]
      exact fun h => NestError.noConfusion (Except.error.inj h)
    · rw [hr]
      exact fun h => by cases h
  · rw [(hok r hr).1, List.length_map]
  · obtain ⟨hlevel, -, -, hplain⟩ := hok r hr
    by_cases hclosed : opened' = []
    · exact takesComment_plain (hplain hclosed (hin.resolve_right fun h => h hclosed))
    · refine takesComment_nested (fun h => hclosed ?_) _
      rw [hlevel, List.length_map] at h
      exact List.length_eq_zero_iff.1 h

/-- A document within a font, with a procset that has no name. -/
def nestedFont : List (Reader × List Byte) :=
  [(.header, ascii "%!PS-Adobe-3.0"), (.prolog, ascii "%%BeginFont: Times"),
    (.prolog, ascii "%%BeginDocument: sample.ps"), (.prolog, ascii "%%Page: 1 1"), (.prolog, ascii "%%Trailer"),
    (.prolog, ascii "%%EOF"), (.prolog, ascii "%%EndDocument"), (.prolog, ascii "%%BeginProcSet:"),
    (.prolog, ascii "%%EndProcset"), (.prolog, ascii "%%EndFont"), (.pages, ascii "%%Page: 1 1")]

theorem followed_nestedFont : (openAfter false nestedFont).isSome = true ∧ Followed false nestedFont := by
  have hnone : ∀ l ∈ nestedFont, lmatch (commentText l.2) "%%+" = false := by decide
  have hbare : BareEnds nestedFont := by
    unfold BareEnds
    decide
  refine ⟨by decide, followed_of_uncontinued false ?_ hbare⟩
  intro before l after hlines _ hplus
  rw [hnone l (by rw [hlines]; exact List.mem_append_right _ List.mem_cons_self)] at hplus
  cases hplus

/-- A continued comment begins another level, the end of a document with an argument ends none, and the comments
of an old structure without an argument stay as they are. -/
theorem levels_astray :
    ((nestAfter false [(.prolog, ascii "%%BeginFont: Times"), (.prolog, ascii "%%+ Bold")]).map
        fun s => s.stack.length) = .ok 2 ∧
      ((openAfter false [(.prolog, ascii "%%BeginFont: Times"), (.prolog, ascii "%%+ Bold")]).map List.length) =
        some 1 ∧
      ((nestAfter false [(.prolog, ascii "%%BeginDocument: a"), (.prolog, ascii "%%EndDocument a")]).map
        fun s => s.stack.length) = .ok 1 ∧
      ((openAfter false [(.prolog, ascii "%%BeginDocument: a"), (.prolog, ascii "%%EndDocument a")]).map
        List.length) = some 0 ∧
      (nestLine false nestStart .prolog (ascii "%%BeginFont:")).map NestLine.line = .ok (ascii "%%BeginFont:") ∧
      (nestLine false ⟨simplifierStart, [.badRes]⟩ .prolog (ascii "%%EndFont")).map NestLine.line =
        .ok (ascii "%%EndFont") := by
  decide

end Ppr
