import Ppr.Pprdrv.Precedence

/-!
# Looking features up

The entries of a PPD file as they are written, and what `find_feature()` finds of them.  `Entry` and
`lookup` know nothing of the hash table, of the names that are stored or of the ways in which
`read_PPD_file()` reads the lines of some keywords.
-/

namespace Ppr.Pprdrv

/-! ## Entries -/

/-- The keyword and the option of a line. -/
def nameOf (line : List Byte) : List Byte := line.takeWhile fun c => c ≠ 47 ∧ c ≠ 58

def keywordOf (line : List Byte) : List Byte := (nameOf line).takeWhile (!isBlank ·)

def optionOf (line : List Byte) : Option (List Byte) :=
  match (((nameOf line).dropWhile (!isBlank ·)).dropWhile isBlank).rdropWhile isBlank with
  | [] => none
  | option => some option

/-- What is behind a quote. -/
def afterQuote : List Byte → Option (List Byte)
  | 34 :: p => some p
  | _ => none

theorem afterQuote_eq_some {p q : List Byte} (h : afterQuote p = some q) : p = 34 :: q := by
  unfold afterQuote at h
  split at h
  · cases h
    rfl
  · cases h

/-- What is behind the opening quote of a value. -/
def quotedOf (line : List Byte) : Option (List Byte) :=
  match line.dropWhile (· ≠ 58) with
  | [] => none
  | _ :: rest => afterQuote (rest.dropWhile isBlank)

/-- `*Keyword Option/translation: "value"`, with the line on which it begins. -/
structure Entry where
  line : List Byte
  value : List Byte

/-- A line that is no comment and begins with a keyword. -/
def isKeywordLine (line : List Byte) : Bool := line.head? = some 42 && line.tail.head? ≠ some 37

theorem isKeywordLine_iff {line : List Byte} :
    isKeywordLine line = true ↔ line.head? = some 42 ∧ line.tail.head? ≠ some 37 := by
  rw [isKeywordLine, Bool.and_eq_true, decide_eq_true_iff, decide_eq_true_iff]

/-- The value that begins on a line, outside of values. -/
def valueBegun (line : List Byte) : Option (List Byte) :=
  if isKeywordLine line then quotedOf line else none

/-- The lines of a value joined by newlines. -/
def joined (texts : List (List Byte)) : List Byte :=
  [newline].intercalate (texts.filter (· ≠ []))

/-- The entries of a PPD file; the first argument is the line on which a value has begun, with the
lines of it. -/
def entriesFrom : Option (List Byte × List (List Byte)) → List (List Byte) → List Entry
  | _, [] => []
  | none, line :: lines =>
    match valueBegun line with
    | none => entriesFrom none lines
    | some p =>
      if 34 ∈ p then ⟨line, joined [untilQuote p]⟩ :: entriesFrom none lines
      else entriesFrom (some (line, [p])) lines
  | some (first, texts), line :: lines =>
    if 34 ∈ line then ⟨first, joined (texts ++ [untilQuote line])⟩ :: entriesFrom none lines
    else entriesFrom (some (first, texts ++ [line])) lines

/-- The lines that begin with a keyword, outside of values. -/
def keywordLines : Bool → List (List Byte) → List (List Byte)
  | _, [] => []
  | true, line :: lines => keywordLines (34 ∉ line) lines
  | false, line :: lines =>
    (if isKeywordLine line then [line] else []) ++
      keywordLines ((valueBegun line).any fun p => 34 ∉ p) lines

/-- The value of the first entry. -/
def lookup (es : List Entry) (keyword : List Byte) (option : Option (List Byte)) :
    Option (List Byte) :=
  (es.find? fun e => keywordOf e.line = keyword ∧ optionOf e.line = option).map (·.value)

/-- The line has one of the keywords that `read_PPD_file()` takes for itself. -/
def isTaken (line : List Byte) : Bool :=
  match known? line with
  | none | some (.paper _) | some (.languageLevel _) => false
  | _ => true

/-! ## Names -/

/-- Several spaces are one. -/
def squeeze : List Byte → List Byte
  | [] => []
  | c :: s => if c = 32 ∧ s.head? = some 32 then squeeze s else c :: squeeze s

/-- The name under which an entry is looked for. -/
def fullName (keyword : List Byte) : Option (List Byte) → List Byte
  | none => keyword
  | some option => keyword ++ 32 :: option

/-- Only spaces stand between the words of a name, none behind them, and the name is not too long. -/
def PlainName (line : List Byte) : Prop :=
  squeeze (nameOf line) = fullName (keywordOf line) (optionOf line) ∧
    (squeeze (nameOf line)).length ≤ maxPpdname

/-- There is white space behind the colon. -/
def BlankBehindColon (line : List Byte) : Prop :=
  (line.dropWhile (· ≠ 58)).tail.head?.any isBlank

/-- What the theorem on lookups asks of a line with a keyword, outside of values. -/
def Regular (line : List Byte) : Prop :=
  match known? line, quotedOf line with
  -- An entry has white space behind the colon and a plain name.
  | none, some _ => BlankBehindColon line ∧ PlainName line
  -- No other line looks like an entry if the character behind the colon is passed over.
  | none, none => PpdState.valueOf line = none
  -- The value is neither unquoted nor empty and it is all on the line.
  | some (.paper _), some p => BlankBehindColon line ∧ PlainName line ∧ 34 ∈ p ∧ p.head? ≠ some 34
  | some (.paper _), none => (line.dropWhile (· ≠ 58)).length ≤ 1
  | some (.languageLevel _), some p => PlainName line ∧ 34 ∈ p
  | some _, some p => 34 ∈ p
  | some _, none => True

/-! ## Lines with a keyword that is looked for -/

instance (line : List Byte) : Decidable (Regular line) := by
  unfold Regular BlankBehindColon PlainName
  split <;> infer_instance

theorem known?_paper {line p : List Byte} (h : known? line = some (.paper p)) :
    lmatchsp line "*ImageableArea" = some p ∨ lmatchsp line "*PaperDimension" = some p := by
  simp only [known?, passed, Option.orElse_eq_orElse, Option.orElse_eq_or, Option.or_eq_some_iff,
    Option.map_eq_some_iff] at h
  simp at h
  tauto

theorem known?_languageLevel {line p : List Byte} (h : known? line = some (.languageLevel p)) :
    lmatchp line "*LanguageLevel:" = some p := by
  simp only [known?, passed, Option.orElse_eq_orElse, Option.orElse_eq_or, Option.or_eq_some_iff,
    Option.map_eq_some_iff] at h
  simp at h
  tauto

/-- What is behind the colon of a line with a key. -/
theorem dropWhile_of_lmatchp {line p : List Byte} {key : String} (h : lmatchp line key = some p)
    (hk : ∀ c ∈ ascii key, c ≠ 58) : line.dropWhile (· ≠ 58) = p.dropWhile (· ≠ 58) := by
  unfold lmatchp at h
  split_ifs at h with hm
  obtain ⟨rest, rfl⟩ := List.isPrefixOf_iff_prefix.1 hm
  cases h
  rw [List.drop_left, List.dropWhile_append_of_pos fun c hc => decide_eq_true (hk c hc)]
  clear hm
  induction rest with
  | nil => rfl
  | cons c rest ih =>
    by_cases hc : isBlank c = true
    · have h58 : c ≠ 58 := by
        rintro rfl
        cases hc
      rw [List.dropWhile_cons_of_pos hc, List.dropWhile_cons_of_pos (by simpa using h58)]
      exact ih
    · rw [List.dropWhile_cons_of_neg hc]

theorem dropWhile_of_paper {line p : List Byte} (h : known? line = some (.paper p)) :
    line.dropWhile (· ≠ 58) = p.dropWhile (· ≠ 58) := by
  have matched : ∀ {key : String}, lmatchsp line key = some p → lmatchp line key = some p := by
    intro key h
    unfold lmatchsp at h
    split_ifs at h
    exact h
  rcases known?_paper h with h | h
  · exact dropWhile_of_lmatchp (matched h) (by decide)
  · exact dropWhile_of_lmatchp (matched h) (by decide)

theorem quotedOf_languageLevel {line p : List Byte} (h : known? line = some (.languageLevel p)) :
    quotedOf line = afterQuote p := by
  have hm := known?_languageLevel h
  unfold lmatchp at hm
  split_ifs at hm with hl
  obtain ⟨rest, rfl⟩ := List.isPrefixOf_iff_prefix.1 hl
  cases hm
  rw [List.drop_left]
  rfl

/-- With white space behind the colon nothing is lost. -/
theorem valueOf_eq_quotedOf {line : List Byte} (h : BlankBehindColon line) :
    PpdState.valueOf line = quotedOf line := by
  obtain ⟨c, hc, hb⟩ := (Option.any_eq_true ..).1 h
  unfold PpdState.valueOf quotedOf
  cases hd : line.dropWhile (· ≠ 58) with
  | nil => rfl
  | cons a rest =>
    rw [hd] at hc
    obtain ⟨rest, rfl⟩ : ∃ more, rest = c :: more := by
      cases rest with
      | nil => cases hc
      | cons b rest =>
        cases hc
        exact ⟨rest, rfl⟩
    show _ = afterQuote ((c :: rest).dropWhile isBlank)
    rw [List.dropWhile_cons_of_pos hb]
    rfl

/-! ## Names that are stored -/

theorem squeeze_space (s : List Byte) : squeeze (32 :: s) = 32 :: squeeze (s.dropWhile (· = 32)) := by
  induction s with
  | nil => rfl
  | cons c s ih =>
    rw [squeeze]
    by_cases hc : c = 32
    · subst hc
      rw [if_pos ⟨rfl, rfl⟩, ih, List.dropWhile_cons_of_pos (by decide)]
    · rw [if_neg fun h => hc (Option.some.inj h.2), List.dropWhile_cons_of_neg (by simpa using hc)]

theorem nameOf_dropWhile (name : List Byte) :
    nameOf (name.dropWhile (· = 32)) = (nameOf name).dropWhile (· = 32) := by
  induction name with
  | nil => rfl
  | cons c name ih =>
    by_cases hc : c = 32
    · subst hc
      rw [List.dropWhile_cons_of_pos (by decide), ih, nameOf, nameOf,
        List.takeWhile_cons_of_pos (by decide), List.dropWhile_cons_of_pos (by decide)]
    · rw [List.dropWhile_cons_of_neg (by simpa using hc), nameOf, List.takeWhile_cons]
      split
      · rw [List.dropWhile_cons_of_neg (by simpa using hc)]
      · rfl

theorem storedName_eq (n : ℕ) (name : List Byte) :
    PpdState.storedName n name = (squeeze (nameOf name)).take n := by
  induction n generalizing name with
  | zero => rw [PpdState.storedName, List.take_zero]
  | succ n ih =>
    cases name with
    | nil => rfl
    | cons c name =>
      rw [PpdState.storedName, nameOf]
      split_ifs with hc hs
      · rw [List.takeWhile_cons_of_neg (by rcases hc with rfl | rfl <;> decide)]
        rfl
      · subst hs
        rw [List.takeWhile_cons_of_pos (by decide), squeeze_space, List.take_succ_cons, ih,
          nameOf_dropWhile, nameOf]
      · rw [List.takeWhile_cons_of_pos (by simpa [not_or] using hc), squeeze, if_neg fun h => hs h.1,
          List.take_succ_cons, ih, nameOf]

theorem storedName_of_plainName {line : List Byte} (h : PlainName line) :
    PpdState.storedName maxPpdname line = fullName (keywordOf line) (optionOf line) := by
  rw [storedName_eq, List.take_of_length_le h.2, h.1]

/-! ## The table -/

/-- What is stored of an entry. -/
def Entry.stored (e : Entry) : PpdStr := (fullName (keywordOf e.line) (optionOf e.line), e.value)

/-- The slots of the table together hold `es`. -/
def PpdState.Holds (s : PpdState) (es : List PpdStr) : Prop :=
  ∀ h, s.ppdstr h = es.filter fun e => hash e.1 ppdTabsize = h

/-- The lines that were read have left `es` in the table and the value `begun` unfinished. -/
def PpdState.Reads (s : PpdState) (es : List PpdStr) : Option (List Byte × List (List Byte)) → Prop
  | none => s.instring = false ∧ s.Holds es
  | some (first, texts) =>
    s.instring = true ∧ s.Holds es ∧ s.ppdname = fullName (keywordOf first) (optionOf first) ∧
      s.ppdtext = joined texts ∧ isTaken first = false

theorem joined_append (texts : List (List Byte)) (x : List Byte) :
    joined (texts ++ [x]) =
      if x = [] then joined texts
      else if joined texts = [] then x
      else joined texts ++ newline :: x := by
  have concat : ∀ l : List (List Byte), l ≠ [] →
      [newline].intercalate (l ++ [x]) = [newline].intercalate l ++ newline :: x := by
    intro l
    induction l with
    | nil => exact fun h => absurd rfl h
    | cons a l ih =>
      intro
      rw [List.cons_append, List.intercalate_cons_of_ne_nil (by simp)]
      by_cases hl : l = []
      · subst hl
        simp
      · rw [ih hl, List.intercalate_cons_of_ne_nil hl, List.append_assoc, List.append_assoc]
        simp
  unfold joined
  rw [List.filter_append]
  by_cases hx : x = []
  · rw [if_pos hx, List.filter_cons_of_neg (by simpa using hx), List.filter_nil, List.append_nil]
  · rw [if_neg hx, List.filter_cons_of_pos (by simpa using hx), List.filter_nil]
    cases hl : texts.filter (· ≠ []) with
    | nil => rw [if_pos List.intercalate_nil, List.nil_append, List.intercalate_singleton]
    | cons a l =>
      have ha : a ≠ [] := by
        have := List.mem_filter.1 (hl ▸ List.mem_cons_self ..)
        simpa using this.2
      rw [if_neg ?_, concat _ (List.cons_ne_nil a l)]
      by_cases hne : l = []
      · subst hne
        rwa [List.intercalate_singleton]
      · rw [List.intercalate_cons_of_ne_nil hne]
        simp [ha]

theorem joined_singleton (x : List Byte) : joined [x] = x := by
  have h := joined_append [] x
  rw [List.nil_append] at h
  rw [h]
  by_cases hx : x = []
  · rw [if_pos hx, hx]
    rfl
  · rw [if_neg hx, if_pos (by rfl)]

namespace PpdState

open Outcome

variable {s t : PpdState} {es : List PpdStr}

theorem Holds.endString (h : s.Holds es) : s.endString.Holds (es ++ [(s.ppdname, s.ppdtext)]) := by
  intro k
  rw [PpdState.endString, List.filter_append]
  dsimp only
  by_cases hk : hash s.ppdname ppdTabsize = k
  · rw [hk, Function.update_self, h k,
      List.filter_cons_of_pos (by simpa using hk), List.filter_nil]
  · rw [Function.update_of_ne (Ne.symm hk), h k, List.filter_cons_of_neg (by simpa using hk),
      List.filter_nil, List.append_nil]

/-- A line is appended to the text, unless it does not fit. -/
theorem stringLine_ensures_eq {string : List Byte} (hx : string ≠ [] ∨ s.ppdtext = []) :
    Ensures (s.stringLine string) fun t => t = { s with
      ppdtext := if s.ppdtext = [] then string else s.ppdtext ++ newline :: string } := by
  unfold stringLine
  dsimp only
  apply ensures_ite <;> intro hlen
  · exact ensures_error
  · apply ensures_ok
    by_cases hnil : s.ppdtext = []
    · rw [if_pos hnil, hnil, if_neg (by simp), List.nil_append]
    · have hx : string ≠ [] := hx.resolve_right hnil
      have hpos := List.length_pos_of_ne_nil hx
      have hfull : s.ppdtext.length ≠ maxPpdtext := by
        intro hfull
        rw [if_neg fun h => h.2 hfull] at hlen
        omega
      rw [if_neg hnil, if_pos ⟨fun h => hnil (List.length_eq_zero_iff.1 h), hfull⟩,
        List.append_assoc]
      rfl

theorem wholeString_ensures_holds (h : s.Holds es) (name string : List Byte) :
    Ensures (s.wholeString name string) fun t =>
      t.Reads (es ++ [(storedName maxPpdname name, string)]) none := by
  have hnil : (s.newString name).ppdtext = [] := rfl
  refine (stringLine_ensures_eq (Or.inr hnil)).bind fun t ht => ensures_ok ⟨rfl, ?_⟩
  rw [if_pos hnil] at ht
  subst ht
  exact Holds.endString h

/-- A line of a value that has begun before. -/
theorem valueLine_reads {first line : List Byte} {texts : List (List Byte)}
    (h : s.Reads es (some (first, texts))) :
    Ensures (s.line line) fun t =>
      if 34 ∈ line then t.Reads (es ++ [Entry.stored ⟨first, joined (texts ++ [untilQuote line])⟩]) none
      else t.Reads es (some (first, texts ++ [line])) := by
  obtain ⟨hin, hes, hname, htext, htaken⟩ := h
  rw [PpdState.line, if_pos hin]
  -- The text is what it should be, and the value ends at a quote.
  have ended : ∀ t : PpdState, t.instring = true → t.Holds es →
      t.ppdname = fullName (keywordOf first) (optionOf first) →
      t.ppdtext = joined (texts ++ [untilQuote line]) →
      Ensures (.ok (if 34 ∈ line then t.endString else t) : Except FatalError PpdState) fun t =>
        if 34 ∈ line then
          t.Reads (es ++ [Entry.stored ⟨first, joined (texts ++ [untilQuote line])⟩]) none
        else t.Reads es (some (first, texts ++ [line])) := by
    intro t ht hes hname htext
    apply ensures_ok
    by_cases hq : 34 ∈ line
    · rw [if_pos hq, if_pos hq]
      have stored := hes.endString
      rw [hname, htext] at stored
      exact ⟨rfl, stored⟩
    · have hline : untilQuote line = line := by
        rw [untilQuote, List.takeWhile_eq_self_iff]
        intro c hc
        exact decide_eq_true fun e => hq (e ▸ hc)
      rw [if_neg hq, if_neg hq]
      rw [hline] at htext
      exact ⟨ht, hes, hname, htext, htaken⟩
  unfold valueLine
  apply ensures_ite <;> intro hx
  · refine (stringLine_ensures_eq (Or.inl hx)).bind fun t ht => ?_
    subst ht
    refine ended _ hin hes hname ?_
    rw [joined_append, if_neg hx, ← htext]
  · refine ended s hin hes hname ?_
    rw [joined_append, if_pos (not_not.1 hx), htext]

/-- A value that begins. -/
theorem otherLine_reads {line p : List Byte} (h : s.Reads es none) (hp : valueOf line = some p)
    (hn : PlainName line) (ht : isTaken line = false) :
    Ensures (s.otherLine line) fun t =>
      if 34 ∈ p then t.Reads (es ++ [Entry.stored ⟨line, joined [untilQuote p]⟩]) none
      else t.Reads es (some (line, [p])) := by
  unfold otherLine
  rw [hp]
  have hnil : (s.newString line).ppdtext = [] := rfl
  refine (stringLine_ensures_eq (Or.inr hnil)).bind fun t ht => ensures_ok ?_
  rw [if_pos hnil] at ht
  subst ht
  by_cases hq : 34 ∈ p
  · rw [if_pos hq, if_pos hq, joined_singleton]
    have stored := Holds.endString (s := { s.newString line with ppdtext := untilQuote p }) h.2
    rw [show ({ s.newString line with ppdtext := untilQuote p } : PpdState).ppdname =
      fullName (keywordOf line) (optionOf line) from storedName_of_plainName hn] at stored
    exact ⟨rfl, stored⟩
  · have hp' : untilQuote p = p := by
      rw [untilQuote, List.takeWhile_eq_self_iff]
      intro c hc
      exact decide_eq_true fun e => hq (e ▸ hc)
    rw [if_neg hq, if_neg hq, hp']
    exact ⟨rfl, h.2, storedName_of_plainName hn, (joined_singleton p).symm, ht⟩

theorem paperLine_reads {line p q : List Byte} (h : s.Reads es none)
    (hd : line.dropWhile (· ≠ 58) = p.dropWhile (· ≠ 58)) (hb : BlankBehindColon line)
    (hq : quotedOf line = some q) (hne : q.head? ≠ some 34) (hn : PlainName line) :
    Ensures (s.paperLine line p) fun t =>
      t.Reads (es ++ [Entry.stored ⟨line, joined [untilQuote q]⟩]) none := by
  obtain ⟨a, c, rest, hline⟩ : ∃ a c rest, line.dropWhile (· ≠ 58) = a :: c :: rest := by
    obtain ⟨c, hc, -⟩ := (Option.any_eq_true ..).1 hb
    cases hl : line.dropWhile (· ≠ 58) with
    | nil =>
      rw [hl] at hc
      cases hc
    | cons a rest =>
      rw [hl] at hc
      cases rest with
      | nil => cases hc
      | cons c rest => exact ⟨a, c, rest, rfl⟩
  have hrest : rest.dropWhile isBlank = 34 :: q := by
    rw [← valueOf_eq_quotedOf hb, valueOf, hline] at hq
    dsimp only at hq
    split at hq
    · rename_i p' he
      cases hq
      exact he
    · cases hq
  have hvalue : untilQuote ((rest.dropWhile isBlank).dropWhile (· = 34)) = untilQuote q := by
    rw [hrest, List.dropWhile_cons_of_pos (by decide)]
    cases q with
    | nil => rfl
    | cons b q =>
      rw [List.dropWhile_cons_of_neg]
      simpa using hne
  unfold paperLine
  rw [← hd, hline, joined_singleton, Entry.stored, ← storedName_of_plainName hn, ← hvalue]
  have moved : Ensures (s.papersizeMoveto (line.take (line.length - rest.length - 1))) fun t =>
      t.Holds es := by
    unfold papersizeMoveto
    apply ensures_ite <;> intro
    · exact ensures_ok h.2
    apply ensures_ite <;> intro
    · exact ensures_error
    · exact ensures_ok h.2
  exact moved.bind fun t ht => wholeString_ensures_holds ht _ _

theorem languageLevel_reads {line q : List Byte} (h : s.Reads es none) (hn : PlainName line) :
    Ensures (s.languageLevel line (34 :: q)) fun t =>
      t.Reads (es ++ [Entry.stored ⟨line, joined [untilQuote q]⟩]) none := by
  rw [joined_singleton, Entry.stored, ← storedName_of_plainName hn]
  have hes : PpdState.Holds { s with
      features := { s.features with languageLevel := atoi (untilQuote q) } } es := h.2
  exact wholeString_ensures_holds hes _ _

/-- The other keywords leave the table as it is. -/
theorem known_reads {line : List Byte} {k : Known} (h : s.Reads es none) (hk : known? line = some k)
    (ht : isTaken line = true) : Ensures (s.known line k) fun t => t.Reads es none := by
  have table : Ensures (s.known line k) fun t => t.ppdstr = s.ppdstr := by
    rw [isTaken, hk] at ht
    cases k with
    | paper p => cases ht
    | languageLevel p => cases ht
    | cupsFilter p =>
      apply ensures_ok
      unfold cupsFilter
      split
      · rfl
      · split_ifs <;> rfl
    | colorDevice p =>
      apply ensures_ok
      unfold colorDevice
      split <;> rfl
    | pprRip p =>
      rw [known, pprRip]
      split
      · exact ensures_ok rfl
      · intro t ht
        obtain ⟨rip, -, ht⟩ := bind_eq_ok ht
        cases ht
        rfl
    | _ => exact ensures_ok rfl
  intro t hok
  refine ⟨(s.known_ensures line k h.1 t hok).2, fun i => ?_⟩
  rw [table t hok]
  exact h.2 i

/-- A line outside of values. -/
theorem line_reads {line : List Byte} (h : s.Reads es none)
    (hr : isKeywordLine line = true → Regular line) :
    Ensures (s.line line) fun t =>
      match valueBegun line with
      | none => t.Reads es none
      | some p =>
        if 34 ∈ p then
          t.Reads (es ++
            if isTaken line then [] else [Entry.stored ⟨line, joined [untilQuote p]⟩]) none
        else t.Reads es (some (line, [p])) := by
  rw [PpdState.line, h.1, if_neg (by decide)]
  by_cases hkey : isKeywordLine line = true
  · have hr := hr hkey
    obtain ⟨h42, h37⟩ := isKeywordLine_iff.1 hkey
    rw [if_pos h42, if_neg h37, valueBegun, if_pos hkey]
    by_cases ht : isTaken line = true
    · obtain ⟨k, hk⟩ : ∃ k, known? line = some k := by
        cases hk : known? line with
        | none =>
          rw [isTaken, hk] at ht
          cases ht
        | some k => exact ⟨k, rfl⟩
      rw [hk]
      refine (known_reads h hk ht).mono fun t hreads => ?_
      cases hq : quotedOf line with
      | none => exact hreads
      | some p =>
        have hp : 34 ∈ p := by
          rw [Regular, hk, hq] at hr
          rw [isTaken, hk] at ht
          cases k <;> first | exact hr | cases ht
        dsimp only
        rwa [if_pos hp, if_pos ht, List.append_nil]
    · have ht : isTaken line = false := by simpa using ht
      have stored : ∀ {x : Except FatalError PpdState} {p : List Byte}, 34 ∈ p →
          Ensures x (fun t => t.Reads (es ++ [Entry.stored ⟨line, joined [untilQuote p]⟩]) none) →
          Ensures x fun t =>
            if 34 ∈ p then t.Reads (es ++ [Entry.stored ⟨line, joined [untilQuote p]⟩]) none
            else t.Reads es (some (line, [p])) := by
        intro x p hp hx
        refine hx.mono fun t ht => ?_
        rwa [if_pos hp]
      rw [Regular] at hr
      simp only [ht, Bool.false_eq_true, if_false]
      cases hk : known? line with
      | none =>
        rw [hk] at hr
        cases hq : quotedOf line with
        | none =>
          rw [hq] at hr
          rw [otherLine, show valueOf line = none from hr]
          exact ensures_ok h
        | some p =>
          rw [hq] at hr
          exact otherLine_reads h ((valueOf_eq_quotedOf hr.1).trans hq) hr.2 ht
      | some k =>
        rw [isTaken, hk] at ht
        rw [hk] at hr
        cases k with
        | paper p =>
          cases hq : quotedOf line with
          | none =>
            rw [hq] at hr
            have hr : (line.dropWhile (· ≠ 58)).length ≤ 1 := hr
            rw [dropWhile_of_paper hk] at hr
            dsimp only [known]
            unfold paperLine
            split
            · rename_i hl
              rw [hl, List.length_cons, List.length_cons] at hr
              omega
            · exact ensures_ok h
          | some q =>
            rw [hq] at hr
            obtain ⟨hb, hn, hclosed, hne⟩ := hr
            exact stored hclosed (paperLine_reads h (dropWhile_of_paper hk) hb hq hne hn)
        | languageLevel p =>
          have hp := quotedOf_languageLevel hk
          cases hq : quotedOf line with
          | none =>
            rw [hq] at hp
            dsimp only [known]
            unfold languageLevel
            split
            · cases hp
            · exact ensures_ok h
          | some q =>
            rw [hq] at hr hp
            obtain ⟨hn, hclosed⟩ := hr
            rw [afterQuote_eq_some hp.symm]
            exact stored hclosed (languageLevel_reads h hn)
        | _ => cases ht
  · have hskip : Ensures (.ok s : Except FatalError PpdState) fun t => t.Reads es none := ensures_ok h
    rw [valueBegun, if_neg hkey]
    by_cases h42 : line.head? = some 42
    · have h37 : line.tail.head? = some 37 := by
        by_contra h37
        exact hkey (isKeywordLine_iff.2 ⟨h42, h37⟩)
      rwa [if_pos h42, if_pos h37]
    · rwa [if_neg h42]

/-- The entries that are kept, as they are stored. -/
def stored (es : List Entry) : List PpdStr := (es.filter fun e => !isTaken e.line).map Entry.stored

theorem stored_cons (e : Entry) (es : List Entry) :
    stored (e :: es) = (if isTaken e.line then [] else [e.stored]) ++ stored es := by
  rw [stored, stored, List.filter_cons]
  cases isTaken e.line <;> rfl

/-- All the lines of a PPD file. -/
theorem foldlM_reads (lines : List (List Byte)) {begun : Option (List Byte × List (List Byte))}
    (h : s.Reads es begun) (hr : ∀ line ∈ keywordLines begun.isSome lines, Regular line) :
    Ensures (lines.foldlM PpdState.line s) fun t =>
      ∃ begun', t.Reads (es ++ stored (entriesFrom begun lines)) begun' := by
  induction lines generalizing s es begun with
  | nil =>
    apply ensures_ok
    refine ⟨begun, ?_⟩
    rw [entriesFrom.eq_def]
    cases begun <;> exact (List.append_nil es).symm ▸ h
  | cons line lines ih =>
    rw [List.foldlM_cons]
    cases begun with
    | none =>
      rw [Option.isSome_none, keywordLines] at hr
      have hline : isKeywordLine line = true → Regular line := by
        intro hkey
        apply hr
        rw [if_pos hkey]
        exact List.mem_append_left _ (List.mem_singleton_self line)
      have hrest : ∀ l ∈ keywordLines ((valueBegun line).any fun p => 34 ∉ p) lines, Regular l :=
        fun l hl => hr l (List.mem_append_right _ hl)
      refine (line_reads h hline).bind fun t ht => ?_
      rw [entriesFrom]
      cases hv : valueBegun line with
      | none =>
        rw [hv] at ht hrest
        exact ih ht hrest
      | some p =>
        rw [hv, Option.any_some] at hrest
        rw [hv] at ht
        dsimp only at ht ⊢
        by_cases hq : 34 ∈ p
        · rw [if_pos hq] at ht ⊢
          rw [decide_eq_false (not_not.2 hq)] at hrest
          refine (ih ht hrest).mono fun u hu => ?_
          rwa [stored_cons, ← List.append_assoc]
        · rw [if_neg hq] at ht ⊢
          rw [decide_eq_true hq] at hrest
          exact ih ht hrest
    | some value =>
      obtain ⟨first, texts⟩ := value
      have htaken : isTaken first = false := h.2.2.2.2
      rw [Option.isSome_some, keywordLines] at hr
      refine (valueLine_reads h).bind fun t ht => ?_
      rw [entriesFrom]
      by_cases hq : 34 ∈ line
      · rw [if_pos hq] at ht ⊢
        rw [decide_eq_false (not_not.2 hq)] at hr
        refine (ih ht hr).mono fun u hu => ?_
        rwa [stored_cons, if_neg (by simp [htaken]), ← List.append_assoc]
      · rw [if_neg hq] at ht ⊢
        rw [decide_eq_true hq] at hr
        exact ih ht hr

end PpdState

/-! ## What is found -/

theorem hash2_eq (keyword : List Byte) {option : Option (List Byte)} (ho : option ≠ some [])
    (tabsize : ℕ) : hash2 keyword option tabsize = hash (fullName keyword option) tabsize := by
  cases option with
  | none => rfl
  | some option =>
    have hne : option ≠ [] := fun h => ho (congrArg some h)
    unfold hash2 hash fullName
    dsimp only
    rw [if_neg hne, List.foldl_append, List.foldl_cons]

/-- Names of different entries differ. -/
theorem fullName_inj {k k' : List Byte} {o o' : Option (List Byte)} (hk : 32 ∉ k) (hk' : 32 ∉ k') :
    fullName k o = fullName k' o' ↔ k = k' ∧ o = o' := by
  have before : ∀ {k : List Byte} {o : Option (List Byte)}, 32 ∉ k →
      (fullName k o).takeWhile (· ≠ 32) = k := by
    intro k o hk
    have all : ∀ c ∈ k, decide (c ≠ 32) = true := fun c hc => decide_eq_true fun e => hk (e ▸ hc)
    cases o with
    | none => exact List.takeWhile_eq_self_iff.2 all
    | some o =>
      rw [fullName, List.takeWhile_append_of_pos all, List.takeWhile_cons_of_neg (by decide),
        List.append_nil]
  constructor
  · intro h
    obtain rfl : k = k' := by rw [← before hk, h, before hk']
    refine ⟨rfl, ?_⟩
    cases o <;> cases o' <;> simp [fullName] at h
    · rfl
    · rw [h]
  · rintro ⟨rfl, rfl⟩
    rfl

theorem notMem_keywordOf (line : List Byte) : 32 ∉ keywordOf line := by
  intro h
  have := List.mem_takeWhile_imp h
  cases this

/-- `find_feature()` with an option compares whole names. -/
theorem findIn_some (keyword option : List Byte) (es : List PpdStr) :
    findIn keyword (some option) es =
      .ok ((es.find? fun e => e.1 = fullName keyword (some option)).map (·.2)) := by
  induction es with
  | nil => rfl
  | cons e es ih =>
    obtain ⟨name, value⟩ := e
    unfold findIn
    by_cases hp : keyword.isPrefixOf name = true
    · obtain ⟨rest, rfl⟩ := List.isPrefixOf_iff_prefix.1 hp
      rw [if_pos hp, List.drop_left]
      have hname : keyword ++ rest = fullName keyword (some option) ↔ rest = 32 :: option :=
        List.append_right_inj keyword
      split
      · rename_i h
        cases h
      · rename_i h
        cases h
      · rename_i rest' option' ho
        cases ho
        split_ifs with he
        · subst he
          rw [List.find?_cons_of_pos (by exact decide_eq_true (hname.2 rfl))]
          rfl
        · rw [ih, List.find?_cons_of_neg]
          rw [decide_eq_true_iff, hname]
          exact fun h => he (List.cons.inj h).2
      · rename_i hne
        rw [ih, List.find?_cons_of_neg]
        rw [decide_eq_true_iff, hname]
        rintro rfl
        exact hne _ _ rfl rfl
    · rw [if_neg hp, ih, List.find?_cons_of_neg]
      rw [decide_eq_true_iff]
      rintro rfl
      exact hp (List.isPrefixOf_iff_prefix.2 (List.prefix_append ..))

/-- Without an option a name is passed over if it is neither the keyword nor the keyword with an
option. -/
theorem findIn_none_cons {keyword name value : List Byte} {es : List PpdStr} (hne : name ≠ keyword)
    (ho : ∀ rest, name ≠ keyword ++ 32 :: rest) :
    findIn keyword none ((name, value) :: es) = findIn keyword none es := by
  conv_lhs => unfold findIn
  by_cases hp : keyword.isPrefixOf name = true
  · obtain ⟨rest, rfl⟩ := List.isPrefixOf_iff_prefix.1 hp
    rw [if_pos hp, List.drop_left]
    split
    · exact absurd (List.append_nil keyword) hne
    · exact absurd rfl (ho _)
    · rename_i h
      cases h
    · rfl
  · rw [if_neg hp]

/-- Before the entry without an option no other entry with the keyword is in its slot. -/
def SlotSafe (es : List Entry) (keyword : List Byte) : Prop :=
  ∀ e ∈ es.takeWhile fun e => ¬ (keywordOf e.line = keyword ∧ optionOf e.line = none),
    keywordOf e.line = keyword → hash e.stored.1 ppdTabsize ≠ hash keyword ppdTabsize

/-- The slot of a name, of those that hold the entries. -/
theorem findIn_slot {keyword : List Byte} {option : Option (List Byte)} (hk : 32 ∉ keyword)
    (es : List Entry) (hs : option = none → SlotSafe es keyword) :
    findIn keyword option ((es.map Entry.stored).filter fun e =>
        hash e.1 ppdTabsize = hash (fullName keyword option) ppdTabsize) =
      .ok (lookup es keyword option) := by
  have name_iff : ∀ e : Entry, e.stored.1 = fullName keyword option ↔
      keywordOf e.line = keyword ∧ optionOf e.line = option :=
    fun e => fullName_inj (notMem_keywordOf e.line) hk
  cases option with
  | some option =>
    have absorb : ∀ e : Entry,
        (hash e.stored.1 ppdTabsize = hash (fullName keyword (some option)) ppdTabsize ∧
          keywordOf e.line = keyword ∧ optionOf e.line = some option) ↔
        (keywordOf e.line = keyword ∧ optionOf e.line = some option) :=
      fun e => ⟨fun h => h.2, fun h => ⟨by rw [(name_iff e).2 h], h⟩⟩
    rw [findIn_some, List.find?_filter, List.find?_map, lookup, Option.map_map]
    simp only [Function.comp_def, decide_eq_true_iff, name_iff, absorb]
    rfl
  | none =>
    have hs := hs rfl
    induction es with
    | nil => rfl
    | cons e es ih =>
      rw [List.map_cons]
      by_cases he : keywordOf e.line = keyword ∧ optionOf e.line = none
      · have hname : e.stored.1 = keyword := (name_iff e).2 he
        have hfirst : ∀ l, findIn keyword none (e.stored :: l) = .ok (some e.value) := by
          intro l
          rw [← Prod.mk.eta (p := e.stored), hname]
          unfold findIn
          rw [if_pos (List.isPrefixOf_iff_prefix.2 (List.prefix_refl _)), List.drop_length]
          rfl
        rw [List.filter_cons_of_pos (by rw [hname]; exact decide_eq_true rfl), hfirst, lookup,
          List.find?_cons_of_pos (by exact decide_eq_true he)]
        rfl
      · have hbefore : ∀ e' ∈ es.takeWhile fun e =>
            ¬ (keywordOf e.line = keyword ∧ optionOf e.line = none),
            e' ∈ (e :: es).takeWhile fun e =>
              ¬ (keywordOf e.line = keyword ∧ optionOf e.line = none) := by
          intro e' he'
          rw [List.takeWhile_cons_of_pos (by exact decide_eq_true he)]
          exact List.mem_cons_of_mem e he'
        have ih := ih (fun _ => fun e' he' => hs e' (hbefore e' he')) fun e' he' => hs e' (hbefore e' he')
        rw [lookup, List.find?_cons_of_neg (by simpa using he), ← lookup, ← ih]
        by_cases hslot : hash e.stored.1 ppdTabsize = hash (fullName keyword none) ppdTabsize
        · rw [List.filter_cons_of_pos (by exact decide_eq_true hslot)]
          refine findIn_none_cons (fun h => he ((name_iff e).1 h)) fun rest h => ?_
          have h : fullName (keywordOf e.line) (optionOf e.line) = fullName keyword (some rest) := h
          have hkey := ((fullName_inj (notMem_keywordOf e.line) hk).1 h).1
          refine hs e ?_ hkey hslot
          rw [List.takeWhile_cons_of_pos (by exact decide_eq_true he)]
          exact List.mem_cons_self ..
        · rw [List.filter_cons_of_neg (by simpa using hslot)]

/-- The lines of a PPD file, with those of the files it includes. -/
def expanded (files : PpdFiles) (ppdFileName : List Byte) : List (List Byte) :=
  match files.ppdLines ppdFileName with
  | .ok delivered => delivered.1
  | .error _ => []

/-- The entries of a PPD file. -/
def entries (files : PpdFiles) (ppdFileName : List Byte) : List Entry :=
  entriesFrom none (expanded files ppdFileName)

/-- Of a PPD file that is regular, `find_feature()` finds the first entry, of those with a keyword
that is not taken. -/
theorem findFeature_eq_lookup {files : PpdFiles} {outputOrder : ℤ} {rip : Option Rip}
    {ppdFileName : List Byte} {t : PpdState}
    (h : readPpdFile files outputOrder rip (some ppdFileName) = .ok t)
    (hr : ∀ line ∈ keywordLines false (expanded files ppdFileName), Regular line)
    {keyword : List Byte} (hk : 32 ∉ keyword) {option : Option (List Byte)} (ho : option ≠ some [])
    (hs : option = none →
      SlotSafe ((entries files ppdFileName).filter fun e => !isTaken e.line) keyword) :
    t.findFeature keyword option =
      .ok (lookup ((entries files ppdFileName).filter fun e => !isTaken e.line) keyword option) := by
  rw [readPpdFile] at h
  rw [expanded] at hr
  rw [entries, expanded] at hs ⊢
  cases hd : files.ppdLines ppdFileName with
  | error e =>
    rw [hd] at h
    cases h
  | ok delivered =>
    rw [hd] at h hr hs
    obtain ⟨u, hu, h⟩ := Outcome.bind_eq_ok h
    have start : PpdState.Reads { outputOrder := outputOrder, rip := rip } [] none :=
      ⟨rfl, fun _ => rfl⟩
    obtain ⟨begun, hreads⟩ := PpdState.foldlM_reads delivered.1 start hr u hu
    have holds : u.Holds (PpdState.stored (entriesFrom none delivered.1)) := by
      cases begun with
      | none => exact hreads.2
      | some value => exact hreads.2.1
    cases hend : delivered.2 with
    | some e =>
      rw [hend] at h
      cases h
    | none =>
      rw [hend] at h
      cases h
      rw [PpdState.findFeature, hash2_eq keyword ho, ← findIn_slot hk _ hs]
      exact congrArg _ (holds _)

/-- A PPD file with two entries of one keyword, of which the second goes over several lines. -/
def resolutionPpd : PpdFiles :=
  onePpd "*Resolution 300dpi/300 DPI: \"300 set\"\n*Resolution 600dpi:\t\"\n600\n\n%\nset\"\n*End\n"

theorem findFeature_resolution :
    ∃ t, readPpdFile resolutionPpd 0 none (some (ascii "/a.ppd")) = .ok t ∧
      t.findFeature (ascii "*Resolution") (some (ascii "600dpi")) =
        .ok (lookup ((entries resolutionPpd (ascii "/a.ppd")).filter fun e => !isTaken e.line)
          (ascii "*Resolution") (some (ascii "600dpi"))) := by
  cases h : readPpdFile resolutionPpd 0 none (some (ascii "/a.ppd")) with
  | error e =>
    have ok : (readPpdFile resolutionPpd 0 none (some (ascii "/a.ppd"))).isOk = true := by
      decide +kernel
    rw [h] at ok
    cases ok
  | ok t =>
    have regular : ∀ line ∈ keywordLines false (expanded resolutionPpd (ascii "/a.ppd")),
        Regular line := by
      decide +kernel
    exact ⟨t, rfl, findFeature_eq_lookup h regular (by decide) (by decide) fun h => nomatch h⟩

/-- An entry with a keyword that is taken is not found. -/
theorem not_found_of_isTaken :
    ∃ t, readPpdFile (onePpd "*Status: \"idle\"\n") 0 none (some (ascii "/a.ppd")) = .ok t ∧
      t.findFeature (ascii "*Status") none = .ok none ∧
      lookup (entries (onePpd "*Status: \"idle\"\n") (ascii "/a.ppd")) (ascii "*Status") none =
        some (ascii "idle") := by
  have run : ((readPpdFile (onePpd "*Status: \"idle\"\n") 0 none (some (ascii "/a.ppd"))).map
      (·.findFeature (ascii "*Status") none)).toOption = some (.ok none) := by
    decide +kernel
  cases h : readPpdFile (onePpd "*Status: \"idle\"\n") 0 none (some (ascii "/a.ppd")) with
  | error e =>
    rw [h] at run
    cases run
  | ok t =>
    rw [h] at run
    refine ⟨t, rfl, Option.some.inj run, ?_⟩
    decide +kernel

end Ppr.Pprdrv
