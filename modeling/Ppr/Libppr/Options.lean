import Ppr.Libppr.Tokenize
import Ppr.Lib.Lists

/-!
# Option strings

`options_start()` and `options_get_one()` of `options.c`, and what they read back from options that
were written out.  A read beyond the NUL of the string and a write beyond a buffer stop them.

After a quoted value the pointer has already gone over it when the blanks that follow are counted, as
far behind it again as the value is long.
-/

namespace Ppr

/-- Why `options_get_one()` does not return. -/
inductive Overrun where
  | pastEnd
  | pastValue
  deriving DecidableEq

/-- `struct OPTIONS_STATE`. -/
structure OptionsState where
  magic : ℕ
  /-- The text before the NUL. -/
  options : List Byte
  error : String
  index : ℕ
  indexOfName : ℕ
  indexOfPrevName : ℕ
  nextTimeSkip : ℕ

/-- What a call of `options_get_one()` returns: -1, 0 or 1. -/
inductive Got where
  | failed
  | finished
  | pair (name value : List Byte)
  deriving DecidableEq

/-- `strspn(s, " \t")`. -/
def blanks (s : List Byte) : ℕ := (s.takeWhile isBlank).length

/-- A character that `strcspn(s, "= \t")` counts. -/
def inName (c : Byte) : Bool := c ≠ 61 && !isBlank c

def optionsStart (s : List Byte) : OptionsState where
  magic := 689
  options := s
  error := "<NO ERROR>"
  index := blanks s
  indexOfName := blanks s
  indexOfPrevName := blanks s
  nextTimeSkip := 0

def OptionsState.fail (o : OptionsState) (error : String) : Except Overrun (Got × OptionsState) :=
  .ok (.failed, { o with error := error })

/-- How the loop over a quoted value ends. -/
inductive QuotedRead where
  | unclosed
  | tooLong
  | overflow
  | closed (value : List Byte) (valuelen : ℕ) (ptr : List Byte)

/-- The loop over a quoted value; `value` and `valuelen` are those so far. -/
def quotedLoop (maxvaluelen : ℕ) : List Byte → List Byte → ℕ → QuotedRead
  | [], _, _ => .unclosed
  | c :: ptr, value, valuelen =>
    if c = 34 then
      if maxvaluelen ≤ value.length then .overflow else .closed value (valuelen + 1) ptr
    else
      match ptr with
      | [] =>
        if maxvaluelen ≤ value.length then .tooLong
        else quotedLoop maxvaluelen [] (value ++ [c]) (valuelen + 1)
      | d :: ptr' =>
        if c = 92 ∧ (d = 34 ∨ d = 92) then
          if maxvaluelen ≤ value.length then .tooLong
          else quotedLoop maxvaluelen ptr' (value ++ [d]) (valuelen + 2)
        else if maxvaluelen ≤ value.length then .tooLong
        else quotedLoop maxvaluelen (d :: ptr') (value ++ [c]) (valuelen + 1)

/-- The end of `options_get_one()`. -/
def OptionsState.getPair (o : OptionsState) (name value : List Byte) (valuelen : ℕ)
    (ptr : List Byte) : Except Overrun (Got × OptionsState) :=
  if ptr.length < valuelen then .error .pastEnd
  else
    .ok (.pair name value, { o with nextTimeSkip := valuelen + blanks (ptr.drop valuelen) })

/-- `options_get_one()` behind the equals sign. -/
def OptionsState.getValue (o : OptionsState) (name ptr : List Byte) (maxvaluelen : ℕ) :
    Except Overrun (Got × OptionsState) :=
  match ptr with
  | 34 :: inner =>
    match quotedLoop maxvaluelen inner [] 1 with
    | .unclosed => o.fail "Unclosed quote"
    | .tooLong => o.fail "Option value is too long"
    | .overflow => .error .pastValue
    | .closed value valuelen ptr => o.getPair name value valuelen ptr
  | ptr =>
    let value := ptr.takeWhile fun c => !isBlank c
    if ptr.head?.any isspace then o.fail "No spaces allowed after equals sign"
    else if maxvaluelen ≤ value.length then o.fail "Option value is too long"
    else if value.length = 0 then o.fail "Empty value is not allowed"
    else o.getPair name value value.length ptr

/-- `o->index` gone on. -/
def OptionsState.moved (o : OptionsState) (n : ℕ) : OptionsState := { o with index := o.index + n }

/-- `options_get_one()` from the name on. -/
def OptionsState.getName (o : OptionsState) (ptr : List Byte) (maxnamelen maxvaluelen : ℕ) :
    Except Overrun (Got × OptionsState) :=
  let name := ptr.takeWhile inName
  if maxnamelen ≤ name.length then o.fail "Option name is illegaly long"
  else if name.length = 0 then o.fail "Missing option name"
  else
    match ptr.drop name.length with
    | 61 :: ptr => (o.moved (name.length + 1)).getValue name ptr maxvaluelen
    | ptr =>
      (o.moved name.length).fail
        (if (ptr.dropWhile isBlank).head? = some 61 then "No spaces allowed before equals sign"
          else "Equals sign expected")

/-- The start of `options_get_one()`. -/
def OptionsState.skip (o : OptionsState) : OptionsState :=
  { o with
    index := o.index + o.nextTimeSkip
    nextTimeSkip := 0
    indexOfPrevName := o.indexOfName
    indexOfName := o.index + o.nextTimeSkip }

def optionsGetOne (o : OptionsState) (maxnamelen maxvaluelen : ℕ) :
    Except Overrun (Got × OptionsState) :=
  if o.magic ≠ 689 then o.fail "options_get_one(): options_start() must be called first"
  else
    let o := o.skip
    if o.options.length < o.index then .error .pastEnd
    else if o.options.length = o.index then .ok (.finished, o)
    else o.getName (o.options.drop o.index) maxnamelen maxvaluelen

/-- What calls of `options_get_one()` return, at most `calls` of them. -/
def optionsCalls (maxnamelen maxvaluelen : ℕ) : ℕ → OptionsState → Except Overrun (List Got)
  | 0, _ => .ok []
  | calls + 1, o => do
    match ← optionsGetOne o maxnamelen maxvaluelen with
    | (.pair name value, o) =>
      let rest ← optionsCalls maxnamelen maxvaluelen calls o
      .ok (.pair name value :: rest)
    | (got, _) => .ok [got]

/-! ## Options written out -/

/-- `"` or a backslash. -/
def isSpecial (c : Byte) : Bool := c = 34 || c = 92

/-- The value between quotes. -/
def escapeValue (value : List Byte) : List Byte :=
  value.flatMap fun c => if isSpecial c then [92, c] else [c]

/-- An option as it is written out. -/
structure WrittenOption where
  name : List Byte
  value : List Byte
  quoted : Bool
  /-- The blanks after it. -/
  after : List Byte
  name_ne : name ≠ []
  inName_of_mem : ∀ c ∈ name, inName c
  value_ne : value ≠ []
  no_nul : 0 ∉ name ++ value
  /-- Only a value with quotes may have blanks in it, or begin with a quote or a space. -/
  bare : quoted = false → (∀ c ∈ value, isBlank c = false) ∧
    value.head? ≠ some 34 ∧ value.head?.any isspace = false
  after_blank : ∀ c ∈ after, isBlank c

/-- The value as it is written. -/
def WrittenOption.valueText (w : WrittenOption) : List Byte :=
  if w.quoted then 34 :: (escapeValue w.value ++ [34]) else w.value

def WrittenOption.text (w : WrittenOption) : List Byte :=
  w.name ++ 61 :: (w.valueText ++ w.after)

/-- The text of options. -/
def optionsText (l : List WrittenOption) : List Byte := l.flatMap WrittenOption.text

/-- There are blanks between options. -/
def Separated (l : List WrittenOption) : Prop := ∀ w ∈ l.dropLast, w.after ≠ []

/-- The option goes into the buffers. -/
def WrittenOption.Fits (w : WrittenOption) (maxnamelen maxvaluelen : ℕ) : Prop :=
  w.name.length < maxnamelen ∧ w.value.length < maxvaluelen

instance WrittenOption.decidableFits (w : WrittenOption) (maxnamelen maxvaluelen : ℕ) :
    Decidable (w.Fits maxnamelen maxvaluelen) :=
  inferInstanceAs (Decidable (_ ∧ _))

/-- What the calls should return. -/
def answers (maxnamelen maxvaluelen : ℕ) : List WrittenOption → List Got
  | [] => [.finished]
  | w :: l =>
    if w.Fits maxnamelen maxvaluelen then .pair w.name w.value :: answers maxnamelen maxvaluelen l
    else [.failed]

/-- The options are read back, into buffers of any size. -/
def RoundTrips (lead : List Byte) (l : List WrittenOption) : Prop :=
  ∀ maxnamelen maxvaluelen,
    optionsCalls maxnamelen maxvaluelen (l.length + 1) (optionsStart (lead ++ optionsText l)) =
      .ok (answers maxnamelen maxvaluelen l)

/-! ## Where a call reads -/

/-- The next call reads at `text`. -/
structure OptionsState.At (o : OptionsState) (text : List Byte) : Prop where
  started : o.magic = 689
  inside : o.index + o.nextTimeSkip ≤ o.options.length
  here : o.options.drop (o.index + o.nextTimeSkip) = text

theorem blanks_le (s : List Byte) : blanks s ≤ s.length := (List.takeWhile_sublist _).length_le

theorem drop_blanks (s : List Byte) : s.drop (blanks s) = s.dropWhile isBlank :=
  List.drop_length_takeWhile isBlank s

theorem optionsStart_at (s : List Byte) : (optionsStart s).At (s.dropWhile isBlank) :=
  ⟨rfl, blanks_le s, drop_blanks s⟩

section At

variable {o : OptionsState} {text : List Byte} (h : o.At text) (maxnamelen maxvaluelen : ℕ)

include h

theorem OptionsState.At.getOne_nil (empty : text = []) :
    optionsGetOne o maxnamelen maxvaluelen = .ok (.finished, o.skip) := by
  have length := congrArg List.length h.here
  rw [List.length_drop, empty, List.length_nil] at length
  have inside := h.inside
  rw [optionsGetOne, if_neg (not_not.2 h.started)]
  exact (if_neg (by show ¬ o.options.length < o.index + o.nextTimeSkip; omega)).trans
    (if_pos (by show o.options.length = o.index + o.nextTimeSkip; omega))

theorem OptionsState.At.getOne_cons (some : text ≠ []) :
    optionsGetOne o maxnamelen maxvaluelen = o.skip.getName text maxnamelen maxvaluelen := by
  have length := congrArg List.length h.here
  have pos := List.length_pos_of_ne_nil some
  rw [List.length_drop] at length
  rw [optionsGetOne, if_neg (not_not.2 h.started), ← h.here]
  exact (if_neg (by show ¬ o.options.length < o.index + o.nextTimeSkip; omega)).trans
    (if_neg (by show ¬ o.options.length = o.index + o.nextTimeSkip; omega))

/-- A name does not begin with a blank. -/
theorem OptionsState.At.getOne_blank {c : Byte} {rest : List Byte} (begins : text = c :: rest)
    (blank : isBlank c) : ∃ o', optionsGetOne o maxnamelen maxvaluelen = .ok (.failed, o') := by
  have get := h.getOne_cons maxnamelen maxvaluelen (by simp [begins])
  have none : text.takeWhile inName = [] := by
    rw [begins, List.takeWhile_cons, if_neg (by simp [inName, blank])]
  rw [get, OptionsState.getName, none]
  by_cases short : maxnamelen ≤ 0
  · exact ⟨_, if_pos short⟩
  · refine ⟨_, (if_neg short).trans (if_pos rfl)⟩

end At

/-! ## Quoted values -/

theorem quotedLoop_quote (maxvaluelen : ℕ) (ptr value : List Byte) (n : ℕ) :
    quotedLoop maxvaluelen (34 :: ptr) value n =
      if maxvaluelen ≤ value.length then .overflow else .closed value (n + 1) ptr := by
  cases ptr with
  | nil => exact if_pos rfl
  | cons d ptr => exact if_pos rfl

theorem quotedLoop_escape (maxvaluelen : ℕ) {d : Byte} (hd : isSpecial d) (ptr value : List Byte)
    (n : ℕ) : quotedLoop maxvaluelen (92 :: d :: ptr) value n =
      if maxvaluelen ≤ value.length then .tooLong
      else quotedLoop maxvaluelen ptr (value ++ [d]) (n + 2) := by
  have special : d = 34 ∨ d = 92 := by simpa [isSpecial] using hd
  rw [quotedLoop, if_neg (by decide)]
  exact if_pos ⟨rfl, special⟩

theorem quotedLoop_plain (maxvaluelen : ℕ) {c : Byte} (hc : isSpecial c = false)
    (ptr value : List Byte) (n : ℕ) : quotedLoop maxvaluelen (c :: ptr) value n =
      if maxvaluelen ≤ value.length then .tooLong
      else quotedLoop maxvaluelen ptr (value ++ [c]) (n + 1) := by
  have plain : c ≠ 34 ∧ c ≠ 92 := by simpa [isSpecial] using hc
  cases ptr with
  | nil => exact if_neg plain.1
  | cons d ptr =>
    rw [quotedLoop, if_neg plain.1]
    exact if_neg fun h => plain.2 h.1

/-- The loop over a value that was written out. -/
theorem quotedLoop_escapeValue (maxvaluelen : ℕ) (v rest acc : List Byte) (n : ℕ)
    (room : acc.length ≤ maxvaluelen) :
    quotedLoop maxvaluelen (escapeValue v ++ 34 :: rest) acc n =
      if acc.length + v.length < maxvaluelen then
        .closed (acc ++ v) (n + (escapeValue v).length + 1) rest
      else if acc.length + v.length = maxvaluelen then .overflow
      else .tooLong := by
  induction v generalizing acc n with
  | nil =>
    rw [escapeValue, List.flatMap_nil, List.nil_append, quotedLoop_quote, List.length_nil,
      List.append_nil, Nat.add_zero, Nat.add_zero]
    by_cases full : maxvaluelen ≤ acc.length
    · rw [if_pos full, if_neg (by omega), if_pos (by omega)]
    · rw [if_neg full, if_pos (by omega)]
  | cons c v ih =>
    have step : quotedLoop maxvaluelen (escapeValue (c :: v) ++ 34 :: rest) acc n =
        if maxvaluelen ≤ acc.length then .tooLong
        else quotedLoop maxvaluelen (escapeValue v ++ 34 :: rest) (acc ++ [c])
          (n + if isSpecial c then 2 else 1) := by
      by_cases hc : isSpecial c
      · rw [if_pos hc, ← quotedLoop_escape maxvaluelen hc]
        simp [escapeValue, hc]
      · rw [if_neg hc, ← quotedLoop_plain maxvaluelen (by simpa using hc)]
        simp [escapeValue, hc]
    rw [step]
    by_cases full : maxvaluelen ≤ acc.length
    · rw [if_pos full, if_neg, if_neg] <;> rw [List.length_cons] <;> omega
    · have length : (escapeValue (c :: v)).length =
          (if isSpecial c then 2 else 1) + (escapeValue v).length := by
        rw [escapeValue, List.flatMap_cons, List.length_append]
        split_ifs <;> rfl
      have value : acc ++ [c] ++ v = acc ++ c :: v := List.append_cons acc c v |>.symm
      have total : (acc ++ [c]).length + v.length = acc.length + (c :: v).length := by
        rw [List.length_append, List.length_singleton, List.length_cons]
        omega
      rw [if_neg full, ih (acc ++ [c]) _ (by rw [List.length_append]; simp; omega), length, value,
        total, Nat.add_assoc n]

/-- What a loop that comes to a quote has gone over. -/
theorem quotedLoop_closed {maxvaluelen : ℕ} {s acc value ptr : List Byte} {n valuelen : ℕ}
    (h : quotedLoop maxvaluelen s acc n = .closed value valuelen ptr) : ∃ inner,
    s = inner ++ 34 :: ptr ∧ valuelen = n + inner.length + 1 ∧
      value.length ≤ acc.length + inner.length := by
  fun_induction quotedLoop maxvaluelen s acc n with
  | case1 => cases h
  | case2 => cases h
  | case3 value n ptr hlt =>
    cases h
    exact ⟨[], rfl, rfl, le_rfl⟩
  | case4 => cases h
  | case5 c acc n hc hlt ih =>
    obtain ⟨inner, hs, hn, hv⟩ := ih h
    cases inner <;> cases hs
  | case6 => cases h
  | case7 c acc n hc d ptr hcd hlt ih =>
    obtain ⟨inner, hs, hn, hv⟩ := ih h
    refine ⟨c :: d :: inner, by rw [hs]; rfl, ?_, ?_⟩
    · simp only [List.length_cons]
      omega
    · simp only [List.length_append, List.length_cons, List.length_nil] at hv ⊢
      omega
  | case8 => cases h
  | case9 c acc n hc d ptr hcd hlt ih =>
    obtain ⟨inner, hs, hn, hv⟩ := ih h
    refine ⟨c :: inner, by rw [hs]; rfl, ?_, ?_⟩
    · simp only [List.length_cons]
      omega
    · simp only [List.length_append, List.length_cons, List.length_nil] at hv ⊢
      omega

/-! ## One call -/

theorem takeWhile_name {name : List Byte} (h : ∀ c ∈ name, inName c) (rest : List Byte) :
    (name ++ 61 :: rest).takeWhile inName = name := by
  rw [List.takeWhile_append_of_pos h, List.takeWhile_cons, if_neg (by decide), List.append_nil]

theorem OptionsState.getValue_quote (o : OptionsState) (name inner : List Byte)
    (maxvaluelen : ℕ) : o.getValue name (34 :: inner) maxvaluelen =
      match quotedLoop maxvaluelen inner [] 1 with
      | .unclosed => o.fail "Unclosed quote"
      | .tooLong => o.fail "Option value is too long"
      | .overflow => .error .pastValue
      | .closed value valuelen ptr => o.getPair name value valuelen ptr := rfl

theorem OptionsState.getName_eq (o : OptionsState) {name : List Byte} (h : ∀ c ∈ name, inName c)
    (ne : name ≠ []) (ptr : List Byte) (maxnamelen maxvaluelen : ℕ) :
    o.getName (name ++ 61 :: ptr) maxnamelen maxvaluelen =
      if maxnamelen ≤ name.length then o.fail "Option name is illegaly long"
      else (o.moved (name.length + 1)).getValue name ptr maxvaluelen := by
  have pos := List.length_pos_of_ne_nil ne
  rw [OptionsState.getName, takeWhile_name h, List.drop_left]
  simp only [if_neg (by omega : ¬ name.length = 0)]
  rfl

/-- Where the call after a pair reads. -/
theorem OptionsState.getPair_at {o : OptionsState} {vt : List Byte} (started : o.magic = 689)
    (here : o.options.drop o.index = vt) (inside : o.index ≤ o.options.length)
    (name value ptr : List Byte) (valuelen : ℕ) (len : valuelen ≤ ptr.length)
    (room : valuelen + blanks (ptr.drop valuelen) ≤ vt.length) :
    ∃ o', o.getPair name value valuelen ptr = .ok (.pair name value, o') ∧
      o'.At (vt.drop (valuelen + blanks (ptr.drop valuelen))) := by
  refine ⟨_, if_neg (by omega), started, ?_, ?_⟩
  · have length := congrArg List.length here
    rw [List.length_drop] at length
    show o.index + (valuelen + blanks (ptr.drop valuelen)) ≤ o.options.length
    omega
  · rw [← here, List.drop_drop]

section Call

variable {o : OptionsState} {w : WrittenOption} {rest : List Byte} (h : o.At (w.text ++ rest))
  (maxnamelen maxvaluelen : ℕ)

include h

theorem OptionsState.At.getOne_text : optionsGetOne o maxnamelen maxvaluelen =
    if maxnamelen ≤ w.name.length then o.skip.fail "Option name is illegaly long"
    else (o.skip.moved (w.name.length + 1)).getValue w.name
      (w.valueText ++ (w.after ++ rest)) maxvaluelen := by
  have shape : w.text ++ rest = w.name ++ 61 :: (w.valueText ++ (w.after ++ rest)) := by
    simp [WrittenOption.text]
  rw [h.getOne_cons maxnamelen maxvaluelen (by rw [shape]; simp), shape,
    o.skip.getName_eq w.inName_of_mem w.name_ne]

/-- The text behind the equals sign. -/
theorem OptionsState.At.value_here :
    o.options.drop ((o.skip.moved (w.name.length + 1)).index) = w.valueText ++ (w.after ++ rest) ∧
      (o.skip.moved (w.name.length + 1)).index ≤ o.options.length := by
  have shape : w.text ++ rest = (w.name ++ [61]) ++ (w.valueText ++ (w.after ++ rest)) := by
    simp [WrittenOption.text]
  have here := h.here
  have length := congrArg List.length here
  rw [shape, List.length_drop, List.length_append, List.length_append, List.length_singleton]
    at length
  constructor
  · calc o.options.drop ((o.skip.moved (w.name.length + 1)).index)
        = (o.options.drop (o.index + o.nextTimeSkip)).drop (w.name.length + 1) := by
          rw [List.drop_drop]
          rfl
      _ = ((w.name ++ [61]) ++ (w.valueText ++ (w.after ++ rest))).drop
          (w.name ++ [61]).length := by
          rw [here, shape, List.length_append, List.length_singleton]
      _ = w.valueText ++ (w.after ++ rest) := List.drop_left
  · show o.index + o.nextTimeSkip + (w.name.length + 1) ≤ o.options.length
    omega

theorem OptionsState.At.getOne_long (long : maxnamelen ≤ w.name.length) :
    ∃ o', optionsGetOne o maxnamelen maxvaluelen = .ok (.failed, o') := by
  rw [h.getOne_text, if_pos long]
  exact ⟨_, rfl⟩

/-- A value without quotes. -/
theorem OptionsState.At.getOne_bare (bare : w.quoted = false)
    (delimited : ∀ c ∈ (w.after ++ rest).head?, isBlank c) :
    ∃ o', if w.Fits maxnamelen maxvaluelen then
        optionsGetOne o maxnamelen maxvaluelen = .ok (.pair w.name w.value, o') ∧
          o'.At ((w.after ++ rest).dropWhile isBlank)
      else optionsGetOne o maxnamelen maxvaluelen = .ok (.failed, o') := by
  by_cases long : maxnamelen ≤ w.name.length
  · obtain ⟨o', get⟩ := h.getOne_long maxnamelen maxvaluelen long
    refine ⟨o', ?_⟩
    rw [if_neg fun fits => by have := fits.1; omega]
    exact get
  obtain ⟨plain, quote, space⟩ := w.bare bare
  obtain ⟨here, inside⟩ := h.value_here
  have text : w.valueText = w.value := by
    rw [WrittenOption.valueText, bare]
    rfl
  have value : (w.value ++ (w.after ++ rest)).takeWhile (fun c => !isBlank c) = w.value := by
    rw [List.takeWhile_append_of_pos (by simpa using plain)]
    cases hrest : w.after ++ rest with
    | nil => rw [List.takeWhile_nil, List.append_nil]
    | cons c rest' =>
      have blank := delimited c (by rw [hrest]; rfl)
      rw [List.takeWhile_cons, if_neg (by simp [blank]), List.append_nil]
  obtain ⟨a, v, hv⟩ := List.exists_cons_of_ne_nil w.value_ne
  have a34 : a ≠ 34 := by
    intro ha
    rw [hv, ha] at quote
    exact quote rfl
  have get : optionsGetOne o maxnamelen maxvaluelen =
      if maxvaluelen ≤ w.value.length then
        (o.skip.moved (w.name.length + 1)).fail "Option value is too long"
      else (o.skip.moved (w.name.length + 1)).getPair w.name w.value
        w.value.length (w.value ++ (w.after ++ rest)) := by
    have some : ¬ w.value.length = 0 := by
      rw [hv]
      exact Nat.succ_ne_zero _
    have head : ((w.value ++ (w.after ++ rest)).head?.any isspace) = false := by
      rw [hv] at space ⊢
      exact space
    rw [h.getOne_text, if_neg long, text, OptionsState.getValue.eq_2]
    · rw [value]
      simp only [head, some, Bool.false_eq_true, if_false]
    · intro inner eq
      rw [hv] at eq
      exact a34 (List.cons.inj eq).1
  by_cases fits : w.Fits maxnamelen maxvaluelen
  · simp only [if_pos fits]
    rw [text] at here
    have drop : (w.value ++ (w.after ++ rest)).drop w.value.length = w.after ++ rest :=
      List.drop_left
    have room := blanks_le (w.after ++ rest)
    obtain ⟨o', pair, hat⟩ := OptionsState.getPair_at
      (o := o.skip.moved (w.name.length + 1)) h.started here inside
      w.name w.value (w.value ++ (w.after ++ rest)) w.value.length (by simp)
      (by rw [drop, List.length_append]; omega)
    refine ⟨o', ?_, ?_⟩
    · rw [get, if_neg (by have := fits.2; omega)]
      exact pair
    · rwa [drop, ← List.drop_drop, drop, drop_blanks] at hat
  · simp only [if_neg fits]
    refine ⟨_, get.trans (if_pos ?_)⟩
    by_contra short
    exact fits ⟨by omega, by omega⟩

/-- A value with quotes; `ptr` is behind the closing one. -/
theorem OptionsState.At.getOne_quoted (quoted : w.quoted)
    (short : w.name.length < maxnamelen) : optionsGetOne o maxnamelen maxvaluelen =
      if w.value.length < maxvaluelen then
        (o.skip.moved (w.name.length + 1)).getPair w.name w.value
          w.valueText.length (w.after ++ rest)
      else if w.value.length = maxvaluelen then .error .pastValue
      else (o.skip.moved (w.name.length + 1)).fail
        "Option value is too long" := by
  have text : w.valueText ++ (w.after ++ rest) =
      34 :: (escapeValue w.value ++ 34 :: (w.after ++ rest)) := by
    simp [WrittenOption.valueText, quoted]
  have length : w.valueText.length = 1 + (escapeValue w.value).length + 1 := by
    simp [WrittenOption.valueText, quoted]
    omega
  rw [h.getOne_text, if_neg (by omega), text, length, OptionsState.getValue_quote,
    quotedLoop_escapeValue maxvaluelen w.value _ [] 1 (Nat.zero_le _)]
  simp only [List.length_nil, Nat.zero_add, List.nil_append]
  split_ifs <;> rfl

theorem OptionsState.At.getOne_quoted_at (quoted : w.quoted) (fits : w.Fits maxnamelen maxvaluelen) :
    if (w.after ++ rest).length < w.valueText.length then
      optionsGetOne o maxnamelen maxvaluelen = .error .pastEnd
    else ∃ o', optionsGetOne o maxnamelen maxvaluelen = .ok (.pair w.name w.value, o') ∧
      o'.At ((w.after ++ rest).drop (blanks ((w.after ++ rest).drop w.valueText.length))) := by
  have get := h.getOne_quoted maxnamelen maxvaluelen quoted fits.1
  rw [if_pos fits.2] at get
  rw [get]
  by_cases past : (w.after ++ rest).length < w.valueText.length
  · rw [if_pos past]
    exact if_pos past
  · rw [if_neg past]
    obtain ⟨here, inside⟩ := h.value_here
    have skipped := blanks_le ((w.after ++ rest).drop w.valueText.length)
    rw [List.length_drop] at skipped
    obtain ⟨o', pair, hat⟩ := OptionsState.getPair_at
      (o := o.skip.moved (w.name.length + 1)) h.started here inside
      w.name w.value (w.after ++ rest) w.valueText.length (by omega)
      (by rw [List.length_append]; omega)
    refine ⟨o', pair, ?_⟩
    rwa [← List.drop_drop, List.drop_left] at hat

end Call

/-! ## What was read for a pair -/

/-- The text `form` was read for a value, with `more` behind it. -/
def ReadAs (value form more : List Byte) : Prop :=
  (form = value ∧ value ≠ [] ∧ (∀ c ∈ value, isBlank c = false) ∧ value.head? ≠ some 34 ∧
      ∀ c ∈ more.head?, isBlank c) ∨
    ∃ inner, form = 34 :: (inner ++ [34]) ∧ value.length ≤ inner.length

theorem OptionsState.getPair_cases {o o' : OptionsState} {name value name' value' ptr : List Byte}
    {valuelen : ℕ} (get : o.getPair name value valuelen ptr = .ok (.pair name' value', o')) :
    name' = name ∧ value' = value ∧ valuelen ≤ ptr.length ∧
      o' = { o with nextTimeSkip := valuelen + blanks (ptr.drop valuelen) } := by
  unfold OptionsState.getPair at get
  split_ifs at get with past
  cases get
  exact ⟨rfl, rfl, by omega, rfl⟩

theorem head_dropWhile {α : Type} (p : α → Bool) (l : List α) :
    ∀ c ∈ (l.dropWhile p).head?, p c = false := by
  intro c hc
  have head := List.head?_dropWhile_not p l
  rw [hc] at head
  simpa using head

/-- Where a value begins. -/
structure OptionsState.Before (o : OptionsState) (vt : List Byte) : Prop where
  started : o.magic = 689
  inside : o.index ≤ o.options.length
  here : o.options.drop o.index = vt

theorem OptionsState.Before.getValue_cases {o o' : OptionsState} {vt name name' value : List Byte}
    {maxvaluelen : ℕ} (h : o.Before vt)
    (get : o.getValue name vt maxvaluelen = .ok (.pair name' value, o')) : name' = name ∧
      ∃ form more k, vt = form ++ more ∧ ReadAs value form more ∧ o'.At (more.drop k) := by
  unfold OptionsState.getValue at get
  split at get
  · rename_i inner
    have h : o.Before ((34 : Byte) :: inner) := h
    split at get <;> try cases get
    rename_i value' valuelen ptr closed
    obtain ⟨rfl, rfl, past, -⟩ := OptionsState.getPair_cases get
    obtain ⟨inner', rfl, rfl, short⟩ := quotedLoop_closed closed
    have text : (34 : Byte) :: (inner' ++ 34 :: ptr) = 34 :: (inner' ++ [34]) ++ ptr := by simp
    have length : 1 + inner'.length + 1 = (34 :: (inner' ++ [34]) : List Byte).length := by
      simp
      omega
    have skipped := blanks_le (ptr.drop (1 + inner'.length + 1))
    rw [List.length_drop] at skipped
    obtain ⟨o'', pair, hat⟩ := OptionsState.getPair_at h.started h.here h.inside name' value ptr
      (1 + inner'.length + 1) past (by simp; omega)
    rw [pair] at get
    cases get
    refine ⟨rfl, _, ptr, blanks (ptr.drop (1 + inner'.length + 1)), text, .inr ⟨inner', rfl, ?_⟩, ?_⟩
    · simpa using short
    · rw [← List.drop_drop, text, length, List.drop_left] at hat
      rwa [length]
  · rename_i quote
    dsimp only at get
    split_ifs at get with space long empty <;> try cases get
    obtain ⟨rfl, rfl, past, -⟩ := OptionsState.getPair_cases get
    have parts : vt.takeWhile (fun c => !isBlank c) ++ vt.dropWhile (fun c => !isBlank c) = vt :=
      List.takeWhile_append_dropWhile
    have drop : vt.drop (vt.takeWhile fun c => !isBlank c).length =
        vt.dropWhile fun c => !isBlank c := List.drop_length_takeWhile _ vt
    have skipped := blanks_le (vt.drop (vt.takeWhile fun c => !isBlank c).length)
    rw [List.length_drop] at skipped
    obtain ⟨o'', pair, hat⟩ := OptionsState.getPair_at h.started h.here h.inside name'
      (vt.takeWhile fun c => !isBlank c) vt (vt.takeWhile fun c => !isBlank c).length past
      (by omega)
    rw [pair] at get
    cases get
    rw [← List.drop_drop, drop] at hat
    refine ⟨rfl, _, _, _, parts.symm, .inl ⟨rfl, ?_, ?_, ?_, ?_⟩, hat⟩
    · exact fun none => empty (by rw [none]; rfl)
    · intro c hc
      simpa using List.mem_takeWhile_imp hc
    · intro head
      cases vt with
      | nil => cases head
      | cons c vt =>
        rw [List.takeWhile_cons] at head
        split_ifs at head
        · cases head
          exact quote vt rfl
        · exact absurd head (by decide)
    · intro c hc
      simpa using head_dropWhile _ vt c hc

theorem OptionsState.At.getOne_pair {o o' : OptionsState} {text name value : List Byte}
    (h : o.At text) {maxnamelen maxvaluelen : ℕ}
    (get : optionsGetOne o maxnamelen maxvaluelen = .ok (.pair name value, o')) :
    ∃ form more k, text = name ++ 61 :: (form ++ more) ∧ ReadAs value form more ∧
      o'.At (more.drop k) := by
  by_cases empty : text = []
  · rw [h.getOne_nil maxnamelen maxvaluelen empty] at get
    cases get
  rw [h.getOne_cons maxnamelen maxvaluelen empty, OptionsState.getName] at get
  have parts : text.takeWhile inName ++ text.dropWhile inName = text :=
    List.takeWhile_append_dropWhile
  have drop := List.drop_length_takeWhile inName text
  rw [drop] at get
  split_ifs at get with long none <;> try cases get
  split at get <;> try cases get
  rename_i vt eq
  have length := congrArg List.length h.here
  have here : (o.skip.moved ((text.takeWhile inName).length + 1)).Before vt := by
    refine ⟨h.started, ?_, ?_⟩
    · have total := congrArg List.length parts
      rw [eq, List.length_append, List.length_cons] at total
      rw [List.length_drop] at length
      show o.index + o.nextTimeSkip + ((text.takeWhile inName).length + 1) ≤ o.options.length
      have := h.inside
      omega
    · show o.options.drop (o.index + o.nextTimeSkip + ((text.takeWhile inName).length + 1)) = vt
      rw [← List.drop_drop, h.here, ← List.drop_drop, drop, eq]
      rfl
  obtain ⟨rfl, form, more, k, rfl, read, hat⟩ := here.getValue_cases get
  refine ⟨form, more, k, ?_, read, hat⟩
  exact parts.symm.trans (congrArg _ eq)

end Ppr
