import Ppr.Lib.Outcome
import Ppr.Libppr.Options

/-!
# Options read back

The options that were written out are read back if the blanks behind every quoted value are counted
right.  Otherwise reading goes on at a blank, or behind the beginning of the next option, and from
there on it stays behind.
-/

namespace Ppr

/-! ## Text that is read a second time -/

/-- The quotes and backslashes at the end. -/
def specials (l : List Byte) : ℕ := (l.reverse.takeWhile isSpecial).length

theorem specials_append_singleton (l : List Byte) (c : Byte) :
    specials (l ++ [c]) = if isSpecial c then specials l + 1 else 0 := by
  rw [specials, List.reverse_append, List.reverse_singleton, List.singleton_append,
    List.takeWhile_cons]
  split_ifs <;> rfl

theorem specials_escapeValue (v : List Byte) : specials (escapeValue v) = 2 * specials v := by
  induction v using List.reverseRecOn with
  | nil => rfl
  | append_singleton v c ih =>
    have last : escapeValue (v ++ [c]) =
        if isSpecial c then escapeValue v ++ [92] ++ [c] else escapeValue v ++ [c] := by
      rw [escapeValue, List.flatMap_append, List.flatMap_singleton]
      split_ifs
      · rw [List.append_assoc]
        rfl
      · rfl
    rw [last, specials_append_singleton v c]
    by_cases hc : isSpecial c
    · rw [if_pos hc, if_pos hc, specials_append_singleton, if_pos hc, specials_append_singleton,
        if_pos (by decide), ih]
      omega
    · rw [if_neg hc, if_neg hc, specials_append_singleton, if_neg hc]

theorem specials_le_cons (l : List Byte) (c : Byte) : specials l ≤ specials (c :: l) := by
  rw [specials, specials, List.reverse_cons, List.takeWhile_append]
  split_ifs with all
  · rw [List.length_append]
    omega
  · exact le_rfl

/-- An equals sign is none of them. -/
theorem specials_behind_equals (l m : List Byte) : specials (l ++ 61 :: m) = specials m := by
  rw [specials, List.reverse_append, List.reverse_cons, List.append_assoc, specials,
    List.takeWhile_append]
  split_ifs with all
  · rw [List.singleton_append, List.takeWhile_cons, if_neg (by decide), List.append_nil,
      List.length_reverse, all, List.length_reverse]
  · rfl

theorem specials_quoted (v : List Byte) :
    2 * specials v + 1 ≤ specials (34 :: (escapeValue v ++ [34])) := by
  have inner : specials (escapeValue v ++ [34]) = 2 * specials v + 1 := by
    rw [specials_append_singleton, if_pos (by decide), specials_escapeValue]
  rw [← inner]
  apply specials_le_cons

/-- In a value that was written out only the closing quote can follow an equals sign. -/
theorem equals_quote {v x w : List Byte} (h : escapeValue v ++ [34] = x ++ 61 :: 34 :: w) :
    w = [] := by
  induction v generalizing x with
  | nil =>
    have length := congrArg List.length h
    simp [escapeValue] at length
    omega
  | cons c v ih =>
    have first : escapeValue (c :: v) ++ [34] =
        if isSpecial c then 92 :: c :: (escapeValue v ++ [34]) else c :: (escapeValue v ++ [34]) := by
      rw [escapeValue, List.flatMap_cons]
      split_ifs <;> rfl
    rw [first] at h
    by_cases hc : isSpecial c
    · rw [if_pos hc] at h
      cases x with
      | nil => exact absurd (List.cons.inj h).1 (by decide)
      | cons a x =>
        cases x with
        | nil =>
          have hc' : c = 61 := (List.cons.inj (List.cons.inj h).2).1
          rw [hc'] at hc
          exact absurd hc (by decide)
        | cons b x => exact ih (List.cons.inj (List.cons.inj h).2).2
    · rw [if_neg hc] at h
      cases x with
      | nil =>
        have behind : escapeValue v ++ [34] = 34 :: w := (List.cons.inj h).2
        cases v with
        | nil => exact (List.cons.inj behind).2.symm
        | cons d v =>
          -- A quote of the value has a backslash before it.
          rw [escapeValue, List.flatMap_cons] at behind
          split_ifs at behind with hd
          · exact absurd (List.cons.inj behind).1 (by decide)
          · have hd' : d = 34 := (List.cons.inj behind).1
            rw [hd'] at hd
            exact absurd (by decide) hd
      | cons a x => exact ih (List.cons.inj h).2

theorem mem_escapeValue {v : List Byte} {c : Byte} (h : c ∈ escapeValue v) : c = 92 ∨ c ∈ v := by
  obtain ⟨a, ha, hc⟩ := List.mem_flatMap.1 h
  split_ifs at hc
  · rcases List.mem_cons.1 hc with rfl | hc
    · exact .inl rfl
    · exact .inr (List.mem_singleton.1 hc ▸ ha)
  · exact .inr (List.mem_singleton.1 hc ▸ ha)

/-- The value is not there again inside its own text. -/
theorem WrittenOption.not_inside {w : WrittenOption} {x form z more : List Byte}
    (text : w.valueText = x ++ 61 :: (form ++ z)) (read : ReadAs w.value form (z ++ more)) :
    False := by
  have length := congrArg List.length text
  rw [List.length_append, List.length_cons, List.length_append] at length
  by_cases quoted : w.quoted
  · have written : w.valueText = 34 :: (escapeValue w.value ++ [34]) := by
      rw [WrittenOption.valueText, if_pos quoted]
    rcases read with ⟨rfl, -, plain, -, blank⟩ | ⟨inner, rfl, -⟩
    · cases z with
      | nil =>
        -- The value ends with fewer quotes and backslashes than its text.
        have less := specials_quoted w.value
        rw [← written, text, List.append_nil, specials_behind_equals] at less
        omega
      | cons c z =>
        have hc : isBlank c = true := blank c rfl
        have mem : c ∈ w.valueText := by
          rw [text]
          simp
        rw [written] at mem
        have inValue : c ∈ w.value := by
          rcases List.mem_cons.1 mem with rfl | mem
          · exact absurd hc (by decide)
          · rcases List.mem_append.1 mem with mem | mem
            · rcases mem_escapeValue mem with rfl | mem
              · exact absurd hc (by decide)
              · exact mem
            · rw [List.mem_singleton.1 mem] at hc
              exact absurd hc (by decide)
        rw [plain c inValue] at hc
        cases hc
    · rw [written] at text
      cases x with
      | nil => exact absurd (List.cons.inj text).1 (by decide)
      | cons a x =>
        have behind := equals_quote (List.cons.inj text).2
        simp at behind
  · have written : w.valueText = w.value := by
      rw [WrittenOption.valueText, if_neg quoted]
    rw [written] at length
    rcases read with ⟨rfl, -⟩ | ⟨inner, rfl, short⟩
    · omega
    · rw [List.length_cons, List.length_append, List.length_singleton] at length
      omega

/-- The text read for a value does not end with a blank. -/
theorem ReadAs.last {value form more : List Byte} (read : ReadAs value form more) :
    ∃ front c, form = front ++ [c] ∧ isBlank c = false := by
  rcases read with ⟨rfl, some, plain, -⟩ | ⟨inner, rfl, -⟩
  · obtain ⟨front, c, rfl⟩ := (List.eq_nil_or_concat' form).resolve_left some
    exact ⟨front, c, rfl, plain c (by simp)⟩
  · exact ⟨34 :: inner, 34, rfl, by decide⟩

theorem optionsText_cons (w : WrittenOption) (l : List WrittenOption) :
    optionsText (w :: l) = w.text ++ optionsText l := List.flatMap_cons

/-- Who reads an option from behind its beginning is behind the beginning of the next one. -/
theorem WrittenOption.shorter {w : WrittenOption} {rest form more : List Byte}
    (suffix : w.name ++ 61 :: (form ++ more) <:+ w.text ++ rest)
    (short : (w.name ++ 61 :: (form ++ more)).length < (w.text ++ rest).length)
    (read : ReadAs w.value form more) : more <:+ rest ∧ more.length < rest.length := by
  have shape : w.text ++ rest = w.name ++ [61] ++ (w.valueText ++ (w.after ++ rest)) := by
    simp [WrittenOption.text]
  have restSuffix : rest <:+ w.text ++ rest := List.suffix_append _ _
  have moreSuffix : more <:+ w.text ++ rest :=
    (List.IsSuffix.trans ⟨w.name ++ 61 :: form, by simp⟩ suffix)
  suffices less : more.length < rest.length from
    ⟨List.suffix_of_suffix_length_le moreSuffix restSuffix less.le, less⟩
  by_contra enough
  obtain ⟨y, rfl⟩ := List.suffix_of_suffix_length_le restSuffix moreSuffix (not_lt.1 enough)
  have valueSuffix : w.valueText ++ (w.after ++ rest) <:+ w.text ++ rest :=
    ⟨w.name ++ [61], shape.symm⟩
  have equalsSuffix : 61 :: (form ++ (y ++ rest)) <:+ w.text ++ rest :=
    List.IsSuffix.trans ⟨w.name, rfl⟩ suffix
  obtain ⟨x, eq⟩ := List.suffix_of_suffix_length_le equalsSuffix valueSuffix (by
    rw [shape] at short
    simp only [List.length_append, List.length_cons, List.length_nil] at short ⊢
    omega)
  have eq : x ++ 61 :: form ++ y = w.valueText ++ w.after := by
    have eq : (x ++ 61 :: form ++ y) ++ rest = (w.valueText ++ w.after) ++ rest := by simpa using eq
    exact List.append_cancel_right eq
  rcases List.append_eq_append_iff.1 eq with ⟨z, text, hy⟩ | ⟨z, hz, hafter⟩
  · refine w.not_inside (?_ : w.valueText = x ++ 61 :: (form ++ z))
      (?_ : ReadAs w.value form (z ++ (w.after ++ rest)))
    · rw [text]
      simp
    · rwa [hy, List.append_assoc] at read
  · rcases List.eq_nil_or_concat' z with rfl | ⟨z', d, rfl⟩
    · refine w.not_inside (?_ : w.valueText = x ++ 61 :: (form ++ []))
        (read : ReadAs w.value form ([] ++ (y ++ rest)))
      rw [List.append_nil] at hz ⊢
      exact hz.symm
    · obtain ⟨front, c, rfl, plain⟩ := read.last
      have blank : isBlank d = true := w.after_blank d (by rw [hafter]; simp)
      have same : x ++ 61 :: front ++ [c] = w.valueText ++ z' ++ [d] := by simpa using hz
      rw [(List.append_inj' same rfl).2 |> List.singleton_inj.1] at plain
      rw [plain] at blank
      cases blank

/-! ## Calls -/

section Calls

variable {maxnamelen maxvaluelen : ℕ} {o o' : OptionsState}

theorem optionsCalls_pair {name value : List Byte}
    (get : optionsGetOne o maxnamelen maxvaluelen = .ok (.pair name value, o')) (calls : ℕ) :
    optionsCalls maxnamelen maxvaluelen (calls + 1) o =
      (optionsCalls maxnamelen maxvaluelen calls o').map (.pair name value :: ·) := by
  rw [optionsCalls, get]
  rfl

theorem optionsCalls_failed (get : optionsGetOne o maxnamelen maxvaluelen = .ok (.failed, o'))
    (calls : ℕ) : optionsCalls maxnamelen maxvaluelen (calls + 1) o = .ok [.failed] := by
  rw [optionsCalls, get]
  rfl

theorem optionsCalls_finished (get : optionsGetOne o maxnamelen maxvaluelen = .ok (.finished, o'))
    (calls : ℕ) : optionsCalls maxnamelen maxvaluelen (calls + 1) o = .ok [.finished] := by
  rw [optionsCalls, get]
  rfl

theorem optionsCalls_error {e : Overrun} (get : optionsGetOne o maxnamelen maxvaluelen = .error e)
    (calls : ℕ) : optionsCalls maxnamelen maxvaluelen (calls + 1) o = .error e := by
  rw [optionsCalls, get]
  rfl

/-- Calls whose first result is a pair. -/
theorem optionsCalls_cases {calls : ℕ} {name value : List Byte} {rest : List Got}
    (h : optionsCalls maxnamelen maxvaluelen calls o = .ok (.pair name value :: rest)) :
    ∃ n o', calls = n + 1 ∧ optionsGetOne o maxnamelen maxvaluelen = .ok (.pair name value, o') ∧
      optionsCalls maxnamelen maxvaluelen n o' = .ok rest := by
  cases calls with
  | zero => cases h
  | succ n =>
    obtain ⟨⟨got, o'⟩, get, h⟩ := Outcome.bind_eq_ok h
    cases got with
    | failed => cases h
    | finished => cases h
    | pair name' value' =>
      obtain ⟨rest', hrest, h⟩ := Outcome.bind_eq_ok h
      cases h
      exact ⟨n, o', rfl, get, hrest⟩

end Calls

/-- All the pairs, and the end. -/
def allAnswers (l : List WrittenOption) : List Got :=
  l.map (fun w => .pair w.name w.value) ++ [.finished]

theorem answers_of_fits {maxnamelen maxvaluelen : ℕ} {l : List WrittenOption}
    (h : ∀ w ∈ l, w.Fits maxnamelen maxvaluelen) :
    answers maxnamelen maxvaluelen l = allAnswers l := by
  induction l with
  | nil => rfl
  | cons w l ih =>
    rw [answers, if_pos (h w (List.mem_cons_self ..)), ih fun w' hw' =>
      h w' (List.mem_cons_of_mem w hw')]
    rfl

/-- Reading from behind the beginning of the options does not find them. -/
theorem optionsCalls_behind {l : List WrittenOption} {maxnamelen maxvaluelen calls : ℕ}
    {o : OptionsState} {text : List Byte} (h : o.At text) (suffix : text <:+ optionsText l)
    (short : text.length < (optionsText l).length) :
    optionsCalls maxnamelen maxvaluelen calls o ≠ .ok (allAnswers l) := by
  induction l generalizing o text calls with
  | nil => exact absurd short (Nat.not_lt_zero _)
  | cons w l ih =>
    intro all
    obtain ⟨n, o', -, get, rest⟩ := optionsCalls_cases all
    obtain ⟨form, more, k, rfl, read, hat⟩ := h.getOne_pair get
    rw [optionsText_cons] at suffix short
    obtain ⟨moreSuffix, less⟩ := WrittenOption.shorter suffix short read
    have dropped : more.drop k <:+ more := List.drop_suffix k more
    exact ih hat (dropped.trans moreSuffix) (lt_of_le_of_lt dropped.length_le less) rest

/-! ## The blanks behind a value -/

theorem head_optionsText {l : List WrittenOption} :
    ∀ c ∈ (optionsText l).head?, isBlank c = false := by
  intro c hc
  cases l with
  | nil => cases hc
  | cons w l =>
    obtain ⟨a, name, hname⟩ := List.exists_cons_of_ne_nil w.name_ne
    have first : (optionsText (w :: l)).head? = some a := by
      rw [optionsText_cons, WrittenOption.text, hname]
      rfl
    rw [first] at hc
    cases hc
    have := w.inName_of_mem c (by rw [hname]; exact List.mem_cons_self ..)
    simp only [inName, Bool.and_eq_true, Bool.not_eq_true'] at this
    exact this.2

/-- The text behind the value of an option. -/
def WrittenOption.behind (w : WrittenOption) (l : List WrittenOption) : List Byte :=
  w.after ++ optionsText l

theorem dropWhile_blanks {s : List Byte} (hs : ∀ c ∈ s, isBlank c) (l : List WrittenOption) :
    (s ++ optionsText l).dropWhile isBlank = optionsText l := by
  rw [List.dropWhile_append_of_pos hs]
  cases h : optionsText l with
  | nil => rfl
  | cons c rest =>
    have plain := head_optionsText c (by rw [h]; rfl)
    rw [List.dropWhile_cons, if_neg (by simp [plain])]

theorem WrittenOption.blanks_behind (w : WrittenOption) (l : List WrittenOption) :
    blanks (w.behind l) = w.after.length := by
  have none : (w.behind l).drop (blanks (w.behind l)) = optionsText l := by
    rw [drop_blanks]
    exact dropWhile_blanks w.after_blank l
  have inside := blanks_le (w.behind l)
  have length := congrArg List.length none
  have total : (w.behind l).length = w.after.length + (optionsText l).length := List.length_append
  rw [List.length_drop] at length
  omega

/-- So far behind the value again as it is long there is text, with as many blanks. -/
def WrittenOption.Skipped (w : WrittenOption) (l : List WrittenOption) : Prop :=
  w.valueText.length ≤ (w.behind l).length ∧
    blanks ((w.behind l).drop w.valueText.length) = blanks (w.behind l)

instance (l : List WrittenOption) : Decidable (Separated l) :=
  inferInstanceAs (Decidable (∀ w ∈ l.dropLast, w.after ≠ []))

theorem Separated.tail {w : WrittenOption} {l : List WrittenOption} (h : Separated (w :: l)) :
    Separated l := by
  intro w' hw'
  cases l with
  | nil => cases hw'
  | cons a l => exact h w' (List.mem_cons_of_mem w hw')

theorem Separated.delimited {w : WrittenOption} {l : List WrittenOption}
    (h : Separated (w :: l)) : ∀ c ∈ (w.after ++ optionsText l).head?, isBlank c := by
  intro c hc
  cases hafter : w.after with
  | nil =>
    cases l with
    | nil =>
      rw [hafter] at hc
      cases hc
    | cons a l => exact absurd hafter (h w (List.mem_cons_self ..))
  | cons d after =>
    rw [hafter] at hc
    cases hc
    exact w.after_blank c (by rw [hafter]; exact List.mem_cons_self ..)

section Step

variable {maxnamelen maxvaluelen : ℕ} {o : OptionsState} {w : WrittenOption}
  {l : List WrittenOption} (h : o.At (optionsText (w :: l))) (separated : Separated (w :: l))

include h separated

/-- The next option is read, and then the calls are at the one behind it. -/
theorem OptionsState.At.getOne_next (fits : w.Fits maxnamelen maxvaluelen)
    (skipped : w.quoted → w.Skipped l) : ∃ o',
    optionsGetOne o maxnamelen maxvaluelen = .ok (.pair w.name w.value, o') ∧
      o'.At (optionsText l) := by
  rw [optionsText_cons] at h
  by_cases quoted : w.quoted
  · have get := h.getOne_quoted_at maxnamelen maxvaluelen quoted fits
    obtain ⟨enough, same⟩ := skipped quoted
    rw [← WrittenOption.behind, if_neg (not_lt.2 enough), same, drop_blanks, WrittenOption.behind,
      dropWhile_blanks w.after_blank] at get
    exact get
  · obtain ⟨o', get⟩ := h.getOne_bare maxnamelen maxvaluelen (by simpa using quoted)
      separated.delimited
    rw [if_pos fits, dropWhile_blanks w.after_blank] at get
    exact ⟨o', get⟩

/-- When all the pairs come, the blanks are counted right. -/
theorem OptionsState.At.skipped_of_calls (fits : w.Fits maxnamelen maxvaluelen) {calls : ℕ}
    (all : optionsCalls maxnamelen maxvaluelen (calls + 1 + 1) o = .ok (allAnswers (w :: l))) :
    w.quoted → w.Skipped l := by
  intro quoted
  rw [optionsText_cons] at h
  have get := h.getOne_quoted_at maxnamelen maxvaluelen quoted fits
  rw [← WrittenOption.behind] at get
  by_cases past : (w.behind l).length < w.valueText.length
  · rw [if_pos past] at get
    rw [optionsCalls_error get] at all
    cases all
  rw [if_neg past] at get
  obtain ⟨o', get, hat⟩ := get
  refine ⟨not_lt.1 past, ?_⟩
  rw [optionsCalls_pair get] at all
  have rest : optionsCalls maxnamelen maxvaluelen (calls + 1) o' = .ok (allAnswers l) := by
    cases hrest : optionsCalls maxnamelen maxvaluelen (calls + 1) o' with
    | error e =>
      rw [hrest] at all
      cases all
    | ok r =>
      rw [hrest] at all
      have all : Got.pair w.name w.value :: r = Got.pair w.name w.value :: allAnswers l :=
        Except.ok.inj all
      rw [(List.cons.inj all).2]
  have total := w.blanks_behind l
  have inside := blanks_le ((w.behind l).drop w.valueText.length)
  rw [List.length_drop] at inside
  rcases lt_trichotomy (blanks ((w.behind l).drop w.valueText.length)) (blanks (w.behind l)) with
    few | same | many
  · -- Then a blank comes next.
    rw [total] at few
    have blank : ∃ c rest', (w.behind l).drop
        (blanks ((w.behind l).drop w.valueText.length)) = c :: rest' ∧ isBlank c = true := by
      generalize blanks ((w.behind l).drop w.valueText.length) = n at few
      rw [WrittenOption.behind, List.drop_append_of_le_length few.le,
        List.drop_eq_getElem_cons few]
      exact ⟨_, _, rfl, w.after_blank _ (List.getElem_mem _)⟩
    obtain ⟨c, rest', begins, hc⟩ := blank
    obtain ⟨o'', failed⟩ := hat.getOne_blank maxnamelen maxvaluelen begins hc
    rw [optionsCalls_failed failed] at rest
    cases l <;> cases rest
  · exact same
  · rw [total] at many
    have length : (w.behind l).length = w.after.length + (optionsText l).length :=
      List.length_append
    refine absurd rest (optionsCalls_behind hat ?_ ?_)
    · refine List.suffix_of_suffix_length_le (List.drop_suffix _ _) (List.suffix_append w.after _) ?_
      rw [List.length_drop]
      omega
    · rw [List.length_drop]
      omega

end Step

/-! ## When options are read back -/

/-- An option with quotes has one before it whose value is at least as long, and so far behind its
value again as that is long there are as many blanks as directly behind it.  The longest value so far
has `longest` characters. -/
def Readable : ℕ → List WrittenOption → Prop
  | _, [] => True
  | longest, w :: l =>
    (w.quoted → w.value.length ≤ longest ∧ w.Skipped l) ∧ Readable (max longest w.value.length) l

instance (w : WrittenOption) (l : List WrittenOption) : Decidable (w.Skipped l) :=
  inferInstanceAs (Decidable (_ ∧ _))

instance : (longest : ℕ) → (l : List WrittenOption) → Decidable (Readable longest l)
  | _, [] => inferInstanceAs (Decidable True)
  | longest, w :: l =>
    have : Decidable (Readable (max longest w.value.length) l) := instDecidableReadable _ l
    inferInstanceAs (Decidable (_ ∧ _))

theorem optionsCalls_of_readable {l : List WrittenOption} (separated : Separated l) {longest : ℕ}
    (readable : Readable longest l) {maxnamelen maxvaluelen : ℕ} (room : longest ≤ maxvaluelen - 1)
    {o : OptionsState} (h : o.At (optionsText l)) :
    optionsCalls maxnamelen maxvaluelen (l.length + 1) o =
      .ok (answers maxnamelen maxvaluelen l) := by
  induction l generalizing longest o with
  | nil => exact optionsCalls_finished (h.getOne_nil maxnamelen maxvaluelen rfl) _
  | cons w l ih =>
    obtain ⟨next, rest⟩ := readable
    rw [answers]
    by_cases fits : w.Fits maxnamelen maxvaluelen
    · obtain ⟨o', get, hat⟩ := h.getOne_next separated fits fun quoted => (next quoted).2
      have room' : max longest w.value.length ≤ maxvaluelen - 1 := by
        have := fits.2
        omega
      rw [if_pos fits, List.length_cons, optionsCalls_pair get, ih separated.tail rest room' hat]
      rfl
    · rw [if_neg fits]
      rw [optionsText_cons] at h
      by_cases long : maxnamelen ≤ w.name.length
      · obtain ⟨o', failed⟩ := h.getOne_long maxnamelen maxvaluelen long
        exact optionsCalls_failed failed _
      by_cases quoted : w.quoted
      · -- A value before it would not have gone into the buffer either.
        have some := List.length_pos_of_ne_nil w.value_ne
        have shorter := (next quoted).1
        have get := h.getOne_quoted maxnamelen maxvaluelen quoted (not_le.1 long)
        rw [if_neg fun value => fits ⟨not_le.1 long, value⟩, if_neg (by omega)] at get
        exact optionsCalls_failed get _
      · obtain ⟨o', get⟩ := h.getOne_bare maxnamelen maxvaluelen (by simpa using quoted)
          separated.delimited
        rw [if_neg fits] at get
        exact optionsCalls_failed get _

/-- Buffers that are large enough. -/
theorem exists_buffers (l : List WrittenOption) (n : ℕ) :
    ∃ size, n < size ∧ ∀ w ∈ l, w.Fits size size := by
  induction l with
  | nil => exact ⟨n + 1, Nat.lt_succ_self n, fun w hw => absurd hw List.not_mem_nil⟩
  | cons w l ih =>
    obtain ⟨size, hn, fits⟩ := ih
    refine ⟨size + w.name.length + w.value.length + 1, by omega, fun w' hw' => ?_⟩
    rcases List.mem_cons.1 hw' with rfl | hw'
    · constructor <;> omega
    · have := fits w' hw'
      constructor
      · have := this.1
        omega
      · have := this.2
        omega

theorem readable_of_optionsCalls {l : List WrittenOption} (separated : Separated l)
    {maxnamelen : ℕ} (names : ∀ w ∈ l, w.name.length < maxnamelen) {longest : ℕ}
    (h : ∀ maxvaluelen, longest < maxvaluelen → ∃ o : OptionsState, o.At (optionsText l) ∧
      optionsCalls maxnamelen maxvaluelen (l.length + 1) o =
        .ok (answers maxnamelen maxvaluelen l)) : Readable longest l := by
  induction l generalizing longest with
  | nil => trivial
  | cons w l ih =>
    have name := names w (List.mem_cons_self ..)
    have skipped : w.quoted → w.Skipped l := by
      obtain ⟨size, large, values⟩ := exists_buffers (w :: l) longest
      have fits : ∀ w' ∈ w :: l, w'.Fits maxnamelen size :=
        fun w' hw' => ⟨names w' hw', (values w' hw').2⟩
      obtain ⟨o, hat, all⟩ := h size large
      rw [answers_of_fits fits] at all
      exact hat.skipped_of_calls separated (fits w (List.mem_cons_self ..)) all
    refine ⟨fun quoted => ⟨?_, skipped quoted⟩,
      ih separated.tail (fun w' hw' => names w' (List.mem_cons_of_mem w hw')) ?_⟩
    · -- A buffer as long as the value overflows.
      by_contra longer
      obtain ⟨o, hat, all⟩ := h w.value.length (not_le.1 longer)
      rw [optionsText_cons] at hat
      have get := hat.getOne_quoted maxnamelen w.value.length quoted name
      rw [if_neg (lt_irrefl _), if_pos rfl] at get
      rw [optionsCalls_error get] at all
      cases all
    · intro maxvaluelen value
      obtain ⟨o, hat, all⟩ := h maxvaluelen (lt_of_le_of_lt (le_max_left ..) value)
      have fits : w.Fits maxnamelen maxvaluelen :=
        ⟨name, lt_of_le_of_lt (le_max_right ..) value⟩
      obtain ⟨o', get, hat'⟩ := hat.getOne_next separated fits skipped
      refine ⟨o', hat', ?_⟩
      rw [answers, if_pos fits, List.length_cons] at all
      obtain ⟨n, o'', hn, get', rest⟩ := optionsCalls_cases all
      rw [get] at get'
      cases get'
      cases hn
      exact rest

theorem optionsReadBack_iff {lead : List Byte} {l : List WrittenOption} (leading : ∀ c ∈ lead, isBlank c)
    (separated : Separated l) : RoundTrips lead l ↔ Readable 0 l := by
  have start : (optionsStart (lead ++ optionsText l)).At (optionsText l) := by
    have hat := optionsStart_at (lead ++ optionsText l)
    rwa [dropWhile_blanks leading] at hat
  constructor
  · intro reads
    obtain ⟨size, -, fits⟩ := exists_buffers l 0
    exact readable_of_optionsCalls separated (fun w hw => (fits w hw).1)
      fun maxvaluelen _ => ⟨_, start, reads size maxvaluelen⟩
  · intro readable maxnamelen maxvaluelen
    exact optionsCalls_of_readable separated readable (Nat.zero_le _) start

/-- An option with a blank behind it. -/
def spacedOption (name value : List Byte) (quoted : Bool) (h : name ≠ [] ∧
    (∀ c ∈ name, inName c) ∧ value ≠ [] ∧ 0 ∉ name ++ value ∧
      (quoted = false → (∀ c ∈ value, isBlank c = false) ∧ value.head? ≠ some 34 ∧
        value.head?.any isspace = false)) : WrittenOption where
  name := name
  value := value
  quoted := quoted
  after := [32]
  name_ne := h.1
  inName_of_mem := h.2.1
  value_ne := h.2.2.1
  no_nul := h.2.2.2.1
  bare := h.2.2.2.2
  after_blank := by decide

/-- `x=aaa y="b c" pp=q r=s `. -/
def readableOptions : List WrittenOption :=
  [spacedOption [120] [97, 97, 97] false (by decide),
    spacedOption [121] [98, 32, 99] true (by decide),
    spacedOption [112, 112] [113] false (by decide),
    spacedOption [114] [115] false (by decide)]

theorem readableOptions_roundTrips : RoundTrips [] readableOptions :=
  (optionsReadBack_iff (by decide) (by decide)).2 (by decide)

/-- `a="b c" d=e `: the second call looks at the blank. -/
theorem quoted_not_roundTrips : ¬ ∀ lead l, (∀ c ∈ lead, isBlank c = true) → Separated l →
    RoundTrips lead l := by
  intro h
  have reads := h [] [spacedOption [97] [98, 32, 99] true (by decide),
    spacedOption [100] [101] false (by decide)] (by decide) (by decide) 100 100
  have second : optionsCalls 100 100 3 (optionsStart [97, 61, 34, 98, 32, 99, 34, 32, 100, 61, 101,
      32]) = .ok [.pair [97] [98, 32, 99], .failed] := by rfl
  exact absurd (Except.ok.inj (second.symm.trans reads)) (by decide)

end Ppr
