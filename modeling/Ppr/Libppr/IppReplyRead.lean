import Ppr.Libppr.IppSent

/-!
# When a response loses nothing

Decoded by the grammar, a response shows exactly the attributes that were added, group by group and
in their order, if and only if it fits (`ReplyFits`): values out of band are not sent at all, a
template is used only under the tag of a URI and cut at 63 octets, and dividers are looked at only
between printers and between jobs.
-/

namespace Ppr

open Outcome

/-! ## One attribute -/

/-- The values of a call as they are stored and as they should be sent. -/
def Add.pairs (root : List Byte) : Add → List (IppValue × WireValue)
  | .divider _ | .outOfBand .. => []
  | .integers _ tag _ values => values.map fun i => (.integer i, ⟨tag, intBytes i⟩)
  | .strings _ tag _ values =>
    values.map fun t => (.string t.bytes, ⟨tag, wireText root tag t.bytes⟩)
  | .templates _ tag _ (.integers pre post _ values) =>
    values.map fun i =>
      let text := pre ++ decimalInt i.toInt ++ post
      (.integer i, ⟨tag, if tag = 0x45 then root ++ text else text⟩)
  | .templates _ tag _ (.strings pre post _ values) =>
    values.map fun t =>
      let text := pre ++ t.bytes ++ post
      (.string t.bytes, ⟨tag, if tag = 0x45 then root ++ text else text⟩)
  | .boolean _ tag _ value =>
    [(.integer (if value then 1 else 0), ⟨tag, [if value then 1 else 0]⟩)]
  | .returned _ value more => (value :: more).map fun v => (v.parsed.value, v.wire)

/-- The value is out of band. -/
def Add.isOutOfBand : Add → Bool
  | .outOfBand .. => true
  | _ => false

theorem Add.stored_values (root : List Byte) (a : Add) :
    a.stored.values = (a.pairs root).map Prod.fst := by
  cases a with
  | templates _ _ _ args => cases args <;> simp [Add.stored, Add.pairs, TemplateArgs.values]
  | _ => simp [Add.stored, Add.pairs]

theorem Add.wire_values (root : List Byte) {a : Add} (hd : a.isDivider = false)
    (ho : a.isOutOfBand = false) : (a.wire root).values = (a.pairs root).map Prod.snd := by
  cases a with
  | divider => cases hd
  | outOfBand => cases ho
  | templates _ _ _ args => cases args <;> simp [Add.wire, Add.pairs, TemplateArgs.texts]
  | _ => simp [Add.wire, Add.pairs]

theorem Add.name_eq (root : List Byte) {a : Add} (hd : a.isDivider = false) :
    (a.wire root).name = a.stored.name := by
  cases a with
  | divider => cases hd
  | _ => rfl

/-- The attribute is sent as it should be exactly if it has values and each of them is. -/
theorem sent_eq_iff {root : List Byte} {attr : ReplyAttr} {pairs : List (IppValue × WireValue)}
    (h : attr.values = pairs.map Prod.fst) :
    sent root attr = .ok [⟨attr.name, pairs.map Prod.snd⟩] ↔
      pairs ≠ [] ∧ ∀ p ∈ pairs, p.2.tag = attr.valueTag ∧ valueData root attr p.1 = .ok p.2.data := by
  constructor
  · intro hsent
    rw [sent, h] at hsent
    obtain ⟨ds, hds, hs⟩ := bind_eq_ok hsent
    clear hsent
    split_ifs at hs with hnil
    · cases hs
    have hvals : ds.map (fun d => (⟨attr.valueTag, d⟩ : WireValue)) = pairs.map Prod.snd := by
      simpa using hs
    refine ⟨?_, ?_⟩
    · rintro rfl
      exact hnil (by simpa using hvals)
    · clear hs hnil h
      induction pairs generalizing ds with
      | nil => exact fun p hp => absurd hp List.not_mem_nil
      | cons p pairs ih =>
        rw [List.map_cons, List.mapM_cons] at hds
        obtain ⟨d, hd, hds⟩ := bind_eq_ok hds
        obtain ⟨ds', hds', he⟩ := bind_eq_ok hds
        cases he
        rw [List.map_cons, List.map_cons, List.cons.injEq] at hvals
        refine List.forall_mem_cons.2 ⟨?_, ih ds' hds' hvals.2⟩
        rw [← hvals.1]
        exact ⟨rfl, hd⟩
  · rintro ⟨hne, hp⟩
    have hds : (pairs.map Prod.fst).mapM (valueData root attr) =
        .ok (pairs.map fun p => p.2.data) := by
      rw [List.mapM_map]
      exact mapM_eq_ok fun p hm => (hp p hm).2
    rw [sent, h, hds]
    refine congrArg Except.ok ?_
    rw [if_neg (by simpa using hne), List.map_map]
    congr 2
    refine List.map_congr_left fun p hm => ?_
    show (⟨attr.valueTag, p.2.data⟩ : WireValue) = p.2
    rw [← (hp p hm).1]

theorem not_isIntegerTag : ∀ tag : Byte, isStringTag tag = true → isIntegerTag tag = false := by
  decide +kernel

theorem text?_string (t : IppText) : (IppValue.string t.bytes).text? = some t.bytes :=
  congrArg some (cstr_eq_self.2 t.no_nul)

theorem text?_parsed (t : IppText) : (IppValue.string (t.bytes ++ [0])).text? = some t.bytes :=
  congrArg some ((cstr_append_zero _).trans (cstr_eq_self.2 t.no_nul))

theorem basicData_string {tag : Byte} (ht : isStringTag tag) {p : IppValue} {text : List Byte}
    (hp : p.text? = some text) : basicData tag p = .ok text := by
  rw [basicData, if_neg (by simp [not_isIntegerTag tag ht]), if_pos ht, hp]

theorem basicData_integer {tag : Byte} (ht : isIntegerTag tag) (i : CInt) :
    basicData tag (.integer i) = .ok (intBytes i) := by
  rw [basicData, if_pos ht]
  rfl

/-- A text without a template. -/
theorem valueData_string {root : List Byte} {tag : Byte} (name : List Byte) (values : List IppValue)
    (ht : isStringTag tag) (t : IppText) :
    valueData root ⟨tag, name, some none, values⟩ (.string t.bytes) =
      .ok (wireText root tag t.bytes) := by
  unfold valueData wireText
  by_cases hu : tag = 0x45
  · rw [if_pos hu, text?_string]
    dsimp only
    by_cases hh : t.bytes.head? = some 0x2f
    · rw [if_pos hh, if_pos ⟨hu, hh⟩]
    · rw [if_neg hh, if_neg fun h => hh h.2]
  · rw [if_neg hu, if_neg fun h => hu h.1]
    exact basicData_string ht (text?_string t)

/-- A template under the tag of a URI is cut. -/
theorem valueData_template {root : List Byte} (name : List Byte) (values : List IppValue)
    {template : IppTemplate} {p : IppValue} {text : List Byte} (h : template.format p = some text) :
    valueData root ⟨0x45, name, some (some template), values⟩ p = .ok (root ++ text.take 63) := by
  rw [valueData, if_pos rfl]
  dsimp only
  rw [h]
  rfl

theorem format_strings (pre post : List Byte) (plain : ∀ c ∈ pre ++ post, c ≠ 0 ∧ c ≠ 0x25)
    (values : List IppText) (t : IppText) :
    (TemplateArgs.strings pre post plain values).template.format (.string t.bytes) =
      some (pre ++ t.bytes ++ post) := by
  rw [IppTemplate.format, text?_string]
  rfl

theorem take_eq_self_iff {l : List Byte} : l.take 63 = l ↔ l.length < 64 := by
  constructor
  · intro h
    have := congrArg List.length h
    rw [List.length_take] at this
    omega
  · exact fun h => List.take_of_length_le (by omega)

/-- The value of an unknown tag is taken for a boolean, which is its length. -/
theorem basicData_unknown {tag : Byte} (hi : isIntegerTag tag = false) (hs : isStringTag tag = false)
    {data : List Byte} (short : data.length < 65536) :
    basicData tag (.unknown (BitVec.ofNat 32 data.length) (data ++ [0])) = .ok data ↔
      tag = 0x22 ∧ data = [1] := by
  rw [basicData, if_neg (by simp [hi]), if_neg (by simp [hs])]
  by_cases hb : tag = 0x22
  · rw [if_pos hb]
    show (Except.ok [if BitVec.ofNat 32 data.length ≠ 0 then (1 : Byte) else 0] = _) ↔ _
    rw [Except.ok.injEq]
    constructor
    · intro h
      have hlen : data.length = 1 := by rw [← h]; rfl
      rw [hlen] at h
      exact ⟨hb, h.symm⟩
    · rintro ⟨-, rfl⟩
      rfl
  · rw [if_neg hb]
    constructor
    · intro h
      cases h
    · exact fun h => absurd h.1 hb

/-! ## When it fits -/

/-- The template is only its format specifier, "%s". -/
def TemplateArgs.Bare : TemplateArgs → Prop
  | .integers .. => False
  | .strings pre post _ _ => pre = [] ∧ post = []

/-- `ipp_put_attr()` has a case for the value: of the tags it has no case for when the request was
read only that of booleans is there, and these are true. -/
def ReturnedValue.HasCase : ReturnedValue → Prop
  | .integer .. | .string .. => True
  | .unknown tag _ data _ => tag = 0x22 ∧ data = [1]

/-- Nothing of the attribute is lost: it has a value that is not out of band, no integer is added
under the tag 0x45 of a URI, a text is shorter than 65536 with `root` before it, a template under
the tag of a URI comes to less than 64 octets and under another tag is nothing but "%s", and an
attribute of the request is returned with values of one tag, which is not that of a URI. -/
def Add.Fits (root : List Byte) : Add → Prop
  | .divider _ | .boolean .. => True
  | .outOfBand .. => False
  | .integers _ tag _ values => values ≠ [] ∧ tag ≠ 0x45
  | .strings _ tag _ values =>
    values ≠ [] ∧ ∀ t ∈ values, (wireText root tag t.bytes).length < 65536
  | .templates _ tag _ args =>
    args.texts ≠ [] ∧
      if tag = 0x45 then ∀ text ∈ args.texts, text.length < 64 ∧ root.length + text.length < 65536
      else args.Bare
  | .returned _ value more =>
    value.wire.tag ≠ 0x45 ∧ ∀ v ∈ value :: more, v.wire.tag = value.wire.tag ∧ v.HasCase

/-- The attribute is sent as it should be. -/
def Add.Sends (root : List Byte) (a : Add) : Prop :=
  sent root a.stored = .ok [a.wire root] ∧ ∀ v ∈ (a.wire root).values, v.data.length < 65536

theorem Add.sends_iff {root : List Byte} {a : Add} (hd : a.isDivider = false)
    (ho : a.isOutOfBand = false) :
    a.Sends root ↔ a.pairs root ≠ [] ∧ ∀ p ∈ a.pairs root,
      (p.2.tag = a.stored.valueTag ∧ valueData root a.stored p.1 = .ok p.2.data) ∧
        p.2.data.length < 65536 := by
  have hw : a.wire root = ⟨a.stored.name, (a.pairs root).map Prod.snd⟩ := by
    rw [← Add.name_eq root hd, ← Add.wire_values root hd ho]
  have hs : sent root a.stored = .ok [⟨a.stored.name, (a.pairs root).map Prod.snd⟩] ↔ _ :=
    sent_eq_iff (a.stored_values root)
  rw [← hw] at hs
  constructor
  · rintro ⟨hsent, hshort⟩
    rw [Add.wire_values root hd ho] at hshort
    obtain ⟨hne, hp⟩ := hs.1 hsent
    exact ⟨hne, fun p hm => ⟨hp p hm, hshort p.2 (List.mem_map_of_mem hm)⟩⟩
  · rintro ⟨hne, hp⟩
    refine ⟨hs.2 ⟨hne, fun p hm => (hp p hm).1⟩, fun v hv => ?_⟩
    rw [Add.wire_values root hd ho] at hv
    obtain ⟨p, hm, rfl⟩ := List.mem_map.1 hv
    exact (hp p hm).2

/-- No tag for integers is that of a URI. -/
theorem ne_uri_of_isIntegerTag : ∀ tag : Byte, isIntegerTag tag = true → tag ≠ 0x45 := by
  decide +kernel

theorem length_intBytes (i : CInt) : (intBytes i).length = 4 := rfl

theorem Add.fits_integers {root : List Byte} {group : ReplyGroup} {tag : Byte} {name : IppName}
    {values : List CInt} (h : (Add.integers group tag name values).Permitted) :
    (Add.integers group tag name values).Fits root ↔
      (Add.integers group tag name values).Sends root := by
  rw [Add.sends_iff rfl rfl]
  simp only [Add.pairs, Add.stored, Add.Fits, ne_eq, List.map_eq_nil_iff, List.forall_mem_map,
    length_intBytes]
  refine and_congr_right fun hne => ?_
  rcases h with ht | rfl
  · have hu := ne_uri_of_isIntegerTag tag ht
    refine iff_of_true hu fun i _ => ⟨⟨trivial, ?_⟩, by decide⟩
    rw [valueData, if_neg hu]
    exact basicData_integer ht i
  · refine iff_of_false (fun h => h rfl) fun h => ?_
    obtain ⟨i, l, rfl⟩ := List.exists_cons_of_ne_nil hne
    cases (h i (List.mem_cons_self ..)).1.2

theorem Add.fits_strings {root : List Byte} {group : ReplyGroup} {tag : Byte} {name : IppName}
    {values : List IppText} (h : (Add.strings group tag name values).Permitted) :
    (Add.strings group tag name values).Fits root ↔
      (Add.strings group tag name values).Sends root := by
  rw [Add.sends_iff rfl rfl]
  simp only [Add.pairs, Add.stored, Add.Fits, ne_eq, List.map_eq_nil_iff, List.forall_mem_map]
  refine and_congr_right fun _ => forall₂_congr fun t _ => ?_
  rw [valueData_string _ _ h]
  exact ⟨fun hs => ⟨⟨trivial, rfl⟩, hs⟩, fun hs => hs.2⟩

/-- A text under the tag of a URI is sent whole if it is not cut. -/
theorem cut_iff {root text : List Byte} :
    (Except.ok (root ++ text.take 63) : Except ReplyError (List Byte)) = .ok (root ++ text) ↔
      text.length < 64 := by
  rw [Except.ok.injEq, List.append_cancel_left_eq, take_eq_self_iff]

theorem uri_short {root text : List Byte} :
    (root ++ text).length < 65536 ↔ root.length + text.length < 65536 := by
  rw [List.length_append]

/-- The format specifier is the whole template. -/
theorem append_eq_self_iff {pre text post : List Byte} :
    text = pre ++ text ++ post ↔ pre = [] ∧ post = [] := by
  constructor
  · intro h
    have := congrArg List.length h
    rw [List.length_append, List.length_append] at this
    exact ⟨List.length_eq_zero_iff.1 (by omega), List.length_eq_zero_iff.1 (by omega)⟩
  · rintro ⟨rfl, rfl⟩
    simp

theorem Add.fits_templates {root : List Byte} {group : ReplyGroup} {tag : Byte} {name : IppName}
    {args : TemplateArgs} (h : (Add.templates group tag name args).Permitted) :
    (Add.templates group tag name args).Fits root ↔
      (Add.templates group tag name args).Sends root := by
  rw [Add.sends_iff rfl rfl]
  cases args with
  | integers pre post plain values =>
    simp only [Add.pairs, Add.stored, Add.Fits, TemplateArgs.texts, TemplateArgs.Bare, ne_eq,
      List.map_eq_nil_iff, List.forall_mem_map]
    refine and_congr_right fun hne => ?_
    by_cases hu : tag = 0x45
    · subst hu
      simp only [if_true]
      refine forall₂_congr fun i _ => and_congr ?_ uri_short.symm
      have hformat : (TemplateArgs.integers pre post plain values).template.format (.integer i) =
          some (pre ++ decimalInt i.toInt ++ post) := rfl
      rw [valueData_template _ _ hformat, cut_iff, true_and]
    · rw [if_neg hu]
      refine iff_of_false id fun hp => ?_
      obtain ⟨i, l, rfl⟩ := List.exists_cons_of_ne_nil hne
      have hd := (hp i (List.mem_cons_self ..)).1.2
      have ht : isStringTag tag = true := h
      rw [valueData, if_neg hu, basicData, if_neg (by simp [not_isIntegerTag tag ht]),
        if_pos ht] at hd
      cases hd
  | strings pre post plain values =>
    simp only [Add.pairs, Add.stored, Add.Fits, TemplateArgs.texts, TemplateArgs.Bare, ne_eq,
      List.map_eq_nil_iff, List.forall_mem_map]
    refine and_congr_right fun hne => ?_
    by_cases hu : tag = 0x45
    · subst hu
      simp only [if_true]
      refine forall₂_congr fun t _ => and_congr ?_ uri_short.symm
      rw [valueData_template _ _ (format_strings pre post plain values t), cut_iff, true_and]
    · have hv : ∀ t : IppText, valueData root ⟨tag, name.bytes,
          some (some (TemplateArgs.strings pre post plain values).template),
          (TemplateArgs.strings pre post plain values).values⟩ (.string t.bytes) = .ok t.bytes := by
        intro t
        rw [valueData, if_neg hu]
        exact basicData_string h (text?_string t)
      simp only [if_neg hu, hv, Except.ok.injEq, append_eq_self_iff, true_and]
      constructor
      · rintro ⟨rfl, rfl⟩ t -
        refine ⟨⟨rfl, rfl⟩, ?_⟩
        rw [List.nil_append, List.append_nil]
        exact t.short
      · intro hp
        obtain ⟨t, l, rfl⟩ := List.exists_cons_of_ne_nil hne
        exact (hp t (List.mem_cons_self ..)).1

theorem Add.fits_boolean {root : List Byte} {group : ReplyGroup} {tag : Byte} {name : IppName}
    {value : Bool} (h : (Add.boolean group tag name value).Permitted) :
    (Add.boolean group tag name value).Fits root ↔
      (Add.boolean group tag name value).Sends root := by
  obtain rfl : tag = 0x22 := h
  refine iff_of_true trivial ((Add.sends_iff rfl rfl).2 ⟨List.cons_ne_nil _ _, ?_⟩)
  intro p hp
  rw [List.mem_singleton.1 hp]
  cases value <;> exact ⟨⟨rfl, rfl⟩, by decide⟩

theorem ReturnedValue.short (v : ReturnedValue) : v.wire.data.length < 65536 := by
  cases v with
  | integer tag htag i => exact (length_intBytes i).trans_lt (by decide)
  | string tag htag text => exact text.short
  | unknown tag htag data short => exact short

theorem ReturnedValue.basicData_iff (v : ReturnedValue) :
    basicData v.wire.tag v.parsed.value = .ok v.wire.data ↔ v.HasCase := by
  cases v with
  | integer tag htag i => exact iff_of_true (basicData_integer htag i) trivial
  | string tag htag text => exact iff_of_true (basicData_string htag (text?_parsed text)) trivial
  | unknown tag htag data short => exact basicData_unknown htag.2.1 htag.2.2 short

theorem Add.fits_returned {root : List Byte} {name : IppName} {value : ReturnedValue}
    {more : List ReturnedValue} :
    (Add.returned name value more).Fits root ↔ (Add.returned name value more).Sends root := by
  rw [Add.sends_iff rfl rfl]
  simp only [Add.pairs, Add.stored, Add.Fits, ne_eq, List.map_eq_nil_iff, List.forall_mem_map,
    List.cons_ne_nil, not_false_eq_true, true_and]
  by_cases hu : value.wire.tag = 0x45
  · refine iff_of_false (fun h => h.1 hu) fun h => ?_
    have hv := (h value (List.mem_cons_self ..)).1.2
    rw [valueData, if_pos hu] at hv
    cases hv
  · rw [and_iff_right hu]
    refine forall₂_congr fun v _ => ?_
    rw [and_iff_left v.short]
    refine and_congr_right fun ht => ?_
    rw [valueData, if_neg hu]
    dsimp only
    rw [← ht]
    exact v.basicData_iff.symm

/-- An attribute that fits is the one that is sent. -/
theorem Add.fits_iff {root : List Byte} {a : Add} (h : a.Permitted) (hd : a.isDivider = false) :
    a.Fits root ↔ a.Sends root := by
  cases a with
  | divider => cases hd
  | outOfBand =>
    refine iff_of_false id fun hs => ?_
    cases hs.1
  | integers => exact Add.fits_integers h
  | strings => exact Add.fits_strings h
  | templates => exact Add.fits_templates h
  | boolean => exact Add.fits_boolean h
  | returned => exact Add.fits_returned

/-! ## Lengths and tags -/

/-- `basicData` is short. -/
theorem length_basicData {tag : Byte} {p : IppValue} {d : List Byte}
    (hp : ∀ text, p.text? = some text → text.length < 65536) (h : basicData tag p = .ok d) :
    d.length < 65536 := by
  unfold basicData at h
  split_ifs at h
  · cases hi : p.integer? with
    | none =>
      rw [hi] at h
      cases h
    | some i =>
      rw [hi] at h
      cases h
      exact (length_intBytes i).trans_lt (by decide)
  · cases ht : p.text? with
    | none =>
      rw [ht] at h
      cases h
    | some text =>
      rw [ht] at h
      cases h
      exact hp _ ht
  · cases hi : p.integer? with
    | none =>
      rw [hi] at h
      cases h
    | some i =>
      rw [hi] at h
      cases h
      show 1 < 65536
      decide

theorem text?_short {t : IppText} {text : List Byte} (h : (IppValue.string t.bytes).text? = some text) :
    text.length < 65536 := by
  rw [text?_string] at h
  cases h
  exact t.short

theorem ReturnedValue.text?_short {v : ReturnedValue} {text : List Byte}
    (h : v.parsed.value.text? = some text) : text.length < 65536 := by
  cases v with
  | integer => cases h
  | string _ _ t =>
    rw [show (ReturnedValue.string _ _ t).parsed.value = .string (t.bytes ++ [0]) from rfl,
      text?_parsed] at h
    cases h
    exact t.short
  | unknown => cases h

/-- Every value but a URI is short, and a URI is not longer than it should be. -/
theorem Add.length_valueData {root : List Byte} {a : Add} (h : a.Permitted)
    {p : IppValue × WireValue} (hp : p ∈ a.pairs root) {d : List Byte}
    (hd : valueData root a.stored p.1 = .ok d) :
    d.length < 65536 ∨ d.length ≤ p.2.data.length := by
  by_cases hu : a.stored.valueTag = 0x45
  · cases a with
    | divider | outOfBand => cases hp
    | integers group tag name values =>
      obtain ⟨i, -, rfl⟩ := List.mem_map.1 hp
      rw [valueData, if_pos hu] at hd
      cases hd
    | strings group tag name values =>
      obtain ⟨t, -, rfl⟩ := List.mem_map.1 hp
      obtain rfl := Except.ok.inj (hd.symm.trans (valueData_string _ _ h t))
      exact .inr le_rfl
    | templates group tag name args =>
      obtain rfl : tag = 0x45 := hu
      have cut : ∀ text : List Byte, (root ++ text.take 63).length ≤ (root ++ text).length := by
        intro text
        rw [List.length_append, List.length_append, List.length_take]
        omega
      cases args with
      | integers pre post plain values =>
        obtain ⟨i, -, rfl⟩ := List.mem_map.1 hp
        cases hd
        exact .inr (cut _)
      | strings pre post plain values =>
        obtain ⟨t, -, rfl⟩ := List.mem_map.1 hp
        rw [Add.stored, valueData_template _ _ (format_strings pre post plain values t)] at hd
        cases hd
        exact .inr (cut _)
    | boolean group tag name value =>
      rw [show tag = 0x22 from h] at hu
      cases hu
    | returned name value more =>
      rw [valueData, if_pos hu] at hd
      cases hd
  · rw [valueData, if_neg hu] at hd
    refine .inl (length_basicData (fun text ht => ?_) hd)
    cases a with
    | divider | outOfBand => cases hp
    | integers =>
      obtain ⟨i, -, rfl⟩ := List.mem_map.1 hp
      cases ht
    | strings =>
      obtain ⟨t, -, rfl⟩ := List.mem_map.1 hp
      exact text?_short ht
    | templates group tag name args =>
      cases args with
      | integers =>
        obtain ⟨i, -, rfl⟩ := List.mem_map.1 hp
        cases ht
      | strings =>
        obtain ⟨t, -, rfl⟩ := List.mem_map.1 hp
        exact text?_short ht
    | boolean =>
      rw [List.mem_singleton.1 hp] at ht
      cases ht
    | returned =>
      obtain ⟨v, -, rfl⟩ := List.mem_map.1 hp
      exact ReturnedValue.text?_short ht

theorem le_of_isIntegerTag : ∀ tag : Byte, isIntegerTag tag = true → 0x10 ≤ tag.toNat := by
  decide +kernel

theorem le_of_isStringTag : ∀ tag : Byte, isStringTag tag = true → 0x10 ≤ tag.toNat := by
  decide +kernel

theorem ReturnedValue.le_tag (v : ReturnedValue) : 0x10 ≤ v.wire.tag.toNat := by
  cases v with
  | integer tag htag i => exact le_of_isIntegerTag tag htag
  | string tag htag text => exact le_of_isStringTag tag htag
  | unknown tag htag data short => exact htag.1

/-- The tag of an attribute is no delimiter. -/
theorem Add.le_tag {a : Add} (h : a.Permitted) (hd : a.isDivider = false) :
    0x10 ≤ a.stored.valueTag.toNat := by
  cases a with
  | divider => cases hd
  | outOfBand _ tag htag => exact htag.1
  | integers _ tag =>
    rcases h with ht | ht
    · exact le_of_isIntegerTag tag ht
    · show 0x10 ≤ tag.toNat
      rw [ht]
      decide
  | strings _ tag => exact le_of_isStringTag tag h
  | templates _ tag => exact le_of_isStringTag tag h
  | boolean _ tag =>
    obtain rfl : tag = 0x22 := h
    show 0x10 ≤ (0x22 : Byte).toNat
    decide
  | returned _ value => exact value.le_tag

theorem Add.name_ok {a : Add} (hd : a.isDivider = false) :
    a.stored.name ≠ [] ∧ a.stored.name.length < 65536 := by
  cases a with
  | divider => cases hd
  | outOfBand _ _ _ name => exact ⟨name.ne_nil, name.short⟩
  | integers _ _ name => exact ⟨name.ne_nil, name.short⟩
  | strings _ _ name => exact ⟨name.ne_nil, name.short⟩
  | templates _ _ name => exact ⟨name.ne_nil, name.short⟩
  | boolean _ _ name => exact ⟨name.ne_nil, name.short⟩
  | returned name => exact ⟨name.ne_nil, name.short⟩

theorem Add.wf_entry (root : List Byte) {a : Add} (h : a.Permitted) : (a.entry root).Wf := by
  by_cases hd : a.isDivider
  · cases a with
    | divider => exact ⟨iff_of_true rfl rfl, fun _ => rfl⟩
    | _ => cases hd
  · have hd : a.isDivider = false := by simpa using hd
    have hw : (a.entry root).wire = some (a.wire root) := by
      rw [Add.entry, hd]
      rfl
    have htag := a.le_tag h hd
    refine ⟨iff_of_false (fun ht => ?_) (by rw [hw]; simp), fun hn => ?_⟩
    · rw [show a.stored.valueTag = 0x03 from ht] at htag
      exact absurd htag (by decide)
    · rw [hw] at hn
      cases hn

/-- The attributes can be encoded. -/
structure Encodable (l : List WireAttr) : Prop where
  attrs : ∀ a ∈ l, a.Ok
  names : ∀ a ∈ l, a.name.length < 65536
  values : ∀ a ∈ l, ∀ v ∈ a.values, 0x10 ≤ v.tag.toNat ∧ v.data.length < 65536

theorem encodable_nil : Encodable [] where
  attrs := fun _ ha => absurd ha List.not_mem_nil
  names := fun _ ha => absurd ha List.not_mem_nil
  values := fun _ ha => absurd ha List.not_mem_nil

theorem encodable_flatMap {α : Type} {f : α → List WireAttr} {l : List α}
    (h : ∀ a ∈ l, Encodable (f a)) : Encodable (l.flatMap f) where
  attrs := fun b hb => by
    obtain ⟨a, ha, hb⟩ := List.mem_flatMap.1 hb
    exact (h a ha).attrs b hb
  names := fun b hb => by
    obtain ⟨a, ha, hb⟩ := List.mem_flatMap.1 hb
    exact (h a ha).names b hb
  values := fun b hb => by
    obtain ⟨a, ha, hb⟩ := List.mem_flatMap.1 hb
    exact (h a ha).values b hb

/-- If what should be sent can be encoded, so can what is sent. -/
theorem Add.encodable {root : List Byte} {a : Add} (h : a.Permitted)
    (hw : ∀ v ∈ (a.wire root).values, v.data.length < 65536) :
    Encodable (sentOf root (a.entry root)) := by
  by_cases hd : a.isDivider
  · cases a with
    | divider => exact encodable_nil
    | _ => cases hd
  have hd : a.isDivider = false := by simpa using hd
  by_cases ho : a.isOutOfBand
  · cases a with
    | outOfBand => exact encodable_nil
    | _ => cases ho
  have ho : a.isOutOfBand = false := by simpa using ho
  unfold sentOf
  cases hs : sent root (a.entry root).attr with
  | error e => exact encodable_nil
  | ok l =>
    obtain ⟨ds, hds, he⟩ := bind_eq_ok hs
    split_ifs at he with hnil
    · cases he
      exact encodable_nil
    cases he
    have hne : ds.map (fun d => (⟨a.stored.valueTag, d⟩ : WireValue)) ≠ [] := by simpa using hnil
    obtain ⟨hname, hlen⟩ := a.name_ok hd
    refine ⟨?_, ?_, ?_⟩
    · exact fun b hb => List.mem_singleton.1 hb ▸ ⟨hname, hne⟩
    · exact fun b hb => List.mem_singleton.1 hb ▸ hlen
    · intro b hb v hv
      rw [List.mem_singleton.1 hb] at hv
      obtain ⟨d, hd', rfl⟩ := List.mem_map.1 hv
      refine ⟨a.le_tag h hd, ?_⟩
      obtain ⟨value, hvalue, hdata⟩ := mem_mapM hds hd'
      rw [show (a.entry root).attr.values = _ from a.stored_values root] at hvalue
      obtain ⟨p, hp, rfl⟩ := List.mem_map.1 hvalue
      have hshort := hw p.2 (by rw [Add.wire_values root hd ho]; exact List.mem_map_of_mem hp)
      rcases Add.length_valueData h hp hdata with hl | hl
      · exact hl
      · exact hl.trans_lt hshort

end Ppr
