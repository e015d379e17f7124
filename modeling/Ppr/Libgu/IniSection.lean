import Ppr.Pprdrv.Dgetline
import Ppr.Libgu.Strings

/-!
# INI files

`gu_ini_section_load()` keeps the values of a line one behind the other in one block, each with a NUL
behind it, and counts them; `gu_ini_value_index()` walks over the block.
-/

namespace Ppr.Ini

open Pprdrv (tolower)

/-- `struct GU_INI_ENTRY`. -/
structure Entry where
  name : List Byte
  values : List Byte
  nvalues : ℕ

/-- The variables of the loop over the characters of a value list. -/
structure Members where
  out : List Byte := []
  listCount : ℕ := 0
  quoteMode : Bool := false
  thisMemberCount : ℕ := 0
  lastc : Byte := 0

def Members.put (m : Members) (c : Byte) : Members :=
  { m with out := m.out ++ [c], thisMemberCount := m.thisMemberCount + 1 }

def Members.close (m : Members) : Members :=
  { m with out := m.out ++ [0], listCount := m.listCount + 1, thisMemberCount := 0 }

/-- One character; no branch assigns to `lastc`. -/
def Members.step (m : Members) (c : Byte) : Members :=
  if c = 34 ∧ m.lastc ≠ 92 then { m with quoteMode := !m.quoteMode }
  else if c = 92 ∧ m.lastc ≠ 92 then m
  else if m.quoteMode ∧ c ≠ 0 then m.put c
  else if isspace c ∧ m.thisMemberCount = 0 then m
  else if isspace c ∨ c = 44 ∨ c = 0 then m.close
  else m.put c

/-- The loop, which ends with the NUL behind the line. -/
def members (si : List Byte) : Members := (si ++ [0]).foldl Members.step {}

/-- Without space, and in lower case. -/
def normal (s : List Byte) : List Byte := (s.filter fun c => !isspace c).map tolower

/-- A line of the section; a name is there if there is an equals sign. -/
def parseLine (si : List Byte) : Entry :=
  let m := members (if 61 ∈ si then (si.dropWhile (· ≠ 61)).tail else si)
  { name := if 61 ∈ si then normal (si.takeWhile (· ≠ 61)) else []
    values := m.out
    nvalues := m.listCount }

/-- The lines up to the start of the next section. -/
def parseSection : List (List Byte) → List Entry
  | [] => []
  | line :: rest =>
    match line.dropWhile isBlank with
    | [] => parseSection rest
    | c :: si =>
      if c = 35 ∨ c = 59 then parseSection rest
      else if c = 91 then []
      else parseLine (c :: si) :: parseSection rest

/-- The name in a line that starts a section. -/
def sectionName : List Byte → Option (List Byte)
  | [] => none
  | c :: si => if c = 91 ∧ 93 ∈ si then some (normal (si.takeWhile (· ≠ 93))) else none

/-- The lines of a file, as `gu_getline()` returns them. -/
def fileLines (file : List Byte) : List (List Byte) := (rawLines file).map chop

/-- `gu_ini_section_load()`. -/
def sectionLoad (file name : List Byte) : Option (List Entry) :=
  match (fileLines file).dropWhile fun line => sectionName line ≠ some name with
  | [] => none
  | _ :: rest => some (parseSection rest)

/-- `gu_ini_section_get_value()`. -/
def getValue (list : Option (List Entry)) (key : List Byte) : Option Entry :=
  list.bind fun list => list.find? fun e => e.name = key

/-- The block behind so many strings. -/
def skipStrings : ℕ → List Byte → List Byte
  | 0, values => values
  | n + 1, values => skipStrings n (values.dropWhile (· ≠ 0)).tail

/-- `gu_ini_value_index()`; the default may be a null pointer. -/
def valueIndex (array : Option Entry) (i : ℤ) (default : Option (List Byte)) : Option (List Byte) :=
  match array with
  | none => default
  | some e => if e.nvalues ≤ i then default else some (cstr (skipStrings i.toNat e.values))

/-! ## Lists as they are written -/

/-- A value with the blanks around it. -/
structure Item where
  lead : List Byte
  value : List Byte
  trail : List Byte

/-- A value in quotes, with backslashes in front of quotes and backslashes. -/
def quoted (value : List Byte) : List Byte :=
  34 :: (value.flatMap fun c => if c = 34 ∨ c = 92 then [92, c] else [c]) ++ [34]

def Item.text (x : Item) : List Byte := x.lead ++ quoted x.value ++ x.trail

def listText : List Item → List Byte
  | [] => []
  | [x] => x.text
  | x :: y :: items => x.text ++ 44 :: listText (y :: items)

def assignment (key gap : List Byte) (items : List Item) (trailing : List Byte) : List Byte :=
  key ++ gap ++ 61 :: (listText items ++ trailing)

/-- A file with other lines, the start of the section, other lines, the line, and further text. -/
def fileText (before : List (List Byte)) (name : List Byte) (inside : List (List Byte))
    (line rest : List Byte) : List Byte :=
  (before ++ (91 :: name ++ [93]) :: inside ++ [line]).flatMap (· ++ [newline]) ++ rest

/-- A line that neither starts a section nor has the key. -/
def Elsewhere (key line : List Byte) : Prop :=
  (∀ c ∈ ((chop line).dropWhile isBlank).head?, c ≠ 91) ∧
    ∀ e ∈ parseSection [chop line], e.name ≠ key

/-- The surroundings: the section starts nowhere before, and no other line of it has the key. -/
structure Surrounds (before : List (List Byte)) (name : List Byte) (inside : List (List Byte))
    (key rest : List Byte) : Prop where
  before : ∀ l ∈ before, newline ∉ l ∧ sectionName (chop l) ≠ some name
  inside : ∀ l ∈ inside, newline ∉ l ∧ Elsewhere key l
  rest : ∀ e ∈ parseSection (fileLines rest), e.name ≠ key

/-- The names can be found: they have no space and no capital letters, the name of the section has no
bracket, the key no equals sign, and the key does not look like a comment or the start of a section. -/
def Findable (name key : List Byte) : Prop :=
  normal name = name ∧ 93 ∉ name ∧ normal key = key ∧ 61 ∉ key ∧ ∀ c ∈ key.head?, c ∉ [35, 59, 91]

/-! ## The members of a line -/

/-- The state between two members. -/
def between (ms : List (List Byte)) : Members :=
  { out := ms.flatMap (· ++ [0]), listCount := ms.length }

theorem step_quote {m : Members} (h : m.lastc = 0) :
    m.step 34 = { m with quoteMode := !m.quoteMode } := by
  rw [Members.step, if_pos ⟨rfl, by rw [h]; decide⟩]

theorem step_put {m : Members} {c : Byte} (hq : m.quoteMode = true) (hc : c ≠ 34 ∧ c ≠ 92 ∧ c ≠ 0) :
    m.step c = m.put c := by
  rw [Members.step, if_neg fun h => hc.1 h.1, if_neg fun h => hc.2.1 h.1, if_pos ⟨hq, hc.2.2⟩]

theorem isBlank_spec : ∀ c : Byte, isBlank c = true → c ≠ 34 ∧ c ≠ 92 ∧ isspace c = true := by
  decide +kernel

theorem step_blank {m : Members} {c : Byte} (hc : isBlank c = true) (hq : m.quoteMode = false) :
    m.step c = if m.thisMemberCount = 0 then m else m.close := by
  obtain ⟨h34, h92, hspace⟩ := isBlank_spec c hc
  rw [Members.step, if_neg fun h => h34 h.1, if_neg fun h => h92 h.1, if_neg (by simp [hq])]
  simp [hspace]

theorem step_end {m : Members} {c : Byte} (hc : c = 44 ∨ c = 0) (hq : m.quoteMode = false) :
    m.step c = m.close := by
  have hspec : c ≠ 34 ∧ c ≠ 92 ∧ isspace c = false := by
    obtain rfl | rfl := hc <;> decide
  obtain ⟨h34, h92, hspace⟩ := hspec
  rw [Members.step, if_neg fun h => h34 h.1, if_neg fun h => h92 h.1, if_neg (by simp [hq]),
    if_neg (by simp [hspace]), if_pos (Or.inr hc)]

theorem foldl_put {v : List Byte} (hv : ∀ c ∈ v, c ≠ 34 ∧ c ≠ 92 ∧ c ≠ 0) {m : Members}
    (hq : m.quoteMode = true) : v.foldl Members.step m =
      { m with out := m.out ++ v, thisMemberCount := m.thisMemberCount + v.length } := by
  induction v generalizing m with
  | nil => simp
  | cons c v ih =>
    obtain ⟨hc, hv⟩ := List.forall_mem_cons.mp hv
    rw [List.foldl_cons, step_put hq hc, ih hv (by exact hq), Members.put]
    simp [Nat.add_comm, Nat.add_assoc]

theorem foldl_blanks {l : List Byte} (hl : ∀ c ∈ l, isBlank c = true) {m : Members}
    (hq : m.quoteMode = false) (h0 : m.thisMemberCount = 0) : l.foldl Members.step m = m := by
  induction l with
  | nil => rfl
  | cons c l ih =>
    obtain ⟨hc, hl⟩ := List.forall_mem_cons.mp hl
    rw [List.foldl_cons, step_blank hc hq, if_pos h0, ih hl]

/-- A value that can be kept. -/
def Plain (value : List Byte) : Prop := 34 ∉ value ∧ 92 ∉ value ∧ newline ∉ value

theorem quoted_plain {v : List Byte} (h : Plain v) : quoted v = 34 :: v ++ [34] := by
  obtain ⟨h34, h92, -⟩ := h
  have hall : ∀ c ∈ v, (if c = 34 ∨ c = 92 then [92, c] else [c]) = [c] := by
    intro c hc
    refine if_neg ?_
    rintro (rfl | rfl)
    · exact h34 hc
    · exact h92 hc
  rw [quoted, List.flatMap_congr hall, List.flatMap_singleton']

/-- The state behind a value. -/
def behind (ms : List (List Byte)) (v : List Byte) : Members :=
  { between ms with out := (between ms).out ++ v, thisMemberCount := v.length }

theorem close_behind (ms : List (List Byte)) (v : List Byte) :
    (behind ms v).close = between (ms ++ [v]) := by
  simp [behind, Members.close, between]

theorem foldl_value {lead v : List Byte} (hlead : ∀ c ∈ lead, isBlank c = true) (hv : Plain v)
    (h0 : 0 ∉ v) (ms : List (List Byte)) :
    (lead ++ quoted v).foldl Members.step (between ms) = behind ms v := by
  have hchars : ∀ c ∈ v, c ≠ 34 ∧ c ≠ 92 ∧ c ≠ 0 := fun c hc =>
    ⟨fun e => hv.1 (e ▸ hc), fun e => hv.2.1 (e ▸ hc), fun e => h0 (e ▸ hc)⟩
  have hopen : (34 :: v).foldl Members.step (between ms) =
      { between ms with quoteMode := true, out := (between ms).out ++ v, thisMemberCount := v.length } := by
    rw [List.foldl_cons, step_quote rfl, foldl_put hchars rfl]
    simp [between]
  rw [quoted_plain hv, List.foldl_append, foldl_blanks hlead rfl rfl, List.foldl_append, hopen]
  rw [List.foldl_cons, List.foldl_nil, step_quote rfl]
  rfl

/-- The members that a value and the blanks behind it become. -/
def Item.members (x : Item) : List (List Byte) :=
  if x.value ≠ [] ∧ x.trail ≠ [] then [x.value, []] else [x.value]

/-- What can be kept, and stands between blanks. -/
structure Item.Fit (x : Item) : Prop where
  lead : ∀ c ∈ x.lead, isBlank c = true
  trail : ∀ c ∈ x.trail, isBlank c = true
  plain : Plain x.value
  noNul : 0 ∉ x.value

theorem foldl_item {x : Item} (hx : x.Fit) {c : Byte} (hc : c = 44 ∨ c = 0) (ms : List (List Byte)) :
    (x.text ++ [c]).foldl Members.step (between ms) = between (ms ++ x.members) := by
  rw [Item.text, List.foldl_append, List.foldl_append, foldl_value hx.lead hx.plain hx.noNul,
    List.foldl_cons, List.foldl_nil]
  have htrail := hx.trail
  unfold Item.members
  cases hb : x.trail with
  | nil =>
    rw [if_neg (by simp), List.foldl_nil, step_end hc rfl, close_behind]
  | cons b bs =>
    rw [hb] at htrail
    obtain ⟨hblank, hblanks⟩ := List.forall_mem_cons.mp htrail
    by_cases hv : x.value = []
    · rw [if_neg (by simp [hv]), foldl_blanks htrail rfl (by rw [hv]; rfl), step_end hc rfl,
        close_behind]
    · have hcount : (behind ms x.value).thisMemberCount ≠ 0 := by simpa [behind] using hv
      rw [if_pos ⟨hv, List.cons_ne_nil _ _⟩, List.foldl_cons, step_blank hblank rfl, if_neg hcount,
        close_behind, foldl_blanks hblanks rfl rfl, step_end hc rfl]
      simp [between, Members.close]

/-- The list without the blanks at its end. -/
def bareText : List Item → List Byte
  | [] => []
  | [x] => x.lead ++ quoted x.value
  | x :: y :: items => x.text ++ 44 :: bareText (y :: items)

/-- The members that a line becomes. -/
def stored : List Item → List (List Byte)
  | [] => [[]]
  | [x] => [x.value]
  | x :: y :: items => x.members ++ stored (y :: items)

theorem foldl_bareText {items : List Item} (h : ∀ x ∈ items, x.Fit) (ms : List (List Byte)) :
    (bareText items ++ [0]).foldl Members.step (between ms) = between (ms ++ stored items) := by
  induction items generalizing ms with
  | nil =>
    rw [bareText, List.nil_append, List.foldl_cons, List.foldl_nil, step_end (.inr rfl) rfl]
    simp [between, Members.close, stored]
  | cons x items ih =>
    obtain ⟨hx, hitems⟩ := List.forall_mem_cons.mp h
    cases items with
    | nil =>
      rw [bareText, List.foldl_append, foldl_value hx.lead hx.plain hx.noNul, List.foldl_cons,
        List.foldl_nil, step_end (.inr rfl) rfl, close_behind, stored]
    | cons y items =>
      have hsplit : x.text ++ 44 :: bareText (y :: items) ++ [0] =
          (x.text ++ [44]) ++ (bareText (y :: items) ++ [0]) := by simp
      rw [bareText, hsplit, List.foldl_append, foldl_item hx (.inl rfl), ih hitems, stored,
        List.append_assoc]

theorem members_bareText {items : List Item} (h : ∀ x ∈ items, x.Fit) :
    members (bareText items) = between (stored items) := foldl_bareText h []

theorem length_stored (items : List Item) : items.length ≤ (stored items).length := by
  induction items with
  | nil => exact Nat.zero_le _
  | cons x items ih =>
    cases items with
    | nil => exact le_rfl
    | cons y items =>
      have hpos : 1 ≤ x.members.length := by
        unfold Item.members
        split_ifs <;> simp
      rw [stored, List.length_append, List.length_cons]
      omega

/-- The members are the values if no blanks between a value and a comma get a member. -/
theorem stored_eq_iff (items : List Item) : stored items = items.map Item.value ↔
    items ≠ [] ∧ ∀ x ∈ items.dropLast, x.value ≠ [] → x.trail = [] := by
  induction items with
  | nil => simp [stored]
  | cons x items ih =>
    cases items with
    | nil => simp [stored]
    | cons y items =>
      have hlen := length_stored (y :: items)
      rw [stored, List.dropLast_cons_cons, List.forall_mem_cons, List.map_cons]
      unfold Item.members
      split_ifs with hx
      · constructor
        · intro heq
          have := congrArg List.length heq
          simp only [List.length_append, List.length_cons, List.length_nil, List.length_map] at this hlen
          omega
        · rintro ⟨-, hxt, -⟩
          exact absurd (hxt hx.1) hx.2
      · rw [List.singleton_append, List.cons.injEq, ih]
        have hx' : x.value ≠ [] → x.trail = [] := fun hv => by_contra fun ht => hx ⟨hv, ht⟩
        exact ⟨fun h => ⟨List.cons_ne_nil _ _, hx', h.2.2⟩,
          fun h => ⟨rfl, List.cons_ne_nil _ _, h.2.2⟩⟩

/-! ## The block of values -/

theorem skipStrings_flatMap {ms : List (List Byte)} (h : ∀ m ∈ ms, 0 ∉ m) (i : ℕ) :
    skipStrings i (ms.flatMap (· ++ [0])) = (ms.drop i).flatMap (· ++ [0]) := by
  induction i generalizing ms with
  | zero => rfl
  | succ i ih =>
    cases ms with
    | nil =>
      have hnil := @ih [] nofun
      rw [List.drop_nil] at hnil ⊢
      exact hnil
    | cons m ms =>
      obtain ⟨hm, hms⟩ := List.forall_mem_cons.mp h
      have hall : ∀ c ∈ m, decide (c ≠ 0) = true := fun c hc => decide_eq_true fun e => hm (e ▸ hc)
      rw [skipStrings, List.flatMap_cons, List.append_assoc, List.dropWhile_append_of_pos hall,
        List.singleton_append, List.dropWhile_cons_of_neg (by decide), List.tail_cons, ih hms,
        List.drop_succ_cons]

theorem cstr_flatMap {m : List Byte} (hm : 0 ∉ m) (more : List Byte) : cstr (m ++ 0 :: more) = m := by
  have hall : ∀ c ∈ m, decide (c ≠ 0) = true := fun c hc => decide_eq_true fun e => hm (e ▸ hc)
  rw [cstr, List.takeWhile_append_of_pos hall, List.takeWhile_cons_of_neg (by decide), List.append_nil]

/-- The strings of the block are found again. -/
theorem valueIndex_between {ms : List (List Byte)} (h : ∀ m ∈ ms, 0 ∉ m) (name : List Byte) (i : ℕ)
    (default : Option (List Byte)) :
    valueIndex (some ⟨name, (between ms).out, (between ms).listCount⟩) i default =
      (ms[i]?).or default := by
  rw [valueIndex]
  by_cases hi : ms.length ≤ i
  · rw [if_pos (by exact_mod_cast hi), List.getElem?_eq_none hi, Option.none_or]
  · have hlt : i < ms.length := Nat.lt_of_not_le hi
    rw [if_neg (by exact_mod_cast hi), List.getElem?_eq_getElem hlt, Option.some_or]
    show some (cstr (skipStrings i (ms.flatMap (· ++ [0])))) = _
    rw [skipStrings_flatMap h, List.drop_eq_getElem_cons hlt, List.flatMap_cons, List.append_assoc,
      List.singleton_append, cstr_flatMap (h _ (List.getElem_mem hlt))]

/-! ## What is stored -/

theorem step_lastc (m : Members) (c : Byte) : (m.step c).lastc = m.lastc := by
  unfold Members.step
  split_ifs <;> rfl

/-- Quotes and backslashes are never stored. -/
theorem mem_step_out {m : Members} (h : m.lastc = 0) {b c : Byte} (hb : b ∈ (m.step c).out) :
    b ∈ m.out ∨ b = 0 ∨ b = c ∧ c ≠ 34 ∧ c ≠ 92 := by
  have hlast : m.lastc ≠ 92 := by rw [h]; decide
  unfold Members.step at hb
  simp only [hlast, ne_eq, not_false_eq_true, and_true] at hb
  split_ifs at hb with h34 h92
  · exact .inl hb
  · exact .inl hb
  · obtain hb | hb := List.mem_append.mp hb
    · exact .inl hb
    · exact .inr (.inr ⟨List.mem_singleton.mp hb, h34, h92⟩)
  · exact .inl hb
  · obtain hb | hb := List.mem_append.mp hb
    · exact .inl hb
    · exact .inr (.inl (List.mem_singleton.mp hb))
  · obtain hb | hb := List.mem_append.mp hb
    · exact .inl hb
    · exact .inr (.inr ⟨List.mem_singleton.mp hb, h34, h92⟩)

theorem mem_foldl_out {l : List Byte} {m : Members} (h : m.lastc = 0) {b : Byte}
    (hb : b ∈ (l.foldl Members.step m).out) : b ∈ m.out ∨ b = 0 ∨ b ∈ l ∧ b ≠ 34 ∧ b ≠ 92 := by
  induction l generalizing m with
  | nil => exact .inl hb
  | cons c l ih =>
    obtain hb | hb | ⟨hb, hne⟩ := ih ((step_lastc m c).trans h) hb
    · obtain hb | hb | ⟨rfl, hne⟩ := mem_step_out h hb
      · exact .inl hb
      · exact .inr (.inl hb)
      · exact .inr (.inr ⟨List.mem_cons_self, hne⟩)
    · exact .inr (.inl hb)
    · exact .inr (.inr ⟨List.mem_cons_of_mem _ hb, hne⟩)

theorem mem_values_parseLine {si : List Byte} {b : Byte} (hb : b ∈ (parseLine si).values) :
    b = 0 ∨ b ∈ si ∧ b ≠ 34 ∧ b ≠ 92 := by
  obtain hb | hb | ⟨hb, hne⟩ := mem_foldl_out (l := _ ++ [0]) (m := {}) rfl hb
  · cases hb
  · exact .inl hb
  · obtain hb | hb := List.mem_append.mp hb
    · right
      refine ⟨?_, hne⟩
      split_ifs at hb
      · exact (List.dropWhile_suffix _).subset (List.tail_subset _ hb)
      · exact hb
    · exact .inl (List.mem_singleton.mp hb)

theorem mem_parseSection {lines : List (List Byte)} {e : Entry} (he : e ∈ parseSection lines) :
    ∃ line ∈ lines, e = parseLine (line.dropWhile isBlank) := by
  induction lines with
  | nil => cases he
  | cons line lines ih =>
    have hlater (he : e ∈ parseSection lines) :
        ∃ line' ∈ line :: lines, e = parseLine (line'.dropWhile isBlank) := by
      obtain ⟨line', hmem, heq⟩ := ih he
      exact ⟨line', List.mem_cons_of_mem _ hmem, heq⟩
    rw [parseSection] at he
    split at he
    · exact hlater he
    · rename_i hline
      split_ifs at he
      · exact hlater he
      · cases he
      · obtain rfl | he := List.mem_cons.mp he
        · exact ⟨line, List.mem_cons_self, by rw [hline]⟩
        · exact hlater he

theorem mem_sectionLoad {file name : List Byte} {list : List Entry} {e : Entry}
    (h : sectionLoad file name = some list) (he : e ∈ list) :
    ∃ line ∈ fileLines file, e = parseLine (line.dropWhile isBlank) := by
  unfold sectionLoad at h
  split at h
  · cases h
  · rename_i hdrop
    cases h
    obtain ⟨line, hline, heq⟩ := mem_parseSection he
    have hmem : line ∈ (fileLines file).dropWhile _ := hdrop ▸ List.mem_cons_of_mem _ hline
    exact ⟨line, (List.dropWhile_suffix _).subset hmem, heq⟩

theorem getValue_spec {file name key : List Byte} {e : Entry}
    (h : getValue (sectionLoad file name) key = some e) :
    e.name = key ∧ ∃ line ∈ fileLines file, e = parseLine (line.dropWhile isBlank) := by
  obtain ⟨list, hlist, hfind⟩ := Option.bind_eq_some_iff.mp h
  exact ⟨by simpa using List.find?_some hfind, mem_sectionLoad hlist (List.mem_of_find?_eq_some hfind)⟩

theorem skipStrings_subset (i : ℕ) (values : List Byte) : skipStrings i values ⊆ values := by
  induction i generalizing values with
  | zero => exact List.Subset.refl _
  | succ i ih =>
    intro b hb
    exact (List.dropWhile_suffix _).subset (List.tail_subset _ (ih _ hb))

/-- Only plain text is ever returned. -/
theorem plain_valueIndex {file name key v : List Byte} {i : ℤ}
    (h : valueIndex (getValue (sectionLoad file name) key) i none = some v) : Plain v := by
  unfold valueIndex at h
  split at h
  · cases h
  · rename_i e he
    split_ifs at h
    cases h
    obtain ⟨-, line, hline, rfl⟩ := getValue_spec he
    obtain ⟨raw, hraw, rfl⟩ := List.mem_map.mp hline
    have hmem : ∀ b ∈ cstr (skipStrings i.toNat (parseLine ((chop raw).dropWhile isBlank)).values),
        b ∈ chop raw ∧ b ≠ 34 ∧ b ≠ 92 := by
      intro b hb
      have h0 : b ≠ 0 := by simpa using List.mem_takeWhile_imp hb
      have hvalue := skipStrings_subset _ _ ((List.takeWhile_prefix _).subset hb)
      obtain rfl | ⟨hb, hne⟩ := mem_values_parseLine hvalue
      · exact absurd rfl h0
      · exact ⟨(List.dropWhile_suffix _).subset hb, hne⟩
    exact ⟨fun hb => (hmem _ hb).2.1 rfl, fun hb => (hmem _ hb).2.2 rfl,
      fun hb => newline_notMem_chop hraw (hmem _ hb).1⟩

/-! ## Names -/

theorem normal_spec : ∀ c : Byte, (isspace c = false → isspace (tolower c) = false) ∧
    tolower (tolower c) = tolower c ∧ (tolower c = 61 → c = 61) ∧ (tolower c = 93 → c = 93) := by
  decide +kernel

theorem normal_normal (s : List Byte) : normal (normal s) = normal s := by
  have hspace : ((s.filter fun c => !isspace c).map tolower).filter (fun c => !isspace c) =
      (s.filter fun c => !isspace c).map tolower := by
    rw [List.filter_eq_self]
    intro c hc
    obtain ⟨b, hb, rfl⟩ := List.mem_map.mp hc
    have := (normal_spec b).1 (by simpa using (List.mem_filter.mp hb).2)
    simpa using this
  unfold normal
  rw [hspace, List.map_map]
  exact List.map_congr_left fun c _ => (normal_spec c).2.1

theorem normal_eq_self {s : List Byte} (h : normal s = s) : ∀ c ∈ s, isspace c = false := by
  have hlen := congrArg List.length h
  rw [normal, List.length_map, List.length_filter_eq_length_iff] at hlen
  intro c hc
  simpa using hlen c hc

theorem mem_normal {s : List Byte} {c : Byte} (h : c ∈ normal s) : ∃ b ∈ s, tolower b = c := by
  obtain ⟨b, hb, rfl⟩ := List.mem_map.mp h
  exact ⟨b, List.mem_of_mem_filter hb, rfl⟩

theorem sectionName_spec {line name : List Byte} (h : sectionName line = some name) :
    normal name = name ∧ 93 ∉ name := by
  unfold sectionName at h
  split at h
  · cases h
  · split_ifs at h
    cases h
    refine ⟨normal_normal _, fun hmem => ?_⟩
    obtain ⟨b, hb, hlow⟩ := mem_normal hmem
    obtain rfl := (normal_spec b).2.2.2 hlow
    simpa using List.mem_takeWhile_imp hb

theorem parseLine_name (si : List Byte) :
    normal (parseLine si).name = (parseLine si).name ∧ 61 ∉ (parseLine si).name := by
  unfold parseLine
  dsimp only
  split_ifs
  · refine ⟨normal_normal _, fun hmem => ?_⟩
    obtain ⟨b, hb, hlow⟩ := mem_normal hmem
    obtain rfl := (normal_spec b).2.2.1 hlow
    simpa using List.mem_takeWhile_imp hb
  · exact ⟨rfl, List.not_mem_nil⟩

/-! ## The line in its file -/

theorem zero_notMem_stored {items : List Item} (h : ∀ x ∈ items, x.Fit) : ∀ m ∈ stored items, 0 ∉ m := by
  induction items with
  | nil => simp [stored]
  | cons x items ih =>
    obtain ⟨hx, hitems⟩ := List.forall_mem_cons.mp h
    cases items with
    | nil => simpa [stored] using hx.noNul
    | cons y items =>
      have hmembers : ∀ m ∈ x.members, 0 ∉ m := by
        intro m hm
        have hor : m = x.value ∨ m = [] := by
          unfold Item.members at hm
          split_ifs at hm <;> simp at hm
          · exact hm
          · exact .inl hm
        obtain rfl | rfl := hor
        · exact hx.noNul
        · exact List.not_mem_nil
      intro m hm
      exact (List.mem_append.mp hm).elim (hmembers m) (ih hitems m)

theorem chop_blanks {l : List Byte} (h : ∀ c ∈ l, isBlank c = true) : chop l = [] := by
  rw [chop, List.rdropWhile_eq_nil_iff]
  exact fun c hc => (isBlank_spec c (h c hc)).2.2

/-- The blanks behind the last value are all that the list has behind its bare text. -/
theorem listText_eq {items : List Item} (h : ∀ x ∈ items, ∀ c ∈ x.trail, isBlank c = true) :
    ∃ blanks, (∀ c ∈ blanks, isBlank c = true) ∧ listText items = bareText items ++ blanks := by
  induction items with
  | nil => exact ⟨[], by simp, rfl⟩
  | cons x items ih =>
    obtain ⟨hx, hitems⟩ := List.forall_mem_cons.mp h
    cases items with
    | nil => exact ⟨x.trail, hx, rfl⟩
    | cons y items =>
      obtain ⟨blanks, hblanks, heq⟩ := ih hitems
      refine ⟨blanks, hblanks, ?_⟩
      rw [listText, bareText, heq]
      simp

theorem getLast?_bareText (items : List Item) : ∀ b ∈ (61 :: bareText items).getLast?, b = 61 ∨ b = 34 := by
  induction items with
  | nil => simp [bareText]
  | cons x items ih =>
    cases items with
    | nil =>
      have hlast : 61 :: bareText [x] = (61 :: x.lead ++ 34 ::
          (x.value.flatMap fun c => if c = 34 ∨ c = 92 then [92, c] else [c])) ++ [34] := by
        simp [bareText, quoted]
      rw [hlast, List.getLast?_concat]
      simp
    | cons y items =>
      have hne : bareText (y :: items) ≠ [] := by
        cases items <;> simp [bareText, Item.text, quoted]
      intro b hb
      refine ih b ?_
      rw [bareText, ← List.cons_append, List.getLast?_append_cons, List.getLast?_cons_of_ne_nil hne] at hb
      rwa [List.getLast?_cons_of_ne_nil hne]

/-- `gu_getline()` takes the blanks at the end of the line. -/
theorem chop_assignment {items : List Item} (h : ∀ x ∈ items, ∀ c ∈ x.trail, isBlank c = true)
    {trailing : List Byte} (ht : ∀ c ∈ trailing, isBlank c = true) (key gap : List Byte) :
    chop (assignment key gap items trailing) = key ++ gap ++ 61 :: bareText items := by
  obtain ⟨blanks, hblanks, heq⟩ := listText_eq h
  have hsplit : assignment key gap items trailing =
      (key ++ gap ++ 61 :: bareText items) ++ (blanks ++ trailing) := by
    rw [assignment, heq]
    simp
  have hends : ∀ c ∈ blanks ++ trailing, isBlank c = true := by
    intro c hc
    exact (List.mem_append.mp hc).elim (hblanks c) (ht c)
  rw [hsplit, chop_append_of_eq (chop_blanks hends), chop_eq_self_iff, List.getLast?_append_cons]
  intro b hb
  obtain rfl | rfl := getLast?_bareText items b hb <;> decide

theorem normal_append (s t : List Byte) : normal (s ++ t) = normal s ++ normal t := by
  simp [normal]

theorem normal_blanks {l : List Byte} (h : ∀ c ∈ l, isBlank c = true) : normal l = [] := by
  have hnone : l.filter (fun c => !isspace c) = [] := by
    rw [List.filter_eq_nil_iff]
    intro c hc
    simp [(isBlank_spec c (h c hc)).2.2]
  rw [normal, hnone, List.map_nil]

theorem parseLine_assignment {k key v : List Byte} (hk : normal k = key) (h61 : 61 ∉ k) :
    parseLine (k ++ 61 :: v) = ⟨key, (members v).out, (members v).listCount⟩ := by
  have hall : ∀ c ∈ k, decide (c ≠ 61) = true := fun c hc => decide_eq_true fun e => h61 (e ▸ hc)
  have hmem : (61 : Byte) ∈ k ++ 61 :: v := by simp
  rw [parseLine, if_pos hmem, if_pos hmem, List.takeWhile_append_of_pos hall,
    List.dropWhile_append_of_pos hall, List.takeWhile_cons_of_neg (by decide),
    List.dropWhile_cons_of_neg (by decide), List.append_nil, List.tail_cons, hk]

/-- The line is read as a line of the key. -/
theorem parseSection_assignment {name key gap : List Byte} (hf : Findable name key)
    (hgap : ∀ c ∈ gap, isBlank c = true) (v : List Byte) (lines : List (List Byte)) :
    parseSection ((key ++ gap ++ 61 :: v) :: lines) =
      ⟨key, (members v).out, (members v).listCount⟩ :: parseSection lines := by
  obtain ⟨-, -, hkey, h61, hhead⟩ := hf
  cases key with
  | nil =>
    have hdrop : ([] ++ gap ++ 61 :: v).dropWhile isBlank = 61 :: v := by
      rw [List.nil_append, List.dropWhile_append_of_pos hgap, List.dropWhile_cons_of_neg (by decide)]
    rw [parseSection, hdrop]
    have hline := parseLine_assignment (k := []) (v := v) rfl h61
    rw [List.nil_append] at hline
    simp only [hline]
    rfl
  | cons c key =>
    have hspace := normal_eq_self hkey c List.mem_cons_self
    have hblank : ¬isBlank c = true := by
      intro hb
      rw [(isBlank_spec c hb).2.2] at hspace
      cases hspace
    have hgap61 : 61 ∉ gap := by
      intro hmem
      exact absurd (hgap 61 hmem) (by decide)
    have hkeygap : normal (c :: key ++ gap) = c :: key := by
      rw [normal_append, hkey, normal_blanks hgap, List.append_nil]
    have h61gap : 61 ∉ c :: key ++ gap := by
      rw [List.mem_append, not_or]
      exact ⟨h61, hgap61⟩
    have hline := parseLine_assignment (v := v) hkeygap h61gap
    have hc := hhead c rfl
    simp only [List.mem_cons, not_or] at hc
    rw [parseSection, List.cons_append, List.cons_append, List.dropWhile_cons_of_neg hblank]
    simp only [List.cons_append] at hline
    simp only [hc, false_or, if_false, hline]

theorem find?_parseSection {key : List Byte} {l : List Byte} (h : Elsewhere key l)
    (lines : List (List Byte)) : (parseSection (chop l :: lines)).find? (fun e => e.name = key) =
      (parseSection lines).find? fun e => e.name = key := by
  obtain ⟨hstart, hname⟩ := h
  rw [parseSection] at hname ⊢
  cases hline : (chop l).dropWhile isBlank with
  | nil => rfl
  | cons c si =>
    rw [hline] at hstart hname
    have h91 : c ≠ 91 := hstart c rfl
    dsimp only at hname ⊢
    split_ifs at hname ⊢ with hcomment
    · rfl
    · have hne := hname _ List.mem_cons_self
      rw [List.find?_cons_of_neg (by simpa using hne)]

theorem find?_parseSection_inside {key : List Byte} {inside : List (List Byte)}
    (h : ∀ l ∈ inside, Elsewhere key l) (lines : List (List Byte)) :
    (parseSection (inside.map chop ++ lines)).find? (fun e => e.name = key) =
      (parseSection lines).find? fun e => e.name = key := by
  induction inside with
  | nil => rfl
  | cons l inside ih =>
    obtain ⟨hl, hinside⟩ := List.forall_mem_cons.mp h
    rw [List.map_cons, List.cons_append, find?_parseSection hl, ih hinside]

theorem sectionName_header {name key : List Byte} (hf : Findable name key) :
    chop (91 :: name ++ [93]) = 91 :: name ++ [93] ∧ sectionName (91 :: name ++ [93]) = some name := by
  obtain ⟨hname, h93, -⟩ := hf
  constructor
  · rw [chop_eq_self_iff, List.getLast?_concat]
    simp only [Option.mem_some_iff, forall_eq']
    decide
  · have hall : ∀ c ∈ name, decide (c ≠ 93) = true := fun c hc => decide_eq_true fun e => h93 (e ▸ hc)
    rw [List.cons_append, sectionName, if_pos ⟨rfl, by simp⟩, List.takeWhile_append_of_pos hall,
      List.takeWhile_cons_of_neg (by decide), List.append_nil, hname]

section

variable {before inside : List (List Byte)} {name key gap trailing rest : List Byte}
  {items : List Item}

theorem newline_notMem_assignment (hf : Findable name key) (hgap : ∀ c ∈ gap, isBlank c = true)
    (ht : ∀ c ∈ trailing, isBlank c = true) (hitems : ∀ x ∈ items, x.Fit) :
    newline ∉ assignment key gap items trailing := by
  have hblank {l : List Byte} (h : ∀ c ∈ l, isBlank c = true) : newline ∉ l := by
    intro hmem
    exact absurd (h _ hmem) (by decide)
  have hkey : newline ∉ key := by
    intro hmem
    exact absurd (normal_eq_self hf.2.2.1 _ hmem) (by decide)
  have htext : ∀ x ∈ items, newline ∉ x.text := by
    intro x hx
    rw [Item.text, quoted_plain (hitems x hx).plain]
    simp [hblank (hitems x hx).lead, hblank (hitems x hx).trail, (hitems x hx).plain.2.2]
    decide
  have hlist : newline ∉ listText items := by
    clear hitems
    induction items with
    | nil => exact List.not_mem_nil
    | cons x items ih =>
      obtain ⟨hx, hxs⟩ := List.forall_mem_cons.mp htext
      cases items with
      | nil => exact hx
      | cons y items =>
        have h44 : newline ≠ 44 := by decide
        rw [listText, List.mem_append, List.mem_cons, not_or, not_or]
        exact ⟨hx, h44, ih hxs⟩
  rw [assignment]
  simp [hkey, hblank hgap, hblank ht, hlist]
  decide

theorem fileLines_fileText (hf : Findable name key) (hs : Surrounds before name inside key rest)
    {line : List Byte} (hline : newline ∉ line) :
    fileLines (fileText before name inside line rest) =
      before.map chop ++ (91 :: name ++ [93]) :: (inside.map chop ++ chop line :: fileLines rest) := by
  have hname : newline ∉ 91 :: name ++ [93] := by
    have hnot : newline ∉ name := by
      intro hmem
      exact absurd (normal_eq_self hf.1 _ hmem) (by decide)
    simp [hnot]
    decide
  have hlines : ∀ l ∈ before ++ (91 :: name ++ [93]) :: inside ++ [line], newline ∉ l := by
    intro l hl
    simp only [List.mem_append, List.mem_cons, List.not_mem_nil, or_false] at hl
    obtain (hl | rfl | hl) | rfl := hl
    · exact (hs.before l hl).1
    · exact hname
    · exact (hs.inside l hl).1
    · exact hline
  have hchop (ls : List (List Byte)) : (ls.map (· ++ [newline])).map chop = ls.map chop := by
    rw [List.map_map]
    exact List.map_congr_left fun l _ => chop_concat_newline l
  rw [fileLines, fileText, rawLines_flatMap hlines, List.map_append, hchop]
  rw [List.map_append, List.map_append, List.map_cons, (sectionName_header hf).1, fileLines]
  simp only [List.map_cons, List.map_nil, List.append_assoc, List.cons_append, List.nil_append]

/-- The entry that is found for the key. -/
theorem getValue_fileText (hf : Findable name key) (hs : Surrounds before name inside key rest)
    (hgap : ∀ c ∈ gap, isBlank c = true) (ht : ∀ c ∈ trailing, isBlank c = true)
    (hitems : ∀ x ∈ items, x.Fit) :
    getValue (sectionLoad (fileText before name inside (assignment key gap items trailing) rest) name)
      key = some ⟨key, (between (stored items)).out, (between (stored items)).listCount⟩ := by
  have hbefore : ∀ l ∈ before.map chop, decide (sectionName l ≠ some name) = true := by
    intro l hl
    obtain ⟨raw, hraw, rfl⟩ := List.mem_map.mp hl
    exact decide_eq_true (hs.before raw hraw).2
  have hload : sectionLoad (fileText before name inside (assignment key gap items trailing) rest) name =
      some (parseSection (inside.map chop ++ chop (assignment key gap items trailing) ::
        fileLines rest)) := by
    have hheader : ¬decide (sectionName (91 :: name ++ [93]) ≠ some name) = true := by
      rw [(sectionName_header hf).2]
      simp
    rw [sectionLoad, fileLines_fileText hf hs (newline_notMem_assignment hf hgap ht hitems),
      List.dropWhile_append_of_pos hbefore, List.dropWhile_cons_of_neg]
    exact hheader
  rw [hload, getValue, Option.bind_some,
    find?_parseSection_inside fun l hl => (hs.inside l hl).2,
    chop_assignment (fun x hx => (hitems x hx).trail) ht, parseSection_assignment hf hgap,
    List.find?_cons_of_pos (by simp), members_bareText hitems]

theorem mem_fileText {x : Item} (hx : x ∈ items) {b : Byte} (hb : b ∈ x.value) :
    b ∈ fileText before name inside (assignment key gap items trailing) rest := by
  have hquoted : b ∈ quoted x.value := by
    refine List.mem_append_left _ (List.mem_cons_of_mem _ (List.mem_flatMap.mpr ⟨b, hb, ?_⟩))
    split_ifs <;> simp
  have hlist : b ∈ listText items := by
    induction items with
    | nil => cases hx
    | cons y items ih =>
      have hhead : x = y → b ∈ y.text := by
        rintro rfl
        exact List.mem_append_left _ (List.mem_append_right _ hquoted)
      cases items with
      | nil => exact hhead (List.mem_singleton.mp hx)
      | cons z items =>
        rw [listText, List.mem_append, List.mem_cons]
        exact (List.mem_cons.mp hx).imp hhead fun hx => .inr (ih hx)
  have hline : b ∈ assignment key gap items trailing := by simp [assignment, hlist]
  simp [fileText, hline]

/-- A list of values is read back if no value has a quote or a backslash and no blanks stand between a
value and a comma. -/
theorem valueIndex_fileText_iff (hf : Findable name key) (hs : Surrounds before name inside key rest)
    (hgap : ∀ c ∈ gap, isBlank c = true) (ht : ∀ c ∈ trailing, isBlank c = true)
    (hitems : ∀ x ∈ items, ∀ c ∈ x.lead ++ x.trail, isBlank c = true)
    (hnul : 0 ∉ fileText before name inside (assignment key gap items trailing) rest) :
    (∀ (i : ℕ) (default : Option (List Byte)),
      valueIndex (getValue (sectionLoad
        (fileText before name inside (assignment key gap items trailing) rest) name) key) i default =
      (items[i]?.map Item.value).or default) ↔
    items ≠ [] ∧ (∀ x ∈ items, Plain x.value) ∧
      ∀ x ∈ items.dropLast, x.value ≠ [] → x.trail = [] := by
  have hfit (hplain : ∀ x ∈ items, Plain x.value) : ∀ x ∈ items, x.Fit := by
    intro x hx
    have hblank := hitems x hx
    exact ⟨fun c hc => hblank c (List.mem_append_left _ hc),
      fun c hc => hblank c (List.mem_append_right _ hc), hplain x hx,
      fun h0 => hnul (mem_fileText hx h0)⟩
  have hstored (hplain : ∀ x ∈ items, Plain x.value) (i : ℕ) (default : Option (List Byte)) :
      valueIndex (getValue (sectionLoad
        (fileText before name inside (assignment key gap items trailing) rest) name) key) i default =
      ((stored items)[i]?).or default := by
    have hfits := hfit hplain
    rw [getValue_fileText hf hs hgap ht hfits]
    exact valueIndex_between (zero_notMem_stored hfits) key i default
  constructor
  · intro h
    have hplain : ∀ x ∈ items, Plain x.value := by
      intro x hx
      obtain ⟨i, hi, rfl⟩ := List.mem_iff_getElem.mp hx
      refine plain_valueIndex (i := i) ((h i none).trans ?_)
      rw [List.getElem?_eq_getElem hi, Option.map_some, Option.some_or]
    have heq : stored items = items.map Item.value := by
      refine List.ext_getElem? fun i => ?_
      have hi := (hstored hplain i none).symm.trans (h i none)
      rwa [Option.or_none, Option.or_none, ← List.getElem?_map] at hi
    have hspaced := (stored_eq_iff items).mp heq
    exact ⟨hspaced.1, hplain, hspaced.2⟩
  · rintro ⟨hne, hplain, hspaced⟩ i default
    rw [hstored hplain, (stored_eq_iff items).mpr ⟨hne, hspaced⟩, List.getElem?_map]

end

/-- The second value of the line `k ="x", "y z"` is read from between two other sections with the key. -/
theorem valueIndex_fileText_iff_xy :
    valueIndex (getValue (sectionLoad (fileText [[91, 97, 93], [107, 61, 49]] [115] [[35, 32, 107, 61, 49]]
      (assignment [107] [32] [⟨[], [120], []⟩, ⟨[32], [121, 32, 122], []⟩] [9])
      [91, 98, 93, 10, 107, 61, 49, 10]) [115]) [107]) 1 none = some [121, 32, 122] := by
  refine (valueIndex_fileText_iff ?_ ?_ ?_ ?_ ?_ ?_).mpr ?_ 1 none
  · refine ⟨by decide, by decide, by decide, by decide, ?_⟩
    simp
  · refine ⟨by decide, ?_, by decide⟩
    intro l hl
    obtain rfl := List.mem_singleton.mp hl
    exact ⟨by decide, by decide, by decide⟩
  · decide
  · decide
  · decide
  · decide
  · refine ⟨by decide, ?_, by decide⟩
    intro x hx
    simp only [List.mem_cons, List.not_mem_nil, or_false] at hx
    obtain rfl | rfl := hx <;> exact ⟨by decide, by decide, by decide⟩

end Ppr.Ini
