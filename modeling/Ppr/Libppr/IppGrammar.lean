import Ppr.Libppr.IppReply

/-!
# The grammar of RFC 2910

A decoder for the messages of RFC 2910, written from the grammar and not from the code: first the
items of a message (delimiters and values) up to the end-of-attributes tag, then the attributes
(a value with a name and the values without one that follow it) and the groups (a delimiter and the
attributes that follow it).  `decode_items` says that it inverts the encoding.
-/

namespace Ppr

/-- A value of any kind. -/
structure WireValue where
  tag : Byte
  data : List Byte
  deriving DecidableEq

/-- An attribute. -/
structure WireAttr where
  name : List Byte
  values : List WireValue
  deriving DecidableEq

/-- An attribute group. -/
structure WireGroup where
  tag : Byte
  attrs : List WireAttr
  deriving DecidableEq

/-- What stands between two tags. -/
inductive WireItem where
  | delimiter (tag : Byte)
  | value (tag : Byte) (name data : List Byte)
  deriving DecidableEq

/-! ## Decoding -/

/-- A length of two octets and that many octets, with what follows. -/
def takeBlock : List Byte → Option (List Byte × List Byte)
  | a :: b :: l =>
    let n := a.toNat * 256 + b.toNat
    if n ≤ l.length then some (l.take n, l.drop n) else none
  | _ => none

/-- The items up to the end-of-attributes tag 0x03, which must be the last octet. -/
def decodeItems : ℕ → List Byte → Option (List WireItem)
  | 0, _ => none
  | _ + 1, [] => none
  | n + 1, tag :: l =>
    if tag = 0x03 then if l = [] then some [] else none
    else if tag.toNat < 0x10 then do
      let items ← decodeItems n l
      some (.delimiter tag :: items)
    else do
      let (name, l) ← takeBlock l
      let (data, l) ← takeBlock l
      let items ← decodeItems n l
      some (.value tag name data :: items)

/-- Items from the end on: values that belong to an attribute before them, attributes that belong to
a group before them, and groups. -/
def gather : List WireItem → Option (List WireValue × List WireAttr × List WireGroup)
  | [] => some ([], [], [])
  | .delimiter tag :: l => do
    let (values, attrs, groups) ← gather l
    if values = [] then some ([], [], ⟨tag, attrs⟩ :: groups) else none
  | .value tag name data :: l => do
    let (values, attrs, groups) ← gather l
    if name = [] then some (⟨tag, data⟩ :: values, attrs, groups)
    else some ([], ⟨name, ⟨tag, data⟩ :: values⟩ :: attrs, groups)

/-- The groups the items form; everything must belong to one. -/
def groupItems (items : List WireItem) : Option (List WireGroup) := do
  let (values, attrs, groups) ← gather items
  if values = [] ∧ attrs = [] then some groups else none

/-- The header and the groups of a message. -/
def decode (l : List Byte) : Option (List Byte × List WireGroup) := do
  if l.length < 8 then none
  else
    let items ← decodeItems l.length (l.drop 8)
    let groups ← groupItems items
    some (l.take 8, groups)

/-! ## Encoding -/

def WireItem.bytes : WireItem → List Byte
  | .delimiter tag => [tag]
  | .value tag name data => putValue tag name data

/-- The item can be told from what follows it. -/
def WireItem.Ok : WireItem → Prop
  | .delimiter tag => tag.toNat < 0x10 ∧ tag ≠ 0x03
  | .value tag name data => 0x10 ≤ tag.toNat ∧ name.length < 65536 ∧ data.length < 65536

theorem takeBlock_append {data : List Byte} (h : data.length < 65536) (l : List Byte) :
    takeBlock (lengthBytes data.length ++ (data ++ l)) = some (data, l) := by
  have hn : (BitVec.ofNat 8 (data.length / 256)).toNat * 256 +
      (BitVec.ofNat 8 (data.length % 256)).toNat = data.length := by
    rw [BitVec.toNat_ofNat, BitVec.toNat_ofNat, Nat.mod_eq_of_lt (by omega : _ < 2 ^ 8),
      Nat.mod_eq_of_lt (by omega : _ < 2 ^ 8)]
    omega
  show (if _ ≤ (data ++ l).length then some ((data ++ l).take _, (data ++ l).drop _) else none) = _
  rw [hn, if_pos (by rw [List.length_append]; omega), List.take_left, List.drop_left]

theorem decodeItems_bytes {i : WireItem} (hi : i.Ok) (n : ℕ) (l : List Byte) :
    decodeItems (n + 1) (i.bytes ++ l) = (decodeItems n l).map (i :: ·) := by
  cases i with
  | delimiter tag =>
    show (if _ then _ else if _ then decodeItems n l >>= _ else _) = _
    rw [if_neg hi.2, if_pos hi.1]
    cases decodeItems n l <;> rfl
  | value tag name data =>
    obtain ⟨htag, hname, hdata⟩ := hi
    have hne : tag ≠ 0x03 := by
      rintro rfl
      exact absurd htag (by decide)
    have hbytes : (WireItem.value tag name data).bytes ++ l =
        tag :: (lengthBytes name.length ++ (name ++ (lengthBytes data.length ++ (data ++ l)))) := by
      simp [WireItem.bytes, putValue]
    rw [hbytes]
    show (if _ then _ else if _ then _ else _) = _
    rw [if_neg hne, if_neg (by omega), takeBlock_append hname]
    show (takeBlock _ >>= _) = _
    rw [takeBlock_append hdata]
    show (decodeItems n l >>= _) = _
    cases decodeItems n l <;> rfl

/-- The decoder inverts the encoding. -/
theorem decode_items {items : List WireItem} (h : ∀ i ∈ items, i.Ok) (n : ℕ) :
    decodeItems (n + items.length + 1) (items.flatMap WireItem.bytes ++ [0x03]) = some items := by
  induction items with
  | nil => rfl
  | cons i items ih =>
    rw [List.flatMap_cons, List.append_assoc, List.length_cons, ← Nat.add_assoc,
      decodeItems_bytes (h i (List.mem_cons_self ..)),
      ih fun j hj => h j (List.mem_cons_of_mem i hj)]
    rfl

theorem length_takeBlock {l data rest : List Byte} (h : takeBlock l = some (data, rest)) :
    data.length < 65536 := by
  match l with
  | [] | [_] => cases h
  | a :: b :: l =>
    have ha := a.isLt
    have hb := b.isLt
    simp only [takeBlock] at h
    split_ifs at h with hn
    cases h
    rw [List.length_take]
    omega

/-- Whatever is decoded, no value is longer than its length field can say. -/
theorem decodeItems_short (n : ℕ) {l : List Byte} {items : List WireItem}
    (h : decodeItems n l = some items) {tag : Byte} {name data : List Byte}
    (hi : .value tag name data ∈ items) : data.length < 65536 := by
  induction n generalizing l items with
  | zero => cases h
  | succ n ih =>
    match l with
    | [] => cases h
    | c :: l =>
      simp only [decodeItems] at h
      split_ifs at h
      · cases h
        cases hi
      · obtain ⟨items', hr, he⟩ := Option.bind_eq_some_iff.1 h
        cases he
        rcases List.mem_cons.1 hi with hd | hm
        · cases hd
        · exact ih hr hm
      · obtain ⟨⟨name', l1⟩, -, h⟩ := Option.bind_eq_some_iff.1 h
        obtain ⟨⟨data', l2⟩, hd, h⟩ := Option.bind_eq_some_iff.1 h
        obtain ⟨items', hr, he⟩ := Option.bind_eq_some_iff.1 h
        cases he
        rcases List.mem_cons.1 hi with hv | hm
        · cases hv
          exact length_takeBlock hd
        · exact ih hr hm

/-! ## Attributes and groups -/

/-- The items of an attribute: the name goes with the first value. -/
def WireAttr.items (a : WireAttr) : List WireItem :=
  match a.values with
  | [] => []
  | v :: vs => .value v.tag a.name v.data :: vs.map fun v => .value v.tag [] v.data

def WireGroup.items (g : WireGroup) : List WireItem :=
  .delimiter g.tag :: g.attrs.flatMap WireAttr.items

theorem gather_more (vs : List WireValue) {l : List WireItem} {values : List WireValue}
    {attrs : List WireAttr} {groups : List WireGroup}
    (h : gather l = some (values, attrs, groups)) :
    gather ((vs.map fun v => WireItem.value v.tag [] v.data) ++ l) =
      some (vs ++ values, attrs, groups) := by
  induction vs with
  | nil => exact h
  | cons v vs ih =>
    rw [List.map_cons, List.cons_append, gather, ih]
    rfl

theorem gather_attr {a : WireAttr} (hname : a.name ≠ []) (hvalues : a.values ≠ [])
    {l : List WireItem} {attrs : List WireAttr} {groups : List WireGroup}
    (h : gather l = some ([], attrs, groups)) :
    gather (a.items ++ l) = some ([], a :: attrs, groups) := by
  obtain ⟨name, values⟩ := a
  match values with
  | [] => exact absurd rfl hvalues
  | v :: vs =>
    show gather (.value v.tag name v.data ::
      ((vs.map fun v => WireItem.value v.tag [] v.data) ++ l)) = _
    rw [gather, gather_more vs h]
    show (if name = [] then _ else _) = _
    rw [if_neg hname, List.append_nil]

/-- The attribute has a name and a value. -/
def WireAttr.Ok (a : WireAttr) : Prop := a.name ≠ [] ∧ a.values ≠ []

theorem gather_attrs (as : List WireAttr) (ha : ∀ a ∈ as, a.Ok) {l : List WireItem}
    {attrs : List WireAttr} {groups : List WireGroup}
    (h : gather l = some ([], attrs, groups)) :
    gather (as.flatMap WireAttr.items ++ l) = some ([], as ++ attrs, groups) := by
  induction as with
  | nil => exact h
  | cons a as ih =>
    obtain ⟨hname, hvalues⟩ := ha a (List.mem_cons_self ..)
    rw [List.flatMap_cons, List.append_assoc]
    exact gather_attr hname hvalues (ih fun b hb => ha b (List.mem_cons_of_mem a hb))

theorem gather_groups (gs : List WireGroup) (h : ∀ g ∈ gs, ∀ a ∈ g.attrs, a.Ok) :
    gather (gs.flatMap WireGroup.items) = some ([], [], gs) := by
  induction gs with
  | nil => rfl
  | cons g gs ih =>
    have hg := gather_attrs g.attrs (h g (List.mem_cons_self ..))
      (ih fun g' hg' => h g' (List.mem_cons_of_mem g hg'))
    rw [List.append_nil] at hg
    show gather (.delimiter g.tag ::
      (g.attrs.flatMap WireAttr.items ++ gs.flatMap WireGroup.items)) = _
    rw [gather, hg]
    rfl

theorem groupItems_groups (gs : List WireGroup) (h : ∀ g ∈ gs, ∀ a ∈ g.attrs, a.Ok) :
    groupItems (gs.flatMap WireGroup.items) = some gs := by
  rw [groupItems, gather_groups gs h]
  rfl

/-- The values of the groups are those of the items. -/
theorem mem_gather {items : List WireItem} {values : List WireValue} {attrs : List WireAttr}
    {groups : List WireGroup} (h : gather items = some (values, attrs, groups)) {v : WireValue}
    (hv : v ∈ values ∨ (∃ a ∈ attrs, v ∈ a.values) ∨ ∃ g ∈ groups, ∃ a ∈ g.attrs, v ∈ a.values) :
    ∃ name, .value v.tag name v.data ∈ items := by
  induction items generalizing values attrs groups with
  | nil =>
    cases h
    simp at hv
  | cons i items ih =>
    have tail : ∀ {values attrs groups}, gather items = some (values, attrs, groups) →
        (v ∈ values ∨ (∃ a ∈ attrs, v ∈ a.values) ∨
          ∃ g ∈ groups, ∃ a ∈ g.attrs, v ∈ a.values) →
        ∃ name, .value v.tag name v.data ∈ i :: items := by
      intro values attrs groups hg hv
      obtain ⟨name, hm⟩ := ih hg hv
      exact ⟨name, List.mem_cons_of_mem i hm⟩
    cases i with
    | delimiter tag =>
      obtain ⟨⟨values', attrs', groups'⟩, hg, he⟩ := Option.bind_eq_some_iff.1 h
      dsimp only at he
      split_ifs at he
      cases he
      refine tail hg ?_
      rcases hv with hv | ⟨a, ha, -⟩ | ⟨g, hg, a, ha, hv⟩
      · cases hv
      · cases ha
      · rcases List.mem_cons.1 hg with rfl | hg
        · exact .inr (.inl ⟨a, ha, hv⟩)
        · exact .inr (.inr ⟨g, hg, a, ha, hv⟩)
    | value tag name data =>
      obtain ⟨⟨values', attrs', groups'⟩, hg, he⟩ := Option.bind_eq_some_iff.1 h
      dsimp only at he
      split_ifs at he
      · cases he
        rcases hv with hv | hv
        · rcases List.mem_cons.1 hv with rfl | hv
          · exact ⟨name, List.mem_cons_self ..⟩
          · exact tail hg (.inl hv)
        · exact tail hg (.inr hv)
      · cases he
        rcases hv with hv | ⟨a, ha, hv⟩ | hv
        · cases hv
        · rcases List.mem_cons.1 ha with rfl | ha
          · rcases List.mem_cons.1 hv with rfl | hv
            · exact ⟨name, List.mem_cons_self ..⟩
            · exact tail hg (.inl hv)
          · exact tail hg (.inr (.inl ⟨a, ha, hv⟩))
        · exact tail hg (.inr (.inr hv))

/-- No value of a decoded message is longer than its length field can say. -/
theorem decode_short {l head : List Byte} {groups : List WireGroup}
    (h : decode l = some (head, groups)) {g : WireGroup} (hg : g ∈ groups) {a : WireAttr}
    (ha : a ∈ g.attrs) {v : WireValue} (hv : v ∈ a.values) : v.data.length < 65536 := by
  unfold decode at h
  split_ifs at h
  obtain ⟨items, hi, h⟩ := Option.bind_eq_some_iff.1 h
  obtain ⟨groups', hgr, he⟩ := Option.bind_eq_some_iff.1 h
  cases he
  obtain ⟨⟨values, attrs, groups'⟩, hgather, he⟩ := Option.bind_eq_some_iff.1 hgr
  dsimp only at he
  split_ifs at he
  cases he
  obtain ⟨name, hm⟩ := mem_gather hgather (.inr (.inr ⟨g, hg, a, ha, hv⟩))
  exact decodeItems_short _ hi hm

/-- The groups can be told apart and their values have lengths. -/
structure WireGroup.Ok (g : WireGroup) : Prop where
  tag : g.tag.toNat < 0x10 ∧ g.tag ≠ 0x03
  attrs : ∀ a ∈ g.attrs, a.Ok
  names : ∀ a ∈ g.attrs, a.name.length < 65536
  values : ∀ a ∈ g.attrs, ∀ v ∈ a.values, 0x10 ≤ v.tag.toNat ∧ v.data.length < 65536

theorem WireGroup.Ok.items_ok {g : WireGroup} (h : g.Ok) : ∀ i ∈ g.items, i.Ok := by
  intro i hi
  rcases List.mem_cons.1 hi with rfl | hi
  · exact h.tag
  · obtain ⟨⟨name, values⟩, ha, hi⟩ := List.mem_flatMap.1 hi
    match values with
    | [] => cases hi
    | v :: vs =>
      have hname := h.names _ ha
      have hvalue := h.values _ ha
      rcases List.mem_cons.1 hi with rfl | hi
      · obtain ⟨ht, hd⟩ := hvalue v (List.mem_cons_self ..)
        exact ⟨ht, hname, hd⟩
      · obtain ⟨w, hw, rfl⟩ := List.mem_map.1 hi
        obtain ⟨ht, hd⟩ := hvalue w (List.mem_cons_of_mem v hw)
        exact ⟨ht, by simp, hd⟩

/-- A message is decoded as it was encoded. -/
theorem decode_groups {head : List Byte} (hhead : head.length = 8) {groups : List WireGroup}
    (h : ∀ g ∈ groups, g.Ok) :
    decode (head ++ ((groups.flatMap WireGroup.items).flatMap WireItem.bytes ++ [0x03])) =
      some (head, groups) := by
  have hok : ∀ i ∈ groups.flatMap WireGroup.items, i.Ok := by
    intro i hi
    obtain ⟨g, hg, hi⟩ := List.mem_flatMap.1 hi
    exact (h g hg).items_ok i hi
  have hlen : ∀ items : List WireItem, (∀ i ∈ items, i.Ok) →
      items.length ≤ (items.flatMap WireItem.bytes).length := by
    intro items hitems
    induction items with
    | nil => simp
    | cons i items ih =>
      have hi : 1 ≤ i.bytes.length := by cases i <;> simp [WireItem.bytes, putValue]
      have := ih fun j hj => hitems j (List.mem_cons_of_mem i hj)
      rw [List.flatMap_cons, List.length_append, List.length_cons]
      omega
  obtain ⟨n, hn⟩ := Nat.exists_eq_add_of_le (hlen _ hok)
  unfold decode
  rw [if_neg (by rw [List.length_append]; omega), List.drop_left' hhead, List.take_left' hhead]
  have hfuel : (head ++ ((groups.flatMap WireGroup.items).flatMap WireItem.bytes ++
      [0x03])).length = (n + 8) + (groups.flatMap WireGroup.items).length + 1 := by
    rw [List.length_append, List.length_append, hn, hhead, List.length_singleton]
    omega
  rw [hfuel, decode_items hok]
  show (groupItems _ >>= _) = _
  rw [groupItems_groups groups fun g hg => (h g hg).attrs]
  rfl

end Ppr
