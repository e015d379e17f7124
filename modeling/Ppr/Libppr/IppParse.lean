import Ppr.Libppr.IppObj

/-!
# What ipp_parse_request() makes of a message

`IppMessage` is the grammar of RFC 2910 as far as the parser sees it: attribute groups, attributes
with a name, a value and any number of additional values, and values that are integers, booleans or
octets.  `IppMessage.bytes` is its encoding.  The parser reads it item by item (`leads_parseLoop`,
`throws_parseLoop`); `stored_attrs` is what it leaves in the request.
-/

namespace Ppr

open Reading

/-- A value with its tag. -/
inductive MsgValue where
  /-- An integer (0x21) or an enum (0x23). -/
  | integer (enum : Bool) (i : CInt)
  | boolean (b : Bool)
  | octets (tag : Byte) (data : List Byte) (htag : 0x10 ≤ tag.toNat ∧ tag ∉ [0x21, 0x22, 0x23])
      (hdata : data.length < 2 ^ 15)

def MsgValue.tag : MsgValue → Byte
  | .integer enum _ => if enum then 0x23 else 0x21
  | .boolean _ => 0x22
  | .octets tag .. => tag

/-- The four octets of an integer, the most significant first. -/
def intBytes (i : CInt) : List Byte :=
  [i.extractLsb' 24 8, i.extractLsb' 16 8, i.extractLsb' 8 8, i.extractLsb' 0 8]

def MsgValue.data : MsgValue → List Byte
  | .integer _ i => intBytes i
  | .boolean b => [if b then 1 else 0]
  | .octets _ data .. => data

/-- An attribute. -/
structure MsgAttr where
  name : List Byte
  value : MsgValue
  additional : List MsgValue
  hname : name ≠ [] ∧ name.length < 2 ^ 15 ∧ 0 ∉ name

/-- An attribute group; 0x03 is not a group but the end. -/
structure MsgGroup where
  tag : Byte
  attrs : List MsgAttr
  htag : tag.toNat ≤ 0x0f ∧ tag ≠ 0x03

structure IppMessage where
  versionMajor : Byte
  versionMinor : Byte
  operationId : BitVec 16
  requestId : CInt
  groups : List MsgGroup

/-! ## The encoding -/

/-- The two octets of a length. -/
def lengthBytes (n : ℕ) : List Byte := [BitVec.ofNat 8 (n / 256), BitVec.ofNat 8 (n % 256)]

/-- What the parser reads in one round: a delimiter, an attribute or an additional value. -/
inductive MsgItem where
  | delimiter (tag : Byte) (htag : tag.toNat ≤ 0x0f ∧ tag ≠ 0x03)
  | first (name : List Byte) (hname : name ≠ [] ∧ name.length < 2 ^ 15 ∧ 0 ∉ name) (v : MsgValue)
  | more (v : MsgValue)

def MsgItem.tag : MsgItem → Byte
  | .delimiter tag _ => tag
  | .first _ _ v => v.tag
  | .more v => v.tag

def MsgValue.bytes (v : MsgValue) : List Byte := lengthBytes v.data.length ++ v.data

/-- What follows the tag of an item. -/
def MsgItem.payload : MsgItem → List Byte
  | .delimiter .. => []
  | .first name _ v => lengthBytes name.length ++ (name ++ v.bytes)
  | .more v => lengthBytes 0 ++ v.bytes

def MsgItem.bytes (i : MsgItem) : List Byte := i.tag :: i.payload

def MsgAttr.items (a : MsgAttr) : List MsgItem :=
  .first a.name a.hname a.value :: a.additional.map .more

def MsgGroup.items (g : MsgGroup) : List MsgItem :=
  .delimiter g.tag g.htag :: g.attrs.flatMap MsgAttr.items

def IppMessage.items (m : IppMessage) : List MsgItem := m.groups.flatMap MsgGroup.items

def IppMessage.header (m : IppMessage) : List Byte :=
  [m.versionMajor, m.versionMinor, m.operationId.extractLsb' 8 8, m.operationId.extractLsb' 0 8] ++
    intBytes m.requestId

def IppMessage.bytes (m : IppMessage) : List Byte :=
  m.header ++ (m.items.flatMap MsgItem.bytes ++ [0x03])

/-- The attributes, each with the tag of its group. -/
def IppMessage.attrs (m : IppMessage) : List (Byte × MsgAttr) :=
  m.groups.flatMap fun g => g.attrs.map fun a => (g.tag, a)

def MsgAttr.values (a : MsgAttr) : List MsgValue := a.value :: a.additional

/-! ## What is stored -/

def MsgValue.stored (v : MsgValue) : IppValue :=
  match v with
  | .integer _ i => .integer i
  | v =>
    if ippTagSimplify (v.tag.setWidth 32) = 0x30 then .string (v.data ++ [0])
    else .unknown (BitVec.ofNat 32 v.data.length) (v.data ++ [0])

def MsgAttr.stored (group : Byte) (a : MsgAttr) : IppAttribute :=
  { groupTag := group.setWidth 32
    valueTag := a.value.tag.setWidth 32
    name := a.name ++ [0]
    values := a.values.map MsgValue.stored }

/-- The effect of an item on the variables of the parser. -/
def MsgItem.apply (st : ParseState) : MsgItem → ParseState
  | .delimiter tag _ => { st with delimiterTag := tag.setWidth 32, name := none }
  | .first name _ v =>
    { st with
      attrs := st.attrs ++
        [{ groupTag := st.delimiterTag, valueTag := v.tag.setWidth 32, name := name ++ [0],
           values := [v.stored] }]
      name := some (name ++ [0]) }
  | .more v => { st with attrs := addValue v.stored st.attrs }

/-- The tag comes out of `ipp_get_byte()` as it was sent: not so for one from 0x80 on where a `char`
is signed. -/
def MsgItem.Plain (signed : Bool) (i : MsgItem) : Prop := signed = true → i.tag.toNat < 0x80

instance (signed : Bool) (i : MsgItem) : Decidable (i.Plain signed) :=
  inferInstanceAs (Decidable (_ → _))

/-- Additional values follow an attribute. -/
def Chained : Bool → List MsgItem → Prop
  | _, [] => True
  | _, .delimiter .. :: l => Chained false l
  | _, .first .. :: l => Chained true l
  | named, .more _ :: l => named = true ∧ Chained named l

/-! ## The reader -/

variable (chunk : ℕ → ℕ)

/-- The reader will deliver the bytes `l`, and its Content-Length, if it has one, is right. -/
def Presents (p : IppIn) (l : List Byte) : Prop :=
  p.readbuf ++ p.input = l ∧ (p.bytesLeft = -1 ∨ p.bytesLeft = p.input.length)

/-- A load with bytes left delivers at least one of them. -/
theorem ippReadbufLoad_presents {p : IppIn} {l : List Byte} (h : Presents p l)
    (hbuf : p.readbuf = []) (hl : l ≠ []) :
    ∃ q, ippReadbufLoad chunk p = .ok q ∧ Presents q l ∧ q.readbuf ≠ [] := by
  obtain ⟨rfl, hleft⟩ := h
  rw [hbuf, List.nil_append] at hl ⊢
  have hpos := List.length_pos_of_ne_nil hl
  set size : ℕ := if p.bytesLeft ≠ -1 ∧ 0 ≤ p.bytesLeft ∧ p.bytesLeft < readbufSize then
    p.bytesLeft.toNat else readbufSize with hsize
  have hsz : 0 < size := by
    rw [hsize]
    split_ifs
    · omega
    · exact Nat.zero_lt_succ _
  set n := min (min size p.input.length) (chunk p.reads + 1) with hn
  have hn1 : ¬ n < 1 := by omega
  have hnl : n ≤ p.input.length := by omega
  refine ⟨{ bytesLeft := if p.bytesLeft ≠ -1 then p.bytesLeft - n else p.bytesLeft,
            input := p.input.drop n, reads := p.reads + 1, readbuf := p.input.take n },
    ?_, ⟨List.take_append_drop n p.input, ?_⟩, ?_⟩
  · rw [ippReadbufLoad, if_neg fun hc => hn1 hc.2]
  · simp only [List.length_drop]
    split_ifs <;> omega
  · rw [ne_eq, ← List.length_eq_zero_iff, List.length_take]
    omega

theorem leads_ippGetByte (b : Byte) : Leads Presents (ippGetByte chunk) [b] (pure b) := by
  intro p l hp
  rw [List.singleton_append] at hp
  -- Whether it was filled now or before, the buffer is not empty.
  have key : ∃ q, (if p.readbuf = [] then ippReadbufLoad chunk p else .ok p) = .ok q ∧
      Presents q (b :: l) ∧ q.readbuf ≠ [] := by
    by_cases hbuf : p.readbuf = []
    · simpa only [if_pos hbuf] using ippReadbufLoad_presents chunk hp hbuf (List.cons_ne_nil b l)
    · exact ⟨p, if_neg hbuf, hp, hbuf⟩
  obtain ⟨q, hq, ⟨hu, hleft⟩, hne⟩ := key
  obtain ⟨b', readbuf, hrb⟩ := List.exists_cons_of_ne_nil hne
  rw [hrb, List.cons_append, List.cons.injEq] at hu
  obtain ⟨rfl, hu⟩ := hu
  refine ⟨{ q with readbuf := readbuf }, ?_, hu, hleft⟩
  show ((if p.readbuf = [] then ippReadbufLoad chunk p else .ok p) >>= _) = _
  rw [hq]
  simp only [bind, Except.bind, hrb]
  rfl

theorem leads_ippGetSb (a : Byte) :
    Leads Presents (ippGetSb chunk) [a] (pure (a.signExtend 32)) :=
  (leads_ippGetByte chunk a).bind _

theorem leads_ippGetSs (a b : Byte) :
    Leads Presents (ippGetSs chunk) [a, b] (pure (a.setWidth 32 <<< 8 ||| b.setWidth 32)) :=
  ((leads_ippGetByte chunk a).bind _).trans ((leads_ippGetByte chunk b).bind _)

theorem leads_ippGetSi (a b c d : Byte) : Leads Presents (ippGetSi chunk) [a, b, c, d]
    (pure (a.setWidth 32 <<< 24 ||| b.setWidth 32 <<< 16 ||| c.setWidth 32 <<< 8 |||
      d.setWidth 32)) :=
  ((leads_ippGetByte chunk a).bind _).trans <| ((leads_ippGetByte chunk b).bind _).trans <|
    ((leads_ippGetByte chunk c).bind _).trans ((leads_ippGetByte chunk d).bind _)

theorem leads_getBytesLoop (bytes : List Byte) :
    Leads Presents (getBytesLoop chunk bytes.length) bytes (pure bytes) := by
  induction bytes with
  | nil => exact Leads.refl _
  | cons b bytes ih =>
    have h := ((leads_ippGetByte chunk b).bind fun b => do
      let bytes ← getBytesLoop chunk bytes.length
      return b :: bytes).trans (ih.bind fun bytes => pure (b :: bytes))
    exact h

/-! ## Numbers -/

theorem intBytes_value (i : CInt) :
    (i.extractLsb' 24 8).setWidth 32 <<< 24 ||| (i.extractLsb' 16 8).setWidth 32 <<< 16 |||
      (i.extractLsb' 8 8).setWidth 32 <<< 8 ||| (i.extractLsb' 0 8).setWidth 32 = i := by
  ext j hj
  simp only [BitVec.getElem_or, BitVec.getElem_shiftLeft, BitVec.getElem_setWidth,
    BitVec.getLsbD_extractLsb']
  interval_cases j <;> simp

theorem toNat_setWidth_ofNat {n : ℕ} (hn : n < 256) :
    ((BitVec.ofNat 8 n).setWidth 32).toNat = n := by
  rw [BitVec.toNat_setWidth, BitVec.toNat_ofNat, Nat.mod_eq_of_lt hn, Nat.mod_eq_of_lt (by omega)]

theorem lengthBytes_value {n : ℕ} (hn : n < 2 ^ 15) :
    (BitVec.ofNat 8 (n / 256)).setWidth 32 <<< 8 ||| (BitVec.ofNat 8 (n % 256)).setWidth 32 =
      BitVec.ofNat 32 n := by
  have hhi : n / 256 < 256 := by omega
  have hlo : n % 256 < 2 ^ 8 := by omega
  apply BitVec.eq_of_toNat_eq
  rw [BitVec.toNat_or, BitVec.toNat_shiftLeft, toNat_setWidth_ofNat hhi, toNat_setWidth_ofNat hlo,
    BitVec.toNat_ofNat, Nat.shiftLeft_eq, Nat.mod_eq_of_lt (by omega : n / 256 * 2 ^ 8 < 2 ^ 32),
    Nat.mod_eq_of_lt (by omega : n < 2 ^ 32), Nat.mul_comm, ← Nat.two_pow_add_eq_or_of_lt hlo]
  omega

theorem toInt_ofNat {n : ℕ} (hn : n < 2 ^ 15) : (BitVec.ofNat 32 n).toInt = n := by
  rw [BitVec.toInt_eq_toNat_of_lt] <;> rw [BitVec.toNat_ofNat, Nat.mod_eq_of_lt (by omega)]
  omega

theorem leads_length {n : ℕ} (hn : n < 2 ^ 15) :
    Leads Presents (ippGetSs chunk) (lengthBytes n) (pure (BitVec.ofNat 32 n)) := by
  rw [← lengthBytes_value hn]
  exact leads_ippGetSs chunk _ _

theorem leads_integer (i : CInt) : Leads Presents (ippGetSi chunk) (intBytes i) (pure i) := by
  have h := leads_ippGetSi chunk (i.extractLsb' 24 8) (i.extractLsb' 16 8)
    (i.extractLsb' 8 8) (i.extractLsb' 0 8)
  rwa [intBytes_value] at h

theorem leads_ippGetBytes {bytes : List Byte} (h : bytes.length < 2 ^ 15) :
    Leads Presents (ippGetBytes chunk (BitVec.ofNat 32 bytes.length)) bytes
      (pure (bytes ++ [0])) := by
  rw [ippGetBytes, toInt_ofNat h, Int.toNat_natCast]
  exact (leads_getBytesLoop chunk bytes).bind _

/-! ## Values and items -/

theorem MsgValue.data_length (v : MsgValue) : v.data.length < 2 ^ 15 := by
  cases v with
  | integer => simp [MsgValue.data, intBytes]
  | boolean => simp [MsgValue.data]
  | octets _ _ _ hdata => exact hdata

theorem ippTagSimplify_eq_integer : ∀ tag : Byte,
    ippTagSimplify (tag.setWidth 32) = 0x21 ↔ tag ∈ [0x21, 0x23] := by
  decide +kernel

theorem leads_getValue (v : MsgValue) :
    Leads Presents (getValue chunk (v.tag.setWidth 32) (BitVec.ofNat 32 v.data.length)) v.data
      (pure v.stored) := by
  have hint := ippTagSimplify_eq_integer v.tag
  have hbytes := leads_ippGetBytes chunk v.data_length
  cases v with
  | integer enum i =>
    have htag : (MsgValue.integer enum i).tag ∈ ([0x21, 0x23] : List Byte) := by
      cases enum <;> simp [MsgValue.tag]
    rw [getValue, if_pos (hint.2 htag)]
    exact (leads_integer chunk i).map _
  | boolean b =>
    have htag : (MsgValue.boolean b).tag ∉ ([0x21, 0x23] : List Byte) := by simp [MsgValue.tag]
    rw [getValue, if_neg (htag ∘ hint.1)]
    exact hbytes.map _
  | octets tag data htag hdata =>
    have hne : ¬ tag ∈ [0x21, 0x23] := fun h => htag.2 (by simp only [List.mem_cons] at *; tauto)
    rw [getValue, if_neg (hne ∘ hint.1)]
    simp only [MsgValue.stored]
    split_ifs
    · exact hbytes.map _
    · exact hbytes.map _

theorem leads_value (v : MsgValue) {γ : Type} (f : IppValue → IppM γ) :
    Leads Presents (ippGetSs chunk >>= fun n => getValue chunk (v.tag.setWidth 32) n >>= f) v.bytes
      (f v.stored) :=
  ((leads_length chunk v.data_length).bind _).trans ((leads_getValue chunk v).bind f)

/-- A tag below 0x80 is not changed by promotion. -/
theorem charToInt_of_plain : ∀ (tag : Byte) (signed : Bool),
    (signed = true → tag.toNat < 0x80) → charToInt signed tag = tag.setWidth 32 := by
  decide +kernel

/-- One from 0x80 on is negative. -/
theorem charToInt_of_not_plain : ∀ tag : Byte, ¬ tag.toNat < 0x80 →
    (charToInt true tag).toInt < 0 := by
  decide +kernel

theorem toInt_setWidth (tag : Byte) : (tag.setWidth 32 : CInt).toInt = tag.toNat := by
  have := tag.isLt
  rw [BitVec.toInt_eq_toNat_of_lt] <;> rw [BitVec.toNat_setWidth, Nat.mod_eq_of_lt (by omega)]
  omega

theorem MsgValue.tag_ge (v : MsgValue) : 0x10 ≤ v.tag.toNat := by
  cases v with
  | integer enum => cases enum <;> exact Nat.le_of_ble_eq_true rfl
  | boolean => exact Nat.le_of_ble_eq_true rfl
  | octets _ _ htag => exact htag.1

/-- The tag of a value starts the value branch. -/
theorem parseTag_value (v : MsgValue) (st : ParseState) :
    parseTag chunk (v.tag.setWidth 32) st = do
      let nameLength ← ippGetSs chunk
      if 0 < nameLength.toInt then
        let name ← ippGetBytes chunk nameLength
        let valueLength ← ippGetSs chunk
        let w ← getValue chunk (v.tag.setWidth 32) valueLength
        return { st with
          attrs := st.attrs ++
            [{ groupTag := st.delimiterTag, valueTag := v.tag.setWidth 32, name := name,
               values := [w] }]
          name := some name }
      else
        let valueLength ← ippGetSs chunk
        if st.name = none then throw .noName
        else
          let w ← getValue chunk (v.tag.setWidth 32) valueLength
          return { st with attrs := addValue w st.attrs } := by
  have hge := v.tag_ge
  have hlt := v.tag.isLt
  have htag := toInt_setWidth v.tag
  rw [parseTag, if_neg (by omega), if_pos (by omega)]

/-- One round of the loop after the tag of an item. -/
theorem leads_parseTag (i : MsgItem) (st : ParseState) (l : List MsgItem)
    (hst : Chained st.name.isSome (i :: l)) :
    Leads Presents (parseTag chunk (i.tag.setWidth 32) st) i.payload (pure (i.apply st)) := by
  cases i with
  | delimiter tag htag =>
    have hint := toInt_setWidth tag
    have hle := htag.1
    show Leads _ (parseTag chunk (tag.setWidth 32) st) _ _
    rw [parseTag, if_pos (by omega)]
    exact Leads.refl _
  | first name hname v =>
    have hpos : 0 < (BitVec.ofNat 32 name.length).toInt := by
      rw [toInt_ofNat hname.2.1]
      exact_mod_cast List.length_pos_of_ne_nil hname.1
    refine (parseTag_value chunk v st ▸ (leads_length chunk hname.2.1).bind _).trans ?_
    rw [if_pos hpos]
    exact ((leads_ippGetBytes chunk hname.2.1).bind _).trans (leads_value chunk v _)
  | more v =>
    have hname : st.name ≠ none := Option.isSome_iff_ne_none.1 hst.1
    refine (parseTag_value chunk v st ▸ (leads_length chunk (by norm_num)).bind _).trans ?_
    rw [if_neg (by decide)]
    simp only [hname, if_false]
    exact leads_value chunk v _

/-! ## The loop -/

variable (signed : Bool)

theorem MsgItem.tag_ne_end (i : MsgItem) : (i.tag.setWidth 32 : CInt) ≠ 0x03 := by
  have hne : i.tag ≠ 0x03 := by
    cases i with
    | delimiter _ htag => exact htag.2
    | first _ _ v | more v =>
      have hge := v.tag_ge
      rintro h
      simp only [MsgItem.tag] at h
      rw [h] at hge
      exact absurd hge (by decide)
  exact fun h => hne (by simpa using congrArg (BitVec.setWidth 8) h)

theorem chained_apply {i : MsgItem} {l : List MsgItem} {st : ParseState}
    (h : Chained st.name.isSome (i :: l)) : Chained (i.apply st).name.isSome l := by
  cases i with
  | delimiter => exact h
  | first => exact h
  | more => exact h.2

/-- One round of the loop. -/
theorem leads_round {i : MsgItem} {l : List MsgItem} {st : ParseState}
    (hst : Chained st.name.isSome (i :: l)) (hplain : i.Plain signed) (n : ℕ) :
    Leads Presents (parseLoop signed chunk (n + 1) st) i.bytes
      (parseLoop signed chunk n (i.apply st)) := by
  refine ((leads_ippGetByte chunk i.tag).bind _).trans ?_
  rw [charToInt_of_plain _ _ hplain, if_neg i.tag_ne_end]
  exact (leads_parseTag chunk i st l hst).bind _

/-- The loop takes in all the items. -/
theorem leads_parseLoop {items : List MsgItem} (st : ParseState)
    (hst : Chained st.name.isSome items) (hplain : ∀ i ∈ items, i.Plain signed) (n : ℕ) :
    Leads Presents (parseLoop signed chunk (n + items.length) st) (items.flatMap MsgItem.bytes)
      (parseLoop signed chunk n (items.foldl MsgItem.apply st)) := by
  induction items generalizing st with
  | nil => exact Leads.refl _
  | cons i items ih =>
    have head := leads_round chunk signed hst (hplain i (List.mem_cons_self ..)) (n + items.length)
    exact head.trans (ih _ (chained_apply hst) fun j hj => hplain j (List.mem_cons_of_mem i hj))

/-- A tag that is not plain is not taken. -/
theorem throws_round {i : MsgItem} {st : ParseState} (hplain : ¬ i.Plain signed) (n : ℕ) :
    Throws Presents (parseLoop signed chunk (n + 1) st) i.bytes := by
  obtain ⟨rfl, htag⟩ := Classical.not_imp.1 hplain
  have hneg := charToInt_of_not_plain i.tag htag
  have hne : charToInt true i.tag ≠ 0x03 := by
    rintro h
    rw [h] at hneg
    exact absurd hneg (by decide)
  refine ((leads_ippGetByte chunk i.tag).bind _).throws ?_
  rw [if_neg hne, parseTag, if_neg (by omega), if_neg (by omega)]
  exact fun _ _ _ => ⟨_, rfl⟩

theorem throws_parseLoop {items : List MsgItem} (st : ParseState)
    (hst : Chained st.name.isSome items) (hplain : ¬ ∀ i ∈ items, i.Plain signed) (n : ℕ) :
    Throws Presents (parseLoop signed chunk (n + items.length) st)
      (items.flatMap MsgItem.bytes) := by
  induction items generalizing st with
  | nil => exact absurd (fun i hi => absurd hi (List.not_mem_nil)) hplain
  | cons i items ih =>
    by_cases hi : i.Plain signed
    · have hrest : ¬ ∀ j ∈ items, j.Plain signed := fun h => hplain (List.forall_mem_cons.2 ⟨hi, h⟩)
      exact (leads_round chunk signed hst hi (n + items.length)).throws
        (ih _ (chained_apply hst) hrest)
    · exact (throws_round chunk signed hi (n + items.length)).append _

theorem leads_end (st : ParseState) (n : ℕ) :
    Leads Presents (parseLoop signed chunk (n + 1) st) [0x03] (pure st) := by
  refine (leads_ippGetByte chunk 0x03).bind _ |>.trans (w := []) ?_
  rw [if_pos (by cases signed <;> decide)]
  exact Leads.refl _

/-! ## The attributes of a message -/

theorem chained_append {b : Bool} {l l' : List MsgItem} (h : Chained b l)
    (h' : ∀ b, Chained b l') : Chained b (l ++ l') := by
  induction l generalizing b with
  | nil => exact h' b
  | cons i l ih =>
    cases i with
    | delimiter => exact ih (b := false) h
    | first => exact ih (b := true) h
    | more => exact ⟨h.1, ih h.2⟩

theorem chained_more (vs : List MsgValue) : Chained true (vs.map .more) := by
  induction vs with
  | nil => trivial
  | cons v vs ih => exact ⟨rfl, ih⟩

theorem chained_attrs (attrs : List MsgAttr) (b : Bool) :
    Chained b (attrs.flatMap MsgAttr.items) := by
  induction attrs generalizing b with
  | nil => trivial
  | cons a attrs ih => exact chained_append (chained_more a.additional) ih

theorem chained_items (m : IppMessage) (b : Bool) : Chained b m.items := by
  unfold IppMessage.items
  induction m.groups generalizing b with
  | nil => trivial
  | cons g groups ih => exact chained_append (chained_attrs g.attrs false) ih

theorem addValue_append (v : IppValue) (l : List IppAttribute) (ap : IppAttribute) :
    addValue v (l ++ [ap]) = l ++ [{ ap with values := ap.values ++ [v] }] := by
  rw [addValue, List.length_append, List.length_singleton, Nat.add_sub_cancel]
  induction l with
  | nil => rfl
  | cons b l ih => exact congrArg (b :: ·) ih

theorem attrs_foldl_more (vs : List MsgValue) (st : ParseState) (l : List IppAttribute)
    (ap : IppAttribute) (h : st.attrs = l ++ [ap]) :
    ((vs.map MsgItem.more).foldl MsgItem.apply st).attrs =
      l ++ [{ ap with values := ap.values ++ vs.map MsgValue.stored }] ∧
    ((vs.map MsgItem.more).foldl MsgItem.apply st).delimiterTag = st.delimiterTag := by
  induction vs generalizing st ap with
  | nil => simp [h]
  | cons v vs ih =>
    have hv : (MsgItem.apply st (.more v)).attrs =
        l ++ [{ ap with values := ap.values ++ [v.stored] }] := by
      rw [← addValue_append, ← h]
      rfl
    obtain ⟨h1, h2⟩ := ih (MsgItem.apply st (.more v)) _ hv
    refine ⟨?_, h2⟩
    rw [List.map_cons, List.foldl_cons, h1]
    simp

theorem attrs_foldl_attr (a : MsgAttr) (st : ParseState) (g : Byte)
    (hg : st.delimiterTag = g.setWidth 32) :
    (a.items.foldl MsgItem.apply st).attrs = st.attrs ++ [a.stored g] ∧
    (a.items.foldl MsgItem.apply st).delimiterTag = st.delimiterTag := by
  obtain ⟨h1, h2⟩ := attrs_foldl_more a.additional
    (MsgItem.apply st (.first a.name a.hname a.value)) st.attrs _ rfl
  refine ⟨h1.trans ?_, h2⟩
  rw [hg]
  rfl

theorem attrs_foldl_attrs (attrs : List MsgAttr) (st : ParseState) (g : Byte)
    (hg : st.delimiterTag = g.setWidth 32) :
    ((attrs.flatMap MsgAttr.items).foldl MsgItem.apply st).attrs =
      st.attrs ++ attrs.map (MsgAttr.stored g) := by
  induction attrs generalizing st with
  | nil => simp
  | cons a attrs ih =>
    obtain ⟨h1, h2⟩ := attrs_foldl_attr a st g hg
    rw [List.flatMap_cons, List.foldl_append, ih _ (h2.trans hg), h1, List.append_assoc]
    rfl

/-- The attributes the parser has at the end. -/
theorem stored_attrs (m : IppMessage) (st : ParseState) (h : st.attrs = []) :
    (m.items.foldl MsgItem.apply st).attrs = m.attrs.map fun ga => ga.2.stored ga.1 := by
  suffices ∀ (groups : List MsgGroup) (st : ParseState),
      ((groups.flatMap MsgGroup.items).foldl MsgItem.apply st).attrs = st.attrs ++
        (groups.flatMap fun g => g.attrs.map fun a => (g.tag, a)).map fun ga => ga.2.stored ga.1 by
    rw [IppMessage.items, this, h, List.nil_append]
    rfl
  intro groups
  induction groups with
  | nil => simp
  | cons g groups ih =>
    intro st
    have hg := attrs_foldl_attrs g.attrs (MsgItem.apply st (.delimiter g.tag g.htag)) g.tag rfl
    rw [List.flatMap_cons, List.foldl_append, ih, List.flatMap_cons, List.map_append,
      ← List.append_assoc]
    congr 1
    refine hg.trans ?_
    rw [List.map_map]
    rfl

end Ppr
