import Ppr.Lib.Lists
import Ppr.Lib.Outcome
import Ppr.Libppr.IppGrammar

/-!
# What is sent of a response

The calls that add attributes to a response, what the client should get of each (`Add.wire`), and
what `ipp_send_reply()` makes of them, in terms of the grammar: `sent` is the attribute that one call
comes to on the wire.
-/

namespace Ppr

open Outcome

/-! ## The calls -/

/-- A value of the request with its own tag, as `ipp_parse_request()` has stored it. -/
inductive ReturnedValue where
  | integer (tag : Byte) (htag : isIntegerTag tag) (i : CInt)
  | string (tag : Byte) (htag : isStringTag tag) (text : IppText)
  | unknown (tag : Byte) (htag : 0x10 ≤ tag.toNat ∧ isIntegerTag tag = false ∧
      isStringTag tag = false) (data : List Byte) (short : data.length < 65536)

def ReturnedValue.wire : ReturnedValue → WireValue
  | .integer tag _ i => ⟨tag, intBytes i⟩
  | .string tag _ text => ⟨tag, text.bytes⟩
  | .unknown tag _ data _ => ⟨tag, data⟩

def ReturnedValue.parsed : ReturnedValue → ParsedValue
  | .integer _ _ i => .integer i
  | .string _ _ text => .string text
  | .unknown _ _ data short => .unknown data short

/-- A call of one of the functions that add to a response.  The tag of an attribute that is returned
is that of its first value. -/
inductive Add where
  | divider (group : ReplyGroup)
  | outOfBand (group : ReplyGroup) (tag : Byte) (htag : 0x10 ≤ tag.toNat ∧ tag.toNat ≤ 0x1f)
      (name : IppName)
  | integers (group : ReplyGroup) (tag : Byte) (name : IppName) (values : List CInt)
  | strings (group : ReplyGroup) (tag : Byte) (name : IppName) (values : List IppText)
  | templates (group : ReplyGroup) (tag : Byte) (name : IppName) (args : TemplateArgs)
  | boolean (group : ReplyGroup) (tag : Byte) (name : IppName) (value : Bool)
  | returned (name : IppName) (value : ReturnedValue) (more : List ReturnedValue)

def Add.run (r : IppReply) : Add → Except ReplyError IppReply
  | .divider group => .ok (ippAddEnd r group)
  | .outOfBand group tag _ name => .ok (ippAddOutOfBand r group tag name)
  | .integers group tag name values => ippAddIntegers r group tag name values
  | .strings group tag name values => ippAddStrings r group tag name values
  | .templates group tag name args => ippAddTemplates r group tag name args
  | .boolean group tag name value => ippAddBoolean r group tag name value
  | .returned name value more =>
    .ok (ippReturn r value.wire.tag name ((value :: more).map ReturnedValue.parsed))

/-- One call after the other. -/
def addAll (r : IppReply) (adds : List Add) : Except ReplyError IppReply := adds.foldlM Add.run r

def Add.group : Add → ReplyGroup
  | .divider group | .outOfBand group .. | .integers group .. | .strings group ..
  | .templates group .. | .boolean group .. => group
  | .returned .. => .unsupported

def Add.isDivider : Add → Bool
  | .divider _ => true
  | _ => false

/-- The attribute a call puts into its list. -/
def Add.stored : Add → ReplyAttr
  | .divider _ => ⟨0x03, [], some none, []⟩
  | .outOfBand _ tag _ name => ⟨tag, name.bytes, some none, []⟩
  | .integers _ tag name values => ⟨tag, name.bytes, some none, values.map .integer⟩
  | .strings _ tag name values =>
    ⟨tag, name.bytes, some none, values.map fun t => .string t.bytes⟩
  | .templates _ tag name args => ⟨tag, name.bytes, some (some args.template), args.values⟩
  | .boolean _ tag name value =>
    ⟨tag, name.bytes, some none, [.integer (if value then 1 else 0)]⟩
  | .returned name value more =>
    ⟨value.wire.tag, name.bytes, none,
      ((value :: more).map ReturnedValue.parsed).map ParsedValue.value⟩

/-- The tag is one the function takes. -/
def Add.Permitted : Add → Prop
  | .integers _ tag _ _ => isIntegerTag tag ∨ tag = 0x45
  | .strings _ tag _ _ | .templates _ tag _ _ => isStringTag tag
  | .boolean _ tag _ _ => tag = 0x22
  | _ => True

theorem Add.run_eq_ok {a : Add} {r t : IppReply} (h : a.run r = .ok t) :
    a.Permitted ∧ t = ippInsertAttribute r a.group a.stored := by
  cases a with
  | divider | outOfBand | returned =>
    cases h
    exact ⟨trivial, rfl⟩
  | integers group tag name values =>
    simp only [Add.run, ippAddIntegers] at h
    split_ifs at h with hc
    cases h
    refine ⟨?_, rfl⟩
    simp only [Add.Permitted]
    by_contra hn
    exact hc (by simpa [not_or] using hn)
  | strings group tag name values =>
    simp only [Add.run, ippAddStrings] at h
    split_ifs at h with hc
    cases h
    exact ⟨by simpa [Add.Permitted] using hc, rfl⟩
  | templates group tag name args =>
    simp only [Add.run, ippAddTemplates] at h
    split_ifs at h with hc
    cases h
    exact ⟨by simpa [Add.Permitted] using hc, rfl⟩
  | boolean group tag name value =>
    simp only [Add.run, ippAddBoolean] at h
    by_cases hc : tag ≠ 0x22
    · rw [if_pos hc] at h
      cases h
    · rw [if_neg hc] at h
      cases h
      exact ⟨not_not.1 hc, rfl⟩

/-- The list of a group. -/
def IppReply.list (r : IppReply) : ReplyGroup → List ReplyAttr
  | .operation => r.operation
  | .printer => r.printer
  | .job => r.job
  | .unsupported => r.unsupported

theorem list_ippInsertAttribute (r : IppReply) (group g : ReplyGroup) (ap : ReplyAttr) :
    (ippInsertAttribute r group ap).list g = r.list g ++ if group = g then [ap] else [] := by
  cases group <;> cases g <;> simp [ippInsertAttribute, IppReply.list]

/-- What the calls leave in the lists. -/
theorem addAll_eq_ok {adds : List Add} {r t : IppReply} (h : addAll r adds = .ok t) :
    (∀ a ∈ adds, a.Permitted) ∧
      ∀ g, t.list g = r.list g ++ (adds.filter fun a => a.group = g).map Add.stored := by
  induction adds generalizing r with
  | nil =>
    cases h
    exact ⟨fun _ ha => absurd ha List.not_mem_nil, fun g => (List.append_nil _).symm⟩
  | cons a adds ih =>
    rw [addAll, List.foldlM_cons] at h
    cases hu : a.run r with
    | error e =>
      rw [hu] at h
      cases h
    | ok u =>
      rw [hu] at h
      obtain ⟨hp, rfl⟩ := Add.run_eq_ok hu
      obtain ⟨hps, hlist⟩ := ih h
      refine ⟨List.forall_mem_cons.2 ⟨hp, hps⟩, fun g => ?_⟩
      rw [hlist, list_ippInsertAttribute, List.filter_cons]
      by_cases hg : a.group = g <;> simp [hg]

/-! ## What the client should get -/

/-- The texts of a template. -/
def TemplateArgs.texts : TemplateArgs → List (List Byte)
  | .integers pre post _ values => values.map fun i => pre ++ decimalInt i.toInt ++ post
  | .strings pre post _ values => values.map fun t => pre ++ t.bytes ++ post

/-- A text; `root` belongs before a path under the tag of a URI. -/
def wireText (root : List Byte) (tag : Byte) (text : List Byte) : List Byte :=
  if tag = 0x45 ∧ text.head? = some 0x2f then root ++ text else text

/-- The attribute a call stands for.  A value out of band has its tag and no octets. -/
def Add.wire (root : List Byte) : Add → WireAttr
  | .divider _ => ⟨[], []⟩
  | .outOfBand _ tag _ name => ⟨name.bytes, [⟨tag, []⟩]⟩
  | .integers _ tag name values => ⟨name.bytes, values.map fun i => ⟨tag, intBytes i⟩⟩
  | .strings _ tag name values =>
    ⟨name.bytes, values.map fun t => ⟨tag, wireText root tag t.bytes⟩⟩
  | .templates _ tag name args =>
    ⟨name.bytes, args.texts.map fun text => ⟨tag, if tag = 0x45 then root ++ text else text⟩⟩
  | .boolean _ tag name value => ⟨name.bytes, [⟨tag, [if value then 1 else 0]⟩]⟩
  | .returned name value more => ⟨name.bytes, (value :: more).map ReturnedValue.wire⟩

/-- An entry of a list: the attribute stored, and the attribute it stands for if it is no
divider. -/
structure Entry where
  attr : ReplyAttr
  wire : Option WireAttr

def Add.entry (root : List Byte) (a : Add) : Entry :=
  ⟨a.stored, if a.isDivider then none else some (a.wire root)⟩

/-- An attribute of the request that nobody has claimed. -/
def unclaimedEntry (p : IppAttribute) : Entry :=
  ⟨⟨0x10, cstr p.name, some none, []⟩, some ⟨cstr p.name, [⟨0x10, []⟩]⟩⟩

/-- The unclaimed operation and job attributes of a request. -/
def unclaimed (request : List IppAttribute) : List IppAttribute :=
  request.filter fun p => p.groupTag = 0x01 ∨ p.groupTag = 0x02

/-- The entries of a group. -/
def entries (root : List Byte) (adds : List Add) (request : List IppAttribute) (g : ReplyGroup) :
    List Entry :=
  (adds.filter fun a => a.group = g).map (Add.entry root) ++
    if g = .unsupported then (unclaimed request).map unclaimedEntry else []

/-- The groups the entries of a list should come to. -/
def expectedGroups (tag : Byte) (l : List Entry) : List WireGroup :=
  if l = [] then []
  else (l.segments fun e => e.wire.isNone).map fun s => ⟨tag, s.filterMap Entry.wire⟩

/-- The order of the groups in a response. -/
def replyGroups : List ReplyGroup := [.operation, .printer, .job, .unsupported]

/-- The groups of a response as the client should get them. -/
def expected (root : List Byte) (adds : List Add) (request : List IppAttribute) :
    List WireGroup :=
  replyGroups.flatMap fun g => expectedGroups g.tag (entries root adds request g)

/-! ## What is sent -/

/-- The attribute on the wire, if it has values. -/
def sent (root : List Byte) (attr : ReplyAttr) : Except ReplyError (List WireAttr) := do
  let datas ← attr.values.mapM (valueData root attr)
  .ok (if datas = [] then [] else [⟨attr.name, datas.map fun d => ⟨attr.valueTag, d⟩⟩])

/-- The bytes of attributes. -/
def attrBytes (l : List WireAttr) : List Byte := (l.flatMap WireAttr.items).flatMap WireItem.bytes

theorem attrBytes_append (l l' : List WireAttr) :
    attrBytes (l ++ l') = attrBytes l ++ attrBytes l' := by
  simp [attrBytes]

theorem ippPutAttr_eq (root : List Byte) (attr : ReplyAttr) :
    ippPutAttr root attr = (sent root attr).map attrBytes := by
  unfold ippPutAttr sent
  cases attr.values.mapM (valueData root attr) with
  | error e => rfl
  | ok datas =>
    cases datas with
    | nil => rfl
    | cons d ds =>
      refine congrArg Except.ok ?_
      simp [attrBytes, WireAttr.items, WireItem.bytes, putValues, List.flatMap_map]

/-- The attributes of an entry on the wire, none if it cannot be sent. -/
def sentOf (root : List Byte) (e : Entry) : List WireAttr :=
  match sent root e.attr with
  | .ok l => l
  | .error _ => []

/-- The entry can be sent. -/
def Sendable (root : List Byte) (e : Entry) : Prop := sent root e.attr = .ok (sentOf root e)

theorem sendable_of_ok {root : List Byte} {e : Entry} {l : List WireAttr}
    (h : sent root e.attr = .ok l) : Sendable root e := by
  rw [Sendable, sentOf, h]

/-- A divider has its tag and no values, and nothing else has its tag. -/
structure Entry.Wf (e : Entry) : Prop where
  divider : e.attr.valueTag = 0x03 ↔ e.wire = none
  values : e.wire = none → e.attr.values = []

theorem sent_divider {root : List Byte} {e : Entry} (he : e.Wf) (hd : e.wire = none) :
    sent root e.attr = .ok [] := by
  rw [sent, he.values hd]
  rfl

theorem sentOf_divider {root : List Byte} {e : Entry} (he : e.Wf) (hd : e.wire = none) :
    sentOf root e = [] := by
  rw [sentOf, sent_divider he hd]

theorem attrBytes_flatMap {α : Type} (f : α → List WireAttr) (l : List α) :
    attrBytes (l.flatMap f) = (l.map fun a => attrBytes (f a)).flatten := by
  induction l with
  | nil => rfl
  | cons a l ih => rw [List.flatMap_cons, attrBytes_append, ih, List.map_cons, List.flatten_cons]

theorem ippPutAttr_ok {root : List Byte} {e : Entry} (h : Sendable root e) :
    ippPutAttr root e.attr = .ok (attrBytes (sentOf root e)) := by
  rw [ippPutAttr_eq, h]
  rfl

theorem sendable_of_put {root : List Byte} {e : Entry} {b : List Byte}
    (h : ippPutAttr root e.attr = .ok b) : Sendable root e := by
  rw [ippPutAttr_eq] at h
  cases hs : sent root e.attr with
  | error _ =>
    rw [hs] at h
    cases h
  | ok l => exact sendable_of_ok hs

theorem putAttrs_ok {root : List Byte} {l : List Entry} (h : ∀ e ∈ l, Sendable root e) :
    putAttrs root (l.map Entry.attr) = .ok (attrBytes (l.flatMap (sentOf root))) := by
  have hl : (l.map Entry.attr).mapM (ippPutAttr root) =
      .ok (l.map fun e => attrBytes (sentOf root e)) := by
    rw [List.mapM_map]
    exact mapM_eq_ok fun e he => ippPutAttr_ok (h e he)
  rw [putAttrs, hl, attrBytes_flatMap]
  rfl

theorem sendable_of_putAttrs {root : List Byte} {l : List Entry} {b : List Byte}
    (h : putAttrs root (l.map Entry.attr) = .ok b) : ∀ e ∈ l, Sendable root e := by
  obtain ⟨bs, hbs, -⟩ := bind_eq_ok h
  rw [List.mapM_map] at hbs
  intro e he
  obtain ⟨b', hb'⟩ := mem_of_mapM hbs e he
  exact sendable_of_put hb'

/-- The bytes of a group. -/
def groupBytes (g : WireGroup) : List Byte := g.tag :: attrBytes g.attrs

theorem flatMap_groupBytes (gs : List WireGroup) :
    (gs.flatMap WireGroup.items).flatMap WireItem.bytes = gs.flatMap groupBytes := by
  induction gs with
  | nil => rfl
  | cons g gs ih =>
    rw [List.flatMap_cons, List.flatMap_append, ih, List.flatMap_cons]
    rfl

/-- The groups of a list with dividers. -/
def objectGroups (root : List Byte) (tag : Byte) (l : List Entry) : List WireGroup :=
  (l.segments fun e => e.wire.isNone).map fun s => ⟨tag, s.flatMap (sentOf root)⟩

theorem putObjects_ok {root : List Byte} (tag : Byte) {l : List Entry} (hwf : ∀ e ∈ l, e.Wf)
    (h : ∀ e ∈ l, Sendable root e) :
    ∃ b, putObjects root tag (l.map Entry.attr) = .ok b ∧
      tag :: b = (objectGroups root tag l).flatMap groupBytes := by
  induction l with
  | nil => exact ⟨[], rfl, rfl⟩
  | cons e l ih =>
    have he := hwf e (List.mem_cons_self ..)
    obtain ⟨b, hb, hbytes⟩ := ih (fun e' he' => hwf e' (List.mem_cons_of_mem e he'))
      fun e' he' => h e' (List.mem_cons_of_mem e he')
    rw [List.map_cons, putObjects, hb]
    by_cases hd : e.wire = none
    · rw [if_pos (he.divider.2 hd)]
      refine ⟨_, rfl, ?_⟩
      by_cases hl : l = []
      · subst hl
        cases hb
        simp [objectGroups, List.segments, hd, groupBytes, attrBytes]
      · rw [if_pos (by simpa using hl), hbytes]
        simp [objectGroups, List.segments, hd, hl, groupBytes, attrBytes]
    · rw [if_neg fun ht => hd (he.divider.1 ht), ippPutAttr_ok (h e (List.mem_cons_self ..))]
      refine ⟨_, rfl, ?_⟩
      obtain ⟨s, ss, hseg⟩ := List.exists_cons_of_ne_nil
        (List.segments_ne_nil (d := fun e : Entry => e.wire.isNone) l)
      have hnd : e.wire.isNone = false := by
        simpa using Option.isSome_iff_ne_none.2 hd
      rw [objectGroups, hseg, List.map_cons, List.flatMap_cons] at hbytes
      have hcons : (e :: l).segments (fun e : Entry => e.wire.isNone) = (e :: s) :: ss :=
        List.segments_cons_of_neg (d := fun e : Entry => e.wire.isNone) hnd hseg
      rw [objectGroups, hcons, List.map_cons, List.flatMap_cons]
      have hb' := (List.cons.inj hbytes).2
      show tag :: (attrBytes (sentOf root e) ++ b) = _
      rw [hb']
      show _ = tag :: attrBytes ((e :: s).flatMap (sentOf root)) ++ _
      rw [List.flatMap_cons, attrBytes_append, List.cons_append, List.append_assoc]
      rfl

theorem sendable_of_putObjects {root : List Byte} {tag : Byte} {l : List Entry} {b : List Byte}
    (hwf : ∀ e ∈ l, e.Wf) (h : putObjects root tag (l.map Entry.attr) = .ok b) :
    ∀ e ∈ l, Sendable root e := by
  induction l generalizing b with
  | nil => exact fun e he => absurd he List.not_mem_nil
  | cons e l ih =>
    have he := hwf e (List.mem_cons_self ..)
    have hl : ∀ {b}, putObjects root tag (l.map Entry.attr) = .ok b → ∀ e ∈ l, Sendable root e :=
      fun hb => ih (fun e' he' => hwf e' (List.mem_cons_of_mem e he')) hb
    rw [List.map_cons, putObjects] at h
    by_cases hd : e.wire = none
    · rw [if_pos (he.divider.2 hd)] at h
      obtain ⟨b', hb', -⟩ := bind_eq_ok h
      exact List.forall_mem_cons.2 ⟨sendable_of_ok (sent_divider he hd), hl hb'⟩
    · rw [if_neg fun ht => hd (he.divider.1 ht)] at h
      obtain ⟨a, ha, h⟩ := bind_eq_ok h
      obtain ⟨b', hb', -⟩ := bind_eq_ok h
      exact List.forall_mem_cons.2 ⟨sendable_of_put ha, hl hb'⟩

/-! ## The whole response -/

/-- The groups a list of entries comes to: there are dividers only between printers and between
jobs. -/
def sentGroups (root : List Byte) (g : ReplyGroup) (l : List Entry) : List WireGroup :=
  if l = [] then []
  else
    match g with
    | .printer | .job => objectGroups root g.tag l
    | .operation | .unsupported => [⟨g.tag, l.flatMap (sentOf root)⟩]

/-- The part of a response that belongs to one group. -/
def putList (root : List Byte) (g : ReplyGroup) (l : List ReplyAttr) :
    Except ReplyError (List Byte) :=
  putGroup g.tag l
    (match g with
    | .printer | .job => putObjects root g.tag l
    | .operation | .unsupported => putAttrs root l)

theorem putList_ok {root : List Byte} {g : ReplyGroup} {l : List Entry} (hwf : ∀ e ∈ l, e.Wf)
    (h : ∀ e ∈ l, Sendable root e) :
    putList root g (l.map Entry.attr) = .ok ((sentGroups root g l).flatMap groupBytes) := by
  by_cases hl : l = []
  · subst hl
    rfl
  · have hne : l.map Entry.attr ≠ [] := by simpa using hl
    obtain ⟨b, hb, hbytes⟩ := putObjects_ok g.tag hwf h
    unfold putList putGroup sentGroups
    rw [if_neg hne, if_neg hl]
    cases g with
    | operation | unsupported =>
      dsimp only
      rw [putAttrs_ok h, List.flatMap_singleton]
      rfl
    | printer | job =>
      dsimp only
      rw [hb, ← hbytes]
      rfl

theorem sendable_of_putList {root : List Byte} {g : ReplyGroup} {l : List Entry} {b : List Byte}
    (hwf : ∀ e ∈ l, e.Wf) (h : putList root g (l.map Entry.attr) = .ok b) :
    ∀ e ∈ l, Sendable root e := by
  unfold putList putGroup at h
  split_ifs at h with hl
  · rw [List.map_eq_nil_iff.1 hl]
    exact fun e he => absurd he List.not_mem_nil
  · obtain ⟨b', hb', -⟩ := bind_eq_ok h
    cases g with
    | operation | unsupported => exact sendable_of_putAttrs hb'
    | printer | job => exact sendable_of_putObjects hwf hb'

theorem ippSendReply_eq (root : List Byte) (h : ReplyHeader) (request : List IppAttribute)
    (r : IppReply) (header : Bool) :
    ippSendReply root h request r header =
      (let r := returnUnclaimed request r
      if r.operation = [] then .error .noOperation
      else do
        let operation ← putList root .operation (r.list .operation)
        let printer ← putList root .printer (r.list .printer)
        let job ← putList root .job (r.list .job)
        let unsupported ← putList root .unsupported (r.list .unsupported)
        .ok ((if header then httpHeader else []) ++ h.bytes ++
          (operation ++ printer ++ job ++ unsupported ++ [0x03]))) := rfl

end Ppr
