import Ppr.Libppr.IppParse

/-!
# IPP requests are read as they were sent, but for some values

A message and a document sent to `ipp_parse_request()` in any chunks, with or without a
Content-Length.  The request shows every attribute, the claim functions return the values sent, and
the document follows, exactly if no value is of a kind the code misreads: a false boolean (stored as
an unknown value, so that its length is taken for it), a string with a NUL in it, and, where a
`char` is signed, a value with a tag from 0x80 on.
-/

namespace Ppr

open Reading

/-- The value a member of the union shows: `integer` or `boolean` for a number, `string` for a tag
that `ipp_tag_simplify()` knows as a string's, and else `unknown`. -/
def MsgValue.Shown (v : MsgValue) (w : IppValue) : Prop :=
  match v with
  | .integer _ i => w.integer? = some i
  | .boolean b => w.integer? = some (if b then 1 else 0)
  | .octets tag data .. =>
    if ippTagSimplify (tag.setWidth 32) = 0x30 then w.text? = some data
    else w.unknown? = some data

/-- The request has the attribute with its group, tag, name and values. -/
def MsgAttr.Shown (ga : Byte × MsgAttr) (p : IppAttribute) : Prop :=
  p.groupTag = ga.1.setWidth 32 ∧ p.valueTag = ga.2.value.tag.setWidth 32 ∧
    cstr p.name = ga.2.name ∧ List.Forall₂ MsgValue.Shown ga.2.values p.values

/-- An attribute of the given group, tag and name. -/
def MsgAttr.asked (group tag : CInt) (name : List Byte) (ga : Byte × MsgAttr) : Bool :=
  ga.1.setWidth 32 = group ∧ ga.2.value.tag.setWidth 32 = tag ∧ ga.2.name = cstr name

/-- The first attribute of the given group, tag and name, if it has a single value. -/
def IppMessage.single (m : IppMessage) (group tag : CInt) (name : List Byte) : Option MsgValue :=
  (m.attrs.find? (MsgAttr.asked group tag name)).bind fun ga =>
    match ga.2.additional with
    | [] => some ga.2.value
    | _ :: _ => none

/-- What the claim functions return is what was sent, or else their default. -/
structure Claimed (m : IppMessage) (r : IppRequest) : Prop where
  boolean : ∀ group name defaultValue, (ippClaimBoolean r group name defaultValue).1 =
    match m.single group 0x22 name with
    | some (.boolean b) => some (if b then 1 else 0)
    | _ => some defaultValue
  enum : ∀ group name, (ippClaimEnum r group name).1 =
    match m.single group 0x23 name with
    | some (.integer _ i) => some i
    | _ => some 0
  positiveInteger : ∀ group name, (ippClaimPositiveInteger r group name).1 =
    match m.single group 0x21 name with
    | some (.integer _ i) => some (if i.toInt ≤ 0 then 0 else i)
    | _ => some 0
  string : ∀ group tag name, ippTagSimplify tag = 0x30 →
    (ippClaimString r group tag name).1 = (m.single group tag name).map MsgValue.data
  keyword : ∀ group name keywords, (ippClaimKeyword r group name keywords).1 =
    (m.single group 0x44 name).bind fun v => keywords.find? fun k => v.data = cstr k
  uri : ∀ (γ : Type) (guUriNew : Option (List Byte) → γ) group name,
    (ippClaimUri guUriNew r group name).1 =
      (m.single group 0x45 name).map fun v => guUriNew (some v.data)

/-- The Content-Length: that of the whole input, or unknown. -/
def contentLength (known : Bool) (input : List Byte) : ℤ := if known then input.length else -1

/-- A message followed by a document, as the input. -/
def IppMessage.sent (m : IppMessage) (known : Bool) (document : List Byte) : IppIn :=
  ippNew (contentLength known (m.bytes ++ document)) (m.bytes ++ document)

/-- The message is taken in as it was sent, up to its end and not further, and the document can be
read after it. -/
def ReadAsSent (signed : Bool) (chunk : ℕ → ℕ) (known : Bool) (m : IppMessage)
    (document : List Byte) : Prop :=
  ∃ r p, ippParseRequest signed chunk (m.sent known document) = .ok (r, p) ∧
    List.Forall₂ MsgAttr.Shown m.attrs r.attrs ∧ Claimed m r ∧
    p.readbuf ++ p.input = document ∧
    ∃ blocks, Blocks chunk p blocks ∧ blocks.flatten = document

/-- A value that the code does not misread. -/
def MsgValue.Readable : MsgValue → Prop
  | .integer .. => True
  | .boolean b => b = true
  | .octets tag data .. => ippTagSimplify (tag.setWidth 32) = 0x30 → 0 ∉ data

/-- No tag from 0x80 on where a `char` is signed, no false boolean, no string with a NUL. -/
def IppMessage.Readable (signed : Bool) (m : IppMessage) : Prop :=
  (∀ i ∈ m.items, i.Plain signed) ∧ ∀ ga ∈ m.attrs, ∀ v ∈ ga.2.values, v.Readable

variable (signed : Bool) (chunk : ℕ → ℕ) (known : Bool)

/-! ## The whole request -/

/-- What `ipp_parse_request()` makes of the message. -/
def IppMessage.stored (m : IppMessage) : IppRequest :=
  { versionMajor := m.versionMajor.signExtend 32
    versionMinor := m.versionMinor.signExtend 32
    operationId := (m.operationId.extractLsb' 8 8).setWidth 32 <<< 8 |||
      (m.operationId.extractLsb' 0 8).setWidth 32
    requestId := m.requestId
    attrs := m.attrs.map fun ga => ga.2.stored ga.1
    unsupported := []
    responseCode := 0 }

theorem length_items_le (items : List MsgItem) :
    items.length ≤ (items.flatMap MsgItem.bytes).length := by
  induction items with
  | nil => exact Nat.le_refl _
  | cons i items ih =>
    rw [List.flatMap_cons, List.length_append, List.length_cons]
    have : 0 < i.bytes.length := Nat.succ_pos _
    omega

theorem presents_sent (m : IppMessage) (document : List Byte) :
    Presents (m.sent known document) (m.bytes ++ document) := by
  refine ⟨List.nil_append _, ?_⟩
  cases known
  · exact Or.inl rfl
  · exact Or.inr rfl

/-- A message is long enough. -/
theorem not_tooShort (m : IppMessage) (document : List Byte) :
    ¬ ((m.sent known document).bytesLeft ≠ -1 ∧ (m.sent known document).bytesLeft < 9) := by
  have h : 9 ≤ (m.bytes ++ document).length := by
    simp only [IppMessage.bytes, IppMessage.header, intBytes, List.length_append, List.length_cons,
      List.length_nil]
    omega
  rintro ⟨h1, h2⟩
  cases known
  · exact h1 rfl
  · have h2 : ((m.bytes ++ document).length : ℤ) < 9 := h2
    omega

/-- The header of a message comes before the loop. -/
theorem leads_header (m : IppMessage) (loop : IppM ParseState) :
    Leads Presents (readRequest chunk loop) m.header
      (loop >>= fun st => pure { m.stored with attrs := st.attrs }) := by
  refine ((leads_ippGetSb chunk m.versionMajor).bind _).trans
    (((leads_ippGetSb chunk m.versionMinor).bind _).trans
      (((leads_ippGetSs chunk _ _).bind _).trans ?_))
  exact (leads_integer chunk m.requestId).bind _

/-- The loop has rounds enough for a message. -/
theorem ippParseRequest_sent (m : IppMessage) (document : List Byte) :
    ∃ n, ippParseRequest signed chunk (m.sent known document) =
      readRequest chunk (parseLoop signed chunk (n + 1 + m.items.length) .start)
        (m.sent known document) := by
  have h := length_items_le m.items
  refine ⟨(m.bytes ++ document).length - m.items.length, ?_⟩
  have hn : (m.sent known document).readbuf.length + (m.sent known document).input.length + 1 =
      (m.bytes ++ document).length - m.items.length + 1 + m.items.length := by
    simp only [IppMessage.sent, ippNew, IppMessage.bytes, List.length_append, List.length_nil]
    omega
  rw [ippParseRequest, if_neg (not_tooShort known m document), hn]

theorem ippParseRequest_ok {m : IppMessage} (h : ∀ i ∈ m.items, i.Plain signed)
    (document : List Byte) :
    ∃ p, ippParseRequest signed chunk (m.sent known document) = .ok (m.stored, p) ∧
      Presents p document := by
  obtain ⟨n, hn⟩ := ippParseRequest_sent signed chunk known m document
  have hloop := (leads_parseLoop chunk signed .start (chained_items m _) h (n + 1)).trans
    (leads_end chunk signed _ n)
  have hrun := ((leads_header chunk m _).trans (hloop.bind _)).run
    (presents_sent known m document)
  rwa [stored_attrs m _ rfl, ← hn] at hrun

theorem ippParseRequest_error {m : IppMessage} (h : ¬ ∀ i ∈ m.items, i.Plain signed)
    (document : List Byte) :
    ∃ e, ippParseRequest signed chunk (m.sent known document) = .error e := by
  obtain ⟨n, hn⟩ := ippParseRequest_sent signed chunk known m document
  have hloop := throws_parseLoop chunk signed .start (chained_items m _) h (n + 1)
  rw [hn]
  exact (((leads_header chunk m _).throws hloop.bind).append _) _ _ (presents_sent known m document)

/-! ## The values -/

theorem MsgValue.shown_stored (v : MsgValue) : v.Shown v.stored ↔ v.Readable := by
  cases v with
  | integer => exact iff_of_true rfl trivial
  | boolean b => cases b <;> simp [MsgValue.Shown, MsgValue.Readable, MsgValue.stored,
      IppValue.integer?, MsgValue.tag, MsgValue.data, ippTagSimplify]
  | octets tag data htag hdata =>
    by_cases hs : ippTagSimplify (tag.setWidth 32) = 0x30
    · simp only [MsgValue.Shown, MsgValue.Readable, MsgValue.stored, MsgValue.tag, MsgValue.data,
        hs, if_true, IppValue.text?, cstr_append_zero, Option.some.injEq, cstr_eq_self,
        forall_true_left]
    · simp only [MsgValue.Shown, MsgValue.Readable, MsgValue.stored, MsgValue.tag, MsgValue.data,
        hs, if_false, IppValue.unknown?, toInt_ofNat hdata, Int.toNat_natCast, List.take_left,
        false_implies]

theorem MsgAttr.shown_stored (ga : Byte × MsgAttr) :
    MsgAttr.Shown ga (ga.2.stored ga.1) ↔ ∀ v ∈ ga.2.values, v.Readable := by
  have hname : cstr (ga.2.name ++ [0]) = ga.2.name := by
    rw [cstr_append_zero, cstr_eq_self]
    exact ga.2.hname.2.2
  simp only [MsgAttr.Shown, MsgAttr.stored, hname, true_and, List.forall₂_map_right_iff,
    List.forall₂_same, MsgValue.shown_stored]

theorem shown_stored (m : IppMessage) :
    List.Forall₂ MsgAttr.Shown m.attrs m.stored.attrs ↔
      ∀ ga ∈ m.attrs, ∀ v ∈ ga.2.values, v.Readable := by
  simp only [IppMessage.stored, List.forall₂_map_right_iff, List.forall₂_same,
    MsgAttr.shown_stored]

/-! ## The claim functions -/

theorem matches_stored (group tag : CInt) (name : List Byte) :
    (IppAttribute.matches group tag name ∘ fun ga : Byte × MsgAttr => ga.2.stored ga.1) =
      MsgAttr.asked group tag name := by
  funext ga
  have hname : cstr (ga.2.name ++ [0]) = ga.2.name := by
    rw [cstr_append_zero, cstr_eq_self]
    exact ga.2.hname.2.2
  simp only [Function.comp, IppAttribute.matches, MsgAttr.asked, MsgAttr.stored, hname]

/-- Claiming a single value of the stored request is looking it up in the message. -/
theorem ippClaimSingleValue_stored (m : IppMessage) (group tag : CInt) (name : List Byte) :
    (m.single group tag name = none ∧
      ∃ r, ippClaimSingleValue m.stored group tag name = (none, r)) ∨
    ∃ v p r, m.single group tag name = some v ∧
      ippClaimSingleValue m.stored group tag name = (some (p, v.stored), r) := by
  have hfind : m.stored.attrs.find? (IppAttribute.matches group tag name) =
      (m.attrs.find? (MsgAttr.asked group tag name)).map fun ga => ga.2.stored ga.1 := by
    rw [IppMessage.stored, List.find?_map, matches_stored]
  simp only [ippClaimSingleValue, ippClaimAttribute, hfind, IppMessage.single]
  cases m.attrs.find? (MsgAttr.asked group tag name) with
  | none => exact Or.inl ⟨rfl, _, rfl⟩
  | some ga =>
    obtain ⟨g, name', value, additional, hname'⟩ := ga
    cases additional with
    | nil => exact Or.inr ⟨value, _, _, rfl, rfl⟩
    | cons v vs => exact Or.inl ⟨rfl, _, rfl⟩

/-- The value looked up has the tag asked for and is one of the message's. -/
theorem single_eq_some {m : IppMessage} {group tag : CInt} {name : List Byte} {v : MsgValue}
    (h : m.single group tag name = some v) :
    v.tag.setWidth 32 = tag ∧ ∃ ga ∈ m.attrs, v ∈ ga.2.values := by
  obtain ⟨ga, hga, hv⟩ := Option.bind_eq_some_iff.1 h
  have hp : MsgAttr.asked group tag name ga = true := List.find?_some hga
  have hp := of_decide_eq_true hp
  have hv : v = ga.2.value := by
    split at hv
    · exact (Option.some.inj hv).symm
    · cases hv
  subst hv
  exact ⟨hp.2.1, ga, List.mem_of_find?_eq_some hga, List.mem_cons_self ..⟩

theorem setWidth_inj {a b : Byte} (h : (a.setWidth 32 : CInt) = b.setWidth 32) : a = b := by
  simpa using congrArg (BitVec.setWidth 8) h

theorem MsgValue.of_boolean_tag {v : MsgValue} (h : (v.tag.setWidth 32 : CInt) = 0x22) :
    ∃ b, v = .boolean b := by
  have htag : v.tag = 0x22 := setWidth_inj h
  cases v with
  | integer enum => cases enum <;> exact absurd htag (by simp [MsgValue.tag])
  | boolean b => exact ⟨b, rfl⟩
  | octets tag _ hne => exact absurd (by simp [show tag = 0x22 from htag]) hne.2

theorem MsgValue.of_integer_tag {v : MsgValue} (h : v.tag ∈ [0x21, 0x23]) :
    ∃ enum i, v = .integer enum i := by
  cases v with
  | integer enum i => exact ⟨enum, i, rfl⟩
  | boolean b => exact absurd h (by simp [MsgValue.tag])
  | octets tag _ hne =>
    have h : tag ∈ [0x21, 0x23] := h
    simp only [List.mem_cons, List.not_mem_nil, or_false] at h hne
    tauto

/-- The text of a string that is readable. -/
theorem MsgValue.text_stored {v : MsgValue} (htag : ippTagSimplify (v.tag.setWidth 32) = 0x30)
    (h : v.Readable) : v.stored.text? = some v.data := by
  have hshown := v.shown_stored.2 h
  cases v with
  | integer enum => cases enum <;> simp [MsgValue.tag, ippTagSimplify] at htag
  | boolean b => simp [MsgValue.tag, ippTagSimplify] at htag
  | octets tag data _ _ =>
    simp only [MsgValue.tag] at htag
    simp only [MsgValue.Shown, htag, if_true] at hshown
    exact hshown

theorem claimed_stored {m : IppMessage} (h : ∀ ga ∈ m.attrs, ∀ v ∈ ga.2.values, v.Readable) :
    Claimed m m.stored where
  boolean group name defaultValue := by
    rcases ippClaimSingleValue_stored m group 0x22 name with ⟨hs, r, hc⟩ | ⟨v, p, r, hs, hc⟩
    · rw [ippClaimBoolean, hc, hs]
    · obtain ⟨htag, ga, hga, hv⟩ := single_eq_some hs
      obtain ⟨b, rfl⟩ := MsgValue.of_boolean_tag htag
      rw [ippClaimBoolean, hc, hs]
      exact (MsgValue.shown_stored _).2 (h ga hga _ hv)
  enum group name := by
    rcases ippClaimSingleValue_stored m group 0x23 name with ⟨hs, r, hc⟩ | ⟨v, p, r, hs, hc⟩
    · rw [ippClaimEnum, hc, hs]
    · have htag : v.tag = 0x23 := setWidth_inj (single_eq_some hs).1
      obtain ⟨enum, i, rfl⟩ := MsgValue.of_integer_tag (v := v) (by simp [htag])
      rw [ippClaimEnum, hc, hs]
      rfl
  positiveInteger group name := by
    rcases ippClaimSingleValue_stored m group 0x21 name with ⟨hs, r, hc⟩ | ⟨v, p, r, hs, hc⟩
    · rw [ippClaimPositiveInteger, hc, hs]
    · have htag : v.tag = 0x21 := setWidth_inj (single_eq_some hs).1
      obtain ⟨enum, i, rfl⟩ := MsgValue.of_integer_tag (v := v) (by simp [htag])
      rw [ippClaimPositiveInteger, hc, hs]
      simp only [MsgValue.stored, IppValue.integer?]
      split_ifs <;> rfl
  string group tag name hstring := by
    rcases ippClaimSingleValue_stored m group tag name with ⟨hs, r, hc⟩ | ⟨v, p, r, hs, hc⟩
    · rw [ippClaimString, hc, hs]
      rfl
    · obtain ⟨htag, ga, hga, hv⟩ := single_eq_some hs
      rw [ippClaimString, hc, hs]
      exact MsgValue.text_stored (htag ▸ hstring) (h ga hga v hv)
  keyword group name keywords := by
    rcases ippClaimSingleValue_stored m group 0x44 name with ⟨hs, r, hc⟩ | ⟨v, p, r, hs, hc⟩
    · rw [ippClaimKeyword, hc, hs]
      rfl
    · obtain ⟨htag, ga, hga, hv⟩ := single_eq_some hs
      have htext := MsgValue.text_stored (v := v) (by rw [htag]; decide) (h ga hga v hv)
      rw [ippClaimKeyword, hc, hs]
      simp only [htext, Option.some.injEq, Option.bind_some]
      cases keywords.find? fun k => decide (v.data = cstr k) <;> rfl
  uri γ guUriNew group name := by
    rcases ippClaimSingleValue_stored m group 0x45 name with ⟨hs, r, hc⟩ | ⟨v, p, r, hs, hc⟩
    · rw [ippClaimUri, hc, hs]
      rfl
    · obtain ⟨htag, ga, hga, hv⟩ := single_eq_some hs
      have htext := MsgValue.text_stored (v := v) (by rw [htag]; decide) (h ga hga v hv)
      rw [ippClaimUri, hc, hs]
      simp only [htext, Option.map_some]

/-! ## The document -/

/-- With the buffer empty, the blocks are those of what is still to be read. -/
theorem exists_blocks_of_empty (n : ℕ) (p : IppIn) (hn : p.input.length = n)
    (hp : Presents p p.input) (hbuf : p.readbuf = []) :
    ∃ blocks, Blocks chunk p blocks ∧ blocks.flatten = p.input := by
  induction n using Nat.strong_induction_on generalizing p with
  | _ n ih =>
    have hget : ippGetBlock chunk p = if p.bytesLeft = 0 then .ok ([], p) else
        ippReadbufLoad chunk p >>= fun q => .ok (q.readbuf, { q with readbuf := [] }) :=
      if_pos hbuf
    by_cases hin : p.input = []
    · refine ⟨[], ?_, hin.symm⟩
      rw [hin] at hp
      rcases hp.2 with hleft | hleft
      · have hload : ippReadbufLoad chunk p =
            .ok { bytesLeft := -1, input := [], reads := p.reads + 1, readbuf := [] } := by
          simp [ippReadbufLoad, hleft, hin]
        rw [if_neg (by omega), hload] at hget
        exact Blocks.done hget
      · refine Blocks.done (q := p) ?_
        rw [hget, if_pos (by simpa [hin] using hleft)]
    · obtain ⟨q, hq, ⟨hu, hleft⟩, hne⟩ := ippReadbufLoad_presents chunk hp hbuf hin
      have hzero : p.bytesLeft ≠ 0 := by
        have := List.length_pos_of_ne_nil hin
        rcases hp.2 with h | h <;> omega
      have hlen : q.input.length < n := by
        have := congrArg List.length hu
        have hpos := List.length_pos_of_ne_nil hne
        rw [List.length_append] at this
        omega
      obtain ⟨blocks, hblocks, hflat⟩ := ih _ hlen { q with readbuf := [] } rfl
        ⟨List.nil_append _, hleft⟩ rfl
      refine ⟨q.readbuf :: blocks, Blocks.block ?_ hne hblocks, ?_⟩
      · rw [hget, if_neg hzero, hq]
        rfl
      · rw [List.flatten_cons, hflat, hu]

theorem exists_blocks (p : IppIn) (document : List Byte) (hp : Presents p document) :
    ∃ blocks, Blocks chunk p blocks ∧ blocks.flatten = document := by
  obtain ⟨rfl, hleft⟩ := hp
  by_cases hbuf : p.readbuf = []
  · rw [hbuf, List.nil_append]
    exact exists_blocks_of_empty chunk _ p rfl ⟨by rw [hbuf, List.nil_append], hleft⟩ hbuf
  · obtain ⟨blocks, hblocks, hflat⟩ := exists_blocks_of_empty chunk _ { p with readbuf := [] } rfl
      ⟨List.nil_append _, hleft⟩ rfl
    exact ⟨p.readbuf :: blocks, Blocks.block (if_neg hbuf) hbuf hblocks,
      by rw [List.flatten_cons, hflat]⟩

/-! ## The result -/

theorem readable_of_readAsSent {m : IppMessage} {document : List Byte}
    (h : ReadAsSent signed chunk known m document) : m.Readable signed := by
  obtain ⟨r, p, hok, hshown, -⟩ := h
  by_cases hplain : ∀ i ∈ m.items, i.Plain signed
  · obtain ⟨q, hq, -⟩ := ippParseRequest_ok signed chunk known hplain document
    rw [hq] at hok
    cases hok
    exact ⟨hplain, (shown_stored m).1 hshown⟩
  · obtain ⟨e, he⟩ := ippParseRequest_error signed chunk known hplain document
    rw [he] at hok
    cases hok

theorem readAsSent_of_readable {m : IppMessage} (h : m.Readable signed) (document : List Byte) :
    ReadAsSent signed chunk known m document := by
  obtain ⟨p, hok, hp⟩ := ippParseRequest_ok signed chunk known h.1 document
  exact ⟨m.stored, p, hok, (shown_stored m).2 h.2, claimed_stored h.2, hp.1,
    exists_blocks chunk p document hp⟩

/-- A request is read as it was sent exactly if all its values are readable. -/
theorem readAsSent_iff_readable (m : IppMessage) (document : List Byte) :
    ReadAsSent signed chunk known m document ↔ m.Readable signed :=
  ⟨readable_of_readAsSent signed chunk known, fun h => readAsSent_of_readable signed chunk known h
    document⟩

/-- Get-Jobs with the operation attribute "my-jobs" set to false. -/
def myJobsFalse : IppMessage :=
  { versionMajor := 1, versionMinor := 0, operationId := 0x000a, requestId := 1
    groups := [{
      tag := 0x01
      attrs := [{
        name := [0x6d, 0x79, 0x2d, 0x6a, 0x6f, 0x62, 0x73]
        value := .boolean false
        additional := []
        hname := by decide }]
      htag := by decide }] }

/-- Sent in one chunk, it is read as true. -/
theorem myJobsFalse_not_readAsSent : ¬ ReadAsSent true (fun _ => 511) true myJobsFalse [] := by
  intro h
  obtain ⟨-, hvalues⟩ := readable_of_readAsSent _ _ _ h
  exact Bool.false_ne_true (hvalues _ (List.mem_singleton_self _) _ (List.mem_singleton_self _))

end Ppr
