import Ppr.Lib.Reading

/-!
# The IPP request object

`ipp_parse_request()`, `ipp_get_block()` and the claim functions of `ipp_obj.c`.  The request comes
through a 512 byte buffer; `chunk n` is one less than the most that call `n` of `read()` delivers.

`ipp_value_t` is a union: a value is what was stored last, and `integer` and `boolean` are the same
`int` as the length of an unknown value.  Debug messages and the memory pool are left out.
-/

namespace Ppr

/-- Size of `readbuf`. -/
def readbufSize : ℕ := 512

/-- The input side of `struct IPP`. -/
structure IppIn where
  /-- What is left of the Content-Length, -1 if there was none. -/
  bytesLeft : ℤ
  /-- What `read()` has not delivered yet. -/
  input : List Byte
  /-- Calls of `read()` so far. -/
  reads : ℕ
  /-- The `readbuf_remaining` bytes from `readbuf_i` on. -/
  readbuf : List Byte

/-- Why `gu_Throw()` was called. -/
inductive IppError where
  | prematureEOF
  | dataRunoff
  | tooShort (bytesLeft : ℤ)
  | noName
  | invalidTag (tag : CInt)

abbrev IppM := StateT IppIn (Except IppError)

variable (signed : Bool) (chunk : ℕ → ℕ)

/-- `ipp_readbuf_load()`.  The comparison with the size of the buffer is unsigned. -/
def ippReadbufLoad (p : IppIn) : Except IppError IppIn :=
  let size :=
    if p.bytesLeft ≠ -1 ∧ 0 ≤ p.bytesLeft ∧ p.bytesLeft < readbufSize then p.bytesLeft.toNat
    else readbufSize
  let n := min (min size p.input.length) (chunk p.reads + 1)
  if p.bytesLeft ≠ -1 ∧ n < 1 then .error .prematureEOF
  else .ok
    { bytesLeft := if p.bytesLeft ≠ -1 then p.bytesLeft - n else p.bytesLeft
      input := p.input.drop n
      reads := p.reads + 1
      readbuf := p.input.take n }

/-- `ipp_get_block()`: the block is empty when the function returns 0. -/
def ippGetBlock : IppM (List Byte) := fun p =>
  if p.readbuf = [] then
    if p.bytesLeft = 0 then .ok ([], p)
    else do
      let p ← ippReadbufLoad chunk p
      .ok (p.readbuf, { p with readbuf := [] })
  else .ok (p.readbuf, { p with readbuf := [] })

/-- `ipp_get_byte()`. -/
def ippGetByte : IppM Byte := fun p => do
  let p ← (if p.readbuf = [] then ippReadbufLoad chunk p else .ok p : Except IppError IppIn)
  match p.readbuf with
  | [] => .error .dataRunoff
  | b :: readbuf => .ok (b, { p with readbuf := readbuf })

/-- `ipp_get_sb()`. -/
def ippGetSb : IppM CInt := do
  let a ← ippGetByte chunk
  return a.signExtend 32

/-- `ipp_get_ss()`: `!0xFFFF` is 0, so the result is never negative. -/
def ippGetSs : IppM CInt := do
  let a ← ippGetByte chunk
  let b ← ippGetByte chunk
  return a.setWidth 32 <<< 8 ||| b.setWidth 32

/-- `ipp_get_si()`. -/
def ippGetSi : IppM CInt := do
  let a ← ippGetByte chunk
  let b ← ippGetByte chunk
  let c ← ippGetByte chunk
  let d ← ippGetByte chunk
  return a.setWidth 32 <<< 24 ||| b.setWidth 32 <<< 16 ||| c.setWidth 32 <<< 8 ||| d.setWidth 32

/-- The loop of `ipp_get_bytes()`. -/
def getBytesLoop : ℕ → IppM (List Byte)
  | 0 => pure []
  | len + 1 => do
    let b ← ippGetByte chunk
    let bytes ← getBytesLoop len
    return b :: bytes

/-- `ipp_get_bytes()`: the block ends with a NUL. -/
def ippGetBytes (len : CInt) : IppM (List Byte) := do
  let bytes ← getBytesLoop chunk len.toInt.toNat
  return bytes ++ [0]

/-- `ipp_value_t`. -/
inductive IppValue where
  | integer (integer : CInt)
  | string (text : List Byte)
  | unknown (length : CInt) (data : List Byte)

/-- The member `integer`, which is also the member `boolean`; in a string it is part of a
pointer. -/
def IppValue.integer? : IppValue → Option CInt
  | .integer i => some i
  | .unknown length _ => some length
  | .string _ => none

/-- The member `string.text`, which is a pointer only in a string. -/
def IppValue.text? : IppValue → Option (List Byte)
  | .string text => some (cstr text)
  | _ => none

/-- The member `unknown`. -/
def IppValue.unknown? : IppValue → Option (List Byte)
  | .unknown length data => some (data.take length.toInt.toNat)
  | _ => none

/-- `ipp_attribute_t`. -/
structure IppAttribute where
  groupTag : CInt
  valueTag : CInt
  name : List Byte
  values : List IppValue

/-- `ipp_tag_simplify()`: 0x21 is integer, 0x22 boolean, 0x23 enum and 0x30 string. -/
def ippTagSimplify (valueTag : CInt) : CInt :=
  if valueTag ∈ [0x21, 0x23] then 0x21
  else if valueTag ∈ [0x30, 0x41, 0x42, 0x44, 0x45, 0x47, 0x48, 0x49] then 0x30
  else valueTag

/-- The part of `ipp_parse_request()` that reads a value.  There is no case for booleans. -/
def getValue (valueTag valueLength : CInt) : IppM IppValue :=
  if ippTagSimplify valueTag = 0x21 then .integer <$> ippGetSi chunk
  else if ippTagSimplify valueTag = 0x30 then .string <$> ippGetBytes chunk valueLength
  else .unknown valueLength <$> ippGetBytes chunk valueLength

/-- The variables of `ipp_parse_request()`; `ap` is the last of the attributes. -/
structure ParseState where
  attrs : List IppAttribute
  delimiterTag : CInt
  name : Option (List Byte)

def ParseState.start : ParseState := { attrs := [], delimiterTag := 0, name := none }

/-- Enlarge the last attribute by one value. -/
def addValue (v : IppValue) (attrs : List IppAttribute) : List IppAttribute :=
  attrs.modify (attrs.length - 1) fun ap => { ap with values := ap.values ++ [v] }

/-- The body of the loop of `ipp_parse_request()`. -/
def parseTag (tag : CInt) (st : ParseState) : IppM ParseState :=
  if 0x00 ≤ tag.toInt ∧ tag.toInt ≤ 0x0f then
    pure { st with delimiterTag := tag, name := none }
  else if 0x10 ≤ tag.toInt ∧ tag.toInt ≤ 0xff then do
    let nameLength ← ippGetSs chunk
    if 0 < nameLength.toInt then
      let name ← ippGetBytes chunk nameLength
      let valueLength ← ippGetSs chunk
      let v ← getValue chunk tag valueLength
      return { st with
        attrs := st.attrs ++
          [{ groupTag := st.delimiterTag, valueTag := tag, name := name, values := [v] }]
        name := some name }
    else
      let valueLength ← ippGetSs chunk
      if st.name = none then throw .noName
      else
        let v ← getValue chunk tag valueLength
        return { st with attrs := addValue v st.attrs }
  else throw (.invalidTag tag)

/-- The loop of `ipp_parse_request()`, up to the end-of-attributes tag 0x03.  It is started with
more rounds than there are bytes, and each round reads one. -/
def parseLoop : ℕ → ParseState → IppM ParseState
  | 0, _ => throw .dataRunoff
  | n + 1, st => do
    let tag ← ippGetByte chunk
    if charToInt signed tag = 0x03 then return st
    else
      let st ← parseTag chunk (charToInt signed tag) st
      parseLoop n st

/-- What `ipp_parse_request()` stores in `struct IPP`. -/
structure IppRequest where
  versionMajor : CInt
  versionMinor : CInt
  operationId : CInt
  requestId : CInt
  attrs : List IppAttribute
  /-- The attributes to be returned as unsupported. -/
  unsupported : List IppAttribute
  responseCode : CInt

/-- The header and then the attributes, which `loop` reads.  The response code is set later by the
operation. -/
def readRequest (loop : IppM ParseState) : IppM IppRequest := do
  let versionMajor ← ippGetSb chunk
  let versionMinor ← ippGetSb chunk
  let operationId ← ippGetSs chunk
  let requestId ← ippGetSi chunk
  let st ← loop
  return { versionMajor, versionMinor, operationId, requestId, attrs := st.attrs,
           unsupported := [], responseCode := 0 }

/-- `ipp_parse_request()`. -/
def ippParseRequest : IppM IppRequest := fun p =>
  if p.bytesLeft ≠ -1 ∧ p.bytesLeft < 9 then .error (.tooShort p.bytesLeft)
  else
    readRequest chunk
      (parseLoop signed chunk (p.readbuf.length + p.input.length + 1) .start) p

/-- `ipp_new()`, as far as the input is concerned. -/
def ippNew (contentLength : ℤ) (input : List Byte) : IppIn :=
  { bytesLeft := contentLength, input := input, reads := 0, readbuf := [] }

/-- The blocks that successive calls of `ipp_get_block()` return before one returns 0. -/
inductive Blocks : IppIn → List (List Byte) → Prop
  | done {p q : IppIn} : ippGetBlock chunk p = .ok ([], q) → Blocks p []
  | block {p q : IppIn} {b : List Byte} {blocks : List (List Byte)} :
      ippGetBlock chunk p = .ok (b, q) → b ≠ [] → Blocks q blocks → Blocks p (b :: blocks)

/-! ## Claiming attributes -/

/-- The comparison of `ipp_claim_attribute()`. -/
def IppAttribute.matches (group tag : CInt) (name : List Byte) (p : IppAttribute) : Bool :=
  p.groupTag = group ∧ p.valueTag = tag ∧ cstr p.name = cstr name

/-- `ipp_claim_attribute()`. -/
def ippClaimAttribute (r : IppRequest) (group tag : CInt) (name : List Byte) :
    Option IppAttribute × IppRequest :=
  match r.attrs.find? (IppAttribute.matches group tag name) with
  | none => (none, r)
  | some p => (some p, { r with attrs := r.attrs.eraseP (IppAttribute.matches group tag name) })

/-- `ipp_claim_attribute_single_value()`: anything but one value is a bad request, 0x0400. -/
def ippClaimSingleValue (r : IppRequest) (group tag : CInt) (name : List Byte) :
    Option (IppAttribute × IppValue) × IppRequest :=
  match ippClaimAttribute r group tag name with
  | (none, r) => (none, r)
  | (some p, r) =>
    match p.values with
    | [v] => (some (p, v), r)
    | _ => (none, { r with responseCode := 0x0400 })

/-- Return an attribute as unsupported, 0x05. -/
def IppRequest.unsupport (r : IppRequest) (p : IppAttribute) : IppRequest :=
  { r with unsupported := r.unsupported ++ [{ p with groupTag := 0x05 }] }

/-- `ipp_claim_uri()`; `guUriNew` is `gu_uri_new()`. -/
def ippClaimUri {γ : Type} (guUriNew : Option (List Byte) → γ) (r : IppRequest) (group : CInt)
    (name : List Byte) : Option γ × IppRequest :=
  match ippClaimSingleValue r group 0x45 name with
  | (none, r) => (none, r)
  | (some (_, v), r) => (some (guUriNew v.text?), r)

/-- `ipp_claim_positive_integer()`. -/
def ippClaimPositiveInteger (r : IppRequest) (group : CInt) (name : List Byte) :
    Option CInt × IppRequest :=
  match ippClaimSingleValue r group 0x21 name with
  | (none, r) => (some 0, r)
  | (some (p, v), r) =>
    match v.integer? with
    | none => (none, r)
    | some i => if i.toInt ≤ 0 then (some 0, r.unsupport p) else (some i, r)

/-- `ipp_claim_enum()`. -/
def ippClaimEnum (r : IppRequest) (group : CInt) (name : List Byte) : Option CInt × IppRequest :=
  match ippClaimSingleValue r group 0x23 name with
  | (none, r) => (some 0, r)
  | (some (_, v), r) => (v.integer?, r)

/-- `ipp_claim_string()`. -/
def ippClaimString (r : IppRequest) (group valueTag : CInt) (name : List Byte) :
    Option (List Byte) × IppRequest :=
  match ippClaimSingleValue r group valueTag name with
  | (none, r) => (none, r)
  | (some (_, v), r) => (v.text?, r)

/-- `ipp_claim_keyword()`: only one of the given keywords is returned. -/
def ippClaimKeyword (r : IppRequest) (group : CInt) (name : List Byte)
    (keywords : List (List Byte)) : Option (List Byte) × IppRequest :=
  match ippClaimSingleValue r group 0x44 name with
  | (none, r) => (none, r)
  | (some (p, v), r) =>
    match keywords.find? fun k => v.text? = some (cstr k) with
    | none => (none, r.unsupport p)
    | some k => (some k, r)

/-- `ipp_claim_boolean()`. -/
def ippClaimBoolean (r : IppRequest) (group : CInt) (name : List Byte) (defaultValue : CInt) :
    Option CInt × IppRequest :=
  match ippClaimSingleValue r group 0x22 name with
  | (none, r) => (some defaultValue, r)
  | (some (_, v), r) => (v.integer?, r)

end Ppr
