import Ppr.Lib.Ascii
import Ppr.Libppr.IppParse

/-!
# The IPP response

`ipp_insert_attribute()`, the `ipp_add_*` functions, `ipp_put_attr()` and `ipp_send_reply()` of
`ipp_obj.c`.  What goes through the write buffer is the list of bytes written.  An attribute keeps
pointers to its name and texts, which are C strings; a text of a response is shorter than 65536.
-/

namespace Ppr

/-- A C string that can be the text of a value. -/
structure IppText where
  bytes : List Byte
  no_nul : 0 ∉ bytes
  short : bytes.length < 65536

/-- The name of an attribute. -/
structure IppName extends IppText where
  ne_nil : bytes ≠ []

/-- The groups `ipp_insert_attribute()` knows. -/
inductive ReplyGroup where
  | operation | printer | job | unsupported
  deriving DecidableEq, Repr

/-- The tag a group begins with. -/
def ReplyGroup.tag : ReplyGroup → Byte
  | .operation => 0x01
  | .job => 0x02
  | .printer => 0x04
  | .unsupported => 0x05

/-- A template: a text with one format specifier, "%d" or else "%s", and no other percent sign
(0x25). -/
structure IppTemplate where
  before : List Byte
  isInteger : Bool
  after : List Byte
  plain : ∀ c ∈ before ++ after, c ≠ 0 ∧ c ≠ 0x25

/-- What `printf()` makes of a template; the argument must be of the right kind. -/
def IppTemplate.format (t : IppTemplate) (v : IppValue) : Option (List Byte) :=
  if t.isInteger then v.integer?.map fun i => t.before ++ decimalInt i.toInt ++ t.after
  else v.text?.map fun text => t.before ++ text ++ t.after

/-- `ipp_attribute_t` in a response.  The member `template` of an attribute that comes from the
request was never set. -/
structure ReplyAttr where
  valueTag : Byte
  name : List Byte
  template : Option (Option IppTemplate)
  values : List IppValue

/-- The lists of response attributes. -/
structure IppReply where
  operation : List ReplyAttr
  printer : List ReplyAttr
  job : List ReplyAttr
  unsupported : List ReplyAttr

def IppReply.empty : IppReply := { operation := [], printer := [], job := [], unsupported := [] }

/-- Why there is no reply. -/
inductive ReplyError where
  /-- An `ipp_add_*` function does not take the tag. -/
  | wrongTag
  /-- No operation attributes. -/
  | noOperation
  /-- `ipp_put_attr()`: missing case for value tag. -/
  | missingCase
  /-- A member of the union that was not stored is taken for a pointer, or a pointer that was never
  set is used; what happens then is undefined. -/
  | wildPointer

/-! ## Adding attributes -/

/-- `ipp_insert_attribute()`. -/
def ippInsertAttribute (r : IppReply) (group : ReplyGroup) (ap : ReplyAttr) : IppReply :=
  match group with
  | .operation => { r with operation := r.operation ++ [ap] }
  | .printer => { r with printer := r.printer ++ [ap] }
  | .job => { r with job := r.job ++ [ap] }
  | .unsupported => { r with unsupported := r.unsupported ++ [ap] }

/-- `ipp_new_attribute()`, with the values its caller fills in. -/
def ippNewAttribute (r : IppReply) (group : ReplyGroup) (tag : Byte) (name : List Byte)
    (template : Option IppTemplate) (values : List IppValue) : IppReply :=
  ippInsertAttribute r group
    { valueTag := tag, name := name, template := some template, values := values }

/-- `ipp_add_end()`: an object divider, with the tag 0x03. -/
def ippAddEnd (r : IppReply) (group : ReplyGroup) : IppReply :=
  ippNewAttribute r group 0x03 [] none []

/-- `ipp_add_out_of_band()`. -/
def ippAddOutOfBand (r : IppReply) (group : ReplyGroup) (tag : Byte) (name : IppName) : IppReply :=
  ippNewAttribute r group tag name.bytes none []

/-- The tag is one of those for texts. -/
def isStringTag (tag : Byte) : Bool := ippTagSimplify (tag.setWidth 32) = 0x30

/-- The tag is one of those for integers. -/
def isIntegerTag (tag : Byte) : Bool := ippTagSimplify (tag.setWidth 32) = 0x21

/-- `ipp_add_integers()`: the tag 0x45 of a URI is taken as well. -/
def ippAddIntegers (r : IppReply) (group : ReplyGroup) (tag : Byte) (name : IppName)
    (values : List CInt) : Except ReplyError IppReply :=
  if isIntegerTag tag = false ∧ tag ≠ 0x45 then .error .wrongTag
  else .ok (ippNewAttribute r group tag name.bytes none (values.map .integer))

/-- `ipp_add_integer()`. -/
def ippAddInteger (r : IppReply) (group : ReplyGroup) (tag : Byte) (name : IppName)
    (value : CInt) : Except ReplyError IppReply :=
  ippAddIntegers r group tag name [value]

/-- `ipp_add_strings()`. -/
def ippAddStrings (r : IppReply) (group : ReplyGroup) (tag : Byte) (name : IppName)
    (values : List IppText) : Except ReplyError IppReply :=
  if isStringTag tag = false then .error .wrongTag
  else .ok (ippNewAttribute r group tag name.bytes none (values.map fun t => .string t.bytes))

/-- `ipp_add_string()`. -/
def ippAddString (r : IppReply) (group : ReplyGroup) (tag : Byte) (name : IppName)
    (value : IppText) : Except ReplyError IppReply :=
  ippAddStrings r group tag name [value]

/-- The arguments of a template. -/
inductive TemplateArgs where
  | integers (pre post : List Byte) (plain : ∀ c ∈ pre ++ post, c ≠ 0 ∧ c ≠ 0x25)
      (values : List CInt)
  | strings (pre post : List Byte) (plain : ∀ c ∈ pre ++ post, c ≠ 0 ∧ c ≠ 0x25)
      (values : List IppText)

def TemplateArgs.template : TemplateArgs → IppTemplate
  | .integers pre post plain _ => ⟨pre, true, post, plain⟩
  | .strings pre post plain _ => ⟨pre, false, post, plain⟩

def TemplateArgs.values : TemplateArgs → List IppValue
  | .integers _ _ _ values => values.map .integer
  | .strings _ _ _ values => values.map fun t => .string t.bytes

/-- `ipp_add_templates()`, and `ipp_add_template()` for one value. -/
def ippAddTemplates (r : IppReply) (group : ReplyGroup) (tag : Byte) (name : IppName)
    (args : TemplateArgs) : Except ReplyError IppReply :=
  if isStringTag tag = false then .error .wrongTag
  else .ok (ippNewAttribute r group tag name.bytes (some args.template) args.values)

/-- `ipp_add_boolean()`. -/
def ippAddBoolean (r : IppReply) (group : ReplyGroup) (tag : Byte) (name : IppName)
    (value : Bool) : Except ReplyError IppReply :=
  if tag ≠ 0x22 then .error .wrongTag
  else .ok (ippNewAttribute r group tag name.bytes none [.integer (if value then 1 else 0)])

/-- A value as `ipp_parse_request()` stores it. -/
inductive ParsedValue where
  | integer (i : CInt)
  | string (text : IppText)
  | unknown (data : List Byte) (short : data.length < 65536)

def ParsedValue.value : ParsedValue → IppValue
  | .integer i => .integer i
  | .string text => .string (text.bytes ++ [0])
  | .unknown data _ => .unknown (BitVec.ofNat 32 data.length) (data ++ [0])

/-- An attribute of the request that was claimed and is returned as unsupported, by
`ipp_insert_attribute()`. -/
def ippReturn (r : IppReply) (tag : Byte) (name : IppName) (values : List ParsedValue) : IppReply :=
  ippInsertAttribute r .unsupported
    { valueTag := tag, name := name.bytes, template := none, values := values.map ParsedValue.value }

/-! ## Sending the response -/

/-- The bytes of a value other than a URL, by tag. -/
def basicData (tag : Byte) (p : IppValue) : Except ReplyError (List Byte) :=
  if isIntegerTag tag then
    match p.integer? with
    | some i => .ok (intBytes i)
    | none => .error .wildPointer
  else if isStringTag tag then
    match p.text? with
    | some text => .ok text
    | none => .error .wildPointer
  else if tag = 0x22 then
    match p.integer? with
    | some i => .ok [if i ≠ 0 then 1 else 0]
    | none => .error .wildPointer
  else .error .missingCase

/-- Size of the buffer for a formatted template. -/
def tempSize : ℕ := 64

/-- The bytes of a value: `root`, the "http://host:port" part, is put before URLs. -/
def valueData (root : List Byte) (attr : ReplyAttr) (p : IppValue) :
    Except ReplyError (List Byte) :=
  if attr.valueTag = 0x45 then
    match attr.template with
    | none => .error .wildPointer
    | some (some template) =>
      match template.format p with
      | some text => .ok (root ++ text.take (tempSize - 1))
      | none => .error .wildPointer
    | some none =>
      match p.text? with
      | some text => if text.head? = some 0x2f then .ok (root ++ text) else .ok text
      | none => .error .wildPointer
  else basicData attr.valueTag p

/-- One value: the tag, the name or a zero-length name, the length and the value. -/
def putValue (tag : Byte) (name data : List Byte) : List Byte :=
  tag :: (lengthBytes name.length ++ name) ++ (lengthBytes data.length ++ data)

/-- The name is stored with the first value. -/
def putValues (tag : Byte) (name : List Byte) : List (List Byte) → List Byte
  | [] => []
  | data :: more => putValue tag name data ++ more.flatMap (putValue tag [])

/-- `ipp_put_attr()`. -/
def ippPutAttr (root : List Byte) (attr : ReplyAttr) : Except ReplyError (List Byte) := do
  let datas ← attr.values.mapM (valueData root attr)
  .ok (putValues attr.valueTag attr.name datas)

/-- The loops over the operation and over the unsupported attributes. -/
def putAttrs (root : List Byte) (attrs : List ReplyAttr) : Except ReplyError (List Byte) := do
  let l ← attrs.mapM (ippPutAttr root)
  .ok l.flatten

/-- The loops over the printer and over the job attributes: a divider that is not the last one
starts a new group. -/
def putObjects (root : List Byte) (tag : Byte) : List ReplyAttr → Except ReplyError (List Byte)
  | [] => .ok []
  | attr :: next => do
    if attr.valueTag = 0x03 then
      let l ← putObjects root tag next
      .ok (if next ≠ [] then tag :: l else l)
    else
      let a ← ippPutAttr root attr
      let l ← putObjects root tag next
      .ok (a ++ l)

/-- A group that is sent if it has attributes. -/
def putGroup (tag : Byte) (attrs : List ReplyAttr) (put : Except ReplyError (List Byte)) :
    Except ReplyError (List Byte) :=
  if attrs = [] then .ok []
  else do
    let l ← put
    .ok (tag :: l)

/-- The version, the response code and the request id. -/
structure ReplyHeader where
  versionMajor : Byte
  versionMinor : Byte
  responseCode : BitVec 16
  requestId : CInt
  deriving DecidableEq

def ReplyHeader.bytes (h : ReplyHeader) : List Byte :=
  [h.versionMajor, h.versionMinor, h.responseCode.extractLsb' 8 8, h.responseCode.extractLsb' 0 8] ++
    intBytes h.requestId

/-- "Content-Type: application/ipp", and an empty line. -/
def httpHeader : List Byte := ascii "Content-Type: application/ipp\r\n\r\n"

/-- The operation and job attributes of the request that nobody has claimed are returned as
unsupported, with the tag 0x10 and no values. -/
def returnUnclaimed (request : List IppAttribute) (r : IppReply) : IppReply :=
  { r with
    unsupported := r.unsupported ++
      (request.filter fun p => p.groupTag = 0x01 ∨ p.groupTag = 0x02).map fun p =>
        { valueTag := 0x10, name := cstr p.name, template := some none, values := [] } }

/-- `ipp_send_reply()`. -/
def ippSendReply (root : List Byte) (h : ReplyHeader) (request : List IppAttribute) (r : IppReply)
    (header : Bool) : Except ReplyError (List Byte) := do
  let r := returnUnclaimed request r
  if r.operation = [] then .error .noOperation
  else
    let operation ← putGroup 0x01 r.operation (putAttrs root r.operation)
    let printer ← putGroup 0x04 r.printer (putObjects root 0x04 r.printer)
    let job ← putGroup 0x02 r.job (putObjects root 0x02 r.job)
    let unsupported ← putGroup 0x05 r.unsupported (putAttrs root r.unsupported)
    .ok ((if header then httpHeader else []) ++ h.bytes ++
      (operation ++ printer ++ job ++ unsupported ++ [0x03]))

end Ppr
