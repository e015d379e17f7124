import Ppr.Lib.Ber
import Ppr.Libgu.Strings

/-!
# SNMP requests

`gu_snmp_create_packet()` puts a GetRequest together in a buffer, and goes back to fill in the
lengths of the outermost sequence, of the PDU, of the list of variables, of each variable and of its
object identifier. Every component of an object identifier but the first two gets one byte.
-/

namespace Ppr.Snmp

/-- `struct gu_snmp`: what requests are made of. -/
structure Client where
  community : List Byte
  requestId : CInt

/-- What is behind a number and the punctuation that follows it. -/
def afterNumber (oid : List Byte) : List Byte :=
  (oid.dropWhile isdigit).dropWhile fun c => !isdigit c

/-- The components from the third one on; there are no more of them than bytes. -/
def packRest : ℕ → List Byte → List Byte → List Byte
  | 0, buffer, _ => buffer
  | n + 1, buffer, oid =>
    if oid = [] then buffer
    else packRest n (buffer ++ [BitVec.ofInt 8 (atoi oid)]) (afterNumber oid)

/-- The first two components are packed into one byte. -/
def packOid (buffer oid : List Byte) : List Byte :=
  let x1 := atoi oid
  let oid := afterNumber oid
  let x2 := atoi oid
  let oid := afterNumber oid
  packRest oid.length (buffer ++ [BitVec.ofInt 8 (x1 * 40 + x2)]) oid

/-- The two bytes in front of position `i` become a length. -/
def fillLength (buffer : List Byte) (i n : ℕ) : List Byte :=
  (buffer.set (i - 2) (BitVec.ofNat 8 (n / 256))).set (i - 1) (BitVec.ofNat 8 n)

/-- A variable, with null for its value. -/
def putItem (buffer oid : List Byte) : List Byte :=
  let buffer := buffer ++ [0x30, 0x82, 0, 0]
  let startItem := buffer.length
  let buffer := buffer ++ [0x06, 0]
  let startOid := buffer.length
  let buffer := packOid buffer oid
  let buffer := buffer.set (startOid - 1) (BitVec.ofNat 8 (buffer.length - startOid))
  let buffer := buffer ++ [0x05, 0]
  fillLength buffer startItem (buffer.length - startItem)

/-- The bytes of a request id, the most significant one first. -/
def idBytes (id : CInt) : List Byte :=
  [(id >>> 24).setWidth 8, (id >>> 16).setWidth 8, (id >>> 8).setWidth 8, id.setWidth 8]

/-- `gu_snmp_create_packet()`. -/
def createPacket (p : Client) (items : List (List Byte)) : List Byte × Client :=
  let buffer : List Byte := [0x30, 0x82, 0, 0]
  let buffer := buffer ++ [0x02, 0x01, 0x00]
  let buffer := buffer ++ [0x04, BitVec.ofNat 8 p.community.length] ++ p.community
  let buffer := buffer ++ [0xA0, 0x82, 0, 0]
  let startPdu := buffer.length
  let id := p.requestId + 1
  let buffer := buffer ++ [0x02, 0x04] ++ idBytes id
  let buffer := buffer ++ [0x02, 0x01, 0x00]
  let buffer := buffer ++ [0x02, 0x01, 0x00]
  let buffer := buffer ++ [0x30, 0x82, 0, 0]
  let startList := buffer.length
  let buffer := items.foldl putItem buffer
  let buffer := fillLength buffer startList (buffer.length - startList)
  let buffer := fillLength buffer startPdu (buffer.length - startPdu)
  (fillLength buffer 4 (buffer.length - 4), { p with requestId := id })

/-! ## Requests as they are read -/

/-- A GetRequest whose variables have null values. -/
structure Request where
  version : ℤ
  community : List Byte
  requestId : ℤ
  errorStatus : ℤ
  errorIndex : ℤ
  oids : List (List ℕ)
deriving DecidableEq

/-- A value that is the last one. -/
def lastValue (tag : Byte) (l : List Byte) : Option (List Byte) :=
  match Ber.value tag l with
  | some (contents, []) => some contents
  | _ => none

def readInteger (l : List Byte) : Option (ℤ × List Byte) :=
  match Ber.value 0x02 l with
  | some (contents, rest) => (Ber.integer contents).map (·, rest)
  | none => none

/-- An object identifier and null. -/
def readPair (l : List Byte) : Option (List ℕ) :=
  match Ber.value 0x06 l with
  | some (contents, rest) =>
    if lastValue 0x05 rest = some [] then Ber.objectIdentifier contents else none
  | none => none

def readItem (l : List Byte) : Option (List ℕ × List Byte) :=
  match Ber.value 0x30 l with
  | some (contents, rest) => (readPair contents).map (·, rest)
  | none => none

/-- A version 1 message with a GetRequest, by the Basic Encoding Rules. -/
def readRequest (packet : List Byte) : Option Request := do
  let message ← lastValue 0x30 packet
  let (version, message) ← readInteger message
  let (community, message) ← Ber.value 0x04 message
  let pdu ← lastValue 0xA0 message
  let (requestId, pdu) ← readInteger pdu
  let (errorStatus, pdu) ← readInteger pdu
  let (errorIndex, pdu) ← readInteger pdu
  let list ← lastValue 0x30 pdu
  let oids ← Ber.all readItem list.length list
  return { version, community, requestId, errorStatus, errorIndex, oids }

/-- The dotted form of an object identifier. -/
def dotted : List ℕ → List Byte
  | [] => []
  | [n] => decimal n
  | n :: m :: ns => decimal n ++ 46 :: dotted (m :: ns)

/-- The first component is 0, 1 or 2, and after 0 and 1 the second one is below 40. -/
def IsOid : List ℕ → Prop
  | x1 :: x2 :: _ => x1 ≤ 2 ∧ (x1 < 2 → x2 < 40)
  | _ => False

instance : DecidablePred IsOid
  | [] => inferInstanceAs (Decidable False)
  | [_] => inferInstanceAs (Decidable False)
  | x1 :: x2 :: _ => inferInstanceAs (Decidable (x1 ≤ 2 ∧ (x1 < 2 → x2 < 40)))

/-- One byte is enough for each number, and for how many there are. -/
def Short : List ℕ → Prop
  | x1 :: x2 :: rest => x1 * 40 + x2 < 128 ∧ (∀ x ∈ rest, x < 128) ∧ rest.length + 1 < 128
  | _ => False

/-! ## The packet as a whole -/

/-- A value whose length is in two bytes. -/
def sequence (tag : Byte) (contents : List Byte) : List Byte :=
  tag :: 0x82 :: BitVec.ofNat 8 (contents.length / 256) :: BitVec.ofNat 8 contents.length :: contents

/-- The bytes of an object identifier. -/
def packed (oid : List Byte) : List Byte := packOid [] oid

/-- The name and the value of a variable. -/
def pair (oid : List Byte) : List Byte :=
  0x06 :: BitVec.ofNat 8 (packed oid).length :: (packed oid ++ [0x05, 0])

theorem packRest_append (n : ℕ) (buffer more oid : List Byte) :
    packRest n (buffer ++ more) oid = buffer ++ packRest n more oid := by
  induction n generalizing more oid with
  | zero => rfl
  | succ n ih =>
    rw [packRest, packRest]
    split_ifs
    · rfl
    · rw [List.append_assoc, ih]

theorem packOid_eq (buffer oid : List Byte) : packOid buffer oid = buffer ++ packed oid := by
  unfold packed packOid
  rw [packRest_append]
  rfl

theorem length_added (l more : List Byte) : (l ++ more).length - l.length = more.length := by
  rw [List.length_append, Nat.add_sub_cancel_left]

theorem fillLength_append {buffer contents : List Byte} {b c : Byte} {n : ℕ}
    (hn : contents.length = n) : fillLength (buffer ++ b :: c :: contents) (buffer.length + 2) n =
      buffer ++ BitVec.ofNat 8 (contents.length / 256) :: BitVec.ofNat 8 contents.length :: contents := by
  unfold fillLength
  rw [Nat.add_sub_cancel, show buffer.length + 2 - 1 = buffer.length + 1 from rfl,
    List.set_append_right _ _ le_rfl, List.set_append_right _ _ (by omega), hn]
  simp

/-- Filling in the length of what has been put behind the place for it. -/
theorem fillLength_sequence (tag b c : Byte) (buffer contents : List Byte) :
    fillLength (buffer ++ [tag, 0x82, b, c] ++ contents) (buffer ++ [tag, 0x82, b, c]).length
      ((buffer ++ [tag, 0x82, b, c] ++ contents).length - (buffer ++ [tag, 0x82, b, c]).length) =
    buffer ++ sequence tag contents := by
  have hsplit : buffer ++ [tag, 0x82, b, c] ++ contents =
      (buffer ++ [tag, 0x82]) ++ b :: c :: contents := by simp
  have hlen : (buffer ++ [tag, 0x82, b, c]).length = (buffer ++ [tag, 0x82]).length + 2 := by simp
  rw [length_added, hlen, hsplit, fillLength_append rfl]
  simp [sequence]

theorem putItem_eq (buffer oid : List Byte) :
    putItem buffer oid = buffer ++ sequence 0x30 (pair oid) := by
  have hset : (packOid (buffer ++ [0x30, 0x82, 0, 0] ++ [0x06, 0]) oid).set
      ((buffer ++ [0x30, 0x82, 0, 0] ++ [0x06, (0 : Byte)]).length - 1)
      (BitVec.ofNat 8 ((packOid (buffer ++ [0x30, 0x82, 0, 0] ++ [0x06, 0]) oid).length -
        (buffer ++ [0x30, 0x82, 0, 0] ++ [0x06, (0 : Byte)]).length)) =
      buffer ++ [0x30, 0x82, 0, 0] ++ 0x06 :: BitVec.ofNat 8 (packed oid).length :: packed oid := by
    rw [packOid_eq, length_added]
    simp
  have hpair : buffer ++ [0x30, 0x82, 0, 0] ++ 0x06 :: BitVec.ofNat 8 (packed oid).length ::
      packed oid ++ [0x05, 0] = buffer ++ [0x30, 0x82, 0, 0] ++ pair oid := by simp [pair]
  unfold putItem
  dsimp only
  rw [hset, hpair, fillLength_sequence]

theorem foldl_putItem (buffer : List Byte) (items : List (List Byte)) :
    items.foldl putItem buffer = buffer ++ items.flatMap fun oid => sequence 0x30 (pair oid) := by
  induction items generalizing buffer with
  | nil => exact (List.append_nil buffer).symm
  | cons oid items ih => rw [List.foldl_cons, ih, putItem_eq, List.flatMap_cons, List.append_assoc]

/-- What is in front of the list of variables in a PDU. -/
def pduHead (id : CInt) : List Byte :=
  [0x02, 0x04] ++ idBytes id ++ [0x02, 0x01, 0x00] ++ [0x02, 0x01, 0x00]

/-- What is in front of the PDU. -/
def messageHead (community : List Byte) : List Byte :=
  [0x02, 0x01, 0x00] ++ [0x04, BitVec.ofNat 8 community.length] ++ community

theorem createPacket_eq (p : Client) (items : List (List Byte)) :
    (createPacket p items).1 = sequence 0x30 (messageHead p.community ++
      sequence 0xA0 (pduHead (p.requestId + 1) ++
        sequence 0x30 (items.flatMap fun oid => sequence 0x30 (pair oid)))) := by
  have hlist (l : List Byte) : l ++ [0xA0, 0x82, 0, 0] ++ [0x02, 0x04] ++ idBytes (p.requestId + 1) ++
      [0x02, 0x01, 0x00] ++ [0x02, 0x01, 0x00] =
      l ++ [0xA0, 0x82, 0, 0] ++ pduHead (p.requestId + 1) := by simp [pduHead]
  have hmessage : [0x30, 0x82, 0, 0] ++ [0x02, 0x01, 0x00] ++
      [0x04, BitVec.ofNat 8 p.community.length] ++ p.community =
      [] ++ [0x30, 0x82, 0, 0] ++ messageHead p.community := by simp [messageHead]
  have hfour : (4 : ℕ) = (([] : List Byte) ++ [0x30, 0x82, 0, 0]).length := rfl
  unfold createPacket
  dsimp only
  rw [foldl_putItem, fillLength_sequence, hlist, List.append_assoc _ (pduHead _), fillLength_sequence,
    hmessage, List.append_assoc _ (messageHead _), hfour, fillLength_sequence, List.nil_append]

/-! ## Reading it -/

theorem value_sequence (tag : Byte) {contents : List Byte} (h : contents.length < 65536)
    (rest : List Byte) : Ber.value tag (sequence tag contents ++ rest) = some (contents, rest) :=
  Ber.value_two h rest

theorem lastValue_sequence (tag : Byte) {contents : List Byte} (h : contents.length < 65536) :
    lastValue tag (sequence tag contents) = some contents := by
  have := value_sequence tag h []
  rw [List.append_nil] at this
  rw [lastValue, this]

theorem length_sequence (tag : Byte) (contents : List Byte) :
    (sequence tag contents).length = contents.length + 4 := rfl

theorem toInt_idBytes (id : CInt) : Ber.integer (idBytes id) = some id.toInt := by
  have htop : 128 ≤ ((id >>> 24).setWidth 8 : Byte).toNat ↔ 2 ^ 31 ≤ id.toNat := by
    have hlt := id.isLt
    simp only [BitVec.toNat_setWidth, BitVec.toNat_ushiftRight, Nat.shiftRight_eq_div_pow]
    omega
  have hvalue : Ber.bigEndian (idBytes id) = id.toNat := by
    have hlt := id.isLt
    simp only [idBytes, Ber.bigEndian, List.foldl_cons, List.foldl_nil, BitVec.toNat_setWidth,
      BitVec.toNat_ushiftRight, Nat.shiftRight_eq_div_pow]
    omega
  unfold idBytes at hvalue ⊢
  rw [Ber.integer, hvalue, BitVec.toInt_eq_toNat_cond]
  congr 1
  simp only [htop, List.length_cons, List.length_nil]
  split_ifs <;> omega

theorem readInteger_idBytes (id : CInt) (rest : List Byte) :
    readInteger (0x02 :: 0x04 :: (idBytes id ++ rest)) = some (id.toInt, rest) := by
  have hvalue : Ber.value 0x02 (0x02 :: 0x04 :: (idBytes id ++ rest)) = some (idBytes id, rest) :=
    Ber.value_short (show (idBytes id).length < 128 from (by norm_num : 4 < 128)) rest
  rw [readInteger, hvalue]
  dsimp only
  rw [toInt_idBytes]
  rfl

theorem readInteger_zero (rest : List Byte) :
    readInteger (0x02 :: 0x01 :: 0x00 :: rest) = some (0, rest) := by
  have hvalue : Ber.value 0x02 (0x02 :: 0x01 :: ([0x00] ++ rest)) = some ([0x00], rest) :=
    Ber.value_short (show [(0x00 : Byte)].length < 128 by decide) rest
  rw [List.singleton_append] at hvalue
  rw [readInteger, hvalue]
  rfl

theorem readItem_sequence {contents : List Byte} (h : contents.length < 65536) (rest : List Byte) :
    readItem (sequence 0x30 contents ++ rest) = (readPair contents).map (·, rest) := by
  rw [readItem, value_sequence 0x30 h]

/-- The lengths take the packet apart; the variables are left. -/
theorem readRequest_createPacket {p : Client} {items : List (List Byte)}
    (hcommunity : p.community.length < 128) (hfits : (createPacket p items).1.length < 65536) :
    readRequest (createPacket p items).1 = (items.mapM fun oid => readPair (pair oid)).map fun oids =>
      { version := 0, community := p.community, requestId := (p.requestId + 1).toInt,
        errorStatus := 0, errorIndex := 0, oids } := by
  rw [createPacket_eq] at hfits ⊢
  simp only [length_sequence, List.length_append] at hfits
  have hlist : (items.flatMap fun oid => sequence 0x30 (pair oid)).length < 65536 := by omega
  have hpair : ∀ oid ∈ items, (pair oid).length < 65536 := by
    intro oid hoid
    have hle := List.le_sum_of_mem
      (List.mem_map_of_mem (f := fun oid => (sequence 0x30 (pair oid)).length) hoid)
    rw [← List.length_flatMap] at hle
    rw [length_sequence] at hle
    omega
  have hall : Ber.all readItem (items.flatMap fun oid => sequence 0x30 (pair oid)).length
      (items.flatMap fun oid => sequence 0x30 (pair oid)) = items.mapM fun oid => readPair (pair oid) :=
    Ber.all_flatMap (fun _ _ => List.cons_ne_nil _ _)
      (fun oid hoid => readItem_sequence (hpair oid hoid)) le_rfl
  have hcomm (rest : List Byte) : Ber.value 0x04 (0x04 :: BitVec.ofNat 8 p.community.length ::
      (p.community ++ rest)) = some (p.community, rest) := Ber.value_short hcommunity rest
  have hpdu : (pduHead (p.requestId + 1) ++
      sequence 0x30 (items.flatMap fun oid => sequence 0x30 (pair oid))).length < 65536 := by
    rw [List.length_append, length_sequence]
    omega
  have hmessage : (messageHead p.community ++ sequence 0xA0 (pduHead (p.requestId + 1) ++
      sequence 0x30 (items.flatMap fun oid => sequence 0x30 (pair oid)))).length < 65536 := by
    simp only [length_sequence, List.length_append]
    omega
  unfold readRequest
  rw [lastValue_sequence _ hmessage]
  simp only [Option.bind_eq_bind, Option.bind_some, messageHead, List.cons_append, List.nil_append,
    readInteger_zero, hcomm, lastValue_sequence _ hpdu]
  simp only [pduHead, List.cons_append, List.nil_append, List.append_assoc, readInteger_idBytes,
    readInteger_zero, Option.bind_some, lastValue_sequence _ hlist, hall]
  cases items.mapM fun oid => readPair (pair oid) <;> rfl

/-! ## Object identifiers -/

theorem dotted_cons (n : ℕ) (ns : List ℕ) : ∃ s, dotted (n :: ns) = decimal n ++ s ∧
    (∀ c ∈ s.head?, isdigit c = false) ∧ (s = [] ∧ ns = [] ∨ s = 46 :: dotted ns) := by
  cases ns with
  | nil => exact ⟨[], (List.append_nil _).symm, nofun, .inl ⟨rfl, rfl⟩⟩
  | cons m ns =>
    refine ⟨46 :: dotted (m :: ns), rfl, ?_, .inr rfl⟩
    rintro c ⟨⟩
    rfl

theorem dotted_ne_nil (n : ℕ) (ns : List ℕ) : dotted (n :: ns) ≠ [] := by
  obtain ⟨s, hs, -⟩ := dotted_cons n ns
  rw [hs]
  exact fun h => decimal_ne_nil n (List.append_eq_nil_iff.mp h).1

theorem atoi_dotted (n : ℕ) (ns : List ℕ) : atoi (dotted (n :: ns)) = n := by
  obtain ⟨s, hs, hhead, -⟩ := dotted_cons n ns
  rw [hs, atoi_decimal n hhead]

theorem dropWhile_dotted (ns : List ℕ) :
    (dotted ns).dropWhile (fun c => !isdigit c) = dotted ns := by
  cases ns with
  | nil => rfl
  | cons n ns =>
    obtain ⟨s, hs, -⟩ := dotted_cons n ns
    obtain ⟨c, d, hd⟩ := List.exists_cons_of_ne_nil (decimal_ne_nil n)
    have hdigit : isdigit c = true := isdigit_decimal (n := n) (by simp [hd])
    rw [hs, hd, List.cons_append, List.dropWhile_cons_of_neg (by simp [hdigit])]

theorem afterNumber_dotted (n : ℕ) (ns : List ℕ) : afterNumber (dotted (n :: ns)) = dotted ns := by
  obtain ⟨s, hs, hhead, htail⟩ := dotted_cons n ns
  rw [afterNumber, hs, (decimal_span n hhead).2]
  obtain ⟨rfl, rfl⟩ | rfl := htail
  · rfl
  · rw [List.dropWhile_cons_of_pos rfl, dropWhile_dotted]

theorem length_dotted (ns : List ℕ) : ns.length ≤ (dotted ns).length := by
  induction ns with
  | nil => exact le_rfl
  | cons n ns ih =>
    obtain ⟨s, hs, -, htail⟩ := dotted_cons n ns
    have hpos := List.length_pos_iff.mpr (decimal_ne_nil n)
    rw [hs, List.length_append, List.length_cons]
    obtain ⟨rfl, rfl⟩ | rfl := htail
    · exact Nat.le_add_right_of_le hpos
    · rw [List.length_cons]
      omega

theorem packRest_dotted {k : ℕ} {ns : List ℕ} (hk : ns.length ≤ k) (buffer : List Byte) :
    packRest k buffer (dotted ns) = buffer ++ ns.map (BitVec.ofNat 8) := by
  induction ns generalizing k buffer with
  | nil =>
    rw [List.map_nil, List.append_nil]
    cases k with
    | zero => rfl
    | succ k => exact if_pos rfl
  | cons n ns ih =>
    obtain ⟨k, rfl⟩ := Nat.exists_eq_add_one_of_ne_zero (Nat.ne_of_gt (Nat.lt_of_lt_of_le (by simp) hk))
    rw [packRest, if_neg (dotted_ne_nil n ns), atoi_dotted, afterNumber_dotted,
      ih (Nat.le_of_succ_le_succ hk), BitVec.ofInt_natCast, List.append_assoc]
    rfl

theorem packed_dotted (x1 x2 : ℕ) (rest : List ℕ) :
    packed (dotted (x1 :: x2 :: rest)) = ((x1 * 40 + x2) :: rest).map (BitVec.ofNat 8) := by
  have hcast : (x1 : ℤ) * 40 + x2 = ((x1 * 40 + x2 : ℕ) : ℤ) := by push_cast; rfl
  rw [packed, packOid, afterNumber_dotted, atoi_dotted, atoi_dotted, afterNumber_dotted, hcast, BitVec.ofInt_natCast,
    packRest_dotted (length_dotted rest)]
  rfl

/-- The bytes are those of the numbers only if one byte is enough for each. -/
theorem map_ofNat_toNat {ns : List ℕ} :
    (∀ b ∈ ns.map (BitVec.ofNat 8), b.toNat < 128) ∧ (ns.map (BitVec.ofNat 8)).map (·.toNat) = ns ↔
      ∀ n ∈ ns, n < 128 := by
  induction ns with
  | nil => simp
  | cons n ns ih =>
    have hmod : (BitVec.ofNat 8 n).toNat = n % 256 := BitVec.toNat_ofNat n 8
    simp only [List.map_cons, List.forall_mem_cons, List.cons.injEq, ← ih, hmod]
    constructor
    · rintro ⟨⟨hn, hall⟩, hn', heq⟩
      exact ⟨by omega, hall, heq⟩
    · rintro ⟨hn, hall, heq⟩
      exact ⟨⟨by omega, hall⟩, by omega, heq⟩

theorem objectIdentifier_eq {contents : List Byte} {x1 x2 : ℕ} {rest : List ℕ} (hx1 : x1 ≤ 2)
    (hx2 : x1 < 2 → x2 < 40) : Ber.objectIdentifier contents = some (x1 :: x2 :: rest) ↔
      Ber.subidentifiers 0 false contents = some ((x1 * 40 + x2) :: rest) := by
  have hsplit (s : ℕ) : min (s / 40) 2 = x1 ∧ s - 40 * min (s / 40) 2 = x2 ↔ s = x1 * 40 + x2 := by
    omega
  unfold Ber.objectIdentifier
  cases Ber.subidentifiers 0 false contents with
  | none => simp
  | some ns =>
    cases ns with
    | nil => simp
    | cons s ns =>
      simp only [Option.some.injEq, List.cons.injEq, ← and_assoc, hsplit]

theorem objectIdentifier_length {contents : List Byte} {ns : List ℕ}
    (h : Ber.objectIdentifier contents = some ns) : ns.length ≤ contents.length + 1 := by
  unfold Ber.objectIdentifier at h
  split at h
  · rename_i hs
    have := Ber.subidentifiers_length hs
    cases h
    simpa using this
  · cases h

theorem lastValue_length {tag : Byte} {l contents : List Byte} (h : lastValue tag l = some contents) :
    contents.length + 2 ≤ l.length := by
  unfold lastValue at h
  split at h
  · rename_i hv
    cases h
    exact Ber.value_shrinks hv
  · cases h

/-- With as many components as there is room for, the one byte of the length is what was meant. -/
theorem readPair_tight {payload : List Byte} {ns : List ℕ} (hns : ns.length = payload.length + 1)
    (h : readPair (0x06 :: BitVec.ofNat 8 payload.length :: (payload ++ [0x05, 0])) = some ns) :
    payload.length < 128 ∧ Ber.objectIdentifier payload = some ns := by
  rw [readPair] at h
  split at h
  · rename_i contents more hvalue
    split_ifs at h with hnull
    have hmore : 2 ≤ more.length := lastValue_length hnull
    have hcontents := objectIdentifier_length h
    have hroom := Ber.value_shrinks hvalue
    simp only [List.length_cons, List.length_append, List.length_nil] at hroom
    obtain ⟨hbyte, hc, -, -⟩ := Ber.value_tight hvalue (by
      rw [List.length_append, List.length_cons, List.length_cons, List.length_nil]
      omega)
    have hlen : contents.length = payload.length := by omega
    have hmod : (BitVec.ofNat 8 payload.length).toNat = payload.length % 256 := BitVec.toNat_ofNat _ 8
    rw [hmod] at hbyte hc
    have hshort : payload.length < 128 := by
      rw [hc, List.length_take, List.length_append, List.length_cons, List.length_cons,
        List.length_nil] at hlen
      omega
    rw [Nat.mod_eq_of_lt (by omega), List.take_left' rfl] at hc
    exact ⟨hshort, hc ▸ h⟩
  · cases h

theorem readPair_dotted {ns : List ℕ} (h : IsOid ns) :
    readPair (pair (dotted ns)) = some ns ↔ Short ns := by
  match ns, h with
  | x1 :: x2 :: rest, ⟨hx1, hx2⟩ =>
    have hbytes := @map_ofNat_toNat ((x1 * 40 + x2) :: rest)
    rw [pair, packed_dotted]
    generalize hp : ((x1 * 40 + x2) :: rest).map (BitVec.ofNat 8) = payload at hbytes ⊢
    have hlen : payload.length = rest.length + 1 := by rw [← hp, List.length_map, List.length_cons]
    constructor
    · intro hread
      obtain ⟨hcount, hoid⟩ := readPair_tight (by rw [hlen]; rfl) hread
      rw [objectIdentifier_eq hx1 hx2] at hoid
      obtain ⟨hmap, hshort⟩ := Ber.subidentifiers_full hoid (by rw [hlen]; rfl)
      have hall := hbytes.mp ⟨hshort, hmap.symm⟩
      obtain ⟨hfirst, hrest⟩ := List.forall_mem_cons.mp hall
      exact ⟨hfirst, hrest, by omega⟩
    · rintro ⟨hfirst, hrest, hcount⟩
      have hall : ∀ n ∈ (x1 * 40 + x2) :: rest, n < 128 := List.forall_mem_cons.mpr ⟨hfirst, hrest⟩
      obtain ⟨hshort, hmap⟩ := hbytes.mpr hall
      rw [readPair, Ber.value_short (by omega)]
      dsimp only
      rw [if_pos (by decide), objectIdentifier_eq hx1 hx2, Ber.subidentifiers_single hshort, hmap]

theorem mapM_eq_self_iff {α : Type} {f : α → Option α} {l : List α} :
    l.mapM f = some l ↔ ∀ a ∈ l, f a = some a := by
  induction l with
  | nil => simp
  | cons a l ih =>
    rw [List.mapM_cons, List.forall_mem_cons, ← ih]
    cases f a with
    | none => simp
    | some b => cases l.mapM f <;> simp

/-- The request with the id that has been counted up. -/
def Client.request (p : Client) (oids : List (List ℕ)) : Request :=
  { version := 0, community := p.community, requestId := p.requestId.toInt,
    errorStatus := 0, errorIndex := 0, oids }

/-- The packet is the request exactly if every length of an object identifier and every component
fits in seven bits. -/
theorem readRequest_iff {p : Client} {oids : List (List ℕ)} (hcommunity : p.community.length ≤ 127)
    (hoids : ∀ oid ∈ oids, IsOid oid)
    (hfits : (createPacket p (oids.map dotted)).1.length ≤ 65535) :
    readRequest (createPacket p (oids.map dotted)).1 =
        some ((createPacket p (oids.map dotted)).2.request oids) ↔
      ∀ oid ∈ oids, Short oid := by
  have hmap : ((oids.map dotted).mapM fun oid => readPair (pair oid)) =
      oids.mapM fun ns => readPair (pair (dotted ns)) := List.mapM_map
  have hshort : (oids.mapM fun ns => readPair (pair (dotted ns))) = some oids ↔
      ∀ oid ∈ oids, Short oid := by
    rw [mapM_eq_self_iff]
    exact forall₂_congr fun oid hoid => readPair_dotted (hoids oid hoid)
  rw [readRequest_createPacket (Nat.lt_succ_of_le hcommunity) (Nat.lt_succ_of_le hfits), hmap,
    ← hshort, Option.map_eq_some_iff]
  constructor
  · rintro ⟨ns, hns, heq⟩
    rw [hns, (Request.mk.inj heq).2.2.2.2.2]
  · intro h
    exact ⟨oids, h, rfl⟩

theorem readRequest_uptime :
    readRequest (createPacket ⟨ascii "public", 1⟩ [dotted [1, 3, 6, 1, 2, 1, 1, 3, 0]]).1 =
      some ((createPacket ⟨ascii "public", 1⟩ [dotted [1, 3, 6, 1, 2, 1, 1, 3, 0]]).2.request
        [[1, 3, 6, 1, 2, 1, 1, 3, 0]]) :=
  (@readRequest_iff ⟨ascii "public", 1⟩ [[1, 3, 6, 1, 2, 1, 1, 3, 0]] (by decide +kernel)
    (by decide +kernel) (by decide +kernel)).mpr (by simp [Short])

/-- The enterprise number 641 takes two bytes. -/
theorem enterprise_lost :
    ¬ ∀ (p : Client) (oids : List (List ℕ)), p.community.length ≤ 127 → (∀ oid ∈ oids, IsOid oid) →
      (createPacket p (oids.map dotted)).1.length ≤ 1024 →
      readRequest (createPacket p (oids.map dotted)).1 =
        some ((createPacket p (oids.map dotted)).2.request oids) := by
  intro h
  have := h ⟨ascii "public", 1⟩ [[1, 3, 6, 1, 4, 1, 641]] (by decide +kernel) (by decide +kernel)
    (by decide +kernel)
  exact absurd this (by decide +kernel)

end Ppr.Snmp
