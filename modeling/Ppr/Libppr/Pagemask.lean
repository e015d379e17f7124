import Ppr.Libppr.QEntryFile

/-!
# Selected pages

`pagemask.c`.  The mask of a job is kept without the NUL at its end.
-/

namespace Ppr.QEntryFile

/-- A byte outside of the mask is written. -/
structure WildWrite where
  deriving DecidableEq

/-- `1 << y`; the machine takes the low five bits of `y`. -/
def bit (y : ℤ) : CInt := 1 <<< (y % 32).toNat

/-- `mask[offset / 6] |= (1 << (offset % 6))`. -/
def setPage (mask : List Byte) (page : ℤ) : Except WildWrite (List Byte) :=
  let offset := page - 1
  let x := offset.tdiv 6
  if 0 ≤ x ∧ x < mask.length then
    .ok (mask.modify x.toNat fun c => c ||| (bit (offset.tmod 6)).setWidth 8)
  else .error ⟨⟩

/-- The variables of the parser. -/
structure Encoding where
  mask : List Byte
  page : ℤ := 1
  range : Bool := false

namespace Encoding

/-- The rounds of `for( ; page <= value && page <= job->attr.pages; page++)`. -/
def rounds (pages : ℤ) (s : Encoding) (value : ℤ) : ℕ := (min value pages + 1 - s.page).toNat

/-- Set the bits from `page` to `value`. -/
def setPages (pages : ℤ) (s : Encoding) (value : ℤ) : Except WildWrite Encoding := do
  let n := s.rounds pages value
  let mask ← (List.range n).foldlM (fun mask (i : ℕ) => setPage mask (s.page + i)) s.mask
  return { s with mask := mask, page := s.page + n }

/-- A number. -/
def number (pages : ℤ) (s : Encoding) (value : ℤ) : Except WildWrite Encoding := do
  let s := if s.range then s else { s with page := value }
  let s ← s.setPages pages value
  return if s.range then { s with range := false, page := 1 } else s

/-- The end of the inner loop: an open range runs to the end of the pages. -/
def close (pages : ℤ) (s : Encoding) : Except WildWrite Encoding :=
  if s.range then do
    let s ← s.setPages pages pages
    return { s with range := false }
  else .ok s

end Encoding

/-- `atoi()` of digits. -/
def intOfDigits (digits : List Byte) : ℤ :=
  (BitVec.ofNat 32 (min (digitsValue digits) (2 ^ 63 - 1))).toInt

/-- The two loops, with at most `n` characters to go; they have returned -1 if the flag is not set. -/
def encodeLoop (pages : ℤ) : ℕ → List Byte → Encoding → Except WildWrite (Encoding × Bool)
  | _, [], s => do
    let s ← s.close pages
    return (s, true)
  | 0, _, s => .ok (s, true)
  | n + 1, c :: p, s =>
    if isspace c then encodeLoop pages n p s
    else if isdigit c then do
      let s ← s.number pages (intOfDigits ((c :: p).takeWhile isdigit))
      encodeLoop pages n ((c :: p).dropWhile isdigit) s
    else if c = 44 then do
      let s ← s.close pages
      encodeLoop pages n p s
    else if c = 45 then encodeLoop pages n p { s with range := true }
    else .ok (s, false)

/-- The bits that are set. -/
def bitsSet (mask : List Byte) : ℕ :=
  (mask.map fun c => (List.range 6).countP fun (y : ℕ) => c.signExtend 32 &&& bit y ≠ 0).sum

/-- `pagemask_encode()`: whether it returns 0. -/
def pagemaskEncode (job : QEntryFile) (pages : List Byte) : Except WildWrite (QEntryFile × Bool) := do
  let bytes := ((job.attr.pages + 5).sdiv 6).toInt.toNat
  let (s, ok) ← encodeLoop job.attr.pages.toInt pages.length pages
    { mask := List.replicate (bytes + 1) 0 }
  let mask := s.mask.dropLast
  return if ok then
      ({ job with pageList :=
          { mask := some (mask.map (· + 33)), count := BitVec.ofNat 32 (bitsSet mask) } }, true)
    else ({ job with pageList.mask := some mask }, false)

/-- `pagemask_get_bit()`. -/
def pagemaskGetBit (job : QEntryFile) (page : ℤ) : Bool :=
  match job.pageList.mask with
  | none => true
  | some mask =>
    if page ≤ 0 ∨ job.attr.pages.toInt < page then true
    else
      let offset := page - 1
      ((mask.getD (offset.tdiv 6).toNat 0).signExtend 32 - 33) &&& bit (offset.tmod 6) ≠ 0

/-- `pagemask_count()`. -/
def pagemaskCount (job : QEntryFile) : CInt :=
  if job.pageList.mask.isSome then job.pageList.count else job.attr.pages

end Ppr.QEntryFile
