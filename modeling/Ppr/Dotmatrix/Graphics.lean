import Ppr.Lib.Ascii
import Ppr.Lib.PsFilters

/-!
# Dot matrix graphics

`graphic()` of `filter_dotmatrix/graphics.c`.  For level 2 the data is compressed in `gbuffer2` and
then written in ASCII85, for level 1 it is written in hexadecimal.
-/

namespace Ppr.Dotmatrix

/-! ## Constants -/

/-- `MAX_GBYTES`: the size of `gbuffer`. -/
def maxGbytes : ℕ := 8640

/-- The size of `gbuffer2`. -/
def gbuffer2Size : ℕ := 20000

/-- `HEX_BPL` -/
def hexBpl : ℕ := 39

/-- `A85_BPL` -/
def a85Bpl : ℕ := 60

/-- `PINS_8or24` and `PINS_9` -/
inductive Pins where
  | pins8or24
  | pins9
  deriving DecidableEq

/-- The lines per inch of the graphics modes. -/
def density : ℕ → Option ℕ
  | 0 | 32 => some 60
  | 1 | 2 | 33 => some 120
  | 3 => some 240
  | 4 => some 80
  | 5 => some 72
  | 6 | 38 => some 90
  | 39 => some 180
  | 40 => some 360
  | _ => none

/-- The number of bytes, and `true_pins`. -/
def shape (mode : ℕ) (pins : Pins) (length : ℕ) : ℕ × ℕ :=
  match pins with
  | .pins8or24 => if mode < 32 then (length, 8) else (length * 3, 24)
  | .pins9 => (length * 2, 9)

/-! ## Compression -/

/-- The variables of the compression. -/
structure Packer where
  x : ℕ := 0
  /-- What is stored before `di`. -/
  gbuffer2 : List Byte := []
  rlength : ℕ := 0
  litlength : ℕ := 0
  unclaimed : ℕ := 0
  /-- `none` is -1. -/
  lastc : Option Byte := none
  lastlastc : Option Byte := none
  /-- The indices at which `gbuffer` has been read. -/
  reads : List ℕ := []

namespace Packer

def dumpRun (s : Packer) : Packer :=
  { s with
    gbuffer2 := s.gbuffer2 ++ [BitVec.ofInt 8 (257 - s.rlength), s.lastc.getD 255]
    rlength := 0 }

/-- The indices `x-litlength-unclaimed-1`, which are unsigned, while `litlength` is counted down. -/
def literals (s : Packer) : List ℕ :=
  (List.range s.litlength).reverse.map fun (l : ℕ) => (((s.x : ℤ) - l - s.unclaimed - 1) % 2 ^ 32).toNat

def dumpLiterals (gbuffer : ℕ → Byte) (s : Packer) : Packer :=
  { s with
    gbuffer2 := s.gbuffer2 ++ BitVec.ofInt 8 (s.litlength - 1) :: s.literals.map gbuffer
    litlength := 0
    reads := s.reads ++ s.literals }

@[simp] theorem dumpRun_x (s : Packer) : s.dumpRun.x = s.x := rfl
@[simp] theorem dumpRun_rlength (s : Packer) : s.dumpRun.rlength = 0 := rfl
@[simp] theorem dumpRun_litlength (s : Packer) : s.dumpRun.litlength = s.litlength := rfl
@[simp] theorem dumpRun_unclaimed (s : Packer) : s.dumpRun.unclaimed = s.unclaimed := rfl
@[simp] theorem dumpRun_lastc (s : Packer) : s.dumpRun.lastc = s.lastc := rfl
@[simp] theorem dumpRun_lastlastc (s : Packer) : s.dumpRun.lastlastc = s.lastlastc := rfl
@[simp] theorem dumpRun_reads (s : Packer) : s.dumpRun.reads = s.reads := rfl

section

variable (gbuffer : ℕ → Byte) (s : Packer)

@[simp] theorem dumpLiterals_x : (s.dumpLiterals gbuffer).x = s.x := rfl
@[simp] theorem dumpLiterals_rlength : (s.dumpLiterals gbuffer).rlength = s.rlength := rfl
@[simp] theorem dumpLiterals_litlength : (s.dumpLiterals gbuffer).litlength = 0 := rfl
@[simp] theorem dumpLiterals_unclaimed : (s.dumpLiterals gbuffer).unclaimed = s.unclaimed := rfl
@[simp] theorem dumpLiterals_lastc : (s.dumpLiterals gbuffer).lastc = s.lastc := rfl
@[simp] theorem dumpLiterals_lastlastc : (s.dumpLiterals gbuffer).lastlastc = s.lastlastc := rfl

end

/-- The character is the same as the last two. -/
def Repeats (s : Packer) (c : Byte) : Prop := some c = s.lastc ∧ some c = s.lastlastc

instance (s : Packer) (c : Byte) : Decidable (s.Repeats c) := inferInstanceAs (Decidable (_ ∧ _))

/-- If end of run or run full, empty it. -/
def emptyRun (c : Byte) (s : Packer) : Packer :=
  if s.rlength ≠ 0 ∧ (some c ≠ s.lastc ∨ s.rlength = 128) then s.dumpRun else s

/-- If literal in progress, but we see a run starting, leave the last two for the run. -/
def handBack (c : Byte) (s : Packer) : Packer :=
  if 2 ≤ s.litlength ∧ s.Repeats c then
    { s with litlength := s.litlength - 2, unclaimed := s.unclaimed + 2 }
  else s

/-- If run starting or literal full, empty literal. -/
def emptyLiterals (gbuffer : ℕ → Byte) (c : Byte) (s : Packer) : Packer :=
  if s.litlength ≠ 0 ∧ (s.Repeats c ∨ s.litlength = 128) then s.dumpLiterals gbuffer else s

/-- The character becomes part of a run or of a literal list. -/
def claim (c : Byte) (s : Packer) : Packer :=
  if s.Repeats c then { s with rlength := s.rlength + 1 + s.unclaimed, unclaimed := 0 }
  else { s with litlength := s.litlength + 1 + s.unclaimed, unclaimed := 0 }

/-- `x++,lastlastc=lastc,lastc=c` -/
def advance (c : Byte) (s : Packer) : Packer :=
  { s with x := s.x + 1, lastlastc := s.lastc, lastc := some c }

/-- The body of the loop; `more` if the count is not down to 0. -/
def round (gbuffer : ℕ → Byte) (more : Bool) (s : Packer) : Packer :=
  let c := gbuffer s.x
  let s := { s with reads := s.reads ++ [s.x] }
  advance c <|
    if more ∧ s.lastc = none then { s with unclaimed := s.unclaimed + 1 }
    else claim c (emptyLiterals gbuffer c (handBack c (emptyRun c s)))

/-- The loop. -/
def loop (gbuffer : ℕ → Byte) : ℕ → Packer → Packer
  | 0, s => s
  | countdown + 1, s => loop gbuffer countdown (s.round gbuffer (countdown ≠ 0))

/-- Dump remaining runs and literals. -/
def finish (gbuffer : ℕ → Byte) (s : Packer) : Packer :=
  if s.rlength ≠ 0 then s.dumpRun
  else if s.litlength ≠ 0 then s.dumpLiterals gbuffer
  else s

end Packer

/-- The compression of as many bytes; the loop "runs once for each character of graphics data and then
once more". -/
def pack (gbuffer : ℕ → Byte) (countdown : ℕ) : Packer :=
  (Packer.loop gbuffer (countdown + 1) {}).finish gbuffer

/-- Complete last 4-tuple. -/
def padded (gbuffer2 : List Byte) : List Byte :=
  gbuffer2 ++ List.replicate ((4 - gbuffer2.length % 4) % 4) 0

/-! ## Writing -/

/-- The characters of a tuple, of which `countdown` bytes are data. -/
def tupleText (countdown tuple : ℕ) : List Byte :=
  let char (n : ℕ) : Byte := BitVec.ofNat 8 (n + 33)
  let tuple' := tuple % 85 ^ 4
  char (tuple / 85 ^ 4) :: char (tuple' / 85 ^ 3) ::
    let tuple := tuple' % 85 ^ 3
    if 1 < countdown then
      char (tuple / 85 ^ 2) ::
        let tuple := tuple % 85 ^ 2
        if 2 < countdown then
          char (tuple / 85) ::
            let tuple := tuple % 85
            if 3 < countdown then [char tuple] else []
        else []
    else []

/-- The four bytes at the beginning of `gbuffer2` as a tuple. -/
def tuple (a b c d : Byte) : ℕ := a.toNat * 2 ^ 24 + b.toNat * 2 ^ 16 + c.toNat * 2 ^ 8 + d.toNat

/-- Emit in ASCII85.  There are four bytes for every tuple. -/
def ascii85Text : ℕ → ℕ → List Byte → List Byte
  | countdown + 1, linelen, a :: b :: c :: d :: rest =>
    if a85Bpl < linelen + 4 then
      newline :: tupleText (countdown + 1) (tuple a b c d) ++ ascii85Text (countdown + 1 - 4) 4 rest
    else
      tupleText (countdown + 1) (tuple a b c d) ++ ascii85Text (countdown + 1 - 4) (linelen + 4) rest
  | _, _, _ => []

/-- Emit the data in hexadecimal. -/
def hexText : ℕ → List Byte → List Byte
  | _, [] => []
  | linelen, b :: rest =>
    if hexBpl < linelen + 1 then newline :: upperHex 2 b.toNat ++ hexText 1 rest
    else upperHex 2 b.toNat ++ hexText (linelen + 1) rest

/-! ## The graphic -/

/-- What is written for a graphic. -/
structure Block where
  declared : ℕ
  type : List Byte
  command : List Byte
  data : List Byte
  deriving DecidableEq

/-- The text from "%%BeginData:" to "%%EndData". -/
def Block.text (b : Block) : List Byte :=
  ascii "%%BeginData: " ++ decimal b.declared ++ ascii " " ++ b.type ++ ascii " Lines\n" ++
    b.command ++ b.data ++ ascii "%%EndData\n"

/-- What is done about a graphic. -/
structure Graphic where
  /-- What has been stored in `gbuffer`. -/
  bytes : List Byte
  /-- The indices at which `gbuffer` is read. -/
  reads : List ℕ
  /-- How much of `gbuffer2` is used. -/
  used : ℕ
  /-- What is written if there are marks. -/
  block : Option Block

/-- Why the filter exits. -/
inductive GraphicError where
  | invalidMode
  | tooBig
  deriving DecidableEq

/-- The bytes that are read, with zeros behind the end of the file. -/
def readGraphic : ℕ → List Byte → List Byte
  | 0, _ => []
  | countdown + 1, [] => 0 :: readGraphic countdown []
  | countdown + 1, c :: input => c :: readGraphic countdown input

/-- What is at an index in `gbuffer`; behind what has been stored, and behind its end, it is what
`memory` is there. -/
def gbufferAt (bytes : List Byte) (memory : ℕ → Byte) (x : ℕ) : Byte := bytes[x]?.getD (memory x)

/-- The command line. -/
def commandLine (density length : ℕ) (procedure : String) (pins : ℕ) : List Byte :=
  decimal density ++ ascii " " ++ decimal length ++ ascii " " ++ ascii procedure ++ decimal pins ++
    [newline]

/-- The level 2 form. -/
def level2Graphic (bytes : List Byte) (memory : ℕ → Byte) (density length pins : ℕ) : Graphic :=
  let packer := pack (gbufferAt bytes memory) bytes.length
  let countdown := packer.gbuffer2.length
  { bytes := bytes
    reads := packer.reads
    used := (padded packer.gbuffer2).length
    block := some {
      declared := (countdown + a85Bpl - 1) / a85Bpl + 1
      type := ascii "ASCII"
      command := commandLine density length "cgraphic" pins
      data := ascii85Text countdown 0 (padded packer.gbuffer2) ++ ascii "~>\n" } }

/-- The level 1 form. -/
def level1Graphic (bytes : List Byte) (density length pins : ℕ) : Graphic where
  bytes := bytes
  reads := List.range bytes.length
  used := 0
  block := some {
    declared := (bytes.length + hexBpl - 1) / hexBpl + 1
    type := ascii "Hex"
    command := commandLine density length "graphic" pins
    data := hexText 0 bytes ++ [newline] }

/-- `graphic()`, with what is left of the input and what stands in memory. -/
def graphic (level2 : Bool) (memory : ℕ → Byte) (mode : ℕ) (pins : Pins) (length : ℕ)
    (input : List Byte) : Except GraphicError Graphic :=
  match density mode with
  | none => .error .invalidMode
  | some density =>
    let (countdown, truePins) := shape mode pins length
    if maxGbytes < countdown then .error .tooBig
    else
      let bytes := readGraphic countdown input
      .ok <|
        if bytes.any (· ≠ 0) then
          if level2 then level2Graphic bytes memory density length truePins
          else level1Graphic bytes density length truePins
        else { bytes := bytes, reads := [], used := 0, block := none }

end Ppr.Dotmatrix
