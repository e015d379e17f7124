import Ppr.Lib.Ascii

/-!
# The sfnts array

`ttf_PS_sfnts()` of `ps_sfnts.c`, which writes a reduced TrueType font as the strings of a PostScript
array, with `ttf_LoadTable()` of `loadtable.c` and the conversions of `endian.c`.  A string is kept as
its bytes; the hexadecimal digits and the line ends of its text are left out.
-/

namespace Ppr.Libttf

/-! ## Numbers -/

/-- `ULONG`. -/
abbrev ULong := BitVec 32

/-- `getULONG()`. -/
def getULONG (p : List Byte) : ULong := (p.take 4).foldl (fun val c => val * 256 + c.setWidth 32) 0

/-- `getUSHORT()`. -/
def getUSHORT (p : List Byte) : BitVec 16 :=
  (p.take 2).foldl (fun val c => val * 256 + c.setWidth 16) 0

/-- The bytes of `sfnts_pputULONG()`. -/
def ulongBytes (n : ULong) : List Byte :=
  [(n / 0x1000000).setWidth 8, (n / 0x10000).setWidth 8, (n / 0x100).setWidth 8, n.setWidth 8]

/-- The bytes of `sfnts_pputUSHORT()`. -/
def ushortBytes (n : BitVec 16) : List Byte := [(n / 0x100).setWidth 8, n.setWidth 8]

/-! ## Fonts -/

/-- An entry of the table directory.  To compare four characters with a name that has no NUL in it
is to compare the numbers that they are. -/
structure Entry where
  tag : ULong
  checksum : ULong
  offset : ULong
  length : ULong

/-- What `struct TTFONT` says of the file, and the file. -/
structure TtFont where
  /-- The first bytes of `offset_table`. -/
  version : List Byte
  /-- The entries of `offset_table`, `numTables` of them. -/
  directory : List Entry
  file : List Byte
  numGlyphs : ℕ
  /-- `indexToLocFormat` is 1 and not 0. -/
  longLoca : Bool

/-- What is thrown. -/
inductive TtfResult where
  | tblNotfound
  | tblCantread
  | tblToobig
  | glyfBadpad
  | glyfCantread
  | glyfSizeinc
  deriving DecidableEq

/-- The entry of a table. -/
def TtFont.find (font : TtFont) (name : String) : Option Entry :=
  font.directory.find? fun e => e.tag = getULONG (ascii name)

/-- The bytes of a table. -/
def TtFont.bytes (font : TtFont) (e : Entry) : List Byte :=
  (font.file.drop e.offset.toNat).take e.length.toNat

/-- `ttf_LoadTable()`. -/
def TtFont.loadTable (font : TtFont) (name : String) : Except TtfResult (List Byte) :=
  match font.find name with
  | some e =>
    if (font.bytes e).length = e.length.toNat then .ok (font.bytes e) else .error .tblCantread
  | none => .error .tblNotfound

/-! ## The table directory -/

/-- `table_names[]`. -/
def tableNames : List String :=
  ["cvt ", "fpgm", "glyf", "head", "hhea", "hmtx", "loca", "maxp", "prep"]

/-- An entry of `tables[]` that was found. -/
structure Table where
  name : String
  oldoffset : ULong
  newoffset : ULong
  length : ULong
  checksum : ULong

/-- A length with the padding. -/
def padded (length : ULong) : ULong := (length + 3) / 4 * 4

/-- The search for one name from `ptr` on: what was found, and where `ptr` is then.  Nothing if it
reads behind the directory. -/
def seek (name : String) : List Entry → Option (Option Entry × List Entry)
  | [] => none
  | e :: ptr =>
    if getULONG (ascii name) < e.tag then some (none, e :: ptr)
    else if e.tag < getULONG (ascii name) then seek name ptr
    else some (some e, ptr)

/-- The loop that passes over the directory: the tables that were found, `count` of them. -/
def scan : List String → List Entry → ULong → Option (List Table)
  | [], _, _ => some []
  | name :: names, ptr, nextoffset =>
    match seek name ptr with
    | none => none
    | some (none, ptr) => scan names ptr nextoffset
    | some (some e, ptr) =>
      (scan names ptr (nextoffset + padded e.length)).map fun tables =>
        ⟨name, e.offset, nextoffset, e.length, e.checksum⟩ :: tables

/-! ## Strings -/

/-- The strings that were written. -/
structure Strings where
  done : List (List Byte)
  /-- The string that is open, if `in_string`. -/
  cur : Option (List Byte)

namespace Strings

/-- `sfnts_start()`. -/
def start : Strings := ⟨[], some []⟩

/-- `sfnts_pputBYTE()`. -/
def pputBYTE (s : Strings) (n : Byte) : Strings := { s with cur := some (s.cur.getD [] ++ [n]) }

def pputBytes (s : Strings) (l : List Byte) : Strings := l.foldl pputBYTE s

/-- `string_len`, with the dummy byte of a string that was ended. -/
def stringLen (s : Strings) : ULong :=
  match s.cur with
  | some c => BitVec.ofNat 32 c.length
  | none => 1

/-- `sfnts_end_string()`. -/
def endString (s : Strings) : Strings :=
  match s.cur with
  | some c => ⟨s.done ++ [c ++ [0]], none⟩
  | none => s

/-- `sfnts_new_table()`. -/
def newTable (s : Strings) (length : ULong) : Strings :=
  if 65528 < s.stringLen + length then s.endString else s

end Strings

/-! ## The tables -/

/-- Copy bytes from where the file is. -/
def copyBytes (failure : TtfResult) : ℕ → List Byte → Strings → Except TtfResult (List Byte × Strings)
  | 0, file, s => .ok (file, s)
  | _ + 1, [], _ => .error failure
  | n + 1, c :: file, s => copyBytes failure n file (s.pputBYTE c)

/-- The length of a glyph by the table `loca`. -/
def TtFont.glyphLength (font : TtFont) (loca : List Byte) (x : ℕ) : ULong :=
  if font.longLoca then getULONG (loca.drop ((x + 1) * 4)) - getULONG (loca.drop (x * 4))
  else
    (getUSHORT (loca.drop ((x + 1) * 2))).setWidth 32 * 2 - (getUSHORT (loca.drop (x * 2))).setWidth 32 * 2

/-- The glyphs one by one, and how many bytes they are. -/
def glyphLoop : List ULong → List Byte → ULong → Strings → Except TtfResult (ULong × Strings)
  | [], _, total, s => .ok (total, s)
  | length :: lengths, file, total, s => do
    let s := s.newTable length
    if length % 2 ≠ 0 then .error .glyfBadpad
    else
      let (file, s) ← copyBytes .glyfCantread length.toNat file s
      glyphLoop lengths file (total + length) s

/-- `sfnts_glyf_table()`. -/
def TtFont.glyfTable (font : TtFont) (oldoffset correctTotalLength : ULong) (s : Strings) :
    Except TtfResult Strings := do
  let loca ← font.loadTable "loca"
  let lengths := (List.range font.numGlyphs).map (font.glyphLength loca)
  let (total, s) ← glyphLoop lengths (font.file.drop oldoffset.toNat) 0 s
  let s := s.pputBytes (List.replicate (correctTotalLength.toNat - total.toNat) 0)
  if correctTotalLength < total then .error .glyfSizeinc else return s

/-- The zeros behind a table. -/
def padding (length : ULong) : List Byte := List.replicate ((4 - length.toNat % 4) % 4) 0

/-- One round of the loop that sends the tables. -/
def TtFont.sendTable (font : TtFont) (s : Strings) (t : Table) : Except TtfResult Strings :=
  if t.length = 0 then .ok s
  else
    (if t.name = "glyf" then font.glyfTable t.oldoffset t.length s
      else if 65535 < t.length then .error .tblToobig
      else
        (copyBytes .tblCantread t.length.toNat (font.file.drop t.oldoffset.toNat)
          (s.newTable t.length)).map Prod.snd).map fun s => s.pputBytes (padding t.length)

/-! ## The array -/

/-- The entry of a table in the new directory. -/
def Table.directoryEntry (count : ℕ) (t : Table) : List Byte :=
  ascii t.name ++ ulongBytes t.checksum ++ ulongBytes (t.newoffset + 12 + BitVec.ofNat 32 (count * 16)) ++
    ulongBytes t.length

/-- What is written ahead of the tables. -/
def TtFont.header (font : TtFont) (tables : List Table) : List Byte :=
  font.version ++ ushortBytes (BitVec.ofNat 16 tables.length) ++
    -- searchRange, entrySelector and rangeShift
    (if tables.length = 9 then ushortBytes 7 ++ ushortBytes 3 ++ ushortBytes 81 else []) ++
    (tables.filter fun t => t.length ≠ 0).flatMap (Table.directoryEntry tables.length)

/-- `ttf_PS_sfnts()`: the strings, each with its dummy byte.  Nothing if it reads behind the
directory. -/
def TtFont.psSfnts (font : TtFont) : Option (Except TtfResult (List (List Byte))) :=
  (scan tableNames font.directory 0).map fun tables => do
    let s ← tables.foldlM font.sendTable (Strings.start.pputBytes (font.header tables))
    return s.endString.done

/-! ## Fonts in order -/

/-- A font whose directory is sorted, describes tables in the file, and whose `loca` has the offset of
each glyph and of the end of the last. -/
structure TrueTypeFont extends TtFont where
  version_length : version.length = 4
  sorted : directory.Pairwise fun e e' => e.tag ≤ e'.tag
  within : ∀ e ∈ directory, e.offset.toNat + e.length.toNat ≤ file.length
  loca_length : ∀ e, toTtFont.find "loca" = some e →
    (numGlyphs + 1) * (if longLoca then 4 else 2) ≤ e.length.toNat

end Ppr.Libttf
