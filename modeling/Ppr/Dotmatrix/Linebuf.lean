import Ppr.Lib.Ascii
import Ppr.Lib.Reading

/-!
# The line buffer

`empty_buffer()` of `filter_dotmatrix/linebuf.c` and `achieve_position()` of `postscript.c`.  What
`double` does is left open: nothing depends on how numbers are rounded, and of their texts only that
these have no parentheses in them.
-/

namespace Ppr.Dotmatrix

/-- A character that the scanner passes by outside of strings. -/
def isCode (c : Byte) : Bool := !(c = 37 || c = 40 || c = 41 || c = 60 || c = 62)

/-- `double`: what is done with it, the constants, and "%f". -/
structure Floats (D : Type) where
  ofInt : ℤ → D
  toInt : D → ℤ
  add : D → D → D
  sub : D → D → D
  mul : D → D → D
  div : D → D → D
  lt : D → D → Bool
  le : D → D → Bool
  eq : D → D → Bool
  oneAndHalf : D
  /-- `TOLERR` -/
  tolerr : D
  text : D → List Byte
  text_code : ∀ d, ∀ c ∈ text d, isCode c = true

/-- `struct CHAR` -/
structure BufferChar (D : Type) where
  style : CInt
  hscale : D
  vscale : D
  movement : ℤ
  xpos : ℤ
  fixedSpacing : ℤ
  width : ℤ
  extraSpace : ℤ
  c : Byte
  colour : ℤ

/-- `OSTYLE_UNDERLINE` and so on. -/
def ostyleUnderline : CInt := 1

def ostyleOblique : CInt := 2

def ostyleBold : CInt := 4

def ostyleHalfraise : CInt := 8

def ostyleFulldrop : CInt := 16

def ostyleProportional : CInt := 32

/-- A bit is set. -/
def hasStyle (style bit : CInt) : Bool := style &&& bit ≠ 0

/-- The variables, and what has been written since the round began. -/
structure Line (D : Type) where
  /-- `HORIZONTAL_UNITS` -/
  horizontalUnits : ℤ
  outStyle : CInt
  outHscale : D
  outVscale : D
  blbias : ℤ
  printColour : ℤ
  extraSpace : ℤ
  spaceWidth : D
  postscriptXpos : D
  postscriptYpos : ℤ
  lm : ℤ
  ls : ℤ
  xpos : ℤ
  ypos : ℤ
  stringOpen : Bool := false
  ulStart : ℤ := -1
  acumulatedError : D
  out : List Byte := []

namespace Line

variable {D : Type} (F : Floats D) (p : BufferChar D) (s : Line D)

def write (text : List Byte) : Line D := { s with out := s.out ++ text }

/-- If we are in a string, close it; `op` is the operator. -/
def close (op : Byte) : Line D :=
  if s.stringOpen then { s.write [41, op, newline] with stringOpen := false } else s

/-- `achieve_position()` -/
def achievePosition : Line D :=
  let s' := { s with postscriptXpos := F.ofInt s.xpos, postscriptYpos := s.ypos }
  if !F.eq (F.ofInt s.xpos) s.postscriptXpos ∧ s.ypos ≠ s.postscriptYpos then
    if s.xpos = s.lm ∧ s.ypos = s.postscriptYpos - s.ls then s'.write (ascii "n\n")
    else
      { s'.write (decimalInt s.xpos ++ ascii " " ++ decimalInt s.ypos ++ ascii " mxy\n") with
        lm := s.xpos, ls := s.postscriptYpos - s.ypos }
  else if s.ypos ≠ s.postscriptYpos then
    { s'.write (decimalInt s.ypos ++ ascii " my\n") with ls := s.postscriptYpos - s.ypos }
  else if !F.eq (F.ofInt s.xpos) s.postscriptXpos then
    let movement := F.toInt (F.sub (F.ofInt s.xpos) s.postscriptXpos)
    if 0 < movement ∧ movement < s.horizontalUnits then s'.write (decimalInt movement ++ ascii " m\n")
    else s'.write (decimalInt s.xpos ++ ascii " mx\n")
  else s'

/-- See if underlining changes here. -/
def underline : Line D :=
  if hasStyle p.style ostyleUnderline ≠ hasStyle s.outStyle ostyleUnderline then
    if hasStyle p.style ostyleUnderline then
      { s with ulStart := p.xpos, outStyle := s.outStyle ||| ostyleUnderline }
    else
      let s := achievePosition F { s.close 112 with xpos := p.xpos }
      { s.write (decimalInt s.ulStart ++ ascii " ul\n") with
        ulStart := -1, outStyle := s.outStyle &&& ~~~ostyleUnderline }
  else s

/-- The baseline bias of a style. -/
def bias (style : CInt) : ℤ :=
  if hasStyle style ostyleFulldrop then -8 else if hasStyle style ostyleHalfraise then 4 else 0

/-- The font has changed. -/
def newFont : Bool := p.style ≠ s.outStyle || !F.eq p.hscale s.outHscale || !F.eq p.vscale s.outVscale

/-- The commands for another font. -/
def fontText : List Byte :=
  (if bias p.style ≠ s.blbias then decimalInt (bias p.style) ++ ascii " bb\n" else []) ++
    (if hasStyle p.style ostyleProportional then ascii "p" else []) ++ ascii "f" ++
    (if hasStyle p.style ostyleBold then ascii "b" else []) ++
    (if hasStyle p.style ostyleOblique then ascii "o" else []) ++
    if F.eq p.vscale (F.ofInt 1) then ascii " " ++ F.text p.hscale ++ ascii " sf\n"
    else ascii " " ++ F.text p.hscale ++ ascii " " ++ F.text p.vscale ++ ascii " sfh\n"

/-- See if we must select a new font. -/
def font : Line D :=
  if newFont F p s then
    { (s.close 112).write (fontText F p s) with
      outStyle := p.style, outHscale := p.hscale, outVscale := p.vscale, blbias := bias p.style
      spaceWidth := F.mul (F.ofInt (s.horizontalUnits.tdiv 10)) p.hscale }
  else s

/-- See if we must select a new colour. -/
def colour : Line D :=
  if p.colour ≠ s.printColour then
    { (s.close 112).write (decimalInt p.colour ++ ascii " colour\n") with printColour := p.colour }
  else s

/-- See if we must select a new extra spacing. -/
def extra : Line D :=
  if p.extraSpace ≠ s.extraSpace then
    { (s.close 115).write (decimalInt p.extraSpace ++ ascii " e\n") with extraSpace := p.extraSpace }
  else s

/-- The loop that writes spaces, with `rel` after it; `none` if it has not ended after so many
rounds. -/
def spaces : ℕ → D → Line D → Option (Line D × D)
  | 0, _, _ => none
  | fuel + 1, rel, s =>
    if F.lt (F.sub s.spaceWidth F.tolerr) rel then
      spaces fuel (F.sub rel s.spaceWidth)
        { s.write [32] with postscriptXpos := F.add s.postscriptXpos s.spaceWidth }
    else some (s, rel)

/-- The error is not tolerable. -/
def intolerable (d : D) : Bool :=
  F.lt F.tolerr (if F.lt (F.ofInt 0) d then d else F.sub (F.ofInt 0) d)

/-- If we are in a string, are we at the right spot? -/
def position (fuel : ℕ) : Option (Line D) :=
  let s := { s with xpos := p.xpos }
  if s.stringOpen ∧ !F.eq (F.ofInt s.xpos) s.postscriptXpos then
    let rel := F.sub (F.ofInt s.xpos) s.postscriptXpos
    if F.lt (F.ofInt 0) rel ∧ F.lt rel (F.ofInt s.horizontalUnits) then
      (spaces F fuel (F.add rel s.acumulatedError) s).map fun (s, rel) =>
        if intolerable F rel then { s.close 112 with acumulatedError := F.ofInt 0 }
        else { s with acumulatedError := rel }
    else some (s.close 112)
  else some s

/-- If we have not yet started a string, set the position and start one. -/
def openString (average : D) : Line D :=
  if s.stringOpen then s
  else
    let s := s.achievePosition F
    let s :=
      if !F.eq s.spaceWidth average then
        { s.write (F.text average ++ ascii " s ") with spaceWidth := average }
      else s
    { s.write [40] with stringOpen := true }

end Line

/-- "%o" of a character. -/
def percentO (c : Byte) : List Byte :=
  let digit (n : ℕ) : Byte := BitVec.ofNat 8 (48 + n % 8)
  (if 64 ≤ c.toNat then [digit (c.toNat / 64)] else []) ++
    (if 8 ≤ c.toNat then [digit (c.toNat / 8)] else []) ++ [digit c.toNat]

/-- The string character in a manner which conforms to Clean7Bit encoding. -/
def charText (c : Byte) : List Byte :=
  if c.toNat < 32 ∨ 126 < c.toNat then 92 :: percentO c
  else if c = 40 ∨ c = 41 ∨ c = 92 then [92, c]
  else [c]

namespace Line

variable {D : Type} (F : Floats D) (p : BufferChar D) (s : Line D)

/-- What is done about a space. -/
def space : Line D :=
  { s with xpos := p.xpos + p.width + p.extraSpace }

/-- What comes before the character itself. -/
def prepare (average : D) (fuel : ℕ) : Option (Line D) :=
  (((s.font F p).colour p |>.extra p).position F p fuel).map (·.openString F average)

/-- The character. -/
def put : Line D :=
  let s := s.write (charText p.c)
  let xpos := s.xpos + (p.width + p.extraSpace)
  { s with xpos := xpos, postscriptXpos := F.ofInt xpos }

/-- The body of the loop. -/
def round (average : D) (fuel : ℕ) : Option (Line D) :=
  let s := underline F p { s with out := [] }
  if p.c = 32 then some (s.space p) else (s.prepare F p average fuel).map (·.put F p)

/-- The rounds, and what they write. -/
def rounds (average : D) (fuel : ℕ) : Line D → List (BufferChar D) → Option (List Byte × Line D)
  | s, [] => some ([], s)
  | s, p :: ps =>
    (s.round F p average fuel).bind fun s => (rounds average fuel s ps).map fun r => (s.out ++ r.1, r.2)

/-- What comes behind the loop: the end of a string, and of underlining. -/
def finish : Line D :=
  let s := ({ s with out := [] } : Line D).close 112
  if s.ulStart ≠ -1 then (s.achievePosition F).write (decimalInt s.ulStart ++ ascii " ul\n") else s

end Line

section

variable {D : Type} (F : Floats D)

/-- The movements that count for the average. -/
def averaged (buffer : List (BufferChar D)) : List ℤ :=
  (buffer.filter fun p => 0 < p.movement &&
    F.le (F.ofInt p.movement) (F.mul (F.ofInt p.fixedSpacing) F.oneAndHalf)).map (·.movement)

/-- The average space width. -/
def averageWidth (horizontalUnits : ℤ) (buffer : List (BufferChar D)) : D :=
  if averaged F buffer ≠ [] then
    F.div (F.ofInt (averaged F buffer).sum) (F.ofInt (averaged F buffer).length)
  else F.ofInt (horizontalUnits.tdiv 10)

/-- The variables before the first round. -/
def Line.start (s : Line D) : Line D :=
  { s with
    xpos := F.toInt s.postscriptXpos
    outStyle := s.outStyle &&& ~~~ostyleUnderline
    stringOpen := false
    ulStart := -1
    acumulatedError := F.ofInt 0 }

/-- `empty_buffer()`: what is written.  `none` if a loop that writes spaces has not ended after `fuel`
rounds. -/
def emptyBuffer (fuel : ℕ) (s : Line D) (buffer : List (BufferChar D)) : Option (List Byte) :=
  if buffer = [] then some []
  else
    (Line.rounds F (averageWidth F s.horizontalUnits buffer) fuel (s.start F) buffer).map fun (text, s) =>
      text ++ (s.finish F).out

end

end Ppr.Dotmatrix
