import Ppr.FilterLp.Readline
import Ppr.Lib.Ascii

/-!
# The passes of the line printer filter

`pass1()` as far as it is about the lines, `pass2()`, and the functions with which it writes a line.
-/

namespace Ppr.FilterLp

/-- What a reader has returned: the characters up to the length, with their attributes. -/
structure Line where
  formfeed : Bool
  line : List ℕ
  lineAttr : List Byte

def Reader.returned (r : Reader) (len : ℕ) : Except Fault Line :=
  if len ≤ r.line.length ∧ len ≤ r.lineAttr.length then .ok ⟨r.formfeed, r.line.take len, r.lineAttr.take len⟩
  else .error .wild

/-- `wcsspn(&line[i], L" ")`. -/
def wcsspn (line : List ℕ) (i : ℕ) : Except Fault ℕ :=
  if i + ((line.drop i).takeWhile (· = 32)).length < line.length then
    .ok ((line.drop i).takeWhile (· = 32)).length
  else .error .wild

/-! ## The first pass -/

/-- The variables of `pass1()`. -/
structure Survey where
  maxPlen : ℕ
  lineCount : ℕ
  inBody : Bool
  hasFormfeeds : Bool
  topSkip : ℕ
  leftSkip : ℕ

def Survey.start : Survey := ⟨0, 0, false, false, 1000, 1000⟩

/-- A line that is not blank. -/
def Survey.text (leadlen : ℕ) (v : Survey) : Survey :=
  { v with
    leftSkip := min leadlen v.leftSkip
    topSkip := if v.inBody then v.topSkip else min (v.lineCount - 1) v.topSkip
    inBody := true }

/-- A formfeed is not a line. -/
def Survey.page (v : Survey) : Survey :=
  { v with
    hasFormfeeds := true
    maxPlen := max (v.lineCount - 1) v.maxPlen
    lineCount := 0
    inBody := false }

/-- One round of the loop. -/
def Survey.line (len leadlen : ℕ) (formfeed : Bool) (v : Survey) : Survey :=
  let v := { v with lineCount := v.lineCount + 1 }
  let v := if 0 < len then v.text leadlen else v
  if formfeed then v.page else v

/-- What is behind the loop. -/
def Survey.finish (v : Survey) : Survey :=
  { v with
    maxPlen := max v.lineCount v.maxPlen
    leftSkip := if v.leftSkip = 1000 then 0 else v.leftSkip }

/-- The loop of `pass1()`, with the lines that are read. -/
def pass1 (readline : Reader → Except Fault (Option ℕ × Reader)) :
    ℕ → Reader → Survey → Except Fault (Survey × List Line × Reader)
  | 0, _, _ => .error .endless
  | fuel + 1, r, v => do
    let (len, r) ← readline r
    match len with
    | none => return (v.finish, [], r)
    | some len =>
      let got ← r.returned len
      let leadlen ← (if 0 < len then wcsspn r.line 0 else .ok 0)
      let (v, lines, r) ← pass1 readline fuel r (v.line len leadlen r.formfeed)
      return (v, got :: lines, r)

/-- `MIN_LINES`, `MAX_LINES`, and the default for the orientation that is chosen. -/
structure PageLength where
  minLines : ℕ
  maxLines : ℕ
  defaultLines : ℕ
  min_ok : 0 < minLines
  default_ok : minLines ≤ defaultLines ∧ defaultLines ≤ maxLines

/-- What the second pass uses, with the line that rotates a page. -/
structure Layout where
  topSkip : ℕ
  leftSkip : ℕ
  linesPerPage : ℕ
  unicode : Bool
  rotate : List Byte

/-- The choice of `lines_per_page`. -/
def Survey.layout (v : Survey) (o : PageLength) (unicode : Bool) (rotate : List Byte) : Layout :=
  if v.hasFormfeeds = false ∨ (o.maxLines : ℤ) < (v.maxPlen : ℤ) - v.topSkip then
    ⟨0, v.leftSkip, o.defaultLines, unicode, rotate⟩
  else ⟨v.topSkip, v.leftSkip, max (v.maxPlen - v.topSkip) o.minLines, unicode, rotate⟩

/-! ## Underlining -/

/-- The variables of `underline()`. -/
structure Underlining where
  line : List ℕ
  ulstart : Option ℕ
  ul : Bool
  retval : Bool
  out : List Byte

/-- "%d %d u\n". -/
def underlineCommand (start len : ℕ) : List Byte := decimal start ++ ascii " " ++ decimal len ++ ascii " u\n"

/-- Blanks become underscores. -/
def underscores (skip : ℕ) : ℕ → ℕ → List ℕ → Except Fault (List ℕ)
  | 0, _, line => .ok line
  | n + 1, x, line => do
    let line ← poke line (skip + x : ℕ) 95
    underscores skip n (x + 1) line

/-- The end of what is underlined. -/
def underlineEnd (skip index start : ℕ) (u : Underlining) : Except Fault Underlining :=
  if u.ul = true ∨ 7 < index - start then
    .ok { u with ulstart := none, ul := false, out := u.out ++ underlineCommand start (index - start) }
  else do
    let line ← underscores skip (index - start) start u.line
    return { u with line, ulstart := none, ul := false, retval := true }

/-- One round of the loop, and the character. -/
def underlineStep (skip index : ℕ) (lineAttr : List Byte) (u : Underlining) : Except Fault (Underlining × ℕ) := do
  let c ← peek u.line (skip + index : ℕ)
  let a ← peek lineAttr (skip + index : ℕ)
  let u := { u with retval := u.retval || (decide (c ≠ 0) && decide (c ≠ 32)) }
  if a &&& attrUnderline ≠ 0 then
    return ({ u with ul := u.ul || decide (c ≠ 32), ulstart := some (u.ulstart.getD index) }, c)
  else
    let u ← u.ulstart.elim (.ok u) fun start => underlineEnd skip index start u
    return (u, c)

def underlineLoop (skip : ℕ) (lineAttr : List Byte) : ℕ → ℕ → Underlining → Except Fault Underlining
  | 0, _, _ => .error .endless
  | fuel + 1, index, u => do
    let (u, c) ← underlineStep skip index lineAttr u
    if c = 0 then return u else underlineLoop skip lineAttr fuel (index + 1) u

/-- `underline()`: what is written, the line, and whether it is more than spaces. -/
def underline (skip : ℕ) (line : List ℕ) (lineAttr : List Byte) : Except Fault (List Byte × List ℕ × Bool) := do
  let u ← underlineLoop skip lineAttr (line.length + 1) 0 ⟨line, none, false, false, []⟩
  return (u.out, u.line, u.retval)

/-! ## The characters of a line -/

/-- `font`, `font_changed` and `indent`. -/
structure Pen where
  bold : Bool
  fontChanged : Bool
  indent : ℕ

/-- `eighth_bit_ok`. -/
def eighthBitOk : Bool := true

/-- A character beyond ASCII when the font is for Unicode. -/
def unicodeBytes (c : ℕ) : List Byte :=
  if c < 0x800 then [.ofNat 8 (c >>> 6 ||| 0xC0), .ofNat 8 (c &&& 0x3F ||| 0x80)]
  else if c < 0x10000 then
    [.ofNat 8 (c >>> 12 ||| 0xE0), .ofNat 8 (c >>> 6 &&& 0x3F ||| 0x80), .ofNat 8 (c &&& 0x3F ||| 0x80)]
  else if c < 0x200000 then
    [.ofNat 8 (c >>> 18 ||| 0xF0), .ofNat 8 (c >>> 12 &&& 0x3F ||| 0x80), .ofNat 8 (c >>> 6 &&& 0x3F ||| 0x80),
      .ofNat 8 (c &&& 0x3F ||| 0x80)]
  else if c < 0x4000000 then
    [.ofNat 8 (c >>> 24 ||| 0xF8), .ofNat 8 (c >>> 18 &&& 0x3F ||| 0x80), .ofNat 8 (c >>> 12 &&& 0x3F ||| 0x80),
      .ofNat 8 (c >>> 6 &&& 0x3F ||| 0x80), .ofNat 8 (c &&& 0x3F ||| 0x80)]
  else
    [.ofNat 8 (c >>> 30 ||| 0xFC), .ofNat 8 (c >>> 24 &&& 0x3F ||| 0x80), .ofNat 8 (c >>> 18 &&& 0x3F ||| 0x80),
      .ofNat 8 (c >>> 12 &&& 0x3F ||| 0x80), .ofNat 8 (c >>> 6 &&& 0x3F ||| 0x80), .ofNat 8 (c &&& 0x3F ||| 0x80)]

/-- "%o". -/
def octal (n : ℕ) : List Byte :=
  if n = 0 then [48] else ((Nat.digits 8 n).map fun d => BitVec.ofNat 8 (48 + d)).reverse

/-- A character in a string. -/
def characterBytes (unicode : Bool) (c : ℕ) : List Byte :=
  if c = 40 ∨ c = 41 ∨ c = 92 then [92, .ofNat 8 c]
  else if c < 32 ∨ c = 127 then 92 :: octal c
  else if c < 127 then [.ofNat 8 c]
  else if unicode then unicodeBytes c
  else if eighthBitOk then [.ofNat 8 c]
  else 92 :: octal c

/-- The font that a character needs; spaces have none. -/
def Pen.select (pen : Pen) (c : ℕ) (a : Byte) : Pen :=
  if c = 32 then pen
  else if a &&& attrBold ≠ 0 then { pen with bold := true, fontChanged := pen.fontChanged || !pen.bold }
  else { pen with bold := false, fontChanged := pen.fontChanged || pen.bold }

/-- The change of the font. -/
def Pen.changeFont (pen : Pen) (started newindent : Bool) : List Byte :=
  if pen.fontChanged then
    if started then (if pen.bold then ascii ")a(" else ascii ")q(")
    else (if newindent then ascii " " else []) ++ (if pen.bold then ascii "b" else ascii "r")
  else []

/-- A run of spaces in a string. -/
def spaceRun (len : ℕ) : List Byte :=
  if 29 < len then ascii ")" ++ decimal len ++ ascii " t(" else ascii ")" ++ [.ofNat 8 (len - 4 + 65)] ++ ascii "("

/-- The loop of `output_line()`; the last value is `started`. -/
def outputLoop (unicode : Bool) (line : List ℕ) (lineAttr : List Byte) :
    ℕ → ℕ → Bool → Bool → Pen → Except Fault (List Byte × Pen × Bool)
  | 0, _, _, _, _ => .error .endless
  | fuel + 1, pos, started, newindent, pen => do
    let c ← peek line pos
    if c = 0 then return ([], pen, started)
    else
      let len ← wcsspn line pos
      if 3 < len then
        let (out, pen, started) ← outputLoop unicode line lineAttr fuel (pos + len) started newindent pen
        return (spaceRun len ++ out, pen, started)
      else
        let a ← (if c = 32 then .ok 0 else peek lineAttr pos)
        let pen := pen.select c a
        let change := pen.changeFont started newindent
        let (out, pen, started') ← outputLoop unicode line lineAttr fuel (pos + 1) true false { pen with fontChanged := false }
        return (change ++ (if started then [] else ascii "(") ++ characterBytes unicode c ++ out, pen, started')

/-- `output_line()`. -/
def outputLine (skip : ℕ) (unicode : Bool) (line : List ℕ) (lineAttr : List Byte) (pen : Pen) :
    Except Fault (List Byte × Pen) := do
  let len ← wcsspn line skip
  let indented := if len = pen.indent then [] else decimal len ++ ascii " i"
  let (out, pen', started) ← outputLoop unicode line lineAttr (line.length + 1) (skip + len) false (len ≠ pen.indent)
    { pen with indent := len }
  return (indented ++ out ++ (if started then ascii ")p\n" else []), pen')

/-! ## The second pass -/

/-- The variables of `pass2()`. -/
structure Printing where
  currentPage : ℕ
  linen : ℕ
  linen2 : ℕ
  nlpend : ℕ
  writ : Bool
  pen : Pen

def Printing.start : Printing := ⟨1, 0, 0, 0, false, ⟨false, false, 0⟩⟩

/-- `startpage()`. -/
def startpage (page : ℕ) (rotate : List Byte) : List Byte :=
  ascii "%%Page: " ++ decimal page ++ ascii " " ++ decimal page ++ ascii "\n%%BeginPageSetup\n/page " ++ decimal page ++
    ascii " def\nsp\n" ++ rotate ++ ascii "%%EndPageSetup\n"

/-- The newlines that are pending. -/
def newlines (nlpend : ℕ) : List Byte :=
  if nlpend = 0 then [] else if nlpend = 1 then ascii "n\n" else decimal nlpend ++ ascii " nx\n"

/-- A line that is not blank. -/
def printText (l : Layout) (r : Reader) (p : Printing) : Except Fault (List Byte × Printing × Reader) := do
  let opening := if p.writ then [] else startpage p.currentPage l.rotate
  let pen := if p.writ then p.pen else { p.pen with bold := false, indent := 0 }
  let (underlines, line, retval) ← underline l.leftSkip r.line r.lineAttr
  if retval then
    let (out, pen) ← outputLine l.leftSkip l.unicode line r.lineAttr pen
    return (opening ++ newlines p.nlpend ++ underlines ++ out, { p with writ := true, nlpend := 0, pen }, { r with line })
  else
    return (opening ++ newlines p.nlpend ++ underlines, { p with writ := true, nlpend := 1, pen }, { r with line })

/-- A line of a page, and whether the page is filled. -/
def printLine (l : Layout) (r : Reader) (len : ℕ) (p : Printing) :
    Except Fault (List Byte × Printing × Reader × Bool) := do
  let p := { p with linen := p.linen + 1 }
  if p.linen ≤ l.topSkip then return ([], p, r, false)
  else
    let p := { p with linen2 := p.linen2 + 1 }
    if len = 0 then return ([], { p with nlpend := p.nlpend + 1 }, r, p.linen2 = l.linesPerPage)
    else
      let (out, p, r) ← printText l r p
      return (out, p, r, p.linen2 = l.linesPerPage)

/-- The end of a page: what is written, and the number of pages up to it. -/
def Printing.endPage (p : Printing) : List Byte × ℕ :=
  if p.writ then (ascii "ep\n\n", p.currentPage) else ([], p.currentPage - 1)

/-- The beginning of the next page. -/
def Printing.nextPage (p : Printing) : Printing :=
  { p with currentPage := p.endPage.2 + 1, linen := 0, linen2 := 0, nlpend := 0, writ := false }

/-- The loops of `pass2()`: what is written, the lines that are read, and the number of pages. -/
def pass2 (readline : Reader → Except Fault (Option ℕ × Reader)) (l : Layout) :
    ℕ → Reader → Printing → Except Fault (List Byte × List Line × ℕ)
  | 0, _, _ => .error .endless
  | fuel + 1, r, p => do
    let (len, r) ← readline r
    match len with
    | none => return (p.endPage.1, [], p.endPage.2)
    | some len =>
      let got ← r.returned len
      if r.formfeed then
        let (out, lines, pages) ← pass2 readline l fuel r p.nextPage
        return (p.endPage.1 ++ out, got :: lines, pages)
      else
        let (text, p, r, filled) ← printLine l r len p
        let (out, lines, pages) ← pass2 readline l fuel r (if filled then p.nextPage else p)
        return (text ++ (if filled then p.endPage.1 else []) ++ out, got :: lines, pages)

/-- The buffers before the first pass. -/
def Settings.reader (t : Settings) (input : List Byte) : Reader :=
  ⟨input, List.replicate (t.maxWidth + t.tabWidth + 1) 0, List.replicate (t.maxWidth + t.tabWidth) 0, false, false, 0, 0⟩

/-- Both passes: the lines that each of them has read, what is written, and the number of pages. -/
def passes (m : Mode) (t : Settings) (o : PageLength) (unicode : Bool) (rotate : List Byte) (fuel : ℕ) (input : List Byte) :
    Except Fault (List Line × List Line × List Byte × ℕ) := do
  let (v, lines1, r) ← pass1 (m.readline t) fuel (t.reader input) Survey.start
  let (out, lines2, pages) ← pass2 (m.readline t) (v.layout o unicode rotate) fuel { r with stdin := input } Printing.start
  return (lines1, lines2, out, pages)

end Ppr.FilterLp
