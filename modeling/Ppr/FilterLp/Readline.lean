import Ppr.Libgu.Utf8Decode

/-!
# The line readers of the line printer filter

`readline_normal()`, `readline_utf_8()` and `readline_fortran()` of `filter_lp.c`.  Every access to `line[]` and
`line_attr[]` is checked.
-/

namespace Ppr.FilterLp

inductive Fault where
  /-- An access that is not in the array. -/
  | wild
  /-- A loop that is not left. -/
  | endless
  deriving DecidableEq

/-- `ATTR_BOLD`. -/
def attrBold : Byte := 1

/-- `ATTR_UNDERLINE`. -/
def attrUnderline : Byte := 2

/-- `MAX_WIDTH` and `TAB_WIDTH` as `main()` accepts them, and `auto_lf`. -/
structure Settings where
  maxWidth : ℕ
  tabWidth : ℕ
  autoLf : Bool
  width_ok : 10 ≤ maxWidth ∧ maxWidth ≤ 1000
  tab_ok : 1 ≤ tabWidth

/-- What is left of standard input, the arrays, the flag for the caller, and the static variables: `formfeed_pending`
of the first two readers, `column` and `linenum` of the third. -/
structure Reader where
  stdin : List Byte
  line : List ℕ
  lineAttr : List Byte
  formfeed : Bool
  formfeedPending : Bool
  column : ℕ
  linenum : ℕ

variable {α : Type}

/-- The item at an index. -/
def peek (block : List α) (i : ℤ) : Except Fault α :=
  if 0 ≤ i then (block[i.toNat]?).elim (.error .wild) .ok else .error .wild

/-- An item is replaced. -/
def poke (block : List α) (i : ℤ) (a : α) : Except Fault (List α) :=
  if 0 ≤ i ∧ i.toNat < block.length then .ok (block.set i.toNat a) else .error .wild

/-! ## Normal text -/

/-- The variables while a line is read. -/
structure Scan where
  stdin : List Byte
  line : List ℕ
  lineAttr : List Byte
  count : ℤ
  maxcount : ℤ

namespace Scan

/-- What is already there stays, and nothing becomes a space. -/
def advance (s : Scan) : Except Fault Scan := do
  let c ← peek s.line s.count
  let line ← (if c = 0 then poke s.line s.count 32 else .ok s.line)
  return { s with line, count := s.count + 1 }

/-- The loop of a tab. -/
def tab : ℕ → Scan → Except Fault Scan
  | 0, s => .ok s
  | x + 1, s => do
    let s ← s.advance
    tab x s

/-- `line_attr[count] |= attr`. -/
def mark (attr : Byte) (s : Scan) : Except Fault Scan := do
  let a ← peek s.lineAttr s.count
  let lineAttr ← poke s.lineAttr s.count (a ||| attr)
  return { s with lineAttr }

/-- A character is stored, or made bold if it is there already. -/
def strike (c : ℕ) (s : Scan) : Except Fault Scan := do
  let d ← peek s.line s.count
  if d = c then
    let s ← s.mark attrBold
    return { s with count := s.count + 1 }
  else
    let line ← poke s.line s.count c
    return { s with line, count := s.count + 1 }

end Scan

/-- Why the loop over the characters is left. -/
inductive Stop where
  | eof
  | endOfLine
  | formfeed
  deriving DecidableEq

/-- The switch for a character that is not EOF. -/
def character (t : Settings) (c : ℕ) (s : Scan) : Except Fault (Scan × Option Stop) :=
  if c = 0 then .ok (s, none)
  else if c = 8 then .ok ({ s with count := s.count - 1 }, none)
  else if c = 9 then do
    let s ← s.tab (t.tabWidth - s.count.tmod t.tabWidth).toNat
    return (s, none)
  else if c = 13 ∧ t.autoLf = false then .ok ({ s with count := 0 }, none)
  else if c = 13 ∨ c = 10 then .ok (s, some .endOfLine)
  else if c = 12 then .ok (s, some .formfeed)
  else if c = 95 then do
    let s ← s.mark attrUnderline
    let s ← s.advance
    return (s, none)
  else if c = 32 then do
    let s ← s.advance
    return (s, none)
  else do
    let s ← s.strike c
    return (s, none)

/-- The loop over the characters. -/
def scan (t : Settings) (get : List Byte → Option ℕ × List Byte) : ℕ → Scan → Except Fault (Scan × Stop)
  | 0, _ => .error .endless
  | fuel + 1, s =>
    let s := { s with maxcount := max s.maxcount s.count }
    if (t.maxWidth : ℤ) ≤ s.count then .ok (s, .endOfLine)
    else
      match get s.stdin with
      | (none, stdin) => .ok ({ s with stdin }, .eof)
      | (some c, stdin) => do
        let (s, stop) ← character t c { s with stdin }
        stop.elim (scan t get fuel s) fun stop => .ok (s, stop)

/-- Trailing spaces are removed. -/
def trim (lineAttr : List Byte) : ℕ → List ℕ → Except Fault (ℕ × List ℕ)
  | 0, line => .ok (0, line)
  | count + 1, line => do
    let c ← peek line count
    if c = 32 then
      let a ← peek lineAttr count
      if a = 0 then
        let line ← poke line count 0
        trim lineAttr count line
      else return (count + 1, line)
    else return (count + 1, line)

/-- `readline_normal()` and `readline_utf_8()`, which differ in the function that gets a character: what is returned,
nothing for -1. -/
def readline (t : Settings) (get : List Byte → Option ℕ × List Byte) (r : Reader) : Except Fault (Option ℕ × Reader) :=
  if r.formfeedPending then .ok (some 0, { r with formfeedPending := false, formfeed := true })
  else do
    let (s, stop) ← scan t get (r.stdin.length + 1)
      ⟨r.stdin, List.replicate (t.maxWidth + t.tabWidth + 1) 0, List.replicate (t.maxWidth + t.tabWidth) 0, 0, 0⟩
    if stop = .eof ∧ s.maxcount = 0 then
      return (none, { r with stdin := s.stdin, line := s.line, lineAttr := s.lineAttr, formfeed := false })
    else
      let (len, line) ← trim s.lineAttr s.maxcount.toNat s.line
      return (some len,
        { r with
          stdin := s.stdin
          line
          lineAttr := s.lineAttr
          formfeed := stop = .formfeed ∧ s.count = 0
          formfeedPending := stop = .formfeed ∧ s.count ≠ 0 })

/-- `fgetc()`. -/
def fgetc : List Byte → Option (Byte × List Byte)
  | [] => none
  | c :: l => some (c, l)

def getNormal (stdin : List Byte) : Option ℕ × List Byte :=
  (fgetc stdin).elim (none, stdin) fun (c, rest) => (some c.toNat, rest)

/-- `gu_utf8_fgetwc()`. -/
def guUtf8Fgetwc (stdin : List Byte) : Option ℕ × List Byte :=
  let (wc, rest) := Utf8.guUtf8Getwc fgetc stdin
  (if wc = 0 then none else some wc, rest)

def readlineNormal (t : Settings) (r : Reader) : Except Fault (Option ℕ × Reader) := readline t getNormal r

def readlineUtf8 (t : Settings) (r : Reader) : Except Fault (Option ℕ × Reader) := readline t guUtf8Fgetwc r

/-! ## FORTRAN carriage control -/

/-- The loop of a tab. -/
def fortranTab : ℕ → List ℕ → ℕ → Except Fault (List ℕ × ℕ)
  | 0, line, len => .ok (line, len)
  | x + 1, line, len => do
    let line ← poke line len 32
    fortranTab x line (len + 1)

/-- The loop over the characters behind the control character: what is left, the line, its length, `column`, and
whether the loop was left for a newline. -/
def fortranScan (t : Settings) : List Byte → List ℕ → ℕ → ℕ → Except Fault (List Byte × List ℕ × ℕ × ℕ × Bool)
  | [], line, len, column => .ok ([], line, len, column, false)
  | c :: stdin, line, len, column =>
    if t.maxWidth ≤ len then .ok (c :: stdin, line, len, column, false)
    else if c = 10 then .ok (stdin, line, len, column, true)
    else if c = 13 then fortranScan t stdin line len (column + 1)
    else if c = 9 then do
      let (line, len) ← fortranTab (t.tabWidth - len % t.tabWidth) line len
      fortranScan t stdin line len (column + 1)
    else do
      let line ← poke line len c.toNat
      fortranScan t stdin line (len + 1) (column + 1)

/-- Trailing spaces are not counted. -/
def fortranTrim (line : List ℕ) : ℕ → Except Fault ℕ
  | 0 => .ok 0
  | len + 1 => do
    let c ← peek line len
    if c = 32 then fortranTrim line len else return len + 1

/-- What is behind the control character. -/
def fortranRest (t : Settings) (r : Reader) : Except Fault (Option ℕ × Reader) := do
  let (stdin, line, len, column, newline) ← fortranScan t r.stdin (List.replicate (t.maxWidth + t.tabWidth + 1) 0) 0 r.column
  let len ← fortranTrim line len
  let line ← poke line len 0
  return (some len,
    { r with
      stdin
      line
      lineAttr := List.replicate (t.maxWidth + t.tabWidth) 0
      formfeed := false
      column := if newline then 0 else column
      linenum := r.linenum + 1 })

/-- `readline_fortran()`. -/
def readlineFortran (t : Settings) (r : Reader) : Except Fault (Option ℕ × Reader) :=
  if r.column = 0 then
    match r.stdin with
    | [] => .ok (none, { r with formfeed := false, column := 0, linenum := 0 })
    | c :: stdin =>
      if c = 49 ∧ 0 < r.linenum then .ok (some 0, { r with stdin, formfeed := true, column := 1 })
      else fortranRest t { r with stdin, column := 1 }
  else fortranRest t { r with column := r.column + 1 }

/-- The function in `readline`. -/
inductive Mode where
  | normal
  | utf8
  | fortran
  deriving DecidableEq

def Mode.readline : Mode → Settings → Reader → Except Fault (Option ℕ × Reader)
  | .normal => readlineNormal
  | .utf8 => readlineUtf8
  | .fortran => readlineFortran

end Ppr.FilterLp
