import Ppr.Lib.Ascii

/-!
# Lines from an interface

`query_getline()` of `query.c`: what an interface writes to stdout and to stderr is read as it comes and
returned in lines.
-/

namespace Ppr.Query

/-- `sizeof(q->buf_stdout)`, and of `buf_stderr`. -/
def bufferSize : ℕ := 512

def EndsALine (c : Byte) : Prop := c = 10 ∨ c = 13

instance : DecidablePred EndsALine := fun c => inferInstanceAs (Decidable (c = 10 ∨ c = 13))

/-- Control-d and form feed. -/
def Mark (c : Byte) : Prop := c = 4 ∨ c = 12

instance : DecidablePred Mark := fun c => inferInstanceAs (Decidable (c = 4 ∨ c = 12))

/-- `memchr()`, as an offset. -/
def memchr (c : Byte) (buf : List Byte) : Option ℕ := buf.findIdx? fun d => d = c

/-- Where the search in the stdout buffer finds the end of a line. -/
def stdoutEnd (buf : List Byte) : Option ℕ :=
  match memchr 10 buf with
  | some p =>
    match memchr 13 buf with
    | some p₂ => if p₂ < p then some p₂ else some p
    | none => some p
  | none => memchr 13 buf

/-- Where the search in the stderr buffer does. -/
def stderrEnd (buf : List Byte) : Option ℕ :=
  match memchr 10 buf with
  | some p => some p
  | none => memchr 13 buf

/-- What is done about a line in a buffer, given `last_stdout_crlf`: the line, if one is returned, and
what `last_stdout_crlf` and the buffer are then. -/
abbrev Scanner := Byte → List Byte → Option (List Byte) × Byte × List Byte

/-- The stdout buffer is looked at until there is a line to return. -/
def stdoutLine : Scanner
  | last, [] => (none, last, [])
  | last, c :: rest =>
    if c = 4 then (some [4], last, rest)
    else if c = 12 then (some [12], last, rest)
    else
      match stdoutEnd (c :: rest) with
      | some 0 => if c ≠ last then stdoutLine c rest else (some [], c, rest)
      | some (p + 1) =>
        (some (cstr ((c :: rest).take (p + 1))), (c :: rest).getD (p + 1) 0, rest.drop (p + 1))
      | none => (none, last, c :: rest)

/-- The stderr buffer; `last_stdout_crlf` has nothing to do with it. -/
def stderrLine : Scanner := fun last buf =>
  match stderrEnd buf with
  | some p => (some (cstr (buf.take p)), last, buf.drop (p + 1))
  | none => (none, last, buf)

/-- A pipe, with the buffer for what comes out of it. -/
structure Stream where
  last : Byte := 0
  buf : List Byte := []
  pending : List Byte
  eof : Bool := false
  deriving DecidableEq

/-- `read()`, when there are `k + 1` bytes in the pipe, or as many as are still to come. -/
def Stream.read (k : ℕ) (s : Stream) : Stream :=
  let n := min (k + 1) (bufferSize - s.buf.length)
  { s with
    buf := s.buf ++ s.pending.take n
    pending := s.pending.drop n
    eof := (s.pending.take n).isEmpty }

/-- The stream when `select()` reports on it. -/
def Stream.ready (r : Option ℕ) (s : Stream) : Stream :=
  match r with
  | some k => if s.eof then s else s.read k
  | none => s

structure Session where
  out : Stream
  err : Stream
  deriving DecidableEq

/-- What `select()` reports: which of the pipes can be read, and how much is in them. -/
structure Round where
  out : Option ℕ
  err : Option ℕ
  deriving DecidableEq

inductive Result where
  | line (isStderr : Bool) (text : List Byte) (s : Session) (rounds : List Round)
  /-- NULL is returned. -/
  | null
  /-- "??? 1 ???" or "??? 2 ???" is thrown. -/
  | thrown
  /-- There is no more to `select()`. -/
  | waiting
  deriving DecidableEq

/-- `query_getline()`. -/
def queryGetline (rounds : List Round) (s : Session) : Result :=
  if s.out.eof ∧ s.err.eof then .null
  else
    match stdoutLine s.out.last s.out.buf with
    | (some text, last, buf) => .line false text ⟨{ s.out with last, buf }, s.err⟩ rounds
    | (none, last, buf) =>
      if buf.length = bufferSize then .thrown
      else
        match stderrLine s.err.last s.err.buf with
        | (some text, last', buf') =>
          .line true text ⟨{ s.out with last, buf }, { s.err with last := last', buf := buf' }⟩ rounds
        | (none, _, buf') =>
          if buf'.length = bufferSize then .thrown
          else
            match rounds with
            | [] => .waiting
            | r :: rest =>
              queryGetline rest ⟨Stream.ready r.out { s.out with last, buf }, s.err.ready r.err⟩

/-- How a sequence of calls ends. -/
inductive Ended where
  | null | thrown | waiting | unfinished
  deriving DecidableEq

/-- The lines that at most so many calls return. -/
def calls : ℕ → List Round → Session → List (Bool × List Byte) × Ended
  | 0, _, _ => ([], .unfinished)
  | n + 1, rounds, s =>
    match queryGetline rounds s with
    | .line isStderr text s rounds =>
      let (lines, ended) := calls n rounds s
      ((isStderr, text) :: lines, ended)
    | .null => ([], .null)
    | .thrown => ([], .thrown)
    | .waiting => ([], .waiting)

/-- The interface is going to write these. -/
def connected (out err : List Byte) : Session := ⟨{ pending := out }, { pending := err }⟩

/-! ## What the lines are -/

/-- A line and the bytes that end it. -/
structure Line where
  text : List Byte
  ended : List Byte
  deriving DecidableEq

/-- A text divided at LF, CR, CRLF and LFCR; where there are marks, one at the beginning of a line is a
line of its own.  `cur` is what there is of the first line already. -/
def divide (marks : Bool) (cur : List Byte) : List Byte → List Line
  | [] => []
  | [c] =>
    if EndsALine c then [⟨cur, [c]⟩]
    else if marks ∧ cur = [] ∧ Mark c then [⟨[c], []⟩]
    else []
  | c :: d :: rest =>
    if EndsALine c then
      if EndsALine d ∧ d ≠ c then ⟨cur, [c, d]⟩ :: divide marks [] rest
      else ⟨cur, [c]⟩ :: divide marks [] (d :: rest)
    else if marks ∧ cur = [] ∧ Mark c then ⟨[c], []⟩ :: divide marks [] (d :: rest)
    else divide marks (cur ++ [c]) (d :: rest)

/-- The text cut at each LF and CR; what is not ended yet comes last. -/
def pieces (marks : Bool) (cur : List Byte) : List Byte → List Line
  | [] => [⟨cur, []⟩]
  | c :: rest =>
    if EndsALine c then ⟨cur, [c]⟩ :: pieces marks [] rest
    else if marks ∧ cur = [] ∧ Mark c then ⟨[c], []⟩ :: pieces marks [] rest
    else pieces marks (cur ++ [c]) rest

/-- The lines are shorter than the buffer. -/
def Short (marks : Bool) (text : List Byte) : Prop :=
  ∀ l ∈ pieces marks [] text, l.text.length < bufferSize

/-- The schedule lets both pipes be read to their ends. -/
def Enough (rounds : List Round) (out err : List Byte) : Prop :=
  out.length < (rounds.filterMap (·.out)).length ∧ err.length < (rounds.filterMap (·.err)).length

end Ppr.Query
