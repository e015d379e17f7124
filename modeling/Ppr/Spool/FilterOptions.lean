import Ppr.Libgu.Sscanf
import Ppr.Libgu.Strings
import Ppr.Pprdrv.Dgetline

/-!
# Filter options

The option string that `exec_tops_filter()` of `ppr_infile.c` hands to a filter.  It is put together from
the options that other switches imply, the "DefFiltOpts:" line of the destination that `cache_info()` of
`ppr_conffile.c` finds, and the `-o` switches, whose syntax `main()` of `ppr_main.c` has checked.
-/

namespace Ppr

/-! ## The syntax of the `-o` switch -/

/-- What is wrong with an option. -/
inductive OptionError where
  | spaceBefore
  | notKeyword
  | noValue
  | spaceAfter
  | unclosedQuote
  deriving DecidableEq

def OptionError.message : OptionError → String
  | .spaceBefore => "spaces may not precede \"=\" in filter options"
  | .notKeyword => "filter options must take form keyword=value"
  | .noValue => "last -o keyword has no value"
  | .spaceAfter => "spaces may not follow \"=\" in filter options"
  | .unclosedQuote => "unclosed quote in filter option value"

/-- An option, and the text that follows it. -/
structure FilterOption where
  keyword : List Byte
  value : List Byte
  behind : List Byte
  deriving DecidableEq

/-- The text up to and including the closing quote, and what is behind it. -/
def closingQuote (lastc : Byte) : List Byte → Option (List Byte × List Byte)
  | [] => none
  | c :: s =>
    if c = 34 ∧ lastc ≠ 92 then some ([c], s)
    else (closingQuote c s).map fun r => (c :: r.1, r.2)

/-- The value of an option. -/
def readValue : List Byte → Except OptionError (List Byte × List Byte)
  | [] => .error .noValue
  | c :: s =>
    if isspace c then .error .spaceAfter
    else if c ≠ 34 then .ok ((c :: s).takeWhile (!isBlank ·), (c :: s).dropWhile (!isBlank ·))
    else
      match closingQuote 0 s with
      | none => .error .unclosedQuote
      | some r => .ok (c :: r.1, r.2)

/-- The end of a keyword. -/
def isKeywordEnd (c : Byte) : Bool := isBlank c || c = 61

/-- One turn of the check. -/
def readOption (s : List Byte) : Except OptionError FilterOption :=
  match s.dropWhile (!isKeywordEnd ·) with
  | [] => .error .notKeyword
  | c :: t =>
    if isspace c then .error .spaceBefore
    else if c ≠ 61 then .error .notKeyword
    else
      match readValue t with
      | .error e => .error e
      | .ok r => .ok ⟨s.takeWhile (!isKeywordEnd ·), r.1, r.2⟩

/-- The check, with the options that it passes over, `n` of them at most. -/
def readLoop : ℕ → List Byte → Except OptionError (List FilterOption)
  | 0, _ => .ok []
  | n + 1, s =>
    match s.dropWhile isBlank with
    | [] => .ok []
    | c :: t =>
      match readOption (c :: t) with
      | .error e => .error e
      | .ok o => (readLoop n o.behind).map (o :: ·)

/-- The options in a string. -/
def readOptions (s : List Byte) : Except OptionError (List FilterOption) := readLoop s.length s

/-! ## The default options -/

/-- The configuration files, by the name of the destination. -/
structure ConfFiles where
  aliases : List Byte → Option (List Byte)
  groups : List Byte → Option (List Byte)
  printers : List Byte → Option (List Byte)

/-- The last line of the file with this format, which has one conversion. -/
def lastLine (format : String) (file : List Byte) : Option (List Byte) :=
  (rawLines file).foldl (fun found l =>
    match guSscanf (scanFormat format) (chop l) with
    | [v] => some v.string
    | _ => found) none

/-- The "DefFiltOpts:" line of a group or printer. -/
def groupOrPrinterOpts (conf : ConfFiles) (name : List Byte) : Option (List Byte) :=
  ((conf.groups name).or (conf.printers name)).bind (lastLine "DefFiltOpts: %T")

/-- `extract_deffiltopts()`; the error is an alias without a "ForWhat:" line. -/
def extractDeffiltopts (conf : ConfFiles) (destname : List Byte) : Except String (Option (List Byte)) :=
  match conf.aliases destname with
  | none => .ok (groupOrPrinterOpts conf destname)
  | some file =>
    match lastLine "ForWhat: %S" file with
    | none => .error "The alias \"%s\" has no \"ForWhat:\" line"
    | some forwhat => .ok (groupOrPrinterOpts conf forwhat)

/-! ## The implied options -/

inductive DuplexMode where
  | none
  | notumble
  | tumble
  | simplextumble
  deriving DecidableEq

def DuplexMode.word : DuplexMode → String
  | .none => "none"
  | .notumble => "notumble"
  | .tumble => "tumble"
  | .simplextumble => "simplextumble"

/-- What implies options. -/
structure Implying where
  /-- The `-F` switches. -/
  features : List (List Byte)
  /-- The duplex setting, if it is enforced. -/
  duplex : Option DuplexMode
  /-- The character set of the locale, if it names one. -/
  charset : Option (List Byte)

def pagesizeOption (name : List Byte) : Option (List Byte) :=
  ((lmatchp name "*PageSize ").or (lmatchp name "*PageRegion ")).map (ascii "pagesize=" ++ ·)

def impliedOptions (i : Implying) : List (List Byte) :=
  i.features.filterMap pagesizeOption ++ (i.duplex.map fun d => ascii "duplex=" ++ ascii d.word).toList ++
    (i.charset.map (ascii "charset=" ++ ·)).toList

/-! ## The filter -/

/-- `FILTDIR`, if `Configure` is not told another directory. -/
def filtdir : List Byte := ascii "/usr/lib/ppr2/filters"

/-- The call of `exec_tops_filter()`: by `no_filter()`, or by `run_appropriate_filter()` with the path of
the filter of this name for both of its arguments. -/
inductive FilterCall where
  | hexdump
  | typed (name : List Byte)

/-- The name of the filter. -/
def FilterCall.name : FilterCall → List Byte
  | .hexdump => ascii "hexdump"
  | .typed name => name

/-- `filter_name[]`. -/
def FilterCall.filterName : FilterCall → List Byte
  | .hexdump => ascii "filter_hexdump"
  | .typed name => filtdir ++ ascii "/filter_" ++ name

/-- `filter_basename`. -/
def FilterCall.basename (f : FilterCall) : List Byte := f.filterName.drop 7

/-! ## Merging -/

/-- Append to the string, with a space if it is not the first option. -/
def addOption (out opt : List Byte) : List Byte := if out.length > 0 then out ++ 32 :: opt else opt

/-- Copy the (possibly quoted) value. -/
def copyValue (qmode : Bool) (lastc : Byte) : List Byte → List Byte × List Byte
  | [] => ([], [])
  | c :: s =>
    if isspace c ∧ qmode = false then ([], c :: s)
    else
      let r := copyValue (if c = 34 ∧ lastc ≠ 92 then !qmode else qmode) c s
      (c :: r.1, r.2)

/-- What is appended for an option, and the text behind it. -/
def copyOption (si : List Byte) : List Byte × List Byte :=
  let keyword := (si.takeWhile (· ≠ 61)).map Pprdrv.tolower
  match si.dropWhile (· ≠ 61) with
  | [] => (keyword, [])
  | c :: s => (keyword ++ c :: (copyValue false 0 s).1, (copyValue false 0 s).2.dropWhile isBlank)

/-- One turn of the loop: what is appended, if anything, and the text that is left. -/
def takeOption (basename si : List Byte) : Option (List Byte) × List Byte :=
  let keyLen := (si.takeWhile (· ≠ 61)).length
  let prefixLen := (si.takeWhile (· ≠ 45)).length
  if prefixLen < keyLen then
    if prefixLen = basename.length ∧ sameWord (si.take basename.length) basename = true then
      (some (copyOption (si.drop (prefixLen + 1))).1, (copyOption (si.drop (prefixLen + 1))).2)
    else (none, (si.dropWhile (!isBlank ·)).dropWhile isBlank)
  else (some (copyOption si).1, (copyOption si).2)

/-- The options of one string, `n` turns at most. -/
def mergeLoop (basename : List Byte) : ℕ → List Byte → List Byte → List Byte
  | 0, _, out => out
  | _, [], out => out
  | n + 1, c :: si, out =>
    mergeLoop basename n (takeOption basename (c :: si)).2
      ((takeOption basename (c :: si)).1.elim out (addOption out))

/-- The strings up to the first that is not there. -/
def siList (deffiltopts options : Option (List Byte)) : List (List Byte) :=
  ([deffiltopts, options].takeWhile Option.isSome).reduceOption

/-- The implied options, and those of the strings. -/
def mergeSources (f : FilterCall) (i : Implying) (deffiltopts options : Option (List Byte)) : List Byte :=
  (siList deffiltopts options).foldl (fun out si => mergeLoop f.basename si.length si out)
    ((impliedOptions i).foldl addOption [])

/-- The options that `exec_tops_filter()` gives to the filter. -/
def execTopsFilter (conf : ConfFiles) (destname : List Byte) (f : FilterCall) (i : Implying)
    (options : Option (List Byte)) : Except String (List Byte) :=
  (extractDeffiltopts conf destname).map fun deffiltopts => mergeSources f i deffiltopts options

/-! ## What the filter should be given -/

/-- The prefix of a keyword, and what is behind the hyphen. -/
def FilterOption.split (o : FilterOption) : Option (List Byte × List Byte) :=
  match o.keyword.dropWhile (· ≠ 45) with
  | [] => none
  | _ :: rest => some (o.keyword.takeWhile (· ≠ 45), rest)

/-- An option as a filter of this name should have it, if it is for the filter. -/
def FilterOption.given (name : List Byte) (o : FilterOption) : Option (List Byte) :=
  match o.split with
  | none => some (o.keyword.map Pprdrv.tolower ++ 61 :: o.value)
  | some (p, rest) =>
    if sameWord p name then some (rest.map Pprdrv.tolower ++ 61 :: o.value) else none

/-- The options in a string that need not be there. -/
def readSource : Option (List Byte) → Except OptionError (List FilterOption)
  | none => .ok []
  | some s => readOptions s

/-- The options of all three sources that are for the filter. -/
def wantedOptions (f : FilterCall) (i : Implying) (ds us : List FilterOption) : List (List Byte) :=
  impliedOptions i ++ (ds ++ us).filterMap (FilterOption.given f.name)

end Ppr
