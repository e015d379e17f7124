import Ppr.Libgu.Strings
import Ppr.Ppad.ConfEdits

/-!
# Switchsets

`make_switchset_line()` of `ppad_util.c` and the `ppad switchset` commands, which keep a list of
switches in the configuration file of a destination; `cache_info()` of `ppr_conffile.c` and
`parse_switchset()` of `ppr_main.c`, which take it from there.  The other lines that `cache_info()`
takes are left out.
-/

namespace Ppr

/-! ## The options of ppr -/

/-- An entry of `option_words[]`. -/
structure OptionWord where
  name : List Byte
  code : ℕ
  needsarg : Bool
  deriving DecidableEq

/-- An entry whose code is a short option. -/
def OptionWord.short (name : String) (c : Char) (needsarg : Bool) : OptionWord :=
  ⟨ascii name, c.toNat, needsarg⟩

def OptionWord.long (name : String) (code : ℕ) (needsarg : Bool) : OptionWord :=
  ⟨ascii name, code, needsarg⟩

/-- `option_description_string`. -/
def optionDescriptionString : List Byte :=
  ascii "d:e:f:i:m:r:b:t:w:D:F:T:q:B:N:n:C:H:R:Z:O:K:s:P:Io:UY:u:G:Q:"

/-- `option_words[]`. -/
def optionWords : List OptionWord :=
  [.short "queue" 'd' true, .short "for" 'f' true, .short "user" 'u' true, .short "banner" 'b' true,
    .short "trailer" 't' true, .short "errors" 'e' true, .short "warnings" 'w' true,
    .short "proofmode" 'P' true, .short "unlink" 'U' false, .short "signature" 's' true,
    .short "n-up" 'N' true, .short "draft-notice" 'O' true, .short "split" 'Y' true,
    .short "default-medium" 'D' true, .short "priority" 'q' true, .short "auto-bin-select" 'B' true,
    .short "read" 'R' true, .short "require-eof" 'Z' true, .short "truetype" 'Q' true,
    .short "keep-bad-features" 'K' true, .short "filter-options" 'o' true,
    .short "title" 'C' true, .short "feature" 'F' true, .short "gab" 'G' true, .short "hack" 'H' true,
    .short "routing" 'i' true, .short "responder" 'm' true, .short "copies" 'n' true,
    .short "responder-address" 'r' true, .short "file-type" 'T' true, .long "features" 1000 false,
    .long "ipp-priority" 1002 true, .long "lpq-filename" 1003 true, .long "hold" 1004 false,
    .long "responder-options" 1005 true, .long "show-jobid" 1006 false, .long "charge-to" 1008 true,
    .long "editps-level" 1009 true, .long "markup" 1010 true, .long "page-list" 1012 true,
    .long "strip-fontindex" 1015 true, .long "strip-printer" 1016 true, .long "save" 1017 false,
    .long "question" 1018 true, .long "ripopts" 1019 true, .long "commentary" 1100 true,
    .long "print-id-to-fd" 2000 true, .long "skeleton-create" 2001 false,
    .long "skeleton-jobid" 2002 true, .long "help" 9000 false, .long "version" 9001 false]

/-- What is found of a letter by `strchr()`: whether a colon follows it. -/
def shortNeedsArg (c : Byte) : Option Bool :=
  match optionDescriptionString.dropWhile (· ≠ c) with
  | [] => none
  | _ :: rest => some (rest.head? = some 58)

/-- A call of `doopt_pass2()`; a null pointer is `none`. -/
structure OptCall where
  optchar : ℕ
  optarg : Option (List Byte)
  option : List Byte
  deriving DecidableEq

/-! ## ppad -/

/-- How the piece for a switch begins, and what stands before its argument. -/
def switchStart : List Byte → Option (List Byte × List Byte)
  | 45 :: 45 :: name => some (45 :: name, [61])
  | [45, c] => some ([c], [])
  -- Also for "-" alone, where the test for a third character is made behind the end of the word.
  | _ => none

/-- The loop of `make_switchset_line()`: each round writes a piece, and a separator stands before each
piece but the first. -/
def switchPieces : List (List Byte) → Option (List (List Byte))
  | [] => some []
  | [w] => (switchStart w).map fun start => [start.1]
  | w :: a :: words =>
    match switchStart w with
    | none => none
    | some (piece, sep) =>
      if a.head? = some 45 then (switchPieces (a :: words)).map (piece :: ·)
      else (switchPieces words).map ((piece ++ sep ++ a) :: ·)

/-- `make_switchset_line()`. -/
def makeSwitchsetLine (argv : List (List Byte)) : Option (List Byte) :=
  match argv with
  | [] => some []
  | w :: _ =>
    if sameWord w (ascii "none") then some []
    else (switchPieces argv).map (List.intercalate [124])

/-- `conf_set_name()` with no other process at the file. -/
def confSetName (e : ConfEdit) (conf : List Byte) : List Byte :=
  let lines := (rawLines conf).map chop
  (lines.takeWhile fun l => !e.matches l).flatMap (· ++ [newline]) ++ e.line ++
    ((lines.dropWhile fun l => !e.matches l).tail.filter fun l => !e.matches l).flatMap
      (· ++ [newline])

/-- `sizeof(newset)`. -/
def newsetSize : ℕ := 256

/-- What becomes of the configuration file. -/
inductive SwitchsetStored where
  /-- "Bad set of switches." -/
  | rejected
  /-- The line does not fit in `newset[]`. -/
  | overflow
  | stored (conf : List Byte)
  deriving DecidableEq

/-- `command_switchset()`, `command_group_switchset()` and `command_alias_switchset()`. -/
def commandSwitchset (conf : List Byte) (argv : List (List Byte)) : SwitchsetStored :=
  match makeSwitchsetLine argv with
  | none => .rejected
  | some line =>
    if newsetSize ≤ line.length then .overflow
    else
      .stored (confSetName
        { name := ascii "Switchset", value := if line = [] then none else some line } conf)

/-! ## ppr -/

/-- The text of a "Switchset:" line; `isAlias` says that the file is that of an alias. -/
def switchsetText (isAlias : Bool) (line : List Byte) : Option (List Byte) :=
  if isAlias then
    match guSscanf (scanFormat "Switchset: %T") line with
    | [x] => some x.string
    | _ => none
  else lmatchp line "Switchset:"

/-- A "Switchset:" line after others. -/
def addSwitchset (isAlias : Bool) (switchset : Option (List Byte)) (text : List Byte) : List Byte :=
  match switchset with
  | none => text
  | some s => if isAlias then text else s ++ ascii " " ++ text

/-- The texts of the "Switchset:" lines of a file. -/
def switchsetTexts (isAlias : Bool) (conf : List Byte) : List (List Byte) :=
  ((rawLines conf).map chop).filterMap (switchsetText isAlias)

/-- What `cache_info()` leaves in `switchset`. -/
def cacheSwitchset (isAlias : Bool) (conf : List Byte) : Option (List Byte) :=
  (switchsetTexts isAlias conf).foldl (fun switchset text => some (addSwitchset isAlias switchset text))
    none

/-- One option of `parse_switchset()`, if it is an option. -/
def parseOption (optchar : Byte) (argument : List Byte) : Option OptCall :=
  if optchar = 45 then
    let value := if 61 ∈ argument then some ((argument.dropWhile (· ≠ 61)).tail) else none
    match optionWords.find? fun w => w.name = argument.takeWhile (· ≠ 61) with
    | none => none
    | some w => if w.needsarg = value.isSome then some ⟨w.code, value, w.name⟩ else none
  else
    match shortNeedsArg optchar with
    | none => none
    | some needsarg =>
      if needsarg = decide (argument ≠ []) then some ⟨optchar.toNat, some argument, []⟩ else none

/-- The loop of `parse_switchset()`: the calls, and whether it comes to its end. -/
def parseSwitchsetLoop : ℕ → List Byte → List OptCall × Bool
  | _, [] => ([], true)
  | 0, _ :: _ => ([], true)
  | n + 1, optchar :: line =>
    match parseOption optchar (line.takeWhile (· ≠ 124)) with
    | none => ([], false)
    | some call =>
      let r := parseSwitchsetLoop n (line.dropWhile (· ≠ 124)).tail
      (call :: r.1, r.2)

/-- `parse_switchset()`. -/
def parseSwitchset (switchset : List Byte) : List OptCall × Bool :=
  parseSwitchsetLoop switchset.length switchset

/-- The calls made for the switchset of a destination. -/
def switchsetCalls (isAlias : Bool) (conf : List Byte) : List OptCall × Bool :=
  match cacheSwitchset isAlias conf with
  | none => ([], true)
  | some s => parseSwitchset s

/-! ## Switches -/

/-- A switch of ppr with its argument. -/
inductive PprSwitch where
  | short (c : Byte) (arg : Option (List Byte)) (h : shortNeedsArg c = some arg.isSome)
  /-- `joined` says that the argument is given as "--name=argument". -/
  | long (w : OptionWord) (arg : Option (List Byte)) (joined : Bool)
    (h : w ∈ optionWords ∧ w.needsarg = arg.isSome)

/-- The words for a switch. -/
def PprSwitch.words : PprSwitch → List (List Byte)
  | .short c arg _ => [45, c] :: arg.toList
  | .long w none _ _ => [45 :: 45 :: w.name]
  | .long w (some a) false _ => [45 :: 45 :: w.name, a]
  | .long w (some a) true _ => [45 :: 45 :: w.name ++ [61] ++ a]

/-- The call of the option handler for a switch. -/
def PprSwitch.call : PprSwitch → OptCall
  | .short c arg _ => ⟨c.toNat, some (arg.getD []), []⟩
  | .long w arg _ _ => ⟨w.code, arg, w.name⟩

end Ppr
