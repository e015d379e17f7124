import Ppr.Libppr.QEntryKept
import Ppr.Pprdrv.Capable

/-!
# A whole queue file

`write_queue_file()` of `ppr_main.c` with the sections that come behind what `qentryfile_save()`
writes, and what a file holds after it was opened again without truncation.  The names in the
sections are given as they are printed; the length of the PJL is a natural number.
-/

namespace Ppr

open QEntryFile Pprdrv

/-! ## The text -/

/-- What the sections of a queue file are written from. -/
structure QueueEntry where
  qentry : QEntryFile
  /-- The name in the media list and the name in the document. -/
  media : List (List Byte × List Byte)
  resources : List ResLine
  requirements : List (List Byte)
  PJL : Option (List Byte)
  features : List (List Byte)

/-- A line of an Addon section. -/
structure AddonLine where
  name : List Byte
  value : List Byte

namespace QueueEntry

/-- The name of a resource between its quotes. -/
def escaped (name : List Byte) : List Byte :=
  name.flatMap fun c => if c = 92 ∨ c = 34 then [92, c] else [c]

def mediaLine (m : List Byte × List Byte) : List Byte := ascii "Media: " ++ m.1 ++ [32] ++ m.2

def resourceLine (r : ResLine) : List Byte :=
  ascii "Res: " ++ (if r.needed then [49] else [48]) ++ [32] ++
    (if r.fixinclude then [49] else [48]) ++ [32] ++ r.type ++ ascii " \"" ++ escaped r.name ++
    ascii "\" " ++ guDtostr r.version ++ [32] ++ cDecimal r.revision

def requirementLine (name : List Byte) : List Byte := ascii "Req: " ++ name

def featureLine (feature : List Byte) : List Byte := ascii "Feature: " ++ feature

def addonLine (a : AddonLine) : List Byte := a.name ++ ascii ": " ++ a.value

/-- Lines with the line that ends their section. -/
def sectionText (lines : List (List Byte)) (marker : String) : List Byte :=
  (lines.flatMap fun l => l ++ [newline]) ++ ascii marker ++ [newline]

def pjlText : Option (List Byte) → List Byte
  | none => []
  | some p => ascii "PJLHint: " ++ decimal p.length ++ [newline] ++ p

/-- The sections behind the Addon section. -/
def setupText (e : QueueEntry) : List Byte :=
  sectionText (e.media.map mediaLine) "EndMedia" ++
    (sectionText (e.resources.map resourceLine) "EndRes" ++
      (sectionText (e.requirements.map requirementLine) "EndReq" ++
        (pjlText e.PJL ++ (sectionText [] "EndPJL" ++
          sectionText (e.features.map featureLine) "EndSetups"))))

/-- A queue file with the lines that `ppop modify` may have put into its Addon section. -/
def text (e : QueueEntry) (addon : List AddonLine) : Option (List Byte) :=
  (qentryfileSave e.qentry).map fun head =>
    head ++ (sectionText (addon.map addonLine) "EndAddon" ++ e.setupText)

/-- The members that `write_queue_file()` sets itself: the cookie is a random number. -/
def withCookie (cookie : BitVec 32) (e : QueueEntry) : QueueEntry :=
  { e with qentry := { e.qentry with magicCookie := some (upperHex 8 cookie.toNat) } }

/-- The text that `write_queue_file()` writes once the strings are accepted. -/
def writeQueueFile (cookie : BitVec 32) (e : QueueEntry) : Option (List Byte) :=
  (e.withCookie cookie).text []

end QueueEntry

open QueueEntry

/-! ## The file -/

/-- What stands in a file behind what was written over its beginning. -/
def leftover (old new : List Byte) : List Byte := old.drop new.length

/-- A file that was opened without `O_TRUNC`, after `new` was written. -/
def overwritten (old new : List Byte) : List Byte := new ++ leftover old new

/-- The file after `write_queue_file()`: with `O_EXCL` it must not exist. -/
def storeQueueFile (overwrite : Bool) (file : Option (List Byte)) (new : List Byte) :
    Option (List Byte) :=
  match file with
  | none => some new
  | some old => if overwrite then some (overwritten old new) else none

/-- A file that was not there has nothing left over. -/
theorem storeQueueFile_eq (file : Option (List Byte)) (new : List Byte) :
    storeQueueFile true file new = some (overwritten (file.getD []) new) := by
  cases file with
  | none => simp [storeQueueFile, overwritten, leftover]
  | some old => rfl

/-! ## Lines of a text that goes on -/

theorem rawLines_concat_append (s t : List Byte) :
    rawLines (s ++ newline :: t) = rawLines (s ++ [newline]) ++ rawLines t := by
  induction s with
  | nil =>
    rw [List.nil_append, List.nil_append, rawLines, if_pos rfl, rawLines, if_pos rfl]
    rfl
  | cons c s ih =>
    by_cases hc : c = newline
    · rw [List.cons_append, rawLines, if_pos hc, ih, List.cons_append, rawLines, if_pos hc,
        List.cons_append]
    · rw [List.cons_append, rawLines, if_neg hc, ih, List.cons_append, rawLines, if_neg hc]
      cases hs : rawLines (s ++ [newline]) with
      | nil =>
        have hflat := flatten_rawLines (s ++ [newline])
        rw [hs] at hflat
        simp at hflat
      | cons l ls => rfl

theorem rawLines_newline_append {s : List Byte} (hs : s.getLast? = some newline) (t : List Byte) :
    rawLines (s ++ t) = rawLines s ++ rawLines t := by
  obtain ⟨r, rfl⟩ := List.getLast?_eq_some_iff.1 hs
  rw [List.append_assoc, List.singleton_append, rawLines_concat_append]

theorem rawLines_singleLine {l : List Byte} (h : newline ∉ l) (t : List Byte) :
    rawLines (l ++ [newline] ++ t) = (l ++ [newline]) :: rawLines t := by
  rw [List.append_assoc, List.singleton_append, rawLines_append h]

/-- A section of single lines. -/
theorem rawLines_sectionText {ls : List (List Byte)} {marker : String} (h : ∀ l ∈ ls, newline ∉ l)
    (hm : newline ∉ ascii marker) (t : List Byte) :
    rawLines (sectionText ls marker ++ t) =
      ls.map (· ++ [newline]) ++ (ascii marker ++ [newline]) :: rawLines t := by
  induction ls with
  | nil =>
    rw [sectionText, List.flatMap_nil, List.nil_append, rawLines_singleLine hm]
    rfl
  | cons l ls ih =>
    obtain ⟨hl, hls⟩ := List.forall_mem_cons.1 h
    have htext : sectionText (l :: ls) marker ++ t = l ++ [newline] ++ (sectionText ls marker ++ t) := by
      simp [sectionText]
    rw [htext, rawLines_singleLine hl, ih hls, List.map_cons, List.cons_append]

theorem getLast?_sectionText (ls : List (List Byte)) (marker : String) :
    (sectionText ls marker).getLast? = some newline := List.getLast?_concat

theorem newline_notMem_resourceLine {r : ResLine} (htype : newline ∉ r.type) (hname : newline ∉ r.name) :
    newline ∉ resourceLine r := by
  have hescaped : newline ∉ QueueEntry.escaped r.name := by
    intro h
    obtain ⟨c, hc, h⟩ := List.mem_flatMap.1 h
    have hne : c ≠ newline := fun e => hname (e ▸ hc)
    split_ifs at h
    · have h92 : newline ≠ 92 := by decide
      exact hne ((List.mem_cons.1 h).resolve_left h92 |> List.mem_singleton.1).symm
    · exact hne (List.mem_singleton.1 h).symm
  have hbool : ∀ b : Bool, newline ∉ if b then ([49] : List Byte) else [48] := by decide
  simp only [resourceLine, List.mem_append, not_or]
  exact ⟨⟨⟨⟨⟨⟨⟨⟨⟨⟨⟨by decide, hbool _⟩, by decide⟩, hbool _⟩, by decide⟩, htype⟩, by decide⟩, hescaped⟩,
    by decide⟩, newline_notMem_guDtostr _⟩, by decide⟩, newline_notMem_cDecimal _⟩

end Ppr
