import Ppr.Libppr.GroupCapabilities
import Ppr.Pprdrv.Precedence

/-!
# The codes that can be sent to a printer

queueinfo and pprdrv read the configuration file and the PPD file of a printer each in its own way.
`do_printer_ppd()` stores the default for codes where the default for feedback or for jobbreak is
missing, so a "Codes:" line counts only if there are "Feedback:" and "JobBreak:" lines, too; and a flag
that is never cleared says which codes those are.
-/

namespace Ppr.Queueinfo

open Pprdrv (lastOf lastOfInterface wantedSettings confLines ppdOf interfaceDefaultCodes codesBinary
  codesTbcp codesUnknown readPrinterConf PrinterRead)

/-! ## What the lines say to queueinfo -/

namespace PrinterLine

def interface? : PrinterLine → Option (List Byte)
  | interface p => some p
  | _ => none

def feedback? : PrinterLine → Option Bool
  | feedback p => guTorf p
  | _ => none

def jobBreak? : PrinterLine → Option CInt
  | jobBreak p => some (BitVec.ofInt 32 (atoi p))
  | _ => none

def codes? : PrinterLine → Option CInt
  | codes p => some (BitVec.ofInt 32 (atoi p))
  | _ => none

def ppdFile? : PrinterLine → Option (List Byte)
  | ppdFile p => some p
  | _ => none

end PrinterLine

/-- The last line that says something, behind the last "Interface:" line. -/
def lastSaid {β : Type} (f : PrinterLine → Option β) (lines : List PrinterLine) : Option β :=
  (lines.reverse.takeWhile fun l => !l.interface?.isSome).findSome? f

/-- A number other than -1, which stands for none. -/
def number? (n : Option CInt) : Option CInt := n.filter (· ≠ notSaid)

/-- Everything that has a default is said. -/
def AllSaid (lines : List PrinterLine) : Prop :=
  (lastSaid PrinterLine.feedback? lines).isSome ∧ (number? (lastSaid PrinterLine.jobBreak? lines)).isSome

instance (lines : List PrinterLine) : Decidable (AllSaid lines) := inferInstanceAs (Decidable (_ ∧ _))

/-- The file that queueinfo takes for the PPD file. -/
def ppdNamed (unset : Unset) (lines : List PrinterLine) : Option (List Byte) :=
  (lastOf PrinterLine.ppdFile? lines).or unset.ppdFile

/-- Whether there is TBCP, if queueinfo has read all of the PPD file. -/
def tbcpRead (files : PpdFiles) (d : Decoder) (unset : Unset) (lines : List PrinterLine) : Option Bool :=
  match (ppdNamed unset lines).bind (readPpd files d unset) with
  | some (ppd, true) => some ppd.protocols.tbcp
  | _ => none

/-- The number of a "Codes:" line that counts for queueinfo. -/
def explicitCodes (lines : List PrinterLine) (read : Option Bool) : Option CInt :=
  if read.isSome ∧ ¬AllSaid lines then none else number? (lastSaid PrinterLine.codes? lines)

/-- What queueinfo has where there is no such line. -/
def otherCodes (lines : List PrinterLine) : Option Bool → CInt
  | some tbcp => defaultCodes (lastOf PrinterLine.interface? lines) tbcp
  | none => notSaid

/-! ## What remains of the configuration file -/

/-- What of the printer the codes come from. -/
structure Heard where
  interface : Option (List Byte)
  feedback : Option Bool
  jobbreak : CInt
  codes : CInt
  ppdFile : Option (List Byte)
  ppd : Option PpdInfo

def PrinterInfo.heard (pip : PrinterInfo) : Heard :=
  ⟨pip.interface, pip.feedback, pip.jobbreak, pip.codes, pip.ppdFile, pip.ppd⟩

/-- What a line adds. -/
def Heard.hear (h : Heard) (l : PrinterLine) : Heard where
  interface := l.interface?.or h.interface
  feedback := if l.interface?.isSome then none else l.feedback?.or h.feedback
  jobbreak := if l.interface?.isSome then notSaid else l.jobBreak?.getD h.jobbreak
  codes := if l.interface?.isSome then notSaid else l.codes?.getD h.codes
  ppdFile := l.ppdFile?.or h.ppdFile
  ppd := h.ppd

theorem PrinterInfo.heard_line (pip : PrinterInfo) (depth : ℕ) (l : PrinterLine) :
    (pip.line depth l).heard = pip.heard.hear l := by
  cases l with
  | location p =>
    rw [PrinterInfo.line]
    split_ifs <;> rfl
  | ppdOpt p =>
    rw [PrinterInfo.line]
    split <;> rfl
  | _ => rfl

/-- A number that begins anew at every "Interface:" line. -/
theorem foldl_number (f : PrinterLine → Option CInt) (lines : List PrinterLine) :
    lines.foldl (fun n l => if l.interface?.isSome then notSaid else (f l).getD n) notSaid =
      (lastSaid f lines).getD notSaid := by
  have along : ∀ o : Option CInt,
      lines.foldl (fun n l => if l.interface?.isSome then notSaid else (f l).getD n) (o.getD notSaid) =
        (lines.foldl (fun o l => if l.interface?.isSome then none else (f l).or o) o).getD notSaid := by
    induction lines with
    | nil => exact fun _ => rfl
    | cons l lines ih =>
      intro o
      rw [List.foldl_cons, List.foldl_cons, ← ih]
      congr 1
      split_ifs
      · rfl
      · cases f l <;> rfl
  rw [lastSaid, ← List.foldl_anew]
  exact along none

/-- The lines of a configuration file together. -/
theorem foldl_heard (lines : List PrinterLine) (depth : ℕ) (name : List Byte) (unset : Unset) :
    (lines.foldl (·.line depth) { name := name, ppdFile := unset.ppdFile } : PrinterInfo).heard =
      { interface := lastOf PrinterLine.interface? lines
        feedback := lastSaid PrinterLine.feedback? lines
        jobbreak := (lastSaid PrinterLine.jobBreak? lines).getD notSaid
        codes := (lastSaid PrinterLine.codes? lines).getD notSaid
        ppdFile := ppdNamed unset lines
        ppd := none } := by
  have fields : ∀ pip : PrinterInfo, (lines.foldl (·.line depth) pip).heard =
      { interface := lines.foldl (fun o l => l.interface?.or o) pip.interface
        feedback := lines.foldl (fun o l =>
          if l.interface?.isSome then none else l.feedback?.or o) pip.feedback
        jobbreak := lines.foldl (fun n l =>
          if l.interface?.isSome then notSaid else l.jobBreak?.getD n) pip.jobbreak
        codes := lines.foldl (fun n l =>
          if l.interface?.isSome then notSaid else l.codes?.getD n) pip.codes
        ppdFile := lines.foldl (fun o l => l.ppdFile?.or o) pip.ppdFile
        ppd := pip.ppd } := by
    induction lines with
    | nil => exact fun _ => rfl
    | cons l lines ih =>
      intro pip
      have hl := pip.heard_line depth l
      injection hl with interface feedback jobbreak codes ppdFile ppd
      rw [List.foldl_cons, ih, interface, feedback, jobbreak, codes, ppdFile, ppd]
      rfl
  have hfeedback := List.foldl_anew PrinterLine.feedback? (fun l => l.interface?.isSome) lines
  rw [fields, List.foldl_or_left, List.foldl_or_left, foldl_number, foldl_number, hfeedback, Option.or_none]
  rfl

/-! ## What remains of the PPD file -/

namespace PpdLoop

/-- A line does not touch the flag. -/
def Kept (s : PpdLoop) (o : Option PpdLoop) : Prop := ∀ t ∈ o, t.ppd.binaryOK = s.ppd.binaryOK

theorem Kept.map {s : PpdLoop} {f : List Byte → PpdLoop} (hf : ∀ p, (f p).ppd.binaryOK = s.ppd.binaryOK)
    (o : Option (List Byte)) : Kept s (o.map f) := by
  intro t ht
  obtain ⟨p, -, rfl⟩ := Option.mem_map.1 ht
  exact hf p

theorem Kept.orElse {s : PpdLoop} {o o' : Option PpdLoop} (h : Kept s o) (h' : Kept s o') :
    Kept s (o <|> o') := by
  intro t ht
  cases o with
  | none => exact h' t ht
  | some u => exact h t ht

theorem binaryOK_plainLine (s : PpdLoop) (line : List Byte) :
    (s.plainLine line).ppd.binaryOK = s.ppd.binaryOK := by
  have hkept : ∀ {o : Option PpdLoop}, Kept s o → (o.getD s).ppd.binaryOK = s.ppd.binaryOK := by
    intro o ho
    cases o with
    | none => rfl
    | some t => exact ho t rfl
  unfold plainLine
  apply hkept
  repeat' apply Kept.orElse
  all_goals apply Kept.map; intro p
  · unfold colorDevice
    split_ifs <;> rfl
  · unfold resolution
    split_ifs <;> rfl
  · unfold resolution
    split_ifs <;> rfl
  · rfl
  · rfl
  · unfold freeVM
    split <;> (try split_ifs) <;> rfl
  · unfold languageLevel
    split <;> (try split_ifs) <;> rfl
  · unfold psVersion
    repeat' split
    all_goals rfl
  · rfl
  · rfl
  · unfold vmOption
    repeat' split
    all_goals rfl

theorem binaryOK_store (s : PpdLoop) (value : List Byte) (field : QuotedField) :
    (s.store value field).ppd.binaryOK = s.ppd.binaryOK := by
  cases field <;> rfl

/-- Nor does the loop. -/
theorem binaryOK_run (d : Decoder) (throws : Bool) (n : ℕ) (s : PpdLoop) (lines : List (List Byte)) :
    ∀ t ∈ run d throws n s lines, t.ppd.binaryOK = s.ppd.binaryOK := by
  induction n generalizing s lines with
  | zero =>
    rintro t ⟨⟩
    rfl
  | succ n ih =>
    cases lines with
    | nil =>
      rintro t ⟨⟩
      rfl
    | cons line lines =>
      intro t ht
      rw [run] at ht
      split at ht
      · rw [ih _ _ t ht, binaryOK_plainLine]
      · split at ht
        · obtain ⟨value, -, ht⟩ := Option.mem_bind_iff.1 ht
          rw [ih _ _ t ht, binaryOK_store]
        · split_ifs at ht
          · cases ht
            rfl
          · obtain ⟨value, -, rfl⟩ := Option.mem_map.1 ht
            rw [binaryOK_store]

end PpdLoop

theorem binaryOK_readPpd {files : PpdFiles} {d : Decoder} {unset : Unset} {ppdFile : List Byte}
    {r : PpdInfo × Bool} (h : readPpd files d unset ppdFile = some r) : r.1.binaryOK = unset.binaryOK := by
  unfold readPpd at h
  split at h
  · cases h
    rfl
  · obtain ⟨s, hs, rfl⟩ := Option.map_eq_some_iff.1 h
    exact PpdLoop.binaryOK_run _ _ _ _ _ s hs

/-! ## The defaults -/

theorem number?_getD (n : Option CInt) : (number? n).getD notSaid = n.getD notSaid := by
  cases n with
  | none => rfl
  | some n =>
    by_cases hn : n = notSaid
    · simp [number?, Option.filter, hn]
    · simp [number?, Option.filter, hn]

theorem number?_isSome (n : Option CInt) : (number? n).isSome ↔ n.getD notSaid ≠ notSaid := by
  cases n <;> simp [number?, Option.filter]

/-- The default is stored where one of the three is missing. -/
theorem PrinterInfo.chosenCodes_eq (pip : PrinterInfo) (tbcp : Bool) :
    pip.chosenCodes tbcp =
      if pip.feedback.isSome ∧ pip.jobbreak ≠ notSaid ∧ pip.codes ≠ notSaid then pip.codes
      else defaultCodes pip.interface tbcp := by
  unfold PrinterInfo.chosenCodes
  cases pip.feedback with
  | none => simp
  | some b =>
    by_cases hj : pip.jobbreak = notSaid
    · simp [hj]
    · by_cases hc : pip.codes = notSaid <;> simp [hj, hc]

theorem PrinterInfo.binaryOK_defaults (pip : PrinterInfo) (ppd : PpdInfo) :
    (pip.defaults ppd).ppd.any (·.binaryOK) = true ↔ ppd.binaryOK = true ∨
      (pip.defaults ppd).codes = codesBinary ∨ (pip.defaults ppd).codes = codesTbcp := by
  unfold PrinterInfo.defaults
  dsimp only
  split_ifs with hcodes
  · split <;> simp [hcodes]
  · split <;> simp [hcodes]

/-! ## A printer that both have read -/

/-- What both programs make of the configuration file of a printer. -/
structure Member (files : PpdFiles) (d : Decoder) where
  name : List Byte
  text : List Byte
  /-- For messages of pprdrv. -/
  cfname : List Byte
  depth : ℕ
  unset : Unset
  spoolState : PrinterSpoolState
  pip : PrinterInfo
  printer : PrinterRead
  loaded : loadPrinter files d unset name depth text spoolState = some pip
  read : readPrinterConf files cfname name text = .ok printer

namespace Member

variable {files : PpdFiles} {d : Decoder} (m : Member files d)

/-- What queueinfo has read of the PPD file. -/
def tbcp : Option Bool := tbcpRead files d m.unset (printerLines m.text)

/-- The "Codes:" line that counts for pprdrv. -/
def said : Option CInt := lastOfInterface Pprdrv.ConfLine.codes? (confLines m.text)

/-- What pprdrv has where there is no such line. -/
def otherwise : CInt :=
  interfaceDefaultCodes ((lastOf Pprdrv.ConfLine.interface? (confLines m.text)).getD [])
    ((ppdOf files m.text).any (·.hasProtocol "TBCP"))

/-- Where a "Codes:" line counts for both, they read the same number in it; where it counts for one
of them only, it has the default of the other; where it counts for none, the defaults are the same. -/
def CodesMeet : Prop :=
  match explicitCodes (printerLines m.text) m.tbcp, m.said with
  | some v, some w => v = w
  | some v, none => v = m.otherwise
  | none, some w => otherCodes (printerLines m.text) m.tbcp = w
  | none, none => otherCodes (printerLines m.text) m.tbcp = m.otherwise

/-- There is a PPD file, and all 8 bit codes are sent. -/
def SentBinary : Prop :=
  lastOf (Pprdrv.ConfLine.ppdFile? files) (confLines m.text) ≠ none ∧
    (m.said.getD m.otherwise = codesBinary ∨ m.said.getD m.otherwise = codesTbcp)

theorem printer_codes : m.printer.conf.codes = m.said.getD m.otherwise :=
  congrArg Pprdrv.Settings.codes (Pprdrv.settings_eq m.read)

theorem printer_ppdFile :
    m.printer.conf.ppdFile = lastOf (Pprdrv.ConfLine.ppdFile? files) (confLines m.text) := by
  obtain ⟨c, hc, h⟩ := Outcome.bind_eq_ok m.read
  have heard := Pprdrv.Conf.foldlM_line_ensures files m.cfname {} _ c hc
  rw [← confLines, Pprdrv.foldl_heard] at heard
  injection heard with order hrip hinterface hppd feedback jobbreak codes
  cases hi : c.interface with
  | none =>
    rw [hi] at h
    cases h
  | some interface =>
    rw [hi] at h
    obtain ⟨ppd, hread, h⟩ := Outcome.bind_eq_ok h
    rw [← hppd]
    injection h with h
    rw [← h]

theorem pip_eq :
    m.pip.codes = (explicitCodes (printerLines m.text) m.tbcp).getD (otherCodes (printerLines m.text) m.tbcp) ∧
      (m.pip.ppd.any (·.binaryOK) = true ↔ ppdNamed m.unset (printerLines m.text) ≠ none ∧
        (m.unset.binaryOK = true ∨ m.tbcp.isSome ∧
          (m.pip.codes = codesBinary ∨ m.pip.codes = codesTbcp))) := by
  obtain ⟨q, hq, hpip⟩ := Option.map_eq_some_iff.1 m.loaded
  have hheard := foldl_heard (printerLines m.text) m.depth m.name m.unset
  have hcodes : m.pip.codes = q.codes := by rw [← hpip]
  have hppd : m.pip.ppd = q.ppd := by rw [← hpip]
  rw [hcodes, hppd]
  generalize (printerLines m.text).foldl (fun pip l => PrinterInfo.line pip m.depth l) _ = pip at hheard hq
  injection hheard with interface feedback jobbreak codes ppdFile ppd
  rw [doPrinterPpd, ppdFile] at hq
  cases hnamed : ppdNamed m.unset (printerLines m.text) with
  | none =>
    have htbcp : m.tbcp = none := by rw [tbcp, tbcpRead, hnamed]; rfl
    rw [hnamed] at hq
    cases hq
    rw [htbcp, explicitCodes, if_neg (by simp), otherCodes, number?_getD, ← codes, ppd]
    simp
  | some f =>
    rw [hnamed] at hq
    obtain ⟨⟨info, whole⟩, hread, hq⟩ := Option.map_eq_some_iff.1 hq
    have hunset := binaryOK_readPpd hread
    dsimp only at hunset hq
    cases whole with
    | false =>
      have htbcp : m.tbcp = none := by rw [tbcp, tbcpRead, hnamed, Option.bind_some, hread]
      rw [if_neg Bool.false_ne_true] at hq
      cases hq
      rw [htbcp, explicitCodes, if_neg (by simp), otherCodes, number?_getD, ← codes]
      simp [hunset]
    | true =>
      have htbcp : m.tbcp = some info.protocols.tbcp := by
        rw [tbcp, tbcpRead, hnamed, Option.bind_some, hread]
      rw [if_pos rfl] at hq
      cases hq
      have hchosen := pip.chosenCodes_eq info.protocols.tbcp
      rw [PrinterInfo.binaryOK_defaults, htbcp, hunset]
      refine ⟨hchosen.trans ?_, by simp⟩
      rw [explicitCodes, otherCodes, feedback, jobbreak, codes, interface]
      simp only [← number?_isSome]
      by_cases hall : AllSaid (printerLines m.text)
      · rw [if_neg (fun h : _ ∧ ¬AllSaid _ => h.2 hall)]
        cases hnum : number? (lastSaid PrinterLine.codes? (printerLines m.text)) with
        | none => simp
        | some n =>
          rw [if_pos ⟨hall.1, hall.2, rfl⟩, ← number?_getD, hnum]
          rfl
      · have hno : (some info.protocols.tbcp).isSome = true ∧ ¬AllSaid (printerLines m.text) := ⟨rfl, hall⟩
        rw [if_pos hno, if_neg fun h => hall ⟨h.1, h.2.1⟩]
        rfl

theorem codesMeet_iff : m.CodesMeet ↔ m.pip.codes = m.printer.conf.codes := by
  rw [m.pip_eq.1, m.printer_codes, CodesMeet]
  cases explicitCodes (printerLines m.text) m.tbcp <;> cases m.said <;> rfl

end Member

/-! ## Queues -/

variable {files : PpdFiles} {d : Decoder}

/-- queueinfo and pprdrv agree about the members of a queue, and `queueinfo_binaryOK()` says what will
happen. -/
structure ChannelKnown (qip : QueueInfo) (members : List (Member files d)) : Prop where
  codes : ∀ m ∈ members, m.pip.codes = m.printer.conf.codes
  binaryOK : qip.binaryOK = true ↔ members ≠ [] ∧ ∀ m ∈ members, m.printer.conf.ppdFile ≠ none ∧
    (m.printer.conf.codes = codesBinary ∨ m.printer.conf.codes = codesTbcp)

/-- queueinfo takes something for the PPD file of the printer, and has read that all codes are sent, or
the flag says so from the beginning. -/
def Member.TakenBinary (m : Member files d) : Prop :=
  ppdNamed m.unset (printerLines m.text) ≠ none ∧
    (m.unset.binaryOK = true ∨ m.tbcp.isSome ∧
      (m.said.getD m.otherwise = codesBinary ∨ m.said.getD m.otherwise = codesTbcp))

/-- Where all 8 bit codes are sent to all members, queueinfo has read that or the flags say so; where
they are not, this is not the case for some member. -/
structure FlagsSet (members : List (Member files d)) : Prop where
  set : (∀ m ∈ members, m.SentBinary) → ∀ m ∈ members, m.TakenBinary
  cleared : (∃ m ∈ members, ¬m.SentBinary) → ∃ m ∈ members, ¬m.TakenBinary

theorem binaryOK_members (qip : QueueInfo) (members : List (Member files d)) :
    ({ qip with printers := members.map (·.pip) } : QueueInfo).binaryOK = true ↔
      members ≠ [] ∧ ∀ m ∈ members, m.pip.ppd.any (·.binaryOK) = true := by
  rw [QueueInfo.binaryOK, QueueInfo.everyLoop_eq]
  simp

/-- The two programs agree about a queue if and only if the lines of each member come down to the same
number and the flags are right. -/
theorem channelKnown_iff (qip : QueueInfo) (members : List (Member files d)) :
    ChannelKnown { qip with printers := members.map (·.pip) } members ↔
      (∀ m ∈ members, m.CodesMeet) ∧ FlagsSet members := by
  have hmeet : (∀ m ∈ members, m.CodesMeet) ↔ ∀ m ∈ members, m.pip.codes = m.printer.conf.codes :=
    forall₂_congr fun m _ => m.codesMeet_iff
  have hsent : ∀ m : Member files d, m.SentBinary ↔ m.printer.conf.ppdFile ≠ none ∧
      (m.printer.conf.codes = codesBinary ∨ m.printer.conf.codes = codesTbcp) := by
    intro m
    rw [m.printer_codes, m.printer_ppdFile]
    rfl
  have hflags : (∀ m ∈ members, m.pip.codes = m.printer.conf.codes) →
      ((∀ m ∈ members, m.pip.ppd.any (·.binaryOK) = true) ↔ ∀ m ∈ members, m.TakenBinary) := by
    intro h
    refine forall₂_congr fun m hm => ?_
    rw [m.pip_eq.2, h m hm, m.printer_codes]
    rfl
  constructor
  · intro h
    refine ⟨hmeet.2 h.codes, fun hall m hm => ?_, fun ⟨m, hm, hno⟩ => ?_⟩
    · have hbinary := h.binaryOK.2 ⟨List.ne_nil_of_mem hm, fun m hm => (hsent m).1 (hall m hm)⟩
      exact (hflags h.codes).1 ((binaryOK_members qip members).1 hbinary).2 m hm
    · by_contra hall
      push Not at hall
      have hbinary := (binaryOK_members qip members).2 ⟨List.ne_nil_of_mem hm, (hflags h.codes).2 hall⟩
      exact hno ((hsent m).2 ((h.binaryOK.1 hbinary).2 m hm))
  · rintro ⟨hcodes, hset⟩
    have hcodes := hmeet.1 hcodes
    refine ⟨hcodes, (binaryOK_members qip members).trans (and_congr_right fun _ => ?_)⟩
    rw [hflags hcodes]
    constructor
    · intro htaken
      by_contra hno
      simp only [← hsent] at hno
      push Not at hno
      obtain ⟨m, hm, hnot⟩ := hset.cleared hno
      exact hnot (htaken m hm)
    · intro hall
      exact hset.set fun m hm => (hsent m).2 (hall m hm)

/-- A printer with a "Codes:" line, and neither a "Feedback:" nor a "JobBreak:" line. -/
def binaryConf : List Byte := ascii "Interface: parallel\nCodes: 3\nPPDFile: /a.ppd\n"

/-- Memory that is zero. -/
def zeroed : Unset := ⟨none, ⟨false, false⟩, false⟩

/-- pprdrv sends all codes to the printer, and queueinfo has it that some cannot be sent. -/
theorem not_channelKnown_binaryConf :
    ¬∀ (qip : QueueInfo) (members : List (Member (Pprdrv.onePpd "*LanguageLevel: \"2\"\n") ⟨true, 0⟩)),
      ChannelKnown { qip with printers := members.map (·.pip) } members := by
  intro h
  have loads : ((loadPrinter (Pprdrv.onePpd "*LanguageLevel: \"2\"\n") ⟨true, 0⟩ zeroed (ascii "p") 1
      binaryConf {}).map (·.codes)) = some Pprdrv.codesClean8Bit := by
    decide +kernel
  have reads : ((readPrinterConf (Pprdrv.onePpd "*LanguageLevel: \"2\"\n") (ascii "/etc/ppr/printers/p")
      (ascii "p") binaryConf).map (·.conf.codes)).toOption = some codesBinary := by
    decide +kernel
  cases hload : loadPrinter (Pprdrv.onePpd "*LanguageLevel: \"2\"\n") ⟨true, 0⟩ zeroed (ascii "p") 1
      binaryConf {} with
  | none =>
    rw [hload] at loads
    cases loads
  | some pip =>
    cases hread : readPrinterConf (Pprdrv.onePpd "*LanguageLevel: \"2\"\n")
        (ascii "/etc/ppr/printers/p") (ascii "p") binaryConf with
    | error e =>
      rw [hread] at reads
      cases reads
    | ok printer =>
      rw [hload] at loads
      rw [hread] at reads
      have hcodes := (h { name := ascii "p" } [⟨_, _, _, _, _, _, pip, printer, hload, hread⟩]).codes _
        List.mem_cons_self
      have hpip : pip.codes = Pprdrv.codesClean8Bit := Option.some.inj loads
      have hprinter : printer.conf.codes = codesBinary := Option.some.inj reads
      rw [hpip, hprinter] at hcodes
      exact absurd hcodes (by decide)

end Ppr.Queueinfo
