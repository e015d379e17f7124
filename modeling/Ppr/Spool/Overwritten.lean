import Ppr.Spool.QueueText
import Ppr.Pprd.QueueScan
import Ppr.Pprdrv.QueueReader

/-!
# A queue file that is written over

`write_queue_file()` opens the file of a skeleton without truncation.  If the old text is longer, its end
is left behind the new one.  `pprdrv` stops before it, but `pprd` scans every line of the file, so a
"PPRD:" or a "Media:" line there is taken for one of the new entry.
-/

namespace Ppr

open QEntryFile Pprdrv QueueEntry

/-! ## The property and the condition -/

/-- Both readers obtain the same from two texts. -/
structure ReadsAlike (s t : List Byte) : Prop where
  pprd : ∀ init, loadNewEnt init s = loadNewEnt init t
  pprdrv : ∀ env groupPass, readQueueFile env groupPass s = readQueueFile env groupPass t

/-- No string of an entry has a newline in it. -/
structure QueueEntry.SingleLines (e : QueueEntry) : Prop where
  unchecked : Clean e.qentry
  media : ∀ m ∈ e.media, newline ∉ m.1 ∧ newline ∉ m.2
  resources : ∀ r ∈ e.resources, newline ∉ r.type ∧ newline ∉ r.name
  requirements : ∀ r ∈ e.requirements, newline ∉ r

/-! ## The lines of the text -/

/-- The first line is a whole "PPRD:" line. -/
theorem pprdValues_first (s : SpoolState) :
    (pprdValues (chop (ascii "PPRD: " ++ pprdContent s ++ [newline]))).length = 4 := by
  have hkey : ascii "PPRD: " = Rule.pprd.key ++ [32] := by decide
  have hscan : scanFormat "PPRD: %hx %x %hx %hx" =
      Rule.pprd.key.map .lit ++ .space :: Rule.pprd.contentFormat := by decide
  have hne : chop (pprdContent s) ≠ [] := by
    intro h
    have hread := read_pprd s
    rw [Rule.read, h] at hread
    exact absurd hread (by simp [Rule.pprd, guSscanf_nil])
  have hline : chop (ascii "PPRD: " ++ pprdContent s) =
      Rule.pprd.key ++ 32 :: chop (pprdContent s) := by
    rw [chop_append_of_ne hne, hkey, List.append_assoc, List.singleton_append]
  have hread : pprdValues (chop (ascii "PPRD: " ++ pprdContent s)) = Rule.pprd.read (pprdContent s) := by
    rw [hline, pprdValues, hscan, guSscanf_lits, if_pos (List.prefix_append _ _), List.drop_left,
      guSscanf_space, List.dropWhile_cons_of_pos (by decide)]
    rfl
  rw [chop_concat_newline, hread, read_pprd]
  rfl

section Written

variable {e : QueueEntry} {new : List Byte}

theorem exists_text {addon : List AddonLine} (h : e.text addon = some new) :
    ∃ i s, new = e.qentry.savedText i s ++ (sectionText (addon.map addonLine) "EndAddon" ++ e.setupText) := by
  rw [text, Option.map_eq_some_iff] at h
  obtain ⟨head, hhead, hnew⟩ := h
  obtain ⟨-, i, s, -, -, hsaved⟩ := saved_iff.1 hhead
  exact ⟨i, s, by rw [← hnew, hsaved]⟩

theorem getLast?_setupText (e : QueueEntry) : e.setupText.getLast? = some newline := by
  rw [setupText, List.getLast?_append, List.getLast?_append, List.getLast?_append, List.getLast?_append,
    List.getLast?_append, getLast?_sectionText]
  simp only [Option.some_or]

theorem getLast?_text {addon : List AddonLine} (h : e.text addon = some new) :
    new.getLast? = some newline := by
  obtain ⟨i, s, htext⟩ := exists_text h
  rw [htext, List.getLast?_append, List.getLast?_append, getLast?_setupText, Option.some_or, Option.some_or]

theorem exists_pprd_line {addon : List AddonLine} (h : e.text addon = some new) :
    ∃ l ∈ rawLines new, (pprdValues (chop l)).length = 4 := by
  rw [text, Option.map_eq_some_iff] at h
  obtain ⟨head, hhead, rfl⟩ := h
  obtain ⟨-, i, t, -, -, hsaved⟩ := saved_iff.1 hhead
  have hnl : newline ∉ ascii "PPRD: " ++ pprdContent e.qentry.spoolState := by
    rw [List.mem_append, not_or]
    exact ⟨by decide, newline_notMem_pprdContent _⟩
  obtain ⟨rest, hrest⟩ : ∃ rest, head =
      ascii "PPRD: " ++ pprdContent e.qentry.spoolState ++ [newline] ++ rest := by
    have hlines : e.qentry.miscLines =
        ("PPRD: ", pprdContent e.qentry.spoolState) :: e.qentry.miscLines.tail := rfl
    rw [hsaved, savedText, ← printed_miscLines, hlines, printed, List.flatMap_cons, List.append_assoc]
    exact ⟨_, rfl⟩
  refine ⟨_, ?_, pprdValues_first e.qentry.spoolState⟩
  rw [hrest, List.append_assoc, rawLines_singleLine hnl]
  exact List.mem_cons_self ..

end Written

/-! ## pprdrv -/

/-- What begins otherwise is not the line that ends a section. -/
theorem chop_ne_of_head {l m : List Byte} (hm : m ≠ []) (h : l.head? ≠ m.head?) : chop l ≠ m := by
  intro he
  have hpre := chop_isPrefix l
  rw [he] at hpre
  obtain ⟨t, rfl⟩ := hpre
  rw [List.head?_append_of_ne_nil _ hm] at h
  exact h rfl

/-- A line that can end a section. -/
structure IsMarker (marker : String) : Prop where
  newline : newline ∉ ascii marker
  chop : chop (ascii marker) = ascii marker
  head : (ascii marker).head? = some 69

theorem readSection_sectionText {ls : List (List Byte)} {marker : String} (hm : IsMarker marker)
    (h : ∀ l ∈ ls, newline ∉ l ∧ l.head? ≠ some 69 ∧ l ≠ []) (t : List Byte) :
    readSection marker (rawLines (sectionText ls marker ++ t)) =
      ((ls.map (· ++ [newline])).map chop, rawLines t) := by
  rw [rawLines_sectionText (fun l hl => (h l hl).1) hm.newline]
  apply readSection_of_lines
  · intro l hl
    obtain ⟨k, hk, rfl⟩ := List.mem_map.1 hl
    obtain ⟨-, hhead, hne⟩ := h k hk
    apply chop_ne_of_head
    · intro he
      have := hm.head
      rw [he] at this
      cases this
    · rw [hm.head, List.head?_append_of_ne_nil _ hne]
      exact hhead
  · rw [chop_concat_newline, hm.chop]

/-- The end of the last section is found, whatever the features are. -/
theorem marker_mem_sectionText {marker : String} (hm : IsMarker marker) (ls : List (List Byte)) :
    ascii marker ∈ (rawLines (sectionText ls marker)).map chop := by
  induction ls with
  | nil =>
    have hlines := rawLines_singleLine hm.newline []
    rw [List.append_nil] at hlines
    rw [sectionText, List.flatMap_nil, List.nil_append, hlines, List.map_cons, chop_concat_newline,
      hm.chop]
    exact List.mem_cons_self ..
  | cons l ls ih =>
    have htext : sectionText (l :: ls) marker = l ++ newline :: sectionText ls marker := by
      simp [sectionText]
    rw [htext, rawLines_concat_append, List.map_append]
    exact List.mem_append_right _ ih

theorem load_savedText_alike {q : QEntryFile} (hq : NewlineFree q) (i s : CInt) :
    (∀ job t, qentryfileLoad job (q.savedText i s ++ t) = { ok := true, job := q.reread job, rest := t }) ∨
    ∀ job t, (qentryfileLoad job (q.savedText i s ++ t)).ok = false := by
  by_cases hgood : GoodLines q
  · exact .inl fun job t => load_savedText hq hgood i s t
  · refine .inr fun job t => Bool.eq_false_iff.2 fun hok => hgood ?_
    rw [savedText, List.append_assoc] at hok
    exact goodLines_of_ok hq hok

/-- The PJL is read as it was written. -/
theorem readPjl_pjlText (p : Option (List Byte)) (t : List Byte) :
    readPjl none (pjlText p ++ (sectionText [] "EndPJL" ++ t)) = (p, t) := by
  have hend : ∀ p, readPjl p (sectionText [] "EndPJL" ++ t) = (p, t) := by
    intro p
    have htext : sectionText [] "EndPJL" ++ t = ascii "EndPJL" ++ newline :: t := by
      simp [sectionText]
    rw [htext, readPjl_end]
  cases p with
  | none => exact hend none
  | some p =>
    have htext : pjlText (some p) ++ (sectionText [] "EndPJL" ++ t) =
        ascii "PJLHint: " ++ decimal p.length ++ newline :: (p ++ (sectionText [] "EndPJL" ++ t)) := by
      simp [pjlText]
    rw [htext, readPjl_hint, List.take_left, List.drop_left, hend]

section Written

variable {e : QueueEntry} (he : e.SingleLines)

/-- The text from the PJL on. -/
theorem readSetup_append (p : Option (List Byte)) (fs : List (List Byte)) (t : List Byte) :
    readSetup (rawLines (pjlText p ++ (sectionText [] "EndPJL" ++ (sectionText fs "EndSetups" ++ t)))) =
      readSetup (rawLines (pjlText p ++ (sectionText [] "EndPJL" ++ sectionText fs "EndSetups"))) := by
  have hmarker : IsMarker "EndSetups" := ⟨by decide, by decide, by decide⟩
  rw [readSetup, readSetup, flatten_rawLines, flatten_rawLines, readPjl_pjlText, readPjl_pjlText]
  dsimp only
  rw [rawLines_newline_append (getLast?_sectionText _ _),
    readSection_append (marker_mem_sectionText hmarker _)]

include he

theorem QueueEntry.SingleLines.mediaLines :
    ∀ l ∈ e.media.map mediaLine, newline ∉ l ∧ l.head? ≠ some 69 ∧ l ≠ [] := by
  intro l hl
  obtain ⟨m, hm, rfl⟩ := List.mem_map.1 hl
  obtain ⟨h1, h2⟩ := he.media m hm
  refine ⟨?_, nofun, nofun⟩
  simp only [mediaLine, List.mem_append, not_or]
  exact ⟨⟨⟨by decide, h1⟩, by decide⟩, h2⟩

theorem QueueEntry.SingleLines.resourceLines :
    ∀ l ∈ e.resources.map resourceLine, newline ∉ l ∧ l.head? ≠ some 69 ∧ l ≠ [] := by
  intro l hl
  obtain ⟨r, hr, rfl⟩ := List.mem_map.1 hl
  obtain ⟨htype, hname⟩ := he.resources r hr
  exact ⟨newline_notMem_resourceLine htype hname, nofun, nofun⟩

theorem QueueEntry.SingleLines.requirementLines :
    ∀ l ∈ e.requirements.map requirementLine, newline ∉ l ∧ l.head? ≠ some 69 ∧ l ≠ [] := by
  intro l hl
  obtain ⟨r, hr, rfl⟩ := List.mem_map.1 hl
  refine ⟨?_, nofun, nofun⟩
  simp only [requirementLine, List.mem_append, not_or]
  exact ⟨by decide, he.requirements r hr⟩

/-- The sections of an entry are read in the same way whatever comes behind them. -/
theorem readSections_append (env : CapableEnv) (groupPass : ℤ) (job : QEntryFile) (t : List Byte) :
    readSections env groupPass job (rawLines (sectionText [] "EndAddon" ++ (e.setupText ++ t))) =
      readSections env groupPass job (rawLines (sectionText [] "EndAddon" ++ e.setupText)) := by
  have haddon : IsMarker "EndAddon" := ⟨by decide, by decide, by decide⟩
  have hmedia : IsMarker "EndMedia" := ⟨by decide, by decide, by decide⟩
  have hres : IsMarker "EndRes" := ⟨by decide, by decide, by decide⟩
  have hreq : IsMarker "EndReq" := ⟨by decide, by decide, by decide⟩
  have none : ∀ l ∈ ([] : List (List Byte)), newline ∉ l ∧ l.head? ≠ some 69 ∧ l ≠ [] := nofun
  have hnotEnd : ∀ l ∈ ((e.resources.map resourceLine).map (· ++ [newline])).map chop,
      l ≠ ascii "EndRes" := by
    simp only [List.forall_mem_map]
    intro r hr
    obtain ⟨-, hhead, hne⟩ := he.resourceLines _ (List.mem_map_of_mem hr)
    apply chop_ne_of_head (by decide)
    rw [List.head?_append_of_ne_nil _ hne, hres.head]
    exact hhead
  have hlines : ∀ u, (rawLines (sectionText (e.resources.map resourceLine) "EndRes" ++
      (sectionText (e.requirements.map requirementLine) "EndReq" ++ u))).map chop =
      ((e.resources.map resourceLine).map (· ++ [newline])).map chop ++ ascii "EndRes" ::
        (((e.requirements.map requirementLine).map (· ++ [newline])).map chop ++ ascii "EndReq" ::
          (rawLines u).map chop) := by
    intro u
    rw [rawLines_sectionText (fun l hl => (he.resourceLines l hl).1) hres.newline,
      rawLines_sectionText (fun l hl => (he.requirementLines l hl).1) hreq.newline, List.map_append,
      List.map_cons, List.map_append, List.map_cons, chop_concat_newline, chop_concat_newline, hres.chop,
      hreq.chop]
  simp only [readSections, readSection_sectionText haddon none, setupText, List.append_assoc,
    readSection_sectionText hmedia he.mediaLines, hlines, checkIfCapable_append _ _ hnotEnd,
    readSection_sectionText hres he.resourceLines, readSection_sectionText hreq he.requirementLines,
    readSetup_append]

/-- So `pprdrv` does not see what is behind an entry. -/
theorem readQueueFile_append (hq : QEntryFile.Accepted e.qentry) {new : List Byte} (hnew : e.text [] = some new)
    (env : QEntryFile → CapableEnv) (groupPass : ℤ) (t : List Byte) :
    readQueueFile env groupPass (new ++ t) = readQueueFile env groupPass new := by
  obtain ⟨i, s, htext⟩ := exists_text hnew
  have happend : new ++ t = e.qentry.savedText i s ++
      (sectionText [] "EndAddon" ++ (e.setupText ++ t)) := by
    rw [htext]
    simp only [List.map_nil, List.append_assoc]
  rw [happend, htext]
  rcases load_savedText_alike (NewlineFree.of_accepted hq he.unchecked) i s with hload | hload
  · rw [readQueueFile, readQueueFile, hload, hload]
    dsimp only
    rw [readSections_append he, List.map_nil]
  · rw [readQueueFile, readQueueFile, if_pos (hload ..), if_pos (hload ..)]

end Written

/-! ## Both readers -/

theorem withCookie_singleLines {e : QueueEntry} (he : e.SingleLines) (cookie : BitVec 32) :
    (e.withCookie cookie).SingleLines where
  unchecked := by
    have hclean : ∀ o ∈ e.qentry.unchecked, ∀ s ∈ o, newline ∉ s := he.unchecked
    simp only [unchecked, List.forall_mem_cons] at hclean
    obtain ⟨huser, -, hrest⟩ := hclean
    show ∀ o ∈ (e.withCookie cookie).qentry.unchecked, ∀ s ∈ o, newline ∉ s
    simp only [unchecked, List.forall_mem_cons]
    refine ⟨huser, ?_, hrest⟩
    rintro _ ⟨⟩
    exact newline_notMem_upperHex _ _
  media := he.media
  resources := he.resources
  requirements := he.requirements

theorem withCookie_accepted {e : QueueEntry} (h : QEntryFile.Accepted e.qentry) (cookie : BitVec 32) :
    QEntryFile.Accepted (e.withCookie cookie).qentry :=
  ⟨h.For, h.chargeTo, h.Title, h.draftNotice, h.Creator, h.Routing, h.lpqFileName, h.responderName,
    h.responderAddress, h.responderOptions, h.ripopts, h.lcMessages, h.status⟩

/-- What `pprd` loads of a new entry over an old file. -/
theorem loadNewEnt_overwritten_iff {e : QueueEntry} {addon : List AddonLine} {new : List Byte}
    (hnew : e.text addon = some new) (old : List Byte) :
    (∀ init, loadNewEnt init (overwritten old new) = loadNewEnt init new) ↔
      AddsNothing (rawLines new) (rawLines (leftover old new)) :=
  loadNewEnt_append_iff (rawLines_newline_append (getLast?_text hnew) _) (exists_pprd_line hnew)

/-- The entry of a skeleton, with the medium that is the default. -/
def skeleton : QueueEntry where
  qentry := { letter with spoolState.status := -10 }
  media := [(ascii "letter", ascii "NULL")]
  resources := []
  requirements := []
  PJL := none
  features := []

/-- The entry of the job: its document asks for paper of another size. -/
def european : QueueEntry :=
  { skeleton with qentry := letter, media := [(ascii "a4", ascii "NULL")] }

/-- Lines that end in newlines. -/
def fileText (lines : List String) : List Byte := lines.flatMap fun l => ascii l ++ [newline]

/-- What `qentryfile_save()` writes for the letter. -/
def letterHead (status cookie : String) : List String :=
  ["PPRD: 32 00000007 " ++ status ++ " 0000                                      ", "User: alice",
    "PPRVersion: 2.00a1", "Time: 1145000000", "MagicCookie: " ++ cookie, "For: Alice Smith",
    "Title: letter to Bob", "Banners: 0 0", "Response: write alice@mouse ", "Commentary: 0",
    "Attr-DSC: 3 NULL 0 0 0", "Attr-DSC-Sections: 0 0 0", "Attr-LangLevel: 0 0", "Attr-Pages: 1 0 1",
    "Attr-ByteCounts: 0 0", "Attr-Parts: 0", "Opts: 0 0 0 0 0", "N-Up: 1 0 0 0 0", "StripPrinter: 1",
    "EndMisc", "job-originating-user-name alice", "job-name letter to Bob", "job-k-octets 0",
    "job-impressions 1", "job-media-sheets 0", "EndIPP"]

/-- The file of the job if there is no other. -/
def europeanFile : List Byte :=
  fileText (letterHead "01" "00000007" ++
    ["EndAddon", "Media: a4 NULL", "EndMedia", "EndRes", "EndReq", "EndPJL", "EndSetups"])

/-- The file of the skeleton, after `ppop modify` has put lines into its Addon section. -/
def skeletonFile (addon : List String) : List Byte :=
  fileText (letterHead "0A" "0A1B2C3D" ++ addon ++
    ["EndAddon", "Media: letter NULL", "EndMedia", "EndRes", "EndReq", "EndPJL", "EndSetups"])

theorem writeQueueFile_european : european.writeQueueFile 7 = some europeanFile := by
  decide +kernel

theorem text_skeleton_ticket :
    skeleton.text [⟨ascii "ticket", ascii "Physics Lab, 12 copies to be bound, ask for Carol (room 214)"⟩] =
      some (skeletonFile ["ticket: Physics Lab, 12 copies to be bound, ask for Carol (room 214)"]) := by
  decide +kernel

theorem european_accepted : QEntryFile.Accepted european.qentry := letter_accepted

theorem european_singleLines : european.SingleLines where
  unchecked := by
    show ∀ o ∈ letter.unchecked, ∀ s ∈ o, newline ∉ s
    decide
  media := by decide
  resources := nofun
  requirements := nofun

end Ppr
