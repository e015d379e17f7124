import Ppr.Pprdrv.Capable

/-!
# What pprdrv reads from a queue file

`real_main()` of `pprdrv.c` reads the queue file section by section: `qentryfile_load()`, the Addon
section, `read_media_lines()`, `check_if_capable()`, the PJL and later `insert_features()`.  The job name
comes from the name of the file.
-/

namespace Ppr.Pprdrv

open QEntryFile

/-! ## Sections -/

/-- The lines before the one that ends a section, and those behind it. -/
def readSection (marker : String) : List (List Byte) → List (List Byte) × List (List Byte)
  | [] => ([], [])
  | l :: ls =>
    if chop l = ascii marker then ([], ls)
    else (chop l :: (readSection marker ls).1, (readSection marker ls).2)

/-- An entry of `media_xlate[]`. -/
structure MediaXlate where
  pprname : List Byte
  dscname : List Byte
  deriving DecidableEq

def tooManyMedia : FatalError :=
  ⟨ascii "Queue files contains more than 4 \"Media:\" lines"⟩

def invalidMedia : FatalError := ⟨ascii "Invalid \"Media:\" line in queue file"⟩

/-- The loop of `read_media_lines()` over the lines of its section. -/
def readMediaLines : List (List Byte) → List MediaXlate → Except FatalError (List MediaXlate)
  | [], media => .ok media
  | line :: lines, media =>
    if lmatch line "Media: " then
      if media.length = 4 then .error tooManyMedia
      else
        match guSscanf (scanFormat "Media: %S %S") line with
        | [pprname, dscname] => readMediaLines lines (media ++ [⟨pprname.string, dscname.string⟩])
        | _ => .error invalidMedia
    else readMediaLines lines media

/-! ## The PJL -/

/-- `gu_getline()` on the text that is left. -/
def takeLine (s : List Byte) : List Byte × List Byte :=
  (s.takeWhile (· ≠ newline), (s.dropWhile (· ≠ newline)).tail)

theorem length_takeLine {s : List Byte} (h : s ≠ []) : (takeLine s).2.length < s.length := by
  have hdrop : (s.dropWhile (· ≠ newline)).length ≤ s.length :=
    (List.dropWhile_suffix _).sublist.length_le
  have hpos := List.length_pos_of_ne_nil h
  show (s.dropWhile (· ≠ newline)).tail.length < s.length
  rw [List.length_tail]
  omega

/-- The number of a "PJLHint:" line. -/
def pjlHint (line : List Byte) : Option ℤ :=
  match guSscanf (scanFormat "PJLHint: %d") line with
  | [.num n] => some n
  | _ => none

/-- The loop over the PJL section: `n` bytes are read behind a hint, whatever they are. -/
def readPjl (pjl : Option (List Byte)) (s : List Byte) : Option (List Byte) × List Byte :=
  if s = [] then (pjl, [])
  else
    let line := chop (takeLine s).1
    let rest := (takeLine s).2
    if line = ascii "EndPJL" then (pjl, rest)
    else
      match pjlHint line with
      | some n => readPjl (some (rest.take n.toNat)) (rest.drop n.toNat)
      | none => readPjl pjl rest
termination_by s.length
decreasing_by
  · have := length_takeLine (by assumption)
    rw [List.length_drop]
    omega
  · exact length_takeLine (by assumption)

/-! ## Features -/

/-- A feature that is to be inserted. -/
structure Feature where
  type : List Byte
  option : Option (List Byte)
  deriving DecidableEq

/-- A line of the last section. -/
def readFeature (line : List Byte) : Option Feature :=
  (lmatchp line "Feature:").map fun feature =>
    { type := feature.takeWhile (!isBlank ·)
      option := (feature.dropWhile (!isBlank ·)).tail? }

/-! ## The whole file -/

/-- What is known of a job before it is printed. -/
structure JobRead where
  job : QEntryFile
  media : List MediaXlate
  checked : Checked
  reason : Option (List Byte)
  /-- The PJL and the features; an incapable printer does not come so far. -/
  setup : Option (Option (List Byte) × List Feature)

/-- What is read behind the two sections of `check_if_capable()`. -/
def readSetup (lines : List (List Byte)) : Option (List Byte) × List Feature :=
  let pjl := readPjl none lines.flatten
  (pjl.1, (readSection "EndSetups" (rawLines pjl.2)).1.filterMap readFeature)

/-- The sections from the Addon section on. -/
def readSections (env : CapableEnv) (groupPass : ℤ) (job : QEntryFile) (lines : List (List Byte)) :
    Except FatalError JobRead := do
  -- The Addon section is discarded.
  let media := readSection "EndMedia" (readSection "EndAddon" lines).2
  let xlate ← readMediaLines media.1 []
  let (checked, reason) ← checkIfCapable env groupPass (media.2.map chop)
  -- `check_if_capable()` has read down to the end of the second of its sections.
  let setup := readSetup (readSection "EndReq" (readSection "EndRes" media.2).2).2
  return {
    job := job
    media := xlate
    checked := checked
    reason := reason
    setup := if checked.incapable then none else some setup }

/-- The reading of a queue file, on its text. -/
def readQueueFile (env : QEntryFile → CapableEnv) (groupPass : ℤ) (text : List Byte) :
    Except FatalError JobRead :=
  let loaded := qentryfileLoad (qentryfileClear default) text
  if loaded.ok = false then .error ⟨ascii "Defective queue file data."⟩
  else if loaded.job.PPRVersion < 3 / 2 then .error ⟨ascii "Obsolete PPR job format"⟩
  else readSections (env loaded.job) groupPass loaded.job (rawLines loaded.rest)

/-! ## Where a section ends -/

/-- A section that ends is read in the same way whatever comes behind it. -/
theorem readSection_append {marker : String} {ls : List (List Byte)}
    (h : ascii marker ∈ ls.map chop) (ms : List (List Byte)) :
    readSection marker (ls ++ ms) = ((readSection marker ls).1, (readSection marker ls).2 ++ ms) := by
  induction ls with
  | nil => cases h
  | cons l ls ih =>
    rw [List.cons_append, readSection, readSection]
    by_cases hl : chop l = ascii marker
    · rw [if_pos hl, if_pos hl]
    · rw [List.map_cons, List.mem_cons] at h
      have hmem := h.resolve_left fun e => hl e.symm
      rw [if_neg hl, if_neg hl, ih hmem]

/-- A section without the line that ends it. -/
theorem readSection_of_lines {marker : String} {ls : List (List Byte)}
    (h : ∀ l ∈ ls, chop l ≠ ascii marker) {l : List Byte} (hl : chop l = ascii marker)
    (ms : List (List Byte)) : readSection marker (ls ++ l :: ms) = (ls.map chop, ms) := by
  induction ls with
  | nil => rw [List.nil_append, readSection, if_pos hl, List.map_nil]
  | cons k ls ih =>
    obtain ⟨hk, hls⟩ := List.forall_mem_cons.1 h
    rw [List.cons_append, readSection, if_neg hk, ih hls, List.map_cons]

/-- The loop over the resources does not look behind its section. -/
theorem resourceLoop_append (env : CapableEnv) (groupPass : ℤ) {ls : List (List Byte)}
    (h : ∀ l ∈ ls, l ≠ ascii "EndRes") (s : Checked) :
    ∃ r : Except FatalError Checked, ∀ ms,
      resourceLoop env groupPass (ls ++ ascii "EndRes" :: ms) s = r.map (·, ms) := by
  induction ls generalizing s with
  | nil =>
    refine ⟨.ok s, fun ms => ?_⟩
    rw [List.nil_append, resourceLoop, if_pos rfl]
    rfl
  | cons l ls ih =>
    obtain ⟨hl, hls⟩ := List.forall_mem_cons.1 h
    cases hr : readRes l with
    | error e =>
      refine ⟨.error e, fun ms => ?_⟩
      rw [List.cons_append, resourceLoop, if_neg hl, hr]
      rfl
    | ok r =>
      obtain ⟨t, ht⟩ := ih hls (s.resource env groupPass r)
      refine ⟨t, fun ms => ?_⟩
      rw [List.cons_append, resourceLoop, if_neg hl, hr]
      exact ht ms

/-- Nor does the loop over the requirements. -/
theorem requirementLoop_append (env : CapableEnv) (groupPass : ℤ) (ls : List (List Byte))
    (s : Checked) :
    ∃ r : Except FatalError Checked, ∀ ms,
      requirementLoop env groupPass (ls ++ ascii "EndReq" :: ms) s = r := by
  induction ls generalizing s with
  | nil =>
    refine ⟨.ok s, fun ms => ?_⟩
    rw [List.nil_append, requirementLoop, if_pos rfl]
  | cons l ls ih =>
    by_cases hl : l = ascii "EndReq"
    · refine ⟨.ok s, fun ms => ?_⟩
      rw [List.cons_append, requirementLoop, if_pos hl]
    by_cases hfull : maxDrvreq ≤ s.drvreq.length
    · refine ⟨.error ⟨ascii "internal pprdrv error: DRVREQ overflow"⟩, fun ms => ?_⟩
      rw [List.cons_append, requirementLoop, if_neg hl, if_pos hfull]
    cases hr : readReq l with
    | error e =>
      refine ⟨.error e, fun ms => ?_⟩
      rw [List.cons_append, requirementLoop, if_neg hl, if_neg hfull, hr]
      rfl
    | ok f1 =>
      obtain ⟨t, ht⟩ := ih (s.requirement env groupPass f1)
      refine ⟨t, fun ms => ?_⟩
      rw [List.cons_append, requirementLoop, if_neg hl, if_neg hfull, hr]
      exact ht ms

/-- So what is behind the two sections does not matter to `check_if_capable()`. -/
theorem checkIfCapable_append (env : CapableEnv) (groupPass : ℤ) {ls : List (List Byte)}
    (h : ∀ l ∈ ls, l ≠ ascii "EndRes") (ks ms : List (List Byte)) :
    checkIfCapable env groupPass (ls ++ ascii "EndRes" :: (ks ++ ascii "EndReq" :: ms)) =
      checkIfCapable env groupPass (ls ++ ascii "EndRes" :: (ks ++ [ascii "EndReq"])) := by
  obtain ⟨r, hr⟩ := resourceLoop_append env groupPass h {}
  rw [checkIfCapable, checkIfCapable, hr, hr]
  cases r with
  | error e => rfl
  | ok s =>
    obtain ⟨t, ht⟩ := requirementLoop_append env groupPass ks s
    show (requirementLoop env groupPass _ s >>= _) = (requirementLoop env groupPass _ s >>= _)
    rw [ht, ht]

/-! ## The PJL that is written -/

theorem takeLine_append {l : List Byte} (h : newline ∉ l) (s : List Byte) :
    takeLine (l ++ newline :: s) = (l, s) := by
  have hl : ∀ b ∈ l, decide (b ≠ newline) = true := by
    intro b hb
    exact decide_eq_true fun e => h (e ▸ hb)
  obtain ⟨htake, hdrop⟩ := span_append (· ≠ newline) (newline :: s) hl (by simp)
  rw [takeLine, htake, hdrop, List.tail_cons]

theorem readPjl_end (pjl : Option (List Byte)) (s : List Byte) :
    readPjl pjl (ascii "EndPJL" ++ newline :: s) = (pjl, s) := by
  have hend : chop (ascii "EndPJL") = ascii "EndPJL" := by decide
  rw [readPjl, if_neg (by simp), takeLine_append (by decide)]
  exact if_pos hend

theorem pjlHint_decimal (n : ℕ) : pjlHint (ascii "PJLHint: " ++ decimal n) = some (n : ℤ) := by
  have hformat : scanFormat "PJLHint: %d" = (ascii "PJLHint:").map .lit ++ [.space, .conv 'd'] := by
    decide
  have hline : ascii "PJLHint: " ++ decimal n = ascii "PJLHint:" ++ 32 :: decimal n := rfl
  have hdecimal : decimalInt n = decimal n := by
    rw [decimalInt, if_neg (by omega)]
    rfl
  have hscan : Scans 'd' (decimal n) (.num n) := hdecimal ▸ scans_d n
  have hspace := hscan.dropWhile []
  rw [List.append_nil] at hspace
  rw [pjlHint, hformat, hline, guSscanf_lits, if_pos (List.prefix_append _ _), List.drop_left,
    guSscanf_space, List.dropWhile_cons_of_pos (by decide), hspace, hscan.guSscanf_last]

theorem readPjl_hint (pjl : Option (List Byte)) (n : ℕ) (s : List Byte) :
    readPjl pjl (ascii "PJLHint: " ++ decimal n ++ newline :: s) =
      readPjl (some (s.take n)) (s.drop n) := by
  have hne : decimal n ≠ [] := decimal_ne_nil n
  have hdigits : ∀ b ∈ decimal n, isspace b = false := fun b hb =>
    not_isspace_of_isdigit b (isdigit_decimal hb)
  have hnl : newline ∉ ascii "PJLHint: " ++ decimal n := by
    rw [List.mem_append, not_or]
    exact ⟨by decide, fun h => absurd (hdigits _ h) (by decide)⟩
  have hchop : chop (ascii "PJLHint: " ++ decimal n) = ascii "PJLHint: " ++ decimal n := by
    apply chop_append_of_eq_self _ hne
    rw [chop_eq_self_iff]
    exact fun b hb => hdigits b (List.mem_of_getLast? hb)
  have hend : ascii "PJLHint: " ++ decimal n ≠ ascii "EndPJL" := by
    intro h
    cases h
  rw [readPjl, if_neg (by simp), takeLine_append hnl]
  dsimp only
  rw [hchop, if_neg hend, pjlHint_decimal]
  rfl

end Ppr.Pprdrv
