import Ppr.Libppr.Jobname
import Ppr.Spool.QueueText
import Ppr.Spool.Things

/-!
# The resources in a queue file

`write_resource_lines()` of `ppr_res.c`, and the part of `check_if_capable()` that takes its lines
apart.  The writer puts quotes only around the name, so a type with a space in it is taken for a type
and the beginning of a name.  Versions are rational numbers, and what becomes of them is left aside.
-/

namespace Ppr

open QEntryFile Pprdrv QueueEntry

/-! ## The writer -/

/-- `REREF_NEEDED` and `REREF_FIXINCLUDE`. -/
def Thing.resLine (t : Thing ℚ) : Option ResLine :=
  match t.item with
  | .resource r =>
    -- the result of a superseded comment has no flags
    if t.flags = 0 then none
    else some
      { needed := t.flags &&& ResourceRef.needed.flags ≠ 0
        fixinclude := t.flags &&& ResourceRef.fixinclude.flags ≠ 0
        type := r.type
        name := r.name
        version := r.version
        revision := r.revision }
  | _ => none

/-- `write_resource_lines()`: every thing is in every fragment. -/
def writeResourceLines (things : List (Thing ℚ)) : List (List Byte) :=
  (things.filterMap Thing.resLine).map resourceLine

/-! ## The reader -/

/-- The lines of a section, down to its end or to one that cannot be taken apart. -/
def readResLines : List (List Byte) → Except FatalError (List ResLine)
  | [] => .ok []
  | qline :: qfile =>
    if qline = ascii "EndRes" then .ok []
    else do
      let r ← readRes qline
      let rs ← readResLines qfile
      return r :: rs

/-- The loop of `check_if_capable()` handles the resources that are read, one after the other. -/
theorem resourceLoop_of_readResLines {env : CapableEnv} {groupPass : ℤ} {ls : List (List Byte)}
    {rs : List ResLine} (h : readResLines ls = .ok rs) (s : Checked) :
    ∃ rest, Pprdrv.resourceLoop env groupPass ls s =
      .ok (rs.foldl (fun s r => s.resource env groupPass r) s, rest) := by
  induction ls generalizing rs s with
  | nil =>
    cases h
    exact ⟨[], rfl⟩
  | cons l ls ih =>
    rw [readResLines] at h
    rw [Pprdrv.resourceLoop]
    split_ifs at h ⊢ with hend
    · cases h
      exact ⟨ls, rfl⟩
    · cases hr : readRes l with
      | error e =>
        rw [hr] at h
        cases h
      | ok r =>
        rw [hr] at h
        cases hrs : readResLines ls with
        | error e =>
          rw [hrs] at h
          cases h
        | ok rs' =>
          rw [hrs] at h
          cases h
          exact ih hrs _

/-! ## One line -/

/-- A resource without its version. -/
def Pprdrv.ResLine.unversioned (r : ResLine) : ResLine := { r with version := 0 }

theorem guStrsep_space {w : List Byte} (hw : (32 : Byte) ∉ w) (rest : List Byte) :
    guStrsep (· = 32) (some (w ++ 32 :: rest)) = some (w, some rest) := by
  have hp : ∀ b ∈ w, (!decide (b = 32)) = true := by
    intro b hb
    rw [Bool.not_eq_true', decide_eq_false_iff_not]
    exact fun e => hw (e ▸ hb)
  obtain ⟨htake, hdrop⟩ := span_append (fun b => !decide (b = 32)) (32 :: rest) hp (by simp)
  rw [guStrsep, hdrop, htake]

theorem guStrsep_end {w : List Byte} (hw : (32 : Byte) ∉ w) :
    guStrsep (· = 32) (some w) = some (w, none) := by
  have hp : ∀ b ∈ w, (!decide (b = 32)) = true := by
    intro b hb
    rw [Bool.not_eq_true', decide_eq_false_iff_not]
    exact fun e => hw (e ▸ hb)
  rw [guStrsep, List.dropWhile_eq_nil_iff.2 hp]

/-- A field has no space in it. -/
theorem space_notMem_of_guStrsep {p : Option (List Byte)} {w : List Byte} {rest : Option (List Byte)}
    (h : guStrsep (· = 32) p = some (w, rest)) : (32 : Byte) ∉ w := by
  cases p with
  | none => cases h
  | some p =>
    rw [guStrsep] at h
    split at h
    · rename_i hnil
      cases h
      intro hmem
      have := List.dropWhile_eq_nil_iff.1 hnil 32 hmem
      simp at this
    · cases h
      intro hmem
      have := (mem_takeWhile hmem).2
      simp at this

theorem unquoted_close (rest : List Byte) : unquoted (34 :: rest) = some ([], rest) := by
  rw [unquoted.eq_def]
  exact if_pos rfl

theorem unquoted_backslash (c : Byte) (s : List Byte) :
    unquoted (92 :: c :: s) = (unquoted s).map fun (w, rest) => (c :: w, rest) := by
  rw [unquoted.eq_def]
  exact (if_neg (by decide)).trans (if_pos rfl)

theorem unquoted_plain {c : Byte} (h34 : c ≠ 34) (h92 : c ≠ 92) (s : List Byte) :
    unquoted (c :: s) = (unquoted s).map fun (w, rest) => (c :: w, rest) := by
  rw [unquoted.eq_def]
  exact (if_neg h34).trans (if_neg h92)

/-- The name comes out of its quotes. -/
theorem unquoted_escaped (name rest : List Byte) :
    unquoted (QueueEntry.escaped name ++ 34 :: rest) = some (name, rest) := by
  induction name with
  | nil => exact unquoted_close rest
  | cons c name ih =>
    have hcons : QueueEntry.escaped (c :: name) = (if c = 92 ∨ c = 34 then [92, c] else [c]) ++ QueueEntry.escaped name := rfl
    rw [hcons]
    by_cases hc : c = 92 ∨ c = 34
    · rw [if_pos hc]
      show unquoted (92 :: c :: (QueueEntry.escaped name ++ 34 :: rest)) = _
      rw [unquoted_backslash, ih]
      rfl
    · rw [if_neg hc]
      rw [not_or] at hc
      show unquoted (c :: (QueueEntry.escaped name ++ 34 :: rest)) = _
      rw [unquoted_plain hc.2 hc.1, ih]
      rfl

theorem atoi_cDecimal {w : ℕ} (i : BitVec w) : atoi (cDecimal i) = i.toInt := by
  have hnat := atoi_decimal i.toInt.natAbs (s := []) (by simp)
  rw [List.append_nil] at hnat
  rw [cDecimal, decimalInt]
  split_ifs with hneg
  · have hatoi : atoi ([45] ++ decimal i.toInt.natAbs) =
        -digitsValue ((decimal i.toInt.natAbs).takeWhile isdigit) := by
      rw [atoi, List.singleton_append, List.dropWhile_cons_of_neg (by decide)]
      rfl
    have htake := (decimal_span i.toInt.natAbs (s := []) (by simp)).1
    rw [List.append_nil] at htake
    rw [hatoi, htake, digitsValue_decimal]
    omega
  · rw [List.nil_append, hnat]
    omega

/-! ## One line -/

theorem guStrsepQuoted_closed {isDelim : Byte → Bool} {s w rest : List Byte} {c : Byte} (h : unquoted s = some (w, c :: rest)) :
    guStrsepQuoted isDelim (some (34 :: s)) = some (w, if isDelim c then some rest else none) := by
  rw [show (34 : Byte) = 34#8 from rfl, guStrsepQuoted, h]

theorem guStrsepQuoted_escaped (name rest : List Byte) :
    guStrsepQuoted (· = 32) (some (34 :: (QueueEntry.escaped name ++ 34 :: 32 :: rest))) = some (name, some rest) := by
  rw [guStrsepQuoted_closed (unquoted_escaped name (32 :: rest))]
  simp

/-- What is read from a line up to the type, and what is left to be read. -/
theorem resourceLine_fields (r : ResLine) : ∃ f1 f2 : List Byte, (32 : Byte) ∉ f1 ∧ (32 : Byte) ∉ f2 ∧
    atoi f1 = (if r.needed then 1 else 0) ∧ atoi f2 = (if r.fixinclude then 1 else 0) ∧
    resourceLine r = ascii "Res:" ++ 32 :: (f1 ++ 32 :: (f2 ++ 32 :: (r.type ++ 32 ::
      (34 :: (QueueEntry.escaped r.name ++ 34 :: 32 :: (guDtostr r.version ++ 32 :: cDecimal r.revision)))))) := by
  have hflag : ∀ b : Bool, (32 : Byte) ∉ (if b then ([49] : List Byte) else [48]) ∧
      atoi (if b then [49] else [48]) = if b then 1 else 0 := by decide
  have hres : ascii "Res: " = ascii "Res:" ++ [32] := by decide
  have hopen : ascii " \"" = [32, 34] := by decide
  have hclose : ascii "\" " = [34, 32] := by decide
  refine ⟨_, _, (hflag r.needed).1, (hflag r.fixinclude).1, (hflag _).2, (hflag _).2, ?_⟩
  rw [resourceLine, hres, hopen, hclose]
  simp

theorem atoi_flag (b : Bool) : decide ((if b then (1 : ℤ) else 0) ≠ 0) = b := by cases b <;> decide

/-- The fields of a line are found if there is no space in the type. -/
theorem readRes_resourceLine {r : ResLine} (h : (32 : Byte) ∉ r.type) :
    ∃ version, readRes (resourceLine r) = .ok { r with version := version } := by
  obtain ⟨f1, f2, hf1, hf2, hneeded, hfixinclude, hline⟩ := resourceLine_fields r
  have hkey : (32 : Byte) ∉ ascii "Res:" := by decide
  have hversion : (32 : Byte) ∉ guDtostr r.version := fun hm => absurd (not_isspace_guDtostr hm) (by decide)
  have hrevision : (32 : Byte) ∉ cDecimal r.revision := fun hm => absurd (not_isspace_cDecimal hm) (by decide)
  have hmatch : lmatch (resourceLine r) "Res:" = true := by
    rw [hline, lmatch, List.isPrefixOf_iff_prefix]
    exact List.prefix_append _ _
  refine ⟨guGetdouble (guDtostr r.version), ?_⟩
  have hfields : resFields (resourceLine r) =
      some { r with version := guGetdouble (guDtostr r.version) } := by
    rw [hline, resFields]
    simp only [guStrsep_space hkey, guStrsep_space hf1, guStrsep_space hf2, guStrsep_space h,
      guStrsepQuoted_escaped, guStrsep_space hversion, guStrsep_end hrevision, bind, Option.bind_some,
      hneeded, hfixinclude, atoi_flag, atoi_cDecimal, BitVec.ofInt_toInt]
    rfl
  rw [readRes, if_pos hmatch, hfields]

/-- Otherwise something else is taken for the type. -/
theorem type_ne_of_readRes {r r' : ResLine} (h : (32 : Byte) ∈ r.type)
    (hr : readRes (resourceLine r) = .ok r') : r'.type ≠ r.type := by
  have hfields : resFields (resourceLine r) = some r' := by
    rw [readRes] at hr
    split_ifs at hr
    cases hres : resFields (resourceLine r) with
    | none =>
      rw [hres] at hr
      cases hr
    | some r'' =>
      rw [hres] at hr
      cases hr
      rfl
  intro htype
  refine absurd h ?_
  rw [← htype]
  simp only [resFields, bind, Option.bind_eq_some_iff] at hfields
  obtain ⟨_, _, _, _, _, _, ⟨f3, p⟩, hf3, _, _, _, _, _, _, heq⟩ := hfields
  cases heq
  exact space_notMem_of_guStrsep hf3

/-! ## The section -/

/-- The records that are read are those that are written, but for the versions. -/
def ResRoundTrips (things : List (Thing ℚ)) : Prop :=
  ∃ rs, readResLines ((rawLines (sectionText (writeResourceLines things) "EndRes")).map chop) = .ok rs ∧
    rs.map ResLine.unversioned = (things.filterMap Thing.resLine).map ResLine.unversioned

/-- The resources are from comments: no token of a line has a newline in it. -/
def FromComments (things : List (Thing ℚ)) : Prop :=
  ∀ t ∈ things, ∀ r, t.item = .resource r → newline ∉ r.type ∧ newline ∉ r.name

theorem chop_resourceLine (r : ResLine) : chop (resourceLine r) = resourceLine r := by
  rw [resourceLine]
  refine chop_append_of_eq_self (chop_cDecimal _) ?_
  rw [cDecimal, decimalInt]
  exact List.append_ne_nil_of_right_ne_nil _ (decimal_ne_nil _)

/-- Reading line after line. -/
theorem readResLines_iff (rs : List ResLine) :
    (∃ rs', readResLines (rs.map resourceLine ++ [ascii "EndRes"]) = .ok rs' ∧
      rs'.map ResLine.unversioned = rs.map ResLine.unversioned) ↔ ∀ r ∈ rs, (32 : Byte) ∉ r.type := by
  induction rs with
  | nil =>
    refine ⟨nofun, fun _ => ⟨[], ?_, rfl⟩⟩
    rw [List.map_nil, List.nil_append, readResLines, if_pos rfl]
  | cons r rs ih =>
    have hne : resourceLine r ≠ ascii "EndRes" := by
      intro h
      cases h
    rw [List.forall_mem_cons, ← ih, List.map_cons, List.cons_append, readResLines, if_neg hne]
    constructor
    · rintro ⟨rs', hread, hrs⟩
      cases hr : readRes (resourceLine r) with
      | error e =>
        rw [hr] at hread
        cases hread
      | ok r' =>
        cases htail : readResLines (rs.map resourceLine ++ [ascii "EndRes"]) with
        | error e =>
          rw [hr, htail] at hread
          cases hread
        | ok rs'' =>
          rw [hr, htail] at hread
          cases hread
          rw [List.map_cons, List.map_cons] at hrs
          obtain ⟨hhead, hrs⟩ := List.cons.inj hrs
          have htype : r'.unversioned.type = r.unversioned.type := congrArg ResLine.type hhead
          exact ⟨fun hspace => type_ne_of_readRes hspace hr htype, rs'', rfl, hrs⟩
    · rintro ⟨hspace, rs', htail, hrs⟩
      obtain ⟨version, hr⟩ := readRes_resourceLine hspace
      refine ⟨{ r with version := version } :: rs', ?_, ?_⟩
      · rw [hr, htail]
        rfl
      · rw [List.map_cons, List.map_cons, hrs]
        rfl

/-- The lines that are read are those that were written. -/
theorem lines_writeResourceLines {things : List (Thing ℚ)} (h : FromComments things) :
    (rawLines (sectionText (writeResourceLines things) "EndRes")).map chop =
      (things.filterMap Thing.resLine).map resourceLine ++ [ascii "EndRes"] := by
  have hsingle : ∀ r ∈ things.filterMap Thing.resLine, newline ∉ r.type ∧ newline ∉ r.name := by
    intro r hr
    obtain ⟨t, ht, hr⟩ := List.mem_filterMap.1 hr
    unfold Thing.resLine at hr
    split at hr
    · rename_i d hitem
      split_ifs at hr
      cases hr
      exact h t ht d hitem
    · cases hr
  have hnl : ∀ l ∈ writeResourceLines things, newline ∉ l := by
    intro l hl
    obtain ⟨r, hr, rfl⟩ := List.mem_map.1 hl
    obtain ⟨htype, hname⟩ := hsingle r hr
    exact newline_notMem_resourceLine htype hname
  have hmarker : newline ∉ ascii "EndRes" := by decide
  have hraw := rawLines_sectionText hnl hmarker []
  have hend : chop (ascii "EndRes") = ascii "EndRes" := by decide
  have hkeep : (chop ∘ (· ++ [newline])) ∘ resourceLine = resourceLine := by
    funext r
    simp only [Function.comp_apply, chop_concat_newline, chop_resourceLine]
  rw [List.append_nil] at hraw
  rw [hraw, List.map_append, List.map_cons, chop_concat_newline, hend, writeResourceLines,
    List.map_map, List.map_map, hkeep]
  rfl

/-- The resources come back exactly if no type of one that is written has a space in it. -/
theorem resRoundTrips_iff {things : List (Thing ℚ)} (h : FromComments things) :
    ResRoundTrips things ↔ ∀ r ∈ things.filterMap Thing.resLine, (32 : Byte) ∉ r.type := by
  rw [ResRoundTrips, lines_writeResourceLines h, readResLines_iff]

/-- A font whose name needs its quotes. -/
def quotedFont : List (Thing ℚ) :=
  [⟨.resource ⟨ascii "font", ascii "Fu\\\"tura (Bold)", 0, 0⟩, 5⟩]

theorem quotedFont_roundTrips : ResRoundTrips quotedFont := by
  apply (resRoundTrips_iff ?_).2
  · decide
  · intro t ht r hr
    rw [List.mem_singleton.1 ht] at hr
    cases hr
    decide

/-- A resource whose type is a token with a space in it, as in "(my font)". -/
theorem not_resRoundTrips_spaced :
    ¬∀ things : List (Thing ℚ), FromComments things → ResRoundTrips things := by
  intro h
  let r : DscResource ℚ := ⟨ascii "my font", ascii "Futura", 0, 0⟩
  have hcomments : FromComments [⟨.resource r, 1⟩] := by
    intro t ht r' hr'
    rw [List.mem_singleton.1 ht] at hr'
    cases hr'
    exact ⟨by decide, by decide⟩
  have hback := h _ hcomments
  rw [ResRoundTrips, lines_writeResourceLines hcomments, readResLines_iff] at hback
  exact absurd hback (by decide)

end Ppr
