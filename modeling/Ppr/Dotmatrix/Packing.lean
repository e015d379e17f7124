import Ppr.Dotmatrix.Graphics

/-!
# The compression of graphics

What the loop of `graphic()` has put into `gbuffer2` stands for what it has looked at, up to a run, a
literal or a first character that is in progress.  The last round looks at the character behind the
data.
-/

namespace Ppr.Dotmatrix

namespace Packer

open PsFilters.RunLength (Code)

variable {gbuffer : ℕ → Byte} {s : Packer}

theorem map_range_add (f : ℕ → Byte) (m n : ℕ) :
    (List.range (m + n)).map f = (List.range m).map f ++ (List.range n).map fun i => f (m + i) := by
  rw [List.range_add, List.map_append, List.map_map]
  rfl

theorem literals_eq (h : s.litlength + s.unclaimed ≤ s.x) (hx : s.x < 2 ^ 32) :
    s.literals = (List.range s.litlength).map (s.x - s.unclaimed - s.litlength + ·) := by
  refine List.ext_getElem (by simp [literals]) fun i hi _ => ?_
  have hi : i < s.litlength := by simpa [literals] using hi
  simp only [literals, List.getElem_map, List.getElem_reverse, List.getElem_range, List.length_range]
  omega

/-! ## What has been stored -/

/-- What is in `gbuffer2` stands for the characters that are not in progress. -/
structure Stored (gbuffer : ℕ → Byte) (s : Packer) : Prop where
  fits : s.rlength + s.litlength + s.unclaimed ≤ s.x
  codes : ∃ codes : List Code, s.gbuffer2 = codes.flatMap Code.octets ∧
    codes.flatMap Code.data =
      (List.range (s.x - (s.rlength + s.litlength + s.unclaimed))).map gbuffer

/-- A code is added for the next characters. -/
theorem Stored.add (h : s.Stored gbuffer) (code : Code) {t : Packer} (hx : t.x = s.x)
    (hstored : t.gbuffer2 = s.gbuffer2 ++ code.octets)
    (hdata : code.data = (List.range code.data.length).map fun i =>
      gbuffer (s.x - (s.rlength + s.litlength + s.unclaimed) + i))
    (hrest : code.data.length + (t.rlength + t.litlength + t.unclaimed) =
      s.rlength + s.litlength + s.unclaimed) : t.Stored gbuffer := by
  obtain ⟨codes, hcodes, hbefore⟩ := h.codes
  have hfits := h.fits
  refine ⟨by omega, codes ++ [code], ?_, ?_⟩
  · rw [hstored, hcodes, List.flatMap_append]
    simp
  · have hlength : t.x - (t.rlength + t.litlength + t.unclaimed) =
        s.x - (s.rlength + s.litlength + s.unclaimed) + code.data.length := by omega
    rw [List.flatMap_append, hbefore, hlength, map_range_add, ← hdata]
    simp

theorem Stored.dumpRun (h : s.Stored gbuffer) (hr : 0 < s.rlength) (hr' : s.rlength ≤ 128)
    (hl : s.litlength = 0) (hu : s.unclaimed = 0)
    (hsame : ∀ i, s.x - s.rlength ≤ i → i < s.x → some (gbuffer i) = s.lastc) :
    s.dumpRun.Stored gbuffer := by
  have hfits := h.fits
  have hlast := hsame (s.x - 1) (by omega) (by omega)
  have hdata : List.replicate s.rlength (gbuffer (s.x - 1)) = (List.range s.rlength).map fun i =>
      gbuffer (s.x - (s.rlength + s.litlength + s.unclaimed) + i) := by
    refine (List.eq_replicate_iff.2 ⟨by simp, ?_⟩).symm
    intro c hc
    obtain ⟨i, hi, rfl⟩ := List.mem_map.1 hc
    have hi := List.mem_range.1 hi
    exact Option.some.inj ((hsame _ (by omega) (by omega)).trans hlast.symm)
  by_cases hone : s.rlength = 1
  · -- The length byte of a run of one character is that of a literal.
    refine h.add (.literal [gbuffer (s.x - 1)] (by simp)) rfl ?_ ?_ ?_
    · simp [Packer.dumpRun, Code.octets, hone, ← hlast]
    · rwa [hone] at hdata ⊢
    · simp [Code.data, hone, hl, hu]
  · refine h.add (.run s.rlength (gbuffer (s.x - 1)) ⟨by omega, hr'⟩) rfl ?_ ?_ ?_
    · have hcount : (257 : ℤ) - s.rlength = ((257 - s.rlength : ℕ) : ℤ) := by omega
      rw [Packer.dumpRun, Code.octets, hcount, BitVec.ofInt_natCast, ← hlast]
      rfl
    · rw [Code.data, List.length_replicate]
      exact hdata
    · simp [Code.data, hl, hu]

theorem Stored.dumpLiterals (h : s.Stored gbuffer) (hl : 0 < s.litlength) (hl' : s.litlength ≤ 128)
    (hr : s.rlength = 0) (hx : s.x < 2 ^ 32) : (s.dumpLiterals gbuffer).Stored gbuffer := by
  have hfits := h.fits
  have hliterals := literals_eq (s := s) (by omega) hx
  have hlength : (s.literals.map gbuffer).length = s.litlength := by simp [hliterals]
  refine h.add (.literal (s.literals.map gbuffer) (by omega)) rfl ?_ ?_ ?_
  · have hcount : (s.litlength : ℤ) - 1 = ((s.litlength - 1 : ℕ) : ℤ) := by omega
    rw [Packer.dumpLiterals, Code.octets, hcount, BitVec.ofInt_natCast, hlength]
  · rw [Code.data, hlength, hliterals, List.map_map]
    have hfirst : s.x - (s.rlength + s.litlength + s.unclaimed) = s.x - s.unclaimed - s.litlength := by
      omega
    rw [hfirst]
    rfl
  · simp only [Code.data, hlength, dumpLiterals_rlength, dumpLiterals_litlength, dumpLiterals_unclaimed]
    omega

/-- What counts is only how many characters are in progress. -/
theorem Stored.congr (h : s.Stored gbuffer) {t : Packer} (hx : t.x = s.x)
    (hstored : t.gbuffer2 = s.gbuffer2)
    (hrest : t.rlength + t.litlength + t.unclaimed = s.rlength + s.litlength + s.unclaimed) :
    t.Stored gbuffer := by
  obtain ⟨hfits, hcodes⟩ := h
  exact ⟨by omega, by rwa [hx, hstored, hrest]⟩

/-! ## A round -/

/-- The state between two rounds; as many characters have been read. -/
structure Packing (gbuffer : ℕ → Byte) (n : ℕ) (s : Packer) : Prop where
  stored : s.Stored gbuffer
  rlength_le : s.rlength ≤ 128
  litlength_le : s.litlength ≤ 128
  /-- A run in progress goes to the last character, and there is nothing else. -/
  run : 0 < s.rlength → s.litlength = 0 ∧ s.unclaimed = 0 ∧ s.lastlastc = s.lastc ∧
    ∀ i, s.x - s.rlength ≤ i → i < s.x → some (gbuffer i) = s.lastc
  unclaimed : s.unclaimed = if s.x = 1 then 1 else 0
  lastc : s.lastc = if s.x = 0 then none else some (gbuffer (s.x - 1))
  lastlastc : s.lastlastc = if s.x ≤ 1 then none else some (gbuffer (s.x - 2))
  reads : ∀ i, i ∈ s.reads ↔ i < n

/-- The state in which a character is claimed: whatever it does not belong to has been stored. -/
structure Ready (gbuffer : ℕ → Byte) (c : Byte) (s t : Packer) : Prop where
  stored : t.Stored gbuffer
  x : t.x = s.x
  lastc : t.lastc = s.lastc
  lastlastc : t.lastlastc = s.lastlastc
  reads : ∀ i, i ∈ t.reads ↔ i < s.x + 1
  run : s.Repeats c → t.litlength = 0 ∧ t.rlength + 1 + t.unclaimed ≤ 128 ∧
    ∀ i, s.x - (t.rlength + t.unclaimed) ≤ i → i < s.x → gbuffer i = c
  literal : ¬s.Repeats c → t.rlength = 0 ∧ t.litlength + 1 + t.unclaimed ≤ 128

theorem emptyRun_eq_self {c : Byte} (h : s.rlength = 0 ∨ some c = s.lastc ∧ s.rlength ≠ 128) :
    s.emptyRun c = s :=
  if_neg fun hn => by
    rcases h with h | ⟨hc, hr⟩
    · exact hn.1 h
    · exact hn.2.elim (fun hn => hn hc) hr

theorem handBack_eq_self {c : Byte} (h : s.litlength < 2 ∨ ¬s.Repeats c) : s.handBack c = s :=
  if_neg fun hn => h.elim (fun h => absurd hn.1 (by omega)) fun h => h hn.2

theorem emptyLiterals_eq_self {c : Byte} (h : s.litlength = 0 ∨ ¬s.Repeats c ∧ s.litlength ≠ 128) :
    s.emptyLiterals gbuffer c = s :=
  if_neg fun hn => by
    rcases h with h | ⟨hc, hl⟩
    · exact hn.1 h
    · exact hn.2.elim hc hl

theorem Packing.mem_dumpLiterals {n : ℕ} (h : s.Packing gbuffer n) (hn : s.x ≤ n) {t : Packer}
    (hx : t.x = s.x) (hreads : t.reads = s.reads) (hfits : t.litlength + t.unclaimed ≤ t.x)
    (hlt : s.x < 2 ^ 32) (i : ℕ) : i ∈ (t.dumpLiterals gbuffer).reads ↔ i < n := by
  have hliterals := literals_eq hfits (by omega)
  change i ∈ t.reads ++ t.literals ↔ i < n
  rw [List.mem_append, hreads, h.reads, hliterals]
  constructor
  · rintro (h | h)
    · exact h
    · obtain ⟨j, hj, rfl⟩ := List.mem_map.1 h
      have hj := List.mem_range.1 hj
      omega
  · exact .inl

/-- The character is the same as the last two. -/
theorem Packing.ready_run {c : Byte} (h : s.Packing gbuffer (s.x + 1)) (hlt : s.x < 2 ^ 32)
    (hc : s.Repeats c) : s.Ready gbuffer c ((s.emptyRun c).handBack c |>.emptyLiterals gbuffer c) := by
  have hx : 2 ≤ s.x := by
    by_contra hx
    have hlast := h.lastlastc
    rw [if_pos (by omega), ← hc.2] at hlast
    cases hlast
  have hu : s.unclaimed = 0 := h.unclaimed.trans (if_neg (by omega))
  have hone : gbuffer (s.x - 1) = c := by
    have hlast := h.lastc
    rw [if_neg (by omega), ← hc.1] at hlast
    exact (Option.some.inj hlast).symm
  have htwo : gbuffer (s.x - 2) = c := by
    have hlast := h.lastlastc
    rw [if_neg (by omega), ← hc.2] at hlast
    exact (Option.some.inj hlast).symm
  by_cases hr : s.rlength = 0
  · rw [emptyRun_eq_self (.inl hr)]
    by_cases hl : 2 ≤ s.litlength
    · -- The last two literals become part of the run.
      have hback : s.handBack c =
          { s with litlength := s.litlength - 2, unclaimed := s.unclaimed + 2 } := if_pos ⟨hl, hc⟩
      have hstored : (s.handBack c).Stored gbuffer := by
        rw [hback]
        exact h.stored.congr rfl rfl (by dsimp only; omega)
      have hrun : ∀ i, s.x - (s.rlength + (s.unclaimed + 2)) ≤ i → i < s.x → gbuffer i = c := by
        intro i hi hi'
        have hcases : i = s.x - 1 ∨ i = s.x - 2 := by omega
        rcases hcases with rfl | rfl
        · exact hone
        · exact htwo
      rw [hback] at hstored ⊢
      by_cases hl' : s.litlength = 2
      · rw [emptyLiterals_eq_self (.inl (by dsimp only; omega))]
        refine ⟨hstored, rfl, rfl, rfl, h.reads, fun _ => ⟨?_, ?_, hrun⟩, fun hn => absurd hc hn⟩
        · dsimp only
          omega
        · dsimp only
          omega
      · rw [emptyLiterals, if_pos ⟨by dsimp only; omega, .inl hc⟩]
        have hfits := h.stored.fits
        have hle := h.litlength_le
        refine ⟨hstored.dumpLiterals ?_ ?_ hr hlt, rfl, rfl, rfl, ?_, fun _ => ⟨rfl, ?_, hrun⟩,
          fun hn => absurd hc hn⟩
        · dsimp only
          omega
        · dsimp only
          omega
        · exact h.mem_dumpLiterals (by omega) rfl rfl (by dsimp only; omega) hlt
        · simp only [dumpLiterals_rlength, dumpLiterals_unclaimed]
          omega
    · rw [handBack_eq_self (.inl (by omega))]
      by_cases hl' : s.litlength = 0
      · rw [emptyLiterals_eq_self (.inl hl')]
        exact ⟨h.stored, rfl, rfl, rfl, h.reads, fun _ => ⟨hl', by omega, fun i _ _ => by omega⟩,
          fun hn => absurd hc hn⟩
      · rw [emptyLiterals, if_pos ⟨hl', .inl hc⟩]
        have hfits := h.stored.fits
        refine ⟨h.stored.dumpLiterals (by omega) (by omega) hr hlt, rfl, rfl, rfl,
          h.mem_dumpLiterals (by omega) rfl rfl (by omega) hlt, fun _ => ⟨rfl, ?_, ?_⟩,
          fun hn => absurd hc hn⟩
        · simp only [dumpLiterals_rlength, dumpLiterals_unclaimed]
          omega
        · intro i hi hi'
          simp only [dumpLiterals_rlength, dumpLiterals_unclaimed] at hi
          omega
  · obtain ⟨hl, -, -, hsame⟩ := h.run (by omega)
    have hle := h.rlength_le
    by_cases hr' : s.rlength = 128
    · have hdump : s.emptyRun c = s.dumpRun := if_pos ⟨hr, .inr hr'⟩
      rw [hdump, handBack_eq_self (.inl (by simp [hl])),
        emptyLiterals_eq_self (s := s.dumpRun) (.inl hl)]
      refine ⟨h.stored.dumpRun (by omega) hle hl hu hsame, rfl, rfl, rfl, h.reads,
        fun _ => ⟨hl, ?_, ?_⟩, fun hn => absurd hc hn⟩
      · simp only [dumpRun_rlength, dumpRun_unclaimed]
        omega
      · intro i hi hi'
        simp only [dumpRun_rlength, dumpRun_unclaimed] at hi
        omega
    · rw [emptyRun_eq_self (.inr ⟨hc.1, hr'⟩), handBack_eq_self (.inl (by omega)),
        emptyLiterals_eq_self (.inl hl)]
      refine ⟨h.stored, rfl, rfl, rfl, h.reads, fun _ => ⟨hl, by omega, ?_⟩, fun hn => absurd hc hn⟩
      intro i hi hi'
      exact Option.some.inj ((hsame i (by omega) hi').trans hc.1.symm)

/-- The character is another one. -/
theorem Packing.ready_literal {c : Byte} (h : s.Packing gbuffer (s.x + 1)) (hlt : s.x < 2 ^ 32)
    (hx : 0 < s.x) (hc : ¬s.Repeats c) :
    s.Ready gbuffer c ((s.emptyRun c).handBack c |>.emptyLiterals gbuffer c) := by
  have hle := h.litlength_le
  have hfits := h.stored.fits
  have hu : s.unclaimed = 0 ∨ s.unclaimed = 1 ∧ s.x = 1 := by
    rw [h.unclaimed]
    split_ifs with hx
    · exact .inr ⟨rfl, hx⟩
    · exact .inl rfl
  by_cases hr : s.rlength = 0
  · rw [emptyRun_eq_self (.inl hr), handBack_eq_self (.inr hc)]
    by_cases hl : s.litlength = 128
    · rw [emptyLiterals, if_pos ⟨by omega, .inr hl⟩]
      refine ⟨h.stored.dumpLiterals (by omega) hle hr hlt, rfl, rfl, rfl,
        h.mem_dumpLiterals (by omega) rfl rfl (by omega) hlt, fun hn => absurd hn hc, fun _ => ⟨hr, ?_⟩⟩
      simp only [dumpLiterals_litlength, dumpLiterals_unclaimed]
      omega
    · rw [emptyLiterals_eq_self (.inr ⟨hc, hl⟩)]
      refine ⟨h.stored, rfl, rfl, rfl, h.reads, fun hn => absurd hn hc, fun _ => ⟨hr, by omega⟩⟩
  · obtain ⟨hl, hu, hlast, hsame⟩ := h.run (by omega)
    have hne : some c ≠ s.lastc := fun heq => hc ⟨heq, heq.trans hlast.symm⟩
    have hdump : s.emptyRun c = s.dumpRun := if_pos ⟨hr, .inl hne⟩
    rw [hdump, handBack_eq_self (.inl (by simp [hl])),
        emptyLiterals_eq_self (s := s.dumpRun) (.inl hl)]
    refine ⟨h.stored.dumpRun (by omega) h.rlength_le hl hu hsame, rfl, rfl, rfl, h.reads,
      fun hn => absurd hn hc, fun _ => ⟨rfl, ?_⟩⟩
    simp only [dumpRun_litlength, dumpRun_unclaimed]
    omega

theorem Ready.advance {c : Byte} {t : Packer} (h : s.Ready gbuffer c t) (hc : c = gbuffer s.x)
    (hx : 0 < s.x) (hlast : s.lastc = some (gbuffer (s.x - 1))) :
    ((t.claim c).advance c).Packing gbuffer (s.x + 1) := by
  have hrepeats : t.Repeats c ↔ s.Repeats c := by rw [Repeats, Repeats, h.lastc, h.lastlastc]
  have hfits := h.stored.fits
  have htx := h.x
  have hlast' : some (gbuffer (t.x + 1 - 2)) = s.lastc := by
    rw [hlast, htx]
    congr 2
  have hthis : gbuffer (t.x + 1 - 1) = c := by rw [Nat.add_sub_cancel, htx, hc]
  by_cases hrep : s.Repeats c
  · have hclaim : (t.claim c).advance c = { t with
        rlength := t.rlength + 1 + t.unclaimed, unclaimed := 0
        x := t.x + 1, lastlastc := t.lastc, lastc := some c } := by
      rw [claim, if_pos (hrepeats.2 hrep)]
      rfl
    obtain ⟨hl, hle, hsame⟩ := h.run hrep
    rw [hclaim]
    obtain ⟨codes, hcodes, hdata⟩ := h.stored.codes
    refine ⟨⟨by dsimp only; omega, codes, hcodes, ?_⟩, by dsimp only; omega, by dsimp only; omega, ?_,
      ?_, ?_, ?_, h.reads⟩
    · rw [hdata]
      congr 2
      dsimp only
      omega
    · refine fun _ => ⟨hl, rfl, h.lastc.trans hrep.1.symm, fun i hi hi' => ?_⟩
      dsimp only at hi hi'
      by_cases hix : i = s.x
      · rw [hix, ← hc]
      · rw [hsame i (by omega) (by omega)]
    · exact (if_neg (by dsimp only; omega)).symm
    · exact (congrArg some hthis.symm).trans (if_neg (by dsimp only; omega)).symm
    · exact (h.lastc.trans hlast'.symm).trans (if_neg (by dsimp only; omega)).symm
  · have hclaim : (t.claim c).advance c = { t with
        litlength := t.litlength + 1 + t.unclaimed, unclaimed := 0
        x := t.x + 1, lastlastc := t.lastc, lastc := some c } := by
      rw [claim, if_neg (mt hrepeats.1 hrep)]
      rfl
    obtain ⟨hr, hle⟩ := h.literal hrep
    rw [hclaim]
    obtain ⟨codes, hcodes, hdata⟩ := h.stored.codes
    refine ⟨⟨by dsimp only; omega, codes, hcodes, ?_⟩, by dsimp only; omega, by dsimp only; omega, ?_,
      ?_, ?_, ?_, h.reads⟩
    · rw [hdata]
      congr 2
      dsimp only
      omega
    · intro hr'
      dsimp only at hr'
      omega
    · exact (if_neg (by dsimp only; omega)).symm
    · exact (congrArg some hthis.symm).trans (if_neg (by dsimp only; omega)).symm
    · exact (h.lastc.trans hlast'.symm).trans (if_neg (by dsimp only; omega)).symm

@[simp]
theorem advance_x (c : Byte) (t : Packer) : (t.advance c).x = t.x + 1 := rfl

@[simp]
theorem claim_x (c : Byte) (t : Packer) : (t.claim c).x = t.x := by
  unfold claim
  split_ifs <;> rfl

theorem Packing.read (h : s.Packing gbuffer s.x) :
    Packing gbuffer (s.x + 1) { s with reads := s.reads ++ [s.x] } where
  stored := h.stored.congr rfl rfl rfl
  rlength_le := h.rlength_le
  litlength_le := h.litlength_le
  run := h.run
  unclaimed := h.unclaimed
  lastc := h.lastc
  lastlastc := h.lastlastc
  reads i := by
    simp only [List.mem_append, List.mem_singleton, h.reads]
    omega

/-- What a round preserves. -/
theorem Packing.round (h : s.Packing gbuffer s.x) (hlt : s.x < 2 ^ 32) {more : Bool}
    (hmore : s.x = 0 → more = true) :
    (s.round gbuffer more).Packing gbuffer (s.x + 1) ∧ (s.round gbuffer more).x = s.x + 1 := by
  have hread := h.read
  unfold Packer.round
  generalize hs : ({ s with reads := s.reads ++ [s.x] } : Packer) = r at hread
  have hx : s.x = r.x := by rw [← hs]
  rw [hx] at hread hlt hmore ⊢
  by_cases h0 : r.x = 0
  · -- The first character is left unclaimed.
    have hlast : r.lastc = none := hread.lastc.trans (if_pos h0)
    have hfits := hread.stored.fits
    have hu : r.unclaimed = 0 := hread.unclaimed.trans (if_neg (by omega))
    dsimp only
    rw [if_pos ⟨hmore h0, hlast⟩]
    obtain ⟨codes, hcodes, hdata⟩ := hread.stored.codes
    refine ⟨⟨⟨?_, codes, hcodes, ?_⟩, hread.rlength_le, hread.litlength_le, ?_, ?_, ?_, ?_,
      hread.reads⟩, rfl⟩
    · simp only [Packer.advance]
      omega
    · rw [hdata]
      congr 2
      simp only [Packer.advance]
      omega
    · intro hr
      simp only [Packer.advance] at hr
      omega
    · simp [Packer.advance, h0, hu]
    · simp [Packer.advance]
    · simp [Packer.advance, h0, hlast]
  · have hlast : r.lastc = some (gbuffer (r.x - 1)) := hread.lastc.trans (if_neg h0)
    have hready : r.Ready gbuffer (gbuffer r.x)
        ((r.emptyRun (gbuffer r.x)).handBack (gbuffer r.x) |>.emptyLiterals gbuffer (gbuffer r.x)) := by
      by_cases hc : r.Repeats (gbuffer r.x)
      · exact hread.ready_run hlt hc
      · exact hread.ready_literal hlt (by omega) hc
    dsimp only
    rw [if_neg (by simp [hlast])]
    refine ⟨hready.advance rfl (by omega) hlast, ?_⟩
    rw [advance_x, claim_x, hready.x]

/-- What the loop preserves. -/
theorem Packing.loop (n : ℕ) (h : s.Packing gbuffer s.x) (hlt : s.x + n < 2 ^ 32)
    (hn : s.x = 0 → n ≠ 1) :
    (Packer.loop gbuffer n s).Packing gbuffer (s.x + n) ∧ (Packer.loop gbuffer n s).x = s.x + n := by
  induction n generalizing s with
  | zero => exact ⟨h, rfl⟩
  | succ n ih =>
    have hmore : s.x = 0 → decide (n ≠ 0) = true := fun hx => decide_eq_true (by have := hn hx; omega)
    obtain ⟨hround, hx⟩ := h.round (by omega) hmore
    have hrest := ih (s := s.round gbuffer (n ≠ 0)) (by rwa [hx]) (by omega) (by omega)
    rw [hx] at hrest
    have hcount : s.x + (n + 1) = s.x + 1 + n := by omega
    rw [hcount]
    exact hrest

theorem Packing.finish {n : ℕ} (h : s.Packing gbuffer n) (hx : 2 ≤ s.x) (hlt : s.x < 2 ^ 32)
    (hn : s.x ≤ n) :
    (∃ codes : List Code, (s.finish gbuffer).gbuffer2 = codes.flatMap Code.octets ∧
      codes.flatMap Code.data = (List.range s.x).map gbuffer) ∧
      ∀ i, i ∈ (s.finish gbuffer).reads ↔ i < n := by
  have hu : s.unclaimed = 0 := h.unclaimed.trans (if_neg (by omega))
  have hfits := h.stored.fits
  have whole : ∀ t : Packer, t.Stored gbuffer → t.x = s.x → t.rlength + t.litlength + t.unclaimed = 0 →
      ∃ codes : List Code, t.gbuffer2 = codes.flatMap Code.octets ∧
        codes.flatMap Code.data = (List.range s.x).map gbuffer := by
    intro t ht htx hrest
    obtain ⟨codes, hcodes, hdata⟩ := ht.codes
    rw [hrest, Nat.sub_zero, htx] at hdata
    exact ⟨codes, hcodes, hdata⟩
  unfold Packer.finish
  split_ifs with hr hl
  · obtain ⟨hl, -, -, hsame⟩ := h.run (by omega)
    refine ⟨whole _ (h.stored.dumpRun (by omega) h.rlength_le hl hu hsame) rfl ?_, h.reads⟩
    rw [dumpRun_rlength, dumpRun_litlength, dumpRun_unclaimed, hl, hu]
  · refine ⟨whole _ (h.stored.dumpLiterals (by omega) h.litlength_le (by omega) hlt) rfl ?_,
      h.mem_dumpLiterals hn rfl rfl (by omega) hlt⟩
    rw [dumpLiterals_rlength, dumpLiterals_litlength, dumpLiterals_unclaimed, hu]
    omega
  · exact ⟨whole s h.stored rfl (by omega), h.reads⟩

end Packer

/-- What is stored stands for the characters and one more. -/
theorem pack_spec (gbuffer : ℕ → Byte) {n : ℕ} (hn : 0 < n) (hlt : n + 1 < 2 ^ 32) :
    (∃ codes : List PsFilters.RunLength.Code,
      (pack gbuffer n).gbuffer2 = codes.flatMap PsFilters.RunLength.Code.octets ∧
        codes.flatMap PsFilters.RunLength.Code.data = (List.range (n + 1)).map gbuffer) ∧
      ∀ i, i ∈ (pack gbuffer n).reads ↔ i < n + 1 := by
  have hstart : Packer.Packing gbuffer 0 {} :=
    ⟨⟨Nat.le_refl 0, [], rfl, rfl⟩, Nat.zero_le _, Nat.zero_le _, nofun, rfl, rfl, rfl, fun i => by simp⟩
  obtain ⟨hloop, hx⟩ := hstart.loop (s := {}) (n + 1) (by change 0 + (n + 1) < _; omega) fun _ => by omega
  have hx : (Packer.loop gbuffer (n + 1) {}).x = n + 1 := hx.trans (Nat.zero_add _)
  rw [Nat.zero_add] at hloop
  have hfinish := hloop.finish (by omega) (by omega) (by omega)
  rw [hx] at hfinish
  exact hfinish

end Ppr.Dotmatrix
