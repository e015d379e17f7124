import Ppr.Proof.Loads

/-!
# Mounted media after a restart

What `media_mounted_recover()` makes of the file that `media_mounted_save()` has written.  A printer's
bins are seen as pairs of names: the ids of the media are given out anew.  The names of bins and media go
through fields of 16 characters, and a mount command and the recovery find the first bin of a name.
-/

namespace Ppr

/-! ## Bins and their media -/

/-- The bins of a printer and the media on them. -/
def binView (s : Pprd) (prnid : ℕ) : List (String × String) :=
  (s.printers prnid).bins.map fun b => (b.name, getMediaName s b.media)

/-- The medium on the bin that a mount command with this name finds. -/
def mediumOn (view : List (String × String)) (bin : String) : String :=
  ((view.find? fun b => b.1 = bin).map Prod.snd).getD ""

/-- Every bin with the medium mounted on its name: the first of a name has it, the others nothing. -/
def assign (f : String → String) : List String → List (String × String)
  | [] => []
  | n :: ns => (n, f n) :: assign (Function.update f n "") ns

/-- Mount a medium on the first bin of a name. -/
def setFirst (view : List (String × String)) (bin medium : String) : List (String × String) :=
  match view with
  | [] => []
  | b :: bs => if b.1 = bin then (bin, medium) :: bs else b :: setFirst bs bin medium

theorem assign_congr {f g : String → String} {ns : List String} :
    assign f ns = assign g ns ↔ ∀ n ∈ ns, f n = g n := by
  induction ns generalizing f g with
  | nil => simp [assign]
  | cons n ns ih =>
    rw [assign, assign, List.cons.injEq, Prod.mk.injEq, ih, List.forall_mem_cons]
    constructor
    · rintro ⟨⟨-, hn⟩, hns⟩
      refine ⟨hn, fun k hk => ?_⟩
      by_cases hkn : k = n
      · rw [hkn, hn]
      · have hk' := hns k hk
        rwa [Function.update_of_ne hkn, Function.update_of_ne hkn] at hk'
    · rintro ⟨hn, hns⟩
      refine ⟨⟨rfl, hn⟩, fun k hk => ?_⟩
      by_cases hkn : k = n
      · rw [hkn, Function.update_self, Function.update_self]
      · rw [Function.update_of_ne hkn, Function.update_of_ne hkn, hns k hk]

/-- Mounting changes what is mounted on the name. -/
theorem setFirst_assign {f : String → String} {ns : List String} {bin : String} (medium : String)
    (h : bin ∈ ns) : setFirst (assign f ns) bin medium = assign (Function.update f bin medium) ns := by
  induction ns generalizing f with
  | nil => cases h
  | cons n ns ih =>
    rw [assign, setFirst, assign]
    by_cases hn : n = bin
    · rw [if_pos hn, hn, Function.update_self, Function.update_idem]
    · rw [if_neg hn, Function.update_of_ne hn, Function.update_comm (Ne.symm hn),
        ih (List.mem_of_ne_of_mem (Ne.symm hn) h)]

theorem setFirst_of_notMem {f : String → String} {ns : List String} {bin : String} (medium : String)
    (h : bin ∉ ns) : assign (Function.update f bin medium) ns = assign f ns :=
  assign_congr.2 fun n hn => Function.update_of_ne (fun e : n = bin => h (e ▸ hn)) _ _

theorem assign_none (ns : List String) : assign (fun _ => "") ns = ns.map fun n => (n, "") := by
  induction ns with
  | nil => rfl
  | cons n ns ih => rw [assign, Function.update_eq_self_iff.2 rfl, ih, List.map_cons]

theorem setBin_cons (b : Bin) (bins : List Bin) (bin : String) (m : ℤ) :
    setBin (b :: bins) bin m =
      if b.name = bin then { b with media := m } :: bins else b :: setBin bins bin m := by
  unfold setBin
  by_cases h : b.name = bin
  · rw [if_pos h, List.findIdx?_cons, if_pos (by simp [h])]
    rfl
  · rw [if_neg h, List.findIdx?_cons, if_neg (by simp [h])]
    cases bins.findIdx? fun b => b.name = bin <;> rfl

/-- Mounting, seen through the names of the media. -/
theorem map_setBin {g g' : ℤ → String} {bins : List Bin} {bin : String} {m : ℤ}
    (h : ∀ b ∈ bins, g b.media = g' b.media) :
    (setBin bins bin m).map (fun b => (b.name, g b.media)) =
      setFirst (bins.map fun b => (b.name, g' b.media)) bin (g m) := by
  induction bins with
  | nil => rfl
  | cons b bins ih =>
    obtain ⟨hb, hbins⟩ := List.forall_mem_cons.1 h
    have hrest : bins.map (fun b => (b.name, g b.media)) = bins.map fun b => (b.name, g' b.media) :=
      List.map_congr_left fun b hb => by rw [hbins b hb]
    rw [setBin_cons, List.map_cons, setFirst]
    by_cases hname : b.name = bin
    · rw [if_pos hname, if_pos hname, List.map_cons, hrest, hname]
    · rw [if_neg hname, if_neg hname, List.map_cons, ih hbins, hb]

/-! ## The table of media -/

/-- An id of the table, or -1. -/
def ValidId (s : Pprd) (m : ℤ) : Prop := m = -1 ∨ 0 ≤ m ∧ m < s.media.length

/-- What an unknown name adds to the table. -/
def added (s : Pprd) (name : String) : List String :=
  if name = "" ∨ name ∈ s.media then [] else [name]

theorem getMediaName_append {s : Pprd} {m : ℤ} (h : ValidId s m) (l : List String) :
    getMediaName { s with media := s.media ++ l } m = getMediaName s m := by
  unfold getMediaName
  rcases h with rfl | ⟨h0, hlt⟩
  · rfl
  · dsimp only
    rw [List.getElem?_append_left (by omega)]

theorem ValidId.append {s : Pprd} {m : ℤ} (h : ValidId s m) (l : List String) :
    ValidId { s with media := s.media ++ l } m := by
  refine h.imp_right fun ⟨h0, hlt⟩ => ⟨h0, ?_⟩
  rw [List.length_append]
  omega

/-- A name's id has that name. -/
theorem getMediaId_ok {s : Pprd} {name : String} (h : (added s name).length + s.media.length ≤ maxMedia) :
    ∃ m, getMediaId s name = .ok ({ s with media := s.media ++ added s name }, m) ∧
      ValidId { s with media := s.media ++ added s name } m ∧
      getMediaName { s with media := s.media ++ added s name } m = name := by
  unfold getMediaId
  by_cases hempty : name = ""
  · refine ⟨-1, ?_, .inl rfl, ?_⟩
    · rw [if_pos hempty, added, if_pos (.inl hempty), List.append_nil]
    · rw [hempty]
      rfl
  rw [if_neg hempty]
  cases hfind : s.media.findIdx? fun m => m = name with
  | some x =>
    obtain ⟨hx, hname, -⟩ := List.findIdx?_eq_some_iff_getElem.1 hfind
    have hname' : s.media[x] = name := by simpa using hname
    have hadded : added s name = [] := if_pos (.inr (hname' ▸ List.getElem_mem hx))
    rw [hadded, List.append_nil]
    refine ⟨x, rfl, .inr ⟨by omega, by exact_mod_cast hx⟩, ?_⟩
    rw [getMediaName, if_neg (by omega), Int.toNat_natCast, List.getElem?_eq_getElem hx, hname']
    rfl
  | none =>
    have hnot : name ∉ s.media := fun hmem => by simpa using List.findIdx?_eq_none_iff.1 hfind name hmem
    have hadded : added s name = [name] := if_neg (not_or.2 ⟨hempty, hnot⟩)
    rw [hadded] at h ⊢
    rw [List.length_singleton] at h
    dsimp only
    rw [if_neg (by omega)]
    refine ⟨s.media.length, rfl, .inr ⟨by omega, by simp⟩, ?_⟩
    rw [getMediaName, if_neg (by omega), Int.toNat_natCast]
    simp

/-- No room for an unknown name. -/
theorem getMediaId_error {s : Pprd} {name : String} (hlen : s.media.length ≤ maxMedia)
    (h : maxMedia < (added s name).length + s.media.length) :
    getMediaId s name = .error .mediaOverflow := by
  unfold added at h
  split_ifs at h with hknown
  · rw [List.length_nil] at h
    omega
  · rw [not_or] at hknown
    rw [List.length_singleton] at h
    have hfind : (s.media.findIdx? fun m => m = name) = none :=
      List.findIdx?_eq_none_iff.2 fun m hm => decide_eq_false fun e => hknown.2 (e ▸ hm)
    rw [getMediaId, if_neg hknown.1, hfind]
    dsimp only
    rw [if_pos (by omega)]

/-! ## Reading the file -/

def binNames (s : Pprd) (prnid : ℕ) : List String := (s.printers prnid).bins.map Bin.name

/-- The media in the file that are on bins of the configuration. -/
def mediaInFile (names : List String) (pairs : List (String × String)) : Finset String :=
  ((pairs.filter fun b => b.1 ∈ names).map Prod.snd).toFinset.erase ""

/-- The table has room for the media in the file. -/
def HasRoom (s : Pprd) (names : List String) (pairs : List (String × String)) : Prop :=
  (mediaInFile names pairs \ s.media.toFinset).card + s.media.length ≤ maxMedia

/-- The loop of `media_mounted_recover()`. -/
def recoverPairs (prnid : ℕ) (s : Pprd) (pairs : List (String × String)) : Except Stop Pprd :=
  pairs.foldlM (fun s (abin, amedia) =>
    if ((s.printers prnid).bins.any fun b => b.name = abin) then do
      let (s, m) ← getMediaId s amedia
      .ok (s.modifyPrinter prnid fun p => { p with bins := setBin p.bins abin m })
    else .ok s) s

/-- Mount the media of a file. -/
def setPairs (f : String → String) (pairs : List (String × String)) : String → String :=
  pairs.foldl (fun f b => Function.update f b.1 b.2) f

theorem mem_mediaInFile_cons {names : List String} {b : String × String} {pairs : List (String × String)}
    (hb : b.1 ∈ names) {m : String} :
    m ∈ mediaInFile names (b :: pairs) ↔ m ≠ "" ∧ (m = b.2 ∨ m ∈ mediaInFile names pairs) := by
  rw [mediaInFile, List.filter_cons, if_pos (decide_eq_true hb), List.map_cons, List.toFinset_cons,
    Finset.mem_erase, Finset.mem_insert, mediaInFile, Finset.mem_erase]
  exact and_congr_right fun hne => or_congr_right (and_iff_right hne).symm

theorem mediaInFile_cons {s : Pprd} {names : List String} {b : String × String}
    {pairs : List (String × String)} (hb : b.1 ∈ names) :
    mediaInFile names (b :: pairs) \ s.media.toFinset =
      (added s b.2).toFinset ∪ (mediaInFile names pairs \ (s.media ++ added s b.2).toFinset) := by
  ext m
  have hempty : "" ∉ mediaInFile names pairs := Finset.notMem_erase _ _
  rw [Finset.mem_sdiff, mem_mediaInFile_cons hb, Finset.mem_union, Finset.mem_sdiff, List.mem_toFinset,
    List.mem_toFinset, List.mem_toFinset, List.mem_append]
  by_cases hknown : b.2 = "" ∨ b.2 ∈ s.media
  · have hadded : added s b.2 = [] := if_pos hknown
    rw [hadded]
    constructor
    · rintro ⟨⟨hne, rfl | hm⟩, hnot⟩
      · exact absurd hknown (not_or.2 ⟨hne, hnot⟩)
      · exact .inr ⟨hm, by simpa using hnot⟩
    · rintro (hm | ⟨hm, hnot⟩)
      · cases hm
      · exact ⟨⟨fun e => hempty (e ▸ hm), .inr hm⟩, fun h => hnot (.inl h)⟩
  · have hadded : added s b.2 = [b.2] := if_neg hknown
    rw [not_or] at hknown
    rw [hadded, List.mem_singleton]
    constructor
    · rintro ⟨⟨hne, hm⟩, hnot⟩
      by_cases hmb : m = b.2
      · exact .inl hmb
      · exact .inr ⟨hm.resolve_left hmb, not_or.2 ⟨hnot, hmb⟩⟩
    · rintro (rfl | ⟨hm, hnot⟩)
      · exact ⟨⟨hknown.1, .inl rfl⟩, hknown.2⟩
      · exact ⟨⟨fun e => hempty (e ▸ hm), .inr hm⟩, fun h => hnot (.inl h)⟩

theorem card_added (s : Pprd) (name : String) : (added s name).toFinset.card = (added s name).length := by
  unfold added
  split_ifs <;> rfl

/-- A medium of the file is read. -/
theorem hasRoom_cons {s t : Pprd} {names : List String} {b : String × String}
    {pairs : List (String × String)} (hb : b.1 ∈ names) (ht : t.media = s.media ++ added s b.2) :
    HasRoom s names (b :: pairs) ↔ HasRoom t names pairs := by
  have hdisjoint : Disjoint (added s b.2).toFinset
      (mediaInFile names pairs \ (s.media ++ added s b.2).toFinset) := by
    rw [List.toFinset_append]
    exact Finset.disjoint_sdiff.mono_left Finset.subset_union_right
  rw [HasRoom, mediaInFile_cons hb, Finset.card_union_of_disjoint hdisjoint, card_added, HasRoom, ht,
    List.length_append]
  omega

theorem HasRoom.length_le {s : Pprd} {names : List String} {pairs : List (String × String)}
    (h : HasRoom s names pairs) : s.media.length ≤ maxMedia := by
  unfold HasRoom at h
  omega

theorem hasRoom_cons_of_notMem {s : Pprd} {names : List String} {b : String × String}
    {pairs : List (String × String)} (hb : b.1 ∉ names) :
    HasRoom s names (b :: pairs) ↔ HasRoom s names pairs := by
  rw [HasRoom, mediaInFile, List.filter_cons_of_neg (by simpa using hb)]
  rfl

/-- The bins after a medium of the file was mounted. -/
theorem binView_mounted {s : Pprd} {prnid : ℕ} {bin medium : String} {m : ℤ}
    (hvalid : ∀ b ∈ (s.printers prnid).bins, ValidId s b.media)
    (hm : getMediaName { s with media := s.media ++ added s medium } m = medium) :
    binView ({ s with media := s.media ++ added s medium }.modifyPrinter prnid fun p =>
      { p with bins := setBin p.bins bin m }) prnid = setFirst (binView s prnid) bin medium := by
  have hbins : ((({ s with media := s.media ++ added s medium } : Pprd).modifyPrinter prnid fun p =>
      { p with bins := setBin p.bins bin m }).printers prnid).bins = setBin (s.printers prnid).bins bin m := by
    simp [Pprd.modifyPrinter]
  rw [binView, hbins]
  have hset := @map_setBin (getMediaName { s with media := s.media ++ added s medium }) (getMediaName s) _
    bin m fun b hb => getMediaName_append (hvalid b hb) _
  rw [hm] at hset
  exact hset

theorem binNames_mounted (s : Pprd) (prnid : ℕ) (bin : String) (m : ℤ) :
    binNames (s.modifyPrinter prnid fun p => { p with bins := setBin p.bins bin m }) prnid =
      binNames s prnid := by
  simp only [binNames, Pprd.modifyPrinter, Function.update_self]
  exact map_name_setBin _ _ _

theorem validId_mounted {s : Pprd} {bins : List Bin} {bin : String} {m : ℤ} (hm : ValidId s m)
    (h : ∀ b ∈ bins, ValidId s b.media) : ∀ b ∈ setBin bins bin m, ValidId s b.media := by
  induction bins with
  | nil => exact h
  | cons b bins ih =>
    rw [setBin_cons]
    obtain ⟨hb, hbins⟩ := List.forall_mem_cons.1 h
    split_ifs with hname
    · exact List.forall_mem_cons.2 ⟨hm, hbins⟩
    · exact List.forall_mem_cons.2 ⟨hb, ih hbins⟩

/-- One turn of the loop, for a bin of the configuration. -/
theorem recoverPairs_cons {s : Pprd} {prnid : ℕ} {b : String × String} (pairs : List (String × String))
    (hvalid : ∀ b ∈ (s.printers prnid).bins, ValidId s b.media) (hb : b.1 ∈ binNames s prnid)
    (hfit : (added s b.2).length + s.media.length ≤ maxMedia) :
    ∃ t, recoverPairs prnid s (b :: pairs) = recoverPairs prnid t pairs ∧
      t.media = s.media ++ added s b.2 ∧ (∀ b ∈ (t.printers prnid).bins, ValidId t b.media) ∧
      binNames t prnid = binNames s prnid ∧ binView t prnid = setFirst (binView s prnid) b.1 b.2 := by
  obtain ⟨m, hid, hvalidm, hname⟩ := getMediaId_ok hfit
  refine ⟨_, ?_, rfl, ?_, binNames_mounted { s with media := s.media ++ added s b.2 } prnid b.1 m,
    binView_mounted hvalid hname⟩
  · rw [recoverPairs, List.foldlM_cons]
    dsimp only
    rw [if_pos (by simpa [binNames] using hb), hid]
    rfl
  · simp only [Pprd.modifyPrinter, Function.update_self]
    exact validId_mounted hvalidm fun c hc => (hvalid c hc).append _

/-- What the loop makes of the bins. -/
theorem recoverPairs_spec {s : Pprd} {prnid : ℕ} {f : String → String} {pairs : List (String × String)}
    (hlen : s.media.length ≤ maxMedia) (hvalid : ∀ b ∈ (s.printers prnid).bins, ValidId s b.media)
    (hview : binView s prnid = assign f (binNames s prnid)) :
    (HasRoom s (binNames s prnid) pairs → ∃ t, recoverPairs prnid s pairs = .ok t ∧
      binView t prnid = assign (setPairs f pairs) (binNames s prnid)) ∧
    (¬HasRoom s (binNames s prnid) pairs → recoverPairs prnid s pairs = .error .mediaOverflow) := by
  induction pairs generalizing s f with
  | nil =>
    refine ⟨fun _ => ⟨s, rfl, hview⟩, fun h => absurd ?_ h⟩
    rw [HasRoom, mediaInFile]
    simpa using hlen
  | cons b pairs ih =>
    have hany : ((s.printers prnid).bins.any fun c => c.name = b.1) = true ↔ b.1 ∈ binNames s prnid := by
      simp [binNames]
    by_cases hb : b.1 ∈ binNames s prnid
    · by_cases hfit : (added s b.2).length + s.media.length ≤ maxMedia
      · obtain ⟨t, hstep, hmedia, hvalid', hnames, hview'⟩ := recoverPairs_cons pairs hvalid hb hfit
        rw [hview, setFirst_assign b.2 hb, ← hnames] at hview'
        rw [hstep, hasRoom_cons hb hmedia, ← hnames]
        refine ih ?_ hvalid' hview'
        rw [hmedia, List.length_append, Nat.add_comm]
        exact hfit
      · have hroom : ¬HasRoom s (binNames s prnid) (b :: pairs) := fun h => by
          have hle := ((hasRoom_cons (t := { s with media := s.media ++ added s b.2 }) hb rfl).1 h).length_le
          dsimp only at hle
          rw [List.length_append] at hle
          omega
        refine ⟨fun h => absurd h hroom, fun _ => ?_⟩
        rw [recoverPairs, List.foldlM_cons]
        dsimp only
        rw [if_pos (hany.2 hb), getMediaId_error hlen (by omega)]
        rfl
    · have hstep : recoverPairs prnid s (b :: pairs) = recoverPairs prnid s pairs := by
        rw [recoverPairs, List.foldlM_cons]
        dsimp only
        rw [if_neg (fun h => hb (hany.1 h))]
        rfl
      have hset : assign (Function.update f b.1 b.2) (binNames s prnid) = assign f (binNames s prnid) :=
        setFirst_of_notMem b.2 hb
      rw [hstep, hasRoom_cons_of_notMem hb]
      exact ih (f := Function.update f b.1 b.2) hlen hvalid (hview.trans hset.symm)

/-- The last medium of a name is the one that stays. -/
theorem setPairs_apply (f : String → String) (pairs : List (String × String)) (n : String) :
    setPairs f pairs n = ((pairs.reverse.find? fun b => b.1 = n).map Prod.snd).getD (f n) := by
  induction pairs generalizing f with
  | nil => rfl
  | cons b pairs ih =>
    have hcons : setPairs f (b :: pairs) = setPairs (Function.update f b.1 b.2) pairs := rfl
    rw [hcons, ih, List.reverse_cons, List.find?_append]
    cases pairs.reverse.find? fun b => b.1 = n with
    | some c => rfl
    | none =>
      by_cases hb : b.1 = n
      · simp [hb]
      · simp [hb, Function.update_of_ne (Ne.symm hb)]

/-! ## Saving and recovering -/

theorem padded_padded (name : String) : padded (padded name) = padded name := by
  have hlen : (((name.toList.take maxMedianame).reverse.dropWhile (· = ' ')).reverse).length ≤ maxMedianame := by
    rw [List.length_reverse]
    refine ((List.dropWhile_sublist _).length_le).trans ?_
    rw [List.length_reverse]
    exact List.length_take_le _ _
  simp only [padded, String.toList_ofList, List.take_of_length_le hlen, List.reverse_reverse]
  rw [List.dropWhile_idempotent]

/-- The file of `media_mounted_save()`. -/
def savedPairs (s : Pprd) (prnid : ℕ) : List (String × String) :=
  (binView s prnid).map fun b => (padded b.1, padded b.2)

/-- The last bin that is in the file under a name. -/
def lastUnder (view : List (String × String)) (n : String) : Option (String × String) :=
  view.reverse.find? fun b => padded b.1 = n

/-- A bin whose medium is saved: its name and the medium's have no blanks at the end and are not too
long, and no bin behind it that is in the file under the same name has another medium.  Of a name that
nothing is mounted on, no bin is in the file under it with a medium. -/
structure SavedWell (view : List (String × String)) (n : String) : Prop where
  fits : mediumOn view n ≠ "" → padded n = n ∧ padded (mediumOn view n) = mediumOn view n
  last : ∀ b, lastUnder view n = some b → padded b.2 = padded (mediumOn view n)

/-- The printer `prnid` of `s` has been loaded once more, as printer `x` of `t`; nothing is mounted on
its bins yet, whatever bins it has now. -/
structure StartedAgain (s : Pprd) (prnid : ℕ) (t : Pprd) (x : ℕ) : Prop where
  file : t.disk.mounted (destidToName t x) = (mediaMountedSave s prnid).disk.mounted (destidToName s prnid)
  unmounted : ∀ b ∈ (t.printers x).bins, b.media = -1
  table : t.media.length ≤ maxMedia

/-- Every bin has its medium again; a bin that was not there, or had nothing, has nothing. -/
def Restored (s : Pprd) (prnid : ℕ) (t : Pprd) (x : ℕ) : Prop :=
  ∃ u, mediaMountedRecover t x = .ok u ∧
    binView u x = assign (mediumOn (binView s prnid)) (binNames t x)

theorem StartedAgain.recover_eq {s t : Pprd} {prnid x : ℕ} (h : StartedAgain s prnid t x) :
    mediaMountedRecover t x = recoverPairs x t (savedPairs s prnid) := by
  have hfile : t.disk.mounted (destidToName t x) = some (savedPairs s prnid) := by
    rw [h.file, mediaMountedSave, savedPairs, binView, List.map_map]
    exact Function.update_self ..
  rw [mediaMountedRecover, hfile]
  rfl

theorem StartedAgain.binView_eq {s t : Pprd} {prnid x : ℕ} (h : StartedAgain s prnid t x) :
    binView t x = assign (fun _ => "") (binNames t x) := by
  rw [assign_none, binNames, List.map_map]
  refine List.map_congr_left fun b hb => ?_
  rw [h.unmounted b hb]
  rfl

theorem savedWell_iff {view : List (String × String)} {n : String} :
    SavedWell view n ↔
      setPairs (fun _ => "") (view.map fun b => (padded b.1, padded b.2)) n = mediumOn view n := by
  have hread : setPairs (fun _ => "") (view.map fun b => (padded b.1, padded b.2)) n =
      ((lastUnder view n).map fun b => padded b.2).getD "" := by
    rw [setPairs_apply, ← List.map_reverse, List.find?_map, Option.map_map, lastUnder]
    rfl
  rw [hread]
  constructor
  · intro h
    cases hlast : lastUnder view n with
    | none =>
      -- A bin with a medium on it is in the file under its own name.
      by_contra hne
      have hmounted : mediumOn view n ≠ "" := fun e => hne (by rw [e]; rfl)
      cases hfind : view.find? fun b => b.1 = n with
      | none => exact hmounted (by rw [mediumOn, hfind]; rfl)
      | some b =>
        have hname : b.1 = n := by simpa using List.find?_some hfind
        have hnot := List.find?_eq_none.1 hlast b (List.mem_reverse.2 (List.mem_of_find?_eq_some hfind))
        rw [hname, (h.fits hmounted).1] at hnot
        exact hnot (decide_eq_true rfl)
    | some b =>
      have hb := h.last b hlast
      by_cases hmounted : mediumOn view n = ""
      · rw [hmounted] at hb ⊢
        exact hb
      · rw [(h.fits hmounted).2] at hb
        exact hb
  · intro h
    cases hlast : lastUnder view n with
    | none =>
      rw [hlast] at h
      exact ⟨fun hne => absurd h.symm hne, by rw [hlast]; simp⟩
    | some b =>
      rw [hlast] at h
      have hb : padded b.2 = mediumOn view n := h
      have hname : padded b.1 = n := by simpa using List.find?_some hlast
      refine ⟨fun _ => ⟨?_, ?_⟩, ?_⟩
      · rw [← hname, padded_padded]
      · rw [← hb, padded_padded]
      · intro c hc
        obtain rfl := Option.some.inj (hlast.symm.trans hc)
        rw [← hb, padded_padded]

/-- Mount commands, after a printer was loaded with nothing on its bins. -/
inductive Mounted (os : ℕ → Bool) (prnid : ℕ) : Pprd → Prop
  | loaded {s : Pprd} (h : ∀ b ∈ (s.printers prnid).bins, b.media = -1) : Mounted os prnid s
  | mount {s t : Pprd} {printer bin medium : String} {reply : PpopReply} (hs : Mounted os prnid s)
      (h : ppopMount os s printer bin medium = .ok (t, reply)) : Mounted os prnid t

/-- A daemon with the printer "laser", its bins and the "mounted" file. -/
def laser (bins : List String) (file : Option (List (String × String))) : Pprd :=
  let s := Boot.empty
    { mem := fun _ => default, printers := [], groups := [], queue := []
      disk := ⟨fun _ => none, fun _ => none, fun _ => none, fun _ => file, 0⟩ }
  { loadPrinter s 0 "laser" ⟨bins⟩ with printerCount := 1 }

theorem laser_unmounted (bins : List String) (file : Option (List (String × String))) :
    ∀ b ∈ ((laser bins file).printers 0).bins, b.media = -1 := by
  intro b hb
  simp only [laser, loadPrinter, Pprd.modifyPrinter, Function.update_self, List.mem_map] at hb
  obtain ⟨n, -, rfl⟩ := hb
  rfl

theorem laser_startedAgain (s : Pprd) (bins : List String) :
    StartedAgain s 0 (laser bins (some (savedPairs s 0))) 0 where
  file := by
    have hsaved : (mediaMountedSave s 0).disk.mounted (destidToName s 0) = some (savedPairs s 0) := by
      rw [mediaMountedSave, savedPairs, binView, List.map_map]
      exact Function.update_self ..
    rw [hsaved]
    rfl
  unmounted := laser_unmounted _ _
  table := Nat.zero_le _

end Ppr
