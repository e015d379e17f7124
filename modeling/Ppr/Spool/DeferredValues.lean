import Ppr.Spool.DeferredLists
import Ppr.Spool.PagesNamed

/-!
# The values of a document

Where the comments that count have values and the lists are not cleared for each other, ppr ends up with what
the comments say.
-/

namespace Ppr

variable {V : Type}

/-! ## What is read of the trailer -/

/-- The comments of the trailer that are read: those that the header has deferred. -/
def readInTrailer (header trailer : List HeaderLine) : List (Deferrable × KeyLine) :=
  (trailer.filterMap keyLine).filter fun x => x.2.heeded x.1 && startsAtend x.1 (linesOf x.1 header)

/-- In the trailer only `ATEND_KEYWORD_SEEN` changes. -/
theorem handleAtend_trailer (k : Deferrable) (flags : AtendFlags) (args : List (List Byte)) :
    (handleAtend k flags args true).1.deferred = flags.deferred := by
  unfold handleAtend
  cases isAtend k args <;> rfl

theorem heedAll_trailer (atend : Deferrable → AtendFlags) (ls : List HeaderLine) :
    heedAll true atend ls = (ls.filterMap keyLine).filter fun x => x.2.heeded x.1 && (atend x.1).deferred := by
  induction ls generalizing atend with
  | nil => rfl
  | cons l ls ih =>
    rw [heedAll, List.filterMap_cons]
    unfold heed
    cases hl : keyLine l with
    | none => exact ih atend
    | some x =>
      obtain ⟨k, kl⟩ := x
      dsimp only
      by_cases hargs : kl.args = []
      · rw [if_pos hargs, List.filter_cons_of_neg (by simp [KeyLine.heeded, KeyLine.worded, hargs])]
        exact ih atend
      · rw [if_neg hargs, ih]
        have hkept : ∀ k', (Function.update atend k (handleAtend k (atend k) kl.args true).1 k').deferred =
            (atend k').deferred := by
          intro k'
          by_cases hk : k' = k
          · rw [hk, Function.update_self, handleAtend_trailer]
          · rw [Function.update_of_ne hk]
        simp only [hkept]
        have hworded : kl.worded = true := by simp [KeyLine.worded, hargs]
        unfold handleAtend
        cases hatend : isAtend k kl.args
        · cases hdeferred : (atend k).deferred
          · rw [List.filter_cons_of_neg (by simp [hdeferred])]
            simp
          · rw [List.filter_cons_of_pos (by simp [KeyLine.heeded, hworded, hatend, hdeferred])]
            simp
        · rw [List.filter_cons_of_neg (by simp [KeyLine.heeded, hatend])]
          simp

theorem heedAll_readInTrailer (header trailer : List HeaderLine) :
    heedAll true (atendAll false (fun _ => atendClear) header) trailer = readInTrailer header trailer := by
  rw [heedAll_trailer]
  refine congrArg (fun p => List.filter p _) (funext fun x => ?_)
  rw [(only_heedAll x.1 false _ header).2, (heedLines_header x.1 _).2]

/-! ## The occurrences that count -/

/-- The first line that names something is in the first occurrence, if this has one. -/
theorem find?_occurrence {n : ℕ} {ls : List KeyLine} (hsorted : ls.Pairwise fun l m => l.number ≤ m.number)
    (hle : ∀ l ∈ ls, n ≤ l.number) (hworded : ∃ l ∈ occurrence n ls, l.worded = true) :
    (occurrence n ls).find? KeyLine.worded = ls.find? KeyLine.worded := by
  induction ls with
  | nil => rfl
  | cons l ls ih =>
    obtain ⟨hl, hsorted⟩ := List.pairwise_cons.1 hsorted
    obtain ⟨hnl, hle⟩ := List.forall_mem_cons.1 hle
    by_cases hn : l.number = n
    · have hcons : occurrence n (l :: ls) = l :: occurrence n ls := List.filter_cons_of_pos (by simpa using hn)
      rw [hcons] at hworded ⊢
      cases hw : l.worded with
      | true => rw [List.find?_cons_of_pos hw, List.find?_cons_of_pos hw]
      | false =>
        rw [List.find?_cons_of_neg (by simp [hw]), List.find?_cons_of_neg (by simp [hw])]
        refine ih hsorted hle ?_
        obtain ⟨m, hm, hmw⟩ := hworded
        rcases List.mem_cons.1 hm with rfl | hm
        · rw [hw] at hmw
          cases hmw
        · exact ⟨m, hm, hmw⟩
    · obtain ⟨m, hm, -⟩ := hworded
      obtain ⟨hm, hmn⟩ := List.mem_filter.1 hm
      have hmn : m.number = n := of_decide_eq_true hmn
      rcases List.mem_cons.1 hm with rfl | hm
      · exact absurd hmn hn
      · have := hl m hm
        omega

theorem startsAtend_occurrence {c : ListComment} {n : ℕ} {ls : List KeyLine}
    (hsorted : ls.Pairwise fun l m => l.number ≤ m.number) (hle : ∀ l ∈ ls, n ≤ l.number)
    (hworded : ∃ l ∈ occurrence n ls, l.worded = true) :
    startsAtend (.list c) ls = deferredBy c (occurrence n ls) := by
  rw [startsAtend, deferredBy, find?_occurrence hsorted hle hworded]

/-- Lines without a word list nothing. -/
theorem entriesIn_heeded (D : Doubles V) {c : ListComment} {ls : List KeyLine}
    (h : ∀ l ∈ ls, isAtend (.list c) l.args = false) :
    entriesIn D c (ls.filter (KeyLine.heeded (.list c))) = entriesIn D c ls := by
  induction ls with
  | nil => rfl
  | cons l ls ih =>
    obtain ⟨hl, hls⟩ := List.forall_mem_cons.1 h
    have hrest := ih hls
    unfold entriesIn at hrest ⊢
    by_cases hargs : l.args = []
    · have hnone : entriesOf D c l.args = [] := by
        rw [hargs]
        cases c <;> rfl
      rw [List.filter_cons_of_neg (by simp [KeyLine.heeded, KeyLine.worded, hargs]), hrest, List.flatMap_cons, hnone,
        List.nil_append]
    · rw [List.filter_cons_of_pos (by simp [KeyLine.heeded, KeyLine.worded, hargs, hl]), List.flatMap_cons, hrest,
        List.flatMap_cons]

theorem occurrence_filter (n : ℕ) (p : KeyLine → Bool) (ls : List KeyLine) :
    occurrence n (ls.filter p) = (occurrence n ls).filter p := List.filter_comm ..

/-- A line of an occurrence that is read. -/
theorem mem_heeded {c : ListComment} {n : ℕ} {ls : List KeyLine} (hworded : ∃ l ∈ occurrence n ls, l.worded = true)
    (hno : ∀ l ∈ occurrence n ls, isAtend (.list c) l.args = false) :
    ∃ l ∈ ls.filter (KeyLine.heeded (.list c)), l.number = n := by
  obtain ⟨l, hl, hw⟩ := hworded
  obtain ⟨hmem, hn⟩ := List.mem_filter.1 hl
  exact ⟨l, List.mem_filter.2 ⟨hmem, by rw [KeyLine.heeded, hw, hno l hl]; rfl⟩, of_decide_eq_true hn⟩

/-- The first occurrence is still the first among the lines that are read. -/
theorem firstList_heeded (D : Doubles V) {c : ListComment} {h : KeyLine} {ls : List KeyLine}
    (hsorted : (h :: ls).Pairwise fun l m => l.number ≤ m.number)
    (hworded : ∃ l ∈ occurrence h.number (h :: ls), l.worded = true)
    (hno : ∀ l ∈ occurrence h.number (h :: ls), isAtend (.list c) l.args = false) :
    firstList D c ((h :: ls).filter (KeyLine.heeded (.list c))) = entriesIn D c (occurrence h.number (h :: ls)) := by
  have hfirst : firstNumber ((h :: ls).filter (KeyLine.heeded (.list c))) = h.number := by
    obtain ⟨l, hl, hn⟩ := mem_heeded hworded hno
    have hsorted' := hsorted.filter (KeyLine.heeded (.list c))
    have hmem : ∀ m ∈ (h :: ls).filter (KeyLine.heeded (.list c)), h.number ≤ m.number := fun m hm => by
      rcases List.mem_cons.1 (List.mem_filter.1 hm).1 with rfl | hm
      · exact le_rfl
      · exact (List.pairwise_cons.1 hsorted).1 m hm
    generalize (h :: ls).filter (KeyLine.heeded (.list c)) = ms at hl hsorted' hmem ⊢
    obtain ⟨m, rest, rfl⟩ := List.exists_cons_of_ne_nil (List.ne_nil_of_mem hl)
    refine le_antisymm ?_ (hmem m List.mem_cons_self)
    rcases List.mem_cons.1 hl with rfl | hl
    · exact hn.le
    · exact ((List.pairwise_cons.1 hsorted').1 l hl).trans hn.le
  rw [firstList, hfirst, occurrence_filter, entriesIn_heeded D hno]

/-- The last occurrence is still the last among the lines that are read. -/
theorem lastList_heeded (D : Doubles V) {c : ListComment} {t : KeyLine} {ls : List KeyLine}
    (hsorted : (ls ++ [t]).Pairwise fun l m => l.number ≤ m.number)
    (hworded : ∃ l ∈ occurrence t.number (ls ++ [t]), l.worded = true)
    (hno : ∀ l ∈ occurrence t.number (ls ++ [t]), isAtend (.list c) l.args = false) :
    lastList D c ((ls ++ [t]).filter (KeyLine.heeded (.list c))) =
      entriesIn D c (occurrence t.number (ls ++ [t])) := by
  have hlast : lastNumber ((ls ++ [t]).filter (KeyLine.heeded (.list c))) = t.number := by
    obtain ⟨l, hl, hn⟩ := mem_heeded hworded hno
    have hsorted' := hsorted.filter (KeyLine.heeded (.list c))
    have hmem : ∀ m ∈ (ls ++ [t]).filter (KeyLine.heeded (.list c)), m.number ≤ t.number := fun m hm => by
      rcases List.mem_append.1 (List.mem_filter.1 hm).1 with hm | hm
      · exact (List.pairwise_append.1 hsorted).2.2 m hm t (List.mem_singleton_self t)
      · rw [List.mem_singleton.1 hm]
    generalize (ls ++ [t]).filter (KeyLine.heeded (.list c)) = ms at hl hsorted' hmem ⊢
    obtain ⟨rest, m, rfl⟩ := (List.eq_nil_or_concat' ms).resolve_left (List.ne_nil_of_mem hl)
    rw [lastNumber_concat]
    refine le_antisymm (hmem m (List.mem_append_right _ (List.mem_singleton_self m))) ?_
    rcases List.mem_append.1 hl with hl | hl
    · exact hn.ge.trans ((List.pairwise_append.1 hsorted').2.2 l hl m (List.mem_singleton_self m))
    · exact List.mem_singleton.1 hl ▸ hn.ge
  rw [lastList, hlast, occurrence_filter, entriesIn_heeded D hno]

theorem listed_nil (D : Doubles V) {c : ListComment} {header : List HeaderLine} (h : linesOf (.list c) header = [])
    (trailer : List HeaderLine) : listed D c header trailer = [] := by
  rw [listed, h]
  rfl

/-- The lists of the header, and those of the trailer, where they count. -/
theorem listed_split (D : Doubles V) {c : ListComment} {header trailer : List HeaderLine}
    (hh : Numbered header) (ht : Numbered trailer) (hw : ListedWell c header trailer) :
    listed D c header [] =
        firstList D c (if startsAtend (.list c) (linesOf (.list c) header) then []
          else (linesOf (.list c) header).filter (KeyLine.heeded (.list c))) ∧
      listed D c header trailer = listed D c header [] ++
        lastList D c (if startsAtend (.list c) (linesOf (.list c) header) then
          (linesOf (.list c) trailer).filter (KeyLine.heeded (.list c)) else []) := by
  obtain ⟨hsorted, -⟩ := hh.linesOf (.list c)
  obtain ⟨hsorted', -⟩ := ht.linesOf (.list c)
  obtain ⟨hfirst, hlast⟩ := hw
  cases hlines : linesOf (.list c) header with
  | nil =>
    rw [listed_nil D hlines, listed_nil D hlines]
    exact ⟨rfl, rfl⟩
  | cons h ls =>
    have hhead : (linesOf (.list c) header).head? = some h := by rw [hlines]; rfl
    obtain ⟨hworded, hno⟩ := hfirst h hhead
    have hlast := hlast h hhead
    rw [hlines] at hworded hno hlast hsorted
    have hstarts : startsAtend (.list c) (h :: ls) = deferredBy c (occurrence h.number (h :: ls)) := by
      refine startsAtend_occurrence hsorted (fun l hl => ?_) hworded
      rcases List.mem_cons.1 hl with rfl | hl
      · exact le_rfl
      · exact (List.pairwise_cons.1 hsorted).1 l hl
    have hlisted : ∀ ts, listed D c header ts =
        if deferredBy c (occurrence h.number (h :: ls)) then
          entriesIn D c (lastOccurrence (linesOf (.list c) ts))
        else entriesIn D c (occurrence h.number (h :: ls)) := fun ts => by
      unfold listed
      rw [hlines]
      rfl
    rw [hlisted, hlisted, hstarts]
    cases hdeferred : deferredBy c (occurrence h.number (h :: ls)) with
    | false =>
      have hno := hno.resolve_left (by simp [hdeferred])
      exact ⟨(firstList_heeded D hsorted hworded hno).symm, (List.append_nil _).symm⟩
    | true =>
      refine ⟨rfl, ?_⟩
      rcases List.eq_nil_or_concat' (linesOf (.list c) trailer) with hnil | ⟨ts, t, hts⟩
      · rw [hnil]
        rfl
      · have hlast := hlast hdeferred t (Option.mem_def.2 (by rw [hts, List.getLast?_concat]))
        rw [hts] at hlast hsorted' ⊢
        rw [lastOccurrence, List.getLast?_concat]
        exact (lastList_heeded D hsorted' hlast.1 hlast.2).symm

/-! ## All values -/

/-- The comments that count have values, and none of the others disturbs them. -/
structure Clearcut (D : Doubles V) (header trailer : List HeaderLine) : Prop where
  pages : Settled .pages pagesValid header trailer
  pageorder : Settled .pageOrder orderValid header trailer
  orientation : Settled .orientation orientValid header trailer
  alone : OrderAlone header trailer
  lists : ∀ c, ListedWell c header trailer
  unmixed : Unmixed D (fun c => listed D c header []) (readInTrailer header trailer)

theorem orientOf_ne {l : KeyLine} {x : Orientation} (h : orientOf l = some x) : x ≠ .unknown := by
  obtain ⟨word, -, hword⟩ := Option.bind_eq_some_iff.1 h
  unfold orientationOf at hword
  split_ifs at hword <;> (cases hword; decide)

theorem lists_settled [DecidableEq V] {D : Doubles V} {header trailer : List HeaderLine} (hh : Numbered header)
    (ht : Numbered trailer) (hlists : ∀ c, ListedWell c header trailer)
    (hunmixed : Unmixed D (fun c => listed D c header []) (readInTrailer header trailer)) {v w : DscValues V}
    (hv : ListsNoted v (fun _ => 0) fun _ => []) (refs : List (BodyRef × DscResource V))
    (hfound : w.found = ((heedAll false (fun _ => atendClear) header).foldl (readComment D false) v).found)
    (hthings : w.things = refs.foldl (fun things x => refer x.1.flags (.resource x.2) things)
      ((heedAll false (fun _ => atendClear) header).foldl (readComment D false) v).things)
    (c : ListComment) (r : DscResource V) :
    NotedWith c.reftype.flags (.resource r)
        ((heedAll true (atendAll false (fun _ => atendClear) header) trailer).foldl (readComment D true) w).things ↔
      ∃ c' : ListComment, c'.reftype.flags = c.reftype.flags ∧ r ∈ listed D c' header trailer := by
  have hlines := fun c : ListComment => heeded_lines (.list c) header trailer
  have hpos : ∀ c, ∀ l ∈ only (.list c) (heedAll false (fun _ => atendClear) header), 0 < l.number := by
    intro c l hl
    rw [(hlines c).1] at hl
    split_ifs at hl
    · cases hl
    · exact (hh.linesOf (.list c)).2 l (List.mem_filter.1 hl).1
  have hheader := header_lists D hpos hv
  have hbody : ListsNoted w
      (fun c => firstNumber (only (.list c) (heedAll false (fun _ => atendClear) header)))
      fun c => listed D c header [] := by
    refine ⟨hfound.trans hheader.found, fun c r => ?_⟩
    rw [hthings, notedWith_body, hheader.named]
    refine exists_congr fun c' => and_congr_right fun _ => ?_
    rw [(hlines c').1, (listed_split D hh ht (hlists c')).1]
  have htrailer : ∀ c, only (.list c) (readInTrailer header trailer) =
      if startsAtend (.list c) (linesOf (.list c) header) then
        (linesOf (.list c) trailer).filter (KeyLine.heeded (.list c)) else [] := fun c => by
    rw [← heedAll_readInTrailer, (hlines c).2]
  have hsublist : ∀ c, (only (.list c) (readInTrailer header trailer)).Sublist (linesOf (.list c) trailer) := by
    intro c
    rw [htrailer]
    split_ifs
    · exact List.filter_sublist
    · exact List.nil_sublist _
  have hapart : ∀ c, firstNumber (only (.list c) (heedAll false (fun _ => atendClear) header)) = 0 ∧
      listed D c header [] = [] ∨ only (.list c) (readInTrailer header trailer) = [] := by
    intro c
    rw [htrailer, (hlines c).1, (listed_split D hh ht (hlists c)).1]
    split_ifs
    · exact .inl ⟨rfl, rfl⟩
    · exact .inr rfl
  have hall := (trailer_lists D (fun c l hl => (ht.linesOf (.list c)).2 l ((hsublist c).subset hl))
    (fun c => (ht.linesOf (.list c)).1.sublist (hsublist c)) hapart hunmixed hbody).named c r
  rw [heedAll_readInTrailer, hall]
  refine exists_congr fun c' => and_congr_right fun _ => ?_
  rw [(listed_split D hh ht (hlists c')).2, listedSoFar, htrailer]

theorem dscStart_lists : ListsNoted (dscStart (V := V)).values (fun _ => 0) fun _ => [] := by
  refine ⟨rfl, fun c r => ⟨?_, ?_⟩⟩
  · rintro ⟨t, ht, -⟩
    cases ht
  · rintro ⟨c', -, hr⟩
    cases hr

/-- A document whose trailer supersedes a list. -/
def lateLists : DscText ℕ where
  header := [ascii "%!PS-Adobe-3.0", ascii "%%Pages: (atend)", ascii "%%PageOrder: Ascend",
    ascii "%%DocumentNeededResources: (atend)", ascii "%%DocumentSuppliedFonts: Fancy", ascii "%%EndComments"]
  body := [ascii "%%Page: 1 1"]
  refs := [(.page, ⟨ascii "font", ascii "Times", 0, 0⟩)]
  trailer := [ascii "%%Pages: 3", ascii "%%Pages: 4", ascii "%%DocumentNeededResources: procset common",
    ascii "%%DocumentNeededResources: font Times", ascii "%%+ font Courier"]

theorem lateLists_unmixed : Unmixed plainDoubles (fun c => listed plainDoubles c lateLists.headerLines [])
    (readInTrailer lateLists.headerLines lateLists.trailerLines) := by
  have halone : ∀ c c' : ListComment, c' ≠ c → c'.reftype.flags = c.reftype.flags →
      only (.list c) (readInTrailer lateLists.headerLines lateLists.trailerLines) ≠ [] →
        listed plainDoubles c' lateLists.headerLines [] = [] ∧
          only (.list c') (readInTrailer lateLists.headerLines lateLists.trailerLines) = [] := by
    intro c c'
    cases c <;> cases c' <;> decide
  intro xs c l ys hall hseen _ c' hc hflags r hr
  rw [hall] at halone
  obtain ⟨hstart, hnone⟩ := halone c c' hc hflags (by
    rw [only_append]
    simp [hseen])
  rw [only_append, List.append_eq_nil_iff] at hnone
  rw [listedSoFar, hstart, hnone.1] at hr
  cases hr

theorem lateLists_clearcut : Clearcut plainDoubles lateLists.headerLines lateLists.trailerLines where
  pages := ⟨by decide, by decide⟩
  pageorder := ⟨by decide, by decide⟩
  orientation := ⟨by decide, by decide⟩
  alone := ⟨by decide, by decide⟩
  lists c := by cases c <;> exact ⟨by decide, by decide⟩
  unmixed := lateLists_unmixed

/-- A document with two page orders, and with the same font in two lists. -/
def crossedLists : DscText ℕ where
  header := [ascii "%!PS-Adobe-3.0", ascii "%%PageOrder: Ascend", ascii "%%PageOrder: Descend",
    ascii "%%DocumentNeededFonts: (atend)", ascii "%%DocumentNeededResources: (atend)", ascii "%%EndComments"]
  body := []
  refs := []
  trailer := [ascii "%%DocumentNeededFonts: Times", ascii "%%DocumentNeededResources: procset common",
    ascii "%%DocumentNeededResources: font Courier"]

end Ppr
