import Ppr.Libppr.QEntryRoundTrip

/-!
# The structure that is read back

The "Response:" and "PageList:" lines, whose last field is the rest of the line, and the whole of the
structure that the lines leave, member by member.
-/

namespace Ppr.QEntryFile

/-! ## The responder -/

/-- What comes after a word and the space behind it. -/
def afterWord (s : List Byte) : List Byte := (s.dropWhile (!isblank ·)).dropWhile isspace

theorem guSscanf_word_space {s : List Byte} (hs : s ≠ []) (p : List Directive) :
    guSscanf (.conv 'S' :: .space :: p) s =
      .str (s.takeWhile (!isblank ·)) :: guSscanf p (afterWord s) := by
  rw [guSscanf_conv hs]
  show Extracted.str _ :: guSscanf (.space :: p) _ = _
  rw [guSscanf_space, afterWord]

theorem guSscanf_text {s : List Byte} (hs : s ≠ []) (hnl : newline ∉ s) :
    guSscanf [.conv 'T'] s = [.str s] := by
  have htake : s.takeWhile (· ≠ newline) = s := by
    rw [List.takeWhile_eq_self_iff]
    intro b hb
    have : b ≠ newline := fun e => hnl (e ▸ hb)
    simpa using this
  rw [guSscanf_conv hs]
  simp only [convert, htake]
  rfl

theorem afterWord_suffix (s : List Byte) : afterWord s <:+ s :=
  (List.dropWhile_suffix _).trans (List.dropWhile_suffix _)

theorem afterWord_append {w s : List Byte} (hw : ∀ b ∈ w, isblank b = false) :
    (w ++ 32 :: s).takeWhile (!isblank ·) = w ∧ afterWord (w ++ 32 :: s) = s.dropWhile isspace := by
  have hspan := span_append (!isblank ·) (32 :: s) (w := w) (fun b hb => by simp [hw b hb]) (by
    intro b hb
    cases hb
    decide)
  refine ⟨hspan.1, ?_⟩
  rw [afterWord, hspan.2, List.dropWhile_cons_of_pos (by decide)]

/-- A part of a line that goes on to its end has no space there. -/
theorem chop_of_suffix {s t : List Byte} (hs : chop s = s) (ht : t <:+ s) : chop t = t := by
  rw [chop_eq_self_iff] at hs ⊢
  intro b hb
  obtain ⟨pre, rfl⟩ := ht
  have hne : t ≠ [] := by
    rintro rfl
    cases hb
  rw [List.getLast?_append_of_ne_nil _ hne] at hs
  exact hs b hb

section Response

variable {r : Responder}

/-- The line that is scanned. -/
def responseLine (r : Responder) : List Byte := chop (responseContent r)

theorem responseContent_eq (r : Responder) : responseContent r =
    cString r.name ++ 32 :: (cString r.address ++ 32 :: r.options.getD []) := by
  rw [responseContent, spaced_cons_cons, spaced_cons_cons, spaced_singleton]

/-- What is extracted from the "Response:" line. -/
theorem read_response (hline : responseLine r ≠ []) (hnl : newline ∉ responseContent r) :
    Rule.response.read (responseContent r) =
      .str ((responseLine r).takeWhile (!isblank ·)) ::
        if afterWord (responseLine r) = [] then []
        else
          .str ((afterWord (responseLine r)).takeWhile (!isblank ·)) ::
            if afterWord (afterWord (responseLine r)) = [] then []
            else [.str (afterWord (afterWord (responseLine r)))] := by
  have hfmt : Rule.response.contentFormat = .conv 'S' :: .space :: directives ['S', 'T'] := by decide
  show guSscanf Rule.response.contentFormat (responseLine r) = _
  rw [hfmt, guSscanf_word_space hline]
  congr 1
  split_ifs with h1 h2
  · rw [h1, guSscanf_nil]
  · show guSscanf (.conv 'S' :: .space :: [.conv 'T']) _ = _
    rw [guSscanf_word_space h1, h2, guSscanf_nil]
  · show guSscanf (.conv 'S' :: .space :: [.conv 'T']) _ = _
    rw [guSscanf_word_space h1, guSscanf_text h2]
    intro hmem
    exact hnl (mem_of_mem_chop (((afterWord_suffix _).trans (afterWord_suffix _)).subset hmem))

/-- What the responder is loaded from. -/
def responderRead (r : Responder) : Responder :=
  let vs := Rule.response.read (responseContent r)
  { name := vs[0]?.map Extracted.string
    address := vs[1]?.map Extracted.string
    options := vs[2]?.map Extracted.string }

variable {n a : List Byte}

theorem chop_word {w : List Byte} (hne : w ≠ []) (hw : Unspaced w) : chop w ≠ [] := by
  obtain ⟨b, l, rfl⟩ := List.exists_cons_of_ne_nil hne
  intro h
  have hb := List.rdropWhile_eq_nil_iff.1 h b (List.mem_cons_self ..)
  rw [hw b rfl] at hb
  cases hb

/-- The line, if there are no options and the address is a word. -/
theorem responseLine_of_nil (hn : r.name = some n) (ha : r.address = some a)
    (ho : r.options.getD [] = []) (hw : chop a ≠ []) : responseLine r = n ++ 32 :: chop a := by
  have hlast : chop (a ++ [32]) = chop a := chop_append_of_eq (by decide)
  have hsplit : n ++ 32 :: (a ++ [32]) = (n ++ [32]) ++ (a ++ [32]) := by simp
  rw [responseLine, responseContent_eq, hn, ha, ho]
  show chop (n ++ 32 :: (a ++ [32])) = _
  rw [hsplit, chop_append_of_ne (by rwa [hlast]), hlast]
  simp

/-- The strings of a responder that comes back. -/
theorem ResponderKept.of_read (hn : r.name = some n) (ha : r.address = some a) (hne : a ≠ [])
    (hnl : newline ∉ responseContent r) (henough : Rule.response.Enough (Rule.response.read (responseContent r)))
    (hname : (responderRead r).name = some n) (haddr : (responderRead r).address = some a)
    (hopts : (responderRead r).options = r.options ∨
      r.options = some [] ∧ (responderRead r).options = none) :
    ResponderKept r := by
  have hline : responseLine r ≠ [] := by
    intro h
    have : Rule.response.read (responseContent r) = [] := by
      show guSscanf _ (responseLine r) = []
      rw [h, guSscanf_nil]
    rw [this] at henough
    exact absurd henough (Nat.not_succ_le_zero 1)
  have hread := read_response hline hnl
  simp only [responderRead, hread] at hname haddr hopts
  have hY : afterWord (responseLine r) ≠ [] := by
    intro h
    rw [hread, if_pos h] at henough
    exact absurd henough (Nat.not_succ_le_self 1)
  rw [if_neg hY] at haddr hopts
  have hname : (responseLine r).takeWhile (!isblank ·) = n := by simpa [Extracted.string] using hname
  have haddr : (afterWord (responseLine r)).takeWhile (!isblank ·) = a := by
    simpa [Extracted.string] using haddr
  have hnb : ∀ b ∈ n, isblank b = false := by
    intro b hb
    rw [← hname] at hb
    simpa using (mem_takeWhile hb).2
  have hab : ∀ b ∈ a, isblank b = false := by
    intro b hb
    rw [← haddr] at hb
    simpa using (mem_takeWhile hb).2
  have haus : Unspaced a := by
    intro b hb
    refine dropWhile_head ((responseLine r).dropWhile (!isblank ·)) b ?_
    show b ∈ (afterWord (responseLine r)).head?
    obtain ⟨t, ht⟩ := List.takeWhile_prefix (l := afterWord (responseLine r)) (!isblank ·)
    rw [← ht, haddr, List.head?_append_of_ne_nil _ hne]
    exact hb
  refine ⟨?_, ?_, ?_, ?_⟩
  · rw [hn]
    rintro _ ⟨⟩
    exact hnb
  · rw [ha]
    rintro _ ⟨⟩
    exact ⟨haus, hab⟩
  · intro o ho hone
    -- The options are what is left of the line.
    have hZ : afterWord (afterWord (responseLine r)) = o := by
      rcases hopts with hopts | ⟨hopts, -⟩
      · rw [ho] at hopts
        split_ifs at hopts with h
        · simp at hopts
        · simpa [Extracted.string] using hopts
      · rw [hopts] at ho
        cases ho
        exact absurd rfl hone
    have hsuffix : o <:+ responseLine r := hZ ▸ (afterWord_suffix _).trans (afterWord_suffix _)
    refine ⟨⟨hone, chop_of_suffix (List.rdropWhile_idempotent _ _) hsuffix, ?_⟩, ?_⟩
    · exact fun h => hnl (mem_of_mem_chop (hsuffix.subset h))
    · rw [← hZ]
      exact dropWhile_head _
  · rw [ha]
    rintro ho _ ⟨⟩
    have hline := responseLine_of_nil hn ha ho (chop_word hne haus)
    have hafter : afterWord (responseLine r) = (chop a).dropWhile isspace := by
      rw [hline]
      exact (afterWord_append hnb).2
    rw [hafter] at haddr
    have hlen : a.length ≤ (chop a).length := by
      have h1 := (List.takeWhile_prefix (l := (chop a).dropWhile isspace) (!isblank ·)).length_le
      have h2 := (List.dropWhile_suffix (l := chop a) isspace).length_le
      rw [haddr] at h1
      omega
    exact (chop_isPrefix a).eq_of_length_le hlen

theorem exists_options {r : Responder} (h : r.options.getD [] ≠ []) :
    ∃ o, r.options = some o ∧ o ≠ [] := by
  cases hopt : r.options with
  | none =>
    rw [hopt] at h
    exact absurd rfl h
  | some o =>
    rw [hopt] at h
    exact ⟨o, rfl, h⟩

/-- A responder that can be read is. -/
theorem read_response_of_kept (hn : r.name = some n) (ha : r.address = some a) (hne : a ≠ [])
    (hnl : newline ∉ responseContent r) (h : ResponderKept r) :
    Rule.response.read (responseContent r) =
      .str n :: .str a :: if r.options.getD [] = [] then [] else [.str (r.options.getD [])] := by
  have hnb := h.name n hn
  obtain ⟨haus, hab⟩ := h.address a ha
  obtain ⟨t, ht, hline⟩ : ∃ t, (t = if r.options.getD [] = [] then [] else 32 :: r.options.getD []) ∧
      responseLine r = n ++ 32 :: (a ++ t) := by
    refine ⟨_, rfl, ?_⟩
    split_ifs with ho
    · rw [responseLine_of_nil hn ha ho (chop_word hne haus), h.last ho a ha, List.append_nil]
    · obtain ⟨o, hopt, ho⟩ := exists_options ho
      rw [hopt, Option.getD_some]
      obtain ⟨⟨-, hchop, -⟩, -⟩ := h.options o hopt ho
      have hsplit : n ++ 32 :: (a ++ 32 :: o) = (n ++ 32 :: (a ++ [32])) ++ o := by simp
      rw [responseLine, responseContent_eq, hn, ha, hopt]
      show chop (n ++ 32 :: (a ++ 32 :: o)) = _
      rw [hsplit, chop_append_of_eq_self hchop ho]
  have hne' : responseLine r ≠ [] := by
    rw [hline]
    simp
  have hY : afterWord (responseLine r) = a ++ t := by
    rw [hline, (afterWord_append hnb).2]
    refine dropWhile_of_head fun b hb => ?_
    rw [List.head?_append_of_ne_nil _ hne] at hb
    exact haus b hb
  have hYne : a ++ t ≠ [] := by simp [hne]
  have htake : (responseLine r).takeWhile (!isblank ·) = n := by
    rw [hline]
    exact (afterWord_append hnb).1
  rw [read_response hne' hnl, htake, hY, if_neg hYne, ht]
  by_cases ho : r.options.getD [] = []
  · have hspan := span_append (!isblank ·) [] (w := a) (fun b hb => by simp [hab b hb]) (by simp)
    rw [List.append_nil] at hspan
    have hafter : afterWord a = [] := by
      rw [afterWord, hspan.2]
      rfl
    rw [if_pos ho, if_pos ho, List.append_nil, if_pos hafter, hspan.1]
  · obtain ⟨o, hopt, ho⟩ := exists_options ho
    obtain ⟨-, hous⟩ := h.options o hopt ho
    have hafter : afterWord (a ++ 32 :: o) = o := by
      rw [(afterWord_append hab).2, dropWhile_of_head hous]
    rw [hopt, Option.getD_some, if_neg ho, if_neg ho, hafter, if_neg ho, (afterWord_append hab).1]

end Response

/-! ## The list of pages -/

section PageList

variable (count : CInt) {m : List Byte}

theorem read_pageList (hnl : newline ∉ m) :
    Rule.pageList.read (spaced [cDecimal count, m]) =
      .num count.toInt :: if (chop m).dropWhile isspace = [] then []
        else [.str ((chop m).dropWhile isspace)] := by
  have hfmt : Rule.pageList.contentFormat = .conv 'd' :: .space :: [.conv 'T'] := by decide
  have hscan := scans_cDecimal count
  show guSscanf Rule.pageList.contentFormat ((chop (spaced [cDecimal count, m])).dropWhile isspace) = _
  rw [hfmt, spaced_cons_cons, spaced_singleton]
  by_cases hm : chop m = []
  · have hchop : chop (cDecimal count ++ 32 :: m) = cDecimal count := by
      have h32 : chop (32 :: m) = [] := by
        rw [← List.singleton_append, chop_append_of_eq hm]
        decide
      rw [chop_append_of_eq h32, chop_cDecimal]
    have hdrop := hscan.dropWhile []
    have hconv := hscan.conv [] (by simp)
    rw [List.append_nil] at hdrop hconv
    rw [hchop, hdrop, hm, guSscanf_conv hscan.ne, hconv]
    rfl
  · have hchop : chop (cDecimal count ++ 32 :: m) = cDecimal count ++ 32 :: chop m := by
      have hsplit : cDecimal count ++ 32 :: m = (cDecimal count ++ [32]) ++ m := by simp
      rw [hsplit, chop_append_of_ne hm]
      simp
    rw [hchop, hscan.dropWhile, hscan.guSscanf_cons]
    congr 1
    split_ifs with h
    · rw [h, guSscanf_nil]
    · refine guSscanf_text h fun hmem => hnl ?_
      exact mem_of_mem_chop ((List.dropWhile_suffix _).subset hmem)

/-- The mask that comes back. -/
theorem mask_kept_iff (hnl : newline ∉ m) :
    Rule.pageList.Enough (Rule.pageList.read (spaced [cDecimal count, m])) ∧
      ((Rule.pageList.read (spaced [cDecimal count, m])).getD 1 (.num 0)).string = m ↔
    TextKept m ∧ Unspaced m := by
  rw [read_pageList count hnl]
  constructor
  · rintro ⟨henough, hval⟩
    have hne : (chop m).dropWhile isspace ≠ [] := by
      intro h
      rw [if_pos h] at henough
      cases henough
    rw [if_neg hne] at hval
    have hval : (chop m).dropWhile isspace = m := hval
    have hlen : m.length ≤ (chop m).length := by
      have := (List.dropWhile_suffix (l := chop m) isspace).length_le
      rw [hval] at this
      exact this
    have hchop : chop m = m := (chop_isPrefix m).eq_of_length_le hlen
    refine ⟨⟨hval ▸ hne, hchop, hnl⟩, ?_⟩
    rw [← hval]
    exact dropWhile_head _
  · rintro ⟨⟨hne, hchop, -⟩, hus⟩
    rw [hchop, dropWhile_of_head hus, if_neg hne]
    exact ⟨rfl, rfl⟩

end PageList

/-! ## The whole structure -/

/-- The spool state as it is read from the "PPRD:" line. -/
def spoolStateRead (old new : SpoolState) : SpoolState :=
  { priority := setLow old.priority (BitVec.ofInt 16 new.priority.toNat)
    sequenceNumber := new.sequenceNumber
    status := -BitVec.ofInt 16 (-new.status.signExtend 32).toNat
    flags := new.flags }

/-- The attributes as they are read, with those of the "Attr-DSC:" line from what it gives. -/
def attrRead (a : Attr) : Attr :=
  let vs := Rule.attrDSC.read (dscContent a)
  { a with
    DSClevel := (vs.getD 0 (.num 0)).float
    DSCJobType := (some (vs.getD 1 (.num 0)).string).filter (· ≠ ascii "NULL")
    orientation := (vs.getD 2 (.num 0)).number 32
    proofmode := (vs.getD 3 (.num 0)).number 32
    docdata := (vs.getD 4 (.num 0)).number 32 }

/-- The list of pages as it is read. -/
def pageListRead (old new : PageList) : PageList :=
  match new.mask with
  | none => old
  | some m =>
    let vs := Rule.pageList.read (spaced [cDecimal new.count, m])
    { mask := some (vs.getD 1 (.num 0)).string, count := (vs.getD 0 (.num 0)).number 32 }

/-- What is read from the lines of `q` into the structure `job`. -/
def reread (q job : QEntryFile) : QEntryFile :=
  { PPRVersion := 2
    spoolState := spoolStateRead job.spoolState q.spoolState
    user := some (Rule.user.got (cString q.user))
    lcMessages := (q.lcMessages.map Rule.lcMessages.got).or job.lcMessages
    time := BitVec.ofInt 64 (if 0 ≤ q.time.toInt then q.time.toInt else 0)
    magicCookie := some (Rule.magicCookie.got (cString q.magicCookie))
    For := some (Rule.for_.got (q.For.getD (ascii "???")))
    chargeTo := (q.chargeTo.map Rule.chargeTo.got).or job.chargeTo
    Title := ((q.Title.filter (· ≠ [])).map Rule.title.got).or job.Title
    draftNotice := (q.draftNotice.map Rule.draftNotice.got).or job.draftNotice
    Creator := (q.Creator.map Rule.creator.got).or job.Creator
    Routing := (q.Routing.map Rule.routing.got).or job.Routing
    lpqFileName := (q.lpqFileName.map Rule.lpqFileName.got).or job.lpqFileName
    doBanner := q.doBanner
    doTrailer := q.doTrailer
    responder := { responderRead q.responder with
      options := (responderRead q.responder).options.or job.responder.options }
    commentary := q.commentary
    attr := attrRead q.attr
    opts := q.opts
    nUp := q.nUp
    Filters := (q.Filters.map Rule.filters.got).or job.Filters
    PassThruPDL := (q.PassThruPDL.map Rule.passThruPDL.got).or job.PassThruPDL
    StripPrinter := if q.StripPrinter = 0 then 0 else 1
    pageList := pageListRead job.pageList q.pageList
    question := (q.question.map Rule.question.got).or job.question
    ripopts := (q.ripopts.map Rule.ripopts.got).or job.ripopts }

theorem putAll_append (l l' : List (Rule × List Byte)) (st : Loading) :
    putAll (l ++ l') st = putAll l' (putAll l st) :=
  List.foldl_append

theorem putAll_cons (r : Rule) (c : List Byte) (l : List (Rule × List Byte)) (st : Loading) :
    putAll ((r, c) :: l) st = putAll l (r.put (r.read c) st) :=
  rfl

theorem putAll_nil (st : Loading) : putAll [] st = st := rfl

section Put

variable {name format : String} {set : Option (List Byte) → QEntryFile → QEntryFile}
  {found : Option Needed}

/-- What a line with one string leaves. -/
theorem put_string {c : List Byte} (h : (Rule.string name format set found).Enough
    ((Rule.string name format set found).read c)) (st : Loading) :
    (Rule.string name format set found).put ((Rule.string name format set found).read c) st =
      { job := set (some ((Rule.string name format set found).got c)) st.job
        found := found.toList ++ st.found
        failed := st.failed } := by
  rw [Rule.got]
  cases hread : (Rule.string name format set found).read c with
  | nil =>
    rw [hread] at h
    exact absurd h (Nat.not_succ_le_zero 0)
  | cons v vs => rfl

/-- What such a line leaves, if it is there. -/
theorem putAll_optionalLine {get : QEntryFile → Option (List Byte)} (hget : ∀ j, set (get j) j = j)
    {o : Option (List Byte)} (h : ∀ c ∈ o, (Rule.string name format set none).Enough
      ((Rule.string name format set none).read c)) (st : Loading) :
    putAll (optionalLine (Rule.string name format set none) o) st =
      { st with job := set ((o.map (Rule.string name format set none).got).or (get st.job)) st.job } := by
  cases o with
  | none =>
    show st = { st with job := set (get st.job) st.job }
    rw [hget]
  | some c =>
    show (Rule.string name format set none).put _ st = _
    rw [put_string (h c rfl)]
    rfl

end Put

/-- One more line: what it does to the structure, and what it is counted as. -/
structure Stepped (s s' : Loading) (f : QEntryFile → QEntryFile) (found : List Needed) : Prop where
  job : s'.job = f s.job
  found : s'.found = found ++ s.found
  failed : s'.failed = s.failed

section Put

variable {name format : String} {set : Option (List Byte) → QEntryFile → QEntryFile}
  {found : Option Needed}

theorem stepped_string {c : List Byte} (h : (Rule.string name format set found).Enough
    ((Rule.string name format set found).read c)) (st : Loading) :
    Stepped st ((Rule.string name format set found).put ((Rule.string name format set found).read c) st)
      (set (some ((Rule.string name format set found).got c))) found.toList := by
  rw [put_string h]
  exact ⟨rfl, rfl, rfl⟩

theorem stepped_optional (get : QEntryFile → Option (List Byte)) (hget : ∀ j, set (get j) j = j)
    {o : Option (List Byte)} (h : ∀ c ∈ o, (Rule.string name format set none).Enough
      ((Rule.string name format set none).read c)) (st : Loading) :
    Stepped st (putAll (optionalLine (Rule.string name format set none) o) st)
      (fun j => set ((o.map (Rule.string name format set none).got).or (get j)) j) [] := by
  rw [putAll_optionalLine hget h]
  exact ⟨rfl, rfl, rfl⟩

end Put

theorem mem_optionalLine {r : Rule} {c : List Byte} {o : Option (List Byte)} (h : c ∈ o) :
    (r, c) ∈ optionalLine r o := by
  rw [Option.mem_def] at h
  rw [h]
  exact List.mem_singleton.2 rfl

/-- The "Response:" line. -/
theorem stepped_response {r : Responder}
    (h : Rule.response.Enough (Rule.response.read (responseContent r))) (st : Loading) :
    Stepped st (Rule.response.put (Rule.response.read (responseContent r)) st)
      (fun j => { j with responder := { responderRead r with
        options := (responderRead r).options.or j.responder.options } }) [.response] := by
  refine ⟨?_, rfl, rfl⟩
  simp only [responderRead]
  match hread : Rule.response.read (responseContent r) with
  | [] =>
    rw [hread] at h
    exact absurd h (Nat.not_succ_le_zero 1)
  | [v] =>
    rw [hread] at h
    exact absurd h (Nat.not_succ_le_self 1)
  | [v, w] => rfl
  | v :: w :: x :: vs => rfl

/-- The "Attr-DSC:" line. -/
theorem stepped_dsc {a : Attr} (h : Rule.attrDSC.Enough (Rule.attrDSC.read (dscContent a)))
    (st : Loading) :
    Stepped st (Rule.attrDSC.put (Rule.attrDSC.read (dscContent a)) st)
      (fun j => { j with attr := { j.attr with
        DSClevel := (attrRead a).DSClevel
        DSCJobType := (attrRead a).DSCJobType
        orientation := (attrRead a).orientation
        proofmode := (attrRead a).proofmode
        docdata := (attrRead a).docdata } }) [] := by
  refine ⟨?_, rfl, rfl⟩
  simp only [attrRead]
  have hlen : (Rule.attrDSC.read (dscContent a)).length = 5 := h
  obtain ⟨u, v, w, x, y, hread⟩ : ∃ u v w x y, Rule.attrDSC.read (dscContent a) = [u, v, w, x, y] := by
    match hread : Rule.attrDSC.read (dscContent a) with
    | [u, v, w, x, y] => exact ⟨u, v, w, x, y, rfl⟩
    | [] | [_] | [_, _] | [_, _, _] | [_, _, _, _] | _ :: _ :: _ :: _ :: _ :: _ :: _ =>
      rw [hread] at hlen
      simp at hlen
  rw [hread]
  rfl

/-- The "PageList:" line. -/
theorem stepped_pageList {l : PageList} (h : ∀ m ∈ l.mask, Rule.pageList.Enough
    (Rule.pageList.read (spaced [cDecimal l.count, m]))) (st : Loading) :
    Stepped st (putAll (optionalLine .pageList (l.mask.map fun m => spaced [cDecimal l.count, m])) st)
      (fun j => { j with pageList := pageListRead j.pageList l }) [] := by
  cases hmask : l.mask with
  | none =>
    refine ⟨?_, rfl, rfl⟩
    simp only [pageListRead, hmask]
    rfl
  | some m =>
    refine ⟨?_, rfl, rfl⟩
    have hlen : (Rule.pageList.read (spaced [cDecimal l.count, m])).length = 2 := h m hmask
    obtain ⟨u, v, hread⟩ := List.length_eq_two.1 hlen
    simp only [pageListRead, hmask, hread]
    show (Rule.pageList.put (Rule.pageList.read (spaced [cDecimal l.count, m])) st).job = _
    rw [hread]
    rfl

/-- The "PPRD:" line. -/
theorem stepped_pprd (s : SpoolState) (st : Loading) :
    Stepped st (Rule.pprd.put (Rule.pprd.read (pprdContent s)) st)
      (fun j => { j with spoolState := spoolStateRead j.spoolState s }) [] := by
  refine ⟨?_, rfl, rfl⟩
  rw [read_pprd]
  simp [Rule.put, Rule.pprd, storeAll, Extracted.number, spoolStateRead]

/-! ## Lines of numbers -/

section Stepped

variable (st : Loading)

theorem stepped_pprVersion : Stepped st (Rule.pprVersion.put (Rule.pprVersion.read (ascii "2.00a1")) st)
    (fun j => { j with PPRVersion := 2 }) [] := by
  rw [read_pprVersion]
  exact ⟨rfl, rfl, rfl⟩

theorem stepped_time (t : BitVec 64) : Stepped st (Rule.time.put (Rule.time.read (cDecimal t)) st)
    (fun j => { j with time := BitVec.ofInt 64 (if 0 ≤ t.toInt then t.toInt else 0) }) [.time] := by
  rw [read_time]
  exact ⟨rfl, rfl, rfl⟩

theorem stepped_stripPrinter (i : CInt) :
    Stepped st (Rule.stripPrinter.put (Rule.stripPrinter.read (cDecimal i)) st)
      (fun j => { j with StripPrinter := if i = 0 then 0 else 1 }) [] := by
  rw [read_one i _ (by decide)]
  refine ⟨?_, rfl, rfl⟩
  simp [Rule.put, Rule.stripPrinter, storeAll, Extracted.number]

theorem stepped_commentary (i : CInt) :
    Stepped st (Rule.commentary.put (Rule.commentary.read (cDecimal i)) st)
      (fun j => { j with commentary := i }) [] := by
  rw [read_one i _ (by decide)]
  refine ⟨?_, rfl, rfl⟩
  simp [Rule.put, Rule.commentary, storeAll, Extracted.number]

theorem stepped_banners (a b : CInt) :
    Stepped st (Rule.banners.put (Rule.banners.read (spaced [cDecimal a, cDecimal b])) st)
      (fun j => { j with doBanner := a, doTrailer := b }) [.banners] := by
  rw [read_two a b _ (by decide)]
  refine ⟨?_, rfl, rfl⟩
  simp [Rule.put, Rule.banners, storeAll, Extracted.number]

theorem stepped_sections (a b c : CInt) : Stepped st
    (Rule.attrDSCSections.put
      (Rule.attrDSCSections.read (spaced [cDecimal a, cDecimal b, cDecimal c])) st)
    (fun j => { j with attr := { j.attr with prolog := a, docsetup := b, script := c } }) [] := by
  rw [read_three a b c _ (by decide)]
  refine ⟨?_, rfl, rfl⟩
  simp [Rule.put, Rule.attrDSCSections, storeAll, Extracted.number]

theorem stepped_langLevel (a b : CInt) :
    Stepped st (Rule.attrLangLevel.put (Rule.attrLangLevel.read (spaced [cDecimal a, cDecimal b])) st)
      (fun j => { j with attr := { j.attr with langlevel := a, extensions := b } }) [] := by
  rw [read_two a b _ (by decide)]
  refine ⟨?_, rfl, rfl⟩
  simp [Rule.put, Rule.attrLangLevel, storeAll, Extracted.number]

theorem stepped_pages (a b c : CInt) : Stepped st
    (Rule.attrPages.put (Rule.attrPages.read (spaced [cDecimal a, cDecimal b, cDecimal c])) st)
    (fun j => { j with attr := { j.attr with pages := a, pageorder := b, pagefactor := c } }) [] := by
  rw [read_three a b c _ (by decide)]
  refine ⟨?_, rfl, rfl⟩
  simp [Rule.put, Rule.attrPages, storeAll, Extracted.number]

theorem stepped_byteCounts (a b : BitVec 64) : Stepped st
    (Rule.attrByteCounts.put (Rule.attrByteCounts.read (spaced [cDecimal a, cDecimal b])) st)
    (fun j => { j with attr := { j.attr with inputBytes := a, postscriptBytes := b } }) [] := by
  rw [read_two a b _ (by decide)]
  refine ⟨?_, rfl, rfl⟩
  simp [Rule.put, Rule.attrByteCounts, storeAll, Extracted.number]

theorem stepped_parts (i : CInt) :
    Stepped st (Rule.attrParts.put (Rule.attrParts.read (cDecimal i)) st)
      (fun j => { j with attr := { j.attr with parts := i } }) [] := by
  rw [read_one i _ (by decide)]
  refine ⟨?_, rfl, rfl⟩
  simp [Rule.put, Rule.attrParts, storeAll, Extracted.number]

theorem stepped_opts (o : Opts) : Stepped st
    (Rule.opts.put (Rule.opts.read (spaced [cDecimal o.binselect, cDecimal o.copies,
      cDecimal o.collate, cDecimal o.keepBadfeatures, decimal o.hacks.toNat])) st)
    (fun j => { j with opts := o }) [.opts] := by
  rw [read_opts]
  refine ⟨?_, rfl, rfl⟩
  simp [Rule.put, Rule.opts, storeAll, Extracted.number]

theorem stepped_nUp (n : NUp) : Stepped st
    (Rule.nUp.put (Rule.nUp.read (spaced [cDecimal n.N, cDecimal n.borders, cDecimal n.sigsheets,
      cDecimal n.sigpart, cDecimal n.jobDoesNUp])) st)
    (fun j => { j with nUp := n }) [.nup] := by
  rw [read_nUp]
  refine ⟨?_, rfl, rfl⟩
  simp [Rule.put, Rule.nUp, storeAll, Extracted.number]

end Stepped

/-- Enough is extracted from the lines with strings. -/
structure GoodLines (q : QEntryFile) : Prop where
  user : Rule.user.Enough (Rule.user.read (cString q.user))
  lcMessages : ∀ s ∈ q.lcMessages, Rule.lcMessages.Enough (Rule.lcMessages.read s)
  magicCookie : Rule.magicCookie.Enough (Rule.magicCookie.read (cString q.magicCookie))
  For : Rule.for_.Enough (Rule.for_.read (q.For.getD (ascii "???")))
  chargeTo : ∀ s ∈ q.chargeTo, Rule.chargeTo.Enough (Rule.chargeTo.read s)
  Title : ∀ s ∈ q.Title.filter (· ≠ []), Rule.title.Enough (Rule.title.read s)
  draftNotice : ∀ s ∈ q.draftNotice, Rule.draftNotice.Enough (Rule.draftNotice.read s)
  Creator : ∀ s ∈ q.Creator, Rule.creator.Enough (Rule.creator.read s)
  Routing : ∀ s ∈ q.Routing, Rule.routing.Enough (Rule.routing.read s)
  lpqFileName : ∀ s ∈ q.lpqFileName, Rule.lpqFileName.Enough (Rule.lpqFileName.read s)
  response : Rule.response.Enough (Rule.response.read (responseContent q.responder))
  dsc : Rule.attrDSC.Enough (Rule.attrDSC.read (dscContent q.attr))
  Filters : ∀ s ∈ q.Filters, Rule.filters.Enough (Rule.filters.read s)
  PassThruPDL : ∀ s ∈ q.PassThruPDL, Rule.passThruPDL.Enough (Rule.passThruPDL.read s)
  mask : ∀ s ∈ q.pageList.mask, Rule.pageList.Enough
    (Rule.pageList.read (spaced [cDecimal q.pageList.count, s]))
  question : ∀ s ∈ q.question, Rule.question.Enough (Rule.question.read s)
  ripopts : ∀ s ∈ q.ripopts, Rule.ripopts.Enough (Rule.ripopts.read s)

theorem forall_mem_optionalLine {r : Rule} {o : Option (List Byte)} {P : Rule × List Byte → Prop} :
    (∀ l ∈ optionalLine r o, P l) ↔ ∀ s ∈ o, P (r, s) := by
  constructor
  · exact fun h s hs => h _ (mem_optionalLine hs)
  · intro h l hl
    obtain ⟨s, hs, rfl⟩ := List.mem_map.1 hl
    exact h s (Option.mem_toList.1 hs)

/-- The lines with numbers are always good. -/
theorem goodLines_iff {q : QEntryFile} :
    (∀ l ∈ q.lines, l.1.Enough (l.1.read l.2)) ↔ GoodLines q := by
  have nil : ∀ {P : Rule × List Byte → Prop}, ∀ l ∈ ([] : List (Rule × List Byte)), P l :=
    fun l hl => absurd hl List.not_mem_nil
  simp only [lines, List.forall_mem_append, List.forall_mem_cons, forall_mem_optionalLine]
  constructor
  · rintro ⟨⟨⟨⟨⟨⟨⟨⟨⟨⟨⟨⟨⟨⟨⟨⟨-, user, -⟩, lcMessages⟩, -, cookie, hfor, -⟩, chargeTo⟩, title⟩, draft⟩,
      creator⟩, routing⟩, lpq⟩, -, response, -, dsc, -⟩, filters⟩, pdl⟩, -⟩, page⟩, question⟩, ripopts⟩
    exact ⟨user, lcMessages, cookie, hfor, chargeTo, title, draft, creator, routing, lpq, response,
      dsc, filters, pdl, fun s hs => page _ (Option.mem_map_of_mem _ hs), question, ripopts⟩
  · intro h
    refine ⟨⟨⟨⟨⟨⟨⟨⟨⟨⟨⟨⟨⟨⟨⟨⟨?_, h.user, ?_, nil⟩, h.lcMessages⟩, ?_, h.magicCookie, h.For, nil⟩,
      h.chargeTo⟩, h.Title⟩, h.draftNotice⟩, h.Creator⟩, h.Routing⟩, h.lpqFileName⟩, ?_, h.response,
      ?_, h.dsc, ?_, ?_, ?_, ?_, ?_, ?_, ?_, nil⟩, h.Filters⟩, h.PassThruPDL⟩, ?_, nil⟩, ?_⟩,
      h.question⟩, h.ripopts⟩
    · rw [read_pprd]; exact rfl
    · rw [read_pprVersion]; exact rfl
    · rw [read_time]; exact le_refl 1
    · rw [read_two _ _ _ (by decide)]; exact le_refl 2
    · rw [read_one _ _ (by decide)]; exact le_refl 1
    · rw [read_three _ _ _ _ (by decide)]; exact rfl
    · rw [read_two _ _ _ (by decide)]; exact rfl
    · rw [read_three _ _ _ _ (by decide)]; exact rfl
    · rw [read_two _ _ _ (by decide)]; exact rfl
    · rw [read_one _ _ (by decide)]; exact rfl
    · rw [read_opts]; exact le_refl 5
    · rw [read_nUp]; exact le_refl 5
    · rw [read_one _ _ (by decide)]; exact rfl
    · intro s hs
      obtain ⟨m, hm, rfl⟩ := Option.mem_map.1 hs
      exact h.mask m hm

/-- What all the lines leave. -/
theorem putAll_lines {q : QEntryFile} (h : GoodLines q) (st : Loading) :
    (putAll q.lines st).job = q.reread st.job ∧ (putAll q.lines st).failed = st.failed ∧
      ∀ x ∈ needed, x ∈ (putAll q.lines st).found := by
  simp only [lines, putAll_append, putAll_cons, putAll_nil]
  have t1 := stepped_pprd q.spoolState st
  generalize Rule.pprd.put (Rule.pprd.read (pprdContent q.spoolState)) st = s1 at t1 ⊢
  have t2 : Stepped s1 (Rule.user.put (Rule.user.read (cString q.user)) s1)
      (fun j => { j with user := some (Rule.user.got (cString q.user)) }) [.user] :=
    stepped_string h.user s1
  generalize Rule.user.put (Rule.user.read (cString q.user)) s1 = s2 at t2 ⊢
  have t3 := stepped_pprVersion s2
  generalize Rule.pprVersion.put (Rule.pprVersion.read (ascii "2.00a1")) s2 = s3 at t3 ⊢
  have t4 : Stepped s3 (putAll (optionalLine .lcMessages q.lcMessages) s3)
      (fun j => { j with lcMessages :=
        ((q.lcMessages).map Rule.lcMessages.got).or j.lcMessages }) [] :=
    stepped_optional (·.lcMessages) (fun _ => rfl) h.lcMessages s3
  generalize putAll (optionalLine .lcMessages q.lcMessages) s3 = s4 at t4 ⊢
  have t5 := stepped_time s4 q.time
  generalize Rule.time.put (Rule.time.read (cDecimal q.time)) s4 = s5 at t5 ⊢
  have t6 : Stepped s5 (Rule.magicCookie.put (Rule.magicCookie.read (cString q.magicCookie)) s5)
      (fun j => { j with magicCookie := some (Rule.magicCookie.got (cString q.magicCookie)) }) [] :=
    stepped_string h.magicCookie s5
  generalize Rule.magicCookie.put (Rule.magicCookie.read (cString q.magicCookie)) s5 = s6 at t6 ⊢
  have t7 : Stepped s6 (Rule.for_.put (Rule.for_.read (q.For.getD (ascii "???"))) s6)
      (fun j => { j with For := some (Rule.for_.got (q.For.getD (ascii "???"))) }) [.for_] :=
    stepped_string h.For s6
  generalize Rule.for_.put (Rule.for_.read (q.For.getD (ascii "???"))) s6 = s7 at t7 ⊢
  have t8 : Stepped s7 (putAll (optionalLine .chargeTo q.chargeTo) s7)
      (fun j => { j with chargeTo := ((q.chargeTo).map Rule.chargeTo.got).or j.chargeTo }) [] :=
    stepped_optional (·.chargeTo) (fun _ => rfl) h.chargeTo s7
  generalize putAll (optionalLine .chargeTo q.chargeTo) s7 = s8 at t8 ⊢
  have t9 : Stepped s8 (putAll (optionalLine .title (q.Title.filter (· ≠ []))) s8)
      (fun j => { j with Title :=
        (((q.Title.filter (· ≠ []))).map Rule.title.got).or j.Title }) [] :=
    stepped_optional (·.Title) (fun _ => rfl) h.Title s8
  generalize putAll (optionalLine .title (q.Title.filter (· ≠ []))) s8 = s9 at t9 ⊢
  have t10 : Stepped s9 (putAll (optionalLine .draftNotice q.draftNotice) s9)
      (fun j => { j with draftNotice :=
        ((q.draftNotice).map Rule.draftNotice.got).or j.draftNotice }) [] :=
    stepped_optional (·.draftNotice) (fun _ => rfl) h.draftNotice s9
  generalize putAll (optionalLine .draftNotice q.draftNotice) s9 = s10 at t10 ⊢
  have t11 : Stepped s10 (putAll (optionalLine .creator q.Creator) s10)
      (fun j => { j with Creator := ((q.Creator).map Rule.creator.got).or j.Creator }) [] :=
    stepped_optional (·.Creator) (fun _ => rfl) h.Creator s10
  generalize putAll (optionalLine .creator q.Creator) s10 = s11 at t11 ⊢
  have t12 : Stepped s11 (putAll (optionalLine .routing q.Routing) s11)
      (fun j => { j with Routing := ((q.Routing).map Rule.routing.got).or j.Routing }) [] :=
    stepped_optional (·.Routing) (fun _ => rfl) h.Routing s11
  generalize putAll (optionalLine .routing q.Routing) s11 = s12 at t12 ⊢
  have t13 : Stepped s12 (putAll (optionalLine .lpqFileName q.lpqFileName) s12)
      (fun j => { j with lpqFileName :=
        ((q.lpqFileName).map Rule.lpqFileName.got).or j.lpqFileName }) [] :=
    stepped_optional (·.lpqFileName) (fun _ => rfl) h.lpqFileName s12
  generalize putAll (optionalLine .lpqFileName q.lpqFileName) s12 = s13 at t13 ⊢
  have t14 := stepped_banners s13 q.doBanner q.doTrailer
  generalize Rule.banners.put
      (Rule.banners.read (spaced [cDecimal q.doBanner, cDecimal q.doTrailer])) s13 = s14 at t14 ⊢
  have t15 := stepped_response h.response s14
  generalize Rule.response.put (Rule.response.read (responseContent q.responder)) s14 = s15 at t15 ⊢
  have t16 := stepped_commentary s15 q.commentary
  generalize Rule.commentary.put (Rule.commentary.read (cDecimal q.commentary)) s15 = s16 at t16 ⊢
  have t17 := stepped_dsc h.dsc s16
  generalize Rule.attrDSC.put (Rule.attrDSC.read (dscContent q.attr)) s16 = s17 at t17 ⊢
  have t18 := stepped_sections s17 q.attr.prolog q.attr.docsetup q.attr.script
  generalize Rule.attrDSCSections.put (Rule.attrDSCSections.read _) s17 = s18 at t18 ⊢
  have t19 := stepped_langLevel s18 q.attr.langlevel q.attr.extensions
  generalize Rule.attrLangLevel.put (Rule.attrLangLevel.read _) s18 = s19 at t19 ⊢
  have t20 := stepped_pages s19 q.attr.pages q.attr.pageorder q.attr.pagefactor
  generalize Rule.attrPages.put (Rule.attrPages.read _) s19 = s20 at t20 ⊢
  have t21 := stepped_byteCounts s20 q.attr.inputBytes q.attr.postscriptBytes
  generalize Rule.attrByteCounts.put (Rule.attrByteCounts.read _) s20 = s21 at t21 ⊢
  have t22 := stepped_parts s21 q.attr.parts
  generalize Rule.attrParts.put (Rule.attrParts.read _) s21 = s22 at t22 ⊢
  have t23 := stepped_opts s22 q.opts
  generalize Rule.opts.put (Rule.opts.read _) s22 = s23 at t23 ⊢
  have t24 := stepped_nUp s23 q.nUp
  generalize Rule.nUp.put (Rule.nUp.read _) s23 = s24 at t24 ⊢
  have t25 : Stepped s24 (putAll (optionalLine .filters q.Filters) s24)
      (fun j => { j with Filters := ((q.Filters).map Rule.filters.got).or j.Filters }) [] :=
    stepped_optional (·.Filters) (fun _ => rfl) h.Filters s24
  generalize putAll (optionalLine .filters q.Filters) s24 = s25 at t25 ⊢
  have t26 : Stepped s25 (putAll (optionalLine .passThruPDL q.PassThruPDL) s25)
      (fun j => { j with PassThruPDL :=
        ((q.PassThruPDL).map Rule.passThruPDL.got).or j.PassThruPDL }) [] :=
    stepped_optional (·.PassThruPDL) (fun _ => rfl) h.PassThruPDL s25
  generalize putAll (optionalLine .passThruPDL q.PassThruPDL) s25 = s26 at t26 ⊢
  have t27 := stepped_stripPrinter s26 q.StripPrinter
  generalize Rule.stripPrinter.put (Rule.stripPrinter.read _) s26 = s27 at t27 ⊢
  have t28 := stepped_pageList h.mask s27
  generalize putAll
      (optionalLine .pageList (q.pageList.mask.map fun m => spaced [cDecimal q.pageList.count, m])) s27 = s28 at t28 ⊢
  have t29 : Stepped s28 (putAll (optionalLine .question q.question) s28)
      (fun j => { j with question := ((q.question).map Rule.question.got).or j.question }) [] :=
    stepped_optional (·.question) (fun _ => rfl) h.question s28
  generalize putAll (optionalLine .question q.question) s28 = s29 at t29 ⊢
  have t30 : Stepped s29 (putAll (optionalLine .ripopts q.ripopts) s29)
      (fun j => { j with ripopts := ((q.ripopts).map Rule.ripopts.got).or j.ripopts }) [] :=
    stepped_optional (·.ripopts) (fun _ => rfl) h.ripopts s29
  generalize putAll (optionalLine .ripopts q.ripopts) s29 = s30 at t30 ⊢
  refine ⟨?_, ?_, ?_⟩
  · simp only [t30.job, t29.job, t28.job, t27.job, t26.job, t25.job, t24.job, t23.job, t22.job,
      t21.job, t20.job, t19.job, t18.job, t17.job, t16.job, t15.job, t14.job, t13.job, t12.job,
      t11.job, t10.job, t9.job, t8.job, t7.job, t6.job, t5.job, t4.job, t3.job, t2.job, t1.job,
      reread]
    rfl
  · simp only [t30.failed, t29.failed, t28.failed, t27.failed, t26.failed, t25.failed, t24.failed,
      t23.failed, t22.failed, t21.failed, t20.failed, t19.failed, t18.failed, t17.failed,
      t16.failed, t15.failed, t14.failed, t13.failed, t12.failed, t11.failed, t10.failed,
      t9.failed, t8.failed, t7.failed, t6.failed, t5.failed, t4.failed, t3.failed, t2.failed,
      t1.failed]
  · simp only [t30.found, t29.found, t28.found, t27.found, t26.found, t25.found, t24.found,
      t23.found, t22.found, t21.found, t20.found, t19.found, t18.found, t17.found, t16.found,
      t15.found, t14.found, t13.found, t12.found, t11.found, t10.found, t9.found, t8.found,
      t7.found, t6.found, t5.found, t4.found, t3.found, t2.found, t1.found, needed]
    simp

end Ppr.QEntryFile
