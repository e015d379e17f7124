import Ppr.Spool.FilterOptions

/-!
# When filter options are merged well

The loop of `exec_tops_filter()` looks for the end of an option that it drops at the next blank, and for
the end of one that it copies at the next white space out of quotes; the syntax check knows of quotes only
at the beginning of a value.  The two agree on the options that are `Handled` here.
-/

namespace Ppr

/-! ## Options that are taken whole -/

/-- Whether a quote is open behind a text. -/
def quoteOpen : Bool → Byte → List Byte → Bool
  | q, _, [] => q
  | q, lastc, c :: s => quoteOpen (if c = 34 ∧ lastc ≠ 92 then !q else q) c s

/-- White space in the value is in quotes, and white space out of quotes follows it, if anything does. -/
structure Whole (o : FilterOption) : Prop where
  space : ∀ p c t, o.value = p ++ c :: t → isspace c = true → quoteOpen false 0 p = true
  ended : ∀ c ∈ o.behind.head?, isspace c = true ∧ quoteOpen false 0 o.value = false

/-- There is no blank in the value, and a blank follows it, if anything does. -/
structure Unspaced (o : FilterOption) : Prop where
  value : ∀ c ∈ o.value, isBlank c = false
  ended : ∀ c ∈ o.behind.head?, isBlank c = true

/-- An option that is copied is whole, and one that is dropped has no blanks. -/
def Handled (basename : List Byte) (o : FilterOption) : Prop :=
  if (o.given basename).isSome then Whole o else Unspaced o

/-- There is no blank at the beginning, or an option with a prefix behind it. -/
def LeadsWell (s : List Byte) (os : List FilterOption) : Prop :=
  (∀ c ∈ s.head?, isBlank c = false) ∨ ∃ o ∈ os.head?, 45 ∈ o.keyword

/-- A string whose options the loop takes one by one. -/
structure HandledWell (basename s : List Byte) (os : List FilterOption) : Prop where
  leads : LeadsWell s os
  options : ∀ o ∈ os, Handled basename o

/-! ## What the check passes over -/

/-- An option of a text. -/
structure OptionOf (s : List Byte) (o : FilterOption) : Prop where
  text : s = o.keyword ++ 61 :: (o.value ++ o.behind)
  keyword : ∀ c ∈ o.keyword, isKeywordEnd c = false
  value : readValue (o.value ++ o.behind) = .ok (o.value, o.behind)

theorem closingQuote_text {lastc : Byte} {s : List Byte} {r : List Byte × List Byte}
    (h : closingQuote lastc s = some r) : s = r.1 ++ r.2 := by
  induction s generalizing lastc r with
  | nil => cases h
  | cons c s ih =>
    rw [closingQuote] at h
    split_ifs at h
    · obtain rfl := Option.some.inj h
      rfl
    · obtain ⟨q, hq, rfl⟩ := Option.map_eq_some_iff.1 h
      rw [List.cons_append, ← ih hq]

theorem readValue_text {s : List Byte} {r : List Byte × List Byte} (h : readValue s = .ok r) :
    s = r.1 ++ r.2 := by
  cases s with
  | nil => cases h
  | cons c s =>
    rw [readValue] at h
    split_ifs at h with hspace hquote
    · obtain rfl := Except.ok.inj h
      exact (List.takeWhile_append_dropWhile (p := (!isBlank ·))).symm
    · cases hclose : closingQuote 0 s with
      | none => rw [hclose] at h; cases h
      | some q =>
        rw [hclose] at h
        obtain rfl := Except.ok.inj h
        exact congrArg (c :: ·) (closingQuote_text hclose)

/-- A value without a quote at its beginning goes on to the next blank. -/
theorem readValue_bare {s : List Byte} {r : List Byte × List Byte} (h : readValue s = .ok r)
    (hs : 34 ∉ r.1) : (∀ c ∈ r.1, isBlank c = false) ∧ ∀ c ∈ r.2.head?, isBlank c = true := by
  cases s with
  | nil => cases h
  | cons c s =>
    rw [readValue] at h
    split_ifs at h with hspace hquote
    · obtain rfl := Except.ok.inj h
      exact ⟨fun b hb => by simpa using (mem_takeWhile hb).2,
        fun b hb => by simpa using dropWhile_head _ b hb⟩
    · cases hclose : closingQuote 0 s with
      | none => rw [hclose] at h; cases h
      | some q =>
        rw [hclose] at h
        obtain rfl := Except.ok.inj h
        rw [← not_not.1 hquote] at hs
        exact absurd List.mem_cons_self hs

theorem readOption_text {s : List Byte} {o : FilterOption} (h : readOption s = .ok o) : OptionOf s o := by
  unfold readOption at h
  cases hdrop : s.dropWhile (!isKeywordEnd ·) with
  | nil => rw [hdrop] at h; cases h
  | cons c t =>
    rw [hdrop] at h
    dsimp only at h
    split_ifs at h with hspace heq
    cases hvalue : readValue t with
    | error e => rw [hvalue] at h; cases h
    | ok r =>
      rw [hvalue] at h
      obtain rfl := Except.ok.inj h
      have ht := readValue_text hvalue
      refine ⟨?_, fun b hb => by simpa using (mem_takeWhile hb).2, ?_⟩
      · rw [← ht, ← not_not.1 heq, ← hdrop, List.takeWhile_append_dropWhile]
      · rw [← ht, hvalue]

theorem OptionOf.length_lt {s : List Byte} {o : FilterOption} (h : OptionOf s o) :
    o.behind.length < s.length := by
  rw [h.text, List.length_append, List.length_cons, List.length_append]
  omega

/-- A keyword has neither blanks nor an equals sign. -/
theorem OptionOf.keyword_ne {s : List Byte} {o : FilterOption} (h : OptionOf s o) :
    ∀ c ∈ o.keyword, isBlank c = false ∧ c ≠ 61 := fun c hc => by
  simpa [isKeywordEnd] using h.keyword c hc

/-! ## What the loop takes -/

theorem takeWhile_ne_append {x : Byte} {k : List Byte} (hk : ∀ c ∈ k, c ≠ x) (t : List Byte) :
    (k ++ x :: t).takeWhile (· ≠ x) = k ∧ (k ++ x :: t).dropWhile (· ≠ x) = x :: t := by
  have hkeep : ∀ c ∈ k, decide (c ≠ x) = true := fun c hc => by simpa using hk c hc
  rw [List.takeWhile_append_of_pos hkeep, List.dropWhile_append_of_pos hkeep,
    List.takeWhile_cons_of_neg (by simp), List.dropWhile_cons_of_neg (by simp), List.append_nil]
  exact ⟨rfl, rfl⟩

/-- A value is copied to its end. -/
theorem copyValue_whole {q : Bool} {lastc : Byte} {v b : List Byte}
    (hspace : ∀ p c t, v = p ++ c :: t → isspace c = true → quoteOpen q lastc p = true)
    (hended : ∀ c ∈ b.head?, isspace c = true ∧ quoteOpen q lastc v = false) :
    copyValue q lastc (v ++ b) = (v, b) := by
  induction v generalizing q lastc with
  | nil =>
    cases b with
    | nil => rfl
    | cons c b =>
      have hend : isspace c = true ∧ q = false := hended c rfl
      rw [List.nil_append, copyValue, if_pos hend]
  | cons c v ih =>
    have hgo : ¬(isspace c = true ∧ q = false) := by
      rintro ⟨hc, rfl⟩
      exact absurd (hspace [] c v rfl hc) (by simp [quoteOpen])
    rw [List.cons_append, copyValue, if_neg hgo]
    rw [ih (fun p d t hv hd => hspace (c :: p) d t (congrArg (c :: ·) hv) hd) hended]

theorem copyOption_whole {o : FilterOption} (h : Whole o) {k : List Byte} (hk : ∀ c ∈ k, c ≠ 61) :
    copyOption (k ++ 61 :: (o.value ++ o.behind)) =
      (k.map Pprdrv.tolower ++ 61 :: o.value, o.behind.dropWhile isBlank) := by
  obtain ⟨htake, hdrop⟩ := takeWhile_ne_append hk (o.value ++ o.behind)
  rw [copyOption, hdrop, htake]
  dsimp only
  rw [copyValue_whole h.space h.ended]

/-- The end of an option without blanks. -/
theorem dropWhile_unspaced {s : List Byte} {o : FilterOption} (h : OptionOf s o) (hu : Unspaced o) :
    (s.dropWhile (!isBlank ·)).dropWhile isBlank = o.behind.dropWhile isBlank := by
  have hkeep : ∀ c ∈ o.keyword ++ 61 :: o.value, (!isBlank c) = true := by
    intro c hc
    rcases List.mem_append.1 hc with hc | hc
    · simp [(h.keyword_ne c hc).1]
    · rcases List.mem_cons.1 hc with rfl | hc
      · decide
      · simp [hu.value c hc]
  have hs : s = (o.keyword ++ 61 :: o.value) ++ o.behind := by rw [h.text]; simp
  rw [hs, List.dropWhile_append_of_pos hkeep]
  cases hb : o.behind with
  | nil => rfl
  | cons c b => rw [List.dropWhile_cons_of_neg (by simp [hu.ended c (by rw [hb]; rfl)])]

/-- Where the first hyphen is. -/
theorem split_eq (o : FilterOption) :
    (o.split = none ∧ 45 ∉ o.keyword) ∨
      ∃ p rest, o.split = some (p, rest) ∧ o.keyword = p ++ 45 :: rest ∧ 45 ∉ p := by
  unfold FilterOption.split
  cases hdrop : o.keyword.dropWhile (· ≠ 45) with
  | nil =>
    refine .inl ⟨rfl, fun hmem => ?_⟩
    have := List.dropWhile_eq_nil_iff.1 hdrop 45 hmem
    simp at this
  | cons c rest =>
    have hc : c = 45 := by
      have := dropWhile_head o.keyword c (by rw [hdrop]; rfl)
      simpa using this
    refine .inr ⟨_, rest, rfl, ?_, fun hmem => ?_⟩
    · rw [hc] at hdrop
      rw [← hdrop, List.takeWhile_append_dropWhile]
    · simpa using (mem_takeWhile hmem).2

/-- One turn of the loop takes an option that is handled. -/
theorem takeOption_handled {basename s : List Byte} {o : FilterOption} (h : OptionOf s o)
    (hh : Handled basename o) : takeOption basename s = (o.given basename, o.behind.dropWhile isBlank) := by
  have hk : ∀ c ∈ o.keyword, c ≠ 61 := fun c hc => (h.keyword_ne c hc).2
  obtain ⟨hkey, -⟩ := takeWhile_ne_append hk (o.value ++ o.behind)
  rw [← h.text] at hkey
  unfold takeOption
  dsimp only
  rw [hkey]
  rcases split_eq o with ⟨hsplit, hno⟩ | ⟨p, rest, hsplit, hkeyword, hp⟩
  · have hgiven : o.given basename = some (o.keyword.map Pprdrv.tolower ++ 61 :: o.value) := by
      rw [FilterOption.given, hsplit]
    have hle : ¬(s.takeWhile (· ≠ 45)).length < o.keyword.length := by
      rw [h.text, List.takeWhile_append_of_pos fun c hc => by simpa using ne_of_mem_of_not_mem hc hno,
        List.length_append]
      omega
    rw [Handled, hgiven] at hh
    rw [if_neg hle, hgiven, h.text, copyOption_whole hh hk]
  · have hs : s = p ++ 45 :: (rest ++ 61 :: (o.value ++ o.behind)) := by
      rw [h.text, hkeyword]
      simp
    obtain ⟨hfront, -⟩ := takeWhile_ne_append (fun c hc => ne_of_mem_of_not_mem hc hp)
      (rest ++ 61 :: (o.value ++ o.behind))
    rw [← hs] at hfront
    have hlt : p.length < o.keyword.length := by
      rw [hkeyword, List.length_append, List.length_cons]
      omega
    have hsame : (p.length = basename.length ∧ sameWord (s.take basename.length) basename = true) ↔
        sameWord p basename = true := by
      constructor
      · rintro ⟨hlen, hword⟩
        rwa [← hlen, hs, List.take_left] at hword
      · intro hword
        have hlen : p.length = basename.length := by
          simpa using congrArg List.length (of_decide_eq_true hword)
        refine ⟨hlen, ?_⟩
        rwa [← hlen, hs, List.take_left]
    rw [hfront, if_pos hlt]
    by_cases hword : sameWord p basename = true
    · have hgiven : o.given basename = some (rest.map Pprdrv.tolower ++ 61 :: o.value) := by
        rw [FilterOption.given, hsplit]
        exact if_pos hword
      have hrest : ∀ c ∈ rest, c ≠ 61 := fun c hc => hk c (by rw [hkeyword]; simp [hc])
      have hdrop : s.drop (p.length + 1) = rest ++ 61 :: (o.value ++ o.behind) := by
        rw [hs, List.drop_append, List.drop_of_length_le (by omega)]
        simp
      rw [Handled, hgiven] at hh
      rw [if_pos (hsame.2 hword), hgiven, hdrop, copyOption_whole hh hrest]
    · have hgiven : o.given basename = none := by
        rw [FilterOption.given, hsplit]
        exact if_neg hword
      rw [Handled, hgiven] at hh
      rw [if_neg (hsame.not.2 hword), hgiven, dropWhile_unspaced h hh]

/-! ## All options of a string -/

theorem mergeLoop_nil (basename : List Byte) (n : ℕ) (out : List Byte) : mergeLoop basename n [] out = out := by
  cases n <;> rfl

theorem foldl_elim (out : List Byte) (opt : Option (List Byte)) (opts : List (List Byte)) :
    opts.foldl addOption (opt.elim out (addOption out)) =
      (opt.toList ++ opts).foldl addOption out := by
  cases opt <;> rfl

theorem readLoop_ok_cons {m : ℕ} {s : List Byte} {os : List FilterOption} (h : readLoop (m + 1) s = .ok os) :
    (s.dropWhile isBlank = [] ∧ os = []) ∨
      ∃ o os', os = o :: os' ∧ readOption (s.dropWhile isBlank) = .ok o ∧
        readLoop m o.behind = .ok os' := by
  rw [readLoop] at h
  cases hs : s.dropWhile isBlank with
  | nil =>
    rw [hs] at h
    exact .inl ⟨rfl, (Except.ok.inj h).symm⟩
  | cons c t =>
    rw [hs] at h
    dsimp only at h
    cases ho : readOption (c :: t) with
    | error e => rw [ho] at h; cases h
    | ok o =>
      rw [ho] at h
      dsimp only at h
      cases hos : readLoop m o.behind with
      | error e => rw [hos] at h; cases h
      | ok os' =>
        rw [hos] at h
        exact .inr ⟨o, os', (Except.ok.inj h).symm, rfl, hos⟩

theorem length_dropWhile_le (s : List Byte) : (s.dropWhile isBlank).length ≤ s.length :=
  (List.dropWhile_suffix _).length_le

/-- The loop from the first character that is not a blank on. -/
theorem mergeLoop_handled {basename s : List Byte} {m n : ℕ} {os : List FilterOption} {out : List Byte}
    (hread : readLoop m s = .ok os) (hm : s.length ≤ m) (hn : (s.dropWhile isBlank).length ≤ n)
    (hos : ∀ o ∈ os, Handled basename o) :
    mergeLoop basename n (s.dropWhile isBlank) out =
      (os.filterMap (FilterOption.given basename)).foldl addOption out := by
  induction m generalizing n s os out with
  | zero =>
    obtain rfl := List.eq_nil_of_length_eq_zero (Nat.le_zero.1 hm)
    obtain rfl := Except.ok.inj hread
    exact mergeLoop_nil ..
  | succ m ih =>
    rcases readLoop_ok_cons hread with ⟨hs, rfl⟩ | ⟨o, os', rfl, ho, hread'⟩
    · rw [hs]
      exact mergeLoop_nil ..
    · have ho := readOption_text ho
      obtain ⟨hhandled, hos'⟩ := List.forall_mem_cons.1 hos
      have hlt := ho.length_lt
      have hle := length_dropWhile_le s
      have hle' := length_dropWhile_le o.behind
      obtain ⟨n, rfl⟩ := Nat.exists_eq_succ_of_ne_zero (by omega : n ≠ 0)
      obtain ⟨c, t, hct⟩ := List.exists_cons_of_length_pos (Nat.zero_lt_of_lt hlt)
      rw [hct, mergeLoop, ← hct, takeOption_handled ho hhandled,
        ih hread' (by omega) (by omega) hos', foldl_elim, List.filterMap_cons_toList]

/-- No filter has a name that begins with a blank. -/
theorem not_sameWord_blank (f : FilterCall) {s : List Byte} (hs : ∃ c ∈ s.head?, isBlank c = true) :
    sameWord s f.basename = false := by
  obtain ⟨c, hc, hblank⟩ := hs
  obtain ⟨t, rfl⟩ := List.head?_eq_some_iff.1 hc
  have hupper : toupper c = c := by
    simp only [isBlank, Bool.or_eq_true, decide_eq_true_eq] at hblank
    rcases hblank with rfl | rfl <;> rfl
  refine decide_eq_false fun heq => ?_
  have hhead := congrArg List.head? heq
  rw [List.map_cons, List.head?_cons, hupper, List.head?_map] at hhead
  have hfirst : f.basename.head? = some 104 ∨ f.basename.head? = some 98 := by
    cases f with
    | hexdump => exact .inl (by decide)
    | typed name =>
      refine .inr ?_
      have htext : (FilterCall.typed name).basename = (filtdir ++ ascii "/filter_").drop 7 ++ name :=
        List.drop_append_of_le_length (by decide)
      have hcons : (filtdir ++ ascii "/filter_").drop 7 = 98 :: (filtdir ++ ascii "/filter_").drop 8 := by decide
      rw [htext, hcons]
      rfl
  rcases hfirst with hfirst | hfirst
  · rw [hfirst] at hhead
    obtain rfl : c = 72 := Option.some.inj hhead
    cases hblank
  · rw [hfirst] at hhead
    obtain rfl : c = 66 := Option.some.inj hhead
    cases hblank

/-- Blanks in front of an option with a prefix are eaten up with a turn of their own. -/
theorem takeOption_blanks (f : FilterCall) {lead s : List Byte} {o : FilterOption} (h : OptionOf s o)
    (hlead : ∀ c ∈ lead, isBlank c = true) (hne : lead ≠ []) (hk : 45 ∈ o.keyword) :
    takeOption f.basename (lead ++ s) = (none, s) := by
  obtain ⟨c, lead, rfl⟩ := List.exists_cons_of_ne_nil hne
  have hblank : ∀ d ∈ c :: lead, d ≠ 61 ∧ d ≠ 45 := fun d hd => by
    have := hlead d hd
    constructor <;> (rintro rfl; cases this)
  obtain ⟨p, rest, -, hkeyword, hp⟩ := (split_eq o).resolve_left fun hno => hno.2 hk
  have hkey : ((c :: lead ++ s).takeWhile (· ≠ 61)) = c :: lead ++ o.keyword := by
    rw [h.text, ← List.append_assoc]
    exact (takeWhile_ne_append (fun d hd => (List.mem_append.1 hd).elim (fun hd => (hblank d hd).1)
      fun hd => (h.keyword_ne d hd).2) _).1
  have hfront : ((c :: lead ++ s).takeWhile (· ≠ 45)) = c :: lead ++ p := by
    have htext : c :: lead ++ s = (c :: lead ++ p) ++ 45 :: (rest ++ 61 :: (o.value ++ o.behind)) := by
      rw [h.text, hkeyword]
      simp
    rw [htext]
    exact (takeWhile_ne_append (fun d hd => (List.mem_append.1 hd).elim (fun hd => (hblank d hd).2)
      fun hd => ne_of_mem_of_not_mem hd hp) _).1
  have hlt : (c :: lead ++ p).length < (c :: lead ++ o.keyword).length := by
    rw [hkeyword]
    simp
  have hforeign : ¬((c :: lead ++ p).length = f.basename.length ∧
      sameWord ((c :: lead ++ s).take f.basename.length) f.basename = true) := by
    rintro ⟨hlen, hword⟩
    rw [not_sameWord_blank f ⟨c, ?_, hlead c List.mem_cons_self⟩] at hword
    · cases hword
    · rw [← hlen]
      rfl
  have hskip : (c :: lead ++ s).dropWhile (!isBlank ·) = c :: lead ++ s := by
    rw [List.cons_append, List.dropWhile_cons_of_neg (by simp [hlead c List.mem_cons_self])]
  have hfirst : ∀ d ∈ s.head?, isBlank d = false := by
    obtain ⟨b, t, hbt⟩ := List.exists_cons_of_ne_nil (List.ne_nil_of_mem hk)
    intro d hd
    rw [h.text, hbt] at hd
    obtain rfl := Option.some.inj hd
    exact (h.keyword_ne b (hbt ▸ List.mem_cons_self)).1
  unfold takeOption
  dsimp only
  rw [hkey, hfront, if_pos hlt, if_neg hforeign, hskip, List.dropWhile_append_of_pos hlead]
  cases s with
  | nil => rfl
  | cons d s => rw [List.dropWhile_cons_of_neg (by simp [hfirst d rfl])]

/-- A string that is handled well. -/
theorem mergeLoop_handledWell {f : FilterCall} {s : List Byte} {os : List FilterOption} (out : List Byte)
    (hread : readOptions s = .ok os) (h : HandledWell f.basename s os) :
    mergeLoop f.basename s.length s out = (os.filterMap (FilterOption.given f.basename)).foldl addOption out := by
  by_cases hs : ∀ c ∈ s.head?, isBlank c = false
  · have hdrop : s.dropWhile isBlank = s := by
      cases s with
      | nil => rfl
      | cons c s => rw [List.dropWhile_cons_of_neg (by simp [hs c rfl])]
    have hloop := @mergeLoop_handled f.basename s _ s.length os out hread le_rfl (length_dropWhile_le s) h.options
    rwa [hdrop] at hloop
  · obtain ⟨o, ho, hk⟩ := h.leads.resolve_left hs
    obtain ⟨os', rfl⟩ := List.head?_eq_some_iff.1 ho
    cases s with
    | nil => exact absurd nofun hs
    | cons c s =>
      have hc : isBlank c = true := by simpa using hs
      rcases readLoop_ok_cons hread with ⟨-, hnil⟩ | ⟨o', os'', hos, ho', -⟩
      · cases hnil
      · obtain ⟨rfl, rfl⟩ := List.cons.inj hos
        have htake := @takeOption_blanks f ((c :: s).takeWhile isBlank) _ _ (readOption_text ho')
          (fun d hd => (mem_takeWhile hd).2) (by simp [hc]) hk
        rw [List.takeWhile_append_dropWhile] at htake
        have hle : ((c :: s).dropWhile isBlank).length ≤ s.length := by
          rw [List.dropWhile_cons_of_pos hc]
          exact length_dropWhile_le s
        rw [List.length_cons, mergeLoop, htake]
        exact mergeLoop_handled hread le_rfl hle h.options

/-! ## The whole option string -/

/-- The condition under which the options are merged. -/
def MergesWell (f : FilterCall) (deffiltopts options : Option (List Byte)) : Prop :=
  match deffiltopts with
  | none => ∀ us, readSource options = .ok us → us.filterMap (FilterOption.given f.name) = []
  | some d => ∃ ds us, readOptions d = .ok ds ∧ readSource options = .ok us ∧
      HandledWell f.basename d ds ∧ (∀ u ∈ options, HandledWell f.basename u us) ∧
      (ds ++ us).filterMap (FilterOption.given f.basename) = (ds ++ us).filterMap (FilterOption.given f.name)

/-- The filter is given the implied options, the default options and those of the user, in order. -/
def Merged (conf : ConfFiles) (destname : List Byte) (f : FilterCall) (i : Implying)
    (options : Option (List Byte)) : Prop :=
  ∃ deffiltopts ds us, extractDeffiltopts conf destname = .ok deffiltopts ∧
    readSource deffiltopts = .ok ds ∧ readSource options = .ok us ∧
      execTopsFilter conf destname f i options = .ok (spaced (wantedOptions f i ds us))

theorem spaced_append_singleton {l : List (List Byte)} (hl : l ≠ []) (a : List Byte) :
    spaced (l ++ [a]) = spaced l ++ 32 :: a := by
  induction l with
  | nil => exact absurd rfl hl
  | cons b l ih =>
    cases l with
    | nil => rw [List.singleton_append, spaced_cons_cons, spaced_singleton, spaced_singleton]
    | cons c l =>
      rw [List.cons_append, List.cons_append, spaced_cons_cons, ← List.cons_append, ih (List.cons_ne_nil _ _),
        spaced_cons_cons]
      simp

/-- The options, each but the first with a space before it. -/
theorem foldl_addOption {l : List (List Byte)} (h : ∀ a ∈ l, a ≠ []) : l.foldl addOption [] = spaced l := by
  induction l using List.reverseRecOn with
  | nil => rfl
  | append_singleton l a ih =>
    rw [List.foldl_append, ih fun b hb => h b (List.mem_append_left _ hb), List.foldl_cons, List.foldl_nil]
    cases l with
    | nil =>
      rw [List.nil_append, spaced_singleton]
      rfl
    | cons b l =>
      have hb : b ≠ [] := h b (by simp)
      have hpos : 0 < (spaced (b :: l)).length := by
        have hlen := List.length_pos_iff.2 hb
        cases l with
        | nil => rwa [spaced_singleton]
        | cons c l =>
          rw [spaced_cons_cons, List.length_append]
          omega
      rw [addOption, if_pos hpos, spaced_append_singleton (List.cons_ne_nil _ _)]

theorem filterMap_given_ne_nil {name x : List Byte} {os : List FilterOption}
    (hx : x ∈ os.filterMap (FilterOption.given name)) : x ≠ [] := by
  obtain ⟨o, -, ho⟩ := List.mem_filterMap.1 hx
  unfold FilterOption.given at ho
  split at ho
  · obtain rfl := Option.some.inj ho
    simp
  · split_ifs at ho
    obtain rfl := Option.some.inj ho
    simp

theorem implied_ne_nil {i : Implying} {x : List Byte} (hx : x ∈ impliedOptions i) : x ≠ [] := by
  have hpre : ∀ {k : String} {t : List Byte}, ascii k ≠ [] → ascii k ++ t ≠ [] := fun hk =>
    List.append_ne_nil_of_left_ne_nil hk _
  simp only [impliedOptions, List.mem_append, List.mem_filterMap, Option.mem_toList, Option.map_eq_some_iff,
    pagesizeOption] at hx
  rcases hx with (⟨_, _, _, _, rfl⟩ | ⟨_, _, rfl⟩) | ⟨_, _, rfl⟩ <;> exact hpre (by decide)

theorem wantedOptions_ne_nil {f : FilterCall} {i : Implying} {ds us : List FilterOption} :
    ∀ x ∈ wantedOptions f i ds us, x ≠ [] := fun _ hx =>
  (List.mem_append.1 hx).elim implied_ne_nil filterMap_given_ne_nil

theorem foldl_implied (i : Implying) : (impliedOptions i).foldl addOption [] = spaced (impliedOptions i) :=
  foldl_addOption fun _ hx => implied_ne_nil hx

/-- Without default options, those of the user are not read. -/
theorem mergeSources_none (f : FilterCall) (i : Implying) (options : Option (List Byte)) :
    mergeSources f i none options = spaced (impliedOptions i) := by
  rw [mergeSources, foldl_implied]
  rfl

theorem siList_some (d : List Byte) (options : Option (List Byte)) :
    siList (some d) options = d :: options.toList := by
  cases options <;> rfl

/-- What is put together if the condition holds. -/
theorem mergeSources_of_mergesWell {f : FilterCall} (i : Implying) {d : List Byte}
    {options : Option (List Byte)} {ds us : List FilterOption} (hd : readOptions d = .ok ds)
    (hu : readSource options = .ok us) (hds : HandledWell f.basename d ds)
    (hus : ∀ u ∈ options, HandledWell f.basename u us)
    (hsel : (ds ++ us).filterMap (FilterOption.given f.basename) =
      (ds ++ us).filterMap (FilterOption.given f.name)) :
    mergeSources f i (some d) options = spaced (wantedOptions f i ds us) := by
  rw [mergeSources, siList_some, List.foldl_cons, mergeLoop_handledWell _ hd hds,
    ← foldl_addOption wantedOptions_ne_nil, wantedOptions, ← hsel, List.filterMap_append, List.foldl_append,
    List.foldl_append]
  cases options with
  | none =>
    obtain rfl := Except.ok.inj hu
    rfl
  | some u => exact mergeLoop_handledWell _ hu (hus u rfl)

/-! ## Strings without quotes -/

/-- There are no quotes, and no white space but blanks. -/
def PlainText (s : List Byte) : Prop := ∀ c ∈ s, c ≠ 34 ∧ (isspace c = true → isBlank c = true)

def NoBlank (s : List Byte) : Prop := ∀ c ∈ s, isBlank c = false

theorem quoteOpen_eq_false {lastc : Byte} {s : List Byte} (h : 34 ∉ s) : quoteOpen false lastc s = false := by
  induction s generalizing lastc with
  | nil => rfl
  | cons c s ih =>
    rw [List.mem_cons, not_or] at h
    rw [quoteOpen, if_neg fun hc => h.1 hc.1.symm]
    exact ih h.2

theorem isspace_of_isBlank {c : Byte} (h : isBlank c = true) : isspace c = true := by
  simp only [isBlank, Bool.or_eq_true, decide_eq_true_eq] at h
  rcases h with rfl | rfl <;> decide

theorem isBlank_tolower : ∀ c : Byte, isBlank (Pprdrv.tolower c) = isBlank c := by decide +kernel

/-- An option of a plain text. -/
structure PlainOption (o : FilterOption) : Prop where
  unspaced : Unspaced o
  keyword : NoBlank o.keyword
  quotes : 34 ∉ o.value

theorem PlainText.of_subset {s t : List Byte} (h : PlainText t) (hst : s ⊆ t) : PlainText s :=
  fun c hc => h c (hst hc)

theorem plainOption_of_read {s : List Byte} {o : FilterOption} (h : readOption s = .ok o) (hs : PlainText s) :
    PlainOption o ∧ PlainText o.behind := by
  have ho := readOption_text h
  have hvalue : ∀ c ∈ o.value, c ∈ s := fun c hc => by
    rw [ho.text]
    simp [hc]
  have hbehind : ∀ c ∈ o.behind, c ∈ s := fun c hc => by
    rw [ho.text]
    simp [hc]
  have hquotes : 34 ∉ o.value := fun hmem => (hs 34 (hvalue 34 hmem)).1 rfl
  obtain ⟨hbare, hended⟩ := readValue_bare ho.value hquotes
  exact ⟨⟨⟨hbare, hended⟩, fun c hc => (ho.keyword_ne c hc).1, hquotes⟩, hs.of_subset hbehind⟩

theorem PlainOption.handled {o : FilterOption} (h : PlainOption o) (hspace : ∀ c ∈ o.value, isspace c = false)
    (basename : List Byte) : Handled basename o := by
  unfold Handled
  split_ifs
  · refine ⟨fun p c t hv hc => ?_, fun c hc => ?_⟩
    · rw [hspace c (by rw [hv]; simp)] at hc
      cases hc
    · exact ⟨isspace_of_isBlank (h.unspaced.ended c hc), quoteOpen_eq_false h.quotes⟩
  · exact h.unspaced

theorem PlainOption.noBlank_given {o : FilterOption} (h : PlainOption o) {name x : List Byte}
    (hx : o.given name = some x) : NoBlank x := by
  have htext : ∀ {k : List Byte}, NoBlank k → NoBlank (k.map Pprdrv.tolower ++ 61 :: o.value) := by
    intro k hk c hc
    rcases List.mem_append.1 hc with hc | hc
    · obtain ⟨b, hb, rfl⟩ := List.mem_map.1 hc
      rw [isBlank_tolower, hk b hb]
    · rcases List.mem_cons.1 hc with rfl | hc
      · decide
      · exact h.unspaced.value c hc
  unfold FilterOption.given at hx
  rcases split_eq o with ⟨hsplit, -⟩ | ⟨p, rest, hsplit, hkeyword, -⟩
  · rw [hsplit] at hx
    obtain rfl := Option.some.inj hx
    exact htext h.keyword
  · rw [hsplit] at hx
    dsimp only at hx
    split_ifs at hx
    obtain rfl := Option.some.inj hx
    exact htext fun c hc => h.keyword c (by rw [hkeyword]; simp [hc])

/-- All options of a plain text. -/
theorem plainOptions {m : ℕ} {s : List Byte} {os : List FilterOption} (h : readLoop m s = .ok os)
    (hs : PlainText s) (basename : List Byte) : ∀ o ∈ os, PlainOption o ∧ Handled basename o := by
  induction m generalizing s os with
  | zero =>
    obtain rfl := Except.ok.inj h
    exact nofun
  | succ m ih =>
    rcases readLoop_ok_cons h with ⟨-, rfl⟩ | ⟨o, os', rfl, ho, h'⟩
    · exact nofun
    · have hdrop : PlainText (s.dropWhile isBlank) := hs.of_subset (List.dropWhile_suffix _).subset
      obtain ⟨hplain, hbehind⟩ := plainOption_of_read ho hdrop
      have hspace : ∀ c ∈ o.value, isspace c = false := fun c hc => by
        by_contra hne
        have hmem : c ∈ s.dropWhile isBlank := by
          rw [(readOption_text ho).text]
          simp [hc]
        have hblank := (hdrop c hmem).2 (by simpa using hne)
        rw [hplain.unspaced.value c hc] at hblank
        cases hblank
      exact List.forall_mem_cons.2 ⟨⟨hplain, hplain.handled hspace basename⟩, ih h' hbehind⟩

/-- A word, or something that begins with a blank. -/
def WordOrBlank (x : List Byte) : Prop := x ≠ [] ∧ (NoBlank x ∨ ∃ c ∈ x.head?, isBlank c = true)

theorem map_tolower_cons_blank {c : Byte} (hc : isBlank c = true) (s t : List Byte) :
    ∃ d ∈ ((c :: s).map Pprdrv.tolower ++ t).head?, isBlank d = true :=
  ⟨Pprdrv.tolower c, rfl, by rw [isBlank_tolower, hc]⟩

/-- Nothing but blanks is copied. -/
theorem takeOption_allBlank (basename : List Byte) {lead : List Byte} (hlead : ∀ c ∈ lead, isBlank c = true) :
    takeOption basename lead = (some (lead.map Pprdrv.tolower), []) := by
  have hne : ∀ c ∈ lead, c ≠ 61 ∧ c ≠ 45 := fun c hc => by
    have := hlead c hc
    constructor <;> (rintro rfl; cases this)
  have hkey : lead.takeWhile (· ≠ 61) = lead :=
    List.takeWhile_eq_self_iff.2 fun c hc => by simpa using (hne c hc).1
  have hfront : lead.takeWhile (· ≠ 45) = lead :=
    List.takeWhile_eq_self_iff.2 fun c hc => by simpa using (hne c hc).2
  have hdrop : lead.dropWhile (· ≠ 61) = [] :=
    List.dropWhile_eq_nil_iff.2 fun c hc => by simpa using (hne c hc).1
  unfold takeOption copyOption
  dsimp only
  rw [hkey, hfront, if_neg (Nat.lt_irrefl _), hdrop]

/-- Blanks in front of an option without a prefix are copied with it. -/
theorem takeOption_lead (basename : List Byte) {lead s : List Byte} {o : FilterOption} (h : OptionOf s o)
    (hlead : ∀ c ∈ lead, isBlank c = true) (hhandled : Handled basename o) (hno : 45 ∉ o.keyword) :
    takeOption basename (lead ++ s) =
      (some ((lead ++ o.keyword).map Pprdrv.tolower ++ 61 :: o.value), o.behind.dropWhile isBlank) := by
  have hne : ∀ c ∈ lead, c ≠ 61 ∧ c ≠ 45 := fun c hc => by
    have := hlead c hc
    constructor <;> (rintro rfl; cases this)
  have hkeep : ∀ c ∈ lead ++ o.keyword, c ≠ 61 := fun c hc =>
    (List.mem_append.1 hc).elim (fun hc => (hne c hc).1) fun hc => (h.keyword_ne c hc).2
  have htext : lead ++ s = (lead ++ o.keyword) ++ 61 :: (o.value ++ o.behind) := by
    rw [h.text, List.append_assoc]
  have hkey : (lead ++ s).takeWhile (· ≠ 61) = lead ++ o.keyword := by
    rw [htext]
    exact (takeWhile_ne_append hkeep _).1
  have hfront : ¬((lead ++ s).takeWhile (· ≠ 45)).length < (lead ++ o.keyword).length := by
    have hkeep : ∀ c ∈ lead ++ o.keyword, decide (c ≠ 45) = true := fun c hc => by
      simpa using (List.mem_append.1 hc).elim (fun hc => (hne c hc).2) fun hc => ne_of_mem_of_not_mem hc hno
    rw [htext, List.takeWhile_append_of_pos hkeep, List.length_append]
    omega
  have hwhole : Whole o := by
    rcases split_eq o with ⟨hsplit, -⟩ | ⟨p, rest, -, hkeyword, -⟩
    · rw [Handled, FilterOption.given, hsplit] at hhandled
      exact hhandled
    · exact absurd (by rw [hkeyword]; simp) hno
  unfold takeOption
  dsimp only
  rw [hkey, if_neg hfront, htext, copyOption_whole hwhole hkeep]

/-- If a plain text is not handled well, something that begins with a blank is added. -/
theorem mergeLoop_plain {f : FilterCall} {s : List Byte} {os : List FilterOption} (out : List Byte)
    (hread : readOptions s = .ok os) (hs : PlainText s) (hbad : ¬HandledWell f.basename s os) :
    ∃ xs : List (List Byte), mergeLoop f.basename s.length s out = xs.foldl addOption out ∧
      (∀ x ∈ xs, WordOrBlank x) ∧ ∃ x ∈ xs, ¬NoBlank x := by
  have hplain := plainOptions hread hs f.basename
  have hlead : ¬LeadsWell s os := fun h => hbad ⟨h, fun o ho => (hplain o ho).2⟩
  rw [LeadsWell, not_or] at hlead
  cases s with
  | nil => exact absurd nofun hlead.1
  | cons c s =>
    have hc : isBlank c = true := by simpa using hlead.1
    have hall : ∀ d ∈ (c :: s).takeWhile isBlank, isBlank d = true := fun d hd => (mem_takeWhile hd).2
    have htake : (c :: s).takeWhile isBlank = c :: s.takeWhile isBlank := List.takeWhile_cons_of_pos hc
    have hblank : ∀ {x : List Byte}, (∃ d ∈ x.head?, isBlank d = true) → WordOrBlank x ∧ ¬NoBlank x := by
      rintro x ⟨d, hd, hdb⟩
      obtain ⟨t, rfl⟩ := List.head?_eq_some_iff.1 hd
      exact ⟨⟨List.cons_ne_nil _ _, .inr ⟨d, rfl, hdb⟩⟩, fun h => by
        rw [h d List.mem_cons_self] at hdb
        cases hdb⟩
    rcases readLoop_ok_cons hread with ⟨hnil, rfl⟩ | ⟨o, os', rfl, ho, hread'⟩
    · have hself : (c :: s).takeWhile isBlank = c :: s := by
        conv_rhs => rw [← List.takeWhile_append_dropWhile (p := isBlank) (l := c :: s), hnil, List.append_nil]
      rw [hself] at hall
      obtain ⟨hword, hno⟩ := hblank (map_tolower_cons_blank hc s [])
      rw [List.append_nil] at hword hno
      refine ⟨[(c :: s).map Pprdrv.tolower], ?_, fun x hx => ?_, _, List.mem_cons_self, hno⟩
      swap
      · rw [List.mem_singleton.1 hx]
        exact hword
      rw [List.length_cons, mergeLoop, takeOption_allBlank _ hall, mergeLoop_nil]
      rfl
    · obtain ⟨⟨hplain, hhandled⟩, hrest⟩ := List.forall_mem_cons.1 hplain
      have hno : 45 ∉ o.keyword := fun h => hlead.2 ⟨o, rfl, h⟩
      have hturn := takeOption_lead f.basename (readOption_text ho) hall hhandled hno
      rw [List.takeWhile_append_dropWhile, htake] at hturn
      have hlt := (readOption_text ho).length_lt
      have hle : ((c :: s).dropWhile isBlank).length ≤ s.length := by
        rw [List.dropWhile_cons_of_pos hc]
        exact length_dropWhile_le s
      have hle' := length_dropWhile_le o.behind
      obtain ⟨hword, hnb⟩ := hblank (map_tolower_cons_blank hc (s.takeWhile isBlank ++ o.keyword) (61 :: o.value))
      refine ⟨_ :: os'.filterMap (FilterOption.given f.basename), ?_, List.forall_mem_cons.2 ⟨hword, ?_⟩, _,
        List.mem_cons_self, hnb⟩
      · rw [List.length_cons, mergeLoop, hturn, List.foldl_cons]
        exact mergeLoop_handled hread' (by omega) (by omega) fun o ho => (hrest o ho).2
      · intro x hx
        obtain ⟨o', ho', hgiven⟩ := List.mem_filterMap.1 hx
        exact ⟨filterMap_given_ne_nil hx, .inl ((hrest o' ho').1.noBlank_given hgiven)⟩

theorem takeWhile_word {a : List Byte} (ha : NoBlank a) (l : List (List Byte)) :
    (a ++ l.flatMap (32 :: ·)).takeWhile (!isBlank ·) = a := by
  rw [List.takeWhile_append_of_pos fun c hc => by simp [ha c hc]]
  cases l with
  | nil => simp
  | cons b l =>
    rw [List.flatMap_cons, List.cons_append, List.takeWhile_cons_of_neg (by decide), List.append_nil]

/-- Words are told from what they are joined to. -/
theorem eq_of_joined {as bs : List (List Byte)} (ha : ∀ a ∈ as, WordOrBlank a)
    (hb : ∀ b ∈ bs, b ≠ [] ∧ NoBlank b) (h : as.flatMap (32 :: ·) = bs.flatMap (32 :: ·)) : as = bs := by
  induction as generalizing bs with
  | nil =>
    cases bs with
    | nil => rfl
    | cons b bs => cases h
  | cons a as ih =>
    cases bs with
    | nil => cases h
    | cons b bs =>
      obtain ⟨⟨-, hword⟩, has⟩ := List.forall_mem_cons.1 ha
      obtain ⟨⟨hne, hnb⟩, hbs⟩ := List.forall_mem_cons.1 hb
      have htail := (List.cons.inj h).2
      have hanb : NoBlank a := by
        rcases hword with hword | ⟨c, hc, hblank⟩
        · exact hword
        · obtain ⟨t, rfl⟩ := List.head?_eq_some_iff.1 hc
          obtain ⟨d, t', rfl⟩ := List.exists_cons_of_ne_nil hne
          obtain rfl : c = d := (List.cons.inj htail).1
          rw [hnb c List.mem_cons_self] at hblank
          cases hblank
      have hab : a = b := by
        rw [← takeWhile_word hanb as, ← takeWhile_word hnb bs]
        exact congrArg _ htail
      obtain rfl := hab
      rw [ih has hbs (List.append_cancel_left htail)]

/-- A text put together of words, with a space before each. -/
theorem cons_spaced {l : List (List Byte)} (h : l ≠ []) : 32 :: spaced l = l.flatMap (32 :: ·) := by
  induction l with
  | nil => exact absurd rfl h
  | cons a l ih =>
    cases l with
    | nil => simp [spaced_singleton]
    | cons b l =>
      rw [spaced_cons_cons, ih (List.cons_ne_nil _ _)]
      rfl

theorem joined_of_spaced {l as bs : List (List Byte)} (ha : ∀ a ∈ as, a ≠ []) (hb : ∀ b ∈ bs, b ≠ [])
    (h : spaced (l ++ as) = spaced (l ++ bs)) : as.flatMap (32 :: ·) = bs.flatMap (32 :: ·) := by
  have hempty : ∀ {as : List (List Byte)}, (∀ a ∈ as, a ≠ []) → spaced as = [] → as = [] := by
    intro as ha hnil
    cases as with
    | nil => rfl
    | cons a as =>
      have := ha a List.mem_cons_self
      cases as with
      | nil => rw [spaced_singleton] at hnil; exact absurd hnil this
      | cons b as => rw [spaced_cons_cons] at hnil; simp at hnil
  by_cases hl : l = []
  · rw [hl, List.nil_append, List.nil_append] at h
    by_cases hnil : as = []
    · rw [hnil] at h ⊢
      rw [hempty hb h.symm]
    · have hnil' : bs ≠ [] := by
        rintro rfl
        exact hnil (hempty ha h)
      rw [← cons_spaced hnil, ← cons_spaced hnil', h]
  · have hjoined : 32 :: spaced (l ++ as) = 32 :: spaced (l ++ bs) := by rw [h]
    rw [cons_spaced (by simp [hl]), cons_spaced (by simp [hl]), List.flatMap_append,
      List.flatMap_append] at hjoined
    exact List.append_cancel_left hjoined

/-- What is added for a plain text, and what it shows if there are no blanks in it. -/
theorem mergeLoop_added {f : FilterCall} {s : List Byte} {os : List FilterOption} (out : List Byte)
    (hread : readOptions s = .ok os) (hs : PlainText s) :
    ∃ xs : List (List Byte), mergeLoop f.basename s.length s out = xs.foldl addOption out ∧
      (∀ x ∈ xs, WordOrBlank x) ∧ ((∀ x ∈ xs, NoBlank x) →
        HandledWell f.basename s os ∧ xs = os.filterMap (FilterOption.given f.basename)) := by
  by_cases hwell : HandledWell f.basename s os
  · refine ⟨_, mergeLoop_handledWell out hread hwell, fun x hx => ⟨filterMap_given_ne_nil hx, .inl ?_⟩,
      fun _ => ⟨hwell, rfl⟩⟩
    obtain ⟨o, ho, hgiven⟩ := List.mem_filterMap.1 hx
    exact (plainOptions hread hs f.basename o ho).1.noBlank_given hgiven
  · obtain ⟨xs, hxs, hwords, x, hx, hblank⟩ := mergeLoop_plain out hread hs hwell
    exact ⟨xs, hxs, hwords, fun h => absurd (h x hx) hblank⟩

theorem wordOrBlank_ne_nil {xs : List (List Byte)} (h : ∀ x ∈ xs, WordOrBlank x) : ∀ x ∈ xs, x ≠ [] :=
  fun x hx => (h x hx).1

/-- Plain texts show the condition. -/
theorem mergesWell_of_plain {f : FilterCall} {i : Implying} {d : List Byte} {options : Option (List Byte)}
    {ds us : List FilterOption} (hd : readOptions d = .ok ds) (hu : readSource options = .ok us)
    (hplain : PlainText d ∧ ∀ u ∈ options, PlainText u)
    (h : mergeSources f i (some d) options = spaced (wantedOptions f i ds us)) :
    MergesWell f (some d) options := by
  obtain ⟨xs, hxs, hxwords, hxwell⟩ := mergeLoop_added ((impliedOptions i).foldl addOption []) hd hplain.1
  have huser : ∃ ys : List (List Byte), mergeSources f i (some d) options =
      (impliedOptions i ++ (xs ++ ys)).foldl addOption [] ∧ (∀ y ∈ ys, WordOrBlank y) ∧
        ((∀ y ∈ ys, NoBlank y) → (∀ u ∈ options, HandledWell f.basename u us) ∧
          ys = us.filterMap (FilterOption.given f.basename)) := by
    rw [mergeSources, siList_some, List.foldl_cons, hxs, ← List.foldl_append]
    cases options with
    | none =>
      obtain rfl := Except.ok.inj hu
      exact ⟨[], by simp, nofun, fun _ => ⟨nofun, rfl⟩⟩
    | some u =>
      obtain ⟨ys, hys, hywords, hywell⟩ := mergeLoop_added ((impliedOptions i ++ xs).foldl addOption []) hu
        (hplain.2 u rfl)
      refine ⟨ys, ?_, hywords, fun hno => ⟨?_, (hywell hno).2⟩⟩
      · rw [← List.append_assoc, @List.foldl_append _ _ addOption [] (impliedOptions i ++ xs) ys]
        exact hys.symm ▸ rfl
      · rintro v ⟨⟩
        exact (hywell hno).1
  obtain ⟨ys, hys, hywords, hywell⟩ := huser
  have hwords : ∀ x ∈ xs ++ ys, WordOrBlank x := fun x hx => (List.mem_append.1 hx).elim (hxwords x) (hywords x)
  have hne : ∀ x ∈ impliedOptions i ++ (xs ++ ys), x ≠ [] := fun x hx =>
    (List.mem_append.1 hx).elim implied_ne_nil (wordOrBlank_ne_nil hwords x)
  have hgiven : ∀ x ∈ (ds ++ us).filterMap (FilterOption.given f.name), x ≠ [] ∧ NoBlank x := by
    intro x hx
    obtain ⟨o, ho, hox⟩ := List.mem_filterMap.1 hx
    refine ⟨filterMap_given_ne_nil hx, ?_⟩
    rcases List.mem_append.1 ho with ho | ho
    · exact (plainOptions hd hplain.1 f.name o ho).1.noBlank_given hox
    · cases options with
      | none =>
        obtain rfl := Except.ok.inj hu
        cases ho
      | some u => exact (plainOptions hu (hplain.2 u rfl) f.name o ho).1.noBlank_given hox
  rw [hys, foldl_addOption hne, wantedOptions] at h
  have heq := eq_of_joined hwords hgiven
    (joined_of_spaced (wordOrBlank_ne_nil hwords) (fun x hx => (hgiven x hx).1) h)
  have hnoblank : ∀ x ∈ xs ++ ys, NoBlank x := fun x hx => (hgiven x (heq ▸ hx)).2
  obtain ⟨hdwell, hxs'⟩ := hxwell fun x hx => hnoblank x (List.mem_append_left _ hx)
  obtain ⟨huwell, hys'⟩ := hywell fun x hx => hnoblank x (List.mem_append_right _ hx)
  refine ⟨ds, us, hd, hu, hdwell, huwell, ?_⟩
  rw [← heq, hxs', hys', List.filterMap_append]

/-- If the condition holds, the options are merged without loss.  If there are no default options, or no
quotes and no white space but blanks in the options, it holds only then. -/
theorem merged_filterOptions {conf : ConfFiles} {destname : List Byte} {f : FilterCall} {i : Implying}
    {deffiltopts options : Option (List Byte)} {us : List FilterOption}
    (hdefs : extractDeffiltopts conf destname = .ok deffiltopts) (hoptions : readSource options = .ok us) :
    (MergesWell f deffiltopts options → Merged conf destname f i options) ∧
      ((∀ d ∈ deffiltopts, PlainText d ∧ ∀ u ∈ options, PlainText u) →
        Merged conf destname f i options → MergesWell f deffiltopts options) := by
  have hexec : execTopsFilter conf destname f i options = .ok (mergeSources f i deffiltopts options) := by
    rw [execTopsFilter, hdefs]
    rfl
  refine ⟨fun h => ?_, fun hplain h => ?_⟩
  · cases deffiltopts with
    | none =>
      refine ⟨none, [], us, hdefs, rfl, hoptions, ?_⟩
      rw [hexec, mergeSources_none, wantedOptions, List.nil_append, h us hoptions, List.append_nil]
    | some d =>
      obtain ⟨ds, us', hd, hu, hds, hus, hsel⟩ := h
      have hmerge := mergeSources_of_mergesWell i hd hu hds hus hsel
      exact ⟨some d, ds, us', hdefs, hd, hu, hexec.trans (congrArg _ hmerge)⟩
  · obtain ⟨deffiltopts', ds, us', hdefs', hd, hu, hout⟩ := h
    obtain rfl := Except.ok.inj (hdefs.symm.trans hdefs')
    have hout := Except.ok.inj (hexec.symm.trans hout)
    cases deffiltopts with
    | none =>
      intro us'' hu'
      obtain rfl := Except.ok.inj (hu.symm.trans hu')
      obtain rfl := Except.ok.inj hd
      rw [mergeSources_none, wantedOptions, List.nil_append] at hout
      have hjoined := @joined_of_spaced _ [] _ nofun (fun x hx => filterMap_given_ne_nil hx)
        ((congrArg spaced (List.append_nil _)).trans hout)
      cases hnil : us'.filterMap (FilterOption.given f.name) with
      | nil => rfl
      | cons x xs => rw [hnil] at hjoined; cases hjoined
    | some d => exact mergesWell_of_plain hd hu (hplain d rfl) hout

/-! ## A queue without default options -/

/-- A printer whose configuration file has no "DefFiltOpts:" line, and one that has. -/
def twoPrinters : ConfFiles where
  aliases := fun _ => none
  groups := fun _ => none
  printers := fun name =>
    if name = ascii "plain" then some (ascii "Interface: simple\n")
    else some (ascii "Interface: simple\nDefFiltOpts: level=2 pr-length=66\n")

theorem plainText_of_all {s : List Byte} (h : (s.all fun c => c ≠ 34 && (!isspace c || isBlank c)) = true) :
    PlainText s := fun c hc => by
  have := List.all_eq_true.1 h c hc
  cases hspace : isspace c <;> simp_all

/-- The default options and those of the user, of which none is for this filter alone. -/
theorem merged_level :
    Merged twoPrinters (ascii "mktg") (.typed (ascii "lp")) ⟨[ascii "*PageSize Letter"], none, none⟩
      (some (ascii "Title=A-B tex-x=y")) := by
  have hd : readOptions (ascii "level=2 pr-length=66") =
      .ok [⟨ascii "level", ascii "2", ascii " pr-length=66"⟩, ⟨ascii "pr-length", ascii "66", []⟩] := rfl
  have hu : readSource (some (ascii "Title=A-B tex-x=y")) =
      .ok [⟨ascii "Title", ascii "A-B", ascii " tex-x=y"⟩, ⟨ascii "tex-x", ascii "y", []⟩] := rfl
  have hdefs : extractDeffiltopts twoPrinters (ascii "mktg") = .ok (some (ascii "level=2 pr-length=66")) := rfl
  refine (merged_filterOptions hdefs hu).1 ⟨_, _, hd, hu, ⟨.inl (by decide), fun o ho => ?_⟩, ?_, by decide⟩
  · exact (plainOptions hd (plainText_of_all (by decide)) _ o ho).2
  · rintro u ⟨⟩
    exact ⟨.inl (by decide), fun o ho => (plainOptions hu (plainText_of_all (by decide)) _ o ho).2⟩

/-- Without a "DefFiltOpts:" line, the options of the user are lost. -/
theorem not_merged_withoutDefaults :
    ¬∀ (conf : ConfFiles) (destname : List Byte) (f : FilterCall) (i : Implying)
      (options deffiltopts : Option (List Byte)) (us : List FilterOption),
      extractDeffiltopts conf destname = .ok deffiltopts → readSource options = .ok us →
        Merged conf destname f i options := by
  intro h
  have hdefs : extractDeffiltopts twoPrinters (ascii "plain") = .ok none := rfl
  have huser : readSource (some (ascii "width=80")) = .ok [⟨ascii "width", ascii "80", []⟩] := rfl
  obtain ⟨defs, ds, us, hdefs', hd, hu, hout⟩ := h twoPrinters (ascii "plain") (.typed (ascii "lp"))
    ⟨[], none, none⟩ (some (ascii "width=80")) none _ hdefs huser
  obtain rfl := Except.ok.inj (hdefs.symm.trans hdefs')
  obtain rfl := Except.ok.inj (huser.symm.trans hu)
  obtain rfl := Except.ok.inj hd
  exact absurd (Except.ok.inj hout) (by decide)

end Ppr
