import Ppr.Spool.Pages

/-!
# What read_pages() has written

`Spool.Ok` ties the "-pages" file to the log: the comments before the first page, and then one
record for each page, closed by a blank line.  `AllFit` says of the lines of the document that
those which go to the "-pages" file fit the reader's buffer.
-/

namespace Ppr

variable {σ : Type} {T : PageThings σ}

/-- The line fits in `pline[]` with its linefeed, and has no linefeed in it. -/
def Fits (c : List Byte) : Prop := c.length < plineSize - 1 ∧ newline ∉ c

instance (c : List Byte) : Decidable (Fits c) := inferInstanceAs (Decidable (_ ∧ _))

/-- A line with its linefeed. -/
def lineBytes (c : List Byte) : List Byte := c ++ [newline]

/-- "Offset:" with a number. -/
def offsetLine (n : ℕ) : List Byte := ascii "Offset: " ++ decimal n

/-- The "%%Page:" and "Offset:" lines of a record. -/
def PageRec.head (r : PageRec) : List Byte := lineBytes r.line ++ lineBytes (offsetLine r.offset)

/-- A record with the blank line after it. -/
def PageRec.bytes (r : PageRec) : List Byte :=
  r.head ++ (r.comments.flatMap lineBytes ++ [newline])

def PageRec.Fits (r : PageRec) : Prop := Ppr.Fits r.line ∧ ∀ c ∈ r.comments, Ppr.Fits c

/-- A line of the file that is not blank and has no NUL. -/
def IsComment (c : List Byte) : Prop := lmatch c "%%" = true ∧ 0 ∉ c

/-- What is in the files, over a "-pages" file that began with `base`; `gap` is still missing at the
end of it. -/
structure Spool.Ok (base gap : List Byte) (s : Spool σ) : Prop where
  count : s.pagenumber = s.log.length
  pages : s.pages ++ gap = base ++ (s.stray.flatMap lineBytes ++ s.log.flatMap PageRec.bytes)
  offset : ∀ r ∈ s.log, lineBytes r.line <+: s.text.drop r.offset ∧ r.offset ≤ s.text.length
  line : ∀ r ∈ s.log, lmatch r.line "%%Page:" = true ∧ 0 ∉ r.line
  comments : ∀ r ∈ s.log, ∀ c ∈ r.comments, IsComment c
  stray : ∀ c ∈ s.stray, lmatch c "%%Page:" = false ∧ 0 ∉ c

/-- The last record has not been closed, if there is one. -/
def Spool.gap (s : Spool σ) : List Byte := if s.log = [] then [] else [newline]

/-! ## Steps -/

theorem zero_notMem_cstr (l : List Byte) : 0 ∉ cstr l := by
  intro h
  simpa using List.mem_takeWhile_imp h

theorem isPrefixOf_append_left {p l m : List Byte} (h : p.isPrefixOf l = true) :
    p.isPrefixOf (l ++ m) = true := by
  rw [List.isPrefixOf_iff_prefix] at *
  exact h.trans (List.prefix_append l m)

/-- What is appended to "-text" leaves the pages where they are. -/
theorem offset_append {s : Spool σ} {r : PageRec}
    (h : lineBytes r.line <+: s.text.drop r.offset ∧ r.offset ≤ s.text.length) (w : List Byte) :
    lineBytes r.line <+: (s.text ++ w).drop r.offset ∧ r.offset ≤ (s.text ++ w).length := by
  rw [List.drop_append_of_le_length h.2, List.length_append]
  exact ⟨h.1.trans (List.prefix_append _ _), by omega⟩

theorem Spool.Ok.append_text {base gap : List Byte} {s : Spool σ} (h : s.Ok base gap)
    (w : List Byte) (header trailer : Bool) (things : σ) :
    Spool.Ok base gap { s with text := s.text ++ w, pageheader := header, pagetrailer := trailer,
                               things := things } where
  count := h.count
  pages := h.pages
  offset r hr := offset_append (h.offset r hr) w
  line := h.line
  comments := h.comments
  stray := h.stray

theorem Spool.Ok.noting {base : List Byte} {s : Spool σ} (h : s.Ok base s.gap) (things : σ) :
    (s.noting things).Ok base (s.noting things).gap :=
  ⟨h.count, h.pages, h.offset, h.line, h.comments, h.stray⟩

theorem modify_last (l : List PageRec) (r : PageRec) (f : PageRec → PageRec) :
    (l ++ [r]).modify ((l ++ [r]).length - 1) f = l ++ [f r] := by
  rw [List.length_append, List.length_singleton, Nat.add_sub_cancel]
  induction l with
  | nil => rfl
  | cons b l ih => exact congrArg (b :: ·) ih

theorem PageRec.bytes_comment (r : PageRec) (c : List Byte) :
    PageRec.bytes { r with comments := r.comments ++ [c] } =
      r.head ++ (r.comments.flatMap lineBytes ++ (lineBytes c ++ [newline])) := by
  simp [PageRec.bytes, PageRec.head, List.append_assoc]

/-- A comment goes to the page that is open, or before the first one. -/
theorem Spool.Ok.comment {base : List Byte} {s : Spool σ} (h : s.Ok base s.gap) {c : List Byte}
    (hc : IsComment c) (hstray : s.log = [] → lmatch c "%%Page:" = false) :
    (s.comment c).Ok base (s.comment c).gap := by
  rcases List.eq_nil_or_concat s.log with hlog | ⟨l, r, hlog⟩
  · have hpages := h.pages
    simp only [Spool.gap, hlog, if_true, List.append_nil, List.flatMap_nil] at hpages
    refine ⟨?_, ?_, ?_, ?_, ?_, ?_⟩
    · simp [Spool.comment, h.count, hlog]
    · simp [Spool.gap, Spool.comment, hlog, hpages, lineBytes]
    · simp [Spool.comment, hlog]
    · simp [Spool.comment, hlog]
    · simp [Spool.comment, hlog]
    · intro c' hc'
      simp only [Spool.comment, hlog, if_true, List.mem_append, List.mem_singleton] at hc'
      rcases hc' with hc' | rfl
      · exact h.stray c' hc'
      · exact ⟨hstray hlog, hc.2⟩
  · rw [List.concat_eq_append] at hlog
    have hne : s.log ≠ [] := by simp [hlog]
    have hlog' : (s.comment c).log = l ++ [{ r with comments := r.comments ++ [c] }] := by
      have hlast := modify_last l r fun r => { r with comments := r.comments ++ [c] }
      rwa [← hlog] at hlast
    have hr : r ∈ s.log := by simp [hlog]
    have hpages := h.pages
    rw [Spool.gap, if_neg hne, hlog, List.flatMap_append, List.flatMap_singleton, PageRec.bytes,
      ← List.append_assoc, ← List.append_assoc, ← List.append_assoc, ← List.append_assoc] at hpages
    have hpages := List.append_cancel_right hpages
    refine ⟨?_, ?_, ?_, ?_, ?_, ?_⟩
    · rw [hlog']
      simp [Spool.comment, h.count, hlog]
    · rw [Spool.gap, hlog', if_neg (by simp), List.flatMap_append, List.flatMap_singleton,
        PageRec.bytes_comment]
      simp only [Spool.comment, hpages, if_neg hne, lineBytes, List.append_assoc]
    · intro r' hr'
      rw [hlog', List.mem_append, List.mem_singleton] at hr'
      rcases hr' with hr' | rfl
      · exact h.offset r' (by simp [hlog, hr'])
      · exact h.offset r hr
    · intro r' hr'
      rw [hlog', List.mem_append, List.mem_singleton] at hr'
      rcases hr' with hr' | rfl
      · exact h.line r' (by simp [hlog, hr'])
      · exact h.line r hr
    · intro r' hr' c' hc'
      rw [hlog', List.mem_append, List.mem_singleton] at hr'
      rcases hr' with hr' | rfl
      · exact h.comments r' (by simp [hlog, hr']) c' hc'
      · rcases List.mem_append.1 hc' with hc' | hc'
        · exact h.comments r hr c' hc'
        · rw [List.mem_singleton.1 hc']
          exact hc
    · simp only [Spool.comment, if_neg hne]
      exact h.stray

theorem log_comment_ne_nil {s : Spool σ} (h : s.log ≠ []) (c : List Byte) :
    (s.comment c).log ≠ [] := by
  simpa [Spool.comment] using h

theorem isComment_dump (d : List Byte) : IsComment (ascii "%%" ++ cstr d) := by
  refine ⟨isPrefixOf_append_left rfl, ?_⟩
  rw [List.mem_append]
  rintro (h | h)
  · exact absurd h (by decide)
  · exact zero_notMem_cstr d h

/-- The comments that are dumped at the end of a page go to that page. -/
theorem Spool.Ok.dumped {base : List Byte} {s : Spool σ} (h : s.Ok base s.gap) (hne : s.log ≠ [])
    (ds : List (List Byte)) :
    (ds.foldl (fun s c => s.comment (ascii "%%" ++ cstr c)) s).Ok base [newline] ∧
    (ds.foldl (fun s c => s.comment (ascii "%%" ++ cstr c)) s).text = s.text ∧
    (ds.foldl (fun s c => s.comment (ascii "%%" ++ cstr c)) s).log ≠ [] := by
  induction ds generalizing s with
  | nil => exact ⟨by simpa [Spool.gap, hne] using h, rfl, hne⟩
  | cons d ds ih =>
    exact ih (h.comment (isComment_dump d) fun h0 => absurd h0 hne) (log_comment_ne_nil hne _)

/-- The end of a page closes its record. -/
theorem Spool.Ok.endOfPage {base : List Byte} {s : Spool σ} (h : s.Ok base s.gap)
    (hpage : 0 < s.pagenumber) :
    (endOfPageProcessing T s).Ok base [] ∧ (endOfPageProcessing T s).text = s.text ∧
      (endOfPageProcessing T s).log ≠ [] := by
  have hne : s.log ≠ [] := by
    have hcount := h.count
    rintro h0
    rw [h0, List.length_nil] at hcount
    omega
  obtain ⟨hok, htext, hlog⟩ := (h.noting (T.dump s.things).2).dumped hne (T.dump s.things).1
  exact ⟨⟨hok.count, by rw [List.append_nil]; exact hok.pages, hok.offset, hok.line, hok.comments,
    hok.stray⟩, htext, hlog⟩

/-- If there is no page yet, there is none to close. -/
theorem Spool.Ok.closed {base : List Byte} {s : Spool σ} (h : s.Ok base s.gap) :
    (if 0 < s.pagenumber then endOfPageProcessing T s else s).Ok base [] := by
  split_ifs with hpage
  · exact (h.endOfPage hpage).1
  · have hlog : s.log = [] := List.length_eq_zero_iff.1 (by have := h.count; omega)
    have hgap : s.gap = [] := if_pos hlog
    exact hgap ▸ h

/-- A new page opens its record. -/
theorem Spool.Ok.startPage {base : List Byte} {s : Spool σ} (h : s.Ok base s.gap) {c : List Byte}
    (hc : lmatch c "%%Page:" = true) (h0 : 0 ∉ c) :
    (startPage T s c).Ok base (startPage T s c).gap := by
  have hclosed := h.closed (T := T)
  unfold Ppr.startPage
  set s₁ := if 0 < s.pagenumber then endOfPageProcessing T s else s
  have hpages := hclosed.pages
  rw [List.append_nil] at hpages
  refine ⟨?_, ?_, ?_, ?_, ?_, ?_⟩
  · simp [hclosed.count]
  · simp [Spool.gap, hpages, PageRec.bytes, PageRec.head, lineBytes, offsetLine]
  · intro r hr
    rcases List.mem_append.1 hr with hr | hr
    · exact offset_append (hclosed.offset r hr) _
    · rw [List.mem_singleton.1 hr]
      simp [lineBytes]
  · intro r hr
    rcases List.mem_append.1 hr with hr | hr
    · exact hclosed.line r hr
    · rw [List.mem_singleton.1 hr]
      exact ⟨hc, h0⟩
  · intro r hr
    rcases List.mem_append.1 hr with hr | hr
    · exact hclosed.comments r hr
    · rw [List.mem_singleton.1 hr]
      exact fun c hc => absurd hc List.not_mem_nil
  · exact hclosed.stray

/-! ## The loop -/

theorem fate_page {atEdge : Bool} {l : DscLine} {things : σ}
    (h : (fate T atEdge l things).1 = .page) : lmatch (cstr l.line) "%%Page:" = true := by
  by_contra hp
  simp only [fate, if_neg hp] at h
  split_ifs at h

theorem fate_comment {atEdge : Bool} {l : DscLine} {things : σ}
    (h : (fate T atEdge l things).1 = .comment) :
    IsComment (cstr l.line) ∧ lmatch (cstr l.line) "%%Page:" = false := by
  by_cases hc : lmatch (cstr l.line) "%%" ∧ l.nested = false ∧ l.line.length ≤ maxTokenized
  · by_cases hp : lmatch (cstr l.line) "%%Page:" = true
    · simp only [fate, if_pos hc, if_pos hp] at h
      cases h
    · exact ⟨⟨hc.1, zero_notMem_cstr _⟩, Bool.not_eq_true _ ▸ hp⟩
  · simp only [fate, if_neg hc] at h
    cases h

/-- Every line keeps the files in order. -/
theorem Spool.Ok.line_step {base : List Byte} {s : Spool σ} (h : s.Ok base s.gap) (l : DscLine)
    {f : Fate × σ} (hf : f = fate T (s.pageheader || s.pagetrailer) l s.things) :
    (readPagesLine T (s.noting f.2) l f.1).Ok base
      (readPagesLine T (s.noting f.2) l f.1).gap := by
  have hs := h.noting f.2
  cases hf1 : f.1 with
  | page => exact hs.startPage (fate_page (hf ▸ hf1)) (zero_notMem_cstr _)
  | setup => exact hs.append_text _ false _ _
  | stop => exact hs
  | trailer => exact hs.append_text _ _ true _
  | skip => exact hs
  | comment =>
    obtain ⟨hc, hpage⟩ := fate_comment (hf ▸ hf1)
    exact hs.comment hc fun _ => hpage
  | text => exact hs.append_text _ _ _ _
  | body => exact hs.append_text _ false _ _

/-- When `read_pages()` is done, every page has its record. -/
theorem readPages_ok {base : List Byte} (lines : List DscLine) {s : Spool σ} (h : s.Ok base s.gap) :
    (readPages T lines s).Ok base [] := by
  induction lines generalizing s with
  | nil => exact h.closed
  | cons l lines ih =>
    have hs := h.noting (fate T (s.pageheader || s.pagetrailer) l s.things).2
    unfold readPages
    dsimp only
    split_ifs with hstop hpage
    · exact (hs.endOfPage hpage).1
    · have hclosed := hs.closed (T := T)
      rwa [if_neg hpage] at hclosed
    · exact ih (h.line_step l rfl)

theorem start_ok (pages text : List Byte) (things : σ) :
    (Spool.start pages text things).Ok pages (Spool.start pages text things).gap where
  count := rfl
  pages := rfl
  offset := by simp [Spool.start]
  line := by simp [Spool.start]
  comments := by simp [Spool.start]
  stray := by simp [Spool.start]

/-! ## Lines that fit -/

variable (T)

/-- The lines dumped at the end of a page fit. -/
def DumpFits (things : σ) : Prop := ∀ d ∈ (T.dump things).1, Fits (ascii "%%" ++ cstr d)

/-- Of the lines still to come, those that go to the "-pages" file fit and follow a "%%Page:" line.
The flags are those of `read_pages()`; `started` says that there has been a page. -/
def AllFit : List DscLine → (started header trailer : Bool) → σ → Prop
  | [], started, _, _, things => started = true → DumpFits T things
  | l :: lines, started, header, trailer, things =>
    let f := fate T (header || trailer) l things
    match f.1 with
    | .page =>
      (started = true → DumpFits T f.2) ∧ Fits (cstr l.line) ∧
        AllFit lines true true false (T.prepare (if started then (T.dump f.2).2 else f.2))
    | .setup => AllFit lines started false trailer f.2
    | .stop => started = true → DumpFits T f.2
    | .trailer => AllFit lines started header true f.2
    | .skip | .text => AllFit lines started header trailer f.2
    | .comment =>
      started = true ∧ Fits (cstr l.line) ∧ AllFit lines started header trailer f.2
    | .body => AllFit lines started false trailer f.2

variable {T}

/-- What is logged fits, and no comment came before the first page. -/
def Spool.Fit (s : Spool σ) : Prop := s.stray = [] ∧ ∀ r ∈ s.log, r.Fits

instance (r : PageRec) : Decidable r.Fits := inferInstanceAs (Decidable (_ ∧ _))

instance (s : Spool σ) : Decidable s.Fit := inferInstanceAs (Decidable (_ ∧ _))

/-- There has been a page. -/
def Spool.started (s : Spool σ) : Bool := decide (0 < s.pagenumber)

theorem Spool.Ok.started_iff {base gap : List Byte} {s : Spool σ} (h : s.Ok base gap) :
    s.started = true ↔ s.log ≠ [] := by
  rw [Spool.started, decide_eq_true_iff, h.count, List.length_pos_iff]

/-- A comment keeps everything fitting exactly if it fits and there is a page. -/
theorem fit_comment (s : Spool σ) (c : List Byte) :
    (s.comment c).Fit ↔ s.Fit ∧ s.log ≠ [] ∧ Fits c := by
  rcases List.eq_nil_or_concat s.log with hlog | ⟨l, r, hlog⟩
  · simp [Spool.Fit, Spool.comment, hlog]
  · rw [List.concat_eq_append] at hlog
    have hne : s.log ≠ [] := by simp [hlog]
    have hlast := modify_last l r fun r => { r with comments := r.comments ++ [c] }
    rw [← hlog] at hlast
    have hlog' : (s.comment c).log = l ++ [{ r with comments := r.comments ++ [c] }] := hlast
    have hstray : (s.comment c).stray = s.stray := if_neg hne
    rw [Spool.Fit, Spool.Fit, hlog', hstray, hlog]
    simp only [List.forall_mem_append, List.forall_mem_singleton, PageRec.Fits]
    constructor
    · rintro ⟨h0, hl, hr, hcs, hc⟩
      exact ⟨⟨h0, hl, hr, hcs⟩, by simp, hc⟩
    · rintro ⟨⟨h0, hl, hr, hcs⟩, -, hc⟩
      exact ⟨h0, hl, hr, hcs, hc⟩

theorem fit_dumped (ds : List (List Byte)) (s : Spool σ) (hne : s.log ≠ []) :
    (ds.foldl (fun s c => s.comment (ascii "%%" ++ cstr c)) s).Fit ↔
      s.Fit ∧ ∀ d ∈ ds, Fits (ascii "%%" ++ cstr d) := by
  induction ds generalizing s with
  | nil => simp
  | cons d ds ih =>
    rw [List.foldl_cons, ih _ (log_comment_ne_nil hne _), fit_comment, List.forall_mem_cons]
    tauto

/-- The end of a page. -/
theorem fit_endOfPage {base : List Byte} {s : Spool σ} (h : s.Ok base s.gap)
    (hpage : s.started = true) :
    (endOfPageProcessing T s).Fit ↔ s.Fit ∧ DumpFits T s.things :=
  fit_dumped (T.dump s.things).1 (s.noting (T.dump s.things).2) (h.started_iff.1 hpage)

theorem fit_closed {base : List Byte} {s : Spool σ} (h : s.Ok base s.gap) :
    (if 0 < s.pagenumber then endOfPageProcessing T s else s).Fit ↔
      s.Fit ∧ (s.started = true → DumpFits T s.things) := by
  by_cases hpage : 0 < s.pagenumber
  · have hs : s.started = true := decide_eq_true hpage
    rw [if_pos hpage, fit_endOfPage h hs]
    tauto
  · have hs : ¬ s.started = true := by simpa [Spool.started] using hpage
    rw [if_neg hpage]
    tauto

theorem things_dumped (ds : List (List Byte)) (s : Spool σ) :
    (ds.foldl (fun s c => s.comment (ascii "%%" ++ cstr c)) s).things = s.things := by
  induction ds generalizing s with
  | nil => rfl
  | cons d ds ih => exact ih _

theorem startPage_things (s : Spool σ) (c : List Byte) : (startPage T s c).things =
    T.prepare (if s.started then (T.dump s.things).2 else s.things) := by
  by_cases hpage : 0 < s.pagenumber
  · have hs : s.started = true := decide_eq_true hpage
    simp only [startPage, if_pos hpage, if_pos hs]
    exact congrArg T.prepare (things_dumped _ _)
  · have hs : ¬ s.started = true := by simpa [Spool.started] using hpage
    simp only [startPage, if_neg hpage, if_neg hs]

theorem fit_startPage {base : List Byte} {s : Spool σ} (h : s.Ok base s.gap) (c : List Byte) :
    (startPage T s c).Fit ↔
      s.Fit ∧ (s.started = true → DumpFits T s.things) ∧ Fits c := by
  have hclosed := fit_closed (T := T) h
  unfold startPage
  set s₁ := if 0 < s.pagenumber then endOfPageProcessing T s else s
  simp only [Spool.Fit, List.forall_mem_append, List.forall_mem_singleton, PageRec.Fits,
    List.not_mem_nil, false_implies, implies_true, and_true] at hclosed ⊢
  tauto

/-- What goes to the "-pages" file fits exactly if the document's lines do. -/
theorem fit_readPages {base : List Byte} (lines : List DscLine) {s : Spool σ}
    (h : s.Ok base s.gap) : (readPages T lines s).Fit ↔
      s.Fit ∧ AllFit T lines s.started s.pageheader s.pagetrailer s.things := by
  induction lines generalizing s with
  | nil => exact fit_closed h
  | cons l lines ih =>
    have hs := h.noting (fate T (s.pageheader || s.pagetrailer) l s.things).2
    have hstep := ih (h.line_step (T := T) l rfl)
    rw [readPages, AllFit]
    cases hf : (fate T (s.pageheader || s.pagetrailer) l s.things).1 with
    | stop => exact fit_closed hs
    | page =>
      rw [hf] at hstep
      rw [if_neg (by simp)]
      refine hstep.trans ?_
      simp only [readPagesLine]
      have hstarted : (startPage T (s.noting (fate T (s.pageheader || s.pagetrailer) l
          s.things).2) (cstr l.line)).started = true := by
        simp [startPage, Spool.started]
      rw [fit_startPage hs, startPage_things, hstarted, and_assoc, and_assoc]
      exact Iff.rfl
    | comment =>
      rw [hf] at hstep
      rw [if_neg (by simp)]
      refine hstep.trans ?_
      simp only [readPagesLine]
      rw [fit_comment, and_assoc, and_assoc, ← hs.started_iff]
      exact Iff.rfl
    | setup | trailer | skip | text | body =>
      rw [hf] at hstep
      rw [if_neg (by simp)]
      exact hstep

end Ppr
