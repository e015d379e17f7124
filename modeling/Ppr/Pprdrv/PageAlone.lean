import Ppr.Pprdrv.Dgetline

/-!
# Pages that do not depend on each other

`copy_a_page()` is called for one page after the other, in any order, and `level` outlasts the calls.
A page whose comments are all closed on it, and whose data is all there, is copied the same way
whatever was copied before and whatever comes after it in the file.
-/

namespace Ppr.Pprdrv

/-- A page of the document: the lines of its record in the "-pages" file, and its section of the
"-text" file. -/
structure Page where
  comments : List (List Byte)
  text : List Byte

/-- A document as it is stored. -/
structure Document where
  /-- The "-text" file before the pages. -/
  head : List Byte
  pages : List Page
  /-- The "-text" file after the pages. -/
  tail : List Byte
  /-- The nesting level after prolog and document setup. -/
  level : ℕ

/-- The "-text" file. -/
def Document.text (d : Document) : List Byte := d.head ++ d.pages.flatMap Page.text ++ d.tail

/-- `text_offset` of a page. -/
def Document.offset (d : Document) (i : ℕ) : ℕ :=
  d.head.length + ((d.pages.take i).flatMap Page.text).length

/-- What comes after a page in the file. -/
def Document.after (d : Document) (i : ℕ) : List Byte :=
  (d.pages.drop (i + 1)).flatMap Page.text ++ d.tail

/-- What a call of `copy_a_page()` sends, the line it stops at, and what of the file it leaves. -/
structure Emission where
  sent : List Byte
  stop : Option Line
  file : List Byte

/-- Copy a page with a new number; the variables that outlast the call are `level` and `line[]`. -/
def Document.copyPage (env : Env) (d : Document) (i newnumber level : ℕ) (line : Line) :
    Except Fatal (Emission × ℕ × Line) :=
  match d.pages[i]? with
  | none => .error .assertion
  | some page => do
    let t : Text := { file := d.text.drop (d.offset i), level := level, out := [], line := line }
    let (stop, t) ← copyAPage env page.comments newnumber t
    return ({ sent := t.out, stop := stop, file := t.file }, t.level, t.line)

/-- Copy pages in some order, each with its new number. -/
def Document.copyPages (env : Env) (d : Document) :
    List (ℕ × ℕ) → ℕ → Line → Except Fatal (List Emission)
  | [], _, _ => .ok []
  | (i, newnumber) :: order, level, line => do
    let (e, level, line) ← d.copyPage env i newnumber level line
    let es ← d.copyPages env order level line
    return e :: es

/-- What is sent for a page if there is nothing else. -/
def Page.alone (env : Env) (page : Page) (newnumber : ℕ) : Except Fatal (List Byte) := do
  let t : Text := { file := page.text, level := 0, out := [], line := ⟨[], false⟩ }
  let (_, t) ← copyAPage env page.comments newnumber t
  return t.out

/-- A line with its linefeed, or the first part of a long one. -/
def IsLine (u : List Byte) (l : Line) : Prop :=
  newline ∉ l.bytes ∧
    (u = l.bytes ++ [newline] ∧ l.bytes.length < maxLine ∧ l.overflow = false ∨
      u = l.bytes ∧ l.bytes.length = maxLine ∧ l.overflow = true)

/-- Copying stops at the start of what comes after the page. -/
def StopsAt (after : List Byte) (stop : Option Line) (file : List Byte) : Prop :=
  after = [] ∧ stop = none ∧ file = [] ∨
    ∃ u l, IsLine u l ∧ l.endsPage = true ∧ after = u ++ file ∧ stop = some l

/-- Whatever pages are copied, in whatever order: what is sent for each depends on nothing but the
page, and copying it stops where the page ends. -/
def Document.Independent (env : Env) (d : Document) : Prop :=
  ∀ order : List (ℕ × ℕ), (∀ p ∈ order, p.1 < d.pages.length) → ∀ line,
    ∃ es, d.copyPages env order d.level line = .ok es ∧
      List.Forall₂ (fun p e => ∃ page, d.pages[p.1]? = some page ∧
        page.alone env p.2 = .ok e.sent ∧ StopsAt (d.after p.1) e.stop e.file) order es

/-! ## Well nested text -/

/-- The data after a "%%BeginData:" line is all there: what follows it is not read. -/
def DataWhole (l : Line) (data sent : List Byte) (l' : Line) : Prop :=
  ∀ rest level out, Text.copyData { file := data ++ rest, level := level, out := out, line := l } =
    { file := rest, level := level, out := out ++ l.put ++ sent, line := l' }

/-- A kind of text. -/
inductive Kind where
  /-- What a call of `dgetline()` that returns this line reads. -/
  | get (l : Line)
  /-- A comment that is not returned, with its block. -/
  | block
  /-- The lines of a block, with the end comment. -/
  | body (b : Block)

/-- Text of some kind, with the level before it and after it, what is sent for it, and the last line
that was read. -/
inductive Nested (env : Env) : Kind → ℕ → List Byte → ℕ → List Byte → Line → Prop
  | blank {u : List Byte} {l : Line} {k : ℕ} : IsLine u l → l.str = [] →
      Nested env (.get l) k u k [] l
  | line {u : List Byte} {l : Line} {k : ℕ} {f : ℕ → ℕ} : IsLine u l → l.str ≠ [] →
      dgetlineParse env l = .line f → Nested env (.get l) k u (f k) [] l
  | skip {k k₁ k₂ : ℕ} {v w o₁ o₂ : List Byte} {l l₁ l₂ : Line} : Nested env .block k v k₁ o₁ l₁ →
      Nested env (.get l) k₁ w k₂ o₂ l₂ → Nested env (.get l) k (v ++ w) k₂ (o₁ ++ o₂) l₂
  | send {u o : List Byte} {l : Line} {k : ℕ} : IsLine u l → l.str ≠ [] →
      dgetlineParse env l = .send o → Nested env .block k u k o l
  | data {u data sent : List Byte} {l l' : Line} {k : ℕ} : IsLine u l → l.str ≠ [] →
      dgetlineParse env l = .data → DataWhole l data sent l' →
      Nested env .block k (u ++ data) k (l.put ++ sent) l'
  | block {u w o : List Byte} {l l' : Line} {k k' : ℕ} {b : Block} : IsLine u l → l.str ≠ [] →
      dgetlineParse env l = .block b → Nested env (.body b) k w k' o l' →
      Nested env .block k (u ++ w) k' (b.head ++ o) l'
  | stop {k k' : ℕ} {w o : List Byte} {l l' : Line} {b : Block} : Nested env (.get l) k w k' o l' →
      l.str = b.stop → Nested env (.body b) k w k' (o ++ b.done l) l'
  | more {k k₁ k₂ : ℕ} {v w o₁ o₂ : List Byte} {l l₁ l₂ : Line} {b : Block} :
      Nested env (.get l) k v k₁ o₁ l₁ → l.str ≠ b.stop → Nested env (.body b) k₁ w k₂ o₂ l₂ →
      Nested env (.body b) k (v ++ w) k₂ (o₁ ++ b.each l ++ o₂) l₂

/-- Comments that are not returned, with their blocks. -/
inductive NestedBlocks (env : Env) : ℕ → List Byte → ℕ → List Byte → Line → Prop
  | one {k k' : ℕ} {w o : List Byte} {l : Line} : Nested env .block k w k' o l →
      NestedBlocks env k w k' o l
  | more {k k₁ k₂ : ℕ} {v w o₁ o₂ : List Byte} {l₁ l₂ : Line} : Nested env .block k v k₁ o₁ l₁ →
      NestedBlocks env k₁ w k₂ o₂ l₂ → NestedBlocks env k (v ++ w) k₂ (o₁ ++ o₂) l₂

/-- The text of a page after its "%%Page:" line, from a level to the end of the page: no line of it
ends a page, and at its end the level is 0. -/
inductive NestedPage (env : Env) : ℕ → List Byte → Prop
  | done : NestedPage env 0 []
  | blocks {k : ℕ} {w o : List Byte} {l : Line} : NestedBlocks env k w 0 o l →
      lmatch l.str "%%BeginPageSetu" = false → NestedPage env k w
  | line {k k' : ℕ} {v w o : List Byte} {l l' : Line} : Nested env (.get l) k v k' o l' →
      ¬ (k' = 0 ∧ l.endsPage = true) → NestedPage env k' w → NestedPage env k (v ++ w)

/-- A section of the "-text" file in which everything is closed. -/
def PageWhole (env : Env) (text : List Byte) : Prop :=
  ∃ u l w, IsLine u l ∧ lmatch l.str "%%Page:" = true ∧ text = u ++ w ∧ NestedPage env 0 w

/-- Everything is closed on its page, and before the first one. -/
structure Document.Whole (env : Env) (d : Document) : Prop where
  level : d.level = 0
  pages : ∀ page ∈ d.pages, PageWhole env page.text
  tail : ∃ stop file, StopsAt d.tail stop file

/-! ## Reading well nested text -/

theorem readLine_full {u : List Byte} (hu : newline ∉ u) (rest : List Byte) :
    readLine u.length (u ++ rest) = (u, true, rest) := by
  induction u with
  | nil => rfl
  | cons c u ih =>
    have hc : c ≠ newline := fun e => hu (e ▸ List.mem_cons_self ..)
    rw [List.length_cons, List.cons_append, readLine, if_neg hc,
      ih fun hm => hu (List.mem_cons_of_mem c hm)]

theorem IsLine.read {u : List Byte} {l : Line} (h : IsLine u l) (rest : List Byte) :
    dgetlineRead (u ++ rest) = some (l.bytes, l.overflow, rest) := by
  obtain ⟨hnew, ⟨rfl, hlen, hover⟩ | ⟨rfl, hlen, hover⟩⟩ := h
  · rw [dgetlineRead, if_neg (by simp), List.append_assoc, List.singleton_append,
      readLine_append hnew hlen, hover]
  · have hne : l.bytes ++ rest ≠ [] := by
      intro h
      have := congrArg List.length h
      rw [List.length_append, hlen] at this
      simp [maxLine] at this
    rw [dgetlineRead, if_neg hne, ← hlen, readLine_full hnew, hover]

theorem IsLine.length_pos {u : List Byte} {l : Line} (h : IsLine u l) : 0 < u.length := by
  obtain ⟨-, ⟨rfl, -, -⟩ | ⟨rfl, hlen, -⟩⟩ := h
  · simp
  · rw [hlen]
    decide

/-- Reading text of this kind, whatever follows it. -/
def Reads (env : Env) (k : ℕ) (w : List Byte) (k' : ℕ) (o : List Byte) (l' : Line) : Kind → Prop
  | .get l => ∀ n rest out line, w.length ≤ n →
      dgetline env n { file := w ++ rest, level := k, out := out, line := line } =
        .ok (some l, { file := rest, level := k', out := out ++ o, line := l' })
  | .block => ∀ n rest out line, w.length ≤ n →
      dgetline env (n + 1) { file := w ++ rest, level := k, out := out, line := line } =
        dgetline env n { file := rest, level := k', out := out ++ o, line := l' }
  | .body b => ∀ n m rest out line, w.length ≤ n → w.length ≤ m →
      blockLoop (dgetline env n) b m { file := w ++ rest, level := k, out := out, line := line } =
        .ok { file := rest, level := k', out := out ++ o, line := l' }

section Dgetline

variable {env : Env} {u : List Byte} {l : Line} (hu : IsLine u l)

include hu

theorem dgetline_blank (hs : l.str = []) (n k : ℕ) (rest out : List Byte) (line : Line) :
    dgetline env (n + 1) { file := u ++ rest, level := k, out := out, line := line } =
      .ok (some l, { file := rest, level := k, out := out, line := l }) := by
  simp only [dgetline, hu.read]
  exact if_pos hs

/-- A line that is not blank comes down to what is to be done with it. -/
theorem dgetline_act (hs : l.str ≠ []) (n k : ℕ) (rest out : List Byte) (line : Line) :
    dgetline env (n + 1) { file := u ++ rest, level := k, out := out, line := line } =
      match dgetlineParse env l with
      | .line level => .ok (some l, { file := rest, level := level k, out := out, line := l })
      | .send o => dgetline env n { file := rest, level := k, out := out ++ o, line := l }
      | .data =>
        dgetline env n (Text.copyData { file := rest, level := k, out := out, line := l })
      | .fatal f => .error f
      | .block b =>
        blockLoop (dgetline env n) b n
          { file := rest, level := k, out := out ++ b.head, line := l } >>= dgetline env n := by
  simp only [dgetline, hu.read]
  exact if_neg hs

end Dgetline

theorem Nested.length_pos {env : Env} {kind : Kind} {k k' : ℕ} {w o : List Byte} {l' : Line}
    (h : Nested env kind k w k' o l') : 0 < w.length := by
  induction h with
  | blank hu _ => exact hu.length_pos
  | line hu _ _ => exact hu.length_pos
  | send hu _ _ => exact hu.length_pos
  | data hu _ _ _ =>
    rw [List.length_append]
    exact Nat.add_pos_left hu.length_pos _
  | block hu _ _ _ _ =>
    rw [List.length_append]
    exact Nat.add_pos_left hu.length_pos _
  | stop _ _ ih => exact ih
  | skip _ _ ih _ =>
    rw [List.length_append]
    exact Nat.add_pos_left ih _
  | more _ _ _ ih _ =>
    rw [List.length_append]
    exact Nat.add_pos_left ih _

theorem Nested.reads {env : Env} {kind : Kind} {k k' : ℕ} {w o : List Byte} {l' : Line}
    (h : Nested env kind k w k' o l') : Reads env k w k' o l' kind := by
  induction h with
  | blank hu hs =>
    intro n rest out line hn
    obtain ⟨m, rfl⟩ := Nat.exists_eq_succ_of_ne_zero (by have := hu.length_pos; omega : n ≠ 0)
    rw [List.append_nil]
    exact dgetline_blank hu hs m _ rest out line
  | line hu hs hparse =>
    intro n rest out line hn
    obtain ⟨m, rfl⟩ := Nat.exists_eq_succ_of_ne_zero (by have := hu.length_pos; omega : n ≠ 0)
    rw [dgetline_act hu hs, hparse, List.append_nil]
  | skip hv hw ihv ihw =>
    intro n rest out line hn
    have hvpos := hv.length_pos
    have hwpos := hw.length_pos
    rw [List.length_append] at hn
    obtain ⟨m, rfl⟩ := Nat.exists_eq_succ_of_ne_zero (by omega : n ≠ 0)
    rw [List.append_assoc, ihv m _ out line (by omega), ihw m rest _ _ (by omega),
      List.append_assoc]
  | send hu hs hparse =>
    intro n rest out line hn
    rw [dgetline_act hu hs, hparse]
  | data hu hs hparse hdata =>
    intro n rest out line hn
    rw [List.append_assoc, dgetline_act hu hs, hparse]
    dsimp only
    rw [hdata, List.append_assoc]
  | block hu hs hparse _ ih =>
    intro n rest out line hn
    have hpos := hu.length_pos
    rw [List.length_append] at hn
    rw [List.append_assoc, dgetline_act hu hs, hparse]
    dsimp only
    rw [ih n n rest _ _ (by omega) (by omega), ← List.append_assoc]
    rfl
  | stop hget hstop ih =>
    intro n m rest out line hn hm
    have hpos := hget.length_pos
    obtain ⟨m', rfl⟩ := Nat.exists_eq_succ_of_ne_zero (by omega : m ≠ 0)
    rw [blockLoop, ih n rest out line hn]
    show (if _ then _ else _) = _
    rw [if_pos hstop, Text.send, List.append_assoc]
  | more hget hstop hbody ihget ihbody =>
    intro n m rest out line hn hm
    have hpos := hget.length_pos
    rw [List.length_append] at hn hm
    obtain ⟨m', rfl⟩ := Nat.exists_eq_succ_of_ne_zero (by omega : m ≠ 0)
    rw [blockLoop, List.append_assoc, ihget n _ out line (by omega)]
    show (if _ then _ else _) = _
    rw [if_neg hstop, Text.send, ihbody n m' rest _ _ (by omega) (by omega)]
    simp only [List.append_assoc]

theorem Nested.last_eq {env : Env} {kind : Kind} {k k' : ℕ} {w o : List Byte} {l' : Line}
    (h : Nested env kind k w k' o l') {l : Line} (hkind : kind = .get l) : l' = l := by
  induction h with
  | blank _ _ => exact Kind.get.inj hkind
  | line _ _ _ => exact Kind.get.inj hkind
  | skip _ _ _ ih => exact ih hkind
  | send _ _ _ => cases hkind
  | data _ _ _ _ => cases hkind
  | block _ _ _ _ _ => cases hkind
  | stop _ _ _ => cases hkind
  | more _ _ _ _ _ => cases hkind

/-- A string that starts with one constant does not start with another one that parts from it. -/
theorem lmatch_eq_false {s : List Byte} {a b : String} (h : lmatch s a = true)
    (hab : (ascii a).isPrefixOf (ascii b) = false) (hba : (ascii b).isPrefixOf (ascii a) = false) :
    lmatch s b = false := by
  by_contra hb
  have hb : lmatch s b = true := by simpa using hb
  rcases List.prefix_or_prefix_of_prefix (List.isPrefixOf_iff_prefix.1 h)
    (List.isPrefixOf_iff_prefix.1 hb) with hp | hp
  · rw [List.isPrefixOf_iff_prefix.2 hp] at hab
    cases hab
  · rw [List.isPrefixOf_iff_prefix.2 hp] at hba
    cases hba

theorem lmatch_self (a : String) : lmatch (ascii a) a = true :=
  List.isPrefixOf_iff_prefix.2 (List.prefix_refl _)

/-- A line that ends a page is returned, and is none of the comments that are looked for. -/
theorem parse_endsPage (env : Env) {l : Line} (h : l.endsPage = true) :
    dgetlineParse env l = .line id ∧ l.str ≠ [] ∧ lmatch l.str "%%BeginPageSetu" = false := by
  obtain ⟨a, ha, hnot⟩ : ∃ a, lmatch l.str a = true ∧ ∀ b ∈ ["%%BeginFeature:", "%%IncludeFeature:",
      "%%BeginNonPPDFeature:", "%%IncludeResource:", "%%BeginResource:", "%%BeginData:",
      "%%BeginDocument:", "%%EndDocument", "%%BeginPageSetu"],
      (ascii a).isPrefixOf (ascii b) = false ∧ (ascii b).isPrefixOf (ascii a) = false := by
    rcases Bool.or_eq_true_iff.1 h with h | h
    · exact ⟨"%%Page:", h, by decide⟩
    · refine ⟨"%%Trailer", ?_, by decide⟩
      rw [of_decide_eq_true h]
      exact lmatch_self _
  have hother : ∀ b ∈ ["%%BeginFeature:", "%%IncludeFeature:", "%%BeginNonPPDFeature:",
      "%%IncludeResource:", "%%BeginResource:", "%%BeginData:", "%%BeginDocument:",
      "%%EndDocument", "%%BeginPageSetu"], lmatch l.str b = false :=
    fun b hb => lmatch_eq_false ha (hnot b hb).1 (hnot b hb).2
  have hend : l.str ≠ ascii "%%EndDocument" := by
    intro he
    have := hother "%%EndDocument" (by decide)
    rw [he, lmatch_self] at this
    cases this
  refine ⟨?_, ?_, hother _ (by decide)⟩
  · simp only [dgetlineParse, hother "%%BeginFeature:" (by decide),
      hother "%%IncludeFeature:" (by decide), hother "%%BeginNonPPDFeature:" (by decide),
      hother "%%IncludeResource:" (by decide), hother "%%BeginResource:" (by decide),
      hother "%%BeginData:" (by decide), hother "%%BeginDocument:" (by decide), hend,
      Bool.false_eq_true, if_false, ite_self]
  · intro he
    rcases Bool.or_eq_true_iff.1 h with h | h
    · rw [he] at h
      exact absurd h (by decide)
    · rw [he] at h
      exact absurd h (by decide)

/-- Blocks are read up to what follows them. -/
theorem NestedBlocks.reads {env : Env} {k k' : ℕ} {w o : List Byte} {l : Line}
    (h : NestedBlocks env k w k' o l) (n : ℕ) (rest out : List Byte) (line : Line)
    (hn : w.length < n) :
    ∃ m, 0 < m ∧ dgetline env n { file := w ++ rest, level := k, out := out, line := line } =
      dgetline env m { file := rest, level := k', out := out ++ o, line := l } := by
  induction h generalizing n out line with
  | one h =>
    have hpos := h.length_pos
    obtain ⟨m, rfl⟩ := Nat.exists_eq_succ_of_ne_zero (by omega : n ≠ 0)
    exact ⟨m, by omega, h.reads m rest out line (by omega)⟩
  | more hv _ ih =>
    have hpos := hv.length_pos
    rw [List.length_append] at hn
    obtain ⟨m, rfl⟩ := Nat.exists_eq_succ_of_ne_zero (by omega : n ≠ 0)
    obtain ⟨m', hm', hrun⟩ := ih m _ _ (by omega)
    refine ⟨m', hm', ?_⟩
    rw [List.append_assoc, hv.reads m _ out line (by omega), hrun, List.append_assoc]

theorem StopsAt.dgetline {env : Env} {after file : List Byte} {stop : Option Line}
    (h : StopsAt after stop file) {n : ℕ} (hn : 0 < n) (k : ℕ) (out : List Byte) (line : Line) :
    dgetline env n { file := after, level := k, out := out, line := line } =
      .ok (stop, { file := file, level := k, out := out, line := stop.getD line }) := by
  obtain ⟨m, rfl⟩ := Nat.exists_eq_succ_of_ne_zero hn.ne'
  rcases h with ⟨rfl, rfl, rfl⟩ | ⟨u, l, hu, hl, rfl, rfl⟩
  · rfl
  · obtain ⟨hparse, hne, -⟩ := parse_endsPage env hl
    rw [dgetline_act hu hne, hparse]
    rfl

/-- What the next call of `dgetline()` does on a page, whatever comes after the page: it gets to the
end, or it returns a line of the page. -/
theorem NestedPage.next {env : Env} {k : ℕ} {w : List Byte} (h : NestedPage env k w)
    (out : List Byte) :
    (∃ out', ∀ after stop file, StopsAt after stop file → ∀ line, ∃ line',
      getLine env { file := w ++ after, level := k, out := out, line := line } =
        .ok (stop, { file := file, level := 0, out := out', line := line' }) ∧
      (lmatch line.str "%%BeginPageSetu" = false → lmatch line'.str "%%BeginPageSetu" = false)) ∨
    ∃ l k' w' out', w'.length < w.length ∧ ¬ (k' = 0 ∧ l.endsPage = true) ∧ NestedPage env k' w' ∧
      ∀ after line, getLine env { file := w ++ after, level := k, out := out, line := line } =
        .ok (some l, { file := w' ++ after, level := k', out := out', line := l }) := by
  -- the line in the buffer at the end
  have hbuffer : ∀ {after stop file}, StopsAt after stop file → ∀ line : Line,
      lmatch line.str "%%BeginPageSetu" = false →
        lmatch (stop.getD line).str "%%BeginPageSetu" = false := by
    intro after stop file hstop line hline
    rcases hstop with ⟨-, rfl, -⟩ | ⟨-, l, -, hl, -, rfl⟩
    · exact hline
    · exact (parse_endsPage env hl).2.2
  cases h with
  | done =>
    refine .inl ⟨out, fun after stop file hstop line => ⟨stop.getD line, ?_, hbuffer hstop line⟩⟩
    exact hstop.dgetline (Nat.succ_pos _) 0 out line
  | blocks hblocks hlast =>
    rename_i o l
    refine .inl ⟨out ++ o, fun after stop file hstop line => ⟨stop.getD l, ?_, fun _ =>
      hbuffer hstop l hlast⟩⟩
    obtain ⟨m, hm, hrun⟩ := hblocks.reads ((w ++ after).length + 1) after out line
      (by rw [List.length_append]; omega)
    rw [getLine, hrun]
    exact hstop.dgetline hm 0 _ _
  | line hget hnot hrest =>
    rename_i k' v w o l l'
    obtain rfl := hget.last_eq rfl
    have hpos := hget.length_pos
    refine .inr ⟨_, _, _, out ++ o, ?_, hnot, hrest, fun after line => ?_⟩
    · rw [List.length_append]
      omega
    · rw [getLine, List.append_assoc]
      exact hget.reads _ _ out line (by rw [List.length_append]; omega)

/-! ## Copying a page -/

/-- Where the page has ended, nothing more is copied. -/
theorem StopsAt.copyRest {env : Env} {after file : List Byte} {stop : Option Line}
    (h : StopsAt after stop file) {n : ℕ} (hn : 0 < n) {t : Text} (ht : t.level = 0) :
    copyRest env n stop t = .ok (stop, t) := by
  obtain ⟨m, rfl⟩ := Nat.exists_eq_succ_of_ne_zero hn.ne'
  rcases h with ⟨-, rfl, -⟩ | ⟨-, l, -, hl, -, rfl⟩
  · rfl
  · rw [Pprdrv.copyRest, if_pos ⟨ht, hl⟩]

/-- The rest of a page, from one of its lines on. -/
theorem NestedPage.copyRest {env : Env} {k : ℕ} {w : List Byte} (h : NestedPage env k w)
    {l : Line} (hl : ¬ (k = 0 ∧ l.endsPage = true)) (out : List Byte) :
    ∃ out', ∀ after stop file, StopsAt after stop file → ∀ n line, (w ++ after).length < n →
      ∃ line', copyRest env n (some l) { file := w ++ after, level := k, out := out, line := line } =
        .ok (stop, { file := file, level := 0, out := out', line := line' }) := by
  -- by induction on the length of the text; a call of `getLine` takes some of it
  induction hlen : w.length using Nat.strong_induction_on generalizing k w l out with
  | _ len ih =>
    subst hlen
    rcases h.next (out ++ l.whole) with ⟨out', hnext⟩ | ⟨l', k', w', out', hlt, hl', hrest, hnext⟩
    · refine ⟨out', fun after stop file hstop n line hn => ?_⟩
      obtain ⟨m, rfl⟩ := Nat.exists_eq_succ_of_ne_zero (by omega : n ≠ 0)
      obtain ⟨line', hrun, -⟩ := hnext after stop file hstop line
      refine ⟨line', ?_⟩
      rw [Pprdrv.copyRest, if_neg hl, Text.send, hrun]
      show Pprdrv.copyRest env m stop _ = _
      rcases hstop with ⟨-, rfl, -⟩ | ⟨u, l'', hu, hend, rfl, rfl⟩
      · rw [Pprdrv.copyRest]
      · have hpos := hu.length_pos
        rw [List.length_append, List.length_append] at hn
        have hstop : StopsAt (u ++ file) (some l'') file := .inr ⟨u, l'', hu, hend, rfl, rfl⟩
        exact hstop.copyRest (by omega) rfl
    · obtain ⟨out'', hout⟩ := ih w'.length hlt hrest hl' out' rfl
      refine ⟨out'', fun after stop file hstop n line hn => ?_⟩
      obtain ⟨m, rfl⟩ := Nat.exists_eq_succ_of_ne_zero (by omega : n ≠ 0)
      rw [List.length_append] at hn
      obtain ⟨line', hrun⟩ := hout after stop file hstop m l' (by rw [List.length_append]; omega)
      refine ⟨line', ?_⟩
      rw [Pprdrv.copyRest, if_neg hl, Text.send, hnext]
      exact hrun

/-- The blank lines at the start of a page: the page ends with them, or a line follows that is not
blank. -/
theorem NestedPage.blankLoop {env : Env} {k : ℕ} {w : List Byte} (h : NestedPage env k w)
    (out : List Byte) :
    (∃ out', ∀ after stop file, StopsAt after stop file → ∀ n line, (w ++ after).length < n →
      lmatch line.str "%%BeginPageSetu" = false → ∃ line',
        blankLoop env n { file := w ++ after, level := k, out := out, line := line } =
          .ok (stop, { file := file, level := 0, out := out', line := line' }) ∧
        lmatch line'.str "%%BeginPageSetu" = false) ∨
    ∃ l k' w' out', ¬ (k' = 0 ∧ l.endsPage = true) ∧ NestedPage env k' w' ∧
      ∀ after n line, (w ++ after).length < n →
        blankLoop env n { file := w ++ after, level := k, out := out, line := line } =
          .ok (some l, { file := w' ++ after, level := k', out := out', line := l }) := by
  induction hlen : w.length using Nat.strong_induction_on generalizing k w out with
  | _ len ih =>
    subst hlen
    rcases h.next out with ⟨out', hnext⟩ | ⟨l, k', w', out', hlt, hl, hrest, hnext⟩
    · refine .inl ⟨out', fun after stop file hstop n line hn hline => ?_⟩
      obtain ⟨m, rfl⟩ := Nat.exists_eq_succ_of_ne_zero (by omega : n ≠ 0)
      obtain ⟨line', hrun, hline'⟩ := hnext after stop file hstop line
      refine ⟨line', ?_, hline' hline⟩
      rw [Pprdrv.blankLoop, hrun]
      rcases hstop with ⟨-, rfl, -⟩ | ⟨u, l, hu, hend, rfl, rfl⟩
      · rfl
      · exact if_neg (parse_endsPage env hend).2.1
    · by_cases hblank : l.str = []
      · rcases ih w'.length hlt hrest (out' ++ [newline]) rfl with
          ⟨out'', hout⟩ | ⟨l₂, k₂, w₂, out₂, hl₂, hrest₂, hrun₂⟩
        · refine .inl ⟨out'', fun after stop file hstop n line hn _ => ?_⟩
          obtain ⟨m, rfl⟩ := Nat.exists_eq_succ_of_ne_zero (by omega : n ≠ 0)
          rw [List.length_append] at hn
          have hl' : lmatch l.str "%%BeginPageSetu" = false := by
            rw [hblank]
            decide
          obtain ⟨line', hrun, hline'⟩ :=
            hout after stop file hstop m l (by rw [List.length_append]; omega) hl'
          refine ⟨line', ?_, hline'⟩
          rw [Pprdrv.blankLoop, hnext]
          show (if _ then _ else _) = _
          rw [if_pos hblank]
          exact hrun
        · refine .inr ⟨l₂, k₂, w₂, out₂, hl₂, hrest₂, fun after n line hn => ?_⟩
          obtain ⟨m, rfl⟩ := Nat.exists_eq_succ_of_ne_zero (by omega : n ≠ 0)
          rw [List.length_append] at hn
          rw [Pprdrv.blankLoop, hnext]
          show (if _ then _ else _) = _
          rw [if_pos hblank]
          exact hrun₂ after m l (by rw [List.length_append]; omega)
      · refine .inr ⟨l, k', w', out', hl, hrest, fun after n line hn => ?_⟩
        obtain ⟨m, rfl⟩ := Nat.exists_eq_succ_of_ne_zero (by omega : n ≠ 0)
        rw [Pprdrv.blankLoop, hnext]
        exact if_neg hblank

/-- `copy_a_page()` after the comments. -/
def pageBody (env : Env) (setup : List Byte) (t : Text) : Except Fatal (Option Line × Text) := do
  let (l, t) ← blankLoop env (t.file.length + 1) t
  let (l, t) ←
    if lmatch t.line.str "%%BeginPageSetu" then getLine env (t.send t.line.put) else .ok (l, t)
  let t := t.send setup
  copyRest env (t.file.length + 1) l t

theorem NestedPage.body {env : Env} {w : List Byte} (h : NestedPage env 0 w)
    (setup out : List Byte) :
    ∃ out', ∀ after stop file, StopsAt after stop file → ∀ line,
      lmatch line.str "%%BeginPageSetu" = false → ∃ line',
        pageBody env setup { file := w ++ after, level := 0, out := out, line := line } =
          .ok (stop, { file := file, level := 0, out := out', line := line' }) := by
  rcases h.blankLoop out with ⟨out₁, hblank⟩ | ⟨l, k, w₁, out₁, hl, hrest, hblank⟩
  · -- the page has ended
    refine ⟨out₁ ++ setup, fun after stop file hstop line hline => ?_⟩
    obtain ⟨line', hrun, hnot⟩ := hblank after stop file hstop _ line (Nat.lt_succ_self _) hline
    refine ⟨line', ?_⟩
    rw [pageBody, hrun]
    dsimp only [bind, Except.bind]
    rw [if_neg (by rw [hnot]; decide)]
    exact hstop.copyRest (Nat.succ_pos _) rfl
  · by_cases hsetup : lmatch l.str "%%BeginPageSetu" = true
    · rcases hrest.next (out₁ ++ l.put) with ⟨out₂, hnext⟩ | ⟨l₂, k₂, w₂, out₂, -, hl₂, hrest₂, hnext⟩
      · refine ⟨out₂ ++ setup, fun after stop file hstop line _ => ?_⟩
        obtain ⟨line', hrun, -⟩ := hnext after stop file hstop l
        refine ⟨line', ?_⟩
        rw [pageBody, hblank after _ line (Nat.lt_succ_self _)]
        dsimp only [bind, Except.bind]
        rw [if_pos hsetup, Text.send, hrun]
        exact hstop.copyRest (Nat.succ_pos _) rfl
      · obtain ⟨out₃, hcopy⟩ := hrest₂.copyRest hl₂ (out₂ ++ setup)
        refine ⟨out₃, fun after stop file hstop line _ => ?_⟩
        obtain ⟨line', hrun⟩ := hcopy after stop file hstop _ l₂ (Nat.lt_succ_self _)
        refine ⟨line', ?_⟩
        rw [pageBody, hblank after _ line (Nat.lt_succ_self _)]
        dsimp only [bind, Except.bind]
        rw [if_pos hsetup, Text.send, hnext after l]
        exact hrun
    · obtain ⟨out₂, hcopy⟩ := hrest.copyRest hl (out₁ ++ setup)
      refine ⟨out₂, fun after stop file hstop line _ => ?_⟩
      obtain ⟨line', hrun⟩ := hcopy after stop file hstop _ l (Nat.lt_succ_self _)
      refine ⟨line', ?_⟩
      rw [pageBody, hblank after _ line (Nat.lt_succ_self _)]
      dsimp only [bind, Except.bind]
      rw [if_neg hsetup]
      exact hrun

/-- A page in which everything is closed is copied the same way whatever comes after it. -/
theorem PageWhole.copyAPage {env : Env} {text : List Byte} (h : PageWhole env text)
    (comments : List (List Byte)) (newnumber : ℕ) :
    ∃ out, ∀ after stop file, StopsAt after stop file → ∀ line, ∃ line',
      copyAPage env comments newnumber { file := text ++ after, level := 0, out := [], line := line } =
        .ok (stop, { file := file, level := 0, out := out, line := line' }) := by
  obtain ⟨u, l, w, hu, hl, rfl, hw⟩ := h
  have hend : l.endsPage = true := Bool.or_eq_true_iff.2 (.inl hl)
  obtain ⟨hparse, hne, hnot⟩ := parse_endsPage env hend
  -- the "%%Page:" line
  have hfirst : ∀ after line, getLine env
      { file := u ++ w ++ after, level := 0, out := [], line := line } =
        .ok (some l, { file := w ++ after, level := 0, out := [], line := l }) := by
    intro after line
    rw [getLine, List.append_assoc, dgetline_act hu hne, hparse]
    rfl
  obtain ⟨out, hbody⟩ := hw.body
    (env.jobtimeout ++ pageMedium env (comments.foldl scanPageMedia []))
    ([] ++ (ascii "%%Page: " ++ ((tokenize l.str)[1]?.getD (ascii "?")) ++ [32] ++
      decimal newnumber ++ [newline]) ++ comments.flatMap fun c => c ++ [newline])
  refine ⟨out, fun after stop file hstop line => ?_⟩
  obtain ⟨line', hrun⟩ := hbody after stop file hstop l hnot
  refine ⟨line', ?_⟩
  rw [Pprdrv.copyAPage, hfirst]
  exact hrun

/-! ## Copying pages -/

/-- At the offset of a page there is the page, and then what comes after it. -/
theorem Document.drop_offset (d : Document) {i : ℕ} {page : Page} (h : d.pages[i]? = some page) :
    d.text.drop (d.offset i) = page.text ++ d.after i := by
  obtain ⟨hi, rfl⟩ := List.getElem?_eq_some_iff.1 h
  have hsplit : d.pages.flatMap Page.text = (d.pages.take i).flatMap Page.text ++
      (d.pages[i].text ++ (d.pages.drop (i + 1)).flatMap Page.text) := by
    rw [← List.flatMap_cons, ← List.flatMap_append, ← List.drop_eq_getElem_cons hi,
      List.take_append_drop]
  rw [Document.text, Document.offset, hsplit, ← List.length_append, ← List.append_assoc,
    List.append_assoc _ _ d.tail, List.drop_left, List.append_assoc]
  rfl

/-- After a page the next one starts, or the trailer. -/
theorem Document.Whole.stopsAt {env : Env} {d : Document} (h : d.Whole env) (i : ℕ) :
    ∃ stop file, StopsAt (d.after i) stop file := by
  unfold Document.after
  cases hrest : d.pages.drop (i + 1) with
  | nil => exact h.tail
  | cons page pages =>
    have hmem : page ∈ d.pages := by
      apply List.mem_of_mem_drop (i := i + 1)
      rw [hrest]
      exact List.mem_cons_self
    obtain ⟨u, l, w, hu, hl, htext, -⟩ := h.pages page hmem
    refine ⟨some l, w ++ (pages.flatMap Page.text ++ d.tail), .inr ⟨u, l, hu, ?_, ?_, rfl⟩⟩
    · exact Bool.or_eq_true_iff.2 (.inl hl)
    · rw [List.flatMap_cons, htext]
      simp only [List.append_assoc]

/-- Copying one page. -/
theorem Document.Whole.copyPage {env : Env} {d : Document} (h : d.Whole env) {i : ℕ}
    (hi : i < d.pages.length) (newnumber : ℕ) (line : Line) :
    ∃ e line' page, d.copyPage env i newnumber 0 line = .ok (e, 0, line') ∧
      d.pages[i]? = some page ∧ page.alone env newnumber = .ok e.sent ∧
      StopsAt (d.after i) e.stop e.file := by
  have hpage : d.pages[i]? = some d.pages[i] := List.getElem?_eq_getElem hi
  obtain ⟨out, hcopy⟩ := (h.pages _ (List.getElem_mem hi)).copyAPage d.pages[i].comments newnumber
  obtain ⟨stop, file, hstop⟩ := h.stopsAt i
  obtain ⟨line', hrun⟩ := hcopy (d.after i) stop file hstop line
  obtain ⟨line'', halone⟩ := hcopy [] none [] (.inl ⟨rfl, rfl, rfl⟩) ⟨[], false⟩
  refine ⟨{ sent := out, stop := stop, file := file }, line', d.pages[i], ?_, hpage, ?_, hstop⟩
  · rw [Document.copyPage, hpage]
    dsimp only
    rw [d.drop_offset hpage, hrun]
    rfl
  · rw [List.append_nil] at halone
    rw [Page.alone, halone]
    rfl

/-- If everything is closed on its page, the pages do not depend on each other. -/
theorem independent_of_whole {env : Env} {d : Document} (h : d.Whole env) : d.Independent env := by
  intro order horder line
  rw [h.level]
  induction order generalizing line with
  | nil => exact ⟨[], rfl, .nil⟩
  | cons p order ih =>
    obtain ⟨i, newnumber⟩ := p
    obtain ⟨e, line', page, hrun, hpage⟩ :=
      h.copyPage (horder (i, newnumber) List.mem_cons_self) newnumber line
    obtain ⟨es, hes, hall⟩ := ih (fun p hp => horder p (List.mem_cons_of_mem _ hp)) line'
    refine ⟨e :: es, ?_, .cons ⟨page, hpage⟩ hall⟩
    rw [Document.copyPages, hrun]
    dsimp only [bind, Except.bind]
    rw [hes]
    rfl

section Examples

/-- A printer that has one code for all features, and a job without resources. -/
private def plainEnv : Env where
  findFeature := fun _ _ => some [32]
  quotedValue := id
  stripSignature := false
  keepBadfeatures := true
  nUp := 1
  copiesAuto := -1
  numcopies := []
  drvres := []
  stripPrinter := false
  fontPresent := fun _ => false
  includeResource := fun _ => none
  jobtimeout := []
  mediaCount := 0
  binselect := false
  defaultPagemedia := []
  selectMedium := fun _ => []

/-- Two pages, each with some text after its "%%Page:" line. -/
private def twoPages (first second : List Byte) : Document where
  head := []
  pages := [⟨[], ascii "%%Page: 1 1\n" ++ first⟩, ⟨[], ascii "%%Page: 2 2\n" ++ second⟩]
  tail := []
  level := 0

theorem independent_twoPages : (twoPages (ascii "showpage\n") []).Whole plainEnv ∧
    (twoPages (ascii "showpage\n") []).Independent plainEnv := by
  have hwhole : (twoPages (ascii "showpage\n") []).Whole plainEnv := by
    refine ⟨rfl, ?_, none, [], .inl ⟨rfl, rfl, rfl⟩⟩
    intro page hpage
    rcases List.mem_cons.1 hpage with rfl | hpage
    · refine ⟨ascii "%%Page: 1 1\n", ⟨ascii "%%Page: 1 1", false⟩, _,
        ⟨by decide, .inl ⟨rfl, by decide, rfl⟩⟩, by decide, rfl, ?_⟩
      rw [← List.append_nil (ascii "showpage\n")]
      exact .line (.line (l := ⟨ascii "showpage", false⟩) (f := id)
        ⟨by decide, .inl ⟨rfl, by decide, rfl⟩⟩ (by decide) rfl) (by decide) .done
    · obtain rfl := List.mem_singleton.1 hpage
      exact ⟨ascii "%%Page: 2 2\n", ⟨ascii "%%Page: 2 2", false⟩, [],
        ⟨by decide, .inl ⟨rfl, by decide, rfl⟩⟩, by decide, rfl, .done⟩
  exact ⟨hwhole, independent_of_whole hwhole⟩

/-- The code of a feature that is not closed on its page: the next page is taken for a part of it. -/
theorem unclosedFeature_runs_on :
    ¬ ∀ env (d : Document), (∀ page ∈ d.pages, lmatch page.text "%%Page:" = true) → d.level = 0 →
      d.Independent env := by
  intro hall
  obtain ⟨es, hes, hforall⟩ := hall plainEnv
    (twoPages (ascii "x\n%%BeginFeature: *Duplex None\n") (ascii "x\n%%EndFeature\n"))
    (by decide) rfl [(0, 1)] (by decide) ⟨[], false⟩
  have hrun : (twoPages (ascii "x\n%%BeginFeature: *Duplex None\n")
      (ascii "x\n%%EndFeature\n")).copyPages plainEnv [(0, 1)] 0 ⟨[], false⟩ =
      .ok [⟨ascii "%%Page: 1 1\nx\n%%BeginFeature: *Duplex None\n \n%%EndFeature\n", none, []⟩] := by
    rfl
  cases hes.symm.trans hrun
  cases hforall with
  | cons h _ =>
    obtain ⟨page, -, -, hstop⟩ := h
    rcases hstop with ⟨hnil, -⟩ | ⟨u, l, -, -, -, hsome⟩
    · exact absurd hnil (by decide)
    · cases hsome

end Examples

end Ppr.Pprdrv
