import Ppr.Lib.Ascii

/-!
# The address cache

`int_addrcache_save()` and `int_addrcache_load()`: a file for each printer with three lines, read into
a buffer of 4096 bytes.  `Memory` is what the cache is for: the last save for a printer since the last
load.
-/

namespace Ppr.AddrCache

/-! ## The functions -/

/-- `MAX_READ` -/
def maxRead : ℕ := 4095

/-- A C string without newlines. -/
structure Text where
  bytes : List Byte
  plain : ∀ c ∈ bytes, c ≠ newline ∧ c ≠ 0
  deriving DecidableEq

/-- What is saved for a printer; the file that it makes fits the read buffer. -/
structure Entry where
  interface : Text
  address : Text
  resolution : Text
  fits : interface.bytes.length + address.bytes.length + resolution.bytes.length + 3 ≤ maxRead

/-- "%s\n%s\n%s\n" -/
def Entry.file (e : Entry) : List Byte :=
  e.interface.bytes ++ newline :: (e.address.bytes ++ newline :: (e.resolution.bytes ++ [newline]))

/-- The files `resolved_device_address` by the printers' names. -/
abbrev Disk := List Byte → Option (List Byte)

/-- The name of a printer that has no queue yet. -/
def noQueue : List Byte := ascii "-"

/-- `int_addrcache_save()` -/
def save (d : Disk) (printer : List Byte) (e : Entry) : Disk :=
  if printer = noQueue then d else Function.update d printer (some e.file)

/-- Bytes are examined behind those read and the NUL that was put there. -/
inductive Beyond where
  | beyond

/-- The C string at `temp + i`. -/
def stringAt (temp : List Byte) (i : ℕ) : Except Beyond (List Byte) :=
  if i ≤ temp.length then .ok (cstr (temp.drop i)) else .error .beyond

/-- The string up to `strcspn(s, "\n")`. -/
def line (s : List Byte) : List Byte := s.takeWhile (· ≠ newline)

/-- `strncmp(s, t, n) != 0` -/
def differ (s t : List Byte) (n : ℕ) : Bool := s.take n ≠ t.take n

/-- `int_addrcache_load()`: the answer, and the files afterwards. -/
def load (d : Disk) (printer interface address : List Byte) :
    Except Beyond (Option (List Byte) × Disk) :=
  if printer = noQueue then .ok (none, d)
  else
    match d printer with
    | none => .ok (none, d)
    | some file => do
      let temp := file.take maxRead
      let unlinked := Function.update d printer none
      let s ← stringAt temp 0
      let len := interface.length
      if (line s).length ≠ len ∨ differ s interface len then return (none, unlinked)
      -- The place of the address is not counted from the interface's name.
      let p ← stringAt temp 6
      let len := address.length
      if (line p).length = len ∧ differ p address len then return (none, unlinked)
      let p ← stringAt temp (6 + len + 1)
      return (some (line p), unlinked)

/-! ## Sequences of calls -/

inductive Call where
  | save (printer : List Byte) (e : Entry)
  | load (printer : List Byte) (interface address : Text)

def Call.run (d : Disk) : Call → Except Beyond (Option (List Byte) × Disk)
  | .save printer e => .ok (none, AddrCache.save d printer e)
  | .load printer interface address => AddrCache.load d printer interface.bytes address.bytes

/-- The last save for each printer since the last load for it. -/
abbrev Memory := List Byte → Option Entry

def Memory.after (m : Memory) : Call → Memory
  | .save printer e => Function.update m printer (some e)
  | .load printer _ _ => Function.update m printer none

/-- `r` is the resolution of what was saved last, if that was for this interface and address. -/
def Entry.Answer (o : Option Entry) (interface address : Text) (r : Option (List Byte)) : Prop :=
  ∀ R, r = some R ↔
    ∃ e, o = some e ∧ e.interface = interface ∧ e.address = address ∧ R = e.resolution.bytes

/-- Every load examines only what was read, and answers from the memory. -/
def Answered (d : Disk) (m : Memory) : List Call → Prop
  | [] => True
  | c :: cs =>
    ∃ r d', c.run d = .ok (r, d') ∧
      (∀ printer interface address, c = .load printer interface address → printer ≠ noQueue →
        Entry.Answer (m printer) interface address r) ∧
      Answered d' (m.after c) cs

/-- The name of the interface has five characters and the address is as long as the one saved. -/
def Entry.SameLengths (e : Entry) (interface address : Text) : Prop :=
  interface.bytes.length = 5 ∧ address.bytes.length = e.address.bytes.length

/-- Wherever a load finds an entry of its own interface, the lengths agree. -/
def LengthsFit (m : Memory) : List Call → Prop
  | [] => True
  | c :: cs =>
    (∀ printer interface address, c = .load printer interface address → printer ≠ noQueue →
      ∀ e, m printer = some e → e.interface = interface → e.SameLengths interface address) ∧
      LengthsFit (m.after c) cs

/-! ## One load -/

theorem Text.ext {s t : Text} (h : s.bytes = t.bytes) : s = t := by
  cases s
  cases t
  congr

theorem line_append {s : List Byte} (h : ∀ c ∈ s, c ≠ newline ∧ c ≠ 0) (rest : List Byte) :
    line (s ++ newline :: rest) = s := by
  rw [line, List.takeWhile_append_of_pos fun c hc => decide_eq_true (h c hc).1,
    List.takeWhile_cons_of_neg (by simp), List.append_nil]

theorem Entry.length_file (e : Entry) : e.file.length =
    e.interface.bytes.length + e.address.bytes.length + e.resolution.bytes.length + 3 := by
  simp only [Entry.file, List.length_append, List.length_cons, List.length_nil]
  omega

theorem Entry.zero_notMem_file (e : Entry) : (0 : Byte) ∉ e.file := by
  have hnl : (0 : Byte) ≠ newline := by decide
  simp only [Entry.file, List.mem_append, List.mem_cons, List.not_mem_nil, hnl, or_false, false_or,
    not_or]
  exact ⟨fun h => (e.interface.plain 0 h).2 rfl, fun h => (e.address.plain 0 h).2 rfl,
    fun h => (e.resolution.plain 0 h).2 rfl⟩

theorem stringAt_of_le {temp : List Byte} (h0 : (0 : Byte) ∉ temp) {i : ℕ} (hi : i ≤ temp.length) :
    stringAt temp i = .ok (temp.drop i) := by
  rw [stringAt, if_pos hi, cstr_eq_self.2 fun h => h0 (List.mem_of_mem_drop h)]

/-- What follows the line at the beginning of a file. -/
theorem drop_line {s rest : List Byte} {n : ℕ} (h : n = s.length + 1) :
    (s ++ newline :: rest).drop n = rest := by
  subst h
  rw [← List.drop_drop, List.drop_left]
  rfl

/-- The test for the interface. -/
theorem Entry.interface_iff (e : Entry) (interface : Text) :
    ((line e.file).length ≠ interface.bytes.length ∨
      differ e.file interface.bytes interface.bytes.length = true) ↔ e.interface ≠ interface := by
  have hline : line e.file = e.interface.bytes := line_append e.interface.plain _
  rw [hline]
  constructor
  · rintro h rfl
    rcases h with h | h
    · exact h rfl
    · simp [differ, Entry.file] at h
  · intro h
    by_contra hc
    rw [not_or, not_not] at hc
    have htake : e.file.take interface.bytes.length = interface.bytes := by
      have := hc.2
      simp only [differ, List.take_length, decide_eq_true_eq, not_not] at this
      exact this
    refine h (Text.ext ?_)
    rw [← htake, ← hc.1, Entry.file, List.take_left]

/-- A load where there is an entry of another interface. -/
theorem load_other {d : Disk} {printer : List Byte} (hp : printer ≠ noQueue) {e : Entry}
    (hd : d printer = some e.file) {interface : Text} (h : e.interface ≠ interface) (address : Text) :
    load d printer interface.bytes address.bytes = .ok (none, Function.update d printer none) := by
  have htake : e.file.take maxRead = e.file :=
    List.take_of_length_le (by rw [e.length_file]; exact e.fits)
  rw [load, if_neg hp, hd]
  dsimp only
  rw [htake, stringAt_of_le e.zero_notMem_file (Nat.zero_le _), List.drop_zero]
  show (if _ then _ else _) = _
  rw [if_pos ((e.interface_iff interface).2 h)]
  rfl

/-- A load where there is an entry of the same interface, whose name has five characters: an address of
another length is not noticed. -/
theorem load_same {d : Disk} {printer : List Byte} (hp : printer ≠ noQueue) {e : Entry}
    (hd : d printer = some e.file) (hlen : e.interface.bytes.length = 5) (address : Text) :
    load d printer e.interface.bytes address.bytes =
      if address.bytes.length = e.address.bytes.length then
        .ok (if e.address = address then some e.resolution.bytes else none,
          Function.update d printer none)
      else
        (stringAt e.file (6 + address.bytes.length + 1)).map fun p =>
          (some (line p), Function.update d printer none) := by
  have htake : e.file.take maxRead = e.file :=
    List.take_of_length_le (by rw [e.length_file]; exact e.fits)
  have hsix : e.file.drop 6 = e.address.bytes ++ newline :: (e.resolution.bytes ++ [newline]) :=
    drop_line (by rw [hlen])
  have hline : line (e.file.drop 6) = e.address.bytes := by
    rw [hsix]
    exact line_append e.address.plain _
  rw [load, if_neg hp, hd]
  dsimp only
  rw [htake, stringAt_of_le e.zero_notMem_file (Nat.zero_le _), List.drop_zero]
  show (if _ then _ else _) = _
  rw [if_neg (mt (e.interface_iff e.interface).1 (not_not.2 rfl)),
    stringAt_of_le e.zero_notMem_file (by rw [e.length_file]; omega)]
  show (if _ then _ else _) = _
  rw [hline]
  by_cases hsame : address.bytes.length = e.address.bytes.length
  · have hdiffer : differ (e.file.drop 6) address.bytes address.bytes.length = true ↔
        e.address ≠ address := by
      rw [differ, hsix, hsame, List.take_left, ← hsame, List.take_length, decide_eq_true_iff]
      exact not_congr ⟨Text.ext, fun h => by rw [h]⟩
    rw [if_pos hsame]
    by_cases heq : e.address = address
    · rw [if_neg fun h => hdiffer.1 h.2 heq, if_pos heq,
        stringAt_of_le e.zero_notMem_file (by rw [e.length_file]; omega), Nat.add_assoc,
        ← List.drop_drop, hsix, drop_line (by rw [hsame])]
      show Except.ok (some (line _), _) = _
      rw [line_append e.resolution.plain]
    · rw [if_pos ⟨hsame.symm, hdiffer.2 heq⟩, if_neg heq]
      rfl
  · rw [if_neg fun h => hsame h.1.symm, if_neg hsame]
    cases stringAt e.file (6 + address.bytes.length + 1) <;> rfl

/-- With a name of five characters, the answer is right exactly if the lengths agree. -/
theorem load_same_iff {d : Disk} {printer : List Byte} (hp : printer ≠ noQueue) {e : Entry}
    (hd : d printer = some e.file) (hlen : e.interface.bytes.length = 5) (address : Text) :
    (∃ r d', load d printer e.interface.bytes address.bytes = .ok (r, d') ∧
      Entry.Answer (some e) e.interface address r) ↔ e.SameLengths e.interface address := by
  rw [load_same hp hd hlen, Entry.SameLengths, and_iff_right hlen]
  split_ifs with hsame heq
  · refine iff_of_true ⟨_, _, rfl, fun R => ?_⟩ hsame
    simp [heq, eq_comm]
  · refine iff_of_true ⟨_, _, rfl, fun R => ?_⟩ hsame
    simp [heq]
  · refine iff_of_false ?_ hsame
    rintro ⟨r, d', hload, hanswer⟩
    cases hs : stringAt e.file (6 + address.bytes.length + 1) with
    | error b =>
      rw [hs] at hload
      cases hload
    | ok p =>
      rw [hs] at hload
      cases hload
      obtain ⟨e', he', -, haddr, -⟩ := (hanswer (line p)).1 rfl
      cases he'
      exact hsame (by rw [haddr])

/-! ## Runs -/

/-- The files hold what is remembered. -/
def Holds (d : Disk) (m : Memory) : Prop :=
  ∀ printer, printer ≠ noQueue → d printer = (m printer).map Entry.file

theorem Holds.save {d : Disk} {m : Memory} (h : Holds d m) (printer : List Byte) (e : Entry) :
    Holds (save d printer e) (m.after (.save printer e)) := by
  intro q hq
  unfold AddrCache.save
  split_ifs with hp
  · rw [Memory.after, Function.update_of_ne (by rintro rfl; exact hq hp)]
    exact h q hq
  · rw [Memory.after]
    by_cases hqp : q = printer
    · rw [hqp, Function.update_self, Function.update_self]
      rfl
    · rw [Function.update_of_ne hqp, Function.update_of_ne hqp]
      exact h q hq

theorem Holds.unlinked {d : Disk} {m : Memory} (h : Holds d m) (printer : List Byte)
    (interface address : Text) :
    Holds (Function.update d printer none) (m.after (.load printer interface address)) := by
  intro q hq
  rw [Memory.after]
  by_cases hqp : q = printer
  · rw [hqp, Function.update_self, Function.update_self]
    rfl
  · rw [Function.update_of_ne hqp, Function.update_of_ne hqp]
    exact h q hq

/-- One call. -/
theorem Holds.run {d : Disk} {m : Memory} (h : Holds d m) (c : Call)
    (hfit : ∀ printer interface address, c = .load printer interface address → printer ≠ noQueue →
      ∀ e, m printer = some e → e.interface = interface → e.SameLengths interface address) :
    ∃ r d', c.run d = .ok (r, d') ∧
      (∀ printer interface address, c = .load printer interface address → printer ≠ noQueue →
        Entry.Answer (m printer) interface address r) ∧ Holds d' (m.after c) := by
  cases c with
  | save printer e =>
    refine ⟨_, _, rfl, ?_, h.save printer e⟩
    intro _ _ _ hc
    cases hc
  | load printer interface address =>
    by_cases hp : printer = noQueue
    · refine ⟨none, d, if_pos hp, ?_, ?_⟩
      · intro q _ _ hc hq
        cases hc
        exact absurd hp hq
      · intro q hq
        rw [Memory.after, Function.update_of_ne (by rw [hp]; exact hq)]
        exact h q hq
    cases hm : m printer with
    | none =>
      have hd : d printer = none := by rw [h printer hp, hm]; rfl
      refine ⟨none, d, ?_, ?_, ?_⟩
      · rw [Call.run, AddrCache.load, if_neg hp, hd]
      · intro q _ _ hc _
        cases hc
        intro R
        simp [hm]
      · have hsame := h.unlinked printer interface address
        rwa [Function.update_eq_self_iff.2 hd.symm] at hsame
    | some e =>
      have hd : d printer = some e.file := by rw [h printer hp, hm]; rfl
      by_cases hi : e.interface = interface
      · subst hi
        have hsame := hfit printer e.interface address rfl hp e hm rfl
        have hload := load_same hp hd hsame.1 address
        rw [if_pos hsame.2] at hload
        refine ⟨_, _, hload, ?_, h.unlinked printer e.interface address⟩
        intro q _ _ hc _ R
        cases hc
        rw [hm]
        split_ifs with ha
        · simp [ha, eq_comm]
        · simp [ha]
      · refine ⟨_, _, load_other hp hd hi address, ?_, h.unlinked printer interface address⟩
        intro q _ _ hc _ R
        cases hc
        simp [hm, hi]

/-- From an empty cache, every load answers from the memory as long as the lengths fit. -/
theorem answered_of_lengthsFit {calls : List Call} (h : LengthsFit (fun _ => none) calls) :
    Answered (fun _ => none) (fun _ => none) calls := by
  suffices ∀ (d : Disk) (m : Memory), Holds d m → LengthsFit m calls → Answered d m calls from
    this _ _ (fun _ _ => rfl) h
  clear h
  induction calls with
  | nil => exact fun _ _ _ _ => trivial
  | cons c cs ih =>
    rintro d m hd ⟨hfit, hrest⟩
    obtain ⟨r, d', hrun, hanswer, hd'⟩ := hd.run c hfit
    exact ⟨r, d', hrun, hanswer, ih d' _ hd' hrest⟩

/-! ## Two addresses -/

/-- A string constant. -/
def text (s : String) (h : ∀ c ∈ ascii s, c ≠ newline ∧ c ≠ 0) : Text := ⟨ascii s, h⟩

/-- "printer1" at the interface "atalk". -/
def printer1 : Entry :=
  ⟨text "atalk" (by decide), text "printer1" (by decide), text "10.20" (by decide), by decide⟩

/-- What was saved is found. -/
theorem printer1_answered : Answered (fun _ => none) (fun _ => none)
    [.save (ascii "laser") printer1, .load (ascii "laser") printer1.interface printer1.address] := by
  refine answered_of_lengthsFit ⟨?_, ?_, trivial⟩
  · intro _ _ _ hc
    cases hc
  · intro _ _ _ hc _ e he _
    cases hc
    cases he
    exact ⟨rfl, rfl⟩

/-- For "printer10" the resolution of "printer1" is returned, less its first character. -/
theorem not_answered_printer10 : ¬Answered (fun _ => none) (fun _ => none)
    [.save (ascii "laser") printer1,
      .load (ascii "laser") printer1.interface (text "printer10" (by decide))] := by
  rintro ⟨_, _, hsave, -, r, d', hload, hanswer, -⟩
  cases hsave
  have hvalue : (Except.ok (r, d') : Except Beyond _).map Prod.fst = .ok (some (ascii "0.20")) := by
    rw [← hload]
    rfl
  obtain ⟨e, he, -, haddress, -⟩ := (hanswer _ _ _ rfl (by decide) _).1 (Except.ok.inj hvalue)
  cases he
  exact absurd (congrArg Text.bytes haddress) (by decide)

end Ppr.AddrCache
