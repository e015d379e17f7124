import Ppr.Lib.Outcome
import Ppr.Lib.Reading

/-!
# Joining arguments

`list_to_string()` of `ppad_util.c`.  Each write is checked against the buffer as it is then.
-/

namespace Ppr.Ppad

/-- A write that is not in the buffer. -/
inductive Overrun where
  | wild
  deriving DecidableEq

/-- A block of memory; a byte that has never been written is `none`. -/
abbrev Block := List (Option Byte)

/-- The variables of `list_to_string()`. -/
structure Joining where
  string : Option Block
  stringLen : ℕ
  stringSpace : ℕ

/-- `gu_realloc()`. -/
def guRealloc (block : Option Block) (n : ℕ) : Block :=
  (block.getD []).take n ++ List.replicate (n - (block.getD []).length) none

/-- Bytes are written into a block. -/
def store (block : Option Block) (pos : ℕ) (bytes : List Byte) : Except Overrun (Option Block) :=
  match block with
  | none => .error .wild
  | some b =>
    if pos + bytes.length ≤ b.length then
      .ok (some (b.take pos ++ (bytes.map some ++ b.drop (pos + bytes.length))))
    else .error .wild

namespace Joining

def newlen (j : Joining) (word : List Byte) : ℕ :=
  if j.stringLen = 0 then j.stringLen + word.length else j.stringLen + word.length + 1

/-- The buffer is enlarged by one step if it is too small. -/
def enlarge (j : Joining) (newlen : ℕ) : Joining :=
  if j.stringSpace < newlen + 1 then
    { j with string := some (guRealloc j.string (j.stringSpace + 256)), stringSpace := j.stringSpace + 256 }
  else j

/-- The space in front of a word that is not the first one. -/
def space (j : Joining) : Except Overrun Joining :=
  if j.stringLen = 0 then .ok j
  else do
    let string ← store j.string j.stringLen [32]
    return { j with string, stringLen := j.stringLen + 1 }

/-- One round of the loop; the last store is `strcpy()`. -/
def append (j : Joining) (word : List Byte) : Except Overrun Joining :=
  if word = [] then .ok j
  else do
    let spaced ← (j.enlarge (j.newlen word)).space
    let string ← store spaced.string spaced.stringLen (word ++ [0])
    return { spaced with string, stringLen := j.newlen word }

end Joining

/-- `list_to_string()`. -/
def listToString (argv : List (List Byte)) : Except Overrun (Option Block) := do
  let j ← argv.foldlM Joining.append ⟨none, 0, 0⟩
  return j.string.map fun b => guRealloc (some b) (j.stringLen + 1)

/-! ## Joined words -/

/-- The words with single spaces between them. -/
def joined (ws : List (List Byte)) : List Byte := [32].intercalate ws

/-- The blocks of 256 bytes that the joined words take with the NUL behind them. -/
def blocks (ws : List (List Byte)) : ℕ := if ws = [] then 0 else ((joined ws).length + 256) / 256

theorem joined_nil : joined [] = [] := rfl

theorem joined_singleton (w : List Byte) : joined [w] = w := List.intercalate_singleton

theorem joined_cons (w : List Byte) {ws : List (List Byte)} (hws : ws ≠ []) : joined (w :: ws) = w ++ 32 :: joined ws := by
  rw [joined, List.intercalate_cons_of_ne_nil hws]
  simp [joined]

theorem joined_concat {ws : List (List Byte)} (hws : ws ≠ []) (word : List Byte) :
    joined (ws ++ [word]) = joined ws ++ 32 :: word := by
  induction ws with
  | nil => exact absurd rfl hws
  | cons w ws ih =>
    by_cases hnil : ws = []
    · rw [hnil, List.singleton_append, joined_cons w (by simp), joined_singleton, joined_singleton]
    · rw [List.cons_append, joined_cons w (by simp), joined_cons w hnil, ih hnil]
      simp

theorem joined_ne_nil {ws : List (List Byte)} (hws : ws ≠ []) (h : [] ∉ ws) : joined ws ≠ [] := by
  cases ws with
  | nil => exact absurd rfl hws
  | cons w ws =>
    have hw : w ≠ [] := fun hw => h (hw ▸ List.mem_cons_self)
    by_cases hnil : ws = []
    · rwa [hnil, joined_singleton]
    · rw [joined_cons w hnil]
      simp

/-- The result is the words that are not empty, with single spaces between them and a NUL
behind them, or nothing if there are none. -/
def Joins (argv : List (List Byte)) : Prop :=
  listToString argv = .ok
    (if argv.filter (· ≠ []) = [] then none else some ((joined (argv.filter (· ≠ [])) ++ [0]).map some))

/-- No word needs more than one more block. -/
def Gradual (ws : List (List Byte)) : Prop := ∀ n < ws.length, blocks (ws.take (n + 1)) ≤ blocks (ws.take n) + 1

/-! ## One word -/

/-- The buffer after some words. -/
structure Joining.Holds (j : Joining) (ws : List (List Byte)) : Prop where
  stringLen : j.stringLen = (joined ws).length
  stringSpace : j.stringSpace = 256 * blocks ws
  string : if ws = [] then j.string = none
    else ∃ b rest, j.string = some b ∧ b = (joined ws ++ [0]).map some ++ rest ∧ b.length = j.stringSpace

theorem store_eq {a b : Block} {bytes : List Byte} {pos : ℕ} (hpos : pos = a.length) (hlen : bytes.length ≤ b.length) :
    store (some (a ++ b)) pos bytes = .ok (some (a ++ (bytes.map some ++ b.drop bytes.length))) := by
  have hle : pos + bytes.length ≤ (a ++ b).length := by
    rw [List.length_append]
    omega
  rw [store, if_pos hle, hpos, List.take_left, List.drop_length_add_append]

theorem store_wild {b : Block} {bytes : List Byte} {pos : ℕ} (h : b.length < pos + bytes.length) :
    store (some b) pos bytes = .error .wild := by
  rw [store, if_neg (not_le.2 h)]

/-- What stands in front of the next word. -/
def front (ws : List (List Byte)) : List Byte := if ws = [] then [] else joined ws ++ [32]

theorem joined_concat_front (ws : List (List Byte)) (word : List Byte) : joined (ws ++ [word]) = front ws ++ word := by
  by_cases hws : ws = []
  · rw [hws, front, if_pos rfl]
    exact joined_singleton word
  · rw [joined_concat hws, front, if_neg hws, List.append_assoc]
    rfl

theorem length_joined_le (ws : List (List Byte)) (word : List Byte) : (joined ws).length ≤ (joined (ws ++ [word])).length := by
  by_cases hws : ws = []
  · rw [hws, joined_nil]
    exact Nat.zero_le _
  · rw [joined_concat hws, List.length_append]
    exact Nat.le_add_right ..

theorem blocks_concat (ws : List (List Byte)) (word : List Byte) :
    blocks (ws ++ [word]) = ((joined (ws ++ [word])).length + 256) / 256 := if_neg (by simp)

/-- The buffer is full up to its last block. -/
theorem blocks_le_concat (ws : List (List Byte)) (word : List Byte) : blocks ws ≤ blocks (ws ++ [word]) := by
  have hle := length_joined_le ws word
  rw [blocks_concat, blocks]
  split_ifs
  · exact Nat.zero_le _
  · omega

namespace Joining.Holds

variable {j : Joining} {ws : List (List Byte)} {word : List Byte}

theorem start : Holds ⟨none, 0, 0⟩ [] := by
  constructor
  · rfl
  · rfl
  · rfl

theorem stringLen_eq_zero (h : j.Holds ws) (hempty : [] ∉ ws) : j.stringLen = 0 ↔ ws = [] := by
  rw [h.stringLen, List.length_eq_zero_iff]
  constructor
  · intro hnil
    by_contra hws
    exact joined_ne_nil hws hempty hnil
  · intro hws
    rw [hws, joined_nil]

theorem newlen_eq (h : j.Holds ws) (hempty : [] ∉ ws) : j.newlen word = (joined (ws ++ [word])).length := by
  rw [newlen, joined_concat_front, List.length_append, front]
  by_cases hws : ws = []
  · rw [if_pos ((h.stringLen_eq_zero hempty).2 hws), if_pos hws, h.stringLen, hws, joined_nil]
  · rw [if_neg (mt (h.stringLen_eq_zero hempty).1 hws), if_neg hws, h.stringLen, List.length_append,
      List.length_singleton]
    omega

/-- The buffer that is enlarged for `n` bytes and a NUL. -/
theorem enlarge_spec (h : j.Holds ws) (n : ℕ) :
    ∃ rest, (j.enlarge n).string = some ((if ws = [] then [] else (joined ws ++ [0]).map some) ++ rest) ∧
      (j.enlarge n).stringLen = j.stringLen ∧
      (j.enlarge n).stringSpace = 256 * (if 256 * blocks ws < n + 1 then blocks ws + 1 else blocks ws) ∧
      ((if ws = [] then [] else (joined ws ++ [0]).map some) ++ rest).length = (j.enlarge n).stringSpace := by
  have hstring := h.string
  rw [enlarge, h.stringSpace]
  by_cases hws : ws = []
  · have hblocks : blocks ws = 0 := if_pos hws
    rw [if_pos hws] at hstring
    rw [hblocks, if_pos hws, if_pos (by omega), if_pos (by omega)]
    refine ⟨List.replicate 256 none, ?_, rfl, rfl, ?_⟩
    · show some (guRealloc j.string _) = _
      rw [hstring]
      rfl
    · exact List.length_replicate
  · rw [if_neg hws] at hstring ⊢
    obtain ⟨b, rest, hb, hrest, hlen⟩ := hstring
    split_ifs with hsmall
    · refine ⟨rest ++ List.replicate 256 none, ?_, rfl, rfl, ?_⟩
      · show some (guRealloc j.string _) = _
        have htake : b.take (256 * blocks ws + 256) = b := List.take_of_length_le (by rw [hlen, h.stringSpace]; omega)
        have hnew : 256 * blocks ws + 256 - b.length = 256 := by
          rw [hlen, h.stringSpace]
          omega
        rw [hb, guRealloc, Option.getD_some, htake, hnew, hrest, List.append_assoc]
      · rw [← List.append_assoc, ← hrest, List.length_append, hlen, h.stringSpace, List.length_replicate]
    · refine ⟨rest, ?_, rfl, h.stringSpace, ?_⟩
      · rw [hb, hrest]
      · rw [← hrest, hlen]

/-- The buffer when the space is in front of the word. -/
theorem space_spec (h : j.Holds ws) (hempty : [] ∉ ws) (n : ℕ) :
    ∃ spaced rest, (j.enlarge n).space = .ok spaced ∧ spaced.string = some ((front ws).map some ++ rest) ∧
      spaced.stringLen = (front ws).length ∧
      spaced.stringSpace = 256 * (if 256 * blocks ws < n + 1 then blocks ws + 1 else blocks ws) ∧
      (front ws).length + rest.length = spaced.stringSpace := by
  obtain ⟨rest, hstring, hlen, hspace, htotal⟩ := h.enlarge_spec n
  generalize j.enlarge n = k at hstring hlen hspace htotal ⊢
  rw [space, hlen]
  by_cases hws : ws = []
  · have hfront : front ws = [] := if_pos hws
    have hzero : j.stringLen = 0 := (h.stringLen_eq_zero hempty).2 hws
    rw [if_pos hws] at hstring htotal
    rw [if_pos hzero]
    refine ⟨k, rest, rfl, ?_, ?_, hspace, ?_⟩
    · rw [hfront]
      exact hstring
    · rw [hfront, hlen]
      exact hzero
    · rw [hfront, ← htotal]
      simp
  · have hfront : front ws = joined ws ++ [32] := if_neg hws
    rw [if_neg hws] at hstring htotal
    rw [if_neg (mt (h.stringLen_eq_zero hempty).1 hws), hstring]
    have hshape : (joined ws ++ [0]).map some ++ rest = (joined ws).map some ++ (some 0 :: rest) := by simp
    have hstore : store (some ((joined ws ++ [0]).map some ++ rest)) j.stringLen [32] =
        .ok (some ((joined ws).map some ++ ([some 32] ++ rest))) := by
      rw [hshape]
      exact store_eq (by rw [h.stringLen, List.length_map]) (by simp)
    rw [hstore]
    refine ⟨_, rest, rfl, ?_, ?_, hspace, ?_⟩
    · rw [hfront]
      simp
    · rw [hfront, h.stringLen]
      simp
    · rw [hfront, ← htotal]
      simp only [List.length_append, List.length_map, List.length_singleton]

/-- A word for which one more block is enough. -/
theorem append_ok (h : j.Holds ws) (hempty : [] ∉ ws) (hword : word ≠ [])
    (hblocks : blocks (ws ++ [word]) ≤ blocks ws + 1) : ∃ j', j.append word = .ok j' ∧ j'.Holds (ws ++ [word]) := by
  have hn := (blocks_le_concat ws word).trans_eq (blocks_concat ws word)
  obtain ⟨spaced, rest, hspaced, hstring, hlen, hspace, htotal⟩ := h.space_spec hempty (joined (ws ++ [word])).length
  have hjoined := joined_concat_front ws word
  rw [blocks_concat] at hblocks
  have hfit : spaced.stringSpace = 256 * blocks (ws ++ [word]) := by
    rw [hspace, blocks_concat]
    split_ifs with hsmall <;> omega
  have hroom : (word ++ [0]).length ≤ rest.length := by
    rw [blocks_concat, hjoined, List.length_append] at hfit
    rw [List.length_append, List.length_singleton]
    omega
  have hstore : store spaced.string spaced.stringLen (word ++ [0]) =
      .ok (some ((front ws).map some ++ ((word ++ [0]).map some ++ rest.drop (word ++ [0]).length))) := by
    rw [hstring]
    exact store_eq (by rw [hlen, List.length_map]) hroom
  refine ⟨{ spaced with
    string := some ((front ws).map some ++ ((word ++ [0]).map some ++ rest.drop (word ++ [0]).length))
    stringLen := j.newlen word }, ?_, ?_⟩
  · rw [append, if_neg hword, h.newlen_eq hempty, hspaced]
    show (store spaced.string spaced.stringLen (word ++ [0]) >>= _) = _
    rw [hstore]
    rfl
  · constructor
    · exact h.newlen_eq hempty
    · exact hfit
    · rw [if_neg (by simp)]
      refine ⟨_, rest.drop (word ++ [0]).length, rfl, ?_, ?_⟩
      · rw [hjoined]
        simp
      · show _ = spaced.stringSpace
        rw [← htotal]
        simp only [List.length_append, List.length_map, List.length_drop]
        rw [List.length_append] at hroom
        omega

/-- A word for which one more block is not enough. -/
theorem append_wild (h : j.Holds ws) (hempty : [] ∉ ws) (hword : word ≠ [])
    (hblocks : blocks ws + 1 < blocks (ws ++ [word])) : j.append word = .error .wild := by
  obtain ⟨spaced, rest, hspaced, hstring, hlen, hspace, htotal⟩ := h.space_spec hempty (joined (ws ++ [word])).length
  have hjoined := joined_concat_front ws word
  rw [blocks_concat] at hblocks
  have hwild : store spaced.string spaced.stringLen (word ++ [0]) = .error .wild := by
    rw [hstring]
    apply store_wild
    rw [List.length_append, List.length_map, htotal, hlen, hspace, List.length_append, List.length_singleton]
    rw [hjoined, List.length_append] at hblocks ⊢
    split_ifs <;> omega
  rw [append, if_neg hword, h.newlen_eq hempty, hspaced]
  show (store spaced.string spaced.stringLen (word ++ [0]) >>= _) = _
  rw [hwild]
  rfl

end Joining.Holds

/-! ## All words -/

theorem foldlM_filter (argv : List (List Byte)) (j : Joining) :
    argv.foldlM Joining.append j = (argv.filter (· ≠ [])).foldlM Joining.append j := by
  induction argv generalizing j with
  | nil => rfl
  | cons word argv ih =>
    by_cases hword : word = []
    · rw [hword, List.filter_cons_of_neg (by simp), ← ih]
      rfl
    · rw [List.filter_cons_of_pos (by simpa using hword), List.foldlM_cons, List.foldlM_cons]
      exact congrArg _ (funext ih)

theorem gradual_concat (ws : List (List Byte)) (word : List Byte) :
    Gradual (ws ++ [word]) ↔ Gradual ws ∧ blocks (ws ++ [word]) ≤ blocks ws + 1 := by
  have hall : (ws ++ [word]).take (ws.length + 1) = ws ++ [word] := List.take_of_length_le (by simp)
  have hfront : ∀ n ≤ ws.length, (ws ++ [word]).take n = ws.take n := fun n hn => List.take_append_of_le_length hn
  constructor
  · intro h
    constructor
    · intro n hn
      have hstep := h n (by simp; omega)
      rwa [hfront _ hn, hfront _ (Nat.le_of_lt hn)] at hstep
    · have hstep := h ws.length (by simp)
      rwa [hall, List.take_left] at hstep
  · rintro ⟨h, hlast⟩ n hn
    rw [List.length_append, List.length_singleton, Nat.lt_succ_iff_lt_or_eq] at hn
    rcases hn with hn | rfl
    · rw [hfront _ hn, hfront _ (Nat.le_of_lt hn)]
      exact h n hn
    · rwa [hall, List.take_left]

/-- By induction on the words from the last one back: the loop goes on as long as one more block is enough. -/
theorem foldlM_append {ws : List (List Byte)} (hempty : [] ∉ ws) :
    (Gradual ws → ∃ j, ws.foldlM Joining.append ⟨none, 0, 0⟩ = .ok j ∧ j.Holds ws) ∧
      (¬Gradual ws → ws.foldlM Joining.append ⟨none, 0, 0⟩ = .error .wild) := by
  induction ws using List.reverseRecOn with
  | nil =>
    constructor
    · intro _
      exact ⟨⟨none, 0, 0⟩, rfl, Joining.Holds.start⟩
    · intro h
      exact absurd (fun n hn => absurd hn (Nat.not_lt_zero n)) h
  | append_singleton ws word ih =>
    have hempty' : [] ∉ ws := fun hmem => hempty (List.mem_append_left _ hmem)
    have hword : word ≠ [] := fun hw => hempty (hw ▸ List.mem_append_right _ List.mem_cons_self)
    obtain ⟨hok, hwild⟩ := ih hempty'
    have hstep : (ws ++ [word]).foldlM Joining.append ⟨none, 0, 0⟩ =
        ws.foldlM Joining.append ⟨none, 0, 0⟩ >>= fun j => j.append word := by
      rw [List.foldlM_append]
      simp
    rw [gradual_concat, hstep]
    constructor
    · rintro ⟨hgradual, hblocks⟩
      obtain ⟨j, hj, hholds⟩ := hok hgradual
      rw [hj]
      exact hholds.append_ok hempty' hword hblocks
    · intro hnot
      by_cases hgradual : Gradual ws
      · obtain ⟨j, hj, hholds⟩ := hok hgradual
        rw [hj]
        exact hholds.append_wild hempty' hword (not_le.1 fun hle => hnot ⟨hgradual, hle⟩)
      · rw [hwild hgradual]
        rfl

theorem nil_notMem_filter (argv : List (List Byte)) : [] ∉ argv.filter (· ≠ []) := by
  simp

theorem listToString_gradual {argv : List (List Byte)} (h : Gradual (argv.filter (· ≠ []))) : Joins argv := by
  obtain ⟨j, hj, hholds⟩ := (foldlM_append (nil_notMem_filter argv)).1 h
  have hstring := hholds.string
  rw [Joins, listToString, foldlM_filter, hj]
  show Except.ok (j.string.map _) = _
  split_ifs at hstring ⊢ with hws
  · rw [hstring]
    rfl
  · obtain ⟨b, rest, hb, hrest, -⟩ := hstring
    rw [hb, Option.map_some, guRealloc, Option.getD_some, hholds.stringLen, hrest]
    have hlen : (joined (argv.filter (· ≠ []))).length + 1 =
        ((joined (argv.filter (· ≠ [])) ++ [0]).map some).length := by simp
    rw [hlen, List.take_left, Nat.sub_eq_zero_of_le (by simp)]
    simp

theorem listToString_wild {argv : List (List Byte)} (h : ¬Gradual (argv.filter (· ≠ []))) :
    listToString argv = .error .wild := by
  rw [listToString, foldlM_filter, (foldlM_append (nil_notMem_filter argv)).2 h]
  rfl

/-- The arguments are joined within the buffer exactly if no word needs more than one more block of 256 bytes. -/
theorem joins_iff_gradual (argv : List (List Byte)) : Joins argv ↔ Gradual (argv.filter (· ≠ [])) := by
  constructor
  · intro h
    by_contra hnot
    rw [Joins, listToString_wild hnot] at h
    cases h
  · exact listToString_gradual

/-- A first word of 256 bytes is written behind the end of the buffer. -/
theorem not_joins_long : ¬Joins [List.replicate 256 97] := by
  have hlong : ¬Gradual ([List.replicate 256 97].filter (· ≠ [])) := by
    have hwords : [List.replicate 256 (97 : Byte)].filter (· ≠ []) = [List.replicate 256 97] := by decide +kernel
    have htwo : ¬blocks [List.replicate 256 97] ≤ blocks [] + 1 := by decide +kernel
    intro h
    rw [hwords] at h
    exact htwo (h 0 Nat.one_pos)
  rw [Joins, listToString_wild hlong]
  intro h
  cases h

end Ppr.Ppad
