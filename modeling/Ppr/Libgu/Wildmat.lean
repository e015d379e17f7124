import Ppr.Lib.Ascii

/-!
# Wildcards

`gu_wildmat()` of `gu_wildmat.c`.  Characters are signed.  A pattern that ends inside of a class can
make it read what stands behind the pattern.
-/

namespace Ppr

/-- What stands behind the end of a string is read. -/
structure WildRead where
  deriving DecidableEq

/-- `TRUE`, `FALSE` and `ABORT`. -/
inductive Matched where
  | yes
  | no
  | abort
  deriving DecidableEq

def isOctal (c : Byte) : Bool := 48 ≤ c.toNat && c.toNat ≤ 55

/-- The value of a hexadecimal digit. -/
def hexDigit (c : Byte) : Option ℕ :=
  if isdigit c then some (c.toNat - 48)
  else if 65 ≤ c.toNat ∧ c.toNat ≤ 70 then some (c.toNat - 55)
  else if 97 ≤ c.toNat ∧ c.toNat ≤ 102 then some (c.toNat - 87)
  else none

/-- The control characters with letters of their own. -/
def control (c : Byte) : Option ℤ :=
  if c = 97 then some 7
  else if c = 98 then some 8
  else if c = 102 then some 12
  else if c = 110 then some 10
  else if c = 114 then some 13
  else if c = 116 then some 9
  else if c = 118 then some 11
  else none

/-- The character behind a backslash, and the rest of the pattern. -/
def escaped : List Byte → ℤ × List Byte
  | [] => (0, [])
  | c :: p =>
    if isOctal c then
      let digits := ((c :: p).take 3).takeWhile isOctal
      (digitsOct digits, (c :: p).drop digits.length)
    else if c = 120 then
      let digits := (p.take 2).takeWhile fun c => (hexDigit c).isSome
      (digits.foldl (fun n c => n * 16 + (hexDigit c).getD 0) 0, p.drop digits.length)
    else ((control c).getD c.toInt, p)
where
  digitsOct (digits : List Byte) : ℤ := digits.foldl (fun n c => n * 8 + (c.toNat - 48)) 0

/-- The rest of a class: whether the character is in it, and what follows the bracket. -/
def classLoop (t : Byte) : Byte → Bool → List Byte → Except WildRead (Bool × Option (List Byte))
  | _, matched, [] => .ok (matched, none)
  | last, matched, c :: p =>
    if c = 93 then .ok (matched, some p)
    else if c = 45 then
      match p with
      | [] => .error ⟨⟩
      | d :: p =>
        if d = 93 then .ok (matched || t = c, some p)
        else classLoop t d (matched || (t.sle d && last.sle t)) p
    else classLoop t c (matched || t = c) p

/-- What follows an opening bracket. -/
def classMatch (t : Byte) (p : List Byte) : Except WildRead (Bool × Option (List Byte)) := do
  let reverse := p.head? = some 94
  let last := if reverse then 94 else 91
  let p := if reverse then p.tail else p
  let (matched, rest) ← match p with
    | c :: p =>
      if c = 93 ∨ c = 45 then classLoop t c (c = t) p else classLoop t last false (c :: p)
    | [] => classLoop t last false []
  return (matched != reverse, rest)

/-- The loop behind a star. -/
def starLoop (doMatch : List Byte → Except WildRead Matched) : List Byte → Except WildRead Matched
  | [] => .ok .abort
  | t :: text => do
    match ← doMatch (t :: text) with
    | .no => starLoop doMatch text
    | matched => return matched

/-- `DoMatch()`, for a pattern of at most `n` characters. -/
def doMatch : ℕ → List Byte → List Byte → Except WildRead Matched
  | _, text, [] => .ok (if text = [] then .yes else .no)
  | 0, _, _ :: _ => .ok .no
  | n + 1, text, c :: p =>
    if c = 42 then
      let p := p.dropWhile (· = 42)
      if p = [] then .ok .yes else starLoop (fun text => doMatch n text p) text
    else
      match text with
      | [] => .ok .abort
      | t :: text =>
        if c = 92 then
          let (value, p) := escaped p
          if t.toInt = value then doMatch n text p else .ok .no
        else if c = 63 then doMatch n text p
        else if c = 91 then do
          match ← classMatch t p with
          | (false, _) => return .no
          | (true, none) => .error ⟨⟩
          | (true, some p) => doMatch n text p
        else if t = c then doMatch n text p
        else .ok .no

/-- `gu_wildmat()`. -/
def guWildmat (text p : List Byte) : Except WildRead Bool := do
  if p = [42] then return true
  let matched ← doMatch p.length text p
  return matched = .yes

/-- A pattern without special characters. -/
def Plain (p : List Byte) : Prop := ∀ c ∈ p, c ≠ 42 ∧ c ≠ 63 ∧ c ≠ 91 ∧ c ≠ 92

theorem doMatch_plain {p : List Byte} (hp : Plain p) {n : ℕ} (hn : p.length ≤ n) (text : List Byte) :
    ∃ m, doMatch n text p = .ok m ∧ (m = .yes ↔ text = p) := by
  induction p generalizing n text with
  | nil =>
    refine ⟨if text = [] then .yes else .no, by cases n <;> rfl, ?_⟩
    split_ifs with h <;> simp [h]
  | cons c p ih =>
    obtain ⟨n, rfl⟩ : ∃ m, n = m + 1 := ⟨n - 1, by simp at hn; omega⟩
    obtain ⟨hstar, hany, hclass, hescape⟩ := hp c List.mem_cons_self
    unfold doMatch
    rw [if_neg hstar]
    cases text with
    | nil => exact ⟨.abort, rfl, by simp⟩
    | cons t text =>
      dsimp only
      rw [if_neg hescape, if_neg hany, if_neg hclass]
      by_cases htc : t = c
      · obtain ⟨m, hm, hiff⟩ := ih (fun d hd => hp d (List.mem_cons_of_mem c hd)) (by simpa using hn) text
        rw [if_pos htc]
        exact ⟨m, hm, hiff.trans (by simp [htc])⟩
      · rw [if_neg htc]
        exact ⟨.no, rfl, by simp [htc]⟩

/-- A pattern without special characters matches itself only. -/
theorem guWildmat_plain {p : List Byte} (hp : Plain p) (text : List Byte) :
    guWildmat text p = .ok (decide (text = p)) := by
  obtain ⟨m, hm, hiff⟩ := doMatch_plain hp le_rfl text
  have hstar : p ≠ [42] := by
    rintro rfl
    exact (hp 42 (by simp)).1 rfl
  unfold guWildmat
  rw [if_neg hstar, hm]
  exact congrArg Except.ok (decide_eq_decide.2 hiff)

example : guWildmat (ascii "alice7") (ascii "al*[0-9]") = .ok true := by decide +kernel

end Ppr
