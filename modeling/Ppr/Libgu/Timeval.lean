import Mathlib.Tactic.Linarith
import Mathlib.Tactic.Ring

/-!
# Times

`gu_timeval_cmp()`, `gu_timeval_sub()` and `gu_timeval_add()` of `gu_timeval.c`.
-/

namespace Ppr

/-- `struct timeval`. -/
structure Timeval where
  sec : ℤ
  usec : ℤ
  deriving DecidableEq

namespace Timeval

/-- `gu_timeval_zero()`. -/
def zero : Timeval := ⟨0, 0⟩

/-- `gu_timeval_cmp()`. -/
def cmp (t₁ t₂ : Timeval) : ℤ :=
  if t₁.sec > t₂.sec then 1
  else if t₁.sec < t₂.sec then -1
  else if t₁.usec > t₂.usec then 1
  else if t₁.usec < t₂.usec then -1
  else 0

/-- `gu_timeval_sub()`. -/
def sub (t₁ t₂ : Timeval) : Timeval :=
  if t₁.usec - t₂.usec < 0 then ⟨t₁.sec - t₂.sec - 1, t₁.usec - t₂.usec + 1000000⟩
  else ⟨t₁.sec - t₂.sec, t₁.usec - t₂.usec⟩

/-- `gu_timeval_add()`, which leaves a sum of exactly one second in the microseconds. -/
def add (t₁ t₂ : Timeval) : Timeval :=
  if t₁.usec + t₂.usec > 1000000 then ⟨t₁.sec + t₂.sec + 1, t₁.usec + t₂.usec - 1000000⟩
  else ⟨t₁.sec + t₂.sec, t₁.usec + t₂.usec⟩

/-- Add whole seconds. -/
def addSec (t : Timeval) (s : ℤ) : Timeval := { t with sec := t.sec + s }

/-- The time in microseconds. -/
def micros (t : Timeval) : ℤ := t.sec * 1000000 + t.usec

/-- As `gettimeofday()` returns it. -/
def Valid (t : Timeval) : Prop := 0 ≤ t.usec ∧ t.usec < 1000000

/-- As `add` returns it. -/
def Loose (t : Timeval) : Prop := 0 ≤ t.usec ∧ t.usec ≤ 1000000

theorem Valid.loose {t : Timeval} (h : t.Valid) : t.Loose := ⟨h.1, h.2.le⟩

theorem zero_valid : zero.Valid := ⟨le_rfl, by decide⟩

theorem micros_zero : zero.micros = 0 := rfl

theorem micros_addSec (t : Timeval) (s : ℤ) : (t.addSec s).micros = t.micros + s * 1000000 := by
  unfold micros addSec
  ring

theorem Valid.addSec {t : Timeval} (h : t.Valid) (s : ℤ) : (t.addSec s).Valid := h

/-- Comparing times is comparing their microseconds. -/
theorem cmp_pos {t₁ t₂ : Timeval} (h₁ : t₁.Valid) (h₂ : t₂.Valid) : 0 < cmp t₁ t₂ ↔ t₂.micros < t₁.micros := by
  obtain ⟨h₁, h₁'⟩ := h₁
  obtain ⟨h₂, h₂'⟩ := h₂
  unfold cmp micros
  split_ifs <;> constructor <;> intro h <;> omega

theorem cmp_neg {t₁ t₂ : Timeval} (h₁ : t₁.Valid) (h₂ : t₂.Valid) : cmp t₁ t₂ < 0 ↔ t₁.micros < t₂.micros := by
  obtain ⟨h₁, h₁'⟩ := h₁
  obtain ⟨h₂, h₂'⟩ := h₂
  unfold cmp micros
  split_ifs <;> constructor <;> intro h <;> omega

theorem cmp_nonpos {t₁ t₂ : Timeval} (h₁ : t₁.Valid) (h₂ : t₂.Valid) :
    cmp t₁ t₂ ≤ 0 ↔ t₁.micros ≤ t₂.micros := by
  rw [← not_lt, cmp_pos h₁ h₂, not_lt]

theorem micros_sub (t₁ t₂ : Timeval) : (sub t₁ t₂).micros = t₁.micros - t₂.micros := by
  unfold sub micros
  split_ifs
  · ring
  · ring

theorem sub_valid {t₁ t₂ : Timeval} (h₁ : t₁.Valid) (h₂ : t₂.Loose) : (sub t₁ t₂).Valid := by
  obtain ⟨h₁, h₁'⟩ := h₁
  obtain ⟨h₂, h₂'⟩ := h₂
  unfold sub Valid
  split_ifs <;> constructor <;> dsimp only <;> omega

theorem micros_add (t₁ t₂ : Timeval) : (add t₁ t₂).micros = t₁.micros + t₂.micros := by
  unfold add micros
  split_ifs
  · ring
  · ring

theorem add_loose {t₁ t₂ : Timeval} (h₁ : t₁.Loose) (h₂ : t₂.Valid) : (add t₁ t₂).Loose := by
  obtain ⟨h₁, h₁'⟩ := h₁
  obtain ⟨h₂, h₂'⟩ := h₂
  unfold add Loose
  split_ifs <;> constructor <;> dsimp only <;> omega

/-- A number of seconds and a time need no carry. -/
theorem add_valid {t₁ t₂ : Timeval} (h₁ : t₁.usec = 0) (h₂ : t₂.Valid) : (add t₁ t₂).Valid := by
  obtain ⟨h₂, h₂'⟩ := h₂
  unfold add Valid
  split_ifs <;> constructor <;> dsimp only <;> omega

/-- The seconds of a time that is not negative. -/
theorem sec_bounds {t : Timeval} (h : t.Valid) : t.sec * 1000000 ≤ t.micros ∧ t.micros < (t.sec + 1) * 1000000 := by
  obtain ⟨h, h'⟩ := h
  unfold micros
  constructor <;> linarith

end Timeval

end Ppr
