import Mathlib.Tactic.Common
import Mathlib.Data.Int.Init

/-!
# The proleptic Gregorian calendar

Years and months of the Gregorian calendar, carried back before its introduction, with a year 0.
-/

namespace Cleonos.Calendar

/-- A year with a 29th of February. -/
def IsLeap (year : ℤ) : Prop := 4 ∣ year ∧ (100 ∣ year → 400 ∣ year)

instance (year : ℤ) : Decidable (IsLeap year) :=
  inferInstanceAs (Decidable (4 ∣ year ∧ (100 ∣ year → 400 ∣ year)))

def yearLength (year : ℤ) : ℤ := if IsLeap year then 366 else 365

def monthLength (year : ℤ) : ℕ → ℤ
  | 1 => if IsLeap year then 29 else 28
  | 3 | 5 | 8 | 10 => 30
  | _ => 31

/-- The number of the first day of a year. -/
def firstDay (year : ℤ) : ℤ :=
  365 * (year - 1) + (year - 1) / 4 - (year - 1) / 100 + (year - 1) / 400

/-- The days of a year before a month. -/
def monthStart (year : ℤ) : ℕ → ℤ
  | 0 => 0
  | month + 1 => monthStart year month + monthLength year month

variable (year : ℤ)

theorem yearLength_pos : 365 ≤ yearLength year := by
  rw [yearLength]
  split <;> omega

theorem firstDay_succ : firstDay (year + 1) = firstDay year + yearLength year := by
  rw [firstDay, firstDay, yearLength]
  by_cases h : IsLeap year
  · rw [if_pos h]
    rw [IsLeap] at h
    omega
  · rw [if_neg h]
    rw [IsLeap] at h
    omega

theorem monthLength_pos (month : ℕ) : 28 ≤ monthLength year month := by
  fun_cases monthLength year month <;> omega

theorem monthStart_twelve : monthStart year 12 = yearLength year := by
  simp only [monthStart, monthLength, yearLength]
  split <;> rfl

theorem firstDay_lt {year year' : ℤ} (h : year < year') : firstDay year < firstDay year' := by
  obtain ⟨n, rfl⟩ : ∃ n : ℕ, year' = year + 1 + n := ⟨(year' - year - 1).toNat, by omega⟩
  induction n with
  | zero =>
    have hlen := yearLength_pos year
    have hyear : year + 1 + ((0 : ℕ) : ℤ) = year + 1 := by omega
    rw [hyear, firstDay_succ]
    omega
  | succ n ih =>
    have hlen := yearLength_pos (year + 1 + n)
    have hn := ih (by omega)
    have hyear : year + 1 + ((n + 1 : ℕ) : ℤ) = year + 1 + n + 1 := by omega
    rw [hyear, firstDay_succ]
    omega

theorem monthStart_nonneg (year : ℤ) (month : ℕ) : 0 ≤ monthStart year month := by
  induction month with
  | zero => exact Int.le_refl 0
  | succ month ih =>
    have hlen := monthLength_pos year month
    rw [monthStart]
    omega

theorem monthStart_mono (year : ℤ) {month month' : ℕ} (h : month ≤ month') :
    monthStart year month ≤ monthStart year month' := by
  induction h with
  | refl => exact Int.le_refl _
  | @step month' _ ih =>
    have hlen := monthLength_pos year month'
    rw [monthStart]
    omega

theorem monthStart_le {month : ℕ} (h : month ≤ 12) : monthStart year month ≤ yearLength year := by
  rw [← monthStart_twelve]
  exact monthStart_mono year h

end Cleonos.Calendar
