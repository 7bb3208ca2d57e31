import Mathlib.Order.Monotone.Basic

set_option autoImplicit false

/-! # Days and dates of the Gregorian calendar

An era is 400 years of 146097 days. Years begin in March here, so that a leap day is the last day of its year and the months before it
have fixed places. -/

namespace CivilDate

/-- The days of an era before its year `y`. -/
def yearStart (y : Nat) : Nat := 365 * y + y / 4 - y / 100 + y / 400

/-- A day of an era with the leap days before it taken out. -/
def withoutLeapDays (doe : Nat) : Nat := doe - doe / 1460 + doe / 36524 - doe / 146096

/-- The year that a day of an era is in. -/
def yearOfEra (doe : Nat) : Nat := withoutLeapDays doe / 365

theorem withoutLeapDays_mono : Monotone withoutLeapDays := by
  refine monotone_nat_of_le_succ fun n => ?_
  unfold withoutLeapDays
  -- where 1460 and 146096 divide the next day, 36524 does so too
  omega

theorem yearOfEra_mono : Monotone yearOfEra := fun _ _ h => Nat.div_le_div_right (withoutLeapDays_mono h)

theorem yearOfEra_borders : ∀ y < 400, yearOfEra (yearStart y) = y ∧ yearOfEra (yearStart (y + 1) - 1) = y := by
  decide +kernel

variable {doe : Nat}

theorem yearOfEra_lt (h : doe < 146097) : yearOfEra doe < 400 := by
  have hle : yearOfEra doe ≤ yearOfEra (yearStart 400 - 1) := yearOfEra_mono (by unfold yearStart; omega)
  rw [(yearOfEra_borders 399 (by omega)).2] at hle
  omega

theorem yearStart_yearOfEra_le (h : doe < 146097) : yearStart (yearOfEra doe) ≤ doe := by
  have hlt := yearOfEra_lt h
  by_contra hgt
  obtain hy | ⟨y, hy⟩ : yearOfEra doe = 0 ∨ ∃ y, yearOfEra doe = y + 1 := by
    cases yearOfEra doe with
    | zero => exact .inl rfl
    | succ y => exact .inr ⟨y, rfl⟩
  · rw [hy] at hgt
    exact hgt (Nat.zero_le _)
  · rw [hy] at hgt hlt
    have hle := yearOfEra_mono (show doe ≤ yearStart (y + 1) - 1 by omega)
    rw [(yearOfEra_borders y (by omega)).2] at hle
    omega

theorem lt_yearStart_yearOfEra (h : doe < 146097) : doe < yearStart (yearOfEra doe + 1) := by
  have hlt := yearOfEra_lt h
  by_contra hge
  by_cases hlast : yearOfEra doe = 399
  · rw [hlast] at hge
    unfold yearStart at hge
    omega
  · have hle := yearOfEra_mono (Nat.not_lt.1 hge)
    rw [(yearOfEra_borders _ (by omega)).1] at hle
    omega

/-- A year of 366 days is one whose last February is that of a leap year. -/
theorem leap_of_long {y : Nat} (h : yearStart y + 365 < yearStart (y + 1)) :
    (y + 1) % 4 = 0 ∧ ((y + 1) % 100 ≠ 0 ∨ (y + 1) % 400 = 0) := by
  unfold yearStart at h
  omega

theorem yearStart_succ_le (y : Nat) : yearStart (y + 1) ≤ yearStart y + 366 := by
  unfold yearStart
  omega

/-- The days of a year before its month `mp`, counted from March. -/
def monthStart (mp : Nat) : Nat := (153 * mp + 2) / 5

/-- The month that a day of a year is in. -/
def monthOfYear (doy : Nat) : Nat := (5 * doy + 2) / 153

theorem monthOfYear_lt {doy : Nat} (h : doy < 366) : monthOfYear doy < 12 := by
  unfold monthOfYear
  omega

theorem monthStart_monthOfYear_le (doy : Nat) : monthStart (monthOfYear doy) ≤ doy := by
  unfold monthStart monthOfYear
  omega

theorem lt_monthStart_monthOfYear (doy : Nat) : doy < monthStart (monthOfYear doy + 1) := by
  unfold monthStart monthOfYear
  omega

end CivilDate
