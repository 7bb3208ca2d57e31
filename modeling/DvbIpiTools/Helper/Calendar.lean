import DvbIpiTools.Helper.DateUtil

set_option autoImplicit false

/-! # The calendar on both sides of its epoch

The calendar repeats after an era of 400 years, so that what holds from the first day on holds before it too. Months follow each other
without a gap; that orders the dates and makes the day of a date its own. -/

namespace DvbIpiTools.DateUtil

/-! ## Eras -/

variable {y mo d y' mo' d' : Int}

theorem mjdToDate_era (m k : Int) : mjdToDate (m + 146097 * k) = ((mjdToDate m).1 + 400 * k, (mjdToDate m).2) := by
  have hera (z : Int) : Int.tdiv (if z ≥ 0 then z else z - 146096) 146097 = z / 146097 :=
    tdiv_corrected (n := 146097) (by decide) z
  have hz : m + 146097 * k - mjdUnixEpoch + 719468 = m - mjdUnixEpoch + 719468 + k * 146097 := by omega
  have hdoe (z : Int) : z + k * 146097 - (z / 146097 + k) * 146097 = z - z / 146097 * 146097 := by omega
  simp only [mjdToDate, hera, hz, Int.add_mul_ediv_right _ _ (show (146097 : Int) ≠ 0 by decide), hdoe, Prod.mk.injEq, and_true]
  omega

theorem daysInMonth_eq (y mo : Int) : daysInMonth y mo = if mo = 2 ∧ y % 4 = 0 ∧ (y % 100 ≠ 0 ∨ y % 400 = 0) then 29
    else [31, 28, 31, 30, 31, 30, 31, 31, 30, 31, 30, 31].getD (mo - 1).toNat 0 := by
  simp only [daysInMonth, ne_eq, ← Int.dvd_iff_tmod_eq_zero, ← Int.dvd_iff_emod_eq_zero]

theorem mjdToDate_exact (m : Int) : IsDate (mjdToDate m).1 (mjdToDate m).2.1 (mjdToDate m).2.2 ∧
    dateToMjd (mjdToDate m).1 (mjdToDate m).2.1 (mjdToDate m).2.2 = m := by
  obtain ⟨n, k, hm⟩ : ∃ (n : Nat) (k : Int), m = n + 146097 * k := ⟨(m + 146097 * m.natAbs).toNat, -m.natAbs, by omega⟩
  have hdate := isDate_mjdToDate n
  have hday := dateToMjd_mjdToDate n
  rw [hm, mjdToDate_era]
  obtain ⟨hmonth, hle⟩ := hdate
  refine ⟨⟨hmonth, ?_⟩, ?_⟩
  · rw [daysInMonth_eq] at hle ⊢
    simpa only [show ∀ y : Int, (y + 400 * k) % 4 = y % 4 by omega, show ∀ y : Int, (y + 400 * k) % 100 = y % 100 by omega,
      show ∀ y : Int, (y + 400 * k) % 400 = y % 400 by omega] using hle
  · rw [dateToMjd_eq hmonth.1] at hday ⊢
    unfold marchYear at hday ⊢
    simp only
    split at hday <;> omega

/-! ## The order of dates -/

/-- The first day of a month, where months are counted on over the years. -/
def firstOfMonth (n : Int) : Int := dateToMjd (n / 12) (n % 12 + 1) 1

theorem firstOfMonth_succ (n : Int) : firstOfMonth (n + 1) = firstOfMonth n + daysInMonth (n / 12) (n % 12 + 1) := by
  unfold firstOfMonth
  rw [daysInMonth_eq, dateToMjd_eq (by omega), dateToMjd_eq (by omega)]
  have hy : (n + 1) / 12 = if n % 12 = 11 then n / 12 + 1 else n / 12 := by omega
  have hmo : (n + 1) % 12 = if n % 12 = 11 then 0 else n % 12 + 1 := by omega
  have hlo := Int.emod_nonneg n (show (12 : Int) ≠ 0 by decide)
  have hhi := Int.emod_lt_of_pos n (show (0 : Int) < 12 by decide)
  rw [hy, hmo]
  generalize n % 12 = mo at hlo hhi ⊢
  generalize n / 12 = y
  unfold marchYear
  interval_cases mo <;> simp
  all_goals omega

theorem firstOfMonth_le {m n : Int} (h : m ≤ n) : firstOfMonth m ≤ firstOfMonth n := by
  refine monotone_int_of_le_succ (fun n => ?_) h
  have hdays : 0 < daysInMonth (n / 12) (n % 12 + 1) := by
    rw [daysInMonth_eq]
    have hlo := Int.emod_nonneg n (show (12 : Int) ≠ 0 by decide)
    have hhi := Int.emod_lt_of_pos n (show (0 : Int) < 12 by decide)
    generalize n % 12 = mo at hlo hhi ⊢
    split
    · decide
    · interval_cases mo <;> decide
  rw [firstOfMonth_succ]
  omega

theorem IsDate.mem_month (h : IsDate y mo d) :
    firstOfMonth (12 * y + mo - 1) ≤ dateToMjd y mo d ∧ dateToMjd y mo d < firstOfMonth (12 * y + mo - 1 + 1) := by
  obtain ⟨hmonth, hday⟩ := h
  have hy : (12 * y + mo - 1) / 12 = y := by omega
  have hmo : (12 * y + mo - 1) % 12 + 1 = mo := by omega
  rw [firstOfMonth_succ, firstOfMonth, hy, hmo, dateToMjd_eq hmonth.1, dateToMjd_eq hmonth.1]
  omega

theorem dateToMjd_lt (h : IsDate y mo d) (h' : IsDate y' mo' d') (hlt : y < y' ∨ y = y' ∧ (mo < mo' ∨ mo = mo' ∧ d < d')) :
    dateToMjd y mo d < dateToMjd y' mo' d' := by
  have hhi := h.mem_month.2
  have hlo := h'.mem_month.1
  by_cases hsame : y = y' ∧ mo = mo'
  · obtain ⟨rfl, rfl⟩ := hsame
    rw [dateToMjd_eq h.month.1, dateToMjd_eq h.month.1]
    omega
  · have hmonth := h.month
    have hmonth' := h'.month
    have hle := firstOfMonth_le (show 12 * y + mo - 1 + 1 ≤ 12 * y' + mo' - 1 by omega)
    omega

theorem mjdToDate_dateToMjd (h : IsDate y mo d) : mjdToDate (dateToMjd y mo d) = (y, mo, d) := by
  obtain ⟨hdate, hday⟩ := mjdToDate_exact (dateToMjd y mo d)
  generalize mjdToDate (dateToMjd y mo d) = x at hdate hday
  obtain ⟨y', mo', d'⟩ := x
  by_contra hne
  have hlt := mt (dateToMjd_lt hdate h) (by omega)
  have hgt := mt (dateToMjd_lt h hdate) (by omega)
  simp only [Prod.mk.injEq] at hne hlt hgt
  omega

/-! ## Years of an `int` -/

/-- `date_to_mjd` of an `int` year: `y - 1` is computed as an `int` and has no value for the smallest one. -/
def dateToMjdInt (y mo d : Int) : Option Int := if mo ≤ 2 ∧ y = -2 ^ 31 then none else some (dateToMjd y mo d)

theorem dateToMjdInt_eq_some {m : Int} : dateToMjdInt y mo d = some m ↔ ¬ (mo ≤ 2 ∧ y = -2 ^ 31) ∧ dateToMjd y mo d = m := by
  unfold dateToMjdInt
  split
  · next hlow => exact ⟨(nofun), fun h => absurd hlow h.1⟩
  · next hlow => rw [and_iff_right hlow, Option.some_inj]

/-- Every day has a valid date, days and dates lead to each other, and later dates are later days, unless the date is in January or February
of the smallest year. -/
theorem calendar_exact_iff (m y mo d y' mo' d' : Int) :
    (IsDate (mjdToDate m).1 (mjdToDate m).2.1 (mjdToDate m).2.2 ∧
      (dateToMjdInt (mjdToDate m).1 (mjdToDate m).2.1 (mjdToDate m).2.2 = some m ↔
        ¬ ((mjdToDate m).2.1 ≤ 2 ∧ (mjdToDate m).1 = -2 ^ 31))) ∧
    (IsDate y mo d → ((dateToMjdInt y mo d).map mjdToDate = some (y, mo, d) ↔ ¬ (mo ≤ 2 ∧ y = -2 ^ 31))) ∧
    (IsDate y mo d → IsDate y' mo' d' → y < y' ∨ y = y' ∧ (mo < mo' ∨ mo = mo' ∧ d < d') →
      ((∃ m m', dateToMjdInt y mo d = some m ∧ dateToMjdInt y' mo' d' = some m' ∧ m < m') ↔
        ¬ (mo ≤ 2 ∧ y = -2 ^ 31) ∧ ¬ (mo' ≤ 2 ∧ y' = -2 ^ 31))) := by
  refine ⟨?_, fun h => ?_, fun h h' hlt => ?_⟩
  · obtain ⟨hdate, hday⟩ := mjdToDate_exact m
    exact ⟨hdate, by rw [dateToMjdInt_eq_some, and_iff_left hday]⟩
  · simp [dateToMjdInt_eq_some, mjdToDate_dateToMjd h]
  · simp [dateToMjdInt_eq_some, dateToMjd_lt h h' hlt]

/-- The first of January of the smallest year. -/
theorem calendar_overflows : IsDate (-2 ^ 31) 1 1 ∧ dateToMjdInt (-2 ^ 31) 1 1 = none ∧
    mjdToDate (dateToMjd (-2 ^ 31) 1 1) = (-2 ^ 31, 1, 1) :=
  ⟨⟨by decide, by decide⟩, by decide, by decide⟩

end DvbIpiTools.DateUtil
