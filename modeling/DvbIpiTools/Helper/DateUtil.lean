import DvbIpiTools.Bim.Io
import Mathlib.Tactic.IntervalCases
import DvbIpiTools.Utils.CivilDate

set_option autoImplicit false

/-! # Date and time texts (`dateutil.c`, `iso8601_utc_secs`)

Four-digit years keep every intermediate value far inside a C `long`, so the arithmetic is on `Int`
with C's truncating division. -/

namespace DvbIpiTools.DateUtil

open Bim

def isDigit (c : UInt8) : Bool := 48 ≤ c && c ≤ 57

/-- `s[i]`; the terminator behind the end. -/
def charAt (s : List UInt8) (i : Nat) : UInt8 := s.getD i 0

/-- `all_digits(s + i, n)`. -/
def allDigits (s : List UInt8) (i n : Nat) : Bool := (List.range n).all fun j => isDigit (charAt s (i + j))

/-- The value of `n` digits from `i` on. -/
def digits (s : List UInt8) (i n : Nat) : Int :=
  (List.range n).foldl (fun v j => v * 10 + ((charAt s (i + j)).toNat - 48 : Int)) 0

def daysInMonth (y mo : Int) : Int :=
  if mo = 2 ∧ Int.tmod y 4 = 0 ∧ (Int.tmod y 100 ≠ 0 ∨ Int.tmod y 400 = 0) then 29
  else [31, 28, 31, 30, 31, 30, 31, 31, 30, 31, 30, 31].getD (mo - 1).toNat 0

/-- `iso8601_t`; `offMin` is `none` unless the offset is numeric. -/
structure Iso8601 where
  y : Int
  mo : Int
  d : Int
  h : Int
  mi : Int
  s : Int
  offMin : Option Int

/-- The part of `iso8601_split` behind the seconds: the fraction is skipped, then a zone or the end. -/
def splitOffset (tail : List UInt8) : Option (Option Int) := do
  let tail ←
    if charAt tail 0 = 46 then
      if isDigit (charAt tail 1) then some ((tail.drop 1).dropWhile isDigit) else none
    else some tail
  if tail = [90] then return none
  else if tail = [] then return none
  else if (charAt tail 0 = 43 ∨ charAt tail 0 = 45) ∧ tail.length = 6 ∧ charAt tail 3 = 58 ∧
      allDigits tail 1 2 ∧ allDigits tail 4 2 then
    let oh := digits tail 1 2
    let om := digits tail 4 2
    if oh > 23 ∨ om > 59 then none
    else return some ((oh * 60 + om) * if charAt tail 0 = 45 then -1 else 1)
  else none

def iso8601Split (s : List UInt8) : Option Iso8601 := do
  if s.length < 19 ∨ charAt s 4 ≠ 45 ∨ charAt s 7 ≠ 45 ∨ charAt s 10 ≠ 84 ∨ charAt s 13 ≠ 58 ∨
      charAt s 16 ≠ 58 then none
  else if !allDigits s 0 4 || !allDigits s 5 2 || !allDigits s 8 2 || !allDigits s 11 2 ||
      !allDigits s 14 2 || !allDigits s 17 2 then none
  else
    let y := digits s 0 4
    let mo := digits s 5 2
    let d := digits s 8 2
    let h := digits s 11 2
    let mi := digits s 14 2
    let sec := digits s 17 2
    if mo < 1 ∨ mo > 12 ∨ d < 1 ∨ d > daysInMonth y mo then none
    else if h > 23 ∨ mi > 59 ∨ sec > 59 then none
    else do
      let offMin ← splitOffset (s.drop 19)
      return ⟨y, mo, d, h, mi, sec, offMin⟩

def mjdUnixEpoch : Int := 40587

def dateToMjd (y mo d : Int) : Int :=
  let yy := if mo ≤ 2 then y - 1 else y
  let era := Int.tdiv (if yy ≥ 0 then yy else yy - 399) 400
  let yoe := yy - era * 400
  let doy := Int.tdiv (153 * (mo + if mo > 2 then -3 else 9) + 2) 5 + d - 1
  let doe := yoe * 365 + Int.tdiv yoe 4 - Int.tdiv yoe 100 + doy
  era * 146097 + doe - 719468 + mjdUnixEpoch

/-- `mjd_to_date`: year, month, day. -/
def mjdToDate (mjd : Int) : Int × Int × Int :=
  let z := mjd - mjdUnixEpoch + 719468
  let era := Int.tdiv (if z ≥ 0 then z else z - 146096) 146097
  let doe := z - era * 146097
  let yoe := Int.tdiv (doe - Int.tdiv doe 1460 + Int.tdiv doe 36524 - Int.tdiv doe 146096) 365
  let doy := doe - (365 * yoe + Int.tdiv yoe 4 - Int.tdiv yoe 100)
  let mp := Int.tdiv (5 * doy + 2) 153
  let mo := if mp < 10 then mp + 3 else mp - 9
  (yoe + era * 400 + if mo ≤ 2 then 1 else 0, mo, doy - Int.tdiv (153 * mp + 2) 5 + 1)

def iso8601MjdMinutes (t : Iso8601) : Int := dateToMjd t.y t.mo t.d * 1440 + t.h * 60 + t.mi - t.offMin.getD 0

def iso8601UtcSecs (iso : CStr) : Option Int := do
  let t ← iso8601Split iso.val
  return (dateToMjd t.y t.mo t.d - mjdUnixEpoch) * 86400 + t.h * 3600 + t.mi * 60 + t.s - t.offMin.getD 0 * 60

example : iso8601UtcSecs ⟨text "2030-01-01T13:00:00+02:00", by decide +kernel⟩ = some 1893495600 := by
  decide +kernel

/-! # Dates of days

`mjd_to_date` yields a date of the calendar, and `date_to_mjd` the day it came from. -/

open CivilDate

/-- A date as the calendar has it. -/
structure IsDate (y mo d : Int) : Prop where
  month : 1 ≤ mo ∧ mo ≤ 12
  day : 1 ≤ d ∧ d ≤ daysInMonth y mo

/-- The days of a month that begins at `monthStart mp` of a year from March on. -/
theorem daysInMonth_of_place {yoe mp doy : Nat} (era : Nat) (hmp : mp < 12) (hdoy : yearStart yoe + doy < yearStart (yoe + 1))
    (hlt : doy < monthStart (mp + 1)) :
    (doy : Int) - monthStart mp + 1 ≤
      daysInMonth ((yoe + era * 400 : Int) + if mp < 10 then 0 else 1) (if mp < 10 then mp + 3 else mp - 9) := by
  have hyear := yearStart_succ_le yoe
  interval_cases mp <;> simp [monthStart, daysInMonth] at hlt ⊢
  all_goals try omega
  -- the last month is February: its 29th day is there in leap years only
  split
  · omega
  · next hleap =>
    by_contra hlong
    obtain ⟨h4, h100⟩ := @leap_of_long yoe (by omega)
    simp only [Int.tmod_eq_emod_of_nonneg (show (0 : Int) ≤ yoe + era * 400 + 1 by omega)] at hleap
    omega

theorem mjdToDate_eq (m : Nat) : ∃ era yoe mp doy : Nat, yoe < 400 ∧ mp < 12 ∧
    yearStart yoe + doy < yearStart (yoe + 1) ∧ monthStart mp ≤ doy ∧ doy < monthStart (mp + 1) ∧
    m + 678881 = era * 146097 + yearStart yoe + doy ∧
    mjdToDate m = ((yoe + era * 400 : Int) + if mp < 10 then 0 else 1, if mp < 10 then (mp : Int) + 3 else mp - 9,
      (doy : Int) - monthStart mp + 1) := by
  have hdoe : (m + 678881) % 146097 < 146097 := Nat.mod_lt _ (by omega)
  have hsum : m + 678881 = (m + 678881) / 146097 * 146097 + (m + 678881) % 146097 := by omega
  generalize (m + 678881) / 146097 = era at hsum
  generalize (m + 678881) % 146097 = doe at hsum hdoe
  have hlo := yearStart_yearOfEra_le hdoe
  have hhi := lt_yearStart_yearOfEra hdoe
  have hyoe := yearOfEra_lt hdoe
  obtain ⟨doy, hdoy⟩ := Nat.exists_eq_add_of_le hlo
  have hshort := yearStart_succ_le (yearOfEra doe)
  have hlong : yearStart (yearOfEra doe) + doy < yearStart (yearOfEra doe + 1) := by omega
  have hmp : monthOfYear doy < 12 := monthOfYear_lt (by omega)
  have hplace : m + 678881 = era * 146097 + yearStart (yearOfEra doe) + doy := by rw [hsum, add_assoc, ← hdoy]
  refine ⟨era, yearOfEra doe, monthOfYear doy, doy, hyoe, hmp, hlong, monthStart_monthOfYear_le doy,
    lt_monthStart_monthOfYear doy, hplace, ?_⟩
  have hz : (m : Int) - mjdUnixEpoch + 719468 = ((era * 146097 + doe : Nat) : Int) := by
    unfold mjdUnixEpoch
    omega
  have hera : Int.tdiv ((era * 146097 + doe : Nat) : Int) 146097 = era := by
    rw [Int.tdiv_eq_ediv_of_nonneg (by omega)]
    omega
  have hrest : ((era * 146097 + doe : Nat) : Int) - (era : Int) * 146097 = doe := by omega
  have hyear : Int.tdiv ((doe : Int) - Int.tdiv doe 1460 + Int.tdiv doe 36524 - Int.tdiv doe 146096) 365
      = yearOfEra doe := by
    unfold yearOfEra withoutLeapDays
    simp only [Int.tdiv_eq_ediv_of_nonneg (Int.natCast_nonneg doe)]
    rw [Int.tdiv_eq_ediv_of_nonneg (by omega)]
    omega
  have hday : (doe : Int) - (365 * yearOfEra doe + Int.tdiv (yearOfEra doe) 4 - Int.tdiv (yearOfEra doe) 100) = doy := by
    have hstart : yearStart (yearOfEra doe) = 365 * yearOfEra doe + yearOfEra doe / 4 - yearOfEra doe / 100 := by
      unfold yearStart
      omega
    simp only [Int.tdiv_eq_ediv_of_nonneg (Int.natCast_nonneg (yearOfEra doe))]
    omega
  have hmonth : Int.tdiv (5 * (doy : Int) + 2) 153 = monthOfYear doy := by
    unfold monthOfYear
    rw [Int.tdiv_eq_ediv_of_nonneg (by omega)]
    omega
  have hfirst : Int.tdiv (153 * (monthOfYear doy : Int) + 2) 5 = monthStart (monthOfYear doy) := by
    unfold monthStart
    rw [Int.tdiv_eq_ediv_of_nonneg (by omega)]
    omega
  unfold mjdToDate
  simp only [hz, if_pos (Int.natCast_nonneg _), hera, hrest, hyear, hday, hmonth, hfirst]
  generalize monthOfYear doy = mp at hmp ⊢
  by_cases h10 : mp < 10
  · rw [if_pos h10, if_pos h10, if_pos (show (mp : Int) < 10 by omega), if_neg (show ¬ (mp : Int) + 3 ≤ 2 by omega)]
  · rw [if_neg h10, if_neg h10, if_neg (show ¬ (mp : Int) < 10 by omega), if_pos (show (mp : Int) - 9 ≤ 2 by omega)]

theorem tdiv_corrected {n : Int} (hn : 0 < n) (z : Int) : Int.tdiv (if z ≥ 0 then z else z - (n - 1)) n = z / n := by
  split
  · next h => exact Int.tdiv_eq_ediv_of_nonneg h
  rename_i h
  have hneg : z - (n - 1) = -(n - 1 - z) := by omega
  rw [hneg, Int.neg_tdiv, Int.tdiv_eq_ediv_of_nonneg (by omega), Int.neg_eq_comm, eq_comm, Int.ediv_eq_iff_of_pos hn]
  have hmod := Int.emod_add_mul_ediv z n
  have hlt := Int.emod_lt_of_pos z hn
  have hnonneg := Int.emod_nonneg z (Int.ne_of_gt hn)
  rw [Int.neg_mul, Int.mul_comm]
  omega

/-- The years from March on. -/
def marchYear (y mo : Int) : Int := if mo ≤ 2 then y - 1 else y

theorem dateToMjd_eq {y mo d : Int} (hmo : 1 ≤ mo) : dateToMjd y mo d = 365 * marchYear y mo + marchYear y mo / 4 - marchYear y mo / 100 +
    marchYear y mo / 400 + (153 * (mo + if mo > 2 then -3 else 9) + 2) / 5 + d - 678882 := by
  have hera := tdiv_corrected (n := 400) (by decide) (marchYear y mo)
  unfold dateToMjd mjdUnixEpoch
  unfold marchYear at hera ⊢
  generalize (if mo ≤ 2 then y - 1 else y) = yy at hera ⊢
  simp only at hera ⊢
  rw [show (400 : Int) - 1 = 399 from rfl] at hera
  rw [hera, Int.tdiv_eq_ediv_of_nonneg (a := yy - yy / 400 * 400) (by omega),
    Int.tdiv_eq_ediv_of_nonneg (by omega), Int.tdiv_eq_ediv_of_nonneg (by split <;> omega)]
  omega

theorem dateToMjd_place {era yoe mp : Nat} (hyoe : yoe < 400) (hmp : mp < 12) (d : Int) :
    dateToMjd ((yoe + era * 400 : Int) + if mp < 10 then 0 else 1) (if mp < 10 then (mp : Int) + 3 else mp - 9) d =
      (era * 146097 + yearStart yoe + monthStart mp : Int) + d - 1 - 678881 := by
  have hyear : marchYear ((yoe + era * 400 : Int) + if mp < 10 then 0 else 1) (if mp < 10 then (mp : Int) + 3 else mp - 9) =
      yoe + era * 400 := by
    unfold marchYear
    split <;> split <;> omega
  rw [dateToMjd_eq (by split <;> omega), hyear]
  unfold yearStart monthStart
  split <;> split <;> omega

theorem isDate_mjdToDate (m : Nat) : IsDate (mjdToDate m).1 (mjdToDate m).2.1 (mjdToDate m).2.2 := by
  obtain ⟨era, yoe, mp, doy, -, hmp, hyear, hlo, hhi, -, heq⟩ := mjdToDate_eq m
  have hday := daysInMonth_of_place era hmp hyear hhi
  rw [heq]
  refine ⟨?_, by simp only; omega, hday⟩
  simp only
  split <;> omega

theorem dateToMjd_mjdToDate (m : Nat) : dateToMjd (mjdToDate m).1 (mjdToDate m).2.1 (mjdToDate m).2.2 = m := by
  obtain ⟨era, yoe, mp, doy, hyoe, hmp, -, -, -, hsum, heq⟩ := mjdToDate_eq m
  rw [heq]
  simp only
  rw [dateToMjd_place hyoe hmp]
  omega

end DvbIpiTools.DateUtil
