import Mathlib.Tactic.Positivity
import DvbIpiTools.Bim.Codec.Times

set_option autoImplicit false

/-! # Instants

The instant that a dateTime text denotes, and that the texts the decoders print denote what they were printed from. -/

namespace DvbIpiTools.Bim.Codec

open DateUtil List

/-- The milliseconds in UTC from the first day on, of a text that `iso8601_split` and `iso_fraction_ms` accept. -/
def utcMs (v : List UInt8) : Option Int := do
  let t ← iso8601Split v
  let frac ← isoFractionMs v
  return (iso8601MjdMinutes t * 60 + t.s) * 1000 + frac

/-! ## What a text that splits looks like -/

theorem decValue_lt {ds : List UInt8} (h : ∀ c ∈ ds, isDigit c = true) : decValue ds < 10 ^ ds.length := by
  induction ds using reverseRecOn with
  | nil => simp [decValue]
  | append_singleton ds c ih =>
    have hlt := ih fun d hd => h d (mem_append_left _ hd)
    have hc := isDigit_iff.1 (h c (by simp))
    rw [length_append, length_singleton, pow_succ]
    simp only [decValue, foldl_append, foldl_cons, foldl_nil] at hlt ⊢
    omega

variable {v : List UInt8} {ms : Nat}

theorem isoFractionMs_lt (h : isoFractionMs v = some ms) : ms < 1000 := by
  unfold isoFractionMs at h
  simp only at h
  split at h
  · cases h
    decide
  split at h
  · cases h
  cases h
  generalize hrun : takeWhile isDigit _ = ds
  have hds : ∀ c ∈ ds, isDigit c = true := fun c hc => mem_takeWhile_imp (hrun ▸ hc)
  have hlt : decValue (ds.take 3) < 10 ^ (ds.take 3).length :=
    decValue_lt fun c hc => hds c (mem_of_mem_take hc)
  calc decValue (ds.take 3) * 10 ^ (3 - ds.length)
      < 10 ^ (ds.take 3).length * 10 ^ (3 - ds.length) := Nat.mul_lt_mul_of_pos_right hlt (by positivity)
    _ = 10 ^ 3 := by rw [← pow_add, length_take]; congr 1; omega

/-! ## What is printed splits -/

theorem two_digits {n : Nat} (h : n < 100) : isDigit (digit (n / 10)) = true ∧ isDigit (digit (n % 10)) = true ∧
    (((digit (n / 10)).toNat : Int) - 48) * 10 + ((digit (n % 10)).toNat - 48) = n := by
  refine ⟨isDigit_digit (by omega), isDigit_digit (by omega), ?_⟩
  rw [toNat_digit (show n / 10 < 10 by omega), toNat_digit (show n % 10 < 10 by omega)]
  omega

theorem four_digits {n : Nat} (h : n < 10000) :
    isDigit (digit (n / 1000)) = true ∧ isDigit (digit (n / 100 % 10)) = true ∧ isDigit (digit (n / 10 % 10)) = true ∧
      isDigit (digit (n % 10)) = true ∧
    (((((digit (n / 1000)).toNat : Int) - 48) * 10 + ((digit (n / 100 % 10)).toNat - 48)) * 10 +
      ((digit (n / 10 % 10)).toNat - 48)) * 10 + ((digit (n % 10)).toNat - 48) = n := by
  refine ⟨isDigit_digit (by omega), isDigit_digit (by omega), isDigit_digit (by omega), isDigit_digit (by omega), ?_⟩
  rw [toNat_digit (show n / 1000 < 10 by omega), toNat_digit (show n / 100 % 10 < 10 by omega),
    toNat_digit (show n / 10 % 10 < 10 by omega), toNat_digit (show n % 10 < 10 by omega)]
  omega

theorem daysInMonth_le (y : Int) {mo : Nat} (h : 1 ≤ mo ∧ mo ≤ 12) : daysInMonth y mo ≤ 31 := by
  obtain ⟨hlo, hhi⟩ := h
  unfold daysInMonth
  split
  · decide
  · interval_cases mo <;> decide

theorem iso8601Split_printed {y mo d h mi s : Nat} (hy : y < 10000) (hdate : IsDate y mo d) (hh : h < 24) (hmi : mi < 60)
    (hs : s < 60) (tail : List UInt8) :
    iso8601Split (padded 4 y ++ [45] ++ padded 2 mo ++ [45] ++ padded 2 d ++ [84] ++
      (padded 2 h ++ [58] ++ padded 2 mi ++ [58] ++ padded 2 s) ++ tail) =
      (splitOffset tail).map fun off => ⟨y, mo, d, h, mi, s, off⟩ := by
  have hmonth := hdate.month
  have hday := hdate.day
  have hlast := @daysInMonth_le y mo (by omega)
  have hmo : mo < 100 := by omega
  have hd : d < 100 := by omega
  have hh' : h < 100 := by omega
  have hmi' : mi < 100 := by omega
  have hs' : s < 100 := by omega
  rw [padded_four hy, padded_two hmo, padded_two hd, padded_two hh', padded_two hmi', padded_two hs']
  unfold iso8601Split
  simp [charAt, allDigits, digits, range_succ]
  simp only [four_digits hy, two_digits hmo, two_digits hd, two_digits hh', two_digits hmi', two_digits hs',
    Bool.true_eq_false, or_self, if_false]
  rw [if_neg (by omega), if_neg (by omega), if_neg (by omega)]
  cases splitOffset tail <;> rfl

variable {f : Nat}

theorem fractionText_spec (hpos : 0 < f) (h : f < 1000) :
    ∃ d ds, fractionText f = 46 :: d :: ds ∧ (∀ c ∈ d :: ds, isDigit c = true) ∧ ds.length ≤ 2 ∧
      decValue (d :: ds) * 10 ^ (2 - ds.length) = f := by
  have hzero : ∀ {n}, n < 10 → n ≠ 0 → digit n ≠ 48 := fun hn hne heq => by
    have := congrArg UInt8.toNat heq
    rw [toNat_digit hn] at this
    exact hne (by simpa using this)
  have ha : f / 100 < 10 := by omega
  have hb : f / 10 % 10 < 10 := by omega
  have hc : f % 10 < 10 := by omega
  rw [fractionText, if_neg (by omega), padded_three h]
  by_cases hc0 : f % 10 = 0
  · by_cases hb0 : f / 10 % 10 = 0
    · refine ⟨digit (f / 100), [], ?_, by simp [isDigit_digit ha], by decide, ?_⟩
      · have ha0 := hzero ha (by omega)
        simp [hc0, hb0, ha0, show digit 0 = 48 from rfl]
      · simp only [decValue, foldl_cons, foldl_nil, toNat_digit ha, length_nil]
        omega
    · refine ⟨digit (f / 100), [digit (f / 10 % 10)], ?_, by simp [isDigit_digit ha, isDigit_digit hb], by simp, ?_⟩
      · have hb0' := hzero hb hb0
        simp [hc0, hb0', show digit 0 = 48 from rfl]
      · simp only [decValue, foldl_cons, foldl_nil, toNat_digit ha, toNat_digit hb, length_singleton]
        omega
  · refine ⟨digit (f / 100), [digit (f / 10 % 10), digit (f % 10)], ?_,
      by simp [isDigit_digit ha, isDigit_digit hb, isDigit_digit hc], by simp, ?_⟩
    · have hc0' := hzero hc hc0
      simp [hc0']
    · simp only [decValue, foldl_cons, foldl_nil, toNat_digit ha, toNat_digit hb, toNat_digit hc,
        length_cons, length_nil]
      omega

theorem splitOffset_fraction (h : f < 1000) : splitOffset (fractionText f ++ [90]) = some none := by
  obtain rfl | hpos := Nat.eq_zero_or_pos f
  · rfl
  obtain ⟨d, ds, htext, hds, -, -⟩ := fractionText_spec hpos h
  have hd := hds d mem_cons_self
  have hrun := (@takeWhile_digits (d :: ds) [90] hds rfl).2
  rw [htext]
  unfold splitOffset
  simp only [cons_append] at hrun ⊢
  simp [charAt, hd, hrun]

theorem isoFractionMs_printed (h : f < 1000) {date clock : List UInt8} (hdate : 84 ∉ date) {h1 h2 m1 m2 s1 s2 : UInt8}
    (hclock : clock = [h1, h2, 58, m1, m2, 58, s1, s2]) :
    isoFractionMs (date ++ [84] ++ clock ++ (fractionText f ++ [90])) = some f := by
  have hdrop : (date ++ [84] ++ clock ++ (fractionText f ++ [90])).dropWhile (· ≠ 84) =
      84 :: clock ++ (fractionText f ++ [90]) := by
    rw [append_assoc, append_assoc, dropWhile_append_of_pos]
    · rfl
    · intro c hc
      have hne : c ≠ 84 := fun heq => hdate (heq ▸ hc)
      simpa using hne
  unfold isoFractionMs
  rw [hdrop, hclock]
  obtain rfl | hpos := Nat.eq_zero_or_pos f
  · rfl
  obtain ⟨d, ds, htext, hds, hlen, hval⟩ := fractionText_spec hpos h
  have hrun := (@takeWhile_digits (d :: ds) [90] hds rfl).1
  rw [htext]
  have hrest : ds.drop 2 = [] := drop_of_length_le hlen
  have hall : ds.take 2 = ds := take_of_length_le hlen
  simp only [cons_append] at hrun ⊢
  simp [charAt, hrun, hrest, hall, hval]

/-! ## The texts of the decoders -/

theorem mjdToDate_window {m : Nat} (h : m ≤ 0xFFFFF) :
    ∃ y mo d : Nat, mjdToDate m = ((y : Int), (mo : Int), (d : Int)) ∧ y < 10000 ∧ IsDate y mo d ∧ dateToMjd y mo d = m := by
  have hdate := isDate_mjdToDate m
  have hback := dateToMjd_mjdToDate m
  obtain ⟨era, yoe, mp, doy, hyoe, hmp, -, -, -, hsum, heq⟩ := mjdToDate_eq m
  have hyear : 0 ≤ (mjdToDate m).1 ∧ (mjdToDate m).1 < 10000 := by
    rw [heq]
    split <;> omega
  obtain ⟨y, hy⟩ := Int.eq_ofNat_of_zero_le hyear.1
  obtain ⟨mo, hmo⟩ := Int.eq_ofNat_of_zero_le (Int.le_trans (by decide) hdate.month.1)
  obtain ⟨d, hd⟩ := Int.eq_ofNat_of_zero_le (Int.le_trans (by decide) hdate.day.1)
  rw [hy, hmo, hd] at hdate hback
  exact ⟨y, mo, d, Prod.ext hy (Prod.ext hmo hd), by omega, hdate, hback⟩

theorem paddedInt_natCast (w n : Nat) : paddedInt w n = padded w n := by
  rw [paddedInt, if_neg (by omega), Int.natAbs_natCast]

theorem utcMs_instantText {m : Nat} (hm : m ≤ 0xFFFFF) (hms : ms < 86400000) :
    utcMs (instantText m ms) = some ((m : Int) * 86400000 + ms) := by
  obtain ⟨y, mo, d, heq, hy, hdate, hback⟩ := mjdToDate_window hm
  have hmonth := hdate.month
  have hday := hdate.day
  have hlast := @daysInMonth_le y mo (by omega)
  have hsplit := iso8601Split_printed hy hdate (show ms / 1000 / 3600 < 24 by omega)
    (show ms / 1000 % 3600 / 60 < 60 by omega) (show ms / 1000 % 60 < 60 by omega) (fractionText (ms % 1000) ++ [90])
  rw [splitOffset_fraction (by omega)] at hsplit
  have hno : (84 : UInt8) ∉ padded 4 y ++ [45] ++ padded 2 mo ++ [45] ++ padded 2 d := by
    have hne : ∀ {n}, n < 10 → (84 : UInt8) ≠ digit n := fun hn => (digit_ne hn rfl).symm
    rw [padded_four hy, padded_two (show mo < 100 by omega), padded_two (show d < 100 by omega)]
    simp only [cons_append, nil_append, mem_cons, not_mem_nil, or_false, not_or]
    refine ⟨hne ?_, hne ?_, hne ?_, hne ?_, by decide, hne ?_, hne ?_, by decide, hne ?_, hne ?_⟩ <;> omega
  have hclock : clockText (ms / 1000) = [digit (ms / 1000 / 3600 / 10), digit (ms / 1000 / 3600 % 10), 58,
      digit (ms / 1000 % 3600 / 60 / 10), digit (ms / 1000 % 3600 / 60 % 10), 58, digit (ms / 1000 % 60 / 10),
      digit (ms / 1000 % 60 % 10)] := by
    rw [clockText, padded_two (show ms / 1000 / 3600 < 100 by omega), padded_two (show ms / 1000 % 3600 / 60 < 100 by omega),
      padded_two (show ms / 1000 % 60 < 100 by omega)]
    rfl
  have hfrac := isoFractionMs_printed (show ms % 1000 < 1000 by omega) hno hclock
  have htext : instantText m ms = padded 4 y ++ [45] ++ padded 2 mo ++ [45] ++ padded 2 d ++ [84] ++
      clockText (ms / 1000) ++ (fractionText (ms % 1000) ++ [90]) := by
    rw [instantText, dateText, heq]
    simp only [paddedInt_natCast, append_assoc]
  rw [clockText] at htext hfrac
  rw [utcMs, htext, hsplit, hfrac]
  simp only [Option.map_some, Option.bind_eq_bind, Option.bind_some, Option.pure_def, iso8601MjdMinutes, hback,
    Option.getD_none, Option.some.injEq]
  omega

/-! # The range of the TV-Anytime dates

The encoders take every day that fits 32 bits, the decoders stop at day 0xFFFFF. Within the days that both take, a dateTime comes back as
the same instant and a date as the same text. -/

open BitList Coder DateUtil

/-- The last day that the decoders take. -/
def lastDecodedDay : Nat := 0xFFFFF

/-! ## dateTimes -/

variable {bits : List Bool}

/-- An accepted dateTime is written as the day and the millisecond of its instant. -/
theorem tvaDatetimeEncode_eq (h : tvaDatetimeEncode v = some bits) :
    ∃ day ms : Nat, utcMs v = some ((day : Int) * 86400000 + ms) ∧ day < 2 ^ 32 ∧ ms < 86400000 ∧
      bits = ofNat 32 day ++ ofNat 32 ms := by
  obtain ⟨t, ht, h⟩ := Option.bind_eq_some_iff.1 h
  obtain ⟨frac, hfrac, h⟩ := Option.bind_eq_some_iff.1 h
  have hlt := isoFractionMs_lt hfrac
  simp only [Int.fdiv_eq_ediv_of_nonneg _ (show (0 : Int) ≤ 86400 by decide)] at h
  split at h
  · cases h
  rename_i hrange
  have hbits := Option.some.inj h
  generalize hsec : t.h * 3600 + t.mi * 60 + t.s - t.offMin.getD 0 * 60 = sec at hrange hbits
  generalize hday : dateToMjd t.y t.mo t.d = day at hrange hbits
  refine ⟨(day + sec / 86400).toNat, ((sec - sec / 86400 * 86400) * 1000 + frac).toNat, ?_, by omega, by omega,
    hbits.symm⟩
  rw [utcMs, ht, hfrac]
  simp only [Option.bind_eq_bind, Option.bind_some, Option.pure_def, iso8601MjdMinutes, hday, Option.some.injEq]
  omega

theorem tvaDatetimeDecode_of_le {day : Nat} (hday : day ≤ lastDecodedDay) (hms : ms < 86400000) :
    tvaDatetimeDecode (ofNat 32 day ++ ofNat 32 ms) = some (instantText day ms, []) := by
  have hok : (decide (ms < 86400000) && decide (day ≤ 0xFFFFF)) = true := by
    simp only [Bool.and_eq_true, decide_eq_true_iff]
    exact ⟨hms, hday⟩
  have hread : Reads tvaDatetimeDecode (ofNat 32 day ++ (ofNat 32 ms ++ ([] ++ []))) (instantText day ms) := by
    unfold lastDecodedDay at hday
    refine (reads_getBits (by omega)).bind ((reads_getBits (by omega)).bind ((reads_require hok).bind ?_))
    exact reads_pure _
  exact hread.all

theorem tvaDatetimeDecode_of_lt {day : Nat} (hday : lastDecodedDay < day) (h32 : day < 2 ^ 32) (hms : ms < 2 ^ 32) :
    tvaDatetimeDecode (ofNat 32 day ++ ofNat 32 ms) = none := by
  have hbad : (decide (ms < 86400000) && decide (day ≤ 0xFFFFF)) = false := by
    unfold lastDecodedDay at hday
    rw [Bool.and_eq_false_iff, decide_eq_false_iff_not, decide_eq_false_iff_not]
    omega
  unfold tvaDatetimeDecode
  have hrest := (reads_getBits hms) []
  rw [append_nil] at hrest
  rw [bits_bind (reads_getBits h32 _), bits_bind hrest]
  exact require_none hbad _ _

theorem tvaDatetime_roundTrip_iff (h : tvaDatetimeEncode v = some bits) :
    (∃ w ms, tvaDatetimeDecode bits = some (w, []) ∧ utcMs v = some ms ∧ utcMs w = some ms) ↔
      ∀ ms ∈ utcMs v, ms / 86400000 ≤ lastDecodedDay := by
  obtain ⟨day, ms, hutc, hday, hms, rfl⟩ := tvaDatetimeEncode_eq h
  rw [hutc]
  constructor
  · rintro ⟨w, _, hdec, -, -⟩ _ hmem
    cases hmem
    by_contra hgt
    rw [tvaDatetimeDecode_of_lt (by omega) hday (by omega)] at hdec
    cases hdec
  · intro hle
    have hle' := hle _ rfl
    have hin : day ≤ lastDecodedDay := by omega
    exact ⟨instantText day ms, _, tvaDatetimeDecode_of_le hin hms, rfl, utcMs_instantText hin hms⟩

/-! ## Dates -/

/-- The day that a date is read as, before anything is checked. -/
def calendarDay (v : List UInt8) : Option Int := do
  let (y, s) ← scanInt 4 v
  let s ← scanChars [45] s
  let (mo, s) ← scanInt 2 s
  let s ← scanChars [45] s
  let (d, _) ← scanInt 2 s
  return dateToMjd y mo d

/-- An accepted date is written as its day, and is the text that its day is printed as. -/
theorem tvaDateEncode_eq (h : tvaDateEncode v = some bits) :
    ∃ day : Nat, calendarDay v = some (day : Int) ∧ day < 2 ^ 32 ∧ v = dateText day ∧ bits = ofNat 32 day := by
  obtain ⟨⟨y, s1⟩, h1, h⟩ := Option.bind_eq_some_iff.1 h
  obtain ⟨s2, h2, h⟩ := Option.bind_eq_some_iff.1 h
  obtain ⟨⟨mo, s3⟩, h3, h⟩ := Option.bind_eq_some_iff.1 h
  obtain ⟨s4, h4, h⟩ := Option.bind_eq_some_iff.1 h
  obtain ⟨⟨d, s5⟩, h5, h⟩ := Option.bind_eq_some_iff.1 h
  simp only at h2 h3 h4 h5 h
  split at h
  · cases h
  split at h
  · cases h
  rename_i hrange
  simp only [not_or, not_not] at hrange
  obtain ⟨htext, hlo, hhi⟩ := hrange
  have hday : ((dateToMjd y mo d).toNat : Int) = dateToMjd y mo d := Int.toNat_of_nonneg (by omega)
  refine ⟨(dateToMjd y mo d).toNat, ?_, by omega, ?_, (Option.some.inj h).symm⟩
  · rw [hday, calendarDay]
    simp only [Option.bind_eq_bind, h1, h2, h3, h4, h5, Option.bind_some, Option.pure_def]
  · rw [hday, htext]

theorem tvaDate_roundTrip_iff (h : tvaDateEncode v = some bits) :
    tvaDateDecode bits = some (v, []) ↔ ∀ day ∈ calendarDay v, day ≤ lastDecodedDay := by
  obtain ⟨day, hday, h32, hv, rfl⟩ := tvaDateEncode_eq h
  rw [hday, hv]
  have hread := reads_getBits h32 []
  rw [append_nil] at hread
  unfold tvaDateDecode
  rw [bits_bind hread]
  constructor
  · intro hdec _ hmem
    cases hmem
    by_contra hgt
    rw [require_none (decide_eq_false (by unfold lastDecodedDay at hgt; omega))] at hdec
    cases hdec
  · intro hle
    have hle' := hle _ rfl
    rw [decide_eq_true (show day ≤ 0xFFFFF by unfold lastDecodedDay at hle'; omega)]
    rfl

/-! ## Both -/

/-- What is encoded is decoded as the same instant, or as the same date, just for the days up to the last one the decoders take. -/
theorem tvaDates_roundTrip_iff (v : List UInt8) : (∀ bits, tvaDatetimeEncode v = some bits →
      ((∃ w ms, tvaDatetimeDecode bits = some (w, []) ∧ utcMs v = some ms ∧ utcMs w = some ms) ↔
        ∀ ms ∈ utcMs v, ms / 86400000 ≤ lastDecodedDay)) ∧ ∀ bits, tvaDateEncode v = some bits →
      (tvaDateDecode bits = some (v, []) ↔ ∀ day ∈ calendarDay v, day ≤ lastDecodedDay) :=
  ⟨fun _ => tvaDatetime_roundTrip_iff, fun _ => tvaDate_roundTrip_iff⟩

/-- A time zone moves the last evening of 2029 into 2030. -/
theorem tvaDates_newYear2030 : (∃ w ms, tvaDatetimeDecode (ofNat 32 62502 ++ ofNat 32 3600500) = some (w, []) ∧
      utcMs (text "2029-12-31T23:00:00.5-02:00") = some ms ∧ utcMs w = some ms) ∧
    tvaDateDecode (ofNat 32 62502) = some (text "2030-01-01", []) :=
  ⟨((tvaDates_roundTrip_iff _).1 _ (by decide +kernel)).2 (by decide +kernel),
    ((tvaDates_roundTrip_iff _).2 _ (by decide +kernel)).2 (by decide +kernel)⟩

/-- The year 5000 is encoded and not decoded. -/
theorem tvaDates_year5000 :
    (∃ bits, tvaDatetimeEncode (text "5000-01-01T00:00:00Z") = some bits ∧ tvaDatetimeDecode bits = none) ∧
    ∃ bits, tvaDateEncode (text "5000-01-01") = some bits ∧ tvaDateDecode bits = none :=
  ⟨⟨ofNat 32 1147272 ++ ofNat 32 0, by decide +kernel, by decide +kernel⟩,
    ofNat 32 1147272, by decide +kernel, by decide +kernel⟩

end DvbIpiTools.Bim.Codec
