import DvbIpiTools.Bim.Codec.Instants

set_option autoImplicit false

/-! # Sequences of DVB dateTimes

The dateTimes of a fragment share a state: the date that was written last is left out where it is the same again. -/

namespace DvbIpiTools.Bim.Codec

open BitList Coder DateUtil List

/-- One dateTime after another with one state; with each stands whether PublishedTime may be used for it. -/
def datetimesEncode : DvbState → List (Bool × List UInt8) → Option (List Bool × DvbState)
  | st, [] => some ([], st)
  | st, (published, v) :: vs => do
    let (bits, st) ← datetimeEncode published st v
    let (more, st) ← datetimesEncode st vs
    return (bits ++ more, st)

def datetimesDecode : Nat → DvbState → BitRd (List (List UInt8) × DvbState)
  | 0, st => return ([], st)
  | n + 1, st => do
    let (w, st) ← datetimeDecode st
    let (ws, st) ← datetimesDecode n st
    return (w :: ws, st)

/-! ## What is found in a text -/

/-- The milliseconds of the day. -/
def Instant.ms (t : Instant) : Nat := (t.minute * 60 + t.sec) * 1000 + t.frac

variable {v : List UInt8} {t : Instant} {st st' : DvbState} {bits : List Bool} {published : Bool}

theorem iso8601Split_sec {f : Iso8601} (h : iso8601Split v = some f) : 0 ≤ f.s ∧ f.s ≤ 59 := by
  unfold iso8601Split at h
  split at h
  · cases h
  split at h
  · cases h
  rename_i hdigits
  simp only at h
  split at h
  · cases h
  split at h
  · cases h
  obtain ⟨off, -, heq⟩ := Option.bind_eq_some_iff.1 h
  cases heq
  simp only [Bool.or_eq_true, Bool.not_eq_true', not_or, Bool.not_eq_false, allDigits, all_eq_true, mem_range] at hdigits
  have h0 := isDigit_iff.1 (hdigits.2 0 (by decide))
  have h1 := isDigit_iff.1 (hdigits.2 1 (by decide))
  have hsec : digits v 17 2 = ((charAt v (17 + 0)).toNat - 48) * 10 + ((charAt v (17 + 1)).toNat - 48) := by
    simp [digits, range_succ]
  show 0 ≤ digits v 17 2 ∧ digits v 17 2 ≤ 59
  omega

/-- What is found is a time of a day that the decoder takes. -/
theorem utcMs_of_parse (h : datetimeParse v = some t) : (15079 ≤ t.mjd ∧ t.mjd ≤ 88127) ∧ t.minute < 1440 ∧ t.ms < 86400000 ∧
    utcMs v = some (t.mjd * 86400000 + t.ms) := by
  obtain ⟨f, hf, h⟩ := Option.bind_eq_some_iff.1 h
  obtain ⟨frac, hfrac, h⟩ := Option.bind_eq_some_iff.1 h
  have hlt := isoFractionMs_lt hfrac
  have hsec := iso8601Split_sec hf
  simp only [Int.fdiv_eq_ediv_of_nonneg _ (show (0 : Int) ≤ 1440 by decide)] at h
  split at h
  · cases h
  rename_i hday
  cases h
  rw [utcMs, hf, hfrac]
  simp only [Option.bind_eq_bind, Option.bind_some, Option.pure_def, Option.some.injEq, Instant.ms]
  omega

/-! ## One dateTime -/

/-- A PublishedTime, where `reuse` says whether its date is left out. -/
theorem reads_published {m minute : Nat} (hlo : 40587 ≤ m) (hhi : m < 40587 + 65536) (hminute : minute < 1440) {reuse : Bool}
    (hreuse : reuse = (st.haveDate && decide (st.mjd = m))) :
    Reads (datetimeDecode st) (ofNat 2 1 ++ ([!reuse] ++ ((if reuse then [] else ofNat 16 ((m : Int) % 65536).toNat) ++
      ofNat 11 minute))) (instantText m (minute * 60000), { st with haveDate := true, mjd := m }) := by
  have hminutes : ∀ st : DvbState, Reads (do
        let minutes ← getBits 11
        require (minutes < 1440)
        return (instantText st.mjd (minutes * 60000), st))
      (ofNat 11 minute ++ ([] ++ [])) (instantText st.mjd (minute * 60000), st) := fun st =>
    (reads_getBits (by omega)).bind ((reads_require (decide_eq_true hminute)).bind (reads_pure _))
  simp only [append_nil] at hminutes
  refine (reads_getBits (by decide)).bind ((reads_getFlag _).bind ?_)
  cases reuse with
  | true =>
    have hsame := hreuse.symm
    simp only [Bool.and_eq_true, decide_eq_true_iff] at hsame
    have hst : ({ st with haveDate := true, mjd := (m : Int) } : DvbState) = st := by rw [← hsame.1, ← hsame.2]
    simp only [Bool.not_true, Bool.false_eq_true, if_false, hsame.1, if_true]
    rw [hst, ← hsame.2]
    exact (reads_pure st).bind (hminutes st)
  | false =>
    simp only [Bool.not_false, if_true, Bool.false_eq_true, if_false]
    refine (reads_getBits (by omega)).bind ((reads_pure _).bind ?_)
    have hdate : mjd16Full ((m : Int) % 65536).toNat = m := by
      unfold mjd16Full mjdUnixEpoch
      split <;> omega
    rw [hdate]
    exact hminutes _

/-- The decoder that has the encoder's state reads the instant and has the encoder's next state. -/
theorem reads_datetime (h : datetimeEncode published st v = some (bits, st')) :
    ∃ w ms, Reads (datetimeDecode st) bits (w, st') ∧ utcMs w = some ms ∧ utcMs v = some ms := by
  obtain ⟨t, ht, h⟩ := Option.bind_eq_some_iff.1 h
  obtain ⟨hday, hminute, hlt, hutc⟩ := utcMs_of_parse ht
  obtain ⟨m, hm⟩ := Int.eq_ofNat_of_zero_le (show 0 ≤ t.mjd by omega)
  rw [hm] at hday hutc
  refine ⟨instantText m t.ms, _, ?_, utcMs_instantText (by omega) hlt, hutc⟩
  simp only [hm] at h
  split at h
  all_goals
    simp only [Option.pure_def, Option.some.injEq, Prod.mk.injEq] at h
    obtain ⟨rfl, rfl⟩ := h
  · -- PublishedTime, with the date unless the state has the same one
    rename_i hpub
    simp only [Instant.isPublished, mjdUnixEpoch, hm, Bool.and_eq_true, decide_eq_true_iff] at hpub
    obtain ⟨-, ⟨⟨hsec, hfrac⟩, hlo⟩, hhi⟩ := hpub
    have hms : t.ms = t.minute * 60000 := by
      unfold Instant.ms
      omega
    have hcode := reads_published (show 40587 ≤ m by omega) (by omega) hminute (rfl (a := st.haveDate && decide (st.mjd = m)))
    rw [← hms] at hcode
    simpa using hcode
  · have hcode : Reads (datetimeDecode st) (ofNat 2 0 ++ ([] ++ (ofNat 32 m ++ (ofNat 32 t.ms ++ ([] ++ [])))))
        (instantText m t.ms, st) := by
      refine (reads_getBits (by decide)).bind ((reads_require rfl).bind ((reads_getBits (by omega)).bind
        ((reads_getBits (by omega)).bind ((reads_require ?_).bind (reads_pure _)))))
      simp only [Bool.and_eq_true, decide_eq_true_iff]
      omega
    simpa [Instant.ms] using hcode

/-! ## Sequences -/

/-- The decoder reads from the code of a fragment's dateTimes the same instants, whatever stands behind them, and ends in
the encoder's state. -/
theorem datetimes_roundTrip (vs : List (Bool × List UInt8)) (h : datetimesEncode st vs = some (bits, st')) :
    ∃ ws, ∃ instants : List Int, Reads (datetimesDecode vs.length st) bits (ws, st') ∧ ws.map utcMs = instants.map some ∧
      (vs.map fun v => utcMs v.2) = instants.map some := by
  induction vs generalizing st bits with
  | nil =>
    cases h
    exact ⟨[], [], reads_pure _, rfl, rfl⟩
  | cons v vs ih =>
    obtain ⟨⟨first, st1⟩, h1, h⟩ := Option.bind_eq_some_iff.1 h
    obtain ⟨⟨more, st2⟩, h2, h⟩ := Option.bind_eq_some_iff.1 h
    cases h
    obtain ⟨w, ms, hw, hdecoded, hencoded⟩ := reads_datetime h1
    obtain ⟨ws, instants, hws, hdecodeds, hencodeds⟩ := ih h2
    refine ⟨w :: ws, ms :: instants, hw.bind ?_, ?_, ?_⟩
    · exact Reads.map hws
    · rw [map_cons, map_cons, hdecoded, hdecodeds]
    · rw [map_cons, map_cons, hencoded, hencodeds]

/-- The second date of a day is left out. -/
theorem datetimes_roundTrip_sameDay : ∃ ws, ∃ instants : List Int, Reads (datetimesDecode 2 {})
    (ofNat 2 1 ++ [true] ++ ofNat 16 62502 ++ ofNat 11 0 ++ (ofNat 2 1 ++ [false] ++ ofNat 11 720))
      (ws, { haveDate := true, mjd := 62502 }) ∧ ws.map utcMs = instants.map some ∧
    [utcMs (text "2030-01-01T00:00:00Z"), utcMs (text "2030-01-01T14:00:00+02:00")] = instants.map some :=
  datetimes_roundTrip [(true, text "2030-01-01T00:00:00Z"), (true, text "2030-01-01T14:00:00+02:00")] (by decide +kernel)

end DvbIpiTools.Bim.Codec
