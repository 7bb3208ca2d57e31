import DvbIpiTools.Bim.Codec.M7TimepointTexts

set_option autoImplicit false

/-! # MPEG-7 times come back as they were written

The decoder of `decode/simple.c` reads the code of `m7time.c` flag by flag and section by section, and the text that it prints
has the sections of the text that was encoded. Both sides are composed of the same parts: what a part writes is `Reads`
back by its counterpart with anything behind it, and the parts in a row read the whole. That the printed text has the
same sections is the parser on the printer; that it fits the buffer is a bound on each section. -/

namespace DvbIpiTools.Bim.Codec

open BitList Coder DateUtil List Option

/-! ## Flags and sections -/

variable {bits : List Bool} {coded v : Bool}

theorem reads_rflag (h : wflag coded v = some bits) : Reads (rflag coded) bits v := by
  cases coded with
  | true =>
    cases h
    exact reads_getFlag v
  | false =>
    cases v with
    | true => cases h
    | false =>
      cases h
      exact reads_pure false

theorem reads_rflag_absent : Reads (rflag false) [] false := reads_pure false

variable {α : Type} {f : α → List Bool}

/-- A section that is there is read, one that is not is skipped. -/
theorem reads_optRd {β : Type} {r : BitRd β} {g : α → β} {x : Option α}
    (h : ∀ a, x = some a → Reads r (f a) (g a)) : Reads (optRd x.isSome r) (optBits f x) (x.map g) := by
  cases x with
  | none => exact reads_pure none
  | some a => exact (h a rfl).map

theorem reads_section {r : BitRd α} {x : Option α}
    (h : ∀ a, x = some a → Reads r (f a) a) : Reads (optRd x.isSome r) (optBits f x) x := by
  have hread := reads_optRd (g := fun a => a) h
  rwa [Option.map_id_fun'] at hread

theorem reads_require_bind {b : Bool} (h : b = true) {f : Unit → BitRd α} {a : α}
    (hf : Reads (f ()) bits a) : Reads (require b >>= f) bits a := (reads_require h).bind hf

variable {lo hi : Nat} {x : Option Nat}

theorem inRange_le (h : inRange lo hi x = true) : ∀ a ∈ x, lo ≤ a ∧ a ≤ hi := by
  intro a ha
  obtain rfl := ha
  simpa [inRange] using h

variable {w : Nat} {tz : Option (Int × Nat)}

/-- The zone is coded as its distance from the least one. -/
theorem reads_tz {lo hi : Int} (h : tzOk tz (-lo) hi = true) (hw : hi + lo < (2 ^ w : Nat)) : Reads (optRd tz.isSome do
      let h ← getBits w
      let m ← getBits 2
      pure ((h : Int) - lo, m * 15)) (optBits (fun z => ofNat w (z.1 + lo).toNat ++ ofNat 2 (z.2 / 15)) tz) tz := by
  refine reads_section fun z hz => ?_
  obtain ⟨hour, m⟩ := z
  obtain rfl := hz
  simp only [tzOk, Bool.and_eq_true, decide_eq_true_eq] at h
  have hhour : (hour + lo).toNat < 2 ^ w := by omega
  have hmin := Reads.map (f := fun q => (((hour + lo).toNat : Int) - lo, q * 15)) (reads_getBits (show m / 15 < 2 ^ 2 by omega))
  have hback : (((hour + lo).toNat : Int) - lo, m / 15 * 15) = (hour, m) := by
    rw [Prod.mk.injEq]
    omega
  rw [hback] at hmin
  exact (reads_getBits hhour).bind hmin

theorem tzOk_bounds {lo hi : Int} (h : tzOk tz lo hi = true) (hlo : -100 < lo) (hhi : hi < 100) : ∀ z ∈ tz, TzOk z := by
  intro z hz
  obtain rfl := hz
  obtain ⟨hour, m⟩ := z
  simp only [tzOk, Bool.and_eq_true, decide_eq_true_eq] at h
  exact ⟨show hour.natAbs < 100 by omega, show m < 100 by omega⟩

variable {n : Nat}

theorem units_fit {present : Bool} {f : Nat}
    (h : ¬(present && (decide (f = 0) || (decide (w < 64) && decide (n ≥ 2 ^ w)))) = true) :
    (!present || decide (f ≠ 0)) = true ∧ (present = true → w < 64 → n < 2 ^ w) := by
  cases present with
  | false => exact ⟨rfl, fun h => (nomatch h)⟩
  | true =>
    simp only [Bool.true_and, Bool.or_eq_true, Bool.and_eq_true, decide_eq_true_eq, not_or, not_and, not_le] at h
    exact ⟨by simp [h.1], fun _ => h.2⟩

theorem lt_of_fits (hn : n < 2 ^ 64) (hfits : w < 64 → n < 2 ^ w) : n < 2 ^ w := by
  by_cases hw : w < 64
  · exact hfits hw
  · exact lt_of_lt_of_le hn (Nat.pow_le_pow_right (by decide) (Nat.not_lt.1 hw))

/-! ## Time points -/

/-- What the parser promises about its sections. -/
structure TimepointOk (t : M7Timepoint) : Prop where
  year : ∀ y ∈ t.year, y < 2 ^ 64
  n : ∀ n ∈ t.n, n < 2 ^ 64
  frac : ∀ f ∈ t.frac, f < 2 ^ 64
  two : ∀ x ∈ [t.month, t.day, t.hour, t.min, t.sec, t.ff], ∀ v ∈ x, v < 100
  neg : t.year = none → t.neg = false
  month : t.year = none → t.month = none
  day : t.month = none → t.day = none
  min : t.hour = none → t.min = none
  sec : t.min = none → t.sec = none
  units : t.sec = none → t.n = none
  ff : t.n = none → t.ff = none

/-- Sections in range make up a time point in range. -/
theorem timepointOk_ofParts {date : Option M7Date} {time : Option M7Time} {frac : Option Nat} (h : PartsOk date time frac)
    (tz : Option (Int × Nat)) : TimepointOk (.ofParts date time frac tz) := by
  obtain ⟨hdate, htime, hfrac⟩ := h
  have hd : ∀ {α : Type} {f : M7Date → Option α} {P : α → Prop}, (∀ d, DateOk d → ∀ a ∈ f d, P a) → ∀ a ∈ date.bind f, P a := by
    intro α f P hf a ha
    obtain ⟨d, hd, ha⟩ := bind_eq_some_iff.1 ha
    exact hf d (hdate d hd) a ha
  have ht : ∀ {α : Type} {f : M7Time → Option α} {P : α → Prop}, (∀ t, TimeOk t → ∀ a ∈ f t, P a) → ∀ a ∈ time.bind f, P a := by
    intro α f P hf a ha
    obtain ⟨t, ht, ha⟩ := bind_eq_some_iff.1 ha
    exact hf t (htime t ht) a ha
  refine ⟨?_, ht fun t h => h.n, hfrac, ?_, ?_, ?_, ?_, ?_, ?_, ?_, ?_⟩
  · intro y hy
    obtain ⟨d, hd, rfl⟩ := map_eq_some_iff.1 hy
    exact (hdate d hd).year
  · simp only [mem_cons, not_mem_nil, or_false]
    rintro x (rfl | rfl | rfl | rfl | rfl | rfl)
    · exact hd fun d h => h.month
    · exact hd fun d h => h.day
    · intro v hv
      obtain ⟨t, ht, rfl⟩ := map_eq_some_iff.1 hv
      exact (htime t ht).hour
    · exact ht fun t h => h.min
    · exact ht fun t h => h.sec
    · exact ht fun t h => h.ff
  · intro hnone
    cases date with
    | none => rfl
    | some d => cases hnone
  · intro hnone
    cases date with
    | none => rfl
    | some d => cases hnone
  · intro hnone
    cases date with
    | none => rfl
    | some d => exact (hdate d rfl).nested hnone
  · intro hnone
    cases time with
    | none => rfl
    | some t => cases hnone
  · intro hnone
    cases time with
    | none => rfl
    | some t => exact (htime t rfl).min_none hnone
  · intro hnone
    cases time with
    | none => rfl
    | some t => exact (htime t rfl).sec_none hnone
  · intro hnone
    cases time with
    | none => rfl
    | some t => exact (htime t rfl).n_none hnone

variable {t : M7Timepoint} {fl : String → Bool}

/-- Each flag of the time of day says whether its section is there. -/
theorem m7TimeFlags_reads (ht : TimepointOk t)
    (h : m7TimeFlags fl t = some bits) : ∃ b1 b2 b3 b4 b5, bits = b1 ++ (b2 ++ (b3 ++ (b4 ++ b5))) ∧
      Reads (rflag (fl "T00")) b1 t.hour.isSome ∧ Reads (rflag (t.hour.isSome && fl "T00:00")) b2 t.min.isSome ∧
      Reads (rflag (t.min.isSome && fl "T00:00:00")) b3 t.sec.isSome ∧
      Reads (rflag (t.sec.isSome && fl "T00:00:00:1")) b4 t.n.isSome ∧
      Reads (rflag (t.n.isSome && fl "T00:00:00:1.00")) b5 t.ff.isSome := by
  obtain ⟨b1, h1, h⟩ := bind_eq_some_iff.1 h
  have r1 := reads_rflag h1
  cases hhour : t.hour with
  | none =>
    have hmin := ht.min hhour
    have hsec := ht.sec hmin
    have hn := ht.units hsec
    rw [hhour] at h r1
    obtain rfl := some.inj h
    refine ⟨b1, [], [], [], [], by simp, r1, ?_⟩
    rw [hmin, hsec, hn, ht.ff hn]
    exact ⟨reads_rflag_absent, reads_rflag_absent, reads_rflag_absent, reads_rflag_absent⟩
  | some hour =>
    rw [hhour] at h r1
    obtain ⟨b2, h2, h⟩ := bind_eq_some_iff.1 h
    have r2 := reads_rflag h2
    cases hmin : t.min with
    | none =>
      have hsec := ht.sec hmin
      have hn := ht.units hsec
      rw [hmin] at h r2
      obtain rfl := some.inj h
      refine ⟨b1, b2, [], [], [], by simp, r1, r2, ?_⟩
      rw [hsec, hn, ht.ff hn]
      exact ⟨reads_rflag_absent, reads_rflag_absent, reads_rflag_absent⟩
    | some min =>
      rw [hmin] at h r2
      obtain ⟨b3, h3, h⟩ := bind_eq_some_iff.1 h
      have r3 := reads_rflag h3
      cases hsec : t.sec with
      | none =>
        have hn := ht.units hsec
        rw [hsec] at h r3
        obtain rfl := some.inj h
        refine ⟨b1, b2, b3, [], [], by simp, r1, r2, r3, ?_⟩
        rw [hn, ht.ff hn]
        exact ⟨reads_rflag_absent, reads_rflag_absent⟩
      | some sec =>
        rw [hsec] at h r3
        obtain ⟨b4, h4, h⟩ := bind_eq_some_iff.1 h
        have r4 := reads_rflag h4
        cases hn : t.n with
        | none =>
          rw [hn] at h r4
          obtain rfl := some.inj h
          refine ⟨b1, b2, b3, b4, [], by simp, r1, r2, r3, r4, ?_⟩
          rw [ht.ff hn]
          exact reads_rflag_absent
        | some n =>
          rw [hn] at h r4
          obtain ⟨b5, h5, h⟩ := bind_eq_some_iff.1 h
          obtain rfl := some.inj h
          exact ⟨b1, b2, b3, b4, b5, by simp, r1, r2, r3, r4, reads_rflag h5⟩

variable {compat : Bool}

/-- So does each flag of the date; one of two flags is the sign. -/
theorem m7DateFlags_reads (ht : TimepointOk t)
    (h : m7DateFlags compat fl t = some bits) : ∃ b1 b2 b3 b4 b5 first sign, bits = b1 ++ (b2 ++ (b3 ++ (b4 ++ b5))) ∧
      (first || sign) = t.neg ∧ Reads (rflag (compat && fl "-1")) b1 first ∧
      Reads (rflag (!compat || fl "1")) b2 t.year.isSome ∧ Reads (rflag (!compat && t.year.isSome)) b3 sign ∧
      Reads (rflag (t.year.isSome && (!compat || fl "1-01"))) b4 t.month.isSome ∧
      Reads (rflag (t.month.isSome && (!compat || fl "1-01-01"))) b5 t.day.isSome := by
  obtain ⟨b1, h1, h⟩ := bind_eq_some_iff.1 h
  obtain ⟨b2, h2, h⟩ := bind_eq_some_iff.1 h
  have r2 := reads_rflag h2
  have r1 : Reads (rflag (compat && fl "-1")) b1 (compat && t.neg) := by
    cases compat with
    | true => exact reads_rflag h1
    | false =>
      obtain rfl := some.inj h1
      exact reads_rflag_absent
  have r3 : Reads (rflag (!compat && t.year.isSome)) (if compat || t.year.isNone then [] else [t.neg])
      (!compat && t.neg) := by
    cases compat with
    | true => exact reads_rflag_absent
    | false => cases hyear : t.year with
      | none =>
        rw [ht.neg hyear]
        exact reads_rflag_absent
      | some year => exact reads_getFlag t.neg
  have hneg : (compat && t.neg || !compat && t.neg) = t.neg := by cases compat <;> cases t.neg <;> rfl
  cases hyear : t.year with
  | none =>
    have hmonth := ht.month hyear
    rw [hyear] at h r2 r3
    cases h
    refine ⟨b1, b2, _, [], [], _, _, ?_, hneg, r1, r2, r3, ?_⟩
    · simp
    · rw [hmonth, ht.day hmonth]
      exact ⟨reads_rflag_absent, reads_rflag_absent⟩
  | some year =>
    rw [hyear] at h r2 r3
    obtain ⟨b4, h4, h⟩ := bind_eq_some_iff.1 h
    have r4 := reads_rflag h4
    cases hmonth : t.month with
    | none =>
      rw [hmonth] at h r4
      cases h
      refine ⟨b1, b2, _, b4, [], _, _, ?_, hneg, r1, r2, r3, r4, ?_⟩
      · simp
      · rw [ht.day hmonth]
        exact reads_rflag_absent
    | some month =>
      rw [hmonth] at h r4
      obtain ⟨b5, h5, h⟩ := bind_eq_some_iff.1 h
      cases h
      refine ⟨b1, b2, _, b4, b5, _, _, ?_, hneg, r1, r2, r3, r4, reads_rflag h5⟩
      simp

theorem reads_shifted {shift : Nat} (h : inRange lo hi x = true) (hlo : shift ≤ lo) (hhi : hi < 2 ^ w) :
    Reads (optRd x.isSome (getBits w)) (optBits (fun m => ofNat w (m - shift)) x) (x.map (· - shift)) ∧
      (x.map (· - shift)).map (· + shift) = x := by
  refine ⟨reads_optRd fun a ha => reads_getBits ?_, ?_⟩
  · have hle := inRange_le h a ha
    omega
  cases x with
  | none => rfl
  | some a =>
    have hle := inRange_le h a rfl
    show some (a - shift + shift) = some a
    rw [Nat.sub_add_cancel (by omega)]

theorem reads_inRange (h : inRange lo hi x = true) (hhi : hi < 2 ^ w) :
    Reads (optRd x.isSome (getBits w)) (optBits (ofNat w) x) x :=
  reads_section fun a ha => reads_getBits (lt_of_le_of_lt (inRange_le h a ha).2 hhi)

/-- The decoder reads an encoded time point back, and prints its sections. -/
theorem m7TimepointDecode_reads {f : Facets} {v : List UInt8} (h : m7TimepointEncode compat f v = some bits) :
    ∃ t, m7TimepointParse v = some t ∧ (∀ z ∈ t.tz, TzOk z) ∧
      Reads (m7TimepointDecode compat f) bits (m7TimepointRender t) := by
  obtain ⟨t, hparse, h⟩ := bind_eq_some_iff.1 h
  obtain ⟨date, time, frac, tz, hparts, hok⟩ := partsOk_of_parse hparse
  have ht : TimepointOk t := hparts ▸ timepointOk_ofParts hok tz
  simp only at h
  split at h
  · cases h
  rename_i hranges
  split at h
  · cases h
  rename_i hunits
  simp only [Bool.not_eq_true', Bool.not_eq_false, Bool.and_eq_true] at hranges
  obtain ⟨⟨⟨⟨⟨⟨hmonth, hday⟩, hhour⟩, hmin⟩, hsec⟩, hff⟩, htz⟩ := hranges
  obtain ⟨dateBits, hdate, h⟩ := bind_eq_some_iff.1 h
  obtain ⟨timeBits, htime, h⟩ := bind_eq_some_iff.1 h
  obtain ⟨fracBits, hfrac, h⟩ := bind_eq_some_iff.1 h
  obtain ⟨tzBits, htzBits, h⟩ := bind_eq_some_iff.1 h
  cases h
  refine ⟨t, hparse, tzOk_bounds htz (by decide) (by decide), ?_⟩
  obtain ⟨b1, b2, b3, b4, b5, first, sign, rfl, hneg, r1, r2, r3, r4, r5⟩ := m7DateFlags_reads ht hdate
  obtain ⟨c1, c2, c3, c4, c5, rfl, q1, q2, q3, q4, q5⟩ := m7TimeFlags_reads ht htime
  have hshift : (if compat then 1 else 0) ≤ 1 := by split <;> decide
  obtain ⟨rmonth, hmonthBack⟩ := reads_shifted (w := 4) hmonth hshift (by decide)
  obtain ⟨rday, hdayBack⟩ := reads_shifted (w := 5) hday hshift (by decide)
  have ryear : Reads (optRd t.year.isSome getV5) (optBits vluimsbf5Bits t.year) t.year :=
    reads_section fun y hy => reads_getV5 (ht.year y hy)
  have rfrac : Reads (optRd t.frac.isSome getV5) (optBits vluimsbf5Bits t.frac) t.frac :=
    reads_section fun y hy => reads_getV5 (ht.frac y hy)
  obtain ⟨hdenominator, hfits⟩ := units_fit hunits
  have rn : Reads (optRd t.n.isSome (getBits (bimWidth (t.frac.getD 0)))) (optBits (ofNat (bimWidth (t.frac.getD 0))) t.n) t.n := by
    refine reads_section fun n hn => reads_getBits (lt_of_fits (ht.n n hn) fun hw => ?_)
    have hlt := hfits (by rw [hn]; rfl) hw
    rwa [hn] at hlt
  have hrender : m7TimepointRender t = m7TimepointRender {
      neg := first || sign, year := t.year, month := (t.month.map (· - if compat then 1 else 0)).map (· + if compat then 1 else 0)
      day := (t.day.map (· - if compat then 1 else 0)).map (· + if compat then 1 else 0)
      hour := t.hour, min := t.min, sec := t.sec, n := t.n, ff := t.ff, frac := t.frac, tz := t.tz } := by
    rw [hneg, hmonthBack, hdayBack]
  rw [hrender]
  simp only [append_assoc]
  exact r1.bind <| r2.bind <| r3.bind <| r4.bind <| r5.bind <| q1.bind <| q2.bind <| q3.bind <| q4.bind <| q5.bind <|
    (reads_rflag hfrac).bind <| (reads_rflag htzBits).bind <| ryear.bind <| rmonth.bind <| rday.bind <|
    (reads_inRange hhour (by decide)).bind <| (reads_inRange hmin (by decide)).bind <|
    (reads_inRange hsec (by decide)).bind <| rfrac.bind <| reads_require_bind hdenominator <| rn.bind <|
    (reads_inRange hff (by decide)).bind <| (reads_tz htz (by decide)).map

/-! ## Durations -/

theorem reads_rflagIn {there : Bool} (hv : there = false → v = false)
    (h : wflagIn there coded v = some bits) : Reads (rflag (there && coded)) bits v := by
  cases there with
  | true => exact reads_rflag h
  | false =>
    cases h
    rw [hv rfl]
    exact reads_rflag_absent

variable {larger : Option Nat}

theorem reads_unit (hx : ∀ v ∈ x, v < 2 ^ 64)
    (hw : larger.isSome = true → ∀ v ∈ x, v < 2 ^ w) : Reads (rdUnit x.isSome larger w) (unitBits larger w x) x := by
  cases larger with
  | none => exact reads_section fun v hv => reads_getV5 (hx v hv)
  | some l => exact reads_section fun v hv => reads_getBits (hw rfl v hv)

theorem unitOk_lt (h : unitOk larger hi x = true) (hhi : hi < 2 ^ w) : larger.isSome = true → ∀ v ∈ x, v < 2 ^ w := by
  intro hlarger v hv
  simp only [unitOk, isNone_eq_false_iff.2 hlarger, Bool.false_or] at h
  exact lt_of_le_of_lt (inRange_le h v hv).2 hhi

/-- The decoder reads an encoded duration back, and prints its units. -/
theorem m7DurationDecode_reads {f : Facets} {v : List UInt8} (h : m7DurationEncode compat f v = some bits) :
    ∃ x, m7DurationParse v = some x ∧ (∀ z ∈ x.tz, TzOk z) ∧
      Reads (m7DurationDecode compat f) bits (m7DurationRender x) := by
  obtain ⟨x, hparse, h⟩ := bind_eq_some_iff.1 h
  have hx := durationOk_of_parse hparse
  have hnone : ∀ {y : Option Nat}, (x.t = false → y = none) → x.t = false → y.isSome = false := fun hy ht => by
    rw [hy ht]
    rfl
  simp only at h
  split at h
  · cases h
  rename_i hranges
  split at h
  · cases h
  rename_i hunits
  simp only [Bool.not_eq_true', Bool.not_eq_false, Bool.and_eq_true] at hranges
  obtain ⟨⟨⟨⟨hh, hm⟩, hs⟩, hff⟩, htz⟩ := hranges
  obtain ⟨b1, h1, h⟩ := bind_eq_some_iff.1 h
  obtain ⟨b2, h2, h⟩ := bind_eq_some_iff.1 h
  obtain ⟨b3, h3, h⟩ := bind_eq_some_iff.1 h
  obtain ⟨c1, q1, h⟩ := bind_eq_some_iff.1 h
  obtain ⟨c2, q2, h⟩ := bind_eq_some_iff.1 h
  obtain ⟨c3, q3, h⟩ := bind_eq_some_iff.1 h
  obtain ⟨c4, q4, h⟩ := bind_eq_some_iff.1 h
  obtain ⟨c5, q5, h⟩ := bind_eq_some_iff.1 h
  obtain ⟨b4, h4, h⟩ := bind_eq_some_iff.1 h
  obtain ⟨b5, h5, h⟩ := bind_eq_some_iff.1 h
  cases h
  refine ⟨x, hparse, tzOk_bounds htz (by decide) (by decide), ?_⟩
  have rd : Reads (optRd x.d.isSome getV5) (optBits vluimsbf5Bits x.d) x.d :=
    reads_section fun y hy => reads_getV5 (hx.d y hy)
  have rfrac : Reads (optRd x.frac.isSome getV5) (optBits vluimsbf5Bits x.frac) x.frac :=
    reads_section fun y hy => reads_getV5 (hx.frac y hy)
  obtain ⟨hdenominator, hfits⟩ := units_fit hunits
  have rn : Reads (rdUnit x.n.isSome x.s (bimWidth (x.frac.getD 0))) (unitBits x.s (bimWidth (x.frac.getD 0)) x.n) x.n := by
    refine reads_unit hx.units.n fun hsec n hn => lt_of_fits (hx.units.n n hn) fun hw => ?_
    have hlt := hfits (by rw [hn, hsec]; rfl) hw
    rwa [hn] at hlt
  simp only [append_assoc]
  exact (reads_rflag h1).bind <| (reads_rflag h2).bind <| (reads_rflag h3).bind <|
    (reads_rflagIn (hnone fun ht => (hx.noTime ht).1) q1).bind <|
    (reads_rflagIn (hnone fun ht => (hx.noTime ht).2.1) q2).bind <|
    (reads_rflagIn (hnone fun ht => (hx.noTime ht).2.2.1) q3).bind <|
    (reads_rflagIn (hnone fun ht => (hx.noTime ht).2.2.2.1) q4).bind <|
    (reads_rflagIn (hnone fun ht => (hx.noTime ht).2.2.2.2) q5).bind <|
    (reads_rflag h4).bind <| (reads_rflag h5).bind <| rd.bind <|
    (reads_unit hx.units.h (unitOk_lt hh (by decide))).bind <|
    (reads_unit hx.units.m (unitOk_lt hm (by decide))).bind <|
    (reads_unit hx.units.s (unitOk_lt hs (by decide))).bind <| rfrac.bind <|
    reads_require_bind hdenominator <| rn.bind <| (reads_inRange hff (by decide)).bind <|
    (reads_tz htz (by decide)).map

/-! ## Room for the text -/

variable {k : Nat}

theorem length_decimal_le (hk : 1 ≤ k) : ∀ {n : Nat}, n < 10 ^ k → (decimal n).length ≤ k := by
  induction k, hk using Nat.le_induction with
  | base =>
    intro n hn
    rw [decimal_of_lt hn]
    rfl
  | succ k hk ih =>
    intro n hn
    by_cases hlt : n < 10
    · rw [decimal_of_lt hlt]
      exact Nat.le_add_left 1 k
    · rw [decimal_of_ge (Nat.not_lt.1 hlt), length_append]
      exact Nat.add_le_add_right (ih (by rw [pow_succ] at hn; omega)) 1

theorem length_decimal_u64 (hn : n < 2 ^ 64) : (decimal n).length ≤ 20 :=
  length_decimal_le (by decide) (lt_trans hn (by decide))

theorem length_optText_le {f : α → List UInt8} {x : Option α} (h : ∀ a ∈ x, (f a).length ≤ k) :
    (optText f x).length ≤ k := by
  cases x with
  | none => exact Nat.zero_le k
  | some a => exact h a rfl

theorem length_padded_two (hn : n < 100) : (padded 2 n).length = 2 := by
  rw [padded_two hn]
  rfl

theorem length_sectionText_le {c : UInt8} {x : Option Nat} (h : ∀ v ∈ x, v < 100) :
    (optText (fun m => c :: padded 2 m) x).length ≤ 3 :=
  length_optText_le fun v hv => by rw [length_cons, length_padded_two (h v hv)]

theorem length_numberText_le {c : UInt8} {x : Option Nat} (h : ∀ v ∈ x, v < 2 ^ 64) :
    (optText (fun m => c :: decimal m) x).length ≤ 21 :=
  length_optText_le fun v hv => Nat.add_le_add_right (length_decimal_u64 (h v hv)) 1

theorem length_unitText_le {c : UInt8} {x : Option Nat} (h : ∀ v ∈ x, v < 2 ^ 64) : (unitText c x).length ≤ 21 :=
  length_optText_le fun v hv => by
    rw [length_append]
    exact Nat.add_le_add_right (length_decimal_u64 (h v hv)) 1

/-- A time point that was parsed fits into the buffer it is printed to. -/
theorem length_m7TimepointRender (ht : TimepointOk t) (htz : ∀ z ∈ t.tz, TzOk z) :
    (m7TimepointRender t).length < 160 := by
  have htwo := ht.two
  simp only [mem_cons, not_mem_nil, or_false, forall_eq_or_imp, forall_eq] at htwo
  obtain ⟨hmonth, hday, hhour, hmin, hsec, hff⟩ := htwo
  have hyear : (optText (fun y => (if t.neg then [45] else []) ++ decimal y) t.year).length ≤ 21 :=
    length_optText_le fun y hy => by
      have hlen := length_decimal_u64 (ht.year y hy)
      split <;> simp <;> omega
  have hzone : (optText tzText t.tz).length ≤ 6 := length_optText_le fun z hz => le_of_eq (length_tzText (htz z hz))
  have h1 := @length_sectionText_le 45 _ hmonth
  have h2 := @length_sectionText_le 45 _ hday
  have h3 := @length_sectionText_le 84 _ hhour
  have h4 := @length_sectionText_le 58 _ hmin
  have h5 := @length_sectionText_le 58 _ hsec
  have h6 := @length_numberText_le 58 _ ht.n
  have h7 := @length_sectionText_le 46 _ hff
  have h8 := @length_numberText_le 70 _ ht.frac
  simp only [m7TimepointRender, length_append]
  omega

/-- So does a duration. -/
theorem length_m7DurationRender {x : M7Duration} (hx : DurationOk x) (htz : ∀ z ∈ x.tz, TzOk z) :
    (m7DurationRender x).length < 160 := by
  have hsign : (if x.neg then [45, 80] else [80] : List UInt8).length ≤ 2 := by split <;> decide
  have htime : (if x.t then [84] else [] : List UInt8).length ≤ 1 := by split <;> decide
  have hff : (optText (fun f => padded 2 f ++ [102]) x.ff).length ≤ 3 := length_optText_le fun f hf => by
    rw [length_append, length_padded_two (hx.units.ff f hf)]
    rfl
  have hzone : (optText (fun z => tzText z ++ [90]) x.tz).length ≤ 7 := length_optText_le fun z hz => by
    rw [length_append, length_tzText (htz z hz)]
    rfl
  have h1 := @length_unitText_le 68 _ hx.d
  have h2 := @length_unitText_le 72 x.h hx.units.h
  have h3 := @length_unitText_le 77 x.m hx.units.m
  have h4 := @length_unitText_le 83 x.s hx.units.s
  have h5 := @length_unitText_le 78 x.n hx.units.n
  have h6 := @length_unitText_le 70 _ hx.frac
  simp only [m7DurationRender, length_append]
  omega

/-! ## Round trips -/

/-- What the encoder takes the decoder gives back, with anything behind it, as a text that fits its buffer and that has the
sections of the text that was encoded. -/
theorem m7Times_roundTrip (compat : Bool) (f : Facets) (v : List UInt8) (bits : List Bool) :
    (m7TimepointEncode compat f v = some bits → ∃ w t, m7TimepointParse v = some t ∧ m7TimepointParse w = some t ∧
      w.length < 160 ∧ ∀ rest, m7TimepointDecode compat f (bits ++ rest) = some (w, rest)) ∧
    (m7DurationEncode compat f v = some bits → ∃ w x, m7DurationParse v = some x ∧ m7DurationParse w = some x ∧
      w.length < 160 ∧ ∀ rest, m7DurationDecode compat f (bits ++ rest) = some (w, rest)) := by
  constructor
  · intro h
    obtain ⟨t, hparse, htz, hreads⟩ := m7TimepointDecode_reads h
    obtain ⟨date, time, frac, tz, rfl, hok⟩ := partsOk_of_parse hparse
    exact ⟨_, _, hparse, m7TimepointParse_render hok htz, length_m7TimepointRender (timepointOk_ofParts hok tz) htz, hreads⟩
  · intro h
    obtain ⟨x, hparse, htz, hreads⟩ := m7DurationDecode_reads h
    have hx := durationOk_of_parse hparse
    exact ⟨_, _, hparse, m7DurationParse_render hx htz, length_m7DurationRender hx htz, hreads⟩

/-- Every section of a time point, with and without the flags of the patterns, and a duration whose hours lack days. -/
theorem m7Times_roundTrip_samples :
    (∃ bits, m7TimepointEncode false {} (text "-2002-11-05T10:30:15:999.25F1000-02:45") = some bits ∧
      ∃ w t, m7TimepointParse (text "-2002-11-05T10:30:15:999.25F1000-02:45") = some t ∧ m7TimepointParse w = some t ∧
        w.length < 160 ∧ ∀ rest, m7TimepointDecode false {} (bits ++ rest) = some (w, rest)) ∧
    (∃ bits, m7DurationEncode true { patterns := [fun c => c.1.head? == some 80] } (text "PT100H5M3N12f1000F") = some bits ∧
      ∃ w x, m7DurationParse (text "PT100H5M3N12f1000F") = some x ∧ m7DurationParse w = some x ∧
        w.length < 160 ∧ ∀ rest, m7DurationDecode true { patterns := [fun c => c.1.head? == some 80] } (bits ++ rest) =
          some (w, rest)) := by
  constructor
  · obtain ⟨bits, h⟩ := isSome_iff_exists.1
      (show (m7TimepointEncode false {} (text "-2002-11-05T10:30:15:999.25F1000-02:45")).isSome = true by decide +kernel)
    exact ⟨bits, h, (m7Times_roundTrip false {} _ bits).1 h⟩
  · obtain ⟨bits, h⟩ := isSome_iff_exists.1
      (show (m7DurationEncode true { patterns := [fun c => c.1.head? == some 80] } (text "PT100H5M3N12f1000F")).isSome = true
        by decide +kernel)
    exact ⟨bits, h, (m7Times_roundTrip true _ _ bits).2 h⟩

end DvbIpiTools.Bim.Codec
