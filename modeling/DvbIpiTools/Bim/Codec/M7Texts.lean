import DvbIpiTools.Bim.Codec.Times

set_option autoImplicit false

/-! # Texts of MPEG-7 times

What `take_num`, `take2` and `take_tz` take, and that they take it again from the text that is printed from it. -/

namespace DvbIpiTools.Bim.Codec

open DateUtil List

/-! ## Numbers -/

variable {s rest : List UInt8} {n : Nat}

theorem takeNum_lt (h : takeNum s = some (n, rest)) : n < 2 ^ 64 := by
  unfold takeNum at h
  simp only at h
  split at h
  · cases h
  · next hno =>
    cases h
    exact not_le.1 fun hle => hno (.inr hle)

theorem takeNum_decimal {n : Nat} (hn : n < 2 ^ 64) {rest : List UInt8} (hrest : isDigit (charAt rest 0) = false) :
    takeNum (decimal n ++ rest) = some (n, rest) := by
  have hrun := @takeWhile_digits (decimal n) rest (fun c hc => isDigit_of_mem_decimal hc) hrest
  unfold takeNum
  simp only [hrun, decValue_decimal]
  rw [if_neg]
  rintro (hnil | hbig)
  · exact decimal_ne_nil n hnil
  · omega

theorem take2_lt (h : take2 s = some (n, rest)) : n < 100 := by
  unfold take2 at h
  split at h
  · next hlen =>
    unfold takeNum at h
    simp only at h
    split at h
    · cases h
    cases h
    have hlt : ∀ ds : List UInt8, (∀ c ∈ ds, isDigit c = true) → ds.length = 2 → decValue ds < 100 := by
      intro ds hds hlen
      match ds, hlen with
      | [a, b], _ =>
        have ha := isDigit_iff.1 (hds a (by simp))
        have hb := isDigit_iff.1 (hds b (by simp))
        simp only [decValue, foldl_cons, foldl_nil]
        omega
    exact hlt _ (fun c hc => mem_takeWhile_imp hc) hlen
  · cases h

theorem take2_padded {n : Nat} (hn : n < 100) {rest : List UInt8} (hrest : isDigit (charAt rest 0) = false) :
    take2 (padded 2 n ++ rest) = some (n, rest) := by
  have hds : ∀ c ∈ padded 2 n, isDigit c = true := by
    rw [padded_two hn]
    intro c hc
    simp only [mem_cons, not_mem_nil, or_false] at hc
    rcases hc with rfl | rfl <;> exact isDigit_digit (by omega)
  have hrun := takeWhile_digits hds hrest
  have hlen : (padded 2 n).length = 2 := by rw [padded_two hn]; rfl
  have hval : decValue (padded 2 n) = n := by rw [padded_two hn, decValue_digits_two hn]
  unfold take2 takeNum
  simp only [hrun, hlen, hval, if_true]
  rw [if_neg]
  rintro (hnil | hbig)
  · rw [hnil] at hlen
    cases hlen
  · omega

/-- What follows a number: not a digit. -/
def NoDigit (rest : List UInt8) : Prop := isDigit (charAt rest 0) = false

theorem noDigit_nil : NoDigit [] := rfl

variable {α : Type} {c : UInt8} {f : α → List UInt8}

theorem noDigit_optText {g : α → List UInt8} (hf : ∀ a, f a = c :: g a)
    (hc : isDigit c = false) (x : Option α) (hrest : NoDigit rest) : NoDigit (optText f x ++ rest) := by
  cases x with
  | none => exact hrest
  | some a =>
    show isDigit (charAt (f a ++ rest) 0) = false
    rw [hf a]
    exact hc

theorem isDigit_of_mem_padded (hn : n < 100) (hc : c ∈ padded 2 n) : isDigit c = true := by
  rw [padded_two hn] at hc
  simp only [mem_cons, not_mem_nil, or_false] at hc
  rcases hc with rfl | rfl <;> exact isDigit_digit (by omega)

/-! ## Sections -/

theorem scanChars_cons (c : UInt8) (s : List UInt8) : scanChars [c] (c :: s) = some s := by simp [scanChars]

variable {p : List UInt8 → Option (α × List UInt8)}

theorem section_some {x : Option α} (hp : ∀ a, x = some a → p (f a ++ rest) = some (a, rest))
    (hnone : x = none → charAt rest 0 ≠ c) : section? c p (optText (fun a => c :: f a) x ++ rest) = some (x, rest) := by
  cases x with
  | none =>
    show section? c p rest = some (none, rest)
    rw [section?, if_neg (hnone rfl)]
  | some a =>
    show section? c p (c :: f a ++ rest) = some (some a, rest)
    have hfirst : charAt (c :: f a ++ rest) 0 = c := rfl
    have hdrop : (c :: f a ++ rest).drop 1 = f a ++ rest := rfl
    rw [section?, if_pos hfirst, hdrop, hp a rfl]
    rfl

theorem of_section {x : Option α}
    (h : section? c p s = some (x, rest)) {P : α → Prop} (hp : ∀ {u a v}, p u = some (a, v) → P a) : ∀ a ∈ x, P a := by
  unfold section? at h
  split at h
  · obtain ⟨⟨a, v⟩, ha, heq⟩ := Option.map_eq_some_iff.1 h
    cases heq
    intro b hb
    cases hb
    exact hp ha
  · cases h
    intro b hb
    cases hb

variable {d : UInt8}

theorem of_mem_optText {x : Option α} {P : UInt8 → Prop}
    (hd : d ∈ optText (fun a => c :: f a) x) (hf : ∀ a ∈ x, ∀ d ∈ f a, P d) : P d ∨ d = c := by
  cases x with
  | none => cases hd
  | some a =>
    rcases mem_cons.1 hd with rfl | hd
    · exact .inr rfl
    · exact .inl (hf a rfl d hd)

/-! ## Zones -/

theorem charAt_append (a b : List UInt8) (i : Nat) :
    charAt (a ++ b) i = if i < a.length then charAt a i else charAt b (i - a.length) := by
  unfold charAt
  split
  · next h => rw [getD_append _ _ _ _ h]
  · next h => rw [getD_append_right _ _ _ _ (Nat.not_lt.1 h)]

theorem mem_of_charAt {i : Nat} (h : charAt s i = c) (hc : c ≠ 0) : c ∈ s := by
  unfold charAt at h
  rw [getD_eq_getElem?_getD] at h
  cases hi : s[i]? with
  | none =>
    rw [hi] at h
    exact absurd h.symm hc
  | some d =>
    rw [hi] at h
    obtain rfl : d = c := h
    exact mem_of_getElem? hi

variable {tz : Int × Nat}

theorem of_takeTz {u : List UInt8} (h : takeTz u = some tz) :
    (charAt u 0 = 43 ∨ charAt u 0 = 45) ∧ isDigit (charAt u 1) = true ∧ isDigit (charAt u 2) = true ∧ charAt u 3 = 58 := by
  unfold takeTz at h
  simp only at h
  split at h
  · cases h
  rename_i hsign
  obtain ⟨⟨hh, q⟩, htake, h⟩ := Option.bind_eq_some_iff.1 h
  split at h
  · cases h
  rename_i hcolon
  have hdigits : isDigit (charAt u 1) = true ∧ isDigit (charAt u 2) = true := by
    unfold take2 at htake
    split at htake
    · next hlen =>
      match u, hlen with
      | [], hlen => cases hlen
      | [_], hlen => cases hlen
      | [_, a], hlen => exact absurd hlen (by simp [takeWhile_cons]; split <;> simp)
      | x :: a :: b :: w, hlen =>
        show isDigit a = true ∧ isDigit b = true
        cases ha : isDigit a <;> cases hb : isDigit b <;> simp [ha, hb] at hlen ⊢
    · cases htake
  exact ⟨by tauto, hdigits.1, hdigits.2, by tauto⟩

/-- No zone stands at the end of a date and a time: behind the sign of a date no colon comes before the time begins. -/
theorem splitTz_none {d r : List UInt8} (hplus : (43 : UInt8) ∉ d ++ r) (hcolon : (58 : UInt8) ∉ d) (hminus : (45 : UInt8) ∉ r)
    (hr : NoDigit r) (hr' : charAt r 0 ≠ 58) : splitTz (d ++ r) = (none, d ++ r) := by
  unfold splitTz
  split
  · rfl
  generalize (d ++ r).length - 6 = k
  cases htz : takeTz ((d ++ r).drop k) with
  | none => rfl
  | some tz =>
    exfalso
    obtain ⟨hsign, h1, h2, h3⟩ := of_takeTz htz
    have hat : ∀ i, charAt ((d ++ r).drop k) i = charAt (d ++ r) (k + i) := fun i => by
      simp [charAt, getD_eq_getElem?_getD, getElem?_drop]
    rw [hat] at hsign h1 h2 h3
    have hin : k < d.length := by
      by_contra hout
      rcases hsign with hsign | hsign
      · exact hplus (mem_of_charAt hsign (by decide))
      · rw [charAt_append, if_neg (by omega)] at hsign
        exact hminus (mem_of_charAt hsign (by decide))
    have hout : d.length ≤ k + 3 := by
      by_contra hle
      rw [charAt_append, if_pos (by omega)] at h3
      exact hcolon (mem_of_charAt h3 (by decide))
    -- the first character behind the date is neither a digit nor a colon
    rw [charAt_append] at h1 h2 h3
    have hr'' : isDigit (charAt r 0) = false := hr
    obtain hlen | hlen | hlen : k + 1 = d.length ∨ k + 2 = d.length ∨ k + 3 = d.length := by omega
    · rw [if_neg (by omega), show k + 1 - d.length = 0 by omega, hr''] at h1
      cases h1
    · rw [if_neg (by omega), show k + 2 - d.length = 0 by omega, hr''] at h2
      cases h2
    · rw [if_neg (by omega), show k + 3 - d.length = 0 by omega] at h3
      exact hr' h3

/-- A zone that two digits for the hours and two for the minutes hold. -/
def TzOk (tz : Int × Nat) : Prop := tz.1.natAbs < 100 ∧ tz.2 < 100

theorem length_tzText (h : TzOk tz) : (tzText tz).length = 6 := by
  rw [tzText, padded_two h.1, padded_two h.2]
  rfl

theorem takeTz_text (h : TzOk tz) : takeTz (tzText tz) = some tz := by
  obtain ⟨hh, m⟩ := tz
  have hhour := @take2_padded hh.natAbs h.1 [] rfl
  have hmin := @take2_padded m h.2 [] rfl
  rw [append_nil, padded_two h.1] at hhour
  rw [append_nil, padded_two h.2] at hmin
  unfold takeTz tzText
  simp only [padded_two h.1, padded_two h.2]
  by_cases hneg : hh < 0
  · simp only [if_pos hneg, cons_append, nil_append, drop_succ_cons, drop_zero, take_succ_cons,
      take_zero, charAt, getD_cons_zero, getD_cons_succ, hhour, hmin]
    simp only [ne_eq, not_true_eq_false, and_false, if_false, Option.bind_eq_bind, Option.bind_some, or_self, if_true, true_and]
    rw [if_neg (by omega)]
    simp only [Option.pure_def, Option.some.injEq, Prod.mk.injEq, and_true]
    omega
  simp only [if_neg hneg, cons_append, nil_append, drop_succ_cons, drop_zero, take_succ_cons,
    take_zero, charAt, getD_cons_zero, getD_cons_succ, hhour, hmin]
  simp only [ne_eq, not_true_eq_false, false_and, if_false, Option.bind_eq_bind, Option.bind_some, or_self,
    show (43 : UInt8) ≠ 45 by decide]
  simp only [Option.pure_def, Option.some.injEq, Prod.mk.injEq, and_true]
  omega

theorem splitTz_some (h : TzOk tz) (u : List UInt8) : splitTz (u ++ tzText tz) = (some tz, u) := by
  have hlen : (u ++ tzText tz).length - 6 = u.length := by
    rw [length_append, length_tzText h]
    omega
  unfold splitTz
  rw [if_neg (by rw [length_append, length_tzText h]; omega), hlen, drop_left, takeTz_text h, take_left]

/-! # Texts of MPEG-7 durations

What `m7_duration_parse` finds is found again in the text that is printed from it. -/

/-! ## Durations -/

theorem takeNum_padded (hn : n < 100) (hrest : NoDigit rest) : takeNum (padded 2 n ++ rest) = some (n, rest) := by
  have htake := take2_padded hn hrest
  unfold take2 at htake
  split at htake
  · exact htake
  · cases htake

/-- The text does not begin with a number and the unit `c`. -/
def NoUnit (c : UInt8) (rest : List UInt8) : Prop := takeUnit c rest = (none, rest)

theorem noUnit_of_takeNum (h : takeNum s = some (n, d :: rest)) (hd : d ≠ c) : NoUnit c s := by
  unfold NoUnit takeUnit
  rw [h]
  exact if_neg hd

theorem noUnit_nil (c : UInt8) : NoUnit c [] := rfl

variable {x : Option Nat}

theorem noUnit_unitText (hdigit : isDigit d = false) (hne : d ≠ c) (hx : ∀ v ∈ x, v < 2 ^ 64) (hrest : NoUnit c rest) : NoUnit c (unitText d x ++ rest) := by
  cases x with
  | none => exact hrest
  | some v =>
    show NoUnit c (decimal v ++ [d] ++ rest)
    rw [append_assoc]
    exact noUnit_of_takeNum (takeNum_decimal (hx v rfl) hdigit) hne

theorem noUnit_ff (hne : 102 ≠ c) (hx : ∀ v ∈ x, v < 100)
    (hrest : NoUnit c rest) : NoUnit c (optText (fun f => padded 2 f ++ [102]) x ++ rest) := by
  cases x with
  | none => exact hrest
  | some v =>
    show NoUnit c (padded 2 v ++ [102] ++ rest)
    rw [append_assoc]
    exact noUnit_of_takeNum (takeNum_padded (hx v rfl) rfl) hne

theorem takeUnit_text (hdigit : isDigit c = false) (hx : ∀ v ∈ x, v < 2 ^ 64)
    (hrest : NoUnit c rest) : takeUnit c (unitText c x ++ rest) = (x, rest) := by
  cases x with
  | none => exact hrest
  | some v =>
    show takeUnit c (decimal v ++ [c] ++ rest) = _
    have hnum := @takeNum_decimal v (hx v rfl) (c :: rest) hdigit
    rw [append_assoc, takeUnit, singleton_append, hnum]
    exact if_pos rfl

theorem of_takeUnit {c : UInt8} {s : List UInt8} : ∀ v ∈ (takeUnit c s).1, v < 2 ^ 64 := by
  intro v hv
  unfold takeUnit at hv
  split at hv
  · cases hv
  · next hnum =>
    split at hv
    · exact Option.some.inj hv ▸ takeNum_lt hnum
    · cases hv

/-- What `takeUnits` finds: hours, minutes, seconds, `n` and `ff`. -/
abbrev M7Units := Option Nat × Option Nat × Option Nat × Option Nat × Option Nat

structure UnitsOk (u : M7Units) : Prop where
  h : ∀ v ∈ u.1, v < 2 ^ 64
  m : ∀ v ∈ u.2.1, v < 2 ^ 64
  s : ∀ v ∈ u.2.2.1, v < 2 ^ 64
  n : ∀ v ∈ u.2.2.2.1, v < 2 ^ 64
  ff : ∀ v ∈ u.2.2.2.2, v < 100

def unitsText (u : M7Units) : List UInt8 :=
  unitText 72 u.1 ++ unitText 77 u.2.1 ++ unitText 83 u.2.2.1 ++ unitText 78 u.2.2.2.1 ++
    optText (fun f => padded 2 f ++ [102]) u.2.2.2.2

variable {u : M7Units}

theorem unitsOk_of_takeUnits (h : takeUnits s = some (u, rest)) : UnitsOk u := by
  unfold takeUnits at h
  simp only at h
  split at h
  · obtain ⟨⟨ff, q⟩, hff, h⟩ := Option.bind_eq_some_iff.1 h
    cases h
    exact ⟨of_takeUnit, of_takeUnit, of_takeUnit, of_takeUnit, fun _ h => Option.some.inj h ▸ take2_lt hff⟩
  · cases h
    exact ⟨of_takeUnit, of_takeUnit, of_takeUnit, of_takeUnit, fun _ h => (nomatch h)⟩

variable {frac : Option Nat}

theorem takeUnits_text (hu : UnitsOk u) (hfrac : ∀ v ∈ frac, v < 2 ^ 64) :
    takeUnits (unitsText u ++ unitText 70 frac) = some (u, unitText 70 frac) := by
  obtain ⟨h, m, s, n, ff⟩ := u
  obtain ⟨hh, hm, hs, hn, hff⟩ := hu
  have htext : unitsText (h, m, s, n, ff) ++ unitText 70 frac = unitText 72 h ++ (unitText 77 m ++ (unitText 83 s ++
      (unitText 78 n ++ (optText (fun f => padded 2 f ++ [102]) ff ++ unitText 70 frac)))) := by
    simp only [unitsText, append_assoc]
  -- no unit is found in a text that only holds later ones
  have hend : ∀ {c}, 70 ≠ c → NoUnit c (unitText 70 frac) := fun hc => by
    have hno := noUnit_unitText rfl hc hfrac (noUnit_nil _)
    rwa [append_nil] at hno
  have hno4 : ∀ {c}, 70 ≠ c → 102 ≠ c → NoUnit c (optText (fun f => padded 2 f ++ [102]) ff ++ unitText 70 frac) :=
    fun hF hf => noUnit_ff hf hff (hend hF)
  have hno3 : ∀ {c}, 70 ≠ c → 102 ≠ c → 78 ≠ c → NoUnit c (unitText 78 n ++
      (optText (fun f => padded 2 f ++ [102]) ff ++ unitText 70 frac)) :=
    fun hF hf hN => noUnit_unitText rfl hN hn (hno4 hF hf)
  have hno2 : ∀ {c}, 70 ≠ c → 102 ≠ c → 78 ≠ c → 83 ≠ c → NoUnit c (unitText 83 s ++ (unitText 78 n ++
      (optText (fun f => padded 2 f ++ [102]) ff ++ unitText 70 frac))) :=
    fun hF hf hN hS => noUnit_unitText rfl hS hs (hno3 hF hf hN)
  have hno1 : NoUnit 72 (unitText 77 m ++ (unitText 83 s ++ (unitText 78 n ++
      (optText (fun f => padded 2 f ++ [102]) ff ++ unitText 70 frac)))) :=
    noUnit_unitText rfl (by decide) hm (hno2 (by decide) (by decide) (by decide) (by decide))
  rw [htext, takeUnits]
  simp only [takeUnit_text (show isDigit 72 = false from rfl) hh hno1,
    takeUnit_text (show isDigit 77 = false from rfl) hm (hno2 (by decide) (by decide) (by decide) (by decide)),
    takeUnit_text (show isDigit 83 = false from rfl) hs (hno3 (by decide) (by decide) (by decide)),
    takeUnit_text (show isDigit 78 = false from rfl) hn (hno4 (by decide) (by decide))]
  cases ff with
  | none =>
    have hnof : ¬charAt (unitText 70 frac) 2 = 102 := fun hat => by
      have hmem := mem_of_charAt hat (by decide)
      cases frac with
      | none => cases hmem
      | some f =>
        rcases mem_append.1 (show (102 : UInt8) ∈ decimal f ++ [70] from hmem) with hmem | hmem
        · exact absurd (isDigit_of_mem_decimal hmem) (by decide)
        · exact absurd hmem (by decide)
    exact if_neg fun h => hnof h.2
  | some f =>
    have htake := @take2_padded f (hff f rfl) (102 :: unitText 70 frac) rfl
    have htext : optText (fun f => padded 2 f ++ [102]) (some f) ++ unitText 70 frac =
        padded 2 f ++ 102 :: unitText 70 frac := by
      show padded 2 f ++ [102] ++ _ = _
      rw [append_assoc, singleton_append]
    have hlen : (padded 2 f).length = 2 := by
      rw [padded_two (hff f rfl)]
      rfl
    rw [htext, if_pos]
    · rw [htake]
      rfl
    · rw [length_append, charAt_append, hlen]
      exact ⟨by rw [length_cons]; omega, rfl⟩

structure DurationOk (x : M7Duration) : Prop where
  d : ∀ v ∈ x.d, v < 2 ^ 64
  units : UnitsOk (x.h, x.m, x.s, x.n, x.ff)
  frac : ∀ v ∈ x.frac, v < 2 ^ 64
  noTime : x.t = false → x.h = none ∧ x.m = none ∧ x.s = none ∧ x.n = none ∧ x.ff = none

theorem durationOk_of_parse {x : M7Duration} (h : m7DurationParse s = some x) : DurationOk x := by
  obtain ⟨s1, -, h⟩ := Option.bind_eq_some_iff.1 h
  obtain ⟨⟨d, s2⟩, hd, h⟩ := Option.bind_eq_some_iff.1 h
  obtain ⟨⟨t, ⟨hh, m, sec, n, ff⟩, s3⟩, hunits, h⟩ := Option.bind_eq_some_iff.1 h
  obtain ⟨frac, hfrac, h⟩ := Option.bind_eq_some_iff.1 h
  cases h
  refine ⟨?_, ?_, ?_, ?_⟩
  · unfold takeDays at hd
    split at hd
    · cases hd
      exact fun _ h => (nomatch h)
    · obtain ⟨_, -, heq⟩ := Option.map_eq_some_iff.1 hd
      have hlt := @of_takeUnit 68 s1
      rw [heq] at hlt
      exact hlt
  · unfold optUnits at hunits
    split at hunits
    · obtain ⟨⟨u, s'⟩, hu, heq⟩ := Option.map_eq_some_iff.1 hunits
      cases heq
      exact unitsOk_of_takeUnits hu
    · obtain ⟨-, heq⟩ := Prod.mk.inj (Option.some.inj hunits)
      cases heq
      exact ⟨fun _ h => (nomatch h), fun _ h => (nomatch h), fun _ h => (nomatch h), fun _ h => (nomatch h), fun _ h => (nomatch h)⟩
  · unfold takeFrac at hfrac
    split at hfrac
    · cases hfrac
      exact fun _ h => (nomatch h)
    · split at hfrac
      · next hnum =>
        cases hfrac
        exact fun _ h => Option.some.inj h ▸ takeNum_lt hnum
      · cases hfrac
  · intro ht
    unfold optUnits at hunits
    split at hunits
    · obtain ⟨⟨u, s'⟩, -, heq⟩ := Option.map_eq_some_iff.1 hunits
      cases heq
      cases ht
    · obtain ⟨-, heq⟩ := Prod.mk.inj (Option.some.inj hunits)
      cases heq
      exact ⟨rfl, rfl, rfl, rfl, rfl⟩

theorem splitTzZ_text {u : List UInt8} (hu : (90 : UInt8) ∉ u) {tz : Option (Int × Nat)} (htz : ∀ z ∈ tz, TzOk z) :
    splitTzZ (u ++ optText (fun z => tzText z ++ [90]) tz) = (tz, u) := by
  cases tz with
  | none =>
    show splitTzZ (u ++ []) = _
    rw [append_nil, splitTzZ, if_neg]
    rintro ⟨-, hlast, -⟩
    exact hu (mem_of_getLast? hlast)
  | some z =>
    show splitTzZ (u ++ (tzText z ++ [90])) = _
    have htake : (u ++ (tzText z ++ [90])).take ((u ++ (tzText z ++ [90])).length - 1) = u ++ tzText z := by
      rw [← append_assoc, length_append, length_singleton, Nat.add_sub_cancel, take_left]
    rw [splitTzZ, htake, splitTz_some (htz z rfl), if_pos]
    refine ⟨?_, ?_, rfl⟩
    · simp only [length_append, length_tzText (htz z rfl), length_singleton]
      omega
    · rw [← append_assoc, getLast?_concat]

theorem takeDays_text {d : Option Nat} (hd : ∀ v ∈ d, v < 2 ^ 64) (hrest : NoUnit 68 rest)
    (hnum : isDigit (charAt rest 0) = true → (takeNum rest).isSome) : takeDays (unitText 68 d ++ rest) = some (d, rest) := by
  cases d with
  | none =>
    show takeDays rest = _
    unfold takeDays
    cases hdigit : isDigit (charAt rest 0) with
    | false => rfl
    | true =>
      obtain ⟨v, hv⟩ := Option.isSome_iff_exists.1 (hnum hdigit)
      rw [if_neg (by decide), hv, Option.map_some, hrest]
  | some v =>
    have hfirst : isDigit (charAt (unitText 68 (some v) ++ rest) 0) = true := by
      obtain ⟨c, cs, hcs⟩ := exists_cons_of_ne_nil (decimal_ne_nil v)
      show isDigit (charAt (decimal v ++ [68] ++ rest) 0) = true
      have hc : isDigit c = true := isDigit_of_mem_decimal (by rw [hcs]; exact mem_cons_self)
      rw [hcs]
      exact hc
    have htext : takeNum (unitText 68 (some v) ++ rest) = some (v, 68 :: rest) := by
      show takeNum (decimal v ++ [68] ++ rest) = _
      rw [append_assoc]
      exact takeNum_decimal (hd v rfl) rfl
    unfold takeDays
    rw [hfirst, if_neg (by decide), htext, Option.map_some, takeUnit_text rfl hd hrest]

theorem takeFrac_text (hfrac : ∀ v ∈ frac, v < 2 ^ 64) : takeFrac (unitText 70 frac) = some frac := by
  cases frac with
  | none => rfl
  | some f =>
    show takeFrac (decimal f ++ [70]) = _
    rw [takeFrac, if_neg (by simp), takeNum_decimal (hfrac f rfl) rfl]
    rfl

theorem not_mem_unitText (hc : c ≠ 90) (x : Option Nat) : (90 : UInt8) ∉ unitText c x := by
  intro hmem
  cases x with
  | none => cases hmem
  | some v =>
    rcases mem_append.1 (show (90 : UInt8) ∈ decimal v ++ [c] from hmem) with hmem | hmem
    · exact absurd (isDigit_of_mem_decimal hmem) (by decide)
    · exact hc (mem_singleton.1 hmem).symm

/-- The time part of a duration: a `T` and the units behind it. -/
def timePart (t : Bool) (u : M7Units) : List UInt8 := if t then 84 :: unitsText u else []

variable {t : Bool}

theorem not_mem_timePart (hu : UnitsOk u) : (90 : UInt8) ∉ timePart t u := by
  have hff : (90 : UInt8) ∉ optText (fun f => padded 2 f ++ [102]) u.2.2.2.2 := by
    intro hmem
    cases hx : u.2.2.2.2 with
    | none =>
      rw [hx] at hmem
      cases hmem
    | some v =>
      rw [hx] at hmem
      rcases mem_append.1 (show (90 : UInt8) ∈ padded 2 v ++ [102] from hmem) with hmem | hmem
      · exact absurd (isDigit_of_mem_padded (hu.ff v hx) hmem) (by decide)
      · exact absurd hmem (by decide)
  cases t with
  | false => exact fun hmem => (nomatch hmem)
  | true =>
    simp only [timePart, if_true, unitsText, mem_cons, mem_append, not_or]
    exact ⟨by decide, ⟨⟨⟨not_mem_unitText (by decide) _, not_mem_unitText (by decide) _⟩, not_mem_unitText (by decide) _⟩,
      not_mem_unitText (by decide) _⟩, hff⟩

theorem timePart_noDays (t : Bool) (u : M7Units) (hfrac : ∀ v ∈ frac, v < 2 ^ 64) :
    NoUnit 68 (timePart t u ++ unitText 70 frac) ∧
      (isDigit (charAt (timePart t u ++ unitText 70 frac) 0) = true → (takeNum (timePart t u ++ unitText 70 frac)).isSome) := by
  cases t with
  | true =>
    refine ⟨?_, fun hdigit => (nomatch hdigit)⟩
    rfl
  | false =>
    cases frac with
    | none => exact ⟨rfl, fun hdigit => (nomatch hdigit)⟩
    | some f =>
      have hnum : takeNum (decimal f ++ [70]) = some (f, [70]) := takeNum_decimal (hfrac f rfl) rfl
      refine ⟨noUnit_of_takeNum hnum (by decide), fun _ => ?_⟩
      show (takeNum (decimal f ++ [70])).isSome
      rw [hnum]
      rfl

theorem optUnits_text (hu : UnitsOk u) (hnone : t = false → u = (none, none, none, none, none)) (hfrac : ∀ v ∈ frac, v < 2 ^ 64) :
    optUnits (timePart t u ++ unitText 70 frac) = some (t, u, unitText 70 frac) := by
  cases t with
  | true =>
    show (takeUnits (unitsText u ++ unitText 70 frac)).map _ = _
    rw [takeUnits_text hu hfrac]
    rfl
  | false =>
    obtain rfl := hnone rfl
    show optUnits (unitText 70 frac) = _
    rw [optUnits, if_neg]
    cases frac with
    | none => decide
    | some f =>
      obtain ⟨c, cs, hcs⟩ := exists_cons_of_ne_nil (decimal_ne_nil f)
      have hc : isDigit c = true := isDigit_of_mem_decimal (by rw [hcs]; exact mem_cons_self)
      show ¬charAt (decimal f ++ [70]) 0 = 84
      rw [hcs]
      rintro rfl
      cases hc

theorem render_duration {x : M7Duration} (h : DurationOk x) :
    m7DurationRender x = (if x.neg then [45, 80] else [80]) ++ (unitText 68 x.d ++
      (timePart x.t (x.h, x.m, x.s, x.n, x.ff) ++ unitText 70 x.frac)) ++ optText (fun z => tzText z ++ [90]) x.tz := by
  obtain ⟨neg, d, t, hh, m, s, n, ff, frac, tz⟩ := x
  cases t with
  | true => simp [m7DurationRender, timePart, unitsText]
  | false =>
    have hnone := h.noTime rfl
    obtain ⟨rfl, rfl, rfl, rfl, rfl⟩ := hnone
    simp [m7DurationRender, timePart, unitText, optText]

theorem m7DurationParse_render {x : M7Duration} (h : DurationOk x) (htz : ∀ z ∈ x.tz, TzOk z) :
    m7DurationParse (m7DurationRender x) = some x := by
  have hnone : x.t = false → (x.h, x.m, x.s, x.n, x.ff) = (none, none, none, none, none) := fun ht => by
    obtain ⟨hh, hm, hs, hn, hff⟩ := h.noTime ht
    rw [hh, hm, hs, hn, hff]
  have hbody : (90 : UInt8) ∉ (if x.neg then [45, 80] else [80]) ++ (unitText 68 x.d ++
      (timePart x.t (x.h, x.m, x.s, x.n, x.ff) ++ unitText 70 x.frac)) := by
    simp only [mem_append, not_or]
    exact ⟨by split <;> decide, not_mem_unitText (by decide) _, not_mem_timePart h.units, not_mem_unitText (by decide) _⟩
  have hsign : ∀ rest, scanChars [80] (if charAt ((if x.neg then [45, 80] else [80]) ++ rest) 0 = 45 then
      ((if x.neg then [45, 80] else [80]) ++ rest).drop 1 else (if x.neg then [45, 80] else [80]) ++ rest) = some rest := by
    intro rest
    cases x.neg <;> exact scanChars_cons 80 rest
  have hneg : ∀ rest, decide (charAt ((if x.neg then [45, 80] else [80]) ++ rest) 0 = 45) = x.neg := by
    intro rest
    cases x.neg <;> rfl
  have hrest := timePart_noDays x.t (x.h, x.m, x.s, x.n, x.ff) h.frac
  rw [render_duration h, m7DurationParse, splitTzZ_text hbody htz]
  simp only [hsign, hneg, Option.bind_eq_bind, Option.bind_some, takeDays_text h.d hrest.1 hrest.2,
    optUnits_text h.units hnone h.frac, takeFrac_text h.frac, Option.pure_def]

end DvbIpiTools.Bim.Codec
