import DvbIpiTools.Bim.Codec.M7Texts

set_option autoImplicit false

/-! # Texts of MPEG-7 time points

What `m7_timepoint_parse` finds is found again in the text that is printed from it. -/

namespace DvbIpiTools.Bim.Codec

open DateUtil List Option

/-! ## Dates -/

/-- What `m7Date` finds: the sign, the year, and the month and the day that may follow. -/
abbrev M7Date := Bool × Nat × Option Nat × Option Nat

structure DateOk (d : M7Date) : Prop where
  year : d.2.1 < 2 ^ 64
  month : ∀ m ∈ d.2.2.1, m < 100
  day : ∀ m ∈ d.2.2.2, m < 100
  nested : d.2.2.1 = none → d.2.2.2 = none

def m7DateText (d : M7Date) : List UInt8 :=
  (if d.1 then [45] else []) ++ decimal d.2.1 ++ optText (fun m => 45 :: padded 2 m) d.2.2.1 ++
    optText (fun m => 45 :: padded 2 m) d.2.2.2

variable {s : List UInt8} {d : M7Date}

theorem dateOk_of_m7Date (h : m7Date s = some d) : DateOk d := by
  obtain ⟨⟨year, s1⟩, hyear, h⟩ := bind_eq_some_iff.1 h
  have hy := takeNum_lt hyear
  simp only at h
  split at h
  · cases h
    exact ⟨hy, fun _ h => (nomatch h), fun _ h => (nomatch h), fun _ => rfl⟩
  obtain ⟨s2, -, h⟩ := bind_eq_some_iff.1 h
  obtain ⟨⟨month, s3⟩, hmonth, h⟩ := bind_eq_some_iff.1 h
  have hm := take2_lt hmonth
  split at h
  · cases h
    exact ⟨hy, fun _ h => some.inj h ▸ hm, fun _ h => (nomatch h), fun _ => rfl⟩
  obtain ⟨s4, -, h⟩ := bind_eq_some_iff.1 h
  obtain ⟨⟨day, s5⟩, hday, h⟩ := bind_eq_some_iff.1 h
  have hd := take2_lt hday
  split at h
  · cases h
    exact ⟨hy, fun _ h => some.inj h ▸ hm, fun _ h => some.inj h ▸ hd, fun h => (nomatch h)⟩
  · cases h

theorem m7Date_text (h : DateOk d) : m7Date (m7DateText d) = some d := by
  obtain ⟨neg, year, month, day⟩ := d
  obtain ⟨hy, hm, hd, hnested⟩ := h
  simp only at hy hm hd hnested
  have hsign : ∀ rest, (charAt ((if neg then [45] else []) ++ (decimal year ++ rest)) 0 = 45) = (neg = true) := by
    intro rest
    cases neg with
    | true => simp [charAt]
    | false =>
      obtain ⟨c, cs, hcs⟩ := exists_cons_of_ne_nil (decimal_ne_nil year)
      have hc : isDigit c = true := isDigit_of_mem_decimal (by rw [hcs]; exact mem_cons_self)
      have hne : c ≠ 45 := fun heq => by
        rw [heq] at hc
        cases hc
      simp [hcs, charAt, hne]
  have hbody : ∀ rest, (if neg = true then ((if neg then [45] else []) ++ (decimal year ++ rest)).drop 1
      else (if neg then [45] else []) ++ (decimal year ++ rest)) = decimal year ++ rest := by
    intro rest
    cases neg <;> rfl
  unfold m7Date m7DateText
  simp only [append_assoc]
  simp only [hsign, hbody, Bool.decide_eq_true]
  rw [takeNum_decimal hy]
  · simp only [bind_eq_bind, bind_some]
    cases month with
    | none =>
      rw [hnested rfl]
      rfl
    | some m =>
      have hm' := hm m rfl
      simp only [optText, cons_append, reduceCtorEq, if_false, scanChars_cons, bind_some]
      cases day with
      | none =>
        have htake := take2_padded hm' noDigit_nil
        rw [append_nil] at htake
        simp only [append_nil, htake, bind_some, if_true]
        rfl
      | some e =>
        have htake := @take2_padded m hm' (45 :: padded 2 e) rfl
        have htake' := take2_padded (hd e rfl) noDigit_nil
        rw [append_nil] at htake'
        simp only [htake, bind_some, reduceCtorEq, if_false, scanChars_cons, htake', if_true]
        rfl
  · cases month with
    | none =>
      rw [hnested rfl]
      rfl
    | some m => rfl

/-! ## Times of the day -/

/-- What `m7Time` finds: the hour, and minute, second, `n` and `ff` that may follow. -/
abbrev M7Time := Nat × Option Nat × Option Nat × Option Nat × Option Nat

structure TimeOk (t : M7Time) : Prop where
  hour : t.1 < 100
  min : ∀ m ∈ t.2.1, m < 100
  sec : ∀ m ∈ t.2.2.1, m < 100
  n : ∀ m ∈ t.2.2.2.1, m < 2 ^ 64
  ff : ∀ m ∈ t.2.2.2.2, m < 100
  min_none : t.2.1 = none → t.2.2.1 = none
  sec_none : t.2.2.1 = none → t.2.2.2.1 = none
  n_none : t.2.2.2.1 = none → t.2.2.2.2 = none

def m7TimeText (t : M7Time) : List UInt8 :=
  padded 2 t.1 ++ optText (fun m => 58 :: padded 2 m) t.2.1 ++ optText (fun m => 58 :: padded 2 m) t.2.2.1 ++
    optText (fun n => 58 :: decimal n) t.2.2.2.1 ++ optText (fun f => 46 :: padded 2 f) t.2.2.2.2

variable {c : UInt8} {rest : List UInt8}

theorem of_nested_section {α β : Type} {p : List UInt8 → Option (α × List UInt8)} {x : Option α}
    {before : Option β} (h : sectionBehind before c p s = some (x, rest)) {P : α → Prop}
    (hp : ∀ {u a v}, p u = some (a, v) → P a) : (∀ a ∈ x, P a) ∧ (before = none → x = none) := by
  cases before with
  | none =>
    cases h
    exact ⟨fun _ h => (nomatch h), fun _ => rfl⟩
  | some b => exact ⟨of_section h hp, fun h => (nomatch h)⟩

theorem nested_section_some {α β : Type} {p : List UInt8 → Option (α × List UInt8)} {f : α → List UInt8} {x : Option α}
    {before : Option β} (hbefore : before = none → x = none)
    (hp : ∀ a, x = some a → p (f a ++ rest) = some (a, rest)) (hnone : x = none → charAt rest 0 ≠ c) :
    sectionBehind before c p (optText (fun a => c :: f a) x ++ rest) = some (x, rest) := by
  cases before with
  | none =>
    rw [hbefore rfl]
    rfl
  | some b => exact section_some hp hnone

variable {t : M7Time}

theorem timeOk_of_m7Time (h : m7Time s = some t) : TimeOk t := by
  obtain ⟨⟨hour, s1⟩, hhour, h⟩ := bind_eq_some_iff.1 h
  obtain ⟨⟨min, s2⟩, hmin, h⟩ := bind_eq_some_iff.1 h
  obtain ⟨⟨sec, s3⟩, hsec, h⟩ := bind_eq_some_iff.1 h
  obtain ⟨⟨n, s4⟩, hn, h⟩ := bind_eq_some_iff.1 h
  obtain ⟨⟨ff, s5⟩, hff, h⟩ := bind_eq_some_iff.1 h
  simp only at hmin hsec hn hff h
  split at h
  · cases h
    obtain ⟨hsec', hminnone⟩ := of_nested_section hsec fun hp => take2_lt hp
    obtain ⟨hn', hsecnone⟩ := of_nested_section hn fun hp => takeNum_lt hp
    obtain ⟨hff', hnnone⟩ := of_nested_section hff fun hp => take2_lt hp
    exact ⟨take2_lt hhour, of_section hmin fun hp => take2_lt hp, hsec', hn', hff', hminnone, hsecnone, hnnone⟩
  · cases h

theorem m7Time_text (h : TimeOk t) : m7Time (m7TimeText t) = some t := by
  obtain ⟨hour, min, sec, n, ff⟩ := t
  obtain ⟨hhour, hmin, hsec, hn, hff, hminnone, hsecnone, hnnone⟩ := h
  simp only at hhour hmin hsec hn hff hminnone hsecnone hnnone
  have hdff : NoDigit (optText (fun f => 46 :: padded 2 f) ff ++ []) := noDigit_optText (fun _ => rfl) rfl ff noDigit_nil
  have hdn := noDigit_optText (f := fun n => 58 :: decimal n) (fun _ => rfl) rfl n hdff
  have hdsec := noDigit_optText (f := fun m => 58 :: padded 2 m) (fun _ => rfl) rfl sec hdn
  have hdmin := noDigit_optText (f := fun m => 58 :: padded 2 m) (fun _ => rfl) rfl min hdsec
  have htext : m7TimeText (hour, min, sec, n, ff) = padded 2 hour ++ (optText (fun m => 58 :: padded 2 m) min ++
      (optText (fun m => 58 :: padded 2 m) sec ++ (optText (fun n => 58 :: decimal n) n ++
        (optText (fun f => 46 :: padded 2 f) ff ++ [])))) := by
    simp only [m7TimeText, append_assoc, append_nil]
  -- what stands behind a missing section is not its separator
  have hend : charAt (optText (fun f => 46 :: padded 2 f) ff ++ []) 0 ≠ 58 := by
    cases ff with
    | none => exact show (0 : UInt8) ≠ 58 by decide
    | some f => exact show (46 : UInt8) ≠ 58 by decide
  rw [htext, m7Time, take2_padded hhour hdmin]
  simp only [bind_eq_bind, bind_some]
  rw [section_some (fun m hm => take2_padded (hmin m hm) hdsec) fun hnone => by
    rw [hminnone hnone, hsecnone (hminnone hnone)]
    exact hend]
  simp only [bind_some]
  rw [nested_section_some hminnone (fun m hm => take2_padded (hsec m hm) hdn) fun hnone => by
    rw [hsecnone hnone]
    exact hend]
  simp only [bind_some]
  rw [nested_section_some hsecnone (fun m hm => takeNum_decimal (hn m hm) hdff) fun _ => hend]
  simp only [bind_some]
  rw [nested_section_some hnnone (fun m hm => take2_padded (hff m hm) noDigit_nil) fun _ => show (0 : UInt8) ≠ 46 by decide]
  rfl

/-! ## Fractions -/

theorem span_not_mem {c : UInt8} {u rest : List UInt8} (hu : c ∉ u) :
    (u ++ c :: rest).takeWhile (· ≠ c) = u ∧ (u ++ c :: rest).dropWhile (· ≠ c) = c :: rest := by
  have hall : ∀ d ∈ u, decide (d ≠ c) = true := fun d hd => by
    have hne : d ≠ c := fun heq => hu (heq ▸ hd)
    simpa using hne
  rw [takeWhile_append_of_pos hall, dropWhile_append_of_pos hall]
  simp

theorem takeWhile_ne_self {u : List UInt8} (hu : c ∉ u) : u.takeWhile (· ≠ c) = u := by
  rw [takeWhile_eq_self_iff]
  intro d hd
  have hne : d ≠ c := fun heq => hu (heq ▸ hd)
  simpa using hne

theorem splitFrac_text {frac : Option Nat} (hfrac : ∀ f ∈ frac, f < 2 ^ 64) {u : List UInt8} (hu : (70 : UInt8) ∉ u) :
    splitFrac (u ++ optText (fun f => 70 :: decimal f) frac) = some (frac, u) := by
  cases frac with
  | none =>
    show splitFrac (u ++ []) = _
    rw [append_nil, splitFrac, if_neg hu]
  | some f =>
    show splitFrac (u ++ 70 :: decimal f) = _
    have hspan := @span_not_mem 70 u (decimal f) hu
    have hnum := takeNum_decimal (hfrac f rfl) noDigit_nil
    rw [append_nil] at hnum
    unfold splitFrac
    simp only [hspan, drop_succ_cons, drop_zero, hnum]
    rw [if_pos (by simp)]

/-! ## Time points -/

theorem date_chars (h : DateOk d) : ∀ c ∈ m7DateText d, isDigit c = true ∨ c = 45 := by
  intro c hc
  simp only [m7DateText, mem_append] at hc
  rcases hc with ((hc | hc) | hc) | hc
  · split at hc
    · exact .inr (mem_singleton.1 hc)
    · cases hc
  · exact .inl (isDigit_of_mem_decimal hc)
  · exact of_mem_optText hc fun m hm c hc => isDigit_of_mem_padded (h.month m hm) hc
  · exact of_mem_optText hc fun m hm c hc => isDigit_of_mem_padded (h.day m hm) hc

theorem time_chars (h : TimeOk t) : ∀ c ∈ m7TimeText t, isDigit c = true ∨ c = 58 ∨ c = 46 := by
  intro c hc
  simp only [m7TimeText, mem_append] at hc
  rcases hc with (((hc | hc) | hc) | hc) | hc
  · exact .inl (isDigit_of_mem_padded h.hour hc)
  · exact (of_mem_optText hc fun m hm c hc => isDigit_of_mem_padded (h.min m hm) hc).imp_right .inl
  · exact (of_mem_optText hc fun m hm c hc => isDigit_of_mem_padded (h.sec m hm) hc).imp_right .inl
  · exact (of_mem_optText hc fun n _ c hc => isDigit_of_mem_decimal hc).imp_right .inl
  · exact (of_mem_optText hc fun m hm c hc => isDigit_of_mem_padded (h.ff m hm) hc).imp_right .inr

/-- The parts that the parser finds are within bounds. -/
structure PartsOk (date : Option M7Date) (time : Option M7Time) (frac : Option Nat) : Prop where
  date : ∀ d ∈ date, DateOk d
  time : ∀ t ∈ time, TimeOk t
  frac : ∀ f ∈ frac, f < 2 ^ 64

theorem of_splitFrac {frac : Option Nat} (h : splitFrac s = some (frac, rest)) : ∀ f ∈ frac, f < 2 ^ 64 := by
  unfold splitFrac at h
  split at h
  · split at h
    · next f hnum =>
      cases h
      exact fun _ hf => some.inj hf ▸ takeNum_lt hnum
    · cases h
  · cases h
    exact fun _ hf => (nomatch hf)

theorem partsOk_of_parse {t : M7Timepoint} (h : m7TimepointParse s = some t) :
    ∃ date time frac tz, t = .ofParts date time frac tz ∧ PartsOk date time frac := by
  obtain ⟨⟨frac, u⟩, hfrac, h⟩ := bind_eq_some_iff.1 h
  obtain ⟨date, hdate, h⟩ := bind_eq_some_iff.1 h
  obtain ⟨time, htime, h⟩ := bind_eq_some_iff.1 h
  refine ⟨date, time, frac, (splitTz s).1, (some.inj h).symm, ?_, ?_, of_splitFrac hfrac⟩
  · unfold optDate at hdate
    split at hdate
    · cases hdate
      exact fun _ hd => (nomatch hd)
    · obtain ⟨d, hd, rfl⟩ := map_eq_some_iff.1 hdate
      exact fun _ he => some.inj he ▸ dateOk_of_m7Date hd
  unfold optTime at htime
  split at htime
  · obtain ⟨d, hd, rfl⟩ := map_eq_some_iff.1 htime
    exact fun _ he => some.inj he ▸ timeOk_of_m7Time hd
  · cases htime
    exact fun _ hd => (nomatch hd)

theorem render_ofParts (date : Option M7Date) (time : Option M7Time) (frac : Option Nat) (tz : Option (Int × Nat)) :
    m7TimepointRender (.ofParts date time frac tz) = optText m7DateText date ++
      (optText (fun t => 84 :: m7TimeText t) time ++ optText (fun f => 70 :: decimal f) frac) ++ optText tzText tz := by
  rcases date with _ | ⟨_ | _, _⟩ <;> cases time <;>
    simp [m7TimepointRender, M7Timepoint.ofParts, optText, m7DateText, m7TimeText]

theorem splitTz_text {d r : List UInt8} (hplus : (43 : UInt8) ∉ d ++ r) (hcolon : (58 : UInt8) ∉ d) (hminus : (45 : UInt8) ∉ r)
    (hr : NoDigit r) (hr' : charAt r 0 ≠ 58) {tz : Option (Int × Nat)} (htz : ∀ z ∈ tz, TzOk z) :
    splitTz (d ++ r ++ optText tzText tz) = (tz, d ++ r) := by
  cases tz with
  | none =>
    show splitTz (d ++ r ++ []) = _
    rw [append_nil, splitTz_none hplus hcolon hminus hr hr']
  | some z => exact splitTz_some (htz z rfl) (d ++ r)

theorem not_mem_of_chars {P : UInt8 → Prop} {u : List UInt8} (hu : ∀ c ∈ u, P c) (hc : ¬P c) : c ∉ u :=
  fun hmem => hc (hu c hmem)

theorem m7TimepointParse_render {date : Option M7Date} {time : Option M7Time} {frac : Option Nat} (h : PartsOk date time frac)
    {tz : Option (Int × Nat)} (htz : ∀ z ∈ tz, TzOk z) :
    m7TimepointParse (m7TimepointRender (.ofParts date time frac tz)) = some (.ofParts date time frac tz) := by
  have hd : ∀ c ∈ optText m7DateText date, isDigit c = true ∨ c = 45 := by
    cases date with
    | none => exact fun _ hc => (nomatch hc)
    | some d => exact date_chars (h.date d rfl)
  have ht : ∀ c ∈ optText (fun t => 84 :: m7TimeText t) time, (isDigit c = true ∨ c = 58 ∨ c = 46) ∨ c = 84 :=
    fun c hc => of_mem_optText hc fun t ht => time_chars (h.time t ht)
  have hf : ∀ c ∈ optText (fun f => 70 :: decimal f) frac, isDigit c = true ∨ c = 70 :=
    fun c hc => of_mem_optText hc fun f _ c hc => isDigit_of_mem_decimal hc
  have hr : ∀ {P : UInt8 → Prop}, P 0 → P 84 → P 70 →
      P (charAt (optText (fun t => 84 :: m7TimeText t) time ++ optText (fun f => 70 :: decimal f) frac) 0) := by
    intro P h0 hT hF
    cases time with
    | some t => exact hT
    | none => cases frac with
      | some f => exact hF
      | none => exact h0
  rw [render_ofParts]
  have hsplit := @splitTz_text (optText m7DateText date)
    (optText (fun t => 84 :: m7TimeText t) time ++ optText (fun f => 70 :: decimal f) frac)
    (by
      simp only [mem_append, not_or]
      exact ⟨not_mem_of_chars hd (by decide), not_mem_of_chars ht (by decide), not_mem_of_chars hf (by decide)⟩)
    (not_mem_of_chars hd (by decide))
    (by
      simp only [mem_append, not_or]
      exact ⟨not_mem_of_chars ht (by decide), not_mem_of_chars hf (by decide)⟩)
    (hr (P := fun c => isDigit c = false) rfl rfl rfl)
    (hr (P := fun c => c ≠ 58) (by decide) (by decide) (by decide)) tz htz
  have hfrac := @splitFrac_text frac h.frac
    (optText m7DateText date ++ optText (fun t => 84 :: m7TimeText t) time)
    (by
      simp only [mem_append, not_or]
      exact ⟨not_mem_of_chars hd (by decide), not_mem_of_chars ht (by decide)⟩)
  rw [append_assoc] at hfrac
  have hnoT : (84 : UInt8) ∉ optText m7DateText date := not_mem_of_chars hd (by decide)
  have hwhile : (optText m7DateText date ++ optText (fun t => 84 :: m7TimeText t) time).takeWhile (· ≠ 84) =
      optText m7DateText date := by
    cases time with
    | none =>
      show (_ ++ []).takeWhile _ = _
      rw [append_nil, takeWhile_ne_self hnoT]
    | some t => exact (span_not_mem hnoT).1
  have hdate : optDate (optText m7DateText date ++ optText (fun t => 84 :: m7TimeText t) time) = some date := by
    unfold optDate
    rw [hwhile]
    cases date with
    | none => rfl
    | some d =>
      have hne : optText m7DateText (some d) ≠ [] := by simp [optText, m7DateText, decimal_ne_nil]
      rw [if_neg hne, show optText m7DateText (some d) = m7DateText d from rfl, m7Date_text (h.date d rfl)]
      rfl
  have htime : optTime (optText m7DateText date ++ optText (fun t => 84 :: m7TimeText t) time) = some time := by
    cases time with
    | none =>
      show (if (84 : UInt8) ∈ _ ++ [] then _ else _) = _
      rw [append_nil, if_neg hnoT]
    | some t =>
      have hspan : (optText m7DateText date ++ 84 :: m7TimeText t).dropWhile (· ≠ 84) = 84 :: m7TimeText t :=
        (span_not_mem hnoT).2
      show (if (84 : UInt8) ∈ optText m7DateText date ++ 84 :: m7TimeText t then
        (m7Time (((optText m7DateText date ++ 84 :: m7TimeText t).dropWhile (· ≠ 84)).drop 1)).map some else _) = _
      rw [if_pos (by simp), hspan, drop_succ_cons, drop_zero, m7Time_text (h.time t rfl)]
      rfl
  rw [m7TimepointParse, hsplit]
  simp only [bind_eq_bind, hfrac, bind_some, hdate, htime, Option.pure_def]

end DvbIpiTools.Bim.Codec
