import DvbIpiTools.Bim.Codec.LocatorGrammar

set_option autoImplicit false

/-! # When `loc_parse` is well defined

Only the time part can go wrong: nine conversions with something else than the last `S` behind them leave `used` without a value. Else the
cursor stays within the text, and a text that is accepted is a locator. -/

namespace DvbIpiTools.Bim.Codec

open CursorScan DateUtil List

/-! ## The scanners take from the front -/

theorem suffix_scanChars {cs s rest : List UInt8} (h : scanChars cs s = some rest) : s = cs ++ rest := by
  unfold scanChars at h
  split at h
  · next hcs =>
    cases h
    obtain ⟨u, rfl⟩ := isPrefixOf_iff_prefix.1 hcs
    rw [drop_left]
  · cases h

theorem suffix_scanDigits {w : Option Nat} {s rest : List UInt8} {neg : Bool} {n : Nat} (h : scanDigits w s = some (neg, n, rest)) :
    rest <:+ s := by
  have hbody : (if charAt (skipWs s) 0 = 45 ∨ charAt (skipWs s) 0 = 43 then (skipWs s).drop 1 else skipWs s) <:+ s := by
    split
    · exact (drop_suffix 1 _).trans (dropWhile_suffix isSpace)
    · exact dropWhile_suffix isSpace
  unfold scanDigits at h
  simp only at h
  generalize (if charAt (skipWs s) 0 = 45 ∨ charAt (skipWs s) 0 = 43 then (skipWs s).drop 1 else skipWs s) = body at h hbody
  split at h <;> split at h <;> cases h
  all_goals exact (drop_suffix _ _).trans hbody

theorem suffix_scanInt {w : Nat} {s rest : List UInt8} {x : Int} (h : scanInt w s = some (x, rest)) : rest <:+ s := by
  obtain ⟨⟨neg, n, r⟩, hr, h⟩ := Option.bind_eq_some_iff.1 h
  cases h
  exact suffix_scanDigits hr

theorem suffix_scanUint {w : Option Nat} {s rest : List UInt8} {x : Nat} (h : scanUint w s = some (x, rest)) : rest <:+ s := by
  obtain ⟨⟨neg, n, r⟩, hr, h⟩ := Option.bind_eq_some_iff.1 h
  cases h
  exact suffix_scanDigits hr

theorem scanTime_split {s rest : List UInt8} {time : Int × Nat × Nat} (h : scanTime s = some (time, rest)) :
    ∃ t, s = 126 :: t ++ rest := by
  have hlit : ∀ {cs u v : List UInt8}, scanChars cs u = some v → v <:+ u := fun hc => ⟨_, (suffix_scanChars hc).symm⟩
  obtain ⟨s1, h1, h⟩ := Option.bind_eq_some_iff.1 h
  obtain ⟨⟨y, s2⟩, h2, h⟩ := Option.bind_eq_some_iff.1 h
  obtain ⟨⟨mo, s3⟩, h3, h⟩ := Option.bind_eq_some_iff.1 h
  obtain ⟨⟨d, s4⟩, h4, h⟩ := Option.bind_eq_some_iff.1 h
  obtain ⟨s5, h5, h⟩ := Option.bind_eq_some_iff.1 h
  obtain ⟨⟨hh, s6⟩, h6, h⟩ := Option.bind_eq_some_iff.1 h
  obtain ⟨⟨mm, s7⟩, h7, h⟩ := Option.bind_eq_some_iff.1 h
  obtain ⟨⟨ss, s8⟩, h8, h⟩ := Option.bind_eq_some_iff.1 h
  obtain ⟨s9, h9, h⟩ := Option.bind_eq_some_iff.1 h
  obtain ⟨⟨dh, s10⟩, h10, h⟩ := Option.bind_eq_some_iff.1 h
  obtain ⟨s11, h11, h⟩ := Option.bind_eq_some_iff.1 h
  obtain ⟨⟨dm, s12⟩, h12, h⟩ := Option.bind_eq_some_iff.1 h
  obtain ⟨s13, h13, h⟩ := Option.bind_eq_some_iff.1 h
  obtain ⟨⟨ds, s14⟩, h14, h⟩ := Option.bind_eq_some_iff.1 h
  obtain ⟨-, rfl⟩ := Prod.mk.inj (Option.some.inj h)
  have hsuffix : s14 <:+ s1 :=
    (suffix_scanUint h14).trans <| (hlit h13).trans <| (suffix_scanUint h12).trans <| (hlit h11).trans <|
      (suffix_scanUint h10).trans <| (hlit h9).trans <| (suffix_scanUint h8).trans <| (suffix_scanUint h7).trans <|
      (suffix_scanUint h6).trans <| (hlit h5).trans <| (suffix_scanInt h4).trans <| (suffix_scanInt h3).trans (suffix_scanInt h2)
  obtain ⟨t, rfl⟩ := hsuffix
  exact ⟨t, (suffix_scanChars h1 : s = [126] ++ (t ++ s14))⟩

/-! ## Behind the head -/

/-- Nine numbers of a time are converted, and what follows is not the literal that ends it. -/
def UnfinishedTime (r : List UInt8) : Prop := ∃ time rest, scanTime r = some (time, rest) ∧ charAt rest 0 ≠ 83

section Tail

variable {s : List UInt8} {p : Nat}

theorem locTime_cases (hp : p ≤ s.length) : (locTime s p = .error .refused ∧ ¬ UnfinishedTime (s.drop p)) ∨
    (locTime s p = .error .unsetOffset ∧ UnfinishedTime (s.drop p)) ∨
    ∃ time t r, s.drop p = t ++ r ∧ (t = [] ∨ TimePart t r) ∧ locTime s p = .ok (time, p + t.length) ∧
      ¬ UnfinishedTime (s.drop p) := by
  unfold locTime
  rw [walk_bind_ok (peek_ok hp)]
  by_cases hfirst : charAt (s.drop p) 0 = 126
  · rw [if_neg (not_not.2 hfirst)]
    cases hscan : scanTime (s.drop p) with
    | none =>
      refine .inl ⟨rfl, ?_⟩
      rintro ⟨time, rest, h, -⟩
      rw [hscan] at h
      cases h
    | some x =>
      obtain ⟨time, rest⟩ := x
      by_cases hlast : charAt rest 0 = 83
      · refine .inr (.inr ?_)
        obtain ⟨t, ht⟩ := scanTime_split hscan
        obtain ⟨r, rfl⟩ : ∃ r, rest = 83 :: r := by
          cases rest with
          | nil => exact absurd (show (0 : UInt8) = 83 from hlast) (by decide)
          | cons c r => exact ⟨r, congrArg (· :: r) hlast⟩
        have hsplit : s.drop p = (126 :: t ++ [83]) ++ r := by
          rw [ht, append_assoc]
          rfl
        refine ⟨some time, 126 :: t ++ [83], r, hsplit, .inr ⟨time, hsplit ▸ hscan⟩, ?_, ?_⟩
        · simp only [usedBy, if_pos hlast, ht, length_append, length_cons, length_nil]
          congr 2
          omega
        · rintro ⟨time', rest', h, hne⟩
          rw [hscan] at h
          cases h
          exact hne hlast
      · refine .inr (.inl ⟨?_, time, rest, hscan, hlast⟩)
        simp only [usedBy, if_neg hlast]
  · rw [if_pos hfirst]
    refine .inr (.inr ⟨none, [], s.drop p, rfl, .inl rfl, rfl, ?_⟩)
    rintro ⟨time, rest, h, -⟩
    obtain ⟨t, ht⟩ := scanTime_split h
    rw [ht] at hfirst
    exact hfirst rfl

/-- The path and the check that nothing follows. -/
def locEnd (s : List UInt8) (l : Loc) (time : Option (Int × Nat × Nat)) : Cursor Loc := do
  let path ← locPath s
  if (← peek s) ≠ 0 then refuse
  else return { l with time, path }

theorem locEnd_cases (hzero : 0 ∉ s) (hp : p ≤ s.length) (l : Loc) (time : Option (Int × Nat × Nat)) :
    locEnd s l time p = .error .refused ∨ ∃ l' p', locEnd s l time p = .ok (l', p') ∧ s.drop p ∈ pathLang := by
  unfold locEnd locPath
  by_cases hslash : charAt (s.drop p) 0 = 47
  · obtain ⟨r, hr⟩ := drop_of_charAt (by decide) hslash
    refine .inr ⟨{ l with time, path := some (s.drop (p + 1)) }, s.length, ?_, ?_⟩
    · rw [bind_assoc, walk_bind_ok (peek_ok hp), if_neg (not_not.2 hslash),
        walk_bind_ok (show (fun q => .ok (some (s.drop (q + 1)), s.length) : Cursor (Option (List UInt8))) p = .ok _ from rfl),
        walk_bind_ok (peek_ok (Nat.le_refl s.length)), drop_length]
      rfl
    · rw [hr]
      exact .inr (Language.append_mem_mul (mem_literal.2 rfl) (show r ∈ ({ _t | True } : Language UInt8) from trivial))
  rw [bind_assoc, walk_bind_ok (peek_ok hp), if_pos hslash, pure_bind, walk_bind_ok (peek_ok hp)]
  by_cases hend : charAt (s.drop p) 0 = 0
  · refine .inr ⟨{ l with time, path := none }, p, by rw [if_neg (not_not.2 hend)]; rfl, ?_⟩
    cases hdrop : s.drop p with
    | nil => exact .inl rfl
    | cons c r =>
      rw [hdrop] at hend
      have hc : c = 0 := hend
      have hmem : c ∈ s := mem_of_mem_drop (hdrop ▸ mem_cons_self)
      exact absurd (hc ▸ hmem) hzero
  · rw [if_pos hend]
    exact .inl rfl

end Tail

theorem locRun_eq (s : List UInt8) : locRun s = locHead s >>= fun l => locTime s >>= fun time => locEnd s l time := rfl

/-- How `loc_parse` ends: it refuses, or accepts a locator, or a text that is a locator up to an unfinished time makes it use an offset that
    was never set. -/
theorem locParse_cases (uri : CStr) :
    (locParse uri.val = .error .unsetOffset ∧ ∃ h r, uri.val = h ++ r ∧ h ∈ headLang ∧ UnfinishedTime r) ∨
    ((locParse uri.val = .error .refused ∨ ∃ l, locParse uri.val = .ok l ∧ Locator uri.val) ∧
      ¬ ∃ h r, uri.val = h ++ r ∧ h ∈ headLang ∧ UnfinishedTime r) := by
  obtain ⟨s, hzero⟩ := uri
  -- a head in front of an unfinished time is the one that the parser walks over
  have hreach : ∀ {h r}, s = h ++ r → h ∈ headLang → UnfinishedTime r → ∃ l, locHead s 0 = .ok (l, h.length) := by
    rintro h r rfl hh ⟨time, rest, hscan, -⟩
    obtain ⟨t, rfl⟩ := scanTime_split hscan
    exact locHead_of_mem hh mem_cons_self
  simp only [locParse, locRun_eq]
  rcases locHead_cases s with hstop | ⟨l, h, r, rfl, hh, hok⟩
  · rw [walk_bind_error hstop]
    refine .inr ⟨.inl rfl, ?_⟩
    rintro ⟨h, r, hs, hh, hr⟩
    obtain ⟨l, hl⟩ := hreach hs hh hr
    rw [hstop] at hl
    cases hl
  obtain ⟨hp, hdrop⟩ := drop_add_length (Nat.zero_le _) (show (h ++ r).drop 0 = h ++ r from rfl)
  rw [zero_add] at hp hdrop
  have hsame : ∀ {h' r'}, h ++ r = h' ++ r' → h' ∈ headLang → UnfinishedTime r' → UnfinishedTime r := by
    intro h' r' hs hh' hr'
    obtain ⟨l', hl'⟩ := hreach hs hh' hr'
    rw [hok] at hl'
    have hlen : h.length = h'.length := (Prod.mk.inj (Except.ok.inj hl')).2
    rw [(append_inj hs hlen).2]
    exact hr'
  rw [walk_bind_ok hok]
  rcases locTime_cases hp with ⟨hstop, hfin⟩ | ⟨hunset, hun⟩ | ⟨time, t, r', hsplit, ht, hok', hfin⟩
  · rw [walk_bind_error hstop]
    rw [hdrop] at hfin
    exact .inr ⟨.inl rfl, fun ⟨_, _, hs, hh', hr'⟩ => hfin (hsame hs hh' hr')⟩
  · rw [walk_bind_error hunset]
    rw [hdrop] at hun
    exact .inl ⟨rfl, h, r, rfl, hh, hun⟩
  · rw [walk_bind_ok hok']
    obtain ⟨hp', hdrop'⟩ := drop_add_length hp hsplit
    rw [hdrop] at hfin
    refine .inr ⟨?_, fun ⟨_, _, hs, hh', hr'⟩ => hfin (hsame hs hh' hr')⟩
    rcases locEnd_cases hzero hp' l time with hstop | ⟨l', p', hok'', hpath⟩
    · rw [hstop]
      exact .inl rfl
    · rw [hok'']
      refine .inr ⟨l', rfl, h, t, r', ?_, hh, ht, hdrop' ▸ hpath⟩
      rw [← hsplit, hdrop]

/-- `loc_parse` is well defined just for the texts that are not a locator up to an unfinished time. -/
theorem locParse_wellDefined_iff (uri : CStr) :
    (locParse uri.val ≠ .error .unsetOffset ∧ locParse uri.val ≠ .error .outside ∧
      ∀ l, locParse uri.val = .ok l → Locator uri.val) ↔
    ¬ ∃ h r, uri.val = h ++ r ∧ h ∈ headLang ∧ UnfinishedTime r := by
  rcases locParse_cases uri with ⟨hunset, hun⟩ | ⟨hends, hfin⟩
  · exact ⟨fun h => absurd hunset h.1, absurd hun⟩
  refine ⟨fun _ => hfin, fun _ => ?_⟩
  rcases hends with hstop | ⟨l, hok, hloc⟩
  · rw [hstop]
    exact ⟨by simp, by simp, fun l h => nomatch h⟩
  · rw [hok]
    exact ⟨by simp, by simp, fun _ _ => hloc⟩

/-- An `X` in the place of the last letter. -/
theorem locParse_unset : locParse (text "dvb://1.2.3~20200101T000000Z--PT1H1M1X") = .error .unsetOffset := by
  decide +kernel

end DvbIpiTools.Bim.Codec
