import DvbIpiTools.Bim.Codec.Texts
import DvbIpiTools.Utils.CursorScan

set_option autoImplicit false

/-! # Parsing a locator (`loc_parse`)

The parser walks over the text with a cursor, modelled as an offset that every read holds against the end of the text. The time part is
one `sscanf`, which sets its `%n` only behind the last literal. -/

namespace DvbIpiTools.Bim.Codec

open DateUtil List Bool

/-- `loc_t`: the time is the day, the second of the day and the duration; no path is NULL. -/
structure Loc where
  onid : Nat
  tsid : Nat
  sid : Nat
  tags : List Nat
  cid : Option Nat
  kind : Nat
  id : Nat
  time : Option (Int × Nat × Nat)
  path : Option (List UInt8)
deriving DecidableEq

/-- How `loc_parse` ends without a locator. -/
inductive LocStop where
  | refused
  /-- `p += used` with a `used` that nothing was assigned to. -/
  | unsetOffset
  /-- A read behind the terminator. -/
  | outside
deriving DecidableEq

/-- A step of the parser: the state is the cursor. -/
abbrev Cursor (α : Type) := CursorScan.Walk LocStop α

def refuse {α : Type} : Cursor α := fun _ => .error .refused

/-- `p += n`. -/
def advance (n : Nat) : Cursor Unit := fun p => .ok ((), p + n)

/-- `*p`. -/
def peek (s : List UInt8) : Cursor UInt8 := fun p =>
  if p ≤ s.length then .ok (charAt s p, p) else .error .outside

/-- `hex_run` at the cursor. -/
def hexRunAt (s : List UInt8) : Cursor Nat := fun p =>
  if p ≤ s.length then match hexRun (s.drop p) with
    | none => .error .refused
    | some (v, rest) => .ok (v, s.length - rest.length)
  else .error .outside

/-- `if (*p++ != c) return -1`. -/
def expect (s : List UInt8) (c : UInt8) : Cursor Unit := do
  let d ← peek s
  advance 1
  if d ≠ c then refuse

/-- The transport stream, which may be missing. -/
def locTsid (s : List UInt8) : Cursor Nat := do
  if (← peek s) ≠ 46 then hexRunAt s else pure 0

/-- The identifiers. -/
def locIds (s : List UInt8) : Cursor (Nat × Nat × Nat) := do
  if !(text "dvb://").isPrefixOf s then refuse
  advance 6
  let onid ← hexRunAt s
  expect s 46
  let tsid ← locTsid s
  expect s 46
  let sid ← hexRunAt s
  return (onid, tsid, sid)

/-- The loop over the component tags, with the room that is left for them. -/
def locTags (s : List UInt8) (sep : UInt8) : Nat → Cursor (List Nat)
  | 0 => do
    let _ ← peek s
    return []
  | room + 1 => do
    if (← peek s) ≠ sep then return []
    else
      advance 1
      let tag ← hexRunAt s
      let tags ← locTags s 38 room
      return tag :: tags

/-- The component tags and the number behind their `$`. -/
def locComponents (s : List UInt8) : Cursor (List Nat × Option Nat) := do
  if (← peek s) ≠ 46 then return ([], none)
  else
    let tags ← locTags s 46 32
    if (← peek s) ≠ 36 then return (tags, none)
    else
      advance 1
      let cid ← hexRunAt s
      return (tags, some cid)

/-- The event or TVA id with its kind. -/
def locEvent (s : List UInt8) : Cursor (Nat × Nat) := do
  if (← peek s) ≠ 59 then return (0, 0)
  else
    advance 1
    if (← peek s) ≠ 59 then
      let id ← hexRunAt s
      return (1, id)
    else
      advance 1
      let id ← hexRunAt s
      return (2, id)

/-- What nine conversions of `sscanf(p, "~%4d%2d%2dT%2u%2u%2uZ--PT%uH%uM%uS%n", ...)` assign, and the text behind them. -/
def scanTime (s : List UInt8) : Option ((Int × Nat × Nat) × List UInt8) := do
  let s ← scanChars [126] s
  let (y, s) ← scanInt 4 s
  let (mo, s) ← scanInt 2 s
  let (d, s) ← scanInt 2 s
  let s ← scanChars [84] s
  let (hh, s) ← scanUint (some 2) s
  let (mm, s) ← scanUint (some 2) s
  let (ss, s) ← scanUint (some 2) s
  let s ← scanChars (text "Z--PT") s
  let (dh, s) ← scanUint none s
  let s ← scanChars [72] s
  let (dm, s) ← scanUint none s
  let s ← scanChars [77] s
  let (ds, s) ← scanUint none s
  return ((dateToMjd y mo d, (hh * 3600 + mm * 60 + ss) % 2 ^ 32, (dh * 3600 + dm * 60 + ds) % 2 ^ 32), s)

/-- `used`: set where the literal behind the last conversion matches. -/
def usedBy (s rest : List UInt8) : Option Nat :=
  if charAt rest 0 = 83 then some (s.length - rest.length + 1) else none

/-- The time part. -/
def locTime (s : List UInt8) : Cursor (Option (Int × Nat × Nat)) := do
  if (← peek s) ≠ 126 then return none
  else fun p => match scanTime (s.drop p) with
    | none => .error .refused
    | some (time, rest) => match usedBy (s.drop p) rest with
      | none => .error .unsetOffset
      | some used => .ok (some time, p + used)

/-- The path, up to the terminator. -/
def locPath (s : List UInt8) : Cursor (Option (List UInt8)) := do
  if (← peek s) ≠ 47 then return none
  else fun p => .ok (some (s.drop (p + 1)), s.length)

/-- The parts in front of the time. -/
def locHead (s : List UInt8) : Cursor Loc := do
  let (onid, tsid, sid) ← locIds s
  let (tags, cid) ← locComponents s
  let (kind, id) ← locEvent s
  return { onid, tsid, sid, tags, cid, kind, id, time := none, path := none }

/-- `loc_parse` from its cursor on. -/
def locRun (s : List UInt8) : Cursor Loc := do
  let l ← locHead s
  let time ← locTime s
  let path ← locPath s
  if (← peek s) ≠ 0 then refuse
  else return { l with time, path }

def locParse (s : List UInt8) : Except LocStop Loc := (locRun s 0).map (·.1)

example : (locParse (text "dvb://1.2.3.4&5$6;7~20200101T000000Z--PT1H1M1S/x")).isOk := by decide +kernel

/-! # The locator grammar

The languages of the parts of a locator, and that `loc_parse` walks over just these. -/

open CursorScan DateUtil

/-! ## Languages -/

/-- The language of one text. -/
def literal (t : List UInt8) : Language UInt8 := {t}

variable {u t : List UInt8}

theorem mem_literal : u ∈ literal t ↔ u = t := Iff.rfl

/-- What `hex_run` takes. -/
def hexLang : Language UInt8 :=
  { t | ∃ front ds, t = front ++ ds ∧ (front = [] ∨ front = [48, 120] ∨ front = [48, 88]) ∧ ds ≠ [] ∧
    (∀ c ∈ ds, isXdigit c = true) ∧ hexValue ds ≤ 0xFFFFFFFF }

/-- A part that begins with `c`, or nothing. -/
def optionalLang (c : UInt8) (L : Language UInt8) : Language UInt8 := 1 + literal [c] * L

def idsLang : Language UInt8 :=
  literal (text "dvb://") * (hexLang * (literal [46] * ((1 + hexLang) * (literal [46] * hexLang))))

/-- At most so many tags, the first one behind `sep` and the others behind `&`. -/
def tagsLang (sep : UInt8) : Nat → Language UInt8
  | 0 => 1
  | room + 1 => optionalLang sep (hexLang * tagsLang 38 room)

def componentsLang : Language UInt8 := optionalLang 46 (hexLang * tagsLang 38 31 * optionalLang 36 hexLang)

def eventLang : Language UInt8 := optionalLang 59 (hexLang + literal [59] * hexLang)

/-- Everything in front of the time. -/
def headLang : Language UInt8 := idsLang * (componentsLang * eventLang)

def pathLang : Language UInt8 := optionalLang 47 { _t | True }

/-- `t` is the time in front of `rest`: nine conversions and the last literal. -/
def TimePart (t rest : List UInt8) : Prop := ∃ time, scanTime (t ++ rest) = some (time, 83 :: rest)

/-- The texts that the grammar of locators has. -/
def Locator (u : List UInt8) : Prop :=
  ∃ h t r, u = h ++ (t ++ r) ∧ h ∈ headLang ∧ (t = [] ∨ TimePart t r) ∧ r ∈ pathLang

/-! ## Hexadecimal numbers -/

/-- What ends a hexadecimal number, also one that is a single zero. -/
def HexEnd (rest : List UInt8) : Prop :=
  isXdigit (charAt rest 0) = false ∧ charAt rest 0 ≠ 120 ∧ charAt rest 0 ≠ 88

theorem xdigits_ne_nil (h : isXdigit (charAt u 0) = true) : u.takeWhile isXdigit ≠ [] := by
  cases u with
  | nil => cases h
  | cons d u =>
    have hd : isXdigit d = true := h
    simp [hd]

variable {rest : List UInt8}

theorem mem_hexLang_of_hexRun {v : Nat} (h : hexRun u = some (v, rest)) : ∃ t ∈ hexLang, u = t ++ rest := by
  have hall : ∀ w : List UInt8, ∀ c ∈ w.takeWhile isXdigit, isXdigit c = true := fun w c hc => mem_takeWhile_imp hc
  unfold hexRun at h
  split at h
  · cases h
  rename_i hfirst
  rw [not_eq_true', not_eq_false] at hfirst
  by_cases hx : charAt u 0 = 48 ∧ (charAt u 1 = 120 ∨ charAt u 1 = 88) ∧ isXdigit (charAt u 2) = true
  · simp only [if_pos hx] at h
    split at h
    · cases h
    rename_i hsmall
    cases h
    obtain ⟨c0, c1, w, rfl⟩ : ∃ c0 c1 w, u = c0 :: c1 :: w := by
      match u, hx with
      | [], hx => cases hx.1
      | [_], hx => exact absurd (show isXdigit 0 = true from hx.2.2) (by decide)
      | c0 :: c1 :: w, _ => exact ⟨c0, c1, w, rfl⟩
    obtain ⟨h0, h1, h2⟩ := hx
    have h0' : c0 = 48 := h0
    have h1' : c1 = 120 ∨ c1 = 88 := h1
    refine ⟨[c0, c1] ++ w.takeWhile isXdigit, ⟨[c0, c1], _, rfl, ?_, xdigits_ne_nil h2, hall w, Nat.not_lt.1 hsmall⟩, ?_⟩
    · rcases h1' with rfl | rfl <;> simp [h0']
    · simp
  · simp only [if_neg hx] at h
    split at h
    · cases h
    · next hsmall =>
      cases h
      exact ⟨u.takeWhile isXdigit, ⟨[], _, rfl, .inl rfl, xdigits_ne_nil hfirst, hall u, Nat.not_lt.1 hsmall⟩, by simp⟩

theorem takeWhile_xdigits {ds : List UInt8} (hds : ∀ c ∈ ds, isXdigit c = true) (hrest : isXdigit (charAt rest 0) = false) :
    (ds ++ rest).takeWhile isXdigit = ds ∧ (ds ++ rest).dropWhile isXdigit = rest := by
  rw [takeWhile_append_of_pos hds, dropWhile_append_of_pos hds]
  cases rest with
  | nil => simp
  | cons c rest =>
    have hc : isXdigit c = false := hrest
    simp [hc]

theorem hexRun_append (ht : t ∈ hexLang) (hrest : HexEnd rest) : ∃ v, hexRun (t ++ rest) = some (v, rest) := by
  obtain ⟨front, ds, rfl, hfront, hne, hall, hsmall⟩ := ht
  obtain ⟨hdigit, hx, hX⟩ := hrest
  have hrun := takeWhile_xdigits hall hdigit
  obtain ⟨d, ds', rfl⟩ := exists_cons_of_ne_nil hne
  have hd := hall d mem_cons_self
  refine ⟨hexValue (d :: ds'), ?_⟩
  unfold hexRun
  by_cases hnone : front = []
  · -- a zero in front is not the one of 0x
    subst hnone
    have hno : ¬ (charAt ([] ++ d :: ds' ++ rest) 0 = 48 ∧
        (charAt ([] ++ d :: ds' ++ rest) 1 = 120 ∨ charAt ([] ++ d :: ds' ++ rest) 1 = 88) ∧
        isXdigit (charAt ([] ++ d :: ds' ++ rest) 2) = true) := by
      rintro ⟨-, h1, -⟩
      cases ds' with
      | nil =>
        have h1' : charAt rest 0 = 120 ∨ charAt rest 0 = 88 := h1
        exact h1'.elim hx hX
      | cons e ds' =>
        have he := hall e (by simp)
        have h1' : e = 120 ∨ e = 88 := h1
        rcases h1' with rfl | rfl <;> cases he
    have hfirst : isXdigit (charAt ([] ++ d :: ds' ++ rest) 0) = true := hd
    simp only [hfirst, Bool.not_true, Bool.false_eq_true, if_false, if_neg hno]
    simp only [nil_append, hrun, if_neg (Nat.not_lt.2 hsmall)]
  · obtain ⟨x, rfl, hx'⟩ : ∃ x, front = [48, x] ∧ (x = 120 ∨ x = 88) := by
      rcases hfront with h | rfl | rfl
      · exact absurd h hnone
      · exact ⟨_, rfl, .inl rfl⟩
      · exact ⟨_, rfl, .inr rfl⟩
    have hyes : charAt ([48, x] ++ d :: ds' ++ rest) 0 = 48 ∧
        (charAt ([48, x] ++ d :: ds' ++ rest) 1 = 120 ∨ charAt ([48, x] ++ d :: ds' ++ rest) 1 = 88) ∧
        isXdigit (charAt ([48, x] ++ d :: ds' ++ rest) 2) = true := ⟨rfl, hx', hd⟩
    have hfirst : isXdigit (charAt ([48, x] ++ d :: ds' ++ rest) 0) = true := rfl
    have hdrop : ([48, x] ++ d :: ds' ++ rest).drop 2 = d :: ds' ++ rest := rfl
    simp only [hfirst, Bool.not_true, Bool.false_eq_true, if_false, if_pos hyes, hdrop, hrun, if_neg (Nat.not_lt.2 hsmall)]

/-! ## The steps of the parser -/

section Steps

variable {s : List UInt8} {α : Type}

theorem charAt_drop (s : List UInt8) (p i : Nat) : charAt (s.drop p) i = charAt s (p + i) := by
  simp [charAt, getD_eq_getElem?_getD, getElem?_drop]

variable {p : Nat}

theorem peek_ok (hp : p ≤ s.length) : peek s p = .ok (charAt (s.drop p) 0, p) := by
  rw [peek, if_pos hp, charAt_drop]
  rfl

theorem takes_hexRunAt : Takes s .refused (hexRunAt s) hexLang := by
  intro p hp
  unfold hexRunAt
  rw [if_pos hp]
  cases h : hexRun (s.drop p) with
  | none => exact .inl rfl
  | some x =>
    obtain ⟨v, rest⟩ := x
    obtain ⟨t, ht, hdrop⟩ := mem_hexLang_of_hexRun h
    have hlen := congrArg length hdrop
    rw [length_drop, length_append] at hlen
    refine .inr ⟨v, t, rest, hdrop, ht, ?_⟩
    simp only
    rw [show s.length - rest.length = p + t.length by omega]

theorem finds_hexRunAt : Finds s (hexRunAt s) hexLang HexEnd := by
  intro p hp t rest hdrop ht hrest
  obtain ⟨v, hv⟩ := hexRun_append ht hrest
  refine ⟨v, ?_⟩
  have hlen := congrArg length hdrop
  rw [length_drop, length_append] at hlen
  unfold hexRunAt
  rw [if_pos hp, hdrop, hv]
  simp only
  rw [show s.length - rest.length = p + t.length by omega]

variable {c : UInt8}

theorem drop_of_charAt (hc : c ≠ 0) (h : charAt (s.drop p) 0 = c) : ∃ rest, s.drop p = c :: rest := by
  cases hdrop : s.drop p with
  | nil =>
    rw [hdrop] at h
    exact absurd h.symm hc
  | cons d rest =>
    rw [hdrop] at h
    exact ⟨rest, congrArg (· :: rest) h⟩

theorem takes_expect (hc : c ≠ 0) : Takes s .refused (expect s c) (literal [c]) := by
  intro p hp
  unfold expect
  rw [walk_bind_ok (peek_ok hp), walk_bind_ok (show advance 1 p = .ok ((), p + 1) from rfl)]
  by_cases h : charAt (s.drop p) 0 = c
  · obtain ⟨rest, hrest⟩ := drop_of_charAt hc h
    refine .inr ⟨(), [c], rest, hrest, rfl, ?_⟩
    rw [if_neg (not_not.2 h)]
    rfl
  · refine .inl ?_
    rw [if_pos h]
    rfl

variable {A : List UInt8 → Prop}

theorem finds_expect : Finds s (expect s c) (literal [c]) A := by
  intro p hp t rest hdrop ht _
  rw [mem_literal.1 ht] at hdrop ⊢
  refine ⟨(), ?_⟩
  unfold expect
  rw [walk_bind_ok (peek_ok hp), walk_bind_ok (show advance 1 p = .ok ((), p + 1) from rfl), hdrop,
    if_neg (show ¬ charAt ([c] ++ rest) 0 ≠ c from not_not.2 rfl)]
  rfl

variable {m1 m2 : Cursor α} {L1 L2 : Language UInt8}

theorem takes_either (hc : c ≠ 0) (h1 : Takes s .refused m1 L1) (h2 : Takes s .refused m2 L2) :
    Takes s .refused (peek s >>= fun d => if d ≠ c then m1 else advance 1 >>= fun _ => m2) (L1 + literal [c] * L2) := by
  intro p hp
  rw [walk_bind_ok (peek_ok hp)]
  by_cases h : charAt (s.drop p) 0 = c
  · obtain ⟨rest, hrest⟩ := drop_of_charAt hc h
    obtain ⟨hp', hdrop'⟩ := drop_add_length hp (show s.drop p = [c] ++ rest from hrest)
    rw [if_neg (not_not.2 h), walk_bind_ok (show advance 1 p = .ok ((), p + 1) from rfl)]
    rcases h2 (p + 1) hp' with hstop | ⟨b, t, rest', ht', ht, hok⟩
    · exact .inl hstop
    refine .inr ⟨b, c :: t, rest', ?_, .inr (Language.append_mem_mul (mem_literal.2 rfl) ht), ?_⟩
    · rw [hrest, cons_append, ← ht']
      exact congrArg _ hdrop'.symm
    · rw [hok, length_cons]
      congr 2
      omega
  · rw [if_pos h]
    exact h1.mono (fun _ ht => .inl ht) p hp

theorem finds_either (h1 : Finds s m1 L1 A)
    (h2 : Finds s m2 L2 A) (hA : ∀ t ∈ L1, ∀ rest, A rest → charAt (t ++ rest) 0 ≠ c) :
    Finds s (peek s >>= fun d => if d ≠ c then m1 else advance 1 >>= fun _ => m2) (L1 + literal [c] * L2) A := by
  intro p hp t rest hdrop ht hrest
  rw [walk_bind_ok (peek_ok hp)]
  rcases ht with ht | ht
  · rw [hdrop, if_pos (hA t ht rest hrest)]
    exact h1 p hp t rest hdrop ht hrest
  obtain ⟨u, hu, v, hv, rfl⟩ := Language.mem_mul.1 ht
  rw [mem_literal.1 hu] at hdrop ⊢
  rw [hdrop]
  rw [append_assoc] at hdrop
  obtain ⟨hp', hdrop'⟩ := drop_add_length hp hdrop
  obtain ⟨b, hb⟩ := h2 (p + 1) hp' v rest hdrop' hv hrest
  refine ⟨b, ?_⟩
  rw [if_neg (show ¬ charAt ([c] ++ v ++ rest) 0 ≠ c from not_not.2 rfl),
    walk_bind_ok (show advance 1 p = .ok ((), p + 1) from rfl), hb, length_append, length_singleton, add_assoc]

variable {L : Language UInt8} {m : Cursor α}

theorem takes_optional (hc : c ≠ 0) (a : α) (hm : Takes s .refused m L) :
    Takes s .refused (peek s >>= fun d => if d ≠ c then pure a else advance 1 >>= fun _ => m) (optionalLang c L) :=
  takes_either hc (takes_pure a) hm

theorem finds_optional (a : α) (hm : Finds s m L A) (hA : ∀ rest, A rest → charAt rest 0 ≠ c) :
    Finds s (peek s >>= fun d => if d ≠ c then pure a else advance 1 >>= fun _ => m) (optionalLang c L) A := by
  refine finds_either (finds_pure a) hm fun t ht rest hrest => ?_
  rw [(Language.mem_one t).1 ht]
  exact hA rest hrest

/-! ## The parts -/

/-- What may follow. -/
def After (cs : List UInt8) (rest : List UInt8) : Prop := charAt rest 0 ∈ cs

variable {cs rest : List UInt8}

theorem After.hexEnd (h : After cs rest)
    (hcs : (cs.all fun c => !isXdigit c && c != 120 && c != 88) = true) : HexEnd rest := by
  have hc := all_eq_true.1 hcs _ h
  simp only [and_eq_true, not_eq_true', bne_iff_ne] at hc
  exact ⟨hc.1.1, hc.1.2, hc.2⟩

variable {t : List UInt8}

theorem after_optional (ht : t ∈ optionalLang c L) (h : After cs rest) : After (c :: cs) (t ++ rest) := by
  rcases ht with ht | ht
  · rw [(Language.mem_one t).1 ht]
    exact mem_cons_of_mem c h
  · obtain ⟨u, hu, v, -, rfl⟩ := Language.mem_mul.1 ht
    rw [mem_literal.1 hu]
    exact mem_cons_self

theorem After.ne (h : After cs rest) (hc : c ∉ cs) : charAt rest 0 ≠ c := fun heq => hc (heq ▸ h)

theorem xdigit_of_hexLang (ht : t ∈ hexLang) (rest : List UInt8) : isXdigit (charAt (t ++ rest) 0) = true := by
  obtain ⟨front, ds, rfl, hfront, hne, hall, -⟩ := ht
  rcases hfront with rfl | rfl | rfl
  · obtain ⟨d, ds', rfl⟩ := exists_cons_of_ne_nil hne
    exact hall d mem_cons_self
  · exact show isXdigit 48 = true from rfl
  · exact show isXdigit 48 = true from rfl

theorem takes_locTags (sep : UInt8) (hsep : sep ≠ 0) (room : Nat) : Takes s .refused (locTags s sep room) (tagsLang sep room) := by
  induction room generalizing sep with
  | zero => exact fun p hp => .inr ⟨[], [], _, rfl, rfl, walk_bind_ok (peek_ok hp)⟩
  | succ room ih => exact takes_optional hsep _ (takes_hexRunAt.bind fun tag => (ih 38 (by decide)).map)

theorem finds_locTags (room : Nat) : Finds s (locTags s 38 room) (tagsLang 38 room) (After [36, 59, 126]) := by
  induction room with
  | zero =>
    intro p hp t rest _ ht _
    rw [(Language.mem_one t).1 ht]
    exact ⟨[], walk_bind_ok (peek_ok hp)⟩
  | succ room ih =>
    refine finds_optional _ (finds_hexRunAt.bind (fun tag => ih.map) fun t ht rest hrest => ?_) fun rest hrest =>
      hrest.ne (by decide)
    have hend : After [38, 36, 59, 126] (t ++ rest) := by
      cases room with
      | zero =>
        rw [(Language.mem_one t).1 ht]
        exact mem_cons_of_mem 38 hrest
      | succ room => exact after_optional ht hrest
    exact hend.hexEnd (by decide)

/-- The number behind the tags. -/
def locCid (s : List UInt8) (tags : List Nat) : Cursor (List Nat × Option Nat) :=
  peek s >>= fun d => if d ≠ 36 then pure (tags, none) else
    advance 1 >>= fun _ => hexRunAt s >>= fun cid => pure (tags, some cid)

theorem locComponents_eq : locComponents s = peek s >>= fun d => if d ≠ 46 then pure ([], none) else
    advance 1 >>= fun _ => hexRunAt s >>= fun tag => locTags s 38 31 >>= fun tags => locCid s (tag :: tags) := by
  funext p
  unfold locComponents
  by_cases hp : p ≤ s.length
  · rw [walk_bind_ok (peek_ok hp), walk_bind_ok (peek_ok hp)]
    by_cases h : charAt (s.drop p) 0 = 46
    · rw [if_neg (not_not.2 h), if_neg (not_not.2 h), locTags]
      simp only [bind_assoc]
      rw [walk_bind_ok (peek_ok hp), if_neg (not_not.2 h)]
      simp only [bind_assoc, pure_bind]
      rfl
    · rw [if_pos h, if_pos h]
  · have hout : peek s p = .error .outside := if_neg hp
    rw [walk_bind_error hout, walk_bind_error hout]

theorem takes_locCid (tags : List Nat) : Takes s .refused (locCid s tags) (optionalLang 36 hexLang) :=
  takes_optional (by decide) _ takes_hexRunAt.map

theorem finds_locCid (tags : List Nat) : Finds s (locCid s tags) (optionalLang 36 hexLang) (After [59, 126]) :=
  finds_optional _ (finds_hexRunAt.map.mono fun _ hrest => hrest.hexEnd (by decide)) fun _ hrest => hrest.ne (by decide)

theorem takes_locComponents : Takes s .refused (locComponents s) componentsLang := by
  rw [locComponents_eq, componentsLang, mul_assoc]
  exact takes_optional (by decide) _
    (takes_hexRunAt.bind fun tag => (takes_locTags 38 (by decide) 31).bind fun tags => takes_locCid _)

theorem finds_locComponents : Finds s (locComponents s) componentsLang (After [59, 126]) := by
  rw [locComponents_eq, componentsLang, mul_assoc]
  refine finds_optional _ (finds_hexRunAt.bind (fun tag => (finds_locTags 31).bind (fun tags => finds_locCid _) ?_) ?_)
    fun rest hrest => hrest.ne (by decide)
  · exact fun t ht rest hrest => after_optional ht hrest
  · intro t ht rest hrest
    obtain ⟨u, hu, v, hv, rfl⟩ := Language.mem_mul.1 ht
    rw [append_assoc]
    have hnext : After [38, 36, 59, 126] (u ++ (v ++ rest)) := after_optional hu (after_optional hv hrest)
    exact hnext.hexEnd (by decide)

theorem takes_locEvent : Takes s .refused (locEvent s) eventLang :=
  takes_optional (by decide) _ (takes_either (by decide) takes_hexRunAt.map takes_hexRunAt.map)

theorem finds_locEvent : Finds s (locEvent s) eventLang (After [126]) := by
  have hhex : ∀ rest, After [126] rest → HexEnd rest := fun rest hrest => hrest.hexEnd (by decide)
  refine finds_optional _ (finds_either (finds_hexRunAt.map.mono hhex) (finds_hexRunAt.map.mono hhex) ?_)
    fun rest hrest => hrest.ne (by decide)
  intro t ht rest _ heq
  have hdigit := xdigit_of_hexLang ht rest
  rw [heq] at hdigit
  cases hdigit

theorem takes_locTsid : Takes s .refused (locTsid s) (1 + hexLang) := by
  intro p hp
  unfold locTsid
  rw [walk_bind_ok (peek_ok hp)]
  split
  · exact takes_hexRunAt.mono (fun _ ht => .inr ht) p hp
  · exact (takes_pure 0).mono (fun _ ht => .inl ht) p hp

theorem finds_locTsid : Finds s (locTsid s) (1 + hexLang) (After [46]) := by
  intro p hp t rest hdrop ht hrest
  unfold locTsid
  rw [walk_bind_ok (peek_ok hp), hdrop]
  rcases ht with ht | ht
  · rw [(Language.mem_one t).1 ht, if_neg (show ¬ charAt ([] ++ rest) 0 ≠ 46 from not_not.2 (mem_singleton.1 hrest))]
    exact ⟨0, rfl⟩
  · rw [if_pos fun heq => by
      have hdigit := xdigit_of_hexLang ht rest
      rw [heq] at hdigit
      exact absurd hdigit (by decide)]
    exact finds_hexRunAt p hp t rest hdrop ht (hrest.hexEnd (by decide))

/-- The identifiers behind the scheme. -/
def idsBehind (s : List UInt8) : Cursor (Nat × Nat × Nat) :=
  hexRunAt s >>= fun onid => expect s 46 >>= fun _ =>
    locTsid s >>= fun tsid => expect s 46 >>= fun _ => hexRunAt s >>= fun sid => pure (onid, tsid, sid)

/-- The whole of `locHead` behind the scheme. -/
def headBehind (s : List UInt8) : Cursor Loc :=
  idsBehind s >>= fun ids => locComponents s >>= fun comps => locEvent s >>= fun event =>
    pure { onid := ids.1, tsid := ids.2.1, sid := ids.2.2, tags := comps.1, cid := comps.2, kind := event.1, id := event.2,
           time := none, path := none }

theorem locHead_zero : locHead s 0 = if (text "dvb://").isPrefixOf s then headBehind s 6 else .error .refused := by
  unfold locHead locIds
  by_cases h : (text "dvb://").isPrefixOf s = true
  · rw [if_pos h]
    simp only [h, Bool.not_true, Bool.false_eq_true, if_false, pure_bind, bind_assoc]
    rw [walk_bind_ok (show advance 6 0 = .ok ((), 6) from rfl)]
    unfold headBehind idsBehind
    simp only [bind_assoc, pure_bind]
  · rw [if_neg h]
    simp only [h, Bool.not_false, if_true]
    rfl

theorem takes_headBehind : Takes s .refused (headBehind s)
    ((hexLang * (literal [46] * ((1 + hexLang) * (literal [46] * hexLang)))) * (componentsLang * eventLang)) := by
  refine Takes.bind ?_ fun ids => takes_locComponents.bind fun comps => takes_locEvent.map
  exact takes_hexRunAt.bind fun onid => (takes_expect (by decide)).bind fun _ => takes_locTsid.bind fun tsid =>
    (takes_expect (by decide)).bind fun _ => takes_hexRunAt.map

theorem finds_headBehind : Finds s (headBehind s)
    ((hexLang * (literal [46] * ((1 + hexLang) * (literal [46] * hexLang)))) * (componentsLang * eventLang)) (After [126]) := by
  have hdot : ∀ t ∈ literal [46] * hexLang, ∀ rest, After [46] (t ++ rest) := fun t ht rest => by
    obtain ⟨u, hu, v, -, rfl⟩ := Language.mem_mul.1 ht
    rw [mem_literal.1 hu]
    exact mem_cons_self
  have hhex : ∀ rest, After [46, 59, 126] rest → HexEnd rest := fun rest hrest => hrest.hexEnd (by decide)
  refine Finds.bind (A := After [46, 59, 126]) ?_ (fun ids => finds_locComponents.bind (fun comps => finds_locEvent.map)
    fun t ht rest hrest => after_optional ht hrest) fun t ht rest hrest => ?_
  · refine finds_hexRunAt.bind (fun onid => finds_expect.bind (A := fun _ => True) (fun _ => finds_locTsid.bind
      (fun tsid => finds_expect.bind (A := fun _ => True) (fun _ => (finds_hexRunAt.map.mono hhex)) fun _ _ _ _ => trivial)
      fun t ht rest _ => hdot t ht rest) fun _ _ _ _ => trivial) fun t ht rest _ => ?_
    obtain ⟨u, hu, v, -, rfl⟩ := Language.mem_mul.1 ht
    rw [mem_literal.1 hu]
    exact (show After [46] ([46] ++ v ++ rest) from mem_cons_self).hexEnd (by decide)
  · obtain ⟨u, hu, v, hv, rfl⟩ := Language.mem_mul.1 ht
    rw [append_assoc]
    exact after_optional hu (after_optional hv hrest)

theorem length_scheme : (text "dvb://").length = 6 := by decide +kernel

theorem locHead_cases (s : List UInt8) :
    locHead s 0 = .error .refused ∨ ∃ l h rest, s = h ++ rest ∧ h ∈ headLang ∧ locHead s 0 = .ok (l, h.length) := by
  rw [locHead_zero]
  split
  · next hscheme =>
    obtain ⟨u, rfl⟩ := isPrefixOf_iff_prefix.1 hscheme
    have hin : 6 ≤ (text "dvb://" ++ u).length := by
      rw [length_append, length_scheme]
      exact Nat.le_add_right 6 _
    rcases takes_headBehind 6 hin with hstop | ⟨l, t, rest, hdrop, ht, hok⟩
    · exact .inl hstop
    · refine .inr ⟨l, text "dvb://" ++ t, rest, ?_, ?_, ?_⟩
      · rw [append_assoc, ← hdrop, drop_left' length_scheme]
      · rw [headLang, idsLang, mul_assoc]
        exact Language.append_mem_mul (mem_literal.2 rfl) ht
      · rw [hok, length_append, length_scheme]
  · exact .inl rfl

theorem locHead_of_mem {h : List UInt8} (hh : h ∈ headLang) (hrest : After [126] rest) :
    ∃ l, locHead (h ++ rest) 0 = .ok (l, h.length) := by
  rw [headLang, idsLang, mul_assoc] at hh
  obtain ⟨u, hu, t, ht, rfl⟩ := Language.mem_mul.1 hh
  rw [mem_literal.1 hu, locHead_zero, append_assoc,
    if_pos ( isPrefixOf_iff_prefix.2 (prefix_append (text "dvb://") (t ++ rest)))]
  have hin : 6 ≤ (text "dvb://" ++ (t ++ rest)).length := by
    rw [length_append, length_scheme]
    exact Nat.le_add_right 6 _
  obtain ⟨l, hl⟩ := finds_headBehind 6 hin t rest (drop_left' length_scheme) ht hrest
  refine ⟨l, ?_⟩
  rw [hl, length_append, length_scheme]

end Steps

end DvbIpiTools.Bim.Codec
