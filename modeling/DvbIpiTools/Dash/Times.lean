import Mathlib.Tactic.Ring
import DvbIpiTools.Dash.Mpd

set_option autoImplicit false

/-! # Ticks and milliseconds (`dash/mpd.c`, `dash/live/position.c`)

The conversions are compared with the floors of the exact quotients, over `ℕ`. -/

namespace DvbIpiTools.Dash

open Nat

/-- What `struct dash_live` has of the representation that plays and of the position in it. -/
structure DashLive where
  repr : Representation
  curPeriodStartMs : UInt64 := 0
  segIdx : UInt64 := 0
  segTime : UInt64 := 0

def usesTimeline (h : DashLive) : Bool := h.repr.timeline.length > 0

def positionMs (h : DashLive) : UInt64 :=
  if usesTimeline h then
    h.curPeriodStartMs
      + (if h.segTime > h.repr.presentationTimeOffset then h.segTime - h.repr.presentationTimeOffset else 0)
        * 1000 / h.repr.ts
  else h.curPeriodStartMs + h.segIdx * h.repr.duration * 1000 / h.repr.ts

/-! ## The exact values -/

def exactMs (r : Representation) (ticks : ℕ) : ℕ := ticks * 1000 / r.ts.toNat

def exactTicks (r : Representation) (ms : ℕ) : ℕ := ms * r.ts.toNat / 1000

/-- Where the position is in its period, in ticks. -/
def positionTicks (h : DashLive) : ℕ :=
  if usesTimeline h then h.segTime.toNat - h.repr.presentationTimeOffset.toNat
  else h.segIdx.toNat * h.repr.duration.toNat

def exactPosition (h : DashLive) : ℕ := h.curPeriodStartMs.toNat + exactMs h.repr (positionTicks h)

/-- Where the first segment ends that is not complete when `elapsed` milliseconds have passed, in ticks. -/
def nextEnd (r : Representation) (elapsed : UInt64) : ℕ :=
  (exactTicks r (elapsed.toNat + r.availabilityTimeOffsetMs.toNat) / r.duration.toNat + 1) * r.duration.toNat

/-- The exact values around the edge fit in 64 bits. -/
structure EdgeFits (r : Representation) (elapsed : UInt64) : Prop where
  shifted : elapsed.toNat + r.availabilityTimeOffsetMs.toNat < 2 ^ 64
  ticks : exactTicks r (elapsed.toNat + r.availabilityTimeOffsetMs.toNat) < 2 ^ 64
  next : nextEnd r elapsed < 2 ^ 64
  nextMs : exactMs r (nextEnd r elapsed) < 2 ^ 64

/-- The conversions are exact where the exact value fits, and the edge index is the newest one that is available. -/
structure TimesExact (h : DashLive) (ticks ms elapsed : UInt64) : Prop where
  ticksToMs : exactMs h.repr ticks.toNat < 2 ^ 64 → (ticksToMs h.repr ticks).toNat = exactMs h.repr ticks.toNat
  msToTicks : exactTicks h.repr ms.toNat < 2 ^ 64 → (msToTicks h.repr ms).toNat = exactTicks h.repr ms.toNat
  position : exactPosition h < 2 ^ 64 → (positionMs h).toNat = exactPosition h
  edge : EdgeFits h.repr elapsed → ∀ idx, dashEdgeIndex h.repr elapsed = some idx →
    dashIndexAvailableMs h.repr idx ≤ elapsed ∧ elapsed ≤ dashIndexAvailableMs h.repr (idx + 1)
  none : EdgeFits h.repr elapsed → dashEdgeIndex h.repr elapsed = none → h.repr.duration ≠ 0 →
    elapsed ≤ dashIndexAvailableMs h.repr 0

/-! ## Quotient and remainder apart -/

theorem div_mul_add_mod_mul_div (x m : ℕ) {n : ℕ} (hn : 0 < n) : x / n * m + x % n * m / n = x * m / n := by
  have hx : x * m = n * (x / n * m) + x % n * m := by
    calc x * m = (n * (x / n) + x % n) * m := by rw [div_add_mod]
      _ = n * (x / n * m) + x % n * m := by ring
  rw [hx, mul_add_div hn]

theorem toNat_div_mul_add_mod_mul_div {x m n : UInt64} (hn : 0 < n.toNat) (hmn : n.toNat * m.toNat < 2 ^ 64)
    (hfit : x.toNat * m.toNat / n.toNat < 2 ^ 64) :
    (x / n * m + x % n * m / n).toNat = x.toNat * m.toNat / n.toNat := by
  have hsum := div_mul_add_mod_mul_div x.toNat m.toNat hn
  have hrem : x.toNat % n.toNat * m.toNat < 2 ^ 64 :=
    lt_of_le_of_lt (mul_le_mul_right _ (mod_lt _ hn).le) hmn
  have hquot : x.toNat / n.toNat * m.toNat < 2 ^ 64 :=
    lt_of_le_of_lt (le_add_right _ _) (hsum.trans_lt hfit)
  rw [UInt64.toNat_add, UInt64.toNat_mul, UInt64.toNat_div, UInt64.toNat_div, UInt64.toNat_mul, UInt64.toNat_mod,
    mod_eq_of_lt hrem, mod_eq_of_lt hquot, hsum, mod_eq_of_lt hfit]

variable {r : Representation} {h : DashLive}

theorem Representation.ts_pos (r : Representation) : 0 < r.ts.toNat := by
  unfold Representation.ts
  split
  · next hne =>
    have : r.timescale.toNat ≠ 0 := fun h0 => hne (UInt32.toNat_inj.1 h0)
    rw [UInt32.toNat_toUInt64]
    omega
  · exact one_pos

theorem Representation.ts_lt (r : Representation) : r.ts.toNat < 2 ^ 32 := by
  unfold Representation.ts
  split
  · rw [UInt32.toNat_toUInt64]
    exact r.timescale.toNat_lt
  · decide

theorem toNat_1000 : (1000 : UInt64).toNat = 1000 := rfl

theorem toNat_ticksToMs {ticks : UInt64} (hfit : exactMs r ticks.toNat < 2 ^ 64) :
    (ticksToMs r ticks).toNat = exactMs r ticks.toNat := by
  have hts := r.ts_lt
  exact toNat_div_mul_add_mod_mul_div r.ts_pos (by rw [toNat_1000]; omega) hfit

theorem toNat_msToTicks {ms : UInt64} (hfit : exactTicks r ms.toNat < 2 ^ 64) :
    (msToTicks r ms).toNat = exactTicks r ms.toNat := by
  have hts := r.ts_lt
  exact toNat_div_mul_add_mod_mul_div (by decide) (by rw [toNat_1000]; omega) hfit

/-! ## The position -/

theorem toNat_positionMs (h : DashLive) : (positionMs h).toNat =
      (h.curPeriodStartMs.toNat + positionTicks h * 1000 % 2 ^ 64 / h.repr.ts.toNat) % 2 ^ 64 := by
  unfold positionMs positionTicks
  split
  · rw [UInt64.toNat_add, UInt64.toNat_div, UInt64.toNat_mul, toNat_1000]
    split
    · next hgt => rw [UInt64.toNat_sub_of_le _ _ (UInt64.le_of_lt hgt)]
    · next hle =>
      have : h.segTime.toNat ≤ h.repr.presentationTimeOffset.toNat := UInt64.le_iff_toNat_le.1 (UInt64.not_lt.1 hle)
      rw [Nat.sub_eq_zero_of_le this]
      rfl
  · rw [UInt64.toNat_add, UInt64.toNat_div, UInt64.toNat_mul, UInt64.toNat_mul, toNat_1000, mod_mul_mod]

theorem toNat_positionMs_iff (hfit : exactPosition h < 2 ^ 64) :
    (positionMs h).toNat = exactPosition h ↔ positionTicks h * 1000 < 2 ^ 64 := by
  rw [toNat_positionMs]
  unfold exactPosition exactMs at hfit ⊢
  have hts := h.repr.ts_pos
  generalize positionTicks h * 1000 = p at hfit ⊢
  have hle : p % 2 ^ 64 / h.repr.ts.toNat ≤ p / h.repr.ts.toNat := Nat.div_le_div_right (Nat.mod_le _ _)
  rw [mod_eq_of_lt (by omega)]
  refine ⟨fun heq => ?_, fun hlt => by rw [mod_eq_of_lt hlt]⟩
  by_contra hge
  have hwrap : p % 2 ^ 64 + h.repr.ts.toNat ≤ p := by
    have := h.repr.ts_lt
    omega
  have hlost : p % 2 ^ 64 / h.repr.ts.toNat + 1 ≤ p / h.repr.ts.toNat := by
    rw [← add_div_right _ hts]
    exact Nat.div_le_div_right hwrap
  omega

/-! ## The edge -/

/-- Both ways rounded down, a tick that is reached is reached in milliseconds. -/
theorem exactMs_le (r : Representation) {ticks ms : ℕ} (hle : ticks ≤ exactTicks r ms) : exactMs r ticks ≤ ms := by
  have hticks : ticks * 1000 ≤ ms * r.ts.toNat := (le_div_iff_mul_le (by decide)).1 hle
  exact Nat.div_le_of_le_mul (by rwa [mul_comm r.ts.toNat])

theorem le_exactMs (r : Representation) {ticks ms : ℕ} (hlt : exactTicks r ms < ticks) : ms ≤ exactMs r ticks := by
  have hticks : ms * r.ts.toNat < ticks * 1000 := (div_lt_iff_lt_mul (by decide)).1 hlt
  exact (le_div_iff_mul_le r.ts_pos).2 hticks.le

theorem toNat_dashIndexAvailableMs {idx : UInt64} {e : ℕ} (he : e = (idx.toNat + 1) * r.duration.toNat)
    (hfit : e < 2 ^ 64) (hms : exactMs r e < 2 ^ 64) :
    (dashIndexAvailableMs r idx).toNat = exactMs r e - r.availabilityTimeOffsetMs.toNat := by
  have hend : ((idx + 1) * r.duration).toNat = e := by
    rw [UInt64.toNat_mul, UInt64.toNat_add, mod_mul_mod, show (1 : UInt64).toNat = 1 from rfl, ← he,
      mod_eq_of_lt hfit]
  have hval : (ticksToMs r ((idx + 1) * r.duration)).toNat = exactMs r _ := toNat_ticksToMs (by rwa [hend])
  rw [hend] at hval
  unfold dashIndexAvailableMs
  dsimp only
  split
  · next hgt => rw [UInt64.toNat_sub_of_le _ _ (UInt64.le_of_lt hgt), hval]
  · next hle =>
    have := UInt64.le_iff_toNat_le.1 (UInt64.not_lt.1 hle)
    rw [hval] at this
    rw [Nat.sub_eq_zero_of_le this]
    rfl

section Edge

variable {elapsed : UInt64}

theorem toNat_done (hfits : EdgeFits r elapsed) :
    (msToTicks r (elapsed + r.availabilityTimeOffsetMs) / r.duration).toNat =
      exactTicks r (elapsed.toNat + r.availabilityTimeOffsetMs.toNat) / r.duration.toNat := by
  have hms : (elapsed + r.availabilityTimeOffsetMs).toNat = elapsed.toNat + r.availabilityTimeOffsetMs.toNat := by
    rw [UInt64.toNat_add, mod_eq_of_lt hfits.shifted]
  rw [UInt64.toNat_div, toNat_msToTicks (by rw [hms]; exact hfits.ticks), hms]

theorem lt_nextEnd (hdur : r.duration ≠ 0) :
    exactTicks r (elapsed.toNat + r.availabilityTimeOffsetMs.toNat) < nextEnd r elapsed :=
  lt_mul_of_div_lt (lt_succ_self _)
    (pos_of_ne_zero fun h0 => hdur (UInt64.toNat_inj.1 h0))

variable {idx : UInt64} (hfits : EdgeFits r elapsed)

include hfits

theorem elapsed_le_available (hdur : r.duration ≠ 0)
    (hidx : nextEnd r elapsed = (idx.toNat + 1) * r.duration.toNat) : elapsed ≤ dashIndexAvailableMs r idx := by
  have hle := le_exactMs r (show _ < nextEnd r elapsed from lt_nextEnd hdur)
  rw [UInt64.le_iff_toNat_le, toNat_dashIndexAvailableMs hidx hfits.next hfits.nextMs]
  omega

theorem edge_none (hnone : dashEdgeIndex r elapsed = none) (hdur : r.duration ≠ 0) :
    elapsed ≤ dashIndexAvailableMs r 0 := by
  have hdone := toNat_done hfits
  unfold dashEdgeIndex at hnone
  rw [if_neg hdur] at hnone
  have hzero : msToTicks r (elapsed + r.availabilityTimeOffsetMs) / r.duration = 0 := by
    by_contra hne
    exact absurd ((if_neg hne).symm.trans hnone) (by simp)
  rw [hzero] at hdone
  exact elapsed_le_available hfits hdur (by rw [nextEnd, ← hdone])

theorem edge_index (hsome : dashEdgeIndex r elapsed = some idx) : r.duration ≠ 0 ∧
      idx.toNat + 1 = exactTicks r (elapsed.toNat + r.availabilityTimeOffsetMs.toNat) / r.duration.toNat := by
  have hdone := toNat_done hfits
  unfold dashEdgeIndex at hsome
  split at hsome
  · cases hsome
  rename_i hdur
  refine ⟨hdur, ?_⟩
  change (if msToTicks r (elapsed + r.availabilityTimeOffsetMs) / r.duration = 0 then none else _) = _ at hsome
  split at hsome
  · cases hsome
  rename_i hne
  have hpos : (msToTicks r (elapsed + r.availabilityTimeOffsetMs) / r.duration).toNat ≠ 0 :=
    fun h0 => hne (UInt64.toNat_inj.1 h0)
  have hle : (1 : UInt64) ≤ msToTicks r (elapsed + r.availabilityTimeOffsetMs) / r.duration :=
    UInt64.le_iff_toNat_le.2 (pos_of_ne_zero hpos)
  rw [← Option.some.inj hsome, ← hdone]
  change (msToTicks r (elapsed + r.availabilityTimeOffsetMs) / r.duration - 1).toNat + 1 = _
  rw [UInt64.toNat_sub_of_le _ _ hle]
  exact Nat.sub_add_cancel (pos_of_ne_zero hpos)

theorem edge_some (hsome : dashEdgeIndex r elapsed = some idx) :
    dashIndexAvailableMs r idx ≤ elapsed ∧ elapsed ≤ dashIndexAvailableMs r (idx + 1) := by
  obtain ⟨hdur, hidx⟩ := edge_index hfits hsome
  have hshifted := hfits.shifted
  have hticks := hfits.ticks
  constructor
  · have hend : (idx.toNat + 1) * r.duration.toNat
        ≤ exactTicks r (elapsed.toNat + r.availabilityTimeOffsetMs.toNat) := by
      rw [hidx]
      exact div_mul_le_self _ _
    have hms := exactMs_le r hend
    rw [UInt64.le_iff_toNat_le, toNat_dashIndexAvailableMs rfl (by omega) (by omega)]
    omega
  have hlt : idx.toNat + 1 < 2 ^ 64 := by
    rw [hidx]
    exact lt_of_le_of_lt (div_le_self _ _) hticks
  have hsucc : (idx + 1).toNat = idx.toNat + 1 := by
    rw [UInt64.toNat_add, show (1 : UInt64).toNat = 1 from rfl, mod_eq_of_lt hlt]
  exact elapsed_le_available hfits hdur (by rw [hsucc, hidx]; rfl)

omit hfits

end Edge

/-! ## All of it -/

/-- Only `position_ms` multiplies before it divides. -/
theorem times_exact_iff (h : DashLive) (ticks ms elapsed : UInt64) :
    TimesExact h ticks ms elapsed ↔ (exactPosition h < 2 ^ 64 → positionTicks h * 1000 < 2 ^ 64) := by
  constructor
  · exact fun ht hfit => (toNat_positionMs_iff hfit).1 (ht.position hfit)
  intro hprod
  exact
    { ticksToMs := toNat_ticksToMs
      msToTicks := toNat_msToTicks
      position := fun hfit => (toNat_positionMs_iff hfit).2 (hprod hfit)
      edge := fun hfits _ => edge_some hfits
      none := edge_none }

/-- A position in nanoseconds since the epoch. -/
theorem times_inexact : ¬∀ (h : DashLive) (ticks ms elapsed : UInt64), TimesExact h ticks ms elapsed := by
  intro hall
  have h := (hall ⟨{ timescale := 1000000000, timeline := [⟨1700000000000000000, 2000000000, 0⟩] }, 0, 0,
    1700000000000000000⟩ 0 0 0).position (by decide)
  cases h

end DvbIpiTools.Dash
