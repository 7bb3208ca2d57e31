import Mathlib.Data.Rat.Floor
import Mathlib.Data.Int.ModEq

set_option autoImplicit false

/-! # The map from the source clock to the output clock (`mux/timemap.c`)

A PCR of the source leaves with an offset of `k90` ticks of 90 kHz. A PCR that does not fit the one before moves the
offset only when a flag announced it or when the next PCR agrees with it; until then the output runs on with the wall
clock. A stream whose stamps are made anew has its offset led slowly instead, bucket by bucket. -/

namespace DvbIpiTools.Tvhead

/-! ## The clock of 27 MHz (`mux/pcrclock.c`) -/

def pcrClockHz : Nat := 27000000
def pcrModulus : Nat := 2 ^ 33 * 300

def pcrAdd (a b : Nat) : Nat := (a + b) % pcrModulus
def pcrSub (a b : Nat) : Nat := (a + pcrModulus - b % pcrModulus) % pcrModulus

theorem pcrAdd_lt (a b : Nat) : pcrAdd a b < pcrModulus := Nat.mod_lt _ (by decide)

theorem pcrAdd_modEq (a b : Nat) : (pcrAdd a b : Int) ≡ a + b [ZMOD pcrModulus] := by
  rw [pcrAdd, Int.natCast_mod, Nat.cast_add]
  exact Int.mod_modEq _ _

theorem pcrSub_modEq (a b : Nat) : (pcrSub a b : Int) ≡ a - b [ZMOD pcrModulus] := by
  have hb : b % pcrModulus ≤ a + pcrModulus :=
    (Nat.mod_lt b (by decide : 0 < pcrModulus)).le.trans (Nat.le_add_left _ _)
  have hcast : (pcrSub a b : Int) = ((a : Int) + pcrModulus - b % pcrModulus) % pcrModulus := by
    rw [pcrSub, Int.natCast_mod, Nat.cast_sub hb, Nat.cast_add, Int.natCast_mod]
  rw [hcast]
  refine (Int.mod_modEq _ _).trans ?_
  have hself : (a : Int) + pcrModulus ≡ a [ZMOD pcrModulus] := Int.add_modEq_right
  exact hself.sub (Int.mod_modEq _ _)

/-! ## The state -/

def k90Modulus : Nat := 2 ^ 33
def maxPcrStep : ℚ := 60
def sameBurstMaxStep : ℚ := 1 / 2

/-- `timemap_t`. -/
structure Timemap where
  k90 : Nat := 0
  havePcr : Bool := false
  lastSrc : Nat := 0
  lastOut : Nat := 0
  lastWall : ℚ := 0
  relatches : Nat := 0
  pcrGlitches : Nat := 0
  arm : Bool := false
  pend : Bool := false
  pendSrc : Nat := 0
  pendOut : Nat := 0
  pendWall : ℚ := 0
  rgActive : Bool := false
  rgHaveLast : Bool := false
  rgLastStamp : Nat := 0
  rgBucketOpen : Bool := false
  rgBucketStart : Nat := 0
  rgBucketMin : Int := 0
  rgNset : Nat := 0
  rgSetpoint : Int := 0
  rgRelatches : Nat := 0

namespace Timemap

/-- `timemap_pcr_plausible`: whether the source clock may have gone from `last27` to `cur27` in the wall time. -/
def pcrPlausible (last27 cur27 : Nat) (wallDelta : ℚ) : Bool :=
  let pcrDelta : ℚ := (pcrSub cur27 last27 : ℚ) / pcrClockHz
  if pcrDelta ≤ 0 ∨ maxPcrStep ≤ pcrDelta then false
  else if wallDelta ≤ 0 then decide (pcrDelta < sameBurstMaxStep)
  else decide (pcrDelta < wallDelta * 5 + 1 / 2 ∧ wallDelta * (1 / 5) - 1 / 10 < pcrDelta)

/-- `timemap_arm`. -/
def setArm (t : Timemap) : Timemap := { t with arm := true }

/-- `bridged`: the last output, moved on by the wall clock. -/
def bridged (t : Timemap) (now : ℚ) : Nat :=
  let wall := now - t.lastWall
  let wallTicks := if 0 < wall then (wall * pcrClockHz).floor.toNat % pcrModulus else 0
  pcrAdd t.lastOut wallTicks

/-- The offset from `src27` to `out27`, to the nearest tick of 90 kHz. -/
def offsetTo (src27 out27 : Nat) : Nat := (pcrSub out27 src27 + 150) / 300 % k90Modulus

/-- A new offset. -/
def latch (t : Timemap) (k90 : Nat) : Timemap := { t with k90 := k90, relatches := t.relatches + 1 }

def relatchTo (t : Timemap) (src27 out27 : Nat) : Timemap := t.latch (offsetTo src27 out27)

/-- The pending PCR taken as the last one. -/
def adopt (t : Timemap) : Timemap :=
  { t.relatchTo t.pendSrc t.pendOut with lastSrc := t.pendSrc, lastOut := t.pendOut, lastWall := t.pendWall }

/-- What `timemap_pcr_flagged` does about the hypothesis that is pending. -/
def settle (t : Timemap) (src27 : Nat) (now : ℚ) : Timemap :=
  if t.pend then
    let t := { t with pend := false }
    if pcrPlausible t.lastSrc src27 (now - t.lastWall) then { t with pcrGlitches := t.pcrGlitches + 1 }
    else if pcrPlausible t.pendSrc src27 (now - t.pendWall) then t.adopt
    else t
  else t

/-- The end of `timemap_pcr_flagged`. -/
def accept (t : Timemap) (src27 : Nat) (now : ℚ) : Nat × Timemap :=
  let out := pcrAdd src27 (t.k90 * 300)
  (out, { t with havePcr := true, lastSrc := src27, lastOut := out, lastWall := now })

/-- The step is not believed yet: the output is bridged, and the PCR is what the next one is held against. -/
def hold (t : Timemap) (src27 : Nat) (now : ℚ) : Nat × Timemap :=
  let out := t.bridged now
  (out, { t with pend := true, pendSrc := src27, pendOut := out, pendWall := now })

/-- `timemap_pcr_flagged`. -/
def pcrFlagged (t : Timemap) (src27 : Nat) (now : ℚ) (disc : Bool) : Nat × Timemap :=
  let disc := disc || t.arm
  let t := if t.arm then { t with arm := false, pend := false } else t
  let t := t.settle src27 now
  if t.havePcr ∧ pcrPlausible t.lastSrc src27 (now - t.lastWall) = false then
    if disc then (t.relatchTo src27 (t.bridged now)).accept src27 now
    else t.hold src27 now
  else t.accept src27 now

/-! ## Stamps made anew -/

def stampModulus : Nat := 2 ^ 33
def jumpMax90 : Int := 2 * 90000
def bucket90 : Int := 90000
def slewMax90 : Int := 9
def gainDiv : Int := 8
def setpointBuckets : Nat := 2

def diff33 (a b : Nat) : Int :=
  let d := (a + stampModulus - b % stampModulus) % stampModulus
  if stampModulus / 2 ≤ d then (d : Int) - stampModulus else d

def resetWindow (t : Timemap) : Timemap := { t with rgBucketOpen := false, rgNset := 0 }

/-- `timemap_regen_first`. -/
def regenFirst (t : Timemap) (k90 : Nat) : Timemap :=
  resetWindow { t with k90 := k90 % stampModulus, rgActive := true, rgHaveLast := false }

/-- How far a bucket moves the offset. -/
def slew (err : Int) : Int :=
  let step := err.tdiv gainDiv
  let step := if slewMax90 < step then slewMax90 else step
  if step < -slewMax90 then -slewMax90 else step

def finishBucket (t : Timemap) : Timemap :=
  if t.rgNset < setpointBuckets then
    { t with
      rgSetpoint := if t.rgNset = 0 ∨ t.rgBucketMin < t.rgSetpoint then t.rgBucketMin else t.rgSetpoint
      rgNset := t.rgNset + 1 }
  else
    let step := slew (t.rgBucketMin - t.rgSetpoint)
    { t with k90 := (((t.k90 : Int) - step + stampModulus).tmod stampModulus).toNat }

/-- Whether the stamps jumped. -/
def jumped (t : Timemap) (stamp90 : Nat) : Bool :=
  t.rgHaveLast && (decide (diff33 stamp90 t.rgLastStamp < 0) || decide (jumpMax90 < diff33 stamp90 t.rgLastStamp))

/-- The offset that puts the stamp `lead90` ahead of the clock; the sum is one of 64 bits. -/
def leadOffset (stamp90 p90 lead90 : Nat) : Nat :=
  let sum : Int := (if p90 + lead90 < stamp90 then (stampModulus : Int) else 0) + p90 + lead90 - stamp90
  (sum % 2 ^ 64).toNat % stampModulus

/-- Whether a sample ends the bucket that is open. -/
def closes (t : Timemap) (stamp90 p90 : Nat) : Bool :=
  !t.jumped stamp90 && t.rgBucketOpen && decide (bucket90 ≤ diff33 p90 t.rgBucketStart)

/-- `timemap_regen_sample`, and whether it set the offset anew. -/
def regenSample (t : Timemap) (stamp90 p90 lead90 : Nat) : Bool × Timemap :=
  if t.jumped stamp90 then
    (true, resetWindow { t with
      k90 := leadOffset stamp90 p90 lead90, rgLastStamp := stamp90, rgRelatches := t.rgRelatches + 1 })
  else
    let t := { t with rgLastStamp := stamp90, rgHaveLast := true }
    let e := diff33 (stamp90 + t.k90) p90
    if t.rgBucketOpen = false then
      (false, { t with rgBucketOpen := true, rgBucketStart := p90, rgBucketMin := e })
    else
      let t := { t with rgBucketMin := if e < t.rgBucketMin then e else t.rgBucketMin }
      if bucket90 ≤ diff33 p90 t.rgBucketStart then
        let t := t.finishBucket
        (false, { t with rgBucketStart := p90, rgBucketMin := diff33 (stamp90 + t.k90) p90 })
      else (false, t)

/-! ## Calls -/

/-- A call of the map, in any order and at any time. -/
inductive Call where
  | arm
  | pcr (src27 : Nat) (now : ℚ) (disc : Bool)
  | first (k90 : Nat)
  | sample (stamp90 p90 lead90 : Nat)

/-- What a call returns. -/
inductive Answer where
  | none
  | pcr (out27 : Nat)
  | relatched (anew : Bool)

def step (t : Timemap) : Call → Answer × Timemap
  | .arm => (.none, t.setArm)
  | .pcr src27 now disc => (.pcr (t.pcrFlagged src27 now disc).1, (t.pcrFlagged src27 now disc).2)
  | .first k90 => (.none, t.regenFirst k90)
  | .sample stamp90 p90 lead90 =>
    (.relatched (t.regenSample stamp90 p90 lead90).1, (t.regenSample stamp90 p90 lead90).2)

/-- The state after a run of calls. -/
def run (t : Timemap) (cs : List Call) : Timemap := cs.foldl (fun t c => (t.step c).2) t

/-- What the calls of a run return. -/
def answers (t : Timemap) : List Call → List Answer
  | [] => []
  | c :: cs => (t.step c).1 :: (t.step c).2.answers cs

/-- The buckets that a call completes: one at most. -/
def buckets (t : Timemap) : Call → Nat
  | .sample stamp90 p90 _ => if t.closes stamp90 p90 then 1 else 0
  | _ => 0

/-- The buckets that a run completes. -/
def bucketsIn (t : Timemap) : List Call → Nat
  | [] => 0
  | c :: cs => t.buckets c + (t.step c).2.bucketsIn cs

end Timemap

end DvbIpiTools.Tvhead
