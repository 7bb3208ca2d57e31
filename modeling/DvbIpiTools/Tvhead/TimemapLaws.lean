import DvbIpiTools.Tvhead.Timemap

set_option autoImplicit false

/-! # What the clock map keeps

Every state that calls can reach obeys the same laws: a PCR leaves with the offset unless it is held back, a single
PCR that does not fit leaves no trace, a new offset goes on where the bridge was, and stamps made anew are led by a few
ticks for each bucket. -/

namespace DvbIpiTools.Tvhead

open Nat

namespace Timemap

/-! ## What a PCR does -/

/-- A PCR that is held back, when no flag comes with it: it fits neither the last one that was accepted nor the one
that is pending. An armed map takes the next PCR as flagged. -/
def Implausible (t : Timemap) (src27 : Nat) (now : ℚ) : Prop :=
  t.arm = false ∧ t.havePcr = true ∧ pcrPlausible t.lastSrc src27 (now - t.lastWall) = false ∧
    (t.pend = true → pcrPlausible t.pendSrc src27 (now - t.pendWall) = false)

/-- The PCR agrees with the one that is pending, and not with the last one that was accepted. -/
def Confirms (t : Timemap) (src27 : Nat) (now : ℚ) : Prop :=
  t.arm = false ∧ t.pend = true ∧ pcrPlausible t.lastSrc src27 (now - t.lastWall) = false ∧
    pcrPlausible t.pendSrc src27 (now - t.pendWall) = true

/-- Neither armed nor waiting. -/
def clear (t : Timemap) (glitches : Nat) : Timemap := { t with arm := false, pend := false, pcrGlitches := glitches }

@[simp] theorem clear_relatches (t : Timemap) (g : Nat) : (t.clear g).relatches = t.relatches := by cases t; rfl
@[simp] theorem adopt_relatches (t : Timemap) : t.adopt.relatches = t.relatches + 1 := rfl
@[simp] theorem latch_relatches (t : Timemap) (k90 : Nat) : (t.latch k90).relatches = t.relatches + 1 := rfl
@[simp] theorem relatchTo_relatches (t : Timemap) (src27 out27 : Nat) :
    (t.relatchTo src27 out27).relatches = t.relatches + 1 := rfl
@[simp] theorem accept_relatches (t : Timemap) (src27 : Nat) (now : ℚ) :
    (t.accept src27 now).2.relatches = t.relatches := by cases t; rfl
@[simp] theorem clear_rgRelatches (t : Timemap) (g : Nat) : (t.clear g).rgRelatches = t.rgRelatches := by cases t; rfl
@[simp] theorem adopt_rgRelatches (t : Timemap) : t.adopt.rgRelatches = t.rgRelatches := by cases t; rfl
@[simp] theorem relatchTo_rgRelatches (t : Timemap) (src27 out27 : Nat) :
    (t.relatchTo src27 out27).rgRelatches = t.rgRelatches := by cases t; rfl
@[simp] theorem accept_rgRelatches (t : Timemap) (src27 : Nat) (now : ℚ) :
    (t.accept src27 now).2.rgRelatches = t.rgRelatches := by cases t; rfl
@[simp] theorem hold_relatches (t : Timemap) (src27 : Nat) (now : ℚ) :
    (t.hold src27 now).2.relatches = t.relatches := by cases t; rfl
@[simp] theorem hold_rgRelatches (t : Timemap) (src27 : Nat) (now : ℚ) :
    (t.hold src27 now).2.rgRelatches = t.rgRelatches := by cases t; rfl
@[simp] theorem accept_k90 (t : Timemap) (src27 : Nat) (now : ℚ) : (t.accept src27 now).2.k90 = t.k90 := by cases t; rfl

section Cases

variable {t : Timemap} {src27 : Nat} {now : ℚ} (disc : Bool)

theorem pcrFlagged_fits (hlast : pcrPlausible t.lastSrc src27 (now - t.lastWall) = true) :
    ∃ g, t.pcrFlagged src27 now disc = (t.clear g).accept src27 now := by
  cases harm : t.arm with
  | true => exact ⟨t.pcrGlitches, by simp [pcrFlagged, settle, clear, harm, hlast]⟩
  | false =>
    cases hpend : t.pend with
    | true => exact ⟨t.pcrGlitches + 1, by simp [pcrFlagged, settle, clear, harm, hpend, hlast, accept]⟩
    | false => exact ⟨t.pcrGlitches, by simp [pcrFlagged, settle, clear, harm, hpend, hlast, accept]⟩

theorem pcrFlagged_confirms (h : t.Confirms src27 now) :
    t.pcrFlagged src27 now disc = (t.clear t.pcrGlitches).adopt.accept src27 now := by
  obtain ⟨harm, hpend, hlast, hagree⟩ := h
  have hclear : ({ t with pend := false } : Timemap) = t.clear t.pcrGlitches := by rw [clear, harm]
  have hsettle : t.settle src27 now = (t.clear t.pcrGlitches).adopt := by
    simp only [settle, hpend, if_true, hlast, hagree, hclear]
    rfl
  have hfits : pcrPlausible (t.clear t.pcrGlitches).adopt.lastSrc src27
      (now - (t.clear t.pcrGlitches).adopt.lastWall) = true := hagree
  simp only [pcrFlagged, harm, Bool.false_eq_true, if_false, hsettle, hfits, reduceCtorEq, and_false]

theorem settle_clear (hlast : pcrPlausible t.lastSrc src27 (now - t.lastWall) = false) (hconf : ¬t.Confirms src27 now) :
    (if t.arm then { t with arm := false, pend := false } else t).settle src27 now = t.clear t.pcrGlitches := by
  cases harm : t.arm with
  | true => simp [settle, clear]
  | false =>
    cases hpend : t.pend with
    | true =>
      have hagree : pcrPlausible t.pendSrc src27 (now - t.pendWall) = false :=
        Bool.eq_false_iff.2 fun h => hconf ⟨harm, hpend, hlast, h⟩
      simp [settle, clear, harm, hpend, hlast, hagree]
    | false =>
      have hsame : t.clear t.pcrGlitches = t := by
        cases t
        simp_all [clear]
      rw [hsame]
      simp [settle, hpend]

/-- A PCR that neither fits nor confirms: it starts the map, sets the offset anew or is held. -/
theorem pcrFlagged_other (hlast : pcrPlausible t.lastSrc src27 (now - t.lastWall) = false)
    (hconf : ¬t.Confirms src27 now) : t.pcrFlagged src27 now disc = if t.havePcr = true then
        if (disc || t.arm) = true then
          ((t.clear t.pcrGlitches).relatchTo src27 (t.bridged now)).accept src27 now
        else (t.clear t.pcrGlitches).hold src27 now
      else (t.clear t.pcrGlitches).accept src27 now := by
  have hlast' : pcrPlausible (t.clear t.pcrGlitches).lastSrc src27 (now - (t.clear t.pcrGlitches).lastWall) = false :=
    hlast
  simp only [pcrFlagged, settle_clear hlast hconf, hlast', and_true]
  rfl

end Cases

/-- Everything that a call with a PCR can do. -/
inductive PcrStep (t : Timemap) (src27 : Nat) (now : ℚ) (disc : Bool) : Nat × Timemap → Prop
  | fits (glitches : Nat) : PcrStep t src27 now disc ((t.clear glitches).accept src27 now)
  | confirms (hconf : t.Confirms src27 now) :
      PcrStep t src27 now disc ((t.clear t.pcrGlitches).adopt.accept src27 now)
  | held (hdisc : disc = false) (himpl : t.Implausible src27 now) :
      PcrStep t src27 now disc ((t.clear t.pcrGlitches).hold src27 now)
  | relatches :
      PcrStep t src27 now disc (((t.clear t.pcrGlitches).relatchTo src27 (t.bridged now)).accept src27 now)

theorem pcrFlagged_step (t : Timemap) (src27 : Nat) (now : ℚ) (disc : Bool) :
    PcrStep t src27 now disc (t.pcrFlagged src27 now disc) := by
  by_cases hlast : pcrPlausible t.lastSrc src27 (now - t.lastWall) = true
  · obtain ⟨g, hg⟩ := pcrFlagged_fits disc hlast
    exact hg ▸ .fits g
  replace hlast := Bool.eq_false_iff.2 hlast
  by_cases hconf : t.Confirms src27 now
  · exact pcrFlagged_confirms disc hconf ▸ .confirms hconf
  rw [pcrFlagged_other disc hlast hconf]
  split
  · split
    · exact .relatches
    · obtain ⟨hdisc, harm⟩ : disc = false ∧ t.arm = false := by simpa using ‹¬(disc || t.arm) = true›
      exact .held hdisc ⟨harm, ‹_›, hlast, fun hp => Bool.eq_false_iff.2 fun h => hconf ⟨harm, hp, hlast, h⟩⟩
  · exact .fits _

/-! ## What a PCR that was held leaves behind -/

/-- Two maps that no later call tells apart: one has seen other glitches, and holds the rest of a PCR that is no
longer pending. -/
def Same (t t' : Timemap) : Prop :=
  ∃ g src out wall, t' = { t with pcrGlitches := g, pendSrc := src, pendOut := out, pendWall := wall } ∧
    (t.pend = true → src = t.pendSrc ∧ out = t.pendOut ∧ wall = t.pendWall)

/-- The same answer, and maps that stay the same. -/
def SameStep {α : Type} (r r' : α × Timemap) : Prop := r.1 = r'.1 ∧ r.2.Same r'.2

namespace Same

variable {t t' : Timemap}

theorem clear (h : t.Same t') (g g' : Nat) : (t.clear g).Same (t'.clear g') := by
  obtain ⟨_, src, out, wall, rfl, -⟩ := h
  exact ⟨g', src, out, wall, rfl, fun h => absurd h (by simp [Timemap.clear])⟩

variable (h : t.Same t')

include h

theorem accept (src27 : Nat) (now : ℚ) : SameStep (t.accept src27 now) (t'.accept src27 now) := by
  obtain ⟨g, src, out, wall, rfl, hpend⟩ := h
  exact ⟨rfl, g, src, out, wall, rfl, hpend⟩

theorem hold (src27 : Nat) (now : ℚ) : SameStep (t.hold src27 now) (t'.hold src27 now) := by
  obtain ⟨g, src, out, wall, rfl, -⟩ := h
  exact ⟨rfl, g, _, _, _, rfl, fun _ => ⟨rfl, rfl, rfl⟩⟩

theorem latch (k90 : Nat) : (t.latch k90).Same (t'.latch k90) := by
  obtain ⟨g, src, out, wall, rfl, hpend⟩ := h
  exact ⟨g, src, out, wall, rfl, hpend⟩

theorem bridged (now : ℚ) : t.bridged now = t'.bridged now := by
  obtain ⟨g, src, out, wall, rfl, -⟩ := h
  rfl

theorem confirms_iff (src27 : Nat) (now : ℚ) : t.Confirms src27 now ↔ t'.Confirms src27 now := by
  obtain ⟨g, src, out, wall, rfl, hpend⟩ := h
  refine and_congr_right fun _ => and_congr_right fun hp => ?_
  obtain ⟨rfl, rfl, rfl⟩ := hpend hp
  rfl

theorem pcrFlagged (src27 : Nat) (now : ℚ) (disc : Bool) :
    SameStep (t.pcrFlagged src27 now disc) (t'.pcrFlagged src27 now disc) := by
  have hplaus : pcrPlausible t.lastSrc src27 (now - t.lastWall) =
      pcrPlausible t'.lastSrc src27 (now - t'.lastWall) := by
    obtain ⟨g, src, out, wall, rfl, -⟩ := h
    rfl
  by_cases hlast : pcrPlausible t.lastSrc src27 (now - t.lastWall) = true
  · obtain ⟨g, hg⟩ := pcrFlagged_fits disc hlast
    obtain ⟨g', hg'⟩ := pcrFlagged_fits disc (hplaus ▸ hlast)
    rw [hg, hg']
    exact (h.clear g g').accept src27 now
  replace hlast := Bool.eq_false_iff.2 hlast
  have hclear := h.clear t.pcrGlitches t'.pcrGlitches
  by_cases hconf : t.Confirms src27 now
  · rw [pcrFlagged_confirms disc hconf, pcrFlagged_confirms disc ((h.confirms_iff src27 now).mp hconf)]
    refine Same.accept ?_ src27 now
    obtain ⟨g, src, out, wall, rfl, hpend⟩ := h
    obtain ⟨rfl, rfl, rfl⟩ := hpend hconf.2.1
    exact ⟨g, _, _, _, rfl, fun _ => ⟨rfl, rfl, rfl⟩⟩
  have hflags : t.havePcr = t'.havePcr ∧ t.arm = t'.arm := by
    obtain ⟨g, src, out, wall, rfl, -⟩ := h
    exact ⟨rfl, rfl⟩
  rw [pcrFlagged_other disc hlast hconf,
    pcrFlagged_other disc (hplaus ▸ hlast) (mt (h.confirms_iff src27 now).mpr hconf), hflags.1, hflags.2]
  split
  · split
    · rw [h.bridged]
      exact (hclear.latch _).accept src27 now
    · exact hclear.hold src27 now
  · exact hclear.accept src27 now

omit h

theorem regenSample (h : t.Same t') (stamp90 p90 lead90 : Nat) :
    SameStep (t.regenSample stamp90 p90 lead90) (t'.regenSample stamp90 p90 lead90) := by
  obtain ⟨g, src, out, wall, rfl, hpend⟩ := h
  simp only [Timemap.regenSample, jumped]
  split
  · exact ⟨rfl, g, src, out, wall, rfl, hpend⟩
  split
  · exact ⟨rfl, g, src, out, wall, rfl, hpend⟩
  split
  · simp only [finishBucket]
    split
    · exact ⟨rfl, g, src, out, wall, rfl, hpend⟩
    · exact ⟨rfl, g, src, out, wall, rfl, hpend⟩
  · exact ⟨rfl, g, src, out, wall, rfl, hpend⟩

theorem step (h : t.Same t') (c : Call) : SameStep (t.step c) (t'.step c) := by
  cases c with
  | pcr src27 now disc => exact (h.pcrFlagged src27 now disc).imp (congrArg Answer.pcr) id
  | sample stamp90 p90 lead90 => exact (h.regenSample stamp90 p90 lead90).imp (congrArg Answer.relatched) id
  | _ =>
    obtain ⟨g, src, out, wall, rfl, hpend⟩ := h
    exact ⟨rfl, g, src, out, wall, rfl, hpend⟩

theorem run (h : t.Same t') (cs : List Call) : t.answers cs = t'.answers cs ∧ (t.run cs).Same (t'.run cs) := by
  induction cs generalizing t t' with
  | nil => exact ⟨rfl, h⟩
  | cons c cs ih =>
    obtain ⟨hanswer, hsame⟩ := h.step c
    obtain ⟨hanswers, hrun⟩ := ih hsame
    exact ⟨congrArg₂ List.cons hanswer hanswers, hrun⟩

end Same

/-- What the offset is made of. -/
def latched (t : Timemap) : Nat × Nat × Nat × ℚ := (t.k90, t.lastSrc, t.lastOut, t.lastWall)

theorem Same.latched_eq {t t' : Timemap} (h : t.Same t') : t.latched = t'.latched := by
  obtain ⟨g, src, out, wall, rfl, -⟩ := h
  rfl

theorem pcrFlagged_held {t : Timemap} {src27 : Nat} {now : ℚ} (h : t.Implausible src27 now) :
    t.pcrFlagged src27 now false = (t.clear t.pcrGlitches).hold src27 now := by
  obtain ⟨harm, hhave, hlast, hpend⟩ := h
  have hconf : ¬t.Confirms src27 now := fun ⟨_, hp, _, hc⟩ => by simp [hpend hp] at hc
  rw [pcrFlagged_other false hlast hconf, if_pos hhave, harm]
  simp

/-- A single PCR that did not fit is forgotten with the next one that fits. -/
theorem same_of_glitch {t : Timemap} {src27 : Nat} {now : ℚ} (himpl : t.Implausible src27 now)
    {next : Nat} {at' : ℚ} (disc : Bool) (hfits : pcrPlausible t.lastSrc next (at' - t.lastWall) = true) :
    SameStep (t.pcrFlagged next at' disc) ((t.pcrFlagged src27 now false).2.pcrFlagged next at' disc) := by
  rw [pcrFlagged_held himpl]
  obtain ⟨g, hg⟩ := pcrFlagged_fits disc hfits
  obtain ⟨g', hg'⟩ := pcrFlagged_fits (t := ((t.clear t.pcrGlitches).hold src27 now).2) disc hfits
  rw [hg, hg']
  refine Same.accept ⟨g', src27, _, now, rfl, fun h => absurd h (by simp [clear])⟩ next at'

/-! ## Where a new offset goes on -/

/-- Within 150 ticks of 27 MHz of each other. -/
def Near (a b : Nat) : Prop := ∃ e : Int, -150 ≤ e ∧ e ≤ 150 ∧ (a : Int) ≡ b + e [ZMOD pcrModulus]

/-- The offset in ticks of 27 MHz is the difference, but for the rounding. -/
theorem offsetTo_modEq (src27 out27 : Nat) :
    ∃ e : Int, -150 ≤ e ∧ e ≤ 150 ∧ ((offsetTo src27 out27 * 300 : Nat) : Int) ≡ out27 - src27 + e [ZMOD pcrModulus] := by
  obtain ⟨d, hd⟩ : ∃ d, d = pcrSub out27 src27 := ⟨_, rfl⟩
  have hmod : offsetTo src27 out27 * 300 = (d + 150) / 300 * 300 % pcrModulus := by
    rw [offsetTo, ← hd]
    exact (mul_mod_mul_right 300 _ _).symm
  have hround : (((d + 150) / 300 * 300 : Nat) : Int) = d + (150 - ((d + 150) % 300 : Nat)) := by omega
  refine ⟨150 - ((d + 150) % 300 : Nat), by omega, by omega, ?_⟩
  rw [hmod, Int.natCast_mod, hround]
  refine (Int.mod_modEq _ _).trans (Int.ModEq.add_right _ ?_)
  rw [hd]
  exact pcrSub_modEq out27 src27

theorem near_offsetTo (src27 out27 src : Nat) :
    Near (pcrAdd src (offsetTo src27 out27 * 300)) (pcrAdd out27 (pcrSub src src27)) := by
  obtain ⟨e, hlow, hhigh, hoffset⟩ := offsetTo_modEq src27 out27
  refine ⟨e, hlow, hhigh, ?_⟩
  have hright : (pcrAdd out27 (pcrSub src src27) : Int) ≡ out27 + (src - src27) [ZMOD pcrModulus] :=
    (pcrAdd_modEq _ _).trans ((pcrSub_modEq src src27).add_left _)
  calc (pcrAdd src (offsetTo src27 out27 * 300) : Int)
      ≡ src + (offsetTo src27 out27 * 300 : Nat) [ZMOD pcrModulus] := pcrAdd_modEq _ _
    _ ≡ src + (out27 - src27 + e) [ZMOD pcrModulus] := hoffset.add_left _
    _ = out27 + (src - src27) + e := by ring
    _ ≡ pcrAdd out27 (pcrSub src src27) + e [ZMOD pcrModulus] := hright.symm.add_right e

/-! ## How stamps are led -/

theorem slew_le (err : Int) : |slew err| ≤ 9 := by
  rw [abs_le]
  simp only [slew, slewMax90]
  split_ifs <;> omega

theorem leadOffset_modEq (stamp90 p90 lead90 : Nat) :
    stamp90 + leadOffset stamp90 p90 lead90 ≡ p90 + lead90 [MOD stampModulus] := by
  obtain ⟨sum, hsum⟩ : ∃ sum : Int,
      sum = (if p90 + lead90 < stamp90 then (stampModulus : Int) else 0) + p90 + lead90 - stamp90 := ⟨_, rfl⟩
  have hcast : ((leadOffset stamp90 p90 lead90 : Nat) : Int) ≡ sum [ZMOD stampModulus] := by
    have hnonneg : 0 ≤ sum % 2 ^ 64 := Int.emod_nonneg _ (by norm_num)
    rw [leadOffset, ← hsum, Int.natCast_mod, Int.toNat_of_nonneg hnonneg]
    exact (Int.mod_modEq _ _).trans ((Int.mod_modEq _ _).of_dvd ⟨2 ^ 31, by norm_num [stampModulus]⟩)
  have hwhole : sum ≡ p90 + lead90 - stamp90 [ZMOD stampModulus] := by
    rw [hsum]
    split
    · rw [show (stampModulus : Int) + p90 + lead90 - stamp90 = p90 + lead90 - stamp90 + stampModulus by ring]
      exact Int.add_modEq_right
    · rw [zero_add]
  rw [← Int.natCast_modEq_iff, cast_add, cast_add]
  calc (stamp90 : Int) + (leadOffset stamp90 p90 lead90 : Nat)
      ≡ stamp90 + (p90 + lead90 - stamp90) [ZMOD stampModulus] := (hcast.trans hwhole).add_left _
    _ = p90 + lead90 := by ring

/-- The part of the map that the PCRs keep. -/
def pcrPart (t : Timemap) : Bool × Nat × ℚ × Nat × Bool × Nat × ℚ :=
  (t.havePcr, t.lastOut, t.lastWall, t.relatches, t.pend, t.pendOut, t.pendWall)

theorem finishBucket_frame (t : Timemap) :
    t.finishBucket.rgRelatches = t.rgRelatches ∧ t.finishBucket.pcrPart = t.pcrPart := by
  simp only [finishBucket]
  split
  · exact ⟨rfl, rfl⟩
  · exact ⟨rfl, rfl⟩

theorem finishBucket_lt (t : Timemap) (h : t.k90 < stampModulus) : t.finishBucket.k90 < stampModulus := by
  simp only [finishBucket]
  split
  · exact h
  · have hlt := Int.tmod_lt_of_pos ((t.k90 : Int) - slew (t.rgBucketMin - t.rgSetpoint) + stampModulus)
      (by norm_num [stampModulus] : (0 : Int) < stampModulus)
    exact (Int.toNat_lt' (by norm_num [stampModulus])).mpr hlt

/-- The offset stays in its range, so the remainder of C is the one of the integers. -/
theorem finishBucket_k90 (t : Timemap) : ∃ d : Int, |d| ≤ 9 ∧ (t.finishBucket.k90 : Int) ≡ t.k90 + d [ZMOD stampModulus] := by
  simp only [finishBucket]
  split
  · exact ⟨0, by norm_num, by rw [add_zero]⟩
  have hslew := slew_le (t.rgBucketMin - t.rgSetpoint)
  rw [abs_le] at hslew
  have hpos : 0 ≤ (t.k90 : Int) - slew (t.rgBucketMin - t.rgSetpoint) + stampModulus := by
    simp only [stampModulus]
    omega
  refine ⟨-slew (t.rgBucketMin - t.rgSetpoint), by rw [abs_neg]; exact slew_le _, ?_⟩
  rw [Int.tmod_eq_emod_of_nonneg hpos, Int.toNat_of_nonneg (Int.emod_nonneg _ (by norm_num [stampModulus]))]
  exact (Int.mod_modEq _ _).trans (Int.add_modEq_right)

/-- Everything that a sample can do to the offset: it is set anew, or moved by nine ticks at most as a bucket ends. -/
inductive SampleStep (t : Timemap) (stamp90 p90 lead90 : Nat) (r : Bool × Timemap) : Prop
  | anew (hanswer : r.1 = true) (hk90 : r.2.k90 = leadOffset stamp90 p90 lead90)
      (hcount : r.2.rgRelatches = t.rgRelatches + 1) (hpcr : r.2.pcrPart = t.pcrPart)
  | led (hanswer : r.1 = false) (d : Int) (hd : |d| ≤ 9 * t.buckets (.sample stamp90 p90 lead90))
      (hk90 : (r.2.k90 : Int) ≡ t.k90 + d [ZMOD stampModulus]) (hbounded : t.k90 < stampModulus → r.2.k90 < stampModulus)
      (hcount : r.2.rgRelatches = t.rgRelatches) (hpcr : r.2.pcrPart = t.pcrPart)

theorem regenSample_step (t : Timemap) (stamp90 p90 lead90 : Nat) :
    SampleStep t stamp90 p90 lead90 (t.regenSample stamp90 p90 lead90) := by
  have hstill : |(0 : Int)| ≤ 9 * t.buckets (.sample stamp90 p90 lead90) := by simp
  simp only [regenSample]
  split
  · exact .anew rfl rfl rfl rfl
  rename_i hjump
  split
  · exact .led rfl 0 hstill (by rw [add_zero]) id rfl rfl
  rename_i hopen
  split
  · rename_i hlong
    have hcloses : t.closes stamp90 p90 = true := by
      simp only [closes, Bool.and_eq_true, Bool.not_eq_true', decide_eq_true_eq]
      exact ⟨⟨Bool.eq_false_iff.2 hjump, by simpa using hopen⟩, hlong⟩
    obtain ⟨d, hd, hk90⟩ := finishBucket_k90 { t with
      rgLastStamp := stamp90, rgHaveLast := true, rgBucketMin :=
        if diff33 (stamp90 + t.k90) p90 < t.rgBucketMin then diff33 (stamp90 + t.k90) p90 else t.rgBucketMin }
    refine .led rfl d ?_ hk90 ?_ (finishBucket_frame _).1 (finishBucket_frame _).2
    · rwa [buckets, if_pos hcloses, cast_one, mul_one]
    · exact fun hk90 => finishBucket_lt _ hk90
  · exact .led rfl 0 hstill (by rw [add_zero]) id rfl rfl

/-! ## Runs -/

theorem step_counts (t : Timemap) (c : Call) :
    t.relatches ≤ (t.step c).2.relatches ∧ t.rgRelatches ≤ (t.step c).2.rgRelatches := by
  cases c with
  | pcr src27 now disc =>
    rw [step]
    have hstep := pcrFlagged_step t src27 now disc
    generalize t.pcrFlagged src27 now disc = r at hstep ⊢
    cases hstep with
    | _ => simp
  | sample stamp90 p90 lead90 =>
    rw [step]
    have hstep := regenSample_step t stamp90 p90 lead90
    generalize t.regenSample stamp90 p90 lead90 = r at hstep ⊢
    cases hstep with
    | anew _ _ hcount hpcr =>
      simp only [pcrPart, Prod.mk.injEq] at hpcr
      exact ⟨hpcr.2.2.2.1.ge, hcount ▸ le_succ _⟩
    | led _ _ _ _ _ hcount hpcr =>
      simp only [pcrPart, Prod.mk.injEq] at hpcr
      exact ⟨hpcr.2.2.2.1.ge, hcount.ge⟩
  | _ => exact ⟨le_rfl, le_rfl⟩

theorem run_counts (t : Timemap) (cs : List Call) :
    t.relatches ≤ (t.run cs).relatches ∧ t.rgRelatches ≤ (t.run cs).rgRelatches := by
  induction cs generalizing t with
  | nil => exact ⟨le_rfl, le_rfl⟩
  | cons c cs ih => exact ⟨(t.step_counts c).1.trans (ih _).1, (t.step_counts c).2.trans (ih _).2⟩

/-- Where no new offset is counted, a call leads the old one by nine ticks for a bucket it completes. -/
theorem step_led {t : Timemap} {c : Call} (hfirst : ∀ k90, c ≠ .first k90)
    (hpcr : (t.step c).2.relatches = t.relatches) (hregen : (t.step c).2.rgRelatches = t.rgRelatches) :
    ∃ d : Int, |d| ≤ 9 * t.buckets c ∧ ((t.step c).2.k90 : Int) ≡ t.k90 + d [ZMOD stampModulus] := by
  cases c with
  | arm => exact ⟨0, by simp, by rw [add_zero]; rfl⟩
  | first k90 => exact absurd rfl (hfirst k90)
  | pcr src27 now disc =>
    rw [step] at hpcr ⊢
    have hstep := pcrFlagged_step t src27 now disc
    generalize t.pcrFlagged src27 now disc = r at hstep hpcr ⊢
    cases hstep with
    | confirms _ => exact absurd hpcr (by simp)
    | relatches => exact absurd hpcr (by simp)
    | _ => exact ⟨0, by simp, by rw [add_zero]; rfl⟩
  | sample stamp90 p90 lead90 =>
    rw [step] at hregen ⊢
    have hstep := regenSample_step t stamp90 p90 lead90
    generalize t.regenSample stamp90 p90 lead90 = r at hstep hregen ⊢
    cases hstep with
    | anew _ _ hcount _ => exact absurd (hcount.symm.trans hregen) (succ_ne_self _)
    | led _ d hd hk90 _ _ _ => exact ⟨d, hd, hk90⟩

theorem run_led {t : Timemap} {cs : List Call} (hfirst : ∀ k90, Call.first k90 ∉ cs)
    (hpcr : (t.run cs).relatches = t.relatches) (hregen : (t.run cs).rgRelatches = t.rgRelatches) :
    ∃ d : Int, |d| ≤ 9 * t.bucketsIn cs ∧ ((t.run cs).k90 : Int) ≡ t.k90 + d [ZMOD stampModulus] := by
  induction cs generalizing t with
  | nil => exact ⟨0, by simp, by rw [add_zero]; rfl⟩
  | cons c cs ih =>
    -- the counts only grow, so neither the first call nor the others raised them
    obtain ⟨hpcr1, hregen1⟩ := t.step_counts c
    obtain ⟨hpcr2, hregen2⟩ := (t.step c).2.run_counts cs
    have hpcr' : ((t.step c).2.run cs).relatches = t.relatches := hpcr
    have hregen' : ((t.step c).2.run cs).rgRelatches = t.rgRelatches := hregen
    obtain ⟨d, hd, hk90⟩ := step_led (t := t) (c := c) (fun k90 h => hfirst k90 (h ▸ List.mem_cons_self))
      (by omega) (by omega)
    obtain ⟨e, he, hrest⟩ := ih (t := (t.step c).2) (fun k90 h => hfirst k90 (List.mem_cons_of_mem c h))
      (by omega) (by omega)
    refine ⟨d + e, ?_, ?_⟩
    · calc |d + e| ≤ |d| + |e| := abs_add_le d e
        _ ≤ 9 * t.buckets c + 9 * (t.step c).2.bucketsIn cs := add_le_add hd he
        _ = 9 * ((t.buckets c + (t.step c).2.bucketsIn cs : Nat) : Int) := by push_cast; ring
    · calc (((t.step c).2.run cs).k90 : Int)
          ≡ (t.step c).2.k90 + e [ZMOD stampModulus] := hrest
        _ ≡ t.k90 + d + e [ZMOD stampModulus] := hk90.add_right e
        _ = t.k90 + (d + e) := by ring

/-- What every call keeps. -/
structure Inv (t : Timemap) : Prop where
  bounded : t.k90 < stampModulus
  bridged : t.pend = true → t.pendOut = t.bridged t.pendWall

namespace Inv

variable {t : Timemap}

theorem initial : Inv {} := ⟨by decide, nofun⟩

theorem pcrFlagged (h : t.Inv) (src27 : Nat) (now : ℚ) (disc : Bool) : (t.pcrFlagged src27 now disc).2.Inv := by
  have hoffset (a b : Nat) : offsetTo a b < stampModulus := mod_lt _ (by decide)
  have hstep := pcrFlagged_step t src27 now disc
  generalize t.pcrFlagged src27 now disc = r at hstep ⊢
  cases hstep with
  | fits g => exact ⟨h.bounded, fun hp => absurd hp (by simp [clear, accept])⟩
  | confirms _ => exact ⟨hoffset _ _, fun hp => absurd hp (by simp [clear, accept, adopt, relatchTo, latch])⟩
  | held _ _ => exact ⟨h.bounded, fun _ => rfl⟩
  | relatches => exact ⟨hoffset _ _, fun hp => absurd hp (by simp [clear, accept, relatchTo, latch])⟩

theorem regenSample (h : t.Inv) (stamp90 p90 lead90 : Nat) : (t.regenSample stamp90 p90 lead90).2.Inv := by
  have hbridge {t' : Timemap} (hpart : t'.pcrPart = t.pcrPart) (hp : t'.pend = true) :
      t'.pendOut = t'.bridged t'.pendWall := by
    simp only [pcrPart, Prod.mk.injEq] at hpart
    obtain ⟨-, hout, hwall, -, hpend, hpendOut, hpendWall⟩ := hpart
    rw [hpendOut, hpendWall, h.bridged (hpend ▸ hp), Timemap.bridged, Timemap.bridged, hout, hwall]
  have hstep := regenSample_step t stamp90 p90 lead90
  generalize t.regenSample stamp90 p90 lead90 = r at hstep ⊢
  cases hstep with
  | anew _ hk90 _ hpart => exact ⟨hk90 ▸ mod_lt _ (by decide), hbridge hpart⟩
  | led _ _ _ _ hbounded _ hpart => exact ⟨hbounded h.bounded, hbridge hpart⟩

theorem step (h : t.Inv) (c : Call) : (t.step c).2.Inv := by
  cases c with
  | arm => exact ⟨h.bounded, h.bridged⟩
  | pcr src27 now disc => exact h.pcrFlagged src27 now disc
  | first k90 => exact ⟨mod_lt _ (by decide), h.bridged⟩
  | sample stamp90 p90 lead90 => exact h.regenSample stamp90 p90 lead90

theorem run (h : t.Inv) (cs : List Call) : (t.run cs).Inv := by
  induction cs generalizing t with
  | nil => exact h
  | cons c cs ih => exact ih (h.step c)

end Inv

/-! ## The laws -/

/-- What every later call finds in the map. -/
structure Laws (t : Timemap) : Prop where
  /-- The offset changes only with a new one that is counted. -/
  moved : ∀ src27 now disc, (t.pcrFlagged src27 now disc).2.k90 ≠ t.k90 →
    (t.pcrFlagged src27 now disc).2.relatches = t.relatches + 1
  ranged : ∀ src27 now disc, (t.pcrFlagged src27 now disc).1 < pcrModulus
  /-- A PCR leaves with the offset, unless it is held back. -/
  mapped : ∀ src27 now disc, ¬(disc = false ∧ t.Implausible src27 now) →
    (t.pcrFlagged src27 now disc).1 = pcrAdd src27 ((t.pcrFlagged src27 now disc).2.k90 * 300)
  /-- A PCR that is held back leaves what the offset is made of, and when the next one fits the last one accepted, no
  later call and no later offset tells that it was there. -/
  glitch : ∀ src27 now, t.Implausible src27 now → (t.pcrFlagged src27 now false).2.latched = t.latched ∧
    ∀ next at' disc, pcrPlausible t.lastSrc next (at' - t.lastWall) = true → ∀ cs,
      (t.pcrFlagged src27 now false).2.answers (.pcr next at' disc :: cs) = t.answers (.pcr next at' disc :: cs) ∧
      ((t.pcrFlagged src27 now false).2.run (.pcr next at' disc :: cs)).latched =
        (t.run (.pcr next at' disc :: cs)).latched
  /-- A new offset takes a source PCR, this one or the one it confirms, to the value that was bridged for it, so the
  output goes on from there. -/
  continues : ∀ src27 now disc, (t.pcrFlagged src27 now disc).2.relatches ≠ t.relatches →
    ∃ src out, (src = src27 ∧ out = t.bridged now ∨ t.pend = true ∧ src = t.pendSrc ∧ out = t.bridged t.pendWall) ∧
      (t.pcrFlagged src27 now disc).1 = pcrAdd src27 ((t.pcrFlagged src27 now disc).2.k90 * 300) ∧
      ∀ later, Near (pcrAdd later ((t.pcrFlagged src27 now disc).2.k90 * 300)) (pcrAdd out (pcrSub later src))
  bounded : t.k90 < stampModulus
  /-- Until a new offset is counted, each bucket leads the old one by nine ticks at most. -/
  led : ∀ cs, (∀ k90, Call.first k90 ∉ cs) → (t.run cs).relatches = t.relatches →
    (t.run cs).rgRelatches = t.rgRelatches →
    ∃ d : Int, |d| ≤ 9 * t.bucketsIn cs ∧ ((t.run cs).k90 : Int) ≡ t.k90 + d [ZMOD stampModulus]
  /-- A sample that counts a new offset puts its stamp ahead of the clock by the lead. -/
  anew : ∀ stamp90 p90 lead90, (t.regenSample stamp90 p90 lead90).2.rgRelatches ≠ t.rgRelatches →
    stamp90 + (t.regenSample stamp90 p90 lead90).2.k90 ≡ p90 + lead90 [MOD stampModulus]

theorem Inv.continues {t : Timemap} (h : t.Inv) (src27 : Nat) (now : ℚ) (disc : Bool)
    (hcount : (t.pcrFlagged src27 now disc).2.relatches ≠ t.relatches) :
    ∃ src out, (src = src27 ∧ out = t.bridged now ∨ t.pend = true ∧ src = t.pendSrc ∧ out = t.bridged t.pendWall) ∧
      (t.pcrFlagged src27 now disc).1 = pcrAdd src27 ((t.pcrFlagged src27 now disc).2.k90 * 300) ∧
      ∀ later, Near (pcrAdd later ((t.pcrFlagged src27 now disc).2.k90 * 300)) (pcrAdd out (pcrSub later src)) := by
  have hstep := pcrFlagged_step t src27 now disc
  generalize t.pcrFlagged src27 now disc = r at hstep hcount ⊢
  cases hstep with
  | confirms hconf =>
    refine ⟨t.pendSrc, t.pendOut, .inr ⟨hconf.2.1, rfl, h.bridged hconf.2.1⟩, rfl, fun later => ?_⟩
    exact near_offsetTo t.pendSrc t.pendOut later
  | relatches => exact ⟨src27, t.bridged now, .inl ⟨rfl, rfl⟩, rfl, near_offsetTo src27 _⟩
  | _ => exact absurd (by simp) hcount

theorem Inv.laws {t : Timemap} (h : t.Inv) : t.Laws where
  moved := fun src27 now disc hk90 => by
    have hstep := pcrFlagged_step t src27 now disc
    generalize t.pcrFlagged src27 now disc = r at hstep hk90 ⊢
    cases hstep with
    | confirms _ => simp
    | relatches => simp
    | _ => exact absurd rfl hk90
  ranged := fun src27 now disc => by
    have hstep := pcrFlagged_step t src27 now disc
    generalize t.pcrFlagged src27 now disc = r at hstep ⊢
    cases hstep with
    | _ => exact pcrAdd_lt _ _
  mapped := fun src27 now disc hheld => by
    have hstep := pcrFlagged_step t src27 now disc
    generalize t.pcrFlagged src27 now disc = r at hstep ⊢
    cases hstep with
    | held hdisc himpl => exact absurd ⟨hdisc, himpl⟩ hheld
    | _ => rfl
  glitch := fun src27 now himpl => by
    refine ⟨by rw [pcrFlagged_held himpl]; rfl, fun next at' disc hfits cs => ?_⟩
    obtain ⟨hanswer, hsame⟩ := same_of_glitch himpl disc hfits
    obtain ⟨hanswers, hrun⟩ := hsame.run cs
    refine ⟨congrArg₂ List.cons (congrArg Answer.pcr hanswer.symm) hanswers.symm, ?_⟩
    exact hrun.latched_eq.symm
  continues := h.continues
  bounded := h.bounded
  led := fun _ hfirst hpcr hregen => run_led hfirst hpcr hregen
  anew := fun stamp90 p90 lead90 hcount => by
    have hstep := regenSample_step t stamp90 p90 lead90
    generalize t.regenSample stamp90 p90 lead90 = r at hstep hcount ⊢
    cases hstep with
    | anew _ hk90 _ _ => exact hk90 ▸ leadOffset_modEq stamp90 p90 lead90
    | led _ _ _ _ _ hsame _ => exact absurd hsame hcount

/-- Whatever calls came, the map obeys its laws. -/
theorem run_laws (cs : List Call) : (({} : Timemap).run cs).Laws := (Inv.initial.run cs).laws

end Timemap

end DvbIpiTools.Tvhead
