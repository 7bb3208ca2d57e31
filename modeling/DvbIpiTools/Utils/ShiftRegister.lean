import Mathlib.Data.List.Basic

set_option autoImplicit false

/-! # Shift registers

The register of a cyclic redundancy check: the top bit leaves, and feeds a polynomial back in. Where that has a constant
term, a burst of no more bits than the register holds changes the remainder. -/

namespace ShiftRegister

open List

variable {w : Nat} (g : BitVec w)

/-- One bit into the register of the polynomial `g`. -/
def shift (s : BitVec w) (bit : Bool) : BitVec w := if s.msb ^^ bit then (s <<< 1) ^^^ g else s <<< 1

/-- The low `k` bits are the same. -/
def SameLow (k : Nat) (s t : BitVec w) : Prop := ∀ i < k, s.getLsbD i = t.getLsbD i

variable {g} {s t : BitVec w} {b c : Bool} {k : Nat} {x y : List Bool}

theorem getLsbD_shift {i : Nat} (hi : i < w) :
    (shift g s b).getLsbD i = ((!decide (i < 1) && s.getLsbD (i - 1)) ^^ (g.getLsbD i && (s.msb ^^ b))) := by
  have hleft : (s <<< 1).getLsbD i = (!decide (i < 1) && s.getLsbD (i - 1)) := by
    rw [BitVec.getLsbD_shiftLeft, decide_eq_true hi, Bool.true_and]
  unfold shift
  cases s.msb ^^ b <;> simp [hleft]

variable (hg : g.getLsbD 0 = true)

include hg

/-- The lowest bit tells what was fed back, and what the other bits were before. -/
theorem sameLow_of_shift (hk : k < w) (h : SameLow (k + 1) (shift g s b) (shift g t c)) :
    (s.msb ^^ b) = (t.msb ^^ c) ∧ SameLow k s t := by
  have hfed : (s.msb ^^ b) = (t.msb ^^ c) := by
    have h0 := h 0 (by omega)
    simpa [getLsbD_shift (show 0 < w by omega), hg] using h0
  refine ⟨hfed, fun i hi => ?_⟩
  have hi' := h (i + 1) (by omega)
  simpa [getLsbD_shift (show i + 1 < w by omega), hfed] using hi'

theorem shift_injective (h : shift g s b = shift g t b) : s = t := by
  have hw : 0 < w := Nat.pos_of_ne_zero fun hw => by subst hw; simp at hg
  obtain ⟨hfed, hlow⟩ := sameLow_of_shift (t := t) (k := w - 1) hg (by omega) fun i _ => by rw [h]
  rw [Bool.xor_left_inj, BitVec.msb_eq_getLsbD_last, BitVec.msb_eq_getLsbD_last] at hfed
  refine BitVec.eq_of_getLsbD_eq fun i hi => ?_
  obtain rfl | hlt : i = w - 1 ∨ i < w - 1 := by omega
  · exact hfed
  · exact hlow i hlt

theorem run_injective (h : x.foldl (shift g) s = x.foldl (shift g) t) : s = t := by
  induction x generalizing s t with
  | nil => exact h
  | cons b x ih => exact shift_injective hg (ih h)

/-- Every bit of two runs to one state undoes one bit of it; runs of at most as many bits as the register holds are the same
where they begin in one state. -/
theorem sameLow_of_run (hlen : x.length = y.length) (hx : x.length ≤ w)
    (h : x.foldl (shift g) s = y.foldl (shift g) t) : SameLow (w - x.length) s t ∧ (s = t → x = y) := by
  induction x generalizing s t y with
  | nil =>
    obtain rfl : y = [] := eq_nil_of_length_eq_zero hlen.symm
    exact ⟨fun i _ => congrArg (·.getLsbD i) h, fun _ => rfl⟩
  | cons b x ih =>
    cases y with
    | nil => cases hlen
    | cons c y =>
      rw [length_cons] at hx
      obtain ⟨hnext, hbits⟩ := ih (Nat.succ.inj hlen) (by omega) h
      rw [show w - x.length = w - (x.length + 1) + 1 by omega] at hnext
      obtain ⟨hfed, hlow⟩ := sameLow_of_shift hg (by omega) hnext
      refine ⟨hlow, ?_⟩
      rintro rfl
      obtain rfl : b = c := by simpa using hfed
      rw [hbits rfl]

/-- A burst of at most as many bits as the register holds changes the remainder. -/
theorem burst_injective (before after : List Bool) (hlen : x.length = y.length) (hx : x.length ≤ w)
    (h : (before ++ x ++ after).foldl (shift g) s = (before ++ y ++ after).foldl (shift g) s) : x = y := by
  rw [foldl_append, foldl_append, foldl_append, foldl_append] at h
  exact (sameLow_of_run hg hlen hx (run_injective hg h)).2 rfl

omit hg

end ShiftRegister
