import Mathlib.Computability.Language
import Mathlib.Data.ENat.Basic

set_option autoImplicit false

/-! # Bounded repetition of a language

`more l lo hi cnt` is what may still come after `cnt` words of `l`, where `lo` to `hi` of them are wanted in all. -/

namespace DvbIpiTools.BoundedRepeat

open Computability

variable {α : Type} {l l' r r' : Language α} {lo cnt : ℕ} {hi : ℕ∞} {w : List α}

def more (l : Language α) (lo : ℕ) (hi : ℕ∞) (cnt : ℕ) : Language α :=
  {w | ∃ j, lo ≤ cnt + j ∧ ((cnt + j : ℕ) : ℕ∞) ≤ hi ∧ w ∈ l ^ j}

theorem mem_more_mul : w ∈ more l lo hi cnt * r ↔
    (lo ≤ cnt ∧ (cnt : ℕ∞) ≤ hi ∧ w ∈ r) ∨ (((cnt + 1 : ℕ) : ℕ∞) ≤ hi ∧ w ∈ l * (more l lo hi (cnt + 1) * r)) := by
  constructor
  · rw [Language.mem_mul]
    rintro ⟨x, ⟨j, hlo, hhi, hx⟩, y, hy, rfl⟩
    cases j with
    | zero =>
      subst hx
      exact .inl ⟨hlo, hhi, hy⟩
    | succ j =>
      rw [pow_succ', Language.mem_mul] at hx
      obtain ⟨a, ha, b, hb, rfl⟩ := hx
      have hj : cnt + (j + 1) = cnt + 1 + j := by omega
      refine .inr ⟨le_trans (Nat.cast_le.2 (by omega)) hhi, Language.mem_mul.2 ⟨a, ha, b ++ y, ?_, by simp⟩⟩
      exact Language.append_mem_mul ⟨j, hj ▸ hlo, hj ▸ hhi, hb⟩ hy
  · rintro (⟨hlo, hhi, hw⟩ | ⟨-, hw⟩)
    · exact Language.mem_mul.2 ⟨[], ⟨0, hlo, hhi, Language.nil_mem_one⟩, w, hw, rfl⟩
    obtain ⟨a, ha, z, hz, rfl⟩ := Language.mem_mul.1 hw
    obtain ⟨b, ⟨j, hlo, hhi, hb⟩, y, hy, rfl⟩ := Language.mem_mul.1 hz
    have hj : cnt + 1 + j = cnt + (j + 1) := by omega
    refine Language.mem_mul.2 ⟨a ++ b, ⟨j + 1, hj ▸ hlo, hj ▸ hhi, ?_⟩, y, hy, by simp⟩
    rw [pow_succ']
    exact Language.append_mem_mul ha hb

variable (hl : ∀ x ∈ l, x ∈ l')

include hl

theorem mul_mono (hr : ∀ x ∈ r, x ∈ r') : ∀ x ∈ l * r, x ∈ l' * r' := by
  intro x hx
  obtain ⟨a, ha, b, hb, rfl⟩ := Language.mem_mul.1 hx
  exact Language.append_mem_mul (hl a ha) (hr b hb)

theorem pow_mono (j : ℕ) : ∀ x ∈ l ^ j, x ∈ l' ^ j := by
  induction j with
  | zero => exact fun x hx => hx
  | succ j ih => exact mul_mono ih hl

theorem more_mono : ∀ x ∈ more l lo hi cnt, x ∈ more l' lo hi cnt :=
  fun x ⟨j, hlo, hhi, hx⟩ => ⟨j, hlo, hhi, pow_mono hl j x hx⟩

omit hl

/-- The one-letter words whose letter is in a class. -/
def letters (p : α → Bool) : Language α := {w | ∃ c, p c = true ∧ w = [c]}

theorem mem_letters_pow {p : α → Bool} {j : ℕ} : w ∈ letters p ^ j ↔ w.length = j ∧ ∀ c ∈ w, p c = true := by
  induction j generalizing w with
  | zero =>
    rw [pow_zero, Language.mem_one, List.length_eq_zero_iff]
    exact ⟨fun h => ⟨h, by simp [h]⟩, And.left⟩
  | succ j ih =>
    rw [pow_succ', Language.mem_mul]
    constructor
    · rintro ⟨_, ⟨c, hc, rfl⟩, b, hb, rfl⟩
      obtain ⟨hlen, hall⟩ := ih.1 hb
      exact ⟨by simp [hlen], by simpa [hc] using hall⟩
    · rintro ⟨hlen, hall⟩
      cases w with
      | nil => simp at hlen
      | cons c w =>
        refine ⟨[c], ⟨c, hall c (by simp), rfl⟩, w, ih.2 ⟨by simpa using hlen, fun d hd => hall d (by simp [hd])⟩, rfl⟩

end DvbIpiTools.BoundedRepeat
