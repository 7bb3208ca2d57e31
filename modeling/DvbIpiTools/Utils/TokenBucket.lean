import Mathlib.Algebra.Order.Field.Basic
import Mathlib.Tactic.Linarith
import Mathlib.Tactic.Ring

set_option autoImplicit false

/-! # Token buckets

A bucket fills at a rate up to its size, and what is taken out of it was in it. So in a span of time no more can be
taken than the bucket holds at first and what flows in. -/

namespace DvbIpiTools.TokenBucket

variable {𝕜 : Type} [Field 𝕜] [LinearOrder 𝕜] [IsStrictOrderedRing 𝕜]

/-- A bucket: what is in it, and since when. -/
structure Bucket (𝕜 : Type) where
  tokens : 𝕜
  last : 𝕜

namespace Bucket

/-- The bucket at a time: filled up to `size`, unless the time is not after the last one. -/
def refill (rate size : 𝕜) (b : Bucket 𝕜) (now : 𝕜) : Bucket 𝕜 :=
  if b.last < now then ⟨min (b.tokens + (now - b.last) * rate) size, now⟩ else b

/-- The bucket without `g` tokens. -/
def spend (b : Bucket 𝕜) (g : 𝕜) : Bucket 𝕜 := { b with tokens := b.tokens - g }

/-- A bucket that is neither overdrawn nor overfull. -/
def Within (size : 𝕜) (b : Bucket 𝕜) : Prop := 0 ≤ b.tokens ∧ b.tokens ≤ size

variable {rate size : 𝕜}

theorem Within.refill (hrate : 0 ≤ rate) {b : Bucket 𝕜} (h : b.Within size) (now : 𝕜) :
    (b.refill rate size now).Within size := by
  unfold Bucket.refill
  split
  · rename_i hlt
    have hflow : 0 ≤ (now - b.last) * rate := mul_nonneg (sub_nonneg.2 hlt.le) hrate
    exact ⟨le_min (add_nonneg h.1 hflow) (h.1.trans h.2), min_le_right _ _⟩
  · exact h

theorem Within.spend {b : Bucket 𝕜} (h : b.Within size) {g : 𝕜} (hg : 0 ≤ g) (hle : g ≤ b.tokens) :
    (b.spend g).Within size := ⟨sub_nonneg.2 hle, (sub_le_self _ hg).trans h.2⟩

/-! ## What can be taken -/

/-- What a call at `now` would find in the bucket. -/
def level (rate size : 𝕜) (b : Bucket 𝕜) (now : 𝕜) : 𝕜 := (b.refill rate size now).tokens

theorem level_le_add (hrate : 0 ≤ rate) (b : Bucket 𝕜) {t t' : 𝕜} (ht : t ≤ t') :
    b.level rate size t' ≤ b.level rate size t + (t' - t) * rate := by
  have hflow : 0 ≤ (t' - t) * rate := mul_nonneg (sub_nonneg.2 ht) hrate
  unfold level refill
  split
  · rename_i hlt'
    split
    · rename_i hlt
      rw [← min_add_add_right]
      refine min_le_min (le_of_eq (by ring)) (le_add_of_nonneg_right hflow)
    · rename_i hge
      -- the bucket is newer than `t`, so less than the whole span flows in
      have hspan : (t' - b.last) * rate ≤ (t' - t) * rate :=
        mul_le_mul_of_nonneg_right (sub_le_sub_left (not_lt.1 hge) t') hrate
      exact (min_le_left _ _).trans (by linarith)
  · rename_i hge'
    rw [if_neg (fun hlt => hge' (lt_of_lt_of_le hlt ht))]
    exact le_add_of_nonneg_right hflow

omit [IsStrictOrderedRing 𝕜] in
/-- After a take at `now` the bucket holds what was found less what was taken. -/
theorem level_spend (b : Bucket 𝕜) (now g : 𝕜) :
    ((b.refill rate size now).spend g).level rate size now = b.level rate size now - g := by
  have hlast : ¬((b.refill rate size now).spend g).last < now := by
    unfold refill
    split
    · exact lt_irrefl _
    · assumption
  rw [level, refill, if_neg hlast]
  rfl

/-- What is taken at `now` and what is left then were there at `t` or flowed in since. -/
theorem spend_add_level_le (hrate : 0 ≤ rate) (b : Bucket 𝕜) {t now : 𝕜} (ht : t ≤ now) (g : 𝕜) :
    g + ((b.refill rate size now).spend g).level rate size now ≤ b.level rate size t + (now - t) * rate := by
  rw [level_spend, add_sub_cancel]
  exact level_le_add hrate b ht

end Bucket

end DvbIpiTools.TokenBucket
