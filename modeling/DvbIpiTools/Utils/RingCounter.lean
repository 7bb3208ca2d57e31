import Mathlib.Data.List.GetD
import Mathlib.Tactic.Ring

set_option autoImplicit false

/-! # Free-running counters of a ring

A ring of `2 ^ k` cells is addressed by counters of 32 bits that only ever grow. A counter stands for a position in an
endless sequence; the cells show a window of it. -/

namespace DvbIpiTools.RingCounter

open List Nat

/-! ## Counters -/

theorem toNat_ofNat_sub {a b : Nat} (hle : b ≤ a) (hlt : a - b < 2 ^ 32) :
    (UInt32.ofNat a - UInt32.ofNat b).toNat = a - b := by
  have hsum : UInt32.ofNat a = UInt32.ofNat (a - b) + UInt32.ofNat b := by
    rw [← UInt32.ofNat_add, Nat.sub_add_cancel hle]
  rw [hsum, UInt32.add_sub_cancel, UInt32.toNat_ofNat', mod_eq_of_lt hlt]

theorem mod_ne {head i j cap : Nat} (hij : i < j) (hjcap : j < cap) : (head + i) % cap ≠ (head + j) % cap := by
  intro heq
  have hzero := sub_mod_eq_zero_of_mod_eq heq.symm
  rw [Nat.add_sub_add_left, Nat.mod_eq_of_lt (by omega)] at hzero
  omega

theorem toNat_and_mask {cap : UInt32} {k : Nat} (hk : k < 32) (hcap : cap.toNat = 2 ^ k) (a : Nat) :
    (UInt32.ofNat a &&& (cap - 1)).toNat = a % cap.toNat := by
  have hpos := Nat.two_pow_pos k
  have hone : (1 : UInt32) ≤ cap := by
    rw [UInt32.le_iff_toNat_le, hcap]
    exact hpos
  rw [UInt32.toNat_and, UInt32.toNat_sub_of_le _ _ hone, hcap, UInt32.toNat_ofNat']
  show a % 2 ^ 32 &&& (2 ^ k - 1) = _
  rw [and_two_pow_sub_one_eq_mod, mod_mod_of_dvd _ (pow_dvd_pow 2 hk.le)]

/-! ## Windows -/

variable {α : Type}

/-- The cells `buf` show the positions from `a` to `b` of `seq`. -/
def Shows (buf seq : List α) (a b : Nat) : Prop := ∀ j, a ≤ j → j < b → buf[j % buf.length]? = seq[j]?

variable {buf seq : List α} {a b : Nat}

theorem Shows.mono {a' b' : Nat} (h : Shows buf seq a b) (ha : a ≤ a') (hb : b' ≤ b) : Shows buf seq a' b' :=
  fun j hj hj' => h j (le_trans ha hj) (lt_of_lt_of_le hj' hb)

theorem Shows.append (h : Shows buf seq a b) (hb : b ≤ seq.length) (more : List α) : Shows buf (seq ++ more) a b := by
  intro j hj hj'
  rw [h j hj hj', getElem?_append_left (lt_of_lt_of_le hj' hb)]

theorem cell_ne {n j : Nat} (haj : a < j) (hlt : j < a + n) : j % n ≠ a % n := by
  intro heq
  have hdvd := dvd_of_mod_eq_zero (sub_mod_eq_zero_of_mod_eq heq)
  have hle := Nat.le_of_dvd (Nat.sub_pos_of_lt haj) hdvd
  omega

theorem Shows.set {j : Nat} (h : Shows buf seq a b) (hbj : b ≤ j) (hround : j < a + buf.length)
    (x : α) : Shows (buf.set (j % buf.length) x) seq a b := by
  intro i hi hi'
  have hne := cell_ne (lt_of_lt_of_le hi' hbj) (show j < i + buf.length by omega)
  rw [length_set, getElem?_set_ne hne]
  exact h i hi hi'

theorem Shows.push (h : Shows buf seq a b) (hround : b < a + buf.length) {x : α}
    (hx : seq[b]? = some x) : Shows (buf.set (b % buf.length) x) seq a (b + 1) := by
  intro i hi hi'
  rcases lt_or_ge i b with hlt | hge
  · exact h.set le_rfl hround x i hi hlt
  · obtain rfl : i = b := by omega
    have hpos : 0 < buf.length := by omega
    rw [length_set, getElem?_set_self (mod_lt _ hpos), hx]

theorem Shows.take_drop {n : Nat} (h : Shows buf seq a b) (hcell : a % buf.length + n ≤ buf.length)
    (hn : a + n ≤ b) : (buf.drop (a % buf.length)).take n = (seq.drop a).take n := by
  apply ext_getElem?
  intro i
  rw [getElem?_take, getElem?_take]
  split
  · next hlt =>
    have hcell : (a + i) % buf.length = a % buf.length + i := by
      rw [add_mod, mod_eq_of_lt (show i < buf.length by omega), mod_eq_of_lt (by omega)]
    rw [getElem?_drop, getElem?_drop, ← h (a + i) (le_add_right a i) (by omega), hcell]
  · rfl

end DvbIpiTools.RingCounter
