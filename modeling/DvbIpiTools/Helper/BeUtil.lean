import Mathlib.Data.List.GetD
import Mathlib.Tactic.Ring
import Mathlib.Tactic.NormNum

set_option autoImplicit false

/-! # Big endian fields (`beutil.h`)

A buffer is the list of its bytes. A read past the end gives 0; the callers check lengths first. -/

namespace DvbIpiTools.BeUtil

open List Nat UInt8

/-- `p[i]`. -/
def byteAt (p : List UInt8) (i : Nat) : Nat := (p.getD i 0).toNat

/-- `be16_put`, `be24_put`, `be32_put`: the low `n` bytes of `v`, the highest first. -/
def bePut : Nat → Nat → List UInt8
  | 0, _ => []
  | n + 1, v => UInt8.ofNat (v >>> (8 * n)) :: bePut n v

/-- `be16_get`, `be24_get`, `be32_get` at `off`. -/
def beGet (p : List UInt8) (off : Nat) : Nat → Nat
  | 0 => 0
  | n + 1 => beGet p off n * 256 + byteAt p (off + n)

variable (p : List UInt8)

theorem byteAt_lt (i : Nat) : byteAt p i < 256 := (p.getD i 0).toNat_lt

theorem beGet_lt (off n : Nat) : beGet p off n < 256 ^ n := by
  induction n with
  | zero => exact one_pos
  | succ n ih =>
    have hb := byteAt_lt p (off + n)
    rw [beGet, pow_succ]
    omega

@[simp] theorem length_bePut (n v : Nat) : (bePut n v).length = n := by
  induction n with
  | zero => rfl
  | succ n ih => rw [bePut, length_cons, ih]

variable {i : Nat}

theorem byteAt_set {l : List UInt8} (hi : i < l.length) (n : Nat) : byteAt (l.set i (.ofNat n)) i = n % 256 := by
  rw [byteAt, getD_eq_getElem?_getD, getElem?_set_self hi]
  exact toNat_ofNat'

theorem byteAt_set_ne {l : List UInt8} {j : Nat} (h : i ≠ j) (x : UInt8) : byteAt (l.set i x) j = byteAt l j := by
  rw [byteAt, byteAt, getD_eq_getElem?_getD, getElem?_set_ne h, getD_eq_getElem?_getD]

theorem byteAt_append_left {a b : List UInt8} (h : i < a.length) : byteAt (a ++ b) i = byteAt a i := by
  rw [byteAt, byteAt, getD_append a b 0 i h]

theorem byteAt_append_right (a b : List UInt8) (i : Nat) : byteAt (a ++ b) (a.length + i) = byteAt b i := by
  rw [byteAt, byteAt, getD_append_right a b 0 _ (Nat.le_add_right _ _), Nat.add_sub_cancel_left]

theorem beGet_append_left {a b : List UInt8} {off n : Nat} (h : off + n ≤ a.length) :
    beGet (a ++ b) off n = beGet a off n := by
  induction n with
  | zero => rfl
  | succ n ih => rw [beGet, beGet, ih (by omega), byteAt_append_left (by omega)]

theorem beGet_append_right (a b : List UInt8) (off n : Nat) : beGet (a ++ b) (a.length + off) n = beGet b off n := by
  induction n with
  | zero => rfl
  | succ n ih => rw [beGet, beGet, ih, add_assoc, byteAt_append_right]

theorem beGet_cons (c : UInt8) (p : List UInt8) (n : Nat) :
    beGet (c :: p) 0 (n + 1) = c.toNat * 256 ^ n + beGet p 0 n := by
  induction n with
  | zero => simp [beGet, byteAt]
  | succ n ih =>
    have hb : byteAt (c :: p) (0 + (n + 1)) = byteAt p (0 + n) := by
      simp only [byteAt, zero_add, getD_cons_succ]
    rw [beGet, ih, hb, beGet, pow_succ]
    ring

theorem beGet_bePut (n v : Nat) (t : List UInt8) : beGet (bePut n v ++ t) 0 n = v % 256 ^ n := by
  induction n with
  | zero => rw [pow_zero, mod_one]; rfl
  | succ n ih =>
    have hc : (UInt8.ofNat (v >>> (8 * n))).toNat = v / 256 ^ n % 256 := by
      rw [toNat_ofNat', shiftRight_eq_div_pow, pow_mul]
      norm_num
    rw [bePut, cons_append, beGet_cons, ih, hc, pow_succ, mod_mul]
    ring

theorem beGet_field (a rest : List UInt8) (n v : Nat) : beGet (a ++ (bePut n v ++ rest)) a.length n = v % 256 ^ n := by
  have h := beGet_append_right a (bePut n v ++ rest) 0 n
  rw [add_zero] at h
  rw [h, beGet_bePut]

theorem beGet_end (a : List UInt8) (n v : Nat) :
    beGet (a ++ bePut n v) ((a ++ bePut n v).length - n) n = v % 256 ^ n := by
  have hpos : (a ++ bePut n v).length - n = a.length + 0 := by
    rw [length_append, length_bePut, Nat.add_sub_cancel, add_zero]
  have hput := beGet_bePut n v []
  rw [append_nil] at hput
  rw [hpos, beGet_append_right, hput]

theorem beGet_drop (off n : Nat) : beGet (p.drop off) 0 n = beGet p off n := by
  induction n with
  | zero => rfl
  | succ n ih =>
    have hb : byteAt (p.drop off) (0 + n) = byteAt p (off + n) := by simp [byteAt, getD_eq_getElem?_getD]
    rw [beGet, beGet, ih, hb]

theorem bePut_add (n c v : Nat) : bePut n (c * 256 ^ n + v) = bePut n v := by
  induction n generalizing c with
  | zero => rfl
  | succ n ih =>
    have hhead : UInt8.ofNat ((c * 256 ^ (n + 1) + v) >>> (8 * n)) = UInt8.ofNat (v >>> (8 * n)) := by
      have hsum : c * 256 ^ (n + 1) + v = v + 256 ^ n * (c * 256) := by ring
      apply UInt8.toNat.inj
      rw [toNat_ofNat', toNat_ofNat', shiftRight_eq_div_pow, shiftRight_eq_div_pow, pow_mul, hsum]
      norm_num
      rw [add_mul_div_left _ _ (by positivity), add_mul_mod_self_right]
    have htail : c * 256 ^ (n + 1) + v = c * 256 * 256 ^ n + v := by ring
    rw [bePut, bePut, hhead, htail, ih]

theorem bePut_beGet {p : List UInt8} {off n : Nat} (h : off + n ≤ p.length) :
    bePut n (beGet p off n) = (p.drop off).take n := by
  have hwhole : ∀ t : List UInt8, bePut t.length (beGet t 0 t.length) = t := by
    intro t
    induction t with
    | nil => rfl
    | cons c t ih =>
      have hlt := beGet_lt t 0 t.length
      have hhead : UInt8.ofNat ((c.toNat * 256 ^ t.length + beGet t 0 t.length) >>> (8 * t.length)) = c := by
        rw [shiftRight_eq_div_pow, pow_mul, show (2 ^ 8 : Nat) = 256 from rfl, mul_comm c.toNat,
          mul_add_div (by positivity), div_eq_of_lt hlt, add_zero, UInt8.ofNat_toNat]
      rw [length_cons, beGet_cons, bePut, hhead, bePut_add, ih]
  have hlen : ((p.drop off).take n).length = n := by
    rw [length_take, length_drop]
    omega
  have htake : beGet ((p.drop off).take n) 0 n = beGet p off n := by
    rw [← beGet_drop p off n]
    conv_rhs => rw [← take_append_drop n (p.drop off)]
    rw [beGet_append_left (by rw [hlen, zero_add])]
  have hput := hwhole ((p.drop off).take n)
  rwa [hlen, htake] at hput

end DvbIpiTools.BeUtil
