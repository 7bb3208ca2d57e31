import Mathlib.Data.Nat.Bitwise
import Mathlib.Data.List.Basic
import Mathlib.Tactic.Ring

set_option autoImplicit false

/-! # Most-significant-first bit lists

The general arithmetic of big-endian bit packing: `ofNat n v` is the low `n` bits of `v`, most
significant first, and `toNat` reads such a list back. The lemmas say how the two invert each other
and how they split at a bit boundary, so that a packed format can be reasoned about as list
concatenation. -/

namespace BitList

open List Nat

/-- The low `n` bits of `v`, most significant first. -/
def ofNat : Nat → Nat → List Bool
  | 0, _ => []
  | n + 1, v => v.testBit n :: ofNat n v

/-- The number a most-significant-first bit list denotes. -/
def toNat : List Bool → Nat
  | [] => 0
  | b :: bs => b.toNat * 2 ^ bs.length + toNat bs

@[simp] theorem ofNat_zero (v : Nat) : ofNat 0 v = [] := rfl

theorem ofNat_succ (n v : Nat) : ofNat (n + 1) v = v.testBit n :: ofNat n v := rfl

@[simp] theorem length_ofNat (n v : Nat) : (ofNat n v).length = n := by
  induction n with
  | zero => rfl
  | succ n ih => rw [ofNat_succ, length_cons, ih]

@[simp] theorem toNat_nil : toNat [] = 0 := rfl

theorem ofNat_congr {n v w : Nat} (h : ∀ i < n, v.testBit i = w.testBit i) : ofNat n v = ofNat n w := by
  induction n with
  | zero => rfl
  | succ n ih => rw [ofNat_succ, ofNat_succ, h n (lt_succ_self n), ih (fun i hi => h i (by omega))]

theorem ofNat_mod (n v : Nat) : ofNat n (v % 2 ^ n) = ofNat n v :=
  ofNat_congr fun i hi => by simp [testBit_mod_two_pow, hi]

theorem ofNat_add (m k v : Nat) : ofNat (m + k) v = ofNat m (v >>> k) ++ ofNat k v := by
  induction m with
  | zero => simp
  | succ m ih =>
    rw [show m + 1 + k = (m + k) + 1 by omega, ofNat_succ, ofNat_succ, ih, testBit_shiftRight,
      add_comm k m, cons_append]

variable (bs : List Bool)

theorem toNat_lt : toNat bs < 2 ^ bs.length := by
  induction bs with
  | nil => simp
  | cons b bs ih =>
    rw [toNat, length_cons, pow_succ]
    cases b <;> simp <;> omega

theorem toNat_append (as bs : List Bool) : toNat (as ++ bs) = toNat as * 2 ^ bs.length + toNat bs := by
  induction as with
  | nil => simp
  | cons a as ih =>
    simp only [cons_append, toNat, ih, length_append, pow_add]
    ring

@[simp] theorem toNat_ofNat (n v : Nat) : toNat (ofNat n v) = v % 2 ^ n := by
  induction n with
  | zero => simp [mod_one]
  | succ n ih =>
    rw [ofNat_succ, toNat, ih, length_ofNat, testBit_eq_decide_div_mod_eq, mod_pow_succ]
    obtain h | h : v / 2 ^ n % 2 = 0 ∨ v / 2 ^ n % 2 = 1 := by omega
    · simp [h]
    · simp [h]; omega

theorem testBit_toNat_cons (b : Bool) (bs : List Bool) : (toNat (b :: bs)).testBit bs.length = b := by
  have hlt := toNat_lt bs
  rw [toNat, testBit_eq_decide_div_mod_eq, add_comm, add_mul_div_right _ _
    (Nat.two_pow_pos _), Nat.div_eq_of_lt hlt]
  cases b <;> simp

@[simp] theorem ofNat_toNat : ofNat bs.length (toNat bs) = bs := by
  induction bs with
  | nil => rfl
  | cons b bs ih =>
    rw [length_cons, ofNat_succ, testBit_toNat_cons, ← ofNat_mod]
    have hmod : toNat (b :: bs) % 2 ^ bs.length = toNat bs := by
      rw [toNat, mul_add_mod_self_right, mod_eq_of_lt (toNat_lt bs)]
    rw [hmod, ih]

theorem ofNat_eq_replicate (n : Nat) : ofNat n 0 = replicate n false := by
  induction n with
  | zero => rfl
  | succ n ih => rw [ofNat_succ, ih, zero_testBit, replicate_succ]

theorem take_ofNat (m k v : Nat) : (ofNat (m + k) v).take m = ofNat m (v >>> k) := by
  rw [ofNat_add, take_append_of_le_length (by simp), take_of_length_le (by simp)]

theorem drop_ofNat (m k v : Nat) : (ofNat (m + k) v).drop m = ofNat k v := by
  rw [ofNat_add, drop_append_of_le_length (by simp), drop_of_length_le (by simp), nil_append]

theorem shiftLeft_or {v w n : Nat} (h : w < 2 ^ n) : v <<< n ||| w = v * 2 ^ n + w := by
  rw [shiftLeft_eq, mul_comm, two_pow_add_eq_or_of_lt h]

/-! ## Bytes -/

/-- The bits of a byte string, most significant bit of the first byte first. -/
def ofBytes (data : List UInt8) : List Bool := data.flatMap fun b => ofNat 8 b.toNat

@[simp] theorem ofBytes_nil : ofBytes [] = [] := rfl

@[simp] theorem ofBytes_cons (b : UInt8) (data : List UInt8) :
    ofBytes (b :: data) = ofNat 8 b.toNat ++ ofBytes data := rfl

@[simp] theorem ofBytes_append (as bs : List UInt8) : ofBytes (as ++ bs) = ofBytes as ++ ofBytes bs := by
  simp [ofBytes]

@[simp] theorem length_ofBytes (data : List UInt8) : (ofBytes data).length = 8 * data.length := by
  induction data with
  | nil => rfl
  | cons b data ih => simp [ih]; omega

theorem ofNat_toNat_byte (v : Nat) : ofNat 8 (UInt8.ofNat v).toNat = ofNat 8 v := by
  rw [UInt8.toNat_ofNat', ofNat_mod]

theorem byte_eq_of_ofNat (b : UInt8) : UInt8.ofNat (toNat (ofNat 8 b.toNat)) = b := by
  rw [toNat_ofNat, mod_eq_of_lt (by simpa using b.toNat_lt), UInt8.ofNat_toNat]

theorem drop_ofBytes (data : List UInt8) (k : Nat) : (ofBytes data).drop (8 * k) = ofBytes (data.drop k) := by
  induction k generalizing data with
  | zero => simp
  | succ k ih =>
    cases data with
    | nil => simp
    | cons b data =>
      rw [ofBytes_cons, drop_succ_cons, ← ih, show 8 * (k + 1) = 8 + 8 * k by omega, ← drop_drop, drop_left' (by simp)]

theorem ofBytes_injective : Function.Injective ofBytes := by
  intro as
  induction as with
  | nil =>
    intro bs h
    have hlen := congrArg length h
    simp only [ofBytes_nil, length_nil, length_ofBytes] at hlen
    exact (length_eq_zero_iff.1 (by omega)).symm
  | cons a as ih =>
    intro bs h
    cases bs with
    | nil => have hlen := congrArg length h; simp at hlen
    | cons b bs =>
      rw [ofBytes_cons, ofBytes_cons] at h
      obtain ⟨h8, hrest⟩ := append_inj h (by simp)
      have hab : a = b := by rw [← byte_eq_of_ofNat a, ← byte_eq_of_ofNat b, h8]
      rw [hab, ih hrest]

/-! ## Packing a bit list into bytes -/

/-- The byte that holds up to eight bits, filled from the top. -/
def packByte (c : List Bool) : UInt8 := UInt8.ofNat (toNat c <<< (8 - c.length))

/-- The bytes a bit list is packed to: the last byte is filled up with zeros. -/
def packBytes (bs : List Bool) : List UInt8 :=
  if _h : bs = [] then []
  else packByte (bs.take 8) :: packBytes (bs.drop 8)
termination_by bs.length
decreasing_by
  have := length_pos_iff.2 _h
  rw [length_drop]
  omega

/-- The zero bits that fill up the last byte. -/
def padTo8 (n : Nat) : List Bool := replicate ((8 - n % 8) % 8) false

theorem ofNat_packByte {c : List Bool} (h : c.length ≤ 8) :
    ofNat 8 (packByte c).toNat = c ++ replicate (8 - c.length) false := by
  have hmod : (toNat c <<< (8 - c.length)) % 2 ^ (8 - c.length) = 0 := by
    rw [shiftLeft_eq, mul_mod_left]
  have hlow : ofNat (8 - c.length) (toNat c <<< (8 - c.length))
      = replicate (8 - c.length) false := by
    rw [← ofNat_mod, hmod, ofNat_eq_replicate]
  rw [packByte, ofNat_toNat_byte]
  conv_lhs => rw [show 8 = c.length + (8 - c.length) by omega, Nat.add_sub_cancel_left]
  rw [ofNat_add, shiftLeft_shiftRight, ofNat_toNat, hlow]

theorem packBytes_nil : packBytes [] = [] := by rw [packBytes]; rfl

theorem packBytes_of_ne_nil {bs : List Bool} (h : bs ≠ []) :
    packBytes bs = packByte (bs.take 8) :: packBytes (bs.drop 8) := by
  rw [packBytes, dif_neg h]

theorem ofBytes_packBytes : ofBytes (packBytes bs) = bs ++ padTo8 bs.length := by
  induction hn : bs.length using Nat.strongRecOn generalizing bs with
  | ind n ih =>
    subst hn
    by_cases hnil : bs = []
    · subst hnil
      rw [packBytes_nil]
      rfl
    have hpos := length_pos_iff.2 hnil
    rw [packBytes_of_ne_nil hnil, ofBytes_cons, ofNat_packByte (by rw [length_take]; omega)]
    by_cases h8 : bs.length < 8
    · rw [drop_of_length_le (by omega), packBytes_nil, take_of_length_le (by omega), ofBytes_nil, append_nil, padTo8]
      congr 2; omega
    · rw [ih (bs.drop 8).length (by rw [length_drop]; omega) _ rfl, ← append_assoc,
        length_take, show 8 - min 8 bs.length = 0 by omega, replicate_zero,
        append_nil, take_append_drop, padTo8, padTo8, length_drop]
      congr 2; omega

theorem length_packBytes : (packBytes bs).length = (bs.length + 7) / 8 := by
  have h := congrArg length (ofBytes_packBytes bs)
  rw [length_ofBytes, length_append, padTo8, length_replicate] at h
  omega

end BitList
