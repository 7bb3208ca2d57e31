import Mathlib.Data.BitVec

set_option autoImplicit false

/-! # Words and the bytes in them -/

namespace DvbIpiTools.WordBytes

/-- Eight bytes side by side, the first one highest. -/
def word8 (b0 b1 b2 b3 b4 b5 b6 b7 : BitVec 8) : BitVec 64 :=
  (b0 ++ b1 ++ b2 ++ b3 ++ b4 ++ b5 ++ b6 ++ b7 : BitVec (8 + 8 + 8 + 8 + 8 + 8 + 8 + 8))

theorem word8_xor (a0 a1 a2 a3 a4 a5 a6 a7 b0 b1 b2 b3 b4 b5 b6 b7 : BitVec 8) :
    word8 (a0 ^^^ b0) (a1 ^^^ b1) (a2 ^^^ b2) (a3 ^^^ b3) (a4 ^^^ b4) (a5 ^^^ b5) (a6 ^^^ b6) (a7 ^^^ b7) =
      word8 a0 a1 a2 a3 a4 a5 a6 a7 ^^^ word8 b0 b1 b2 b3 b4 b5 b6 b7 := by
  simp only [word8, ← BitVec.xor_append]

theorem toNat_append {m n : Nat} (x : BitVec m) (y : BitVec n) : (x ++ y).toNat = x.toNat * 2 ^ n + y.toNat := by
  rw [BitVec.toNat_append, ← Nat.shiftLeft_add_eq_or_of_lt y.isLt, Nat.shiftLeft_eq]

theorem toNat_word8 (b0 b1 b2 b3 b4 b5 b6 b7 : BitVec 8) :
    (word8 b0 b1 b2 b3 b4 b5 b6 b7).toNat = ((((((b0.toNat * 256 + b1.toNat) * 256 + b2.toNat) * 256 + b3.toNat) * 256 +
      b4.toNat) * 256 + b5.toNat) * 256 + b6.toNat) * 256 + b7.toNat := by
  show (b0 ++ b1 ++ b2 ++ b3 ++ b4 ++ b5 ++ b6 ++ b7 : BitVec (8 + 8 + 8 + 8 + 8 + 8 + 8 + 8)).toNat = _
  simp only [toNat_append]
  rfl

/-- The bytes of a word, the highest first. -/
def bytes8 (w : BitVec 64) : List (BitVec 8) := [56, 48, 40, 32, 24, 16, 8, 0].map fun k => w.extractLsb' k 8

theorem bytes8_word8 (b0 b1 b2 b3 b4 b5 b6 b7 : BitVec 8) :
    bytes8 (word8 b0 b1 b2 b3 b4 b5 b6 b7) = [b0, b1, b2, b3, b4, b5, b6, b7] := by
  simp only [bytes8, List.map_cons, List.map_nil, List.cons.injEq, and_true, ← BitVec.toNat_inj,
    BitVec.extractLsb'_toNat, toNat_word8, Nat.shiftRight_eq_div_pow]
  omega

end DvbIpiTools.WordBytes
