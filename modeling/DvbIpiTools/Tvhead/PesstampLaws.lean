import DvbIpiTools.Tvhead.Pesstamp
import Mathlib.Data.Int.ModEq
import Mathlib.Tactic.IntervalCases

set_option autoImplicit false

/-! # Moving the stamps of a packet

The bytes of a stamp are a field of the packet: a number in the bits between the marker bits. The stamps of one header
share no bit, and none of them touches the bytes that say where they are, so that moving them is an action of the deltas
modulo 2^33. -/

namespace DvbIpiTools.Tvhead.Pesstamp

open MaskedField Option Nat

variable {i : Nat}

theorem rd_of_lt (pkt : Packet) (hi : i < 188) : rd pkt i = some pkt[i] := Vector.getElem?_eq_getElem hi

theorem wr_of_lt (pkt : Packet) (hi : i < 188) (b : UInt8) : wr pkt i b = some (pkt.set i b hi) := dif_pos hi

/-! ## The fields -/

variable {v k : Nat}

theorem testBit_of_le (hv : v < 2 ^ k) {j : Nat} (hj : k ≤ j) : v.testBit j = false :=
  Nat.testBit_lt_two_pow (hv.trans_le (Nat.pow_le_pow_right (by decide) hj))

theorem testBit_byte (b : UInt8) (j : Nat) : b.toNat.testBit j = b.toBitVec.getLsbD j := BitVec.testBit_toNat _

theorem getLsbD_ofNat (n : Nat) {j : Nat} (hj : j < 8) : (UInt8.ofNat n).toBitVec.getLsbD j = n.testBit j := by
  rw [UInt8.toBitVec_ofNat', BitVec.getLsbD_ofNat, decide_eq_true hj, Bool.true_and]

variable {b : UInt8}

theorem byte_ext_lt {a : UInt8} (h : ∀ k < 8, a.toBitVec.getLsbD k = b.toBitVec.getLsbD k) : a = b :=
  UInt8.toBitVec_inj.1 (BitVec.eq_of_getLsbD_eq h)

variable {m n : Nat}

theorem shiftLeft_lt (hv : v < 2 ^ m) (h : m + k ≤ n) : v <<< k < 2 ^ n := by
  rw [shiftLeft_eq]
  calc v * 2 ^ k < 2 ^ m * 2 ^ k := Nat.mul_lt_mul_of_pos_right hv (Nat.two_pow_pos k)
    _ = 2 ^ (m + k) := (pow_add 2 m k).symm
    _ ≤ 2 ^ n := Nat.pow_le_pow_right (by decide) h

theorem and_lt (h : m < 2 ^ n) : v &&& m < 2 ^ n := lt_of_le_of_lt and_le_right h

theorem shiftRight_lt (hv : v < 2 ^ n) : v >>> k < 2 ^ n := by
  rw [shiftRight_eq_div_pow]
  exact lt_of_le_of_lt (div_le_self _ _) hv

/-- The bits of a PTS or DTS in its five bytes. -/
def tsMask : Nat → UInt8
  | 0 => 0x0E
  | 1 => 0xFF
  | 2 => 0xFE
  | 3 => 0xFF
  | 4 => 0xFE
  | _ => 0

def tsValue (x : Nat → UInt8) : Nat :=
  ((x 0).toNat <<< 29) ||| ((x 1).toNat <<< 22) ||| ((x 2).toNat <<< 14) ||| ((x 3).toNat <<< 7) |||
    ((x 4).toNat >>> 1)

def tsEnc (v : Nat) : Nat → UInt8
  | 0 => UInt8.ofNat (v >>> 29)
  | 1 => UInt8.ofNat (v >>> 22)
  | 2 => UInt8.ofNat (v >>> 14)
  | 3 => UInt8.ofNat (v >>> 7)
  | _ => UInt8.ofNat (v <<< 1)

theorem tsValue_enc (v : Nat) (hv : v < ptsModulus) : tsValue (fun i => tsEnc v i &&& tsMask i) = v := by
  simp only [tsValue, tsEnc, tsMask, UInt8.toNat_and, UInt8.toNat_ofNat', UInt8.reduceToNat]
  refine eq_of_testBit_eq fun i => ?_
  simp only [testBit_or, testBit_shiftLeft, testBit_shiftRight, testBit_and, testBit_mod_two_pow]
  by_cases hi : i < 33
  · interval_cases i <;> simp <;> exact fun _ => rfl
  · -- no bit of a number below 2^33
    have hbit : ∀ j, 33 ≤ j → v.testBit j = false := fun j hj => testBit_of_le hv hj
    simp (disch := omega) [hbit]

variable (x : Nat → UInt8)

theorem tsValue_lt : tsValue (fun i => x i &&& tsMask i) < ptsModulus := by
  have h0 : (x 0 &&& 0x0E).toNat < 2 ^ 4 := by
    rw [UInt8.toNat_and]
    exact and_lt (by decide)
  have hbyte : ∀ b : UInt8, b.toNat < 2 ^ 8 := fun b => b.toNat_lt
  refine or_lt_two_pow (or_lt_two_pow (or_lt_two_pow (or_lt_two_pow ?_ ?_) ?_) ?_) ?_
  · exact shiftLeft_lt h0 (by decide)
  · exact shiftLeft_lt (hbyte _) (by decide)
  · exact shiftLeft_lt (hbyte _) (by decide)
  · exact shiftLeft_lt (hbyte _) (by decide)
  · exact (shiftRight_lt (hbyte _)).trans (by decide)

theorem tsEnc_value (i : Nat) : tsEnc (tsValue fun i => x i &&& tsMask i) i &&& tsMask i = x i &&& tsMask i := by
  match i with
  | 0 | 1 | 2 | 3 | 4 =>
    refine byte_ext_lt fun k hk => ?_
    simp only [tsEnc, tsValue, tsMask, UInt8.toBitVec_and, BitVec.getLsbD_and]
    rw [getLsbD_ofNat _ hk]
    simp only [testBit_or, testBit_shiftLeft, testBit_shiftRight, testBit_byte, UInt8.toBitVec_and,
      BitVec.getLsbD_and]
    interval_cases k <;> simp
  | i + 5 => exact (UInt8.and_zero).trans UInt8.and_zero.symm

def tsField : Field ptsModulus where
  mask := tsMask
  value := tsValue
  enc := tsEnc
  value_enc := tsValue_enc

theorem tsField_narrow : tsField.Narrow 5 := by
  intro i hi
  match i, hi with
  | i + 5, _ => rfl

theorem and_FF (b : UInt8) : b &&& 0xFF = b :=
  UInt8.toNat_inj.1 ((UInt8.toNat_and _ _).trans (and_two_pow_sub_one_of_lt_two_pow (n := 8) b.toNat_lt))

theorem and_shiftRight (b : UInt8) {m : UInt8} (hm : m.toNat >>> k = 0xFF >>> k) :
    (b &&& m).toNat >>> k = b.toNat >>> k := by
  rw [UInt8.toNat_and, shiftRight_and_distrib, hm, ← shiftRight_and_distrib,
    and_two_pow_sub_one_of_lt_two_pow (n := 8) b.toNat_lt]

/-- A byte as the source writes it: some bits of it kept, the others from a number. -/
theorem ofNat_merge {k m : UInt8} (hk : k = ~~~ m) (x : Nat) :
    UInt8.ofNat ((b.toNat &&& k.toNat) ||| (x &&& m.toNat)) = (b &&& ~~~ m) ||| (UInt8.ofNat x &&& m) := by
  rw [UInt8.ofNat_or, UInt8.ofNat_and, UInt8.ofNat_and, UInt8.ofNat_toNat, UInt8.ofNat_toNat, UInt8.ofNat_toNat, hk]

theorem merge_FF (b x : UInt8) : (b &&& ~~~ 0xFF) ||| (x &&& 0xFF) = x := by
  rw [and_FF, show (~~~ 0xFF : UInt8) = 0 from rfl, UInt8.and_zero, UInt8.zero_or]

theorem getD_of_lt (pkt : Packet) (hi : i < 188) : pkt[i]?.getD 0 = pkt[i] := by
  rw [Vector.getElem?_eq_getElem hi, getD_some]

variable {p : Nat}

theorem readTs_eq (pkt : Packet) (hp : p + 5 ≤ 188) : readTs pkt p = some ((tsField.at' p).read pkt) := by
  rw [Field.read_at']
  show _ = some ((pkt[p]?.getD 0 &&& 0x0E).toNat <<< 29 ||| (pkt[p + 1]?.getD 0 &&& 0xFF).toNat <<< 22 |||
    (pkt[p + 2]?.getD 0 &&& 0xFE).toNat <<< 14 ||| (pkt[p + 3]?.getD 0 &&& 0xFF).toNat <<< 7 |||
    (pkt[p + 4]?.getD 0 &&& 0xFE).toNat >>> 1)
  simp (disch := omega) only [readTs, rd_of_lt, getD_of_lt]
  rw [and_FF, and_FF, and_shiftRight (m := 0xFE) _ rfl, UInt8.toNat_and, UInt8.toNat_and]
  rfl

theorem writeTs_eq (pkt : Packet) (hp : p + 5 ≤ 188) (v : Nat) :
    writeTs pkt p v = some ((tsField.at' p).write v pkt) := by
  simp (disch := omega) only [writeTs, rd_of_lt, wr_of_lt, bind_eq_bind, bind_some]
  refine congrArg some (Vector.ext fun i hi => ?_)
  rw [Field.getElem_write_at' p v pkt hi]
  by_cases hlo : p ≤ i
  · obtain ⟨k, rfl⟩ := Nat.exists_eq_add_of_le hlo
    rw [if_pos hlo, Nat.add_sub_cancel_left]
    obtain rfl | rfl | rfl | rfl | rfl | hk : k = 0 ∨ k = 1 ∨ k = 2 ∨ k = 3 ∨ k = 4 ∨ 5 ≤ k := by omega
    all_goals simp (disch := omega) only [add_zero, Vector.getElem_set_self, Vector.getElem_set_ne]
    · exact ofNat_merge (k := 0xF1) (m := 0x0E) rfl _
    · exact (merge_FF _ _).symm
    · exact ofNat_merge (k := 0x01) (m := 0xFE) rfl _
    · exact (merge_FF _ _).symm
    · exact ofNat_merge (k := 0x01) (m := 0xFE) rfl _
    · rw [tsField_narrow k hk]
      simp
  · rw [if_neg hlo]
    simp (disch := omega) only [Vector.getElem_set_ne]

/-! ## The ESCR -/

/-- The bits of an ESCR in its six bytes. -/
def escrMask : Nat → UInt8
  | 0 => 0x3B
  | 1 => 0xFF
  | 2 => 0xFB
  | 3 => 0xFF
  | 4 => 0xFB
  | 5 => 0xFE
  | _ => 0

def escrBase (x : Nat → UInt8) : Nat :=
  (((x 0).toNat &&& 0x38) <<< 27) ||| (((x 0).toNat &&& 0x03) <<< 28) ||| ((x 1).toNat <<< 20) |||
    (((x 2).toNat &&& 0xF8) <<< 12) ||| (((x 2).toNat &&& 0x03) <<< 13) ||| ((x 3).toNat <<< 5) ||| ((x 4).toNat >>> 3)

def escrExt (x : Nat → UInt8) : Nat := (((x 4).toNat &&& 0x03) <<< 7) ||| ((x 5).toNat >>> 1)

def escrValue (x : Nat → UInt8) : Nat := escrBase x * 300 + escrExt x

def escrEnc (v : Nat) : Nat → UInt8
  | 0 => UInt8.ofNat (((v / 300) >>> 27) &&& 0x38 ||| ((v / 300) >>> 28) &&& 0x03)
  | 1 => UInt8.ofNat ((v / 300) >>> 20)
  | 2 => UInt8.ofNat (((v / 300) >>> 12) &&& 0xF8 ||| ((v / 300) >>> 13) &&& 0x03)
  | 3 => UInt8.ofNat ((v / 300) >>> 5)
  | 4 => UInt8.ofNat (((v / 300) <<< 3) &&& 0xF8 ||| ((v % 300) >>> 7) &&& 0x03)
  | _ => UInt8.ofNat ((v % 300) <<< 1)

theorem escrBase_enc (v : Nat) (hv : v < escrModulus) : escrBase (fun i => escrEnc v i &&& escrMask i) = v / 300 := by
  have hbase : v / 300 < 2 ^ 33 := Nat.div_lt_of_lt_mul (by rw [mul_comm]; exact hv)
  simp only [escrBase, escrEnc, escrMask, UInt8.toNat_and, UInt8.toNat_ofNat', UInt8.reduceToNat]
  generalize v / 300 = base at hbase ⊢
  refine eq_of_testBit_eq fun i => ?_
  simp only [testBit_or, testBit_shiftLeft, testBit_shiftRight, testBit_and, testBit_mod_two_pow]
  have hbit : ∀ j, 33 ≤ j → base.testBit j = false := fun j hj => testBit_of_le hbase hj
  -- bit 32 of the base is next to the marker bit of the first byte
  by_cases hi : i < 34
  · interval_cases i <;> simp [hbit] <;> simp [Nat.testBit]
  · simp (disch := omega) [hbit]
    omega

theorem escrExt_enc (v : Nat) : escrExt (fun i => escrEnc v i &&& escrMask i) = v % 300 := by
  have hext : v % 300 < 2 ^ 9 := (mod_lt _ (by decide)).trans (by decide)
  simp only [escrExt, escrEnc, escrMask, UInt8.toNat_and, UInt8.toNat_ofNat', UInt8.reduceToNat]
  generalize v % 300 = ext at hext ⊢
  refine eq_of_testBit_eq fun i => ?_
  simp only [testBit_or, testBit_shiftLeft, testBit_shiftRight, testBit_and, testBit_mod_two_pow]
  by_cases hi : i < 9
  · interval_cases i <;> simp <;> simp [Nat.testBit]
  · have hbit : ∀ j, 9 ≤ j → ext.testBit j = false := fun j hj => testBit_of_le hext hj
    simp (disch := omega) [hbit]
    intro _ _ hlow _ _ _
    exact testBit_of_le (k := 2) (by decide) (le_trans (by decide) hlow)

def escrField : Field escrModulus where
  mask := escrMask
  value := escrValue
  enc := escrEnc
  value_enc v hv := by
    rw [escrValue, escrBase_enc v hv, escrExt_enc, mul_comm]
    exact div_add_mod v 300

theorem escrField_narrow : escrField.Narrow 6 := by
  intro i hi
  match i, hi with
  | i + 6, _ => rfl

theorem escrValue_mask : escrValue (fun i => x i &&& escrMask i) = escrValue x := by
  have hbase : escrBase (fun i => x i &&& escrMask i) = escrBase x := by
    simp only [escrBase, escrMask, and_FF, and_shiftRight (m := 0xFB) (k := 3) _ rfl]
    simp only [UInt8.toNat_and, UInt8.reduceToNat, Nat.and_assoc, Nat.reduceAnd]
  have hext : escrExt (fun i => x i &&& escrMask i) = escrExt x := by
    simp only [escrExt, escrMask, and_shiftRight (m := 0xFE) (k := 1) _ rfl]
    simp only [UInt8.toNat_and, UInt8.reduceToNat, Nat.and_assoc, Nat.reduceAnd]
  rw [escrValue, hbase, hext, escrValue]

theorem escrBase_lt : escrBase x < 2 ^ 33 := by
  have hbyte : ∀ b : UInt8, b.toNat < 2 ^ 8 := fun b => b.toNat_lt
  refine or_lt_two_pow (or_lt_two_pow (or_lt_two_pow (or_lt_two_pow (or_lt_two_pow
    (or_lt_two_pow ?_ ?_) ?_) ?_) ?_) ?_) ?_
  · exact shiftLeft_lt (m := 6) (and_lt (by decide)) (by decide)
  · exact shiftLeft_lt (m := 2) (and_lt (by decide)) (by decide)
  · exact shiftLeft_lt (hbyte _) (by decide)
  · exact shiftLeft_lt (m := 8) (and_lt (by decide)) (by decide)
  · exact shiftLeft_lt (m := 2) (and_lt (by decide)) (by decide)
  · exact shiftLeft_lt (hbyte _) (by decide)
  · exact (shiftRight_lt (hbyte _)).trans (by decide)

theorem escrEnc_value (hext : escrExt x < 300) (i : Nat) :
    escrEnc (escrValue fun i => x i &&& escrMask i) i &&& escrMask i = x i &&& escrMask i := by
  have hdiv : escrValue x / 300 = escrBase x := by
    rw [escrValue]
    omega
  have hmod : escrValue x % 300 = escrExt x := by
    rw [escrValue]
    omega
  rw [escrValue_mask]
  match i with
  | 0 | 1 | 2 | 3 | 4 | 5 =>
    refine byte_ext_lt fun k hk => ?_
    simp only [escrEnc, hdiv, hmod, escrBase, escrExt, escrMask, UInt8.toBitVec_and, BitVec.getLsbD_and]
    rw [getLsbD_ofNat _ hk]
    simp only [testBit_or, testBit_and, testBit_shiftLeft, testBit_shiftRight, testBit_byte]
    interval_cases k <;> simp <;> simp [Nat.testBit]
  | i + 6 => exact (UInt8.and_zero).trans UInt8.and_zero.symm

theorem readEscr_eq (pkt : Packet) (hp : p + 6 ≤ 188) : readEscr pkt p = some ((escrField.at' p).read pkt) := by
  rw [Field.read_at', show escrField.value (fun i => pkt[p + i]?.getD 0 &&& escrField.mask i) = _ from
    escrValue_mask fun i => pkt[p + i]?.getD 0]
  simp (disch := omega) only [readEscr, rd_of_lt, escrValue, escrBase, escrExt, add_zero, getD_of_lt]
  rfl

theorem ofNat_merge₂ {k m m1 m2 : UInt8} (hk : k = ~~~ m) (h1 : m1 &&& m = m1) (h2 : m2 &&& m = m2) (x y : Nat) :
    UInt8.ofNat ((b.toNat &&& k.toNat) ||| (x &&& m1.toNat) ||| (y &&& m2.toNat)) =
      (b &&& ~~~ m) ||| (UInt8.ofNat ((x &&& m1.toNat) ||| (y &&& m2.toNat)) &&& m) := by
  have hpart : UInt8.ofNat ((x &&& m1.toNat) ||| (y &&& m2.toNat)) &&& m =
      UInt8.ofNat ((x &&& m1.toNat) ||| (y &&& m2.toNat)) := by
    rw [UInt8.ofNat_or, UInt8.ofNat_and, UInt8.ofNat_and, UInt8.ofNat_toNat, UInt8.ofNat_toNat]
    refine byte_ext fun j => ?_
    have hb1 := congrArg (fun c : UInt8 => c.toBitVec.getLsbD j) h1
    have hb2 := congrArg (fun c : UInt8 => c.toBitVec.getLsbD j) h2
    simp only [UInt8.toBitVec_and, UInt8.toBitVec_or, BitVec.getLsbD_and, BitVec.getLsbD_or] at hb1 hb2 ⊢
    calc _ = ((UInt8.ofNat x).toBitVec.getLsbD j && (m1.toBitVec.getLsbD j && m.toBitVec.getLsbD j) ||
          (UInt8.ofNat y).toBitVec.getLsbD j && (m2.toBitVec.getLsbD j && m.toBitVec.getLsbD j)) := by
          rw [Bool.and_or_distrib_right, Bool.and_assoc, Bool.and_assoc]
      _ = _ := by rw [hb1, hb2]
  rw [hpart, Nat.or_assoc, UInt8.ofNat_or, UInt8.ofNat_and, UInt8.ofNat_toNat, UInt8.ofNat_toNat, hk]

theorem ofNat_double (b : UInt8) (x : Nat) :
    UInt8.ofNat ((x <<< 1) ||| (b.toNat &&& 0x01)) = (b &&& ~~~ (0xFE : UInt8)) ||| (UInt8.ofNat (x <<< 1) &&& (0xFE : UInt8)) := by
  have hpart : UInt8.ofNat (x <<< 1) &&& (0xFE : UInt8) = UInt8.ofNat (x <<< 1) := by
    refine byte_ext fun j => ?_
    by_cases hj : j < 8
    · interval_cases j <;> simp
    · rw [BitVec.getLsbD_of_ge _ _ (by omega), BitVec.getLsbD_of_ge _ _ (by omega)]
  rw [hpart, UInt8.ofNat_or, UInt8.ofNat_and, UInt8.ofNat_toNat, UInt8.or_comm]
  rfl

theorem writeEscr_eq (pkt : Packet) (hp : p + 6 ≤ 188) (v : Nat) :
    writeEscr pkt p v = some ((escrField.at' p).write v pkt) := by
  simp (disch := omega) only [writeEscr, rd_of_lt, wr_of_lt, bind_eq_bind, bind_some]
  refine congrArg some (Vector.ext fun i hi => ?_)
  rw [Field.getElem_write_at' p v pkt hi]
  by_cases hlo : p ≤ i
  · obtain ⟨k, rfl⟩ := Nat.exists_eq_add_of_le hlo
    rw [if_pos hlo, Nat.add_sub_cancel_left]
    obtain rfl | rfl | rfl | rfl | rfl | rfl | hk : k = 0 ∨ k = 1 ∨ k = 2 ∨ k = 3 ∨ k = 4 ∨ k = 5 ∨ 6 ≤ k := by omega
    all_goals simp (disch := omega) only [add_zero, Vector.getElem_set_self, Vector.getElem_set_ne]
    · exact ofNat_merge₂ (k := 0xC4) (m := 0x3B) rfl (by rfl : (0x38 : UInt8) &&& 0x3B = 0x38) (by rfl : (0x03 : UInt8) &&& 0x3B = 0x03) _ _
    · exact (merge_FF _ _).symm
    · exact ofNat_merge₂ (k := 0x04) (m := 0xFB) rfl (by rfl : (0xF8 : UInt8) &&& 0xFB = 0xF8) (by rfl : (0x03 : UInt8) &&& 0xFB = 0x03) _ _
    · exact (merge_FF _ _).symm
    · exact ofNat_merge₂ (k := 0x04) (m := 0xFB) rfl (by rfl : (0xF8 : UInt8) &&& 0xFB = 0xF8) (by rfl : (0x03 : UInt8) &&& 0xFB = 0x03) _ _
    · exact ofNat_double _ _
    · rw [escrField_narrow k hk]
      simp
  · rw [if_neg hlo]
    simp (disch := omega) only [Vector.getElem_set_ne]

/-! ## Where the fields are -/

/-- The places lie behind the header, in the packet, one behind the other. -/
structure Fields.Placed (f : Fields) (lo : Nat) : Prop where
  pts : ∀ p ∈ f.pts, lo ≤ p ∧ p + 5 ≤ 188
  dts : ∀ q ∈ f.dts, lo ≤ q ∧ q + 5 ≤ 188 ∧ ∀ p ∈ f.pts, p + 5 ≤ q
  escr : ∀ r ∈ f.escr, lo ≤ r ∧ r + 6 ≤ 188 ∧ (∀ p ∈ f.pts, p + 5 ≤ r) ∧ ∀ q ∈ f.dts, q + 5 ≤ r

theorem fieldsAt_placed (p : Nat) (ptsDts : UInt8) (escrFlag : Bool) (hfit : p + (fieldsAt p ptsDts escrFlag).2 ≤ 188) :
    (fieldsAt p ptsDts escrFlag).1.Placed p := by
  simp only [fieldsAt, beq_iff_eq] at hfit ⊢
  by_cases h3 : ptsDts = 3
  · have h2 : (2 : UInt8) ≤ 3 := by decide
    cases escrFlag <;> simp only [h3, h2, if_true, Bool.false_eq_true, if_false] at hfit ⊢ <;>
      constructor <;> simp <;> omega
  · by_cases h2 : 2 ≤ ptsDts <;>
      cases escrFlag <;> simp only [h3, h2, if_true, Bool.false_eq_true, if_false] at hfit ⊢ <;>
        constructor <;> simp <;> omega

variable {pkt pkt' : Packet}

theorem locateAt_congr {start : Nat} (h : ∀ i, i < start + 9 → rd pkt' i = rd pkt i) :
    locateAt pkt' start = locateAt pkt start := by
  simp only [locateAt, h start (by omega), h (start + 1) (by omega), h (start + 2) (by omega),
    h (start + 3) (by omega), h (start + 6) (by omega), h (start + 7) (by omega), h (start + 8) (by omega)]

theorem locateAt_spec (pkt : Packet) (start : Nat) :
    ∃ l, locateAt pkt start = some l ∧ ∀ f, l = .found f → f.Placed (start + 9) := by
  unfold locateAt
  by_cases h4 : start + 4 > tsPayloadEnd
  · exact ⟨.none, if_pos h4, by simp⟩
  unfold tsPayloadEnd at h4
  rw [if_neg (by exact h4), rd_of_lt pkt (by omega : start < 188), rd_of_lt pkt (by omega : start + 1 < 188),
    rd_of_lt pkt (by omega : start + 2 < 188), rd_of_lt pkt (by omega : start + 3 < 188)]
  simp only [bind_eq_bind, bind_some]
  split
  · exact ⟨.none, rfl, by simp⟩
  by_cases h9 : start + pesFixedHeader > tsPayloadEnd
  · exact ⟨.split, if_pos h9, by simp⟩
  unfold pesFixedHeader tsPayloadEnd at h9
  rw [if_neg (by exact h9)]
  simp (disch := omega) only [rd_of_lt, bind_some]
  generalize hf : fieldsAt _ _ _ = fu
  obtain ⟨f, used⟩ := fu
  repeat' split
  all_goals
    refine ⟨_, rfl, fun f' hf' => ?_⟩
    cases hf'
  -- only where all of the fields are inside of the packet are they found
  rename_i hend
  have hplaced := fieldsAt_placed (start + pesFixedHeader) (pkt[start + 7] >>> 6 &&& 3)
    (decide (pkt[start + 7] &&& 32 ≠ 0))
  rw [hf] at hplaced
  exact hplaced (not_lt.1 hend)

/-- Where the PES header begins. -/
def headerStart (pkt : Packet) : Nat := if (pkt[3] >>> 4) &&& 0x3 = 0x3 then 4 + (1 + pkt[4].toNat) else 4

theorem locate_eq (pkt : Packet) : locate pkt =
      if ((pkt[3] >>> 4) &&& 0x3) &&& 0x1 = 0 ∨ pkt[1] &&& 0x40 = 0 then some .none
      else if pkt[3] >>> 6 ≠ 0 then some .scrambled
      else locateAt pkt (headerStart pkt) := by
  unfold locate headerStart
  simp (disch := decide) only [rd_of_lt, bind_eq_bind, bind_some]
  split
  · rfl
  split
  · rfl
  split <;> rfl

/-- A header that is located: of a packet in the clear that starts a PES packet, with a PTS, and with the stamps its
flags name in the header and in the packet. -/
structure Header (pkt : Packet) (start : Nat) (flags : UInt8) (f : Fields) : Prop where
  unit : pkt[1] &&& 0x40 ≠ 0
  payload : ((pkt[3] >>> 4) &&& 0x3) &&& 0x1 ≠ 0
  clear : pkt[3] >>> 6 = 0
  startCode : rd pkt start = some 0 ∧ rd pkt (start + 1) = some 0 ∧ rd pkt (start + 2) = some 1
  streamId : ∃ id, rd pkt (start + 3) = some id ∧ streamHasHeader id = true
  marker : ∃ b, rd pkt (start + 6) = some b ∧ b &&& 0xC0 = 0x80
  flags_eq : rd pkt (start + 7) = some flags
  pts : (2 : UInt8) ≤ (flags >>> 6) &&& 0x3
  fields : ∃ n used, rd pkt (start + 8) = some n ∧ used ≤ n.toNat ∧ start + pesFixedHeader + used ≤ tsPayloadEnd ∧
    fieldsAt (start + pesFixedHeader) ((flags >>> 6) &&& 0x3) (flags &&& 0x20 ≠ 0) = (f, used)

theorem locate_header {flags : UInt8} {f : Fields} (h : Header pkt (headerStart pkt) flags f) :
    locate pkt = some (.found f) := by
  obtain ⟨h0, h1, h2⟩ := h.startCode
  obtain ⟨id, hid, hhas⟩ := h.streamId
  obtain ⟨b, hb, hmark⟩ := h.marker
  obtain ⟨n, used, hn, hroom, hfits, hfields⟩ := h.fields
  have hpts := h.pts
  have hone : (flags >>> 6) &&& 0x3 ≠ 1 := fun he => absurd (he ▸ hpts) (by decide)
  have hzero : (flags >>> 6) &&& 0x3 ≠ 0 := fun he => absurd (he ▸ hpts) (by decide)
  have hnine : pesFixedHeader = 9 := rfl
  rw [locate_eq, if_neg (not_or.2 ⟨h.payload, h.unit⟩), if_neg (not_not.2 h.clear), locateAt, if_neg (by omega)]
  simp only [h0, h1, h2, hid, hb, hn, h.flags_eq, bind_eq_bind, bind_some, hhas, hmark, hone, hzero, hfields]
  rw [if_neg (by simp), if_neg (by omega), if_neg (by simp), if_neg not_false, if_neg (by simp), if_neg (by omega),
    if_neg (by omega)]
  rfl

theorem locate_spec (pkt : Packet) : ∃ l, locate pkt = some l ∧ ∀ f, l = .found f → f.Placed (headerStart pkt + 9) := by
  rw [locate_eq]
  split
  · exact ⟨.none, rfl, fun f hf => by cases hf⟩
  split
  · exact ⟨.scrambled, rfl, fun f hf => by cases hf⟩
  · exact locateAt_spec pkt (headerStart pkt)

theorem four_le_headerStart (pkt : Packet) : 4 ≤ headerStart pkt := by
  unfold headerStart
  split <;> omega

theorem rd_congr {n : Nat} (h : ∀ i, (hi : i < 188) → i < n → pkt'[i] = pkt[i]) (i : Nat) (hi : i < n) :
    rd pkt' i = rd pkt i := by
  by_cases hin : i < 188
  · rw [rd_of_lt pkt' hin, rd_of_lt pkt hin, h i hin hi]
  · unfold rd
    rw [Vector.getElem?_eq_none (by omega), Vector.getElem?_eq_none (by omega)]

theorem locate_congr (h : ∀ i, (hi : i < 188) → i < headerStart pkt + 9 → pkt'[i] = pkt[i]) :
    locate pkt' = locate pkt := by
  have hlo := four_le_headerStart pkt
  have h1 : pkt'[1] = pkt[1] := h 1 (by decide) (by omega)
  have h3 : pkt'[3] = pkt[3] := h 3 (by decide) (by omega)
  have h4 : pkt'[4] = pkt[4] := h 4 (by decide) (by omega)
  have hstart : headerStart pkt' = headerStart pkt := by
    unfold headerStart
    rw [h3, h4]
  rw [locate_eq, locate_eq, h1, h3, hstart, locateAt_congr (rd_congr h)]

/-! ## Moving the fields -/

theorem deltaTicks_cast (a : Int) : (deltaTicks a : Int) = a % ptsModulus := by
  have hpos : (0 : Int) < ptsModulus := by decide
  have hlow : 0 ≤ a.tmod ptsModulus + ptsModulus := by
    have := Int.lt_tmod_of_pos a hpos
    omega
  rw [deltaTicks, Int.tmod_eq_emod_of_nonneg hlow, Int.toNat_of_nonneg (Int.emod_nonneg _ hpos.ne'), Int.add_emod_right]
  rw [Int.tmod_def, Int.sub_mul_emod_self_left]

theorem deltaTicks_add (a b : Int) : deltaTicks (a + b) ≡ deltaTicks a + deltaTicks b [MOD ptsModulus] := by
  rw [← Int.natCast_modEq_iff, cast_add, deltaTicks_cast, deltaTicks_cast, deltaTicks_cast]
  exact (Int.mod_modEq _ _).trans ((Int.mod_modEq a _).add (Int.mod_modEq b _)).symm

theorem add_deltaTicks_mod (v : Nat) (a : Int) :
    (v + deltaTicks a) % ptsModulus = (((v : Int) + a) % ptsModulus).toNat := by
  have hcast : (((v + deltaTicks a) % ptsModulus : Nat) : Int) = ((v : Int) + a) % ptsModulus := by
    rw [Int.natCast_mod, cast_add, deltaTicks_cast, Int.add_emod_emod]
  rw [← hcast, Int.toNat_natCast]

theorem add_deltaTicks_mod_escr (v : Nat) (a : Int) :
    (v + deltaTicks a * 300) % escrModulus = (((v : Int) + 300 * a) % escrModulus).toNat := by
  have hmul : (deltaTicks a * 300 : Int) ≡ 300 * a [ZMOD escrModulus] := by
    rw [deltaTicks_cast, Int.mul_comm]
    show 300 * (a % ptsModulus) ≡ 300 * a [ZMOD ((ptsModulus * 300 : Nat) : Int)]
    rw [cast_mul, Int.mul_comm (ptsModulus : Int)]
    exact (Int.mod_modEq a ptsModulus).mul_left'
  have hcast : (((v + deltaTicks a * 300) % escrModulus : Nat) : Int) = ((v : Int) + 300 * a) % escrModulus := by
    rw [Int.natCast_mod, cast_add, cast_mul]
    exact hmul.add_left (v : Int)
  rw [← hcast, Int.toNat_natCast]

variable {o : Option Nat}

theorem shiftTs_eq (d : Nat) (pkt : Packet) (ho : ∀ p ∈ o, p + 5 ≤ 188) :
    shiftTs d pkt o = some (tsField.bumpAt d o pkt) := by
  cases o with
  | none => rfl
  | some p =>
    rw [shiftTs, readTs_eq pkt (ho p rfl)]
    exact writeTs_eq pkt (ho p rfl) _

theorem shiftEscr_eq (d : Nat) (pkt : Packet) (ho : ∀ p ∈ o, p + 6 ≤ 188) :
    shiftEscr d pkt o = some (escrField.bumpAt (d * 300) o pkt) := by
  cases o with
  | none => rfl
  | some p =>
    rw [shiftEscr, readEscr_eq pkt (ho p rfl)]
    exact writeEscr_eq pkt (ho p rfl) _

theorem atPlace_eq {α : Type} {read : Nat → Option α} {val : Nat → α}
    (h : ∀ p ∈ o, read p = some (val p)) : atPlace read o = some (o.map val) := by
  cases o with
  | none => rfl
  | some p =>
    rw [atPlace, h p rfl]
    rfl

theorem tsField_bump_zero (p : Nat) (pkt : Packet) : (tsField.at' p).bump 0 pkt = pkt := by
  refine Field.at'_bump_zero ?_ fun i => tsEnc_value (fun i => pkt[p + i]?.getD 0) i
  have hv : (tsField.at' p).read pkt = tsValue fun i => pkt[p + i]?.getD 0 &&& tsMask i := Field.read_at' p pkt
  rw [hv]
  exact tsValue_lt _

theorem escrValue_lt {x : Nat → UInt8} (hext : escrExt x < 300) : escrValue x < escrModulus := by
  have hbase := escrBase_lt x
  calc escrBase x * 300 + escrExt x < (escrBase x + 1) * 300 := by omega
    _ ≤ escrModulus := mul_le_mul_right 300 hbase

theorem escrField_bump_zero {r : Nat} (hext : escrExt (fun k => pkt[r + k]?.getD 0) < 300) :
    (escrField.at' r).bump 0 pkt = pkt := by
  have hvalue : (escrField.at' r).read pkt = escrValue fun i => pkt[r + i]?.getD 0 &&& escrMask i :=
    Field.read_at' r pkt
  refine Field.at'_bump_zero (f := escrField) ?_ ?_
  · rw [hvalue, escrValue_mask]
    exact escrValue_lt hext
  · exact escrEnc_value (fun i => pkt[r + i]?.getD 0) hext

namespace Fields

variable {f : Fields} {lo : Nat}

/-- The packet with every stamp moved by `d` ticks. -/
def bump (f : Fields) (d : Nat) (pkt : Packet) : Packet :=
  escrField.bumpAt (d * 300) f.escr (tsField.bumpAt d f.dts (tsField.bumpAt d f.pts pkt))

/-- The stamps of the packet. -/
def read (f : Fields) (pkt : Packet) : Stamp :=
  ⟨tsField.readAt f.pts pkt, tsField.readAt f.dts pkt, escrField.readAt f.escr pkt⟩

/-- The bits of the stamps. -/
def mask (f : Fields) (i : Nat) : UInt8 := tsField.maskAt f.pts i ||| tsField.maskAt f.dts i ||| escrField.maskAt f.escr i

variable (h : f.Placed lo)

include h

theorem Placed.pts_dts : Apart (tsField.maskAt f.pts) (tsField.maskAt f.dts) :=
  tsField_narrow.apartAt fun p hp q hq => (h.dts q hq).2.2 p hp

theorem Placed.pts_escr : Apart (tsField.maskAt f.pts) (escrField.maskAt f.escr) :=
  tsField_narrow.apartAt fun p hp q hq => (h.escr q hq).2.2.1 p hp

theorem Placed.dts_escr : Apart (tsField.maskAt f.dts) (escrField.maskAt f.escr) :=
  tsField_narrow.apartAt fun p hp q hq => (h.escr q hq).2.2.2 p hp

theorem Placed.pts_inside : ∀ p ∈ f.pts, (tsField.at' p).Inside 188 :=
  fun p hp => tsField_narrow.inside (h.pts p hp).2

theorem Placed.dts_inside : ∀ p ∈ f.dts, (tsField.at' p).Inside 188 :=
  fun p hp => tsField_narrow.inside (h.dts p hp).2.1

theorem Placed.escr_inside : ∀ p ∈ f.escr, (escrField.at' p).Inside 188 :=
  fun p hp => escrField_narrow.inside (h.escr p hp).2.1

omit h

theorem ptsModulus_pos : 0 < ptsModulus := by decide

theorem escrModulus_pos : 0 < escrModulus := by decide

theorem bump_bump (h : f.Placed lo) {c d e : Nat} (he : e ≡ c + d [MOD ptsModulus]) (pkt : Packet) :
    f.bump d (f.bump c pkt) = f.bump e pkt := by
  have hescr : e * 300 ≡ c * 300 + d * 300 [MOD escrModulus] := by
    rw [← add_mul]
    exact he.mul_right' 300
  unfold bump
  -- each of the second moves goes past the first ones of the other fields
  rw [Field.bumpAt_comm h.pts_escr, Field.bumpAt_comm h.pts_dts, Field.bumpAt_comm h.dts_escr,
    Field.bumpAt_bumpAt ptsModulus_pos h.pts_inside he, Field.bumpAt_bumpAt ptsModulus_pos h.dts_inside he,
    Field.bumpAt_bumpAt escrModulus_pos h.escr_inside hescr]

theorem read_bump (h : f.Placed lo) (d : Nat) (pkt : Packet) : f.read (f.bump d pkt) =
      ⟨(tsField.readAt f.pts pkt).map fun v => (v + d) % ptsModulus,
        (tsField.readAt f.dts pkt).map fun v => (v + d) % ptsModulus,
        (escrField.readAt f.escr pkt).map fun v => (v + d * 300) % escrModulus⟩ := by
  unfold read bump
  rw [Field.readAt_bumpAt_apart h.pts_escr.symm, Field.readAt_bumpAt_apart h.pts_dts.symm,
    Field.readAt_bumpAt ptsModulus_pos h.pts_inside, Field.readAt_bumpAt_apart h.dts_escr.symm,
    Field.readAt_bumpAt ptsModulus_pos h.dts_inside, Field.readAt_bumpAt escrModulus_pos h.escr_inside,
    Field.readAt_bumpAt_apart h.dts_escr, Field.readAt_bumpAt_apart h.pts_escr]
  rw [Field.readAt_bumpAt_apart h.pts_dts]

variable {i : Nat}

theorem bump_frame (f : Fields) (d : Nat) (pkt : Packet) (hi : i < 188) :
    (f.bump d pkt)[i] &&& ~~~ f.mask i = pkt[i] &&& ~~~ f.mask i := by
  have hpts : Apart (tsField.maskAt f.pts) fun i => ~~~ f.mask i := apart_not fun i k hk => by simp [mask, hk]
  have hdts : Apart (tsField.maskAt f.dts) fun i => ~~~ f.mask i := apart_not fun i k hk => by simp [mask, hk]
  have hescr : Apart (escrField.maskAt f.escr) fun i => ~~~ f.mask i := apart_not fun i k hk => by simp [mask, hk]
  exact (Field.bumpAt_apart hescr _ _ hi).trans
    ((Field.bumpAt_apart hdts _ _ hi).trans (Field.bumpAt_apart hpts _ _ hi))

/-- Moving by nothing keeps the packet, if its extension of an ESCR is one. -/
theorem bump_zero (f : Fields) (pkt : Packet)
    (hext : ∀ r ∈ f.escr, escrExt (fun k => pkt[r + k]?.getD 0) < 300) : f.bump 0 pkt = pkt := by
  have hts : ∀ o, tsField.bumpAt 0 o pkt = pkt := by
    intro o
    cases o with
    | none => rfl
    | some p => exact tsField_bump_zero p pkt
  rw [bump, hts, hts]
  cases hr : f.escr with
  | none => rfl
  | some r => exact escrField_bump_zero (hext r hr)

theorem Placed.mask_of_lt (h : f.Placed lo) (hi : i < lo) : f.mask i = 0 := by
  have hpts : tsField.maskAt f.pts i = 0 := Field.maskAt_of_lt fun p hp => hi.trans_le (h.pts p hp).1
  have hdts : tsField.maskAt f.dts i = 0 := Field.maskAt_of_lt fun p hp => hi.trans_le (h.dts p hp).1
  have hescr : escrField.maskAt f.escr i = 0 := Field.maskAt_of_lt fun p hp => hi.trans_le (h.escr p hp).1
  rw [mask, hpts, hdts, hescr]
  rfl

theorem Placed.getElem_bump (h : f.Placed lo) (d : Nat) (pkt : Packet) (hi : i < 188) (hlo : i < lo) :
    (f.bump d pkt)[i] = pkt[i] := by
  have hframe := f.bump_frame d pkt hi
  rwa [h.mask_of_lt hlo, show (~~~ (0 : UInt8)) = 0xFF from rfl, and_FF, and_FF] at hframe

end Fields

variable {f : Fields}

theorem headerStart_bump (h : f.Placed (headerStart pkt + 9)) (d : Nat) :
    headerStart (f.bump d pkt) = headerStart pkt := by
  have hlo := four_le_headerStart pkt
  have h3 : (f.bump d pkt)[3] = pkt[3] := h.getElem_bump d pkt (by decide) (by omega)
  have h4 : (f.bump d pkt)[4] = pkt[4] := h.getElem_bump d pkt (by decide) (by omega)
  unfold headerStart
  rw [h3, h4]

theorem locate_bump (h : f.Placed (headerStart pkt + 9)) (d : Nat) : locate (f.bump d pkt) = locate pkt :=
  locate_congr fun _ hi hlo => h.getElem_bump d pkt hi hlo

theorem pesstampShift_found {lo : Nat} (hl : locate pkt = some (.found f)) (h : f.Placed lo) (a : Int) :
    pesstampShift pkt a = some (.found, f.bump (deltaTicks a) pkt) := by
  rw [pesstampShift, hl]
  simp only [bind_eq_bind, bind_some]
  rw [shiftTs_eq _ _ fun p hp => (h.pts p hp).2, bind_some, shiftTs_eq _ _ fun p hp => (h.dts p hp).2.1,
    bind_some, shiftEscr_eq _ _ fun p hp => (h.escr p hp).2.1]
  rfl

theorem pesstampRead_found {lo : Nat} (hl : locate pkt = some (.found f)) (h : f.Placed lo) :
    pesstampRead pkt = some (.found, f.read pkt) := by
  rw [pesstampRead, hl]
  simp only [bind_eq_bind, bind_some]
  rw [atPlace_eq fun p hp => readTs_eq pkt (h.pts p hp).2, bind_some,
    atPlace_eq fun p hp => readTs_eq pkt (h.dts p hp).2.1, bind_some,
    atPlace_eq fun p hp => readEscr_eq pkt (h.escr p hp).2.1]
  rfl

/-- The bits of the stamps that are found. -/
def Located.mask : Located → Nat → UInt8
  | .found f, i => f.mask i
  | _, _ => 0

/-- The stamps moved by a delta. -/
def Stamp.moved (s : Stamp) (a : Int) : Stamp := ⟨s.pts.map fun v : Nat => (((v : Int) + a) % ptsModulus).toNat,
    s.dts.map fun v : Nat => (((v : Int) + a) % ptsModulus).toNat,
    s.escr27.map fun v : Nat => (((v : Int) + 300 * a) % escrModulus).toNat⟩

/-- What one move does to a packet, with no access outside of it. -/
structure Moves (pkt : Packet) (a : Int) (l : Located) (pkt' : Packet) : Prop where
  shift : pesstampShift pkt a = some (l.code, pkt')
  located : locate pkt' = some l
  read : ∃ s, pesstampRead pkt = some (l.code, s) ∧ pesstampRead pkt' = some (l.code, s.moved a)
  frame : ∀ i, (hi : i < 188) → pkt'[i] &&& ~~~ l.mask i = pkt[i] &&& ~~~ l.mask i

theorem moves_found (hl : locate pkt = some (.found f)) (h : f.Placed (headerStart pkt + 9)) (a : Int) :
    Moves pkt a (.found f) (f.bump (deltaTicks a) pkt) where
  shift := pesstampShift_found hl h a
  located := (locate_bump h _).trans hl
  read := by
    have hread : f.read (f.bump (deltaTicks a) pkt) = (f.read pkt).moved a := by
      rw [Fields.read_bump h, funext fun v => add_deltaTicks_mod v a, funext fun v => add_deltaTicks_mod_escr v a]
      simp only [Stamp.moved, Fields.read]
    refine ⟨f.read pkt, pesstampRead_found hl h, ?_⟩
    rw [← hread]
    exact pesstampRead_found ((locate_bump h _).trans hl) h
  frame i hi := f.bump_frame _ pkt hi

theorem moves_not_found {l : Located} (hl : locate pkt = some l) (h : ∀ f, l ≠ .found f) (a : Int) :
    Moves pkt a l pkt := by
  cases l with
  | found f => exact absurd rfl (h f)
  | none | split | scrambled =>
    refine ⟨?_, hl, ⟨⟨none, none, none⟩, ?_, ?_⟩, fun _ _ => rfl⟩
    · rw [pesstampShift, hl]
      rfl
    all_goals
      rw [pesstampRead, hl]
      rfl

/-! ## DTS_next_AU -/

theorem afExtension_spec (pkt : Packet) (off : Nat) {fin : Nat} (hfin : fin ≤ 188) :
    ∃ o, afExtension pkt off fin = some o ∧ ∀ p ∈ o, off + 2 ≤ p ∧ p + 5 ≤ 188 := by
  unfold afExtension
  by_cases h2 : off + 2 > fin
  · exact ⟨none, if_pos h2, by simp⟩
  rw [if_neg h2]
  simp (disch := omega) only [rd_of_lt, bind_eq_bind, bind_some]
  by_cases hext : off + 1 + pkt[off].toNat > fin
  · exact ⟨none, if_pos hext, by simp⟩
  rw [if_neg hext]
  by_cases hflag : pkt[off + 1] &&& 0x20 = 0
  · exact ⟨none, if_pos hflag, by simp⟩
  rw [if_neg hflag]
  have hlo : off + 2 ≤ (if pkt[off + 1] &&& 0x40 ≠ 0 then
      (if pkt[off + 1] &&& 0x80 ≠ 0 then off + 2 + 2 else off + 2) + 3
      else if pkt[off + 1] &&& 0x80 ≠ 0 then off + 2 + 2 else off + 2) := by
    split <;> split <;> omega
  generalize (if pkt[off + 1] &&& 0x40 ≠ 0 then
      (if pkt[off + 1] &&& 0x80 ≠ 0 then off + 2 + 2 else off + 2) + 3
      else if pkt[off + 1] &&& 0x80 ≠ 0 then off + 2 + 2 else off + 2) = p at hlo ⊢
  by_cases hroom : p + 5 > off + 1 + pkt[off].toNat
  · exact ⟨none, if_pos hroom, by simp⟩
  · refine ⟨some p, if_neg hroom, fun q hq => ?_⟩
    cases hq
    omega

theorem afExtension_congr {off fin : Nat} (h : ∀ i, i < off + 2 → rd pkt' i = rd pkt i) :
    afExtension pkt' off fin = afExtension pkt off fin := by
  simp only [afExtension, h off (by omega), h (off + 1) (by omega)]

/-- Where the flags of the adaptation field put its extension, behind the private data if there are any. -/
def afOff (flags : UInt8) : Nat :=
  6 + (if flags &&& 0x10 ≠ 0 then 6 else 0) + (if flags &&& 0x08 ≠ 0 then 6 else 0) +
    (if flags &&& 0x04 ≠ 0 then 1 else 0)

theorem afLocate_eq (pkt : Packet) : afLocate pkt = if ((pkt[3] >>> 4) &&& 0x3) &&& 0x2 = 0 then some none
      else if pkt[4].toNat < 1 ∨ pkt[4].toNat > 183 then some none
      else if pkt[5] &&& 0x01 = 0 then some none
      else if pkt[5] &&& 0x02 ≠ 0 then
        if afOff pkt[5] ≥ 5 + pkt[4].toNat then some none
        else (rd pkt (afOff pkt[5])).bind fun b =>
          afExtension pkt (afOff pkt[5] + (1 + b.toNat)) (5 + pkt[4].toNat)
      else afExtension pkt (afOff pkt[5]) (5 + pkt[4].toNat) := by
  unfold afLocate afOff
  rw [rd_of_lt pkt (by decide : 3 < 188), rd_of_lt pkt (by decide : 4 < 188), rd_of_lt pkt (by decide : 5 < 188)]
  simp only [bind_eq_bind, bind_some]
  rfl

/-- The field is found in the packet, or it is not there; the bytes in front of it say where it is. -/
theorem afLocate_spec (pkt : Packet) : ∃ o, afLocate pkt = some o ∧ ∀ p ∈ o, p + 5 ≤ 188 ∧
      ∀ pkt' : Packet, (∀ i, (hi : i < 188) → i < p → pkt'[i] = pkt[i]) → afLocate pkt' = some o := by
  have hnone : afLocate pkt = some none → _ := fun h => (⟨none, h, by simp⟩ : ∃ o, afLocate pkt = some o ∧ ∀ p ∈ o, p + 5 ≤ 188 ∧
      ∀ pkt' : Packet, (∀ i, (hi : i < 188) → i < p → pkt'[i] = pkt[i]) → afLocate pkt' = some o)
  by_cases hafc : ((pkt[3] >>> 4) &&& 0x3) &&& 0x2 = 0
  · exact hnone (by rw [afLocate_eq, if_pos hafc])
  by_cases hafl : pkt[4].toNat < 1 ∨ pkt[4].toNat > 183
  · exact hnone (by rw [afLocate_eq, if_neg hafc, if_pos hafl])
  by_cases hext : pkt[5] &&& 0x01 = 0
  · exact hnone (by rw [afLocate_eq, if_neg hafc, if_neg hafl, if_pos hext])
  have hlo : 6 ≤ afOff pkt[5] := by
    unfold afOff
    omega
  have heq (pkt' : Packet) (h : ∀ i, (hi : i < 188) → i < 6 → pkt'[i] = pkt[i]) : afLocate pkt' =
      if pkt[5] &&& 0x02 ≠ 0 then
        if afOff pkt[5] ≥ 5 + pkt[4].toNat then some none
        else (rd pkt' (afOff pkt[5])).bind fun b =>
          afExtension pkt' (afOff pkt[5] + (1 + b.toNat)) (5 + pkt[4].toNat)
      else afExtension pkt' (afOff pkt[5]) (5 + pkt[4].toNat) := by
    rw [afLocate_eq, h 3 (by decide) (by decide), h 4 (by decide) (by decide), h 5 (by decide) (by decide), if_neg hafc,
      if_neg hafl, if_neg hext]
  -- the bytes in front of the extension say the same in another packet
  obtain hno | ⟨off, hoff, hfind⟩ : afLocate pkt = some none ∨ ∃ off, 6 ≤ off ∧ ∀ pkt' : Packet,
      (∀ i, (hi : i < 188) → i < off → pkt'[i] = pkt[i]) → afLocate pkt' = afExtension pkt' off (5 + pkt[4].toNat) := by
    by_cases hpriv : pkt[5] &&& 0x02 ≠ 0
    · by_cases hroom : afOff pkt[5] ≥ 5 + pkt[4].toNat
      · exact .inl (by rw [heq pkt fun _ _ _ => rfl, if_pos hpriv, if_pos hroom])
      · refine .inr ⟨afOff pkt[5] + (1 + pkt[afOff pkt[5]].toNat), by omega, fun pkt' h => ?_⟩
        rw [heq pkt' fun i hi hlt => h i hi (by omega), if_pos hpriv, if_neg hroom, rd_congr h _ (by omega),
          rd_of_lt pkt (by omega), bind_some]
    · refine .inr ⟨afOff pkt[5], hlo, fun pkt' h => ?_⟩
      rw [heq pkt' fun i hi hlt => h i hi (by omega), if_neg hpriv]
  · exact hnone hno
  · obtain ⟨o, ho, hspec⟩ := afExtension_spec pkt off (by omega : 5 + pkt[4].toNat ≤ 188)
    refine ⟨o, (hfind pkt fun _ _ _ => rfl).trans ho, fun p hp => ⟨(hspec p hp).2, fun pkt' h => ?_⟩⟩
    have hpoff := (hspec p hp).1
    rw [hfind pkt' fun i hi hlt => h i hi (by omega), afExtension_congr fun i hi => rd_congr h i (by omega), ho]

/-- What one move of DTS_next_AU does to a packet. -/
structure AfMoves (pkt : Packet) (a : Int) (o : Option Nat) (pkt' : Packet) : Prop where
  shift : afstampShift pkt a = some (o.isSome, pkt')
  located : afLocate pkt' = some o
  read : ∀ p ∈ o, ∃ v, readTs pkt p = some v ∧ readTs pkt' p = some (((v : Int) + a) % ptsModulus).toNat
  frame : ∀ i, (hi : i < 188) → pkt'[i] &&& ~~~ tsField.maskAt o i = pkt[i] &&& ~~~ tsField.maskAt o i

theorem afMoves (hl : afLocate pkt = some o)
    (h : ∀ p ∈ o, p + 5 ≤ 188 ∧ ∀ pkt' : Packet, (∀ i, (hi : i < 188) → i < p → pkt'[i] = pkt[i]) → afLocate pkt' = some o)
    (a : Int) : AfMoves pkt a o (tsField.bumpAt (deltaTicks a) o pkt) := by
  cases o with
  | none =>
    refine ⟨?_, hl, by simp, fun _ _ => rfl⟩
    rw [afstampShift, hl]
    rfl
  | some p =>
    obtain ⟨hp, hsame⟩ := h p rfl
    refine ⟨?_, ?_, ?_, ?_⟩
    · rw [afstampShift, hl]
      simp only [bind_eq_bind, bind_some]
      rw [readTs_eq pkt hp, bind_some, writeTs_eq pkt hp]
      rfl
    · refine hsame _ fun i hi hlt => ?_
      exact getElem_blend_of_eq_zero pkt hi (if_neg (not_le.2 hlt))
    · intro q hq
      cases hq
      refine ⟨_, readTs_eq pkt hp, ?_⟩
      rw [← add_deltaTicks_mod, readTs_eq _ hp]
      exact congrArg some (Field.read_bump Fields.ptsModulus_pos (tsField_narrow.inside hp) _ pkt)
    · intro i hi
      exact Field.bumpAt_apart (apart_not fun i k hk => hk) _ pkt hi

/-! ## The action -/

theorem moves (pkt : Packet) (a b : Int) :
    ∃ l p1 p2, locate pkt = some l ∧ Moves pkt a l p1 ∧ Moves p1 b l p2 ∧ Moves pkt (a + b) l p2 := by
  obtain ⟨l, hl, hplaced⟩ := locate_spec pkt
  by_cases hfound : ∃ f, l = .found f
  · obtain ⟨f, rfl⟩ := hfound
    have h := hplaced f rfl
    have hb : Moves (f.bump (deltaTicks a) pkt) b (.found f) (f.bump (deltaTicks b) (f.bump (deltaTicks a) pkt)) :=
      moves_found ((locate_bump h _).trans hl) (headerStart_bump h _ ▸ h) b
    have hab : Moves pkt (a + b) (.found f) (f.bump (deltaTicks b) (f.bump (deltaTicks a) pkt)) := by
      rw [Fields.bump_bump h (deltaTicks_add a b)]
      exact moves_found hl h (a + b)
    exact ⟨_, _, _, hl, moves_found hl h a, hb, hab⟩
  · have hne : ∀ f, l ≠ .found f := fun f hf => hfound ⟨f, hf⟩
    exact ⟨l, pkt, pkt, hl, moves_not_found hl hne a, moves_not_found hl hne b, moves_not_found hl hne (a + b)⟩

theorem afMoves_add (pkt : Packet) (a b : Int) :
    ∃ o p1 p2, afLocate pkt = some o ∧ AfMoves pkt a o p1 ∧ AfMoves p1 b o p2 ∧ AfMoves pkt (a + b) o p2 := by
  obtain ⟨o, hl, h⟩ := afLocate_spec pkt
  have ha := afMoves hl h a
  have hab := afMoves hl h (a + b)
  have hinside : ∀ p ∈ o, (tsField.at' p).Inside 188 := fun p hp => tsField_narrow.inside (h p hp).1
  rw [← Field.bumpAt_bumpAt Fields.ptsModulus_pos hinside (deltaTicks_add a b)] at hab
  refine ⟨o, _, _, hl, ha, afMoves ha.located (fun p hp => ⟨(h p hp).1, fun pkt' hsame => ?_⟩) b, hab⟩
  refine (h p hp).2 pkt' fun i hi hlt => (hsame i hi hlt).trans ?_
  have hmask : tsField.maskAt o i = 0 := by
    obtain rfl := hp
    exact if_neg (not_le.2 hlt)
  have hframe := ha.frame i hi
  rwa [hmask, show (~~~ (0 : UInt8)) = 0xFF from rfl, and_FF, and_FF] at hframe

/-- Moving the stamps of a packet is an action of the deltas that reads and writes inside of the packet and leaves all
but the fields; a move by 0 leaves these too, unless the extension of an ESCR is none. -/
theorem pesstamp_action (pkt : Packet) (a b : Int) :
    (∃ l p1 p2, locate pkt = some l ∧ Moves pkt a l p1 ∧ Moves p1 b l p2 ∧ Moves pkt (a + b) l p2 ∧
      ((∀ f, l = .found f → ∀ r ∈ f.escr, escrExt (fun k => pkt[r + k]?.getD 0) < 300) → Moves pkt 0 l pkt)) ∧
    ∃ o p1 p2, afLocate pkt = some o ∧ AfMoves pkt a o p1 ∧ AfMoves p1 b o p2 ∧ AfMoves pkt (a + b) o p2 ∧
      AfMoves pkt 0 o pkt := by
  constructor
  · obtain ⟨l, p1, p2, hl, ha, hb, hab⟩ := moves pkt a b
    refine ⟨l, p1, p2, hl, ha, hb, hab, fun hext => ?_⟩
    by_cases hfound : ∃ f, l = .found f
    · obtain ⟨f, rfl⟩ := hfound
      obtain ⟨_, hl', hplaced⟩ := locate_spec pkt
      obtain rfl := some.inj (hl'.symm.trans hl)
      have hzero := moves_found hl (hplaced f rfl) 0
      rwa [show deltaTicks 0 = 0 from rfl, f.bump_zero pkt (hext f rfl)] at hzero
    · exact moves_not_found hl (fun f hf => hfound ⟨f, hf⟩) 0
  obtain ⟨o, p1, p2, hl, ha, hb, hab⟩ := afMoves_add pkt a b
  refine ⟨o, p1, p2, hl, ha, hb, hab, ?_⟩
  obtain ⟨o', hl', h⟩ := afLocate_spec pkt
  obtain rfl : o' = o := some.inj (hl'.symm.trans hl)
  have hzero := afMoves hl h 0
  rw [show deltaTicks 0 = 0 from rfl] at hzero
  cases o' with
  | none => exact hzero
  | some p => rwa [show tsField.bumpAt 0 (some p) pkt = pkt from tsField_bump_zero p pkt] at hzero

/-- A PTS of all ones, moved by 9 ticks. -/
example : let pkt : Packet := Vector.ofFn fun i =>
      [0x47, 0x41, 0, 0x10, 0, 0, 1, 0xE0, 0, 0, 0x80, 0x80, 5, 0x2F, 0xFF, 0xFF, 0xFF, 0xFF].getD i 0xFF
    (pesstampRead pkt).map (fun r => r.2.pts) = some (some (2 ^ 33 - 1)) ∧
      ((pesstampShift pkt 9).bind fun r => pesstampRead r.2) = some (.found, ⟨some 8, none, none⟩) := by
  decide +kernel

end DvbIpiTools.Tvhead.Pesstamp
