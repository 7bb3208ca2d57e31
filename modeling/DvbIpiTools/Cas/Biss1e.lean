import DvbIpiTools.Cas.DesCipher
import DvbIpiTools.Utils.BitList
import Mathlib.Data.Vector.Defs
import Mathlib.Tactic.IntervalCases

set_option autoImplicit false

/-! # BISS-1 Mode E (`cas/biss/biss1e.c`, `biss1_sw_to_cw` of `cas/biss/hex.c`)

A session word of 48 bits travels in the inner six bits of the eight bytes of a DES block, whose outer bits are random.
A buried ID rotates the session word by one. -/

namespace DvbIpiTools.Cas

open BeUtil Nat
open List hiding Vector

/-! ## Model -/

/-- A checksum byte of a control word. -/
def cwChecksum (a b c : UInt8) : UInt8 := UInt8.ofNat ((a.toNat + b.toNat + c.toNat) % 256)

def biss1SwToCw (sw : Vector UInt8 6) : DesBlock :=
  #v[sw[0], sw[1], sw[2], cwChecksum sw[0] sw[1] sw[2], sw[3], sw[4], sw[5], cwChecksum sw[3] sw[4] sw[5]]

def biss1EswDecrypt (id : Vector UInt8 7) (esw : DesBlock) (buried : Bool) : DesBlock :=
  let ks := desSetKey (desKeyExpand id)
  let expanded := desDecrypt ks esw
  let v := expanded.toList.foldl (fun v b => v <<< 6 ||| (b.toNat >>> 1 &&& 0x3F)) 0
  let v := if buried then v >>> 1 ||| (v &&& 1) <<< 47 else v
  biss1SwToCw (Vector.ofFn fun i : Fin 6 => UInt8.ofNat (v >>> (40 - 8 * i.val)))

/-- A byte of the block before its encryption: six bits of the session word between two random ones. -/
def expandedByte (fill : UInt8) (group : Nat) : UInt8 := UInt8.ofNat (fill.toNat &&& 0x81 ||| (group &&& 0x3F) <<< 1)

/-- `biss1_esw_encrypt`; `fill` is what `cw_gen` has drawn, or its failure. -/
def biss1EswEncrypt (id : Vector UInt8 7) (cw : DesBlock) (buried : Bool) (fill : Option DesBlock) : Option DesBlock :=
  match fill with
  | none => none
  | some fill =>
    let v := [cw[0], cw[1], cw[2], cw[4], cw[5], cw[6]].foldl (fun v b => v <<< 8 ||| b.toNat) 0
    let v := if buried then (v <<< 1 ||| v >>> 47) &&& ((1 <<< 48) - 1) else v
    let expanded : DesBlock := Vector.ofFn fun i : Fin 8 => expandedByte fill[i] (v >>> (42 - 6 * i.val))
    some (desEncrypt (desSetKey (desKeyExpand id)) expanded)

/-! ## Bits of the session word -/

theorem expandedByte_group (fill : UInt8) (group : Nat) :
    (expandedByte fill group).toNat >>> 1 &&& 0x3F = group % 64 := by
  have houter : ∀ fill : UInt8, fill.toNat &&& 0x81 = 0 ∨ fill.toNat &&& 0x81 = 1 ∨ fill.toNat &&& 0x81 = 128 ∨
      fill.toNat &&& 0x81 = 129 := by
    have h : ∀ n < 256, n &&& 0x81 = 0 ∨ n &&& 0x81 = 1 ∨ n &&& 0x81 = 128 ∨ n &&& 0x81 = 129 := by decide +kernel
    exact fun fill => h _ fill.toNat_lt
  have hbyte : ∀ o ∈ [0, 1, 128, 129], ∀ c < 64, (UInt8.ofNat (o ||| c <<< 1)).toNat >>> 1 &&& 0x3F = c := by
    decide +kernel
  have hmod : group &&& 0x3F = group % 64 := and_two_pow_sub_one_eq_mod group 6
  rw [expandedByte, hmod]
  refine hbyte _ ?_ _ (mod_lt _ (by decide))
  rcases houter fill with h | h | h | h <;> rw [h] <;> decide

variable {v : Nat}

theorem gather_expanded (fill : DesBlock) (hv : v < 2 ^ 48) :
    (Vector.ofFn fun i : Fin 8 => expandedByte fill[i] (v >>> (42 - 6 * i.val))).toList.foldl
      (fun v b => v <<< 6 ||| (b.toNat >>> 1 &&& 0x3F)) 0 = v := by
  have hstep : ∀ (acc : Nat) (fill : UInt8) (group : Nat),
      acc <<< 6 ||| ((expandedByte fill group).toNat >>> 1 &&& 0x3F) = acc * 64 + group % 64 := by
    intro acc fill group
    rw [expandedByte_group]
    exact BitList.shiftLeft_or (mod_lt group (by decide))
  simp only [Vector.toList_ofFn, ofFn_succ, ofFn_zero, foldl_cons, foldl_nil, hstep]
  simp only [shiftRight_eq_div_pow]
  simp
  omega

/-- The rotation of a buried ID. -/
def rotateSw (buried : Bool) (v : Nat) : Nat := if buried then (v <<< 1 ||| v >>> 47) &&& ((1 <<< 48) - 1) else v

theorem rotateSw_lt (buried : Bool) (hv : v < 2 ^ 48) : rotateSw buried v < 2 ^ 48 := by
  cases buried with
  | false => exact hv
  | true =>
    have hmod := and_two_pow_sub_one_eq_mod (v <<< 1 ||| v >>> 47) 48
    exact lt_of_eq_of_lt hmod (mod_lt _ (by decide))

theorem unrotate (buried : Bool) (hv : v < 2 ^ 48) :
    (if buried then rotateSw buried v >>> 1 ||| (rotateSw buried v &&& 1) <<< 47 else rotateSw buried v) = v := by
  cases buried with
  | false => rfl
  | true =>
    have htop : v >>> 47 < 2 ^ 1 := by omega
    have hrot : rotateSw true v = (v * 2 + v / 2 ^ 47) % 2 ^ 48 := by
      have hmod : (v <<< 1 ||| v >>> 47) &&& ((1 <<< 48) - 1) = _ := and_two_pow_sub_one_eq_mod (v <<< 1 ||| v >>> 47) 48
      rw [BitList.shiftLeft_or htop, shiftRight_eq_div_pow, pow_one] at hmod
      rw [← hmod, rotateSw, if_pos rfl, BitList.shiftLeft_or htop, shiftRight_eq_div_pow, pow_one]
    rw [if_pos rfl, Nat.or_comm, hrot, Nat.shiftRight_eq_div_pow, Nat.and_one_is_mod, BitList.shiftLeft_or (by omega)]
    -- the top bit of the session word
    have hbit : v / 2 ^ 47 = 0 ∨ v / 2 ^ 47 = 1 := by omega
    rcases hbit with h | h <;> rw [h] <;> omega

/-! ## Round trip -/

/-- The six free bytes of a control word as a number. -/
def swOf (cw : DesBlock) : Nat := [cw[0], cw[1], cw[2], cw[4], cw[5], cw[6]].foldl (fun v b => v <<< 8 ||| b.toNat) 0

theorem swOf_eq (cw : DesBlock) : swOf cw = ((((cw[0].toNat * 256 + cw[1].toNat) * 256 + cw[2].toNat) * 256 +
    cw[4].toNat) * 256 + cw[5].toNat) * 256 + cw[6].toNat := by
  have hstep : ∀ (v : Nat) (b : UInt8), v <<< 8 ||| b.toNat = v * 256 + b.toNat := fun v b => BitList.shiftLeft_or b.toNat_lt
  simp only [swOf, foldl_cons, foldl_nil, hstep, zero_mul, zero_add]

theorem biss1SwToCw_swOf {cw : DesBlock} (h3 : cw[3] = cwChecksum cw[0] cw[1] cw[2])
    (h7 : cw[7] = cwChecksum cw[4] cw[5] cw[6]) :
    biss1SwToCw (Vector.ofFn fun i : Fin 6 => UInt8.ofNat (swOf cw >>> (40 - 8 * i.val))) = cw := by
  have hbyte : ∀ (b : UInt8) (n : Nat), n % 256 = b.toNat → UInt8.ofNat n = b := by
    intro b n h
    exact UInt8.toNat.inj (UInt8.toNat_ofNat'.trans h)
  have hsw := swOf_eq cw
  have h0 := cw[0].toNat_lt
  have h1 := cw[1].toNat_lt
  have h2 := cw[2].toNat_lt
  have h4 := cw[4].toNat_lt
  have h5 := cw[5].toNat_lt
  have h6 := cw[6].toNat_lt
  have hsw0 : UInt8.ofNat (swOf cw >>> 40) = cw[0] := hbyte _ _ (by rw [hsw, shiftRight_eq_div_pow]; omega)
  have hsw1 : UInt8.ofNat (swOf cw >>> 32) = cw[1] := hbyte _ _ (by rw [hsw, shiftRight_eq_div_pow]; omega)
  have hsw2 : UInt8.ofNat (swOf cw >>> 24) = cw[2] := hbyte _ _ (by rw [hsw, shiftRight_eq_div_pow]; omega)
  have hsw3 : UInt8.ofNat (swOf cw >>> 16) = cw[4] := hbyte _ _ (by rw [hsw, shiftRight_eq_div_pow]; omega)
  have hsw4 : UInt8.ofNat (swOf cw >>> 8) = cw[5] := hbyte _ _ (by rw [hsw, shiftRight_eq_div_pow]; omega)
  have hsw5 : UInt8.ofNat (swOf cw >>> 0) = cw[6] := hbyte _ _ (by rw [hsw, shiftRight_zero]; omega)
  refine Vector.ext fun i hi => ?_
  simp only [biss1SwToCw, Vector.getElem_ofFn, mul_zero, mul_one, Nat.reduceMul, Nat.reduceSub, hsw0, hsw1, hsw2,
    hsw3, hsw4, hsw5, ← h3, ← h7]
  interval_cases i <;> rfl

/-- What is encrypted is decrypted to the same control word, whatever the random bits are. -/
theorem biss1EswDecrypt_encrypt (id : Vector UInt8 7) {cw : DesBlock} (h3 : cw[3] = cwChecksum cw[0] cw[1] cw[2])
    (h7 : cw[7] = cwChecksum cw[4] cw[5] cw[6]) (buried : Bool) (fill : DesBlock) :
    (biss1EswEncrypt id cw buried (some fill)).map (fun esw => biss1EswDecrypt id esw buried) = some cw := by
  have hlt : swOf cw < 2 ^ 48 := by
    have h0 := cw[0].toNat_lt
    have h1 := cw[1].toNat_lt
    have h2 := cw[2].toNat_lt
    have h4 := cw[4].toNat_lt
    have h5 := cw[5].toNat_lt
    have h6 := cw[6].toNat_lt
    rw [swOf_eq]
    omega
  have hgather := gather_expanded fill (rotateSw_lt buried hlt)
  have hsw := unrotate buried hlt
  show some (biss1EswDecrypt id (desEncrypt (desSetKey (desKeyExpand id)) (Vector.ofFn fun i : Fin 8 =>
    expandedByte fill[i] (rotateSw buried (swOf cw) >>> (42 - 6 * i.val)))) buried) = some cw
  rw [biss1EswDecrypt, desDecrypt_desEncrypt, hgather, hsw, biss1SwToCw_swOf h3 h7]

/-- The table-driven cipher is the published one, decryption undoes encryption, triple DES is its three stages, and a
session word comes back from its encrypted form. -/
theorem des_correct : (∀ key block : DesBlock, blockWord (desEncrypt (desSetKey key) block) =
      Fips46.encipher (blockWord key) (blockWord block)) ∧
    (∀ key block : DesBlock, desDecrypt (desSetKey key) (desEncrypt (desSetKey key) block) = block) ∧
    (∀ k1 k2 k3 block : DesBlock, des3Decrypt (desSetKey k1) (desSetKey k2) (desSetKey k3) block =
      desDecrypt (desSetKey k1) (desEncrypt (desSetKey k2) (desDecrypt (desSetKey k3) block))) ∧
    ∀ (id : Vector UInt8 7) (cw : DesBlock), cw[3] = cwChecksum cw[0] cw[1] cw[2] →
      cw[7] = cwChecksum cw[4] cw[5] cw[6] → ∀ (buried : Bool) (fill : DesBlock),
        (biss1EswEncrypt id cw buried (some fill)).map (fun esw => biss1EswDecrypt id esw buried) = some cw :=
  ⟨desEncrypt_eq, fun key => desDecrypt_desEncrypt (desSetKey key),
    fun k1 k2 k3 => des3Decrypt_eq (desSetKey k1) (desSetKey k2) (desSetKey k3),
    fun id _ h3 h7 => biss1EswDecrypt_encrypt id h3 h7⟩

/-- A buried ID and a control word with its checksums. -/
theorem des_correct_buried :
    (biss1EswEncrypt #v[0x01, 0x23, 0x45, 0x67, 0x89, 0xAB, 0xCD] #v[0x12, 0x34, 0x56, 0x9C, 0x78, 0x9A, 0xBC, 0xCE] true
      (some #v[0xFF, 0, 0x80, 1, 2, 3, 4, 5])).map
        (fun esw => biss1EswDecrypt #v[0x01, 0x23, 0x45, 0x67, 0x89, 0xAB, 0xCD] esw true) =
      some #v[0x12, 0x34, 0x56, 0x9C, 0x78, 0x9A, 0xBC, 0xCE] :=
  des_correct.2.2.2 _ #v[0x12, 0x34, 0x56, 0x9C, 0x78, 0x9A, 0xBC, 0xCE] (by decide) (by decide) true _

end DvbIpiTools.Cas
