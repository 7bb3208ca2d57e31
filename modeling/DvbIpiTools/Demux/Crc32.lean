import DvbIpiTools.Helper.BeUtil

set_option autoImplicit false

/-! # MPEG-2 CRC (`demux/crc32.c`)

The table driven fallback; the accelerated versions compute the same function. -/

namespace DvbIpiTools.Demux

open BeUtil

/-- One of the eight rounds of `crc32_table_init`. -/
def crc32Round (c : UInt32) : UInt32 :=
  if c &&& 0x80000000 ≠ 0 then (c <<< 1) ^^^ 0x04C11DB7 else c <<< 1

/-- `crc32_table[n]`. -/
def crc32Table (n : UInt8) : UInt32 := Nat.repeat crc32Round 8 (n.toUInt32 <<< 24)

/-- `crc32_mpeg_table_update`. -/
def crc32MpegUpdate (crc : UInt32) (data : List UInt8) : UInt32 :=
  data.foldl (fun crc b => (crc <<< 8) ^^^ crc32Table ((crc >>> 24).toUInt8 ^^^ b)) crc

/-- `crc32_mpeg_generic`, which `crc32_mpeg` calls where no accelerated version is selected. -/
def crc32Mpeg (data : List UInt8) : Nat := (crc32MpegUpdate 0xFFFFFFFF data).toNat

theorem crc32Mpeg_lt (data : List UInt8) : crc32Mpeg data < 2 ^ 32 := UInt32.toNat_lt _

-- the check value of the CRC-32/MPEG-2 parameters
example : crc32Mpeg [0x31, 0x32, 0x33, 0x34, 0x35, 0x36, 0x37, 0x38, 0x39] = 0x0376E6E7 := by decide +kernel

theorem crc32Table_zero : crc32Table 0 = 0 := by decide

theorem crc32MpegUpdate_top (n : Nat) (data : List UInt8) :
    crc32MpegUpdate (UInt32.ofNat n) (UInt8.ofNat (n >>> 24) :: data) =
      crc32MpegUpdate (UInt32.ofNat (n * 256)) data := by
  have hbyte : ((UInt32.ofNat n) >>> 24).toUInt8 = UInt8.ofNat (n >>> 24) := by
    apply UInt8.toNat.inj
    simp only [UInt32.toNat_toUInt8, UInt32.toNat_shiftRight, UInt32.toNat_ofNat', UInt8.toNat_ofNat',
      Nat.shiftRight_eq_div_pow, UInt32.reduceToNat, Nat.reduceMod, Nat.reducePow]
    omega
  have hshift : (UInt32.ofNat n) <<< 8 = UInt32.ofNat (n * 256) := by
    apply UInt32.toNat.inj
    simp only [UInt32.toNat_shiftLeft, UInt32.toNat_ofNat', Nat.shiftLeft_eq,
      UInt32.reduceToNat, Nat.reduceMod, Nat.reducePow]
    omega
  show crc32MpegUpdate ((UInt32.ofNat n) <<< 8 ^^^ crc32Table (_ ^^^ _)) data = _
  rw [hbyte, UInt8.xor_self, crc32Table_zero, UInt32.xor_zero, hshift]

theorem crc32Mpeg_append_self (data : List UInt8) : crc32Mpeg (data ++ bePut 4 (crc32Mpeg data)) = 0 := by
  have hbytes : ∀ n : Nat, crc32MpegUpdate (UInt32.ofNat n) (bePut 4 n) = 0 := by
    intro n
    have h2 : n >>> 16 = (n * 256) >>> 24 := by
      simp only [Nat.shiftRight_eq_div_pow]
      omega
    have h1 : n >>> 8 = (n * 256 * 256) >>> 24 := by
      simp only [Nat.shiftRight_eq_div_pow]
      omega
    have h0 : n >>> 0 = (n * 256 * 256 * 256) >>> 24 := by
      simp only [Nat.shiftRight_eq_div_pow]
      omega
    have hend : UInt32.ofNat (n * 256 * 256 * 256 * 256) = 0 := by
      apply UInt32.toNat.inj
      rw [UInt32.toNat_ofNat', mul_assoc, mul_assoc, mul_assoc]
      exact Nat.mul_mod_left n (2 ^ 32)
    show crc32MpegUpdate (UInt32.ofNat n) [UInt8.ofNat (n >>> 24), UInt8.ofNat (n >>> 16),
      UInt8.ofNat (n >>> 8), UInt8.ofNat (n >>> 0)] = 0
    rw [crc32MpegUpdate_top, h2, crc32MpegUpdate_top, h1, crc32MpegUpdate_top, h0, crc32MpegUpdate_top, hend]
    rfl
  have hcrc : UInt32.ofNat (crc32Mpeg data) = crc32MpegUpdate 0xFFFFFFFF data := UInt32.ofNat_toNat
  have happend : crc32MpegUpdate 0xFFFFFFFF (data ++ bePut 4 (crc32Mpeg data)) =
      crc32MpegUpdate (crc32MpegUpdate 0xFFFFFFFF data) (bePut 4 (crc32Mpeg data)) := List.foldl_append
  rw [crc32Mpeg, happend, ← hcrc, hbytes]
  rfl
end DvbIpiTools.Demux
