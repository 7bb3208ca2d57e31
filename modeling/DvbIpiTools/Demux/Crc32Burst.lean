import DvbIpiTools.Demux.Crc32Accel
import DvbIpiTools.Utils.BitList
import DvbIpiTools.Utils.ShiftRegister

set_option autoImplicit false

/-! # Damage that the MPEG-2 CRC notices -/

namespace DvbIpiTools.Demux

open List BeUtil BitList ShiftRegister

/-- `got` differs from `sent` in a run of at most `n` bits. -/
def Burst (n : Nat) (sent got : List UInt8) : Prop := ∃ before x y after, ofBytes sent = before ++ x ++ after ∧
  ofBytes got = before ++ y ++ after ∧ x.length = y.length ∧ x.length ≤ n

/-- The terms of the polynomial below x³². -/
def crc32Poly : BitVec 32 := 0x04C11DB7

theorem serialBit_shift (crc : UInt32) (bit : Bool) : (serialBit crc bit).toBitVec = shift crc32Poly crc.toBitVec bit := by
  unfold serialBit shift
  split <;> rfl

theorem crc32MpegUpdate_shift (crc : UInt32) (data : List UInt8) :
    (crc32MpegUpdate crc data).toBitVec = (ofBytes data).foldl (shift crc32Poly) crc.toBitVec := by
  rw [← serial_eq]
  induction data generalizing crc with
  | nil => rfl
  | cons b data ih =>
    rw [foldl_cons, ih, ofBytes_cons, foldl_append]
    simp only [serialByte, foldl_cons, foldl_nil, serialBit_shift]
    rfl

/-- A section that ends in its CRC and is received with a burst of at most 32 bits has the CRC 0 only if nothing has
changed. -/
theorem crc32Mpeg_burst_noticed (data got : List UInt8) (h : Burst 32 (data ++ bePut 4 (crc32Mpeg data)) got) :
    crc32Mpeg got = 0 ↔ got = data ++ bePut 4 (crc32Mpeg data) := by
  constructor
  · intro hzero
    obtain ⟨before, x, y, after, hsent, hgot, hlen, hx⟩ := h
    have hrun := congrArg UInt32.toBitVec (UInt32.toNat.inj (hzero.trans (crc32Mpeg_append_self data).symm))
    rw [crc32MpegUpdate_shift, crc32MpegUpdate_shift, hsent, hgot] at hrun
    have hsame := burst_injective (by decide) before after hlen.symm (hlen ▸ hx) hrun
    refine ofBytes_injective ?_
    rw [hgot, hsent, hsame]
  · rintro rfl
    exact crc32Mpeg_append_self data

/-- The CRC itself is damaged. -/
theorem crc32Mpeg_burst_noticed_crc : crc32Mpeg [0x30, 1, 2, 3, 4] ≠ 0 := by
  intro hzero
  have hsame := (crc32Mpeg_burst_noticed [0x30] _ ⟨ofBytes [0x30], ofBytes (bePut 4 (crc32Mpeg [0x30])), ofBytes [1, 2, 3, 4], [],
    by decide +kernel, by decide +kernel, rfl, by decide⟩).1 hzero
  revert hsame
  decide +kernel

end DvbIpiTools.Demux
