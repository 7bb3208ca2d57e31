import DvbIpiTools.Demux.SectionAsm
import DvbIpiTools.Tvhead.Timemap
import DvbIpiTools.Utils.BitList

set_option autoImplicit false

/-! # The clock of regenerated PCRs (`mux/pcrclock.c`)

The output runs at a constant rate, so its clock counts packets. -/

namespace DvbIpiTools.Tvhead

open List BeUtil Demux Nat

/-- `pcrclock_t`. -/
structure Pcrclock where
  bps : Nat
  base27 : Nat

def pcrByteIndex : Nat := 10

def pcrclockInit (bps base27 : Nat) : Pcrclock := ⟨bps, base27 % pcrModulus⟩

def pcrclockAt (c : Pcrclock) (packetIndex : Nat) : Nat :=
  let bits := (packetIndex * 188 + pcrByteIndex) * 8 % 2 ^ 64
  let q := bits / c.bps
  let r := bits % c.bps
  let ticks := q % 2 ^ 33 * (pcrClockHz / 300) % 2 ^ 33 * 300
  pcrAdd c.base27 ((ticks + (r * pcrClockHz + c.bps / 2) % 2 ^ 64 / c.bps) % pcrModulus)

def hasPcr (pkt : List UInt8) : Bool :=
  let afc := byteAt pkt 3 >>> 4 &&& 0x3
  (afc = 0x2 ∨ afc = 0x3) ∧ byteAt pkt 4 ≥ 7 ∧ byteAt pkt 5 &&& 0x10 ≠ 0

def pcrPacketRead (pkt : List UInt8) : Option Nat :=
  if hasPcr pkt then
    let base := byteAt pkt 6 <<< 25 ||| byteAt pkt 7 <<< 17 ||| byteAt pkt 8 <<< 9 ||| byteAt pkt 9 <<< 1 ||| byteAt pkt 10 >>> 7
    some (base * 300 + ((byteAt pkt 10 &&& 0x01) <<< 8 ||| byteAt pkt 11))
  else none

def pcrPacketWrite (pkt : List UInt8) (pcr27 : Nat) : Option (List UInt8) :=
  if hasPcr pkt then
    let base := pcr27 % pcrModulus / 300
    let ext := pcr27 % pcrModulus % 300
    some ((((((pkt.set 6 (.ofNat (base >>> 25))).set 7 (.ofNat (base >>> 17))).set 8 (.ofNat (base >>> 9))).set 9
      (.ofNat (base >>> 1))).set 10 (.ofNat ((base &&& 1) <<< 7 ||| byteAt pkt 10 &&& 0x7E ||| (ext >>> 8 &&& 1)))).set 11
      (.ofNat ext))
  else none

/-! ## The field of a packet -/

/-- `p` is `pkt` with the PCR `v`. -/
structure Stamped (pkt p : List UInt8) (v : Nat) : Prop where
  read : pcrPacketRead p = some v
  length : p.length = pkt.length
  rest : ∀ i, i < 6 ∨ 12 ≤ i → byteAt p i = byteAt pkt i

variable {pkt : List UInt8} {v : Nat}

theorem mixed_byte : ∀ c < 2, ∀ y < 256, ∀ d < 2,
    (c <<< 7 ||| y &&& 0x7E ||| d) % 256 / 128 = c ∧ (c <<< 7 ||| y &&& 0x7E ||| d) % 256 % 2 = d := by decide +kernel

theorem pcrPacketRead_eq (h : hasPcr pkt = true) : pcrPacketRead pkt =
    some ((((byteAt pkt 6 * 256 + byteAt pkt 7) * 256 + byteAt pkt 8) * 256 + byteAt pkt 9) * 2 * 300 + byteAt pkt 10 / 128 * 300 +
      (byteAt pkt 10 % 2 * 256 + byteAt pkt 11)) := by
  have h7 := byteAt_lt pkt 7
  have h8 := byteAt_lt pkt 8
  have h9 := byteAt_lt pkt 9
  have h10 := byteAt_lt pkt 10
  have h11 := byteAt_lt pkt 11
  rw [pcrPacketRead, if_pos h]
  simp only [Nat.shiftRight_eq_div_pow, Nat.or_assoc, Nat.and_one_is_mod]
  rw [BitList.shiftLeft_or (n := 8) (by omega), BitList.shiftLeft_or (n := 1) (by omega), BitList.shiftLeft_or (n := 9) (by omega),
    BitList.shiftLeft_or (n := 17) (by omega), BitList.shiftLeft_or (by omega)]
  exact congrArg some (by omega)

/-- What is written is read back, and nothing else has changed. -/
theorem pcrPacketWrite_spec (h : hasPcr pkt = true) (hlen : pkt.length = 188) (hv : v < pcrModulus) :
    ∃ p, pcrPacketWrite pkt v = some p ∧ Stamped pkt p v := by
  have hrest : ∀ a b c d e f : UInt8, ∀ i, i < 6 ∨ 12 ≤ i →
      byteAt ((((((pkt.set 6 a).set 7 b).set 8 c).set 9 d).set 10 e).set 11 f) i = byteAt pkt i := by
    intro a b c d e f i hi
    simp (disch := omega) only [byteAt_set_ne]
  rw [pcrPacketWrite, if_pos h]
  refine ⟨_, rfl, ?_, by simp, hrest _ _ _ _ _ _⟩
  rw [pcrPacketRead_eq]
  · have hbit (n : Nat) : n % 2 < 2 := mod_lt n (by decide)
    have hm := mixed_byte _ (hbit (v / 300)) _ (byteAt_lt pkt 10) _ (hbit (v % 300 / 256))
    simp only [mod_eq_of_lt hv, shiftRight_eq_div_pow, and_one_is_mod]
    simp (disch := first | decide | (simp only [length_set]; omega)) only [byteAt_set, byteAt_set_ne, hm.1, hm.2]
    rw [show 2 ^ 25 = 2 * 256 * 256 * 256 by rfl, show 2 ^ 17 = 2 * 256 * 256 by rfl, show 2 ^ 9 = 2 * 256 by rfl]
    simp only [← Nat.div_div_eq_div_mul, pow_one]
    unfold pcrModulus at hv
    have hbase : v / 300 / 2 / 256 / 256 / 256 < 256 := by omega
    have hext : v % 300 / 256 < 2 := by omega
    rw [byteAt_set (by omega), Nat.mod_eq_of_lt hbase, Nat.mod_eq_of_lt hext]
    exact congrArg some (by omega)
  · unfold hasPcr
    rw [hrest _ _ _ _ _ _ 3 (by decide), hrest _ _ _ _ _ _ 4 (by decide), hrest _ _ _ _ _ _ 5 (by decide)]
    exact h

/-! ## The clock -/

theorem pcrclockAt_eq {bps k : Nat} (hpos : 0 < bps) (hbps : bps ≤ 10 ^ 9) (hk : (k * 188 + pcrByteIndex) * 8 < 2 ^ 64)
    (base27 : Nat) : pcrclockAt (pcrclockInit bps base27) k =
      (base27 + ((k * 188 + pcrByteIndex) * 8 * pcrClockHz + bps / 2) / bps) % pcrModulus := by
  unfold pcrclockAt pcrclockInit
  simp only [mod_eq_of_lt hk]
  generalize (k * 188 + pcrByteIndex) * 8 = bits
  have hr := mod_lt bits hpos
  have hsplit : bits * pcrClockHz + bps / 2 = bits % bps * pcrClockHz + bps / 2 + bits / bps * pcrClockHz * bps := by
    conv_lhs => rw [← mod_add_div bits bps]
    ring
  rw [hsplit, add_mul_div_right _ _ hpos, mod_eq_of_lt (b := 2 ^ 64) (by unfold pcrClockHz; omega)]
  unfold pcrAdd pcrModulus pcrClockHz
  omega

/-- The PCR that is written into packet `k` is read back as the time of its byte, rounded, and the rest of the packet stays. -/
theorem pcr_stamp (bps base27 k : Nat) (pkt : List UInt8) (hpos : 0 < bps) (hbps : bps ≤ 10 ^ 9)
    (hk : (k * 188 + pcrByteIndex) * 8 < 2 ^ 64) (h : hasPcr pkt = true) (hlen : pkt.length = 188) :
    ∃ p, pcrPacketWrite pkt (pcrclockAt (pcrclockInit bps base27) k) = some p ∧
      Stamped pkt p ((base27 + ((k * 188 + pcrByteIndex) * 8 * pcrClockHz + bps / 2) / bps) % pcrModulus) := by
  rw [pcrclockAt_eq hpos hbps hk]
  exact pcrPacketWrite_spec h hlen (mod_lt _ (by decide))

/-- The last packet before the counter of bits runs over. -/
theorem pcr_stamp_late : ∃ p, pcrPacketWrite ([0x47, 0x01, 0x00, 0x20, 183, 0x10] ++ replicate 182 0xFF)
      (pcrclockAt (pcrclockInit 1000000 5) 12265122389434542) = some p ∧
    Stamped ([0x47, 0x01, 0x00, 0x20, 183, 0x10] ++ replicate 182 0xFF) p ((5 + ((12265122389434542 * 188 + pcrByteIndex) * 8 *
      pcrClockHz + 1000000 / 2) / 1000000) % pcrModulus) :=
  pcr_stamp 1000000 5 12265122389434542 _ (by decide) (by decide) (by decide) (by decide) rfl

end DvbIpiTools.Tvhead
