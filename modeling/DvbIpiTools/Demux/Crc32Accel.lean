import DvbIpiTools.Demux.Crc32
import DvbIpiTools.Utils.WordBytes
import DvbIpiTools.Utils.XorLinear

set_option autoImplicit false

/-! # The accelerated MPEG-2 CRC (`demux/crc32.c`)

`crc32_mpeg_pclmul` takes blocks of eight bytes, folds the register in with a carry-less product and reduces by
Barrett's method; `crc32_mpeg_armcrc` feeds bit-reversed bytes to an instruction for the reflected CRC. Both steps
are linear in the register and the block together, as the table's is, so three linear functions are compared on the
words of one bit. -/

namespace DvbIpiTools.Demux

open XorLinear WordBytes BeUtil List UInt32

/-! ## Machine words -/

/-- `memcpy` of eight bytes into a `uint64_t` of a little-endian host. -/
def raw64 (b0 b1 b2 b3 b4 b5 b6 b7 : UInt8) : UInt64 :=
  UInt64.ofBitVec (word8 b7.toBitVec b6.toBitVec b5.toBitVec b4.toBitVec b3.toBitVec b2.toBitVec b1.toBitVec b0.toBitVec)

/-- `__builtin_bswap64`: the top byte of `x` becomes the first in memory. -/
def bswap64 (x : UInt64) : UInt64 :=
  raw64 (x >>> 56).toUInt8 (x >>> 48).toUInt8 (x >>> 40).toUInt8 (x >>> 32).toUInt8 (x >>> 24).toUInt8
    (x >>> 16).toUInt8 (x >>> 8).toUInt8 x.toUInt8

def rbitll (x : UInt64) : UInt64 := UInt64.ofBitVec x.toBitVec.reverse

def rbit (x : UInt32) : UInt32 := UInt32.ofBitVec x.toBitVec.reverse

/-! ## Carry-less multiplication -/

/-- `_mm_clmulepi64_si128(a, b, 0x00)`: the 127 bit product of two polynomials over GF(2). -/
def clmulepi64 (a b : UInt64) : BitVec 128 := (range 64).foldl
    (fun acc i => if b.toBitVec.getLsbD i then acc ^^^ (a.toBitVec.setWidth 128 <<< i) else acc) 0

/-- `crc32_mpeg_clmul_lo`. -/
def clmulLo (a b : UInt64) : UInt64 := UInt64.ofBitVec ((clmulepi64 a b).setWidth 64)

def crc32MpegK : UInt64 := 0x490d678d

def crc32MpegMu : UInt64 := 0x104d101df

def crc32MpegG : UInt64 := 0x104C11DB7

def crc32MpegBarrett (t : UInt64) : UInt32 :=
  let q := clmulLo (t >>> 32) crc32MpegMu
  let prod := clmulLo (q >>> 32) crc32MpegG
  ((t ^^^ prod) &&& 0xFFFFFFFF).toUInt32

/-- The body of the loop in `crc32_mpeg_pclmul`. -/
def pclmulBlock (state : UInt32) (raw : UInt64) : UInt32 :=
  let block := bswap64 raw
  let high32 := state.toUInt64 ^^^ (block >>> 32)
  let low64 := (block &&& 0xFFFFFFFF) <<< 32
  let reduced := low64 ^^^ clmulLo high32 crc32MpegK
  crc32MpegBarrett reduced

/-- The loop of `crc32_mpeg_pclmul` from a register, with the table for the tail. -/
def pclmulUpdate (state : UInt32) : List UInt8 → UInt32
  | b0 :: b1 :: b2 :: b3 :: b4 :: b5 :: b6 :: b7 :: rest =>
    pclmulUpdate (pclmulBlock state (raw64 b0 b1 b2 b3 b4 b5 b6 b7)) rest
  | tail => crc32MpegUpdate state tail

def crc32MpegPclmul (data : List UInt8) : Nat := (pclmulUpdate 0xFFFFFFFF data).toNat

/-! ## The reflected CRC instruction -/

/-- The architecture's `Poly32Mod2`: every bit from 32 up is cleared by the polynomial under it. -/
def poly32Mod2 {n : Nat} (data : BitVec (32 + n)) (poly : BitVec 32) : BitVec 32 :=
  ((range n).reverse.foldl
    (fun data k => if data.getLsbD (32 + k) then data ^^^ (poly.setWidth (32 + n) <<< k) else data) data).setWidth 32

/-- The architecture's CRC32 instruction on a value of `n` bits. -/
def crc32Insn {n : Nat} (acc : BitVec 32) (val : BitVec n) : BitVec 32 :=
  let tempacc : BitVec (32 + n) := acc.reverse ++ 0#n
  let tempval : BitVec (32 + n) := (val.reverse ++ 0#32).setWidth (32 + n)
  (poly32Mod2 (tempacc ^^^ tempval) 0x04C11DB7).reverse

def crc32d (crc : UInt32) (val : UInt64) : UInt32 := UInt32.ofBitVec (crc32Insn crc.toBitVec val.toBitVec)

def crc32b (crc : UInt32) (val : UInt8) : UInt32 := UInt32.ofBitVec (crc32Insn crc.toBitVec val.toBitVec)

/-- The two loops of `crc32_mpeg_armcrc`. -/
def armcrcUpdate (crc : UInt32) : List UInt8 → UInt32
  | b0 :: b1 :: b2 :: b3 :: b4 :: b5 :: b6 :: b7 :: rest =>
    armcrcUpdate (crc32d crc (bswap64 (rbitll (raw64 b0 b1 b2 b3 b4 b5 b6 b7)))) rest
  | tail => tail.foldl (fun crc b => crc32b crc (rbit b.toUInt32 >>> 24).toUInt8) crc

def crc32MpegArmcrc (data : List UInt8) : Nat := (rbit (armcrcUpdate 0xFFFFFFFF data)).toNat

/-! ## The serial register -/

/-- One bit of the message into the shift register of CRC-32/MPEG-2. -/
def serialBit (crc : UInt32) (bit : Bool) : UInt32 :=
  if crc.toBitVec.msb ^^ bit then (crc <<< 1) ^^^ 0x04C11DB7 else crc <<< 1

/-- A byte, its top bit first. -/
def serialByte (crc : UInt32) (b : UInt8) : UInt32 :=
  [7, 6, 5, 4, 3, 2, 1, 0].foldl (fun crc i => serialBit crc (b.toBitVec.getLsbD i)) crc

/-- CRC-32/MPEG-2 bit by bit. -/
def crc32MpegSerial (data : List UInt8) : Nat := (data.foldl serialByte 0xFFFFFFFF).toNat

/-! ## Every step is linear -/

theorem bswap64_linear : Linear bswap64 := fun x y => by
  simp only [bswap64, UInt64.shiftRight_xor, UInt64.toUInt8_xor, raw64, UInt8.toBitVec_xor, word8_xor]
  rfl

theorem rbitll_linear : Linear rbitll := fun x y => by
  rw [rbitll, UInt64.toBitVec_xor, reverse_linear]
  rfl

theorem rbit_linear : Linear rbit := fun x y => by
  rw [rbit, UInt32.toBitVec_xor, reverse_linear]
  rfl

theorem clmulLo_xor (x y b : UInt64) : clmulLo (x ^^^ y) b = clmulLo x b ^^^ clmulLo y b := by
  have hstep : ∀ i, Linear₂ fun (acc : BitVec 128) (a : UInt64) =>
      if b.toBitVec.getLsbD i then acc ^^^ (a.toBitVec.setWidth 128 <<< i) else acc := by
    intro i x y u v
    dsimp only
    split
    · rw [UInt64.toBitVec_xor, BitVec.setWidth_xor, BitVec.shiftLeft_xor_distrib, xor_exchange]
    · rfl
  have hfold : clmulepi64 (x ^^^ y) b = clmulepi64 x b ^^^ clmulepi64 y b :=
    Linear₂.foldl hstep (range 64) 0 0 x y
  rw [clmulLo, hfold, BitVec.setWidth_xor]
  rfl

theorem and_xor (x y m : UInt64) : (x ^^^ y) &&& m = (x &&& m) ^^^ (y &&& m) := by
  refine UInt64.eq_of_toBitVec_eq (BitVec.eq_of_getLsbD_eq fun i _ => ?_)
  rw [UInt64.toBitVec_xor, UInt64.toBitVec_and, UInt64.toBitVec_and, UInt64.toBitVec_and, UInt64.toBitVec_xor]
  simp only [BitVec.getLsbD_and, BitVec.getLsbD_xor, Bool.and_xor_distrib_right]

theorem crc32MpegBarrett_linear : Linear crc32MpegBarrett := fun x y => by
  rw [crc32MpegBarrett, UInt64.shiftRight_xor, clmulLo_xor, UInt64.shiftRight_xor, clmulLo_xor, xor_exchange, and_xor,
    UInt64.toUInt32_xor]
  rfl

theorem pclmulBlock_linear : Linear₂ pclmulBlock := fun s t x y => by
  rw [pclmulBlock, bswap64_linear, and_xor, UInt64.shiftLeft_xor, UInt64.shiftRight_xor, toUInt64_xor,
    xor_exchange, clmulLo_xor, xor_exchange, crc32MpegBarrett_linear]
  rfl

theorem poly32Mod2_xor {n : Nat} (x y : BitVec (32 + n)) (poly : BitVec 32) :
    poly32Mod2 (x ^^^ y) poly = poly32Mod2 x poly ^^^ poly32Mod2 y poly := by
  have hstep : ∀ k, Linear fun data : BitVec (32 + n) =>
      if data.getLsbD (32 + k) then data ^^^ (poly.setWidth (32 + n) <<< k) else data := by
    intro k
    have hbit : Linear fun data : BitVec (32 + n) =>
        data ^^^ (if data.getLsbD (32 + k) then poly.setWidth (32 + n) <<< k else 0) :=
      Linear.id.xor (Linear.bit BitVec.xor_self BitVec.xor_zero BitVec.zero_xor BitVec.xor_zero (32 + k))
    have hstep : (fun data : BitVec (32 + n) =>
        if data.getLsbD (32 + k) then data ^^^ (poly.setWidth (32 + n) <<< k) else data) = fun data =>
        data ^^^ (if data.getLsbD (32 + k) then poly.setWidth (32 + n) <<< k else 0) := by
      funext data
      split
      · rfl
      · exact BitVec.xor_zero.symm
    rwa [hstep]
  have hfold := Linear.foldl hstep (range n).reverse x y
  dsimp only at hfold
  rw [poly32Mod2, hfold, BitVec.setWidth_xor]
  rfl

theorem crc32Insn_linear {n : Nat} : Linear₂ (crc32Insn (n := n)) := fun s t x y => by
  have hpad : ∀ {v w : Nat} (a b : BitVec v), (a ^^^ b).reverse ++ 0#w = (a.reverse ++ 0#w) ^^^ (b.reverse ++ 0#w) := by
    intro v w a b
    rw [BitVec.xor_append, reverse_linear, BitVec.xor_zero]
  rw [crc32Insn, hpad, hpad, BitVec.setWidth_xor, xor_exchange, poly32Mod2_xor, reverse_linear]
  rfl

variable (crc : UInt32)

theorem serialBit_eq (bit : Bool) :
    serialBit crc bit = (crc <<< 1) ^^^ ((if crc.toBitVec.getLsbD 31 then 0x04C11DB7 else 0) ^^^
      (if bit then 0x04C11DB7 else 0)) := by
  rw [serialBit, BitVec.msb_eq_getLsbD_last]
  cases crc.toBitVec.getLsbD 31 <;> cases bit <;> simp

theorem crc32Round_eq (c : UInt32) : crc32Round c = serialBit c false := by
  have htop : c &&& 0x80000000 ≠ 0 ↔ c.toBitVec.msb = true := by
    rw [ne_eq, ← UInt32.toBitVec_inj, UInt32.toBitVec_and, show (0x80000000 : UInt32).toBitVec = BitVec.twoPow 32 31 from rfl,
      BitVec.and_twoPow, BitVec.msb_eq_getLsbD_last]
    cases c.toBitVec.getLsbD 31 <;> simp
  rw [crc32Round, serialBit, Bool.xor_false]
  simp only [htop]

theorem bit_linear {m : Nat} (i : Nat) : Linear fun x : BitVec m => if x.getLsbD i then (0x04C11DB7 : UInt32) else 0 :=
  Linear.bit (by decide) (by decide) (by decide) (by decide) i

theorem serialBit_linear (i : Nat) : Linear₂ fun (crc : UInt32) (b : UInt8) => serialBit crc (b.toBitVec.getLsbD i) :=
  fun s t x y => by
    have hcrc := bit_linear 31 s.toBitVec t.toBitVec
    have hbit := bit_linear i x.toBitVec y.toBitVec
    dsimp only at hcrc hbit ⊢
    rw [serialBit_eq, serialBit_eq, serialBit_eq, UInt32.toBitVec_xor, UInt8.toBitVec_xor, hcrc, hbit,
      shiftLeft_xor]
    ac_rfl

theorem serialByte_linear : Linear₂ serialByte := Linear₂.foldl serialBit_linear _

/-- A step of `crc32_mpeg_table_update`. -/
def tableStep (crc : UInt32) (b : UInt8) : UInt32 := (crc <<< 8) ^^^ crc32Table ((crc >>> 24).toUInt8 ^^^ b)

theorem crc32Table_linear : Linear crc32Table := by
  have hround : Linear crc32Round := fun x y => by
    rw [crc32Round_eq, crc32Round_eq, crc32Round_eq]
    exact serialBit_linear 0 x y 0 0
  have hrepeat : ∀ k, Linear (Nat.repeat crc32Round k) := by
    intro k
    induction k with
    | zero => exact Linear.id
    | succ k ih => exact hround.comp ih
  intro x y
  rw [crc32Table, UInt8.toUInt32_xor, shiftLeft_xor, hrepeat]
  rfl

theorem tableStep_linear : Linear₂ tableStep := fun s t x y => by
  rw [tableStep, shiftLeft_xor, shiftRight_xor, toUInt8_xor, xor_exchange, crc32Table_linear,
    xor_exchange]
  rfl

/-! ## The steps agree -/

/-- The bytes of a word, in memory's order. -/
def bytes64 (raw : UInt64) : List UInt8 := (bytes8 raw.toBitVec).reverse.map UInt8.ofBitVec

/-- The table over the bytes of a word. -/
def tableBlock (crc : UInt32) (raw : UInt64) : UInt32 := crc32MpegUpdate crc (bytes64 raw)

/-- On the words of one bit a step with the table is one of the serial register, a block through the carry-less
multiplications is one through the table, and the instructions for the reflected polynomial step through its mirror
image. -/
structure StepsAgree : Prop where
  serial : AgreeOnBasis₂ (fun (s : BitVec 32) (x : BitVec 8) => tableStep ⟨s⟩ ⟨x⟩) (fun s x => serialByte ⟨s⟩ ⟨x⟩)
  pclmul : AgreeOnBasis₂ (fun (s : BitVec 32) (x : BitVec 64) => pclmulBlock ⟨s⟩ ⟨x⟩) (fun s x => tableBlock ⟨s⟩ ⟨x⟩)
  crc32d : AgreeOnBasis₂ (fun (s : BitVec 32) (x : BitVec 64) => crc32d (rbit ⟨s⟩) (bswap64 (rbitll ⟨x⟩)))
    (fun s x => rbit (tableBlock ⟨s⟩ ⟨x⟩))
  crc32b : AgreeOnBasis₂
    (fun (s : BitVec 32) (x : BitVec 8) => crc32b (rbit ⟨s⟩) (rbit (UInt8.ofBitVec x).toUInt32 >>> 24).toUInt8)
    (fun s x => rbit (tableStep ⟨s⟩ ⟨x⟩))

theorem steps_agree : StepsAgree where
  serial := by decide +kernel
  pclmul := by decide +kernel
  crc32d := by decide +kernel
  crc32b := by decide +kernel

theorem tableStep_eq (b : UInt8) : tableStep crc b = serialByte crc b := by
  have h := Linear₂.eq_of_basis (f := fun (s : BitVec 32) (x : BitVec 8) => tableStep ⟨s⟩ ⟨x⟩)
    (fun s t x y => tableStep_linear ⟨s⟩ ⟨t⟩ ⟨x⟩ ⟨y⟩)
    (fun s t x y => serialByte_linear ⟨s⟩ ⟨t⟩ ⟨x⟩ ⟨y⟩) (steps_agree).serial
  exact h crc.toBitVec b.toBitVec

theorem bytes64_raw64 (b0 b1 b2 b3 b4 b5 b6 b7 : UInt8) :
    bytes64 (raw64 b0 b1 b2 b3 b4 b5 b6 b7) = [b0, b1, b2, b3, b4, b5, b6, b7] := by
  rw [bytes64, raw64, bytes8_word8]
  rfl

theorem tableBlock_linear : Linear₂ tableBlock := by
  have hstep : ∀ k : Nat, Linear₂ fun (crc : UInt32) (raw : UInt64) =>
      tableStep crc (UInt8.ofBitVec (raw.toBitVec.extractLsb' k 8)) := fun k s t x y => by
    dsimp only
    rw [UInt64.toBitVec_xor, BitVec.extractLsb'_xor, UInt8.ofBitVec_xor, tableStep_linear]
  have hfold := Linear₂.foldl hstep [0, 8, 16, 24, 32, 40, 48, 56]
  exact hfold

theorem pclmulBlock_eq (raw : UInt64) : pclmulBlock crc raw = tableBlock crc raw := by
  have h := Linear₂.eq_of_basis (f := fun (s : BitVec 32) (x : BitVec 64) => pclmulBlock ⟨s⟩ ⟨x⟩)
    (fun s t x y => pclmulBlock_linear ⟨s⟩ ⟨t⟩ ⟨x⟩ ⟨y⟩)
    (fun s t x y => tableBlock_linear ⟨s⟩ ⟨t⟩ ⟨x⟩ ⟨y⟩) (steps_agree).pclmul
  exact h crc.toBitVec raw.toBitVec

theorem crc32d_eq (raw : UInt64) : crc32d (rbit crc) (bswap64 (rbitll raw)) = rbit (tableBlock crc raw) := by
  have hleft : Linear₂ fun (s : UInt32) (x : UInt64) => crc32d (rbit s) (bswap64 (rbitll x)) := fun s t x y => by
    dsimp only
    rw [rbit_linear, rbitll_linear, bswap64_linear, crc32d, UInt32.toBitVec_xor, UInt64.toBitVec_xor, crc32Insn_linear]
    rfl
  have hright := Linear.comp₂ rbit_linear tableBlock_linear
  have h := Linear₂.eq_of_basis (f := fun (s : BitVec 32) (x : BitVec 64) => crc32d (rbit ⟨s⟩) (bswap64 (rbitll ⟨x⟩)))
    (fun s t x y => hleft ⟨s⟩ ⟨t⟩ ⟨x⟩ ⟨y⟩)
    (fun s t x y => hright ⟨s⟩ ⟨t⟩ ⟨x⟩ ⟨y⟩) (steps_agree).crc32d
  exact h crc.toBitVec raw.toBitVec

theorem crc32b_eq (b : UInt8) : crc32b (rbit crc) (rbit b.toUInt32 >>> 24).toUInt8 = rbit (tableStep crc b) := by
  have hleft : Linear₂ fun (s : UInt32) (x : UInt8) => crc32b (rbit s) (rbit x.toUInt32 >>> 24).toUInt8 :=
    fun s t x y => by
      dsimp only
      rw [rbit_linear, UInt8.toUInt32_xor, rbit_linear, shiftRight_xor, toUInt8_xor, crc32b,
        UInt32.toBitVec_xor, UInt8.toBitVec_xor, crc32Insn_linear]
      rfl
  have hright := Linear.comp₂ rbit_linear tableStep_linear
  have h := Linear₂.eq_of_basis (f := fun (s : BitVec 32) (x : BitVec 8) => crc32b (rbit ⟨s⟩)
      (rbit (UInt8.ofBitVec x).toUInt32 >>> 24).toUInt8)
    (fun s t x y => hleft ⟨s⟩ ⟨t⟩ ⟨x⟩ ⟨y⟩)
    (fun s t x y => hright ⟨s⟩ ⟨t⟩ ⟨x⟩ ⟨y⟩) (steps_agree).crc32b
  exact h crc.toBitVec b.toBitVec

/-! ## Whole messages -/

theorem crc32MpegUpdate_append (xs ys : List UInt8) :
    crc32MpegUpdate crc (xs ++ ys) = crc32MpegUpdate (crc32MpegUpdate crc xs) ys := foldl_append

theorem pclmulUpdate_eq (state : UInt32) (data : List UInt8) : pclmulUpdate state data = crc32MpegUpdate state data := by
  fun_induction pclmulUpdate state data with
  | case1 state b0 b1 b2 b3 b4 b5 b6 b7 rest ih =>
    rw [ih, pclmulBlock_eq, tableBlock, bytes64_raw64, ← crc32MpegUpdate_append]
    simp only [cons_append, nil_append]
  | case2 => rfl

theorem armcrc_tail (tail : List UInt8) :
    tail.foldl (fun crc b => crc32b crc (rbit b.toUInt32 >>> 24).toUInt8) (rbit crc) = rbit (crc32MpegUpdate crc tail) := by
  induction tail generalizing crc with
  | nil => rfl
  | cons b tail ih => rw [foldl_cons, crc32b_eq, ih, tableStep, crc32MpegUpdate, crc32MpegUpdate, foldl_cons]

theorem armcrcUpdate_eq (data : List UInt8) : armcrcUpdate (rbit crc) data = rbit (crc32MpegUpdate crc data) := by
  fun_induction pclmulUpdate crc data with
  | case1 crc b0 b1 b2 b3 b4 b5 b6 b7 rest ih =>
    rw [pclmulBlock_eq, tableBlock, bytes64_raw64, ← crc32MpegUpdate_append] at ih
    rw [armcrcUpdate, crc32d_eq, tableBlock, bytes64_raw64, ih]
    simp only [cons_append, nil_append]
  | case2 crc tail hshort =>
    rw [armcrcUpdate, armcrc_tail]
    exact hshort

theorem serial_eq (data : List UInt8) : data.foldl serialByte crc = crc32MpegUpdate crc data := by
  rw [show serialByte = tableStep from funext fun crc => funext fun b => (tableStep_eq crc b).symm]
  rfl

theorem rbit_rbit (x : UInt32) : rbit (rbit x) = x := by rw [rbit, rbit, BitVec.reverse_reverse_eq]

/-- The accelerated CRCs and the serial register compute what the table computes, and a message with its CRC behind it
has the CRC 0. -/
theorem crc32Mpeg_accelerated (data : List UInt8) :
    crc32MpegPclmul data = crc32Mpeg data ∧ crc32MpegArmcrc data = crc32Mpeg data ∧
      crc32Mpeg data = crc32MpegSerial data ∧ crc32Mpeg (data ++ bePut 4 (crc32Mpeg data)) = 0 := by
  refine ⟨?_, ?_, ?_, crc32Mpeg_append_self data⟩
  · rw [crc32MpegPclmul, pclmulUpdate_eq, crc32Mpeg]
  · have hones : rbit 0xFFFFFFFF = 0xFFFFFFFF := by decide +kernel
    rw [crc32MpegArmcrc, ← hones, armcrcUpdate_eq, rbit_rbit, crc32Mpeg]
  · rw [crc32MpegSerial, serial_eq, crc32Mpeg]

end DvbIpiTools.Demux
