import DvbIpiTools.Utils.BitList

set_option autoImplicit false

/-! # The bit writer (`bitwriter.c`)

`BitWriter` is `bitwriter_t`: committed full bytes and a partial byte filled from the top. The
invariants of the C comments (`cur_bits` in 0..7, bits not yet placed are zero) are fields, so a
writer in an impossible state cannot be built. Buffer growth (`reserve`, `growbuf_reserve`) is left
out: every operation here is the one of the source with its allocation succeeding, so `cap` carries
no information and the operations cannot fail. `BitWriter.bits` is the bit string a writer denotes;
each operation is characterised by the bits it appends. -/

namespace DvbIpiTools.Bim

open BitList List Nat

/-- `bitwriter_t` without `cap`: `buf` holds the `len` committed bytes, `cur` the partial byte. -/
@[ext] structure BitWriter where
  buf : List UInt8
  cur : Nat
  curBits : Nat
  curBits_lt : curBits < 8
  cur_lt : cur < 2 ^ 8
  /-- Bits of the partial byte that are not placed yet are zero. -/
  cur_low : ∀ i < 8 - curBits, cur.testBit i = false

theorem eight_pos : 0 < 8 := by decide

namespace BitWriter

/-- `bitwriter_init`. -/
def init : BitWriter where
  buf := []
  cur := 0
  curBits := 0
  curBits_lt := eight_pos
  cur_lt := by decide
  cur_low := by simp

/-- The bits written so far. -/
def bits (bw : BitWriter) : List Bool := ofBytes bw.buf ++ ofNat bw.curBits (bw.cur >>> (8 - bw.curBits))

@[simp] theorem bits_init : init.bits = [] := rfl

/-! ## `bitwriter_put` -/

/-- The partial byte after placing `take` bits of `chunk` below the `curBits` bits already there:
    `cur |= chunk << (space - take)`. -/
def place (bw : BitWriter) (chunk take : Nat) : Nat := bw.cur ||| chunk <<< (8 - bw.curBits - take)

/-- `(value >> (nbits - take)) & ((1 << take) - 1)`. -/
def chunkOf (value nbits take : Nat) : Nat := value >>> (nbits - take) &&& (1 <<< take - 1)

theorem chunkOf_eq_mod (value nbits take : Nat) : chunkOf value nbits take = (value >>> (nbits - take)) % 2 ^ take := by
  rw [chunkOf, one_shiftLeft, and_two_pow_sub_one_eq_mod]

variable {chunk take : Nat} (bw : BitWriter)

theorem place_lt (hc : chunk < 2 ^ take) (ht : take ≤ 8 - bw.curBits) : bw.place chunk take < 2 ^ 8 := by
  refine or_lt_two_pow bw.cur_lt ?_
  calc chunk <<< (8 - bw.curBits - take)
      < 2 ^ take * 2 ^ (8 - bw.curBits - take) := by
        rw [Nat.shiftLeft_eq]; exact Nat.mul_lt_mul_of_pos_right hc (Nat.two_pow_pos _)
    _ = 2 ^ (8 - bw.curBits) := by rw [← pow_add]; congr 1; omega
    _ ≤ 2 ^ 8 := Nat.pow_le_pow_right (by decide) (by omega)

theorem place_low (ht : take ≤ 8 - bw.curBits) :
    ∀ i < 8 - (bw.curBits + take), (bw.place chunk take).testBit i = false := by
  intro i hi
  rw [place, testBit_or, testBit_shiftLeft, bw.cur_low i (by omega)]
  have : ¬ (i ≥ 8 - bw.curBits - take) := by omega
  simp [this]

theorem chunkOf_lt (value nbits take : Nat) : chunkOf value nbits take < 2 ^ take := by
  rw [chunkOf_eq_mod]; exact Nat.mod_lt _ (Nat.two_pow_pos _)

/-- One iteration of the loop of `bitwriter_put`: `take` bits of `value` into the partial byte, which
    is committed when it is full. -/
def putChunk (bw : BitWriter) (value nbits take : Nat) (ht : take ≤ 8 - bw.curBits) : BitWriter :=
  if hfull : bw.curBits + take = 8 then
    { buf := bw.buf ++ [UInt8.ofNat (bw.place (chunkOf value nbits take) take)]
      cur := 0
      curBits := 0
      curBits_lt := eight_pos
      cur_lt := by decide
      cur_low := by simp }
  else
    { buf := bw.buf
      cur := bw.place (chunkOf value nbits take) take
      curBits := bw.curBits + take
      curBits_lt := by have := bw.curBits_lt; omega
      cur_lt := bw.place_lt (chunkOf_lt value nbits take) ht
      cur_low := bw.place_low ht }

/-- `bitwriter_put`: the low `nbits` bits of `value`, most significant first. -/
def put (bw : BitWriter) (value nbits : Nat) : BitWriter :=
  if nbits = 0 then bw
  else
    (bw.putChunk value nbits (min nbits (8 - bw.curBits)) (min_le_right _ _)).put value
      (nbits - min nbits (8 - bw.curBits))
termination_by nbits
decreasing_by have := bw.curBits_lt; omega

theorem ofNat_place (hc : chunk < 2 ^ take) (ht : take ≤ 8 - bw.curBits) :
    ofNat (bw.curBits + take) (bw.place chunk take >>> (8 - (bw.curBits + take)))
      = ofNat bw.curBits (bw.cur >>> (8 - bw.curBits)) ++ ofNat take chunk := by
  rw [ofNat_add]
  congr 1
  · apply ofNat_congr
    intro i _
    have hhigh : chunk.testBit (i + take) = false :=
      Nat.testBit_lt_two_pow (lt_of_lt_of_le hc (Nat.pow_le_pow_right (by decide) (by omega)))
    rw [← shiftRight_add, show 8 - (bw.curBits + take) + take = 8 - bw.curBits by omega,
      testBit_shiftRight, testBit_shiftRight, place, testBit_or, testBit_shiftLeft,
      show 8 - bw.curBits + i - (8 - bw.curBits - take) = i + take by omega, hhigh]
    simp
  apply ofNat_congr
  intro i hi
  rw [testBit_shiftRight, place, testBit_or, bw.cur_low _ (by omega),
    testBit_shiftLeft, show 8 - (bw.curBits + take) + i - (8 - bw.curBits - take) = i by omega]
  have : 8 - (bw.curBits + take) + i ≥ 8 - bw.curBits - take := by omega
  simp [this]

theorem bits_putChunk (value nbits take : Nat) (ht : take ≤ 8 - bw.curBits) :
    (bw.putChunk value nbits take ht).bits = bw.bits ++ ofNat take (value >>> (nbits - take)) := by
  have hplace := bw.ofNat_place (chunkOf_lt value nbits take) ht
  have hchunk : ofNat take (chunkOf value nbits take) = ofNat take (value >>> (nbits - take)) := by
    rw [chunkOf_eq_mod, ofNat_mod]
  rw [hchunk] at hplace
  unfold putChunk
  split
  · next hfull =>
    rw [hfull] at hplace
    simp only [bits, ofBytes_append, ofBytes_cons, ofBytes_nil, ofNat_toNat_byte, ofNat_zero, append_nil, append_assoc]
    rw [← hplace]
    rfl
  · simp only [bits, append_assoc]
    rw [hplace]

@[simp] theorem bits_put (value nbits : Nat) : (bw.put value nbits).bits = bw.bits ++ ofNat nbits value := by
  induction nbits using Nat.strongRecOn generalizing bw with
  | ind nbits ih =>
    rw [put]
    split
    · next h => simp [h]
    rename_i h
    have htake : 0 < min nbits (8 - bw.curBits) := by have := bw.curBits_lt; omega
    rw [ih _ (by omega), bits_putChunk, append_assoc, ← ofNat_add]
    congr 2
    omega

/-! ## Bytes, flush, varints, append -/

/-- `push_bytes`: the aligned path, one `memcpy`. -/
def pushBytes (bw : BitWriter) (data : List UInt8) : BitWriter := { bw with buf := bw.buf ++ data }

/-- The unaligned path of `bitwriter_put_bytes`: one `bitwriter_put` a byte. -/
def putEach (bw : BitWriter) (data : List UInt8) : BitWriter := data.foldl (fun w b => w.put b.toNat 8) bw

/-- `bitwriter_put_bytes`. -/
def putBytes (bw : BitWriter) (data : List UInt8) : BitWriter :=
  if bw.curBits = 0 then bw.pushBytes data else bw.putEach data

/-- `bitwriter_flush`. -/
def flush (bw : BitWriter) : BitWriter :=
  if 0 < bw.curBits then { init with buf := bw.buf ++ [UInt8.ofNat bw.cur] } else bw

/-- `bitwriter_data`. -/
def data (bw : BitWriter) : List UInt8 := bw.flush.buf

end BitWriter

def vluimsbf8MaxGroups : Nat := 10

def vluimsbf5MaxGroups : Nat := 16

/-- The loop `while (n < max && (value >> (step * n)) != 0) n++` both varint writers start with. -/
def groupCount (step max value n : Nat) : Nat :=
  if n < max ∧ value >>> (step * n) ≠ 0 then groupCount step max value (n + 1) else n
termination_by max - n

/-- `bitwriter_vluimsbf8_len`. -/
def vluimsbf8Len (value : Nat) : Nat := groupCount 7 vluimsbf8MaxGroups value 1

/-- The group count `n` of `bitwriter_put_vluimsbf5`. -/
def vluimsbf5Len (value : Nat) : Nat := groupCount 4 vluimsbf5MaxGroups value 1

namespace BitWriter

/-- The loop of `bitwriter_put_vluimsbf8`, for groups `i = k - 1` down to `0`. -/
def putVluimsbf8Groups (bw : BitWriter) (value : Nat) : Nat → BitWriter
  | 0 => bw
  | i + 1 =>
    ((bw.put (if i = 0 then 0 else 1) 1).put (value >>> (7 * i) &&& 0x7F) 7).putVluimsbf8Groups
      value i

/-- `bitwriter_put_vluimsbf8`. -/
def putVluimsbf8 (bw : BitWriter) (value : Nat) : BitWriter := bw.putVluimsbf8Groups value (vluimsbf8Len value)

/-- `bitwriter_put_vluimsbf5`: `n - 1` ones, a zero, `4 * n` value bits. -/
def putVluimsbf5 (bw : BitWriter) (value : Nat) : BitWriter :=
  (((range (vluimsbf5Len value - 1)).foldl (fun w _ => w.put 1 1) bw).put 0 1).put value
    (vluimsbf5Len value * 4)

/-- `bitwriter_append`. -/
def append (dst src : BitWriter) : BitWriter :=
  let dst := if src.buf.length ≠ 0 then dst.putBytes src.buf else dst
  if src.curBits ≠ 0 then dst.put (src.cur >>> (8 - src.curBits)) src.curBits else dst

variable (bw : BitWriter)

@[simp] theorem bits_putEach (data : List UInt8) : (bw.putEach data).bits = bw.bits ++ ofBytes data := by
  induction data generalizing bw with
  | nil => simp [putEach]
  | cons b data ih =>
    rw [show bw.putEach (b :: data) = (bw.put b.toNat 8).putEach data from rfl, ih, bits_put,
      ofBytes_cons, append_assoc]

theorem bits_pushBytes (data : List UInt8) (h : bw.curBits = 0) :
    (bw.pushBytes data).bits = bw.bits ++ ofBytes data := by
  simp [pushBytes, bits, h]

@[simp] theorem bits_putBytes (data : List UInt8) : (bw.putBytes data).bits = bw.bits ++ ofBytes data := by
  unfold putBytes
  split
  · next h => exact bw.bits_pushBytes data h
  · exact bw.bits_putEach data

/-! ## A writer is determined by its bits -/

theorem cur_eq : bw.cur = (bw.cur >>> (8 - bw.curBits)) <<< (8 - bw.curBits) := by
  apply eq_of_testBit_eq
  intro i
  by_cases hi : i ≥ 8 - bw.curBits
  · simp [hi]
  · rw [bw.cur_low i (by omega)]
    simp [hi]

theorem cur_shiftRight_lt : bw.cur >>> (8 - bw.curBits) < 2 ^ bw.curBits := by
  have hlt := bw.curBits_lt
  rw [Nat.shiftRight_eq_div_pow, Nat.div_lt_iff_lt_mul (Nat.two_pow_pos _), ← pow_add,
    show bw.curBits + (8 - bw.curBits) = 8 by omega]
  exact bw.cur_lt

theorem length_bits : bw.bits.length = 8 * bw.buf.length + bw.curBits := by simp [bits]

theorem eq_of_bits_eq {a b : BitWriter} (h : a.bits = b.bits) : a = b := by
  have hlen := congrArg length h
  rw [length_bits, length_bits] at hlen
  have ha := a.curBits_lt
  have hb := b.curBits_lt
  have hbits : a.curBits = b.curBits := by omega
  obtain ⟨hbuf, hcur⟩ := append_inj h (by simp; omega)
  have hshift : a.cur >>> (8 - a.curBits) = b.cur >>> (8 - b.curBits) := by
    have := congrArg toNat hcur
    rwa [toNat_ofNat, toNat_ofNat, mod_eq_of_lt a.cur_shiftRight_lt, mod_eq_of_lt b.cur_shiftRight_lt] at this
  refine BitWriter.ext (ofBytes_injective hbuf) ?_ hbits
  rw [a.cur_eq, b.cur_eq, hshift, hbits]

/-! ## Padding to whole bytes -/

/-- The zero bits `bitwriter_flush` pads with. -/
def padding (bw : BitWriter) : List Bool := replicate ((8 - bw.curBits) % 8) false

theorem ofBytes_data : ofBytes bw.data = bw.bits ++ bw.padding := by
  unfold data flush
  split
  · next h =>
    have hlt := bw.curBits_lt
    have hsplit : ofNat 8 bw.cur = ofNat (bw.curBits + (8 - bw.curBits)) bw.cur := by congr 1; omega
    have hzero : ofNat (8 - bw.curBits) bw.cur = replicate (8 - bw.curBits) false := by
      rw [← ofNat_eq_replicate]
      exact ofNat_congr fun i hi => by rw [bw.cur_low i hi, zero_testBit]
    simp only [ofBytes_append, ofBytes_cons, ofBytes_nil, ofNat_toNat_byte, append_nil, bits, padding, append_assoc]
    rw [hsplit, ofNat_add, hzero, mod_eq_of_lt (by omega : 8 - bw.curBits < 8)]
  · next h => simp [bits, padding, show bw.curBits = 0 by omega]

/-! ## The bits of the varints and of an appended writer -/

end BitWriter

/-- The groups `i = k - 1` down to `0` of a vluimsbf8 code: continuation flag, seven value bits. -/
def vluimsbf8GroupBits (value : Nat) : Nat → List Bool
  | 0 => []
  | i + 1 => decide (i ≠ 0) :: (ofNat 7 (value >>> (7 * i)) ++ vluimsbf8GroupBits value i)

/-- The vluimsbf8 code of `value`. -/
def vluimsbf8Bits (value : Nat) : List Bool := vluimsbf8GroupBits value (vluimsbf8Len value)

/-- The vluimsbf5 code of `value`. -/
def vluimsbf5Bits (value : Nat) : List Bool := replicate (vluimsbf5Len value - 1) true ++
    false :: ofNat (vluimsbf5Len value * 4) value

namespace BitWriter

variable (bw : BitWriter)

theorem bits_putVluimsbf8Groups (value k : Nat) :
    (bw.putVluimsbf8Groups value k).bits = bw.bits ++ vluimsbf8GroupBits value k := by
  induction k generalizing bw with
  | zero => simp [putVluimsbf8Groups, vluimsbf8GroupBits]
  | succ i ih =>
    have hflag : ofNat 1 (if i = 0 then 0 else 1) = [decide (i ≠ 0)] := by
      by_cases hi : i = 0 <;> simp [hi, ofNat_succ]
    have hgroup : ofNat 7 (value >>> (7 * i) &&& 0x7F) = ofNat 7 (value >>> (7 * i)) := by
      rw [show 0x7F = 2 ^ 7 - 1 from rfl, and_two_pow_sub_one_eq_mod, ofNat_mod]
    rw [putVluimsbf8Groups, ih, bits_put, bits_put, vluimsbf8GroupBits, hflag, hgroup]
    simp

@[simp] theorem bits_putVluimsbf8 (value : Nat) :
    (bw.putVluimsbf8 value).bits = bw.bits ++ vluimsbf8Bits value := bw.bits_putVluimsbf8Groups value _

theorem bits_putOnes (k : Nat) : ((range k).foldl (fun w _ => w.put 1 1) bw).bits
      = bw.bits ++ replicate k true := by
  induction k with
  | zero => simp
  | succ k ih =>
    rw [range_succ, foldl_append, foldl_cons, foldl_nil, bits_put, ih, replicate_succ']
    simp [ofNat_succ]

@[simp] theorem bits_putVluimsbf5 (value : Nat) :
    (bw.putVluimsbf5 value).bits = bw.bits ++ vluimsbf5Bits value := by
  rw [putVluimsbf5, bits_put, bits_put, bits_putOnes, vluimsbf5Bits]
  simp [ofNat_succ]

@[simp] theorem bits_append (dst src : BitWriter) : (dst.append src).bits = dst.bits ++ src.bits := by
  have hbytes : (if src.buf.length ≠ 0 then dst.putBytes src.buf else dst).bits
      = dst.bits ++ ofBytes src.buf := by
    split
    · exact dst.bits_putBytes src.buf
    · next h => rw [length_eq_zero_iff.1 (not_not.1 h)]; simp
  unfold append
  dsimp only
  split
  · rw [bits_put, hbytes, append_assoc]
    rfl
  · next h =>
    have hsrc : src.bits = ofBytes src.buf := by simp [bits, not_not.1 h]
    rw [hbytes, hsrc]

end BitWriter

end DvbIpiTools.Bim
