import DvbIpiTools.Bim.BitWriter

set_option autoImplicit false

/-! # The bit reader (`bimreader.c`)

`BitReader` is `bitreader_t`, with the invariants of its comments as fields: fewer than eight bits
of the current byte are consumed, and the position never passes the end of the buffer.
`BitReader.rest` is the bit string that is left.

Below the operations of the source stand the same operations on a bare bit list (`Stream`), and each
reader operation is proved to be its list counterpart on `rest`. The syntax layers above are modelled
over `Stream`, so they never look at bytes or bit positions again. -/

namespace DvbIpiTools.Bim

open BitList List Option Nat

/-- `bitreader_t`: `buf` holds `len` bytes, the first `bytePos` and `bitPos` bits of the next one are
    consumed. -/
@[ext] structure BitReader where
  buf : List UInt8
  bytePos : Nat
  bitPos : Nat
  bitPos_lt : bitPos < 8
  pos_le : 8 * bytePos + bitPos ≤ 8 * buf.length

namespace BitReader

/-- `bitreader_init`. -/
def init (buf : List UInt8) : BitReader where
  buf := buf
  bytePos := 0
  bitPos := 0
  bitPos_lt := eight_pos
  pos_le := by omega

/-- `bitreader_bits_left`. -/
def bitsLeft (br : BitReader) : Nat := (br.buf.length - br.bytePos) * 8 - br.bitPos

/-- The bits not read yet. -/
def rest (br : BitReader) : List Bool := (ofBytes br.buf).drop (8 * br.bytePos + br.bitPos)

@[simp] theorem rest_init (buf : List UInt8) : (init buf).rest = ofBytes buf := rfl

variable (br : BitReader)

theorem length_rest : br.rest.length = br.bitsLeft := by
  simp only [rest, bitsLeft, length_drop, length_ofBytes]
  omega

/-- `bit_pos += take`, moving on to the next byte when the current one is used up. -/
def advance (br : BitReader) (take : Nat) (htake : take ≤ 8 - br.bitPos)
    (hleft : take ≤ br.bitsLeft) : BitReader :=
  if h : br.bitPos + take = 8 then
    { buf := br.buf
      bytePos := br.bytePos + 1
      bitPos := 0
      bitPos_lt := eight_pos
      pos_le := by have := br.pos_le; simp only [bitsLeft] at hleft; omega }
  else
    { buf := br.buf
      bytePos := br.bytePos
      bitPos := br.bitPos + take
      bitPos_lt := by have := br.bitPos_lt; omega
      pos_le := by have := br.pos_le; simp only [bitsLeft] at hleft; omega }

theorem rest_advance (take : Nat) (htake : take ≤ 8 - br.bitPos)
    (hleft : take ≤ br.bitsLeft) : (br.advance take htake hleft).rest = br.rest.drop take := by
  unfold advance
  split
  · next h =>
    simp only [rest, drop_drop]
    congr 1; omega
  · simp only [rest, drop_drop]
    congr 1; omega

theorem bitsLeft_advance (take : Nat) (htake : take ≤ 8 - br.bitPos)
    (hleft : take ≤ br.bitsLeft) : (br.advance take htake hleft).bitsLeft = br.bitsLeft - take := by
  rw [← length_rest, ← length_rest, rest_advance, length_drop]

/-- `buf[byte_pos]`, total through a default that is never read. -/
def curByte (br : BitReader) : Nat := (br.buf.getD br.bytePos 0).toNat

/-- The bit-by-bit loop of `bitreader_get`: `v = (v << take) | bits`. -/
def getLoop (br : BitReader) (v nbits : Nat) (h : nbits ≤ br.bitsLeft) : Nat × BitReader :=
  if hn : nbits = 0 then (v, br)
  else
    let avail := 8 - br.bitPos
    let take := min nbits avail
    let chunk := br.curByte >>> (avail - take) &&& (1 <<< take - 1)
    (br.advance take (min_le_right _ _) (by omega)).getLoop (v <<< take ||| chunk) (nbits - take)
      (by rw [bitsLeft_advance]; omega)
termination_by nbits
decreasing_by have := br.bitPos_lt; omega

/-- The aligned loop of `bitreader_get`: whole bytes while at least eight bits are wanted. -/
def getAligned (br : BitReader) (v nbits : Nat) (hpos : br.bitPos = 0) (h : nbits ≤ br.bitsLeft) :
    Nat × BitReader :=
  if hn : nbits < 8 then br.getLoop v nbits h
  else
    ({ br with
        bytePos := br.bytePos + 1
        pos_le := by have := br.pos_le; simp only [bitsLeft] at h; omega } : BitReader).getAligned
      (v <<< 8 ||| br.curByte) (nbits - 8) hpos (by simp only [bitsLeft] at h ⊢; omega)
termination_by nbits

/-- `bitreader_get`, `nbits` in 0..64, so that `v` never leaves 64 bits. -/
def get (br : BitReader) (nbits : Nat) : Option (Nat × BitReader) :=
  if h : nbits > br.bitsLeft then none
  else if hpos : br.bitPos = 0 then some (br.getAligned 0 nbits hpos (by omega))
  else some (br.getLoop 0 nbits (by omega))

/-- `bitreader_get` with its aligned loop left out. -/
def getBitwise (br : BitReader) (nbits : Nat) : Option (Nat × BitReader) :=
  if h : nbits > br.bitsLeft then none else some (br.getLoop 0 nbits (by omega))

/-- The loop of `bitreader_get_vluimsbf8`, for the groups left. -/
def getVluimsbf8Loop (br : BitReader) (v : Nat) : Nat → Option (Nat × BitReader)
  | 0 => none
  | groups + 1 =>
    match br.get 1 with
    | none => none
    | some (cont, br) =>
      match br.get 7 with
      | none => none
      | some (group, br) =>
        if v >>> 57 ≠ 0 then none
        else if cont = 0 then some (v <<< 7 ||| group, br)
        else br.getVluimsbf8Loop (v <<< 7 ||| group) groups

/-- `bitreader_get_vluimsbf8`. -/
def getVluimsbf8 (br : BitReader) : Option (Nat × BitReader) := br.getVluimsbf8Loop 0 vluimsbf8MaxGroups

/-- The prefix loop of `bitreader_get_vluimsbf5`: `left` is what `n` may still grow by. -/
def getVluimsbf5Prefix (br : BitReader) (n : Nat) : Nat → Option (Nat × BitReader)
  | 0 => none
  | left + 1 =>
    match br.get 1 with
    | none => none
    | some (bit, br) => if bit = 0 then some (n + 1, br) else br.getVluimsbf5Prefix (n + 1) left

/-- `bitreader_get_vluimsbf5`. -/
def getVluimsbf5 (br : BitReader) : Option (Nat × BitReader) :=
  match br.getVluimsbf5Prefix 0 vluimsbf5MaxGroups with
  | none => none
  | some (n, br) => br.get (n * 4)

/-- The unaligned loop of `bitreader_get_bytes`. -/
def getEach (br : BitReader) : Nat → Option (List UInt8 × BitReader)
  | 0 => some ([], br)
  | n + 1 =>
    match br.get 8 with
    | none => none
    | some (c, br) =>
      match br.getEach n with
      | none => none
      | some (out, br) => some (UInt8.ofNat c :: out, br)

/-- `bitreader_get_bytes`. -/
def getBytes (br : BitReader) (n : Nat) : Option (List UInt8 × BitReader) :=
  if h : n > br.bitsLeft / 8 then none
  else if hpos : br.bitPos = 0 then
    some ((br.buf.drop br.bytePos).take n, { br with
        bytePos := br.bytePos + n
        pos_le := by have := br.pos_le; simp only [bitsLeft] at h; omega })
  else br.getEach n

/-! ## What the loops read -/

theorem eq_of_bitsLeft_eq {a b : BitReader} (hbuf : a.buf = b.buf) (h : a.bitsLeft = b.bitsLeft) : a = b := by
  have ha := a.bitPos_lt
  have hb := b.bitPos_lt
  have hla := a.pos_le
  have hlb := b.pos_le
  simp only [bitsLeft, hbuf] at h hla
  exact BitReader.ext hbuf (by omega) (by omega)

theorem eq_of_rest_eq {a b : BitReader} (hbuf : a.buf = b.buf) (h : a.rest = b.rest) : a = b :=
  eq_of_bitsLeft_eq hbuf (by rw [← length_rest, ← length_rest, h])

theorem rest_eq (h : 0 < br.bitsLeft) :
    br.rest = ofNat (8 - br.bitPos) br.curByte ++ ofBytes (br.buf.drop (br.bytePos + 1)) := by
  have hlt : br.bytePos < br.buf.length := by simp only [bitsLeft] at h; omega
  have hpos := br.bitPos_lt
  have hbyte : (br.buf.getD br.bytePos 0).toNat = br.curByte := rfl
  rw [rest, ← drop_drop, drop_ofBytes, drop_eq_getElem_cons hlt, ofBytes_cons,
    drop_append_of_le_length (by simp; omega)]
  rw [getD_eq_getElem _ _ hlt] at hbyte
  rw [hbyte, show (8 : Nat) = br.bitPos + (8 - br.bitPos) by omega, drop_ofNat]
  congr 2; omega

theorem toNat_take_rest (take : Nat) (htake : take ≤ 8 - br.bitPos) (hleft : take ≤ br.bitsLeft) :
    toNat (br.rest.take take) = (br.curByte >>> (8 - br.bitPos - take)) % 2 ^ take := by
  rcases Nat.eq_zero_or_pos take with rfl | hpos
  · simp [mod_one]
  · rw [br.rest_eq (by omega), take_append_of_le_length (by simpa using htake),
      show 8 - br.bitPos = take + (8 - br.bitPos - take) by omega, take_ofNat, toNat_ofNat]
    congr 2; omega

theorem getLoop_spec (v nbits : Nat) (h : nbits ≤ br.bitsLeft) :
    (br.getLoop v nbits h).1 = v * 2 ^ nbits + toNat (br.rest.take nbits) ∧
      (br.getLoop v nbits h).2.rest = br.rest.drop nbits ∧ (br.getLoop v nbits h).2.buf = br.buf := by
  induction nbits using Nat.strongRecOn generalizing br v with
  | ind nbits ih =>
    rw [getLoop]
    split
    · next h0 => subst h0; simp
    rename_i h0
    set take := min nbits (8 - br.bitPos) with htake
    have hpos := br.bitPos_lt
    have hchunk : br.curByte >>> (8 - br.bitPos - take) &&& (1 <<< take - 1)
        = toNat (br.rest.take take) := by
      rw [br.toNat_take_rest take (by omega) (by omega), one_shiftLeft, and_two_pow_sub_one_eq_mod]
    have hlen : (br.rest.take take).length = take := by rw [length_take, length_rest]; omega
    have hlt : toNat (br.rest.take take) < 2 ^ take := by
      have := toNat_lt (br.rest.take take)
      rwa [hlen] at this
    obtain ⟨hv, hrest, hbuf⟩ := ih (nbits - take) (by omega)
      (br.advance take (by omega) (by omega))
      (v <<< take ||| (br.curByte >>> (8 - br.bitPos - take) &&& (1 <<< take - 1)))
      (by rw [bitsLeft_advance]; omega)
    have hsplit : br.rest.take nbits
        = br.rest.take take ++ (br.rest.drop take).take (nbits - take) := by
      rw [← take_add]; congr 1; omega
    refine ⟨?_, ?_, ?_⟩
    · rw [hv, hchunk, shiftLeft_or hlt, rest_advance, hsplit, toNat_append, length_take,
        length_drop, length_rest, show min (nbits - take) (br.bitsLeft - take) = nbits - take
          by omega, show nbits = take + (nbits - take) by omega, pow_add]
      simp only [Nat.add_sub_cancel_left]
      ring
    · rw [hrest, rest_advance, drop_drop]
      congr 1; omega
    · rw [hbuf]
      unfold advance
      split <;> rfl

theorem getAligned_spec (v nbits : Nat) (hpos : br.bitPos = 0) (h : nbits ≤ br.bitsLeft) :
    (br.getAligned v nbits hpos h).1 = v * 2 ^ nbits + toNat (br.rest.take nbits) ∧
      (br.getAligned v nbits hpos h).2.rest = br.rest.drop nbits ∧ (br.getAligned v nbits hpos h).2.buf = br.buf := by
  induction nbits using Nat.strongRecOn generalizing br v with
  | ind nbits ih =>
    rw [getAligned]
    split
    · exact br.getLoop_spec v nbits h
    rename_i hn
    have hcur : br.curByte < 2 ^ 8 := by
      have := (br.buf.getD br.bytePos 0).toNat_lt
      simpa [curByte] using this
    have hbyte : br.rest.take 8 = ofNat 8 br.curByte := by
      rw [br.rest_eq (by omega), hpos, take_left' (by simp)]
    set br' : BitReader := { br with
      bytePos := br.bytePos + 1
      pos_le := by have := br.pos_le; simp only [bitsLeft] at h; omega } with hbr'
    have hrest' : br'.rest = br.rest.drop 8 := by
      simp only [rest, hbr', drop_drop]
      congr 1; omega
    obtain ⟨hv, hrest, hbuf⟩ := ih (nbits - 8) (by omega) br' (v <<< 8 ||| br.curByte) hpos
      (by simp only [bitsLeft, hbr'] at h ⊢; omega)
    have hsplit : br.rest.take nbits = ofNat 8 br.curByte ++ br'.rest.take (nbits - 8) := by
      rw [← hbyte, hrest', ← take_add]; congr 1; omega
    refine ⟨?_, ?_, hbuf⟩
    · have hlen : (br'.rest.take (nbits - 8)).length = nbits - 8 := by
        rw [length_take, hrest', length_drop, length_rest]; omega
      rw [hv, shiftLeft_or hcur, hsplit, toNat_append, toNat_ofNat, mod_eq_of_lt hcur, hlen,
        show nbits = 8 + (nbits - 8) by omega, pow_add]
      simp only [Nat.add_sub_cancel_left]
      ring
    · rw [hrest, hrest', drop_drop]
      congr 1; omega

theorem getAligned_eq (v nbits : Nat) (hpos : br.bitPos = 0)
    (h : nbits ≤ br.bitsLeft) : br.getAligned v nbits hpos h = br.getLoop v nbits h := by
  obtain ⟨hv, hrest, hbuf⟩ := br.getAligned_spec v nbits hpos h
  obtain ⟨hv', hrest', hbuf'⟩ := br.getLoop_spec v nbits h
  exact Prod.ext (hv.trans hv'.symm) (eq_of_rest_eq (hbuf.trans hbuf'.symm)
    (hrest.trans hrest'.symm))

/-- The aligned loop of `bitreader_get` reads what the bit-by-bit loop reads. -/
theorem get_eq_getBitwise (nbits : Nat) : br.get nbits = br.getBitwise nbits := by
  unfold get getBitwise
  split
  · rfl
  · split
    · rw [getAligned_eq]
    · rfl

end BitReader

/-! ## The same operations on a bit list -/

namespace Stream

/-- `bitreader_get` on the bits that are left. -/
def get (nbits : Nat) (s : List Bool) : Option (Nat × List Bool) :=
  if nbits > s.length then none else some (toNat (s.take nbits), s.drop nbits)

/-- The loop of `bitreader_get_vluimsbf8` on the bits that are left. -/
def getVluimsbf8Loop (v : Nat) : Nat → List Bool → Option (Nat × List Bool)
  | 0, _ => none
  | groups + 1, s =>
    match get 1 s with
    | none => none
    | some (cont, s) =>
      match get 7 s with
      | none => none
      | some (group, s) =>
        if v >>> 57 ≠ 0 then none
        else if cont = 0 then some (v <<< 7 ||| group, s)
        else getVluimsbf8Loop (v <<< 7 ||| group) groups s

def getVluimsbf8 (s : List Bool) : Option (Nat × List Bool) := getVluimsbf8Loop 0 vluimsbf8MaxGroups s

/-- The prefix loop of `bitreader_get_vluimsbf5` on the bits that are left. -/
def getVluimsbf5Prefix (n : Nat) : Nat → List Bool → Option (Nat × List Bool)
  | 0, _ => none
  | left + 1, s =>
    match get 1 s with
    | none => none
    | some (bit, s) => if bit = 0 then some (n + 1, s) else getVluimsbf5Prefix (n + 1) left s

def getVluimsbf5 (s : List Bool) : Option (Nat × List Bool) :=
  match getVluimsbf5Prefix 0 vluimsbf5MaxGroups s with
  | none => none
  | some (n, s) => get (n * 4) s

/-- `bitreader_get_bytes` on the bits that are left, eight bits a byte. -/
def getBytes : Nat → List Bool → Option (List UInt8 × List Bool)
  | 0, s => some ([], s)
  | n + 1, s =>
    match get 8 s with
    | none => none
    | some (c, s) =>
      match getBytes n s with
      | none => none
      | some (out, s) => some (UInt8.ofNat c :: out, s)

end Stream

/-! ## The reader computes the list operations -/

namespace BitReader

/-- A reader result seen as a result on the bits that are left. -/
def onRest {α : Type} (r : Option (α × BitReader)) : Option (α × List Bool) := r.map fun p => (p.1, p.2.rest)

variable (br : BitReader)

theorem onRest_get (nbits : Nat) : onRest (br.get nbits) = Stream.get nbits br.rest := by
  rw [get_eq_getBitwise, getBitwise, Stream.get, length_rest]
  split
  · rfl
  · next h =>
    obtain ⟨hv, hrest, -⟩ := br.getLoop_spec 0 nbits (by omega)
    simp [onRest, hv, hrest]

theorem get_buf {br br' : BitReader} {nbits v : Nat} (h : br.get nbits = some (v, br')) : br'.buf = br.buf := by
  rw [get_eq_getBitwise, getBitwise] at h
  split at h
  · cases h
  · have hbuf := (br.getLoop_spec 0 nbits (by omega)).2.2
    rw [some.inj h] at hbuf
    exact hbuf

theorem onRest_getVluimsbf8Loop (v groups : Nat) :
    onRest (br.getVluimsbf8Loop v groups) = Stream.getVluimsbf8Loop v groups br.rest := by
  induction groups generalizing br v with
  | zero => rfl
  | succ groups ih =>
    rw [getVluimsbf8Loop, Stream.getVluimsbf8Loop, ← onRest_get]
    cases br.get 1 with
    | none => rfl
    | some p =>
      obtain ⟨cont, br1⟩ := p
      simp only [onRest, map_some]
      rw [← onRest_get]
      cases br1.get 7 with
      | none => rfl
      | some q =>
        obtain ⟨group, br2⟩ := q
        simp only [onRest, map_some]
        split
        · rfl
        · split
          · rfl
          · exact ih br2 _

theorem onRest_getVluimsbf8 : onRest br.getVluimsbf8 = Stream.getVluimsbf8 br.rest :=
  br.onRest_getVluimsbf8Loop 0 _

theorem onRest_getVluimsbf5Prefix (n left : Nat) :
    onRest (br.getVluimsbf5Prefix n left) = Stream.getVluimsbf5Prefix n left br.rest := by
  induction left generalizing br n with
  | zero => rfl
  | succ left ih =>
    rw [getVluimsbf5Prefix, Stream.getVluimsbf5Prefix, ← onRest_get]
    cases br.get 1 with
    | none => rfl
    | some p =>
      obtain ⟨bit, br1⟩ := p
      simp only [onRest, map_some]
      split
      · rfl
      · exact ih br1 _

theorem onRest_getVluimsbf5 : onRest br.getVluimsbf5 = Stream.getVluimsbf5 br.rest := by
  rw [getVluimsbf5, Stream.getVluimsbf5, ← onRest_getVluimsbf5Prefix]
  cases br.getVluimsbf5Prefix 0 vluimsbf5MaxGroups with
  | none => rfl
  | some p => exact p.2.onRest_get _

theorem onRest_getEach (n : Nat) : onRest (br.getEach n) = Stream.getBytes n br.rest := by
  induction n generalizing br with
  | zero => rfl
  | succ n ih =>
    rw [getEach, Stream.getBytes, ← onRest_get]
    cases br.get 8 with
    | none => rfl
    | some p =>
      obtain ⟨c, br1⟩ := p
      simp only [onRest, map_some]
      rw [← ih br1]
      cases br1.getEach n with
      | none => rfl
      | some q => rfl

end BitReader

end DvbIpiTools.Bim
