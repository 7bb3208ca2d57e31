import DvbIpiTools.Helper.BeUtil
import Mathlib.Data.List.TakeWhile
import Mathlib.Data.Nat.Bitwise

set_option autoImplicit false

/-! # Metrics snapshots on the wire (`metrics/protocol.c`)

A buffer is the list of its bytes in use. A function that would read behind them is none. -/

namespace DvbIpiTools.Metrics

open BeUtil List Nat

def protoV1 : UInt8 := 1
def protoVersion : UInt8 := 2
def flagLast : UInt8 := 0x01
def maxParts : Nat := 64
def maxSnapshotBytes : Nat := 4096
def idMax : Nat := 32
def labelMax : Nat := 63
def hdrLen : Nat := 4 + idMax + 8 + 8 + 8
def groupMaxEntries : Nat := 255

/-! ## The header -/

/-- `metrics_component_t`. -/
inductive Component where
  | tvhead | radiohead | sds | bcg | rist | recording | descramble | cam378 | fccret | srt | xy
  deriving DecidableEq

namespace Component

/-- The components in the order of their wire values, which begin at 1. -/
def all : List Component := [tvhead, radiohead, sds, bcg, rist, recording, descramble, cam378, fccret, srt, xy]

def toWire (c : Component) : UInt8 := UInt8.ofNat (all.idxOf c + 1)

def ofWire (b : UInt8) : Option Component := if b.toNat = 0 then none else all[b.toNat - 1]?

theorem ofWire_toWire (c : Component) : ofWire c.toWire = some c := by cases c <;> decide

end Component

/-- The characters of a C string in a buffer. -/
def cstr (s : List UInt8) : List UInt8 := s.takeWhile (· ≠ 0)

/-- The string in a `metrics_id` array. -/
structure MetricsId where
  chars : List UInt8
  noNul : 0 ∉ chars
  fits : chars.length < idMax
  deriving DecidableEq

/-- The string in an array whose last byte has been set to 0. -/
def MetricsId.ofField (field : List UInt8) : MetricsId where
  chars := cstr (field.take (idMax - 1))
  noNul := fun h => by simpa using mem_takeWhile_imp h
  fits := by
    have h := (takeWhile_sublist (· ≠ 0) (l := field.take (idMax - 1))).length_le
    rw [length_take] at h
    unfold cstr idMax at *
    omega

/-- The array that `bufcpy` leaves of cleared memory. -/
def MetricsId.field (m : MetricsId) : List UInt8 := m.chars ++ replicate (idMax - m.chars.length) 0

@[simp] theorem MetricsId.length_field (m : MetricsId) : m.field.length = idMax := by
  have := m.fits
  rw [MetricsId.field, length_append, length_replicate]
  omega

theorem MetricsId.ext_chars {m m' : MetricsId} (h : m.chars = m'.chars) : m = m' := by
  cases m
  cases m'
  simpa using h

theorem cstr_append_nul {s : List UInt8} (h : 0 ∉ s) (t : List UInt8) : cstr (s ++ 0 :: t) = s := by
  induction s with
  | nil => rfl
  | cons b s ih =>
    have hb : b ≠ 0 := fun hb => h (hb ▸ mem_cons_self ..)
    have hs : 0 ∉ s := fun hs => h (.tail _ hs)
    rw [cons_append, cstr, takeWhile_cons_of_pos (by simpa using hb)]
    exact congrArg _ (ih hs)

theorem cstr_eq_self {s : List UInt8} (h : 0 ∉ s) : cstr s = s := by
  rw [cstr, takeWhile_eq_self_iff]
  intro b hb
  simpa using fun h0 : b = 0 => h (h0 ▸ hb)

theorem MetricsId.ofField_field (m : MetricsId) (rest : List UInt8) : ofField (m.field ++ rest) = m := by
  have hfits := m.fits
  apply ext_chars
  show cstr ((m.field ++ rest).take (idMax - 1)) = m.chars
  have hlen : (m.field ++ rest).take (idMax - 1)
      = m.chars ++ replicate (idMax - 1 - m.chars.length) 0 := by
    rw [take_append_of_le_length (by rw [length_field]; omega), field, take_append,
      take_of_length_le (by omega), take_replicate]
    congr 2
    omega
  rw [hlen]
  cases hn : idMax - 1 - m.chars.length with
  | zero => rw [replicate_zero, append_nil, cstr_eq_self m.noNul]
  | succ n => rw [replicate_succ, cstr_append_nul m.noNul]

/-- `metrics_hdr_t`. -/
structure Hdr where
  protoVersion : UInt8
  component : Component
  metricsId : MetricsId
  processStartTime : UInt64
  sequence : UInt64
  snapshotTime : UInt64
  part : UInt8
  flags : UInt8

/-! ## Variable length integers -/

/-- The loop of `varint_len`; nine shifts bring every 64 bit value below 0x80. -/
def varintLenLoop : Nat → Nat → Nat
  | 0, _ => 1
  | n + 1, v => if 0x80 ≤ v then varintLenLoop n (v >>> 7) + 1 else 1

def varintLen (v : UInt64) : Nat := varintLenLoop 9 v.toNat

/-- The loop of `put_varint`. -/
def putVarintLoop : Nat → Nat → List UInt8
  | 0, v => [UInt8.ofNat v]
  | n + 1, v => if 0x80 ≤ v then UInt8.ofNat (v ||| 0x80) :: putVarintLoop n (v >>> 7) else [UInt8.ofNat v]

def putVarint (v : UInt64) : List UInt8 := putVarintLoop 9 v.toNat

/-- The loop of `get_varint` at its byte `i`: the value and how many bytes it takes. -/
def getVarintLoop : List UInt8 → Nat → Nat → Option (Nat × Nat)
  | [], _, _ => none
  | b :: p, i, acc =>
    if 10 ≤ i then none
    else if i = 9 ∧ 1 < b.toNat then none
    else
      -- no bit is lost: the tenth byte is 0 or 1
      let acc := acc ||| (b.toNat &&& 0x7F) <<< (7 * i)
      if b.toNat &&& 0x80 = 0 then some (acc, i + 1) else getVarintLoop p (i + 1) acc

/-- `get_varint` on the bytes that are there. -/
def getVarint (p : List UInt8) : Option (UInt64 × Nat) := (getVarintLoop p 0 0).map fun (v, n) => (UInt64.ofNat v, n)

variable (v : UInt64)

@[simp] theorem length_putVarint : (putVarint v).length = varintLen v := by
  have hloop : ∀ n v, (putVarintLoop n v).length = varintLenLoop n v := by
    intro n
    induction n with
    | zero => exact fun _ => rfl
    | succ n ih =>
      intro v
      rw [putVarintLoop, varintLenLoop]
      split
      · rw [length_cons, ih]
      · rfl
  exact hloop 9 v.toNat

theorem varintLen_le : varintLen v ≤ 10 := by
  have hloop : ∀ n v, varintLenLoop n v ≤ n + 1 := by
    intro n
    induction n with
    | zero => exact fun _ => le_rfl
    | succ n ih =>
      intro v
      rw [varintLenLoop]
      split
      · exact succ_le_succ (ih _)
      · omega
  exact hloop 9 v.toNat

theorem varintLen_pos : 0 < varintLen v := by
  rw [varintLen, varintLenLoop]
  split <;> omega

theorem and_80_eq_zero (n : Nat) : n &&& 0x80 = 0 ↔ n / 128 % 2 = 0 := by
  have h : n &&& 0x80 = n / 2 ^ 7 % 2 * 2 ^ 7 := by
    rw [show (0x80 : Nat) = 2 ^ 7 from rfl, and_two_pow, toNat_testBit]
  omega

theorem or_80_mod (v : Nat) : (v ||| 0x80) % 256 = v % 128 + 128 := by
  have hbyte : ∀ w : Fin 256, (w.val ||| 0x80) = w.val % 128 + 128 := by decide +kernel
  have hlow : (v ||| 0x80) % 2 ^ 8 = v % 2 ^ 8 ||| 0x80 := or_mod_two_pow
  have hv : (v % 2 ^ 8 ||| 0x80) = v % 2 ^ 8 % 128 + 128 := hbyte ⟨v % 2 ^ 8, mod_lt _ (by decide)⟩
  omega

theorem or_shiftLeft {acc i : Nat} (h : acc < 2 ^ i) (d : Nat) : acc ||| d <<< i = acc + d * 2 ^ i := by
  rw [Nat.or_comm, ← Nat.shiftLeft_add_eq_or_of_lt h, Nat.shiftLeft_eq, add_comm]

theorem getVarintLoop_putVarintLoop {n i v acc : Nat} (hn : n + i = 9) (hv : v < 2 ^ (64 - 7 * i)) (hacc : acc < 2 ^ (7 * i))
    (rest : List UInt8) :
    getVarintLoop (putVarintLoop n v ++ rest) i acc = some (acc + v * 2 ^ (7 * i), i + (putVarintLoop n v).length) := by
  have h7 : ∀ n, n &&& 0x7F = n % 128 := fun n => and_two_pow_sub_one_eq_mod n 7
  induction n generalizing i v acc with
  | zero =>
    obtain rfl : i = 9 := by omega
    have hbyte : (UInt8.ofNat v).toNat = v := by
      rw [UInt8.toNat_ofNat']
      omega
    rw [putVarintLoop, singleton_append, getVarintLoop, if_neg (by omega), hbyte, if_neg (by omega)]
    simp only [and_80_eq_zero, h7, or_shiftLeft hacc]
    rw [if_pos (by omega), mod_eq_of_lt (by omega)]
    rfl
  | succ n ih =>
    rw [putVarintLoop]
    split
    · rename_i hbig
      have hbyte : (UInt8.ofNat (v ||| 0x80)).toNat = v % 128 + 128 := by rw [UInt8.toNat_ofNat', or_80_mod]
      have hshift : v >>> 7 = v / 128 := Nat.shiftRight_eq_div_pow v 7
      have hpow : 2 ^ (64 - 7 * i) = 2 ^ (64 - 7 * (i + 1)) * 128 := by
        rw [show 64 - 7 * i = 64 - 7 * (i + 1) + 7 by omega, Nat.pow_add]
      have hpow' : 2 ^ (7 * (i + 1)) = 2 ^ (7 * i) * 128 := by rw [Nat.mul_succ, Nat.pow_add]
      have hacc' : acc + v % 128 * 2 ^ (7 * i) < 2 ^ (7 * (i + 1)) := by
        have := mul_le_mul_right (2 ^ (7 * i)) (show v % 128 + 1 ≤ 128 by omega)
        rw [add_mul] at this
        omega
      have hrest := ih (i := i + 1) (v := v >>> 7) (by omega)
        (by rw [hshift]; exact Nat.div_lt_of_lt_mul (by rw [Nat.mul_comm, ← hpow]; exact hv)) hacc'
      rw [cons_append, getVarintLoop, if_neg (by omega), if_neg (by omega)]
      simp only [hbyte, and_80_eq_zero, h7, or_shiftLeft hacc]
      rw [if_neg (by omega), show (v % 128 + 128) % 128 = v % 128 by omega, hrest, length_cons, hshift, hpow']
      refine congrArg some (Prod.ext ?_ (by simp only; omega))
      conv_rhs => rw [show v = v % 128 + v / 128 * 128 by omega]
      ring
    · have hbyte : (UInt8.ofNat v).toNat = v := by
        rw [UInt8.toNat_ofNat']
        omega
      rw [singleton_append, getVarintLoop, if_neg (by omega), hbyte, if_neg (by omega)]
      simp only [and_80_eq_zero, h7, or_shiftLeft hacc]
      rw [if_pos (by omega), mod_eq_of_lt (by omega)]
      rfl

theorem getVarint_putVarint (rest : List UInt8) : getVarint (putVarint v ++ rest) = some (v, (putVarint v).length) := by
  have h := @getVarintLoop_putVarintLoop 9 0 v.toNat 0 rfl v.toNat_lt (by decide) rest
  rw [getVarint, putVarint, h]
  simp

theorem getVarintLoop_local {p : List UInt8} {i acc v n : Nat} (h : getVarintLoop p i acc = some (v, n)) :
    i < n ∧ n ≤ i + p.length ∧ ∀ rest, getVarintLoop (p.take (n - i) ++ rest) i acc = some (v, n) := by
  induction p generalizing i acc with
  | nil => cases h
  | cons b p ih =>
    have hnext : ∀ k rest, getVarintLoop ((b :: p).take (k + 1) ++ rest) i acc
        = getVarintLoop (b :: (p.take k ++ rest)) i acc := fun _ _ => rfl
    rw [getVarintLoop] at h
    split at h
    · cases h
    rename_i hi
    split at h
    · cases h
    rename_i hnine
    split at h
    · rename_i hlast
      cases h
      refine ⟨lt_succ_self i, by rw [length_cons]; omega, fun rest => ?_⟩
      rw [show i + 1 - i = 0 + 1 by omega, hnext, getVarintLoop, if_neg hi, if_neg hnine]
      exact if_pos hlast
    · rename_i hmore
      obtain ⟨hlt, hle, hrest⟩ := ih h
      refine ⟨by omega, by rw [length_cons]; omega, fun rest => ?_⟩
      rw [show n - i = n - (i + 1) + 1 by omega, hnext, getVarintLoop, if_neg hi, if_neg hnine]
      exact (if_neg hmore).trans (hrest rest)

theorem getVarint_local {p : List UInt8} {v : UInt64} {n : Nat} (h : getVarint p = some (v, n)) :
    0 < n ∧ n ≤ p.length ∧ ∀ rest, getVarint (p.take n ++ rest) = some (v, n) := by
  obtain ⟨⟨w, k⟩, hw, hk⟩ := Option.map_eq_some_iff.1 h
  cases hk
  obtain ⟨hpos, hle, hrest⟩ := getVarintLoop_local hw
  rw [Nat.sub_zero] at hrest
  exact ⟨hpos, by omega, fun rest => by rw [getVarint, hrest rest]; rfl⟩

/-! ## The writer -/

/-- `metrics_writer_t`: no bytes in use is an unusable writer. `flushed` are the parts that went out. -/
structure Writer where
  buf : List UInt8 := []
  grp : Nat := 0
  grpCount : Nat := 0
  part : Nat := 0
  flushed : List (List UInt8) := []

/-- `metrics_flush_fn`, or NULL: whether the last of the parts it has been given goes out. -/
abbrev Flush := Option (List (List UInt8) → Bool)

/-- `metrics_writer_begin`: what it returns, and the writer. -/
def metricsWriterBegin (hdr : Hdr) : Bool × Writer :=
  if hdr.protoVersion ≠ protoVersion ∨ hdr.metricsId.chars = [] then (false, {})
  else
    (true, { buf := [hdr.protoVersion, hdr.component.toWire, 0, 0] ++ hdr.metricsId.field
                ++ bePut 8 hdr.processStartTime.toNat ++ bePut 8 hdr.sequence.toNat ++ bePut 8 hdr.snapshotTime.toNat })

/-- The part number and the flags put into the header. -/
def setPart (buf : List UInt8) (part : Nat) (flags : UInt8) : List UInt8 := (buf.set 2 (.ofNat part)).set 3 flags

def writerFlushPart (flush : Flush) (w : Writer) : Bool × Writer :=
  match flush with
  | none => (false, { w with buf := [] })
  | some send =>
    if maxParts ≤ w.part + 1 then (false, { w with buf := [] })
    else
      let buf := setPart w.buf w.part 0
      if send (w.flushed ++ [buf]) then
        (true, { buf := buf.take hdrLen, grp := 0, grpCount := 0, part := w.part + 1, flushed := w.flushed ++ [buf] })
      else (false, { w with buf := [] })

/-- The loop that takes a cut back to a byte that does not continue a character. -/
def backOff (label : List UInt8) : Nat → Nat
  | 0 => 0
  | n + 1 => if label.getD (n + 1) 0 &&& 0xC0 = 0x80 then backOff label n else n + 1

/-- The label that is written for one given; none is NULL. -/
def writtenLabel (label : Option (List UInt8)) : List UInt8 :=
  let s := cstr (label.getD [])
  if labelMax < s.length then s.take (backOff s labelMax) else s

/-- Whether an entry with this label goes into the group that is open. -/
def Writer.SameGroup (w : Writer) (label : List UInt8) : Prop :=
  w.grp ≠ 0 ∧ w.grpCount < groupMaxEntries ∧ byteAt w.buf w.grp = label.length ∧
    (w.buf.drop (w.grp + 1)).take label.length = label

instance (w : Writer) (label : List UInt8) : Decidable (w.SameGroup label) :=
  inferInstanceAs (Decidable (_ ∧ _ ∧ _ ∧ _))

/-- A group is opened; its count is set with the first entry. -/
def Writer.openGroup (w : Writer) (label : List UInt8) : Writer :=
  { w with grp := w.buf.length, grpCount := 0, buf := w.buf ++ UInt8.ofNat label.length :: (label ++ [0]) }

/-- An entry is put into the open group, and counted there. -/
def Writer.addEntry (w : Writer) (id : UInt16) (label : List UInt8) (value : UInt64) : Writer := { w with
    grpCount := w.grpCount + 1
    buf := (w.buf ++ bePut 2 id.toNat ++ putVarint value).set (w.grp + 1 + label.length) (.ofNat (w.grpCount + 1)) }

/-- The end of `metrics_writer_put`, after the part before has been sent where that was needed. -/
def Writer.place (w : Writer) (same : Bool) (id : UInt16) (label : List UInt8) (value : UInt64) : Writer :=
  (if same then w else w.openGroup label).addEntry id label value

def metricsWriterPut (flush : Flush) (w : Writer) (id : UInt16) (label : Option (List UInt8)) (value : UInt64) :
    Bool × Writer :=
  if w.buf.length = 0 then (false, w)
  else
    let label := writtenLabel label
    let same := decide (w.SameGroup label)
    let need := 2 + varintLen value + if same then 0 else 2 + label.length
    if maxSnapshotBytes < w.buf.length + need then
      match writerFlushPart flush w with
      | (false, w) => (false, w)
      | (true, w) => (true, w.place false id label value)
    else (true, w.place same id label value)

def metricsZigzag (v : Int64) : UInt64 := if v < 0 then (~~~v).toUInt64 <<< 1 ||| 1 else v.toUInt64 <<< 1

def metricsUnzigzag (v : UInt64) : Int64 := (v >>> 1).toInt64 ^^^ -(v &&& 1).toInt64

def metricsWriterPutSigned (flush : Flush) (w : Writer) (id : UInt16) (label : Option (List UInt8)) (value : Int64) :
    Bool × Writer := metricsWriterPut flush w id label (metricsZigzag value)

/-- `metrics_writer_finish`: the length it returns, and the writer with the last part in its buffer. -/
def metricsWriterFinish (w : Writer) : Nat × Writer :=
  if w.buf.length = 0 then (0, w) else (w.buf.length, { w with buf := setPart w.buf w.part flagLast })

/-! ## The reader -/

/-- An entry of a snapshot. -/
structure Entry where
  id : UInt16
  label : List UInt8
  value : UInt64
  deriving DecidableEq

/-- What a reader returns: 1 with an entry, 0 at the end, -1. -/
inductive Next where
  | entry (e : Entry)
  | done
  | malformed
  deriving DecidableEq

/-- `metrics_reader_t`. -/
structure Reader where
  buf : List UInt8
  pos : Nat := 0
  version : UInt8
  labelOff : Nat := 0
  labelLen : Nat := 0
  grpLeft : Nat := 0

/-- `n` bytes of a buffer; none when some of them are behind its end. -/
def slice (buf : List UInt8) (off n : Nat) : Option (List UInt8) :=
  if off + n ≤ buf.length then some ((buf.drop off).take n) else none

/-- `len - pos`, in unsigned numbers: none where it would wrap. -/
def Reader.left (r : Reader) : Option Nat := if r.pos ≤ r.buf.length then some (r.buf.length - r.pos) else none

def metricsReaderInitBody (version : UInt8) (body : List UInt8) : Reader := { buf := body, version }

/-- `metrics_reader_init`: the header; none is -1. The reader it sets up is one of the body. -/
def metricsReaderInit (buf : List UInt8) : Option Hdr :=
  if buf.length < hdrLen then none
  else
    let version := buf.getD 0 0
    if version ≠ protoV1 ∧ version ≠ protoVersion then none
    else
      match Component.ofWire (buf.getD 1 0) with
      | none => none
      | some component =>
        let metricsId := MetricsId.ofField (buf.drop 4)
        if metricsId.chars = [] then none
        else
          some {
            protoVersion := version
            component
            metricsId
            processStartTime := .ofNat (beGet buf (4 + idMax) 8)
            sequence := .ofNat (beGet buf (4 + idMax + 8) 8)
            snapshotTime := .ofNat (beGet buf (4 + idMax + 16) 8)
            part := if version = protoVersion then buf.getD 2 0 else 0
            flags := if version = protoVersion then buf.getD 3 0 else flagLast }

def nextV1 (r : Reader) : Option (Next × Reader) :=
  if r.pos = r.buf.length then some (.done, r)
  else do
    let left ← r.left
    if left < 3 then return (.malformed, r)
    let ll ← r.buf[r.pos + 2]?
    if labelMax < ll.toNat ∨ left - 3 < ll.toNat + 8 then return (.malformed, r)
    let id ← slice r.buf r.pos 2
    let label ← slice r.buf (r.pos + 3) ll.toNat
    let value ← slice r.buf (r.pos + 3 + ll.toNat) 8
    return (.entry ⟨.ofNat (beGet id 0 2), label, .ofNat (beGet value 0 8)⟩, { r with pos := r.pos + 3 + ll.toNat + 8 })

/-- The beginning of `next_v2`, which opens the next group: what is returned at once, or the reader in the group. -/
def nextGroup (r : Reader) : Option (Next ⊕ Reader) :=
  if r.pos = r.buf.length then some (.inl .done)
  else do
    let ll ← r.buf[r.pos]?
    let left ← r.left
    if labelMax < ll.toNat ∨ left < ll.toNat + 2 then return .inl .malformed
    let count ← r.buf[r.pos + 1 + ll.toNat]?
    if count.toNat = 0 then return .inl .malformed
    return .inr { r with
      grpLeft := count.toNat, labelOff := r.pos + 1, labelLen := ll.toNat, pos := r.pos + (ll.toNat + 2) }

/-- The rest of `next_v2`. -/
def nextInGroup (r : Reader) : Option (Next × Reader) := do
  let left ← r.left
  if left < 3 then return (.malformed, r)
  let p ← slice r.buf (r.pos + 2) (left - 2)
  match getVarint p with
  | none => return (.malformed, r)
  | some (value, vn) =>
    let id ← slice r.buf r.pos 2
    let label ← slice r.buf r.labelOff r.labelLen
    return (.entry ⟨.ofNat (beGet id 0 2), label, value⟩, { r with pos := r.pos + (2 + vn), grpLeft := r.grpLeft - 1 })

def nextV2 (r : Reader) : Option (Next × Reader) :=
  if r.grpLeft = 0 then do
    match ← nextGroup r with
    | .inl rc => return (rc, r)
    | .inr r => nextInGroup r
  else nextInGroup r

def metricsReaderNextRef (r : Reader) : Option (Next × Reader) := if r.version = protoV1 then nextV1 r else nextV2 r

/-- `metrics_reader_next` into a `label_out` of `labelCap` bytes, one of them the final 0. -/
def metricsReaderNext (labelCap : Nat) (r : Reader) : Option (Next × Reader) := do
  match ← metricsReaderNextRef r with
  | (.entry e, r) => return (.entry { e with label := e.label.take (labelCap - 1) }, r)
  | (rc, r) => return (rc, r)

/-- A loop over a reader: the entries up to the first call that returns none, and what that one returns. -/
def readAll (next : Reader → Option (Next × Reader)) : Nat → Reader → Option (List Entry × Next)
  | 0, _ => none
  | n + 1, r => do
    match ← next r with
    | (.entry e, r) =>
      let (es, rc) ← readAll next n r
      return (e :: es, rc)
    | (rc, _) => return ([], rc)

end DvbIpiTools.Metrics
