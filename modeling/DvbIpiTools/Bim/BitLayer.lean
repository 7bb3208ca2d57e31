import DvbIpiTools.Bim.BitReader

set_option autoImplicit false

/-! # The bit layer round trip

The stream operations invert the bits the writer operations append (`Stream.get_ofNat`,
`Stream.getVluimsbf8_bits`, `Stream.getVluimsbf5_bits`, `Stream.getBytes_ofBytes`), whatever follows.
From these, for every sequence of writer operations — appending another writer included — the
corresponding sequence of reader operations on the flushed buffer returns the written values and
stops inside the zero padding of the last byte. -/

namespace DvbIpiTools.Bim

open BitList List Option Nat

/-! ## Varint lengths -/

theorem groupCount_spec (step max value n : Nat) (h : n ≤ max) :
    n ≤ groupCount step max value n ∧ groupCount step max value n ≤ max ∧
      (groupCount step max value n = max ∨ value >>> (step * groupCount step max value n) = 0) := by
  induction hk : max - n generalizing n with
  | zero =>
    rw [groupCount, if_neg (by omega)]
    exact ⟨le_rfl, h, .inl (by omega)⟩
  | succ k ih =>
    rw [groupCount]
    split
    · next hc =>
      obtain ⟨h1, h2, h3⟩ := ih (n + 1) (by omega) (by omega)
      exact ⟨by omega, h2, h3⟩
    · next hc =>
      refine ⟨le_rfl, h, .inr ?_⟩
      by_contra hne
      exact hc ⟨by omega, hne⟩

theorem vluimsbf8Len_spec {v : Nat} (hv : v < 2 ^ 64) :
    1 ≤ vluimsbf8Len v ∧ vluimsbf8Len v ≤ 10 ∧ v < 2 ^ (7 * vluimsbf8Len v) := by
  obtain ⟨h1, h2, h3⟩ := groupCount_spec 7 vluimsbf8MaxGroups v 1 (by decide)
  refine ⟨h1, h2, ?_⟩
  rw [← vluimsbf8Len] at h3
  rcases h3 with h3 | h3
  · rw [h3]; exact lt_of_lt_of_le hv (by decide)
  · rw [shiftRight_eq_div_pow] at h3
    exact Nat.lt_of_div_eq_zero (Nat.two_pow_pos _) h3

theorem vluimsbf5Len_spec {v : Nat} (hv : v < 2 ^ 64) :
    1 ≤ vluimsbf5Len v ∧ vluimsbf5Len v ≤ 16 ∧ v < 2 ^ (4 * vluimsbf5Len v) := by
  obtain ⟨h1, h2, h3⟩ := groupCount_spec 4 vluimsbf5MaxGroups v 1 (by decide)
  refine ⟨h1, h2, ?_⟩
  rw [← vluimsbf5Len] at h3
  rcases h3 with h3 | h3
  · rw [h3]; exact lt_of_lt_of_le hv (by decide)
  · rw [shiftRight_eq_div_pow] at h3
    exact Nat.lt_of_div_eq_zero (Nat.two_pow_pos _) h3

/-! ## Stream operations on written bits -/

namespace Stream

theorem get_append {bs : List Bool} {n : Nat} (h : bs.length = n) (s : List Bool) :
    get n (bs ++ s) = some (toNat bs, s) := by
  rw [get, if_neg (by simp [h]), take_left' h, drop_left' h]

theorem get_ofNat (n v : Nat) (s : List Bool) : get n (ofNat n v ++ s) = some (v % 2 ^ n, s) := by
  rw [get_append (length_ofNat n v), toNat_ofNat]

theorem get_one (b : Bool) (s : List Bool) : get 1 (b :: s) = some (b.toNat, s) := by
  have h := @get_append [b] 1 rfl s
  simpa [BitList.toNat] using h

theorem getVluimsbf8Loop_bits (v s : _) (k groups acc : Nat) (hk : k ≤ groups) (hpos : 0 < k)
    (hacc : acc * 2 ^ (7 * k) + v % 2 ^ (7 * k) < 2 ^ 64) :
    getVluimsbf8Loop acc groups (vluimsbf8GroupBits v k ++ s)
      = some (acc * 2 ^ (7 * k) + v % 2 ^ (7 * k), s) := by
  induction k generalizing acc groups with
  | zero => omega
  | succ i ih =>
    obtain ⟨groups, rfl⟩ : ∃ g, groups = g + 1 := ⟨groups - 1, by omega⟩
    set g := (v >>> (7 * i)) % 2 ^ 7 with hg
    have hglt : g < 2 ^ 7 := mod_lt _ (by decide)
    have hsplit : v % 2 ^ (7 * (i + 1)) = g * 2 ^ (7 * i) + v % 2 ^ (7 * i) := by
      rw [hg, shiftRight_eq_div_pow, show 7 * (i + 1) = 7 * i + 7 by ring, pow_add, mod_mul]
      ring
    have hvalue : acc * 2 ^ (7 * (i + 1)) + v % 2 ^ (7 * (i + 1))
        = (acc <<< 7 ||| g) * 2 ^ (7 * i) + v % 2 ^ (7 * i) := by
      rw [shiftLeft_or hglt, hsplit, show 7 * (i + 1) = 7 * i + 7 by ring, pow_add]
      ring
    -- the overflow test of the reader: no value below 2^64 reaches it
    have hover : acc >>> 57 = 0 := by
      have h7 : acc * 2 ^ 7 ≤ acc * 2 ^ (7 * (i + 1)) :=
        Nat.mul_le_mul_left _ (Nat.pow_le_pow_right (by decide) (by omega))
      omega
    rw [hvalue] at hacc ⊢
    rw [vluimsbf8GroupBits, getVluimsbf8Loop, cons_append, get_one]
    simp only [append_assoc]
    rw [get_ofNat]
    simp only [hover, ne_eq, not_true_eq_false, if_false, ← hg]
    rcases Nat.eq_zero_or_pos i with rfl | hi
    · simp [vluimsbf8GroupBits, mod_one]
    · rw [if_neg (by simp; omega)]
      exact ih groups _ (by omega) hi hacc

theorem getVluimsbf8_bits {v : Nat} (hv : v < 2 ^ 64) (s : List Bool) :
    getVluimsbf8 (vluimsbf8Bits v ++ s) = some (v, s) := by
  obtain ⟨h1, h2, h3⟩ := vluimsbf8Len_spec hv
  have hmod : v % 2 ^ (7 * vluimsbf8Len v) = v := mod_eq_of_lt h3
  have hmax : vluimsbf8Len v ≤ vluimsbf8MaxGroups := h2
  rw [getVluimsbf8, vluimsbf8Bits, getVluimsbf8Loop_bits v s _ _ 0 hmax h1 (by omega)]
  simp [hmod]

theorem getVluimsbf5Prefix_ones (k left n : Nat) (h : k < left) (s : List Bool) :
    getVluimsbf5Prefix n left (replicate k true ++ false :: s) = some (n + k + 1, s) := by
  induction k generalizing left n with
  | zero =>
    obtain ⟨left, rfl⟩ : ∃ l, left = l + 1 := ⟨left - 1, by omega⟩
    simp [getVluimsbf5Prefix, get_one]
  | succ k ih =>
    obtain ⟨left, rfl⟩ : ∃ l, left = l + 1 := ⟨left - 1, by omega⟩
    rw [replicate_succ, cons_append, getVluimsbf5Prefix, get_one]
    simp only [Bool.toNat_true, one_ne_zero, if_false]
    rw [ih left (n + 1) (by omega)]
    congr 2; omega

theorem getVluimsbf5_bits {v : Nat} (hv : v < 2 ^ 64) (s : List Bool) :
    getVluimsbf5 (vluimsbf5Bits v ++ s) = some (v, s) := by
  obtain ⟨h1, h2, h3⟩ := vluimsbf5Len_spec hv
  have hn : 0 + (vluimsbf5Len v - 1) + 1 = vluimsbf5Len v := by omega
  rw [getVluimsbf5, vluimsbf5Bits, append_assoc, cons_append,
    getVluimsbf5Prefix_ones _ _ _ (by unfold vluimsbf5MaxGroups; omega), hn]
  simp only
  rw [get_ofNat, mul_comm, mod_eq_of_lt h3]

theorem getBytes_ofBytes (data : List UInt8) (s : List Bool) :
    getBytes data.length (ofBytes data ++ s) = some (data, s) := by
  induction data with
  | nil => rfl
  | cons b data ih =>
    have hb : b.toNat % 2 ^ 8 = b.toNat := mod_eq_of_lt (by simpa using b.toNat_lt)
    rw [length_cons, getBytes, ofBytes_cons, append_assoc, get_ofNat, hb]
    simp [ih]

theorem getBytes_short (n : Nat) (s : List Bool) (h : s.length < 8 * n) : getBytes n s = none := by
  induction n generalizing s with
  | zero => omega
  | succ n ih =>
    rw [getBytes, get]
    by_cases hs : 8 > s.length
    · simp [hs]
    · simp only [hs, if_false]
      rw [ih _ (by rw [length_drop]; omega)]

end Stream

/-! ## The reader's byte copy -/

namespace BitReader

theorem getEach_buf {br br' : BitReader} {n : Nat} {out : List UInt8}
    (h : br.getEach n = some (out, br')) : br'.buf = br.buf := by
  induction n generalizing br br' out with
  | zero =>
    simp only [getEach, some.injEq, Prod.mk.injEq] at h
    rw [h.2]
  | succ n ih =>
    rw [getEach] at h
    split at h
    · cases h
    rename_i c br1 h8
    split at h
    · cases h
    · next out' br2 hrec =>
      simp only [some.injEq, Prod.mk.injEq] at h
      rw [← h.2, ih hrec, get_buf h8]

/-- The `memcpy` of `bitreader_get_bytes` copies what the byte-by-byte loop reads. -/
theorem getBytes_eq_getEach (br : BitReader) (n : Nat) : br.getBytes n = br.getEach n := by
  have hsim := br.onRest_getEach n
  unfold getBytes
  split
  · next h =>
    rw [Stream.getBytes_short n br.rest (by rw [length_rest]; omega)] at hsim
    exact (map_eq_none_iff.1 hsim).symm
  rename_i h
  split
  · next hpos =>
    have hn : n ≤ (br.buf.drop br.bytePos).length := by rw [length_drop]; simp only [bitsLeft] at h; omega
    have hrest : br.rest = ofBytes ((br.buf.drop br.bytePos).take n)
        ++ ofBytes (br.buf.drop (br.bytePos + n)) := by
      rw [rest, hpos, add_zero, drop_ofBytes, ← ofBytes_append, ← drop_drop, take_append_drop]
    have hlen : ((br.buf.drop br.bytePos).take n).length = n := by rw [length_take, min_eq_left hn]
    have hread := Stream.getBytes_ofBytes ((br.buf.drop br.bytePos).take n)
      (ofBytes (br.buf.drop (br.bytePos + n)))
    rw [hlen, ← hrest, ← hsim] at hread
    obtain ⟨⟨out, br'⟩, hsome, heq⟩ := map_eq_some_iff.1 hread
    simp only [Prod.mk.injEq] at heq
    rw [hsome, heq.1]
    congr 2
    refine eq_of_rest_eq (getEach_buf hsome).symm ?_
    rw [heq.2, ← drop_ofBytes]
    simp only [rest, hpos, add_zero]
  · rfl

theorem onRest_map {α β : Type} {r : Option (α × BitReader)} {a : α} {s : List Bool} (h : onRest r = some (a, s))
    (f : α → β) : onRest (r.map fun p => (f p.1, p.2)) = some (f a, s) := by
  obtain ⟨p, rfl, heq⟩ := map_eq_some_iff.1 h
  obtain ⟨rfl, rfl⟩ := heq
  rfl

theorem onRest_getBytes (br : BitReader) (n : Nat) : onRest (br.getBytes n) = Stream.getBytes n br.rest := by
  rw [getBytes_eq_getEach, onRest_getEach]

end BitReader

/-! ## Sequences of operations -/

/-- One writer operation. `append` takes the other writer as the operations that built it. -/
inductive WOp where
  | put (value : UInt64) (nbits : Fin 65)
  | putBytes (data : List UInt8)
  | putVluimsbf8 (value : UInt64)
  | putVluimsbf5 (value : UInt64)
  | append (src : List WOp)

/-- What one reader operation returns. -/
inductive RVal where
  | num (value : Nat)
  | bytes (data : List UInt8)

namespace WOp

mutual

/-- The operation performed on a writer. -/
def run : WOp → BitWriter → BitWriter
  | .put value nbits, bw => bw.put value.toNat nbits
  | .putBytes data, bw => bw.putBytes data
  | .putVluimsbf8 value, bw => bw.putVluimsbf8 value.toNat
  | .putVluimsbf5 value, bw => bw.putVluimsbf5 value.toNat
  | .append src, bw => bw.append (runAll src BitWriter.init)

def runAll : List WOp → BitWriter → BitWriter
  | [], bw => bw
  | op :: ops, bw => runAll ops (run op bw)

end

mutual

/-- The values written: each `bitwriter_put` value modulo `2^nbits`, the others as they are. -/
def written : WOp → List RVal
  | .put value nbits => [.num (value.toNat % 2 ^ nbits.val)]
  | .putBytes data => [.bytes data]
  | .putVluimsbf8 value => [.num value.toNat]
  | .putVluimsbf5 value => [.num value.toNat]
  | .append src => writtenAll src

def writtenAll : List WOp → List RVal
  | [] => []
  | op :: ops => written op ++ writtenAll ops

end

mutual

/-- The reader operations that correspond to a writer operation. -/
def read : WOp → BitReader → Option (List RVal × BitReader)
  | .put _ nbits, br => (br.get nbits).map fun p => ([.num p.1], p.2)
  | .putBytes data, br => (br.getBytes data.length).map fun p => ([.bytes p.1], p.2)
  | .putVluimsbf8 _, br => br.getVluimsbf8.map fun p => ([.num p.1], p.2)
  | .putVluimsbf5 _, br => br.getVluimsbf5.map fun p => ([.num p.1], p.2)
  | .append src, br => readAll src br

def readAll : List WOp → BitReader → Option (List RVal × BitReader)
  | [], br => some ([], br)
  | op :: ops, br =>
    match read op br with
    | none => none
    | some (vs, br) => (readAll ops br).map fun p => (vs ++ p.1, p.2)

end

mutual

/-- The bits an operation appends. -/
def bits : WOp → List Bool
  | .put value nbits => ofNat nbits value.toNat
  | .putBytes data => ofBytes data
  | .putVluimsbf8 value => vluimsbf8Bits value.toNat
  | .putVluimsbf5 value => vluimsbf5Bits value.toNat
  | .append src => bitsAll src

def bitsAll : List WOp → List Bool
  | [] => []
  | op :: ops => bits op ++ bitsAll ops

end

mutual

theorem bits_run (op : WOp) (bw : BitWriter) : (op.run bw).bits = bw.bits ++ op.bits := by
  cases op with
  | put value nbits => exact bw.bits_put _ _
  | putBytes data => exact bw.bits_putBytes data
  | putVluimsbf8 value => exact bw.bits_putVluimsbf8 _
  | putVluimsbf5 value => exact bw.bits_putVluimsbf5 _
  | append src => rw [run, bits, BitWriter.bits_append, bits_runAll src, BitWriter.bits_init, nil_append]

theorem bits_runAll (ops : List WOp) (bw : BitWriter) : (runAll ops bw).bits = bw.bits ++ bitsAll ops := by
  cases ops with
  | nil => rw [runAll, bitsAll, append_nil]
  | cons op ops => rw [runAll, bitsAll, bits_runAll ops, bits_run op, append_assoc]

end

theorem append_runAll (src : List WOp) (dst : BitWriter) : dst.append (runAll src BitWriter.init) = runAll src dst := by
  apply BitWriter.eq_of_bits_eq
  rw [BitWriter.bits_append, bits_runAll, bits_runAll, BitWriter.bits_init, nil_append]

mutual

theorem read_bits (op : WOp) (br : BitReader) (s : List Bool) (h : br.rest = op.bits ++ s) :
    BitReader.onRest (op.read br) = some (op.written, s) := by
  cases op with
  | put value nbits =>
    have hget := br.onRest_get nbits
    rw [h, bits, Stream.get_ofNat] at hget
    exact BitReader.onRest_map hget fun v => [RVal.num v]
  | putBytes data =>
    have hget := br.onRest_getBytes data.length
    rw [h, bits, Stream.getBytes_ofBytes] at hget
    exact BitReader.onRest_map hget fun out => [RVal.bytes out]
  | putVluimsbf8 value =>
    have hget := br.onRest_getVluimsbf8
    rw [h, bits, Stream.getVluimsbf8_bits value.toNat_lt] at hget
    exact BitReader.onRest_map hget fun v => [RVal.num v]
  | putVluimsbf5 value =>
    have hget := br.onRest_getVluimsbf5
    rw [h, bits, Stream.getVluimsbf5_bits value.toNat_lt] at hget
    exact BitReader.onRest_map hget fun v => [RVal.num v]
  | append src => rw [read, written, readAll_bits src br s h]

theorem readAll_bits (ops : List WOp) (br : BitReader) (s : List Bool) (h : br.rest = bitsAll ops ++ s) :
    BitReader.onRest (readAll ops br) = some (writtenAll ops, s) := by
  cases ops with
  | nil =>
    rw [bitsAll, nil_append] at h
    rw [readAll, writtenAll, ← h]
    rfl
  | cons op ops =>
    rw [bitsAll, append_assoc] at h
    obtain ⟨⟨vs, br'⟩, hread, heq⟩ := map_eq_some_iff.1 (read_bits op br _ h)
    simp only [Prod.mk.injEq] at heq
    obtain ⟨rfl, hrest⟩ := heq
    rw [readAll, hread, writtenAll]
    exact BitReader.onRest_map (readAll_bits ops br' s hrest) _

end

end WOp

/-- The bit layer round trip. Reading back the flushed buffer of any sequence of operations on a fresh
    writer gives the written values and stops fewer than eight zero bits before the end; appending a
    writer is performing its operations; and the `memcpy` and whole-byte paths of writer and reader
    compute what the bit-by-bit paths compute. -/
theorem bitLayer_round_trip (ops : List WOp) :
    (∃ br, WOp.readAll ops (BitReader.init (WOp.runAll ops BitWriter.init).data)
        = some (WOp.writtenAll ops, br) ∧ br.bitsLeft < 8 ∧ ∀ b ∈ br.rest, b = false) ∧
      (∀ dst, dst.append (WOp.runAll ops BitWriter.init) = WOp.runAll ops dst) ∧
      (∀ (bw : BitWriter) (data : List UInt8), bw.putBytes data = bw.putEach data) ∧
      (∀ (br : BitReader) (nbits : Nat), br.get nbits = br.getBitwise nbits) ∧
      ∀ (br : BitReader) (n : Nat), br.getBytes n = br.getEach n := by
  refine ⟨?_, WOp.append_runAll ops, ?_, BitReader.get_eq_getBitwise, BitReader.getBytes_eq_getEach⟩
  · set w := WOp.runAll ops BitWriter.init with hw
    have hrest : (BitReader.init w.data).rest = WOp.bitsAll ops ++ w.padding := by
      rw [BitReader.rest_init, BitWriter.ofBytes_data, hw, WOp.bits_runAll, BitWriter.bits_init, nil_append]
    obtain ⟨⟨vs, br⟩, hread, heq⟩ := map_eq_some_iff.1 (WOp.readAll_bits ops _ _ hrest)
    simp only [Prod.mk.injEq] at heq
    obtain ⟨rfl, hpad⟩ := heq
    refine ⟨br, hread, ?_, ?_⟩
    · rw [← BitReader.length_rest, hpad, BitWriter.padding, length_replicate]
      exact mod_lt _ (by decide)
    · intro b hb
      rw [hpad] at hb
      exact eq_of_mem_replicate hb
  · intro bw data
    apply BitWriter.eq_of_bits_eq
    rw [BitWriter.bits_putBytes, BitWriter.bits_putEach]

end DvbIpiTools.Bim
