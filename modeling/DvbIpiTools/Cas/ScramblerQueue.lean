import DvbIpiTools.Cas.Scrambler

set_option autoImplicit false

/-! # Batches against single packets

Whatever is queued comes out in the order of the calls, each packet as the call without a queue makes it
with the key of its time. -/

namespace DvbIpiTools.Cas

open BeUtil List Nat

/-- The batches act on each entry as the calls for one block do. -/
structure Backend.Lawful (b : Backend) : Prop where
  encrypt : ∀ cw data, b.csa2EncryptBatch cw data = some (data.map (b.csa2Encrypt cw))
  decrypt : ∀ cw data, b.csa2DecryptBatch cw data = some (data.map (b.csa2Decrypt cw))

/-! ## Calls -/

inductive ScramblerCall
  | setKey (fails : Bool) (parity : Int) (cw : List UInt8)
  | encrypt (fails : Bool) (pkt : List UInt8) (parity : Int)
  | decrypt (fails : Bool) (pkt : List UInt8)
  | passthrough (pkt : List UInt8)
  | flush

/-- A call on a scrambler. -/
def Scrambler.call (b : Backend) (s : Scrambler) : ScramblerCall → Bool × List (List UInt8) × Scrambler
  | .setKey fails parity cw => s.setKey b fails parity cw
  | .encrypt fails pkt parity => s.encryptPacketQueued b fails pkt parity
  | .decrypt fails pkt => s.decryptPacketQueued b fails pkt
  | .passthrough pkt => s.passthroughQueued b pkt
  | .flush => s.flush b

/-- The keys after a call. -/
def Keys.after (k : Keys) : ScramblerCall → Keys
  | .setKey fails parity cw =>
    match parityOf parity with
    | none => k
    | some p =>
      if cw.length = cwLen k.algo ∧ fails = false then
        { k with key := fun q => if q = p then some cw else k.key q }
      else k
  | _ => k

/-- What a call makes of its packet when nothing is queued, with the keys of its time. -/
def Keys.output (b : Backend) (k : Keys) : ScramblerCall → Option (List UInt8)
  | .encrypt fails pkt parity => encryptPacket b fails k pkt parity
  | .decrypt fails pkt => decryptPacket b fails k pkt
  | .passthrough pkt => some pkt
  | _ => none

/-- A sequence of calls: all that is emitted, and the scrambler after it. -/
def Scrambler.run (b : Backend) : Scrambler → List ScramblerCall → List (List UInt8) × Scrambler
  | s, [] => ([], s)
  | s, c :: cs =>
    let (_, out, s) := s.call b c
    let (outs, s) := s.run b cs
    (out ++ outs, s)

/-- The packets one by one. -/
def Keys.outputs (b : Backend) : Keys → List ScramblerCall → List (List UInt8)
  | _, [] => []
  | k, c :: cs => (k.output b c).toList ++ (k.after c).outputs b cs

/-! ## What is pending -/

namespace Scrambler

/-- The cipher that the batch will be given to. -/
def cipher (b : Backend) (s : Scrambler) : List UInt8 → List UInt8 :=
  match s.parity.bind s.keys.key with
  | none => id
  | some cw => if s.mode = .encrypt then b.csa2Encrypt cw else b.csa2Decrypt cw

/-- An entry as it will be emitted. -/
def finished (f : List UInt8 → List UInt8) (e : Entry) : List UInt8 :=
  if e.needsCrypto then onPayload f e.payloadOff e.payloadSize e.pkt else e.pkt

def pending (b : Backend) (s : Scrambler) : List (List UInt8) := s.queue.map (finished (s.cipher b))

/-- The queue is within its bounds, and a batch has its key. -/
structure Queued (s : Scrambler) : Prop where
  cap_eq : s.cap = s.batchSize * queueCapMultiplier
  length_le : s.queue.length ≤ s.cap
  count_eq : s.scrambledCount = (s.queue.filter Entry.needsCrypto).length
  count_le : s.scrambledCount ≤ s.batchSize
  key : 0 < s.scrambledCount → (s.parity.bind s.keys.key).isSome
  csa2 : s.cap ≠ 0 → s.keys.algo = .csa2

/-- The state `t` after emitting `out`, to which `own` has been added. -/
structure Adds (b : Backend) (s : Scrambler) (own out : List (List UInt8)) (t : Scrambler) : Prop where
  emitted : out ++ t.pending b = s.pending b ++ own
  queued : t.Queued
  count_lt : t.cap ≠ 0 → t.scrambledCount < t.batchSize
  keys : t.keys = s.keys
  cap : t.cap = s.cap

variable {s : Scrambler}

theorem Adds.refl (b : Backend) (h : s.Queued) (hlt : s.cap ≠ 0 → s.scrambledCount < s.batchSize) : Adds b s [] [] s :=
  ⟨by rw [append_nil, nil_append], h, hlt, rfl, rfl⟩

variable {b : Backend}

theorem Adds.trans {t u : Scrambler} {own own' out out' : List (List UInt8)}
    (h : Adds b s own out t) (h' : Adds b t own' out' u) : Adds b s (own ++ own') (out ++ out') u where
  emitted := by rw [append_assoc, h'.emitted, ← append_assoc, h.emitted, append_assoc]
  queued := h'.queued
  count_lt := h'.count_lt
  keys := h'.keys.trans h.keys
  cap := h'.cap.trans h.cap

variable (f : List UInt8 → List UInt8)

theorem writeBack_map (q : List Entry) :
    writeBack q (((q.filter Entry.needsCrypto).map fun e => payload e.payloadOff e.payloadSize e.pkt).map f) =
      q.map (finished f) := by
  induction q with
  | nil => rfl
  | cons e q ih =>
    by_cases he : e.needsCrypto
    · rw [filter_cons_of_pos he, map_cons, map_cons, map_cons, ← ih]
      simp [writeBack, finished, onPayload, he]
    · rw [filter_cons_of_neg he, map_cons, ← ih]
      simp [writeBack, finished, he]

theorem map_finished_clear {q : List Entry} (h : (q.filter Entry.needsCrypto).length = 0)
    (f : List UInt8 → List UInt8) : q.map (finished f) = q.map Entry.pkt := by
  refine map_congr_left fun e he => if_neg fun hcrypto => ?_
  have hmem : e ∈ q.filter Entry.needsCrypto := mem_filter.2 ⟨he, hcrypto⟩
  rw [length_eq_zero_iff.1 h] at hmem
  cases hmem

theorem queueFlush_out (hb : b.Lawful) (hs : s.Queued) : (s.queueFlush b).1 = s.pending b := by
  rw [queueFlush]
  by_cases hempty : s.queue.length = 0
  · rw [if_pos hempty, pending, length_eq_zero_iff.1 hempty]
    rfl
  rw [if_neg hempty]
  by_cases hcount : s.scrambledCount > 0
  · have hentries : s.batchEntries =
        (s.queue.filter Entry.needsCrypto).map fun e => payload e.payloadOff e.payloadSize e.pkt := by
      rw [batchEntries, take_of_length_le]
      rw [length_map, hs.count_eq]
    obtain ⟨cw, hcw⟩ := Option.isSome_iff_exists.1 (hs.key hcount)
    have hcrypt : s.cryptBatch b = some (s.batchEntries.map (s.cipher b)) := by
      rw [cryptBatch, cipher, hcw]
      simp only []
      split
      · exact hb.encrypt cw _
      · exact hb.decrypt cw _
    simp only [if_pos hcount, hcrypt]
    rw [hentries, writeBack_map, pending]
  · simp only [if_neg hcount]
    rw [pending, map_finished_clear (by rw [← hs.count_eq]; omega)]

theorem Queued.batchSize_pos (hs : s.Queued) (hcap : s.cap ≠ 0) : 0 < s.batchSize := by
  refine pos_of_ne_zero fun h => hcap ?_
  rw [hs.cap_eq, h, zero_mul]

theorem queueFlush_adds (hb : b.Lawful) (hs : s.Queued) :
    Adds b s [] (s.queueFlush b).1 (s.queueFlush b).2 ∧ (s.queueFlush b).2.queue = [] ∧
      (s.queueFlush b).2.scrambledCount = 0 := by
  have hout := queueFlush_out hb hs
  rw [queueFlush] at hout ⊢
  by_cases hempty : s.queue.length = 0
  · rw [if_pos hempty]
    have hnil := length_eq_zero_iff.1 hempty
    have hcount : s.scrambledCount = 0 := by
      rw [hs.count_eq, hnil]
      rfl
    refine ⟨Adds.refl b hs fun hcap => ?_, hnil, hcount⟩
    rw [hcount]
    exact hs.batchSize_pos hcap
  · rw [if_neg hempty] at hout ⊢
    refine ⟨⟨?_, ?_, hs.batchSize_pos, rfl, rfl⟩, rfl, rfl⟩
    · rw [hout]
      rfl
    · exact ⟨hs.cap_eq, zero_le _, rfl, zero_le _, fun h => absurd h (lt_irrefl 0), hs.csa2⟩

/-- The pending packets do not depend on mode and parity before the first entry of a batch. -/
theorem setBatch_adds (b : Backend) (hs : s.Queued) (hlt : s.cap ≠ 0 → s.scrambledCount < s.batchSize)
    (mode : QueueMode) (parity : Option Parity) (h : 0 < s.scrambledCount → s.mode = mode ∧ s.parity = parity) :
    Adds b s [] [] { s with mode, parity } := by
  by_cases hcount : 0 < s.scrambledCount
  · obtain ⟨rfl, rfl⟩ := h hcount
    exact Adds.refl b hs hlt
  refine ⟨?_, { hs with key := fun h => absurd h hcount }, hlt, rfl, rfl⟩
  have hclear : (s.queue.filter Entry.needsCrypto).length = 0 := by
    rw [← hs.count_eq]
    omega
  rw [append_nil, nil_append, pending, pending, map_finished_clear hclear, map_finished_clear hclear]

variable (hb : b.Lawful)

include hb

theorem ensureBatch_adds (hs : s.Queued) (hlt : s.cap ≠ 0 → s.scrambledCount < s.batchSize) (mode : QueueMode)
    (parity : Option Parity) : Adds b s [] (s.ensureBatch b mode parity).1 (s.ensureBatch b mode parity).2 ∧
      (s.ensureBatch b mode parity).2.mode = mode ∧ (s.ensureBatch b mode parity).2.parity = parity := by
  rw [ensureBatch]
  by_cases hother : s.scrambledCount > 0 ∧ (s.mode ≠ mode ∨ s.parity ≠ parity)
  · rw [if_pos hother]
    obtain ⟨hflush, -, hcount⟩ := queueFlush_adds hb hs
    have hset := hflush.trans (setBatch_adds b hflush.queued hflush.count_lt mode parity (fun h => by omega))
    rw [append_nil, append_nil] at hset
    exact ⟨hset, rfl, rfl⟩
  rw [if_neg hother]
  refine ⟨setBatch_adds b hs hlt mode parity fun hcount => ?_, rfl, rfl⟩
  by_contra hne
  exact hother ⟨hcount, by
    by_cases hmode : s.mode = mode
    · exact .inr fun hparity => hne ⟨hmode, hparity⟩
    · exact .inl hmode⟩

theorem makeRoom_adds (hs : s.Queued) (hlt : s.cap ≠ 0 → s.scrambledCount < s.batchSize) (hcap : s.cap ≠ 0)
    (needsCrypto : Bool) : Adds b s [] (s.makeRoom b needsCrypto).1 (s.makeRoom b needsCrypto).2 ∧
      (s.makeRoom b needsCrypto).2.queue.length < (s.makeRoom b needsCrypto).2.cap ∧
      (needsCrypto → (s.makeRoom b needsCrypto).2.mode = s.mode ∧ (s.makeRoom b needsCrypto).2.parity = s.parity) := by
  rw [makeRoom]
  by_cases hfull : s.queue.length = s.cap
  · rw [if_pos hfull]
    obtain ⟨hflush, hnil, hcount⟩ := queueFlush_adds hb hs
    have hroom : (s.queueFlush b).2.queue.length < (s.queueFlush b).2.cap := by
      rw [hnil, hflush.cap]
      exact pos_of_ne_zero hcap
    cases needsCrypto with
    | false => exact ⟨hflush, hroom, nofun⟩
    | true =>
      obtain ⟨hensure, hmode, hparity⟩ := ensureBatch_adds hb hflush.queued hflush.count_lt s.mode s.parity
      have hqueue : ((s.queueFlush b).2.ensureBatch b s.mode s.parity).2.queue = [] := by
        rw [ensureBatch, if_neg (by omega)]
        exact hnil
      refine ⟨hflush.trans hensure, ?_, fun _ => ⟨hmode, hparity⟩⟩
      show ((s.queueFlush b).2.ensureBatch b s.mode s.parity).2.queue.length <
        ((s.queueFlush b).2.ensureBatch b s.mode s.parity).2.cap
      rw [hqueue, hensure.cap, hflush.cap]
      exact pos_of_ne_zero hcap
  · rw [if_neg hfull]
    exact ⟨Adds.refl b hs hlt, lt_of_le_of_ne hs.length_le hfull, fun _ => ⟨rfl, rfl⟩⟩

theorem store_adds (hs : s.Queued) (hlt : s.cap ≠ 0 → s.scrambledCount < s.batchSize)
    (hroom : s.queue.length < s.cap) {e : Entry} (hkey : e.needsCrypto → (s.parity.bind s.keys.key).isSome) :
    Adds b s [finished (s.cipher b) e] (s.store b e).1 (s.store b e).2 := by
  have hlt := hlt (by omega)
  have hpending : ∀ n, pending b { s with queue := s.queue ++ [e], scrambledCount := n } =
      s.pending b ++ [finished (s.cipher b) e] := by
    intro n
    rw [pending, pending, map_append]
    rfl
  have hqueued : ∀ n, n = ((s.queue ++ [e]).filter Entry.needsCrypto).length → n ≤ s.batchSize →
      (0 < n → (s.parity.bind s.keys.key).isSome) → Queued { s with queue := s.queue ++ [e], scrambledCount := n } := by
    intro n hn hbatch hk
    refine ⟨hs.cap_eq, ?_, hn, hbatch, hk, hs.csa2⟩
    simp only [length_append, length_singleton]
    omega
  rw [store]
  by_cases hcrypto : e.needsCrypto
  · have hn : s.scrambledCount + 1 = ((s.queue ++ [e]).filter Entry.needsCrypto).length := by
      rw [filter_append, filter_cons_of_pos hcrypto, length_append, hs.count_eq]
      rfl
    have hstored := hqueued _ hn hlt fun _ => hkey hcrypto
    rw [if_pos hcrypto]
    by_cases hfull : s.scrambledCount + 1 = s.batchSize
    · rw [if_pos hfull]
      obtain ⟨hflush, -, -⟩ := queueFlush_adds hb hstored
      refine { hflush with emitted := ?_ }
      rw [hflush.emitted, hpending, append_nil]
    · rw [if_neg hfull]
      exact ⟨hpending _, hstored, fun _ => lt_of_le_of_ne hlt hfull, rfl, rfl⟩
  · have hn : s.scrambledCount = ((s.queue ++ [e]).filter Entry.needsCrypto).length := by
      rw [filter_append, filter_cons_of_neg hcrypto, filter_nil, append_nil, hs.count_eq]
    rw [if_neg hcrypto]
    exact ⟨hpending _, hqueued _ hn hs.count_le hs.key, fun _ => hlt, rfl, rfl⟩

theorem queuePush_adds (hs : s.Queued) (hlt : s.cap ≠ 0 → s.scrambledCount < s.batchSize) (hcap : s.cap ≠ 0) {e : Entry}
    (hkey : e.needsCrypto → (s.parity.bind s.keys.key).isSome) :
    Adds b s [finished (s.cipher b) e] (s.queuePush b e).1 (s.queuePush b e).2 := by
  obtain ⟨hroom, hlen, hmode⟩ := makeRoom_adds hb hs hlt hcap e.needsCrypto
  have hkey' : e.needsCrypto →
      ((s.makeRoom b e.needsCrypto).2.parity.bind (s.makeRoom b e.needsCrypto).2.keys.key).isSome := by
    intro h
    rw [(hmode h).2, hroom.keys]
    exact hkey h
  have hsame : finished ((s.makeRoom b e.needsCrypto).2.cipher b) e = finished (s.cipher b) e := by
    rw [finished, finished]
    by_cases h : e.needsCrypto
    · rw [if_pos h, if_pos h, cipher, cipher, (hmode h).1, (hmode h).2, hroom.keys]
    · rw [if_neg h, if_neg h]
  have hstore := hroom.trans (store_adds hb hroom.queued hroom.count_lt hlen hkey')
  rw [hsame] at hstore
  rw [queuePush, if_neg hcap]
  exact hstore

omit hb

/-! ## One call -/

/-- What holds between calls. -/
structure Settled (s : Scrambler) : Prop extends s.Queued where
  count_lt : s.cap ≠ 0 → s.scrambledCount < s.batchSize

theorem Adds.settled {t : Scrambler} {own out : List (List UInt8)} (h : Adds b s own out t) :
    t.Settled := ⟨h.queued, h.count_lt⟩

theorem Settled.pending_nil (hs : s.Settled) (hcap : s.cap = 0) (b : Backend) : s.pending b = [] := by
  have hlen := hs.length_le
  rw [hcap] at hlen
  rw [pending, length_eq_zero_iff.1 (le_zero.1 hlen)]
  rfl

theorem Settled.emits (hs : s.Settled) (hcap : s.cap = 0) (b : Backend) (pkt : List UInt8) : Adds b s [pkt] [pkt] s :=
  ⟨by rw [hs.pending_nil hcap]; rfl, hs.toQueued, hs.count_lt, rfl, rfl⟩

theorem pushClear_adds (hb : b.Lawful) (hs : s.Settled) (pkt : List UInt8) :
    Adds b s [pkt] (s.pushClear b pkt).1 (s.pushClear b pkt).2 := by
  by_cases hcap : s.cap = 0
  · rw [pushClear, queuePush, if_pos hcap]
    exact hs.emits hcap b pkt
  · exact queuePush_adds hb hs.toQueued hs.count_lt hcap (e := ⟨pkt, false, 0, 0⟩) nofun

theorem pushCrypto_adds (hb : b.Lawful) (hs : s.Settled) (hcap : s.cap ≠ 0) (mode : QueueMode) {p : Parity}
    {cw : List UInt8} (hcw : s.keys.key p = some cw) (pkt : List UInt8) (off : Nat) :
    Adds b s [onPayload (if mode = .encrypt then b.csa2Encrypt cw else b.csa2Decrypt cw) off (188 - off) pkt]
      (s.pushCrypto b mode p pkt off).1 (s.pushCrypto b mode p pkt off).2 := by
  obtain ⟨hensure, hmode, hparity⟩ := ensureBatch_adds hb hs.toQueued hs.count_lt mode (some p)
  have hkey : (s.ensureBatch b mode (some p)).2.parity.bind (s.ensureBatch b mode (some p)).2.keys.key = some cw := by
    rw [hparity, hensure.keys]
    exact hcw
  have hpush := hensure.trans (queuePush_adds hb hensure.queued hensure.count_lt (by rw [hensure.cap]; exact hcap)
    (e := ⟨pkt, true, off, 188 - off⟩) (fun _ => by rw [hkey]; rfl))
  rw [finished, if_pos rfl, cipher, hkey, hmode] at hpush
  exact hpush

variable {pkt : List UInt8}

theorem header_of_payload (h : tsPayloadOffset pkt < 188) : 3 < pkt.length ∧ 4 ≤ tsPayloadOffset pkt := by
  constructor
  · by_contra hshort
    have hbyte : byteAt pkt 3 = 0 := by
      rw [byteAt, getD_eq_getElem?_getD, getElem?_eq_none (by omega)]
      rfl
    rw [tsPayloadOffset, hbyte] at h
    exact absurd h (by simp)
  · rw [tsPayloadOffset]
    split
    · omega
    · split <;> omega

theorem byteAt_onPayload {off : Nat} (hlen : 3 < pkt.length)
    (hoff : 4 ≤ off) (size : Nat) : byteAt (onPayload f off size pkt) 3 = byteAt pkt 3 := by
  have htake : 3 < (pkt.take off).length := by
    rw [length_take]
    omega
  rw [onPayload, withPayload, append_assoc, byteAt_append_left htake, byteAt, byteAt,
    getD_eq_getElem?_getD, getElem?_take_of_lt (by omega), getD_eq_getElem?_getD]

theorem clearControl_onPayload (h : tsPayloadOffset pkt < 188) (size : Nat) :
    clearControl (onPayload f (tsPayloadOffset pkt) size pkt) =
      onPayload f (tsPayloadOffset pkt) size (clearControl pkt) := by
  obtain ⟨hlen, hoff⟩ := header_of_payload h
  have htake : 3 < (pkt.take (tsPayloadOffset pkt)).length := by
    rw [length_take]
    omega
  rw [clearControl, byteAt_onPayload f hlen hoff, onPayload, withPayload, append_assoc,
    set_append_left _ _ htake, onPayload, withPayload, payload, payload, clearControl, take_set,
    drop_set_of_lt (by omega), drop_set_of_lt (by omega), append_assoc]

theorem immediate_adds (b : Backend) (hs : s.Settled) (hcap : s.cap = 0) (o : Option (List UInt8)) :
    Adds b s o.toList (s.immediate o).2.1 (s.immediate o).2.2 ∧ (s.immediate o).1 = o.isSome := by
  cases o with
  | none => exact ⟨Adds.refl b hs.toQueued hs.count_lt, rfl⟩
  | some pkt => exact ⟨hs.emits hcap b pkt, rfl⟩

theorem encrypt_adds (hb : b.Lawful) (hs : s.Settled) (fails : Bool) (pkt : List UInt8) (parity : Int) :
    Adds b s (encryptPacket b fails s.keys pkt parity).toList (s.encryptPacketQueued b fails pkt parity).2.1
        (s.encryptPacketQueued b fails pkt parity).2.2 ∧
      (s.encryptPacketQueued b fails pkt parity).1 = (encryptPacket b fails s.keys pkt parity).isSome := by
  have hrefl := Adds.refl b hs.toQueued hs.count_lt
  unfold encryptPacketQueued
  cases hparity : parityOf parity with
  | none =>
    simp only [encryptPacket, hparity]
    exact ⟨hrefl, rfl⟩
  | some p =>
    simp only []
    cases hcw : s.keys.key p with
    | none =>
      simp only [encryptPacket, hparity, hcw]
      exact ⟨hrefl, rfl⟩
    | some cw =>
      by_cases hcap : s.cap = 0
      · rw [if_pos hcap]
        exact immediate_adds b hs hcap _
      rw [if_neg hcap]
      simp only [encryptPacket, hparity, hcw, hs.csa2 hcap]
      by_cases hoff : tsPayloadOffset pkt ≥ 188
      · rw [if_pos hoff, if_pos hoff]
        exact ⟨pushClear_adds hb hs pkt, rfl⟩
      · rw [if_neg hoff, if_neg hoff]
        exact ⟨pushCrypto_adds hb hs hcap .encrypt hcw (setControl p pkt) (tsPayloadOffset pkt), rfl⟩

theorem decrypt_adds (hb : b.Lawful) (hs : s.Settled) (fails : Bool) (pkt : List UInt8) :
    Adds b s (decryptPacket b fails s.keys pkt).toList (s.decryptPacketQueued b fails pkt).2.1
        (s.decryptPacketQueued b fails pkt).2.2 ∧
      (s.decryptPacketQueued b fails pkt).1 = (decryptPacket b fails s.keys pkt).isSome := by
  have hrefl := Adds.refl b hs.toQueued hs.count_lt
  unfold decryptPacketQueued
  generalize hctrl : byteAt pkt 3 >>> 6 &&& 0x3 = ctrl
  by_cases hzero : ctrl = 0
  · simp only [decryptPacket, hctrl, if_pos hzero]
    exact ⟨pushClear_adds hb hs pkt, rfl⟩
  simp only [if_neg hzero]
  by_cases hone : ctrl = 1
  · simp only [decryptPacket, hctrl, if_neg hzero, if_pos hone]
    exact ⟨hrefl, rfl⟩
  simp only [if_neg hone]
  cases hcw : s.keys.key (ctrlParity ctrl) with
  | none =>
    simp only [decryptPacket, hctrl, if_neg hzero, if_neg hone, hcw]
    exact ⟨hrefl, rfl⟩
  | some cw =>
    by_cases hcap : s.cap = 0
    · rw [if_pos hcap]
      exact immediate_adds b hs hcap _
    rw [if_neg hcap]
    simp only [decryptPacket, hctrl, if_neg hzero, if_neg hone, hcw, hs.csa2 hcap]
    by_cases hoff : tsPayloadOffset pkt ≥ 188
    · rw [if_pos hoff, if_pos hoff]
      exact ⟨pushClear_adds hb hs _, rfl⟩
    · rw [if_neg hoff, if_neg hoff, clearControl_onPayload _ (by omega)]
      exact ⟨pushCrypto_adds hb hs hcap .decrypt hcw (clearControl pkt) (tsPayloadOffset pkt), rfl⟩

theorem newKey_pending (b : Backend) (hs : s.Settled) {p : Parity} (cw : List UInt8)
    (hother : ¬ (s.scrambledCount > 0 ∧ s.parity = some p)) :
    let t := { s with keys := { s.keys with key := fun q => if q = p then some cw else s.keys.key q } }
    t.pending b = s.pending b ∧ t.Settled := by
  intro t
  by_cases hcount : 0 < s.scrambledCount
  · have hkey : t.parity.bind t.keys.key = s.parity.bind s.keys.key := by
      cases hparity : s.parity with
      | none => rfl
      | some q =>
        have hne : q ≠ p := fun h => hother ⟨hcount, by rw [hparity, h]⟩
        exact if_neg hne
    refine ⟨?_, { hs with key := ?_ }, hs.count_lt⟩
    · rw [pending, pending, cipher, cipher, hkey]
    · rw [hkey]
      exact hs.key
  · have hclear : (s.queue.filter Entry.needsCrypto).length = 0 := by
      rw [← hs.count_eq]
      omega
    refine ⟨?_, { hs with key := fun h => absurd h hcount }, hs.count_lt⟩
    rw [pending, pending, map_finished_clear hclear, map_finished_clear hclear]

theorem setKey_ret (b : Backend) (fails : Bool) (s : Scrambler) (parity : Int) (cw : List UInt8) :
    (s.setKey b fails parity cw).1 = true ↔
      (parityOf parity).isSome ∧ cw.length = cwLen s.keys.algo ∧ fails = false := by
  rw [setKey]
  cases parityOf parity with
  | none => simp
  | some p =>
    simp only []
    by_cases hlen : cw.length = cwLen s.keys.algo
    · rw [if_neg (not_not_intro hlen)]
      cases fails with
      | true => simp
      | false => simp [hlen]
    · rw [if_pos hlen]
      simp [hlen]

/-- What a call does to a scrambler. -/
structure Performs (b : Backend) (s : Scrambler) (c : ScramblerCall) : Prop where
  emitted : (s.call b c).2.1 ++ (s.call b c).2.2.pending b = s.pending b ++ (s.keys.output b c).toList
  settled : (s.call b c).2.2.Settled
  keys : (s.call b c).2.2.keys = s.keys.after c
  failed : (s.call b c).1 = false → s.keys.output b c = none

theorem setKey_performs (hb : b.Lawful) (hs : s.Settled) (fails : Bool)
    (parity : Int) (cw : List UInt8) : s.Performs b (.setKey fails parity cw) := by
  have hrefl := Adds.refl b hs.toQueued hs.count_lt
  have hspec : (s.setKey b fails parity cw).2.1 ++ (s.setKey b fails parity cw).2.2.pending b = s.pending b ∧
      (s.setKey b fails parity cw).2.2.Settled ∧
      (s.setKey b fails parity cw).2.2.keys = s.keys.after (.setKey fails parity cw) := by
    rw [setKey, Keys.after]
    cases parityOf parity with
    | none => exact ⟨rfl, hs, rfl⟩
    | some p =>
      simp only []
      by_cases hlen : cw.length = cwLen s.keys.algo
      · rw [if_neg (not_not_intro hlen)]
        -- the scrambler after the flush, and that the batch left does not use the key
        have hflush : ∃ r, (if s.scrambledCount > 0 ∧ s.parity = some p then s.queueFlush b else ([], s)) = r ∧
            Adds b s [] r.1 r.2 ∧ ¬ (r.2.scrambledCount > 0 ∧ r.2.parity = some p) := by
          refine ⟨_, rfl, ?_⟩
          split
          · obtain ⟨hadds, -, hcount⟩ := queueFlush_adds hb hs.toQueued
            exact ⟨hadds, fun h => by omega⟩
          · next h => exact ⟨hrefl, h⟩
        obtain ⟨⟨out, t⟩, hr, hadds, hother⟩ := hflush
        rw [hr]
        have hemitted := hadds.emitted
        rw [append_nil] at hemitted
        cases fails with
        | true =>
          rw [if_pos rfl, if_neg (fun h => nomatch h.2)]
          exact ⟨hemitted, hadds.settled, hadds.keys⟩
        | false =>
          obtain ⟨hpending, hsettled⟩ := newKey_pending b hadds.settled cw hother
          rw [if_neg nofun, if_pos ⟨hlen, rfl⟩]
          refine ⟨?_, hsettled, ?_⟩
          · rw [hpending]
            exact hemitted
          · have hkeys : t.keys = s.keys := hadds.keys
            simp only [hkeys]
      · rw [if_pos hlen, if_neg (fun h => hlen h.1)]
        exact ⟨rfl, hs, rfl⟩
  refine ⟨?_, hspec.2.1, hspec.2.2, fun _ => rfl⟩
  show _ = s.pending b ++ []
  rw [append_nil]
  exact hspec.1

theorem call_performs (hb : b.Lawful) (hs : s.Settled) (c : ScramblerCall) : s.Performs b c := by
  have hnone : ∀ {o : Option (List UInt8)}, o.isSome = false → o = none := fun h =>
    Option.not_isSome_iff_eq_none.1 (by rw [h]; nofun)
  cases c with
  | setKey fails parity cw => exact setKey_performs hb hs fails parity cw
  | encrypt fails pkt parity =>
    obtain ⟨hadds, hret⟩ := encrypt_adds hb hs fails pkt parity
    exact ⟨hadds.emitted, hadds.settled, hadds.keys, fun h => hnone (hret.symm.trans h)⟩
  | decrypt fails pkt =>
    obtain ⟨hadds, hret⟩ := decrypt_adds hb hs fails pkt
    exact ⟨hadds.emitted, hadds.settled, hadds.keys, fun h => hnone (hret.symm.trans h)⟩
  | passthrough pkt =>
    have hadds := pushClear_adds hb hs pkt
    exact ⟨hadds.emitted, hadds.settled, hadds.keys, nofun⟩
  | flush =>
    obtain ⟨hadds, -, -⟩ := queueFlush_adds hb hs.toQueued
    exact ⟨hadds.emitted, hadds.settled, hadds.keys, nofun⟩

/-! ## Sequences of calls -/

theorem new_settled (b : Backend) (algo : ScrambleAlgo) : (new b algo).Settled := by
  refine ⟨⟨rfl, zero_le _, rfl, zero_le _, fun h => absurd h (lt_irrefl 0), ?_⟩, ?_⟩
  · intro hcap
    by_contra halgo
    exact hcap (by simp [new, show algo ≠ .csa2 from halgo])
  · intro hcap
    exact pos_of_ne_zero fun h => hcap ((congrArg (· * queueCapMultiplier) h).trans (zero_mul _))

theorem run_cons (b : Backend) (s : Scrambler) (c : ScramblerCall) (cs : List ScramblerCall) :
    s.run b (c :: cs) = ((s.call b c).2.1 ++ ((s.call b c).2.2.run b cs).1, ((s.call b c).2.2.run b cs).2) := rfl

theorem run_append (b : Backend) (s : Scrambler) (cs ds : List ScramblerCall) :
    s.run b (cs ++ ds) = ((s.run b cs).1 ++ ((s.run b cs).2.run b ds).1, ((s.run b cs).2.run b ds).2) := by
  induction cs generalizing s with
  | nil => rfl
  | cons c cs ih => rw [cons_append, run_cons, run_cons, ih, append_assoc]

theorem run_spec (hb : b.Lawful) (hs : s.Settled) (cs : List ScramblerCall) :
    (s.run b cs).1 ++ (s.run b cs).2.pending b = s.pending b ++ s.keys.outputs b cs ∧ (s.run b cs).2.Settled := by
  induction cs generalizing s with
  | nil => exact ⟨by rw [run, Keys.outputs, append_nil, nil_append], hs⟩
  | cons c cs ih =>
    have hcall := call_performs hb hs c
    obtain ⟨hout, hsettled⟩ := ih hcall.settled
    rw [run_cons]
    refine ⟨?_, hsettled⟩
    rw [Keys.outputs, ← hcall.keys, ← append_assoc, ← hcall.emitted, append_assoc, hout, append_assoc]

/-- A call that returns -1 emits nothing, unless it has flushed a batch for a key it cannot make. -/
theorem call_failed_emits {c : ScramblerCall} (h : (s.call b c).1 = false)
    (hkey : ∀ parity cw, c ≠ .setKey true parity cw) : (s.call b c).2.1 = [] ∧ (s.call b c).2.2 = s := by
  cases c with
  | setKey fails parity cw =>
    cases fails with
    | true => exact absurd rfl (hkey parity cw)
    | false =>
      revert h
      rw [call, setKey]
      split
      · exact fun _ => ⟨rfl, rfl⟩
      · split
        · exact fun _ => ⟨rfl, rfl⟩
        · exact nofun
  | encrypt fails pkt parity =>
    revert h
    rw [call, encryptPacketQueued]
    split
    · exact fun _ => ⟨rfl, rfl⟩
    split
    · exact fun _ => ⟨rfl, rfl⟩
    split
    · unfold immediate
      split
      · exact fun _ => ⟨rfl, rfl⟩
      · exact nofun
    · simp only []
      split <;> exact nofun
  | decrypt fails pkt =>
    revert h
    rw [call, decryptPacketQueued]
    simp only []
    split
    · exact nofun
    split
    · exact fun _ => ⟨rfl, rfl⟩
    split
    · exact fun _ => ⟨rfl, rfl⟩
    split
    · unfold immediate
      split
      · exact fun _ => ⟨rfl, rfl⟩
      · exact nofun
    · split <;> exact nofun
  | _ => cases h

/-- Any calls, ended by a flush, emit what the calls without a queue make with the keys of their time, and
    the queue stays within its bounds. -/
theorem batched_eq_single {b : Backend} (hb : b.Lawful) (algo : ScrambleAlgo) (cs : List ScramblerCall) :
    ((new b algo).run b (cs ++ [.flush])).1 = (Keys.mk algo fun _ => none).outputs b cs ∧
    ((new b algo).run b cs).2.queue.length ≤ ((new b algo).run b cs).2.cap ∧
    ((new b algo).run b cs).2.scrambledCount ≤ ((new b algo).run b cs).2.batchSize ∧
    ∀ c, (((new b algo).run b cs).2.call b c).1 = false → ((new b algo).run b cs).2.keys.output b c = none ∧
      ((∀ parity cw, c ≠ .setKey true parity cw) → (((new b algo).run b cs).2.call b c).2.1 = []) := by
  obtain ⟨hout, hsettled⟩ := run_spec hb (new_settled b algo) cs
  refine ⟨?_, hsettled.length_le, hsettled.count_le, fun c hc => ⟨?_, fun hkey => ?_⟩⟩
  · rw [run_append]
    show _ ++ ((((new b algo).run b cs).2.queueFlush b).1 ++ []) = _
    rw [append_nil, queueFlush_out hb hsettled.toQueued]
    exact hout
  · exact (call_performs hb hsettled c).failed hc
  · exact (call_failed_emits hc hkey).1

/-- A cipher of its own: every byte is increased by the first one of the key. -/
def toyBackend : Backend where
  csa2Encrypt := fun cw data => data.map (· + cw.headD 0)
  csa2Decrypt := fun cw data => data.map (· - cw.headD 0)
  csa2EncryptBatch := fun cw data => some (data.map fun d => d.map (· + cw.headD 0))
  csa2DecryptBatch := fun cw data => some (data.map fun d => d.map (· - cw.headD 0))
  cissaEncrypt := fun cw data => data.map (· + cw.headD 0)
  cissaDecrypt := fun cw data => data.map (· - cw.headD 0)
  csa2BatchSize := 2

theorem toyBackend_lawful : toyBackend.Lawful := ⟨fun _ _ => rfl, fun _ _ => rfl⟩

/-- A packet of the PID 0x100 whose last byte is its only payload. -/
def toyPacket : List UInt8 := [0x47, 0x01, 0x00, 0x30, 182] ++ replicate 182 0 ++ [7]

/-- Two packets with a new key between them. -/
def rekeyed : List ScramblerCall :=
  [.setKey false 0 [1, 0, 0, 0, 0, 0, 0, 0], .encrypt false toyPacket 0, .passthrough [0x47],
    .setKey false 0 [2, 0, 0, 0, 0, 0, 0, 0], .encrypt false toyPacket 0]

theorem batched_eq_single_rekeyed :
    toyBackend.Lawful ∧ ((new toyBackend .csa2).run toyBackend (rekeyed ++ [.flush])).1 =
      (Keys.mk .csa2 fun _ => none).outputs toyBackend rekeyed ∧
    (((new toyBackend .csa2).run toyBackend (rekeyed ++ [.flush])).1.map fun pkt => pkt.getLast?) =
      [some 8, some 0x47, some 9] :=
  ⟨toyBackend_lawful, (batched_eq_single toyBackend_lawful .csa2 rekeyed).1, by decide +kernel⟩

/-- A call that returns -1 and emits the packet before it: the key cannot be made, and the batch has been
    flushed for it. -/
theorem failed_setKey_emits :
    let s := ((new toyBackend .csa2).run toyBackend [.setKey false 0 [1, 0, 0, 0, 0, 0, 0, 0],
      .encrypt false toyPacket 0]).2
    (s.call toyBackend (.setKey true 0 [2, 0, 0, 0, 0, 0, 0, 0])).1 = false ∧
      (s.call toyBackend (.setKey true 0 [2, 0, 0, 0, 0, 0, 0, 0])).2.1.length = 1 := by
  decide +kernel

end Scrambler

end DvbIpiTools.Cas
