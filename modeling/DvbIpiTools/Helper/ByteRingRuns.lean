import DvbIpiTools.Helper.ByteRing
import Mathlib.Data.UInt

set_option autoImplicit false

/-! # Runs of the byte ring

The counters stand for positions in all that was ever accepted. The cells show it from what is given back to what is
accepted, and the writer, who may only have an old value of `rpos`, never leaves the cells behind it. -/

namespace DvbIpiTools.ByteRing

open RingCounter List Nat UInt32

/-! ## The invariant -/

/-- What `byte_ring_ack` is about to give back. -/
def Consumer.pending : Consumer → Nat
  | .acking n => n.toNat
  | _ => 0

/-- What holds inside `byte_ring_write`. -/
def ProducerOk (s : State) : Prop :=
  match s.producer with
  | .idle => True
  | .called _ => True
  | .loaded data wpos => wpos = s.ring.wpos ∧ data ≠ []
  | .copying data wpos done => wpos = s.ring.wpos ∧ data ≠ [] ∧ done ≤ data.length ∧
      s.sent.length + data.length ≤ s.freed + s.ring.buf.length ∧
      Shows s.ring.buf (s.sent ++ data) s.freed (s.sent.length + done)

/-- The bytes that follow what is taken. -/
def Follows (s : State) (bytes : List UInt8) : Prop :=
  s.taken.length + bytes.length ≤ s.sent.length ∧ bytes = (s.sent.drop s.taken.length).take bytes.length

/-- What holds inside a call of the reader. -/
def ConsumerOk (mode : Mode) (s : State) : Prop :=
  match s.consumer with
  | .idle => True
  | .reading _ => mode = .direct
  | .readLoaded _ wpos written => mode = .direct ∧ wpos = .ofNat written ∧ s.taken.length ≤ written ∧ written ≤ s.sent.length
  | .readCopy rpos idx n dst => mode = .direct ∧ rpos = s.ring.rpos ∧ idx = s.taken.length % s.ring.buf.length ∧
      idx + n ≤ s.ring.buf.length ∧ s.taken.length + n ≤ s.sent.length ∧ dst.length ≤ n ∧ Follows s dst
  | .peeking => True
  | .peekLoaded wpos written => wpos = .ofNat written ∧ s.taken.length ≤ written ∧ written ≤ s.sent.length
  | .view idx len got => idx = s.taken.length % s.ring.buf.length ∧ idx + len ≤ s.ring.buf.length ∧
      s.taken.length + len ≤ s.sent.length ∧ got.length ≤ len ∧ Follows s got
  | .acking _ => mode = .held
  | .unsentLoaded wpos written => wpos = .ofNat written ∧ s.taken.length ≤ written ∧ written ≤ s.sent.length

/-- What holds between any two steps. -/
structure Inv (k : Nat) (mode : Mode) (s : State) : Prop where
  lt : k < 31
  cap : s.ring.cap.toNat = 2 ^ k
  buf : s.ring.buf.length = s.ring.cap.toNat
  wpos : s.ring.wpos = .ofNat s.sent.length
  rpos : s.ring.rpos = .ofNat s.freed
  taken : s.taken <+: s.sent
  held : s.freed + s.ring.inflight.toNat + s.consumer.pending = s.taken.length
  direct : mode = .direct → s.ring.inflight = 0
  room : s.sent.length ≤ s.freed + s.ring.buf.length
  shows : Shows s.ring.buf s.sent s.freed s.sent.length
  producer : ProducerOk s
  consumer : ConsumerOk mode s

theorem Inv.start {k : Nat} {r : Ring} (h : r.Fresh k) (mode : Mode) : Inv k mode { ring := r } where
  __ := h
  taken := prefix_refl _
  held := by
    show 0 + r.inflight.toNat + 0 = 0
    rw [h.inflight]
    rfl
  direct := fun _ => h.inflight
  room := zero_le _
  shows := fun j _ hj => absurd hj (not_lt_zero j)
  producer := trivial
  consumer := trivial

section

variable {k : Nat} {mode : Mode} {s : State} (h : Inv k mode s)

include h

theorem Inv.buf_length : s.ring.buf.length = 2 ^ k := h.buf.trans h.cap

theorem Inv.buf_lt : s.ring.buf.length < 2 ^ 31 := by
  rw [h.buf_length]
  exact Nat.pow_lt_pow_right (by decide) h.lt

theorem Inv.buf_pos : 0 < s.ring.buf.length := by
  rw [h.buf_length]
  exact Nat.two_pow_pos k

theorem Inv.taken_le : s.taken.length ≤ s.sent.length := h.taken.length_le

theorem Inv.cell (a : Nat) : (UInt32.ofNat a &&& (s.ring.cap - 1)).toNat = a % s.ring.buf.length := by
  rw [toNat_and_mask (show k < 32 from lt_succ_of_lt h.lt) h.cap, h.buf]

omit h

variable {written : Nat} (h : Inv k mode s)

include h

theorem Inv.ahead (hle : s.taken.length ≤ written) (hle' : written ≤ s.sent.length) :
    (UInt32.ofNat written - UInt32.ofNat s.taken.length).toNat = written - s.taken.length := by
  have hlt := h.buf_lt
  have hroom := h.room
  have hheld := h.held
  exact toNat_ofNat_sub hle (by omega)

theorem Inv.ahead_eq (hle : s.taken.length ≤ written) (hle' : written ≤ s.sent.length)
    (heq : UInt32.ofNat written = UInt32.ofNat s.taken.length) : written = s.taken.length := by
  have hahead := h.ahead hle hle'
  rw [heq, sub_self] at hahead
  have hzero : written - s.taken.length = 0 := hahead.symm
  omega

theorem Inv.rpos_add (hpending : s.consumer.pending = 0) : s.ring.rpos + s.ring.inflight = .ofNat s.taken.length := by
  rw [h.rpos, ← h.held, hpending, add_zero, UInt32.ofNat_add, UInt32.ofNat_toNat]

theorem Inv.freed_eq (hmode : mode = .direct) (hpending : s.consumer.pending = 0) : s.freed = s.taken.length := by
  have hheld := h.held
  rw [h.direct hmode, hpending] at hheld
  exact hheld

theorem Inv.follows {n : Nat} (hcell : s.taken.length % s.ring.buf.length + n ≤ s.ring.buf.length)
    (hn : s.taken.length + n ≤ s.sent.length) :
    (s.ring.buf.drop (s.taken.length % s.ring.buf.length)).take n = (s.sent.drop s.taken.length).take n := by
  have hheld := h.held
  exact (h.shows.mono (show s.freed ≤ s.taken.length by omega) le_rfl).take_drop hcell hn

omit h

variable {bytes : List UInt8}

theorem Follows.snoc (h : Inv k mode s) (hb : Follows s bytes) {x : UInt8}
    (hcell : s.taken.length % s.ring.buf.length + bytes.length < s.ring.buf.length)
    (hn : s.taken.length + bytes.length < s.sent.length)
    (hx : s.ring.buf[s.taken.length % s.ring.buf.length + bytes.length]? = some x) : Follows s (bytes ++ [x]) := by
  have hheld := h.held
  have hmod : (s.taken.length + bytes.length) % s.ring.buf.length =
      s.taken.length % s.ring.buf.length + bytes.length := by
    rw [add_mod, mod_eq_of_lt (show bytes.length < s.ring.buf.length by omega), mod_eq_of_lt hcell]
  have hseq : (s.sent.drop s.taken.length)[bytes.length]? = some x := by
    rw [getElem?_drop, ← h.shows _ (by omega) hn, hmod, hx]
  refine ⟨?_, ?_⟩
  · rw [length_append, length_singleton]
    omega
  · rw [length_append, length_singleton, take_add_one, hseq, ← hb.2]
    rfl

theorem taken_append (h : Inv k mode s) (hb : Follows s bytes) : s.taken ++ bytes <+: s.sent := by
  obtain ⟨rest, hrest⟩ := h.taken
  rw [hb.2, ← hrest, drop_left]
  exact (prefix_append_right_inj _).mpr ( take_prefix _ _)

end

/-! ## Steps of the writer -/

theorem mod_add_cases {n a i : Nat} (hi : i < n) :
    (a + i) % n = if a % n + i < n then a % n + i else a % n + i - n := by
  rw [add_mod_eq_ite, mod_eq_of_lt hi, ← ite_not]
  simp only [not_le]

section

variable {k : Nat} {mode : Mode} {s s' : State} {e : Event}

theorem Inv.writeCell_eq (h : Inv k mode s) {len i : Nat} (hi : i < len) (hlen : len ≤ s.ring.buf.length) :
    writeCell s.ring.cap s.ring.wpos len i = (s.sent.length + i) % s.ring.buf.length := by
  have hlt := mod_lt s.sent.length h.buf_pos
  rw [mod_add_cases (show i < s.ring.buf.length by omega)]
  simp only [writeCell, h.wpos, h.cell, ← h.buf]
  split_ifs <;> omega

/-- The consumer goes on as before when bytes come behind what it knows of. -/
theorem ConsumerOk.append (h : ConsumerOk mode s) (data : List UInt8) {t : State} (htaken : t.taken = s.taken)
    (hconsumer : t.consumer = s.consumer) (hsent : t.sent = s.sent ++ data)
    (hlen : t.ring.buf.length = s.ring.buf.length) (hrpos : t.ring.rpos = s.ring.rpos) : ConsumerOk mode t := by
  have hle : t.sent.length = s.sent.length + data.length := by rw [hsent, length_append]
  have hfollows : ∀ {bytes}, Follows s bytes → Follows t bytes := by
    intro bytes hb
    obtain ⟨hbound, hbytes⟩ := hb
    refine ⟨by rw [htaken]; omega, ?_⟩
    rw [htaken, hsent, drop_append, take_append, length_drop,
      show bytes.length - (s.sent.length - s.taken.length) = 0 by omega, take_zero, append_nil]
    exact hbytes
  unfold ConsumerOk at h ⊢
  rw [hconsumer, htaken, hlen, hrpos]
  cases hc : s.consumer with
  | idle => trivial
  | readLoaded maxlen wpos written =>
    simp only [hc] at h ⊢
    exact ⟨h.1, h.2.1, h.2.2.1, by omega⟩
  | readCopy rpos idx n dst =>
    simp only [hc] at h ⊢
    obtain ⟨hmode, hr, hidx, hcell, hn, hdst, hf⟩ := h
    exact ⟨hmode, hr, hidx, hcell, by omega, hdst, hfollows hf⟩
  | peeking => trivial
  | peekLoaded wpos written =>
    simp only [hc] at h ⊢
    exact ⟨h.1, h.2.1, by omega⟩
  | view idx len got =>
    simp only [hc] at h ⊢
    obtain ⟨hidx, hcell, hn, hgot, hf⟩ := h
    exact ⟨hidx, hcell, by omega, hgot, hfollows hf⟩
  | unsentLoaded wpos written =>
    simp only [hc] at h ⊢
    exact ⟨h.1, h.2.1, by omega⟩
  | _ => simpa [hc] using h

theorem Inv.setProducer (h : Inv k mode s) {p : Producer} (hp : ProducerOk { s with producer := p }) :
    Inv k mode { s with producer := p } where
  __ := h
  producer := hp

theorem Inv.room_left (h : Inv k mode s) :
    (s.ring.cap - (s.ring.wpos - s.ring.rpos)).toNat = s.freed + s.ring.buf.length - s.sent.length := by
  have hheld := h.held
  have hroom := h.room
  have hle := h.taken_le
  have hlt := h.buf_lt
  have hdist := @toNat_ofNat_sub s.sent.length s.freed (by omega) (by omega)
  rw [← h.wpos, ← h.rpos] at hdist
  rw [UInt32.toNat_sub_of_le, hdist, ← h.buf]
  · omega
  · rw [le_iff_toNat_le, hdist, ← h.buf]
    omega

theorem producerGoes_inv (h : Inv k mode s) (hs : producerGoes s = some (e, s')) : Inv k mode s' := by
  have hok := h.producer
  unfold producerGoes at hs
  cases hp : s.producer with
  | idle =>
    rw [hp] at hs
    cases hs
  | called data =>
    simp only [hp] at hs
    split at hs
    · cases hs
      exact h.setProducer trivial
    rename_i hne
    split at hs
    · cases hs
      exact h.setProducer trivial
    · cases hs
      exact h.setProducer ⟨rfl, hne⟩
  | loaded data wpos =>
    simp only [hp] at hs
    simp only [ProducerOk, hp] at hok
    obtain ⟨rfl, hne⟩ := hok
    split at hs
    · cases hs
      exact h.setProducer trivial
    rename_i hroom
    cases hs
    rw [h.room_left] at hroom
    have hfits : s.sent.length + data.length ≤ s.freed + s.ring.buf.length := by
      have hroom' := h.room
      omega
    refine h.setProducer ⟨rfl, hne, zero_le _, hfits, ?_⟩
    exact h.shows.append le_rfl data
  | copying data wpos done =>
    simp only [hp] at hs
    simp only [ProducerOk, hp] at hok
    obtain ⟨rfl, hne, hdone, hroom, hshows⟩ := hok
    have hfreed : s.freed ≤ s.sent.length := by
      have hheld := h.held
      have hle := h.taken_le
      omega
    split at hs
    · -- a byte is copied
      next x hx =>
      cases hs
      have hlt : done < data.length := (List.getElem?_eq_some_iff.1 hx).1
      rw [h.writeCell_eq hlt (by omega)]
      have hbyte : (s.sent ++ data)[s.sent.length + done]? = some x := by
        rw [getElem?_append_right (Nat.le_add_right _ _), Nat.add_sub_cancel_left, hx]
      exact {
        __ := h
        buf := (length_set ..).trans h.buf
        room := h.room.trans (by rw [length_set])
        shows := h.shows.set (le_add_right _ _) (by omega) x
        producer := ⟨rfl, hne, hlt, by rw [length_set]; exact hroom, hshows.push (by omega) hbyte⟩
        consumer := h.consumer.append [] rfl rfl (append_nil _).symm (length_set ..) rfl }
    · -- all is copied
      next hx =>
      cases hs
      have hall : done = data.length := by
        rw [List.getElem?_eq_none_iff] at hx
        omega
      have hlen : (s.sent ++ data).length = s.sent.length + data.length := length_append
      exact {
        __ := h
        wpos := by
          show s.ring.wpos + _ = _
          rw [h.wpos, ← ofNat_add, hlen]
        taken := h.taken.trans (prefix_append _ _)
        room := by
          show (s.sent ++ data).length ≤ s.freed + s.ring.buf.length
          omega
        shows := by
          show Shows s.ring.buf (s.sent ++ data) s.freed (s.sent ++ data).length
          rw [hlen, ← hall]
          exact hshows
        producer := trivial
        consumer := h.consumer.append data rfl rfl rfl rfl rfl }

end

/-! ## Steps of the reader -/

section

variable {k : Nat} {mode : Mode} {s s' : State} {e : Event}

theorem Inv.setConsumer (h : Inv k mode s) {c : Consumer} (hpending : c.pending = s.consumer.pending)
    (hc : ConsumerOk mode { s with consumer := c }) : Inv k mode { s with consumer := c } where
  __ := h
  held := by
    show s.freed + s.ring.inflight.toNat + c.pending = s.taken.length
    rw [hpending]
    exact h.held
  consumer := hc

theorem ProducerOk.free (h : ProducerOk s) {t : State} (hproducer : t.producer = s.producer) (hsent : t.sent = s.sent)
    (hbuf : t.ring.buf = s.ring.buf) (hwpos : t.ring.wpos = s.ring.wpos) (hfreed : s.freed ≤ t.freed) : ProducerOk t := by
  unfold ProducerOk at h ⊢
  rw [hproducer, hsent, hbuf, hwpos]
  cases hp : s.producer with
  | loaded data wpos => simpa [hp] using h
  | copying data wpos done =>
    simp only [hp] at h ⊢
    obtain ⟨hw, hne, hdone, hroom, hshows⟩ := h
    exact ⟨hw, hne, hdone, by omega, hshows.mono hfreed le_rfl⟩
  | _ => trivial

variable {bytes : List UInt8}

theorem Inv.advance (h : Inv k mode s) (hpending : s.consumer.pending = 0) (hb : Follows s bytes) : Inv k mode { s with
      ring := { s.ring with rpos := s.ring.rpos + .ofNat bytes.length }
      consumer := .idle
      taken := s.taken ++ bytes
      freed := s.freed + bytes.length } where
  __ := h
  rpos := by
    show s.ring.rpos + _ = _
    rw [h.rpos, ← ofNat_add]
  taken := taken_append h hb
  held := by
    have hheld := h.held
    show s.freed + bytes.length + s.ring.inflight.toNat + 0 = (s.taken ++ bytes).length
    rw [length_append]
    omega
  room := by
    have hroom := h.room
    show s.sent.length ≤ s.freed + bytes.length + s.ring.buf.length
    omega
  shows := h.shows.mono (le_add_right _ _) le_rfl
  producer := h.producer.free rfl rfl rfl rfl (le_add_right _ _)
  consumer := trivial

variable {n : Nat}

theorem Inv.run_ahead (h : Inv k mode s) {written : Nat} (hle : s.taken.length ≤ written) (hle' : written ≤ s.sent.length) (hn : n ≤ min (s.ring.cap - (UInt32.ofNat s.taken.length &&& (s.ring.cap - 1))).toNat
      (UInt32.ofNat written - UInt32.ofNat s.taken.length).toNat) :
    s.taken.length % s.ring.buf.length + n ≤ s.ring.buf.length ∧ s.taken.length + n ≤ s.sent.length := by
  have hlt := mod_lt s.taken.length h.buf_pos
  have hcell := h.cell s.taken.length
  rw [h.ahead hle hle', UInt32.toNat_sub_of_le, hcell, ← h.buf] at hn
  · omega
  · rw [le_iff_toNat_le, hcell, ← h.buf]
    omega

theorem Follows.nil (s : State) (h : s.taken.length ≤ s.sent.length) : Follows s [] := ⟨h, rfl⟩

theorem Follows.take (h : Follows s bytes) (hn : n ≤ bytes.length) : Follows s (bytes.take n) := by
  have hlen : (bytes.take n).length = n := by
    rw [length_take]
    omega
  obtain ⟨hle, hb⟩ := h
  refine ⟨by omega, ?_⟩
  rw [hlen]
  conv_lhs => rw [hb]
  rw [take_take, min_eq_left hn]

section

variable (h : Inv k mode s) (hs : consumerGoes s = some (e, s'))

include h hs

theorem readLoaded_inv {maxlen : Nat} {wpos : UInt32} {written : Nat}
    (hc : s.consumer = .readLoaded maxlen wpos written) : Inv k mode s' := by
  have hpending : s.consumer.pending = 0 := by rw [hc]; rfl
  have hok := h.consumer
  simp only [ConsumerOk, hc] at hok
  obtain ⟨hmode, rfl, hle, hle'⟩ := hok
  simp only [consumerGoes, hc] at hs
  split at hs
  · cases hs
    exact h.setConsumer hpending.symm trivial
  cases hs
  have hrpos : s.ring.rpos = .ofNat s.taken.length := by rw [h.rpos, h.freed_eq hmode hpending]
  obtain ⟨hcell, hn⟩ := h.run_ahead hle hle' (min_le_left _ maxlen)
  refine h.setConsumer hpending.symm ⟨hmode, rfl, ?_, ?_, ?_, zero_le _, Follows.nil s h.taken_le⟩
  · rw [hrpos]
    exact h.cell _
  · rw [hrpos, h.cell]
    exact hcell
  · rw [hrpos]
    exact hn

/-- A byte of the run is copied, or all of it was and is given back. -/
theorem readCopy_inv {rpos : UInt32} {idx : Nat} {dst : List UInt8} (hc : s.consumer = .readCopy rpos idx n dst) :
    Inv k mode s' := by
  have hpending : s.consumer.pending = 0 := by rw [hc]; rfl
  have hok := h.consumer
  simp only [ConsumerOk, hc] at hok
  obtain ⟨hmode, rfl, rfl, hcell, hn, hdst, hf⟩ := hok
  simp only [consumerGoes, hc] at hs
  split at hs
  · next hlt =>
    split at hs
    · next x hx =>
      cases hs
      refine h.setConsumer hpending.symm ⟨hmode, rfl, rfl, hcell, hn, ?_, hf.snoc h (by omega) (by omega) hx⟩
      rw [length_append]
      exact hlt
    · cases hs
  · next hge =>
    cases hs
    obtain rfl : dst.length = n := by omega
    exact h.advance hpending hf

theorem peekLoaded_inv {wpos : UInt32} {written : Nat} (hc : s.consumer = .peekLoaded wpos written) :
    Inv k mode s' := by
  have hpending : s.consumer.pending = 0 := by rw [hc]; rfl
  have hok := h.consumer
  simp only [ConsumerOk, hc] at hok
  obtain ⟨rfl, hle, hle'⟩ := hok
  simp only [consumerGoes, hc, h.rpos_add hpending] at hs
  split at hs
  · cases hs
    exact h.setConsumer hpending.symm trivial
  · cases hs
    obtain ⟨hcell, hn⟩ := h.run_ahead hle hle' le_rfl
    refine h.setConsumer hpending.symm ⟨h.cell _, ?_, hn, zero_le _, Follows.nil s h.taken_le⟩
    rw [h.cell]
    exact hcell

theorem view_inv {idx : Nat} {got : List UInt8} (hc : s.consumer = .view idx n got) : Inv k mode s' := by
  have hpending : s.consumer.pending = 0 := by rw [hc]; rfl
  have hok := h.consumer
  simp only [ConsumerOk, hc] at hok
  obtain ⟨rfl, hcell, hn, hgot, hf⟩ := hok
  simp only [consumerGoes, hc] at hs
  split at hs
  · next hlt =>
    split at hs
    · next x hx =>
      cases hs
      refine h.setConsumer hpending.symm ⟨rfl, hcell, hn, ?_, hf.snoc h (by omega) (by omega) hx⟩
      rw [length_append]
      exact hlt
    · cases hs
  · cases hs

/-- The bytes that were held are given back to the writer. -/
theorem acking_inv {n : UInt32} (hc : s.consumer = .acking n) : Inv k mode s' := by
  simp only [consumerGoes, hc] at hs
  cases hs
  have hheld := h.held
  rw [hc] at hheld
  change s.freed + s.ring.inflight.toNat + n.toNat = s.taken.length at hheld
  exact {
    __ := h
    rpos := by
      show s.ring.rpos + n = _
      rw [h.rpos, UInt32.ofNat_add, UInt32.ofNat_toNat]
    held := by
      show s.freed + n.toNat + s.ring.inflight.toNat + 0 = s.taken.length
      omega
    room := by
      have hroom := h.room
      show s.sent.length ≤ s.freed + n.toNat + s.ring.buf.length
      omega
    shows := h.shows.mono (le_add_right _ _) le_rfl
    producer := h.producer.free rfl rfl rfl rfl (le_add_right _ _)
    consumer := trivial }

theorem consumerGoes_inv : Inv k mode s' := by
  cases hc : s.consumer with
  | idle =>
    rw [consumerGoes, hc] at hs
    cases hs
  | reading maxlen =>
    have hok := h.consumer
    simp only [ConsumerOk, hc] at hok
    simp only [consumerGoes, hc] at hs
    split at hs
    · cases hs
      exact h.setConsumer (by rw [hc]; rfl) trivial
    · cases hs
      exact h.setConsumer (by rw [hc]; rfl) ⟨hok, h.wpos, h.taken_le, le_rfl⟩
  | readLoaded maxlen wpos written => exact readLoaded_inv h hs hc
  | readCopy rpos idx n dst => exact readCopy_inv h hs hc
  | peeking =>
    simp only [consumerGoes, hc] at hs
    split at hs
    · cases hs
      exact h.setConsumer (by rw [hc]; rfl) trivial
    · cases hs
      exact h.setConsumer (by rw [hc]; rfl) ⟨h.wpos, h.taken_le, le_rfl⟩
  | peekLoaded wpos written => exact peekLoaded_inv h hs hc
  | view idx len got => exact view_inv h hs hc
  | acking n => exact acking_inv h hs hc
  | unsentLoaded wpos written =>
    simp only [consumerGoes, hc] at hs
    cases hs
    exact h.setConsumer (by rw [hc]; rfl) trivial

end

theorem Inv.hold (h : Inv k mode s) (hmode : mode = .held) (hpending : s.consumer.pending = 0)
    (hcell : s.taken.length % s.ring.buf.length + n ≤ s.ring.buf.length) (hn : s.taken.length + n ≤ s.sent.length) :
    Inv k mode { s with
      ring := { s.ring with inflight := s.ring.inflight + .ofNat n }
      consumer := .idle
      taken := s.taken ++ (s.ring.buf.drop (s.taken.length % s.ring.buf.length)).take n } := by
  have hheld := h.held
  have hroom := h.room
  have hlt := h.buf_lt
  rw [hpending] at hheld
  have hlen : ((s.sent.drop s.taken.length).take n).length = n := by
    rw [length_take, length_drop]
    omega
  have hf : Follows s ((s.sent.drop s.taken.length).take n) := ⟨by omega, by rw [hlen]⟩
  rw [h.follows hcell hn]
  exact {
    __ := h
    taken := taken_append h hf
    held := by
      show s.freed + (s.ring.inflight + .ofNat n).toNat + 0 = (s.taken ++ _).length
      rw [length_append, hlen, UInt32.toNat_add, UInt32.toNat_ofNat', mod_eq_of_lt (show n < 2 ^ 32 by omega),
        mod_eq_of_lt (by omega)]
      omega
    direct := fun hdirect => by
      rw [hmode] at hdirect
      cases hdirect
    producer := h.producer.free rfl rfl rfl rfl le_rfl
    consumer := trivial }

theorem Inv.ack (h : Inv k mode s) (hmode : mode = .held) (hpending : s.consumer.pending = 0) {n : UInt32}
    (hn : n ≤ s.ring.inflight) : Inv k mode { s with
      ring := { s.ring with inflight := s.ring.inflight - n }
      consumer := .acking n } where
  __ := h
  held := by
    have hheld := h.held
    rw [le_iff_toNat_le] at hn
    show s.freed + (s.ring.inflight - n).toNat + n.toNat = s.taken.length
    rw [UInt32.toNat_sub_of_le _ _ hn]
    omega
  direct := fun hdirect => by
    rw [hmode] at hdirect
    cases hdirect
  producer := h.producer.free rfl rfl rfl rfl le_rfl
  consumer := hmode

theorem ackLen_le (r : Ring) (n : Nat) : (if n > r.inflight.toNat then r.inflight else .ofNat n) ≤ r.inflight := by
  rw [le_iff_toNat_le]
  split
  · exact le_rfl
  · next hle =>
    rw [toNat_ofNat']
    exact le_trans (mod_le _ _) (not_lt.1 hle)

theorem step_inv {a : Action} (h : Inv k mode s) (hs : step mode s a = some (e, s')) : Inv k mode s' := by
  unfold step at hs
  split at hs
  · cases hs
    exact h.setProducer trivial
  · exact producerGoes_inv h hs
  · next hc =>
    split at hs
    · next hmode =>
      cases hs
      exact h.setConsumer (by rw [hc]; rfl) hmode
    · cases hs
  · next hc =>
    cases hs
    exact h.setConsumer (by rw [hc]; rfl) trivial
  · next hc =>
    cases hs
    exact h.setConsumer (by rw [hc]; rfl) trivial
  · next n _ _ got hc =>
    have hok := h.consumer
    simp only [ConsumerOk, hc] at hok
    split at hs
    · next hn =>
      cases hs
      have hlen : (got.take n).length = n := by
        rw [length_take]
        omega
      have hadv := h.advance (by rw [hc]; rfl) (hok.2.2.2.2.take hn.2)
      rw [hlen] at hadv
      exact hadv
    · cases hs
  · next n _ _ _ hc =>
    have hok := h.consumer
    simp only [ConsumerOk, hc] at hok
    obtain ⟨rfl, hcell, hlen, -, -⟩ := hok
    split at hs
    · next hn =>
      cases hs
      exact h.hold hn.1 (by rw [hc]; rfl) (by omega) (by omega)
    · cases hs
  · next n hc =>
    split at hs
    · next hmode =>
      cases hs
      exact h.ack hmode (by rw [hc]; rfl) (ackLen_le s.ring n)
    · cases hs
  · next hc =>
    cases hs
    exact h.setConsumer (by rw [hc]; rfl) ⟨h.wpos, h.taken_le, le_rfl⟩
  · exact consumerGoes_inv h hs
  · cases hs

end

/-! ## Runs -/

variable {r : Ring}

theorem Reachable.inv {k : Nat} {mode : Mode} (hr : r.Fresh k) {s : State} (h : Reachable mode r s) : Inv k mode s := by
  induction h with
  | start => exact Inv.start hr mode
  | step _ hs ih => exact step_inv ih hs

section

variable {k : Nat} {mode : Mode} {s s' : State} {e : Event}

/-- What `byte_ring_write` changes: nothing but its place, until it has found room; then it is accepted. -/
theorem producerGoes_changes (hs : producerGoes s = some (e, s')) :
    (s' = { s with producer := s'.producer } ∧ ∀ data, e = .wrote data true → data = []) ∨
      ∃ data wpos done, s.producer = .copying data wpos done ∧
        (e = .silent ∧ s'.producer = .copying data wpos (done + 1) ∧ s'.sent = s.sent ∨
          e = .wrote data true ∧ s'.sent = s.sent ++ data) := by
  unfold producerGoes at hs
  cases hp : s.producer with
  | idle =>
    rw [hp] at hs
    cases hs
  | called data =>
    simp only [hp] at hs
    left
    split at hs
    · next hnil =>
      cases hs
      refine ⟨rfl, ?_⟩
      rintro _ ⟨⟩
      exact hnil
    · split at hs <;> cases hs <;> exact ⟨rfl, nofun⟩
  | loaded data wpos =>
    simp only [hp] at hs
    left
    split at hs <;> cases hs <;> exact ⟨rfl, nofun⟩
  | copying data wpos done =>
    simp only [hp] at hs
    right
    refine ⟨data, wpos, done, rfl, ?_⟩
    split at hs
    · cases hs
      exact .inl ⟨rfl, rfl, rfl⟩
    · cases hs
      exact .inr ⟨rfl, rfl⟩

theorem consumerGoes_event (hs : consumerGoes s = some (e, s')) : match e with
    | .silent => True
    | .wrote _ _ => False
    | .nothing written => (∃ maxlen, s.consumer = .readLoaded maxlen s.ring.rpos written) ∨
        s.consumer = .peekLoaded (s.ring.rpos + s.ring.inflight) written
    | .unsent n written => ∃ wpos, s.consumer = .unsentLoaded wpos written ∧
        n = wpos - s.ring.rpos - s.ring.inflight := by
  unfold consumerGoes at hs
  cases hc : s.consumer with
  | idle =>
    rw [hc] at hs
    cases hs
  | readLoaded maxlen wpos written =>
    simp only [hc] at hs
    split at hs
    · next heq =>
      cases hs
      exact .inl ⟨maxlen, by rw [heq]⟩
    · cases hs
      trivial
  | readCopy rpos idx n dst =>
    simp only [hc] at hs
    split at hs
    · split at hs <;> cases hs
      trivial
    · cases hs
      trivial
  | peekLoaded wpos written =>
    simp only [hc] at hs
    split at hs
    · next heq =>
      cases hs
      exact .inr (by rw [heq])
    · cases hs
      trivial
  | view idx len got =>
    simp only [hc] at hs
    split at hs
    · split at hs <;> cases hs
      trivial
    · cases hs
  | acking n =>
    simp only [hc] at hs
    cases hs
    trivial
  | unsentLoaded wpos written =>
    simp only [hc] at hs
    cases hs
    exact ⟨wpos, rfl, rfl⟩
  | _ =>
    simp only [hc] at hs
    split at hs <;> cases hs <;> trivial

variable {written : Nat}

open scoped UInt32.CommRing in
theorem Inv.unsent (h : Inv k mode s) {n : UInt32} (hs : consumerGoes s = some (.unsent n written, s')) :
    n.toNat = written - s.taken.length ∧ s.taken.length ≤ written ∧ written ≤ s.sent.length := by
  obtain ⟨wpos, hc, rfl⟩ := consumerGoes_event hs
  have hok := h.consumer
  simp only [ConsumerOk, hc] at hok
  obtain ⟨rfl, hle, hle'⟩ := hok
  refine ⟨?_, hle, hle'⟩
  rw [sub_sub, h.rpos_add (by rw [hc]; rfl), h.ahead hle hle']

theorem Inv.nothing (h : Inv k mode s) (hs : consumerGoes s = some (.nothing written, s')) :
    written = s.taken.length := by
  have hok := h.consumer
  rcases consumerGoes_event hs with ⟨maxlen, hc⟩ | hc
  · simp only [ConsumerOk, hc] at hok
    obtain ⟨hmode, hwpos, hle, hle'⟩ := hok
    rw [h.rpos, h.freed_eq hmode (by rw [hc]; rfl)] at hwpos
    exact h.ahead_eq hle hle' hwpos.symm
  · simp only [ConsumerOk, hc] at hok
    obtain ⟨hwpos, hle, hle'⟩ := hok
    rw [h.rpos_add (by rw [hc]; rfl)] at hwpos
    exact h.ahead_eq hle hle' hwpos.symm

end

/-- In every run what the reader takes is what was accepted, in order; what it holds stands in its cells; a write that
    is refused has changed nothing; and the reader is told how much there is. -/
theorem ring_runs {k : Nat} {mode : Mode} {r : Ring} (hr : r.Fresh k) {s : State} (h : Reachable mode r s) :
    s.taken <+: s.sent ∧
    (s.ring.rpos = .ofNat s.freed ∧ s.freed + s.ring.inflight.toNat + s.consumer.pending = s.taken.length ∧
      ∀ j, s.freed ≤ j → j < s.taken.length → s.ring.buf[j % s.ring.buf.length]? = s.taken[j]?) ∧
    (∀ e s', step mode s .producerGoes = some (e, s') →
      (s' = { s with producer := s'.producer } ∧ ∀ data, e = .wrote data true → data = []) ∨
        ∃ data wpos done, s.producer = .copying data wpos done ∧
          (e = .silent ∧ s'.producer = .copying data wpos (done + 1) ∧ s'.sent = s.sent ∨
            e = .wrote data true ∧ s'.sent = s.sent ++ data)) ∧
    (∀ n written s', step mode s .consumerGoes = some (.unsent n written, s') → n.toNat = written - s.taken.length) ∧
    ∀ written s', step mode s .consumerGoes = some (.nothing written, s') → written = s.taken.length := by
  have hinv := h.inv hr
  refine ⟨hinv.taken, ⟨hinv.rpos, hinv.held, ?_⟩, fun e s' => producerGoes_changes,
    fun n written s' hs => (hinv.unsent hs).1, fun written s' hs => hinv.nothing hs⟩
  intro j hj hj'
  have hle := hinv.taken_le
  obtain ⟨rest, hrest⟩ := hinv.taken
  rw [hinv.shows j hj (by omega), ← hrest, getElem?_append_left hj']

/-! ## Both sides at once -/

/-- The cells that a copy into the ring has to do with. -/
def State.Writes (s : State) (c : Nat) : Prop :=
  ∃ data wpos done i, s.producer = .copying data wpos done ∧ i < data.length ∧ c = writeCell s.ring.cap wpos data.length i

/-- The cells that the reader may look at: those of its copy or of its view, and those that it holds. -/
def State.Looks (s : State) (c : Nat) : Prop :=
  (∃ rpos idx n dst, s.consumer = .readCopy rpos idx n dst ∧ idx ≤ c ∧ c < idx + n) ∨
    (∃ idx len got, s.consumer = .view idx len got ∧ idx ≤ c ∧ c < idx + len) ∨
    ∃ j, s.freed ≤ j ∧ j < s.taken.length ∧ c = j % s.ring.buf.length

section

variable {k : Nat} {mode : Mode} {s : State} {c : Nat}

theorem Inv.writes (h : Inv k mode s) (hc : s.Writes c) :
    ∃ j, s.sent.length ≤ j ∧ j < s.freed + s.ring.buf.length ∧ c = j % s.ring.buf.length := by
  obtain ⟨data, wpos, done, i, heq, hi, rfl⟩ := hc
  have hp := h.producer
  simp only [ProducerOk, heq] at hp
  obtain ⟨rfl, -, -, hroom, -⟩ := hp
  have hheld := h.held
  have hle := h.taken_le
  exact ⟨s.sent.length + i, by omega, by omega, h.writeCell_eq hi (by omega)⟩

theorem Inv.looks (h : Inv k mode s) (hc : s.Looks c) :
    ∃ j, s.freed ≤ j ∧ j < s.sent.length ∧ c = j % s.ring.buf.length := by
  have hcon := h.consumer
  have hheld := h.held
  have hle := h.taken_le
  have hrun : ∀ {n}, s.taken.length % s.ring.buf.length + n ≤ s.ring.buf.length → s.taken.length + n ≤ s.sent.length →
      s.taken.length % s.ring.buf.length ≤ c → c < s.taken.length % s.ring.buf.length + n →
      ∃ j, s.freed ≤ j ∧ j < s.sent.length ∧ c = j % s.ring.buf.length := by
    intro n hend hsent hlo hhi
    refine ⟨s.taken.length + (c - s.taken.length % s.ring.buf.length), by omega, by omega, ?_⟩
    rw [mod_add_cases (by omega), if_pos (by omega)]
    omega
  obtain ⟨rpos, idx, n, dst, heq, hlo, hhi⟩ | ⟨idx, len, got, heq, hlo, hhi⟩ | ⟨j, hj, hj', rfl⟩ := hc
  · simp only [ConsumerOk, heq] at hcon
    obtain ⟨-, -, rfl, hend, hsent, -⟩ := hcon
    exact hrun hend hsent hlo hhi
  · simp only [ConsumerOk, heq] at hcon
    obtain ⟨rfl, hend, hsent, -⟩ := hcon
    exact hrun hend hsent hlo hhi
  · exact ⟨j, hj, by omega, rfl⟩

end

/-- In every interleaving both sides stay within the buffer, and the writer's copy never touches a cell that the reader
may look at. -/
theorem no_race {k : Nat} {mode : Mode} {r : Ring} (hr : r.Fresh k) {s : State} (h : Reachable mode r s) :
    (∀ c, s.Writes c ∨ s.Looks c → c < s.ring.buf.length) ∧ ∀ c, s.Writes c → ¬ s.Looks c := by
  have hinv := h.inv hr
  constructor
  · rintro c (hc | hc)
    · obtain ⟨j, -, -, rfl⟩ := hinv.writes hc
      exact mod_lt _ hinv.buf_pos
    · obtain ⟨j, -, -, rfl⟩ := hinv.looks hc
      exact mod_lt _ hinv.buf_pos
  · intro c hw hl
    obtain ⟨j, hj, hj', rfl⟩ := hinv.writes hw
    obtain ⟨i, hi, hi', heq⟩ := hinv.looks hl
    exact cell_ne (by omega) (by omega) heq

/-- The actions one after the other. -/
def run (mode : Mode) : State → List Action → Option State
  | s, [] => some s
  | s, a :: as => match step mode s a with
    | some (_, s') => run mode s' as
    | none => none

theorem Reachable.run {mode : Mode} {s s' : State} (h : Reachable mode r s) {as : List Action}
    (hs : run mode s as = some s') : Reachable mode r s' := by
  induction as generalizing s with
  | nil =>
    cases hs
    exact h
  | cons a as ih =>
    rw [ByteRing.run] at hs
    split at hs
    · next heq => exact ih (h.step heq) hs
    · cases hs

/-- A ring of four bytes. -/
def smallRing : Ring := { alloc := true, buf := replicate 4 0, cap := 4 }

theorem smallRing_fresh : smallRing.Fresh 2 := ⟨by decide, rfl, rfl, rfl, rfl, rfl⟩

/-- Three bytes are written and two of them held, while the next write goes round the end. -/
def heldRun : List Action :=
  [.write [1, 2, 3], .producerGoes, .producerGoes, .producerGoes, .producerGoes, .producerGoes, .producerGoes, .peek,
    .consumerGoes, .consumerGoes, .hold 2, .ack 1, .consumerGoes, .write [4, 5], .producerGoes, .producerGoes,
    .producerGoes, .unsent, .producerGoes, .producerGoes, .consumerGoes, .peek, .consumerGoes, .consumerGoes, .hold 2]

theorem heldRun_runs : (run .held { ring := smallRing } heldRun).isSome = true := by decide +kernel

theorem heldRun_exact :
    let s := (run .held { ring := smallRing } heldRun).get heldRun_runs
    s.taken <+: s.sent ∧
    (s.ring.rpos = .ofNat s.freed ∧ s.freed + s.ring.inflight.toNat + s.consumer.pending = s.taken.length ∧
      ∀ j, s.freed ≤ j → j < s.taken.length → s.ring.buf[j % s.ring.buf.length]? = s.taken[j]?) ∧
    (∀ e s', step .held s .producerGoes = some (e, s') →
      (s' = { s with producer := s'.producer } ∧ ∀ data, e = .wrote data true → data = []) ∨
        ∃ data wpos done, s.producer = .copying data wpos done ∧
          (e = .silent ∧ s'.producer = .copying data wpos (done + 1) ∧ s'.sent = s.sent ∨
            e = .wrote data true ∧ s'.sent = s.sent ++ data)) ∧
    (∀ n written s', step .held s .consumerGoes = some (.unsent n written, s') → n.toNat = written - s.taken.length) ∧
    ∀ written s', step .held s .consumerGoes = some (.nothing written, s') → written = s.taken.length :=
  ring_runs smallRing_fresh (Reachable.start.run (Option.some_get heldRun_runs).symm)

example : ((run .held { ring := smallRing } heldRun).map fun s => (s.taken, s.sent, s.freed)) =
    some ([1, 2, 3, 4], [1, 2, 3, 4, 5], 1) := by
  decide +kernel

/-- The next write is in its copy when the reader looks at the third byte and holds the second. -/
theorem heldRun_no_race : ∃ s, run .held { ring := smallRing } (heldRun.take 17 ++ [.peek, .consumerGoes, .consumerGoes]) = some s ∧
    s.producer = .copying [4, 5] 3 1 ∧ s.consumer = .view 2 1 [] ∧ (∀ c, s.Writes c ∨ s.Looks c → c < s.ring.buf.length) ∧
    ∀ c, s.Writes c → ¬ s.Looks c := by
  have hplaces : ((run .held { ring := smallRing } (heldRun.take 17 ++ [.peek, .consumerGoes, .consumerGoes])).map
      fun s => (s.producer, s.consumer)) = some (.copying [4, 5] 3 1, .view 2 1 []) := by decide +kernel
  obtain ⟨s, hs, heq⟩ := Option.map_eq_some_iff.1 hplaces
  obtain ⟨hproducer, hconsumer⟩ := Prod.mk.inj heq
  exact ⟨s, hs, hproducer, hconsumer, no_race smallRing_fresh (Reachable.start.run hs)⟩

end DvbIpiTools.ByteRing
