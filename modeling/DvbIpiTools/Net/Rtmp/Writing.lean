import DvbIpiTools.Net.Rtmp.Session

set_option autoImplicit false

/-! # A conforming sender of chunks

A sender has up to eight chunk streams under way at a time and sends their chunks in any order. It opens a message with any of
the four header forms that says what the message is, given the last message of the chunk stream. -/

namespace DvbIpiTools.Net.Rtmp

open List Option

/-- A chunk stream, as a sender remembers it: the last message, the timestamp its header carried, and how many bytes of its
    payload are sent. -/
structure Stream where
  message : Message
  field : UInt32
  streamId : UInt32
  sent : Nat

/-- The next bytes of the message. -/
def Stream.piece (q : Stream) (size : ChunkSize) : List UInt8 := (q.message.payload.drop q.sent).take size.1

/-- The stream behind them. -/
def Stream.advance (q : Stream) (size : ChunkSize) : Stream := { q with sent := q.sent + (q.piece size).length }

theorem Stream.length_piece (q : Stream) (size : ChunkSize) :
    (q.piece size).length = min size.1 (q.message.payload.length - q.sent) := by
  rw [Stream.piece, length_take, length_drop]

theorem Stream.take_piece (q : Stream) (size : ChunkSize) :
    (q.message.payload.drop q.sent).take (q.piece size).length = q.piece size := by
  rw [Stream.piece]
  exact take_eq_take_iff.2 (by rw [length_take]; omega)

theorem Stream.take_advance (q : Stream) (size : ChunkSize) :
    q.message.payload.take (q.advance size).sent = q.message.payload.take q.sent ++ q.piece size := by
  rw [show (q.advance size).sent = q.sent + (q.piece size).length from rfl, take_add, q.take_piece]

def Stream.header (q : Stream) (fmt cid : Nat) : ChunkHeader :=
  ⟨fmt, cid, q.field, q.message.payload.length, q.message.type, q.streamId⟩

/-- The header of a message, given the last one of its chunk stream. A form that leaves a field out takes it from there, and
    the timestamp of all but the first form is a difference. -/
inductive Stream.Opens (q : Stream) : Option Stream → Nat → Prop where
  | absolute {last : Option Stream} (htime : q.field = q.message.timestamp) : Opens q last 0
  | relative {p : Stream} (htime : p.message.timestamp + q.field = q.message.timestamp) (hid : p.streamId = q.streamId) :
      Opens q (some p) 1
  | likeLast {p : Stream} (htime : p.message.timestamp + q.field = q.message.timestamp) (hid : p.streamId = q.streamId)
      (htype : p.message.type = q.message.type) (hlen : p.message.payload.length = q.message.payload.length) : Opens q (some p) 2
  | asLast {p : Stream} (htime : p.message.timestamp + q.field = q.message.timestamp) (hid : p.streamId = q.streamId)
      (htype : p.message.type = q.message.type) (hlen : p.message.payload.length = q.message.payload.length)
      (hfield : p.field = q.field) : Opens q (some p) 3

structure Sender where
  chunkSize : ChunkSize
  stream : Nat → Option Stream
  used : Nat

def Sender.fresh (size : ChunkSize) : Sender := ⟨size, fun _ => none, 0⟩

/-- The sender behind the next bytes of the stream `q`. The chunk size it announced holds from the next chunk on. -/
def Sender.put (st : Sender) (cid : Nat) (q : Stream) : Sender where
  chunkSize :=
    if (q.advance st.chunkSize).sent = q.message.payload.length then q.message.chunkSizeAfter st.chunkSize else st.chunkSize
  stream := fun k => if cid = k then some (q.advance st.chunkSize) else st.stream k
  used := if (st.stream cid).isNone then st.used + 1 else st.used

/-- The message that the next bytes of the stream `q` complete. -/
def Sender.completed (st : Sender) (cid : Nat) (q : Stream) : List (Nat × Message) :=
  if (q.advance st.chunkSize).sent = q.message.payload.length then [(cid, q.message)] else []

/-- One chunk: its bytes and the message it completes. The ids are those a basic header can carry. -/
inductive Sender.Step (st : Sender) : List UInt8 → List (Nat × Message) → Sender → Prop where
  | start {cid fmt : Nat} {q : Stream} (hlo : 2 ≤ cid) (hhi : cid < 65600)
      (hidle : ∀ p, st.stream cid = some p → p.sent = p.message.payload.length)
      (hroom : st.stream cid = none → st.used < rtmpNChan) (hnew : q.sent = 0) (hopens : q.Opens (st.stream cid) fmt)
      (hlen : q.message.payload.length ≤ rtmpMaxMessageBytes) :
      Step st (basicHeaderWrite fmt cid ++ (messageHeaderWrite (q.header fmt cid) ++ (extendedTimestamp (q.header fmt cid) ++
        q.piece st.chunkSize))) (st.completed cid q) (st.put cid q)
  | next {cid : Nat} {q : Stream} (hlo : 2 ≤ cid) (hhi : cid < 65600) (hq : st.stream cid = some q)
      (hunder : q.sent < q.message.payload.length) :
      Step st (basicHeaderWrite 3 cid ++ (extendedTimestamp (q.header 3 cid) ++ q.piece st.chunkSize)) (st.completed cid q)
        (st.put cid q)

/-- A run: its bytes, and the messages in the order of their completion. -/
inductive Sender.Run : Sender → List UInt8 → List (Nat × Message) → Sender → Prop where
  | refl (st : Sender) : Run st [] [] st
  | step {st st' st'' : Sender} {b b' : List UInt8} {ms ms' : List (Nat × Message)} (h : st.Step b ms st') (hrest : Run st' b' ms' st'') :
      Run st (b ++ b') (ms ++ ms') st''

theorem Sender.Run.append {st st' st'' : Sender} {b b' : List UInt8} {ms ms' : List (Nat × Message)} (h : st.Run b ms st')
    (h' : st'.Run b' ms' st'') : st.Run (b ++ b') (ms ++ ms') st'' := by
  induction h with
  | refl st => exact h'
  | step hstep _ ih =>
    rw [append_assoc, append_assoc]
    exact .step hstep (ih h')

/-! # The writer is a conforming sender

The bytes behind the calls of `rtmp_session_write_message` are those of a run that sends the messages one by one. -/

open KeyedList

/-! ## The buffer -/

/-- All the bytes put so far, whether they are written or still in the buffer. -/
def Writer.bytes (w : Writer) : List UInt8 := w.written.flatten ++ w.wbuf

theorem bytes_wflush (w : Writer) : w.wflush.bytes = w.bytes := by
  rw [Writer.wflush, Writer.bytes, Writer.bytes]
  cases h : w.wbuf with
  | nil => rfl
  | cons b l => simp

theorem bytes_wput (w : Writer) (d : List UInt8) : (w.wput d).bytes = w.bytes ++ d := by
  have hput : ∀ w : Writer, (rtmpWbufSize ≤ d.length → w.wbuf = []) →
      (if rtmpWbufSize ≤ d.length then { w with written := w.written ++ [d] } else { w with wbuf := w.wbuf ++ d } : Writer).bytes =
        w.bytes ++ d := fun w hempty => by
    split
    · rename_i hlong
      simp [Writer.bytes, hempty hlong]
    · simp [Writer.bytes]
  rw [Writer.wput]
  by_cases hfull : rtmpWbufSize - w.wbuf.length < d.length
  · simp only [if_pos hfull]
    rw [hput _ fun _ => rfl, bytes_wflush]
  · simp only [if_neg hfull]
    refine hput w fun hlong => eq_nil_of_length_eq_zero ?_
    simp only [rtmpWbufSize] at hfull hlong
    omega

theorem outChan_wput (w : Writer) (d : List UInt8) : (w.wput d).outChan = w.outChan := by
  simp only [Writer.wput]
  split <;> split <;> rfl

theorem bytes_putParts (w : Writer) (msgHdr payload : List UInt8) (sent chunk : Nat) :
    (w.putParts msgHdr payload sent chunk).bytes = w.bytes ++ ((msgHdr ++ payload).drop sent).take chunk := by
  simp only [Writer.putParts]
  by_cases hsent : sent < msgHdr.length
  · have hdrop : (msgHdr ++ payload).drop sent = msgHdr.drop sent ++ payload := drop_append_of_le_length (by omega)
    simp only [if_pos hsent, hdrop]
    by_cases hmore : chunk ≤ msgHdr.length - sent
    · rw [if_neg (by omega), bytes_wput, take_append_of_le_length (by rw [length_drop]; omega), Nat.min_eq_right hmore]
    · have hall : ∀ n, msgHdr.length - sent ≤ n → (msgHdr.drop sent).take n = msgHdr.drop sent := fun n hn =>
        take_of_length_le (by rw [length_drop]; exact hn)
      rw [if_pos (by omega), bytes_wput, bytes_wput, Nat.min_eq_left (by omega), append_assoc, take_append,
        hall _ le_rfl, hall chunk (by omega), length_drop,
        show sent + (msgHdr.length - sent) - msgHdr.length = 0 by omega, drop_zero]
  have hdrop : (msgHdr ++ payload).drop sent = payload.drop (sent - msgHdr.length) := by
    rw [drop_append, drop_of_length_le (by omega), nil_append]
  simp only [if_neg hsent, Nat.sub_zero, add_zero, hdrop]
  by_cases hzero : chunk = 0
  · rw [if_neg (by omega), hzero, take_zero, append_nil]
  · rw [if_pos hzero, bytes_wput]

theorem outChan_putParts (w : Writer) (msgHdr payload : List UInt8) (sent chunk : Nat) :
    (w.putParts msgHdr payload sent chunk).outChan = w.outChan := by
  simp only [Writer.putParts]
  split <;> split <;> simp only [outChan_wput]

/-! ## One message -/

/-- The sender after all of the message `q`. -/
def Sender.putAll (st : Sender) (cid : Nat) (q : Stream) : Sender where
  chunkSize := q.message.chunkSizeAfter st.chunkSize
  stream := fun k => if cid = k then some { q with sent := q.message.payload.length } else st.stream k
  used := if (st.stream cid).isNone then st.used + 1 else st.used

section
variable {st : Sender} {cid : Nat} {q : Stream}

theorem put_eq_putAll (h : (q.advance st.chunkSize).sent = q.message.payload.length) : st.put cid q = st.putAll cid q := by
  rw [Sender.put, Sender.putAll, if_pos h, ← h]
  rfl

/-- The stream's next bytes do not show in what is left behind the whole message. -/
theorem putAll_put (h : (q.advance st.chunkSize).sent ≠ q.message.payload.length) :
    (st.put cid q).putAll cid (q.advance st.chunkSize) = st.putAll cid q := by
  have hself : ((st.put cid q).stream cid).isNone = false := by
    simp only [Sender.put, if_pos]
    rfl
  rw [Sender.putAll, hself, Sender.putAll]
  simp only [Sender.put, if_neg h, Sender.mk.injEq]
  refine ⟨rfl, funext fun k => ?_, rfl⟩
  by_cases hk : cid = k
  · rw [if_pos hk, if_pos hk]
    rfl
  · rw [if_neg hk, if_neg hk, if_neg hk]

theorem extendedTimestamp_eq {h h' : ChunkHeader} (heq : h.timestamp = h'.timestamp) : extendedTimestamp h = extendedTimestamp h' := by
  rw [extendedTimestamp, extendedTimestamp, heq]

/-- The loop puts the rest of the message: the bytes that belong to the header already put, then whole chunks. -/
theorem putChunks_run (hlo : 2 ≤ cid) (hhi : cid < 65600) {h : ChunkHeader} (hcid : h.cid = cid) (htime : h.timestamp = q.field)
    {msgHdr payload : List UInt8} (hpayload : q.message.payload = msgHdr ++ payload) (hsent : q.sent ≤ q.message.payload.length)
    (w : Writer) : (w.putChunks st.chunkSize h msgHdr payload q.sent).outChan = w.outChan ∧
      ∃ b ms, (w.putChunks st.chunkSize h msgHdr payload q.sent).bytes = w.bytes ++ (q.piece st.chunkSize ++ b) ∧
        (st.put cid q).Run b ms (st.putAll cid q) ∧ st.completed cid q ++ ms = [(cid, q.message)] := by
  induction hn : q.message.payload.length - q.sent using Nat.strong_induction_on generalizing st q w with
  | _ n ih =>
    have hlen : q.message.payload.length = msgHdr.length + payload.length := by rw [hpayload, length_append]
    have hpos := st.chunkSize.2
    have hpiece := q.length_piece st.chunkSize
    have hadvance : (q.advance st.chunkSize).sent = q.sent + (q.piece st.chunkSize).length := rfl
    have hchunk : min (msgHdr.length + payload.length - q.sent) st.chunkSize.1 = (q.piece st.chunkSize).length := by omega
    have hput : (w.putParts msgHdr payload q.sent (q.piece st.chunkSize).length).bytes = w.bytes ++ q.piece st.chunkSize := by
      rw [bytes_putParts, ← hpayload, q.take_piece]
    rw [Writer.putChunks, hchunk]
    by_cases hmore : q.sent < msgHdr.length + payload.length
    · simp only [dif_pos hmore, ← hadvance]
      by_cases hlast : (q.advance st.chunkSize).sent < msgHdr.length + payload.length
      · have hunder : (q.advance st.chunkSize).sent < q.message.payload.length := by omega
        have hless : q.message.payload.length - (q.advance st.chunkSize).sent < n := by omega
        have hsize : (st.put cid q).chunkSize = st.chunkSize := if_neg (by omega)
        obtain ⟨hchan, b, ms, hbytes, hrun, hms⟩ := @ih _ hless
          (st.put cid q) (q.advance st.chunkSize) htime hpayload hunder.le
          ((w.putParts msgHdr payload q.sent (q.piece st.chunkSize).length).wput (basicHeaderWrite 3 h.cid ++ extendedTimestamp h)) rfl
        rw [hsize] at hchan hbytes
        rw [@putAll_put st cid q (by omega)] at hrun
        have hstep := @Sender.Step.next (st.put cid q) cid (q.advance st.chunkSize) hlo hhi (if_pos rfl) hunder
        rw [if_pos hlast]
        refine ⟨hchan.trans (by rw [outChan_wput, outChan_putParts]), _, _, ?_, .step hstep hrun, ?_⟩
        · rw [hbytes, bytes_wput, hput, hsize, hcid, @extendedTimestamp_eq h ((q.advance st.chunkSize).header 3 cid) htime]
          simp only [append_assoc]
        · rw [Sender.completed, if_neg (by omega), nil_append]
          exact hms
      · have hall : (q.advance st.chunkSize).sent = q.message.payload.length := by omega
        rw [if_neg hlast, Writer.putChunks, dif_neg hlast]
        refine ⟨outChan_putParts _ _ _ _ _, [], [], by rw [hput, append_nil], put_eq_putAll hall ▸ .refl _, ?_⟩
        rw [Sender.completed, if_pos hall, append_nil]
    · have hzero : q.piece st.chunkSize = [] := eq_nil_of_length_eq_zero (by omega)
      have hall : (q.advance st.chunkSize).sent = q.message.payload.length := by omega
      rw [dif_neg hmore]
      refine ⟨rfl, [], [], by rw [hzero, append_nil, append_nil], put_eq_putAll hall ▸ .refl _, ?_⟩
      rw [Sender.completed, if_pos hall, append_nil]

end

/-! ## What the channels remember -/

/-- A channel remembers the last message of a chunk stream, all of which is sent. -/
structure Stream.Kept (q : Stream) (c : OutChan) : Prop where
  field : c.header.timestamp = q.field
  length : c.header.length = q.message.payload.length
  type : c.header.type = q.message.type
  streamId : c.header.streamId = q.streamId
  clock : c.clock = q.message.timestamp
  sent : q.sent = q.message.payload.length

def Keeps : Option Stream → Option OutChan → Prop
  | none, none => True
  | some q, some c => q.Kept c
  | _, _ => False

/-- The writer between two messages of the sender. -/
structure Writer.Sim (w : Writer) (st : Sender) : Prop where
  used : w.outChan.length = st.used
  chan : ∀ cid, Keeps (st.stream cid) (lookup OutChan.cid w.outChan cid)

theorem Writer.Sim.fresh (size : ChunkSize) : Writer.Sim {} (Sender.fresh size) := ⟨rfl, fun _ => trivial⟩

/-- The stream of a message that is not sent yet, with the header of `rtmp_session_write_message`. -/
def messageStream (h : ChunkHeader) (m : Message) : Stream := ⟨m, h.timestamp, h.streamId, 0⟩

theorem messageHeader_opens {last : Option Stream} {chan : Option OutChan} (h : Keeps last chan) (cid : Nat) (m : Message)
    (streamId : UInt32) : let g := messageHeader chan cid m.type streamId m.timestamp m.payload.length
      (messageStream g m).Opens last g.fmt ∧ g = (messageStream g m).header g.fmt cid ∧ g.streamId = streamId := by
  cases chan with
  | none => exact ⟨.absolute rfl, rfl, rfl⟩
  | some c =>
    cases last with
    | none => exact h.elim
    | some p =>
      simp only [messageHeader]
      by_cases hrising : c.clock ≤ m.timestamp ∧ m.timestamp - c.clock < 0xFFFFFF ∧ streamId = c.header.streamId
      · rw [if_pos hrising]
        have htime : p.message.timestamp + (m.timestamp - c.clock) = m.timestamp := by
          rw [h.clock, UInt32.add_comm, UInt32.sub_add_cancel]
        have hid : p.streamId = streamId := by rw [hrising.2.2, h.streamId]
        by_cases hlike : m.type = c.header.type ∧ m.payload.length = c.header.length
        · have htype : p.message.type = m.type := by rw [hlike.1, h.type]
          have hlen : p.message.payload.length = m.payload.length := by rw [hlike.2, h.length]
          rw [if_pos hlike]
          by_cases hsame : m.timestamp - c.clock = c.header.timestamp
          · rw [if_pos hsame]
            exact ⟨.asLast htime hid htype hlen (by rw [messageStream, hsame, h.field]), rfl, rfl⟩
          · rw [if_neg hsame]
            exact ⟨.likeLast htime hid htype hlen, rfl, rfl⟩
        · rw [if_neg hlike]
          exact ⟨.relative htime hid, rfl, rfl⟩
      · rw [if_neg hrising]
        exact ⟨.absolute rfl, rfl, rfl⟩

section
variable {st : Sender} {w w' : Writer} {cid : Nat} {type : UInt8} {streamId timestamp : UInt32} {msgHdr payload : List UInt8}

theorem Writer.Sim.isNone (h : w.Sim st) (cid : Nat) : (lookup OutChan.cid w.outChan cid).isNone = (st.stream cid).isNone := by
  have hkeeps := h.chan cid
  cases hq : st.stream cid <;> cases hc : lookup OutChan.cid w.outChan cid <;> rw [hq, hc] at hkeeps
  · rfl
  · exact hkeeps.elim
  · exact hkeeps.elim
  · rfl

theorem Writer.Sim.putAll (h : w.Sim st) {q : Stream} {c : OutChan} (hcid : c.cid = cid)
    (hkept : Stream.Kept { q with sent := q.message.payload.length } c)
    (hchan : w'.outChan = if (lookup OutChan.cid w.outChan cid).isSome then replace OutChan.cid c w.outChan else w.outChan ++ [c]) :
    w'.Sim (st.putAll cid q) := by
  have hnone := h.isNone cid
  cases hc : lookup OutChan.cid w.outChan cid with
  | none =>
    rw [hc] at hnone hchan
    simp only [isSome_none, Bool.false_eq_true, if_false] at hchan
    refine ⟨?_, fun k => ?_⟩
    · simp only [Sender.putAll, hchan, ← hnone, isNone_none, if_true, length_append, length_singleton, h.used]
    rw [hchan, lookup_append (by rw [hcid]; exact hc), hcid]
    simp only [Sender.putAll]
    by_cases hk : cid = k
    · rw [if_pos hk, if_pos hk]
      exact hkept
    · rw [if_neg hk, if_neg hk]
      exact h.chan k
  | some c' =>
    rw [hc] at hnone hchan
    simp only [isSome_some, if_true] at hchan
    refine ⟨?_, fun k => ?_⟩
    · simp only [Sender.putAll, hchan, ← hnone, isNone_some, Bool.false_eq_true, if_false, length_replace, h.used]
    rw [hchan, lookup_put hc hcid]
    simp only [Sender.putAll]
    by_cases hk : cid = k
    · rw [if_pos hk, if_pos hk]
      exact hkept
    · rw [if_neg hk, if_neg hk]
      exact h.chan k

theorem sessionWriteMessage_run (h : w.Sim st) (hlo : 2 ≤ cid) (hhi : cid < 65600)
    (hlen : msgHdr.length + payload.length ≤ rtmpMaxMessageBytes)
    (hw : w.sessionWriteMessage st.chunkSize cid type streamId timestamp msgHdr payload = some w') :
    let m : Message := ⟨type, timestamp, msgHdr ++ payload⟩
    ∃ b st', w'.bytes = w.bytes ++ b ∧ st.Run b [(cid, m)] st' ∧ st'.chunkSize = m.chunkSizeAfter st.chunkSize ∧ w'.Sim st' := by
  intro m
  have hmlen : msgHdr.length + payload.length = m.payload.length := length_append.symm
  simp only [Writer.sessionWriteMessage] at hw
  generalize hg : messageHeader (lookup OutChan.cid w.outChan cid) cid type streamId timestamp (msgHdr.length + payload.length) = g at hw
  obtain ⟨hopens, hheader, hid⟩ := messageHeader_opens (h.chan cid) cid m streamId
  rw [← hmlen, show m.type = type from rfl, show m.timestamp = timestamp from rfl, hg] at hopens hheader hid
  split at hw
  · cases hw
  split at hw
  · cases hw
  rename_i hroom
  simp only [some.injEq] at hw
  have hgcid : g.cid = cid := by rw [hheader]; rfl
  obtain ⟨houtChan, b, ms, hbytes, hrun, hms⟩ := @putChunks_run st cid (messageStream g m) hlo hhi g hgcid rfl msgHdr payload rfl
    (Nat.zero_le _) (Writer.wput { w with outChan :=
      if (lookup OutChan.cid w.outChan cid).isSome then replace OutChan.cid ⟨cid, g, timestamp⟩ w.outChan
      else w.outChan ++ [⟨cid, g, timestamp⟩] } (basicHeaderWrite g.fmt cid ++ (messageHeaderWrite g ++ extendedTimestamp g)))
  have hidle : ∀ p, st.stream cid = some p → p.sent = p.message.payload.length := fun p hp => by
    have hkeeps := h.chan cid
    rw [hp] at hkeeps
    cases hc : lookup OutChan.cid w.outChan cid with
    | none => rw [hc] at hkeeps; exact hkeeps.elim
    | some c => rw [hc] at hkeeps; exact hkeeps.sent
  have hspare : st.stream cid = none → st.used < rtmpNChan := fun hnone => by
    have hisNone := h.isNone cid
    rw [hnone, isNone_none] at hisNone
    rw [← h.used]
    exact not_le.1 fun hfull => hroom ⟨hisNone, hfull⟩
  have hstart := @Sender.Step.start st cid g.fmt (messageStream g m) hlo hhi hidle hspare rfl hopens
    (show m.payload.length ≤ rtmpMaxMessageBytes by rw [← hmlen]; exact hlen)
  rw [← hheader] at hstart
  have hwhole := Sender.Run.step hstart hrun
  rw [hms] at hwhole
  refine ⟨_, _, ?_, hwhole, rfl, ?_⟩
  · rw [← hw, bytes_wflush]
    refine hbytes.trans ?_
    rw [bytes_wput]
    simp only [append_assoc, Writer.bytes]
  · refine h.putAll (c := ⟨cid, g, timestamp⟩) rfl ⟨rfl, ?_, ?_, rfl, rfl, rfl⟩ ?_
    · rw [hheader]; rfl
    · rw [hheader]; rfl
    · rw [← hw, Writer.wflush]
      exact houtChan.trans (outChan_wput _ _)

end

end DvbIpiTools.Net.Rtmp
