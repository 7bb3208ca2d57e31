import DvbIpiTools.Net.Rtmp.Feed
import DvbIpiTools.Net.Rtmp.Writing

set_option autoImplicit false

/-! # Reassembly

Between two chunks of a conforming sender the receiver's channels show what the sender remembers of its chunk streams. -/

namespace DvbIpiTools.Net.Rtmp

open BeUtil KeyedList List

/-- What a channel shows of a chunk stream between two chunks. -/
structure Stream.Shown (q : Stream) (c : InChan) : Prop where
  timestamp : c.header.timestamp = timestampField q.field
  length : c.header.length = q.message.payload.length
  type : c.header.type = q.message.type
  clock : c.clock = q.message.timestamp
  bytes : c.bytes = if q.sent = q.message.payload.length then 0 else q.sent
  held : c.payload.take c.bytes = q.message.payload.take c.bytes
  started : q.message.payload ≠ [] → 0 < q.sent
  inside : q.sent ≤ q.message.payload.length
  fits : q.message.payload.length ≤ rtmpMaxMessageBytes

def Shows : Option Stream → Option InChan → Prop
  | none, none => True
  | some q, some c => q.Shown c
  | _, _ => False

/-- The receiver between two chunks of the sender. -/
structure Sender.Sim (st : Sender) (s : Session) : Prop where
  inv : s.Inv
  idle : s.parser.state = .init
  size : s.inChunkSize = st.chunkSize
  used : s.inChan.length = st.used
  chan : ∀ cid, Shows (st.stream cid) (lookup InChan.cid s.inChan cid)

theorem Sender.Sim.fresh (size : ChunkSize) : (Sender.fresh size).Sim { inChunkSize := size } where
  inv := Session.Inv.fresh size
  idle := rfl
  size := rfl
  used := rfl
  chan := fun _ => trivial

/-! ## The header of a chunk -/

section
variable {oom : Nat → Bool} {s s' : Session} {n : Nat}

theorem Session.Inv.feed_next (h : s.Inv) {data : List UInt8} (hdata : data ≠ [])
    (hround : s.round oom data = .next s' n) : s'.Inv ∧ s.feed oom data = s'.feed oom (data.drop n) := by
  have hsound := @Session.Inv.round oom s data h
  rw [hround] at hsound
  exact ⟨hsound, by rw [feed_eq hdata, hround]⟩

/-- The session with a basic header and a message header in the parser's buffer. -/
def Session.headed (s : Session) (basic mh : List UInt8) : Session :=
  { s with parser := { s.parser with buffer := basic ++ mh, basicBytes := basic.length, state := .messageHeader } }

theorem basicBytesOf_eq {b : UInt8} (h : n = (if b.toNat % 64 = 0 then 2 else if b.toNat % 64 = 1 then 3 else 1)) :
    basicBytesOf b = n := by
  have hand : ∀ k : UInt8, b &&& 0x3F = k ↔ b.toNat % 64 = k.toNat := fun k => by
    rw [← UInt8.toNat_inj, UInt8.toNat_and, show (0x3F : UInt8).toNat = 2 ^ 6 - 1 from rfl, Nat.and_two_pow_sub_one_eq_mod]
  rw [h, basicBytesOf]
  simp only [hand]
  rfl

/-- The two header states take a whole header, and the message header is read. -/
theorem feed_header (h : s.Inv) (hidle : s.parser.state = .init) {fmt cid : Nat} (hfmt : fmt < 4) (hlo : 2 ≤ cid)
    (hhi : cid < 65600) {mh tail : List UInt8} (hmh : mh.length = msgHdrSize fmt) (htail : tail ≠ [])
    (hstep : (s.headed (basicHeaderWrite fmt cid) mh).stepMessageHeader (msgHdrSize fmt + (basicHeaderWrite fmt cid).length) =
      .done s') : (s'.goto .extendedTimestamp).Inv ∧
      s.feed oom (basicHeaderWrite fmt cid ++ (mh ++ tail)) = (s'.goto .extendedTimestamp).feed oom tail := by
  obtain ⟨b, brest, hb, hbfmt, hblen⟩ := basicHeaderWrite_head hfmt hlo hhi
  rw [hb] at hstep ⊢
  have hbytes : basicBytesOf b = brest.length + 1 := basicBytesOf_eq hblen
  -- the first byte
  have h1 : s.round oom (b :: brest ++ (mh ++ tail)) = .next { s with parser := { s.parser with
      buffer := [b], basicBytes := brest.length + 1, state := .basicHeader } } 1 := by
    simp only [Session.round, hidle, Session.roundInit, cons_append, getD_cons_zero, hbytes]
  obtain ⟨hinv1, hfeed1⟩ := h.feed_next (by simp) h1
  -- the rest of the basic header
  have hfill : Parser.fill { s.parser with buffer := [b], basicBytes := brest.length + 1, state := .basicHeader }
      (brest.length + 1) (brest ++ (mh ++ tail)) = brest := by
    rw [Parser.fill, length_singleton, Nat.add_sub_cancel, take_left]
  have h2 : Session.round oom { s with parser := { s.parser with
      buffer := [b], basicBytes := brest.length + 1, state := .basicHeader } } (brest ++ (mh ++ tail)) =
      .next { s with parser := { s.parser with
        buffer := b :: brest, basicBytes := brest.length + 1, state := .messageHeader } } brest.length := by
    simp only [Session.round, Session.roundBasicHeader, hfill, Session.buffered, Session.goto, cons_append, nil_append,
      length_cons, Nat.le_refl, if_true]
  obtain ⟨hinv2, hfeed2⟩ := hinv1.feed_next (by simp [htail]) h2
  -- the message header
  have hneed : Parser.headerNeed { s.parser with
      buffer := b :: brest, basicBytes := brest.length + 1, state := .messageHeader } = msgHdrSize fmt + (brest.length + 1) := by
    rw [Parser.headerNeed, byteAt, getD_cons_zero, shr_6, hbfmt]
  have hfill3 : Parser.fill { s.parser with buffer := b :: brest, basicBytes := brest.length + 1, state := .messageHeader }
      (msgHdrSize fmt + (brest.length + 1)) (mh ++ tail) = mh := by
    rw [Parser.fill, length_cons, Nat.add_sub_cancel, ← hmh, take_left]
  have h3 : Session.round oom { s with parser := { s.parser with
      buffer := b :: brest, basicBytes := brest.length + 1, state := .messageHeader } } (mh ++ tail) =
      .next (s'.goto .extendedTimestamp) mh.length := by
    simp only [Session.round, Session.roundMessageHeader, hneed, hfill3]
    rw [Session.headed, length_cons] at hstep
    rw [Session.buffered]
    simp only [hstep]
  obtain ⟨hinv3, hfeed3⟩ := hinv2.feed_next (by simp [htail]) h3
  refine ⟨hinv3, hfeed1.trans ?_⟩
  rw [show (b :: brest ++ (mh ++ tail)).drop 1 = brest ++ (mh ++ tail) from rfl, hfeed2, drop_left, hfeed3, drop_left]

/-- The channel a chunk stream id leads to, or the one that is made for it. -/
def Session.chanOf (s : Session) (cid : Nat) : InChan := (lookup InChan.cid s.inChan cid).getD (.fresh cid)

/-- The channel with the fields of a header in the form `fmt`. -/
def InChan.withHeader (c : InChan) (fmt : Nat) (mh : List UInt8) : InChan :=
  { c with header := messageHeaderRead mh { c.header with cid := c.cid, fmt := fmt } }

theorem chanOf_cid (s : Session) (cid : Nat) : (s.chanOf cid).cid = cid := by
  rw [Session.chanOf]
  cases h : lookup InChan.cid s.inChan cid with
  | none => rfl
  | some c => exact key_of_lookup h

/-- The header step finds or makes the channel, and reads the header into it. -/
theorem header_done {fmt cid : Nat} (hfmt : fmt < 4) (hlo : 2 ≤ cid) (hhi : cid < 65600) {mh : List UInt8}
    (hmh : mh.length = msgHdrSize fmt)
    (hnew : lookup InChan.cid s.inChan cid = none → (fmt = 0 ∨ fmt = 1) ∧ s.inChan.length < rtmpNChan)
    (hunder : (s.chanOf cid).bytes ≠ 0 → fmt ≠ 0 ∧ fmt ≠ 1) : ∃ s',
      (s.headed (basicHeaderWrite fmt cid) mh).stepMessageHeader (msgHdrSize fmt + (basicHeaderWrite fmt cid).length) = .done s' ∧
      s'.parser = { (s.headed (basicHeaderWrite fmt cid) mh).parser with pkt := cid } ∧
      s'.inChunkSize = s.inChunkSize ∧ s'.delivered = s.delivered ∧
      s'.inChan.length = (if (lookup InChan.cid s.inChan cid).isNone then s.inChan.length + 1 else s.inChan.length) ∧
      ∀ k, lookup InChan.cid s'.inChan k =
        if cid = k then some ((s.chanOf cid).withHeader fmt mh) else lookup InChan.cid s.inChan k := by
  have hlen : ¬ (s.headed (basicHeaderWrite fmt cid) mh).parser.buffer.length <
      msgHdrSize fmt + (basicHeaderWrite fmt cid).length := by
    simp only [Session.headed, length_append, hmh]
    omega
  have hread := basicHeaderRead_write hfmt hlo hhi mh
  have hdrop : (basicHeaderWrite fmt cid ++ mh).drop (basicHeaderWrite fmt cid).length = mh := drop_left
  rw [Session.stepMessageHeader, if_neg hlen]
  simp only [Session.headed, hread]
  cases h : lookup InChan.cid s.inChan cid with
  | some c =>
    have hchan : s.chanOf cid = c := by rw [Session.chanOf, h]; rfl
    have hcid := key_of_lookup h
    rw [hchan] at hunder ⊢
    have hcheck : ¬ (c.bytes ≠ 0 ∧ (fmt = 0 ∨ fmt = 1)) := fun hb => hb.2.elim (hunder hb.1).1 (hunder hb.1).2
    simp only [Session.readHeader, if_neg hcheck, hdrop, hcid]
    refine ⟨_, rfl, rfl, rfl, rfl, length_replace, fun k => ?_⟩
    rw [InChan.withHeader, hcid]
    exact lookup_put h rfl k
  | none =>
    obtain ⟨hform, hroom⟩ := hnew h
    have hchan : s.chanOf cid = .fresh cid := by rw [Session.chanOf, h]; rfl
    rw [hchan]
    have hcheck : ¬ ((InChan.fresh cid).bytes ≠ 0 ∧ (fmt = 0 ∨ fmt = 1)) := fun hb => hb.1 rfl
    simp only [if_neg (show ¬ (fmt ≠ 0 ∧ fmt ≠ 1) by omega), if_neg (show ¬ rtmpNChan ≤ s.inChan.length by omega), Session.readHeader,
      if_neg hcheck, hdrop]
    refine ⟨_, rfl, rfl, rfl, rfl, by simp, fun k => ?_⟩
    have hput := @lookup_append _ InChan.cid s.inChan (InChan.fresh cid) h
    refine (lookup_put ((hput cid).trans (if_pos rfl)) rfl k).trans ?_
    by_cases hk : cid = k
    · rw [if_pos hk, if_pos hk]
      rfl
    · rw [if_neg hk, if_neg hk, hput k, if_neg (show ¬ (InChan.fresh cid).cid = k from hk)]

end

/-! ## The timestamp and the payload of a chunk -/

/-- There is memory for everything. -/
def plenty : Nat → Bool := fun _ => false

theorem allocPayload_plenty {c : InChan} (h : c.header.length ≤ rtmpMaxMessageBytes) :
    ∃ c', c.allocPayload plenty = some c' := by
  rw [InChan.allocPayload, if_neg (by omega)]
  split
  · exact ⟨_, rfl⟩
  · exact ⟨_, rfl⟩

theorem timestampField_eq {ts : UInt32} : (timestampField ts = 0xFFFFFF) ↔ 0xFFFFFF ≤ ts := by
  rw [timestampField]
  split
  · rename_i h
    simp [h]
  · rename_i h
    exact ⟨fun he => absurd (he ▸ UInt32.le_refl _) h, fun hle => absurd hle h⟩

/-- A channel whose header says what the stream's does, before the payload of the chunk. -/
structure Stream.Headed (q : Stream) (fmt : Nat) (c : InChan) : Prop where
  fmt : c.header.fmt = fmt
  timestamp : c.header.timestamp = timestampField q.field
  length : c.header.length = q.message.payload.length
  type : c.header.type = q.message.type
  bytes : c.bytes = q.sent
  held : c.payload.take c.bytes = q.message.payload.take c.bytes
  clock : (if q.sent = 0 then (c.setClock q.field).clock else c.clock) = q.message.timestamp

/-- What the channel holds once memory for the message is there. -/
structure Stream.Timed (q : Stream) (c : InChan) : Prop where
  timestamp : c.header.timestamp = timestampField q.field
  length : c.header.length = q.message.payload.length
  type : c.header.type = q.message.type
  bytes : c.bytes = q.sent
  held : c.payload.take c.bytes = q.message.payload.take c.bytes
  clock : c.clock = q.message.timestamp

section
variable {s : Session} {c : InChan}

/-- The state of the timestamp takes the extended one, and leaves the channel ready for payload. -/
theorem feed_timestamp (h : s.Inv) (hstate : s.parser.state = .extendedTimestamp) {q : Stream} {fmt : Nat}
    (hc : lookup InChan.cid s.inChan s.parser.pkt = some c) (hq : q.Headed fmt c) (cid : Nat)
    (hmax : q.message.payload.length ≤ rtmpMaxMessageBytes)
    (hbuffer : s.parser.buffer.length = msgHdrSize fmt + s.parser.basicBytes) {tail : List UInt8} (htail : tail ≠ []) :
    ∃ (s' : Session) (c' : InChan), s'.Inv ∧ s.feed plenty (extendedTimestamp (q.header fmt cid) ++ tail) = s'.feed plenty tail ∧
      s'.parser.state = .payload ∧ s'.parser.chunkBytes = 0 ∧ s'.parser.pkt = s.parser.pkt ∧ s'.inChunkSize = s.inChunkSize ∧
      s'.delivered = s.delivered ∧ s'.inChan.length = s.inChan.length ∧ q.Timed c' ∧ c'.cid = c.cid ∧
      ∀ k, lookup InChan.cid s'.inChan k = if c.cid = k then some c' else lookup InChan.cid s.inChan k := by
  have hkey := key_of_lookup hc
  have hok := h.chans c (mem_of_lookup hc)
  have hlong : (c.header.timestamp = 0xFFFFFF) ↔ 0xFFFFFF ≤ q.field := by rw [hq.timestamp]; exact timestampField_eq
  have hext : (extendedTimestamp (q.header fmt cid)).length = if decide (c.header.timestamp = 0xFFFFFF) = true then 4 else 0 := by
    rw [extendedTimestamp, show (q.header fmt cid).timestamp = q.field from rfl]
    simp only [decide_eq_true_eq, hlong]
    split
    · exact length_bePut 4 _
    · rfl
  have hfill : s.parser.fill (msgHdrSize c.header.fmt + s.parser.basicBytes +
      (if decide (c.header.timestamp = 0xFFFFFF) = true then 4 else 0)) (extendedTimestamp (q.header fmt cid) ++ tail) =
      extendedTimestamp (q.header fmt cid) := by
    rw [Parser.fill, hbuffer, hq.fmt, Nat.add_sub_cancel_left, ← hext, take_left]
  have htime : (s.buffered (extendedTimestamp (q.header fmt cid))).chunkTimestamp c (decide (c.header.timestamp = 0xFFFFFF)) =
      q.field := by
    rw [Session.chunkTimestamp]
    simp only [decide_eq_true_eq, hlong]
    split
    · rename_i hle
      rw [Session.parser_buffered, extendedTimestamp, show (q.header fmt cid).timestamp = q.field from rfl, if_pos hle, hq.fmt,
        ← hbuffer, drop_left, ← append_nil (extendedTimestampWrite q.field), extendedTimestampRead_write]
    · rename_i hle
      rw [hq.timestamp, timestampField, if_neg hle]
  have hlen : ¬ (s.buffered (extendedTimestamp (q.header fmt cid))).parser.buffer.length < msgHdrSize c.header.fmt +
      s.parser.basicBytes + (if decide (c.header.timestamp = 0xFFFFFF) = true then 4 else 0) := by
    rw [Session.parser_buffered, length_append, hbuffer, hext, hq.fmt]
    omega
  have hdata : extendedTimestamp (q.header fmt cid) ++ tail ≠ [] := append_ne_nil_of_right_ne_nil _ htail
  by_cases hzero : q.sent = 0
  · have hbytes : (c.setClock q.field).bytes = 0 := hq.bytes.trans hzero
    obtain ⟨c', hc'⟩ := allocPayload_plenty (c := c.setClock q.field) (by
      rw [show (c.setClock q.field).header = c.header from rfl, hq.length]; exact hmax)
    obtain ⟨hcid, hheader, hclock, hsame, -, -, hheld⟩ := InChan.allocPayload_spec hc' hok.allocated (by omega)
    have hround : s.round plenty (extendedTimestamp (q.header fmt cid) ++ tail) = .next { s with
        inChan := replace InChan.cid c' s.inChan
        parser := { s.parser with buffer := s.parser.buffer ++ extendedTimestamp (q.header fmt cid), chunkBytes := 0, state := .payload } }
        (extendedTimestamp (q.header fmt cid)).length := by
      simp only [Session.round, hstate, Session.roundExtendedTimestamp, hc, hfill]
      rw [Session.stepExtendedTimestamp, if_neg hlen, if_pos (show c.bytes = 0 from hq.bytes.trans hzero), htime]
      simp only [hc']
      rfl
    obtain ⟨hinv, hfeed⟩ := h.feed_next hdata hround
    rw [drop_left] at hfeed
    have hclockq := hq.clock
    rw [if_pos hzero] at hclockq
    refine ⟨_, c', hinv, hfeed, rfl, rfl, rfl, rfl, rfl, length_replace, ⟨?_, ?_, ?_, ?_, ?_, ?_⟩, hcid, fun k => ?_⟩
    · rw [hheader]
      exact hq.timestamp
    · rw [hheader]
      exact hq.length
    · rw [hheader]
      exact hq.type
    · rw [hsame]
      exact hq.bytes
    · rw [hsame, hbytes, take_zero, take_zero]
    · rw [hclock]
      exact hclockq
    · rw [← hkey] at hc
      exact lookup_put hc hcid k
  · have hround : s.round plenty (extendedTimestamp (q.header fmt cid) ++ tail) = .next { s with
        parser := { s.parser with buffer := s.parser.buffer ++ extendedTimestamp (q.header fmt cid), chunkBytes := 0, state := .payload } }
        (extendedTimestamp (q.header fmt cid)).length := by
      simp only [Session.round, hstate, Session.roundExtendedTimestamp, hc, hfill]
      rw [Session.stepExtendedTimestamp, if_neg hlen, if_neg (show ¬ c.bytes = 0 by rw [hq.bytes]; exact hzero)]
      rfl
    obtain ⟨hinv, hfeed⟩ := h.feed_next hdata hround
    rw [drop_left] at hfeed
    have hclockq := hq.clock
    rw [if_neg hzero] at hclockq
    refine ⟨_, c, hinv, hfeed, rfl, rfl, rfl, rfl, rfl, rfl, { hq with clock := hclockq }, rfl, fun k => ?_⟩
    by_cases hk : c.cid = k
    · rw [if_pos hk, ← hk, hkey]
      exact hc
    · rw [if_neg hk]

/-- The payload state takes a whole piece. It delivers the message if that was the last, and is back between two chunks. -/
theorem feed_payload (h : s.Inv) (hstate : s.parser.state = .payload) (hzero : s.parser.chunkBytes = 0) {q : Stream}
    (hc : lookup InChan.cid s.inChan s.parser.pkt = some c) (hq : q.Timed c) (hinside : q.sent ≤ q.message.payload.length)
    (hmax : q.message.payload.length ≤ rtmpMaxMessageBytes) {rest : List UInt8} (hrest : q.piece s.inChunkSize ++ rest ≠ []) : ∃ (s' : Session) (c' : InChan), s'.Inv ∧
      s.feed plenty (q.piece s.inChunkSize ++ rest) = s'.feed plenty rest ∧ s'.parser.state = .init ∧
      s'.inChunkSize = (if (q.advance s.inChunkSize).sent = q.message.payload.length then q.message.chunkSizeAfter s.inChunkSize
        else s.inChunkSize) ∧
      s'.delivered = s.delivered ++ (if (q.advance s.inChunkSize).sent = q.message.payload.length then [q.message] else []) ∧
      s'.inChan.length = s.inChan.length ∧ (q.advance s.inChunkSize).Shown c' ∧
      ∀ k, lookup InChan.cid s'.inChan k = if c.cid = k then some c' else lookup InChan.cid s.inChan k := by
  have hkey := key_of_lookup hc
  have hpiece := q.length_piece s.inChunkSize
  have hroom : s.payloadRoom c = (q.piece s.inChunkSize).length := by
    rw [Session.payloadRoom, hzero, Nat.sub_zero, hq.length, hq.bytes, hpiece]
  have htake : (q.piece s.inChunkSize ++ rest).take (s.payloadRoom c) = q.piece s.inChunkSize := by
    rw [hroom, take_left]
  obtain ⟨hfits, -, hstore⟩ := payload_fits h hstate hc (le_of_eq hroom.symm)
  have hround : s.round plenty (q.piece s.inChunkSize ++ rest) = .next (s.payloadDone (c.stored (q.piece s.inChunkSize))
      (q.piece s.inChunkSize).length) (q.piece s.inChunkSize).length := by
    simp only [Session.round, hstate, Session.roundPayload, hc, htake, InChan.store_eq hstore]
  obtain ⟨hinv, hfeed⟩ := h.feed_next hrest hround
  rw [drop_left] at hfeed
  have hadvance : (q.advance s.inChunkSize).sent = q.sent + (q.piece s.inChunkSize).length := rfl
  have hsent : (c.stored (q.piece s.inChunkSize)).bytes = (q.advance s.inChunkSize).sent := by
    rw [hadvance, ← hq.bytes]
    rfl
  have hheld : (c.stored (q.piece s.inChunkSize)).payload.take (q.advance s.inChunkSize).sent =
      q.message.payload.take (q.advance s.inChunkSize).sent := by
    rw [q.take_advance, hadvance, ← hq.bytes, InChan.take_stored hstore, hq.held]
  have hpos := s.inChunkSize.2
  rw [← hkey] at hc
  by_cases hlast : (q.advance s.inChunkSize).sent = q.message.payload.length
  · have hdone : s.payloadDone (c.stored (q.piece s.inChunkSize)) (q.piece s.inChunkSize).length = ({ s with
          inChan := replace InChan.cid { c.stored (q.piece s.inChunkSize) with bytes := 0 } s.inChan
          parser := { s.parser with chunkBytes := s.parser.chunkBytes + (q.piece s.inChunkSize).length, state := .init } } :
            Session).onMessage q.message := by
      have hle : (c.stored (q.piece s.inChunkSize)).header.length ≤ (c.stored (q.piece s.inChunkSize)).bytes := by
        rw [hsent, hlast]
        exact le_of_eq hq.length
      have hmessage : (⟨(c.stored (q.piece s.inChunkSize)).header.type, (c.stored (q.piece s.inChunkSize)).clock,
          (c.stored (q.piece s.inChunkSize)).payload.take (c.stored (q.piece s.inChunkSize)).bytes⟩ : Message) = q.message := by
        rw [hsent, hheld, hlast, take_length, show (c.stored (q.piece s.inChunkSize)).header.type = q.message.type from hq.type,
          show (c.stored (q.piece s.inChunkSize)).clock = q.message.timestamp from hq.clock]
      rw [Session.payloadDone]
      simp only [if_pos hle, hmessage]
      rw [@replace_replace _ InChan.cid s.inChan (c.stored (q.piece s.inChunkSize))
        { c.stored (q.piece s.inChunkSize) with bytes := 0 } rfl]
      rfl
    rw [hdone] at hinv hfeed
    refine ⟨_, { c.stored (q.piece s.inChunkSize) with bytes := 0 }, hinv, hfeed, rfl, by rw [if_pos hlast]; rfl,
      by rw [if_pos hlast]; rfl, length_replace, ⟨hq.timestamp, hq.length, hq.type, hq.clock, ?_, rfl, ?_, ?_, hmax⟩,
      fun k => @lookup_put _ InChan.cid s.inChan { c.stored (q.piece s.inChunkSize) with bytes := 0 } c c.cid hc rfl k⟩
    · exact (if_pos hlast).symm
    · intro hne
      rw [hlast]
      exact length_pos_iff.2 hne
    · exact le_of_eq hlast
  · have hmore : ¬ (c.stored (q.piece s.inChunkSize)).header.length ≤ (c.stored (q.piece s.inChunkSize)).bytes := by
      rw [hsent, show (c.stored (q.piece s.inChunkSize)).header.length = q.message.payload.length from hq.length]
      omega
    have hfull : s.inChunkSize.1 ≤ s.parser.chunkBytes + (q.piece s.inChunkSize).length := by omega
    have hdone : s.payloadDone (c.stored (q.piece s.inChunkSize)) (q.piece s.inChunkSize).length = { s with
          inChan := replace InChan.cid (c.stored (q.piece s.inChunkSize)) s.inChan
          parser := { s.parser with chunkBytes := s.parser.chunkBytes + (q.piece s.inChunkSize).length, state := .init } } := by
      rw [Session.payloadDone]
      simp only [if_neg hmore, if_pos hfull]
      rfl
    rw [hdone] at hinv hfeed
    refine ⟨_, c.stored (q.piece s.inChunkSize), hinv, hfeed, rfl, by rw [if_neg hlast],
      by rw [if_neg hlast, append_nil], length_replace, ⟨hq.timestamp, hq.length, hq.type, hq.clock, ?_, ?_, ?_, ?_, hmax⟩,
      fun k => @lookup_put _ InChan.cid s.inChan (c.stored (q.piece s.inChunkSize)) c c.cid hc rfl k⟩
    · exact hsent.trans (if_neg hlast).symm
    · rw [hsent]
      exact hheld
    · intro _
      omega
    · show (q.advance s.inChunkSize).sent ≤ q.message.payload.length
      omega

end

/-! ## A whole chunk -/

section
variable {st st' : Sender} {s : Session} {q : Stream}

theorem Sender.Sim.isNone (h : st.Sim s) (cid : Nat) : (lookup InChan.cid s.inChan cid).isNone = (st.stream cid).isNone := by
  have hshow := h.chan cid
  cases hq : st.stream cid <;> cases hc : lookup InChan.cid s.inChan cid <;> rw [hq, hc] at hshow
  · rfl
  · exact hshow.elim
  · exact hshow.elim
  · rfl

variable {cid : Nat}

theorem Sender.Sim.shown (h : st.Sim s) (hq : st.stream cid = some q) : q.Shown (s.chanOf cid) := by
  have hshow := h.chan cid
  rw [hq] at hshow
  rw [Session.chanOf]
  cases hc : lookup InChan.cid s.inChan cid with
  | none =>
    rw [hc] at hshow
    exact hshow.elim
  | some c =>
    rw [hc] at hshow
    exact hshow

variable {fmt : Nat} {rest : List UInt8}

/-- A chunk goes through all the states, once its header says of the channel what the stream is. -/
theorem feed_through (h : st.Sim s) (hfmt : fmt < 4) (hlo : 2 ≤ cid) (hhi : cid < 65600) {mh : List UInt8}
    (hmh : mh.length = msgHdrSize fmt) (hnew : st.stream cid = none → (fmt = 0 ∨ fmt = 1) ∧ st.used < rtmpNChan)
    (hunder : (s.chanOf cid).bytes ≠ 0 → fmt ≠ 0 ∧ fmt ≠ 1) (hheaded : q.Headed fmt ((s.chanOf cid).withHeader fmt mh))
    (hinside : q.sent ≤ q.message.payload.length) (hmax : q.message.payload.length ≤ rtmpMaxMessageBytes)
    (hrest : q.piece st.chunkSize ++ rest ≠ []) : ∃ s', (st.put cid q).Sim s' ∧
      s'.delivered = s.delivered ++ (st.completed cid q).map Prod.snd ∧
      s.feed plenty (basicHeaderWrite fmt cid ++ (mh ++ (extendedTimestamp (q.header fmt cid) ++ (q.piece st.chunkSize ++ rest)))) =
        s'.feed plenty rest := by
  have hnone := h.isNone cid
  obtain ⟨s1, hstep, hparser, hsize1, hdelivered1, hused1, hchan1⟩ := header_done hfmt hlo hhi hmh
    (fun hn => by rw [h.used]; exact hnew (by rw [hn] at hnone; exact Option.isNone_iff_eq_none.1 hnone.symm)) hunder
  obtain ⟨hinv1, hfeed1⟩ := @feed_header plenty s s1 h.inv h.idle fmt cid hfmt hlo hhi mh _ hmh
    (append_ne_nil_of_right_ne_nil (extendedTimestamp (q.header fmt cid)) hrest) hstep
  have hpkt : (s1.goto .extendedTimestamp).parser.pkt = cid := by rw [Session.parser_goto, hparser]
  have hlookup : lookup InChan.cid (s1.goto .extendedTimestamp).inChan (s1.goto .extendedTimestamp).parser.pkt =
      some ((s.chanOf cid).withHeader fmt mh) := by
    rw [hpkt, Session.inChan_goto, hchan1, if_pos rfl]
  have hcid1 : ((s.chanOf cid).withHeader fmt mh).cid = cid := chanOf_cid s cid
  have hbuffer : (s1.goto .extendedTimestamp).parser.buffer.length =
      msgHdrSize fmt + (s1.goto .extendedTimestamp).parser.basicBytes := by
    rw [Session.parser_goto, hparser]
    simp only [Session.headed, length_append, hmh, add_comm]
  obtain ⟨s2, c2, hinv2, hfeed2, hstate2, hzero2, hpkt2, hsize2, hdelivered2, hused2, htimed, hcid2, hchan2⟩ :=
    feed_timestamp hinv1 rfl hlookup hheaded cid hmax hbuffer hrest
  have hsize : s2.inChunkSize = st.chunkSize := hsize2.trans (hsize1.trans h.size)
  have hlookup2 : lookup InChan.cid s2.inChan s2.parser.pkt = some c2 := by
    rw [hchan2, hpkt2, hpkt, hcid1, if_pos rfl]
  have hrest2 : q.piece s2.inChunkSize ++ rest ≠ [] := by
    rw [hsize]
    exact hrest
  obtain ⟨s3, c3, hinv3, hfeed3, hstate3, hsize3, hdelivered3, hused3, hshown, hchan3⟩ :=
    feed_payload hinv2 hstate2 hzero2 hlookup2 htimed hinside hmax hrest2
  rw [hsize] at hfeed3 hsize3 hdelivered3 hshown
  refine ⟨s3, ⟨hinv3, hstate3, hsize3, ?_, fun k => ?_⟩, ?_, hfeed1.trans (hfeed2.trans hfeed3)⟩
  · rw [hused3, hused2, Session.inChan_goto, hused1, hnone, h.used]
    rfl
  · rw [hchan3, hchan2, Session.inChan_goto, hchan1, hcid2, hcid1]
    simp only [Sender.put]
    by_cases hk : cid = k
    · rw [if_pos hk, if_pos hk]
      exact hshown
    · rw [if_neg hk, if_neg hk, if_neg hk, if_neg hk]
      exact h.chan k
  · rw [hdelivered3, hdelivered2, Session.delivered_goto, hdelivered1, Sender.completed]
    split <;> rfl

variable {last : Option Stream}

/-- A header that opens a message says what the message is, over the last one of the stream. -/
theorem headed_of_opens {c : InChan} (hnew : q.sent = 0) (hopens : q.Opens last fmt)
    (hlast : ∀ p, last = some p → p.Shown c) (hbytes : c.bytes = 0) (hlen : q.message.payload.length ≤ rtmpMaxMessageBytes) :
    q.Headed fmt (c.withHeader fmt (messageHeaderWrite (q.header fmt cid))) := by
  have hshort : (q.header fmt cid).length < 2 ^ 24 := lt_of_le_of_lt hlen (by decide)
  have hread := messageHeaderRead_write (h := q.header fmt cid) (g := { c.header with cid := c.cid, fmt := fmt }) rfl hshort []
  rw [append_nil] at hread
  obtain ⟨hrfmt, -, hrtime, hrlength, hrtype⟩ := hread
  have hheader : (c.withHeader fmt (messageHeaderWrite (q.header fmt cid))).header =
      messageHeaderRead (messageHeaderWrite (q.header fmt cid)) { c.header with cid := c.cid, fmt := fmt } := rfl
  have hheld : (c.withHeader fmt (messageHeaderWrite (q.header fmt cid))).bytes = 0 := hbytes
  refine ⟨by rw [hheader, hrfmt], ?_, ?_, ?_, hheld.trans hnew.symm, by rw [hheld, take_zero, take_zero], ?_⟩
  · rw [hheader, hrtime]
    cases hopens with
    | asLast _ _ _ _ hsame => exact (hlast _ rfl).timestamp.trans (by rw [hsame])
    | _ => rfl
  · rw [hheader, hrlength]
    cases hopens with
    | likeLast _ _ _ hlen => exact (hlast _ rfl).length.trans hlen
    | asLast _ _ _ hlen => exact (hlast _ rfl).length.trans hlen
    | _ => rfl
  · rw [hheader, hrtype]
    cases hopens with
    | likeLast _ _ htype => exact (hlast _ rfl).type.trans htype
    | asLast _ _ htype => exact (hlast _ rfl).type.trans htype
    | _ => rfl
  · rw [if_pos hnew, InChan.setClock, hheader, hrfmt]
    have hclock : (c.withHeader fmt (messageHeaderWrite (q.header fmt cid))).clock = c.clock := rfl
    cases hopens with
    | absolute htime => exact htime
    | relative htime | likeLast htime | asLast htime => simpa [hclock, (hlast _ rfl).clock] using htime

theorem Stream.Opens.lt (h : q.Opens last fmt) : fmt < 4 := by cases h <;> decide

/-- A chunk of a conforming sender, with a byte behind its header: the receiver delivers what it completes, and is between two
    chunks again. -/
theorem feed_chunk (h : st.Sim s) {b : List UInt8} {ms : List (Nat × Message)} (hstep : st.Step b ms st')
    (hrest : rest ≠ [] ∨ ∀ m ∈ ms, m.2.payload ≠ []) :
    ∃ s', st'.Sim s' ∧ s'.delivered = s.delivered ++ ms.map Prod.snd ∧ s.feed plenty (b ++ rest) = s'.feed plenty rest := by
  have hpos := st.chunkSize.2
  cases hstep with
  | @start cid fmt q hlo hhi hidle hroom hnew hopens hlen =>
    have hfmt := hopens.lt
    have hshown : ∀ p, st.stream cid = some p → p.Shown (s.chanOf cid) := fun p hp => h.shown hp
    have hbytes : (s.chanOf cid).bytes = 0 := by
      cases hst : st.stream cid with
      | none =>
        have hnone := h.isNone cid
        rw [hst, Option.isNone_none, Option.isNone_iff_eq_none] at hnone
        rw [Session.chanOf, hnone]
        rfl
      | some p => rw [(hshown p hst).bytes, if_pos (hidle p hst)]
    have hpiece : q.piece st.chunkSize ++ rest ≠ [] := by
      rcases hrest with hne | hne
      · exact append_ne_nil_of_right_ne_nil _ hne
      refine append_ne_nil_of_left_ne_nil (ne_nil_of_length_pos ?_) _
      rw [q.length_piece]
      have hlong : 0 < q.message.payload.length := by
        by_contra hzero
        -- such a message is complete with its header
        have hall : (q.advance st.chunkSize).sent = q.message.payload.length := by
          have hlength := q.length_piece st.chunkSize
          simp only [Stream.advance]
          omega
        exact hzero (length_pos_iff.2 (hne (cid, q.message) (by rw [Sender.completed, if_pos hall]; exact mem_singleton.2 rfl)))
      omega
    have hthrough := feed_through h hfmt hlo hhi (length_messageHeaderWrite (h := q.header fmt cid) hfmt)
      (fun hn => ⟨.inl (by rw [hn] at hopens; cases hopens; rfl), hroom hn⟩) (absurd hbytes)
      (headed_of_opens hnew hopens hshown hbytes hlen) (by omega) hlen hpiece
    simpa only [append_assoc] using hthrough
  | @next cid q hlo hhi hq hunder =>
    have hshown := h.shown hq
    have hsent : 0 < q.sent := hshown.started (ne_nil_of_length_pos (by omega))
    have hbytes : (s.chanOf cid).bytes = q.sent := by rw [hshown.bytes, if_neg (by omega)]
    have hheaded : q.Headed 3 ((s.chanOf cid).withHeader 3 []) := by
      exact { hshown with fmt := rfl, bytes := hbytes, clock := by rw [if_neg (by omega)]; exact hshown.clock }
    have hpiece : q.piece st.chunkSize ++ rest ≠ [] := by
      refine append_ne_nil_of_left_ne_nil (ne_nil_of_length_pos ?_) _
      rw [q.length_piece]
      omega
    have hthrough := feed_through h (by decide : 3 < 4) hlo hhi (show ([] : List UInt8).length = msgHdrSize 3 from rfl) (fun hn => by rw [hq] at hn; cases hn)
      (fun _ => by decide) hheaded hshown.inside hshown.fits hpiece
    simpa only [append_assoc, nil_append] using hthrough

end

end DvbIpiTools.Net.Rtmp
