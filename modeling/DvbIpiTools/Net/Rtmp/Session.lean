import DvbIpiTools.Helper.BeUtil
import Mathlib.Data.Nat.Bitwise
import DvbIpiTools.Utils.KeyedList

set_option autoImplicit false

/-! # RTMP chunk headers (`lib/net/rtmp/chunk.c`) -/

namespace DvbIpiTools.Net.Rtmp

open BeUtil List Nat

/-- `rtmp_chunk_header_t`. -/
structure ChunkHeader where
  fmt : Nat
  cid : Nat
  timestamp : UInt32
  length : Nat
  type : UInt8
  streamId : UInt32

/-- `rtmp_chunk_basic_header_write`. -/
def basicHeaderWrite (fmt cid : Nat) : List UInt8 :=
  if 64 + 256 ≤ cid then
    [.ofNat (fmt <<< 6 ||| 1), .ofNat ((cid - 64) &&& 0xFF), .ofNat ((cid - 64) >>> 8 &&& 0xFF)]
  else if 64 ≤ cid then [.ofNat (fmt <<< 6 ||| 0), .ofNat (cid - 64)]
  else [.ofNat (fmt <<< 6 ||| cid)]

/-- `rtmp_chunk_basic_header_read`: the bytes it took, the format and the chunk stream id. -/
def basicHeaderRead (d : List UInt8) : Nat × Nat × Nat :=
  let c := byteAt d 0 &&& 0x3F
  if c = 0 then (2, byteAt d 0 >>> 6, 64 + byteAt d 1)
  else if c = 1 then (3, byteAt d 0 >>> 6, 64 + byteAt d 1 + byteAt d 2 <<< 8)
  else (1, byteAt d 0 >>> 6, c)

/-- The 24 bits of a timestamp that are all set where an extended one follows. -/
def timestampField (ts : UInt32) : UInt32 := if 0xFFFFFF ≤ ts then 0xFFFFFF else ts

/-- `rtmp_chunk_message_header_write`. -/
def messageHeaderWrite (h : ChunkHeader) : List UInt8 :=
  (if h.fmt ≤ 2 then bePut 3 (timestampField h.timestamp).toNat else []) ++
  ((if h.fmt ≤ 1 then bePut 3 h.length ++ [h.type] else []) ++
   -- the one little endian field
   if h.fmt = 0 then [h.streamId.toUInt8, (h.streamId >>> 8).toUInt8, (h.streamId >>> 16).toUInt8, (h.streamId >>> 24).toUInt8]
   else [])

/-- `rtmp_chunk_message_header_read`: the fields of the format over those remembered in `h`. -/
def messageHeaderRead (d : List UInt8) (h : ChunkHeader) : ChunkHeader := { h with
    timestamp := if h.fmt ≤ 2 then .ofNat (beGet d 0 3) else h.timestamp
    length := if h.fmt ≤ 1 then beGet d 3 3 else h.length
    type := if h.fmt ≤ 1 then d.getD 6 0 else h.type
    streamId :=
      if h.fmt = 0 then .ofNat (byteAt d 7 ||| byteAt d 8 <<< 8 ||| byteAt d 9 <<< 16 ||| byteAt d 10 <<< 24) else h.streamId }

/-- `rtmp_chunk_extended_timestamp_write`. -/
def extendedTimestampWrite (ts : UInt32) : List UInt8 := bePut 4 ts.toNat

/-- `rtmp_chunk_extended_timestamp_read`. -/
def extendedTimestampRead (d : List UInt8) : UInt32 := .ofNat (beGet d 0 4)

def msgHdrSize (fmt : Nat) : Nat := [11, 7, 3, 0].getD fmt 0

/-! ## Reading back what was written -/

theorem toNat_or {fmt x : Nat} (hfmt : fmt < 4) (hx : x < 64) : (UInt8.ofNat (fmt <<< 6 ||| x)).toNat = fmt * 64 + x := by
  rw [← shiftLeft_add_eq_or_of_lt (i := 6) hx, shiftLeft_eq, UInt8.toNat_ofNat']
  omega

theorem shr_6 (x : Nat) : x >>> 6 = x / 64 := shiftRight_eq_div_pow x 6

section
variable {fmt cid : Nat} (hfmt : fmt < 4) (hlo : 2 ≤ cid) (hhi : cid < 65600)
include hfmt hlo hhi

theorem basicHeaderWrite_head : ∃ b rest, basicHeaderWrite fmt cid = b :: rest ∧ b.toNat / 64 = fmt ∧
    rest.length + 1 = (if b.toNat % 64 = 0 then 2 else if b.toNat % 64 = 1 then 3 else 1) := by
  rw [basicHeaderWrite]
  split
  · exact ⟨_, _, rfl, by rw [toNat_or hfmt (by decide)]; omega,
      by rw [toNat_or hfmt (by decide), if_neg (by omega), if_pos (by omega)]; rfl⟩
  · split
    · exact ⟨_, _, rfl, by rw [toNat_or hfmt (by decide)]; omega,
        by rw [toNat_or hfmt (by decide), if_pos (by omega)]; rfl⟩
    · exact ⟨_, _, rfl, by rw [toNat_or hfmt (by omega)]; omega,
        by rw [toNat_or hfmt (by omega), if_neg (by omega), if_neg (by omega)]; rfl⟩

theorem basicHeaderRead_write (rest : List UInt8) :
    (basicHeaderRead (basicHeaderWrite fmt cid ++ rest)).2 = (fmt, cid) := by
  have h6 : ∀ x, x &&& 0x3F = x % 64 := fun x => and_two_pow_sub_one_eq_mod x 6
  have h8 : ∀ x, x &&& 0xFF = x % 256 := fun x => and_two_pow_sub_one_eq_mod x 8
  rw [basicHeaderWrite]
  split
  · have h0 := toNat_or (x := 1) hfmt (by decide)
    have h1 : (UInt8.ofNat ((cid - 64) &&& 0xFF)).toNat = (cid - 64) % 256 := by
      rw [UInt8.toNat_ofNat', h8, mod_mod]
    have h2 : (UInt8.ofNat ((cid - 64) >>> 8 &&& 0xFF)).toNat = (cid - 64) / 256 % 256 := by
      rw [UInt8.toNat_ofNat', h8, mod_mod, shiftRight_eq_div_pow]
    generalize UInt8.ofNat (fmt <<< 6 ||| 1) = b at h0 ⊢
    simp only [basicHeaderRead, byteAt, cons_append, nil_append, getD_cons_zero, getD_cons_succ, h0, h1, h2,
      h6, shr_6, shiftLeft_eq, if_neg (show ¬ (fmt * 64 + 1) % 64 = 0 by omega),
      if_pos (show (fmt * 64 + 1) % 64 = 1 by omega), Prod.mk.injEq]
    omega
  split
  · have h0 := toNat_or (x := 0) hfmt (by decide)
    simp only [basicHeaderRead, byteAt, cons_append, nil_append, getD_cons_zero, getD_cons_succ, h0, h6,
      shr_6, UInt8.toNat_ofNat', if_pos (show (fmt * 64 + 0) % 64 = 0 by omega), Prod.mk.injEq]
    omega
  · have h0 := toNat_or (x := cid) hfmt (by omega)
    simp only [basicHeaderRead, byteAt, cons_append, nil_append, getD_cons_zero, h0, h6, shr_6,
      if_neg (show ¬ (fmt * 64 + cid) % 64 = 0 by omega), if_neg (show ¬ (fmt * 64 + cid) % 64 = 1 by omega), Prod.mk.injEq]
    omega

end

theorem timestampField_toNat (ts : UInt32) : (timestampField ts).toNat = min ts.toNat 0xFFFFFF := by
  have hlit : (0xFFFFFF : UInt32).toNat = 0xFFFFFF := rfl
  rw [timestampField]
  split
  · rename_i h
    rw [UInt32.le_iff_toNat_le, hlit] at h
    omega
  · rename_i h
    rw [UInt32.le_iff_toNat_le, hlit] at h
    omega

theorem length_messageHeaderWrite {h : ChunkHeader} (hfmt : h.fmt < 4) : (messageHeaderWrite h).length = msgHdrSize h.fmt := by
  rw [messageHeaderWrite]
  have hcases : h.fmt = 0 ∨ h.fmt = 1 ∨ h.fmt = 2 ∨ h.fmt = 3 := by omega
  rcases hcases with hf | hf | hf | hf <;> simp [hf, msgHdrSize]

/-- The fields of a header that came through the wire, over the ones remembered in `g`. -/
theorem messageHeaderRead_write {h g : ChunkHeader} (hfmt : g.fmt = h.fmt) (hlen : h.length < 2 ^ 24) (rest : List UInt8) :
    let r := messageHeaderRead (messageHeaderWrite h ++ rest) g
    r.fmt = g.fmt ∧ r.cid = g.cid ∧ r.timestamp = (if h.fmt ≤ 2 then timestampField h.timestamp else g.timestamp) ∧
      r.length = (if h.fmt ≤ 1 then h.length else g.length) ∧ r.type = (if h.fmt ≤ 1 then h.type else g.type) := by
  have hts := timestampField_toNat h.timestamp
  have htime : h.fmt ≤ 2 → UInt32.ofNat (beGet (messageHeaderWrite h ++ rest) 0 3) = timestampField h.timestamp := fun hf => by
    rw [messageHeaderWrite, if_pos hf, append_assoc, beGet_bePut, mod_eq_of_lt (by omega), UInt32.ofNat_toNat]
  have hone : h.fmt ≤ 1 → messageHeaderWrite h ++ rest = bePut 3 (timestampField h.timestamp).toNat ++
      (bePut 3 h.length ++ (h.type :: ((if h.fmt = 0 then [h.streamId.toUInt8, (h.streamId >>> 8).toUInt8,
        (h.streamId >>> 16).toUInt8, (h.streamId >>> 24).toUInt8] else []) ++ rest))) := fun hf => by
    rw [messageHeaderWrite, if_pos (show h.fmt ≤ 2 by omega), if_pos hf]
    simp only [append_assoc, cons_append, nil_append]
  refine ⟨rfl, rfl, ?_, ?_, ?_⟩
  · simp only [messageHeaderRead, hfmt]
    split
    · rename_i hf
      exact htime hf
    · rfl
  · simp only [messageHeaderRead, hfmt]
    split
    · rename_i hf
      have := beGet_field (bePut 3 (timestampField h.timestamp).toNat) (h.type :: ((if h.fmt = 0 then [h.streamId.toUInt8,
        (h.streamId >>> 8).toUInt8, (h.streamId >>> 16).toUInt8, (h.streamId >>> 24).toUInt8] else []) ++ rest)) 3 h.length
      rw [length_bePut] at this
      rw [hone hf, this, mod_eq_of_lt (by omega)]
    · rfl
  · simp only [messageHeaderRead, hfmt]
    split
    · rename_i hf
      rw [hone hf, getD_append_right _ _ _ _ (by simp), getD_append_right _ _ _ _ (by simp)]
      simp
    · rfl

theorem extendedTimestampRead_write (ts : UInt32) (rest : List UInt8) :
    extendedTimestampRead (extendedTimestampWrite ts ++ rest) = ts := by
  rw [extendedTimestampRead, extendedTimestampWrite, beGet_bePut, mod_eq_of_lt (by have := ts.toNat_lt; omega),
    UInt32.ofNat_toNat]

/-! # The RTMP chunk session (`lib/net/rtmp/session.c`)

The slots of `out_chan` and `in_chan` are taken in their order and never given back, so a table is the list of its used
slots. A pointer to a channel is its chunk stream id. -/

open KeyedList

def rtmpMaxMessageBytes : Nat := 10 <<< 20
def rtmpNChan : Nat := 8
def rtmpWbufSize : Nat := 8192

/-- `in_chunk_size` and `out_chunk_size` begin at 128 and are only ever set to something else than 0. -/
abbrev ChunkSize : Type := {n : Nat // 0 < n}

/-! ## Sending -/

/-- `rtmp_out_chan_t`. -/
structure OutChan where
  cid : Nat
  header : ChunkHeader
  clock : UInt32

/-- The sending half of `struct rtmp`. `written` are the calls of `write_cb`. -/
structure Writer where
  outChan : List OutChan := []
  wbuf : List UInt8 := []
  written : List (List UInt8) := []

def Writer.wflush (w : Writer) : Writer :=
  { w with wbuf := [], written := if w.wbuf.isEmpty then w.written else w.written ++ [w.wbuf] }

def Writer.wput (w : Writer) (d : List UInt8) : Writer :=
  let w := if rtmpWbufSize - w.wbuf.length < d.length then w.wflush else w
  if rtmpWbufSize ≤ d.length then { w with written := w.written ++ [d] }
  else { w with wbuf := w.wbuf ++ d }

/-- The header of a message: one of four forms, by what the channel remembers of the message before it. -/
def messageHeader (chan : Option OutChan) (cid : Nat) (type : UInt8) (streamId timestamp : UInt32) (len : Nat) : ChunkHeader :=
  match chan with
  | none => ⟨0, cid, timestamp, len, type, streamId⟩
  | some c =>
    if c.clock ≤ timestamp ∧ timestamp - c.clock < 0xFFFFFF ∧ streamId = c.header.streamId then
      let delta := timestamp - c.clock
      let fmt := if type = c.header.type ∧ len = c.header.length then if delta = c.header.timestamp then 3 else 2 else 1
      ⟨fmt, cid, delta, len, type, streamId⟩
    else ⟨0, cid, timestamp, len, type, streamId⟩

/-- The extended timestamp, where the header needs one. -/
def extendedTimestamp (h : ChunkHeader) : List UInt8 :=
  if 0xFFFFFF ≤ h.timestamp then extendedTimestampWrite h.timestamp else []

/-- The `chunk` bytes from `sent` of a message in two parts. -/
def Writer.putParts (w : Writer) (msgHdr payload : List UInt8) (sent chunk : Nat) : Writer :=
  let take := if sent < msgHdr.length then min (msgHdr.length - sent) chunk else 0
  let w := if sent < msgHdr.length then w.wput ((msgHdr.drop sent).take take) else w
  if chunk - take ≠ 0 then w.wput ((payload.drop (sent + take - msgHdr.length)).take (chunk - take)) else w

/-- The loop of `rtmp_session_write_message`. -/
def Writer.putChunks (w : Writer) (outChunkSize : ChunkSize) (h : ChunkHeader) (msgHdr payload : List UInt8) (sent : Nat) :
    Writer :=
  if _hsent : sent < msgHdr.length + payload.length then
    let chunk := min (msgHdr.length + payload.length - sent) outChunkSize.1
    let w := w.putParts msgHdr payload sent chunk
    let w :=
      if sent + chunk < msgHdr.length + payload.length then w.wput (basicHeaderWrite 3 h.cid ++ extendedTimestamp h) else w
    w.putChunks outChunkSize h msgHdr payload (sent + chunk)
  else w
termination_by msgHdr.length + payload.length - sent
decreasing_by
  have := outChunkSize.2
  omega

/-- `rtmp_session_write_message`, none where it returns -1. -/
def Writer.sessionWriteMessage (w : Writer) (outChunkSize : ChunkSize) (cid : Nat) (type : UInt8) (streamId timestamp : UInt32)
    (msgHdr payload : List UInt8) : Option Writer :=
  let len := msgHdr.length + payload.length
  if 0xFFFFFF ≤ len then none
  else
    let chan := lookup OutChan.cid w.outChan cid
    let h := messageHeader chan cid type streamId timestamp len
    if chan.isNone ∧ rtmpNChan ≤ w.outChan.length then none
    else
      let outChan :=
        if chan.isSome then replace OutChan.cid ⟨cid, h, timestamp⟩ w.outChan else w.outChan ++ [⟨cid, h, timestamp⟩]
      let w := { w with outChan := outChan }
      let w := w.wput (basicHeaderWrite h.fmt cid ++ (messageHeaderWrite h ++ extendedTimestamp h))
      some (w.putChunks outChunkSize h msgHdr payload 0).wflush

/-! ## Receiving -/

/-- What `rtmp_on_message` is given. -/
structure Message where
  type : UInt8
  timestamp : UInt32
  payload : List UInt8
  deriving DecidableEq

/-- `rtmp_in_chan_t`. `payload` are the bytes allocated. -/
structure InChan where
  cid : Nat
  header : ChunkHeader
  clock : UInt32
  payload : List UInt8
  capacity : Nat
  bytes : Nat

def InChan.fresh (cid : Nat) : InChan := ⟨cid, ⟨0, 0, 0, 0, 0, 0⟩, 0, [], 0, 0⟩

/-- `rtmp_parse_state_t`. -/
inductive ParseState where
  | init | basicHeader | messageHeader | extendedTimestamp | payload
  deriving DecidableEq

/-- `rtmp_parser_t`. `buffer` are the bytes buffered so far, `pkt` the id of the channel in use, which only the last two
    states read. -/
structure Parser where
  buffer : List UInt8 := []
  basicBytes : Nat := 0
  chunkBytes : Nat := 0
  state : ParseState := .init
  pkt : Nat := 0

/-- The receiving half of `struct rtmp`. `delivered` are the calls of `rtmp_on_message`. -/
structure Session where
  inChunkSize : ChunkSize
  inChan : List InChan := []
  parser : Parser := {}
  delivered : List Message := []

/-- The chunk size after a message: a Set Chunk Size message announces one, and 0 is refused. -/
def Message.chunkSizeAfter (m : Message) (size : ChunkSize) : ChunkSize :=
  if m.type = 1 ∧ 4 ≤ m.payload.length then
    if h : 0 < beGet m.payload 0 4 &&& 0x7FFFFFFF then ⟨beGet m.payload 0 4 &&& 0x7FFFFFFF, h⟩ else size
  else size

/-- `rtmp_on_message`, as far as it changes what the session reads. -/
def Session.onMessage (s : Session) (m : Message) : Session :=
  { s with delivered := s.delivered ++ [m], inChunkSize := m.chunkSizeAfter s.inChunkSize }

/-- `in_chan_alloc_payload`, where `oom n` says that `n` bytes are not to be had. What a new byte holds does not matter. -/
def InChan.allocPayload (oom : Nat → Bool) (c : InChan) : Option InChan :=
  if rtmpMaxMessageBytes < c.header.length then none
  else if c.capacity < c.header.length then
    if oom (c.header.length + 1) then none
    else some { c with
      payload := c.payload ++ replicate (c.header.length + 1 - c.payload.length) 0
      capacity := c.header.length }
  else some c

/-- The `memcpy` of the payload, none where it would write behind the buffer. -/
def InChan.store (c : InChan) (d : List UInt8) : Option InChan :=
  if d = [] then some c
  else if c.bytes + d.length ≤ c.payload.length then
    some { c with payload := c.payload.take c.bytes ++ (d ++ c.payload.drop (c.bytes + d.length)), bytes := c.bytes + d.length }
  else none

/-- What one of the two header steps did. -/
inductive Stepped where
  | wait
  | done (s : Session)
  | fatal (s : Session)

/-- The channel in use takes the header fields that were read. -/
def Session.readHeader (s : Session) (c : InChan) (fmt : Nat) : Stepped :=
  let s := { s with parser := { s.parser with pkt := c.cid } }
  if c.bytes ≠ 0 ∧ (fmt = 0 ∨ fmt = 1) then .fatal s
  else
    let h := messageHeaderRead (s.parser.buffer.drop s.parser.basicBytes) { c.header with cid := c.cid, fmt := fmt }
    .done { s with inChan := replace InChan.cid { c with header := h } s.inChan }

def Session.stepMessageHeader (s : Session) (need : Nat) : Stepped :=
  if s.parser.buffer.length < need then .wait
  else
    let fmt := (basicHeaderRead s.parser.buffer).2.1
    let cid := (basicHeaderRead s.parser.buffer).2.2
    match lookup InChan.cid s.inChan cid with
    | some c => s.readHeader c fmt
    | none =>
      if fmt ≠ 0 ∧ fmt ≠ 1 then .fatal s
      else if rtmpNChan ≤ s.inChan.length then .fatal s
      else { s with inChan := s.inChan ++ [InChan.fresh cid] }.readHeader (.fresh cid) fmt

/-- The timestamp of a chunk: the extended one, or the field of the last header. -/
def Session.chunkTimestamp (s : Session) (c : InChan) (hasExt : Bool) : UInt32 :=
  if hasExt then extendedTimestampRead (s.parser.buffer.drop (msgHdrSize c.header.fmt + s.parser.basicBytes))
  else c.header.timestamp

/-- The clock of a message: absolute in the first form, else a difference. -/
def InChan.setClock (c : InChan) (ts : UInt32) : InChan := { c with clock := if c.header.fmt = 0 then ts else c.clock + ts }

def Session.stepExtendedTimestamp (oom : Nat → Bool) (s : Session) (c : InChan) (need : Nat) (hasExt : Bool) : Stepped :=
  if s.parser.buffer.length < need then .wait
  else if c.bytes = 0 then
    let c := c.setClock (s.chunkTimestamp c hasExt)
    match c.allocPayload oom with
    | none => .fatal { s with inChan := replace InChan.cid c s.inChan }
    | some c => .done { s with inChan := replace InChan.cid c s.inChan }
  else .done s

/-- What one round of the loop did: go on behind `n` bytes, return -1, or leave the memory it owns. -/
inductive Round where
  | next (s : Session) (n : Nat)
  | fatal (s : Session)
  | fault

/-- Up to `need` bytes in the parser's buffer. -/
def Parser.fill (p : Parser) (need : Nat) (data : List UInt8) : List UInt8 := data.take (need - p.buffer.length)

/-- The header bytes wanted behind the basic header, by the format in the first byte. -/
def Parser.headerNeed (p : Parser) : Nat := msgHdrSize (byteAt p.buffer 0 >>> 6) + p.basicBytes

def basicBytesOf (b : UInt8) : Nat := if b &&& 0x3F = 0 then 2 else if b &&& 0x3F = 1 then 3 else 1

namespace Session

def buffered (s : Session) (t : List UInt8) : Session := { s with parser := { s.parser with buffer := s.parser.buffer ++ t } }

def goto (s : Session) (state : ParseState) : Session := { s with parser := { s.parser with state := state } }

section
variable (s : Session) (t : List UInt8) (state : ParseState)

@[simp] theorem inChan_buffered : (s.buffered t).inChan = s.inChan := rfl

@[simp] theorem parser_buffered : (s.buffered t).parser = { s.parser with buffer := s.parser.buffer ++ t } := rfl
@[simp] theorem inChunkSize_buffered : (s.buffered t).inChunkSize = s.inChunkSize := rfl
@[simp] theorem delivered_buffered : (s.buffered t).delivered = s.delivered := rfl
@[simp] theorem inChan_goto : (s.goto state).inChan = s.inChan := rfl
@[simp] theorem parser_goto : (s.goto state).parser = { s.parser with state := state } := rfl
@[simp] theorem inChunkSize_goto : (s.goto state).inChunkSize = s.inChunkSize := rfl
@[simp] theorem delivered_goto : (s.goto state).delivered = s.delivered := rfl

end

/-- `RTMP_PARSE_INIT`. -/
def roundInit (s : Session) (data : List UInt8) : Round := .next { s with parser := { s.parser with
    buffer := [data.getD 0 0], basicBytes := basicBytesOf (data.getD 0 0), state := .basicHeader } } 1

/-- `RTMP_PARSE_BASIC_HEADER`. -/
def roundBasicHeader (s : Session) (data : List UInt8) : Round :=
  let t := s.parser.fill s.parser.basicBytes data
  let s := s.buffered t
  .next (if s.parser.basicBytes ≤ s.parser.buffer.length then s.goto .messageHeader else s) t.length

/-- `RTMP_PARSE_MESSAGE_HEADER`. -/
def roundMessageHeader (s : Session) (data : List UInt8) : Round :=
  let need := s.parser.headerNeed
  let t := s.parser.fill need data
  match (s.buffered t).stepMessageHeader need with
  | .wait => .next (s.buffered t) t.length
  | .done s => .next (s.goto .extendedTimestamp) t.length
  | .fatal s => .fatal s

/-- `RTMP_PARSE_EXTENDED_TIMESTAMP`. A chunk of the last form has an extended timestamp if the last full header had one. -/
def roundExtendedTimestamp (oom : Nat → Bool) (s : Session) (data : List UInt8) : Round :=
  match lookup InChan.cid s.inChan s.parser.pkt with
  | none => .fault
  | some c =>
    let hasExt : Bool := c.header.timestamp = 0xFFFFFF
    let need := msgHdrSize c.header.fmt + s.parser.basicBytes + if hasExt then 4 else 0
    let t := s.parser.fill need data
    match (s.buffered t).stepExtendedTimestamp oom c need hasExt with
    | .wait => .next (s.buffered t) t.length
    | .done s => .next { s with parser := { s.parser with chunkBytes := 0, state := .payload } } t.length
    | .fatal s => .fatal s

/-- The payload bytes that belong to the chunk in progress. -/
def payloadRoom (s : Session) (c : InChan) : Nat :=
  min (s.inChunkSize.1 - s.parser.chunkBytes) (c.header.length - c.bytes)

/-- Behind `n` more payload bytes, which make the channel `c`: deliver, go to the next chunk, or wait for more. -/
def payloadDone (s : Session) (c : InChan) (n : Nat) : Session :=
  let s := { s with
    inChan := replace InChan.cid c s.inChan, parser := { s.parser with chunkBytes := s.parser.chunkBytes + n } }
  if c.header.length ≤ c.bytes then
    ({ s with inChan := replace InChan.cid { c with bytes := 0 } s.inChan }.goto .init).onMessage
      ⟨c.header.type, c.clock, c.payload.take c.bytes⟩
  else if s.inChunkSize.1 ≤ s.parser.chunkBytes then s.goto .init
  else s

/-- `RTMP_PARSE_PAYLOAD`. -/
def roundPayload (s : Session) (data : List UInt8) : Round :=
  match lookup InChan.cid s.inChan s.parser.pkt with
  | none => .fault
  | some c =>
    let t := data.take (s.payloadRoom c)
    match c.store t with
    | none => .fault
    | some c => .next (s.payloadDone c t.length) t.length

/-- One round of `rtmp_session_feed`. -/
def round (oom : Nat → Bool) (s : Session) (data : List UInt8) : Round :=
  match s.parser.state with
  | .init => s.roundInit data
  | .basicHeader => s.roundBasicHeader data
  | .messageHeader => s.roundMessageHeader data
  | .extendedTimestamp => s.roundExtendedTimestamp oom data
  | .payload => s.roundPayload data

end Session

/-! ## The loop

A round takes a byte or brings the parser nearer to its first state, which takes one. -/

/-- The most rounds that can follow without a byte. -/
def ParseState.rank : ParseState → Nat
  | .init => 0
  | .payload => 1
  | .extendedTimestamp => 2
  | .messageHeader => 3
  | .basicHeader => 4

theorem ParseState.rank_le (st : ParseState) : st.rank ≤ 4 := by cases st <;> decide

theorem stepMessageHeader_wait {s : Session} {need : Nat} (h : s.stepMessageHeader need = .wait) :
    s.parser.buffer.length < need := by
  by_contra hlen
  rw [Session.stepMessageHeader, if_neg hlen] at h
  have hread : ∀ (s : Session) (c : InChan) (fmt : Nat), s.readHeader c fmt ≠ .wait := fun s c fmt => by
    simp only [Session.readHeader]
    split <;> exact nofun
  simp only at h
  split at h
  · exact hread _ _ _ h
  · split at h
    · cases h
    · split at h
      · cases h
      · exact hread _ _ _ h

theorem stepExtendedTimestamp_wait {oom : Nat → Bool} {s : Session} {c : InChan} {need : Nat} {hasExt : Bool}
    (h : s.stepExtendedTimestamp oom c need hasExt = .wait) : s.parser.buffer.length < need := by
  by_contra hlen
  rw [Session.stepExtendedTimestamp, if_neg hlen] at h
  split at h
  · cases halloc : (c.setClock (s.chunkTimestamp c hasExt)).allocPayload oom <;> simp only [halloc] at h <;> cases h
  · cases h

theorem Parser.length_fill (p : Parser) (need : Nat) (data : List UInt8) :
    (p.fill need data).length = min (need - p.buffer.length) data.length := by
  rw [Parser.fill, length_take]

section
variable {oom : Nat → Bool} {s s' : Session} {data : List UInt8} {n : Nat} (hdata : data ≠ [])

include hdata

theorem roundBasicHeader_progress (hstate : s.parser.state = .basicHeader)
    (h : s.roundBasicHeader data = .next s' n) : 0 < n ∨ s'.parser.state.rank < s.parser.state.rank := by
  have hpos : 0 < data.length := length_pos_iff.2 hdata
  obtain ⟨rfl, rfl⟩ := h
  rw [Parser.length_fill]
  by_cases hneed : s.parser.basicBytes ≤ s.parser.buffer.length
  · right
    rw [if_pos (by simp only [Session.parser_buffered, length_append]; omega), hstate]
    exact (by decide : ParseState.messageHeader.rank < ParseState.basicHeader.rank)
  · exact .inl (by omega)

theorem roundMessageHeader_progress (hstate : s.parser.state = .messageHeader)
    (h : s.roundMessageHeader data = .next s' n) : 0 < n ∨ s'.parser.state.rank < s.parser.state.rank := by
  have hpos : 0 < data.length := length_pos_iff.2 hdata
  simp only [Session.roundMessageHeader] at h
  split at h
  · rename_i hwait
    have hlen := stepMessageHeader_wait hwait
    obtain ⟨rfl, rfl⟩ := h
    simp only [Session.parser_buffered, length_append, Parser.length_fill] at hlen ⊢
    exact .inl (by omega)
  · simp only [Round.next.injEq] at h
    obtain ⟨rfl, rfl⟩ := h
    rw [hstate]
    exact .inr (by decide : ParseState.extendedTimestamp.rank < ParseState.messageHeader.rank)
  · cases h

theorem roundExtendedTimestamp_progress (hstate : s.parser.state = .extendedTimestamp)
    (h : s.roundExtendedTimestamp oom data = .next s' n) : 0 < n ∨ s'.parser.state.rank < s.parser.state.rank := by
  have hpos : 0 < data.length := length_pos_iff.2 hdata
  simp only [Session.roundExtendedTimestamp] at h
  split at h
  · cases h
  split at h
  · rename_i hwait
    have hlen := stepExtendedTimestamp_wait hwait
    obtain ⟨rfl, rfl⟩ := h
    simp only [Session.parser_buffered, length_append, Parser.length_fill] at hlen ⊢
    exact .inl (by omega)
  · simp only [Round.next.injEq] at h
    obtain ⟨rfl, rfl⟩ := h
    rw [hstate]
    exact .inr (by decide : ParseState.payload.rank < ParseState.extendedTimestamp.rank)
  · cases h

theorem roundPayload_progress (hstate : s.parser.state = .payload)
    (h : s.roundPayload data = .next s' n) : 0 < n ∨ s'.parser.state.rank < s.parser.state.rank := by
  have hpos : 0 < data.length := length_pos_iff.2 hdata
  simp only [Session.roundPayload] at h
  split at h
  · cases h
  rename_i c _
  split at h
  · cases h
  rename_i c' hstore
  obtain ⟨rfl, rfl⟩ := h
  rw [hstate, Session.payloadDone]
  by_cases hzero : 0 < (data.take (s.payloadRoom c)).length
  · exact .inl hzero
  right
  have hnil : data.take (s.payloadRoom c) = [] := length_eq_zero_iff.1 (by omega)
  rw [InChan.store, if_pos hnil, Option.some.injEq] at hstore
  subst hstore
  have hroom : s.payloadRoom c = 0 := by
    rw [length_take] at hzero
    omega
  rw [Session.payloadRoom] at hroom
  split
  · exact (by decide : ParseState.init.rank < ParseState.payload.rank)
  · rw [if_pos (by simp only; omega)]
    exact (by decide : ParseState.init.rank < ParseState.payload.rank)

theorem round_progress (h : s.round oom data = .next s' n) : 0 < n ∨ s'.parser.state.rank < s.parser.state.rank := by
  rw [Session.round] at h
  split at h <;> rename_i hstate
  · simp only [Session.roundInit, Round.next.injEq] at h
    exact .inl (by omega)
  · exact roundBasicHeader_progress hdata hstate h
  · exact roundMessageHeader_progress hdata hstate h
  · exact roundExtendedTimestamp_progress hdata hstate h
  · exact roundPayload_progress hdata hstate h

omit hdata

end

/-- How a call of `rtmp_session_feed` ends: it returns 0 or -1, or a write is outside the memory it owns. -/
inductive Fed where
  | ok (s : Session)
  | fatal (s : Session)
  | fault

/-- `rtmp_session_feed`. -/
def Session.feed (oom : Nat → Bool) (s : Session) (data : List UInt8) : Fed :=
  if _hdata : data = [] then .ok s
  else
    match _h : s.round oom data with
    | .next s' n => s'.feed oom (data.drop n)
    | .fatal s' => .fatal s'
    | .fault => .fault
termination_by 5 * data.length + s.parser.state.rank
decreasing_by
  have hpos : 0 < data.length := length_pos_iff.2 _hdata
  have hrank := s'.parser.state.rank_le
  rw [length_drop]
  rcases round_progress _hdata _h with hn | hlt <;> omega

/-- Calls one behind the other, up to one that fails. -/
def Session.feedAll (oom : Nat → Bool) : Session → List (List UInt8) → Fed
  | s, [] => .ok s
  | s, d :: ds =>
    match s.feed oom d with
    | .ok s' => s'.feedAll oom ds
    | r => r

end DvbIpiTools.Net.Rtmp
