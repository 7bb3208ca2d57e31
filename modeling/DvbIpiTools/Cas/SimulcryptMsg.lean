import DvbIpiTools.Helper.BeUtil

set_option autoImplicit false

/-! # SimulCrypt messages (`lib/cas/simulcrypt_msg.c`)

A message is a header and a payload of TLVs. The writer collects one in a buffer; the reader puts messages
together from a socket that does not block. -/

namespace DvbIpiTools.Cas

open BeUtil

def simulcryptHdrLen : Nat := 5
def simulcryptMaxPayload : Nat := 65535
def simulcryptMaxFrame : Nat := simulcryptHdrLen + simulcryptMaxPayload

/-- `simulcrypt_hdr_t`. -/
structure SimulcryptHdr where
  version : Nat
  type : Nat
  payloadLen : Nat
  deriving DecidableEq

/-- `simulcrypt_hdr_parse`. -/
def hdrParse (buf : List UInt8) : Option SimulcryptHdr :=
  if buf.length < simulcryptHdrLen then none else some ⟨byteAt buf 0, beGet buf 1 2, beGet buf 3 2⟩

/-- `simulcrypt_hdr_write`; nothing if it does not fit. -/
def hdrWrite (version : UInt8) (type : UInt16) (payloadLen cap : Nat) : List UInt8 :=
  if cap < simulcryptHdrLen then [] else [version] ++ bePut 2 type.toNat ++ bePut 2 payloadLen

/-! ## TLVs -/

/-- `simulcrypt_tlv_reader_t`; `buf` has its length. -/
structure TlvReader where
  buf : List UInt8
  pos : Nat := 0

/-- An element: its tag, and where its value is. -/
structure Tlv where
  tag : Nat
  off : Nat
  len : Nat

inductive TlvNext
  | element (t : Tlv) (r : TlvReader)
  | finished
  | truncated

/-- `simulcrypt_tlv_reader_next`. -/
def TlvReader.next (r : TlvReader) : TlvNext :=
  if r.pos = r.buf.length then .finished
  else if r.buf.length - r.pos < 4 then .truncated
  else
    let vlen := beGet r.buf (r.pos + 2) 2
    if r.buf.length - (r.pos + 4) < vlen then .truncated
    else .element ⟨beGet r.buf r.pos 2, r.pos + 4, vlen⟩ { r with pos := r.pos + 4 + vlen }

/-- The bytes of a value. -/
def Tlv.value (t : Tlv) (buf : List UInt8) : List UInt8 := (buf.drop t.off).take t.len

inductive TlvEnd
  | finished
  | truncated
  | unfinished

/-- At most `n` calls of the reader: the elements, and how it ended. -/
def TlvReader.scan : Nat → TlvReader → List Tlv × TlvEnd
  | 0, _ => ([], .unfinished)
  | n + 1, r =>
    match r.next with
    | .element t r' => (t :: (scan n r').1, (scan n r').2)
    | .finished => ([], .finished)
    | .truncated => ([], .truncated)

/-- All elements of a payload. -/
def tlvScan (payload : List UInt8) : List Tlv × TlvEnd := (TlvReader.mk payload 0).scan (payload.length + 1)

/-- The loop of the `simulcrypt_find` functions: the first element of a tag with a value of `width` bytes. -/
def TlvReader.find (width tag : Nat) : Nat → TlvReader → Option Nat
  | 0, _ => none
  | n + 1, r =>
    match r.next with
    | .element t r' => if t.tag = tag ∧ t.len = width then some (beGet r.buf t.off width) else find width tag n r'
    | _ => none

/-- `simulcrypt_find_u8`. -/
def findU8 (payload : List UInt8) (tag : Nat) : Option Nat :=
  (TlvReader.mk payload 0).find 1 tag (payload.length + 1)

/-- `simulcrypt_find_u16`. -/
def findU16 (payload : List UInt8) (tag : Nat) : Option Nat :=
  (TlvReader.mk payload 0).find 2 tag (payload.length + 1)

/-- `simulcrypt_find_u32`. -/
def findU32 (payload : List UInt8) (tag : Nat) : Option Nat :=
  (TlvReader.mk payload 0).find 4 tag (payload.length + 1)

/-! ## Writing -/

/-- `simulcrypt_writer_t`; `buf` has the `len` bytes written so far. -/
structure SimulcryptWriter where
  buf : List UInt8
  cap : Nat

namespace SimulcryptWriter

/-- `simulcrypt_writer_begin`. -/
def begin (cap : Nat) (version : UInt8) (type : UInt16) : Bool × SimulcryptWriter :=
  let buf := hdrWrite version type 0 cap
  (buf.length ≠ 0, ⟨buf, cap⟩)

/-- `simulcrypt_writer_put_tlv`. -/
def putTlv (w : SimulcryptWriter) (tag : UInt16) (value : List UInt8) : Bool × SimulcryptWriter :=
  if w.buf.length = 0 then (false, w)
  else
    let curPayload := w.buf.length - simulcryptHdrLen
    if curPayload + 4 + value.length > simulcryptMaxPayload ∨ w.cap - w.buf.length < 4 + value.length then
      (false, { w with buf := [] })
    else (true, { w with buf := w.buf ++ (bePut 2 tag.toNat ++ bePut 2 value.length ++ value) })

/-- `simulcrypt_writer_finish`: the frame, empty if a call before has failed. -/
def finish (w : SimulcryptWriter) : List UInt8 :=
  if w.buf.length = 0 then []
  else w.buf.take 3 ++ bePut 2 (w.buf.length - simulcryptHdrLen) ++ w.buf.drop 5

/-- Any number of elements. -/
def putTlvs (w : SimulcryptWriter) (tlvs : List (UInt16 × List UInt8)) : SimulcryptWriter :=
  tlvs.foldl (fun w t => (w.putTlv t.1 t.2).2) w

end SimulcryptWriter

/-! ## Reading -/

/-- `simulcrypt_reader_t`; `buf` has the `have` bytes read so far. -/
structure SimulcryptReader where
  buf : List UInt8 := []
  need : Nat := 0
  hdr : SimulcryptHdr := ⟨0, 0, 0⟩

inductive PollResult
  | frame (hdr : SimulcryptHdr) (payload : List UInt8)
  | nothing
  | failed
  deriving DecidableEq

namespace SimulcryptReader

/-- How much the next read asks for. -/
def want (r : SimulcryptReader) : Nat :=
  if r.need ≠ 0 then r.need - r.buf.length else simulcryptHdrLen - r.buf.length

/-- The header is parsed once it is there; `false` if the frame does not fit. -/
def parseHdr (r : SimulcryptReader) : Bool × SimulcryptReader :=
  if r.need = 0 ∧ r.buf.length ≥ simulcryptHdrLen then
    let hdr := (hdrParse r.buf).getD r.hdr
    let r := { r with hdr, need := simulcryptHdrLen + hdr.payloadLen }
    (decide (r.need ≤ simulcryptMaxFrame), r)
  else (true, r)

/-- The loop of `simulcrypt_reader_poll` after a read of `data`. -/
def take (r : SimulcryptReader) (data : List UInt8) : PollResult × SimulcryptReader :=
  let (ok, r) := { r with buf := r.buf ++ data }.parseHdr
  if !ok then (.failed, r)
  else if r.need ≠ 0 ∧ r.buf.length ≥ r.need then
    (.frame r.hdr ((r.buf.drop simulcryptHdrLen).take r.hdr.payloadLen), { r with buf := [], need := 0 })
  else (.nothing, r)

/-- The loop of `simulcrypt_reader_poll` on a socket with the bytes `s`. The `k`s say how many bytes each read
    finds there, none if it is interrupted; after the last one it would block. -/
def reads : List Nat → SimulcryptReader → List UInt8 → PollResult × SimulcryptReader × List UInt8
  | [], r, s => (.nothing, r, s)
  | k :: ks, r, s =>
    if k = 0 then reads ks r s
    else
      let n := min k (min r.want s.length)
      if n = 0 then (.nothing, r, s)
      else
        match r.take (s.take n) with
        | (.nothing, r) => reads ks r (s.drop n)
        | (res, r) => (res, r, s.drop n)

/-- `simulcrypt_reader_poll`; `none` if `poll` finds nothing to read. -/
def poll (r : SimulcryptReader) (s : List UInt8) : Option (List Nat) → PollResult × SimulcryptReader × List UInt8
  | none => (.nothing, r, s)
  | some ks => reads ks r s

/-- Any number of polls: their results, the reader and the bytes left. -/
def polls : SimulcryptReader → List UInt8 → List (Option (List Nat)) →
    List PollResult × SimulcryptReader × List UInt8
  | r, s, [] => ([], r, s)
  | r, s, p :: ps =>
    let (res, r, s) := r.poll s p
    let (results, r, s) := polls r s ps
    (res :: results, r, s)

end SimulcryptReader

end DvbIpiTools.Cas
