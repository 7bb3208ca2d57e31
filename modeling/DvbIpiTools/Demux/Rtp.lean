import DvbIpiTools.Helper.BeUtil

set_option autoImplicit false

/-! # RTP headers (`demux/rtp.c`) -/

namespace DvbIpiTools.Demux

open BeUtil

/-- `rtp_hdr_t`. -/
structure RtpHdr where
  pt : Nat
  seq : Nat
  timestamp : Nat
  ssrc : Nat
  payloadOff : Nat
deriving DecidableEq

/-- The end of the fixed header, the contributing sources and the extension, where the lengths allow to
read it. -/
def rtpHeaderEnd (p : List UInt8) : Option Nat :=
  if p.length < 12 ∨ byteAt p 0 >>> 6 ≠ 2 then none
  else
    let off := 12 + (byteAt p 0 &&& 0x0F) * 4
    if byteAt p 0 &&& 0x10 ≠ 0 then
      if p.length < off + 4 then none else some (off + 4 + beGet p (off + 2) 2 * 4)
    else some off

/-- `rtp_payload_offset`; 0 where the packet does not carry a transport stream. -/
def rtpPayloadOffset (p : List UInt8) : Nat := match rtpHeaderEnd p with
  | none => 0
  | some off => if off ≥ p.length ∨ byteAt p off ≠ 0x47 then 0 else off

/-- `rtp_ts_payload`: where the transport stream of the packet starts and how long it is. -/
def rtpTsPayload (p : List UInt8) : Option (Nat × Nat) := match rtpHeaderEnd p with
  | none => none
  | some off =>
    if off ≥ p.length ∨ byteAt p off ≠ 0x47 then none
    else
      let pad := byteAt p (p.length - 1)
      if byteAt p 0 &&& 0x20 = 0 then some (off, p.length - off)
      else if pad = 0 ∨ pad > p.length - off then some (off, 0)
      else some (off, p.length - off - pad)

def rtpParseHeader (p : List UInt8) : Option RtpHdr := do
  let off ← rtpHeaderEnd p
  if off > p.length then none
  else return {
    pt := byteAt p 1 &&& 0x7F
    seq := beGet p 2 2
    timestamp := beGet p 4 4
    ssrc := beGet p 8 4
    payloadOff := off }

theorem rtpParseHeader_seq {p : List UInt8} {h : RtpHdr} (hp : rtpParseHeader p = some h) : h.seq = beGet p 2 2 := by
  unfold rtpParseHeader at hp
  cases hoff : rtpHeaderEnd p with
  | none => rw [hoff] at hp; cases hp
  | some off =>
    rw [hoff, Option.bind_eq_bind, Option.bind_some] at hp
    split at hp
    · cases hp
    · cases hp
      rfl

theorem rtpParseHeader_seq_lt {p : List UInt8} {h : RtpHdr} (hp : rtpParseHeader p = some h) : h.seq < 65536 := by
  rw [rtpParseHeader_seq hp]
  exact beGet_lt p 2 2

end DvbIpiTools.Demux
