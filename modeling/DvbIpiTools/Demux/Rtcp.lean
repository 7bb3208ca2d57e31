import DvbIpiTools.Helper.BeUtil

set_option autoImplicit false

/-! # RTCP feedback (`demux/rtcp.c`)

The parser as the list of its callbacks, in order; a NULL callback leaves out the events of its kind. Every
read is checked: `none` stands for a read outside the bytes a function was given, and for a loop that does
not end within as many rounds as there are bytes. -/

namespace DvbIpiTools.Demux

open BeUtil List Option

/-- `rtcp_nack_entry_t`. -/
structure NackEntry where
  pid : UInt16
  blp : UInt16
deriving DecidableEq

/-- `rtcp_nack_t`. -/
structure RtcpNack where
  senderSsrc : UInt32
  mediaSsrc : UInt32
  entries : List NackEntry
  truncated : Bool
deriving DecidableEq

/-- `rtcp_rams_r_t`; a field with a `has_` flag is there when the flag is set. -/
structure RamsR where
  senderSsrc : UInt32
  mediaSsrc : UInt32
  ignoreMediaSsrc : Bool := false
  minBufferFillMs : Option UInt32 := none
  maxBufferFillMs : Option UInt32 := none
  maxBitrateBps : Option UInt64 := none
deriving DecidableEq

/-- `rtcp_rams_t_t`. -/
structure RamsT where
  senderSsrc : UInt32
  mediaSsrc : UInt32
  firstMcSeqnum : Option UInt32 := none
deriving DecidableEq

/-- `rtcp_rams_i_t`. -/
structure RamsI where
  senderSsrc : UInt32
  mediaSsrc : UInt32
  msn : UInt8
  response : UInt16
  mediaSsrcTlv : Option UInt32 := none
  firstPacketSeqnum : Option UInt16 := none
  earliestJoinTimeMs : Option UInt32 := none
  burstDurationMs : Option UInt32 := none
  maxTransmitBitrateBps : Option UInt64 := none
deriving DecidableEq

/-- `rtcp_sdes_t`. -/
structure RtcpSdes where
  ssrc : UInt32
  cname : List UInt8
deriving DecidableEq

/-- A call of one of the callbacks of `rtcp_cbs_t`. -/
inductive RtcpEvent where
  | nack (nack : RtcpNack)
  | ramsR (req : RamsR)
  | ramsI (info : RamsI)
  | ramsT (term : RamsT)
  | sdes (sdes : RtcpSdes)
  | malformed (sfmt : Nat) (senderSsrc mediaSsrc : UInt32)
deriving DecidableEq

/-! ## Checked reads -/

/-- `n` bytes at `off`. -/
def rdBytes (p : List UInt8) (off n : Nat) : Option (List UInt8) :=
  if off + n ≤ p.length then some ((p.drop off).take n) else none

/-- `p[off]`. -/
def rd8 (p : List UInt8) (off : Nat) : Option UInt8 := if off < p.length then some (p.getD off 0) else none

/-- `be16_get`. -/
def rd16 (p : List UInt8) (off : Nat) : Option UInt16 :=
  if off + 2 ≤ p.length then some (UInt16.ofNat (beGet p off 2)) else none

/-- `be32_get`. -/
def rd32 (p : List UInt8) (off : Nat) : Option UInt32 :=
  if off + 4 ≤ p.length then some (UInt32.ofNat (beGet p off 4)) else none

/-- `be64_get`. -/
def rd64 (p : List UInt8) (off : Nat) : Option UInt64 :=
  if off + 8 ≤ p.length then some (UInt64.ofNat (beGet p off 8)) else none

/-- `n` rounded up to 32 bit words. -/
def padded4 (n : Nat) : Nat := (n + 3) / 4 * 4

/-! ## Generic NACK -/

def rtcpNackMaxEntries : Nat := 32

/-- The loop of `parse_nack` with `room` entries left, and whether more entries follow. -/
def nackEntries : Nat → List UInt8 → Option (List NackEntry × Bool)
  | 0, p => some ([], decide (4 ≤ p.length))
  | room + 1, p =>
    if p.length < 4 then some ([], false)
    else do
      let pid ← rd16 p 0
      let blp ← rd16 p 2
      let (es, truncated) ← nackEntries room (p.drop 4)
      some (⟨pid, blp⟩ :: es, truncated)

def parseNack (p : List UInt8) : Option (List RtcpEvent) :=
  if p.length < 12 then some []
  else do
    let senderSsrc ← rd32 p 4
    let mediaSsrc ← rd32 p 8
    let (es, truncated) ← nackEntries rtcpNackMaxEntries (p.drop 12)
    some (if es = [] then [] else [.nack ⟨senderSsrc, mediaSsrc, es, truncated⟩])

/-! ## RAMS -/

/-- The loop over the TLVs of a RAMS message; `f` takes in the TLV at the start of its input. The flag says
that a TLV does not fit. -/
def tlvLoop {σ : Type} (f : UInt8 → Nat → List UInt8 → σ → Option σ) : Nat → List UInt8 → σ → Option (σ × Bool)
  | 0, p, s => if p.length < 4 then some (s, false) else none
  | fuel + 1, p, s =>
    if p.length < 4 then some (s, false)
    else do
      let type ← rd8 p 0
      let vlen ← rd16 p 2
      if 4 + vlen.toNat > p.length then some (s, true)
      else do
        let s' ← f type vlen.toNat p s
        tlvLoop f fuel (p.drop (padded4 (4 + vlen.toNat))) s'

/-- The cases of `parse_rams_r_tlvs`. -/
def ramsRTlv (type : UInt8) (vlen : Nat) (p : List UInt8) (req : RamsR) : Option RamsR :=
  match type with
  | 1 => some { req with ignoreMediaSsrc := true }
  | 2 => if vlen ≥ 4 then do return { req with minBufferFillMs := some (← rd32 p 4) } else some req
  | 3 => if vlen ≥ 4 then do return { req with maxBufferFillMs := some (← rd32 p 4) } else some req
  | 4 => if vlen ≥ 8 then do return { req with maxBitrateBps := some (← rd64 p 4) } else some req
  | _ => some req

/-- `parse_rams_r` and `parse_rams_r_tlvs`. -/
def parseRamsR (p : List UInt8) (senderSsrc mediaSsrc : UInt32) : Option (List RtcpEvent) := do
  let (req, _) ← tlvLoop ramsRTlv p.length p { senderSsrc, mediaSsrc }
  some [.ramsR req]

/-- The case of `parse_rams_t_tlvs`. -/
def ramsTTlv (type : UInt8) (vlen : Nat) (p : List UInt8) (term : RamsT) : Option RamsT :=
  if type = 61 ∧ vlen ≥ 4 then do return { term with firstMcSeqnum := some (← rd32 p 4) } else some term

/-- `parse_rams_t` and `parse_rams_t_tlvs`. -/
def parseRamsT (p : List UInt8) (senderSsrc mediaSsrc : UInt32) : Option (List RtcpEvent) := do
  let (term, malformed) ← tlvLoop ramsTTlv p.length p { senderSsrc, mediaSsrc }
  some (.ramsT term :: if malformed then [.malformed 3 senderSsrc mediaSsrc] else [])

/-- The cases of `parse_rams_i_tlvs`. -/
def ramsITlv (type : UInt8) (vlen : Nat) (p : List UInt8) (info : RamsI) : Option RamsI :=
  match type with
  | 31 => if vlen ≥ 4 then do return { info with mediaSsrcTlv := some (← rd32 p 4) } else some info
  | 32 => if vlen ≥ 2 then do return { info with firstPacketSeqnum := some (← rd16 p 4) } else some info
  | 33 => if vlen ≥ 4 then do return { info with earliestJoinTimeMs := some (← rd32 p 4) } else some info
  | 34 => if vlen ≥ 4 then do return { info with burstDurationMs := some (← rd32 p 4) } else some info
  | 35 => if vlen ≥ 8 then do return { info with maxTransmitBitrateBps := some (← rd64 p 4) } else some info
  | _ => some info

/-- `parse_rams_i` and `parse_rams_i_tlvs`. -/
def parseRamsI (p : List UInt8) (senderSsrc mediaSsrc : UInt32) : Option (List RtcpEvent) :=
  if p.length < 4 then some []
  else do
    let msn ← rd8 p 1
    let response ← rd16 p 2
    let (info, _) ← tlvLoop ramsITlv (p.length - 4) (p.drop 4) { senderSsrc, mediaSsrc, msn, response }
    some [.ramsI info]

def parseRams (p : List UInt8) : Option (List RtcpEvent) :=
  if p.length < 16 then some []
  else do
    let senderSsrc ← rd32 p 4
    let mediaSsrc ← rd32 p 8
    let sfmt ← rd8 p 12
    match sfmt with
    | 1 => parseRamsR (p.drop 16) senderSsrc mediaSsrc
    | 2 => parseRamsI (p.drop 12) senderSsrc mediaSsrc
    | 3 => parseRamsT (p.drop 16) senderSsrc mediaSsrc
    | _ => some []

def parseRtpfb (p : List UInt8) (fmt : Nat) : Option (List RtcpEvent) :=
  match fmt with
  | 1 => parseNack p
  | 6 => parseRams p
  | _ => some []

/-! ## SDES -/

/-- The items of a chunk: where they end, and the first CNAME, cut to `RTCP_CNAME_MAX - 1` bytes. -/
def sdesItems (p : List UInt8) : Nat → Nat → Option (List UInt8) → Option (Nat × Option (List UInt8))
  | 0, _, _ => none
  | fuel + 1, off, cname =>
    if off ≥ p.length then some (off, cname)
    else do
      let type ← rd8 p off
      if type = 0 ∨ off + 2 > p.length then some (off, cname)
      else do
        let ilen ← rd8 p (off + 1)
        if off + 2 + ilen.toNat > p.length then some (off, cname)
        else if type = 1 ∧ cname = none then do
          let name ← rdBytes p (off + 2) (min ilen.toNat 63)
          sdesItems p fuel (off + 2 + ilen.toNat) (some name)
        else sdesItems p fuel (off + 2 + ilen.toNat) cname

/-- The chunks of `parse_sdes`, as many as the packet announces. -/
def sdesChunks (p : List UInt8) : Nat → Nat → Option (List RtcpEvent)
  | 0, _ => some []
  | chunks + 1, off =>
    if off + 4 > p.length then some []
    else do
      let ssrc ← rd32 p off
      let (itemOff, cname) ← sdesItems p (p.length + 1) (off + 4) none
      let itemOff := if itemOff < p.length then itemOff + 1 else itemOff
      if padded4 (itemOff - off) = 0 then some []
      else do
        let rest ← sdesChunks p chunks (off + padded4 (itemOff - off))
        some ((cname.map fun name => RtcpEvent.sdes ⟨ssrc, name⟩).toList ++ rest)

def parseSdes (p : List UInt8) (sc : Nat) : Option (List RtcpEvent) := sdesChunks p sc 4

/-! ## Compound packets -/

/-- The packet type decides; others than feedback and SDES are skipped. -/
def rtcpDispatch (pt : UInt8) (fmt : Nat) (body : List UInt8) : Option (List RtcpEvent) :=
  match pt with
  | 205 => parseRtpfb body fmt
  | 202 => parseSdes body fmt
  | _ => some []

/-- One packet of a compound one. A packet with bad padding is dropped. -/
def rtcpPacket (p : List UInt8) : Option (List RtcpEvent) := do
  let b ← rd8 p 0
  let pt ← rd8 p 1
  if b.toNat &&& 0x20 ≠ 0 then do
    let pad ← rd8 p (p.length - 1)
    if pad = 0 ∨ pad.toNat > p.length - 4 then some []
    else rtcpDispatch pt (b.toNat &&& 0x1F) (p.take (p.length - pad.toNat))
  else rtcpDispatch pt (b.toNat &&& 0x1F) p

/-- The loop of `rtcp_parse` on what is left of the datagram. -/
def rtcpWalk : Nat → List UInt8 → Option (List RtcpEvent)
  | 0, p => if p.length < 4 then some [] else none
  | fuel + 1, p =>
    if p.length < 4 then some []
    else do
      let b ← rd8 p 0
      let words ← rd16 p 2
      let pktLen := (words.toNat + 1) * 4
      if b.toNat >>> 6 ≠ 2 ∨ pktLen > p.length then some []
      else do
        let events ← rtcpPacket (p.take pktLen)
        let rest ← rtcpWalk fuel (p.drop pktLen)
        some (events ++ rest)

def rtcpParse (p : List UInt8) : Option (List RtcpEvent) := rtcpWalk p.length p

/-! # `rtcp_parse` on arbitrary bytes

No read leaves the datagram and every loop ends, so `rtcpParse` always has a value; and the packets it
reports are those of the longest initial part of the datagram that divides into whole packets. -/

/-! ## Reads inside the bounds -/

variable {p : List UInt8} {off : Nat}

theorem rd8_of_lt (h : off < p.length) : rd8 p off = some (p.getD off 0) := if_pos h

theorem rd16_of_le (h : off + 2 ≤ p.length) : rd16 p off = some (UInt16.ofNat (beGet p off 2)) := if_pos h

theorem rd32_of_le (h : off + 4 ≤ p.length) : rd32 p off = some (UInt32.ofNat (beGet p off 4)) := if_pos h

theorem rd64_of_le (h : off + 8 ≤ p.length) : rd64 p off = some (UInt64.ofNat (beGet p off 8)) := if_pos h

theorem le_padded4 (n : Nat) : n ≤ padded4 n := by
  unfold padded4
  omega

theorem nackEntries_isSome (room : Nat) (p : List UInt8) : (nackEntries room p).isSome := by
  induction room generalizing p with
  | zero => rfl
  | succ room ih =>
    unfold nackEntries
    split
    · rfl
    · rename_i hlen
      obtain ⟨r, hr⟩ := isSome_iff_exists.1 (ih (p.drop 4))
      rw [rd16_of_le (by omega), rd16_of_le (by omega), hr]
      rfl

theorem parseNack_isSome (p : List UInt8) : (parseNack p).isSome := by
  unfold parseNack
  split
  · rfl
  · rename_i hlen
    obtain ⟨r, hr⟩ := isSome_iff_exists.1 (nackEntries_isSome rtcpNackMaxEntries (p.drop 12))
    rw [rd32_of_le (by omega), rd32_of_le (by omega), hr]
    rfl

/-- The TLV loop ends and reads nothing outside, if `f` reads only the TLV it gets. -/
theorem tlvLoop_isSome {σ : Type} {f : UInt8 → Nat → List UInt8 → σ → Option σ}
    (hf : ∀ type vlen p s, 4 + vlen ≤ p.length → (f type vlen p s).isSome) (fuel : Nat) (p : List UInt8) (s : σ)
    (hfuel : p.length ≤ fuel) : (tlvLoop f fuel p s).isSome := by
  induction fuel generalizing p s with
  | zero =>
    unfold tlvLoop
    rw [if_pos (by omega)]
    rfl
  | succ fuel ih =>
    unfold tlvLoop
    split
    · rfl
    rename_i hlen
    rw [rd8_of_lt (by omega), rd16_of_le (by omega)]
    simp only [bind_eq_bind, bind_some]
    split
    · rfl
    rename_i hfit
    obtain ⟨s', hs'⟩ := isSome_iff_exists.1 (hf (p.getD 0 0) _ p s (not_lt.1 hfit))
    rw [hs', bind_some]
    apply ih
    have hpad := le_padded4 (4 + (UInt16.ofNat (beGet p 2 2)).toNat)
    rw [length_drop]
    omega

variable (type : UInt8)

theorem ramsRTlv_isSome (vlen : Nat) (p : List UInt8) (req : RamsR) (h : 4 + vlen ≤ p.length) :
    (ramsRTlv type vlen p req).isSome := by
  unfold ramsRTlv
  split
  · rfl
  · split
    · rw [rd32_of_le (by omega)]
      rfl
    · rfl
  · split
    · rw [rd32_of_le (by omega)]
      rfl
    · rfl
  · split
    · rw [rd64_of_le (by omega)]
      rfl
    · rfl
  · rfl

theorem ramsTTlv_isSome (vlen : Nat) (p : List UInt8) (term : RamsT) (h : 4 + vlen ≤ p.length) :
    (ramsTTlv type vlen p term).isSome := by
  unfold ramsTTlv
  split
  · rename_i hvlen
    rw [rd32_of_le (by omega)]
    rfl
  · rfl

theorem ramsITlv_isSome (vlen : Nat) (p : List UInt8) (info : RamsI) (h : 4 + vlen ≤ p.length) :
    (ramsITlv type vlen p info).isSome := by
  unfold ramsITlv
  split
  · split
    · rw [rd32_of_le (by omega)]
      rfl
    · rfl
  · split
    · rw [rd16_of_le (by omega)]
      rfl
    · rfl
  · split
    · rw [rd32_of_le (by omega)]
      rfl
    · rfl
  · split
    · rw [rd32_of_le (by omega)]
      rfl
    · rfl
  · split
    · rw [rd64_of_le (by omega)]
      rfl
    · rfl
  · rfl

theorem parseRams_isSome (p : List UInt8) : (parseRams p).isSome := by
  unfold parseRams
  split
  · rfl
  rename_i hlen
  rw [rd32_of_le (by omega), rd32_of_le (by omega), rd8_of_lt (by omega)]
  simp only [bind_eq_bind, bind_some]
  split
  · obtain ⟨r, hr⟩ := isSome_iff_exists.1
      (tlvLoop_isSome ramsRTlv_isSome _ (p.drop 16) ⟨UInt32.ofNat (beGet p 4 4), UInt32.ofNat (beGet p 8 4),
        false, none, none, none⟩ le_rfl)
    rw [parseRamsR, hr]
    rfl
  · unfold parseRamsI
    rw [if_neg (by rw [length_drop]; omega), rd8_of_lt (by rw [length_drop]; omega),
      rd16_of_le (by rw [length_drop]; omega)]
    simp only [bind_eq_bind, bind_some]
    obtain ⟨r, hr⟩ := isSome_iff_exists.1
      (tlvLoop_isSome ramsITlv_isSome ((p.drop 12).length - 4) ((p.drop 12).drop 4)
        ⟨UInt32.ofNat (beGet p 4 4), UInt32.ofNat (beGet p 8 4), (p.drop 12).getD 1 0,
          UInt16.ofNat (beGet (p.drop 12) 2 2), none, none, none, none, none⟩
        length_drop.le)
    rw [hr]
    rfl
  · obtain ⟨r, hr⟩ := isSome_iff_exists.1
      (tlvLoop_isSome ramsTTlv_isSome _ (p.drop 16) ⟨UInt32.ofNat (beGet p 4 4), UInt32.ofNat (beGet p 8 4),
        none⟩ le_rfl)
    rw [parseRamsT, hr]
    rfl
  · rfl

theorem parseRtpfb_isSome (p : List UInt8) (fmt : Nat) : (parseRtpfb p fmt).isSome := by
  unfold parseRtpfb
  split
  · exact parseNack_isSome p
  · exact parseRams_isSome p
  · rfl

theorem sdesItems_isSome (p : List UInt8) (fuel off : Nat) (cname : Option (List UInt8))
    (hfuel : p.length - off < fuel) : (sdesItems p fuel off cname).isSome := by
  induction fuel generalizing off cname with
  | zero => exact absurd hfuel (Nat.not_lt_zero _)
  | succ fuel ih =>
    unfold sdesItems
    split
    · rfl
    rename_i hoff
    rw [rd8_of_lt (by omega)]
    simp only [bind_eq_bind, bind_some]
    split
    · rfl
    rename_i hitem
    rw [rd8_of_lt (by omega), bind_some]
    split
    · rfl
    · rename_i hfit
      split
      · rw [rdBytes, if_pos (by omega), bind_some]
        exact ih _ _ (by omega)
      · exact ih _ _ (by omega)

theorem sdesChunks_isSome (p : List UInt8) (chunks off : Nat) : (sdesChunks p chunks off).isSome := by
  induction chunks generalizing off with
  | zero => rfl
  | succ chunks ih =>
    unfold sdesChunks
    split
    · rfl
    rename_i hoff
    obtain ⟨⟨itemOff, cname⟩, hitems⟩ := isSome_iff_exists.1
      (sdesItems_isSome p (p.length + 1) (off + 4) none (by omega))
    rw [rd32_of_le (by omega), hitems]
    simp only [bind_eq_bind, bind_some]
    generalize (if itemOff < p.length then itemOff + 1 else itemOff) = next
    by_cases hzero : padded4 (next - off) = 0
    · rw [if_pos hzero]
      rfl
    · obtain ⟨r, hr⟩ := isSome_iff_exists.1 (ih (off + padded4 (next - off)))
      rw [if_neg hzero, hr]
      rfl

theorem rtcpDispatch_isSome (pt : UInt8) (fmt : Nat) (body : List UInt8) : (rtcpDispatch pt fmt body).isSome := by
  unfold rtcpDispatch
  split
  · exact parseRtpfb_isSome body fmt
  · exact sdesChunks_isSome body fmt 4
  · rfl

theorem rtcpPacket_isSome (p : List UInt8) (h : 4 ≤ p.length) : (rtcpPacket p).isSome := by
  unfold rtcpPacket
  rw [rd8_of_lt (by omega), rd8_of_lt (by omega)]
  simp only [bind_eq_bind, bind_some]
  split
  · rw [rd8_of_lt (by omega), bind_some]
    split
    · rfl
    · exact rtcpDispatch_isSome _ _ _
  · exact rtcpDispatch_isSome _ _ _

/-! ## The packets of a datagram -/

/-- The length in bytes that the header of a packet gives. -/
def rtcpPktLen (p : List UInt8) : Nat := (beGet p 2 2 + 1) * 4

/-- The bytes start with a packet of version 2 that fits. -/
def RtcpFits (p : List UInt8) : Prop := 4 ≤ p.length ∧ (p.getD 0 0).toNat >>> 6 = 2 ∧ rtcpPktLen p ≤ p.length

/-- What the callbacks get of one packet. -/
def rtcpEvents (p : List UInt8) : List RtcpEvent := (rtcpPacket p).getD []

theorem rtcpWords (p : List UInt8) : (UInt16.ofNat (beGet p 2 2)).toNat = beGet p 2 2 := by
  exact Nat.mod_eq_of_lt (beGet_lt p 2 2)

theorem rtcpWalk_fits {fuel : Nat} (h : RtcpFits p) :
    rtcpWalk (fuel + 1) p = (rtcpWalk fuel (p.drop (rtcpPktLen p))).map
      (rtcpEvents (p.take (rtcpPktLen p)) ++ ·) := by
  obtain ⟨hlen, hver, hfit⟩ := h
  have hpos : 4 ≤ rtcpPktLen p := by
    unfold rtcpPktLen
    omega
  obtain ⟨evs, hevs⟩ := isSome_iff_exists.1
    (rtcpPacket_isSome (p.take (rtcpPktLen p)) (by rw [length_take]; omega))
  rw [rtcpWalk, if_neg (by omega), rd8_of_lt (by omega), rd16_of_le (by omega)]
  simp only [bind_eq_bind, bind_some, rtcpWords]
  rw [show (beGet p 2 2 + 1) * 4 = rtcpPktLen p from rfl, if_neg (by omega), rtcpEvents, hevs]
  cases rtcpWalk fuel (p.drop (rtcpPktLen p)) <;> rfl

theorem rtcpWalk_not_fits {fuel : Nat} (hfuel : p.length ≤ fuel) (h : ¬ RtcpFits p) : rtcpWalk fuel p = some [] := by
  cases fuel with
  | zero => exact if_pos (by omega)
  | succ fuel =>
    unfold rtcpWalk
    by_cases hlen : p.length < 4
    · exact if_pos hlen
    rw [if_neg hlen, rd8_of_lt (by omega), rd16_of_le (by omega)]
    simp only [bind_eq_bind, bind_some, rtcpWords]
    refine if_pos ?_
    by_contra hboth
    rw [not_or, not_not, not_lt] at hboth
    exact h ⟨not_lt.1 hlen, hboth.1, hboth.2⟩

/-- The datagram is whole packets and a rest that does not start with one; the callbacks get the packets. -/
theorem rtcpWalk_packets (fuel : Nat) (p : List UInt8) (hfuel : p.length ≤ fuel) :
    ∃ (pkts : List (List UInt8)) (rest : List UInt8), p = pkts.flatten ++ rest ∧
      (∀ k ∈ pkts, RtcpFits k ∧ k.length = rtcpPktLen k) ∧ ¬ RtcpFits rest ∧
      rtcpWalk fuel p = some (pkts.flatMap rtcpEvents) := by
  induction fuel generalizing p with
  | zero =>
    have hnot : ¬ RtcpFits p := by
      rintro ⟨hlen, -⟩
      omega
    exact ⟨[], p, rfl, by simp, hnot, rtcpWalk_not_fits hfuel hnot⟩
  | succ fuel ih =>
    by_cases hfits : RtcpFits p
    · have hpos : 4 ≤ rtcpPktLen p := by
        unfold rtcpPktLen
        omega
      obtain ⟨pkts, rest, hp, hall, hrest, hwalk⟩ := ih (p.drop (rtcpPktLen p)) (by rw [length_drop]; omega)
      have hk : (p.take (rtcpPktLen p)).length = rtcpPktLen p := by
        rw [length_take]
        exact Nat.min_eq_left hfits.2.2
      -- the header of the packet is that of the datagram
      have hsplit : p.take (rtcpPktLen p) ++ p.drop (rtcpPktLen p) = p := take_append_drop _ _
      have hbe : beGet (p.take (rtcpPktLen p)) 2 2 = beGet p 2 2 := by
        rw [← beGet_append_left (by omega), hsplit]
      have hsame : rtcpPktLen (p.take (rtcpPktLen p)) = rtcpPktLen p := by
        rw [rtcpPktLen, hbe]
        rfl
      have hbyte : (p.take (rtcpPktLen p)).getD 0 0 = p.getD 0 0 := by
        rw [← getD_append (p.take (rtcpPktLen p)) (p.drop (rtcpPktLen p)) 0 0 (by omega), hsplit]
      refine ⟨p.take (rtcpPktLen p) :: pkts, rest, ?_, ?_, hrest, ?_⟩
      · rw [flatten_cons, append_assoc, ← hp, hsplit]
      · intro k hmem
        rcases mem_cons.1 hmem with rfl | hmem
        · exact ⟨⟨by omega, by rw [hbyte]; exact hfits.2.1, by omega⟩, by omega⟩
        · exact hall k hmem
      · rw [rtcpWalk_fits hfits, hwalk, flatMap_cons]
        rfl
    · exact ⟨[], p, rfl, by simp, hfits, rtcpWalk_not_fits hfuel hfits⟩

end DvbIpiTools.Demux
