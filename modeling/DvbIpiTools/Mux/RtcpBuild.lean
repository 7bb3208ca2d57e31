import DvbIpiTools.Demux.Rtcp

set_option autoImplicit false

/-! # Building RTCP feedback (`mux/rtcp_build.c`, `send_nack` of `fccret/ret_client.c`)

A builder gives the packet, or `none` where the source returns 0. -/

namespace DvbIpiTools.Mux

open BeUtil Demux List Option Nat

def rtcpBuildFf (senderSsrc mediaSsrc : UInt32) (entries : List NackEntry) (cap : Nat) : Option (List UInt8) :=
  let total := 12 + entries.length * 4
  if entries.length = 0 then none
  else if cap < total then none
  else some ([0x81, 205] ++ bePut 2 (total / 4 - 1) ++ bePut 4 senderSsrc.toNat ++ bePut 4 mediaSsrc.toNat ++
    entries.flatMap fun e => bePut 2 e.pid.toNat ++ bePut 2 e.blp.toNat)

/-- The packet that `rtcp_build_rams_r`, `rtcp_build_rams_t` and `rtcp_build_rams_i` make of their TLVs. -/
def rtcpBuildRams (senderSsrc mediaSsrc : UInt32) (sfmt msn : UInt8) (response : UInt16) (tlvs : List UInt8)
    (cap : Nat) : Option (List UInt8) :=
  let total := 16 + tlvs.length
  if cap < total then none
  else some ([0x86, 205] ++ bePut 2 (total / 4 - 1) ++ bePut 4 senderSsrc.toNat ++ bePut 4 mediaSsrc.toNat ++
    [sfmt, msn] ++ bePut 2 response.toNat ++ tlvs)

/-- A TLV: type, a reserved byte, the length, and the value with its padding. -/
def ramsTlv (type : UInt8) (vlen : Nat) (value : List UInt8) : List UInt8 := [type, 0] ++ bePut 2 vlen ++ value

/-- A TLV with a 32 bit value, where there is one. -/
def ramsTlv32 (type : UInt8) : Option UInt32 → List UInt8
  | none => []
  | some v => ramsTlv type 4 (bePut 4 v.toNat)

/-- A TLV with a 16 bit value, padded to 32 bit. -/
def ramsTlv16 (type : UInt8) : Option UInt16 → List UInt8
  | none => []
  | some v => ramsTlv type 2 (bePut 2 v.toNat ++ [0, 0])

/-- A TLV with a 64 bit value. -/
def ramsTlv64 (type : UInt8) : Option UInt64 → List UInt8
  | none => []
  | some v => ramsTlv type 8 (bePut 8 v.toNat)

def rtcpBuildRamsR (req : RamsR) (cap : Nat) : Option (List UInt8) :=
  rtcpBuildRams req.senderSsrc req.mediaSsrc 1 0 0
    ((if req.ignoreMediaSsrc then ramsTlv 1 0 [] else []) ++ ramsTlv32 2 req.minBufferFillMs ++
      ramsTlv32 3 req.maxBufferFillMs ++ ramsTlv64 4 req.maxBitrateBps) cap

def rtcpBuildRamsT (term : RamsT) (cap : Nat) : Option (List UInt8) :=
  rtcpBuildRams term.senderSsrc term.mediaSsrc 3 0 0 (ramsTlv32 61 term.firstMcSeqnum) cap

/-- `rtcp_rams_i_tlvs_t`. -/
structure RamsITlvs where
  mediaSsrcTlv : Option UInt32 := none
  firstPacketSeqnum : Option UInt16 := none
  earliestJoinTimeMs : Option UInt32 := none
  burstDurationMs : Option UInt32 := none
  maxTransmitBitrateBps : Option UInt64 := none

/-- `rtcp_build_rams_i`; `tlvs` may be missing. -/
def rtcpBuildRamsI (senderSsrc mediaSsrc : UInt32) (msn : UInt8) (response : UInt16) (tlvs : Option RamsITlvs)
    (cap : Nat) : Option (List UInt8) := rtcpBuildRams senderSsrc mediaSsrc 2 msn response (match tlvs with
    | none => []
    | some t => ramsTlv32 31 t.mediaSsrcTlv ++ ramsTlv16 32 t.firstPacketSeqnum ++
        ramsTlv32 33 t.earliestJoinTimeMs ++ ramsTlv32 34 t.burstDurationMs ++
        ramsTlv64 35 t.maxTransmitBitrateBps) cap

/-! ## Lost sequence numbers -/

/-- The sequence numbers of an entry, as the server repairs them: `pid`, and `pid + n + 1` for every set bit
`n` of `blp`. -/
def lostSeqs (e : NackEntry) : List UInt16 :=
  e.pid :: ((range 16).filter fun bit => e.blp.toNat.testBit bit).map fun bit => e.pid + UInt16.ofNat (bit + 1)

/-- The bits of the `chunk - 1` packets behind `pid`. -/
def blpOf (chunk : Nat) : UInt16 :=
  (range' 1 (chunk - 1)).foldl (fun blp i => blp ||| UInt16.ofNat (1 <<< (i - 1))) 0

/-- The entries of `send_nack` for `missing` packets from `start` on, with `room` entries left. -/
def nackPack : Nat → UInt16 → Nat → List NackEntry
  | 0, _, _ => []
  | room + 1, start, missing =>
    if missing = 0 then []
    else
      let chunk := if missing > 17 then 17 else missing
      ⟨start, blpOf chunk⟩ :: nackPack room (start + UInt16.ofNat chunk) (missing - chunk)

variable (room : Nat)

theorem length_nackPack_le (start : UInt16) (missing : Nat) : (nackPack room start missing).length ≤ room := by
  induction room generalizing start missing with
  | zero => exact le_rfl
  | succ room ih =>
    unfold nackPack
    split
    · exact zero_le _
    · exact succ_le_succ (ih _ _)

theorem lostSeqs_run {chunk : Nat} (hpos : 0 < chunk) (hle : chunk ≤ 17) (start : UInt16) :
    lostSeqs ⟨start, blpOf chunk⟩ = (range chunk).map fun i => start + UInt16.ofNat i := by
  have hbits : (range 16).filter (fun bit => (blpOf chunk).toNat.testBit bit) = range (chunk - 1) := by
    have hall : ∀ c : Fin 18, 0 < c.val →
        (range 16).filter (fun bit => (blpOf c.val).toNat.testBit bit) = range (c.val - 1) := by
      decide +kernel
    exact hall ⟨chunk, lt_succ_of_le hle⟩ hpos
  obtain ⟨n, rfl⟩ : ∃ n, chunk = n + 1 := ⟨chunk - 1, by omega⟩
  rw [lostSeqs, hbits, Nat.add_sub_cancel, range_succ_eq_map, map_cons, List.map_map]
  congr 1
  exact (UInt16.add_zero start).symm

/-- `send_nack` asks for exactly the missing run, as long as it fits in one packet. -/
theorem lostSeqs_nackPack (start : UInt16) (missing : Nat) (h : missing ≤ 17 * room) :
    (nackPack room start missing).flatMap lostSeqs = (range missing).map fun i => start + UInt16.ofNat i := by
  induction room generalizing start missing with
  | zero =>
    obtain rfl : missing = 0 := by omega
    rfl
  | succ room ih =>
    unfold nackPack
    split
    · rename_i hzero
      rw [hzero]
      rfl
    rename_i hne
    generalize hchunk : (if missing > 17 then 17 else missing) = chunk
    have hbounds : 0 < chunk ∧ chunk ≤ 17 ∧ chunk ≤ missing ∧ missing - chunk ≤ 17 * room := by
      rw [← hchunk]
      split <;> omega
    obtain ⟨hpos, h17, hle, hrest⟩ := hbounds
    rw [flatMap_cons, lostSeqs_run hpos h17, ih _ _ hrest]
    have hsum : missing = chunk + (missing - chunk) := by omega
    conv_rhs => rw [hsum, range_add, map_append, List.map_map]
    congr 1
    apply map_congr_left
    intro i _
    rw [Function.comp_apply, UInt16.ofNat_add, UInt16.add_assoc]

/-! # Feedback round trip

`rtcp_parse` of what the builders made, packet after packet, calls back with what the builders were given. -/

/-! ## Reading a field behind a known part -/

theorem rd16_field (a rest : List UInt8) (v : UInt16) : rd16 (a ++ (bePut 2 v.toNat ++ rest)) a.length = some v := by
  rw [rd16_of_le (by simp), beGet_field, mod_eq_of_lt (show v.toNat < 256 ^ 2 from v.toNat_lt), UInt16.ofNat_toNat]

theorem rd32_field (a rest : List UInt8) (v : UInt32) : rd32 (a ++ (bePut 4 v.toNat ++ rest)) a.length = some v := by
  rw [rd32_of_le (by simp), beGet_field, mod_eq_of_lt (show v.toNat < 256 ^ 4 from v.toNat_lt), UInt32.ofNat_toNat]

theorem rd64_field (a rest : List UInt8) (v : UInt64) : rd64 (a ++ (bePut 8 v.toNat ++ rest)) a.length = some v := by
  rw [rd64_of_le (by simp), beGet_field, mod_eq_of_lt (show v.toNat < 256 ^ 8 from v.toNat_lt), UInt64.ofNat_toNat]

/-! ## NACK entries -/

/-- The FCI of a NACK. -/
def nackFci (entries : List NackEntry) : List UInt8 :=
  entries.flatMap fun e => bePut 2 e.pid.toNat ++ bePut 2 e.blp.toNat

theorem length_nackFci (entries : List NackEntry) : (nackFci entries).length = entries.length * 4 := by
  induction entries with
  | nil => rfl
  | cons e es ih =>
    rw [nackFci, flatMap_cons, length_append]
    change _ + (nackFci es).length = _
    rw [ih, length_append, length_bePut, length_bePut, length_cons]
    omega

theorem nackEntries_fci (entries : List NackEntry) :
    nackEntries room (nackFci entries) = some (entries.take room, decide (room < entries.length)) := by
  induction room generalizing entries with
  | zero =>
    have hmore : 4 ≤ (nackFci entries).length ↔ 0 < entries.length := by
      rw [length_nackFci]
      omega
    simp only [nackEntries, hmore, take_zero]
  | succ room ih =>
    cases entries with
    | nil => simp [nackEntries, nackFci]
    | cons e es =>
      have hlen := length_nackFci (e :: es)
      rw [length_cons] at hlen
      have hpid : rd16 (nackFci (e :: es)) 0 = some e.pid := by exact rd16_field [] _ e.pid
      have hblp : rd16 (nackFci (e :: es)) 2 = some e.blp := by exact rd16_field (bePut 2 e.pid.toNat) _ e.blp
      have hdrop : (nackFci (e :: es)).drop 4 = nackFci es := by exact drop_left' (by simp)
      rw [nackEntries, if_neg (by omega), hpid, hblp, hdrop, ih]
      simp

/-! ## TLVs -/

/-- The TLV loop with enough rounds. -/
def tlvAll {σ : Type} (f : UInt8 → Nat → List UInt8 → σ → Option σ) (p : List UInt8) (s : σ) : Option (σ × Bool) :=
  tlvLoop f p.length p s

variable {p : List UInt8}

theorem tlvLoop_short {σ : Type} (f : UInt8 → Nat → List UInt8 → σ → Option σ) (fuel : Nat)
    (s : σ) (h : p.length < 4) : tlvLoop f fuel p s = some (s, false) := by
  cases fuel with
  | _ => exact if_pos h

theorem tlvLoop_fuel {σ : Type} (f : UInt8 → Nat → List UInt8 → σ → Option σ) (fuel fuel' : Nat) (p : List UInt8)
    (s : σ) (h : p.length ≤ fuel) (h' : p.length ≤ fuel') : tlvLoop f fuel p s = tlvLoop f fuel' p s := by
  induction fuel generalizing fuel' p s with
  | zero => rw [tlvLoop_short f _ s (by omega), tlvLoop_short f _ s (by omega)]
  | succ fuel ih =>
    by_cases hshort : p.length < 4
    · rw [tlvLoop_short f _ s hshort, tlvLoop_short f _ s hshort]
    obtain ⟨n, rfl⟩ : ∃ n, fuel' = n + 1 := ⟨fuel' - 1, by omega⟩
    rw [tlvLoop, tlvLoop, if_neg hshort, if_neg hshort, rd8_of_lt (by omega), rd16_of_le (by omega)]
    simp only [bind_eq_bind, bind_some]
    split
    · rfl
    · congr 1
      funext s'
      have hpad := le_padded4 (4 + (UInt16.ofNat (beGet p 2 2)).toNat)
      exact ih n _ s' (by rw [length_drop]; omega) (by rw [length_drop]; omega)

/-- The loop takes in `bytes`, going from `s` to `t`, whatever follows. -/
def Takes {σ : Type} (f : UInt8 → Nat → List UInt8 → σ → Option σ) (bytes : List UInt8) (s t : σ) : Prop :=
  ∀ rest, tlvAll f (bytes ++ rest) s = tlvAll f rest t

section Takes

variable {σ : Type} {f : UInt8 → Nat → List UInt8 → σ → Option σ}

theorem Takes.nil (s : σ) : Takes f [] s s := fun _ => rfl

variable {s t : σ}

theorem Takes.append {a b : List UInt8} {u : σ} (ha : Takes f a s t) (hb : Takes f b t u) : Takes f (a ++ b) s u := by
  intro rest
  rw [append_assoc, ha, hb]

theorem Takes.all {bytes : List UInt8} (h : Takes f bytes s t) : tlvLoop f bytes.length bytes s = some (t, false) := by
  have h' := h []
  rw [append_nil] at h'
  exact h'

variable {type : UInt8}

theorem Takes.tlv {vlen : Nat} {value : List UInt8} (hvlen : vlen < 65536)
    (hvalue : value.length + 4 = padded4 (4 + vlen))
    (hf : ∀ rest, f type vlen (ramsTlv type vlen value ++ rest) s = some t) :
    Takes f (ramsTlv type vlen value) s t := by
  intro rest
  have hpad := le_padded4 (4 + vlen)
  have hlen : (ramsTlv type vlen value ++ rest).length = (value.length + 3 + rest.length) + 1 := by
    simp [ramsTlv]
    omega
  have hrd : rd16 (ramsTlv type vlen value ++ rest) 2 = some (UInt16.ofNat vlen) := by
    have h := rd16_field [type, 0] (value ++ rest) (UInt16.ofNat vlen)
    rw [UInt16.toNat_ofNat', mod_eq_of_lt hvlen] at h
    simpa [ramsTlv] using h
  have hback : (UInt16.ofNat vlen).toNat = vlen := by exact mod_eq_of_lt hvlen
  have hdrop : (ramsTlv type vlen value ++ rest).drop (padded4 (4 + vlen)) = rest := by
    apply drop_left'
    simp [ramsTlv]
    omega
  have htype : rd8 (ramsTlv type vlen value ++ rest) 0 = some type := rfl
  conv_lhs => rw [tlvAll, hlen, tlvLoop]
  rw [if_neg (by omega), htype, hrd]
  simp only [bind_eq_bind, bind_some, hback]
  rw [if_neg (by omega), hf, bind_some, hdrop]
  exact tlvLoop_fuel f _ _ rest t (by omega) le_rfl

theorem Takes.tlv32 (set : Option UInt32 → σ)
    (hf : ∀ v p, rd32 p 4 = some v → f type 4 p (set none) = some (set (some v))) (o : Option UInt32) :
    Takes f (ramsTlv32 type o) (set none) (set o) := by
  cases o with
  | none => exact Takes.nil _
  | some v =>
    refine Takes.tlv (by decide) (by simp [padded4]) ?_
    intro rest
    apply hf
    have hrd := rd32_field ([type, 0] ++ bePut 2 4) rest v
    simpa [ramsTlv] using hrd

theorem Takes.tlv16 (set : Option UInt16 → σ)
    (hf : ∀ v p, rd16 p 4 = some v → f type 2 p (set none) = some (set (some v))) (o : Option UInt16) :
    Takes f (ramsTlv16 type o) (set none) (set o) := by
  cases o with
  | none => exact Takes.nil _
  | some v =>
    refine Takes.tlv (by decide) (by simp [padded4]) ?_
    intro rest
    apply hf
    have hrd := rd16_field ([type, 0] ++ bePut 2 2) ([0, 0] ++ rest) v
    simpa [ramsTlv] using hrd

theorem Takes.tlv64 (set : Option UInt64 → σ)
    (hf : ∀ v p, rd64 p 4 = some v → f type 8 p (set none) = some (set (some v))) (o : Option UInt64) :
    Takes f (ramsTlv64 type o) (set none) (set o) := by
  cases o with
  | none => exact Takes.nil _
  | some v =>
    refine Takes.tlv (by decide) (by simp [padded4]) ?_
    intro rest
    apply hf
    have hrd := rd64_field ([type, 0] ++ bePut 2 8) rest v
    simpa [ramsTlv] using hrd

end Takes

/-- The TLVs of `rtcp_build_rams_r`. -/
def ramsRTlvs (req : RamsR) : List UInt8 :=
  (if req.ignoreMediaSsrc then ramsTlv 1 0 [] else []) ++ ramsTlv32 2 req.minBufferFillMs ++
    ramsTlv32 3 req.maxBufferFillMs ++ ramsTlv64 4 req.maxBitrateBps

theorem takes_ramsR (req : RamsR) :
    Takes ramsRTlv (ramsRTlvs req) ⟨req.senderSsrc, req.mediaSsrc, false, none, none, none⟩ req := by
  have hignore : Takes ramsRTlv (if req.ignoreMediaSsrc then ramsTlv 1 0 [] else [])
      ⟨req.senderSsrc, req.mediaSsrc, false, none, none, none⟩
      ⟨req.senderSsrc, req.mediaSsrc, req.ignoreMediaSsrc, none, none, none⟩ := by
    cases req.ignoreMediaSsrc with
    | true => exact Takes.tlv (by decide) (by simp [padded4]) (fun _ => rfl)
    | false => exact Takes.nil _
  refine ((hignore.append (Takes.tlv32 (fun o => RamsR.mk _ _ _ o none none) ?_ _)).append
    (Takes.tlv32 (fun o => RamsR.mk _ _ _ _ o none) ?_ _)).append
    (Takes.tlv64 (RamsR.mk _ _ _ _ _) ?_ _)
  · intro v p hv
    simp [ramsRTlv, hv]
  · intro v p hv
    simp [ramsRTlv, hv]
  · intro v p hv
    simp [ramsRTlv, hv]

theorem takes_ramsT (term : RamsT) :
    Takes ramsTTlv (ramsTlv32 61 term.firstMcSeqnum) ⟨term.senderSsrc, term.mediaSsrc, none⟩ term := by
  refine Takes.tlv32 (RamsT.mk term.senderSsrc term.mediaSsrc) ?_ _
  intro v p hv
  simp [ramsTTlv, hv]

/-- The TLVs of `rtcp_build_rams_i`. -/
def ramsITlvs (t : RamsITlvs) : List UInt8 :=
  ramsTlv32 31 t.mediaSsrcTlv ++ ramsTlv16 32 t.firstPacketSeqnum ++ ramsTlv32 33 t.earliestJoinTimeMs ++
    ramsTlv32 34 t.burstDurationMs ++ ramsTlv64 35 t.maxTransmitBitrateBps

/-- The message of a RAMS-I with these TLVs. -/
def ramsIOf (senderSsrc mediaSsrc : UInt32) (msn : UInt8) (response : UInt16) (t : RamsITlvs) : RamsI :=
  ⟨senderSsrc, mediaSsrc, msn, response, t.mediaSsrcTlv, t.firstPacketSeqnum, t.earliestJoinTimeMs,
    t.burstDurationMs, t.maxTransmitBitrateBps⟩

theorem takes_ramsI (senderSsrc mediaSsrc : UInt32) (msn : UInt8) (response : UInt16) (t : RamsITlvs) :
    Takes ramsITlv (ramsITlvs t) ⟨senderSsrc, mediaSsrc, msn, response, none, none, none, none, none⟩
      (ramsIOf senderSsrc mediaSsrc msn response t) := by
  have h31 := Takes.tlv32 (f := ramsITlv) (fun o => RamsI.mk senderSsrc mediaSsrc msn response o none none none none)
    (fun v p hv => show ramsITlv 31 4 p _ = _ by simp [ramsITlv, hv]) t.mediaSsrcTlv
  have h32 := Takes.tlv16 (f := ramsITlv)
    (fun o => RamsI.mk senderSsrc mediaSsrc msn response t.mediaSsrcTlv o none none none)
    (fun v p hv => show ramsITlv 32 2 p _ = _ by simp [ramsITlv, hv]) t.firstPacketSeqnum
  have h33 := Takes.tlv32 (f := ramsITlv)
    (fun o => RamsI.mk senderSsrc mediaSsrc msn response t.mediaSsrcTlv t.firstPacketSeqnum o none none)
    (fun v p hv => show ramsITlv 33 4 p _ = _ by simp [ramsITlv, hv]) t.earliestJoinTimeMs
  have h34 := Takes.tlv32 (f := ramsITlv)
    (fun o => RamsI.mk senderSsrc mediaSsrc msn response t.mediaSsrcTlv t.firstPacketSeqnum t.earliestJoinTimeMs o
      none)
    (fun v p hv => show ramsITlv 34 4 p _ = _ by simp [ramsITlv, hv]) t.burstDurationMs
  have h35 := Takes.tlv64 (f := ramsITlv)
    (fun o => RamsI.mk senderSsrc mediaSsrc msn response t.mediaSsrcTlv t.firstPacketSeqnum t.earliestJoinTimeMs
      t.burstDurationMs o)
    (fun v p hv => show ramsITlv 35 8 p _ = _ by simp [ramsITlv, hv]) t.maxTransmitBitrateBps
  exact (((h31.append h32).append h33).append h34).append h35

/-! ## Packets -/

/-- The bytes are one packet of version 2. -/
def RtcpWhole (p : List UInt8) : Prop := RtcpFits p ∧ p.length = rtcpPktLen p

variable {b pt : UInt8} {q : List UInt8}

theorem rtcpWhole_of_header (hver : b.toNat >>> 6 = 2) (hmod : q.length % 4 = 0) (hlen : q.length / 4 < 65536) :
    RtcpWhole (b :: pt :: (bePut 2 ((q.length + 4) / 4 - 1) ++ q)) := by
  have hwords : beGet (b :: pt :: (bePut 2 ((q.length + 4) / 4 - 1) ++ q)) 2 2 = (q.length + 4) / 4 - 1 := by
    have h := beGet_field [b, pt] q 2 ((q.length + 4) / 4 - 1)
    rw [mod_eq_of_lt (by omega)] at h
    exact h
  have hbytes : (b :: pt :: (bePut 2 ((q.length + 4) / 4 - 1) ++ q)).length = q.length + 4 := by
    simp
    omega
  have hpkt : rtcpPktLen (b :: pt :: (bePut 2 ((q.length + 4) / 4 - 1) ++ q)) = q.length + 4 := by
    rw [rtcpPktLen, hwords]
    omega
  exact ⟨⟨by omega, hver, by omega⟩, by omega⟩

theorem rtcpPacket_unpadded (hpad : b.toNat &&& 0x20 = 0) :
    rtcpPacket (b :: pt :: q) = rtcpDispatch pt (b.toNat &&& 0x1F) (b :: pt :: q) := by
  have hb : rd8 (b :: pt :: q) 0 = some b := rfl
  have hpt : rd8 (b :: pt :: q) 1 = some pt := by rfl
  rw [rtcpPacket, hb, hpt]
  simp only [bind_eq_bind, bind_some]
  rw [if_neg (by rw [hpad]; simp)]

theorem rtcpParse_flatten (pkts : List (List UInt8)) (h : ∀ k ∈ pkts, RtcpWhole k) :
    rtcpParse pkts.flatten = some (pkts.flatMap rtcpEvents) := by
  have hwalk : ∀ fuel, pkts.flatten.length ≤ fuel → rtcpWalk fuel pkts.flatten = some (pkts.flatMap rtcpEvents) := by
    induction pkts with
    | nil =>
      intro fuel hfuel
      exact rtcpWalk_not_fits hfuel (fun hfits => absurd hfits.1 (by simp))
    | cons k ks ih =>
      intro fuel hfuel
      obtain ⟨⟨hlen, hver, -⟩, hk⟩ := h k (mem_cons_self ..)
      rw [flatten_cons, length_append] at hfuel
      obtain ⟨n, rfl⟩ : ∃ n, fuel = n + 1 := ⟨fuel - 1, by omega⟩
      have hsame : rtcpPktLen (k ++ ks.flatten) = k.length := by
        rw [rtcpPktLen, beGet_append_left (by omega)]
        exact hk.symm
      have hfits : RtcpFits (k ++ ks.flatten) := by
        refine ⟨by rw [length_append]; omega, ?_, by rw [hsame, length_append]; omega⟩
        rw [getD_append k _ 0 0 (by omega)]
        exact hver
      rw [flatten_cons, rtcpWalk_fits hfits, hsame, take_left, drop_left,
        ih (fun k hk => h k (.tail _ hk)) n (by omega)]
      rfl
  exact hwalk _ le_rfl

/-! ## What the builders make -/

theorem rtcpDispatch_nack (body : List UInt8) :
    rtcpDispatch 205 ((0x81 : UInt8).toNat &&& 0x1F) body = parseNack body := by
  simp [rtcpDispatch, parseRtpfb]

theorem rtcpDispatch_rams (body : List UInt8) :
    rtcpDispatch 205 ((0x86 : UInt8).toNat &&& 0x1F) body = parseRams body := by
  simp [rtcpDispatch, parseRtpfb]

theorem parseNack_built (senderSsrc mediaSsrc : UInt32) (w : Nat) (entries : List NackEntry) (hne : entries ≠ []) :
    parseNack (0x81 :: 205 :: (bePut 2 w ++ (bePut 4 senderSsrc.toNat ++ (bePut 4 mediaSsrc.toNat ++
      nackFci entries)))) = some [.nack ⟨senderSsrc, mediaSsrc, entries.take rtcpNackMaxEntries,
        decide (rtcpNackMaxEntries < entries.length)⟩] := by
  have hsender := rd32_field (0x81 :: 205 :: bePut 2 w) (bePut 4 mediaSsrc.toNat ++ nackFci entries) senderSsrc
  have hmedia := rd32_field (0x81 :: 205 :: (bePut 2 w ++ bePut 4 senderSsrc.toNat)) (nackFci entries) mediaSsrc
  have hdrop : (0x81 :: 205 :: (bePut 2 w ++ (bePut 4 senderSsrc.toNat ++ (bePut 4 mediaSsrc.toNat ++
      nackFci entries)))).drop 12 = nackFci entries := by
    have h : (0x81 :: 205 :: (bePut 2 w ++ (bePut 4 senderSsrc.toNat ++ (bePut 4 mediaSsrc.toNat ++
        nackFci entries)))) = (0x81 :: 205 :: (bePut 2 w ++ (bePut 4 senderSsrc.toNat ++
          bePut 4 mediaSsrc.toNat))) ++ nackFci entries := by simp
    rw [h]
    exact drop_left' (by simp)
  have htake : ¬ entries.take rtcpNackMaxEntries = [] := by
    cases entries with
    | nil => exact absurd rfl hne
    | cons e es => simp [rtcpNackMaxEntries]
  simp only [cons_append, append_assoc, length_cons, length_append, length_bePut] at hsender hmedia
  rw [parseNack, if_neg (by simp; omega), hsender, hmedia, hdrop, nackEntries_fci]
  simp only [bind_eq_bind, bind_some, if_neg htake]

variable {senderSsrc mediaSsrc : UInt32} {cap : Nat}

theorem buildFf_spec {entries : List NackEntry}
    (h : rtcpBuildFf senderSsrc mediaSsrc entries cap = some p) (hle : entries.length ≤ 65533) :
    RtcpWhole p ∧ rtcpEvents p = [.nack ⟨senderSsrc, mediaSsrc, entries.take rtcpNackMaxEntries,
      decide (rtcpNackMaxEntries < entries.length)⟩] := by
  simp only [rtcpBuildFf] at h
  split at h
  · cases h
  rename_i hzero
  split at h
  · cases h
  have hne : entries ≠ [] := by
    rintro rfl
    exact hzero rfl
  have hq := length_nackFci entries
  have hlen : (bePut 4 senderSsrc.toNat ++ (bePut 4 mediaSsrc.toNat ++ nackFci entries)).length =
      8 + entries.length * 4 := by
    simp [hq]
    omega
  have hp : p = 0x81 :: 205 :: (bePut 2 (((bePut 4 senderSsrc.toNat ++ (bePut 4 mediaSsrc.toNat ++
      nackFci entries)).length + 4) / 4 - 1) ++
      (bePut 4 senderSsrc.toNat ++ (bePut 4 mediaSsrc.toNat ++ nackFci entries))) := by
    rw [hlen, ← some.inj h, show 8 + entries.length * 4 + 4 = 12 + entries.length * 4 by omega]
    simp [nackFci]
  rw [hp]
  refine ⟨rtcpWhole_of_header rfl (by omega) (by omega), ?_⟩
  rw [rtcpEvents, rtcpPacket_unpadded rfl, rtcpDispatch_nack, parseNack_built _ _ _ _ hne]
  rfl

theorem parseRams_built (senderSsrc mediaSsrc : UInt32) (w : Nat) (sfmt msn : UInt8) (response : UInt16)
    (tlvs : List UInt8) :
    parseRams (0x86 :: 205 :: (bePut 2 w ++ (bePut 4 senderSsrc.toNat ++ (bePut 4 mediaSsrc.toNat ++
      (sfmt :: msn :: (bePut 2 response.toNat ++ tlvs)))))) = match sfmt with
      | 1 => parseRamsR tlvs senderSsrc mediaSsrc
      | 2 => parseRamsI (sfmt :: msn :: (bePut 2 response.toNat ++ tlvs)) senderSsrc mediaSsrc
      | 3 => parseRamsT tlvs senderSsrc mediaSsrc
      | _ => some [] := by
  have hsender := rd32_field (0x86 :: 205 :: bePut 2 w) (bePut 4 mediaSsrc.toNat ++
    (sfmt :: msn :: (bePut 2 response.toNat ++ tlvs))) senderSsrc
  have hmedia := rd32_field (0x86 :: 205 :: (bePut 2 w ++ bePut 4 senderSsrc.toNat))
    (sfmt :: msn :: (bePut 2 response.toNat ++ tlvs)) mediaSsrc
  simp only [cons_append, append_assoc, length_cons, length_append, length_bePut] at hsender hmedia
  have hsfmt : rd8 (0x86 :: 205 :: (bePut 2 w ++ (bePut 4 senderSsrc.toNat ++ (bePut 4 mediaSsrc.toNat ++
      (sfmt :: msn :: (bePut 2 response.toNat ++ tlvs)))))) 12 = some sfmt := by
    rfl
  rw [parseRams, if_neg (by simp; omega), hsender, hmedia, hsfmt]
  rfl

variable {msn : UInt8} {response : UInt16}

theorem buildRams_spec {sfmt : UInt8} {tlvs : List UInt8} (h : rtcpBuildRams senderSsrc mediaSsrc sfmt msn response tlvs cap = some p)
    (hmod : tlvs.length % 4 = 0) (hle : tlvs.length ≤ 1000) :
    RtcpWhole p ∧ rtcpEvents p = (match sfmt with
      | 1 => parseRamsR tlvs senderSsrc mediaSsrc
      | 2 => parseRamsI (sfmt :: msn :: (bePut 2 response.toNat ++ tlvs)) senderSsrc mediaSsrc
      | 3 => parseRamsT tlvs senderSsrc mediaSsrc
      | _ => some []).getD [] := by
  simp only [rtcpBuildRams] at h
  split at h
  · cases h
  have hlen : (bePut 4 senderSsrc.toNat ++ (bePut 4 mediaSsrc.toNat ++
      (sfmt :: msn :: (bePut 2 response.toNat ++ tlvs)))).length = 12 + tlvs.length := by
    simp
    omega
  have hp : p = 0x86 :: 205 :: (bePut 2 (((bePut 4 senderSsrc.toNat ++ (bePut 4 mediaSsrc.toNat ++
      (sfmt :: msn :: (bePut 2 response.toNat ++ tlvs)))).length + 4) / 4 - 1) ++
      (bePut 4 senderSsrc.toNat ++ (bePut 4 mediaSsrc.toNat ++
        (sfmt :: msn :: (bePut 2 response.toNat ++ tlvs))))) := by
    rw [hlen, ← some.inj h, show 12 + tlvs.length + 4 = 16 + tlvs.length by omega]
    simp
  rw [hp]
  refine ⟨rtcpWhole_of_header rfl (by omega) (by omega), ?_⟩
  rw [rtcpEvents, rtcpPacket_unpadded rfl, rtcpDispatch_rams, parseRams_built]

theorem length_ramsTlv32 (type : UInt8) (o : Option UInt32) :
    (ramsTlv32 type o).length % 4 = 0 ∧ (ramsTlv32 type o).length ≤ 8 := by
  cases o <;> simp [ramsTlv32, ramsTlv]

theorem length_ramsTlv16 (type : UInt8) (o : Option UInt16) :
    (ramsTlv16 type o).length % 4 = 0 ∧ (ramsTlv16 type o).length ≤ 8 := by
  cases o <;> simp [ramsTlv16, ramsTlv]

theorem length_ramsTlv64 (type : UInt8) (o : Option UInt64) :
    (ramsTlv64 type o).length % 4 = 0 ∧ (ramsTlv64 type o).length ≤ 12 := by
  cases o <;> simp [ramsTlv64, ramsTlv]

theorem buildRamsR_spec {req : RamsR} (h : rtcpBuildRamsR req cap = some p) :
    RtcpWhole p ∧ rtcpEvents p = [.ramsR req] := by
  have hignore : (if req.ignoreMediaSsrc then ramsTlv 1 0 [] else []).length % 4 = 0 ∧
      (if req.ignoreMediaSsrc then ramsTlv 1 0 [] else []).length ≤ 4 := by
    split <;> simp [ramsTlv]
  have hmin := length_ramsTlv32 2 req.minBufferFillMs
  have hmax := length_ramsTlv32 3 req.maxBufferFillMs
  have hrate := length_ramsTlv64 4 req.maxBitrateBps
  have hlen : (ramsRTlvs req).length % 4 = 0 ∧ (ramsRTlvs req).length ≤ 1000 := by
    simp only [ramsRTlvs, length_append]
    omega
  have h' : rtcpBuildRams req.senderSsrc req.mediaSsrc 1 0 0 (ramsRTlvs req) cap = some p := h
  obtain ⟨hwhole, hevents⟩ := buildRams_spec h' hlen.1 hlen.2
  refine ⟨hwhole, ?_⟩
  rw [hevents]
  rw [parseRamsR, (takes_ramsR req).all]
  rfl

theorem buildRamsT_spec {term : RamsT} (h : rtcpBuildRamsT term cap = some p) :
    RtcpWhole p ∧ rtcpEvents p = [.ramsT term] := by
  have hlen := length_ramsTlv32 61 term.firstMcSeqnum
  obtain ⟨hwhole, hevents⟩ := buildRams_spec h hlen.1 (by omega)
  refine ⟨hwhole, ?_⟩
  rw [hevents]
  rw [parseRamsT, (takes_ramsT term).all]
  rfl

theorem buildRamsI_spec {tlvs : Option RamsITlvs}
    (h : rtcpBuildRamsI senderSsrc mediaSsrc msn response tlvs cap = some p) :
    RtcpWhole p ∧ rtcpEvents p = [.ramsI (ramsIOf senderSsrc mediaSsrc msn response (tlvs.getD {}))] := by
  have hmedia := length_ramsTlv32 31 (tlvs.getD {}).mediaSsrcTlv
  have hfirst := length_ramsTlv16 32 (tlvs.getD {}).firstPacketSeqnum
  have hjoin := length_ramsTlv32 33 (tlvs.getD {}).earliestJoinTimeMs
  have hburst := length_ramsTlv32 34 (tlvs.getD {}).burstDurationMs
  have hrate := length_ramsTlv64 35 (tlvs.getD {}).maxTransmitBitrateBps
  have hlen : (ramsITlvs (tlvs.getD {})).length % 4 = 0 ∧ (ramsITlvs (tlvs.getD {})).length ≤ 1000 := by
    simp only [ramsITlvs, length_append]
    omega
  have h' : rtcpBuildRams senderSsrc mediaSsrc 2 msn response (ramsITlvs (tlvs.getD {})) cap = some p := by
    cases tlvs with
    | none => exact h
    | some t => exact h
  obtain ⟨hwhole, hevents⟩ := buildRams_spec h' hlen.1 hlen.2
  refine ⟨hwhole, ?_⟩
  have hmsn : rd8 (2 :: msn :: (bePut 2 response.toNat ++ ramsITlvs (tlvs.getD {}))) 1 = some msn := by rfl
  have hresponse := rd16_field [2, msn] (ramsITlvs (tlvs.getD {})) response
  rw [hevents]
  rw [parseRamsI, if_neg (by simp), hmsn, show rd16 (2 :: msn :: (bePut 2 response.toNat ++
    ramsITlvs (tlvs.getD {}))) 2 = some response from hresponse]
  simp only [bind_eq_bind, bind_some]
  have hall := (takes_ramsI senderSsrc mediaSsrc msn response (tlvs.getD {})).all
  have hdrop : (2 :: msn :: (bePut 2 response.toNat ++ ramsITlvs (tlvs.getD {}))).drop 4 =
      ramsITlvs (tlvs.getD {}) := rfl
  have hfuel : (2 :: msn :: (bePut 2 response.toNat ++ ramsITlvs (tlvs.getD {}))).length - 4 =
      (ramsITlvs (tlvs.getD {})).length := by
    simp
  rw [hdrop, hfuel, hall]
  rfl

/-! ## Round trip -/

/-- A call of one of the builders. -/
inductive Feedback where
  | nack (senderSsrc mediaSsrc : UInt32) (entries : List NackEntry)
  | ramsR (req : RamsR)
  | ramsT (term : RamsT)
  | ramsI (senderSsrc mediaSsrc : UInt32) (msn : UInt8) (response : UInt16) (tlvs : Option RamsITlvs)

/-- The packet the builder makes. -/
def Feedback.build (cap : Nat) : Feedback → Option (List UInt8)
  | .nack senderSsrc mediaSsrc entries => rtcpBuildFf senderSsrc mediaSsrc entries cap
  | .ramsR req => rtcpBuildRamsR req cap
  | .ramsT term => rtcpBuildRamsT term cap
  | .ramsI senderSsrc mediaSsrc msn response tlvs => rtcpBuildRamsI senderSsrc mediaSsrc msn response tlvs cap

/-- The callback that is due for it. A NACK is cut to the entries the parser has room for. -/
def Feedback.event : Feedback → RtcpEvent
  | .nack senderSsrc mediaSsrc entries => .nack ⟨senderSsrc, mediaSsrc, entries.take rtcpNackMaxEntries,
      decide (rtcpNackMaxEntries < entries.length)⟩
  | .ramsR req => .ramsR req
  | .ramsT term => .ramsT term
  | .ramsI senderSsrc mediaSsrc msn response tlvs =>
    .ramsI (ramsIOf senderSsrc mediaSsrc msn response (tlvs.getD {}))

/-- A NACK whose length fits in the 16 bit length field. -/
def Feedback.Short : Feedback → Prop
  | .nack _ _ entries => entries.length ≤ 65533
  | _ => True

theorem Feedback.build_spec {q : Feedback} (hq : q.Short) (h : q.build cap = some p) :
    RtcpWhole p ∧ rtcpEvents p = [q.event] := by
  cases q with
  | nack senderSsrc mediaSsrc entries => exact buildFf_spec h hq
  | ramsR req => exact buildRamsR_spec h
  | ramsT term => exact buildRamsT_spec h
  | ramsI senderSsrc mediaSsrc msn response tlvs => exact buildRamsI_spec h

/-- Feedback round trip, and the parser on arbitrary bytes. -/
theorem rtcp_feedback : (∀ (qs : List (Feedback × Nat)) (pkts : List (List UInt8)), (∀ q ∈ qs, q.1.Short) →
      List.Forall₂ (fun q p => q.1.build q.2 = some p) qs pkts →
      rtcpParse pkts.flatten = some (qs.map fun q => q.1.event)) ∧
    (∀ (start : UInt16) (missing : Nat), missing ≤ 17 * rtcpNackMaxEntries →
      (nackPack rtcpNackMaxEntries start missing).length ≤ rtcpNackMaxEntries ∧
      (nackPack rtcpNackMaxEntries start missing).flatMap lostSeqs =
        (range missing).map fun i => start + UInt16.ofNat i) ∧
    ∀ p : List UInt8, ∃ (pkts : List (List UInt8)) (rest : List UInt8), p = pkts.flatten ++ rest ∧
      (∀ k ∈ pkts, RtcpWhole k) ∧ ¬ RtcpFits rest ∧ rtcpParse p = some (pkts.flatMap rtcpEvents) := by
  refine ⟨?_, ?_, ?_⟩
  · intro qs pkts hshort hbuilt
    have hall : (∀ k ∈ pkts, RtcpWhole k) ∧ pkts.flatMap rtcpEvents = qs.map fun q => q.1.event := by
      induction hbuilt with
      | nil => exact ⟨by simp, rfl⟩
      | @cons q p qs pkts hq _ ih =>
        obtain ⟨hwhole, hevents⟩ := Feedback.build_spec (hshort q (mem_cons_self ..)) hq
        obtain ⟨hrest, hmap⟩ := ih fun q' hq' => hshort q' (.tail _ hq')
        refine ⟨?_, ?_⟩
        · intro k hk
          rcases mem_cons.1 hk with rfl | hk
          · exact hwhole
          · exact hrest k hk
        · rw [flatMap_cons, hevents, hmap, map_cons]
          rfl
    rw [rtcpParse_flatten pkts hall.1, hall.2]
  · intro start missing hle
    exact ⟨length_nackPack_le _ _ _, lostSeqs_nackPack _ _ _ hle⟩
  · intro p
    exact rtcpWalk_packets p.length p le_rfl

/-- Two NACKs of a run across the wrap-around and a RAMS-T in one datagram. -/
theorem rtcp_feedback_compound : ∃ pkts : List (List UInt8), List.Forall₂ (fun q p => Feedback.build q.2 q.1 = some p)
        [(Feedback.nack 1 2 (nackPack 32 65530 20), 200), (.ramsT ⟨3, 4, some 9⟩, 200)] pkts ∧ rtcpParse pkts.flatten =
        some [.nack ⟨1, 2, [⟨65530, 65535⟩, ⟨11, 3⟩], false⟩, .ramsT ⟨3, 4, some 9⟩] := by
  obtain ⟨pkts, hpkts⟩ : ∃ pkts, List.Forall₂ (fun q p => Feedback.build q.2 q.1 = some p)
      [(Feedback.nack 1 2 (nackPack 32 65530 20), 200), (.ramsT ⟨3, 4, some 9⟩, 200)] pkts :=
    ⟨_, .cons rfl (.cons rfl .nil)⟩
  refine ⟨pkts, hpkts, ?_⟩
  rw [rtcp_feedback.1 _ pkts ?_ hpkts]
  · decide +kernel
  intro q hq
  rcases mem_cons.1 hq with rfl | hq
  · show (nackPack 32 65530 20).length ≤ 65533
    decide
  · rw [mem_singleton.1 hq]
    trivial

/-- A NACK for 33 single packets: the parser has no room for the last one. -/
theorem rtcp_nack_truncated :
    ∃ p es, rtcpBuildFf 1 2 ((range 33).map fun i => ⟨UInt16.ofNat (1000 + i), 0⟩) 200 = some p ∧
      rtcpParse p = some [.nack ⟨1, 2, es, true⟩] ∧
      1032 ∈ ((range 33).map fun i => (⟨UInt16.ofNat (1000 + i), 0⟩ : NackEntry)).flatMap lostSeqs ∧
      1032 ∉ es.flatMap lostSeqs := by
  refine ⟨_, (range 32).map fun i => ⟨UInt16.ofNat (1000 + i), 0⟩, rfl, ?_, ?_, ?_⟩
  · decide +kernel
  · decide +kernel
  · decide +kernel

end DvbIpiTools.Mux
