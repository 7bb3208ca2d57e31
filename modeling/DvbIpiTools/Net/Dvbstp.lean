import DvbIpiTools.Demux.Crc32
import Mathlib.Algebra.BigOperators.Group.Finset.Basic

set_option autoImplicit false

/-! # DVBSTP (`net/dvbstp.c`)

Sending a segment in sections and putting sections together again. The log lines of the receiver are left
out, allocations succeed, and so does the send of each packet. -/

namespace DvbIpiTools.Net

open BeUtil Demux List Option Function

/-! ## Packets -/

def dvbstpMaxRxSection : Nat := 65535

def dvbstpMaxSegment : Nat := 4 * 1024 * 1024

/-- `DVBSTP_MAX_SECTION` and `DVBSTP_MAX_SECTION_V6`. -/
def dvbstpMaxSection (v6 : Bool) : Nat := if v6 then 1420 else 1452

/-- The length of a provider id on the wire. -/
def dvbstpIdLen (v6 : Bool) : Nat := if v6 then 16 else 4

/-- `dvbstp_key_t`. -/
structure DvbstpKey where
  payloadId : Nat
  segmentId : Nat
  hasProviderId : Bool
  providerId : List UInt8
deriving DecidableEq

/-- `dvbstp_header_t`. -/
structure DvbstpHeader where
  payloadId : Nat
  segmentId : Nat
  segmentVersion : Nat
  sectionNumber : Nat
  lastSectionNumber : Nat
  totalSegmentSize : Nat
  crcPresent : Bool
  compr : Nat
  ipv6 : Bool
  hasProviderId : Bool
  providerId : List UInt8

/-- `dvbstp_key_set`; `dvbstp_key_match` compares with it. -/
def DvbstpHeader.key (h : DvbstpHeader) : DvbstpKey := ⟨h.payloadId, h.segmentId, h.hasProviderId, h.providerId⟩

/-- The sections of one segment agree on all of this. -/
def DvbstpHeader.SameSegment (h g : DvbstpHeader) : Prop :=
  h.key = g.key ∧ h.segmentVersion = g.segmentVersion ∧ h.lastSectionNumber = g.lastSectionNumber ∧
    h.totalSegmentSize = g.totalSegmentSize

/-- Compression values `dvbstp_parse_header` accepts (TS 102 034 table 12); 7 and 8 are
DVBSTP_PAYLOAD_REGIONALISATION_DISCOVERY and DVBSTP_PAYLOAD_RMSFUS_DISCOVERY. -/
def comprAccepted (payloadId compr : Nat) : Bool :=
  !(decide (3 ≤ compr ∧ compr ≤ 5) || decide (compr = 2 ∧ payloadId ≠ 7 ∧ payloadId ≠ 8))

/-- `dvbstp_parse_header`: the header and its length. -/
def dvbstpParseHeader (p : List UInt8) : Option (DvbstpHeader × Nat) :=
  let ver := byteAt p 0 >>> 6 &&& 0x03
  let compr := byteAt p 11 >>> 5 &&& 0x07
  let has : Bool := byteAt p 11 >>> 4 &&& 0x01 ≠ 0
  let idlen := dvbstpIdLen (ver = 1)
  let idEnd := if has then 12 + idlen else 12
  let hdrlen := idEnd + 4 * (byteAt p 11 &&& 0x0F)
  if p.length < 12 then none
  else if ver > 1 ∨ byteAt p 0 >>> 1 &&& 0x03 ≠ 0 then none
  else if !comprAccepted (byteAt p 4) compr then none
  else if has ∧ p.length < idEnd then none
  else if p.length < hdrlen then none
  else some ({
    payloadId := byteAt p 4
    segmentId := beGet p 5 2
    segmentVersion := byteAt p 7
    sectionNumber := byteAt p 8 <<< 4 ||| byteAt p 9 >>> 4
    lastSectionNumber := (byteAt p 9 &&& 0x0F) <<< 8 ||| byteAt p 10
    totalSegmentSize := beGet p 1 3
    crcPresent := byteAt p 0 &&& 0x01 ≠ 0
    compr := compr
    ipv6 := ver = 1
    hasProviderId := has
    providerId := if has then (p.drop 12).take idlen ++ replicate (16 - idlen) 0
      else replicate 16 0 }, hdrlen)

/-! ## Sender -/

/-- `dvbstp_send_t`, the pacing aside. -/
structure DvbstpSend where
  payloadId : Nat
  segmentId : Nat
  segmentVersion : Nat
  compr : Nat
  hasProviderId : Bool
  providerId : List UInt8
  wantCrc : Bool
  providerId_length : providerId.length = 16

/-- `nsections` for `len` bytes. -/
def dvbstpSections (v6 : Bool) (len : Nat) : Nat :=
  if len ≠ 0 then (len + dvbstpMaxSection v6 - 1) / dvbstpMaxSection v6 else 1

/-- The bytes of section `i`. -/
def sectionBytes (v6 : Bool) (data : List UInt8) (i : Nat) : List UInt8 :=
  (data.drop (i * dvbstpMaxSection v6)).take
    (min (data.length - i * dvbstpMaxSection v6) (dvbstpMaxSection v6))

/-- The packet `dvbstp_send_segment` sends for section `i`. -/
def sectionPacket (v6 : Bool) (seg : DvbstpSend) (data : List UInt8) (last i : Nat) : List UInt8 :=
  let crcHere := seg.wantCrc && i == last
  UInt8.ofNat ((if v6 then 0x40 else 0x00) ||| (if crcHere then 0x01 else 0x00)) :: (bePut 3 data.length ++
    UInt8.ofNat (seg.payloadId &&& 0xFF) :: (bePut 2 seg.segmentId ++
    UInt8.ofNat (seg.segmentVersion &&& 0xFF) :: UInt8.ofNat (i >>> 4 &&& 0xFF) ::
    UInt8.ofNat ((i &&& 0x0F) <<< 4 ||| (last >>> 8 &&& 0x0F)) :: UInt8.ofNat (last &&& 0xFF) ::
    UInt8.ofNat ((seg.compr &&& 0x07) <<< 5 ||| (if seg.hasProviderId then 0x10 else 0x00)) ::
    ((if seg.hasProviderId then seg.providerId.take (dvbstpIdLen v6) else []) ++ sectionBytes v6 data i ++
    (if crcHere then bePut 4 (crc32Mpeg data) else []))))

/-- `dvbstp_send_segment`: the packets it sends. -/
def dvbstpSendSegment (v6 : Bool) (seg : DvbstpSend) (data : List UInt8) : Option (List (List UInt8)) :=
  let n := dvbstpSections v6 data.length
  if n > 4096 ∨ data.length > dvbstpMaxSegment then none
  else some ((range n).map (sectionPacket v6 seg data (n - 1)))

/-! ## Receiver -/

def reasmSlots : Nat := 8

/-- A packet behind the checks at the start of `dvbstp_reasm_feed`. -/
structure Arrival where
  header : DvbstpHeader
  payload : List UInt8
  crc : Option Nat

/-- The checks at the start of `dvbstp_reasm_feed`. -/
def dvbstpAccept (p : List UInt8) : Option Arrival := match dvbstpParseHeader p with
  | none => none
  | some (h, hdrlen) =>
    if h.sectionNumber > h.lastSectionNumber then none
    else if h.crcPresent ∧ h.sectionNumber ≠ h.lastSectionNumber then none
    else if h.crcPresent ∧ p.length - hdrlen < 4 then none
    else
      let paylen := if h.crcPresent then p.length - hdrlen - 4 else p.length - hdrlen
      if paylen > dvbstpMaxRxSection then none
      else some ⟨h, (p.drop hdrlen).take paylen, if h.crcPresent then some (beGet p (p.length - 4) 4) else none⟩

/-- `reasm_slot_t` in use; `crc` is there when `crc_present` is set. -/
structure ReasmSlot where
  key : DvbstpKey
  version : Nat
  lastSectionNumber : Nat
  totalSegmentSize : Nat
  haveCount : Nat := 0
  bytes : Nat := 0
  sec : Nat → Option (List UInt8) := fun _ => none
  crc : Option Nat := none

namespace ReasmSlot

/-- `slot_reset`. -/
def reset (h : DvbstpHeader) : ReasmSlot :=
  { key := h.key
    version := h.segmentVersion
    lastSectionNumber := h.lastSectionNumber
    totalSegmentSize := h.totalSegmentSize }

/-- A slot found by its key starts anew when the packet belongs to another segment. -/
def adapt (s : ReasmSlot) (h : DvbstpHeader) : ReasmSlot :=
  if s.version ≠ h.segmentVersion ∨ s.lastSectionNumber ≠ h.lastSectionNumber ∨
    s.totalSegmentSize ≠ h.totalSegmentSize then reset h
  else s

/-- The section of the packet is put into the slot. -/
def store (s : ReasmSlot) (a : Arrival) : ReasmSlot := { s with
    sec := update s.sec a.header.sectionNumber (some a.payload)
    bytes := s.bytes + a.payload.length
    haveCount := s.haveCount + 1
    crc := if a.crc.isSome then a.crc else s.crc }

def assembled (s : ReasmSlot) : List UInt8 :=
  (range (s.lastSectionNumber + 1)).flatMap fun i => (s.sec i).getD []

/-- What `dvbstp_reasm_feed` does in the slot it has chosen: the slot afterwards (none when it is released)
and the segment, if one is complete. -/
def collect (s : ReasmSlot) (a : Arrival) : Option ReasmSlot × Option (DvbstpHeader × List UInt8) :=
  if (s.sec a.header.sectionNumber).isSome then (some s, none)
  else if s.bytes + a.payload.length > dvbstpMaxSegment then (none, none)
  else
    let s := s.store a
    if s.haveCount ≠ s.lastSectionNumber + 1 then (some s, none)
    else if s.assembled.length ≠ s.totalSegmentSize then (none, none)
    else if s.crc.any (fun c => crc32Mpeg s.assembled ≠ c) then (none, none)
    else (none, some (a.header, s.assembled))

end ReasmSlot

/-- `struct dvbstp_reasm`. -/
structure Reasm where
  slots : Nat → Option ReasmSlot := fun _ => none
  nextEvict : Nat := 0

namespace Reasm

/-- The slot of a segment key. -/
def find (r : Reasm) (k : DvbstpKey) : Option Nat :=
  (range reasmSlots).find? fun i => (r.slots i).any fun s => s.key = k

/-- The first unused slot. -/
def free (r : Reasm) : Option Nat := (range reasmSlots).find? fun i => (r.slots i).isNone

/-- The slot for a packet: the one of its key, a free one, or the next to evict. -/
def choose (r : Reasm) (h : DvbstpHeader) : Nat × ReasmSlot × Nat := match r.find h.key with
  | some i => (i, ((r.slots i).map (·.adapt h)).getD (ReasmSlot.reset h), r.nextEvict)
  | none => match r.free with
    | some i => (i, ReasmSlot.reset h, r.nextEvict)
    | none => (r.nextEvict, ReasmSlot.reset h, (r.nextEvict + 1) % reasmSlots)

/-- `dvbstp_reasm_feed`. -/
def feed (r : Reasm) (p : List UInt8) : Reasm × Option (DvbstpHeader × List UInt8) := match dvbstpAccept p with
  | none => (r, none)
  | some a =>
    let (i, s, evict) := r.choose a.header
    ({ slots := update r.slots i (s.collect a).1, nextEvict := evict }, (s.collect a).2)

/-- The receiver after a stream of packets. -/
def feedAll (r : Reasm) (ps : List (List UInt8)) : Reasm := ps.foldl (fun r p => (r.feed p).1) r

end Reasm

/-! # Soundness of the DVBSTP receiver

Whatever packets arrive, a delivered segment consists of sections of accepted packets that belong
together. -/

/-! ## The books of one slot -/

namespace ReasmSlot

/-- The section numbers a slot has. -/
def present (s : ReasmSlot) : Finset Nat :=
  (Finset.range (s.lastSectionNumber + 1)).filter fun i => (s.sec i).isSome

theorem store_sec_self (s : ReasmSlot) (a : Arrival) : (s.store a).sec a.header.sectionNumber = some a.payload :=
  update_self ..

theorem store_sec_of_ne (s : ReasmSlot) (a : Arrival) {i : Nat} (hi : i ≠ a.header.sectionNumber) :
    (s.store a).sec i = s.sec i := update_of_ne hi ..

/-- The counters of a slot agree with its sections. -/
structure Tallied (s : ReasmSlot) : Prop where
  le_last : ∀ {i b}, s.sec i = some b → i ≤ s.lastSectionNumber
  haveCount_eq : s.haveCount = s.present.card
  bytes_eq : s.bytes = ∑ i ∈ Finset.range (s.lastSectionNumber + 1), ((s.sec i).getD []).length
  bytes_le : s.bytes ≤ dvbstpMaxSegment
  /-- The CRC comes with the final section. -/
  crc_none : s.sec s.lastSectionNumber = none → s.crc = none

theorem tallied_reset (h : DvbstpHeader) : (reset h).Tallied := by
  refine ⟨fun hs => absurd hs (by simp [reset]), ?_, ?_, Nat.zero_le _, fun _ => rfl⟩
  · simp [reset, present]
  · simp [reset]

variable {s : ReasmSlot}

theorem Tallied.store (hs : s.Tallied) {a : Arrival} (hle : a.header.sectionNumber ≤ s.lastSectionNumber)
    (hcrc : a.crc.isSome → a.header.sectionNumber = s.lastSectionNumber)
    (hfree : s.sec a.header.sectionNumber = none) (hfit : s.bytes + a.payload.length ≤ dvbstpMaxSegment) :
    (s.store a).Tallied := by
  have hmem : a.header.sectionNumber ∈ Finset.range (s.lastSectionNumber + 1) :=
    Finset.mem_range.2 (Nat.lt_succ_of_le hle)
  refine ⟨?_, ?_, ?_, hfit, ?_⟩
  · intro i b hb
    simp only [ReasmSlot.store, Function.update_apply] at hb
    split at hb
    · rename_i hi
      rw [hi]
      exact hle
    · exact hs.le_last hb
  · have hins : (s.store a).present = insert a.header.sectionNumber s.present := by
      ext i
      simp only [present, ReasmSlot.store, Finset.mem_insert, Finset.mem_filter, Function.update_apply]
      by_cases hi : i = a.header.sectionNumber
      · subst hi
        simp [hmem]
      · simp [hi]
    have hnot : a.header.sectionNumber ∉ s.present := by simp [present, hfree]
    rw [hins, Finset.card_insert_of_notMem hnot, ← hs.haveCount_eq]
    rfl
  · have hrest : ∑ i ∈ (Finset.range (s.lastSectionNumber + 1)).erase a.header.sectionNumber,
        (((s.store a).sec i).getD []).length =
        ∑ i ∈ (Finset.range (s.lastSectionNumber + 1)).erase a.header.sectionNumber, ((s.sec i).getD []).length := by
      apply Finset.sum_congr rfl
      intro i hi
      rw [store_sec_of_ne s a (Finset.ne_of_mem_erase hi)]
    have hnew := Finset.sum_erase_add (Finset.range (s.lastSectionNumber + 1))
      (fun i => (((s.store a).sec i).getD []).length) hmem
    have hold := Finset.sum_erase_add (Finset.range (s.lastSectionNumber + 1))
      (fun i => ((s.sec i).getD []).length) hmem
    rw [hrest] at hnew
    simp only [hfree, getD_none, length_nil, add_zero] at hold
    show s.bytes + a.payload.length = ∑ i ∈ Finset.range (s.lastSectionNumber + 1), _
    rw [← hnew, hold, store_sec_self, getD_some, hs.bytes_eq]
  · intro hlast
    simp only [ReasmSlot.store, Function.update_apply] at hlast ⊢
    split at hlast
    · cases hlast
    · rename_i hne
      rw [if_neg (fun h => hne (hcrc h).symm)]
      exact hs.crc_none hlast

theorem Tallied.complete (hs : s.Tallied) (hfull : s.haveCount = s.lastSectionNumber + 1)
    {i : Nat} (hi : i ≤ s.lastSectionNumber) : ∃ b, s.sec i = some b := by
  have hall : s.present = Finset.range (s.lastSectionNumber + 1) := by
    have hcard := hs.haveCount_eq
    refine Finset.eq_of_subset_of_card_le (Finset.filter_subset _ _) ?_
    rw [Finset.card_range, ← hfull, hcard]
  have hmem : i ∈ s.present := by
    rw [hall]
    exact Finset.mem_range.2 (Nat.lt_succ_of_le hi)
  exact isSome_iff_exists.1 (Finset.mem_filter.1 hmem).2

theorem length_flatMap_range (f : Nat → List UInt8) (n : Nat) :
    ((range n).flatMap f).length = ∑ i ∈ Finset.range n, (f i).length := by
  induction n with
  | zero => rfl
  | succ n ih => rw [range_succ, flatMap_append, length_append, ih, Finset.sum_range_succ, flatMap_singleton]

theorem Tallied.length_assembled (hs : s.Tallied) : s.assembled.length = s.bytes := by
  rw [assembled, length_flatMap_range, hs.bytes_eq]

end ReasmSlot

/-! ## What a packet brings -/

variable {p : List UInt8} {a : Arrival}

theorem dvbstpAccept_cases (h : dvbstpAccept p = some a) : a.header.sectionNumber ≤ a.header.lastSectionNumber ∧
      (a.crc.isSome → a.header.sectionNumber = a.header.lastSectionNumber) := by
  unfold dvbstpAccept at h
  split at h
  · cases h
  rename_i hd hdrlen hparse
  split at h
  · cases h
  rename_i hle
  split at h
  · cases h
  rename_i hcrc
  split at h
  · cases h
  cases hc : hd.crcPresent with
  | true =>
    simp only [hc, if_true] at h
    split at h
    · cases h
    · cases h
      refine ⟨not_lt.1 hle, fun _ => ?_⟩
      by_contra hne
      exact hcrc ⟨hc, hne⟩
  | false =>
    simp only [hc, Bool.false_eq_true, if_false] at h
    split at h
    · cases h
    · cases h
      exact ⟨not_lt.1 hle, nofun⟩

/-! ## Where the sections come from -/

/-- `data` is the segment with header `h`, put together from packets of `ps`. -/
def Delivered (ps : List (List UInt8)) (h : DvbstpHeader) (data : List UInt8) : Prop := ∃ sec : Nat → Arrival,
    (∀ i ≤ h.lastSectionNumber, (∃ p ∈ ps, dvbstpAccept p = some (sec i)) ∧
      (sec i).header.SameSegment h ∧ (sec i).header.sectionNumber = i) ∧
    data = (range (h.lastSectionNumber + 1)).flatMap (fun i => (sec i).payload) ∧
    data.length = h.totalSegmentSize ∧ data.length ≤ dvbstpMaxSegment ∧
    ∀ c, (sec h.lastSectionNumber).crc = some c → crc32Mpeg data = c

namespace ReasmSlot

/-- The slot is for the segment of the header. -/
def Of (s : ReasmSlot) (h : DvbstpHeader) : Prop :=
  s.key = h.key ∧ s.version = h.segmentVersion ∧ s.lastSectionNumber = h.lastSectionNumber ∧
    s.totalSegmentSize = h.totalSegmentSize

variable {s : ReasmSlot}

theorem Of.sameSegment {h g : DvbstpHeader} (hh : s.Of h) (hg : s.Of g) : h.SameSegment g :=
  ⟨hh.1.symm.trans hg.1, hh.2.1.symm.trans hg.2.1, hh.2.2.1.symm.trans hg.2.2.1, hh.2.2.2.symm.trans hg.2.2.2⟩

/-- The sections of a slot come from packets of `ps`, the CRC from that of the final section. -/
structure Held (ps : List (List UInt8)) (s : ReasmSlot) : Prop where
  tallied : s.Tallied
  origin : ∀ {i b}, s.sec i = some b → ∃ p ∈ ps, ∃ a, dvbstpAccept p = some a ∧ s.Of a.header ∧
    a.header.sectionNumber = i ∧ a.payload = b ∧ (i = s.lastSectionNumber → a.crc = s.crc)

theorem held_reset (ps : List (List UInt8)) (h : DvbstpHeader) : (reset h).Held ps :=
  ⟨tallied_reset h, fun hs => absurd hs (by simp [reset])⟩

variable {ps : List (List UInt8)}

theorem Held.mono {qs : List (List UInt8)} (hs : s.Held ps) (hsub : ps ⊆ qs) : s.Held qs := by
  refine ⟨hs.tallied, ?_⟩
  intro i b hb
  obtain ⟨p, hp, a, ha⟩ := hs.origin hb
  exact ⟨p, hsub hp, a, ha⟩

theorem Held.store (hs : s.Held ps) (hp : p ∈ ps) (ha : dvbstpAccept p = some a) (hof : s.Of a.header)
    (hfree : s.sec a.header.sectionNumber = none) (hfit : s.bytes + a.payload.length ≤ dvbstpMaxSegment) :
    (s.store a).Held ps := by
  obtain ⟨hle, hcrc⟩ := dvbstpAccept_cases ha
  rw [← hof.2.2.1] at hle hcrc
  refine ⟨hs.tallied.store hle hcrc hfree hfit, ?_⟩
  intro i b hb
  by_cases hi : i = a.header.sectionNumber
  · subst hi
    rw [store_sec_self] at hb
    refine ⟨p, hp, a, ha, hof, rfl, some.inj hb, ?_⟩
    intro hlast
    simp only [ReasmSlot.store]
    cases hc : a.crc with
    | some c => simp
    | none =>
      rw [hlast] at hfree
      simp [hs.tallied.crc_none hfree]
  · rw [store_sec_of_ne s a hi] at hb
    obtain ⟨q, hq, a', ha', hof', hnum, hpay, hcrc'⟩ := hs.origin hb
    refine ⟨q, hq, a', ha', hof', hnum, hpay, ?_⟩
    intro hlast
    -- the packet now stored is not the final section, so it brings no CRC
    have hnone : ¬ a.crc.isSome := fun h => hi (hlast.trans (hcrc h).symm)
    rw [hcrc' hlast, ReasmSlot.store, if_neg hnone]

theorem Held.delivered (hs : s.Held ps) {h : DvbstpHeader} (hof : s.Of h)
    (hfull : s.haveCount = s.lastSectionNumber + 1) (hsize : s.assembled.length = s.totalSegmentSize)
    (hcrc : s.crc.any (fun c => crc32Mpeg s.assembled ≠ c) = false) : Delivered ps h s.assembled := by
  have hall : ∀ i, ∃ a : Arrival, i ≤ s.lastSectionNumber →
      (∃ p ∈ ps, dvbstpAccept p = some a) ∧ s.Of a.header ∧ a.header.sectionNumber = i ∧
        s.sec i = some a.payload ∧ (i = s.lastSectionNumber → a.crc = s.crc) := by
    intro i
    by_cases hi : i ≤ s.lastSectionNumber
    · obtain ⟨b, hb⟩ := hs.tallied.complete hfull hi
      obtain ⟨p, hp, a, ha, hofa, hnum, hpay, hlast⟩ := hs.origin hb
      exact ⟨a, fun _ => ⟨⟨p, hp, ha⟩, hofa, hnum, by rw [hb, hpay], hlast⟩⟩
    · exact ⟨⟨h, [], none⟩, fun hle => absurd hle hi⟩
  choose sec hsec using hall
  have hl := hof.2.2.1
  refine ⟨sec, ?_, ?_, hsize.trans hof.2.2.2, ?_, ?_⟩
  · intro i hi
    obtain ⟨horig, hofa, hnum, -⟩ := hsec i (by rw [hl]; exact hi)
    exact ⟨horig, hofa.sameSegment hof, hnum⟩
  · rw [assembled, ← hl]
    apply flatMap_congr
    intro i hi
    obtain ⟨-, -, -, hpay, -⟩ := hsec i (Nat.le_of_lt_succ (mem_range.1 hi))
    rw [hpay, getD_some]
  · rw [hs.tallied.length_assembled]
    exact hs.tallied.bytes_le
  · intro c hc
    obtain ⟨-, -, -, -, hlast⟩ := hsec s.lastSectionNumber le_rfl
    rw [← hl, hlast rfl] at hc
    simpa [hc] using hcrc

theorem collect_cases (s : ReasmSlot) (a : Arrival) :
    ((∃ b, s.sec a.header.sectionNumber = some b) ∧ s.collect a = (some s, none)) ∨
    (s.sec a.header.sectionNumber = none ∧ ((s.collect a = (none, none)) ∨
       (s.bytes + a.payload.length ≤ dvbstpMaxSegment ∧ ((s.collect a = (some (s.store a), none)) ∨
         ((s.store a).haveCount = s.lastSectionNumber + 1 ∧ (s.store a).assembled.length = s.totalSegmentSize ∧
          (s.store a).crc.any (fun c => crc32Mpeg (s.store a).assembled ≠ c) = false ∧
          s.collect a = (none, some (a.header, (s.store a).assembled))))))) := by
  unfold collect
  cases hsec : s.sec a.header.sectionNumber with
  | some b => exact .inl ⟨⟨b, rfl⟩, if_pos rfl⟩
  | none =>
    refine .inr ⟨rfl, ?_⟩
    rw [if_neg (by simp)]
    by_cases hfit : s.bytes + a.payload.length > dvbstpMaxSegment
    · exact .inl (if_pos hfit)
    rw [if_neg hfit]
    by_cases hcount : (s.store a).haveCount ≠ (s.store a).lastSectionNumber + 1
    · exact .inr ⟨not_lt.1 hfit, .inl (if_pos hcount)⟩
    rw [if_neg hcount]
    by_cases hsize : (s.store a).assembled.length ≠ (s.store a).totalSegmentSize
    · exact .inl (if_pos hsize)
    rw [if_neg hsize]
    cases hcrc : (s.store a).crc.any fun c => decide (crc32Mpeg (s.store a).assembled ≠ c) with
    | true => exact .inl (if_pos rfl)
    | false => exact .inr ⟨not_lt.1 hfit, .inr ⟨not_not.1 hcount, not_not.1 hsize, rfl, if_neg (by simp)⟩⟩

theorem Held.collect (hs : s.Held ps) (hp : p ∈ ps) (ha : dvbstpAccept p = some a) (hof : s.Of a.header) :
    (∀ t, (s.collect a).1 = some t → t.Held ps) ∧
      ∀ h data, (s.collect a).2 = some (h, data) → h = a.header ∧ Delivered ps h data := by
  rcases collect_cases s a with ⟨-, hc⟩ | ⟨hfree, hc | ⟨hfit, hc | ⟨hfull, hsize, hcrc, hc⟩⟩⟩
  · rw [hc]
    exact ⟨fun t ht => some.inj ht ▸ hs, fun h data hd => absurd hd (by simp)⟩
  · rw [hc]
    exact ⟨fun t ht => absurd ht (by simp), fun h data hd => absurd hd (by simp)⟩
  · rw [hc]
    refine ⟨?_, fun h data hd => absurd hd (by simp)⟩
    intro t ht
    cases ht
    exact hs.store hp ha hof hfree hfit
  · rw [hc]
    refine ⟨fun t ht => absurd ht (by simp), ?_⟩
    intro h data hd
    obtain ⟨rfl, rfl⟩ := hd
    exact ⟨rfl, (hs.store hp ha hof hfree hfit).delivered hof hfull hsize hcrc⟩

end ReasmSlot

/-! ## Streams of packets -/

namespace Reasm

variable {ps : List (List UInt8)} {r : Reasm} (hr : ∀ i s, r.slots i = some s → s.Held ps)

include hr

theorem choose_held (h : DvbstpHeader) : (r.choose h).2.1.Held ps ∧ (r.choose h).2.1.Of h := by
  have hnew : (ReasmSlot.reset h).Held ps ∧ (ReasmSlot.reset h).Of h :=
    ⟨ReasmSlot.held_reset ps h, rfl, rfl, rfl, rfl⟩
  unfold choose
  split
  · rename_i i hfind
    cases hs : r.slots i with
    | none => exact hnew
    | some s =>
      have hkey : s.key = h.key := by
        have hany := find?_some hfind
        simpa [hs] using hany
      simp only [map_some, getD_some, ReasmSlot.adapt]
      split
      · exact hnew
      · rename_i hsame
        simp only [not_or, not_not] at hsame
        exact ⟨hr i s hs, hkey, hsame⟩
  · split
    · exact hnew
    · exact hnew

theorem feed_held (p : List UInt8) :
    (∀ i s, (r.feed p).1.slots i = some s → s.Held (ps ++ [p])) ∧ ∀ h data, (r.feed p).2 = some (h, data) →
        (∃ a, dvbstpAccept p = some a ∧ a.header = h) ∧ Delivered (ps ++ [p]) h data := by
  have hr' : ∀ i s, r.slots i = some s → s.Held (ps ++ [p]) :=
    fun i s hs => (hr i s hs).mono (subset_append_left ps [p])
  unfold feed
  cases ha : dvbstpAccept p with
  | none => exact ⟨hr', fun h data hd => absurd hd (by simp)⟩
  | some a =>
    obtain ⟨hheld, hof⟩ := choose_held hr' a.header
    obtain ⟨hslot, hout⟩ := hheld.collect (by simp) ha hof
    constructor
    · intro i s hs
      simp only [Function.update_apply] at hs
      split at hs
      · exact hslot s hs
      · exact hr' i s hs
    · intro h data hd
      obtain ⟨rfl, hdel⟩ := hout h data hd
      exact ⟨⟨a, rfl, rfl⟩, hdel⟩

omit hr

theorem feedAll_held (ps : List (List UInt8)) : ∀ i s, (feedAll {} ps).slots i = some s → s.Held ps := by
  induction ps using reverseRecOn with
  | nil =>
    intro i s hs
    cases hs
  | append_singleton ps p ih =>
    rw [feedAll, foldl_concat]
    exact (feed_held ih p).1

end Reasm

end DvbIpiTools.Net
