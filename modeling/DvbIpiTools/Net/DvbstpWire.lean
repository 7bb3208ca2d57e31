import Mathlib.Tactic.IntervalCases
import DvbIpiTools.Net.Dvbstp
import DvbIpiTools.Utils.BitList

set_option autoImplicit false

/-! # The packets of a DVBSTP segment

What `dvbstp_reasm_feed` accepts of the packets `dvbstp_send_segment` makes. -/

namespace DvbIpiTools.Net

open BeUtil Demux List Nat

/-- A segment given to `dvbstp_send_segment`. -/
structure Outgoing where
  v6 : Bool
  seg : DvbstpSend
  data : List UInt8
  compr_ok : comprAccepted (seg.payloadId % 256) (seg.compr % 8) = true
  data_le : data.length ≤ dvbstpMaxSegment

namespace Outgoing

/-- `last_section`. -/
def last (o : Outgoing) : Nat := dvbstpSections o.v6 o.data.length - 1

/-- The provider id as the header's 16 bytes. -/
def providerId (o : Outgoing) : List UInt8 :=
  if o.seg.hasProviderId then
    o.seg.providerId.take (dvbstpIdLen o.v6) ++ replicate (16 - dvbstpIdLen o.v6) 0
  else replicate 16 0

/-- The header of section `i`. -/
def header (o : Outgoing) (i : Nat) : DvbstpHeader where
  payloadId := o.seg.payloadId % 256
  segmentId := o.seg.segmentId % 65536
  segmentVersion := o.seg.segmentVersion % 256
  sectionNumber := i
  lastSectionNumber := o.last
  totalSegmentSize := o.data.length
  crcPresent := o.seg.wantCrc && i == o.last
  compr := o.seg.compr % 8
  ipv6 := o.v6
  hasProviderId := o.seg.hasProviderId
  providerId := o.providerId

/-- The key of the segment. -/
def key (o : Outgoing) : DvbstpKey := (o.header 0).key

/-- What the receiver gets with section `i`. -/
def arrival (o : Outgoing) (i : Nat) : Arrival where
  header := o.header i
  payload := sectionBytes o.v6 o.data i
  crc := if o.seg.wantCrc && i == o.last then some (crc32Mpeg o.data) else none

/-- The packet of section `i`. -/
def packet (o : Outgoing) (i : Nat) : List UInt8 := sectionPacket o.v6 o.seg o.data o.last i

variable (v6 : Bool)

theorem maxSection_pos : 0 < dvbstpMaxSection v6 := by cases v6 <;> decide

theorem sections_pos (len : Nat) : 0 < dvbstpSections v6 len := by
  unfold dvbstpSections
  split
  · exact div_pos (by omega) (maxSection_pos v6)
  · exact one_pos

theorem sections_le {len : Nat} (h : len ≤ dvbstpMaxSegment) : dvbstpSections v6 len ≤ 4096 := by
  unfold dvbstpSections dvbstpMaxSegment at *
  cases v6 with
  | true =>
    simp only [dvbstpMaxSection, if_true]
    split <;> omega
  | false =>
    simp only [dvbstpMaxSection, Bool.false_eq_true, if_false]
    split <;> omega

variable (o : Outgoing)

theorem last_lt : o.last < 4096 := by
  have hle := sections_le o.v6 o.data_le
  unfold last
  omega

theorem sendSegment_eq : dvbstpSendSegment o.v6 o.seg o.data = some ((range (o.last + 1)).map o.packet) := by
  have hle := sections_le o.v6 o.data_le
  have hpos := sections_pos o.v6 o.data.length
  have hn : o.last + 1 = dvbstpSections o.v6 o.data.length := by
    unfold last
    omega
  have hsmall : ¬ (dvbstpSections o.v6 o.data.length > 4096 ∨ o.data.length > dvbstpMaxSegment) := by
    rw [not_or]
    exact ⟨not_lt.2 hle, not_lt.2 o.data_le⟩
  simp only [dvbstpSendSegment, if_neg hsmall, hn]
  rfl

/-! ## Sections -/

theorem sectionBytes_eq (data : List UInt8) (i : Nat) :
    sectionBytes v6 data i = (data.drop (i * dvbstpMaxSection v6)).take (dvbstpMaxSection v6) := by
  rw [sectionBytes, ← take_take, ← length_drop]
  apply take_of_length_le
  rw [length_take]
  exact min_le_right _ _

theorem length_sectionBytes_le (data : List UInt8) (i : Nat) :
    (sectionBytes v6 data i).length ≤ dvbstpMaxSection v6 := by
  rw [sectionBytes_eq, length_take]
  exact min_le_left _ _

/-- The first `n` sections are the first `n` times the section length of the data. -/
theorem flatMap_sectionBytes (data : List UInt8) (n : Nat) :
    (range n).flatMap (sectionBytes v6 data) = data.take (n * dvbstpMaxSection v6) := by
  induction n with
  | zero => simp
  | succ n ih => rw [range_succ, flatMap_append, ih, flatMap_singleton, sectionBytes_eq, succ_mul, take_add]

theorem flatMap_sections : (range (o.last + 1)).flatMap (sectionBytes o.v6 o.data) = o.data := by
  rw [flatMap_sectionBytes]
  apply take_of_length_le
  have hpos := maxSection_pos o.v6
  have hsec := sections_pos o.v6 o.data.length
  have hn : o.last + 1 = dvbstpSections o.v6 o.data.length := by
    unfold last
    omega
  rw [hn, dvbstpSections]
  split
  · have hdiv := div_add_mod (o.data.length + dvbstpMaxSection o.v6 - 1) (dvbstpMaxSection o.v6)
    have hmod := mod_lt (o.data.length + dvbstpMaxSection o.v6 - 1) hpos
    rw [mul_comm] at hdiv
    omega
  · omega

/-! ## The bytes of a packet -/

/-- The provider id and the rest of a packet behind the fixed header. -/
def body (o : Outgoing) (i : Nat) : List UInt8 :=
  (if o.seg.hasProviderId then o.seg.providerId.take (dvbstpIdLen o.v6) else []) ++
    sectionBytes o.v6 o.data i ++ (if o.seg.wantCrc && i == o.last then bePut 4 (crc32Mpeg o.data) else [])

/-- The fixed header. -/
def fixed (o : Outgoing) (i : Nat) : List UInt8 :=
  [UInt8.ofNat ((if o.v6 then 0x40 else 0x00) ||| (if o.seg.wantCrc && i == o.last then 0x01 else 0x00)),
    UInt8.ofNat (o.data.length >>> 16), UInt8.ofNat (o.data.length >>> 8), UInt8.ofNat o.data.length,
    UInt8.ofNat (o.seg.payloadId &&& 0xFF), UInt8.ofNat (o.seg.segmentId >>> 8), UInt8.ofNat o.seg.segmentId,
    UInt8.ofNat (o.seg.segmentVersion &&& 0xFF), UInt8.ofNat (i >>> 4 &&& 0xFF),
    UInt8.ofNat ((i &&& 0x0F) <<< 4 ||| (o.last >>> 8 &&& 0x0F)), UInt8.ofNat (o.last &&& 0xFF),
    UInt8.ofNat ((o.seg.compr &&& 0x07) <<< 5 ||| (if o.seg.hasProviderId then 0x10 else 0x00))]

theorem packet_eq (i : Nat) : o.packet i = o.fixed i ++ o.body i := rfl

theorem byteAt_packet (i k : Nat) (hk : k < 12) : byteAt (o.packet i) k = byteAt (o.fixed i) k := by
  rw [packet_eq]
  exact byteAt_append_left hk

theorem byte_zero (i : Nat) : byteAt (o.packet i) 0 =
    (if o.v6 then 0x40 else 0) + (if o.seg.wantCrc && i == o.last then 1 else 0) := by
  rw [byteAt_packet o i 0 (by decide)]
  simp only [fixed, byteAt, getD_cons_zero]
  cases o.v6 <;> cases o.seg.wantCrc && i == o.last <;> rfl

theorem byte_eleven (i : Nat) : byteAt (o.packet i) 11 =
    o.seg.compr % 8 * 32 + (if o.seg.hasProviderId then 16 else 0) := by
  rw [byteAt_packet o i 11 (by decide)]
  have hmask : o.seg.compr &&& 0x07 = o.seg.compr % 8 := and_two_pow_sub_one_eq_mod _ 3
  simp only [fixed, byteAt, getD_cons_succ, getD_cons_zero, hmask]
  have hlt : o.seg.compr % 8 < 8 := mod_lt _ (by decide)
  generalize o.seg.compr % 8 = c at hlt
  interval_cases c <;> cases o.seg.hasProviderId <;> rfl

variable {i : Nat}

theorem section_bytes {last : Nat} (hi : i < 4096) (hl : last < 4096) : (UInt8.ofNat (i >>> 4 &&& 0xFF)).toNat <<< 4 |||
        (UInt8.ofNat ((i &&& 0x0F) <<< 4 ||| (last >>> 8 &&& 0x0F))).toNat >>> 4 = i ∧
      ((UInt8.ofNat ((i &&& 0x0F) <<< 4 ||| (last >>> 8 &&& 0x0F))).toNat &&& 0x0F) <<< 8 |||
        (UInt8.ofNat (last &&& 0xFF)).toNat = last := by
  have h4 : ∀ n, n &&& 0x0F = n % 16 := fun n => and_two_pow_sub_one_eq_mod n 4
  have h8 : ∀ n, n &&& 0xFF = n % 256 := fun n => and_two_pow_sub_one_eq_mod n 8
  have hmid : (i &&& 0x0F) <<< 4 ||| (last >>> 8 &&& 0x0F) = i % 16 * 16 + last / 256 % 16 := by
    rw [BitList.shiftLeft_or (by rw [h4]; exact mod_lt _ (by decide)), h4, h4, shiftRight_eq_div_pow]
    norm_num
  rw [hmid, h8, h8, h4, UInt8.toNat_ofNat', UInt8.toNat_ofNat', UInt8.toNat_ofNat', shiftRight_eq_div_pow,
    shiftRight_eq_div_pow]
  constructor
  · rw [BitList.shiftLeft_or (by omega)]
    omega
  · rw [BitList.shiftLeft_or (by omega)]
    omega

theorem length_body (i : Nat) : (o.body i).length =
    (if o.seg.hasProviderId then dvbstpIdLen o.v6 else 0) + (sectionBytes o.v6 o.data i).length +
      (if o.seg.wantCrc && i == o.last then 4 else 0) := by
  have hid : dvbstpIdLen o.v6 ≤ o.seg.providerId.length := by
    rw [o.seg.providerId_length]
    cases o.v6 <;> decide
  unfold body
  cases o.seg.hasProviderId <;> cases o.seg.wantCrc && i == o.last <;> simp [hid, add_assoc]

theorem length_packet (i : Nat) : (o.packet i).length = 12 + (o.body i).length := by
  rw [packet_eq, length_append]
  rfl

/-! ## Reading the header back -/

theorem packet_ver (i : Nat) : byteAt (o.packet i) 0 >>> 6 &&& 0x03 = if o.v6 then 1 else 0 := by
  rw [byte_zero]
  cases o.v6 <;> cases o.seg.wantCrc && i == o.last <;> rfl

theorem packet_enc (i : Nat) : byteAt (o.packet i) 0 >>> 1 &&& 0x03 = 0 := by
  rw [byte_zero]
  cases o.v6 <;> cases o.seg.wantCrc && i == o.last <;> rfl

theorem packet_crcPresent (i : Nat) : decide (byteAt (o.packet i) 0 &&& 0x01 ≠ 0) = (o.seg.wantCrc && i == o.last) := by
  rw [byte_zero]
  cases o.v6 <;> cases o.seg.wantCrc && i == o.last <;> rfl

theorem packet_eleven (i : Nat) : byteAt (o.packet i) 11 >>> 5 &&& 0x07 = o.seg.compr % 8 ∧
    decide (byteAt (o.packet i) 11 >>> 4 &&& 0x01 ≠ 0) = o.seg.hasProviderId ∧ byteAt (o.packet i) 11 &&& 0x0F = 0 := by
  have hlt : o.seg.compr % 8 < 8 := mod_lt _ (by decide)
  rw [byte_eleven]
  generalize o.seg.compr % 8 = c at hlt
  interval_cases c <;> cases o.seg.hasProviderId <;> exact ⟨rfl, rfl, rfl⟩

theorem packet_payloadId (i : Nat) : byteAt (o.packet i) 4 = o.seg.payloadId % 256 := by
  have hmask : o.seg.payloadId &&& 0xFF = o.seg.payloadId % 256 := and_two_pow_sub_one_eq_mod _ 8
  show (UInt8.ofNat (o.seg.payloadId &&& 0xFF)).toNat = _
  rw [hmask, UInt8.toNat_ofNat', mod_mod]

theorem packet_segmentVersion (i : Nat) : byteAt (o.packet i) 7 = o.seg.segmentVersion % 256 := by
  have hmask : o.seg.segmentVersion &&& 0xFF = o.seg.segmentVersion % 256 := and_two_pow_sub_one_eq_mod _ 8
  show (UInt8.ofNat (o.seg.segmentVersion &&& 0xFF)).toNat = _
  rw [hmask, UInt8.toNat_ofNat', mod_mod]

theorem packet_segmentId (i : Nat) : beGet (o.packet i) 5 2 = o.seg.segmentId % 65536 := by
  exact beGet_bePut 2 o.seg.segmentId []

theorem packet_totalSegmentSize (i : Nat) : beGet (o.packet i) 1 3 = o.data.length := by
  have hlt : o.data.length < 256 ^ 3 := lt_of_le_of_lt o.data_le (by decide)
  rw [packet_eq, beGet_append_left (show 1 + 3 ≤ (o.fixed i).length from (by decide : 4 ≤ 12)), ← mod_eq_of_lt hlt]
  exact beGet_bePut 3 o.data.length []

theorem packet_sectionNumber (hi : i ≤ o.last) : byteAt (o.packet i) 8 <<< 4 ||| byteAt (o.packet i) 9 >>> 4 = i := by
  exact (section_bytes (lt_of_le_of_lt hi o.last_lt) o.last_lt).1

theorem packet_lastSectionNumber (hi : i ≤ o.last) :
    (byteAt (o.packet i) 9 &&& 0x0F) <<< 8 ||| byteAt (o.packet i) 10 = o.last := by
  exact (section_bytes (lt_of_le_of_lt hi o.last_lt) o.last_lt).2

theorem take_body (i : Nat) (h : o.seg.hasProviderId = true) :
    (o.body i).take (dvbstpIdLen o.v6) = o.seg.providerId.take (dvbstpIdLen o.v6) := by
  have hid : dvbstpIdLen o.v6 ≤ o.seg.providerId.length := by
    rw [o.seg.providerId_length]
    cases o.v6 <;> decide
  rw [body, if_pos h, append_assoc]
  exact take_left' (by rw [length_take, min_eq_left hid])

/-- The length of the header. -/
def hdrlen (o : Outgoing) : Nat := if o.seg.hasProviderId then 12 + dvbstpIdLen o.v6 else 12

theorem parseHeader_packet (hi : i ≤ o.last) : dvbstpParseHeader (o.packet i) = some (o.header i, o.hdrlen) := by
  have hlen := o.length_packet i
  have hbody := o.length_body i
  have hv6 : decide ((if o.v6 then 1 else 0) = 1) = o.v6 := by cases o.v6 <;> rfl
  have hver : ¬ ((if o.v6 then 1 else 0) > 1 ∨ 0 ≠ 0) := by cases o.v6 <;> simp
  have hdrop : (o.packet i).drop 12 = o.body i := rfl
  unfold dvbstpParseHeader
  simp only [o.packet_ver, o.packet_enc, o.packet_crcPresent, hv6, o.packet_eleven,
    o.packet_payloadId, o.packet_segmentVersion, o.packet_segmentId, o.packet_totalSegmentSize,
    o.packet_sectionNumber hi, o.packet_lastSectionNumber hi, hdrop, o.compr_ok, Bool.not_true, Bool.false_eq_true,
    if_false, mul_zero, add_zero, if_neg hver]
  rw [if_neg (by omega)]
  cases hp : o.seg.hasProviderId with
  | true =>
    rw [hp, if_pos rfl] at hbody
    simp only [true_and, if_true]
    rw [if_neg (by omega), if_neg (by omega), o.take_body i hp]
    simp only [header, providerId, hdrlen, hp, if_true]
  | false =>
    simp only [Bool.false_eq_true, false_and, if_false]
    rw [if_neg (by omega)]
    simp only [header, providerId, hdrlen, hp, Bool.false_eq_true, if_false]

theorem drop_packet (i : Nat) : (o.packet i).drop o.hdrlen =
    sectionBytes o.v6 o.data i ++ (if o.seg.wantCrc && i == o.last then bePut 4 (crc32Mpeg o.data) else []) := by
  have hid : dvbstpIdLen o.v6 ≤ o.seg.providerId.length := by
    rw [o.seg.providerId_length]
    cases o.v6 <;> decide
  unfold hdrlen
  split
  · rename_i hp
    rw [← drop_drop]
    show (o.body i).drop _ = _
    rw [body, if_pos hp, append_assoc]
    exact drop_left' (by rw [length_take, min_eq_left hid])
  · rename_i hp
    show o.body i = _
    rw [body, if_neg hp, nil_append]

theorem accept_packet (hi : i ≤ o.last) : dvbstpAccept (o.packet i) = some (o.arrival i) := by
  have hmax : (sectionBytes o.v6 o.data i).length ≤ dvbstpMaxRxSection := by
    refine le_trans (length_sectionBytes_le o.v6 o.data i) ?_
    cases o.v6 <;> decide
  have hdrop := o.drop_packet i
  have hlen := congrArg length hdrop
  rw [length_drop, length_append] at hlen
  unfold dvbstpAccept
  rw [o.parseHeader_packet hi]
  dsimp only [header]
  rw [if_neg (not_lt.2 hi)]
  cases hc : o.seg.wantCrc && i == o.last with
  | true =>
    have hi' : i = o.last := by
      rw [Bool.and_eq_true, beq_iff_eq] at hc
      exact hc.2
    rw [hc, if_pos rfl] at hdrop hlen
    rw [length_bePut] at hlen
    have hcrc : beGet (o.packet i) ((o.packet i).length - 4) 4 = crc32Mpeg o.data := by
      have hsplit : ((o.packet i).take o.hdrlen ++ sectionBytes o.v6 o.data i) ++ bePut 4 (crc32Mpeg o.data) =
          o.packet i := by
        rw [append_assoc, ← hdrop, take_append_drop]
      rw [← hsplit, beGet_end]
      exact mod_eq_of_lt (crc32Mpeg_lt o.data)
    have htake : (sectionBytes o.v6 o.data i ++ bePut 4 (crc32Mpeg o.data)).take
        ((o.packet i).length - o.hdrlen - 4) = sectionBytes o.v6 o.data i := take_left' (by omega)
    simp only [true_and, if_true, hdrop, hcrc, htake]
    rw [if_neg (not_not.2 hi'), if_neg (by omega), if_neg (by omega)]
    simp only [arrival, header, hc, if_true]
  | false =>
    rw [hc, if_neg (by simp), append_nil] at hdrop
    rw [hc, if_neg (by simp), length_nil, add_zero] at hlen
    simp only [Bool.false_eq_true, false_and, if_false, hdrop, hlen, take_length]
    rw [if_neg (not_lt.2 hmax)]
    simp only [arrival, header, hc, Bool.false_eq_true, if_false]

end Outgoing

end DvbIpiTools.Net
