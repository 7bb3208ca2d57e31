import DvbIpiTools.Utils.ClassicBpf
import DvbIpiTools.Demux.Rtp

set_option autoImplicit false

/-! # The capture filter (`capture/ranges.c`, `capture/bpf.c`)

Addresses of four bytes are kept as `ntohl` reads them: the code masks and compares them bit by bit, so
their byte order does not show. A program that cannot be allocated is not modelled. -/

namespace DvbIpiTools.Fccret

open ClassicBpf

/-- `struct in6_addr`. -/
structure V6Addr where
  bytes : List UInt8
  length_eq : bytes.length = 16

/-- `cidr_t`, as `cidr_parse` leaves it: a prefix has at most 128 bits. -/
inductive Cidr
  | v4 (addr mask : BitVec 32)
  | v6 (addr : V6Addr) (bits : Nat) (bits_le : bits ≤ 128)

/-- A destination address with its family. -/
inductive Dst
  | v4 (addr : BitVec 32)
  | v6 (addr : V6Addr)

namespace Capture

/-! ## Ranges -/

def v6PrefixMatch (a b : V6Addr) (bits : Nat) : Bool :=
  let fullBytes := bits / 8
  let remBits := bits % 8
  if fullBytes ≠ 0 ∧ a.bytes.take fullBytes ≠ b.bytes.take fullBytes then false
  else if remBits ≠ 0 then
    let mask : BitVec 8 := 0xFF#8 <<< (8 - remBits)
    byteBits a.bytes fullBytes &&& mask = byteBits b.bytes fullBytes &&& mask
  else true

/-- One round of `in_ranges`. -/
def inRange : Dst → Cidr → Bool
  | .v4 a, .v4 addr mask => a &&& mask = addr &&& mask
  | .v6 a, .v6 addr bits _ => v6PrefixMatch a addr bits
  | _, _ => false

def inRanges (d : Dst) (ranges : List Cidr) : Bool := ranges.any (inRange d)

/-! ## The program -/

def maxInsns : Nat := 4096
def ethPIp : BitVec 32 := 0x0800
def ethPIpv6 : BitVec 32 := 0x86DD
def ethP8021q : BitVec 32 := 0x8100
def v4ClauseInsns : Nat := 4
def v6WordInsns : Nat := 3
def v6ClauseInsns : Nat := 4 * v6WordInsns + 1

def emitV4Clause (addrOff : Nat) (addr mask : BitVec 32) : List Insn :=
  testWord addrOff mask (addr &&& mask) 1 ++ [.retK 0xFFFFFFFF]

def v6WordMask (bits w : Nat) : BitVec 32 :=
  let wordBits := w * 32
  if bits ≤ wordBits then 0
  else if bits ≥ wordBits + 32 then 0xFFFFFFFF
  else 0xFFFFFFFF#32 <<< (wordBits + 32 - bits)

/-- One round of `emit_v6_clause`. -/
def emitV6Word (addrOff : Nat) (addr : V6Addr) (bits w : Nat) : List Insn :=
  testWord (addrOff + w * 4) (v6WordMask bits w) (word addr.bytes (w * 4) &&& v6WordMask bits w)
    (BitVec.ofNat 8 (if w = 3 then 1 else (3 - w) * v6WordInsns + 1))

def emitV6Clause (addrOff : Nat) (addr : V6Addr) (bits : Nat) : List Insn :=
  (List.range 4).flatMap (emitV6Word addrOff addr bits) ++ [.retK 0xFFFFFFFF]

def bpfDispatchLen (nv4 nv6 : Nat) : Nat := v4ClauseInsns * nv4 + v6ClauseInsns * nv6 + 5

def Cidr.isV4 : Cidr → Bool
  | .v4 .. => true
  | .v6 .. => false

/-- The number of IPv4 ranges. -/
def nv4 (ranges : List Cidr) : Nat := ranges.countP Cidr.isV4

/-- The number of IPv6 ranges. -/
def nv6 (ranges : List Cidr) : Nat := ranges.countP fun c => !Cidr.isV4 c

/-- The IPv4 clauses of a dispatch block. -/
def emitV4Clauses (addrOff : Nat) (ranges : List Cidr) : List Insn :=
  ranges.flatMap fun c =>
    match c with
    | .v4 addr mask => emitV4Clause addrOff addr mask
    | .v6 .. => []

/-- The IPv6 clauses of a dispatch block. -/
def emitV6Clauses (addrOff : Nat) (ranges : List Cidr) : List Insn :=
  ranges.flatMap fun c =>
    match c with
    | .v4 .. => []
    | .v6 addr bits _ => emitV6Clause addrOff addr bits

/-- `emit_dispatch_block`; the distance over the IPv4 section is cut to the 8 bits of `jf`. -/
def emitDispatchBlock (base : Nat) (ranges : List Cidr) : List Insn :=
  let v4SectionLen := v4ClauseInsns * nv4 ranges + 1
  [.jeqK ethPIp 0 (BitVec.ofNat 8 v4SectionLen)] ++ (emitV4Clauses (base + 16) ranges ++ [.retK 0]) ++
    ([.jeqK ethPIpv6 1 0, .retK 0] ++ (emitV6Clauses (base + 24) ranges ++ [.retK 0]))

/-- The instructions of `capture_build_bpf`. -/
def program (ranges : List Cidr) : List Insn :=
  let dLen := bpfDispatchLen (nv4 ranges) (nv6 ranges)
  [.ldAbsH 12, .jeqK ethP8021q 0 1, .ja (BitVec.ofNat 32 dLen)] ++ emitDispatchBlock 14 ranges ++
    ([.ldAbsH 16] ++ emitDispatchBlock 18 ranges)

def captureBuildBpf (ranges : List Cidr) : Option (List Insn) :=
  let total := 2 * bpfDispatchLen (nv4 ranges) (nv6 ranges) + 4
  if total > maxInsns then none
  else if (program ranges).length ≠ total then none
  else some (program ranges)

end Capture

/-! # Captured frames (`capture/frame.c`) -/

open ClassicBpf BeUtil

namespace Capture

/-- The ethertype behind a single VLAN tag and where the payload of the frame starts. -/
def etherType (pkt : List UInt8) : Option (BitVec 32 × Nat) :=
  if pkt.length < 14 then none
  else if half pkt 12 = ethP8021q then
    if pkt.length < 14 + 4 then none else some (half pkt 16, 18)
  else some (half pkt 12, 14)

/-- The IPv6 destination of a packet at `off`. -/
def dst6 (pkt : List UInt8) (off : Nat) (h : off + 40 ≤ pkt.length) : V6Addr where
  bytes := (pkt.drop (off + 24)).take 16
  length_eq := by
    rw [List.length_take, List.length_drop]
    omega

/-- The destination of the packet at `off` in a frame, by its ethertype. -/
def destinationAt (pkt : List UInt8) (ethertype : BitVec 32) (off : Nat) : Option Dst :=
  if ethertype = ethPIp then
    if off + 20 ≤ pkt.length then some (.v4 (word pkt (off + 16))) else none
  else if ethertype = ethPIpv6 then
    if h : off + 40 ≤ pkt.length then some (.v6 (dst6 pkt off h)) else none
  else none

/-- The IPv4 or IPv6 destination of a frame: what the filter is about. -/
def destination (pkt : List UInt8) : Option Dst := match etherType pkt with
  | none => none
  | some (ethertype, off) => destinationAt pkt ethertype off

/-- `walk_ipv6_ext_headers`: the offset of the UDP header. -/
def walkIpv6ExtHeaders (pkt : List UInt8) (hdrOff nextHeader : Nat) : Option Nat :=
  if nextHeader = 17 then some hdrOff
  else if nextHeader = 0 ∨ nextHeader = 60 ∨ nextHeader = 43 then
    if pkt.length < hdrOff + 2 then none
    else walkIpv6ExtHeaders pkt (hdrOff + (byteAt pkt (hdrOff + 1) + 1) * 8) (byteAt pkt hdrOff)
  else if nextHeader = 44 then
    if pkt.length < hdrOff + 8 then none
    else if beGet pkt (hdrOff + 2) 2 &&& 0xFFF9 ≠ 0 then none
    else walkIpv6ExtHeaders pkt (hdrOff + 8) (byteAt pkt hdrOff)
  else none
termination_by pkt.length - hdrOff

/-- A UDP packet with its destination. -/
structure UdpPacket where
  dst : Dst
  dscp : Nat
  udpOff : Nat

/-- The IPv4 case of `capture_handle_frame`. -/
def ipv4Udp (pkt : List UInt8) (ipOff : Nat) : Option UdpPacket :=
  let ihl := (byteAt pkt ipOff &&& 0x0F) * 4
  if pkt.length < ipOff + 20 ∨ byteAt pkt ipOff >>> 4 ≠ 4 then none
  else if ihl < 20 then none
  else if byteAt pkt (ipOff + 9) ≠ 17 ∨ pkt.length < ipOff + ihl + 8 then none
  else if beGet pkt (ipOff + 6) 2 &&& 0x3FFF ≠ 0 then none
  else some {
    dst := .v4 (word pkt (ipOff + 16))
    dscp := byteAt pkt (ipOff + 1) &&& 0xFC
    udpOff := ipOff + ihl }

/-- The IPv6 case of `capture_handle_frame`. -/
def ipv6Udp (pkt : List UInt8) (ipOff : Nat) : Option UdpPacket :=
  if h : ipOff + 40 ≤ pkt.length then
    if byteAt pkt ipOff >>> 4 ≠ 6 then none
    else
      match walkIpv6ExtHeaders pkt (ipOff + 40) (byteAt pkt (ipOff + 6)) with
      | none => none
      | some hdrOff =>
        if pkt.length < hdrOff + 8 then none
        else some {
          dst := .v6 (dst6 pkt ipOff h)
          dscp := ((byteAt pkt ipOff &&& 0x0F) <<< 4 ||| byteAt pkt (ipOff + 1) >>> 4) &&& 0xFC
          udpOff := hdrOff }
  else none

/-- What the frame callback is given. -/
structure Delivery where
  dst : Dst
  port : Nat
  dscp : Nat
  ssrc : Nat
  seq : Nat
  timestamp : Nat
  payload : List UInt8

/-- `capture_handle_frame` from the range check on. -/
def deliverUdp (pkt : List UInt8) (u : UdpPacket) : Option Delivery :=
  let udpLen := beGet pkt (u.udpOff + 4) 2
  let stop := min (u.udpOff + udpLen) pkt.length
  let rtpOff := u.udpOff + 8
  let rtp := (pkt.take stop).drop rtpOff
  if udpLen < 8 then none
  else if rtpOff > stop then none
  else
    match Demux.rtpTsPayload rtp, Demux.rtpParseHeader rtp with
    | some (_, payloadLen), some h => some {
        dst := u.dst
        port := beGet pkt (u.udpOff + 2) 2
        dscp := u.dscp
        ssrc := h.ssrc
        seq := h.seq
        timestamp := h.timestamp
        payload := (rtp.drop h.payloadOff).take payloadLen }
    | _, _ => none

def captureHandleFrame (pkt : List UInt8) (ranges : List Cidr) : Option Delivery :=
  match etherType pkt with
  | none => none
  | some (ethertype, off) =>
    let udp :=
      if ethertype = ethPIp then ipv4Udp pkt off
      else if ethertype = ethPIpv6 then ipv6Udp pkt off
      else none
    match udp with
    | none => none
    | some u => if inRanges u.dst ranges then deliverUdp pkt u else none

variable {pkt : List UInt8}

theorem ipv4Udp_dst {ipOff : Nat} {u : UdpPacket} (h : ipv4Udp pkt ipOff = some u) :
    ipOff + 20 ≤ pkt.length ∧ u.dst = .v4 (word pkt (ipOff + 16)) := by
  simp only [ipv4Udp] at h
  split at h
  · cases h
  rename_i hlen
  split at h
  · cases h
  split at h
  · cases h
  · split at h
    · cases h
    · cases h
      exact ⟨by omega, rfl⟩

theorem ipv6Udp_dst {ipOff : Nat} {u : UdpPacket} (h : ipv6Udp pkt ipOff = some u) :
    ∃ hlen, u.dst = .v6 (dst6 pkt ipOff hlen) := by
  simp only [ipv6Udp] at h
  split at h
  · next hlen =>
    split at h
    · cases h
    split at h
    · cases h
    · split at h
      · cases h
      · cases h
        exact ⟨hlen, rfl⟩
  · cases h

theorem destination_of_delivered {ranges : List Cidr} (h : (captureHandleFrame pkt ranges).isSome = true) :
    ∃ d, destination pkt = some d ∧ inRanges d ranges = true := by
  simp only [captureHandleFrame] at h
  simp only [destination, destinationAt]
  split at h
  · cases h
  rename_i ethertype off het
  split at h
  · cases h
  rename_i u hu
  have hin : inRanges u.dst ranges = true := by
    by_contra hnot
    simp [hnot] at h
  refine ⟨u.dst, ?_, hin⟩
  by_cases h4 : ethertype = ethPIp
  · rw [if_pos h4] at hu ⊢
    obtain ⟨hlen, hdst⟩ := ipv4Udp_dst hu
    rw [if_pos hlen, hdst]
  rw [if_neg h4] at hu ⊢
  by_cases h6 : ethertype = ethPIpv6
  · rw [if_pos h6] at hu ⊢
    obtain ⟨hlen, hdst⟩ := ipv6Udp_dst hu
    rw [dif_pos hlen, hdst]
  · rw [if_neg h6] at hu
    cases hu

end Capture

end DvbIpiTools.Fccret
