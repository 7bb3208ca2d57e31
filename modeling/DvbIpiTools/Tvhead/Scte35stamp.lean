import DvbIpiTools.Demux.Crc32
import DvbIpiTools.Utils.BitList

set_option autoImplicit false

/-! # SCTE-35 packets (`mux/scte35stamp.c`)

The packets of a splice section are held until the section is whole, so that its time can be shifted.
Whatever the packets are, they leave in the order in which they came. -/

namespace DvbIpiTools.Tvhead

open BeUtil Demux List Nat

/-- A packet of 188 bytes. Which source PID it came on, and as which packet of the run, is not in the
    packet and nothing reads it. -/
structure Pkt where
  bytes : List UInt8
  src : Nat
  seq : Nat
  deriving Inhabited

/-- Where a packet came from. -/
def Pkt.origin (p : Pkt) : Nat × Nat := (p.src, p.seq)

def scte35MaxPackets : Nat := 24
def sectionMax : Nat := 4096
def sectionMin : Nat := 16
def tableIdSpliceInfo : UInt8 := 0xFC
def ptsModulus : Nat := 2 ^ 33
def ptsAdjOffset : Nat := 4

/-- `scte35stamp_t`; the count of patched sections is left out. -/
structure Scte35stamp where
  pk : List Pkt := []
  total : Nat := 0
  got : Nat := 0

namespace Scte35stamp

def payloadStart (pkt : List UInt8) : Nat :=
  if byteAt pkt 3 >>> 4 &&& 0x3 = 0x3 then 4 + (1 + byteAt pkt 4) else 4

/-- `scte35stamp_flush`: what goes out, and the state after it. -/
def flush (s : Scte35stamp) : List Pkt × Scte35stamp := (s.pk, {})

/-- Where the section goes on in a packet: behind the pointer field in the first one. -/
def sectionStart (first : Bool) (pkt : List UInt8) : Nat := payloadStart pkt + if first then 1 else 0

/-- How much of the section is in a packet, with `left` bytes to come. -/
def sectionTake (first : Bool) (pkt : List UInt8) (left : Nat) : Nat := min (188 - sectionStart first pkt) left

/-- The first loop of `patch_and_emit`: the section out of its packets. -/
def gather : Bool → List Pkt → Nat → List UInt8
  | _, [], _ => []
  | first, p :: pk, left =>
    let take := sectionTake first p.bytes left
    (p.bytes.drop (sectionStart first p.bytes)).take take ++ gather false pk (left - take)

/-- The second loop of `patch_and_emit`: the section back into its packets. -/
def scatter : Bool → List Pkt → List UInt8 → List Pkt
  | _, [], _ => []
  | first, p :: pk, sec =>
    let start := sectionStart first p.bytes
    let take := sectionTake first p.bytes sec.length
    { p with bytes := p.bytes.take start ++ sec.take take ++ p.bytes.drop (start + take) } ::
      scatter false pk (sec.drop take)

/-- A section with its time shifted by `delta90k` and a new CRC. -/
def shiftSection (sec : List UInt8) (delta90k : Int) : List UInt8 :=
  let adj := (byteAt sec ptsAdjOffset &&& 1) <<< 32 ||| byteAt sec (ptsAdjOffset + 1) <<< 24 |||
    byteAt sec (ptsAdjOffset + 2) <<< 16 ||| byteAt sec (ptsAdjOffset + 3) <<< 8 |||
    byteAt sec (ptsAdjOffset + 4)
  let adj := (adj + (delta90k % ptsModulus).toNat) % ptsModulus
  let top := UInt8.ofNat (byteAt sec ptsAdjOffset &&& 0xFE ||| (adj >>> 32 &&& 1))
  let sec := sec.take ptsAdjOffset ++ top :: bePut 4 adj ++ sec.drop (ptsAdjOffset + 5)
  let body := sec.take (sec.length - 4)
  body ++ bePut 4 (crc32Mpeg body)

def patchAndEmit (s : Scte35stamp) (delta90k : Int) : List Pkt × Scte35stamp :=
  let sec := (gather true s.pk s.total ++ replicate s.total 0).take s.total
  if crc32Mpeg sec ≠ 0 then s.flush
  else ({ s with pk := scatter true s.pk (shiftSection sec delta90k) } : Scte35stamp).flush

/-- `starts_section`: the length of the section that starts in a packet. -/
def startsSection (pkt : List UInt8) : Option Nat :=
  let st := payloadStart pkt
  if byteAt pkt 1 &&& 0x40 = 0 ∨ st + 4 > 188 ∨ byteAt pkt st ≠ 0 ∨ pkt.getD (st + 1) 0 ≠ tableIdSpliceInfo then
    none
  else
    let total := 3 + ((byteAt pkt (st + 2) &&& 0x0F) <<< 8 ||| byteAt pkt (st + 3))
    if total ≥ sectionMin ∧ total ≤ sectionMax ∧ st + 1 + sectionMin ≤ 188 then some total else none

/-- What is held, then the packet itself. -/
def passThrough (s : Scte35stamp) (p : Pkt) : List Pkt × Scte35stamp := (s.pk ++ [p], {})

/-- The end of `scte35stamp_feed`: the packet is held, and a whole section goes out. -/
def collect (s : Scte35stamp) (p : Pkt) (delta90k : Int) : List Pkt × Scte35stamp :=
  if s.pk.length ≥ scte35MaxPackets then s.passThrough p
  else
    let take := sectionTake (s.pk.length = 0) p.bytes (s.total - s.got)
    let s := { s with pk := s.pk ++ [p], got := s.got + take }
    if s.got ≥ s.total then s.patchAndEmit delta90k else ([], s)

/-- `scte35stamp_feed`. -/
def feed (s : Scte35stamp) (p : Pkt) (delta90k : Int) : List Pkt × Scte35stamp :=
  if byteAt p.bytes 3 >>> 6 ≠ 0 ∨ byteAt p.bytes 3 &&& 0x10 = 0 then s.passThrough p
  else if byteAt p.bytes 1 &&& 0x40 ≠ 0 then
    match startsSection p.bytes with
    | none => s.passThrough p
    | some total =>
      if (total + 1 + 182) / 183 > scte35MaxPackets then s.passThrough p
      else
        let (out, s') := collect { total } p delta90k
        (s.pk ++ out, s')
  else if s.pk.length = 0 then ([p], s)
  else if payloadStart p.bytes ≥ 188 then s.passThrough p
  else s.collect p delta90k

/-! ## Nothing is lost -/

theorem scatter_origin (first : Bool) (pk : List Pkt) (sec : List UInt8) :
    (scatter first pk sec).map Pkt.origin = pk.map Pkt.origin := by
  induction pk generalizing first sec with
  | nil => rfl
  | cons p pk ih => exact congrArg (p.origin :: ·) (ih false _)

end Scte35stamp

end DvbIpiTools.Tvhead

/-! # Splice sections in their packets (`mux/scte35stamp.c`)

What `patch_and_emit` takes out of the held packets, what it changes in the section, and what it puts back: the bytes in
front of the section's place and those behind its end stay, and the section gets its time and its CRC. -/

namespace DvbIpiTools.Tvhead.Scte35stamp

open BeUtil Demux List

/-! ## The place of a section -/

/-- How many bytes the packets have for a section. -/
def room : Bool → List Pkt → Nat
  | _, [] => 0
  | first, p :: pk => (188 - sectionStart first p.bytes) + room false pk

/-- The bytes of the packets from the place of the section on. -/
def payload : Bool → List Pkt → List UInt8
  | _, [] => []
  | first, p :: pk => p.bytes.drop (sectionStart first p.bytes) ++ payload false pk

/-- The bytes in front of it: header, adaptation field, and the pointer in the first packet. -/
def heads : Bool → List Pkt → List (List UInt8)
  | _, [] => []
  | first, p :: pk => p.bytes.take (sectionStart first p.bytes) :: heads false pk

theorem four_le_sectionStart (first : Bool) (pkt : List UInt8) : 4 ≤ sectionStart first pkt := by
  unfold sectionStart payloadStart
  split <;> omega

theorem length_payload {pk : List Pkt} (hlen : ∀ p ∈ pk, p.bytes.length = 188) (first : Bool) :
    (payload first pk).length = room first pk := by
  induction pk generalizing first with
  | nil => rfl
  | cons p pk ih =>
    rw [payload, room, length_append, length_drop, hlen p mem_cons_self,
      ih (fun q hq => hlen q (mem_cons_of_mem p hq)) false]

theorem gather_eq {pk : List Pkt} (hlen : ∀ p ∈ pk, p.bytes.length = 188) (first : Bool) (left : Nat) :
    gather first pk left = (payload first pk).take left := by
  induction pk generalizing first left with
  | nil => rw [gather, payload, take_nil]
  | cons p pk ih =>
    have hdrop : (p.bytes.drop (sectionStart first p.bytes)).length = 188 - sectionStart first p.bytes := by
      rw [length_drop, hlen p mem_cons_self]
    rw [gather, payload, take_append, hdrop, ih (fun q hq => hlen q (mem_cons_of_mem p hq)), sectionTake]
    rcases le_total (188 - sectionStart first p.bytes) left with h | h
    · have hall : ∀ n, 188 - sectionStart first p.bytes ≤ n →
          (p.bytes.drop (sectionStart first p.bytes)).take n = p.bytes.drop (sectionStart first p.bytes) := fun n hn =>
        take_of_length_le (by omega)
      rw [min_eq_left h, hall _ le_rfl, hall _ h]
    · rw [Nat.min_eq_right h, Nat.sub_self, Nat.sub_eq_zero_of_le h]

theorem sectionStart_of_take {first : Bool} {old new : List UInt8}
    (h : new.take (sectionStart first old) = old.take (sectionStart first old)) : sectionStart first new = sectionStart first old := by
  have hbyte : ∀ i < sectionStart first old, byteAt new i = byteAt old i := by
    intro i hi
    have hget := congrArg (fun l => l.getD i 0) h
    simp only [getD_eq_getElem?_getD, getElem?_take_of_lt hi] at hget
    rw [byteAt, byteAt, getD_eq_getElem?_getD, getD_eq_getElem?_getD, hget]
  have hfour := four_le_sectionStart first old
  have h3 := hbyte 3 (by omega)
  by_cases hafc : byteAt old 3 >>> 4 &&& 0x3 = 0x3
  · -- the length of the adaptation field is in front of its end
    have h4 : byteAt new 4 = byteAt old 4 := by
      refine hbyte 4 ?_
      rw [sectionStart, payloadStart, if_pos hafc]
      omega
    rw [sectionStart, sectionStart, payloadStart, payloadStart, h3, h4]
  · rw [sectionStart, sectionStart, payloadStart, payloadStart, h3, if_neg hafc, if_neg hafc]

/-! ## Back into the packets -/

theorem sectionStart_false_le (pkt : List UInt8) (first : Bool) : sectionStart false pkt ≤ sectionStart first pkt := by
  unfold sectionStart
  cases first <;> simp

/-- The second loop puts a section in its place and leaves everything else. -/
theorem scatter_spec {pk : List Pkt} {first : Bool} {sec : List UInt8} (hlen : ∀ p ∈ pk, p.bytes.length = 188)
    (hstart : ∀ p ∈ pk, sectionStart first p.bytes ≤ 188) (hroom : sec.length ≤ room first pk) :
    (∀ p ∈ scatter first pk sec, p.bytes.length = 188) ∧ heads first (scatter first pk sec) = heads first pk ∧
      payload first (scatter first pk sec) = sec ++ (payload first pk).drop sec.length := by
  induction pk generalizing first sec with
  | nil =>
    rw [room, Nat.le_zero, length_eq_zero_iff] at hroom
    subst hroom
    exact ⟨fun p hp => absurd hp (by simp [scatter]), rfl, rfl⟩
  | cons p pk ih =>
    have hp := hlen p mem_cons_self
    have hs := hstart p mem_cons_self
    rw [scatter, sectionTake]
    generalize hst : sectionStart first p.bytes = start at hs ⊢
    have hlow : (p.bytes.take start).length = start := by
      rw [length_take, hp]
      omega
    obtain ⟨hlens, hheads, hpayload⟩ := @ih false (sec.drop (min (188 - start) sec.length))
      (fun q hq => hlen q (mem_cons_of_mem p hq))
      (fun q hq => (sectionStart_false_le q.bytes first).trans (hstart q (mem_cons_of_mem p hq)))
      (by rw [room, hst] at hroom; rw [length_drop]; omega)
    -- what stands in the packet now
    have hnew : sectionStart first (p.bytes.take start ++ sec.take (min (188 - start) sec.length) ++
        p.bytes.drop (start + min (188 - start) sec.length)) = start := by
      have htake : (p.bytes.take start ++ sec.take (min (188 - start) sec.length) ++
          p.bytes.drop (start + min (188 - start) sec.length)).take (sectionStart first p.bytes) =
          p.bytes.take (sectionStart first p.bytes) := by
        rw [hst, append_assoc, take_append_of_le_length (le_of_eq hlow.symm), take_take, min_self]
      rw [sectionStart_of_take htake, hst]
    refine ⟨fun q hq => ?_, ?_, ?_⟩
    · rcases mem_cons.1 hq with rfl | hq
      · simp only [length_append, length_take, length_drop, hp]
        omega
      · exact hlens q hq
    · rw [heads, heads, hheads, hst]
      rw [hnew, append_assoc, take_append_of_le_length (le_of_eq hlow.symm), take_take, min_self]
    · have hback : (p.bytes.take start ++ sec.take (min (188 - start) sec.length) ++
          p.bytes.drop (start + min (188 - start) sec.length)).drop start =
          sec.take (min (188 - start) sec.length) ++ p.bytes.drop (start + min (188 - start) sec.length) := by
        rw [append_assoc]
        exact drop_left' hlow
      rw [payload, payload, hpayload, hst]
      rw [hnew, hback, length_drop, drop_append, length_drop, hp, drop_drop]
      rcases le_total (188 - start) sec.length with h | h
      · -- the section goes on behind this packet
        have hend : ∀ n, 188 ≤ n → p.bytes.drop n = [] := fun n hn => drop_of_length_le (hp ▸ hn)
        rw [min_eq_left h, hend (start + (188 - start)) (by omega), hend (start + sec.length) (by omega),
          append_nil, nil_append, ← append_assoc, take_append_drop]
      · rw [Nat.min_eq_right h, take_length, drop_length, Nat.sub_self, Nat.sub_eq_zero_of_le h, drop_zero,
          nil_append, append_assoc]

/-! ## The section itself -/

def ptsAdjustment (sec : List UInt8) : Nat := byteAt sec 4 % 2 * 2 ^ 32 + beGet sec 5 4

/-- `new` is the section `old` with its time moved by `delta90k` and a CRC to match, and otherwise the same. -/
structure Shifted (delta90k : Int) (old new : List UInt8) : Prop where
  length : new.length = old.length
  time : (ptsAdjustment new : Int) = (ptsAdjustment old + delta90k) % 2 ^ 33
  flags : byteAt new 4 / 2 = byteAt old 4 / 2
  front : new.take 4 = old.take 4
  body : (new.drop 9).take (old.length - 13) = (old.drop 9).take (old.length - 13)
  crc : crc32Mpeg new = 0

theorem ptsAdjustment_eq (sec : List UInt8) : (byteAt sec ptsAdjOffset &&& 1) <<< 32 ||| byteAt sec (ptsAdjOffset + 1) <<< 24 |||
    byteAt sec (ptsAdjOffset + 2) <<< 16 ||| byteAt sec (ptsAdjOffset + 3) <<< 8 ||| byteAt sec (ptsAdjOffset + 4) =
      ptsAdjustment sec := by
  have h5 := byteAt_lt sec 5
  have h6 := byteAt_lt sec 6
  have h7 := byteAt_lt sec 7
  have h8 := byteAt_lt sec 8
  have hor : ∀ x y k : Nat, x % 2 ^ k = 0 → y < 2 ^ k → x ||| y = x + y := by
    intro x y k hx hy
    have h := BitList.shiftLeft_or (v := x / 2 ^ k) hy
    rwa [Nat.shiftLeft_eq, Nat.div_mul_cancel (Nat.dvd_of_mod_eq_zero hx)] at h
  rw [Nat.and_one_is_mod, ptsAdjustment]
  simp only [ptsAdjOffset, Nat.reduceAdd, Nat.shiftLeft_eq, beGet]
  rw [hor (byteAt sec 4 % 2 * 2 ^ 32) (byteAt sec 5 * 2 ^ 24) 32 (by omega) (by omega),
    hor _ (byteAt sec 6 * 2 ^ 16) 24 (by omega) (by omega), hor _ (byteAt sec 7 * 2 ^ 8) 16 (by omega) (by omega),
    hor _ (byteAt sec 8) 8 (by omega) (by omega)]
  omega

theorem top_byte (b : UInt8) (a : Nat) : (UInt8.ofNat (b.toNat &&& 0xFE ||| (a >>> 32 &&& 1))).toNat =
    b.toNat / 2 * 2 + a / 2 ^ 32 % 2 := by
  have h : ∀ n < 256, ∀ c < 2, (UInt8.ofNat (n &&& 0xFE ||| c)).toNat = n / 2 * 2 + c := by decide +kernel
  rw [Nat.and_one_is_mod, Nat.shiftRight_eq_div_pow]
  exact h _ b.toNat_lt _ (Nat.mod_lt _ (by decide))

/-- What `shiftSection` builds, in its parts: `mid` is what stands between the time and the CRC. -/
theorem shiftSection_parts {sec : List UInt8} (hlen : 16 ≤ sec.length) (delta90k : Int) :
    ∃ adj top mid, adj = (ptsAdjustment sec + (delta90k % ptsModulus).toNat) % ptsModulus ∧
      top.toNat = byteAt sec 4 / 2 * 2 + adj / 2 ^ 32 % 2 ∧ mid = (sec.drop 9).take (sec.length - 13) ∧
      shiftSection sec delta90k = (sec.take 4 ++ top :: (bePut 4 adj ++ mid)) ++
        bePut 4 (crc32Mpeg (sec.take 4 ++ top :: (bePut 4 adj ++ mid))) := by
  obtain ⟨adj, hadj⟩ : ∃ adj, adj = (ptsAdjustment sec + (delta90k % ptsModulus).toNat) % ptsModulus := ⟨_, rfl⟩
  obtain ⟨top, htop⟩ : ∃ top, top = UInt8.ofNat (byteAt sec ptsAdjOffset &&& 0xFE ||| (adj >>> 32 &&& 1)) := ⟨_, rfl⟩
  have hfront : (sec.take 4 ++ top :: bePut 4 adj).length = 9 := by
    rw [length_append, length_cons, length_bePut, length_take]
    omega
  have hwhole : (sec.take 4 ++ top :: bePut 4 adj ++ sec.drop 9).length = sec.length := by
    rw [length_append, hfront, length_drop]
    omega
  refine ⟨adj, top, (sec.drop 9).take (sec.length - 13), hadj, htop ▸ top_byte _ adj, rfl, ?_⟩
  have hbody : (sec.take 4 ++ top :: bePut 4 adj ++ sec.drop 9).take (sec.length - 4) =
      sec.take 4 ++ top :: (bePut 4 adj ++ (sec.drop 9).take (sec.length - 13)) := by
    rw [take_append, hfront, take_of_length_le (by rw [hfront]; omega), append_assoc, cons_append, Nat.sub_sub]
  have hshift : shiftSection sec delta90k = (sec.take 4 ++ top :: bePut 4 adj ++ sec.drop 9).take
      ((sec.take 4 ++ top :: bePut 4 adj ++ sec.drop 9).length - 4) ++ bePut 4 (crc32Mpeg
        ((sec.take 4 ++ top :: bePut 4 adj ++ sec.drop 9).take
          ((sec.take 4 ++ top :: bePut 4 adj ++ sec.drop 9).length - 4))) := by
    rw [shiftSection, ptsAdjustment_eq, ← hadj, ← htop]
    rfl
  rw [hshift, hwhole, hbody]

theorem shiftSection_shifted {sec : List UInt8} (hlen : 16 ≤ sec.length) (delta90k : Int) :
    Shifted delta90k sec (shiftSection sec delta90k) := by
  obtain ⟨adj, top, mid, hadj, htop, hmid, hnew⟩ := shiftSection_parts hlen delta90k
  have hfour : (sec.take 4).length = 4 := by
    rw [length_take]
    omega
  have hmidlen : mid.length = sec.length - 13 := by
    rw [hmid, length_take, length_drop]
    omega
  obtain ⟨crc, hcrc⟩ : ∃ crc, crc = bePut 4 (crc32Mpeg (sec.take 4 ++ top :: (bePut 4 adj ++ mid))) := ⟨_, rfl⟩
  have hshape : shiftSection sec delta90k = sec.take 4 ++ (top :: (bePut 4 adj ++ (mid ++ crc))) := by
    rw [hnew, ← hcrc]
    simp only [append_assoc, cons_append]
  have htopbyte : byteAt (shiftSection sec delta90k) 4 = top.toNat := by
    have h := byteAt_append_right (sec.take 4) (top :: (bePut 4 adj ++ (mid ++ crc))) 0
    rw [hfour] at h
    rw [hshape, h]
    rfl
  have hlow : beGet (shiftSection sec delta90k) 5 4 = adj % 256 ^ 4 := by
    have h := beGet_field (sec.take 4 ++ [top]) (mid ++ crc) 4 adj
    rw [length_append, hfour, append_assoc] at h
    rw [hshape]
    exact h
  have hadjlt : adj < 2 ^ 33 := hadj ▸ Nat.mod_lt _ (by decide)
  refine ⟨?_, ?_, ?_, ?_, ?_, ?_⟩
  · rw [hshape]
    simp only [length_append, length_cons, length_bePut, hfour, hmidlen, hcrc]
    omega
  · have hpts : ptsAdjustment (shiftSection sec delta90k) = adj := by
      rw [ptsAdjustment, htopbyte, hlow, htop]
      omega
    have hnonneg : 0 ≤ delta90k % 2 ^ 33 := Int.emod_nonneg _ (by decide)
    rw [hpts, hadj]
    simp only [ptsModulus, Int.natCast_emod, Int.natCast_add, Int.natCast_pow, Nat.cast_ofNat]
    rw [Int.toNat_of_nonneg hnonneg, Int.add_emod_emod]
  · rw [htopbyte, htop]
    omega
  · rw [hshape, take_left' hfour]
  · have hdrop : (sec.take 4 ++ (top :: (bePut 4 adj ++ (mid ++ crc)))).drop 9 = mid ++ crc := by
      have hnine : (sec.take 4 ++ (top :: bePut 4 adj)).length = 9 := by
        rw [length_append, hfour, length_cons, length_bePut]
      rw [show sec.take 4 ++ (top :: (bePut 4 adj ++ (mid ++ crc))) = (sec.take 4 ++ (top :: bePut 4 adj)) ++ (mid ++ crc) by
        simp only [append_assoc, cons_append]]
      exact drop_left' hnine
    rw [hshape, hdrop, take_left' hmidlen, hmid]
  · rw [hnew]
    exact crc32Mpeg_append_self _

end DvbIpiTools.Tvhead.Scte35stamp
