import DvbIpiTools.Fccret.Ratelimit
import DvbIpiTools.Mux.RtcpBuild

set_option autoImplicit false

/-! # Repairs for a NACK (`ret/ret.c`)

A client that asks for lost packets gets each of them that the ring still holds, as long as its tokens last: the first
one is paid for by the token that lets the NACK in. Other threads write the ring, take tokens and send repairs
meanwhile; what they do between the steps of a call is an argument. -/

namespace DvbIpiTools.Fccret

open Net Demux Mux List

/-- `channel_slot_t`. -/
structure ChannelSlot where
  valid : Bool
  seq : UInt16
  timestamp : UInt32
  dscp : UInt8
  payload : List UInt8

/-- A retransmission packet by its fields; `osn` is the number of the packet that it repeats. -/
structure RtxPacket where
  pt : UInt8
  seq : UInt16
  timestamp : UInt32
  ssrc : UInt32
  osn : UInt16
  payload : List UInt8

/-- The part of `channel_t` that repairs look at. -/
structure RepairChannel where
  ssrc : UInt32
  ringSize : Nat

/-- `struct ret_ctx`; the RTX number of the multicast session is the channel's. The channels and the sessions of the
clients are behind what a call is told of them. -/
structure RetCtx where
  rtxPt : UInt8
  limiter : Option Ratelimit
  clientRate : UInt32
  mcDedupMs : UInt32
  limitedTotal : Nat := 0
  dedupKey : Nat → UInt64 := fun _ => 0
  dedupMs : Nat → Int := fun _ => 0
  rtxSeqMc : UInt16 := 0

/-- What else happens during a call, by the step of the call. -/
structure Meanwhile where
  /-- What a read of the ring gives; a read that is raced again and again gives nothing. -/
  slot : Nat → Nat → Option ChannelSlot
  /-- What the other threads have done to the server by then. -/
  others : Nat → RetCtx → RetCtx
  /-- The number that `rtx_session_table_next_seq` hands out to the client. -/
  nextSeq : Nat → UInt16

def retBucketSeconds : UInt32 := 3
def retDedupSlots : Nat := 4096
def retMaxPayload : Nat := 1472

/-- A call of `ret_handle_nack` so far: the tokens it was granted, and what it has sent. -/
structure Repairs where
  ctx : RetCtx
  prepaid : Bool := true
  granted : Nat := 0
  unicast : List RtxPacket := []
  multicast : List RtxPacket := []
  ff : Option (List UInt8) := none

/-- `channel_find`, on what the read of the slot gives. -/
def channelFind (slot : Nat → Option ChannelSlot) (ringSize : Nat) (seq : UInt16) : Option ChannelSlot :=
  if ringSize = 0 then none
  else (slot (seq.toNat % ringSize)).filter fun s => s.valid && s.seq == seq

/-- `rtx_build`, with the buffer that both callers have. -/
def rtxBuild (seq : UInt16) (ssrc : UInt32) (pt : UInt8) (slot : ChannelSlot) : Option RtxPacket :=
  if 12 + 2 + retMaxPayload < 12 + 2 + slot.payload.length then none
  else some ⟨pt, seq, slot.timestamp, ssrc, slot.seq, slot.payload⟩

namespace RetCtx

/-- `note_limited`, without its log. -/
def noteLimited (r : RetCtx) : RetCtx := { r with limitedTotal := r.limitedTotal + 1 }

def mcRecentlyRepaired (r : RetCtx) (ssrc : UInt32) (seq : UInt16) (now : Int) : Bool × RetCtx :=
  let key : UInt64 := ((1 : UInt64) <<< 63) ||| (ssrc.toUInt64 <<< 16) ||| seq.toUInt64
  let i := ((key * 0x9E3779B97F4A7C15) >>> 40).toNat &&& (retDedupSlots - 1)
  if r.mcDedupMs = 0 then (false, r)
  else if r.dedupKey i = key ∧ now - r.dedupMs i < r.mcDedupMs.toNat then (true, r)
  else
    (false, { r with
      dedupKey := fun j => if j = i then key else r.dedupKey j
      dedupMs := fun j => if j = i then now else r.dedupMs j })

/-- `take_budget`: the tokens it was granted. -/
def takeBudget (r : RetCtx) (src : Option Sockaddr) (now : Int) : Nat × RetCtx :=
  let taken := Ratelimit.take r.limiter src r.clientRate.toNat (r.clientRate * retBucketSeconds).toNat 1 now
  (taken.1, { r with limiter := taken.2 })

end RetCtx

/-- The packets that a NACK entry asks for: the one it names, and those of its bits. -/
def asked (e : NackEntry) : List UInt16 :=
  e.pid :: ((range 16).filter fun bit => e.blp.toNat.testBit bit).map fun bit => e.pid + UInt16.ofNat bit + 1

namespace Repairs

def repairOneUnicast (s : Repairs) (c : RepairChannel) (slot : ChannelSlot) (seq : UInt16) : Repairs :=
  { s with unicast := s.unicast ++ (rtxBuild seq c.ssrc s.ctx.rtxPt slot).toList }

def repairOne (s : Repairs) (c : RepairChannel) (slot : ChannelSlot) : Repairs :=
  match rtxBuild s.ctx.rtxSeqMc c.ssrc s.ctx.rtxPt slot with
  | none => s
  | some p => { s with multicast := s.multicast ++ [p], ctx := { s.ctx with rtxSeqMc := s.ctx.rtxSeqMc + 1 } }

/-- Both copies of a repair, the multicast one only when there was none lately. -/
def send (s : Repairs) (c : RepairChannel) (slot : ChannelSlot) (rtxSeq seq : UInt16) (now : Int) : Repairs :=
  let s := s.repairOneUnicast c slot rtxSeq
  let (recent, ctx) := s.ctx.mcRecentlyRepaired c.ssrc seq now
  if recent then { s with ctx } else { s with ctx }.repairOne c slot

/-- `repair_seq`, as step `i` of the call; it gives false when the tokens are out. -/
def repairSeq (w : Meanwhile) (c : RepairChannel) (src : Option Sockaddr) (now : Int) (i : Nat) (seq : UInt16)
    (s : Repairs) : Bool × Repairs :=
  match channelFind (w.slot i) c.ringSize seq with
  | none => (true, s)
  | some slot =>
    if s.prepaid then (true, { s with prepaid := false }.send c slot (w.nextSeq i) seq now)
    else
      let (granted, ctx) := (w.others i s.ctx).takeBudget src now
      let s := { s with ctx, granted := s.granted + granted }
      if granted = 1 then (true, s.send c slot (w.nextSeq i) seq now) else (false, s)

/-- The loops over the entries of a NACK and their bits, from step `i` on: they end where the tokens do. -/
def repairAll (w : Meanwhile) (c : RepairChannel) (src : Option Sockaddr) (now : Int) (i : Nat) :
    List UInt16 → Repairs → Repairs
  | [], s => s
  | seq :: rest, s =>
    match s.repairSeq w c src now i seq with
    | (true, s) => repairAll w c src now (i + 1) rest s
    | (false, s) => { s with ctx := s.ctx.noteLimited }

end Repairs

/-- `ret_handle_nack`, with the channel that `channel_find_by_ssrc` found. -/
def retHandleNack (w : Meanwhile) (r : RetCtx) (c : Option RepairChannel) (nack : RtcpNack) (src : Option Sockaddr)
    (now : Int) : Repairs :=
  match c with
  | none => { ctx := r }
  | some c =>
    let (granted, r) := r.takeBudget src now
    if granted = 1 then
      let ff := rtcpBuildFf nack.senderSsrc nack.mediaSsrc nack.entries (12 + 4 * rtcpNackMaxEntries)
      Repairs.repairAll w c src now 0 (nack.entries.flatMap asked) { ctx := r, granted, ff }
    else { ctx := r.noteLimited, granted }

/-! ## No repair without a token -/

namespace Repairs

/-- What every step of a call keeps: a packet sent to the client has used up a token, and was asked for. -/
structure Paid (asked : List UInt16) (s : Repairs) : Prop where
  count : s.unicast.length + (if s.prepaid then 1 else 0) ≤ s.granted
  wanted : ∀ p ∈ s.unicast, p.osn ∈ asked

/-- A packet to the client may go out. -/
structure Funded (asked : List UInt16) (s : Repairs) : Prop where
  count : s.unicast.length + 1 + (if s.prepaid then 1 else 0) ≤ s.granted
  wanted : ∀ p ∈ s.unicast, p.osn ∈ asked

variable {asked : List UInt16} {s : Repairs} {seq : UInt16} {slot : ChannelSlot}

theorem channelFind_seq {slots : Nat → Option ChannelSlot} {ringSize : Nat}
    (h : channelFind slots ringSize seq = some slot) : slot.seq = seq := by
  unfold channelFind at h
  split at h
  · cases h
  · obtain ⟨-, hfits⟩ := Option.filter_eq_some_iff.1 h
    simp only [Bool.and_eq_true, beq_iff_eq] at hfits
    exact hfits.2

theorem rtxBuild_osn {ssrc : UInt32} {pt : UInt8} {p : RtxPacket}
    (h : p ∈ (rtxBuild seq ssrc pt slot).toList) : p.osn = slot.seq := by
  unfold rtxBuild at h
  split at h
  · cases h
  · rw [Option.toList_some, mem_singleton] at h
    rw [h]

theorem send_unicast (s : Repairs) (c : RepairChannel) (slot : ChannelSlot) (rtxSeq seq : UInt16) (now : Int) :
    (s.send c slot rtxSeq seq now).unicast = (s.repairOneUnicast c slot rtxSeq).unicast ∧
      (s.send c slot rtxSeq seq now).prepaid = s.prepaid ∧ (s.send c slot rtxSeq seq now).granted = s.granted := by
  unfold send
  dsimp only
  split
  · exact ⟨rfl, rfl, rfl⟩
  · unfold repairOne
    split
    · exact ⟨rfl, rfl, rfl⟩
    · exact ⟨rfl, rfl, rfl⟩

theorem Funded.send (h : s.Funded asked) (c : RepairChannel) (hslot : slot.seq ∈ asked)
    (rtxSeq seq : UInt16) (now : Int) : (s.send c slot rtxSeq seq now).Paid asked := by
  obtain ⟨hunicast, hprepaid, hgranted⟩ := send_unicast s c slot rtxSeq seq now
  have hlen : (rtxBuild rtxSeq c.ssrc s.ctx.rtxPt slot).toList.length ≤ 1 := by
    cases rtxBuild rtxSeq c.ssrc s.ctx.rtxPt slot <;> simp
  constructor
  · rw [hunicast, hprepaid, hgranted, repairOneUnicast, length_append]
    have := h.count
    omega
  · intro p hp
    rw [hunicast, repairOneUnicast, mem_append] at hp
    rcases hp with hp | hp
    · exact h.wanted p hp
    · exact rtxBuild_osn hp ▸ hslot

theorem Paid.repairSeq (h : s.Paid asked) (w : Meanwhile) (c : RepairChannel) (src : Option Sockaddr) (now : Int)
    (i : Nat) (hseq : seq ∈ asked) : (s.repairSeq w c src now i seq).2.Paid asked := by
  unfold Repairs.repairSeq
  split
  · exact h
  rename_i slot hfind
  have hslot : slot.seq ∈ asked := channelFind_seq hfind ▸ hseq
  split
  · -- the token that let the NACK in
    rename_i hprepaid
    have hcount := h.count
    rw [if_pos hprepaid] at hcount
    have hfunded : Funded asked { s with prepaid := false } := ⟨by simpa using hcount, h.wanted⟩
    exact hfunded.send c hslot _ _ _
  dsimp only
  split
  · rename_i hgranted
    have hcount := h.count
    have hfunded : Funded asked { s with
        ctx := ((w.others i s.ctx).takeBudget src now).2
        granted := s.granted + ((w.others i s.ctx).takeBudget src now).1 } := ⟨by dsimp only; omega, h.wanted⟩
    exact hfunded.send c hslot _ _ _
  · exact ⟨h.count.trans (Nat.le_add_right _ _), h.wanted⟩

theorem Paid.repairAll (h : s.Paid asked) (w : Meanwhile) (c : RepairChannel) (src : Option Sockaddr) (now : Int)
    (i : Nat) {seqs : List UInt16} (hseqs : ∀ seq ∈ seqs, seq ∈ asked) :
    (s.repairAll w c src now i seqs).Paid asked := by
  induction seqs generalizing s i with
  | nil => exact h
  | cons seq rest ih =>
    have hstep := h.repairSeq w c src now i (hseqs seq mem_cons_self)
    unfold Repairs.repairAll
    split
    · rename_i s' hs'
      rw [hs'] at hstep
      exact ih hstep (i + 1) fun seq hseq => hseqs seq (.tail _ hseq)
    · rename_i s' hs'
      rw [hs'] at hstep
      exact ⟨hstep.count, hstep.wanted⟩

end Repairs

/-- A NACK is answered with no more packets than tokens, and with none that it did not ask for. -/
theorem retHandleNack_paid (w : Meanwhile) (r : RetCtx) (c : Option RepairChannel) (nack : RtcpNack)
    (src : Option Sockaddr) (now : Int) : let s := retHandleNack w r c nack src now
    s.unicast.length ≤ s.granted ∧ ∀ p ∈ s.unicast, p.osn ∈ nack.entries.flatMap asked := by
  unfold retHandleNack
  split
  · exact ⟨le_rfl, nofun⟩
  rename_i c
  dsimp only
  split
  · rename_i hgranted
    have hfirst : Repairs.Paid (nack.entries.flatMap asked)
        { ctx := (r.takeBudget src now).2, granted := (r.takeBudget src now).1,
          ff := rtcpBuildFf nack.senderSsrc nack.mediaSsrc nack.entries (12 + 4 * rtcpNackMaxEntries) } :=
      ⟨by simp [hgranted], nofun⟩
    have hall := hfirst.repairAll w c src now 0 fun _ hseq => hseq
    exact ⟨(Nat.le_add_right _ _).trans hall.count, hall.wanted⟩
  · exact ⟨Nat.zero_le _, nofun⟩

/-! ## The limit -/

open Ratelimit in
/-- After any run the buckets are neither overdrawn nor overfull, and from `t0` to `t1` a client that has its slot for
itself gets no more than a full bucket and what flows in; and no NACK is answered with more than it was granted. -/
theorem repairs_limited {rate burst : Nat} (hrate : 0 < rate) (slots : Nat) (seed : UInt64) (before span : List Request)
    (k : LimitKey) {t0 t1 : Int} (ht : t0 ≤ t1) (halone : (new slots seed).Alone k span)
    (hsorted : span.Pairwise fun q q' => q.nowMs ≤ q'.nowMs) (hspan : ∀ q ∈ span, t0 ≤ q.nowMs ∧ q.nowMs ≤ t1) :
    (∃ t, run rate burst (some (new slots seed)) before = some t ∧
      ∀ i, 0 ≤ (t.slots i).tokens ∧ (t.slots i).tokens ≤ (max 1 burst : Nat)) ∧
    (granted rate burst k (run rate burst (some (new slots seed)) before) span : ℚ) ≤
      (max 1 burst : Nat) + rate * ((t1 - t0 : Int) / 1000) ∧
    ∀ w r c nack src now, (retHandleNack w r c nack src now).unicast.length ≤ (retHandleNack w r c nack src now).granted ∧
      ∀ p ∈ (retHandleNack w r c nack src now).unicast, p.osn ∈ nack.entries.flatMap asked := by
  have hsize : size burst = max 1 burst := by
    unfold size
    split <;> omega
  have hnew : (new slots seed).Within burst := within_new slots seed
  obtain ⟨t, hrun, hwithin, hindex⟩ := hnew.run hrate before
  refine ⟨⟨t, hrun, fun i => hsize ▸ hwithin i⟩, ?_, fun w r c nack src now => retHandleNack_paid w r c nack src now⟩
  have halone' : t.Alone k span := fun q hq k' hk' hne => by
    rw [hindex, hindex]
    exact halone q hq k' hk' hne
  have hgranted := granted_le hrate hwithin ht halone' hsorted hspan
  have hfull : t.available rate burst k t0 ≤ size burst := available_le hwithin t0
  rw [hrun, ← hsize, Int.cast_sub]
  calc (granted rate burst k (some t) span : ℚ)
      ≤ t.available rate burst k t0 + (t1 - t0) * (rate / 1000) := hgranted
    _ ≤ size burst + (t1 - t0) * (rate / 1000) := add_le_add_left hfull _
    _ = size burst + rate * ((t1 - t0) / 1000) := by ring

section Examples

open Ratelimit

/-- The client 10.0.0.1 with its requests for six packets, at the start and after a second. -/
def limitedClient : Option Sockaddr := some (.inet ⟨#[10, 0, 0, 1], rfl⟩ 5004)

def limitedKey : LimitKey := (afInet, [10, 0, 0, 1, 0, 0, 0, 0])

def limitedSpan : List Request := [⟨limitedClient, 6, 0⟩, ⟨limitedClient, 6, 1000⟩]

theorem limitedSpan_alone (slots : Nat) (seed : UInt64) : (new slots seed).Alone limitedKey limitedSpan := by
  intro q hq k' hk' hne
  have haddr : q.addr = limitedClient := by
    simp only [limitedSpan, mem_cons, not_mem_nil, or_false] at hq
    rcases hq with rfl | rfl
    · rfl
    · rfl
  rw [haddr] at hk'
  exact absurd (Option.some.inj hk').symm hne

/-- The bound is met: a full bucket of six, and two in the second after. -/
theorem repairs_limited_two : granted 2 6 limitedKey (run 2 6 (some (new 16 0)) []) limitedSpan = 8 ∧
    (granted 2 6 limitedKey (run 2 6 (some (new 16 0)) []) limitedSpan : ℚ) ≤
      (max 1 6 : Nat) + (2 : Nat) * ((1000 - 0 : Int) / 1000) := by
  refine ⟨by decide +kernel, (repairs_limited (by decide) 16 0 [] limitedSpan limitedKey (by decide)
    (limitedSpan_alone 16 0) ?_ ?_).2.1⟩
  · simp [limitedSpan]
  · simp [limitedSpan]

/-- With a rate of 0 there is no limit. -/
theorem granted_unlimited :
    ¬∀ (rate burst slots : Nat) (seed : UInt64) (span : List Request) (k : LimitKey) (t0 t1 : Int), t0 ≤ t1 →
      (new slots seed).Alone k span → (span.Pairwise fun q q' => q.nowMs ≤ q'.nowMs) →
      (∀ q ∈ span, t0 ≤ q.nowMs ∧ q.nowMs ≤ t1) →
      (granted rate burst k (some (new slots seed)) span : ℚ) ≤ burst + rate * ((t1 - t0 : Int) / 1000) := by
  intro h
  have hbound := h 0 6 16 0 limitedSpan limitedKey 0 1000 (by decide) (limitedSpan_alone 16 0)
    (by simp [limitedSpan]) (by simp [limitedSpan])
  have hgranted : granted 0 6 limitedKey (some (new 16 0)) limitedSpan = 12 := by decide
  rw [hgranted] at hbound
  norm_num at hbound

end Examples

end DvbIpiTools.Fccret
