import DvbIpiTools.Demux.Rtcp
import DvbIpiTools.Fccret.RetClient

set_option autoImplicit false

/-! # Fast channel change client (`fccret/fcc_client.c`)

The clock is any type with the test whether `FCC_BURST_END_WAIT_S` has passed. The ring of queued packets is the
list of its used part, and `pending_len` is 0 where there is no pending packet. RAMS-T messages are logged. Not part
of the program is what is kept for the proofs: which packet a payload belongs to, and the packets that came on the
two sockets. -/

namespace DvbIpiTools.Fccret

open BeUtil Demux

def fccPendingCap : Nat := 65536

def fccQueueSlots : Nat := 1024

def fccQueueSlotBytes : Nat := 1500

/-- A payload with the packet it came in: the socket, the (original) sequence number, and for a burst packet the
first multicast sequence number if that was known when it came. -/
structure FccPacket where
  multicast : Bool
  seq : Nat
  first : Option Nat := none
  data : List UInt8

/-- The payload type of the burst, the SSRC of the client and the clock. -/
structure FccConfig (τ : Type) where
  rtxPt : Nat
  senderSsrc : UInt32
  waited : τ → τ → Bool

/-- `struct fcc_client`. -/
structure FccClient (τ : Type) where
  done : Bool := false
  rejected : Bool := false
  terminating : Bool := false
  firstMcSeq : Nat := 0
  haveOsn : Bool := false
  lastOsn : Nat := 0
  termAt : Option τ := none
  allocated : Bool := false
  queue : List FccPacket := []
  pending : Option FccPacket := none
  terms : List RamsT := []
  bursts : List FccPacket := []
  received : List FccPacket := []
  refused : List FccPacket := []

namespace FccClient

variable {τ : Type}

/-- `(int16_t)(a - b) >= 0`. -/
def notBefore (a b : Nat) : Bool := decide ((a + 65536 - b) % 65536 < 32768)

/-- `rams_i_cb`, among the callbacks of `rtcp_parse`. -/
def onRtcp (r : FccClient τ) : RtcpEvent → FccClient τ
  | .ramsI info => if info.response ≠ 100 ∧ info.response ≠ 200 then { r with rejected := true, done := true } else r
  | _ => r

/-- `fcc_check_splice`. -/
def checkSplice (cfg : FccConfig τ) (r : FccClient τ) (now : τ) : FccClient τ :=
  if !r.terminating || r.done then r
  else if (r.haveOsn && notBefore ((r.lastOsn + 1) % 65536) r.firstMcSeq) || r.termAt.any (cfg.waited now) then
    { r with done := true }
  else r

/-- A payload becomes the pending one. -/
def setPending (r : FccClient τ) (p : FccPacket) : FccClient τ :=
  { r with pending := if p.data = [] then none else some p }

/-- `fcc_on_uni`. -/
def onUni (cfg : FccConfig τ) (r : FccClient τ) (pkt : List UInt8) (now : τ) : FccClient τ :=
  if pkt.length < 2 then r
  else if 192 ≤ byteAt pkt 1 ∧ byteAt pkt 1 ≤ 223 then ((rtcpParse pkt).getD []).foldl onRtcp r
  else if r.done then r
  else match rtxParse pkt cfg.rtxPt with
    | none => r
    | some rx =>
      if rx.payload.length > fccPendingCap then r
      else if r.terminating && notBefore rx.osn r.firstMcSeq then r
      else
        let p : FccPacket := ⟨false, rx.osn, if r.terminating then some r.firstMcSeq else none, rx.payload⟩
        checkSplice cfg { r.setPending p with
          lastOsn := rx.osn
          haveOsn := true
          bursts := r.bursts ++ [p] } now

/-- `queue_push`; `memory` is whether `calloc` succeeds. -/
def queuePush (r : FccClient τ) (p : FccPacket) (memory : Bool) : Option (FccClient τ) :=
  if p.data.length > fccQueueSlotBytes ∨ r.queue.length = fccQueueSlots then none
  else if r.allocated || memory then some { r with allocated := true, queue := r.queue ++ [p] }
  else none

/-- The first multicast packet ends the burst with a RAMS-T message. -/
def terminate (cfg : FccConfig τ) (r : FccClient τ) (h : RtpHdr) (now : τ) : FccClient τ :=
  if r.terminating then r
  else { r with
    terms := r.terms ++ [⟨cfg.senderSsrc, UInt32.ofNat h.ssrc, some (UInt32.ofNat h.seq)⟩]
    terminating := true
    firstMcSeq := h.seq
    termAt := some now }

/-- `fcc_on_multicast`. -/
def onMulticast (cfg : FccConfig τ) (r : FccClient τ) (h : RtpHdr) (payload : List UInt8) (now : τ) (memory : Bool) :
    FccClient τ :=
  if r.done then r
  else
    let p : FccPacket := ⟨true, h.seq, none, payload⟩
    let r := { r.terminate cfg h now with received := r.received ++ [p] }
    match r.queuePush p memory with
    | some r => checkSplice cfg r now
    | none =>
      let r := { r with done := true, refused := r.refused ++ [p] }
      if r.pending.isSome then r else r.setPending { p with data := payload.take fccPendingCap }

/-- `fcc_client_done`. -/
def isDone (r : FccClient τ) : Bool := r.done && r.pending.isNone && r.queue.isEmpty

/-- What a call of `fcc_client_read` meets: whether poll or the main socket fails, the datagrams on the two sockets,
the clock after poll and whether `calloc` succeeds. -/
structure FccInput (τ : Type) where
  fails : Bool := false
  main : Option (List UInt8) := none
  uni : Option (List UInt8) := none
  now : τ
  memory : Bool := true

/-- A datagram of the main socket. -/
def onMain (cfg : FccConfig τ) (r : FccClient τ) (i : FccInput τ) : FccClient τ := match i.main with
  | none => r
  | some d => match rtpParseHeader d with
    | none => r
    | some h => if d.length > h.payloadOff then onMulticast cfg r h (d.drop h.payloadOff) i.now i.memory else r

/-- What `fcc_client_read` does between its two looks at the packets that are there. -/
def process (cfg : FccConfig τ) (r : FccClient τ) (i : FccInput τ) : FccClient τ :=
  let r := onMain cfg r i
  checkSplice cfg (match i.uni with
    | none => r
    | some d => if d = [] then r else onUni cfg r d i.now) i.now

/-- The packet the caller gets: the pending one, or once the burst is done the first in the queue. -/
def take (r : FccClient τ) (cap : Nat) : Option (FccPacket × List UInt8) × FccClient τ := match r.pending with
  | some p => (some (p, p.data.take cap), { r with pending := none })
  | none => match r.queue with
    | [] => (none, r)
    | p :: rest => if r.done then (some (p, p.data.take cap), { r with queue := rest }) else (none, r)

/-- `fcc_client_read`. -/
def read (cfg : FccConfig τ) (r : FccClient τ) (cap : Nat) (i : FccInput τ) :
    Option (FccPacket × List UInt8) × FccClient τ :=
  if r.pending.isSome || (r.done && !r.queue.isEmpty) then r.take cap
  else if i.fails then (none, r)
  else (process cfg r i).take cap

/-- The client in `capture_read_dispatch`, which closes it when it is done, and the packets it has returned. -/
structure Serving (τ : Type) where
  client : FccClient τ := {}
  closed : Bool := false
  out : List (FccPacket × List UInt8) := []

/-- The case `CAP_RD_FCC` of `capture_read_dispatch`. -/
def Serving.step (cfg : FccConfig τ) (s : Serving τ) (c : Nat × FccInput τ) : Serving τ :=
  if s.closed then s
  else
    let (x, r) := read cfg s.client c.1 c.2
    { client := r, closed := r.isDone, out := s.out ++ x.toList }

/-- The reads one after the other. -/
def run (cfg : FccConfig τ) (calls : List (Nat × FccInput τ)) : Serving τ := calls.foldl (Serving.step cfg) {}

end FccClient

/-! # The hand-over from the burst to the multicast stream

While the burst runs only its packets are returned, and the multicast packets wait in the queue; once it is done no
more burst packet is taken. So the two streams are returned one after the other, as long as every multicast packet
finds room in the queue. -/

open List

namespace FccClient

variable {τ : Type}

/-- What every call keeps while no multicast packet is refused; `out` is what the caller has got so far: burst
packets, and behind them multicast packets, of which the queue holds the rest. -/
structure Spliced (out : List FccPacket) (r : FccClient τ) : Prop where
  bursts : ∀ p ∈ r.bursts, p.multicast = false ∧
    ∀ f, p.first = some f → r.received.head?.map FccPacket.seq = some f ∧ notBefore p.seq f = false
  received : ∀ p ∈ r.received, p.multicast = true
  first : r.terminating = true → r.received.head?.map FccPacket.seq = some r.firstMcSeq
  fresh : r.terminating = false → r.received = []
  split : ∃ b m, out = b ++ m ∧ (b ++ r.pending.toList).Sublist r.bursts ∧ m ++ r.queue = r.received ∧
    (m ≠ [] → r.done = true ∧ r.pending = none)

namespace Spliced

variable {out : List FccPacket} {r : FccClient τ}

theorem initial : Spliced [] ({} : FccClient τ) where
  bursts := nofun
  received := nofun
  first := nofun
  fresh := fun _ => rfl
  split := ⟨[], [], rfl, Sublist.refl _, rfl, absurd rfl⟩

variable (h : Spliced out r)

include h

theorem finish (rejected : Bool) : Spliced out { r with done := true, rejected := rejected } := by
  obtain ⟨b, m, hout, hsub, hqueue, hdone⟩ := h.split
  exact ⟨h.bursts, h.received, h.first, h.fresh, b, m, hout, hsub, hqueue, fun hm => ⟨rfl, (hdone hm).2⟩⟩

theorem checkSplice (cfg : FccConfig τ) (now : τ) : Spliced out (checkSplice cfg r now) := by
  unfold FccClient.checkSplice
  split
  · exact h
  · split
    · exact h.finish r.rejected
    · exact h

theorem onRtcp (events : List RtcpEvent) : Spliced out (events.foldl FccClient.onRtcp r) := by
  induction events generalizing r with
  | nil => exact h
  | cons e rest ih =>
    refine ih ?_
    unfold FccClient.onRtcp
    split
    · split
      · exact h.finish true
      · exact h
    · exact h

theorem of_running (hrun : r.done = false) :
    (out ++ r.pending.toList).Sublist r.bursts ∧ r.queue = r.received := by
  obtain ⟨b, m, rfl, hsub, hqueue, hdone⟩ := h.split
  cases m with
  | nil => exact ⟨by rwa [append_nil], hqueue⟩
  | cons p rest =>
    have hover := (hdone (cons_ne_nil p rest)).1
    rw [hrun] at hover
    cases hover

theorem onUni (hnone : r.pending = none) (cfg : FccConfig τ) (pkt : List UInt8) (now : τ) :
    Spliced out (onUni cfg r pkt now) := by
  unfold FccClient.onUni
  split
  · exact h
  split
  · exact h.onRtcp _
  split
  · exact h
  rename_i hrun
  split
  · exact h
  rename_i rx _
  split
  · exact h
  split
  · exact h
  rename_i hlate
  obtain ⟨hsub, hqueue⟩ := h.of_running (by simpa using hrun)
  rw [hnone, Option.toList_none, append_nil] at hsub
  refine Spliced.checkSplice ?_ cfg now
  refine ⟨?_, h.received, h.first, h.fresh, out, [], (append_nil out).symm, ?_, hqueue, absurd rfl⟩
  · intro p hp
    rcases mem_append.1 hp with hp | hp
    · exact h.bursts p hp
    rw [mem_singleton.1 hp]
    refine ⟨rfl, fun f hf => ?_⟩
    split at hf
    · rename_i hterm
      cases hf
      rw [hterm, Bool.true_and, Bool.not_eq_true] at hlate
      exact ⟨h.first hterm, hlate⟩
    · cases hf
  · simp only [setPending]
    split
    · rw [Option.toList_none, append_nil]
      exact hsub.trans (sublist_append_left _ _)
    · exact hsub.append (Sublist.refl _)

theorem terminate (cfg : FccConfig τ) (hd : RtpHdr) (now : τ) (p : FccPacket) (hmc : p.multicast = true)
    (hseq : p.seq = hd.seq) (hrun : r.done = false) (hroom : Bool) : Spliced out { r.terminate cfg hd now with
      received := r.received ++ [p], allocated := hroom, queue := r.queue ++ [p] } := by
  obtain ⟨hsub, hqueue⟩ := h.of_running hrun
  have hreceived : ∀ q ∈ r.received ++ [p], q.multicast = true := by
    intro q hq
    rcases mem_append.1 hq with hq | hq
    · exact h.received q hq
    · rw [mem_singleton.1 hq]
      exact hmc
  have hhead : ∀ f, r.received.head?.map FccPacket.seq = some f →
      (r.received ++ [p]).head?.map FccPacket.seq = some f := by
    intro f hf
    cases hlist : r.received with
    | nil => rw [hlist] at hf; cases hf
    | cons q rest => rw [hlist] at hf; exact hf
  have hbursts : ∀ q ∈ r.bursts, q.multicast = false ∧
      ∀ f, q.first = some f → (r.received ++ [p]).head?.map FccPacket.seq = some f ∧ notBefore q.seq f = false := by
    intro q hq
    exact ⟨(h.bursts q hq).1, fun f hf => ⟨hhead f ((h.bursts q hq).2 f hf).1, ((h.bursts q hq).2 f hf).2⟩⟩
  have hsplit : out = out ++ [] ∧ (out ++ r.pending.toList).Sublist r.bursts ∧
      [] ++ (r.queue ++ [p]) = r.received ++ [p] :=
    ⟨(append_nil out).symm, hsub, by rw [hqueue, nil_append]⟩
  unfold FccClient.terminate
  split
  · rename_i hterm
    exact ⟨hbursts, hreceived, fun _ => hhead _ (h.first hterm), fun hno => absurd (hterm.symm.trans hno) (by decide),
      out, [], hsplit.1, hsplit.2.1, hsplit.2.2, absurd rfl⟩
  rename_i hterm
  have hempty : r.received = [] := h.fresh (by simpa using hterm)
  refine ⟨hbursts, hreceived, fun _ => ?_, nofun, out, [], hsplit.1, hsplit.2.1, hsplit.2.2, absurd rfl⟩
  rw [hempty, ← hseq]
  rfl

omit h

end Spliced

/-! ## One call -/

variable (cfg : FccConfig τ)

theorem refused_checkSplice (r : FccClient τ) (now : τ) :
    (checkSplice cfg r now).refused = r.refused ∧ (checkSplice cfg r now).pending = r.pending := by
  unfold checkSplice
  split
  · exact ⟨rfl, rfl⟩
  · split
    · exact ⟨rfl, rfl⟩
    · exact ⟨rfl, rfl⟩

theorem refused_onRtcp (events : List RtcpEvent) (r : FccClient τ) : (events.foldl onRtcp r).refused = r.refused := by
  induction events generalizing r with
  | nil => rfl
  | cons e rest ih =>
    rw [foldl_cons, ih]
    unfold onRtcp
    split
    · split
      · rfl
      · rfl
    · rfl

theorem refused_onUni (r : FccClient τ) (pkt : List UInt8) (now : τ) : (onUni cfg r pkt now).refused = r.refused := by
  unfold onUni
  split
  · rfl
  split
  · exact refused_onRtcp _ r
  split
  · rfl
  split
  · rfl
  · split
    · rfl
    · split
      · rfl
      · exact (refused_checkSplice cfg _ now).1

theorem terminate_frame (r : FccClient τ) (h : RtpHdr) (now : τ) :
    (r.terminate cfg h now).refused = r.refused ∧ (r.terminate cfg h now).pending = r.pending ∧
      (r.terminate cfg h now).queue = r.queue := by
  unfold terminate
  split
  · exact ⟨rfl, rfl, rfl⟩
  · exact ⟨rfl, rfl, rfl⟩

theorem queuePush_eq {r r' : FccClient τ} {p : FccPacket} {memory : Bool} (h : r.queuePush p memory = some r') :
    r' = { r with allocated := true, queue := r.queue ++ [p] } := by
  unfold queuePush at h
  split at h
  · cases h
  · split at h
    · exact (Option.some.inj h).symm
    · cases h

variable {out : List FccPacket} {r : FccClient τ}

theorem onMulticast_spec (hnone : r.pending = none) (hrun : r.done = false) (cfg : FccConfig τ) (h : RtpHdr)
    (payload : List UInt8) (now : τ) (memory : Bool)
    (hroom : (onMulticast cfg r h payload now memory).refused = []) :
    r.refused = [] ∧ (onMulticast cfg r h payload now memory).pending = none ∧
      (Spliced out r → Spliced out (onMulticast cfg r h payload now memory)) := by
  obtain ⟨hrefused, hpending, hqueue⟩ := terminate_frame cfg r h now
  unfold onMulticast at hroom ⊢
  rw [hrun] at hroom ⊢
  simp only [Bool.false_eq_true, if_false] at hroom ⊢
  cases hpush : queuePush { r.terminate cfg h now with received := r.received ++ [⟨true, h.seq, none, payload⟩] }
      ⟨true, h.seq, none, payload⟩ memory with
  | some r' =>
    simp only [hpush] at hroom ⊢
    rw [queuePush_eq hpush] at hroom ⊢
    obtain ⟨hr, hp⟩ := refused_checkSplice cfg { r.terminate cfg h now with
      received := r.received ++ [⟨true, h.seq, none, payload⟩]
      allocated := true
      queue := (r.terminate cfg h now).queue ++ [⟨true, h.seq, none, payload⟩] } now
    refine ⟨hrefused.symm.trans (hr.symm.trans hroom), hp.trans (hpending.trans hnone), fun hs => ?_⟩
    rw [hqueue]
    exact (hs.terminate cfg h now ⟨true, h.seq, none, payload⟩ rfl rfl hrun true).checkSplice cfg now
  | none =>
    -- a refused packet stays on record
    exfalso
    simp only [hpush] at hroom
    split at hroom
    · exact absurd hroom (by simp)
    · exact absurd hroom (by simp [setPending])

theorem onMain_spec (hnone : r.pending = none) (hrun : r.done = false) (cfg : FccConfig τ) (i : FccInput τ)
    (hroom : (onMain cfg r i).refused = []) :
    r.refused = [] ∧ (onMain cfg r i).pending = none ∧ (Spliced out r → Spliced out (onMain cfg r i)) := by
  unfold onMain at hroom ⊢
  split at hroom
  · exact ⟨hroom, hnone, id⟩
  split at hroom
  · exact ⟨hroom, hnone, id⟩
  split at hroom
  · rename_i hlen
    rw [if_pos hlen]
    exact onMulticast_spec hnone hrun cfg _ _ _ _ hroom
  · rename_i hlen
    rw [if_neg hlen]
    exact ⟨hroom, hnone, id⟩

theorem process_spec (hnone : r.pending = none) (hrun : r.done = false) (cfg : FccConfig τ) (i : FccInput τ)
    (hroom : (process cfg r i).refused = []) :
    r.refused = [] ∧ (Spliced out r → Spliced out (process cfg r i)) := by
  unfold process at hroom ⊢
  dsimp only at hroom ⊢
  rw [(refused_checkSplice cfg _ i.now).1] at hroom
  split at hroom
  · obtain ⟨hrefused, -, hs⟩ := @onMain_spec τ out _ hnone hrun cfg i hroom
    exact ⟨hrefused, fun h => (hs h).checkSplice cfg i.now⟩
  split at hroom
  · rename_i hempty
    obtain ⟨hrefused, -, hs⟩ := @onMain_spec τ out _ hnone hrun cfg i hroom
    rw [if_pos hempty]
    exact ⟨hrefused, fun h => (hs h).checkSplice cfg i.now⟩
  · rename_i hempty
    rw [refused_onUni] at hroom
    obtain ⟨hrefused, hpending, hs⟩ := @onMain_spec τ out _ hnone hrun cfg i hroom
    rw [if_neg hempty]
    exact ⟨hrefused, fun h => ((hs h).onUni hpending cfg _ i.now).checkSplice cfg i.now⟩

theorem take_spec (cap : Nat) :
    (r.take cap).2.refused = r.refused ∧ (∀ x ∈ (r.take cap).1, x.2 = x.1.data.take cap) ∧
      (Spliced out r → Spliced (out ++ (r.take cap).1.toList.map Prod.fst) (r.take cap).2) := by
  unfold take
  cases hp : r.pending with
  | some p =>
    refine ⟨rfl, fun x hx => ?_, fun h => ?_⟩
    · rw [← Option.some.inj hx]
    obtain ⟨b, m, rfl, hsub, hqueue, hdone⟩ := h.split
    have hm : m = [] := by
      by_contra hm
      have hnone := (hdone hm).2
      rw [hp] at hnone
      cases hnone
    refine ⟨h.bursts, h.received, h.first, h.fresh, b ++ [p], [], ?_, ?_, ?_, absurd rfl⟩
    · rw [hm, append_nil, append_nil]
      rfl
    · rw [hp] at hsub
      rw [Option.toList_none, append_nil]
      exact hsub
    · rw [hm] at hqueue
      exact hqueue
  | none =>
    cases hq : r.queue with
    | nil => exact ⟨rfl, fun x hx => absurd hx (by simp), fun h => by simpa using h⟩
    | cons q rest =>
      dsimp only
      split
      · rename_i hdone
        refine ⟨rfl, fun x hx => ?_, fun h => ?_⟩
        · rw [← Option.some.inj hx]
        obtain ⟨b, m, rfl, hsub, hqueue, -⟩ := h.split
        rw [hp] at hsub
        refine ⟨h.bursts, h.received, h.first, h.fresh, b, m ++ [q], append_assoc b m [q], hsub, ?_,
          fun _ => ⟨hdone, rfl⟩⟩
        rw [hq] at hqueue
        rw [← hqueue, append_assoc]
        rfl
      · exact ⟨rfl, fun x hx => absurd hx (by simp), fun h => by simpa using h⟩

theorem read_spec (hopen : r.isDone = false) (cfg : FccConfig τ) (cap : Nat) (i : FccInput τ)
    (hroom : (read cfg r cap i).2.refused = []) :
    r.refused = [] ∧ (∀ x ∈ (read cfg r cap i).1, x.2 = x.1.data.take cap) ∧
      (Spliced out r → Spliced (out ++ (read cfg r cap i).1.toList.map Prod.fst) (read cfg r cap i).2) := by
  unfold read at hroom ⊢
  split at hroom
  · rename_i hthere
    rw [if_pos hthere]
    obtain ⟨hrefused, hbytes, hs⟩ := @take_spec τ out r cap
    exact ⟨hrefused.symm.trans hroom, hbytes, hs⟩
  rename_i hthere
  rw [if_neg hthere]
  split at hroom
  · rename_i hfails
    rw [if_pos hfails]
    exact ⟨hroom, fun x hx => absurd hx (by simp), fun h => by simpa using h⟩
  rename_i hfails
  rw [if_neg hfails]
  obtain ⟨hrefused, hbytes, hs⟩ := @take_spec τ out (process cfg r i) cap
  -- nothing is there, and the client is not done: the burst is running
  have hnone : r.pending = none := by
    by_contra hsome
    exact hthere (by rw [Option.isSome_iff_ne_none.2 hsome]; rfl)
  have hrun : r.done = false := by
    by_contra hdone
    rw [Bool.not_eq_false] at hdone
    rw [isDone, hdone, hnone] at hopen
    simp_all
  obtain ⟨hrefused', hs'⟩ := @process_spec τ out _ hnone hrun cfg i (hrefused.symm.trans hroom)
  exact ⟨hrefused', hbytes, fun h => hs (hs' h)⟩

/-! ## Runs -/

theorem run_concat (calls : List (Nat × FccInput τ)) (c : Nat × FccInput τ) :
    run cfg (calls ++ [c]) = (run cfg calls).step cfg c := by
  rw [run, foldl_append]
  rfl

theorem run_closed (calls : List (Nat × FccInput τ)) : (run cfg calls).closed = (run cfg calls).client.isDone := by
  induction calls using reverseRecOn with
  | nil => rfl
  | append_singleton calls c ih =>
    rw [run_concat, Serving.step]
    split
    · exact ih
    · rfl

theorem run_inv (calls : List (Nat × FccInput τ)) (hroom : (run cfg calls).client.refused = []) :
    Spliced ((run cfg calls).out.map Prod.fst) (run cfg calls).client ∧
      ∀ x ∈ (run cfg calls).out, ∃ c ∈ calls, x.2 = x.1.data.take c.1 := by
  induction calls using reverseRecOn with
  | nil => exact ⟨Spliced.initial, nofun⟩
  | append_singleton calls c ih =>
    have hclosed := run_closed cfg calls
    have hearlier : ∀ x : FccPacket × List UInt8, (∃ c ∈ calls, x.2 = x.1.data.take c.1) →
        ∃ c' ∈ calls ++ [c], x.2 = x.1.data.take c'.1 := fun x ⟨c', hc', hx⟩ => ⟨c', mem_append_left _ hc', hx⟩
    rw [run_concat] at hroom ⊢
    unfold Serving.step at hroom ⊢
    split at hroom
    · rename_i hend
      rw [if_pos hend]
      obtain ⟨hs, hbytes⟩ := ih hroom
      exact ⟨hs, fun x hx => hearlier x (hbytes x hx)⟩
    rename_i hend
    rw [if_neg hend]
    obtain ⟨hrefused, hlast, hs⟩ := @read_spec τ ((run cfg calls).out.map Prod.fst) _
      (by rw [← hclosed]; simpa using hend) cfg c.1 c.2 hroom
    obtain ⟨hbefore, hbytes⟩ := ih hrefused
    refine ⟨by rw [map_append]; exact hs hbefore, fun x hx => ?_⟩
    rcases mem_append.1 hx with hx | hx
    · exact hearlier x (hbytes x hx)
    · exact ⟨c, mem_append_right _ mem_cons_self, hlast x (Option.mem_toList.1 hx)⟩

/-- As long as every multicast packet finds room in the queue: the packets returned are burst packets in the order
they came, those that came after the first multicast packet with numbers before its own, and then the multicast
packets in the order they came, without a hole; all of them, once the client is closed. -/
theorem run_spliced (cfg : FccConfig τ) (calls : List (Nat × FccInput τ))
    (hroom : (run cfg calls).client.refused = []) :
    (∃ b m, (run cfg calls).out.map Prod.fst = b ++ m ∧ b.Sublist (run cfg calls).client.bursts ∧
      (∀ p ∈ b, p.multicast = false ∧ ∀ f, p.first = some f →
        (run cfg calls).client.received.head?.map FccPacket.seq = some f ∧ notBefore p.seq f = false) ∧
      (∀ p ∈ m, p.multicast = true) ∧ m ++ (run cfg calls).client.queue = (run cfg calls).client.received ∧
      ((run cfg calls).closed = true → m = (run cfg calls).client.received)) ∧
    ∀ x ∈ (run cfg calls).out, ∃ c ∈ calls, x.2 = x.1.data.take c.1 := by
  obtain ⟨hs, hbytes⟩ := run_inv cfg calls hroom
  obtain ⟨b, m, hout, hsub, hqueue, -⟩ := hs.split
  have hb : b.Sublist (run cfg calls).client.bursts := (sublist_append_left b _).trans hsub
  refine ⟨⟨b, m, hout, hb, fun p hp => hs.bursts p (hb.subset hp), fun p hp => ?_, hqueue, fun hclosed => ?_⟩, hbytes⟩
  · exact hs.received p (hqueue ▸ mem_append_left _ hp)
  · rw [run_closed, isDone, Bool.and_eq_true, Bool.and_eq_true, List.isEmpty_iff] at hclosed
    rw [← hqueue, hclosed.2, append_nil]

/-- A datagram of the main socket, of a transport stream payload type and the SSRC 7. -/
def mainPacket (seq : UInt8) (payload : List UInt8) : List UInt8 := [0x80, 33, 0, seq, 0, 0, 0, 0, 0, 0, 0, 7] ++ payload

/-- A burst packet of the payload type 97. -/
def burstPacket (osn : UInt8) (payload : List UInt8) : List UInt8 :=
  [0x80, 97, 0, 0, 0, 0, 0, 0, 0, 0, 0, 7, 0, osn] ++ payload

/-- A client whose clock counts seconds. -/
def secondsConfig : FccConfig Nat := ⟨97, 1, fun now t => decide (now > t + 1)⟩

/-- Two multicast packets wait for the end of the burst. -/
theorem run_spliced_two :
    let calls : List (Nat × FccInput Nat) := [(1500, { uni := some (burstPacket 40 [1]), now := 0 }),
      (1500, { main := some (mainPacket 42 [3]), now := 0 }), (1500, { main := some (mainPacket 43 [4]), now := 0 }),
      (1500, { uni := some (burstPacket 41 [2]), now := 0 }), (1500, { now := 0 }), (1500, { now := 0 })]
    (run secondsConfig calls).out.map Prod.snd = [[1], [2], [3], [4]] ∧
      ∃ b m, (run secondsConfig calls).out.map Prod.fst = b ++ m ∧ b.Sublist (run secondsConfig calls).client.bursts := by
  intro calls
  obtain ⟨⟨b, m, hout, hb, -⟩, -⟩ := run_spliced secondsConfig calls (by decide +kernel)
  exact ⟨by decide +kernel, b, m, hout, hb⟩

/-- Burst packet 50 is returned before multicast packet 42 comes, and is not before it. And multicast packet 2, too
long for a slot, overtakes packet 1. -/
theorem run_not_spliced : (run secondsConfig [(1500, { uni := some (burstPacket 50 [1]), now := 0 }),
      (1500, { main := some (mainPacket 42 [2]), now := 0 })]).out.map (fun x => (x.1.multicast, x.1.seq)) =
        [(false, 50), (true, 42)] ∧ notBefore 50 42 = true ∧
    (run secondsConfig [(1500, { main := some (mainPacket 1 [1]), now := 0 }),
      (1500, { main := some (mainPacket 2 (replicate 1501 2)), now := 0 }), (1500, { now := 0 })]).out.map
        (fun x => (x.1.multicast, x.1.seq)) = [(true, 2), (true, 1)] := by
  refine ⟨by decide +kernel, by decide, by decide +kernel⟩

end FccClient

end DvbIpiTools.Fccret
