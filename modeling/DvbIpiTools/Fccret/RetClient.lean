import DvbIpiTools.Demux.Rtp
import Mathlib.Data.List.Induction

set_option autoImplicit false

/-! # Retransmission client (`fccret/ret_client.c`, `demux/rtx.c`)

The clock is any linear order, with the two functions that add the waiting time to it. The ring of held
packets is the list of its used part, so that `gap_pending` says that it is not empty. The NACK packets are
logged as start and length of the missing run. Not part of the program are `ext`, `expected_seq` without the
wrap-around, and what else is kept for the proofs: the number of SSRC changes, everything handed to
`outq_push`, the arrivals with their extended number, and how many packets were given up at their deadline. -/

namespace DvbIpiTools.Fccret

open BeUtil Demux

def retGapMax : Nat := 32

def retHoldCap : Nat := 1500

def retOutqSlots : Nat := retGapMax + 1

def retOutqCap : Nat := 9216

/-- `rtx_pkt_t`. -/
structure RtxPkt where
  ssrc : Nat
  osn : Nat
  payload : List UInt8
deriving DecidableEq

def rtxParse (p : List UInt8) (rtxPt : Nat) : Option RtxPkt := do
  let h ← rtpParseHeader p
  if h.pt ≠ rtxPt &&& 0x7F then none
  else if p.length < h.payloadOff + 2 then none
  else
    let payload := p.drop (h.payloadOff + 2)
    let osn := beGet p h.payloadOff 2
    if byteAt p 0 &&& 0x20 ≠ 0 then
      let pad := byteAt p (p.length - 1)
      if pad = 0 ∨ pad > payload.length then none
      else some ⟨h.ssrc, osn, payload.take (payload.length - pad)⟩
    else some ⟨h.ssrc, osn, payload⟩

/-- The fields of the configuration, and the clock arithmetic of `hold_arm` and `nack_retry`. -/
structure RetConfig (τ : Type) where
  rtxPt : Nat
  deadline : τ → τ
  nextNack : τ → τ

/-- `ret_hold_t`; the data is there when the slot is used. -/
structure RetHold (τ : Type) where
  data : Option (List UInt8)
  deadline : τ
  nextNack : τ

/-- A queued payload, with the packet it is: the number of the SSRC and the extended sequence number. -/
structure RetQueued where
  epoch : Nat
  ext : Nat
  data : List UInt8

/-- A packet that was handled, with its sequence number and the extended one nearest to the expected one. -/
structure RetArrival where
  epoch : Nat
  seq : Nat
  ext : Int
  data : List UInt8

/-- `struct ret_client`. -/
structure RetClient (τ : Type) where
  haveSsrc : Bool := false
  ssrc : Nat := 0
  expectedSeq : Nat := 0
  hold : List (RetHold τ) := []
  outq : List RetQueued := []
  nacks : List (Nat × Nat) := []
  epoch : Nat := 0
  ext : Nat := 0
  pushed : List RetQueued := []
  arrived : List RetArrival := []
  lost : Nat := 0

namespace RetClient

variable {τ : Type}

/-! ## Queue and window -/

/-- `outq_push` of the packet with extended number `ext`. -/
def push (r : RetClient τ) (ext : Nat) (data : List UInt8) : RetClient τ := { r with
    outq := if r.outq.length ≥ retOutqSlots then r.outq else r.outq ++ [⟨r.epoch, ext, data.take retOutqCap⟩]
    pushed := r.pushed ++ [⟨r.epoch, ext, data.take retOutqCap⟩] }

/-- `outq_pop`: the packet taken from the queue and what the caller gets of it. -/
def pop (r : RetClient τ) (cap : Nat) : Option (RetQueued × List UInt8) × RetClient τ := match r.outq with
  | [] => (none, r)
  | q :: rest => (some (q, q.data.take cap), { r with outq := rest })

/-- `gap_shift`. -/
def shift (r : RetClient τ) : RetClient τ :=
  { r with hold := r.hold.tail, expectedSeq := (r.expectedSeq + 1) % 65536, ext := r.ext + 1 }

/-- `hold_arm`. -/
def arm (cfg : RetConfig τ) (now : τ) : RetHold τ := ⟨none, cfg.deadline now, cfg.nextNack now⟩

/-- The loop of `abandon_gap`. -/
def abandonHold : List (RetHold τ) → RetClient τ → RetClient τ
  | [], r => r
  | h :: rest, r => abandonHold rest (match h.data with
    | some d => (r.push r.ext d).shift
    | none => r.shift)

def abandonGap (r : RetClient τ) : RetClient τ := abandonHold r.hold r

/-! ## Packets -/

/-- `handle_original_seq` while no gap is pending. `ahead` is the difference of the sequence numbers modulo
`2^16`, negative as an `int16_t` from `2^15` on. -/
def handleInOrder (cfg : RetConfig τ) (r : RetClient τ) (seq : Nat) (payload : List UInt8) (now : τ) :
    RetClient τ :=
  let ahead := (seq + 65536 - r.expectedSeq) % 65536
  if ahead ≥ 32768 then r
  else if ahead = 0 then
    { r.push r.ext payload with expectedSeq := (r.expectedSeq + 1) % 65536, ext := r.ext + 1 }
  else if ahead ≥ retGapMax ∨ payload.length > retHoldCap then
    RetClient.push { r with expectedSeq := (seq + 1) % 65536, ext := r.ext + ahead + 1 } (r.ext + ahead) payload
  else
    { r with
      hold := List.replicate ahead (arm cfg now) ++ [⟨some payload, now, now⟩]
      nacks := r.nacks ++ [(r.expectedSeq, ahead)] }

/-- `handle_original_seq`. A packet outside the window ends the gap and is then looked at again. -/
def handleOriginalSeq (cfg : RetConfig τ) (r : RetClient τ) (seq : Nat) (payload : List UInt8) (now : τ) :
    RetClient τ :=
  let ahead := (seq + 65536 - r.expectedSeq) % 65536
  if r.hold = [] then handleInOrder cfg r seq payload now
  else if ahead ≥ 32768 then r
  else match r.hold[ahead]? with
    | some h =>
      if h.data = none ∧ payload.length ≤ retHoldCap then
        { r with hold := r.hold.set ahead { h with data := some payload } }
      else r
    | none =>
      if ahead < retGapMax ∧ payload.length ≤ retHoldCap then
        { r with
          hold := r.hold ++ List.replicate (ahead - r.hold.length) (arm cfg now) ++ [⟨some payload, now, now⟩]
          nacks := if ahead > r.hold.length then
            r.nacks ++ [((r.expectedSeq + r.hold.length) % 65536, ahead - r.hold.length)] else r.nacks }
      else handleInOrder cfg r.abandonGap seq payload now

/-- The number nearest to the expected one with the given low 16 bits. -/
def nearest (r : RetClient τ) (seq : Nat) : Int :=
  let ahead := (seq + 65536 - r.expectedSeq) % 65536
  if ahead ≥ 32768 then (r.ext : Int) + ahead - 65536 else (r.ext : Int) + ahead

/-- The packet is noted. -/
def arrive (r : RetClient τ) (seq : Nat) (payload : List UInt8) : RetClient τ :=
  { r with arrived := r.arrived ++ [⟨r.epoch, seq, r.nearest seq, payload.take retOutqCap⟩] }

/-- The start of `ret_client_on_original`: another SSRC starts anew. -/
def trackSsrc (r : RetClient τ) (h : RtpHdr) : RetClient τ :=
  if r.haveSsrc = false ∨ h.ssrc ≠ r.ssrc then
    { (if r.hold ≠ [] then r.abandonGap else r) with
      haveSsrc := true
      ssrc := h.ssrc
      expectedSeq := h.seq
      ext := h.seq
      epoch := r.epoch + 1 }
  else r

/-! ## Deadlines and retries -/

section Clock

variable [LinearOrder τ]

def nackDue (now : τ) (h : RetHold τ) : Bool :=
  h.data.isNone && decide (h.nextNack ≤ now) && decide (now < h.deadline)

/-- The runs of due slots, as first index and length. -/
def nackRuns : List Bool → Nat → List (Nat × Nat)
  | [], _ => []
  | false :: rest, i => nackRuns rest (i + 1)
  | true :: rest, i => match nackRuns rest (i + 1) with
    | [] => [(i, 1)]
    | (j, n) :: runs => if j = i + 1 then (i, n + 1) :: runs else (i, 1) :: (j, n) :: runs

def nackRetry (cfg : RetConfig τ) (r : RetClient τ) (now : τ) : RetClient τ := { r with
    hold := r.hold.map fun h => if nackDue now h then { h with nextNack := cfg.nextNack now } else h
    nacks := r.nacks ++ (nackRuns (r.hold.map (nackDue now)) 0).map fun run =>
      ((r.expectedSeq + run.1) % 65536, run.2) }

/-- The loop of `ret_client_flush_ready` over the held packets. -/
def flushHold (now : τ) : List (RetHold τ) → RetClient τ → RetClient τ
  | [], r => r
  | h :: rest, r => match h.data with
    | some d => flushHold now rest (r.push r.ext d).shift
    | none => if h.deadline ≤ now then flushHold now rest { r.shift with lost := r.lost + 1 } else r

/-- `ret_client_flush_ready`. -/
def flushReady (cfg : RetConfig τ) (r : RetClient τ) (now : τ) : RetClient τ :=
  let r := flushHold now r.hold r
  if r.hold ≠ [] then nackRetry cfg r now else r

/-- `ret_client_on_original`. -/
def onOriginal (cfg : RetConfig τ) (r : RetClient τ) (h : RtpHdr) (payload : List UInt8) (now : τ) :
    RetClient τ :=
  flushReady cfg (handleOriginalSeq cfg ((r.trackSsrc h).arrive h.seq payload) h.seq payload now) now

/-- `ret_client_on_repair`. -/
def onRepair (cfg : RetConfig τ) (r : RetClient τ) (p : List UInt8) (now : τ) : RetClient τ :=
  if r.haveSsrc = false ∨ r.hold = [] then r
  else match rtxParse p cfg.rtxPt with
    | none => r
    | some rx =>
      if rx.ssrc ≠ r.ssrc then r
      else if rx.payload.length > retHoldCap then r
      else
        let ahead := (rx.osn + 65536 - r.expectedSeq) % 65536
        if ahead ≥ 32768 then r
        else match r.hold[ahead]? with
          | none => r
          | some h =>
            if h.data ≠ none then r
            else
              let r := r.arrive rx.osn rx.payload
              flushReady cfg { r with hold := r.hold.set ahead { h with data := some rx.payload } } now

/-! ## Reading -/

/-- What a call of `ret_client_read` meets: whether poll or the main socket fails, the datagrams on the three
sockets, and the clock after poll. -/
structure RetInput (τ : Type) where
  fails : Bool
  main : Option (List UInt8)
  uni : Option (List UInt8)
  repair : Option (List UInt8)
  now : τ

/-- A datagram of the main socket. -/
def onMain (cfg : RetConfig τ) (r : RetClient τ) (now : τ) : Option (List UInt8) → RetClient τ
  | none => r
  | some d => match rtpParseHeader d with
    | none => r
    | some h => if d.length > h.payloadOff then onOriginal cfg r h (d.drop h.payloadOff) now else r

/-- A datagram of one of the repair sockets. -/
def onRepairSocket (cfg : RetConfig τ) (r : RetClient τ) (now : τ) : Option (List UInt8) → RetClient τ
  | none => r
  | some d => if d = [] then r else onRepair cfg r d now

/-- What `ret_client_read` does between its two looks at the queue. -/
def process (cfg : RetConfig τ) (r : RetClient τ) (i : RetInput τ) : RetClient τ :=
  flushReady cfg (onRepairSocket cfg (onRepairSocket cfg (onMain cfg r i.now i.main) i.now i.uni) i.now i.repair)
    i.now

/-- A packet the caller gets: it has at least one byte. -/
def got : Option (RetQueued × List UInt8) → Option (RetQueued × List UInt8)
  | none => none
  | some (q, bytes) => if bytes = [] then none else some (q, bytes)

/-- `ret_client_read`. -/
def read (cfg : RetConfig τ) (r : RetClient τ) (cap : Nat) (i : RetInput τ) :
    Option (RetQueued × List UInt8) × RetClient τ :=
  match got (r.pop cap).1 with
  | some x => (some x, (r.pop cap).2)
  | none =>
    if i.fails then (none, (r.pop cap).2)
    else (got ((process cfg (r.pop cap).2 i).pop cap).1, ((process cfg (r.pop cap).2 i).pop cap).2)

end Clock

end RetClient

/-! # The order of the retransmission client's output

Whatever arrives and whenever gaps are given up, packets are queued with increasing extended numbers. -/

open List

/-- The first packet comes earlier: in an earlier stretch of one SSRC, or with a smaller extended number. -/
def RetQueued.Before (a b : RetQueued) : Prop := a.epoch ≤ b.epoch ∧ (a.epoch = b.epoch → a.ext < b.ext)

namespace RetClient

variable {τ : Type}

/-- The packet with this number and payload has arrived. -/
def Came (r : RetClient τ) (epoch ext : Nat) (data : List UInt8) : Prop :=
  ∃ a ∈ r.arrived, a.epoch = epoch ∧ a.ext = ext ∧ a.data = data

/-- What every call keeps; `out` is what the caller has got so far. -/
structure Ordered (out : List RetQueued) (r : RetClient τ) : Prop where
  seq_eq : r.expectedSeq = r.ext % 65536
  pushed_before : r.pushed.Pairwise RetQueued.Before
  pushed_lt : ∀ q ∈ r.pushed, q.epoch ≤ r.epoch ∧ (q.epoch = r.epoch → q.ext < r.ext)
  pushed_came : ∀ q ∈ r.pushed, r.Came q.epoch q.ext q.data
  hold_came : ∀ {k h d}, r.hold[k]? = some h → h.data = some d → r.Came r.epoch (r.ext + k) (d.take retOutqCap)
  arrived_seq : ∀ a ∈ r.arrived, a.ext % 65536 = (a.seq : Int)
  queued : (out ++ r.outq).Sublist r.pushed

namespace Ordered

variable {out : List RetQueued} {r : RetClient τ}

/-- A packet is queued, the expected number moves behind it, and the window becomes `hold`. -/
theorem queue (hr : Ordered out r) {e : Nat} {d : List UInt8} {hold : List (RetHold τ)} (he : r.ext ≤ e)
    (hcame : r.Came r.epoch e (d.take retOutqCap))
    (hhold : ∀ {k h d}, hold[k]? = some h → h.data = some d → r.Came r.epoch (e + 1 + k) (d.take retOutqCap)) :
    Ordered out { r.push e d with hold := hold, expectedSeq := (e + 1) % 65536, ext := e + 1 } := by
  refine ⟨rfl, ?_, ?_, ?_, hhold, hr.arrived_seq, ?_⟩
  · show (r.pushed ++ [_]).Pairwise _
    rw [pairwise_append]
    refine ⟨hr.pushed_before, pairwise_singleton _ _, ?_⟩
    intro a ha b hb
    rw [mem_singleton.1 hb]
    exact ⟨(hr.pushed_lt a ha).1, fun heq => lt_of_lt_of_le ((hr.pushed_lt a ha).2 heq) he⟩
  · intro q hq
    rcases mem_append.1 hq with hq | hq
    · exact ⟨(hr.pushed_lt q hq).1, fun heq => lt_of_lt_of_le ((hr.pushed_lt q hq).2 heq) (by show r.ext ≤ e + 1; omega)⟩
    · rw [mem_singleton.1 hq]
      exact ⟨le_rfl, fun _ => Nat.lt_succ_self e⟩
  · intro q hq
    rcases mem_append.1 hq with hq | hq
    · exact hr.pushed_came q hq
    · rw [mem_singleton.1 hq]
      exact hcame
  · simp only [RetClient.push]
    split
    · exact hr.queued.trans (sublist_append_left _ _)
    · rw [← append_assoc]
      exact List.Sublist.append hr.queued (List.Sublist.refl _)

theorem shift (hr : Ordered out r) : Ordered out r.shift := by
  refine { hr with seq_eq := ?_, pushed_lt := ?_, hold_came := ?_ }
  · have hseq := hr.seq_eq
    show (r.expectedSeq + 1) % 65536 = (r.ext + 1) % 65536
    omega
  · intro q hq
    exact ⟨(hr.pushed_lt q hq).1, fun heq => Nat.lt_succ_of_lt ((hr.pushed_lt q hq).2 heq)⟩
  · intro k h d hk hd
    rw [show r.shift.hold = r.hold.tail from rfl, getElem?_tail] at hk
    have hcame := hr.hold_came hk hd
    rwa [show r.ext + (k + 1) = r.shift.ext + k by show r.ext + (k + 1) = r.ext + 1 + k; omega] at hcame

theorem push_shift (hr : Ordered out r) {h : RetHold τ} {rest : List (RetHold τ)} (hhold : r.hold = h :: rest)
    {d : List UInt8} (hd : h.data = some d) : Ordered out (r.push r.ext d).shift := by
  have hhead : r.Came r.epoch r.ext (d.take retOutqCap) := hr.hold_came (k := 0) (by rw [hhold]; rfl) hd
  have hq : Ordered out { r.push r.ext d with
      hold := r.hold.tail
      expectedSeq := (r.ext + 1) % 65536
      ext := r.ext + 1 } := hr.queue (le_refl r.ext) hhead hr.shift.hold_came
  have hseq : (r.ext + 1) % 65536 = (r.expectedSeq + 1) % 65536 := by
    have h := hr.seq_eq
    omega
  rw [hseq] at hq
  exact hq

theorem abandonHold (hr : Ordered out r) {l : List (RetHold τ)} (hl : r.hold = l) : Ordered out (abandonHold l r) := by
  induction l generalizing r with
  | nil => exact hr
  | cons h rest ih =>
    unfold RetClient.abandonHold
    have htail : r.hold.tail = rest := by
      rw [hl]
      rfl
    cases hd : h.data with
    | some d => exact ih (hr.push_shift hl hd) htail
    | none => exact ih hr.shift htail

end Ordered

/-! ## Packets -/

theorem Came.mono {r r' : RetClient τ} {epoch ext : Nat} {data : List UInt8} (h : r.Came epoch ext data)
    (hsub : r.arrived ⊆ r'.arrived) : r'.Came epoch ext data := by
  obtain ⟨a, ha, hrest⟩ := h
  exact ⟨a, hsub ha, hrest⟩

variable (l : List (RetHold τ))

theorem hold_abandonHold (r : RetClient τ) (hl : r.hold = l) : (abandonHold l r).hold = [] := by
  induction l generalizing r with
  | nil => exact hl
  | cons h rest ih =>
    apply ih
    cases h.data with
    | _ => show r.hold.tail = rest; rw [hl]; rfl

/-- Only the window, the queue and the expected number change when a gap is abandoned. -/
theorem abandonHold_frame (r : RetClient τ) :
    (abandonHold l r).epoch = r.epoch ∧ (abandonHold l r).arrived = r.arrived ∧
      (abandonHold l r).ext = r.ext + l.length := by
  induction l generalizing r with
  | nil => exact ⟨rfl, rfl, rfl⟩
  | cons h rest ih =>
    have hext : r.ext + 1 + rest.length = r.ext + (h :: rest).length := by
      rw [length_cons]
      omega
    unfold abandonHold
    rw [← hext]
    cases h.data with
    | some d => exact ih (r.push r.ext d).shift
    | none => exact ih r.shift

theorem ahead_mod {ext seq expectedSeq : Nat} (h : expectedSeq = ext % 65536) :
    (ext + (seq + 65536 - expectedSeq) % 65536) % 65536 = seq % 65536 := by
  omega

namespace Ordered

variable {out : List RetQueued} {r : RetClient τ} {seq : Nat} {payload : List UInt8} (hr : Ordered out r)

include hr

theorem grow {a : Nat} {x : RetHold τ} (hx : x.data = none) (now : τ) (nacks : List (Nat × Nat))
    (hcame : r.Came r.epoch (r.ext + (r.hold.length + a)) (payload.take retOutqCap)) : Ordered out { r with
      hold := r.hold ++ List.replicate a x ++ [⟨some payload, now, now⟩]
      nacks := nacks } := by
  refine { hr with hold_came := ?_ }
  intro k g d hk hd
  rw [append_assoc, getElem?_append] at hk
  split at hk
  · exact hr.hold_came hk hd
  rename_i hge
  rw [getElem?_append] at hk
  split at hk
  · rename_i hrep
    rw [getElem?_eq_getElem hrep, getElem_replicate] at hk
    rw [← Option.some.inj hk, hx] at hd
    cases hd
  rename_i hrep
  rw [length_replicate] at hrep hk
  rw [getElem?_singleton] at hk
  split at hk
  · rw [← Option.some.inj hk] at hd
    cases hd
    obtain rfl : k = r.hold.length + a := by omega
    exact hcame
  · cases hk

theorem handleInOrder (cfg : RetConfig τ) (hhold : r.hold = []) (now : τ)
    (hcame : (seq + 65536 - r.expectedSeq) % 65536 < 32768 → r.Came r.epoch (r.ext + (seq + 65536 - r.expectedSeq) % 65536) (payload.take retOutqCap)) :
    Ordered out (handleInOrder cfg r seq payload now) := by
  have hmod : (r.ext + (seq + 65536 - r.expectedSeq) % 65536) % 65536 = seq % 65536 := ahead_mod hr.seq_eq
  unfold RetClient.handleInOrder
  generalize (seq + 65536 - r.expectedSeq) % 65536 = ahead at hmod hcame ⊢
  by_cases hstale : ahead ≥ 32768
  · rw [if_pos hstale]
    exact hr
  rw [if_neg hstale]
  have hthis := hcame (not_le.1 hstale)
  split
  · rename_i hzero
    subst hzero
    have hq : Ordered out { r.push r.ext payload with
        hold := r.hold
        expectedSeq := (r.ext + 1) % 65536
        ext := r.ext + 1 } :=
      hr.queue le_rfl hthis (fun hk _ => by rw [hhold] at hk; exact absurd hk (by simp))
    rwa [show (r.ext + 1) % 65536 = (r.expectedSeq + 1) % 65536 by have h := hr.seq_eq; omega] at hq
  split
  · have hq : Ordered out { r.push (r.ext + ahead) payload with
        hold := r.hold
        expectedSeq := (r.ext + ahead + 1) % 65536
        ext := r.ext + ahead + 1 } :=
      hr.queue (Nat.le_add_right _ _) hthis (fun hk _ => by rw [hhold] at hk; exact absurd hk (by simp))
    rwa [show (r.ext + ahead + 1) % 65536 = (seq + 1) % 65536 by omega] at hq
  · have hgrow := hr.grow (a := ahead) (x := arm cfg now) rfl now (r.nacks ++ [(r.expectedSeq, ahead)])
      (by rwa [hhold, length_nil, zero_add])
    rwa [hhold, nil_append] at hgrow

theorem fill {k : Nat} {h : RetHold τ} (hslot : r.hold[k]? = some h)
    (hcame : r.Came r.epoch (r.ext + k) (payload.take retOutqCap)) :
    Ordered out { r with hold := r.hold.set k { h with data := some payload } } := by
  refine { hr with hold_came := ?_ }
  intro i g d hi hd
  rw [getElem?_set] at hi
  split at hi
  · rename_i hki
    subst hki
    rw [if_pos (List.getElem?_eq_some_iff.1 hslot).1] at hi
    rw [← Option.some.inj hi] at hd
    rw [← Option.some.inj hd]
    exact hcame
  · exact hr.hold_came hi hd

theorem handleOriginalSeq (cfg : RetConfig τ) (now : τ)
    (hcame : (seq + 65536 - r.expectedSeq) % 65536 < 32768 → r.Came r.epoch (r.ext + (seq + 65536 - r.expectedSeq) % 65536) (payload.take retOutqCap)) :
    Ordered out (handleOriginalSeq cfg r seq payload now) := by
  have hmod : (r.ext + (seq + 65536 - r.expectedSeq) % 65536) % 65536 = seq % 65536 := ahead_mod hr.seq_eq
  unfold RetClient.handleOriginalSeq
  by_cases hhold : r.hold = []
  · rw [if_pos hhold]
    exact hr.handleInOrder cfg hhold now hcame
  rw [if_neg hhold]
  have hlt : (seq + 65536 - r.expectedSeq) % 65536 < 65536 := Nat.mod_lt _ (by decide)
  generalize (seq + 65536 - r.expectedSeq) % 65536 = ahead at hmod hcame hlt ⊢
  by_cases hstale : ahead ≥ 32768
  · rw [if_pos hstale]
    exact hr
  rw [if_neg hstale]
  have hthis := hcame (not_le.1 hstale)
  cases hslot : r.hold[ahead]? with
  | some h =>
    dsimp only
    split
    · exact hr.fill hslot hthis
    · exact hr
  | none =>
    have hlen : r.hold.length ≤ ahead := getElem?_eq_none_iff.1 hslot
    dsimp only
    split
    · exact hr.grow rfl now _ (by rwa [Nat.add_sub_cancel' hlen])
    -- the packet is looked at again with the window empty
    obtain ⟨hepoch, harr, hext⟩ := abandonHold_frame r.hold r
    have hr' : Ordered out r.abandonGap := hr.abandonHold rfl
    have hempty : r.abandonGap.hold = [] := hold_abandonHold r.hold r rfl
    have hseq' := hr'.seq_eq
    have hext' : r.abandonGap.ext = r.ext + r.hold.length := hext
    refine hr'.handleInOrder cfg hempty now ?_
    intro _
    have hsame : r.abandonGap.ext + (seq + 65536 - r.abandonGap.expectedSeq) % 65536 = r.ext + ahead := by omega
    rw [hsame, show r.abandonGap.epoch = r.epoch from hepoch]
    exact hthis.mono (fun a ha => by rw [show r.abandonGap.arrived = r.arrived from harr]; exact ha)

theorem arrive (hseq : seq < 65536) (payload : List UInt8) : Ordered out (r.arrive seq payload) := by
  have hsub : r.arrived ⊆ (r.arrive seq payload).arrived := subset_append_left _ _
  refine { hr with pushed_came := fun q hq => (hr.pushed_came q hq).mono hsub, hold_came := fun hk hd => (hr.hold_came hk hd).mono hsub, arrived_seq := ?_ }
  intro a ha
  rcases mem_append.1 ha with ha | ha
  · exact hr.arrived_seq a ha
  · rw [mem_singleton.1 ha]
    have hexp := hr.seq_eq
    simp only [nearest]
    split <;> omega

omit hr

theorem came_arrive (r : RetClient τ) (seq : Nat) (payload : List UInt8)
    (h : (seq + 65536 - r.expectedSeq) % 65536 < 32768) :
    (r.arrive seq payload).Came r.epoch (r.ext + (seq + 65536 - r.expectedSeq) % 65536)
      (payload.take retOutqCap) := by
  refine ⟨⟨r.epoch, seq, r.nearest seq, payload.take retOutqCap⟩, ?_, rfl, ?_, rfl⟩
  · exact mem_append_right _ (mem_singleton_self _)
  · simp only [nearest]
    rw [if_neg (not_le.2 h)]
    rfl

theorem trackSsrc (hr : Ordered out r) {h : RtpHdr} (hseq : h.seq < 65536) : Ordered out (r.trackSsrc h) := by
  unfold RetClient.trackSsrc
  split
  · have hempty : (if r.hold ≠ [] then r.abandonGap else r).hold = [] := by
      split
      · exact hold_abandonHold r.hold r rfl
      · rename_i hnot
        exact not_not.1 hnot
    have hr' : Ordered out (if r.hold ≠ [] then r.abandonGap else r) := by
      split
      · exact hr.abandonHold rfl
      · exact hr
    have hepoch : (if r.hold ≠ [] then r.abandonGap else r).epoch = r.epoch := by
      split
      · exact (abandonHold_frame r.hold r).1
      · rfl
    generalize (if r.hold ≠ [] then r.abandonGap else r) = k at hempty hr' hepoch ⊢
    refine { hr' with seq_eq := (Nat.mod_eq_of_lt hseq).symm, pushed_lt := ?_, hold_came := ?_ }
    · intro q hq
      have hle := (hr'.pushed_lt q hq).1
      rw [hepoch] at hle
      exact ⟨Nat.le_succ_of_le hle, fun heq => absurd heq (by show q.epoch ≠ r.epoch + 1; omega)⟩
    · intro i g d hk
      rw [hempty] at hk
      cases hk
  · exact hr

end Ordered

theorem pop_cases (r : RetClient τ) (cap : Nat) : (r.outq = [] ∧ r.pop cap = (none, r)) ∨
      ∃ q rest, r.outq = q :: rest ∧ r.pop cap = (some (q, q.data.take cap), { r with outq := rest }) := by
  unfold pop
  cases r.outq with
  | nil => exact .inl ⟨rfl, rfl⟩
  | cons q rest => exact .inr ⟨q, rest, rfl, rfl⟩

theorem Ordered.pop {out : List RetQueued} {r : RetClient τ} (hr : Ordered out r) (cap : Nat) :
    Ordered (out ++ (got (r.pop cap).1).toList.map Prod.fst) (r.pop cap).2 := by
  rcases pop_cases r cap with ⟨-, hp⟩ | ⟨q, rest, hq, hp⟩
  · rw [hp]
    simpa [got] using hr
  rw [hp]
  refine { hr with queued := ?_ }
  have hsub := hr.queued
  rw [hq] at hsub
  refine List.Sublist.trans ?_ hsub
  rw [append_assoc]
  refine List.Sublist.append (List.Sublist.refl _) ?_
  unfold got
  split
  · exact sublist_cons_self q rest
  · rename_i hsome
    cases hsome
    split
    · exact sublist_cons_self _ rest
    · exact List.Sublist.refl _

/-! ## Deadlines and retries -/

section Clock

variable [LinearOrder τ] {out : List RetQueued} {r : RetClient τ}

theorem Ordered.flushHold (hr : Ordered out r) (now : τ) {l : List (RetHold τ)} (hl : r.hold = l) :
    Ordered out (flushHold now l r) := by
  induction l generalizing r with
  | nil => exact hr
  | cons h rest ih =>
    unfold RetClient.flushHold
    cases hd : h.data with
    | some d => exact ih (hr.push_shift hl hd) (by show r.hold.tail = rest; rw [hl]; rfl)
    | none =>
      dsimp only
      split
      · have hs := hr.shift
        refine ih { hs with } ?_
        show r.hold.tail = rest
        rw [hl]
        rfl
      · exact hr

theorem Ordered.nackRetry (hr : Ordered out r) (cfg : RetConfig τ) (now : τ) : Ordered out (nackRetry cfg r now) := by
  refine { hr with hold_came := ?_ }
  intro k h d hk hd
  simp only [RetClient.nackRetry, getElem?_map, Option.map_eq_some_iff] at hk
  obtain ⟨h', hk', rfl⟩ := hk
  refine hr.hold_came hk' ?_
  split at hd <;> exact hd

theorem Ordered.flushReady (hr : Ordered out r) (cfg : RetConfig τ) (now : τ) : Ordered out (flushReady cfg r now) := by
  unfold RetClient.flushReady
  dsimp only
  split
  · exact (hr.flushHold now rfl).nackRetry cfg now
  · exact hr.flushHold now rfl

theorem Ordered.onOriginal (hr : Ordered out r) (cfg : RetConfig τ) {h : RtpHdr} (hseq : h.seq < 65536)
    (payload : List UInt8) (now : τ) : Ordered out (onOriginal cfg r h payload now) := by
  refine Ordered.flushReady ?_ cfg now
  refine Ordered.handleOriginalSeq ((hr.trackSsrc hseq).arrive hseq payload) cfg now ?_
  exact Ordered.came_arrive (r.trackSsrc h) h.seq payload

theorem rtxParse_osn_lt {p : List UInt8} {rtxPt : Nat} {rx : RtxPkt} (h : rtxParse p rtxPt = some rx) :
    rx.osn < 65536 := by
  unfold rtxParse at h
  cases hp : rtpParseHeader p with
  | none => simp [hp] at h
  | some hd =>
    simp only [hp, Option.bind_eq_bind, Option.bind_some] at h
    split at h
    · cases h
    split at h
    · cases h
    split at h
    · split at h
      · cases h
      · rw [← Option.some.inj h]
        exact beGet_lt p _ 2
    · rw [← Option.some.inj h]
      exact beGet_lt p _ 2

theorem Ordered.onRepair (hr : Ordered out r) (cfg : RetConfig τ) (p : List UInt8) (now : τ) :
    Ordered out (onRepair cfg r p now) := by
  unfold RetClient.onRepair
  split
  · exact hr
  split
  · exact hr
  rename_i rx hrx
  split
  · exact hr
  split
  · exact hr
  dsimp only
  split
  · exact hr
  rename_i hahead
  have hcame := Ordered.came_arrive r rx.osn rx.payload (not_le.1 hahead)
  have hr' := hr.arrive (rtxParse_osn_lt hrx) rx.payload
  generalize (rx.osn + 65536 - r.expectedSeq) % 65536 = ahead at hcame ⊢
  split
  · exact hr
  · rename_i g hslot
    split
    · exact hr
    · exact Ordered.flushReady (hr'.fill hslot hcame) cfg now

theorem Ordered.process (hr : Ordered out r) (cfg : RetConfig τ) (i : RetInput τ) : Ordered out (process cfg r i) := by
  have hmain : ∀ {r : RetClient τ}, Ordered out r → Ordered out (onMain cfg r i.now i.main) := by
    intro r hr
    unfold onMain
    split
    · exact hr
    split
    · exact hr
    · rename_i h hp
      split
      · exact hr.onOriginal cfg (rtpParseHeader_seq_lt hp) _ _
      · exact hr
  have hsocket : ∀ {r : RetClient τ} (d : Option (List UInt8)), Ordered out r →
      Ordered out (onRepairSocket cfg r i.now d) := by
    intro r d hr
    unfold onRepairSocket
    split
    · exact hr
    · split
      · exact hr
      · exact hr.onRepair cfg _ _
  exact (hsocket i.repair (hsocket i.uni (hmain hr))).flushReady cfg i.now

theorem Ordered.read (hr : Ordered out r) (cfg : RetConfig τ) (cap : Nat) (i : RetInput τ) :
    Ordered (out ++ (read cfg r cap i).1.toList.map Prod.fst) (read cfg r cap i).2 := by
  have hpop := hr.pop cap
  unfold RetClient.read
  split
  · rename_i x hx
    rw [hx] at hpop
    exact hpop
  rename_i hx
  rw [hx] at hpop
  simp only [Option.toList_none, map_nil, append_nil] at hpop
  split
  · simpa using hpop
  · exact (hpop.process cfg i).pop cap

/-! ## Runs -/

/-- A sequence of calls of `ret_client_read`: the client and what the caller got. -/
def run (cfg : RetConfig τ) (reads : List (Nat × RetInput τ)) : RetClient τ × List (RetQueued × List UInt8) :=
  reads.foldl (fun x i => ((read cfg x.1 i.1 i.2).2, x.2 ++ (read cfg x.1 i.1 i.2).1.toList)) ({}, [])

theorem run_concat (cfg : RetConfig τ) (reads : List (Nat × RetInput τ)) (i : Nat × RetInput τ) :
    run cfg (reads ++ [i]) = ((read cfg (run cfg reads).1 i.1 i.2).2,
      (run cfg reads).2 ++ (read cfg (run cfg reads).1 i.1 i.2).1.toList) := by
  rw [run, foldl_append]
  rfl

theorem run_ordered (cfg : RetConfig τ) (reads : List (Nat × RetInput τ)) :
    Ordered ((run cfg reads).2.map Prod.fst) (run cfg reads).1 := by
  induction reads using reverseRecOn with
  | nil =>
    refine ⟨rfl, List.Pairwise.nil, ?_, ?_, ?_, ?_, List.Sublist.refl _⟩
    · intro q hq
      exact absurd hq (not_mem_nil)
    · intro q hq
      exact absurd hq (not_mem_nil)
    · intro k h d hk
      cases hk
    · intro a ha
      exact absurd ha (not_mem_nil)
  | append_singleton reads i ih =>
    rw [run_concat, map_append]
    exact ih.read cfg i.1 i.2

end Clock

end RetClient

end DvbIpiTools.Fccret
