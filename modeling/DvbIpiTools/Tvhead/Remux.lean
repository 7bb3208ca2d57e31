import DvbIpiTools.Demux.SectionAsm
import DvbIpiTools.Tvhead.Releaseq
import DvbIpiTools.Tvhead.Scte35stamp
import DvbIpiTools.Utils.Pool
import DvbIpiTools.Tvhead.EsMapKeep

set_option autoImplicit false

/-! # Remultiplexing (`mux/remux/feed.c`, `mux/remux/lifecycle.c`)

A packet of a source PID that is mapped goes out at once, is held until its time, or waits in the SCTE-35
buffer of its stream. A change of the source's PMT makes a new map and moves the queues and buffers to
it. The tables and the EIT sections that a program sends besides are left out, and so is what is counted
and logged.

Of what the packets are stamped with only the continuity counter is followed. The other stamps (PCR, PTS,
DTS, their discontinuity flags) are behind the packet's header and are left open, like the clock that
the hold queues wait for: a `Moment` says what a call sees of them. -/

namespace DvbIpiTools.Tvhead

open BeUtil Demux

def holdMaxPackets : Nat := 32768
def scteStreamType : Nat := 0x86

/-- An entry of a hold queue: `slot_t`. -/
structure Held where
  pkt : Pkt
  tag : Option Nat
  deriving Inhabited

/-- The hold queues and SCTE-35 buffers on the heap. -/
structure Heap where
  holds : Pool (Releaseq Held) := .empty
  sctes : Pool Scte35stamp := .empty

/-- Which allocations fail. -/
structure Oom where
  hold : Nat → Bool
  scte : Nat → Bool

/-- The arrays of `struct remux` at one index: `es`, `hold`, `scte`, and `hold_tag` if `hold_has_tag`. -/
structure Slot where
  es : OutEs
  hold : Option Nat := none
  scte : Option Nat := none
  tag : Option Nat := none

/-- `cc_offsets_t`. -/
structure CcOffsets where
  off : Nat → Nat
  last : Nat → Nat

/-- `struct remux`; `slots` has the first `es_count` indices of its arrays. -/
structure Remux where
  cfg : TvConfig
  pids : OutProgramPids
  emmPidIn : Nat
  pcrPidOut : Nat
  slots : List Slot
  heap : Heap := {}
  holdClock : Bool := false
  tm : Bool := false
  ccm : Option CcOffsets := none

/-- What a call sees of the outside: the `k`-th look at the output's clock, how long before its time a
    packet may leave, the stamps, the shift of the source's time, and which growth of a queue fails. -/
structure Moment where
  clock : Nat → Option Nat
  lead : Int
  restamp : List UInt8 → List UInt8
  stamp : List UInt8 → Option Nat
  delta90k : Int
  growFails : Nat → Bool

namespace Remux

def esCarriesPes (e : OutEs) : Bool :=
  e.isCa = .none && e.streamType ∉ [0x05, 0x0A, 0x0B, 0x0C, 0x0D, 0x14, 0x86]

def wantScte (cfg : TvConfig) (e : OutEs) : Bool :=
  cfg.pcrMode ≠ .preserve && e.streamType = scteStreamType && e.isCa = .none

/-- The output map. -/
def es (r : Remux) : List OutEs := r.slots.map Slot.es

/-! ## Setting up -/

/-- A buffer for an entry that wants one. -/
def newScte (oom : Oom) (cfg : TvConfig) (e : OutEs) (p : Pool Scte35stamp) :
    Option Nat × Pool Scte35stamp :=
  if wantScte cfg e then p.alloc oom.scte {} else (none, p)

/-- The slots of a new map. -/
def newSlots (oom : Oom) (cfg : TvConfig) : List OutEs → Pool Scte35stamp → List Slot × Pool Scte35stamp
  | [], p => ([], p)
  | e :: es, p =>
    let (scte, p) := newScte oom cfg e p
    let (slots, p) := newSlots oom cfg es p
    ({ es := e, scte } :: slots, p)

/-- `remux_new`. -/
def new (oom : Oom) (cfg : TvConfig) (pids : OutProgramPids) (psi : Psi) : Option Remux :=
  let m := buildEsMap cfg pids psi.emmPid psi
  if m.es.length = 0 then none
  else
    let (slots, sctes) := newSlots oom cfg m.es .empty
    some { cfg, pids, emmPidIn := psi.emmPid, pcrPidOut := m.pcrPid, slots, heap := { sctes } }

/-- The loop of `remux_set_hold`; `false` when an allocation failed. -/
def setHoldSlots (oom : Oom) : List Slot → Pool (Releaseq Held) → Bool × List Slot × Pool (Releaseq Held)
  | [], p => (true, [], p)
  | s :: slots, p =>
    match s.hold with
    | some _ =>
      let (ok, slots, p) := setHoldSlots oom slots p
      (ok, s :: slots, p)
    | none =>
      let (hold, p) := p.alloc oom.hold (.new holdMaxPackets)
      if hold = none then (false, s :: slots, p)
      else
        let (ok, slots, p) := setHoldSlots oom slots p
        (ok, { s with hold } :: slots, p)

/-- `remux_set_hold`. -/
def setHold (oom : Oom) (r : Remux) : Remux :=
  let (ok, slots, holds) := setHoldSlots oom r.slots r.heap.holds
  { r with slots, heap := { r.heap with holds }, holdClock := if ok then true else r.holdClock }

/-- `remux_set_timemap`. -/
def setTimemap (r : Remux) : Remux := { r with tm := true }

/-- `remux_set_cc_offsets`. -/
def setCcOffsets (r : Remux) (m : CcOffsets) : Remux :=
  { r with ccm := some { m with last := fun i => if m.last i &&& 0x10 ≠ 0 then m.last i ||| 0x20 else m.last i } }

/-! ## Releasing -/

def diff90 (a b : Nat) : Int :=
  let d : Nat := (a + (2 ^ 64 - b)) % 2 ^ 33
  if d ≥ 2 ^ 32 then (d : Int) - 2 ^ 33 else d

/-- The head of a queue may leave. -/
def due (m : Moment) (all : Bool) (k : Nat) (h : Held) : Bool := all ||
    match m.clock k with
    | none => false
    | some pcr =>
      match h.tag with
      | none => true
      | some tag => diff90 tag (pcr / 300) ≤ m.lead

/-- The loop over one queue in `remux_release`, with `k` looks at the clock before: what leaves, the queue
    and the looks after it. -/
def drainHold (m : Moment) (all : Bool) : Nat → Nat → Releaseq Held → List Pkt × Releaseq Held × Nat
  | 0, k, q => ([], q, k)
  | n + 1, k, q =>
    match q.headItem with
    | none => ([], q, k)
    | some h =>
      if due m all k h then
        let (out, q', k') := drainHold m all n (k + 1) q.pop
        (h.pkt :: out, q', k')
      else ([], q, k + 1)

/-- The queue of a slot in `remux_release`. -/
def releaseHold (m : Moment) (all : Bool) (k : Nat) (hold : Option Nat) (p : Pool (Releaseq Held)) :
    List Pkt × Pool (Releaseq Held) × Nat :=
  match hold with
  | none => ([], p, k)
  | some i =>
    match p.cell i with
    | none => ([], p, k)
    | some q =>
      let (out, q', k') := drainHold m all q.len k q
      (out, p.set i q', k')

/-- The buffer of a slot in `remux_release` of all. -/
def flushScte (scte : Option Nat) (p : Pool Scte35stamp) : List Pkt × Pool Scte35stamp :=
  match scte with
  | none => ([], p)
  | some i =>
    match p.cell i with
    | none => ([], p)
    | some s => (s.flush.1, p.set i s.flush.2)

/-- The loop of `remux_release`. -/
def releaseSlots (m : Moment) (all : Bool) : List Slot → Nat → Heap → List Pkt × Heap × Nat
  | [], k, h => ([], h, k)
  | s :: slots, k, h =>
    let (out, sctes) := if all then flushScte s.scte h.sctes else ([], h.sctes)
    let (out', holds, k) := releaseHold m all k s.hold h.holds
    let (outs, h, k) := releaseSlots m all slots k { holds, sctes }
    (out ++ out' ++ outs, h, k)

/-- `remux_release`. -/
def release (m : Moment) (all : Bool) (r : Remux) : List Pkt × Remux :=
  let (out, heap, _) := releaseSlots m all r.slots 0 r.heap
  (out, { r with heap })

/-! ## A new map -/

/-- The loop of `remap_es` over the slots that are dropped: `flush_hold_slot` of each. -/
def flushDropped (m : Moment) (old neu : List OutEs) : List Slot → Nat → Pool (Releaseq Held) →
    List Pkt × Pool (Releaseq Held)
  | [], _, p => ([], p)
  | s :: slots, j, p =>
    let kept := neu.any fun e => findOldEs old e = some j
    let (out, p) := if kept then ([], p) else
      let (out, p, _) := releaseHold m true 0 s.hold p
      (out, p)
    let (outs, p) := flushDropped m old neu slots (j + 1) p
    (out ++ outs, p)

/-- The queue a new entry gets: the one of its old slot, else a new one if packets are held. -/
def settleHold (oom : Oom) (holdClock : Bool) (hold : Option Nat) (p : Pool (Releaseq Held)) :
    Option Nat × Pool (Releaseq Held) :=
  if hold = none ∧ holdClock then p.alloc oom.hold (.new holdMaxPackets) else (hold, p)

/-- The buffer a new entry gets: the one of its old slot as long as it wants one. -/
def settleScte (oom : Oom) (cfg : TvConfig) (e : OutEs) (scte : Option Nat) (p : Pool Scte35stamp) :
    Option Nat × Pool Scte35stamp :=
  if !wantScte cfg e then (none, p.free scte)
  else if scte = none then p.alloc oom.scte {}
  else (scte, p)

/-- The first loop of `migrate_slots`. -/
def migrateNew (oom : Oom) (cfg : TvConfig) (holdClock : Bool) (old : List Slot) :
    List OutEs → Heap → List Slot × Heap
  | [], h => ([], h)
  | e :: neu, h =>
    let from? := (findOldEs (old.map Slot.es) e).bind fun j => old[j]?
    let (hold, holds) := settleHold oom holdClock (from?.bind Slot.hold) h.holds
    let (scte, sctes) := settleScte oom cfg e (from?.bind Slot.scte) h.sctes
    let (slots, h) := migrateNew oom cfg holdClock old neu { holds, sctes }
    (⟨e, hold, scte, from?.bind Slot.tag⟩ :: slots, h)

/-- The old slots whose queues and buffers nobody took. -/
def unmoved (old : List Slot) (neu : List OutEs) : List Slot :=
  (List.range old.length).filterMap fun j =>
    if neu.any fun e => findOldEs (old.map Slot.es) e = some j then none else old[j]?

def migrateSlots (oom : Oom) (r : Remux) (neu : List OutEs) : List Slot × Heap :=
  let (slots, h) := migrateNew oom r.cfg r.holdClock r.slots neu r.heap
  let left := unmoved r.slots neu
  (slots, { holds := h.holds.freeAll (left.map Slot.hold), sctes := h.sctes.freeAll (left.map Slot.scte) })

/-- What `remap_es` sends before it makes the new map: what is due, then all of the slots it drops. -/
def makeWay (m : Moment) (r : Remux) (neu : List OutEs) : List Pkt × Remux :=
  let (out, r) := r.release m false
  let (out', holds) := flushDropped m r.es neu r.slots 0 r.heap.holds
  (out ++ out', { r with heap := { r.heap with holds } })

/-- The new map in place of the old one. -/
def install (oom : Oom) (r : Remux) (neu : List OutEs) : Remux :=
  let (slots, heap) := r.migrateSlots oom neu
  { r with slots, heap }

/-- `remap_es` for a PMT of the source. -/
def remapEs (oom : Oom) (m : Moment) (r : Remux) (psi : Psi) : List Pkt × Remux :=
  match remapPlan r.cfg r.pids r.emmPidIn r.pcrPidOut r.es psi with
  | none => ([], r)
  | some neu =>
    let (out, r) := r.makeWay m neu
    (out, r.install oom neu)

/-! ## Feeding -/

/-- `remap_cc` for the PID at the offset `i`: the byte with the counter, and the offsets. -/
def remapCcAt (i : Nat) (b : Nat) (m : CcOffsets) : Nat × CcOffsets :=
  let ccIn := b &&& 0x0F
  let payload := if b &&& 0x10 ≠ 0 then 1 else 0
  let off := if m.last i &&& 0x30 = 0x30 then (m.last i + payload + 16 - ccIn) &&& 0x0F else m.off i
  let cc := (ccIn + off) &&& 0x0F
  (b &&& 0xF0 ||| cc,
    ⟨fun k => if k = i then off else m.off k, fun k => if k = i then 0x10 ||| cc else m.last k⟩)

def remapCc (videoPid outPid : Nat) (ccm : Option CcOffsets) (pkt : List UInt8) :
    List UInt8 × Option CcOffsets :=
  match ccm, blockOff videoPid outPid with
  | some m, some i =>
    let (b, m') := remapCcAt i (byteAt pkt 3) m
    (pkt.set 3 (.ofNat b), some m')
  | _, _ => (pkt, ccm)

/-- The packet as `forward_packet` rewrites it. -/
def rewritePacket (m : Moment) (r : Remux) (outPid : Nat) (pkt : List UInt8) :
    List UInt8 × Option CcOffsets :=
  let pkt := (pkt.set 1 (.ofNat (byteAt pkt 1 &&& 0xE0 ||| (outPid >>> 8 &&& 0x1F)))).set 2 (.ofNat outPid)
  let pkt := pkt.take 4 ++ m.restamp pkt
  remapCc r.pids.videoPid outPid r.ccm pkt

/-- `hold_enqueue` into the queue `q`. -/
def holdEnqueue (m : Moment) (x : Held) (q : Releaseq Held) : List Pkt × Releaseq Held :=
  match q.push (m.growFails 0) x with
  | some q' => ([], q')
  | none =>
    let out := (q.headItem.map Held.pkt).toList
    (out, (q.pop.push (m.growFails 1) x).getD q.pop)

/-- The slot at `idx` replaced. -/
def setSlot (r : Remux) (idx : Nat) (s : Slot) : Remux := { r with slots := r.slots.set idx s }

/-- Where `forward_packet` puts the packet: into the buffer, into the queue, or out. -/
def dispatch (m : Moment) (r : Remux) (idx : Nat) (s : Slot) (p : Pkt) : List Pkt × Remux :=
  match s.scte, r.tm with
  | some i, true =>
    match r.heap.sctes.cell i with
    | none => ([], r)
    | some b =>
      let (out, b') := b.feed p m.delta90k
      (out, { r with heap := { r.heap with sctes := r.heap.sctes.set i b' } })
  | _, _ =>
    match s.hold with
    | some i =>
      if r.holdClock && esCarriesPes s.es then
        let tag := (m.stamp p.bytes).orElse fun _ => s.tag
        match r.heap.holds.cell i with
        | none => ([], r)
        | some q =>
          let (out, q') := holdEnqueue m ⟨p, tag⟩ q
          (out, { r.setSlot idx { s with tag } with
            heap := { r.heap with holds := r.heap.holds.set i q' } })
      else ([p], r)
    | none => ([p], r)

def forwardPacket (m : Moment) (r : Remux) (idx : Nat) (s : Slot) (p : Pkt) : List Pkt × Remux :=
  let (bytes, ccm) := rewritePacket m r s.es.outPid p.bytes
  dispatch m { r with ccm } idx s { p with bytes }

/-- `find_es`. The index it remembers is one that this search found in the same map. -/
def findEs (r : Remux) (inPid : Nat) : Option Nat := r.slots.findIdx? fun s => s.es.inPid = inPid

/-- `watch_source_pmt`; `pmt` is the PMT of the source that the packet completed, if it has changed. -/
def watchSourcePmt (oom : Oom) (m : Moment) (r : Remux) : Option Psi → List Pkt × Remux
  | none => ([], r)
  | some psi => r.remapEs oom m psi

/-- The end of `remux_feed`: a packet that is no EIT goes on if its PID is mapped. -/
def forward (m : Moment) (r : Remux) (p : Pkt) : List Pkt × Remux :=
  if p.src = 0x12 then ([], r)
  else
    match r.findEs p.src with
    | none => ([], r)
    | some idx =>
      match r.slots[idx]? with
      | none => ([], r)
      | some s => r.forwardPacket m idx s p

/-- `remux_feed`. -/
def feed (oom : Oom) (m : Moment) (pmt : Option Psi) (seq : Nat) (pkt : List UInt8) (r : Remux) :
    List Pkt × Remux :=
  if byteAt pkt 0 ≠ 0x47 then ([], r)
  else
    let (out, r) := r.watchSourcePmt oom m pmt
    let (out', r) := r.forward m ⟨pkt, tspackPid pkt, seq⟩
    (out ++ out', r)

end Remux

/-! # Who owns the queues and buffers

Every hold queue and every SCTE-35 buffer belongs to one slot. A new map hands them over: what a slot of
the old map had goes to the entry that stays, and the rest is freed. -/

open Remux List

/-- The queues of the slots. -/
def holdRefs (slots : List Slot) : List Nat := slots.filterMap Slot.hold

/-- The buffers of the slots. -/
def scteRefs (slots : List Slot) : List Nat := slots.filterMap Slot.scte

/-- Every queue and buffer belongs to one slot. -/
structure HeapOwned (slots : List Slot) (h : Heap) : Prop where
  holds : h.holds.Owned (holdRefs slots)
  sctes : h.sctes.Owned (scteRefs slots)

theorem filterMap_congr_map {l l' : List Slot} {f : Slot → Option Nat} (h : l'.map f = l.map f) :
    l'.filterMap f = l.filterMap f := by
  have := congrArg (List.filterMap id) h
  rw [filterMap_map, filterMap_map] at this
  exact this

theorem HeapOwned.congr {slots slots' : List Slot} {h : Heap} (hh : HeapOwned slots h)
    (hhold : slots'.map Slot.hold = slots.map Slot.hold) (hscte : slots'.map Slot.scte = slots.map Slot.scte) :
    HeapOwned slots' h := by
  refine ⟨?_, ?_⟩
  · rw [holdRefs, filterMap_congr_map hhold]
    exact hh.holds
  · rw [scteRefs, filterMap_congr_map hscte]
    exact hh.sctes

/-! ## Setting up -/

variable {p : Pool Scte35stamp} {refs : List Nat} (oom : Oom)

theorem newSlots_owned (cfg : TvConfig) (es : List OutEs) (h : p.Owned refs) :
    (newSlots oom cfg es p).1.map Slot.es = es ∧ holdRefs (newSlots oom cfg es p).1 = [] ∧
      (newSlots oom cfg es p).2.Owned (scteRefs (newSlots oom cfg es p).1 ++ refs) := by
  induction es generalizing p refs with
  | nil => exact ⟨rfl, rfl, h⟩
  | cons e es ih =>
    obtain ⟨⟨scte, p1⟩, hnew⟩ : ∃ x, newScte oom cfg e p = x := ⟨_, rfl⟩
    have howned : p1.Owned (scte.toList ++ refs) := by
      rw [newScte] at hnew
      split at hnew
      · have := h.alloc oom.scte {}
        rw [hnew] at this
        exact this
      · cases hnew
        exact h
    obtain ⟨hes, hhold, hscte⟩ := ih howned
    rw [newSlots]
    simp only [hnew]
    refine ⟨congrArg (e :: ·) hes, ?_, hscte.perm ?_⟩
    · rw [holdRefs, filterMap_cons_none rfl]
      exact hhold
    · have hcons : scteRefs ({ es := e, scte } :: (newSlots oom cfg es p1).1) =
          scte.toList ++ scteRefs (newSlots oom cfg es p1).1 := by
        cases scte <;> rfl
      rw [hcons, ← append_assoc]
      exact List.Perm.append_right _ perm_append_comm

theorem setHoldSlots_same (slots : List Slot) (p : Pool (Releaseq Held)) :
    (setHoldSlots oom slots p).2.1.map Slot.es = slots.map Slot.es ∧
      (setHoldSlots oom slots p).2.1.map Slot.scte = slots.map Slot.scte := by
  induction slots generalizing p with
  | nil => exact ⟨rfl, rfl⟩
  | cons s slots ih =>
    rw [setHoldSlots]
    split
    · obtain ⟨hes, hscte⟩ := ih p
      exact ⟨congrArg (s.es :: ·) hes, congrArg (s.scte :: ·) hscte⟩
    · simp only []
      split
      · exact ⟨rfl, rfl⟩
      · obtain ⟨hes, hscte⟩ := ih (p.alloc oom.hold (.new holdMaxPackets)).2
        exact ⟨congrArg (s.es :: ·) hes, congrArg (s.scte :: ·) hscte⟩

theorem setHoldSlots_owned (oom : Oom) (slots : List Slot) {p : Pool (Releaseq Held)} {refs : List Nat}
    (h : p.Owned (holdRefs slots ++ refs)) :
    (setHoldSlots oom slots p).2.2.Owned (holdRefs (setHoldSlots oom slots p).2.1 ++ refs) := by
  induction slots generalizing p refs with
  | nil => exact h
  | cons s slots ih =>
    rw [setHoldSlots]
    cases hs : s.hold with
    | some k =>
      have hcons : ∀ l, holdRefs (s :: l) = k :: holdRefs l := fun l => filterMap_cons_some hs
      rw [hcons] at h
      have hholds := @ih p (k :: refs) (h.perm perm_middle.symm)
      simp only [hcons]
      exact hholds.perm perm_middle
    | none =>
      have hcons : holdRefs (s :: slots) = holdRefs slots := filterMap_cons_none hs
      rw [hcons] at h
      have halloc := h.alloc oom.hold (.new holdMaxPackets)
      obtain ⟨⟨hold, p1⟩, hnew⟩ : ∃ x, p.alloc oom.hold (.new holdMaxPackets) = x := ⟨_, rfl⟩
      rw [hnew] at halloc
      simp only [hnew]
      cases hold with
      | none =>
        rw [if_pos rfl]
        simp only [hcons]
        exact halloc
      | some k =>
        have halloc : p1.Owned (k :: (holdRefs slots ++ refs)) := halloc
        exact (@ih p1 (k :: refs) (halloc.perm perm_middle.symm)).perm perm_middle

/-! ## Releasing -/

variable (m : Moment)

theorem releaseHold_owned (all : Bool) (k : Nat) (hold : Option Nat) {p : Pool (Releaseq Held)} (h : p.Owned refs) : (releaseHold m all k hold p).2.1.Owned refs := by
  unfold releaseHold
  split
  · exact h
  · next i =>
    split
    · exact h
    · next q hq => exact h.set ((h.live i).1 (by rw [hq]; exact Option.some_ne_none q)) _

theorem flushScte_owned (scte : Option Nat) (h : p.Owned refs) : (flushScte scte p).2.Owned refs := by
  unfold flushScte
  split
  · exact h
  · next i =>
    split
    · exact h
    · next s hs => exact h.set ((h.live i).1 (by rw [hs]; exact Option.some_ne_none s)) _

theorem releaseSlots_owned (all : Bool) (slots : List Slot) (k : Nat) {refs' : List Nat}
    {h : Heap} (hholds : h.holds.Owned refs) (hsctes : h.sctes.Owned refs') :
    (releaseSlots m all slots k h).2.1.holds.Owned refs ∧ (releaseSlots m all slots k h).2.1.sctes.Owned refs' := by
  induction slots generalizing k h with
  | nil => exact ⟨hholds, hsctes⟩
  | cons s slots ih =>
    cases all with
    | false => exact ih _ (releaseHold_owned m false k s.hold hholds) hsctes
    | true => exact ih _ (releaseHold_owned m true k s.hold hholds) (flushScte_owned s.scte hsctes)

theorem flushDropped_owned (old neu : List OutEs) (slots : List Slot) (j : Nat) {p : Pool (Releaseq Held)}
    (h : p.Owned refs) : (flushDropped m old neu slots j p).2.Owned refs := by
  induction slots generalizing j p with
  | nil => exact h
  | cons s slots ih =>
    rw [flushDropped]
    cases neu.any fun e => findOldEs old e = some j with
    | true => exact ih _ h
    | false => exact ih _ (releaseHold_owned m true 0 s.hold h)

/-! ## Handing over -/

/-- The entries get their pointers one by one: `settle` is given what an entry had. -/
def adopt {α : Type} (settle : OutEs → Option Nat → Pool α → Option Nat × Pool α)
    (had : OutEs → Option Nat) : List OutEs → Pool α → List (Option Nat) × Pool α
  | [], p => ([], p)
  | e :: neu, p =>
    let (ptr, p) := settle e (had e) p
    let (ptrs, p) := adopt settle had neu p
    (ptr :: ptrs, p)

theorem adopt_owned {α : Type} {settle : OutEs → Option Nat → Pool α → Option Nat × Pool α}
    (hsettle : ∀ e ptr (p : Pool α) refs, p.Owned (ptr.toList ++ refs) → (settle e ptr p).2.Owned ((settle e ptr p).1.toList ++ refs))
    (had : OutEs → Option Nat) (neu : List OutEs) {p : Pool α} {refs : List Nat}
    (h : p.Owned (neu.filterMap had ++ refs)) :
    (adopt settle had neu p).2.Owned ((adopt settle had neu p).1.filterMap id ++ refs) := by
  induction neu generalizing p refs with
  | nil => exact h
  | cons e neu ih =>
    have hcons : (e :: neu).filterMap had = (had e).toList ++ neu.filterMap had := by
      cases he : had e with
      | none => exact filterMap_cons_none he
      | some k => exact filterMap_cons_some he
    rw [hcons, append_assoc] at h
    have hstep := hsettle e (had e) p _ h
    rw [adopt]
    generalize settle e (had e) p = out at hstep
    obtain ⟨ptr, p1⟩ := out
    have hrest := @ih p1 (ptr.toList ++ refs) (hstep.perm (by
      rw [← append_assoc, ← append_assoc]
      exact List.Perm.append_right _ perm_append_comm))
    refine hrest.perm ?_
    have hptr : (ptr :: (adopt settle had neu p1).1).filterMap id =
        ptr.toList ++ (adopt settle had neu p1).1.filterMap id := by
      cases ptr <;> rfl
    rw [hptr, ← append_assoc]
    exact List.Perm.append_right _ perm_append_comm

theorem settleHold_owned (holdClock : Bool) {ptr : Option Nat} {p : Pool (Releaseq Held)} (h : p.Owned (ptr.toList ++ refs)) :
    (settleHold oom holdClock ptr p).2.Owned ((settleHold oom holdClock ptr p).1.toList ++ refs) := by
  rw [settleHold]
  split
  · next hnone =>
    rw [hnone.1] at h
    exact h.alloc oom.hold _
  · exact h

theorem settleScte_owned (cfg : TvConfig) (e : OutEs) {ptr : Option Nat} (h : p.Owned (ptr.toList ++ refs)) :
    (settleScte oom cfg e ptr p).2.Owned ((settleScte oom cfg e ptr p).1.toList ++ refs) := by
  rw [settleScte]
  split
  · exact h.free
  · split
    · next hnone =>
      rw [hnone] at h
      exact h.alloc oom.scte {}
    · exact h

/-- What an entry of the new map had. -/
def hadOf (old : List Slot) (f : Slot → Option Nat) (e : OutEs) : Option Nat :=
  ((findOldEs (old.map Slot.es) e).bind fun j => old[j]?).bind f

theorem migrateNew_eq (cfg : TvConfig) (holdClock : Bool) (old : List Slot) (neu : List OutEs) (h : Heap) :
    (migrateNew oom cfg holdClock old neu h).1.map Slot.es = neu ∧
    (migrateNew oom cfg holdClock old neu h).1.map Slot.hold =
      (adopt (fun _ => settleHold oom holdClock) (hadOf old Slot.hold) neu h.holds).1 ∧
    (migrateNew oom cfg holdClock old neu h).1.map Slot.scte =
      (adopt (settleScte oom cfg) (hadOf old Slot.scte) neu h.sctes).1 ∧
    (migrateNew oom cfg holdClock old neu h).2.holds =
      (adopt (fun _ => settleHold oom holdClock) (hadOf old Slot.hold) neu h.holds).2 ∧
    (migrateNew oom cfg holdClock old neu h).2.sctes =
      (adopt (settleScte oom cfg) (hadOf old Slot.scte) neu h.sctes).2 := by
  induction neu generalizing h with
  | nil => exact ⟨rfl, rfl, rfl, rfl, rfl⟩
  | cons e neu ih =>
    obtain ⟨hes, hhold, hscte, hholds, hsctes⟩ := ih
      { holds := (settleHold oom holdClock (hadOf old Slot.hold e) h.holds).2
        sctes := (settleScte oom cfg e (hadOf old Slot.scte e) h.sctes).2 }
    exact ⟨congrArg (e :: ·) hes, congrArg (_ :: ·) hhold, congrArg (_ :: ·) hscte, hholds, hsctes⟩

section
variable {old : List Slot} {neu : List OutEs}

/-- The old slots that the new entries take over. -/
def takenIdx (old : List Slot) (neu : List OutEs) : List Nat := neu.filterMap (findOldEs (old.map Slot.es))

theorem takenIdx_nodup (honce : ∀ e ∈ neu, e.key ∈ (old.map Slot.es).map OutEs.key →
    (neu.map OutEs.key).count e.key = 1) : (takenIdx old neu).Nodup := by
  have hkeys := kept_keys_nodup honce
  have hfilter : takenIdx old neu = (neu.filter fun e => e.key ∈ (old.map Slot.es).map OutEs.key).filterMap
        (findOldEs (old.map Slot.es)) := by
    rw [takenIdx, filterMap_filter]
    refine filterMap_congr fun e _ => ?_
    split
    · rfl
    · next hnot =>
      rw [decide_eq_true_eq] at hnot
      exact findOldEs_eq_none.2 hnot
  rw [List.Nodup, pairwise_map] at hkeys
  rw [hfilter, List.Nodup, pairwise_filterMap]
  refine hkeys.imp ?_
  intro a b hne i hi j hj hij
  obtain ⟨o, ho, hokey⟩ := findOldEs_eq_some hi
  obtain ⟨o', ho', hokey'⟩ := findOldEs_eq_some hj
  rw [hij] at ho
  obtain rfl := Option.some.inj (ho.symm.trans ho')
  exact hne (hokey.symm.trans hokey')

theorem mem_takenIdx {j : Nat} : j ∈ takenIdx old neu ↔
    (neu.any fun e => findOldEs (old.map Slot.es) e = some j) = true := by
  rw [takenIdx, mem_filterMap, List.any_eq_true]
  simp only [decide_eq_true_eq]

theorem filterMap_eq_range {α β : Type} (l : List α) (f : α → Option β) :
    l.filterMap f = (List.range l.length).filterMap fun j => (l[j]?).bind f := by
  induction l with
  | nil => rfl
  | cons a l ih =>
    rw [length_cons, range_succ_eq_map, filterMap_cons, filterMap_cons, filterMap_map]
    rw [ih]
    rfl

theorem refs_split (honce : ∀ e ∈ neu, e.key ∈ (old.map Slot.es).map OutEs.key →
    (neu.map OutEs.key).count e.key = 1) (f : Slot → Option Nat) :
    (old.filterMap f).Perm (neu.filterMap (hadOf old f) ++ (unmoved old neu).filterMap f) := by
  have htaken : neu.filterMap (hadOf old f) = (takenIdx old neu).filterMap fun j => (old[j]?).bind f := by
    rw [takenIdx, filterMap_filterMap]
    refine filterMap_congr fun e _ => ?_
    rw [hadOf, Option.bind_assoc]
  have hleft : (unmoved old neu).filterMap f = ((List.range old.length).filter fun j => j ∉ takenIdx old neu).filterMap
        fun j => (old[j]?).bind f := by
    rw [unmoved, filterMap_filterMap, filterMap_filter]
    refine filterMap_congr fun j _ => ?_
    by_cases hj : j ∈ takenIdx old neu
    · rw [if_pos (mem_takenIdx.1 hj)]
      simp [hj]
    · rw [if_neg (fun h => hj (mem_takenIdx.2 h))]
      simp [hj]
  rw [filterMap_eq_range, htaken, hleft, ← filterMap_append]
  refine List.Perm.filterMap _ ?_
  have hsub : ∀ j ∈ takenIdx old neu, j < old.length := by
    intro j hj
    obtain ⟨e, -, he⟩ := mem_filterMap.1 hj
    obtain ⟨o, ho, -⟩ := findOldEs_eq_some he
    have hlt := (List.getElem?_eq_some_iff.1 ho).1
    rw [length_map] at hlt
    exact hlt
  refine (perm_ext_iff_of_nodup nodup_range ?_).2 ?_
  · refine nodup_append.2 ⟨takenIdx_nodup honce, nodup_range.filter _, ?_⟩
    intro a ha b hb hab
    rw [mem_filter, decide_eq_true_eq] at hb
    exact hb.2 (hab ▸ ha)
  · intro j
    rw [mem_append, mem_filter, decide_eq_true_eq, mem_range]
    by_cases hj : j ∈ takenIdx old neu
    · exact ⟨fun _ => .inl hj, fun _ => hsub j hj⟩
    · exact ⟨fun hlt => .inr ⟨hlt, hj⟩, fun hor => (hor.resolve_left hj).1⟩

theorem migrateSlots_owned (oom : Oom) {r : Remux}
    (honce : ∀ e ∈ neu, e.key ∈ (r.slots.map Slot.es).map OutEs.key → (neu.map OutEs.key).count e.key = 1)
    (h : HeapOwned r.slots r.heap) :
    (r.migrateSlots oom neu).1.map Slot.es = neu ∧ HeapOwned (r.migrateSlots oom neu).1 (r.migrateSlots oom neu).2 := by
  obtain ⟨hes, hhold, hscte, hholds, hsctes⟩ := migrateNew_eq oom r.cfg r.holdClock r.slots neu r.heap
  have hrefs : ∀ (l : List Slot) (f : Slot → Option Nat), l.filterMap f = (l.map f).filterMap id := by
    intro l f
    rw [filterMap_map]
    rfl
  have hslots : (r.migrateSlots oom neu).1 = (migrateNew oom r.cfg r.holdClock r.slots neu r.heap).1 := rfl
  refine ⟨hes, ?_, ?_⟩
  · refine Pool.Owned.freeAll ?_
    rw [hholds, ← hrefs]
    have hadopt := @adopt_owned _ (fun _ => settleHold oom r.holdClock)
      (fun _ _ _ _ hp => settleHold_owned oom r.holdClock hp) (hadOf r.slots Slot.hold) neu _ _
      (h.holds.perm (refs_split honce Slot.hold))
    refine hadopt.perm (perm_append_comm.trans (List.Perm.append_left _ ?_))
    rw [hslots, holdRefs, hrefs, hhold]
  refine Pool.Owned.freeAll ?_
  rw [hsctes, ← hrefs]
  have hadopt := @adopt_owned _ (settleScte oom r.cfg)
    (fun e _ _ _ hp => settleScte_owned oom r.cfg e hp) (hadOf r.slots Slot.scte) neu _ _
    (h.sctes.perm (refs_split honce Slot.scte))
  refine hadopt.perm (perm_append_comm.trans (List.Perm.append_left _ ?_))
  rw [hslots, scteRefs, hrefs, hscte]

end

end DvbIpiTools.Tvhead
