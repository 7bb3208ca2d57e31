import Mathlib.Data.Rat.Defs
import DvbIpiTools.Utils.RefCount

set_option autoImplicit false

/-! # Snapshots of the segment store (`dipixy/segstore/snapshot.c`, `pool.c`)

A snapshot has a ring of segments, the bytes of the segment in progress and the init segment. Rings and buffers
have reference counts, and what is freed loses its contents here. A snapshot's cached texts, the parameters of its
tracks and the pool that keeps freed buffers are left out. -/

namespace DvbIpiTools.Dipixy

open RefCount

def hlsMaxSegs : Nat := 10
def hlsMaxParts : Nat := 32
def hlsInitSegMax : Nat := 8192

/-- Seconds, with what `(uint64_t)(duration * 1000.0 + 0.5)` gives for them. -/
structure Duration where
  s : ℚ
  ms : UInt64

/-- An entry of `hls_parts_t`. -/
structure Part where
  offset : Nat
  size : Nat
  duration : ℚ
  independent : Bool
  deriving DecidableEq

/-- `hls_seg_t`; `data` is a buffer. -/
structure Seg where
  data : Option Nat := none
  size : Nat := 0
  duration : Duration := ⟨0, 0⟩
  seq : UInt32 := 0
  startMs : UInt64 := 0
  parts : List Part := []
  disc : Bool := false

/-- The bytes of a buffer that have been written. -/
structure Buf where
  bytes : List UInt8
  cap : Nat

/-- Buffers, and rings of `hlsMaxSegs` segments. -/
structure Heap where
  bufs : List (Cell Buf) := []
  rings : List (Cell (List Seg)) := []

/-- `hls_snapshot_t`. -/
structure Snapshot where
  ring : Nat
  head : Nat := 0
  count : Nat := 0
  oldestSeq : UInt32 := 0
  nextSeq : UInt32 := 0
  cumMs : UInt64 := 0
  epoch : UInt32 := 0
  discPending : Bool := false
  epochBaseMs : UInt64 := 0
  availMs : UInt64 := 0
  tdHw : ℚ := 0
  initData : Option Nat := none
  initSize : Nat := 0
  initGen : Nat := 0
  partTarget : ℚ := 0
  liveData : Option Nat := none
  liveLen : Nat := 0
  liveCap : Nat := 0
  liveParts : List Part := []
  liveMsn : UInt32 := 0
  deriving DecidableEq

/-- Which allocations of a call succeed. -/
structure Mem where
  buf : Bool := true
  snap : Bool := true
  ring : Bool := true

def segBufCap (size : Nat) : Nat :=
  (((List.range 15).map fun cls => 4096 <<< cls).find? fun cap => size ≤ cap).getD size

namespace Heap

/-- `seg_buf_alloc`. -/
def bufAlloc (size : Nat) (h : Heap) : Nat × Heap :=
  (h.bufs.length, { h with bufs := alloc h.bufs ⟨[], segBufCap size⟩ })

/-- `memcpy` to a place in a buffer. -/
def write (x off : Nat) (data : List UInt8) (h : Heap) : Heap :=
  { h with bufs := modifyVal h.bufs x fun b =>
    { b with bytes := b.bytes.take off ++ data ++ b.bytes.drop (off + data.length) } }

def bytes (h : Heap) (x : Nat) : List UInt8 := ((valOf h.bufs x).map Buf.bytes).getD []

/-- `seg_buf_ref`. -/
def bufRef (x : Option Nat) (h : Heap) : Heap :=
  match x with
  | none => h
  | some x => { h with bufs := incRef h.bufs x }

/-- `seg_buf_unref`. -/
def bufUnref (x : Option Nat) (h : Heap) : Heap :=
  match x with
  | none => h
  | some x => { h with bufs := decRef ⟨[], 0⟩ h.bufs x }

def segs (h : Heap) (r : Nat) : List Seg := (valOf h.rings r).getD []

def setSegs (r : Nat) (f : List Seg → List Seg) (h : Heap) : Heap := { h with rings := modifyVal h.rings r f }

def ringRef (r : Nat) (h : Heap) : Heap := { h with rings := incRef h.rings r }

def ringUnref (r : Nat) (h : Heap) : Heap :=
  let gone := if refOf h.rings r = 1 then h.segs r else []
  let h := gone.foldl (fun h s => h.bufUnref s.data) h
  { h with rings := decRef [] h.rings r }

def ringCow (mem : Mem) (ns : Snapshot) (h : Heap) : Option (Snapshot × Heap) :=
  if refOf h.rings ns.ring = 1 then some (ns, h)
  else if !mem.ring then none
  else
    let segs := h.segs ns.ring
    let nr := h.rings.length
    let h := { h with rings := alloc h.rings segs }
    let h := segs.foldl (fun h s => h.bufRef s.data) h
    some ({ ns with ring := nr }, h.ringUnref ns.ring)

def snapClone (floor : UInt32) (base : Option Snapshot) (mem : Mem) (h : Heap) : Option (Snapshot × Heap) :=
  if !mem.snap then none
  else match base with
    | none =>
      if !mem.ring then none
      else some ({ ring := h.rings.length, nextSeq := floor, oldestSeq := floor, liveMsn := floor },
        { h with rings := alloc h.rings (List.replicate hlsMaxSegs {}) })
    | some base => some (base, ((h.ringRef base.ring).bufRef base.liveData).bufRef base.initData)

def snapFree (ns : Snapshot) (h : Heap) : Heap := ((h.ringUnref ns.ring).bufUnref ns.liveData).bufUnref ns.initData

/-- The segments of a snapshot from the oldest on. -/
def window (h : Heap) (s : Snapshot) : List Seg :=
  (List.range s.count).map fun i => (h.segs s.ring).getD ((s.head + i) % hlsMaxSegs) {}

end Heap

/-! # The segment store (`dipixy/segstore/push.c`, `store.c`)

Every store has a published snapshot. A call makes another one from it and publishes that; the old one is freed
some time later, when no reader has it any more. A call finds its store by the key, as `hls_push_segment` and
its kind do. -/

/-- What a call comes to: an error, nothing to do, or a snapshot to publish. -/
inductive Outcome
  | fail
  | keep
  | publish (ns : Snapshot)

/-- What a call on a store reads besides the heap. -/
structure StoreView where
  floor : UInt32
  maxSegs : Nat
  old : Option Snapshot

namespace Heap

/-- The oldest segment makes room for another one. -/
def evict (maxSegs : Nat) (ns : Snapshot) (h : Heap) : Snapshot × Heap :=
  if ns.count ≥ maxSegs then
    let h := h.bufUnref ((h.segs ns.ring).getD ns.head {}).data
    ({ ns with head := (ns.head + 1) % hlsMaxSegs, count := ns.count - 1, oldestSeq := ns.oldestSeq + 1 },
      h.setSegs ns.ring fun segs => segs.modify ns.head fun s => { s with data := none })
  else (ns, h)

/-- A segment is put behind the newest one. -/
def append (ns : Snapshot) (data : Option Nat) (size : Nat) (parts : List Part) (d : Duration) (h : Heap) :
    Snapshot × Heap :=
  let seg : Seg := ⟨data, size, d, ns.nextSeq, ns.cumMs, parts, ns.discPending⟩
  ({ ns with
      discPending := false
      nextSeq := ns.nextSeq + 1
      cumMs := ns.cumMs + d.ms
      count := ns.count + 1
      tdHw := if d.s > ns.tdHw then d.s else ns.tdHw },
    h.setSegs ns.ring fun segs => segs.set ((ns.head + ns.count) % hlsMaxSegs) seg)

/-- `hls_push_segment_at`. -/
def pushSegment (v : StoreView) (mem : Mem) (data : List UInt8) (d : Duration) (h : Heap) : Outcome × Heap :=
  if !mem.buf then (.fail, h)
  else
    let (copy, h) := h.bufAlloc data.length
    let h := h.write copy 0 data
    match h.snapClone v.floor v.old mem with
    | none => (.fail, h.bufUnref (some copy))
    | some (ns, h) =>
      match h.ringCow mem ns with
      | none => (.fail, (h.snapFree ns).bufUnref (some copy))
      | some (ns, h) =>
        let (ns, h) := h.evict v.maxSegs ns
        let (ns, h) := h.append ns (some copy) data.length [] d
        (.publish ns, h)

def liveBufEnsure (mem : Mem) (ns : Snapshot) (need : Nat) (h : Heap) : Option (Snapshot × Heap) :=
  if ns.liveData.isSome ∧ ns.liveCap ≥ need then some (ns, h)
  else if !mem.buf then none
  else
    let (nb, h) := h.bufAlloc need
    let h := match ns.liveData with
      | some x => if ns.liveLen ≠ 0 then h.write nb 0 ((h.bytes x).take ns.liveLen) else h
      | none => h
    some ({ ns with liveData := some nb, liveCap := segBufCap need }, h.bufUnref ns.liveData)

/-- `hls_push_part_at`. -/
def pushPart (v : StoreView) (mem : Mem) (data : List UInt8) (duration : ℚ) (independent : Bool) (h : Heap) :
    Outcome × Heap :=
  match h.snapClone v.floor v.old mem with
  | none => (.fail, h)
  | some (ns, h) =>
    if ns.liveParts.length ≥ hlsMaxParts then (.fail, h.snapFree ns)
    else match h.liveBufEnsure mem ns (ns.liveLen + data.length) with
      | none => (.fail, h.snapFree ns)
      | some (ns, h) =>
        let h := match ns.liveData with
          | some x => h.write x ns.liveLen data
          | none => h
        (.publish { ns with
          liveParts := ns.liveParts ++ [⟨ns.liveLen, data.length, duration, independent⟩]
          liveLen := ns.liveLen + data.length }, h)

/-- `hls_push_segment_ll_at`. -/
def pushSegmentLl (v : StoreView) (mem : Mem) (d : Duration) (h : Heap) : Outcome × Heap :=
  match h.snapClone v.floor v.old mem with
  | none => (.fail, h)
  | some (ns, h) =>
    match h.ringCow mem ns with
    | none => (.fail, h.snapFree ns)
    | some (ns, h) =>
      let (ns, h) := h.evict v.maxSegs ns
      let (ns, h) := h.append ns ns.liveData ns.liveLen ns.liveParts d
      (.publish { ns with liveData := none, liveCap := 0, liveLen := 0, liveParts := [], liveMsn := ns.nextSeq }, h)

/-- `hls_store_discontinuity_at`; the position that it returns is the `cumMs` of the snapshot. -/
def discontinuity (v : StoreView) (mem : Mem) (h : Heap) : Outcome × Heap :=
  match v.old with
  | none => (.keep, h)
  | some old =>
    match h.snapClone v.floor (some old) mem with
    | none => (.fail, h)
    | some (ns, h) =>
      match h.ringCow mem ns with
      | none => (.fail, h.snapFree ns)
      | some (ns, h) =>
        let h := (h.segs ns.ring).foldl (fun h s => h.bufUnref s.data) h
        let h := h.setSegs ns.ring fun segs => segs.map fun s => { s with data := none }
        let h := h.bufUnref ns.liveData
        let next := ns.nextSeq + 1
        (.publish { ns with
          liveData := none
          liveCap := 0
          liveLen := 0
          liveParts := []
          head := 0
          count := 0
          nextSeq := next
          oldestSeq := next
          liveMsn := if ns.partTarget > 0 then next else ns.liveMsn
          epoch := ns.epoch + 1
          discPending := true
          epochBaseMs := ns.cumMs }, h)

/-- `hls_set_init_segment_at`. -/
def setInitSegment (v : StoreView) (mem : Mem) (data : List UInt8) (h : Heap) : Outcome × Heap :=
  if data.length > hlsInitSegMax then (.fail, h)
  else match h.snapClone v.floor v.old mem with
    | none => (.fail, h)
    | some (ns, h) =>
      if !mem.buf then (.fail, h.snapFree ns)
      else
        let (nd, h) := h.bufAlloc data.length
        let h := (h.write nd 0 data).bufUnref ns.initData
        (.publish { ns with initData := some nd, initSize := data.length, initGen := ns.initGen + 1 }, h)

/-- `hls_llhls_enable` for one store. -/
def llhlsEnable (v : StoreView) (mem : Mem) (partTarget : ℚ) (h : Heap) : Outcome × Heap :=
  match h.snapClone v.floor v.old mem with
  | none => (.fail, h)
  | some (ns, h) => (.publish { ns with partTarget, liveMsn := ns.nextSeq }, h)

/-- `hls_store_sync_at` with the snapshot of the other store. -/
def sync (v : StoreView) (mem : Mem) (cur : Option Snapshot) (h : Heap) : Outcome × Heap :=
  match h.snapClone v.floor none mem with
  | none => (.fail, h)
  | some (ns, h) =>
    let ns := match cur with
      | none => ns
      | some cur => { ns with
        nextSeq := cur.nextSeq
        oldestSeq := cur.nextSeq
        cumMs := cur.cumMs
        epoch := cur.epoch
        discPending := cur.discPending
        epochBaseMs := cur.epochBaseMs
        availMs := cur.availMs
        tdHw := cur.tdHw
        partTarget := cur.partTarget
        liveMsn := if cur.partTarget > 0 then cur.nextSeq else ns.liveMsn }
    let ns := match v.old with
      | none => ns
      | some old => { ns with initGen := old.initGen }
    (.publish ns, h)

/-- `hls_store_anchor_at`. -/
def anchor (v : StoreView) (mem : Mem) (wallMs : UInt64) (h : Heap) : Outcome × Heap :=
  if v.old.any fun old => old.availMs ≠ 0 then (.keep, h)
  else match h.snapClone v.floor v.old mem with
    | none => (.fail, h)
    | some (ns, h) => (.publish { ns with availMs := wallMs }, h)

end Heap

/-! ## The table of stores -/

inductive SlotState
  | free
  | opened
  | closing
  deriving DecidableEq

/-- `hls_store_t` and its state; `snap` is the published snapshot. -/
structure Store (K : Type) where
  state : SlotState := .free
  key : Option K := none
  maxSegs : Nat := 0
  snap : Option Nat := none

/-- A snapshot that was published, until it is freed. -/
structure SnapCell where
  snap : Snapshot
  live : Bool

/-- The stores, the snapshots and `g_seq_floor`. -/
structure SegStore (K : Type) where
  slots : List (Store K)
  heap : Heap := {}
  snaps : List SnapCell := []
  floor : UInt32 := 0

/-- A call on a store that is open. -/
inductive StoreCall
  | pushSegment (data : List UInt8) (d : Duration)
  | pushPart (data : List UInt8) (duration : ℚ) (independent : Bool)
  | pushSegmentLl (d : Duration)
  | discontinuity
  | setInitSegment (data : List UInt8)
  | llhlsEnable (partTarget : ℚ)
  | anchor (wallMs : UInt64)

inductive StoreEvent (K : Type)
  | openStore (key : K) (maxSegs : Nat)
  | closeStore (key : K) (alloc : Bool)
  | call (key : K) (mem : Mem) (c : StoreCall)
  | sync (dst src : K) (mem : Mem)
  | reclaim (id : Nat)
  | slotFree (i : Nat)

def Heap.call (v : StoreView) (mem : Mem) (h : Heap) : StoreCall → Outcome × Heap
  | .pushSegment data d => h.pushSegment v mem data d
  | .pushPart data duration independent => h.pushPart v mem data duration independent
  | .pushSegmentLl d => h.pushSegmentLl v mem d
  | .discontinuity => h.discontinuity v mem
  | .setInitSegment data => h.setInitSegment v mem data
  | .llhlsEnable partTarget => h.llhlsEnable v mem partTarget
  | .anchor wallMs => h.anchor v mem wallMs

namespace SegStore

variable {K : Type} [DecidableEq K]

/-- `hls_store_init`. -/
def init (maxChannels : Nat) : SegStore K := { slots := List.replicate (min (max maxChannels 1) (1024 * 3)) {} }

/-- `hls_store_find`. -/
def find (st : SegStore K) (key : K) : Option Nat :=
  st.slots.findIdx? fun s => s.state = .opened ∧ s.key = some key

/-- The published snapshot of a slot. -/
def current (st : SegStore K) (i : Nat) : Option Snapshot :=
  ((st.slots[i]?).bind Store.snap).bind fun id => (st.snaps[id]?).map SnapCell.snap

def view (st : SegStore K) (i : Nat) : StoreView :=
  ⟨st.floor, ((st.slots[i]?).map Store.maxSegs).getD 0, st.current i⟩

/-- A snapshot takes the place of the published one. -/
def finish (st : SegStore K) (i : Nat) : Outcome × Heap → SegStore K
  | (.fail, heap) => { st with heap }
  | (.keep, heap) => { st with heap }
  | (.publish ns, heap) => { st with
    heap
    snaps := st.snaps ++ [⟨ns, true⟩]
    slots := st.slots.modify i fun s => { s with snap := some st.snaps.length } }

/-- The number of segments that `hls_store_open` lets a store have. -/
def clampSegs (maxSegs : Nat) : Nat :=
  let maxSegs := if maxSegs < 2 then 2 else maxSegs
  if maxSegs > hlsMaxSegs then hlsMaxSegs else maxSegs

/-- `hls_store_open`: an open store is drained, or a free slot is taken. -/
def openStore (st : SegStore K) (key : K) (maxSegs : Nat) : SegStore K :=
  match (st.find key).or (st.slots.findIdx? fun s => s.state = .free) with
  | none => st
  | some i => { st with
    slots := st.slots.modify i fun _ => ⟨.opened, some key, clampSegs maxSegs, none⟩ }

def seqFloorNote (st : SegStore K) (nextSeq : UInt32) : SegStore K :=
  if nextSeq > st.floor then { st with floor := nextSeq } else st

/-- `hls_store_close`. -/
def closeStore (st : SegStore K) (key : K) (alloc : Bool) : SegStore K :=
  match st.find key with
  | none => st
  | some i =>
    if !alloc then st
    else
      let cur := st.current i
      let st := match cur with
        | none => st
        | some cur => st.seqFloorNote cur.nextSeq
      { st with slots := st.slots.modify i fun s => { s with state := .closing, snap := none } }

/-- A call that finds its store. -/
def call (st : SegStore K) (key : K) (mem : Mem) (c : StoreCall) : SegStore K :=
  match st.find key with
  | none => st
  | some i => st.finish i (st.heap.call (st.view i) mem c)

def sync (st : SegStore K) (dst src : K) (mem : Mem) : SegStore K :=
  match st.find dst, st.find src with
  | some i, some j => st.finish i (st.heap.sync (st.view i) mem (st.current j))
  | _, _ => st

/-- A snapshot that is not published any more is freed. -/
def reclaim (st : SegStore K) (id : Nat) : SegStore K :=
  match st.snaps[id]? with
  | none => st
  | some c =>
    if c.live ∧ ∀ s ∈ st.slots, s.snap ≠ some id then { st with
      heap := st.heap.snapFree c.snap
      snaps := st.snaps.set id { c with live := false } }
    else st

/-- The slot of a closed store is free again. -/
def slotFree (st : SegStore K) (i : Nat) : SegStore K :=
  { st with slots := st.slots.modify i fun s => if s.state = .closing then { s with state := .free } else s }

def step (st : SegStore K) : StoreEvent K → SegStore K
  | .openStore key maxSegs => st.openStore key maxSegs
  | .closeStore key alloc => st.closeStore key alloc
  | .call key mem c => st.call key mem c
  | .sync dst src mem => st.sync dst src mem
  | .reclaim id => st.reclaim id
  | .slotFree i => st.slotFree i

end SegStore

end DvbIpiTools.Dipixy
