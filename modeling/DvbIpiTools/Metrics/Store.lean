import DvbIpiTools.Metrics.ReaderRuns

set_option autoImplicit false

/-! # The store of metrics snapshots (`metrics/store.c`)

The points in time are values of an arbitrary type: they are stored, and compared when the store is reaped, where the
comparison of floating point numbers is a parameter. -/

namespace DvbIpiTools.Metrics

variable {T : Type} [Zero T]

def storeMaxInstances : Nat := 64
def storeMaxBlobBytes : Nat := 256 * 1024

/-- `store_slot_t`; of a blob the bytes in use. In cleared memory there is no component. -/
structure Slot (T : Type) [Zero T] where
  used : Bool := false
  valid : Bool := false
  component : Option Component := none
  metricsId : MetricsId := .ofField []
  processStartTime : UInt64 := 0
  sequence : UInt64 := 0
  snapshotTime : UInt64 := 0
  receivedMono : T := 0
  activityMono : T := 0
  version : UInt8 := 0
  live : List UInt8 := []
  stage : List UInt8 := []
  staging : Bool := false
  stageProcessStart : UInt64 := 0
  stageSequence : UInt64 := 0
  stageNext : Nat := 0

/-- The counters of `store_stats_t` that the store itself keeps. -/
structure Stats where
  snapshotsReceivedTotal : Nat := 0
  snapshotsRejectedMalformed : Nat := 0
  snapshotsRejectedStale : Nat := 0
  snapshotsRejectedFull : Nat := 0
  snapshotsRejectedVersion : Nat := 0
  snapshotsRejectedToolarge : Nat := 0
  snapshotsIncomplete : Nat := 0
  partsOrphaned : Nat := 0

/-- `store_t`. -/
structure Store (T : Type) [Zero T] where
  slots : Fin storeMaxInstances → Slot T
  stats : Stats

def storeInit : Store T := ⟨fun _ => {}, {}⟩

def findSlot (st : Store T) (component : Component) (metricsId : MetricsId) : Option (Fin storeMaxInstances) :=
  (List.finRange storeMaxInstances).find? fun i =>
    (st.slots i).used && (st.slots i).component == some component && (st.slots i).metricsId == metricsId

def findFreeSlot (st : Store T) : Option (Fin storeMaxInstances) :=
  (List.finRange storeMaxInstances).find? fun i => !(st.slots i).used

/-- `discard_stage` on the slot. -/
def discardStage (s : Slot T) : Slot T := { s with staging := false, stage := [] }

/-- `discard_stage` on the counters. -/
def countIncomplete (s : Slot T) (stats : Stats) : Stats :=
  if s.staging then { stats with snapshotsIncomplete := stats.snapshotsIncomplete + 1 } else stats

/-- `release_if_empty`, with the `release_slot` it calls. -/
def releaseIfEmpty (s : Slot T) : Slot T := if s.valid = false ∧ s.staging = false then {} else s

/-- `body_valid` returns 0. -/
def bodyValid (version : UInt8) (body : List UInt8) : Bool :=
  (readAll metricsReaderNextRef (body.length + 1) (metricsReaderInitBody version body)).map Prod.snd == some .done

/-- `commit_stage` on the slot. -/
def commitStage (s : Slot T) (hdr : Hdr) (now : T) : Slot T := { s with
    live := s.stage
    stage := []
    staging := false
    valid := true
    version := hdr.protoVersion
    processStartTime := s.stageProcessStart
    sequence := s.stageSequence
    snapshotTime := hdr.snapshotTime
    receivedMono := now }

/-- A slot for a new instance. -/
def Slot.claim (s : Slot T) (hdr : Hdr) : Slot T :=
  { s with used := true, component := some hdr.component, metricsId := hdr.metricsId }

/-- A stage is begun. -/
def Slot.startStage (s : Slot T) (hdr : Hdr) : Slot T := { discardStage s with
    staging := true, stageProcessStart := hdr.processStartTime, stageSequence := hdr.sequence, stageNext := 0 }

/-- A first part that is older than what is there, or a copy. -/
def Slot.Stale (s : Slot T) (hdr : Hdr) : Prop :=
  (s.valid = true ∧ hdr.processStartTime = s.processStartTime ∧ hdr.sequence ≤ s.sequence) ∨
    (s.staging = true ∧ hdr.processStartTime = s.stageProcessStart ∧ hdr.sequence ≤ s.stageSequence)

instance (s : Slot T) (hdr : Hdr) : Decidable (s.Stale hdr) := inferInstanceAs (Decidable (_ ∨ _))

/-- A part of the snapshot that is staged. -/
def Slot.OfStage (s : Slot T) (hdr : Hdr) : Prop :=
  s.staging = true ∧ hdr.processStartTime = s.stageProcessStart ∧ hdr.sequence = s.stageSequence

instance (s : Slot T) (hdr : Hdr) : Decidable (s.OfStage hdr) := inferInstanceAs (Decidable (_ ∧ _ ∧ _))

/-- A slot put into a store. -/
def Store.setSlot (st : Store T) (i : Fin storeMaxInstances) (s : Slot T) : Store T :=
  { st with slots := Function.update st.slots i s }

/-- The end of `store_ingest`: a part is put into the stage of slot `i`, which `s` becomes. `grow` tells whether
`growbuf_reserve` gets its memory. -/
def appendPart (grow : Bool) (st : Store T) (i : Fin storeMaxInstances) (s : Slot T) (hdr : Hdr) (body : List UInt8) (now : T) :
    Store T :=
  if bodyValid hdr.protoVersion body = false then
    { st.setSlot i (releaseIfEmpty (discardStage s)) with
      stats := { st.stats with snapshotsRejectedMalformed := st.stats.snapshotsRejectedMalformed + 1 } }
  else if storeMaxBlobBytes < s.stage.length + body.length ∨ grow = false then
    { st.setSlot i (releaseIfEmpty (discardStage s)) with
      stats := { st.stats with snapshotsRejectedToolarge := st.stats.snapshotsRejectedToolarge + 1 } }
  else
    let s := { s with stage := s.stage ++ body, stageNext := hdr.part.toNat + 1, activityMono := now }
    if hdr.flags &&& flagLast ≠ 0 then
      { st.setSlot i (commitStage s hdr now) with
        stats := { st.stats with snapshotsReceivedTotal := st.stats.snapshotsReceivedTotal + 1 } }
    else st.setSlot i s

def storeIngest (grow : Bool) (st : Store T) (buf : List UInt8) (now : T) : Store T :=
  let malformed :=
    { st with stats := { st.stats with snapshotsRejectedMalformed := st.stats.snapshotsRejectedMalformed + 1 } }
  if maxSnapshotBytes < buf.length then malformed
  else if 1 ≤ buf.length ∧ buf.getD 0 0 ≠ protoV1 ∧ buf.getD 0 0 ≠ protoVersion then
    { st with stats := { st.stats with snapshotsRejectedVersion := st.stats.snapshotsRejectedVersion + 1 } }
  else
    match metricsReaderInit buf with
    | none => malformed
    | some hdr =>
      let body := buf.drop hdrLen
      let orphaned (st : Store T) : Store T :=
        { st with stats := { st.stats with partsOrphaned := st.stats.partsOrphaned + 1 } }
      match findSlot st hdr.component hdr.metricsId with
      | some i =>
        let s := st.slots i
        if hdr.part = 0 then
          if s.Stale hdr then
            { st with stats := { st.stats with snapshotsRejectedStale := st.stats.snapshotsRejectedStale + 1 } }
          else appendPart grow { st with stats := countIncomplete s st.stats } i (s.startStage hdr) hdr body now
        else if s.OfStage hdr ∧ hdr.part.toNat = s.stageNext then appendPart grow st i s hdr body now
        else if s.OfStage hdr then
          orphaned { st.setSlot i (releaseIfEmpty (discardStage s)) with stats := countIncomplete s st.stats }
        else orphaned st
      | none =>
        if hdr.part = 0 then
          match findFreeSlot st with
          | none => { st with stats := { st.stats with snapshotsRejectedFull := st.stats.snapshotsRejectedFull + 1 } }
          | some i =>
            let s := (st.slots i).claim hdr
            appendPart grow { st with stats := countIncomplete s st.stats } i (s.startStage hdr) hdr body now
        else orphaned st

/-- `store_reap_expired`; `expired now last expiry` is `now - last > expiry`. -/
def storeReapExpired (expired : T → T → T → Bool) (st : Store T) (now expiry : T) : Store T := { st with
    slots := fun i =>
      let s := st.slots i
      if s.used && expired now (if s.valid then s.receivedMono else s.activityMono) expiry then {} else s }

end DvbIpiTools.Metrics
