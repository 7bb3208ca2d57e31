import DvbIpiTools.Metrics.StoreRuns
import DvbIpiTools.Metrics.WriterRuns

set_option autoImplicit false

/-! # From the metrics writer to the metrics store

The parts of a snapshot that reach a store in order, with nothing between them, are committed as one snapshot, whose body
has the entries that were put. -/

namespace DvbIpiTools.Metrics

open List Function

variable {T : Type} [Zero T]

/-- The parts with the times at which they come. -/
def feed (st : Store T) (arrivals : List (List UInt8 × T)) : Store T :=
  arrivals.foldl (fun st a => storeIngest true st a.1 a.2) st

variable {i : Fin storeMaxInstances} {s : Slot T}

/-- The part has come into the stage, and the last one has committed it. -/
def Committing (st st' : Store T) (hdr : Hdr) (i : Fin storeMaxInstances) (s : Slot T) (body : List UInt8) (now : T) : Prop :=
  (hdr.flags &&& flagLast = 0 → st'.slots = update st.slots i (s.push hdr body now) ∧
    st'.stats.snapshotsReceivedTotal = st.stats.snapshotsReceivedTotal) ∧
  (hdr.flags &&& flagLast ≠ 0 → st'.slots = update st.slots i (commitStage (s.push hdr body now) hdr now) ∧
    st'.stats.snapshotsReceivedTotal = st.stats.snapshotsReceivedTotal + 1)

/-- A part that fits the store is put into the stage, and the last one commits it. -/
theorem storeIngest_accepted {st : Store T} {hdr : Hdr} {buf : List UInt8} (now : T)
    (hhdr : metricsReaderInit buf = some hdr) (hversion : buf.getD 0 0 = protoVersion) (hopens : Opens st hdr i s)
    (hlen : buf.length ≤ maxSnapshotBytes) (hvalid : bodyValid hdr.protoVersion (buf.drop hdrLen) = true)
    (hroom : s.stage.length + (buf.drop hdrLen).length ≤ storeMaxBlobBytes) :
    Committing st (storeIngest true st buf now) hdr i s (buf.drop hdrLen) now := by
  have happend : ∀ st0 : Store T, st0.slots = st.slots →
      st0.stats.snapshotsReceivedTotal = st.stats.snapshotsReceivedTotal →
      storeIngest true st buf now = appendPart true st0 i s hdr (buf.drop hdrLen) now →
      Committing st (storeIngest true st buf now) hdr i s (buf.drop hdrLen) now := by
    intro st0 hslots hreceived hingest
    have hnofault : ¬ (storeMaxBlobBytes < s.stage.length + (buf.drop hdrLen).length ∨ true = false) := by
      rintro (h | h)
      · omega
      · cases h
    rw [hingest, appendPart, if_neg (by simp [hvalid]), if_neg hnofault, Committing]
    refine ⟨fun hlast => ?_, fun hlast => ?_⟩
    · rw [if_neg (not_not.2 hlast), ← hslots]
      exact ⟨rfl, hreceived⟩
    · rw [if_pos hlast, ← hslots, ← hreceived]
      exact ⟨rfl, rfl⟩
  have htop : ¬ (1 ≤ buf.length ∧ buf.getD 0 0 ≠ protoV1 ∧ buf.getD 0 0 ≠ protoVersion) := fun h => h.2.2 hversion
  cases hopens with
  | claim hslot hfree hpart =>
    refine happend { st with stats := countIncomplete ((st.slots i).claim hdr) st.stats } rfl (received_countIncomplete _ _) ?_
    rw [storeIngest]
    rw [if_neg (by omega), if_neg htop, hhdr]
    simp only [hslot, hfree]
    rw [if_pos hpart]
  | restart hslot hpart hnew =>
    refine happend { st with stats := countIncomplete (st.slots i) st.stats } rfl (received_countIncomplete _ _) ?_
    rw [storeIngest]
    rw [if_neg (by omega), if_neg htop, hhdr]
    simp only [hslot]
    rw [if_pos hpart, if_neg hnew]
  | next hslot hpart hof hnext =>
    refine happend st rfl rfl ?_
    rw [storeIngest]
    rw [if_neg (by omega), if_neg htop, hhdr]
    simp only [hslot]
    rw [if_neg hpart, if_pos ⟨hof, hnext⟩]

theorem Opens.found {st st' : Store T} {hdr : Hdr} {t : Slot T} (hopens : Opens st hdr i s)
    (hslots : st'.slots = update st.slots i t) (hused : t.used = true) (hc : t.component = some hdr.component)
    (hm : t.metricsId = hdr.metricsId) : findSlot st' hdr.component hdr.metricsId = some i := by
  have hself : st'.slots i = t := by rw [hslots, update_self]
  have hother : ∀ j ≠ i, st'.slots j = st.slots j := fun j hj => by rw [hslots, update_of_ne hj]
  have hsame : findSlot st hdr.component hdr.metricsId = some i → findSlot st' hdr.component hdr.metricsId = some i := by
    intro hslot
    rw [← hslot]
    refine congrArg (fun p => find? p (finRange storeMaxInstances)) (funext fun j => ?_)
    by_cases hj : j = i
    · obtain ⟨hu, hci, hmi⟩ := findSlot_some hslot
      rw [hj, hself, hused, hc, hm, hu, hci, hmi]
    · rw [hother j hj]
  cases hopens with
  | claim hslot hfree hpart =>
    cases hf : findSlot st' hdr.component hdr.metricsId with
    | none => exact absurd (hself ▸ hm) (findSlot_none hf i (hself ▸ hused) (hself ▸ hc))
    | some j =>
      obtain ⟨hu, hcj, hmj⟩ := findSlot_some hf
      by_cases hj : j = i
      · rw [hj]
      · rw [hother j hj] at hu hcj hmj
        exact absurd hmj (findSlot_none hslot j hu hcj)
  | restart hslot hpart hnew => exact hsame hslot
  | next hslot hpart hof hnext => exact hsame hslot

theorem Opens.fields {st : Store T} {hdr : Hdr} (h : Opens st hdr i s) :
    s.used = true ∧ s.component = some hdr.component ∧ s.metricsId = hdr.metricsId ∧ s.OfStage hdr := by
  cases h with
  | claim hslot hfree hpart => exact ⟨rfl, rfl, rfl, rfl, rfl, rfl⟩
  | restart hslot hpart hnew =>
    obtain ⟨hu, hc, hm⟩ := findSlot_some hslot
    exact ⟨hu, hc, hm, rfl, rfl, rfl⟩
  | next hslot hpart hof hnext =>
    obtain ⟨hu, hc, hm⟩ := findSlot_some hslot
    exact ⟨hu, hc, hm, hof⟩

/-- The header of part `k`. -/
def Hdr.ofPart (hdr : Hdr) (k : Nat) (flags : UInt8) : Hdr := { hdr with part := .ofNat k, flags }

/-- The store can take part `k` of a snapshot behind the bytes in its stage. -/
def Takes (st : Store T) (hdr : Hdr) (k : Nat) (stage : List UInt8) : Prop :=
  ∃ i s, (∀ flags, Opens st (hdr.ofPart k flags) i s) ∧ s.stage = stage

/-- A first part is taken where there is a slot for it and it is not stale. -/
theorem takes_first {st : Store T} {hdr : Hdr}
    (hslot : findSlot st hdr.component hdr.metricsId ≠ none ∨ findFreeSlot st ≠ none)
    (hnew : ∀ i, findSlot st hdr.component hdr.metricsId = some i → ¬ (st.slots i).Stale hdr) : Takes st hdr 0 [] := by
  cases hf : findSlot st hdr.component hdr.metricsId with
  | some i => exact ⟨i, (st.slots i).startStage hdr, fun flags => .restart hf rfl (hnew i hf), rfl⟩
  | none =>
    cases hfree : findFreeSlot st with
    | none => exact absurd hslot (by simp [hf, hfree])
    | some i => exact ⟨i, ((st.slots i).claim hdr).startStage hdr, fun flags => .claim hf hfree rfl, rfl⟩

section parts

variable {st : Store T} {hdr : Hdr} {k : Nat} {stage body : List UInt8} (hversion : hdr.protoVersion = protoVersion)
  (hid : hdr.metricsId.chars ≠ []) (htakes : Takes st hdr k stage) (hbody : hdrLen + body.length ≤ maxSnapshotBytes)
  (hgood : ∃ es, Body protoVersion body es) (hroom : stage.length + body.length ≤ storeMaxBlobBytes)

include hversion hid htakes hbody hgood hroom

theorem Takes.ingested (flags : UInt8) (now : T) : ∃ i s, (∀ flags, Opens st (hdr.ofPart k flags) i s) ∧ s.stage = stage ∧
    Committing st (storeIngest true st (wireHdr hdr (.ofNat k) flags ++ body) now) (hdr.ofPart k flags) i s body now := by
  obtain ⟨i, s, hopens, rfl⟩ := htakes
  have hdrop : (wireHdr hdr (.ofNat k) flags ++ body).drop hdrLen = body := by
    rw [← length_wireHdr hdr (.ofNat k) flags, drop_left]
  have hvalid : bodyValid (hdr.ofPart k flags).protoVersion body = true := by
    show bodyValid hdr.protoVersion body = true
    rw [hversion]
    exact (bodyValid_iff _ _).2 hgood
  have hlen : (wireHdr hdr (.ofNat k) flags ++ body).length ≤ maxSnapshotBytes := by
    rw [length_append, length_wireHdr]
    exact hbody
  have hingest := storeIngest_accepted now (metricsReaderInit_wireHdr hversion hid (.ofNat k) flags body) hversion
    (hopens flags) hlen (by rwa [hdrop]) (by rwa [hdrop])
  rw [hdrop] at hingest
  exact ⟨i, s, hopens, rfl, hingest⟩

theorem Takes.next (hk : k + 1 < maxParts) (now : T) :
    Takes (storeIngest true st (wireHdr hdr (.ofNat k) 0 ++ body) now) hdr (k + 1) (stage ++ body) ∧
      (storeIngest true st (wireHdr hdr (.ofNat k) 0 ++ body) now).stats.snapshotsReceivedTotal
        = st.stats.snapshotsReceivedTotal := by
  obtain ⟨i, s, hopens, rfl, hingest⟩ := htakes.ingested hversion hid hbody hgood hroom 0 now
  obtain ⟨hslots, hreceived⟩ := hingest.1 (show (0 : UInt8) &&& flagLast = 0 by decide)
  obtain ⟨hu, hc, hm, hof⟩ := (hopens 0).fields
  have hfound : findSlot (storeIngest true st (wireHdr hdr (.ofNat k) 0 ++ body) now) hdr.component hdr.metricsId = some i :=
    (hopens 0).found hslots hu hc hm
  have hself : (storeIngest true st (wireHdr hdr (.ofNat k) 0 ++ body) now).slots i = s.push (hdr.ofPart k 0) body now := by
    rw [hslots, update_self]
  have hnum : ∀ n, n < maxParts → (UInt8.ofNat n).toNat = n := fun n hn => by
    unfold maxParts at hn
    rw [UInt8.toNat_ofNat', Nat.mod_eq_of_lt (by omega)]
  refine ⟨⟨i, _, fun flags => .next hfound ?_ ?_ ?_, by rw [hself]; rfl⟩, hreceived⟩
  · intro h0
    have := congrArg UInt8.toNat h0
    rw [show (hdr.ofPart (k + 1) flags).part = .ofNat (k + 1) from rfl, hnum _ hk] at this
    cases this
  · rw [hself]
    exact hof
  · rw [hself, show (hdr.ofPart (k + 1) flags).part = .ofNat (k + 1) from rfl, hnum _ hk]
    show k + 1 = (UInt8.ofNat k).toNat + 1
    rw [hnum _ (by omega)]

theorem Takes.last (now : T) :
    (storeIngest true st (wireHdr hdr (.ofNat k) flagLast ++ body) now).stats.snapshotsReceivedTotal
        = st.stats.snapshotsReceivedTotal + 1 ∧
      ∃ i, ((storeIngest true st (wireHdr hdr (.ofNat k) flagLast ++ body) now).slots i).snapshot = some
        ⟨some hdr.component, hdr.metricsId, hdr.processStartTime, hdr.sequence, hdr.snapshotTime, now, protoVersion,
          stage ++ body⟩ := by
  obtain ⟨i, s, hopens, rfl, hingest⟩ := htakes.ingested hversion hid hbody hgood hroom flagLast now
  obtain ⟨hslots, hreceived⟩ := hingest.2 (show flagLast &&& flagLast ≠ 0 by decide)
  obtain ⟨-, hc, hm, -, hstart, hseq⟩ := (hopens flagLast).fields
  refine ⟨hreceived, i, ?_⟩
  rw [hslots, update_self]
  show some (Snapshot.mk s.component s.metricsId s.stageProcessStart s.stageSequence hdr.snapshotTime now hdr.protoVersion
    (s.stage ++ body)) = _
  rw [hc, hm, ← hstart, ← hseq, hversion]
  rfl

end parts

variable {parts : List (List UInt8 × List Entry)} {cur : List Entry}

theorem feed_parts {st : Store T} {hdr : Hdr} (hversion : hdr.protoVersion = protoVersion)
    (hid : hdr.metricsId.chars ≠ []) {body : List UInt8} (hfull : FullParts parts)
    (hfits : hdrLen + body.length ≤ maxSnapshotBytes) (hbody : Body protoVersion body cur) {k : Nat}
    {stage : List UInt8} (htakes : Takes st hdr k stage) (hk : k + parts.length < maxParts)
    (hstage : stage.length ≤ k * (maxSnapshotBytes - hdrLen)) {arrivals : List (List UInt8 × T)}
    (harrivals : arrivals.map Prod.fst = (parts.mapIdx fun j b => wireHdr hdr (.ofNat (k + j)) 0 ++ b.1) ++ [wireHdr hdr (.ofNat (k + parts.length)) flagLast ++ body]) :
    (feed st arrivals).stats.snapshotsReceivedTotal = st.stats.snapshotsReceivedTotal + 1 ∧
      ∃ i now, ((feed st arrivals).slots i).snapshot = some
        ⟨some hdr.component, hdr.metricsId, hdr.processStartTime, hdr.sequence, hdr.snapshotTime, now, protoVersion,
          stage ++ (parts.flatMap (·.1) ++ body)⟩ := by
  have hblob : maxParts * (maxSnapshotBytes - hdrLen) ≤ storeMaxBlobBytes := by decide
  have hroom : ∀ n, n + hdrLen ≤ maxSnapshotBytes → stage.length + n ≤ storeMaxBlobBytes := by
    intro n hn
    have : (k + 1) * (maxSnapshotBytes - hdrLen) ≤ maxParts * (maxSnapshotBytes - hdrLen) :=
      Nat.mul_le_mul_right _ (by omega)
    rw [add_mul, one_mul] at this
    omega
  induction parts generalizing k stage st arrivals with
  | nil =>
    obtain ⟨⟨buf, now⟩, rfl, rfl⟩ := map_eq_singleton_iff.1 harrivals
    obtain ⟨hreceived, i, hsnap⟩ := htakes.last hversion hid hfits ⟨cur, hbody⟩ (hroom body.length (by omega)) now
    exact ⟨hreceived, i, now, hsnap⟩
  | cons b parts ih =>
    rw [mapIdx_cons, cons_append] at harrivals
    obtain ⟨⟨buf, now⟩, rest, rfl, rfl, hrest⟩ := map_eq_cons_iff.1 harrivals
    obtain ⟨hb, hes⟩ := hfull b (mem_cons_self ..)
    rw [length_cons] at hk hrest
    have hnext := htakes.next hversion hid hb ⟨b.2, hes⟩ (hroom b.1.length (by omega)) (by omega) now
    have hshift : rest.map Prod.fst = (parts.mapIdx fun j b => wireHdr hdr (.ofNat (k + 1 + j)) 0 ++ b.1)
        ++ [wireHdr hdr (.ofNat (k + 1 + parts.length)) flagLast ++ body] := by
      rw [hrest]
      simp only [add_assoc, add_comm 1]
    have hlen : (stage ++ b.1).length ≤ (k + 1) * (maxSnapshotBytes - hdrLen) := by
      rw [length_append, add_mul, one_mul]
      omega
    have hroom' : ∀ n, n + hdrLen ≤ maxSnapshotBytes → (stage ++ b.1).length + n ≤ storeMaxBlobBytes := by
      intro n hn
      have : (k + 2) * (maxSnapshotBytes - hdrLen) ≤ maxParts * (maxSnapshotBytes - hdrLen) :=
        Nat.mul_le_mul_right _ (by omega)
      rw [add_mul] at this hlen
      omega
    obtain ⟨hreceived, i, t, hsnap⟩ := ih (fun c hc => hfull c (.tail _ hc)) hnext.1 (by omega) hlen hshift hroom'
    refine ⟨hreceived.trans (by rw [hnext.2]), i, t, ?_⟩
    rw [flatMap_cons, append_assoc, ← append_assoc stage]
    exact hsnap

theorem body_parts (h : FullParts parts) {body : List UInt8} (hbody : Body protoVersion body cur) :
    Body protoVersion (parts.flatMap (·.1) ++ body) (parts.flatMap (·.2) ++ cur) := by
  induction parts with
  | nil => exact hbody
  | cons b parts ih =>
    rw [flatMap_cons, flatMap_cons, append_assoc, append_assoc]
    exact (h b (mem_cons_self ..)).2.append (ih fun c hc => h c (.tail _ hc))

/-- The snapshot that a writer finishes is committed by a store that has a slot for it and no newer one, and read back there
entry by entry. Labels are the given ones cut on a border, signed values are recovered; and on no bytes does a reader leave
the body or go on for ever. -/
theorem snapshot_transport (flush : Flush) (hdr : Hdr) (calls : List Call)
    (hfinish : (metricsWriterFinish (written flush hdr calls)).1 ≠ 0) (st : Store T)
    (hslot : findSlot st hdr.component hdr.metricsId ≠ none ∨ findFreeSlot st ≠ none)
    (hnew : ∀ i, findSlot st hdr.component hdr.metricsId = some i → ¬ (st.slots i).Stale hdr)
    (arrivals : List (List UInt8 × T)) (harrivals : arrivals.map Prod.fst = partsOf (written flush hdr calls))
    (labelCap : Nat) (hcap : labelMax < labelCap) :
    ((feed st arrivals).stats.snapshotsReceivedTotal = st.stats.snapshotsReceivedTotal + 1 ∧
      ∃ i snap, ((feed st arrivals).slots i).snapshot = some snap ∧ snap.component = some hdr.component ∧
        snap.metricsId = hdr.metricsId ∧ snap.processStartTime = hdr.processStartTime ∧ snap.sequence = hdr.sequence ∧
        snap.snapshotTime = hdr.snapshotTime ∧
        readAll (metricsReaderNext labelCap) (snap.live.length + 1) (metricsReaderInitBody snap.version snap.live)
          = some (calls.map Call.entry, .done)) ∧ (∀ label, LabelCut (cstr (label.getD [])) (writtenLabel label)) ∧
      (∀ v, metricsUnzigzag (metricsZigzag v) = v) ∧ ∀ version body, ∃ es rc,
        readAll metricsReaderNextRef (body.length + 1) (metricsReaderInitBody version body) = some (es, rc) ∧ ∀ e, rc ≠ .entry e := by
  refine ⟨?_, writtenLabel_cut, metricsUnzigzag_zigzag, fun version body =>
    readAll_isSome (inside_initBody version body) (Nat.lt_succ_self _)⟩
  obtain ⟨hversion, hid, parts, body, cur, hfull, hcount, hfits, hbody, hparts, hcalls⟩ := written_parts hfinish
  have hindices : arrivals.map Prod.fst = (parts.mapIdx fun j b => wireHdr hdr (.ofNat (0 + j)) 0 ++ b.1)
      ++ [wireHdr hdr (.ofNat (0 + parts.length)) flagLast ++ body] := by
    rw [harrivals, hparts]
    simp only [datagramsOf, zero_add]
  obtain ⟨hreceived, i, now, hsnap⟩ := feed_parts hversion hid hfull hfits hbody (takes_first hslot hnew) (by omega)
    (Nat.zero_le _) hindices
  refine ⟨hreceived, i, _, hsnap, rfl, rfl, rfl, rfl, rfl, ?_⟩
  rw [nil_append, readAll_next, (readAll_iff _ _ _).2 (body_parts hfull hbody), ← hcalls]
  -- the labels are short enough for the buffer they are copied to
  have hlabels : ∀ e ∈ calls.map Call.entry, ({ e with label := e.label.take (labelCap - 1) } : Entry) = e := by
    intro e he
    obtain ⟨c, -, rfl⟩ := mem_map.1 he
    have hfitting : c.entry.label.length ≤ labelMax := by cases c <;> exact writtenLabel_length _
    rw [take_of_length_le (by omega)]
  exact congrArg (fun es => some (es, Next.done)) ((map_congr_left hlabels).trans (map_id' _))

/-- The snapshot of a process with two values, one of them signed. -/
def smallHdr : Hdr := ⟨protoVersion, .rist, .ofField [97, 98], 1, 2, 3, 0, 0⟩

def smallCalls : List Call := [.put 110 (some [112, 49]) 300, .putSigned 112 (some [112, 49]) (-5)]

/-- It arrives in an empty store. -/
theorem small_transport :
    (feed (storeInit : Store Nat) ((partsOf (written none smallHdr smallCalls)).map fun part => (part, 7))).stats.snapshotsReceivedTotal = 1 := by
  have harrivals : ((partsOf (written none smallHdr smallCalls)).map fun part => (part, 7)).map Prod.fst
      = partsOf (written none smallHdr smallCalls) := by
    rw [map_map]
    exact map_id _
  exact (snapshot_transport none smallHdr smallCalls (by decide +kernel) storeInit (.inr (by decide +kernel))
    (fun i hi => absurd hi (by rw [show findSlot (storeInit : Store Nat) _ _ = none by decide +kernel]; simp)) _ harrivals 64
    (Nat.lt_succ_self 63)).1.1

end DvbIpiTools.Metrics
