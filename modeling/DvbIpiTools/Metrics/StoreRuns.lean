import DvbIpiTools.Metrics.Store
import Mathlib.Data.List.Chain

set_option autoImplicit false

/-! # What the metrics store holds after any run

A live snapshot is whole: its body is that of all the parts of one snapshot, in order. What is rejected leaves it alone,
and only a later snapshot of the same process, or one of another process, takes its place. -/

namespace DvbIpiTools.Metrics

open List Function Option

variable {T : Type} [Zero T]

/-! ## Parts of a snapshot -/

/-- What the parts of one snapshot have in common. -/
structure Origin where
  component : Component
  metricsId : MetricsId
  processStartTime : UInt64
  sequence : UInt64
  version : UInt8

def Hdr.origin (hdr : Hdr) : Origin :=
  ⟨hdr.component, hdr.metricsId, hdr.processStartTime, hdr.sequence, hdr.protoVersion⟩

/-- A datagram with part `k` of a snapshot. -/
def IsPart (o : Origin) (k : Nat) (buf : List UInt8) (hdr : Hdr) : Prop :=
  metricsReaderInit buf = some hdr ∧ hdr.origin = o ∧ hdr.part.toNat = k

/-- Datagrams with parts 0, 1, .. of a snapshot. -/
def PartsOf (o : Origin) (bufs : List (List UInt8)) : Prop := ∀ k buf, bufs[k]? = some buf → ∃ hdr, IsPart o k buf hdr

/-- The bodies of datagrams, one after the other. -/
def bodies (bufs : List (List UInt8)) : List UInt8 := bufs.flatMap fun buf => buf.drop hdrLen

theorem bodies_concat (bufs : List (List UInt8)) (buf : List UInt8) : bodies (bufs ++ [buf]) = bodies bufs ++ buf.drop hdrLen := by
  simp [bodies]

theorem partsOf_nil (o : Origin) : PartsOf o [] := fun k buf h => absurd h (by simp)

theorem PartsOf.concat {o : Origin} {bufs : List (List UInt8)} (h : PartsOf o bufs) {buf : List UInt8} {hdr : Hdr}
    (hbuf : IsPart o bufs.length buf hdr) : PartsOf o (bufs ++ [buf]) := by
  intro k b hk
  rcases Nat.lt_trichotomy k bufs.length with hlt | rfl | hgt
  · rw [getElem?_append_left hlt] at hk
    exact h k b hk
  · rw [getElem?_append_right (Nat.le_refl _), Nat.sub_self] at hk
    obtain rfl : buf = b := by simpa using hk
    exact ⟨hdr, hbuf⟩
  · rw [getElem?_eq_none (by rw [length_append, length_singleton]; omega)] at hk
    cases hk

theorem part_of_version {buf : List UInt8} {hdr : Hdr} (h : metricsReaderInit buf = some hdr)
    (hv : hdr.protoVersion ≠ protoVersion) : hdr.part = 0 ∧ hdr.flags = flagLast := by
  unfold metricsReaderInit at h
  split at h
  · cases h
  simp only at h
  split at h
  · cases h
  split at h
  · cases h
  · split at h
    · cases h
    · cases h
      exact ⟨if_neg hv, if_neg hv⟩

theorem bodyValid_iff (version : UInt8) (body : List UInt8) : bodyValid version body = true ↔ ∃ es, Body version body es := by
  simp only [← readAll_iff]
  unfold bodyValid
  simp

/-! ## What one datagram does -/

/-- The live snapshot of a slot. -/
structure Snapshot (T : Type) where
  component : Option Component
  metricsId : MetricsId
  processStartTime : UInt64
  sequence : UInt64
  snapshotTime : UInt64
  receivedMono : T
  version : UInt8
  live : List UInt8

def Slot.snapshot (s : Slot T) : Option (Snapshot T) :=
  if s.valid then
    some ⟨s.component, s.metricsId, s.processStartTime, s.sequence, s.snapshotTime, s.receivedMono, s.version, s.live⟩
  else none

@[simp] theorem snapshot_discardStage (s : Slot T) : (discardStage s).snapshot = s.snapshot := rfl

@[simp] theorem snapshot_startStage (s : Slot T) (hdr : Hdr) : (s.startStage hdr).snapshot = s.snapshot := rfl

@[simp] theorem snapshot_releaseIfEmpty (s : Slot T) : (releaseIfEmpty s).snapshot = s.snapshot := by
  unfold releaseIfEmpty
  split
  · rename_i h
    unfold Slot.snapshot
    rw [h.1]
    rfl
  · rfl

/-- How many datagrams have been rejected, and parts dropped as orphans. -/
def Stats.rejected (stats : Stats) : Nat :=
  stats.snapshotsRejectedMalformed + stats.snapshotsRejectedStale + stats.snapshotsRejectedFull + stats.snapshotsRejectedVersion +
    stats.snapshotsRejectedToolarge + stats.partsOrphaned

@[simp] theorem rejected_countIncomplete (s : Slot T) (stats : Stats) :
    (countIncomplete s stats).rejected = stats.rejected := by
  unfold countIncomplete
  split <;> rfl

@[simp] theorem received_countIncomplete (s : Slot T) (stats : Stats) :
    (countIncomplete s stats).snapshotsReceivedTotal = stats.snapshotsReceivedTotal := by
  unfold countIncomplete
  split <;> rfl

/-- `s` is slot `i` when the part with the header is put into its stage. -/
inductive Opens (st : Store T) (hdr : Hdr) (i : Fin storeMaxInstances) : Slot T → Prop where
  | claim (hslot : findSlot st hdr.component hdr.metricsId = none) (hfree : findFreeSlot st = some i) (hpart : hdr.part = 0) :
      Opens st hdr i (((st.slots i).claim hdr).startStage hdr)
  | restart (hslot : findSlot st hdr.component hdr.metricsId = some i) (hpart : hdr.part = 0)
      (hnew : ¬ (st.slots i).Stale hdr) : Opens st hdr i ((st.slots i).startStage hdr)
  | next (hslot : findSlot st hdr.component hdr.metricsId = some i) (hpart : hdr.part ≠ 0) (hof : (st.slots i).OfStage hdr)
      (hnext : hdr.part.toNat = (st.slots i).stageNext) : Opens st hdr i (st.slots i)

/-- A slot with one more part in its stage. -/
def Slot.push (s : Slot T) (hdr : Hdr) (body : List UInt8) (now : T) : Slot T :=
  { s with stage := s.stage ++ body, stageNext := hdr.part.toNat + 1, activityMono := now }

/-- Everything that a datagram can do. -/
inductive Ingested (st : Store T) (buf : List UInt8) (now : T) (st' : Store T) : Prop where
  | dropped (hslots : st'.slots = st.slots) (hreceived : st'.stats.snapshotsReceivedTotal = st.stats.snapshotsReceivedTotal)
      (hrejected : st'.stats.rejected = st.stats.rejected + 1)
  | orphaned (i : Fin storeMaxInstances) (hstaging : (st.slots i).staging = true)
      (hslots : st'.slots = update st.slots i (releaseIfEmpty (discardStage (st.slots i))))
      (hreceived : st'.stats.snapshotsReceivedTotal = st.stats.snapshotsReceivedTotal)
      (hrejected : st'.stats.rejected = st.stats.rejected + 1)
  | refused (hdr : Hdr) (i : Fin storeMaxInstances) (s : Slot T) (hhdr : metricsReaderInit buf = some hdr)
      (hopens : Opens st hdr i s) (hslots : st'.slots = update st.slots i (releaseIfEmpty (discardStage s)))
      (hreceived : st'.stats.snapshotsReceivedTotal = st.stats.snapshotsReceivedTotal)
      (hrejected : st'.stats.rejected = st.stats.rejected + 1)
  | staged (hdr : Hdr) (i : Fin storeMaxInstances) (s : Slot T) (hhdr : metricsReaderInit buf = some hdr)
      (hopens : Opens st hdr i s) (hvalid : bodyValid hdr.protoVersion (buf.drop hdrLen) = true)
      (hlast : hdr.flags &&& flagLast = 0) (hslots : st'.slots = update st.slots i (s.push hdr (buf.drop hdrLen) now))
      (hreceived : st'.stats.snapshotsReceivedTotal = st.stats.snapshotsReceivedTotal)
      (hrejected : st'.stats.rejected = st.stats.rejected)
  | committed (hdr : Hdr) (i : Fin storeMaxInstances) (s : Slot T) (hhdr : metricsReaderInit buf = some hdr)
      (hopens : Opens st hdr i s) (hvalid : bodyValid hdr.protoVersion (buf.drop hdrLen) = true)
      (hlast : hdr.flags &&& flagLast ≠ 0)
      (hslots : st'.slots = update st.slots i (commitStage (s.push hdr (buf.drop hdrLen) now) hdr now))
      (hreceived : st'.stats.snapshotsReceivedTotal = st.stats.snapshotsReceivedTotal + 1)
      (hrejected : st'.stats.rejected = st.stats.rejected)

variable {st : Store T} {i : Fin storeMaxInstances} {now : T} {hist : List (List UInt8)} {s : Slot T}
  {buf : List UInt8} {hdr : Hdr}

theorem appendPart_cases {grow : Bool} {st0 : Store T} (hhdr : metricsReaderInit buf = some hdr) (hopens : Opens st hdr i s) (hslots : st0.slots = st.slots)
    (hreceived : st0.stats.snapshotsReceivedTotal = st.stats.snapshotsReceivedTotal)
    (hrejected : st0.stats.rejected = st.stats.rejected) :
    Ingested st buf now (appendPart grow st0 i s hdr (buf.drop hdrLen) now) := by
  unfold appendPart
  split
  · refine .refused hdr i s hhdr hopens ?_ hreceived ?_
    · rw [← hslots]
      rfl
    · rw [← hrejected]
      simp only [Stats.rejected]
      omega
  rename_i hvalid
  have hvalid' : bodyValid hdr.protoVersion (buf.drop hdrLen) = true := by simpa using hvalid
  split
  · refine .refused hdr i s hhdr hopens ?_ hreceived ?_
    · rw [← hslots]
      rfl
    · rw [← hrejected]
      simp only [Stats.rejected]
      omega
  split
  · rename_i hlast
    refine .committed hdr i s hhdr hopens hvalid' hlast ?_ ?_ hrejected
    · rw [← hslots]
      rfl
    · rw [← hreceived]
  · rename_i hlast
    refine .staged hdr i s hhdr hopens hvalid' (not_not.1 hlast) ?_ hreceived hrejected
    rw [← hslots]
    rfl

theorem storeIngest_cases (grow : Bool) (st : Store T) (buf : List UInt8) (now : T) :
    Ingested st buf now (storeIngest grow st buf now) := by
  have hmalformed : Ingested st buf now
      { st with stats := { st.stats with snapshotsRejectedMalformed := st.stats.snapshotsRejectedMalformed + 1 } } :=
    .dropped rfl rfl (by simp only [Stats.rejected]; omega)
  unfold storeIngest
  simp only
  split
  · exact hmalformed
  split
  · exact .dropped rfl rfl (by simp only [Stats.rejected]; omega)
  split
  · exact hmalformed
  rename_i hdr hhdr
  split
  · rename_i i hslot
    split
    · rename_i hpart
      split
      · exact .dropped rfl rfl (by simp only [Stats.rejected]; omega)
      · rename_i hnew
        exact appendPart_cases hhdr (.restart hslot hpart hnew) rfl (received_countIncomplete _ _)
          (rejected_countIncomplete _ _)
    rename_i hpart
    split
    · rename_i hof
      exact appendPart_cases hhdr (.next hslot hpart hof.1 hof.2) rfl rfl rfl
    split
    · rename_i hof
      refine .orphaned i hof.1 rfl (received_countIncomplete _ _) ?_
      have := rejected_countIncomplete (st.slots i) st.stats
      simp only [Stats.rejected] at this ⊢
      omega
    · exact .dropped rfl rfl (by simp only [Stats.rejected]; omega)
  · rename_i hslot
    split
    · rename_i hpart
      split
      · exact .dropped rfl rfl (by simp only [Stats.rejected]; omega)
      · rename_i i hfree
        exact appendPart_cases hhdr (.claim hslot hfree hpart) rfl (received_countIncomplete _ _)
          (rejected_countIncomplete _ _)
    · exact .dropped rfl rfl (by simp only [Stats.rejected]; omega)

/-! ## The invariant of a slot -/

/-- The stage holds the parts up to the next one of a snapshot, from datagrams of the history. -/
def Slot.Staged (hist : List (List UInt8)) (s : Slot T) : Prop :=
  ∃ o bufs, bufs.Sublist hist ∧ PartsOf o bufs ∧ bufs.length = s.stageNext ∧ s.stage = bodies bufs ∧
    s.component = some o.component ∧ s.metricsId = o.metricsId ∧ s.stageProcessStart = o.processStartTime ∧
    s.stageSequence = o.sequence ∧ o.version = protoVersion ∧ ∃ es, Body o.version s.stage es

/-- The live body is that of all the parts of a snapshot, the last of which is flagged, and its entries parse. -/
def Slot.Whole (hist : List (List UInt8)) (s : Slot T) : Prop :=
  ∃ o bufs last hdr, (bufs ++ [last]).Sublist hist ∧ PartsOf o (bufs ++ [last]) ∧ IsPart o bufs.length last hdr ∧
    hdr.flags &&& flagLast ≠ 0 ∧ s.live = bodies (bufs ++ [last]) ∧ s.component = some o.component ∧
    s.metricsId = o.metricsId ∧ s.processStartTime = o.processStartTime ∧ s.sequence = o.sequence ∧
    s.version = o.version ∧ ∃ es, Body s.version s.live es

/-- What holds of every slot between two calls. -/
structure Slot.Good (hist : List (List UInt8)) (s : Slot T) : Prop where
  used : s.used = true ↔ s.valid = true ∨ s.staging = true
  staged : s.staging = true → s.Staged hist
  whole : s.valid = true → s.Whole hist
  newer : s.valid = true → s.staging = true → s.stageProcessStart = s.processStartTime → s.sequence < s.stageSequence

theorem Slot.Staged.mono (h : s.Staged hist) (buf : List UInt8) : s.Staged (hist ++ [buf]) := by
  obtain ⟨o, bufs, hsub, h⟩ := h
  exact ⟨o, bufs, hsub.trans (sublist_append_left _ _), h⟩

theorem Slot.Whole.mono (h : s.Whole hist) (buf : List UInt8) : s.Whole (hist ++ [buf]) := by
  obtain ⟨o, bufs, last, hdr, hsub, h⟩ := h
  exact ⟨o, bufs, last, hdr, hsub.trans (sublist_append_left _ _), h⟩

theorem Slot.Good.mono (h : s.Good hist) (buf : List UInt8) : s.Good (hist ++ [buf]) :=
  ⟨h.used, fun hs => (h.staged hs).mono buf, fun hv => (h.whole hv).mono buf, h.newer⟩

theorem good_cleared (hist : List (List UInt8)) : ({} : Slot T).Good hist := ⟨by simp, nofun, nofun, nofun⟩

theorem Slot.Good.discard (hused : s.used = true)
    (hwhole : s.valid = true → s.Whole hist) : (releaseIfEmpty (discardStage s)).Good hist := by
  unfold releaseIfEmpty
  split
  · exact good_cleared hist
  rename_i hnot
  have hvalid : s.valid = true := by
    by_contra hv
    exact hnot ⟨by simpa [discardStage] using hv, rfl⟩
  exact ⟨⟨fun _ => .inl hvalid, fun _ => hused⟩, fun h => absurd h (by simp [discardStage]), fun _ => hwhole hvalid,
    fun _ h => absurd h (by simp [discardStage])⟩

/-- The slot when a part with the header is put into its stage. -/
structure Slot.Ready (hist : List (List UInt8)) (hdr : Hdr) (s : Slot T) : Prop where
  used : s.used = true
  component : s.component = some hdr.component
  metricsId : s.metricsId = hdr.metricsId
  start : s.stageProcessStart = hdr.processStartTime
  sequence : s.stageSequence = hdr.sequence
  whole : s.valid = true → s.Whole hist
  staging : s.staging = true
  newer : s.valid = true → s.stageProcessStart = s.processStartTime → s.sequence < s.stageSequence
  parts : ∃ bufs, bufs.Sublist hist ∧ PartsOf hdr.origin bufs ∧ bufs.length = hdr.part.toNat ∧ s.stage = bodies bufs ∧
    ∃ es, Body hdr.protoVersion s.stage es

variable {c : Component} {m : MetricsId}

theorem findSlot_some (h : findSlot st c m = some i) :
    (st.slots i).used = true ∧ (st.slots i).component = some c ∧ (st.slots i).metricsId = m := by
  have hi := find?_some h
  simp only [Bool.and_eq_true, beq_iff_eq] at hi
  exact ⟨hi.1.1, hi.1.2, hi.2⟩

theorem findSlot_none (h : findSlot st c m = none) (i : Fin storeMaxInstances)
    (hused : (st.slots i).used = true) (hc : (st.slots i).component = some c) : (st.slots i).metricsId ≠ m := by
  intro hm
  have hi := find?_eq_none.1 h i (mem_finRange i)
  simp [hused, hc, hm] at hi

theorem findFreeSlot_some (h : findFreeSlot st = some i) : (st.slots i).used = false := by
  simpa using find?_some h

theorem startStage_ready (hused : s.used = true) (hcomponent : s.component = some hdr.component)
    (hmetricsId : s.metricsId = hdr.metricsId) (hwhole : s.valid = true → s.Whole hist)
    (hnew : s.valid = true → ¬ s.Stale hdr) (hpart : hdr.part = 0) : (s.startStage hdr).Ready hist hdr where
  used := hused
  component := hcomponent
  metricsId := hmetricsId
  start := rfl
  sequence := rfl
  whole := hwhole
  staging := rfl
  newer := fun hv hs => UInt64.not_le.1 fun hle => hnew hv (.inl ⟨hv, hs, hle⟩)
  parts := ⟨[], nil_sublist _, partsOf_nil _, by rw [hpart]; rfl, rfl, [], Body.nil _⟩

theorem Opens.ready (hgood : ∀ i, (st.slots i).Good hist) (hhdr : metricsReaderInit buf = some hdr) (h : Opens st hdr i s) :
    s.Ready hist hdr := by
  cases h with
  | claim hslot hfree hpart =>
    have hfree' := findFreeSlot_some hfree
    have hinvalid : (st.slots i).valid ≠ true := fun hv => by
      have : (st.slots i).used = true := (hgood i).used.2 (.inl hv)
      rw [hfree'] at this
      cases this
    exact startStage_ready rfl rfl rfl (fun hv => absurd hv hinvalid) (fun hv => absurd hv hinvalid) hpart
  | restart hslot hpart hnew =>
    obtain ⟨hused, hc, hm⟩ := findSlot_some hslot
    exact startStage_ready hused hc hm (hgood i).whole (fun _ => hnew) hpart
  | next hslot hpart hof hnext =>
    obtain ⟨hused, hc, hm⟩ := findSlot_some hslot
    obtain ⟨hstaging, hstart, hseq⟩ := hof
    obtain ⟨o, bufs, hsub, hparts, hlen, hstage, hoc, hom, hos, hoq, hov, hes⟩ := (hgood i).staged hstaging
    -- only a datagram of version 2 has a part number
    have hv : hdr.protoVersion = protoVersion := by
      by_contra hv
      exact hpart (part_of_version hhdr hv).1
    have ho : hdr.origin = o := by
      obtain ⟨oc, om, os, oq, ov⟩ := o
      simp only at hoc hom hos hoq hov
      rw [hc] at hoc
      rw [Hdr.origin, some.inj hoc, ← hom, hm, hstart, hos, hseq, hoq, hv, hov]
    subst ho
    exact {
      used := hused, component := hc, metricsId := hm, start := hstart.symm, sequence := hseq.symm
      whole := (hgood i).whole, staging := hstaging, newer := fun hv => (hgood i).newer hv hstaging
      parts := ⟨bufs, hsub, hparts, hlen.trans hnext.symm, hstage, hes⟩ }

section ready

variable (h : s.Ready hist hdr)

include h

variable (hhdr : metricsReaderInit buf = some hdr)

include hhdr

variable (hvalid : bodyValid hdr.protoVersion (buf.drop hdrLen) = true)

include hvalid

theorem Slot.Ready.push :
    ∃ bufs, (bufs ++ [buf]).Sublist (hist ++ [buf]) ∧ PartsOf hdr.origin (bufs ++ [buf]) ∧ IsPart hdr.origin bufs.length buf hdr ∧
      bufs.length = hdr.part.toNat ∧ s.stage ++ buf.drop hdrLen = bodies (bufs ++ [buf]) ∧
      ∃ es, Body hdr.protoVersion (s.stage ++ buf.drop hdrLen) es := by
  obtain ⟨bufs, hsub, hparts, hlen, hstage, es, hes⟩ := h.parts
  obtain ⟨fs, hfs⟩ := (bodyValid_iff _ _).1 hvalid
  have hpart : IsPart hdr.origin bufs.length buf hdr := ⟨hhdr, rfl, hlen.symm⟩
  exact ⟨bufs, hsub.append (Sublist.refl _), hparts.concat hpart, hpart, hlen, by rw [bodies_concat, hstage], es ++ fs,
    hes.append hfs⟩

theorem Slot.Ready.good_push (hlast : hdr.flags &&& flagLast = 0) (now : T) :
    (s.push hdr (buf.drop hdrLen) now).Good (hist ++ [buf]) := by
  obtain ⟨bufs, hsub, hparts, -, hlen, hstage, hes⟩ := h.push hhdr hvalid
  have hv : hdr.protoVersion = protoVersion := by
    by_contra hv
    rw [(part_of_version hhdr hv).2] at hlast
    cases hlast
  refine ⟨⟨fun _ => .inr h.staging, fun _ => h.used⟩, fun _ => ?_, fun hs => (h.whole hs).mono buf, fun hv _ => h.newer hv⟩
  refine ⟨hdr.origin, bufs ++ [buf], hsub, hparts, ?_, hstage, h.component, h.metricsId, h.start, h.sequence, hv, hes⟩
  rw [length_append, hlen]
  rfl

theorem Slot.Ready.good_commit (hlast : hdr.flags &&& flagLast ≠ 0) (now : T) :
    (commitStage (s.push hdr (buf.drop hdrLen) now) hdr now).Good (hist ++ [buf]) := by
  obtain ⟨bufs, hsub, hparts, hpart, -, hstage, hes⟩ := h.push hhdr hvalid
  refine ⟨⟨fun _ => .inl rfl, fun _ => h.used⟩, fun hs => absurd hs (by simp [commitStage]), fun _ => ?_,
    fun _ hs => absurd hs (by simp [commitStage])⟩
  exact ⟨hdr.origin, bufs, buf, hdr, hsub, hparts, hpart, hlast, hstage, h.component, h.metricsId, h.start, h.sequence, rfl, hes⟩

omit hvalid

omit hhdr

omit h

end ready

/-! ## The invariant of the store -/

/-- What holds of a store between two calls. -/
structure Store.Consistent (hist : List (List UInt8)) (st : Store T) : Prop where
  good : ∀ i, (st.slots i).Good hist
  distinct : ∀ i j, (st.slots i).used = true → (st.slots j).used = true → (st.slots i).component = (st.slots j).component →
    (st.slots i).metricsId = (st.slots j).metricsId → i = j

theorem consistent_init : (storeInit : Store T).Consistent [] :=
  ⟨fun _ => good_cleared [], fun _ _ h => absurd h (by simp [storeInit])⟩

variable {st' : Store T}

/-- A slot is set that keeps its instance, or takes one that no other slot has. -/
theorem Store.Consistent.set {hist hist' : List (List UInt8)} (h : st.Consistent hist)
    (hslots : st'.slots = update st.slots i s) (hmono : ∀ s : Slot T, s.Good hist → s.Good hist')
    (hgood : s.Good hist')
    (hkey : s.used = true → ∀ j ≠ i, (st.slots j).used = true → s.component = (st.slots j).component →
      s.metricsId ≠ (st.slots j).metricsId) : st'.Consistent hist' := by
  refine ⟨fun j => ?_, fun j k hj hk hc hm => ?_⟩
  · rw [hslots]
    by_cases hji : j = i
    · rw [hji, update_self]
      exact hgood
    · rw [update_of_ne hji]
      exact hmono _ (h.good j)
  rw [hslots] at hj hk hc hm
  by_cases hji : j = i
  · by_cases hki : k = i
    · rw [hji, hki]
    · rw [hji, update_self] at hj hc hm
      rw [update_of_ne hki] at hk hc hm
      exact absurd hm (hkey hj k hki hk hc)
  by_cases hki : k = i
  · rw [hki, update_self] at hk hc hm
    rw [update_of_ne hji] at hj hc hm
    exact absurd hm.symm (hkey hk j hji hj hc.symm)
  · rw [update_of_ne hji] at hj hc hm
    rw [update_of_ne hki] at hk hc hm
    exact h.distinct j k hj hk hc hm

theorem Opens.key (h : st.Consistent hist)
    (hopens : Opens st hdr i s) {j : Fin storeMaxInstances} (hji : j ≠ i) (hused : (st.slots j).used = true)
    (hc : (st.slots j).component = some hdr.component) : (st.slots j).metricsId ≠ hdr.metricsId := by
  have hfound : findSlot st hdr.component hdr.metricsId = some i → (st.slots j).metricsId ≠ hdr.metricsId := by
    intro hslot hm
    obtain ⟨hi, hci, hmi⟩ := findSlot_some hslot
    exact hji (h.distinct j i hused hi (hc.trans hci.symm) (hm.trans hmi.symm))
  cases hopens with
  | claim hslot hfree hpart => exact findSlot_none hslot j hused hc
  | restart hslot hpart hnew => exact hfound hslot
  | next hslot hpart hof hnext => exact hfound hslot

theorem Ingested.consistent (h : st.Consistent hist)
    (hstep : Ingested st buf now st') : st'.Consistent (hist ++ [buf]) := by
  have hmono : ∀ s : Slot T, s.Good hist → s.Good (hist ++ [buf]) := fun s hs => hs.mono buf
  cases hstep with
  | dropped hslots hreceived hrejected =>
    refine ⟨fun i => ?_, ?_⟩
    · rw [hslots]
      exact hmono _ (h.good i)
    · rw [hslots]
      exact h.distinct
  | orphaned i hstaging hslots hreceived hrejected =>
    have hused : (st.slots i).used = true := (h.good i).used.2 (.inr hstaging)
    refine h.set hslots hmono (hmono _ (.discard hused (h.good i).whole)) fun hs j hji hj hc hm => ?_
    unfold releaseIfEmpty at hs hc hm
    split at hs
    · cases hs
    · rename_i hkeep
      rw [if_neg hkeep] at hc hm
      exact hji (h.distinct i j hused hj hc hm).symm
  | refused hdr i s hhdr hopens hslots hreceived hrejected =>
    have hready := hopens.ready h.good hhdr
    refine h.set hslots hmono (hmono _ (.discard hready.used hready.whole)) fun hs j hji hj hc hm => ?_
    unfold releaseIfEmpty at hs hc hm
    split at hs
    · cases hs
    · rename_i hkeep
      rw [if_neg hkeep] at hc hm
      exact hopens.key h hji hj (hc.symm.trans hready.component) (hm.symm.trans hready.metricsId)
  | staged hdr i s hhdr hopens hvalid hlast hslots hreceived hrejected =>
    have hready := hopens.ready h.good hhdr
    refine h.set hslots hmono (hready.good_push hhdr hvalid hlast now) fun _ j hji hj hc hm => ?_
    exact hopens.key h hji hj (hc.symm.trans hready.component) (hm.symm.trans hready.metricsId)
  | committed hdr i s hhdr hopens hvalid hlast hslots hreceived hrejected =>
    have hready := hopens.ready h.good hhdr
    refine h.set hslots hmono (hready.good_commit hhdr hvalid hlast now) fun _ j hji hj hc hm => ?_
    exact hopens.key h hji hj (hc.symm.trans hready.component) (hm.symm.trans hready.metricsId)

variable (expired : T → T → T → Bool)

theorem reap_slot (st : Store T) (now expiry : T) (i : Fin storeMaxInstances) :
    (storeReapExpired expired st now expiry).slots i = {} ∨ (storeReapExpired expired st now expiry).slots i = st.slots i :=
  ite_eq_or_eq _ _ _

theorem consistent_reap (h : st.Consistent hist) (expired : T → T → T → Bool)
    (now expiry : T) : (storeReapExpired expired st now expiry).Consistent hist := by
  have hslot := reap_slot expired st now expiry
  refine ⟨fun i => ?_, fun i j hi hj hc hm => ?_⟩
  · rcases hslot i with hi | hi
    · rw [hi]
      exact good_cleared hist
    · rw [hi]
      exact h.good i
  rcases hslot i with hi' | hi'
  · rw [hi'] at hi
    cases hi
  rcases hslot j with hj' | hj'
  · rw [hj'] at hj
    cases hj
  · rw [hi'] at hi hc hm
    rw [hj'] at hj hc hm
    exact h.distinct i j hi hj hc hm

/-! ## Live snapshots -/

theorem snapshot_update (hslots : st'.slots = update st.slots i s)
    (hs : s.snapshot = (st.slots i).snapshot) (j : Fin storeMaxInstances) : (st'.slots j).snapshot = (st.slots j).snapshot := by
  rw [hslots]
  by_cases hji : j = i
  · rw [hji, update_self, hs]
  · rw [update_of_ne hji]

theorem Opens.snapshot (h : st.Consistent hist) (hopens : Opens st hdr i s) : s.snapshot = (st.slots i).snapshot := by
  cases hopens with
  | claim hslot hfree hpart =>
    have hvalid : (st.slots i).valid = false := by
      by_contra hv
      have hused := (h.good i).used.2 (.inl (by simpa using hv))
      rw [findFreeSlot_some hfree] at hused
      cases hused
    rw [snapshot_startStage]
    unfold Slot.snapshot Slot.claim
    simp [hvalid]
  | _ => rfl

theorem Ingested.snapshot_eq (h : st.Consistent hist)
    (hstep : Ingested st buf now st') (hnot : st'.stats.snapshotsReceivedTotal = st.stats.snapshotsReceivedTotal)
    (j : Fin storeMaxInstances) : (st'.slots j).snapshot = (st.slots j).snapshot := by
  cases hstep with
  | dropped hslots hreceived hrejected => rw [hslots]
  | orphaned i hstaging hslots hreceived hrejected =>
    exact snapshot_update hslots (by rw [snapshot_releaseIfEmpty, snapshot_discardStage]) j
  | refused hdr i s hhdr hopens hslots hreceived hrejected =>
    exact snapshot_update hslots (by rw [snapshot_releaseIfEmpty, snapshot_discardStage, hopens.snapshot h]) j
  | staged hdr i s hhdr hopens hvalid hlast hslots hreceived hrejected =>
    have hs := hopens.snapshot h
    exact snapshot_update hslots hs j
  | committed hdr i s hhdr hopens hvalid hlast hslots hreceived hrejected => omega

theorem Ingested.received_of_rejected (hstep : Ingested st buf now st')
    (hrejected : st'.stats.rejected ≠ st.stats.rejected) :
    st'.stats.snapshotsReceivedTotal = st.stats.snapshotsReceivedTotal := by
  cases hstep with
  | dropped _ hreceived _ => exact hreceived
  | orphaned _ _ _ hreceived _ => exact hreceived
  | refused _ _ _ _ _ _ hreceived _ => exact hreceived
  | staged _ _ _ _ _ _ _ _ _ hsame => exact absurd hsame hrejected
  | committed _ _ _ _ _ _ _ _ _ hsame => exact absurd hsame hrejected

/-! ## The order of the snapshots of an instance -/

/-- What happens to the live snapshot of an instance. -/
inductive Event where
  | committed (processStartTime sequence : UInt64)
  | released
  deriving DecidableEq

/-- The live snapshot of an instance: the last event there has been. -/
def Store.serving (st : Store T) (c : Component) (m : MetricsId) : Event :=
  match (findSlot st c m).bind fun i => (st.slots i).snapshot with
  | some s => .committed s.processStartTime s.sequence
  | none => .released

/-- Between two commits of one process the sequence number grows. -/
def Event.Before : Event → Event → Prop
  | .committed p s, .committed p' s' => p = p' → s < s'
  | _, _ => True

/-- The store has this live snapshot for an instance. -/
def Store.Serves (st : Store T) (c : Component) (m : MetricsId) (s : Snapshot T) : Prop :=
  s.component = some c ∧ s.metricsId = m ∧ ∃ i, (st.slots i).snapshot = some s

theorem Slot.snapshot_eq_some {snap : Snapshot T} (h : s.snapshot = some snap) :
    s.valid = true ∧ snap.component = s.component ∧ snap.metricsId = s.metricsId ∧
      snap.processStartTime = s.processStartTime ∧ snap.sequence = s.sequence := by
  unfold Slot.snapshot at h
  split at h
  · rename_i hv
    cases h
    exact ⟨hv, rfl, rfl, rfl, rfl⟩
  · cases h

theorem findSlot_of_used (h : st.Consistent hist) (hused : (st.slots i).used = true) (hc : (st.slots i).component = some c)
    (hm : (st.slots i).metricsId = m) : findSlot st c m = some i := by
  cases hf : findSlot st c m with
  | none => exact absurd hm (findSlot_none hf i hused hc)
  | some j =>
    obtain ⟨hj, hcj, hmj⟩ := findSlot_some hf
    rw [h.distinct j i hj hused (hcj.trans hc.symm) (hmj.trans hm.symm)]

theorem serves_iff (h : st.Consistent hist)
    {s : Snapshot T} : ((findSlot st c m).bind fun i => (st.slots i).snapshot) = some s ↔ st.Serves c m s := by
  constructor
  · intro hs
    obtain ⟨i, hi, hsnap⟩ := bind_eq_some_iff.1 hs
    obtain ⟨-, hc, hm⟩ := findSlot_some hi
    obtain ⟨-, hc', hm', -⟩ := Slot.snapshot_eq_some hsnap
    exact ⟨hc'.trans hc, hm'.trans hm, i, hsnap⟩
  · rintro ⟨hc, hm, i, hsnap⟩
    obtain ⟨hv, hc', hm', -⟩ := Slot.snapshot_eq_some hsnap
    rw [findSlot_of_used h ((h.good i).used.2 (.inl hv)) (hc'.symm.trans hc) (hm'.symm.trans hm)]
    exact hsnap

theorem serving_congr {hist hist' : List (List UInt8)} (h : st.Consistent hist) (h' : st'.Consistent hist') (heq : ∀ s, st'.Serves c m s ↔ st.Serves c m s) : st'.serving c m = st.serving c m := by
  have hbind : ((findSlot st' c m).bind fun i => (st'.slots i).snapshot) = (findSlot st c m).bind fun i => (st.slots i).snapshot := by
    apply Option.ext
    intro s
    rw [serves_iff h', serves_iff h, heq]
  unfold Store.serving
  rw [hbind]

/-- The slot of a snapshot that is opened again holds one of the same instance, and an older one. -/
theorem Opens.before (h : st.Consistent hist) (hhdr : metricsReaderInit buf = some hdr) (hopens : Opens st hdr i s) :
    (st.serving hdr.component hdr.metricsId).Before (.committed hdr.processStartTime hdr.sequence) := by
  have hready := hopens.ready h.good hhdr
  cases hs : st.serving hdr.component hdr.metricsId with
  | released => trivial
  | committed p q =>
    intro hp
    unfold Store.serving at hs
    split at hs
    · rename_i snap hsnap
      obtain ⟨hp', hq'⟩ := Event.committed.inj hs
      obtain ⟨hc, hm, j, hj⟩ := (serves_iff h).1 hsnap
      obtain ⟨hv, hc', hm', hstart, hseq⟩ := Slot.snapshot_eq_some hj
      have hused := (h.good j).used.2 (.inl hv)
      have hji : j = i := by
        by_contra hji
        exact hopens.key h hji hused (hc'.symm.trans hc) (hm'.symm.trans hm)
      subst hji
      have hsame : s.snapshot = (st.slots j).snapshot := hopens.snapshot h
      rw [hj] at hsame
      obtain ⟨hvs, -, -, hstart', hseq'⟩ := Slot.snapshot_eq_some hsame
      have hnewer := hready.newer hvs (by rw [hready.start, ← hstart', hp', hp])
      rwa [hready.sequence, ← hseq', hq'] at hnewer
    · cases hs

theorem Ingested.serving_other {s t : Slot T}
    (h : st.Consistent hist) (hopens : Opens st hdr i s) (hslots : st'.slots = update st.slots i t)
    (hc : t.component = some hdr.component) (hm : t.metricsId = hdr.metricsId)
    (hother : ¬ (hdr.component = c ∧ hdr.metricsId = m)) (snap : Snapshot T) : st'.Serves c m snap ↔ st.Serves c m snap := by
  have hold : ∀ snap, (st.slots i).snapshot = some snap → snap.component = some hdr.component ∧ snap.metricsId = hdr.metricsId := by
    intro snap hsnap
    obtain ⟨hv, hsc, hsm, -⟩ := Slot.snapshot_eq_some hsnap
    rw [hsc, hsm]
    cases hopens with
    | claim hslot hfree hpart =>
      have hused := (h.good i).used.2 (.inl hv)
      rw [findFreeSlot_some hfree] at hused
      cases hused
    | restart hslot hpart hnew => exact (findSlot_some hslot).2
    | next hslot hpart hof hnext => exact (findSlot_some hslot).2
  have hne : ∀ {snap : Snapshot T}, snap.component = some c → snap.metricsId = m →
      ¬ (snap.component = some hdr.component ∧ snap.metricsId = hdr.metricsId) := by
    rintro snap hsc hsm ⟨hsc', hsm'⟩
    exact hother ⟨some.inj (hsc'.symm.trans hsc), hsm'.symm.trans hsm⟩
  constructor
  · rintro ⟨hsc, hsm, j, hj⟩
    refine ⟨hsc, hsm, j, ?_⟩
    rw [hslots] at hj
    by_cases hji : j = i
    · rw [hji, update_self] at hj
      obtain ⟨-, hsc', hsm', -⟩ := Slot.snapshot_eq_some hj
      exact absurd ⟨hsc'.trans hc, hsm'.trans hm⟩ (hne hsc hsm)
    · rwa [update_of_ne hji] at hj
  rintro ⟨hsc, hsm, j, hj⟩
  refine ⟨hsc, hsm, j, ?_⟩
  rw [hslots]
  by_cases hji : j = i
  · rw [hji] at hj
    exact absurd (hold snap hj) (hne hsc hsm)
  · rwa [update_of_ne hji]

/-! ## Runs -/

/-- A call of the store. -/
inductive Op (T : Type) where
  | ingest (grow : Bool) (buf : List UInt8) (now : T)
  | reap (now expiry : T)

def Op.apply (expired : T → T → T → Bool) (st : Store T) : Op T → Store T
  | .ingest grow buf now => storeIngest grow st buf now
  | .reap now expiry => storeReapExpired expired st now expiry

def run (expired : T → T → T → Bool) (ops : List (Op T)) : Store T := ops.foldl (Op.apply expired) storeInit

/-- The datagrams that have come. -/
def datagrams (ops : List (Op T)) : List (List UInt8) := ops.filterMap fun
    | .ingest _ buf _ => some buf
    | .reap _ _ => none

/-- What a call that leads from `st` to `st'` does to an instance. -/
def event (c : Component) (m : MetricsId) (st st' : Store T) : Op T → Option Event
  | .ingest _ buf _ => (metricsReaderInit buf).bind fun hdr =>
      if hdr.component = c ∧ hdr.metricsId = m ∧ st'.stats.snapshotsReceivedTotal ≠ st.stats.snapshotsReceivedTotal then
        some (.committed hdr.processStartTime hdr.sequence)
      else none
  | .reap _ _ => if st.serving c m ≠ .released ∧ st'.serving c m = .released then some .released else none

/-- What a run from a store on does to an instance. -/
def events (expired : T → T → T → Bool) (c : Component) (m : MetricsId) (st : Store T) : List (Op T) → List Event
  | [] => []
  | op :: ops => (event c m st (op.apply expired st) op).toList ++ events expired c m (op.apply expired st) ops

theorem Op.consistent (h : st.Consistent hist) (expired : T → T → T → Bool) (op : Op T) :
    (op.apply expired st).Consistent (hist ++ datagrams [op]) := by
  cases op with
  | ingest grow buf now => exact (storeIngest_cases grow st buf now).consistent h
  | reap now expiry =>
    rw [show datagrams [Op.reap now expiry] = [] from rfl, append_nil]
    exact consistent_reap h expired now expiry

theorem run_concat (ops : List (Op T)) (op : Op T) :
    run expired (ops ++ [op]) = op.apply expired (run expired ops) := by
  rw [run, foldl_append]
  rfl

theorem run_consistent (ops : List (Op T)) : (run expired ops).Consistent (datagrams ops) := by
  induction ops using reverseRecOn with
  | nil => exact consistent_init
  | append_singleton ops op ih =>
    rw [run_concat, show datagrams (ops ++ [op]) = datagrams ops ++ datagrams [op] from filterMap_append ..]
    exact op.consistent ih expired

theorem serving_of_serves (h : st.Consistent hist)
    {s : Snapshot T} (hs : st.Serves c m s) : st.serving c m = .committed s.processStartTime s.sequence := by
  unfold Store.serving
  rw [(serves_iff h).2 hs]

/-- The last event after a call that may have done something to an instance. -/
def Event.Follows (last last' : Event) : Option Event → Prop
  | none => last' = last
  | some e => last.Before e ∧ last' = e

/-- What a call does to an instance comes after what there has been, and then it is the last event. -/
theorem event_step (h : st.Consistent hist) (expired : T → T → T → Bool) (op : Op T)
    (c : Component) (m : MetricsId) :
    (st.serving c m).Follows ((op.apply expired st).serving c m) (event c m st (op.apply expired st) op) := by
  have h' := op.consistent h expired
  cases op with
  | reap now expiry =>
    show (st.serving c m).Follows ((storeReapExpired expired st now expiry).serving c m)
      (event c m st (storeReapExpired expired st now expiry) (.reap now expiry))
    simp only [event]
    split
    · rename_i hgone
      refine ⟨?_, hgone.2⟩
      cases st.serving c m <;> trivial
    rename_i hkept
    -- what is still live is what has been
    cases hs : (storeReapExpired expired st now expiry).serving c m with
    | released => exact (not_not.1 fun hne => hkept ⟨fun h => hne h.symm, hs⟩)
    | committed p q =>
      unfold Store.serving at hs
      split at hs
      · rename_i snap hsnap
        obtain ⟨hc, hm, i, hi⟩ := (serves_iff h').1 hsnap
        have hslot : (st.slots i).snapshot = some snap := by
          rcases reap_slot expired st now expiry i with hcase | hcase
          · rw [show (Op.apply expired st (.reap now expiry)).slots i = {} from hcase] at hi
            cases hi
          · rw [show (Op.apply expired st (.reap now expiry)).slots i = st.slots i from hcase] at hi
            exact hi
        rw [serving_of_serves h ⟨hc, hm, i, hslot⟩, hs]
        rfl
      · cases hs
  | ingest grow buf now =>
    have hstep := storeIngest_cases grow st buf now
    show (st.serving c m).Follows ((storeIngest grow st buf now).serving c m)
      (event c m st (storeIngest grow st buf now) (.ingest grow buf now))
    have hquiet : (storeIngest grow st buf now).stats.snapshotsReceivedTotal = st.stats.snapshotsReceivedTotal →
        (st.serving c m).Follows ((storeIngest grow st buf now).serving c m)
          (event c m st (storeIngest grow st buf now) (.ingest grow buf now)) := by
      intro hsame
      have hserving : (storeIngest grow st buf now).serving c m = st.serving c m := by
        refine serving_congr h h' fun s => ?_
        unfold Store.Serves
        simp only [hstep.snapshot_eq h hsame]
      simp only [event]
      cases metricsReaderInit buf with
      | none => exact hserving
      | some hdr =>
        rw [bind_some, if_neg fun hk => hk.2.2 hsame]
        exact hserving
    cases hstep with
    | committed hdr i s hhdr hopens hvalid hlast hslots hreceived hrejected =>
      have hready := hopens.ready h.good hhdr
      simp only [event]
      rw [hhdr, bind_some]
      by_cases hkey : hdr.component = c ∧ hdr.metricsId = m
      · rw [if_pos ⟨hkey.1, hkey.2, by omega⟩]
        obtain ⟨rfl, rfl⟩ := hkey
        refine ⟨hopens.before h hhdr, ?_⟩
        have hserves : (storeIngest grow st buf now).Serves hdr.component hdr.metricsId
            ⟨s.component, s.metricsId, s.stageProcessStart, s.stageSequence, hdr.snapshotTime, now, hdr.protoVersion,
              s.stage ++ buf.drop hdrLen⟩ := by
          refine ⟨hready.component, hready.metricsId, i, ?_⟩
          rw [hslots, update_self]
          rfl
        rw [show (storeIngest grow st buf now).serving hdr.component hdr.metricsId = _ from serving_of_serves h' hserves,
          hready.start, hready.sequence]
      · rw [if_neg fun hk => hkey ⟨hk.1, hk.2.1⟩]
        exact serving_congr h h' (Ingested.serving_other h hopens hslots hready.component hready.metricsId hkey)
    | dropped hslots hreceived hrejected => exact hquiet hreceived
    | orphaned i hstaging hslots hreceived hrejected => exact hquiet hreceived
    | refused hdr i s hhdr hopens hslots hreceived hrejected => exact hquiet hreceived
    | staged hdr i s hhdr hopens hvalid hlast hslots hreceived hrejected => exact hquiet hreceived

theorem events_chain (h : st.Consistent hist) (expired : T → T → T → Bool) (c : Component) (m : MetricsId)
    (ops : List (Op T)) : (st.serving c m :: events expired c m st ops).IsChain Event.Before := by
  induction ops generalizing hist st with
  | nil => exact isChain_singleton _
  | cons op ops ih =>
    have hrest := ih (op.consistent h expired)
    have hstep := event_step h expired op c m
    rw [events]
    cases he : event c m st (op.apply expired st) op with
    | none =>
      rw [he] at hstep
      rw [hstep] at hrest
      exact hrest
    | some e =>
      rw [he] at hstep
      rw [hstep.2] at hrest
      exact isChain_cons_cons.2 ⟨hstep.1, hrest⟩

/-- Commits of one process that follow each other have growing sequence numbers. -/
theorem sequences_grow {before after : List Event} {seqs : List UInt64} {p : UInt64}
    (h : (before ++ seqs.map (Event.committed p) ++ after).IsChain Event.Before) : seqs.Pairwise (· < ·) := by
  have hblock : (seqs.map (Event.committed p)).IsChain Event.Before := by refine h.infix ⟨before, after, rfl⟩
  rw [isChain_map] at hblock
  have hlt : seqs.IsChain (· < ·) := hblock.imp fun _ _ hab => hab rfl
  exact isChain_iff_pairwise.1 hlt

/-- In every run the slots in use are those with a live snapshot or a stage and stand for different instances, every live
snapshot is whole, what is rejected leaves the live snapshots alone, and while an instance keeps its process and its slot,
its sequence numbers grow. -/
theorem store_runs (expired : T → T → T → Bool) (ops : List (Op T)) : (run expired ops).Consistent (datagrams ops) ∧
      (∀ grow buf now, (storeIngest grow (run expired ops) buf now).stats.rejected ≠ (run expired ops).stats.rejected →
        ∀ i, ((storeIngest grow (run expired ops) buf now).slots i).snapshot = ((run expired ops).slots i).snapshot) ∧
      ∀ c m before (seqs : List UInt64) after p,
        events expired c m storeInit ops = before ++ seqs.map (Event.committed p) ++ after → seqs.Pairwise (· < ·) := by
  have hrun := run_consistent expired ops
  refine ⟨hrun, ?_, ?_⟩
  · intro grow buf now hrejected i
    have hstep := storeIngest_cases grow (run expired ops) buf now
    exact hstep.snapshot_eq hrun (hstep.received_of_rejected hrejected) i
  · intro c m before seqs after p hevents
    have hchain := (events_chain (consistent_init (T := T)) expired c m ops).tail
    rw [tail_cons, hevents] at hchain
    exact sequences_grow hchain

/-- A part of a snapshot, with one entry. -/
def onePart (processStartTime sequence part flags value : UInt8) : List UInt8 :=
  [2, 1, part, flags] ++ (97 :: replicate 31 0) ++ (replicate 7 0 ++ [processStartTime]) ++
    (replicate 7 0 ++ [sequence]) ++ replicate 8 0 ++ [1, 97, 1, 0, 1, value]

/-- Two snapshots of one process, each in two parts, and the beginning of a third. -/
def twoSnapshots : List (Op Nat) := [.ingest true (onePart 1 5 0 0 10) 0, .ingest true (onePart 1 5 1 1 11) 1,
  .ingest true (onePart 1 7 0 0 20) 2, .ingest true (onePart 1 7 1 1 21) 3, .ingest true (onePart 1 8 0 0 30) 4]

/-- The two are committed one after the other, and the second one stays when a part of it comes again. -/
theorem twoSnapshots_runs : ((run (fun _ _ _ => false) twoSnapshots).slots ⟨0, by decide⟩).snapshot.map (·.live) =
        some [1, 97, 1, 0, 1, 20, 1, 97, 1, 0, 1, 21] ∧ ([5, 7] : List UInt64).Pairwise (· < ·) ∧
      ∀ i, ((storeIngest true (run (fun _ _ _ => false) twoSnapshots) (onePart 1 7 1 1 21) 5).slots i).snapshot
        = ((run (fun _ _ _ => false) twoSnapshots).slots i).snapshot := by
  have hruns := store_runs (fun _ _ _ => false) twoSnapshots
  exact ⟨by decide +kernel, hruns.2.2 .tvhead (.ofField [97]) [] [5, 7] [] 1 (by decide +kernel),
    hruns.2.1 true (onePart 1 7 1 1 21) 5 (by decide +kernel)⟩

/-- The sequence number of a snapshot of one process that is committed. -/
def Event.sequenceIn (p : UInt64) : Event → Option UInt64
  | .committed q s => if q = p then some s else none
  | .released => none

/-- A process that was replaced comes back with an older snapshot, which is committed: its numbers are 5, 3. -/
theorem replaced_process_returns : ¬ ((events (fun _ _ _ => false) .tvhead (.ofField [97]) storeInit
        [Op.ingest true (onePart 1 5 0 1 0) (0 : Nat), .ingest true (onePart 2 1 0 1 0) 1, .ingest true (onePart 1 3 0 1 0) 2]).filterMap (Event.sequenceIn 1)).Pairwise (· < ·) := by
  decide +kernel

end DvbIpiTools.Metrics
