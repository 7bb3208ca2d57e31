import DvbIpiTools.Dipixy.SegRuns
import Mathlib.Data.UInt

set_option autoImplicit false

/-! # Snapshots stay as they are

What a reader sees of a snapshot, from its publication until it is freed, and what a playlist says of its breaks. -/

namespace DvbIpiTools.Dipixy

open RefCount List UInt32

/-! ## What a reader sees -/

def bytesOf (b : Option Buf) : List UInt8 := (b.map Buf.bytes).getD []

/-- The segments with their bytes, and the bytes in progress and of the init segment. -/
structure Seen where
  segs : List (Seg × List UInt8)
  live : List UInt8
  init : List UInt8

def Shown.seen (sh : Shown) (s : Snapshot) : Seen :=
  ⟨sh.segs.map fun p => (p.1, (bytesOf p.2).take p.1.size), (bytesOf sh.live).take s.liveLen,
    (bytesOf sh.init).take s.initSize⟩

def Heap.seen (h : Heap) (s : Snapshot) : Seen := (h.shows s).seen s

theorem BufLe.take {a b : Option Buf} (h : BufLe a b) {n : Nat} (hn : n ≤ bufLen a) :
    (bytesOf b).take n = (bytesOf a).take n := by
  rcases h with rfl | ⟨buf, more, rfl, rfl⟩
  · rfl
  · exact take_append_of_le_length hn

theorem ShownLe.refl (a : Shown) : ShownLe a a :=
  ⟨forall₂_same.2 fun _ _ => ⟨rfl, BufLe.refl _⟩, BufLe.refl _, BufLe.refl _⟩

theorem Good.seen_eq {maxSegs : Nat} {s : Snapshot} {a b : Shown} (g : Good maxSegs s a) (h : ShownLe a b) :
    b.seen s = a.seen s := by
  have hsegs : ∀ {as bs : List (Seg × Option Buf)}, SegsLe as bs → (∀ p ∈ as, p.1.size ≤ bufLen p.2) →
      bs.map (fun p => (p.1, (bytesOf p.2).take p.1.size)) = as.map fun p => (p.1, (bytesOf p.2).take p.1.size) := by
    intro as bs hle hsize
    induction hle with
    | nil => rfl
    | @cons p q as bs hpq _ ih =>
      rw [map_cons, map_cons, ih fun p' hp' => hsize p' (.tail _ hp'), ← hpq.1,
        hpq.2.take (hsize p mem_cons_self)]
  rw [Shown.seen, Shown.seen, hsegs h.segs g.sizes, h.live.take g.liveLen, h.init.take g.initSize]

/-! ## Snapshots in order -/

def discBit (disc : Bool) : UInt32 := if disc then 1 else 0

/-- The breaks at segments. -/
def discSum (segs : List Seg) : UInt32 := (segs.map fun s => discBit s.disc).sum

/-- The `disc_seq` of `snapshot_plain_playlist`. -/
def Heap.plainDiscSeq (h : Heap) (s : Snapshot) : UInt32 :=
  (h.window s).foldl (fun q seg => q - discBit seg.disc) s.epoch

/-- The `live_disc` of `snapshot_ll_playlist`. -/
def Snapshot.liveDisc (s : Snapshot) : Bool := s.liveParts.length > 0 && s.discPending

/-- The `disc_seq` of `snapshot_ll_playlist`. -/
def Heap.llDiscSeq (h : Heap) (s : Snapshot) : UInt32 := h.plainDiscSeq s - discBit s.liveDisc

theorem discSum_add_foldl (segs : List Seg) (epoch : UInt32) :
    discSum segs + segs.foldl (fun q seg => q - discBit seg.disc) epoch = epoch := by
  induction segs generalizing epoch with
  | nil => exact zero_add epoch
  | cons s segs ih =>
    have hsum : discSum (s :: segs) = discBit s.disc + discSum segs := sum_cons
    rw [hsum, foldl_cons, add_assoc, ih, add_comm, sub_add_cancel]

/-- What holds of a published snapshot. -/
structure InOrder (h : Heap) (f : PubInfo) (s : Snapshot) : Prop where
  count : s.count ≤ f.maxSegs
  length : (h.window s).length = s.count
  seq : ∀ (i : Nat) (a : Seg), (h.window s)[i]? = some a → a.seq = s.oldestSeq + UInt32.ofNat i
  next : s.nextSeq = s.oldestSeq + UInt32.ofNat s.count
  start : ∀ (i : Nat) (a b : Seg), (h.window s)[i]? = some a → (h.window s)[i + 1]? = some b →
    b.startMs = a.startMs + a.duration.ms
  parts : ∀ a ∈ h.window s, a.parts = [] ∨ Tiles 0 a.parts a.size
  tiles : f.whole = false → ∀ a ∈ h.window s, Tiles 0 a.parts a.size
  noParts : f.parts = false → s.liveParts = [] ∧ ∀ a ∈ h.window s, a.parts = []
  liveParts : Tiles 0 s.liveParts s.liveLen
  liveMsn : f.whole = false → s.partTarget > 0 → s.liveMsn = s.nextSeq
  plainDisc : discSum (h.window s) + h.plainDiscSeq s = s.epoch
  llDisc : discSum (h.window s) + discBit s.liveDisc + h.llDiscSeq s = s.epoch
  breaks : (h.window s).countP Seg.disc + s.discPending.toNat ≤ 1
  bytes : (h.seen s).segs.map (fun p => p.2.length) = (h.window s).map Seg.size
  liveBytes : (h.seen s).live.length = s.liveLen
  initBytes : (h.seen s).init.length = s.initSize

theorem InOrder.of_good {h : Heap} {f : PubInfo} {s : Snapshot} (g : Good f.maxSegs s (h.shows s))
    (hfed : Fed f.whole f.parts s (h.shows s)) : InOrder h f s := by
  have hfst := shows_fst h s
  have hmem : ∀ a ∈ h.window s, ∃ p ∈ (h.shows s).segs, p.1 = a := by
    intro a ha
    rw [← hfst] at ha
    exact mem_map.1 ha
  obtain ⟨t, ht⟩ := g.timeline
  rw [hfst] at ht
  have hlen : (h.window s).length = s.count := by rw [← hfst, length_map, g.length]
  refine ⟨g.count, hlen, fun i a ha => ht.seq_eq ha, ?_, fun i a b ha hb => ht.start_eq ha hb, ?_, ?_, ?_, g.liveParts,
    hfed.liveMsn, discSum_add_foldl _ _, ?_, hfst ▸ g.breaks, ?_, ?_, ?_⟩
  · rw [← hlen]
    exact ht.next_eq
  · intro a ha
    obtain ⟨p, hp, rfl⟩ := hmem a ha
    exact g.parts p hp
  · intro hw a ha
    obtain ⟨p, hp, rfl⟩ := hmem a ha
    exact hfed.tiles hw p hp
  · intro hp
    refine ⟨(hfed.noParts hp).1, fun a ha => ?_⟩
    obtain ⟨p, hmem, rfl⟩ := hmem a ha
    exact (hfed.noParts hp).2 p hmem
  · rw [Heap.llDiscSeq, add_assoc, add_comm (discBit _), sub_add_cancel]
    exact discSum_add_foldl _ _
  · rw [← hfst, map_map]
    show ((h.shows s).segs.map _).map _ = _
    rw [map_map]
    refine map_congr_left fun p hp => ?_
    show ((bytesOf p.2).take p.1.size).length = p.1.size
    rw [length_take]
    exact Nat.min_eq_left (g.sizes p hp)
  · show ((bytesOf (h.shows s).live).take s.liveLen).length = _
    rw [length_take]
    exact Nat.min_eq_left g.liveLen
  · show ((bytesOf (h.shows s).init).take s.initSize).length = _
    rw [length_take]
    exact Nat.min_eq_left g.initSize

section

variable {K : Type}

/-- The snapshots that are not freed are the same, and at most bytes were written that they do not show. -/
def Unchanged (st st' : SegStore K) : Prop :=
  st.snaps.length ≤ st'.snaps.length ∧ ∀ (id : Nat) (c c' : SnapCell), st.snaps[id]? = some c →
    st'.snaps[id]? = some c' → c'.live = true → c' = c ∧ ShownLe (st.heap.shows c.snap) (st'.heap.shows c.snap)

theorem Unchanged.of_eq {st st' : SegStore K} (hheap : st'.heap = st.heap) (hsnaps : st'.snaps = st.snaps) :
    Unchanged st st' := by
  refine ⟨le_of_eq (congrArg length hsnaps.symm), fun id c c' hc hc' _ => ?_⟩
  rw [hsnaps] at hc'
  obtain rfl := Option.some.inj (hc.symm.trans hc')
  rw [hheap]
  exact ⟨rfl, ShownLe.refl _⟩

theorem finish_unchanged {st : SegStore K} {w : Option Nat} {P : Snapshot → Shown → Prop} {r : Outcome × Heap}
    (hr : Called st.heap st.live w P r) (i : Nat) : Unchanged st (st.finish i r) := by
  obtain ⟨out, heap⟩ := r
  cases out with
  | fail =>
    refine ⟨le_rfl, fun id c c' hc hc' hl => ?_⟩
    obtain rfl := Option.some.inj (hc.symm.trans hc')
    refine ⟨rfl, ?_⟩
    show ShownLe _ (heap.shows c.snap)
    rw [hr.2.shows (mem_live hc hl)]
    exact ShownLe.refl _
  | keep =>
    obtain rfl : heap = st.heap := hr
    exact Unchanged.of_eq rfl rfl
  | publish ns =>
    obtain ⟨-, g, -, -⟩ := hr
    refine ⟨?_, fun id c c' hc hc' hl => ?_⟩
    · show _ ≤ (st.snaps ++ [(⟨ns, true⟩ : SnapCell)]).length
      rw [length_append]
      omega
    · have hc' : (st.snaps ++ [(⟨ns, true⟩ : SnapCell)])[id]? = some c' := hc'
      rw [getElem?_append_left (List.getElem?_eq_some_iff.1 hc).1] at hc'
      obtain rfl := Option.some.inj (hc.symm.trans hc')
      exact ⟨rfl, g.shows (mem_live hc hl)⟩

variable {R : SegRun K}

theorem reclaim_unchanged (h : StoreInv R) (id : Nat) : Unchanged R.st (R.st.reclaim id) := by
  unfold SegStore.reclaim
  cases hc : R.st.snaps[id]? with
  | none => exact Unchanged.of_eq rfl rfl
  | some c =>
    simp only []
    split
    · next hfree =>
      obtain ⟨-, k⟩ := snapFree_owned (h.owned.perm (live_perm hc hfree.1))
      refine ⟨le_of_eq length_set.symm, fun j d d' hd hd' hl => ?_⟩
      have hmem : d'.snap ∈ ((R.st.snaps.set id { c with live := false }).filter SnapCell.live).map SnapCell.snap :=
        mem_map.2 ⟨_, mem_filter.2 ⟨mem_of_getElem? hd', hl⟩, rfl⟩
      have hsame : d' = d := by
        rw [getElem?_set] at hd'
        split at hd'
        · split at hd'
          · cases hd'
            cases hl
          · cases hd'
        · exact Option.some.inj (hd'.symm.trans hd)
      subst hsame
      refine ⟨rfl, ?_⟩
      rw [k.shows hmem]
      exact ShownLe.refl _
    · exact Unchanged.of_eq rfl rfl

variable [DecidableEq K]

theorem step_unchanged (h : StoreInv R) (ev : StoreEvent K) : Unchanged R.st (R.st.step ev) := by
  cases ev with
  | openStore key maxSegs =>
    show Unchanged R.st (R.st.openStore key maxSegs)
    rw [SegStore.openStore]
    split <;> exact Unchanged.of_eq rfl rfl
  | closeStore key alloc =>
    show Unchanged R.st (R.st.closeStore key alloc)
    unfold SegStore.closeStore
    split
    · exact Unchanged.of_eq rfl rfl
    split
    · exact Unchanged.of_eq rfl rfl
    · simp only []
      split
      · exact Unchanged.of_eq rfl rfl
      · rw [SegStore.seqFloorNote]
        split <;> exact Unchanged.of_eq rfl rfl
  | call key mem c =>
    show Unchanged R.st (R.st.call key mem c)
    rw [SegStore.call]
    cases hfind : R.st.find key with
    | none => exact Unchanged.of_eq rfl rfl
    | some i => exact finish_unchanged (call_called h hfind mem c) i
  | sync dst src mem =>
    show Unchanged R.st (R.st.sync dst src mem)
    unfold SegStore.sync
    split
    · next i j _ _ => exact finish_unchanged (sync_called_at h i mem (R.st.current j)) i
    · exact Unchanged.of_eq rfl rfl
  | reclaim id => exact reclaim_unchanged h id
  | slotFree i => exact Unchanged.of_eq rfl rfl

theorem run_seen (h : StoreInv R) (evs : List (StoreEvent K)) {id : Nat} {c c' : SnapCell}
    (hc : R.st.snaps[id]? = some c) (hc' : (R.run evs).st.snaps[id]? = some c') (hlive : c'.live = true) :
    c' = c ∧ (R.run evs).st.heap.seen c.snap = R.st.heap.seen c.snap := by
  induction evs generalizing R c with
  | nil =>
    obtain rfl := Option.some.inj (hc.symm.trans hc')
    exact ⟨rfl, rfl⟩
  | cons ev evs ih =>
    have hinv := step_inv h ev
    obtain ⟨hlen, hsame⟩ := step_unchanged h ev
    have hlt := (List.getElem?_eq_some_iff.1 hc).1
    obtain ⟨c1, hc1⟩ : ∃ c1, (R.step ev).st.snaps[id]? = some c1 :=
      ⟨_, getElem?_eq_getElem (lt_of_lt_of_le hlt hlen)⟩
    obtain ⟨hrest, hseen⟩ := ih hinv hc1 hc'
    obtain ⟨heq, hle⟩ := hsame id c _ hc hc1 (hrest ▸ hlive)
    rw [heq] at hrest hseen
    refine ⟨hrest, hseen.trans ?_⟩
    obtain ⟨f, hf⟩ : ∃ f, R.pubs[id]? = some f := ⟨_, getElem?_eq_getElem (by rw [h.pubs]; exact hlt)⟩
    exact (h.snaps id c f hc hf (hrest ▸ hlive)).2.1.seen_eq hle

/-! ## All runs -/

/-- A store's snapshot is published, and for its number of segments. -/
def SegRun.Published (R : SegRun K) (s : Store K) (id : Nat) : Prop :=
  ∃ c f, R.st.snaps[id]? = some c ∧ R.pubs[id]? = some f ∧ c.live = true ∧ f.maxSegs = s.maxSegs

theorem snapshots_in_order {R : SegRun K} (h : SegReach R) :
    (∀ s ∈ R.st.slots, ∀ id, s.snap = some id → R.Published s id) ∧
    (∀ (id : Nat) (c : SnapCell) (f : PubInfo), R.st.snaps[id]? = some c → R.pubs[id]? = some f → c.live = true →
      InOrder R.st.heap f c.snap) ∧
    (∀ (evs : List (StoreEvent K)) (id : Nat) (c c' : SnapCell), R.st.snaps[id]? = some c → (R.run evs).st.snaps[id]? = some c' → c'.live = true →
      c' = c ∧ (R.run evs).st.heap.seen c.snap = R.st.heap.seen c.snap) ∧
    (∀ x, refOf R.st.heap.bufs x = bufRefs R.st.heap R.st.live [] x) ∧
    (∀ r, refOf R.st.heap.rings r = ringRefs R.st.live [] r) ∧
    (∀ key i mem c, R.st.find key = some i → (R.st.heap.call (R.st.view i) mem c).1 = .fail →
      (R.st.step (.call key mem c)).slots = R.st.slots ∧ (R.st.step (.call key mem c)).snaps = R.st.snaps) ∧
    (∀ dst src i j mem, R.st.find dst = some i → R.st.find src = some j →
      (R.st.heap.sync (R.st.view i) mem (R.st.current j)).1 = .fail →
      (R.st.step (.sync dst src mem)).slots = R.st.slots ∧ (R.st.step (.sync dst src mem)).snaps = R.st.snaps) := by
  have hinv := h.inv
  have hfail : ∀ i (r : Outcome × Heap), r.1 = .fail →
      (R.st.finish i r).slots = R.st.slots ∧ (R.st.finish i r).snaps = R.st.snaps := by
    rintro i ⟨out, heap⟩ rfl
    exact ⟨rfl, rfl⟩
  refine ⟨fun s hs id hid => ?_, fun id c f hc hf hl => ?_, fun evs id c c' hc hc' hl => run_seen hinv evs hc hc' hl,
    hinv.owned.bufs, hinv.owned.rings, fun key i mem c hfind hout => ?_, fun dst src i j mem hdst hsrc hout => ?_⟩
  · obtain ⟨i, hi⟩ := getElem?_of_mem hs
    obtain ⟨c, f, hcur⟩ := hinv.current i s id hi hid
    exact ⟨c, f, hcur.cell, hcur.pub, hcur.live, hcur.maxSegs⟩
  · obtain ⟨-, hgood, hfed⟩ := hinv.snaps id c f hc hf hl
    exact InOrder.of_good hgood hfed
  · rw [SegStore.step, SegStore.call, hfind]
    exact hfail i _ hout
  · rw [SegStore.step, SegStore.sync, hdst, hsrc]
    exact hfail i _ hout

theorem SegReach.run (h : SegReach R) (evs : List (StoreEvent K)) : SegReach (R.run evs) := by
  induction evs generalizing R with
  | nil => exact h
  | cons ev evs ih => exact ih (h.step ev)

/-- A store that is fed in parts, with a break. -/
def partsRun : SegRun Unit :=
  SegRun.run ⟨SegStore.init 1, []⟩ [.openStore () 2, .call () {} (.llhlsEnable 1), .call () {} (.pushPart [1] 1 true),
    .call () {} (.pushPart [2, 3] 1 false), .call () {} (.pushSegmentLl ⟨2, 2000⟩), .call () {} .discontinuity,
    .call () {} (.pushPart [4] 1 true), .call () {} (.pushSegmentLl ⟨1, 1000⟩)]

theorem partsRun_last : ∃ c f, partsRun.st.snaps[6]? = some c ∧ partsRun.pubs[6]? = some f ∧ c.live = true ∧
    f.whole = false ∧ c.snap.partTarget > 0 ∧ c.snap.count = 1 := by
  refine ⟨(partsRun.st.snaps[6]?).get (by decide +kernel), (partsRun.pubs[6]?).get (by decide +kernel), ?_, ?_, ?_⟩
  · exact (Option.some_get _).symm
  · exact (Option.some_get _).symm
  · decide +kernel

theorem partsRun_in_order : ∃ c f, partsRun.st.snaps[6]? = some c ∧ c.snap.count = 1 ∧
    InOrder partsRun.st.heap f c.snap ∧ c.snap.liveMsn = c.snap.nextSeq := by
  obtain ⟨c, f, hc, hf, hl, hwhole, htarget, hcount⟩ := partsRun_last
  have horder := (snapshots_in_order ((SegReach.init 1).run _)).2.1 6 c f hc hf hl
  exact ⟨c, f, hc, hcount, horder, horder.liveMsn hwhole htarget⟩

/-- A store in low-latency mode that is fed with whole segments. -/
def wholeRun : SegRun Unit := SegRun.run ⟨SegStore.init 1, []⟩ [.openStore () 2, .call () {} (.llhlsEnable 1),
    .call () {} (.pushSegment [1] ⟨1, 1000⟩)]

theorem liveMsn_behind_whole_segments : SegReach wholeRun ∧ ∃ c, wholeRun.st.snaps[1]? = some c ∧ c.live = true ∧
    c.snap.partTarget > 0 ∧ c.snap.liveMsn ≠ c.snap.nextSeq ∧
    (wholeRun.st.heap.window c.snap).map (fun s => (s.size, s.parts)) = [(1, [])] := by
  refine ⟨(SegReach.init 1).run _, (wholeRun.st.snaps[1]?).get (by decide +kernel), (Option.some_get _).symm, ?_⟩
  decide +kernel

end

end DvbIpiTools.Dipixy
