import DvbIpiTools.Dipixy.SegWindow

set_option autoImplicit false

/-! # The calls on a segment store

What a call does to the heap, and what the snapshot shows that it publishes. -/

namespace DvbIpiTools.Dipixy

open RefCount List Option

def Snapshot.withRing (s : Snapshot) (r : Nat) : Snapshot := { s with ring := r }

/-- The snapshot that a call starts from, and what it shows. -/
def basis (v : StoreView) (h : Heap) : Snapshot × Shown :=
  match v.old with
  | some b => (b, h.shows b)
  | none => ({ ring := 0, nextSeq := v.floor, oldestSeq := v.floor, liveMsn := v.floor }, ⟨[], none, none⟩)

section

variable {h h' : Heap} {S : List Snapshot} {B : List Nat} {v : StoreView} {mem : Mem} {ns : Snapshot}

theorem RingOk.congr {s s' : Snapshot} (hok : RingOk h s) (hsegs : h'.segs s'.ring = h.segs s.ring) (hhead : s'.head = s.head)
    (hcount : s'.count = s.count) : RingOk h' s' :=
  ⟨hsegs ▸ hok.length, hhead ▸ hok.head, hcount ▸ hok.count, by rw [hsegs, hhead, hcount]; exact hok.outside⟩

theorem newBuf_spec {R : List Nat} (o : Owned h S R B) (need : Nat) (data : List UInt8) :
    let h2 := Heap.write h.bufs.length 0 data (h.bufAlloc need).2
    Owned h2 S R (h.bufs.length :: B) ∧ Keeps h h2 S R B ∧ valOf h2.bufs h.bufs.length = some ⟨data, segBufCap need⟩ := by
  obtain ⟨o1, k1⟩ := bufAlloc_owned o need
  have hnew : valOf (h.bufAlloc need).2.bufs h.bufs.length = some ⟨[], segBufCap need⟩ := by
    show valOf (alloc h.bufs _) _ = _
    rw [valOf_alloc, if_pos rfl]
  exact ⟨write_owned o1 _ _ _, k1.trans (write_keeps (h := (h.bufAlloc need).2) o.fresh 0 data), valOf_write hnew data rfl⟩

/-- The snapshot a call starts from is published, and its ring is as it should be. -/
def StoreView.OldOk (v : StoreView) (h : Heap) (S : List Snapshot) : Prop :=
  ∀ b, v.old = some b → b ∈ S ∧ RingOk h b

theorem clone_spec (o : Owned h S [] B) (hold : v.OldOk h S)
    (hclone : h.snapClone v.floor v.old mem = some (ns, h')) :
    Owned h' S [ns.ring] (ns.bufs ++ B) ∧ Keeps h h' S [] B ∧ RingOk h' ns ∧ h'.shows ns = (basis v h).2 ∧
      ns = (basis v h).1.withRing ns.ring := by
  obtain ⟨o', k', hcloned, hbufs⟩ := snapClone_owned o (fun b hb => (hold b hb).1) hclone
  refine ⟨o', k', ?_⟩
  unfold basis
  cases hv : v.old with
  | none =>
    rw [hv] at hcloned
    obtain ⟨rfl, hsegs⟩ := hcloned
    refine ⟨⟨?_, Nat.zero_lt_succ 9, Nat.zero_le _, fun i hi _ => ?_⟩, rfl, rfl⟩
    · rw [hsegs, length_replicate]
    · rw [hsegs, getD_eq_getElem?_getD, getElem?_replicate, if_pos hi]
      rfl
  | some b =>
    rw [hv] at hcloned
    obtain ⟨rfl, hsegs⟩ := hcloned
    have hok := (hold ns hv).2
    refine ⟨⟨?_, hok.head, hok.count, ?_⟩, ?_, rfl⟩
    · rw [hsegs]
      exact hok.length
    · rw [hsegs]
      exact hok.outside
    · exact shows_congr (hsegs _) rfl rfl rfl rfl fun x _ => hbufs x

theorem cow_spec {h1 h2 : Heap} {ns1 ns2 : Snapshot} (o : Owned h S [] B) (hold : v.OldOk h S)
    (hclone : h.snapClone v.floor v.old mem = some (ns1, h1)) (hcow : h1.ringCow mem ns1 = some (ns2, h2)) :
    Own h2 S ns2 (ns2.bufs ++ B) ∧ Keeps h h2 S [] B ∧ h2.shows ns2 = (basis v h).2 ∧
      ns2 = (basis v h).1.withRing ns2.ring := by
  obtain ⟨o1, k1, hok1, hshows1, hns1⟩ := clone_spec o hold hclone
  obtain ⟨o2, k2, hsegs, hbufs, halone, hns2⟩ := ringCow_owned o1 hcow
  have hsame : ns2.bufs = ns1.bufs := by rw [hns2]; rfl
  have hhead : ns2.head = ns1.head := by rw [hns2]
  have hcount : ns2.count = ns1.count := by rw [hns2]
  have hlive : ns2.liveData = ns1.liveData := by rw [hns2]
  have hinit : ns2.initData = ns1.initData := by rw [hns2]
  rw [← hsame] at o2
  refine ⟨⟨o2, halone, hok1.congr hsegs hhead hcount⟩, ?_, ?_, ?_⟩
  · exact k1.trans (k2.loose (subset_append_right _ _))
  · rw [← hshows1]
    refine shows_congr hsegs hhead hcount hlive hinit fun x hx => hbufs x ?_
    have hmem : Reach h1 (ns1 :: S) [] B x := reach_of_mem mem_cons_self hx
    rcases hmem with ⟨r, hr, hseg⟩ | hloose
    · refine .inl ⟨r, ?_, hseg⟩
      simp only [ringRefs, map_cons, count_cons] at hr ⊢
      omega
    · refine .inr ?_
      simp only [flatMap_cons, count_append] at hloose ⊢
      omega
  · have hring := congrArg (fun s => Snapshot.withRing s ns2.ring) hns1
    exact hns2.trans hring

theorem giveUp_spec (o : Owned h' S [ns.ring] (ns.bufs ++ B)) (k : Keeps h h' S [] B) :
    Owned (h'.snapFree ns) S [] B ∧ Keeps h (h'.snapFree ns) S [] B := by
  obtain ⟨o', k'⟩ := snapFree_owned ((owned_cons ns).2 o)
  exact ⟨o', k.trans k'⟩

end

/-! ## Without another ring or other bytes -/

/-- The same buffer, or with more bytes behind the others. -/
def BufLe (a b : Option Buf) : Prop :=
  a = b ∨ ∃ (buf : Buf) (more : List UInt8), a = some buf ∧ b = some ⟨buf.bytes ++ more, buf.cap⟩

theorem BufLe.refl (a : Option Buf) : BufLe a a := .inl rfl

/-- What a call has done. All but a buffer is as before for the snapshots that there are, and a buffer may have got
    more bytes behind the others. -/
structure Grows (h h' : Heap) (S : List Snapshot) (w : Option Nat) : Prop where
  segs : ∀ s ∈ S, h'.segs s.ring = h.segs s.ring
  bufs : ∀ x, Reach h S [] [] x → w ≠ some x → valOf h'.bufs x = valOf h.bufs x
  grown : ∀ x, w = some x → Reach h S [] [] x → BufLe (valOf h.bufs x) (valOf h'.bufs x)

theorem Keeps.grows {h h' : Heap} {S : List Snapshot} (k : Keeps h h' S [] []) (w : Option Nat) : Grows h h' S w :=
  ⟨fun _ hs => k.segs _ (ringRefs_of_mem hs), fun x hx _ => k.bufs x hx, fun x _ hx => .inl (k.bufs x hx).symm⟩

/-- A call on a store: `P` says what it publishes. -/
def Called (h : Heap) (S : List Snapshot) (w : Option Nat) (P : Snapshot → Shown → Prop) : Outcome × Heap → Prop
  | (.fail, h') => Owned h' S [] [] ∧ Keeps h h' S [] []
  | (.keep, h') => h' = h
  | (.publish ns, h') => Owned h' (ns :: S) [] [] ∧ Grows h h' S w ∧ RingOk h' ns ∧ P ns (h'.shows ns)

theorem Called.mono {h : Heap} {S : List Snapshot} {w : Option Nat} {P Q : Snapshot → Shown → Prop}
    {r : Outcome × Heap} (hr : Called h S w P r) (hPQ : ∀ ns sh, P ns sh → Q ns sh) : Called h S w Q r := by
  obtain ⟨out, h'⟩ := r
  cases out with
  | fail => exact hr
  | keep => exact hr
  | publish ns => exact ⟨hr.1, hr.2.1, hr.2.2.1, hPQ _ _ hr.2.2.2⟩

/-! ## Segments -/

/-- A snapshot without its oldest segment if it is full. -/
def Snapshot.evicted (s : Snapshot) (maxSegs : Nat) : Snapshot :=
  if s.count ≥ maxSegs then
    { s with head := (s.head + 1) % hlsMaxSegs, count := s.count - 1, oldestSeq := s.oldestSeq + 1 }
  else s

/-- A snapshot with another segment. -/
def Snapshot.appended (s : Snapshot) (d : Duration) : Snapshot := { s with
  discPending := false
  nextSeq := s.nextSeq + 1
  cumMs := s.cumMs + d.ms
  count := s.count + 1
  tdHw := if d.s > s.tdHw then d.s else s.tdHw }

/-- The segments of a window that go on to be shown. -/
def kept (s : Snapshot) (maxSegs : Nat) (segs : List (Seg × Option Buf)) : List (Seg × Option Buf) :=
  if s.count ≥ maxSegs then segs.tail else segs

section

variable {h h' : Heap} {S : List Snapshot} {B : List Nat} {v : StoreView} {mem : Mem} {ns : Snapshot}

theorem Own.congr {B' : List Nat} (own : Own h S ns B) (hB : ∀ x, B.count x = B'.count x) : Own h S ns B' :=
  ⟨own.owned.congr (fun _ => rfl) fun x => by rw [hB x], own.alone, own.ringOk⟩

theorem evicted_withRing (s : Snapshot) (maxSegs r : Nat) :
    (s.withRing r).evicted maxSegs = (s.evicted maxSegs).withRing r := by
  unfold Snapshot.evicted
  by_cases hfull : s.count ≥ maxSegs
  · have hfull' : (s.withRing r).count ≥ maxSegs := hfull
    rw [if_pos hfull, if_pos hfull']
    rfl
  · have hfull' : ¬ (s.withRing r).count ≥ maxSegs := hfull
    rw [if_neg hfull, if_neg hfull']

variable {s : Snapshot}

theorem evicted_count {maxSegs : Nat} (hpos : 0 < maxSegs) (hle : s.count ≤ maxSegs) :
    (s.evicted maxSegs).count < maxSegs := by
  rw [Snapshot.evicted]
  split
  · show s.count - 1 < maxSegs
    omega
  · omega

theorem evicted_bufs (s : Snapshot) (maxSegs : Nat) : (s.evicted maxSegs).bufs = s.bufs := by
  rw [Snapshot.evicted]
  split <;> rfl

/-- The oldest segment makes room, and another one is put behind the newest. -/
theorem evict_append_spec {data : Option Nat} (own : Own h S ns (data.toList ++ B))
    (hbufs : ns.bufs.Subset (data.toList ++ B)) (hpos : 0 < v.maxSegs) (hmax : v.maxSegs ≤ hlsMaxSegs)
    (hle : ns.count ≤ v.maxSegs) (size : Nat) (parts : List Part) (d : Duration) : let e := h.evict v.maxSegs ns
    let r := e.2.append e.1 data size parts d
    e.1 = ns.evicted v.maxSegs ∧ r.1 = (ns.evicted v.maxSegs).appended d ∧ Own r.2 S r.1 B ∧ Keeps h r.2 S [] B ∧
      r.2.shows r.1 = ⟨kept ns v.maxSegs (h.shows ns).segs ++ [(⟨data, size, d, ns.nextSeq, ns.cumMs, parts,
        ns.discPending⟩, data.bind (valOf h.bufs))], (h.shows ns).live, (h.shows ns).init⟩ := by
  intro e r
  obtain ⟨own1, k1, hns1, hshows1⟩ := evict_spec own hbufs hpos
  have he : e.1 = ns.evicted v.maxSegs := hns1
  have hroom : e.1.count < hlsMaxSegs := by
    rw [he]
    exact lt_of_lt_of_le (evicted_count hpos hle) hmax
  obtain ⟨own2, k2, hwindow, hsame⟩ := append_spec own1 hroom size parts d
  have hfields : e.1.nextSeq = ns.nextSeq ∧ e.1.cumMs = ns.cumMs ∧ e.1.discPending = ns.discPending := by
    rw [he, Snapshot.evicted]
    split <;> exact ⟨rfl, rfl, rfl⟩
  refine ⟨he, ?_, own2, (k1.loose (subset_append_right _ _)).trans k2, ?_⟩
  · rw [← he]
    rfl
  have hdata : data.bind (valOf e.2.bufs) = data.bind (valOf h.bufs) := by
    cases data with
    | none => rfl
    | some x => exact k1.bufs x (.inr (by
      have hmem : x ∈ ((some x).toList ++ B) := mem_append_left _ (mem_singleton.2 rfl)
      have := count_pos_iff.2 hmem
      omega))
  have hlive : (e.2.shows e.1).live = (h.shows ns).live := by rw [hshows1]
  have hinit : (e.2.shows e.1).init = (h.shows ns).init := by rw [hshows1]
  have hsegs : (e.2.shows e.1).segs = kept ns v.maxSegs (h.shows ns).segs := by rw [hshows1]; rfl
  show Shown.mk _ _ _ = Shown.mk _ _ _
  rw [hwindow, hsame, map_append, ← hfields.1, ← hfields.2.1, ← hfields.2.2, ← hdata, ← hsegs, ← hlive, ← hinit]
  rfl

theorem basis_congr (k : Keeps h h' S [] B) (hold : ∀ b, v.old = some b → b ∈ S) : basis v h' = basis v h := by
  unfold basis
  cases hv : v.old with
  | none => rfl
  | some b =>
    simp only []
    rw [k.shows (hold b hv)]

theorem pushSegment_called (o : Owned h S [] []) (hold : v.OldOk h S) (hpos : 0 < v.maxSegs)
    (hmax : v.maxSegs ≤ hlsMaxSegs) (hle : (basis v h).1.count ≤ v.maxSegs) (data : List UInt8) (d : Duration) :
    Called h S none (fun ns sh => ∃ r x, ns = (((basis v h).1.evicted v.maxSegs).appended d).withRing r ∧
      sh = ⟨kept (basis v h).1 v.maxSegs (basis v h).2.segs ++ [(⟨some x, data.length, d, (basis v h).1.nextSeq,
        (basis v h).1.cumMs, [], (basis v h).1.discPending⟩, some ⟨data, segBufCap data.length⟩)],
        (basis v h).2.live, (basis v h).2.init⟩)
      (h.pushSegment v mem data d) := by
  unfold Heap.pushSegment
  split
  · exact ⟨o, Keeps.refl _ _ _ _⟩
  -- the copy of the data, which no snapshot refers to
  obtain ⟨o2, k2, hcopy⟩ := newBuf_spec o data.length data
  simp only [show (h.bufAlloc data.length).1 = h.bufs.length from rfl]
  generalize Heap.write h.bufs.length 0 data (h.bufAlloc data.length).2 = h2 at o2 k2 hcopy ⊢
  have hold2 : v.OldOk h2 S := fun b hb =>
    ⟨(hold b hb).1, k2.ringOk (hold b hb).1 (hold b hb).2⟩
  have hbasis : basis v h2 = basis v h := basis_congr k2 fun b hb => (hold b hb).1
  cases hclone : h2.snapClone v.floor v.old mem with
  | none =>
    obtain ⟨o3, k3⟩ := bufUnref_owned (x := some h.bufs.length) (B := []) o2
    exact ⟨o3, k2.trans k3⟩
  | some p =>
    obtain ⟨ns3, h3⟩ := p
    obtain ⟨o3, k3, -, -, -⟩ := clone_spec o2 hold2 hclone
    simp only []
    cases hcow : h3.ringCow mem ns3 with
    | none =>
      obtain ⟨o4, k4⟩ := giveUp_spec o3 k3
      obtain ⟨o5, k5⟩ := bufUnref_owned (x := some h.bufs.length) (B := []) o4
      exact ⟨o5, (k2.trans (k4.loose (nil_subset _))).trans k5⟩
    | some p =>
      obtain ⟨ns4, h4⟩ := p
      obtain ⟨own4, k4, hshows4, hns4⟩ := cow_spec o2 hold2 hclone hcow
      rw [hbasis] at hshows4 hns4
      have hcount : ns4.count = (basis v h).1.count := by rw [hns4]; rfl
      have hfields : ns4.nextSeq = (basis v h).1.nextSeq ∧ ns4.cumMs = (basis v h).1.cumMs ∧
          ns4.discPending = (basis v h).1.discPending := by
        rw [hns4]
        exact ⟨rfl, rfl, rfl⟩
      have own4' : Own h4 S ns4 ((some h.bufs.length).toList ++ ns4.bufs) := own4.congr fun x => by
        rw [count_append, count_append]
        exact add_comm _ _
      obtain ⟨-, hr, own5, k5, hshows5⟩ := evict_append_spec (v := v) own4' (subset_append_right _ _) hpos hmax
        (hcount ▸ hle) data.length [] d
      refine ⟨(owned_cons _).2 ?_, ?_, own5.ringOk, ?_⟩
      · refine own5.owned.congr (fun _ => rfl) fun x => ?_
        have hbufs : (((ns4.evicted v.maxSegs).appended d).bufs) = ns4.bufs := evicted_bufs ns4 v.maxSegs
        rw [hr, hbufs, append_nil]
      · exact ((k2.trans (k4.loose (nil_subset _))).trans (k5.loose (nil_subset _))).grows none
      · refine ⟨ns4.ring, h.bufs.length, ?_, ?_⟩
        · rw [hr, hns4, evicted_withRing]
          rfl
        · rw [hshows5, hshows4, hfields.1, hfields.2.1, hfields.2.2, kept, kept, hcount]
          have hkept : valOf h4.bufs h.bufs.length = valOf h2.bufs h.bufs.length := k4.bufs _ (.inr (by simp))
          rw [bind_some, hkept, hcopy]

/-- The segment in progress is complete. -/
def Snapshot.closed (s : Snapshot) : Snapshot :=
  { s with liveData := none, liveCap := 0, liveLen := 0, liveParts := [], liveMsn := s.nextSeq }

theorem evicted_live (s : Snapshot) (maxSegs : Nat) : (s.evicted maxSegs).liveData = s.liveData ∧
    (s.evicted maxSegs).liveLen = s.liveLen ∧ (s.evicted maxSegs).liveParts = s.liveParts := by
  rw [Snapshot.evicted]
  split <;> exact ⟨rfl, rfl, rfl⟩

theorem pushSegmentLl_called (o : Owned h S [] []) (hold : v.OldOk h S)
    (hpos : 0 < v.maxSegs) (hmax : v.maxSegs ≤ hlsMaxSegs) (hle : (basis v h).1.count ≤ v.maxSegs) (d : Duration) :
    Called h S none (fun ns sh => ∃ r, ns = (((basis v h).1.evicted v.maxSegs).appended d).closed.withRing r ∧
      sh = ⟨kept (basis v h).1 v.maxSegs (basis v h).2.segs ++ [(⟨(basis v h).1.liveData, (basis v h).1.liveLen, d,
        (basis v h).1.nextSeq, (basis v h).1.cumMs, (basis v h).1.liveParts, (basis v h).1.discPending⟩,
        (basis v h).2.live)], none, (basis v h).2.init⟩)
      (h.pushSegmentLl v mem d) := by
  unfold Heap.pushSegmentLl
  cases hclone : h.snapClone v.floor v.old mem with
  | none => exact ⟨o, Keeps.refl _ _ _ _⟩
  | some p =>
    obtain ⟨ns1, h1⟩ := p
    obtain ⟨o1, k1, -, -, -⟩ := clone_spec o hold hclone
    simp only []
    cases hcow : h1.ringCow mem ns1 with
    | none => exact giveUp_spec o1 k1
    | some p =>
      obtain ⟨ns2, h2⟩ := p
      obtain ⟨own2, k2, hshows2, hns2⟩ := cow_spec o hold hclone hcow
      have hcount : ns2.count = (basis v h).1.count := by rw [hns2]; rfl
      have own2' : Own h2 S ns2 (ns2.liveData.toList ++ ns2.initData.toList) := own2.congr fun x => by
        rw [append_nil]
        rfl
      obtain ⟨he, hr, own3, k3, hshows3⟩ := evict_append_spec (v := v) own2' (Subset.refl _) hpos hmax
        (hcount ▸ hle) ns2.liveLen ns2.liveParts d
      obtain ⟨hlive, hlen, hparts⟩ := evicted_live ns2 v.maxSegs
      simp only [he, hlive, hlen, hparts] at hr own3 k3 hshows3 ⊢
      generalize Heap.append (ns2.evicted v.maxSegs) ns2.liveData ns2.liveLen ns2.liveParts d
        (Heap.evict v.maxSegs ns2 h2).2 = r at hr own3 k3 hshows3
      obtain ⟨ns4, h4⟩ := r
      simp only [] at hr own3 k3 hshows3 ⊢
      have hinit : ns4.initData = ns2.initData := by
        rw [hr]
        rw [Snapshot.evicted]
        split <;> rfl
      refine ⟨(owned_cons _).2 (own3.owned.congr (fun _ => rfl) fun x => ?_), ?_, ?_, ns2.ring, ?_, ?_⟩
      · show _ = _ + (([] ++ ns4.initData.toList) ++ []).count x
        rw [hinit, append_nil, nil_append]
      · exact (k2.trans (k3.loose (nil_subset _))).grows none
      · exact own3.ringOk.congr rfl rfl rfl
      · rw [hr, hns2, evicted_withRing]
        rfl
      · have hsegs : (h4.shows ns4).segs = _ := congrArg Shown.segs hshows3
        have hin : (h4.shows ns4).init = _ := congrArg Shown.init hshows3
        have hlast : ns2.liveData.bind (valOf h2.bufs) = (basis v h).2.live := congrArg Shown.live hshows2
        show Shown.mk (h4.shows ns4).segs none (h4.shows ns4).init = _
        rw [hsegs, hin, hlast, hshows2]
        congr 1
        rw [kept, kept, hcount, hns2]
        rfl

/-! ## Other fields -/

theorem clone_publish (o : Owned h S [] []) (hold : v.OldOk h S)
    (hclone : h.snapClone v.floor v.old mem = some (ns, h')) (f : Snapshot → Snapshot)
    (hf : ∀ s r, f (s.withRing r) = (f s).withRing r)
    (hsame : ∀ s, (f s).ring = s.ring ∧ (f s).bufs = s.bufs ∧ (f s).head = s.head ∧ (f s).count = s.count ∧ (f s).liveData = s.liveData ∧ (f s).initData = s.initData) :
    Called h S none (fun ns sh => ∃ r, ns = (f (basis v h).1).withRing r ∧ sh = (basis v h).2)
      (.publish (f ns), h') := by
  obtain ⟨o1, k1, hok1, hshows1, hns1⟩ := clone_spec o hold hclone
  obtain ⟨hring, hbufs, hhead, hcount, hlive, hinit⟩ := hsame ns
  refine ⟨(owned_cons _).2 ?_, k1.grows none, hok1.congr (by rw [hring]) hhead hcount, ns.ring, ?_, ?_⟩
  · rw [hring, hbufs]
    exact o1
  · rw [← hf]
    exact congrArg f hns1
  · rw [← hshows1]
    exact shows_congr (by rw [hring]) hhead hcount hlive hinit fun _ _ => rfl

theorem llhlsEnable_called (o : Owned h S [] []) (hold : v.OldOk h S) (partTarget : ℚ) :
    Called h S none (fun ns sh => ∃ r,
      ns = ({ (basis v h).1 with partTarget, liveMsn := (basis v h).1.nextSeq } : Snapshot).withRing r ∧
      sh = (basis v h).2) (h.llhlsEnable v mem partTarget) := by
  unfold Heap.llhlsEnable
  cases hclone : h.snapClone v.floor v.old mem with
  | none => exact ⟨o, Keeps.refl _ _ _ _⟩
  | some p =>
    exact clone_publish o hold hclone (fun s => { s with partTarget, liveMsn := s.nextSeq }) (fun _ _ => rfl)
      fun _ => ⟨rfl, rfl, rfl, rfl, rfl, rfl⟩

theorem anchor_called (o : Owned h S [] []) (hold : v.OldOk h S) (wallMs : UInt64) :
    Called h S none (fun ns sh => ∃ r, ns = ({ (basis v h).1 with availMs := wallMs } : Snapshot).withRing r ∧
      sh = (basis v h).2) (h.anchor v mem wallMs) := by
  unfold Heap.anchor
  split
  · exact rfl
  · cases hclone : h.snapClone v.floor v.old mem with
    | none => exact ⟨o, Keeps.refl _ _ _ _⟩
    | some p =>
      exact clone_publish o hold hclone (fun s => { s with availMs := wallMs }) (fun _ _ => rfl)
        fun _ => ⟨rfl, rfl, rfl, rfl, rfl, rfl⟩

/-- The position that a store takes from another one. -/
def Snapshot.synced (s : Snapshot) (cur old : Option Snapshot) : Snapshot :=
  let s := match cur with
    | none => s
    | some cur => { s with
      nextSeq := cur.nextSeq
      oldestSeq := cur.nextSeq
      cumMs := cur.cumMs
      epoch := cur.epoch
      discPending := cur.discPending
      epochBaseMs := cur.epochBaseMs
      availMs := cur.availMs
      tdHw := cur.tdHw
      partTarget := cur.partTarget
      liveMsn := if cur.partTarget > 0 then cur.nextSeq else s.liveMsn }
  match old with
  | none => s
  | some old => { s with initGen := old.initGen }

theorem sync_called (o : Owned h S [] []) (cur : Option Snapshot) : Called h S none (fun ns sh => ∃ r,
      ns = ((basis { v with old := none } h).1.synced cur v.old).withRing r ∧ sh = ⟨[], none, none⟩)
      (h.sync v mem cur) := by
  unfold Heap.sync
  cases hclone : h.snapClone v.floor none mem with
  | none => exact ⟨o, Keeps.refl _ _ _ _⟩
  | some p =>
    refine clone_publish (v := { v with old := none }) o nofun hclone (fun s => s.synced cur v.old) (fun s r => ?_)
      fun s => ?_
    · cases cur <;> cases v.old <;> rfl
    · cases cur <;> cases v.old <;> exact ⟨rfl, rfl, rfl, rfl, rfl, rfl⟩

/-- The init segment of a store is another one. -/
def Snapshot.withInit (s : Snapshot) (x size : Nat) : Snapshot :=
  { s with initData := some x, initSize := size, initGen := s.initGen + 1 }

theorem setInitSegment_called (o : Owned h S [] []) (hold : v.OldOk h S) (data : List UInt8) :
    Called h S none (fun ns sh => ∃ r x, ns = ((basis v h).1.withInit x data.length).withRing r ∧
      sh = ⟨(basis v h).2.segs, (basis v h).2.live, some ⟨data, segBufCap data.length⟩⟩)
      (h.setInitSegment v mem data) := by
  unfold Heap.setInitSegment
  split
  · exact ⟨o, Keeps.refl _ _ _ _⟩
  cases hclone : h.snapClone v.floor v.old mem with
  | none => exact ⟨o, Keeps.refl _ _ _ _⟩
  | some p =>
    obtain ⟨ns, h1⟩ := p
    obtain ⟨o1, k1, hok1, hshows1, hns1⟩ := clone_spec o hold hclone
    simp only []
    split
    · exact giveUp_spec o1 k1
    rw [append_nil] at o1
    obtain ⟨o2, k3, hcopy⟩ := newBuf_spec o1 data.length data
    simp only [show (h1.bufAlloc data.length).1 = h1.bufs.length from rfl]
    generalize Heap.write h1.bufs.length 0 data (h1.bufAlloc data.length).2 = h3 at o2 k3 hcopy ⊢
    have o3 : Owned h3 S [ns.ring] (ns.initData.toList ++ (h1.bufs.length :: ns.liveData.toList)) :=
      o2.congr (fun _ => rfl) fun x => by
        simp only [Snapshot.bufs, count_append, count_cons]
        omega
    obtain ⟨o4, k4⟩ := bufUnref_owned o3
    have hlive : ns.liveData.toList.Subset ns.bufs := subset_append_left _ _
    have k5 : Keeps h1 (h3.bufUnref ns.initData) S [ns.ring] ns.liveData.toList :=
      (k3.loose hlive).trans (k4.loose (subset_cons_self _ _))
    have hsegs : (h3.bufUnref ns.initData).segs ns.ring = h1.segs ns.ring :=
      k5.segs _ (by rw [ringRefs_cons, plus_self]; omega)
    refine ⟨(owned_cons _).2 (o4.congr (fun _ => rfl) fun x => ?_), ?_, ?_, ns.ring, h1.bufs.length, ?_, ?_⟩
    · show _ = _ + ((ns.liveData.toList ++ [h1.bufs.length]) ++ []).count x
      simp only [count_append, count_cons, count_nil]
      omega
    · exact (k1.trans (k5.tail.loose (nil_subset _))).grows none
    · exact hok1.congr hsegs rfl rfl
    · exact congrArg (fun s => Snapshot.withInit s h1.bufs.length data.length) hns1
    · -- without its init segment the clone shows what it showed before
      have hshows : (h3.bufUnref ns.initData).shows { ns with initData := none } =
          h1.shows { ns with initData := none } := by
        refine Keeps.shows (S := { ns with initData := none } :: S) (R := []) (B := [])
          (keeps_cons.2 (k5.loose ?_)) mem_cons_self
        show (ns.liveData.toList ++ [] ++ []).Subset _
        rw [append_nil, append_nil]
        exact Subset.refl _
      have hs1 : (h1.shows ns).segs = (basis v h).2.segs := congrArg Shown.segs hshows1
      have hl1 : (h1.shows ns).live = (basis v h).2.live := congrArg Shown.live hshows1
      have hs : ((h3.bufUnref ns.initData).shows { ns with initData := none }).segs = (basis v h).2.segs :=
        (congrArg Shown.segs hshows).trans hs1
      have hl : ((h3.bufUnref ns.initData).shows { ns with initData := none }).live = (basis v h).2.live :=
        (congrArg Shown.live hshows).trans hl1
      have hi : valOf (h3.bufUnref ns.initData).bufs h1.bufs.length = some ⟨data, segBufCap data.length⟩ := by
        rw [k4.bufs _ (.inr (by rw [count_cons_self]; omega)), hcopy]
      rw [← hs, ← hl, ← hi]
      rfl

/-! ## A break -/

/-- A snapshot after a break of the stream: it has no segments, and a number is skipped. -/
def Snapshot.broken (s : Snapshot) : Snapshot := { s with
  liveData := none
  liveCap := 0
  liveLen := 0
  liveParts := []
  head := 0
  count := 0
  nextSeq := s.nextSeq + 1
  oldestSeq := s.nextSeq + 1
  liveMsn := if s.partTarget > 0 then s.nextSeq + 1 else s.liveMsn
  epoch := s.epoch + 1
  discPending := true
  epochBaseMs := s.cumMs }

theorem foldl_bufUnref_setSegs (segs : List Seg) (h : Heap) (r : Nat) (f : List Seg → List Seg) :
    (segs.foldl (fun h s => h.bufUnref s.data) h).setSegs r f =
      segs.foldl (fun h s => h.bufUnref s.data) (h.setSegs r f) := by
  rw [Heap.setSegs, foldl_bufUnref_same]
  exact (foldl_bufUnref_rings segs h _).symm

theorem segRefs_dropped (segs : List Seg) (x : Nat) : segRefs (segs.map fun s => { s with data := none }) x = 0 := by
  refine countP_eq_zero.2 fun s hs => ?_
  obtain ⟨t, -, rfl⟩ := mem_map.1 hs
  simp

theorem discontinuity_called (o : Owned h S [] []) (hold : v.OldOk h S) :
    Called h S none (fun ns sh => ∃ r, ns = (basis v h).1.broken.withRing r ∧ sh = ⟨[], none, (basis v h).2.init⟩)
      (h.discontinuity v mem) := by
  unfold Heap.discontinuity
  cases hv : v.old with
  | none => exact rfl
  | some old =>
    simp only []
    rw [← hv]
    cases hclone : h.snapClone v.floor v.old mem with
    | none => exact ⟨o, Keeps.refl _ _ _ _⟩
    | some p =>
      obtain ⟨ns1, h1⟩ := p
      obtain ⟨o1, k1, -, -, -⟩ := clone_spec o hold hclone
      simp only []
      cases hcow : h1.ringCow mem ns1 with
      | none => exact giveUp_spec o1 k1
      | some p =>
        obtain ⟨ns2, h2⟩ := p
        obtain ⟨own2, k2, hshows2, hns2⟩ := cow_spec o hold hclone hcow
        simp only []
        rw [foldl_bufUnref_setSegs]
        obtain ⟨o3, k3, hsegs3⟩ := setSegs_owned own2.owned own2.alone
          (fun segs => segs.map fun s => { s with data := none }) (C := segBufs (h2.segs ns2.ring) ++ ns2.bufs)
          fun x => by
            rw [segRefs_dropped, append_nil, count_append, count_segBufs]
            omega
        obtain ⟨o4, k4⟩ := unrefAll_owned _ o3
        generalize hh4 : (h2.segs ns2.ring).foldl (fun h s => h.bufUnref s.data)
          (h2.setSegs ns2.ring fun segs => segs.map fun s => { s with data := none }) = h4 at o4 k4
        have o4' : Owned h4 S [ns2.ring] (ns2.liveData.toList ++ ns2.initData.toList) := o4
        obtain ⟨o5, k5⟩ := bufUnref_owned o4'
        have hin : ns2.initData.toList.Subset ns2.bufs := subset_append_right _ _
        have hsegs5 : (h4.bufUnref ns2.liveData).segs ns2.ring =
            (h2.segs ns2.ring).map fun s => { s with data := none } := by
          rw [Heap.segs, bufUnref_rings, ← hh4, foldl_bufUnref_same]
          exact hsegs3
        have hfirst : Keeps h2 (h4.bufUnref ns2.liveData) S [] ns2.initData.toList :=
          ((k3.loose (by rw [append_nil]; exact hin)).trans (k4.tail.loose hin)).trans k5.tail
        refine ⟨(owned_cons _).2 (o5.congr (fun _ => rfl) fun x => ?_), ?_, ⟨?_, Nat.zero_lt_succ 9, Nat.zero_le _, ?_⟩,
          ns2.ring, ?_, ?_⟩
        · show _ = _ + (([] ++ ns2.initData.toList) ++ []).count x
          rw [append_nil, nil_append]
        · exact (k2.trans (hfirst.loose (nil_subset _))).grows none
        · rw [hsegs5, length_map]
          exact own2.ringOk.length
        · intro i hi _
          rw [hsegs5, getD_eq_getElem?_getD, getElem?_map]
          cases (h2.segs ns2.ring)[i]? <;> rfl
        · exact congrArg Snapshot.broken hns2
        · have hinit : ns2.initData.bind (valOf (h4.bufUnref ns2.liveData).bufs) = (basis v h).2.init := by
            rw [← hshows2]
            show _ = ns2.initData.bind (valOf h2.bufs)
            cases hi : ns2.initData with
            | none => rfl
            | some x =>
              refine hfirst.bufs x (.inr ?_)
              rw [hi, toList_some, count_singleton_self]
              omega
          rw [← hinit]
          rfl

/-! ## Parts -/

def SegsLe (a b : List (Seg × Option Buf)) : Prop := List.Forall₂ (fun p q => p.1 = q.1 ∧ BufLe p.2 q.2) a b

structure ShownLe (a b : Shown) : Prop where
  segs : SegsLe a.segs b.segs
  live : BufLe a.live b.live
  init : BufLe a.init b.init

theorem shows_le {s' : Snapshot} (hsegs : h'.segs s'.ring = h.segs s.ring) (hhead : s'.head = s.head)
    (hcount : s'.count = s.count) (hlive : s'.liveData = s.liveData) (hinit : s'.initData = s.initData)
    (hbufs : ∀ x, (x ∈ s.bufs ∨ ∃ seg ∈ h.segs s.ring, seg.data = some x) → BufLe (valOf h.bufs x) (valOf h'.bufs x)) :
    ShownLe (h.shows s) (h'.shows s') := by
  have hone : ∀ {d : Option Nat}, d = s.liveData ∨ d = s.initData →
      BufLe (d.bind (valOf h.bufs)) (d.bind (valOf h'.bufs)) := by
    intro d hd
    cases d with
    | none => exact BufLe.refl none
    | some x =>
      refine hbufs x (.inl ?_)
      rw [Snapshot.bufs, mem_append, mem_toList, mem_toList]
      exact hd.imp Eq.symm Eq.symm
  refine ⟨?_, ?_, ?_⟩
  · show SegsLe _ ((h'.window s').map _)
    rw [window_congr hsegs hhead hcount]
    refine forall₂_map_left_iff.2 (forall₂_map_right_iff.2 (forall₂_same.2 fun seg hseg => ⟨rfl, ?_⟩))
    cases hdata : seg.data with
    | none => exact BufLe.refl none
    | some x => exact hbufs x (.inr ⟨seg, mem_window hseg hdata, hdata⟩)
  · show BufLe _ (s'.liveData.bind _)
    rw [hlive]
    exact hone (.inl rfl)
  · show BufLe _ (s'.initData.bind _)
    rw [hinit]
    exact hone (.inr rfl)

variable {w : Option Nat}

theorem Grows.bufLe (g : Grows h h' S w) {x : Nat} (hx : Reach h S [] [] x) :
    BufLe (valOf h.bufs x) (valOf h'.bufs x) := by
  by_cases hw : w = some x
  · exact g.grown x hw hx
  · rw [g.bufs x hx hw]
    exact BufLe.refl _

theorem Grows.shows (g : Grows h h' S w) (hs : s ∈ S) : ShownLe (h.shows s) (h'.shows s) :=
  shows_le (g.segs s hs) rfl rfl rfl rfl fun _ hx => g.bufLe (reach_of_mem hs hx)

theorem Grows.ringOk (g : Grows h h' S w) (hs : s ∈ S) (hok : RingOk h s) : RingOk h' s :=
  hok.congr (g.segs s hs) rfl rfl

/-- The bytes of the segment in progress. -/
def liveBytes (sh : Shown) : List UInt8 := (sh.live.map Buf.bytes).getD []

/-- A snapshot with another part. -/
def Snapshot.withPart (s : Snapshot) (x cap size : Nat) (duration : ℚ) (independent : Bool) : Snapshot := { s with
  liveData := some x
  liveCap := cap
  liveParts := s.liveParts ++ [⟨s.liveLen, size, duration, independent⟩]
  liveLen := s.liveLen + size }

/-- What `hls_push_part_at` publishes. -/
def PartPushed (h : Heap) (S : List Snapshot) (v : StoreView) (data : List UInt8) (duration : ℚ) (independent : Bool)
    (ns : Snapshot) (sh : Shown) : Prop :=
  ∃ r x cap, ns = ((basis v h).1.withPart x cap data.length duration independent).withRing r ∧
    (basis v h).1.liveLen + data.length ≤ cap ∧ sh.live = some ⟨liveBytes (basis v h).2 ++ data, cap⟩ ∧
    SegsLe (basis v h).2.segs sh.segs ∧ BufLe (basis v h).2.init sh.init ∧
    ((basis v h).1.liveData = some x ∨ ¬ Reach h S [] [] x)

/-- There is room left in the buffer, and the bytes go behind the others. -/
theorem pushPart_inPlace (o : Owned h S [] []) (hold : v.OldOk h S)
    (hclone : h.snapClone v.floor v.old mem = some (ns, h')) {x : Nat} (hx : ns.liveData = some x)
    {data : List UInt8} (hroom : ns.liveCap ≥ ns.liveLen + data.length)
    (hfront : (liveBytes (basis v h).2).length = (basis v h).1.liveLen)
    (hcap : ∀ b, (basis v h).2.live = some b → (basis v h).1.liveCap = b.cap) (duration : ℚ)
    (independent : Bool) : Called h S (basis v h).1.liveData (PartPushed h S v data duration independent)
      (.publish (ns.withPart x ns.liveCap data.length duration independent), h'.write x ns.liveLen data) := by
  obtain ⟨o1, k1, hok1, hshows1, hns1⟩ := clone_spec o hold hclone
  have hdata : (basis v h).1.liveData = some x := by
    rw [← hx, hns1]
    rfl
  have hlen : ns.liveLen = (basis v h).1.liveLen := by rw [hns1]; rfl
  have hcap1 : ns.liveCap = (basis v h).1.liveCap := by rw [hns1]; rfl
  have hbuf : x ∈ ns.bufs := by
    rw [Snapshot.bufs, hx]
    exact mem_append_left _ (mem_singleton.2 rfl)
  obtain ⟨b, hb⟩ : ∃ b, valOf h'.bufs x = some b := by
    obtain ⟨c, hc, -⟩ := o1.bufs.exists_val (i := x) (by
      have := count_pos_iff.2 hbuf
      rw [bufRefs, count_append]
      omega)
    exact ⟨c.val, by rw [valOf, hc]; rfl⟩
  have hlive : (basis v h).2.live = some b := by
    rw [← hshows1]
    show ns.liveData.bind _ = _
    rw [hx]
    exact hb
  have hbytes : b.bytes.length = ns.liveLen := by
    rw [liveBytes, hlive] at hfront
    rw [hlen]
    exact hfront
  have hwritten := valOf_write hb data hbytes
  refine ⟨(owned_cons _).2 ?_, ⟨fun s hs => ?_, fun y hy hne => ?_, fun y hw hy => ?_⟩, ?_, ?_⟩
  · have hbufs : (ns.withPart x ns.liveCap data.length duration independent).bufs = ns.bufs := by
      rw [Snapshot.bufs, Snapshot.bufs, hx]
      rfl
    rw [hbufs]
    exact write_owned o1 _ _ _
  · exact k1.segs _ (ringRefs_of_mem hs)
  · rw [hdata] at hne
    rw [valOf_write_ne h' (fun hxy => hne (congrArg some hxy))]
    exact k1.bufs y hy
  · rw [hdata] at hw
    cases hw
    exact .inr ⟨b, data, (k1.bufs x hy).symm.trans hb, hwritten⟩
  · exact { hok1 with }
  · have hle : ShownLe (h'.shows ns) ((h'.write x ns.liveLen data).shows
        (ns.withPart x ns.liveCap data.length duration independent)) := by
      refine shows_le rfl rfl rfl hx.symm rfl fun y _ => ?_
      by_cases hxy : x = y
      · subst hxy
        exact .inr ⟨b, data, hb, hwritten⟩
      · rw [valOf_write_ne h' hxy]
        exact BufLe.refl _
    rw [hshows1] at hle
    refine ⟨ns.ring, x, ns.liveCap, ?_, ?_, ?_, hle.segs, hle.init, .inl hdata⟩
    · exact congrArg (fun s => Snapshot.withPart s x ns.liveCap data.length duration independent) hns1
    · rw [← hlen]
      exact hroom
    · show valOf (h'.write x ns.liveLen data).bufs x = _
      rw [hwritten, liveBytes, hlive, hcap1, hcap b hlive]
      rfl

theorem le_segBufCap (size : Nat) : size ≤ segBufCap size := by
  rw [segBufCap]
  cases hfind : ((range 15).map fun cls => 4096 <<< cls).find? fun cap => decide (size ≤ cap) with
  | none => exact le_rfl
  | some cap => simpa using find?_some hfind

/-- What a new buffer for the segment in progress has before it takes the place of the old one. -/
theorem liveBuf_copied (o : Owned h S [ns.ring] ns.bufs) (need : Nat)
    (hfront : (liveBytes (h.shows ns)).length = ns.liveLen) : let h2 := (h.bufAlloc need).2
    let h3 := match ns.liveData with
      | some x => if ns.liveLen ≠ 0 then h2.write h.bufs.length 0 ((h2.bytes x).take ns.liveLen) else h2
      | none => h2
    Owned h3 S [ns.ring] (h.bufs.length :: ns.bufs) ∧ Keeps h h3 S [ns.ring] ns.bufs ∧
      valOf h3.bufs h.bufs.length = some ⟨liveBytes (h.shows ns), segBufCap need⟩ := by
  intro h2 h3
  obtain ⟨o2, k2⟩ := bufAlloc_owned o need
  have hnew : valOf h2.bufs h.bufs.length = some ⟨[], segBufCap need⟩ := by
    show valOf (alloc h.bufs _) _ = _
    rw [valOf_alloc, if_pos rfl]
  have hempty : ns.liveLen = 0 → valOf h2.bufs h.bufs.length = some ⟨liveBytes (h.shows ns), segBufCap need⟩ := by
    intro hzero
    rw [hzero] at hfront
    rw [hnew, length_eq_zero_iff.1 hfront]
  cases hx : ns.liveData with
  | none =>
    have hzero : ns.liveLen = 0 := by
      rw [← hfront, liveBytes]
      show ((ns.liveData.bind _).map Buf.bytes |>.getD []).length = 0
      rw [hx]
      rfl
    have h3eq : h3 = h2 := by simp only [h3, hx]
    rw [h3eq]
    exact ⟨o2, k2, hempty hzero⟩
  | some x =>
    by_cases hlen : ns.liveLen ≠ 0
    · have hold : valOf h2.bufs x = valOf h.bufs x := k2.bufs x (.inr (by
        have hmem : x ∈ ns.bufs := by
          rw [Snapshot.bufs, hx]
          exact mem_append_left _ (mem_singleton.2 rfl)
        have := count_pos_iff.2 hmem
        omega))
      have hbytes : h2.bytes x = liveBytes (h.shows ns) := by
        rw [Heap.bytes, hold, liveBytes]
        show _ = ((ns.liveData.bind _).map Buf.bytes).getD []
        rw [hx]
        rfl
      have h3eq : h3 = h2.write h.bufs.length 0 (liveBytes (h.shows ns)) := by
        simp only [h3, hx, if_pos hlen]
        rw [hbytes, ← hfront, take_length]
      rw [h3eq]
      exact newBuf_spec o need _
    · have h3eq : h3 = h2 := by
        simp only [h3, hx, if_neg hlen]
      rw [h3eq]
      exact ⟨o2, k2, hempty (Classical.not_not.1 hlen)⟩

theorem pushPart_moved (o : Owned h S [] []) (hold : v.OldOk h S)
    (hclone : h.snapClone v.floor v.old mem = some (ns, h')) (data : List UInt8)
    (hfront : (liveBytes (basis v h).2).length = (basis v h).1.liveLen) (duration : ℚ) (independent : Bool) :
    let need := ns.liveLen + data.length
    let h2 := (h'.bufAlloc need).2
    let h3 := match ns.liveData with
      | some x => if ns.liveLen ≠ 0 then h2.write h'.bufs.length 0 ((h2.bytes x).take ns.liveLen) else h2
      | none => h2
    Called h S (basis v h).1.liveData (PartPushed h S v data duration independent)
      (.publish (ns.withPart h'.bufs.length (segBufCap need) data.length duration independent),
        (h3.bufUnref ns.liveData).write h'.bufs.length ns.liveLen data) := by
  intro need h2 h3
  obtain ⟨o1, k1, hok1, hshows1, hns1⟩ := clone_spec o hold hclone
  rw [append_nil] at o1
  have hlen : ns.liveLen = (basis v h).1.liveLen := by rw [hns1]; rfl
  obtain ⟨o3, k3, hcopy⟩ := liveBuf_copied o1 need (by rw [hshows1, hlen]; exact hfront)
  have o3' : Owned h3 S [ns.ring] (ns.liveData.toList ++ (h'.bufs.length :: ns.initData.toList)) :=
    o3.congr (fun _ => rfl) fun x => by
      simp only [Snapshot.bufs, count_append, count_cons]
      omega
  obtain ⟨o4, k4⟩ := bufUnref_owned o3'
  have hin : ns.initData.toList.Subset ns.bufs := subset_append_right _ _
  have k14 : Keeps h' (h3.bufUnref ns.liveData) S [ns.ring] ns.initData.toList :=
    (k3.loose hin).trans (k4.loose (subset_cons_self _ _))
  have hcopy4 : valOf (h3.bufUnref ns.liveData).bufs h'.bufs.length =
      some ⟨liveBytes (basis v h).2, segBufCap need⟩ := by
    rw [k4.bufs _ (.inr (by rw [count_cons_self]; omega)), hcopy, hshows1]
  have hfresh : ¬ Reach (h3.bufUnref ns.liveData) S [ns.ring] ns.initData.toList h'.bufs.length := fun hx =>
    o1.fresh ((k14.reach_of hx).mono (Subset.refl _) (Subset.refl _) hin)
  have k5 := k14.trans (write_keeps hfresh ns.liveLen data)
  have hwritten := valOf_write hcopy4 data (hfront.trans hlen.symm)
  have hsegs : ((h3.bufUnref ns.liveData).write h'.bufs.length ns.liveLen data).segs ns.ring = h'.segs ns.ring :=
    k5.segs _ (by rw [ringRefs_cons, plus_self]; omega)
  refine ⟨(owned_cons _).2 ((write_owned o4 _ _ _).congr (fun _ => rfl) fun x => ?_), ?_, ?_, ?_⟩
  · rw [append_nil]
    rfl
  · exact (k1.trans (k5.tail.loose (nil_subset _))).grows _
  · exact hok1.congr hsegs rfl rfl
  · -- without the segment in progress the clone shows what it showed before
    have hshows : ((h3.bufUnref ns.liveData).write h'.bufs.length ns.liveLen data).shows { ns with liveData := none } =
        h'.shows { ns with liveData := none } := by
      refine Keeps.shows (S := { ns with liveData := none } :: S) (R := []) (B := []) (keeps_cons.2 (k5.loose ?_))
        mem_cons_self
      show ([] ++ ns.initData.toList ++ []).Subset _
      rw [append_nil, nil_append]
      exact Subset.refl _
    have hs1 : (h'.shows ns).segs = (basis v h).2.segs := congrArg Shown.segs hshows1
    have hi1 : (h'.shows ns).init = (basis v h).2.init := congrArg Shown.init hshows1
    have hs : (Heap.shows _ { ns with liveData := none }).segs = (basis v h).2.segs :=
      (congrArg Shown.segs hshows).trans hs1
    have hi : (Heap.shows _ { ns with liveData := none }).init = (basis v h).2.init :=
      (congrArg Shown.init hshows).trans hi1
    refine ⟨ns.ring, h'.bufs.length, segBufCap need, ?_, ?_, hwritten, ?_, ?_, .inr fun hx => ?_⟩
    · exact congrArg (fun s => Snapshot.withPart s h'.bufs.length (segBufCap need) data.length duration independent) hns1
    · rw [← hlen]
      exact le_segBufCap need
    · rw [← hs]
      exact forall₂_same.2 fun _ _ => ⟨rfl, BufLe.refl _⟩
    · rw [← hi]
      exact BufLe.refl _
    · exact o1.fresh ((k1.reach hx).mono (Subset.refl _) (nil_subset _) (nil_subset _))

theorem pushPart_called (o : Owned h S [] []) (hold : v.OldOk h S) (data : List UInt8)
    (hfront : (liveBytes (basis v h).2).length = (basis v h).1.liveLen)
    (hcap : ∀ b, (basis v h).2.live = some b → (basis v h).1.liveCap = b.cap) (duration : ℚ) (independent : Bool) :
    Called h S (basis v h).1.liveData (PartPushed h S v data duration independent)
      (h.pushPart v mem data duration independent) := by
  unfold Heap.pushPart
  cases hclone : h.snapClone v.floor v.old mem with
  | none => exact ⟨o, Keeps.refl _ _ _ _⟩
  | some p =>
    obtain ⟨ns, h1⟩ := p
    obtain ⟨o1, k1, -, -, -⟩ := clone_spec o hold hclone
    simp only []
    split
    · exact giveUp_spec o1 k1
    unfold Heap.liveBufEnsure
    by_cases hroom : ns.liveData.isSome ∧ ns.liveCap ≥ ns.liveLen + data.length
    · obtain ⟨x, hx⟩ := isSome_iff_exists.1 hroom.1
      rw [if_pos hroom]
      simp only [hx]
      exact pushPart_inPlace o hold hclone hx hroom.2 hfront hcap duration independent
    rw [if_neg hroom]
    by_cases hbuf : (!mem.buf) = true
    · rw [if_pos hbuf]
      exact giveUp_spec o1 k1
    · rw [if_neg hbuf]
      exact pushPart_moved o hold hclone data hfront duration independent

end

end DvbIpiTools.Dipixy
