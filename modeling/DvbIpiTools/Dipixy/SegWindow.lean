import DvbIpiTools.Dipixy.SegOwnership

set_option autoImplicit false

/-! # What a snapshot shows

The segments in its window with their buffers, and the buffers of the segment in progress and of the init segment.
Each operation on a snapshot that a call has made for itself is described by what the snapshot shows afterwards. -/

namespace DvbIpiTools.Dipixy

open RefCount List Option Nat

/-- The ring of a snapshot: outside of the window there are no buffers. -/
structure RingOk (h : Heap) (s : Snapshot) : Prop where
  length : (h.segs s.ring).length = hlsMaxSegs
  head : s.head < hlsMaxSegs
  count : s.count ≤ hlsMaxSegs
  outside : ∀ i < hlsMaxSegs, (∀ k < s.count, (s.head + k) % hlsMaxSegs ≠ i) →
    ((h.segs s.ring).getD i {}).data = none

structure Shown where
  segs : List (Seg × Option Buf)
  live : Option Buf
  init : Option Buf

def Heap.shows (h : Heap) (s : Snapshot) : Shown :=
  ⟨(h.window s).map fun seg => (seg, seg.data.bind (valOf h.bufs)), s.liveData.bind (valOf h.bufs),
    s.initData.bind (valOf h.bufs)⟩

theorem shows_fst (h : Heap) (s : Snapshot) : (h.shows s).segs.map Prod.fst = h.window s := by
  show ((h.window s).map fun seg => (seg, seg.data.bind (valOf h.bufs))).map Prod.fst = _
  rw [List.map_map]
  exact map_id _

section

variable {h h' : Heap} {S : List Snapshot} {R B : List Nat} {ns : Snapshot}

theorem keeps_cons : Keeps h h' (ns :: S) R B ↔ Keeps h h' S (ns.ring :: R) (ns.bufs ++ B) := by
  have hR : ∀ r, ringRefs (ns :: S) R r = ringRefs S (ns.ring :: R) r := fun r => by
    simp only [ringRefs, map_cons, count_cons]
    omega
  have hB : ∀ x, ((ns :: S).flatMap Snapshot.bufs).count x + B.count x =
      (S.flatMap Snapshot.bufs).count x + (ns.bufs ++ B).count x := fun x => by
    simp only [flatMap_cons, count_append]
    omega
  have hreach : ∀ x, Reach h (ns :: S) R B x ↔ Reach h S (ns.ring :: R) (ns.bufs ++ B) x := fun x => by
    simp only [Reach, hR, hB]
  refine ⟨fun k => ⟨fun r hr => ?_, fun x hx => ?_⟩, fun k => ⟨fun r hr => ?_, fun x hx => ?_⟩⟩
  · exact k.segs r (by rw [hR]; exact hr)
  · exact k.bufs x ((hreach x).2 hx)
  · exact k.segs r (by rw [← hR]; exact hr)
  · exact k.bufs x ((hreach x).1 hx)

variable {s : Snapshot}

theorem reach_of_mem (hs : s ∈ S) {x : Nat}
    (hx : x ∈ s.bufs ∨ ∃ seg ∈ h.segs s.ring, seg.data = some x) : Reach h S R B x := by
  rcases hx with hx | ⟨seg, hseg, hdata⟩
  · have hpos := count_pos_iff.2 (mem_flatMap.2 ⟨s, hs, hx⟩)
    exact .inr (by omega)
  · refine .inl ⟨s.ring, ?_, ?_⟩
    · exact lt_of_lt_of_le (count_pos_iff.2 (mem_map.2 ⟨s, hs, rfl⟩)) (le_add_right _ _)
    · exact countP_pos_iff.2 ⟨seg, hseg, by simpa using hdata⟩

theorem ringRefs_of_mem (hs : s ∈ S) : 0 < ringRefs S R s.ring :=
  lt_of_lt_of_le (count_pos_iff.2 (mem_map.2 ⟨s, hs, rfl⟩)) (le_add_right _ _)

theorem window_congr {s' : Snapshot} (hsegs : h'.segs s'.ring = h.segs s.ring) (hhead : s'.head = s.head)
    (hcount : s'.count = s.count) : h'.window s' = h.window s := by
  rw [Heap.window, Heap.window, hsegs, hhead, hcount]

theorem mem_window {seg : Seg} (hseg : seg ∈ h.window s) {x : Nat} (hx : seg.data = some x) : seg ∈ h.segs s.ring := by
  obtain ⟨i, -, hi⟩ := mem_map.1 hseg
  rw [getD_eq_getElem?_getD] at hi
  cases hget : (h.segs s.ring)[(s.head + i) % hlsMaxSegs]? with
  | none =>
    rw [hget] at hi
    rw [← hi] at hx
    cases hx
  | some seg' =>
    rw [hget] at hi
    rw [← hi]
    exact mem_of_getElem? hget

/-- What is shown depends on the ring and on the buffers that are reached from it. -/
theorem shows_congr {s' : Snapshot} (hsegs : h'.segs s'.ring = h.segs s.ring) (hhead : s'.head = s.head)
    (hcount : s'.count = s.count) (hlive : s'.liveData = s.liveData) (hinit : s'.initData = s.initData)
    (hbufs : ∀ x, (x ∈ s.bufs ∨ ∃ seg ∈ h.segs s.ring, seg.data = some x) → valOf h'.bufs x = valOf h.bufs x) :
    h'.shows s' = h.shows s := by
  have hone : ∀ {d : Option Nat}, d = s.liveData ∨ d = s.initData → d.bind (valOf h'.bufs) = d.bind (valOf h.bufs) := by
    intro d hd
    cases d with
    | none => rfl
    | some x =>
      refine hbufs x (.inl ?_)
      rw [Snapshot.bufs, mem_append, mem_toList, mem_toList]
      exact hd.imp Eq.symm Eq.symm
  rw [Heap.shows, Heap.shows, window_congr hsegs hhead hcount, hlive, hinit, hone (.inl rfl), hone (.inr rfl)]
  congr 1
  refine map_congr_left fun seg hseg => ?_
  cases hdata : seg.data with
  | none => rfl
  | some x => exact congrArg (seg, ·) (hbufs x (.inr ⟨seg, mem_window hseg hdata, hdata⟩))

theorem Keeps.shows (k : Keeps h h' S R B) (hs : s ∈ S) : h'.shows s = h.shows s :=
  shows_congr (k.segs _ (ringRefs_of_mem hs)) rfl rfl rfl rfl fun x hx => k.bufs x (reach_of_mem hs hx)

theorem Keeps.ringOk (k : Keeps h h' S R B) (hs : s ∈ S) (hok : RingOk h s) : RingOk h' s := by
  have hsegs := k.segs _ (ringRefs_of_mem hs)
  refine ⟨?_, hok.head, hok.count, ?_⟩
  · rw [hsegs]
    exact hok.length
  · rw [hsegs]
    exact hok.outside

/-! ## The operations on a snapshot of a call -/

/-- A snapshot that a call has, and whose ring nobody else has. -/
structure Own (h : Heap) (S : List Snapshot) (ns : Snapshot) (B : List Nat) : Prop where
  owned : Owned h S [ns.ring] B
  alone : ringRefs S [] ns.ring = 0
  ringOk : RingOk h ns

theorem segRefs_set {segs : List Seg} {i : Nat} {old : Seg} (hi : segs[i]? = some old) (new : Seg) (x : Nat) :
    segRefs (segs.set i new) x + old.data.toList.count x = segRefs segs x + new.data.toList.count x := by
  obtain ⟨hlt, hget⟩ := List.getElem?_eq_some_iff.1 hi
  have hcount : ∀ s : Seg, s.data.toList.count x = if s.data = some x then 1 else 0 := fun s => by
    cases s.data with
    | none => rfl
    | some y => simp [count_singleton]
  have hpos : old.data = some x → 0 < segRefs segs x := fun hx =>
    countP_pos_iff.2 ⟨old, mem_of_getElem? hi, by simpa using hx⟩
  rw [hcount, hcount]
  rw [segRefs] at hpos ⊢
  rw [countP_set hlt, hget, segRefs]
  simp only [decide_eq_true_eq]
  by_cases hx : old.data = some x
  · have := hpos hx
    rw [if_pos hx]
    omega
  · rw [if_neg hx]
    omega

theorem bufUnref_setSegs (x : Option Nat) (r : Nat) (f : List Seg → List Seg) (h : Heap) :
    (h.bufUnref x).setSegs r f = (h.setSegs r f).bufUnref x := by
  cases x <;> rfl

theorem slot_ne {head i j : Nat} (hi : i < hlsMaxSegs) (hj : j < hlsMaxSegs) (hij : i ≠ j) :
    (head + i) % hlsMaxSegs ≠ (head + j) % hlsMaxSegs := by
  simp only [hlsMaxSegs] at hi hj ⊢
  omega

theorem append_spec {data : Option Nat} (own : Own h S ns (data.toList ++ B))
    (hroom : ns.count < hlsMaxSegs) (size : Nat) (parts : List Part) (d : Duration) :
    let seg : Seg := ⟨data, size, d, ns.nextSeq, ns.cumMs, parts, ns.discPending⟩
    let r := h.append ns data size parts d
    Own r.2 S r.1 B ∧ Keeps h r.2 S [] B ∧ r.2.window r.1 = h.window ns ++ [seg] ∧ r.2.bufs = h.bufs := by
  intro seg r
  have hidx : (ns.head + ns.count) % hlsMaxSegs < (h.segs ns.ring).length := by
    rw [own.ringOk.length]
    exact mod_lt _ (by decide)
  obtain ⟨old, hold⟩ : ∃ old, (h.segs ns.ring)[(ns.head + ns.count) % hlsMaxSegs]? = some old :=
    ⟨_, getElem?_eq_getElem hidx⟩
  have hempty : old.data = none := by
    have hout := own.ringOk.outside ((ns.head + ns.count) % hlsMaxSegs) (mod_lt _ (by decide)) fun k hk =>
      slot_ne (by have := own.ringOk.count; omega) hroom (by omega)
    rw [getD_eq_getElem?_getD, hold] at hout
    exact hout
  obtain ⟨o', k', hsegs⟩ := setSegs_owned own.owned own.alone
    (fun segs => segs.set ((ns.head + ns.count) % hlsMaxSegs) seg) (C := B) fun x => by
      have hset := segRefs_set hold seg x
      rw [hempty] at hset
      simp only [toList_none, count_nil] at hset
      rw [count_append]
      have hseg : seg.data.toList.count x = data.toList.count x := rfl
      omega
  replace hsegs : r.2.segs ns.ring = (h.segs ns.ring).set ((ns.head + ns.count) % hlsMaxSegs) seg := hsegs
  refine ⟨⟨o', own.alone, ?_, own.ringOk.head, hroom, ?_⟩, k'.loose (subset_append_right _ _), ?_, rfl⟩
  · show (r.2.segs ns.ring).length = _
    rw [hsegs, length_set]
    exact own.ringOk.length
  · intro i hi hout
    have hne : (ns.head + ns.count) % hlsMaxSegs ≠ i := hout ns.count (lt_succ_self _)
    show (getD (r.2.segs ns.ring) i {}).data = none
    rw [hsegs, getD_eq_getElem?_getD, getElem?_set_ne hne, ← getD_eq_getElem?_getD]
    exact own.ringOk.outside i hi fun k hk => hout k (lt_succ_of_lt hk)
  · show (range (ns.count + 1)).map _ = _
    rw [range_succ, map_append, map_singleton]
    congr 1
    · refine map_congr_left fun k hk => ?_
      have hk := mem_range.1 hk
      have hne : (ns.head + ns.count) % hlsMaxSegs ≠ (ns.head + k) % hlsMaxSegs :=
        slot_ne hroom (by omega) (by omega)
      show getD (r.2.segs ns.ring) ((ns.head + k) % hlsMaxSegs) {} = _
      rw [hsegs, getD_eq_getElem?_getD, getD_eq_getElem?_getD, getElem?_set_ne hne]
    · show [getD (r.2.segs ns.ring) ((ns.head + ns.count) % hlsMaxSegs) {}] = [seg]
      rw [hsegs, getD_eq_getElem?_getD, getElem?_set_self hidx]
      rfl

theorem window_eq_cons (hcount : 0 < ns.count) : h.window ns = (h.segs ns.ring).getD (ns.head % hlsMaxSegs) {} ::
      (range (ns.count - 1)).map fun k => (h.segs ns.ring).getD ((ns.head + (k + 1)) % hlsMaxSegs) {} := by
  obtain ⟨n, hn⟩ : ∃ n, ns.count = n + 1 := ⟨ns.count - 1, by omega⟩
  rw [Heap.window, hn, range_succ_eq_map, map_cons, List.map_map]
  rfl

/-- A snapshot without its oldest segment. -/
def Snapshot.dropOldest (s : Snapshot) : Snapshot :=
  { s with head := (s.head + 1) % hlsMaxSegs, count := s.count - 1, oldestSeq := s.oldestSeq + 1 }

theorem dropOldest_slot (s : Snapshot) (k : Nat) :
    (s.dropOldest.head + k) % hlsMaxSegs = (s.head + (k + 1)) % hlsMaxSegs := by
  show ((s.head + 1) % hlsMaxSegs + k) % hlsMaxSegs = _
  simp only [hlsMaxSegs]
  omega

section

variable {old : Seg}

theorem modify_data {l : List Seg} {i : Nat} (hold : l[i]? = some old) :
    l.modify i (fun s => { s with data := none }) = l.set i { old with data := none } := by
  have : Inhabited Seg := ⟨old⟩
  rw [modify_eq_set, hold, getD_some]

theorem RingOk.dropOldest (hok : RingOk h ns)
    (hsegs : h'.segs ns.ring = (h.segs ns.ring).set ns.head { old with data := none }) : RingOk h' ns.dropOldest := by
  refine ⟨?_, mod_lt _ (by decide), ?_, ?_⟩
  · show (h'.segs ns.ring).length = _
    rw [hsegs, length_set]
    exact hok.length
  · have hc := hok.count
    show ns.count - 1 ≤ _
    omega
  intro i hi hout
  show ((h'.segs ns.ring).getD i {}).data = none
  rw [hsegs, getD_eq_getElem?_getD, getElem?_set]
  by_cases hih : ns.head = i
  · rw [if_pos hih, if_pos (by rw [hok.length]; exact hih ▸ hok.head)]
    rfl
  rw [if_neg hih, ← getD_eq_getElem?_getD]
  refine hok.outside i hi fun k hk hki => ?_
  cases k with
  | zero =>
    have hhead := hok.head
    simp only [hlsMaxSegs] at hhead hki
    omega
  | succ k =>
    have hk' : k < ns.count - 1 := by omega
    exact hout k hk' ((dropOldest_slot ns k).trans hki)

/-- A segment of the window that is not the oldest one stays in its place. -/
theorem RingOk.window_dropOldest (hok : RingOk h ns) (hcount : 0 < ns.count)
    (hsegs : h'.segs ns.ring = (h.segs ns.ring).set ns.head { old with data := none }) :
    h'.window ns.dropOldest = (h.window ns).tail := by
  rw [window_eq_cons hcount, tail_cons, Heap.window]
  refine map_congr_left fun k hk => ?_
  have hk : k < ns.count - 1 := mem_range.1 hk
  have hne : ns.head ≠ (ns.head + (k + 1)) % hlsMaxSegs := by
    have hhead := hok.head
    have hc := hok.count
    simp only [hlsMaxSegs] at hhead hc ⊢
    omega
  rw [dropOldest_slot]
  show (h'.segs ns.ring).getD _ {} = _
  rw [hsegs, getD_eq_getElem?_getD, getElem?_set_ne hne, ← getD_eq_getElem?_getD]

end

/-- The buffers a snapshot shows without its oldest segment are as they were, as long as those still in use are. -/
theorem shows_dropOldest (hwindow : h'.window ns.dropOldest = (h.window ns).tail)
    (hown : ∀ x ∈ ns.bufs, valOf h'.bufs x = valOf h.bufs x)
    (hused : ∀ seg ∈ h'.segs ns.ring, ∀ x, seg.data = some x → valOf h'.bufs x = valOf h.bufs x) :
    h'.shows ns.dropOldest = { h.shows ns with segs := (h.shows ns).segs.tail } := by
  have hbuf : ∀ {d : Option Nat}, d = ns.liveData ∨ d = ns.initData →
      d.bind (valOf h'.bufs) = d.bind (valOf h.bufs) := by
    intro d hd
    cases d with
    | none => rfl
    | some x =>
      refine hown x ?_
      rw [Snapshot.bufs, mem_append, mem_toList, mem_toList]
      exact hd.imp Eq.symm Eq.symm
  show Shown.mk _ _ _ = Shown.mk _ _ _
  rw [hwindow]
  refine congr (congr (congrArg Shown.mk ?_) (hbuf (.inl rfl))) (hbuf (.inr rfl))
  rw [show ((h.shows ns).segs).tail = ((h.window ns).tail).map fun seg => (seg, seg.data.bind (valOf h.bufs)) from
    map_tail.symm]
  refine map_congr_left fun seg hseg => ?_
  cases hdata : seg.data with
  | none => rfl
  | some x =>
    rw [← hwindow] at hseg
    exact congrArg (seg, ·) (hused seg (mem_window (s := ns.dropOldest) hseg hdata) x hdata)

theorem evict_own (own : Own h S ns B) (hbufs : ns.bufs.Subset B) (hcount : 0 < ns.count) :
    let h' := (h.bufUnref ((h.segs ns.ring).getD ns.head {}).data).setSegs ns.ring fun segs =>
      segs.modify ns.head fun s => { s with data := none }
    Own h' S ns.dropOldest B ∧ Keeps h h' S [] B ∧
      h'.shows ns.dropOldest = { h.shows ns with segs := (h.shows ns).segs.tail } := by
  intro h'
  obtain ⟨old, hold⟩ : ∃ old, (h.segs ns.ring)[ns.head]? = some old :=
    ⟨_, getElem?_eq_getElem (by rw [own.ringOk.length]; exact own.ringOk.head)⟩
  have hget : ((h.segs ns.ring).getD ns.head {}).data = old.data := by
    rw [getD_eq_getElem?_getD, hold]
    rfl
  obtain ⟨o1, k1, hsegs1⟩ := setSegs_owned own.owned own.alone
    (fun segs => segs.modify ns.head fun s => { s with data := none }) (C := old.data.toList ++ B) fun x => by
      have hset := segRefs_set hold { old with data := none } x
      simp only [toList_none, count_nil] at hset
      rw [modify_data hold, count_append]
      omega
  obtain ⟨o2, k2⟩ := bufUnref_owned o1
  have hh : h' = (h.setSegs ns.ring fun segs => segs.modify ns.head fun s => { s with data := none }).bufUnref
      old.data := by
    rw [← bufUnref_setSegs, ← hget]
  rw [← hh] at o2 k2
  have hsegs : h'.segs ns.ring = (h.segs ns.ring).set ns.head { old with data := none } := by
    rw [hh, Heap.segs, bufUnref_rings, ← Heap.segs, hsegs1, modify_data hold]
  refine ⟨⟨o2, own.alone, own.ringOk.dropOldest hsegs⟩, (k1.loose (Subset.refl B)).trans k2.tail,
    shows_dropOldest (own.ringOk.window_dropOldest hcount hsegs) (fun x hx => k2.bufs x (.inr ?_))
      fun seg hseg x hdata => k2.bufs x (.inl ⟨ns.ring, ?_, ?_⟩)⟩
  · have hpos := count_pos_iff.2 (hbufs hx)
    omega
  · rw [ringRefs_cons, plus_self]
    omega
  · rw [hsegs1, modify_data hold, ← hsegs]
    exact countP_pos_iff.2 ⟨seg, hseg, by simpa using hdata⟩

theorem evict_spec (own : Own h S ns B) (hbufs : ns.bufs.Subset B) {maxSegs : Nat} (hmax : 0 < maxSegs) :
    let r := h.evict maxSegs ns
    Own r.2 S r.1 B ∧ Keeps h r.2 S [] B ∧ r.1 = (if ns.count ≥ maxSegs then { ns with
        head := (ns.head + 1) % hlsMaxSegs, count := ns.count - 1, oldestSeq := ns.oldestSeq + 1 } else ns) ∧
      r.2.shows r.1 = { h.shows ns with
        segs := if ns.count ≥ maxSegs then (h.shows ns).segs.tail else (h.shows ns).segs } := by
  intro r
  by_cases hfull : ns.count ≥ maxSegs
  · obtain ⟨own', k', hshows⟩ := evict_own own hbufs (by omega)
    have hr : r = _ := if_pos hfull
    rw [hr, if_pos hfull, if_pos hfull]
    exact ⟨own', k', rfl, hshows⟩
  · have hr : r = (ns, h) := if_neg hfull
    rw [hr, if_neg hfull, if_neg hfull]
    exact ⟨own, Keeps.refl _ _ _ _, rfl, rfl⟩

end

end DvbIpiTools.Dipixy
