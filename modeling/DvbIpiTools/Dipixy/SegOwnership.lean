import DvbIpiTools.Dipixy.SegStore

set_option autoImplicit false

/-! # Who owns what in the segment store

A heap belongs to snapshots, and while a call is under way to references that the call itself has. The counts of
rings and buffers are the numbers of these, and an operation does not touch what is referred to afterwards. -/

namespace DvbIpiTools.Dipixy

open RefCount List

/-! ## References -/

def segRefs (segs : List Seg) (x : Nat) : Nat := segs.countP fun s => s.data = some x

def Snapshot.bufs (s : Snapshot) : List Nat := s.liveData.toList ++ s.initData.toList

/-- The references to a ring from snapshots and loose ones. -/
def ringRefs (S : List Snapshot) (R : List Nat) (r : Nat) : Nat := (S.map Snapshot.ring).count r + R.count r

/-- The references to a buffer from all rings, snapshots and loose ones. -/
def bufRefs (h : Heap) (S : List Snapshot) (B : List Nat) (x : Nat) : Nat :=
  held segRefs h.rings x + ((S.flatMap Snapshot.bufs).count x + B.count x)

/-- The counts are right for the snapshots and the loose references to rings and buffers. -/
structure Owned (h : Heap) (S : List Snapshot) (R B : List Nat) : Prop where
  rings : Counted h.rings (ringRefs S R)
  bufs : Counted h.bufs (bufRefs h S B)

/-- A buffer that can be reached. -/
def Reach (h : Heap) (S : List Snapshot) (R B : List Nat) (x : Nat) : Prop :=
  (∃ r, 0 < ringRefs S R r ∧ 0 < segRefs (h.segs r) x) ∨ 0 < (S.flatMap Snapshot.bufs).count x + B.count x

/-- What can be reached is as before. -/
structure Keeps (h h' : Heap) (S : List Snapshot) (R B : List Nat) : Prop where
  segs : ∀ r, 0 < ringRefs S R r → h'.segs r = h.segs r
  bufs : ∀ x, Reach h S R B x → valOf h'.bufs x = valOf h.bufs x

section

variable {h h' h'' : Heap} {S : List Snapshot} {R B : List Nat}

theorem Keeps.refl (h : Heap) (S : List Snapshot) (R B : List Nat) : Keeps h h S R B :=
  ⟨fun _ _ => rfl, fun _ _ => rfl⟩

variable {x : Nat}

theorem Keeps.reach (k : Keeps h h' S R B) (hx : Reach h S R B x) : Reach h' S R B x := by
  rcases hx with ⟨r, hr, hseg⟩ | hx
  · exact .inl ⟨r, hr, by rw [k.segs r hr]; exact hseg⟩
  · exact .inr hx

theorem Keeps.reach_of (k : Keeps h h' S R B) (hx : Reach h' S R B x) : Reach h S R B x := by
  rcases hx with ⟨r, hr, hseg⟩ | hx
  · exact .inl ⟨r, hr, by rw [← k.segs r hr]; exact hseg⟩
  · exact .inr hx

theorem Keeps.trans (k : Keeps h h' S R B) (k' : Keeps h' h'' S R B) : Keeps h h'' S R B := by
  exact ⟨fun r hr => (k'.segs r hr).trans (k.segs r hr), fun x hx => (k'.bufs x (k.reach hx)).trans (k.bufs x hx)⟩

variable {S' : List Snapshot} {R' : List Nat} {r : Nat}

theorem ringRefs_mono (hS : S'.Subset S) (hR : R'.Subset R) (hr : 0 < ringRefs S' R' r) : 0 < ringRefs S R r := by
  have hor : r ∈ S'.map Snapshot.ring ∨ r ∈ R' := by
    by_contra hno
    rw [not_or] at hno
    rw [ringRefs, count_eq_zero.2 hno.1, count_eq_zero.2 hno.2] at hr
    exact lt_irrefl _ hr
  have hpos : r ∈ S.map Snapshot.ring ∨ r ∈ R := by
    rcases hor with hmem | hmem
    · obtain ⟨s, hs, rfl⟩ := mem_map.1 hmem
      exact .inl (mem_map.2 ⟨s, hS hs, rfl⟩)
    · exact .inr (hR hmem)
  rcases hpos with hmem | hmem
  · exact lt_of_lt_of_le (count_pos_iff.2 hmem) (Nat.le_add_right _ _)
  · exact lt_of_lt_of_le (count_pos_iff.2 hmem) (Nat.le_add_left _ _)

variable {B' : List Nat}

theorem Reach.mono (hS : S'.Subset S) (hR : R'.Subset R) (hB : B'.Subset B) (hx : Reach h S' R' B' x) : Reach h S R B x := by
  rcases hx with ⟨r, hr, hseg⟩ | hx
  · exact .inl ⟨r, ringRefs_mono hS hR hr, hseg⟩
  right
  have hor : x ∈ S'.flatMap Snapshot.bufs ∨ x ∈ B' := by
    by_contra hno
    rw [not_or] at hno
    rw [count_eq_zero.2 hno.1, count_eq_zero.2 hno.2] at hx
    exact lt_irrefl _ hx
  rcases hor with hmem | hmem
  · obtain ⟨s, hs, hmem⟩ := mem_flatMap.1 hmem
    have hpos := count_pos_iff.2 (mem_flatMap.2 ⟨s, hS hs, hmem⟩)
    omega
  · have hpos := count_pos_iff.2 (hB hmem)
    omega

theorem Keeps.mono (k : Keeps h h' S R B) (hS : S'.Subset S)
    (hR : R'.Subset R) (hB : B'.Subset B) : Keeps h h' S' R' B' :=
  ⟨fun r hr => k.segs r (ringRefs_mono hS hR hr), fun x hx => k.bufs x (hx.mono hS hR hB)⟩

theorem Keeps.loose (k : Keeps h h' S R B) (hB : B'.Subset B) : Keeps h h' S R B' :=
  k.mono (Subset.refl _) (Subset.refl _) hB

theorem Keeps.tail (k : Keeps h h' S (r :: R) B) : Keeps h h' S R B :=
  k.mono (Subset.refl _) (subset_cons_self _ _) (Subset.refl _)

theorem Owned.valOf_ring (o : Owned h S R B) (hr : 0 < ringRefs S R r) : valOf h.rings r = some (h.segs r) := by
  obtain ⟨c, hc, -⟩ := o.rings.exists_val hr
  rw [Heap.segs, valOf, hc]
  rfl

theorem Owned.refs_pos (o : Owned h S R B) (hx : Reach h S R B x) : 0 < bufRefs h S B x := by
  rcases hx with ⟨r, hr, hseg⟩ | hx
  · have hle := le_held segRefs x (o.valOf_ring hr)
    rw [bufRefs]
    omega
  · rw [bufRefs]
    omega

theorem Owned.congr {T : List Snapshot} {Q C : List Nat} (o : Owned h S R B) (hR : ∀ r, ringRefs S R r = ringRefs T Q r)
    (hB : ∀ x, (S.flatMap Snapshot.bufs).count x + B.count x = (T.flatMap Snapshot.bufs).count x + C.count x) :
    Owned h T Q C :=
  ⟨o.rings.congr hR, o.bufs.congr fun x => by rw [bufRefs, bufRefs, hB x]⟩

theorem owned_cons (s : Snapshot) : Owned h (s :: S) R B ↔ Owned h S (s.ring :: R) (s.bufs ++ B) := by
  have hR : ∀ r, ringRefs (s :: S) R r = ringRefs S (s.ring :: R) r := fun r => by
    simp only [ringRefs, map_cons, count_cons]
    omega
  have hB : ∀ x, ((s :: S).flatMap Snapshot.bufs).count x + B.count x =
      (S.flatMap Snapshot.bufs).count x + (s.bufs ++ B).count x := fun x => by
    simp only [flatMap_cons, count_append]
    omega
  exact ⟨fun o => o.congr hR hB, fun o => o.congr (fun r => (hR r).symm) fun x => (hB x).symm⟩

/-! ## Buffers -/

theorem Keeps.of_bufs (hrings : h'.rings = h.rings)
    (hbufs : ∀ x, Reach h S R B x → valOf h'.bufs x = valOf h.bufs x) : Keeps h h' S R B := by
  refine ⟨fun r _ => ?_, hbufs⟩
  rw [Heap.segs, hrings, Heap.segs]

theorem Owned.fresh (o : Owned h S R B) : ¬ Reach h S R B h.bufs.length := fun hx => by
  have hpos := o.refs_pos hx
  rw [o.bufs.refs_length] at hpos
  exact lt_irrefl _ hpos

theorem bufRefs_cons (h : Heap) (S : List Snapshot) (B : List Nat) (x : Nat) :
    bufRefs h S (x :: B) = plus (bufRefs h S B) x := by
  funext y
  rw [bufRefs, plus, bufRefs, count_cons]
  by_cases hxy : y = x
  · simp only [hxy, beq_self_eq_true, if_true]
    omega
  · have hyx : (x == y) = false := beq_eq_false_iff_ne.2 (Ne.symm hxy)
    simp only [hyx, if_neg hxy, Bool.false_eq_true, if_false]
    omega

theorem ringRefs_cons (S : List Snapshot) (R : List Nat) (r : Nat) : ringRefs S (r :: R) = plus (ringRefs S R) r := by
  funext q
  rw [ringRefs, plus, ringRefs, count_cons]
  by_cases hqr : q = r
  · simp only [hqr, beq_self_eq_true, if_true]
    omega
  · have hrq : (r == q) = false := beq_eq_false_iff_ne.2 (Ne.symm hqr)
    simp only [hrq, if_neg hqr, Bool.false_eq_true, if_false]
    omega

theorem bufAlloc_owned (o : Owned h S R B) (size : Nat) :
    Owned (h.bufAlloc size).2 S R (h.bufs.length :: B) ∧ Keeps h (h.bufAlloc size).2 S R B := by
  refine ⟨⟨o.rings, ?_⟩, Keeps.of_bufs rfl fun x hx => ?_⟩
  · rw [bufRefs_cons]
    exact o.bufs.alloc _
  · show valOf (alloc h.bufs _) x = _
    rw [valOf_alloc, if_neg]
    rintro rfl
    exact o.fresh hx

theorem valOf_write_ne (h : Heap) {y : Nat} (hxy : x ≠ y) (off : Nat) (data : List UInt8) :
    valOf (h.write x off data).bufs y = valOf h.bufs y := by
  rw [Heap.write, valOf_modifyVal, if_neg hxy]

theorem write_owned (o : Owned h S R B) (x off : Nat) (data : List UInt8) : Owned (h.write x off data) S R B :=
  ⟨o.rings, o.bufs.modifyVal x fun b =>
    { b with bytes := b.bytes.take off ++ data ++ b.bytes.drop (off + data.length) }⟩

theorem write_keeps (hx : ¬ Reach h S R B x) (off : Nat) (data : List UInt8) : Keeps h (h.write x off data) S R B :=
  Keeps.of_bufs rfl fun _ hy => valOf_write_ne h (x := x) (fun hxy => hx (hxy.symm ▸ hy)) off data

theorem valOf_write {b : Buf} (hb : valOf h.bufs x = some b) (data : List UInt8) {off : Nat}
    (hoff : b.bytes.length = off) : valOf (h.write x off data).bufs x = some ⟨b.bytes ++ data, b.cap⟩ := by
  rw [Heap.write, valOf_modifyVal, if_pos rfl, hb, Option.map_some]
  rw [take_of_length_le (by omega), drop_of_length_le (by omega), append_nil]

theorem bufRef_owned (o : Owned h S R B) {x : Option Nat} (hx : ∀ y, x = some y → 0 < bufRefs h S B y) :
    Owned (h.bufRef x) S R (x.toList ++ B) ∧ Keeps h (h.bufRef x) S R B := by
  cases x with
  | none => exact ⟨o, Keeps.refl _ _ _ _⟩
  | some x =>
    refine ⟨⟨o.rings, ?_⟩, Keeps.of_bufs rfl fun y _ => valOf_incRef _ _ _⟩
    obtain ⟨c, hc, -⟩ := o.bufs.exists_val (hx x rfl)
    show Counted (incRef h.bufs x) (bufRefs h S (x :: B))
    rw [bufRefs_cons]
    exact o.bufs.incRef (List.getElem?_eq_some_iff.1 hc).1

theorem bufUnref_owned {x : Option Nat} (o : Owned h S R (x.toList ++ B)) :
    Owned (h.bufUnref x) S R B ∧ Keeps h (h.bufUnref x) S R B := by
  cases x with
  | none => exact ⟨o, Keeps.refl _ _ _ _⟩
  | some x =>
    have hbufs : Counted h.bufs (plus (bufRefs h S B) x) := by
      rw [← bufRefs_cons]
      exact o.bufs
    have hloose : ∀ y, Reach h S R B y → 0 < bufRefs h S B y := by
      rintro y (⟨r, hr, hseg⟩ | hy)
      · have hle := le_held segRefs y (o.valOf_ring hr)
        rw [bufRefs]
        omega
      · rw [bufRefs]
        omega
    exact ⟨⟨o.rings, hbufs.decRef _⟩, Keeps.of_bufs rfl fun y hy => hbufs.valOf_decRef _ (hloose y hy)⟩

theorem bufUnref_rings (x : Option Nat) (h : Heap) : (h.bufUnref x).rings = h.rings := by cases x <;> rfl

theorem bufRef_rings (x : Option Nat) (h : Heap) : (h.bufRef x).rings = h.rings := by cases x <;> rfl

/-- The references of some segments, one after the other. -/
def segBufs (segs : List Seg) : List Nat := segs.flatMap fun s => s.data.toList

variable (segs : List Seg)

theorem count_segBufs (x : Nat) : (segBufs segs).count x = segRefs segs x := by
  induction segs with
  | nil => rfl
  | cons s segs ih =>
    rw [segBufs, flatMap_cons, count_append, segRefs, countP_cons]
    rw [segBufs, segRefs] at ih
    rw [ih]
    cases s.data with
    | none => simp
    | some y => simp [count_singleton, add_comm]

theorem unrefAll_owned {h : Heap} (o : Owned h S R (segBufs segs ++ B)) :
    Owned (segs.foldl (fun h s => h.bufUnref s.data) h) S R B ∧
      Keeps h (segs.foldl (fun h s => h.bufUnref s.data) h) S R B := by
  induction segs generalizing h with
  | nil => exact ⟨o, Keeps.refl _ _ _ _⟩
  | cons s segs ih =>
    have hsplit : segBufs (s :: segs) ++ B = s.data.toList ++ (segBufs segs ++ B) := by
      rw [segBufs, flatMap_cons, append_assoc]
      rfl
    rw [hsplit] at o
    obtain ⟨o', k'⟩ := bufUnref_owned o
    obtain ⟨o'', k''⟩ := ih o'
    exact ⟨o'', (k'.loose (subset_append_right _ _)).trans k''⟩

theorem refAll_owned {h : Heap} (o : Owned h S R B) (hpos : ∀ x, 0 < segRefs segs x → 0 < bufRefs h S B x) :
    Owned (segs.foldl (fun h s => h.bufRef s.data) h) S R (segBufs segs ++ B) ∧
      Keeps h (segs.foldl (fun h s => h.bufRef s.data) h) S R B := by
  induction segs generalizing h B with
  | nil => exact ⟨o, Keeps.refl _ _ _ _⟩
  | cons s segs ih =>
    have hcons : ∀ x, segRefs (s :: segs) x = segRefs segs x + if s.data = some x then 1 else 0 := fun x => by
      rw [segRefs, countP_cons]
      simp only [decide_eq_true_eq]
      rfl
    obtain ⟨o', k'⟩ := bufRef_owned o fun y hy => hpos y (by rw [hcons, if_pos hy]; omega)
    have hheld : ∀ x, bufRefs (h.bufRef s.data) S (s.data.toList ++ B) x = bufRefs h S (s.data.toList ++ B) x :=
      fun x => by rw [bufRefs, bufRef_rings, bufRefs]
    obtain ⟨o'', k''⟩ := ih o' fun x hx => by
      have hold := hpos x (by rw [hcons]; omega)
      rw [hheld, bufRefs, count_append]
      rw [bufRefs] at hold
      omega
    refine ⟨o''.congr (fun _ => rfl) fun x => ?_, k'.trans (k''.loose (subset_append_right _ _))⟩
    simp only [segBufs, flatMap_cons, count_append]
    omega

/-! ## Rings -/

theorem segs_eq_of_valOf (hv : valOf h'.rings r = valOf h.rings r) : h'.segs r = h.segs r := by
  rw [Heap.segs, hv, Heap.segs]

theorem Keeps.of_rings (hbufs : h'.bufs = h.bufs)
    (hrings : ∀ r, 0 < ringRefs S R r → valOf h'.rings r = valOf h.rings r) : Keeps h h' S R B := by
  exact ⟨fun r hr => segs_eq_of_valOf (hrings r hr), fun x _ => by rw [hbufs]⟩

theorem ringRef_owned (o : Owned h S R B) (hr : 0 < ringRefs S R r) :
    Owned (h.ringRef r) S (r :: R) B ∧ Keeps h (h.ringRef r) S R B := by
  refine ⟨⟨?_, o.bufs.congr fun x => ?_⟩, Keeps.of_rings rfl fun q _ => valOf_incRef _ _ _⟩
  · obtain ⟨c, hc, -⟩ := o.rings.exists_val hr
    rw [ringRefs_cons]
    exact o.rings.incRef (List.getElem?_eq_some_iff.1 hc).1
  · show _ = held segRefs (incRef h.rings r) x + _
    rw [held_incRef]
    rfl

theorem foldl_bufUnref_rings (h : Heap) (rings : List (Cell (List Seg))) :
    segs.foldl (fun h s => h.bufUnref s.data) { h with rings } =
      { segs.foldl (fun h s => h.bufUnref s.data) h with rings } := by
  induction segs generalizing h with
  | nil => rfl
  | cons s segs ih =>
    have hone : Heap.bufUnref s.data { h with rings } = { h.bufUnref s.data with rings } := by
      cases s.data <;> rfl
    rw [foldl_cons, foldl_cons, hone]
    exact ih _

theorem foldl_bufRef_rings (h : Heap) (rings : List (Cell (List Seg))) :
    segs.foldl (fun h s => h.bufRef s.data) { h with rings } =
      { segs.foldl (fun h s => h.bufRef s.data) h with rings } := by
  induction segs generalizing h with
  | nil => rfl
  | cons s segs ih =>
    have hone : Heap.bufRef s.data { h with rings } = { h.bufRef s.data with rings } := by cases s.data <;> rfl
    rw [foldl_cons, foldl_cons, hone]
    exact ih _

theorem foldl_bufUnref_same (h : Heap) : (segs.foldl (fun h s => h.bufUnref s.data) h).rings = h.rings := by
  have heq := foldl_bufUnref_rings segs h h.rings
  rw [heq]

theorem foldl_bufRef_same (h : Heap) : (segs.foldl (fun h s => h.bufRef s.data) h).rings = h.rings := by
  have heq := foldl_bufRef_rings segs h h.rings
  rw [heq]

/-- A ring is freed with its last reference, and then its segments let go of their buffers. -/
theorem ringUnref_owned (o : Owned h S (r :: R) B) : Owned (h.ringUnref r) S R B ∧ Keeps h (h.ringUnref r) S R B := by
  have hrings : Counted h.rings (plus (ringRefs S R) r) := by
    rw [← ringRefs_cons]
    exact o.rings
  have hval : valOf h.rings r = some (h.segs r) := o.valOf_ring (by rw [ringRefs_cons, plus_self]; omega)
  let gone := if refOf h.rings r = 1 then h.segs r else []
  have hswap : h.ringUnref r = gone.foldl (fun h s => h.bufUnref s.data) { h with rings := decRef [] h.rings r } := by
    rw [foldl_bufUnref_rings]
    show { gone.foldl (fun (h : Heap) (s : Seg) => h.bufUnref s.data) h with
      rings := decRef [] (gone.foldl (fun (h : Heap) (s : Seg) => h.bufUnref s.data) h).rings r } = _
    rw [foldl_bufUnref_same]
  have hkeep : Keeps h { h with rings := decRef [] h.rings r } S R B :=
    Keeps.of_rings rfl fun q hq => hrings.valOf_decRef [] hq
  have howned : Owned { h with rings := decRef [] h.rings r } S R (segBufs gone ++ B) := by
    refine ⟨hrings.decRef [], o.bufs.congr fun x => ?_⟩
    have hheld := @held_decRef _ segRefs [] x rfl _ _ _ hval
    rw [bufRefs, bufRefs, count_append, count_segBufs, ← hheld]
    simp only [gone]
    split
    · omega
    · simp only [segRefs, countP_nil]
      omega
  rw [hswap]
  obtain ⟨o', k'⟩ := unrefAll_owned gone howned
  exact ⟨o', hkeep.trans k'⟩

theorem ringAlloc_owned {segs : List Seg} (o : Owned h S R (segBufs segs ++ B)) :
    Owned { h with rings := alloc h.rings segs } S (h.rings.length :: R) B ∧
      Keeps h { h with rings := alloc h.rings segs } S R B := by
  refine ⟨⟨?_, o.bufs.congr fun x => ?_⟩, Keeps.of_rings rfl fun r hr => ?_⟩
  · rw [ringRefs_cons]
    exact o.rings.alloc segs
  · show _ = held segRefs (alloc h.rings segs) x + _
    rw [held_alloc, bufRefs, count_append, count_segBufs]
    omega
  · rw [valOf_alloc, if_neg]
    rintro rfl
    rw [o.rings.refs_length] at hr
    exact lt_irrefl _ hr

theorem setSegs_owned {C : List Nat} (o : Owned h S (r :: R) B) (hone : ringRefs S R r = 0) (f : List Seg → List Seg)
    (hrefs : ∀ x, segRefs (f (h.segs r)) x + C.count x = segRefs (h.segs r) x + B.count x) :
    Owned (h.setSegs r f) S (r :: R) C ∧ Keeps h (h.setSegs r f) S R B ∧ (h.setSegs r f).segs r = f (h.segs r) := by
  have hval : valOf h.rings r = some (h.segs r) := o.valOf_ring (by rw [ringRefs_cons, plus_self]; omega)
  refine ⟨⟨o.rings.modifyVal r f, o.bufs.congr fun x => ?_⟩, Keeps.of_rings rfl fun q hq => ?_, ?_⟩
  · have hheld := held_modifyVal segRefs f x hval
    have hx := hrefs x
    show held segRefs h.rings x + _ = held segRefs (modifyVal h.rings r f) x + _
    omega
  · rw [Heap.setSegs, valOf_modifyVal, if_neg]
    rintro rfl
    omega
  · rw [Heap.segs, Heap.setSegs, valOf_modifyVal, if_pos rfl, hval]
    rfl

/-! ## Snapshots -/

theorem snapFree_owned {s : Snapshot} (o : Owned h (s :: S) R B) :
    Owned (h.snapFree s) S R B ∧ Keeps h (h.snapFree s) S R B := by
  obtain ⟨o1, k1⟩ := ringUnref_owned ((owned_cons s).1 o)
  rw [Snapshot.bufs, append_assoc] at o1 k1
  obtain ⟨o2, k2⟩ := bufUnref_owned o1
  obtain ⟨o3, k3⟩ := bufUnref_owned o2
  refine ⟨o3, ((k1.loose ?_).trans (k2.loose ?_)).trans k3⟩
  · exact subset_append_of_subset_right _ (subset_append_right _ _)
  · exact subset_append_right _ _

theorem ringCow_owned {mem : Mem} {ns : Snapshot} (o : Owned h S (ns.ring :: R) B) {ns' : Snapshot}
    (hcow : h.ringCow mem ns = some (ns', h')) :
    Owned h' S (ns'.ring :: R) B ∧ Keeps h h' S R B ∧ h'.segs ns'.ring = h.segs ns.ring ∧
      (∀ x, Reach h S (ns.ring :: R) B x → valOf h'.bufs x = valOf h.bufs x) ∧
      ringRefs S R ns'.ring = 0 ∧ ns' = { ns with ring := ns'.ring } := by
  rw [Heap.ringCow] at hcow
  have hpos : 0 < ringRefs S (ns.ring :: R) ns.ring := by rw [ringRefs_cons, plus_self]; omega
  by_cases hone : refOf h.rings ns.ring = 1
  · rw [if_pos hone] at hcow
    cases hcow
    rw [o.rings, ringRefs_cons, plus_self] at hone
    exact ⟨o, Keeps.refl _ _ _ _, rfl, fun _ _ => rfl, by omega, rfl⟩
  rw [if_neg hone] at hcow
  split at hcow
  · cases hcow
  cases hcow
  -- the references of the segments, then the ring that takes them, then the old ring
  obtain ⟨o1, k1⟩ := refAll_owned (h.segs ns.ring) o fun x hx => o.refs_pos (.inl ⟨ns.ring, hpos, hx⟩)
  obtain ⟨o2, k2⟩ := ringAlloc_owned o1
  rw [foldl_bufRef_same, ← foldl_bufRef_rings] at o2 k2
  have hfresh : ringRefs S (ns.ring :: R) h.rings.length = 0 := o.rings.refs_length
  have hne : ns.ring ≠ h.rings.length := fun heq => by
    rw [heq] at hpos hfresh
    omega
  have o2' := o2.congr (Q := ns.ring :: h.rings.length :: R) (T := S) (C := B) (fun r => by
    simp only [ringRefs, count_cons]
    omega) fun _ => rfl
  obtain ⟨o3, k3⟩ := ringUnref_owned o2'
  have hnew : 0 < ringRefs S (h.rings.length :: R) h.rings.length := by rw [ringRefs_cons, plus_self]; omega
  have hsegs : ((h.segs ns.ring).foldl (fun (h : Heap) (s : Seg) => h.bufRef s.data)
      { h with rings := (alloc h.rings (h.segs ns.ring)) }).segs h.rings.length = h.segs ns.ring := by
    rw [foldl_bufRef_rings, Heap.segs, valOf_alloc, if_pos rfl]
    rfl
  refine ⟨o3, ?_, ?_, fun x hx => ?_, ?_, rfl⟩
  · exact (k1.trans k2).tail.trans k3.tail
  · exact (k3.segs _ hnew).trans hsegs
  · refine (k3.bufs x ?_).trans ((k1.trans k2).bufs x hx)
    rcases (k1.trans k2).reach hx with ⟨r, hr, hseg⟩ | hloose
    · by_cases hrr : r = ns.ring
      · refine .inl ⟨h.rings.length, hnew, ?_⟩
        rw [hrr, (k1.trans k2).segs _ hpos] at hseg
        rw [hsegs]
        exact hseg
      · refine .inl ⟨r, ?_, hseg⟩
        rw [ringRefs_cons, plus_ne _ hrr] at hr
        rw [ringRefs_cons, plus]
        omega
    · exact .inr hloose
  · rw [ringRefs_cons, plus_ne _ hne.symm] at hfresh
    exact hfresh

theorem valOf_bufRef (x : Option Nat) (h : Heap) (y : Nat) : valOf (h.bufRef x).bufs y = valOf h.bufs y := by
  cases x with
  | none => rfl
  | some x => exact valOf_incRef _ _ _

/-- What a clone of a snapshot is. -/
def Cloned (floor : UInt32) (base : Option Snapshot) (ns : Snapshot) (h h' : Heap) : Prop :=
  match base with
  | some b => ns = b ∧ ∀ r, h'.segs r = h.segs r
  | none => ns = { ring := h.rings.length, nextSeq := floor, oldestSeq := floor, liveMsn := floor } ∧
    h'.segs ns.ring = replicate hlsMaxSegs {}

theorem snapClone_owned {floor : UInt32} {base : Option Snapshot} {mem : Mem} (o : Owned h S R B)
    (hbase : ∀ b, base = some b → b ∈ S) {ns : Snapshot} (hclone : h.snapClone floor base mem = some (ns, h')) :
    Owned h' S (ns.ring :: R) (ns.bufs ++ B) ∧ Keeps h h' S R B ∧ Cloned floor base ns h h' ∧
      ∀ x, valOf h'.bufs x = valOf h.bufs x := by
  unfold Heap.snapClone at hclone
  split at hclone
  · cases hclone
  cases base with
  | none =>
    simp only [] at hclone
    split at hclone
    · cases hclone
    obtain ⟨rfl, rfl⟩ := Prod.mk.inj (Option.some.inj hclone)
    have o' : Owned h S R (segBufs (replicate hlsMaxSegs {}) ++ B) := o
    obtain ⟨o1, k1⟩ := ringAlloc_owned o'
    refine ⟨o1, k1, ⟨rfl, ?_⟩, fun _ => rfl⟩
    rw [Heap.segs, valOf_alloc, if_pos rfl]
    rfl
  | some b =>
    obtain ⟨rfl, rfl⟩ := Prod.mk.inj (Option.some.inj hclone)
    have hmem := hbase b rfl
    have hring : 0 < ringRefs S R b.ring :=
      Nat.lt_of_lt_of_le (count_pos_iff.2 (mem_map.2 ⟨b, hmem, rfl⟩)) (Nat.le_add_right _ _)
    have hbuf : ∀ {h : Heap} {B : List Nat} {x : Nat}, x ∈ b.bufs → 0 < bufRefs h S B x := by
      intro h B x hx
      have hpos := count_pos_iff.2 (mem_flatMap.2 ⟨b, hmem, hx⟩)
      rw [bufRefs]
      omega
    obtain ⟨o1, k1⟩ := ringRef_owned o hring
    obtain ⟨o2, k2⟩ := bufRef_owned o1 (x := b.liveData) fun y hy =>
      hbuf (by rw [Snapshot.bufs, hy]; exact mem_append_left _ (mem_singleton.2 rfl))
    obtain ⟨o3, k3⟩ := bufRef_owned o2 (x := b.initData) fun y hy =>
      hbuf (by rw [Snapshot.bufs, hy]; exact mem_append_right _ (mem_singleton.2 rfl))
    refine ⟨o3.congr (fun _ => rfl) fun x => ?_, ?_, ⟨rfl, fun r => ?_⟩, fun x => ?_⟩
    · simp only [Snapshot.bufs, count_append]
      omega
    · exact (k1.trans k2.tail).trans (k3.tail.loose (subset_append_right _ _))
    · apply segs_eq_of_valOf
      rw [bufRef_rings, bufRef_rings]
      exact valOf_incRef _ _ _
    · rw [valOf_bufRef, valOf_bufRef]
      rfl

end

end DvbIpiTools.Dipixy
