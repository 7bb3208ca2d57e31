import DvbIpiTools.Dipixy.SegGood

set_option autoImplicit false

/-! # Runs of the segment store

In every run each published snapshot is in order, and shows the same until it is freed. `StoreInv` is kept by every
event: the references count who owns what (`Owned`), every live snapshot is `Good`, and no two stores have the same
buffer in progress, so that a call may write into its own and what the others show stays. -/

namespace DvbIpiTools.Dipixy

open RefCount List Option

/-- For a snapshot that was published: how many segments its store may have, and whether the store has been fed
    with whole segments and with parts since it was last empty. -/
structure PubInfo where
  maxSegs : Nat := 0
  whole : Bool := false
  parts : Bool := false

/-- A run of the stores, with this of every snapshot. -/
structure SegRun (K : Type) where
  st : SegStore K
  pubs : List PubInfo

/-- The snapshots that are not freed yet. -/
def SegStore.live {K : Type} (st : SegStore K) : List Snapshot := (st.snaps.filter SnapCell.live).map SnapCell.snap

namespace SegRun

variable {K : Type} [DecidableEq K]

def maxSegs (R : SegRun K) (i : Nat) : Nat := ((R.st.slots[i]?).map Store.maxSegs).getD 0

/-- For the published snapshot of a slot. -/
def info (R : SegRun K) (i : Nat) : PubInfo :=
  (((R.st.slots[i]?).bind Store.snap).bind fun id => R.pubs[id]?).getD {}

/-- For the snapshot that an event publishes. -/
def newInfo (R : SegRun K) : StoreEvent K → PubInfo
  | .call key _ c =>
    match R.st.find key with
    | none => {}
    | some i => ⟨R.maxSegs i, c.fedWhole (R.info i).whole, c.fedParts (R.info i).parts⟩
  | .sync dst _ _ =>
    match R.st.find dst with
    | none => {}
    | some i => ⟨R.maxSegs i, false, false⟩
  | _ => {}

def step (R : SegRun K) (ev : StoreEvent K) : SegRun K where
  st := R.st.step ev
  pubs := if (R.st.step ev).snaps.length = R.st.snaps.length then R.pubs else R.pubs ++ [R.newInfo ev]

def run (R : SegRun K) (evs : List (StoreEvent K)) : SegRun K := evs.foldl step R

end SegRun

/-- The states that the stores get to, from an empty table and by any events. -/
inductive SegReach {K : Type} [DecidableEq K] : SegRun K → Prop
  | init (maxChannels : Nat) : SegReach ⟨SegStore.init maxChannels, []⟩
  | step {R : SegRun K} (h : SegReach R) (ev : StoreEvent K) : SegReach (R.step ev)

section

variable {K : Type}

/-- The published snapshot of a slot. -/
structure Current (R : SegRun K) (s : Store K) (id : Nat) (c : SnapCell) (f : PubInfo) : Prop where
  cell : R.st.snaps[id]? = some c
  pub : R.pubs[id]? = some f
  live : c.live = true
  opened : s.state = .opened
  maxSegs : f.maxSegs = s.maxSegs
  front : bufLen (R.st.heap.shows c.snap).live = c.snap.liveLen

/-- The invariant of every run. -/
structure StoreInv (R : SegRun K) : Prop where
  pubs : R.pubs.length = R.st.snaps.length
  owned : Owned R.st.heap R.st.live [] []
  snaps : ∀ (id : Nat) (c : SnapCell) (f : PubInfo), R.st.snaps[id]? = some c → R.pubs[id]? = some f →
    c.live = true → RingOk R.st.heap c.snap ∧ Good f.maxSegs c.snap (R.st.heap.shows c.snap) ∧
      Fed f.whole f.parts c.snap (R.st.heap.shows c.snap)
  slots : ∀ (i : Nat) (s : Store K), R.st.slots[i]? = some s → s.state = .opened →
    0 < s.maxSegs ∧ s.maxSegs ≤ hlsMaxSegs
  current : ∀ (i : Nat) (s : Store K) (id : Nat), R.st.slots[i]? = some s → s.snap = some id →
    ∃ c f, Current R s id c f
  distinct : ∀ (i j : Nat) (c d : Snapshot) (x : Nat), R.st.current i = some c → R.st.current j = some d →
    c.liveData = some x → d.liveData = some x → i = j

variable {i : Nat}

theorem getElem?_modify_cases {α : Type} {l : List α} {j : Nat} {f : α → α} {b : α}
    (hb : (l.modify i f)[j]? = some b) : j = i ∧ (∃ a, l[j]? = some a ∧ b = f a) ∨ j ≠ i ∧ l[j]? = some b := by
  rw [getElem?_modify] at hb
  obtain ⟨a, ha, rfl⟩ := map_eq_some_iff.1 hb
  by_cases hij : i = j
  · rw [if_pos hij]
    exact .inl ⟨hij.symm, a, ha, rfl⟩
  · rw [if_neg hij]
    exact .inr ⟨Ne.symm hij, ha⟩

theorem Owned.perm {h : Heap} {S S' : List Snapshot} {R B : List Nat} (o : Owned h S R B) (hperm : S.Perm S') :
    Owned h S' R B := by
  refine o.congr (fun r => ?_) fun x => ?_
  · rw [ringRefs, ringRefs, (hperm.map Snapshot.ring).count_eq]
  · rw [(hperm.flatMap_right Snapshot.bufs).count_eq]

variable {st : SegStore K} {id : Nat} {c : SnapCell}

theorem mem_live (hc : st.snaps[id]? = some c) (hlive : c.live = true) : c.snap ∈ st.live :=
  mem_map.2 ⟨c, mem_filter.2 ⟨mem_of_getElem? hc, hlive⟩, rfl⟩

variable {R : SegRun K}

theorem current_eq (h : StoreInv R) {b : Snapshot} (hb : R.st.current i = some b) :
    ∃ s id c f, R.st.slots[i]? = some s ∧ s.snap = some id ∧ Current R s id c f ∧ c.snap = b := by
  obtain ⟨id, hid, hsnap⟩ := bind_eq_some_iff.1 hb
  obtain ⟨s, hs, hsid⟩ := bind_eq_some_iff.1 hid
  obtain ⟨c, f, hcur⟩ := h.current i s id hs hsid
  refine ⟨s, id, c, f, hs, hsid, hcur, ?_⟩
  rw [hcur.cell] at hsnap
  exact some.inj hsnap

variable {s : Store K}

theorem current_of (hs : R.st.slots[i]? = some s)
    (hid : s.snap = some id) (hc : R.st.snaps[id]? = some c) : R.st.current i = some c.snap := by
  rw [SegStore.current, hs, bind_some, hid, bind_some, hc]
  rfl

/-! ## Calls -/

variable {heap : Heap}

/-- A call that publishes nothing and changes nothing that is shown. -/
theorem StoreInv.keep (h : StoreInv R) (o : Owned heap R.st.live [] [])
    (k : Keeps R.st.heap heap R.st.live [] []) : StoreInv ⟨{ R.st with heap }, R.pubs⟩ := by
  have hshows : ∀ {id : Nat} {c : SnapCell}, R.st.snaps[id]? = some c → c.live = true →
      heap.shows c.snap = R.st.heap.shows c.snap := fun hc hl => k.shows (mem_live hc hl)
  refine ⟨h.pubs, o, fun id c f hc hf hl => ?_, h.slots, fun i s id hs hid => ?_, h.distinct⟩
  · obtain ⟨hok, hgood, hfed⟩ := h.snaps id c f hc hf hl
    have hsame : heap.shows c.snap = R.st.heap.shows c.snap := hshows hc hl
    refine ⟨k.ringOk (mem_live hc hl) hok, ?_, ?_⟩
    · show Good f.maxSegs c.snap (heap.shows c.snap)
      rw [hsame]
      exact hgood
    · show Fed f.whole f.parts c.snap (heap.shows c.snap)
      rw [hsame]
      exact hfed
  · obtain ⟨c, f, hcur⟩ := h.current i s id hs hid
    refine ⟨c, f, hcur.cell, hcur.pub, hcur.live, hcur.opened, hcur.maxSegs, ?_⟩
    rw [hshows hcur.cell hcur.live]
    exact hcur.front

variable {f : PubInfo}

theorem finish_slot (hs : R.st.slots[i]? = some s) {ns : Snapshot} {j : Nat} {t : Store K}
    (ht : (R.st.finish i (.publish ns, heap)).slots[j]? = some t) :
    j = i ∧ t = { s with snap := some R.st.snaps.length } ∨ j ≠ i ∧ R.st.slots[j]? = some t := by
  rcases getElem?_modify_cases ht with ⟨rfl, s', hs', rfl⟩ | hother
  · obtain rfl := some.inj (hs.symm.trans hs')
    exact .inl ⟨rfl, rfl⟩
  · exact .inr hother

theorem cell_cases {cells : List SnapCell} {new : SnapCell} (hc : (cells ++ [new])[id]? = some c) :
    id < cells.length ∧ cells[id]? = some c ∨ id = cells.length ∧ c = new := by
  rw [getElem?_append] at hc
  split at hc
  · next hlt => exact .inl ⟨hlt, hc⟩
  rename_i hge
  have hid := (List.getElem?_eq_some_iff.1 hc).1
  rw [length_singleton] at hid
  have heq : id = cells.length := by omega
  rw [heq, Nat.sub_self] at hc
  exact .inr ⟨heq, (some.inj hc).symm⟩

theorem StoreInv.publish_current (h : StoreInv R) (hs : R.st.slots[i]? = some s) {ns b : Snapshot} {j : Nat}
    (hb : (R.st.finish i (.publish ns, heap)).current j = some b) :
    j = i ∧ b = ns ∨ j ≠ i ∧ R.st.current j = some b := by
  obtain ⟨id, hid, hsnap⟩ := bind_eq_some_iff.1 hb
  obtain ⟨t, ht, htid⟩ := bind_eq_some_iff.1 hid
  obtain ⟨c, hc, rfl⟩ := map_eq_some_iff.1 hsnap
  rcases finish_slot hs ht with ⟨rfl, rfl⟩ | ⟨hne, ht⟩
  · obtain rfl : R.st.snaps.length = id := some.inj htid
    rcases cell_cases hc with ⟨hlt, -⟩ | ⟨-, rfl⟩
    · omega
    · exact .inl ⟨rfl, rfl⟩
  · obtain ⟨c', f', hcurrent⟩ := h.current j t id ht htid
    rcases cell_cases hc with ⟨-, hold⟩ | ⟨heq, -⟩
    · exact .inr ⟨hne, current_of ht htid hold⟩
    · have hlt := (List.getElem?_eq_some_iff.1 hcurrent.cell).1
      omega

/-- The buffer of another store's segment in progress is another one, so that its bytes stay. -/
theorem StoreInv.front_kept (h : StoreInv R) {b : Snapshot} {j : Nat} (hne : j ≠ i) (hb : R.st.current j = some b)
    (hmem : b ∈ R.st.live) (g : Grows R.st.heap heap R.st.live ((R.st.current i).bind Snapshot.liveData)) :
    (heap.shows b).live = (R.st.heap.shows b).live := by
  show b.liveData.bind _ = b.liveData.bind _
  cases hx : b.liveData with
  | none => rfl
  | some x =>
    refine g.bufs x (reach_of_mem hmem (.inl ?_)) fun hw => ?_
    · rw [Snapshot.bufs, hx]
      exact mem_append_left _ (mem_singleton.2 rfl)
    · obtain ⟨d, hd, hdx⟩ := bind_eq_some_iff.1 hw
      exact hne (h.distinct j i b d x hb hd hx hdx)

/-- What a published snapshot has in progress no other store has. -/
theorem StoreInv.sole (h : StoreInv R) {ns d : Snapshot} {j x : Nat}
    (hown : LiveOwn R.st.heap R.st.live ((R.st.current i).bind Snapshot.liveData) ns) (hne : j ≠ i)
    (hd : R.st.current j = some d) (hx : ns.liveData = some x) (hdx : d.liveData = some x) : False := by
  obtain ⟨t, id, c, f, ht, hid, hcurrent, rfl⟩ := current_eq h hd
  rcases hown x hx with hold | hfresh
  · obtain ⟨b, hb, hbx⟩ := bind_eq_some_iff.1 hold
    exact hne (h.distinct j i c.snap b x hd hb hdx hbx)
  · refine hfresh (reach_of_mem (mem_live hcurrent.cell hcurrent.live) (.inl ?_))
    rw [Snapshot.bufs, hdx]
    exact mem_append_left _ (mem_singleton.2 rfl)

theorem StoreInv.publish_distinct (h : StoreInv R) (hs : R.st.slots[i]? = some s) {ns : Snapshot}
    (hown : LiveOwn R.st.heap R.st.live ((R.st.current i).bind Snapshot.liveData) ns) (j k : Nat) (c d : Snapshot)
    (x : Nat) (hc : (R.st.finish i (.publish ns, heap)).current j = some c)
    (hd : (R.st.finish i (.publish ns, heap)).current k = some d) (hcx : c.liveData = some x)
    (hdx : d.liveData = some x) : j = k := by
  rcases h.publish_current hs hc with ⟨hj, hc'⟩ | ⟨hj, hc'⟩
  · rcases h.publish_current hs hd with ⟨hk, -⟩ | ⟨hk, hd'⟩
    · exact hj.trans hk.symm
    · exact (h.sole hown hk hd' (hc' ▸ hcx) hdx).elim
  · rcases h.publish_current hs hd with ⟨-, hd'⟩ | ⟨hk, hd'⟩
    · exact (h.sole hown hj hc' (hd' ▸ hdx) hcx).elim
    · exact h.distinct j k c d x hc' hd' hcx hdx

/-- A call that publishes a snapshot leaves the other stores as they were. -/
theorem StoreInv.publish (h : StoreInv R) (hs : R.st.slots[i]? = some s) (hopen : s.state = .opened)
    {ns : Snapshot} (hmax : f.maxSegs = s.maxSegs) (o : Owned heap (ns :: R.st.live) [] [])
    (g : Grows R.st.heap heap R.st.live ((R.st.current i).bind Snapshot.liveData)) (hok : RingOk heap ns)
    (hsound : Sound s.maxSegs f.whole f.parts ns (heap.shows ns))
    (hown : LiveOwn R.st.heap R.st.live ((R.st.current i).bind Snapshot.liveData) ns) :
    StoreInv ⟨R.st.finish i (.publish ns, heap), R.pubs ++ [f]⟩ := by
  have hlive : (R.st.finish i (.publish ns, heap)).live = R.st.live ++ [ns] := by
    show ((R.st.snaps ++ [(⟨ns, true⟩ : SnapCell)]).filter SnapCell.live).map SnapCell.snap = _
    rw [filter_append, map_append]
    rfl
  refine ⟨?_, ?_, fun id c f' hc hf hl => ?_, fun j t ht hop => ?_, fun j t id ht hid => ?_, h.publish_distinct hs hown⟩
  · show (R.pubs ++ [f]).length = (R.st.snaps ++ [(⟨ns, true⟩ : SnapCell)]).length
    rw [length_append, length_append, h.pubs]
    rfl
  · rw [hlive]
    exact o.perm (perm_append_singleton ns R.st.live).symm
  · have hc : (R.st.snaps ++ [⟨ns, true⟩])[id]? = some c := hc
    rcases cell_cases hc with ⟨hlt, hold⟩ | ⟨rfl, rfl⟩
    · rw [getElem?_append_left (by rw [h.pubs]; exact hlt)] at hf
      obtain ⟨hring, hgood, hfed⟩ := h.snaps id c f' hold hf hl
      have hmem := mem_live hold hl
      exact ⟨g.ringOk hmem hring, hgood.le (g.shows hmem), hfed.le (g.shows hmem)⟩
    · rw [getElem?_append_right (by rw [h.pubs]), h.pubs, Nat.sub_self] at hf
      obtain rfl : f = f' := some.inj hf
      refine ⟨hok, ?_, hsound.fed⟩
      rw [hmax]
      exact hsound.good
  · rcases finish_slot hs ht with ⟨rfl, rfl⟩ | ⟨-, ht⟩
    · exact h.slots j s hs hopen
    · exact h.slots j t ht hop
  · rcases finish_slot hs ht with ⟨rfl, rfl⟩ | ⟨hne, ht⟩
    · obtain rfl : R.st.snaps.length = id := some.inj hid
      refine ⟨⟨ns, true⟩, f, getElem?_concat_length, ?_, rfl, hopen, hmax, hsound.front⟩
      rw [← h.pubs]
      exact getElem?_concat_length
    obtain ⟨c, f', hcurrent⟩ := h.current j t id ht hid
    have hlt := (List.getElem?_eq_some_iff.1 hcurrent.cell).1
    have hmem := mem_live hcurrent.cell hcurrent.live
    refine ⟨c, f', ?_, ?_, hcurrent.live, hcurrent.opened, hcurrent.maxSegs, ?_⟩
    · exact (getElem?_append_left hlt).trans hcurrent.cell
    · exact (getElem?_append_left (by rw [h.pubs]; exact hlt)).trans hcurrent.pub
    · show bufLen (heap.shows c.snap).live = _
      rw [h.front_kept hne (current_of ht hid hcurrent.cell) hmem g]
      exact hcurrent.front

variable [DecidableEq K] {key : K}

theorem find_spec (h : st.find key = some i) : ∃ s, st.slots[i]? = some s ∧ s.state = .opened ∧ s.key = some key := by
  obtain ⟨hlt, hp, -⟩ := findIdx?_eq_some_iff_getElem.1 h
  exact ⟨st.slots[i], getElem?_eq_getElem hlt, by simpa using hp⟩

omit [DecidableEq K] in
theorem basis_liveData (st : SegStore K) (i : Nat) (h : Heap) :
    (basis (st.view i) h).1.liveData = (st.current i).bind Snapshot.liveData := by
  unfold basis SegStore.view
  cases st.current i <;> rfl

omit [DecidableEq K] in
theorem StoreInv.finish (h : StoreInv R) (hs : R.st.slots[i]? = some s)
    (hopen : s.state = .opened) (hmax : f.maxSegs = s.maxSegs) {r : Outcome × Heap}
    (hr : Called R.st.heap R.st.live ((R.st.current i).bind Snapshot.liveData) (fun ns sh =>
      Sound s.maxSegs f.whole f.parts ns sh ∧
        LiveOwn R.st.heap R.st.live ((R.st.current i).bind Snapshot.liveData) ns) r) :
    StoreInv ⟨R.st.finish i r,
      if (R.st.finish i r).snaps.length = R.st.snaps.length then R.pubs else R.pubs ++ [f]⟩ := by
  obtain ⟨out, heap⟩ := r
  cases out with
  | fail =>
    have hpubs : (if (R.st.finish i (.fail, heap)).snaps.length = R.st.snaps.length then R.pubs else R.pubs ++ [f]) =
        R.pubs := if_pos rfl
    rw [hpubs]
    exact h.keep hr.1 hr.2
  | keep =>
    obtain rfl : heap = R.st.heap := hr
    have hpubs : (if (R.st.finish i (.keep, R.st.heap)).snaps.length = R.st.snaps.length then R.pubs
        else R.pubs ++ [f]) = R.pubs := if_pos rfl
    rw [hpubs]
    exact h
  | publish ns =>
    have hlen : (R.st.finish i (.publish ns, heap)).snaps.length = R.st.snaps.length + 1 :=
      length_append.trans rfl
    rw [if_neg (by omega)]
    obtain ⟨o, g, hok, hsound, hown⟩ := hr
    exact h.publish hs hopen hmax o g hok hsound hown

theorem call_called (h : StoreInv R) (hfind : R.st.find key = some i) (mem : Mem) (c : StoreCall) :
    Called R.st.heap R.st.live ((R.st.current i).bind Snapshot.liveData) (fun ns sh =>
      Sound (R.maxSegs i) (c.fedWhole (R.info i).whole) (c.fedParts (R.info i).parts) ns sh ∧
        LiveOwn R.st.heap R.st.live ((R.st.current i).bind Snapshot.liveData) ns ∧
        Numbered c (basis (R.st.view i) R.st.heap).1 ns)
      (R.st.heap.call (R.st.view i) mem c) := by
  obtain ⟨s, hs, hopen, -⟩ := find_spec hfind
  have hview : (R.st.view i).maxSegs = R.maxSegs i := rfl
  have hmax : R.maxSegs i = s.maxSegs := by
    rw [SegRun.maxSegs, hs]
    rfl
  obtain ⟨hpos, hle⟩ := h.slots i s hs hopen
  have hspec := @call_spec (R.info i).whole (R.info i).parts _ _ (R.st.view i) h.owned
    (fun b hb => by
      obtain ⟨s', id, c', f, hs', hid, hcur, rfl⟩ := current_eq h hb
      obtain rfl := some.inj (hs.symm.trans hs')
      have hinfo : R.info i = f := by
        rw [SegRun.info, hs, bind_some, hid, bind_some, hcur.pub]
        rfl
      obtain ⟨hok, hgood, hfed⟩ := h.snaps id c' f hcur.cell hcur.pub hcur.live
      rw [hcur.maxSegs] at hgood
      rw [hview, hmax, hinfo]
      exact ⟨mem_live hcur.cell hcur.live, hok, hgood, hfed, hcur.front⟩)
    (by rw [hview, hmax]; exact hpos) (by rw [hview, hmax]; exact hle) mem c
  rw [basis_liveData, hview] at hspec
  exact hspec

theorem call_inv (h : StoreInv R) (key : K) (mem : Mem) (c : StoreCall) : StoreInv (R.step (.call key mem c)) := by
  rw [SegRun.step, SegStore.step, SegStore.call, SegRun.newInfo]
  cases hfind : R.st.find key with
  | none =>
    simp only []
    exact h
  | some i =>
    obtain ⟨s, hs, hopen, -⟩ := find_spec hfind
    have hmax : R.maxSegs i = s.maxSegs := by
      rw [SegRun.maxSegs, hs]
      rfl
    have hspec := (call_called h hfind mem c).mono fun ns sh hns => And.intro hns.1 hns.2.1
    rw [hmax] at hspec
    exact h.finish hs hopen (f := ⟨R.maxSegs i, c.fedWhole (R.info i).whole, c.fedParts (R.info i).parts⟩) hmax hspec

omit [DecidableEq K] in
theorem sync_called_at (h : StoreInv R) (i : Nat) (mem : Mem) (cur : Option Snapshot) :
    Called R.st.heap R.st.live ((R.st.current i).bind Snapshot.liveData) (fun ns sh =>
      Sound (R.maxSegs i) false false ns sh ∧ LiveOwn R.st.heap R.st.live ((R.st.current i).bind Snapshot.liveData) ns)
      (R.st.heap.sync (R.st.view i) mem cur) := by
  have hspec := @sync_called _ _ (R.st.view i) mem h.owned cur
  generalize R.st.heap.sync (R.st.view i) mem cur = r at hspec
  obtain ⟨out, heap⟩ := r
  cases out with
  | fail => exact hspec
  | keep => exact hspec
  | publish ns =>
    obtain ⟨o, g, hok, r, rfl, hshows⟩ := hspec
    refine ⟨o, ⟨g.segs, fun x hx _ => g.bufs x hx nofun, fun x _ hx => g.bufLe hx⟩, hok, ?_, fun x hx => ?_⟩
    · rw [hshows]
      exact (synced_sound _ _ _).withRing r
    · exfalso
      revert hx
      cases cur <;> cases (R.st.view i).old <;> exact nofun

theorem sync_inv (h : StoreInv R) (dst src : K) (mem : Mem) : StoreInv (R.step (.sync dst src mem)) := by
  rw [SegRun.step, SegStore.step, SegStore.sync, SegRun.newInfo]
  cases hdst : R.st.find dst with
  | none =>
    simp only []
    exact h
  | some i =>
    cases hsrc : R.st.find src with
    | none =>
      simp only []
      exact h
    | some j =>
      obtain ⟨s, hs, hopen, -⟩ := find_spec hdst
      have hmax : R.maxSegs i = s.maxSegs := by
        rw [SegRun.maxSegs, hs]
        rfl
      have hspec := sync_called_at h i mem (R.st.current j)
      rw [hmax] at hspec
      exact h.finish hs hopen (f := ⟨R.maxSegs i, false, false⟩) hmax hspec

/-! ## The life of a store -/

omit [DecidableEq K] in
/-- A change of the table of stores that publishes no snapshot. -/
theorem StoreInv.table (h : StoreInv R) {slots : List (Store K)} {floor : UInt32}
    (hslots : ∀ (j : Nat) (t : Store K), slots[j]? = some t → (t.state = .opened → 0 < t.maxSegs ∧ t.maxSegs ≤ hlsMaxSegs) ∧ (t.snap = none ∨ R.st.slots[j]? = some t)) :
    StoreInv ⟨{ R.st with slots, floor }, R.pubs⟩ := by
  have hcurrent : ∀ j b, ({ R.st with slots, floor } : SegStore K).current j = some b → R.st.current j = some b := by
    intro j b hb
    rw [SegStore.current] at hb ⊢
    obtain ⟨id, hid, hsnap⟩ := bind_eq_some_iff.1 hb
    obtain ⟨t, ht, htid⟩ := bind_eq_some_iff.1 hid
    rcases (hslots j t ht).2 with hnone | hsame
    · exact nomatch hnone.symm.trans htid
    · rw [hsame, bind_some, htid]
      exact hsnap
  refine ⟨h.pubs, h.owned, h.snaps, fun j t ht => (hslots j t ht).1, fun j t id ht hid => ?_,
    fun j k c d x hc hd => h.distinct j k c d x (hcurrent j c hc) (hcurrent k d hd)⟩
  rcases (hslots j t ht).2 with hnone | hsame
  · exact nomatch hnone.symm.trans hid
  · obtain ⟨c, f, hcur⟩ := h.current j t id hsame hid
    exact ⟨c, f, hcur.cell, hcur.pub, hcur.live, hcur.opened, hcur.maxSegs, hcur.front⟩

omit [DecidableEq K] in
theorem clampSegs_spec (n : Nat) : 0 < SegStore.clampSegs n ∧ SegStore.clampSegs n ≤ hlsMaxSegs := by
  simp only [SegStore.clampSegs, hlsMaxSegs]
  split
  · split <;> omega
  · split <;> omega

theorem openStore_inv (h : StoreInv R) (key : K) (maxSegs : Nat) : StoreInv ⟨R.st.openStore key maxSegs, R.pubs⟩ := by
  rw [SegStore.openStore]
  split
  · exact h
  · next i _ =>
    refine h.table fun j t ht => ?_
    rcases getElem?_modify_cases ht with ⟨-, s, -, rfl⟩ | ⟨-, ht⟩
    · exact ⟨fun _ => clampSegs_spec maxSegs, .inl rfl⟩
    · exact ⟨h.slots j t ht, .inr ht⟩

theorem closeStore_inv (h : StoreInv R) (key : K) (alloc : Bool) : StoreInv ⟨R.st.closeStore key alloc, R.pubs⟩ := by
  rw [SegStore.closeStore]
  split
  · exact h
  rename_i i _
  split
  · exact h
  have hslots : ∀ (j : Nat) (t : Store K),
      (R.st.slots.modify i fun s => { s with state := .closing, snap := none })[j]? = some t →
      (t.state = .opened → 0 < t.maxSegs ∧ t.maxSegs ≤ hlsMaxSegs) ∧ (t.snap = none ∨ R.st.slots[j]? = some t) := by
    intro j t ht
    rcases getElem?_modify_cases ht with ⟨-, s, -, rfl⟩ | ⟨-, ht⟩
    · exact ⟨nofun, .inl rfl⟩
    · exact ⟨h.slots j t ht, .inr ht⟩
  cases R.st.current i with
  | none => exact h.table hslots
  | some cur =>
    simp only [SegStore.seqFloorNote]
    split
    · exact h.table hslots
    · exact h.table hslots

omit [DecidableEq K] in
theorem slotFree_inv (h : StoreInv R) (i : Nat) : StoreInv ⟨R.st.slotFree i, R.pubs⟩ := by
  refine h.table fun j t ht => ?_
  rcases getElem?_modify_cases ht with ⟨-, s, hs, rfl⟩ | ⟨-, ht⟩
  · by_cases hclosing : s.state = .closing
    · rw [if_pos hclosing]
      refine ⟨nofun, .inl ?_⟩
      cases hsnap : s.snap with
      | none => rfl
      | some id =>
        obtain ⟨c, f, hcur⟩ := h.current j s id hs hsnap
        exact nomatch hclosing.symm.trans hcur.opened
    · rw [if_neg hclosing]
      exact ⟨h.slots j s hs, .inr hs⟩
  · exact ⟨h.slots j t ht, .inr ht⟩

theorem live_perm {snaps : List SnapCell} {id : Nat} {c : SnapCell} (hc : snaps[id]? = some c) (hlive : c.live = true) :
    ((snaps.filter SnapCell.live).map SnapCell.snap).Perm
      (c.snap :: ((snaps.set id { c with live := false }).filter SnapCell.live).map SnapCell.snap) := by
  induction snaps generalizing id with
  | nil => cases hc
  | cons d snaps ih =>
    cases id with
    | zero =>
      obtain rfl : d = c := some.inj hc
      rw [set_cons_zero, filter_cons_of_pos hlive, filter_cons_of_neg Bool.false_ne_true]
      exact Perm.refl _
    | succ id =>
      have hrest := @ih id hc
      rw [set_cons_succ]
      by_cases hd : d.live = true
      · rw [filter_cons_of_pos hd, filter_cons_of_pos hd, map_cons, map_cons]
        exact (hrest.cons d.snap).trans (List.Perm.swap _ _ _)
      · rw [filter_cons_of_neg hd, filter_cons_of_neg hd]
        exact hrest

omit [DecidableEq K] in
/-- A snapshot that is published no more is freed, and what the others show stays. -/
theorem reclaim_inv (h : StoreInv R) (id : Nat) : StoreInv ⟨R.st.reclaim id, R.pubs⟩ := by
  unfold SegStore.reclaim
  cases hc : R.st.snaps[id]? with
  | none => exact h
  | some c =>
    simp only []
    split
    · next hfree =>
      obtain ⟨hlive, hnot⟩ := hfree
      obtain ⟨o, k⟩ := snapFree_owned (h.owned.perm (live_perm hc hlive))
      have hset : ∀ {j : Nat} {d : SnapCell}, (R.st.snaps.set id { c with live := false })[j]? = some d →
          d.live = true → j ≠ id ∧ R.st.snaps[j]? = some d := by
        intro j d hd hdl
        rw [getElem?_set] at hd
        split at hd
        · next heq =>
          split at hd
          · cases hd
            cases hdl
          · cases hd
        · next hne => exact ⟨Ne.symm hne, hd⟩
      have hmem : ∀ {j : Nat} {d : SnapCell}, (R.st.snaps.set id { c with live := false })[j]? = some d →
          d.live = true → d.snap ∈ ((R.st.snaps.set id { c with live := false }).filter SnapCell.live).map
            SnapCell.snap := fun hd hdl =>
        mem_map.2 ⟨_, mem_filter.2 ⟨mem_of_getElem? hd, hdl⟩, rfl⟩
      have hcurrent : ∀ j b, ({ R.st with
          heap := R.st.heap.snapFree c.snap
          snaps := R.st.snaps.set id { c with live := false } } : SegStore K).current j = some b →
          R.st.current j = some b := by
        intro j b hb
        rw [SegStore.current] at hb ⊢
        obtain ⟨id', hid, hsnap⟩ := bind_eq_some_iff.1 hb
        obtain ⟨t, ht, htid⟩ := bind_eq_some_iff.1 hid
        have hne : id' ≠ id := fun heq => hnot t (mem_of_getElem? ht) (heq ▸ htid)
        rw [getElem?_set_ne (Ne.symm hne)] at hsnap
        rw [ht, bind_some, htid]
        exact hsnap
      refine ⟨?_, o, fun j d f hd hf hdl => ?_, h.slots, fun j t id' ht hid => ?_,
        fun j j' a b x ha hb => h.distinct j j' a b x (hcurrent j a ha) (hcurrent j' b hb)⟩
      · show R.pubs.length = (R.st.snaps.set _ _).length
        rw [length_set]
        exact h.pubs
      · obtain ⟨hok, hgood, hfed⟩ := h.snaps j d f (hset hd hdl).2 hf hdl
        have hsame : (R.st.heap.snapFree c.snap).shows d.snap = R.st.heap.shows d.snap := k.shows (hmem hd hdl)
        refine ⟨k.ringOk (hmem hd hdl) hok, ?_, ?_⟩
        · show Good f.maxSegs d.snap ((R.st.heap.snapFree c.snap).shows d.snap)
          rw [hsame]
          exact hgood
        · show Fed f.whole f.parts d.snap ((R.st.heap.snapFree c.snap).shows d.snap)
          rw [hsame]
          exact hfed
      · obtain ⟨d, f, hcur⟩ := h.current j t id' ht hid
        have hne : id' ≠ id := fun heq => hnot t (mem_of_getElem? ht) (heq ▸ hid)
        have hcell : (R.st.snaps.set id { c with live := false })[id']? = some d :=
          (getElem?_set_ne (Ne.symm hne)).trans hcur.cell
        refine ⟨d, f, hcell, hcur.pub, hcur.live, hcur.opened, hcur.maxSegs, ?_⟩
        rw [k.shows (hmem hcell hcur.live)]
        exact hcur.front
    · exact h

theorem step_inv (h : StoreInv R) (ev : StoreEvent K) : StoreInv (R.step ev) := by
  have hsame : (R.st.step ev).snaps.length = R.st.snaps.length → StoreInv ⟨R.st.step ev, R.pubs⟩ →
      StoreInv (R.step ev) := by
    intro hlen hinv
    rw [SegRun.step, if_pos hlen]
    exact hinv
  cases ev with
  | openStore key maxSegs =>
    refine hsame ?_ (openStore_inv h key maxSegs)
    show (R.st.openStore key maxSegs).snaps.length = _
    rw [SegStore.openStore]
    split <;> rfl
  | closeStore key alloc =>
    refine hsame ?_ (closeStore_inv h key alloc)
    show (R.st.closeStore key alloc).snaps.length = _
    unfold SegStore.closeStore
    split
    · rfl
    split
    · rfl
    · simp only []
      split
      · rfl
      · rw [SegStore.seqFloorNote]
        split <;> rfl
  | call key mem c => exact call_inv h key mem c
  | sync dst src mem => exact sync_inv h dst src mem
  | reclaim id =>
    refine hsame ?_ (reclaim_inv h id)
    show (R.st.reclaim id).snaps.length = _
    unfold SegStore.reclaim
    split
    · rfl
    · split
      · exact length_set
      · rfl
  | slotFree i => exact hsame rfl (slotFree_inv h i)

/-- The invariant holds in every run. -/
theorem SegReach.inv (h : SegReach R) : StoreInv R := by
  induction h with
  | init maxChannels =>
    have hslot : ∀ (i : Nat) (s : Store K),
        (replicate (min (max maxChannels 1) (1024 * 3)) ({} : Store K))[i]? = some s → s = {} :=
      fun i s hs => eq_of_mem_replicate (mem_of_getElem? hs)
    refine ⟨rfl, ⟨fun _ => rfl, fun _ => rfl⟩, nofun, fun i s hs hop => ?_, fun i s id hs hid => ?_,
      fun i j c d x hc => ?_⟩
    · rw [hslot i s hs] at hop
      cases hop
    · rw [hslot i s hs] at hid
      cases hid
    · rw [SegStore.current] at hc
      obtain ⟨id, hid, -⟩ := bind_eq_some_iff.1 hc
      obtain ⟨s, hs, hsid⟩ := bind_eq_some_iff.1 hid
      rw [hslot i s hs] at hsid
      cases hsid
  | step _ ev ih => exact step_inv ih ev

end

end DvbIpiTools.Dipixy
