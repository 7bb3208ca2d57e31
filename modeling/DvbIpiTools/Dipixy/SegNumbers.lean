import DvbIpiTools.Dipixy.SegRuns

set_option autoImplicit false

/-! # The numbers of segments

A store that is opened goes on above `g_seq_floor`, which every store that is closed raises. So the numbers under a
key only go up, as long as nothing else takes a position back: not opening a store that is open, and not taking
over the position of a store that is behind. -/

namespace DvbIpiTools.Dipixy

open List Option Nat

section

variable {K : Type}

/-- The number of the next segment of a slot. -/
def SegStore.position (st : SegStore K) (i : Nat) : UInt32 := ((st.current i).map Snapshot.nextSeq).getD st.floor

/-- A slot with an open store. -/
def SegStore.OpenAt (st : SegStore K) (key : K) (i : Nat) : Prop :=
  ∃ s, st.slots[i]? = some s ∧ s.state = .opened ∧ s.key = some key

/-- The stores go on from where those of the same key were. -/
structure Advances (st st' : SegStore K) : Prop where
  opened : ∀ key i, st'.OpenAt key i → st.OpenAt key i ∧ st.position i ≤ st'.position i ∨
    (∀ j, ¬ st.OpenAt key j) ∧ st.floor ≤ st'.position i
  closed : ∀ key, (∀ j, ¬ st'.OpenAt key j) → (∃ i, st.OpenAt key i ∧ st.position i ≤ st'.floor) ∨
    (∀ j, ¬ st.OpenAt key j) ∧ st.floor ≤ st'.floor

/-- A number that is not given to a segment of the store any more. -/
structure Below (st : SegStore K) (key : K) (q : UInt32) : Prop where
  opened : ∀ i, st.OpenAt key i → q < st.position i
  closed : (∀ i, ¬ st.OpenAt key i) → q < st.floor

variable {st st' : SegStore K} {key : K}

theorem Below.advance {q : UInt32} (h : Below st key q) (ha : Advances st st') : Below st' key q := by
  constructor
  · intro i hi
    rcases ha.opened key i hi with ⟨hold, hle⟩ | ⟨hnone, hle⟩
    · exact UInt32.lt_of_lt_of_le (h.opened i hold) hle
    · exact UInt32.lt_of_lt_of_le (h.closed hnone) hle
  · intro hno
    rcases ha.closed key hno with ⟨i, hold, hle⟩ | ⟨hnone, hle⟩
    · exact UInt32.lt_of_lt_of_le (h.opened i hold) hle
    · exact UInt32.lt_of_lt_of_le (h.closed hnone) hle

theorem Advances.of_same (hopen : ∀ key i, st'.OpenAt key i ↔ st.OpenAt key i)
    (hpos : ∀ key i, st.OpenAt key i → st.position i ≤ st'.position i) (hfloor : st.floor ≤ st'.floor) :
    Advances st st' := by
  refine ⟨fun key i hi => .inl ⟨(hopen key i).1 hi, hpos key i ((hopen key i).1 hi)⟩, fun key hno => .inr ⟨?_, hfloor⟩⟩
  intro j hj
  exact hno j ((hopen key j).2 hj)

theorem Advances.refl (st : SegStore K) : Advances st st :=
  Advances.of_same (fun _ _ => Iff.rfl) (fun _ _ _ => UInt32.le_refl _) (UInt32.le_refl _)

variable {i j : Nat} {f : Store K → Store K}

theorem openAt_modify (hslots : st'.slots = st.slots.modify i f) (hne : j ≠ i) : st'.OpenAt key j ↔ st.OpenAt key j := by
  rw [SegStore.OpenAt, SegStore.OpenAt, hslots, getElem?_modify_ne f st.slots (Ne.symm hne)]

theorem openAt_modify_same
    (hslots : st'.slots = st.slots.modify i f) (hf : ∀ s, (f s).state = s.state ∧ (f s).key = s.key) : st'.OpenAt key j ↔ st.OpenAt key j := by
  by_cases hne : j = i
  · subst hne
    rw [SegStore.OpenAt, SegStore.OpenAt, hslots, getElem?_modify_eq]
    cases st.slots[j]? with
    | none => simp
    | some s => simp [hf s]
  · exact openAt_modify hslots hne

theorem position_congr (hcurrent : st'.current i = st.current i)
    (hfloor : st.floor ≤ st'.floor) : st.position i ≤ st'.position i := by
  rw [SegStore.position, SegStore.position, hcurrent]
  cases st.current i with
  | none => exact hfloor
  | some b => exact UInt32.le_refl _

theorem current_modify (floor : UInt32) (hne : j ≠ i) :
    ({ st with slots := st.slots.modify i f, floor } : SegStore K).current j = st.current j := by
  show (((st.slots.modify i f)[j]?).bind Store.snap).bind _ = _
  rw [getElem?_modify_ne f st.slots (Ne.symm hne)]
  rfl

variable [DecidableEq K]

theorem openAt_find (h : st.find key = some i) : st.OpenAt key i := find_spec h

theorem not_openAt_of_find (h : st.find key = none) (i : Nat) : ¬ st.OpenAt key i := by
  rintro ⟨s, hs, hopen, hkey⟩
  have hnot := findIdx?_eq_none_iff.1 h s (mem_of_getElem? hs)
  simp [hopen, hkey] at hnot

/-- What must hold before a step for the numbers to go on. -/
def SegStore.KeepsPosition (st : SegStore K) : StoreEvent K → Prop
  | .openStore key _ => ∀ i b, st.find key = some i → st.current i = some b → b.nextSeq ≤ st.floor
  | .sync dst src _ => ∀ i j, st.find dst = some i → st.find src = some j → st.position i ≤ st.position j
  | _ => True

/-- Every key has one store. -/
def OneStore (st : SegStore K) : Prop := ∀ key i j, st.OpenAt key i → st.OpenAt key j → i = j

theorem openStore_advances (key : K) (maxSegs : Nat) (hone : OneStore st)
    (hkeep : st.KeepsPosition (.openStore key maxSegs)) :
    Advances st (st.openStore key maxSegs) ∧ OneStore (st.openStore key maxSegs) := by
  rw [SegStore.openStore]
  cases hpick : (st.find key).or (st.slots.findIdx? fun s => s.state = .free) with
  | none => exact ⟨Advances.refl st, hone⟩
  | some i =>
    simp only []
    generalize hst' : ({ st with slots := st.slots.modify i fun _ =>
      ⟨.opened, some key, SegStore.clampSegs maxSegs, none⟩ } : SegStore K) = st'
    have hslots : st'.slots = st.slots.modify i fun _ => ⟨.opened, some key, SegStore.clampSegs maxSegs, none⟩ := by
      rw [← hst']
    have hfloor : st'.floor = st.floor := by rw [← hst']
    have hother : ∀ {k : K} {j : Nat}, j ≠ i → (st'.OpenAt k j ↔ st.OpenAt k j) := openAt_modify hslots
    have hpos : ∀ {j : Nat}, j ≠ i → st.position j ≤ st'.position j := by
      intro j hne
      refine position_congr ?_ (hfloor ▸ UInt32.le_refl _)
      rw [← hst']
      exact current_modify _ hne
    have hnew : st'.position i = st.floor := by
      have hcurrent : st'.current i = none := by
        rw [SegStore.current, hslots, getElem?_modify_eq]
        cases st.slots[i]? <;> rfl
      rw [SegStore.position, hcurrent]
      exact hfloor
    have hkey : ∀ {k : K}, st'.OpenAt k i → k = key := by
      rintro k ⟨s, hs, -, hk⟩
      rw [hslots, getElem?_modify_eq] at hs
      obtain ⟨_, -, rfl⟩ := map_eq_some_iff.1 hs
      exact (some.inj hk).symm
    cases hfind : st.find key with
    | some i' =>
      -- the store is open: it starts again, from the floor
      rw [hfind] at hpick
      obtain rfl : i' = i := some.inj hpick
      have hat := openAt_find hfind
      have hback : st.position i' ≤ st.floor := by
        rw [SegStore.position]
        cases hb : st.current i' with
        | none => exact UInt32.le_refl _
        | some b => exact hkeep i' b hfind hb
      have hsame : ∀ k j, st'.OpenAt k j ↔ st.OpenAt k j := by
        intro k j
        by_cases hne : j = i'
        · subst hne
          constructor
          · intro hk
            rw [hkey hk]
            exact hat
          rintro ⟨s, hs, hopen, hk⟩
          obtain ⟨t, ht, -, hkt⟩ := hat
          obtain rfl := some.inj (hs.symm.trans ht)
          obtain rfl : key = k := some.inj (hkt.symm.trans hk)
          refine ⟨⟨.opened, some key, SegStore.clampSegs maxSegs, none⟩, ?_, rfl, rfl⟩
          rw [hslots, getElem?_modify_eq, hs]
          rfl
        · exact hother hne
      refine ⟨Advances.of_same hsame (fun k j _ => ?_) (hfloor ▸ UInt32.le_refl _), fun k j j' hj hj' =>
        hone k j j' ((hsame k j).1 hj) ((hsame k j').1 hj')⟩
      by_cases hne : j = i'
      · subst hne
        rw [hnew]
        exact hback
      · exact hpos hne
    | none =>
      -- a slot that was free
      rw [hfind] at hpick
      have hfree : ∀ k, ¬ st.OpenAt k i := by
        rintro k ⟨s, hs, hopen, -⟩
        obtain ⟨hlt, hp, -⟩ := findIdx?_eq_some_iff_getElem.1 hpick
        rw [getElem?_eq_getElem hlt] at hs
        rw [some.inj hs] at hp
        simp [hopen] at hp
      have hnone := not_openAt_of_find hfind
      refine ⟨⟨fun k j hj => ?_, fun k hno => .inr ⟨fun j hj => ?_, hfloor ▸ UInt32.le_refl _⟩⟩, fun k j j' hj hj' => ?_⟩
      · by_cases hne : j = i
        · subst hne
          rw [hkey hj, hnew]
          exact .inr ⟨hnone, UInt32.le_refl _⟩
        · exact .inl ⟨(hother hne).1 hj, hpos hne⟩
      · exact hno j ((hother fun (hji : j = i) => hfree k (hji ▸ hj)).2 hj)
      · by_cases hne : j = i
        · subst hne
          by_cases hne' : j' = j
          · exact hne'.symm
          · rw [hkey hj] at hj'
            exact (hnone j' ((hother hne').1 hj')).elim
        · by_cases hne' : j' = i
          · subst hne'
            rw [hkey hj'] at hj
            exact (hnone j ((hother hne).1 hj)).elim
          · exact hone k j j' ((hother hne).1 hj) ((hother hne').1 hj')

theorem closeStore_advances (key : K) (alloc : Bool) (hone : OneStore st) :
    Advances st (st.closeStore key alloc) ∧ OneStore (st.closeStore key alloc) := by
  unfold SegStore.closeStore
  cases hfind : st.find key with
  | none => exact ⟨Advances.refl st, hone⟩
  | some i =>
    cases alloc with
    | false => exact ⟨Advances.refl st, hone⟩
    | true =>
      have hnote : ∀ floor, st.floor ≤ floor → st.position i ≤ floor → Advances st { st with
            slots := st.slots.modify i fun s => { s with state := .closing, snap := none }, floor } ∧
          OneStore ({ st with
            slots := st.slots.modify i fun s => { s with state := .closing, snap := none }, floor } : SegStore K) := by
        intro floor hfloor hpos
        generalize hst' : ({ st with
          slots := st.slots.modify i fun s => { s with state := .closing, snap := none }, floor } : SegStore K) = st'
        have hslots : st'.slots = st.slots.modify i fun s => { s with state := .closing, snap := none } := by rw [← hst']
        have hgone : ∀ k, ¬ st'.OpenAt k i := by
          rintro k ⟨s, hs, hopen, -⟩
          rw [hslots, getElem?_modify_eq] at hs
          obtain ⟨_, -, rfl⟩ := map_eq_some_iff.1 hs
          cases hopen
        have hother : ∀ {k : K} {j : Nat}, st'.OpenAt k j → j ≠ i ∧ st.OpenAt k j := by
          intro k j hj
          have hne : j ≠ i := fun hji => hgone k (hji ▸ hj)
          exact ⟨hne, (openAt_modify hslots hne).1 hj⟩
        refine ⟨⟨fun k j hj => .inl ⟨(hother hj).2, ?_⟩, fun k hno => ?_⟩, fun k j j' hj hj' =>
          hone k j j' (hother hj).2 (hother hj').2⟩
        · rw [← hst']
          exact position_congr (current_modify _ (hother hj).1) hfloor
        rw [show st'.floor = floor by rw [← hst']]
        by_cases hk : st.OpenAt k i
        · exact .inl ⟨i, hk, hpos⟩
        · refine .inr ⟨fun j hj => hno j ((openAt_modify hslots ?_).2 hj), hfloor⟩
          rintro rfl
          exact hk hj
      simp only [Bool.not_true, Bool.false_eq_true, if_false]
      cases hcur : st.current i with
      | none =>
        refine hnote st.floor (UInt32.le_refl _) ?_
        rw [SegStore.position, hcur]
        exact UInt32.le_refl _
      | some b =>
        have hposition : st.position i = b.nextSeq := by
          rw [SegStore.position, hcur]
          rfl
        simp only [SegStore.seqFloorNote]
        by_cases hgt : b.nextSeq > st.floor
        · rw [if_pos hgt]
          exact hnote b.nextSeq (UInt32.le_of_lt hgt) (hposition ▸ UInt32.le_refl _)
        · rw [if_neg hgt]
          exact hnote st.floor (UInt32.le_refl _) (hposition ▸ UInt32.not_lt.1 hgt)

variable {R : SegRun K} {s : Store K}

omit [DecidableEq K] in
theorem finish_current (h : StoreInv R) (hs : R.st.slots[i]? = some s) (ns : Snapshot) (heap : Heap) (j : Nat) :
    (R.st.finish i (.publish ns, heap)).current j = if j = i then some ns else R.st.current j := by
  show (((R.st.slots.modify i fun s => { s with snap := some R.st.snaps.length })[j]?).bind Store.snap).bind
    (fun id => ((R.st.snaps ++ [(⟨ns, true⟩ : SnapCell)])[id]?).map SnapCell.snap) = _
  by_cases hne : j = i
  · subst hne
    rw [if_pos rfl, getElem?_modify_eq, hs]
    show ((R.st.snaps ++ [(⟨ns, true⟩ : SnapCell)])[R.st.snaps.length]?).map SnapCell.snap = _
    rw [getElem?_concat_length]
    rfl
  rw [if_neg hne, getElem?_modify_ne _ _ (Ne.symm hne), SegStore.current]
  cases ht : R.st.slots[j]? with
  | none => rfl
  | some t =>
    rw [bind_some]
    cases hid : t.snap with
    | none => rfl
    | some id =>
      obtain ⟨c, f, hcur⟩ := h.current j t id ht hid
      rw [bind_some, bind_some, getElem?_append_left (List.getElem?_eq_some_iff.1 hcur.cell).1]

omit [DecidableEq K] in
theorem finish_position (h : StoreInv R) (hs : R.st.slots[i]? = some s)
    (ns : Snapshot) (heap : Heap) : (R.st.finish i (.publish ns, heap)).position i = ns.nextSeq := by
  rw [SegStore.position, finish_current h hs, if_pos rfl]
  rfl

omit [DecidableEq K] in
theorem finish_advances (h : StoreInv R) (hat : R.st.OpenAt key i) (hone : OneStore R.st)
    {r : Outcome × Heap} (hr : ∀ ns heap, r = (.publish ns, heap) → R.st.position i ≤ ns.nextSeq) :
    Advances R.st (R.st.finish i r) ∧ OneStore (R.st.finish i r) := by
  obtain ⟨out, heap⟩ := r
  cases out with
  | publish ns =>
    obtain ⟨s, hs, -, -⟩ := hat
    have hsame : ∀ k j, (R.st.finish i (.publish ns, heap)).OpenAt k j ↔ R.st.OpenAt k j := fun k j =>
      openAt_modify_same rfl fun _ => ⟨rfl, rfl⟩
    refine ⟨Advances.of_same hsame (fun k j _ => ?_) (UInt32.le_refl _), fun k j j' hj hj' =>
      hone k j j' ((hsame k j).1 hj) ((hsame k j').1 hj')⟩
    by_cases hne : j = i
    · subst hne
      rw [finish_position h hs]
      exact hr ns heap rfl
    · refine position_congr ?_ (UInt32.le_refl _)
      rw [finish_current h hs, if_neg hne]
  | _ => exact ⟨Advances.of_same (fun _ _ => Iff.rfl) (fun _ _ _ => UInt32.le_refl _) (UInt32.le_refl _), hone⟩

omit [DecidableEq K] in
theorem basis_nextSeq (st : SegStore K) (i : Nat) (h : Heap) : (basis (st.view i) h).1.nextSeq = st.position i := by
  unfold basis SegStore.view SegStore.position
  cases st.current i <;> rfl

omit [DecidableEq K] in
theorem reclaim_current (st : SegStore K) (id j : Nat) : (st.reclaim id).current j = st.current j := by
  unfold SegStore.reclaim
  cases hc : st.snaps[id]? with
  | none => rfl
  | some c =>
    simp only []
    split
    · show ((st.slots[j]?).bind Store.snap).bind
        (fun x => ((st.snaps.set id { c with live := false })[x]?).map SnapCell.snap) = _
      refine congrArg _ (funext fun x => ?_)
      rw [getElem?_set]
      by_cases hx : id = x
      · subst hx
        rw [if_pos rfl, if_pos (List.getElem?_eq_some_iff.1 hc).1, hc]
        rfl
      · rw [if_neg hx]
    · rfl

omit [DecidableEq K] in
theorem reclaim_slots (st : SegStore K) (id : Nat) :
    (st.reclaim id).slots = st.slots ∧ (st.reclaim id).floor = st.floor := by
  unfold SegStore.reclaim
  split
  · exact ⟨rfl, rfl⟩
  · split <;> exact ⟨rfl, rfl⟩

omit [DecidableEq K] in
theorem reclaim_advances (st : SegStore K) (id : Nat) (hone : OneStore st) :
    Advances st (st.reclaim id) ∧ OneStore (st.reclaim id) := by
  obtain ⟨hslots, hfloor⟩ := reclaim_slots st id
  have hsame : ∀ k j, (st.reclaim id).OpenAt k j ↔ st.OpenAt k j := by
    intro k j
    rw [SegStore.OpenAt, SegStore.OpenAt, hslots]
  have hle : st.floor ≤ (st.reclaim id).floor := hfloor ▸ UInt32.le_refl _
  exact ⟨Advances.of_same hsame (fun k j _ => position_congr (reclaim_current st id j) hle) hle,
    fun k j j' hj hj' => hone k j j' ((hsame k j).1 hj) ((hsame k j').1 hj')⟩

omit [DecidableEq K] in
theorem slotFree_advances (st : SegStore K) (i : Nat) (hone : OneStore st) :
    Advances st (st.slotFree i) ∧ OneStore (st.slotFree i) := by
  have hsame : ∀ k j, (st.slotFree i).OpenAt k j ↔ st.OpenAt k j := by
    intro k j
    by_cases hne : j = i
    · subst hne
      rw [SegStore.OpenAt, SegStore.OpenAt, SegStore.slotFree, getElem?_modify_eq]
      cases st.slots[j]? with
      | none => simp
      | some s => by_cases hc : s.state = .closing <;> simp [hc]
    · exact openAt_modify rfl hne
  refine ⟨Advances.of_same hsame (fun k j _ => position_congr ?_ (UInt32.le_refl _)) (UInt32.le_refl _),
    fun k j j' hj hj' => hone k j j' ((hsame k j).1 hj) ((hsame k j').1 hj')⟩
  show (((st.slots.modify i fun s => if s.state = .closing then { s with state := .free } else s)[j]?).bind
    Store.snap).bind _ = _
  by_cases hne : j = i
  · subst hne
    rw [getElem?_modify_eq, SegStore.current]
    cases st.slots[j]? with
    | none => rfl
    | some s => by_cases hc : s.state = .closing <;> simp [hc, SegStore.slotFree]
  · rw [getElem?_modify_ne _ _ (Ne.symm hne)]
    rfl

/-! ## Numbers do not wrap -/

structure Bounded (st : SegStore K) (n : Nat) : Prop where
  floor : st.floor.toNat ≤ n
  next : ∀ i b, st.current i = some b → b.nextSeq.toNat ≤ n

variable {n : Nat}

omit [DecidableEq K] in
theorem Bounded.mono {m : Nat} (h : Bounded st n) (hle : n ≤ m) : Bounded st m :=
  ⟨le_trans h.floor hle, fun i b hb => le_trans (h.next i b hb) hle⟩

omit [DecidableEq K] in
theorem Bounded.position (h : Bounded st n) (i : Nat) : (st.position i).toNat ≤ n := by
  rw [SegStore.position]
  cases hb : st.current i with
  | none => exact h.floor
  | some b => exact h.next i b hb

omit [DecidableEq K] in
theorem Bounded.modify (h : Bounded st n) (i : Nat)
    (hf : ∀ s, (f s).snap = none ∨ (f s).snap = s.snap) {floor : UInt32} (hfloor : floor.toNat ≤ n) :
    Bounded { st with slots := st.slots.modify i f, floor } n := by
  refine ⟨hfloor, fun j b hb => ?_⟩
  by_cases hne : j = i
  · subst hne
    refine h.next j b ?_
    have hb : (((st.slots.modify j f)[j]?).bind Store.snap).bind
      (fun id => (st.snaps[id]?).map SnapCell.snap) = some b := hb
    rw [getElem?_modify_eq] at hb
    rw [SegStore.current]
    cases hs : st.slots[j]? with
    | none =>
      rw [hs] at hb
      cases hb
    | some s =>
      rw [hs] at hb
      rcases hf s with hnone | hsame
      · have hb : ((f s).snap).bind (fun id => (st.snaps[id]?).map SnapCell.snap) = some b := hb
        rw [hnone] at hb
        cases hb
      · have hb : ((f s).snap).bind (fun id => (st.snaps[id]?).map SnapCell.snap) = some b := hb
        rw [hsame] at hb
        exact hb
  · rw [current_modify _ hne] at hb
    exact h.next j b hb

omit [DecidableEq K] in
theorem Bounded.finish (h : StoreInv R) (hb : Bounded R.st n) (hs : R.st.slots[i]? = some s) {r : Outcome × Heap}
    (hr : ∀ ns heap, r = (.publish ns, heap) → ns.nextSeq.toNat ≤ n) : Bounded (R.st.finish i r) n := by
  obtain ⟨out, heap⟩ := r
  cases out with
  | publish ns =>
    refine ⟨hb.floor, fun j b hj => ?_⟩
    rw [finish_current h hs] at hj
    by_cases hne : j = i
    · rw [if_pos hne] at hj
      cases hj
      exact hr ns heap rfl
    · rw [if_neg hne] at hj
      exact hb.next j b hj
  | _ => exact ⟨hb.floor, hb.next⟩

theorem Bounded.openStore (h : Bounded st n) (key : K) (maxSegs : Nat) : Bounded (st.openStore key maxSegs) n := by
  rw [SegStore.openStore]
  split
  · exact h
  · exact h.modify _ (fun _ => .inl rfl) h.floor

theorem Bounded.closeStore (h : Bounded st n) (key : K) (alloc : Bool) : Bounded (st.closeStore key alloc) n := by
  unfold SegStore.closeStore
  split
  · exact h
  rename_i i _
  split
  · exact h
  cases hcur : st.current i with
  | none => exact h.modify i (fun _ => .inl rfl) h.floor
  | some b =>
    simp only [SegStore.seqFloorNote]
    split
    · exact h.modify i (fun _ => .inl rfl) (h.next i b hcur)
    · exact h.modify i (fun _ => .inl rfl) h.floor

/-! ## Runs -/

/-- What a push publishes: the number of the newest segment. -/
def SegStore.issues (st : SegStore K) : StoreEvent K → List (K × UInt32)
  | .call key mem c =>
    match st.find key with
    | none => []
    | some i =>
      match st.heap.call (st.view i) mem c with
      | (.publish ns, heap) =>
        if c.pushes then ((heap.window ns).getLast?.map fun s => (key, s.seq)).toList else []
      | _ => []
  | _ => []

/-- The numbers that a step uses up. -/
def SegStore.uses (st : SegStore K) : StoreEvent K → Nat
  | .call key mem c =>
    match st.find key with
    | none => 0
    | some i =>
      match st.heap.call (st.view i) mem c with
      | (.publish _, _) => c.numbers.toNat
      | _ => 0
  | _ => 0

/-- A run, with the numbers of the segments that were published. -/
structure NumberRun (K : Type) where
  run : SegRun K
  issued : List (K × UInt32)
  used : Nat

def NumberRun.step (R : NumberRun K) (ev : StoreEvent K) : NumberRun K :=
  ⟨R.run.step ev, R.issued ++ R.run.st.issues ev, R.used + R.run.st.uses ev⟩

inductive NumberReach : NumberRun K → Prop
  | init (maxChannels : Nat) : NumberReach ⟨⟨SegStore.init maxChannels, []⟩, [], 0⟩
  | step {R : NumberRun K} (h : NumberReach R) (ev : StoreEvent K) (hkeep : R.run.st.KeepsPosition ev) :
    NumberReach (R.step ev)

theorem Timeline.last_eq {segs : List Seg} {q q' : UInt32} {t t' : UInt64} (h : Timeline q t segs q' t')
    (hne : segs ≠ []) : ∃ a, segs.getLast? = some a ∧ a.seq + 1 = q' := by
  have hpos := length_pos_iff.2 hne
  obtain ⟨a, ha⟩ : ∃ a, segs[segs.length - 1]? = some a := ⟨_, getElem?_eq_getElem (by omega)⟩
  refine ⟨a, getLast?_eq_getElem?.trans ha, ?_⟩
  rw [h.seq_eq ha, h.next_eq, UInt32.add_assoc]
  refine congrArg _ ?_
  show UInt32.ofNat (segs.length - 1) + UInt32.ofNat 1 = _
  rw [← UInt32.ofNat_add, Nat.sub_add_cancel hpos]

/-- What a call publishes goes on with the numbers, and a new segment has the position of its store. -/
theorem call_numbers (h : StoreInv R) (hb : Bounded R.st n)
    (hfind : R.st.find key = some i) {mem : Mem} {c : StoreCall} {ns : Snapshot} {heap : Heap}
    (hcall : R.st.heap.call (R.st.view i) mem c = (.publish ns, heap)) (hn : n + c.numbers.toNat < 2 ^ 32) :
    ns.nextSeq.toNat = (R.st.position i).toNat + c.numbers.toNat ∧
      (c.pushes = true → c.numbers = 1 ∧ ∃ a, (heap.window ns).getLast? = some a ∧ a.seq = R.st.position i) := by
  have hspec := call_called h hfind mem c
  rw [hcall] at hspec
  obtain ⟨-, -, -, hsound, -, hnext, hcount⟩ := hspec
  rw [basis_nextSeq] at hnext
  have hpos := hb.position i
  refine ⟨?_, fun hpush => ?_⟩
  · rw [hnext, UInt32.toNat_add]
    exact mod_eq_of_lt (by omega)
  have hone : c.numbers = 1 := by cases c <;> first | rfl | cases hpush
  obtain ⟨t, ht⟩ := hsound.good.timeline
  have hlen := hsound.good.length
  rw [shows_fst] at ht
  have hne : heap.window ns ≠ [] := by
    rw [← length_pos_iff, ← shows_fst, length_map, hlen]
    exact hcount hpush
  obtain ⟨a, ha, hseq⟩ := ht.last_eq hne
  rw [hnext, hone] at hseq
  exact ⟨hone, a, ha, (UInt32.add_left_inj 1).1 hseq⟩

/-- The numbers that were given out are all below the next ones, and went up. -/
structure NumberInv (R : NumberRun K) : Prop where
  inv : StoreInv R.run
  one : OneStore R.run.st
  bounded : Bounded R.run.st R.used
  below : ∀ p ∈ R.issued, Below R.run.st p.1 p.2
  increasing : R.issued.Pairwise fun a b => a.1 = b.1 → a.2 < b.2

theorem NumberInv.quiet {R : NumberRun K} (h : NumberInv R) {ev : StoreEvent K} (hissues : R.run.st.issues ev = [])
    (hstep : Advances R.run.st (R.run.st.step ev) ∧ OneStore (R.run.st.step ev))
    (hbounded : Bounded (R.run.st.step ev) (R.used + R.run.st.uses ev)) : NumberInv (R.step ev) := by
  have hsame : (R.step ev).issued = R.issued := by
    rw [NumberRun.step, hissues]
    exact append_nil _
  refine ⟨step_inv h.inv ev, hstep.2, hbounded, ?_, ?_⟩
  · rw [hsame]
    exact fun p hp => (h.below p hp).advance hstep.1
  · rw [hsame]
    exact h.increasing

theorem NumberInv.call {R : NumberRun K} (h : NumberInv R) (key : K) (mem : Mem) (c : StoreCall)
    (hused : (R.step (.call key mem c)).used < 2 ^ 32) : NumberInv (R.step (.call key mem c)) := by
  have hstep : R.run.st.step (.call key mem c) = R.run.st.call key mem c := rfl
  cases hfind : R.run.st.find key with
  | none =>
    have hsame : R.run.st.step (.call key mem c) = R.run.st := by rw [hstep, SegStore.call, hfind]
    refine h.quiet ?_ ?_ ?_
    · rw [SegStore.issues, hfind]
    · rw [hsame]
      exact ⟨Advances.refl _, h.one⟩
    · rw [hsame]
      exact h.bounded.mono (le_add_right _ _)
  | some i =>
    have hat := openAt_find hfind
    obtain ⟨s, hs, -, -⟩ := find_spec hfind
    have hfinish : R.run.st.step (.call key mem c) =
        R.run.st.finish i (R.run.st.heap.call (R.run.st.view i) mem c) := by rw [hstep, SegStore.call, hfind]
    obtain ⟨out, heap, hr⟩ : ∃ out heap, R.run.st.heap.call (R.run.st.view i) mem c = (out, heap) := ⟨_, _, rfl⟩
    rw [hr] at hfinish
    have hquiet : out = .fail ∨ out = .keep → NumberInv (R.step (.call key mem c)) := by
      intro hout
      have hnever : ∀ ns heap', (out, heap) ≠ (.publish ns, heap') := by
        intro ns heap' heq
        rcases hout with rfl | rfl <;> cases heq
      refine h.quiet ?_ ?_ ?_
      · rw [SegStore.issues, hfind]
        rcases hout with rfl | rfl <;> simp only [hr]
      · rw [hfinish]
        exact finish_advances h.inv hat h.one fun ns heap' heq => (hnever ns heap' heq).elim
      · rw [hfinish]
        exact Bounded.finish h.inv (h.bounded.mono (le_add_right _ _)) hs fun ns heap' heq =>
          (hnever ns heap' heq).elim
    cases out with
    | fail => exact hquiet (.inl rfl)
    | keep => exact hquiet (.inr rfl)
    | publish ns =>
      have huses : R.run.st.uses (.call key mem c) = c.numbers.toNat := by
        rw [SegStore.uses, hfind]
        simp only [hr]
      have hissues : R.run.st.issues (.call key mem c) =
          if c.pushes then ((heap.window ns).getLast?.map fun s => (key, s.seq)).toList else [] := by
        rw [SegStore.issues, hfind]
        simp only [hr]
      have hn : R.used + c.numbers.toNat < 2 ^ 32 := huses ▸ hused
      obtain ⟨hnext, hpush⟩ := call_numbers h.inv h.bounded hfind hr hn
      have hadv : Advances R.run.st (R.run.st.step (.call key mem c)) ∧ OneStore (R.run.st.step (.call key mem c)) := by
        rw [hfinish]
        refine finish_advances h.inv hat h.one fun ns' heap' heq => ?_
        obtain ⟨rfl, rfl⟩ : ns = ns' ∧ heap = heap' := by simpa using heq
        rw [UInt32.le_iff_toNat_le]
        omega
      have hbounded : Bounded (R.run.st.step (.call key mem c)) (R.used + R.run.st.uses (.call key mem c)) := by
        rw [hfinish, huses]
        refine Bounded.finish h.inv (h.bounded.mono (le_add_right _ _)) hs fun ns' heap' heq => ?_
        obtain ⟨rfl, rfl⟩ : ns = ns' ∧ heap = heap' := by simpa using heq
        have hpos := h.bounded.position i
        omega
      cases hc : c.pushes with
      | false =>
        rw [hc] at hissues
        exact h.quiet hissues hadv hbounded
      | true =>
        -- the new number is the position of the store, above all that were given out under the key
        obtain ⟨hone, a, ha, hseq⟩ := hpush hc
        rw [hc, if_pos rfl, ha] at hissues
        have hissued : (R.step (.call key mem c)).issued = R.issued ++ [(key, R.run.st.position i)] := by
          rw [NumberRun.step, hissues, ← hseq]
          rfl
        have hnew : Below (R.run.st.step (.call key mem c)) key (R.run.st.position i) := by
          have hopen : (R.run.st.step (.call key mem c)).OpenAt key i := by
            rw [hfinish]
            exact (openAt_modify_same (f := fun s => { s with snap := some R.run.st.snaps.length }) rfl
              fun _ => ⟨rfl, rfl⟩).2 hat
          refine ⟨fun j hj => ?_, fun hno => (hno i hopen).elim⟩
          obtain rfl := hadv.2 key j i hj hopen
          rw [hfinish, UInt32.lt_iff_toNat_lt, finish_position h.inv hs, hnext, hone]
          exact lt_succ_self _
        refine ⟨step_inv h.inv _, hadv.2, hbounded, ?_, ?_⟩
        · rw [hissued]
          intro p hp
          rcases mem_append.1 hp with hp | hp
          · exact (h.below p hp).advance hadv.1
          · rw [mem_singleton.1 hp]
            exact hnew
        · rw [hissued, pairwise_append]
          refine ⟨h.increasing, pairwise_singleton _ _, fun p hp q hq hkey => ?_⟩
          obtain rfl := mem_singleton.1 hq
          exact (h.below p hp).opened i (hkey ▸ hat)

theorem NumberInv.sync {R : NumberRun K} (h : NumberInv R) (dst src : K) (mem : Mem)
    (hkeep : R.run.st.KeepsPosition (.sync dst src mem)) : NumberInv (R.step (.sync dst src mem)) := by
  have hstep : R.run.st.step (.sync dst src mem) = R.run.st.sync dst src mem := rfl
  have hnone : R.run.st.sync dst src mem = R.run.st → NumberInv (R.step (.sync dst src mem)) := by
    intro hsame
    refine h.quiet rfl ?_ ?_
    · rw [hstep, hsame]
      exact ⟨Advances.refl _, h.one⟩
    · rw [hstep, hsame]
      exact h.bounded
  cases hdst : R.run.st.find dst with
  | none => exact hnone (by rw [SegStore.sync, hdst])
  | some i =>
    cases hsrc : R.run.st.find src with
    | none => exact hnone (by rw [SegStore.sync, hdst, hsrc])
    | some j =>
      obtain ⟨s, hs, -, -⟩ := find_spec hdst
      have hfinish : R.run.st.step (.sync dst src mem) =
          R.run.st.finish i (R.run.st.heap.sync (R.run.st.view i) mem (R.run.st.current j)) := by
        rw [hstep, SegStore.sync, hdst, hsrc]
      -- the position of the other store, or the floor if it has none
      have hnext : ∀ ns heap, R.run.st.heap.sync (R.run.st.view i) mem (R.run.st.current j) = (.publish ns, heap) →
          ns.nextSeq = R.run.st.position j := by
        intro ns heap hns
        have hspec := @sync_called _ _ (R.run.st.view i) mem h.inv.owned (R.run.st.current j)
        rw [hns] at hspec
        obtain ⟨-, -, -, r, rfl, -⟩ := hspec
        rw [SegStore.position]
        cases R.run.st.current j <;> cases (R.run.st.view i).old <;> rfl
      refine h.quiet rfl ?_ ?_
      · rw [hfinish]
        refine finish_advances h.inv (openAt_find hdst) h.one fun ns heap hns => ?_
        rw [hnext ns heap hns]
        exact hkeep i j hdst hsrc
      · rw [hfinish]
        refine Bounded.finish h.inv h.bounded hs fun ns heap hns => ?_
        rw [hnext ns heap hns]
        exact h.bounded.position j

theorem NumberInv.step {R : NumberRun K} (h : NumberInv R) (ev : StoreEvent K) (hkeep : R.run.st.KeepsPosition ev)
    (hused : (R.step ev).used < 2 ^ 32) : NumberInv (R.step ev) := by
  cases ev with
  | openStore key maxSegs =>
    exact h.quiet rfl (openStore_advances key maxSegs h.one hkeep) (h.bounded.openStore key maxSegs)
  | closeStore key alloc =>
    exact h.quiet rfl (closeStore_advances key alloc h.one) (h.bounded.closeStore key alloc)
  | call key mem c => exact h.call key mem c hused
  | sync dst src mem => exact h.sync dst src mem hkeep
  | reclaim id =>
    refine h.quiet rfl (reclaim_advances _ id h.one) ⟨?_, fun i b hb => ?_⟩
    · show ((R.run.st.reclaim id).floor).toNat ≤ _
      rw [(reclaim_slots _ id).2]
      exact h.bounded.floor
    · exact h.bounded.next i b ((reclaim_current _ id i).symm.trans hb)
  | slotFree i =>
    refine h.quiet rfl (slotFree_advances _ i h.one) (h.bounded.modify i (fun s => .inr ?_) h.bounded.floor)
    split <;> rfl

theorem NumberReach.inv {R : NumberRun K} (h : NumberReach R) (hused : R.used < 2 ^ 32) : NumberInv R := by
  induction h with
  | init maxChannels =>
    have hnone : ∀ key i, ¬ (SegStore.init maxChannels : SegStore K).OpenAt key i := by
      rintro key i ⟨s, hs, hopen, -⟩
      rw [eq_of_mem_replicate (mem_of_getElem? hs)] at hopen
      cases hopen
    refine ⟨(SegReach.init maxChannels).inv, fun key i j hi => (hnone key i hi).elim, ⟨le_rfl, fun i b hb => ?_⟩,
      nofun, Pairwise.nil⟩
    obtain ⟨id, -, hid⟩ := bind_eq_some_iff.1 hb
    cases hid
  | @step R _ ev hkeep ih =>
    have hle : R.used ≤ (R.step ev).used := le_add_right _ _
    exact (ih (by omega)).step ev hkeep hused

def NumberRun.steps (R : NumberRun K) (evs : List (StoreEvent K)) : NumberRun K := evs.foldl NumberRun.step R

theorem NumberReach.steps {R : NumberRun K} (h : NumberReach R) (evs : List (StoreEvent K))
    (hevs : ∀ ev ∈ evs, ∀ st : SegStore K, st.KeepsPosition ev) : NumberReach (R.steps evs) := by
  induction evs generalizing R with
  | nil => exact h
  | cons ev evs ih => exact ih (h.step ev (hevs ev mem_cons_self _)) fun ev' hev' => hevs ev' (.tail _ hev')

end

end DvbIpiTools.Dipixy
