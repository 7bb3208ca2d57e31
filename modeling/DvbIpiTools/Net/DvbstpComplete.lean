import Mathlib.Algebra.Order.BigOperators.Group.Finset
import DvbIpiTools.Net.DvbstpWire

set_option autoImplicit false

/-! # Completeness of the DVBSTP receiver

The receiver, fed with packets of a few senders in any order, does what an abstract collector does that
keeps for each segment the set of sections it has since the last delivery. -/

namespace DvbIpiTools.Net

open BeUtil Demux List Function Option

/-! ## One slot collecting one segment -/

/-- The slot holds the sections `got` of the segment, and not all of them. -/
structure Collecting (o : Outgoing) (got : Finset Nat) (s : ReasmSlot) : Prop where
  tallied : s.Tallied
  of : s.Of (o.header 0)
  ne_full : got ≠ Finset.range (o.last + 1)
  sec : ∀ i, s.sec i = if i ∈ got then some (sectionBytes o.v6 o.data i) else none
  crc : o.last ∈ got → s.crc = (o.arrival o.last).crc

namespace Collecting

variable {o : Outgoing} {s : ReasmSlot} {got : Finset Nat} (hs : Collecting o got s)

include hs

theorem lastSectionNumber_eq : s.lastSectionNumber = o.last := hs.of.2.2.1

theorem subset : got ⊆ Finset.range (o.last + 1) := by
  intro i hi
  have hsec := hs.sec i
  rw [if_pos hi] at hsec
  rw [Finset.mem_range, ← hs.lastSectionNumber_eq]
  exact Nat.lt_succ_of_le (hs.tallied.le_last hsec)

theorem bytes_eq : s.bytes = ∑ i ∈ got, (sectionBytes o.v6 o.data i).length := by
  rw [hs.tallied.bytes_eq, hs.lastSectionNumber_eq, ← Finset.sum_subset hs.subset]
  · apply Finset.sum_congr rfl
    intro i hi
    rw [hs.sec, if_pos hi, getD_some]
  · intro i _ hi
    rw [hs.sec, if_neg hi]
    rfl

theorem haveCount_eq : s.haveCount = got.card := by
  rw [hs.tallied.haveCount_eq]
  congr 1
  ext i
  rw [ReasmSlot.present, Finset.mem_filter, hs.lastSectionNumber_eq, hs.sec]
  by_cases hi : i ∈ got
  · simp [hi, Finset.mem_range.1 (hs.subset hi)]
  · simp [hi]

omit hs

variable {i : Nat} (hs : Collecting o got s)

include hs

/-- A new section does not exceed the size limit, since the whole segment does not. -/
theorem bytes_le (hi : i ≤ o.last) (hnot : i ∉ got) :
    s.bytes + (sectionBytes o.v6 o.data i).length ≤ dvbstpMaxSegment := by
  have hsub : insert i got ⊆ Finset.range (o.last + 1) :=
    Finset.insert_subset (Finset.mem_range.2 (Nat.lt_succ_of_le hi)) hs.subset
  calc s.bytes + (sectionBytes o.v6 o.data i).length
      = ∑ j ∈ insert i got, (sectionBytes o.v6 o.data j).length := by
        rw [Finset.sum_insert hnot, hs.bytes_eq, add_comm]
    _ ≤ ∑ j ∈ Finset.range (o.last + 1), (sectionBytes o.v6 o.data j).length := Finset.sum_le_sum_of_subset hsub
    _ = o.data.length := by rw [← ReasmSlot.length_flatMap_range, o.flatMap_sections]
    _ ≤ dvbstpMaxSegment := o.data_le

theorem store_sec (i j : Nat) :
    (s.store (o.arrival i)).sec j = if j ∈ insert i got then some (sectionBytes o.v6 o.data j) else none := by
  by_cases hj : j = i
  · subst hj
    rw [if_pos (Finset.mem_insert_self _ _)]
    exact ReasmSlot.store_sec_self s (o.arrival j)
  · rw [ReasmSlot.store_sec_of_ne s (o.arrival i) hj, hs.sec]
    simp only [Finset.mem_insert, hj, false_or]

theorem store_crc (hnot : i ∉ got) (hlast : o.last ∈ insert i got) :
    (s.store (o.arrival i)).crc = (o.arrival o.last).crc := by
  simp only [ReasmSlot.store]
  rcases Finset.mem_insert.1 hlast with hi | hgot
  · subst hi
    split
    · rfl
    · rename_i hnone
      have hsec := hs.sec o.last
      rw [if_neg hnot] at hsec
      have hcrc := hs.tallied.crc_none (by rw [hs.lastSectionNumber_eq]; exact hsec)
      rw [hcrc, not_isSome_iff_eq_none.1 hnone]
  · have hne : i ≠ o.last := fun h => hnot (h ▸ hgot)
    have hnone : (o.arrival i).crc = none := by simp [Outgoing.arrival, hne]
    rw [hnone, if_neg (by simp)]
    exact hs.crc hgot

theorem store_tallied (hi : i ≤ o.last) (hnot : i ∉ got) : (s.store (o.arrival i)).Tallied := by
  have hsec := hs.sec i
  rw [if_neg hnot] at hsec
  refine hs.tallied.store ?_ ?_ hsec (hs.bytes_le hi hnot)
  · rw [hs.lastSectionNumber_eq]
    exact hi
  · intro hcrc
    rw [hs.lastSectionNumber_eq]
    show i = o.last
    by_contra hne
    simp [Outgoing.arrival, hne] at hcrc

theorem collect_full (hi : i ≤ o.last) (hfull : insert i got = Finset.range (o.last + 1)) :
    s.collect (o.arrival i) = (none, some (o.header i, o.data)) := by
  have hnot : i ∉ got := fun h => hs.ne_full (by rw [← hfull, Finset.insert_eq_of_mem h])
  have hsec := hs.sec i
  rw [if_neg hnot] at hsec
  have hlast := hs.lastSectionNumber_eq
  have hcount : (s.store (o.arrival i)).haveCount = (s.store (o.arrival i)).lastSectionNumber + 1 := by
    show s.haveCount + 1 = s.lastSectionNumber + 1
    rw [hs.haveCount_eq, ← Finset.card_insert_of_notMem hnot, hfull, Finset.card_range, hlast]
  have hdata : (s.store (o.arrival i)).assembled = o.data := by
    have hl : (s.store (o.arrival i)).lastSectionNumber = o.last := hlast
    rw [ReasmSlot.assembled, hl]
    conv_rhs => rw [← o.flatMap_sections]
    apply flatMap_congr
    intro j hj
    rw [hs.store_sec, if_pos (by rw [hfull]; exact Finset.mem_range.2 (mem_range.1 hj)), getD_some]
  have hsize : (s.store (o.arrival i)).totalSegmentSize = o.data.length := hs.of.2.2.2
  have hcrc : (s.store (o.arrival i)).crc.any (fun c => decide (crc32Mpeg o.data ≠ c)) = false := by
    rw [hs.store_crc hnot (by rw [hfull]; exact Finset.self_mem_range_succ _)]
    simp only [Outgoing.arrival]
    split <;> simp
  have hfit : ¬ (s.bytes + (o.arrival i).payload.length > dvbstpMaxSegment) := not_lt.2 (hs.bytes_le hi hnot)
  unfold ReasmSlot.collect
  rw [if_neg (by rw [show (o.arrival i).header.sectionNumber = i from rfl, hsec]; simp), if_neg hfit]
  rw [if_neg (not_not.2 hcount), hdata, if_neg (not_not.2 hsize.symm), hcrc]
  rfl

theorem collect_part (hi : i ≤ o.last) (hpart : insert i got ≠ Finset.range (o.last + 1)) :
    ∃ t, s.collect (o.arrival i) = (some t, none) ∧ Collecting o (insert i got) t := by
  have hsec := hs.sec i
  by_cases hmem : i ∈ got
  · rw [if_pos hmem] at hsec
    refine ⟨s, if_pos ?_, by rwa [Finset.insert_eq_of_mem hmem]⟩
    rw [show (o.arrival i).header.sectionNumber = i from rfl, hsec]
    rfl
  rw [if_neg hmem] at hsec
  have hcount : (s.store (o.arrival i)).haveCount ≠ (s.store (o.arrival i)).lastSectionNumber + 1 := by
    intro hfull
    change s.haveCount + 1 = s.lastSectionNumber + 1 at hfull
    rw [hs.haveCount_eq, ← Finset.card_insert_of_notMem hmem, hs.lastSectionNumber_eq] at hfull
    refine hpart (Finset.eq_of_subset_of_card_le ?_ (by rw [Finset.card_range, hfull]))
    exact Finset.insert_subset (Finset.mem_range.2 (Nat.lt_succ_of_le hi)) hs.subset
  refine ⟨s.store (o.arrival i), ?_, hs.store_tallied hi hmem, hs.of, hpart, hs.store_sec i, hs.store_crc hmem⟩
  have hfit : ¬ (s.bytes + (o.arrival i).payload.length > dvbstpMaxSegment) := not_lt.2 (hs.bytes_le hi hmem)
  unfold ReasmSlot.collect
  rw [if_neg (by rw [show (o.arrival i).header.sectionNumber = i from rfl, hsec]; simp), if_neg hfit]
  exact if_pos hcount

omit hs

theorem reset (o : Outgoing) (i : Nat) : Collecting o ∅ (ReasmSlot.reset (o.header i)) := by
  refine ⟨ReasmSlot.tallied_reset _, ⟨rfl, rfl, rfl, rfl⟩, ?_, ?_, ?_⟩
  · intro h
    have hmem : 0 ∈ Finset.range (o.last + 1) := Finset.mem_range.2 (Nat.succ_pos _)
    rw [← h] at hmem
    cases hmem
  · intro j
    simp [ReasmSlot.reset]
  · intro h
    cases h

end Collecting

/-! ## The abstract collector -/

section Collector

variable {n : Nat} (segs : Fin n → Outgoing)

/-- Section `i` of segment `k` arrives. A complete set is delivered and forgotten. -/
def collectorStep (got : Fin n → Finset Nat) (k : Fin n) (i : Nat) :
    (Fin n → Finset Nat) × Option (Fin n × Nat) :=
  if insert i (got k) = Finset.range ((segs k).last + 1) then (update got k ∅, some (k, i))
  else (update got k (insert i (got k)), none)

/-- The deliveries over a stream of sections, one entry for each section that arrives. -/
def collector (got : Fin n → Finset Nat) : List (Fin n × Nat) → List (Option (Fin n × Nat))
  | [] => []
  | (k, i) :: rest => (collectorStep segs got k i).2 :: collector (collectorStep segs got k i).1 rest

end Collector

namespace Reasm

/-- What `dvbstp_reasm_feed` returns for each packet of a stream. -/
def outputs (r : Reasm) : List (List UInt8) → List (Option (DvbstpHeader × List UInt8))
  | [] => []
  | p :: ps => (r.feed p).2 :: (r.feed p).1.outputs ps

end Reasm

/-- The used slots are those of the segments with sections. -/
structure Collects {n : Nat} (segs : Fin n → Outgoing) (got : Fin n → Finset Nat) (r : Reasm) : Prop where
  slot : ∀ {m s}, r.slots m = some s → m < reasmSlots ∧ ∃ k, got k ≠ ∅ ∧ Collecting (segs k) (got k) s
  found : ∀ {k}, got k ≠ ∅ → ∃ m s, r.slots m = some s ∧ s.key = (segs k).key
  unique : ∀ {m m' s s'}, r.slots m = some s → r.slots m' = some s' → s.key = s'.key → m = m'

namespace Collects

variable {n m : Nat} {segs : Fin n → Outgoing} {got : Fin n → Finset Nat} {r : Reasm} {k : Fin n} (hr : Collects segs got r)

include hr

/-- With distinct keys, a slot with the key of segment `k` is that of `k`. -/
theorem collecting (hkeys : Function.Injective fun k => (segs k).key) {s : ReasmSlot} (hs : r.slots m = some s)
    (hk : s.key = (segs k).key) : m < reasmSlots ∧ got k ≠ ∅ ∧ Collecting (segs k) (got k) s := by
  obtain ⟨hm, k', hne, hc⟩ := hr.slot hs
  have heq : k' = k := hkeys (hc.of.1.symm.trans hk)
  subst heq
  exact ⟨hm, hne, hc⟩

/-- A segment without a slot finds a free one: the used slots belong to other segments, of which there are
fewer than slots. -/
theorem free_some (hn : n ≤ reasmSlots) (hk : got k = ∅) :
    ∃ m, r.free = some m ∧ m < reasmSlots ∧ r.slots m = none := by
  cases hfree : r.free with
  | some m =>
    have hnone := find?_some hfree
    have hmem := mem_of_find?_eq_some hfree
    exact ⟨m, rfl, mem_range.1 hmem, by simpa using hnone⟩
  | none =>
    exfalso
    have hused : ∀ m : Fin reasmSlots, ∃ s, r.slots m = some s := by
      intro m
      have hm := find?_eq_none.1 hfree m (mem_range.2 m.isLt)
      cases hs : r.slots m with
      | none => simp [hs] at hm
      | some s => exact ⟨s, rfl⟩
    choose slotOf hslot using hused
    have howner : ∀ m : Fin reasmSlots, ∃ k', got k' ≠ ∅ ∧ (slotOf m).key = (segs k').key := by
      intro m
      obtain ⟨-, k', hne, hc⟩ := hr.slot (hslot m)
      exact ⟨k', hne, hc.of.1⟩
    choose owner hne hkey using howner
    have hinj : Function.Injective owner := by
      intro a b hab
      apply Fin.ext
      apply hr.unique (hslot a) (hslot b)
      rw [hkey, hkey, hab]
    have hmiss : ∀ m, owner m ≠ k := by
      intro m hm
      exact hne m (by rw [hm, hk])
    have hcard := Finset.card_le_card_of_injOn owner
      (s := Finset.univ)
      (fun m _ => Finset.mem_erase.2 ⟨hmiss m, Finset.mem_univ _⟩) hinj.injOn
    rw [Finset.card_erase_of_mem (Finset.mem_univ k), Finset.card_univ, Finset.card_univ, Fintype.card_fin,
      Fintype.card_fin] at hcard
    have hpos : 0 < n := k.pos
    omega

/-- The chosen slot is the only one that may have the key of segment `k`, and has no other. -/
def Own (segs : Fin n → Outgoing) (r : Reasm) (k : Fin n) (m : Nat) : Prop :=
  (∀ t, r.slots m = some t → t.key = (segs k).key) ∧ ∀ m' t, r.slots m' = some t → t.key = (segs k).key → m' = m

theorem choose_eq (hkeys : Function.Injective fun k => (segs k).key) (hn : n ≤ reasmSlots) (k : Fin n) (i : Nat) :
    ∃ m s, r.choose ((segs k).header i) = (m, s, r.nextEvict) ∧ m < reasmSlots ∧
      Collecting (segs k) (got k) s ∧ Own segs r k m := by
  unfold Reasm.choose
  cases hfind : r.find ((segs k).header i).key with
  | some m =>
    have hany := find?_some hfind
    obtain ⟨s, hs, hkey⟩ := (any_eq_true _ _).mp hany
    have hkey' : s.key = (segs k).key := of_decide_eq_true hkey
    obtain ⟨hm, -, hc⟩ := hr.collecting hkeys hs hkey'
    have hadapt : s.adapt ((segs k).header i) = s := by
      refine if_neg ?_
      simp only [not_or, not_not]
      exact hc.of.2
    refine ⟨m, s, by simp only [hs, map_some, getD_some, hadapt], hm, hc, ?_, ?_⟩
    · intro t ht
      rw [hs] at ht
      rw [← some.inj ht]
      exact hkey'
    · intro m' t ht hkt
      exact hr.unique ht hs (hkt.trans hkey'.symm)
  | none =>
    have hnone : ∀ m t, r.slots m = some t → t.key ≠ (segs k).key := by
      intro m t ht hkt
      obtain ⟨hm, -⟩ := hr.slot ht
      have hnot := find?_eq_none.1 hfind m (mem_range.2 hm)
      exact hnot ((any_eq_true _ _).mpr ⟨t, ht, decide_eq_true hkt⟩)
    have hempty : got k = ∅ := by
      by_contra hne
      obtain ⟨m, s, hs, hkey⟩ := hr.found hne
      exact hnone m s hs hkey
    obtain ⟨m, hfree, hm, hslot⟩ := hr.free_some hn hempty
    refine ⟨m, ReasmSlot.reset ((segs k).header i), by rw [hfree], hm, ?_, ?_, ?_⟩
    · rw [hempty]
      exact Collecting.reset (segs k) i
    · intro t ht
      rw [hslot] at ht
      cases ht
    · intro m' t ht hkt
      exact absurd hkt (hnone m' t ht)

theorem slot_of_ne (hm : Own segs r k m) {m' : Nat} {t : ReasmSlot} (hne : m' ≠ m) (ht : r.slots m' = some t) :
    m' < reasmSlots ∧ ∃ k', k' ≠ k ∧ got k' ≠ ∅ ∧ Collecting (segs k') (got k') t := by
  obtain ⟨hlt, k', hgot, hc⟩ := hr.slot ht
  refine ⟨hlt, k', ?_, hgot, hc⟩
  rintro rfl
  exact hne (hm.2 m' t ht hc.of.1)

variable (hkeys : Function.Injective fun k => (segs k).key)

include hkeys

theorem found_of_ne {k' : Fin n} (hm : Own segs r k m) (hk' : k' ≠ k) (hgot : got k' ≠ ∅) :
    ∃ m' t, m' ≠ m ∧ r.slots m' = some t ∧ t.key = (segs k').key := by
  obtain ⟨m', t, ht, hkt⟩ := hr.found hgot
  refine ⟨m', t, ?_, ht, hkt⟩
  rintro rfl
  exact hk' (hkeys (hkt.symm.trans (hm.1 t ht)))

theorem clear (hm : Own segs r k m) (evict : Nat) :
    Collects segs (update got k ∅) ⟨update r.slots m none, evict⟩ := by
  refine ⟨?_, ?_, ?_⟩
  · intro m' t ht
    simp only [Function.update_apply] at ht
    split at ht
    · cases ht
    · rename_i hne
      obtain ⟨hlt, k', hk', hgot, hc⟩ := hr.slot_of_ne hm hne ht
      exact ⟨hlt, k', by rwa [update_of_ne hk'], by rwa [update_of_ne hk']⟩
  · intro k' hgot
    have hk' : k' ≠ k := by
      rintro rfl
      rw [update_self] at hgot
      exact hgot rfl
    rw [update_of_ne hk'] at hgot
    obtain ⟨m', t, hne, ht, hkt⟩ := hr.found_of_ne hkeys hm hk' hgot
    exact ⟨m', t, (update_of_ne hne ..).trans ht, hkt⟩
  · intro m' m'' t t' ht ht'
    simp only [Function.update_apply] at ht ht'
    split at ht
    · cases ht
    · split at ht'
      · cases ht'
      · exact hr.unique ht ht'

theorem fill (hlt : m < reasmSlots) (hm : Own segs r k m) {g : Finset Nat} (hg : g ≠ ∅) {t : ReasmSlot}
    (hct : Collecting (segs k) g t) (evict : Nat) :
    Collects segs (update got k g) ⟨update r.slots m (some t), evict⟩ := by
  have hkt : t.key = (segs k).key := hct.of.1
  refine ⟨?_, ?_, ?_⟩
  · intro m' u hu
    simp only [Function.update_apply] at hu
    split at hu
    · rename_i heq
      cases hu
      exact ⟨heq ▸ hlt, k, by rwa [update_self], by rwa [update_self]⟩
    · rename_i hne
      obtain ⟨hlt', k', hk', hgot, hc⟩ := hr.slot_of_ne hm hne hu
      exact ⟨hlt', k', by rwa [update_of_ne hk'], by rwa [update_of_ne hk']⟩
  · intro k' hgot
    by_cases hk' : k' = k
    · subst hk'
      exact ⟨m, t, update_self .., hkt⟩
    · rw [update_of_ne hk'] at hgot
      obtain ⟨m', u, hne, hu, hku⟩ := hr.found_of_ne hkeys hm hk' hgot
      exact ⟨m', u, (update_of_ne hne ..).trans hu, hku⟩
  · intro m' m'' u u' hu hu' heq
    simp only [Function.update_apply] at hu hu'
    split at hu
    · rename_i hm'
      cases hu
      split at hu'
      · rename_i hm''
        rw [hm', hm'']
      · rw [hm']
        exact (hm.2 m'' u' hu' (heq.symm.trans hkt)).symm
    split at hu'
    · rename_i hm''
      cases hu'
      rw [hm'']
      exact hm.2 m' u hu (heq.trans hkt)
    · exact hr.unique hu hu' heq

omit hkeys

omit hr

theorem feed (hr : Collects segs got r) (hkeys : Function.Injective fun k => (segs k).key)
    (hn : n ≤ reasmSlots) (k : Fin n) {i : Nat} (hi : i ≤ (segs k).last) :
    Collects segs (collectorStep segs got k i).1 (r.feed ((segs k).packet i)).1 ∧
      (r.feed ((segs k).packet i)).2 = (collectorStep segs got k i).2.map fun x =>
        ((segs x.1).header x.2, (segs x.1).data) := by
  obtain ⟨m, s, hchoose, hlt, hc, hm⟩ := hr.choose_eq hkeys hn k i
  have hheader : ((segs k).arrival i).header = (segs k).header i := rfl
  simp only [Reasm.feed, (segs k).accept_packet hi, hheader, hchoose]
  unfold collectorStep
  by_cases hfull : insert i (got k) = Finset.range ((segs k).last + 1)
  · rw [if_pos hfull, hc.collect_full hi hfull]
    exact ⟨hr.clear hkeys hm _, rfl⟩
  · obtain ⟨t, hcollect, hct⟩ := hc.collect_part hi hfull
    rw [if_neg hfull, hcollect]
    exact ⟨hr.fill hkeys hlt hm (Finset.insert_ne_empty _ _) hct _, rfl⟩

theorem outputs_eq (hkeys : Function.Injective fun k => (segs k).key) (hn : n ≤ reasmSlots)
    (stream : List (Fin n × Nat)) (hstream : ∀ x ∈ stream, x.2 ≤ (segs x.1).last) (hr : Collects segs got r) :
    r.outputs (stream.map fun x => (segs x.1).packet x.2) =
      (collector segs got stream).map (Option.map fun x => ((segs x.1).header x.2, (segs x.1).data)) := by
  induction stream generalizing got r with
  | nil => rfl
  | cons x rest ih =>
    obtain ⟨k, i⟩ := x
    obtain ⟨hnext, hout⟩ := hr.feed hkeys hn k (hstream (k, i) (mem_cons_self ..))
    rw [map_cons, Reasm.outputs, collector, map_cons, hout, ih (fun x hx => hstream x (.tail _ hx)) hnext]

end Collects

/-- Reassembly. Whatever packets arrive, what is delivered was sent in sections that belong together; and a
receiver fed with packets of at most `REASM_SLOTS` segments, in any order and with any repetitions, delivers
a segment each time its set of sections is complete. -/
theorem dvbstp_reassembly : (∀ (ps : List (List UInt8)) (p : List UInt8) (h : DvbstpHeader) (data : List UInt8),
      ((Reasm.feedAll {} ps).feed p).2 = some (h, data) →
      (∃ a, dvbstpAccept p = some a ∧ a.header = h) ∧ Delivered (ps ++ [p]) h data) ∧
    ∀ (n : Nat) (segs : Fin n → Outgoing), n ≤ reasmSlots → (Function.Injective fun k => (segs k).key) →
      (∀ k, dvbstpSendSegment (segs k).v6 (segs k).seg (segs k).data =
        some ((range ((segs k).last + 1)).map (segs k).packet)) ∧
      ∀ stream : List (Fin n × Nat), (∀ x ∈ stream, x.2 ≤ (segs x.1).last) →
        Reasm.outputs {} (stream.map fun x => (segs x.1).packet x.2) = (collector segs (fun _ => ∅) stream).map
            (Option.map fun x => ((segs x.1).header x.2, (segs x.1).data)) := by
  constructor
  · intro ps p h data hfeed
    exact (Reasm.feed_held (Reasm.feedAll_held ps) p).2 h data hfeed
  intro n segs hn hkeys
  refine ⟨fun k => (segs k).sendSegment_eq, ?_⟩
  intro stream hstream
  refine Collects.outputs_eq hkeys hn stream hstream ⟨?_, ?_, ?_⟩
  · intro m s hs
    cases hs
  · intro k hk
    exact absurd rfl hk
  · intro m m' s s' hs
    cases hs

/-- A segment of two sections with a CRC, sent in the wrong order and with a repetition. -/
theorem dvbstp_reassembly_two_sections :
    let o : Outgoing :=
      { v6 := false
        seg := ⟨2, 1, 0, 0, false, replicate 16 0, true, by simp⟩
        data := replicate 1453 7
        compr_ok := by decide
        data_le := by rw [length_replicate]; decide }
    Reasm.outputs {} [o.packet 1, o.packet 1, o.packet 0, o.packet 0] =
      [none, none, some (o.header 0, o.data), none] := by
  intro o
  have hlast : o.last = 1 := by
    simp only [Outgoing.last, o, length_replicate]
    decide
  have hout := (dvbstp_reassembly.2 1 (fun _ => o) (by decide) (fun a b _ => Subsingleton.elim a b)).2
    [(0, 1), (0, 1), (0, 0), (0, 0)] (by simp [hlast])
  have hcol : collector (fun _ : Fin 1 => o) (fun _ => ∅) [(0, 1), (0, 1), (0, 0), (0, 0)] =
      [none, none, some (0, 0), none] := by
    simp only [collector, collectorStep, hlast]
    decide
  rw [hcol] at hout
  exact hout

end DvbIpiTools.Net
