import DvbIpiTools.Fccret.ChannelTable

set_option autoImplicit false

/-! # Runs of the channel table

Every operation of the table ends and keeps the invariant, so in every table that can come up each live
channel is found by its key and by its resolve slot. Taking a channel out leaves the others where they
were: its buckets become tombstones, which no walk stops at. -/

namespace DvbIpiTools.Fccret

open LinearProbe Option

namespace ChannelTable

variable {t : ChannelTable}

/-! ## The SSRC index -/

theorem SsrcInv.exists_empty (h : t.SsrcInv)
    (hsize : ∃ k, 2 ≤ k ∧ t.hashSize = 2 ^ k) : ∃ c < t.hashSize, t.ssrcHash c = .empty := by
  have hload := h.load_le
  have hlt := highLoad_lt hsize
  rw [h.used_eq] at hload
  exact exists_empty_of_load (by omega)

/-- The index is as before, or one bucket of `i` became a tombstone. -/
def Buried (i n : Nat) (hash hash' : Nat → Cell Nat) : Prop :=
  hash' = hash ∨ ∃ h < n, hash h = .live i ∧ hash' = put hash h .dead

variable {n : Nat} {hash hash' : Nat → Cell Nat}

theorem Buried.loadOf_eq {i : Nat} (h : Buried i n hash hash') : loadOf hash' n = loadOf hash n := by
  rcases h with rfl | ⟨c, hc, hcell, rfl⟩
  · rfl
  · exact loadOf_put_dead hc hcell

theorem Buried.stopAt {i : Nat} (h : Buried i n hash hash') {p q : Nat → Bool} (hpq : ∀ j, q j = true → p j = true)
    (c : Nat) (hstop : stopAt q hash' c = true) : stopAt p hash c = true := by
  have hsame : hash' c = hash c ∨ hash' c = .dead := by
    rcases h with rfl | ⟨k, -, -, rfl⟩
    · exact .inl rfl
    · by_cases hck : c = k
      · exact .inr (by rw [hck, put_self])
      · exact .inl (put_of_ne _ hck)
  rcases hsame with hsame | hdead
  · rcases of_stopAt hstop with hempty | ⟨a, ha, hqa⟩
    · rw [LinearProbe.stopAt, ← hsame, hempty]
    · exact stopAt_of_match (hsame.symm.trans ha) (hpq a hqa)
  · rw [LinearProbe.stopAt, hdead] at hstop
    cases hstop

variable {d : Nat}

theorem Buried.live_of_ne {i c : Nat} (h : Buried i n hash hash')
    (hd : hash c = .live d) (hne : d ≠ i) : hash' c = .live d := by
  rcases h with rfl | ⟨k, -, hk, rfl⟩
  · exact hd
  · rw [put_of_ne, hd]
    rintro rfl
    rw [hd] at hk
    exact hne (Cell.live.inj hk)

theorem Buried.isEmpty_eq {i : Nat} (h : Buried i n hash hash') (c : Nat) : (hash' c).isEmpty = (hash c).isEmpty := by
  rcases h with rfl | ⟨k, -, hk, rfl⟩
  · rfl
  · by_cases hck : c = k
    · rw [hck, put_self, hk]
      rfl
    · rw [put_of_ne _ hck]

/-- The bucket where the removal ends is not live any more, the others are as before. -/
theorem ssrcRemove_spec (hsize : ∃ k, 2 ≤ k ∧ t.hashSize = 2 ^ k)
    (hs : t.SsrcInv) (i : Nat) (ssrc : UInt32) : ∃ ssrcHash,
      t.ssrcRemove i ssrc = some { t with ssrcHash } ∧ Buried i t.hashSize t.ssrcHash ssrcHash ∧
      ∃ b, probe t.nextBucket (stopAt (fun j => j = i) t.ssrcHash) t.hashSize (t.ssrcHome ssrc) = some b ∧
        (ssrcHash b).isLive = false ∧ ∀ c, c ≠ b → ssrcHash c = t.ssrcHash c := by
  obtain ⟨e, he, hempty⟩ := hs.exists_empty hsize
  obtain ⟨j, -, hstop, -, hprobe⟩ := @probe_total t.hashSize (t.ssrcHome ssrc)
    (stopAt (fun j => j = i) t.ssrcHash) (ssrcHome_lt hsize ssrc)
    ⟨e, he, by rw [stopAt, hempty]⟩
  have hlt : (t.ssrcHome ssrc + j) % t.hashSize < t.hashSize := Nat.mod_lt _ (by omega)
  rw [ssrcRemove, nextBucket_eq hsize, hprobe]
  generalize (t.ssrcHome ssrc + j) % t.hashSize = h at hstop hlt ⊢
  rcases of_stopAt hstop with hcell | ⟨a, hcell, ha⟩
  · exact ⟨t.ssrcHash, by simp only [map_some, hcell], .inl rfl, h, rfl, by rw [hcell]; rfl, fun _ _ => rfl⟩
  · have ha : a = i := by simpa using ha
    exact ⟨put t.ssrcHash h .dead, by simp only [map_some, hcell],
      .inr ⟨h, hlt, by rw [hcell, ha], rfl⟩, h, rfl, by rw [put_self]; rfl, fun c hc => put_of_ne _ hc⟩

theorem SsrcInv.buried (hs : t.SsrcInv) {i : Nat} {ssrcHash : Nat → Cell Nat}
    (hb : Buried i t.hashSize t.ssrcHash ssrcHash) : SsrcInv { t with ssrcHash } :=
  ⟨hs.used_eq.trans hb.loadOf_eq.symm, hs.load_le⟩

theorem rebuildSsrcHash_spec (hk : t.KeyInv) :
    ∃ ssrcHash n, t.rebuildSsrcHash = some { t with ssrcHash, ssrcHashUsed := n } ∧
      SsrcInv { t with ssrcHash, ssrcHashUsed := n } := by
  have hlen : (t.liveSlots.filter fun i => (t.chan i).ssrcKnown).length * 2 ≤ t.hashSize := by
    have hfilter := List.length_filter_le (fun i => (t.chan i).ssrcKnown) t.liveSlots
    have hmax := length_liveSlots t
    have hle := hk.max_le
    omega
  obtain ⟨ssrcHash, hplace, -, -, -, hlive, hdead⟩ := @rebuild_spec Nat Nat
    (fun i => t.ssrcHome (t.chan i).ssrc) id t.hashSize
    (t.liveSlots.filter fun i => (t.chan i).ssrcKnown)
    (fun i => ssrcHome_lt hk.size_eq (t.chan i).ssrc) (by omega)
    (by rw [List.map_id]; exact (nodup_liveSlots t).filter _)
  refine ⟨ssrcHash, _, ?_, (loadOf_of_counts hlive hdead).symm, ?_⟩
  · rw [rebuildSsrcHash, nextBucket_eq hk.size_eq]
    simp only [hplace]
  · exact @half_le_highLoad t hk.size_eq _ hlen

theorem ssrcInsert_spec (hk : t.KeyInv) (hs : t.SsrcInv) (i : Nat) (ssrc : UInt32) :
    ∃ ssrcHash n, t.ssrcInsert i ssrc = some { t with ssrcHash, ssrcHashUsed := n } ∧
      SsrcInv { t with ssrcHash, ssrcHashUsed := n } := by
  obtain ⟨h, hh, hprobe, hnot, -⟩ := @probe_free _ t.ssrcHash t.hashSize (t.ssrcHome ssrc)
    (ssrcHome_lt hk.size_eq ssrc) (by
      have hlive := live_le_loadOf t.ssrcHash t.hashSize
      have hload := hs.load_le
      have hhigh := highLoad_lt hk.size_eq
      rw [hs.used_eq] at hload
      omega)
  have hload := loadOf_put_live i hh hnot
  rw [ssrcInsert, nextBucket_eq hk.size_eq, hprobe]
  cases hcell : t.ssrcHash h with
  | live a =>
    rw [hcell] at hnot
    cases hnot
  | dead =>
    refine ⟨put t.ssrcHash h (.live i), t.ssrcHashUsed, by simp [hcell], ?_, hs.load_le⟩
    rw [hcell] at hload
    exact hs.used_eq.trans hload.symm
  | empty =>
    rw [hcell] at hload
    have hused : t.ssrcHashUsed + 1 = loadOf (put t.ssrcHash h (.live i)) t.hashSize := by
      rw [hload, hs.used_eq]
      rfl
    simp only [hcell, Cell.isEmpty_empty, if_true]
    split
    · exact rebuildSsrcHash_spec (t := { t with
        ssrcHash := put t.ssrcHash h (.live i), ssrcHashUsed := t.ssrcHashUsed + 1 })
        (hk.congr ⟨rfl, rfl, rfl, rfl, rfl, rfl, fun _ => rfl, fun _ => rfl, fun _ => rfl⟩)
    · next hle => exact ⟨_, _, rfl, hused, not_lt.1 hle⟩

theorem moveSsrc_spec (hk : t.KeyInv) (hs : t.SsrcInv) (i : Nat) (ssrc : UInt32) :
    ∃ ssrcHash n, t.moveSsrc i ssrc = some { t with ssrcHash, ssrcHashUsed := n } ∧
      SsrcInv { t with ssrcHash, ssrcHashUsed := n } := by
  simp only [moveSsrc]
  split
  · by_cases hknown : (t.chan i).ssrcKnown = true
    · obtain ⟨ssrcHash, heq, hburied, -⟩ := ssrcRemove_spec hk.size_eq hs i (t.chan i).ssrc
      simp only [hknown, if_true, heq]
      exact @ssrcInsert_spec { t with ssrcHash }
        (hk.congr ⟨rfl, rfl, rfl, rfl, rfl, rfl, fun _ => rfl, fun _ => rfl, fun _ => rfl⟩)
        (hs.buried hburied) i ssrc
    · simp only [hknown, Bool.false_eq_true, if_false]
      exact ssrcInsert_spec hk hs i ssrc
  · exact ⟨t.ssrcHash, t.ssrcHashUsed, rfl, hs⟩

theorem Inv.store (h : t.Inv) (i : Nat) (ssrc : UInt32) (payloadLen : Nat)
    (now : Int) : ∃ t', t.store i ssrc payloadLen now = some t' ∧ t'.Inv := by
  unfold ChannelTable.store
  split
  · exact ⟨t, rfl, h⟩
  obtain ⟨ssrcHash, n, heq, hs⟩ := moveSsrc_spec h.keyInv h.ssrcInv i ssrc
  rw [heq]
  refine ⟨_, rfl, h.keyInv.congr ⟨rfl, rfl, rfl, rfl, rfl, rfl, ?_, ?_, ?_⟩, h.load_le, hs.used_eq, hs.load_le⟩
  all_goals
    intro j
    by_cases hj : j = i
    · rw [hj, setChan_self]
    · rw [setChan_of_ne _ _ hj]

/-! ## Taking a channel out -/

theorem buryBucket_spec (h : t.KeyInv) {i : Nat} (hi : (t.chan i).inUse = true) :
    ∃ c < t.hashSize, t.hash c = .live i ∧ t.buryBucket i = some { t with hash := put t.hash c .dead } := by
  obtain ⟨c, hc, hcell⟩ := (h.holds i).2 hi
  obtain ⟨b, hb, j, hprobe, hlive, hj⟩ := @find_match _ (fun j => j = i) _ _ _ _ i
    (home_lt h.size_eq (t.chan i).key) (h.placed c hc i hcell) hcell (by simp)
  have hj : j = i := by simpa using hj
  refine ⟨b, hb, by rw [hlive, hj], ?_⟩
  rw [buryBucket, nextBucket_eq h.size_eq, hprobe]
  simp only [map_some, hlive]

section release

variable {i c : Nat} {ssrcHash : Nat → Cell Nat}

theorem releaseSlot_self (t : ChannelTable) (i : Nat) : ((t.releaseSlot i).chan i).inUse = false := by
  show ((t.setChan i _).chan i).inUse = false
  rw [setChan_self]

theorem releaseSlot_of_ne (t : ChannelTable) {i j : Nat} (h : j ≠ i) : (t.releaseSlot i).chan j = t.chan j :=
  setChan_of_ne t _ h

theorem releaseSlot_inUse {j : Nat} : ((t.releaseSlot i).chan j).inUse = true ↔ j ≠ i ∧ (t.chan j).inUse = true := by
  by_cases h : j = i
  · rw [h, releaseSlot_self]
    simp
  · rw [releaseSlot_of_ne t h]
    simp [h]

theorem KeyInv.releaseSlot (h : t.KeyInv) (hc : c < t.hashSize) (hcell : t.hash c = .live i) :
    (ChannelTable.releaseSlot { t with hash := put t.hash c .dead, ssrcHash } i).KeyInv := by
  refine ⟨h.size_eq, h.max_pos, h.max_le, ?bound, ?placed, h.unique.kill c, ?holds, ?keys,
    h.used_eq.trans (loadOf_put_dead hc hcell).symm, ?resolve, h.cursor_lt⟩
  case bound =>
    intro j hj
    exact h.bound j (releaseSlot_inUse.1 hj).2
  case placed =>
    refine (h.placed.kill c).congr fun j hj => ?_
    have hji : j ≠ i := ((holds_put_dead h.unique hc hcell j).1 hj).2
    rw [releaseSlot_of_ne _ hji]
    rfl
  case holds =>
    intro j
    show Holds (put t.hash c .dead) t.hashSize j ↔ _
    rw [holds_put_dead h.unique hc hcell, releaseSlot_inUse, h.holds]
    exact And.comm
  case keys =>
    intro a b ha hb hab
    obtain ⟨hai, ha⟩ := releaseSlot_inUse.1 ha
    obtain ⟨hbi, hb⟩ := releaseSlot_inUse.1 hb
    rw [releaseSlot_of_ne _ hai, releaseSlot_of_ne _ hbi] at hab
    exact h.keys a b ha hb hab
  case resolve =>
    intro j hj
    obtain ⟨hji, hj⟩ := releaseSlot_inUse.1 hj
    rw [releaseSlot_of_ne _ hji]
    obtain ⟨hlt, hown⟩ := h.resolve j hj
    refine ⟨hlt, ?_⟩
    show (if _ ∧ t.resolveHash (t.chan j).resolveSlot = i + 1 then 0
      else t.resolveHash (t.chan j).resolveSlot) = j + 1
    rw [hown, if_neg fun hr => hji (Nat.succ.inj hr.2)]

end release

/-- The channel `i` is out of the table, and nothing else has changed. -/
structure Removed (t : ChannelTable) (i : Nat) (t' : ChannelTable) : Prop where
  inv : t'.Inv
  gone : (t'.chan i).inUse = false
  others : ∀ j, j ≠ i → t'.chan j = t.chan j
  size : t'.hashSize = t.hashSize
  buried : Buried i t.hashSize t.ssrcHash t'.ssrcHash
  cursor : t'.reapCursor = t.reapCursor

theorem Inv.removed (h : t.Inv) {i c : Nat} {ssrcHash : Nat → Cell Nat} (hc : c < t.hashSize)
    (hcell : t.hash c = .live i) (hb : Buried i t.hashSize t.ssrcHash ssrcHash) :
    Removed t i (releaseSlot { t with hash := put t.hash c .dead, ssrcHash } i) where
  inv := ⟨h.keyInv.releaseSlot hc hcell, h.load_le, h.ssrcInv.used_eq.trans hb.loadOf_eq.symm, h.ssrcInv.load_le⟩
  gone := releaseSlot_self _ i
  others := fun _ hj => releaseSlot_of_ne _ hj
  size := rfl
  buried := hb
  cursor := rfl

theorem Inv.removeChannel (h : t.Inv) {i : Nat} (hi : (t.chan i).inUse = true) :
    ∃ t', t.removeChannel i = some t' ∧ Removed t i t' := by
  obtain ⟨c, hc, hcell, hbury⟩ := buryBucket_spec h.keyInv hi
  rw [ChannelTable.removeChannel, hbury]
  by_cases hknown : (t.chan i).ssrcKnown = true
  · obtain ⟨ssrcHash, heq, hburied, -⟩ := @ssrcRemove_spec { t with hash := put t.hash c .dead }
      h.keyInv.size_eq ⟨h.ssrcInv.used_eq, h.ssrcInv.load_le⟩ i (t.chan i).ssrc
    refine ⟨_, ?_, h.removed hc hcell hburied⟩
    simp only [hknown, if_true, heq, map_some]
  · refine ⟨_, ?_, h.removed hc hcell (.inl rfl)⟩
    simp only [hknown, Bool.false_eq_true, if_false]

theorem Inv.reapSlot (h : t.Inv) (i : Nat) (now maxAge : Int) :
    ∃ t', t.reapSlot i now maxAge = some t' ∧ t'.Inv := by
  unfold ChannelTable.reapSlot
  split
  · exact ⟨t, rfl, h⟩
  · next hi =>
    split
    · exact ⟨t, rfl, h⟩
    · obtain ⟨t', heq, hremoved⟩ := h.removeChannel (by simpa using hi)
      exact ⟨t', heq, hremoved.inv⟩

theorem Inv.reapSlots (h : t.Inv) (is : List Nat) (now maxAge : Int) :
    ∃ t', is.foldlM (fun t i => ChannelTable.reapSlot t i now maxAge) t = some t' ∧ t'.Inv := by
  induction is generalizing t with
  | nil => exact ⟨t, rfl, h⟩
  | cons i is ih =>
    obtain ⟨t', heq, h'⟩ := h.reapSlot i now maxAge
    rw [List.foldlM_cons, heq]
    exact ih h'

theorem Inv.reapFrom (h : t.Inv) (now maxAge : Int) (n : Nat) :
    ∃ t', t.reapFrom now maxAge n = some t' ∧ t'.Inv := by
  induction n generalizing t with
  | zero => exact ⟨t, rfl, h⟩
  | succ n ih =>
    obtain ⟨t', heq, h'⟩ := h.reapSlot t.reapCursor now maxAge
    rw [ChannelTable.reapFrom, heq]
    refine ih ⟨{ h'.keyInv with cursor_lt := Nat.mod_lt _ h'.keyInv.max_pos }, h'.load_le,
      h'.ssrcInv.used_eq, h'.ssrcInv.load_le⟩

/-! ## Runs -/

/-- An operation on the table; the times are those the code reads from the clock. -/
inductive Op
  | lookup (k : ChanKey) (now : Int)
  | store (i : Nat) (ssrc : UInt32) (payloadLen : Nat) (now : Int)
  | reap (now maxAge : Int)
  | reapStep (now maxAge : Int) (maxScan : Nat)

def step (t : ChannelTable) : Op → Option ChannelTable
  | .lookup k now => (t.lookup k now).map Prod.snd
  | .store i ssrc payloadLen now => t.store i ssrc payloadLen now
  | .reap now maxAge => t.reap now maxAge
  | .reapStep now maxAge maxScan => t.reapStep now maxAge maxScan

/-- The operations one after the other; `none` is one that does not end. -/
def run (t : ChannelTable) (ops : List Op) : Option ChannelTable := ops.foldlM step t

theorem Inv.step (h : t.Inv) (op : Op) : ∃ t', t.step op = some t' ∧ t'.Inv := by
  cases op with
  | lookup k now =>
    obtain ⟨r, t', heq, h', -⟩ := h.lookup k now
    exact ⟨t', by rw [ChannelTable.step, heq, map_some], h'⟩
  | store i ssrc payloadLen now => exact h.store i ssrc payloadLen now
  | reap now maxAge => exact h.reapSlots _ now maxAge
  | reapStep now maxAge maxScan => exact h.reapFrom now maxAge _

theorem Inv.run (h : t.Inv) (ops : List Op) : ∃ t', t.run ops = some t' ∧ t'.Inv := by
  induction ops generalizing t with
  | nil => exact ⟨t, rfl, h⟩
  | cons op ops ih =>
    obtain ⟨t', heq, h'⟩ := h.step op
    rw [ChannelTable.run, List.foldlM_cons, heq]
    exact ih h'

/-! ## What the invariant gives -/

theorem KeyInv.lookupByResolveSlot (h : t.KeyInv) {i : Nat}
    (hi : (t.chan i).inUse = true) : t.lookupByResolveSlot (t.chan i).resolveSlot = some i := by
  obtain ⟨hlt, hown⟩ := h.resolve i hi
  have hlive : t.resolveEntryLive (i + 1) (t.chan i).resolveSlot = true :=
    resolveEntryLive_iff.2 ⟨Nat.succ_ne_zero i, hi, rfl⟩
  rw [ChannelTable.lookupByResolveSlot, if_neg (by omega), hown, if_neg (Nat.succ_ne_zero i), hlive]
  rfl

theorem KeyInv.resolveSlot_inj (h : t.KeyInv) {i j : Nat} (hi : (t.chan i).inUse = true)
    (hj : (t.chan j).inUse = true) (heq : (t.chan i).resolveSlot = (t.chan j).resolveSlot) : i = j := by
  have hown := (h.resolve i hi).2
  rw [heq, (h.resolve j hj).2] at hown
  exact (Nat.succ.inj hown).symm

theorem Removed.findBySsrc {t t' : ChannelTable} {i : Nat} (hr : Removed t i t') (hd : d ≠ i) {ssrc : UInt32}
    (hfind : t.findBySsrc ssrc = some (some d)) : t'.findBySsrc ssrc = some (some d) := by
  obtain ⟨h, hprobe, hcell⟩ := map_eq_some_iff.1 hfind
  have hlive : t.ssrcHash h = .live d := by
    split at hcell
    · next j hj => rw [hj, some.inj hcell]
    · cases hcell
  have hmatch : t.hasSsrc ssrc d = true := by
    have := probe_stop hprobe
    rwa [stopAt, hlive] at this
  have hlive' : t'.ssrcHash h = .live d := hr.buried.live_of_ne hlive hd
  have hsub : ∀ j, t'.hasSsrc ssrc j = true → t.hasSsrc ssrc j = true := by
    intro j hj
    by_cases hji : j = i
    · rw [hji, hasSsrc, hr.gone] at hj
      cases hj
    · rwa [hasSsrc, hr.others j hji] at hj
  have hprobe' := probe_mono hprobe
    (stopAt_of_match (p := t'.hasSsrc ssrc) hlive' (by rw [hasSsrc, hr.others d hd]; exact hmatch))
    (hr.buried.stopAt hsub)
  have hnext : t'.nextBucket = t.nextBucket := by
    funext c
    rw [nextBucket, nextBucket, hr.size]
  rw [ChannelTable.findBySsrc, hnext, hr.size, ssrcHome, hr.size]
  rw [ssrcHome] at hprobe'
  simp only [hprobe', map_some, hlive']

/-- What a channel that stays in the table keeps when another one is taken out. -/
structure StillFound (t t' : ChannelTable) (d : Nat) : Prop where
  same : t'.chan d = t.chan d
  byKey : ∀ now, t'.lookup (t.chan d).key now = some (some d, t')
  bySlot : t'.lookupByResolveSlot (t.chan d).resolveSlot = some d
  bySsrc : ∀ ssrc, t.findBySsrc ssrc = some (some d) → t'.findBySsrc ssrc = some (some d)

theorem Removed.stillFound {t t' : ChannelTable} {i : Nat} (hr : Removed t i t') (hd : d ≠ i)
    (hlive : (t.chan d).inUse = true) : StillFound t t' d where
  same := hr.others d hd
  byKey := by
    intro now
    rw [← hr.others d hd] at hlive ⊢
    exact hr.inv.lookup_live hlive now
  bySlot := by
    rw [← hr.others d hd] at hlive ⊢
    exact hr.inv.keyInv.lookupByResolveSlot hlive
  bySsrc := fun _ hfind => hr.findBySsrc hd hfind

/-- The table keeps its channels reachable. -/
structure Sound (t : ChannelTable) : Prop where
  /-- Each key has at most one live channel. -/
  keys : ∀ i j, (t.chan i).inUse = true → (t.chan j).inUse = true → (t.chan i).key = (t.chan j).key → i = j
  /-- `channel_lookup` finds every live channel, and leaves the table as it is. -/
  found : ∀ i, (t.chan i).inUse = true → ∀ now, t.lookup (t.chan i).key now = some (some i, t)
  /-- With a free slot it makes a channel for any other key. -/
  created : (∃ i < t.maxChannels, (t.chan i).inUse = false) → ∀ k now,
    ∃ i t', t.lookup k now = some (some i, t') ∧ (t'.chan i).inUse = true ∧ (t'.chan i).key = k
  /-- The resolve slots of live channels are distinct. -/
  slots : ∀ i j, (t.chan i).inUse = true → (t.chan j).inUse = true →
    (t.chan i).resolveSlot = (t.chan j).resolveSlot → i = j
  /-- `channel_lookup_by_resolve_slot` returns the owner. -/
  resolved : ∀ i, (t.chan i).inUse = true → t.lookupByResolveSlot (t.chan i).resolveSlot = some i
  /-- Taking a live channel out ends and leaves every other one reachable. -/
  removal : ∀ i, (t.chan i).inUse = true → ∃ t', t.removeChannel i = some t' ∧
    (t'.chan i).inUse = false ∧ ∀ d, d ≠ i → (t.chan d).inUse = true → StillFound t t' d

theorem Inv.sound (h : t.Inv) : t.Sound where
  keys := h.keyInv.keys
  found := fun _ hi now => h.lookup_live hi now
  created := by
    intro hfree k now
    obtain ⟨r, t', heq, -, hcreated⟩ := h.lookup k now
    obtain ⟨i, rfl, hi⟩ := hcreated hfree
    exact ⟨i, t', heq, hi⟩
  slots := fun _ _ hi hj heq => h.keyInv.resolveSlot_inj hi hj heq
  resolved := fun _ hi => h.keyInv.lookupByResolveSlot hi
  removal := by
    intro i hi
    obtain ⟨t', heq, hr⟩ := h.removeChannel hi
    exact ⟨t', heq, hr.gone, fun d hd hlive => hr.stillFound hd hlive⟩

/-- Whatever operations came before, in whatever order, they ended and left a sound table. -/
theorem run_sound (maxChannels : Nat) (ops : List Op) : ∃ t, (new maxChannels).run ops = some t ∧ t.Sound := by
  obtain ⟨t, heq, h⟩ := (inv_new maxChannels).run ops
  exact ⟨t, heq, h.sound⟩

/-- Of two channels one is reaped, and a third takes its slot. -/
theorem run_sound_reaped :
    let key (n : UInt8) : ChanKey := ⟨2, [239, 0, 0, n], 5000, by simp⟩
    let ops : List Op := [.lookup (key 1) 0, .lookup (key 2) 60, .store 1 7 1316 60, .reap 100 50, .lookup (key 3) 101]
    ((new 2).run ops).map (fun t => [0, 1].map fun i => ((t.chan i).inUse, (t.chan i).key.addr)) = some
        [(true, [239, 0, 0, 3]), (true, [239, 0, 0, 2])] ∧ ∃ t, (new 2).run ops = some t ∧ t.Sound := by
  intro key ops
  exact ⟨by decide +kernel, run_sound 2 ops⟩

end ChannelTable

/-! # Channels found by their SSRC

`channel_find_by_ssrc` finds a channel as long as the index has an entry for it that a walk from the bucket of its
SSRC reaches. Every operation keeps these entries but one: an insert into an empty bucket can go over the load at
which the index is built anew, and `channel_store` writes the new SSRC to the channel only after that. -/

namespace ChannelTable

variable {t : ChannelTable}

/-- `hash` has an entry of the channel `i` on the walk for `ssrc`. -/
def Indexes (t : ChannelTable) (hash : Nat → Cell Nat) (i : Nat) (ssrc : UInt32) : Prop :=
  ∃ h < t.hashSize, hash h = .live i ∧ Reach hash t.hashSize (t.ssrcHome ssrc) h

/-- Every live channel with a known SSRC has its entry. -/
def Indexed (t : ChannelTable) : Prop := ∀ i ssrc, t.hasSsrc ssrc i = true → t.Indexes t.ssrcHash i ssrc

/-- Every SSRC that a live channel has is found, at a live channel that has it. -/
def SsrcComplete (t : ChannelTable) : Prop :=
  ∀ i ssrc, t.hasSsrc ssrc i = true → ∃ j, t.findBySsrc ssrc = some (some j) ∧ t.hasSsrc ssrc j = true

theorem Indexed.ssrcComplete (h : t.Indexed) (hk : t.KeyInv) : t.SsrcComplete := by
  intro i ssrc hi
  obtain ⟨b, -, hcell, hreach⟩ := h i ssrc hi
  obtain ⟨k, -, j, hprobe, hlive, hmatch⟩ := find_match (p := t.hasSsrc ssrc) (ssrcHome_lt hk.size_eq ssrc)
    hreach hcell hi
  refine ⟨j, ?_, hmatch⟩
  rw [findBySsrc, nextBucket_eq hk.size_eq, hprobe]
  simp only [map_some, hlive]

variable {ssrc : UInt32} {i : Nat}

theorem hasSsrc_iff :
    t.hasSsrc ssrc i = true ↔ (t.chan i).inUse = true ∧ (t.chan i).ssrcKnown = true ∧ (t.chan i).ssrc = ssrc := by
  simp [hasSsrc, and_assoc]

/-! ## What keeps an entry -/

theorem Indexes.buried {hash hash' : Nat → Cell Nat} {i j : Nat}
    (h : t.Indexes hash j ssrc) (hb : Buried i t.hashSize hash hash') (hji : j ≠ i) : t.Indexes hash' j ssrc := by
  obtain ⟨b, hb', hcell, hreach⟩ := h
  refine ⟨b, hb', hb.live_of_ne hcell hji, ?_⟩
  rcases hb with rfl | ⟨c, -, -, rfl⟩
  · exact hreach
  · exact hreach.put c (by simp)

theorem Indexes.put_live {hash : Nat → Cell Nat} {i j h : Nat}
    (hj : t.Indexes hash j ssrc) (hfree : (hash h).isLive = false) : t.Indexes (put hash h (.live i)) j ssrc := by
  obtain ⟨b, hb, hcell, hreach⟩ := hj
  refine ⟨b, hb, ?_, hreach.put h (by simp)⟩
  rw [put_of_ne, hcell]
  rintro rfl
  rw [hcell] at hfree
  cases hfree

/-! ## The bucket of a new SSRC -/

/-- The bucket where `ssrc_hash_remove` ends when the SSRC of the channel changes. -/
def oldBucket (t : ChannelTable) (i : Nat) : Option Nat :=
  if (t.chan i).ssrcKnown then
    probe t.nextBucket (stopAt (fun j => j = i) t.ssrcHash) t.hashSize (t.ssrcHome (t.chan i).ssrc)
  else none

/-- The bucket that a new SSRC of the channel takes: the first on its walk that is not live or that the old SSRC
leaves. -/
def newBucket (t : ChannelTable) (i : Nat) (ssrc : UInt32) : Option Nat :=
  probe t.nextBucket (fun h => !(t.ssrcHash h).isLive || t.oldBucket i = some h) t.hashSize (t.ssrcHome ssrc)

/-- A store that changes the SSRC of the channel takes an empty bucket while the index has no room for one more:
`ssrc_hash_insert` rebuilds it from channels that have the SSRCs from before the store. -/
def rebuildsInStore (t : ChannelTable) (i : Nat) (ssrc : UInt32) (payloadLen : Nat) : Bool :=
  decide (payloadLen ≤ channelMaxPayload) && (!(t.chan i).ssrcKnown || decide ((t.chan i).ssrc ≠ ssrc)) &&
    decide (t.ssrcHashUsed + 1 > t.highLoad) && (t.newBucket i ssrc).any fun h => (t.ssrcHash h).isEmpty

theorem unindex_spec (hsize : ∃ k, 2 ≤ k ∧ t.hashSize = 2 ^ k) (hs : t.SsrcInv) (i : Nat) :
    ∃ ssrcHash, (if (t.chan i).ssrcKnown then t.ssrcRemove i (t.chan i).ssrc else some t) =
        some { t with ssrcHash } ∧ Buried i t.hashSize t.ssrcHash ssrcHash ∧
      ∀ h, (!(ssrcHash h).isLive) = (!(t.ssrcHash h).isLive || decide (t.oldBucket i = some h)) := by
  by_cases hknown : (t.chan i).ssrcKnown = true
  · obtain ⟨ssrcHash, heq, hburied, b, hprobe, hb, hother⟩ := ssrcRemove_spec hsize hs i (t.chan i).ssrc
    refine ⟨ssrcHash, by rw [if_pos hknown, heq], hburied, fun h => ?_⟩
    rw [oldBucket, if_pos hknown, hprobe]
    by_cases hbh : b = h
    · rw [← hbh, hb]
      simp
    · rw [hother h (Ne.symm hbh)]
      simp [hbh]
  · refine ⟨t.ssrcHash, by rw [if_neg hknown], .inl rfl, fun h => ?_⟩
    rw [oldBucket, if_neg hknown]
    simp

theorem ssrcInsert_of_bucket {i h : Nat}
    (hprobe : probe t.nextBucket (fun h => !(t.ssrcHash h).isLive) t.hashSize (t.ssrcHome ssrc) = some h)
    (hroom : (t.ssrcHash h).isEmpty = true → t.ssrcHashUsed + 1 ≤ t.highLoad) :
    ∃ n, t.ssrcInsert i ssrc = some { t with ssrcHash := put t.ssrcHash h (.live i), ssrcHashUsed := n } := by
  rw [ssrcInsert, hprobe]
  by_cases hempty : (t.ssrcHash h).isEmpty = true
  · refine ⟨t.ssrcHashUsed + 1, ?_⟩
    simp only [hempty, if_true]
    exact if_neg (not_lt.2 (hroom hempty))
  · refine ⟨t.ssrcHashUsed, ?_⟩
    simp only [hempty, Bool.false_eq_true, if_false]

/-- The index after a change of the SSRC that does not rebuild it: the new entry is there, and those of the other
channels are. -/
theorem moveSsrc_indexes (h : t.Inv) (hchange : (!(t.chan i).ssrcKnown || decide ((t.chan i).ssrc ≠ ssrc)) = true)
    (hroom : ∀ b, t.newBucket i ssrc = some b → (t.ssrcHash b).isEmpty = true → t.ssrcHashUsed + 1 ≤ t.highLoad) :
    ∃ ssrcHash n, t.moveSsrc i ssrc = some { t with ssrcHash, ssrcHashUsed := n } ∧ t.Indexes ssrcHash i ssrc ∧
      ∀ j s, j ≠ i → t.Indexes t.ssrcHash j s → t.Indexes ssrcHash j s := by
  have hsize := h.keyInv.size_eq
  obtain ⟨hash, hremove, hburied, hlive⟩ := unindex_spec hsize h.ssrcInv i
  obtain ⟨b, hb, hprobe, hfree, hreach⟩ := @probe_free _ hash t.hashSize (t.ssrcHome ssrc) (ssrcHome_lt hsize ssrc) (by
    have hle := live_le_loadOf hash t.hashSize
    have hload := h.ssrcInv.load_le
    have hhigh := highLoad_lt hsize
    rw [h.ssrcInv.used_eq, ← hburied.loadOf_eq] at hload
    omega)
  rw [← nextBucket_eq hsize] at hprobe
  have hnew : t.newBucket i ssrc = some b := by
    rw [newBucket, ← hprobe]
    exact congrArg (fun stop => probe t.nextBucket stop t.hashSize (t.ssrcHome ssrc)) (funext fun c => (hlive c).symm)
  obtain ⟨n, hinsert⟩ := ssrcInsert_of_bucket (t := { t with ssrcHash := hash }) (i := i) hprobe fun he =>
    hroom b hnew ((hburied.isEmpty_eq b).symm.trans he)
  refine ⟨put hash b (.live i), n, ?_, ⟨b, hb, put_self _ _ _, hreach.put b (by simp)⟩, fun j s hji hj => ?_⟩
  · simp only [moveSsrc, hchange, if_true, hremove]
    exact hinsert
  · exact (hj.buried hburied hji).put_live hfree

/-! ## The operations -/

/-- The channels are the same but for those without a known SSRC or out of use, and so is the index. -/
theorem Indexed.congr {t t' : ChannelTable} (h : t.Indexed) (hsize : t'.hashSize = t.hashSize)
    (hhash : t'.ssrcHash = t.ssrcHash)
    (hchan : ∀ i ssrc, t'.hasSsrc ssrc i = true → t.hasSsrc ssrc i = true) : t'.Indexed := by
  intro i ssrc hi
  obtain ⟨b, hb, hcell, hreach⟩ := h i ssrc (hchan i ssrc hi)
  refine ⟨b, hsize ▸ hb, hhash ▸ hcell, ?_⟩
  rw [hhash, hsize, ssrcHome, hsize]
  exact hreach

variable {t' : ChannelTable}

theorem Indexed.store (hi : t.Indexed) (h : t.Inv) {payloadLen : Nat} (now : Int)
    (hno : t.rebuildsInStore i ssrc payloadLen = false) (heq : t.store i ssrc payloadLen now = some t') :
    t'.Indexed := by
  unfold ChannelTable.store at heq
  split at heq
  · rwa [← some.inj heq]
  rename_i hlen
  by_cases hchange : (!(t.chan i).ssrcKnown || decide ((t.chan i).ssrc ≠ ssrc)) = true
  · obtain ⟨ssrcHash, n, hmove, hnew, hothers⟩ := moveSsrc_indexes h hchange fun b hb he => by
      by_contra hfull
      have hrebuild : t.rebuildsInStore i ssrc payloadLen = true := by
        rw [rebuildsInStore, hchange, hb, any_some, he, decide_eq_true (not_lt.1 hlen), decide_eq_true (not_le.1 hfull)]
        rfl
      exact Bool.noConfusion (hno.symm.trans hrebuild)
    rw [hmove, map_some] at heq
    cases heq
    intro j s hj
    by_cases hji : j = i
    · -- the entry just made is for the SSRC that the channel has now
      rw [hasSsrc_iff, hji, setChan_self] at hj
      obtain ⟨-, -, rfl⟩ := hj
      rw [hji]
      exact hnew
    · rw [hasSsrc_iff, setChan_of_ne _ _ hji] at hj
      exact hothers j s hji (hi j s (hasSsrc_iff.2 hj))
  · have hmove : t.moveSsrc i ssrc = some t := if_neg hchange
    rw [hmove, map_some] at heq
    cases heq
    refine hi.congr rfl rfl fun j s hj => ?_
    by_cases hji : j = i
    · -- the channel had this SSRC already
      simp only [Bool.or_eq_true, Bool.not_eq_true', decide_eq_true_eq, not_or, not_not] at hchange
      rw [hasSsrc_iff, hji, setChan_self] at hj
      rw [hasSsrc_iff, hji]
      exact ⟨hj.1, by simpa using hchange.1, hchange.2.trans hj.2.2⟩
    · rw [hasSsrc_iff, setChan_of_ne _ _ hji] at hj
      exact hasSsrc_iff.2 hj

theorem rebuildIfLoaded_indexed (hi : t.Indexed) (heq : t.rebuildIfLoaded = some t') : t'.Indexed := by
  unfold rebuildIfLoaded at heq
  split at heq
  · unfold rebuildHash at heq
    split at heq
    · cases heq
    · cases heq
      exact hi.congr rfl rfl fun _ _ h => h
  · rwa [← some.inj heq]

variable {now : Int}

theorem Indexed.lookup (hi : t.Indexed) {k : ChanKey} {r : Option Nat} (heq : t.lookup k now = some (r, t')) : t'.Indexed := by
  unfold ChannelTable.lookup at heq
  split at heq
  · cases heq
  · obtain ⟨u, hu, hpair⟩ := map_eq_some_iff.1 heq
    obtain rfl : u = t' := congrArg Prod.snd hpair
    exact rebuildIfLoaded_indexed hi hu
  · split at heq
    · obtain ⟨u, hu, hpair⟩ := map_eq_some_iff.1 heq
      obtain rfl : u = t' := congrArg Prod.snd hpair
      exact rebuildIfLoaded_indexed hi hu
    rename_i i _
    obtain ⟨u, hu, hpair⟩ := map_eq_some_iff.1 heq
    obtain rfl : u = t' := congrArg Prod.snd hpair
    refine rebuildIfLoaded_indexed (@Indexed.congr _ (t.createChannel i k now _ _) hi rfl rfl fun j s hj => ?_) hu
    by_cases hji : j = i
    · -- a new channel has no SSRC yet
      rw [hasSsrc_iff, hji, createChannel_self] at hj
      exact absurd hj.2.1 (by simp [freshChannel])
    · rw [hasSsrc_iff, createChannel_of_ne hji] at hj
      exact hasSsrc_iff.2 hj

theorem Removed.indexed (hr : Removed t i t') (hi : t.Indexed) : t'.Indexed := by
  intro j s hj
  have hji : j ≠ i := by
    rintro rfl
    rw [hasSsrc_iff, hr.gone] at hj
    cases hj.1
  rw [hasSsrc_iff, hr.others j hji] at hj
  obtain ⟨b, hb, hcell, hreach⟩ := (hi j s (hasSsrc_iff.2 hj)).buried hr.buried hji
  refine ⟨b, hr.size ▸ hb, hcell, ?_⟩
  rw [hr.size, ssrcHome, hr.size]
  exact hreach

variable {maxAge : Int}

theorem Indexed.reapSlot (hi : t.Indexed) (h : t.Inv) (heq : t.reapSlot i now maxAge = some t') : t'.Indexed := by
  unfold ChannelTable.reapSlot at heq
  split at heq
  · rwa [← some.inj heq]
  rename_i huse
  split at heq
  · rwa [← some.inj heq]
  · obtain ⟨u, hu, hremoved⟩ := h.removeChannel (i := i) (by simpa using huse)
    obtain rfl : u = t' := some.inj (hu.symm.trans heq)
    exact hremoved.indexed hi

theorem Indexed.reapSlots (hi : t.Indexed) (h : t.Inv) (is : List Nat) (heq : is.foldlM (fun t i => ChannelTable.reapSlot t i now maxAge) t = some t') :
    t'.Indexed := by
  induction is generalizing t with
  | nil => rwa [← some.inj heq]
  | cons i is ih =>
    obtain ⟨u, hu, hinv⟩ := h.reapSlot i now maxAge
    rw [List.foldlM_cons, hu] at heq
    exact ih (hi.reapSlot h hu) hinv heq

theorem Indexed.reapFrom (hi : t.Indexed) (h : t.Inv) (n : Nat) (heq : t.reapFrom now maxAge n = some t') : t'.Indexed := by
  induction n generalizing t with
  | zero => rwa [← some.inj heq]
  | succ n ih =>
    obtain ⟨u, hu, hinv⟩ := h.reapSlot t.reapCursor now maxAge
    rw [ChannelTable.reapFrom, hu] at heq
    have hnext : Inv { u with reapCursor := (u.reapCursor + 1) % u.maxChannels } :=
      ⟨{ hinv.keyInv with cursor_lt := Nat.mod_lt _ hinv.keyInv.max_pos }, hinv.load_le,
        hinv.ssrcInv.used_eq, hinv.ssrcInv.load_le⟩
    have hindexed : Indexed { u with reapCursor := (u.reapCursor + 1) % u.maxChannels } :=
      (hi.reapSlot h hu).congr rfl rfl fun _ _ h => h
    exact ih hindexed hnext heq

/-! ## Runs -/

/-- The operation is a store that rebuilds the SSRC index. -/
def rebuildsIn (t : ChannelTable) : Op → Bool
  | .store i ssrc payloadLen _ => t.rebuildsInStore i ssrc payloadLen
  | _ => false

/-- No store of the run rebuilds the SSRC index. -/
def noStoreRebuilds : ChannelTable → List Op → Bool
  | _, [] => true
  | t, op :: ops => !t.rebuildsIn op && (t.step op).all fun t' => noStoreRebuilds t' ops

theorem Indexed.step (hi : t.Indexed) (h : t.Inv) {op : Op} (hno : t.rebuildsIn op = false)
    {t' : ChannelTable} (heq : t.step op = some t') : t'.Indexed := by
  cases op with
  | lookup k now =>
    obtain ⟨⟨r, u⟩, hu, rfl⟩ := map_eq_some_iff.1 heq
    exact hi.lookup hu
  | store i ssrc payloadLen now => exact hi.store h now hno heq
  | reap now maxAge => exact hi.reapSlots h _ heq
  | reapStep now maxAge maxScan => exact hi.reapFrom h _ heq

theorem Indexed.run (hi : t.Indexed) (h : t.Inv) {ops : List Op} (hno : t.noStoreRebuilds ops = true) :
    ∃ t', t.run ops = some t' ∧ t'.Inv ∧ t'.Indexed := by
  induction ops generalizing t with
  | nil => exact ⟨t, rfl, h, hi⟩
  | cons op ops ih =>
    obtain ⟨u, hu, hinv⟩ := h.step op
    rw [noStoreRebuilds, hu, all_some, Bool.and_eq_true, Bool.not_eq_true'] at hno
    rw [ChannelTable.run, List.foldlM_cons, hu]
    exact ih (hi.step h hno.1 hu) hinv hno.2

theorem indexed_new (n : Nat) : (new n).Indexed := by
  intro i ssrc hi
  exact Bool.noConfusion (hasSsrc_iff.1 hi).1

/-- In a run whose stores do not rebuild the index, every known SSRC of a live channel is found. -/
theorem run_ssrcComplete (maxChannels : Nat) (ops : List Op) (hno : (new maxChannels).noStoreRebuilds ops = true) :
    ∃ t, (new maxChannels).run ops = some t ∧ t.SsrcComplete := by
  obtain ⟨t, heq, hinv, hi⟩ := (indexed_new maxChannels).run (inv_new maxChannels) hno
  exact ⟨t, heq, hi.ssrcComplete hinv.keyInv⟩

/-- A channel that changes its SSRC twice, is reaped and comes back. -/
theorem run_ssrcComplete_changes :
    ∃ t, (new 1).run [.lookup ⟨2, [239, 0, 0, 1], 5000, by decide⟩ 0, .store 0 7 1316 0, .store 0 8 1316 1,
      .reap 100 30, .lookup ⟨2, [239, 0, 0, 1], 5000, by decide⟩ 101, .store 0 8 1316 101] = some t ∧ t.SsrcComplete :=
  run_ssrcComplete 1 _ (by decide +kernel)

/-- Four SSRCs in an index of four buckets: the fourth is rebuilt away before the channel has it. -/
theorem run_ssrc_lost : ∃ t, (new 1).run [.lookup ⟨2, [239, 0, 0, 1], 5000, by decide⟩ 0, .store 0 0 1316 0,
    .store 0 1 1316 1, .store 0 2 1316 2, .store 0 3 1316 3] = some t ∧
      t.hasSsrc 3 0 = true ∧ t.findBySsrc 3 = some none := by
  have hrun : ((new 1).run [.lookup ⟨2, [239, 0, 0, 1], 5000, by decide⟩ 0, .store 0 0 1316 0,
      .store 0 1 1316 1, .store 0 2 1316 2, .store 0 3 1316 3]).map
        (fun t => (t.hasSsrc 3 0, t.findBySsrc 3)) = some (true, some none) := by decide +kernel
  obtain ⟨t, ht, hfind⟩ := map_eq_some_iff.1 hrun
  exact ⟨t, ht, congrArg Prod.fst hfind, congrArg Prod.snd hfind⟩

end ChannelTable

end DvbIpiTools.Fccret
