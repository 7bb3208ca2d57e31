import DvbIpiTools.Dipixy.WsClients
import Mathlib.Data.List.Nodup
import Mathlib.Data.List.Perm.Subperm

set_option autoImplicit false

/-! # Runs of the client registry

The free slots and the slots in use part the array, and every client that can be found again is found under its hash.
This holds after every run in which no handle is removed whose client is gone while its slot still, or again, has the low
bits of the handle's generation, and in which no string is cut when it is stored. -/

namespace DvbIpiTools.Ws

open LinearProbe List Bool Nat

namespace Clients

/-- A client that is found by what it asks for. -/
def Pull (st : Clients) (i : Nat) : Prop := (st.client i).used = true ∧ (st.client i).persistent = false

/-- What holds between two calls. -/
structure Inv (big : Bool) (st : Clients) : Prop where
  size : ∃ k, st.hashCap = 2 ^ k
  room : st.cap < st.hashCap
  capLe : st.cap ≤ 2 ^ wsHandleIdxBits
  stripes : 0 < st.stripeCount
  nodup : st.free.Nodup
  mem_free : ∀ i, i ∈ st.free ↔ i < st.cap ∧ (st.client i).used = false
  used_lt : ∀ i, (st.client i).used = true → i < st.cap
  placed : ∀ s, Placed (fun i => st.home (st.client i).hash) (st.stripe s).hash st.hashCap
  unique : ∀ s, Unique id (st.stripe s).hash st.hashCap
  holds : ∀ s i, Holds (st.stripe s).hash st.hashCap i ↔ st.Pull i ∧ st.stripeOf (st.client i).hash = s
  hashed : ∀ i, st.Pull i → (st.client i).hash = clientHash big (st.client i).key
  keys : ∀ i j, st.Pull i → st.Pull j → (st.client i).key = (st.client j).key → i = j

theorem init_inv (big : Bool) {n : Nat} (hpos : 0 < n) (hle : n ≤ 2 ^ wsHandleIdxBits) : (init n).Inv big := by
  have hpow := Net.SockaddrIndex.nextPow2_spec (n * 2)
  have hnone : ∀ s i, ¬ Holds ((init n).stripe s).hash (init n).hashCap i := fun s i ⟨_, _, h⟩ => nomatch h
  have hunused : ∀ i, ((init n).client i).used ≠ true := fun i => by simp [init]
  refine {
    size := hpow.1, room := ?_, capLe := hle, stripes := ?_, nodup := ?_, mem_free := ?_
    used_lt := fun i h => absurd h (hunused i), placed := fun s => placed_empty _ _
    unique := fun s i _ j _ a b h => nomatch h
    holds := fun s i => ⟨fun h => absurd h (hnone s i), fun h => absurd h.1.1 (hunused i)⟩
    hashed := fun i h => absurd h.1 (hunused i), keys := fun i j h => absurd h.1 (hunused i) }
  · show n < Net.nextPow2 (n * 2)
    omega
  · show 0 < min n wsStripeCountMax
    have : 0 < wsStripeCountMax := by decide
    omega
  · exact nodup_reverse.2 nodup_range
  · intro i
    show i ∈ (range n).reverse ↔ i < n ∧ false = false
    rw [mem_reverse, mem_range]
    simp

/-! ## Walks -/

section walks

variable {big : Bool} {st : Clients}

theorem next_eq (h : st.Inv big) : st.next = succMod st.hashCap := by
  obtain ⟨k, hk⟩ := h.size
  unfold Clients.next
  rw [hk]
  exact succMod_two_pow k

theorem home_lt (h : st.Inv big) (hash : UInt32) : st.home hash < st.hashCap := by
  obtain ⟨k, hk⟩ := h.size
  rw [home, hk, and_two_pow_sub_one_eq_mod]
  exact Nat.mod_lt _ (Nat.two_pow_pos k)

theorem count_live_lt (h : st.Inv big) (s : Nat) : count Cell.isLive (st.stripe s).hash st.hashCap < st.hashCap := by
  have hnodup : (elems (st.stripe s).hash st.hashCap).Nodup := by
    have := nodup_elems (h.unique s)
    rwa [map_id] at this
  have hsub : elems (st.stripe s).hash st.hashCap ⊆ range st.cap := by
    intro i hi
    exact mem_range.2 (h.used_lt i ((h.holds s i).1 (mem_elems.1 hi)).1.1)
  have hlen := (subperm_of_subset hnodup hsub).length_le
  rw [length_elems, length_range] at hlen
  exact lt_of_le_of_lt hlen h.room

variable {i : Nat}

theorem hashDelete_eq (h : st.Inv big) (hpull : st.Pull i) :
    ∃ k < st.hashCap, (st.stripe (st.stripeOf (st.client i).hash)).hash k = .live i ∧
      st.hashDelete (st.stripe (st.stripeOf (st.client i).hash)) i =
        { hash := put (st.stripe (st.stripeOf (st.client i).hash)).hash k .dead
          tombCount := (st.stripe (st.stripeOf (st.client i).hash)).tombCount + 1 } := by
  obtain ⟨j, hj, hcell⟩ := (h.holds _ i).2 ⟨hpull, rfl⟩
  obtain ⟨k, hk, b, hprobe, hb, hbi⟩ := find_match (p := fun k => decide (k = i)) (home_lt h (st.client i).hash)
    (h.placed _ j hj i hcell) hcell (decide_eq_true rfl)
  obtain rfl : b = i := of_decide_eq_true hbi
  refine ⟨k, hk, hb, ?_⟩
  unfold hashDelete
  rw [next_eq h, hprobe]
  simp only [hb]
  rfl

theorem tryMatch_eq (h : st.Inv big) (hpull : st.Pull i) :
    st.tryMatch (st.stripe (st.stripeOf (clientHash big (st.client i).key))) (clientHash big (st.client i).key) (st.client i).key
      = some i := by
  have hhash := h.hashed i hpull
  obtain ⟨j, hj, hcell⟩ := (h.holds _ i).2 ⟨hpull, rfl⟩
  have hmatch : ((st.client i).used && !(st.client i).persistent && decide ((st.client i).key = (st.client i).key)) = true := by
    rw [hpull.1, hpull.2]
    simp
  obtain ⟨k, hk, b, hprobe, hb, hbi⟩ := find_match
    (p := fun b => (st.client b).used && !(st.client b).persistent && decide ((st.client b).key = (st.client i).key))
    (home_lt h (st.client i).hash) (h.placed _ j hj i hcell) hcell hmatch
  have hbeq : b = i := by
    simp only [and_eq_true, not_eq_true', decide_eq_true_eq] at hbi
    exact h.keys b i ⟨hbi.1.1, hbi.1.2⟩ hpull hbi.2
  unfold tryMatch
  rw [next_eq h, ← hhash]
  simp only [hprobe, hb, hbeq]

theorem tryMatch_some {stripe : Stripe} {hash : UInt32} {k : ClientKey} (hfound : st.tryMatch stripe hash k = some i) :
    st.Pull i ∧ (st.client i).key = k := by
  unfold tryMatch at hfound
  simp only at hfound
  split at hfound
  · cases hfound
  rename_i j hprobe
  split at hfound
  · rename_i b hb
    cases hfound
    rcases of_stopAt (probe_stop hprobe) with hempty | ⟨c, hc, hmatch⟩
    · rw [hempty] at hb
      cases hb
    · rw [hb] at hc
      obtain rfl := Cell.live.inj hc
      simp only [and_eq_true, not_eq_true', decide_eq_true_eq] at hmatch
      exact ⟨⟨hmatch.1.1, hmatch.1.2⟩, hmatch.2⟩
  · cases hfound

end walks

/-! ## Slots freed and taken -/

theorem inv_release {big : Bool} {st : Clients} (h : st.Inv big) {i : Nat} (hused : (st.client i).used = true)
    {c : Client} (hc : c.used = false) {stripe : Nat → Stripe}
    (hstripe : ∀ s, Placed (fun j => st.home (st.client j).hash) (stripe s).hash st.hashCap ∧ Unique id (stripe s).hash st.hashCap ∧ ∀ j, Holds (stripe s).hash st.hashCap j ↔ Holds (st.stripe s).hash st.hashCap j ∧ j ≠ i) :
    Inv big { st with client := fun j => if j = i then c else st.client j, free := i :: st.free, stripe } := by
  have hclient : ∀ j, j ≠ i → (if j = i then c else st.client j) = st.client j := fun j hj => if_neg hj
  have hpull : ∀ j, Pull { st with client := fun j => if j = i then c else st.client j, free := i :: st.free, stripe } j
      ↔ st.Pull j ∧ j ≠ i := by
    intro j
    unfold Pull
    by_cases hj : j = i
    · simp [hj, hc]
    · simp [hj]
  have hhash : ∀ {j}, j ≠ i → (if j = i then c else st.client j).hash = (st.client j).hash := fun hj => by rw [hclient _ hj]
  refine {
    size := h.size, room := h.room, capLe := h.capLe, stripes := h.stripes, nodup := ?_, mem_free := ?_, used_lt := ?_
    placed := ?_, unique := fun s => (hstripe s).2.1, holds := ?_, hashed := ?_, keys := ?_ }
  · refine nodup_cons.2 ⟨fun hi => ?_, h.nodup⟩
    rw [((h.mem_free i).1 hi).2] at hused
    cases hused
  · intro j
    show j ∈ i :: st.free ↔ j < st.cap ∧ (if j = i then c else st.client j).used = false
    by_cases hj : j = i
    · rw [hj, if_pos rfl]
      exact ⟨fun _ => ⟨h.used_lt i hused, hc⟩, fun _ => mem_cons_self ..⟩
    · rw [if_neg hj, mem_cons, h.mem_free]
      exact ⟨fun hm => hm.resolve_left hj, .inr⟩
  · intro j hj
    by_cases hji : j = i
    · rw [hji]
      exact h.used_lt i hused
    · have hj' : (if j = i then c else st.client j).used = true := hj
      rw [hclient j hji] at hj'
      exact h.used_lt j hj'
  · intro s
    refine (hstripe s).1.congr fun a ha => ?_
    have hai := (((hstripe s).2.2 a).1 ha).2
    show st.home _ = st.home _
    rw [hhash hai]
  · intro s j
    rw [hpull]
    rw [(hstripe s).2.2 j, h.holds]
    constructor
    · rintro ⟨⟨hp, hs⟩, hj⟩
      exact ⟨⟨hp, hj⟩, by rw [← hs]; exact congrArg st.stripeOf (hhash hj)⟩
    · rintro ⟨⟨hp, hj⟩, hs⟩
      exact ⟨⟨hp, by rw [← hs]; exact (congrArg st.stripeOf (hhash hj)).symm⟩, hj⟩
  · intro j hj
    obtain ⟨hp, hji⟩ := (hpull j).1 hj
    show (if j = i then c else st.client j).hash = clientHash big (if j = i then c else st.client j).key
    rw [hclient j hji]
    exact h.hashed j hp
  · intro j k hj hk hkey
    obtain ⟨hpj, hji⟩ := (hpull j).1 hj
    obtain ⟨hpk, hki⟩ := (hpull k).1 hk
    have hkey' : (if j = i then c else st.client j).key = (if k = i then c else st.client k).key := hkey
    rw [hclient j hji, hclient k hki] at hkey'
    exact h.keys j k hpj hpk hkey'

theorem unhash_stripes {big : Bool} {st : Clients} (h : st.Inv big) {i : Nat} (hpull : st.Pull i) (s : Nat) :
    Placed (fun j => st.home (st.client j).hash) ((st.unhash i).stripe s).hash st.hashCap ∧
      Unique id ((st.unhash i).stripe s).hash st.hashCap ∧
      ∀ j, Holds ((st.unhash i).stripe s).hash st.hashCap j ↔ Holds (st.stripe s).hash st.hashCap j ∧ j ≠ i := by
  obtain ⟨k, hk, hcell, hdelete⟩ := hashDelete_eq h hpull
  by_cases hs : s = st.stripeOf (st.client i).hash
  · have hstripe : ((st.unhash i).stripe s).hash = put (st.stripe s).hash k .dead := by
      show (if s = _ then st.hashDelete _ i else st.stripe s).hash = _
      rw [if_pos hs, hdelete, hs]
    rw [← hs] at hcell
    rw [hstripe]
    exact ⟨(h.placed s).kill k, (h.unique s).kill k, fun j => holds_put_dead (h.unique s) hk hcell j⟩
  · have hstripe : (st.unhash i).stripe s = st.stripe s := if_neg hs
    rw [hstripe]
    refine ⟨h.placed s, h.unique s, fun j => ⟨fun hj => ⟨hj, ?_⟩, And.left⟩⟩
    rintro rfl
    exact hs ((h.holds s j).1 hj).2.symm

section steps

variable {big : Bool} {st : Clients}

theorem evict_inv (h : st.Inv big) (now : Int) (i : Nat) : (st.evict now i).Inv big := by
  unfold evict
  simp only
  split
  · rename_i hidle
    simp only [and_eq_true, not_eq_true', decide_eq_true_eq] at hidle
    exact inv_release h hidle.1.1 rfl (unhash_stripes h ⟨hidle.1.1, hidle.1.2⟩)
  · exact h

theorem reinsert_eq {l : List Nat} {t t' : Nat → Cell Nat}
    (h : placeAll st.next (fun i => st.home (st.client i).hash) st.hashCap l t = some t') : st.reinsert l t = t' := by
  induction l generalizing t with
  | nil => exact Option.some.inj h
  | cons i l ih =>
    rw [placeAll] at h
    rw [reinsert]
    cases hk : freeCell st.next (fun i => st.home (st.client i).hash) t st.hashCap i with
    | none =>
      rw [hk] at h
      cases h
    | some k =>
      rw [hk] at h
      exact ih h

theorem rehash_stripe (h : st.Inv big) (mem : Bool) (s : Nat) :
    Placed (fun i => st.home (st.client i).hash) (st.stripeRehashIfNeeded mem (st.stripe s)).hash st.hashCap ∧
      Unique id (st.stripeRehashIfNeeded mem (st.stripe s)).hash st.hashCap ∧
      ∀ i, Holds (st.stripeRehashIfNeeded mem (st.stripe s)).hash st.hashCap i ↔ Holds (st.stripe s).hash st.hashCap i := by
  unfold stripeRehashIfNeeded
  split
  · exact ⟨h.placed s, h.unique s, fun _ => Iff.rfl⟩
  split
  · exact ⟨h.placed s, h.unique s, fun _ => Iff.rfl⟩
  obtain ⟨t', hplace, hplaced, hunique, hholds, -, -⟩ := @rebuild_spec _ _ (fun i => st.home (st.client i).hash) id st.hashCap
    (elems (st.stripe s).hash st.hashCap) (fun i => home_lt h _)
    (by rw [length_elems]; exact le_of_lt (count_live_lt h s)) (nodup_elems (h.unique s))
  rw [← next_eq h] at hplace
  simp only [reinsert_eq hplace]
  exact ⟨hplaced, hunique, fun i => (hholds i).trans mem_elems⟩

theorem rehash_inv (h : st.Inv big) (mem : Nat → Bool) : (st.rehash mem).Inv big := by
  have hstripe : ∀ s, Placed (fun i => st.home (st.client i).hash) ((st.rehash mem).stripe s).hash st.hashCap ∧
      Unique id ((st.rehash mem).stripe s).hash st.hashCap ∧
      ∀ i, Holds ((st.rehash mem).stripe s).hash st.hashCap i ↔ Holds (st.stripe s).hash st.hashCap i := by
    intro s
    show Placed _ (if s < st.stripeCount then _ else st.stripe s).hash _ ∧ _
    by_cases hs : s < st.stripeCount
    · have heq : (st.rehash mem).stripe s = st.stripeRehashIfNeeded (mem s) (st.stripe s) := if_pos hs
      rw [heq, if_pos hs]
      exact rehash_stripe h (mem s) s
    · have heq : (st.rehash mem).stripe s = st.stripe s := if_neg hs
      rw [heq, if_neg hs]
      exact ⟨h.placed s, h.unique s, fun _ => Iff.rfl⟩
  exact {
    size := h.size, room := h.room, capLe := h.capLe, stripes := h.stripes, nodup := h.nodup, mem_free := h.mem_free
    used_lt := h.used_lt, placed := fun s => (hstripe s).1, unique := fun s => (hstripe s).2.1
    holds := fun s i => ((hstripe s).2.2 i).trans (h.holds s i), hashed := h.hashed, keys := h.keys }

theorem tick_inv (h : st.Inv big) (mem : Nat → Bool) (now : Int) : (st.tick mem now).Inv big := by
  have hfold : ∀ (l : List Nat) (st : Clients), st.Inv big → (l.foldl (fun st i => st.evict now i) st).Inv big := by
    intro l
    induction l with
    | nil => exact fun _ h => h
    | cons i l ih => exact fun st h => ih _ (evict_inv h now i)
  exact rehash_inv (hfold _ _ h) mem

variable {i : Nat}

theorem handleIdx_pack {g : Nat} (hi : i < 2 ^ wsHandleIdxBits) : handleIdx (packHandle i g) = i := by
  unfold handleIdx packHandle
  rw [Nat.and_two_pow_sub_one_eq_mod, Nat.or_comm, ← Nat.shiftLeft_add_eq_or_of_lt hi, Nat.shiftLeft_eq,
    add_comm, add_mul_mod_self_right, mod_eq_of_lt hi]

theorem handleGen_pack (g : Nat) (hi : i < 2 ^ wsHandleIdxBits) :
    handleGen (packHandle i g) = g % 2 ^ wsHandleGenBits := by
  unfold handleGen packHandle
  rw [Nat.or_comm, ← Nat.shiftLeft_add_eq_or_of_lt hi, Nat.shiftLeft_eq, Nat.and_two_pow_sub_one_eq_mod,
    Nat.and_two_pow_sub_one_eq_mod, Nat.shiftRight_eq_div_pow, mul_comm, Nat.mul_add_div (Nat.two_pow_pos _),
    Nat.div_eq_of_lt hi, add_zero, Nat.mod_mod]

/-- The client that was given slot `i` in generation `g` is there. -/
def Alive (st : Clients) (i g : Nat) : Prop := (st.client i).used = true ∧ (st.client i).gen = g

instance (st : Clients) (i g : Nat) : Decidable (st.Alive i g) := inferInstanceAs (Decidable (_ ∧ _))

theorem remove_inv (h : st.Inv big) {g : Nat} (hi : i < st.cap) (hok : st.Alive i g ∨ (st.client i).gen % 2 ^ wsHandleGenBits ≠ g % 2 ^ wsHandleGenBits) :
    (st.remove (packHandle i g)).Inv big := by
  have hlt : i < 2 ^ wsHandleIdxBits := lt_of_lt_of_le hi h.capLe
  unfold remove
  simp only
  rw [handleIdx_pack hlt, handleGen_pack g hlt, and_two_pow_sub_one_eq_mod, if_neg (by omega)]
  split
  · rename_i hgen
    have halive : st.Alive i g := hok.resolve_right fun hne => hne hgen
    split
    · rename_i hpersistent
      refine inv_release h halive.1 rfl fun s => ⟨h.placed s, h.unique s, fun j => ⟨fun hj => ⟨hj, ?_⟩, And.left⟩⟩
      rintro rfl
      have := ((h.holds s j).1 hj).1.2
      rw [hpersistent] at this
      cases this
    · rename_i hpull
      exact inv_release h halive.1 rfl (unhash_stripes h ⟨halive.1, by simpa using hpull⟩)
  · exact h

theorem inv_claim (h : st.Inv big) {free : List Nat} (hfree : st.free = i :: free) {c : Client}
    (hused : c.used = true) {stripe : Nat → Stripe}
    (hplaced : ∀ s, Placed (fun j => st.home (if j = i then c else st.client j).hash) (stripe s).hash st.hashCap)
    (hunique : ∀ s, Unique id (stripe s).hash st.hashCap)
    (hholds : ∀ s j, Holds (stripe s).hash st.hashCap j ↔ Holds (st.stripe s).hash st.hashCap j ∨ j = i ∧ c.persistent = false ∧ st.stripeOf c.hash = s)
    (hhash : c.persistent = false → c.hash = clientHash big c.key)
    (hkey : c.persistent = false → ∀ j, st.Pull j → (st.client j).key ≠ c.key) :
    Inv big { st with client := fun j => if j = i then c else st.client j, free, stripe } := by
  have hnodup := h.nodup
  rw [hfree, nodup_cons] at hnodup
  obtain ⟨hi, hunused⟩ := (h.mem_free i).1 (by rw [hfree]; exact mem_cons_self ..)
  have hclient : ∀ j, j ≠ i → (if j = i then c else st.client j) = st.client j := fun j hj => if_neg hj
  have hnotpull : ¬ st.Pull i := fun hp => by
    rw [hp.1] at hunused
    cases hunused
  have hpull : ∀ j, Pull { st with client := fun j => if j = i then c else st.client j, free, stripe } j
      ↔ st.Pull j ∨ j = i ∧ c.persistent = false := by
    intro j
    unfold Pull
    by_cases hj : j = i
    · rw [hj] at *
      show (if i = i then c else st.client i).used = true ∧ (if i = i then c else st.client i).persistent = false ↔ _
      rw [if_pos rfl]
      exact ⟨fun hp => .inr ⟨rfl, hp.2⟩, fun hp => ⟨hused, (hp.resolve_left hnotpull).2⟩⟩
    · simp [hj]
  have hne : ∀ j, st.Pull j → j ≠ i := fun j hj hji => hnotpull (hji ▸ hj)
  refine {
    size := h.size, room := h.room, capLe := h.capLe, stripes := h.stripes, nodup := hnodup.2, mem_free := ?_, used_lt := ?_
    placed := hplaced, unique := hunique, holds := ?_, hashed := ?_, keys := ?_ }
  · intro j
    show j ∈ free ↔ j < st.cap ∧ (if j = i then c else st.client j).used = false
    by_cases hj : j = i
    · rw [hj, if_pos rfl, hused]
      exact ⟨fun hm => absurd hm hnodup.1, fun hm => absurd hm.2 (by simp)⟩
    · rw [if_neg hj, ← h.mem_free, hfree, mem_cons]
      exact ⟨.inr, fun hm => hm.resolve_left hj⟩
  · intro j hj
    by_cases hji : j = i
    · rw [hji]
      exact hi
    · have hj' : (if j = i then c else st.client j).used = true := hj
      rw [hclient j hji] at hj'
      exact h.used_lt j hj'
  · intro s j
    rw [hpull]
    show Holds (stripe s).hash st.hashCap j ↔ (_ ∧ st.stripeOf (if j = i then c else st.client j).hash = s)
    rw [hholds, h.holds]
    by_cases hj : j = i
    · rw [hj, if_pos rfl]
      exact ⟨fun hm => hm.elim (fun hp => absurd hp.1 hnotpull) fun hm => ⟨.inr ⟨rfl, hm.2.1⟩, hm.2.2⟩,
        fun hm => .inr ⟨rfl, (hm.1.resolve_left hnotpull).2, hm.2⟩⟩
    · rw [if_neg hj]
      exact ⟨fun hm => hm.elim (fun hp => ⟨.inl hp.1, hp.2⟩) fun hm => absurd hm.1 hj,
        fun hm => .inl ⟨hm.1.resolve_right fun hm => hj hm.1, hm.2⟩⟩
  · intro j hj
    show (if j = i then c else st.client j).hash = clientHash big (if j = i then c else st.client j).key
    rcases (hpull j).1 hj with hp | ⟨rfl, hc⟩
    · rw [hclient j (hne j hp)]
      exact h.hashed j hp
    · rw [if_pos rfl]
      exact hhash hc
  · intro j k hj hk hkeys
    have hkeys' : (if j = i then c else st.client j).key = (if k = i then c else st.client k).key := hkeys
    rcases (hpull j).1 hj with hpj | ⟨rfl, hcj⟩
    · rw [hclient j (hne j hpj)] at hkeys'
      rcases (hpull k).1 hk with hpk | ⟨rfl, hck⟩
      · rw [hclient k (hne k hpk)] at hkeys'
        exact h.keys j k hpj hpk hkeys'
      · rw [if_pos rfl] at hkeys'
        exact absurd hkeys' (hkey hck j hpj)
    · rw [if_pos rfl] at hkeys'
      rcases (hpull k).1 hk with hpk | ⟨rfl, hck⟩
      · rw [hclient k (hne k hpk)] at hkeys'
        exact absurd hkeys'.symm (hkey hcj k hpk)
      · rfl

end steps

/-! ## Runs -/

theorem bufcpy_eq {n : Nat} {s : List UInt8} (h : s.length < n) : bufcpy n s = s := if_pos h

theorem pidFilterFormat_length (pids : List UInt16) : (pidFilterFormat pids 128).length < 128 := by
  rw [pidFilterFormat, length_take]
  omega

end Clients

/-- Every string fits the array in which it is stored. -/
def ClientInfo.Fits (info : ClientInfo) : Prop :=
  info.ip.length < 64 ∧ info.srcProto.length < 16 ∧ info.srcAddr.length < 80 ∧ info.srcName.length < 64 ∧
    info.itemName.length < 128

variable {info : ClientInfo}

theorem ClientInfo.Fits.fillKey (h : info.Fits) : fillKey info = info.key := by
  obtain ⟨h1, h2, h3, h4, h5⟩ := h
  unfold Ws.fillKey ClientInfo.key
  rw [Clients.bufcpy_eq h1, Clients.bufcpy_eq h2, Clients.bufcpy_eq h3, Clients.bufcpy_eq h4, Clients.bufcpy_eq h5,
    Clients.bufcpy_eq (Clients.pidFilterFormat_length _)]

namespace Clients

/-- A call. A handle is named by the slot and the generation that it was made of. -/
inductive Op where
  | touch (info : ClientInfo) (now : Int)
  | addPersistent (info : ClientInfo) (now : Int)
  | remove (i g : Nat)
  | tick (mem : Nat → Bool) (now : Int)

def Op.apply (big : Bool) (st : Clients) : Op → Clients
  | .touch info now => (st.touch big info now).2
  | .addPersistent info now => (st.addPersistent info now).2
  | .remove i g => st.remove (packHandle i g)
  | .tick mem now => st.tick mem now

def run (big : Bool) (st : Clients) (ops : List Op) : Clients := ops.foldl (Op.apply big) st

/-- The condition on a call: what is touched can be stored, and the handle that is removed is that of a client that is
there, or its slot has not the same low bits of the generation. -/
def Op.Ok (st : Clients) : Op → Prop
  | .touch info _ => info.Fits
  | .addPersistent _ _ => True
  | .remove i g => i < st.cap ∧ (st.Alive i g ∨ (st.client i).gen % 2 ^ wsHandleGenBits ≠ g % 2 ^ wsHandleGenBits)
  | .tick _ _ => True

/-- Every call of a run meets its condition. -/
def RunOk (big : Bool) : Clients → List Op → Prop
  | _, [] => True
  | st, op :: ops => op.Ok st ∧ RunOk big (op.apply big st) ops

section runs

variable {big : Bool} {st : Clients} (h : st.Inv big)

include h

theorem Inv.not_holds {i : Nat} {free : List Nat} (hfree : st.free = i :: free) (s : Nat) :
    ¬ Holds (st.stripe s).hash st.hashCap i := by
  intro hi
  have hused := ((h.holds s i).1 hi).1.1
  rw [((h.mem_free i).1 (hfree ▸ mem_cons_self)).2] at hused
  cases hused

theorem addPersistent_inv (info : ClientInfo) (now : Int) : (st.addPersistent info now).2.Inv big := by
  unfold addPersistent
  split
  · exact h
  rename_i i free hfree
  have hnot := h.not_holds hfree
  refine inv_claim h hfree rfl (fun s => (h.placed s).congr fun j hj => ?_) h.unique (fun s j => ?_)
    (fun hc => absurd hc (by simp [claimed])) (fun hc => absurd hc (by simp [claimed]))
  · have hji : j ≠ i := fun hji => hnot s (hji ▸ hj)
    simp only [if_neg hji]
  · exact ⟨.inl, fun hm => hm.resolve_right fun hj => absurd hj.2.1 (by simp [claimed])⟩

theorem hashInsert_spec (s : Nat) {home : Nat → Nat} {hash : UInt32} {i : Nat} (hhome : home i = st.home hash)
    (hplaced : Placed home (st.stripe s).hash st.hashCap) (hnew : ¬ Holds (st.stripe s).hash st.hashCap i) :
    Placed home (st.hashInsert (st.stripe s) hash i).hash st.hashCap ∧
      Unique id (st.hashInsert (st.stripe s) hash i).hash st.hashCap ∧
      ∀ j, Holds (st.hashInsert (st.stripe s) hash i).hash st.hashCap j ↔ j = i ∨ Holds (st.stripe s).hash st.hashCap j := by
  obtain ⟨k, hk, hprobe, hfree, hreach⟩ := probe_free (home_lt h hash) (count_live_lt h s)
  have hinsert : (st.hashInsert (st.stripe s) hash i).hash = put (st.stripe s).hash k (.live i) := by
    unfold hashInsert
    rw [next_eq h, hprobe]
  rw [hinsert]
  refine ⟨hplaced.live (by rw [hhome]; exact hreach), (h.unique s).live fun b hb hbi => hnew ?_, holds_put_live hk hfree⟩
  rwa [show b = i from hbi] at hb

theorem touch_inv (hfits : info.Fits) (now : Int) : (st.touch big info now).2.Inv big := by
  unfold touch
  rw [if_neg (ne_of_gt h.stripes)]
  simp only
  split
  · rename_i i hfound
    -- only the time has changed
    have hpull : ∀ j, (st.refresh i now).Pull j ↔ st.Pull j := by
      intro j
      unfold Pull refresh setClient
      by_cases hj : j = i <;> simp [hj]
    have hsame : ∀ j, ((st.refresh i now).client j).hash = (st.client j).hash ∧ ((st.refresh i now).client j).key = (st.client j).key ∧
        ((st.refresh i now).client j).used = (st.client j).used := by
      intro j
      unfold refresh setClient
      by_cases hj : j = i <;> simp [hj]
    exact {
      size := h.size, room := h.room, capLe := h.capLe, stripes := h.stripes, nodup := h.nodup
      mem_free := fun j => by rw [(hsame j).2.2]; exact h.mem_free j
      used_lt := fun j hj => h.used_lt j (by rwa [(hsame j).2.2] at hj)
      placed := fun s => (h.placed s).congr fun j _ => congrArg st.home (hsame j).1
      unique := h.unique
      holds := fun s j => by rw [hpull, (hsame j).1]; exact h.holds s j
      hashed := fun j hj => by rw [(hsame j).1, (hsame j).2.1]; exact h.hashed j ((hpull j).1 hj)
      keys := fun j k hj hk hkey => h.keys j k ((hpull j).1 hj) ((hpull k).1 hk) (by rwa [(hsame j).2.1, (hsame k).2.1] at hkey) }
  · rename_i hnone
    split
    · exact h
    rename_i i free hfree
    have hnot := h.not_holds hfree
    have hplaced : ∀ s, Placed (fun j => st.home (if j = i then st.claimed i info false (clientHash big info.key) now
        else st.client j).hash) (st.stripe s).hash st.hashCap := fun s => (h.placed s).congr fun j hj => by
      have hji : j ≠ i := fun hji => hnot s (hji ▸ hj)
      simp only [if_neg hji]
    have hinsert := @hashInsert_spec _ _ h (st.stripeOf (clientHash big info.key)) _ (clientHash big info.key) i
      (by rw [if_pos rfl]; rfl) (hplaced _) (hnot _)
    refine inv_claim (c := st.claimed i info false (clientHash big info.key) now) h hfree rfl (fun s => ?_) (fun s => ?_)
      (fun s j => ?_) (fun _ => ?_) (fun _ j hj hkey => ?_)
    · by_cases hs : s = st.stripeOf (clientHash big info.key)
      · subst hs
        simp only [if_true]
        exact hinsert.1
      · simp only [if_neg hs]
        exact hplaced s
    · by_cases hs : s = st.stripeOf (clientHash big info.key)
      · subst hs
        simp only [if_true]
        exact hinsert.2.1
      · simp only [if_neg hs]
        exact h.unique s
    · by_cases hs : s = st.stripeOf (clientHash big info.key)
      · subst hs
        simp only [if_true]
        exact (hinsert.2.2 j).trans ⟨fun hm => hm.elim (fun hj => .inr ⟨hj, rfl, rfl⟩) .inl,
          fun hm => hm.elim .inr fun hj => .inl hj.1⟩
      · simp only [if_neg hs]
        exact ⟨.inl, fun hm => hm.resolve_right fun hj => hs hj.2.2.symm⟩
    · show clientHash big info.key = clientHash big (fillKey info)
      rw [hfits.fillKey]
    · -- a client with this key would have been found
      have hkey' : (st.client j).key = info.key := hkey.trans hfits.fillKey
      have hfound := tryMatch_eq h hj
      rw [hkey'] at hfound
      rw [hfound] at hnone
      cases hnone

theorem Op.inv {op : Op} (hok : op.Ok st) : (op.apply big st).Inv big := by
  cases op with
  | touch info now => exact touch_inv h hok now
  | addPersistent info now => exact addPersistent_inv h info now
  | remove i g => exact remove_inv h hok.1 hok.2
  | tick mem now => exact tick_inv h mem now

theorem run_inv {ops : List Op} (hok : RunOk big st ops) : (run big st ops).Inv big := by
  induction ops generalizing st with
  | nil => exact h
  | cons op ops ih => exact ih (op.inv h hok.1) hok.2

omit h

end runs

/-! ## A client while it is there -/

/-- Generations only grow, and a client that is there in the same generation has been there all the time. -/
structure Kept (st st' : Clients) (i : Nat) : Prop where
  gen_le : (st.client i).gen ≤ (st'.client i).gen
  same : (st'.client i).gen = (st.client i).gen → (st'.client i).used = true →
    (st.client i).used = true ∧ (st'.client i).key = (st.client i).key ∧ (st'.client i).persistent = (st.client i).persistent

theorem Kept.refl (st : Clients) (i : Nat) : Kept st st i := ⟨le_rfl, fun _ h => ⟨h, rfl, rfl⟩⟩

variable {st' : Clients} {i : Nat}

theorem Kept.of_eq {st : Clients} (h : st'.client i = st.client i) : Kept st st' i :=
  ⟨by rw [h], fun _ hu => by rw [h] at hu ⊢; exact ⟨hu, rfl, rfl⟩⟩

theorem Kept.trans {st st'' : Clients} (h : Kept st st' i) (h' : Kept st' st'' i) : Kept st st'' i := by
  have hle := h.gen_le
  have hle' := h'.gen_le
  refine ⟨le_trans hle hle', fun hgen hused => ?_⟩
  obtain ⟨hused', hkey', hpers'⟩ := h'.same (by omega) hused
  obtain ⟨hused'', hkey'', hpers''⟩ := h.same (by omega) hused'
  exact ⟨hused'', hkey'.trans hkey'', hpers'.trans hpers''⟩

theorem Kept.set {st : Clients} {j : Nat} {c : Client} (hclient : st'.client = fun k => if k = j then c else st.client k)
    (hgen : (st.client j).gen ≤ c.gen) (hc : c.gen = (st.client j).gen → c.used = false) : Kept st st' i := by
  by_cases hij : i = j
  · subst hij
    have hi : st'.client i = c := by rw [hclient]; exact if_pos rfl
    refine ⟨by rw [hi]; exact hgen, fun hg hu => ?_⟩
    rw [hi] at hg hu
    rw [hc hg] at hu
    cases hu
  · exact .of_eq (by rw [hclient]; exact if_neg hij)

theorem Op.kept (big : Bool) (st : Clients) (op : Op) (i : Nat) : Kept st (op.apply big st) i := by
  cases op with
  | touch info now =>
    show Kept st (st.touch big info now).2 i
    unfold Clients.touch
    split
    · exact .refl st i
    simp only
    split
    · rename_i j hfound
      by_cases hij : i = j
      · subst hij
        refine ⟨?_, fun _ hu => ?_⟩
        · simp [refresh, setClient]
        · simp only [refresh, setClient, if_true] at hu ⊢
          exact ⟨hu, trivial, trivial⟩
      · exact .of_eq (if_neg hij)
    · split
      · exact .refl st i
      · rename_i j free hfree
        exact .set (c := st.claimed j info false _ now) rfl (le_succ _) fun h => absurd h (succ_ne_self _)
  | addPersistent info now =>
    show Kept st (st.addPersistent info now).2 i
    unfold Clients.addPersistent
    split
    · exact .refl st i
    · rename_i j free hfree
      exact .set (c := st.claimed j info true 0 now) rfl (le_succ _) fun h => absurd h (succ_ne_self _)
  | remove j g =>
    show Kept st (st.remove (packHandle j g)) i
    unfold Clients.remove
    simp only
    split
    · exact .refl st i
    split
    · have hunhash : ∀ k, (if (st.client k).persistent then st else st.unhash k).client = st.client := by
        intro k
        split <;> rfl
      refine .set (j := handleIdx (packHandle j g)) (c := { st.client (handleIdx (packHandle j g)) with
        used := false, gen := (st.client (handleIdx (packHandle j g))).gen + 1 }) ?_ (le_succ _) fun _ => rfl
      funext k
      show (if k = _ then _ else (if _ then st else st.unhash _).client k) = if k = _ then _ else st.client k
      rw [hunhash]
    · exact .refl st i
  | tick mem now =>
    have hfold : ∀ (l : List Nat) (st : Clients), Kept st (l.foldl (fun st i => st.evict now i) st) i := by
      intro l
      induction l with
      | nil => exact fun st => .refl st i
      | cons j l ih =>
        intro st
        refine Kept.trans ?_ (ih _)
        unfold evict
        simp only
        split
        · exact .set (c := { st.client j with used := false }) rfl le_rfl fun _ => rfl
        · exact .refl st i
    exact (hfold (range st.cap) st).trans (.of_eq rfl)

theorem run_kept (big : Bool) (st : Clients) (ops : List Op) (i : Nat) : Kept st (run big st ops) i := by
  induction ops generalizing st with
  | nil => exact .refl st i
  | cons op ops ih => exact (op.kept big st i).trans (ih _)

section touching

variable {big : Bool} {st : Clients}

theorem touch_again (h : st.Inv big) {i : Nat} (hpull : st.Pull i) (hkey : (st.client i).key = info.key)
    (now : Int) : st.touch big info now = (some (packHandle i (st.client i).gen), st.refresh i now) := by
  have hfound := tryMatch_eq h hpull
  rw [hkey] at hfound
  unfold touch
  rw [if_neg (ne_of_gt h.stripes)]
  simp only [hfound]

theorem touch_pull (h : st.Inv big) (hfits : info.Fits) (now : Int) :
    (st.touch big info now).1 = none ∨ ∃ i g, (st.touch big info now).1 = some (packHandle i g) ∧
      (st.touch big info now).2.Alive i g ∧ (st.touch big info now).2.Pull i ∧
      ((st.touch big info now).2.client i).key = info.key := by
  unfold touch
  rw [if_neg (ne_of_gt h.stripes)]
  simp only
  split
  · rename_i i hfound
    obtain ⟨hpull, hkey⟩ := tryMatch_some hfound
    right
    refine ⟨i, (st.client i).gen, rfl, ?_⟩
    simp only [Alive, Pull, refresh, setClient, if_true]
    exact ⟨⟨hpull.1, trivial⟩, hpull, hkey⟩
  split
  · exact .inl rfl
  · rename_i i free hfree
    right
    refine ⟨i, (st.client i).gen + 1, rfl, ?_⟩
    simp only [Alive, Pull, setStripe, setClient, if_true, claimed]
    exact ⟨⟨trivial, trivial⟩, ⟨trivial, trivial⟩, hfits.fillKey⟩

theorem remove_dead (h : st.Inv big) {i g : Nat} (hi : i < st.cap)
    (hgen : (st.client i).gen % 2 ^ wsHandleGenBits ≠ g % 2 ^ wsHandleGenBits) : st.remove (packHandle i g) = st := by
  have hlt : i < 2 ^ wsHandleIdxBits := lt_of_lt_of_le hi h.capLe
  unfold remove
  simp only
  rw [handleIdx_pack hlt, handleGen_pack g hlt, and_two_pow_sub_one_eq_mod, if_neg (by omega), if_neg hgen]

theorem run_append (st : Clients) (ops ops' : List Op) : run big st (ops ++ ops') = run big (run big st ops) ops' :=
  foldl_append

theorem runOk_append {ops ops' : List Op} (h : RunOk big st (ops ++ ops')) :
    RunOk big st ops ∧ RunOk big (run big st ops) ops' := by
  induction ops generalizing st with
  | nil => exact ⟨trivial, h⟩
  | cons op ops ih =>
    obtain ⟨h1, h2⟩ := ih h.2
    exact ⟨⟨h.1, h1⟩, h2⟩

end touching

/-- After every run whose calls meet their condition: no slot is free twice, the free slots are those not in use, every
client that can be found is found under its hash, the handle of a client that is gone removes nothing, and what has been
touched is found again, in the same slot, as long as it is there. -/
theorem registry_runs (big : Bool) {n : Nat} (hpos : 0 < n) (hle : n ≤ 65536) {ops : List Op} (hok : RunOk big (init n) ops) :
    (run big (init n) ops).free.Nodup ∧
      (∀ i, i ∈ (run big (init n) ops).free ↔ i < (run big (init n) ops).cap ∧ ((run big (init n) ops).client i).used = false) ∧
      (∀ i, ((run big (init n) ops).client i).used = true → i < (run big (init n) ops).cap) ∧
      (∀ i, (run big (init n) ops).Pull i →
        let stripe := (run big (init n) ops).stripe ((run big (init n) ops).stripeOf ((run big (init n) ops).client i).hash)
        ∃ k, stripe.hash k = .live i ∧ Reach stripe.hash (run big (init n) ops).hashCap
          ((run big (init n) ops).home ((run big (init n) ops).client i).hash) k) ∧
      (∀ i g, (Op.remove i g).Ok (run big (init n) ops) → ¬ (run big (init n) ops).Alive i g →
        (run big (init n) ops).remove (packHandle i g) = run big (init n) ops) ∧
      ∀ before info now after, ops = before ++ .touch info now :: after →
        ((run big (init n) before).touch big info now).1 = none ∨
          ∃ i g, ((run big (init n) before).touch big info now).1 = some (packHandle i g) ∧
            ((run big (init n) ops).Alive i g → ∀ now',
              (run big (init n) ops).touch big info now' = (some (packHandle i g), (run big (init n) ops).refresh i now')) := by
  have hinit : (init n).Inv big := init_inv big hpos (le_trans hle (by decide))
  have hinv := run_inv hinit hok
  refine ⟨hinv.nodup, hinv.mem_free, hinv.used_lt, ?_, ?_, ?_⟩
  · intro i hpull
    obtain ⟨k, hk, hcell⟩ := (hinv.holds _ i).2 ⟨hpull, rfl⟩
    exact ⟨k, hcell, hinv.placed _ k hk i hcell⟩
  · intro i g hop hdead
    exact remove_dead hinv hop.1 (hop.2.resolve_left hdead)
  · rintro before info now after rfl
    obtain ⟨hbefore, hrest⟩ := runOk_append hok
    rcases touch_pull (run_inv hinit hbefore) hrest.1 now with hnone | ⟨i, g, hhandle, halive, hpull, hkey⟩
    · exact .inl hnone
    refine .inr ⟨i, g, hhandle, fun hthere now' => ?_⟩
    have hkept := run_kept big ((run big (init n) before).touch big info now).2 after i
    rw [run_append] at hthere hinv ⊢
    obtain ⟨-, hkey', hpers'⟩ := hkept.same (hthere.2.trans halive.2.symm) hthere.1
    have hagain := touch_again hinv ⟨hthere.1, hpers'.trans hpull.2⟩ (hkey'.trans hkey) now'
    rw [hthere.2] at hagain
    exact hagain

/-- A client with nothing but its address. -/
def plainClient : ClientInfo := ⟨[49], 1, .hls, 0, [], [], [], 0, [], 0, []⟩

/-- It is touched and removed, and its slot is given to a client for the time of its connection. -/
def plainRun : List Op := [.touch plainClient 0, .remove 1 1, .addPersistent plainClient 5]

theorem plainRun_runs : (run false (init 2) plainRun).free.Nodup := by
  have htouch : plainClient.Fits := by
    unfold ClientInfo.Fits
    decide
  have hthere : (run false (init 2) [.touch plainClient 0]).Alive 1 1 := by decide +kernel
  have hremove : (Op.remove 1 1).Ok (run false (init 2) [.touch plainClient 0]) := ⟨by decide +kernel, .inl hthere⟩
  have hok : RunOk false (init 2) plainRun := ⟨htouch, hremove, trivial, trivial⟩
  exact (registry_runs false (by decide) (by decide) hok).1

/-- The only slot is evicted, and then free twice once its client is removed as well. -/
theorem evicted_client_removed :
    ¬ (run false (init 1) [.touch plainClient 0, .tick (fun _ => true) 100, .remove 0 1]).free.Nodup := by
  decide +kernel

end Clients

end DvbIpiTools.Ws
