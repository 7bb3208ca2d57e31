import DvbIpiTools.Net.SockaddrIndex
import Mathlib.Data.Finset.Card

set_option autoImplicit false

/-! # The channel table (`channel/channel.c`, `channel/hash.c`)

A fixed array of channels with three indexes: by (family, address, port), by SSRC and by resolve slot.
The operations run one after the other here. Of a channel only what the indexes need is kept (not its
rings, caches and meters). A claimed bucket is either published or rolled back within the same
operation, which reads no bucket in between, so the claim mark itself does not show. `none` stands for a
loop that does not end. -/

namespace DvbIpiTools.Fccret

open LinearProbe List Nat

/-- The key of a channel; the address is kept in 16 bytes. -/
structure ChanKey where
  family : UInt32
  addr : List UInt8
  port : UInt32
  addr_le : addr.length ≤ 16
deriving DecidableEq

def chanKeyHash (k : ChanKey) : Nat :=
  let h := k.addr.foldl (fun h b => Net.fnvStep h b.toUInt64) 1469598103934665603
  (Net.fnvStep (Net.fnvStep h k.family.toUInt64) k.port.toUInt64).toNat

def chanSsrcHash (ssrc : UInt32) : Nat := (Net.fnvStep 1469598103934665603 ssrc.toUInt64).toNat

/-- `channel_t`. -/
structure Channel where
  inUse : Bool := false
  key : ChanKey := ⟨0, [], 0, by decide⟩
  resolveSlot : Nat := 0
  ssrc : UInt32 := 0
  ssrcKnown : Bool := false
  lastSeen : Int := 0
  generation : Nat := 0

/-- `struct channel_table`. A bucket that holds `slot + 1` is a live cell with the slot; in
    `resolveHash` 0 is no channel. -/
structure ChannelTable where
  chan : Nat → Channel
  maxChannels : Nat
  hash : Nat → Cell Nat
  hashSize : Nat
  hashUsed : Nat
  ssrcHash : Nat → Cell Nat
  ssrcHashUsed : Nat
  resolveHash : Nat → Nat
  reapCursor : Nat

def channelDefaultMax : Nat := 300
def channelMaxPayload : Nat := 1472

namespace ChannelTable

/-- `channel_table_new`. -/
def new (maxChannels : Nat) : ChannelTable :=
  let n := if maxChannels = 0 then channelDefaultMax else maxChannels
  { chan := fun _ => {}
    maxChannels := n
    hash := fun _ => .empty
    hashSize := if Net.nextPow2 (n * 2) < 4 then 4 else Net.nextPow2 (n * 2)
    hashUsed := 0
    ssrcHash := fun _ => .empty
    ssrcHashUsed := 0
    resolveHash := fun _ => 0
    reapCursor := 0 }

/-- `(h + 1) & hash_mask`. -/
def nextBucket (t : ChannelTable) (h : Nat) : Nat := (h + 1) &&& (t.hashSize - 1)

/-- `chan_key_hash(..) & hash_mask`. -/
def home (t : ChannelTable) (k : ChanKey) : Nat := chanKeyHash k &&& (t.hashSize - 1)

/-- `chan_ssrc_hash(..) & ssrc_hash_mask`; both tables have one size. -/
def ssrcHome (t : ChannelTable) (ssrc : UInt32) : Nat := chanSsrcHash ssrc &&& (t.hashSize - 1)

/-- The load at which an index is rebuilt. -/
def highLoad (t : ChannelTable) : Nat := t.hashSize / 4 * 3

/-- The table with the channel `i` replaced. -/
def setChan (t : ChannelTable) (i : Nat) (c : Channel) : ChannelTable :=
  { t with chan := fun j => if j = i then c else t.chan j }

/-- The slots whose channel is in use. -/
def liveSlots (t : ChannelTable) : List Nat := (range t.maxChannels).filter fun i => (t.chan i).inUse

/-- `chan_hash_rebuild`. -/
def rebuildHash (t : ChannelTable) : Option ChannelTable :=
  match placeAll t.nextBucket (fun i => t.home (t.chan i).key) t.hashSize t.liveSlots
    (fun _ => .empty) with
  | none => none
  | some hash => some { t with hash, hashUsed := t.liveSlots.length }

/-- `chan_hash_find_or_claim`. -/
def hashFindOrClaim (t : ChannelTable) (k : ChanKey) : Option (Claim Nat) :=
  findOrClaim t.nextBucket (fun i => (t.chan i).inUse && (t.chan i).key = k) t.hash t.hashSize
    (t.home k) none

def resolveEntryLive (t : ChannelTable) (entry slot : Nat) : Bool :=
  entry ≠ 0 && (t.chan (entry - 1)).inUse && (t.chan (entry - 1)).resolveSlot = slot

/-- The resolve slot of a new channel: the first whose entry is not live. -/
def freeResolveSlot (t : ChannelTable) (k : ChanKey) : Nat :=
  let start := chanKeyHash k % t.maxChannels
  (probe (succMod t.maxChannels) (fun r => !t.resolveEntryLive (t.resolveHash r) r) t.maxChannels
    start).getD start

/-- The channel `i` reclaimed for `k`. -/
def freshChannel (t : ChannelTable) (i : Nat) (k : ChanKey) (now : Int) : Channel where
  inUse := true
  key := k
  resolveSlot := t.freeResolveSlot k
  lastSeen := now
  generation := (t.chan i).generation + 1

/-- The claim published for the slot `i`, with the channel in it. -/
def createChannel (t : ChannelTable) (i : Nat) (k : ChanKey) (now : Int) (c : Nat)
    (wasTombstone : Bool) : ChannelTable :=
  let rb := t.freeResolveSlot k
  { t.setChan i (t.freshChannel i k now) with
    hash := put t.hash c (.live i)
    hashUsed := if wasTombstone then t.hashUsed else t.hashUsed + 1
    resolveHash := fun r => if r = rb then i + 1 else t.resolveHash r }

/-- The end of `channel_lookup`. -/
def rebuildIfLoaded (t : ChannelTable) : Option ChannelTable :=
  if t.hashUsed > t.highLoad then t.rebuildHash else some t

/-- `channel_lookup`: the slot of the channel, if there is room for it, and the table. -/
def lookup (t : ChannelTable) (k : ChanKey) (now : Int) : Option (Option Nat × ChannelTable) :=
  match t.hashFindOrClaim k with
  | none => none
  | some (.found i) => t.rebuildIfLoaded.map fun t' => (some i, t')
  | some (.claimed c wasTombstone) =>
    match (range t.maxChannels).find? fun i => !(t.chan i).inUse with
    | none => t.rebuildIfLoaded.map fun t' => (none, t')
    | some i => (t.createChannel i k now c wasTombstone).rebuildIfLoaded.map fun t' => (some i, t')

/-- `channel_lookup_by_resolve_slot`. -/
def lookupByResolveSlot (t : ChannelTable) (slot : Nat) : Option Nat :=
  if slot ≥ t.maxChannels then none
  else if t.resolveHash slot = 0 then none
  else if t.resolveEntryLive (t.resolveHash slot) slot then some (t.resolveHash slot - 1)
  else none

/-- The channel `i` is in use with the known SSRC `ssrc`. -/
def hasSsrc (t : ChannelTable) (ssrc : UInt32) (i : Nat) : Bool :=
  (t.chan i).inUse && (t.chan i).ssrcKnown && (t.chan i).ssrc = ssrc

/-- `channel_find_by_ssrc`; the inner `none` is no channel. -/
def findBySsrc (t : ChannelTable) (ssrc : UInt32) : Option (Option Nat) :=
  (probe t.nextBucket (stopAt (t.hasSsrc ssrc) t.ssrcHash) t.hashSize (t.ssrcHome ssrc)).map fun h =>
    match t.ssrcHash h with
    | .live i => some i
    | _ => none

/-- `ssrc_hash_rebuild`: by the SSRCs the channels have now. -/
def rebuildSsrcHash (t : ChannelTable) : Option ChannelTable :=
  let known := t.liveSlots.filter fun i => (t.chan i).ssrcKnown
  match placeAll t.nextBucket (fun i => t.ssrcHome (t.chan i).ssrc) t.hashSize known
    (fun _ => .empty) with
  | none => none
  | some ssrcHash => some { t with ssrcHash, ssrcHashUsed := known.length }

/-- `ssrc_hash_remove`. -/
def ssrcRemove (t : ChannelTable) (i : Nat) (ssrc : UInt32) : Option ChannelTable :=
  (probe t.nextBucket (stopAt (fun j => j = i) t.ssrcHash) t.hashSize (t.ssrcHome ssrc)).map fun h =>
    match t.ssrcHash h with
    | .live _ => { t with ssrcHash := put t.ssrcHash h .dead }
    | _ => t

/-- `ssrc_hash_insert`. -/
def ssrcInsert (t : ChannelTable) (i : Nat) (ssrc : UInt32) : Option ChannelTable :=
  match probe t.nextBucket (fun h => !(t.ssrcHash h).isLive) t.hashSize (t.ssrcHome ssrc) with
  | none => none
  | some h =>
    let t' := { t with ssrcHash := put t.ssrcHash h (.live i) }
    if (t.ssrcHash h).isEmpty then
      let t'' := { t' with ssrcHashUsed := t.ssrcHashUsed + 1 }
      if t''.ssrcHashUsed > t''.highLoad then t''.rebuildSsrcHash else some t''
    else some t'

/-- The SSRC index moved from the SSRC the channel had to the one it has now. -/
def moveSsrc (t : ChannelTable) (i : Nat) (ssrc : UInt32) : Option ChannelTable :=
  let c := t.chan i
  if !c.ssrcKnown || c.ssrc ≠ ssrc then
    match if c.ssrcKnown then t.ssrcRemove i c.ssrc else some t with
    | none => none
    | some t' => t'.ssrcInsert i ssrc
  else some t

/-- `channel_store` for the channel `i`: an oversized payload is dropped. -/
def store (t : ChannelTable) (i : Nat) (ssrc : UInt32) (payloadLen : Nat) (now : Int) :
    Option ChannelTable :=
  if payloadLen > channelMaxPayload then some t
  else
    (t.moveSsrc i ssrc).map fun t' => t'.setChan i { t'.chan i with ssrc, ssrcKnown := true, lastSeen := now }

/-- The tombstone `reap_slot` puts in place of the bucket of `i`. -/
def buryBucket (t : ChannelTable) (i : Nat) : Option ChannelTable :=
  (probe t.nextBucket (stopAt (fun j => j = i) t.hash) t.hashSize (t.home (t.chan i).key)).map fun h =>
    match t.hash h with
    | .live _ => { t with hash := put t.hash h .dead }
    | _ => t

/-- The rest of `reap_slot`: resolve slot and channel given up. -/
def releaseSlot (t : ChannelTable) (i : Nat) : ChannelTable :=
  let slot := (t.chan i).resolveSlot
  { t.setChan i { t.chan i with inUse := false } with
    resolveHash := fun r => if r = slot ∧ t.resolveHash r = i + 1 then 0 else t.resolveHash r }

/-- A channel taken out of the table. -/
def removeChannel (t : ChannelTable) (i : Nat) : Option ChannelTable :=
  match t.buryBucket i with
  | none => none
  | some t' =>
    if (t.chan i).ssrcKnown then (t'.ssrcRemove i (t.chan i).ssrc).map fun t'' => t''.releaseSlot i
    else some (t'.releaseSlot i)

def reapSlot (t : ChannelTable) (i : Nat) (now maxAge : Int) : Option ChannelTable :=
  if !(t.chan i).inUse then some t
  else if now - (t.chan i).lastSeen ≤ maxAge then some t
  else t.removeChannel i

/-- `channel_table_reap`. -/
def reap (t : ChannelTable) (now maxAge : Int) : Option ChannelTable :=
  (range t.maxChannels).foldlM (fun t i => t.reapSlot i now maxAge) t

/-- The loop of `channel_table_reap_step`: `n` slots from the cursor on. -/
def reapFrom (t : ChannelTable) (now maxAge : Int) : Nat → Option ChannelTable
  | 0 => some t
  | n + 1 =>
    match t.reapSlot t.reapCursor now maxAge with
    | none => none
    | some t' => reapFrom { t' with reapCursor := (t'.reapCursor + 1) % t'.maxChannels } now maxAge n

/-- `channel_table_reap_step`. -/
def reapStep (t : ChannelTable) (now maxAge : Int) (maxScan : Nat) : Option ChannelTable :=
  t.reapFrom now maxAge (min maxScan t.maxChannels)

/-! # What holds of the channel table

The invariant comes in two halves. `KeyInv` is about the key index, the resolve slots and the channels in
use; it does not look at SSRCs. `SsrcInv` only says that the SSRC index has an empty bucket left, which
is what its walks need to end: an index rebuilt inside `channel_store` is built from the SSRCs before the
change, so more does not hold of it. -/

variable {t : ChannelTable}

/-- Buckets that are not empty. -/
def loadOf (hash : Nat → Cell Nat) (n : Nat) : Nat := count (fun c => !c.isEmpty) hash n

structure KeyInv (t : ChannelTable) : Prop where
  size_eq : ∃ k, 2 ≤ k ∧ t.hashSize = 2 ^ k
  max_pos : 0 < t.maxChannels
  max_le : t.maxChannels * 2 ≤ t.hashSize
  bound : ∀ i, (t.chan i).inUse = true → i < t.maxChannels
  placed : Placed (fun i => t.home (t.chan i).key) t.hash t.hashSize
  unique : Unique id t.hash t.hashSize
  holds : ∀ i, Holds t.hash t.hashSize i ↔ (t.chan i).inUse = true
  keys : ∀ i j, (t.chan i).inUse = true → (t.chan j).inUse = true → (t.chan i).key = (t.chan j).key → i = j
  used_eq : t.hashUsed = loadOf t.hash t.hashSize
  resolve : ∀ i, (t.chan i).inUse = true →
    (t.chan i).resolveSlot < t.maxChannels ∧ t.resolveHash (t.chan i).resolveSlot = i + 1
  cursor_lt : t.reapCursor < t.maxChannels

structure SsrcInv (t : ChannelTable) : Prop where
  used_eq : t.ssrcHashUsed = loadOf t.ssrcHash t.hashSize
  load_le : t.ssrcHashUsed ≤ t.highLoad

structure Inv (t : ChannelTable) : Prop where
  keyInv : t.KeyInv
  load_le : t.hashUsed ≤ t.highLoad
  ssrcInv : t.SsrcInv

/-! ## Sizes -/

variable (h : ∃ k, 2 ≤ k ∧ t.hashSize = 2 ^ k)

include h

theorem highLoad_lt : t.highLoad < t.hashSize := by
  obtain ⟨k, -, hsize⟩ := h
  have := Nat.two_pow_pos k
  unfold highLoad
  omega

theorem half_le_highLoad {n : Nat} (hn : n * 2 ≤ t.hashSize) : n ≤ t.highLoad := by
  obtain ⟨k, hk, hsize⟩ := h
  obtain ⟨k, rfl⟩ : ∃ m, k = m + 2 := ⟨k - 2, by omega⟩
  rw [pow_add] at hsize
  unfold highLoad
  omega

theorem nextBucket_eq : t.nextBucket = succMod t.hashSize := by
  obtain ⟨k, -, hsize⟩ := h
  unfold nextBucket
  rw [hsize]
  exact succMod_two_pow k

theorem home_lt (k : ChanKey) : t.home k < t.hashSize := by
  obtain ⟨n, -, hsize⟩ := h
  rw [home, hsize, and_two_pow_sub_one_eq_mod]
  exact Nat.mod_lt _ (Nat.two_pow_pos n)

theorem ssrcHome_lt (ssrc : UInt32) : t.ssrcHome ssrc < t.hashSize := by
  obtain ⟨n, -, hsize⟩ := h
  rw [ssrcHome, hsize, and_two_pow_sub_one_eq_mod]
  exact Nat.mod_lt _ (Nat.two_pow_pos n)

omit h

variable {hash : Nat → Cell Nat} {n : Nat}

theorem exists_empty_of_load (h : loadOf hash n < n) : ∃ i < n, hash i = .empty := by
  obtain ⟨i, hi, hcell⟩ := exists_of_count_lt h
  exact ⟨i, hi, Cell.isEmpty_iff.1 (by simpa using hcell)⟩

theorem live_le_loadOf (hash : Nat → Cell Nat) (n : Nat) : count Cell.isLive hash n ≤ loadOf hash n := by
  have := count_live_add_dead hash n
  unfold loadOf
  omega

theorem loadOf_put_dead {h i : Nat} (hh : h < n) (hc : hash h = .live i) :
    loadOf (put hash h .dead) n = loadOf hash n := by
  have := @count_put _ (fun c => !c.isEmpty) hash n h .dead hh
  rw [hc] at this
  unfold loadOf
  simpa using this

theorem loadOf_put_live {h : Nat} (i : Nat) (hh : h < n) (hc : (hash h).isLive = false) :
    loadOf (put hash h (.live i)) n = loadOf hash n + if (hash h).isDead then 0 else 1 := by
  have := @count_put _ (fun c => !c.isEmpty) hash n h (.live i) hh
  unfold loadOf
  cases hcell : hash h with
  | live a =>
    rw [hcell] at hc
    cases hc
  | _ =>
    rw [hcell] at this
    simpa using this

/-! ## A new table -/

theorem inv_new (n : Nat) : (new n).Inv := by
  have hsize : ∃ k, 2 ≤ k ∧ (new n).hashSize = 2 ^ k := by
    obtain ⟨⟨k, hk⟩, -⟩ := Net.SockaddrIndex.nextPow2_spec ((new n).maxChannels * 2)
    show ∃ k, 2 ≤ k ∧ (if Net.nextPow2 ((new n).maxChannels * 2) < 4 then 4
      else Net.nextPow2 ((new n).maxChannels * 2)) = 2 ^ k
    split
    · exact ⟨2, le_rfl, rfl⟩
    · next h =>
      refine ⟨k, ?_, hk⟩
      by_contra hlt
      have : 2 ^ k ≤ 2 ^ 1 := Nat.pow_le_pow_right (by decide) (by omega)
      omega
  have hpos : 0 < (new n).maxChannels := by
    show 0 < if n = 0 then channelDefaultMax else n
    split
    · decide
    · omega
  have hmax : (new n).maxChannels * 2 ≤ (new n).hashSize := by
    have hle := (Net.SockaddrIndex.nextPow2_spec ((new n).maxChannels * 2)).2
    show _ ≤ if Net.nextPow2 ((new n).maxChannels * 2) < 4 then 4
      else Net.nextPow2 ((new n).maxChannels * 2)
    split <;> omega
  have hzero : loadOf (fun _ => .empty) (new n).hashSize = 0 := count_const _ _ rfl
  have hunused : ∀ i, ((new n).chan i).inUse ≠ true := fun i h => Bool.noConfusion h
  refine ⟨⟨hsize, hpos, hmax, ?_, placed_empty _ _, ?_, ?_, ?_, hzero.symm, ?_, hpos⟩,
    zero_le _, hzero.symm, zero_le _⟩
  · exact fun i h => absurd h (hunused i)
  · intro i _ j _ a b h
    cases h
  · intro i
    refine ⟨?_, fun h => absurd h (hunused i)⟩
    rintro ⟨_, _, h⟩
    cases h
  · exact fun i _ h => absurd h (hunused i)
  · exact fun i h => absurd h (hunused i)

/-! ## Changes the key index does not see -/

/-- The tables agree on all that `KeyInv` is about. -/
structure SameKeys (t t' : ChannelTable) : Prop where
  size : t'.hashSize = t.hashSize
  max : t'.maxChannels = t.maxChannels
  hash : t'.hash = t.hash
  used : t'.hashUsed = t.hashUsed
  resolveHash : t'.resolveHash = t.resolveHash
  cursor : t'.reapCursor = t.reapCursor
  inUse : ∀ i, (t'.chan i).inUse = (t.chan i).inUse
  key : ∀ i, (t'.chan i).key = (t.chan i).key
  slot : ∀ i, (t'.chan i).resolveSlot = (t.chan i).resolveSlot

theorem SameKeys.home {t t' : ChannelTable} (h : SameKeys t t') : t'.home = t.home := by
  funext k
  rw [ChannelTable.home, ChannelTable.home, h.size]

theorem KeyInv.congr {t t' : ChannelTable} (hi : t.KeyInv) (h : SameKeys t t') : t'.KeyInv where
  size_eq := by rw [h.size]; exact hi.size_eq
  max_pos := by rw [h.max]; exact hi.max_pos
  max_le := by rw [h.max, h.size]; exact hi.max_le
  bound := by
    intro i hu
    rw [h.inUse] at hu
    rw [h.max]
    exact hi.bound i hu
  placed := by
    rw [h.hash, h.size, h.home]
    exact hi.placed.congr fun i _ => by rw [h.key]
  unique := by rw [h.hash, h.size]; exact hi.unique
  holds := by
    intro i
    rw [h.hash, h.size, h.inUse]
    exact hi.holds i
  keys := by
    intro i j hui huj hk
    rw [h.inUse] at hui huj
    rw [h.key, h.key] at hk
    exact hi.keys i j hui huj hk
  used_eq := by rw [h.used, h.hash, h.size]; exact hi.used_eq
  resolve := by
    intro i hu
    rw [h.inUse] at hu
    rw [h.slot, h.max, h.resolveHash]
    exact hi.resolve i hu
  cursor_lt := by rw [h.cursor, h.max]; exact hi.cursor_lt

/-! ## The key index -/

theorem Inv.exists_empty (h : t.Inv) : ∃ c < t.hashSize, t.hash c = .empty := by
  have hload := h.load_le
  have hlt := highLoad_lt h.keyInv.size_eq
  rw [h.keyInv.used_eq] at hload
  exact exists_empty_of_load (by omega)

theorem KeyInv.find_live (h : t.KeyInv) {i : Nat} (hi : (t.chan i).inUse = true) :
    t.hashFindOrClaim (t.chan i).key = some (.found i) := by
  obtain ⟨c, hc, hcell⟩ := (h.holds i).2 hi
  obtain ⟨k, -, b, hprobe, hb, hmatch⟩ := @find_match _
    (fun j => (t.chan j).inUse && (t.chan j).key = (t.chan i).key) _ _ _ _ i
    (home_lt h.size_eq (t.chan i).key) (h.placed c hc i hcell) hcell (by simp [hi])
  have hbi : b = i := by
    simp only [Bool.and_eq_true, decide_eq_true_eq] at hmatch
    exact h.keys b i hmatch.1 hi hmatch.2
  rw [hashFindOrClaim, nextBucket_eq h.size_eq, findOrClaim_none, hprobe]
  simp only [Option.bind_some, hb, hbi]

theorem Inv.claim_new (h : t.Inv) {k : ChanKey}
    (hnew : ∀ i, (t.chan i).inUse = true → (t.chan i).key ≠ k) : ∃ c < t.hashSize,
      t.hashFindOrClaim k = some (.claimed c (t.hash c).isDead) ∧ (t.hash c).isLive = false ∧
      Reach t.hash t.hashSize (t.home k) c := by
  have hlt := home_lt h.keyInv.size_eq k
  obtain ⟨e, -, hprobe, hempty⟩ := @find_none _ (fun j => (t.chan j).inUse && (t.chan j).key = k) _ _ _
    hlt h.exists_empty fun i hi => by
      have hi := (h.keyInv.holds i).1 hi
      simp [hi, hnew i hi]
  obtain ⟨c, hc, hfree, hnot, hreach⟩ := @probe_free _ t.hash _ _ hlt (by
    have hlive := live_le_loadOf t.hash t.hashSize
    have hload := h.load_le
    have hhigh := highLoad_lt h.keyInv.size_eq
    rw [h.keyInv.used_eq] at hload
    omega)
  refine ⟨c, hc, ?_, hnot, hreach⟩
  rw [hashFindOrClaim, nextBucket_eq h.keyInv.size_eq, findOrClaim_none, hprobe]
  simp only [Option.bind_some, hempty, hfree, Option.map_some]

theorem Inv.hashFindOrClaim_cases (h : t.Inv) (k : ChanKey) :
    (∃ i, (t.chan i).inUse = true ∧ (t.chan i).key = k ∧ t.hashFindOrClaim k = some (.found i)) ∨
    ((∀ i, (t.chan i).inUse = true → (t.chan i).key ≠ k) ∧ ∃ c < t.hashSize,
      t.hashFindOrClaim k = some (.claimed c (t.hash c).isDead) ∧ (t.hash c).isLive = false ∧
      Reach t.hash t.hashSize (t.home k) c) := by
  by_cases hex : ∃ i, (t.chan i).inUse = true ∧ (t.chan i).key = k
  · obtain ⟨i, hi, rfl⟩ := hex
    exact .inl ⟨i, hi, rfl, h.keyInv.find_live hi⟩
  · have hnew : ∀ i, (t.chan i).inUse = true → (t.chan i).key ≠ k := fun i hi hk => hex ⟨i, hi, hk⟩
    exact .inr ⟨hnew, h.claim_new hnew⟩

/-! ## Resolve slots -/

theorem resolveEntryLive_iff {entry slot : Nat} : t.resolveEntryLive entry slot = true ↔
      entry ≠ 0 ∧ (t.chan (entry - 1)).inUse = true ∧ (t.chan (entry - 1)).resolveSlot = slot := by
  simp [resolveEntryLive, and_assoc]

/-- While a channel is not in use, some resolve slot is not owned: the owners are distinct. -/
theorem KeyInv.exists_free_resolve (h : t.KeyInv) {i : Nat} (hi : i < t.maxChannels)
    (hfree : (t.chan i).inUse = false) : ∃ r < t.maxChannels, t.resolveEntryLive (t.resolveHash r) r = false := by
  by_contra hall
  have hlive : ∀ r < t.maxChannels, t.resolveEntryLive (t.resolveHash r) r = true := fun r hr => by
    by_contra hr'
    exact hall ⟨r, hr, by simpa using hr'⟩
  have hmaps : ∀ r ∈ Finset.range t.maxChannels, t.resolveHash r - 1 ∈ (Finset.range t.maxChannels).erase i := by
    intro r hr
    obtain ⟨-, hu, -⟩ := resolveEntryLive_iff.1 (hlive r (Finset.mem_range.1 hr))
    refine Finset.mem_erase.2 ⟨?_, Finset.mem_range.2 (h.bound _ hu)⟩
    intro heq
    rw [heq, hfree] at hu
    cases hu
  have hcard : ((Finset.range t.maxChannels).erase i).card < (Finset.range t.maxChannels).card :=
    Finset.card_erase_lt_of_mem (Finset.mem_range.2 hi)
  obtain ⟨r, hr, r', hr', hne, heq⟩ := Finset.exists_ne_map_eq_of_card_lt_of_maps_to hcard hmaps
  obtain ⟨-, -, hslot⟩ := resolveEntryLive_iff.1 (hlive r (Finset.mem_range.1 hr))
  obtain ⟨-, -, hslot'⟩ := resolveEntryLive_iff.1 (hlive r' (Finset.mem_range.1 hr'))
  rw [heq] at hslot
  exact hne (hslot.symm.trans hslot')

theorem KeyInv.freeResolveSlot_spec (h : t.KeyInv) {i : Nat} (hi : i < t.maxChannels)
    (hfree : (t.chan i).inUse = false) (k : ChanKey) : t.freeResolveSlot k < t.maxChannels ∧
      t.resolveEntryLive (t.resolveHash (t.freeResolveSlot k)) (t.freeResolveSlot k) = false := by
  obtain ⟨r, hr, hdead⟩ := h.exists_free_resolve hi hfree
  have hstart : chanKeyHash k % t.maxChannels < t.maxChannels := mod_lt _ h.max_pos
  simp only [freeResolveSlot]
  generalize chanKeyHash k % t.maxChannels = start at hstart ⊢
  obtain ⟨j, -, hstop, -, hprobe⟩ := @probe_total t.maxChannels start
    (fun r => !t.resolveEntryLive (t.resolveHash r) r) hstart ⟨r, hr, by simpa using hdead⟩
  rw [hprobe, Option.getD_some]
  exact ⟨mod_lt _ h.max_pos, by simpa using hstop⟩

/-! ## A new channel -/

theorem setChan_self (t : ChannelTable) (i : Nat) (c : Channel) : (t.setChan i c).chan i = c := if_pos rfl

theorem setChan_of_ne (t : ChannelTable) {i j : Nat} (c : Channel) (h : j ≠ i) : (t.setChan i c).chan j = t.chan j :=
  if_neg h

theorem ne_of_inUse {i j : Nat} (hj : (t.chan j).inUse = true) (hi : (t.chan i).inUse = false) : j ≠ i := by
  rintro rfl
  rw [hi] at hj
  cases hj

section create

variable {i c : Nat} {k : ChanKey} {now : Int} {wasTombstone : Bool}

theorem createChannel_self : (t.createChannel i k now c wasTombstone).chan i = t.freshChannel i k now :=
  setChan_self t i _

theorem createChannel_of_ne {j : Nat} (h : j ≠ i) : (t.createChannel i k now c wasTombstone).chan j = t.chan j :=
  setChan_of_ne t _ h

theorem createChannel_inUse {j : Nat} : ((t.createChannel i k now c wasTombstone).chan j).inUse = true ↔
      j = i ∨ j ≠ i ∧ (t.chan j).inUse = true := by
  by_cases h : j = i
  · rw [h, createChannel_self]
    exact ⟨fun _ => .inl rfl, fun _ => rfl⟩
  · rw [createChannel_of_ne h]
    simp [h]

theorem KeyInv.createChannel (h : t.KeyInv) (hi : i < t.maxChannels) (hfree : (t.chan i).inUse = false)
    (hnew : ∀ j, (t.chan j).inUse = true → (t.chan j).key ≠ k) (hc : c < t.hashSize)
    (hcell : (t.hash c).isLive = false) (hreach : Reach t.hash t.hashSize (t.home k) c) :
    (t.createChannel i k now c (t.hash c).isDead).KeyInv := by
  obtain ⟨hslot, hdead⟩ := h.freeResolveSlot_spec hi hfree k
  have hnot : ∀ j, Holds t.hash t.hashSize j → j ≠ i := fun j hj => ne_of_inUse ((h.holds j).1 hj) hfree
  refine ⟨h.size_eq, h.max_pos, h.max_le, ?bound, ?placed, ?unique, ?holds, ?keys, ?used, ?resolve, h.cursor_lt⟩
  case bound =>
    intro j hj
    rcases createChannel_inUse.1 hj with rfl | ⟨-, hj⟩
    · exact hi
    · exact h.bound j hj
  case placed =>
    refine Placed.live (h.placed.congr fun j hj => ?_) ?_
    · rw [createChannel_of_ne (hnot j hj)]
      rfl
    · rw [createChannel_self]
      exact hreach
  case unique => exact h.unique.live hnot
  case holds =>
    intro j
    show Holds (put t.hash c (.live i)) t.hashSize j ↔ _
    rw [holds_put_live hc hcell, createChannel_inUse, h.holds]
    by_cases hj : j = i <;> simp [hj]
  case keys =>
    intro a b ha hb hab
    rcases createChannel_inUse.1 ha with rfl | ⟨hai, hlive⟩
    · rcases createChannel_inUse.1 hb with rfl | ⟨hbi, hb⟩
      · rfl
      · rw [createChannel_self, createChannel_of_ne hbi] at hab
        exact absurd hab.symm (hnew b hb)
    rw [createChannel_of_ne hai] at hab
    rcases createChannel_inUse.1 hb with rfl | ⟨hbi, hb⟩
    · rw [createChannel_self] at hab
      exact absurd hab (hnew a hlive)
    · rw [createChannel_of_ne hbi] at hab
      exact h.keys a b hlive hb hab
  case used =>
    show (if (t.hash c).isDead then t.hashUsed else t.hashUsed + 1) = loadOf (put t.hash c (.live i)) t.hashSize
    rw [loadOf_put_live i hc hcell, h.used_eq]
    split <;> rfl
  case resolve =>
    intro j hj
    show _ < t.maxChannels ∧ (if _ = t.freeResolveSlot k then i + 1 else t.resolveHash _) = j + 1
    rcases createChannel_inUse.1 hj with rfl | ⟨hji, hj⟩
    · rw [createChannel_self]
      exact ⟨hslot, if_pos rfl⟩
    rw [createChannel_of_ne hji]
    obtain ⟨hlt, hown⟩ := h.resolve j hj
    refine ⟨hlt, ?_⟩
    rw [if_neg, hown]
    -- the slot found is not owned, that of `j` is
    intro heq
    have hlive : t.resolveEntryLive (t.resolveHash (t.chan j).resolveSlot)
        (t.chan j).resolveSlot = true :=
      resolveEntryLive_iff.2 ⟨by omega, by rw [hown]; exact hj, by rw [hown]; rfl⟩
    rw [heq, hdead] at hlive
    cases hlive

end create

/-! ## Rebuilds -/

theorem mem_liveSlots (h : t.KeyInv) {i : Nat} : i ∈ t.liveSlots ↔ (t.chan i).inUse = true := by
  rw [liveSlots, mem_filter, mem_range]
  exact ⟨And.right, fun hi => ⟨h.bound i hi, hi⟩⟩

theorem nodup_liveSlots (t : ChannelTable) : t.liveSlots.Nodup := nodup_range.filter _

theorem length_liveSlots (t : ChannelTable) : t.liveSlots.length ≤ t.maxChannels := by
  have := length_filter_le (fun i => (t.chan i).inUse) (range t.maxChannels)
  rwa [length_range] at this

theorem loadOf_of_counts {m : Nat} (hlive : count Cell.isLive hash n = m)
    (hdead : count Cell.isDead hash n = 0) : loadOf hash n = m := by
  rw [loadOf, ← count_live_add_dead, hlive, hdead, add_zero]

/-- `chan_hash_rebuild` ends, and leaves an index of the channels in use with room in it. -/
theorem KeyInv.rebuildHash (h : t.KeyInv) : ∃ hash,
    t.rebuildHash = some { t with hash, hashUsed := t.liveSlots.length } ∧
      KeyInv { t with hash, hashUsed := t.liveSlots.length } ∧ t.liveSlots.length ≤ t.highLoad := by
  have hlen := length_liveSlots t
  have hmax := h.max_le
  obtain ⟨hash, hplace, hplaced, hunique, hholds, hlive, hdead⟩ := @rebuild_spec Nat Nat
    (fun i => t.home (t.chan i).key) id t.hashSize t.liveSlots
    (fun i => home_lt h.size_eq (t.chan i).key) (by omega)
    (by rw [map_id]; exact nodup_liveSlots t)
  refine ⟨hash, ?_, ?_, half_le_highLoad h.size_eq (by omega)⟩
  · rw [ChannelTable.rebuildHash, nextBucket_eq h.size_eq, hplace]
  · exact { h with
      placed := hplaced
      unique := hunique
      holds := fun i => (hholds i).trans (mem_liveSlots h)
      used_eq := (loadOf_of_counts hlive hdead).symm }

theorem KeyInv.rebuildIfLoaded (h : t.KeyInv) (hs : t.SsrcInv) :
    ∃ t', t.rebuildIfLoaded = some t' ∧ t'.Inv ∧ t'.chan = t.chan := by
  unfold ChannelTable.rebuildIfLoaded
  split
  · obtain ⟨hash, heq, hinv, hle⟩ := h.rebuildHash
    exact ⟨_, heq, ⟨hinv, hle, hs.used_eq, hs.load_le⟩, rfl⟩
  · exact ⟨t, rfl, ⟨h, by omega, hs⟩, rfl⟩

theorem Inv.rebuildIfLoaded_eq (h : t.Inv) : t.rebuildIfLoaded = some t := by
  have := h.load_le
  rw [ChannelTable.rebuildIfLoaded, if_neg (by omega)]

/-! ## `channel_lookup` -/

theorem Inv.lookup_live (h : t.Inv) {i : Nat} (hi : (t.chan i).inUse = true)
    (now : Int) : t.lookup (t.chan i).key now = some (some i, t) := by
  rw [lookup, h.keyInv.find_live hi]
  simp only [h.rebuildIfLoaded_eq, Option.map_some]

theorem Inv.lookup (h : t.Inv) (k : ChanKey) (now : Int) : ∃ r t', t.lookup k now = some (r, t') ∧ t'.Inv ∧
      ((∃ i < t.maxChannels, (t.chan i).inUse = false) → ∃ i, r = some i ∧ (t'.chan i).inUse = true ∧ (t'.chan i).key = k) := by
  rcases h.hashFindOrClaim_cases k with ⟨i, hi, rfl, -⟩ | ⟨hnew, c, hc, hclaim, hcell, hreach⟩
  · exact ⟨some i, t, h.lookup_live hi now, h, fun _ => ⟨i, rfl, hi, rfl⟩⟩
  rw [ChannelTable.lookup, hclaim]
  cases hfind : (range t.maxChannels).find? fun i => !(t.chan i).inUse with
  | none =>
    refine ⟨none, t, by simp only [h.rebuildIfLoaded_eq, Option.map_some], h, fun ⟨i, hi, hfree⟩ => ?_⟩
    exact absurd (by rw [hfree]; rfl) (find?_eq_none.1 hfind i (mem_range.2 hi))
  | some i =>
    have hi : i < t.maxChannels := mem_range.1 (mem_of_find?_eq_some hfind)
    have hfree : (t.chan i).inUse = false := by simpa using find?_some hfind
    have hkey := @KeyInv.createChannel t i c k now h.keyInv hi hfree hnew hc hcell hreach
    obtain ⟨t', heq, hinv, hchan⟩ := hkey.rebuildIfLoaded ⟨h.ssrcInv.used_eq, h.ssrcInv.load_le⟩
    refine ⟨some i, t', by simp only [heq, Option.map_some], hinv, fun _ => ⟨i, rfl, ?_⟩⟩
    rw [hchan, createChannel_self]
    exact ⟨rfl, rfl⟩

end ChannelTable

end DvbIpiTools.Fccret
