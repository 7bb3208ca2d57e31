import DvbIpiTools.Utils.LinearProbe

set_option autoImplicit false

/-! # The socket address index (`sockaddr_index.c`)

An open addressed table from canonical addresses to slots. The entry array is a function of the index
of which the first `size` values matter; an allocation is an argument that says whether it succeeds. A
loop of the source that walks the table is a walk of at most `size` steps here, and `none` stands for a
loop that does not end, since after `size` steps it would meet the same entries again. -/

namespace DvbIpiTools.Net

open LinearProbe Option Bool

/-! ## Addresses -/

/-- What a `struct sockaddr` holds, as far as the code looks at it. -/
inductive Sockaddr
  | inet (addr : Vector UInt8 4) (port : UInt16)
  | inet6 (addr : Vector UInt8 16) (port : UInt16)
  | other (family : UInt16)

/-- A `const struct sockaddr *` with its length. -/
structure PeerAddr where
  addr : Option Sockaddr
  addrlen : Nat

/-- `sockaddr_key_t`. -/
structure SockaddrKey where
  family : UInt32
  bytes : List UInt8
  port : UInt16
deriving DecidableEq

def afInet : UInt32 := 2
def afInet6 : UInt32 := 10
def sizeofSockaddrIn : Nat := 16
def sizeofSockaddrIn6 : Nat := 28

/-- The key that unknown families, NULL and too short addresses share. -/
def sharedKey : SockaddrKey := ⟨0, [], 0⟩

def canonKey (a : PeerAddr) : SockaddrKey :=
  match a.addr with
  | some (.inet addr port) =>
    if a.addrlen ≥ sizeofSockaddrIn then ⟨afInet, addr.toList, port⟩ else sharedKey
  | some (.inet6 addr port) =>
    if a.addrlen ≥ sizeofSockaddrIn6 then ⟨afInet6, addr.toList, port⟩ else sharedKey
  | _ => sharedKey

/-- One step of FNV-1a. -/
def fnvStep (h x : UInt64) : UInt64 := (h ^^^ x) * 1099511628211

def keyHash (k : SockaddrKey) : Nat :=
  let h := k.bytes.foldl (fun h b => fnvStep h b.toUInt64) 1469598103934665603
  let h := fnvStep h k.family.toUInt64
  let h := fnvStep h (k.port &&& 0xff).toUInt64
  (fnvStep h (k.port >>> 8).toUInt64).toNat

/-! ## The table -/

/-- An occupied `sockaddr_index_entry_t`. -/
structure IndexEntry where
  key : SockaddrKey
  slot : Nat

/-- `struct sockaddr_index`. -/
structure SockaddrIndex where
  entries : Nat → Cell IndexEntry
  size : Nat
  used : Nat
  tombstones : Nat

/-- The loop of `next_pow2`. -/
def nextPow2From (n p : Nat) : Nat :=
  if 0 < p ∧ p < n then nextPow2From n (p * 2) else p
termination_by n - p

def nextPow2 (n : Nat) : Nat := nextPow2From n 1

namespace SockaddrIndex

/-- `sockaddr_index_new`, where it can be allocated. -/
def new (cap : Nat) : SockaddrIndex where
  entries := fun _ => .empty
  size := if nextPow2 (cap * 2) < 4 then 4 else nextPow2 (cap * 2)
  used := 0
  tombstones := 0

/-- `(h + 1) & mask` in a table of `size` entries. -/
def nextCell (size h : Nat) : Nat := (h + 1) &&& (size - 1)

/-- `key_hash(k) & mask`. -/
def homeOf (size : Nat) (k : SockaddrKey) : Nat := keyHash k &&& (size - 1)

/-- `rebuild`, with whether it succeeded. -/
def rebuild (idx : SockaddrIndex) (newSize : Nat) (alloc : Bool) : Option (SockaddrIndex × Bool) :=
  if !alloc then some (idx, false)
  else
    let live := elems idx.entries idx.size
    match placeAll (nextCell newSize) (fun e => homeOf newSize e.key) newSize live
      (fun _ => .empty) with
    | none => none
    | some entries => some ({ entries, size := newSize, used := live.length, tombstones := 0 }, true)

/-- The cell where the search for `k` ends. -/
def findCell (idx : SockaddrIndex) (k : SockaddrKey) : Option Nat :=
  probe (nextCell idx.size) (stopAt (fun e => e.key = k) idx.entries) idx.size (homeOf idx.size k)

/-- `sockaddr_index_find`; the inner `none` is `SIZE_MAX`. -/
def find (idx : SockaddrIndex) (a : PeerAddr) : Option (Option Nat) :=
  (idx.findCell (canonKey a)).map fun h =>
    match idx.entries h with
    | .live e => some e.slot
    | _ => none

/-- The load test of `sockaddr_index_insert`. -/
def crowded (idx : SockaddrIndex) : Bool := (idx.used + idx.tombstones + 1) * 4 > idx.size * 3

/-- The rebuild before an insert: twice the size when more than half of the entries are live. The
    flag is false where it was due and could not be allocated. -/
def makeRoom (idx : SockaddrIndex) (alloc : Bool) : Option (SockaddrIndex × Bool) :=
  if idx.crowded then
    idx.rebuild (if (idx.used + 1) * 2 > idx.size then idx.size * 2 else idx.size) alloc
  else some (idx, true)

/-- The end of `sockaddr_index_insert`: the first entry that is not occupied is taken. -/
def occupy (idx : SockaddrIndex) (e : IndexEntry) : Option SockaddrIndex :=
  (freeCell (nextCell idx.size) (fun e => homeOf idx.size e.key) idx.entries idx.size e).map fun h =>
    { idx with
      entries := put idx.entries h (.live e)
      tombstones := if (idx.entries h).isDead then idx.tombstones - 1 else idx.tombstones
      used := idx.used + 1 }

/-- `sockaddr_index_insert`, with the outcome of the allocation a rebuild makes. -/
def insert (idx : SockaddrIndex) (a : PeerAddr) (slot : Nat) (alloc : Bool) :
    Option SockaddrIndex :=
  match idx.makeRoom alloc with
  | none => none
  | some (idx, ok) =>
    -- out of memory and no room: the entry is dropped
    if !ok ∧ idx.used + idx.tombstones + 1 ≥ idx.size then some idx
    else idx.occupy ⟨canonKey a, slot⟩

/-- `sockaddr_index_remove`, with the outcome of the allocation a rebuild makes. -/
def remove (idx : SockaddrIndex) (a : PeerAddr) (alloc : Bool) : Option SockaddrIndex := do
  let h ← idx.findCell (canonKey a)
  match idx.entries h with
  | .live _ =>
    let idx' : SockaddrIndex := { idx with
      entries := put idx.entries h .dead
      used := idx.used - 1
      tombstones := idx.tombstones + 1 }
    if idx'.tombstones > idx'.size / 4 then (idx'.rebuild idx'.size alloc).map Prod.fst
    else some idx'
  | _ => some idx

/-! ## The invariant -/

/-- What holds of a table between two operations. -/
structure Wf (idx : SockaddrIndex) : Prop where
  size_eq : ∃ k, 2 ≤ k ∧ idx.size = 2 ^ k
  placed : Placed (fun e => homeOf idx.size e.key) idx.entries idx.size
  unique : Unique IndexEntry.key idx.entries idx.size
  used_eq : idx.used = count Cell.isLive idx.entries idx.size
  tombstones_eq : idx.tombstones = count Cell.isDead idx.entries idx.size
  room : idx.used + idx.tombstones < idx.size

/-- The table holds `slot` under `k`. -/
def Maps (idx : SockaddrIndex) (k : SockaddrKey) (slot : Nat) : Prop := Holds idx.entries idx.size ⟨k, slot⟩

theorem homeOf_lt {size : Nat} (h : ∃ k, 2 ≤ k ∧ size = 2 ^ k) (k : SockaddrKey) : homeOf size k < size := by
  obtain ⟨n, -, rfl⟩ := h
  rw [homeOf, Nat.and_two_pow_sub_one_eq_mod]
  exact Nat.mod_lt _ (Nat.two_pow_pos n)

theorem nextCell_eq {size : Nat} (h : ∃ k, 2 ≤ k ∧ size = 2 ^ k) : nextCell size = succMod size := by
  obtain ⟨n, -, rfl⟩ := h
  exact succMod_two_pow n

theorem nextPow2From_spec (n p : Nat) (hp : ∃ k, p = 2 ^ k) :
    (∃ k, nextPow2From n p = 2 ^ k) ∧ n ≤ nextPow2From n p := by
  induction hm : n - p using Nat.strongRecOn generalizing p with
  | ind m ih =>
    obtain ⟨k, rfl⟩ := hp
    rw [nextPow2From]
    have hpos := Nat.two_pow_pos k
    split
    · exact ih (n - 2 ^ k * 2) (by omega) (2 ^ k * 2) ⟨k + 1, (Nat.pow_succ 2 k).symm⟩ rfl
    · next h => exact ⟨⟨k, rfl⟩, by omega⟩

theorem nextPow2_spec (n : Nat) : (∃ k, nextPow2 n = 2 ^ k) ∧ n ≤ nextPow2 n := nextPow2From_spec n 1 ⟨0, rfl⟩

variable (cap : Nat)

theorem new_size : ∃ k, 2 ≤ k ∧ (new cap).size = 2 ^ k := by
  obtain ⟨⟨k, hk⟩, -⟩ := nextPow2_spec (cap * 2)
  unfold new
  split
  · exact ⟨2, le_rfl, rfl⟩
  · next h =>
    refine ⟨k, ?_, hk⟩
    by_contra hlt
    have : 2 ^ k ≤ 2 ^ 1 := Nat.pow_le_pow_right (by decide) (by omega)
    omega

theorem wf_new : (new cap).Wf := by
  obtain ⟨k, hk, hsize⟩ := new_size cap
  refine ⟨⟨k, hk, hsize⟩, placed_empty _ _, ?_, ?_, ?_, ?_⟩
  · intro i _ j _ a b h
    cases h
  · exact (count_const _ _ rfl).symm
  · exact (count_const _ _ rfl).symm
  · rw [hsize]
    exact Nat.two_pow_pos k

theorem not_maps_new (k : SockaddrKey) (slot : Nat) : ¬ (new cap).Maps k slot := fun ⟨_, _, h⟩ => nomatch h

/-! ## The operations -/

variable {idx : SockaddrIndex}

theorem Wf.exists_empty (h : idx.Wf) : ∃ i < idx.size, idx.entries i = .empty := by
  refine LinearProbe.exists_empty ?_
  rw [← h.used_eq, ← h.tombstones_eq]
  exact h.room

theorem findCell_spec (hw : idx.Wf) (k : SockaddrKey) : ∃ h < idx.size, idx.findCell k = some h ∧
      ((∃ slot, idx.entries h = .live ⟨k, slot⟩) ∨ (idx.entries h = .empty ∧ ∀ slot, ¬ idx.Maps k slot)) := by
  unfold findCell
  rw [nextCell_eq hw.size_eq]
  by_cases hex : ∃ slot, idx.Maps k slot
  · obtain ⟨slot, i, hi, hlive⟩ := hex
    have hr := hw.placed i hi _ hlive
    obtain ⟨h, hlt, ⟨k', slot'⟩, hprobe, hcell, hmatch⟩ := find_match (p := fun e => e.key = k)
      (homeOf_lt hw.size_eq k) hr hlive (by simp)
    obtain rfl : k' = k := by simpa using hmatch
    exact ⟨h, hlt, hprobe, .inl ⟨slot', hcell⟩⟩
  have hno : ∀ e, Holds idx.entries idx.size e → decide (e.key = k) = false := by
    rintro ⟨k', slot⟩ he
    simp only [decide_eq_false_iff_not]
    rintro rfl
    exact hex ⟨slot, he⟩
  obtain ⟨h, hlt, hprobe, hcell⟩ := find_none (homeOf_lt hw.size_eq k) hw.exists_empty hno
  exact ⟨h, hlt, hprobe, .inr ⟨hcell, fun slot hs => hex ⟨slot, hs⟩⟩⟩

theorem Wf.maps_inj (hw : idx.Wf) {k : SockaddrKey} {s s' : Nat} (h : idx.Maps k s) (h' : idx.Maps k s') : s = s' := by
  obtain ⟨i, hi, hs⟩ := h
  obtain ⟨j, hj, hs'⟩ := h'
  obtain rfl := hw.unique i hi j hj _ _ hs hs' rfl
  rw [hs] at hs'
  exact congrArg IndexEntry.slot (Cell.live.inj hs')

/-- `sockaddr_index_find` returns the slot the table holds, and `SIZE_MAX` where it holds none. -/
theorem find_eq (hw : idx.Wf) (a : PeerAddr) (slot : Option Nat) :
    idx.find a = some slot ↔ ∀ s, slot = some s ↔ idx.Maps (canonKey a) s := by
  obtain ⟨h, hlt, hfind, hcase⟩ := findCell_spec hw (canonKey a)
  rw [find, hfind]
  rcases hcase with ⟨s, hs⟩ | ⟨hempty, hno⟩
  · have hmaps : idx.Maps (canonKey a) s := ⟨h, hlt, hs⟩
    simp only [hs, map_some, some.injEq]
    constructor
    · rintro rfl s'
      simp only [some.injEq]
      exact ⟨fun h => h ▸ hmaps, hw.maps_inj hmaps⟩
    · intro hall
      exact ((hall s).2 hmaps).symm
  simp only [hempty, map_some, some.injEq]
  constructor
  · rintro rfl s'
    exact ⟨nofun, fun h => absurd h (hno s')⟩
  · intro hall
    cases slot with
    | none => rfl
    | some s => exact absurd ((hall s).1 rfl) (hno s)

theorem rebuild_spec {idx : SockaddrIndex} (hw : idx.Wf) {newSize : Nat} (alloc : Bool)
    (hsize : ∃ k, 2 ≤ k ∧ newSize = 2 ^ k) (hroom : idx.used < newSize) :
    ∃ idx', idx.rebuild newSize alloc = some (idx', alloc) ∧ idx'.Wf ∧ (∀ k s, idx'.Maps k s ↔ idx.Maps k s) ∧
      (alloc = true → idx'.size = newSize ∧ idx'.used = idx.used ∧ idx'.tombstones = 0) ∧
      (alloc = false → idx' = idx) := by
  cases alloc with
  | false => exact ⟨idx, rfl, hw, fun _ _ => Iff.rfl, Bool.noConfusion, fun _ => rfl⟩
  | true =>
    have hlen : (elems idx.entries idx.size).length = idx.used := by rw [length_elems, hw.used_eq]
    obtain ⟨t, h0, hp, hu, hholds, hlive, hdead⟩ := LinearProbe.rebuild_spec
      (fun e : IndexEntry => homeOf_lt hsize e.key) (by omega) (nodup_elems hw.unique)
    refine ⟨⟨t, newSize, (elems idx.entries idx.size).length, 0⟩, ?_, ?_, ?_, ?_, ?_⟩
    · rw [rebuild, if_neg (by decide), nextCell_eq hsize]
      simp only [h0]
    · refine ⟨hsize, hp, hu, hlive.symm, hdead.symm, ?_⟩
      show (elems idx.entries idx.size).length + 0 < newSize
      omega
    · intro k s
      exact (hholds _).trans mem_elems
    · exact fun _ => ⟨rfl, hlen, rfl⟩
    · exact fun h => Bool.noConfusion h

/-- The insert drops its entry: a rebuild is due, cannot be allocated, and the last empty entry has
    to stay. -/
def drops (idx : SockaddrIndex) (alloc : Bool) : Bool :=
  idx.crowded && !alloc && idx.used + idx.tombstones + 1 ≥ idx.size

theorem occupy_spec (hw : idx.Wf) (k : SockaddrKey) (slot : Nat) (hroom : idx.used + idx.tombstones + 1 < idx.size)
    (habsent : ∀ s, ¬ idx.Maps k s) : ∃ idx', idx.occupy ⟨k, slot⟩ = some idx' ∧ idx'.Wf ∧
      ∀ k' s, idx'.Maps k' s ↔ (k' = k ∧ s = slot) ∨ idx.Maps k' s := by
  obtain ⟨h, hfree, hlt, hnot, hplaced⟩ := @freeCell_spec _
    (fun e : IndexEntry => homeOf idx.size e.key) idx.entries idx.size ⟨k, slot⟩
    (homeOf_lt hw.size_eq k) (by rw [← hw.used_eq]; omega)
  have hlive := count_live_put_live hlt hnot (⟨k, slot⟩ : IndexEntry)
  have hdead := @count_put _ Cell.isDead idx.entries idx.size h (.live ⟨k, slot⟩) hlt
  have hzero : (Cell.live (⟨k, slot⟩ : IndexEntry)).isDead.toNat = 0 := rfl
  have hcount := hw.tombstones_eq
  refine ⟨{ idx with
      entries := put idx.entries h (.live ⟨k, slot⟩)
      tombstones := if (idx.entries h).isDead then idx.tombstones - 1 else idx.tombstones
      used := idx.used + 1 }, by rw [occupy, nextCell_eq hw.size_eq, hfree]; rfl,
    ⟨hw.size_eq, hplaced hw.placed, ?_, ?_, ?_, ?_⟩, ?_⟩
  · refine hw.unique.live ?_
    rintro ⟨k', s⟩ hb rfl
    exact habsent s hb
  · show idx.used + 1 = _
    rw [hlive, hw.used_eq]
  · simp only
    split
    · next hd =>
      rw [hd, toNat_true] at hdead
      omega
    · next hd =>
      rw [not_eq_true] at hd
      rw [hd, toNat_false] at hdead
      omega
  · simp only
    split <;> omega
  · intro k' s
    unfold Maps
    rw [holds_put_live hlt hnot]
    simp only [IndexEntry.mk.injEq]

theorem insert_of_makeRoom {idx idx' : SockaddrIndex} {a : PeerAddr} {slot : Nat} {alloc ok : Bool}
    (hprep : idx.makeRoom alloc = some (idx', ok)) (hw : idx'.Wf)
    (hroom : idx'.used + idx'.tombstones + 1 < idx'.size) (habsent : ∀ s, ¬ idx'.Maps (canonKey a) s) :
    ∃ idx'', idx.insert a slot alloc = some idx'' ∧ idx''.Wf ∧ ∀ k s,
      idx''.Maps k s ↔ (k = canonKey a ∧ s = slot) ∨ idx'.Maps k s := by
  obtain ⟨idx'', h0, hwf, hmaps⟩ := occupy_spec hw (canonKey a) slot hroom habsent
  refine ⟨idx'', ?_, hwf, hmaps⟩
  rw [insert, hprep]
  simp only
  rw [if_neg (by omega), h0]

/-- `sockaddr_index_insert` of an absent key ends and adds the entry, unless it drops it. -/
theorem insert_spec (hw : idx.Wf) (a : PeerAddr) (slot : Nat) (alloc : Bool)
    (habsent : ∀ s, ¬ idx.Maps (canonKey a) s) :
    ∃ idx', idx.insert a slot alloc = some idx' ∧ idx'.Wf ∧ (idx.drops alloc = true → idx' = idx) ∧
      (idx.drops alloc = false → ∀ k s, idx'.Maps k s ↔ (k = canonKey a ∧ s = slot) ∨ idx.Maps k s) := by
  have hroom := hw.room
  cases hcrowded : idx.crowded with
  | false =>
    have hle : ¬ (idx.used + idx.tombstones + 1) * 4 > idx.size * 3 := by simpa [crowded] using hcrowded
    have hdrops : idx.drops alloc = false := by simp [drops, hcrowded]
    have hprep : idx.makeRoom alloc = some (idx, true) := by rw [makeRoom, hcrowded]; rfl
    obtain ⟨idx', h0, hwf, hmaps⟩ := @insert_of_makeRoom _ _ a slot _ _ hprep hw (by omega) habsent
    exact ⟨idx', h0, hwf, fun h => absurd (hdrops.symm.trans h) (by decide), fun _ => hmaps⟩
  | true =>
    have hsize : ∃ k, 2 ≤ k ∧ (if (idx.used + 1) * 2 > idx.size then idx.size * 2 else idx.size) = 2 ^ k := by
      obtain ⟨k, hk, hsize⟩ := hw.size_eq
      split
      · exact ⟨k + 1, by omega, by rw [hsize, Nat.pow_succ]⟩
      · exact ⟨k, hk, hsize⟩
    obtain ⟨idx', h0, hwf, hmaps, hok, hfail⟩ := rebuild_spec hw alloc hsize (by split <;> omega)
    have hprep : idx.makeRoom alloc = some (idx', alloc) := by rw [makeRoom, hcrowded]; exact h0
    have habsent' : ∀ s, ¬ idx'.Maps (canonKey a) s := fun s h => habsent s ((hmaps _ _).1 h)
    cases alloc with
    | true =>
      obtain ⟨hs, hu, ht⟩ := hok rfl
      have hdrops : idx.drops true = false := by simp [drops]
      obtain ⟨idx'', h1, hwf', hmaps'⟩ := @insert_of_makeRoom _ _ a slot _ _ hprep hwf
        (by rw [hs, hu, ht]; split <;> omega) habsent'
      refine ⟨idx'', h1, hwf', fun h => absurd (hdrops.symm.trans h) (by decide), fun _ k s => ?_⟩
      rw [hmaps', hmaps]
    | false =>
      obtain rfl := hfail rfl
      by_cases hfull : idx'.used + idx'.tombstones + 1 ≥ idx'.size
      · have hdrops : idx'.drops false = true := by
          simp only [drops, hcrowded, Bool.not_false, Bool.and_self, Bool.true_and, decide_eq_true_eq]
          exact hfull
        refine ⟨idx', ?_, hwf, fun _ => rfl, fun h => absurd (hdrops.symm.trans h) (by decide)⟩
        rw [insert, hprep]
        simp only
        rw [if_pos ⟨by decide, hfull⟩]
      have hdrops : idx'.drops false = false := by
        simp only [drops, hcrowded, Bool.not_false, Bool.and_self, Bool.true_and, decide_eq_false_iff_not]
        exact hfull
      obtain ⟨idx'', h1, hwf', hmaps'⟩ := @insert_of_makeRoom _ _ a slot _ _ hprep hwf
        (by omega) habsent'
      exact ⟨idx'', h1, hwf', fun h => absurd (hdrops.symm.trans h) (by decide), fun _ => hmaps'⟩

/-- `sockaddr_index_remove` ends and takes the key's entry out, if there is one. -/
theorem remove_spec (hw : idx.Wf) (a : PeerAddr) (alloc : Bool) : ∃ idx', idx.remove a alloc = some idx' ∧ idx'.Wf ∧
      ∀ k s, idx'.Maps k s ↔ idx.Maps k s ∧ k ≠ canonKey a := by
  obtain ⟨h, hlt, hfind, ⟨slot, hcell⟩ | ⟨hempty, hno⟩⟩ := findCell_spec hw (canonKey a)
  · have hlive := @count_put _ Cell.isLive idx.entries idx.size h .dead hlt
    have hdead := @count_put _ Cell.isDead idx.entries idx.size h .dead hlt
    rw [hcell] at hlive hdead
    simp only [Cell.isLive, Cell.isDead, toNat_true, toNat_false, Nat.add_zero] at hlive hdead
    have hused := hw.used_eq
    have htomb := hw.tombstones_eq
    have hroom := hw.room
    -- the table with the tombstone in place
    have hwf : Wf { idx with
        entries := put idx.entries h .dead
        used := idx.used - 1
        tombstones := idx.tombstones + 1 } := by
      refine ⟨hw.size_eq, hw.placed.kill h, hw.unique.kill h, ?_, ?_, ?_⟩
      · show idx.used - 1 = count Cell.isLive (put idx.entries h .dead) idx.size
        omega
      · show idx.tombstones + 1 = count Cell.isDead (put idx.entries h .dead) idx.size
        omega
      · show idx.used - 1 + (idx.tombstones + 1) < idx.size
        omega
    have hmaps : ∀ k s, Holds (put idx.entries h .dead) idx.size ⟨k, s⟩ ↔
        idx.Maps k s ∧ k ≠ canonKey a := fun k s => holds_put_dead hw.unique hlt hcell ⟨k, s⟩
    by_cases hmany : idx.tombstones + 1 > idx.size / 4
    · obtain ⟨idx', h0, hwf', hmaps', -, -⟩ := rebuild_spec hwf alloc hw.size_eq (by
        show idx.used - 1 < idx.size
        omega)
      refine ⟨idx', ?_, hwf', fun k s => (hmaps' k s).trans (hmaps k s)⟩
      rw [remove]
      simp only [hfind, bind_eq_bind, bind_some, hcell]
      rw [if_pos hmany, h0]
      rfl
    · refine ⟨_, ?_, hwf, hmaps⟩
      rw [remove]
      simp only [hfind, bind_eq_bind, bind_some, hcell]
      rw [if_neg hmany]
  · refine ⟨idx, ?_, hw, fun k s => ⟨fun h => ⟨h, ?_⟩, fun h => h.1⟩⟩
    · rw [remove]
      simp only [hfind, bind_eq_bind, bind_some, hempty]
    · rintro rfl
      exact hno s h

/-! ## Runs -/

/-- A change of the table. -/
inductive Op
  | insert (a : PeerAddr) (slot : Nat) (alloc : Bool)
  | remove (a : PeerAddr) (alloc : Bool)

/-- A change made; `none` if a loop of it does not end. -/
def step (idx : SockaddrIndex) : Op → Option SockaddrIndex
  | .insert a slot alloc => idx.insert a slot alloc
  | .remove a alloc => idx.remove a alloc

/-- A sequence of changes. -/
def run (idx : SockaddrIndex) : List Op → Option SockaddrIndex
  | [] => some idx
  | op :: ops => (idx.step op).bind fun idx' => idx'.run ops

/-- The finite map the table stands for. -/
abbrev Spec := SockaddrKey → Option Nat

/-- The effect of a change on the map, made on a table that drops the entry or not. -/
def specStep (idx : SockaddrIndex) (m : Spec) : Op → Spec
  | .insert a slot alloc => fun k => if k = canonKey a ∧ idx.drops alloc = false then some slot else m k
  | .remove a _ => fun k => if k = canonKey a then none else m k

/-- The effect of a sequence of changes. -/
def specRun (idx : SockaddrIndex) (m : Spec) : List Op → Spec
  | [] => m
  | op :: ops =>
    match idx.step op with
    | none => m
    | some idx' => idx'.specRun (idx.specStep m op) ops

/-- The contract of the callers: only absent keys are inserted. -/
def Contract (idx : SockaddrIndex) (m : Spec) : List Op → Prop
  | [] => True
  | op :: ops =>
    (∀ a slot alloc, op = .insert a slot alloc → m (canonKey a) = none) ∧
      ∀ idx', idx.step op = some idx' → idx'.Contract (idx.specStep m op) ops

/-- The table is sound and holds exactly the map. -/
structure Refines (idx : SockaddrIndex) (m : Spec) : Prop where
  wf : idx.Wf
  maps : ∀ k s, m k = some s ↔ idx.Maps k s

theorem refines_new : (new cap).Refines fun _ => none :=
  ⟨wf_new cap, fun k s => ⟨nofun, fun h => absurd h (not_maps_new cap k s)⟩⟩

theorem Refines.step {idx : SockaddrIndex} {m : Spec} (h : idx.Refines m) (op : Op)
    (hop : ∀ a slot alloc, op = .insert a slot alloc → m (canonKey a) = none) :
    ∃ idx', idx.step op = some idx' ∧ idx'.Refines (idx.specStep m op) := by
  cases op with
  | insert a slot alloc =>
    have hnone := hop a slot alloc rfl
    have habsent : ∀ s, ¬ idx.Maps (canonKey a) s := fun s hs => by
      rw [(h.maps _ s).2 hs] at hnone
      cases hnone
    obtain ⟨idx', h0, hwf, hdropped, hadded⟩ := insert_spec h.wf a slot alloc habsent
    refine ⟨idx', h0, hwf, fun k s => ?_⟩
    simp only [specStep]
    cases hd : idx.drops alloc with
    | true =>
      rw [if_neg (fun h => Bool.noConfusion h.2), hdropped hd]
      exact h.maps k s
    | false =>
      rw [hadded hd]
      by_cases hk : k = canonKey a
      · rw [if_pos ⟨hk, rfl⟩, some.injEq]
        exact ⟨fun hs => .inl ⟨hk, hs.symm⟩, fun hs => hs.elim (fun h => h.2.symm) fun h => absurd (hk ▸ h) (habsent s)⟩
      · rw [if_neg fun h => hk h.1, h.maps]
        exact ⟨.inr, fun hs => hs.resolve_left fun h => hk h.1⟩
  | remove a alloc =>
    obtain ⟨idx', h0, hwf, hmaps⟩ := remove_spec h.wf a alloc
    refine ⟨idx', h0, hwf, fun k s => ?_⟩
    rw [hmaps]
    simp only [specStep]
    by_cases hk : k = canonKey a
    · rw [if_pos hk]
      exact ⟨nofun, fun hs => absurd hk hs.2⟩
    · rw [if_neg hk, h.maps]
      exact ⟨fun hs => ⟨hs, hk⟩, fun hs => hs.1⟩

theorem Refines.run {m : Spec} (h : idx.Refines m) (ops : List Op) (hops : idx.Contract m ops) :
    ∃ idx', idx.run ops = some idx' ∧ idx'.Refines (idx.specRun m ops) := by
  induction ops generalizing idx m with
  | nil => exact ⟨idx, rfl, h⟩
  | cons op ops ih =>
    obtain ⟨idx1, h0, h1⟩ := h.step op hops.1
    obtain ⟨idx', h2, h3⟩ := ih h1 (hops.2 idx1 h0)
    refine ⟨idx', ?_, ?_⟩
    · rw [SockaddrIndex.run, h0]
      exact h2
    · rw [specRun, h0]
      exact h3

/-- After any sequence of inserts of absent keys and removals, whatever allocations fail: the sequence
    ends, the search for any address ends with exactly the slot last inserted for it and neither
    removed since nor dropped, the counters count, and an empty entry is left. -/
theorem run_refines (cap : Nat) (ops : List Op) (hops : (new cap).Contract (fun _ => none) ops) :
    ∃ idx, (new cap).run ops = some idx ∧
      (∀ a, idx.find a = some ((new cap).specRun (fun _ => none) ops (canonKey a))) ∧
      idx.used = count Cell.isLive idx.entries idx.size ∧ idx.tombstones = count Cell.isDead idx.entries idx.size ∧
      (∃ i < idx.size, idx.entries i = .empty) := by
  obtain ⟨idx, h0, h⟩ := (refines_new cap).run ops hops
  refine ⟨idx, h0, fun a => ?_, h.wf.used_eq, h.wf.tombstones_eq, h.wf.exists_empty⟩
  exact (find_eq h.wf a _).2 fun s => h.maps _ s

/-- The IPv4 client 10.0.0.`n`, port 5000. -/
def client (n : UInt8) : PeerAddr := ⟨some (.inet #v[10, 0, 0, n] 5000), sizeofSockaddrIn⟩

/-- A table of four entries drops the fourth client while it cannot grow, and grows for the fifth. -/
def grown : List Op := [.insert (client 1) 1 true, .insert (client 2) 2 true, .insert (client 3) 3 true,
  .insert (client 4) 4 false, .remove (client 2) true, .insert (client 5) 5 true, .insert (client 2) 6 true]

theorem run_refines_grown : ((new 1).run grown).map (fun idx => [1, 2, 3, 4, 5].map fun n => idx.find (client n)) =
        some [some (some 1), some (some 6), some (some 3), some none, some (some 5)] ∧
      ∃ idx, (new 1).run grown = some idx ∧
      (∀ a, idx.find a = some ((new 1).specRun (fun _ => none) grown (canonKey a))) ∧
      idx.used = count Cell.isLive idx.entries idx.size ∧ idx.tombstones = count Cell.isDead idx.entries idx.size ∧
      (∃ i < idx.size, idx.entries i = .empty) := by
  refine ⟨by decide +kernel, run_refines 1 grown ?_⟩
  simp +decide [grown, Contract, specStep]

/-- Four clients in a table of four entries that cannot grow: the fourth is dropped. -/
theorem fourth_insert_dropped : ([client 1, client 2, client 3, client 4].map canonKey).Nodup ∧
      ((new 1).run [.insert (client 1) 0 true, .insert (client 2) 1 true,
        .insert (client 3) 2 true, .insert (client 4) 3 false]).bind
          (fun idx => idx.find (client 4)) = some none := by
  decide +kernel

end SockaddrIndex

end DvbIpiTools.Net
