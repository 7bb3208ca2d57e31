import DvbIpiTools.Demux.Crc32
import DvbIpiTools.Mux.TsPacketWrite
import Mathlib.Data.List.Perm.Basic
import Mathlib.Data.List.Nodup

set_option autoImplicit false

/-! # Captured EIT sections (`mux/remux/eit.c`, `tvhead/mpts.c`)

The sections of a source's own service are rewritten to the output's ids, queued, and sent a few packets
at a time. Of `struct remux` this is the part that the EIT code reads and writes; its drop counter is
left out. -/

namespace DvbIpiTools.Tvhead

open BeUtil Demux Mux List Nat

def eitQueueCap : Nat := 16
def outPidEit : Nat := 0x12

/-- `eit_section_t`; `data` has `len` bytes. -/
structure EitSection where
  tableId : UInt8 := 0
  sectionNumber : UInt8 := 0
  data : List UInt8 := []

/-- The ids a program is sent under. -/
structure Ids where
  sid : Nat
  tsid : Nat
  onid : Nat

/-- The EIT part of `struct remux`. `order` has the slots: the first `count` are queued, oldest first, the
    rest are free. -/
structure Eit where
  ids : Ids
  srcServiceId : Nat
  asm : SectionAsm
  slot : Nat → EitSection
  order : List Nat
  count : Nat
  drainOff : Nat

namespace Eit

/-- `remux_new`. -/
def new (ids : Ids) (srcServiceId : Nat) : Eit where
  ids := ids
  srcServiceId := srcServiceId
  asm := {}
  slot := fun _ => {}
  order := range eitQueueCap
  count := 0
  drainOff := 0

/-- `eit_table_id_actual`. -/
def tableIdActual (id : UInt8) : Bool := id = 0x4E || (0x50 ≤ id && id ≤ 0x5F)

/-- `eit_at`. -/
def entryAt (r : Eit) (i : Nat) : EitSection := r.slot (r.order.getD i 0)

/-- `eit_remove`. -/
def remove (r : Eit) (i : Nat) : Eit :=
  { r with count := r.count - 1, order := r.order.eraseIdx i ++ [r.order.getD i 0] }

/-- The first position that may change: a head in the middle of being sent stays. -/
def low (r : Eit) : Nat := if r.drainOff > 0 then 1 else 0

/-- `eit_evict_candidate`. -/
def evictCandidate (r : Eit) : Option Nat :=
  (range' r.low (r.count - r.low)).reverse.find? fun i => (r.entryAt i).tableId ≠ 0x4E

/-- The version in a section header. -/
def version (data : List UInt8) : Nat := byteAt data 5 >>> 1 &&& 0x1F

/-- The loop of `eit_drop_stale` over the `n` positions from `lo` on, the last one first. -/
def dropStaleFrom (tableId : UInt8) (ver lo : Nat) : Nat → Eit → Eit
  | 0, r => r
  | n + 1, r =>
    let q := r.entryAt (lo + n)
    dropStaleFrom tableId ver lo n
      (if q.tableId = tableId ∧ version q.data ≠ ver then r.remove (lo + n) else r)

/-- `eit_drop_stale`. -/
def dropStale (r : Eit) (tableId : UInt8) (ver : Nat) : Eit :=
  dropStaleFrom tableId ver r.low (r.count - r.low) r

/-- The position `i` of the queue given a new content. -/
def setEntry (r : Eit) (i : Nat) (q : EitSection) : Eit :=
  { r with slot := fun k => if k = r.order.getD i 0 then q else r.slot k }

/-- The end of `eit_queue_put`: a new entry behind the others. -/
def append (r : Eit) (q : EitSection) : Eit := { r.setEntry r.count q with count := r.count + 1 }

/-- `eit_queue_put`. -/
def queuePut (r : Eit) (tableId sectionNumber : UInt8) (data : List UInt8) : Eit :=
  let r := r.dropStale tableId (version data)
  match (range' r.low (r.count - r.low)).find? fun i =>
      (r.entryAt i).tableId = tableId ∧ (r.entryAt i).sectionNumber = sectionNumber with
  | some i => r.setEntry i { r.entryAt i with data }
  | none =>
    if r.count ≥ eitQueueCap then
      match if tableId = 0x4E then r.evictCandidate else none with
      | none => r
      | some victim => (r.remove victim).append ⟨tableId, sectionNumber, data⟩
    else r.append ⟨tableId, sectionNumber, data⟩

/-- The section as it goes out: own ids, and a new CRC. -/
def rewriteIds (r : Eit) (sec : List UInt8) : List UInt8 :=
  let out := ((((((sec.set 3 (.ofNat (r.ids.sid >>> 8))).set 4 (.ofNat r.ids.sid)).set 8
    (.ofNat (r.ids.tsid >>> 8))).set 9 (.ofNat r.ids.tsid)).set 10 (.ofNat (r.ids.onid >>> 8))).set 11
    (.ofNat r.ids.onid))
  let body := out.take (sec.length - 4)
  body ++ bePut 4 (crc32Mpeg body)

/-- `eit_section_done`. -/
def sectionDone (r : Eit) (sec : List UInt8) : Eit :=
  if sec.length < 16 ∨ sec.length > 4096 then r
  else if crc32Mpeg sec ≠ 0 then r
  else if !tableIdActual (sec.getD 0 0) then r
  else if beGet sec 3 2 ≠ r.srcServiceId then r
  else
    let out := r.rewriteIds sec
    r.queuePut (out.getD 0 0) (out.getD 6 0) out

/-- `capture_eit_section`. -/
def capture (r : Eit) (pkt : List UInt8) : Eit :=
  let (secs, asm) := r.asm.feedPacket pkt
  secs.foldl sectionDone { r with asm }

/-- `remux_emit_eit`: the packets, the counter and the state after them. -/
def emit (r : Eit) (pid cc maxPackets : Nat) : List (List UInt8) × Nat × Eit :=
  if r.count = 0 then ([], cc, r)
  else
    let head := r.entryAt 0
    let (pkts, drainOff, cc') := tsPacketEmitPartial pid (some 0) head.data maxPackets r.drainOff cc
    let r := { r with drainOff }
    if drainOff ≥ head.data.length then (pkts, cc', { r.remove 0 with drainOff := 0 }) else (pkts, cc', r)

/-- `remux_eit_pending`. -/
def pending (r : Eit) : Bool := r.count > 0

/-- `remux_eit_mid_section`. -/
def midSection (r : Eit) : Bool := r.drainOff > 0

end Eit

/-- The programs of a multiplex and its EIT state. -/
structure Mpts where
  progs : Nat → Option Eit
  n : Nat
  busy : Option Nat
  cc : Nat

namespace Mpts

/-- A program replaced. -/
def setProg (m : Mpts) (i : Nat) (r : Option Eit) : Mpts :=
  { m with progs := fun k => if k = i then r else m.progs k }

/-- One packet of the program `i`, which stays busy while it is in the middle of a section. -/
def emitFrom (m : Mpts) (i : Nat) (r : Eit) : List (List UInt8) × Mpts :=
  let (pkts, cc, r') := r.emit outPidEit m.cc 1
  (pkts, { m.setProg i (some r') with cc, busy := if r'.midSection then some i else none })

/-- The program that is busy, if it still has something to send. -/
def busyProg (m : Mpts) : Option (Nat × Eit) :=
  match m.busy with
  | none => none
  | some i =>
    match m.progs i with
    | none => none
    | some r => if r.pending then some (i, r) else none

/-- The first program that has something to send. -/
def firstPending (m : Mpts) : Option (Nat × Eit) :=
  (range m.n).findSome? fun i =>
    match m.progs i with
    | none => none
    | some r => if r.pending then some (i, r) else none

/-- `mpts_emit_eit`. -/
def emitEit (m : Mpts) : List (List UInt8) × Mpts :=
  match m.busyProg with
  | some (i, r) => m.emitFrom i r
  | none =>
    let m := { m with busy := none }
    match m.firstPending with
    | some (i, r) => m.emitFrom i r
    | none => ([], m)

end Mpts

/-! # The EIT queue as a list

`entries` is the queue without its slots: the operations on slots and order are operations on that list.
The head is left alone while it is being sent, and behind it no key occurs twice. -/

/-- What a queued section is known by. -/
def EitSection.key (q : EitSection) : UInt8 × UInt8 := (q.tableId, q.sectionNumber)

namespace Eit

/-- What is queued, oldest first. -/
def entries (r : Eit) : List EitSection := (r.order.take r.count).map r.slot

/-- The order is a permutation of the slots, and not more are queued than there are. -/
structure SlotsOk (r : Eit) : Prop where
  perm : r.order.Perm (range eitQueueCap)
  count_le : r.count ≤ eitQueueCap

variable {r : Eit}

theorem SlotsOk.length (h : r.SlotsOk) : r.order.length = eitQueueCap := by rw [h.perm.length_eq, length_range]

theorem SlotsOk.nodup (h : r.SlotsOk) : r.order.Nodup := h.perm.nodup_iff.2 nodup_range

theorem SlotsOk.length_entries (h : r.SlotsOk) : r.entries.length = r.count := by
  have hlen := h.length
  have hle := h.count_le
  rw [entries, length_map, length_take]
  omega

variable {i : Nat} (h : r.SlotsOk)

include h

theorem SlotsOk.getElem?_entries (hi : i < r.count) : r.entries[i]? = some (r.entryAt i) := by
  have hlen := h.length
  have hle := h.count_le
  have horder : i < r.order.length := by omega
  rw [entries, getElem?_map, getElem?_take, if_pos hi, getElem?_eq_getElem horder, entryAt, getD_eq_getElem _ _ horder]
  rfl

/-! ## Removing -/

theorem SlotsOk.remove (hi : i < r.count) : (r.remove i).SlotsOk := by
  have hlen := h.length
  have hle := h.count_le
  have horder : i < r.order.length := by omega
  refine ⟨?_, by show r.count - 1 ≤ _; omega⟩
  refine List.Perm.trans ?_ h.perm
  show (r.order.eraseIdx i ++ [r.order.getD i 0]).Perm r.order
  rw [getD_eq_getElem _ _ horder]
  have hsplit : r.order = r.order.take i ++ r.order[i] :: r.order.drop (i + 1) := by
    rw [← drop_eq_getElem_cons horder, take_append_drop]
  rw [eraseIdx_eq_take_drop_succ]
  conv_rhs => rw [hsplit]
  rw [append_assoc]
  exact List.Perm.append_left _ (perm_append_comm.trans (Perm.refl _))

theorem SlotsOk.entries_remove (hi : i < r.count) : (r.remove i).entries = r.entries.eraseIdx i := by
  have hlen := h.length
  have hle := h.count_le
  show ((r.order.eraseIdx i ++ [r.order.getD i 0]).take (r.count - 1)).map r.slot = _
  have herase : (r.order.eraseIdx i).length = r.order.length - 1 := length_eraseIdx_of_lt (by omega)
  rw [take_append_of_le_length (by omega), entries, eraseIdx_map]
  congr 1
  rw [eraseIdx_eq_take_drop_succ, eraseIdx_eq_take_drop_succ, take_append,
    length_take, min_eq_left (by omega), take_take, take_take,
    min_eq_right (by omega), min_eq_left (by omega), drop_take]
  congr 2
  omega

/-! ## Writing -/

theorem SlotsOk.setEntry (i : Nat) (q : EitSection) : (r.setEntry i q).SlotsOk := ⟨h.perm, h.count_le⟩

theorem SlotsOk.getD_ne {j : Nat} (hi : i < eitQueueCap)
    (hj : j < eitQueueCap) (hne : i ≠ j) : r.order.getD i 0 ≠ r.order.getD j 0 := by
  have hlen := h.length
  rw [getD_eq_getElem _ _ (by omega), getD_eq_getElem _ _ (by omega)]
  exact fun heq => hne ((List.Nodup.getElem_inj_iff h.nodup).1 heq)

theorem SlotsOk.entryAt_setEntry {j : Nat} (hi : i < eitQueueCap) (hj : j < eitQueueCap) (q : EitSection) :
    (r.setEntry i q).entryAt j = if j = i then q else r.entryAt j := by
  show (if r.order.getD j 0 = r.order.getD i 0 then q else r.slot (r.order.getD j 0)) = _
  by_cases hji : j = i
  · rw [hji, if_pos rfl, if_pos rfl]
  · rw [if_neg (h.getD_ne hj hi hji), if_neg hji]
    rfl

theorem SlotsOk.entries_setEntry (hi : i < r.count)
    (q : EitSection) : (r.setEntry i q).entries = r.entries.set i q := by
  have hle := h.count_le
  apply ext_getElem?
  intro j
  by_cases hj : j < r.count
  · rw [(h.setEntry i q).getElem?_entries hj, h.entryAt_setEntry (by omega) (by omega), getElem?_set, h.length_entries]
    by_cases hji : j = i
    · rw [if_pos hji, if_pos hji.symm, if_pos hi]
    · rw [if_neg hji, if_neg (Ne.symm hji), h.getElem?_entries hj]
  · rw [getElem?_eq_none (by rw [(h.setEntry i q).length_entries]; exact not_lt.1 hj),
      getElem?_eq_none (by rw [length_set, h.length_entries]; exact not_lt.1 hj)]

theorem SlotsOk.append (hlt : r.count < eitQueueCap) (q : EitSection) : (r.append q).SlotsOk := ⟨h.perm, hlt⟩

theorem SlotsOk.entries_append (hlt : r.count < eitQueueCap)
    (q : EitSection) : (r.append q).entries = r.entries ++ [q] := by
  have h' := h.append hlt q
  apply ext_getElem?
  intro j
  by_cases hj : j < r.count + 1
  · have hentry : (r.append q).entryAt j = if j = r.count then q else r.entryAt j :=
      h.entryAt_setEntry hlt (by omega) q
    rw [h'.getElem?_entries hj, hentry]
    by_cases hjc : j = r.count
    · rw [if_pos hjc, getElem?_append_right (by rw [h.length_entries]; omega), h.length_entries, hjc, Nat.sub_self]
      rfl
    · rw [if_neg hjc, getElem?_append_left (by rw [h.length_entries]; omega), h.getElem?_entries (by omega)]
  · rw [getElem?_eq_none (by rw [h'.length_entries]; exact not_lt.1 hj), getElem?_eq_none (by
        rw [length_append, h.length_entries, length_singleton]
        exact not_lt.1 hj)]

omit h

/-! ## Trimming -/

/-- `r'` is `r` with some entries fewer, none of them before position `lo`. -/
structure Trim (lo : Nat) (r r' : Eit) : Prop where
  slots : r'.SlotsOk
  ids : r'.ids = r.ids
  srcServiceId : r'.srcServiceId = r.srcServiceId
  asm : r'.asm = r.asm
  drainOff : r'.drainOff = r.drainOff
  head : r'.entries.take lo = r.entries.take lo
  rest : (r'.entries.drop lo).Sublist (r.entries.drop lo)

theorem Trim.refl (h : r.SlotsOk) (lo : Nat) : Trim lo r r := ⟨h, rfl, rfl, rfl, rfl, rfl, Sublist.refl _⟩

variable {lo : Nat} {r' r'' : Eit}

theorem Trim.trans (h : Trim lo r r') (h' : Trim lo r' r'') : Trim lo r r'' where
  slots := h'.slots
  ids := h'.ids.trans h.ids
  srcServiceId := h'.srcServiceId.trans h.srcServiceId
  asm := h'.asm.trans h.asm
  drainOff := h'.drainOff.trans h.drainOff
  head := h'.head.trans h.head
  rest := h'.rest.trans h.rest

theorem Trim.low (h : Trim lo r r') : r'.low = r.low := by rw [Eit.low, Eit.low, h.drainOff]

theorem Trim.subset (h : Trim lo r r') : r'.entries ⊆ r.entries := by
  intro q hq
  rw [← take_append_drop lo r'.entries, mem_append, h.head] at hq
  rcases hq with hq | hq
  · exact mem_of_mem_take hq
  · exact mem_of_mem_drop (h.rest.subset hq)

theorem remove_trim (h : r.SlotsOk) (hlo : lo ≤ i) (hi : i < r.count) : Trim lo r (r.remove i) where
  slots := h.remove hi
  ids := rfl
  srcServiceId := rfl
  asm := rfl
  drainOff := rfl
  head := by
    rw [h.entries_remove hi, eraseIdx_eq_take_drop_succ, take_append_of_le_length, take_take, min_eq_left hlo]
    rw [length_take, h.length_entries]
    omega
  rest := by
    rw [h.entries_remove hi, ← take_append_drop lo r.entries]
    have hlen : (r.entries.take lo).length = lo := by
      rw [length_take, h.length_entries]
      omega
    rw [eraseIdx_append_of_length_le (by omega), hlen, drop_left' hlen, drop_left' hlen]
    exact eraseIdx_sublist _ _

theorem dropStaleFrom_trim (tableId : UInt8) (ver lo n : Nat) (h : r.SlotsOk)
    (hn : lo + n ≤ r.count) : Trim lo r (dropStaleFrom tableId ver lo n r) := by
  induction n generalizing r with
  | zero => exact Trim.refl h lo
  | succ n ih =>
    rw [dropStaleFrom]
    split
    · have hremove := remove_trim h (le_add_right lo n) (show lo + n < r.count by omega)
      refine hremove.trans (ih hremove.slots ?_)
      show lo + n ≤ r.count - 1
      omega
    · exact ih h (by omega)

theorem dropStale_trim (h : r.SlotsOk) (hlow : r.low ≤ r.count) (tableId : UInt8) (ver : Nat) :
    Trim r.low r (r.dropStale tableId ver) :=
  dropStaleFrom_trim tableId ver r.low (r.count - r.low) h (by omega)

theorem evictCandidate_range (h : r.evictCandidate = some i) : r.low ≤ i ∧ i < r.count := by
  have hmem := mem_of_find?_eq_some h
  rw [mem_reverse, mem_range'_1] at hmem
  omega

/-! ## Putting -/

/-- Behind a head that is being sent, no key is queued twice. -/
def KeysOk (r : Eit) : Prop := ((r.entries.drop r.low).map EitSection.key).Nodup

/-- What `eit_queue_put` of `q` may do. -/
structure Put (q : EitSection) (r r' : Eit) : Prop where
  slots : r'.SlotsOk
  ids : r'.ids = r.ids
  srcServiceId : r'.srcServiceId = r.srcServiceId
  asm : r'.asm = r.asm
  drainOff : r'.drainOff = r.drainOff
  head : r'.entries.take r.low = r.entries.take r.low
  mem : ∀ e ∈ r'.entries, e ∈ r.entries ∨ e = q
  keys : r.KeysOk → r'.KeysOk

theorem Trim.put (h : Trim r.low r r') (q : EitSection) : Put q r r' where
  __ := h
  mem := fun e he => .inl (h.subset he)
  keys := fun hk => by
    rw [KeysOk, h.low]
    exact List.Nodup.sublist (h.rest.map _) hk

variable {q : EitSection}

theorem Trim.then_put (h : Trim r.low r r') (h' : Put q r' r'') : Put q r r'' where
  slots := h'.slots
  ids := h'.ids.trans h.ids
  srcServiceId := h'.srcServiceId.trans h.srcServiceId
  asm := h'.asm.trans h.asm
  drainOff := h'.drainOff.trans h.drainOff
  head := by
    rw [← h.head, ← h.low]
    exact h'.head
  mem := fun e he => (h'.mem e he).imp_left fun hmem => h.subset hmem
  keys := fun hk => h'.keys ((h.put q).keys hk)

variable (h : r.SlotsOk)

include h

theorem setEntry_put (hlow : r.low ≤ i) (hi : i < r.count) (hkey : q.key = (r.entryAt i).key) : Put q r (r.setEntry i q) where
  slots := h.setEntry i q
  ids := rfl
  srcServiceId := rfl
  asm := rfl
  drainOff := rfl
  head := by rw [h.entries_setEntry hi, take_set_of_le hlow]
  mem := by
    intro e he
    rw [h.entries_setEntry hi] at he
    exact mem_or_eq_of_mem_set he
  keys := by
    intro hk
    have hmap : (r.entries.set i q).map EitSection.key = r.entries.map EitSection.key := by
      rw [map_set, hkey]
      apply ext_getElem?
      intro j
      rw [getElem?_set]
      split
      · next hij =>
        rw [length_map, h.length_entries, if_pos hi, ← hij, getElem?_map, h.getElem?_entries hi]
        rfl
      · rfl
    show (((r.setEntry i q).entries.drop r.low).map EitSection.key).Nodup
    rw [h.entries_setEntry hi, map_drop, hmap, ← map_drop]
    exact hk

theorem append_put (hlow : r.low ≤ r.count) (hlt : r.count < eitQueueCap) (hnew : q.key ∉ (r.entries.drop r.low).map EitSection.key) :
    Put q r (r.append q) where
  slots := h.append hlt q
  ids := rfl
  srcServiceId := rfl
  asm := rfl
  drainOff := rfl
  head := by
    rw [h.entries_append hlt, take_append_of_le_length]
    rw [h.length_entries]
    exact hlow
  mem := by
    intro e he
    rw [h.entries_append hlt, mem_append, mem_singleton] at he
    exact he
  keys := by
    intro hk
    show (((r.append q).entries.drop r.low).map EitSection.key).Nodup
    rw [h.entries_append hlt, drop_append_of_le_length (by rw [h.length_entries]; exact hlow), map_append, nodup_append]
    refine ⟨hk, nodup_singleton _, ?_⟩
    intro a ha b hb heq
    rw [map_singleton, mem_singleton] at hb
    exact hnew (hb ▸ heq ▸ ha)

theorem SlotsOk.exists_entryAt
    (hq : q ∈ r.entries.drop r.low) : ∃ i, i ∈ range' r.low (r.count - r.low) ∧ r.entryAt i = q := by
  obtain ⟨j, hj⟩ := mem_iff_getElem?.1 hq
  rw [getElem?_drop] at hj
  have hlt : r.low + j < r.count := by
    by_contra hge
    rw [getElem?_eq_none (by rw [h.length_entries]; omega)] at hj
    cases hj
  refine ⟨r.low + j, mem_range'_1.2 ⟨by omega, by omega⟩, ?_⟩
  rw [h.getElem?_entries hlt] at hj
  exact Option.some.inj hj

theorem queuePut_put (hlow : r.low ≤ r.count) (tableId sectionNumber : UInt8) (data : List UInt8) :
    Put ⟨tableId, sectionNumber, data⟩ r (r.queuePut tableId sectionNumber data) := by
  have htrim := dropStale_trim h hlow tableId (version data)
  have hlow' : (r.dropStale tableId (version data)).low ≤ (r.dropStale tableId (version data)).count := by
    rw [htrim.low, ← htrim.slots.length_entries]
    have hlen := congrArg length htrim.head
    rw [length_take, length_take, h.length_entries] at hlen
    omega
  have hlowEq := htrim.low
  rw [queuePut]
  generalize r.dropStale tableId (version data) = r1 at htrim hlow' hlowEq
  have h1 := htrim.slots
  split
  · -- an older content of the same section
    next i hfind =>
    have hmem := mem_range'_1.1 (mem_of_find?_eq_some hfind)
    have hsome := find?_some hfind
    simp only [decide_eq_true_eq] at hsome
    have heq : ({ r1.entryAt i with data } : EitSection) = ⟨tableId, sectionNumber, data⟩ := by
      rw [← hsome.1, ← hsome.2]
    rw [heq]
    refine htrim.then_put (setEntry_put h1 hmem.1 (by omega) ?_)
    exact Prod.ext hsome.1.symm hsome.2.symm
  rename_i hfind
  have hnew : (⟨tableId, sectionNumber, data⟩ : EitSection).key ∉
      (r1.entries.drop r1.low).map EitSection.key := by
    intro hmem
    obtain ⟨q, hq, hkey⟩ := mem_map.1 hmem
    obtain ⟨i, hi, rfl⟩ := h1.exists_entryAt hq
    have := find?_eq_none.1 hfind i hi
    simp only [decide_eq_true_eq, not_and] at this
    exact this (congrArg Prod.fst hkey) (congrArg Prod.snd hkey)
  split
  · next hfull =>
    split
    · exact htrim.put _
    rename_i victim hvictim
    have hcandidate : r1.evictCandidate = some victim := by
      split at hvictim
      · exact hvictim
      · cases hvictim
    obtain ⟨hge, hlt⟩ := evictCandidate_range hcandidate
    have hremove := remove_trim h1 hge hlt
    have hcount : (r1.remove victim).count = r1.count - 1 := rfl
    have hle := h1.count_le
    refine htrim.then_put (hremove.then_put ?_)
    refine append_put hremove.slots ?_ (by rw [hcount]; omega) ?_
    · show r1.low ≤ r1.count - 1
      omega
    · exact fun hmem => hnew ((hremove.rest.map _).subset hmem)
  · next hroom => exact htrim.then_put (append_put h1 hlow' (not_le.1 hroom) hnew)

omit h

/-! ## Sections that go out -/

/-- A section as it is sent under the ids `ids`. -/
structure Outgoing (ids : Ids) (data : List UInt8) : Prop where
  framed : Framed data
  four_le : 4 ≤ data.length
  actual : tableIdActual (data.getD 0 0) = true
  sid : beGet data 3 2 = ids.sid % 256 ^ 2
  tsid : beGet data 8 2 = ids.tsid % 256 ^ 2
  onid : beGet data 10 2 = ids.onid % 256 ^ 2
  crc : crc32Mpeg data = 0

theorem tableIdActual_ne {id : UInt8} (h : tableIdActual id = true) : id ≠ 0xFF := by
  rintro rfl
  cases h

/-- Such a section as one of the assembler's. -/
def Outgoing.toSection {ids : Ids} {data : List UInt8} (h : Outgoing ids data) : Section where
  bytes := data
  four_le := h.four_le
  le_max := h.framed.le_max
  length_eq := h.framed.length_eq
  tableId_ne := tableIdActual_ne h.actual

variable {sec : List UInt8}

theorem exists_header (h : 16 ≤ sec.length) :
    ∃ b0 b1 b2 b3 b4 b5 b6 b7 b8 b9 b10 b11, ∃ body : List UInt8, 4 ≤ body.length ∧
      sec = b0 :: b1 :: b2 :: b3 :: b4 :: b5 :: b6 :: b7 :: b8 :: b9 :: b10 :: b11 :: body := by
  match sec, h with
  | b0 :: b1 :: b2 :: b3 :: b4 :: b5 :: b6 :: b7 :: b8 :: b9 :: b10 :: b11 :: body, h =>
    refine ⟨b0, b1, b2, b3, b4, b5, b6, b7, b8, b9, b10, b11, body, ?_, rfl⟩
    simp only [length_cons] at h
    omega

theorem rewriteIds_outgoing (r : Eit) (hframed : Framed sec) (hlen : 16 ≤ sec.length)
    (hid : tableIdActual (sec.getD 0 0) = true) : Outgoing r.ids (r.rewriteIds sec) := by
  obtain ⟨b0, b1, b2, b3, b4, b5, b6, b7, b8, b9, b10, b11, body, hbody, rfl⟩ := exists_header hlen
  obtain ⟨front, hfront⟩ : ∃ front, front = [b0, b1, b2] ++ (bePut 2 r.ids.sid ++ ([b5, b6, b7] ++
    (bePut 2 r.ids.tsid ++ (bePut 2 r.ids.onid ++ body.take (body.length - 4))))) := ⟨_, rfl⟩
  have hout : r.rewriteIds
      (b0 :: b1 :: b2 :: b3 :: b4 :: b5 :: b6 :: b7 :: b8 :: b9 :: b10 :: b11 :: body) =
      front ++ bePut 4 (crc32Mpeg front) := by
    have hkept : (b0 :: b1 :: b2 :: b3 :: b4 :: b5 :: b6 :: b7 :: b8 :: b9 :: b10 :: b11 :: body).length -
        4 = body.length - 4 + 12 := by
      simp only [length_cons]
      omega
    rw [rewriteIds, hkept, hfront]
    rfl
  have hlength : (front ++ bePut 4 (crc32Mpeg front)).length =
      (b0 :: b1 :: b2 :: b3 :: b4 :: b5 :: b6 :: b7 :: b8 :: b9 :: b10 :: b11 :: body).length := by
    rw [hfront]
    simp only [length_append, length_bePut, length_cons, length_nil, length_take]
    omega
  have hcrc := crc32Mpeg_append_self front
  rw [hout]
  generalize bePut 4 (crc32Mpeg front) = tail at hlength hcrc
  subst hfront
  refine ⟨⟨?_, ?_⟩, ?_, hid, ?_, ?_, ?_, hcrc⟩
  · rw [hlength]
    exact hframed.length_eq
  · rw [hlength]
    exact hframed.le_max
  · rw [hlength]
    exact le_trans (by decide) hlen
  · exact beGet_field [b0, b1, b2] ([b5, b6, b7] ++ (bePut 2 r.ids.tsid ++ (bePut 2 r.ids.onid ++
      (body.take (body.length - 4) ++ tail)))) 2 r.ids.sid
  · exact beGet_field ([b0, b1, b2] ++ bePut 2 r.ids.sid ++ [b5, b6, b7]) (bePut 2 r.ids.onid ++
      (body.take (body.length - 4) ++ tail)) 2 r.ids.tsid
  · exact beGet_field ([b0, b1, b2] ++ bePut 2 r.ids.sid ++ [b5, b6, b7] ++ bePut 2 r.ids.tsid)
      (body.take (body.length - 4) ++ tail) 2 r.ids.onid

/-! ## The state of a program -/

/-- What holds of a program at any time. -/
structure Ok (r : Eit) : Prop where
  slots : r.SlotsOk
  keys : r.KeysOk
  outgoing : ∀ q ∈ r.entries, Outgoing r.ids q.data
  /-- the offset is inside of the head -/
  drainOff : 0 < r.drainOff → 0 < r.count ∧ r.drainOff < (r.entryAt 0).data.length
  asm : r.asm.Sound

theorem new_ok (ids : Ids) (srcServiceId : Nat) : (new ids srcServiceId).Ok where
  slots := ⟨Perm.refl _, zero_le _⟩
  keys := nodup_nil
  outgoing := nofun
  drainOff := fun h => absurd h (lt_irrefl 0)
  asm := SectionAsm.sound_of_idle rfl

theorem Ok.low_le (h : r.Ok) : r.low ≤ r.count := by
  rw [low]
  split
  · next hpos => exact (h.drainOff hpos).1
  · exact zero_le _

theorem Put.head_eq (h : Put q r r') (hr : r.Ok) (hpos : 0 < r.drainOff) :
    0 < r'.count ∧ r'.entryAt 0 = r.entryAt 0 := by
  obtain ⟨hcount, -⟩ := hr.drainOff hpos
  have hhead := h.head
  rw [low, if_pos hpos] at hhead
  have hget : r'.entries[0]? = some (r.entryAt 0) := by
    have := congrArg (fun l : List EitSection => l[0]?) hhead
    simp only [getElem?_take, lt_one_iff, if_true] at this
    rw [this, hr.slots.getElem?_entries hcount]
  have hcount' : 0 < r'.count := by
    by_contra hzero
    rw [getElem?_eq_none (by rw [h.slots.length_entries]; omega)] at hget
    cases hget
  rw [h.slots.getElem?_entries hcount'] at hget
  exact ⟨hcount', Option.some.inj hget⟩

theorem Put.ok {q : EitSection} {r r' : Eit} (h : Put q r r') (hr : r.Ok) (hq : Outgoing r.ids q.data) : r'.Ok where
  slots := h.slots
  keys := h.keys hr.keys
  outgoing := by
    intro e he
    rw [h.ids]
    rcases h.mem e he with hmem | rfl
    · exact hr.outgoing e hmem
    · exact hq
  drainOff := by
    intro hpos
    rw [h.drainOff] at hpos ⊢
    obtain ⟨hcount, hhead⟩ := h.head_eq hr hpos
    exact ⟨hcount, hhead ▸ (hr.drainOff hpos).2⟩
  asm := by
    rw [h.asm]
    exact hr.asm

/-- What capturing leaves alone: the ids, and a head that is being sent. -/
structure Kept (r r' : Eit) : Prop where
  ok : r'.Ok
  ids : r'.ids = r.ids
  drainOff : r'.drainOff = r.drainOff
  head : 0 < r.drainOff → r'.entryAt 0 = r.entryAt 0

theorem Kept.refl (h : r.Ok) : Kept r r := ⟨h, rfl, rfl, fun _ => rfl⟩

theorem Kept.trans (h : Kept r r') (h' : Kept r' r'') : Kept r r'' where
  ok := h'.ok
  ids := h'.ids.trans h.ids
  drainOff := h'.drainOff.trans h.drainOff
  head := fun hpos => (h'.head (h.drainOff ▸ hpos)).trans (h.head hpos)

theorem sectionDone_kept (h : r.Ok) (hsec : Framed sec) : Kept r (r.sectionDone sec) := by
  rw [sectionDone]
  split
  · exact Kept.refl h
  rename_i hlen
  split
  · exact Kept.refl h
  split
  · exact Kept.refl h
  rename_i hid
  split
  · exact Kept.refl h
  have hactual : tableIdActual (sec.getD 0 0) = true := by
    simpa only [Bool.not_eq_true, Bool.not_eq_false'] using hid
  have hput := queuePut_put h.slots h.low_le ((r.rewriteIds sec).getD 0 0)
    ((r.rewriteIds sec).getD 6 0) (r.rewriteIds sec)
  exact ⟨hput.ok h (rewriteIds_outgoing r hsec (by omega) hactual), hput.ids, hput.drainOff,
    fun hpos => (hput.head_eq h hpos).2⟩

theorem capture_kept (h : r.Ok) (pkt : List UInt8) : Kept r (r.capture pkt) := by
  obtain ⟨hframed, hsound⟩ := SectionAsm.feedPacket_framed h.asm pkt
  rw [capture]
  generalize r.asm.feedPacket pkt = out at hframed hsound
  obtain ⟨secs, asm⟩ := out
  have hstart : Kept r { r with asm } :=
    ⟨⟨⟨h.slots.perm, h.slots.count_le⟩, h.keys, h.outgoing, h.drainOff, hsound⟩, rfl, rfl, fun _ => rfl⟩
  have hfold : ∀ (secs : List (List UInt8)) (r : Eit), (∀ s ∈ secs, Framed s) → r.Ok →
      Kept r (secs.foldl sectionDone r) := by
    intro secs
    induction secs with
    | nil => exact fun r _ hr => Kept.refl hr
    | cons sec secs ih =>
      intro r hsecs hr
      have hdone := sectionDone_kept hr (hsecs sec (mem_cons_self ..))
      exact hdone.trans (ih _ (fun s hs => hsecs s (.tail _ hs)) hdone.ok)
  exact hstart.trans (hfold secs _ hframed hstart.ok)

end Eit

end DvbIpiTools.Tvhead
