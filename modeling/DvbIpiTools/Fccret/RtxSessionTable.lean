import DvbIpiTools.Net.SockaddrIndex

set_option autoImplicit false

/-! # RTX sessions (`rtx_session_table.c`)

One RTX sequence number space for each client. A stripe has a fixed array of slots (a function of which
the first `cap` values matter), a stack of free ones and the address index. The clock and the outcome of
the allocations in the index are arguments; `none` stands for a loop that does not end. -/

namespace DvbIpiTools.Fccret

open Net LinearProbe List

/-- `rtx_session_slot_t`. -/
structure RtxSlot where
  valid : Bool := false
  addr : PeerAddr := ⟨some (.other 0), 0⟩
  seq : UInt16 := 0
  lastSeen : Int := 0

/-- `rtx_session_stripe_t`; the head of `freeList` is the top of the stack. -/
structure RtxStripe where
  slots : Nat → RtxSlot
  cap : Nat
  index : SockaddrIndex
  freeList : List Nat
  reapCursor : Nat

/-- `struct rtx_session_table`. -/
structure RtxSessionTable where
  stripes : List RtxStripe

def sizeofSockaddrStorage : Nat := 128

/-- The address as a slot keeps it. -/
def storedAddr (a : PeerAddr) : PeerAddr :=
  if a.addr.isSome ∧ a.addrlen ≠ 0 then ⟨a.addr, min a.addrlen sizeofSockaddrStorage⟩
  else ⟨some (.other 0), 0⟩

namespace RtxStripe

/-- `stripe_init`. -/
def init (cap : Nat) : RtxStripe where
  slots := fun _ => {}
  cap := cap
  index := SockaddrIndex.new cap
  freeList := range cap
  reapCursor := 0

/-- A stripe with one slot replaced. -/
def setSlot (s : RtxStripe) (i : Nat) (x : RtxSlot) : RtxStripe :=
  { s with slots := fun j => if j = i then x else s.slots j }

/-- The scan for the coldest session of a full stripe. -/
def coldest (s : RtxStripe) : Option Nat :=
  (range s.cap).foldl (fun oldest i =>
    if !(s.slots i).valid then oldest
    else
      match oldest with
      | none => some i
      | some o => if (s.slots i).lastSeen ≤ (s.slots o).lastSeen then some i else oldest) none

/-- The slot for a new session: from the free list, else by evicting the coldest one. The inner
    `none` is a stripe without slots. -/
def claim (s : RtxStripe) (alloc : Bool) : Option (Option (Nat × RtxStripe)) :=
  match s.freeList with
  | i :: rest => some (some (i, { s with freeList := rest }))
  | [] =>
    match s.coldest with
    | none => some none
    | some i =>
      match s.index.remove (s.slots i).addr alloc with
      | none => none
      | some index => some (some (i, { s with index }))

/-- The session of a client in the slot `i`, with its first number handed out. -/
def createSession (s : RtxStripe) (i : Nat) (a : PeerAddr) (now : Int) (alloc : Bool) :
    Option RtxStripe :=
  match s.index.insert a i alloc with
  | none => none
  | some index =>
    some { s.setSlot i { valid := true, addr := storedAddr a, seq := 1, lastSeen := now } with index }

/-- `stripe_next_seq`. -/
def nextSeq (s : RtxStripe) (a : PeerAddr) (now : Int) (allocRemove allocInsert : Bool) :
    Option (UInt16 × RtxStripe) :=
  match s.index.find a with
  | none => none
  | some (some i) =>
    let x := s.slots i
    some (x.seq, s.setSlot i { x with lastSeen := now, seq := x.seq + 1 })
  | some none =>
    match s.claim allocRemove with
    | none => none
    | some none => some (0, s)
    | some (some (i, s')) => (s'.createSession i a now allocInsert).map fun s'' => (0, s'')

def reapOne (s : RtxStripe) (i : Nat) (now maxAge : Int) (alloc : Bool) : Option RtxStripe :=
  let x := s.slots i
  if !x.valid then some s
  else if now - x.lastSeen ≤ maxAge then some s
  else
    match s.index.remove x.addr alloc with
    | none => none
    | some index => some { s.setSlot i { x with valid := false } with index, freeList := i :: s.freeList }

/-- The part of `rtx_session_table_reap_step` for one stripe: `n` slots from the cursor on. -/
def reapStep (s : RtxStripe) (now maxAge : Int) (alloc : Nat → Bool) : Nat → Option RtxStripe
  | 0 => some s
  | n + 1 =>
    match s.reapOne s.reapCursor now maxAge (alloc n) with
    | none => none
    | some s' => reapStep { s' with reapCursor := (s'.reapCursor + 1) % s'.cap } now maxAge alloc n

end RtxStripe

namespace RtxSessionTable

def stripeCountMax : Nat := 8

/-- `rtx_session_table_new`. -/
def new (cap : Nat) : RtxSessionTable :=
  let n := min cap stripeCountMax
  { stripes := (range n).map fun i : Nat => RtxStripe.init (cap / n + if i < cap % n then 1 else 0) }

/-- `sockaddr_stripe_of`. -/
def stripeOf (a : PeerAddr) (count : Nat) : Nat :=
  if a.addr.isNone ∨ a.addrlen = 0 then 0 else keyHash (canonKey a) % count

/-- `rtx_session_table_next_seq`. -/
def nextSeq (t : RtxSessionTable) (a : PeerAddr) (now : Int) (allocRemove allocInsert : Bool) :
    Option (UInt16 × RtxSessionTable) :=
  let i := stripeOf a t.stripes.length
  match t.stripes[i]? with
  | none => none
  | some s =>
    (s.nextSeq a now allocRemove allocInsert).map fun p => (p.1, { stripes := t.stripes.set i p.2 })

/-- The loop of `rtx_session_table_reap_step` over the stripes. -/
def reapStripes (now maxAge : Int) (perStripe : Nat) (alloc : Nat → Nat → Bool) :
    List RtxStripe → Option (List RtxStripe)
  | [] => some []
  | s :: ss => do
    let s' ← s.reapStep now maxAge (alloc ss.length) (min perStripe s.cap)
    let ss' ← reapStripes now maxAge perStripe alloc ss
    return s' :: ss'

/-- `rtx_session_table_reap_step`. -/
def reapStep (t : RtxSessionTable) (now maxAge : Int) (maxScan : Nat) (alloc : Nat → Nat → Bool) :
    Option RtxSessionTable :=
  (reapStripes now maxAge (max (maxScan / t.stripes.length) 1) alloc t.stripes).map fun stripes =>
    { stripes }

end RtxSessionTable

/-! ## Addresses in slots -/

theorem canonKey_storedAddr (a : PeerAddr) : canonKey (storedAddr a) = canonKey a := by
  obtain ⟨addr, len⟩ := a
  unfold storedAddr
  split
  · -- a cut to 128 bytes does not reach the fields the key is made of
    cases addr with
    | none => rfl
    | some x =>
      cases x with
      | inet x port =>
        have hcut : min len sizeofSockaddrStorage ≥ sizeofSockaddrIn ↔ len ≥ sizeofSockaddrIn := by
          unfold sizeofSockaddrStorage sizeofSockaddrIn
          omega
        exact if_congr hcut rfl rfl
      | inet6 x port =>
        have hcut : min len sizeofSockaddrStorage ≥ sizeofSockaddrIn6 ↔ len ≥ sizeofSockaddrIn6 := by
          unfold sizeofSockaddrStorage sizeofSockaddrIn6
          omega
        exact if_congr hcut rfl rfl
      | other f => rfl
  · next h =>
    simp only [ne_eq, not_and, not_not] at h
    cases addr with
    | none => rfl
    | some x =>
      have hlen : len = 0 := h rfl
      subst hlen
      cases x with
      | inet x port => simp [canonKey, sizeofSockaddrIn]
      | inet6 x port => simp [canonKey, sizeofSockaddrIn6]
      | other f => rfl

namespace RtxStripe

/-! ## The invariant of a stripe -/

/-- The slot `j` holds a session of `k`. -/
def Session (s : RtxStripe) (k : SockaddrKey) (j : Nat) : Prop :=
  j < s.cap ∧ (s.slots j).valid = true ∧ canonKey (s.slots j).addr = k

/-- The client has a session. -/
def hasSession (s : RtxStripe) (k : SockaddrKey) : Bool :=
  (range s.cap).any fun j => (s.slots j).valid && canonKey (s.slots j).addr = k

variable {s : RtxStripe} {k : SockaddrKey}

theorem hasSession_iff : s.hasSession k = true ↔ ∃ j, s.Session k j := by
  simp only [hasSession, any_eq_true, mem_range, Bool.and_eq_true, decide_eq_true_eq, Session]

/-- The free list and the valid slots partition the slot array. -/
structure Partition (s : RtxStripe) : Prop where
  nodup : s.freeList.Nodup
  free : ∀ j, j ∈ s.freeList ↔ j < s.cap ∧ (s.slots j).valid = false

/-- The index maps exactly the addresses of the valid sessions, to their slots. -/
def IndexExact (s : RtxStripe) : Prop := ∀ k j, s.index.Maps k j ↔ s.Session k j

structure Inv (s : RtxStripe) : Prop where
  partition : s.Partition
  exact : s.IndexExact
  wf : s.index.Wf
  cap_pos : 0 < s.cap
  cursor_lt : s.reapCursor < s.cap

theorem inv_init {cap : Nat} (hcap : 0 < cap) : (init cap).Inv := by
  refine ⟨⟨nodup_range, fun j => ?_⟩, fun k j => ?_, SockaddrIndex.wf_new cap, hcap, hcap⟩
  · show j ∈ range cap ↔ j < cap ∧ false = false
    simp
  · exact ⟨fun h => absurd h (SockaddrIndex.not_maps_new cap k j), fun h => Bool.noConfusion h.2.1⟩

variable {i : Nat}

theorem Inv.session_inj (h : s.Inv) {j : Nat} (hi : s.Session k i) (hj : s.Session k j) : i = j :=
  h.wf.maps_inj ((h.exact k i).2 hi) ((h.exact k j).2 hj)

/-! ## Claiming a slot -/

theorem coldest_foldl (s : RtxStripe) (l : List Nat) (o : Option Nat)
    (ho : ∀ i, o = some i → i < s.cap ∧ (s.slots i).valid = true) (hl : ∀ i ∈ l, i < s.cap)
    (hsome : o.isSome ∨ ∃ i ∈ l, (s.slots i).valid = true) : ∃ i, l.foldl (fun oldest i =>
        if !(s.slots i).valid then oldest
        else
          match oldest with
          | none => some i
          | some o => if (s.slots i).lastSeen ≤ (s.slots o).lastSeen then some i else oldest) o
        = some i ∧ i < s.cap ∧ (s.slots i).valid = true := by
  induction l generalizing o with
  | nil =>
    obtain ⟨i, rfl⟩ : ∃ i, o = some i := by
      rcases hsome with h | ⟨i, hi, -⟩
      · exact Option.isSome_iff_exists.1 h
      · cases hi
    exact ⟨i, rfl, ho i rfl⟩
  | cons i l ih =>
    rw [foldl_cons]
    have hi := hl i mem_cons_self
    have hl' := fun j hj => hl j (mem_cons_of_mem i hj)
    cases hv : (s.slots i).valid with
    | false =>
      refine ih o ho hl' ?_
      rcases hsome with h | ⟨j, hj, hjv⟩
      · exact .inl h
      · rcases mem_cons.1 hj with rfl | hj
        · exact absurd (hv.symm.trans hjv) (by decide)
        · exact .inr ⟨j, hj, hjv⟩
    | true =>
      rw [if_neg (by decide)]
      have hnew : ∀ j, some i = some j → j < s.cap ∧ (s.slots j).valid = true := by
        intro j hj
        cases hj
        exact ⟨hi, hv⟩
      cases o with
      | none => exact ih (some i) hnew hl' (.inl rfl)
      | some o =>
        simp only
        split
        · exact ih (some i) hnew hl' (.inl rfl)
        · exact ih (some o) ho hl' (.inl rfl)

theorem Inv.coldest_spec (h : s.Inv) (hfull : s.freeList = []) :
    ∃ i, s.coldest = some i ∧ i < s.cap ∧ (s.slots i).valid = true := by
  refine coldest_foldl s _ none nofun (fun i hi => mem_range.1 hi) (.inr ?_)
  refine ⟨0, mem_range.2 h.cap_pos, ?_⟩
  by_contra hv
  have hmem := (h.partition.free 0).2 ⟨h.cap_pos, by simpa using hv⟩
  rw [hfull] at hmem
  cases hmem

/-- The slot for a new session is no session any more, and nothing else has changed. -/
theorem Inv.claim_spec (h : s.Inv) (alloc : Bool) :
    ∃ i s', s.claim alloc = some (some (i, s')) ∧ i < s.cap ∧ s'.slots = s.slots ∧
      s'.cap = s.cap ∧ s'.reapCursor = s.reapCursor ∧ s'.index.Wf ∧
      (∀ k j, s'.index.Maps k j ↔ j ≠ i ∧ s.Session k j) ∧ s'.freeList.Nodup ∧
      (∀ j, j ∈ s'.freeList ↔ j ≠ i ∧ j ∈ s.freeList) := by
  unfold claim
  cases hfree : s.freeList with
  | cons i rest =>
    have hnodup := h.partition.nodup
    rw [hfree, nodup_cons] at hnodup
    obtain ⟨hi, hinvalid⟩ := (h.partition.free i).1 (by rw [hfree]; exact mem_cons_self)
    refine ⟨i, { s with freeList := rest }, rfl, hi, rfl, rfl, rfl, h.wf, fun k j => ?_, hnodup.2, fun j => ?_⟩
    · refine (h.exact k j).trans ⟨fun hj => ⟨?_, hj⟩, fun hj => hj.2⟩
      rintro rfl
      exact absurd (hinvalid.symm.trans hj.2.1) (by decide)
    · rw [mem_cons]
      refine ⟨fun hj => ⟨?_, .inr hj⟩, fun hj => hj.2.resolve_left hj.1⟩
      rintro rfl
      exact hnodup.1 hj
  | nil =>
    obtain ⟨i, hcold, hi, hvalid⟩ := h.coldest_spec hfree
    obtain ⟨index, hremove, hwf, hmaps⟩ := SockaddrIndex.remove_spec h.wf (s.slots i).addr alloc
    refine ⟨i, { s with index }, by simp only [hcold, hremove, hfree], hi, rfl, rfl, rfl, hwf, fun k j => ?_,
      ?_, fun j => ?_⟩
    · show index.Maps k j ↔ _
      rw [hmaps, h.exact]
      constructor
      · rintro ⟨hj, hne⟩
        refine ⟨?_, hj⟩
        rintro rfl
        exact hne hj.2.2.symm
      · rintro ⟨hne, hj⟩
        refine ⟨hj, ?_⟩
        rintro rfl
        exact hne (h.session_inj hj ⟨hi, hvalid, rfl⟩)
    · show s.freeList.Nodup
      rw [hfree]
      exact nodup_nil
    · show j ∈ s.freeList ↔ _
      rw [hfree]
      exact ⟨nofun, fun hj => absurd hj.2 not_mem_nil⟩

/-! ## Numbers handed out -/

/-- The numbers handed out to each client since its session was created. -/
abbrev Issued := SockaddrKey → Option Nat

/-- A session's counter is the number of sequence numbers handed out, and only clients with a session
    have been handed any. -/
structure Numbered (s : RtxStripe) (c : Issued) : Prop where
  session : ∀ k j, s.Session k j → ∃ n, c k = some n ∧ (s.slots j).seq = UInt16.ofNat n
  none : ∀ k, s.hasSession k = false → c k = none

/-- The insert of a new session into the index is not dropped: it finds room there, or the rebuild it
    needs can be allocated. -/
def Keeps (s : RtxStripe) (a : PeerAddr) (allocRemove allocInsert : Bool) : Prop :=
  s.index.find a = some none → ∀ i s', s.claim allocRemove = some (some (i, s')) →
    s'.index.drops allocInsert = false

theorem setSlot_self (s : RtxStripe) (i : Nat) (x : RtxSlot) : (s.setSlot i x).slots i = x := if_pos rfl

theorem setSlot_of_ne (s : RtxStripe) {j : Nat} (x : RtxSlot) (h : j ≠ i) :
    (s.setSlot i x).slots j = s.slots j := if_neg h

theorem Inv.setSlot (h : s.Inv) {x : RtxSlot} (hvalid : x.valid = (s.slots i).valid)
    (haddr : x.addr = (s.slots i).addr) : (s.setSlot i x).Inv := by
  have hsame : ∀ j, ((s.setSlot i x).slots j).valid = (s.slots j).valid ∧
      ((s.setSlot i x).slots j).addr = (s.slots j).addr := by
    intro j
    by_cases hj : j = i
    · rw [hj, setSlot_self]
      exact ⟨hvalid, haddr⟩
    · rw [setSlot_of_ne s x hj]
      exact ⟨rfl, rfl⟩
  refine ⟨⟨h.partition.nodup, fun j => ?_⟩, fun k j => ?_, h.wf, h.cap_pos, h.cursor_lt⟩
  · rw [(hsame j).1]
    exact h.partition.free j
  · unfold Session
    rw [(hsame j).1, (hsame j).2]
    exact h.exact k j

theorem Inv.createSession_spec {s s' : RtxStripe} (h : s.Inv) {i : Nat} {a : PeerAddr} {now : Int}
    {allocRemove allocInsert : Bool} (hclaim : s.claim allocRemove = some (some (i, s')))
    (hkeep : s'.index.drops allocInsert = false) (hnone : ∀ j, ¬ s.Session (canonKey a) j) :
    ∃ s'', s'.createSession i a now allocInsert = some s'' ∧ s''.Inv ∧ s''.cap = s.cap ∧
      s''.slots i = { valid := true, addr := storedAddr a, seq := 1, lastSeen := now } ∧
      i < s.cap ∧ ∀ j, j ≠ i → s''.slots j = s.slots j := by
  obtain ⟨i', s1, hclaim', hi, hslots, hcap, hcursor, hwf, hmaps, hnodup, hfree⟩ := h.claim_spec allocRemove
  obtain ⟨rfl, rfl⟩ : i' = i ∧ s1 = s' := by
    rw [hclaim] at hclaim'
    simpa using hclaim'.symm
  have habsent : ∀ j, ¬ s1.index.Maps (canonKey a) j := fun j hj => hnone j ((hmaps _ _).1 hj).2
  obtain ⟨index, hinsert, hwf', -, hadded⟩ := SockaddrIndex.insert_spec hwf a i' allocInsert habsent
  have hadded := hadded hkeep
  set x : RtxSlot := { valid := true, addr := storedAddr a, seq := 1, lastSeen := now } with hx
  refine ⟨{ s1.setSlot i' x with index }, by rw [createSession, hinsert], ⟨⟨hnodup, fun j => ?_⟩,
    fun k j => ?_, hwf', ?_, ?_⟩, hcap, setSlot_self s1 i' x, hi, fun j hj => ?_⟩
  · show j ∈ s1.freeList ↔ j < s1.cap ∧ ((s1.setSlot i' x).slots j).valid = false
    rw [hfree, h.partition.free, hcap]
    by_cases hj : j = i'
    · rw [hj, setSlot_self]
      simp [hx]
    · rw [setSlot_of_ne s1 x hj, hslots]
      simp [hj]
  · show index.Maps k j ↔ j < s1.cap ∧ ((s1.setSlot i' x).slots j).valid = true ∧
      canonKey ((s1.setSlot i' x).slots j).addr = k
    rw [hadded, hmaps, hcap]
    by_cases hj : j = i'
    · rw [hj, setSlot_self]
      simp only [hx, canonKey_storedAddr, and_true, ne_eq, not_true_eq_false, false_and, or_false, hi, true_and]
      exact eq_comm
    · rw [setSlot_of_ne s1 x hj, hslots]
      simp only [hj, and_false, false_or, ne_eq, not_false_eq_true, true_and]
      rfl
  · show 0 < s1.cap
    rw [hcap]
    exact h.cap_pos
  · show s1.reapCursor < s1.cap
    rw [hcap, hcursor]
    exact h.cursor_lt
  · show (s1.setSlot i' x).slots j = s.slots j
    rw [setSlot_of_ne s1 x hj, hslots]

/-- The numbers handed out after a call for the client `k` that has left the stripe `s'`: a client
    without a session there has been evicted. -/
def issuedCall (c : Issued) (k : SockaddrKey) (s' : RtxStripe) : Issued := fun k' =>
  if k' = k then some ((c k).getD 0 + 1) else if s'.hasSession k' then c k' else none

theorem Inv.find_spec (h : s.Inv) (a : PeerAddr) : (∃ j, s.index.find a = some (some j) ∧ s.Session (canonKey a) j) ∨
      (s.index.find a = some none ∧ ∀ j, ¬ s.Session (canonKey a) j) := by
  by_cases hex : ∃ j, s.Session (canonKey a) j
  · obtain ⟨j, hj⟩ := hex
    refine .inl ⟨j, (SockaddrIndex.find_eq h.wf a (some j)).2 fun j' => ?_, hj⟩
    rw [h.exact, Option.some.injEq]
    exact ⟨fun hjj => hjj ▸ hj, fun hj' => h.session_inj hj hj'⟩
  · refine .inr ⟨(SockaddrIndex.find_eq h.wf a none).2 fun j => ?_, fun j hj => hex ⟨j, hj⟩⟩
    rw [h.exact]
    exact ⟨nofun, fun hj => absurd ⟨j, hj⟩ hex⟩

variable {s' : RtxStripe} {c : Issued}

theorem Numbered.call (hc : s.Numbered c) (hi : s'.Session k i)
    (hseq : ∀ j, s'.Session k j → (s'.slots j).seq = UInt16.ofNat ((c k).getD 0 + 1))
    (hother : ∀ k', k' ≠ k → ∀ j, s'.Session k' j → s.Session k' j ∧ (s'.slots j).seq = (s.slots j).seq) :
    s'.Numbered (issuedCall c k s') := by
  refine ⟨fun k' j hj => ?_, fun k' hk' => ?_⟩
  · by_cases hk : k' = k
    · subst hk
      exact ⟨_, if_pos rfl, hseq j hj⟩
    · obtain ⟨hold, hsame⟩ := hother k' hk j hj
      obtain ⟨n, hn, hnum⟩ := hc.session k' j hold
      refine ⟨n, ?_, hsame.trans hnum⟩
      rw [issuedCall, if_neg hk, if_pos (hasSession_iff.2 ⟨j, hj⟩), hn]
  have hk : k' ≠ k := by
    rintro rfl
    rw [hasSession_iff.2 ⟨i, hi⟩] at hk'
    cases hk'
  rw [issuedCall, if_neg hk, hk']
  rfl

theorem nextSeq_spec (h : s.Inv) (hc : s.Numbered c) (a : PeerAddr)
    (now : Int) (allocRemove allocInsert : Bool) (hkeep : s.Keeps a allocRemove allocInsert) :
    ∃ seq s', s.nextSeq a now allocRemove allocInsert = some (seq, s') ∧ s'.Inv ∧
      seq = UInt16.ofNat ((c (canonKey a)).getD 0) ∧ s'.Numbered (issuedCall c (canonKey a) s') := by
  rcases h.find_spec a with ⟨j, hfind, hj⟩ | ⟨hfind, hno⟩
  · -- the session exists: its counter is handed out and advanced
    obtain ⟨n, hn, hseq⟩ := hc.session _ j hj
    set x : RtxSlot := { s.slots j with lastSeen := now, seq := (s.slots j).seq + 1 } with hx
    have hinv : (s.setSlot j x).Inv := h.setSlot rfl rfl
    have hself : (s.setSlot j x).Session (canonKey a) j := by
      refine ⟨hj.1, ?_, ?_⟩ <;> rw [setSlot_self]
      · exact hj.2.1
      · exact hj.2.2
    refine ⟨(s.slots j).seq, s.setSlot j x, by rw [nextSeq, hfind], hinv, by rw [hseq, hn]; rfl,
      hc.call hself (fun j' hj' => ?_) fun k' hk' j' hj' => ?_⟩
    · obtain rfl := hinv.session_inj hself hj'
      rw [setSlot_self, hn]
      show (s.slots j).seq + 1 = UInt16.ofNat (n + 1)
      rw [hseq, UInt16.ofNat_add]
      rfl
    have hne : j' ≠ j := by
      rintro rfl
      exact hk' (hj'.2.2.symm.trans hself.2.2)
    unfold Session at hj'
    rw [setSlot_of_ne s x hne] at hj' ⊢
    exact ⟨hj', rfl⟩
  · -- a new session, in a free slot or in that of the coldest one
    obtain ⟨i, s', hclaim, -⟩ := h.claim_spec allocRemove
    obtain ⟨s'', hcreate, hinv, hcap, hslot, hi, hother⟩ := @Inv.createSession_spec _ _ h i a now
      _ _ hclaim (hkeep hfind i s' hclaim) hno
    have hself : s''.Session (canonKey a) i := by
      refine ⟨hcap ▸ hi, ?_, ?_⟩ <;> rw [hslot]
      exact canonKey_storedAddr a
    have hnone : c (canonKey a) = none := by
      refine hc.none _ ?_
      rw [Bool.eq_false_iff]
      intro hsome
      obtain ⟨j, hj⟩ := hasSession_iff.1 hsome
      exact hno j hj
    refine ⟨0, s'', ?_, hinv, by rw [hnone]; rfl, hc.call hself (fun j' hj' => ?_)
      fun k' hk' j' hj' => ?_⟩
    · rw [nextSeq, hfind]
      simp only [hclaim, hcreate, Option.map_some]
    · obtain rfl := hinv.session_inj hself hj'
      rw [hslot, hnone]
      rfl
    · have hne : j' ≠ i := by
        rintro rfl
        exact hk' (hj'.2.2.symm.trans hself.2.2)
      unfold Session at hj' ⊢
      rw [hother j' hne, hcap] at hj'
      exact ⟨hj', by rw [hother j' hne]⟩

/-! ## Reaping -/

/-- Sessions have only gone, and those left are as they were. -/
def Fewer (s s' : RtxStripe) : Prop :=
  s'.cap = s.cap ∧ ∀ k j, s'.Session k j → s.Session k j ∧ (s'.slots j).seq = (s.slots j).seq

theorem Fewer.refl (s : RtxStripe) : s.Fewer s := ⟨rfl, fun _ _ h => ⟨h, rfl⟩⟩

theorem Fewer.trans {s'' : RtxStripe} (h : s.Fewer s') (h' : s'.Fewer s'') : s.Fewer s'' := by
  refine ⟨h'.1.trans h.1, fun k j hj => ?_⟩
  obtain ⟨hj', hseq'⟩ := h'.2 k j hj
  obtain ⟨hj, hseq⟩ := h.2 k j hj'
  exact ⟨hj, hseq'.trans hseq⟩

theorem reapOne_spec (h : s.Inv) (hi : i < s.cap) (now maxAge : Int)
    (alloc : Bool) : ∃ s', s.reapOne i now maxAge alloc = some s' ∧ s'.Inv ∧ s.Fewer s' := by
  unfold reapOne
  simp only
  split
  · exact ⟨s, rfl, h, Fewer.refl s⟩
  rename_i hvalid
  have hvalid : (s.slots i).valid = true := by simpa using hvalid
  split
  · exact ⟨s, rfl, h, Fewer.refl s⟩
  obtain ⟨index, hremove, hwf, hmaps⟩ := SockaddrIndex.remove_spec h.wf (s.slots i).addr alloc
  set x : RtxSlot := { s.slots i with valid := false } with hx
  have hsession : ∀ k j, (j < s.cap ∧ ((s.setSlot i x).slots j).valid = true ∧
      canonKey ((s.setSlot i x).slots j).addr = k) ↔ j ≠ i ∧ s.Session k j := by
    intro k j
    by_cases hj : j = i
    · rw [hj, setSlot_self]
      simp [hx]
    · rw [setSlot_of_ne s x hj]
      exact ⟨fun hs => ⟨hj, hs⟩, fun hs => hs.2⟩
  have hnotfree : i ∉ s.freeList := fun hmem => by
    have := ((h.partition.free i).1 hmem).2
    rw [hvalid] at this
    cases this
  rw [hremove]
  refine ⟨_, rfl, ⟨⟨nodup_cons.2 ⟨hnotfree, h.partition.nodup⟩, fun j => ?_⟩,
    fun k j => ?_, hwf, h.cap_pos, h.cursor_lt⟩, rfl, fun k j hj => ?_⟩
  · show j ∈ i :: s.freeList ↔ j < s.cap ∧ ((s.setSlot i x).slots j).valid = false
    rw [mem_cons, h.partition.free]
    by_cases hj : j = i
    · rw [hj, setSlot_self]
      simp [hx, hi]
    · rw [setSlot_of_ne s x hj]
      simp [hj]
  · refine Iff.trans ?_ (hsession k j).symm
    rw [hmaps, h.exact]
    constructor
    · rintro ⟨hj, hne⟩
      refine ⟨?_, hj⟩
      rintro rfl
      exact hne hj.2.2.symm
    · rintro ⟨hne, hj⟩
      refine ⟨hj, ?_⟩
      rintro rfl
      exact hne (h.session_inj hj ⟨hi, hvalid, rfl⟩)
  · obtain ⟨hne, hold⟩ := (hsession k j).1 hj
    refine ⟨hold, ?_⟩
    rw [setSlot_of_ne s x hne]

theorem reapStep_spec (h : s.Inv) (now maxAge : Int) (alloc : Nat → Bool) (n : Nat) :
    ∃ s', s.reapStep now maxAge alloc n = some s' ∧ s'.Inv ∧ s.Fewer s' := by
  induction n generalizing s with
  | zero => exact ⟨s, rfl, h, Fewer.refl s⟩
  | succ n ih =>
    obtain ⟨s1, h0, hinv, hfewer⟩ := reapOne_spec h h.cursor_lt now maxAge (alloc n)
    have hnext : Inv { s1 with reapCursor := (s1.reapCursor + 1) % s1.cap } :=
      ⟨⟨hinv.partition.nodup, hinv.partition.free⟩, hinv.exact, hinv.wf, hinv.cap_pos, Nat.mod_lt _ hinv.cap_pos⟩
    obtain ⟨s', h1, hinv', hfewer'⟩ := ih hnext
    refine ⟨s', by rw [reapStep, h0]; exact h1, hinv', hfewer.trans ⟨hfewer'.1, hfewer'.2⟩⟩

/-- The numbers handed out after sessions have been reaped. -/
def issuedReap (c : Issued) (s' : RtxStripe) : Issued := fun k => if s'.hasSession k then c k else none

theorem Numbered.reap (hc : s.Numbered c) (hf : s.Fewer s') : s'.Numbered (issuedReap c s') := by
  refine ⟨fun k j hj => ?_, fun k hk => ?_⟩
  · obtain ⟨hold, hsame⟩ := hf.2 k j hj
    obtain ⟨n, hn, hnum⟩ := hc.session k j hold
    refine ⟨n, ?_, hsame.trans hnum⟩
    rw [issuedReap, if_pos (hasSession_iff.2 ⟨j, hj⟩), hn]
  · rw [issuedReap, hk]
    rfl

end RtxStripe

/-! ## The table -/

namespace RtxSessionTable

open RtxStripe
open SockaddrIndex (client)

/-- `Keeps` for the stripe of the client. -/
def Keeps (t : RtxSessionTable) (a : PeerAddr) (allocRemove allocInsert : Bool) : Prop :=
  ∀ s, t.stripes[stripeOf a t.stripes.length]? = some s → s.Keeps a allocRemove allocInsert

/-- The numbers handed out, by stripe, after a call for `a` that has left the table `t'`. -/
def issuedCall (c : Nat → Issued) (t' : RtxSessionTable) (a : PeerAddr) : Nat → Issued := fun i =>
  match t'.stripes[i]? with
  | none => c i
  | some s =>
    if i = stripeOf a t'.stripes.length then RtxStripe.issuedCall (c i) (canonKey a) s else c i

/-- The numbers handed out after a reap that has left the table `t'`. -/
def issuedReap (c : Nat → Issued) (t' : RtxSessionTable) : Nat → Issued := fun i =>
  match t'.stripes[i]? with
  | none => c i
  | some s => RtxStripe.issuedReap (c i) s

/-- The tables that calls and reaps lead to, with the numbers handed out to each client since its
    session was created, where no insert into an index was dropped on the way. -/
inductive Reach (cap : Nat) : RtxSessionTable → (Nat → Issued) → Prop
  | new : Reach cap (new cap) fun _ _ => none
  | call {t t' : RtxSessionTable} {c : Nat → Issued} {a : PeerAddr} {now : Int}
      {allocRemove allocInsert : Bool} {seq : UInt16} (h : Reach cap t c)
      (hkeep : t.Keeps a allocRemove allocInsert)
      (hstep : t.nextSeq a now allocRemove allocInsert = some (seq, t')) :
      Reach cap t' (issuedCall c t' a)
  | reap {t t' : RtxSessionTable} {c : Nat → Issued} {now maxAge : Int} {maxScan : Nat}
      {alloc : Nat → Nat → Bool} (h : Reach cap t c)
      (hstep : t.reapStep now maxAge maxScan alloc = some t') : Reach cap t' (issuedReap c t')

structure Inv (t : RtxSessionTable) (c : Nat → Issued) : Prop where
  count_pos : 0 < t.stripes.length
  stripe : ∀ (i : Nat) (s : RtxStripe), t.stripes[i]? = some s → s.Inv ∧ s.Numbered (c i)

theorem stripeOf_lt (a : PeerAddr) {n : Nat} (hn : 0 < n) : stripeOf a n < n := by
  unfold stripeOf
  split
  · exact hn
  · exact Nat.mod_lt _ hn

variable {cap : Nat}

theorem inv_new (hcap : 0 < cap) : (new cap).Inv fun _ _ => none := by
  have hn : 0 < min cap stripeCountMax := by
    unfold stripeCountMax
    omega
  refine ⟨by simpa [new] using hn, fun i s hs => ?_⟩
  simp only [new, getElem?_map, Option.map_eq_some_iff] at hs
  obtain ⟨j, hj, rfl⟩ := hs
  refine ⟨inv_init ?_, fun k j h => Bool.noConfusion h.2.1, fun _ _ => rfl⟩
  have := (Nat.div_pos_iff.2 ⟨hn, Nat.min_le_left cap stripeCountMax⟩)
  omega

variable {t : RtxSessionTable} {c : Nat → Issued}

theorem Inv.nextSeq_spec (h : t.Inv c) (a : PeerAddr) (now : Int) (allocRemove allocInsert : Bool)
    (hkeep : t.Keeps a allocRemove allocInsert) : ∃ t', t.nextSeq a now allocRemove allocInsert = some
        (UInt16.ofNat ((c (stripeOf a t.stripes.length) (canonKey a)).getD 0), t') ∧ t'.Inv (issuedCall c t' a) := by
  have hlt := stripeOf_lt a h.count_pos
  have hget := getElem?_eq_getElem hlt
  obtain ⟨hinv, hnum⟩ := h.stripe _ _ hget
  obtain ⟨seq, s', h0, hinv', rfl, hnum'⟩ :=
    RtxStripe.nextSeq_spec hinv hnum a now allocRemove allocInsert (hkeep _ hget)
  refine ⟨{ stripes := t.stripes.set (stripeOf a t.stripes.length) s' }, ?_, ?_, fun i s hs => ?_⟩
  · rw [nextSeq]
    simp only [hget, h0, Option.map_some]
  · rw [length_set]
    exact h.count_pos
  · unfold issuedCall
    rw [hs]
    simp only [length_set]
    rw [getElem?_set] at hs
    split at hs
    · next heq =>
      cases hs
      rw [if_pos heq.symm, ← heq]
      exact ⟨hinv', hnum'⟩
    · next hne =>
      rw [if_neg (Ne.symm hne)]
      exact h.stripe i s hs

theorem reapStripes_spec {now maxAge : Int} {perStripe : Nat} {alloc : Nat → Nat → Bool} {ss : List RtxStripe}
    (h : ∀ s ∈ ss, s.Inv) : ∃ ss', reapStripes now maxAge perStripe alloc ss = some ss' ∧ ss'.length = ss.length ∧
      ∀ (i : Nat) (s' : RtxStripe), ss'[i]? = some s' → ∃ s : RtxStripe, ss[i]? = some s ∧ s'.Inv ∧ s.Fewer s' := by
  induction ss with
  | nil => exact ⟨[], rfl, rfl, fun i s' hs => by simp at hs⟩
  | cons s ss ih =>
    obtain ⟨s', h0, hinv, hfewer⟩ := RtxStripe.reapStep_spec (h s mem_cons_self) now maxAge
      (alloc ss.length) (min perStripe s.cap)
    obtain ⟨ss', h1, hlen, hall⟩ := ih fun x hx => h x (mem_cons_of_mem s hx)
    refine ⟨s' :: ss', by rw [reapStripes, h0, h1]; rfl, by simp [hlen], fun i x hx => ?_⟩
    cases i with
    | zero =>
      obtain rfl : s' = x := by simpa using hx
      exact ⟨s, rfl, hinv, hfewer⟩
    | succ i => exact hall i x (by simpa using hx)

theorem Inv.reapStep_spec (h : t.Inv c) (now maxAge : Int) (maxScan : Nat) (alloc : Nat → Nat → Bool) :
    ∃ t', t.reapStep now maxAge maxScan alloc = some t' ∧ t'.Inv (issuedReap c t') := by
  have hall : ∀ s ∈ t.stripes, s.Inv := by
    intro s hs
    obtain ⟨i, hi⟩ := mem_iff_getElem?.1 hs
    exact (h.stripe i s hi).1
  obtain ⟨ss', h0, hlen, hss⟩ := @reapStripes_spec now maxAge
    (max (maxScan / t.stripes.length) 1) alloc _ hall
  refine ⟨{ stripes := ss' }, by rw [reapStep, h0]; rfl, by rw [hlen]; exact h.count_pos, fun i s' hs' => ?_⟩
  obtain ⟨s, hs, hinv, hfewer⟩ := hss i s' hs'
  refine ⟨hinv, ?_⟩
  unfold issuedReap
  rw [hs']
  exact (h.stripe i s hs).2.reap hfewer

theorem Reach.inv (hcap : 0 < cap) (h : Reach cap t c) : t.Inv c := by
  induction h with
  | new => exact inv_new hcap
  | call _ hkeep hstep ih =>
    obtain ⟨t', h0, hinv⟩ := ih.nextSeq_spec _ _ _ _ hkeep
    rw [hstep] at h0
    cases h0
    exact hinv
  | reap _ hstep ih =>
    obtain ⟨t', h0, hinv⟩ := ih.reapStep_spec _ _ _ _
    rw [hstep] at h0
    cases h0
    exact hinv

/-- In every table that calls and reaps lead to without a dropped index entry: the free list and the
    valid slots of each stripe partition its slots, its index maps exactly the addresses of its
    sessions to their slots, and the next call of a client is answered with the number that follows
    those handed out to it since its session was created. -/
theorem sessions_numbered (hcap : 0 < cap) {t : RtxSessionTable} {c : Nat → Issued} (h : Reach cap t c) :
    (∀ s ∈ t.stripes, s.Partition ∧ s.IndexExact) ∧
      (∀ a now allocRemove allocInsert, t.Keeps a allocRemove allocInsert →
        ∃ t', t.nextSeq a now allocRemove allocInsert = some
          (UInt16.ofNat ((c (stripeOf a t.stripes.length) (canonKey a)).getD 0), t')) ∧
      ∀ now maxAge maxScan alloc, ∃ t', t.reapStep now maxAge maxScan alloc = some t' := by
  have hinv := h.inv hcap
  refine ⟨fun s hs => ?_, fun a now r i hkeep => ?_, fun now maxAge maxScan alloc => ?_⟩
  · obtain ⟨i, hi⟩ := mem_iff_getElem?.1 hs
    exact ⟨(hinv.stripe i s hi).1.partition, (hinv.stripe i s hi).1.exact⟩
  · obtain ⟨t', h0, -⟩ := hinv.nextSeq_spec a now r i hkeep
    exact ⟨t', h0⟩
  · obtain ⟨t', h0, -⟩ := hinv.reapStep_spec now maxAge maxScan alloc
    exact ⟨t', h0⟩

/-- `Keeps` as a check. -/
def keeps (t : RtxSessionTable) (a : PeerAddr) (allocRemove allocInsert : Bool) : Bool :=
  t.stripes[stripeOf a t.stripes.length]?.all fun s => s.index.find a != some none ||
    (s.claim allocRemove).all fun x => x.all fun p => !p.2.index.drops allocInsert

theorem keeps_spec {a : PeerAddr} {allocRemove allocInsert : Bool} (h : t.keeps a allocRemove allocInsert = true) :
    t.Keeps a allocRemove allocInsert := by
  intro s hs hfind i s' hclaim
  simpa [keeps, hs, hfind, hclaim] using h

inductive Op
  | call (a : PeerAddr) (now : Int) (alloc : Bool)
  | reap (now maxAge : Int)

/-- A run in which no insert is dropped, with the numbers handed out. -/
def run : List Op → RtxSessionTable → (Nat → Issued) → Option (RtxSessionTable × (Nat → Issued))
  | [], t, c => some (t, c)
  | .call a now alloc :: ops, t, c =>
    if t.keeps a alloc alloc then
      (t.nextSeq a now alloc alloc).bind fun p => run ops p.2 (issuedCall c p.2 a)
    else none
  | .reap now maxAge :: ops, t, c =>
    (t.reapStep now maxAge 100 fun _ _ => true).bind fun t' => run ops t' (issuedReap c t')

theorem Reach.run {ops : List Op} {p : RtxSessionTable × (Nat → Issued)} (h : Reach cap t c)
    (hrun : run ops t c = some p) : Reach cap p.1 p.2 := by
  induction ops generalizing t c with
  | nil =>
    cases hrun
    exact h
  | cons op ops ih =>
    cases op with
    | call a now alloc =>
      rw [RtxSessionTable.run] at hrun
      split at hrun
      · next hkeep =>
        obtain ⟨q, hq, hrest⟩ := Option.bind_eq_some_iff.1 hrun
        exact ih (h.call (keeps_spec hkeep) hq) hrest
      · cases hrun
    | reap now maxAge =>
      obtain ⟨t', ht', hrest⟩ := Option.bind_eq_some_iff.1 hrun
      exact ih (h.reap ht') hrest

/-- Four clients of one stripe with two slots: the third takes the place of the second, which was seen before the
    first; the first is reaped, and for the fourth the index has to be built again. -/
def fourClients : List Op :=
  [.call (client 8) 0 false, .call (client 16) 1 false, .call (client 8) 2 false, .call (client 24) 3 false,
    .call (client 24) 4 false, .reap 10 7, .call (client 32) 11 true]

theorem sessions_numbered_fourClients : ∃ t c, run fourClients (new 9) (fun _ _ => none) = some (t, c) ∧
    ([8, 16, 24, 32].map fun n => c 0 (canonKey (client n))) = [none, none, some 2, some 1] ∧
      (∀ s ∈ t.stripes, s.Partition ∧ s.IndexExact) ∧
      ∃ t', t.nextSeq (client 24) 12 false false = some (2, t') := by
  have hmap : (run fourClients (new 9) fun _ _ => none).map (fun p => (p.1.keeps (client 24) false false,
      stripeOf (client 24) p.1.stripes.length, [8, 16, 24, 32].map fun n => p.2 0 (canonKey (client n)))) =
      some (true, 0, [none, none, some 2, some 1]) := by
    decide +kernel
  obtain ⟨⟨t, c⟩, hrun, hfacts⟩ := Option.map_eq_some_iff.1 hmap
  obtain ⟨hkeep, hstripe, hc⟩ : _ ∧ _ ∧ _ := by simpa only [Prod.mk.injEq] using hfacts
  obtain ⟨hparts, hnext, -⟩ := sessions_numbered (by decide) (Reach.new.run hrun)
  obtain ⟨t', ht'⟩ := hnext (client 24) 12 false false (keeps_spec hkeep)
  have h24 : c 0 (canonKey (client 24)) = some 2 := congrArg (·.getD 2 none) hc
  simp only [hstripe, h24] at ht'
  exact ⟨t, c, hrun, hc, hparts, t', ht'⟩

/-- Calls for a list of clients while no allocation succeeds: the numbers and the table. -/
def callAll (t : RtxSessionTable) : List PeerAddr → Option (List UInt16 × RtxSessionTable)
  | [] => some ([], t)
  | a :: as => do
    let (seq, t') ← t.nextSeq a 0 false false
    let (seqs, t'') ← callAll t' as
    return (seq :: seqs, t'')

/-- Four clients of a one slot table without memory: the entry of the fourth is dropped from the
    index, its valid session is not found again and its next number is 0 once more. -/
theorem dropped_session_restarts :
    (callAll (new 1) [client 1, client 2, client 3,
        client 4]).map (fun p => (p.1, p.2.stripes.map fun s =>
          (s.hasSession (canonKey (client 4)), s.index.find (client 4))))
        = some ([0, 0, 0, 0], [(true, some none)]) ∧ (callAll (new 1) [client 1, client 2, client 3,
        client 4, client 4]).map Prod.fst = some [0, 0, 0, 0, 0] := by
  decide +kernel

end RtxSessionTable

end DvbIpiTools.Fccret
