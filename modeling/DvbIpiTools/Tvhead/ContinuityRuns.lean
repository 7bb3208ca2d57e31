import DvbIpiTools.Tvhead.PidMapRuns

set_option autoImplicit false

/-! # Continuity counters over whole runs

A counter goes out as the source has it plus an offset for its PID. The offset is chosen anew with the
first packet after a reconnect, so that the counter goes on from the last one sent. Within a connection
it is not: when a change of the source's PMT hands a PID on which packets went out to another stream, or
back to one that was not carried for a while, the counter jumps. -/

namespace DvbIpiTools.Tvhead

open BeUtil Demux Remux List Option

/-! ## Counters -/

def hasPayload (pkt : List UInt8) : Bool := byteAt pkt 3 &&& 0x10 ≠ 0

/-- The counter of `b` is the right one after `a`. -/
def FollowsCc (a b : List UInt8) : Prop := pktCc b = if hasPayload b then (pktCc a + 1) % 16 else pktCc a

instance : DecidableRel FollowsCc := fun a b =>
  inferInstanceAs (Decidable (pktCc b = if hasPayload b then (pktCc a + 1) % 16 else pktCc a))

/-- The packets of a list that went out on a PID. -/
def onPid (sent : List (Nat × List UInt8)) (o : Nat) : List (List UInt8) :=
  (sent.filter fun x => x.1 = o).map Prod.snd

/-- Where the packets of a source PID go. -/
def lookup (es : List OutEs) (inPid : Nat) : Option Nat := (es.find? fun e => e.inPid = inPid).map OutEs.outPid

/-! ## Runs -/

/-- Who sent on an output PID in this connection: nobody, a source PID that has it still, or one that does
    not have it any more. -/
inductive Owner
  | idle
  | held (inPid : Nat)
  | lost

/-- A program, the last packet of each source PID since it is carried, the owners of the output PIDs, and
    all that `forward_packet` sent. -/
structure CcRun where
  r : Remux
  src : Nat → Option (List UInt8)
  owner : Nat → Owner
  sent : List (Nat × List UInt8)

namespace CcRun

/-- The program has a new map. -/
def newMap (R : CcRun) (r : Remux) : CcRun where
  r := r
  src := fun p => if lookup R.r.es p ≠ none ∧ lookup r.es p ≠ none then R.src p else none
  owner := fun o =>
    match R.owner o with
    | .idle => .idle
    | .held p => if lookup r.es p = some o then .held p else .lost
    | .lost => .lost
  sent := R.sent

/-- Where a packet goes; the source's EIT is not forwarded. -/
def target (R : CcRun) (inPid : Nat) : Option Nat := if inPid = 0x12 then none else lookup R.r.es inPid

/-- A packet is forwarded, if its PID is mapped. -/
def forward (R : CcRun) (m : Moment) (p : Pkt) : CcRun :=
  match R.target p.src with
  | none => { R with r := (R.r.forward m p).2 }
  | some o =>
    { r := (R.r.forward m p).2
      src := fun q => if q = p.src then some p.bytes else R.src q
      owner := fun x => if x = o then .held p.src else R.owner x
      sent := R.sent ++ [(o, (rewritePacket m R.r o p.bytes).1)] }

/-- The PMT of the source that a packet completes, if any. -/
def watch (oom : Oom) (R : CcRun) (m : Moment) (pmt : Option Psi) : CcRun :=
  R.newMap (R.r.watchSourcePmt oom m pmt).2

def step (oom : Oom) (R : CcRun) : RemuxEvent → CcRun
  | .feed m pmt seq pkt =>
    if byteAt pkt 0 ≠ 0x47 then R else (R.watch oom m pmt).forward m ⟨pkt, tspackPid pkt, seq⟩
  | e => { R with r := (R.r.step oom e).2 }

/-- A packet with the right counter on a PID of the block that nobody else has sent on in this
    connection. -/
structure Sendable (R : CcRun) (inPid : Nat) (pkt : List UInt8) (o : Nat) : Prop where
  /-- the counter of the source is correct while it is carried -/
  source : ∀ a, R.src inPid = some a → FollowsCc a pkt
  own : R.owner o = .idle ∨ R.owner o = .held inPid
  block : ∃ i, blockOff R.r.pids.videoPid o = some i

/-- The condition on a call. -/
def Allowed (oom : Oom) (R : CcRun) : RemuxEvent → Prop
  | .feed m pmt _ pkt => pkt.length = 188 ∧ ∀ o, (R.watch oom m pmt).target (tspackPid pkt) = some o →
        (R.watch oom m pmt).Sendable (tspackPid pkt) pkt o
  | _ => True

end CcRun

/-- The states of runs with any number of reconnects, in which all that is sent is allowed. -/
inductive CcReach (oom : Oom) (cfg : TvConfig) (pids : OutProgramPids) : CcRun → Prop
  | start {psi : Psi} {r : Remux} (hnew : Remux.new oom cfg pids psi = some r) :
      CcReach oom cfg pids ⟨r.setCcOffsets ⟨fun _ => 0, fun _ => 0⟩, fun _ => none, fun _ => .idle, []⟩
  | reconnect {R : CcRun} (h : CcReach oom cfg pids R) {m : CcOffsets} (hm : R.r.ccm = some m) {psi : Psi}
      {r : Remux} (hnew : Remux.new oom cfg pids psi = some r) :
      CcReach oom cfg pids ⟨r.setCcOffsets m, fun _ => none, fun _ => .idle, R.sent⟩
  | step {R : CcRun} (h : CcReach oom cfg pids R) (e : RemuxEvent) (he : R.Allowed oom e) :
      CcReach oom cfg pids (R.step oom e)

/-! ## One packet -/

theorem counter_byte : ∀ b < 256, ∀ cc < 16, (b &&& 0xF0 ||| cc) < 256 ∧
    (b &&& 0xF0 ||| cc) &&& 0x0F = cc ∧ (b &&& 0xF0 ||| cc) &&& 0x10 = b &&& 0x10 := by
  decide +kernel

theorem last_byte : ∀ c < 16, (0x10 ||| c) &&& 0x30 ≠ 0x30 ∧ (0x30 ||| c) &&& 0x30 = 0x30 ∧
    (0x10 ||| c) &&& 0x10 ≠ 0 ∧ (0x30 ||| c) &&& 0x10 ≠ 0 ∧ (0x10 ||| c) ||| 0x20 = 0x30 ||| c ∧
    (0x30 ||| c) ||| 0x20 = 0x30 ||| c ∧ 0x30 ||| c = 48 + c := by
  decide +kernel

variable {o i videoPid : Nat}

theorem remapCc_eq (hi : blockOff videoPid o = some i) (c : CcOffsets) (pkt : List UInt8) :
    remapCc videoPid o (some c) pkt = (pkt.set 3 (.ofNat (remapCcAt i (byteAt pkt 3) c).1),
      some (remapCcAt i (byteAt pkt 3) c).2) := by
  unfold remapCc
  rw [hi]

/-- What `remap_cc` makes of a packet `pkt` and the offsets `c`. -/
structure CcCounted (c : CcOffsets) (i : Nat) (pkt out : List UInt8) (c' : CcOffsets) : Prop where
  payload : hasPayload out = hasPayload pkt
  cc : pktCc out = (pktCc pkt + c'.off i) % 16
  last : c'.last i = 0x10 ||| pktCc out
  again : c.last i &&& 0x30 = 0x30 →
    c'.off i = (c.last i + (if hasPayload pkt then 1 else 0) + 16 - pktCc pkt) % 16
  same : c.last i &&& 0x30 ≠ 0x30 → c'.off i = c.off i
  others : ∀ k, k ≠ i → c'.off k = c.off k ∧ c'.last k = c.last k

variable {pkt : List UInt8}

theorem remapCcAt_spec (c : CcOffsets) (i : Nat) {q : List UInt8} (hlen : 3 < q.length)
    (hq : byteAt q 3 = byteAt pkt 3) :
    CcCounted c i pkt (q.set 3 (.ofNat (remapCcAt i (byteAt q 3) c).1)) (remapCcAt i (byteAt q 3) c).2 := by
  have h4 : ∀ n, n &&& 0x0F = n % 16 := fun n => Nat.and_two_pow_sub_one_eq_mod n 4
  rw [hq]
  have hcc : ∃ cc < 16, (remapCcAt i (byteAt pkt 3) c).1 = byteAt pkt 3 &&& 0xF0 ||| cc ∧
      cc = (pktCc pkt + (remapCcAt i (byteAt pkt 3) c).2.off i) % 16 ∧
      (remapCcAt i (byteAt pkt 3) c).2.last i = 0x10 ||| cc := by
    refine ⟨_, Nat.mod_lt _ (by omega), ?_, rfl, ?_⟩
    · simp [remapCcAt, h4, pktCc]
    · simp [remapCcAt, h4, pktCc]
  obtain ⟨cc, hlt, hbyte, hcc, hlast⟩ := hcc
  obtain ⟨h256, hlow, hpay⟩ := counter_byte (byteAt pkt 3) (byteAt_lt pkt 3) cc hlt
  have hset : byteAt (q.set 3 (.ofNat (remapCcAt i (byteAt pkt 3) c).1)) 3 = byteAt pkt 3 &&& 0xF0 ||| cc := by
    rw [byteAt_set hlen, hbyte, Nat.mod_eq_of_lt h256]
  have hout : pktCc (q.set 3 (.ofNat (remapCcAt i (byteAt pkt 3) c).1)) = cc := by rw [pktCc, hset, hlow]
  refine ⟨?_, hout.trans hcc, ?_, ?_, ?_, ?_⟩
  · rw [hasPayload, hasPayload, hset, hpay]
  · rw [hlast, hout]
  · intro h
    simp [remapCcAt, h, hasPayload, pktCc, h4]
  · intro h
    simp [remapCcAt, h]
  · intro k hk
    simp [remapCcAt, hk]

variable {r : Remux} {c : CcOffsets} (m : Moment)

/-- What `forward_packet` makes of a packet that goes out on a PID of the block. -/
theorem rewritePacket_spec (hc : r.ccm = some c) (hi : blockOff r.pids.videoPid o = some i) (hlen : pkt.length = 188) :
    ∃ c', (rewritePacket m r o pkt).2 = some c' ∧ CcCounted c i pkt (rewritePacket m r o pkt).1 c' := by
  rw [rewritePacket, hc, remapCc_eq hi]
  generalize hp : (pkt.set 1 (.ofNat (byteAt pkt 1 &&& 0xE0 ||| (o >>> 8 &&& 0x1F)))).set 2 (.ofNat o) = q
  have hqlen : (q.take 4).length = 4 := by
    rw [← hp, length_take, length_set, length_set, hlen]
    rfl
  have hq : byteAt (q.take 4 ++ m.restamp q) 3 = byteAt pkt 3 := by
    rw [byteAt_append_left (by omega), byteAt, getD_eq_getElem?_getD,
      getElem?_take_of_lt (by omega), ← getD_eq_getElem?_getD, ← byteAt, ← hp,
      byteAt_set_ne (by omega), byteAt_set_ne (by omega)]
  have hlt : 3 < (q.take 4 ++ m.restamp q).length := by
    rw [length_append]
    omega
  exact ⟨_, rfl, remapCcAt_spec c i hlt hq⟩

theorem pktCc_lt (pkt : List UInt8) : pktCc pkt < 16 := by
  rw [pktCc, show (0x0F : Nat) = 2 ^ 4 - 1 from rfl, Nat.and_two_pow_sub_one_eq_mod]
  exact Nat.mod_lt _ (by decide)

variable {c' : CcOffsets} {out b : List UInt8}

theorem CcCounted.follows_again
    (h : CcCounted c i pkt out c') (hlast : c.last i = 0x30 ||| pktCc b) : FollowsCc b out := by
  obtain ⟨-, hflag, -, -, -, -, hsum⟩ := last_byte (pktCc b) (pktCc_lt b)
  rw [← hlast] at hflag hsum
  have hb := pktCc_lt b
  have hpkt := pktCc_lt pkt
  have hcc := h.cc
  rw [h.again hflag, hsum] at hcc
  rw [FollowsCc, hcc, h.payload]
  split at hcc <;> split <;> omega

/-- With the offset kept the counter goes on as the one of the source does. -/
theorem CcCounted.follows_same {a : List UInt8}
    (h : CcCounted c i pkt out c') (hlast : c.last i = 0x10 ||| pktCc b) (hsrc : FollowsCc a pkt)
    (hoff : (pktCc a + c.off i) % 16 = pktCc b) : FollowsCc b out := by
  obtain ⟨hflag, -⟩ := last_byte (pktCc b) (pktCc_lt b)
  rw [← hlast] at hflag
  rw [FollowsCc] at hsrc ⊢
  rw [h.cc, h.same hflag, h.payload, hsrc, ← hoff]
  split <;> omega

/-! ## What a run keeps -/

/-- The offset of an output PID: nothing was sent on it, or only before the reconnect, or its owner's
    counters and the ones sent differ by the offset. -/
inductive OffsetOk (R : CcRun) (c : CcOffsets) (o i : Nat) : Prop
  | unused (howner : R.owner o = .idle) (hsent : onPid R.sent o = []) (hlast : c.last i = 0)
  | before {b : List UInt8} (howner : R.owner o = .idle) (hsent : (onPid R.sent o).getLast? = some b)
      (hlast : c.last i = 0x30 ||| pktCc b)
  | held {p : Nat} {a b : List UInt8} (howner : R.owner o = .held p)
      (hsent : (onPid R.sent o).getLast? = some b) (hlast : c.last i = 0x10 ||| pktCc b)
      (hmap : lookup R.r.es p = some o) (hsrc : R.src p = some a)
      (hoff : (pktCc a + c.off i) % 16 = pktCc b)
  | lost {b : List UInt8} (howner : R.owner o = .lost) (hsent : (onPid R.sent o).getLast? = some b)
      (hlast : c.last i = 0x10 ||| pktCc b)

structure CcInv (pids : OutProgramPids) (R : CcRun) : Prop where
  pids_eq : R.r.pids = pids
  offsets : ∃ c, R.r.ccm = some c ∧ ∀ o i, blockOff pids.videoPid o = some i → OffsetOk R c o i
  chain : ∀ o, (onPid R.sent o).IsChain FollowsCc

theorem CcInv.congr {pids : OutProgramPids} {R : CcRun} (hR : CcInv pids R) {r : Remux} (hpids : r.pids = R.r.pids)
    (hes : r.es = R.r.es) (hccm : r.ccm = R.r.ccm) : CcInv pids { R with r := r } := by
  obtain ⟨c, hc, hoffsets⟩ := hR.offsets
  refine ⟨hpids.trans hR.pids_eq, ⟨c, hccm.trans hc, fun o i hi => ?_⟩, hR.chain⟩
  cases hoffsets o i hi with
  | unused howner hsent hlast => exact .unused howner hsent hlast
  | before howner hsent hlast => exact .before howner hsent hlast
  | held howner hsent hlast hmap hsrc hoff => exact .held howner hsent hlast (hes ▸ hmap) hsrc hoff
  | lost howner hsent hlast => exact .lost howner hsent hlast

variable {R : CcRun}

theorem OffsetOk.marked (h : OffsetOk R c o i) (r : Remux) : OffsetOk ⟨r, fun _ => none, fun _ => .idle, R.sent⟩
      { c with last := fun i => if c.last i &&& 0x10 ≠ 0 then c.last i ||| 0x20 else c.last i } o i := by
  have hmark : ∀ b, (onPid R.sent o).getLast? = some b → c.last i = 0x30 ||| pktCc b ∨ c.last i = 0x10 ||| pktCc b →
      OffsetOk ⟨r, fun _ => none, fun _ => .idle, R.sent⟩
        { c with last := fun i => if c.last i &&& 0x10 ≠ 0 then c.last i ||| 0x20 else c.last i } o i := by
    intro b hsent hlast
    obtain ⟨-, -, h1, h3, hone, hthree, -⟩ := last_byte (pktCc b) (pktCc_lt b)
    refine .before rfl hsent ?_
    rcases hlast with hlast | hlast
    · simp only [hlast]
      rw [if_pos h3, hthree]
    · simp only [hlast]
      rw [if_pos h1, hone]
  cases h with
  | unused howner hsent hlast =>
    refine .unused rfl hsent ?_
    simp only [hlast]
    rfl
  | before howner hsent hlast => exact hmark _ hsent (.inl hlast)
  | held howner hsent hlast | lost howner hsent hlast => exact hmark _ hsent (.inr hlast)

theorem OffsetOk.newMap (h : OffsetOk R c o i) (r : Remux) : OffsetOk (R.newMap r) c o i := by
  cases h with
  | unused howner hsent hlast => exact .unused (by simp [CcRun.newMap, howner]) hsent hlast
  | before howner hsent hlast => exact .before (by simp [CcRun.newMap, howner]) hsent hlast
  | @held p a b howner hsent hlast hmap hsrc hoff =>
    by_cases hstill : lookup r.es p = some o
    · refine .held (p := p) (a := a) ?_ hsent hlast hstill ?_ hoff
      · simp [CcRun.newMap, howner, hstill]
      · simp [CcRun.newMap, hmap, hstill, hsrc]
    · exact .lost (by simp [CcRun.newMap, howner, hstill]) hsent hlast
  | lost howner hsent hlast => exact .lost (by simp [CcRun.newMap, howner]) hsent hlast

theorem onPid_append (sent : List (Nat × List UInt8)) (o : Nat) (out : List UInt8) (o' : Nat) :
    onPid (sent ++ [(o, out)]) o' = if o' = o then onPid sent o' ++ [out] else onPid sent o' := by
  unfold onPid
  split
  · next h => simp [h]
  · next h => simp [Ne.symm h]

theorem blockOff_inj {o' : Nat} (h : blockOff videoPid o = some i) (h' : blockOff videoPid o' = some i) : o = o' := by
  unfold blockOff at h h'
  split at h
  · cases h
  · split at h'
    · cases h'
    · have := some.inj h
      have := some.inj h'
      omega

variable {pids : OutProgramPids} {p : Pkt}

theorem CcInv.send (hR : CcInv pids R) (m : Moment) (hlen : p.bytes.length = 188) (hmap : lookup R.r.es p.src = some o)
    (hs : R.Sendable p.src p.bytes o) (hpids : r.pids = R.r.pids) (hes : r.es = R.r.es)
    (hccm : r.ccm = (rewritePacket m R.r o p.bytes).2) :
    CcInv pids ⟨r, fun q => if q = p.src then some p.bytes else R.src q,
      fun x => if x = o then .held p.src else R.owner x, R.sent ++ [(o, (rewritePacket m R.r o p.bytes).1)]⟩ := by
  obtain ⟨c, hc, hoffsets⟩ := hR.offsets
  obtain ⟨i, hi⟩ := hs.block
  obtain ⟨c', hc', hcounted⟩ := rewritePacket_spec m hc hi hlen
  rw [hR.pids_eq] at hi
  generalize (rewritePacket m R.r o p.bytes).1 = out at hcounted
  have hfollows : ∀ b, (onPid R.sent o).getLast? = some b → FollowsCc b out := by
    intro b hb
    cases hoffsets o i hi with
    | unused howner hsent hlast =>
      rw [hsent] at hb
      cases hb
    | before howner hsent hlast =>
      obtain rfl := some.inj (hb.symm.trans hsent)
      exact hcounted.follows_again hlast
    | held howner hsent hlast hmap' hsrc hoff =>
      obtain rfl := some.inj (hb.symm.trans hsent)
      rcases hs.own with hidle | hheld
      · exact nomatch hidle.symm.trans howner
      · obtain rfl := Owner.held.inj (hheld.symm.trans howner)
        exact hcounted.follows_same hlast (hs.source _ hsrc) hoff
    | lost howner hsent hlast =>
      rcases hs.own with hidle | hheld
      · exact nomatch hidle.symm.trans howner
      · exact nomatch hheld.symm.trans howner
  refine ⟨hpids.trans hR.pids_eq, ⟨c', hccm.trans hc', ?_⟩, ?_⟩
  · intro o' i' hi'
    by_cases ho : o' = o
    · subst ho
      obtain rfl := some.inj (hi.symm.trans hi')
      refine .held (p := p.src) (a := p.bytes) (b := out) (if_pos rfl) ?_ hcounted.last ?_ (if_pos rfl)
        hcounted.cc.symm
      · rw [onPid_append, if_pos rfl, getLast?_concat]
      · rw [hes]
        exact hmap
    have hne : i' ≠ i := fun h => ho (blockOff_inj (h ▸ hi') hi)
    obtain ⟨hoff', hlast'⟩ := hcounted.others i' hne
    have hsent' : onPid (R.sent ++ [(o, out)]) o' = onPid R.sent o' := by rw [onPid_append, if_neg ho]
    cases hoffsets o' i' hi' with
    | unused howner hsent hlast =>
      exact .unused ((if_neg ho).trans howner) (hsent'.trans hsent) (hlast'.trans hlast)
    | before howner hsent hlast =>
      exact .before ((if_neg ho).trans howner) (hsent' ▸ hsent) (hlast'.trans hlast)
    | @held q a b howner hsent hlast hmap' hsrc hoff =>
      have hq : q ≠ p.src := fun h => ho (some.inj ((h ▸ hmap').symm.trans hmap))
      refine .held ((if_neg ho).trans howner) (hsent' ▸ hsent) (hlast'.trans hlast) (hes ▸ hmap')
        ((if_neg hq).trans hsrc) ?_
      rw [hoff']
      exact hoff
    | lost howner hsent hlast => exact .lost ((if_neg ho).trans howner) (hsent' ▸ hsent) (hlast'.trans hlast)
  · intro o'
    rw [onPid_append]
    split
    · next ho =>
      subst ho
      refine isChain_append.2 ⟨hR.chain o', isChain_singleton out, ?_⟩
      intro b hb x hx
      cases hx
      exact hfollows b hb
    · exact hR.chain o'

/-! ## The steps -/

theorem lookup_es (r : Remux) (inPid : Nat) :
    lookup r.es inPid = ((r.findEs inPid).bind fun idx => r.slots[idx]?).map fun s => s.es.outPid := by
  rw [lookup, Remux.es, find?_map, find?_eq_bind_findIdx?_getElem?, findEs, Option.map_map]
  rfl

theorem dispatch_ccm (r : Remux) (idx : Nat) (s : Slot) (p : Pkt) : (r.dispatch m idx s p).2.ccm = r.ccm := by
  unfold dispatch
  split
  · split <;> rfl
  split
  · split
    · simp only []
      split <;> rfl
    · rfl
  · rfl

theorem forward_ccm (R : CcRun) (p : Pkt) : (R.r.forward m p).2.ccm = match R.target p.src with
      | none => R.r.ccm
      | some o => (rewritePacket m R.r o p.bytes).2 := by
  unfold Remux.forward CcRun.target
  split
  · rfl
  rw [lookup_es]
  cases R.r.findEs p.src with
  | none => rfl
  | some idx =>
    simp only [bind_some]
    cases R.r.slots[idx]? with
    | none => rfl
    | some s => exact dispatch_ccm m _ idx s _

theorem remapEs_ccm (oom : Oom) (m : Moment) (r : Remux) (psi : Psi) :
    (r.remapEs oom m psi).2.ccm = r.ccm ∧ (r.remapEs oom m psi).2.pids = r.pids := by
  unfold remapEs
  split
  · exact ⟨rfl, rfl⟩
  · exact ⟨rfl, rfl⟩

theorem CcInv.watch (hR : CcInv pids R) (oom : Oom) (m : Moment)
    (pmt : Option Psi) : CcInv pids (R.watch oom m pmt) := by
  obtain ⟨c, hc, hoffsets⟩ := hR.offsets
  have hsame : (R.r.watchSourcePmt oom m pmt).2.ccm = R.r.ccm ∧ (R.r.watchSourcePmt oom m pmt).2.pids = R.r.pids := by
    cases pmt with
    | none => exact ⟨rfl, rfl⟩
    | some psi => exact remapEs_ccm oom m R.r psi
  exact ⟨hsame.2.trans hR.pids_eq, ⟨c, hsame.1.trans hc, fun o i hi => (hoffsets o i hi).newMap _⟩, hR.chain⟩

theorem CcInv.forward (hR : CcInv pids R) (m : Moment) (hlen : p.bytes.length = 188)
    (hs : ∀ o, R.target p.src = some o → R.Sendable p.src p.bytes o) : CcInv pids (R.forward m p) := by
  have hframe := forward_frame m R.r p
  have hccm := forward_ccm m R p
  unfold CcRun.forward
  cases htarget : R.target p.src with
  | none =>
    rw [htarget] at hccm
    exact hR.congr hframe.pids hframe.es hccm
  | some o =>
    rw [htarget] at hccm
    refine hR.send m hlen ?_ (hs o htarget) hframe.pids hframe.es hccm
    rw [CcRun.target] at htarget
    split at htarget
    · cases htarget
    · exact htarget

theorem CcInv.step {oom : Oom} {pids : OutProgramPids} {R : CcRun} (hR : CcInv pids R) {e : RemuxEvent}
    (he : R.Allowed oom e) : CcInv pids (R.step oom e) := by
  cases e with
  | feed m pmt seq pkt =>
    rw [CcRun.step]
    split
    · exact hR
    · exact (hR.watch oom m pmt).forward m he.1 he.2
  | release m all =>
    have hframe := release_frame m all R.r
    exact hR.congr hframe.pids hframe.es rfl
  | setHold =>
    have hframe := setHold_frame oom R.r
    exact hR.congr hframe.pids hframe.es rfl
  | setTimemap => exact hR.congr rfl rfl rfl

variable {oom : Oom} {cfg : TvConfig}

theorem new_pids {psi : Psi} (hnew : Remux.new oom cfg pids psi = some r) : r.pids = pids := by
  rw [Remux.new] at hnew
  split at hnew
  · cases hnew
  · simp only [some.injEq] at hnew
    rw [← hnew]

theorem CcReach.inv (h : CcReach oom cfg pids R) : CcInv pids R := by
  induction h with
  | start hnew =>
    have hpids := new_pids hnew
    exact ⟨hpids, ⟨_, rfl, fun o i _ => .unused rfl rfl (if_neg fun h => h (Nat.zero_and _))⟩, fun o => isChain_nil⟩
  | reconnect _ hm hnew ih =>
    obtain ⟨c, hc, hoffsets⟩ := ih.offsets
    obtain rfl := some.inj (hm.symm.trans hc)
    have hpids := new_pids hnew
    exact ⟨hpids, ⟨_, rfl, fun o i hi => (hoffsets o i hi).marked _⟩, ih.chain⟩
  | step _ e he ih => exact ih.step he

/-- A connection: the offsets go to a program made of the source's PMT. -/
def connect (es : List PsiEs) (c : CcOffsets) (sent : List (Nat × List UInt8)) : Option CcRun :=
  (Remux.new noOom regenerating (outProgramPids 0) (pmtOf es)).map fun r =>
    ⟨r.setCcOffsets c, fun _ => none, fun _ => .idle, sent⟩

/-- The counters that go out on a PID. -/
def counters (R : CcRun) (o : Nat) : List Nat := (onPid R.sent o).map pktCc

end DvbIpiTools.Tvhead
