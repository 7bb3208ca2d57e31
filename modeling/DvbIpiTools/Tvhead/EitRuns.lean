import DvbIpiTools.Tvhead.EitQueue

set_option autoImplicit false

/-! # Sending a queued section

The packets of one call are fed to a receiver's assembler: it is at the same byte of the same section as
the sender, and it hands the section out with its last packet. -/

namespace DvbIpiTools.Tvhead

open BeUtil Demux Mux List

/-- The receiver has seen no counter, or the one sent last. -/
def Synced (a : SectionAsm) (cc : Nat) : Prop := ∃ last, a.SeenCc last ∧ ∀ c, last = some c → c = cc

/-- The receiver has the first `sent` bytes of the section. Before the first and after the last byte
    nothing is asked of it. -/
def Midway (a : SectionAsm) (s : Section) (sent : Nat) : Prop :=
  ∀ h : sent < s.bytes.length, 0 < sent → a.Matches (some ⟨s, sent, h⟩)

/-- What the receiver hands out when the sender goes from `sent` to `sent'`. -/
def handedOut (s : Section) (sent' : Nat) : List (List UInt8) :=
  if sent' = s.bytes.length then [s.bytes] else []

theorem Synced.next {a : SectionAsm} {cc : Nat} (h : a.SeenCc (some (nextCc cc))) : Synced a (nextCc cc) :=
  ⟨some (nextCc cc), h, fun _ hc => (Option.some.inj hc).symm⟩

variable {a : SectionAsm} {cc : Nat} {s : Section} {sent : Nat}

theorem midway_of_matches (h : a.Matches (pendingAt s sent)) : Midway a s sent := fun hlt _ => by
  rwa [pendingAt, dif_pos hlt] at h

theorem map_finished {fin : List Section} (hfin : fin ++ toCome s sent = [s]) (hle : sent ≤ s.bytes.length) :
    fin.map Section.bytes = handedOut s sent := by
  rw [toCome] at hfin
  rw [handedOut]
  split at hfin
  · obtain rfl : fin = [] := by simpa using hfin
    rw [if_neg (by omega)]
    rfl
  · obtain rfl : fin = [s] := by simpa using hfin
    rw [if_pos (by omega)]
    rfl

theorem feedPacket_first (hsync : Synced a cc) (pid : Nat) (s : Section) :
    ∃ a', a.feedPacket (emitOne pid cc true (some 0) s.bytes false 0 false).1 =
        (handedOut s (emitOne pid cc true (some 0) s.bytes false 0 false).2, a') ∧
      Midway a' s (emitOne pid cc true (some 0) s.bytes false 0 false).2 ∧ Synced a' (nextCc cc) := by
  obtain ⟨last, hlast, hsame⟩ := hsync
  obtain ⟨space, hlt, hpos, htake, hpl, hcc⟩ := read_emitOne_first pid cc s false 0 false
  have hnext : ∀ c, last = some c → pktCc (emitOne pid cc true (some 0) s.bytes false 0 false).1 =
      (c + 1) &&& 0x0F := by
    intro c hc
    rw [hsame c hc]
    exact hcc
  have hlast' : ({ a with active := false } : SectionAsm).SeenCc last := by cases last <;> exact hlast
  have hidle : ({ a with active := false } : SectionAsm).Matches none := rfl
  rw [SectionAsm.feedPacket_restart hlast hpl hnext, htake]
  have hlen := s.four_le
  obtain ⟨fin, hfin, hcarry⟩ := carries_first (n := min s.bytes.length space) (by omega) fun _ => rfl
  rw [replicate_zero, append_nil] at hcarry
  obtain ⟨a', heq, hmatch, hseen⟩ := SectionAsm.feedPacket_carries hpl hnext hcarry hidle hlast'
  rw [hcc] at hseen
  exact ⟨a', by rw [heq, map_finished hfin (Nat.min_le_left _ _)], midway_of_matches hmatch, Synced.next hseen⟩

theorem feedPacket_further (hsync : Synced a cc) (pid : Nat) (hsent : sent < s.bytes.length) (hp : a.Matches (pendingAt s sent)) :
    ∃ a', a.feedPacket (emitOne pid cc false (some 0) (s.bytes.drop sent) false 0 false).1 =
        (handedOut s (sent + (emitOne pid cc false (some 0) (s.bytes.drop sent) false 0 false).2), a') ∧
      Midway a' s (sent + (emitOne pid cc false (some 0) (s.bytes.drop sent) false 0 false).2) ∧
      Synced a' (nextCc cc) := by
  obtain ⟨last, hlast, hsame⟩ := hsync
  have hne : s.bytes.drop sent ≠ [] := fun hnil => absurd (drop_eq_nil_iff.1 hnil) (Nat.not_le.2 hsent)
  obtain ⟨htake, hpl, hcc⟩ := read_emitOne_rest pid cc (some 0) hne
  have hnext : ∀ c, last = some c →
      pktCc (emitOne pid cc false (some 0) (s.bytes.drop sent) false 0 false).1 = (c + 1) &&& 0x0F := by
    intro c hc
    rw [hsame c hc]
    exact hcc
  rw [htake]
  obtain ⟨fin, hfin, hcarry⟩ := carries_rest (s := s) sent (min (s.bytes.drop sent).length 184) 0
    fun _ => rfl
  rw [replicate_zero, append_nil] at hcarry
  rw [show toCome s sent = [s] from if_pos hsent] at hfin
  obtain ⟨a', heq, hmatch, hseen⟩ := SectionAsm.feedPacket_carries hpl hnext hcarry hp hlast
  rw [hcc] at hseen
  exact ⟨a', by rw [heq, map_finished hfin (by rw [length_drop]; omega)], midway_of_matches hmatch, Synced.next hseen⟩

theorem feedPacket_round (hsync : Synced a cc) (pid : Nat) (hsent : sent < s.bytes.length) (hmid : Midway a s sent) :
    ∃ take, (emitOne pid cc (sent = 0) (some 0) (s.bytes.drop sent) false 0 false).2 = take ∧ 0 < take ∧
      sent + take ≤ s.bytes.length ∧
      ∃ a', a.feedPacket (emitOne pid cc (sent = 0) (some 0) (s.bytes.drop sent) false 0 false).1 =
          (handedOut s (sent + take), a') ∧ Midway a' s (sent + take) ∧ Synced a' (nextCc cc) := by
  by_cases hzero : sent = 0
  · subst hzero
    obtain ⟨space, -, hpos, htake, -, -⟩ := read_emitOne_first pid cc s false 0 false
    obtain ⟨a', hfeed⟩ := feedPacket_first hsync pid s
    refine ⟨_, rfl, ?_, ?_, a', ?_⟩
    · show 0 < (emitOne pid cc true (some 0) s.bytes false 0 false).2
      omega
    · show 0 + (emitOne pid cc true (some 0) s.bytes false 0 false).2 ≤ _
      omega
    · rw [zero_add]
      exact hfeed
  have hne : s.bytes.drop sent ≠ [] := fun hnil => by
    have := congrArg List.length hnil
    rw [length_drop, length_nil] at this
    omega
  obtain ⟨htake, -, -⟩ := read_emitOne_rest pid cc (some 0) hne
  rw [length_drop] at htake
  obtain ⟨a', hfeed⟩ := feedPacket_further hsync pid hsent (by
    rw [pendingAt, dif_pos hsent]
    exact hmid hsent (pos_of_ne_zero hzero))
  rw [decide_eq_false hzero]
  exact ⟨_, rfl, by omega, by omega, a', hfeed⟩

theorem feedPackets_partial (pid : Nat) {m : Nat} (hsync : Synced a cc) (hsent : sent < s.bytes.length)
    (hmid : Midway a s sent) {pkts : List (List UInt8)} {sent' cc' : Nat}
    (h : tsPacketEmitPartial pid (some 0) s.bytes (m + 1) sent cc = (pkts, sent', cc')) :
    0 < sent' ∧ sent' ≤ s.bytes.length ∧
      ∃ a', a.feedPackets pkts = (handedOut s sent', a') ∧ Midway a' s sent' ∧ Synced a' cc' := by
  induction m generalizing a sent cc pkts sent' cc' with
  | zero =>
    obtain ⟨take, htake, hpos, hle, a', hfeed, hmid', hsync'⟩ := feedPacket_round hsync pid hsent hmid
    simp only [tsPacketEmitPartial, if_pos hsent, htake, Prod.mk.injEq] at h
    obtain ⟨rfl, rfl, rfl⟩ := h
    refine ⟨by omega, hle, a', ?_, hmid', hsync'⟩
    simp only [SectionAsm.feedPackets, hfeed, append_nil]
  | succ m ih =>
    obtain ⟨take, htake, hpos, hle, a', hfeed, hmid', hsync'⟩ := feedPacket_round hsync pid hsent hmid
    rw [tsPacketEmitPartial, if_pos hsent] at h
    simp only [htake] at h
    by_cases hmore : sent + take < s.bytes.length
    · obtain ⟨⟨pkts', sent'', cc''⟩, hrest⟩ : ∃ x, tsPacketEmitPartial pid (some 0) s.bytes (m + 1)
        (sent + take) (nextCc cc) = x := ⟨_, rfl⟩
      rw [hrest] at h
      obtain ⟨rfl, rfl, rfl⟩ := h
      obtain ⟨hpos', hle', a'', hfeeds, hmid'', hsync''⟩ := ih hsync' hmore hmid' hrest
      refine ⟨hpos', hle', a'', ?_, hmid'', hsync''⟩
      have hnone : handedOut s (sent + take) = [] := if_neg hmore.ne
      simp only [SectionAsm.feedPackets, hfeed, hfeeds, hnone, nil_append]
    rw [tsPacketEmitPartial, if_neg hmore] at h
    simp only [Prod.mk.injEq] at h
    obtain ⟨rfl, rfl, rfl⟩ := h
    refine ⟨by omega, hle, a', ?_, hmid', hsync'⟩
    simp only [SectionAsm.feedPackets, hfeed, append_nil]

namespace Eit

/-- The receiver follows a program that is in the middle of a section. -/
def Follows (a : SectionAsm) (r : Eit) : Prop :=
  0 < r.drainOff → ∃ s : Section, s.bytes = (r.entryAt 0).data ∧ Midway a s r.drainOff

variable {r r' : Eit}

theorem Kept.follows {a : SectionAsm} (h : Kept r r') (hr : Follows a r) : Follows a r' := by
  intro hpos
  rw [h.drainOff] at hpos ⊢
  rw [h.head hpos]
  exact hr hpos

theorem Ok.advance (h : r.Ok) {off : Nat} (hpos : 0 < off) (hcount : 0 < r.count)
    (hoff : off < (r.entryAt 0).data.length) : ({ r with drainOff := off } : Eit).Ok where
  slots := ⟨h.slots.perm, h.slots.count_le⟩
  keys := by
    have hlow : r.low ≤ 1 := by
      rw [low]
      split <;> decide
    have hsub : (r.entries.drop 1).Sublist (r.entries.drop r.low) := by
      obtain ⟨k, hk⟩ : ∃ k, 1 = r.low + k := ⟨1 - r.low, by omega⟩
      rw [hk, ← drop_drop]
      exact drop_sublist _ _
    have hnodup : ((r.entries.drop 1).map EitSection.key).Nodup := List.Nodup.sublist (hsub.map _) h.keys
    have hnow : ({ r with drainOff := off } : Eit).low = 1 := if_pos hpos
    rw [KeysOk, hnow]
    exact hnodup
  outgoing := h.outgoing
  drainOff := fun _ => ⟨hcount, hoff⟩
  asm := h.asm

theorem Ok.popHead (h : r.Ok) (hcount : 0 < r.count) (off : Nat) :
    ({ ({ r with drainOff := off } : Eit).remove 0 with drainOff := 0 } : Eit).Ok := by
  have hentries : ({ ({ r with drainOff := off } : Eit).remove 0 with drainOff := 0 } : Eit).entries =
      r.entries.eraseIdx 0 := h.slots.entries_remove hcount
  have hslots := h.slots.remove hcount
  refine ⟨⟨hslots.perm, hslots.count_le⟩, ?_, ?_, fun hpos => absurd hpos (lt_irrefl 0), h.asm⟩
  · have hsub : (r.entries.eraseIdx 0).Sublist (r.entries.drop r.low) := by
      rw [eraseIdx_zero, ← drop_one, low]
      split
      · exact Sublist.refl _
      · exact drop_sublist 1 r.entries
    show (((({ ({ r with drainOff := off } : Eit).remove 0 with drainOff := 0 } : Eit).entries).drop 0).map
      EitSection.key).Nodup
    rw [hentries, drop_zero]
    exact List.Nodup.sublist (hsub.map _) h.keys
  · intro q hq
    rw [hentries] at hq
    exact h.outgoing q ((eraseIdx_sublist _ _).subset hq)

/-- The section at the head, if it left the queue. -/
def popped (r r' : Eit) : List (List UInt8) := if r'.count < r.count then [(r.entryAt 0).data] else []

/-- `remux_emit_eit` at the receiver: the head is handed out when it leaves the queue and nothing else is,
    and afterwards the receiver follows the program again. -/
theorem emit_spec (h : r.Ok) {a : SectionAsm} {cc : Nat} (hsync : Synced a cc) (hfollow : Follows a r)
    {pid m : Nat} {pkts : List (List UInt8)} {cc' : Nat} (hemit : r.emit pid cc (m + 1) = (pkts, cc', r')) :
    r'.Ok ∧ r'.ids = r.ids ∧ r'.entries ⊆ r.entries ∧
      ∃ a', a.feedPackets pkts = (popped r r', a') ∧ Follows a' r' ∧ Synced a' cc' := by
  rw [emit] at hemit
  split at hemit
  · next hzero =>
    obtain ⟨rfl, rfl, rfl⟩ := hemit
    rw [popped, if_neg (lt_irrefl _)]
    exact ⟨h, rfl, Subset.refl _, a, rfl, hfollow, hsync⟩
  rename_i hcount
  have hcount : 0 < r.count := pos_of_ne_zero hcount
  have hmem : r.entryAt 0 ∈ r.entries := mem_of_getElem? (h.slots.getElem?_entries hcount)
  obtain ⟨s, hs⟩ : ∃ s : Section, s.bytes = (r.entryAt 0).data := ⟨(h.outgoing _ hmem).toSection, rfl⟩
  have hlt : r.drainOff < s.bytes.length := by
    by_cases hpos : 0 < r.drainOff
    · rw [hs]
      exact (h.drainOff hpos).2
    · have := s.four_le
      omega
  have hmid : Midway a s r.drainOff := by
    intro hlt' hpos
    obtain ⟨s', hs', hmid'⟩ := hfollow hpos
    have hmatch := hmid' (by rw [hs', ← hs]; exact hlt') hpos
    have hsame : s = s' := Section.eq_of_bytes (hs.trans hs'.symm)
    subst hsame
    exact hmatch
  obtain ⟨⟨pkts', off, cc''⟩, hsent⟩ : ∃ x, tsPacketEmitPartial pid (some 0) (r.entryAt 0).data
    (m + 1) r.drainOff cc = x := ⟨_, rfl⟩
  simp only [hsent] at hemit
  rw [← hs] at hsent hemit
  obtain ⟨hpos, hle, a', hfeed, hmid', hsync'⟩ := feedPackets_partial pid hsync hlt hmid hsent
  split at hemit
  · next hge =>
    obtain ⟨rfl, rfl, rfl⟩ := hemit
    have hentries : ({ ({ r with drainOff := off } : Eit).remove 0 with drainOff := 0 } : Eit).entries =
      r.entries.eraseIdx 0 := h.slots.entries_remove hcount
    refine ⟨h.popHead hcount off, rfl, ?_, a', ?_, fun hpos => absurd hpos (lt_irrefl 0), hsync'⟩
    · rw [hentries]
      exact (eraseIdx_sublist _ _).subset
    · rw [hfeed, handedOut, if_pos (le_antisymm hle hge), hs]
      exact congrArg (·, a') (if_pos (Nat.sub_lt hcount Nat.one_pos)).symm
  · next hnot =>
    obtain ⟨rfl, rfl, rfl⟩ := hemit
    have hoff : off < s.bytes.length := not_le.1 hnot
    refine ⟨h.advance hpos hcount (by rw [← hs]; exact hoff), rfl, Subset.refl _, a', ?_,
      fun _ => ⟨s, hs, hmid'⟩, hsync'⟩
    rw [popped, if_neg (lt_irrefl _), hfeed, handedOut, if_neg hoff.ne]

end Eit

/-! # Runs of the EIT code

One program on its own, and the programs of a multiplex that share the PID and the counter and may come
and go. A run keeps what it sent and what was queued; what a receiver puts together from the packets is
among what was queued. -/

/-- What a program has queued, under its ids. -/
def Eit.log (r : Eit) : List (Ids × List UInt8) := r.entries.map fun q => (r.ids, q.data)

theorem Eit.Ok.log_outgoing {r : Eit} (h : r.Ok) {x : Ids × List UInt8} (hx : x ∈ r.log) : Eit.Outgoing x.1 x.2 := by
  obtain ⟨q, hq, rfl⟩ := List.mem_map.1 hx
  exact h.outgoing q hq

theorem Eit.log_subset {r r' : Eit} (hids : r'.ids = r.ids) (h : r'.entries ⊆ r.entries) : r'.log ⊆ r.log := by
  rw [Eit.log, Eit.log, hids]
  exact map_subset _ h

/-- What went out so far, and all that was ever queued. -/
structure Trace where
  sent : List (List UInt8) := []
  queued : List (Ids × List UInt8) := []

namespace Trace

/-- The receiver after all that was sent. -/
def receiver (t : Trace) : SectionAsm := (({} : SectionAsm).feedPackets t.sent).2

/-- The sections put together from what was sent. -/
def received (t : Trace) : List (List UInt8) := (({} : SectionAsm).feedPackets t.sent).1

/-- Whatever is received was queued, and is a whole section of the program that queued it. -/
structure Sound (t : Trace) : Prop where
  received : ∀ s ∈ t.received, ∃ ids, (ids, s) ∈ t.queued
  outgoing : ∀ x ∈ t.queued, Eit.Outgoing x.1 x.2

def send (t : Trace) (pkts : List (List UInt8)) : Trace := { t with sent := t.sent ++ pkts }

def queue (t : Trace) (log : List (Ids × List UInt8)) : Trace := { t with queued := t.queued ++ log }

variable {t : Trace} {pkts : List (List UInt8)}

theorem receiver_send {out : List (List UInt8)} {a : SectionAsm} (h : t.receiver.feedPackets pkts = (out, a)) :
    (t.send pkts).receiver = a ∧ (t.send pkts).received = t.received ++ out := by
  have happ := SectionAsm.feedPackets_append {} t.sent pkts
  have hmore : (({} : SectionAsm).feedPackets t.sent).2.feedPackets pkts = (out, a) := h
  rw [hmore] at happ
  exact ⟨congrArg Prod.snd happ, congrArg Prod.fst happ⟩

theorem Sound.queue (h : t.Sound) {r : Eit} (hr : r.Ok) : (t.queue r.log).Sound where
  received := fun s hs => (h.received s hs).imp fun _ hmem => mem_append_left _ hmem
  outgoing := by
    intro x hx
    rcases mem_append.1 hx with hx | hx
    · exact h.outgoing x hx
    · exact hr.log_outgoing hx

theorem Sound.emit (h : t.Sound) {r : Eit} (hr : r.Ok) {cc : Nat} (hsync : Synced t.receiver cc)
    (hfollow : Eit.Follows t.receiver r) (hlog : r.log ⊆ t.queued) {pid m : Nat} {cc' : Nat} {r' : Eit}
    (hemit : r.emit pid cc (m + 1) = (pkts, cc', r')) :
    (t.send pkts).Sound ∧ r'.Ok ∧ r'.ids = r.ids ∧ r'.log ⊆ (t.send pkts).queued ∧
      Eit.Follows (t.send pkts).receiver r' ∧ Synced (t.send pkts).receiver cc' ∧
      (t.send pkts).received = t.received ++ Eit.popped r r' := by
  obtain ⟨hok, hids, hsub, a', hfeed, hfollow', hsync'⟩ := Eit.emit_spec hr hsync hfollow hemit
  obtain ⟨hreceiver, hreceived⟩ := receiver_send hfeed
  refine ⟨⟨?_, h.outgoing⟩, hok, hids, List.Subset.trans (Eit.log_subset hids hsub) hlog,
    hreceiver ▸ hfollow', hreceiver ▸ hsync', hreceived⟩
  intro s hs
  rw [hreceived, mem_append, Eit.popped] at hs
  rcases hs with hs | hs
  · exact h.received s hs
  split at hs
  · next hlt =>
    obtain rfl := mem_singleton.1 hs
    have hhead := hr.slots.getElem?_entries (show 0 < r.count by omega)
    exact ⟨r.ids, hlog (List.mem_map_of_mem (mem_of_getElem? hhead))⟩
  · cases hs

end Trace

/-! ## One program -/

/-- What happens to a program on its own; a call sends at most `more + 1` packets. -/
inductive EitEvent
  | capture (pkt : List UInt8)
  | emit (more : Nat)

/-- A program with its own counter, and its trace. -/
structure EitRun where
  r : Eit
  cc : Nat
  trace : Trace := {}

namespace EitRun

def step (pid : Nat) (R : EitRun) : EitEvent → EitRun
  | .capture pkt => { R with r := R.r.capture pkt, trace := R.trace.queue (R.r.capture pkt).log }
  | .emit more =>
    let (pkts, cc, r) := R.r.emit pid R.cc (more + 1)
    { r, cc, trace := R.trace.send pkts }

/-- The program behaves, under the ids `ids`, and the receiver follows it. -/
structure Inv (ids : Ids) (R : EitRun) : Prop where
  sound : R.trace.Sound
  ok : R.r.Ok
  log : R.r.log ⊆ R.trace.queued
  ids_eq : R.r.ids = ids
  own : ∀ x ∈ R.trace.queued, x.1 = ids
  follows : Eit.Follows R.trace.receiver R.r
  synced : Synced R.trace.receiver R.cc

variable {ids : Ids} {R : EitRun}

theorem step_inv (pid : Nat) (h : Inv ids R) (e : EitEvent) : Inv ids (R.step pid e) := by
  cases e with
  | capture pkt =>
    have hkept := Eit.capture_kept h.ok pkt
    refine ⟨h.sound.queue hkept.ok, hkept.ok, subset_append_right _ _, hkept.ids.trans h.ids_eq, ?_,
      hkept.follows h.follows, h.synced⟩
    intro x hx
    rcases mem_append.1 hx with hx | hx
    · exact h.own x hx
    · obtain ⟨q, -, rfl⟩ := List.mem_map.1 hx
      exact hkept.ids.trans h.ids_eq
  | emit more =>
    obtain ⟨⟨pkts, cc, r⟩, hemit⟩ : ∃ x, R.r.emit pid R.cc (more + 1) = x := ⟨_, rfl⟩
    obtain ⟨hsound, hok, hids, hlog, hfollow, hsync, -⟩ := h.sound.emit h.ok h.synced h.follows h.log hemit
    simp only [step, hemit]
    exact ⟨hsound, hok, hlog, hids.trans h.ids_eq, h.own, hfollow, hsync⟩

theorem init_inv (ids : Ids) (srcServiceId cc : Nat) : Inv ids ⟨.new ids srcServiceId, cc, {}⟩ where
  sound := ⟨nofun, nofun⟩
  ok := Eit.new_ok ids srcServiceId
  log := nil_subset _
  ids_eq := rfl
  own := nofun
  follows := fun h => absurd h (lt_irrefl 0)
  synced := ⟨none, rfl, nofun⟩

/-- A program from `remux_new` on. -/
def run (pid : Nat) (ids : Ids) (srcServiceId cc : Nat) (events : List EitEvent) : EitRun :=
  events.foldl (step pid) ⟨.new ids srcServiceId, cc, {}⟩

theorem foldl_inv (pid : Nat) (events : List EitEvent) (h : Inv ids R) : Inv ids (events.foldl (step pid) R) := by
  induction events generalizing R with
  | nil => exact h
  | cons e events ih => exact ih (step_inv pid h e)

/-- In any run a call that takes the head from the queue has sent the whole section, and the receiver
    hands it out; no other call makes it hand out anything. -/
theorem run_emit_received (pid : Nat) (ids : Ids) (srcServiceId cc : Nat) (events : List EitEvent) (more : Nat) :
    let R := run pid ids srcServiceId cc events
    (R.step pid (.emit more)).trace.received = R.trace.received ++ R.r.popped (R.step pid (.emit more)).r := by
  intro R
  have h := foldl_inv pid events (init_inv ids srcServiceId cc)
  exact (h.sound.emit h.ok h.synced h.follows h.log rfl).2.2.2.2.2.2

end EitRun

/-! ## A multiplex -/

/-- What happens to a multiplex: a program comes or goes, one of its packets is looked at, or a packet is
    to be sent. -/
inductive MptsEvent
  | connect (i : Nat) (ids : Ids) (srcServiceId : Nat)
  | disconnect (i : Nat)
  | capture (i : Nat) (pkt : List UInt8)
  | emit

structure MptsRun where
  mpts : Mpts
  trace : Trace := {}

namespace MptsRun

def step (R : MptsRun) : MptsEvent → MptsRun
  | .connect i ids srcServiceId => { R with mpts := R.mpts.setProg i (some (.new ids srcServiceId)) }
  | .disconnect i => { R with mpts := R.mpts.setProg i none }
  | .capture i pkt =>
    match R.mpts.progs i with
    | none => R
    | some r =>
      { mpts := R.mpts.setProg i (some (r.capture pkt)), trace := R.trace.queue (r.capture pkt).log }
  | .emit =>
    let (pkts, mpts) := R.mpts.emitEit
    { mpts, trace := R.trace.send pkts }

/-- A program that fits the trace. -/
structure ProgInv (t : Trace) (r : Eit) : Prop where
  ok : r.Ok
  log : r.log ⊆ t.queued
  follows : Eit.Follows t.receiver r

/-- Every program behaves, only the busy one is in the middle of a section, and the receiver follows it. -/
structure Inv (R : MptsRun) : Prop where
  sound : R.trace.Sound
  prog : ∀ i r, R.mpts.progs i = some r → ProgInv R.trace r
  mid : ∀ i r, R.mpts.progs i = some r → 0 < r.drainOff → R.mpts.busy = some i
  synced : Synced R.trace.receiver R.mpts.cc

variable {t : Trace} {r : Eit}

theorem ProgInv.queue (h : ProgInv t r) (log : List (Ids × List UInt8)) : ProgInv (t.queue log) r :=
  ⟨h.ok, List.Subset.trans h.log (subset_append_left _ _), h.follows⟩

/-- A program that is not in the middle of a section asks nothing of the receiver. -/
theorem ProgInv.send (h : ProgInv t r) (hzero : r.drainOff = 0) (pkts : List (List UInt8)) : ProgInv (t.send pkts) r :=
  ⟨h.ok, h.log, fun hpos => absurd hpos (by omega)⟩

variable {m : Mpts} {i : Nat}

theorem setProg_some {j : Nat} {p : Option Eit}
    (h : (m.setProg i p).progs j = some r) : (j = i ∧ p = some r) ∨ (j ≠ i ∧ m.progs j = some r) := by
  simp only [Mpts.setProg] at h
  split at h
  · next hji => exact .inl ⟨hji, h⟩
  · next hji => exact .inr ⟨hji, h⟩

/-- A packet of the program `i` while no other is in the middle of a section. -/
theorem emitFrom_inv (h : Inv ⟨m, t⟩) (hi : m.progs i = some r)
    (hothers : ∀ j r', j ≠ i → m.progs j = some r' → r'.drainOff = 0) :
    Inv ⟨(m.emitFrom i r).2, t.send (m.emitFrom i r).1⟩ := by
  have hr := h.prog i r hi
  obtain ⟨⟨pkts, cc, r'⟩, hemit⟩ : ∃ x, r.emit outPidEit m.cc 1 = x := ⟨_, rfl⟩
  obtain ⟨hsound, hok, -, hlog, hfollow, hsync, -⟩ := h.sound.emit hr.ok h.synced hr.follows hr.log hemit
  simp only [Mpts.emitFrom, hemit]
  refine ⟨hsound, ?_, ?_, hsync⟩
  · intro j rj hj
    rcases setProg_some hj with ⟨-, heq⟩ | ⟨hne, hprog⟩
    · cases heq
      exact ⟨hok, hlog, hfollow⟩
    · exact (h.prog j rj hprog).send (hothers j rj hne hprog) pkts
  intro j rj hj hpos
  rcases setProg_some hj with ⟨rfl, heq⟩ | ⟨hne, hprog⟩
  · cases heq
    have hmid : r'.midSection = true := decide_eq_true hpos
    rw [if_pos hmid]
  · have := hothers j rj hne hprog
    omega

theorem busyProg_eq_some (h : m.busyProg = some (i, r)) : m.busy = some i ∧ m.progs i = some r := by
  unfold Mpts.busyProg at h
  split at h
  · cases h
  rename_i k hbusy
  split at h
  · cases h
  rename_i r' hprog
  split at h
  · simp only [Option.some.injEq, Prod.mk.injEq] at h
    obtain ⟨rfl, rfl⟩ := h
    exact ⟨hbusy, hprog⟩
  · cases h

theorem Inv.drainOff_eq_zero (h : Inv ⟨m, t⟩) (hbusy : m.busyProg = none) (hi : m.progs i = some r) : r.drainOff = 0 := by
  by_contra hne
  have hpos := pos_of_ne_zero hne
  have hpending : r.pending = true := decide_eq_true ((h.prog i r hi).ok.drainOff hpos).1
  have hsome : m.busyProg = some (i, r) := by
    simp only [Mpts.busyProg, show m.busy = some i from h.mid i r hi hpos, hi, if_pos hpending]
  rw [hsome] at hbusy
  cases hbusy

theorem firstPending_eq_some (h : m.firstPending = some (i, r)) : m.progs i = some r := by
  obtain ⟨j, -, hj⟩ := exists_of_findSome?_eq_some h
  split at hj
  · cases hj
  rename_i r' hprog
  split at hj
  · simp only [Option.some.injEq, Prod.mk.injEq] at hj
    obtain ⟨rfl, rfl⟩ := hj
    exact hprog
  · cases hj

/-- A packet is taken from the busy program, else from the first one that has something to send. -/
theorem emitEit_cases (h : Inv ⟨m, t⟩) : (m.emitEit = ([], { m with busy := none }) ∧ Inv ⟨{ m with busy := none }, t⟩) ∨
    ∃ m' j rj, m.emitEit = m'.emitFrom j rj ∧ Inv ⟨m', t⟩ ∧ m'.progs = m.progs ∧ m.progs j = some rj ∧
      ∀ k r', k ≠ j → m.progs k = some r' → r'.drainOff = 0 := by
  rw [Mpts.emitEit]
  split
  · next j rj hbusy =>
    obtain ⟨hj, hprog⟩ := busyProg_eq_some hbusy
    refine .inr ⟨m, j, rj, rfl, h, rfl, hprog, fun k r' hne hk => ?_⟩
    by_contra hzero
    have := h.mid k r' hk (pos_of_ne_zero hzero)
    rw [show m.busy = some j from hj, Option.some.injEq] at this
    exact hne this.symm
  rename_i hbusy
  have hnone : Inv ⟨{ m with busy := none }, t⟩ :=
    ⟨h.sound, h.prog, fun i r hi hpos => absurd (h.drainOff_eq_zero hbusy hi) (by omega), h.synced⟩
  simp only []
  split
  · next j rj hfirst =>
    exact .inr ⟨_, j, rj, rfl, hnone, rfl, firstPending_eq_some hfirst, fun k r' _ hk => h.drainOff_eq_zero hbusy hk⟩
  · exact .inl ⟨rfl, hnone⟩

theorem emitEit_inv (h : Inv ⟨m, t⟩) : Inv ⟨m.emitEit.2, t.send m.emitEit.1⟩ := by
  rcases emitEit_cases h with ⟨heq, hinv⟩ | ⟨m', j, rj, heq, hinv, hprogs, hj, hothers⟩
  · rw [heq, Trace.send, append_nil]
    exact hinv
  · rw [heq]
    exact emitFrom_inv hinv (hprogs ▸ hj) fun k r' hne hk => hothers k r' hne (hprogs ▸ hk)

theorem emitEit_received {r' : Eit} (h : Inv ⟨m, t⟩) (hi : m.progs i = some r) (hi' : m.emitEit.2.progs i = some r')
    (hlt : r'.count < r.count) : (r.entryAt 0).data ∈ (t.send m.emitEit.1).received := by
  rcases emitEit_cases h with ⟨heq, -⟩ | ⟨m', j, rj, heq, hinv, hprogs, hj, -⟩
  · rw [heq] at hi'
    obtain rfl := Option.some.inj (hi.symm.trans hi')
    exact absurd hlt (lt_irrefl _)
  rw [heq] at hi' ⊢
  have hrj := hinv.prog j rj (hprogs ▸ hj)
  obtain ⟨⟨pkts, cc, r1⟩, hemit⟩ : ∃ x, rj.emit outPidEit m'.cc 1 = x := ⟨_, rfl⟩
  obtain ⟨-, -, -, -, -, -, hreceived⟩ := hinv.sound.emit hrj.ok hinv.synced hrj.follows hrj.log hemit
  simp only [Mpts.emitFrom, hemit] at hi' ⊢
  rcases setProg_some hi' with ⟨rfl, hsome⟩ | ⟨-, hprog⟩
  · obtain rfl := Option.some.inj (hj.symm.trans hi)
    obtain rfl := Option.some.inj hsome
    rw [show (t.send pkts).received = _ from hreceived, Eit.popped, if_pos hlt]
    exact mem_append_right _ mem_cons_self
  · rw [hprogs] at hprog
    obtain rfl := Option.some.inj (hprog.symm.trans hi)
    exact absurd hlt (lt_irrefl _)

variable {R : MptsRun}

theorem step_inv (h : R.Inv) (e : MptsEvent) : (R.step e).Inv := by
  cases e with
  | connect i ids srcServiceId =>
    refine ⟨h.sound, ?_, ?_, h.synced⟩
    · intro j r hj
      rcases setProg_some hj with ⟨-, heq⟩ | ⟨-, hprog⟩
      · cases heq
        exact ⟨Eit.new_ok ids srcServiceId, nil_subset _, fun hpos => absurd hpos (lt_irrefl 0)⟩
      · exact h.prog j r hprog
    · intro j r hj hpos
      rcases setProg_some hj with ⟨-, heq⟩ | ⟨-, hprog⟩
      · cases heq
        exact absurd hpos (lt_irrefl 0)
      · exact h.mid j r hprog hpos
  | disconnect i =>
    refine ⟨h.sound, ?_, ?_, h.synced⟩
    · intro j r hj
      rcases setProg_some hj with ⟨-, heq⟩ | ⟨-, hprog⟩
      · cases heq
      · exact h.prog j r hprog
    · intro j r hj hpos
      rcases setProg_some hj with ⟨-, heq⟩ | ⟨-, hprog⟩
      · cases heq
      · exact h.mid j r hprog hpos
  | capture i pkt =>
    rw [step]
    cases hi : R.mpts.progs i with
    | none => exact h
    | some r =>
      have hr := h.prog i r hi
      have hkept := Eit.capture_kept hr.ok pkt
      refine ⟨h.sound.queue hkept.ok, ?_, ?_, h.synced⟩
      · intro j rj hj
        rcases setProg_some hj with ⟨-, heq⟩ | ⟨-, hprog⟩
        · cases heq
          exact ⟨hkept.ok, subset_append_right _ _, hkept.follows hr.follows⟩
        · exact (h.prog j rj hprog).queue _
      intro j rj hj hpos
      rcases setProg_some hj with ⟨rfl, heq⟩ | ⟨-, hprog⟩
      · cases heq
        rw [hkept.drainOff] at hpos
        exact h.mid j r hi hpos
      · exact h.mid j rj hprog hpos
  | emit => exact emitEit_inv h

theorem foldl_inv (events : List MptsEvent) (h : R.Inv) : (events.foldl step R).Inv := by
  induction events generalizing R with
  | nil => exact h
  | cons e events ih => exact ih (step_inv h e)

/-- A multiplex of `n` programs, none connected at first. -/
def run (n cc : Nat) (events : List MptsEvent) : MptsRun := events.foldl step ⟨⟨fun _ => none, n, none, cc⟩, {}⟩

theorem init_inv (n cc : Nat) : Inv ⟨⟨fun _ => none, n, none, cc⟩, {}⟩ where
  sound := ⟨nofun, nofun⟩
  prog := nofun
  mid := nofun
  synced := ⟨none, rfl, nofun⟩

/-- In a multiplex as well: a head that leaves its queue is handed out. -/
theorem run_emit_received (n cc : Nat) (events : List MptsEvent) {i : Nat} {r r' : Eit}
    (hi : (run n cc events).mpts.progs i = some r) (hi' : ((run n cc events).step .emit).mpts.progs i = some r')
    (hlt : r'.count < r.count) : (r.entryAt 0).data ∈ ((run n cc events).step .emit).trace.received :=
  emitEit_received (foldl_inv events (init_inv n cc)) hi hi' hlt

end MptsRun

/-- The EIT sections of a program on its own and of the programs of a multiplex: the order stays a
    permutation of the slots, no key is queued twice behind a head that is being sent, and whatever is put
    together from the packets is a section that was queued, with the ids of its program and a valid CRC. -/
theorem eit_integrity : (∀ (pid : Nat) (ids : Ids) (srcServiceId cc : Nat) (events : List EitEvent),
      (EitRun.run pid ids srcServiceId cc events).r.SlotsOk ∧ (EitRun.run pid ids srcServiceId cc events).r.KeysOk ∧
      ∀ s ∈ (EitRun.run pid ids srcServiceId cc events).trace.received,
        (ids, s) ∈ (EitRun.run pid ids srcServiceId cc events).trace.queued ∧ Eit.Outgoing ids s) ∧
    ∀ (n cc : Nat) (events : List MptsEvent),
      (∀ i r, (MptsRun.run n cc events).mpts.progs i = some r → r.SlotsOk ∧ r.KeysOk) ∧
      ∀ s ∈ (MptsRun.run n cc events).trace.received,
        ∃ ids, (ids, s) ∈ (MptsRun.run n cc events).trace.queued ∧ Eit.Outgoing ids s := by
  constructor
  · intro pid ids srcServiceId cc events
    have h := EitRun.foldl_inv pid events (EitRun.init_inv ids srcServiceId cc)
    refine ⟨h.ok.slots, h.ok.keys, ?_⟩
    intro s hs
    obtain ⟨ids', hmem⟩ := h.sound.received s hs
    obtain rfl : ids' = ids := h.own _ hmem
    exact ⟨hmem, h.sound.outgoing _ hmem⟩
  intro n cc events
  have h := MptsRun.foldl_inv events (MptsRun.init_inv n cc)
  refine ⟨fun i r hi => ⟨(h.prog i r hi).ok.slots, (h.prog i r hi).ok.keys⟩, ?_⟩
  intro s hs
  obtain ⟨ids, hmem⟩ := h.sound.received s hs
  exact ⟨ids, hmem, h.sound.outgoing _ hmem⟩

/-- A section of the source, and one packet of room to send it. -/
def oneSection : List EitEvent :=
  [.capture (packetHead outPidEit true ++ [0x10, 0x00, 0x4E, 0xF0, 0x0D, 0x00, 0x05, 0xC1, 0x00, 0x00,
    0x00, 0x09, 0x00, 0x09, 0xCA, 0xA6, 0x5F, 0xF2] ++ replicate 167 0xFF), .emit 0]

theorem eit_integrity_oneSection : ∃ s, (EitRun.run outPidEit ⟨1, 2, 3⟩ 5 0 oneSection).trace.received = [s] ∧
    s.take 7 = [0x4E, 0xF0, 0x0D, 0x00, 0x01, 0xC1, 0x00] ∧ Eit.Outgoing ⟨1, 2, 3⟩ s := by
  have hrec : (EitRun.run outPidEit ⟨1, 2, 3⟩ 5 0 oneSection).trace.received =
      [[0x4E, 0xF0, 0x0D, 0x00, 0x01, 0xC1, 0x00, 0x00, 0x00, 0x02, 0x00, 0x03, 0x83, 0xC6, 0x76, 0x0A]] := by
    decide +kernel
  exact ⟨_, hrec, rfl, ((eit_integrity.1 outPidEit ⟨1, 2, 3⟩ 5 0 oneSection).2.2 _ (hrec ▸ mem_cons_self)).2⟩

end DvbIpiTools.Tvhead
