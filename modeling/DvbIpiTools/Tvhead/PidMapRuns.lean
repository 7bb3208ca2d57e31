import DvbIpiTools.Tvhead.Remux

set_option autoImplicit false

/-! # The output map over whole runs

What holds of the PIDs, queues and buffers of a program from its start on, through any packets and any
PMTs of the source. Two things go wrong in the code: a program of thirty-one streams without a video has
the last of them on the PID of the AIT, and a source PID that is listed twice, or in another role than
before, does not keep its PID (and its entries share one queue). -/

namespace DvbIpiTools.Tvhead

open BeUtil Demux Remux List

/-- What happens to a program. -/
inductive RemuxEvent
  | feed (m : Moment) (pmt : Option Psi) (seq : Nat) (pkt : List UInt8)
  | release (m : Moment) (all : Bool)
  | setHold
  | setTimemap

/-- One call: what goes out and the program after it. -/
def Remux.step (oom : Oom) (r : Remux) : RemuxEvent → List Pkt × Remux
  | .feed m pmt seq pkt => r.feed oom m pmt seq pkt
  | .release m all => r.release m all
  | .setHold => ([], r.setHold oom)
  | .setTimemap => ([], r.setTimemap)

/-! ## What is asked -/

/-- The PIDs of the map are distinct, in the block of the program, and no other PID of the multiplex. -/
structure PidsOk (idx : Nat) (es : List OutEs) : Prop where
  nodup : (es.map OutEs.outPid).Nodup
  inBlock : ∀ e ∈ es, InBlock (outProgramPids idx).videoPid e.outPid
  ne_ait : ∀ e ∈ es, e.outPid ≠ (outProgramPids idx).aitPid
  ne_pmt : ∀ e ∈ es, ∀ j < mptsMaxPrograms, e.outPid ≠ (outProgramPids j).pmtPid
  ne_other : ∀ e ∈ es, ∀ j, j ≠ idx → ¬ InBlock (outProgramPids j).videoPid e.outPid ∧
    e.outPid ≠ (outProgramPids j).aitPid

/-- A source PID that is in both maps keeps its output PID. -/
def Stays (old neu : List OutEs) : Prop := ∀ e ∈ old, ∀ e' ∈ neu, e.inPid = e'.inPid → e.outPid = e'.outPid

variable {idx : Nat}

theorem pidsOk_of_inBlock (hidx : idx < mptsMaxPrograms) {es : List OutEs} (hnodup : (es.map OutEs.outPid).Nodup)
    (hin : ∀ e ∈ es, InBlock (outProgramPids idx).videoPid e.outPid) : PidsOk idx es := by
  have hbounds : ∀ e ∈ es, 0x100 + idx * 32 ≤ e.outPid ∧ e.outPid < 0x100 + idx * 32 + 31 := hin
  have hidx : idx < 32 := hidx
  refine ⟨hnodup, hin, ?_, ?_, ?_⟩
  · intro e he heq
    have := hbounds e he
    have heq : e.outPid = 0x100 + idx * 32 + 31 := heq
    omega
  · intro e he j _ heq
    have := hbounds e he
    have heq : e.outPid = 0x1000 + j := heq
    omega
  · intro e he j hne
    have := hbounds e he
    constructor
    · intro hj
      have hj : 0x100 + j * 32 ≤ e.outPid ∧ e.outPid < 0x100 + j * 32 + 31 := hj
      omega
    · intro heq
      have heq : e.outPid = 0x100 + j * 32 + 31 := heq
      omega

/-! ## When it holds -/

/-- The streams found at the start fit into the block. -/
def Fits (cfg : TvConfig) (psi : Psi) : Prop :=
  HasVideo cfg psi ∨ (carried cfg psi.emmPid psi).length < outProgramEsCap

/-- A PMT of the source lists no PID twice that is carried already, and none in another role. -/
def Steady (r : Remux) (psi : Psi) : Prop :=
  ∀ k ∈ r.es.map OutEs.key, ∀ k' ∈ carried r.cfg r.emmPidIn psi, k.1 = k'.1 →
    k = k' ∧ (r.es.map OutEs.key).count k = 1 ∧ (carried r.cfg r.emmPidIn psi).count k = 1

instance (r : Remux) (psi : Psi) : Decidable (Steady r psi) :=
  inferInstanceAs (Decidable (∀ k ∈ r.es.map OutEs.key, ∀ k' ∈ carried r.cfg r.emmPidIn psi, k.1 = k'.1 →
    k = k' ∧ (r.es.map OutEs.key).count k = 1 ∧ (carried r.cfg r.emmPidIn psi).count k = 1))

/-- The condition on a call. -/
def SteadyStep (r : Remux) : RemuxEvent → Prop
  | .feed _ (some psi) _ _ => Steady r psi
  | _ => True

/-- The states of a program in a run that meets the condition. -/
inductive SteadyRun (oom : Oom) (cfg : TvConfig) (idx : Nat) (psi : Psi) : Remux → Prop
  | start {r : Remux} (hfits : Fits cfg psi)
      (hnew : Remux.new oom cfg (outProgramPids idx) psi = some r) : SteadyRun oom cfg idx psi r
  | step {r : Remux} (h : SteadyRun oom cfg idx psi r) (e : RemuxEvent) (he : SteadyStep r e) :
      SteadyRun oom cfg idx psi (r.step oom e).2

/-! ## The steps -/

/-- A call that leaves the map and the owners as they are. -/
structure Frame (r r' : Remux) : Prop where
  cfg : r'.cfg = r.cfg
  pids : r'.pids = r.pids
  emmPidIn : r'.emmPidIn = r.emmPidIn
  es : r'.es = r.es
  owned : HeapOwned r.slots r.heap → HeapOwned r'.slots r'.heap

theorem Frame.refl (r : Remux) : Frame r r := ⟨rfl, rfl, rfl, rfl, id⟩

variable {r : Remux}

theorem Frame.trans {r' r'' : Remux} (h : Frame r r') (h' : Frame r' r'') : Frame r r'' :=
  ⟨h'.cfg.trans h.cfg, h'.pids.trans h.pids, h'.emmPidIn.trans h.emmPidIn, h'.es.trans h.es,
    fun ho => h'.owned (h.owned ho)⟩

variable (m : Moment)

theorem release_frame (all : Bool) (r : Remux) : Frame r (r.release m all).2 where
  cfg := rfl
  pids := rfl
  emmPidIn := rfl
  es := rfl
  owned := fun h => by
    obtain ⟨hholds, hsctes⟩ := releaseSlots_owned m all r.slots 0 h.holds h.sctes
    exact ⟨hholds, hsctes⟩

variable (oom : Oom)

theorem setHold_frame (r : Remux) : Frame r (r.setHold oom) := by
  obtain ⟨hes, hscte⟩ := setHoldSlots_same oom r.slots r.heap.holds
  refine ⟨rfl, rfl, rfl, hes, fun h => ⟨?_, ?_⟩⟩
  · have hholds := @setHoldSlots_owned oom r.slots r.heap.holds [] (by
      rw [append_nil]
      exact h.holds)
    rw [append_nil] at hholds
    exact hholds
  · show r.heap.sctes.Owned ((setHoldSlots oom r.slots r.heap.holds).2.1.filterMap Slot.scte)
    rw [filterMap_congr_map hscte]
    exact h.sctes

variable {s : Slot}

theorem setSlot_tag_frame (r : Remux) (hs : r.slots[idx]? = some s) (tag : Option Nat) :
    Frame r (r.setSlot idx { s with tag }) := by
  have hset : ∀ {α : Type} (f : Slot → α), f { s with tag } = f s →
      (r.slots.set idx { s with tag }).map f = r.slots.map f := by
    intro α f hf
    rw [map_set, hf]
    apply ext_getElem?
    intro j
    rw [getElem?_set]
    split
    · next hij =>
      rw [← hij, getElem?_map, hs, length_map, if_pos (List.getElem?_eq_some_iff.1 hs).1]
      rfl
    · rfl
  exact ⟨rfl, rfl, rfl, hset Slot.es rfl, fun h => h.congr (hset Slot.hold rfl) (hset Slot.scte rfl)⟩

theorem dispatch_frame (r : Remux) (hs : r.slots[idx]? = some s) (p : Pkt) : Frame r (r.dispatch m idx s p).2 := by
  unfold dispatch
  split
  · next i _ _ =>
    split
    · exact Frame.refl r
    · next b hb =>
      refine ⟨rfl, rfl, rfl, rfl, fun h => ⟨h.holds, ?_⟩⟩
      exact h.sctes.set ((h.sctes.live i).1 (by rw [hb]; exact Option.some_ne_none b)) _
  split
  · next i _ =>
    split
    · split
      · exact Frame.refl r
      rename_i q hq
      refine (setSlot_tag_frame r hs _).trans ⟨rfl, rfl, rfl, rfl, fun h => ⟨?_, h.sctes⟩⟩
      exact h.holds.set ((h.holds.live i).1 (by
        show r.heap.holds.cell i ≠ none
        rw [hq]
        exact Option.some_ne_none q)) _
    · exact Frame.refl r
  · exact Frame.refl r

theorem forwardPacket_frame (r : Remux) (hs : r.slots[idx]? = some s)
    (p : Pkt) : Frame r (r.forwardPacket m idx s p).2 := by
  have hcc : Frame r { r with ccm := (rewritePacket m r s.es.outPid p.bytes).2 } := ⟨rfl, rfl, rfl, rfl, id⟩
  exact hcc.trans (dispatch_frame m { r with ccm := (rewritePacket m r s.es.outPid p.bytes).2 } hs
    { p with bytes := (rewritePacket m r s.es.outPid p.bytes).1 })

/-! ## New maps -/

theorem eq_of_count_one {α β : Type} [BEq β] [LawfulBEq β] {f : α → β} {l : List α} {a b : α} (ha : a ∈ l)
    (hb : b ∈ l) (hab : f a = f b) (hone : (l.map f).count (f a) = 1) : a = b := by
  obtain ⟨l1, l2, rfl⟩ := append_of_mem ha
  rw [map_append, map_cons, count_append, count_cons_self, ← add_assoc, Nat.add_eq_right, ← count_append, ← map_append,
    count_eq_zero] at hone
  rw [mem_append, mem_cons] at hb
  by_contra hne
  exact hone (hab ▸ mem_map_of_mem (mem_append.2 (hb.imp_right fun h => h.resolve_left (Ne.symm hne))))

theorem map_key_of_stream {l l' : List OutEs} (h : l.map OutEs.stream = l'.map OutEs.stream) :
    l.map OutEs.key = l'.map OutEs.key := by
  have := congrArg (map fun s : Nat × Nat × CaPass => (s.1, s.2.2)) h
  rw [map_map, map_map] at this
  exact this

/-- What is known of a program: its PIDs are in its block and distinct. -/
structure MapInv (idx : Nat) (r : Remux) : Prop where
  pids : r.pids = outProgramPids idx
  nodup : (r.es.map OutEs.outPid).Nodup
  inBlock : ∀ e ∈ r.es, InBlock (outProgramPids idx).videoPid e.outPid
  owned : HeapOwned r.slots r.heap

theorem Frame.mapInv {r' : Remux} (h : Frame r r') (hr : MapInv idx r) : MapInv idx r' :=
  ⟨h.pids.trans hr.pids, h.es ▸ hr.nodup, h.es ▸ hr.inBlock, h.owned hr.owned⟩

variable {psi : Psi}

theorem remapPlan_spec (hr : MapInv idx r) (hsteady : Steady r psi)
    {neu : List OutEs} (hplan : remapPlan r.cfg r.pids r.emmPidIn r.pcrPidOut r.es psi = some neu) :
    (neu.map OutEs.outPid).Nodup ∧ (∀ e ∈ neu, InBlock (outProgramPids idx).videoPid e.outPid) ∧
      neu.map OutEs.key = carried r.cfg r.emmPidIn psi ∧ Stays r.es neu ∧
      ∀ e ∈ neu, e.key ∈ r.es.map OutEs.key → (neu.map OutEs.key).count e.key = 1 := by
  have hcounted := @buildEsMap_counted r.cfg r.pids (by rw [hr.pids]; rfl) r.emmPidIn psi
  rw [remapPlan] at hplan
  split at hplan
  · cases hplan
  simp only [] at hplan
  split at hplan
  · cases hplan
  cases hplan
  generalize buildEsMap r.cfg r.pids r.emmPidIn psi = m at hcounted
  have honce : ∀ e ∈ m.es, e.key ∈ r.es.map OutEs.key → (m.es.map OutEs.key).count e.key = 1 := by
    intro e he hold
    rw [hcounted.keys]
    have hmem : e.key ∈ carried r.cfg r.emmPidIn psi := by
      rw [← hcounted.keys]
      exact mem_map_of_mem he
    exact (hsteady e.key hold e.key hmem rfl).2.2
  have hin : ∀ o ∈ r.es, InBlock r.pids.videoPid o.outPid := by
    rw [hr.pids]
    exact hr.inBlock
  have hkeeps := keepOutPids_keeps hr.nodup hin hcounted.length_le honce
  have hkeys : (keepOutPids r.pids.videoPid r.es m.es).map OutEs.key =
      carried r.cfg r.emmPidIn psi := (map_key_of_stream hkeeps.stream).trans hcounted.keys
  refine ⟨hkeeps.nodup, ?_, hkeys, ?_, ?_⟩
  · rw [← hr.pids]
    exact hkeeps.inBlock
  · intro e he e' he' hpid
    have hmem : e'.key ∈ carried r.cfg r.emmPidIn psi := by
      rw [← hkeys]
      exact mem_map_of_mem he'
    obtain ⟨hkey, hone, -⟩ := hsteady e.key (mem_map_of_mem he) e'.key hmem hpid
    cases hfind : findOldEs r.es e' with
    | none =>
      refine absurd ?_ (findOldEs_eq_none.1 hfind)
      rw [← hkey]
      exact mem_map_of_mem he
    | some j =>
      obtain ⟨o, ho, hout⟩ := hkeeps.keep e' he' j hfind
      obtain ⟨o', ho', hokey⟩ := findOldEs_eq_some hfind
      obtain rfl := Option.some.inj (ho.symm.trans ho')
      have hsame : e = o := eq_of_count_one he (mem_of_getElem? ho) (hkey.trans hokey.symm) hone
      rw [hsame, hout]
  · intro e he hold
    rw [hkeys]
    have hmem : e.key ∈ carried r.cfg r.emmPidIn psi := by
      rw [← hkeys]
      exact mem_map_of_mem he
    exact (hsteady e.key hold e.key hmem rfl).2.2

theorem makeWay_frame (r : Remux) (neu : List OutEs) : Frame r (r.makeWay m neu).2 := by
  have hrelease := release_frame m false r
  refine hrelease.trans ⟨rfl, rfl, rfl, rfl, fun h => ⟨?_, h.sctes⟩⟩
  exact flushDropped_owned m _ neu _ 0 h.holds

theorem remapEs_inv (m : Moment) (hr : MapInv idx r) (hsteady : Steady r psi) : MapInv idx (r.remapEs oom m psi).2 ∧
      ((r.remapEs oom m psi).2.es = r.es ∨ Stays r.es (r.remapEs oom m psi).2.es) := by
  unfold remapEs
  split
  · exact ⟨hr, .inl rfl⟩
  rename_i neu hplan
  obtain ⟨hnodup, hin, -, hstays, honce⟩ := remapPlan_spec hr hsteady hplan
  have hway := makeWay_frame m r neu
  have honce' : ∀ e ∈ neu, e.key ∈ ((r.makeWay m neu).2.slots.map Slot.es).map OutEs.key →
      (neu.map OutEs.key).count e.key = 1 := by
    exact honce
  obtain ⟨hes, howned⟩ := migrateSlots_owned oom honce' (hway.owned hr.owned)
  have hes : ((r.makeWay m neu).2.install oom neu).es = neu := hes
  refine ⟨⟨hway.pids.trans hr.pids, ?_, ?_, howned⟩, .inr ?_⟩
  · rw [hes]
    exact hnodup
  · rw [hes]
    exact hin
  · rw [hes]
    exact hstays

theorem forward_frame (r : Remux) (p : Pkt) : Frame r (r.forward m p).2 := by
  unfold forward
  split
  · exact Frame.refl r
  · split
    · exact Frame.refl r
    · split
      · exact Frame.refl r
      · next s hs => exact forwardPacket_frame m r hs p

theorem step_inv (hr : MapInv idx r) {e : RemuxEvent} (he : SteadyStep r e) :
    MapInv idx (r.step oom e).2 ∧ ((r.step oom e).2.es = r.es ∨ Stays r.es (r.step oom e).2.es) := by
  cases e with
  | feed m pmt seq pkt =>
    rw [Remux.step, feed]
    split
    · exact ⟨hr, .inl rfl⟩
    have hwatch : MapInv idx (r.watchSourcePmt oom m pmt).2 ∧
        ((r.watchSourcePmt oom m pmt).2.es = r.es ∨ Stays r.es (r.watchSourcePmt oom m pmt).2.es) := by
      cases pmt with
      | none => exact ⟨hr, .inl rfl⟩
      | some psi => exact remapEs_inv oom m hr he
    have hforward := forward_frame m (r.watchSourcePmt oom m pmt).2 ⟨pkt, tspackPid pkt, seq⟩
    refine ⟨hforward.mapInv hwatch.1, ?_⟩
    have hes : ((r.watchSourcePmt oom m pmt).2.forward m ⟨pkt, tspackPid pkt, seq⟩).2.es =
      (r.watchSourcePmt oom m pmt).2.es := hforward.es
    rw [hes]
    exact hwatch.2
  | release m all =>
    have hframe := release_frame m all r
    exact ⟨hframe.mapInv hr, .inl hframe.es⟩
  | setHold =>
    have hframe := setHold_frame oom r
    exact ⟨hframe.mapInv hr, .inl hframe.es⟩
  | setTimemap => exact ⟨{ hr with }, .inl rfl⟩

theorem new_inv {oom : Oom} {cfg : TvConfig} (hfits : Fits cfg psi)
    (hnew : Remux.new oom cfg (outProgramPids idx) psi = some r) : MapInv idx r := by
  have hcounted := @buildEsMap_counted cfg (outProgramPids idx) rfl psi.emmPid psi
  rw [Remux.new] at hnew
  split at hnew
  · cases hnew
  simp only [Option.some.injEq] at hnew
  generalize buildEsMap cfg (outProgramPids idx) psi.emmPid psi = m at hcounted hnew
  obtain ⟨hes, hhold, hscte⟩ := newSlots_owned oom cfg m.es (Pool.empty_owned (α := Scte35stamp))
  rw [append_nil] at hscte
  have hr : r.es = m.es := by
    rw [← hnew]
    exact hes
  have hlen := hcounted.length_keys
  have hle := hcounted.length_le
  refine ⟨by rw [← hnew], ?_, ?_, ?_⟩
  · rw [hr, hcounted.outPids]
    exact nodup_range'
  · intro e he
    rw [hr] at he
    have hmem : e.outPid ∈ m.es.map OutEs.outPid := mem_map_of_mem he
    rw [hcounted.outPids, mem_range'_1] at hmem
    rcases hfits with ⟨v, hv, hvideo⟩ | hfew
    · rw [if_pos (any_eq_true.2 ⟨v, hv, hvideo⟩)] at hmem
      exact ⟨hmem.1, by omega⟩
    · split at hmem
      · exact ⟨hmem.1, by omega⟩
      · exact ⟨by omega, by omega⟩
  · rw [← hnew]
    refine ⟨?_, hscte⟩
    rw [hhold]
    exact Pool.empty_owned

theorem SteadyRun.inv {oom : Oom} {cfg : TvConfig} (h : SteadyRun oom cfg idx psi r) : MapInv idx r := by
  induction h with
  | start hfits hnew => exact new_inv hfits hnew
  | step _ e he ih => exact (step_inv oom ih he).1

/-- In every state of a run that meets the condition the PIDs of a program are distinct, its own and apart
    from the AIT, every queue and buffer belongs to one slot, and the next call keeps the PIDs of what
    stays. -/
theorem pid_map_sound {oom : Oom} {cfg : TvConfig} {idx : Nat} (hidx : idx < mptsMaxPrograms) {psi : Psi}
    {r : Remux} (h : SteadyRun oom cfg idx psi r) : PidsOk idx r.es ∧ HeapOwned r.slots r.heap ∧
      ∀ e, SteadyStep r e → (r.step oom e).2.es = r.es ∨ Stays r.es (r.step oom e).2.es :=
  ⟨pidsOk_of_inBlock hidx h.inv.nodup h.inv.inBlock, h.inv.owned, fun _ he => (step_inv oom h.inv he).2⟩

/-! ## Runs of their own -/

/-- Allocations do not fail. -/
def noOom : Oom := ⟨fun _ => false, fun _ => false⟩

/-- A call that sees no clock and leaves the stamps as they are. -/
def quiet : Moment where
  clock := fun _ => none
  lead := 0
  restamp := fun pkt => pkt.drop 4
  stamp := fun _ => none
  delta90k := 0
  growFails := fun _ => false

/-- The clock of the output is followed, and the source's own CA data are passed on. -/
def regenerating : TvConfig := ⟨.regenerate, false, false, false⟩

def videoEs (pid : Nat) : PsiEs := ⟨pid, 0x1B, .video, .h264, 0⟩
def audioEs (pid : Nat) : PsiEs := ⟨pid, 0x0F, .audio, .aac, 0⟩

/-- A PMT with the PCR on the PID 0x200. -/
def pmtOf (es : List PsiEs) : Psi := ⟨es, 0x200, 0x20, 0, 0⟩

/-- A packet of the PID 0, as the source's PAT and PMT come in. -/
def tablePacket : List UInt8 := [0x47, 0x00, 0x00, 0x10]

/-- A PMT that comes in on a packet. -/
def pmtEvent (es : List PsiEs) : RemuxEvent := .feed quiet (some (pmtOf es)) 0 tablePacket

/-- A program after a second audio has come. -/
def grown : Option Remux :=
  (Remux.new noOom regenerating (outProgramPids 0) (pmtOf [videoEs 0x200, audioEs 0x201])).map fun r =>
    (((r.setHold noOom).step noOom (pmtEvent [audioEs 0x202, videoEs 0x200, audioEs 0x201])).2)

theorem pid_map_sound_grown : ∃ r, grown = some r ∧ r.es.map OutEs.outPid = [0x100, 0x102, 0x101] ∧ PidsOk 0 r.es ∧
      HeapOwned r.slots r.heap ∧
      ∀ e, SteadyStep r e → (r.step noOom e).2.es = r.es ∨ Stays r.es (r.step noOom e).2.es := by
  have hstart : SteadyRun noOom regenerating 0 (pmtOf [videoEs 0x200, audioEs 0x201]) _ :=
    .start (.inl ⟨videoEs 0x200, by simp [pmtOf], by decide⟩) rfl
  have hrun := (hstart.step .setHold trivial).step
    (pmtEvent [audioEs 0x202, videoEs 0x200, audioEs 0x201]) (show Steady _ _ by decide)
  exact ⟨_, rfl, by decide, pid_map_sound (by decide) hrun⟩

/-- Thirty-one audio streams without a video reach the PID of the AIT, and a PID that a PMT lists twice has
    its two entries on one PID with one queue. -/
theorem pid_map_clashes : ((Remux.new noOom regenerating (outProgramPids 0)
        (pmtOf ((range 31).map fun i => audioEs (0x200 + i)))).map fun r =>
      r.es.any fun e => e.outPid = (outProgramPids 0).aitPid) = some true ∧
    ((Remux.new noOom regenerating (outProgramPids 0) (pmtOf [videoEs 0x200, audioEs 0x201])).map fun r =>
      let r' := ((r.setHold noOom).step noOom (pmtEvent [videoEs 0x200, audioEs 0x201, audioEs 0x201])).2
      (r'.es.map OutEs.outPid, holdRefs r'.slots)) = some ([0x100, 0x101, 0x101], [0, 1, 1]) := by
  decide +kernel

end DvbIpiTools.Tvhead
