import DvbIpiTools.Net.Jitbuf

set_option autoImplicit false

/-! # Runs of the jitter buffer

A run is a sequence of `jitbuf_push` and `jitbuf_pop` calls on a buffer made with JITBUF_AUTO. It keeps what
was pushed and what left the buffer through `jitbuf_pop`. -/

namespace DvbIpiTools.Net

open Demux BeUtil List

namespace Jitbuf

/-! ## What one push does -/

/-- The datagrams the buffer has an account of, those already popped aside. -/
def accounted (j : Jitbuf) : Nat := j.count + j.st.late + j.st.dup + j.st.dropped + j.flushed

/-- A length `jitbuf_push` takes. -/
def Fits (d : List UInt8) : Prop := d ≠ [] ∧ d.length ≤ jitbufMaxDgram

/-- What pushing the datagram of slot `s` may change. -/
structure Pushed (j j' : Jitbuf) (s : Slot) : Prop where
  slots : ∀ {i t}, j'.slots i = some t → j.slots i = some t ∨ (t = s ∧ Fits s.data)
  accounted_eq : j'.accounted = j.accounted + 1
  delay : j'.delayNs = j.delayNs
  released : j'.released = j.released
  resync_le : j.st.resync ≤ j'.st.resync
  /-- Once something has been popped, only a resynchronisation moves the start of the window. -/
  start : j.mode = .rtp → j.released = true → j'.st.resync = j.st.resync → j'.nextSeq = j.nextSeq

theorem Pushed.drop (j : Jitbuf) (s : Slot) : Pushed j j.drop s := by
  refine ⟨fun h => .inl h, ?_, rfl, rfl, le_rfl, fun _ _ _ => rfl⟩
  simp only [accounted, Jitbuf.drop]
  omega

variable {s : Slot}

theorem Pushed.rtpStore (j : Jitbuf) (hs : Fits s.data) (diff : Nat) : Pushed j (j.rtpStore s diff) s := by
  unfold Jitbuf.rtpStore
  split
  · refine ⟨fun h => .inl h, ?_, rfl, rfl, le_rfl, fun _ _ _ => rfl⟩
    simp only [accounted]
    omega
  refine ⟨?_, ?_, rfl, rfl, ?_, fun _ _ _ => rfl⟩
  · intro i t ht
    simp only [Function.update_apply] at ht
    split at ht
    · exact .inr ⟨(Option.some.inj ht).symm, hs⟩
    · exact .inl ht
  · simp only [accounted]
    split
    · omega
    · dsimp only
      omega
  · simp only
    split <;> exact le_rfl

variable {j : Jitbuf}

/-- A resynchronisation in front of the push empties the buffer and counts what it throws away. -/
theorem Pushed.of_resync {j' : Jitbuf} {h : RtpHdr} (hp : Pushed (j.rtpResync h) j' s) : Pushed j j' s := by
  refine ⟨?_, ?_, hp.delay, hp.released, ?_, ?_⟩
  · intro i t ht
    rcases hp.slots ht with hold | hnew
    · cases hold
    · exact .inr hnew
  · have hacc := hp.accounted_eq
    simp only [accounted, rtpResync] at hacc ⊢
    omega
  · have hle := hp.resync_le
    simp only [rtpResync] at hle
    omega
  · intro _ _ heq
    have hle := hp.resync_le
    simp only [rtpResync] at hle
    omega

theorem Pushed.rtpFar (j : Jitbuf) (h : RtpHdr) (hs : Fits s.data) : Pushed j (j.rtpFar h s) s := by
  unfold Jitbuf.rtpFar
  dsimp only
  split
  · have hp := Pushed.drop { j with farRun := j.farRun + 1 } s
    exact { hp with }
  · have hp := (Pushed.rtpStore ({ j with farRun := j.farRun + 1 }.rtpResync h) hs 0).of_resync
    exact { hp with }

theorem Pushed.rtpPlace (j : Jitbuf) (h : RtpHdr) (hs : Fits s.data) : Pushed j (j.rtpPlace h s) s := by
  unfold Jitbuf.rtpPlace
  dsimp only
  split
  · split
    · -- the window is extended to the front, which only an unreleased one is
      rename_i hfit
      rw [Bool.and_eq_true, Bool.not_eq_true'] at hfit
      have hp := Pushed.rtpStore { j with
        nextSeq := h.seq
        span := j.span + (65536 - (h.seq + 65536 - j.nextSeq) % 65536)
        skip := 0 } hs 0
      refine { hp with start := ?_ }
      intro _ hrel
      rw [hfit.1] at hrel
      cases hrel
    · split
      · refine ⟨fun h => .inl h, ?_, rfl, rfl, le_rfl, fun _ _ _ => rfl⟩
        simp only [accounted]
        omega
      · exact Pushed.rtpFar j h hs
  · split
    · exact Pushed.rtpFar j h hs
    · have hp := Pushed.rtpStore { j with farRun := 0 } hs ((h.seq + 65536 - j.nextSeq) % 65536)
      exact { hp with }

variable {d : List UInt8}

theorem Pushed.rtpPush (j : Jitbuf) (hd : Fits d) (nowNs id : Nat) :
    Pushed j (j.rtpPush d nowNs id) ⟨nowNs, beGet d 2 2, d, id⟩ := by
  unfold Jitbuf.rtpPush
  split
  · exact Pushed.drop j _
  split
  · exact Pushed.drop j _
  · rename_i h hp
    rw [← rtpParseHeader_seq hp]
    split
    · exact (Pushed.rtpPlace (j.rtpResync h) h hd).of_resync
    · exact Pushed.rtpPlace j h hd

theorem rtpStore_mode (j : Jitbuf) (s : Slot) (diff : Nat) : (j.rtpStore s diff).mode = j.mode := by
  unfold rtpStore
  split <;> rfl

theorem rtpFar_mode (j : Jitbuf) (h : RtpHdr) (s : Slot) : (j.rtpFar h s).mode = j.mode := by
  unfold rtpFar
  dsimp only
  split
  · rfl
  · exact rtpStore_mode _ s 0

theorem rtpPlace_mode (j : Jitbuf) (h : RtpHdr) (s : Slot) : (j.rtpPlace h s).mode = j.mode := by
  unfold rtpPlace
  dsimp only
  split
  · split
    · exact rtpStore_mode _ s 0
    · split
      · rfl
      · exact rtpFar_mode j h s
  · split
    · exact rtpFar_mode j h s
    · exact rtpStore_mode _ s _

theorem rtpPush_mode (j : Jitbuf) (d : List UInt8) (nowNs id : Nat) : (j.rtpPush d nowNs id).mode = j.mode := by
  unfold rtpPush
  split
  · rfl
  · split
    · rfl
    · rw [rtpPlace_mode]
      split <;> rfl

/-- The buffer `jitbuf_push` hands to `rtp_push`. -/
inductive Decided (j : Jitbuf) (d : List UInt8) : Jitbuf → Prop
  | already : j.mode = .rtp → Decided j d j
  | first (h : RtpHdr) : j.mode = .unset → rtpParseHeader d = some h →
      Decided j d { j with mode := .rtp, nextSeq := h.seq, ssrc := h.ssrc }

theorem Decided.mode {k : Jitbuf} (h : Decided j d k) : k.mode = .rtp := by
  cases h with
  | already hm => exact hm
  | first hd hm hp => rfl

theorem decideMode_cases (j : Jitbuf) (d : List UInt8) :
    (j.decideMode d).mode = .fifo ∨ Decided j d (j.decideMode d) := by
  unfold decideMode
  split
  · rename_i hunset
    split
    · exact .inl rfl
    · split
      · exact .inl rfl
      · rename_i h hp
        exact .inr (.first h hunset hp)
  · rename_i hunset
    cases hm : j.mode with
    | unset => exact absurd hm hunset
    | fifo => exact .inl rfl
    | rtp => exact .inr (.already hm)

theorem fifoPush_mode (j : Jitbuf) (d : List UInt8) (nowNs id : Nat) : (j.fifoPush d nowNs id).mode = j.mode := by
  unfold fifoPush
  split <;> rfl

/-- A push that does not lead to FIFO mode drops the datagram or is an RTP push. -/
theorem push_cases {nowNs id : Nat} (h : (j.push d nowNs id).mode ≠ .fifo) : j.push d nowNs id = j.drop ∨
      (Fits d ∧ ∃ k, Decided j d k ∧ j.push d nowNs id = k.rtpPush d nowNs id) := by
  unfold push at h ⊢
  by_cases hlen : d.length = 0 ∨ d.length > jitbufMaxDgram
  · exact .inl (if_pos hlen)
  rw [if_neg hlen] at h ⊢
  rw [not_or] at hlen
  have hfits : Fits d := ⟨fun hnil => hlen.1 (by rw [hnil, length_nil]), not_lt.1 hlen.2⟩
  rcases decideMode_cases j d with hfifo | hdec
  · rw [if_neg (by rw [hfifo]; simp), fifoPush_mode] at h
    exact absurd hfifo h
  · rw [if_pos hdec.mode]
    exact .inr ⟨hfits, j.decideMode d, hdec, rfl⟩

/-! ## What one pop does -/

/-- A pop leaves everything queued, or takes the front datagram when it is due. -/
theorem pop_cases (j : Jitbuf) (cap nowNs : Nat) :
    (j.pop cap nowNs = (none, j.advanceSkip) ∧ ∀ s, j.front = some s → nowNs < j.due s) ∨
      ∃ s, j.front = some s ∧ j.due s ≤ nowNs ∧
        j.pop cap nowNs = if s.data.length ≤ cap then (some s, j.release) else (none, j.release.drop) := by
  unfold pop
  cases hf : j.front with
  | none => exact .inl ⟨rfl, fun s hs => absurd hs (by simp)⟩
  | some s =>
    by_cases hdue : j.due s > nowNs
    · refine .inl ⟨if_pos hdue, ?_⟩
      intro t ht
      rwa [← Option.some.inj ht]
    · exact .inr ⟨s, rfl, not_lt.1 hdue, if_neg hdue⟩

theorem release_mode (j : Jitbuf) : j.release.mode = j.mode := by
  unfold release
  split <;> rfl

theorem advanceSkip_mode (j : Jitbuf) : j.advanceSkip.mode = j.mode := by
  unfold advanceSkip
  split <;> rfl

theorem pop_mode (j : Jitbuf) (cap nowNs : Nat) : (j.pop cap nowNs).2.mode = j.mode := by
  rcases pop_cases j cap nowNs with ⟨hp, -⟩ | ⟨s, -, -, hp⟩
  · rw [hp, advanceSkip_mode]
  · rw [hp]
    split
    · exact release_mode j
    · exact release_mode j

theorem nextNs_eq_zero {nowNs : Nat} : j.nextNs nowNs = 0 ↔ ∃ s, j.front = some s ∧ j.due s ≤ nowNs := by
  unfold nextNs
  cases hf : j.front with
  | none => simp
  | some s =>
    simp only [Option.some.injEq, exists_eq_left']
    by_cases hdue : j.due s ≤ nowNs
    · rw [if_pos hdue]
      exact iff_of_true rfl hdue
    have hlt : j.due s < 2 ^ 64 := Nat.mod_lt _ (by decide)
    simp only [hdue, iff_false]
    intro hzero
    have hdvd := Int.dvd_of_bmod_eq_zero hzero
    omega

/-! ## Runs -/

/-- A call of the interface. -/
inductive Event where
  | push (dgram : List UInt8) (nowNs : Nat)
  | pop (cap nowNs : Nat)

/-- A datagram that left the buffer in `jitbuf_pop`: the number of resynchronisations until then, and
whether the caller got it (it does not when it is longer than `cap`). -/
structure Popped where
  slot : Slot
  nowNs : Nat
  epoch : Nat
  returned : Bool

/-- The buffer with everything pushed and popped so far. -/
structure Run where
  buf : Jitbuf
  sent : List (List UInt8 × Nat)
  out : List Popped

/-- What a pop takes out of the buffer. -/
def taken (j : Jitbuf) (cap nowNs : Nat) : List Popped := match j.front with
  | none => []
  | some s =>
    if j.due s ≤ nowNs then [⟨s, nowNs, j.st.resync, decide ((j.pop cap nowNs).1 = some s)⟩] else []

/-- One call. A pushed datagram carries its index in `sent`. -/
def Run.step (r : Run) : Event → Run
  | .push d nowNs =>
    { r with buf := r.buf.push d nowNs r.sent.length, sent := r.sent ++ [(d, nowNs)] }
  | .pop cap nowNs =>
    { r with buf := (r.buf.pop cap nowNs).2, out := r.out ++ r.buf.taken cap nowNs }

/-- A sequence of calls on a new buffer. -/
def run (j : Jitbuf) (es : List Event) : Run := es.foldl Run.step ⟨j, [], []⟩

/-- Sequence numbers that follow each other in the window, unless a resynchronisation lies between. -/
def Popped.Before (a b : Popped) : Prop := a.epoch ≤ b.epoch ∧
    (a.epoch = b.epoch → ∃ k, 1 ≤ k ∧ k ≤ jitbufSlots ∧ b.slot.seq = (a.slot.seq + k) % 65536)

/-- What holds of a run whose buffer is not in FIFO mode. -/
structure Run.Sound (delayNs : Nat) (r : Run) : Prop where
  window : r.buf.Window
  fresh : r.buf.mode = .unset → r.buf.span = 0 ∧ r.out = []
  delay : r.buf.delayNs = delayNs
  /-- Queued datagrams are pushed ones, each pushed once. -/
  queued : ∀ {i s}, r.buf.slots i = some s → r.sent[s.id]? = some (s.data, s.atNs) ∧ Fits s.data
  queued_inj : ∀ {i k s t}, r.buf.slots i = some s → r.buf.slots k = some t → s.id = t.id → i = k
  popped : ∀ o ∈ r.out, r.sent[o.slot.id]? = some (o.slot.data, o.slot.atNs) ∧
    (o.slot.atNs + delayNs) % 2 ^ 64 ≤ o.nowNs
  popped_nodup : (r.out.map (·.slot.id)).Nodup
  popped_queued : ∀ o ∈ r.out, ∀ {i s}, r.buf.slots i = some s → s.id ≠ o.slot.id
  ordered : r.out.IsChain Popped.Before
  /-- The window starts right behind the last datagram popped. -/
  last : ∀ o ∈ r.out.getLast?, r.buf.released = true ∧ o.epoch ≤ r.buf.st.resync ∧
    (o.epoch = r.buf.st.resync → r.buf.nextSeq = (o.slot.seq + 1) % 65536)
  tally : r.sent.length = r.out.countP (·.returned) + r.buf.accounted

namespace Run

theorem Sound.pushed {delayNs : Nat} {r : Run} (hr : r.Sound delayNs) (hm : r.buf.mode ≠ .fifo) {d : List UInt8}
    {nowNs seq : Nat} {j' : Jitbuf} (hw : j'.Window) (hp : Pushed r.buf j' ⟨nowNs, seq, d, r.sent.length⟩)
    (hfresh : j'.mode = .unset → j'.span = 0 ∧ r.out = []) :
    Sound delayNs { r with buf := j', sent := r.sent ++ [(d, nowNs)] } := by
  have hold : ∀ {n : Nat} {x : List UInt8 × Nat}, r.sent[n]? = some x → (r.sent ++ [(d, nowNs)])[n]? = some x := by
    intro n x hx
    rw [getElem?_append_left (List.getElem?_eq_some_iff.1 hx).1, hx]
  have hlt : ∀ {n : Nat} {x : List UInt8 × Nat}, r.sent[n]? = some x → n < r.sent.length :=
    fun hx => (List.getElem?_eq_some_iff.1 hx).1
  refine ⟨hw, hfresh, hp.delay.trans hr.delay, ?_, ?_, ?_, hr.popped_nodup, ?_, hr.ordered, ?_, ?_⟩
  · intro i s hs
    rcases hp.slots hs with hs' | ⟨rfl, hfits⟩
    · exact ⟨hold (hr.queued hs').1, (hr.queued hs').2⟩
    · exact ⟨getElem?_concat_length, hfits⟩
  · -- the pushed datagram has the only new id, and its place follows from its sequence number
    intro i k s t hs ht hid
    obtain ⟨-, -, -, -, hi⟩ := hw.place hs
    obtain ⟨-, -, -, -, hk⟩ := hw.place ht
    rcases hp.slots hs with hs' | ⟨rfl, -⟩
    · rcases hp.slots ht with ht' | ⟨rfl, -⟩
      · exact hr.queued_inj hs' ht' hid
      · exact absurd (hlt (hr.queued hs').1) (by rw [hid]; exact lt_irrefl _)
    · rcases hp.slots ht with ht' | ⟨rfl, -⟩
      · exact absurd (hlt (hr.queued ht').1) (by rw [← hid]; exact lt_irrefl _)
      · rw [hi, hk]
  · intro o ho
    exact ⟨hold (hr.popped o ho).1, (hr.popped o ho).2⟩
  · intro o ho i s hs
    rcases hp.slots hs with hs' | ⟨rfl, -⟩
    · exact hr.popped_queued o ho hs'
    · exact (hlt (hr.popped o ho).1).ne'
  · intro o ho
    obtain ⟨hrel, hle, hnext⟩ := hr.last o ho
    have hrtp : r.buf.mode = .rtp := by
      cases hmode : r.buf.mode with
      | unset =>
        rw [(hr.fresh hmode).2] at ho
        cases ho
      | fifo => exact absurd hmode hm
      | rtp => rfl
    refine ⟨hp.released.trans hrel, hle.trans hp.resync_le, ?_⟩
    intro heq
    have hsame : j'.st.resync = r.buf.st.resync := le_antisymm (heq ▸ hle) hp.resync_le
    rw [← hnext (heq.trans hsame)]
    exact hp.start hrtp hrel hsame
  · have hacc := hp.accounted_eq
    have htally := hr.tally
    simp only [length_append, length_singleton]
    omega

variable {delayNs : Nat} {r : Run}

theorem Sound.push (hr : r.Sound delayNs) (hm : r.buf.mode ≠ .fifo) {d : List UInt8} {nowNs : Nat}
    (hm' : (r.step (.push d nowNs)).buf.mode ≠ .fifo) : (r.step (.push d nowNs)).Sound delayNs := by
  rcases push_cases hm' with hdrop | ⟨hfits, k, hk, hpush⟩
  · have hw : r.buf.drop.Window := { hr.window with }
    have hsound := hr.pushed hm hw (Pushed.drop r.buf ⟨nowNs, 0, d, r.sent.length⟩) hr.fresh
    rwa [← hdrop] at hsound
  have hunset : (k.rtpPush d nowNs r.sent.length).mode ≠ .unset := by
    rw [rtpPush_mode, hk.mode]
    simp
  have hp := Pushed.rtpPush k hfits nowNs r.sent.length
  rw [show r.step (.push d nowNs) = { r with
    buf := k.rtpPush d nowNs r.sent.length
    sent := r.sent ++ [(d, nowNs)] } from by rw [← hpush]; rfl]
  cases hk with
  | already hrtp => exact hr.pushed hm (hr.window.rtpPush d nowNs _) hp (fun hu => absurd hu hunset)
  | first h hmode hparse =>
    have hspan := (hr.fresh hmode).1
    have hskip : r.buf.skip = 0 := Nat.le_zero.1 (hspan ▸ hr.window.skip_le)
    have hnone := slots_eq_none_of_span hr.window hspan
    have hcount : r.buf.count = 0 := by rw [hr.window.count_eq, used_eq_empty hnone, Finset.card_empty]
    have hw : Window { r.buf with mode := .rtp, nextSeq := h.seq, ssrc := h.ssrc } :=
      .of_empty (rtpParseHeader_seq_lt hparse) hspan hskip hnone hcount
    have hp' : Pushed r.buf _ ⟨nowNs, beGet d 2 2, d, r.sent.length⟩ :=
      { hp with start := fun hrtp => absurd (hmode.symm.trans hrtp) (by simp) }
    exact hr.pushed hm (hw.rtpPush d nowNs _) hp' (fun hu => absurd hu hunset)

variable (hr : r.Sound delayNs)

include hr

theorem Sound.pop_none : Sound delayNs { r with buf := r.buf.advanceSkip } := by
  have hw := hr.window.advanceSkip
  have hfresh : r.buf.advanceSkip.mode = .unset → r.buf.advanceSkip.span = 0 ∧ r.out = [] := by
    intro hu
    rw [advanceSkip_mode] at hu
    have hsame : r.buf.advanceSkip = r.buf := if_neg (by rw [hu]; simp)
    rw [hsame]
    exact hr.fresh hu
  unfold Jitbuf.advanceSkip at hw hfresh ⊢
  split
  case isFalse => exact hr
  case isTrue hrtp =>
    rw [if_pos hrtp] at hw hfresh
    exact { hr with window := hw, fresh := hfresh }

/-- What taking the front datagram out changes, whether the caller gets it or not. -/
theorem Sound.pop_some (hm : r.buf.mode = .rtp) {s : Slot}
    (hf : r.buf.front = some s) {nowNs : Nat} (hdue : r.buf.due s ≤ nowNs) {b : Bool} {j' : Jitbuf}
    (hj : j' = if b then r.buf.release else r.buf.release.drop) :
    Sound delayNs { r with buf := j', out := r.out ++ [⟨s, nowNs, r.buf.st.resync, b⟩] } := by
  obtain ⟨d, hd, hs, hspan, hseq, hcount⟩ := hr.window.front_some hm hf
  have hrel : r.buf.release.Window := hr.window.release hm hf
  have hw : j'.Window := by
    cases b with
    | true => rw [hj]; exact hrel
    | false => rw [hj]; exact { hrel with }
  have hmode : j'.mode = .rtp := by
    cases b with
    | _ => rw [hj]; exact (release_mode r.buf).trans hm
  have hslots : j'.slots = Function.update r.buf.slots ((r.buf.nextSeq + d) % 65536 % jitbufSlots) none := by
    cases b <;> simp [hj, Jitbuf.release, Jitbuf.drop, hm, hd]
  have hnext : j'.nextSeq = (r.buf.nextSeq + d + 1) % 65536 := by
    cases b <;> simp [hj, Jitbuf.release, Jitbuf.drop, hm, hd]
  have hrest : j'.released = true ∧ j'.st.resync = r.buf.st.resync ∧ j'.delayNs = r.buf.delayNs := by
    cases b <;> simp [hj, Jitbuf.release, Jitbuf.drop, hm]
  have hacc : j'.accounted + (if b then 1 else 0) = r.buf.accounted := by
    cases b <;> simp [hj, Jitbuf.release, Jitbuf.drop, hm, accounted] <;> omega
  -- the slots that stay are other slots than the one taken
  have hstay : ∀ {i t}, j'.slots i = some t → r.buf.slots i = some t ∧ t.id ≠ s.id := by
    intro i t ht
    rw [hslots, Function.update_apply] at ht
    split at ht
    · cases ht
    · rename_i hne
      exact ⟨ht, fun hid => hne (hr.queued_inj ht hs hid)⟩
  refine ⟨hw, fun hu => absurd (hmode.symm.trans hu) (by simp), hrest.2.2.trans hr.delay, ?_, ?_, ?_, ?_, ?_, ?_,
    ?_, ?_⟩
  · intro i t ht
    exact hr.queued (hstay ht).1
  · intro i k t u ht hu
    exact hr.queued_inj (hstay ht).1 (hstay hu).1
  · intro o ho
    rcases mem_append.1 ho with ho | ho
    · exact hr.popped o ho
    · rw [mem_singleton.1 ho, ← hr.delay]
      exact ⟨(hr.queued hs).1, hdue⟩
  · rw [map_append, map_singleton, nodup_append]
    refine ⟨hr.popped_nodup, nodup_singleton _, ?_⟩
    intro a ha b hb
    obtain ⟨o, ho, rfl⟩ := mem_map.1 ha
    rw [mem_singleton.1 hb]
    exact (hr.popped_queued o ho hs).symm
  · intro o ho i t ht
    rcases mem_append.1 ho with ho | ho
    · exact hr.popped_queued o ho (hstay ht).1
    · rw [mem_singleton.1 ho]
      exact (hstay ht).2
  · rw [isChain_append]
    refine ⟨hr.ordered, isChain_singleton _, ?_⟩
    intro o ho p hp
    obtain rfl : _ = p := by simpa using hp
    obtain ⟨-, hle, hstart⟩ := hr.last o ho
    refine ⟨hle, ?_⟩
    intro heq
    have hslotsLe := hr.window.span_le
    refine ⟨d + 1, by omega, by omega, ?_⟩
    dsimp only at heq ⊢
    omega
  · intro o ho
    obtain rfl : _ = o := by simpa using ho
    refine ⟨hrest.1, hrest.2.1.ge, ?_⟩
    intro _
    dsimp only
    omega
  · have htally := hr.tally
    simp only [countP_append, countP_singleton]
    omega

theorem Sound.pop (hm : r.buf.mode ≠ .fifo) (cap nowNs : Nat) : (r.step (.pop cap nowNs)).Sound delayNs := by
  simp only [step]
  rcases pop_cases r.buf cap nowNs with ⟨hp, hnot⟩ | ⟨s, hf, hdue, hp⟩
  · have htaken : r.buf.taken cap nowNs = [] := by
      unfold taken
      split
      · rfl
      · rename_i s hs
        exact if_neg (not_le.2 (hnot s hs))
    rw [htaken, hp, append_nil]
    exact hr.pop_none
  have hrtp : r.buf.mode = .rtp := by
    cases hmode : r.buf.mode with
    | fifo => exact absurd hmode hm
    | rtp => rfl
    | unset =>
      have hnone := slots_eq_none_of_span hr.window (hr.fresh hmode).1
      have hcount : r.buf.count = 0 := by rw [hr.window.count_eq, used_eq_empty hnone, Finset.card_empty]
      rw [front, if_pos hcount] at hf
      cases hf
  have htaken : r.buf.taken cap nowNs = [⟨s, nowNs, r.buf.st.resync, decide (s.data.length ≤ cap)⟩] := by
    simp only [taken, hf, if_pos hdue, hp]
    by_cases hcap : s.data.length ≤ cap
    · simp [hcap]
    · simp [hcap]
  rw [htaken]
  refine hr.pop_some hrtp hf hdue ?_
  rw [hp]
  by_cases hcap : s.data.length ≤ cap
  · simp [hcap]
  · simp [hcap]

omit hr

theorem step_mode {e : Event} (h : (r.step e).buf.mode ≠ .fifo) : r.buf.mode ≠ .fifo := by
  cases e with
  | pop cap nowNs => rwa [step, pop_mode] at h
  | push d nowNs =>
    rcases push_cases h with hdrop | ⟨-, k, hk, -⟩
    · simp only [step, hdrop] at h
      exact h
    · cases hk with
      | already hm => simp [hm]
      | first hd hm hp => simp [hm]

theorem Sound.step {delayNs : Nat} {r : Run} (hr : r.Sound delayNs) (e : Event)
    (hm : (r.step e).buf.mode ≠ .fifo) : (r.step e).Sound delayNs := by
  cases e with
  | push d nowNs => exact hr.push (step_mode hm) hm
  | pop cap nowNs => exact hr.pop (step_mode hm) cap nowNs

end Run

variable {delayMs : Nat}

theorem new_sound (hj : new delayMs false = some j) : Run.Sound (delayMs * 1000000) ⟨j, [], []⟩ := by
  unfold new at hj
  split at hj
  · cases hj
  cases hj
  refine ⟨.of_empty (Nat.zero_lt_succ _) rfl rfl (fun _ => rfl) rfl, fun _ => ⟨rfl, rfl⟩, rfl, ?_, ?_, ?_,
    nodup_nil, ?_, isChain_nil, ?_, rfl⟩
  · intro i s hs
    cases hs
  · intro i k s t hs
    cases hs
  · intro o ho
    cases ho
  · intro o ho
    cases ho
  · intro o ho
    cases ho

theorem run_keeps_sound (hj : new delayMs false = some j) (es : List Event) (hm : (run j es).buf.mode ≠ .fifo) :
    (run j es).Sound (delayMs * 1000000) := by
  induction es using reverseRecOn with
  | nil => exact new_sound hj
  | append_singleton es e ih =>
    rw [run, foldl_concat] at hm ⊢
    exact (ih (Run.step_mode hm)).step e hm

/-- The buffer in RTP mode, over every sequence of calls. -/
theorem run_rtp {j : Jitbuf} (hj : new delayMs false = some j) (es : List Event) (hm : (run j es).buf.mode = .rtp) :
    (run j es).buf.Window ∧ (run j es).out.IsChain Popped.Before ∧ ((run j es).out.map (·.slot.id)).Nodup ∧
    (∀ o ∈ (run j es).out, (run j es).sent[o.slot.id]? = some (o.slot.data, o.slot.atNs) ∧
      (o.slot.atNs + delayMs * 1000000) % 2 ^ 64 ≤ o.nowNs) ∧ (∀ cap nowNs, jitbufMaxDgram ≤ cap →
      ((∃ s, ((run j es).buf.pop cap nowNs).1 = some s ∧ s.data ≠ []) ↔ (run j es).buf.nextNs nowNs = 0)) ∧
    (run j es).sent.length = (run j es).out.countP (·.returned) + (run j es).buf.count +
      (run j es).buf.st.late + (run j es).buf.st.dup + (run j es).buf.st.dropped + (run j es).buf.flushed := by
  have hr := run_keeps_sound hj es (by rw [hm]; simp)
  refine ⟨hr.window, hr.ordered, hr.popped_nodup, hr.popped, ?_, ?_⟩
  · intro cap nowNs hcap
    rw [nextNs_eq_zero]
    constructor
    · rintro ⟨s, hs, -⟩
      rcases pop_cases (run j es).buf cap nowNs with ⟨hp, -⟩ | ⟨t, hf, hdue, -⟩
      · rw [hp] at hs
        cases hs
      · exact ⟨t, hf, hdue⟩
    rintro ⟨s, hf, hdue⟩
    rcases pop_cases (run j es).buf cap nowNs with ⟨-, hnot⟩ | ⟨t, hft, -, hp⟩
    · exact absurd (hnot s hf) (not_lt.2 hdue)
    · obtain ⟨d, -, hs, -⟩ := hr.window.front_some hm hft
      have hfits := (hr.queued hs).2
      rw [hp, if_pos (hfits.2.trans hcap)]
      exact ⟨t, rfl, hfits.1⟩
  · have htally := hr.tally
    simp only [accounted] at htally
    omega

/-- Two datagrams that arrive in the wrong order are popped in the right one. -/
theorem run_rtp_reordered :
    let j : Jitbuf := { delayNs := 1000000, mode := .unset }
    let d (seq : UInt8) : List UInt8 := [0x80, 33, 0, seq, 0, 0, 0, 0, 0, 0, 0, 1, 0x47]
    let es := [Event.push (d 6) 0, .push (d 5) 10, .pop 1500 1000010, .pop 1500 1000010]
    (run j es).buf.mode = .rtp ∧ (run j es).out.map (·.slot.seq) = [5, 6] ∧
      (run j es).out.IsChain Popped.Before ∧ (run j es).sent.length = 2 := by
  intro j d es
  have hm : (run j es).buf.mode = .rtp := by decide
  exact ⟨hm, by decide, (@run_rtp 1 j rfl es hm).2.1, by decide⟩

end Jitbuf

end DvbIpiTools.Net
