import DvbIpiTools.Net.Rtmp.Reassembly

set_option autoImplicit false

/-! # What a receiver delivers

The bytes of a conforming sender, cut in any way, bring its messages out in the order of their completion. A message with no
payload ends with its header, and it may take the byte behind it to see that. -/

namespace DvbIpiTools.Net.Rtmp

open List

/-- The messages are delivered: all of them, or all but a last one without payload, which comes out with whatever byte is next. -/
structure Session.Delivers (s : Session) (ms : List Message) (s' : Session) : Prop where
  now : s'.delivered = s.delivered ++ ms ∨
    ∃ ms' m, ms = ms' ++ [m] ∧ m.payload = [] ∧ s'.delivered = s.delivered ++ ms'
  next : ∀ b, ∃ s'', s'.feed plenty [b] = .ok s'' ∧ s''.delivered = s.delivered ++ ms

section
variable {st st' : Sender} {s s' s'' : Session} {ms ms' : List Message}

theorem Sender.Sim.feed_byte (h : st.Sim s) (b : UInt8) :
    ∃ s', s.feed plenty [b] = .ok s' ∧ s'.delivered = s.delivered := by
  have hround : s.round plenty [b] = .next { s with parser := { s.parser with
      buffer := [b], basicBytes := basicBytesOf b, state := .basicHeader } } 1 := by
    rw [Session.round, h.idle]
    rfl
  obtain ⟨-, hfeed⟩ := h.inv.feed_next (cons_ne_nil _ _) hround
  exact ⟨_, hfeed.trans feed_nil, rfl⟩

theorem Sender.Sim.delivers_nil (h : st.Sim s) : s.Delivers [] s := by
  refine ⟨.inl (append_nil _).symm, fun b => ?_⟩
  obtain ⟨s', hfeed, hsame⟩ := h.feed_byte b
  exact ⟨s', hfeed, by rw [hsame, append_nil]⟩

theorem Session.Delivers.append (hdelivered : s'.delivered = s.delivered ++ ms) (h : s'.Delivers ms' s'') :
    s.Delivers (ms ++ ms') s'' := by
  refine ⟨?_, fun b => ?_⟩
  · rcases h.now with hall | ⟨ms0, m, hms, hempty, hbut⟩
    · exact .inl (by rw [hall, hdelivered, append_assoc])
    · exact .inr ⟨ms ++ ms0, m, by rw [hms, append_assoc], hempty, by rw [hbut, hdelivered, append_assoc]⟩
  · obtain ⟨s3, hfeed, hall⟩ := h.next b
    exact ⟨s3, hfeed, by rw [hall, hdelivered, append_assoc]⟩

theorem basicHeaderWrite_ne_nil {fmt cid : Nat} : basicHeaderWrite fmt cid ≠ [] := by
  rw [basicHeaderWrite]
  split
  · exact cons_ne_nil _ _
  · split <;> exact cons_ne_nil _ _

variable {b : List UInt8} {done : List (Nat × Message)}

theorem Sender.Step.ne_nil (h : st.Step b done st') : b ≠ [] := by
  cases h <;> exact append_ne_nil_of_left_ne_nil basicHeaderWrite_ne_nil _

theorem Sender.Run.of_nil (h : st.Run b done st') (hb : b = []) : done = [] := by
  cases h with
  | refl => rfl
  | step hstep _ => exact absurd (append_eq_nil_iff.1 hb).1 hstep.ne_nil

theorem Sender.Step.completes (h : st.Step b done st') : done = [] ∨ ∃ m, done = [m] := by
  have hcompleted : ∀ cid q, st.completed cid q = [] ∨ ∃ m, st.completed cid q = [m] := fun cid q => by
    rw [Sender.completed]
    split
    · exact .inr ⟨_, rfl⟩
    · exact .inl rfl
  cases h <;> exact hcompleted _ _

theorem feed_last (h : st.Sim s) {m : Nat × Message} (hstep : st.Step b [m] st') (hempty : m.2.payload = []) :
    ∃ s', s.feed plenty b = .ok s' ∧ s.Delivers [m.2] s' := by
  have hnext : ∀ x, ∃ s'', s.feed plenty (b ++ [x]) = .ok s'' ∧ s''.delivered = s.delivered ++ [m.2] := fun x => by
    obtain ⟨s1, hsim, hdelivered, hfeed⟩ := feed_chunk h hstep (.inl (cons_ne_nil x []))
    obtain ⟨s2, hbyte, hsame⟩ := hsim.feed_byte x
    exact ⟨s2, hfeed.trans hbyte, hsame.trans hdelivered⟩
  cases hb : s.feed plenty b with
  | ok s' =>
    have hsplit : ∀ x, s.feed plenty (b ++ [x]) = s'.feed plenty [x] := fun x => by rw [h.inv.feed_append, hb]
    refine ⟨s', rfl, ?_, fun x => ?_⟩
    · -- what is delivered lies between nothing and the message
      obtain ⟨s2, hfeed, hall⟩ := hnext 0
      have hgrown := feed_delivered hb
      have hrest := feed_delivered ((hsplit 0).symm.trans hfeed)
      rw [hall] at hrest
      obtain ⟨l, hl⟩ := hgrown
      rw [← hl, prefix_append_right_inj] at hrest
      rcases prefix_cons_iff.1 hrest with rfl | ⟨l', rfl, hl'⟩
      · exact .inr ⟨[], m.2, rfl, hempty, hl.symm⟩
      · rw [prefix_nil] at hl'
        exact .inl (by rw [← hl, hl'])
    · obtain ⟨s2, hfeed, hall⟩ := hnext x
      exact ⟨s2, (hsplit x).symm.trans hfeed, hall⟩
  | _ =>
    obtain ⟨s2, hfeed, -⟩ := hnext 0
    rw [h.inv.feed_append, hb] at hfeed
    cases hfeed

theorem feed_run (hrun : st.Run b done st') (h : st.Sim s) :
    ∃ s', s.feed plenty b = .ok s' ∧ s.Delivers (done.map Prod.snd) s' := by
  induction hrun generalizing s with
  | refl st => exact ⟨s, feed_nil, h.delivers_nil⟩
  | @step st st1 st2 b b' done done' hstep hrest ih =>
    by_cases hmore : b' ≠ [] ∨ ∀ m ∈ done, m.2.payload ≠ []
    · obtain ⟨s1, hsim, hdelivered, hfeed⟩ := feed_chunk h hstep hmore
      obtain ⟨s2, hfeed2, hdelivers⟩ := ih hsim
      refine ⟨s2, hfeed.trans hfeed2, ?_⟩
      rw [map_append]
      exact hdelivers.append hdelivered
    rw [not_or, not_not] at hmore
    obtain ⟨hnil, hempty⟩ := hmore
    have hdone := hrest.of_nil hnil
    subst hnil hdone
    rw [append_nil, append_nil]
    rcases hstep.completes with rfl | ⟨m, rfl⟩
    · exact absurd nofun hempty
    · refine feed_last h hstep ?_
      by_contra hne
      exact hempty fun m' hm => by rw [mem_singleton.1 hm]; exact hne

end

/-! # The round trip of the RTMP chunk stream -/

open BeUtil

/-! ## A list of messages -/

/-- The arguments of `rtmp_session_write_message`. -/
structure WriteCall where
  cid : Nat
  type : UInt8
  streamId : UInt32
  timestamp : UInt32
  msgHdr : List UInt8
  payload : List UInt8

def WriteCall.message (c : WriteCall) : Message := ⟨c.type, c.timestamp, c.msgHdr ++ c.payload⟩

/-- The basic header can carry the chunk stream id, and the receiver takes messages of that length. -/
structure WriteCall.Carried (c : WriteCall) : Prop where
  least : 2 ≤ c.cid
  most : c.cid < 65600
  length : c.msgHdr.length + c.payload.length ≤ rtmpMaxMessageBytes

/-- Messages written one behind the other, with the chunk size that the last Set Chunk Size message announced. -/
def Writer.writeAll : Writer → ChunkSize → List WriteCall → Option (Writer × ChunkSize)
  | w, size, [] => some (w, size)
  | w, size, c :: cs =>
    match w.sessionWriteMessage size c.cid c.type c.streamId c.timestamp c.msgHdr c.payload with
    | none => none
    | some w => w.writeAll (c.message.chunkSizeAfter size) cs

variable {size : ChunkSize}

theorem wbuf_sessionWriteMessage {w w' : Writer} {cid : Nat} {type : UInt8} {streamId timestamp : UInt32}
    {msgHdr payload : List UInt8} (h : w.sessionWriteMessage size cid type streamId timestamp msgHdr payload = some w') :
    w'.wbuf = [] := by
  simp only [Writer.sessionWriteMessage] at h
  split at h
  · cases h
  · split at h
    · cases h
    · cases h
      rfl

theorem writeAll_run {cs : List WriteCall} {st : Sender} {w w' : Writer} {size' : ChunkSize} (h : w.Sim st) (hempty : w.wbuf = [])
    (hcs : ∀ c ∈ cs, c.Carried) (hw : w.writeAll st.chunkSize cs = some (w', size')) :
    ∃ b st' done, w'.written.flatten = w.written.flatten ++ b ∧ st.Run b done st' ∧
      done.map Prod.snd = cs.map WriteCall.message := by
  induction cs generalizing st w with
  | nil =>
    rw [Writer.writeAll, Option.some.injEq, Prod.mk.injEq] at hw
    exact ⟨[], st, [], by rw [hw.1, append_nil], .refl st, rfl⟩
  | cons c cs ih =>
    have hc := hcs c mem_cons_self
    rw [Writer.writeAll] at hw
    cases hmsg : w.sessionWriteMessage st.chunkSize c.cid c.type c.streamId c.timestamp c.msgHdr c.payload with
    | none =>
      rw [hmsg] at hw
      cases hw
    | some w1 =>
      rw [hmsg] at hw
      obtain ⟨b, st1, hbytes, hrun, hsize, hsim⟩ := sessionWriteMessage_run h hc.least hc.most hc.length hmsg
      have hempty1 := wbuf_sessionWriteMessage hmsg
      rw [Writer.bytes, Writer.bytes, hempty, hempty1, append_nil, append_nil] at hbytes
      simp only [WriteCall.message, ← hsize] at hw
      obtain ⟨b', st', done, hbytes', hrun', hdone⟩ := ih hsim hempty1 (fun c' hc' => hcs c' (.tail _ hc')) hw
      refine ⟨b ++ b', st', _, by rw [hbytes', hbytes, append_assoc], hrun.append hrun', ?_⟩
      rw [map_append, hdone]
      rfl

/-! ## Any receiver -/

/-- What a session can be: new, or behind a call that returned 0 or -1. -/
inductive Session.Reachable : Session → Prop where
  | fresh (size : ChunkSize) : Reachable { inChunkSize := size }
  | ok {oom : Nat → Bool} {s s' : Session} {data : List UInt8} (h : Reachable s) (hfeed : s.feed oom data = .ok s') : Reachable s'
  | fatal {oom : Nat → Bool} {s s' : Session} {data : List UInt8} (h : Reachable s) (hfeed : s.feed oom data = .fatal s') :
      Reachable s'

theorem Session.Reachable.inv {s : Session} (h : s.Reachable) : s.Inv := by
  induction h with
  | fresh size => exact Session.Inv.fresh size
  | @ok oom s s' data _ hfeed ih | @fatal oom s s' data _ hfeed ih =>
    have hsound := @Session.Inv.feed oom s data ih
    rwa [hfeed] at hsound

theorem Session.Inv.not_fault {oom : Nat → Bool} {s : Session} {data : List UInt8} (h : s.Inv) : s.feed oom data ≠ .fault := fun hfault => by
  have hsound := @Session.Inv.feed oom s data h
  rw [hfault] at hsound
  exact hsound

theorem fresh_delivers {b : List UInt8} {done : List (Nat × Message)} {st' : Sender}
    (h : (Sender.fresh size).Run b done st') {ds : List (List UInt8)} (hds : ds.flatten = b) :
    ∃ s, Session.feedAll plenty { inChunkSize := size } ds = .ok s ∧
      Session.Delivers { inChunkSize := size } (done.map Prod.snd) s := by
  rw [(Session.Inv.fresh size).feedAll, hds]
  exact feed_run h (.fresh size)

/-- A chunk of one message between the two chunks of another. -/
example : ∃ s, Session.feedAll plenty { inChunkSize := ⟨2, by decide⟩ }
    [[3, 0, 0, 0, 0, 0, 3, 9, 0, 0, 0, 0, 1, 2, 4, 0], [0, 0, 0, 0, 1, 8, 0, 0, 0, 0, 4, 195, 3]] = .ok s ∧
    Session.Delivers { inChunkSize := ⟨2, by decide⟩ } [⟨8, 0, [4]⟩, ⟨9, 0, [1, 2, 3]⟩] s := by
  have hfirst := @Sender.Step.start (.fresh ⟨2, by decide⟩) 3 0 ⟨⟨9, 0, [1, 2, 3]⟩, 0, 0, 0⟩ (by decide) (by decide) nofun
    (fun _ => by decide) rfl (.absolute rfl) (by decide)
  have hsecond := @Sender.Step.start (Sender.put (.fresh ⟨2, by decide⟩) 3 ⟨⟨9, 0, [1, 2, 3]⟩, 0, 0, 0⟩) 4 0
    ⟨⟨8, 0, [4]⟩, 0, 0, 0⟩ (by decide) (by decide) nofun (fun _ => by decide) rfl (.absolute rfl) (by decide)
  have hthird := @Sender.Step.next (Sender.put (Sender.put (.fresh ⟨2, by decide⟩) 3 ⟨⟨9, 0, [1, 2, 3]⟩, 0, 0, 0⟩) 4
    ⟨⟨8, 0, [4]⟩, 0, 0, 0⟩) 3 ⟨⟨9, 0, [1, 2, 3]⟩, 0, 0, 2⟩ (by decide) (by decide) rfl (by decide)
  exact fresh_delivers (.step hfirst (.step hsecond (.step hthird (.refl _)))) (by decide +kernel)

/-- The messages that are written come out, however their bytes are cut into calls; so do those of any conforming sender that
    mixes its chunk streams; and no bytes at all make a session write behind a buffer. -/
theorem rtmpChunks_roundTrip :
    (∀ (size size' : ChunkSize) (cs : List WriteCall) (w : Writer), Writer.writeAll {} size cs = some (w, size') →
      (∀ c ∈ cs, c.Carried) → ∀ ds : List (List UInt8), ds.flatten = w.written.flatten →
        ∃ s, Session.feedAll plenty { inChunkSize := size } ds = .ok s ∧
          Session.Delivers { inChunkSize := size } (cs.map WriteCall.message) s) ∧
    (∀ (size : ChunkSize) (b : List UInt8) (done : List (Nat × Message)) (st' : Sender), (Sender.fresh size).Run b done st' →
      ∀ ds : List (List UInt8), ds.flatten = b → ∃ s, Session.feedAll plenty { inChunkSize := size } ds = .ok s ∧
          Session.Delivers { inChunkSize := size } (done.map Prod.snd) s) ∧
    ∀ (oom : Nat → Bool) (s : Session) (data : List UInt8), s.Reachable → s.feed oom data ≠ .fault := by
  refine ⟨fun size size' cs w hw hcs ds hds => ?_, fun size b done st' hrun ds hds => fresh_delivers hrun hds,
    fun oom s data hs => hs.inv.not_fault⟩
  obtain ⟨b, st', done, hbytes, hrun, hdone⟩ := writeAll_run (Writer.Sim.fresh size) rfl hcs hw
  rw [← hdone]
  exact fresh_delivers hrun (hds.trans hbytes)

/-- A long timestamp in a first header, a second message like the first, and one without payload; in four calls. -/
theorem three_messages_delivered : ∃ s, Session.feedAll plenty { inChunkSize := ⟨3, by decide⟩ }
    [[3, 255, 255, 255, 0, 0, 5, 9, 1, 0], [0, 0, 1, 0, 0, 0, 1, 2, 3, 195, 1], [], [0, 0, 0, 4, 5, 131, 0, 0, 1, 6, 7, 8, 195, 9,
      10, 0, 0, 0, 0, 5, 0, 0, 0, 8, 1, 0, 0, 0]] = .ok s ∧ Session.Delivers { inChunkSize := ⟨3, by decide⟩ }
      [⟨9, 0x1000000, [1, 2, 3, 4, 5]⟩, ⟨9, 0x1000001, [6, 7, 8, 9, 10]⟩, ⟨8, 5, []⟩] s := by
  have hwritten : (Writer.writeAll {} ⟨3, by decide⟩ [⟨3, 9, 1, 0x1000000, [1, 2], [3, 4, 5]⟩, ⟨3, 9, 1, 0x1000001, [], [6, 7, 8, 9, 10]⟩,
      ⟨64, 8, 1, 5, [], []⟩]).map (fun r => r.1.written.flatten) = some [3, 255, 255, 255, 0, 0, 5, 9, 1, 0, 0, 0, 1, 0, 0, 0, 1, 2,
        3, 195, 1, 0, 0, 0, 4, 5, 131, 0, 0, 1, 6, 7, 8, 195, 9, 10, 0, 0, 0, 0, 5, 0, 0, 0, 8, 1, 0, 0, 0] := by
    decide +kernel
  obtain ⟨⟨w, size'⟩, hw, hbytes⟩ := Option.map_eq_some_iff.1 hwritten
  refine rtmpChunks_roundTrip.1 _ size' _ w hw ?_ _ hbytes.symm
  simp only [forall_mem_cons]
  exact ⟨⟨by decide, by decide, by decide⟩, ⟨by decide, by decide, by decide⟩, ⟨by decide, by decide, by decide⟩, nofun⟩

/-- What a call delivered. -/
def Fed.delivered : Fed → List Message
  | .ok s => s.delivered
  | .fatal s => s.delivered
  | .fault => []

/-- A sender that keeps its chunk size behind a Set Chunk Size message is not understood, and no basic header carries the chunk
    stream id 0. -/
theorem kept_size_not_delivered :
    ((Writer.sessionWriteMessage {} ⟨128, by decide⟩ 2 1 0 0 [] [0, 0, 0, 1]).bind fun w =>
        w.sessionWriteMessage ⟨128, by decide⟩ 3 9 0 0 [] [7, 8]).map
      (fun w => (Session.feed plenty { inChunkSize := ⟨128, by decide⟩ } (w.written.flatten ++ [0])).delivered) =
        some [⟨1, 0, [0, 0, 0, 1]⟩] ∧ (Writer.sessionWriteMessage {} ⟨128, by decide⟩ 0 9 0 0 [] [7]).map
      (fun w => (Session.feed plenty { inChunkSize := ⟨128, by decide⟩ } (w.written.flatten ++ [0])).delivered) = some [] := by
  constructor <;> decide +kernel

end DvbIpiTools.Net.Rtmp
