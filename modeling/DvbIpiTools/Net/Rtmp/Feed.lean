import DvbIpiTools.Net.Rtmp.Session

set_option autoImplicit false

/-! # Feeding a session

Whatever the bytes are, a session stays within the memory it owns. How the bytes are cut into calls makes no difference. -/

namespace DvbIpiTools.Net.Rtmp

open BeUtil KeyedList List

/-! ## The memory of a channel -/

/-- What a channel has allocated is enough for the part of a message it holds. -/
structure InChan.Ok (c : InChan) : Prop where
  allocated : c.capacity ≤ c.payload.length
  partly : c.bytes ≠ 0 → c.bytes ≤ c.header.length ∧ c.header.length ≤ c.capacity

/-- A channel with `d` behind the bytes it has. -/
def InChan.stored (c : InChan) (d : List UInt8) : InChan :=
  { c with payload := c.payload.take c.bytes ++ (d ++ c.payload.drop (c.bytes + d.length)), bytes := c.bytes + d.length }

namespace InChan

variable {c c' : InChan} {oom : Nat → Bool} {d e : List UInt8} (h : c.bytes + d.length ≤ c.payload.length)

include h

theorem store_eq : c.store d = some (c.stored d) := by
  rw [store]
  split
  · rename_i hd
    subst hd
    rw [stored, length_nil, add_zero, nil_append, take_append_drop]
  · rfl

theorem length_stored : (c.stored d).payload.length = c.payload.length := by
  rw [stored]
  simp only [length_append, length_take, length_drop]
  omega

theorem length_kept : (c.payload.take c.bytes ++ d).length = c.bytes + d.length := by
  rw [length_append, length_take]
  omega

theorem take_stored : (c.stored d).payload.take (c.bytes + d.length) = c.payload.take c.bytes ++ d := by
  rw [stored, ← append_assoc, ← length_kept h, take_left]

theorem stored_stored : (c.stored d).stored e = c.stored (d ++ e) := by
  have hdrop : (c.stored d).payload.drop (c.bytes + d.length + e.length) = c.payload.drop (c.bytes + d.length + e.length) := by
    rw [stored, ← append_assoc, ← drop_drop, ← length_kept h, drop_left, length_kept h, drop_drop]
  have hstored : (c.stored d).stored e = { c with
      payload := (c.stored d).payload.take (c.bytes + d.length) ++ (e ++ (c.stored d).payload.drop (c.bytes + d.length + e.length))
      bytes := c.bytes + d.length + e.length } := rfl
  rw [hstored, take_stored h, hdrop, stored]
  simp only [length_append, append_assoc, add_assoc]

omit h

theorem Ok.fresh (cid : Nat) : (InChan.fresh cid).Ok := ⟨le_rfl, absurd rfl⟩

/-- Where the buffer was enough for the part held, it is for the whole message now, and holds the same part. -/
theorem allocPayload_spec (hc : c.allocPayload oom = some c') (hok : c.capacity ≤ c.payload.length)
    (hbytes : c.bytes ≤ c.payload.length) : c'.cid = c.cid ∧ c'.header = c.header ∧ c'.clock = c.clock ∧ c'.bytes = c.bytes ∧
      c'.capacity ≤ c'.payload.length ∧ c.header.length ≤ c'.capacity ∧
      c'.payload.take c.bytes = c.payload.take c.bytes := by
  rw [allocPayload] at hc
  split at hc
  · cases hc
  split at hc
  · split at hc
    · cases hc
    · cases hc
      refine ⟨rfl, rfl, rfl, rfl, ?_, le_rfl, take_append_of_le_length hbytes⟩
      simp only [length_append, length_replicate]
      omega
  · cases hc
    exact ⟨rfl, rfl, rfl, rfl, hok, by omega, rfl⟩

end InChan

/-! ## Memory safety -/

def rtmpMaxHeader : Nat := 18

/-- Every channel is sound, and the parser's buffer and the channel it uses are there in the states that read them. -/
structure Session.Inv (s : Session) : Prop where
  chans : ∀ c ∈ s.inChan, c.Ok
  basic : s.parser.basicBytes ≤ 3
  buffer : s.parser.buffer.length ≤ rtmpMaxHeader
  head : s.parser.state ≠ .init → s.parser.buffer ≠ []
  used : s.parser.state = .extendedTimestamp ∨ s.parser.state = .payload → ∃ c, lookup InChan.cid s.inChan s.parser.pkt = some c
  enough : s.parser.state = .payload → ∀ c, lookup InChan.cid s.inChan s.parser.pkt = some c → c.header.length ≤ c.capacity

theorem Session.Inv.fresh (size : ChunkSize) : Session.Inv { inChunkSize := size } where
  chans := nofun
  basic := Nat.zero_le _
  buffer := Nat.zero_le _
  head := fun h => absurd rfl h
  used := by rintro (h | h) <;> cases h
  enough := nofun

theorem msgHdrSize_le (fmt : Nat) : msgHdrSize fmt ≤ 11 := by
  match fmt with
  | 0 | 1 | 2 | 3 => decide
  | n + 4 => exact Nat.zero_le _

theorem basicBytesOf_le (b : UInt8) : basicBytesOf b ≤ 3 := by
  rw [basicBytesOf]
  split
  · decide
  · split <;> decide

theorem ok_replace {l : List InChan} {c : InChan} (hl : ∀ c ∈ l, c.Ok) (hc : c.Ok) : ∀ c' ∈ replace InChan.cid c l, c'.Ok :=
  fun c' h => (mem_replace h).elim (fun he => he ▸ hc) (hl c')

theorem lookup_replace_self {l : List InChan} {c c' : InChan} (h : lookup InChan.cid l c.cid = some c') :
    lookup InChan.cid (replace InChan.cid c l) c.cid = some c := by
  rw [lookup_replace h, if_pos rfl]

/-- The first header step leaves the channels sound and the parser alone, but for the channel in use. -/
def Stepped.Sound (p : Parser) : Stepped → Prop
  | .wait => True
  | .done s => (∀ c ∈ s.inChan, c.Ok) ∧ s.parser = { p with pkt := s.parser.pkt } ∧
      ∃ c, lookup InChan.cid s.inChan s.parser.pkt = some c
  | .fatal s => (∀ c ∈ s.inChan, c.Ok) ∧ s.parser = { p with pkt := s.parser.pkt }

theorem readHeader_sound {s : Session} {c : InChan} {fmt : Nat} (hl : ∀ c ∈ s.inChan, c.Ok)
    (h : lookup InChan.cid s.inChan c.cid = some c) : (s.readHeader c fmt).Sound s.parser := by
  rw [Session.readHeader]
  split
  · exact ⟨hl, rfl⟩
  rename_i hfmt
  have hc := hl c (mem_of_lookup h)
  refine ⟨ok_replace hl ⟨hc.allocated, fun hb => ?_⟩, rfl, ⟨_, lookup_replace_self h⟩⟩
  -- a message under way has its length from a header before this one
  have hlong : ¬ fmt ≤ 1 := fun hle => hfmt ⟨hb, by omega⟩
  simp only [messageHeaderRead, if_neg hlong]
  exact hc.partly hb

theorem stepMessageHeader_sound {s : Session} {need : Nat} (hl : ∀ c ∈ s.inChan, c.Ok) :
    (s.stepMessageHeader need).Sound s.parser := by
  rw [Session.stepMessageHeader]
  split
  · trivial
  simp only
  split
  · rename_i c hc
    exact readHeader_sound hl (by rw [key_of_lookup hc]; exact hc)
  rename_i hnone
  split
  · exact ⟨hl, rfl⟩
  split
  · exact ⟨hl, rfl⟩
  have hl' : ∀ c ∈ s.inChan ++ [InChan.fresh (basicHeaderRead s.parser.buffer).2.2], c.Ok := fun c hc => by
    rcases mem_append.1 hc with hc | hc
    · exact hl c hc
    · rw [mem_singleton.1 hc]
      exact InChan.Ok.fresh _
  refine @readHeader_sound { s with inChan := s.inChan ++ [InChan.fresh (basicHeaderRead s.parser.buffer).2.2] } _ _ hl' ?_
  exact (lookup_append (a := InChan.fresh (basicHeaderRead s.parser.buffer).2.2) hnone _).trans (if_pos rfl)

/-- The second header step keeps the parser, and has the message's bytes allocated when it is done. -/
def Stepped.Allocated (p : Parser) : Stepped → Prop
  | .wait => True
  | .done s => (∀ c ∈ s.inChan, c.Ok) ∧ s.parser = p ∧
      ∃ c, lookup InChan.cid s.inChan p.pkt = some c ∧ c.header.length ≤ c.capacity
  | .fatal s => (∀ c ∈ s.inChan, c.Ok) ∧ s.parser = p ∧ ∃ c, lookup InChan.cid s.inChan p.pkt = some c

theorem stepExtendedTimestamp_allocated {oom : Nat → Bool} {s : Session} {c : InChan} {need : Nat} {hasExt : Bool}
    (hl : ∀ c ∈ s.inChan, c.Ok) (h : lookup InChan.cid s.inChan s.parser.pkt = some c) :
    (s.stepExtendedTimestamp oom c need hasExt).Allocated s.parser := by
  have hkey := key_of_lookup h
  have hc := hl c (mem_of_lookup h)
  have hput : ∀ c' : InChan, c'.cid = c.cid → lookup InChan.cid (replace InChan.cid c' s.inChan) s.parser.pkt = some c' :=
    fun c' hcid => by
      have := @lookup_replace_self s.inChan c' c (by rw [hcid, hkey]; exact h)
      rwa [hcid, hkey] at this
  rw [Session.stepExtendedTimestamp]
  split
  · trivial
  split
  · rename_i hb
    have hclock : (c.setClock (s.chunkTimestamp c hasExt)).Ok := ⟨hc.allocated, absurd hb⟩
    cases halloc : (c.setClock (s.chunkTimestamp c hasExt)).allocPayload oom with
    | none =>
      simp only [halloc]
      exact ⟨ok_replace hl hclock, rfl, _, hput _ rfl⟩
    | some c' =>
      simp only [halloc]
      have hbytes : (c.setClock (s.chunkTimestamp c hasExt)).bytes = 0 := hb
      obtain ⟨hcid, hheader, -, hsame, hallocated, henough, -⟩ := InChan.allocPayload_spec halloc hc.allocated (by omega)
      exact ⟨ok_replace hl ⟨hallocated, fun hne => absurd (hsame.trans hbytes) hne⟩, rfl, c', hput c' hcid,
        hheader ▸ henough⟩
  · rename_i hb
    exact ⟨hl, rfl, c, h, (hc.partly hb).2⟩

/-- The invariant holds after a round, and no round leaves the memory the session owns. -/
def Round.Sound : Round → Prop
  | .next s _ => s.Inv
  | .fatal s => s.Inv
  | .fault => False

theorem Parser.length_filled (p : Parser) (need : Nat) (data : List UInt8) :
    (p.buffer ++ p.fill need data).length ≤ max p.buffer.length need := by
  rw [length_append, Parser.length_fill]
  omega

section
variable {oom : Nat → Bool} {s : Session} {data : List UInt8} (h : s.Inv)

include h

theorem roundBasicHeader_sound (hstate : s.parser.state = .basicHeader) : (s.roundBasicHeader data).Sound := by
  have hlen : (s.parser.buffer ++ s.parser.fill s.parser.basicBytes data).length ≤ rtmpMaxHeader := by
    have hfilled := s.parser.length_filled s.parser.basicBytes data
    have hbuffer := h.buffer
    have hbasic := h.basic
    simp only [rtmpMaxHeader] at hbuffer ⊢
    omega
  have hhead := append_ne_nil_of_left_ne_nil (h.head (by rw [hstate]; decide)) (s.parser.fill s.parser.basicBytes data)
  simp only [Session.roundBasicHeader]
  split
  · refine ⟨h.chans, h.basic, hlen, fun _ => hhead, ?_, nofun⟩
    rintro (hs | hs) <;> cases hs
  · refine ⟨h.chans, h.basic, hlen, fun _ => hhead, ?_, ?_⟩ <;> simp only [Session.parser_buffered, hstate]
    · rintro (hs | hs) <;> cases hs
    · exact nofun

theorem roundMessageHeader_sound (hstate : s.parser.state = .messageHeader) : (s.roundMessageHeader data).Sound := by
  have hlen : (s.parser.buffer ++ s.parser.fill s.parser.headerNeed data).length ≤ rtmpMaxHeader := by
    have hfilled := s.parser.length_filled s.parser.headerNeed data
    have hsize := msgHdrSize_le (byteAt s.parser.buffer 0 >>> 6)
    have hbuffer := h.buffer
    have hbasic := h.basic
    simp only [Parser.headerNeed, rtmpMaxHeader] at hfilled hbuffer ⊢
    omega
  have hhead := append_ne_nil_of_left_ne_nil (h.head (by rw [hstate]; decide)) (s.parser.fill s.parser.headerNeed data)
  have hstep := @stepMessageHeader_sound (s.buffered (s.parser.fill s.parser.headerNeed data)) s.parser.headerNeed h.chans
  simp only [Session.roundMessageHeader]
  split <;> rename_i hs
  · refine ⟨h.chans, h.basic, hlen, fun _ => hhead, ?_, ?_⟩ <;> simp only [Session.parser_buffered, hstate]
    · rintro (hs | hs) <;> cases hs
    · intro hs
      cases hs
  · rw [hs] at hstep
    obtain ⟨hl, hparser, hused⟩ := hstep
    refine ⟨hl, ?_, ?_, fun _ => ?_, fun _ => hused, by rintro ⟨⟩⟩ <;> rw [Session.parser_goto, hparser]
    · exact h.basic
    · exact hlen
    · exact hhead
  · rw [hs] at hstep
    obtain ⟨hl, hparser⟩ := hstep
    refine ⟨hl, ?_, ?_, fun _ => ?_, ?_, ?_⟩ <;> rw [hparser] <;> simp only [Session.parser_buffered, hstate]
    · exact h.basic
    · exact hlen
    · exact hhead
    · rintro (hs | hs) <;> cases hs
    · intro hs
      cases hs

theorem roundExtendedTimestamp_sound (hstate : s.parser.state = .extendedTimestamp) :
    (s.roundExtendedTimestamp oom data).Sound := by
  obtain ⟨c, hc⟩ := h.used (.inl hstate)
  simp only [Session.roundExtendedTimestamp, hc]
  generalize hneed : msgHdrSize c.header.fmt + s.parser.basicBytes +
    (if decide (c.header.timestamp = 0xFFFFFF) = true then 4 else 0) = need
  have hlen : (s.parser.buffer ++ s.parser.fill need data).length ≤ rtmpMaxHeader := by
    have hfilled := s.parser.length_filled need data
    have hsize := msgHdrSize_le c.header.fmt
    have hbuffer := h.buffer
    have hbasic := h.basic
    simp only [rtmpMaxHeader] at hbuffer ⊢
    split at hneed <;> omega
  have hhead := append_ne_nil_of_left_ne_nil (h.head (by rw [hstate]; decide)) (s.parser.fill need data)
  have hstep := @stepExtendedTimestamp_allocated oom (s.buffered (s.parser.fill need data)) c need
    (decide (c.header.timestamp = 0xFFFFFF)) h.chans hc
  split <;> rename_i hs
  · refine ⟨h.chans, h.basic, hlen, fun _ => hhead, fun _ => ⟨c, hc⟩, ?_⟩
    simp only [Session.parser_buffered, hstate]
    intro hs
    cases hs
  · rw [hs] at hstep
    obtain ⟨hl, hparser, c', hc', henough⟩ := hstep
    refine ⟨hl, ?_, ?_, fun _ => ?_, fun _ => ⟨c', ?_⟩, fun _ c'' hc'' => ?_⟩ <;> simp only [hparser, Session.parser_buffered] at *
    · exact h.basic
    · exact hlen
    · exact hhead
    · exact hc'
    · rw [hc'] at hc''
      cases hc''
      exact henough
  · rw [hs] at hstep
    obtain ⟨hl, hparser, c', hc'⟩ := hstep
    refine ⟨hl, ?_, ?_, fun _ => ?_, fun _ => ⟨c', ?_⟩, ?_⟩ <;> simp only [hparser, Session.parser_buffered, hstate] at *
    · exact h.basic
    · exact hlen
    · exact hhead
    · exact hc'
    · intro hs
      cases hs

theorem payload_fits (hstate : s.parser.state = .payload) {c : InChan}
    (hc : lookup InChan.cid s.inChan s.parser.pkt = some c) {t : List UInt8} (ht : t.length ≤ s.payloadRoom c) :
    c.bytes + t.length ≤ c.header.length ∧ c.header.length ≤ c.capacity ∧ c.bytes + t.length ≤ c.payload.length := by
  have henough := h.enough hstate c hc
  have hok := h.chans c (mem_of_lookup hc)
  have hallocated := hok.allocated
  have hbytes : c.bytes ≤ c.header.length := by
    by_cases hb : c.bytes = 0
    · omega
    · exact (hok.partly hb).1
  rw [Session.payloadRoom] at ht
  omega

theorem roundPayload_sound (hstate : s.parser.state = .payload) : (s.roundPayload data).Sound := by
  obtain ⟨c, hc⟩ := h.used (.inr hstate)
  have hkey := key_of_lookup hc
  simp only [Session.roundPayload, hc]
  generalize ht : data.take (s.payloadRoom c) = t
  obtain ⟨hlen, henough, hstore⟩ := payload_fits h hstate hc (t := t) (by rw [← ht, length_take]; omega)
  rw [InChan.store_eq hstore]
  have hstored : (c.stored t).Ok := ⟨by
    rw [InChan.length_stored hstore]; exact (h.chans c (mem_of_lookup hc)).allocated, fun _ => ⟨hlen, henough⟩⟩
  have hput : lookup InChan.cid (replace InChan.cid (c.stored t) s.inChan) s.parser.pkt = some (c.stored t) := by
    rw [← hkey]
    exact lookup_replace_self (c := c.stored t) (by rw [show (c.stored t).cid = c.cid from rfl, hkey]; exact hc)
  have hhead := h.head (by rw [hstate]; decide)
  simp only [Session.payloadDone]
  split
  · refine ⟨ok_replace (ok_replace h.chans hstored) ⟨hstored.allocated, absurd rfl⟩, h.basic, h.buffer,
      fun hne => absurd rfl hne, ?_, by rintro ⟨⟩⟩
    rintro (hs | hs) <;> cases hs
  split
  · refine ⟨ok_replace h.chans hstored, h.basic, h.buffer, absurd rfl, ?_, by rintro ⟨⟩⟩
    rintro (hs | hs) <;> cases hs
  · refine ⟨ok_replace h.chans hstored, h.basic, h.buffer, fun _ => hhead, fun _ => ⟨_, hput⟩, fun _ c' hc' => ?_⟩
    simp only [hput, Option.some.injEq] at hc'
    subst hc'
    exact henough

omit h

theorem Session.Inv.round (h : s.Inv) : (s.round oom data).Sound := by
  rw [Session.round]
  split <;> rename_i hstate
  · refine ⟨h.chans, basicBytesOf_le _, ?_, fun _ => cons_ne_nil _ _, ?_, by rintro ⟨⟩⟩
    · simp only [rtmpMaxHeader, length_singleton]
      omega
    · rintro (hs | hs) <;> cases hs
  · exact roundBasicHeader_sound h hstate
  · exact roundMessageHeader_sound h hstate
  · exact roundExtendedTimestamp_sound h hstate
  · exact roundPayload_sound h hstate

end

/-- How a call ends, with memory in order. -/
def Fed.Sound : Fed → Prop
  | .ok s => s.Inv
  | .fatal s => s.Inv
  | .fault => False

theorem feed_eq {oom : Nat → Bool} {s : Session} {data : List UInt8} (hdata : data ≠ []) : s.feed oom data =
    match s.round oom data with
    | .next s' n => s'.feed oom (data.drop n)
    | .fatal s' => .fatal s'
    | .fault => .fault := by
  rw [Session.feed, dif_neg hdata]
  split <;> rename_i hround <;> simp only [hround]

@[simp] theorem feed_nil {oom : Nat → Bool} {s : Session} : s.feed oom [] = .ok s := by
  rw [Session.feed, dif_pos rfl]

/-- A call ends for any bytes, and writes within the memory the session owns. -/
theorem Session.Inv.feed {oom : Nat → Bool} {s : Session} {data : List UInt8} (h : s.Inv) : (s.feed oom data).Sound := by
  induction s, data using Session.feed.induct oom with
  | case1 s => rw [feed_nil]; exact h
  | case2 s data hdata s' n hround ih =>
    have hsound := @Session.Inv.round oom s data h
    rw [feed_eq hdata, hround]
    rw [hround] at hsound
    exact ih hsound
  | case3 s data hdata s' hround =>
    have hsound := @Session.Inv.round oom s data h
    rw [feed_eq hdata, hround]
    rwa [hround] at hsound
  | case4 s data hdata hround =>
    have hsound := @Session.Inv.round oom s data h
    rw [hround] at hsound
    exact hsound.elim

/-! ## Cutting -/

/-- A round that has taken `k` bytes before. -/
def Round.shift (k : Nat) : Round → Round
  | .next s n => .next s (k + n)
  | .fatal s => .fatal s
  | .fault => .fault

/-- How a round over `d ++ e` goes on from one over `d`: it does the same, or it takes all of `d` and then what the next
    round takes of `e`. -/
inductive Round.Extends (d e : List UInt8) (oom : Nat → Bool) : Round → Round → Prop where
  | same {s : Session} {n : Nat} (hn : n ≤ d.length) : Extends d e oom (.next s n) (.next s n)
  | more {s : Session} : Extends d e oom (.next s d.length) ((s.round oom e).shift d.length)
  | fatal {s : Session} : Extends d e oom (.fatal s) (.fatal s)

section
variable {oom : Nat → Bool} {s : Session} {d e : List UInt8}

theorem buffered_append (s : Session) (t t' : List UInt8) : s.buffered (t ++ t') = (s.buffered t).buffered t' := by
  simp only [Session.buffered, append_assoc]

variable {need : Nat}

theorem fill_enough {p : Parser} (h : need - p.buffer.length ≤ d.length) : p.fill need (d ++ e) = p.fill need d := by
  rw [Parser.fill, Parser.fill, take_append_of_le_length h]

theorem fill_short {p : Parser} {need : Nat} (h : d.length < need - p.buffer.length) :
    p.fill need d = d ∧ p.fill need (d ++ e) = d ++ { p with buffer := p.buffer ++ d }.fill need e := by
  refine ⟨take_of_length_le (by omega), ?_⟩
  rw [Parser.fill, Parser.fill, take_append, take_of_length_le (by omega), length_append]
  congr 2
  omega

theorem roundBasicHeader_append (hstate : s.parser.state = .basicHeader) :
    Round.Extends d e oom (s.roundBasicHeader d) (s.roundBasicHeader (d ++ e)) := by
  by_cases hneed : s.parser.basicBytes - s.parser.buffer.length ≤ d.length
  · have hfill := s.parser.length_fill s.parser.basicBytes d
    simp only [Session.roundBasicHeader, fill_enough hneed]
    exact .same (by omega)
  obtain ⟨hd, hde⟩ := @fill_short d e s.parser s.parser.basicBytes (by omega)
  have hnext : s.roundBasicHeader d = .next (s.buffered d) d.length := by
    simp only [Session.roundBasicHeader, hd, Session.parser_buffered, length_append]
    rw [if_neg (by omega)]
  have hround : (s.buffered d).round oom e = (s.buffered d).roundBasicHeader e := by
    rw [Session.round, Session.parser_buffered]
    simp only [hstate]
  have hmore : s.roundBasicHeader (d ++ e) = ((s.buffered d).round oom e).shift d.length := by
    rw [hround]
    simp only [Session.roundBasicHeader, hde, buffered_append, Round.shift, length_append, Session.parser_buffered]
  rw [hnext, hmore]
  exact .more

theorem headerNeed_buffered (h : s.parser.buffer ≠ []) (t : List UInt8) :
    (s.buffered t).parser.headerNeed = s.parser.headerNeed := by
  rw [Session.parser_buffered, Parser.headerNeed, Parser.headerNeed, byteAt_append_left (length_pos_iff.2 h)]

theorem roundMessageHeader_append (h : s.Inv) (hstate : s.parser.state = .messageHeader) :
    Round.Extends d e oom (s.roundMessageHeader d) (s.roundMessageHeader (d ++ e)) := by
  by_cases hneed : s.parser.headerNeed - s.parser.buffer.length ≤ d.length
  · have hfill := s.parser.length_fill s.parser.headerNeed d
    simp only [Session.roundMessageHeader, fill_enough hneed]
    split
    · exact .same (by omega)
    · exact .same (by omega)
    · exact .fatal
  obtain ⟨hd, hde⟩ := @fill_short d e s.parser s.parser.headerNeed (by omega)
  have hwait : (s.buffered d).stepMessageHeader s.parser.headerNeed = .wait := by
    rw [Session.stepMessageHeader, if_pos (by simp only [Session.parser_buffered, length_append]; omega)]
  have hnext : s.roundMessageHeader d = .next (s.buffered d) d.length := by
    simp only [Session.roundMessageHeader, hd, hwait]
  have hround : (s.buffered d).round oom e = (s.buffered d).roundMessageHeader e := by
    rw [Session.round, Session.parser_buffered]
    simp only [hstate]
  have hsame := headerNeed_buffered (h.head (by rw [hstate]; decide)) d
  have hmore : s.roundMessageHeader (d ++ e) = ((s.buffered d).round oom e).shift d.length := by
    rw [hround]
    simp only [Session.roundMessageHeader, hsame, hde, buffered_append, ← Session.parser_buffered]
    split <;> simp only [Round.shift, length_append]
  rw [hnext, hmore]
  exact .more

theorem roundExtendedTimestamp_append (h : s.Inv) (hstate : s.parser.state = .extendedTimestamp) :
    Round.Extends d e oom (s.roundExtendedTimestamp oom d) (s.roundExtendedTimestamp oom (d ++ e)) := by
  obtain ⟨c, hc⟩ := h.used (.inl hstate)
  obtain ⟨need, heq⟩ : ∃ need, ∀ s' : Session, s'.inChan = s.inChan → s'.parser.pkt = s.parser.pkt →
      s'.parser.basicBytes = s.parser.basicBytes → ∀ data, s'.roundExtendedTimestamp oom data =
        match (s'.buffered (s'.parser.fill need data)).stepExtendedTimestamp oom c need
          (decide (c.header.timestamp = 0xFFFFFF)) with
        | .wait => .next (s'.buffered (s'.parser.fill need data)) (s'.parser.fill need data).length
        | .done s'' => .next { s'' with parser := { s''.parser with chunkBytes := 0, state := .payload } }
            (s'.parser.fill need data).length
        | .fatal s'' => .fatal s'' := by
    refine ⟨msgHdrSize c.header.fmt + s.parser.basicBytes + if decide (c.header.timestamp = 0xFFFFFF) = true then 4 else 0,
      fun s' hchan hpkt hbasic data => ?_⟩
    rw [Session.roundExtendedTimestamp, hchan, hpkt, hc]
    exact hbasic ▸ rfl
  by_cases hneed : need - s.parser.buffer.length ≤ d.length
  · have hfill := s.parser.length_fill need d
    rw [heq s rfl rfl rfl, heq s rfl rfl rfl, fill_enough hneed]
    split
    · exact .same (by omega)
    · exact .same (by omega)
    · exact .fatal
  obtain ⟨hd, hde⟩ := @fill_short d e s.parser need (by omega)
  have hwait : (s.buffered d).stepExtendedTimestamp oom c need (decide (c.header.timestamp = 0xFFFFFF)) = .wait := by
    rw [Session.stepExtendedTimestamp, if_pos (by simp only [Session.parser_buffered, length_append]; omega)]
  have hnext : s.roundExtendedTimestamp oom d = .next (s.buffered d) d.length := by
    simp only [heq s rfl rfl rfl, hd, hwait]
  have hround : (s.buffered d).round oom e = (s.buffered d).roundExtendedTimestamp oom e := by
    rw [Session.round, Session.parser_buffered]
    simp only [hstate]
  have hmore : s.roundExtendedTimestamp oom (d ++ e) = ((s.buffered d).round oom e).shift d.length := by
    rw [hround, heq s rfl rfl rfl, heq (s.buffered d) rfl rfl rfl]
    simp only [hde, buffered_append, ← Session.parser_buffered]
    split <;> simp only [Round.shift, length_append]
  rw [hnext, hmore]
  exact .more

/-- The session in the middle of a chunk, with `n` more payload bytes in `c`. -/
def Session.midChunk (s : Session) (c : InChan) (n : Nat) : Session :=
  { s with inChan := replace InChan.cid c s.inChan, parser := { s.parser with chunkBytes := s.parser.chunkBytes + n } }

theorem payloadDone_mid {c : InChan} {n : Nat} (hlong : ¬ c.header.length ≤ c.bytes)
    (hroom : ¬ s.inChunkSize.1 ≤ s.parser.chunkBytes + n) : s.payloadDone c n = s.midChunk c n := by
  simp only [Session.payloadDone, if_neg hlong, if_neg hroom, Session.midChunk]

theorem payloadDone_midChunk {c c' : InChan} (h : c'.cid = c.cid) (n m : Nat) :
    (s.midChunk c n).payloadDone c' m = s.payloadDone c' (n + m) := by
  simp only [Session.payloadDone, Session.midChunk, replace_replace h, add_assoc]

theorem roundPayload_append (h : s.Inv) (hstate : s.parser.state = .payload) :
    Round.Extends d e oom (s.roundPayload d) (s.roundPayload (d ++ e)) := by
  obtain ⟨c, hc⟩ := h.used (.inr hstate)
  have hkey := key_of_lookup hc
  by_cases hroom : s.payloadRoom c ≤ d.length
  · have hfits := payload_fits h hstate hc (t := d.take (s.payloadRoom c)) (by rw [length_take]; omega)
    simp only [Session.roundPayload, hc, take_append_of_le_length hroom, InChan.store_eq hfits.2.2]
    exact .same (by rw [length_take]; omega)
  have htake : d.take (s.payloadRoom c) = d := take_of_length_le (by omega)
  have hfits := payload_fits h hstate hc (t := d) (by omega)
  have hmin : s.payloadRoom c = min (s.inChunkSize.1 - s.parser.chunkBytes) (c.header.length - c.bytes) := rfl
  have hmid : s.payloadDone (c.stored d) d.length = s.midChunk (c.stored d) d.length :=
    payloadDone_mid (show ¬ c.header.length ≤ c.bytes + d.length by omega) (by omega)
  have hnext : s.roundPayload d = .next (s.midChunk (c.stored d) d.length) d.length := by
    simp only [Session.roundPayload, hc, htake, InChan.store_eq hfits.2.2, hmid]
  have hput : lookup InChan.cid (s.midChunk (c.stored d) d.length).inChan s.parser.pkt = some (c.stored d) := by
    rw [← hkey]
    exact lookup_replace_self (c := c.stored d) (by rw [show (c.stored d).cid = c.cid from rfl, hkey]; exact hc)
  have hleft : (s.midChunk (c.stored d) d.length).payloadRoom (c.stored d) = s.payloadRoom c - d.length := by
    simp only [Session.payloadRoom, Session.midChunk, InChan.stored]
    omega
  have hfits' := payload_fits h hstate hc (t := d ++ e.take (s.payloadRoom c - d.length)) (by
    rw [length_append, length_take]; omega)
  have hstore : (c.stored d).store (e.take (s.payloadRoom c - d.length)) =
      some (c.stored (d ++ e.take (s.payloadRoom c - d.length))) := by
    rw [InChan.store_eq, InChan.stored_stored hfits.2.2]
    rw [InChan.length_stored hfits.2.2]
    have := hfits'.2.2
    rw [length_append, ← add_assoc] at this
    exact this
  have hround : (s.midChunk (c.stored d) d.length).round oom e = (s.midChunk (c.stored d) d.length).roundPayload e := by
    rw [Session.round, show (s.midChunk (c.stored d) d.length).parser.state = .payload from hstate]
  have hsplit : (d ++ e).take (s.payloadRoom c) = d ++ e.take (s.payloadRoom c - d.length) := by
    rw [take_append, take_of_length_le (by omega)]
  have hmore : s.roundPayload (d ++ e) = ((s.midChunk (c.stored d) d.length).round oom e).shift d.length := by
    rw [hround, Session.roundPayload, Session.roundPayload,
      show (s.midChunk (c.stored d) d.length).parser.pkt = s.parser.pkt from rfl, hput, hc]
    simp only [hsplit, InChan.store_eq hfits'.2.2, hleft, hstore, Round.shift, length_append]
    rw [@payloadDone_midChunk s (c.stored d) (c.stored (d ++ e.take (s.payloadRoom c - d.length))) rfl]
  rw [hnext, hmore]
  exact .more

theorem Session.Inv.round_append (h : s.Inv) (hd : d ≠ []) : Round.Extends d e oom (s.round oom d) (s.round oom (d ++ e)) := by
  rw [Session.round, Session.round]
  split <;> rename_i hstate
  · obtain ⟨b, d, rfl⟩ := exists_cons_of_ne_nil hd
    exact .same (Nat.succ_pos _)
  · exact roundBasicHeader_append hstate
  · exact roundMessageHeader_append h hstate
  · exact roundExtendedTimestamp_append h hstate
  · exact roundPayload_append h hstate

theorem Session.Inv.feed_append (h : s.Inv) : s.feed oom (d ++ e) = match s.feed oom d with
    | .ok s' => s'.feed oom e
    | r => r := by
  by_cases he : e = []
  · subst he
    rw [append_nil]
    cases s.feed oom d <;> simp only [feed_nil]
  induction s, d using Session.feed.induct oom with
  | case1 s => simp only [nil_append, feed_nil]
  | case2 s d hd s' n hround ih =>
    have hext := @Session.Inv.round_append oom s d e h hd
    have hsound := @Session.Inv.round oom s d h
    rw [hround] at hext hsound
    rw [feed_eq hd, feed_eq (append_ne_nil_of_left_ne_nil hd e), hround]
    generalize hwhole : s.round oom (d ++ e) = r at hext
    cases hext with
    | same hn =>
      simp only [drop_append_of_le_length hn]
      exact ih hsound
    | more =>
      simp only [drop_length, feed_nil]
      rw [feed_eq he]
      cases s'.round oom e with
      | next s'' m =>
        simp only [Round.shift]
        rw [← drop_drop, drop_left]
      | fatal s'' => rfl
      | fault => rfl
  | case3 s d hd s' hround =>
    have hext := @Session.Inv.round_append oom s d e h hd
    rw [hround] at hext
    rw [feed_eq hd, feed_eq (append_ne_nil_of_left_ne_nil hd e), hround]
    generalize hwhole : s.round oom (d ++ e) = r at hext
    cases hext
    rfl
  | case4 s d hd hround =>
    have hsound := @Session.Inv.round oom s d h
    rw [hround] at hsound
    exact hsound.elim

theorem Session.Inv.feedAll (h : s.Inv) : ∀ {ds : List (List UInt8)}, s.feedAll oom ds = s.feed oom ds.flatten := by
  intro ds
  induction ds generalizing s with
  | nil => rw [Session.feedAll, flatten_nil, feed_nil]
  | cons d ds ih =>
    rw [Session.feedAll, flatten_cons, h.feed_append]
    have hsound := @Session.Inv.feed oom s d h
    cases hd : s.feed oom d with
    | ok s' =>
      rw [hd] at hsound
      exact ih hsound
    | fatal s' => rfl
    | fault => rfl

/-! ## What is delivered stays delivered -/

variable {s' : Session}

theorem stepMessageHeader_delivered (h : s.stepMessageHeader need = .done s') : s'.delivered = s.delivered := by
  have hread : ∀ (s : Session) (c : InChan) (fmt : Nat), s.readHeader c fmt = .done s' → s'.delivered = s.delivered :=
    fun s c fmt h => by
      simp only [Session.readHeader] at h
      split at h
      · cases h
      · cases h
        rfl
  rw [Session.stepMessageHeader] at h
  split at h
  · cases h
  simp only at h
  split at h
  · exact hread _ _ _ h
  split at h
  · cases h
  · split at h
    · cases h
    · have hdone := hread _ _ _ h
      exact hdone

theorem stepExtendedTimestamp_delivered {c : InChan} {hasExt : Bool}
    (h : s.stepExtendedTimestamp oom c need hasExt = .done s') : s'.delivered = s.delivered := by
  rw [Session.stepExtendedTimestamp] at h
  split at h
  · cases h
  · split at h
    · cases halloc : (c.setClock (s.chunkTimestamp c hasExt)).allocPayload oom <;> simp only [halloc] at h <;> cases h
      rfl
    · cases h
      rfl

theorem payloadDone_delivered (s : Session) (c : InChan) (n : Nat) : s.delivered <+: (s.payloadDone c n).delivered := by
  simp only [Session.payloadDone]
  split
  · exact prefix_append _ _
  · split <;> exact prefix_rfl

theorem round_delivered {n : Nat} (h : s.round oom d = .next s' n) : s.delivered <+: s'.delivered := by
  rw [Session.round] at h
  split at h
  · cases h
    exact prefix_rfl
  · simp only [Session.roundBasicHeader, Round.next.injEq] at h
    rw [← h.1]
    split <;> exact prefix_rfl
  · simp only [Session.roundMessageHeader] at h
    split at h <;> rename_i hs <;> cases h
    · exact prefix_rfl
    · exact ⟨[], (append_nil _).trans (stepMessageHeader_delivered hs).symm⟩
  · simp only [Session.roundExtendedTimestamp] at h
    split at h
    · cases h
    · split at h <;> rename_i hs <;> cases h
      · exact prefix_rfl
      · exact ⟨[], (append_nil _).trans (stepExtendedTimestamp_delivered hs).symm⟩
  · simp only [Session.roundPayload] at h
    split at h
    · cases h
    · split at h <;> cases h
      exact payloadDone_delivered s _ _

theorem feed_delivered (h : s.feed oom d = .ok s') : s.delivered <+: s'.delivered := by
  induction s, d using Session.feed.induct oom with
  | case1 s =>
    rw [feed_nil, Fed.ok.injEq] at h
    exact h ▸ prefix_rfl
  | case2 s d hd s1 n hround ih =>
    rw [feed_eq hd, hround] at h
    exact (round_delivered hround).trans (ih h)
  | case3 s d hd s1 hround =>
    rw [feed_eq hd, hround] at h
    cases h
  | case4 s d hd hround =>
    rw [feed_eq hd, hround] at h
    cases h

end

end DvbIpiTools.Net.Rtmp
