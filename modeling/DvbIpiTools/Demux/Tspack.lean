import Mathlib.Data.List.Basic

set_option autoImplicit false

/-! # Cutting a stream into TS packets (`demux/tspack.c`)

Bytes come in chunks of any size. The end of a chunk that may be the beginning of a packet waits in the accumulator;
where the stream has no sync byte every 188 bytes, bytes are skipped up to the next one. -/

namespace DvbIpiTools.Demux

open List Option

/-- `tspack_sync_t`. -/
structure TspackSync where
  byteErrors : Nat := 0
  losses : Nat := 0
  badRun : Nat := 0
  goodRun : Nat := 0
  inSync : Bool := false
  candidate : Bool := false

namespace TspackSync

/-- `tspack_sync_good`. -/
def good (s : TspackSync) : TspackSync :=
  let s := { s with badRun := 0 }
  if s.goodRun < 5 then { s with goodRun := s.goodRun + 1, inSync := s.inSync || s.goodRun + 1 = 5 } else s

/-- `tspack_sync_bad`. -/
def bad (s : TspackSync) : TspackSync :=
  let s := { s with byteErrors := s.byteErrors + 1, goodRun := 0 }
  if s.badRun < 2 then
    let s := { s with badRun := s.badRun + 1 }
    if s.badRun = 2 ∧ s.inSync then { s with inSync := false, losses := s.losses + 1 } else s
  else s

/-- `sync_boundary`. -/
def boundary (s : TspackSync) (ok : Bool) : TspackSync :=
  if !ok then { s.bad with candidate := true }
  else if s.candidate then { s with candidate := false }
  else s.good

end TspackSync

/-- `tspack_t`: the accumulator never holds a whole packet between two rounds of the loop. -/
structure Tspack where
  acc : List UInt8 := []
  locked : Bool := false
  short : acc.length < 188 := by decide

/-- `resync_skip`: how far it is to the next sync byte, at least one. -/
def resyncSkip (d : List UInt8) : Nat := 1 + (d.tail.takeWhile fun b => b != 0x47).length

/-- A round of the loop: the packet it delivers, what it tells the sync statistics, and what is left. -/
structure FeedRound where
  packet : Option (List UInt8) := none
  boundary : Option Bool := none
  pz : Tspack
  rest : List UInt8

namespace Tspack

/-- The accumulator with the bytes that it lacks, as far as there are any. -/
def filled (pz : Tspack) (d : List UInt8) : List UInt8 := pz.acc ++ d.take (188 - pz.acc.length)

theorem filled_length_le (pz : Tspack) (d : List UInt8) : (pz.filled d).length ≤ 188 := by
  have := pz.short
  simp only [filled, length_append, length_take]
  omega

theorem drop_resyncSkip_short (pz : Tspack) (d : List UInt8) :
    ((pz.filled d).drop (resyncSkip (pz.filled d))).length < 188 := by
  have := pz.filled_length_le d
  simp only [length_drop, resyncSkip]
  omega

/-- A round with bytes in the accumulator. -/
def accRound (pz : Tspack) (d : List UInt8) : FeedRound :=
  let rest := d.drop (188 - pz.acc.length)
  if h : (pz.filled d).length < 188 then { pz := ⟨pz.filled d, pz.locked, h⟩, rest }
  else if !pz.locked ∧ rest ≠ [] ∧ rest.head? ≠ some 0x47 then
    { boundary := some false
      pz := ⟨(pz.filled d).drop (resyncSkip (pz.filled d)), pz.locked, pz.drop_resyncSkip_short d⟩
      rest }
  else
    { packet := some (pz.filled d)
      boundary := some true
      pz := { locked := pz.locked || rest.head? = some 0x47 }
      rest }

/-- A round without them, and a whole packet at hand. -/
def directRound (pz : Tspack) (d : List UInt8) : FeedRound :=
  if d.head? ≠ some 0x47 ∨ (!pz.locked ∧ 188 < d.length ∧ d[188]? ≠ some 0x47) then
    { boundary := some false, pz := {}, rest := d.drop (resyncSkip d) }
  else
    { packet := some (d.take 188)
      boundary := some true
      pz := { locked := pz.locked || d[188]? = some 0x47 }
      rest := d.drop 188 }

/-- A round with less than that. -/
def restRound (pz : Tspack) (d : List UInt8) (h : d.length < 188) : FeedRound :=
  if d.head? ≠ some 0x47 then { boundary := some false, pz := {}, rest := d.drop (resyncSkip d) }
  else { pz := ⟨d, pz.locked, h⟩, rest := [] }

/-- A round of the loop of `feed_core`. -/
def round (pz : Tspack) (d : List UInt8) : FeedRound :=
  if pz.acc ≠ [] then pz.accRound d
  else if h : d.length < 188 then pz.restRound d h
  else pz.directRound d

theorem round_rest_length_lt (pz : Tspack) {d : List UInt8} (hd : d ≠ []) : (pz.round d).rest.length < d.length := by
  have hpos := length_pos_iff.2 hd
  have hshort := pz.short
  unfold round
  split
  · unfold accRound
    dsimp only
    split
    · simp only [length_drop]
      omega
    · split
      · simp only [length_drop]
        omega
      · simp only [length_drop]
        omega
  split
  · unfold restRound
    split
    · simp only [length_drop, resyncSkip]
      omega
    · exact hpos
  unfold directRound
  split
  · simp only [length_drop, resyncSkip]
    omega
  · simp only [length_drop]
    omega

end Tspack

/-- A feed so far: all that was delivered, and whether the callback stopped the call. -/
structure Feed where
  pz : Tspack := {}
  sync : Option TspackSync := none
  delivered : List (List UInt8) := []
  stopped : Bool := false

namespace Feed

/-- What a round leaves. -/
def after (s : Feed) (r : FeedRound) : Feed := { s with
    pz := r.pz
    sync := match r.boundary with
      | none => s.sync
      | some ok => s.sync.map fun y => y.boundary ok
    delivered := s.delivered ++ r.packet.toList }

/-- `feed_core`; `stop` says whether the callback ends the call, from all that was delivered. -/
def feedCore (stop : List (List UInt8) → Bool) (s : Feed) (d : List UInt8) : Feed :=
  if _hd : d = [] then s
  else
    let r := s.pz.round d
    let s' := s.after r
    if r.packet.isSome && stop s'.delivered then { s' with stopped := true } else s'.feedCore stop r.rest
termination_by d.length
decreasing_by exact Tspack.round_rest_length_lt _ _hd

/-- `tspack_feed`, or `tspack_feed_sync` where there are statistics to keep. -/
def tspackFeed (stop : List (List UInt8) → Bool) (s : Feed) (chunk : List UInt8) : Feed :=
  feedCore stop { s with stopped := false } chunk

end Feed

/-! ## What is delivered -/

/-- A TS packet. -/
def IsTsPacket (p : List UInt8) : Prop := p.length = 188 ∧ p.head? = some 0x47

/-- `PacketFramed s ps`: the packets `ps` stand in the stream `s` in this order, none over another, with any bytes around
them. -/
inductive PacketFramed : List UInt8 → List (List UInt8) → Prop
  | nil : PacketFramed [] []
  | skip {s : List UInt8} {ps : List (List UInt8)} (h : PacketFramed s ps) (gap : List UInt8) : PacketFramed (s ++ gap) ps
  | packet {s : List UInt8} {ps : List (List UInt8)} (h : PacketFramed s ps) {p : List UInt8} (hp : IsTsPacket p) :
      PacketFramed (s ++ p) (ps ++ [p])

namespace Tspack

/-- What waits begins like a packet. -/
def Synced (pz : Tspack) : Prop := pz.acc = [] ∨ pz.acc.head? = some 0x47

theorem drop_resyncSkip_cons (x : UInt8) (d : List UInt8) :
    (x :: d).drop (resyncSkip (x :: d)) = d.dropWhile fun b => b != 0x47 := by
  have hsplit := takeWhile_append_dropWhile (p := fun b => b != (0x47 : UInt8)) (l := d)
  calc (x :: d).drop (resyncSkip (x :: d))
      = d.drop (d.takeWhile fun b => b != 0x47).length := by
        rw [resyncSkip, tail_cons, Nat.add_comm, drop_succ_cons]
    _ = ((d.takeWhile fun b => b != 0x47) ++ d.dropWhile fun b => b != 0x47).drop
          (d.takeWhile fun b => b != 0x47).length := by rw [hsplit]
    _ = d.dropWhile fun b => b != 0x47 := drop_left

theorem head?_drop_resyncSkip (d : List UInt8) :
    d.drop (resyncSkip d) = [] ∨ (d.drop (resyncSkip d)).head? = some 0x47 := by
  cases d with
  | nil => exact .inl (by simp)
  | cons x d =>
    rw [drop_resyncSkip_cons]
    have hhead := head?_dropWhile_not (fun b => b != (0x47 : UInt8)) d
    cases hd : d.dropWhile fun b => b != 0x47 with
    | nil => exact .inl rfl
    | cons y ys =>
      rw [hd] at hhead
      simp only [head?_cons, bne_eq_false_iff_eq] at hhead
      exact .inr (congrArg some hhead)

/-- What a round does to the bytes: it delivers the packet at their front, or skips some of them, or none. -/
structure Moved (pz : Tspack) (d : List UInt8) (r : FeedRound) : Prop where
  synced : r.pz.Synced
  rest : r.rest <:+ d
  empty : r.packet ≠ none → r.pz.acc = []
  bytes : ∃ gone, pz.acc ++ d = gone ++ (r.pz.acc ++ r.rest) ∧ ∀ p, r.packet = some p → gone = p ∧ IsTsPacket p

theorem filled_append_drop (pz : Tspack) (d : List UInt8) :
    pz.filled d ++ d.drop (188 - pz.acc.length) = pz.acc ++ d := by
  rw [filled, append_assoc, take_append_drop]

variable {pz : Tspack}

theorem head?_filled (hacc : pz.acc ≠ []) (d : List UInt8) : (pz.filled d).head? = pz.acc.head? := by
  rw [filled, head?_append_of_ne_nil _ hacc]

theorem accRound_moved (hsync : pz.Synced) (hacc : pz.acc ≠ []) (d : List UInt8) : Moved pz d (pz.accRound d) := by
  have hhead : (pz.filled d).head? = some 0x47 := (head?_filled hacc d).trans (hsync.resolve_left hacc)
  have hsplit := (pz.filled_append_drop d).symm
  unfold accRound
  dsimp only
  split
  · exact ⟨.inr hhead, drop_suffix _ _, absurd rfl, [], hsplit, fun p hp => absurd hp (by simp)⟩
  rename_i hfull
  have hlen : (pz.filled d).length = 188 := Nat.le_antisymm (pz.filled_length_le d) (Nat.not_lt.1 hfull)
  split
  · -- the packet in the accumulator is given up
    refine ⟨head?_drop_resyncSkip _, drop_suffix _ _, absurd rfl, (pz.filled d).take (resyncSkip (pz.filled d)), ?_, fun p hp => absurd hp (by simp)⟩
    rw [hsplit, ← append_assoc, take_append_drop]
  · refine ⟨.inl rfl, drop_suffix _ _, fun _ => rfl, pz.filled d, hsplit, fun p hp => ?_⟩
    rw [← some.inj hp]
    exact ⟨rfl, hlen, hhead⟩

theorem restRound_moved (hacc : pz.acc = []) {d : List UInt8} (h : d.length < 188) :
    Moved pz d (pz.restRound d h) := by
  unfold restRound
  split
  · refine ⟨.inl rfl, drop_suffix _ _, fun _ => rfl, d.take (resyncSkip d), ?_, fun p hp => absurd hp (by simp)⟩
    simp [hacc]
  · refine ⟨.inr (not_not.1 ‹_›), nil_suffix, absurd rfl, [], ?_, fun p hp => absurd hp (by simp)⟩
    simp [hacc]

theorem directRound_moved (hacc : pz.acc = []) {d : List UInt8} (h : ¬d.length < 188) :
    Moved pz d (pz.directRound d) := by
  unfold directRound
  split
  · refine ⟨.inl rfl, drop_suffix _ _, fun _ => rfl, d.take (resyncSkip d), ?_, fun p hp => absurd hp (by simp)⟩
    simp [hacc]
  rename_i hgood
  have hhead : d.head? = some 0x47 := not_not.1 (not_or.1 hgood).1
  refine ⟨.inl rfl, drop_suffix _ _, fun _ => rfl, d.take 188, by simp [hacc], fun p hp => ?_⟩
  rw [← some.inj hp]
  refine ⟨rfl, length_take_of_le (Nat.not_lt.1 h), ?_⟩
  rw [head?_take, if_neg (by decide), hhead]

theorem round_moved (hsync : pz.Synced) (d : List UInt8) : Moved pz d (pz.round d) := by
  unfold round
  split
  · exact accRound_moved hsync ‹_› d
  · rename_i hacc
    split
    · exact restRound_moved (not_not.1 hacc) _
    · exact directRound_moved (not_not.1 hacc) ‹_›

end Tspack

namespace Feed

/-- What holds between two rounds: everything before what waits is framed. -/
structure Inv (s : Feed) (stream : List UInt8) : Prop where
  synced : s.pz.Synced
  framed : ∃ gone, stream = gone ++ s.pz.acc ∧ PacketFramed gone s.delivered

variable {s : Feed}

theorem Inv.after {stream d : List UInt8} {r : FeedRound} (h : s.Inv stream) (hr : Tspack.Moved s.pz d r) :
    ∃ taken, d = taken ++ r.rest ∧ (s.after r).Inv (stream ++ taken) := by
  obtain ⟨gone, hstream, hframed⟩ := h.framed
  obtain ⟨more, hbytes, hpacket⟩ := hr.bytes
  obtain ⟨taken, htaken⟩ := hr.rest
  refine ⟨taken, htaken.symm, hr.synced, gone ++ more, ?_, ?_⟩
  · have hsame : s.pz.acc ++ taken = more ++ r.pz.acc := by
      rw [← htaken, ← append_assoc, ← append_assoc] at hbytes
      exact append_cancel_right hbytes
    rw [hstream, append_assoc, hsame, append_assoc]
    rfl
  unfold Feed.after
  cases hp : r.packet with
  | none =>
    rw [toList_none, append_nil]
    exact hframed.skip more
  | some p =>
    obtain ⟨rfl, hp⟩ := hpacket p hp
    exact hframed.packet hp

variable {stop : List (List UInt8) → Bool} {stream : List UInt8}

/-- A call that the callback ends leaves nothing in the accumulator, and the rest of its bytes behind. -/
theorem Inv.ended (h : s.Inv stream) (hacc : s.pz.acc = []) (rest : List UInt8) :
    Inv { s with stopped := true } (stream ++ rest) := by
  obtain ⟨gone, hstream, hframed⟩ := h.framed
  refine ⟨.inl hacc, gone ++ rest, ?_, hframed.skip rest⟩
  rw [hstream, hacc, append_nil, append_nil]

theorem Inv.feedCore (h : s.Inv stream) (d : List UInt8) : (s.feedCore stop d).Inv (stream ++ d) := by
  induction hn : d.length using Nat.strongRecOn generalizing s stream d with
  | ind n ih =>
    unfold Feed.feedCore
    split
    · rename_i hd
      rw [hd, append_nil]
      exact h
    rename_i hd
    have hmoved := Tspack.round_moved h.synced d
    obtain ⟨taken, htaken, hinv⟩ := h.after hmoved
    dsimp only
    split
    · rename_i hstop
      simp only [Bool.and_eq_true] at hstop
      have hended := hinv.ended (hmoved.empty (isSome_iff_ne_none.1 hstop.1)) (s.pz.round d).rest
      rwa [append_assoc, ← htaken] at hended
    · have hrec := ih _ (hn ▸ s.pz.round_rest_length_lt hd) hinv (s.pz.round d).rest rfl
      rwa [append_assoc, ← htaken] at hrec

/-- A run of calls. -/
def feedAll (stop : List (List UInt8) → Bool) (s : Feed) (chunks : List (List UInt8)) : Feed :=
  chunks.foldl (tspackFeed stop) s

theorem Inv.feedAll {s : Feed} (h : s.Inv stream) (chunks : List (List UInt8)) :
    (s.feedAll stop chunks).Inv (stream ++ chunks.flatten) := by
  induction chunks generalizing s stream with
  | nil =>
    rw [flatten_nil, append_nil]
    exact h
  | cons c cs ih =>
    have hcall : Inv { s with stopped := false } stream := ⟨h.synced, h.framed⟩
    rw [flatten_cons, ← append_assoc]
    exact ih (hcall.feedCore c)

theorem Inv.framed_stream (h : s.Inv stream) : PacketFramed stream s.delivered := by
  obtain ⟨gone, hstream, hframed⟩ := h.framed
  exact hstream ▸ hframed.skip _

end Feed

/-! ## A stream of packets -/

/-- The beginning of a packet. -/
def Unfinished (t : List UInt8) : Prop := t.length < 188 ∧ (t = [] ∨ t.head? = some 0x47)

/-- A stream of whole packets, and the beginning of one more. -/
structure Aligned (stream : List UInt8) (ps : List (List UInt8)) (t : List UInt8) : Prop where
  bytes : stream = ps.flatten ++ t
  packets : ∀ p ∈ ps, IsTsPacket p
  unfinished : Unfinished t

namespace Aligned

variable {stream t : List UInt8} {ps : List (List UInt8)} (h : Aligned stream ps t)

include h

theorem head? (hne : stream ≠ []) : stream.head? = some 0x47 := by
  cases ps with
  | nil =>
    have hstream : stream = t := by simpa using h.bytes
    exact hstream ▸ h.unfinished.2.resolve_left (hstream ▸ hne)
  | cons p ps =>
    obtain ⟨hlen, hhead⟩ := h.packets p mem_cons_self
    have hp : p ≠ [] := fun hp => by simp [hp] at hlen
    rw [h.bytes, flatten_cons, append_assoc, head?_append_of_ne_nil _ hp, hhead]

theorem cut {front rest : List UInt8} (hstream : stream = front ++ rest)
    (hlen : front.length = 188) : ∃ ps', ps = front :: ps' ∧ Aligned rest ps' t := by
  cases ps with
  | nil =>
    have hall := congrArg length (hstream.symm.trans h.bytes)
    have ht := h.unfinished.1
    simp only [length_append, flatten_nil, nil_append] at hall
    omega
  | cons p ps =>
    have hsame : front ++ rest = p ++ (ps.flatten ++ t) := by
      rw [← hstream, h.bytes, flatten_cons, append_assoc]
    obtain ⟨rfl, hrest⟩ := append_inj hsame (hlen.trans (h.packets p mem_cons_self).1.symm)
    exact ⟨ps, rfl, hrest, fun q hq => h.packets q (.tail _ hq), h.unfinished⟩

theorem of_short (hlen : stream.length < 188) : ps = [] ∧ stream = t := by
  cases ps with
  | nil => exact ⟨rfl, by simpa using h.bytes⟩
  | cons p ps =>
    have hp := (h.packets p mem_cons_self).1
    have hall := congrArg length h.bytes
    simp only [flatten_cons, length_append] at hall
    omega

omit h

/-- A cut anywhere leaves a stream of packets on both sides, with what is cut through on the right. -/
theorem split {a b : List UInt8} (h : Aligned (a ++ b) ps t) :
    ∃ ps1 ps2 mid, ps = ps1 ++ ps2 ∧ Aligned a ps1 mid ∧ Aligned (mid ++ b) ps2 t := by
  induction hn : a.length using Nat.strongRecOn generalizing a ps with
  | ind n ih =>
    rcases Nat.lt_or_ge a.length 188 with hshort | hlong
    · refine ⟨[], ps, a, rfl, ⟨rfl, nofun, hshort, ?_⟩, h⟩
      by_cases ha : a = []
      · exact .inl ha
      · have hhead := h.head? (append_ne_nil_of_left_ne_nil ha b)
        rw [head?_append_of_ne_nil _ ha] at hhead
        exact .inr hhead
    have hfront : a ++ b = a.take 188 ++ (a.drop 188 ++ b) := by rw [← append_assoc, take_append_drop]
    have hlen : (a.take 188).length = 188 := length_take_of_le hlong
    obtain ⟨ps', rfl, hrest⟩ := h.cut hfront hlen
    obtain ⟨ps1, ps2, mid, rfl, hleft, hright⟩ := ih _ (by rw [length_drop]; omega) hrest rfl
    refine ⟨a.take 188 :: ps1, ps2, mid, rfl, ⟨?_, fun p hp => ?_, hleft.unfinished⟩, hright⟩
    · rw [flatten_cons, append_assoc, ← hleft.bytes, take_append_drop]
    · rcases mem_cons.1 hp with rfl | hp
      · exact h.packets _ mem_cons_self
      · exact hleft.packets p hp

end Aligned

namespace Tspack

variable {pz : Tspack} {d t : List UInt8} {ps : List (List UInt8)}

/-- What a round on a stream of packets does: it delivers the first one, or nothing, and skips nothing. -/
def Keeps (ps : List (List UInt8)) (t : List UInt8) (r : FeedRound) : Prop :=
  (r.packet = none ∧ Aligned (r.pz.acc ++ r.rest) ps t) ∨
    ∃ p ps', ps = p :: ps' ∧ r.packet = some p ∧ Aligned (r.pz.acc ++ r.rest) ps' t

theorem accRound_aligned (h : Aligned (pz.acc ++ d) ps t) : Keeps ps t (pz.accRound d) := by
  have hsplit := (pz.filled_append_drop d).symm
  unfold accRound
  dsimp only
  split
  · exact .inl ⟨rfl, hsplit ▸ h⟩
  rename_i hfull
  have hlen : (pz.filled d).length = 188 := Nat.le_antisymm (pz.filled_length_le d) (Nat.not_lt.1 hfull)
  obtain ⟨ps', hps, hrest⟩ := h.cut hsplit hlen
  split
  · rename_i hlost
    exact absurd (hrest.head? hlost.2.1) hlost.2.2
  · exact .inr ⟨pz.filled d, ps', hps, rfl, hrest⟩

theorem restRound_aligned (hd : d ≠ []) (hshort : d.length < 188) (h : Aligned d ps t) :
    Keeps ps t (pz.restRound d hshort) := by
  unfold restRound
  rw [if_neg (not_not.2 (h.head? hd))]
  exact .inl ⟨rfl, by rwa [append_nil]⟩

theorem directRound_aligned (hlong : ¬d.length < 188) (h : Aligned d ps t) : Keeps ps t (pz.directRound d) := by
  have hd : d ≠ [] := fun hd => hlong (by rw [hd]; decide)
  have hsplit : d = d.take 188 ++ d.drop 188 := (take_append_drop 188 d).symm
  obtain ⟨ps', hps, hrest⟩ := h.cut hsplit (length_take_of_le (Nat.not_lt.1 hlong))
  unfold directRound
  split
  · rename_i hlost
    rcases hlost with hfirst | ⟨-, hmore, hnext⟩
    · exact absurd (h.head? hd) hfirst
    have hne : d.drop 188 ≠ [] := fun hnil => by
      have := drop_eq_nil_iff.1 hnil
      omega
    have hhead := hrest.head? hne
    rw [head?_drop] at hhead
    exact absurd hhead hnext
  · exact .inr ⟨d.take 188, ps', hps, rfl, hrest⟩

theorem round_aligned (hd : d ≠ []) (h : Aligned (pz.acc ++ d) ps t) : Keeps ps t (pz.round d) := by
  unfold round
  split
  · exact accRound_aligned h
  · rename_i hacc
    rw [not_not.1 hacc, nil_append] at h
    split
    · exact restRound_aligned hd _ h
    · exact directRound_aligned ‹_› h

end Tspack

namespace Feed

/-- A callback that never ends a call. -/
def goOn : List (List UInt8) → Bool := fun _ => false

theorem feedCore_aligned {s : Feed} {d t : List UInt8} {ps : List (List UInt8)} (h : Aligned (s.pz.acc ++ d) ps t) :
    (s.feedCore goOn d).delivered = s.delivered ++ ps ∧ (s.feedCore goOn d).pz.acc = t := by
  induction hn : d.length using Nat.strongRecOn generalizing s d ps with
  | ind n ih =>
    unfold Feed.feedCore
    split
    · rename_i hd
      rw [hd, append_nil] at h
      obtain ⟨rfl, hacc⟩ := h.of_short s.pz.short
      exact ⟨(append_nil _).symm, hacc⟩
    rename_i hd
    have hlt := hn ▸ s.pz.round_rest_length_lt hd
    have hno (r : FeedRound) : ¬(r.packet.isSome && goOn (s.after r).delivered) = true := by simp [goOn]
    rw [if_neg (hno _)]
    rcases Tspack.round_aligned hd h with ⟨hnone, hrest⟩ | ⟨p, ps', rfl, hsome, hrest⟩
    · obtain ⟨hdelivered, hacc⟩ := ih _ hlt (s := s.after (s.pz.round d)) hrest rfl
      refine ⟨hdelivered.trans ?_, hacc⟩
      simp only [after, hnone, toList_none, append_nil]
    · obtain ⟨hdelivered, hacc⟩ := ih _ hlt (s := s.after (s.pz.round d)) hrest rfl
      refine ⟨hdelivered.trans ?_, hacc⟩
      simp only [after, hsome, toList_some, append_assoc, cons_append, nil_append]

theorem feedAll_aligned {s : Feed} {chunks : List (List UInt8)} {t : List UInt8} {ps : List (List UInt8)}
    (h : Aligned (s.pz.acc ++ chunks.flatten) ps t) :
    (s.feedAll goOn chunks).delivered = s.delivered ++ ps ∧ (s.feedAll goOn chunks).pz.acc = t := by
  induction chunks generalizing s ps with
  | nil =>
    rw [flatten_nil, append_nil] at h
    obtain ⟨rfl, hacc⟩ := h.of_short s.pz.short
    exact ⟨(append_nil _).symm, hacc⟩
  | cons c cs ih =>
    rw [flatten_cons, ← append_assoc] at h
    obtain ⟨ps1, ps2, mid, rfl, hleft, hright⟩ := h.split
    obtain ⟨hdelivered, hacc⟩ := feedCore_aligned (s := { s with stopped := false }) hleft
    obtain ⟨hall, hend⟩ := ih (s := s.tspackFeed goOn c) (by rw [tspackFeed, hacc]; exact hright)
    refine ⟨hall.trans ?_, hend⟩
    rw [tspackFeed, hdelivered, append_assoc]

/-- However a stream is cut into calls, and whenever the callback ends one, what is delivered are packets of the stream,
in its order and none over another; and a stream of packets is delivered whole. -/
theorem tspackFeed_framing (sync : Option TspackSync) (chunks : List (List UInt8)) :
    (∀ stop, PacketFramed chunks.flatten (feedAll stop { sync } chunks).delivered) ∧
    ∀ ps t, Aligned chunks.flatten ps t → (feedAll goOn { sync } chunks).delivered = ps := by
  have hinit : Inv { sync } [] := ⟨.inl rfl, [], rfl, .nil⟩
  refine ⟨fun stop => ?_, fun ps t h => ?_⟩
  · have hinv := @Inv.feedAll stop _ _ hinit chunks
    exact hinv.framed_stream
  · have hall := (feedAll_aligned (s := { sync }) (by rw [nil_append]; exact h)).1
    rwa [nil_append] at hall

/-- A packet in two calls. -/
theorem tspackFeed_framing_two : (feedAll goOn {} [0x47 :: replicate 99 0, replicate 88 0]).delivered =
      [0x47 :: replicate 187 0] :=
  (tspackFeed_framing none [0x47 :: replicate 99 0, replicate 88 0]).2 _ []
    ⟨rfl, fun p hp => mem_singleton.1 hp ▸ ⟨rfl, rfl⟩, by decide, .inl rfl⟩

end Feed

end DvbIpiTools.Demux
