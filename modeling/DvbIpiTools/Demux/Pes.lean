import Mathlib.Data.List.Nodup
import DvbIpiTools.Demux.SectionAsm

set_option autoImplicit false

/-! # PES packets out of transport packets (`demux/pes.c`)

Every tracked PID has a buffer, where the PES packet in progress is put together; its header is taken off as soon as
it is there. The next start on the PID or a flush gives what has come to the callback. -/

namespace DvbIpiTools.Demux

open BeUtil List

def pesMax : Nat := 16
def pesMaxBytes : Nat := 16 <<< 20

/-- What the callback is given; a time that the header does not have is none. -/
structure PesUnit where
  pid : Nat
  pts : Option Nat
  dts : Option Nat
  data : List UInt8

/-- `stream_t`; of the buffer the bytes in use. -/
structure PesStream where
  pid : Nat
  started : Bool := false
  hdr : Bool := false
  hasPts : Bool := false
  hasDts : Bool := false
  pts : Nat := 0
  dts : Nat := 0
  buf : List UInt8 := []

/-- `struct pes`. -/
structure Pes where
  s : List PesStream := []
  lastIdx : Nat := 0

def readPts (p : List UInt8) (off : Nat) : Nat :=
  (byteAt p off &&& 0x0E) <<< 29 ||| byteAt p (off + 1) <<< 22 ||| (byteAt p (off + 2) &&& 0xFE) <<< 14 |||
    byteAt p (off + 3) <<< 7 ||| byteAt p (off + 4) >>> 1

def pesTrack (p : Pes) (pid : Nat) : Bool × Pes :=
  if p.s.length ≥ pesMax then (false, p) else (true, { p with s := p.s ++ [{ pid }] })

/-- `find`: the index is also remembered. -/
def Pes.find (p : Pes) (pid : Nat) : Option Nat × Pes :=
  if (p.s[p.lastIdx]?).any fun s => s.pid = pid then (some p.lastIdx, p)
  else match p.s.findIdx? fun s => s.pid = pid with
    | none => (none, p)
    | some i => (some i, { p with lastIdx := i })

namespace PesStream

def reset (s : PesStream) : PesStream := { s with started := false, hdr := false, buf := [] }

def deliver (s : PesStream) : List PesUnit × PesStream := (if s.started ∧ ¬ s.hdr ∧ s.buf ≠ [] then
    [⟨s.pid, if s.hasPts then some s.pts else none, if s.hasDts then some s.dts else none, s.buf⟩]
  else [], s.reset)

/-- `append`; `oom` when the buffer cannot grow. -/
def append (oom : Bool) (s : PesStream) (d : List UInt8) : PesStream :=
  if s.buf.length + d.length > pesMaxBytes then s.reset
  else if oom then s
  else { s with buf := s.buf ++ d }

def parseHdr (s : PesStream) : PesStream :=
  let b := s.buf
  if b.length ≥ 3 ∧ (byteAt b 0 ≠ 0 ∨ byteAt b 1 ≠ 0 ∨ byteAt b 2 ≠ 1) then s.reset
  else if b.length < 9 then s
  else
    let need := 9 + byteAt b 8
    if b.length < need then s
    else
      let hasPts : Bool := byteAt b 7 &&& 0x80 ≠ 0 ∧ byteAt b 8 ≥ 5
      let hasDts : Bool := byteAt b 7 &&& 0xC0 = 0xC0 ∧ byteAt b 8 ≥ 10
      { s with
        hdr := false
        hasPts
        hasDts
        pts := if hasPts then readPts b 9 else s.pts
        dts := if hasDts then readPts b 14 else s.dts
        buf := b.drop need }

/-- What `pes_feed` does with the payload of a packet. -/
def feed (oom : Bool) (s : PesStream) (pl : List UInt8) (pusi : Bool) : List PesUnit × PesStream :=
  if pusi then
    let (out, s) := s.deliver
    let s := append oom { s with hasPts := false, hasDts := false, started := true, hdr := true } pl
    (out, if s.buf ≠ [] then s.parseHdr else { s with started := false })
  else if s.started then
    let s := s.append oom pl
    ([], if s.hdr then s.parseHdr else s)
  else ([], s)

/-- What `pes_feed` does with a packet of the PID. -/
def feedPacket (oom : Bool) (s : PesStream) (pkt : List UInt8) : List PesUnit × PesStream :=
  match tspackPayload pkt with
  | none => ([], s)
  | some (pl, pusi) => s.feed oom pl pusi

/-- Packets of the PID one after the other, with memory for all of them. -/
def feedPackets (s : PesStream) : List (List UInt8) → List PesUnit × PesStream
  | [] => ([], s)
  | pkt :: pkts =>
    let (out, s) := s.feedPacket false pkt
    let (outs, s) := s.feedPackets pkts
    (out ++ outs, s)

end PesStream

def pesFeed (oom : Bool) (p : Pes) (pkt : List UInt8) : List PesUnit × Pes :=
  if byteAt pkt 0 ≠ 0x47 then ([], p)
  else match p.find (tspackPid pkt) with
    | (none, p) => ([], p)
    | (some i, p) =>
      match p.s[i]? with
      | none => ([], p)
      | some s =>
        let (out, s) := s.feedPacket oom pkt
        (out, { p with s := p.s.set i s })

/-- Packets one after the other, with memory for all of them. -/
def pesFeedAll (p : Pes) : List (List UInt8) → List PesUnit × Pes
  | [] => ([], p)
  | pkt :: pkts =>
    let (out, p) := pesFeed false p pkt
    let (outs, p) := pesFeedAll p pkts
    (out ++ outs, p)

def pesFlush (p : Pes) : List PesUnit × Pes :=
  (p.s.flatMap fun s => s.deliver.1, { p with s := p.s.map fun s => s.deliver.2 })

/-! ## The PIDs apart

The cache is of no consequence: a packet goes to the stream of its PID, and no other stream changes. -/

/-- A packet that `pes_feed` gives to the stream of `pid`. -/
def isOfPid (pid : Nat) (pkt : List UInt8) : Bool := byteAt pkt 0 = 0x47 ∧ tspackPid pkt = pid

/-- What a stream does with any packet: those of other PIDs are not for it. -/
def PesStream.offer (oom : Bool) (s : PesStream) (pkt : List UInt8) : List PesUnit × PesStream :=
  if isOfPid s.pid pkt then s.feedPacket oom pkt else ([], s)

theorem map_at {α : Type} (key : α → Nat) (f : α → α) {l : List α} {i : Nat} {x : α} (hnodup : (l.map key).Nodup)
    (hx : l[i]? = some x) : l.map (fun y => if key x = key y then f y else y) = l.set i (f x) := by
  obtain ⟨hi, rfl⟩ := List.getElem?_eq_some_iff.1 hx
  refine ext_getElem (by simp) fun j hj _ => ?_
  rw [length_map] at hj
  have hsame := @Nodup.getElem_inj_iff _ _ hnodup i (by rwa [length_map]) j (by rwa [length_map])
  rw [getElem_map, getElem_map] at hsame
  rw [getElem_map, getElem_set]
  by_cases hij : i = j
  · subst hij
    rw [if_pos rfl, if_pos rfl]
  · rw [if_neg (fun h => hij (hsame.1 h)), if_neg hij]

theorem flatMap_at {α β : Type} (key : α → Nat) (g : α → List β) {l : List α} {x : α} (hnodup : (l.map key).Nodup)
    (hx : x ∈ l) : l.flatMap (fun y => if key x = key y then g y else []) = g x := by
  obtain ⟨a, b, rfl⟩ := append_of_mem hx
  rw [map_append, map_cons, nodup_middle, nodup_cons, ← map_append] at hnodup
  have hrest (y : α) (hy : y ∈ a ++ b) : (if key x = key y then g y else []) = [] :=
    if_neg fun heq => hnodup.1 (mem_map.2 ⟨y, hy, heq.symm⟩)
  rw [flatMap_append, flatMap_cons, if_pos rfl, flatMap_eq_nil_iff.2 fun y hy => hrest y (mem_append_left b hy),
    flatMap_eq_nil_iff.2 fun y hy => hrest y (mem_append_right a hy), nil_append, append_nil]

theorem find_spec (p : Pes) (pid : Nat) : (p.find pid).2.s = p.s ∧ match (p.find pid).1 with
      | none => ∀ s ∈ p.s, s.pid ≠ pid
      | some i => ∃ s, p.s[i]? = some s ∧ s.pid = pid := by
  unfold Pes.find
  split
  · next hany =>
    refine ⟨rfl, ?_⟩
    rcases hs : p.s[p.lastIdx]? with _ | s
    · rw [hs] at hany
      cases hany
    · rw [hs] at hany
      exact ⟨s, hs, of_decide_eq_true hany⟩
  split
  · next hnone =>
    refine ⟨rfl, ?_⟩
    intro s hs
    have := findIdx?_eq_none_iff.1 hnone s hs
    exact of_decide_eq_false this
  · next i hi =>
    refine ⟨rfl, ?_⟩
    obtain ⟨hlt, hpid, -⟩ := findIdx?_eq_some_iff_getElem.1 hi
    exact ⟨_, getElem?_eq_getElem hlt, of_decide_eq_true hpid⟩

theorem pesFeed_streams (oom : Bool) {p : Pes} (hnodup : (p.s.map PesStream.pid).Nodup) (pkt : List UInt8) :
    (pesFeed oom p pkt).1 = (p.s.flatMap fun s => (s.offer oom pkt).1) ∧
      (pesFeed oom p pkt).2.s = p.s.map fun s => (s.offer oom pkt).2 := by
  unfold pesFeed
  split
  · next hsync =>
    have hnot : ∀ s : PesStream, s.offer oom pkt = ([], s) := fun s => by simp [PesStream.offer, isOfPid, hsync]
    simp [hnot]
  rename_i hsync
  have hoffer : ∀ s : PesStream, s.offer oom pkt =
      if tspackPid pkt = s.pid then s.feedPacket oom pkt else ([], s) := fun s => by
    simp [PesStream.offer, isOfPid, not_not.1 hsync]
  obtain ⟨hs, hfind⟩ := find_spec p (tspackPid pkt)
  rcases hp : p.find (tspackPid pkt) with ⟨_ | i, p'⟩
  · rw [hp] at hs hfind
    have hnone : ∀ s ∈ p.s, s.offer oom pkt = ([], s) := by
      intro s hmem
      rw [hoffer, if_neg fun heq => hfind s hmem heq.symm]
    refine ⟨?_, ?_⟩
    · symm
      rw [flatMap_eq_nil_iff]
      intro s hmem
      rw [hnone s hmem]
    · rw [map_congr_left fun s hmem => congrArg Prod.snd (hnone s hmem), map_id', hs]
  · rw [hp] at hs hfind
    obtain ⟨s, hi, hpid⟩ := hfind
    have hi' : p'.s[i]? = some s := by rw [hs, hi]
    simp only [hi', hoffer, ← hpid, apply_ite Prod.fst, apply_ite Prod.snd]
    refine ⟨?_, ?_⟩
    · exact (flatMap_at PesStream.pid (fun s => (s.feedPacket oom pkt).1) hnodup (mem_of_getElem? hi)).symm
    · rw [map_at PesStream.pid (fun s => (s.feedPacket oom pkt).2) hnodup hi, hs]

namespace PesStream

variable (s : PesStream)

theorem deliver_pid : ∀ u ∈ s.deliver.1, u.pid = s.pid := by
  intro u hu
  simp only [deliver] at hu
  split at hu
  · rw [mem_singleton.1 hu]
  · cases hu

variable (oom : Bool)

theorem append_pid (s : PesStream) (d : List UInt8) : (s.append oom d).pid = s.pid := by
  unfold append
  split
  · rfl
  · split <;> rfl

theorem parseHdr_pid : s.parseHdr.pid = s.pid := by
  unfold parseHdr
  simp only
  split
  · rfl
  · split
    · rfl
    · split <;> rfl

theorem feedPacket_pid (s : PesStream) (pkt : List UInt8) :
    (s.feedPacket oom pkt).2.pid = s.pid ∧ ∀ u ∈ (s.feedPacket oom pkt).1, u.pid = s.pid := by
  unfold feedPacket
  split
  · exact ⟨rfl, nofun⟩
  rename_i pl pusi _
  unfold feed
  split
  · refine ⟨?_, s.deliver_pid⟩
    simp only
    split
    · rw [parseHdr_pid, append_pid]
      rfl
    · exact append_pid ..
  split
  · refine ⟨?_, nofun⟩
    simp only
    split
    · rw [parseHdr_pid, append_pid]
    · exact append_pid ..
  · exact ⟨rfl, nofun⟩

theorem offer_pid (s : PesStream) (pkt : List UInt8) :
    (s.offer oom pkt).2.pid = s.pid ∧ ∀ u ∈ (s.offer oom pkt).1, u.pid = s.pid := by
  unfold offer
  split
  · exact s.feedPacket_pid oom pkt
  · exact ⟨rfl, nofun⟩

theorem feedPackets_pid (pkts : List (List UInt8)) : (s.feedPackets pkts).2.pid = s.pid := by
  induction pkts generalizing s with
  | nil => rfl
  | cons pkt pkts ih => exact (ih _).trans (s.feedPacket_pid false pkt).1

theorem feedPackets_offer (pkt : List UInt8) (pkts : List (List UInt8)) :
    s.feedPackets ((pkt :: pkts).filter (isOfPid s.pid)) =
      ((s.offer false pkt).1 ++ ((s.offer false pkt).2.feedPackets (pkts.filter (isOfPid s.pid))).1,
        ((s.offer false pkt).2.feedPackets (pkts.filter (isOfPid s.pid))).2) := by
  unfold offer
  by_cases hof : isOfPid s.pid pkt = true
  · rw [filter_cons_of_pos hof, if_pos hof]
    rfl
  · rw [filter_cons_of_neg hof, if_neg hof]
    rfl

/-! ## Payloads that fit -/

theorem append_fits {s : PesStream} {d : List UInt8} (h : s.buf.length + d.length ≤ pesMaxBytes) :
    s.append false d = { s with buf := s.buf ++ d } := by
  unfold append
  rw [if_neg (not_lt.2 h)]
  rfl

theorem feed_more {s : PesStream} {pl : List UInt8} (hstarted : s.started = true) (hhdr : s.hdr = false)
    (h : s.buf.length + pl.length ≤ pesMaxBytes) : s.feed false pl false = ([], { s with buf := s.buf ++ pl }) := by
  unfold feed
  rw [if_neg Bool.false_ne_true, if_pos hstarted, append_fits h]
  simp only [hhdr, Bool.false_eq_true, if_false]

theorem feed_start {pl : List UInt8} (hne : pl ≠ []) (h : pl.length ≤ pesMaxBytes) :
    s.feed false pl true = (s.deliver.1, parseHdr
      { s with started := true, hdr := true, hasPts := false, hasDts := false, buf := pl }) := by
  have hfits := @append_fits { s with started := true, hdr := true, hasPts := false, hasDts := false, buf := [] } pl
    (by simpa using h)
  unfold feed
  rw [if_pos rfl]
  simp only [deliver, reset, hfits, nil_append, if_pos hne]

end PesStream

theorem filter_flatMap_pid {l : List PesStream} (hnodup : (l.map PesStream.pid).Nodup)
    {g : PesStream → List PesUnit} (hg : ∀ s, ∀ u ∈ g s, u.pid = s.pid) {s : PesStream} (hs : s ∈ l) :
    (l.flatMap g).filter (fun u => s.pid = u.pid) = g s := by
  rw [filter_flatMap, ← flatMap_at PesStream.pid g hnodup hs]
  congr 1
  funext t
  split
  · next heq => exact filter_eq_self.2 fun u hu => decide_eq_true (heq.trans (hg t u hu).symm)
  · next hne => exact filter_eq_nil_iff.2 fun u hu h => hne ((of_decide_eq_true h).trans (hg t u hu))

theorem pesFeedAll_streams (pkts : List (List UInt8)) {p : Pes} (hnodup : (p.s.map PesStream.pid).Nodup) :
    (pesFeedAll p pkts).2.s = (p.s.map fun s => (s.feedPackets (pkts.filter (isOfPid s.pid))).2) ∧
      (∀ s ∈ p.s, (pesFeedAll p pkts).1.filter (fun u => s.pid = u.pid) =
        (s.feedPackets (pkts.filter (isOfPid s.pid))).1) ∧
      ∀ u ∈ (pesFeedAll p pkts).1, u.pid ∈ p.s.map PesStream.pid := by
  induction pkts generalizing p with
  | nil => exact ⟨(map_id' _).symm, fun _ _ => rfl, nofun⟩
  | cons pkt pkts ih =>
    obtain ⟨hout, hs⟩ := pesFeed_streams false hnodup pkt
    -- a packet changes no PID
    have hpids : (pesFeed false p pkt).2.s.map PesStream.pid = p.s.map PesStream.pid := by
      rw [hs, map_map]
      exact map_congr_left fun s _ => (s.offer_pid false pkt).1
    obtain ⟨ihs, ihout, ihpid⟩ := ih (by rw [hpids]; exact hnodup)
    refine ⟨?_, ?_, ?_⟩
    · show (pesFeedAll (pesFeed false p pkt).2 pkts).2.s = _
      rw [ihs, hs, map_map]
      apply map_congr_left
      intro s _
      rw [PesStream.feedPackets_offer, Function.comp_apply, (s.offer_pid false pkt).1]
    · intro s hmem
      have hnext : (s.offer false pkt).2 ∈ (pesFeed false p pkt).2.s := by
        rw [hs]
        exact mem_map.2 ⟨s, hmem, rfl⟩
      have hrest := ihout _ hnext
      rw [(s.offer_pid false pkt).1] at hrest
      show ((pesFeed false p pkt).1 ++ (pesFeedAll (pesFeed false p pkt).2 pkts).1).filter _ = _
      rw [filter_append, hrest, hout,
        filter_flatMap_pid hnodup (fun s => (s.offer_pid false pkt).2) hmem, PesStream.feedPackets_offer]
    · intro u hu
      change u ∈ (pesFeed false p pkt).1 ++ (pesFeedAll (pesFeed false p pkt).2 pkts).1 at hu
      rcases mem_append.1 hu with hu | hu
      · rw [hout] at hu
        obtain ⟨s, hmem, hu⟩ := mem_flatMap.1 hu
        rw [(s.offer_pid false pkt).2 u hu]
        exact mem_map_of_mem hmem
      · rw [← hpids]
        exact ihpid u hu

end DvbIpiTools.Demux
