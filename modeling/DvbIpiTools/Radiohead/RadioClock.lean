import DvbIpiTools.Mux.PesBuild
import DvbIpiTools.Tvhead.Pcrclock

set_option autoImplicit false

/-! # The clock of a radio service (`dipiradiohead/mux/tspacketizer.c`)

What goes out on the audio PID without scrambling. The tables have PIDs and counters of their own, and nothing of them is used here.

The PCRs are 64 bit numbers that may wrap around; the proof carries the clocks of the queue and the end of the last frame as
numbers without a width (`Going`), and reads the packets back as a receiver does (`Reads`). -/

namespace DvbIpiTools.Radiohead

open Mux Demux List Tvhead Nat

def ptsDelay90k : UInt64 := 27000

def pcrMaxGap90k : Nat := 3150

def pcrQueueMax : Nat := 64

/-- `pes_build` with a buffer of `cap` bytes; none when it refuses. -/
def pesBuild (pts : UInt64) (frame : List UInt8) (cap : Nat) : Option (List UInt8) :=
  if frame.length > 65527 ∨ cap < 14 + frame.length then none
  else
    let pktLen := 8 + frame.length
    some ([0x00, 0x00, 0x01, 0xC0, .ofNat (pktLen >>> 8), .ofNat pktLen, 0x85, 0x80, 5] ++ putTsField pts.toNat 0x2 ++ frame)

/-- `ts_packet_emit_pcr_only`. -/
def tsPacketEmitPcrOnly (pid cc pcr90k : Nat) : List UInt8 :=
  packetHead pid false ++ [.ofNat (0x20 ||| cc &&& 0x0F), 183, 0x10] ++ putPcr pcr90k 0 ++ replicate 176 0xFF

/-- `struct tspacketizer`; the queue is what `pcr_q` and `pcr_due` have from `pcr_head` on. -/
structure Tspacketizer (τ : Type) where
  audioPid : Nat
  ccAudio : Nat := 0
  discPending : Bool := false
  ptsBase : UInt64 := 0
  ptsEnd : UInt64 := 0
  pcrQ : List (UInt64 × τ) := []

/-- What a call does: a PCR is sent, alone or with a frame, in these packets; a break is marked; a frame is dropped. -/
inductive Event
  | sent (pcr : UInt64) (frame : Option (List UInt8)) (pkts : List (List UInt8))
  | mark
  | dropped (dur : UInt32) (frame : List UInt8)

variable {τ : Type} (after : τ → Nat → τ)

/-- `tspacketizer_mark_discontinuity`. -/
def markDiscontinuity (t : Tspacketizer τ) : List Event × Tspacketizer τ := ([.mark], { t with discPending := true, pcrQ := [] })

/-- How many PCRs a frame gets besides the first. -/
def extraPcrs (dur : Nat) : Nat :=
  if dur > pcrMaxGap90k then min ((dur + pcrMaxGap90k - 1) / pcrMaxGap90k - 1) pcrQueueMax else 0

/-- These PCRs, and when they are due; `after` adds ticks to a time. -/
def queuePcrs (pts : UInt64) (dur : Nat) (now : τ) : List (UInt64 × τ) :=
  (range' 1 (extraPcrs dur)).map fun i =>
    let off := dur * i / (extraPcrs dur + 1)
    (pts + .ofNat off, after now off)

/-- The first lines of `tspacketizer_feed` behind `pcr_drain`. -/
def rebase (t : Tspacketizer τ) (pts : UInt64) : Tspacketizer τ := if t.discPending then { t with ptsBase := t.ptsEnd - pts } else t

/-- The last part of `tspacketizer_feed`, with the PTS moved by the base. -/
def sendFrame (t : Tspacketizer τ) (pts : UInt64) (dur : UInt32) (now : τ) (frame : List UInt8) : List Event × Tspacketizer τ :=
  match pesBuild (pts + ptsDelay90k) frame (14 + 65527) with
  | none => ([.dropped dur frame], t)
  | some pes =>
    let (pkts, cc) := emitCore t.audioPid t.ccAudio none pes true pts.toNat t.discPending
    ([.sent pts (some frame) pkts], { t with
      ccAudio := cc
      discPending := false
      ptsEnd := pts + .ofNat dur.toNat
      pcrQ := t.pcrQ ++ queuePcrs after pts dur.toNat now })

/-- The calls. -/
inductive Call (τ : Type)
  | feed (pts : UInt64) (dur : UInt32) (now : τ) (frame : List UInt8)
  | mark
  | flush (now : τ)

section

variable [LE τ] [DecidableLE τ]

/-- `pcr_drain`. -/
def pcrDrain (all : Bool) (now : τ) (t : Tspacketizer τ) : List Event × Tspacketizer τ :=
  ((t.pcrQ.takeWhile fun p => all || p.2 ≤ now).map fun p =>
      .sent p.1 none [tsPacketEmitPcrOnly t.audioPid t.ccAudio p.1.toNat],
    { t with pcrQ := t.pcrQ.dropWhile fun p => all || p.2 ≤ now })

/-- `tspacketizer_feed`. -/
def feed (t : Tspacketizer τ) (pts : UInt64) (dur : UInt32) (now : τ) (frame : List UInt8) : List Event × Tspacketizer τ :=
  let (out, t) := pcrDrain true now t
  let t := rebase t pts
  let (out', t) := sendFrame after t (pts + t.ptsBase) dur now frame
  (out ++ out', t)

def step (t : Tspacketizer τ) : Call τ → List Event × Tspacketizer τ
  | .feed pts dur now frame => feed after t pts dur now frame
  | .mark => markDiscontinuity t
  | .flush now => pcrDrain false now t

def run (t : Tspacketizer τ) : List (Call τ) → List Event
  | [] => []
  | c :: cs => (step after t c).1 ++ run (step after t c).2 cs

end

/-! ## What is promised -/

/-- Calls with frames one after the other: `prev` is where the one before ends, unless a break has been marked since. -/
def Regular : Option UInt64 → List (Call τ) → Prop
  | _, [] => True
  | prev, .feed pts dur _ _ :: cs => 1 ≤ dur.toNat ∧ dur.toNat ≤ 65 * pcrMaxGap90k ∧ (∀ p, prev = some p → pts = p) ∧
    Regular (some (pts + .ofNat dur.toNat)) cs
  | _, .mark :: cs => Regular none cs
  | prev, .flush _ :: cs => Regular prev cs

/-- The payload of a packet, if it has one. -/
def payloadOf (pkt : List UInt8) : List UInt8 := (tspackPayload pkt).elim [] Prod.fst

/-- What is read in the packets of an event: one PCR, and the PES packet of the frame with its PTS, or no payload. -/
structure Reads (pcr : UInt64) (frame : Option (List UInt8)) (pkts : List (List UInt8)) : Prop where
  clock : pkts.filterMap pcrPacketRead = [pcr.toNat % 2 ^ 33 * 300]
  bare : frame = none → pkts.flatMap payloadOf = []
  pes : ∀ f, frame = some f → ∃ pes, pesBuild (pcr + ptsDelay90k) f (14 + 65527) = some pes ∧ pkts.flatMap payloadOf = pes ∧
    readPts pes 9 = (pcr.toNat + ptsDelay90k.toNat) % 2 ^ 33 ∧ pes.drop 14 = f

/-- The PCRs are a clock that goes forward, before it is cut to its width, by no more than `room` from `last` on. A frame's PTS is ahead of
its PCR, and a frame is dropped when it is too large. -/
def Clocked : Option Nat → Nat → List Event → Prop
  | _, _, [] => True
  | last, room, .sent pcr frame pkts :: es => (∃ t, pcr = .ofNat t ∧ (∀ l, last = some l → l < t ∧ t ≤ l + room) ∧ Clocked (some t) pcrMaxGap90k es) ∧
    Reads pcr frame pkts
  | last, room, .mark :: es => Clocked last (max room (65 * pcrMaxGap90k)) es
  | last, room, .dropped dur frame :: es => 65527 < frame.length ∧ Clocked last (room + dur.toNat) es

/-- The frame of an event, or `none` for a mark. -/
def Event.cause : Event → Option (Option (List UInt8))
  | .sent _ frame _ => frame.map some
  | .mark => some none
  | .dropped _ frame => some (some frame)

def Call.cause : Call τ → Option (Option (List UInt8))
  | .feed _ _ _ frame => some (some frame)
  | .mark => some none
  | .flush _ => none

/-- The packets of an event. -/
def Event.packets : Event → List (List UInt8)
  | .sent _ _ pkts => pkts
  | .mark => []
  | .dropped _ _ => []

/-- The counter goes up with each packet that has a payload. -/
def Counted : Nat → List (List UInt8) → Prop
  | _, [] => True
  | cc, p :: ps => pktCc p = (if (tspackPayload p).isSome then nextCc cc else cc) ∧ Counted (pktCc p) ps

/-! ## What is in the packets -/

section Packets

/-- A PCR that `putPcr` wrote is read back. -/
theorem pcrPacketRead_putPcr (b0 b1 b2 : UInt8) {b3 b4 b5 : UInt8} (h3 : b3.toNat >>> 4 &&& 0x3 = 0x2 ∨ b3.toNat >>> 4 &&& 0x3 = 0x3)
    (h4 : 7 ≤ b4.toNat) (h5 : b5.toNat &&& 0x10 ≠ 0) (pcr : Nat) (tail : List UInt8) :
    pcrPacketRead ([b0, b1, b2, b3, b4, b5] ++ (putPcr pcr 0 ++ tail)) = some (pcr % 2 ^ 33 * 300) := by
  have hhas : hasPcr ([b0, b1, b2, b3, b4, b5] ++ (putPcr pcr 0 ++ tail)) = true := decide_eq_true ⟨h3, h4, h5⟩
  have hbase : pcr &&& 0x1FFFFFFFF = pcr % 2 ^ 33 := and_two_pow_sub_one_eq_mod pcr 33
  have hmix := mixed_byte (pcr % 2 ^ 33 % 2) (mod_lt _ (by decide)) 0x7E (by decide) 0 (by decide)
  rw [pcrPacketRead_eq hhas]
  simp only [BeUtil.byteAt, putPcr, cons_append, nil_append, getD_cons_succ, getD_cons_zero, hbase, UInt8.toNat_ofNat', and_one_is_mod,
    shiftRight_eq_div_pow]
  rw [show 0 / 2 ^ 8 % 2 = 0 by rfl, show (0x7E : Nat) = 0x7E &&& 0x7E by rfl, hmix.1, hmix.2]
  exact congrArg some (by omega)

theorem pcrOnly_byte (cc : Nat) : (UInt8.ofNat (0x20 ||| cc &&& 0x0F)).toNat >>> 4 &&& 0x3 = 0x2 := by
  have hall : ∀ x < 16, (UInt8.ofNat (0x20 ||| x)).toNat >>> 4 &&& 0x3 = 0x2 := by decide
  exact hall _ (and_lt_two_pow cc (by decide : 0x0F < 2 ^ 4))

theorem pcrPacketRead_pcrOnly (pid cc pcr : Nat) : pcrPacketRead (tsPacketEmitPcrOnly pid cc pcr) = some (pcr % 2 ^ 33 * 300) :=
  pcrPacketRead_putPcr _ _ _ (.inl (pcrOnly_byte cc)) (by decide : 7 ≤ (183 : UInt8).toNat)
    (by decide : (0x10 : UInt8).toNat &&& 0x10 ≠ 0) pcr (replicate 176 0xFF)

theorem tspackPayload_pcrOnly (pid cc pcr : Nat) : tspackPayload (tsPacketEmitPcrOnly pid cc pcr) = none := by
  have h3 : BeUtil.byteAt (tsPacketEmitPcrOnly pid cc pcr) 3 = (UInt8.ofNat (0x20 ||| cc &&& 0x0F)).toNat := rfl
  simp only [tspackPayload, h3, pcrOnly_byte]
  rfl

theorem pcrPacketRead_emitCore (pid cc : Nat) (data : List UInt8) (pcr : Nat) (disc : Bool) :
    pcrPacketRead (emitOne pid cc true none data true pcr disc).1 = some (pcr % 2 ^ 33 * 300) := by
  have h4 : ∀ pad ≤ 176, 7 ≤ (UInt8.ofNat (7 + pad)).toNat := fun pad hpad => by
    rw [UInt8.toNat_ofNat']
    omega
  have h5 : (UInt8.ofNat (0x10 ||| if true && disc then 0x80 else 0x00)).toNat &&& 0x10 ≠ 0 := by cases disc <;> decide
  exact pcrPacketRead_putPcr _ _ _ (.inr (adapted_byte _ (nextCc_lt cc)).1) (h4 _ (sub_le _ _)) h5 pcr _

theorem hasPcr_writePacket {d : TsPacketDesc} (hd : d.withPcr = false) {cc : Nat} (hcc : cc < 16) : hasPcr (writePacket d cc) = false := by
  refine decide_eq_false ?_
  rintro ⟨hafc, h4, h5⟩
  unfold writePacket adaptation at hafc h4 h5
  simp only [hd, Bool.false_eq_true, if_false] at hafc h4 h5
  split at hafc
  · next hone =>
    rw [if_pos hone] at h4
    exact absurd (show 0 ≥ 7 from h4) (by decide)
  split at hafc
  · next hone hmore =>
    rw [if_neg hone, if_pos hmore] at h5
    exact h5 (show 0 &&& 0x10 = 0 from rfl)
  · have hone : (UInt8.ofNat (0x10 ||| cc)).toNat >>> 4 &&& 0x3 = 1 := (plain_byte cc hcc).1
    rcases hafc with h | h
    · exact absurd (hone.symm.trans h) (by decide)
    · exact absurd (hone.symm.trans h) (by decide)

/-- Packets behind the first have no PCR, and they bring the rest. -/
theorem emitRest_reads (pid : Nat) {fuel cc : Nat} {rest : List UInt8} (hfuel : rest.length ≤ 184 * fuel) :
    (emitRest pid fuel rest cc).1.filterMap pcrPacketRead = [] ∧ (emitRest pid fuel rest cc).1.flatMap payloadOf = rest := by
  induction fuel generalizing cc rest with
  | zero => exact ⟨rfl, (eq_nil_of_length_eq_zero (by omega)).symm⟩
  | succ fuel ih =>
    rw [emitRest]
    split
    · next hnil => exact ⟨rfl, hnil.symm⟩
    · next hne =>
      obtain ⟨htake, hpay, -⟩ := read_emitOne_rest pid cc none hne
      obtain ⟨hpcr, hrest⟩ := @ih (nextCc cc) (rest.drop (min rest.length 184)) (by rw [length_drop]; omega)
      have hnone : pcrPacketRead (emitOne pid cc false none rest false 0 false).1 = none := if_neg (by
        rw [emitOne, hasPcr_writePacket rfl (nextCc_lt cc)]
        decide)
      simp only [htake, filterMap_cons, hnone, flatMap_cons, payloadOf, hpay, Option.elim_some] at hpcr hrest ⊢
      exact ⟨hpcr, by rw [hrest, take_append_drop]⟩

theorem reads_pcrOnly (pid cc : Nat) (pcr : UInt64) : Reads pcr none [tsPacketEmitPcrOnly pid cc pcr.toNat] where
  clock := by
    rw [filterMap_cons, pcrPacketRead_pcrOnly]
    rfl
  bare _ := by
    rw [flatMap_singleton, payloadOf, tspackPayload_pcrOnly]
    rfl
  pes := nofun

theorem pesBuild_none {pts : UInt64} {frame : List UInt8} (h : pesBuild pts frame (14 + 65527) = none) : 65527 < frame.length := by
  unfold pesBuild at h
  split at h
  · omega
  · cases h

theorem pesBuild_reads {pts : UInt64} {frame pes : List UInt8} {cap : Nat} (h : pesBuild pts frame cap = some pes) :
    pes ≠ [] ∧ readPts pes 9 = pts.toNat % 2 ^ 33 ∧ pes.drop 14 = frame := by
  unfold pesBuild at h
  split at h <;> cases h
  refine ⟨cons_ne_nil _ _, ?_, rfl⟩
  rw [append_assoc]
  exact readPts_putTsField pts.toNat 0x2 _ frame

/-- The packets of a frame carry its PES packet, with the PCR in the first one. -/
theorem reads_frame (pid cc : Nat) {pcr : UInt64} {frame pes : List UInt8} (h : pesBuild (pcr + ptsDelay90k) frame (14 + 65527) = some pes)
    (disc : Bool) : Reads pcr (some frame) (emitCore pid cc none pes true pcr.toNat disc).1 := by
  obtain ⟨hne, hpts, hframe⟩ := pesBuild_reads h
  have hpos := length_pos_iff.2 hne
  obtain ⟨hpay, -⟩ := @read_writePacket ⟨pid, true, none, pes.take (min pes.length 176), true, pcr.toNat, disc, 176 - min pes.length 176⟩
    (nextCc cc) (nextCc_lt cc) (by simp only [if_true]; omega)
  obtain ⟨hpcr, hrest⟩ := @emitRest_reads pid pes.length (nextCc cc) (pes.drop (min pes.length 176)) (by rw [length_drop]; omega)
  refine ⟨?_, nofun, fun f hf => ?_⟩
  · show filterMap pcrPacketRead ((emitOne pid cc true none pes true pcr.toNat disc).1 :: _) = _
    rw [filterMap_cons, pcrPacketRead_emitCore]
    exact congrArg (_ :: ·) hpcr
  · cases hf
    refine ⟨pes, h, ?_, ?_, hframe⟩
    · show flatMap payloadOf ((emitOne pid cc true none pes true pcr.toNat disc).1 :: _) = _
      rw [flatMap_cons]
      refine (congrArg₂ (· ++ ·) (congrArg (Option.elim · [] Prod.fst) hpay) hrest).trans ?_
      exact take_append_drop _ pes
    · rw [hpts, UInt64.toNat_add]
      omega

end Packets

/-! ## The clock -/

/-- From `last` over the clocks `qs` to `fin`, with no more than `room` before the next. -/
def Steps : Nat → Nat → List Nat → Nat → Prop
  | last, room, [], fin => last < fin ∧ fin ≤ last + room
  | last, room, q :: qs, fin => (last < q ∧ q ≤ last + room) ∧ Steps q pcrMaxGap90k qs fin

/-- After a PCR at `last`: the clocks of the queue, where the last frame ends and where the next one starts. -/
structure Going (t : Tspacketizer τ) (prev : Option UInt64) (last room : Nat) (qs : List Nat) (fin next : Nat) : Prop where
  queue : t.pcrQ.map Prod.fst = qs.map UInt64.ofNat
  toFin : Steps last room qs fin
  toNext : Steps last room qs next
  near : fin ≤ last + 65 * pcrMaxGap90k
  ends : t.ptsEnd = .ofNat fin
  next_eq : if t.discPending then next = fin else ∃ p, prev = some p ∧ p + t.ptsBase = .ofNat next

/-- What holds between calls. -/
def Inv (t : Tspacketizer τ) (prev : Option UInt64) (last : Option Nat) (room : Nat) : Prop :=
  match last with
  | none => t.pcrQ = []
  | some last => ∃ qs fin next, Going t prev last room qs fin next

variable {t : Tspacketizer τ} {prev : Option UInt64} {last : Option Nat} {room : Nat} {es : List Event}

theorem Steps.lt {l room fin : Nat} {qs : List Nat} (h : Steps l room qs fin) : l < fin := by
  induction qs generalizing l room with
  | nil => exact h.1
  | cons q qs ih => exact h.1.1.trans (ih h.2)

/-- The PCRs within a frame, and its end. -/
theorem steps_extra {n d k : Nat} (hk : k ≤ d) (hd : d ≤ k * pcrMaxGap90k) (m : Nat) {i : Nat} (hi : i + 1 + m = k) :
    Steps (n + d * i / k) pcrMaxGap90k ((range' (i + 1) m).map fun j => n + d * j / k) (n + d) := by
  have hpos : 0 < k := by omega
  have hstep (i : Nat) : n + d * i / k < n + d * (i + 1) / k ∧ n + d * (i + 1) / k ≤ n + d * i / k + pcrMaxGap90k := by
    have hlo : (d * i + 1 * k) / k ≤ d * (i + 1) / k := Nat.div_le_div_right (by rw [Nat.mul_succ]; omega)
    have hhi : d * (i + 1) / k ≤ (d * i + pcrMaxGap90k * k) / k := Nat.div_le_div_right (by rw [Nat.mul_succ, mul_comm pcrMaxGap90k]; omega)
    rw [add_mul_div_right _ _ hpos] at hlo hhi
    exact ⟨by omega, by omega⟩
  induction m generalizing i with
  | zero =>
    have h := hstep i
    rwa [hi, Nat.mul_div_cancel _ hpos] at h
  | succ m ih => exact ⟨hstep i, ih (by omega)⟩

theorem extraPcrs_spec {dur : Nat} (hpos : 1 ≤ dur) (hdur : dur ≤ 65 * pcrMaxGap90k) :
    extraPcrs dur + 1 ≤ dur ∧ dur ≤ (extraPcrs dur + 1) * pcrMaxGap90k := by
  unfold extraPcrs pcrQueueMax
  unfold pcrMaxGap90k at *
  split <;> omega

/-- A frame that is sent at `n`. -/
theorem going_sent {pts base : UInt64} {dur : Nat} (hpos : 1 ≤ dur) (hdur : dur ≤ 65 * pcrMaxGap90k) {n : Nat} (hn : pts + base = .ofNat n)
    (pid cc : Nat) (now : τ) : Going ⟨pid, cc, false, base, pts + base + .ofNat dur, queuePcrs after (pts + base) dur now⟩
      (some (pts + .ofNat dur)) n pcrMaxGap90k ((range' 1 (extraPcrs dur)).map fun i => n + dur * i / (extraPcrs dur + 1))
      (n + dur) (n + dur) := by
  obtain ⟨hk, hd⟩ := extraPcrs_spec hpos hdur
  have hend : pts + base + .ofNat dur = .ofNat (n + dur) := by rw [hn, UInt64.ofNat_add]
  have hsteps := @steps_extra n dur _ hk hd (extraPcrs dur) 0 (by omega)
  rw [Nat.mul_zero, Nat.zero_div] at hsteps
  refine ⟨?_, hsteps, hsteps, Nat.add_le_add_left hdur n, hend, _, rfl, ?_⟩
  · rw [queuePcrs, map_map, map_map]
    exact map_congr_left fun i _ => by simp only [Function.comp, hn, UInt64.ofNat_add]
  · rw [← hend, UInt64.add_assoc, UInt64.add_assoc, UInt64.add_comm base]

variable [LE τ] [DecidableLE τ]

/-- PCRs that leave the queue go on with the clock. -/
theorem clocked_pcrDrain (all : Bool) (now : τ) (h : Inv t prev last room)
    (hes : ∀ last' room', Inv (pcrDrain all now t).2 prev last' room' → Clocked last' room' es) :
    Clocked last room ((pcrDrain all now t).1 ++ es) := by
  obtain ⟨pid, cc, disc, base, fin, q⟩ := t
  induction q generalizing last room with
  | nil => exact hes last room h
  | cons p q ih =>
    by_cases hdue : (all || decide (p.2 ≤ now)) = true
    · obtain _ | l := last
      · cases h
      obtain ⟨qs, fin, next, hq, htoFin, htoNext, hnear, hends, hnext⟩ := h
      obtain _ | ⟨c, qs⟩ := qs
      · cases hq
      obtain ⟨hpc, hq⟩ := cons_eq_cons.1 hq
      simp only [pcrDrain, takeWhile_cons_of_pos (p := fun p : UInt64 × τ => all || decide (p.2 ≤ now)) hdue,
        dropWhile_cons_of_pos (p := fun p : UInt64 × τ => all || decide (p.2 ≤ now)) hdue] at hes ⊢
      refine ⟨⟨c, hpc, fun l' hl' => ?_, ?_⟩, reads_pcrOnly pid cc p.1⟩
      · cases hl'
        exact htoFin.1
      · have hlt := htoFin.1.1
        exact ih ⟨qs, fin, next, hq, htoFin.2, htoNext.2, by omega, hends, hnext⟩ hes
    · simp only [pcrDrain, takeWhile_cons_of_neg (p := fun p : UInt64 × τ => all || decide (p.2 ≤ now)) hdue,
        dropWhile_cons_of_neg (p := fun p : UInt64 × τ => all || decide (p.2 ≤ now)) hdue] at hes ⊢
      exact hes last room h

theorem clocked_feed {pts : UInt64} {dur : UInt32} (hpos : 1 ≤ dur.toNat) (hdur : dur.toNat ≤ 65 * pcrMaxGap90k)
    (hpts : ∀ p, prev = some p → pts = p) (now : τ) (frame : List UInt8) (h : Inv t prev last room)
    (hes : ∀ last' room', Inv (feed after t pts dur now frame).2 (some (pts + .ofNat dur.toNat)) last' room' → Clocked last' room' es) :
    Clocked last room ((feed after t pts dur now frame).1 ++ es) := by
  unfold feed at hes ⊢
  simp only [append_assoc] at hes ⊢
  refine clocked_pcrDrain true now h fun last room h => ?_
  have hempty : (pcrDrain true now t).2.pcrQ = [] := by
    unfold pcrDrain
    induction t.pcrQ with
    | nil => rfl
    | cons p q ih => exact ih
  generalize (pcrDrain true now t).2 = t at h hempty hes ⊢
  obtain ⟨pid, cc, disc, base, fin, q⟩ := t
  obtain rfl : q = [] := hempty
  -- the base that the frame gets
  obtain ⟨base', hbase⟩ : ∃ base', rebase (⟨pid, cc, disc, base, fin, []⟩ : Tspacketizer τ) pts = ⟨pid, cc, disc, base', fin, []⟩ ∧
      (disc = true → pts + base' = fin) ∧ (disc = false → base' = base) := by
    cases disc
    · exact ⟨base, rfl, nofun, fun _ => rfl⟩
    · exact ⟨fin - pts, rfl, fun _ => by rw [UInt64.add_comm, UInt64.sub_add_cancel], nofun⟩
  obtain ⟨hrebase, hdisc, hplain⟩ := hbase
  simp only [hrebase] at hes ⊢
  have hends (l : Nat) (hl : last = some l) : ∃ f next, l < f ∧ f ≤ l + room ∧ l < next ∧ next ≤ l + room ∧ f ≤ l + 65 * pcrMaxGap90k ∧
      fin = .ofNat f ∧ pts + base' = .ofNat next ∧ (disc = true → next = f) := by
    subst hl
    obtain ⟨qs, f, next, hq, hf, hn, hnear, hfin, hnext⟩ := h
    obtain rfl : qs = [] := map_eq_nil_iff.1 hq.symm
    refine ⟨f, next, hf.1, hf.2, hn.1, hn.2, hnear, hfin, ?_, fun hd => (if_pos hd).mp hnext⟩
    cases disc
    · obtain ⟨p, hp, hsum⟩ := hnext
      rw [hplain rfl, hpts p hp]
      exact hsum
    · rw [hdisc rfl, show next = f from hnext]
      exact hfin
  unfold sendFrame at hes ⊢
  cases hpes : pesBuild (pts + base' + ptsDelay90k) frame (14 + 65527) with
  | none =>
    simp only [hpes] at hes ⊢
    refine ⟨pesBuild_none hpes, hes last (room + dur.toNat) ?_⟩
    obtain _ | l := last
    · rfl
    obtain ⟨f, next, hf, hf', hn, hn', hnear, hfin, hsum, hdn⟩ := hends l rfl
    cases disc
    · refine ⟨[], f, next + dur.toNat, rfl, ⟨hf, by omega⟩, ⟨by omega, by omega⟩, hnear, hfin, _, rfl, ?_⟩
      rw [UInt64.ofNat_add, ← hsum, UInt64.add_assoc, UInt64.add_assoc, UInt64.add_comm base']
    · exact ⟨[], f, f, rfl, ⟨hf, by omega⟩, ⟨hf, by omega⟩, hnear, hfin, rfl⟩
  | some pes =>
    simp only [hpes] at hes ⊢
    obtain ⟨n, hn, hlast⟩ : ∃ n, pts + base' = .ofNat n ∧ ∀ l, last = some l → l < n ∧ n ≤ l + room := by
      obtain _ | l := last
      · exact ⟨(pts + base').toNat, UInt64.ofNat_toNat.symm, nofun⟩
      · obtain ⟨f, next, -, -, hn, hn', -, -, hsum, -⟩ := hends l rfl
        exact ⟨next, hsum, fun l' hl => by cases hl; exact ⟨hn, hn'⟩⟩
    exact ⟨⟨n, hn, hlast, hes (some n) pcrMaxGap90k ⟨_, _, _, going_sent after hpos hdur hn pid _ now⟩⟩,
      reads_frame pid cc hpes disc⟩

theorem clocked_run {calls : List (Call τ)} (h : Inv t prev last room) (hreg : Regular prev calls) : Clocked last room (run after t calls) := by
  induction calls generalizing t prev last room with
  | nil => trivial
  | cons c calls ih =>
    cases c with
    | feed pts dur now frame =>
      obtain ⟨hpos, hdur, hpts, hreg⟩ := hreg
      exact clocked_feed after hpos hdur hpts now frame h fun _ _ h => ih h hreg
    | mark =>
      have hreg : Regular none calls := hreg
      refine ih ?_ hreg
      obtain _ | l := last
      · rfl
      obtain ⟨qs, f, next, -, hf, -, hnear, hfin, -⟩ := h
      exact ⟨[], f, f, rfl, ⟨hf.lt, hnear.trans (by omega)⟩, ⟨hf.lt, hnear.trans (by omega)⟩, hnear, hfin, rfl⟩
    | flush now => exact clocked_pcrDrain false now h fun _ _ h => ih h hreg

/-! ## The counter -/

/-- These packets bring the counter from `cc` to `cc'`. -/
def Counts (cc : Nat) (pkts : List (List UInt8)) (cc' : Nat) : Prop := cc' < 16 ∧ ∀ ps, Counted cc' ps → Counted cc (pkts ++ ps)

theorem Counts.trans {cc cc' cc'' : Nat} {a b : List (List UInt8)} (h : Counts cc a cc') (h' : Counts cc' b cc'') : Counts cc (a ++ b) cc'' :=
  ⟨h'.1, fun ps hps => by rw [append_assoc]; exact h.2 _ (h'.2 ps hps)⟩

theorem counts_nil {cc : Nat} (hcc : cc < 16) : Counts cc [] cc := ⟨hcc, fun _ h => h⟩

theorem counts_payload {cc : Nat} {pkt : List UInt8} (hpay : (tspackPayload pkt).isSome) (hcc : pktCc pkt = nextCc cc) :
    Counts cc [pkt] (nextCc cc) :=
  ⟨nextCc_lt cc, fun ps hps => ⟨by rw [if_pos hpay, hcc], by rw [hcc]; exact hps⟩⟩

theorem counts_pcrOnly (pid : Nat) {cc : Nat} (hcc : cc < 16) (pcr : Nat) : Counts cc [tsPacketEmitPcrOnly pid cc pcr] cc := by
  have hbyte : ∀ cc < 16, (UInt8.ofNat (0x20 ||| cc &&& 0x0F)).toNat &&& 0x0F = cc := by decide
  have hcnt : pktCc (tsPacketEmitPcrOnly pid cc pcr) = cc := hbyte cc hcc
  exact ⟨hcc, fun ps hps => ⟨by rw [tspackPayload_pcrOnly, hcnt]; rfl, by rw [hcnt]; exact hps⟩⟩

theorem counts_emitRest (pid : Nat) {fuel cc : Nat} (hcc : cc < 16) (rest : List UInt8) :
    Counts cc (emitRest pid fuel rest cc).1 (emitRest pid fuel rest cc).2 := by
  induction fuel generalizing cc rest with
  | zero => exact counts_nil hcc
  | succ fuel ih =>
    rw [emitRest]
    split
    · exact counts_nil hcc
    · next hne =>
      obtain ⟨-, hpay, hc⟩ := read_emitOne_rest pid cc none hne
      exact (counts_payload (by rw [hpay]; rfl) hc).trans (ih (nextCc_lt cc) _)

theorem counts_emitCore (pid cc : Nat) {data : List UInt8} (hdata : data ≠ []) (pcr : Nat) (disc : Bool) :
    Counts cc (emitCore pid cc none data true pcr disc).1 (emitCore pid cc none data true pcr disc).2 := by
  have hpos := length_pos_iff.2 hdata
  obtain ⟨hpay, hc⟩ := @read_writePacket ⟨pid, true, none, data.take (min data.length 176), true, pcr, disc, 176 - min data.length 176⟩
    (nextCc cc) (nextCc_lt cc) (by simp only [if_true]; omega)
  exact (counts_payload (Option.isSome_iff_exists.2 ⟨_, hpay⟩) hc).trans (counts_emitRest pid (nextCc_lt cc) _)

theorem counts_pcrDrain (all : Bool) (now : τ) (hcc : t.ccAudio < 16) :
    Counts t.ccAudio ((pcrDrain all now t).1.flatMap Event.packets) t.ccAudio := by
  unfold pcrDrain
  induction t.pcrQ.takeWhile fun p => all || p.2 ≤ now with
  | nil => exact counts_nil hcc
  | cons p q ih => exact (counts_pcrOnly t.audioPid hcc p.1.toNat).trans ih

omit [LE τ] [DecidableLE τ] in
theorem counts_sendFrame (pts : UInt64) (dur : UInt32) (now : τ) (frame : List UInt8) (hcc : t.ccAudio < 16) :
    Counts t.ccAudio ((sendFrame after t pts dur now frame).1.flatMap Event.packets) (sendFrame after t pts dur now frame).2.ccAudio := by
  unfold sendFrame
  split
  · exact counts_nil hcc
  · next pes hpes =>
    rw [flatMap_singleton]
    exact counts_emitCore t.audioPid t.ccAudio (pesBuild_reads hpes).1 pts.toNat t.discPending

theorem counts_step (hcc : t.ccAudio < 16) (c : Call τ) :
    Counts t.ccAudio ((step after t c).1.flatMap Event.packets) (step after t c).2.ccAudio := by
  cases c with
  | mark => exact counts_nil hcc
  | flush now => exact counts_pcrDrain false now hcc
  | feed pts dur now frame =>
    have hsame : (rebase (pcrDrain true now t).2 pts).ccAudio = t.ccAudio := by
      unfold rebase
      split <;> rfl
    have hsend := counts_sendFrame after (pts + (rebase (pcrDrain true now t).2 pts).ptsBase) dur now frame (hsame ▸ hcc)
    rw [hsame] at hsend
    unfold step feed
    rw [flatMap_append]
    exact (counts_pcrDrain true now hcc).trans hsend

theorem counts_run (hcc : t.ccAudio < 16) (calls : List (Call τ)) : ∃ cc, Counts t.ccAudio ((run after t calls).flatMap Event.packets) cc := by
  induction calls generalizing t with
  | nil => exact ⟨_, counts_nil hcc⟩
  | cons c calls ih =>
    have hc := counts_step after hcc c
    obtain ⟨cc, h⟩ := ih hc.1
    rw [run, flatMap_append]
    exact ⟨cc, hc.trans h⟩

/-! ## What was fed -/

theorem cause_pcrDrain (all : Bool) (now : τ) : (pcrDrain all now t).1.filterMap Event.cause = [] := by
  unfold pcrDrain
  induction t.pcrQ.takeWhile fun p => all || p.2 ≤ now with
  | nil => rfl
  | cons p q ih => exact ih

theorem cause_step (c : Call τ) : (step after t c).1.filterMap Event.cause = c.cause.toList := by
  cases c with
  | mark => rfl
  | flush now => exact cause_pcrDrain false now
  | feed pts dur now frame =>
    unfold step feed sendFrame
    rw [filterMap_append, cause_pcrDrain]
    split <;> rfl

theorem cause_run (calls : List (Call τ)) : (run after t calls).filterMap Event.cause = calls.filterMap Call.cause := by
  induction calls generalizing t with
  | nil => rfl
  | cons c calls ih =>
    rw [run, filterMap_append, cause_step, ih, filterMap_cons]
    cases c.cause <;> rfl

/-- The clock of the audio PID goes forward over every run, with steps of no more than 35 ms but for breaks and dropped frames; the packets
have its PCRs and the frames that were fed, in order, unless they were dropped; and the counter is right. -/
theorem radio_clock (pid : Nat) {calls : List (Call τ)} (h : Regular none calls) :
    Clocked none 0 (run after { audioPid := pid } calls) ∧
      (run after { audioPid := pid } calls).filterMap Event.cause = calls.filterMap Call.cause ∧
      Counted 0 ((run after { audioPid := pid } calls).flatMap Event.packets) := by
  obtain ⟨cc, hcounts⟩ := counts_run after (t := { audioPid := pid }) (succ_pos 15) calls
  have hcounted := hcounts.2 [] trivial
  rw [append_nil] at hcounted
  exact ⟨clocked_run after rfl h, cause_run after calls, hcounted⟩

/-- A frame of two gaps, a mark, and a frame that is too large. The clock is read in three packets. -/
theorem radio_clock_broken :
    let calls : List (Call Nat) := [.feed 1000 6300 0 [1], .flush 3150, .mark, .feed 7 1 9000 (replicate 65528 0), .feed 8 2000 9001 [2]]
    let events := run Nat.add { audioPid := 257 } calls
    (events.flatMap Event.packets).filterMap pcrPacketRead = [1000 * 300, 4150 * 300, 7300 * 300] ∧ Clocked none 0 events ∧
      events.filterMap Event.cause = calls.filterMap Call.cause ∧ Counted 0 (events.flatMap Event.packets) := by
  intro calls events
  exact ⟨by decide +kernel, radio_clock Nat.add 257
    ⟨by decide, by decide, nofun, by decide, by decide, nofun, by decide, by decide, fun p h => by cases h; rfl, trivial⟩⟩

end DvbIpiTools.Radiohead
