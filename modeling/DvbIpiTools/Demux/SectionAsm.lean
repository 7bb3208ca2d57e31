import DvbIpiTools.Helper.BeUtil

set_option autoImplicit false

/-! # Sections out of transport packets (`demux/tspack.c`, `demux/psi/section_asm.c`)

A packet is its 188 bytes. Of the assembly buffer only the bytes in use are kept, so `len` is the length
of `buf`. -/

namespace DvbIpiTools.Demux

open BeUtil List

/-! ## Packets -/

def tspackLength12 (p : List UInt8) (off : Nat) : Nat := (byteAt p off &&& 0x0F) <<< 8 ||| byteAt p (off + 1)

def tspackPid (pkt : List UInt8) : Nat := (byteAt pkt 1 &&& 0x1F) <<< 8 ||| byteAt pkt 2

/-- `tspack_payload`: the payload of a packet and its start indicator. -/
def tspackPayload (pkt : List UInt8) : Option (List UInt8 × Bool) :=
  let afc := byteAt pkt 3 >>> 4 &&& 0x3
  let pusi := decide (byteAt pkt 1 &&& 0x40 ≠ 0)
  if afc = 0 ∨ afc = 2 then none
  else if afc = 3 then
    if 5 + byteAt pkt 4 ≥ 188 then none else some (pkt.drop (5 + byteAt pkt 4), pusi)
  else some (pkt.drop 4, pusi)

/-- The continuity counter of a packet. -/
def pktCc (pkt : List UInt8) : Nat := byteAt pkt 3 &&& 0x0F

/-- The discontinuity indicator of a packet. -/
def pktDisc (pkt : List UInt8) : Bool :=
  byteAt pkt 3 &&& 0x20 ≠ 0 && byteAt pkt 4 > 0 && byteAt pkt 5 &&& 0x80 ≠ 0

/-! ## The assembler -/

def sectionAsmBufLen : Nat := 4096

/-- `psi_section_asm_t`. -/
structure SectionAsm where
  active : Bool := false
  ccSeen : Bool := false
  cc : Nat := 0
  expect : Nat := 0
  next : Nat := 0
  buf : List UInt8 := []

namespace SectionAsm

/-- `consume` over the bytes of the payload from its index `i` on. Once the length is known the rest of
    the payload is taken at once, so its loop ends there. -/
def consume (a : SectionAsm) : List UInt8 → Nat → Bool × SectionAsm
  | [], _ => (false, a)
  | b :: bs, i =>
    if a.expect = 0 then
      let buf := if a.buf.length < sectionAsmBufLen then a.buf ++ [b] else a.buf
      if buf.length ≥ 3 then
        let expect := tspackLength12 buf 1 + 3
        if expect > sectionAsmBufLen then (false, { a with buf, expect, active := false })
        else consume { a with buf, expect } bs (i + 1)
      else consume { a with buf } bs (i + 1)
    else
      let take := min (a.expect - a.buf.length) (b :: bs).length
      let buf := a.buf ++ (b :: bs).take take
      if buf.length ≥ a.expect then (true, { a with buf, active := false, next := i + take })
      else (false, { a with buf })

/-- `psi_section_asm_cc`; `none` is a packet to skip. -/
def stepCc (a : SectionAsm) (pkt : List UInt8) : Option SectionAsm :=
  let cc := pktCc pkt
  if a.ccSeen then
    if cc = a.cc ∧ a.active then none
    else if cc ≠ (a.cc + 1) &&& 0x0F ∧ !pktDisc pkt then
      some { a with active := false, cc }
    else some { a with cc }
  else some { a with ccSeen := true, cc }

/-- The assembler at the start of a section. -/
def restart (a : SectionAsm) : SectionAsm := { a with buf := [], expect := 0, active := true }

/-- `psi_section_asm_feed`. -/
def feed (a : SectionAsm) (pl : List UInt8) (pusi : Bool) : Bool × SectionAsm :=
  let a := { a with next := 0 }
  if pusi then
    match pl with
    | [] => (false, a)
    | ptr :: rest =>
      let i := 1 + ptr.toNat
      if i > pl.length then (false, { a with active := false })
      else
        let (done, a') := if a.active && ptr ≠ 0 then a.consume (rest.take ptr.toNat) 1 else (false, a)
        if done then (true, { a' with next := i })
        else a'.restart.consume (pl.drop i) i
  else if !a.active then (false, a)
  else a.consume pl 0

/-- `psi_section_asm_next`. -/
def nextSection (a : SectionAsm) (pl : List UInt8) : Bool × SectionAsm :=
  let i := a.next
  let a := { a with next := 0 }
  if i = 0 ∨ i ≥ pl.length ∨ pl.getD i 0 = 0xFF then (false, a)
  else a.restart.consume (pl.drop i) i

/-- The rest of the sections of a payload: a caller's loop over `psi_section_asm_next`. -/
def drain (pl : List UInt8) : Nat → Bool × SectionAsm → List (List UInt8) × SectionAsm
  | 0, (_, a) => ([], a)
  | _ + 1, (false, a) => ([], a)
  | fuel + 1, (true, a) =>
    let (out, a') := drain pl fuel (a.nextSection pl)
    (a.buf :: out, a')

/-- The sections of one payload. -/
def feedPayload (a : SectionAsm) (pl : List UInt8) (pusi : Bool) : List (List UInt8) × SectionAsm :=
  drain pl (pl.length + 1) (a.feed pl pusi)

/-- One packet of the PID through the assembler, as its callers do it. -/
def feedPacket (a : SectionAsm) (pkt : List UInt8) : List (List UInt8) × SectionAsm :=
  match tspackPayload pkt with
  | none => ([], a)
  | some (pl, pusi) =>
    match a.stepCc pkt with
    | none => ([], a)
    | some a' => a'.feedPayload pl pusi

/-- The sections that come out of a list of packets. -/
def feedPackets (a : SectionAsm) : List (List UInt8) → List (List UInt8) × SectionAsm
  | [] => ([], a)
  | pkt :: pkts =>
    let (out, a') := a.feedPacket pkt
    let (outs, a'') := a'.feedPackets pkts
    (out ++ outs, a'')

end SectionAsm

/-! # What the assembler hands out

Whatever the packets are, a section that comes out has the length its header says. -/

/-- A byte string as long as its section header says, and not too long for the buffer. -/
structure Framed (s : List UInt8) : Prop where
  length_eq : tspackLength12 s 1 + 3 = s.length
  le_max : s.length ≤ sectionAsmBufLen

namespace SectionAsm

/-- Of a section in progress either the header is incomplete, or its length is known and not reached. -/
def Sound (a : SectionAsm) : Prop := a.active = true → (a.expect = 0 ∧ a.buf.length < 3) ∨
    (3 ≤ a.buf.length ∧ a.buf.length ≤ a.expect ∧ a.expect = tspackLength12 a.buf 1 + 3 ∧
      a.expect ≤ sectionAsmBufLen)

variable {a : SectionAsm}

theorem sound_of_idle (h : a.active = false) : a.Sound := by
  intro hactive
  rw [h] at hactive
  cases hactive

theorem length12_append {p : List UInt8} (hp : 3 ≤ p.length) (q : List UInt8) :
    tspackLength12 (p ++ q) 1 = tspackLength12 p 1 := by
  rw [tspackLength12, tspackLength12, byteAt_append_left (by omega), byteAt_append_left (by omega)]

theorem consume_sound {a : SectionAsm} (ha : a.Sound) (hactive : a.active = true) (bytes : List UInt8) (i : Nat) :
    ((a.consume bytes i).1 = true → Framed (a.consume bytes i).2.buf ∧
      (a.consume bytes i).2.active = false) ∧ (a.consume bytes i).2.Sound := by
  induction bytes generalizing a i with
  | nil => exact ⟨nofun, ha⟩
  | cons b bs ih =>
    rcases ha hactive with ⟨hzero, hlen⟩ | ⟨h3, hle, hexpect, hmax⟩
    · have hroom : a.buf.length < sectionAsmBufLen := lt_trans hlen (by decide)
      have happ : (a.buf ++ [b]).length = a.buf.length + 1 := by rw [length_append, length_singleton]
      rw [consume]
      simp only [hzero, if_true, hroom, happ]
      by_cases hthree : a.buf.length + 1 ≥ 3
      · rw [if_pos hthree]
        by_cases hbig : tspackLength12 (a.buf ++ [b]) 1 + 3 > sectionAsmBufLen
        · rw [if_pos hbig]
          exact ⟨nofun, sound_of_idle rfl⟩
        rw [if_neg hbig]
        have hfit : (a.buf ++ [b]).length ≤ tspackLength12 (a.buf ++ [b]) 1 + 3 := by omega
        exact @ih { a with buf := a.buf ++ [b], expect := tspackLength12 (a.buf ++ [b]) 1 + 3 }
          (fun _ => .inr ⟨by rw [happ]; exact hthree, hfit, rfl, not_lt.1 hbig⟩) hactive (i + 1)
      · rw [if_neg hthree]
        exact @ih { a with buf := a.buf ++ [b], expect := 0 }
          (fun _ => .inl ⟨rfl, by rw [happ]; exact not_le.1 hthree⟩) hactive (i + 1)
    · have hne : a.expect ≠ 0 := by omega
      have hlength := length12_append h3 ((b :: bs).take (min (a.expect - a.buf.length) (b :: bs).length))
      have happ : (a.buf ++ (b :: bs).take (min (a.expect - a.buf.length) (b :: bs).length)).length ≤
          a.expect := by
        rw [length_append, length_take]
        omega
      have hge : 3 ≤ (a.buf ++ (b :: bs).take (min (a.expect - a.buf.length) (b :: bs).length)).length := by
        rw [length_append]
        omega
      rw [consume]
      simp only [hne, if_false]
      by_cases hdone : (a.buf ++ (b :: bs).take (min (a.expect - a.buf.length) (b :: bs).length)).length ≥ a.expect
      · rw [if_pos hdone]
        refine ⟨fun _ => ⟨⟨?_, le_trans happ hmax⟩, rfl⟩, sound_of_idle rfl⟩
        rw [hlength, ← hexpect]
        exact le_antisymm hdone happ
      · rw [if_neg hdone]
        refine ⟨nofun, fun _ => .inr ⟨hge, happ, ?_, hmax⟩⟩
        rw [hlength, ← hexpect]

theorem restart_sound (a : SectionAsm) : a.restart.Sound := fun _ => .inl ⟨rfl, Nat.zero_lt_succ 2⟩

/-- A step of the assembler either completes a section or leaves it sound. -/
def StepOk (r : Bool × SectionAsm) : Prop := (r.1 = true → Framed r.2.buf) ∧ r.2.Sound

theorem consume_stepOk {a : SectionAsm} (ha : a.Sound) (hactive : a.active = true) (bytes : List UInt8)
    (i : Nat) : StepOk (a.consume bytes i) :=
  ⟨fun h => ((consume_sound ha hactive bytes i).1 h).1, (consume_sound ha hactive bytes i).2⟩

theorem nextSection_stepOk (ha : a.Sound) (pl : List UInt8) : StepOk (a.nextSection pl) := by
  simp only [nextSection]
  split
  · exact ⟨nofun, ha⟩
  · exact consume_stepOk (restart_sound _) rfl _ _

theorem feed_stepOk (ha : a.Sound) (pl : List UInt8) (pusi : Bool) : StepOk (a.feed pl pusi) := by
  cases pusi with
  | false =>
    cases hactive : a.active with
    | false =>
      simp only [feed, hactive, Bool.false_eq_true, if_false, Bool.not_false, if_true]
      exact ⟨nofun, sound_of_idle rfl⟩
    | true =>
      simp only [feed, hactive, Bool.false_eq_true, if_false, Bool.not_true]
      exact @consume_stepOk { a with active := true, next := 0 } (fun _ => ha hactive) rfl _ _
  | true =>
    cases pl with
    | nil => exact ⟨nofun, ha⟩
    | cons ptr rest =>
      simp only [feed, if_true]
      split
      · exact ⟨nofun, sound_of_idle rfl⟩
      by_cases hcond : (a.active && decide (ptr ≠ 0)) = true
      · have hactive : a.active = true := by
          simp only [Bool.and_eq_true] at hcond
          exact hcond.1
        have hstep := @consume_stepOk { a with next := 0 } ha hactive (rest.take ptr.toNat) 1
        simp only [hcond, if_true]
        split
        · next hdone => exact ⟨fun _ => hstep.1 hdone, hstep.2⟩
        · exact consume_stepOk (restart_sound _) rfl _ _
      · simp only [hcond, Bool.false_eq_true, if_false]
        exact consume_stepOk (restart_sound _) rfl _ _

theorem drain_framed (pl : List UInt8) (fuel : Nat) {r : Bool × SectionAsm} (hr : StepOk r) :
    (∀ s ∈ (drain pl fuel r).1, Framed s) ∧ (drain pl fuel r).2.Sound := by
  induction fuel generalizing r with
  | zero => exact ⟨nofun, hr.2⟩
  | succ fuel ih =>
    obtain ⟨done, a⟩ := r
    cases done with
    | false => exact ⟨nofun, hr.2⟩
    | true =>
      obtain ⟨hout, hsound⟩ := ih (nextSection_stepOk hr.2 pl)
      exact ⟨forall_mem_cons.2 ⟨hr.1 rfl, hout⟩, hsound⟩

theorem stepCc_sound {a' : SectionAsm} (ha : a.Sound) {pkt : List UInt8} (h : a.stepCc pkt = some a') : a'.Sound := by
  simp only [stepCc] at h
  split at h
  · split at h
    · cases h
    · split at h
      · cases h
        exact sound_of_idle rfl
      · cases h
        exact ha
  · cases h
    exact ha

theorem feedPacket_framed (ha : a.Sound) (pkt : List UInt8) :
    (∀ s ∈ (a.feedPacket pkt).1, Framed s) ∧ (a.feedPacket pkt).2.Sound := by
  unfold feedPacket
  split
  · exact ⟨nofun, ha⟩
  · next pl pusi _ =>
    split
    · exact ⟨nofun, ha⟩
    · next a' hstep => exact drain_framed pl _ (feed_stepOk (stepCc_sound ha hstep) pl pusi)

end SectionAsm

end DvbIpiTools.Demux
