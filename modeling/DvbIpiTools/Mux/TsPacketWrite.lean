import DvbIpiTools.Demux.SectionStream

set_option autoImplicit false

/-! # Writing transport packets (`mux/tspacket_write.c`, `mux/pmt_filter.c`)

The three ways to put a section into packets. Each writes a conforming stream, so a section that is
packetised comes out of the assembler again. -/

namespace DvbIpiTools.Mux

open BeUtil Demux List Nat

def putPcr (base33 ext9 : Nat) : List UInt8 :=
  let b := base33 &&& 0x1FFFFFFFF
  [.ofNat (b >>> 25), .ofNat (b >>> 17), .ofNat (b >>> 9), .ofNat (b >>> 1),
    .ofNat ((b &&& 1) <<< 7 ||| 0x7E ||| (ext9 >>> 8 &&& 1)), .ofNat ext9]

/-- `ts_packet_desc_t`. -/
structure TsPacketDesc where
  pid : Nat
  pusi : Bool
  pointerByte : Option UInt8
  payload : List UInt8
  withPcr : Bool
  pcr90k : Nat
  disc : Bool
  pad : Nat

/-- The first three bytes of a packet. -/
def packetHead (pid : Nat) (pusi : Bool) : List UInt8 :=
  [0x47, .ofNat ((if pusi then 0x40 else 0x00) ||| (pid >>> 8 &&& 0x1F)), .ofNat pid]

/-- The counter of the next packet. -/
def nextCc (cc : Nat) : Nat := (cc + 1) &&& 0x0F

/-- The fourth byte and the adaptation field of `write_packet`. -/
def adaptation (d : TsPacketDesc) (cc : Nat) : List UInt8 :=
  if d.withPcr then
    [.ofNat (0x30 ||| cc), .ofNat (7 + d.pad), .ofNat (0x10 ||| if d.disc then 0x80 else 0x00)] ++
      putPcr d.pcr90k 0 ++ replicate d.pad 0xFF
  else if d.pad = 1 then [.ofNat (0x30 ||| cc), 0x00]
  else if d.pad > 1 then
    [.ofNat (0x30 ||| cc), .ofNat (d.pad - 1), 0x00] ++ replicate (d.pad - 1 - 1) 0xFF
  else [.ofNat (0x10 ||| cc)]

/-- `write_packet` with the counter of the packet. -/
def writePacket (d : TsPacketDesc) (cc : Nat) : List UInt8 :=
  packetHead d.pid d.pusi ++ adaptation d cc ++ (d.pointerByte.toList ++ d.payload)

/-- One round of `emit_core`: the packet and how many bytes it takes. -/
def emitOne (pid cc : Nat) (first : Bool) (pointerByte : Option UInt8) (rest : List UInt8)
    (withPcr : Bool) (pcr90k : Nat) (disc : Bool) : List UInt8 × Nat :=
  let ptrOverhead := if first && pointerByte.isSome then 1 else 0
  let afFixed := if withPcr then 8 else 0
  let space := 184 - ptrOverhead - afFixed
  let take := min rest.length space
  let pad := space - take
  (writePacket ⟨pid, first, if first then pointerByte else none, rest.take take, withPcr, pcr90k,
    withPcr && disc, pad⟩ (nextCc cc), take)

/-- The rounds of `emit_core` after the first. -/
def emitRest (pid : Nat) : Nat → List UInt8 → Nat → List (List UInt8) × Nat
  | 0, _, cc => ([], cc)
  | fuel + 1, rest, cc =>
    if rest = [] then ([], cc)
    else
      let (pkt, take) := emitOne pid cc false none rest false 0 false
      let (pkts, cc') := emitRest pid fuel (rest.drop take) (nextCc cc)
      (pkt :: pkts, cc')

/-- `emit_core`: the packets and the counter after them. -/
def emitCore (pid cc : Nat) (pointerByte : Option UInt8) (data : List UInt8) (pcrFirst : Bool)
    (pcr90k : Nat) (disc : Bool) : List (List UInt8) × Nat :=
  let (pkt, take) := emitOne pid cc true pointerByte data pcrFirst pcr90k disc
  let (pkts, cc') := emitRest pid data.length (data.drop take) (nextCc cc)
  (pkt :: pkts, cc')

def tsPacketEmit (pid cc : Nat) (pointerByte : Option UInt8) (data : List UInt8) (pcrFirst : Bool)
    (pcr90k : Nat) : List (List UInt8) × Nat := emitCore pid cc pointerByte data pcrFirst pcr90k false

/-- `ts_packet_emit_partial`: the packets, the offset and the counter after them. -/
def tsPacketEmitPartial (pid : Nat) (pointerByte : Option UInt8) (data : List UInt8) :
    Nat → Nat → Nat → List (List UInt8) × Nat × Nat
  | 0, sent, cc => ([], sent, cc)
  | maxPackets + 1, sent, cc =>
    if sent < data.length then
      let (pkt, take) := emitOne pid cc (sent = 0) pointerByte (data.drop sent) false 0 false
      let (pkts, sent', cc') := tsPacketEmitPartial pid pointerByte data maxPackets (sent + take) (nextCc cc)
      (pkt :: pkts, sent', cc')
    else ([], sent, cc)

/-- The rounds of `pmt_filter_emit_packets` after the first `k`. -/
def pmtFilterRounds (pid : Nat) : Nat → Nat → List UInt8 → Nat → List (List UInt8) × Nat
  | 0, _, _, cc => ([], cc)
  | n + 1, k, rest, cc =>
    let room := if k = 0 then 183 else 184
    let take := min rest.length room
    let pkt := packetHead pid (k = 0) ++ [.ofNat (0x10 ||| nextCc cc)] ++
      ((if k = 0 then [0x00] else []) ++ rest.take take ++ replicate (room - take) 0xFF)
    let (pkts, cc') := pmtFilterRounds pid n (k + 1) (rest.drop take) (nextCc cc)
    (pkt :: pkts, cc')

def pmtFilterEmitPackets (outCap pid cc : Nat) (sec : List UInt8) : List (List UInt8) × Nat :=
  let n := (sec.length + 1 + 183) / 184
  if sec.length = 0 ∨ n * 188 > outCap then ([], cc) else pmtFilterRounds pid n 0 sec cc

/-! ## Reading a written packet -/

theorem nextCc_lt (cc : Nat) : nextCc cc < 16 := by
  rw [nextCc, show (0x0F : Nat) = 2 ^ 4 - 1 from rfl, and_two_pow_sub_one_eq_mod]
  exact mod_lt _ (by decide)

theorem plain_byte : ∀ cc < 16, (UInt8.ofNat (0x10 ||| cc)).toNat >>> 4 &&& 0x3 = 1 ∧
    (UInt8.ofNat (0x10 ||| cc)).toNat &&& 0x0F = cc := by
  decide

theorem adapted_byte : ∀ cc < 16, (UInt8.ofNat (0x30 ||| cc)).toNat >>> 4 &&& 0x3 = 3 ∧
    (UInt8.ofNat (0x30 ||| cc)).toNat &&& 0x0F = cc := by
  decide

variable (pid : Nat)

theorem pusi_byte (pusi : Bool) :
    decide ((UInt8.ofNat ((if pusi then 0x40 else 0x00) ||| (pid >>> 8 &&& 0x1F))).toNat &&& 0x40 ≠ 0) = pusi := by
  have hlt : pid >>> 8 &&& 0x1F < 32 := by
    rw [show (0x1F : Nat) = 2 ^ 5 - 1 from rfl, and_two_pow_sub_one_eq_mod]
    exact mod_lt _ (by decide)
  have hall : ∀ x < 32, decide ((UInt8.ofNat ((if pusi then 0x40 else 0x00) ||| x)).toNat &&& 0x40 ≠ 0) = pusi := by
    cases pusi <;> decide
  exact hall _ hlt

variable {cc : Nat}

theorem read_plain (pusi : Bool) (hcc : cc < 16) (body : List UInt8) :
    tspackPayload (packetHead pid pusi ++ [.ofNat (0x10 ||| cc)] ++ body) = some (body, pusi) ∧
      pktCc (packetHead pid pusi ++ [.ofNat (0x10 ||| cc)] ++ body) = cc := by
  obtain ⟨hafc, hc⟩ := plain_byte cc hcc
  have h3 : byteAt (packetHead pid pusi ++ [.ofNat (0x10 ||| cc)] ++ body) 3 = (UInt8.ofNat (0x10 ||| cc)).toNat := rfl
  have h1 : byteAt (packetHead pid pusi ++ [.ofNat (0x10 ||| cc)] ++ body) 1 =
      (UInt8.ofNat ((if pusi then 0x40 else 0x00) ||| (pid >>> 8 &&& 0x1F))).toNat := rfl
  refine ⟨?_, by rw [pktCc, h3, hc]⟩
  simp only [tspackPayload, h3, hafc, h1, pusi_byte]
  rfl

theorem read_adapted (pid : Nat) (pusi : Bool) {cc : Nat} (hcc : cc < 16) {af : List UInt8}
    (haf : af.length < 183) (body : List UInt8) :
    tspackPayload (packetHead pid pusi ++ ([.ofNat (0x30 ||| cc), .ofNat af.length] ++ af) ++ body) =
        some (body, pusi) ∧
      pktCc (packetHead pid pusi ++ ([.ofNat (0x30 ||| cc), .ofNat af.length] ++ af) ++ body) = cc := by
  obtain ⟨hafc, hc⟩ := adapted_byte cc hcc
  have h3 : byteAt (packetHead pid pusi ++ ([.ofNat (0x30 ||| cc), .ofNat af.length] ++ af) ++ body) 3 =
      (UInt8.ofNat (0x30 ||| cc)).toNat := rfl
  have h1 : byteAt (packetHead pid pusi ++ ([.ofNat (0x30 ||| cc), .ofNat af.length] ++ af) ++ body) 1 =
      (UInt8.ofNat ((if pusi then 0x40 else 0x00) ||| (pid >>> 8 &&& 0x1F))).toNat := rfl
  have h4 : byteAt (packetHead pid pusi ++ ([.ofNat (0x30 ||| cc), .ofNat af.length] ++ af) ++ body) 4 = af.length := by
    show (UInt8.ofNat af.length).toNat = _
    rw [UInt8.toNat_ofNat']
    exact mod_eq_of_lt (by omega)
  have hlen : (packetHead pid pusi ++
      ([UInt8.ofNat (0x30 ||| cc), UInt8.ofNat af.length] ++ af)).length = 5 + af.length := by
    simp only [packetHead, length_append, length_cons, length_nil]
    omega
  refine ⟨?_, by rw [pktCc, h3, hc]⟩
  simp only [tspackPayload, h3, hafc, h1, h4, pusi_byte]
  rw [if_neg (by decide), if_pos trivial, if_neg (by omega), ← hlen, drop_left]

/-- `write_packet` leaves its payload where `tspack_payload` looks for it. -/
theorem read_writePacket (d : TsPacketDesc) {cc : Nat} (hcc : cc < 16)
    (hpad : d.pad + (if d.withPcr then 8 else 0) < 184) :
    tspackPayload (writePacket d cc) = some (d.pointerByte.toList ++ d.payload, d.pusi) ∧
      pktCc (writePacket d cc) = cc := by
  simp only [writePacket, adaptation]
  by_cases hpcr : d.withPcr = true
  · rw [if_pos hpcr] at hpad ⊢
    have haf : ([UInt8.ofNat (0x10 ||| if d.disc then 0x80 else 0x00)] ++ putPcr d.pcr90k 0 ++
        replicate d.pad (0xFF : UInt8)).length = 7 + d.pad := by
      simp only [putPcr, length_append, length_cons, length_nil, length_replicate]
    have := @read_adapted d.pid d.pusi cc hcc ([UInt8.ofNat (0x10 ||| if d.disc then 0x80 else 0x00)] ++
      putPcr d.pcr90k 0 ++ replicate d.pad (0xFF : UInt8)) (by omega) (d.pointerByte.toList ++ d.payload)
    rw [haf] at this
    exact this
  rw [if_neg hpcr] at hpad ⊢
  split
  · exact @read_adapted d.pid d.pusi cc hcc [] (by decide) (d.pointerByte.toList ++ d.payload)
  split
  · next hne hgt =>
    have haf : ([0x00] ++ replicate (d.pad - 1 - 1) (0xFF : UInt8)).length = d.pad - 1 := by
      rw [length_append, length_replicate, length_singleton]
      omega
    have := @read_adapted d.pid d.pusi cc hcc ([0x00] ++ replicate (d.pad - 1 - 1) 0xFF)
      (by omega) (d.pointerByte.toList ++ d.payload)
    rw [haf] at this
    exact this
  · exact read_plain d.pid d.pusi hcc _

/-! ## Streams of the packetisers -/

theorem read_emitOne_rest (pid cc : Nat) (pointerByte : Option UInt8) {rest : List UInt8} (hrest : rest ≠ []) :
    (emitOne pid cc false pointerByte rest false 0 false).2 = min rest.length 184 ∧
      tspackPayload (emitOne pid cc false pointerByte rest false 0 false).1 =
        some (rest.take (min rest.length 184), false) ∧
      pktCc (emitOne pid cc false pointerByte rest false 0 false).1 = nextCc cc := by
  have hpos := length_pos_of_ne_nil hrest
  refine ⟨rfl, ?_⟩
  exact @read_writePacket ⟨pid, false, none, rest.take (min rest.length 184), false, 0, false,
    184 - min rest.length 184⟩ (nextCc cc) (nextCc_lt cc) (by
      simp only [Bool.false_eq_true, if_false]
      omega)

theorem read_emitOne_first (pid cc : Nat) (s : Section) (withPcr : Bool) (pcr90k : Nat) (disc : Bool) :
    ∃ space, space < 184 ∧ 0 < space ∧
      (emitOne pid cc true (some 0) s.bytes withPcr pcr90k disc).2 = min s.bytes.length space ∧
      tspackPayload (emitOne pid cc true (some 0) s.bytes withPcr pcr90k disc).1 =
        some (0 :: s.bytes.take (min s.bytes.length space), true) ∧
      pktCc (emitOne pid cc true (some 0) s.bytes withPcr pcr90k disc).1 = nextCc cc := by
  have hlen := s.four_le
  refine ⟨184 - 1 - (if withPcr then 8 else 0), ?_, ?_, rfl, ?_⟩
  · split <;> decide
  · split <;> decide
  · refine @read_writePacket ⟨pid, true, some 0,
      s.bytes.take (min s.bytes.length (184 - 1 - (if withPcr then 8 else 0))), withPcr, pcr90k,
      withPcr && disc, _⟩ (nextCc cc) (nextCc_lt cc) ?_
    show 184 - 1 - (if withPcr then 8 else 0) - min s.bytes.length (184 - 1 - (if withPcr then 8 else 0)) +
      (if withPcr then 8 else 0) < 184
    split <;> omega

/-- The section of which `sent` bytes are out, unless all of them are. -/
def pendingAt (s : Section) (sent : Nat) : Option Pending := if h : sent < s.bytes.length then some ⟨s, sent, h⟩ else none

/-- What is still to be handed out then. -/
def toCome (s : Section) (sent : Nat) : List Section := if sent < s.bytes.length then [s] else []

variable {s : Section} {sent n k : Nat}

theorem carries_first (hpos : 0 < n) (hk : n < s.bytes.length → k = 0) : ∃ fin, fin ++ toCome s n = [s] ∧
    Carries none (0 :: (s.bytes.take n ++ replicate k 0xFF)) true fin fin (pendingAt s n) := by
  by_cases hlt : n < s.bytes.length
  · rw [pendingAt, dif_pos hlt, toCome, if_pos hlt, hk hlt, replicate_zero, append_nil]
    exact ⟨[], rfl, Carries.start none 0 [] (.part ⟨s, n, hlt⟩ hpos) rfl (.inr (Option.some_ne_none _))⟩
  · have hall := Carries.start none 0 [s] (.stuffing k) rfl (.inl (cons_ne_nil _ _))
    rw [show flatBytes [s] = s.bytes from append_nil _] at hall
    rw [pendingAt, dif_neg hlt, toCome, if_neg hlt, take_of_length_le (not_lt.1 hlt)]
    exact ⟨[s], rfl, hall⟩

theorem carries_rest (sent n k : Nat) (hk : sent + n < s.bytes.length → k = 0) : ∃ fin, fin ++ toCome s (sent + n) = toCome s sent ∧
    Carries (pendingAt s sent) ((s.bytes.drop sent).take n ++ replicate k 0xFF) false fin [] (pendingAt s (sent + n)) := by
  by_cases hsent : sent < s.bytes.length
  · rw [pendingAt, dif_pos hsent, toCome, toCome, if_pos hsent]
    by_cases hlt : sent + n < s.bytes.length
    · rw [pendingAt, dif_pos hlt, if_pos hlt, hk hlt, replicate_zero, append_nil]
      exact ⟨[], rfl, .more ⟨s, sent, hsent⟩ n hlt⟩
    · rw [pendingAt, dif_neg hlt, if_neg hlt, take_of_length_le (by rw [length_drop]; omega)]
      exact ⟨[s], rfl, .last ⟨s, sent, hsent⟩ k⟩
  · rw [pendingAt, dif_neg hsent, pendingAt, dif_neg (by omega), toCome, if_neg (by omega), toCome, if_neg hsent]
    exact ⟨[], rfl, .quiet _⟩

variable {pkts : List (List UInt8)} {secs : List Section}

theorem stream_done (hsent : s.bytes.length ≤ sent) (h : Stream (some cc) none pkts secs) :
    Stream (some cc) (pendingAt s sent) pkts (toCome s sent ++ secs) := by
  rw [pendingAt, dif_neg (not_lt.2 hsent), toCome, if_neg (not_lt.2 hsent)]
  exact h

theorem emitRest_stream {fuel : Nat} (hfuel : (s.bytes.drop sent).length ≤ 184 * fuel)
    (h : Stream (some (emitRest pid fuel (s.bytes.drop sent) cc).2) none pkts secs) :
    Stream (some cc) (pendingAt s sent) ((emitRest pid fuel (s.bytes.drop sent) cc).1 ++ pkts) (toCome s sent ++ secs) := by
  induction fuel generalizing sent cc with
  | zero =>
    rw [length_drop] at hfuel
    exact stream_done (by omega) h
  | succ fuel ih =>
    rw [emitRest] at h ⊢
    by_cases hnil : s.bytes.drop sent = []
    · rw [if_pos hnil] at h ⊢
      exact stream_done (drop_eq_nil_iff.1 hnil) h
    obtain ⟨htake, hpl, hcc⟩ := read_emitOne_rest pid cc none hnil
    simp only [if_neg hnil, htake, drop_drop] at h ⊢
    obtain ⟨fin, hfin, hcarry⟩ := carries_rest (s := s) sent (min (s.bytes.drop sent).length 184) 0
      fun _ => rfl
    rw [replicate_zero, append_nil] at hcarry
    rw [← hfin, append_assoc fin]
    refine Stream.once hpl (fun c hc => by rw [← Option.some.inj hc]; exact hcc) hcarry ?_
    rw [hcc]
    refine ih ?_ h
    rw [length_drop] at hfuel ⊢
    rw [length_drop]
    omega

variable {last : Option Nat}

theorem emitCore_stream {fuel : Nat} (s : Section) (pcrFirst : Bool) (pcr90k : Nat)
    (hlast : ∀ c, last = some c → c = cc)
    (hfuel : (s.bytes.drop (emitOne pid cc true (some 0) s.bytes pcrFirst pcr90k false).2).length ≤ 184 * fuel)
    (h : Stream (some (emitRest pid fuel (s.bytes.drop (emitOne pid cc true (some 0) s.bytes pcrFirst pcr90k false).2) (nextCc cc)).2) none pkts secs) :
    Stream last none ((emitOne pid cc true (some 0) s.bytes pcrFirst pcr90k false).1 ::
      (emitRest pid fuel (s.bytes.drop (emitOne pid cc true (some 0) s.bytes pcrFirst pcr90k false).2) (nextCc cc)).1 ++ pkts)
      (s :: secs) := by
  obtain ⟨space, -, hpos, htake, hpl, hcc⟩ := read_emitOne_first pid cc s pcrFirst pcr90k false
  have hlen := s.four_le
  obtain ⟨fin, hfin, hcarry⟩ := carries_first (s := s) (n := min s.bytes.length space) (k := 0) (by omega) fun _ => rfl
  rw [replicate_zero, append_nil] at hcarry
  rw [htake] at hfuel h ⊢
  rw [← singleton_append (l := secs), ← hfin, append_assoc fin]
  refine Stream.once hpl (fun c hc => by rw [hlast c hc]; exact hcc) hcarry ?_
  rw [hcc]
  exact emitRest_stream pid hfuel h

theorem tsPacketEmit_stream (s : Section) (pcrFirst : Bool) (pcr90k : Nat) (hlast : ∀ c, last = some c → c = cc)
    (h : Stream (some (tsPacketEmit pid cc (some 0) s.bytes pcrFirst pcr90k).2) none pkts secs) :
    Stream last none ((tsPacketEmit pid cc (some 0) s.bytes pcrFirst pcr90k).1 ++ pkts) (s :: secs) := by
  refine emitCore_stream pid s pcrFirst pcr90k hlast ?_ h
  rw [length_drop]
  omega

/-- Several calls of `ts_packet_emit_partial` one after the other. -/
def partialCalls (pid : Nat) (pointerByte : Option UInt8) (data : List UInt8) :
    List Nat → Nat → Nat → List (List UInt8) × Nat × Nat
  | [], sent, cc => ([], sent, cc)
  | maxPackets :: calls, sent, cc =>
    let (pkts, sent', cc') := tsPacketEmitPartial pid pointerByte data maxPackets sent cc
    let (more, sent'', cc'') := partialCalls pid pointerByte data calls sent' cc'
    (pkts ++ more, sent'', cc'')

theorem tsPacketEmitPartial_add (pointerByte : Option UInt8) (data : List UInt8) (m n sent cc : Nat) :
    tsPacketEmitPartial pid pointerByte data (m + n) sent cc =
      let (pkts, sent', cc') := tsPacketEmitPartial pid pointerByte data m sent cc
      let (more, sent'', cc'') := tsPacketEmitPartial pid pointerByte data n sent' cc'
      (pkts ++ more, sent'', cc'') := by
  induction m generalizing sent cc with
  | zero =>
    rw [zero_add]
    rfl
  | succ m ih =>
    rw [add_right_comm, tsPacketEmitPartial, tsPacketEmitPartial]
    by_cases hlt : sent < data.length
    · simp only [if_pos hlt, ih, cons_append]
    · simp only [if_neg hlt, nil_append]
      cases n with
      | zero => rfl
      | succ n => rw [tsPacketEmitPartial, if_neg hlt]

theorem partialCalls_eq (pointerByte : Option UInt8) (data : List UInt8) (calls : List Nat)
    (sent cc : Nat) : partialCalls pid pointerByte data calls sent cc =
      tsPacketEmitPartial pid pointerByte data calls.sum sent cc := by
  induction calls generalizing sent cc with
  | nil => rfl
  | cons m calls ih => simp only [partialCalls, ih, sum_cons, tsPacketEmitPartial_add]

/-- After its first packet a partial emission goes on as `emit_core` does. -/
theorem tsPacketEmitPartial_eq_rest (pid : Nat) (pointerByte : Option UInt8) (data : List UInt8)
    (m : Nat) {sent cc : Nat} (hsent : 0 < sent) :
    (tsPacketEmitPartial pid pointerByte data m sent cc).1 = (emitRest pid m (data.drop sent) cc).1 ∧
      (tsPacketEmitPartial pid pointerByte data m sent cc).2.2 = (emitRest pid m (data.drop sent) cc).2 ∧
      (tsPacketEmitPartial pid pointerByte data m sent cc).2.1 ≤ sent + 184 * m := by
  induction m generalizing sent cc with
  | zero => exact ⟨rfl, rfl, le_rfl⟩
  | succ m ih =>
    rw [tsPacketEmitPartial, emitRest]
    by_cases hlt : sent < data.length
    · have hne : data.drop sent ≠ [] := fun hnil => by
        have := congrArg length hnil
        rw [length_drop, length_nil] at this
        omega
      have hfirst : decide (sent = 0) = false := decide_eq_false (by omega)
      have hsame : emitOne pid cc false pointerByte (data.drop sent) false 0 false =
          emitOne pid cc false none (data.drop sent) false 0 false := rfl
      obtain ⟨htake, -, -⟩ := read_emitOne_rest pid cc none hne
      obtain ⟨hpkts, hcc, hle⟩ := @ih (sent + min (data.drop sent).length 184) (nextCc cc) (by omega)
      simp only [if_pos hlt, if_neg hne, hfirst, hsame, htake, drop_drop]
      exact ⟨by rw [hpkts], hcc, le_trans hle (by omega)⟩
    · have hnil : data.drop sent = [] := drop_eq_nil_of_le (by omega)
      rw [if_neg hlt, if_pos hnil]
      exact ⟨rfl, rfl, le_add_right _ _⟩

theorem partialCalls_stream (s : Section) (calls : List Nat)
    (hdone : (partialCalls pid (some 0) s.bytes calls 0 cc).2.1 = s.bytes.length)
    (hlast : ∀ c, last = some c → c = cc)
    (h : Stream (some (partialCalls pid (some 0) s.bytes calls 0 cc).2.2) none pkts secs) :
    Stream last none ((partialCalls pid (some 0) s.bytes calls 0 cc).1 ++ pkts) (s :: secs) := by
  have hlen := s.four_le
  rw [partialCalls_eq] at hdone h ⊢
  cases hsum : calls.sum with
  | zero =>
    rw [hsum] at hdone
    change 0 = _ at hdone
    omega
  | succ m =>
    have hstep : tsPacketEmitPartial pid (some 0) s.bytes (m + 1) 0 cc =
        ((emitOne pid cc true (some 0) s.bytes false 0 false).1 ::
            (tsPacketEmitPartial pid (some 0) s.bytes m (emitOne pid cc true (some 0) s.bytes false 0 false).2 (nextCc cc)).1,
          (tsPacketEmitPartial pid (some 0) s.bytes m (emitOne pid cc true (some 0) s.bytes false 0 false).2 (nextCc cc)).2) := by
      rw [tsPacketEmitPartial, if_pos (by omega)]
      simp only [decide_true, drop_zero, zero_add]
    obtain ⟨space, -, hpos, htake, -⟩ := read_emitOne_first pid cc s false 0 false
    obtain ⟨hpkts, hcc, hle⟩ := @tsPacketEmitPartial_eq_rest pid (some 0) s.bytes m
      (emitOne pid cc true (some 0) s.bytes false 0 false).2 (nextCc cc) (by omega)
    rw [hsum, hstep] at hdone h
    rw [hstep]
    simp only [hcc] at h
    simp only [hpkts]
    refine emitCore_stream pid s false 0 hlast ?_ h
    rw [length_drop]
    simp only at hdone
    omega

/-! ## Stuffed emission -/

theorem pmtFilterRounds_succ (pid n k : Nat) (rest : List UInt8) (cc : Nat) :
    pmtFilterRounds pid (n + 1) (k + 1) rest cc = ((packetHead pid false ++ [.ofNat (0x10 ||| nextCc cc)] ++
          (rest.take (min rest.length 184) ++ replicate (184 - min rest.length 184) 0xFF)) ::
        (pmtFilterRounds pid n (k + 2) (rest.drop (min rest.length 184)) (nextCc cc)).1,
        (pmtFilterRounds pid n (k + 2) (rest.drop (min rest.length 184)) (nextCc cc)).2) := by
  rw [pmtFilterRounds]
  simp only [add_one_ne_zero, if_false, decide_false, nil_append]

/-- The rounds after the first finish the section, and go on with stuffing. -/
theorem pmtFilterRounds_stream {n k : Nat} (hfuel : (s.bytes.drop sent).length ≤ 184 * n)
    (h : Stream (some (pmtFilterRounds pid n (k + 1) (s.bytes.drop sent) cc).2) none pkts secs) :
    Stream (some cc) (pendingAt s sent) ((pmtFilterRounds pid n (k + 1) (s.bytes.drop sent) cc).1 ++ pkts)
      (toCome s sent ++ secs) := by
  induction n generalizing sent k cc with
  | zero =>
    rw [length_drop] at hfuel
    exact stream_done (by omega) h
  | succ n ih =>
    rw [pmtFilterRounds_succ, drop_drop] at h ⊢
    obtain ⟨hpl, hcc⟩ := read_plain pid false (nextCc_lt cc)
      ((s.bytes.drop sent).take (min (s.bytes.drop sent).length 184) ++
        replicate (184 - min (s.bytes.drop sent).length 184) 0xFF)
    rw [length_drop] at hfuel
    obtain ⟨fin, hfin, hcarry⟩ := carries_rest (s := s) sent (min (s.bytes.drop sent).length 184)
      (184 - min (s.bytes.drop sent).length 184) (by rw [length_drop]; omega)
    rw [← hfin, append_assoc fin]
    refine Stream.once hpl (fun c hc => hcc.trans (congrArg nextCc (Option.some.inj hc))) hcarry ?_
    rw [hcc]
    refine ih ?_ h
    rw [length_drop, length_drop]
    omega

theorem pmtFilterEmitPackets_stream {outCap : Nat} (s : Section)
    (hcap : (s.bytes.length + 1 + 183) / 184 * 188 ≤ outCap) (hlast : ∀ c, last = some c → c = cc)
    (h : Stream (some (pmtFilterEmitPackets outCap pid cc s.bytes).2) none pkts secs) :
    Stream last none ((pmtFilterEmitPackets outCap pid cc s.bytes).1 ++ pkts) (s :: secs) := by
  have hlen := s.four_le
  simp only [pmtFilterEmitPackets] at h ⊢
  rw [if_neg (by omega)] at h ⊢
  obtain ⟨n, hn⟩ : ∃ n, (s.bytes.length + 1 + 183) / 184 = n + 1 :=
    ⟨(s.bytes.length + 1 + 183) / 184 - 1, by omega⟩
  rw [hn] at h ⊢
  rw [pmtFilterRounds] at h ⊢
  simp only [if_true, decide_true, cons_append, nil_append] at h ⊢
  obtain ⟨hpl, hcc⟩ := read_plain pid true (nextCc_lt cc)
    (0x00 :: (s.bytes.take (min s.bytes.length 183) ++ replicate (183 - min s.bytes.length 183) 0xFF))
  obtain ⟨fin, hfin, hcarry⟩ := carries_first (s := s) (n := min s.bytes.length 183) (k := 183 - min s.bytes.length 183)
    (by omega) (by omega)
  rw [← singleton_append (l := secs), ← hfin, append_assoc fin]
  refine Stream.once hpl (fun c hc => hcc.trans (congrArg nextCc (hlast c hc).symm)) hcarry ?_
  rw [hcc]
  refine pmtFilterRounds_stream pid ?_ h
  rw [length_drop]
  omega

/-! # Sections from the packetisers to the assembler

A list of sections comes out of the assembler as it went in, whichever of the packetisers or other
conforming multiplexers wrote it, and a gap in the counters keeps what was before it apart from what
comes after. The discontinuity indicator excuses a gap, and a counter that repeats inside a section is
taken for a duplicate: there the bytes of both sides meet. -/

/-- `Packetised pid cc secs pkts`: the sections one after the other through the packetisers, with the
    counter `cc` before them. -/
inductive Packetised (pid : Nat) : Nat → List Section → List (List UInt8) → Prop
  | nil (cc : Nat) : Packetised pid cc [] []
  /-- `ts_packet_emit` -/
  | emit (cc : Nat) (s : Section) (pcrFirst : Bool) (pcr90k : Nat) {secs : List Section}
      {pkts : List (List UInt8)}
      (h : Packetised pid (tsPacketEmit pid cc (some 0) s.bytes pcrFirst pcr90k).2 secs pkts) :
      Packetised pid cc (s :: secs) ((tsPacketEmit pid cc (some 0) s.bytes pcrFirst pcr90k).1 ++ pkts)
  /-- `ts_packet_emit_partial` in calls for the given numbers of packets, until all is sent -/
  | emitPartial (cc : Nat) (s : Section) (calls : List Nat) {secs : List Section}
      {pkts : List (List UInt8)}
      (hdone : (partialCalls pid (some 0) s.bytes calls 0 cc).2.1 = s.bytes.length)
      (h : Packetised pid (partialCalls pid (some 0) s.bytes calls 0 cc).2.2 secs pkts) :
      Packetised pid cc (s :: secs) ((partialCalls pid (some 0) s.bytes calls 0 cc).1 ++ pkts)
  /-- `pmt_filter_emit_packets` into a buffer the packets fit in -/
  | pmtFilter (cc : Nat) (s : Section) (outCap : Nat) {secs : List Section} {pkts : List (List UInt8)}
      (hcap : (s.bytes.length + 1 + 183) / 184 * 188 ≤ outCap)
      (h : Packetised pid (pmtFilterEmitPackets outCap pid cc s.bytes).2 secs pkts) :
      Packetised pid cc (s :: secs) ((pmtFilterEmitPackets outCap pid cc s.bytes).1 ++ pkts)

theorem Packetised.stream {pid cc : Nat} {secs : List Section} {pkts : List (List UInt8)}
    (h : Packetised pid cc secs pkts) {last : Option Nat} (hlast : ∀ c, last = some c → c = cc) :
    Stream last none pkts secs := by
  have hsome : ∀ cc c : Nat, some cc = some c → c = cc := fun _ _ hc => (Option.some.inj hc).symm
  induction h generalizing last with
  | nil cc => exact .nil last none
  | emit cc s pcrFirst pcr90k _ ih => exact tsPacketEmit_stream pid s pcrFirst pcr90k hlast (ih (hsome _))
  | emitPartial cc s calls hdone _ ih => exact partialCalls_stream pid s calls hdone hlast (ih (hsome _))
  | pmtFilter cc s outCap hcap _ ih => exact pmtFilterEmitPackets_stream pid s hcap hlast (ih (hsome _))

/-- Sections go through: each comes out at least once, in order and byte for byte, and nothing else does;
    only what a packet sent twice had brought may come again. After a gap the sections are those of the
    packets after it. -/
theorem section_transport : (∀ (secs : List Section) (pkts sent : List (List UInt8)),
      (Stream none none pkts secs ∨ ∃ pid cc, Packetised pid cc secs pkts) → Doubled pkts sent →
      ∃ out, (({} : SectionAsm).feedPackets sent).1 = out.map Section.bytes ∧ secs.Sublist out ∧
        out ⊆ secs ∧ Replays secs out) ∧ ∀ (before after : List (List UInt8)) (pkt : List UInt8),
      (({} : SectionAsm).feedPackets before).2.Gap pkt → (({} : SectionAsm).feedPackets (before ++ pkt :: after)).1 =
        (({} : SectionAsm).feedPackets before).1 ++ (({} : SectionAsm).feedPackets (pkt :: after)).1 := by
  constructor
  · intro secs pkts sent hstream hsent
    have hstream : Stream none none pkts secs := by
      rcases hstream with h | ⟨pid, cc, h⟩
      · exact h
      · exact h.stream nofun
    obtain ⟨out, heq, hreplay⟩ := SectionAsm.feedPackets_stream hstream hsent (a := {}) rfl rfl
    exact ⟨out, heq, hreplay.sublist, hreplay.subset, hreplay⟩
  · intro before after pkt hgap
    rw [SectionAsm.feedPackets_append, SectionAsm.feedPackets_gap hgap]

/-- A section of 200 bytes that are all `b` behind its header. -/
def evenSection (b : UInt8) : Section where
  bytes := [0x4E, 0xF0, 197] ++ replicate 197 b
  four_le := by
    rw [length_append, length_replicate]
    decide
  le_max := by
    rw [length_append, length_replicate]
    decide
  length_eq := by
    have hlength : ∀ body : List UInt8, tspackLength12 ([0x4E, 0xF0, 197] ++ body) 1 = 197 := fun _ => by
      show ((0xF0 : UInt8).toNat &&& 0x0F) <<< 8 ||| (197 : UInt8).toNat = 197
      decide
    rw [length_append, length_replicate, hlength]
    rfl
  tableId_ne := by
    have hid : ∀ body : List UInt8, ([0x4E, 0xF0, 197] ++ body).getD 0 0 ≠ 0xFF := fun _ => by
      rw [cons_append, getD_cons_zero]
      decide
    exact hid _

/-- The first packet of a section, with the counter 1. -/
def firstPacket : List UInt8 := packetHead 0x12 true ++ [0x11] ++ (0 :: (evenSection 0x11).bytes.take 183)

/-- The end of another section, with the counter 5 and the discontinuity indicator `flags`. -/
def strayPacket (flags : UInt8) : List UInt8 :=
  packetHead 0x12 false ++ ([0x35, 166, flags] ++ replicate 165 0xFF) ++ (evenSection 0x22).bytes.drop 183

theorem section_transport_one : (∃ out, (({} : SectionAsm).feedPackets
        ((tsPacketEmit 0x12 0 (some 0) (evenSection 0x11).bytes false 0).1 ++ [])).1 =
          out.map Section.bytes ∧ [evenSection 0x11].Sublist out ∧ out ⊆ [evenSection 0x11] ∧
        Replays [evenSection 0x11] out) ∧ (({} : SectionAsm).feedPackets ([firstPacket] ++ strayPacket 0 :: [])).1 =
      (({} : SectionAsm).feedPackets [firstPacket]).1 ++ (({} : SectionAsm).feedPackets (strayPacket 0 :: [])).1 :=
  ⟨section_transport.1 [evenSection 0x11] _ _
      (.inr ⟨0x12, 0, .emit 0 (evenSection 0x11) false 0 (.nil _)⟩) (Doubled.refl _),
    section_transport.2 [firstPacket] [] (strayPacket 0)
      ⟨by decide +kernel, by decide +kernel, by decide +kernel, by decide +kernel, by decide +kernel⟩⟩

/-- With the discontinuity indicator set, a section is put together from both sides of a gap. -/
theorem flagged_gap_mixes : pktCc (strayPacket 0x80) ≠ (pktCc firstPacket + 1) &&& 0x0F ∧
    (({} : SectionAsm).feedPackets [firstPacket]).1 = [] ∧ (({} : SectionAsm).feedPackets [strayPacket 0x80]).1 = [] ∧
    (({} : SectionAsm).feedPackets [firstPacket, strayPacket 0x80]).1 =
      [(evenSection 0x11).bytes.take 183 ++ (evenSection 0x22).bytes.drop 183] := by
  decide +kernel

end DvbIpiTools.Mux
