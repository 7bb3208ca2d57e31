import DvbIpiTools.Mux.TsPacketWrite
import DvbIpiTools.Demux.Pes
import Mathlib.Tactic.IntervalCases

set_option autoImplicit false

/-! # Building PES packets (`mux/esbuild/pes.c`, `mux/esbuild/tspacketize.c`) -/

namespace DvbIpiTools.Mux

open BeUtil Demux List Nat

def putTsField (ts prefix4 : Nat) : List UInt8 :=
  [.ofNat (prefix4 <<< 4 ||| (ts >>> 29 &&& 0x0E) ||| 0x01), .ofNat (ts >>> 22),
    .ofNat ((ts >>> 14 &&& 0xFE) ||| 0x01), .ofNat (ts >>> 7), .ofNat ((ts <<< 1 &&& 0xFE) ||| 0x01)]

def isVideoStreamId (streamId : UInt8) : Bool := streamId &&& 0xF0 = 0xE0

/-- A unit of an elementary stream, with what else `esbuild_ts_packetize` is given for it. -/
structure EsUnit where
  streamId : UInt8
  pts : Nat
  dts : Option Nat
  data : List UInt8
  pcr : Option UInt64
  pesbufCap : Nat
  deriving DecidableEq

/-- The header that `esbuild_pes_build` writes. -/
def pesHeader (u : EsUnit) (pktLenVal : Nat) : List UInt8 :=
  [0x00, 0x00, 0x01, u.streamId, .ofNat (pktLenVal >>> 8), .ofNat pktLenVal, 0x85] ++ match u.dts with
    | some dts => [0xC0, 10] ++ putTsField u.pts 0x3 ++ putTsField dts 0x1
    | none => [0x80, 5] ++ putTsField u.pts 0x2

/-- `esbuild_pes_build`; none when it refuses. -/
def esbuildPesBuild (u : EsUnit) : Option (List UInt8) :=
  let optFieldLen := if u.dts.isSome then 10 else 5
  let hdrLen := 9 + optFieldLen
  let afterLen := 3 + optFieldLen + u.data.length
  if u.pesbufCap < hdrLen + u.data.length then none
  else if afterLen > 0xFFFF then
    if !isVideoStreamId u.streamId then none else some (pesHeader u 0 ++ u.data)
  else some (pesHeader u afterLen ++ u.data)

def esbuildPcrLead90k : UInt64 := 63000

/-- `esbuild_ts_packetize`: the packets and the counter after them. -/
def esbuildTsPacketize (pid cc : Nat) (u : EsUnit) : List (List UInt8) × Nat :=
  match esbuildPesBuild u with
  | none => ([], cc)
  | some pes =>
    tsPacketEmit pid cc none pes u.pcr.isSome ((u.pcr.getD 0 - esbuildPcrLead90k) &&& 0x1FFFFFFFF).toNat

/-- Units of a PID one after the other. -/
def packetizeAll (pid : Nat) : Nat → List EsUnit → List (List UInt8) × Nat
  | cc, [] => ([], cc)
  | cc, u :: us =>
    let (pkts, cc) := esbuildTsPacketize pid cc u
    let (more, cc) := packetizeAll pid cc us
    (pkts ++ more, cc)

/-! # PES packets from `esbuild_ts_packetize` to `pes_feed`

A unit of an elementary stream comes out with its bytes and times as it went in, on every PID on its own. A unit
without bytes is sent, but `deliver` gives nothing for it. -/

/-! ## Times -/

theorem readPts_lt (p : List UInt8) (off : Nat) : readPts p off < 2 ^ 33 := by
  have hshift : ∀ {x n : Nat}, x < 2 ^ (33 - n) → n ≤ 33 → x <<< n < 2 ^ 33 := by
    intro x n hx hn
    have hpow : (2 : Nat) ^ 33 = 2 ^ (33 - n) * 2 ^ n := by rw [← pow_add, Nat.sub_add_cancel hn]
    rw [shiftLeft_eq, hpow]
    exact Nat.mul_lt_mul_of_pos_right hx (Nat.two_pow_pos n)
  have hb := byteAt_lt p
  refine or_lt_two_pow (or_lt_two_pow (or_lt_two_pow (or_lt_two_pow ?_ ?_) ?_) ?_) ?_
  · exact hshift (and_lt_two_pow _ (by decide)) (by decide)
  · exact hshift (lt_trans (hb _) (by decide)) (by decide)
  · exact hshift (and_lt_two_pow _ (by decide)) (by decide)
  · exact hshift (lt_trans (hb _) (by decide)) (by decide)
  · exact lt_of_le_of_lt (shiftRight_le _ _) (lt_trans (hb _) (by decide))

theorem testBit_mask (n j : Nat) : (2 ^ n - 2).testBit j = decide (0 < j ∧ j < n) := by
  rcases n with _ | n
  · simp
  have hmask : 2 ^ (n + 1) - 2 = 2 * (2 ^ n - 1) := by omega
  rw [hmask]
  rcases j with _ | j
  · simp
  · rw [Nat.testBit_succ, Nat.mul_div_cancel_left _ (by decide), Nat.testBit_two_pow_sub_one]
    simp

theorem readPts_putTsField (ts m : Nat) (a b : List UInt8) :
    readPts (a ++ (putTsField ts m ++ b)) a.length = ts % 2 ^ 33 := by
  have hbyte : ∀ i, byteAt (a ++ (putTsField ts m ++ b)) (a.length + i) = byteAt (putTsField ts m ++ b) i :=
    fun i => byteAt_append_right _ _ i
  have h0 := hbyte 0
  rw [add_zero] at h0
  have hpow : ∀ {x i : Nat}, x < 2 ^ 33 → 33 ≤ i → x.testBit i = false := fun hx hi =>
    Nat.testBit_lt_two_pow (lt_of_lt_of_le hx (Nat.pow_le_pow_right (by decide) hi))
  apply eq_of_testBit_eq
  intro i
  by_cases hi : i < 33
  · -- bit by bit
    rw [testBit_mod_two_pow, decide_eq_true hi, Bool.true_and]
    have h14 : ∀ j, Nat.testBit 0x0E j = decide (0 < j ∧ j < 4) := testBit_mask 4
    have h254 : ∀ j, Nat.testBit 0xFE j = decide (0 < j ∧ j < 8) := testBit_mask 8
    have h1 : ∀ j, Nat.testBit 1 j = decide (j = 0) := fun j => by
      rw [Bool.eq_iff_iff, testBit_one_eq_true_iff_self_eq_zero, decide_eq_true_iff]
    simp only [readPts, h0, hbyte]
    simp only [byteAt, putTsField, cons_append, getD_cons_zero, getD_cons_succ,
      UInt8.toNat_ofNat', testBit_or, testBit_and, testBit_shiftLeft, testBit_shiftRight,
      testBit_mod_two_pow, h14, h254, h1, -Nat.reducePow]
    interval_cases i <;> simp
  · rw [hpow (readPts_lt _ _) (by omega), hpow (mod_lt ts (by decide)) (by omega)]

/-! ## The header -/

/-- What a unit must be to come out as it went in. -/
structure EsUnit.InRange (u : EsUnit) : Prop where
  pts : u.pts < 2 ^ 33
  dts : ∀ dts, u.dts = some dts → dts < 2 ^ 33
  data : u.data.length ≤ pesMaxBytes

theorem length_pesHeader (u : EsUnit) (n : Nat) : 9 ≤ (pesHeader u n).length ∧ (pesHeader u n).length ≤ 19 := by
  unfold pesHeader putTsField
  cases u.dts <;> simp

variable {u : EsUnit}

theorem esbuildPesBuild_eq {pes : List UInt8} (h : esbuildPesBuild u = some pes) :
    ∃ n, pes = pesHeader u n ++ u.data := by
  simp only [esbuildPesBuild] at h
  generalize (if u.dts.isSome = true then 10 else 5) = optFieldLen at h
  split at h
  · cases h
  · split at h
    · split at h
      · cases h
      · exact ⟨0, (Option.some.inj h).symm⟩
    · exact ⟨_, (Option.some.inj h).symm⟩

/-- `parse_hdr` of a header that is whole: `flags` and `opt` are what it has of times. -/
theorem parseHdr_whole {s : PesStream} (streamId b4 b5 b6 flags : UInt8) (opt d : List UInt8) (hopt : opt.length < 256)
    (hbuf : s.buf = [0x00, 0x00, 0x01, streamId, b4, b5, b6, flags, .ofNat opt.length] ++ (opt ++ d)) :
    s.parseHdr =
      let hasPts : Bool := flags.toNat &&& 0x80 ≠ 0 ∧ opt.length ≥ 5
      let hasDts : Bool := flags.toNat &&& 0xC0 = 0xC0 ∧ opt.length ≥ 10
      { s with
        hdr := false
        hasPts
        hasDts
        pts := if hasPts then readPts s.buf 9 else s.pts
        dts := if hasDts then readPts s.buf 14 else s.dts
        buf := d } := by
  have h0 : byteAt s.buf 0 = 0 := by rw [hbuf]; rfl
  have h1 : byteAt s.buf 1 = 0 := by rw [hbuf]; rfl
  have h2 : byteAt s.buf 2 = 1 := by rw [hbuf]; rfl
  have h7 : byteAt s.buf 7 = flags.toNat := by rw [hbuf]; rfl
  have h8 : byteAt s.buf 8 = opt.length := by
    rw [hbuf]
    exact mod_eq_of_lt hopt
  have hlen : s.buf.length = 9 + opt.length + d.length := by
    rw [hbuf, length_append, length_append]
    simp only [length_cons, length_nil]
    omega
  have hdrop : s.buf.drop (9 + opt.length) = d := by
    rw [hbuf, ← append_assoc, drop_left']
    rw [length_append]
    rfl
  simp only [PesStream.parseHdr, h0, h1, h2, h7, h8]
  rw [if_neg (by simp), if_neg (by omega), if_neg (by omega), hdrop]

theorem parseHdr_pesHeader (hu : u.InRange) (n : Nat) (d : List UInt8) {s : PesStream}
    (hbuf : s.buf = pesHeader u n ++ d) : s.parseHdr = { s with
      hdr := false
      hasPts := true
      hasDts := u.dts.isSome
      pts := u.pts
      dts := u.dts.getD s.dts
      buf := d } := by
  have hpts : readPts s.buf 9 = u.pts := by
    refine Eq.trans ?_ (mod_eq_of_lt hu.pts)
    rw [hbuf, pesHeader]
    cases u.dts with
    | none => exact readPts_putTsField _ 0x2 [0x00, 0x00, 0x01, u.streamId, _, _, 0x85, 0x80, 5] d
    | some dts =>
      exact readPts_putTsField _ 0x3 [0x00, 0x00, 0x01, u.streamId, _, _, 0x85, 0xC0, 10]
        (putTsField dts 0x1 ++ d)
  cases hdts : u.dts with
  | none =>
    have hb : s.buf = [0x00, 0x00, 0x01, u.streamId, .ofNat (n >>> 8), .ofNat n, 0x85, 0x80, 5] ++
        (putTsField u.pts 0x2 ++ d) := by
      rw [hbuf, pesHeader, hdts]
      rfl
    rw [parseHdr_whole _ _ _ _ _ (putTsField u.pts 0x2) d (by show 5 < 256; decide) hb, hpts]
    rfl
  | some dts =>
    have hb : s.buf = [0x00, 0x00, 0x01, u.streamId, .ofNat (n >>> 8), .ofNat n, 0x85, 0xC0, 10] ++
        ((putTsField u.pts 0x3 ++ putTsField dts 0x1) ++ d) := by
      rw [hbuf, pesHeader, hdts]
      rfl
    have hdtsRead : readPts s.buf 14 = dts := by
      rw [hb]
      exact (readPts_putTsField dts 0x1
        ([0x00, 0x00, 0x01, u.streamId, _, _, 0x85, 0xC0, 10] ++ putTsField u.pts 0x3) d).trans (mod_eq_of_lt (hu.dts dts hdts))
    rw [parseHdr_whole _ _ _ _ _ (putTsField u.pts 0x3 ++ putTsField dts 0x1) d (by show 10 < 256; decide) hb, hpts,
      hdtsRead]
    rfl

/-! ## The packets of a unit -/

theorem read_emitOne_start (pid cc : Nat) {data : List UInt8} (hdata : data ≠ []) (withPcr : Bool) (pcr90k : Nat) :
    ∃ space, 176 ≤ space ∧ space ≤ 184 ∧
      (emitOne pid cc true none data withPcr pcr90k false).2 = min data.length space ∧
      tspackPayload (emitOne pid cc true none data withPcr pcr90k false).1 =
        some (data.take (min data.length space), true) := by
  have hpos := length_pos_of_ne_nil hdata
  refine ⟨184 - (if withPcr then 8 else 0), ?_, by omega, rfl, ?_⟩
  · split <;> omega
  · refine (@read_writePacket ⟨pid, true, none, data.take (min data.length (184 - (if withPcr then 8 else 0))), withPcr,
      pcr90k, withPcr && false, _⟩ (nextCc cc) (nextCc_lt cc) ?_).1
    show 184 - (if withPcr then 8 else 0) - min data.length (184 - (if withPcr then 8 else 0)) +
      (if withPcr then 8 else 0) < 184
    split <;> omega

theorem emitRest_feed (pid : Nat) {fuel cc : Nat} {rest : List UInt8} {s : PesStream} (hfuel : rest.length ≤ 184 * fuel)
    (hstarted : s.started = true) (hhdr : s.hdr = false) (hlen : s.buf.length + rest.length ≤ pesMaxBytes) :
    s.feedPackets (emitRest pid fuel rest cc).1 = ([], { s with buf := s.buf ++ rest }) := by
  induction fuel generalizing rest cc s with
  | zero =>
    have hnil : rest = [] := eq_nil_of_length_eq_zero (by omega)
    subst hnil
    rw [append_nil]
    rfl
  | succ fuel ih =>
    rw [emitRest]
    split
    · next hnil =>
      subst hnil
      rw [append_nil]
      rfl
    rename_i hne
    obtain ⟨htake, hpl, -⟩ := read_emitOne_rest pid cc none hne
    have hpart : (rest.take (min rest.length 184)).length = min rest.length 184 := by
      rw [length_take]
      omega
    -- the packet is appended and the header is behind us
    have hpacket : s.feedPacket false (emitOne pid cc false none rest false 0 false).1 =
        ([], { s with buf := s.buf ++ rest.take (min rest.length 184) }) := by
      rw [PesStream.feedPacket, hpl]
      exact PesStream.feed_more hstarted hhdr (by omega)
    have hrest := @ih (nextCc cc) (rest.drop (min rest.length 184))
      { s with buf := s.buf ++ rest.take (min rest.length 184) }
      (by rw [length_drop]; omega) hstarted hhdr
      (by rw [length_append, length_drop]; omega)
    simp only [htake, PesStream.feedPackets, hpacket, hrest, append_assoc, take_append_drop, nil_append]

/-- What a stream is after the packets of a unit. -/
def PesStream.holding (s : PesStream) (u : EsUnit) : PesStream := { s with
    started := true
    hdr := false
    hasPts := true
    hasDts := u.dts.isSome
    pts := u.pts
    dts := u.dts.getD s.dts
    buf := u.data }

/-- The packets of a unit give what was before it and leave the unit in the stream. -/
theorem feedPackets_unit (pid cc : Nat) (hu : u.InRange) {pes : List UInt8} (hpes : esbuildPesBuild u = some pes)
    (s : PesStream) : s.feedPackets (esbuildTsPacketize pid cc u).1 = (s.deliver.1, PesStream.holding s u) := by
  obtain ⟨n, rfl⟩ := esbuildPesBuild_eq hpes
  have hmax : pesMaxBytes = 16777216 := by decide
  have hdata := hu.data
  obtain ⟨hhdr9, hhdr19⟩ := length_pesHeader u n
  have hhead : ∀ d, pesHeader u n ++ d ≠ [] := by
    intro d hnil
    rw [(append_eq_nil_iff.1 hnil).1] at hhdr9
    cases hhdr9
  obtain ⟨space, hmin, hle, htake, hpl⟩ := read_emitOne_start pid cc (hhead u.data) u.pcr.isSome
    ((u.pcr.getD 0 - esbuildPcrLead90k) &&& 0x1FFFFFFFF).toNat
  generalize hk : min (pesHeader u n ++ u.data).length space = k at htake hpl
  have hlen : (pesHeader u n ++ u.data).length = (pesHeader u n).length + u.data.length := length_append
  -- the header is whole in the first packet
  have hfirst : (pesHeader u n ++ u.data).take k = pesHeader u n ++ u.data.take (k - (pesHeader u n).length) := by
    rw [take_append, take_of_length_le]
    omega
  have hpart := length_take (i := k - (pesHeader u n).length) (l := u.data)
  have hstart : s.feedPacket false (emitOne pid cc true none (pesHeader u n ++ u.data) u.pcr.isSome
      ((u.pcr.getD 0 - esbuildPcrLead90k) &&& 0x1FFFFFFFF).toNat false).1 =
        (s.deliver.1, { PesStream.holding s u with buf := u.data.take (k - (pesHeader u n).length) }) := by
    rw [PesStream.feedPacket, hpl, hfirst]
    show s.feed false _ true = _
    rw [PesStream.feed_start s (hhead _) (by rw [length_append]; omega), parseHdr_pesHeader hu n _ rfl]
    rfl
  have hdrop : (pesHeader u n ++ u.data).drop k = u.data.drop (k - (pesHeader u n).length) := by
    rw [drop_append, drop_eq_nil_of_le (by omega), nil_append]
  have hrest := @emitRest_feed pid (pesHeader u n ++ u.data).length (nextCc cc)
    (u.data.drop (k - (pesHeader u n).length))
    { PesStream.holding s u with buf := u.data.take (k - (pesHeader u n).length) }
    (by rw [length_drop]; omega) rfl rfl (by rw [length_drop]; simp only; omega)
  simp only [esbuildTsPacketize, hpes, tsPacketEmit, emitCore, htake, hdrop, PesStream.feedPackets, hstart, hrest,
    append_nil, take_append_drop]
  rfl

theorem esbuildTsPacketize_refused (pid cc : Nat) (h : esbuildPesBuild u = none) :
    esbuildTsPacketize pid cc u = ([], cc) := by
  rw [esbuildTsPacketize, h]

/-! ## The units of a PID -/

theorem feedPackets_append (s : PesStream) (a b : List (List UInt8)) :
    s.feedPackets (a ++ b) = ((s.feedPackets a).1 ++ ((s.feedPackets a).2.feedPackets b).1,
      ((s.feedPackets a).2.feedPackets b).2) := by
  induction a generalizing s with
  | nil => rfl
  | cons pkt a ih => simp only [cons_append, PesStream.feedPackets, ih, append_assoc]

/-- What the callback is given for the units of a PID. -/
def delivered (pid : Nat) (units : List EsUnit) : List PesUnit :=
  (units.filter fun u => (esbuildPesBuild u).isSome ∧ u.data ≠ []).map fun u => ⟨pid, some u.pts, u.dts, u.data⟩

theorem deliver_holding (s : PesStream) (h : (esbuildPesBuild u).isSome = true) :
    (PesStream.holding s u).deliver.1 = delivered s.pid [u] := by
  by_cases hnil : u.data = []
  · simp [PesStream.holding, PesStream.deliver, delivered, hnil]
  · cases hdts : u.dts <;> simp [PesStream.holding, PesStream.deliver, delivered, h, hnil, hdts]

theorem packetizeAll_cons (pid cc : Nat) (u : EsUnit) (units : List EsUnit) : (packetizeAll pid cc (u :: units)).1 =
      (esbuildTsPacketize pid cc u).1 ++ (packetizeAll pid (esbuildTsPacketize pid cc u).2 units).1 := rfl

/-- What a stream gives over the packets of units and the flush behind them. -/
theorem feedPackets_units (pid cc : Nat) {units : List EsUnit} (hunits : ∀ u ∈ units, u.InRange) {s : PesStream}
    (hpid : s.pid = pid) :
    (s.feedPackets (packetizeAll pid cc units).1).1 ++ (s.feedPackets (packetizeAll pid cc units).1).2.deliver.1 =
      s.deliver.1 ++ delivered pid units := by
  induction units generalizing s cc with
  | nil => simp [packetizeAll, PesStream.feedPackets, delivered]
  | cons u units ih =>
    have hrest : ∀ v ∈ units, v.InRange := fun v hv => hunits v (mem_cons_of_mem u hv)
    rw [packetizeAll_cons, feedPackets_append]
    cases hbuild : esbuildPesBuild u with
    | none =>
      rw [esbuildTsPacketize_refused pid cc hbuild]
      have hskip : delivered pid (u :: units) = delivered pid units := by simp [delivered, hbuild]
      rw [hskip]
      exact ih cc hrest hpid
    | some pes =>
      have hone : delivered pid (u :: units) = delivered pid [u] ++ delivered pid units := by
        simp only [delivered, ← map_append, ← filter_append]
        rfl
      have hu := feedPackets_unit pid cc (hunits u mem_cons_self) hbuild s
      have hnext := @ih (esbuildTsPacketize pid cc u).2 hrest (PesStream.holding s u) hpid
      rw [deliver_holding s (by rw [hbuild]; rfl), hpid] at hnext
      rw [hu, hone, append_assoc, hnext]

/-! ## PIDs and interleavings -/

/-- A packet that `write_packet` wrote for a PID. -/
def WrittenFor (pid : Nat) (pkt : List UInt8) : Prop := ∃ d c, d.pid = pid ∧ pkt = writePacket d c

theorem tspackPid_writePacket {d : TsPacketDesc} (hpid : d.pid < 0x2000) (c : Nat) :
    tspackPid (writePacket d c) = d.pid := by
  have h1 : byteAt (writePacket d c) 1 =
      (UInt8.ofNat ((if d.pusi then 0x40 else 0x00) ||| (d.pid >>> 8 &&& 0x1F))).toNat := rfl
  have h2 : byteAt (writePacket d c) 2 = d.pid % 256 := UInt8.toNat_ofNat'
  have hhigh : ∀ x < 32, (UInt8.ofNat ((if d.pusi then 0x40 else 0x00) ||| (x &&& 0x1F))).toNat &&& 0x1F = x := by
    cases d.pusi <;> decide
  have hshift : d.pid >>> 8 = d.pid / 256 := shiftRight_eq_div_pow _ _
  rw [tspackPid, h1, h2, hhigh _ (by omega), ← shiftLeft_add_eq_or_of_lt (by omega), hshift, shiftLeft_eq]
  omega

theorem isOfPid_written {pid : Nat} (hpid : pid < 0x2000) {pkt : List UInt8} (h : WrittenFor pid pkt) (q : Nat) :
    isOfPid q pkt = decide (pid = q) := by
  obtain ⟨d, c, rfl, rfl⟩ := h
  have h0 : byteAt (writePacket d c) 0 = 0x47 := rfl
  simp [isOfPid, h0, tspackPid_writePacket hpid]

theorem written_emitRest (pid fuel : Nat) (rest : List UInt8) (cc : Nat) :
    ∀ pkt ∈ (emitRest pid fuel rest cc).1, WrittenFor pid pkt := by
  induction fuel generalizing rest cc with
  | zero => exact fun pkt hpkt => absurd hpkt not_mem_nil
  | succ fuel ih =>
    rw [emitRest]
    split
    · exact fun pkt hpkt => absurd hpkt not_mem_nil
    · intro pkt hpkt
      rcases mem_cons.1 hpkt with rfl | hpkt
      · exact ⟨_, _, rfl, rfl⟩
      · exact ih _ _ pkt hpkt

theorem written_packetizeAll (pid cc : Nat) (units : List EsUnit) :
    ∀ pkt ∈ (packetizeAll pid cc units).1, WrittenFor pid pkt := by
  induction units generalizing cc with
  | nil => exact nofun
  | cons u units ih =>
    intro pkt hpkt
    rw [packetizeAll_cons] at hpkt
    rcases mem_append.1 hpkt with hpkt | hpkt
    · unfold esbuildTsPacketize at hpkt
      split at hpkt
      · cases hpkt
      · rcases mem_cons.1 hpkt with rfl | hpkt
        · exact ⟨_, _, rfl, rfl⟩
        · exact written_emitRest pid _ _ _ pkt hpkt
    · exact ih _ pkt hpkt

/-- `Interleaving ls l`: the lists `ls` merged into `l`, each in its order. -/
inductive Interleaving {α : Type} : List (List α) → List α → Prop
  | nil {ls : List (List α)} (h : ∀ l ∈ ls, l = []) : Interleaving ls []
  | cons {ls : List (List α)} {i : Nat} {x : α} {l m : List α} (hi : ls[i]? = some (x :: l))
      (h : Interleaving (ls.set i l) m) : Interleaving ls (x :: m)

/-- What tells the elements of one of the lists from the others picks that list out again. -/
theorem Interleaving.filter {α : Type} {ls : List (List α)} {m : List α} (h : Interleaving ls m) (p : α → Bool) {i : Nat}
    {l : List α} (hi : ls[i]? = some l) (hl : ∀ x ∈ l, p x = true)
    (hrest : ∀ j l', j ≠ i → ls[j]? = some l' → ∀ x ∈ l', p x = false) : m.filter p = l := by
  induction h generalizing l with
  | nil hnil => exact (hnil l (mem_of_getElem? hi)).symm
  | @cons ls j x l' m hj _ ih =>
    by_cases hij : j = i
    · subst hij
      obtain rfl := Option.some.inj (hi.symm.trans hj)
      have hlt := (List.getElem?_eq_some_iff.1 hi).1
      rw [filter_cons_of_pos (hl x mem_cons_self)]
      refine congrArg (x :: ·) (ih (getElem?_set_self hlt) ?_ ?_)
      · intro y hy
        exact hl y (mem_cons_of_mem x hy)
      · intro k l hk hget
        rw [getElem?_set_ne (Ne.symm hk)] at hget
        exact hrest k l hk hget
    rw [filter_cons_of_neg (by rw [hrest j _ hij hj x mem_cons_self]; decide)]
    refine ih (by rw [getElem?_set_ne hij]; exact hi) hl ?_
    intro k l hk hget
    rcases eq_or_ne k j with rfl | hkj
    · rw [getElem?_set_self (List.getElem?_eq_some_iff.1 hj).1] at hget
      cases hget
      intro y hy
      exact hrest k _ hk hj y (mem_cons_of_mem x hy)
    · rw [getElem?_set_ne (Ne.symm hkj)] at hget
      exact hrest k l hk hget

/-! ## The round trip -/

/-- A stream that nothing has come to. -/
def PesStream.fresh (pid : Nat) : PesStream := { pid }

/-- `pes_track` for each of the PIDs. -/
def trackAll (pids : List Nat) : Pes := pids.foldl (fun p pid => (pesTrack p pid).2) {}

theorem trackAll_streams {pids : List Nat} (h : pids.length ≤ pesMax) :
    (trackAll pids).s = pids.map PesStream.fresh := by
  have hgo : ∀ (pids : List Nat) (p : Pes), p.s.length + pids.length ≤ pesMax →
      (pids.foldl (fun p pid => (pesTrack p pid).2) p).s = p.s ++ pids.map PesStream.fresh := by
    intro pids
    induction pids with
    | nil =>
      intro p _
      exact (append_nil _).symm
    | cons pid pids ih =>
      intro p hp
      rw [length_cons] at hp
      have hstep : (pesTrack p pid).2.s = p.s ++ [PesStream.fresh pid] := by
        rw [pesTrack, if_neg (by omega)]
        rfl
      rw [foldl_cons, ih, hstep, append_assoc]
      · rfl
      · rw [hstep, length_append, length_singleton]
        omega
  exact hgo pids {} (by simpa using h)

/-- The units of a PID with the counter before them. -/
structure EsPid where
  pid : Nat
  cc : Nat
  units : List EsUnit

/-- What the callback is given when packets are fed to a demultiplexer of the PIDs and it is flushed. -/
def feedAndFlush (pids : List Nat) (pkts : List (List UInt8)) : List PesUnit :=
  let (out, p) := pesFeedAll (trackAll pids) pkts
  out ++ (pesFlush p).1

/-- Every PID gives its units that were built and have bytes, in order and with their times; a unit that is refused has
    no packets and keeps the counter. -/
theorem pes_transport {streams : List EsPid} (hlen : streams.length ≤ pesMax) (hnodup : (streams.map EsPid.pid).Nodup)
    (hpid : ∀ t ∈ streams, t.pid < 0x2000) (hunits : ∀ t ∈ streams, ∀ u ∈ t.units, u.InRange)
    {pkts : List (List UInt8)}
    (hpkts : Interleaving (streams.map fun t => (packetizeAll t.pid t.cc t.units).1) pkts) :
    (∀ t ∈ streams, (feedAndFlush (streams.map EsPid.pid) pkts).filter (fun u => t.pid = u.pid) =
      delivered t.pid t.units) ∧ (∀ u ∈ feedAndFlush (streams.map EsPid.pid) pkts, u.pid ∈ streams.map EsPid.pid) ∧
    ∀ (pid cc : Nat) (u : EsUnit), esbuildPesBuild u = none → esbuildTsPacketize pid cc u = ([], cc) := by
  have htrack := @trackAll_streams (streams.map EsPid.pid) (by rw [length_map]; exact hlen)
  have hpids : (trackAll (streams.map EsPid.pid)).s.map PesStream.pid = streams.map EsPid.pid := by
    rw [htrack, map_map]
    exact map_id'' (fun _ => rfl) _
  obtain ⟨hs, hout, hmem⟩ := pesFeedAll_streams pkts (p := trackAll (streams.map EsPid.pid)) (by rw [hpids]; exact hnodup)
  have hend : (pesFeedAll (trackAll (streams.map EsPid.pid)) pkts).2.s.map PesStream.pid = streams.map EsPid.pid := by
    refine Eq.trans ?_ hpids
    rw [hs, map_map]
    exact map_congr_left fun s _ => PesStream.feedPackets_pid s _
  refine ⟨?_, ?_, fun pid cc u => esbuildTsPacketize_refused pid cc⟩
  · intro t ht
    obtain ⟨i, hi⟩ := mem_iff_getElem?.mp ht
    -- of the packets those of the PID
    have hown : pkts.filter (isOfPid t.pid) = (packetizeAll t.pid t.cc t.units).1 := by
      refine hpkts.filter _ (i := i) (by rw [getElem?_map, hi]; rfl) ?_ ?_
      · intro pkt hpkt
        rw [isOfPid_written (hpid t ht) (written_packetizeAll t.pid t.cc t.units pkt hpkt)]
        exact decide_eq_true rfl
      intro j l hj hl pkt hpkt
      rw [getElem?_map, Option.map_eq_some_iff] at hl
      obtain ⟨t', ht', rfl⟩ := hl
      rw [isOfPid_written (hpid t' (mem_of_getElem? ht')) (written_packetizeAll t'.pid t'.cc t'.units pkt hpkt)]
      apply decide_eq_false
      intro heq
      have hlt : j < (streams.map EsPid.pid).length := by
        rw [length_map]
        exact (List.getElem?_eq_some_iff.1 ht').1
      refine hj ((getElem?_inj hlt hnodup).mp ?_)
      rw [getElem?_map, getElem?_map, ht', hi, Option.map_some, Option.map_some, heq]
    have hstream : PesStream.fresh t.pid ∈ (trackAll (streams.map EsPid.pid)).s := by
      rw [htrack]
      exact mem_map_of_mem (mem_map_of_mem ht)
    have hrun := hout _ hstream
    have hunit := @feedPackets_units t.pid t.cc t.units (hunits t ht) (PesStream.fresh t.pid) rfl
    rw [show (PesStream.fresh t.pid).pid = t.pid from rfl, hown] at hrun
    show ((pesFeedAll (trackAll (streams.map EsPid.pid)) pkts).1 ++
      (pesFlush (pesFeedAll (trackAll (streams.map EsPid.pid)) pkts).2).1).filter _ = _
    have hlast : ((PesStream.fresh t.pid).feedPackets (packetizeAll t.pid t.cc t.units).1).2 ∈
        (pesFeedAll (trackAll (streams.map EsPid.pid)) pkts).2.s := by
      rw [hs]
      refine mem_map.2 ⟨_, hstream, ?_⟩
      show ((PesStream.fresh t.pid).feedPackets (pkts.filter (isOfPid t.pid))).2 = _
      rw [hown]
    have hflush := filter_flatMap_pid (by rw [hend]; exact hnodup) PesStream.deliver_pid hlast
    rw [PesStream.feedPackets_pid] at hflush
    rw [filter_append, hrun]
    exact (congrArg _ hflush).trans hunit
  · intro u hu
    rcases mem_append.1 hu with hu | hu
    · rw [← hpids]
      exact hmem u hu
    · obtain ⟨s, hsmem, hu⟩ := mem_flatMap.1 hu
      rw [← hend, s.deliver_pid u hu]
      exact mem_map_of_mem hsmem

/-- An audio unit in two packets. -/
def toneUnit : EsUnit := ⟨0xC0, 90000, none, replicate 200 0x55, none, 4096⟩

/-- A video unit with both times and a PCR. -/
def frameUnit : EsUnit := ⟨0xE0, 93600, some 90000, replicate 300 0xAA, some 90000, 4096⟩

/-- An audio unit without bytes. -/
def silentUnit : EsUnit := ⟨0xC0, 90000, none, [], none, 4096⟩

/-- The sound and picture of a programme. -/
def programmeStreams : List EsPid := [⟨256, 0, [toneUnit]⟩, ⟨257, 15, [frameUnit, silentUnit]⟩]

/-- Their packets, one of each in turn. -/
def programmePackets : List (List UInt8) :=
  let a := (packetizeAll 256 0 [toneUnit]).1
  let b := (packetizeAll 257 15 [frameUnit, silentUnit]).1
  [b.getD 0 [], a.getD 0 [], b.getD 1 [], a.getD 1 [], b.getD 2 []]

theorem programmePackets_interleaved :
    Interleaving (programmeStreams.map fun t => (packetizeAll t.pid t.cc t.units).1) programmePackets := by
  have hturns : ∀ a b c d e : List UInt8, Interleaving [[a, b], [c, d, e]] [c, a, d, b, e] := by
    intro a b c d e
    refine .cons (i := 1) rfl (.cons (i := 0) rfl (.cons (i := 1) rfl (.cons (i := 0) rfl (.cons (i := 1) rfl (.nil ?_)))))
    simp
  have hlists : (programmeStreams.map fun t => (packetizeAll t.pid t.cc t.units).1) =
      let a := (packetizeAll 256 0 [toneUnit]).1
      let b := (packetizeAll 257 15 [frameUnit, silentUnit]).1
      [[a.getD 0 [], a.getD 1 []], [b.getD 0 [], b.getD 1 [], b.getD 2 []]] := by
    decide +kernel
  rw [hlists]
  exact hturns _ _ _ _ _

theorem programme_inRange : ∀ t ∈ programmeStreams, ∀ u ∈ t.units, u.InRange := by
  have hrange : ∀ t ∈ programmeStreams, ∀ u ∈ t.units,
      u.pts < 2 ^ 33 ∧ (∀ dts ∈ u.dts, dts < 2 ^ 33) ∧ u.data.length ≤ pesMaxBytes := by
    decide +kernel
  intro t ht u hu
  obtain ⟨hpts, hdts, hdata⟩ := hrange t ht u hu
  exact ⟨hpts, hdts, hdata⟩

theorem programme_transport :
    (∀ t ∈ programmeStreams, (feedAndFlush (programmeStreams.map EsPid.pid) programmePackets).filter
      (fun u => t.pid = u.pid) = delivered t.pid t.units) ∧
    (∀ u ∈ feedAndFlush (programmeStreams.map EsPid.pid) programmePackets, u.pid ∈ programmeStreams.map EsPid.pid) ∧
    ∀ (pid cc : Nat) (u : EsUnit), esbuildPesBuild u = none → esbuildTsPacketize pid cc u = ([], cc) :=
  pes_transport (by decide) (by decide) (by decide) programme_inRange programmePackets_interleaved

/-- The unit without bytes has a packet, but is not delivered. -/
theorem silentUnit_not_delivered : silentUnit.InRange ∧ (esbuildPesBuild silentUnit).isSome = true ∧
      (packetizeAll 256 0 [silentUnit]).1.length = 1 ∧ feedAndFlush [256] (packetizeAll 256 0 [silentUnit]).1 = [] := by
  refine ⟨⟨by decide, nofun, by decide⟩, ?_⟩
  decide +kernel

end DvbIpiTools.Mux
