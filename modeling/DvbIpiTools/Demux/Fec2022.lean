import DvbIpiTools.Mux.Fec2022

set_option autoImplicit false

/-! # SMPTE 2022-1 decoder (`demux/fec2022.c`)

Extended sequence numbers are integers that never come near the ends of an `int64_t`. `far` of a repair is not
part of the program: it notes that the missing packet was outside the ring when its recovery was tried. -/

namespace DvbIpiTools.Fec2022

open BeUtil List Function Nat UInt8

/-- `EXT_BASE`, `1 << 40`. -/
def extBase : Int := 1099511627776

def repairPayload : Nat := maxPkt - 12

/-- `slot_state_t`. -/
inductive SlotState where
  | empty
  | ready
  | dropped
deriving DecidableEq

/-- `slot_t`. -/
structure Slot where
  state : SlotState := .empty
  ext : Int := 0
  pkt : List UInt8 := []

/-- `fec2022_rep_t` of the decoder. -/
structure Rep where
  valid : Bool := false
  done : Bool := false
  snb : Int := 0
  haveCount : Nat := 0
  recovery : Recovery := {}
  far : Bool := false

/-- `struct fec2022_dec`. The two repairs of a column have the keys `(column, false)` and `(column, true)`. -/
structure Dec where
  l : Nat
  d : Nat
  srcSsrc : Nat := 0
  haveSsrc : Bool := false
  haveHi : Bool := false
  hiExt : Int := extBase - 1
  hiSeq : Nat := 0
  resumeExt : Int := extBase
  rel : Int := extBase
  lateRun : Nat := 0
  ring : Nat → Slot := fun _ => {}
  rep : Nat × Bool → Rep := fun _ => {}
  early : List UInt8 := []

/-- `fec2022_dec_new`. -/
def decNew (l d : Nat) : Option Dec := if Accepted l d then some { l, d } else none

namespace Dec

def ringN (s : Dec) : Nat := s.l * s.d * 5

/-- The index `slot_at` takes. -/
def slotIx (s : Dec) (ext : Int) : Nat := ext.toNat % s.ringN

def slotAt (s : Dec) (ext : Int) : Slot := s.ring (s.slotIx ext)

/-- A packet is written to its slot. -/
def putSlot (s : Dec) (ext : Int) (slot : Slot) : Dec := { s with ring := fun i => if i = s.slotIx ext then slot else s.ring i }

def slotReady (s : Dec) (ext : Int) : Bool :=
  decide ((s.slotAt ext).state = .ready) && decide ((s.slotAt ext).ext = ext)

/-- A 16 bit difference as `int16_t`. -/
def int16 (x : Nat) : Int := if x < 32768 then x else (x : Int) - 65536

/-- The first packet starts the numbers, in `ext_seq`. -/
def startHi (s : Dec) (seq : Nat) : Dec :=
  if s.haveHi then s else { s with hiExt := s.resumeExt, hiSeq := seq, haveHi := true }

/-- The number `ext_seq` returns, once there is a highest one. -/
def extSeq (s : Dec) (seq : Nat) : Int := s.hiExt + int16 ((seq + 65536 - s.hiSeq) % 65536)

/-- What `ext_seq` does with `advance`. -/
def advanceHi (s : Dec) (seq : Nat) : Dec :=
  if s.extSeq seq > s.hiExt then { s with hiExt := s.extSeq seq, hiSeq := seq } else s

/-- `snb + (d - 1) * l`, the last packet of a repair's column. -/
def lastMember (s : Dec) (r : Rep) : Int := r.snb + ((s.d : Int) - 1) * s.l

/-- A repair is for the column group of this packet. -/
def covers (s : Dec) (r : Rep) (ext : Int) : Bool := r.valid && decide (r.snb ≤ ext) && decide (ext ≤ s.lastMember r)

def repFor (s : Dec) (ext : Int) : Option (Nat × Bool) :=
  let c := ext.toNat % s.l
  if s.covers (s.rep (c, false)) ext then some (c, false)
  else if s.covers (s.rep (c, true)) ext then some (c, true)
  else none

def holeFinal (s : Dec) (ext : Int) : Bool := match s.repFor ext with
  | some k => decide (s.hiExt ≥ s.lastMember (s.rep k) + s.l)
  | none => false

/-- The loop of `skip_lost`. It ends: it passes only numbers up to the highest one and, behind that, each
dropped slot once. -/
def skipLoop : Nat → Dec → Dec
  | 0, s => s
  | n + 1, s =>
    if s.slotReady s.rel then s
    else if (s.slotAt s.rel).ext = s.rel ∧ (s.slotAt s.rel).state = .dropped then
      skipLoop n { s with rel := s.rel + 1 }
    else if s.rel > s.hiExt then s
    else if s.hiExt - s.rel < 2 * s.l * s.d ∧ s.holeFinal s.rel = false then s
    else skipLoop n { s with rel := s.rel + 1 }

def skipLost (s : Dec) : Dec := skipLoop ((s.hiExt + 1 - s.rel).toNat + s.ringN) s

/-! ## Recovery -/

/-- The packets of a repair's column group. -/
def members (s : Dec) (r : Rep) : List Int := (range s.d).map fun i : Nat => r.snb + (i : Int) * s.l

/-- The members that are there. -/
def present (s : Dec) (r : Rep) : Nat := (s.members r).countP s.slotReady

/-- The last member that is not there. -/
def missing (s : Dec) (r : Rep) : Option Int := ((s.members r).filter fun e => !s.slotReady e).getLast?

/-- The recovery fields of the repair with those of all members but one. -/
def recovered (s : Dec) (r : Rep) (missing : Int) : Recovery :=
  Parity.fold Recovery.xor (fun e => Recovery.ofPacket (s.slotAt e).pkt) r.recovery
    ((s.members r).filter fun e => e ≠ missing)

/-- The packet that `rep_recover` writes. -/
def recoveredPkt (s : Dec) (missing : Int) (a : Recovery) : List UInt8 :=
  UInt8.ofNat (0x80 ||| a.p <<< 5 ||| a.x <<< 4 ||| a.cc) :: UInt8.ofNat (a.m <<< 7 ||| a.pt) ::
    (bePut 2 (((s.hiSeq : Int) + (missing - s.hiExt)) % 65536).toNat ++ bePut 4 a.ts ++ bePut 4 s.srcSsrc ++
      (a.payload ++ replicate a.len 0).take a.len)

/-- `rep_recover` of the repair with this key. -/
def repRecover (s : Dec) (k : Nat × Bool) : Dec :=
  let r := s.rep k
  let set (r : Rep) : Dec := { s with rep := update s.rep k r }
  if s.present r = s.d then set { r with done := true }
  else if s.present r ≠ s.d - 1 then s
  else match s.missing r with
    | none => s
    | some missing =>
      let r := { r with done := true, haveCount := s.d }
      if missing < s.rel then set r
      else if missing - s.rel ≥ s.ringN then set { r with far := true }
      else
        let a := s.recovered r missing
        let s := set { r with recovery := a }
        if a.len > repairPayload then s.putSlot missing { s.slotAt missing with state := .dropped, ext := missing }
        else s.putSlot missing ⟨.ready, missing, s.recoveredPkt missing a⟩

/-- What `rep_note_source` and `fec2022_dec_repair` do after counting. -/
def tryRecover (s : Dec) (k : Nat × Bool) : Dec :=
  if (s.rep k).haveCount = s.d then
    { s with rep := update s.rep k { s.rep k with done := true } }
  else if (s.rep k).haveCount = s.d - 1 then s.repRecover k
  else s

def repNoteSource (s : Dec) (ext : Int) : Dec := match s.repFor ext with
  | none => s
  | some k =>
    if (s.rep k).done then s
    else tryRecover { s with
      rep := update s.rep k { s.rep k with haveCount := (s.rep k).haveCount + 1 } } k

/-! ## Source and repair packets -/

/-- A number that is not there is given up, in `resync`. -/
def dropHole (s : Dec) (e : Int) : Dec :=
  if s.slotReady e then s else s.putSlot e { s.slotAt e with state := .dropped, ext := e }

def resync (s : Dec) : Dec :=
  let s := { s with ring := fun i => if (s.ring i).ext > s.hiExt then { s.ring i with state := .empty } else s.ring i }
  let s := ((range (s.hiExt + 1 - s.rel).toNat).map fun i : Nat => s.rel + (i : Int)).foldl dropHole s
  skipLost { s with
    rep := fun _ => {}
    resumeExt := s.hiExt + 1
    haveSsrc := false
    haveHi := false
    lateRun := 0 }

def seqJumped (s : Dec) (pkt : List UInt8) : Bool :=
  let delta := int16 ((beGet pkt 2 2 + 65536 - s.hiSeq) % 65536)
  s.haveHi && (s.haveSsrc && decide (beGet pkt 8 4 ≠ s.srcSsrc) ||
    decide (delta > 2 * s.l * s.d) || decide (delta < -(s.ringN : Int)))

/-- The repair fields of a packet. -/
def repairFields (pkt : List UInt8) : Recovery where
  p := byteAt pkt 0 >>> 5 &&& 1
  x := byteAt pkt 0 >>> 4 &&& 1
  cc := byteAt pkt 0 &&& 0xF
  m := byteAt pkt 1 >>> 7 &&& 1
  pt := byteAt pkt 16 &&& 0x7F
  ts := beGet pkt 20 4
  len := beGet pkt 14 2
  payload := pkt.drop 28

/-- The repair of a column that a new one replaces: a free one, else the older one. -/
def repKey (s : Dec) (snb : Int) : Nat × Bool :=
  let c := snb.toNat % s.l
  if (s.rep (c, false)).valid ∧ (s.rep (c, true)).valid then (c, decide ((s.rep (c, true)).snb < (s.rep (c, false)).snb))
  else (c, (s.rep (c, false)).valid)

/-- A repair is already there, or both repairs of its column are newer. -/
def repairStale (s : Dec) (snb : Int) : Bool :=
  let r0 := s.rep (snb.toNat % s.l, false)
  let r1 := s.rep (snb.toNat % s.l, true)
  (r0.valid && decide (r0.snb = snb)) || (r1.valid && decide (r1.snb = snb)) ||
    (r0.valid && r1.valid && decide (snb < r0.snb) && decide (snb < r1.snb))

/-- A repair is taken. -/
def putRepair (s : Dec) (snb : Int) (pkt : List UInt8) : Dec :=
  let r : Rep := { valid := true, snb := snb, recovery := repairFields pkt }
  { s with rep := update s.rep (s.repKey snb) { r with haveCount := s.present r } }

/-- `fec2022_dec_repair`. -/
def repair (s : Dec) (pkt : List UInt8) : Dec :=
  if pkt.length > maxRepair ∨ pkt.length < 28 ∨ byteAt pkt 0 >>> 6 ≠ 2 then s
  else if s.haveHi = false then { s with early := pkt }
  else if byteAt pkt 25 ≠ s.l ∨ byteAt pkt 26 ≠ s.d then s
  else
    let snb := s.extSeq (beGet pkt 12 2)
    if s.hiExt - snb > s.ringN ∨ snb - s.hiExt > s.l * s.d then s
    else if s.repairStale snb then s
    else ((s.putRepair snb pkt).tryRecover (s.repKey snb)).skipLost

/-- The ring moves so far that it has room for the packet. -/
def makeRoom (s : Dec) (ext : Int) : Dec :=
  { s with lateRun := 0, rel := if ext - s.rel ≥ s.ringN then ext - s.ringN + 1 else s.rel }

/-- A packet goes to its slot. -/
def place (s : Dec) (ext : Int) (pkt : List UInt8) : Dec :=
  ((s.putSlot ext ⟨.ready, ext, pkt⟩).repNoteSource ext).skipLost

/-- The repair that came before all source packets. -/
def takeEarly (s : Dec) : Dec := if s.early = [] then s else repair { s with early := [] } s.early

/-- The end of `fec2022_dec_source`: the packet is not late. -/
def accept (s : Dec) (ext : Int) (pkt : List UInt8) : Dec :=
  let s := s.makeRoom ext
  if s.slotReady ext then s else (s.place ext pkt).takeEarly

/-- What `ext_seq` returns for a source packet. -/
def numberOf (s : Dec) (pkt : List UInt8) : Int := (s.startHi (beGet pkt 2 2)).extSeq (beGet pkt 2 2)

/-- The numbers and the SSRC with one more source packet. -/
def heard (s : Dec) (pkt : List UInt8) : Dec :=
  let s := (s.startHi (beGet pkt 2 2)).advanceHi (beGet pkt 2 2)
  if s.haveSsrc then s else { s with srcSsrc := beGet pkt 8 4, haveSsrc := true }

/-- `fec2022_dec_source` with a bound on its calls of itself. Each of them starts one number later, until that
is not before the next one to return. -/
def sourceLoop : Nat → Dec → List UInt8 → Dec
  | 0, s, _ => s
  | n + 1, s, pkt =>
    let s := if s.seqJumped pkt then s.resync else s
    let ext := s.numberOf pkt
    let s := s.heard pkt
    if ext < s.rel then
      let s := { s with lateRun := s.lateRun + 1 }
      if s.lateRun ≥ s.l * s.d then sourceLoop n s.resync pkt else s
    else s.accept ext pkt

/-- `fec2022_dec_source` synchronises anew for this packet. -/
def resyncs (s : Dec) (pkt : List UInt8) : Bool :=
  s.seqJumped pkt || (decide (s.numberOf pkt < s.rel) && decide (s.lateRun + 1 ≥ s.l * s.d))

/-- `fec2022_dec_source`. -/
def source (s : Dec) (pkt : List UInt8) : Dec :=
  if pkt.length < 12 ∨ pkt.length > maxPkt then s
  else sourceLoop ((s.rel - s.hiExt).toNat + 3) s pkt

/-- `fec2022_dec_next_len`. -/
def nextLen (s : Dec) : Nat := if s.slotReady s.rel then (s.slotAt s.rel).pkt.length else 0

/-- `fec2022_dec_drain`. -/
def drain (s : Dec) (cap : Nat) : List UInt8 × Dec :=
  if s.nextLen = 0 ∨ s.nextLen > cap then ([], s)
  else ((s.slotAt s.rel).pkt, skipLost { s with rel := s.rel + 1 })

end Dec

/-! # A missing packet comes back byte for byte

The recovery fields of a repair together with those of all packets of its group but one are the fields of that
one, and the packet built from them is that packet. -/

namespace Recovery

/-- Two packets' fields are the same, with zeros behind the payloads. -/
structure Same (a b : Recovery) : Prop where
  p_eq : a.p = b.p
  x_eq : a.x = b.x
  cc_eq : a.cc = b.cc
  m_eq : a.m = b.m
  pt_eq : a.pt = b.pt
  ts_eq : a.ts = b.ts
  len_eq : a.len = b.len
  payload_eq : ∀ k, a.payload.getD k 0 = b.payload.getD k 0

/-- Every field fits in its place in a packet. -/
structure Fits (a : Recovery) : Prop where
  p_lt : a.p < 2
  x_lt : a.x < 2
  cc_lt : a.cc < 16
  m_lt : a.m < 2
  pt_lt : a.pt < 128
  ts_lt : a.ts < 2 ^ 32
  len_lt : a.len < 2 ^ 16
  payload_le : a.payload.length ≤ maxPkt - 12

theorem Fits.empty : Fits {} :=
  ⟨by decide, by decide, by decide, by decide, by decide, by decide, by decide, by decide⟩

theorem Fits.ofPacket {pkt : List UInt8} (h : pkt.length ≤ maxPkt) : Fits (ofPacket pkt) := by
  have hlen : pkt.length - 12 ≤ maxPkt - 12 := Nat.sub_le_sub_right h 12
  refine ⟨?_, ?_, ?_, ?_, ?_, beGet_lt pkt 4 4, ?_, ?_⟩
  · exact lt_succ_of_le and_le_right
  · exact lt_succ_of_le and_le_right
  · exact lt_succ_of_le and_le_right
  · exact lt_succ_of_le and_le_right
  · exact lt_succ_of_le and_le_right
  · exact lt_of_le_of_lt hlen (by decide)
  · show (pkt.drop 12).length ≤ _
    rw [length_drop]
    exact hlen

theorem Fits.xor {a b : Recovery} (ha : Fits a) (hb : Fits b) : Fits (a.xor b) := by
  refine ⟨?_, ?_, ?_, ?_, ?_, xor_lt_two_pow ha.ts_lt hb.ts_lt, xor_lt_two_pow ha.len_lt hb.len_lt, ?_⟩
  · exact xor_lt_two_pow (n := 1) ha.p_lt hb.p_lt
  · exact xor_lt_two_pow (n := 1) ha.x_lt hb.x_lt
  · exact xor_lt_two_pow (n := 4) ha.cc_lt hb.cc_lt
  · exact xor_lt_two_pow (n := 1) ha.m_lt hb.m_lt
  · exact xor_lt_two_pow (n := 7) ha.pt_lt hb.pt_lt
  · show (Parity.xorBytes a.payload b.payload).length ≤ _
    rw [Parity.length_xorBytes]
    exact max_le ha.payload_le hb.payload_le

theorem Fits.fold {ι : Type} {f : ι → Recovery} (hf : ∀ i, Fits (f i)) {a : Recovery} (ha : Fits a) (is : List ι) :
    Fits (Parity.fold Recovery.xor f a is) := by
  induction is generalizing a with
  | nil => exact ha
  | cons i is ih => exact ih (ha.xor (hf i))

/-- The fields of all but one, combined with those of the repair, are those of the one that is left out. -/
theorem fold_same {ι : Type} [DecidableEq ι] (f : ι → Recovery) {is : List ι} (hnd : is.Nodup) {j : ι} (hj : j ∈ is) :
    Same (Parity.fold Recovery.xor f (Parity.fold Recovery.xor f {} is) (is.filter (· ≠ j))) (f j) := by
  have hnat : ∀ (g : Recovery → Nat), g {} = 0 → (∀ a b, g (a.xor b) = g a ^^^ g b) →
      g (Parity.fold Recovery.xor f (Parity.fold Recovery.xor f {} is) (is.filter (· ≠ j))) = g (f j) := by
    intro g h0 hg
    rw [Parity.fold_hom Recovery.xor (· ^^^ ·) g hg, Parity.fold_hom Recovery.xor (· ^^^ ·) g hg, h0]
    exact Parity.fold_recovers (· ^^^ ·) 0 Nat.xor_self (fun i => g (f i)) hnd hj
  refine ⟨hnat p rfl fun _ _ => rfl, hnat x rfl fun _ _ => rfl, hnat cc rfl fun _ _ => rfl, hnat m rfl fun _ _ => rfl,
    hnat pt rfl fun _ _ => rfl, hnat ts rfl fun _ _ => rfl, hnat len rfl fun _ _ => rfl, ?_⟩
  intro k
  have hg : ∀ a b : Recovery, (a.xor b).payload.getD k 0 = a.payload.getD k 0 ^^^ b.payload.getD k 0 :=
    fun a b => Parity.getD_xorBytes a.payload b.payload k
  rw [Parity.fold_hom Recovery.xor (· ^^^ ·) (fun a => a.payload.getD k 0) hg,
    Parity.fold_hom Recovery.xor (· ^^^ ·) (fun a => a.payload.getD k 0) hg]
  exact Parity.fold_recovers (· ^^^ ·) 0 (fun a => UInt8.xor_self) (fun i => (f i).payload.getD k 0) hnd hj

end Recovery

/-! ## Packets -/

theorem first_byte : ∀ p < 2, ∀ x < 2, ∀ cc < 16,
    (0x80 ||| p <<< 5 ||| x <<< 4 ||| cc) < 256 ∧ (0x80 ||| p <<< 5 ||| x <<< 4 ||| cc) >>> 6 = 2 ∧
      (0x80 ||| p <<< 5 ||| x <<< 4 ||| cc) >>> 5 &&& 1 = p ∧ (0x80 ||| p <<< 5 ||| x <<< 4 ||| cc) >>> 4 &&& 1 = x ∧
      (0x80 ||| p <<< 5 ||| x <<< 4 ||| cc) &&& 0xF = cc := by
  decide +kernel

theorem second_byte : ∀ m < 2, ∀ pt < 128,
    (m <<< 7 ||| pt) < 256 ∧ (m <<< 7 ||| pt) >>> 7 &&& 1 = m ∧ (m <<< 7 ||| pt) &&& 0x7F = pt := by
  decide +kernel

theorem first_byte_of {b : Nat} (hb : b < 256) (hver : b >>> 6 = 2) :
    0x80 ||| (b >>> 5 &&& 1) <<< 5 ||| (b >>> 4 &&& 1) <<< 4 ||| b &&& 0xF = b := by
  revert b
  decide +kernel

theorem second_byte_of {b : Nat} (hb : b < 256) : (b >>> 7 &&& 1) <<< 7 ||| b &&& 0x7F = b := by
  revert b
  decide +kernel

/-- A packet is determined by its recovery fields, its sequence number and its SSRC. -/
theorem packet_of_same {p : List UInt8} (hlen : 12 ≤ p.length) (hver : byteAt p 0 >>> 6 = 2) {a : Recovery}
    (ha : a.Same (Recovery.ofPacket p)) :
    UInt8.ofNat (0x80 ||| a.p <<< 5 ||| a.x <<< 4 ||| a.cc) :: UInt8.ofNat (a.m <<< 7 ||| a.pt) ::
      (bePut 2 (beGet p 2 2) ++ bePut 4 a.ts ++ bePut 4 (beGet p 8 4) ++
        (a.payload ++ replicate a.len 0).take a.len) = p := by
  have hfirst : UInt8.ofNat (0x80 ||| a.p <<< 5 ||| a.x <<< 4 ||| a.cc) = p.getD 0 0 := by
    rw [ha.p_eq, ha.x_eq, ha.cc_eq]
    have hb : 0x80 ||| (Recovery.ofPacket p).p <<< 5 ||| (Recovery.ofPacket p).x <<< 4 ||| (Recovery.ofPacket p).cc =
        byteAt p 0 := first_byte_of (byteAt_lt p 0) hver
    rw [hb]
    exact UInt8.ofNat_toNat
  have hsecond : UInt8.ofNat (a.m <<< 7 ||| a.pt) = p.getD 1 0 := by
    rw [ha.m_eq, ha.pt_eq]
    have hb : (Recovery.ofPacket p).m <<< 7 ||| (Recovery.ofPacket p).pt = byteAt p 1 :=
      second_byte_of (byteAt_lt p 1)
    rw [hb]
    exact UInt8.ofNat_toNat
  have hpayload : (a.payload ++ replicate a.len 0).take a.len = p.drop 12 := by
    have hlen' : a.len = (p.drop 12).length := by
      rw [ha.len_eq, length_drop]
      rfl
    have hlong : a.len ≤ (a.payload ++ replicate a.len (0 : UInt8)).length := by simp
    apply ext_getElem
    · rw [length_take, min_eq_left hlong, hlen']
    intro k h1 h2
    have hk : k < a.len := by omega
    have hsame : a.payload.getD k 0 = (p.drop 12).getD k 0 := ha.payload_eq k
    have hpad : (a.payload ++ replicate a.len 0).getD k 0 = a.payload.getD k 0 := by
      by_cases hin : k < a.payload.length
      · rw [getD_append _ _ _ _ hin]
      · rw [getD_append_right _ _ _ _ (not_lt.1 hin), getD_eq_default _ _ (not_lt.1 hin)]
        rw [getD_eq_getElem?_getD, getElem?_replicate]
        split <;> rfl
    rw [getElem_take, ← getD_eq_getElem _ 0 (hk.trans_le hlong), hpad, hsame, getD_eq_getElem _ 0 h2]
  have hts : a.ts = beGet p 4 4 := ha.ts_eq
  rw [hfirst, hsecond, hpayload, hts, bePut_beGet (by omega), bePut_beGet (by omega), bePut_beGet (by omega)]
  have hjoin : ∀ off n : Nat, (p.drop off).take n ++ p.drop (off + n) = p.drop off := by
    intro off n
    rw [← drop_drop]
    exact take_append_drop n (p.drop off)
  rw [append_assoc, append_assoc, hjoin 8 4, hjoin 4 4, hjoin 2 2]
  cases p with
  | nil => cases hlen
  | cons b t => cases t with
    | nil => simp at hlen
    | cons b' t => rfl

theorem repairFields_repairPacket {c : Col} (hc : c.recovery.Fits) (l d pt seq pts : Nat) :
    Dec.repairFields (repairPacket l d pt seq pts c) = c.recovery := by
  obtain ⟨hlt, -, hp, hx, hcc⟩ := first_byte _ hc.p_lt _ hc.x_lt _ hc.cc_lt
  obtain ⟨hlt', hm, -⟩ := second_byte _ hc.m_lt (pt &&& 0x7F) (lt_succ_of_le and_le_right)
  have hbyte0 : byteAt (repairPacket l d pt seq pts c) 0 =
      0x80 ||| c.recovery.p <<< 5 ||| c.recovery.x <<< 4 ||| c.recovery.cc := by
    show (UInt8.ofNat _).toNat = _
    rw [toNat_ofNat', mod_eq_of_lt hlt]
  have hbyte1 : byteAt (repairPacket l d pt seq pts c) 1 = c.recovery.m <<< 7 ||| pt &&& 0x7F := by
    show (UInt8.ofNat _).toNat = _
    rw [toNat_ofNat', mod_eq_of_lt hlt']
  have hpt : byteAt (repairPacket l d pt seq pts c) 16 &&& 0x7F = c.recovery.pt := by
    show (UInt8.ofNat (1 <<< 7 ||| c.recovery.pt)).toNat &&& 0x7F = _
    obtain ⟨hlt'', -, hpt⟩ := second_byte 1 (by decide) _ hc.pt_lt
    rw [toNat_ofNat', mod_eq_of_lt hlt'', hpt]
  have hts : beGet (repairPacket l d pt seq pts c) 20 4 = c.recovery.ts := by
    have hfield := beGet_field ((repairPacket l d pt seq pts c).take 20)
      ([0, UInt8.ofNat l, UInt8.ofNat d, 0] ++ c.recovery.payload) 4 c.recovery.ts
    rw [mod_eq_of_lt (show c.recovery.ts < 256 ^ 4 from hc.ts_lt)] at hfield
    exact hfield
  have hlen : beGet (repairPacket l d pt seq pts c) 14 2 = c.recovery.len := by
    have hfield := beGet_field ((repairPacket l d pt seq pts c).take 14)
      ([UInt8.ofNat (0x80 ||| c.recovery.pt), 0, 0, 0] ++ bePut 4 c.recovery.ts ++
      [0, UInt8.ofNat l, UInt8.ofNat d, 0] ++ c.recovery.payload) 2 c.recovery.len
    rw [mod_eq_of_lt (show c.recovery.len < 256 ^ 2 from hc.len_lt)] at hfield
    exact hfield
  unfold Dec.repairFields
  rw [hbyte0, hbyte1, hpt, hts, hlen, hp, hx, hcc, hm]
  rfl

theorem length_repairPacket (l d pt seq pts : Nat) (c : Col) :
    (repairPacket l d pt seq pts c).length = 28 + c.recovery.payload.length := by
  simp only [repairPacket, length_cons, length_append, length_bePut, length_nil]
  omega

theorem repairPacket_version {c : Col} (hc : c.recovery.Fits) (l d pt seq pts : Nat) :
    byteAt (repairPacket l d pt seq pts c) 0 >>> 6 = 2 := by
  obtain ⟨hlt, hver, -⟩ := first_byte _ hc.p_lt _ hc.x_lt _ hc.cc_lt
  show (UInt8.ofNat _).toNat >>> 6 = 2
  rw [toNat_ofNat', mod_eq_of_lt hlt, hver]

theorem repairPacket_snb (l d pt seq pts : Nat) (c : Col) :
    beGet (repairPacket l d pt seq pts c) 12 2 = c.snb % 65536 :=
  beGet_field ((repairPacket l d pt seq pts c).take 12) (bePut 2 c.recovery.len ++
    [UInt8.ofNat (0x80 ||| c.recovery.pt), 0, 0, 0] ++ bePut 4 c.recovery.ts ++
    [0, UInt8.ofNat l, UInt8.ofNat d, 0] ++ c.recovery.payload) 2 c.snb

theorem repairPacket_l (l d pt seq pts : Nat) (c : Col) : byteAt (repairPacket l d pt seq pts c) 25 = l % 256 :=
  toNat_ofNat'

theorem repairPacket_d (l d pt seq pts : Nat) (c : Col) : byteAt (repairPacket l d pt seq pts c) 26 = d % 256 :=
  toNat_ofNat'

end DvbIpiTools.Fec2022
