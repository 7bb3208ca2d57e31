import DvbIpiTools.Utils.MaskedField

set_option autoImplicit false

/-! # The time stamps of a PES header and of an adaptation field (`mux/pesstamp.c`)

A PES header keeps its PTS, DTS and ESCR between marker bits, at places that depend on the lengths and flags in front of
them. Every byte is read and written through `rd` and `wr`, which give nothing outside of the packet. -/

namespace DvbIpiTools.Tvhead.Pesstamp

abbrev Packet := Vector UInt8 188

def rd (pkt : Packet) (i : Nat) : Option UInt8 := pkt[i]?

def wr (pkt : Packet) (i : Nat) (b : UInt8) : Option Packet :=
  if h : i < 188 then some (pkt.set i b h) else none

def tsPayloadEnd : Nat := 188
def pesFixedHeader : Nat := 9
def ptsModulus : Nat := 2 ^ 33
def escrModulus : Nat := ptsModulus * 300

/-! ## Where the stamps are -/

/-- `fields_t`: the places of the stamps a header has. -/
structure Fields where
  pts : Option Nat
  dts : Option Nat
  escr : Option Nat
  deriving DecidableEq

inductive Code
  | none
  | found
  | split
  | scrambled
  deriving DecidableEq

/-- What `locate` returns, with the fields it fills in when it finds them. -/
inductive Located
  | none
  | found (f : Fields)
  | split
  | scrambled
  deriving DecidableEq

def Located.code : Located → Code
  | .none => .none
  | .found _ => .found
  | .split => .split
  | .scrambled => .scrambled

def streamHasHeader (streamId : UInt8) : Bool :=
  !(streamId == 0xBC || streamId == 0xBE || streamId == 0xBF || streamId == 0xF0 || streamId == 0xF1 ||
    streamId == 0xF2 || streamId == 0xF8 || streamId == 0xFF)

/-- The places from `p` on, by the flags, and the bytes they take. -/
def fieldsAt (p : Nat) (ptsDts : UInt8) (escrFlag : Bool) : Fields × Nat :=
  let pts := if 2 ≤ ptsDts then some p else none
  let p := if 2 ≤ ptsDts then p + 5 else p
  let dts := if ptsDts == 3 then some p else none
  let p' := if ptsDts == 3 then p + 5 else p
  let used := (if 2 ≤ ptsDts then 5 else 0) + (if ptsDts == 3 then 5 else 0)
  if escrFlag then (⟨pts, dts, some p'⟩, used + 6) else (⟨pts, dts, none⟩, used)

/-- The header in front of the stamps, from `start` on. -/
def locateAt (pkt : Packet) (start : Nat) : Option Located := do
  if start + 4 > tsPayloadEnd then return .none
  let startCode := [← rd pkt start, ← rd pkt (start + 1), ← rd pkt (start + 2)]
  let streamId ← rd pkt (start + 3)
  if startCode ≠ [0, 0, 1] ∨ !streamHasHeader streamId then return .none
  if start + pesFixedHeader > tsPayloadEnd then return .split
  if (← rd pkt (start + 6)) &&& 0xC0 ≠ 0x80 then return .none
  let hdrLen ← rd pkt (start + 8)
  let flags ← rd pkt (start + 7)
  let ptsDts := (flags >>> 6) &&& 0x3
  if ptsDts = 1 then return .none
  if ptsDts = 0 ∧ flags &&& 0x20 = 0 then return .none
  let (f, used) := fieldsAt (start + pesFixedHeader) ptsDts (flags &&& 0x20 ≠ 0)
  if used > hdrLen.toNat then return .none
  if start + pesFixedHeader + used > tsPayloadEnd then return .split
  return .found f

def locate (pkt : Packet) : Option Located := do
  let b3 ← rd pkt 3
  let afc := (b3 >>> 4) &&& 0x3
  if afc &&& 0x1 = 0 ∨ (← rd pkt 1) &&& 0x40 = 0 then return .none
  if b3 >>> 6 ≠ 0 then return .scrambled
  if afc = 0x3 then
    locateAt pkt (4 + (1 + (← rd pkt 4).toNat))
  else
    locateAt pkt 4

/-! ## The stamps -/

def readTs (pkt : Packet) (p : Nat) : Option Nat := do
  return (((← rd pkt p).toNat &&& 0x0E) <<< 29) ||| ((← rd pkt (p + 1)).toNat <<< 22) |||
    (((← rd pkt (p + 2)).toNat &&& 0xFE) <<< 14) ||| ((← rd pkt (p + 3)).toNat <<< 7) |||
    ((← rd pkt (p + 4)).toNat >>> 1)

def writeTs (pkt : Packet) (p : Nat) (v : Nat) : Option Packet := do
  let pkt ← wr pkt p (UInt8.ofNat (((← rd pkt p).toNat &&& 0xF1) ||| ((v >>> 29) &&& 0x0E)))
  let pkt ← wr pkt (p + 1) (UInt8.ofNat (v >>> 22))
  let pkt ← wr pkt (p + 2) (UInt8.ofNat (((← rd pkt (p + 2)).toNat &&& 0x01) ||| ((v >>> 14) &&& 0xFE)))
  let pkt ← wr pkt (p + 3) (UInt8.ofNat (v >>> 7))
  wr pkt (p + 4) (UInt8.ofNat (((← rd pkt (p + 4)).toNat &&& 0x01) ||| ((v <<< 1) &&& 0xFE)))

def readEscr (pkt : Packet) (p : Nat) : Option Nat := do
  let p0 := (← rd pkt p).toNat
  let p1 := (← rd pkt (p + 1)).toNat
  let p2 := (← rd pkt (p + 2)).toNat
  let p3 := (← rd pkt (p + 3)).toNat
  let p4 := (← rd pkt (p + 4)).toNat
  let p5 := (← rd pkt (p + 5)).toNat
  let base := ((p0 &&& 0x38) <<< 27) ||| ((p0 &&& 0x03) <<< 28) ||| (p1 <<< 20) ||| ((p2 &&& 0xF8) <<< 12) |||
    ((p2 &&& 0x03) <<< 13) ||| (p3 <<< 5) ||| (p4 >>> 3)
  let ext := ((p4 &&& 0x03) <<< 7) ||| (p5 >>> 1)
  return base * 300 + ext

def writeEscr (pkt : Packet) (p : Nat) (v : Nat) : Option Packet := do
  let base := v / 300
  let ext := v % 300
  let pkt ← wr pkt p
    (UInt8.ofNat (((← rd pkt p).toNat &&& 0xC4) ||| ((base >>> 27) &&& 0x38) ||| ((base >>> 28) &&& 0x03)))
  let pkt ← wr pkt (p + 1) (UInt8.ofNat (base >>> 20))
  let pkt ← wr pkt (p + 2)
    (UInt8.ofNat (((← rd pkt (p + 2)).toNat &&& 0x04) ||| ((base >>> 12) &&& 0xF8) ||| ((base >>> 13) &&& 0x03)))
  let pkt ← wr pkt (p + 3) (UInt8.ofNat (base >>> 5))
  let pkt ← wr pkt (p + 4)
    (UInt8.ofNat (((← rd pkt (p + 4)).toNat &&& 0x04) ||| ((base <<< 3) &&& 0xF8) ||| ((ext >>> 7) &&& 0x03)))
  wr pkt (p + 5) (UInt8.ofNat ((ext <<< 1) ||| ((← rd pkt (p + 5)).toNat &&& 0x01)))

/-- `pes_stamp_t`: a stamp is there or not. -/
structure Stamp where
  pts : Option Nat
  dts : Option Nat
  escr27 : Option Nat
  deriving DecidableEq

/-- A reader or writer at a place that may not be there. -/
def atPlace {α : Type} (read : Nat → Option α) : Option Nat → Option (Option α)
  | none => some none
  | some p => (read p).map some

def pesstampRead (pkt : Packet) : Option (Code × Stamp) := do
  match ← locate pkt with
  | .found f =>
    return (.found, ⟨← atPlace (readTs pkt) f.pts, ← atPlace (readTs pkt) f.dts, ← atPlace (readEscr pkt) f.escr⟩)
  | l => return (l.code, ⟨none, none, none⟩)

/-! ## Moving them -/

/-- The delta modulo 2^33; `%` takes the sign of the dividend in C. -/
def deltaTicks (delta90k : Int) : Nat := (((delta90k.tmod ptsModulus) + ptsModulus).tmod ptsModulus).toNat

def shiftTs (d : Nat) (pkt : Packet) : Option Nat → Option Packet
  | none => some pkt
  | some p => do writeTs pkt p (((← readTs pkt p) + d) % ptsModulus)

def shiftEscr (d : Nat) (pkt : Packet) : Option Nat → Option Packet
  | none => some pkt
  | some p => do writeEscr pkt p (((← readEscr pkt p) + d * 300) % escrModulus)

def pesstampShift (pkt : Packet) (delta90k : Int) : Option (Code × Packet) := do
  match ← locate pkt with
  | .found f =>
    let d := deltaTicks delta90k
    let pkt ← shiftTs d pkt f.pts
    let pkt ← shiftTs d pkt f.dts
    let pkt ← shiftEscr d pkt f.escr
    return (.found, pkt)
  | l => return (l.code, pkt)

/-- The place of DTS_next_AU behind the fixed fields of an adaptation field, which end at `off`. -/
def afExtension (pkt : Packet) (off fin : Nat) : Option (Option Nat) := do
  if off + 2 > fin then return none
  let extEnd := off + 1 + (← rd pkt off).toNat
  if extEnd > fin then return none
  let eflags ← rd pkt (off + 1)
  if eflags &&& 0x20 = 0 then return none
  let p := off + 2
  let p := if eflags &&& 0x80 ≠ 0 then p + 2 else p
  let p := if eflags &&& 0x40 ≠ 0 then p + 3 else p
  if p + 5 > extEnd then return none
  return some p

/-- The part of `afstamp_shift` that looks for DTS_next_AU. -/
def afLocate (pkt : Packet) : Option (Option Nat) := do
  let afc := ((← rd pkt 3) >>> 4) &&& 0x3
  if afc &&& 0x2 = 0 then return none
  let afl := (← rd pkt 4).toNat
  if afl < 1 ∨ afl > 183 then return none
  let fin := 5 + afl
  let flags ← rd pkt 5
  if flags &&& 0x01 = 0 then return none
  let off := 6 + (if flags &&& 0x10 ≠ 0 then 6 else 0) + (if flags &&& 0x08 ≠ 0 then 6 else 0) +
    (if flags &&& 0x04 ≠ 0 then 1 else 0)
  if flags &&& 0x02 ≠ 0 then
    if off ≥ fin then return none
    afExtension pkt (off + (1 + (← rd pkt off).toNat)) fin
  else
    afExtension pkt off fin

def afstampShift (pkt : Packet) (delta90k : Int) : Option (Bool × Packet) := do
  match ← afLocate pkt with
  | none => return (false, pkt)
  | some p =>
    let d := deltaTicks delta90k
    return (true, ← writeTs pkt p (((← readTs pkt p) + d) % ptsModulus))

end DvbIpiTools.Tvhead.Pesstamp
