import DvbIpiTools.Cas.ScrambleEngine

set_option autoImplicit false

/-! # BISS-CA (`lib/cas/biss/ca_engine.c`)

Packets are scrambled with session words. An ECM has the word in force and the next one under a session key,
and the EMM sections have the session key for every receiver. RSA and AES are parameters. A random value is
what its event brings; RSA is taken not to fail. A section is its fields here, from which `ca_sections.c`
makes the bytes. -/

namespace DvbIpiTools.Cas

open BeUtil

/-- RSA on a public key, session data and its own random padding; AES on a key, an IV and a word. -/
structure BissCrypto where
  rsaEncrypt : List UInt8 → List UInt8 → Nat → List UInt8
  aesCbcEncrypt : List UInt8 → List UInt8 → List UInt8 → List UInt8

/-- `biss_ca_receiver_t`. -/
structure Receiver where
  ekid : List UInt8
  pub : List UInt8
  deriving DecidableEq

def entriesPerSection : Nat := 15
def maxSections : Nat := 256
def emmBufSize : Nat := 4096
def ecmMinS : ℚ := 1 / 10
def emmMinS : ℚ := 1 / 5

def setHas (set : List Receiver) (r : Receiver) : Bool := set.any fun x => x.ekid = r.ekid

/-- `load_visit`: a key of the directory that is not in the set yet. -/
def loadVisit (set : List Receiver) (r : Receiver) : List Receiver :=
  if setHas set r then set
  else if set.length ≥ maxSections * entriesPerSection then set
  else set ++ [r]

/-- `load_receivers` on the keys that were found. -/
def loadReceivers (found : List Receiver) : List Receiver := found.foldl loadVisit []

/-- `biss_ca_build_session_data`. -/
def sessionData (sk : List UInt8) (p : Parity) : List UInt8 :=
  [0x00, 0x16, 0x81, 0x11, if p = .odd then 1 else 0] ++ sk ++ [0x82, 0x01, 0x00]

/-- The fields of an EMM section: entries of receivers' ids and encrypted session data. -/
structure EmmSection where
  version : Nat
  number : Nat
  last : Nat
  entries : List (List UInt8 × List UInt8)
  deriving DecidableEq

/-- The length that `biss_ca_build_emm_section` needs. -/
def EmmSection.len (s : EmmSection) : Nat := 14 + s.entries.length * (8 + 256) + 4

/-- The fields of an ECM section. -/
structure EcmSection where
  version : Nat
  skParity : Parity
  iv : List UInt8
  eswEven : List UInt8
  eswOdd : List UInt8

def ecmLen : Nat := 12 + 1 + 16 + 2 * 16 + 4

/-- `emm_section_t`; there is no section while its length is 0. -/
structure EmmSlot where
  sec : Option EmmSection := none
  lastSend : ℚ := -1
  sent : Bool := false

/-- `emm_build_t` while it is active; `secs` is not used when it fills the live sections. -/
structure EmmBuild where
  secs : List EmmSlot
  nSecs : Nat
  next : Nat
  data : List UInt8
  version : Nat
  inPlace : Bool

/-- `struct biss_ca_engine`. -/
structure BissCa where
  scr : ScrambleEngine
  receivers : List Receiver
  sw : Parity → List UInt8
  swEpoch : Nat := 0
  swPeriodMs : Nat
  sinceSwMs : Nat := 0
  ecmVersion : Nat := 0
  ecmDirty : Bool := true
  ecmCache : Option EcmSection := none
  lastEcmSend : ℚ := -1
  sk : List UInt8
  skParity : Parity := .even
  skEmm : List UInt8
  skEmmParity : Parity := .even
  skPending : Bool := false
  liveNew : Bool := false
  skEpoch : Nat := 0
  skPeriodMs : Nat
  sinceSkMs : Nat := 0
  emmVersion : Nat := 0
  emmDirty : Bool := true
  emmSecs : List EmmSlot := []
  nSent : Nat := 0
  emmCursor : Nat := 0
  bld : Option EmmBuild := none

/-- The parity of an epoch. -/
def epochParity (n : Nat) : Parity := if n % 2 = 1 then .odd else .even

def Parity.other : Parity → Parity
  | .even => .odd
  | .odd => .even

namespace BissCa

/-- `biss_ca_engine_start` with the receivers that were found and three random values; the parity even gets
    its word at once. -/
def start (b : Backend) (pids : List Nat) (flushPid swPeriodMs : Nat) (found : List Receiver)
    (swEven swOdd sk : List UInt8) : Option BissCa :=
  let receivers := loadReceivers found
  if swPeriodMs < 1000 then none
  else if receivers.length = 0 then none
  else
    let (ok, _, scr) := (ScrambleEngine.start b .cissa pids flushPid).setCw b false 0 swEven
    if !ok then none
    else some {
      scr, receivers, swPeriodMs, sk
      sw := fun p => if p = .odd then swOdd else swEven
      skEmm := sk
      skPeriodMs := swPeriodMs * 6 }

/-- `biss_ca_engine_clock_tick`. -/
def clockTick (e : BissCa) (deltaMs : Nat) : BissCa :=
  { e with sinceSwMs := e.sinceSwMs + deltaMs, sinceSkMs := e.sinceSkMs + deltaMs }

/-- `rotate_sw`; `fails` says whether the scrambler cannot make the key. -/
def rotateSw (b : Backend) (fails : Bool) (fresh : List UInt8) (e : BissCa) : List (List UInt8) × BissCa :=
  let epoch := e.swEpoch + 1
  let p := epochParity epoch
  let (ok, out, scr) := e.scr.setCw b fails (ScrambleEngine.parityInt p) (e.sw p)
  let e := { e with scr }
  if !ok then (out, e)
  else (out, { e with
    sw := fun q => if q = p.other then fresh else e.sw q
    swEpoch := epoch
    ecmVersion := (e.ecmVersion + 1) &&& 0x1F
    ecmDirty := true })

def emmBuildAbort (e : BissCa) : BissCa :=
  match e.bld with
  | none => e
  | some b =>
    if b.inPlace then { e with emmSecs := [], nSent := 0, bld := none }
    else { e with bld := none }

def rotateSk (fresh : List UInt8) (e : BissCa) : BissCa :=
  let epoch := e.skEpoch + 1
  let e := { e with
    skEmm := fresh
    skEmmParity := epochParity epoch
    skEpoch := epoch
    emmVersion := (e.emmVersion + 1) &&& 0x1F
    skPending := true
    liveNew := false }
  { e.emmBuildAbort with emmDirty := true }

def activateSk (e : BissCa) : BissCa := { e with
    sk := e.skEmm
    skParity := e.skEmmParity
    skPending := false
    ecmVersion := (e.ecmVersion + 1) &&& 0x1F
    ecmDirty := true }

/-- `biss_ca_engine_force_sk_rotation`. -/
def forceSkRotation (e : BissCa) : BissCa :=
  if e.sinceSkMs < e.skPeriodMs then { e with sinceSkMs := e.skPeriodMs } else e

/-- The rotations of `biss_ca_engine_scramble_packet` that are due. -/
def rotate (b : Backend) (fails : Bool) (freshSw freshSk : List UInt8) (e : BissCa) :
    List (List UInt8) × BissCa :=
      let (out, e) := if e.sinceSwMs ≥ e.swPeriodMs then
      let (out, e) := e.rotateSw b fails freshSw
      (out, { e with sinceSwMs := 0 })
    else ([], e)
  if e.sinceSkMs ≥ e.skPeriodMs ∧ !e.skPending then (out, { e.rotateSk freshSk with sinceSkMs := 0 })
  else (out, e)

/-- `biss_ca_engine_scramble_packet`. -/
def scramblePacket (b : Backend) (fails : Bool) (freshSw freshSk : List UInt8) (e : BissCa) (outPid : Nat)
    (now : ℚ) (pkt : List UInt8) : List (List UInt8) × BissCa :=
  let (out, e) := e.rotate b fails freshSw freshSk
  let (out', scr) := e.scr.scramblePacket b fails outPid true true (epochParity e.swEpoch) true now pkt
  (out ++ out', { e with scr })

/-! ## ECM and EMM -/

def rebuildEcm (c : BissCrypto) (iv : List UInt8) (e : BissCa) : BissCa := { e with
    ecmCache := some ⟨e.ecmVersion, e.skParity, iv, c.aesCbcEncrypt e.sk iv (e.sw .even),
      c.aesCbcEncrypt e.sk iv (e.sw .odd)⟩
    ecmDirty := false }

/-- `biss_ca_engine_ecm_due`. -/
def ecmDue (c : BissCrypto) (iv : List UInt8) (now : ℚ) (cap : Nat) (e : BissCa) :
    Option EcmSection × BissCa :=
  let e := if e.ecmDirty then e.rebuildEcm c iv else e
  match e.ecmCache with
  | none => (none, e)
  | some ecm =>
    if ecmLen > cap then (none, e)
    else if e.lastEcmSend ≥ 0 ∧ now - e.lastEcmSend < ecmMinS then (none, e)
    else (some ecm, { e with lastEcmSend := now })

/-- The number of sections for a set of receivers. -/
def sectionCount (receivers : List Receiver) : Nat :=
  if receivers.length ≠ 0 then (receivers.length + entriesPerSection - 1) / entriesPerSection else 1

def emmBuildBegin (e : BissCa) : BissCa :=
  let nSecs := sectionCount e.receivers
  let secs : List EmmSlot := List.replicate nSecs {}
  let inPlace := e.emmSecs.length = 0
  let e := { e with
    bld := some ⟨secs, nSecs, 0, sessionData e.skEmm e.skEmmParity, e.emmVersion, inPlace⟩
    emmDirty := false }
  if inPlace then { e with emmSecs := secs, nSent := 0, emmCursor := 0, liveNew := true } else e

/-- The entries of a section. -/
def emmEntries (c : BissCrypto) (rnd : Nat) (data : List UInt8) (receivers : List Receiver) (number : Nat) :
    List (List UInt8 × List UInt8) :=
  ((receivers.drop (number * entriesPerSection)).take entriesPerSection).map fun r =>
    (r.ekid, c.rsaEncrypt r.pub data rnd)

/-- A section in its place. -/
def putSection (secs : List EmmSlot) (i : Nat) (sec : EmmSection) : List EmmSlot :=
  secs.modify i fun s => { s with sec := some sec }

def emmBuildStep (c : BissCrypto) (rnd : Nat) (e : BissCa) : BissCa :=
  match e.bld with
  | none => e
  | some b =>
    let sec : EmmSection :=
      ⟨b.version, b.next % 256, (b.nSecs - 1) % 256, emmEntries c rnd b.data e.receivers b.next⟩
    if sec.len > emmBufSize then { e.emmBuildAbort with emmDirty := true }
    else
      let e := if b.inPlace then { e with emmSecs := putSection e.emmSecs b.next sec } else e
      let secs := if b.inPlace then b.secs else putSection b.secs b.next sec
      if b.next + 1 < b.nSecs then { e with bld := some { b with secs, next := b.next + 1 } }
      else if b.inPlace then { e with bld := none }
      else { e with emmSecs := secs, nSent := 0, emmCursor := 0, liveNew := true, bld := none }

/-- A slot whose section may be sent. -/
def EmmSlot.due (s : EmmSlot) (now : ℚ) (cap : Nat) : Bool :=
  match s.sec with
  | none => false
  | some sec => sec.len ≤ cap ∧ ¬ (s.lastSend ≥ 0 ∧ now - s.lastSend < emmMinS)

/-- The first slot from the cursor on that is due. -/
def dueIndex (now : ℚ) (cap : Nat) (e : BissCa) : Option Nat :=
  ((List.range e.emmSecs.length).map fun k => (e.emmCursor + k) % e.emmSecs.length).find? fun i =>
    ((e.emmSecs[i]?).map fun s => EmmSlot.due s now cap).getD false

/-- A section is handed out. -/
def markSent (now : ℚ) (i : Nat) (s : EmmSlot) (e : BissCa) : BissCa := { e with
    emmSecs := e.emmSecs.set i { s with lastSend := now, sent := true }
    nSent := if s.sent then e.nSent else e.nSent + 1
    emmCursor := (i + 1) % e.emmSecs.length }

/-- The pending key comes into force when all live sections have it and were sent. -/
def activateIfSent (e : BissCa) : BissCa :=
  if e.skPending ∧ e.liveNew ∧ e.nSent = e.emmSecs.length then e.activateSk else e

/-- The loop of `biss_ca_engine_emm_due`. -/
def emmSend (now : ℚ) (cap : Nat) (e : BissCa) : Option EmmSection × BissCa :=
  match e.dueIndex now cap with
  | none => (none, e)
  | some i =>
    match e.emmSecs[i]? with
    | none => (none, e)
    | some s => (s.sec, (e.markSent now i s).activateIfSent)

/-- The start of `biss_ca_engine_emm_due`. -/
def emmBegin (e : BissCa) : BissCa := if e.emmDirty ∧ e.bld.isNone then e.emmBuildBegin else e

/-- `biss_ca_engine_emm_due`. -/
def emmDue (c : BissCrypto) (rnd : Nat) (now : ℚ) (cap : Nat) (e : BissCa) : Option EmmSection × BissCa :=
  (e.emmBegin.emmBuildStep c rnd).emmSend now cap

/-- `biss_ca_engine_reload_receivers` with the receivers that were found; 1 if they are others. -/
def reloadReceivers (found : List Receiver) (e : BissCa) : Int × BissCa :=
  let fresh := loadReceivers found
  if fresh.length = 0 then (-1, e)
  else
    let changed := fresh.length ≠ e.receivers.length ∨ fresh.any (fun r => !setHas e.receivers r) ∨
      e.receivers.any (fun r => !setHas fresh r)
    (if changed then 1 else 0, { { e with receivers := fresh }.emmBuildAbort with emmDirty := true })

/-- `cas_core_reload_receivers`. -/
def coreReload (found : List Receiver) (e : BissCa) : BissCa :=
  let (changed, e) := e.reloadReceivers found
  if changed > 0 then e.forceSkRotation else e

end BissCa

end DvbIpiTools.Cas
