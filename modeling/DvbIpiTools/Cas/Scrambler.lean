import DvbIpiTools.Helper.BeUtil

set_option autoImplicit false

/-! # Scrambling TS packets (`lib/scrambler/scrambler.c`)

A packet is encrypted or decrypted at once, or queued so that CSA2 works on a batch of packets. The
ciphers are parameters: `csa2.c` loads its library at run time and `cissa.c` calls that of AES. What is
counted and logged is left out. -/

namespace DvbIpiTools.Cas

open BeUtil

inductive ScrambleAlgo
  | cissa
  | csa2
  deriving DecidableEq

inductive Parity
  | even
  | odd
  deriving DecidableEq

inductive QueueMode
  | none
  | encrypt
  | decrypt
  deriving DecidableEq

/-- The ciphers, on a key and data; a batch may fail. -/
structure Backend where
  csa2Encrypt : List UInt8 → List UInt8 → List UInt8
  csa2Decrypt : List UInt8 → List UInt8 → List UInt8
  csa2EncryptBatch : List UInt8 → List (List UInt8) → Option (List (List UInt8))
  csa2DecryptBatch : List UInt8 → List (List UInt8) → Option (List (List UInt8))
  cissaEncrypt : List UInt8 → List UInt8 → List UInt8
  cissaDecrypt : List UInt8 → List UInt8 → List UInt8
  csa2BatchSize : Nat

/-- The parity that an `int` stands for. -/
def parityOf (parity : Int) : Option Parity :=
  if parity = 0 then some .even else if parity = 1 then some .odd else none

/-- The algorithm and the keys: `have_key` and the key of a parity are one. -/
structure Keys where
  algo : ScrambleAlgo
  key : Parity → Option (List UInt8)

/-- `scrambler_cw_len`. -/
def cwLen : ScrambleAlgo → Nat
  | .cissa => 16
  | .csa2 => 8

def tsPayloadOffset (pkt : List UInt8) : Nat :=
  let afc := byteAt pkt 3 >>> 4 &&& 0x3
  if afc = 0 ∨ afc = 2 then 188 else if afc = 3 then 4 + 1 + byteAt pkt 4 else 4

/-- The control bits of a parity. -/
def setControl (p : Parity) (pkt : List UInt8) : List UInt8 :=
  pkt.set 3 (.ofNat (byteAt pkt 3 &&& 0x3F ||| if p = .odd then 0xC0 else 0x80))

def clearControl (pkt : List UInt8) : List UInt8 := pkt.set 3 (.ofNat (byteAt pkt 3 &&& 0x3F))

/-- The `size` bytes at `off`. -/
def payload (off size : Nat) (pkt : List UInt8) : List UInt8 := (pkt.drop off).take size

/-- Other bytes in place of those at `off`. -/
def withPayload (off size : Nat) (pkt data : List UInt8) : List UInt8 :=
  pkt.take off ++ data ++ pkt.drop (off + size)

/-- A cipher at work in place. -/
def onPayload (f : List UInt8 → List UInt8) (off size : Nat) (pkt : List UInt8) : List UInt8 :=
  withPayload off size pkt (f (payload off size pkt))

/-! ## One packet -/

/-- `scrambler_encrypt_packet`; `fails` says whether AES does. -/
def encryptPacket (b : Backend) (fails : Bool) (k : Keys) (pkt : List UInt8) (parity : Int) :
    Option (List UInt8) :=
  match parityOf parity with
  | none => none
  | some p =>
    match k.key p with
    | none => none
    | some cw =>
      let off := tsPayloadOffset pkt
      if off ≥ 188 then some pkt
      else
        match k.algo with
        | .csa2 => some (onPayload (b.csa2Encrypt cw) off (188 - off) (setControl p pkt))
        | .cissa =>
          let encSize := 188 - off - (188 - off) % 16
          if encSize = 0 then some pkt
          else if fails then none
          else some (onPayload (b.cissaEncrypt cw) off encSize (setControl p pkt))

/-- The parity that the control bits 2 and 3 tell. -/
def ctrlParity (ctrl : Nat) : Parity := if ctrl = 3 then .odd else .even

/-- `scrambler_decrypt_packet`. -/
def decryptPacket (b : Backend) (fails : Bool) (k : Keys) (pkt : List UInt8) : Option (List UInt8) :=
  let ctrl := byteAt pkt 3 >>> 6 &&& 0x3
  if ctrl = 0 then some pkt
  else if ctrl = 1 then none
  else
    match k.key (ctrlParity ctrl) with
    | none => none
    | some cw =>
      let off := tsPayloadOffset pkt
      if off ≥ 188 then some (clearControl pkt)
      else
        match k.algo with
        | .csa2 => some (clearControl (onPayload (b.csa2Decrypt cw) off (188 - off) pkt))
        | .cissa =>
          let decSize := 188 - off - (188 - off) % 16
          if decSize = 0 then some (clearControl pkt)
          else if fails then none
          else some (clearControl (onPayload (b.cissaDecrypt cw) off decSize pkt))

/-! ## The queue -/

def queueCapMultiplier : Nat := 16

/-- `scrambler_queue_entry_t`. -/
structure Entry where
  pkt : List UInt8
  needsCrypto : Bool
  payloadOff : Nat
  payloadSize : Nat

/-- `struct scrambler`; `queue` has the first `queue_len` entries. -/
structure Scrambler where
  keys : Keys
  queue : List Entry
  batchSize : Nat
  cap : Nat
  scrambledCount : Nat
  parity : Option Parity
  mode : QueueMode

namespace Scrambler

/-- `scrambler_new`. -/
def new (b : Backend) (algo : ScrambleAlgo) : Scrambler :=
  let batchSize := if algo = .csa2 then b.csa2BatchSize else 0
  ⟨⟨algo, fun _ => none⟩, [], batchSize, batchSize * queueCapMultiplier, 0, none, .none⟩

/-- The data of the entries that a batch is made of. -/
def batchEntries (s : Scrambler) : List (List UInt8) :=
  ((s.queue.filter Entry.needsCrypto).map fun e => payload e.payloadOff e.payloadSize e.pkt).take
    s.scrambledCount

/-- `csa2_encrypt_batch` or `csa2_decrypt_batch`, as the mode has it. -/
def cryptBatch (b : Backend) (s : Scrambler) : Option (List (List UInt8)) :=
  match s.parity.bind s.keys.key with
  | none => none
  | some cw =>
    if s.mode = .encrypt then b.csa2EncryptBatch cw s.batchEntries else b.csa2DecryptBatch cw s.batchEntries

/-- The packets with the data of the batch in place. -/
def writeBack : List Entry → List (List UInt8) → List (List UInt8)
  | [], _ => []
  | e :: q, data =>
    if e.needsCrypto then
      match data with
      | [] => e.pkt :: writeBack q []
      | d :: data => withPayload e.payloadOff e.payloadSize e.pkt d :: writeBack q data
    else e.pkt :: writeBack q data

/-- `scrambler_queue_flush`: what is emitted, and the scrambler after it. -/
def queueFlush (b : Backend) (s : Scrambler) : List (List UInt8) × Scrambler :=
  if s.queue.length = 0 then ([], s)
  else
    let out :=
      if s.scrambledCount > 0 then
        match s.cryptBatch b with
        | some data => writeBack s.queue data
        | none => (s.queue.filter fun e => !e.needsCrypto).map Entry.pkt
      else s.queue.map Entry.pkt
    (out, { s with queue := [], scrambledCount := 0, parity := none, mode := .none })

/-- `scrambler_queue_ensure_batch`. -/
def ensureBatch (b : Backend) (s : Scrambler) (mode : QueueMode) (parity : Option Parity) :
    List (List UInt8) × Scrambler :=
  let (out, s) :=
    if s.scrambledCount > 0 ∧ (s.mode ≠ mode ∨ s.parity ≠ parity) then s.queueFlush b else ([], s)
  (out, { s with mode, parity })

/-- The end of `scrambler_queue_push`: the entry is stored, and a full batch flushed. -/
def store (b : Backend) (s : Scrambler) (e : Entry) : List (List UInt8) × Scrambler :=
  let s := { s with queue := s.queue ++ [e] }
  if e.needsCrypto then
    let s := { s with scrambledCount := s.scrambledCount + 1 }
    if s.scrambledCount = s.batchSize then s.queueFlush b else ([], s)
  else ([], s)

/-- A full queue is flushed before an entry is stored. -/
def makeRoom (b : Backend) (s : Scrambler) (needsCrypto : Bool) : List (List UInt8) × Scrambler :=
  if s.queue.length = s.cap then
    let (out, s') := s.queueFlush b
    if needsCrypto then
      let (out', s') := s'.ensureBatch b s.mode s.parity
      (out ++ out', s')
    else (out, s')
  else ([], s)

/-- `scrambler_queue_push`. -/
def queuePush (b : Backend) (s : Scrambler) (e : Entry) : List (List UInt8) × Scrambler :=
  if s.cap = 0 then ([e.pkt], s)
  else
    let (out, s) := s.makeRoom b e.needsCrypto
    let (out', s) := s.store b e
    (out ++ out', s)

/-! ## The calls

Each gives whether it returned 0, what it emitted, and the scrambler after it. -/

/-- `scrambler_set_key`; `fails` says whether the key cannot be made. -/
def setKey (b : Backend) (fails : Bool) (s : Scrambler) (parity : Int) (cw : List UInt8) :
    Bool × List (List UInt8) × Scrambler :=
  match parityOf parity with
  | none => (false, [], s)
  | some p =>
    if cw.length ≠ cwLen s.keys.algo then (false, [], s)
    else
      let (out, s) := if s.scrambledCount > 0 ∧ s.parity = some p then s.queueFlush b else ([], s)
      if fails then (false, out, s)
      else (true, out, { s with keys := { s.keys with key := fun q => if q = p then some cw else s.keys.key q } })

/-- What is emitted of a packet that is not queued. -/
def immediate (s : Scrambler) : Option (List UInt8) → Bool × List (List UInt8) × Scrambler
  | none => (false, [], s)
  | some pkt => (true, [pkt], s)

/-- A packet that needs no cipher. -/
def pushClear (b : Backend) (s : Scrambler) (pkt : List UInt8) : List (List UInt8) × Scrambler :=
  s.queuePush b ⟨pkt, false, 0, 0⟩

/-- A packet for a batch. -/
def pushCrypto (b : Backend) (s : Scrambler) (mode : QueueMode) (p : Parity) (pkt : List UInt8) (off : Nat) :
    List (List UInt8) × Scrambler :=
  let (out, s) := s.ensureBatch b mode (some p)
  let (out', s) := s.queuePush b ⟨pkt, true, off, 188 - off⟩
  (out ++ out', s)

/-- `scrambler_encrypt_packet_queued`. -/
def encryptPacketQueued (b : Backend) (fails : Bool) (s : Scrambler) (pkt : List UInt8) (parity : Int) :
    Bool × List (List UInt8) × Scrambler :=
  match parityOf parity with
  | none => (false, [], s)
  | some p =>
    match s.keys.key p with
    | none => (false, [], s)
    | some _ =>
      if s.cap = 0 then s.immediate (encryptPacket b fails s.keys pkt parity)
      else
        let off := tsPayloadOffset pkt
        if off ≥ 188 then (true, s.pushClear b pkt)
        else (true, s.pushCrypto b .encrypt p (setControl p pkt) off)

/-- `scrambler_decrypt_packet_queued`. -/
def decryptPacketQueued (b : Backend) (fails : Bool) (s : Scrambler) (pkt : List UInt8) :
    Bool × List (List UInt8) × Scrambler :=
  let ctrl := byteAt pkt 3 >>> 6 &&& 0x3
  if ctrl = 0 then (true, s.pushClear b pkt)
  else if ctrl = 1 then (false, [], s)
  else
    match s.keys.key (ctrlParity ctrl) with
    | none => (false, [], s)
    | some _ =>
      if s.cap = 0 then s.immediate (decryptPacket b fails s.keys pkt)
      else
        let off := tsPayloadOffset pkt
        if off ≥ 188 then (true, s.pushClear b (clearControl pkt))
        else (true, s.pushCrypto b .decrypt (ctrlParity ctrl) (clearControl pkt) off)

/-- `scrambler_passthrough_queued`. -/
def passthroughQueued (b : Backend) (s : Scrambler) (pkt : List UInt8) : Bool × List (List UInt8) × Scrambler :=
  (true, s.pushClear b pkt)

/-- `scrambler_flush`. -/
def flush (b : Backend) (s : Scrambler) : Bool × List (List UInt8) × Scrambler := (true, s.queueFlush b)

end Scrambler

end DvbIpiTools.Cas
