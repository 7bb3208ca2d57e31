import DvbIpiTools.Utils.RingCounter

set_option autoImplicit false

/-! # The byte ring (`helper/byte_ring.c`)

One thread writes, one reads. A step of a thread is one access to a counter of the other thread, or one byte of a copy;
the two threads take their steps in any order. Beside the ring the state keeps what was accepted, what the reader has
taken and how much of it is given back. -/

namespace DvbIpiTools.ByteRing

/-- `byte_ring_t`; `alloc` unless `buf` is NULL. -/
structure Ring where
  alloc : Bool
  buf : List UInt8
  cap : UInt32
  wpos : UInt32 := 0
  rpos : UInt32 := 0
  inflight : UInt32 := 0
  deriving DecidableEq

/-- Where the writer is in `byte_ring_write`. -/
inductive Producer
  | idle
  | called (data : List UInt8)
  /-- `wpos` is loaded -/
  | loaded (data : List UInt8) (wpos : UInt32)
  /-- in `memcpy`, `done` bytes are copied -/
  | copying (data : List UInt8) (wpos : UInt32) (done : Nat)
  deriving DecidableEq

/-- Where the reader is; `written` is how much was accepted when it loaded `wpos`. -/
inductive Consumer
  | idle
  | reading (maxlen : Nat)
  | readLoaded (maxlen : Nat) (wpos : UInt32) (written : Nat)
  /-- in the `memcpy` of `byte_ring_read` -/
  | readCopy (rpos : UInt32) (idx n : Nat) (dst : List UInt8)
  | peeking
  | peekLoaded (wpos : UInt32) (written : Nat)
  /-- `byte_ring_peek` has returned `len` bytes from `idx` on; `got` of them are looked at -/
  | view (idx len : Nat) (got : List UInt8)
  /-- in `byte_ring_ack`, behind the change of `inflight` -/
  | acking (n : UInt32)
  /-- in `byte_ring_unsent`, behind the load of `wpos` -/
  | unsentLoaded (wpos : UInt32) (written : Nat)
  deriving DecidableEq

structure State where
  ring : Ring
  producer : Producer := .idle
  consumer : Consumer := .idle
  sent : List UInt8 := []
  taken : List UInt8 := []
  freed : Nat := 0

/-- Which calls the reader makes. -/
inductive Mode
  /-- `byte_ring_read`, `byte_ring_peek` and `byte_ring_advance` -/
  | direct
  /-- `byte_ring_peek`, `byte_ring_hold` and `byte_ring_ack` -/
  | held
  deriving DecidableEq

/-- What a call returns. -/
inductive Event
  | silent
  | wrote (data : List UInt8) (ok : Bool)
  /-- there was nothing, when `written` bytes had been accepted -/
  | nothing (written : Nat)
  | unsent (n : UInt32) (written : Nat)

/-- A step that a thread can take. -/
inductive Action
  | write (data : List UInt8)
  | producerGoes
  | read (maxlen : Nat)
  | peek
  | drop
  | advance (n : Nat)
  | hold (n : Nat)
  | ack (n : Nat)
  | unsent
  | consumerGoes
  deriving DecidableEq

/-- The cell that `memcpy` puts byte `i` of `len` into. -/
def writeCell (cap wpos : UInt32) (len i : Nat) : Nat :=
  let idx := (wpos &&& (cap - 1)).toNat
  let first := if idx + len > cap.toNat then cap.toNat - idx else len
  if i < first then idx + i else i - first

/-- The next step of `byte_ring_write`. -/
def producerGoes (s : State) : Option (Event × State) :=
  match s.producer with
  | .idle => none
  | .called data =>
    if data = [] then some (.wrote data true, { s with producer := .idle })
    else if !s.ring.alloc then some (.wrote data false, { s with producer := .idle })
    else some (.silent, { s with producer := .loaded data s.ring.wpos })
  | .loaded data wpos =>
    if data.length > (s.ring.cap - (wpos - s.ring.rpos)).toNat then
      some (.wrote data false, { s with producer := .idle })
    else some (.silent, { s with producer := .copying data wpos 0 })
  | .copying data wpos done =>
    match data[done]? with
    | some x => some (.silent, { s with
        ring := { s.ring with buf := s.ring.buf.set (writeCell s.ring.cap wpos data.length done) x }
        producer := .copying data wpos (done + 1) })
    | none => some (.wrote data true, { s with
        ring := { s.ring with wpos := wpos + .ofNat data.length }
        producer := .idle
        sent := s.sent ++ data })

/-- The next step of the call that the reader is in. -/
def consumerGoes (s : State) : Option (Event × State) :=
  match s.consumer with
  | .idle => none
  | .reading maxlen =>
    if !s.ring.alloc then some (.silent, { s with consumer := .idle })
    else some (.silent, { s with consumer := .readLoaded maxlen s.ring.wpos s.sent.length })
  | .readLoaded maxlen wpos written =>
    let rpos := s.ring.rpos
    if wpos = rpos then some (.nothing written, { s with consumer := .idle })
    else
      let idx := rpos &&& (s.ring.cap - 1)
      let n := min (s.ring.cap - idx).toNat (wpos - rpos).toNat
      some (.silent, { s with consumer := .readCopy rpos idx.toNat (min n maxlen) [] })
  | .readCopy rpos idx n dst =>
    if dst.length < n then
      match s.ring.buf[idx + dst.length]? with
      | some x => some (.silent, { s with consumer := .readCopy rpos idx n (dst ++ [x]) })
      | none => none
    else some (.silent, { s with
      ring := { s.ring with rpos := rpos + .ofNat n }
      consumer := .idle
      taken := s.taken ++ dst
      freed := s.freed + n })
  | .peeking =>
    if !s.ring.alloc then some (.silent, { s with consumer := .idle })
    else some (.silent, { s with consumer := .peekLoaded s.ring.wpos s.sent.length })
  | .peekLoaded wpos written =>
    let rpos := s.ring.rpos + s.ring.inflight
    if wpos = rpos then some (.nothing written, { s with consumer := .idle })
    else
      let idx := rpos &&& (s.ring.cap - 1)
      some (.silent, { s with
        consumer := .view idx.toNat (min (s.ring.cap - idx).toNat (wpos - rpos).toNat) [] })
  | .view idx len got =>
    if got.length < len then
      match s.ring.buf[idx + got.length]? with
      | some x => some (.silent, { s with consumer := .view idx len (got ++ [x]) })
      | none => none
    else none
  | .acking n => some (.silent, { s with
      ring := { s.ring with rpos := s.ring.rpos + n }
      consumer := .idle
      freed := s.freed + n.toNat })
  | .unsentLoaded wpos written =>
    some (.unsent (wpos - s.ring.rpos - s.ring.inflight) written, { s with consumer := .idle })

/-- One step; none where the thread cannot take it. A view is given up, or its first bytes are taken: those looked at
    by `byte_ring_advance`, any by `byte_ring_hold`, whose bytes are read where they are. -/
def step (mode : Mode) (s : State) (a : Action) : Option (Event × State) :=
  match a, s.producer, s.consumer with
  | .write data, .idle, _ => some (.silent, { s with producer := .called data })
  | .producerGoes, _, _ => producerGoes s
  | .read maxlen, _, .idle =>
    if mode = .direct then some (.silent, { s with consumer := .reading maxlen }) else none
  | .peek, _, .idle => some (.silent, { s with consumer := .peeking })
  | .drop, _, .view _ _ _ => some (.silent, { s with consumer := .idle })
  | .advance n, _, .view _ _ got =>
    if mode = .direct ∧ n ≤ got.length then some (.silent, { s with
      ring := { s.ring with rpos := s.ring.rpos + .ofNat n }
      consumer := .idle
      taken := s.taken ++ got.take n
      freed := s.freed + n })
    else none
  | .hold n, _, .view idx len _ =>
    if mode = .held ∧ n ≤ len then some (.silent, { s with
      ring := { s.ring with inflight := s.ring.inflight + .ofNat n }
      consumer := .idle
      taken := s.taken ++ (s.ring.buf.drop idx).take n })
    else none
  | .ack n, _, .idle =>
    if mode = .held then
      let n := if n > s.ring.inflight.toNat then s.ring.inflight else .ofNat n
      some (.silent, { s with
        ring := { s.ring with inflight := s.ring.inflight - n }
        consumer := .acking n })
    else none
  | .unsent, _, .idle => some (.silent, { s with consumer := .unsentLoaded s.ring.wpos s.sent.length })
  | .consumerGoes, _, _ => consumerGoes s
  | _, _, _ => none

/-- A run from a ring as `byte_ring_reset` leaves it. -/
inductive Reachable (mode : Mode) (r : Ring) : State → Prop
  | start : Reachable mode r { ring := r }
  | step {s s' : State} {a : Action} {e : Event} (h : Reachable mode r s) (hs : step mode s a = some (e, s')) :
      Reachable mode r s'

/-- A ring as `byte_ring_reset` leaves it: the capacity is a power of two below 2^31. -/
structure Ring.Fresh (r : Ring) (k : Nat) : Prop where
  lt : k < 31
  cap : r.cap.toNat = 2 ^ k
  buf : r.buf.length = r.cap.toNat
  wpos : r.wpos = 0
  rpos : r.rpos = 0
  inflight : r.inflight = 0

end DvbIpiTools.ByteRing
