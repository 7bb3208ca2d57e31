import DvbIpiTools.Cas.ScramblerQueue

set_option autoImplicit false

/-! # Scrambling by PID (`lib/cas/cas_scramble_engine.c`)

A managed PID follows the parity of the control words at the next start of a unit, or after a deadline. Its
packets go out scrambled if the parity has a control word, else in clear. -/

namespace DvbIpiTools.Cas

open BeUtil List

/-- `cas_pid_state_t`; times are rational here, `double` in the source. -/
structure PidState where
  pid : Nat
  currentParity : Parity := .even
  flipPending : Bool := false
  flipDeadline : ℚ := 0

/-- `struct cas_scramble_engine`. The index of the PID used last is one that `find_pid_state` found. -/
structure ScrambleEngine where
  scr : Scrambler
  flushPid : Nat
  pids : List PidState
  cwCacheLen : Parity → Nat

def maxPids : Nat := 32
def forceFlipS : ℚ := 2

def casPidApply (ps : PidState) (haveTarget : Bool) (target : Parity) (pusi : Bool) (now force : ℚ) :
    PidState :=
  if !haveTarget then ps
  else
    let ps := if target ≠ ps.currentParity ∧ ps.flipPending = false then
      { ps with flipPending := true, flipDeadline := now + force } else ps
    if ps.flipPending ∧ (pusi ∨ now ≥ ps.flipDeadline) then
      { ps with currentParity := target, flipPending := false }
    else ps

namespace ScrambleEngine

def findPidState (e : ScrambleEngine) (pid : Nat) : Option PidState := e.pids.find? fun ps => ps.pid = pid

/-- The state of a PID that was found is replaced. -/
def setPidState (e : ScrambleEngine) (ps : PidState) : ScrambleEngine :=
  { e with pids := (e.pids.findIdx? fun x => x.pid = ps.pid).elim e.pids fun i => e.pids.set i ps }

def carriesPcr (pkt : List UInt8) : Bool :=
  byteAt pkt 3 &&& 0x20 ≠ 0 && byteAt pkt 4 ≥ 7 && byteAt pkt 5 &&& 0x10 ≠ 0

def flushDue (e : ScrambleEngine) (outPid : Nat) (pkt : List UInt8) : Bool :=
  outPid = e.flushPid || carriesPcr pkt

/-- The scrambler has taken a packet, and is flushed if it is time. -/
def finish (b : Backend) (e : ScrambleEngine) (outPid : Nat) (pkt : List UInt8)
    (r : List (List UInt8) × Scrambler) : List (List UInt8) × ScrambleEngine :=
  if e.flushDue outPid pkt then
    let (out, scr) := r.2.queueFlush b
    (r.1 ++ out, { e with scr })
  else (r.1, { e with scr := r.2 })

def queueClear (b : Backend) (e : ScrambleEngine) (outPid : Nat) (pkt : List UInt8) :
    List (List UInt8) × ScrambleEngine := e.finish b outPid pkt (e.scr.passthroughQueued b pkt).2

/-- `cas_scramble_engine_start`. -/
def start (b : Backend) (algo : ScrambleAlgo) (pids : List Nat) (flushPid : Nat) : ScrambleEngine where
  scr := .new b algo
  flushPid
  pids := (pids.take maxPids).map fun pid => { pid }
  cwCacheLen := fun _ => 0

/-- `cas_scramble_engine_add_pid`. -/
def addPid (e : ScrambleEngine) (pid : Nat) : Bool × ScrambleEngine :=
  if (e.findPidState pid).isSome then (true, e)
  else if e.pids.length ≥ maxPids then (false, e)
  else (true, { e with pids := e.pids ++ [{ pid }] })

/-- `cas_scramble_engine_set_cw`. -/
def setCw (b : Backend) (fails : Bool) (e : ScrambleEngine) (parity : Int) (cw : List UInt8) :
    Bool × List (List UInt8) × ScrambleEngine :=
  match parityOf parity with
  | none => (false, [], e)
  | some p =>
    let e := { e with cwCacheLen := fun q => if q = p then 0 else e.cwCacheLen q }
    if cw.length = 0 then (true, [], e)
    else
      let (ok, out, scr) := e.scr.setKey b fails parity cw
      let e := { e with scr }
      if ok then (true, out, { e with cwCacheLen := fun q => if q = p then cw.length else e.cwCacheLen q })
      else (false, out, e)

/-- The parity as the scrambler is told it. -/
def parityInt : Parity → Int
  | .even => 0
  | .odd => 1

/-- `cas_scramble_engine_scramble_packet`. The callers' target is an epoch's lowest bit. The scrambler leaves
    what `flush_due` reads of the packet as it is. -/
def scramblePacket (b : Backend) (fails : Bool) (e : ScrambleEngine) (outPid : Nat)
    (haveSource haveTarget : Bool) (target : Parity) (cwValid : Bool) (now : ℚ) (pkt : List UInt8) :
    List (List UInt8) × ScrambleEngine :=
  match e.findPidState outPid with
  | none => e.queueClear b outPid pkt
  | some ps =>
    if !haveSource then e.queueClear b outPid pkt
    else
      let pusi := byteAt pkt 1 &&& 0x40 ≠ 0
      let ps := casPidApply ps haveTarget target pusi now forceFlipS
      let e := e.setPidState ps
      if e.cwCacheLen ps.currentParity = 0 ∨ !cwValid then e.queueClear b outPid pkt
      else e.finish b outPid pkt (e.scr.encryptPacketQueued b fails pkt (parityInt ps.currentParity)).2

/-- `cas_scramble_engine_flush`. -/
def flush (b : Backend) (e : ScrambleEngine) : List (List UInt8) × ScrambleEngine :=
  let (out, scr) := e.scr.queueFlush b
  (out, { e with scr })

end ScrambleEngine

/-! # What goes out in clear

The packets of a managed PID go out scrambled as long as the last control word given for the parity of the
PID was taken. A word that is empty or refused, or a parity that never had one, opens the PID. -/

open BeUtil Scrambler

/-- A call on an engine that has a source and valid control words. -/
inductive EngineCall
  | setCw (fails : Bool) (parity : Int) (cw : List UInt8)
  | addPid (pid : Nat)
  | scramble (fails : Bool) (outPid : Nat) (haveTarget : Bool) (target : Parity) (now : ℚ) (pkt : List UInt8)

namespace ScrambleEngine

def call (b : Backend) (e : ScrambleEngine) : EngineCall → Bool × List (List UInt8) × ScrambleEngine
  | .setCw fails parity cw => e.setCw b fails parity cw
  | .addPid pid => ((e.addPid pid).1, [], (e.addPid pid).2)
  | .scramble fails outPid haveTarget target now pkt =>
    (true, e.scramblePacket b fails outPid true haveTarget target true now pkt)

def run (b : Backend) : ScrambleEngine → List EngineCall → List (List UInt8) × ScrambleEngine
  | e, [] => ([], e)
  | e, c :: cs =>
    let (_, out, e) := e.call b c
    let (outs, e) := e.run b cs
    (out ++ outs, e)

/-- All that a sequence of calls emits, with a flush at its end. -/
def emitted (b : Backend) (e : ScrambleEngine) (cs : List EngineCall) : List (List UInt8) :=
  (e.run b cs).1 ++ ((e.run b cs).2.flush b).1

/-- The control word of each parity, if the last call that gave one was taken. -/
def cwAfter (algo : ScrambleAlgo) (h : Parity → Option (List UInt8)) : EngineCall → Parity → Option (List UInt8)
  | .setCw fails parity cw =>
    match parityOf parity with
    | none => h
    | some p => fun q =>
      if q = p then if cw.length = cwLen algo ∧ fails = false then some cw else none else h q
  | _ => h

/-- A packet scrambled with the control word of a parity. -/
def scrambled (b : Backend) (algo : ScrambleAlgo) (p : Parity) (cw pkt : List UInt8) : List UInt8 :=
  let off := tsPayloadOffset pkt
  match algo with
  | .csa2 => onPayload (b.csa2Encrypt cw) off (188 - off) (setControl p pkt)
  | .cissa => onPayload (b.cissaEncrypt cw) off (188 - off - (188 - off) % 16) (setControl p pkt)

/-! ## One call -/

variable {b : Backend} {e : ScrambleEngine}

theorem finish_adds (hb : b.Lawful) {own : List (List UInt8)}
    {r : List (List UInt8) × Scrambler} (h : Adds b e.scr own r.1 r.2) (outPid : Nat) (pkt : List UInt8) :
    Adds b e.scr own (e.finish b outPid pkt r).1 (e.finish b outPid pkt r).2.scr ∧
      (e.finish b outPid pkt r).2.cwCacheLen = e.cwCacheLen := by
  rw [finish]
  split
  · have hflush := h.trans (queueFlush_adds hb h.queued).1
    rw [append_nil] at hflush
    exact ⟨hflush, rfl⟩
  · exact ⟨h, rfl⟩

variable {cw pkt : List UInt8}

theorem queueClear_adds (hb : b.Lawful) (he : e.scr.Settled) (outPid : Nat) (pkt : List UInt8) :
    Adds b e.scr [pkt] (e.queueClear b outPid pkt).1 (e.queueClear b outPid pkt).2.scr ∧
      (e.queueClear b outPid pkt).2.cwCacheLen = e.cwCacheLen :=
  finish_adds hb (pushClear_adds hb he pkt) outPid pkt

theorem scramble_adds (hb : b.Lawful) (he : e.scr.Settled) (fails : Bool)
    (outPid : Nat) (haveTarget : Bool) (target : Parity) (now : ℚ) (pkt : List UInt8) :
    ∃ own, Adds b e.scr own (e.scramblePacket b fails outPid true haveTarget target true now pkt).1
        (e.scramblePacket b fails outPid true haveTarget target true now pkt).2.scr ∧
      (e.scramblePacket b fails outPid true haveTarget target true now pkt).2.cwCacheLen = e.cwCacheLen := by
  unfold scramblePacket
  split
  · exact ⟨[pkt], queueClear_adds hb he outPid pkt⟩
  rename_i ps hps
  rw [if_neg nofun]
  simp only []
  split
  · exact ⟨[pkt], queueClear_adds (e := e.setPidState _) hb he outPid pkt⟩
  · exact ⟨_, finish_adds (e := e.setPidState _) hb (encrypt_adds hb he fails pkt _).1 outPid pkt⟩

/-- What holds between calls; `h` has the control words that were taken. -/
structure Keyed (algo : ScrambleAlgo) (h : Parity → Option (List UInt8)) (e : ScrambleEngine) : Prop where
  settled : e.scr.Settled
  algo_eq : e.scr.keys.algo = algo
  cw : ∀ p cw, h p = some cw → e.cwCacheLen p ≠ 0 ∧ e.scr.keys.key p = some cw

variable {algo : ScrambleAlgo} {h : Parity → Option (List UInt8)}

theorem setCw_spec (hb : b.Lawful) (he : e.Keyed algo h) (fails : Bool) (parity : Int) (cw : List UInt8) :
    (e.setCw b fails parity cw).2.1 ++ (e.setCw b fails parity cw).2.2.scr.pending b = e.scr.pending b ∧
      (e.setCw b fails parity cw).2.2.Keyed algo (cwAfter algo h (.setCw fails parity cw)) := by
  have hset := setKey_performs hb he.settled fails parity cw
  have hemitted : (e.scr.setKey b fails parity cw).2.1 ++ (e.scr.setKey b fails parity cw).2.2.pending b =
      e.scr.pending b ++ [] := hset.emitted
  rw [append_nil] at hemitted
  have hsettled : (e.scr.setKey b fails parity cw).2.2.Settled := hset.settled
  have hkeys : (e.scr.setKey b fails parity cw).2.2.keys = e.scr.keys.after (.setKey fails parity cw) := hset.keys
  have hret := setKey_ret b fails e.scr parity cw
  unfold setCw
  rw [cwAfter, ← he.algo_eq]
  rw [Keys.after] at hkeys
  cases hparity : parityOf parity with
  | none => exact ⟨rfl, he.settled, rfl, he.cw⟩
  | some p =>
    simp only [hparity] at hkeys hret ⊢
    by_cases hempty : cw.length = 0
    · have hlen : ¬ (cw.length = cwLen e.scr.keys.algo ∧ fails = false) := by
        rintro ⟨hlen, -⟩
        rw [hempty] at hlen
        cases halgo : e.scr.keys.algo <;> rw [halgo] at hlen <;> cases hlen
      rw [if_pos hempty]
      refine ⟨rfl, he.settled, rfl, fun q cw' hq => ?_⟩
      by_cases hqp : q = p
      · rw [if_pos hqp, if_neg hlen] at hq
        cases hq
      · rw [if_neg hqp] at hq
        simp only [if_neg hqp]
        exact he.cw q cw' hq
    · rw [if_neg hempty]
      by_cases htaken : cw.length = cwLen e.scr.keys.algo ∧ fails = false
      · rw [if_pos htaken] at hkeys
        rw [if_pos (hret.2 ⟨rfl, htaken⟩)]
        refine ⟨hemitted, hsettled, ?_, fun q cw' hq => ?_⟩
        · simp only [hkeys]
        rw [if_pos htaken] at hq
        simp only [hkeys]
        by_cases hqp : q = p
        · rw [if_pos hqp] at hq ⊢
          rw [if_pos hqp]
          exact ⟨hempty, hq⟩
        · rw [if_neg hqp] at hq ⊢
          rw [if_neg hqp, if_neg hqp]
          exact he.cw q cw' hq
      · rw [if_neg htaken] at hkeys
        rw [if_neg (fun h => htaken (hret.1 h).2)]
        refine ⟨hemitted, hsettled, ?_, fun q cw' hq => ?_⟩
        · simp only [hkeys]
        rw [if_neg htaken] at hq
        simp only [hkeys]
        by_cases hqp : q = p
        · rw [if_pos hqp] at hq
          cases hq
        · rw [if_neg hqp] at hq ⊢
          exact he.cw q cw' hq

/-! ## Sequences of calls -/

theorem call_spec {b : Backend} (hb : b.Lawful) {algo : ScrambleAlgo} {h : Parity → Option (List UInt8)}
    {e : ScrambleEngine} (he : e.Keyed algo h) (c : EngineCall) :
    (∃ own, (e.call b c).2.1 ++ (e.call b c).2.2.scr.pending b = e.scr.pending b ++ own) ∧
      (e.call b c).2.2.Keyed algo (cwAfter algo h c) := by
  cases c with
  | setCw fails parity cw =>
    obtain ⟨hemitted, hkeyed⟩ := setCw_spec hb he fails parity cw
    exact ⟨⟨[], by rw [append_nil]; exact hemitted⟩, hkeyed⟩
  | addPid pid =>
    rw [call, addPid]
    refine ⟨⟨[], ?_⟩, ?_⟩
    · rw [append_nil]
      split
      · rfl
      · split <;> rfl
    · split
      · exact ⟨he.settled, he.algo_eq, he.cw⟩
      · split
        · exact ⟨he.settled, he.algo_eq, he.cw⟩
        · exact ⟨he.settled, he.algo_eq, he.cw⟩
  | scramble fails outPid haveTarget target now pkt =>
    obtain ⟨own, hadds, hlen⟩ := scramble_adds hb he.settled fails outPid haveTarget target now pkt
    refine ⟨⟨own, hadds.emitted⟩, hadds.settled, ?_, fun p cw hp => ?_⟩
    · show (e.scramblePacket b fails outPid true haveTarget target true now pkt).2.scr.keys.algo = algo
      rw [hadds.keys]
      exact he.algo_eq
    · show (e.scramblePacket b fails outPid true haveTarget target true now pkt).2.cwCacheLen p ≠ 0 ∧
        (e.scramblePacket b fails outPid true haveTarget target true now pkt).2.scr.keys.key p = some cw
      rw [hadds.keys, hlen]
      exact he.cw p cw hp

theorem run_cons (b : Backend) (e : ScrambleEngine) (c : EngineCall) (cs : List EngineCall) :
    e.run b (c :: cs) = ((e.call b c).2.1 ++ ((e.call b c).2.2.run b cs).1, ((e.call b c).2.2.run b cs).2) := rfl

theorem run_append (b : Backend) (e : ScrambleEngine) (cs ds : List EngineCall) :
    e.run b (cs ++ ds) = ((e.run b cs).1 ++ ((e.run b cs).2.run b ds).1, ((e.run b cs).2.run b ds).2) := by
  induction cs generalizing e with
  | nil => rfl
  | cons c cs ih => rw [cons_append, run_cons, run_cons, ih, append_assoc]

theorem run_spec (hb : b.Lawful) (he : e.Keyed algo h) (cs : List EngineCall) :
    (∃ own, (e.run b cs).1 ++ (e.run b cs).2.scr.pending b = e.scr.pending b ++ own) ∧
      (e.run b cs).2.Keyed algo (cs.foldl (cwAfter algo) h) := by
  induction cs generalizing e h with
  | nil => exact ⟨⟨[], by rw [run, append_nil, nil_append]⟩, he⟩
  | cons c cs ih =>
    obtain ⟨⟨own, hown⟩, hcall⟩ := call_spec hb he c
    obtain ⟨⟨rest, hrest⟩, hrun⟩ := ih hcall
    rw [run_cons]
    refine ⟨⟨own ++ rest, ?_⟩, hrun⟩
    rw [append_assoc, hrest, ← append_assoc, hown, append_assoc]

end ScrambleEngine

end DvbIpiTools.Cas
