import Mathlib.Logic.Function.Basic

set_option autoImplicit false

/-! # Retired snapshots (`dipixy/reactor/qsbr.c`, `dipixy/segstore/retire.c`, `store.c`)

Workers read the published snapshot of a store without a lock. A snapshot that was replaced is freed when every
worker has been quiescent or offline since. Every access to an atomic variable is a step of its own; what a thread
does besides, with a lock held or with what only it has, goes along with one of these. A publisher is any call of
`push.c` that replaces a snapshot: all but `hls_llhls_enable` call `snap_retire` before they unlock the store. -/

namespace DvbIpiTools.Dipixy.Qsbr

open Function

/-! ## Workers -/

/-- What a worker does next: the second access of `qsbr_worker_offline` or of `qsbr_worker_online`. -/
inductive WorkerPc
  | idle
  | offline (v : UInt64)
  | online (v : UInt64)

/-- A worker with its `qsbr_slot_t`. `held` are the snapshots that it loaded since it was last quiescent or
    offline. -/
structure Worker where
  v : UInt64 := 1
  held : List Nat := []
  pc : WorkerPc := .idle

/-- `QSBR_ONLINE`. -/
def online (v : UInt64) : Bool := v &&& 1 != 0

def slotPassed (v mark : UInt64) : Bool := !online mark || v != mark

/-! ## Stores and threads -/

inductive SlotState
  | free
  | opening
  | opened
  | closing
  deriving DecidableEq

/-- `slot_retire_node_t`; `mark` is as far as it has been written. -/
structure Node where
  idx : Option Nat
  snaps : List Nat
  mark : List UInt64 := []
  next : Option Nat := none

/-- Where `slot_retire_push` returns to. -/
inductive After
  | unlock (s : Nat)
  | drain (s : Nat) (rest : List Nat)
  | done
  deriving DecidableEq

/-- Where a thread is. -/
inductive Pc
  | idle
  -- a call that publishes, with the lock: it has nothing yet, or the snapshot so far
  | load (s : Nat)
  | store (s : Nat) (old : Option Nat)
  -- `snap_retire`: worker `j` is next for entry `i`
  | scan (s old i j : Nat)
  | mark (s old : Nat) (ms : List UInt64)
  | unlock (s : Nat)
  -- `hls_llhls_enable`, which unlocks the store and then calls `snap_retire_async`
  | enabled (s old : Nat)
  -- `hls_store_open`
  | openLock (s : Nat)
  | drain (s : Nat)
  | drained (s : Nat) (rest : List Nat)
  -- `snap_retire_async`
  | retire (p : Nat) (k : After)
  -- `hls_store_close`
  | closing (s : Nat)
  | closeLock (s nd : Nat)
  | close (s nd : Nat)
  | closeUnlock (s nd : Nat)
  -- `qsbr_mark` of a node, and `slot_retire_push`
  | nodeMark (nd : Nat) (k : After)
  | push (nd : Nat) (k : After)
  | pushNext (nd : Nat) (old : Option Nat) (k : After)
  | pushCas (nd : Nat) (old : Option Nat) (k : After)
  -- `hls_store_slot_reclaim_sweep`
  | sweep (chain keepHead keepTail : Option Nat)
  | check (nd : Nat) (next keepHead keepTail : Option Nat) (j : Nat)
  | splice (keepHead keepTail : Nat)
  | spliceNext (keepHead keepTail : Nat) (old : Option Nat)
  | spliceCas (keepHead keepTail : Nat) (old : Option Nat)
  deriving DecidableEq

def After.pc : After → Pc
  | .unlock s => .unlock s
  | .drain s rest => .drained s rest
  | .done => .idle

/-- `head` is `g_slot_retire_head`; `fresh` and `freed` are the next snapshot and those that were freed. -/
structure St where
  workers : Nat → Worker := fun _ => {}
  slots : Nat → SlotState := fun _ => .free
  locks : Nat → Option Nat := fun _ => none
  snap : Nat → Option Nat := fun _ => none
  retiring : Nat → List (Nat × List UInt64) := fun _ => []
  nodes : Nat → Option Node := fun _ => none
  head : Option Nat := none
  pc : Nat → Pc := fun _ => .idle
  fresh : Nat := 0
  freed : List Nat := []

/-- `HLS_SNAP_RETIRE_DEPTH`. -/
def retireDepth : Nat := 4

namespace St

def setPc (st : St) (t : Nat) (pc : Pc) : St := { st with pc := update st.pc t pc }

def setWorker (st : St) (w : Nat) (x : Worker) : St := { st with workers := update st.workers w x }

def setNode (st : St) (nd : Nat) (x : Option Node) : St := { st with nodes := update st.nodes nd x }

def setLock (st : St) (s : Nat) (owner : Option Nat) : St := { st with locks := update st.locks s owner }

def setSlot (st : St) (s : Nat) (x : SlotState) : St := { st with slots := update st.slots s x }

def setSnap (st : St) (s : Nat) (p : Option Nat) : St := { st with snap := update st.snap s p }

def setRetiring (st : St) (s : Nat) (es : List (Nat × List UInt64)) : St :=
  { st with retiring := update st.retiring s es }

/-- `snap_free`. -/
def free (st : St) (ps : List Nat) : St := { st with freed := ps ++ st.freed }

end St

/-! ## Steps -/

/-- What a worker begins. -/
inductive WorkerAct
  | quiescent
  | offline
  | online
  | load (s : Nat)
  | next

/-- A step of a worker. -/
def workerStep (st : St) (w : Nat) (a : WorkerAct) : Option St :=
  let x := st.workers w
  match x.pc, a with
  | .idle, .quiescent => some (st.setWorker w { x with v := x.v + 2, held := [] })
  | .idle, .offline => some (st.setWorker w { x with pc := if online x.v then .offline x.v else .idle })
  | .idle, .online => some (st.setWorker w { x with pc := if online x.v then .idle else .online x.v })
  | .idle, .load s =>
    if online x.v then some (st.setWorker w { x with held := (st.snap s).toList ++ x.held }) else none
  | .offline v, .next => some (st.setWorker w ⟨v + 1, [], .idle⟩)
  | .online v, .next => some (st.setWorker w { x with v := v + 1, pc := .idle })
  | _, _ => none

/-- What a thread begins. -/
inductive Op
  | publish (s : Nat)
  | openStore (s : Nat)
  | closeStore (s : Nat)
  | sweep

/-- A thread begins a call: with the lock, by its first exchange of a slot's state, or by taking the list. -/
def begin (st : St) (t : Nat) (op : Op) : Option St :=
  if st.pc t = .idle then
    match op with
    | .publish s => if st.locks s = none then some ((st.setLock s (some t)).setPc t (.load s)) else none
    | .openStore s =>
      if st.slots s = .opened ∨ st.slots s = .free then some ((st.setSlot s .opening).setPc t (.openLock s)) else none
    | .closeStore s => if st.slots s = .opened then some ((st.setSlot s .closing).setPc t (.closing s)) else none
    | .sweep => some ({ st with head := none }.setPc t (.sweep st.head none none))
  else none

/-- How an allocation ends, whether a `compare_exchange_weak` fails for no reason, and whether the publisher is
    `hls_llhls_enable`. -/
structure Choice where
  addr : Option Nat := none
  ok : Bool := true
  enable : Bool := false

/-- A node that `malloc` may give. -/
def St.malloc (st : St) (ch : Choice) : Option Nat := ch.addr.filter fun nd => st.nodes nd = none

/-- An entry of `retiring` is replaced by the last one. -/
def dropEntry {α : Type} (es : List α) (i : Nat) : List α :=
  match es.getLast? with
  | none => []
  | some e => (es.set i e).dropLast

/-- The next step of a thread in a call. -/
def threadStep (n : Nat) (st : St) (t : Nat) (ch : Choice) : Option St :=
  match st.pc t with
  | .idle => none
  | .load s => some (st.setPc t (.store s (st.snap s)))
  | .store s old =>
    if ch.ok then
      let st := { st.setSnap s (some st.fresh) with fresh := st.fresh + 1 }
      some (st.setPc t (match old with
        | none => .unlock s
        | some old => if ch.enable then .enabled s old else .scan s old 0 0))
    else some (st.setPc t (.unlock s))
  | .scan s old i j =>
    match (st.retiring s)[i]? with
    | none => some (st.setPc t (if (st.retiring s).length ≥ retireDepth then .retire old (.unlock s) else .mark s old []))
    | some (p, ms) =>
      if j < n then
        if slotPassed (st.workers j).v (ms.getD j 0) then some (st.setPc t (.scan s old i (j + 1)))
        else some (st.setPc t (.scan s old (i + 1) 0))
      else some (((st.free [p]).setRetiring s (dropEntry (st.retiring s) i)).setPc t (.scan s old i 0))
  | .mark s old ms =>
    if ms.length < n then some (st.setPc t (.mark s old (ms ++ [(st.workers ms.length).v])))
    else some ((st.setRetiring s (st.retiring s ++ [(old, ms)])).setPc t (.unlock s))
  | .unlock s => some ((st.setLock s none).setPc t .idle)
  | .enabled s old => some ((st.setLock s none).setPc t (.retire old .done))
  | .openLock s => if st.locks s = none then some ((st.setLock s (some t)).setPc t (.drain s)) else none
  | .drain s =>
    some (((st.setSnap s none).setRetiring s []).setPc t
      (.drained s ((st.snap s).toList ++ (st.retiring s).map Prod.fst)))
  | .drained s [] => some ((st.setSlot s .opened).setPc t (.unlock s))
  | .drained s (p :: rest) => some (st.setPc t (.retire p (.drain s rest)))
  | .retire p k =>
    match st.malloc ch with
    | none => some (st.setPc t k.pc)
    | some nd => some ((st.setNode nd (some ⟨none, [p], [], none⟩)).setPc t (.nodeMark nd k))
  | .closing s =>
    match st.malloc ch with
    | none => some ((st.setSlot s .opened).setPc t .idle)
    | some nd => some ((st.setNode nd (some ⟨some s, [], [], none⟩)).setPc t (.closeLock s nd))
  | .closeLock s nd => if st.locks s = none then some ((st.setLock s (some t)).setPc t (.close s nd)) else none
  | .close s nd =>
    (st.nodes nd).map fun x =>
      (((st.setSnap s none).setRetiring s []).setNode nd
        (some { x with snaps := (st.snap s).toList ++ (st.retiring s).map Prod.fst })).setPc t (.closeUnlock s nd)
  | .closeUnlock s nd => some ((st.setLock s none).setPc t (.nodeMark nd .done))
  | .nodeMark nd k =>
    (st.nodes nd).map fun x =>
      if x.mark.length < n then st.setNode nd (some { x with mark := x.mark ++ [(st.workers x.mark.length).v] })
      else st.setPc t (.push nd k)
  | .push nd k => some (st.setPc t (.pushNext nd st.head k))
  | .pushNext nd old k =>
    (st.nodes nd).map fun x => (st.setNode nd (some { x with next := old })).setPc t (.pushCas nd old k)
  | .pushCas nd old k =>
    if ch.ok ∧ st.head = old then some ({ st with head := some nd }.setPc t k.pc)
    else some (st.setPc t (.pushNext nd st.head k))
  | .sweep (some nd) kh kt => (st.nodes nd).map fun x => st.setPc t (.check nd x.next kh kt 0)
  | .sweep none kh kt =>
    match kh, kt with
    | some kh, some kt => some (st.setPc t (.splice kh kt))
    | _, _ => some (st.setPc t .idle)
  | .check nd next kh kt j =>
    (st.nodes nd).map fun x =>
      if j < n then
        if slotPassed (st.workers j).v (x.mark.getD j 0) then st.setPc t (.check nd next kh kt (j + 1))
        else (st.setNode nd (some { x with next := kh })).setPc t (.sweep next (some nd) (kt.or (some nd)))
      else
        let st := (st.free x.snaps).setNode nd none
        let st := match x.idx with
          | none => st
          | some s => st.setSlot s .free
        st.setPc t (.sweep next kh kt)
  | .splice kh kt => some (st.setPc t (.spliceNext kh kt st.head))
  | .spliceNext kh kt old =>
    (st.nodes kt).map fun x => (st.setNode kt (some { x with next := old })).setPc t (.spliceCas kh kt old)
  | .spliceCas kh kt old =>
    if ch.ok ∧ st.head = old then some ({ st with head := some kh }.setPc t .idle)
    else some (st.setPc t (.spliceNext kh kt st.head))

/-- A step of a worker or of a thread. -/
inductive Act
  | worker (w : Nat) (a : WorkerAct)
  | begin (t : Nat) (op : Op)
  | thread (t : Nat) (ch : Choice)

def step (n : Nat) (st : St) : Act → Option St
  | .worker w a => if w < n then workerStep st w a else none
  | .begin t op => begin st t op
  | .thread t ch => threadStep n st t ch

/-- The states that `n` workers and any number of threads can come to. -/
inductive Reach (n : Nat) : St → Prop
  | init : Reach n {}
  | step {st st' : St} (h : Reach n st) (a : Act) (ha : step n st a = some st') : Reach n st'

end DvbIpiTools.Dipixy.Qsbr
