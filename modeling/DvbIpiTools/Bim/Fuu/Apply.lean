import DvbIpiTools.Bim.Codec.Schema
import DvbIpiTools.Bim.DecoderInit.Model
import DvbIpiTools.Utils.IdTree

set_option autoImplicit false

/-! # Fragment update commands on the document (`fuu/apply.c`)

The document is a tree whose nodes have an identity, their address, because the machine keeps node
pointers (`ctx`) from one update to the next: following a pointer to a freed node is a `fault` of the
model, like every other access the C program has no right to. Nodes come from `bim_node_new` or from
a decoded payload, always at addresses never used before, so a freed node's identity does not come
back. Errors keep the state they happened in (`EStateM`): an update that fails half-way keeps what it
did so far. Allocation succeeds. -/

namespace DvbIpiTools.Bim.Fuu

/-- `bim_tbc_kind_t`. -/
inductive TbcKind where
  | elem
  | attr
  | simple
  | chardata
  | parent
  | pathEnd
deriving DecidableEq

/-- `bim_tbc_t`. `type` is NULL only on an END step, where it is not read. -/
structure Tbc where
  kind : TbcKind
  name : Option CStr := none
  ns : Option CStr := none
  type : TypeRef := 0
  hasPos : Bool := false

/-- `BIM_CMD_*`. -/
inductive Command where
  | add
  | replace
  | delete
  | reset
deriving DecidableEq

/-- One payload of a FUU: its row of `pos`, and its entry of `payloads` or `values`. -/
structure Row where
  pos : List Nat
  payload : Option BimNode := none
  value : Option CStr := none

/-- What `bim_fuu_parse` provides for each payload: a position for every TBC, an operand TBC, and the
payload or value that operand needs. -/
def rowOk (cmd : Command) (tbcs : List Tbc) (r : Row) : Bool :=
  r.pos.length = tbcs.length && match tbcs.getLast? with
    | none => false
    | some op => match op.kind with
      | .elem => cmd = .delete || r.payload.isSome
      | .attr => op.name.isSome && (cmd = .delete || r.value.isSome)
      | .simple => cmd = .delete || r.value.isSome
      | .chardata => cmd = .delete || r.value.isSome
      | _ => false

/-- `bim_fuu_t`. -/
structure BimFuu where
  command : Command
  schema : Nat := 0
  mode : Nat := 1
  userData : Bool := false
  tbcs : List Tbc := []
  rows : List Row := []
  rows_ok : ∀ r ∈ rows, rowOk command tbcs r = true := by decide

/-! ## Document nodes -/

/-- An address. -/
abbrev NodeId := Nat

/-- The fields of a document node beside its address and children. -/
structure NodeData where
  name : Option CStr
  ns : Option CStr := none
  text : Option CStr := none
  attrs : List NodeAttr := []
  pos : Nat := 0
  posSet : Bool := false

/-- `bim_node_t` in the document. -/
abbrev Node := IdTree NodeData

mutual

/-- A decoded payload at the addresses from `n` on, and the next free address. -/
def label : BimNode → Nat → Node × Nat
  | .mk name ns text attrs kids _ _, n =>
    (.node n { name, ns, text, attrs } (labelKids kids (n + 1)).1, (labelKids kids (n + 1)).2)

/-- `label` of a list of nodes, one after the other. -/
def labelKids : List BimNode → Nat → List Node × Nat
  | [], n => ([], n)
  | k :: ks, n => ((label k n).1 :: (labelKids ks (label k n).2).1, (labelKids ks (label k n).2).2)

end

/-! ## The machine -/

/-- What stays fixed while updates are applied: DecoderInit and the compiled types. -/
structure Env where
  di : DecoderInit
  types : TypeRef → BimType

/-- The nodes of a context path from the topmost on, with their effective types. -/
abbrev Chain := List (NodeId × TypeRef)

/-- `bim_fuu_state_t`: `doc`, `ctx` with `ctx_type`, `last_schema`; `next` is the next address that was
never used. -/
structure FuuState where
  doc : Option Node := none
  ctx : Chain := []
  lastSchema : Nat := 0
  next : Nat := 0

/-- How a call ends other than normally: an error it reports, or an access outside live data. -/
inductive Fail where
  | err (e : BimErr)
  | fault

abbrev FuuM (α : Type) := EStateM Fail FuuState α

/-- `state`: a FUU that does not fit the document. -/
def state {α : Type} (what : String) : FuuM α :=
  throw (.err (bimFail "LE400306" (text "bim: FUU " ++ text what)))

/-- Reports `what` if `c`. -/
def stateIf (c : Bool) (what : String) : FuuM Unit := if c then state what else pure ()

/-- Reads the node at an address. -/
def deref (p : NodeId) : FuuM Node := fun s =>
  match s.doc.bind (·.find? p) with
  | some n => .ok n s
  | none => .error .fault s

/-- Writes the node at an address. -/
def store (p : NodeId) (n : Node) : FuuM Unit := fun s => .ok () { s with doc := s.doc.map (IdTree.set p n) }

/-- `bim_node_new` and the fields its callers set. -/
def nodeNew (d : NodeData) : FuuM Node := fun s => .ok (.node s.next d []) { s with next := s.next + 1 }

/-- Takes a decoded payload out of the FUU. -/
def takePayload (t : BimNode) : FuuM Node := fun s =>
  .ok (label t s.next).1 { s with next := (label t s.next).2 }

/-! ## Positions of children -/

/-- `same_name`, on the fields of a node. -/
def sameName (k : NodeData) (name ns : Option CStr) : Bool :=
  match k.name, name with
  | some kn, some n => kn = n && ns = k.ns
  | none, none => true
  | _, _ => false

/-- `sbc_index`: the first SBC entry of the expanded name, the number of entries if there is none. -/
def sbcIndex (pt : BimType) (name ns : Option CStr) : Nat :=
  match name with
  | none => pt.sbc.length
  | some n => pt.sbc.findIdx fun e => e.name = some n && e.ns = ns

mutual

def multiGroup : Part → Bool
  | .elem _ _ _ => false
  | .any _ _ _ => false
  | .all _ _ _ => true
  | .seq kids _ max => max > 1 || multiGroupAny kids
  | .choice kids _ max => max > 1 || multiGroupAny kids

/-- `multi_group` of some part. -/
def multiGroupAny : List Part → Bool
  | [] => false
  | k :: ks => multiGroup k || multiGroupAny ks

end

/-- `bim_fuu_uses_mpc`: multiple position codes, one position space for all children. -/
def usesMpc (env : Env) (t : TypeRef) : Bool :=
  env.di.mpcOnly || (env.types t).mixed || ((env.types t).top.map multiGroup).getD false

/-- The second loop of `rat_implicit`: `left` positions to go, two steps apart. -/
def ratTail (step : Nat) : Nat → Nat → List Nat
  | 0, _ => []
  | left + 1, p => (p + 2 * step) % 2 ^ 64 :: ratTail step left ((p + 2 * step) % 2 ^ 64)

/-- The first loop of `rat_implicit` from position `i` on, one step apart. -/
def ratHead (z n step : Nat) : Nat → Nat → Nat → List Nat
  | 0, _, _ => []
  | left + 1, i, p =>
    if i ≤ (3 * z + 2 ^ 64 - n + 3) % 2 ^ 64 / 2 || i % 2 = 0 then
      (p + step) % 2 ^ 64 :: ratHead z n step left (i + 1) ((p + step) % 2 ^ 64)
    else ratTail step (left + 1) p

/-- `rat_implicit`: rational positions of `z` consecutive nodes. -/
def ratImplicit (z : Nat) : List Nat :=
  let b := bimWidth (z + 1)
  let step := if b ≥ 64 then 1 else 2 ^ (64 - b)
  let n := 2 ^ (if b < 63 then b else 63)
  ratHead z n step z 0 0

/-- Whether `o` and `k` share a position space. -/
def sameSpace (mpc : Bool) (o k : NodeData) : Bool := mpc || sameName o k.name k.ns

/-- The position `materialize` gives child `i` of `kids`, whose fields are `k`. -/
def implicitPos (insert mpc : Bool) (kids : List Node) (i : Nat) (k : NodeData) : FuuM Nat := do
  let idx := (kids.take i).countP fun o => sameSpace mpc o.val k
  let z := kids.countP fun o => sameSpace mpc o.val k
  if insert then do
    stateIf (idx ≥ z) "position index out of range"
    return (ratImplicit z).getD idx 0
  else return idx

/-- The loop of `materialize` from child `i` on. -/
def materializeFrom (insert mpc : Bool) (kids : List Node) : Nat → List Node → FuuM (List Node)
  | _, [] => return []
  | i, .node id d below :: rest => do
    if d.posSet then
      let rest ← materializeFrom insert mpc kids (i + 1) rest
      return .node id d below :: rest
    else do
      let pos ← implicitPos insert mpc kids i d
      let rest ← materializeFrom insert mpc kids (i + 1) rest
      return .node id { d with pos, posSet := true } below :: rest

/-- `materialize`: children of a payload get positions in document order. -/
def materialize (env : Env) (p : NodeId) (pt : TypeRef) : FuuM Unit := do
  let parent ← deref p
  let kids ← materializeFrom env.di.insert (usesMpc env pt) parent.kids 0 parent.kids
  store p (.node parent.id parent.val kids)

/-- What `find_child` reports: index, -1 absent, -3 position taken by another element. -/
inductive Lookup where
  | found (i : Nat)
  | absent
  | taken
deriving DecidableEq

/-- The loop of `find_child` from child `i` on. -/
def lookup (mpc : Bool) (t : Tbc) (pos : Nat) : Nat → List Node → Lookup
  | _, [] => .absent
  | i, k :: ks =>
    let same := sameName k.val t.name t.ns
    if !t.hasPos then
      if same then .found i else lookup mpc t pos (i + 1) ks
    else if k.val.pos ≠ pos || (!same && !mpc) then lookup mpc t pos (i + 1) ks
    else if same then .found i else .taken

def findChild (env : Env) (p : NodeId) (pt : TypeRef) (t : Tbc) (pos : Nat) : FuuM Lookup := do
  materialize env p pt
  let parent ← deref p
  return lookup (usesMpc env pt) t pos 0 parent.kids

/-- The test of `insert_child` that stops before `o`. -/
def sortsAfter (pt : BimType) (mpc : Bool) (o k : NodeData) : Bool :=
  if mpc then o.pos > k.pos
  else
    let oi := sbcIndex pt o.name o.ns
    let ki := sbcIndex pt k.name k.ns
    oi > ki || (oi = ki && o.pos > k.pos)

/-- The loop and the move of `insert_child`: `k` before the first child that sorts after it. -/
def insertKid (pt : BimType) (mpc : Bool) (k : Node) : List Node → List Node
  | [] => [k]
  | o :: os => if sortsAfter pt mpc o.val k.val then k :: o :: os else o :: insertKid pt mpc k os

/-- `insert_child`: MPC by position, SPC by SBC index then position. -/
def insertChild (env : Env) (p : NodeId) (pt : TypeRef) (k : Node) : FuuM Unit := do
  let parent ← deref p
  store p (.node parent.id parent.val (insertKid (env.types pt) (usesMpc env pt) k parent.kids))

def removeChild (p : NodeId) (i : Nat) : FuuM Unit := do
  let parent ← deref p
  store p (.node parent.id parent.val (parent.kids.eraseIdx i))

/-! ## Operands -/

def findAttr (attrs : List NodeAttr) (name : CStr) (ns : Option CStr) : Option Nat :=
  attrs.findIdx? fun a => a.name = name && a.ns = ns

/-- `bim_node_add_attr_ns`: a second attribute of the name is dropped. -/
def addAttrNs (attrs : List NodeAttr) (ns : Option CStr) (name value : CStr) : List NodeAttr :=
  if attrs.any fun a => a.name = name && a.ns = ns then attrs else attrs ++ [⟨name, ns, value⟩]

/-- The attributes of a node after the command. -/
def attrsAfter (attrs : List NodeAttr) (t : Tbc) (name : CStr) (cmd : Command) (v : Option CStr) :
    FuuM (List NodeAttr) := do
  let i := findAttr attrs name t.ns
  stateIf ((cmd = .add) != i.isNone)
    (if cmd = .add then "AddContent on instantiated attribute" else "attribute not instantiated")
  let left := match i with
    | some i => attrs.eraseIdx i
    | none => attrs
  if cmd = .delete then return left
  match v with
  | some v => return addAttrNs left t.ns name v
  | none => throw .fault

def opAttr (p : NodeId) (t : Tbc) (cmd : Command) (v : Option CStr) : FuuM Unit := do
  let n ← deref p
  match t.name with
  | none => throw .fault
  | some name =>
    let attrs ← attrsAfter n.val.attrs t name cmd v
    store p (.node n.id { n.val with attrs } n.kids)

def opText (p : NodeId) (cmd : Command) (v : Option CStr) : FuuM Unit := do
  let n ← deref p
  stateIf ((cmd = .add) != n.val.text.isNone)
    (if cmd = .add then "AddContent on instantiated content" else "content not instantiated")
  let text := if cmd = .delete then none else v
  store p (.node n.id { n.val with text } n.kids)

/-- The node `op_child` puts in: a text node, or the payload. -/
def operandNode (op : Tbc) (row : Row) : FuuM Node :=
  if op.kind = .chardata then nodeNew { name := none, text := row.value }
  else match row.payload with
    | some t => takePayload t
    | none => throw .fault

/-- A node at an explicit position. -/
def placed (pos : Nat) : Node → Node
  | .node id d kids => .node id { d with pos, posSet := true } kids

/-- The position `op_child` uses for the operand. -/
def operandPos (op : Tbc) (row : Row) : Nat := if op.hasPos then row.pos.getLast?.getD 0 else 0

/-- The end of `op_child`, from `remove_child` on. -/
def editChild (env : Env) (cmd : Command) (op : Tbc) (row : Row) (p : NodeId) (pt : TypeRef)
    (idx : Option Nat) : FuuM Unit := do
  match idx with
  | some i => removeChild p i
  | none => pure ()
  if cmd = .delete then return ()
  else do
    let k ← operandNode op row
    insertChild env p pt (placed (operandPos op row) k)

def opChild (env : Env) (cmd : Command) (op : Tbc) (row : Row) (p : NodeId) (pt : TypeRef) :
    FuuM Unit := do
  match ← findChild env p pt op (operandPos op row) with
  | .taken => state "AddContent on instantiated node"
  | .found i => do
    stateIf (cmd = .add) "AddContent on instantiated node"
    editChild env cmd op row p pt (some i)
  | .absent => do
    stateIf (cmd ≠ .add) "operand node not instantiated"
    editChild env cmd op row p pt none

/-- The document `op_topmost` leaves. -/
def topmostDoc (f : BimFuu) (row : Row) : FuuM (Option Node) :=
  if f.command = .delete then return none
  else match row.payload with
    | some t => do return some (← takePayload t)
    | none => return none

def opTopmost (f : BimFuu) (op : Tbc) (row : Row) : FuuM Unit := do
  stateIf (op.kind ≠ .elem) "topmost operand not an element"
  let doc := (← get).doc
  stateIf (f.command ≠ .replace && doc.any fun d => !sameName d.val op.name op.ns) "topmost node differs"
  stateIf ((f.command = .add) != doc.isNone)
    (if doc.isSome then "AddContent on instantiated node" else "operand node not instantiated")
  let doc ← topmostDoc f row
  modify fun s => { s with doc, ctx := [], lastSchema := f.schema }

/-! ## Context path -/

def bimCtxMax : Nat := 64

/-- `kids[idx]` of a node. -/
def kidAt (p : NodeId) (i : Nat) : FuuM NodeId := do
  match (← deref p).kids[i]? with
  | some k => return k.id
  | none => throw .fault

/-- The node of an ELEM step below `p`, created for AddContent. -/
def contextChild (env : Env) (cmd : Command) (p : NodeId) (pt : TypeRef) (t : Tbc) (pos : Nat) :
    FuuM NodeId := do
  match ← findChild env p pt t pos with
  | .taken => state "position taken by another element"
  | .found i => kidAt p i
  | .absent => do
    stateIf (cmd ≠ .add) "context node not instantiated"
    let k ← nodeNew { name := t.name, ns := t.ns, pos := if t.hasPos then pos else 0, posSet := true }
    insertChild env p pt k
    match ← findChild env p pt t pos with
    | .found i => kidAt p i
    | _ => throw .fault

/-- A step of the loop of `descend` that goes to a child. -/
def descendElem (env : Env) (cmd : Command) (chain : Chain) (t : Tbc) (pos : Nat) : FuuM Chain := do
  stateIf (chain.length ≥ bimCtxMax) "context path too deep"
  match chain.getLast? with
  | none => throw .fault
  | some (p, pt) => do
    let k ← contextChild env cmd p pt t pos
    return chain ++ [(k, t.type)]

/-- One step of the loop of `descend`. -/
def descendStep (env : Env) (cmd : Command) (chain : Chain) (t : Tbc) (pos : Nat) : FuuM Chain :=
  match t.kind with
  | .pathEnd => return chain
  | .parent => do
    stateIf (chain.length < 2) "Reference to Parent above topmost node"
    return chain.dropLast
  | _ => descendElem env cmd chain t pos

/-- The loop of `descend`. -/
def descendLoop (env : Env) (cmd : Command) : List (Tbc × Nat) → Chain → FuuM Chain
  | [], chain => return chain
  | (t, pos) :: rest, chain => do
    let chain ← descendStep env cmd chain t pos
    descendLoop env cmd rest chain

/-- The topmost node of an absolute path, created for AddContent. -/
def descendRoot (cmd : Command) (t : Tbc) : FuuM NodeId := do
  match (← get).doc with
  | none => do
    stateIf (cmd ≠ .add) "context node not instantiated"
    let n ← nodeNew { name := t.name, ns := t.ns }
    modify fun s => { s with doc := some n }
    return n.id
  | some d => do
    stateIf (!sameName d.val t.name t.ns) "topmost node differs"
    return d.id

/-- Modes that address relative to the context of the last FUU. -/
def BimFuu.relative (f : BimFuu) : Bool := f.mode = 2 || f.mode = 4

/-- The context TBCs of the path with their positions. -/
def BimFuu.steps (f : BimFuu) (row : Row) : List (Tbc × Nat) := (f.tbcs.zip row.pos).dropLast

/-- `descend`: context nodes along the path. -/
def descend (env : Env) (f : BimFuu) (row : Row) (chain : Chain) : FuuM Chain :=
  if f.relative then descendLoop env f.command (f.steps row) chain
  else match f.tbcs with
    | [] => throw .fault
    | t :: _ => do
      let root ← descendRoot f.command t
      descendLoop env f.command ((f.steps row).drop 1) [(root, t.type)]

/-- The command on the operand below the end of the chain. -/
def operate (env : Env) (f : BimFuu) (op : Tbc) (row : Row) (chain : Chain) : FuuM Unit :=
  match chain.getLast? with
  | none => state "context path empty"
  | some (p, pt) =>
    match op.kind with
    | .attr => opAttr p op f.command row.value
    | .simple => opText p f.command row.value
    | _ => opChild env f.command op row p pt

/-- The part of `apply_one` from `descend` on. -/
def applyAt (env : Env) (f : BimFuu) (op : Tbc) (row : Row) (chain : Chain) : FuuM Unit := do
  let chain ← descend env f row chain
  operate env f op row chain
  modify fun s => { s with ctx := chain, lastSchema := f.schema }

def applyOne (env : Env) (f : BimFuu) (row : Row) : FuuM Unit :=
  match f.tbcs.head?, f.tbcs.getLast? with
  | some first, some op =>
    if f.relative then do
      let ctx := (← get).ctx
      stateIf ctx.isEmpty "relative addressing without context node"
      applyAt env f op row ctx
    else if first.kind = .pathEnd then opTopmost f op row
    else applyAt env f op row []
  | _, _ => throw .fault

/-- The payload loop of `bim_fuu_apply`. -/
def applyRows (env : Env) (f : BimFuu) : List Row → FuuM Unit
  | [] => return ()
  | row :: rest => do
    applyOne env f row
    applyRows env f rest

def bimFuuApply (env : Env) (f : BimFuu) : FuuM Unit :=
  if f.command = .reset then modify fun s => { s with doc := none, ctx := [] }
  else if f.userData then return ()
  else applyRows env f f.rows

/-- The state after a call, whether it succeeded or failed. -/
def stateAfter {α : Type} (m : FuuM α) (s : FuuState) : FuuState :=
  match m s with
  | .ok _ s' => s'
  | .error _ s' => s'

/-- States that calls of `bim_fuu_apply` lead to from the empty state. -/
inductive Reachable (env : Env) : FuuState → Prop where
  | empty : Reachable env {}
  | apply {s : FuuState} (f : BimFuu) (h : Reachable env s) :
    Reachable env (stateAfter (bimFuuApply env f) s)

end DvbIpiTools.Bim.Fuu
