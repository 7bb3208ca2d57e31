import DvbIpiTools.Bim.Codec.Decode.Simple

set_option autoImplicit false

/-! # Decoding elements (`decode/element.c`, `decode/any.c`)

The node that is filled goes in and comes out. Parts are finite trees, types are not: what is below a part is given the decoder of
elements as an argument, and `decElement` is cut off at a depth. -/

namespace DvbIpiTools.Bim

open Codec Cutoff

variable {σ : Type} (g : Graph) (o : DecodeOpts σ) (m : Modes)

/-! ## Substitutions and type codes -/

/-- A 32 bit `int` as a `uint64_t`. -/
def ofInt32 (n : Nat) : Nat := if n % 2 ^ 32 < 2 ^ 31 then n % 2 ^ 32 else n % 2 ^ 32 + (2 ^ 64 - 2 ^ 32)

/-- A flag that is 1 where it is not coded. -/
def optFlag (coded : Bool) : BitRd Bool := if coded then getFlag else pure true

/-- What `type_code` finds. -/
inductive TypeCode where
  | unchanged
  | deferred
  | nil
  | sub (i : Nat)

/-- `type_code`; the codes of a deferred and of a nil element come first. -/
def typeCode (nsubs : Nat) (flag nillable : Bool) : BitRd TypeCode := do
  let inc := m.deferred.toNat + nillable.toNat
  let coded ← optFlag flag
  if !coded || nsubs + inc = 0 then return .unchanged
  else
    let v ← getBits (bimWidth (ofInt32 (nsubs + inc)))
    require (v < nsubs + inc)
    return if m.deferred ∧ v = 0 then .deferred else if nillable ∧ v = m.deferred.toNat then .nil else .sub (v - inc)

/-- `bim_subtypes_find`. -/
def subtypesFind (sc : Schema) (t : Option TypeRef) : Option Subtypes := sc.subs.find? fun s => some s.base = t

/-- `bim_subtypes_find_x`: schemas compile imports separately, so the base of the same name counts as well. -/
def subtypesFindX (sc : Schema) (t : Option TypeRef) : Option Subtypes :=
  (subtypesFind sc t).or do
    let t ← t
    let name ← (g.types t).name
    sc.subs.find? fun s => (g.types s.base).name = some name && (g.types s.base).ns = (g.types t).ns

/-- `ext_subst` of an element. -/
def extSubst (e : ElemRef) : DecM σ Bool := match o.extSubst with
  | none => pure false
  | some f => fun d =>
    let (b, ctx) := f d.ctx e
    .ok (b, { d with ctx })

/-- An element of another schema, by its SchemaID. -/
def externalElem : BitRd ElemRef := do
  let id ← getBits (bimWidth o.nschemas)
  require (id < o.nschemas)
  let elems := (o.schemaAt id).elems
  let v ← getBits (bimWidth elems.length)
  Lax.lift elems[v]?

/-- A member of the substitution group. -/
def groupMember (substs : List ElemRef) : BitRd ElemRef := do
  require (substs ≠ [])
  let v ← getBits (bimWidth substs.length)
  Lax.lift substs[v]?

/-- The element that a substitution code stands for. -/
def substMember (ext : Bool) (substs : List ElemRef) : BitRd ElemRef := do
  let external ← rflag ext
  if external then externalElem o else groupMember substs

/-- The substitution of an element that refers to a global one. -/
def substOf (e : ElemRef) (ext : Bool) : BitRd (Option ElemRef) :=
  let substs := (g.elems e).substs
  if substs = [] ∧ !ext then return none
  else do
    let coded ← getFlag
    if coded then
      let sub ← substMember o ext substs
      return some sub
    else return none

/-- `subst_code`: ISO 23001-1 6.6.5.3 in a payload. -/
def substCode (p : Option ElemPart) : DecM σ (Option ElemRef) := match p.bind ElemPart.elem with
  | none => pure none
  | some e => do
    let ext ← extSubst o e
    rd (substOf g o e ext)

/-! ## Nodes -/

/-- `bim_node_new`. -/
def newNode (name ns : Option CStr) : BimNode := .mk name ns none [] []

def renameNode (e : BimElem) : BimNode → BimNode
  | .mk _ _ text attrs kids cast deferred => .mk (some e.name) e.ns text attrs kids cast deferred

def setText (s : CStr) : BimNode → BimNode
  | .mk name ns _ attrs kids cast deferred => .mk name ns (some s) attrs kids cast deferred

def setCast (t : TypeRef) : BimNode → BimNode
  | .mk name ns text attrs kids _ deferred => .mk name ns text attrs kids (some t) deferred

def setDeferred : BimNode → BimNode
  | .mk name ns text attrs kids cast _ => .mk name ns text attrs kids cast true

/-- `bim_node_add_attr_ns`. -/
def addNodeAttr (a : NodeAttr) : BimNode → DecM σ BimNode
  | .mk name ns text attrs kids cast deferred => do
    let attrs ← Run.lift (Lax.addAttr attrs a)
    return .mk name ns text attrs kids cast deferred

def xsiNs : CStr := CStr.ofBytes (text "http://www.w3.org/2001/XMLSchema-instance")

def setNil (k : BimNode) : DecM σ BimNode :=
  addNodeAttr { name := CStr.ofBytes (text "nil"), ns := some xsiNs, value := CStr.ofBytes (text "true") } k

/-- `string_resync`: the next string carries its offset, TS 102 323 table 58. -/
def stringResync : DecM σ Unit :=
  if o.mpegb then pure ()
  else Run.modify fun d => { d with src := { d.src with sr := d.src.sr.map fun sr => { sr with resync := true } } }

/-- With optimised decoders an element with a length has zlib chunks of its own. -/
def dropZbuf (boxed : Bool) : DecM σ Unit :=
  if boxed && o.aod.isSome then Run.modify fun d => { d with zrest := [], zpos := 0 } else pure ()

/-- `d->schema`. -/
def setSchema (schema : Nat) : DecM σ Unit := Run.modify fun d => { d with schema }

/-- `bim_width(nschemas)` bits that have to be a SchemaID. -/
def getSchemaId : BitRd Nat := do
  let id ← getBits (bimWidth o.nschemas)
  require (id < o.nschemas)
  return id

/-! ## Any attributes -/

/-- The lax attributes of `dec_any_attributes`. -/
def laxAttrs : Nat → BimNode → DecM σ BimNode
  | 0, node => pure node
  | k + 1, node => do
    let q ← rd countedBytes
    let value ← rd countedBytes
    let node ← addNodeAttr { name := CStr.ofBytes q, ns := none, value := CStr.ofBytes value } node
    laxAttrs k node

/-- A round over the attributes of one schema. -/
def knownAttr (n : Nat) (attrs : List Attr) (node : BimNode) : DecM σ (BimNode ⊕ BimNode) := do
  let code ← rd getV5
  let a ← Run.lift attrs[code]?
  let value ← decValueText g o n a.simple
  let node ← addNodeAttr { name := a.name, ns := a.ns, value } node
  let more ← rd getFlag
  return if more then .inl node else .inr node

/-- The attributes of the schema `id`, in `len` bits. -/
def schemaAttrs (n id len : Nat) (node : BimNode) : DecM σ BimNode :=
  let sc := o.schemaAt id
  if o.laxSchema = some id then do
    let count ← rd getV5
    laxAttrs count node
  else if sc.known ∧ sc.attrs ≠ [] then Run.iterate (knownAttr g o n sc.attrs) n node
  else do
    rd (skipBits len)
    return node

/-- The length in front of an any element and of the attributes of a schema, and what is left behind it. -/
def boxStart : BitRd (Nat × Nat) := do
  let len ← getV5
  let start ← bitsLeft
  require (len ≤ start)
  return (len, start)

/-- A round of `dec_any_attributes`. -/
def anyAttrsRound (n : Nat) (node : BimNode) : DecM σ (BimNode ⊕ BimNode) := do
  let id ← rd (getSchemaId o)
  let (len, start) ← rd boxStart
  let node ← schemaAttrs g o n id len node
  let now ← left
  Run.check (start - now = len)
  let more ← rd getFlag
  return if more then .inl node else .inr node

def decAnyAttributes (n : Nat) (node : BimNode) : DecM σ BimNode := do
  let present ← rd getFlag
  if present then Run.iterate (anyAttrsRound g o n) n node else return node

/-! ## Content -/

/-- `mixed_text`: shunt 0, or mixed 1 and a string. -/
def mixedText (n : Nat) (node : BimNode) : DecM σ BimNode := do
  let present ← rd getFlag
  if present then
    let schema ← Run.gets Dec.schema
    let s ← decValueText g o n ((o.schemaAt schema).string.getD .xsString)
    return Lax.addKid node (Lax.textNode s)
  else return node

/-- `mixed_text` in front of an element of mixed content. -/
def mixedBefore (n : Nat) (mixed : Bool) (node : BimNode) : DecM σ BimNode := if mixed then mixedText g o n node else return node

/-- The attributes of a type. -/
def decodeAttrs (n : Nat) : List Attr → BimNode → DecM σ BimNode
  | [], node => pure node
  | a :: attrs, node => do
    let present ← rd (optFlag !a.required)
    if present then
      let value ← decValueText g o n a.simple
      let node ← addNodeAttr { name := a.name, ns := a.ns, value } node
      decodeAttrs n attrs node
    else decodeAttrs n attrs node

/-- `occ_coding`: whether a presence bit comes first, and the width of the count, -1 is `none`. -/
def occCoding (p : Part) : Bool × Option Nat :=
  let shunt := p.min = 0 ∧ p.max ≥ 1
  if p.max ≤ 1 then (shunt, some 0)
  else if p.max = bimUnbounded ∨ (p.max + 2 ^ 64 - p.min) % 2 ^ 64 > 65535 then (shunt, none)
  else (shunt, some (bimWidth (p.max - p.min + 1)))

/-- The occurrences of a part. -/
def occurrences (p : Part) : BitRd Nat := do
  let (shunt, w) := occCoding p
  let present ← optFlag shunt
  if present && p.max = 1 then return 1
  else if present then
    let count ← getOffset w
    require (count ≤ 2 ^ 64 - 1 - p.min && (p.max = bimUnbounded || count + p.min ≤ p.max))
    return count + p.min
  else return 0

/-- A decoder of content that is added to a node. -/
abbrev Fill (σ : Type) := BimNode → DecM σ BimNode

/-- The last `k` of `count` occurrences: where there are several, each has to take something. -/
def occurLoop (one : Fill σ) (count : Nat) : Nat → Fill σ
  | 0, node => pure node
  | k + 1, node => do
    let bits ← left
    let spos ← Run.gets Dec.strPos
    let node ← one node
    let now ← left
    let pos ← Run.gets Dec.strPos
    Run.check (!(count > 1 && bits = now && spos = pos))
    occurLoop one count k node

/-- `decode_part`, with the decoder of one occurrence. -/
def decodePart (p : Part) (one : Fill σ) : Fill σ := fun node => do
  let count ← rd (occurrences p)
  occurLoop one count count node

/-- All the parts of a sequence. -/
def decodeSeq : List (Fill σ) → Fill σ
  | [], node => pure node
  | one :: parts, node => do
    let node ← one node
    decodeSeq parts node

/-- The branch of a choice. -/
def decodeChoice (parts : List (Fill σ)) : Fill σ := fun node => do
  let i ← rd (getBits (bimWidth parts.length))
  let one ← Run.lift parts[i]?
  one node

/-- The next of the parts that are left in `decode_all`. -/
def allIndex (n : Nat) : BitRd Nat :=
  if n > 1 then do
    let c ← getBits (bimWidth n)
    require (c < n && c < 64)
    return c
  else return 0

/-- The rounds of `decode_all`. -/
def decodeAllLoop : Nat → List (Fill σ) → Fill σ
  | 0, _, node => pure node
  | k + 1, parts, node => do
    let c ← rd (allIndex (k + 1))
    let one ← Run.lift parts[c]?
    let node ← one node
    decodeAllLoop k (parts.eraseIdx c) node

/-- `decode_all`: a tree of choices over the remaining children. -/
def decodeAll (parts : List (Fill σ)) : Fill σ := fun node => do
  Run.check (parts.length ≤ 64)
  decodeAllLoop parts.length parts node

/-! ## Children -/

/-- What `dec_element` is given: the part and the type of an element and its node. The result is the node and `deferred`. -/
abbrev ElemDec (σ : Type) := Option ElemPart → Option TypeRef → BimNode → DecM σ (BimNode × Bool)

section Below

variable (decElement : ElemDec σ)

/-- One element more, one level deeper. -/
def enter : DecM σ Unit := do
  let d ← Run.gets fun d => (d.nodes, d.level)
  Run.check (d.1 + 1 ≤ maxNodes && d.2 < elemDepthMax)
  Run.modify fun d => { d with nodes := d.nodes + 1, level := d.level + 1 }

def leave : DecM σ Unit := Run.modify fun d => { d with level := d.level - 1 }

def decAddChild (node : BimNode) (p : Option ElemPart) (t : Option TypeRef) (name : CStr) (ns : Option CStr) : DecM σ BimNode := do
  enter
  let (k, deferred) ← decElement p t (newNode (some name) ns)
  leave
  return Lax.addKid node (if deferred then setDeferred k else k)

/-- The lax events of an any element are read on a copy of the reader. -/
def laxElement (len : Nat) (node : BimNode) : BitRd BimNode := fun s => (Lax.decLax o.inflate len node s).map fun x => (x.1, s)

/-- An any element of a schema with global elements. -/
def knownElement (id : Nat) (node : BimNode) : DecM σ BimNode := do
  let code ← rd getV5
  let r ← Run.lift (o.schemaAt id).elems[code]?
  let schema ← Run.gets Dec.schema
  setSchema id
  let e := g.elems r
  let node ← decAddChild decElement node none e.type e.name e.ns
  setSchema schema
  return node

def decAnyElement (node : BimNode) : DecM σ BimNode := do
  let id ← rd (getSchemaId o)
  let (len, start) ← rd boxStart
  let sc := o.schemaAt id
  if o.laxSchema = some id then
    let node ← rd (laxElement o len node)
    rd (skipBits len)
    return node
  else if sc.known ∧ sc.elems ≠ [] then
    let node ← knownElement g o decElement id node
    let now ← left
    Run.check (start - now = len)
    return node
  else
    rd (skipBits len)
    return node

mutual

def decodeOne (n : Nat) (mixed : Bool) : Part → Fill σ
  | .elem e _ _ => fun node => do
    let node ← mixedBefore g o n mixed node
    decAddChild decElement node (some e) e.type e.name e.ns
  | .any _ _ _ => fun node => do
    let node ← mixedBefore g o n mixed node
    decAnyElement g o decElement node
  | .seq kids _ _ => decodeSeq (decoders n mixed kids)
  | .choice kids _ _ => decodeChoice (decoders n mixed kids)
  | .all kids _ _ => decodeAll (decoders n mixed kids)

/-- `decode_part` of each of the parts. -/
def decoders (n : Nat) (mixed : Bool) : List Part → List (Fill σ)
  | [] => []
  | p :: ps => decodePart p (decodeOne n mixed p) :: decoders n mixed ps

end

/-- The content of a type that is no simple one. -/
def decodeContent (n : Nat) (t : BimType) (node : BimNode) : DecM σ BimNode := match t.content, t.top with
  | .seq, some p => decodePart p (decodeOne g o decElement n t.mixed p) node
  | _, _ => pure node

/-- What a type with an attribute wildcard has besides its own attributes. -/
def anyAttributes (n : Nat) (anyattr : Bool) (node : BimNode) : DecM σ BimNode :=
  if anyattr then decAnyAttributes g o n node else pure node

/-- What follows the attributes. -/
def decodeRest (n : Nat) (t : BimType) (node : BimNode) : DecM σ BimNode := match t.content with
  | .simple s => do
    let v ← decValueText g o n s
    return setText v node
  | _ => do
    let node ← decodeContent g o decElement n t node
    mixedBefore g o n t.mixed node

def decodeBody (n : Nat) (t : TypeRef) (node : BimNode) : DecM σ BimNode := do
  let ty := g.types t
  let node ← decodeAttrs g o n ty.attrs node
  let node ← anyAttributes g o n ty.anyattr node
  decodeRest g o decElement n ty node

/-! ## Elements -/

/-- The element length of `decode_mono`, where there is one. -/
def monoLength : BitRd (Option Nat) :=
  if m.lenMode = 1 then do
    let hasLen ← getFlag
    optRd hasLen getV5
  else optRd (m.lenMode = 2) getV5

/-- An element whose name and type are settled. -/
structure Settled where
  node : BimNode
  type : Option TypeRef
  code : TypeCode

/-- The type code of an element. -/
def castCode (t : Option TypeRef) (nillable : Bool) : DecM σ (Option Subtypes × TypeCode) := do
  let schema ← Run.gets Dec.schema
  let s := if m.cast then subtypesFind (o.schemaAt schema) t else none
  if s.isSome || m.deferred || nillable then
    let code ← rd (typeCode m ((s.map fun s => s.subs.length).getD 0) true nillable)
    return (s, code)
  else return (s, .unchanged)

/-- The node with the subtype that it is cast to. -/
def castTo (node : BimNode) (t : Option TypeRef) : Option Subtypes × TypeCode → DecM σ Settled
  | (s, .sub i) => do
    let t ← Run.lift (s.bind fun s => s.subs[i]?)
    return ⟨setCast t node, some t, .sub i⟩
  | (_, code) => return ⟨node, t, code⟩

/-- Substitution and type code of an element that is not the top one. -/
def settle (p : Option ElemPart) (t : Option TypeRef) (k : BimNode) : DecM σ Settled := do
  let sub ← substCode g o p
  let e := sub.map g.elems
  let k := match e with
    | some e => renameNode e k
    | none => k
  let t := match e with
    | some e => e.type
    | none => t
  let nillable := match e with
    | some e => e.nillable
    | none => (p.map ElemPart.nillable).getD false
  let code ← castCode o m t nillable
  castTo k t code

/-- The content of an element, unless it is deferred or nil. -/
def monoBody (n : Nat) (x : Settled) : DecM σ BimNode := match x.code with
  | .deferred => pure x.node
  | .nil => setNil x.node
  | _ => do
    let t ← Run.lift x.type
    decodeBody g o decElement n t x.node

/-- What was read behind a length. -/
def checkLength (start : Nat) : Option Nat → DecM σ Unit
  | none => pure ()
  | some len => do
    let now ← left
    Run.check (start - now = len)
    dropZbuf o true
    stringResync o

/-- The top element has no substitution and no type code. -/
def settleUnlessTop (top : Bool) (p : Option ElemPart) (t : Option TypeRef) (k : BimNode) : DecM σ Settled :=
  if top then pure ⟨k, t, .unchanged⟩ else settle g o m p t k

def decodeMono (n : Nat) (top : Bool) (p : Option ElemPart) (t : Option TypeRef) (k : BimNode) : DecM σ (BimNode × Bool) := do
  let len ← rd (monoLength m)
  let start ← left
  let x ← settleUnlessTop g o m top p t k
  dropZbuf o len.isSome
  let node ← monoBody g o decElement n x
  checkLength o start len
  return (node, match x.code with
    | .deferred => true
    | _ => false)

/-- The variables of the loop of `decode_multi`. -/
structure Multi where
  node : BimNode
  type : Option TypeRef
  nillable : Bool
  first : Bool := true
  deferred : Bool := false

/-- The substitution of `decode_multi`; one of an unknown schema is ignored. -/
def multiSubst (x : Multi) (coded : Bool) : BitRd Multi :=
  if coded then do
    let id ← getSchemaId o
    let code ← getV5
    match (if (o.schemaAt id).known then (o.schemaAt id).elems[code]? else none) with
    | none => return x
    | some r =>
      let e := g.elems r
      return { x with node := renameNode e x.node, type := e.type, nillable := e.nillable }
  else return x

/-- The type whose content a chunk holds, where it holds any. -/
def chunkBody (x : Multi) (s : Option Subtypes) : TypeCode → Option (Option TypeRef)
  | .sub i =>
    if x.first then some (s.bind fun s => s.subs[i]?) else some ((s.bind Subtypes.deltas).bind fun deltas => deltas[i]?.join)
  | _ => if x.first then some x.type else none

/-- The content of a chunk. -/
def chunkContent (n : Nat) (node : BimNode) : Option (Option TypeRef) → DecM σ BimNode
  | none => pure node
  | some t => do
    let t ← Run.lift t
    decodeBody g o decElement n t node

/-- The type after a chunk. -/
def chunkCast (x : Multi) (s : Option Subtypes) : TypeCode → DecM σ Multi
  | .sub i => do
    let t ← Run.lift (s.bind fun s => s.subs[i]?)
    return { x with node := setCast t x.node, type := some t, first := false }
  | _ => return { x with first := false }

/-- A chunk of a known schema. -/
def multiChunk (n id : Nat) (x : Multi) : DecM σ Multi := do
  setSchema id
  let s := subtypesFindX g (o.schemaAt id) x.type
  let code ← rd (typeCode m ((s.map fun s => s.subs.length).getD 0) x.first (x.first && x.nillable))
  match code with
  | .nil => do
    let node ← setNil x.node
    return { x with node, first := false }
  | .deferred => return { x with deferred := true, first := false }
  | code => do
    let node ← chunkContent g o decElement n x.node (chunkBody x s code)
    chunkCast { x with node } s code

/-- The rest of the chunks, of which `taken` bits were read. -/
def skipChunks (len taken : Nat) : BitRd Unit := skipBits ((len + 2 ^ 64 - taken) % 2 ^ 64)

/-- All that is left of the chunks. -/
def skipRest (len start : Nat) : DecM σ Unit := do
  let now ← left
  rd (skipChunks len (start - now))

/-- The next chunk of `decode_multi`; those of an unknown schema and all behind a deferred one are skipped. -/
def nextChunk (n len start id : Nat) (x : Multi) : DecM σ (Multi ⊕ Multi) :=
  if !(o.schemaAt id).known || x.deferred then do
    skipRest len start
    return .inr x
  else do
    let x ← multiChunk g o m decElement n id x
    return .inl x

/-- A round of `decode_multi`. -/
def multiRound (n len start : Nat) (x : Multi) : DecM σ (Multi ⊕ Multi) := do
  let now ← left
  if start - now < len then
    let id ← rd (getSchemaId o)
    nextChunk g o m decElement n len start id x
  else return .inr x

def decodeMulti (n : Nat) (p : Option ElemPart) (t : Option TypeRef) (k : BimNode) : DecM σ (BimNode × Bool) := do
  let schema ← Run.gets Dec.schema
  let (len, start) ← rd boxStart
  let coded ← rd getFlag
  let x ← rd (multiSubst g o ⟨k, t, (p.map ElemPart.nillable).getD false, true, false⟩ coded)
  let x ← Run.iterate (multiRound g o m decElement n len start) n x
  let now ← left
  Run.check (start - now = len)
  setSchema schema
  stringResync o
  return (x.node, x.deferred)

/-- SchemaModeStatus: mono, or multi, or either of them with the schemas below frozen. -/
def schemaMode : BitRd (Bool × Bool) := do
  let b1 ← getFlag
  let b2 ← rflag b1
  let b3 ← rflag b2
  return (b1 && (!b2 || b3), b2)

/-- The schemas below are those of this element. -/
def freeze (frozen : Bool) : DecM σ Unit := if frozen then Run.modify fun d => { d with hot := false } else pure ()

/-- The mode of an element, `hot` only where several schemas are there. -/
def elementMode : DecM σ Bool := do
  let hot ← Run.gets Dec.hot
  if o.nschemas > 1 ∧ hot ∧ !o.noSchemaMode then
    let (multi, frozen) ← rd schemaMode
    freeze frozen
    return multi
  else return false

/-- An element in its mode. -/
def elementIn (multi : Bool) (n : Nat) (top : Bool) (p : Option ElemPart) (t : Option TypeRef) (k : BimNode) :
    DecM σ (BimNode × Bool) :=
  if multi then decodeMulti g o m decElement n p t k else decodeMono g o m decElement n top p t k

/-- `dec_element` of a payload without fragment references. -/
def elementStep (n : Nat) (top : Bool) (p : Option ElemPart) (t : Option TypeRef) (k : BimNode) : DecM σ (BimNode × Bool) := do
  let hot ← Run.gets Dec.hot
  let multi ← elementMode o
  let x ← elementIn g o m decElement multi n top p t k
  Run.modify fun d => { d with hot }
  return x

end Below

/-- `dec_element` below the top element. -/
def decElement : Nat → ElemDec σ
  | 0 => fun _ _ _ => Run.deeper
  | n + 1 => elementStep g o m (decElement n) n false

end DvbIpiTools.Bim
