import DvbIpiTools.Utils.Cutoff
import DvbIpiTools.Bim.Codec.DvbTypes
import DvbIpiTools.Bim.Codec.Integers
import DvbIpiTools.Bim.Codec.Lax.Model

set_option autoImplicit false

/-! # The decoder's context (`codec.h`, `decode/priv.h`)

The options of a decoder, the modes of a payload and what changes while it is read. `void *ctx` of the callbacks is a state of a type of
their own, which they may change. Floating point numbers are printed by the C library: their texts are part of the context. -/

namespace DvbIpiTools.Bim

open Codec Cutoff

/-! ## Options -/

/-- `bim_aod_kind_t`. -/
inductive AodKind where
  | zlib
  | uq
  | nuq
  | qname
deriving DecidableEq

/-- `bim_aod_inst_t` without its bounds, which only the dequantizer looks at. -/
structure AodInst where
  kind : AodKind
  nbits : Nat := 0
  nbitsData : Nat := 0
  nchar : Nat := 0
  /-- One row of `2 ^ nbitsData` codes for each characteristic. -/
  codes : List Nat := []

/-- `bim_aod_map_t`: the decoders of a simple type and of those that restrict it. -/
structure AodMap where
  simple : SimpleRef
  preserve : Bool
  inst : List Nat

/-- `bim_aod_t` without the counters of its instances. -/
structure Aod where
  insts : List AodInst
  maps : List AodMap

/-- The texts of floating point numbers. -/
structure FloatTexts where
  /-- `%.9g` of a single's bits. -/
  single : Nat → List UInt8
  /-- `%.17g` of a double's bits. -/
  double : Nat → List UInt8
  /-- `bim_aod_dequant` of an instance's code of the given width, as a single or a double. -/
  dequant : Nat → Nat → Nat → Bool → List UInt8

/-- `bim_decode_opts_t`; the default is what the decoder does without options. -/
structure DecodeOpts (σ : Type) where
  /-- None: one schema without tables. -/
  schemas : List Schema := []
  inflate : Option Lax.Inflate := none
  mpegb : Bool := false
  /-- `BIM_COMPAT_NO_SCHEMA_MODE`. -/
  noSchemaMode : Bool := false
  /-- `BIM_COMPAT_M7_FLAGS`. -/
  m7Flags : Bool := false
  /-- -1: none. -/
  laxSchema : Option Nat := none
  fragFormats : List Nat := []
  /-- The payload of a fragment reference. -/
  resolve : Option (σ → CStr → Nat → Option (List UInt8) × σ) := none
  extSubst : Option (σ → ElemRef → Bool × σ) := none
  aod : Option Aod := none
  schemaPrefix : List (Option CStr) := []
  cs : Option DvbCs := none
  /-- 0: `ZLIB_BUF_MAX`. -/
  zbufSize : Nat := 0
  floats : FloatTexts

/-- `d->schemas`. -/
def DecodeOpts.schemaList {σ : Type} (o : DecodeOpts σ) : List Schema := if o.schemas = [] then [{}] else o.schemas

def DecodeOpts.nschemas {σ : Type} (o : DecodeOpts σ) : Nat := o.schemaList.length

/-- `d->schemas[id]`. -/
def DecodeOpts.schemaAt {σ : Type} (o : DecodeOpts σ) (id : Nat) : Schema := o.schemaList.getD id {}

/-- The size of the buffer of zlib strings, `ZLIB_BUF_MAX` by default. -/
def DecodeOpts.zcap {σ : Type} (o : DecodeOpts σ) : Nat := if o.zbufSize = 0 then 1000 else o.zbufSize

def zlibChunkMax (size : Nat) : Nat := size + size / 256 + 64

/-- DecodingModes of a payload. -/
structure Modes where
  lenMode : Nat := 0
  deferred : Bool := false
  cast : Bool := false
deriving DecidableEq

/-! ## The decoder -/

/-- What changes in `dec_t` and behind its pointers. -/
structure Dec (σ : Type) where
  src : Source
  st : DvbState := {}
  nodes : Nat := 0
  /-- The schema of the current element. -/
  schema : Nat := 0
  /-- SchemaModeStatus. -/
  hot : Bool := true
  /-- The nesting of elements. -/
  level : Nat := 0
  /-- The bytes of the last zlib chunk that are not delivered yet, and how many are. -/
  zrest : List UInt8 := []
  zpos : Nat := 0
  /-- `counter` of each instance. -/
  counters : List Nat := []
  ctx : σ

/-- A step of the decoder. -/
abbrev DecM (σ : Type) : Type → Type := Run (Dec σ)

variable {σ α : Type}

/-- A reader of the payload and its strings. -/
def ofSrc (p : SrcRd α) : DecM σ α := fun d => match p d.src with
  | none => .failed
  | some (a, src) => .ok (a, { d with src })

/-- A reader of the payload. -/
def rd (p : BitRd α) : DecM σ α := ofSrc (ofBits p)

/-- `bitreader_skip`. -/
def skipBits (n : Nat) : BitRd Unit := fun s => if n ≤ s.length then some ((), s.drop n) else none

/-- `bitreader_bits_left`. -/
def left : DecM σ Nat := Run.gets fun d => d.src.bits.length

def Dec.strPos (d : Dec σ) : Nat := (d.src.sr.map StrReader.pos).getD d.zpos

/-- `ELEM_DEPTH_MAX`: element nesting, as XML parser. -/
def elemDepthMax : Nat := 256

/-! # Decoding values (`decode/simple.c`, `decode/aod.c`)

`dec_text` goes from a simple type to its items and members through the graph of the simple types. Everything else is given the decoder
of the types below as an argument, so that only `decText` is cut off at a depth. -/

variable {σ : Type} (g : Graph) (o : DecodeOpts σ)

/-! ## Strings of a zlib stream -/

/-- The next chunk of `dec_zstring`. -/
def zlibChunk (inflate : Lax.Inflate) : BitRd (List UInt8) := do
  let clen ← getV8
  require (clen ≠ 0 && clen ≤ zlibChunkMax o.zcap)
  let data ← Stream.getBytes clen
  match inflate data o.zcap with
  | none => failure
  | some out =>
    require (out ≠ [])
    return out

/-- The buffer is filled when all of it is delivered. -/
def zlibFill : DecM σ Unit := do
  let z ← Run.gets Dec.zrest
  if z = [] then
    let inflate ← Run.lift o.inflate
    let zrest ← rd (zlibChunk o inflate)
    Run.modify fun d => { d with zrest, zpos := 0 }
  else pure ()

/-- A round of `dec_zstring`: up to the next terminator, or all there is. -/
def zstringRound (text : List UInt8) : DecM σ (List UInt8 ⊕ List UInt8) := do
  zlibFill o
  let z ← Run.gets Dec.zrest
  let s := z.takeWhile (· ≠ 0)
  if 0 ∈ z then
    Run.modify fun d => { d with zrest := z.drop (s.length + 1), zpos := d.zpos + s.length + 1 }
    return .inr (text ++ s)
  else
    Run.modify fun d => { d with zrest := [], zpos := d.zpos + z.length }
    return .inl (text ++ z)

def decZstring (n : Nat) : DecM σ (List UInt8) := Run.iterate (zstringRound o) n []

/-! ## Plain values -/

/-- The digits of `binary_render`. -/
def upperHex (b : UInt8) : List UInt8 :=
  let digits := text "0123456789ABCDEF"
  [digits.getD (b.toNat / 16) 0, digits.getD (b.toNat % 16) 0]

def binaryRender (hex : Bool) : BitRd (List UInt8) := do
  let nbits ← getV5
  let left ← bitsLeft
  require (nbits % 8 = 0 && nbits / 8 ≤ left / 8)
  let raw ← Stream.getBytes (nbits / 8)
  return if hex then raw.flatMap upperHex else base64Encode raw

/-- `take_text`, and the bytes of `utf8_render` and `qname_text`: a count of them first. -/
def countedBytes : BitRd (List UInt8) := do
  let n ← getV5
  let left ← bitsLeft
  require (n ≤ left / 8)
  Stream.getBytes n

def utf8Render : BitRd (List UInt8) := do
  let s ← countedBytes
  require (0 ∉ s)
  return s

/-- `BIM_ENUM`. -/
def enumRender (values : List CStr) : BitRd (List UInt8) := do
  let v ← getBits (bimWidth values.length)
  match values[v]? with
  | none => failure
  | some s => return s.val

/-- A step on the state of dates and locators. -/
def withState {α : Type} (p : DvbState → SrcRd (α × DvbState)) : DecM σ α := do
  let st ← Run.gets Dec.st
  let (a, st) ← ofSrc (p st)
  Run.modify fun d => { d with st }
  return a

/-- `BIM_TERMREF`: without a repository no form of it is read. -/
def termRender : SrcRd (List UInt8) := do
  let src ← get
  if src.sr = none then failure else controlledTermDecode o.cs

/-- The codecs of `dec_plain` that are not made of others. -/
def atomRender (n : Nat) (a : Atom) (f : Facets) : DecM σ (List UInt8) := match a with
  | .utf8 => rd utf8Render
  | .boolean => do
    let v ← rd getFlag
    return if v then text "true" else text "false"
  | .float => do
    let v ← rd (getBits 32)
    return o.floats.single v
  | .double => do
    let v ← rd (getBits 64)
    return o.floats.double v
  | .hexbin => rd (binaryRender true)
  | .base64 => rd (binaryRender false)
  | .range r => rd (decodeRange r)
  | .svlu5 => rd decodeSvlu5
  | .enum values => rd (enumRender values)
  | .string => do
    let s ← ofSrc dvbString
    return s.val
  | .zstring => decZstring o n
  | .locator => withState locatorDecode
  | .datetime | .pubtime => withState fun st => ofBits (datetimeDecode st)
  | .duration => ofSrc durationDecode
  | .termref => ofSrc (termRender o)
  | .tvaDatetime => rd tvaDatetimeDecode
  | .tvaDate => rd tvaDateDecode
  | .m7Timepoint => rd (m7TimepointDecode o.m7Flags f)
  | .m7Duration => rd (m7DurationDecode o.m7Flags f)
  | .unsupported => Run.fail

section Composed

variable (decText : SimpleRef → DecM σ (List UInt8))

/-- The loop of `list_render` over the last `k` of `n` items. -/
def listItemsLoop (item : SimpleRef) (n : Nat) : Nat → DecM σ (List UInt8)
  | 0 => pure []
  | k + 1 => do
    let bits ← left
    let s ← decText item
    let now ← left
    Run.check (!(bits = now && n > maxNodes))
    let rest ← listItemsLoop item n k
    return (if k + 1 < n then [32] else []) ++ s ++ rest

/-- `BIM_UNION` of `dec_plain`. -/
def unionRender (members : List SimpleRef) : DecM σ (List UInt8) := do
  let v ← rd (getBits (bimWidth members.length))
  let m ← Run.lift members[v]?
  decText m

def decPlain (n : Nat) (s : SimpleRef) : DecM σ (List UInt8) :=
  let x := g.simple s
  match x.codec with
  | .atom a => atomRender o n a x.facets
  | .list item range unbounded => do
    let count ← rd (decListCount range unbounded)
    listItemsLoop decText item count count
  | .union members => unionRender decText members

/-! ## Advanced optimised decoders -/

/-- The code of an instance of a NUQ, by its characteristic. -/
def AodInst.code (i : AodInst) (counter q : Nat) : Nat := i.codes.getD (counter * 2 ^ i.nbitsData + q) 0

def quantText (isDouble : Bool) (k : Nat) (i : AodInst) : DecM σ (List UInt8) :=
  if i.kind = .uq then do
    let q ← rd (getBits i.nbits)
    return o.floats.dequant k q i.nbits isDouble
  else do
    let q ← rd (getBits i.nbitsData)
    let counter ← Run.gets fun d => d.counters.getD k 0
    Run.modify fun d => { d with counters := d.counters.set k ((counter + 1) % i.nchar) }
    return o.floats.dequant k (i.code counter q) i.nbits isDouble

def qnNameChar (c : UInt8) : Bool :=
  (48 ≤ c && c ≤ 57) || (65 ≤ c && c ≤ 90) || (97 ≤ c && c ≤ 122) || c = 95 || c = 45 || c = 46

/-- The prefix that stands for a number and its colon. -/
def schemaPrefixAt (ds : List UInt8) : Option CStr :=
  if decValue ds < o.nschemas then o.schemaPrefix[decValue ds]?.join else none

/-- The loop of `qname_text` over the last `k` bytes, with the one in front of them. -/
def qnameLoop : Nat → Option UInt8 → List UInt8 → List UInt8
  | 0, _, _ => []
  | _ + 1, _, [] => []
  | k + 1, before, c :: s =>
    let ds := (c :: s).takeWhile DateUtil.isDigit
    let rest := (c :: s).dropWhile DateUtil.isDigit
    let pfx := if ds ≠ [] ∧ rest.head? = some 58 ∧ !(before.map qnNameChar).getD false ∧ ds.length < 10 then schemaPrefixAt o ds
      else none
    match pfx with
    | some p => p.val ++ (if p.val ≠ [] then [58] else []) ++ qnameLoop k (some 58) rest.tail
    | none => c :: qnameLoop k (some c) s

def qnameText : BitRd (List UInt8) := do
  let raw ← countedBytes
  return qnameLoop o raw.length none raw

/-- `BIM_DOUBLE`, among the types that a quantizer decodes. -/
def Simple.isDouble (s : Simple) : Bool := s.codec = .atom .double

/-- An instance of `dec_aod`. -/
def aodInst (n : Nat) (s : SimpleRef) (k : Nat) (i : AodInst) : DecM σ (List UInt8) := match i.kind with
  | .zlib => decZstring o n
  | .qname => rd (qnameText o)
  | .uq | .nuq => quantText o (g.simple s).isDouble k i

def decAod (a : Aod) (n : Nat) (s : SimpleRef) (m : AodMap) : DecM σ (List UInt8) := do
  let count := m.inst.length + m.preserve.toNat
  let id ← rd (getBits (bimWidth count))
  Run.check (id < count)
  if m.preserve && id = 0 then decPlain g o decText n s
  else
    let k ← Run.lift m.inst[id - m.preserve.toNat]?
    let i ← Run.lift a.insts[k]?
    aodInst g o n s k i

end Composed

/-- `bim_aod_find`: the last mapping of a type or of the nearest one that it restricts. -/
def aodFind (a : Aod) : Nat → Option SimpleRef → DecM σ (Option AodMap)
  | _, none => pure none
  | 0, some _ => Run.deeper
  | n + 1, some s => match a.maps.reverse.find? (·.simple = s) with
    | some m => pure (some m)
    | none => aodFind a n (g.simple s).base

/-- The mapping of `dec_text`. -/
def aodMap (n : Nat) (s : SimpleRef) : DecM σ (Option (Aod × AodMap)) := match o.aod with
  | none => pure none
  | some a => do
    let m ← aodFind g a n (some s)
    return m.map fun m => (a, m)

/-- What `dec_text` does with its mapping. -/
def decMapped (decText : SimpleRef → DecM σ (List UInt8)) (n : Nat) (s : SimpleRef) : Option (Aod × AodMap) → DecM σ (List UInt8)
  | some (a, m) => decAod g o decText a n s m
  | none => decPlain g o decText n s

def decText : Nat → SimpleRef → DecM σ (List UInt8)
  | 0, _ => Run.deeper
  | n + 1, s => do
    let m ← aodMap g o n s
    decMapped g o (decText n) n s m

/-- `dec_value`. -/
def decValueText (n : Nat) (s : SimpleRef) : DecM σ CStr := do
  let t ← decText g o n s
  return CStr.ofBytes t

end DvbIpiTools.Bim
