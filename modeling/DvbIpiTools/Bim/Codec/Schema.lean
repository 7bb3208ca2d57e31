import DvbIpiTools.Bim.Io

set_option autoImplicit false

/-! # Schema graph and payload trees (`codec.h`)

Compiled schemas are graphs: a part refers to its type by pointer, and types refer back to
themselves through their content. A pointer is modelled by a reference (`TypeRef`, `ElemRef`, `SimpleRef`),
the record it points to by a finite value that holds references. Payload trees (`bim_node_t` as the codec
builds them) are plain trees. -/

namespace DvbIpiTools.Bim

/-- A `const bim_type_t *`. -/
abbrev TypeRef := Nat

/-- A `const bim_elem_t *`. -/
abbrev ElemRef := Nat

def bimUnbounded : Nat := 2 ^ 64 - 1

/-- The fields of a `bim_part_t` that only a `BIM_PART_ELEM` has. -/
structure ElemPart where
  name : CStr
  ns : Option CStr := none
  /-- NULL: not decodable. -/
  type : Option TypeRef
  nillable : Bool := false
  /-- The global element referred to, NULL: local. -/
  elem : Option ElemRef := none

/-- `bim_wildcard_t`: a namespace constraint; NULL is `any`. -/
inductive Wildcard where
  | any
  | not (ns : Option CStr)
  | list (ns : List (Option CStr))

/-- `bim_part_t`, by its kind; `min` and `max` are 64 bit counts. -/
inductive Part where
  | elem (e : ElemPart) (min max : Nat)
  | any (wc : Wildcard) (min max : Nat)
  | seq (kids : List Part) (min max : Nat)
  | choice (kids : List Part) (min max : Nat)
  | all (kids : List Part) (min max : Nat)

/-- `bim_sbc_kind_t`. -/
inductive SbcKind where
  | elem
  | simple
  | any
  | attr
  | anyattr

/-- `bim_sbc_t`. -/
structure Sbc where
  kind : SbcKind
  name : Option CStr := none
  ns : Option CStr := none
  type : Option TypeRef := none

/-! ## Simple types -/

/-- `bim_range_t`: inclusive bounds, `span = max - min`. -/
structure Range where
  min : Int
  span : Nat
deriving DecidableEq

/-- The facets of a `bim_simple_t`: a pattern is the set it matches; those of the restricted types are in
`basePatterns`; `length` holds `minlen` and `maxlen` where `has_length` is set. -/
structure Facets where
  patterns : List (CStr → Bool) := []
  basePatterns : List (CStr → Bool) := []
  length : Option (Nat × Nat) := none

/-- The codecs of `bim_codec_t` that are not made of others. -/
inductive Atom where
  | utf8
  | boolean
  | float
  | double
  | hexbin
  | base64
  | range (r : Range)
  | svlu5
  | enum (values : List CStr)
  | string
  | locator
  | datetime
  | pubtime
  | duration
  | termref
  | zstring
  | m7Timepoint
  | m7Duration
  | tvaDatetime
  | tvaDate
  | unsupported
deriving DecidableEq

/-- A `const bim_simple_t *`; a NULL pointer refers to a record of the unsupported codec, which both sides refuse as well. -/
inductive SimpleRef where
  /-- `&bim_xs_string`. -/
  | xsString
  | at (i : Nat)
deriving DecidableEq

/-- The codec of a `bim_simple_t` with the fields that belong to it. -/
inductive SimpleCodec where
  | atom (a : Atom)
  | list (item : SimpleRef) (range : Range) (unbounded : Bool)
  | union (members : List SimpleRef)
deriving DecidableEq

/-- `bim_simple_t`. -/
structure Simple where
  codec : SimpleCodec
  facets : Facets := {}
  /-- The restricted type. -/
  base : Option SimpleRef := none

def bimXsString : Simple := { codec := .atom .utf8 }

/-- `bim_attr_t`. -/
structure Attr where
  name : CStr
  ns : Option CStr := none
  required : Bool := false
  simple : SimpleRef

/-! ## Complex types -/

/-- `bim_content_t` with what belongs to each kind. -/
inductive Content where
  | none
  | simple (s : SimpleRef)
  | seq

/-- The name of an attribute declared fixed. -/
structure FixedAttr where
  name : CStr
  ns : Option CStr := none

/-- `bim_type_t`; `top` is NULL unless the content is a sequence. -/
structure BimType where
  attrs : List Attr := []
  content : Content := .none
  top : Option Part := none
  name : Option CStr := none
  ns : Option CStr := none
  mixed : Bool := false
  /-- An attribute wildcard; its namespace constraint is not looked at. -/
  anyattr : Bool := false
  sbc : List Sbc := []
  fixed : List FixedAttr := []

theorem no_elemRefs_lt : ([] : List ElemRef).length < 2 ^ 31 := by decide

/-- `bim_elem_t`: a global element. -/
structure BimElem where
  name : CStr
  ns : Option CStr := none
  type : Option TypeRef
  nillable : Bool := false
  substs : List ElemRef := []
  substs_lt : substs.length < 2 ^ 31 := by decide

/-- `bim_subtypes_t`: subtypes of `base` in type code order. -/
structure Subtypes where
  base : TypeRef
  subs : List TypeRef
  deltas : Option (List (Option TypeRef)) := none
  subs_lt : subs.length < 2 ^ 31 := by decide

/-- `bim_schema_t`. -/
structure Schema where
  known : Bool := true
  subs : List Subtypes := []
  elems : List ElemRef := []
  types : List TypeRef := []
  attrs : List Attr := []
  string : Option SimpleRef := none
  elems_lt : elems.length < 2 ^ 31 := by decide
  attrs_lt : attrs.length < 2 ^ 31 := by decide

namespace Part

def min : Part → Nat
  | .elem _ n _ | .any _ n _ | .seq _ n _ | .choice _ n _ | .all _ n _ => n

def max : Part → Nat
  | .elem _ _ n | .any _ _ n | .seq _ _ n | .choice _ _ n | .all _ _ n => n

def kids : Part → List Part
  | .elem .. | .any .. => []
  | .seq ks _ _ | .choice ks _ _ | .all ks _ _ => ks

mutual

/-- `P` holds of a part and of every part below it. -/
def Everywhere (P : Part → Prop) : Part → Prop
  | .elem e n m => P (.elem e n m)
  | .any w n m => P (.any w n m)
  | .seq ks n m => P (.seq ks n m) ∧ EverywhereIn P ks
  | .choice ks n m => P (.choice ks n m) ∧ EverywhereIn P ks
  | .all ks n m => P (.all ks n m) ∧ EverywhereIn P ks

def EverywhereIn (P : Part → Prop) : List Part → Prop
  | [] => True
  | k :: ks => Everywhere P k ∧ EverywhereIn P ks

end

/-- `min` and `max` are 64 bit counts and `nkids` is an `int`. -/
def Counts (p : Part) : Prop := p.min < 2 ^ 64 ∧ p.max < 2 ^ 64 ∧ p.kids.length < 2 ^ 31

end Part

/-- What the pointers of the compiled schemas refer to. -/
structure Graph where
  types : TypeRef → BimType
  elems : ElemRef → BimElem
  simples : Nat → Simple
  counts : ∀ t p, (types t).top = some p → p.Everywhere Part.Counts

/-- The record of a simple type. -/
def Graph.simple (g : Graph) : SimpleRef → Simple
  | .xsString => bimXsString
  | .at i => g.simples i

/-! ## Payload trees -/

/-- An attribute of a node. -/
structure NodeAttr where
  name : CStr
  ns : Option CStr
  value : CStr

/-- `bim_node_t` as the codec builds it; no name: a text node of mixed content. `cast` is the `xsi:type`
of the node. -/
inductive BimNode where
  | mk (name ns text : Option CStr) (attrs : List NodeAttr) (kids : List BimNode)
    (cast : Option TypeRef := none) (deferred : Bool := false)

namespace BimNode

def name : BimNode → Option CStr | .mk x _ _ _ _ _ _ => x

def ns : BimNode → Option CStr | .mk _ x _ _ _ _ _ => x

def text : BimNode → Option CStr | .mk _ _ x _ _ _ _ => x

def attrs : BimNode → List NodeAttr | .mk _ _ _ x _ _ _ => x

def kids : BimNode → List BimNode | .mk _ _ _ _ x _ _ => x

def cast : BimNode → Option TypeRef | .mk _ _ _ _ _ x _ => x

def deferred : BimNode → Bool | .mk _ _ _ _ _ _ x => x

end BimNode

end DvbIpiTools.Bim
