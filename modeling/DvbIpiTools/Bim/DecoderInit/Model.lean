import DvbIpiTools.Bim.Io

set_option autoImplicit false

/-! # DecoderInit (`decoderinit/read.c`, `decoderinit/write.c`)

The record `bim_decoderinit_t`, its parser and its writer. An array and its count are one list; the
owning pointer beside a borrowed one (`heap_uri`, `heap_bits`) is left out. The parser's passes over
the record take the fields read so far and return the record with theirs set. -/

namespace DvbIpiTools.Bim

open BitList ListReader

/-- `bim_di_codec_t`. -/
structure DiCodec where
  uri : CStr
  types : List Nat
deriving DecidableEq

/-- `bim_di_schema_t`. -/
structure DiSchema where
  id : Nat
  uri : CStr
  hint : CStr
  codecs : List DiCodec
  castable : Ext := {}
  substitutable : Ext := {}
deriving DecidableEq

/-- `bim_di_cpath_t`. -/
structure DiCpath where
  bits : List UInt8
  nbits : Nat
  code : Nat
deriving DecidableEq

/-- `bim_di_instance_t`: `raw` is Type, Params() and padding. -/
structure DiInstance where
  type : Nat
  raw : List UInt8
deriving DecidableEq

/-- `bim_di_typeref_t`. -/
structure DiTyperef where
  schema : Nat
  type : Nat
deriving DecidableEq

/-- `bim_di_mapping_t`. -/
structure DiMapping where
  preserveDefault : Bool
  reserved : Nat
  instances : List Nat
  types : List DiTyperef
deriving DecidableEq

/-- `bim_di_prefix_t`. -/
structure DiPrefix where
  uri : CStr
  pfx : CStr
deriving DecidableEq

/-- `bim_decoderinit_t`, with the zero `bim_decoderinit_parse` starts from as defaults. -/
structure DecoderInit where
  mpegb : Bool
  profile : Nat := 0
  unitSizeCode : Nat := 0
  reserved : Nat := 0
  noAdvanced : Bool := false
  insert : Bool := false
  aod : Bool := false
  addSchema : Bool := false
  addSchemaOnly : Bool := false
  fragRef : Bool := false
  mpcOnly : Bool := false
  hier : Bool := false
  cpt : Bool := false
  prefixTable : Bool := false
  schemas : List DiSchema := []
  cptCodeLen : Nat := 0
  cptComplete : Bool := false
  cpaths : List DiCpath := []
  aodTypes : List CStr := []
  instances : List DiInstance := []
  mappings : List DiMapping := []
  fragFormats : List UInt8 := []
  nadditional : Nat := 0
  known : List DiSchema := []
  schemaEncoding : Nat := 0
  castable : Ext := {}
  substitutable : Ext := {}
  prefixes : List DiPrefix := []
  initial : List UInt8 := []
deriving DecidableEq

/-- `bim_di_counts_fn` with its context: global type and element counts of a known additional schema,
    or of the initial schema. `none` is a NULL callback. -/
abbrev Counts := Option (Option CStr → Option (UInt64 × UInt64))

/-! ## Error codes and constants of `decoderinit/priv.h` -/

def diTrunc : String := "LE400291"
def diZero : String := "LE400292"
def diReserved : String := "LE400293"
def diFlags : String := "LE400294"
def diWidth : String := "LE400295"
def diCounts : String := "LE400296"
def diLength : String := "LE400297"
def diRange : String := "LE400298"

/-- `FLAG_BITS`: nine flags and 24 reserved bits before the PrefixTable. -/
def flagBits : Nat := 33

/-- `init_rd`. -/
def diRd : RdCtx := ⟨diTrunc, "DecoderInit"⟩

def diRangeErr (what : String) : BimErr :=
  bimFail diRange (text "bim: DecoderInit " ++ text what ++ text " out of range")

def diFlagsErr (a b : String) : BimErr :=
  bimFail diFlags (text "bim: DecoderInit " ++ text a ++ text " requires " ++ text b)

def diLengthErr (what : String) : BimErr :=
  bimFail diLength (text "bim: DecoderInit " ++ text what ++ text " mismatch")

def diCountsErr (elems : Bool) (uri : Option CStr) : BimErr := bimFail diCounts (text "bim: DecoderInit " ++
    text (if elems then "global element" else "global type") ++ text " count of " ++
    (uri.map Subtype.val).getD (text "initial schema") ++ text " unknown")

namespace DecoderInit

/-- `bim_di_nall`: the sum in 64 bits, saturated. -/
def nall (di : DecoderInit) : Nat :=
  let a := di.schemas.length
  let b := if di.addSchema then di.nadditional else 0
  if (a + b) % 2 ^ 64 < a then 2 ^ 64 - 1 else (a + b) % 2 ^ 64

/-- The range test on KnownAdditionalSchemaID, `id + 1` in 64 bits. -/
def knownIdOk (di : DecoderInit) (id : Nat) : Bool := !(id ≤ di.schemas.length || (id + 1) % 2 ^ 64 ≥ di.nall)

/-! ## Parser -/

/-- One entry of `rd_codecs`. -/
def rdCodec (mpegb : Bool) : Rd DiCodec := do
  let uri ← rdStr diRd (if mpegb then none else some diZero) "TypeCodecURI_Length"
  let types ← rdCounted diRd 8 fun _ => rdV8 diRd
  return { uri, types }

def rdCodecs (mpegb : Bool) : Rd (List DiCodec) := rdCounted diRd 16 fun _ => rdCodec mpegb

/-- The peek of `rd_ext`: present, and not all. -/
def codeListFollows (s : List Bool) : Bool :=
  match Stream.get 1 s with
  | none => false
  | some (present, s) =>
    if present = 0 then false
    else
      match Stream.get 1 s with
      | none => false
      | some (all, _) => all = 0

/-- `rd_ext`: counts are needed for code lists only. -/
def rdExtOf (counts : Counts) (uri : Option CStr) (elems : Bool) : Rd Ext := fun s =>
  if !codeListFollows s then rdExt diRd 0 diRange s
  else
    match counts.bind (· uri) with
    | none => .error (diCountsErr elems uri) s
    | some (nt, ne) => rdExt diRd (if elems then ne.toNat else nt.toNat) diRange s

/-- The nine flags in the order they are coded. -/
def setFlags (di : DecoderInit) (flags : List Bool) : DecoderInit := { di with
    insert := flags.getD 0 false
    aod := flags.getD 1 false
    addSchema := flags.getD 2 false
    addSchemaOnly := flags.getD 3 false
    fragRef := flags.getD 4 false
    mpcOnly := flags.getD 5 false
    hier := flags.getD 6 false
    cpt := flags.getD 7 false
    prefixTable := flags.getD 8 false }

def flags (di : DecoderInit) : List Bool :=
  [di.insert, di.aod, di.addSchema, di.addSchemaOnly, di.fragRef, di.mpcOnly, di.hier, di.cpt, di.prefixTable]

/-- One entry of the PrefixTable. -/
def rdPrefix : Rd DiPrefix := do
  let uri ← rdStr diRd (some diZero) "SchemaURI_Length"
  let pfx ← rdStr diRd none ""
  return { uri, pfx }

/-- The PrefixTable part of `rd_features`; `start` is what was left before the flags. -/
def rdPrefixes (present : Bool) (start avail : Nat) : Rd (List DiPrefix) :=
  if !present then return []
  else if avail < flagBits then throw (diLengthErr "AdvancedFeatureFlags_Length")
  else do
    rdZero diRd (flagBits - 9) diReserved
    let prefixes ← rdCounted diRd 16 fun _ => rdPrefix
    let left ← rdLeft
    if start - left > avail then throw (diLengthErr "PrefixTable")
    else return prefixes

/-- The flag dependencies `rd_features` ends with. -/
def checkFeatures (di : DecoderInit) : Rd DecoderInit :=
  if di.addSchemaOnly && !di.addSchema then
    throw (diFlagsErr "AdditionalSchemaUpdatesOnlyFlag" "AdditionalSchemaFlag")
  else if di.addSchema && !di.hier then
    throw (diFlagsErr "AdditionalSchemaFlag" "HierarchyBasedSubstitutionCodingFlag")
  else return di

/-- `rd_features`. Flags beyond AdvancedFeatureFlags_Length are absent. -/
def rdFeatures (di : DecoderInit) : Rd DecoderInit := do
  let len ← rdV8 diRd
  let start ← rdLeft
  if len > start / 8 then rdTrunc diRd
  else
    let flags ← each (fun _ => rdFlag diRd) 0 (min 9 (len * 8))
    let prefixes ← rdPrefixes (flags.getD 8 false) start (len * 8)
    let left ← rdLeft
    rdZero diRd (len * 8 - (start - left)) diReserved
    checkFeatures { di.setFlags flags with prefixes }

/-- One ContextPath: in a complete table the code is the position, else it follows the path. -/
def rdCpath (codeLen : Nat) (complete : Bool) (i : Nat) : Rd DiCpath := do
  let nbits ← rdV5 diRd
  let bits ← rdRaw diRd nbits
  if complete then return { bits, nbits, code := i + 1 }
  else
    let code ← rdBits diRd codeLen
    if code = 0 then throw (diRangeErr "ContextPathCode")
    else return { bits, nbits, code }

/-- `bitreader_skip`. -/
def rdSkip (n : Nat) : Rd Unit := fun s => if n > s.length then rdTrunc diRd s else .ok () (s.drop n)

def rdCpt (di : DecoderInit) : Rd DecoderInit := do
  let len ← rdV8 diRd
  let start ← rdLeft
  if len > start / 8 then rdTrunc diRd
  else
    let codeLen ← rdV8 diRd
    let n ← rdCount diRd 6
    let complete ← rdFlag diRd
    if codeLen > 64 then throw (diRangeErr "ContextPathCode_Length")
    else
      let cpaths ← each (rdCpath codeLen complete) 0 n
      let left ← rdLeft
      if (start - left + 7) / 8 ≠ len then throw (diLengthErr "ContextPathTable_Length")
      else
        rdSkip (len * 8 - (start - left))
        return { di with cptCodeLen := codeLen, cptComplete := complete, cpaths }

/-- One entry of `rd_known`. -/
def rdKnownSchema (counts : Counts) (di : DecoderInit) : Rd DiSchema := do
  let id ← rdV8 diRd
  if !di.knownIdOk id then throw (diRangeErr "KnownAdditionalSchemaID")
  else
    let uri ← rdStr diRd (some diZero) "AdditionalSchemaURI_Length"
    let hint ← rdStr diRd none ""
    let codecs ← rdCodecs di.mpegb
    let castable ← rdExtOf counts (some uri) false
    let substitutable ← rdExtOf counts (some uri) true
    return { id, uri, hint, codecs, castable, substitutable }

/-- `rd_additional`, with `rd_known`. -/
def rdAdditional (counts : Counts) (di : DecoderInit) : Rd DecoderInit := do
  let nadditional ← rdV8 diRd
  let known ← rdCounted diRd 24 fun _ => rdKnownSchema counts { di with nadditional }
  let schemaEncoding ← rdBits diRd 8
  let castable ← rdExtOf counts none false
  let substitutable ← rdExtOf counts none true
  rdZero diRd 7 diReserved
  return { di with nadditional, known, schemaEncoding, castable, substitutable }

/-- One entry of `rd_instances`: the type is the first `bim_width(naod_types)` bits of `raw`. -/
def rdInstance (naodTypes : Nat) : Rd DiInstance := do
  let n ← rdV8 diRd
  let raw ← rdBytes diRd n
  match Stream.get (bimWidth naodTypes) (ofBytes raw) with
  | none => throw (diLengthErr "AdvancedOptimisedDecoderInstantiationLength")
  | some (type, _) =>
    if type ≥ naodTypes then throw (diRangeErr "AdvancedOptimisedDecoderInstances[i].Type")
    else return { type, raw }

def rdInstances (naodTypes : Nat) : Rd (List DiInstance) := rdCounted diRd 8 fun _ => rdInstance naodTypes

/-- One AdvancedOptimisedDecoderInstanceID. -/
def rdInstanceId (ninstances : Nat) : Rd Nat := do
  let v ← rdBits diRd (bimWidth ninstances)
  if v ≥ ninstances then throw (diRangeErr "AdvancedOptimisedDecoderInstanceID")
  else return v

/-- One type of a mapping, its SchemaID `sw` bits wide. -/
def rdTyperef (sw : Nat) : Rd DiTyperef := do
  let schema ← rdBits diRd sw
  let type ← rdV8 diRd
  return { schema, type }

/-- One entry of `rd_mappings`. -/
def rdMapping (ninstances sw : Nat) : Rd DiMapping := do
  let preserveDefault ← rdFlag diRd
  let reserved ← rdBits diRd 7
  let instances ← rdCounted diRd (bimWidth ninstances) fun _ => rdInstanceId ninstances
  let types ← rdCounted diRd (sw + 8) fun _ => rdTyperef sw
  return { preserveDefault, reserved, instances, types }

def rdMappings (ninstances sw : Nat) : Rd (List DiMapping) := rdCounted diRd 16 fun _ => rdMapping ninstances sw

/-- Every SchemaID of a mapping is below `nall`. -/
def mappingsOk (di : DecoderInit) : Bool := di.mappings.all fun m => m.types.all fun t => t.schema < di.nall

def checkMappings (di : DecoderInit) : Rd Unit :=
  if di.mappingsOk then pure () else throw (diRangeErr "SchemaID")

/-- The optimised decoder part of `rd_tail`. -/
def rdTailAod (di : DecoderInit) (sw : Nat) : Rd DecoderInit :=
  if !di.addSchemaOnly && di.aod then do
    let instances ← rdInstances di.aodTypes.length
    let mappings ← rdMappings instances.length sw
    return { di with instances, mappings }
  else return di

/-- The fragment reference part of `rd_tail`. -/
def rdTailFrag (di : DecoderInit) : Rd DecoderInit :=
  if !di.addSchemaOnly && di.fragRef then do
    let n ← rdBits diRd 8
    let fragFormats ← rdBytes diRd n
    return { di with fragFormats }
  else return di

/-- The additional schema part of `rd_tail`. -/
def rdTailAdd (counts : Counts) (di : DecoderInit) : Rd DecoderInit :=
  if di.addSchema then rdAdditional counts di else return di

/-- The InitialDocument part of `rd_tail`. -/
def rdTailInitial (di : DecoderInit) : Rd DecoderInit :=
  if !di.addSchemaOnly then do
    let n ← rdV8 diRd
    let initial ← rdBytes diRd n
    return { di with initial }
  else return di

def rdTail (counts : Counts) (di : DecoderInit) (sw : Nat) : Rd DecoderInit := do
  let di ← rdTailAod di sw
  let di ← rdTailFrag di
  let di ← rdTailAdd counts di
  let di ← rdTailInitial di
  checkMappings di
  return di

/-- What the width loop of `rd_tail_lookahead` remembers; `far` counts from the start of the tail. -/
structure Lookahead where
  hit : Nat := 0
  nhits : Nat := 0
  last : Option BimErr := none
  far : Nat := 0
  lsem : Int := -1

/-- The failure `rd_tail_lookahead` keeps: a semantic error goes before a truncation, among equals the
    furthest attempt wins. -/
def Lookahead.note (l : Lookahead) (e : BimErr) (pos : Nat) : Lookahead :=
  let sem : Int := if e.code ≠ diTrunc then 1 else 0
  if sem > l.lsem ∨ (sem = l.lsem ∧ pos ≥ l.far) then
    { l with far := pos, lsem := sem, last := some e }
  else l

/-- One width of the loop of `rd_tail_lookahead`: a hit is a tail that parses and asks for just this
    width. -/
def tryWidth (counts : Counts) (di : DecoderInit) (s : List Bool) (l : Lookahead) (w : Nat) :
    Lookahead :=
  match rdTail counts di w s with
  | .ok di' _ => if bimWidth di'.nall = w then { l with hit := w, nhits := l.nhits + 1 } else l
  | .error e s' => l.note e (s.length - s'.length)

/-- The mapping SchemaID width depends on NumberOfAdditionalSchemas, which follows the mappings. -/
def needsLookahead (di : DecoderInit) : Bool := di.aod && di.addSchema && !di.addSchemaOnly

def diWidthErr (nhits : Nat) : BimErr :=
  bimFail diWidth (text "bim: DecoderInit SchemaID width ambiguous (" ++ text (toString nhits) ++ text ")")

/-- `rd_tail_lookahead`: the unique consistent width is taken. -/
def rdTailLookahead (counts : Counts) (di : DecoderInit) : Rd DecoderInit := fun s =>
  if !di.needsLookahead then rdTail counts di (bimWidth di.schemas.length) s
  else
    let l := (List.range 65).foldl (tryWidth counts di s) {}
    if l.nhits = 1 then rdTail counts di l.hit s
    else
      match l.nhits, l.last with
      | 0, some e => .error e s
      | nhits, _ => .error (diWidthErr nhits) s

/-- One schema of `rd_all`. -/
def rdSchema (mpegb : Bool) (k : Nat) : Rd DiSchema := do
  let uri ← rdStr diRd (some diZero) "SchemaURI_Length"
  let hint ← rdStr diRd none ""
  let codecs ← rdCodecs mpegb
  return { id := k, uri, hint, codecs }

/-- The first fields of `rd_all`, up to the features. -/
def rdHead (mpegb : Bool) : Rd DecoderInit := do
  let profile ← rdV8 diRd
  let unitSizeCode ← rdBits diRd 3
  if mpegb then
    let noAdvanced ← rdFlag diRd
    let reserved ← rdBits diRd 4
    let di := { mpegb, profile, unitSizeCode, noAdvanced, reserved }
    if noAdvanced then return di else rdFeatures di
  else
    let reserved ← rdBits diRd 5
    return { mpegb, profile, unitSizeCode, reserved, noAdvanced := true }

def rdSchemas (di : DecoderInit) : Rd DecoderInit := do
  let schemas ← rdCount diRd 24
  if schemas = 0 then throw (bimFail diZero (text "bim: DecoderInit NumberOfSchemas zero"))
  else
    let schemas ← each (rdSchema di.mpegb) 0 schemas
    return { di with schemas }

/-- The ContextPathTable, where its flag is set. -/
def rdCptStage (di : DecoderInit) : Rd DecoderInit := if di.cpt then rdCpt di else return di

/-- The AdvancedOptimisedDecoderTypes, where their flag is set. -/
def rdAodTypes (di : DecoderInit) : Rd DecoderInit :=
  if di.aod then do
    let aodTypes ← rdCounted diRd 8 fun _ => rdStr diRd none ""
    return { di with aodTypes }
  else return di

/-- The part of `rd_all` that an update of additional schemas leaves out. -/
def rdInitialSchemas (di : DecoderInit) : Rd DecoderInit :=
  if di.addSchemaOnly then return di
  else do
    let di ← rdSchemas di
    let di ← rdCptStage di
    rdAodTypes di

def rdAll (counts : Counts) (mpegb : Bool) : Rd DecoderInit := do
  let di ← rdHead mpegb
  let di ← rdInitialSchemas di
  rdTailLookahead counts di

/-- `bim_decoderinit_parse`: the record and `*used`. -/
def parse (buf : List UInt8) (mpegb : Bool) (counts : Counts) : Except BimErr (DecoderInit × Nat) :=
  match rdAll counts mpegb (ofBytes buf) with
  | .ok di s => .ok (di, ((ofBytes buf).length - s.length + 7) / 8)
  | .error e _ => .error e

/-! ## Writer -/

def wCodec (mpegb : Bool) (c : DiCodec) : Wr := do
  let uri ← wrStr (if mpegb then none else some diZero) "DecoderInit TypeCodecURI_Length" c.uri
  return uri ++ vluimsbf8Bits c.types.length ++ c.types.flatMap vluimsbf8Bits

def wCodecs (mpegb : Bool) (codecs : List DiCodec) : Wr := do
  let cs ← wrEach (wCodec mpegb) codecs
  return vluimsbf8Bits codecs.length ++ cs

def wExt (counts : Counts) (uri : Option CStr) (elems : Bool) (e : Ext) : Wr :=
  if e.present && !e.all then
    match counts.bind (· uri) with
    | none => throw (diCountsErr elems uri)
    | some (nt, ne) => wrExt (if elems then ne.toNat else nt.toNat) diRange e
  else wrExt 0 diRange e

def wPrefix (p : DiPrefix) : Wr := do
  let uri ← wrStr (some diZero) "DecoderInit SchemaURI_Length" p.uri
  let pfx ← wrStr none "" p.pfx
  return uri ++ pfx

/-- The sub-writer of `w_features`. -/
def wPrefixTable (di : DecoderInit) : Wr :=
  if di.prefixTable then do
    let ps ← wrEach wPrefix di.prefixes
    return vluimsbf8Bits di.prefixes.length ++ ps
  else return []

def wFeatures (di : DecoderInit) : Wr :=
  if di.addSchemaOnly && !di.addSchema then
    throw (diFlagsErr "AdditionalSchemaUpdatesOnlyFlag" "AdditionalSchemaFlag")
  else if di.addSchema && !di.hier then
    throw (diFlagsErr "AdditionalSchemaFlag" "HierarchyBasedSubstitutionCodingFlag")
  else do
    let pt ← wPrefixTable di
    -- `pt.len` counts the committed bytes of the sub-writer
    let bits := flagBits + pt.length / 8 * 8
    return vluimsbf8Bits ((bits + 7) / 8) ++ di.flags ++ ofNat (flagBits - 9) 0 ++ wrSub pt ++
      ofNat ((8 - bits % 8) % 8) 0

def fits (v bits : Nat) : Bool := bits ≥ 64 || v < 1 <<< bits

def wCpath (codeLen : Nat) (complete : Bool) (p : DiCpath) : Wr :=
  if complete then return vluimsbf5Bits p.nbits ++ wrBits p.bits p.nbits
  else if p.code = 0 || !fits p.code codeLen then throw (diRangeErr "ContextPathCode")
  else return vluimsbf5Bits p.nbits ++ wrBits p.bits p.nbits ++ ofNat codeLen p.code

def wCpt (di : DecoderInit) : Wr :=
  if di.cptCodeLen > 64 then throw (diRangeErr "ContextPathCode_Length")
  else do
    let paths ← wrEach (wCpath di.cptCodeLen di.cptComplete) di.cpaths
    let sub := vluimsbf8Bits di.cptCodeLen ++ vluimsbf8Bits di.cpaths.length ++ [di.cptComplete] ++ paths
    return vluimsbf8Bits (packBytes sub).length ++ wrSub sub

def wInstance (naodTypes : Nat) (i : DiInstance) : Wr :=
  match Stream.get (bimWidth naodTypes) (ofBytes i.raw) with
  | none => throw (diRangeErr "AdvancedOptimisedDecoderInstances[i].Type")
  | some (type, _) =>
    if type ≠ i.type ∨ type ≥ naodTypes then
      throw (diRangeErr "AdvancedOptimisedDecoderInstances[i].Type")
    else return vluimsbf8Bits i.raw.length ++ ofBytes i.raw

def wInstances (di : DecoderInit) : Wr := do
  let is ← wrEach (wInstance di.aodTypes.length) di.instances
  return vluimsbf8Bits di.instances.length ++ is

def wInstanceId (ninstances id : Nat) : Wr :=
  if id ≥ ninstances then throw (diRangeErr "AdvancedOptimisedDecoderInstanceID")
  else return ofNat (bimWidth ninstances) id

def wTyperef (nall : Nat) (t : DiTyperef) : Wr :=
  if t.schema ≥ nall then throw (diRangeErr "SchemaID")
  else return ofNat (bimWidth nall) t.schema ++ vluimsbf8Bits t.type

def wMapping (ninstances nall : Nat) (m : DiMapping) : Wr :=
  if m.reserved > 127 then throw (diRangeErr "Reserved")
  else do
    let ids ← wrEach (wInstanceId ninstances) m.instances
    let types ← wrEach (wTyperef nall) m.types
    return [m.preserveDefault] ++ ofNat 7 m.reserved ++ vluimsbf8Bits m.instances.length ++ ids ++
      vluimsbf8Bits m.types.length ++ types

def wMappings (di : DecoderInit) : Wr := do
  let ms ← wrEach (wMapping di.instances.length di.nall) di.mappings
  return vluimsbf8Bits di.mappings.length ++ ms

def wAod (di : DecoderInit) : Wr := do
  let types ← wrEach (wrStr none "") di.aodTypes
  let is ← wInstances di
  let ms ← wMappings di
  return vluimsbf8Bits di.aodTypes.length ++ types ++ is ++ ms

def wKnown (counts : Counts) (di : DecoderInit) (s : DiSchema) : Wr :=
  if !di.knownIdOk s.id then throw (diRangeErr "KnownAdditionalSchemaID")
  else do
    let uri ← wrStr (some diZero) "DecoderInit AdditionalSchemaURI_Length" s.uri
    let hint ← wrStr none "" s.hint
    let codecs ← wCodecs di.mpegb s.codecs
    let castable ← wExt counts (some s.uri) false s.castable
    let substitutable ← wExt counts (some s.uri) true s.substitutable
    return vluimsbf8Bits s.id ++ uri ++ hint ++ codecs ++ castable ++ substitutable

def wAdditional (counts : Counts) (di : DecoderInit) : Wr := do
  let known ← wrEach (wKnown counts di) di.known
  if di.schemaEncoding > 255 then throw (diRangeErr "SchemaEncodingMethod")
  else
    let castable ← wExt counts none false di.castable
    let substitutable ← wExt counts none true di.substitutable
    return vluimsbf8Bits di.nadditional ++ vluimsbf8Bits di.known.length ++ known ++
      ofNat 8 di.schemaEncoding ++ castable ++ substitutable ++ ofNat 7 0

/-- The first fields of `w_all`. -/
def wHead (di : DecoderInit) : Wr :=
  if di.unitSizeCode > 7 ∨ di.reserved ≥ (if di.mpegb then 16 else 32) then
    throw (diRangeErr "UnitSizeCode/ReservedBits")
  else if di.flags.any id && (!di.mpegb || di.noAdvanced) then
    throw (diFlagsErr "advanced features" "ISO 23001-1")
  else if di.mpegb then do
    let features ← wrIf (!di.noAdvanced) (wFeatures di)
    return vluimsbf8Bits di.profile ++ ofNat 3 di.unitSizeCode ++ [di.noAdvanced] ++
      ofNat 4 di.reserved ++ features
  else return vluimsbf8Bits di.profile ++ ofNat 3 di.unitSizeCode ++ ofNat 5 di.reserved

def wSchema (mpegb : Bool) (s : DiSchema) : Wr := do
  let uri ← wrStr (some diZero) "DecoderInit SchemaURI_Length" s.uri
  let hint ← wrStr none "" s.hint
  let codecs ← wCodecs mpegb s.codecs
  return uri ++ hint ++ codecs

def wSchemas (di : DecoderInit) : Wr :=
  if di.schemas.length = 0 then
    throw (bimFail diZero (text "bim: DecoderInit NumberOfSchemas zero"))
  else do
    let schemas ← wrEach (wSchema di.mpegb) di.schemas
    return vluimsbf8Bits di.schemas.length ++ schemas

def wFrag (di : DecoderInit) : Wr :=
  if di.fragFormats.length > 255 then
    throw (diRangeErr "NumOfSupportedFragmentReferenceFormat")
  else return ofNat 8 di.fragFormats.length ++ ofBytes di.fragFormats

/-- The part of `w_all` that an update of additional schemas leaves out. -/
def wInitialSchemas (di : DecoderInit) : Wr :=
  if di.addSchemaOnly then return []
  else do
    let schemas ← wSchemas di
    let cpt ← wrIf di.cpt (wCpt di)
    let aod ← wrIf di.aod (wAod di)
    let frag ← wrIf di.fragRef (wFrag di)
    return schemas ++ cpt ++ aod ++ frag

def wAll (counts : Counts) (di : DecoderInit) : Wr := do
  let head ← wHead di
  let schemas ← wInitialSchemas di
  let additional ← wrIf di.addSchema (wAdditional counts di)
  let initial := if di.addSchemaOnly then [] else
    vluimsbf8Bits di.initial.length ++ ofBytes di.initial
  return head ++ schemas ++ additional ++ initial

/-- `bim_decoderinit_write` into a fresh writer, flushed. -/
def write (counts : Counts) (di : DecoderInit) : Except BimErr (List UInt8) := do
  let bits ← wAll counts di
  return packBytes bits

end DecoderInit

end DvbIpiTools.Bim
