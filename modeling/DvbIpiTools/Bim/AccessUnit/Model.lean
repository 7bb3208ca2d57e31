import DvbIpiTools.Bim.DecoderInit.Model

set_option autoImplicit false

/-! # Access units (`bimau.c`)

The access unit `bim_au_t`, the schema state its schema update units (SUUs) are coded against, the
parser and the writer. Both change the state as they go along, also where they fail later on: the error
comes with the state it leaves behind. The fragment update units (FUUs) are opaque bytes here. -/

namespace DvbIpiTools.Bim.AccessUnit

open BitList ListReader

/-- `bim_bits_t`: the first `nbits` bits of `bits`. -/
structure Bits where
  bits : List UInt8
  nbits : Nat
deriving DecidableEq

/-- `bim_suu_table_t`; `n` counts the entries of `codes` and `counts` where these are not NULL. -/
structure SuuTable where
  nglobal : UInt64 := 0
  ext : Ext := {}
  isPartial : Bool := false
  codes : List Nat := []
  counts : List Nat := []
  n : Nat := 0
deriving DecidableEq

/-- `bim_suu_t`. -/
structure Suu where
  schema : Nat
  first : Bool
  ns : Option CStr := none
  imported : List CStr := []
  types : SuuTable
  elems : SuuTable
  attrs : SuuTable
  encoded : Bits
deriving DecidableEq

/-- `bim_au_t`. -/
structure Au where
  suus : List Suu := []
  fuus : List Bits := []
deriving DecidableEq

/-- `bim_au_schema_t`: what the first SUU of a schema has set. -/
structure AuSchema where
  ns : Option CStr := none
  ntypes : UInt64 := 0
  nelems : UInt64 := 0
  nattrs : UInt64 := 0
deriving DecidableEq

/-- `bim_au_state_t`. The array is an object of at most `PTRDIFF_MAX` bytes. -/
structure AuState where
  di : DecoderInit
  add : List AuSchema
  nadd_lt : add.length < 2 ^ 63
deriving DecidableEq

/-- `table_kind_t`. -/
inductive TableKind
  | types
  | elems
  | attrs
deriving DecidableEq

/-! ## Errors -/

def auTrunc : String := "LE400299"
def auRange : String := "LE400300"
def auFirst : String := "LE400301"
def auSchema : String := "LE400302"

def auRd : RdCtx := ⟨auTrunc, "access unit"⟩

/-- `range`. -/
def rangeErr (what : String) : BimErr :=
  bimFail auRange (text "bim: access unit " ++ text what ++ text " out of range")

def firstMissing (s : Nat) : BimErr :=
  bimFail auFirst (text "bim: SUU for schema " ++ text (toString s) ++ text " before its first SUU")

def transmittedName : TableKind → String
  | .attrs => "TransmittedAttribute"
  | .types => "TransmittedType"
  | .elems => "TransmittedElement"

/-! ## The schema state -/

namespace AuState

/-- The entry `&st->add[s]`. -/
def entry (st : AuState) (s : Nat) : AuSchema := st.add.getD s {}

/-- `schema_ok`: index 0 and the last one are not for SUUs; `s + 1` in 64 bits. -/
def schemaOk (st : AuState) (s : Nat) : Bool := s ≠ 0 && (s + 1) % 2 ^ 64 < st.add.length

def nsTaken (st : AuState) (self : Nat) (ns : CStr) : Bool := st.di.schemas.any (fun s => s.uri = ns) ||
    (List.range st.add.length).any fun i => i ≠ self && (st.entry i).ns = some ns

/-- `st->add[s]` set. -/
def setEntry (st : AuState) (s : Nat) (a : AuSchema) : AuState where
  di := st.di
  add := st.add.set s a
  nadd_lt := by rw [List.length_set]; exact st.nadd_lt

/-- `remember`, after an SUU that is the first of its schema and carries the namespace `ns`. -/
def remember (st : AuState) (s : Suu) (ns : CStr) : Except BimErr AuState :=
  let a := st.entry s.schema
  match a.ns with
  | some known =>
    -- definitions never change, one schema ID per namespace
    if known ≠ ns ∨ a.ntypes ≠ s.types.nglobal ∨ a.nelems ≠ s.elems.nglobal ∨ a.nattrs ≠ s.attrs.nglobal then
      .error (rangeErr "repeated first SUU")
    else .ok st
  | none =>
    if st.nsTaken s.schema ns then .error (rangeErr "NamespaceURI")
    else .ok (st.setEntry s.schema
      { ns := some ns
        ntypes := s.types.nglobal
        nelems := s.elems.nglobal
        nattrs := s.attrs.nglobal })

end AuState

/-! ## Parser -/

/-- `rd_str`. -/
def rdString : Rd CStr := do
  let n ← rdV8 auRd
  if n = 0 then throw (rangeErr "string length")
  else
    let data ← rdBytes auRd n
    return CStr.ofBytes data

/-- The count of global entries a table is about, with the external table that may follow it. -/
def rdGlobal (k : TableKind) (first : Bool) (known : UInt64) : Rd (UInt64 × Ext) :=
  if !first then return (known, {})
  else do
    let nglobal ← rdV8 auRd
    if k = .attrs then return (UInt64.ofNat nglobal, {})
    else
      let ext ← rdExt auRd nglobal auRange
      return (UInt64.ofNat nglobal, ext)

/-- One code of an attribute table. -/
def rdAttr (nglobal : Nat) : Rd Nat := do
  let code ← rdBits auRd (bimWidth nglobal)
  if code ≥ nglobal then throw (rangeErr "TransmittedAttribute")
  else return code

/-- `aw ? aw : 1`: what the count of attribute codes is held against for each code. -/
def attrStep (aw : Nat) : Nat := if aw ≠ 0 then aw else 1

/-- The codes of a partial attribute table. A code may have no bits at all. -/
def rdAttrs (nglobal : Nat) : Rd (List Nat) := do
  let v ← rdV5 auRd
  let left ← rdLeft
  if v > left / attrStep (bimWidth nglobal) then rdTrunc auRd
  else each (fun _ => rdAttr nglobal) 0 v

/-- One code and count of a partial type or element table. -/
def rdCoded (k : TableKind) (nglobal : Nat) : Rd (Nat × Nat) := do
  let code ← rdV5 auRd
  if code ≥ nglobal then throw (rangeErr (transmittedName k))
  else
    let count ← rdV5 auRd
    return (code, count)

def rdTable (k : TableKind) (first : Bool) (known : UInt64) : Rd SuuTable := do
  let (nglobal, ext) ← rdGlobal k first known
  let isPartial ← rdFlag auRd
  if k = .attrs then
    if !isPartial then return { nglobal, ext }
    else
      let codes ← rdAttrs nglobal.toNat
      return { nglobal, ext, isPartial := true, codes, n := codes.length }
  else if isPartial then
    let v ← rdV5 auRd
    let left ← rdLeft
    if v > left / 10 then rdTrunc auRd
    else
      let entries ← each (fun _ => rdCoded k nglobal.toNat) 0 v
      return { nglobal, ext, isPartial := true, codes := entries.map Prod.fst,
               counts := entries.map Prod.snd, n := entries.length }
  else
    let left ← rdLeft
    if nglobal.toNat > left / 5 then rdTrunc auRd
    else
      let counts ← each (fun _ => rdV5 auRd) 0 nglobal.toNat
      return { nglobal, ext, counts, n := counts.length }

/-- The bytes `rd_encoded` skips: as many as follow the length. -/
def rdSkipBytes (len : Nat) : Rd Unit := fun s =>
  if len > s.length / 8 then rdTrunc auRd s else .ok () (s.drop (len * 8))

/-- The part of the input that `rd_encoded` takes: one access unit of one FUU. -/
def rdEncodedSpan : Rd Unit := do
  let n ← rdV8 auRd
  if n ≠ 1 then
    throw (bimFail auSchema (text "bim: binary encoded schema " ++ text "not one FUU"))
  else
    let len ← rdV8 auRd
    rdSkipBytes len

/-- `rd_encoded`: what was skipped is read again from `start`, bit by bit. -/
def rdEncoded : Rd Bits := fun start =>
  match rdEncodedSpan start with
  | .error e s => .error e s
  | .ok _ s =>
    let nbits := start.length - s.length
    match rdRaw auRd nbits start with
    | .error e s' => .error e s'
    | .ok bits _ => .ok { bits, nbits } s

/-- The namespace and the imported namespaces of a first SUU. -/
def rdNamespaces : Rd (CStr × List CStr) := do
  let ns ← rdString
  let v ← rdV8 auRd
  let left ← rdLeft
  if v > left / 16 then rdTrunc auRd
  else
    let imported ← each (fun _ => rdString) 0 v
    return (ns, imported)

/-- A failure of the state's own checks, at the position reached. -/
def rdLift {α : Type} : Except BimErr α → Rd α
  | .error e => throw e
  | .ok a => return a

/-- The three tables and the schema of an SUU whose header is read. -/
def rdBody (a : AuSchema) (schema : Nat) (first : Bool) (ns : Option CStr) (imported : List CStr) :
    Rd Suu := do
  let types ← rdTable .types first a.ntypes
  let elems ← rdTable .elems first a.nelems
  let attrs ← rdTable .attrs first a.nattrs
  let encoded ← rdEncoded
  return { schema, first, ns, imported, types, elems, attrs, encoded }

def rdSuu (st : AuState) : Rd (Suu × AuState) := do
  let schema ← rdBits auRd (bimWidth st.add.length)
  if !st.schemaOk schema then throw (rangeErr "SchemaToUpdate")
  else
    let first ← rdFlag auRd
    if first then
      let (ns, imported) ← rdNamespaces
      let s ← rdBody (st.entry schema) schema true (some ns) imported
      let st' ← rdLift (st.remember s ns)
      return (s, st')
    else if (st.entry schema).ns = none then throw (firstMissing schema)
    else
      let s ← rdBody (st.entry schema) schema false none []
      return (s, st)

/-- A reader that fails with the state it leaves behind. -/
abbrev RdSt (α : Type) := Reader (BimErr × AuState) Bool α

/-- A step that leaves the state `st` as it is when it fails. -/
def keeping {α : Type} (st : AuState) (p : Rd α) : RdSt α := p.adaptExcept fun e => (e, st)

/-- The loop over the SUUs: each is read against what the earlier ones have left. -/
def rdSuus (st : AuState) : Nat → RdSt (List Suu × AuState)
  | 0 => return ([], st)
  | n + 1 => do
    let (s, st') ← keeping st (rdSuu st)
    let (ss, st'') ← rdSuus st' n
    return (s :: ss, st'')

/-- One FUU. -/
def rdFuu : Rd Bits := do
  let v ← rdV8 auRd
  let left ← rdLeft
  if v > left / 8 then rdTrunc auRd
  else
    let bits ← rdRaw auRd (v * 8)
    return { bits, nbits := v * 8 }

/-- The SUUs of `rd_au`. -/
def rdUpdates (st : AuState) : RdSt (List Suu × AuState) :=
  if st.di.addSchema then do
    let n ← keeping st (rdCount auRd 8)
    rdSuus st n
  else return ([], st)

def rdAu (st : AuState) : RdSt (Au × AuState) := do
  let (suus, st') ← rdUpdates st
  if st.di.addSchemaOnly then return ({ suus }, st')
  else
    let fuus ← keeping st' (rdCounted auRd 8 fun _ => rdFuu)
    return ({ suus, fuus }, st')

/-- `bim_au_parse`: the access unit, the bytes it takes and the state after it. -/
def parse (st : AuState) (buf : List UInt8) :
    Except (BimErr × AuState) (Au × Nat × AuState) :=
  match rdAu st (ofBytes buf) with
  | .error e _ => .error e
  | .ok (au, st') s => .ok (au, ((ofBytes buf).length - s.length + 7) / 8, st')

/-! ## Writer -/

/-- `w_str`. -/
def wString (s : CStr) : Wr :=
  if s.val = [] then throw (rangeErr "string length") else wrStr none "" s

/-- The code of a global count and of the external table that follows it. -/
def wGlobal (k : TableKind) (t : SuuTable) : Wr :=
  if k = .attrs then return vluimsbf8Bits t.nglobal.toNat
  else do
    let ext ← wrExt t.nglobal.toNat auRange t.ext
    return vluimsbf8Bits t.nglobal.toNat ++ ext

/-- Entry `i` of a table. -/
def wEntry (k : TableKind) (nglobal : Nat) (t : SuuTable) (i : Nat) : Wr :=
  let code := t.codes.getD i 0
  if t.isPartial ∧ code ≥ nglobal then throw (rangeErr (transmittedName k))
  else
    return (if t.isPartial then
        if k = .attrs then ofNat (bimWidth nglobal) code else vluimsbf5Bits code
      else []) ++ (if k = .attrs then [] else vluimsbf5Bits (t.counts.getD i 0))

def wTable (k : TableKind) (first : Bool) (known : UInt64) (t : SuuTable) : Wr := do
  let nglobal := if first then t.nglobal.toNat else known.toNat
  let global ← wrIf first (wGlobal k t)
  if k = .attrs ∧ !t.isPartial then return global ++ [t.isPartial]
  else if !t.isPartial ∧ t.n ≠ nglobal then throw (rangeErr "NumOfSubtypes count")
  else
    let entries ← wrEach (wEntry k nglobal t) (List.range t.n)
    return global ++ [t.isPartial] ++ (if t.isPartial then vluimsbf5Bits t.n else []) ++ entries

/-- The header of a first SUU; `ns` may be NULL. -/
def wNamespaces (ns : Option CStr) (imported : List CStr) : Except BimErr (CStr × List Bool) :=
  match ns with
  | none => throw (rangeErr "string length")
  | some ns => do
    let head ← wString ns
    let names ← wrEach wString imported
    return (ns, head ++ vluimsbf8Bits imported.length ++ names)

/-- The tables and the schema of an SUU. -/
def wBody (a : AuSchema) (s : Suu) : Wr := do
  let types ← wTable .types s.first a.ntypes s.types
  let elems ← wTable .elems s.first a.nelems s.elems
  let attrs ← wTable .attrs s.first a.nattrs s.attrs
  return types ++ elems ++ attrs ++ wrBits s.encoded.bits s.encoded.nbits

def wSuu (st : AuState) (s : Suu) : Except BimErr (List Bool × AuState) :=
  if !st.schemaOk s.schema then throw (rangeErr "SchemaToUpdate")
  else if !s.first ∧ (st.entry s.schema).ns = none then throw (firstMissing s.schema)
  else
    let head := ofNat (bimWidth st.add.length) s.schema ++ [s.first]
    if s.first then do
      let (ns, names) ← wNamespaces s.ns s.imported
      let body ← wBody (st.entry s.schema) s
      let st' ← st.remember s ns
      return (head ++ names ++ body, st')
    else do
      let body ← wBody (st.entry s.schema) s
      return (head ++ body, st)

/-- The loop over the SUUs. -/
def wSuus (st : AuState) : List Suu → Except (BimErr × AuState) (List Bool × AuState)
  | [] => return ([], st)
  | s :: ss => do
    let (bits, st') ← (wSuu st s).mapError fun e => (e, st)
    let (rest, st'') ← wSuus st' ss
    return (bits ++ rest, st'')

/-- One FUU. -/
def wFuu (b : Bits) : Wr :=
  if b.nbits % 8 ≠ 0 then throw (rangeErr "FUU length")
  else return vluimsbf8Bits (b.nbits / 8) ++ wrBits b.bits b.nbits

/-- The SUUs of `bim_au_write`. -/
def wUpdates (st : AuState) (suus : List Suu) : Except (BimErr × AuState) (List Bool × AuState) :=
  if st.di.addSchema then do
    let (bits, st') ← wSuus st suus
    return (vluimsbf8Bits suus.length ++ bits, st')
  else return ([], st)

/-- The FUUs of `bim_au_write`. -/
def wFuus (di : DecoderInit) (fuus : List Bits) : Wr :=
  if di.addSchemaOnly then return []
  else do
    let bits ← wrEach wFuu fuus
    return vluimsbf8Bits fuus.length ++ bits

/-- `bim_au_write`: the bytes written and the state after them. -/
def write (st : AuState) (au : Au) : Except (BimErr × AuState) (List UInt8 × AuState) :=
  if !st.di.addSchema ∧ au.suus ≠ [] then
    throw (rangeErr "SUU without AdditionalSchemaFlag", st)
  else if st.di.addSchemaOnly ∧ au.fuus ≠ [] then
    throw (rangeErr "FUU with AdditionalSchemaUpdatesOnlyFlag", st)
  else do
    let (suus, st') ← wUpdates st au.suus
    let fuus ← (wFuus st.di au.fuus).mapError fun e => (e, st')
    return (packBytes (suus ++ fuus), st')

end DvbIpiTools.Bim.AccessUnit
