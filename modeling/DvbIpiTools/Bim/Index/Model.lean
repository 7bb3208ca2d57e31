import Mathlib.Data.List.Sort
import DvbIpiTools.Bim.StrRepo
import DvbIpiTools.Helper.DateUtil

set_option autoImplicit false

/-! # Index containers (`index.c`)

`bim_index_build` sorts the entries of each kind, cuts them into chunks and lays the chunks out as
sub-index containers behind an index list container; `bim_index_check` walks received containers from
the index list on and counts what is wrong. Bodies are byte lists. Allocation succeeds. -/

namespace DvbIpiTools.Bim.Index

open DateUtil

def bimRepoMax : Nat := 0xFFFF

/-- `LEAF_HDR`, `NODE_HDR`, `INDEX_HDR`. -/
def leafHdr : UInt8 := 0xBF

def nodeHdr : UInt8 := 0x3F

def indexHdr : UInt8 := 0x3F

def locatorRemote : UInt8 := 0x01

def xpathField : Nat := 0xFFFF

def locatorLen : Nat := 5

/-- `BIM_STRUCT_*` of the structures here. -/
inductive StructType where
  | dataRepository
  | indexList
  | index
  | subIndex
deriving DecidableEq

/-- `BIM_STRUCT_ID_UNUSED`. -/
def structIdUnused : Nat := 0xFF

/-- `BIM_DATAREPO_STRINGS`. -/
def dataRepoStrings : Nat := 0

/-- `BIM_INDEX_LIST_CONTAINER`. -/
def indexListContainer : Nat := 0

/-! ## Kinds -/

/-- One key field of a kind: `xpath[f]`, `fid[f]`. -/
structure Field where
  xpath : CStr
  fid : Nat

/-- `kind_t`; `fields` holds `nfields` entries. -/
structure Kind where
  fragType : Nat
  timeKey : Bool
  fields : List Field

def Kind.nfields (k : Kind) : Nat := k.fields.length

/-- `kinds[kind]`. -/
def kindAt : Nat → Kind
  | 0 => ⟨0x0001, false, [⟨⟨text "@tva:programId", by decide +kernel⟩, 0x0002⟩]⟩
  | 1 => ⟨0x0001, false, [⟨⟨text "tva:BasicDescription/tva:Title.text()", by decide +kernel⟩, 0x0001⟩]⟩
  | 2 => ⟨0x0005, true, [⟨⟨text "@tva:end", by decide +kernel⟩, 0x0003⟩,
      ⟨⟨text "@tva:serviceIdRef", by decide +kernel⟩, 0x0004⟩]⟩
  | 3 => ⟨0x0005, false, [⟨⟨text "tva:ScheduleEvent/tva:InstanceDescription/tva:Title.text()",
      by decide +kernel⟩, 0x0005⟩]⟩
  | 4 => ⟨0x0002, false, [⟨⟨text "@tva:groupId", by decide +kernel⟩, 0x0000⟩]⟩
  | _ => ⟨0x0002, false, [⟨⟨text "tva:BasicDescription/tva:Title.text()", by decide +kernel⟩, 0x0001⟩]⟩

def bimIndexKinds : Nat := 6

/-- `BIM_INDEX_SCHED_TITLE`. -/
def schedTitle : Nat := 3

/-- `bim_index_entry_t`; `key1` is read for kinds with two fields only. -/
structure Entry where
  key0 : CStr
  key1 : CStr := ⟨[], CStr.zero_notMem_nil⟩
  container : UInt16
  fragment : UInt32

/-! ## Order -/

/-- The loop of `strcmp`; the sign of the result is what its callers look at. -/
def strcmpFrom : List UInt8 → List UInt8 → Ordering
  | [], [] => .eq
  | [], _ :: _ => .lt
  | _ :: _, [] => .gt
  | a :: as, b :: bs => if a < b then .lt else if b < a then .gt else strcmpFrom as bs

def strcmp (a b : CStr) : Ordering := strcmpFrom a.val b.val

def keyCmp (timeKey : Bool) (a b : CStr) : Ordering :=
  if timeKey then
    match iso8601UtcSecs a, iso8601UtcSecs b with
    | some x, some y => if x ≠ y then compare x y else strcmp a b
    | _, _ => strcmp a b
  else strcmp a b

def tupleCmp (k : Kind) (a b : CStr × CStr) : Ordering :=
  if keyCmp k.timeKey a.1 b.1 ≠ .eq ∨ k.nfields < 2 then keyCmp k.timeKey a.1 b.1 else strcmp a.2 b.2

def entryCmp (k : Kind) (a b : Entry) : Ordering :=
  let c := tupleCmp k (a.key0, a.key1) (b.key0, b.key1)
  if c ≠ .eq then c
  else if a.container ≠ b.container then compare a.container.toNat b.container.toNat
  else compare a.fragment.toNat b.fragment.toNat

/-- `qsort` with `entry_cmp`: entries that compare equal are alike in all that is read of them. -/
def sortEntries (k : Kind) (e : List Entry) : List Entry :=
  if e.length > 1 then e.insertionSort fun a b => entryCmp k a b ≠ .gt else e

/-! ## Bytes -/

/-- `be16_put`. -/
def be16 (v : Nat) : List UInt8 := [UInt8.ofNat (v / 256), UInt8.ofNat v]

/-- `be24_put`. -/
def be24 (v : Nat) : List UInt8 := [UInt8.ofNat (v / 65536), UInt8.ofNat (v / 256), UInt8.ofNat v]

def be16Get : List UInt8 → Nat
  | a :: b :: _ => a.toNat * 256 + b.toNat
  | _ => 0

def be24Get : List UInt8 → Nat
  | a :: b :: c :: _ => a.toNat * 65536 + b.toNat * 256 + c.toNat
  | _ => 0

/-- `put_locator`. -/
def locator (e : Entry) : List UInt8 := be16 e.container.toNat ++ be24 e.fragment.toNat

/-- `put_str`: the string's offset, nothing beyond 16 bit. -/
def putStr (sw : List UInt8) (s : CStr) : Option (Nat × List UInt8) :=
  if sw.length + s.val.length + 1 > bimRepoMax then none else some (sw.length, strrepoPut sw s)

/-! ## Containers -/

/-- `bim_struct_t`. -/
structure Struct where
  type : StructType
  id : Nat
  body : List UInt8

/-- `bim_index_cont_t`. -/
structure Cont where
  id : Nat
  structs : List Struct

/-! ## Build -/

def entryStrlen (k : Kind) (e : Entry) : Nat :=
  e.key0.val.length + 1 + if k.nfields > 1 then e.key1.val.length + 1 else 0

/-- The loop of the leaf layer: for each entry the offset of one of its keys, and its locator. -/
def leafLayer (key : Entry → CStr) : List UInt8 → List Entry → Option (List UInt8 × List UInt8)
  | sw, [] => some ([], sw)
  | sw, e :: es => do
    let (off, sw) ← putStr sw (key e)
    let (rest, sw) ← leafLayer key sw es
    return (be16 off ++ locator e ++ rest, sw)

/-- Whether an entry has the end time of the group that `e` starts. -/
def sameEnd (e x : Entry) : Bool := keyCmp true x.key0 e.key0 = .eq

/-- The outer loop of `build_sub` with two layers: for each end time its offset and the index of its
last entry; `j` entries so far. The fuel is the number of entries left. -/
def endLayer : Nat → Nat → List UInt8 → List Entry → Option (List UInt8 × List UInt8 × List UInt8)
  | 0, _, sw, _ => some ([], [], sw)
  | _ + 1, _, sw, [] => some ([], [], sw)
  | fuel + 1, j, sw, e :: es => do
    let (off, sw) ← putStr sw e.key0
    let group := (e :: es).takeWhile (sameEnd e)
    let (l2, sw) ← leafLayer Entry.key1 sw group
    let (l1, rest, sw) ← endLayer fuel (j + group.length) sw ((e :: es).dropWhile (sameEnd e))
    return (be16 off ++ be16 (j + group.length - 1) ++ l1, l2 ++ rest, sw)

def buildSub (k : Kind) (e : List Entry) : Option (List Struct) :=
  if k.nfields = 1 then do
    let (l2, sw) ← leafLayer Entry.key0 strrepoInit e
    return [⟨.subIndex, 0, leafHdr :: l2⟩, ⟨.dataRepository, dataRepoStrings, sw⟩]
  else do
    let (l1, l2, sw) ← endLayer e.length 0 strrepoInit e
    return [⟨.subIndex, 0, nodeHdr :: 1 :: l1⟩, ⟨.subIndex, 1, leafHdr :: l2⟩,
      ⟨.dataRepository, dataRepoStrings, sw⟩]

/-- The loop of `chunk_len`: `i` entries with `strs` bytes of strings so far. -/
def chunkLenFrom (k : Kind) : Nat → Nat → List Entry → Nat
  | _, i, [] => i
  | strs, i, e :: es =>
    if i < 0xFFFF ∧ ¬ strs + entryStrlen k e > bimRepoMax then
      chunkLenFrom k (strs + entryStrlen k e) (i + 1) es
    else i

def chunkLen (k : Kind) (e : List Entry) : Nat := chunkLenFrom k 1 0 e

/-- The loop of `bim_index_build` that cuts a chunk back to a change of the end time. -/
def cutBack (e : List Entry) : Nat → Nat
  | 0 => 0
  | m + 1 =>
    match e[m + 1]?, e[m]? with
    | some x, some y => if m + 1 > 1 ∧ keyCmp true x.key0 y.key0 = .eq then cutBack e m else m + 1
    | _, _ => m + 1

/-- The entries of the next chunk; 0 if there is no room for one. -/
def cut (k : Kind) (e : List Entry) : Nat :=
  if k.nfields > 1 then cutBack e (chunkLen k e) else chunkLen k e

/-- The strings of the fields of the kind. -/
def Kind.keys (k : Kind) (e : Entry) : List CStr := [e.key0, e.key1].take k.nfields

/-- What `bim_index_build` holds while it runs. -/
structure Out where
  /-- strings of the index list container -/
  sw : List UInt8 := strrepoInit
  list : List UInt8 := []
  structs : List Struct := []
  subs : List Cont := []
  nextId : Nat

/-- Offsets of the strings in the index list container. -/
def putKeys : List UInt8 → List CStr → Except Int (List UInt8 × List UInt8)
  | sw, [] => return ([], sw)
  | sw, s :: ss =>
    match putStr sw s with
    | none => throw (if sw.length + s.val.length + 1 > bimRepoMax then -2 else -1)
    | some (off, sw) => do
      let (offs, sw) ← putKeys sw ss
      return (be16 off ++ offs, sw)

/-- One chunk: its container, and its entry of the index structure. -/
def putChunk (k : Kind) (chunk : List Entry) (ix : List UInt8) (o : Out) :
    Except Int (List UInt8 × Out) := do
  if o.nextId > 0xFFFF then throw (-3)
  match buildSub k chunk with
  | none => throw (-1)
  | some structs =>
    let (offs, sw) ← putKeys o.sw (chunk.getLast?.elim [] k.keys)
    return (ix ++ (offs ++ be16 o.nextId ++ [0]), { o with
      sw
      subs := o.subs ++ [⟨o.nextId, structs⟩]
      nextId := o.nextId + 1 })

/-- The chunk loop of `bim_index_build`; the fuel is the number of entries. -/
def putChunks (k : Kind) : Nat → List Entry → List UInt8 → Out → Except Int (List UInt8 × Out)
  | 0, _, ix, o => return (ix, o)
  | _ + 1, [], ix, o => return (ix, o)
  | fuel + 1, e :: es, ix, o =>
    let m := cut k (e :: es)
    if m = 0 then throw (-1)
    else do
      let (ix, o) ← putChunk k ((e :: es).take m) ix o
      putChunks k fuel ((e :: es).drop m) ix o

/-- The fields of `list_entry`; a failure gives the error of its caller, which depends on how far the
strings had got. -/
def listFields : List UInt8 → List Field → Except Int (List UInt8 × List UInt8)
  | sw, [] => return ([], sw)
  | sw, f :: fs =>
    match putStr sw f.xpath with
    | none => throw (if sw.length + 128 > bimRepoMax then -2 else -1)
    | some (off, sw) => do
      let (rest, sw) ← listFields sw fs
      return (be16 xpathField ++ be16 off ++ be16 0 ++ rest, sw)

def listEntry (sw : List UInt8) (kind : Nat) : Except Int (List UInt8 × List UInt8) := do
  let k := kindAt kind
  let (fields, sw) ← listFields sw k.fields
  return ((if k.nfields = 1 then 0x0C else 0x12) :: be16 k.fragType ++ UInt8.ofNat k.nfields :: fields ++
    be16 indexListContainer ++ [UInt8.ofNat kind], sw)

/-- The kind loop of `bim_index_build`, for one kind of the mask. -/
def putKind (kind : Nat) (e : List Entry) (o : Out) : Except Int Out := do
  let e := sortEntries (kindAt kind) e
  let (entry, sw) ← listEntry o.sw kind
  let (ix, o) ← putChunks (kindAt kind) e.length e [indexHdr, locatorRemote] { o with
    sw
    list := o.list ++ entry }
  return { o with structs := o.structs ++ [⟨.index, kind, ix⟩] }

/-- The kinds of a mask. -/
def kindsOf (mask : Nat) : List Nat := (List.range bimIndexKinds).filter mask.testBit

/-- The kind loop of `bim_index_build`. -/
def putKinds (inp : Nat → List Entry) : List Nat → Out → Except Int Out
  | [], o => return o
  | kind :: kinds, o => do
    let o ← putKind kind (inp kind) o
    putKinds inp kinds o

def bimIndexBuild (mask : Nat) (inp : Nat → List Entry) (firstId : Nat) : Except Int (List Cont) := do
  let o ← putKinds inp (kindsOf mask) { nextId := firstId }
  return ⟨indexListContainer, o.structs ++ [⟨.indexList, structIdUnused, o.list⟩,
    ⟨.dataRepository, dataRepoStrings, o.sw⟩]⟩ :: o.subs

/-! ## Check -/

/-- A leaf entry as the check reads it. -/
structure Leaf where
  kind : Nat
  key0 : CStr
  key1 : CStr := ⟨[], CStr.zero_notMem_nil⟩
  container : Nat
  fragment : Nat

/-- `bim_index_report_t`; `seen` lists the leaf entries that `entries` counts. -/
structure Report where
  indexes : Nat := 0
  ignored : Nat := 0
  entries : Nat := 0
  missing : Nat := 0
  malformed : Nat := 0
  misordered : Nat := 0
  unresolved : Nat := 0
  seen : List Leaf := []

/-- What two parts of the walk count together. -/
def Report.add (a b : Report) : Report where
  indexes := a.indexes + b.indexes
  ignored := a.ignored + b.ignored
  entries := a.entries + b.entries
  missing := a.missing + b.missing
  malformed := a.malformed + b.malformed
  misordered := a.misordered + b.misordered
  unresolved := a.unresolved + b.unresolved
  seen := a.seen ++ b.seen

instance : Add Report := ⟨Report.add⟩

/-- `check_t` without the report: `find` and `has`. -/
structure Check where
  find : Nat → StructType → Nat → Option (List UInt8)
  has : Nat → Nat → Bool

def Check.stringsOf (c : Check) (cont : Nat) : Option (List UInt8) :=
  c.find cont .dataRepository dataRepoStrings

def checkLocator (c : Check) (l : Leaf) : Report where
  entries := 1
  unresolved := if c.has l.container l.fragment then 0 else 1
  seen := [l]

/-- A count in the order column. -/
def misorderedIf (b : Bool) : Report where
  misordered := if b then 1 else 0

/-- One entry of a leaf layer. -/
structure Record where
  off : Nat
  container : Nat
  fragment : Nat

/-- The entries of a leaf layer behind its header. -/
def records : List UInt8 → List Record
  | a :: b :: c :: d :: e :: f :: g :: rest => ⟨be16Get [a, b], be16Get [c, d], be24Get [e, f, g]⟩ :: records rest
  | _ => []

/-- Whether a leaf layer does not have the shape of one. -/
def badLeaf (b : List UInt8) : Bool :=
  b.length < 1 || (b.headD 0).toNat / 64 ≠ 2 || (b.length - 1) % (2 + locatorLen) ≠ 0

/-- The order test of `check_single`: `prev` may not be above `v`, nor equal to it if it is still `lo`
(the pointers are compared: the strings of a sub-index are not those of the index). -/
def aboveSingle (atLo : Bool) (prev : Option CStr) (v : CStr) : Bool :=
  match prev with
  | none => false
  | some p => if atLo then keyCmp false p v ≠ .lt else keyCmp false p v = .gt

/-- The loop of `check_single`. -/
def singleLoop (c : Check) (kind : Nat) (s : List UInt8) (hi : CStr) :
    Bool → Option CStr → List Record → Report
  | _, _, [] => {}
  | atLo, prev, r :: rest =>
    match strrepoAt s r.off with
    | none => { malformed := 1 }
    | some v =>
      misorderedIf (aboveSingle atLo prev v || keyCmp false v hi = .gt) +
        checkLocator c ⟨kind, v, ⟨[], CStr.zero_notMem_nil⟩, r.container, r.fragment⟩ +
        singleLoop c kind s hi false (some v) rest

def checkSingle (c : Check) (kind cont id : Nat) (lo : Option CStr) (hi : CStr) : Report :=
  match c.find cont .subIndex id, c.stringsOf cont with
  | some b, some s =>
    if badLeaf b then { malformed := 1 } else singleLoop c kind s hi true lo (records b.tail)
  | _, _ => { missing := 1 }

/-- The inner loop of `check_two`: the entries of one end time; with the last tuple, unless a string
is missing. -/
def endLoop (c : Check) (kind : Nat) (s : List UInt8) (hi : CStr × CStr) (fin : CStr) :
    Option (CStr × CStr) → List Record → Report × Option (Option (CStr × CStr))
  | prev, [] => ({}, some prev)
  | prev, r :: rest =>
    match strrepoAt s r.off with
    | none => ({ malformed := 1 }, none)
    | some v =>
      let here := misorderedIf (prev.any (fun p => tupleCmp (kindAt kind) p (fin, v) = .gt) ||
          tupleCmp (kindAt kind) (fin, v) hi = .gt) + checkLocator c ⟨kind, fin, v, r.container, r.fragment⟩
      let (rep, last) := endLoop c kind s hi fin (some (fin, v)) rest
      (here + rep, last)

/-- The outer loop of `check_two` over the first layer `l1`; `l2` is the length of the second layer,
`recs` its entries. -/
def twoLoop (c : Check) (kind : Nat) (s : List UInt8) (hi : CStr × CStr) (l2 : Nat) (recs : List Record) :
    Nat → Option (CStr × CStr) → List UInt8 → Report
  | start, prev, a :: b :: d :: e :: l1 =>
    let last := be16Get [d, e]
    match strrepoAt s (be16Get [a, b]) with
    | none => { malformed := 1 }
    | some fin =>
      if last < start ∨ 1 + (last + 1) * (2 + locatorLen) > l2 then { malformed := 1 }
      else
        match endLoop c kind s hi fin prev ((recs.drop start).take (last + 1 - start)) with
        | (rep, none) => rep
        | (rep, some prev) => rep + twoLoop c kind s hi l2 recs (last + 1) prev l1
  | start, _, _ => if 1 + start * (2 + locatorLen) ≠ l2 then { malformed := 1 } else {}

def checkTwo (c : Check) (kind cont id : Nat) (lo : Option (CStr × CStr)) (hi : CStr × CStr) : Report :=
  match c.find cont .subIndex id, c.stringsOf cont with
  | some b1, some s =>
    if b1.length < 2 ∨ (b1.headD 0).toNat / 64 ≠ 0 ∨ (b1.length - 2) % 4 ≠ 0 then { malformed := 1 }
    else
      match c.find cont .subIndex (b1.getD 1 0).toNat with
      | none => { missing := 1 }
      | some b2 =>
        if badLeaf b2 then { malformed := 1 }
        else twoLoop c kind s hi b2.length (records b2.tail) 0 lo (b1.drop 2)
  | _, _ => { missing := 1 }

/-- The upper bound of an index entry whose bytes are `h`. -/
def upperBound (k : Kind) (s h : List UInt8) : Option (CStr × CStr) := do
  let hi0 ← strrepoAt s (be16Get h)
  let hi1 ← if k.nfields > 1 then strrepoAt s (be16Get (h.drop 2)) else some ⟨[], CStr.zero_notMem_nil⟩
  return (hi0, hi1)

/-- The loop of `check_index` over entries of `step` bytes; the fuel is their length. -/
def indexLoop (c : Check) (kind : Nat) (s : List UInt8) (overlap : Bool) (step : Nat) :
    Nat → Option (CStr × CStr) → List UInt8 → Report
  | 0, _, _ => {}
  | _ + 1, _, [] => {}
  | fuel + 1, lo, b =>
    let k := kindAt kind
    let h := b.drop (if overlap then 2 * k.nfields else 0)
    let sc := be16Get (h.drop (2 * k.nfields))
    let sid := ((h.drop (2 * k.nfields + 2)).headD 0).toNat
    match upperBound k s h with
    | none => { malformed := 1 }
    | some hi =>
      misorderedIf (lo.any fun l => !overlap && tupleCmp k l hi ≠ .lt) +
        (if k.nfields = 1 then checkSingle c kind sc sid (lo.map Prod.fst) hi.1
          else checkTwo c kind sc sid lo hi) + indexLoop c kind s overlap step fuel (some hi) (b.drop step)

def checkIndex (c : Check) (kind cont id : Nat) : Report :=
  match c.find cont .index id, c.stringsOf cont with
  | some b, some s =>
    let overlap := decide (b.length ≥ 2 ∧ (b.headD 0).toNat ≥ 0x80)
    let step := (if overlap then 4 else 2) * (kindAt kind).nfields + 3
    if b.length < 2 ∨ b.getD 1 0 ≠ locatorRemote ∨ (b.length - 2) % step ≠ 0 then { malformed := 1 }
    else indexLoop c kind s overlap step b.length none (b.drop 2)
  | _, _ => { missing := 1 }

/-- What `bim_index_check` reads of one field of an index list entry. -/
structure FieldRead where
  fid : Nat := 0
  xp : Option CStr := none
  enc : Nat := 0

/-- The field loop of `bim_index_check` on the bytes up to the end of the entry: the fields read, and
the bytes behind them. -/
def readFields (s : Option (List UInt8)) : Nat → List UInt8 → List FieldRead × List UInt8
  | 0, b => ([], b)
  | nf + 1, b =>
    if b.length < 4 then ([], b)
    else
      let v := be16Get b
      let b := b.drop 2
      if v = xpathField then
        if b.length < 2 then ([], b)
        else
          let xp := s.bind fun s => strrepoAt s (be16Get b)
          let b := b.drop 2
          if b.length < 2 then ([{ xp }], b)
          else
            let (rest, left) := readFields s nf (b.drop 2)
            ({ fid := v, xp, enc := be16Get b } :: rest, left)
      else
        let (rest, left) := readFields s nf (b.drop 2)
        ({ fid := v, enc := be16Get b } :: rest, left)

/-- `tolower` in the C locale. -/
def toLower (c : UInt8) : UInt8 := if 65 ≤ c ∧ c ≤ 90 then c + 32 else c

/-- `!strcasecmp`. -/
def strcaseEq (a b : CStr) : Bool := a.val.map toLower = b.val.map toLower

/-- The test of `match_kind` on one field. -/
def fieldMatches (r : FieldRead) (d : Field) : Bool := r.enc = 0x0000 &&
    if r.fid = xpathField then r.xp.any fun x => strcaseEq x d.xpath else r.fid = d.fid

/-- The test of `match_kind` on kind `k`; fields that were not read are zero. -/
def kindMatches (ftype nf : Nat) (fs : List FieldRead) (k : Nat) : Bool :=
  let d := kindAt k
  nf = d.nfields && (ftype = d.fragType || (k = schedTitle && ftype = 0x0002)) &&
    (List.range nf).all fun f => (d.fields[f]?).all fun df => fieldMatches (fs.getD f {}) df

def matchKind (ftype nf : Nat) (fs : List FieldRead) : Option Nat :=
  (List.range bimIndexKinds).find? (kindMatches ftype nf fs)

/-- One entry of the index list, its bytes `d`. -/
def checkEntry (c : Check) (s : Option (List UInt8)) (d : List UInt8) : Report :=
  let ftype := be16Get d
  let rest := d.drop (2 + if ftype = xpathField then 2 else 0)
  let nf := (rest.headD 0).toNat
  let (fs, left) := readFields s nf rest.tail
  match if left.length = 3 then matchKind ftype nf fs else none with
  | none => { ignored := 1 }
  | some kind =>
    { indexes := 1 : Report } + checkIndex c kind (be16Get left) ((left.drop 2).headD 0).toNat

/-- The loop of `bim_index_check`; the fuel is the length of the list. -/
def listLoop (c : Check) (s : Option (List UInt8)) : Nat → List UInt8 → Report
  | 0, _ => {}
  | _ + 1, [] => {}
  | fuel + 1, dl :: b =>
    if dl.toNat > b.length ∨ dl.toNat < 3 then { malformed := 1 }
    else checkEntry c s (b.take dl.toNat) + listLoop c s fuel (b.drop dl.toNat)

/-- `bim_index_check`: `none` without an index list. -/
def bimIndexCheck (c : Check) : Option Report := do
  let b ← c.find indexListContainer .indexList structIdUnused
  return listLoop c (c.stringsOf indexListContainer) b.length b

/-- A lookup in containers, as `ix_find` of the listener does it: the container of the id, then the
structure in it. -/
def findIn (conts : List Cont) (cont : Nat) (type : StructType) (id : Nat) : Option (List UInt8) := do
  let c ← conts.find? fun c => c.id = cont
  let st ← c.structs.find? fun st => st.type = type && st.id = id
  return st.body

end DvbIpiTools.Bim.Index
