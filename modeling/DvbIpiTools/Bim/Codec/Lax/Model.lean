import Mathlib.Data.List.Nodup
import Mathlib.Data.List.Perm.Basic
import DvbIpiTools.Bim.Codec.Times

set_option autoImplicit false

/-! # The lax symbol table (`laxsym.c`)

The encoder and the decoder keep one table each: 128 entries of up to three events, the most recent one first, each with a code of
seven bits that it keeps while it moves. No two entries ever have the same code: that is part of the type. -/

namespace DvbIpiTools.Bim.Lax

open List Option

def laxSyms : Nat := 128

/-- The events of an entry: `ev` and `n`. -/
inductive Events where
  | one (e : Nat)
  | two (d e : Nat)
  | three (c d e : Nat)
deriving DecidableEq

/-- The events in their order. -/
def Events.toList : Events → List Nat
  | .one e => [e]
  | .two d e => [d, e]
  | .three c d e => [c, d, e]

/-- `lax_sym_t`. -/
structure Sym where
  ev : Events
  code : Nat

/-- `tab`: the codes are pairwise different and have seven bits. -/
structure Table where
  syms : List Sym
  nodup : (syms.map Sym.code).Nodup
  code_lt : ∀ s ∈ syms, s.code < laxSyms

/-- The entry that an update takes: the one with these events, else the oldest. -/
def Table.taken (t : Table) (ev : Events) : Nat := (t.syms.findIdx? (·.ev = ev)).getD (laxSyms - 1)

theorem map_code_cons {syms : List Sym} {at_ : Nat} {s : Sym} (h : syms[at_]? = some s) (ev : Events) :
    (({ s with ev } :: syms.eraseIdx at_).map Sym.code).Perm (syms.map Sym.code) := by
  obtain ⟨hlt, hs⟩ := List.getElem?_eq_some_iff.1 h
  have hperm := (getElem_cons_eraseIdx_perm hlt).map Sym.code
  rwa [hs] at hperm

/-- `update_symbol`: the entry goes to the front; the code of the oldest one is used again. -/
def Table.update (t : Table) (ev : Events) : Table :=
  match h : t.syms[t.taken ev]? with
  | none => t
  | some s =>
    { syms := { s with ev } :: t.syms.eraseIdx (t.taken ev)
      nodup := (map_code_cons h ev).nodup_iff.2 t.nodup
      code_lt := fun u hu => by
        have hmem := (map_code_cons h ev).mem_iff.1 (List.mem_map_of_mem hu)
        obtain ⟨v, hv, hcode⟩ := List.mem_map.1 hmem
        exact hcode ▸ t.code_lt v hv }

/-- `lax_syms_t`; the events before are there from the first and the second event on. -/
structure Syms where
  tab : Table
  agg : Bool
  last : Option Nat := none
  last2 : Option Nat := none

def Syms.updateOne (s : Syms) (e : Nat) : Syms :=
  let tab := match s.last, s.last2 with
    | none, _ => s.tab
    | some d, none => s.tab.update (.two d e)
    | some d, some c => (s.tab.update (.three c d e)).update (.two d e)
  { s with tab := tab.update (.one e), last2 := s.last, last := some e }

/-- `lax_syms_init`. -/
def Syms.init (agg : Bool) : Syms where
  tab :=
    { syms := (range laxSyms).map fun i => ⟨.one i, i⟩
      nodup := by
        rw [List.map_map]
        exact (List.map_id (range laxSyms)).symm ▸ nodup_range
      code_lt := fun s hs => by
        obtain ⟨i, hi, rfl⟩ := List.mem_map.1 hs
        exact mem_range.1 hi }
  agg

/-- `lax_syms_event`. -/
def Syms.event (s : Syms) (e : Nat) : Syms :=
  if s.agg then s.updateOne e else { s with tab := s.tab.update (.one e) }

/-- `lax_syms_by_code`. -/
def Syms.byCode (s : Syms) (code : Nat) : Option Sym := s.tab.syms.find? (·.code = code)

/-- `lax_syms_code`. -/
def Syms.code (s : Syms) (e : Nat) : Option Nat := (s.tab.syms.find? (·.ev = .one e)).map Sym.code

variable {e c : Nat}

theorem Syms.byCode_code {s : Syms} (h : s.code e = some c) : s.byCode c = some ⟨.one e, c⟩ := by
  obtain ⟨u, hu, rfl⟩ := map_eq_some_iff.1 h
  have hmem := mem_of_find?_eq_some hu
  have hev : u.ev = .one e := by simpa using find?_some hu
  unfold Syms.byCode
  cases hfind : s.tab.syms.find? (·.code = u.code) with
  | none => exact absurd (find?_eq_none.1 hfind u hmem) (by simp)
  | some v =>
    have hcode : v.code = u.code := by simpa using find?_some hfind
    have huv : v = u := inj_on_of_nodup_map s.tab.nodup (mem_of_find?_eq_some hfind) hmem hcode
    rw [huv, ← hev]

/-! # Lax encoding of an element (`encode/lax.c`)

The tree is written as events. A namespace and a name are introduced by an event of their own in front of their first use and have
the next free number from then on. -/

open BitList

/-- `lw_t`. A known name is a namespace id with a local name. -/
structure Writer where
  bw : List Bool
  sy : Syms
  ns : List CStr
  el : List (Nat × CStr)
  at_ : List (Nat × CStr)

/-- A function that takes `lw_t *`. -/
abbrev Enc (α : Type) := StateT Writer Option α

/-- `bitwriter_put`, `bitwriter_put_bytes`. -/
def put (bits : List Bool) : Enc Unit := modify fun l => { l with bw := l.bw ++ bits }

/-- What `event` puts: the code of the table, or fifteen bits behind an extension bit. -/
def eventBits (sy : Syms) (ev : Nat) : Option (List Bool) := match sy.code ev with
  | some code => some (ofNat 8 code)
  | none => if ev > 32767 then none else some (ofNat 16 (1 <<< 15 ||| ev))

def event (ev : Nat) : Enc Unit := fun l =>
  (eventBits l.sy ev).map fun bits => ((), { l with bw := l.bw ++ bits, sy := l.sy.event ev })

def str (s : CStr) : Enc Unit := put (ofBytes s.val ++ ofNat 8 0)

/-- No namespace is the empty one. -/
def nsOf (ns : Option CStr) : CStr := ns.getD (CStr.ofBytes [])

/-- A namespace that is not known yet. -/
def newNs (uri : CStr) : Enc Nat := fun l =>
  if l.ns.length ≥ 256 then none
  else (do event 1; str uri; return l.ns.length : Enc Nat) { l with ns := l.ns ++ [uri] }

def nsId (ns : Option CStr) : Enc Nat := fun l => match l.ns.findIdx? (· = nsOf ns) with
  | some id => some (id, l)
  | none => newNs (nsOf ns) l

/-- The two tables of names. -/
inductive Kind where
  | elem
  | attr

/-- The event that introduces a name. -/
def Kind.event : Kind → Nat
  | .elem => 2
  | .attr => 3

def Writer.names (l : Writer) : Kind → List (Nat × CStr)
  | .elem => l.el
  | .attr => l.at_

def Writer.addName (l : Writer) (x : Nat × CStr) : Kind → Writer
  | .elem => { l with el := l.el ++ [x] }
  | .attr => { l with at_ := l.at_ ++ [x] }

/-- A name in the namespace `id` that is not known yet. -/
def newName (k : Kind) (id : Nat) (name : CStr) : Enc Nat := fun l =>
  (do event k.event; put (ofNat 8 id); str name; return (l.names k).length : Enc Nat) (l.addName (id, name) k)

/-- `name_id` behind `ns_id`. -/
def nameIn (k : Kind) (id : Nat) (name : CStr) : Enc Nat := fun l =>
  match (l.names k).findIdx? (· = (id, name)) with
  | some code => some (code, l)
  | none => newName k id name l

def nameId (k : Kind) (ns : Option CStr) (name : CStr) : Enc Nat := do
  let id ← nsId ns
  nameIn k id name

/-- The attributes of an element: each one a name and a value. -/
def walkAttrs : List NodeAttr → Enc Unit
  | [] => pure ()
  | a :: attrs => do
    let aid ← nameId .attr a.ns a.name
    event (24 + 2 * aid)
    str a.value
    walkAttrs attrs

/-- A text of the node itself. -/
def walkText : Option CStr → Enc Unit
  | none => pure ()
  | some s => do
    event 6
    str s

mutual

def walk : BimNode → Enc Unit
  | .mk none _ text _ _ _ _ => do
    event 6
    str (text.getD (CStr.ofBytes []))
  | .mk (some name) ns text attrs kids _ _ => do
    let eid ← nameId .elem ns name
    walkAttrs attrs
    event (23 + 2 * eid)
    walkText text
    walkKids kids
    event 4

def walkKids : List BimNode → Enc Unit
  | [] => pure ()
  | k :: kids => do
    walk k
    walkKids kids

end

/-- What `enc_lax` looks at in its options. -/
structure EncOpts where
  laxAgg : Bool
  laxZlib : Bool
  deflate : Option (List UInt8 → Nat → Option (List UInt8))

/-- The bits behind the header. -/
def body (o : EncOpts) (events : List Bool) : Option (List Bool) :=
  if o.laxZlib then do
    let deflate ← o.deflate
    let data := packBytes events
    let out ← deflate data (data.length + data.length / 8 + 64)
    return ofBytes out
  else some events

def encLax (o : EncOpts) (k : BimNode) : Option (List Bool) := do
  let (_, l) ← (do walk k; event 7 : Enc Unit) { bw := [], sy := .init o.laxAgg, ns := [], el := [], at_ := [] }
  let events ← body o l.bw
  return ofNat 14 0 ++ [o.laxAgg, o.laxZlib] ++ events

/-! # Lax decoding (`decode/lax.c`)

One event after the other, with a stack of the open elements and the attributes of the next one. Every event takes a bit or more, so
as many rounds as there are bits are enough for all of them. -/

open BitList Codec Coder

/-- `lax_t` with the variables of `lax_events`: the open nodes, innermost first, and the attributes that wait for their element. -/
structure Reader where
  sy : Syms
  fifo : List Nat
  ns : List CStr
  el : List (Nat × CStr)
  at_ : List (Nat × CStr)
  stack : List BimNode
  pend : List (Nat × CStr)

/-- A step that reads nothing. -/
def lift {α : Type} (x : Option α) : BitRd α := fun s => x.map fun a => (a, s)

/-- The events of the next code. -/
def laxCode (sy : Syms) (ext : Bool) : BitRd (List Nat) :=
  if ext then do
    let uid ← getBits 15
    return [uid]
  else do
    let code ← getBits 7
    let sym ← lift (sy.byCode code)
    return sym.ev.toList

/-- The first one of the decoded events; the others wait. -/
def takeEvent (r : Reader) : List Nat → Option (Nat × Reader)
  | [] => none
  | e :: fifo => some (e, { r with fifo })

def laxEvent (r : Reader) : BitRd (Nat × Reader) :=
  if r.fifo = [] then do
    let ext ← getFlag
    let evs ← laxCode r.sy ext
    lift (takeEvent { r with sy := evs.foldl Syms.event r.sy } evs)
  else lift (takeEvent r r.fifo)

/-- The loop of `lax_string`. -/
def laxBytes : Nat → BitRd (List UInt8)
  | 0 => failure
  | n + 1 => do
    let b ← getBits 8
    if b = 0 then return []
    else
      let bs ← laxBytes n
      return UInt8.ofNat b :: bs

def laxString : BitRd CStr := fun s => ((laxBytes (s.length + 1)) s).map fun (bs, s) => (CStr.ofBytes bs, s)

def laxStrings : Nat → BitRd Unit
  | 0 => pure ()
  | n + 1 => do
    let _ ← laxString
    laxStrings n

def laxNsid (r : Reader) : BitRd Nat := do
  let b ← getBits 8
  require (b < r.ns.length)
  return b

/-- An introduced name. -/
def laxName (r : Reader) : BitRd (Nat × CStr) := do
  let id ← laxNsid r
  let s ← laxString
  return (id, s)

/-- `bim_node_add`. -/
def addKid : BimNode → BimNode → BimNode
  | .mk name ns text attrs kids cast deferred, k => .mk name ns text attrs (kids ++ [k]) cast deferred

/-- `bim_node_add_attr_ns` in a list of attributes. -/
def addAttr (attrs : List NodeAttr) (a : NodeAttr) : Option (List NodeAttr) :=
  if attrs.any fun b => b.name = a.name && b.ns = a.ns then none else some (attrs ++ [a])

/-- A node without a name. -/
def textNode (s : CStr) : BimNode := .mk none none (some s) [] []

/-- `keep_name`: a name with its namespace, where the empty one is none. -/
def keepName (r : Reader) (names : List (Nat × CStr)) (i : Nat) : Option (Option CStr × CStr) := do
  let (id, name) ← names[i]?
  let uri ← r.ns[id]?
  return (if uri = CStr.ofBytes [] then none else some uri, name)

/-- The waiting attributes on a new element. -/
def keepAttrs (r : Reader) : List (Nat × CStr) → List NodeAttr → Option (List NodeAttr)
  | [], attrs => some attrs
  | (id, value) :: pend, attrs => do
    let (ns, name) ← keepName r r.at_ id
    let attrs ← addAttr attrs { name, ns, value }
    keepAttrs r pend attrs

/-- The next round of `lax_events`, or its node. -/
inductive Next where
  | more (r : Reader)
  | done (node : BimNode)

/-- An element opens. -/
def openElement (r : Reader) (eid : Nat) : Option Next := do
  let (ns, name) ← keepName r r.el eid
  if r.stack.length ≥ 64 then none
  else
    let attrs ← keepAttrs r r.pend []
    return .more { r with stack := .mk (some name) ns none attrs [] :: r.stack, pend := [] }

/-- An element closes: in the tree it hangs below its parent already. -/
def closeElement (r : Reader) : Option Next := match r.stack with
  | k :: node :: stack => some (.more { r with stack := addKid node k :: stack })
  | _ => none

/-- A text below the innermost node. -/
def addText (r : Reader) (s : CStr) : Option Next := match r.stack with
  | node :: stack => some (.more { r with stack := addKid node (textNode s) :: stack })
  | [] => none

/-- The end: everything has to be closed. -/
def finish (r : Reader) : Option Next := match r.stack with
  | [node] => some (.done node)
  | _ => none

/-- The events with a fixed number. -/
def control (r : Reader) (e : Nat) : BitRd Next := match e with
  | 1 => do
    require (r.ns.length < 256)
    let s ← laxString
    return .more { r with ns := r.ns ++ [s] }
  | 2 => do
    let x ← laxName r
    return .more { r with el := r.el ++ [x] }
  | 3 => do
    let x ← laxName r
    return .more { r with at_ := r.at_ ++ [x] }
  | 4 => lift (closeElement r)
  | 5 => do
    let _ ← laxName r
    return .more r
  | 6 => do
    let s ← laxString
    lift (addText r s)
  | 7 => lift (finish r)
  | 8 | 13 | 15 => do
    laxStrings 2
    return .more r
  | 9 | 21 | 22 | 16 => do
    laxStrings 1
    return .more r
  | 10 | 14 | 19 => do
    laxStrings 3
    return .more r
  | 11 => do
    laxStrings 4
    return .more r
  | 12 => do
    laxStrings 5
    return .more r
  | 17 | 18 | 20 => pure (.more r)
  | _ => failure

/-- An attribute of the next element. -/
def pendAttr (r : Reader) (aid : Nat) : BitRd Next := do
  require (aid < r.at_.length && r.pend.length < 64)
  let s ← laxString
  return .more { r with pend := r.pend ++ [(aid, s)] }

/-- One round of `lax_events`. -/
def laxStep (r : Reader) : BitRd Next := do
  let (e, r) ← laxEvent r
  if e < 23 then control r e
  else if e % 2 = 1 then lift (openElement r ((e - 23) / 2))
  else pendAttr r ((e - 24) / 2)

def laxLoop : Nat → Reader → BitRd BimNode
  | 0, _ => failure
  | n + 1, r => do
    match ← laxStep r with
    | .more r => laxLoop n r
    | .done node => return node

def laxEvents (agg : Bool) (node : BimNode) : BitRd BimNode := fun s =>
  laxLoop (s.length + 1)
    { sy := .init agg, fifo := [], ns := [], el := [], at_ := [], stack := [node], pend := [] } s

/-- `uncompress` into a buffer of the given size. -/
abbrev Inflate := List UInt8 → Nat → Option (List UInt8)

/-- The sizes that `dec_lax` tries: 4096, four times as much each, up to 2^24. -/
def laxCaps : List Nat := (range 7).map (4096 * 4 ^ ·)

/-- The compressed events of `dec_lax`. -/
def laxZlib (inflate : Option Inflate) (bits : Nat) (agg : Bool) (node : BimNode) : BitRd BimNode := do
  match inflate with
  | none => failure
  | some inflate =>
    require (16 ≤ bits)
    let data ← Stream.getBytes ((bits - 16) / 8)
    match laxCaps.findSome? (inflate data) with
    | none => failure
    | some out => lift ((laxEvents agg node (ofBytes out)).map (·.1))

def decLax (inflate : Option Inflate) (bits : Nat) (node : BimNode) : BitRd BimNode := do
  let _ ← getBits 4
  let scheme ← getBits 4
  require (scheme = 0 || scheme = 1)
  let _ ← getBits 6
  let agg ← getFlag
  let z ← getFlag
  if z then laxZlib inflate bits agg node else laxEvents agg node

/-! # The rounds of the lax decoder are as many as its input allows

Every round takes an event off the input or off the events of the last code, and never gives bits back. -/

/-- What is left to do: bits, and events of the last code. -/
def toDo (r : Reader) (s : List Bool) : Nat := s.length + r.fifo.length

theorem length_toList_le (ev : Events) : ev.toList.length ≤ 3 := by cases ev <;> simp [Events.toList]

variable {s s' : List Bool} {α : Type}

theorem of_lift {x : Option α} {a : α} (h : lift x s = some (a, s')) : x = some a ∧ s' = s := by
  obtain ⟨b, hb, heq⟩ := map_eq_some_iff.1 h
  cases heq
  exact ⟨hb, rfl⟩

variable {r r' : Reader} {evs : List Nat}

theorem of_takeEvent (h : takeEvent r evs = some (e, r')) : r'.fifo.length + 1 = evs.length := by
  cases evs with
  | nil => cases h
  | cons d fifo =>
    cases h
    rfl

theorem of_laxCode {sy : Syms} {ext : Bool} (h : laxCode sy ext s = some (evs, s')) :
    s'.length + 7 ≤ s.length ∧ evs.length ≤ 3 := by
  unfold laxCode at h
  split at h
  · obtain ⟨⟨uid, s1⟩, huid, h⟩ := bind_eq_some_iff.1 h
    cases h
    have hlen := length_of_getBits huid
    exact ⟨by omega, by simp⟩
  obtain ⟨⟨code, s1⟩, hcode, h⟩ := bind_eq_some_iff.1 h
  obtain ⟨⟨sym, s2⟩, hsym, h⟩ := bind_eq_some_iff.1 h
  cases h
  obtain ⟨-, rfl⟩ := of_lift hsym
  have hlen := length_of_getBits hcode
  exact ⟨by omega, length_toList_le _⟩

theorem laxEvent_toDo (h : laxEvent r s = some ((e, r'), s')) : toDo r' s' < toDo r s := by
  unfold laxEvent at h
  split at h
  · obtain ⟨⟨ext, s1⟩, hext, h⟩ := bind_eq_some_iff.1 h
    obtain ⟨⟨evs, s2⟩, hevs, h⟩ := bind_eq_some_iff.1 h
    obtain ⟨htake, rfl⟩ := of_lift h
    have hflag := shrinks_getFlag s ext s1 hext
    have hcode := of_laxCode hevs
    have hfifo := of_takeEvent htake
    simp only [toDo]
    omega
  · obtain ⟨htake, rfl⟩ := of_lift h
    have hfifo := of_takeEvent htake
    simp only [toDo]
    omega

theorem shrinks_laxBytes (n : Nat) : Shrinks (laxBytes n) := by
  induction n with
  | zero => exact shrinks_failure
  | succ n ih =>
    refine (shrinks_getBits 8).bind fun b => ?_
    split
    · exact shrinks_pure _
    · exact ih.bind fun _ => shrinks_pure _

theorem shrinks_laxString : Shrinks laxString := by
  intro s a s' h
  obtain ⟨⟨bs, s1⟩, hbs, heq⟩ := map_eq_some_iff.1 h
  obtain ⟨-, rfl⟩ := Prod.mk.inj heq
  exact shrinks_laxBytes _ s bs s1 hbs

theorem shrinks_laxStrings (n : Nat) : Shrinks (laxStrings n) := by
  induction n with
  | zero => exact shrinks_pure ()
  | succ n ih => exact shrinks_laxString.bind fun _ => ih

theorem shrinks_laxName (r : Reader) : Shrinks (laxName r) :=
  ((shrinks_getBits 8).bind fun _ => (shrinks_require _).bind fun _ => shrinks_pure _).bind fun _ =>
    shrinks_laxString.bind fun _ => shrinks_pure _

/-- A reader of one round: it gives no bit back and leaves the pending events. -/
def Round (r : Reader) (p : BitRd Next) : Prop :=
  ∀ s r' s', p s = some (.more r', s') → s'.length ≤ s.length ∧ r'.fifo = r.fifo

variable {p : BitRd α}

theorem round_read {f : α → Reader} (hp : Shrinks p) (hf : ∀ a, (f a).fifo = r.fifo) :
    Round r (p >>= fun a => pure (.more (f a))) := by
  intro s r' s' h
  obtain ⟨⟨a, s1⟩, ha, h⟩ := bind_eq_some_iff.1 h
  obtain ⟨heq, rfl⟩ := Prod.mk.inj (some.inj h)
  obtain rfl := Next.more.inj heq
  exact ⟨hp s a s1 ha, hf a⟩

theorem round_lift {x : Option Next} (hx : ∀ r', x = some (.more r') → r'.fifo = r.fifo) : Round r (lift x) := by
  intro s r' s' h
  obtain ⟨n, hn, heq⟩ := map_eq_some_iff.1 h
  cases heq
  exact ⟨le_rfl, hx r' hn⟩

theorem round_failure (r : Reader) : Round r failure := fun _ _ _ h => absurd h (by simp [failure, StateT.failure])

theorem round_bind {f : α → BitRd Next} (hp : Shrinks p) (hf : ∀ a, Round r (f a)) : Round r (p >>= f) := by
  intro s r' s' h
  obtain ⟨⟨a, s1⟩, ha, h⟩ := bind_eq_some_iff.1 h
  obtain ⟨hle, hfifo⟩ := hf a s1 r' s' h
  exact ⟨le_trans hle (hp s a s1 ha), hfifo⟩

theorem closeElement_fifo (h : closeElement r = some (.more r')) : r'.fifo = r.fifo := by
  unfold closeElement at h
  split at h
  · obtain rfl := Next.more.inj (some.inj h)
    rfl
  · cases h

theorem addText_fifo {t : CStr} (h : addText r t = some (.more r')) : r'.fifo = r.fifo := by
  unfold addText at h
  split at h
  · obtain rfl := Next.more.inj (some.inj h)
    rfl
  · cases h

theorem finish_ne_more : finish r ≠ some (.more r') := by
  unfold finish
  split <;> exact fun h => (nomatch h)

theorem openElement_fifo {eid : Nat} (h : openElement r eid = some (.more r')) : r'.fifo = r.fifo := by
  obtain ⟨⟨ns, name⟩, -, h⟩ := bind_eq_some_iff.1 h
  simp only at h
  split at h
  · cases h
  · obtain ⟨attrs, -, h⟩ := bind_eq_some_iff.1 h
    obtain rfl := Next.more.inj (some.inj h)
    rfl

theorem round_control (r : Reader) (e : Nat) : Round r (control r e) := by
  unfold control
  split
  · exact round_bind (shrinks_require _) fun _ => round_read shrinks_laxString fun _ => rfl
  · exact round_read (shrinks_laxName r) fun _ => rfl
  · exact round_read (shrinks_laxName r) fun _ => rfl
  · exact round_lift fun _ => closeElement_fifo
  · exact round_read (shrinks_laxName r) fun _ => rfl
  · exact round_bind shrinks_laxString fun _ => round_lift fun _ => addText_fifo
  · exact round_lift fun _ h => absurd h finish_ne_more
  all_goals first
    | exact round_read (shrinks_laxStrings _) fun _ => rfl
    | exact round_read (shrinks_pure ()) fun _ => rfl
    | exact round_failure r

theorem laxStep_toDo (h : laxStep r s = some (.more r', s')) : toDo r' s' < toDo r s := by
  obtain ⟨⟨⟨e, r1⟩, s1⟩, he, h⟩ := bind_eq_some_iff.1 h
  have hevent := laxEvent_toDo he
  have hround : Round r1 (if e < 23 then control r1 e
      else if e % 2 = 1 then lift (openElement r1 ((e - 23) / 2)) else pendAttr r1 ((e - 24) / 2)) := by
    split
    · exact round_control r1 e
    · split
      · exact round_lift fun _ => openElement_fifo
      · exact round_bind (shrinks_require _) fun _ => round_read shrinks_laxString fun _ => rfl
  obtain ⟨hle, hfifo⟩ := hround s1 r' s' h
  simp only [toDo] at hevent ⊢
  rw [hfifo]
  omega

/-- A round that goes on. -/
def Step (x y : Reader × List Bool) : Prop := laxStep x.1 x.2 = some (.more y.1, y.2)

/-- Rounds that go on. -/
abbrev Steps : Reader × List Bool → Reader × List Bool → Prop := Relation.ReflTransGen Step

theorem laxLoop_more (h : laxStep r s = some (.more r', s')) (n : Nat) : laxLoop (n + 1) r s = laxLoop n r' s' := by
  rw [laxLoop, bits_bind h]

variable {x y : Reader × List Bool}

theorem laxLoop_of_steps (h : Steps x y) {node : BimNode} {rest : List Bool}
    (hdone : laxStep y.1 y.2 = some (.done node, rest)) :
    ∀ {n : Nat}, toDo x.1 x.2 < n → laxLoop n x.1 x.2 = some (node, rest) := by
  induction h using Relation.ReflTransGen.head_induction_on with
  | refl =>
    intro n hn
    obtain ⟨n, rfl⟩ := Nat.exists_eq_succ_of_ne_zero (ne_of_gt (Nat.zero_lt_of_lt hn))
    rw [laxLoop, bits_bind hdone]
    rfl
  | head hstep _ ih =>
    intro n hn
    obtain ⟨n, rfl⟩ := Nat.exists_eq_succ_of_ne_zero (ne_of_gt (Nat.zero_lt_of_lt hn))
    rw [laxLoop_more hstep]
    have hlt := laxStep_toDo hstep
    exact ih (by omega)

theorem laxLoop_of_stop (h : Steps x y) (hstop : laxStep y.1 y.2 = none) : ∀ n, laxLoop n x.1 x.2 = none := by
  induction h using Relation.ReflTransGen.head_induction_on with
  | refl =>
    intro n
    cases n with
    | zero => rfl
    | succ n =>
      show (laxStep y.1 y.2).bind _ = none
      rw [hstop]
      rfl
  | head hstep _ ih =>
    intro n
    cases n with
    | zero => rfl
    | succ n =>
      rw [laxLoop_more hstep]
      exact ih n

end DvbIpiTools.Bim.Lax
