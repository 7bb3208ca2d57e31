import DvbIpiTools.Helper.BeUtil
import DvbIpiTools.Net.SockaddrIndex

set_option autoImplicit false

/-! # The registry of streaming clients (`ws/ws_clients.c`, `ws/ws_clients_tick.c`)

A fixed array of clients, a stack of its free slots, and for the clients that are found again by what they ask for a few
hash tables (stripes) of slot numbers. The operations run one after the other here, and the memory of `ws_clients_init` is
there. A string is the list of its characters; NULL counts as the empty one everywhere. What the tick measures and what
is published about clients is left out. -/

namespace DvbIpiTools.Ws

open BeUtil LinearProbe

/-! ## Strings in fixed arrays -/

/-- The loop of `bufcpy` that takes a cut at `n` back to the beginning of a character, in at most so many steps. -/
def cutBack (src : List UInt8) : Nat → Nat → Nat
  | 0, n => n
  | _, 0 => 0
  | k + 1, n + 1 => if src.getD (n + 1) 0 &&& 0xC0 = 0x80 then cutBack src k n else n + 1

/-- The string that `bufcpy` leaves in an array of `dstsz` bytes. -/
def bufcpy (dstsz : Nat) (src : List UInt8) : List UInt8 :=
  if src.length < dstsz then src
  else
    let n := dstsz - 1
    let m := cutBack src 3 n
    src.take (if m + 3 = n ∧ src.getD m 0 &&& 0xC0 = 0x80 then n else m)

def uintToStr (n : Nat) : List UInt8 := (Nat.toDigits 10 n).map fun c => UInt8.ofNat c.toNat

/-- `pid_filter_format`: all that is written is one byte characters, so what does not fit is cut off. -/
def pidFilterFormat (pids : List UInt16) (bufsz : Nat) : List UInt8 :=
  ((pids.mapIdx fun i pid => (if i = 0 then [] else [44]) ++ uintToStr pid.toNat).flatten).take (bufsz - 1)

/-! ## Clients -/

/-- `route_fmt_t`. -/
inductive RouteFmt where
  | ts | spts | hls | hlsFmp4 | llhls | llhlsFmp4 | dash | lldash | rawaudio | mp4
  deriving DecidableEq

/-- `client_info_t`; without a filter there are no PIDs in it. -/
structure ClientInfo where
  ip : List UInt8
  httpVer : Nat
  fmt : RouteFmt
  pmtPid : UInt32
  filter : List UInt16
  srcProto : List UInt8
  srcAddr : List UInt8
  srcOrdinal : UInt32
  srcName : List UInt8
  itemNum : UInt32
  itemName : List UInt8

/-- The fields of `ws_client_t` that `try_match` compares. -/
structure ClientKey where
  ip : List UInt8 := []
  fmt : RouteFmt := .ts
  pmtPid : UInt32 := 0
  filter : List UInt8 := []
  srcProto : List UInt8 := []
  srcAddr : List UInt8 := []
  srcOrdinal : UInt32 := 0
  srcName : List UInt8 := []
  itemNum : UInt32 := 0
  itemName : List UInt8 := []
  deriving DecidableEq

/-- What `try_match` compares them with. -/
def ClientInfo.key (info : ClientInfo) : ClientKey where
  ip := info.ip
  fmt := info.fmt
  pmtPid := info.pmtPid
  filter := pidFilterFormat info.filter 128
  srcProto := info.srcProto
  srcAddr := info.srcAddr
  srcOrdinal := info.srcOrdinal
  srcName := info.srcName
  itemNum := info.itemNum
  itemName := info.itemName

/-- `ws_client_t`. -/
structure Client where
  used : Bool := false
  persistent : Bool := false
  httpVer : Nat := 0
  connectTime : Int := 0
  lastSeen : Int := 0
  key : ClientKey := {}
  hash : UInt32 := 0
  gen : Nat := 0

/-- The bytes of an `unsigned` or an `enum` in memory. -/
def wordBytes (big : Bool) (v : Nat) : List UInt8 := if big then bePut 4 v else (bePut 4 v).reverse

def fnv1aMix (h : UInt32) (data : List UInt8) : UInt32 := data.foldl (fun h b => (h ^^^ b.toUInt32) * 16777619) h

def clientHash (big : Bool) (k : ClientKey) : UInt32 :=
  [k.ip, wordBytes big k.fmt.ctorIdx, wordBytes big k.pmtPid.toNat, k.filter, k.srcProto, k.srcAddr,
    wordBytes big k.srcOrdinal.toNat, k.srcName, wordBytes big k.itemNum.toNat, k.itemName].foldl fnv1aMix 2166136261

/-- `fill_entry`: the fields that are compared. -/
def fillKey (info : ClientInfo) : ClientKey where
  ip := bufcpy 64 info.ip
  fmt := info.fmt
  pmtPid := info.pmtPid
  filter := bufcpy 128 (pidFilterFormat info.filter 128)
  srcProto := bufcpy 16 info.srcProto
  srcAddr := bufcpy 80 info.srcAddr
  srcOrdinal := info.srcOrdinal
  srcName := bufcpy 64 info.srcName
  itemNum := info.itemNum
  itemName := bufcpy 128 info.itemName

/-- `ws_stripe_t`; all stripes have one size. -/
structure Stripe where
  hash : Nat → Cell Nat := fun _ => .empty
  tombCount : Nat := 0

/-- The globals. `free` is `g_free_slots` from its top down. -/
structure Clients where
  cap : Nat
  client : Nat → Client
  free : List Nat
  hashCap : Nat
  stripeCount : Nat
  stripe : Nat → Stripe

def wsStripeCountMax : Nat := 8
def wsClientsPullIdleSec : Int := 20
def wsHandleIdxBits : Nat := 20
def wsHandleGenBits : Nat := 11

def packHandle (idx gen : Nat) : Nat := idx ||| (gen &&& (2 ^ wsHandleGenBits - 1)) <<< wsHandleIdxBits

def handleIdx (handle : Nat) : Nat := handle &&& (2 ^ wsHandleIdxBits - 1)

def handleGen (handle : Nat) : Nat := (handle >>> wsHandleIdxBits) &&& (2 ^ wsHandleGenBits - 1)

namespace Clients

/-- `ws_clients_init`, for a positive number of clients. -/
def init (maxClients : Nat) : Clients where
  cap := maxClients
  client := fun _ => {}
  free := (List.range maxClients).reverse
  hashCap := Net.nextPow2 (maxClients * 2)
  stripeCount := min maxClients wsStripeCountMax
  stripe := fun _ => {}

/-- `(i + 1) & hash_mask`. -/
def next (st : Clients) (i : Nat) : Nat := (i + 1) &&& (st.hashCap - 1)

/-- `h & hash_mask`. -/
def home (st : Clients) (h : UInt32) : Nat := h.toNat &&& (st.hashCap - 1)

/-- The number of the stripe for a hash. -/
def stripeOf (st : Clients) (h : UInt32) : Nat := h.toNat % st.stripeCount

def setClient (st : Clients) (i : Nat) (c : Client) : Clients :=
  { st with client := fun j => if j = i then c else st.client j }

def setStripe (st : Clients) (s : Nat) (stripe : Stripe) : Clients :=
  { st with stripe := fun k => if k = s then stripe else st.stripe k }

def hashInsert (st : Clients) (stripe : Stripe) (h : UInt32) (idx : Nat) : Stripe :=
  match probe st.next (fun i => !(stripe.hash i).isLive) st.hashCap (st.home h) with
  | none => stripe
  | some i => { stripe with hash := put stripe.hash i (.live idx) }

def hashDelete (st : Clients) (stripe : Stripe) (idx : Nat) : Stripe :=
  match probe st.next (stopAt (fun k => decide (k = idx)) stripe.hash) st.hashCap (st.home (st.client idx).hash) with
  | none => stripe
  | some i =>
    if (stripe.hash i).isLive then { hash := put stripe.hash i .dead, tombCount := stripe.tombCount + 1 } else stripe

/-- The loop that puts the entries into a new table. -/
def reinsert (st : Clients) : List Nat → (Nat → Cell Nat) → (Nat → Cell Nat)
  | [], fresh => fresh
  | idx :: rest, fresh =>
    match freeCell st.next (fun i => st.home (st.client i).hash) fresh st.hashCap idx with
    | none => st.reinsert rest fresh
    | some k => st.reinsert rest (put fresh k (.live idx))

/-- `stripe_rehash_if_needed`; `mem` tells whether the new table can be allocated. -/
def stripeRehashIfNeeded (st : Clients) (mem : Bool) (stripe : Stripe) : Stripe :=
  if stripe.tombCount < st.hashCap / 4 then stripe
  else if mem = false then stripe
  else { hash := st.reinsert (elems stripe.hash st.hashCap) (fun _ => .empty), tombCount := 0 }

/-- `stripe_for_entry` with `hash_delete`. -/
def unhash (st : Clients) (idx : Nat) : Clients :=
  let s := st.stripeOf (st.client idx).hash
  st.setStripe s (st.hashDelete (st.stripe s) idx)

/-- `claim_slot`, `fill_entry` and what is stored after it. -/
def claimed (st : Clients) (i : Nat) (info : ClientInfo) (persistent : Bool) (hash : UInt32) (now : Int) : Client where
  used := true
  persistent
  httpVer := info.httpVer
  connectTime := now
  lastSeen := if persistent then 0 else now
  key := fillKey info
  hash
  gen := (st.client i).gen + 1

/-- `ws_clients_add_persistent`: the handle (none is -1), and the registry. -/
def addPersistent (st : Clients) (info : ClientInfo) (now : Int) : Option Nat × Clients :=
  match st.free with
  | [] => (none, st)
  | i :: free =>
    let c := st.claimed i info true 0 now
    (some (packHandle i c.gen), { st.setClient i c with free })

/-- `ws_clients_remove`. -/
def remove (st : Clients) (handle : Nat) : Clients :=
  let idx := handleIdx handle
  if st.cap ≤ idx then st
  else if (st.client idx).gen &&& (2 ^ wsHandleGenBits - 1) = handleGen handle then
    let st := if (st.client idx).persistent then st else st.unhash idx
    let c := st.client idx
    { st.setClient idx { c with used := false, gen := c.gen + 1 } with free := idx :: st.free }
  else st

/-- `try_match`: the slot it finds. -/
def tryMatch (st : Clients) (stripe : Stripe) (h : UInt32) (k : ClientKey) : Option Nat :=
  let matching idx := (st.client idx).used && !(st.client idx).persistent && decide ((st.client idx).key = k)
  match probe st.next (stopAt matching stripe.hash) st.hashCap (st.home h) with
  | none => none
  | some i =>
    match stripe.hash i with
    | .live idx => some idx
    | _ => none

/-- A client that is seen again. -/
def refresh (st : Clients) (i : Nat) (now : Int) : Clients := st.setClient i { st.client i with lastSeen := now }

/-- `ws_clients_touch`. The second search, under both locks, finds here what the first one has found. -/
def touch (big : Bool) (st : Clients) (info : ClientInfo) (now : Int) : Option Nat × Clients :=
  if st.stripeCount = 0 then (none, st)
  else
    let h := clientHash big info.key
    let s := st.stripeOf h
    match st.tryMatch (st.stripe s) h info.key with
    | some idx => (some (packHandle idx (st.client idx).gen), st.refresh idx now)
    | none =>
      match st.free with
      | [] => (none, st)
      | i :: free =>
        let c := st.claimed i info false h now
        let st := { st.setClient i c with free }
        (some (packHandle i c.gen), st.setStripe s (st.hashInsert (st.stripe s) h i))

/-- The body of the first loop of `ws_clients_tick`. -/
def evict (st : Clients) (now : Int) (i : Nat) : Clients :=
  let c := st.client i
  if c.used && !c.persistent && decide (wsClientsPullIdleSec < now - c.lastSeen) then
    let st := st.unhash i
    { st.setClient i { c with used := false } with free := i :: st.free }
  else st

/-- The second loop of `ws_clients_tick`. -/
def rehash (st : Clients) (mem : Nat → Bool) : Clients :=
  { st with stripe := fun s => if s < st.stripeCount then st.stripeRehashIfNeeded (mem s) (st.stripe s) else st.stripe s }

/-- `ws_clients_tick`. -/
def tick (st : Clients) (mem : Nat → Bool) (now : Int) : Clients :=
  ((List.range st.cap).foldl (fun st i => st.evict now i) st).rehash mem

end Clients

end DvbIpiTools.Ws
