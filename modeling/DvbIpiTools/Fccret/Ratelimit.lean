import DvbIpiTools.Net.SockaddrIndex
import DvbIpiTools.Utils.TokenBucket
import Mathlib.Data.Rat.Floor

set_option autoImplicit false

/-! # The limit of repairs for each client (`ret/ratelimit.c`)

A direct-mapped table of token buckets: a client whose address falls into the slot of another one takes the slot over
and begins with a full bucket. Tokens are exact fractions here. -/

namespace DvbIpiTools.Fccret

open Net TokenBucket List

/-- Family and address of a client, without its port; of an IPv6 address the first half. -/
abbrev LimitKey := UInt32 × List UInt8

/-- `bucket_t`; the family of an empty slot is 0. -/
structure LimitSlot where
  family : UInt32 := 0
  key : List UInt8 := replicate 8 0
  tokens : ℚ := 0
  lastMs : Int := 0

/-- `struct ratelimit`. -/
structure Ratelimit where
  slots : Nat → LimitSlot := fun _ => {}
  mask : Nat
  seed : UInt64

def keyOf : Option Sockaddr → Option LimitKey
  | some (.inet addr _) => some (afInet, addr.toList ++ replicate 4 0)
  | some (.inet6 addr _) => some (afInet6, addr.toList.take 8)
  | _ => none

namespace LimitSlot

/-- The slot as a client begins in it. -/
def takeOver (k : LimitKey) (burst : Nat) (nowMs : Int) : LimitSlot :=
  { family := k.1, key := k.2, tokens := burst, lastMs := nowMs }

/-- The tokens that came in since the last call. -/
def refill (b : LimitSlot) (rate burst : Nat) (nowMs : Int) : LimitSlot :=
  if b.lastMs < nowMs then
    let tokens := b.tokens + (nowMs - b.lastMs : Int) * rate / 1000
    { b with tokens := if (burst : ℚ) < tokens then burst else tokens, lastMs := nowMs }
  else b

/-- The slot as a call of the client `k` finds it. -/
def prepare (b : LimitSlot) (k : LimitKey) (rate burst : Nat) (nowMs : Int) : LimitSlot :=
  if b.family ≠ k.1 ∨ b.key ≠ k.2 then takeOver k burst nowMs else b.refill rate burst nowMs

/-- How many whole tokens a call gets. -/
def grant (b : LimitSlot) (want : Nat) : Nat := min b.tokens.floor.toNat want

/-- The slot without them. -/
def spend (b : LimitSlot) (granted : Nat) : LimitSlot := { b with tokens := b.tokens - granted }

end LimitSlot

namespace Ratelimit

/-- `ratelimit_new`, with the seed that `getrandom` gave. -/
def new (slots : Nat) (seed : UInt64) : Ratelimit := { mask := nextPow2 slots - 1, seed }

def hashKey (rl : Ratelimit) (k : LimitKey) : Nat :=
  let h := fnvStep (rl.seed ^^^ 1469598103934665603) k.1.toUInt64
  let h := k.2.foldl (fun h b => fnvStep h b.toUInt64) h
  (h ^^^ h >>> 32).toNat

/-- The slot of a client. -/
def index (rl : Ratelimit) (k : LimitKey) : Nat := rl.hashKey k &&& rl.mask

/-- `ratelimit_take`: the tokens granted, and the table. -/
def take (rl : Option Ratelimit) (addr : Option Sockaddr) (rate burst want : Nat) (nowMs : Int) :
    Nat × Option Ratelimit :=
  match rl with
  | none => (want, rl)
  | some t =>
    if rate = 0 then (want, rl)
    else
      match keyOf addr with
      | none => (0, rl)
      | some k =>
        let burst := if burst < 1 then 1 else burst
        let b := (t.slots (t.index k)).prepare k rate burst nowMs
        let granted := b.grant want
        (granted, some { t with slots := fun i => if i = t.index k then b.spend granted else t.slots i })

end Ratelimit

/-! ## The slots as token buckets -/

namespace LimitSlot

/-- The bucket of a slot. -/
def bucket (b : LimitSlot) : Bucket ℚ := ⟨b.tokens, b.lastMs⟩

theorem bucket_refill (b : LimitSlot) (rate burst : Nat) (nowMs : Int) :
    (b.refill rate burst nowMs).bucket = b.bucket.refill (rate / 1000 : ℚ) (burst : ℚ) nowMs := by
  unfold refill Bucket.refill
  by_cases hlt : b.lastMs < nowMs
  · rw [if_pos hlt, if_pos (show b.bucket.last < (nowMs : ℚ) from Int.cast_lt.2 hlt)]
    simp only [bucket, Bucket.mk.injEq, and_true]
    rw [min_def, mul_div_assoc, Int.cast_sub]
    split
    · rw [if_neg (not_le.2 ‹_›)]
    · rw [if_pos (not_lt.1 ‹_›)]
  · rw [if_neg hlt, if_neg (show ¬b.bucket.last < (nowMs : ℚ) from fun h => hlt (Int.cast_lt.1 h))]

variable {b : LimitSlot}

theorem grant_le (h : 0 ≤ b.tokens) (want : Nat) : (b.grant want : ℚ) ≤ b.tokens := by
  have hfloor : 0 ≤ b.tokens.floor := Rat.le_floor_iff.2 (by simpa using h)
  have hcast : ((b.tokens.floor.toNat : Nat) : ℚ) = (b.tokens.floor : Int) := by
    rw [← Int.cast_natCast, Int.toNat_of_nonneg hfloor]
  calc (b.grant want : ℚ) ≤ (b.tokens.floor.toNat : Nat) := Nat.cast_le.2 (Nat.min_le_left _ _)
    _ = (b.tokens.floor : Int) := hcast
    _ ≤ b.tokens := Rat.floor_le _

/-- The slot is neither overdrawn nor overfull. -/
def Within (burst : Nat) (b : LimitSlot) : Prop := b.bucket.Within (burst : ℚ)

theorem Within.prepare {burst : Nat} (h : b.Within burst) (k : LimitKey) (rate : Nat) (nowMs : Int) :
    (b.prepare k rate burst nowMs).Within burst := by
  unfold LimitSlot.prepare
  split
  · exact ⟨Nat.cast_nonneg burst, le_rfl⟩
  · rw [Within, bucket_refill]
    exact Bucket.Within.refill (by positivity) h _

theorem Within.spend {burst : Nat} (h : b.Within burst) (want : Nat) : (b.spend (b.grant want)).Within burst :=
  Bucket.Within.spend h (Nat.cast_nonneg _) (grant_le h.1 want)

/-- The slot belongs to the client. -/
def Owned (b : LimitSlot) (k : LimitKey) : Prop := b.family = k.1 ∧ b.key = k.2

theorem Owned.prepare {k : LimitKey} (h : b.Owned k) (rate burst : Nat) (nowMs : Int) :
    b.prepare k rate burst nowMs = b.refill rate burst nowMs := by
  rw [LimitSlot.prepare, if_neg (by simp [h.1, h.2])]

theorem prepare_of_not_owned {k : LimitKey} (h : ¬b.Owned k) (rate burst : Nat) (nowMs : Int) :
    b.prepare k rate burst nowMs = takeOver k burst nowMs := by
  rw [LimitSlot.prepare, if_pos (not_and_or.1 h)]

theorem owned_prepare (b : LimitSlot) (k : LimitKey) (rate burst : Nat) (nowMs : Int) :
    (b.prepare k rate burst nowMs).Owned k := by
  by_cases h : b.Owned k
  · rw [h.prepare, LimitSlot.refill]
    split
    · exact h
    · exact h
  · rw [prepare_of_not_owned h]
    exact ⟨rfl, rfl⟩

theorem tokens_refill (b : LimitSlot) (rate burst : Nat) (nowMs : Int) :
    (b.refill rate burst nowMs).tokens = b.bucket.level (rate / 1000 : ℚ) (burst : ℚ) nowMs :=
  congrArg Bucket.tokens (bucket_refill b rate burst nowMs)

end LimitSlot

namespace Ratelimit

/-! ## Runs -/

/-- A call of `ratelimit_take`. -/
structure Request where
  addr : Option Sockaddr
  want : Nat
  nowMs : Int

/-- The table after a run of calls. -/
def run (rate burst : Nat) (rl : Option Ratelimit) (qs : List Request) : Option Ratelimit :=
  qs.foldl (fun rl q => (take rl q.addr rate burst q.want q.nowMs).2) rl

/-- What a run of calls grants to the client `k`. -/
def granted (rate burst : Nat) (k : LimitKey) : Option Ratelimit → List Request → Nat
  | _, [] => 0
  | rl, q :: qs =>
    (if keyOf q.addr = some k then (take rl q.addr rate burst q.want q.nowMs).1 else 0) +
      granted rate burst k (take rl q.addr rate burst q.want q.nowMs).2 qs

/-- The size of the buckets: a size of 0 counts as 1. -/
def size (burst : Nat) : Nat := if burst < 1 then 1 else burst

section Limited

variable {rate burst : Nat} {k : LimitKey} {t : Ratelimit}

/-- A table with the slot of `k` replaced. -/
def setSlot (t : Ratelimit) (k : LimitKey) (b : LimitSlot) : Ratelimit :=
  { t with slots := fun i => if i = t.index k then b else t.slots i }

@[simp] theorem index_setSlot (k k' : LimitKey) (b : LimitSlot) : (t.setSlot k b).index k' = t.index k' := rfl
@[simp] theorem slots_setSlot_self (k : LimitKey) (b : LimitSlot) : (t.setSlot k b).slots (t.index k) = b := if_pos rfl
theorem slots_setSlot_ne {i : Nat} (b : LimitSlot) (hne : i ≠ t.index k) : (t.setSlot k b).slots i = t.slots i :=
  if_neg hne

theorem take_of_keyOf (hrate : 0 < rate) {addr : Option Sockaddr} (hkey : keyOf addr = some k) (want : Nat)
    (nowMs : Int) : take (some t) addr rate burst want nowMs =
      let b := (t.slots (t.index k)).prepare k rate (size burst) nowMs
      (b.grant want, some (t.setSlot k (b.spend (b.grant want)))) := by
  rw [take, if_neg hrate.ne', hkey]
  rfl

theorem take_of_keyOf_none (hrate : 0 < rate) {addr : Option Sockaddr} (hkey : keyOf addr = none) (want : Nat)
    (nowMs : Int) : take (some t) addr rate burst want nowMs = (0, some t) := by
  rw [take, if_neg hrate.ne', hkey]

/-- Every slot is neither overdrawn nor overfull. -/
def Within (burst : Nat) (t : Ratelimit) : Prop := ∀ i, (t.slots i).Within (size burst)

theorem within_new (slots : Nat) (seed : UInt64) : (new slots seed).Within burst :=
  fun _ => ⟨le_rfl, Nat.cast_nonneg _⟩

theorem Within.take (h : t.Within burst) (hrate : 0 < rate) (q : Request) :
    ∃ t', (Ratelimit.take (some t) q.addr rate burst q.want q.nowMs).2 = some t' ∧ t'.Within burst ∧
      ∀ k, t'.index k = t.index k := by
  cases hkey : keyOf q.addr with
  | none => exact ⟨t, by rw [take_of_keyOf_none hrate hkey], h, fun _ => rfl⟩
  | some k =>
    rw [take_of_keyOf hrate hkey]
    refine ⟨_, rfl, fun i => ?_, fun _ => rfl⟩
    by_cases hi : i = t.index k
    · rw [hi, slots_setSlot_self]
      exact ((h _).prepare k rate q.nowMs).spend q.want
    · rw [slots_setSlot_ne _ hi]
      exact h i

theorem Within.run (h : t.Within burst) (hrate : 0 < rate) (qs : List Request) :
    ∃ t', Ratelimit.run rate burst (some t) qs = some t' ∧ t'.Within burst ∧ ∀ k, t'.index k = t.index k := by
  induction qs generalizing t with
  | nil => exact ⟨t, rfl, h, fun _ => rfl⟩
  | cons q qs ih =>
    obtain ⟨t1, ht1, hwithin, hindex⟩ := h.take hrate q
    obtain ⟨t2, ht2, hwithin2, hindex2⟩ := ih hwithin
    refine ⟨t2, ?_, hwithin2, fun k => (hindex2 k).trans (hindex k)⟩
    rw [Ratelimit.run, foldl_cons, ht1]
    exact ht2

/-! ## A span of time -/

/-- What the client `k` would find at a time: a full bucket where the slot is another's. -/
def available (t : Ratelimit) (rate burst : Nat) (k : LimitKey) (nowMs : Int) : ℚ :=
  ((t.slots (t.index k)).prepare k rate (size burst) nowMs).tokens

theorem available_le (h : t.Within burst) (nowMs : Int) : t.available rate burst k nowMs ≤ size burst :=
  ((h (t.index k)).prepare k rate nowMs).2

/-- A call of the client itself: what it gets and what it leaves was there or flowed in. -/
theorem grant_add_available_le (t : Ratelimit) (k : LimitKey) {t0 nowMs : Int} (ht : t0 ≤ nowMs) (want : Nat) :
    let b := (t.slots (t.index k)).prepare k rate (size burst) nowMs
    (b.grant want : ℚ) + (t.setSlot k (b.spend (b.grant want))).available rate burst k nowMs ≤
      t.available rate burst k t0 + (nowMs - t0) * (rate / 1000) := by
  intro b
  have hrate : (0 : ℚ) ≤ rate / 1000 := by positivity
  have hafter : (t.setSlot k (b.spend (b.grant want))).available rate burst k nowMs =
      (b.bucket.spend (b.grant want)).level (rate / 1000 : ℚ) (size burst : ℚ) nowMs := by
    have howned : (b.spend (b.grant want)).Owned k := LimitSlot.owned_prepare _ k rate (size burst) nowMs
    rw [available, index_setSlot, slots_setSlot_self, howned.prepare, LimitSlot.tokens_refill]
    rfl
  rw [hafter]
  by_cases howned : (t.slots (t.index k)).Owned k
  · have hbucket : b.bucket = (t.slots (t.index k)).bucket.refill (rate / 1000 : ℚ) (size burst : ℚ) nowMs := by
      rw [← LimitSlot.bucket_refill, ← howned.prepare]
    rw [hbucket, available, howned.prepare, LimitSlot.tokens_refill]
    exact Bucket.spend_add_level_le hrate _ (Int.cast_le.2 ht) _
  -- a slot that is taken over begins full, at the time of the call
  have hbucket : b.bucket = ⟨(size burst : ℚ), (nowMs : ℚ)⟩ := by
    show (LimitSlot.prepare _ _ _ _ _).bucket = _
    rw [LimitSlot.prepare_of_not_owned howned]
    rfl
  have hfull : b.bucket.refill (rate / 1000 : ℚ) (size burst : ℚ) nowMs = b.bucket := by
    rw [hbucket, Bucket.refill, if_neg (lt_irrefl _)]
  rw [available, LimitSlot.prepare_of_not_owned howned]
  calc (b.grant want : ℚ) + (b.bucket.spend (b.grant want)).level (rate / 1000 : ℚ) (size burst : ℚ) nowMs
      = size burst := by rw [← hfull, Bucket.level_spend, Bucket.level, hfull, hbucket, add_sub_cancel]
    _ ≤ size burst + (nowMs - t0) * (rate / 1000) :=
        le_add_of_nonneg_right (mul_nonneg (sub_nonneg.2 (Int.cast_le.2 ht)) hrate)

/-- No other client falls into the slot of `k`. -/
def Alone (t : Ratelimit) (k : LimitKey) (qs : List Request) : Prop :=
  ∀ q ∈ qs, ∀ k', keyOf q.addr = some k' → k' ≠ k → t.index k' ≠ t.index k

theorem granted_cons (rl : Option Ratelimit) (q : Request) (qs : List Request) : granted rate burst k rl (q :: qs) =
      (if keyOf q.addr = some k then (take rl q.addr rate burst q.want q.nowMs).1 else 0) +
        granted rate burst k (take rl q.addr rate burst q.want q.nowMs).2 qs := rfl

/-- From `t0` to `t1` a client gets what it would find at `t0` and what flows in, and no more. -/
theorem granted_le (hrate : 0 < rate) (h : t.Within burst) {qs : List Request} {t0 t1 : Int} (ht : t0 ≤ t1)
    (halone : t.Alone k qs) (hsorted : qs.Pairwise fun q q' => q.nowMs ≤ q'.nowMs)
    (hspan : ∀ q ∈ qs, t0 ≤ q.nowMs ∧ q.nowMs ≤ t1) :
    (granted rate burst k (some t) qs : ℚ) ≤ t.available rate burst k t0 + (t1 - t0) * (rate / 1000) := by
  induction qs generalizing t t0 with
  | nil =>
    have hflow : 0 ≤ ((t1 : ℚ) - t0) * (rate / 1000) :=
      mul_nonneg (sub_nonneg.2 (Int.cast_le.2 ht)) (by positivity)
    have hfound : 0 ≤ t.available rate burst k t0 := ((h (t.index k)).prepare k rate t0).1
    simpa [granted] using add_nonneg hfound hflow
  | cons q qs ih =>
    obtain ⟨hq0, hq1⟩ := hspan q mem_cons_self
    obtain ⟨hlater, hrest⟩ := pairwise_cons.1 hsorted
    have hspan' (q' : Request) (hq' : q' ∈ qs) := hspan q' (mem_cons_of_mem q hq')
    obtain ⟨t', ht', hwithin, hindex⟩ := h.take hrate q
    have halone' : t'.Alone k qs := fun q' hq' k' hk' hne => by
      rw [hindex, hindex]
      exact halone q' (mem_cons_of_mem q hq') k' hk' hne
    rw [granted_cons, ht']
    by_cases hself : keyOf q.addr = some k
    · -- the span goes on from this call
      have hrec := ih hwithin hq1 halone' hrest fun q' hq' => ⟨hlater q' hq', (hspan' q' hq').2⟩
      have htake : Ratelimit.take (some t) q.addr rate burst q.want q.nowMs = _ := take_of_keyOf hrate hself q.want q.nowMs
      have hslot := @grant_add_available_le rate burst t k _ _ hq0 q.want
      have heq : t' = _ := Option.some.inj (ht'.symm.trans (congrArg Prod.snd htake))
      rw [if_pos hself, htake, Nat.cast_add]
      rw [heq] at hrec ⊢
      linarith
    -- the call of another client leaves the slot as it was
    have hslot : t'.slots (t.index k) = t.slots (t.index k) := by
      cases hkey : keyOf q.addr with
      | none =>
        rw [take_of_keyOf_none hrate hkey] at ht'
        rw [Option.some.inj ht']
      | some k' =>
        have hne : k' ≠ k := fun heq => hself (heq ▸ hkey)
        rw [take_of_keyOf hrate hkey] at ht'
        rw [← Option.some.inj ht']
        exact slots_setSlot_ne _ (halone q mem_cons_self k' hkey hne).symm
    have hsame : t'.available rate burst k t0 = t.available rate burst k t0 := by
      rw [available, available, hindex, hslot]
    rw [if_neg hself, zero_add, ← hsame]
    exact ih hwithin ht halone' hrest hspan'

end Limited

end Ratelimit

end DvbIpiTools.Fccret
