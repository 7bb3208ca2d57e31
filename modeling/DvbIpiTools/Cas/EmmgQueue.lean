import Mathlib.Data.List.Basic
import Mathlib.Tactic.Linarith
import DvbIpiTools.Utils.RingCounter

set_option autoImplicit false

/-! # The queue of EMMs (`cas/emmg_server/emmg_server.c`)

Connections publish datagrams, the multiplexer takes them at the granted rate. What is done under the lock is one step,
the test of the queue's length before it is another one. Tokens and seconds are exact fractions. -/

namespace DvbIpiTools.Cas.Emmg

open List

def emmgQueueCap : Nat := 1024
def emmgMaxDatagramLen : Nat := 4096
def emmgSectionHdrLen : Nat := 3
def emmgBytesPerKbpsS : Nat := 125
def emmgDefaultKbps : Nat := 100

/-- `struct emmg_server`, as far as the queue goes. -/
structure EmmgServer where
  queue : Nat → List UInt8 := fun _ => []
  queueHead : Nat := 0
  queueLen : Nat := 0
  tokens : ℚ := 0
  tokensTs : ℚ := 0
  emmTotal : Nat := 0
  emmDropped : Nat := 0

def isOneSection (data : List UInt8) : Bool := data.length ≥ emmgSectionHdrLen ∧
    data.length = emmgSectionHdrLen + (((data.getD 1 0).toNat &&& 0x0F) <<< 8 ||| (data.getD 2 0).toNat)

/-- `publish_datagram_cb` takes the datagram. -/
def isAccepted (data : List UInt8) : Bool := ¬data.length > emmgMaxDatagramLen ∧ isOneSection data

namespace EmmgServer

/-- What `publish_datagram_cb` does to a full queue. -/
def dropOldest (s : EmmgServer) : EmmgServer := { s with
    queueHead := (s.queueHead + 1) % emmgQueueCap
    queueLen := s.queueLen - 1
    emmDropped := s.emmDropped + 1 }

/-- What `publish_datagram_cb` does when there is room. -/
def store (s : EmmgServer) (data : List UInt8) : EmmgServer :=
  let idx := (s.queueHead + s.queueLen) % emmgQueueCap
  { s with queue := fun i => if i = idx then data else s.queue i, queueLen := s.queueLen + 1 }

/-- `publish_datagram_cb` under the lock. -/
def publish (s : EmmgServer) (data : List UInt8) : EmmgServer :=
  (if s.queueLen = emmgQueueCap then s.dropOldest else s).store data

end EmmgServer

/-- The granted rate in bytes a second. -/
def rate (kbps : Nat) : ℚ := ((if kbps = 0 then emmgDefaultKbps else kbps) * emmgBytesPerKbpsS : Nat)

def burst (kbps : Nat) : ℚ := max (rate kbps / 4) emmgMaxDatagramLen

namespace EmmgServer

def refillTokens (s : EmmgServer) (kbps : Nat) (now : ℚ) : EmmgServer :=
  let tokens := if s.tokensTs > 0 then s.tokens + (now - s.tokensTs) * rate kbps else burst kbps
  { s with tokens := if tokens > burst kbps then burst kbps else tokens, tokensTs := now }

/-- The datagram at the head is copied out. -/
def take (s : EmmgServer) : EmmgServer := { s with
    tokens := s.tokens - (s.queue s.queueHead).length
    queueHead := (s.queueHead + 1) % emmgQueueCap
    queueLen := s.queueLen - 1 }

/-- `emmg_server_dequeue_emm` under the lock, for a buffer of `cap` bytes. -/
def dequeue (s : EmmgServer) (kbps : Nat) (now : ℚ) (cap : Nat) : Option (List UInt8) × EmmgServer :=
  if s.queueLen > 0 then
    let s := s.refillTokens kbps now
    if s.tokens ≤ 0 ∨ cap < (s.queue s.queueHead).length then (none, s) else (some (s.queue s.queueHead), s.take)
  else (none, { s with tokensTs := 0 })

/-- What the queue holds. -/
def contents (s : EmmgServer) : List (List UInt8) :=
  (range s.queueLen).map fun i => s.queue ((s.queueHead + i) % emmgQueueCap)

end EmmgServer

/-! ## Runs -/

/-- The server with the calls that are on their way: `uncounted` have published and not yet counted it, `tested` have
found the queue not empty and wait for the lock. The rest is what happened so far: what was accepted, what left the
queue (and whether it was dequeued), and how many datagrams were rejected. -/
structure System where
  server : EmmgServer := {}
  uncounted : Nat := 0
  tested : Nat := 0
  accepted : List (List UInt8) := []
  removed : List (Bool × List UInt8) := []
  rejected : Nat := 0

inductive Event where
  | publish (data : List UInt8)
  | count
  | test
  | dequeue (kbps : Nat) (now : ℚ) (cap : Nat)

def System.step (x : System) : Event → System
  | .publish data =>
    if isAccepted data then
      { x with
        server := x.server.publish data
        uncounted := x.uncounted + 1
        accepted := x.accepted ++ [data]
        removed := x.removed ++
          if x.server.queueLen = emmgQueueCap then [(false, x.server.queue x.server.queueHead)] else [] }
    else
      { x with
        server := { x.server with emmDropped := x.server.emmDropped + 1 }
        rejected := x.rejected + 1 }
  | .count =>
    if x.uncounted = 0 then x
    else
      { x with
        server := { x.server with emmTotal := x.server.emmTotal + 1 }
        uncounted := x.uncounted - 1 }
  | .test => if x.server.queueLen = 0 then x else { x with tested := x.tested + 1 }
  | .dequeue kbps now cap =>
    if x.tested = 0 then x
    else
      let (out, server) := x.server.dequeue kbps now cap
      { x with
        server
        tested := x.tested - 1
        removed := x.removed ++ out.toList.map (true, ·) }

def run (es : List Event) : System := es.foldl System.step {}

namespace System

def dequeued (x : System) : List (List UInt8) := (x.removed.filter (·.1)).map (·.2)

def dropped (x : System) : List (List UInt8) := (x.removed.filter (!·.1)).map (·.2)

def sentBytes (x : System) : Nat := (x.dequeued.map List.length).sum

/-- The datagrams leave the queue in the order they came, whole and once, and all are counted. -/
structure Accounted (x : System) : Prop where
  order : x.accepted = x.removed.map (·.2) ++ x.server.contents
  sections : ∀ data ∈ x.accepted, isAccepted data
  fifo : x.dequeued.Sublist x.accepted
  count : x.accepted.length = x.dequeued.length + x.server.queueLen + x.dropped.length
  total : x.server.emmTotal + x.uncounted = x.accepted.length
  lost : x.server.emmDropped = x.rejected + x.dropped.length

end System

/-- No call tests the queue while another one is between its test and the lock. -/
def OneAtATime (x : System) : List Event → Prop
  | [] => True
  | e :: es => (e = .test → x.tested = 0) ∧ OneAtATime (x.step e) es

/-- The calls are between `a` and `b`, one after the other, at one granted rate. -/
def Window (kbps : Nat) (b : ℚ) : ℚ → List Event → Prop
  | a, [] => a ≤ b
  | a, .dequeue k now _ :: es => k = kbps ∧ a ≤ now ∧ Window kbps b now es
  | a, _ :: es => Window kbps b a es

/-! ## The ring -/

namespace EmmgServer

/-- The state of the ring. -/
structure Ok (s : EmmgServer) : Prop where
  head_lt : s.queueHead < emmgQueueCap
  len_le : s.queueLen ≤ emmgQueueCap

variable {s : EmmgServer} (h : s.Ok)
include h

theorem contents_store (hlt : s.queueLen < emmgQueueCap) (data : List UInt8) :
    (s.store data).Ok ∧ (s.store data).contents = s.contents ++ [data] := by
  refine ⟨⟨h.head_lt, hlt⟩, ?_⟩
  show (range (s.queueLen + 1)).map _ = _
  rw [range_succ, map_append, map_singleton]
  congr 1
  · refine map_congr_left fun i hi => ?_
    exact if_neg (RingCounter.mod_ne (mem_range.1 hi) hlt)
  · exact congrArg (fun y => [y]) (if_pos rfl)

theorem contents_eq_cons (hpos : 0 < s.queueLen) :
    s.contents = s.queue s.queueHead :: (range (s.queueLen - 1)).map fun i =>
      s.queue (((s.queueHead + 1) % emmgQueueCap + i) % emmgQueueCap) := by
  obtain ⟨n, hn⟩ := Nat.exists_eq_add_one_of_ne_zero hpos.ne'
  rw [contents, hn, range_succ_eq_map, map_cons, add_zero, Nat.mod_eq_of_lt h.head_lt, map_map]
  congr 1
  refine map_congr_left fun i _ => ?_
  show s.queue ((s.queueHead + (i + 1)) % emmgQueueCap) = _
  rw [Nat.mod_add_mod, add_assoc, add_comm 1 i]

theorem dropOldest_spec (hpos : 0 < s.queueLen) :
    s.dropOldest.Ok ∧ s.contents = s.queue s.queueHead :: s.dropOldest.contents :=
  ⟨⟨Nat.mod_lt _ (by decide), (Nat.sub_le _ _).trans h.len_le⟩, contents_eq_cons h hpos⟩

theorem take_spec (hpos : 0 < s.queueLen) : s.take.Ok ∧ s.contents = s.queue s.queueHead :: s.take.contents :=
  ⟨⟨Nat.mod_lt _ (by decide), (Nat.sub_le _ _).trans h.len_le⟩, contents_eq_cons h hpos⟩

/-- A datagram is put behind the others, and a full queue loses its oldest one. -/
theorem publish_spec (data : List UInt8) : (s.publish data).Ok ∧
    s.contents ++ [data] = (if s.queueLen = emmgQueueCap then [s.queue s.queueHead] else []) ++
      (s.publish data).contents := by
  have hcap : 0 < emmgQueueCap := by decide
  unfold publish
  split
  · next hfull =>
    obtain ⟨hok, hcont⟩ := dropOldest_spec h (by omega)
    obtain ⟨hok', hcont'⟩ := contents_store hok (show s.queueLen - 1 < emmgQueueCap by omega) data
    exact ⟨hok', by rw [hcont, hcont']; rfl⟩
  · next hne =>
    obtain ⟨hok, hcont⟩ := contents_store h (Nat.lt_of_le_of_ne h.len_le hne) data
    exact ⟨hok, hcont.symm⟩

omit h

theorem length_contents (s : EmmgServer) : s.contents.length = s.queueLen := by
  rw [contents, length_map, length_range]

end EmmgServer

/-! ## Order and counts -/

namespace System

/-- What is kept at every step. -/
structure Inv (x : System) : Prop where
  ok : x.server.Ok
  order : x.accepted = x.removed.map (·.2) ++ x.server.contents
  sections : ∀ data ∈ x.accepted, isAccepted data
  total : x.server.emmTotal + x.uncounted = x.accepted.length
  lost : x.server.emmDropped = x.rejected + x.dropped.length

variable {x : System}

theorem inv_init : Inv {} := ⟨⟨by decide, by decide⟩, rfl, (nofun), rfl, rfl⟩

theorem Inv.publish (h : x.Inv) (data : List UInt8) : (x.step (.publish data)).Inv := by
  unfold step
  dsimp only
  split
  · next hacc =>
    obtain ⟨hok, hcont⟩ := EmmgServer.publish_spec h.ok data
    refine ⟨hok, ?_, forall_mem_append.2 ⟨h.sections, by simpa using hacc⟩, ?_, ?_⟩
    · rw [h.order, append_assoc, hcont, map_append, append_assoc]
      split <;> rfl
    · have htotal := h.total
      simp only [EmmgServer.publish, EmmgServer.store, length_append, length_singleton]
      split
      · simp only [EmmgServer.dropOldest]
        omega
      · omega
    · have hlost := h.lost
      unfold dropped at hlost ⊢
      simp only [EmmgServer.publish, EmmgServer.store, filter_append, map_append, length_append]
      split <;> simp [EmmgServer.dropOldest, hlost, add_assoc]
  · exact ⟨⟨h.ok.head_lt, h.ok.len_le⟩, h.order, h.sections, h.total, by
      have hlost := h.lost
      unfold dropped at hlost ⊢
      dsimp only
      omega⟩

theorem dequeue_cases (s : EmmgServer) (kbps : Nat) (now : ℚ) (cap : Nat) :
    (s.queueLen = 0 ∧ s.dequeue kbps now cap = (none, { s with tokensTs := 0 })) ∨
    (0 < s.queueLen ∧ s.dequeue kbps now cap = (none, s.refillTokens kbps now)) ∨
    (0 < s.queueLen ∧ 0 < (s.refillTokens kbps now).tokens ∧
      s.dequeue kbps now cap = (some (s.queue s.queueHead), (s.refillTokens kbps now).take)) := by
  unfold EmmgServer.dequeue
  split
  · next hpos =>
    dsimp only
    split
    · exact .inr (.inl ⟨hpos, rfl⟩)
    · next htake => exact .inr (.inr ⟨hpos, not_le.1 fun hle => htake (.inl hle), rfl⟩)
  · next hzero => exact .inl ⟨Nat.eq_zero_of_not_pos hzero, rfl⟩

theorem Inv.dequeue (h : x.Inv) (kbps : Nat) (now : ℚ) (cap : Nat) : (x.step (.dequeue kbps now cap)).Inv := by
  unfold step
  dsimp only
  split
  · exact h
  obtain ⟨-, heq⟩ | ⟨-, heq⟩ | ⟨hpos, -, heq⟩ := dequeue_cases x.server kbps now cap
  iterate 2
    · rw [heq]
      exact ⟨⟨h.ok.head_lt, h.ok.len_le⟩, by rw [Option.toList_none, map_nil, append_nil]; exact h.order, h.sections,
        h.total, by rw [dropped, Option.toList_none, map_nil, append_nil]; exact h.lost⟩
  · rw [heq]
    have hok : (x.server.refillTokens kbps now).Ok := ⟨h.ok.head_lt, h.ok.len_le⟩
    obtain ⟨hok', hcont⟩ := EmmgServer.take_spec hok hpos
    refine ⟨hok', ?_, h.sections, h.total, ?_⟩
    · rw [map_append, append_assoc, h.order]
      exact congrArg (_ ++ ·) hcont
    · have hlost := h.lost
      unfold dropped at hlost ⊢
      rw [filter_append, map_append, length_append]
      exact hlost

theorem Inv.step (h : x.Inv) (e : Event) : (x.step e).Inv := by
  cases e with
  | publish data => exact h.publish data
  | count =>
    unfold System.step
    dsimp only
    split
    · exact h
    · have htotal := h.total
      exact ⟨⟨h.ok.head_lt, h.ok.len_le⟩, h.order, h.sections, by dsimp only; omega, h.lost⟩
  | test =>
    unfold System.step
    dsimp only
    split
    · exact h
    · exact { h with }
  | dequeue kbps now cap => exact h.dequeue kbps now cap

theorem Inv.foldl (h : x.Inv) (es : List Event) : (es.foldl System.step x).Inv := by
  induction es generalizing x with
  | nil => exact h
  | cons e es ih => exact ih (h.step e)

theorem Inv.accounted (h : x.Inv) : x.Accounted where
  __ := h
  fifo := by
    rw [h.order]
    exact (filter_sublist.map _).trans (sublist_append_left _ _)
  count := by
    have hsplit := @length_eq_length_filter_add _ x.removed (·.1)
    rw [h.order, length_append, length_map, EmmgServer.length_contents, dequeued, dropped, length_map, length_map, hsplit]
    omega

end System

/-! ## The rate -/

theorem rate_nonneg (kbps : Nat) : 0 ≤ rate kbps := Nat.cast_nonneg _

section Refill

variable (s : EmmgServer) (kbps : Nat) (now : ℚ)

theorem refillTokens_le : (s.refillTokens kbps now).tokens ≤ burst kbps := by
  unfold EmmgServer.refillTokens
  dsimp only
  split_ifs <;> linarith

theorem refillTokens_le_add (hts : 0 < s.tokensTs) :
    (s.refillTokens kbps now).tokens ≤ s.tokens + (now - s.tokensTs) * rate kbps := by
  unfold EmmgServer.refillTokens
  dsimp only
  split_ifs <;> linarith

theorem le_refillTokens (hts : 0 < s.tokensTs) (hle : s.tokensTs ≤ now) (htok : -(emmgMaxDatagramLen : ℚ) ≤ s.tokens) :
    -(emmgMaxDatagramLen : ℚ) ≤ (s.refillTokens kbps now).tokens := by
  have hflow : 0 ≤ (now - s.tokensTs) * rate kbps := mul_nonneg (sub_nonneg.2 hle) (rate_nonneg kbps)
  have hburst : (emmgMaxDatagramLen : ℚ) ≤ burst kbps := le_max_right _ _
  unfold EmmgServer.refillTokens
  dsimp only
  split_ifs <;> linarith

end Refill

/-- What has been sent since `a`, and what could be sent at once, came in up to the last refill. -/
def Paid (kbps : Nat) (a now spent : ℚ) (s : EmmgServer) : Prop :=
  spent = 0 ∨ 0 < s.tokensTs ∧ s.tokensTs ≤ now ∧ -(emmgMaxDatagramLen : ℚ) ≤ s.tokens ∧
    spent + s.tokens ≤ burst kbps + rate kbps * (s.tokensTs - a)

section Paid

variable {kbps : Nat} {a now now' spent : ℚ} {s : EmmgServer} (h : Paid kbps a now spent s)

include h

theorem Paid.mono (hle : now ≤ now') : Paid kbps a now' spent s :=
  h.imp_right fun ⟨hts, hnow, hrest⟩ => ⟨hts, hnow.trans hle, hrest⟩

/-- After a refill the tokens are those that came in since `a` and were not spent. -/
theorem Paid.refill_le (ha : a ≤ now') :
    spent + (s.refillTokens kbps now').tokens ≤ burst kbps + rate kbps * (now' - a) := by
  obtain h0 | ⟨hts, -, -, hsum⟩ := h
  · have hle := refillTokens_le s kbps now'
    have hflow : 0 ≤ rate kbps * (now' - a) := mul_nonneg (rate_nonneg kbps) (sub_nonneg.2 ha)
    linarith
  · have hle := refillTokens_le_add s kbps now' hts
    nlinarith

theorem Paid.refill (hpos : 0 < now') (ha : a ≤ now') (hle : now ≤ now') :
    Paid kbps a now' spent (s.refillTokens kbps now') := by
  have hsum := h.refill_le ha
  exact h.imp_right fun ⟨hts, hnow, htok, _⟩ =>
    ⟨hpos, le_rfl, le_refillTokens s kbps now' hts (hnow.trans hle) htok, hsum⟩

theorem Paid.take (hpos : 0 < now') (ha : a ≤ now') (htok : 0 < (s.refillTokens kbps now').tokens)
    (hlen : (s.queue s.queueHead).length ≤ emmgMaxDatagramLen) :
    Paid kbps a now' (spent + (s.queue s.queueHead).length) (s.refillTokens kbps now').take := by
  have hsum := h.refill_le ha
  have hlen' : ((s.queue s.queueHead).length : ℚ) ≤ emmgMaxDatagramLen := Nat.cast_le.2 hlen
  have htake : (s.refillTokens kbps now').take.tokens =
      (s.refillTokens kbps now').tokens - (s.queue s.queueHead).length := rfl
  refine .inr ⟨hpos, le_rfl, ?_, ?_⟩
  · rw [htake]
    linarith
  · rw [htake]
    show _ ≤ burst kbps + rate kbps * (now' - a)
    linarith

theorem Paid.bound (ha : a ≤ now) : spent ≤ burst kbps + rate kbps * (now - a) + emmgMaxDatagramLen := by
  have hrate := rate_nonneg kbps
  have hburst : (emmgMaxDatagramLen : ℚ) ≤ burst kbps := le_max_right _ _
  obtain h0 | ⟨-, hts, htok, hsum⟩ := h
  · have hflow : 0 ≤ rate kbps * (now - a) := mul_nonneg hrate (sub_nonneg.2 ha)
    linarith
  · have hflow : rate kbps * (s.tokensTs - a) ≤ rate kbps * (now - a) :=
      mul_le_mul_of_nonneg_left (by linarith) hrate
    linarith

omit h

end Paid

namespace System

variable {x : System}

/-- One call at most waits for the lock, and it finds the queue not empty. -/
structure Single (x : System) : Prop where
  le_one : x.tested ≤ 1
  pos : x.tested = 1 → 0 < x.server.queueLen

theorem queueLen_publish (s : EmmgServer) (data : List UInt8) : 0 < (s.publish data).queueLen := Nat.succ_pos _

theorem Single.step (h : x.Single) {e : Event} (he : e = .test → x.tested = 0) : (x.step e).Single := by
  have hle := h.le_one
  cases e with
  | publish data =>
    unfold System.step
    dsimp only
    split
    · exact ⟨hle, fun _ => queueLen_publish _ _⟩
    · exact ⟨hle, h.pos⟩
  | count =>
    unfold System.step
    dsimp only
    split
    · exact h
    · exact ⟨hle, h.pos⟩
  | test =>
    have hzero := he rfl
    unfold System.step
    dsimp only
    split
    · exact h
    · next hne => exact ⟨(by dsimp only; omega), fun _ => pos_of_ne_zero hne⟩
  | dequeue kbps now cap =>
    unfold System.step
    dsimp only
    split
    · exact h
    · exact ⟨(by dsimp only; omega), fun h1 => (by dsimp only at h1; omega)⟩

theorem single_init : Single {} := ⟨by decide, nofun⟩

theorem Single.foldl (h : x.Single) (es : List Event) {es' : List Event} (hone : OneAtATime x (es ++ es')) :
    (es.foldl System.step x).Single ∧ OneAtATime (es.foldl System.step x) es' := by
  induction es generalizing x with
  | nil => exact ⟨h, hone⟩
  | cons e es ih => exact ih (h.step hone.1) hone.2

theorem sentBytes_append {y : System} {l : List (Bool × List UInt8)} (h : y.removed = x.removed ++ l) :
    y.sentBytes = x.sentBytes + (((l.filter (·.1)).map (·.2)).map List.length).sum := by
  unfold sentBytes dequeued
  rw [h, filter_append, map_append, map_append, sum_append]

theorem step_other {e : Event} (he : ∀ k now cap, e ≠ .dequeue k now cap) :
    (x.step e).sentBytes = x.sentBytes ∧ (x.step e).server.tokens = x.server.tokens ∧
      (x.step e).server.tokensTs = x.server.tokensTs := by
  cases e with
  | publish data =>
    unfold System.step
    dsimp only
    split
    · refine ⟨?_, ?_⟩
      · refine (sentBytes_append rfl).trans ?_
        split <;> rfl
      · unfold EmmgServer.publish EmmgServer.store
        split <;> exact ⟨rfl, rfl⟩
    · exact ⟨rfl, rfl, rfl⟩
  | dequeue k now cap => exact absurd rfl (he k now cap)
  | _ =>
    unfold System.step
    dsimp only
    split <;> exact ⟨rfl, rfl, rfl⟩

theorem window_tail {kbps : Nat} {a b : ℚ} {e : Event} {es : List Event} (he : ∀ k now cap, e ≠ .dequeue k now cap)
    (h : Window kbps b a (e :: es)) : Window kbps b a es := by
  cases e with
  | dequeue k now cap => exact absurd rfl (he k now cap)
  | _ => exact h

variable {kbps : Nat} {a b now base : ℚ}

theorem Paid.step_dequeue (hx : x.Inv) (hs : x.Single) (h : Paid kbps a now (x.sentBytes - base) x.server) {t : ℚ}
    (ha : 0 < a) (hat : a ≤ t) (ht : now ≤ t) (cap : Nat) :
    Paid kbps a t ((x.step (.dequeue kbps t cap)).sentBytes - base) (x.step (.dequeue kbps t cap)).server := by
  have hpos : 0 < t := lt_of_lt_of_le ha hat
  unfold System.step
  dsimp only
  split
  · exact h.mono ht
  rename_i htested
  have hlen := hs.pos (by have := hs.le_one; omega)
  obtain ⟨hzero, -⟩ | ⟨-, heq⟩ | ⟨-, htok, heq⟩ := dequeue_cases x.server kbps t cap
  · omega
  · rw [heq, sentBytes_append rfl]
    exact h.refill hpos hat ht
  · have hmem : x.server.queue x.server.queueHead ∈ x.accepted := by
      rw [hx.order, (EmmgServer.take_spec hx.ok hlen).2]
      exact mem_append_right _ mem_cons_self
    have hacc : ¬(x.server.queue x.server.queueHead).length > emmgMaxDatagramLen :=
      (of_decide_eq_true (hx.sections _ hmem)).1
    have hsent := h.take hpos hat htok (not_lt.1 hacc)
    rw [heq, sentBytes_append rfl]
    rw [sub_add_eq_add_sub] at hsent
    simpa using hsent

theorem Paid.run (ha : 0 < a) : ∀ (es : List Event) (x : System) (now : ℚ), x.Inv → x.Single → OneAtATime x es →
    Window kbps b now es → a ≤ now → Paid kbps a now (x.sentBytes - base) x.server →
    a ≤ b ∧ Paid kbps a b ((es.foldl System.step x).sentBytes - base) (es.foldl System.step x).server := by
  intro es
  induction es with
  | nil => exact fun x now _ _ _ hw hle h => ⟨hle.trans hw, h.mono hw⟩
  | cons e es ih =>
    intro x now hx hs hone hw hle h
    by_cases he : ∃ k t cap, e = .dequeue k t cap
    · obtain ⟨k, t, cap, rfl⟩ := he
      obtain ⟨rfl, hnow, hw⟩ := hw
      exact ih _ t (hx.step _) (hs.step hone.1) hone.2 hw (hle.trans hnow)
        (Paid.step_dequeue hx hs h ha (hle.trans hnow) hnow cap)
    · have hother : ∀ k t cap, e ≠ .dequeue k t cap := fun k t cap h => he ⟨k, t, cap, h⟩
      obtain ⟨hsent, htok, hts⟩ := step_other hother
      refine ih _ now (hx.step _) (hs.step hone.1) hone.2 (window_tail hother hw) hle ?_
      unfold Paid at h ⊢
      rwa [hsent, htok, hts]

end System

/-- The queue keeps order and counts in every run, and the rate where calls do not wait for each other. -/
theorem emm_queue (before window : List Event) : (run (before ++ window)).Accounted ∧
    (OneAtATime {} (before ++ window) → ∀ kbps a b, 0 < a → Window kbps b a window →
      ((run (before ++ window)).sentBytes : ℚ) - (run before).sentBytes ≤
        burst kbps + rate kbps * (b - a) + emmgMaxDatagramLen) := by
  refine ⟨(System.inv_init.foldl _).accounted, fun hone kbps a b ha hw => ?_⟩
  obtain ⟨hsingle, hone'⟩ := System.Single.foldl System.single_init before hone
  have h := System.Paid.run ha window (run before) a (System.inv_init.foldl _) hsingle hone' hw le_rfl
    (.inl (sub_self ((run before).sentBytes : ℚ)))
  rw [run, foldl_append]
  exact h.2.bound h.1

/-- A section of the greatest length. -/
def longSection : List UInt8 := [0, 0x0F, 0xFD] ++ replicate 4093 0

/-- At 1000 bytes a second the first section uses the burst up: the next call at that time gets nothing, one a second
later gets the second section, and the one after it has to wait again. A datagram that is no section was rejected. -/
theorem emm_queue_waits :
    let before : List Event := [.publish longSection, .publish [0x82, 0x70], .count, .publish longSection, .count]
    let window : List Event := [.test, .dequeue 8 1 4096, .publish [0x82, 0x70, 0], .test, .dequeue 8 1 4096, .test,
      .dequeue 8 2 4096, .test, .dequeue 8 3 4096]
    let x := run (before ++ window)
    x.dequeued.map length = [4096, 4096] ∧ x.server.contents = [[0x82, 0x70, 0]] ∧ x.server.emmDropped = 1 ∧
      x.Accounted ∧ (x.sentBytes : ℚ) - (run before).sentBytes ≤ burst 8 + rate 8 * (3 - 1) + emmgMaxDatagramLen := by
  intro before window x
  have hone : OneAtATime {} (before ++ window) :=
    ⟨nofun, nofun, nofun, nofun, nofun, fun _ => by decide +kernel, nofun, nofun, fun _ => by decide +kernel, nofun,
      fun _ => by decide +kernel, nofun, fun _ => by decide +kernel, nofun, trivial⟩
  have hqueue := emm_queue before window
  exact ⟨by decide +kernel, by decide +kernel, by decide +kernel, hqueue.1,
    hqueue.2 hone 8 1 3 (by decide) ⟨rfl, le_rfl, rfl, le_rfl, rfl, by decide, rfl, by decide, le_rfl⟩⟩

/-- A datagram is published, two calls find the queue not empty, one takes it and the other one finds it empty. -/
def overlap : List Event := [.publish longSection, .test, .test, .dequeue 0 1 4096, .dequeue 0 1 4096]

/-- The call that finds the queue empty gives the burst back. -/
theorem emm_rate_overlap : ¬∀ (before window : List Event) (kbps : Nat) (a b : ℚ), 0 < a → Window kbps b a window →
    ((run (before ++ window)).sentBytes : ℚ) - (run before).sentBytes ≤
      burst kbps + rate kbps * (b - a) + emmgMaxDatagramLen := by
  intro hall
  have h := hall [] (overlap ++ overlap ++ overlap) 0 1 1 (by decide) (by simp [overlap, Window])
  exact absurd h (by decide +kernel)

end DvbIpiTools.Cas.Emmg
