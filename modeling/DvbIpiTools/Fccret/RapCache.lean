import Mathlib.Algebra.Group.Nat.Defs
import Mathlib.Data.List.Basic

set_option autoImplicit false

/-! # The cursor of the burst cache (`channel/ring.c`)

One thread appends packets to the cache of a channel, and others find their place in it by the counters alone. Each
atomic load and each atomic store is a step here, and the steps of a writer and a reader come in any order. -/

namespace DvbIpiTools.Fccret

open Option

/-- The counters of `rap_cache_t`. -/
structure RapCache where
  writeCount : Nat := 0
  rapWriteCount : Nat := 0
  haveRap : Bool := false

/-- The difference of two counters of 64 bits. -/
def counterSub (a b : Nat) : Nat := if b ≤ a then a - b else a + 2 ^ 64 - b

/-- The counter `a - b + index` of 64 bits, for an index below `b`. -/
def counterBack (a b index : Nat) : Nat := if b ≤ a then a - b + index else (a + 2 ^ 64 - b + index) % 2 ^ 64

/-! ## Appending -/

/-- Where `rap_cache_append` stands, with the count it has loaded. -/
inductive AppendPc
  | idle
  | loadCount (isRap : Bool) (words : Nat)
  | markRap (wc words : Nat)
  | setHaveRap (wc words : Nat)
  | testHaveRap (wc words : Nat)
  | fill (wc left : Nat)
  | publish (wc : Nat)
deriving DecidableEq

/-- The accesses to the entry: its generation is loaded and stored twice, and between that go its four fields and the
words of the payload. -/
def entryAccesses (words : Nat) : Nat := 7 + words

/-- The next access of `rap_cache_append`. -/
def appendStep (c : RapCache) : AppendPc → RapCache × AppendPc
  | .idle => (c, .idle)
  | .loadCount true words => (c, .markRap c.writeCount words)
  | .loadCount false words => (c, .testHaveRap c.writeCount words)
  | .markRap wc words => ({ c with rapWriteCount := wc }, .setHaveRap wc words)
  | .setHaveRap wc words => ({ c with haveRap := true }, .testHaveRap wc words)
  | .testHaveRap wc words => (c, if c.haveRap then .fill wc (entryAccesses words) else .idle)
  | .fill wc 0 => (c, .publish wc)
  | .fill wc (left + 1) => (c, .fill wc left)
  | .publish wc => ({ c with writeCount := wc + 1 }, .idle)

/-! ## Reading -/

/-- A call of a reader; `channel_cache_peek_meta` finds its place as `channel_cache_get` does. -/
inductive CacheCall
  | pin
  | count
  | get (index : Nat)
deriving DecidableEq

/-- What a call found: the count and the mark it loaded, and its answer. -/
structure CacheAnswer where
  wc : Nat
  /-- The mark, where a distance to it was computed. -/
  rwc : Option Nat
  /-- The position in the cache that the call gives, or reads. -/
  position : Option Nat := none
  /-- How many packets are cached. -/
  avail : Option Nat := none
deriving DecidableEq

/-- Where a call stands. -/
inductive ReadPc
  | idle
  | pinCount
  | pinHaveRap (wc : Nat)
  | pinMark (wc : Nat)
  | haveRap (call : CacheCall)
  | count (call : CacheCall)
  | mark (call : CacheCall) (wc : Nat)
  | done (answer : Option CacheAnswer)
deriving DecidableEq

/-- The packets in the cache from the mark on, as `channel_cache_count` and `channel_cache_get` count them. -/
def cacheAvail (cap wc rwc : Nat) : Nat := if cap < counterSub wc rwc then cap else counterSub wc rwc

/-- The end of `channel_cache_pin`. -/
def pinAnswer (cap wc rwc : Nat) : CacheAnswer :=
  { wc, rwc := some rwc, position := some (if cap < counterSub wc rwc then counterSub wc cap else rwc) }

/-- The ends of `channel_cache_count` and `channel_cache_get`. -/
def cacheAnswer (cap : Nat) (call : CacheCall) (wc rwc : Nat) : CacheAnswer :=
  match call with
  | .get index =>
    { wc, rwc := some rwc, position :=
        if cacheAvail cap wc rwc ≤ index then none
        else some (counterBack wc (cacheAvail cap wc rwc) index) }
  | _ => { wc, rwc := some rwc, avail := some (cacheAvail cap wc rwc) }

/-- The first access of a call. -/
def beginCall : CacheCall → ReadPc
  | .pin => .pinCount
  | call => .haveRap call

/-- The next access of a call. -/
def readStep (cap : Nat) (c : RapCache) : ReadPc → ReadPc
  | .idle => .idle
  | .pinCount => .pinHaveRap c.writeCount
  | .pinHaveRap wc => if c.haveRap then .pinMark wc else .done (some { wc, rwc := none, position := some wc })
  | .pinMark wc => .done (some (pinAnswer cap wc c.rapWriteCount))
  | .haveRap call => if c.haveRap then .count call else .done none
  | .count call => .mark call c.writeCount
  | .mark call wc => .done (some (cacheAnswer cap call wc c.rapWriteCount))
  | .done answer => .done answer

/-! ## Both at once -/

/-- A writer and a reader on one cache. Nothing looks at `during`: it keeps every count there was in the call of the
reader. -/
structure CacheState where
  cache : RapCache := {}
  writer : AppendPc := .idle
  reader : ReadPc := .idle
  during : List Nat := []

/-- Who goes on next. -/
inductive CacheMove
  | append (isRap : Bool) (words : Nat)
  | write
  | call (call : CacheCall)
  | read

namespace CacheState

/-- Whether a call of the reader is under way. -/
def inCall (st : CacheState) : Bool :=
  match st.reader with
  | .idle | .done _ => false
  | _ => true

/-- A move; a call begins only after the one before, and so does an append. -/
def step (cap : Nat) (st : CacheState) : CacheMove → CacheState
  | .append isRap words => if st.writer = .idle then { st with writer := .loadCount isRap words } else st
  | .write =>
    let (cache, writer) := appendStep st.cache st.writer
    { st with cache, writer, during := if st.inCall then st.during ++ [cache.writeCount] else st.during }
  | .call call =>
    if st.inCall then st else { st with reader := beginCall call, during := [st.cache.writeCount] }
  | .read => { st with reader := readStep cap st.cache st.reader }

/-- The state after a run of moves. -/
def run (cap : Nat) (st : CacheState) (ms : List CacheMove) : CacheState := ms.foldl (step cap) st

/-- The count that the call in progress has loaded, while it has still to load the mark. -/
def loaded (st : CacheState) : Option Nat :=
  match st.reader with
  | .pinHaveRap wc | .pinMark wc | .mark _ wc => some wc
  | _ => none

/-- No random access point is marked ahead of a count that a call has loaded and goes on with. -/
def Calm (st : CacheState) (m : CacheMove) : Prop :=
  match m, st.writer with
  | .write, .markRap wc _ => ∀ w, st.loaded = some w → wc ≤ w
  | _, _ => True

/-- Every move of a run is calm. -/
def CalmRun (cap : Nat) (st : CacheState) : List CacheMove → Prop
  | [] => True
  | m :: ms => st.Calm m ∧ (st.step cap m).CalmRun cap ms

end CacheState

/-- A call computed no distance that ran below zero, and its place is in the cache as it was at some time in the call. -/
def CacheAnswer.Safe (cap : Nat) (during : List Nat) (a : CacheAnswer) : Prop :=
  (∀ rwc, a.rwc = some rwc → rwc ≤ a.wc) ∧ (∀ p, a.position = some p → ∃ w ∈ during, w - cap ≤ p ∧ p ≤ w) ∧
  (∀ n, a.avail = some n → n ≤ cap ∧ n ≤ a.wc)

/-! ## What both keep -/

namespace CacheState

/-- The count that an append goes on with is the one there is: no other thread changes it. -/
def WriterHas (st : CacheState) : Prop :=
  match st.writer with
  | .markRap wc _ | .setHaveRap wc _ | .testHaveRap wc _ | .fill wc _ | .publish wc => wc = st.cache.writeCount
  | _ => True

/-- What holds while every move is calm. -/
structure Inv (cap : Nat) (st : CacheState) : Prop where
  writer : st.WriterHas
  mark : st.cache.rapWriteCount ≤ st.cache.writeCount
  loaded : ∀ w, st.loaded = some w → w ∈ st.during ∧ st.cache.rapWriteCount ≤ w
  current : st.inCall = true → st.cache.writeCount ∈ st.during
  answered : ∀ a, st.reader = .done (some a) → a.Safe cap st.during

theorem Inv.initial (cap : Nat) : Inv cap {} where
  writer := trivial
  mark := Nat.le_refl 0
  loaded := fun _ h => absurd h (by simp [CacheState.loaded])
  current := nofun
  answered := fun _ h => absurd h (by simp)

variable {cap : Nat}

theorem pinAnswer_safe {wc rwc : Nat} {during : List Nat} (hwc : wc ∈ during) (hle : rwc ≤ wc) :
    (pinAnswer cap wc rwc).Safe cap during := by
  refine ⟨fun r hr => some.inj hr ▸ hle, fun p hp => ⟨wc, hwc, ?_⟩, fun n hn => absurd hn (by simp [pinAnswer])⟩
  simp only [pinAnswer, counterSub, if_pos hle, some.injEq] at hp
  subst hp
  split
  · rename_i hfar
    rw [if_pos (by omega)]
    omega
  · omega

theorem cacheAvail_le {cap wc rwc : Nat} (hle : rwc ≤ wc) : cacheAvail cap wc rwc ≤ cap ∧ cacheAvail cap wc rwc ≤ wc := by
  simp only [cacheAvail, counterSub, if_pos hle]
  split <;> omega

theorem cacheAnswer_safe {wc rwc : Nat} {during : List Nat} (call : CacheCall) (hwc : wc ∈ during)
    (hle : rwc ≤ wc) : (cacheAnswer cap call wc rwc).Safe cap during := by
  obtain ⟨hcap, havail⟩ := @cacheAvail_le cap wc rwc hle
  cases call with
  | get index =>
    refine ⟨fun r hr => some.inj hr ▸ hle, fun p hp => ⟨wc, hwc, ?_⟩, fun n hn => absurd hn (by simp [cacheAnswer])⟩
    simp only [cacheAnswer] at hp
    split at hp
    · cases hp
    · rename_i hindex
      rw [counterBack, if_pos havail, some.injEq] at hp
      omega
  | _ =>
    exact ⟨fun r hr => some.inj hr ▸ hle, fun p hp => absurd hp (by simp [cacheAnswer]),
      fun n hn => some.inj hn ▸ ⟨hcap, havail⟩⟩

variable {st : CacheState} (h : Inv cap st)

include h

theorem Inv.update {cache : RapCache} {writer : AppendPc} (hwriter : WriterHas { st with cache, writer })
    (hmark : cache.rapWriteCount ≤ cache.writeCount) (hloaded : ∀ w, st.loaded = some w → cache.rapWriteCount ≤ w) :
    Inv cap { st with
      cache, writer, during := if st.inCall then st.during ++ [cache.writeCount] else st.during } where
  writer := hwriter
  mark := hmark
  loaded := fun w hw => by
    have hold := (h.loaded w hw).1
    refine ⟨?_, hloaded w hw⟩
    split
    · exact List.mem_append_left _ hold
    · exact hold
  current := fun hcall => by
    have hcall' : st.inCall = true := hcall
    simp only [hcall', if_true]
    exact List.mem_append_right _ List.mem_cons_self
  answered := fun a ha => by
    have hidle : st.inCall = false := by rw [inCall, ha]
    rw [hidle]
    exact h.answered a ha

theorem Inv.write (hcalm : st.Calm .write) : Inv cap (st.step cap .write) := by
  have hwriter := h.writer
  have hloaded (w : Nat) (hw : st.loaded = some w) := (h.loaded w hw).2
  unfold WriterHas at hwriter
  unfold Calm at hcalm
  unfold step
  cases hpc : st.writer with
  | idle => exact h.update trivial h.mark hloaded
  | loadCount isRap words =>
    cases isRap with
    | _ => exact h.update rfl h.mark hloaded
  | markRap wc words =>
    simp only [hpc] at hwriter hcalm
    exact h.update hwriter (Nat.le_of_eq hwriter) hcalm
  | setHaveRap wc words =>
    simp only [hpc] at hwriter
    exact h.update hwriter h.mark hloaded
  | testHaveRap wc words =>
    simp only [hpc] at hwriter
    simp only [appendStep]
    split
    · exact h.update hwriter h.mark hloaded
    · exact h.update trivial h.mark hloaded
  | fill wc left =>
    simp only [hpc] at hwriter
    cases left with
    | _ => exact h.update hwriter h.mark hloaded
  | publish wc =>
    simp only [hpc] at hwriter
    exact h.update trivial (Nat.le_trans h.mark (hwriter ▸ Nat.le_succ _)) hloaded

theorem Inv.reads {reader : ReadPc} (hcall : st.inCall = true)
    (hloaded : ∀ w, CacheState.loaded { st with reader } = some w → w ∈ st.during ∧ st.cache.rapWriteCount ≤ w)
    (hanswered : ∀ a, reader = .done (some a) → a.Safe cap st.during) : Inv cap { st with reader } where
  writer := h.writer
  mark := h.mark
  loaded := hloaded
  current := fun _ => h.current hcall
  answered := hanswered

theorem Inv.read : Inv cap (st.step cap .read) := by
  have hcurrent := h.current
  have hloaded := h.loaded
  unfold CacheState.loaded at hloaded
  unfold step
  cases hpc : st.reader with
  | pinCount =>
    have hcall : st.inCall = true := by rw [inCall, hpc]
    exact h.reads hcall (fun w hw => some.inj hw ▸ ⟨hcurrent hcall, h.mark⟩) fun a ha => absurd ha (by simp [readStep])
  | pinHaveRap wc =>
    have hcall : st.inCall = true := by rw [inCall, hpc]
    obtain ⟨hwc, hmark⟩ := hloaded wc (by rw [hpc])
    simp only [readStep]
    split
    · exact h.reads hcall (fun w hw => some.inj hw ▸ ⟨hwc, hmark⟩) fun a ha => absurd ha (by simp)
    · refine h.reads hcall (fun w hw => absurd hw (by simp [CacheState.loaded])) fun a ha => ?_
      rw [← some.inj (ReadPc.done.inj ha)]
      -- without a mark the call gives the count itself
      exact ⟨fun r hr => absurd hr (by simp), fun p hp => ⟨wc, hwc, some.inj hp ▸ ⟨Nat.sub_le _ _, Nat.le_refl _⟩⟩,
        fun n hn => absurd hn (by simp)⟩
  | pinMark wc =>
    have hcall : st.inCall = true := by rw [inCall, hpc]
    obtain ⟨hwc, hmark⟩ := hloaded wc (by rw [hpc])
    refine h.reads hcall (fun w hw => absurd hw (by simp [readStep, CacheState.loaded])) fun a ha => ?_
    rw [← some.inj (ReadPc.done.inj ha)]
    exact pinAnswer_safe hwc hmark
  | haveRap call =>
    have hcall : st.inCall = true := by rw [inCall, hpc]
    simp only [readStep]
    split
    · exact h.reads hcall (fun w hw => absurd hw (by simp [CacheState.loaded])) fun a ha => absurd ha (by simp)
    · exact h.reads hcall (fun w hw => absurd hw (by simp [CacheState.loaded])) fun a ha => absurd ha (by simp)
  | count call =>
    have hcall : st.inCall = true := by rw [inCall, hpc]
    exact h.reads hcall (fun w hw => some.inj hw ▸ ⟨hcurrent hcall, h.mark⟩) fun a ha => absurd ha (by simp [readStep])
  | mark call wc =>
    have hcall : st.inCall = true := by rw [inCall, hpc]
    obtain ⟨hwc, hmark⟩ := hloaded wc (by rw [hpc])
    refine h.reads hcall (fun w hw => absurd hw (by simp [readStep, CacheState.loaded])) fun a ha => ?_
    rw [← some.inj (ReadPc.done.inj ha)]
    exact cacheAnswer_safe call hwc hmark
  | _ => simpa only [readStep, ← hpc] using h

omit h

theorem Inv.step {cap : Nat} {st : CacheState} (h : Inv cap st) {m : CacheMove} (hcalm : st.Calm m) :
    Inv cap (st.step cap m) := by
  cases m with
  | append isRap words =>
    unfold CacheState.step
    dsimp only
    split
    · exact { h with writer := trivial }
    · exact h
  | write => exact h.write hcalm
  | call call =>
    unfold CacheState.step
    dsimp only
    split
    · exact h
    · refine ⟨h.writer, h.mark, fun w hw => absurd hw ?_, fun _ => List.mem_cons_self, fun a ha => absurd ha ?_⟩
      · cases call <;> simp [CacheState.loaded, beginCall]
      · cases call <;> simp [beginCall]
  | read => exact h.read

theorem Inv.run (h : Inv cap st) {ms : List CacheMove} (hcalm : st.CalmRun cap ms) : Inv cap (st.run cap ms) := by
  induction ms generalizing st with
  | nil => exact h
  | cons m ms ih => exact ih (h.step hcalm.1) hcalm.2

/-- However a writer and a reader interleave, as long as no mark overtakes a count the reader goes on with, every
answer of the reader is in the cache. -/
theorem run_safe (cap : Nat) (ms : List CacheMove) (hcalm : CalmRun cap {} ms) (a : CacheAnswer)
    (ha : (run cap {} ms).reader = .done (some a)) : a.Safe cap (run cap {} ms).during :=
  ((Inv.initial cap).run hcalm).answered a ha

/-- A random access point without payload words, appended while nobody reads. -/
def appendRap : List CacheMove := .append true 0 :: List.replicate 13 .write

/-- The same, but a plain packet. -/
def appendPacket : List CacheMove := .append false 0 :: List.replicate 11 .write

/-- A packet is appended between the loads of a reader. -/
theorem run_safe_overlap : (CacheAnswer.mk 1 (some 0) (some 0) none).Safe 4
      (run 4 {} (appendRap ++ [.call .pin, .read] ++ appendPacket ++ [.read, .read])).during :=
  run_safe 4 (appendRap ++ [.call .pin, .read] ++ appendPacket ++ [.read, .read])
    (by simp [appendRap, appendPacket, List.replicate, CalmRun, Calm, CacheState.loaded, CacheState.step, appendStep,
      entryAccesses, inCall, beginCall, readStep])
    _ (by decide +kernel)

/-- A packet and then a random access point are appended between the two loads: the mark is ahead of the count, and
the reader begins at `2 ^ 64 - 3`. -/
theorem run_underflows :
    ¬∀ (cap : Nat) (ms : List CacheMove) (a : CacheAnswer), (run cap {} ms).reader = .done (some a) →
      a.Safe cap (run cap {} ms).during := by
  intro h
  have hsafe := h 4 (appendRap ++ [.call .pin, .read] ++ appendPacket ++ appendRap ++ [.read, .read])
    ⟨1, some 2, some (2 ^ 64 - 3), none⟩ (by decide +kernel)
  exact absurd (hsafe.1 2 rfl) (by decide)

end CacheState

end DvbIpiTools.Fccret
