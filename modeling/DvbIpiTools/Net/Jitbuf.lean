import DvbIpiTools.Demux.Rtp
import Mathlib.Data.Finset.Card
import Mathlib.Data.List.Range

set_option autoImplicit false

/-! # Jitter buffer (`net/jitbuf.c`)

Sequence numbers are 16 bit and kept below `2^16`; a slot is used when it holds a datagram. Two fields are
not part of the program: `Slot.id`, the number of the push a datagram came with, and `Jitbuf.flushed`, how
many datagrams resynchronisations have thrown away. -/

namespace DvbIpiTools.Net

open Demux Function Option Nat

def jitbufSlots : Nat := 8192

def jitbufLateWindow : Nat := 1024

def jitbufFarResync : Nat := 8

def jitbufMaxDgram : Nat := 1500

def jitbufMaxDelayMs : Nat := 2000

/-- `slot_t` in use. -/
structure Slot where
  atNs : Nat
  seq : Nat
  data : List UInt8
  id : Nat
deriving DecidableEq

/-- `eff_mode_t`. -/
inductive JitbufMode where
  | unset
  | fifo
  | rtp
deriving DecidableEq

/-- `jitbuf_stats_t`. -/
structure JitbufStats where
  reordered : Nat := 0
  lost : Nat := 0
  late : Nat := 0
  dup : Nat := 0
  resync : Nat := 0
  dropped : Nat := 0

/-- `struct jitbuf`. -/
structure Jitbuf where
  delayNs : Nat
  mode : JitbufMode
  slots : Nat → Option Slot := fun _ => none
  count : Nat := 0
  head : Nat := 0
  nextSeq : Nat := 0
  ssrc : Nat := 0
  span : Nat := 0
  skip : Nat := 0
  farRun : Nat := 0
  released : Bool := false
  st : JitbufStats := {}
  flushed : Nat := 0

namespace Jitbuf

/-- `jitbuf_new`; `fifo` is JITBUF_FIFO. -/
def new (delayMs : Nat) (fifo : Bool) : Option Jitbuf :=
  if delayMs < 1 ∨ delayMs > jitbufMaxDelayMs then none
  else some { delayNs := delayMs * 1000000, mode := if fifo then .fifo else .unset }

/-- A datagram that is not taken. -/
def drop (j : Jitbuf) : Jitbuf := { j with st := { j.st with dropped := j.st.dropped + 1 } }

def fifoPush (j : Jitbuf) (d : List UInt8) (nowNs id : Nat) : Jitbuf :=
  let j := if j.count = jitbufSlots then
      { j.drop with
        slots := update j.slots j.head none
        head := (j.head + 1) % jitbufSlots
        count := j.count - 1 }
    else j
  { j with
    slots := update j.slots ((j.head + j.count) % jitbufSlots) (some ⟨nowNs, 0, d, id⟩)
    count := j.count + 1 }

/-- `rtp_resync`, `flush_all` included. -/
def rtpResync (j : Jitbuf) (h : RtpHdr) : Jitbuf := { j with
    slots := fun _ => none
    count := 0
    head := 0
    span := 0
    skip := 0
    nextSeq := h.seq
    ssrc := h.ssrc
    farRun := 0
    st := { j.st with resync := j.st.resync + 1 }
    flushed := j.flushed + j.count }

/-- The end of `rtp_push`: the datagram goes to its slot, `diff` behind `next_seq`. -/
def rtpStore (j : Jitbuf) (s : Slot) (diff : Nat) : Jitbuf :=
  match j.slots (s.seq % jitbufSlots) with
  | some _ => { j with st := { j.st with dup := j.st.dup + 1 } }
  | none =>
    { j with
      slots := update j.slots (s.seq % jitbufSlots) (some s)
      count := j.count + 1
      skip := if diff < j.skip then diff else j.skip
      span := if diff + 1 > j.span then diff + 1 else j.span
      st := if diff + 1 > j.span then j.st else { j.st with reordered := j.st.reordered + 1 } }

/-- A datagram far off the window: several in a row move the window to it. -/
def rtpFar (j : Jitbuf) (h : RtpHdr) (s : Slot) : Jitbuf :=
  let j := { j with farRun := j.farRun + 1 }
  if j.farRun < jitbufFarResync then j.drop else rtpStore (j.rtpResync h) s 0

/-- `rtp_push` behind its checks of the header. `ahead` is the difference of the sequence numbers modulo
`2^16`, negative as an `int16_t` from `2^15` on. -/
def rtpPlace (j : Jitbuf) (h : RtpHdr) (s : Slot) : Jitbuf :=
  let ahead := (h.seq + 65536 - j.nextSeq) % 65536
  let back := 65536 - ahead
  if ahead ≥ 32768 then
    if !j.released && back + j.span < jitbufSlots then
      rtpStore { j with nextSeq := h.seq, span := j.span + back, skip := 0 } s 0
    else if back ≤ jitbufLateWindow then { j with st := { j.st with late := j.st.late + 1 } }
    else j.rtpFar h s
  else if ahead ≥ jitbufSlots then j.rtpFar h s
  else rtpStore { j with farRun := 0 } s ahead

def rtpPush (j : Jitbuf) (d : List UInt8) (nowNs id : Nat) : Jitbuf :=
  if rtpPayloadOffset d = 0 then j.drop
  else match rtpParseHeader d with
    | none => j.drop
    | some h => rtpPlace (if j.ssrc ≠ h.ssrc then j.rtpResync h else j) h ⟨nowNs, h.seq, d, id⟩

/-- The first datagram decides between reordering and plain delay. -/
def decideMode (j : Jitbuf) (d : List UInt8) : Jitbuf :=
  if j.mode = .unset then
    if rtpPayloadOffset d = 0 then { j with mode := .fifo }
    else match rtpParseHeader d with
      | none => { j with mode := .fifo }
      | some h => { j with mode := .rtp, nextSeq := h.seq, ssrc := h.ssrc }
  else j

/-- `jitbuf_push`. -/
def push (j : Jitbuf) (d : List UInt8) (nowNs id : Nat) : Jitbuf :=
  if d.length = 0 ∨ d.length > jitbufMaxDgram then j.drop
  else if (j.decideMode d).mode = .rtp then (j.decideMode d).rtpPush d nowNs id
  else (j.decideMode d).fifoPush d nowNs id

/-- The slot `dist` behind `next_seq`. -/
def slotAt (j : Jitbuf) (dist : Nat) : Option Slot := j.slots ((j.nextSeq + dist) % 65536 % jitbufSlots)

/-- The scan of `rtp_first` and `jitbuf_next_ns`: the distance of the first used slot from `skip` on. -/
def rtpFirst (j : Jitbuf) : Option Nat :=
  (List.range' j.skip (j.span - j.skip)).find? fun d => (j.slotAt d).isSome

/-- When a datagram is due, in 64 bit arithmetic. -/
def due (j : Jitbuf) (s : Slot) : Nat := (s.atNs + j.delayNs) % 2 ^ 64

/-- The datagram `jitbuf_pop` and `jitbuf_next_ns` look at. -/
def front (j : Jitbuf) : Option Slot :=
  if j.count = 0 then none
  else if j.mode = .rtp then j.rtpFirst.bind j.slotAt
  else j.slots j.head

/-- What `rtp_first` leaves in `skip`. -/
def advanceSkip (j : Jitbuf) : Jitbuf :=
  if j.mode = .rtp ∧ j.count ≠ 0 then { j with skip := j.rtpFirst.getD j.span } else j

/-- The end of `jitbuf_pop`: the datagram leaves its slot. -/
def release (j : Jitbuf) : Jitbuf :=
  if j.mode = .rtp then
    let dist := j.rtpFirst.getD 0
    { j with
      slots := update j.slots ((j.nextSeq + dist) % 65536 % jitbufSlots) none
      count := j.count - 1
      released := true
      st := { j.st with lost := j.st.lost + dist }
      nextSeq := (j.nextSeq + dist + 1) % 65536
      span := if j.span > dist + 1 then j.span - (dist + 1) else 0
      skip := 0 }
  else
    { j with
      slots := update j.slots j.head none
      count := j.count - 1
      released := true
      head := (j.head + 1) % jitbufSlots }

/-- `jitbuf_pop`: the datagram it returns, if any. -/
def pop (j : Jitbuf) (cap nowNs : Nat) : Option Slot × Jitbuf :=
  match j.front with
  | none => (none, j.advanceSkip)
  | some s =>
    if j.due s > nowNs then (none, j.advanceSkip)
    else if s.data.length ≤ cap then (some s, j.release)
    else (none, j.release.drop)

/-- `jitbuf_next_ns`. -/
def nextNs (j : Jitbuf) (nowNs : Nat) : Int := match j.front with
  | none => -1
  | some s => if j.due s ≤ nowNs then 0 else Int.bmod (j.due s - nowNs) (2 ^ 64)

/-! # The window of the jitter buffer

In RTP mode the used slots are those of sequence numbers in `[next_seq + skip, next_seq + span)`. The window
is at most as long as the ring, so two sequence numbers of it never share a slot. -/

/-- The indices of the slots in use. -/
def used (j : Jitbuf) : Finset Nat := (Finset.range jitbufSlots).filter fun i => (j.slots i).isSome

/-- What `rtp_push` and `jitbuf_pop` keep about the slots. -/
structure Window (j : Jitbuf) : Prop where
  nextSeq_lt : j.nextSeq < 65536
  span_le : j.span ≤ jitbufSlots
  skip_le : j.skip ≤ j.span
  /-- A used slot belongs to a sequence number of the window, behind `skip`. -/
  place : ∀ {i s}, j.slots i = some s →
    ∃ d, j.skip ≤ d ∧ d < j.span ∧ s.seq = (j.nextSeq + d) % 65536 ∧ i = s.seq % jitbufSlots
  count_eq : j.count = j.used.card

variable {j : Jitbuf} {i : Nat}

theorem mem_used : i ∈ j.used ↔ i < jitbufSlots ∧ ∃ s, j.slots i = some s := by
  rw [used, Finset.mem_filter, Finset.mem_range, isSome_iff_exists]

variable {s : Slot}

theorem card_used_fill {k : Jitbuf} (hi : i < jitbufSlots) (hfree : j.slots i = none)
    (hk : k.slots = update j.slots i (some s)) : k.used.card = j.used.card + 1 := by
  have hins : k.used = insert i j.used := by
    ext n
    rw [Finset.mem_insert, mem_used, mem_used, hk]
    by_cases hn : n = i
    · subst hn
      simp only [update_self, hi, true_and, true_or, iff_true]
      exact ⟨s, rfl⟩
    · rw [update_of_ne hn]
      simp only [hn, false_or]
  have hnot : i ∉ j.used := by
    rw [mem_used, hfree]
    rintro ⟨-, s', hs⟩
    cases hs
  rw [hins, Finset.card_insert_of_notMem hnot]

theorem card_used_clear {k : Jitbuf} (hi : i < jitbufSlots) (hs : j.slots i = some s)
    (hk : k.slots = update j.slots i none) : k.used.card = j.used.card - 1 := by
  have hupd : j.slots = update k.slots i (some s) := by rw [hk, update_idem, ← hs, update_eq_self]
  have hfree : k.slots i = none := by rw [hk, update_self]
  rw [card_used_fill hi hfree hupd, Nat.add_sub_cancel]

theorem slots_eq_none_of_span (hw : j.Window) (h : j.span = 0) (i : Nat) : j.slots i = none := by
  cases hs : j.slots i with
  | none => rfl
  | some s =>
    obtain ⟨d, -, hd, -⟩ := hw.place hs
    omega

/-! ## The scan for the first used slot -/

theorem rtpFirst_some {d : Nat} (h : j.rtpFirst = some d) :
    j.skip ≤ d ∧ d < j.span ∧ (∃ s, j.slotAt d = some s) ∧ ∀ e, j.skip ≤ e → e < d → j.slotAt e = none := by
  rw [rtpFirst, List.find?_range'_eq_some] at h
  obtain ⟨hd, hmem, hlt⟩ := h
  rw [List.mem_range'_1] at hmem
  refine ⟨hmem.1, by omega, isSome_iff_exists.1 hd, ?_⟩
  intro e he hed
  have hnone := hlt e he hed
  simpa using hnone

theorem rtpFirst_none (h : j.rtpFirst = none) {e : Nat} (he : j.skip ≤ e) (hes : e < j.span) : j.slotAt e = none := by
  rw [rtpFirst, List.find?_range'_eq_none] at h
  have hnone := h e he (by omega)
  simpa using hnone

theorem Window.first_le (hw : j.Window) (hs : j.slots i = some s) :
    ∃ d, j.rtpFirst = some d ∧ ∃ e, d ≤ e ∧ e < j.span ∧ s.seq = (j.nextSeq + e) % 65536 ∧ i = s.seq % jitbufSlots := by
  obtain ⟨e, hskip, hspan, hseq, hi⟩ := hw.place hs
  have hat : j.slotAt e = some s := by rw [slotAt, ← hseq, ← hi, hs]
  cases hf : j.rtpFirst with
  | none =>
    rw [rtpFirst_none hf hskip hspan] at hat
    cases hat
  | some d =>
    refine ⟨d, rfl, e, ?_, hspan, hseq, hi⟩
    by_contra hlt
    rw [(rtpFirst_some hf).2.2.2 e hskip (by omega)] at hat
    cases hat

theorem Window.advanceSkip (hw : j.Window) : j.advanceSkip.Window := by
  unfold Jitbuf.advanceSkip
  split
  case isFalse => exact hw
  case isTrue =>
    refine ⟨hw.nextSeq_lt, hw.span_le, ?_, ?_, hw.count_eq⟩
    · cases hf : j.rtpFirst with
      | none => exact le_rfl
      | some d => exact (rtpFirst_some hf).2.1.le
    · intro i s hs
      obtain ⟨d, hd, e, hde, hrest⟩ := hw.first_le hs
      refine ⟨e, ?_, hrest⟩
      rw [hd]
      exact hde

theorem Window.front_some (hw : j.Window) (hm : j.mode = .rtp) (hf : j.front = some s) :
    ∃ d, j.rtpFirst = some d ∧ j.slotAt d = some s ∧ d < j.span ∧ s.seq = (j.nextSeq + d) % 65536 ∧ 0 < j.count := by
  simp only [front, if_pos hm] at hf
  split at hf
  · cases hf
  rename_i hc
  obtain ⟨d, hd, hs⟩ := bind_eq_some_iff.1 hf
  obtain ⟨hskip, hspan, -, hfirst⟩ := rtpFirst_some hd
  refine ⟨d, hd, hs, hspan, ?_, pos_of_ne_zero hc⟩
  -- the slot's own distance is `d`, since both lie in the window
  obtain ⟨e, heskip, hespan, hseq, hi⟩ := hw.place hs
  have hmod : e % jitbufSlots = d % jitbufSlots := by
    simp only [jitbufSlots] at hi ⊢
    omega
  have hle := hw.span_le
  rw [mod_eq_of_lt (by omega), mod_eq_of_lt (by omega)] at hmod
  rw [hseq, hmod]

theorem Window.release (hw : j.Window) (hm : j.mode = .rtp) (hf : j.front = some s) : j.release.Window := by
  obtain ⟨d, hd, hs, hspan, hseq, hcount⟩ := hw.front_some hm hf
  have hidx : (j.nextSeq + d) % 65536 % jitbufSlots < jitbufSlots := mod_lt _ (by decide)
  simp only [Jitbuf.release, if_pos hm, hd, getD_some]
  refine ⟨mod_lt _ (by decide), ?_, zero_le _, ?_, ?_⟩
  · have hle := hw.span_le
    simp only
    split <;> omega
  · intro i t ht
    simp only [Function.update_apply] at ht
    split at ht
    · cases ht
    rename_i hne
    obtain ⟨d', hd', e, hde, hespan, hseq', hi⟩ := hw.first_le ht
    obtain rfl : d = d' := by rw [hd] at hd'; exact some.inj hd'
    have hlt : d ≠ e := by
      rintro rfl
      exact hne (by rw [hi, hseq'])
    refine ⟨e - (d + 1), zero_le _, ?_, ?_, hi⟩
    · simp only
      split <;> omega
    · simp only
      omega
  · rw [card_used_clear hidx hs rfl, hw.count_eq]

/-! ## Storing a datagram -/

theorem Window.rtpStore (hw : j.Window) {diff : Nat} (hdiff : diff < jitbufSlots)
    (hseq : s.seq = (j.nextSeq + diff) % 65536) : (j.rtpStore s diff).Window := by
  unfold Jitbuf.rtpStore
  split
  case h_1 s' hs => exact { hw with }
  case h_2 hfree =>
    have hidx : s.seq % jitbufSlots < jitbufSlots := mod_lt _ (by decide)
    have hspan := hw.span_le
    refine ⟨hw.nextSeq_lt, ?_, ?_, ?_, ?_⟩
    · simp only
      split <;> omega
    · simp only
      split <;> split <;> omega
    · intro i t ht
      simp only [Function.update_apply] at ht
      split at ht
      · rename_i hi
        cases ht
        refine ⟨diff, ?_, ?_, hseq, hi⟩
        · simp only
          split <;> omega
        · simp only
          split <;> omega
      obtain ⟨d, hd, hds, hrest⟩ := hw.place ht
      refine ⟨d, ?_, ?_, hrest⟩
      · simp only
        split <;> omega
      · simp only
        split <;> omega
    · rw [card_used_fill hidx hfree rfl, hw.count_eq]

theorem used_eq_empty (h : ∀ i, j.slots i = none) : j.used = ∅ := by
  ext i
  rw [mem_used, h i]
  simp

theorem Window.of_empty (hseq : j.nextSeq < 65536) (hspan : j.span = 0) (hskip : j.skip = 0)
    (hslots : ∀ i, j.slots i = none) (hcount : j.count = 0) : j.Window := by
  refine ⟨hseq, by simp [hspan], by omega, ?_, ?_⟩
  · intro i s hs
    rw [hslots i] at hs
    cases hs
  · rw [used_eq_empty hslots, hcount, Finset.card_empty]

variable {h : RtpHdr}

theorem Window.rtpResync (hseq : h.seq < 65536) : (j.rtpResync h).Window :=
  .of_empty hseq rfl rfl (fun _ => rfl) rfl

theorem Window.rtpFar (hw : j.Window) (hseq : h.seq < 65536) (hs : s.seq = h.seq) : (j.rtpFar h s).Window := by
  unfold Jitbuf.rtpFar
  dsimp only
  split
  · exact { hw with }
  · refine (Window.rtpResync hseq).rtpStore (by decide) ?_
    rw [hs, add_zero]
    exact (mod_eq_of_lt hseq).symm

theorem Window.extend (hw : j.Window) {seq back : Nat} (hseq : seq < 65536)
    (hback : (seq + back) % 65536 = j.nextSeq) (hfit : back + j.span < jitbufSlots) :
    Window { j with nextSeq := seq, span := j.span + back, skip := 0 } := by
  refine ⟨hseq, ?_, zero_le _, ?_, hw.count_eq⟩
  · show j.span + back ≤ jitbufSlots
    omega
  intro i s hs
  obtain ⟨d, -, hd, hsd, hi⟩ := hw.place hs
  refine ⟨d + back, zero_le _, ?_, ?_, hi⟩
  · show d + back < j.span + back
    omega
  · rw [hsd, ← hback]
    show ((seq + back) % 65536 + d) % 65536 = (seq + (d + back)) % 65536
    omega

theorem Window.rtpPlace (hw : j.Window) (hseq : h.seq < 65536) (hs : s.seq = h.seq) : (j.rtpPlace h s).Window := by
  have hnext := hw.nextSeq_lt
  unfold Jitbuf.rtpPlace
  dsimp only
  split
  · rename_i hback
    split
    · rename_i hfit
      rw [Bool.and_eq_true, decide_eq_true_eq] at hfit
      refine (hw.extend hseq (by omega) hfit.2).rtpStore (by decide) ?_
      rw [hs, add_zero]
      exact (mod_eq_of_lt hseq).symm
    · split
      · exact { hw with }
      · exact hw.rtpFar hseq hs
  split
  · exact hw.rtpFar hseq hs
  rename_i hahead
  have hw0 : Window { j with farRun := 0 } := { hw with }
  refine hw0.rtpStore (not_le.1 hahead) ?_
  rw [hs]
  show h.seq = (j.nextSeq + (h.seq + 65536 - j.nextSeq) % 65536) % 65536
  omega

theorem Window.rtpPush (hw : j.Window) (d : List UInt8) (nowNs id : Nat) : (j.rtpPush d nowNs id).Window := by
  unfold Jitbuf.rtpPush
  split
  · exact { hw with }
  split
  · exact { hw with }
  · rename_i h hp
    have hseq := rtpParseHeader_seq_lt hp
    split
    · exact (Window.rtpResync hseq).rtpPlace hseq rfl
    · exact hw.rtpPlace hseq rfl

end Jitbuf

end DvbIpiTools.Net
