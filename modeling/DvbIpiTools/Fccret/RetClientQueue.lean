import DvbIpiTools.Fccret.RetClient

set_option autoImplicit false

/-! # Room in the retransmission client's output queue

A packet in the window has a place in the queue as long as the packets queued and held are no more than its slots.
What a call of `ret_client_read` can add to them is one packet for each datagram it reads, so the queue can only run
over when it was not empty before, or when the window is full behind its head and all three sockets add to it. -/

namespace DvbIpiTools.Fccret

open BeUtil Demux List Option

namespace RetClient

variable {τ : Type}

/-! ## Accounting -/

/-- The used slots of a window. -/
def used (hold : List (RetHold τ)) : Nat := hold.countP fun h => h.data.isSome

@[simp] theorem used_nil : used ([] : List (RetHold τ)) = 0 := rfl

theorem used_cons (h : RetHold τ) (hold : List (RetHold τ)) :
    used (h :: hold) = used hold + if h.data.isSome then 1 else 0 := countP_cons

theorem used_append (a b : List (RetHold τ)) : used (a ++ b) = used a + used b := countP_append

theorem used_le_length (hold : List (RetHold τ)) : used hold ≤ hold.length := countP_le_length

/-- The packets queued and held. -/
def load (r : RetClient τ) : Nat := r.outq.length + used r.hold

/-- Every packet handed to `outq_push` between the two states was queued. -/
def Kept (r r' : RetClient τ) : Prop := ∃ new, r'.outq = r.outq ++ new ∧ r'.pushed = r.pushed ++ new

theorem Kept.refl (r : RetClient τ) : Kept r r := ⟨[], by simp, by simp⟩

variable {r r' r'' : RetClient τ}

theorem Kept.trans (h : Kept r r') (h' : Kept r' r'') : Kept r r'' := by
  obtain ⟨a, hq, hp⟩ := h
  obtain ⟨b, hq', hp'⟩ := h'
  exact ⟨a ++ b, by rw [hq', hq, append_assoc], by rw [hp', hp, append_assoc]⟩

theorem Kept.of_eq (hq : r'.outq = r.outq) (hp : r'.pushed = r.pushed) : Kept r r' :=
  ⟨[], by simp [hq], by simp [hp]⟩

theorem Kept.length_eq (h : Kept r r') : r'.pushed.length + r.outq.length = r.pushed.length + r'.outq.length := by
  obtain ⟨new, hq, hp⟩ := h
  rw [hq, hp, length_append, length_append]
  omega

theorem kept_push (h : r.outq.length < retOutqSlots) (ext : Nat) (d : List UInt8) : Kept r (r.push ext d) :=
  ⟨[⟨r.epoch, ext, d.take retOutqCap⟩], if_neg (not_le.2 h), rfl⟩

theorem length_push_le (r : RetClient τ) (ext : Nat) (d : List UInt8) :
    (r.push ext d).outq.length ≤ r.outq.length + 1 := by
  simp only [push]
  split
  · exact Nat.le_succ _
  · rw [length_append]
    exact le_rfl

/-- The step adds at most `n` packets, and queues what it pushes when there is room for them. -/
structure Takes (n : Nat) (r r' : RetClient τ) : Prop where
  load_le : r'.load ≤ r.load + n
  kept : r.load + n ≤ retOutqSlots → Kept r r'

variable {n m : Nat}

theorem Takes.trans (h : Takes m r r') (h' : Takes n r' r'') : Takes (m + n) r r'' := by
  have hle := h.load_le
  have hle' := h'.load_le
  exact ⟨by omega, fun hroom => (h.kept (by omega)).trans (h'.kept (by omega))⟩

theorem Takes.mono (h : Takes m r r') (hmn : m ≤ n) : Takes n r r' := by
  have hle := h.load_le
  exact ⟨by omega, fun hroom => h.kept (by omega)⟩

theorem Takes.of_eq (hq : r'.outq = r.outq) (hp : r'.pushed = r.pushed)
    (hused : used r'.hold ≤ used r.hold + n) : Takes n r r' := by
  refine ⟨?_, fun _ => Kept.of_eq hq hp⟩
  unfold load
  rw [hq]
  omega

theorem Takes.refl (r : RetClient τ) : Takes 0 r r := Takes.of_eq rfl rfl le_rfl

theorem takes_push (r : RetClient τ) (ext : Nat) (d : List UInt8) : Takes 1 r (r.push ext d) := by
  have hlen := length_push_le r ext d
  refine ⟨?_, fun hroom => kept_push ?_ ext d⟩
  · show (r.push ext d).outq.length + used r.hold ≤ r.outq.length + used r.hold + 1
    omega
  · unfold load at hroom
    omega

theorem takes_push_shift {r : RetClient τ} {h : RetHold τ} {rest : List (RetHold τ)} (hhold : r.hold = h :: rest)
    {d : List UInt8} (hd : h.data = some d) : Takes 0 r (r.push r.ext d).shift := by
  have hlen := length_push_le r r.ext d
  have hused : used r.hold = used rest + 1 := by rw [hhold, used_cons, hd]; rfl
  refine ⟨?_, fun hroom => kept_push ?_ r.ext d⟩
  · show (r.push r.ext d).outq.length + used r.hold.tail ≤ r.outq.length + used r.hold + 0
    rw [hused, hhold, tail_cons]
    omega
  · unfold load at hroom
    omega

theorem takes_shift {h : RetHold τ} {rest : List (RetHold τ)} (hhold : r.hold = h :: rest)
    (lost : Nat) : Takes 0 r { r.shift with lost := lost } := by
  refine Takes.of_eq rfl rfl ?_
  show used r.hold.tail ≤ _
  rw [hhold, tail_cons, used_cons]
  omega

variable (l : List (RetHold τ))

theorem takes_abandonHold (hl : r.hold = l) : Takes 0 r (abandonHold l r) := by
  induction l generalizing r with
  | nil => exact Takes.refl r
  | cons h rest ih =>
    have htail : r.hold.tail = rest := by rw [hl]; rfl
    unfold abandonHold
    cases hd : h.data with
    | some d => exact (takes_push_shift hl hd).trans (ih htail)
    | none => exact (takes_shift hl r.lost).trans (ih htail)

theorem takes_arrive (r : RetClient τ) (seq : Nat) (payload : List UInt8) : Takes 0 r (r.arrive seq payload) :=
  Takes.of_eq rfl rfl le_rfl

theorem takes_trackSsrc (r : RetClient τ) (h : RtpHdr) : Takes 0 r (r.trackSsrc h) := by
  unfold trackSsrc
  split
  · have hab : Takes 0 r (if r.hold ≠ [] then r.abandonGap else r) := by
      split
      · exact takes_abandonHold r.hold rfl
      · exact Takes.refl r
    exact ⟨hab.load_le, hab.kept⟩
  · exact Takes.refl r

theorem takes_handleInOrder (cfg : RetConfig τ) (r : RetClient τ) (seq : Nat) (payload : List UInt8) (now : τ) :
    Takes 1 r (handleInOrder cfg r seq payload now) := by
  unfold handleInOrder
  dsimp only
  split
  · exact (Takes.refl r).mono (Nat.zero_le 1)
  split
  · exact ⟨(takes_push r r.ext payload).load_le, (takes_push r r.ext payload).kept⟩
  split
  · have hpush := takes_push { r with expectedSeq := (seq + 1) % 65536, ext := r.ext +
      (seq + 65536 - r.expectedSeq) % 65536 + 1 } (r.ext + (seq + 65536 - r.expectedSeq) % 65536) payload
    exact ⟨hpush.load_le, hpush.kept⟩
  refine Takes.of_eq rfl rfl ?_
  rw [used_append, used, countP_replicate, if_neg (by simp [arm])]
  have hlast := used_le_length [(⟨some payload, now, now⟩ : RetHold τ)]
  rw [length_singleton] at hlast
  omega

theorem countP_set_near (p : RetHold τ → Bool) (k : Nat) (g : RetHold τ) :
    (l.set k g).countP p ≤ l.countP p + 1 ∧ l.countP p ≤ (l.set k g).countP p + 1 := by
  by_cases hk : k < l.length
  · rw [countP_set hk]
    split <;> split <;> omega
  · rw [set_eq_of_length_le (not_lt.1 hk)]
    omega

theorem takes_handleOriginalSeq (cfg : RetConfig τ) (r : RetClient τ) (seq : Nat) (payload : List UInt8) (now : τ) :
    Takes 1 r (handleOriginalSeq cfg r seq payload now) := by
  unfold handleOriginalSeq
  dsimp only
  split
  · exact takes_handleInOrder cfg r seq payload now
  split
  · exact (Takes.refl r).mono (Nat.zero_le 1)
  split
  · split
    · exact Takes.of_eq rfl rfl (countP_set_near _ _ _ _).1
    · exact (Takes.refl r).mono (Nat.zero_le 1)
  split
  · refine Takes.of_eq rfl rfl ?_
    rw [used_append, used_append, used, used, countP_replicate, if_neg (by simp [arm])]
    have hlast := used_le_length [(⟨some payload, now, now⟩ : RetHold τ)]
    rw [length_singleton] at hlast
    omega
  · have hab : Takes 0 r r.abandonGap := takes_abandonHold r.hold rfl
    exact hab.trans (takes_handleInOrder cfg r.abandonGap seq payload now)

/-! ## What a call meets -/

/-- The datagrams that a call finds at the sockets. -/
def datagrams (i : RetInput τ) : Nat :=
  (if i.main.isSome then 1 else 0) + (if i.uni.isSome then 1 else 0) + if i.repair.isSome then 1 else 0

/-- How far a packet of this SSRC that fits in a slot is ahead. -/
def mainAhead (r : RetClient τ) : Option (List UInt8) → Option Nat
  | none => none
  | some d => (rtpParseHeader d).bind fun h =>
    if d.length > h.payloadOff ∧ (d.drop h.payloadOff).length ≤ retHoldCap ∧ r.haveSsrc = true ∧ h.ssrc = r.ssrc then
      some ((h.seq + 65536 - r.expectedSeq) % 65536)
    else none

/-- How far a repair of this SSRC that fits in a slot is ahead. -/
def repairAhead (cfg : RetConfig τ) (r : RetClient τ) : Option (List UInt8) → Option Nat
  | none => none
  | some d => (rtxParse d cfg.rtxPt).bind fun rx =>
    if rx.ssrc = r.ssrc ∧ rx.payload.length ≤ retHoldCap then some ((rx.osn + 65536 - r.expectedSeq) % 65536)
    else none

/-- A window as every call leaves it: it is not too long, and its head is missing. -/
structure Framed (r : RetClient τ) : Prop where
  length_le : r.hold.length ≤ retGapMax
  head : ∀ h ∈ r.hold.head?, h.data = none

theorem length_handleInOrder_le (cfg : RetConfig τ) (hlen : r.hold.length ≤ retGapMax) (seq : Nat)
    (payload : List UInt8) (now : τ) : (handleInOrder cfg r seq payload now).hold.length ≤ retGapMax := by
  unfold handleInOrder
  dsimp only
  split
  · exact hlen
  split
  · exact hlen
  · split
    · exact hlen
    · rename_i hsmall
      rw [length_append, length_replicate, length_singleton]
      omega

theorem length_handleOriginalSeq_le (cfg : RetConfig τ) (hlen : r.hold.length ≤ retGapMax) (seq : Nat)
    (payload : List UInt8) (now : τ) : (handleOriginalSeq cfg r seq payload now).hold.length ≤ retGapMax := by
  unfold handleOriginalSeq
  dsimp only
  split
  · exact length_handleInOrder_le cfg hlen seq payload now
  split
  · exact hlen
  split
  · split
    · exact (length_set).trans_le hlen
    · exact hlen
  rename_i hnone
  split
  · have hge := getElem?_eq_none_iff.1 hnone
    rw [length_append, length_append, length_replicate, length_singleton]
    omega
  · refine length_handleInOrder_le cfg ?_ seq payload now
    rw [abandonGap, hold_abandonHold _ _ rfl]
    exact Nat.zero_le _

theorem Framed.pop (hr : Framed r) (cap : Nat) : Framed (r.pop cap).2 := by
  rcases pop_cases r cap with ⟨-, hp⟩ | ⟨q, rest, -, hp⟩
  · rw [hp]
    exact hr
  · rw [hp]
    exact ⟨hr.length_le, hr.head⟩

theorem abandonHold_track (r : RetClient τ) (hseq : r.expectedSeq < 65536) :
    (abandonHold l r).ssrc = r.ssrc ∧ (abandonHold l r).expectedSeq = (r.expectedSeq + l.length) % 65536 := by
  induction l generalizing r with
  | nil => exact ⟨rfl, (Nat.mod_eq_of_lt hseq).symm⟩
  | cons h rest ih =>
    have hnext : (r.expectedSeq + 1) % 65536 < 65536 := Nat.mod_lt _ (by decide)
    have hsum : ((r.expectedSeq + 1) % 65536 + rest.length) % 65536 = (r.expectedSeq + (h :: rest).length) % 65536 := by
      rw [length_cons]
      omega
    unfold abandonHold
    rw [← hsum]
    cases h.data with
    | some d => exact ih (r.push r.ext d).shift hnext
    | none => exact ih r.shift hnext

/-- Without a window a packet is dropped, queued at once, or opens a gap. -/
theorem handleInOrder_cases (cfg : RetConfig τ) (hhold : r.hold = []) (seq : Nat)
    (payload : List UInt8) (now : τ) : (handleInOrder cfg r seq payload now).hold = [] ∨
      ∃ a, (seq + 65536 - r.expectedSeq) % 65536 = a ∧ 0 < a ∧ a < retGapMax ∧ payload.length ≤ retHoldCap ∧
        handleInOrder cfg r seq payload now = { r with
          hold := replicate a (arm cfg now) ++ [⟨some payload, now, now⟩]
          nacks := r.nacks ++ [(r.expectedSeq, a)] } := by
  unfold handleInOrder
  dsimp only
  split
  · exact .inl hhold
  split
  · exact .inl hhold
  · rename_i hne
    split
    · exact .inl hhold
    · rename_i hsmall
      exact .inr ⟨_, rfl, pos_of_ne_zero hne, by omega, by omega, rfl⟩

variable {hold : List (RetHold τ)} {k : Nat} {g : RetHold τ}

theorem used_set_of_free (hslot : hold[k]? = some g) (hfree : g.data = none) (payload : List UInt8) :
    used (hold.set k { g with data := some payload }) = used hold + 1 := by
  obtain ⟨hk, rfl⟩ := List.getElem?_eq_some_iff.1 hslot
  rw [used, countP_set hk, hfree]
  rfl

theorem data_of_set_free (hone : used hold + 1 = hold.length) (hslot : hold[k]? = some g) (hfree : g.data = none)
    (payload : List UInt8) : ∀ h ∈ hold.set k { g with data := some payload }, h.data = none → False := by
  have hall : used (hold.set k { g with data := some payload }) = (hold.set k { g with data := some payload }).length := by
    rw [used_set_of_free hslot hfree, hone, length_set]
  intro h hh hnone
  have hsome := countP_eq_length.1 hall h hh
  rw [hnone] at hsome
  cases hsome

theorem Framed.used_lt (hr : Framed r) (hne : r.hold ≠ []) : used r.hold < r.hold.length := by
  obtain ⟨h, rest, hhold⟩ := exists_cons_of_ne_nil hne
  have hfree : h.data = none := hr.head h (by rw [hhold]; rfl)
  have hle := used_le_length rest
  rw [hhold, used_cons, hfree, length_cons]
  simp only [isSome_none, Bool.false_eq_true, if_false]
  omega

theorem repairAhead_moved {cfg : RetConfig τ} (hseq : r.expectedSeq < 65536)
    (hssrc : r'.ssrc = r.ssrc) (hexp : r'.expectedSeq = (r.expectedSeq + n) % 65536) (hsmall : k + n < 65536)
    {d : Option (List UInt8)} (h : repairAhead cfg r' d = some k) : repairAhead cfg r d = some (k + n) := by
  cases d with
  | none => cases h
  | some p =>
    obtain ⟨rx, hrx, hk⟩ := bind_eq_some_iff.1 h
    split at hk
    · rename_i hfits
      have hdist := some.inj hk
      simp only [repairAhead, hrx, bind_some]
      rw [if_pos ⟨hssrc ▸ hfits.1, hfits.2⟩]
      congr 1
      omega
    · cases hk

theorem data_of_slot (hslot : hold[k]? = some g) (hfree : g.data = none) : (hold.map RetHold.data)[k]? = some none := by
  rw [getElem?_map, hslot, map_some, hfree]

section Clock

variable [LinearOrder τ] {r : RetClient τ}

theorem takes_flushHold (now : τ) (l : List (RetHold τ)) (hl : r.hold = l) : Takes 0 r (flushHold now l r) := by
  induction l generalizing r with
  | nil => exact Takes.refl r
  | cons h rest ih =>
    have htail : r.hold.tail = rest := by rw [hl]; rfl
    unfold flushHold
    cases hd : h.data with
    | some d => exact (takes_push_shift hl hd).trans (ih htail)
    | none =>
      dsimp only
      split
      · exact (takes_shift hl (r.lost + 1)).trans (ih htail)
      · exact Takes.refl r

theorem used_nackRetry (cfg : RetConfig τ) (r : RetClient τ) (now : τ) : used (nackRetry cfg r now).hold = used r.hold := by
  unfold used nackRetry
  rw [countP_map]
  refine countP_congr fun h _ => ?_
  simp only [Function.comp_apply]
  split <;> rfl

theorem takes_nackRetry (cfg : RetConfig τ) (r : RetClient τ) (now : τ) : Takes 0 r (nackRetry cfg r now) :=
  Takes.of_eq rfl rfl (le_of_eq (used_nackRetry cfg r now))

theorem takes_flushReady (cfg : RetConfig τ) (r : RetClient τ) (now : τ) : Takes 0 r (flushReady cfg r now) := by
  unfold flushReady
  dsimp only
  split
  · exact (takes_flushHold now r.hold rfl).trans (takes_nackRetry cfg _ now)
  · exact takes_flushHold now r.hold rfl

theorem takes_onOriginal (cfg : RetConfig τ) (r : RetClient τ) (h : RtpHdr) (payload : List UInt8) (now : τ) :
    Takes 1 r (onOriginal cfg r h payload now) :=
  ((takes_trackSsrc r h).trans (takes_arrive _ h.seq payload)).trans
    ((takes_handleOriginalSeq cfg _ h.seq payload now).trans (takes_flushReady cfg _ now))

/-- A datagram of a repair socket changes nothing, or fills a slot of the window. -/
theorem onRepairSocket_cases (cfg : RetConfig τ) (r : RetClient τ) (now : τ) (d : Option (List UInt8)) :
    onRepairSocket cfg r now d = r ∨ ∃ k h osn payload, repairAhead cfg r d = some k ∧ r.hold[k]? = some h ∧
      h.data = none ∧ onRepairSocket cfg r now d =
        flushReady cfg { r.arrive osn payload with hold := r.hold.set k { h with data := some payload } } now := by
  cases d with
  | none => exact .inl rfl
  | some p =>
    unfold onRepairSocket onRepair
    dsimp only
    split
    · exact .inl rfl
    split
    · exact .inl rfl
    split
    · exact .inl rfl
    rename_i rx hrx
    split
    · exact .inl rfl
    rename_i hssrc
    split
    · exact .inl rfl
    rename_i hlen
    split
    · exact .inl rfl
    split
    · exact .inl rfl
    rename_i h hslot
    split
    · exact .inl rfl
    · rename_i hfree
      have hahead : repairAhead cfg r (some p) = some ((rx.osn + 65536 - r.expectedSeq) % 65536) := by
        simp only [repairAhead, hrx, bind_some]
        rw [if_pos ⟨not_not.1 hssrc, not_lt.1 hlen⟩]
      exact .inr ⟨_, h, rx.osn, rx.payload, hahead, hslot, not_not.1 hfree, rfl⟩

theorem takes_onRepairSocket (cfg : RetConfig τ) (r : RetClient τ) (now : τ) (d : Option (List UInt8)) :
    Takes (if d.isSome then 1 else 0) r (onRepairSocket cfg r now d) := by
  cases d with
  | none => exact Takes.refl r
  | some p =>
    rcases onRepairSocket_cases cfg r now (some p) with heq | ⟨k, h, osn, payload, -, -, -, heq⟩
    · rw [heq]
      exact (Takes.refl r).mono (Nat.zero_le _)
    · rw [heq]
      have hfill : Takes 1 r { r.arrive osn payload with hold := r.hold.set k { h with data := some payload } } :=
        Takes.of_eq rfl rfl (countP_set_near _ _ _ _).1
      exact hfill.trans (takes_flushReady cfg _ now)

theorem takes_onMain (cfg : RetConfig τ) (r : RetClient τ) (now : τ) (d : Option (List UInt8)) :
    Takes (if d.isSome then 1 else 0) r (onMain cfg r now d) := by
  cases d with
  | none => exact Takes.refl r
  | some p =>
    show Takes 1 r _
    unfold onMain
    dsimp only
    split
    · exact (Takes.refl r).mono (Nat.zero_le _)
    · split
      · exact takes_onOriginal cfg r _ _ now
      · exact (Takes.refl r).mono (Nat.zero_le _)

theorem takes_process (cfg : RetConfig τ) (r : RetClient τ) (i : RetInput τ) :
    Takes (datagrams i) r (process cfg r i) :=
  (((takes_onMain cfg r i.now i.main).trans (takes_onRepairSocket cfg _ i.now i.uni)).trans
    (takes_onRepairSocket cfg _ i.now i.repair)).trans (takes_flushReady cfg _ i.now)

/-! ## The window -/

theorem hold_flushHold_of_ready (now : τ) (l : List (RetHold τ)) (hl : r.hold = l)
    (hready : ∀ h ∈ l, h.data = none → h.deadline ≤ now) : (flushHold now l r).hold = [] := by
  induction l generalizing r with
  | nil => exact hl
  | cons h rest ih =>
    have htail : r.hold.tail = rest := by rw [hl]; rfl
    have hrest : ∀ g ∈ rest, g.data = none → g.deadline ≤ now := fun g hg => hready g (mem_cons_of_mem h hg)
    unfold flushHold
    cases hd : h.data with
    | some d => exact ih htail hrest
    | none =>
      rw [if_pos (hready h mem_cons_self hd)]
      exact ih htail hrest

variable {cfg : RetConfig τ} {now : τ}

theorem flushReady_eq_of_nil (h : (flushHold now r.hold r).hold = []) :
    flushReady cfg r now = flushHold now r.hold r := by
  exact if_neg (not_not.2 h)

/-- What is left after a flush is the end of the window, with a missing head. -/
theorem hold_flushHold (now : τ) (l : List (RetHold τ)) {r : RetClient τ} (hl : r.hold = l) :
    (flushHold now l r).hold <:+ l ∧ ∀ h ∈ (flushHold now l r).hold.head?, h.data = none := by
  induction l generalizing r with
  | nil =>
    unfold flushHold
    rw [hl]
    exact ⟨suffix_refl _, by simp⟩
  | cons h rest ih =>
    have htail : r.hold.tail = rest := by rw [hl]; rfl
    unfold flushHold
    cases hd : h.data with
    | some d =>
      have hrest := @ih (r.push r.ext d).shift htail
      exact ⟨hrest.1.trans (suffix_cons h rest), hrest.2⟩
    | none =>
      dsimp only
      split
      · have hrest := @ih { r.shift with lost := r.lost + 1 } htail
        exact ⟨hrest.1.trans (suffix_cons h rest), hrest.2⟩
      · rw [hl]
        refine ⟨suffix_refl _, fun g hg => ?_⟩
        rw [← some.inj hg]
        exact hd

theorem head_flushReady (cfg : RetConfig τ) (r : RetClient τ) (now : τ) :
    ∀ h ∈ (flushReady cfg r now).hold.head?, h.data = none := by
  have hhead := (hold_flushHold now r.hold rfl).2
  unfold flushReady
  dsimp only
  split
  · intro h hh
    simp only [nackRetry, head?_map, mem_def, map_eq_some_iff] at hh
    obtain ⟨g, hg, rfl⟩ := hh
    have hdata := hhead g hg
    split
    · exact hdata
    · exact hdata
  · exact hhead

theorem length_flushReady_le (cfg : RetConfig τ) (r : RetClient τ) (now : τ) :
    (flushReady cfg r now).hold.length ≤ r.hold.length := by
  have hlen := (hold_flushHold now r.hold rfl).1.length_le
  unfold flushReady
  dsimp only
  split
  · rw [nackRetry, length_map]
    exact hlen
  · exact hlen

theorem length_onMain_le (cfg : RetConfig τ) (hlen : r.hold.length ≤ retGapMax) (now : τ)
    (d : Option (List UInt8)) : (onMain cfg r now d).hold.length ≤ retGapMax := by
  unfold onMain
  split
  · exact hlen
  split
  · exact hlen
  split
  · refine (length_flushReady_le cfg _ now).trans (length_handleOriginalSeq_le cfg ?_ _ _ now)
    unfold trackSsrc
    split
    · show (if r.hold ≠ [] then r.abandonGap else r).hold.length ≤ _
      split
      · rw [abandonGap, hold_abandonHold _ _ rfl]
        exact Nat.zero_le _
      · exact hlen
    · exact hlen
  · exact hlen

theorem length_onRepairSocket_le (cfg : RetConfig τ) (hlen : r.hold.length ≤ retGapMax) (now : τ)
    (d : Option (List UInt8)) : (onRepairSocket cfg r now d).hold.length ≤ retGapMax := by
  rcases onRepairSocket_cases cfg r now d with heq | ⟨k, h, osn, payload, -, -, -, heq⟩
  · rw [heq]
    exact hlen
  · rw [heq]
    refine (length_flushReady_le cfg _ now).trans ?_
    rw [length_set]
    exact hlen

theorem Framed.process (hr : Framed r) (cfg : RetConfig τ) (i : RetInput τ) : Framed (process cfg r i) where
  length_le := (length_flushReady_le cfg _ i.now).trans (length_onRepairSocket_le cfg
    (length_onRepairSocket_le cfg (length_onMain_le cfg hr.length_le i.now i.main) i.now i.uni) i.now i.repair)
  head := head_flushReady cfg _ i.now

theorem Framed.read (hr : Framed r) (cfg : RetConfig τ) (cap : Nat) (i : RetInput τ) : Framed (read cfg r cap i).2 := by
  unfold RetClient.read
  split
  · exact hr.pop cap
  · split
    · exact hr.pop cap
    · exact ((hr.pop cap).process cfg i).pop cap

theorem run_framed (cfg : RetConfig τ) (reads : List (Nat × RetInput τ)) : Framed (run cfg reads).1 := by
  induction reads using reverseRecOn with
  | nil => exact ⟨Nat.zero_le _, by simp [run]⟩
  | append_singleton reads i ih =>
    rw [run_concat]
    exact ih.read cfg i.1 i.2

/-! ## A missing packet that holds back the rest -/

/-- A window with at least `c` missing slots, none of them expired, and a used slot behind them. -/
def Waiting (now : τ) (c : Nat) (hold : List (RetHold τ)) : Prop :=
  ∃ front last, hold = front ++ [last] ∧ last.data.isSome = true ∧ (∀ h ∈ front, h.data = none → now < h.deadline) ∧
    c ≤ front.countP fun h => h.data.isNone

variable {c : Nat}

theorem Waiting.mono {c' : Nat} {hold : List (RetHold τ)} (h : Waiting now c hold) (hc : c' ≤ c) :
    Waiting now c' hold := by
  obtain ⟨front, last, heq, hlast, hlate, hcount⟩ := h
  exact ⟨front, last, heq, hlast, hlate, hc.trans hcount⟩

variable {g : RetHold τ}

theorem Waiting.set {k : Nat} {hold : List (RetHold τ)} (h : Waiting now (c + 1) hold)
    (hslot : hold[k]? = some g) (hfree : g.data = none) (payload : List UInt8) :
    Waiting now c (hold.set k { g with data := some payload }) := by
  obtain ⟨front, last, rfl, hlast, hlate, hcount⟩ := h
  have hk : k < front.length := by
    have hlt := (List.getElem?_eq_some_iff.1 hslot).1
    rw [length_append, length_singleton] at hlt
    by_contra hge
    obtain rfl : k = front.length := by omega
    rw [getElem?_concat_length] at hslot
    rw [some.inj hslot, hfree] at hlast
    cases hlast
  refine ⟨front.set k { g with data := some payload }, last, set_append_left _ _ hk, hlast, ?_, ?_⟩
  · intro h hh hnone
    rcases mem_or_eq_of_mem_set hh with hh | rfl
    · exact hlate h hh hnone
    · cases hnone
  · have hle := (countP_set_near front (fun h => h.data.isNone) k { g with data := some payload }).2
    omega

theorem Waiting.flushHold {now : τ} {c : Nat} {l : List (RetHold τ)} (h : Waiting now (c + 1) l) {r : RetClient τ}
    (hl : r.hold = l) : Waiting now (c + 1) (flushHold now l r).hold ∧
      (r.load ≤ retOutqSlots + 1 → Kept r (RetClient.flushHold now l r)) ∧
      (RetClient.flushHold now l r).load ≤ r.load := by
  obtain ⟨front, last, rfl, hlast, hlate, hcount⟩ := h
  induction front generalizing r with
  | nil => cases hcount
  | cons h rest ih =>
    have htail : r.hold.tail = rest ++ [last] := by rw [hl]; rfl
    have hrest : ∀ g ∈ rest, g.data = none → now < g.deadline := fun g hg => hlate g (mem_cons_of_mem h hg)
    rw [cons_append]
    unfold RetClient.flushHold
    cases hd : h.data with
    | some d =>
      have hcount' : c + 1 ≤ rest.countP fun h => h.data.isNone := by
        rw [countP_cons, hd] at hcount
        exact hcount
      obtain ⟨hwait, hkept, hload⟩ := @ih (r.push r.ext d).shift htail hrest hcount'
      have hstep := @takes_push_shift τ r h (rest ++ [last]) hl d hd
      refine ⟨hwait, fun hroom => ?_, hload.trans hstep.load_le⟩
      have hpush : r.outq.length < retOutqSlots := by
        -- the last slot is used as well
        unfold load at hroom
        rw [hl, cons_append, used_cons, used_append, used_cons, hlast, hd] at hroom
        simp only [isSome_some, if_true] at hroom
        omega
      exact (kept_push hpush r.ext d).trans (hkept ((hstep.load_le).trans hroom))
    | none =>
      have hwaits := hlate h mem_cons_self hd
      rw [if_neg (not_le.2 hwaits), hl]
      exact ⟨⟨h :: rest, last, rfl, hlast, hlate, hcount⟩, fun _ => Kept.refl r, le_rfl⟩

theorem Waiting.nackRetry (h : Waiting now c r.hold) (cfg : RetConfig τ) :
    Waiting now c (nackRetry cfg r now).hold := by
  obtain ⟨front, last, heq, hlast, hlate, hcount⟩ := h
  have hdata : ∀ h : RetHold τ, (if nackDue now h then { h with nextNack := cfg.nextNack now } else h).data = h.data ∧
      (if nackDue now h then { h with nextNack := cfg.nextNack now } else h).deadline = h.deadline := by
    intro h
    split
    · exact ⟨rfl, rfl⟩
    · exact ⟨rfl, rfl⟩
  refine ⟨front.map _, _, by rw [RetClient.nackRetry, heq, map_append, map_singleton], ?_, ?_, ?_⟩
  · rw [(hdata last).1]
    exact hlast
  · intro h hh hnone
    obtain ⟨g, hg, rfl⟩ := mem_map.1 hh
    rw [(hdata g).1] at hnone
    rw [(hdata g).2]
    exact hlate g hg hnone
  · rw [countP_map]
    refine hcount.trans (le_of_eq (countP_congr fun h _ => ?_))
    simp only [Function.comp_apply, (hdata h).1]

theorem Waiting.flushReady (h : Waiting now (c + 1) r.hold) (cfg : RetConfig τ) :
    Waiting now (c + 1) (flushReady cfg r now).hold ∧
      (r.load ≤ retOutqSlots + 1 → Kept r (RetClient.flushReady cfg r now)) ∧
      (RetClient.flushReady cfg r now).load ≤ r.load := by
  obtain ⟨hwait, hkept, hload⟩ := h.flushHold rfl
  unfold RetClient.flushReady
  dsimp only
  split
  · have hretry := takes_nackRetry cfg (RetClient.flushHold now r.hold r) now
    exact ⟨hwait.nackRetry cfg, fun hroom => (hkept hroom).trans (Kept.of_eq rfl rfl), hretry.load_le.trans hload⟩
  · exact ⟨hwait, hkept, hload⟩

theorem Waiting.onRepairSocket (h : Waiting now (c + 2) r.hold)
    (cfg : RetConfig τ) (hroom : r.load ≤ retOutqSlots) (d : Option (List UInt8)) :
    Waiting now (c + 1) (onRepairSocket cfg r now d).hold ∧ Kept r (RetClient.onRepairSocket cfg r now d) ∧
      (RetClient.onRepairSocket cfg r now d).load ≤ r.load + 1 := by
  rcases onRepairSocket_cases cfg r now d with heq | ⟨k, g, osn, payload, -, hslot, hfree, heq⟩
  · rw [heq]
    exact ⟨h.mono (by omega), Kept.refl r, Nat.le_succ _⟩
  rw [heq]
  have hfill : Takes 1 r { r.arrive osn payload with hold := r.hold.set k { g with data := some payload } } :=
    Takes.of_eq rfl rfl (countP_set_near _ _ _ _).1
  have hload := hfill.load_le
  obtain ⟨hwait, hkept, hflush⟩ := Waiting.flushReady (r := { r.arrive osn payload with
    hold := r.hold.set k { g with data := some payload } }) (h.set hslot hfree payload) cfg
  exact ⟨hwait, (Kept.of_eq rfl rfl).trans (hkept (by omega)), hflush.trans hload⟩

/-! ## A window that is full behind its head -/

theorem hold_flushReady_of_ready
    (hready : ∀ h ∈ r.hold, h.data = none → h.deadline ≤ now) : (flushReady cfg r now).hold = [] := by
  have hnil := hold_flushHold_of_ready now r.hold rfl hready
  rw [flushReady_eq_of_nil hnil]
  exact hnil

/-- The packet of the main socket gave up a window that was full behind its head and opened a gap of `a` packets. -/
structure Opened (cfg : RetConfig τ) (r : RetClient τ) (d : Option (List UInt8)) (now : τ) (a : Nat)
    (r' : RetClient τ) : Prop where
  pos : 0 < a
  ahead : r.mainAhead d = some (retGapMax + a)
  late : now < cfg.deadline now
  ssrc : r'.ssrc = r.ssrc
  expected : r'.expectedSeq = (r.expectedSeq + retGapMax) % 65536
  window : ∃ front last, r'.hold = front ++ [last] ∧ last.data.isSome = true ∧ front.length = a ∧
    ∀ h ∈ front, h.data = none ∧ now < h.deadline

variable {rest : List (RetHold τ)}

theorem flushReady_gap (cfg : RetConfig τ) (hhold : r.hold = g :: rest) (hfree : g.data = none)
    (hlate : now < g.deadline) : flushReady cfg r now = nackRetry cfg r now := by
  have hstop : flushHold now r.hold r = r := by
    rw [hhold]
    unfold flushHold
    rw [hfree]
    exact if_neg (not_le.2 hlate)
  unfold flushReady
  rw [hstop]
  exact if_pos (by rw [hhold]; exact cons_ne_nil _ _)

variable {a : Nat}

theorem flushReady_arm (cfg : RetConfig τ) {last : RetHold τ} (hpos : 0 < a) (hlate : now < cfg.deadline now)
    (hhold : r.hold = replicate a (arm cfg now) ++ [last]) : flushReady cfg r now = nackRetry cfg r now := by
  obtain ⟨n, rfl⟩ := Nat.exists_eq_add_one_of_ne_zero (Nat.pos_iff_ne_zero.1 hpos)
  exact flushReady_gap cfg hhold rfl hlate

variable {d : List UInt8}

theorem window_nackRetry (cfg : RetConfig τ) (hlate : now < cfg.deadline now)
    (hhold : r.hold = replicate a (arm cfg now) ++ [⟨some d, now, now⟩]) :
    ∃ front last, (nackRetry cfg r now).hold = front ++ [last] ∧ last.data.isSome = true ∧ front.length = a ∧
      ∀ h ∈ front, h.data = none ∧ now < h.deadline := by
  refine ⟨(replicate a (arm cfg now)).map _, _, by rw [nackRetry, hhold, map_append, map_singleton],
    ?_, by rw [length_map, length_replicate], ?_⟩
  · split
    · rfl
    · rfl
  intro h hh
  obtain ⟨g, hg, rfl⟩ := mem_map.1 hh
  rw [eq_of_mem_replicate hg]
  split
  · exact ⟨rfl, hlate⟩
  · exact ⟨rfl, hlate⟩

/-- What can come of a datagram of the main socket: nothing new, an empty window, or a new gap. -/
theorem onMain_full (cfg : RetConfig τ) (hlen : r.hold.length = retGapMax)
    (hused : used r.hold + 1 = retGapMax) (hq : r.outq = []) (hseq : r.expectedSeq < 65536) (now : τ)
    (d : Option (List UInt8)) : (onMain cfg r now d).load + 1 ≤ retGapMax ∨ (onMain cfg r now d).hold = [] ∨
      ∃ a, Opened cfg r d now a (onMain cfg r now d) := by
  have hload : r.load + 1 = retGapMax := by rw [load, hq, length_nil, zero_add, hused]
  have hne : r.hold ≠ [] := ne_nil_of_length_pos (by rw [hlen]; decide)
  cases d with
  | none => exact .inl hload.le
  | some p =>
    unfold onMain
    dsimp only
    split
    · exact .inl hload.le
    rename_i h hp
    split
    · rename_i hpay
      unfold onOriginal
      by_cases hssrc : r.haveSsrc = false ∨ h.ssrc ≠ r.ssrc
      · -- another SSRC: the packet is the expected one
        refine .inr (.inl (hold_flushReady_of_ready ?_))
        have hnil : ((r.trackSsrc h).arrive h.seq (p.drop h.payloadOff)).hold = [] := by
          rw [trackSsrc, if_pos hssrc, if_pos hne]
          exact hold_abandonHold r.hold r rfl
        have hexp : ((r.trackSsrc h).arrive h.seq (p.drop h.payloadOff)).expectedSeq = h.seq := by
          show (r.trackSsrc h).expectedSeq = h.seq
          rw [trackSsrc, if_pos hssrc]
        rw [handleOriginalSeq, if_pos hnil]
        rcases handleInOrder_cases cfg hnil h.seq (p.drop h.payloadOff) now with hnone | ⟨a, ha, hpos, -⟩
        · rw [hnone]
          exact nofun
        · rw [hexp] at ha
          omega
      · have htrack : r.trackSsrc h = r := if_neg hssrc
        rw [htrack]
        generalize hr2 : r.arrive h.seq (p.drop h.payloadOff) = r2
        have hhold2 : r2.hold = r.hold := by rw [← hr2]; rfl
        have hexp2 : r2.expectedSeq = r.expectedSeq := by rw [← hr2]; rfl
        have hssrc2 : r2.ssrc = r.ssrc := by rw [← hr2]; rfl
        have hload2 : r2.load = r.load := by rw [← hr2]; rfl
        have hkeep : (flushReady cfg r2 now).load + 1 ≤ retGapMax := by
          have hle := (takes_flushReady cfg r2 now).load_le
          omega
        rw [handleOriginalSeq, if_neg (by rw [hhold2]; exact hne)]
        split
        · exact .inl hkeep
        split
        · rename_i hin g hslot
          split
          · rename_i hfits
            -- the missing head
            refine .inr (.inl (hold_flushReady_of_ready ?_))
            intro x hx hnone
            exact absurd hnone (data_of_set_free (by rw [hhold2, hused, hlen]) hslot hfits.1 _ x hx)
          · exact .inl hkeep
        rename_i hin hout
        have hge : retGapMax ≤ (h.seq + 65536 - r2.expectedSeq) % 65536 := by
          have hnone := getElem?_eq_none_iff.1 hout
          rwa [hhold2, hlen] at hnone
        rw [if_neg (fun hboth => absurd hboth.1 (not_lt.2 hge))]
        have hnil : r2.abandonGap.hold = [] := hold_abandonHold r2.hold r2 rfl
        obtain ⟨hssrc3, hexp3⟩ := abandonHold_track r2.hold r2 (by rw [hexp2]; exact hseq)
        rcases handleInOrder_cases cfg hnil h.seq (p.drop h.payloadOff) now with
          hnone | ⟨a, ha, hpos, hlt, hcap, heq⟩
        · refine .inr (.inl (hold_flushReady_of_ready ?_))
          rw [hnone]
          exact nofun
        rw [heq]
        by_cases hlate : now < cfg.deadline now
        · rw [flushReady_arm cfg hpos hlate rfl]
          refine .inr (.inr ⟨a, hpos, ?_, hlate, hssrc3.trans hssrc2, ?_, window_nackRetry cfg hlate rfl⟩)
          · have hsame : r.haveSsrc = true ∧ h.ssrc = r.ssrc := by simpa using hssrc
            simp only [mainAhead, hp, bind_some]
            rw [if_pos ⟨hpay, hcap, hsame⟩]
            rw [abandonGap, hexp3, hexp2, hhold2, hlen] at ha
            congr 1
            omega
          · show (abandonHold r2.hold r2).expectedSeq = _
            rw [hexp3, hexp2, hhold2, hlen]
        · refine .inr (.inl (hold_flushReady_of_ready ?_))
          intro x hx hnone
          rcases mem_append.1 hx with hx | hx
          · rw [eq_of_mem_replicate hx]
            exact not_lt.1 hlate
          · rw [mem_singleton.1 hx] at hnone
            cases hnone
    · exact .inl hload.le

/-! ## Room in every call -/

/-- The packet of the main socket is two ahead of the window it gives up, and the two missing ones come as repairs
in the same call. -/
def repairsBehindWindow (cfg : RetConfig τ) (r : RetClient τ) (i : RetInput τ) : Bool :=
  decide (r.hold.length = retGapMax) && decide (used r.hold + 1 = retGapMax) &&
    decide (r.mainAhead i.main = some (retGapMax + 2)) && decide (i.now < cfg.deadline i.now) &&
    ((decide (repairAhead cfg r i.uni = some retGapMax) && decide (repairAhead cfg r i.repair = some (retGapMax + 1))) ||
      (decide (repairAhead cfg r i.uni = some (retGapMax + 1)) && decide (repairAhead cfg r i.repair = some retGapMax)))

/-- There are slots for all packets that are queued, held or at the sockets; or the queue is empty, and not three
packets more come to a window that is full behind its head. -/
def hasRoom (cfg : RetConfig τ) (r : RetClient τ) (i : RetInput τ) : Bool :=
  decide (r.load + datagrams i ≤ retOutqSlots) || (r.outq.isEmpty && !repairsBehindWindow cfg r i)

theorem onRepairSocket_of_nil (hnil : r.hold = []) (now : τ)
    (d : Option (List UInt8)) : onRepairSocket cfg r now d = r := by
  rcases onRepairSocket_cases cfg r now d with heq | ⟨k, h, osn, payload, -, hslot, -⟩
  · exact heq
  · rw [hnil] at hslot
    cases hslot

theorem takes_repairs (cfg : RetConfig τ) (r : RetClient τ) (i : RetInput τ) : Takes 2 r
    (flushReady cfg (onRepairSocket cfg (onRepairSocket cfg r i.now i.uni) i.now i.repair) i.now) := by
  have hone : ∀ d : Option (List UInt8), (if d.isSome then 1 else 0) ≤ 1 := by
    intro d
    split
    · exact le_rfl
    · exact Nat.zero_le 1
  exact (((takes_onRepairSocket cfg r i.now i.uni).mono (hone i.uni)).trans
    ((takes_onRepairSocket cfg _ i.now i.repair).mono (hone i.repair))).trans (takes_flushReady cfg _ i.now)

theorem kept_repair_last (cfg : RetConfig τ) (hload : r.load + 1 ≤ retOutqSlots) (now : τ)
    (d : Option (List UInt8)) : Kept r (flushReady cfg (onRepairSocket cfg r now d) now) := by
  have htakes := (takes_onRepairSocket cfg r now d).trans (takes_flushReady cfg _ now)
  refine htakes.kept ?_
  split <;> omega

variable {m u : RetHold τ}

/-- The repairs of a call behind a gap of one packet: the first one closes it. -/
theorem kept_repairs_one (cfg : RetConfig τ) (hhold : r.hold = [m, u])
    (hu : u.data.isSome = true) (hload : r.load + 1 ≤ retOutqSlots) (i : RetInput τ) :
    Kept r (flushReady cfg (onRepairSocket cfg (onRepairSocket cfg r i.now i.uni) i.now i.repair) i.now) := by
  rcases onRepairSocket_cases cfg r i.now i.uni with heq | ⟨k, g, osn, payload, -, hslot, hfree, heq⟩
  · rw [heq]
    exact kept_repair_last cfg hload i.now i.repair
  have hk : k = 0 := by
    rw [hhold] at hslot
    match k, hslot with
    | 0, _ => rfl
    | 1, hslot =>
      rw [← some.inj hslot] at hfree
      rw [hfree] at hu
      cases hu
  have htakes := takes_onRepairSocket cfg r i.now i.uni
  have hclosed : (onRepairSocket cfg r i.now i.uni).hold = [] := by
    rw [heq]
    refine hold_flushReady_of_ready fun x hx hnone => ?_
    rw [hk] at hx
    rw [hhold] at hx
    rcases mem_cons.1 hx with rfl | hx
    · cases hnone
    · rw [mem_singleton.1 hx] at hnone
      rw [hnone] at hu
      cases hu
  have hroom : (if i.uni.isSome then 1 else 0) ≤ 1 := by split <;> omega
  have hle := htakes.load_le
  rw [onRepairSocket_of_nil hclosed]
  exact (htakes.kept (by omega)).trans ((takes_flushReady cfg _ i.now).kept (by omega))

theorem flushReady_head (cfg : RetConfig τ) {f : RetHold τ} (hhold : r.hold = f :: g :: rest) (hd : f.data = some d) (hfree : g.data = none)
    (hlate : now < g.deadline) : flushReady cfg r now = nackRetry cfg (r.push r.ext d).shift now := by
  have hnext : (r.push r.ext d).shift.hold = g :: rest := by
    show r.hold.tail = _
    rw [hhold]
    rfl
  have hstop : flushHold now r.hold r = (r.push r.ext d).shift := by
    rw [hhold]
    unfold flushHold
    rw [hd]
    unfold flushHold
    rw [hfree]
    exact if_neg (not_le.2 hlate)
  unfold flushReady
  rw [hstop]
  exact if_pos (by rw [hnext]; exact cons_ne_nil _ _)

theorem data_nackRetry (cfg : RetConfig τ) (r : RetClient τ) (now : τ) :
    (nackRetry cfg r now).hold.map RetHold.data = r.hold.map RetHold.data := by
  rw [nackRetry, List.map_map]
  refine map_congr_left fun h _ => ?_
  simp only [Function.comp_apply]
  split <;> rfl

/-- The repairs of a call behind a gap of two packets, when they do not fill it. -/
theorem kept_repairs_two (cfg : RetConfig τ) {n : RetHold τ} (hhold : r.hold = [m, n, u])
    (hu : u.data.isSome = true) (hload : r.load + 1 ≤ retOutqSlots) (hseq : r.expectedSeq < 65536) (i : RetInput τ)
    (hm : m.data = none ∧ i.now < m.deadline) (hn : n.data = none ∧ i.now < n.deadline)
    (hfirst : repairAhead cfg r i.uni = some 0 → repairAhead cfg r i.repair ≠ some 1)
    (hsecond : repairAhead cfg r i.uni = some 1 → repairAhead cfg r i.repair ≠ some 0) :
    Kept r (flushReady cfg (onRepairSocket cfg (onRepairSocket cfg r i.now i.uni) i.now i.repair) i.now) := by
  obtain ⟨b, hb⟩ := isSome_iff_exists.1 hu
  have hdata : r.hold.map RetHold.data = [none, none, some b] := by
    rw [hhold, map_cons, map_cons, map_singleton, hm.1, hn.1, hb]
  rcases onRepairSocket_cases cfg r i.now i.uni with heq | ⟨k, g, osn, payload, hahead, hslot, hfree, heq⟩
  · rw [heq]
    exact kept_repair_last cfg hload i.now i.repair
  have htakes := takes_onRepairSocket cfg r i.now i.uni
  have hroom : (if i.uni.isSome then 1 else 0) ≤ 1 := by split <;> omega
  have hle := htakes.load_le
  -- the other repair does not fill the slot that is left
  have hnone : onRepairSocket cfg (onRepairSocket cfg r i.now i.uni) i.now i.repair =
      onRepairSocket cfg r i.now i.uni := by
    rcases onRepairSocket_cases cfg (onRepairSocket cfg r i.now i.uni) i.now i.repair with
      hsame | ⟨k', g', osn', payload', hahead', hslot', hfree', -⟩
    · exact hsame
    have hcell := data_of_slot hslot hfree
    have hcell' := data_of_slot hslot' hfree'
    rw [hdata] at hcell
    match k, hcell with
    | 0, _ =>
      have hset : r.hold.set 0 { g with data := some payload } = { g with data := some payload } :: n :: [u] := by
        rw [hhold]
        rfl
      rw [flushReady_head cfg hset rfl hn.1 hn.2] at heq
      have hleft : (onRepairSocket cfg r i.now i.uni).hold.map RetHold.data = [none, some b] := by
        rw [heq, data_nackRetry]
        show (r.hold.set 0 _).tail.map RetHold.data = _
        rw [hset, tail_cons, map_cons, map_singleton, hn.1, hb]
      rw [hleft] at hcell'
      match k', hcell' with
      | 0, _ =>
        have hmoved := repairAhead_moved hseq (by rw [heq]; rfl) (by rw [heq]; rfl) (by decide) hahead'
        exact absurd hmoved (hfirst hahead)
      | k' + 1, hcell' => exact absurd hcell' (by simp [getElem?_cons])
    | 1, _ =>
      have hset : r.hold.set 1 { g with data := some payload } = m :: [{ g with data := some payload }, u] := by
        rw [hhold]
        rfl
      rw [flushReady_gap cfg hset hm.1 hm.2] at heq
      have hleft : (onRepairSocket cfg r i.now i.uni).hold.map RetHold.data = [none, some payload, some b] := by
        rw [heq, data_nackRetry]
        rw [hset, map_cons, map_cons, map_singleton, hm.1, hb]
      rw [hleft] at hcell'
      match k', hcell' with
      | 0, _ =>
        have hmoved := repairAhead_moved (n := 0) hseq (by rw [heq]; rfl)
          (by rw [heq]; exact (Nat.mod_eq_of_lt hseq).symm) (by decide) hahead'
        exact absurd hmoved (hsecond hahead)
      | k' + 1, hcell' => exact absurd hcell' (by cases k' <;> simp [getElem?_cons])
    | k + 2, hcell => exact absurd hcell (by simp [getElem?_cons])
  rw [hnone]
  exact (htakes.kept (by omega)).trans ((takes_flushReady cfg _ i.now).kept (by omega))

/-- The repairs of a call behind a gap of more than two packets, which they cannot close. -/
theorem kept_repairs_many (cfg : RetConfig τ) (i : RetInput τ) (hwait : Waiting i.now 3 r.hold)
    (hload : r.load + 1 ≤ retOutqSlots) :
    Kept r (flushReady cfg (onRepairSocket cfg (onRepairSocket cfg r i.now i.uni) i.now i.repair) i.now) := by
  obtain ⟨hwait1, hkept1, hload1⟩ := hwait.onRepairSocket cfg (by omega) i.uni
  obtain ⟨hwait2, hkept2, hload2⟩ := hwait1.onRepairSocket cfg (by omega) i.repair
  obtain ⟨-, hkept3, -⟩ := hwait2.flushReady cfg
  exact (hkept1.trans hkept2).trans (hkept3 (by omega))

theorem kept_process (cfg : RetConfig τ) (hr : Framed r) (hseq : r.expectedSeq < 65536)
    (i : RetInput τ) (hroom : hasRoom cfg r i = true) : Kept r (process cfg r i) := by
  by_cases hfits : r.load + datagrams i ≤ retOutqSlots
  · exact (takes_process cfg r i).kept hfits
  rw [hasRoom, decide_eq_false hfits, Bool.false_or, Bool.and_eq_true, List.isEmpty_iff, Bool.not_eq_true'] at hroom
  obtain ⟨hq, hno⟩ := hroom
  have hthree : datagrams i ≤ 3 := by
    unfold datagrams
    split <;> split <;> split <;> omega
  have hloadeq : r.load = used r.hold := by rw [load, hq, length_nil, zero_add]
  have hlenle := hr.length_le
  have hne : r.hold ≠ [] := by
    intro hnil
    rw [hloadeq, hnil, used_nil] at hfits
    exact hfits ((zero_add _).trans_le (hthree.trans (by decide)))
  have hlt := hr.used_lt hne
  have hmax : retOutqSlots = retGapMax + 1 := rfl
  have hused : used r.hold + 1 = retGapMax := by omega
  have hlen : r.hold.length = retGapMax := by omega
  have hmain := takes_onMain cfg r i.now i.main
  have hone : (if i.main.isSome then 1 else 0) ≤ 1 := by split <;> omega
  have hmainload := hmain.load_le
  have hmainkept := hmain.kept (by omega)
  refine hmainkept.trans ?_
  show Kept (onMain cfg r i.now i.main)
    (flushReady cfg (onRepairSocket cfg (onRepairSocket cfg (onMain cfg r i.now i.main) i.now i.uni) i.now i.repair)
      i.now)
  rcases onMain_full cfg hlen hused hq hseq i.now i.main with hsmall | hnil | ⟨a, ho⟩
  · exact (takes_repairs cfg _ i).kept (by omega)
  · rw [onRepairSocket_of_nil hnil, onRepairSocket_of_nil hnil]
    exact (takes_flushReady cfg _ i.now).kept (by omega)
  · obtain ⟨front, last, hwindow, hlast, hfront, hmissing⟩ := ho.window
    match front, hfront with
    | [], h => exact absurd h (ne_of_lt ho.pos)
    | [m], _ => exact kept_repairs_one cfg hwindow hlast (by omega) i
    | [m, n], htwo =>
      have hexp : (onMain cfg r i.now i.main).expectedSeq < 65536 := by
        rw [ho.expected]
        exact Nat.mod_lt _ (by decide)
      have hmoved : ∀ {k : Nat} {d : Option (List UInt8)}, k ≤ 1 →
          repairAhead cfg (onMain cfg r i.now i.main) d = some k → repairAhead cfg r d = some (k + retGapMax) :=
        fun hk h => repairAhead_moved hseq ho.ssrc ho.expected (by unfold retGapMax; omega) h
      have hahead : r.mainAhead i.main = some (retGapMax + 2) := by
        rw [ho.ahead, ← htwo]
        rfl
      rw [repairsBehindWindow, decide_eq_true hlen, decide_eq_true hused, decide_eq_true hahead,
        decide_eq_true ho.late] at hno
      refine kept_repairs_two cfg hwindow hlast (by omega) hexp i (hmissing m mem_cons_self)
        (hmissing n (mem_cons_of_mem m mem_cons_self)) ?_ ?_
      · intro huni hrep
        have h0 := hmoved (Nat.zero_le 1) huni
        have h1 := hmoved le_rfl hrep
        rw [h0, h1] at hno
        cases hno
      · intro huni hrep
        have h1 := hmoved le_rfl huni
        have h0 := hmoved (Nat.zero_le 1) hrep
        rw [h0, h1] at hno
        cases hno
    | m :: n :: o :: rest, hmany =>
      refine kept_repairs_many cfg i ⟨m :: n :: o :: rest, last, hwindow, hlast, fun h hh _ => (hmissing h hh).2, ?_⟩
        (by omega)
      have hall : (m :: n :: o :: rest).countP (fun h => h.data.isNone) = (m :: n :: o :: rest).length :=
        countP_eq_length.2 fun h hh => by rw [(hmissing h hh).1]; rfl
      rw [hall, length_cons, length_cons, length_cons]
      omega

/-! ## Runs -/

/-- A call that goes on to the sockets has room there. -/
def readHasRoom (cfg : RetConfig τ) (r : RetClient τ) (cap : Nat) (i : RetInput τ) : Bool :=
  (got (r.pop cap).1).isSome || i.fails || hasRoom cfg (r.pop cap).2 i

/-- `outq_push` never finds the queue full in this call. -/
def NeverFull (cfg : RetConfig τ) (r : RetClient τ) (cap : Nat) (i : RetInput τ) : Prop :=
  got (r.pop cap).1 = none → i.fails = false → Kept (r.pop cap).2 (process cfg (r.pop cap).2 i)

theorem not_neverFull {cap : Nat} {i : RetInput τ}
    (hempty : (got (r.pop cap).1).isNone = true) (hfails : i.fails = false)
    (hlost : (process cfg (r.pop cap).2 i).pushed.length + (r.pop cap).2.outq.length ≠
      (r.pop cap).2.pushed.length + (process cfg (r.pop cap).2 i).outq.length) : ¬NeverFull cfg r cap i := by
  intro h
  exact hlost (h (isNone_iff_eq_none.1 hempty) hfails).length_eq

/-- Every call of the run has room. -/
def allRoom (cfg : RetConfig τ) : RetClient τ → List (Nat × RetInput τ) → Bool
  | _, [] => true
  | r, c :: rest => readHasRoom cfg r c.1 c.2 && allRoom cfg (read cfg r c.1 c.2).2 rest

theorem allRoom_run (cfg : RetConfig τ) (before : List (Nat × RetInput τ)) {rest : List (Nat × RetInput τ)}
    (h : allRoom cfg {} (before ++ rest) = true) : allRoom cfg (run cfg before).1 rest = true := by
  induction before using reverseRecOn generalizing rest with
  | nil => exact h
  | append_singleton before c ih =>
    rw [append_assoc] at h
    have hstep := ih h
    rw [singleton_append, allRoom, Bool.and_eq_true] at hstep
    rw [run_concat]
    exact hstep.2

/-- In a run whose calls have room, no packet is dropped by `outq_push`. -/
theorem run_neverFull (cfg : RetConfig τ) (reads : List (Nat × RetInput τ)) (hroom : allRoom cfg {} reads = true) :
    ∀ before c after, reads = before ++ c :: after → NeverFull cfg (run cfg before).1 c.1 c.2 := by
  rintro before c after rfl hempty hfails
  have hrest := allRoom_run cfg before hroom
  rw [allRoom, Bool.and_eq_true] at hrest
  have hfits := hrest.1
  rw [readHasRoom, hempty, hfails, isSome_none, Bool.false_or, Bool.false_or] at hfits
  refine kept_process cfg ((run_framed cfg before).pop c.1) ?_ c.2 hfits
  have hlt : (run cfg before).1.expectedSeq < 65536 := by
    rw [(run_ordered cfg before).seq_eq]
    exact Nat.mod_lt _ (by decide)
  rcases pop_cases (run cfg before).1 c.1 with ⟨-, hp⟩ | ⟨q, rest, -, hp⟩
  · rw [hp]
    exact hlt
  · rw [hp]
    exact hlt

end Clock

/-- A packet of the main socket with the SSRC 7. -/
def originalPacket (seq : UInt8) : List UInt8 := [0x80, 33, 0, seq, 0, 0, 0, 0, 0, 0, 0, 7, seq]

/-- A repair of the payload type 97. -/
def repairDatagram (seq : UInt8) : List UInt8 := [0x80, 97, 0, 0, 0, 0, 0, 0, 0, 0, 0, 7, 0, seq, seq]

/-- A gap of one packet that is closed by its repair. -/
theorem run_neverFull_repaired : NeverFull (⟨97, (· + 100), (· + 10)⟩ : RetConfig Nat)
      (run ⟨97, (· + 100), (· + 10)⟩ [(1500, ⟨false, some (originalPacket 0), none, none, 0⟩),
        (1500, ⟨false, some (originalPacket 2), none, none, 1⟩)]).1
      1500 ⟨false, none, some (repairDatagram 1), none, 5⟩ :=
  run_neverFull ⟨97, (· + 100), (· + 10)⟩ [(1500, ⟨false, some (originalPacket 0), none, none, 0⟩),
    (1500, ⟨false, some (originalPacket 2), none, none, 1⟩), (1500, ⟨false, none, some (repairDatagram 1), none, 5⟩),
    (1500, ⟨false, none, none, none, 5⟩)] (by decide +kernel) [_, _] (1500, ⟨false, none, some (repairDatagram 1), none, 5⟩)
    [_] rfl

/-- Packet 1 is missing and 2 to 32 are held. Packet 35 comes, with 33 and 34 as repairs: 34 packets are pushed to
the empty queue. -/
theorem run_full : ¬∀ (cfg : RetConfig Nat) (before : List (Nat × RetInput Nat)) (c : Nat × RetInput Nat),
    NeverFull cfg (run cfg before).1 c.1 c.2 := by
  intro hall
  let cfg : RetConfig Nat := ⟨97, (· + 100), (· + 10)⟩
  let before : List (Nat × RetInput Nat) := (0 :: (range 31).map (· + 2)).map fun seq =>
    (1500, ⟨false, some (originalPacket (UInt8.ofNat seq)), none, none, 0⟩)
  let last : RetInput Nat :=
    ⟨false, some (originalPacket 35), some (repairDatagram 33), some (repairDatagram 34), 1⟩
  exact not_neverFull (by decide +kernel) (by decide +kernel) (by decide +kernel) (hall cfg before (1500, last))

end RetClient

end DvbIpiTools.Fccret
