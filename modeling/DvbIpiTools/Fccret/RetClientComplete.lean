import DvbIpiTools.Fccret.RetClient

set_option autoImplicit false

/-! # The retransmission client loses nothing that arrives in time

A source sends packet `n` with payload `src n`. As long as every arrival is near the expected number and no
missing packet reaches its deadline at the head of the window, the caller gets the source's packets one after
the other. -/

namespace DvbIpiTools.Fccret

open BeUtil Demux List Option Nat

namespace RetClient

variable {τ : Type}

/-- The packet with number `n` is less than the window ahead, and not so far behind that its sequence number
means another one. -/
def FitsWindow (r : RetClient τ) (n : Nat) : Prop := r.ext ≤ n + 32768 ∧ n < r.ext + retGapMax

/-- Packets the source sends fit in a slot and are not empty. -/
def SmallSource (src : Nat → List UInt8) : Prop := ∀ n, src n ≠ [] ∧ (src n).length ≤ retHoldCap

/-- The packets of the source from `first` on, as they are queued. -/
def sent (src : Nat → List UInt8) (epoch first n : Nat) : List RetQueued :=
  (range' first n).map fun k => ⟨epoch, k, src k⟩

theorem sent_succ (src : Nat → List UInt8) (epoch first n : Nat) :
    sent src epoch first (n + 1) = sent src epoch first n ++ [⟨epoch, first + n, src (first + n)⟩] := by
  rw [sent, range'_concat, map_append, one_mul]
  rfl

/-- The packet with this number is behind the expected one, or held. -/
def Has (r : RetClient τ) (e : Int) : Prop :=
  e < r.ext ∨ ∃ k h, r.hold[k]? = some h ∧ h.data ≠ none ∧ e = ((r.ext + k : Nat) : Int)

theorem Has.behind {r : RetClient τ} {n : Nat} (h : n < r.ext) : r.Has n := .inl (Int.ofNat_lt.2 h)

theorem Has.held {r : RetClient τ} {n : Nat} (h : r.ext ≤ n) {g : RetHold τ} (hk : r.hold[n - r.ext]? = some g)
    (hd : g.data ≠ none) : r.Has n :=
  .inr ⟨n - r.ext, g, hk, hd, by rw [Nat.add_sub_cancel' h]⟩

/-- The client has got everything from packet `first` on up to the expected one; `out` is what the caller has
got of it. -/
structure Active (src : Nat → List UInt8) (ssrc first : Nat) (out : List RetQueued) (r : RetClient τ) : Prop where
  seq_eq : r.expectedSeq = r.ext % 65536
  haveSsrc_eq : r.haveSsrc = true
  ssrc_eq : r.ssrc = ssrc
  first_le : first ≤ r.ext
  all : out ++ r.outq = sent src r.epoch first (r.ext - first)
  hold_src : ∀ {k h d}, r.hold[k]? = some h → h.data = some d → d = src (r.ext + k)
  hold_le : r.hold.length ≤ retGapMax
  room : r.outq.length + r.hold.length ≤ retOutqSlots
  first_arrived : ∀ a ∈ r.arrived.head?, a.ext = first
  has : ∀ a ∈ r.arrived, r.Has a.ext

namespace Active

variable {src : Nat → List UInt8} {ssrc first : Nat} {out : List RetQueued} {r : RetClient τ} (hr : Active src ssrc first out r)

include hr

/-- The expected packet is queued, where the queue has room for it and for the rest of the window. -/
theorem queue (hsrc : SmallSource src) {hold : List (RetHold τ)}
    (hhold : ∀ {k h d}, hold[k]? = some h → h.data = some d → d = src (r.ext + 1 + k))
    (hle : hold.length ≤ retGapMax) (hroom : r.outq.length + 1 + hold.length ≤ retOutqSlots)
    (htail : ∀ {k h}, r.hold[k + 1]? = some h → hold[k]? = some h) :
    Active src ssrc first out { r.push r.ext (src r.ext) with
      hold := hold
      expectedSeq := (r.expectedSeq + 1) % 65536
      ext := r.ext + 1 } := by
  have htake : (src r.ext).take retOutqCap = src r.ext := take_of_length_le ((hsrc r.ext).2.trans (by decide))
  have houtq : (r.push r.ext (src r.ext)).outq = r.outq ++ [⟨r.epoch, r.ext, src r.ext⟩] := by
    show (if _ then _ else _) = _
    rw [if_neg (by omega), htake]
  have hfirst := hr.first_le
  have hseq := hr.seq_eq
  refine ⟨?_, hr.haveSsrc_eq, hr.ssrc_eq, le_succ_of_le hfirst, ?_, hhold, hle, ?_, hr.first_arrived, ?_⟩
  · show (r.expectedSeq + 1) % 65536 = (r.ext + 1) % 65536
    omega
  · show out ++ (r.push r.ext (src r.ext)).outq = sent src r.epoch first (r.ext + 1 - first)
    rw [houtq, ← append_assoc, hr.all, show r.ext + 1 - first = (r.ext - first) + 1 by omega, sent_succ,
      show first + (r.ext - first) = r.ext by omega]
  · rw [houtq, length_append, length_singleton]
    exact hroom
  · intro a ha
    rcases hr.has a ha with hlt | ⟨k, h, hk, hd, he⟩
    · refine .inl ?_
      show a.ext < ((r.ext + 1 : Nat) : Int)
      omega
    cases k with
    | zero =>
      refine .inl ?_
      show a.ext < ((r.ext + 1 : Nat) : Int)
      omega
    | succ k =>
      refine .inr ⟨k, h, htail hk, hd, ?_⟩
      show a.ext = ((r.ext + 1 + k : Nat) : Int)
      rw [he]
      congr 1
      omega

theorem push_shift (hsrc : SmallSource src) {h : RetHold τ} {rest : List (RetHold τ)} (hhold : r.hold = h :: rest)
    {d : List UInt8} (hd : h.data = some d) : Active src ssrc first out (r.push r.ext d).shift := by
  obtain rfl : d = src r.ext := hr.hold_src (k := 0) (by rw [hhold]; rfl) hd
  have hroom := hr.room
  have hle := hr.hold_le
  rw [hhold, length_cons] at hroom hle
  have htail : (r.push r.ext (src r.ext)).hold.tail = rest := by
    show r.hold.tail = rest
    rw [hhold]
    rfl
  rw [RetClient.shift, htail]
  refine hr.queue hsrc ?_ (by omega) (by omega) (fun hk => by rw [hhold] at hk; exact hk)
  intro k g d hk hgd
  have hsucc := hr.hold_src (k := k + 1) (by rw [hhold]; exact hk) hgd
  rw [hsucc]
  congr 1
  omega

theorem in_order (hsrc : SmallSource src) (hq : r.outq = []) (hhold : r.hold = []) :
    Active src ssrc first out { r.push r.ext (src r.ext) with
      expectedSeq := (r.expectedSeq + 1) % 65536
      ext := r.ext + 1 } := by
  have hqueue : Active src ssrc first out { r.push r.ext (src r.ext) with
      hold := r.hold
      expectedSeq := (r.expectedSeq + 1) % 65536
      ext := r.ext + 1 } := by
    refine hr.queue hsrc ?_ hr.hold_le ?_ (fun hk => by rw [hhold] at hk; exact absurd hk (by simp))
    · intro k g d hk
      rw [hhold] at hk
      cases hk
    · simp only [hq, hhold, length_nil]
      decide
  exact hqueue

theorem fill {k : Nat} {h : RetHold τ} (hslot : r.hold[k]? = some h) :
    Active src ssrc first out { r with hold := r.hold.set k { h with data := some (src (r.ext + k)) } } := by
  refine { hr with hold_src := ?_, hold_le := ?_, room := ?_, has := ?_ }
  · intro i g d hi hd
    rw [getElem?_set] at hi
    split at hi
    · rename_i hki
      subst hki
      rw [if_pos (List.getElem?_eq_some_iff.1 hslot).1] at hi
      rw [← some.inj hi] at hd
      exact (some.inj hd).symm
    · exact hr.hold_src hi hd
  · rw [length_set]
    exact hr.hold_le
  · rw [length_set]
    exact hr.room
  · intro a ha
    rcases hr.has a ha with hlt | ⟨i, g, hi, hd, he⟩
    · exact .inl hlt
    · by_cases hki : k = i
      · subst hki
        have hk := (List.getElem?_eq_some_iff.1 hslot).1
        exact .inr ⟨k, _, getElem?_set_self hk, by simp, he⟩
      · exact .inr ⟨i, g, by rw [getElem?_set_ne hki]; exact hi, hd, he⟩

theorem grow (hq : r.outq = []) (missing : Nat) (m : RetHold τ) (hm : m.data = none) (now : τ)
    (nacks : List (Nat × Nat)) (hlt : r.hold.length + missing < retGapMax) : Active src ssrc first out { r with
      hold := r.hold ++ replicate missing m ++ [⟨some (src (r.ext + (r.hold.length + missing))), now, now⟩]
      nacks := nacks } := by
  have hlen : (r.hold ++ replicate missing m ++
      [RetHold.mk (some (src (r.ext + (r.hold.length + missing)))) now now]).length = r.hold.length + missing + 1 := by
    simp [add_assoc]
  refine { hr with hold_src := ?_, hold_le := ?_, room := ?_, has := ?_ }
  · intro k g d hk hd
    rw [append_assoc, getElem?_append] at hk
    split at hk
    · exact hr.hold_src hk hd
    rename_i hge
    rw [getElem?_append] at hk
    split at hk
    · rename_i hrep
      rw [getElem?_eq_getElem hrep, getElem_replicate] at hk
      rw [← some.inj hk, hm] at hd
      cases hd
    rename_i hrep
    rw [length_replicate] at hrep hk
    rw [getElem?_singleton] at hk
    split at hk
    · rename_i h0
      rw [← some.inj hk] at hd
      rw [← some.inj hd, show r.hold.length + missing = k by omega]
    · cases hk
  · rw [hlen]
    omega
  · rw [hlen, hq]
    simp only [length_nil, retOutqSlots, retGapMax] at hlt ⊢
    omega
  · intro a ha
    rcases hr.has a ha with hlt | ⟨k, h, hk, hd, he⟩
    · exact .inl hlt
    · have hlt := (List.getElem?_eq_some_iff.1 hk).1
      refine .inr ⟨k, h, ?_, hd, he⟩
      rw [append_assoc, getElem?_append_left hlt]
      exact hk

omit hr

/-- The packet has arrived. -/
abbrev note (r : RetClient τ) (n seq : Nat) (payload : List UInt8) : RetClient τ :=
  { r with arrived := r.arrived ++ [⟨r.epoch, seq, n, payload.take retOutqCap⟩] }

variable {n seq : Nat} (hr : Active src ssrc first out r)

include hr

/-- The number of a packet near the expected one is recovered from its sequence number. -/
theorem arrive_eq (hseq : seq = n % 65536) (hfits : r.FitsWindow n)
    (payload : List UInt8) : r.arrive seq payload = note r n seq payload := by
  have hnear : r.nearest seq = n := by
    have hexp := hr.seq_eq
    obtain ⟨hlow, hhigh⟩ := hfits
    simp only [retGapMax] at hhigh
    simp only [nearest]
    split <;> omega
  rw [arrive, hnear]

theorem noted (seq : Nat) (payload : List UInt8) (hfirst : r.arrived = [] → n = first) (hhas : r.Has n) :
    Active src ssrc first out (note r n seq payload) := by
  refine { hr with first_arrived := ?_, has := ?_ }
  · intro a ha
    change a ∈ (r.arrived ++ _).head? at ha
    cases harr : r.arrived with
    | nil =>
      rw [harr, nil_append, head?_cons, mem_some_iff] at ha
      rw [← ha, hfirst harr]
    | cons b bs =>
      rw [harr, cons_append, head?_cons] at ha
      exact hr.first_arrived a (by rw [harr]; exact ha)
  · intro a ha
    rcases mem_append.1 ha with ha | ha
    · exact hr.has a ha
    · rw [mem_singleton.1 ha]
      exact hhas

theorem ahead_eq (hseq : seq = n % 65536) (hfits : r.FitsWindow n) :
    (n < r.ext ∧ (seq + 65536 - r.expectedSeq) % 65536 ≥ 32768) ∨
      (r.ext ≤ n ∧ (seq + 65536 - r.expectedSeq) % 65536 = n - r.ext) := by
  have hexp := hr.seq_eq
  obtain ⟨hlow, hhigh⟩ := hfits
  simp only [retGapMax] at hhigh
  omega

omit hr

variable (hr : Active src ssrc first out r)

include hr

theorem handleInOrder (hsrc : SmallSource src) (cfg : RetConfig τ) (hq : r.outq = []) (hhold : r.hold = [])
    (hseq : seq = n % 65536) (hfits : r.FitsWindow n) (hfirst : r.arrived = [] → n = first) (now : τ) :
    Active src ssrc first out (handleInOrder cfg (note r n seq (src n)) seq (src n) now) := by
  unfold RetClient.handleInOrder
  rcases hr.ahead_eq hseq hfits with ⟨hlt, hstale⟩ | ⟨hle, hahead⟩
  · rw [if_pos hstale]
    exact hr.noted seq (src n) hfirst (Has.behind hlt)
  have hhigh := hfits.2
  have hsmall := (hsrc n).2
  simp only [retGapMax] at hhigh
  rw [hahead, if_neg (by omega)]
  by_cases hzero : n - r.ext = 0
  · obtain rfl : n = r.ext := by omega
    rw [if_pos hzero]
    exact (hr.in_order hsrc hq hhold).noted seq (src r.ext) hfirst (Has.behind (lt_succ_self r.ext))
  rw [if_neg hzero, if_neg (by simp only [retGapMax]; omega)]
  have hgrow := hr.grow hq (n - r.ext) (arm cfg now) rfl now (r.nacks ++ [(r.expectedSeq, n - r.ext)])
    (by simp only [hhold, length_nil, retGapMax]; omega)
  simp only [hhold, nil_append, length_nil, zero_add, show r.ext + (n - r.ext) = n by omega] at hgrow
  refine hgrow.noted seq (src n) hfirst (Has.held (g := ⟨some (src n), now, now⟩) hle ?_ (by simp))
  simp

theorem handleOriginalSeq (hsrc : SmallSource src) (cfg : RetConfig τ) (hq : r.outq = [])
    (hseq : seq = n % 65536) (hfits : r.FitsWindow n) (hfirst : r.arrived = [] → n = first) (now : τ) :
    Active src ssrc first out (handleOriginalSeq cfg (note r n seq (src n)) seq (src n) now) := by
  unfold RetClient.handleOriginalSeq
  by_cases hhold : r.hold = []
  · rw [if_pos (show (note r n seq (src n)).hold = [] from hhold)]
    exact hr.handleInOrder hsrc cfg hq hhold hseq hfits hfirst now
  rw [if_neg (show ¬(note r n seq (src n)).hold = [] from hhold)]
  rcases hr.ahead_eq hseq hfits with ⟨hlt, hstale⟩ | ⟨hle, hahead⟩
  · rw [if_pos hstale]
    exact hr.noted seq (src n) hfirst (Has.behind hlt)
  have hhigh := hfits.2
  have hsmall := (hsrc n).2
  simp only [retGapMax] at hhigh
  rw [hahead, if_neg (by omega)]
  cases hslot : r.hold[n - r.ext]? with
  | some h =>
    have hk := (List.getElem?_eq_some_iff.1 hslot).1
    dsimp only
    split
    · have hfill := hr.fill hslot
      rw [show r.ext + (n - r.ext) = n by omega] at hfill
      exact hfill.noted seq (src n) hfirst
        (Has.held hle (getElem?_set_self hk) (some_ne_none (src n)))
    · rename_i hnot
      refine hr.noted seq (src n) hfirst (Has.held hle hslot ?_)
      exact fun hdata => hnot ⟨hdata, hsmall⟩
  | none =>
    have hlen : r.hold.length ≤ n - r.ext := getElem?_eq_none_iff.1 hslot
    rw [if_pos ⟨by simp only [retGapMax]; omega, hsmall⟩]
    have hgrow := hr.grow hq (n - r.ext - r.hold.length) (arm cfg now) rfl now
      (if n - r.ext > r.hold.length then r.nacks ++ [((r.expectedSeq + r.hold.length) % 65536,
        n - r.ext - r.hold.length)] else r.nacks) (by simp only [retGapMax]; omega)
    rw [show r.ext + (r.hold.length + (n - r.ext - r.hold.length)) = n by omega] at hgrow
    refine hgrow.noted seq (src n) hfirst (Has.held (g := ⟨some (src n), now, now⟩) hle ?_ (by simp))
    rw [getElem?_append_right (by simp; omega)]
    simp only [length_append, length_replicate]
    rw [show n - r.ext - (r.hold.length + (n - r.ext - r.hold.length)) = 0 by omega]
    rfl

theorem queued {q : RetQueued} (hq : q ∈ r.outq) : q.data = src q.ext := by
  have hmem : q ∈ sent src r.epoch first (r.ext - first) := by
    rw [← hr.all]
    exact mem_append_right _ hq
  obtain ⟨k, -, rfl⟩ := mem_map.1 hmem
  rfl

/-- The caller gets what is taken from the queue, and nothing only when the queue is empty. -/
theorem pop (hsrc : SmallSource src) {cap : Nat} (hcap : retHoldCap ≤ cap) :
    Active src ssrc first (out ++ (got (r.pop cap).1).toList.map Prod.fst) (r.pop cap).2 ∧
      (got (r.pop cap).1 = none → (r.pop cap).2.outq = []) ∧ ∀ x ∈ got (r.pop cap).1, x.2 = src x.1.ext := by
  rcases pop_cases r cap with ⟨hq, hp⟩ | ⟨q, rest, hq, hp⟩
  · rw [hp]
    simpa [got] using ⟨hr, hq⟩
  have hdata : q.data = src q.ext := hr.queued (by rw [hq]; exact mem_cons_self)
  have htake : q.data.take cap = src q.ext := by rw [hdata, take_of_length_le ((hsrc q.ext).2.trans hcap)]
  have hgot : got (some (q, q.data.take cap)) = some (q, src q.ext) := by
    rw [htake]
    exact if_neg (hsrc q.ext).1
  rw [hp]
  rw [hgot]
  refine ⟨?_, by simp, by simp⟩
  have hroom := hr.room
  rw [hq, length_cons] at hroom
  refine { hr with all := ?_, room := ?_ }
  · have hall := hr.all
    rw [hq] at hall
    simpa using hall
  · show rest.length + r.hold.length ≤ retOutqSlots
    omega

omit hr

end Active

/-- No packet has come yet. -/
def Idle (out : List RetQueued) (r : RetClient τ) : Prop :=
  r.haveSsrc = false ∧ r.hold = [] ∧ r.outq = [] ∧ r.arrived = [] ∧ out = []

theorem Idle.trackSsrc {out : List RetQueued} {r : RetClient τ} (hr : Idle out r) (src : Nat → List UInt8)
    (h : RtpHdr) (hseq : h.seq < 65536) : Active src h.ssrc h.seq out (r.trackSsrc h) := by
  obtain ⟨hssrc, hhold, hq, harr, rfl⟩ := hr
  have htrack : r.trackSsrc h =
      { r with haveSsrc := true, ssrc := h.ssrc, expectedSeq := h.seq, ext := h.seq, epoch := r.epoch + 1 } := by
    rw [RetClient.trackSsrc, if_pos (.inl hssrc), if_neg (not_not.2 hhold)]
  rw [htrack]
  refine ⟨(mod_eq_of_lt hseq).symm, rfl, rfl, le_rfl, ?_, ?_, ?_, ?_, ?_, ?_⟩
  · rw [nil_append, Nat.sub_self]
    exact hq
  · intro k g d hk
    rw [hhold] at hk
    cases hk
  · rw [hhold]
    exact zero_le _
  · rw [hhold, hq]
    exact zero_le _
  · intro a ha
    rw [harr] at ha
    cases ha
  · intro a ha
    rw [harr] at ha
    cases ha

/-! ## Packets given up -/

/-- What is never taken back: packets given up, and that something has arrived. -/
structure Later (r r' : RetClient τ) : Prop where
  lost_le : r.lost ≤ r'.lost
  arrived_ne : r.arrived ≠ [] → r'.arrived ≠ []

namespace Later

theorem refl (r : RetClient τ) : Later r r := ⟨le_rfl, id⟩

theorem trans {r r' r'' : RetClient τ} (h : Later r r') (h' : Later r' r'') : Later r r'' :=
  ⟨h.lost_le.trans h'.lost_le, fun hne => h'.arrived_ne (h.arrived_ne hne)⟩

theorem hold {r r' : RetClient τ} (h : Later r r') (hold : List (RetHold τ)) : Later r { r' with hold := hold } :=
  ⟨h.lost_le, h.arrived_ne⟩

theorem arrive (r : RetClient τ) (seq : Nat) (payload : List UInt8) : Later r (r.arrive seq payload) := by
  refine ⟨le_rfl, fun _ => ?_⟩
  simp [RetClient.arrive]

theorem abandonHold (l : List (RetHold τ)) (r : RetClient τ) : Later r (abandonHold l r) := by
  induction l generalizing r with
  | nil => exact refl r
  | cons h rest ih =>
    unfold RetClient.abandonHold
    cases h.data with
    | some d =>
      have hstep : Later r (r.push r.ext d).shift := ⟨le_rfl, id⟩
      exact hstep.trans (ih _)
    | none =>
      have hstep : Later r r.shift := ⟨le_rfl, id⟩
      exact hstep.trans (ih _)

theorem trackSsrc (r : RetClient τ) (h : RtpHdr) : Later r (r.trackSsrc h) := by
  unfold RetClient.trackSsrc
  split
  · split
    · have habandon := abandonHold r.hold r
      exact ⟨habandon.lost_le, habandon.arrived_ne⟩
    · exact ⟨le_rfl, id⟩
  · exact refl r

theorem handleInOrder (cfg : RetConfig τ) (r : RetClient τ) (seq : Nat) (payload : List UInt8) (now : τ) :
    Later r (handleInOrder cfg r seq payload now) := by
  unfold RetClient.handleInOrder
  dsimp only
  split
  · exact refl r
  · split
    · exact ⟨le_rfl, id⟩
    · split <;> exact ⟨le_rfl, id⟩

theorem handleOriginalSeq (cfg : RetConfig τ) (r : RetClient τ) (seq : Nat) (payload : List UInt8) (now : τ) :
    Later r (handleOriginalSeq cfg r seq payload now) := by
  unfold RetClient.handleOriginalSeq
  dsimp only
  split
  · exact handleInOrder cfg r seq payload now
  split
  · exact refl r
  · split
    · split <;> exact ⟨le_rfl, id⟩
    · split
      · exact ⟨le_rfl, id⟩
      · exact (abandonHold r.hold r).trans (handleInOrder cfg r.abandonGap seq payload now)

theorem pop (r : RetClient τ) (cap : Nat) : Later r (r.pop cap).2 := by
  rcases pop_cases r cap with ⟨-, hp⟩ | ⟨q, rest, -, hp⟩
  · rw [hp]
    exact refl r
  · rw [hp]
    exact ⟨le_rfl, id⟩

end Later

/-- The client waits for the first packet, or has got everything from the first one on. -/
def Following (src : Nat → List UInt8) (ssrc : Nat) (out : List RetQueued) (r : RetClient τ) : Prop :=
  Idle out r ∨ ∃ first, Active src ssrc first out r ∧ r.arrived ≠ []

theorem Following.pop {src : Nat → List UInt8} {ssrc : Nat} {out : List RetQueued} {r : RetClient τ}
    (hr : Following src ssrc out r) (hsrc : SmallSource src) {cap : Nat} (hcap : retHoldCap ≤ cap) :
    Following src ssrc (out ++ (got (r.pop cap).1).toList.map Prod.fst) (r.pop cap).2 ∧
      (got (r.pop cap).1 = none → (r.pop cap).2.outq = []) ∧ ∀ x ∈ got (r.pop cap).1, x.2 = src x.1.ext := by
  rcases hr with hidle | ⟨first, hr, hne⟩
  · have hp : r.pop cap = (none, r) := by
      obtain ⟨-, -, hq, -⟩ := hidle
      rw [RetClient.pop, hq]
    rw [hp]
    simpa [got] using ⟨.inl hidle, hidle.2.2.1⟩
  · obtain ⟨hact, hrest⟩ := hr.pop hsrc hcap
    exact ⟨.inr ⟨first, hact, (Later.pop r cap).arrived_ne hne⟩, hrest⟩

section Clock

variable [LinearOrder τ]

namespace Later

theorem flushHold (now : τ) (l : List (RetHold τ)) (r : RetClient τ) : Later r (flushHold now l r) := by
  induction l generalizing r with
  | nil => exact refl r
  | cons h rest ih =>
    unfold RetClient.flushHold
    split
    · rename_i d _
      have hstep : Later r (r.push r.ext d).shift := ⟨le_rfl, id⟩
      exact hstep.trans (ih _)
    · split
      · have hstep : Later r { r.shift with lost := r.lost + 1 } := ⟨le_succ _, id⟩
        exact hstep.trans (ih _)
      · exact refl r

theorem flushReady (cfg : RetConfig τ) (r : RetClient τ) (now : τ) : Later r (flushReady cfg r now) := by
  have hflush := flushHold now r.hold r
  unfold RetClient.flushReady
  dsimp only
  split
  · exact ⟨hflush.lost_le, hflush.arrived_ne⟩
  · exact hflush

theorem onOriginal (cfg : RetConfig τ) (r : RetClient τ) (h : RtpHdr) (payload : List UInt8) (now : τ) :
    Later r (onOriginal cfg r h payload now) := by
  exact (((trackSsrc r h).trans (arrive _ h.seq payload)).trans (handleOriginalSeq cfg _ h.seq payload now)).trans
    (flushReady cfg _ now)

theorem onMain (cfg : RetConfig τ) (r : RetClient τ) (now : τ) (d : Option (List UInt8)) :
    Later r (onMain cfg r now d) := by
  unfold RetClient.onMain
  split
  · exact refl r
  · split
    · exact refl r
    · split
      · exact onOriginal cfg r _ _ now
      · exact refl r

theorem onRepair (cfg : RetConfig τ) (r : RetClient τ) (p : List UInt8) (now : τ) : Later r (onRepair cfg r p now) := by
  unfold RetClient.onRepair
  split
  · exact refl r
  split
  · exact refl r
  rename_i rx _
  split
  · exact refl r
  split
  · exact refl r
  dsimp only
  split
  · exact refl r
  · split
    · exact refl r
    · split
      · exact refl r
      · exact ((arrive r rx.osn rx.payload).hold _).trans (flushReady cfg _ now)

theorem onRepairSocket (cfg : RetConfig τ) (r : RetClient τ) (now : τ) (d : Option (List UInt8)) :
    Later r (onRepairSocket cfg r now d) := by
  unfold RetClient.onRepairSocket
  split
  · exact refl r
  · split
    · exact refl r
    · exact onRepair cfg r _ now

theorem read (cfg : RetConfig τ) (r : RetClient τ) (cap : Nat) (i : RetInput τ) : Later r (read cfg r cap i).2 := by
  unfold RetClient.read
  split
  · exact pop r cap
  · split
    · exact pop r cap
    · exact ((((((pop r cap).trans (onMain cfg _ i.now i.main)).trans (onRepairSocket cfg _ i.now i.uni)).trans
        (onRepairSocket cfg _ i.now i.repair)).trans (flushReady cfg _ i.now))).trans (pop _ cap)

end Later

/-! ## Calls -/

namespace Active

variable {src : Nat → List UInt8} {ssrc first : Nat} {out : List RetQueued} {r : RetClient τ}

theorem flushHold (hr : Active src ssrc first out r) (hsrc : SmallSource src) (now : τ) {l : List (RetHold τ)}
    (hl : r.hold = l) (hlost : (flushHold now l r).lost = r.lost) :
    Active src ssrc first out (flushHold now l r) := by
  induction l generalizing r with
  | nil => exact hr
  | cons h rest ih =>
    unfold RetClient.flushHold at hlost ⊢
    have htail : r.hold.tail = rest := by
      rw [hl]
      rfl
    cases hd : h.data with
    | some d =>
      rw [hd] at hlost
      exact ih (hr.push_shift hsrc hl hd) htail hlost
    | none =>
      rw [hd] at hlost
      by_cases hdue : h.deadline ≤ now
      · rw [if_pos hdue] at hlost
        have hle := (Later.flushHold now rest { r.shift with lost := r.lost + 1 }).lost_le
        rw [hlost] at hle
        exact absurd hle (not_succ_le_self r.lost)
      · rw [if_neg hdue]
        exact hr

theorem nackRetry (hr : Active src ssrc first out r) (cfg : RetConfig τ) (now : τ) :
    Active src ssrc first out (nackRetry cfg r now) := by
  refine { hr with hold_src := ?_, hold_le := ?_, room := ?_, has := ?_ }
  · intro k h d hk hd
    simp only [RetClient.nackRetry, getElem?_map, map_eq_some_iff] at hk
    obtain ⟨h', hk', rfl⟩ := hk
    refine hr.hold_src hk' ?_
    split at hd <;> exact hd
  · simpa [RetClient.nackRetry] using hr.hold_le
  · simpa [RetClient.nackRetry] using hr.room
  · intro a ha
    rcases hr.has a ha with hlt | ⟨k, h, hk, hd, he⟩
    · exact .inl hlt
    · refine .inr ⟨k, if nackDue now h then { h with nextNack := cfg.nextNack now } else h, ?_, ?_, he⟩
      · simp only [RetClient.nackRetry, getElem?_map, hk, map_some]
      · split <;> exact hd

theorem flushReady (hr : Active src ssrc first out r) (hsrc : SmallSource src) (cfg : RetConfig τ) (now : τ)
    (hlost : (flushReady cfg r now).lost = r.lost) : Active src ssrc first out (flushReady cfg r now) := by
  have hflush : (RetClient.flushHold now r.hold r).lost = r.lost := by
    rw [← hlost]
    unfold RetClient.flushReady
    dsimp only
    split <;> rfl
  unfold RetClient.flushReady
  dsimp only
  split
  · exact (hr.flushHold hsrc now rfl hflush).nackRetry cfg now
  · exact hr.flushHold hsrc now rfl hflush

end Active

/-- A main socket datagram: a packet of the source with this SSRC, near the expected one; the first one fixes the
numbers. -/
def GenuineMain (src : Nat → List UInt8) (ssrc : Nat) (r : RetClient τ) (d : Option (List UInt8)) : Prop :=
  ∀ b ∈ d, ∀ h, rtpParseHeader b = some h → h.payloadOff < b.length →
    h.ssrc = ssrc ∧ ∃ n, h.seq = n % 65536 ∧ b.drop h.payloadOff = src n ∧
      (r.haveSsrc = false → n < 65536) ∧ (r.haveSsrc = true → r.FitsWindow n)

/-- A repair socket datagram: what it repairs with this SSRC is a packet of the source, near the expected one. -/
def GenuineRepair (cfg : RetConfig τ) (src : Nat → List UInt8) (ssrc : Nat) (r : RetClient τ)
    (d : Option (List UInt8)) : Prop := ∀ b ∈ d, ∀ rx, rtxParse b cfg.rtxPt = some rx → rx.ssrc = ssrc →
    ∃ n, rx.osn = n % 65536 ∧ rx.payload = src n ∧ (r.haveSsrc = true → r.FitsWindow n)

namespace Active

variable {src : Nat → List UInt8} {ssrc first : Nat} {out : List RetQueued} {r : RetClient τ}

theorem original (hr : Active src ssrc first out r) (hsrc : SmallSource src) (cfg : RetConfig τ) (hq : r.outq = [])
    {n seq : Nat} (hseq : seq = n % 65536) (hfits : r.FitsWindow n) (hfirst : r.arrived = [] → n = first) (now : τ)
    (hlost : (RetClient.flushReady cfg (RetClient.handleOriginalSeq cfg (r.arrive seq (src n)) seq (src n) now) now).lost = r.lost) :
    Active src ssrc first out
      (RetClient.flushReady cfg (RetClient.handleOriginalSeq cfg (r.arrive seq (src n)) seq (src n) now) now) := by
  have hhandle := hr.handleOriginalSeq hsrc cfg hq hseq hfits hfirst now
  rw [← hr.arrive_eq hseq hfits (src n)] at hhandle
  refine hhandle.flushReady hsrc cfg now (le_antisymm ?_ (Later.flushReady cfg _ now).lost_le)
  rw [hlost]
  exact ((Later.arrive r seq (src n)).trans (Later.handleOriginalSeq cfg _ seq (src n) now)).lost_le

theorem onRepair (hr : Active src ssrc first out r) (hsrc : SmallSource src) (cfg : RetConfig τ) {p : List UInt8}
    (hne : r.arrived ≠ []) (hgen : GenuineRepair cfg src ssrc r (some p)) (now : τ)
    (hlost : (onRepair cfg r p now).lost = r.lost) : Active src ssrc first out (onRepair cfg r p now) := by
  unfold RetClient.onRepair at hlost ⊢
  split at hlost
  · rename_i hidle
    rw [if_pos hidle]
    exact hr
  rename_i hbusy
  rw [if_neg hbusy]
  cases hrx : rtxParse p cfg.rtxPt with
  | none => exact hr
  | some rx =>
    rw [hrx] at hlost
    dsimp only at hlost ⊢
    by_cases hssrc : rx.ssrc ≠ r.ssrc
    · rw [if_pos hssrc]
      exact hr
    rw [if_neg hssrc] at hlost ⊢
    obtain ⟨n, hosn, hpay, hfits⟩ := hgen p rfl rx hrx ((not_not.1 hssrc).trans hr.ssrc_eq)
    have hfit := hfits hr.haveSsrc_eq
    have hsmall : ¬rx.payload.length > retHoldCap := by
      rw [hpay]
      exact not_lt.2 (hsrc n).2
    rw [if_neg hsmall] at hlost ⊢
    rcases hr.ahead_eq hosn hfit with ⟨-, hstale⟩ | ⟨hle, hahead⟩
    · rw [if_pos hstale]
      exact hr
    have hhigh := hfit.2
    simp only [retGapMax] at hhigh
    rw [hahead, if_neg (by omega)] at hlost ⊢
    cases hslot : r.hold[n - r.ext]? with
    | none => exact hr
    | some h =>
      rw [hslot] at hlost
      dsimp only at hlost ⊢
      by_cases hdata : h.data ≠ none
      · rw [if_pos hdata]
        exact hr
      rw [if_neg hdata] at hlost ⊢
      have hk := (List.getElem?_eq_some_iff.1 hslot).1
      have hfill := hr.fill hslot
      rw [show r.ext + (n - r.ext) = n by omega] at hfill
      have hnoted := hfill.noted rx.osn (src n) (fun h => absurd h hne)
        (Has.held hle (getElem?_set_self hk) (some_ne_none (src n)))
      rw [hr.arrive_eq hosn hfit rx.payload, hpay] at hlost ⊢
      exact hnoted.flushReady hsrc cfg now hlost

end Active

/-- The datagrams a call handles are those of the source. -/
def GenuineRead (cfg : RetConfig τ) (src : Nat → List UInt8) (ssrc : Nat) (r : RetClient τ) (cap : Nat)
    (i : RetInput τ) : Prop := got (r.pop cap).1 = none → i.fails = false →
    GenuineMain src ssrc (r.pop cap).2 i.main ∧
    GenuineRepair cfg src ssrc (onMain cfg (r.pop cap).2 i.now i.main) i.uni ∧
    GenuineRepair cfg src ssrc (onRepairSocket cfg (onMain cfg (r.pop cap).2 i.now i.main) i.now i.uni) i.repair

namespace Following

variable {src : Nat → List UInt8} {ssrc : Nat} {out : List RetQueued} {r : RetClient τ} (hr : Following src ssrc out r)

include hr

theorem flushReady (hsrc : SmallSource src) (cfg : RetConfig τ) (now : τ)
    (hlost : (flushReady cfg r now).lost = r.lost) : Following src ssrc out (flushReady cfg r now) := by
  rcases hr with hidle | ⟨first, hr, hne⟩
  · have hsame : RetClient.flushReady cfg r now = r := by
      obtain ⟨-, hhold, -⟩ := hidle
      simp [RetClient.flushReady, hhold, RetClient.flushHold]
    rw [hsame]
    exact .inl hidle
  · exact .inr ⟨first, hr.flushReady hsrc cfg now hlost, (Later.flushReady cfg r now).arrived_ne hne⟩

theorem onMain (hsrc : SmallSource src) (cfg : RetConfig τ) (hq : r.outq = []) (now : τ)
    {d : Option (List UInt8)} (hgen : GenuineMain src ssrc r d) (hlost : (onMain cfg r now d).lost = r.lost) :
    Following src ssrc out (onMain cfg r now d) := by
  unfold RetClient.onMain at hlost ⊢
  cases d with
  | none => exact hr
  | some b =>
    dsimp only at hlost ⊢
    cases hp : rtpParseHeader b with
    | none => exact hr
    | some h =>
      rw [hp] at hlost
      dsimp only at hlost ⊢
      by_cases hlen : b.length > h.payloadOff
      · rw [if_pos hlen] at hlost ⊢
        obtain ⟨rfl, n, hseq, hpay, hstart, hfits⟩ := hgen b rfl h hp hlen
        rw [hpay] at hlost ⊢
        have hne : (RetClient.onOriginal cfg r h (src n) now).arrived ≠ [] := by
          refine ((Later.handleOriginalSeq cfg _ h.seq (src n) now).trans
            (Later.flushReady cfg _ now)).arrived_ne ?_
          simp [RetClient.arrive]
        rcases hr with hidle | ⟨first, hr, hne'⟩
        · -- the first packet is `n` itself
          have hsmall := hstart hidle.1
          obtain rfl : h.seq = n := hseq.trans (mod_eq_of_lt hsmall)
          have htrack := hidle.trackSsrc src h hsmall
          have hext : (r.trackSsrc h).ext = h.seq := by rw [RetClient.trackSsrc, if_pos (.inl hidle.1)]
          have hq' : (r.trackSsrc h).outq = [] := by
            rw [RetClient.trackSsrc, if_pos (.inl hidle.1), if_neg (not_not.2 hidle.2.1)]
            exact hq
          have hsame : (r.trackSsrc h).lost = r.lost := by
            rw [RetClient.trackSsrc, if_pos (.inl hidle.1), if_neg (not_not.2 hidle.2.1)]
          have hwindow : (r.trackSsrc h).FitsWindow h.seq := by
            refine ⟨?_, ?_⟩ <;> rw [hext]
            · omega
            · simp only [retGapMax]
              omega
          exact .inr ⟨h.seq, htrack.original hsrc cfg hq' hseq hwindow (fun _ => rfl) now
            (hlost.trans hsame.symm), hne⟩
        · have hsame : r.trackSsrc h = r := by
            rw [RetClient.trackSsrc, if_neg]
            rw [hr.haveSsrc_eq, hr.ssrc_eq]
            simp
          refine .inr ⟨first, ?_, hne⟩
          unfold RetClient.onOriginal at hlost ⊢
          rw [hsame] at hlost ⊢
          exact hr.original hsrc cfg hq hseq (hfits hr.haveSsrc_eq) (fun h => absurd h hne') now hlost
      · rw [if_neg hlen]
        exact hr

theorem onRepairSocket (hsrc : SmallSource src) (cfg : RetConfig τ) (now : τ) {d : Option (List UInt8)}
    (hgen : GenuineRepair cfg src ssrc r d) (hlost : (onRepairSocket cfg r now d).lost = r.lost) :
    Following src ssrc out (onRepairSocket cfg r now d) := by
  unfold RetClient.onRepairSocket at hlost ⊢
  cases d with
  | none => exact hr
  | some b =>
    dsimp only at hlost ⊢
    by_cases hempty : b = []
    · rw [if_pos hempty]
      exact hr
    rw [if_neg hempty] at hlost ⊢
    rcases hr with hidle | ⟨first, hr, hne⟩
    · have hsame : RetClient.onRepair cfg r b now = r := if_pos (.inl hidle.1)
      rw [hsame]
      exact .inl hidle
    · exact .inr ⟨first, hr.onRepair hsrc cfg hne hgen now hlost, (Later.onRepair cfg r b now).arrived_ne hne⟩

theorem read (hsrc : SmallSource src) (cfg : RetConfig τ) {cap : Nat} (hcap : retHoldCap ≤ cap) {i : RetInput τ}
    (hgen : GenuineRead cfg src ssrc r cap i) (hlost : (read cfg r cap i).2.lost = r.lost) :
    Following src ssrc (out ++ (read cfg r cap i).1.toList.map Prod.fst) (read cfg r cap i).2 ∧
      ∀ x ∈ (read cfg r cap i).1, x.2 = src x.1.ext := by
  obtain ⟨hpop, hempty, hbytes⟩ := hr.pop hsrc hcap
  have hle := (Later.pop r cap).lost_le
  unfold RetClient.read at hlost ⊢
  cases hgot : got (r.pop cap).1 with
  | some x =>
    rw [hgot] at hpop hbytes
    exact ⟨hpop, hbytes⟩
  | none =>
    rw [hgot] at hpop hlost
    rw [toList_none, map_nil, append_nil] at hpop
    by_cases hfails : i.fails = true
    · rw [if_pos hfails]
      exact ⟨by simpa using hpop, by simp⟩
    rw [if_neg hfails] at hlost ⊢
    obtain ⟨hmain, huni, hrepair⟩ := hgen hgot (Bool.eq_false_iff.2 hfails)
    -- the count of given up packets is the same after each of the four steps
    have hle1 := (Later.onMain cfg (r.pop cap).2 i.now i.main).lost_le
    have hle2 := (Later.onRepairSocket cfg (RetClient.onMain cfg (r.pop cap).2 i.now i.main) i.now i.uni).lost_le
    have hle3 := (Later.onRepairSocket cfg (RetClient.onRepairSocket cfg
      (RetClient.onMain cfg (r.pop cap).2 i.now i.main) i.now i.uni) i.now i.repair).lost_le
    have hle4 := (Later.flushReady cfg (RetClient.onRepairSocket cfg (RetClient.onRepairSocket cfg
      (RetClient.onMain cfg (r.pop cap).2 i.now i.main) i.now i.uni) i.now i.repair) i.now).lost_le
    have hle5 := (Later.pop (RetClient.process cfg (r.pop cap).2 i) cap).lost_le
    unfold RetClient.process at hlost hle5 ⊢
    dsimp only at hlost
    have hfollow1 := hpop.onMain hsrc cfg (hempty hgot) i.now hmain (by omega)
    have hfollow2 := hfollow1.onRepairSocket hsrc cfg i.now huni (by omega)
    have hfollow3 := hfollow2.onRepairSocket hsrc cfg i.now hrepair (by omega)
    have hfollow4 := hfollow3.flushReady hsrc cfg i.now (by omega)
    obtain ⟨hlast, -, hlastBytes⟩ := hfollow4.pop hsrc hcap
    exact ⟨hlast, hlastBytes⟩

omit hr

end Following

end Clock

end RetClient

end DvbIpiTools.Fccret
