import DvbIpiTools.Demux.Fec2022Complete

set_option autoImplicit false

/-! # From the encoder through a lossy network to the decoder's output -/

namespace DvbIpiTools.Fec2022

open BeUtil List Function

namespace Dec

/-- The window only moves on, and the early repair is not touched. -/
structure Onward (s s' : Dec) : Prop where
  rel_le : s.rel ≤ s'.rel
  early_eq : s'.early = s.early

namespace Onward

theorem refl (s : Dec) : Onward s s := ⟨le_rfl, rfl⟩

theorem trans {s s' s'' : Dec} (h : Onward s s') (h' : Onward s' s'') : Onward s s'' :=
  ⟨h.rel_le.trans h'.rel_le, h'.early_eq.trans h.early_eq⟩

theorem skipLost (s : Dec) : Onward s s.skipLost := by
  obtain ⟨rel, hle, heq⟩ := skipLost_eq s
  rw [heq]
  exact ⟨hle, rfl⟩

theorem repRecover (s : Dec) (k : Nat × Bool) : Onward s (s.repRecover k) := by
  unfold Dec.repRecover
  dsimp only
  split
  · exact ⟨le_rfl, rfl⟩
  split
  · exact refl s
  split
  · exact refl s
  · split
    · exact ⟨le_rfl, rfl⟩
    · split
      · exact ⟨le_rfl, rfl⟩
      · split <;> exact ⟨le_rfl, rfl⟩

theorem tryRecover (s : Dec) (k : Nat × Bool) : Onward s (s.tryRecover k) := by
  unfold Dec.tryRecover
  split
  · exact ⟨le_rfl, rfl⟩
  · split
    · exact repRecover s k
    · exact refl s

theorem place (s : Dec) (e : Int) (pkt : List UInt8) : Onward s (s.place e pkt) := by
  have hput : Onward s (s.putSlot e ⟨.ready, e, pkt⟩) := ⟨le_rfl, rfl⟩
  refine (hput.trans ?_).trans (skipLost _)
  unfold Dec.repNoteSource
  split
  · exact refl _
  split
  · exact refl _
  · rename_i k _ _
    have hcount : Onward (s.putSlot e ⟨.ready, e, pkt⟩) { s.putSlot e ⟨.ready, e, pkt⟩ with
        rep := update (s.putSlot e ⟨.ready, e, pkt⟩).rep k { (s.putSlot e ⟨.ready, e, pkt⟩).rep k with
          haveCount := ((s.putSlot e ⟨.ready, e, pkt⟩).rep k).haveCount + 1 } } := ⟨le_rfl, rfl⟩
    exact hcount.trans (tryRecover _ k)

theorem repair {s : Dec} (hhi : s.haveHi = true) (pkt : List UInt8) : Onward s (s.repair pkt) := by
  unfold Dec.repair
  split
  · exact refl s
  rw [if_neg (by rw [hhi]; simp)]
  split
  · exact refl s
  dsimp only
  split
  · exact refl s
  · split
    · exact refl s
    · have hput : Onward s (s.putRepair (s.extSeq (beGet pkt 12 2)) pkt) := ⟨le_rfl, rfl⟩
      exact (hput.trans (tryRecover _ _)).trans (skipLost _)

end Onward

theorem heard_frame (s : Dec) (pkt : List UInt8) : (s.heard pkt).rel = s.rel ∧ (s.heard pkt).early = s.early ∧
    (s.heard pkt).l = s.l ∧ (s.heard pkt).d = s.d ∧ (s.heard pkt).ring = s.ring ∧ (s.heard pkt).rep = s.rep := by
  unfold Dec.heard advanceHi startHi
  dsimp only
  split <;> split <;> split <;> exact ⟨rfl, rfl, rfl, rfl, rfl, rfl⟩

/-! ## Runs -/

/-- What reaches the decoder: packet `n` of the stream, a repair, or a call of `fec2022_dec_drain`. -/
inductive Event where
  | source (n : Nat)
  | repair (pkt : List UInt8)
  | drain (cap : Nat)

/-- The decoder and what was drained, with the extended numbers. -/
structure Running where
  dec : Dec
  out : List (Int × List UInt8) := []

def Running.step (src : Nat → List UInt8) (x : Running) : Event → Running
  | .source n => { x with dec := x.dec.source (src n) }
  | .repair pkt => { x with dec := x.dec.repair pkt }
  | .drain cap =>
    { dec := (x.dec.drain cap).2
      out := if (x.dec.drain cap).1 = [] then x.out else x.out ++ [(x.dec.rel, (x.dec.drain cap).1)] }

/-- The events one after the other. -/
def run (src : Nat → List UInt8) (s : Dec) (events : List Event) : Running :=
  events.foldl (Running.step src) { dec := s }

theorem run_concat (src : Nat → List UInt8) (s : Dec) (events : List Event) (e : Event) :
    run src s (events ++ [e]) = (run src s events).step src e := by
  rw [run, foldl_append]
  rfl

/-- The numbers of the source packets among the events. -/
def numbers (events : List Event) : List Nat := events.filterMap fun
  | .source n => some n
  | _ => none

/-- The highest number so far. -/
def highest (ns : List Nat) : Option Nat := ns.foldl (fun t n => some (match t with
  | none => n
  | some t => max t n)) none

/-- The state of a run, before the first source packet or after it; `rest` is what is still to come. -/
inductive Follows (src : Nat → List UInt8) (seq0 ssrc l d : Nat) (events rest : List Event) (x : Running) : Prop where
  | waiting (pkt : List UInt8) (hdec : x.dec = { l, d, early := pkt }) (hout : x.out = []) (hnone : numbers events = [])
      (hearly : pkt ≠ [] → ∀ m ∈ (numbers rest).head?, ∃ b, IsRepair src seq0 l d b pkt ∧ Near b m)
  | tracking (first top : Nat) (htrack : Tracks src seq0 ssrc l d first top x.dec) (hserved : x.dec.Served)
      (hearly : x.dec.early = []) (hfirst : (numbers events).head? = some first)
      (htop : highest (numbers events) = some top)
      (hsorted : x.out.Pairwise (fun a b => a.1 < b.1)) (hpassed : ∀ a ∈ x.out, a.1 < x.dec.rel)
      (hsame : ∀ a ∈ x.out, ∃ n, a.1 = extOf first n ∧ a.2 = src n)

/-- What the network delivers: packets of the stream and repairs that the encoder sent, in any order, any number
of times, or not at all, each at most `2^15` away from the highest source packet so far; and the decoder does
not synchronise anew. -/
structure Delivered (src : Nat → List UInt8) (seq0 l d : Nat) (sent : List (List UInt8)) (s : Dec)
    (events : List Event) : Prop where
  source_near : ∀ pre n post, events = pre ++ .source n :: post → ∀ m ∈ highest (numbers pre), Near n m
  repair_sent : ∀ pre pkt post, events = pre ++ .repair pkt :: post → pkt ∈ sent
  repair_near : ∀ pre pkt post, events = pre ++ .repair pkt :: post →
    ∀ m ∈ (highest (numbers pre)).or (numbers post).head?, ∃ b, IsRepair src seq0 l d b pkt ∧ Near b m
  steady : ∀ pre n post, events = pre ++ .source n :: post → (run src s pre).dec.resyncs (src n) = false

theorem numbers_concat (events : List Event) (e : Event) : numbers (events ++ [e]) = numbers events ++ numbers [e] :=
  filterMap_append

theorem highest_concat (ns : List Nat) (n : Nat) : highest (ns ++ [n]) = some (match highest ns with
    | none => n
    | some t => max t n) := by
  rw [highest, foldl_append]
  rfl

namespace Tracks

variable {src : Nat → List UInt8} {seq0 ssrc l d first top : Nat} {s : Dec}

theorem accept_frame (hs : Tracks src seq0 ssrc l d first top s) (hsrc : IsStream src seq0 ssrc) (hl : 0 < l)
    (hd : 0 < d) {n : Nat} (hrel : s.rel ≤ extOf first n)
    (hearly : s.early = [] ∨ (s.makeRoom (extOf first n)).slotReady (extOf first n) = false) :
    s.rel ≤ (s.accept (extOf first n) (src n)).rel ∧ (s.accept (extOf first n) (src n)).early = [] := by
  obtain ⟨hle, hstart, hend⟩ := makeRoom_rel (hs.ringN_pos hl hd) hrel
  have hmove : Tracks src seq0 ssrc l d first top (s.makeRoom (extOf first n)) := hs.move hle 0
  have honward := Onward.place (s.makeRoom (extOf first n)) (extOf first n) (src n)
  have hhi := (hmove.place hsrc hl hd hstart hend).haveHi
  unfold Dec.accept
  dsimp only
  split
  · rename_i hready
    refine ⟨hle, hearly.resolve_right fun hnot => ?_⟩
    rw [hready] at hnot
    cases hnot
  unfold Dec.takeEarly
  split
  · rename_i hnone
    exact ⟨hle.trans honward.rel_le, hnone⟩
  · have hrepair := Onward.repair (s := { Dec.place (s.makeRoom (extOf first n)) (extOf first n) (src n) with
      early := [] }) hhi (Dec.place (s.makeRoom (extOf first n)) (extOf first n) (src n)).early
    exact ⟨(hle.trans honward.rel_le).trans hrepair.rel_le, hrepair.early_eq⟩

theorem source (hs : Tracks src seq0 ssrc l d first top s) (hsrc : IsStream src seq0 ssrc) (hl : 0 < l)
    (hd : 0 < d) (hroom : l * d * 5 < 2 ^ 40) (hserved : s.Served) (hearly : s.early = []) {n : Nat} (hn : Near n top)
    (hno : s.resyncs (src n) = false) :
    Tracks src seq0 ssrc l d first (max top n) (s.source (src n)) ∧ (s.source (src n)).Served ∧
      (s.source (src n)).early = [] ∧ s.rel ≤ (s.source (src n)).rel := by
  obtain ⟨hrel, hear, hl', hd', hring, hrep⟩ := heard_frame s (src n)
  have hheard := hs.heard hsrc hn hearly
  have hserved' : (s.heard (src n)).Served := hserved.mono hl' hd' hring hrep (le_of_eq hrel.symm)
  have hnumber : s.numberOf (src n) = extOf first n := by
    rw [numberOf, startHi, if_pos hs.haveHi, hsrc.seq_eq, hs.extSeq_eq hn]
  rw [source_steady (hsrc.header_le n) (hsrc.length_le n) hno, hnumber]
  split
  · exact ⟨hheard.move le_rfl _, hserved'.mono rfl rfl rfl rfl le_rfl, hear.trans hearly, le_of_eq hrel.symm⟩
  rename_i hlate
  have hge : (s.heard (src n)).rel ≤ extOf first n := by
    rw [hrel]
    exact Int.not_lt.1 hlate
  obtain ⟨hmoved, hnone⟩ := hheard.accept_frame hsrc hl hd hge (.inl (hear.trans hearly))
  exact ⟨hheard.accept hsrc hl hd hroom hge, hheard.served_accept hsrc hl hd hroom hserved' hge, hnone,
    (le_of_eq hrel.symm).trans hmoved⟩

end Tracks

variable {pkt : List UInt8}

theorem first_source {src : Nat → List UInt8} {seq0 ssrc l d : Nat} (hsrc : IsStream src seq0 ssrc) (hl : 0 < l)
    (hd : 0 < d) (hroom : l * d * 5 < 2 ^ 40) {n : Nat}
    (hearly : pkt ≠ [] → ∃ b, IsRepair src seq0 l d b pkt ∧ Near b n)
    (hno : ({ l, d, early := pkt } : Dec).resyncs (src n) = false) :
    Tracks src seq0 ssrc l d n n (({ l, d, early := pkt } : Dec).source (src n)) ∧
      (({ l, d, early := pkt } : Dec).source (src n)).Served ∧
      (({ l, d, early := pkt } : Dec).source (src n)).early = [] := by
  have hbase : extOf n n = extBase := by
    rw [extOf]
    omega
  have hnumber : ({ l, d, early := pkt } : Dec).numberOf (src n) = extBase := by
    show extBase + int16 ((beGet (src n) 2 2 + 65536 - beGet (src n) 2 2) % 65536) = extBase
    rw [Nat.add_sub_cancel_left, Nat.mod_self]
    rfl
  have hheard : ({ l, d, early := pkt } : Dec).heard (src n) =
      { l, d, early := pkt
        haveHi := true
        hiExt := extBase
        hiSeq := beGet (src n) 2 2
        srcSsrc := beGet (src n) 8 4
        haveSsrc := true } := by
    have hext : ¬({ l, d, early := pkt, haveHi := true, hiExt := extBase, hiSeq := beGet (src n) 2 2 } : Dec).extSeq
        (beGet (src n) 2 2) > extBase := by
      have hnot : ({ l, d, early := pkt } : Dec).numberOf (src n) ≤ extBase := le_of_eq hnumber
      exact Int.not_lt.2 hnot
    show (if _ then _ else _) = _
    rw [show (({ l, d, early := pkt } : Dec).startHi (beGet (src n) 2 2)).advanceHi (beGet (src n) 2 2) =
      { l, d, early := pkt, haveHi := true, hiExt := extBase, hiSeq := beGet (src n) 2 2 } from if_neg hext]
    rfl
  have htrack : Tracks src seq0 ssrc l d n n (({ l, d, early := pkt } : Dec).heard (src n)) := by
    rw [hheard]
    refine ⟨rfl, rfl, rfl, rfl, hsrc.ssrc_eq n, le_rfl, hbase.symm, hsrc.seq_eq n, le_rfl, hearly, ?_, ?_, ?_, ?_⟩
    · intro i h
      cases h
    · intro i h
      cases h
    · intro k h
      cases h
    · intro c h
      cases h
  have hserved : (({ l, d, early := pkt } : Dec).heard (src n)).Served := by
    rw [hheard]
    intro k h
    cases h
  have hrel : (({ l, d, early := pkt } : Dec).heard (src n)).rel ≤ extOf n n := by rw [hheard, hbase]
  have hempty : ((({ l, d, early := pkt } : Dec).heard (src n)).makeRoom (extOf n n)).slotReady (extOf n n) = false := by
    rw [hheard]
    rfl
  have hsource : ({ l, d, early := pkt } : Dec).source (src n) =
      (({ l, d, early := pkt } : Dec).heard (src n)).accept (extOf n n) (src n) := by
    rw [source_steady (hsrc.header_le n) (hsrc.length_le n) hno, hnumber, if_neg (lt_irrefl _), hbase]
  rw [hsource]
  exact ⟨htrack.accept hsrc hl hd hroom hrel, htrack.served_accept hsrc hl hd hroom hserved hrel,
    (htrack.accept_frame hsrc hl hd hrel (.inr hempty)).2⟩

/-! ## The whole run -/

namespace Follows

variable {src : Nat → List UInt8} {seq0 ssrc l d : Nat} {events rest : List Event} {x : Running}

theorem source {n : Nat} (hx : Follows src seq0 ssrc l d events (.source n :: rest) x) (hsrc : IsStream src seq0 ssrc)
    (hl : 0 < l) (hd : 0 < d) (hroom : l * d * 5 < 2 ^ 40) (hnear : ∀ m ∈ highest (numbers events), Near n m)
    (hno : x.dec.resyncs (src n) = false) :
    Follows src seq0 ssrc l d (events ++ [.source n]) rest (x.step src (.source n)) := by
  have hnumbers : numbers (events ++ [.source n]) = numbers events ++ [n] := numbers_concat events (.source n)
  cases hx with
  | waiting pkt hdec hout hnone hearly =>
    rw [hdec] at hno
    obtain ⟨htrack, hserved, hempty⟩ := first_source hsrc hl hd hroom (fun hne => hearly hne n rfl) hno
    rw [← hdec] at htrack hserved hempty
    rw [hnone, nil_append] at hnumbers
    have hout' : (x.step src (.source n)).out = [] := hout
    refine Follows.tracking n n htrack hserved hempty ?_ ?_ ?_ ?_ ?_
    · rw [hnumbers]
      rfl
    · rw [hnumbers]
      rfl
    · rw [hout']
      exact Pairwise.nil
    · rw [hout']
      exact nofun
    · rw [hout']
      exact nofun
  | tracking first top htrack hserved hearly hfirst htop hsorted hpassed hsame =>
    obtain ⟨htrack', hserved', hearly', hrel⟩ := htrack.source hsrc hl hd hroom hserved hearly (hnear top htop) hno
    refine Follows.tracking first (max top n) htrack' hserved' hearly' ?_ ?_ hsorted ?_ hsame
    · rw [hnumbers, head?_append, hfirst]
      rfl
    · rw [hnumbers, highest_concat, htop]
    · exact fun a ha => lt_of_lt_of_le (hpassed a ha) hrel

theorem repair (hx : Follows src seq0 ssrc l d events (.repair pkt :: rest) x) (hsrc : IsStream src seq0 ssrc)
    (hl : 0 < l) (hd : 0 < d) (hroom : l * d * 5 < 2 ^ 40)
    (hnear : ∀ m ∈ (highest (numbers events)).or (numbers rest).head?, ∃ b, IsRepair src seq0 l d b pkt ∧ Near b m) :
    Follows src seq0 ssrc l d (events ++ [.repair pkt]) rest (x.step src (.repair pkt)) := by
  have hnumbers : numbers (events ++ [.repair pkt]) = numbers events := by
    rw [numbers_concat]
    exact append_nil _
  cases hx with
  | waiting early hdec hout hnone hearly =>
    have hrest : numbers (.repair pkt :: rest) = numbers rest := rfl
    by_cases hbad : pkt.length > maxRepair ∨ pkt.length < 28 ∨ byteAt pkt 0 >>> 6 ≠ 2
    · have hsame : x.dec.repair pkt = x.dec := if_pos hbad
      refine Follows.waiting early (hsame.trans hdec) hout (hnumbers.trans hnone) ?_
      rw [hrest] at hearly
      exact hearly
    have hkept : x.dec.repair pkt = { l, d, early := pkt } := by
      rw [Dec.repair, if_neg hbad, hdec]
      rfl
    refine Follows.waiting pkt hkept hout (hnumbers.trans hnone) ?_
    rw [hnone] at hnear
    exact fun _ => hnear
  | tracking first top htrack hserved hearly hfirst htop hsorted hpassed hsame =>
    obtain ⟨b, hrep, hb⟩ := hnear top (by rw [htop]; rfl)
    have honward := Onward.repair htrack.haveHi pkt
    refine Follows.tracking first top (htrack.repair hsrc hl hd hrep hb hroom)
      (htrack.served_repair hsrc hl hd hrep hb hroom hserved) (honward.early_eq.trans hearly) ?_ ?_ hsorted ?_ hsame
    · rw [hnumbers]
      exact hfirst
    · rw [hnumbers]
      exact htop
    · exact fun a ha => lt_of_lt_of_le (hpassed a ha) honward.rel_le

theorem drain {cap : Nat} (hx : Follows src seq0 ssrc l d events (.drain cap :: rest) x) :
    Follows src seq0 ssrc l d (events ++ [.drain cap]) rest (x.step src (.drain cap)) := by
  have hnumbers : numbers (events ++ [.drain cap]) = numbers events := by
    rw [numbers_concat]
    exact append_nil _
  cases hx with
  | waiting early hdec hout hnone hearly =>
    have hnothing : x.dec.drain cap = ([], x.dec) := by
      rw [hdec]
      rfl
    refine Follows.waiting early ?_ ?_ (hnumbers.trans hnone) hearly
    · show (x.dec.drain cap).2 = _
      rw [hnothing]
      exact hdec
    · show (if (x.dec.drain cap).1 = [] then x.out else _) = []
      rw [hnothing]
      exact hout
  | tracking first top htrack hserved hearly hfirst htop hsorted hpassed hsame =>
    by_cases hnone : x.dec.nextLen = 0 ∨ x.dec.nextLen > cap
    · have hnothing : x.dec.drain cap = ([], x.dec) := if_pos hnone
      have hstep : x.step src (.drain cap) = x := by
        show Running.mk (x.dec.drain cap).2 (if (x.dec.drain cap).1 = [] then x.out else _) = x
        rw [hnothing]
        rfl
      rw [hstep]
      exact Follows.tracking first top htrack hserved hearly (by rw [hnumbers]; exact hfirst)
        (by rw [hnumbers]; exact htop) hsorted hpassed hsame
    have hdrain : x.dec.drain cap = ((x.dec.slotAt x.dec.rel).pkt, Dec.skipLost { x.dec with rel := x.dec.rel + 1 }) :=
      if_neg hnone
    have hready : x.dec.slotReady x.dec.rel = true := by
      by_contra hnot
      exact hnone (.inl (if_neg hnot))
    have hlen : (x.dec.slotAt x.dec.rel).pkt ≠ [] := by
      intro hempty
      refine hnone (.inl ?_)
      rw [nextLen, if_pos hready, hempty]
      rfl
    obtain ⟨n, hn, hpkt, -⟩ := htrack.ready hready
    have hnext : Tracks src seq0 ssrc l d first top { x.dec with rel := x.dec.rel + 1 } :=
      htrack.move (by omega) x.dec.lateRun
    have honward := Onward.skipLost { x.dec with rel := x.dec.rel + 1 }
    have hrel : x.dec.rel + 1 ≤ (Dec.skipLost { x.dec with rel := x.dec.rel + 1 }).rel := honward.rel_le
    have hout : (x.step src (.drain cap)).out = x.out ++ [(x.dec.rel, (x.dec.slotAt x.dec.rel).pkt)] := by
      show (if (x.dec.drain cap).1 = [] then x.out else x.out ++ [(x.dec.rel, (x.dec.drain cap).1)]) = _
      rw [hdrain]
      exact if_neg hlen
    have hdec : (x.step src (.drain cap)).dec = Dec.skipLost { x.dec with rel := x.dec.rel + 1 } := by
      show (x.dec.drain cap).2 = _
      rw [hdrain]
    refine Follows.tracking first top ?_ ?_ ?_ (by rw [hnumbers]; exact hfirst) (by rw [hnumbers]; exact htop) ?_ ?_ ?_
    · rw [hdec]
      exact hnext.skipLost
    · rw [hdec]
      exact Served.skipLost (hserved.mono rfl rfl rfl rfl (by show x.dec.rel ≤ x.dec.rel + 1; omega))
    · rw [hdec]
      exact honward.early_eq.trans hearly
    · rw [hout, pairwise_append]
      refine ⟨hsorted, pairwise_singleton _ _, ?_⟩
      intro a ha b hb
      rw [mem_singleton.1 hb]
      exact hpassed a ha
    · rw [hout, hdec]
      intro a ha
      rcases mem_append.1 ha with ha | ha
      · have hlt := hpassed a ha
        omega
      · rw [mem_singleton.1 ha]
        show x.dec.rel < _
        omega
    · rw [hout]
      intro a ha
      rcases mem_append.1 ha with ha | ha
      · exact hsame a ha
      · rw [mem_singleton.1 ha]
        exact ⟨n, hn, hpkt⟩

end Follows

theorem run_follows {src : Nat → List UInt8} {seq0 ssrc l d : Nat} (hsrc : IsStream src seq0 ssrc) {s : Dec}
    (hs : decNew l d = some s) {sent : List (List UInt8)} {events : List Event}
    (hdel : Delivered src seq0 l d sent s events) (pre post : List Event) (hsplit : events = pre ++ post) :
    Follows src seq0 ssrc l d pre post (run src s pre) := by
  obtain ⟨hacc, rfl⟩ : Accepted l d ∧ ({ l, d } : Dec) = s := by
    unfold decNew at hs
    split at hs
    · rename_i hacc
      exact ⟨hacc, Option.some.inj hs⟩
    · cases hs
  have hl : 0 < l := pos_of_ne_zero fun h => hacc (.inl h)
  have hd : 0 < d := pos_of_ne_zero fun h => hacc (.inr (.inl h))
  have hroom : l * d * 5 < 2 ^ 40 := by
    have hle : d ≤ maxLd / l := not_lt.1 fun h => hacc (.inr (.inr (.inr h)))
    have hmul : l * d ≤ maxLd := (Nat.mul_le_mul_left l hle).trans (Nat.mul_div_le maxLd l)
    simp only [maxLd] at hmul
    omega
  induction pre using reverseRecOn generalizing post with
  | nil => exact Follows.waiting [] rfl rfl rfl (absurd rfl)
  | append_singleton pre e ih =>
    rw [append_assoc, singleton_append] at hsplit
    have hx := ih (e :: post) hsplit
    rw [run_concat]
    cases e with
    | source n => exact hx.source hsrc hl hd hroom (hdel.source_near pre n post hsplit) (hdel.steady pre n post hsplit)
    | repair pkt => exact hx.repair hsrc hl hd hroom (hdel.repair_near pre pkt post hsplit)
    | drain cap => exact hx.drain

theorem rep_tryRecover (s : Dec) (k k' : Nat × Bool) :
    ((s.tryRecover k).rep k').valid = (s.rep k').valid ∧ ((s.tryRecover k).rep k').snb = (s.rep k').snb := by
  have hset : ∀ r : Rep, r.valid = (s.rep k).valid → r.snb = (s.rep k).snb →
      (update s.rep k r k').valid = (s.rep k').valid ∧ (update s.rep k r k').snb = (s.rep k').snb := by
    intro r hv hs
    rw [Function.update_apply]
    split
    · rename_i hkk
      rw [hkk]
      exact ⟨hv, hs⟩
    · exact ⟨rfl, rfl⟩
  unfold tryRecover
  split
  · exact hset _ rfl rfl
  split
  · unfold repRecover
    dsimp only
    split
    · exact hset _ rfl rfl
    split
    · exact ⟨rfl, rfl⟩
    split
    · exact ⟨rfl, rfl⟩
    · split
      · exact hset _ rfl rfl
      · split
        · exact hset _ rfl rfl
        · split <;> exact hset _ rfl rfl
  · exact ⟨rfl, rfl⟩

/-- A repair in the window is held, unless both repairs of its column are newer. -/
theorem Tracks.repair_held {src : Nat → List UInt8} {seq0 ssrc l d first top : Nat} {s : Dec}
    (hs : Tracks src seq0 ssrc l d first top s) (hsrc : IsStream src seq0 ssrc) (hl : l < 256) (hd : d < 256)
    {b : Nat} (hrep : IsRepair src seq0 l d b pkt) (hnear : Near b top)
    (hlow : s.hiExt - extOf first b ≤ s.ringN) (hhigh : extOf first b - s.hiExt ≤ s.l * s.d) :
    (∃ k, ((s.repair pkt).rep k).valid = true ∧ ((s.repair pkt).rep k).snb = extOf first b) ∨
      ∀ f, (s.rep ((extOf first b).toNat % s.l, f)).valid = true ∧
        extOf first b < (s.rep ((extOf first b).toNat % s.l, f)).snb := by
  have hsnb := hs.snb_eq hrep hnear
  obtain ⟨-, pt, seq, pts, rfl⟩ := hrep
  have hfits : (columnRecovery src l b d).Fits :=
    Recovery.Fits.fold (fun i => Recovery.Fits.ofPacket (hsrc.length_le _)) Recovery.Fits.empty _
  have hshape : ¬((repairPacket l d pt seq pts ⟨columnRecovery src l b d, (seq0 + b) % 65536, d⟩).length > maxRepair ∨
      (repairPacket l d pt seq pts ⟨columnRecovery src l b d, (seq0 + b) % 65536, d⟩).length < 28 ∨
      byteAt (repairPacket l d pt seq pts ⟨columnRecovery src l b d, (seq0 + b) % 65536, d⟩) 0 >>> 6 ≠ 2) := by
    have hver := repairPacket_version (c := ⟨columnRecovery src l b d, (seq0 + b) % 65536, d⟩) hfits l d pt seq pts
    have hpay := hfits.payload_le
    rw [length_repairPacket, hver]
    simp only [maxRepair, maxPkt] at hpay ⊢
    omega
  unfold Dec.repair
  rw [if_neg hshape, if_neg (by rw [hs.haveHi]; simp), repairPacket_l, repairPacket_d, Nat.mod_eq_of_lt hl,
    Nat.mod_eq_of_lt hd, if_neg (by rw [hs.l_eq, hs.d_eq]; simp)]
  dsimp only
  rw [hsnb, if_neg (by omega)]
  by_cases hstale : s.repairStale (extOf first b) = true
  · rw [if_pos hstale]
    unfold repairStale at hstale
    simp only [Bool.or_eq_true, Bool.and_eq_true, decide_eq_true_iff] at hstale
    rcases hstale with (h | h) | ⟨⟨⟨h0, h1⟩, hlt0⟩, hlt1⟩
    · exact .inl ⟨_, h⟩
    · exact .inl ⟨_, h⟩
    · refine .inr fun f => ?_
      cases f
      · exact ⟨h0, hlt0⟩
      · exact ⟨h1, hlt1⟩
  rw [if_neg hstale]
  refine .inl ⟨s.repKey (extOf first b), ?_⟩
  obtain ⟨rel, -, hskip⟩ := skipLost_eq ((s.putRepair (extOf first b) (repairPacket l d pt seq pts
    ⟨columnRecovery src l b d, (seq0 + b) % 65536, d⟩)).tryRecover (s.repKey (extOf first b)))
  rw [hskip]
  obtain ⟨hvalid, hsame⟩ := rep_tryRecover (s.putRepair (extOf first b) (repairPacket l d pt seq pts
    ⟨columnRecovery src l b d, (seq0 + b) % 65536, d⟩)) (s.repKey (extOf first b)) (s.repKey (extOf first b))
  refine ⟨hvalid.trans (Tracks.repKey_valid s _ _).1, hsame.trans ?_⟩
  show (update s.rep _ _ _).snb = _
  rw [update_self]

end Dec

/-! ## End to end -/

/-- With all packets of a group but one in the ring, that one is there too, or was passed over, or was outside
the ring when its recovery was tried. -/
theorem Dec.Tracks.recovers {src : Nat → List UInt8} {seq0 ssrc l d first top : Nat} {s : Dec}
    (hs : Dec.Tracks src seq0 ssrc l d first top s) (hl : 0 < l) {k : Nat × Bool} (hsettled : s.Settled (s.rep k))
    {b : Nat} (hb : (s.rep k).snb = extOf first b) {j : Nat} (hj : j < d)
    (hothers : ∀ i < d, i ≠ j → s.slotReady (extOf first (b + i * l)) = true) :
    (s.slotReady (extOf first (b + j * l)) = true ∧ (s.slotAt (extOf first (b + j * l))).pkt = src (b + j * l)) ∨
      extOf first (b + j * l) < s.rel ∨ (s.rep k).far = true := by
  have hmem := hs.members_eq hb
  have hin : extOf first (b + j * l) ∈ s.members (s.rep k) := by
    rw [hmem]
    exact mem_map_of_mem (mem_range.2 hj)
  have hothers' : ∀ x ∈ s.members (s.rep k), s.slotReady x = false → x = extOf first (b + j * l) := by
    intro x hx hnot
    rw [hmem, mem_map] at hx
    obtain ⟨i, hi, rfl⟩ := hx
    by_cases hij : i = j
    · rw [hij]
    · rw [hothers i (mem_range.1 hi) hij] at hnot
      cases hnot
  rcases hsettled with h | ⟨x, hx, hlt, hnot⟩ | ⟨-, -, h⟩ | h
  · have hready := h _ hin
    obtain ⟨n, hn, hpkt, -⟩ := hs.ready hready
    obtain rfl : b + j * l = n := by
      simp only [extOf] at hn
      omega
    exact .inl ⟨hready, hpkt⟩
  · rw [hothers' x hx hnot] at hlt
    exact .inr (.inl hlt)
  · -- two members cannot be missing
    exfalso
    have hcount := length_eq_countP_add_countP s.slotReady (l := s.members (s.rep k))
    have hone : (s.members (s.rep k)).countP (fun x => decide ¬s.slotReady x = true) ≤
        (s.members (s.rep k)).count (extOf first (b + j * l)) := by
      refine countP_mono_left fun x hx hnot => ?_
      rw [decide_eq_true_iff] at hnot
      exact beq_iff_eq.2 (hothers' x hx (Bool.eq_false_iff.2 hnot))
    have hle := nodup_iff_count_le_one.1 (Dec.nodup_members (by rw [hs.l_eq]; exact hl) (s.rep k))
      (extOf first (b + j * l))
    rw [Dec.length_members] at hcount
    simp only [Dec.present] at h
    omega
  · exact .inr (.inr h)

/-- The encoder sends repairs of column groups. Whatever of the stream and of these repairs arrives, in whatever
order and however often, as long as the decoder does not synchronise anew: it returns packets of the stream, byte
for byte, with increasing numbers; of a group whose repair it holds and of which all other packets are in its
ring, the last one is there too, or was passed over before, or was outside the ring at that time; and it holds
every repair in its window, unless it has two newer ones for that column. -/
theorem fec2022_end_to_end {src : Nat → List UInt8} {seq0 ssrc l d pt seq : Nat} (hsrc : IsStream src seq0 ssrc)
    {e : Enc} (he : encNew l d pt seq = some e) (calls : List Enc.Call) {s : Dec} (hs : decNew l d = some s)
    {events : List Dec.Event} (hdel : Dec.Delivered src seq0 l d (Enc.run src e calls).out s events) :
    (∀ r ∈ (Enc.run src e calls).out, ∃ b, IsRepair src seq0 l d b r) ∧
      (∃ ns : List Nat, ns.Pairwise (· < ·) ∧ (Dec.run src s events).out.map Prod.snd = ns.map src) ∧
      (∃ first, ∀ k, ((Dec.run src s events).dec.rep k).valid = true → ∃ b, b % (l * d) < l ∧
        ((Dec.run src s events).dec.rep k).snb = extOf first b ∧
        ∀ j < d, (∀ i < d, i ≠ j → (Dec.run src s events).dec.slotReady (extOf first (b + i * l)) = true) →
          ((Dec.run src s events).dec.slotReady (extOf first (b + j * l)) = true ∧
              ((Dec.run src s events).dec.slotAt (extOf first (b + j * l))).pkt = src (b + j * l)) ∨
            extOf first (b + j * l) < (Dec.run src s events).dec.rel ∨ ((Dec.run src s events).dec.rep k).far = true) ∧
      (d < 256 → ∀ pre pkt post, events = pre ++ .repair pkt :: post → ∀ snb,
        (Dec.run src s pre).dec.haveHi = true → (Dec.run src s pre).dec.extSeq (beGet pkt 12 2) = snb →
        (Dec.run src s pre).dec.hiExt - snb ≤ l * d * 5 → snb - (Dec.run src s pre).dec.hiExt ≤ l * d →
        (∃ k, ((Dec.run src s (pre ++ [.repair pkt])).dec.rep k).valid = true ∧
            ((Dec.run src s (pre ++ [.repair pkt])).dec.rep k).snb = snb) ∨
          ∀ f, ((Dec.run src s pre).dec.rep (snb.toNat % l, f)).valid = true ∧
            snb < ((Dec.run src s pre).dec.rep (snb.toNat % l, f)).snb) := by
  have hacc : Accepted l d := by
    unfold decNew at hs
    split at hs
    · assumption
    · cases hs
  have hl : 0 < l := pos_of_ne_zero fun h => hacc (.inl h)
  have hfollows := Dec.run_follows hsrc hs hdel events [] (append_nil events).symm
  refine ⟨Enc.run_isRepair hsrc he calls, ?_, ?_, ?_⟩
  · cases hfollows with
    | waiting pkt hdec hout hnone hearly => exact ⟨[], Pairwise.nil, by rw [hout]; rfl⟩
    | tracking first top htrack hserved hearly hfirst htop hsorted hpassed hsame =>
      refine ⟨(Dec.run src s events).out.map fun a => (a.1 - extBase + first).toNat, ?_, ?_⟩
      · rw [pairwise_map]
        refine hsorted.imp_of_mem fun {a b} ha hb hlt => ?_
        obtain ⟨n, hn, -⟩ := hsame a ha
        obtain ⟨m, hm, -⟩ := hsame b hb
        simp only [extOf] at hn hm
        omega
      rw [map_map]
      refine map_congr_left fun a ha => ?_
      obtain ⟨n, hn, hpkt⟩ := hsame a ha
      have hnum : (a.1 - extBase + first).toNat = n := by
        simp only [extOf] at hn
        omega
      rw [Function.comp, hnum, hpkt]
  · cases hfollows with
    | waiting pkt hdec hout hnone hearly =>
      refine ⟨0, fun k hk => ?_⟩
      rw [hdec] at hk
      cases hk
    | tracking first top htrack hserved hearly hfirst htop hsorted hpassed hsame =>
      refine ⟨first, fun k hk => ?_⟩
      obtain ⟨b, hb, -, hcol, -, -⟩ := htrack.rep_valid k hk
      exact ⟨b, hcol, hb, fun j hj hothers => htrack.recovers hl (hserved k hk) hb hj hothers⟩
  · intro hd pre pkt post hsplit snb hhi hsnb hlow hhigh
    have hpre := Dec.run_follows hsrc hs hdel pre (.repair pkt :: post) hsplit
    cases hpre with
    | waiting early hdec hout hnone hearly =>
      rw [hdec] at hhi
      cases hhi
    | tracking first top htrack hserved hearly hfirst htop hsorted hpassed hsame =>
      obtain ⟨b, hrep, hnear⟩ := hdel.repair_near pre pkt post hsplit top (by rw [htop]; rfl)
      have hl' : l < 256 := by
        have hle : l ≤ maxL := not_lt.1 fun h => hacc (.inr (.inr (.inl h)))
        exact lt_of_le_of_lt hle (by decide)
      have hext := htrack.snb_eq hrep hnear
      obtain rfl : extOf first b = snb := hext.symm.trans hsnb
      have hheld := htrack.repair_held hsrc hl' hd hrep hnear (by
        rw [Dec.ringN, htrack.l_eq, htrack.d_eq]
        exact_mod_cast hlow) (by
        rw [htrack.l_eq, htrack.d_eq]
        exact hhigh)
      rw [htrack.l_eq] at hheld
      rw [Dec.run_concat]
      exact hheld

theorem isStream_count : IsStream (fun n => [0x80, 33] ++ (bePut 2 n ++ ([0, 0, 0, 0] ++ (bePut 4 7 ++ [UInt8.ofNat n])))) 0 7 := by
  refine ⟨fun n => by simp, fun n => by simp [maxPkt], fun n => by simp [byteAt], fun n => ?_, fun n => ?_⟩
  · rw [zero_add]
    exact beGet_field [0x80, 33] ([0, 0, 0, 0] ++ (bePut 4 7 ++ [UInt8.ofNat n])) 2 n
  · rw [← append_assoc [0x80, 33], ← append_assoc ([0x80, 33] ++ bePut 2 n)]
    exact beGet_field ([0x80, 33] ++ bePut 2 n ++ [0, 0, 0, 0]) [UInt8.ofNat n] 4 7

/-- Packets 0 and 2 of a column of three arrive, and the repair; packet 1 is recovered. -/
theorem fec2022_end_to_end_recovered :
    let src : Nat → List UInt8 := fun n => [0x80, 33] ++ (bePut 2 n ++ ([0, 0, 0, 0] ++ (bePut 4 7 ++ [UInt8.ofNat n])))
    let r : List UInt8 := [0x80, 96, 0, 5, 0, 0, 0, 1, 0, 0, 0, 0, 0, 0, 0, 1, 161, 0, 0, 0, 0, 0, 0, 0, 0, 1, 3, 0, 3]
    let events : List Dec.Event := [.source 0, .source 2, .repair r, .drain 1500, .drain 1500, .drain 1500]
    (Enc.run src { l := 1, d := 3, pt := 96, seq := 5 } [.feed 0, .feed 0, .feed 1]).out = [r] ∧
      (Dec.run src { l := 1, d := 3 } events).out.map Prod.snd = [src 0, src 1, src 2] ∧
      ∃ ns : List Nat, ns.Pairwise (· < ·) ∧ (Dec.run src { l := 1, d := 3 } events).out.map Prod.snd = ns.map src := by
  intro src r events
  have hsent : (Enc.run src { l := 1, d := 3, pt := 96, seq := 5 } [.feed 0, .feed 0, .feed 1]).out = [r] := by
    decide +kernel
  refine ⟨hsent, by decide +kernel, ?_⟩
  have hrep : IsRepair src 0 1 3 0 r := ⟨by decide, 96, 5, 1, by decide +kernel⟩
  have hsource : ∀ pre n post, events = pre ++ .source n :: post →
      (pre = [] ∧ n = 0) ∨ (pre = [.source 0] ∧ n = 2) := by
    intro pre n post h
    rcases pre with _ | ⟨a, _ | ⟨b, _ | ⟨c, _ | ⟨x, _ | ⟨y, _ | ⟨z, pre⟩⟩⟩⟩⟩⟩ <;> simp_all [events]
  have hrepair : ∀ pre pkt post, events = pre ++ .repair pkt :: post → pre = [.source 0, .source 2] ∧ pkt = r := by
    intro pre pkt post h
    rcases pre with _ | ⟨a, _ | ⟨b, _ | ⟨c, _ | ⟨x, _ | ⟨y, _ | ⟨z, pre⟩⟩⟩⟩⟩⟩ <;> simp_all [events]
  have hdel : Dec.Delivered src 0 1 3 (Enc.run src { l := 1, d := 3, pt := 96, seq := 5 } [.feed 0, .feed 0, .feed 1]).out
      { l := 1, d := 3 } events := by
    refine ⟨?_, ?_, ?_, ?_⟩
    · intro pre n post h m hm
      rcases hsource pre n post h with ⟨rfl, rfl⟩ | ⟨rfl, rfl⟩
      · cases hm
      · obtain rfl : 0 = m := Option.some.inj hm
        exact ⟨by decide, by decide⟩
    · intro pre pkt post h
      rw [(hrepair pre pkt post h).2, hsent]
      exact mem_singleton_self r
    · intro pre pkt post h m hm
      obtain ⟨rfl, rfl⟩ := hrepair pre pkt post h
      obtain rfl : 2 = m := Option.some.inj hm
      exact ⟨0, hrep, by decide, by decide⟩
    · intro pre n post h
      rcases hsource pre n post h with ⟨rfl, rfl⟩ | ⟨rfl, rfl⟩ <;> decide +kernel
  exact (fec2022_end_to_end isStream_count (l := 1) (d := 3) (e := { l := 1, d := 3, pt := 96, seq := 5 }) rfl _ rfl
    hdel).2.1

/-- `l * d` late packets in a row and the decoder synchronises anew: packet 9 is drained after packet 10. -/
theorem fec2022_starts_anew :
    let src : Nat → List UInt8 := fun n => [0x80, 33] ++ (bePut 2 n ++ ([0, 0, 0, 0] ++ (bePut 4 7 ++ [UInt8.ofNat n])))
    let events : List Dec.Event := [.source 10, .drain 1500, .source 7, .source 8, .source 9, .drain 1500]
    IsStream src 0 7 ∧ encNew 1 3 96 5 = some { l := 1, d := 3, pt := 96, seq := 5 } ∧
      decNew 1 3 = some { l := 1, d := 3 } ∧
      (Dec.run src { l := 1, d := 3 } events).out.map Prod.snd = [src 10, src 9] := by
  intro src events
  exact ⟨isStream_count, rfl, rfl, by decide +kernel⟩

end DvbIpiTools.Fec2022
