import DvbIpiTools.Demux.Fec2022

set_option autoImplicit false

/-! # The decoder and the stream

As long as the decoder does not synchronise anew, its extended numbers are those of the stream, shifted by the
number of the first packet that arrived. Then every packet in the ring is the stream's packet with that number,
whether it arrived or was recovered. `Tracks` says this of a state, and each function of the decoder keeps it: a packet
that arrives is put under its own number, and a recovery combines the other members of a group of the stream. -/

namespace DvbIpiTools.Fec2022

open BeUtil List Function Bool Nat

/-- A packet is at most `2^15` away from the highest one, so that its 16 bit number tells which one it is. -/
def Near (n top : Nat) : Prop := top ≤ n + 32768 ∧ n < top + 32768

/-- The extended number of packet `n` when packet `first` arrived first. -/
def extOf (first n : Nat) : Int := extBase + n - first

/-- The first packet of the group that packet `n` is in. -/
def groupBase (l d n : Nat) : Nat := n / (l * d) * (l * d) + n % l

theorem groupBase_member {l d b i : Nat} (hb : b % (l * d) < l) (hi : i < d) : groupBase l d (b + i * l) = b := by
  have hsplit := mod_add_div b (l * d)
  have hlt : b % (l * d) + i * l < l * d := by
    have hle : (i + 1) * l ≤ d * l := mul_le_mul_right l hi
    rw [mul_comm l d]
    calc b % (d * l) + i * l < l + i * l := by rw [mul_comm d l]; omega
      _ = (i + 1) * l := by ring
      _ ≤ d * l := hle
  have hsum : b + i * l = b % (l * d) + i * l + l * d * (b / (l * d)) := by omega
  have hdiv : (b + i * l) / (l * d) = b / (l * d) := by
    rw [hsum, add_mul_div_left _ _ (zero_lt_of_lt hlt), div_eq_of_lt hlt, zero_add]
  have hmod : (b + i * l) % l = b % (l * d) := by
    have hcol : b % l = b % (l * d) := by rw [← mod_mod_of_dvd b (dvd_mul_right l d), mod_eq_of_lt hb]
    rw [add_mul_mod_self_right, hcol]
  rw [groupBase, hdiv, hmod, mul_comm]
  omega

namespace Dec

/-! ## Small steps -/

theorem skipLoop_eq (n : Nat) (s : Dec) : ∃ rel, s.rel ≤ rel ∧ skipLoop n s = { s with rel := rel } := by
  induction n generalizing s with
  | zero => exact ⟨s.rel, le_rfl, rfl⟩
  | succ n ih =>
    have hnext : ∃ rel, s.rel ≤ rel ∧ skipLoop n { s with rel := s.rel + 1 } = { s with rel := rel } := by
      obtain ⟨rel, hle, heq⟩ := ih { s with rel := s.rel + 1 }
      exact ⟨rel, by have : s.rel + 1 ≤ rel := hle; omega, heq⟩
    have hstay : ∃ rel, s.rel ≤ rel ∧ s = { s with rel := rel } := ⟨s.rel, le_rfl, rfl⟩
    unfold skipLoop
    split
    · exact hstay
    split
    · exact hnext
    · split
      · exact hstay
      · split
        · exact hstay
        · exact hnext

theorem skipLost_eq (s : Dec) : ∃ rel, s.rel ≤ rel ∧ s.skipLost = { s with rel := rel } := skipLoop_eq _ s

/-- The distance of the numbers modulo 2^16 is that of the packets. -/
theorem int16_near {seq0 n top : Nat} (h : Near n top) :
    int16 (((seq0 + n) % 65536 + 65536 - (seq0 + top) % 65536) % 65536) = (n : Int) - top := by
  obtain ⟨hlow, hhigh⟩ := h
  unfold int16
  split <;> omega

/-- The decoder has the numbers of the stream: packet `first` arrived first and packet `top` is the highest one. -/
structure Tracks (src : Nat → List UInt8) (seq0 ssrc l d first top : Nat) (s : Dec) : Prop where
  l_eq : s.l = l
  d_eq : s.d = d
  haveHi : s.haveHi = true
  haveSsrc : s.haveSsrc = true
  ssrc_eq : s.srcSsrc = ssrc
  first_le : first ≤ top
  hi_eq : s.hiExt = extOf first top
  seq_eq : s.hiSeq = (seq0 + top) % 65536
  rel_ge : extBase ≤ s.rel
  early_ok : s.early ≠ [] → ∃ b, IsRepair src seq0 l d b s.early ∧ Near b top
  slot_ne : ∀ i, (s.ring i).state ≠ .dropped
  slot_ready : ∀ i, (s.ring i).state = .ready → ∃ n : Nat, (s.ring i).ext = extOf first n ∧
    extBase ≤ (s.ring i).ext ∧ (s.ring i).ext < s.rel + s.ringN ∧ s.slotIx (s.ring i).ext = i ∧ (s.ring i).pkt = src n
  rep_valid : ∀ k, (s.rep k).valid = true → ∃ b : Nat, (s.rep k).snb = extOf first b ∧ 0 ≤ (s.rep k).snb ∧
    b % (l * d) < l ∧ k.1 = (s.rep k).snb.toNat % l ∧ ((s.rep k).done = false → (s.rep k).recovery = columnRecovery src l b d)
  rep_ne : ∀ c, (s.rep (c, false)).valid = true → (s.rep (c, true)).valid = true →
    (s.rep (c, false)).snb ≠ (s.rep (c, true)).snb

variable {src : Nat → List UInt8} {seq0 ssrc l d first top : Nat} {s : Dec}

namespace Tracks

variable (hs : Tracks src seq0 ssrc l d first top s)

include hs

/-- A packet near the highest one gets its number of the stream. -/
theorem extSeq_eq {n : Nat} (hn : Near n top) : s.extSeq ((seq0 + n) % 65536) = extOf first n := by
  rw [extSeq, hs.seq_eq, int16_near hn, hs.hi_eq, extOf, extOf]
  omega

theorem move {rel : Int} (h : s.rel ≤ rel) (late : Nat) :
    Tracks src seq0 ssrc l d first top { s with lateRun := late, rel := rel } := by
  refine { hs with rel_ge := hs.rel_ge.trans h, slot_ready := ?_ }
  intro i hi
  obtain ⟨n, hext, hge, hlt, hix, hpkt⟩ := hs.slot_ready i hi
  exact ⟨n, hext, hge, lt_of_lt_of_le hlt (by show s.rel + s.ringN ≤ rel + s.ringN; omega), hix, hpkt⟩

theorem skipLost : Tracks src seq0 ssrc l d first top s.skipLost := by
  obtain ⟨rel, hle, heq⟩ := skipLost_eq s
  rw [heq]
  exact hs.move hle s.lateRun

/-- A packet of the stream is put in the slot of its number. -/
theorem putSlot {n : Nat} (hrel : s.rel ≤ extOf first n) (hlt : extOf first n < s.rel + s.ringN) :
    Tracks src seq0 ssrc l d first top (s.putSlot (extOf first n) ⟨.ready, extOf first n, src n⟩) := by
  refine { hs with slot_ne := ?_, slot_ready := ?_ }
  · intro i
    simp only [Dec.putSlot]
    split
    · simp
    · exact hs.slot_ne i
  intro i hi
  simp only [Dec.putSlot] at hi ⊢
  split
  · rename_i hix
    exact ⟨n, rfl, hs.rel_ge.trans hrel, hlt, hix.symm, rfl⟩
  · rename_i hix
    rw [if_neg hix] at hi
    exact hs.slot_ready i hi

/-- What is ready under a number is the stream's packet with that number. -/
theorem ready {e : Int} (h : s.slotReady e = true) :
    ∃ n : Nat, e = extOf first n ∧ (s.slotAt e).pkt = src n ∧ e < s.rel + s.ringN := by
  rw [slotReady, and_eq_true, decide_eq_true_iff, decide_eq_true_iff] at h
  obtain ⟨n, hext, -, hlt, -, hpkt⟩ := hs.slot_ready (s.slotIx e) h.1
  have he : (s.ring (s.slotIx e)).ext = e := h.2
  rw [he] at hext hlt
  exact ⟨n, hext, hpkt, hlt⟩

omit hs

end Tracks

/-! ## Recovery -/

variable {r : Rep} {e : Int}

theorem mem_members {s : Dec} : e ∈ s.members r ↔ ∃ i < s.d, e = r.snb + (i : Int) * s.l := by
  simp only [members, mem_map, mem_range]
  constructor
  · rintro ⟨i, hi, rfl⟩
    exact ⟨i, hi, rfl⟩
  · rintro ⟨i, hi, rfl⟩
    exact ⟨i, hi, rfl⟩

theorem length_members (s : Dec) (r : Rep) : (s.members r).length = s.d := by
  rw [members, length_map, length_range]

/-- Where one member is not there, it is the one found missing. -/
theorem one_missing {s : Dec} {m : Int} (hpres : s.present r + 1 = s.d) (hm : s.missing r = some m) :
    m ∈ s.members r ∧ s.slotReady m = false ∧ ∀ e ∈ s.members r, e ≠ m → s.slotReady e = true := by
  have hcount := length_eq_countP_add_countP s.slotReady (l := s.members r)
  rw [length_members] at hcount
  have hone : ((s.members r).filter fun e => !s.slotReady e).length = 1 := by
    rw [← countP_eq_length_filter]
    have hnot : (s.members r).countP (fun e => decide ¬s.slotReady e = true) =
        (s.members r).countP fun e => !s.slotReady e := countP_congr (fun e _ => by simp)
    simp only [present] at hpres
    omega
  obtain ⟨x, hx⟩ := length_eq_one_iff.1 hone
  have hxm : x = m := by
    rw [missing, hx] at hm
    exact Option.some.inj hm
  subst hxm
  have hmem : x ∈ (s.members r).filter fun e => !s.slotReady e := by
    rw [hx]
    exact mem_singleton_self x
  obtain ⟨hin, hnot⟩ := mem_filter.1 hmem
  refine ⟨hin, by simpa using hnot, ?_⟩
  intro e he hne
  by_contra hready
  have he' : e ∈ (s.members r).filter fun e => !s.slotReady e := mem_filter.2 ⟨he, by simpa using hready⟩
  rw [hx] at he'
  exact hne (mem_singleton.1 he')

namespace Tracks

variable {r : Rep} (hs : Tracks src seq0 ssrc l d first top s)

include hs

/-- A repair is changed, but not its group. -/
theorem setRep {k : Nat × Bool} (hvalid : (s.rep k).valid = true) (hsnb : r.snb = (s.rep k).snb)
    (hrec : r.done = false → (s.rep k).done = false ∧ r.recovery = (s.rep k).recovery) :
    Tracks src seq0 ssrc l d first top { s with rep := update s.rep k r } := by
  have hsame : ∀ k', (update s.rep k r k').snb = (s.rep k').snb := by
    intro k'
    rw [Function.update_apply]
    split
    · rename_i h
      rw [h, hsnb]
    · rfl
  have hwas : ∀ k', (update s.rep k r k').valid = true → (s.rep k').valid = true := by
    intro k' h
    rw [Function.update_apply] at h
    split at h
    · rename_i hk
      rw [hk]
      exact hvalid
    · exact h
  refine { hs with rep_valid := ?_, rep_ne := ?_ }
  · intro k' hk'
    obtain ⟨b, hb, hpos, hcol, hkey, hfields⟩ := hs.rep_valid k' (hwas k' hk')
    refine ⟨b, by rw [← hb]; exact hsame k', ?_, hcol, ?_, ?_⟩
    · rw [hsame k']
      exact hpos
    · rw [hsame k']
      exact hkey
    · intro hdone
      dsimp only at hdone ⊢
      rw [Function.update_apply] at hdone ⊢
      split
      · rename_i hkk
        rw [if_pos hkk] at hdone
        obtain ⟨hd, hr⟩ := hrec hdone
        rw [hr, ← hkk]
        exact hfields (by rw [hkk]; exact hd)
      · rename_i hkk
        rw [if_neg hkk] at hdone
        exact hfields hdone
  · intro c h0 h1
    rw [hsame, hsame]
    exact hs.rep_ne c (hwas _ h0) (hwas _ h1)

theorem members_eq {b : Nat} (hb : r.snb = extOf first b) :
    s.members r = (range d).map fun i => extOf first (b + i * l) := by
  rw [members, hs.d_eq]
  refine map_congr_left fun i _ => ?_
  rw [hb, hs.l_eq, extOf, extOf]
  omega

/-- What the present members and the repair give is the missing packet, as far as a repair says. -/
theorem recovered_same (hl : 0 < l) {b j : Nat}
    (hb : r.snb = extOf first b) (hrec : r.recovery = columnRecovery src l b d) (hj : j < d)
    (hready : ∀ i < d, i ≠ j → s.slotReady (extOf first (b + i * l)) = true) :
    (s.recovered r (extOf first (b + j * l))).Same (Recovery.ofPacket (src (b + j * l))) := by
  have hfilter : (s.members r).filter (fun e => e ≠ extOf first (b + j * l)) =
      ((range d).filter (· ≠ j)).map fun i => extOf first (b + i * l) := by
    rw [hs.members_eq hb, filter_map]
    congr 1
    refine filter_congr fun i _ => ?_
    have hiff : extOf first (b + i * l) = extOf first (b + j * l) ↔ i = j := by
      constructor
      · intro h
        simp only [extOf] at h
        exact eq_of_mul_eq_mul_right hl (by omega)
      · rintro rfl
        rfl
    simp only [Function.comp, ne_eq, hiff]
  have hfold : s.recovered r (extOf first (b + j * l)) =
      Parity.fold Recovery.xor (fun i => Recovery.ofPacket (src (b + i * l)))
        (Parity.fold Recovery.xor (fun i => Recovery.ofPacket (src (b + i * l))) {} (range d))
        ((range d).filter (· ≠ j)) := by
    rw [recovered, hfilter, Parity.fold_map, hrec]
    refine Parity.fold_congr Recovery.xor _ fun i hi => ?_
    obtain ⟨hrange, hne⟩ := mem_filter.1 hi
    obtain ⟨n, hn, hpkt, -⟩ := hs.ready (hready i (mem_range.1 hrange) (by simpa using hne))
    obtain rfl : b + i * l = n := by
      simp only [extOf] at hn
      omega
    rw [hpkt]
  rw [hfold]
  exact Recovery.fold_same (fun i => Recovery.ofPacket (src (b + i * l))) nodup_range (mem_range.2 hj)

/-- A recovered packet is the one of the stream, byte for byte. -/
theorem recoveredPkt_eq (hsrc : IsStream src seq0 ssrc) {n : Nat} {a : Recovery}
    (ha : a.Same (Recovery.ofPacket (src n))) : s.recoveredPkt (extOf first n) a = src n := by
  have hseq : (((s.hiSeq : Int) + (extOf first n - s.hiExt)) % 65536).toNat = beGet (src n) 2 2 := by
    rw [hs.seq_eq, hs.hi_eq, hsrc.seq_eq, extOf, extOf]
    omega
  have hssrc : s.srcSsrc = beGet (src n) 8 4 := by rw [hs.ssrc_eq, hsrc.ssrc_eq]
  rw [recoveredPkt, hseq, hssrc]
  exact packet_of_same (hsrc.header_le n) (hsrc.version n) ha

/-- What a repair recovers is a packet of the stream. -/
theorem repRecover (hsrc : IsStream src seq0 ssrc) (hl : 0 < l) (hd : 0 < d) {k : Nat × Bool}
    (hvalid : (s.rep k).valid = true) (hdone : (s.rep k).done = false) :
    Tracks src seq0 ssrc l d first top (s.repRecover k) := by
  unfold Dec.repRecover
  dsimp only
  split
  · exact hs.setRep hvalid rfl (nofun)
  split
  · exact hs
  rename_i hpres
  have hpres' : s.present (s.rep k) + 1 = s.d := by
    have hdeq := hs.d_eq
    omega
  cases hmiss : s.missing (s.rep k) with
  | none => exact hs
  | some m =>
    dsimp only
    split
    · exact hs.setRep hvalid rfl (nofun)
    rename_i hrel
    split
    · exact hs.setRep hvalid rfl (nofun)
    rename_i hfar
    obtain ⟨b, hb, -, -, -, hrec⟩ := hs.rep_valid k hvalid
    obtain ⟨hin, -, hothers⟩ := one_missing hpres' hmiss
    have hmem := hs.members_eq hb
    rw [hmem, mem_map] at hin
    obtain ⟨j, hj, rfl⟩ := hin
    have hready : ∀ i < d, i ≠ j → s.slotReady (extOf first (b + i * l)) = true := by
      intro i hi hne
      refine hothers _ ?_ ?_
      · rw [hmem]
        exact mem_map_of_mem (mem_range.2 hi)
      · intro h
        simp only [extOf] at h
        exact hne (eq_of_mul_eq_mul_right hl (by omega))
    have hsame := hs.recovered_same hl (r := { s.rep k with done := true, haveCount := s.d }) hb
      (hrec hdone) (mem_range.1 hj) hready
    have hlen : ¬(s.recovered { s.rep k with done := true, haveCount := s.d }
        (extOf first (b + j * l))).len > repairPayload := by
      rw [hsame.len_eq]
      exact not_lt.2 (Nat.sub_le_sub_right (hsrc.length_le _) 12)
    rw [if_neg hlen]
    have hset := hs.setRep (r := { s.rep k with
      done := true
      haveCount := s.d
      recovery := s.recovered { s.rep k with done := true, haveCount := s.d } (extOf first (b + j * l)) })
      hvalid rfl (nofun)
    rw [hset.recoveredPkt_eq hsrc hsame]
    exact hset.putSlot (Int.not_lt.1 hrel) (by
      show extOf first (b + j * l) < s.rel + s.ringN
      omega)

theorem tryRecover (hsrc : IsStream src seq0 ssrc) (hl : 0 < l) (hd : 0 < d) {k : Nat × Bool}
    (hvalid : (s.rep k).valid = true) (hdone : (s.rep k).done = false) :
    Tracks src seq0 ssrc l d first top (s.tryRecover k) := by
  unfold Dec.tryRecover
  split
  · exact hs.setRep hvalid rfl (nofun)
  · split
    · exact hs.repRecover hsrc hl hd hvalid hdone
    · exact hs

omit hs

end Tracks

theorem repFor_some {s : Dec} {k : Nat × Bool} (h : s.repFor e = some k) :
    k.1 = e.toNat % s.l ∧ s.covers (s.rep k) e = true := by
  unfold repFor at h
  dsimp only at h
  split at h
  · cases h
    exact ⟨rfl, by assumption⟩
  · split at h
    · cases h
      exact ⟨rfl, by assumption⟩
    · cases h

theorem covers_valid {s : Dec} (h : s.covers r e = true) : r.valid = true := by
  unfold covers at h
  cases hv : r.valid with
  | true => rfl
  | false =>
    rw [hv] at h
    cases h

namespace Tracks

theorem repNoteSource (hs : Tracks src seq0 ssrc l d first top s) (hsrc : IsStream src seq0 ssrc) (hl : 0 < l)
    (hd : 0 < d) (e : Int) : Tracks src seq0 ssrc l d first top (s.repNoteSource e) := by
  unfold Dec.repNoteSource
  cases hk : s.repFor e with
  | none => exact hs
  | some k =>
    have hvalid := covers_valid (repFor_some hk).2
    dsimp only
    split
    · exact hs
    rename_i hdone
    have hdone' : (s.rep k).done = false := eq_false_iff.2 hdone
    have hcount := hs.setRep (r := { s.rep k with haveCount := (s.rep k).haveCount + 1 }) hvalid rfl
      (fun _ => ⟨hdone', rfl⟩)
    refine hcount.tryRecover hsrc hl hd (k := k) ?_ ?_
    · show (update s.rep k _ k).valid = true
      rw [update_self]
      exact hvalid
    · show (update s.rep k _ k).done = false
      rw [update_self]
      exact hdone'

variable {b : Nat} {pkt : List UInt8}

/-- A repair of a group of the stream is kept for it. -/
theorem putRepair (hs : Tracks src seq0 ssrc l d first top s) (hsrc : IsStream src seq0 ssrc) (hrep : IsRepair src seq0 l d b pkt) (hpos : 0 ≤ extOf first b)
    (hstale : s.repairStale (extOf first b) = false) :
    Tracks src seq0 ssrc l d first top (s.putRepair (extOf first b) pkt) := by
  obtain ⟨hcol, pt, seq, pts, rfl⟩ := hrep
  have hfits : (columnRecovery src l b d).Fits :=
    Recovery.Fits.fold (fun i => Recovery.Fits.ofPacket (hsrc.length_le _)) Recovery.Fits.empty _
  have hkey : (s.repKey (extOf first b)).1 = (extOf first b).toNat % l := by
    unfold repKey
    dsimp only
    rw [← hs.l_eq]
    split <;> rfl
  unfold repairStale at hstale
  simp only [or_eq_false_iff, and_eq_false_iff, decide_eq_false_iff_not] at hstale
  obtain ⟨⟨h0, h1⟩, -⟩ := hstale
  unfold Dec.putRepair
  refine { hs with rep_valid := ?_, rep_ne := ?_ }
  · intro k hk
    dsimp only at hk ⊢
    rw [Function.update_apply] at hk ⊢
    split
    · rename_i hkk
      exact ⟨b, rfl, hpos, hcol, by rw [hkk]; exact hkey, fun _ => repairFields_repairPacket hfits l d pt seq pts⟩
    · rename_i hkk
      rw [if_neg hkk] at hk
      exact hs.rep_valid k hk
  -- the other repair of the column is not for this group
  intro c hv0 hv1
  have hcol' : ∀ f, (c, f) = s.repKey (extOf first b) → c = (extOf first b).toNat % s.l := by
    intro f hf
    rw [hs.l_eq, ← hkey, ← hf]
  dsimp only at hv0 hv1 ⊢
  rw [Function.update_apply] at hv0 hv1 ⊢
  rw [Function.update_apply]
  by_cases hk0 : (c, false) = s.repKey (extOf first b)
  · have hk1 : (c, true) ≠ s.repKey (extOf first b) := by
      rw [← hk0]
      simp
    rw [if_neg hk1] at hv1
    rw [if_pos hk0, if_neg hk1]
    rw [← hcol' false hk0] at h1
    rcases h1 with h1 | h1
    · exact absurd hv1 (by rw [h1]; simp)
    · exact fun h => h1 h.symm
  by_cases hk1 : (c, true) = s.repKey (extOf first b)
  · rw [if_neg hk0] at hv0
    rw [if_neg hk0, if_pos hk1]
    rw [← hcol' true hk1] at h0
    rcases h0 with h0 | h0
    · exact absurd hv0 (by rw [h0]; simp)
    · exact h0
  · rw [if_neg hk0] at hv0
    rw [if_neg hk1] at hv1
    rw [if_neg hk0, if_neg hk1]
    exact hs.rep_ne c hv0 hv1

variable (hs : Tracks src seq0 ssrc l d first top s)

include hs

theorem snb_eq
    (hrep : IsRepair src seq0 l d b pkt) (hnear : Near b top) : s.extSeq (beGet pkt 12 2) = extOf first b := by
  obtain ⟨-, pt, seq, pts, rfl⟩ := hrep
  rw [repairPacket_snb, mod_mod, hs.extSeq_eq hnear]

theorem snb_nonneg (hroom : l * d * 5 < 2 ^ 40) (hlow : ¬s.hiExt - extOf first b > s.ringN) : 0 ≤ extOf first b := by
  have hhi := hs.hi_eq
  have hfirst := hs.first_le
  have hringN : (s.ringN : Int) = ((l * d * 5 : Nat) : Int) := by rw [ringN, hs.l_eq, hs.d_eq]
  rw [hhi, hringN] at hlow
  simp only [extOf, extBase] at hlow ⊢
  omega

theorem clearEarly : Tracks src seq0 ssrc l d first top { s with early := [] } :=
  { hs with early_ok := fun h => absurd rfl h }

omit hs

theorem repKey_valid (s : Dec) (e : Int) (pkt : List UInt8) :
    ((s.putRepair e pkt).rep (s.repKey e)).valid = true ∧ ((s.putRepair e pkt).rep (s.repKey e)).done = false := by
  unfold Dec.putRepair
  dsimp only
  rw [update_self]
  exact ⟨rfl, rfl⟩

/-- A repair that arrives, stale or not. -/
theorem repair (hs : Tracks src seq0 ssrc l d first top s) (hsrc : IsStream src seq0 ssrc) (hl : 0 < l)
    (hd : 0 < d) (hrep : IsRepair src seq0 l d b pkt) (hnear : Near b top)
    (hroom : l * d * 5 < 2 ^ 40) : Tracks src seq0 ssrc l d first top (s.repair pkt) := by
  have hsnb := hs.snb_eq hrep hnear
  unfold Dec.repair
  split
  · exact hs
  rw [if_neg (by rw [hs.haveHi]; simp)]
  split
  · exact hs
  dsimp only
  rw [hsnb]
  split
  · exact hs
  rename_i hrange
  by_cases hstale : s.repairStale (extOf first b) = true
  · rw [if_pos hstale]
    exact hs
  · rw [if_neg hstale]
    have hput := hs.putRepair hsrc hrep (hs.snb_nonneg hroom (not_or.1 hrange).1) (eq_false_iff.2 hstale)
    obtain ⟨hvalid, hdone⟩ := repKey_valid s (extOf first b) pkt
    exact (hput.tryRecover hsrc hl hd hvalid hdone).skipLost

/-! ## Source packets -/

variable (hs : Tracks src seq0 ssrc l d first top s)

include hs

/-- The header of a packet that arrives moves the highest number only. -/
theorem heard (hsrc : IsStream src seq0 ssrc) {n : Nat} (hn : Near n top) (hearly : s.early = []) :
    Tracks src seq0 ssrc l d first (max top n) (s.heard (src n)) := by
  have hstart : s.startHi (beGet (src n) 2 2) = s := if_pos hs.haveHi
  have hext := hs.extSeq_eq hn
  have hhi := hs.hi_eq
  unfold Dec.heard
  rw [hstart, hsrc.seq_eq]
  have hadv : Tracks src seq0 ssrc l d first (max top n) (s.advanceHi ((seq0 + n) % 65536)) := by
    unfold advanceHi
    rw [hext]
    split
    · rename_i hgt
      have hlt : top < n := by
        rw [hhi] at hgt
        simp only [extOf] at hgt
        omega
      rw [max_eq_right hlt.le]
      exact { hs with first_le := hs.first_le.trans hlt.le, hi_eq := rfl, seq_eq := rfl, early_ok := fun h => absurd hearly h }
    rename_i hle
    have hge : n ≤ top := by
      rw [hhi] at hle
      simp only [extOf] at hle
      omega
    rw [max_eq_left hge]
    exact hs
  rw [if_pos hadv.haveSsrc]
  exact hadv

theorem place (hsrc : IsStream src seq0 ssrc) (hl : 0 < l) (hd : 0 < d) {n : Nat} (hrel : s.rel ≤ extOf first n)
    (hlt : extOf first n < s.rel + s.ringN) :
    Tracks src seq0 ssrc l d first top (s.place (extOf first n) (src n)) :=
  ((hs.putSlot hrel hlt).repNoteSource hsrc hl hd (extOf first n)).skipLost

theorem takeEarly (hsrc : IsStream src seq0 ssrc) (hl : 0 < l) (hd : 0 < d) (hroom : l * d * 5 < 2 ^ 40) :
    Tracks src seq0 ssrc l d first top s.takeEarly := by
  unfold Dec.takeEarly
  split
  · exact hs
  · rename_i hne
    obtain ⟨b, hrep, hnear⟩ := hs.early_ok hne
    exact hs.clearEarly.repair hsrc hl hd hrep hnear hroom

theorem ringN_pos (hl : 0 < l) (hd : 0 < d) : 0 < s.ringN := by
  rw [ringN, hs.l_eq, hs.d_eq]
  positivity

omit hs

end Tracks

/-- The ring has room for the packet, and its start stays at or before it. -/
theorem makeRoom_rel {s : Dec} (hpos : 0 < s.ringN) (h : s.rel ≤ e) :
    s.rel ≤ (s.makeRoom e).rel ∧ (s.makeRoom e).rel ≤ e ∧ e < (s.makeRoom e).rel + s.ringN := by
  simp only [makeRoom]
  split <;> omega

namespace Tracks

/-- A packet that is not behind the ring is taken in. -/
theorem accept (hs : Tracks src seq0 ssrc l d first top s) (hsrc : IsStream src seq0 ssrc) (hl : 0 < l)
    (hd : 0 < d) (hroom : l * d * 5 < 2 ^ 40) {n : Nat} (hrel : s.rel ≤ extOf first n) :
    Tracks src seq0 ssrc l d first top (s.accept (extOf first n) (src n)) := by
  obtain ⟨hle, hstart, hend⟩ := makeRoom_rel (hs.ringN_pos hl hd) hrel
  have hmove : Tracks src seq0 ssrc l d first top (s.makeRoom (extOf first n)) := hs.move hle 0
  unfold Dec.accept
  dsimp only
  split
  · exact hmove
  · exact (hmove.place hsrc hl hd hstart hend).takeEarly hsrc hl hd hroom

end Tracks

/-- A decoder that stays synchronised takes a packet in or drops it as late. -/
theorem source_steady {s : Dec} {pkt : List UInt8} (hlow : 12 ≤ pkt.length) (hhigh : pkt.length ≤ maxPkt)
    (hno : s.resyncs pkt = false) : s.source pkt =
      if s.numberOf pkt < s.rel then { s.heard pkt with lateRun := (s.heard pkt).lateRun + 1 }
      else (s.heard pkt).accept (s.numberOf pkt) pkt := by
  have hframe : (s.heard pkt).rel = s.rel ∧ (s.heard pkt).lateRun = s.lateRun ∧ (s.heard pkt).l = s.l ∧
      (s.heard pkt).d = s.d := by
    unfold Dec.heard advanceHi startHi
    dsimp only
    split <;> split <;> split <;> exact ⟨rfl, rfl, rfl, rfl⟩
  obtain ⟨hrel, hrun, hl, hd⟩ := hframe
  obtain ⟨hjump, hlate⟩ := Bool.or_eq_false_iff.1 hno
  unfold Dec.source
  rw [if_neg (by omega)]
  unfold sourceLoop
  dsimp only
  rw [hjump, if_neg Bool.false_ne_true, hrel]
  split
  · rename_i hlt
    rw [decide_eq_true hlt, Bool.true_and, decide_eq_false_iff_not] at hlate
    rw [if_neg (by rw [hrun, hl, hd]; exact hlate)]
  · rfl

end Dec

end DvbIpiTools.Fec2022
