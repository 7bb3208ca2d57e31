import Mathlib.Tactic.Linarith
import DvbIpiTools.Demux.Fec2022Runs

set_option autoImplicit false

/-! # The decoder recovers what it can

For every repair the decoder holds: all packets of its group are in the ring, or one of them was passed over, or
two of them are missing, or the missing one was outside the ring when its recovery was tried. -/

namespace DvbIpiTools.Fec2022

open BeUtil List Function Bool

namespace Dec

/-- What the decoder has done about a repair it holds. -/
def Settled (s : Dec) (r : Rep) : Prop :=
  (∀ e ∈ s.members r, s.slotReady e = true) ∨ (∃ e ∈ s.members r, e < s.rel ∧ s.slotReady e = false) ∨
    (r.done = false ∧ r.haveCount = s.present r ∧ s.present r + 1 < s.d) ∨ r.far = true

/-- Nothing is left to do. -/
def Served (s : Dec) : Prop := ∀ k, (s.rep k).valid = true → s.Settled (s.rep k)

/-- Nothing is left to do about all repairs but this one. -/
def ServedBut (s : Dec) (k : Nat × Bool) : Prop := ∀ k', k' ≠ k → (s.rep k').valid = true → s.Settled (s.rep k')

variable {s' : Dec} {r : Rep}

theorem Settled.mono {s : Dec} (h : s.Settled r) (hl : s'.l = s.l) (hd : s'.d = s.d)
    (hring : s'.ring = s.ring) (hrel : s.rel ≤ s'.rel) : s'.Settled r := by
  have hmem : s'.members r = s.members r := by rw [members, members, hl, hd]
  have hslot : ∀ e, s'.slotAt e = s.slotAt e := by
    intro e
    simp only [slotAt, slotIx, ringN, hl, hd, hring]
  have hready : s'.slotReady = s.slotReady := by
    funext e
    simp only [slotReady, hslot]
  have hpres : s'.present r = s.present r := by rw [present, present, hmem, hready]
  unfold Settled at h ⊢
  rw [hmem, hready, hpres, hd]
  rcases h with h | ⟨e, he, hlt, hnot⟩ | h | h
  · exact .inl h
  · exact .inr (.inl ⟨e, he, lt_of_lt_of_le hlt hrel, hnot⟩)
  · exact .inr (.inr (.inl h))
  · exact .inr (.inr (.inr h))

theorem Served.mono {s : Dec} (h : s.Served) (hl : s'.l = s.l) (hd : s'.d = s.d) (hring : s'.ring = s.ring)
    (hrep : s'.rep = s.rep) (hrel : s.rel ≤ s'.rel) : s'.Served := by
  intro k hk
  rw [hrep] at hk ⊢
  exact (h k hk).mono hl hd hring hrel

theorem Served.skipLost {s : Dec} (h : s.Served) : s.skipLost.Served := by
  obtain ⟨rel, hle, heq⟩ := skipLost_eq s
  rw [heq]
  exact h.mono rfl rfl rfl rfl hle

/-! ## One more packet in the ring -/

/-- A packet was written to the slot of `e`: what it replaced was passed over. -/
structure Turned (s s' : Dec) (e : Int) : Prop where
  l_eq : s'.l = s.l
  d_eq : s'.d = s.d
  rel_eq : s'.rel = s.rel
  kept : ∀ x, s.slotReady x = true → s'.slotReady x = true ∨ x < s.rel
  only : ∀ x, s'.slotReady x = true → s.slotReady x = true ∨ x = e

theorem Settled.turned {s : Dec} {e : Int} (h : s.Settled r) (ht : Turned s s' e)
    (hnot : e ∉ s.members r) : s'.Settled r := by
  have hmem : s'.members r = s.members r := by rw [members, members, ht.l_eq, ht.d_eq]
  have hold : ∀ x ∈ s.members r, s.slotReady x = false → s'.slotReady x = false := by
    intro x hx hx'
    refine eq_false_iff.2 fun hready => ?_
    rcases ht.only x hready with h | h
    · rw [hx'] at h
      cases h
    · exact hnot (h ▸ hx)
  by_cases hgone : ∃ x ∈ s.members r, s.slotReady x = true ∧ s'.slotReady x = false
  · obtain ⟨x, hx, hwas, hnow⟩ := hgone
    have hlt := (ht.kept x hwas).resolve_left (by rw [hnow]; simp)
    exact .inr (.inl ⟨x, by rw [hmem]; exact hx, by rw [ht.rel_eq]; exact hlt, hnow⟩)
  -- the same members are there
  have hsame : ∀ x ∈ s.members r, s'.slotReady x = s.slotReady x := by
    intro x hx
    cases hwas : s.slotReady x with
    | false => exact hold x hx hwas
    | true =>
      refine eq_true_of_not_eq_false fun hnow => ?_
      exact hgone ⟨x, hx, hwas, hnow⟩
  have hpres : s'.present r = s.present r := by
    rw [present, present, hmem]
    exact countP_congr fun x hx => by rw [hsame x hx]
  rcases h with h | ⟨x, hx, hlt, hx'⟩ | h | h
  · refine .inl fun x hx => ?_
    rw [hmem] at hx
    rw [hsame x hx]
    exact h x hx
  · exact .inr (.inl ⟨x, by rw [hmem]; exact hx, by rw [ht.rel_eq]; exact hlt, hold x hx hx'⟩)
  · rw [← hpres, ← ht.d_eq] at h
    exact .inr (.inr (.inl h))
  · exact .inr (.inr (.inr h))

variable {src : Nat → List UInt8} {seq0 ssrc l d first top : Nat} {s : Dec}

namespace Tracks

theorem ready_ge (hs : Tracks src seq0 ssrc l d first top s) {e : Int} (h : s.slotReady e = true) :
    extBase ≤ e ∧ e < s.rel + s.ringN := by
  rw [slotReady, and_eq_true, decide_eq_true_iff, decide_eq_true_iff] at h
  obtain ⟨n, -, hge, hlt, -, -⟩ := hs.slot_ready (s.slotIx e) h.1
  have he : (s.ring (s.slotIx e)).ext = e := h.2
  rw [he] at hge hlt
  exact ⟨hge, hlt⟩

theorem turned (hs : Tracks src seq0 ssrc l d first top s) {e : Int} (hrel : s.rel ≤ e)
    (hlt : e < s.rel + s.ringN) (pkt : List UInt8) : Turned s (s.putSlot e ⟨.ready, e, pkt⟩) e := by
  have hbase := hs.rel_ge
  refine ⟨rfl, rfl, rfl, ?_, ?_⟩
  · intro x hx
    obtain ⟨hge, hlt'⟩ := hs.ready_ge hx
    by_cases hix : s.slotIx x = s.slotIx e
    · by_cases hxrel : x < s.rel
      · exact .inr hxrel
      -- two numbers in the window with one slot are the same
      obtain rfl : x = e := by
        have hmod : x.toNat % s.ringN = e.toNat % s.ringN := hix
        have hx0 : (x.toNat : Int) = x := Int.toNat_of_nonneg (by simp only [extBase] at hge; omega)
        have he0 : (e.toNat : Int) = e := Int.toNat_of_nonneg (by simp only [extBase] at hbase; omega)
        have heq : x.toNat = e.toNat := by
          refine Nat.ModEq.eq_of_abs_lt (m := s.ringN) hmod ?_
          rw [abs_lt]
          omega
        omega
      refine .inl ?_
      simp [slotReady, slotAt, Dec.putSlot, slotIx, ringN]
    · refine .inl ?_
      have hsame : (s.putSlot e ⟨.ready, e, pkt⟩).slotAt x = s.slotAt x := if_neg hix
      simp only [slotReady, hsame] at hx ⊢
      exact hx
  · intro x hx
    by_cases hix : s.slotIx x = s.slotIx e
    · refine .inr ?_
      have hnew : (s.putSlot e ⟨.ready, e, pkt⟩).slotAt x = ⟨.ready, e, pkt⟩ := if_pos hix
      rw [slotReady, hnew, and_eq_true, decide_eq_true_iff, decide_eq_true_iff] at hx
      exact hx.2.symm
    · refine .inl ?_
      have hsame : (s.putSlot e ⟨.ready, e, pkt⟩).slotAt x = s.slotAt x := if_neg hix
      simp only [slotReady, hsame] at hx ⊢
      exact hx

/-! ## Which repair a packet belongs to -/

variable {k : Nat × Bool} {e : Int}

variable (hs : Tracks src seq0 ssrc l d first top s)

include hs

theorem covers_iff (hl : 0 < l) (hvalid : (s.rep k).valid = true) (he : 0 ≤ e) :
    e ∈ s.members (s.rep k) ↔ s.covers (s.rep k) e = true ∧ k.1 = e.toNat % s.l := by
  obtain ⟨b, -, hpos, -, hkey, -⟩ := hs.rep_valid k hvalid
  rw [mem_members, covers, hvalid, Bool.true_and, Bool.and_eq_true, decide_eq_true_iff, decide_eq_true_iff, lastMember,
    hkey, hs.l_eq, hs.d_eq]
  constructor
  · rintro ⟨i, hi, hei⟩
    have hnat : e.toNat = (s.rep k).snb.toNat + i * l := by omega
    have hmul : ((i : Int) + 1) * l ≤ (d : Int) * l := by
      have := Nat.mul_le_mul_right l (Nat.succ_le_of_lt hi)
      exact_mod_cast this
    refine ⟨⟨?_, ?_⟩, ?_⟩
    · have hnn : (0 : Int) ≤ (i : Int) * l := by positivity
      omega
    · rw [hei]
      linarith
    · rw [hnat, Nat.add_mul_mod_self_right]
  · rintro ⟨⟨hge, hle⟩, hmod⟩
    have hdvd : l ∣ e.toNat - (s.rep k).snb.toNat := (Nat.modEq_iff_dvd' (by omega)).mp hmod
    obtain ⟨i, hi⟩ := hdvd
    have hei : e = (s.rep k).snb + (i : Int) * l := by
      have hcast : ((l * i : Nat) : Int) = (i : Int) * l := by
        push_cast
        ring
      omega
    refine ⟨i, ?_, hei⟩
    have hlt : (i : Int) * l < d * l := by linarith
    have hlt' : i * l < d * l := by exact_mod_cast hlt
    exact Nat.lt_of_mul_lt_mul_right hlt'

theorem member_unique {k' : Nat × Bool} (hvalid : (s.rep k).valid = true) (hvalid' : (s.rep k').valid = true)
    (he : e ∈ s.members (s.rep k)) (he' : e ∈ s.members (s.rep k')) : k = k' := by
  obtain ⟨b, hb, -, hcol, hkey, -⟩ := hs.rep_valid k hvalid
  obtain ⟨b', hb', -, hcol', hkey', -⟩ := hs.rep_valid k' hvalid'
  rw [hs.members_eq hb, mem_map] at he
  rw [hs.members_eq hb', mem_map] at he'
  obtain ⟨i, hi, rfl⟩ := he
  obtain ⟨j, hj, hij⟩ := he'
  have hnum : b + i * l = b' + j * l := by
    simp only [extOf] at hij
    omega
  have hbase : b = b' := by
    rw [← groupBase_member hcol (mem_range.1 hi), hnum, groupBase_member hcol' (mem_range.1 hj)]
  have hsnb : (s.rep k).snb = (s.rep k').snb := by rw [hb, hb', hbase]
  obtain ⟨c, f⟩ := k
  obtain ⟨c', f'⟩ := k'
  obtain rfl : c = c' := by
    show (c, f).1 = (c', f').1
    rw [hkey, hkey', hsnb]
  have hne := hs.rep_ne c
  cases f <;> cases f'
  · rfl
  · exact absurd hsnb (hne hvalid hvalid')
  · exact absurd hsnb.symm (hne hvalid' hvalid)
  · rfl

theorem repFor_member (hl : 0 < l)
    (hvalid : (s.rep k).valid = true) (he : 0 ≤ e) (hmem : e ∈ s.members (s.rep k)) : s.repFor e = some k := by
  obtain ⟨hcov, hkey⟩ := (hs.covers_iff hl hvalid he).mp hmem
  have hfound : ∀ k', s.repFor e = some k' → k' = k := by
    intro k' hk'
    obtain ⟨hkey', hcov'⟩ := repFor_some hk'
    have hvalid' := covers_valid hcov'
    exact hs.member_unique hvalid' hvalid ((hs.covers_iff hl hvalid' he).mpr ⟨hcov', hkey'⟩) hmem
  cases hk : s.repFor e with
  | some k' => rw [hfound k' hk]
  | none =>
    unfold repFor at hk
    dsimp only at hk
    obtain ⟨c, f⟩ := k
    obtain rfl : c = e.toNat % s.l := hkey
    cases f
    · rw [if_pos hcov] at hk
      cases hk
    · split at hk
      · cases hk
      · cases hk

omit hs

end Tracks

/-! ## Recovery -/

theorem nodup_members {s : Dec} (hl : 0 < s.l) (r : Rep) : (s.members r).Nodup := by
  refine List.Nodup.map (fun i j hij => ?_) nodup_range
  have hmul : (i : Int) * s.l = (j : Int) * s.l := by omega
  have hnat : i * s.l = j * s.l := by exact_mod_cast hmul
  exact Nat.eq_of_mul_eq_mul_right hl hnat

theorem countP_one_more {is : List Int} (hnd : is.Nodup) {e : Int} (he : e ∈ is) {p q : Int → Bool}
    (hsame : ∀ x ∈ is, x ≠ e → q x = p x) (hp : p e = false) (hq : q e = true) : is.countP q = is.countP p + 1 := by
  have hperm := perm_cons_erase he
  have hrest : (is.erase e).countP q = (is.erase e).countP p := by
    refine countP_congr fun x hx => ?_
    obtain ⟨hne, hin⟩ := (List.Nodup.mem_erase_iff hnd).mp hx
    rw [hsame x hin hne]
  rw [hperm.countP_eq q, hperm.countP_eq p, countP_cons, countP_cons, hp, hq, hrest]
  rfl

theorem present_le (s : Dec) (r : Rep) : s.present r ≤ s.d := by
  rw [← length_members s r]
  exact countP_le_length

theorem all_ready {s : Dec} (h : s.present r = s.d) : ∀ e ∈ s.members r, s.slotReady e = true := by
  rw [← length_members s r] at h
  exact countP_eq_length.1 h

variable {k : Nat × Bool}

theorem ServedBut.setRep {s : Dec} (h : s.ServedBut k) (hr : s.Settled r) :
    Served { s with rep := update s.rep k r } := by
  intro k' hk'
  change (update s.rep k r k').valid = true at hk'
  show Settled _ (update s.rep k r k')
  rw [Function.update_apply] at hk' ⊢
  split
  · exact hr.mono rfl rfl rfl le_rfl
  · rename_i hne
    rw [if_neg hne] at hk'
    exact (h k' hne hk').mono rfl rfl rfl le_rfl

/-- A repair whose recovery has been tried, or for which there is nothing to try. -/
theorem Settled.done {s : Dec} (h : s.Settled r) (hcount : ¬(r.haveCount = s.present r ∧ s.present r + 1 < s.d))
    (n : Nat) : s.Settled { r with done := true, haveCount := n } := by
  rcases h with h | h | ⟨-, h⟩ | h
  · exact .inl h
  · exact .inr (.inl h)
  · exact absurd h hcount
  · exact .inr (.inr (.inr h))

theorem present_of_none {s : Dec} (h : s.missing r = none) : s.present r = s.d := by
  rw [missing, getLast?_eq_none_iff, filter_eq_nil_iff] at h
  rw [← length_members s r, present, countP_eq_length]
  intro e he
  simpa using h e he

namespace Tracks

variable (hs : Tracks src seq0 ssrc l d first top s)

include hs

theorem servedBut_putSlot (hvalid : (s.rep k).valid = true) (hbut : s.ServedBut k) {e : Int}
    (hmem : e ∈ s.members (s.rep k)) (hrel : s.rel ≤ e) (hlt : e < s.rel + s.ringN) (pkt : List UInt8) :
    (s.putSlot e ⟨.ready, e, pkt⟩).ServedBut k := by
  intro k' hne hk'
  exact (hbut k' hne hk').turned (hs.turned hrel hlt pkt) fun hmem' => hne (hs.member_unique hk' hvalid hmem' hmem)

/-- The missing packet is written: the group is complete, or one of its packets was passed over. -/
theorem settled_putSlot {r : Rep} {m : Int}
    (hothers : ∀ e ∈ s.members r, e ≠ m → s.slotReady e = true) (hrel : s.rel ≤ m) (hlt : m < s.rel + s.ringN)
    (pkt : List UInt8) : (s.putSlot m ⟨.ready, m, pkt⟩).Settled r := by
  have ht := hs.turned hrel hlt pkt
  have hnew : (s.putSlot m ⟨.ready, m, pkt⟩).slotReady m = true := by
    simp [slotReady, slotAt, Dec.putSlot, slotIx, ringN]
  by_cases hgone : ∃ x ∈ s.members r, (s.putSlot m ⟨.ready, m, pkt⟩).slotReady x = false
  · obtain ⟨x, hx, hnot⟩ := hgone
    have hne : x ≠ m := by
      rintro rfl
      rw [hnew] at hnot
      cases hnot
    have hlt' := (ht.kept x (hothers x hx hne)).resolve_left (by rw [hnot]; simp)
    exact .inr (.inl ⟨x, hx, hlt', hnot⟩)
  · refine .inl fun x hx => eq_true_of_not_eq_false fun hnot => hgone ⟨x, hx, hnot⟩

/-- After the recovery of a repair was tried, with one packet missing or none, it is settled; else it was before. -/
theorem served_repRecover (hsrc : IsStream src seq0 ssrc) (hl : 0 < l) (hd : 0 < d)
    (hvalid : (s.rep k).valid = true) (hdone : (s.rep k).done = false) (hbut : s.ServedBut k)
    (hthis : s.present (s.rep k) + 1 < s.d → s.Settled (s.rep k)) : (s.repRecover k).Served := by
  have htrack := hs.repRecover hsrc hl hd hvalid hdone
  have hle := present_le s (s.rep k)
  unfold Dec.repRecover at htrack ⊢
  dsimp only at htrack ⊢
  split
  · rename_i hfull
    exact hbut.setRep (.inl (all_ready hfull))
  rename_i hpart
  rw [if_neg hpart] at htrack
  split
  · intro k' hk'
    by_cases hkk : k' = k
    · rw [hkk]
      exact hthis (by omega)
    · exact hbut k' hkk hk'
  rename_i hone
  rw [if_neg hone] at htrack
  have hpres : s.present (s.rep k) + 1 = s.d := by omega
  cases hmiss : s.missing (s.rep k) with
  | none => exact absurd (present_of_none hmiss) hpart
  | some m =>
    rw [hmiss] at htrack
    dsimp only at htrack ⊢
    obtain ⟨hin, hnot, hothers⟩ := one_missing hpres hmiss
    split
    · rename_i hlt
      exact hbut.setRep (.inr (.inl ⟨m, hin, hlt, hnot⟩))
    rename_i hrel
    rw [if_neg hrel] at htrack
    split
    · exact hbut.setRep (.inr (.inr (.inr rfl)))
    rename_i hfar
    rw [if_neg hfar] at htrack
    split
    · -- a slot would be marked as dropped
      rename_i hlong
      rw [if_pos hlong] at htrack
      refine absurd ?_ (htrack.slot_ne (s.slotIx m))
      show (if s.slotIx m = s.slotIx m then _ else _ : Slot).state = .dropped
      rw [if_pos rfl]
    have hset := hs.setRep (r := { s.rep k with
      done := true
      haveCount := s.d
      recovery := s.recovered { s.rep k with done := true, haveCount := s.d } m })
      hvalid rfl (nofun)
    have hrel' : s.rel ≤ m := Int.not_lt.1 hrel
    have hlt' : m < s.rel + s.ringN := by omega
    intro k' hk'
    by_cases hkk : k' = k
    · rw [hkk]
      refine hset.settled_putSlot ?_ hrel' hlt' _
      show ∀ e ∈ s.members (update s.rep k _ k), _
      rw [update_self]
      exact hothers
    refine hset.servedBut_putSlot (k := k) ?_ ?_ ?_ hrel' hlt' _ k' hkk hk'
    · show (update s.rep k _ k).valid = true
      rw [update_self]
      exact hvalid
    · intro k'' hne hk''
      change (update s.rep k _ k'').valid = true at hk''
      show Settled _ (update s.rep k _ k'')
      rw [update_of_ne hne] at hk'' ⊢
      exact (hbut k'' hne hk'').mono rfl rfl rfl le_rfl
    · show m ∈ s.members (update s.rep k _ k)
      rw [update_self]
      exact hin

theorem served_tryRecover (hsrc : IsStream src seq0 ssrc) (hl : 0 < l) (hd : 0 < d)
    (hvalid : (s.rep k).valid = true) (hdone : (s.rep k).done = false) (hbut : s.ServedBut k)
    (hthis : s.Settled (s.rep k) ∨ (s.rep k).haveCount = s.present (s.rep k)) : (s.tryRecover k).Served := by
  have hle := present_le s (s.rep k)
  unfold Dec.tryRecover
  split
  · rename_i hfull
    rcases hthis with h | h
    · exact hbut.setRep (h.done (by omega) _)
    · exact hbut.setRep (.inl (all_ready (h.symm.trans hfull)))
  rename_i hpart
  split
  · refine hs.served_repRecover hsrc hl hd hvalid hdone hbut fun hpres => ?_
    rcases hthis with h | h
    · exact h
    · omega
  intro k' hk'
  by_cases hkk : k' = k
  · rw [hkk]
    rcases hthis with h | h
    · exact h
    · exact .inr (.inr (.inl ⟨hdone, h, by omega⟩))
  · exact hbut k' hkk hk'

theorem present_putSlot (hl : 0 < l) {r : Rep} {e : Int} (hmem : e ∈ s.members r) (hnot : s.slotReady e = false)
    (hrel : s.rel ≤ e) (hlt : e < s.rel + s.ringN) (pkt : List UInt8) :
    (∃ x ∈ s.members r, x < s.rel ∧ (s.putSlot e ⟨.ready, e, pkt⟩).slotReady x = false) ∨
      (s.putSlot e ⟨.ready, e, pkt⟩).present r = s.present r + 1 := by
  have ht := hs.turned hrel hlt pkt
  by_cases hgone : ∃ x ∈ s.members r, s.slotReady x = true ∧ (s.putSlot e ⟨.ready, e, pkt⟩).slotReady x = false
  · obtain ⟨x, hx, hwas, hnow⟩ := hgone
    exact .inl ⟨x, hx, (ht.kept x hwas).resolve_left (by rw [hnow]; simp), hnow⟩
  refine .inr (countP_one_more (nodup_members (by rw [hs.l_eq]; exact hl) r) hmem ?_ hnot ?_)
  · intro x hx hne
    cases hnow : (s.putSlot e ⟨.ready, e, pkt⟩).slotReady x with
    | true => exact ((ht.only x hnow).resolve_right hne).symm
    | false =>
      refine (eq_false_iff.2 fun hwas => ?_).symm
      exact hgone ⟨x, hx, hwas, hnow⟩
  · simp [slotReady, slotAt, Dec.putSlot, slotIx, ringN]

theorem served_place (hsrc : IsStream src seq0 ssrc) (hl : 0 < l) (hd : 0 < d) (hserved : s.Served) {n : Nat}
    (hnot : s.slotReady (extOf first n) = false) (hrel : s.rel ≤ extOf first n)
    (hlt : extOf first n < s.rel + s.ringN) : (s.place (extOf first n) (src n)).Served := by
  refine Served.skipLost ?_
  have hput := hs.putSlot hrel hlt
  have hturn := hs.turned hrel hlt (src n)
  have hpos : 0 ≤ extOf first n := by
    have hge := hs.rel_ge
    simp only [extBase] at hge
    omega
  unfold Dec.repNoteSource
  cases hk : (s.putSlot (extOf first n) ⟨.ready, extOf first n, src n⟩).repFor (extOf first n) with
  | none =>
    -- no repair that is held covers the packet
    intro k hvalid
    refine (hserved k hvalid).turned hturn fun hmem => ?_
    rw [hput.repFor_member hl hvalid hpos hmem] at hk
    cases hk
  | some k =>
    obtain ⟨hkey, hcov⟩ := repFor_some hk
    have hvalid := covers_valid hcov
    have hmem : extOf first n ∈ s.members (s.rep k) := (hput.covers_iff hl hvalid hpos).mpr ⟨hcov, hkey⟩
    have hbut : (s.putSlot (extOf first n) ⟨.ready, extOf first n, src n⟩).ServedBut k :=
      hs.servedBut_putSlot hvalid (fun k' _ hk' => hserved k' hk') hmem hrel hlt (src n)
    have hpassed : (∃ x ∈ s.members (s.rep k), x < s.rel ∧ s.slotReady x = false) →
        ∃ x ∈ s.members (s.rep k), x < s.rel ∧
          (s.putSlot (extOf first n) ⟨.ready, extOf first n, src n⟩).slotReady x = false := by
      rintro ⟨x, hx, hxlt, hxnot⟩
      refine ⟨x, hx, hxlt, eq_false_iff.2 fun hready => ?_⟩
      rcases hturn.only x hready with h | h
      · rw [hxnot] at h
        cases h
      · omega
    dsimp only
    split
    · rename_i hdone
      intro k' hk'
      by_cases hkk : k' = k
      · rw [hkk]
        rcases hserved k hvalid with h | h | ⟨h, -⟩ | h
        · rw [h _ hmem] at hnot
          cases hnot
        · exact .inr (.inl (hpassed h))
        · exact absurd hdone (by show ¬(s.rep k).done = true; rw [h]; simp)
        · exact .inr (.inr (.inr h))
      · exact hbut k' hkk hk'
    · rename_i hnotdone
      have hdone : (s.rep k).done = false := eq_false_iff.2 hnotdone
      have hcount := hput.setRep (k := k) (r := { s.rep k with haveCount := (s.rep k).haveCount + 1 }) hvalid rfl
        (fun _ => ⟨hdone, rfl⟩)
      refine hcount.served_tryRecover hsrc hl hd (k := k) ?_ ?_ ?_ ?_
      · show (update s.rep k _ k).valid = true
        rw [update_self]
        exact hvalid
      · show (update s.rep k _ k).done = false
        rw [update_self]
        exact hdone
      · intro k' hne hk'
        change (update s.rep k _ k').valid = true at hk'
        show Settled _ (update s.rep k _ k')
        rw [update_of_ne hne] at hk' ⊢
        exact (hbut k' hne hk').mono rfl rfl rfl le_rfl
      · show Settled _ (update s.rep k _ k) ∨ (update s.rep k _ k).haveCount = Dec.present _ (update s.rep k _ k)
        rw [update_self]
        rcases hserved k hvalid with h | h | ⟨-, h, -⟩ | h
        · rw [h _ hmem] at hnot
          cases hnot
        · exact .inl (.inr (.inl (hpassed h)))
        · rcases hs.present_putSlot hl hmem hnot hrel hlt (src n) with hgone | hpres
          · exact .inl (.inr (.inl hgone))
          · refine .inr ?_
            show (s.rep k).haveCount + 1 = (s.putSlot (extOf first n) ⟨.ready, extOf first n, src n⟩).present (s.rep k)
            rw [hpres, h]
        · exact .inl (.inr (.inr (.inr h)))

omit hs

/-! ## Calls -/

theorem served_repair (hs : Tracks src seq0 ssrc l d first top s) (hsrc : IsStream src seq0 ssrc) (hl : 0 < l)
    (hd : 0 < d) {b : Nat} {pkt : List UInt8} (hrep : IsRepair src seq0 l d b pkt) (hnear : Near b top)
    (hroom : l * d * 5 < 2 ^ 40) (hserved : s.Served) : (s.repair pkt).Served := by
  have hsnb := hs.snb_eq hrep hnear
  unfold Dec.repair
  split
  · exact hserved
  rw [if_neg (by rw [hs.haveHi]; simp)]
  split
  · exact hserved
  dsimp only
  rw [hsnb]
  split
  · exact hserved
  rename_i hrange
  by_cases hstale : s.repairStale (extOf first b) = true
  · rw [if_pos hstale]
    exact hserved
  rw [if_neg hstale]
  have hput := hs.putRepair hsrc hrep (hs.snb_nonneg hroom (not_or.1 hrange).1) (eq_false_iff.2 hstale)
  obtain ⟨hvalid, hdone⟩ := repKey_valid s (extOf first b) pkt
  refine Served.skipLost (hput.served_tryRecover hsrc hl hd hvalid hdone ?_ ?_)
  · intro k hne hk
    change (update s.rep _ _ k).valid = true at hk
    show Settled _ (update s.rep _ _ k)
    rw [update_of_ne hne] at hk ⊢
    exact (hserved k hk).mono rfl rfl rfl le_rfl
  · refine .inr ?_
    show (update s.rep _ _ _).haveCount = Dec.present _ (update s.rep _ _ _)
    rw [update_self]
    rfl

theorem served_accept (hs : Tracks src seq0 ssrc l d first top s) (hsrc : IsStream src seq0 ssrc) (hl : 0 < l)
    (hd : 0 < d) (hroom : l * d * 5 < 2 ^ 40) (hserved : s.Served) {n : Nat} (hrel : s.rel ≤ extOf first n) :
    (s.accept (extOf first n) (src n)).Served := by
  obtain ⟨hle, hstart, hend⟩ := makeRoom_rel (hs.ringN_pos hl hd) hrel
  have hmove : Tracks src seq0 ssrc l d first top (s.makeRoom (extOf first n)) := hs.move hle 0
  have hmoved : (s.makeRoom (extOf first n)).Served := hserved.mono rfl rfl rfl rfl hle
  unfold Dec.accept
  dsimp only
  split
  · exact hmoved
  rename_i hnot
  have hplace := hmove.place hsrc hl hd hstart hend
  have hplaced := hmove.served_place hsrc hl hd hmoved (eq_false_iff.2 hnot) hstart hend
  unfold Dec.takeEarly
  split
  · exact hplaced
  · rename_i hne
    obtain ⟨b, hrep, hnear⟩ := hplace.early_ok hne
    exact hplace.clearEarly.served_repair hsrc hl hd hrep hnear hroom (hplaced.mono rfl rfl rfl rfl le_rfl)

end Tracks

end Dec

end DvbIpiTools.Fec2022
