import DvbIpiTools.Fccret.RetClientComplete

set_option autoImplicit false

/-! # What a run of `ret_client_read` calls returns -/

namespace DvbIpiTools.Fccret

open BeUtil Demux List Option

namespace RetClient

theorem got_bytes {τ : Type} {r : RetClient τ} {cap : Nat} {x : RetQueued × List UInt8}
    (h : got (r.pop cap).1 = some x) : x.2 = x.1.data.take cap ∧ x.2 ≠ [] := by
  rcases pop_cases r cap with ⟨-, hp⟩ | ⟨q, rest, -, hp⟩
  · rw [hp] at h
    cases h
  rw [hp] at h
  dsimp only [got] at h
  split at h
  · cases h
  · rename_i hne
    cases h
    exact ⟨rfl, hne⟩

section Clock

variable {τ : Type} [LinearOrder τ] {x : RetQueued × List UInt8}

theorem read_bytes {cfg : RetConfig τ} {r : RetClient τ} {cap : Nat} {i : RetInput τ}
    (h : (read cfg r cap i).1 = some x) : x.2 = x.1.data.take cap ∧ x.2 ≠ [] := by
  unfold read at h
  split at h
  · rename_i y hy
    rw [← some.inj h]
    exact got_bytes hy
  · split at h
    · cases h
    · exact got_bytes h

theorem run_bytes (cfg : RetConfig τ) (reads : List (Nat × RetInput τ))
    (hx : x ∈ (run cfg reads).2) : x.2 ≠ [] ∧ ∃ y ∈ reads, x.2 = x.1.data.take y.1 := by
  induction reads using reverseRecOn with
  | nil => cases hx
  | append_singleton reads i ih =>
    rw [run_concat] at hx
    rcases mem_append.1 hx with hx | hx
    · obtain ⟨hne, y, hy, heq⟩ := ih hx
      exact ⟨hne, y, mem_append_left _ hy, heq⟩
    · obtain ⟨heq, hne⟩ := read_bytes (mem_toList.1 hx)
      exact ⟨hne, i, mem_append_right _ (mem_singleton_self i), heq⟩

/-- Every call handles packets of the source only, near the expected one. -/
def GenuineRun (cfg : RetConfig τ) (src : Nat → List UInt8) (ssrc : Nat) (reads : List (Nat × RetInput τ)) : Prop :=
  ∀ k x, reads[k]? = some x → GenuineRead cfg src ssrc (run cfg (reads.take k)).1 x.1 x.2

theorem run_following (cfg : RetConfig τ) {src : Nat → List UInt8} (hsrc : SmallSource src) {ssrc : Nat}
    (reads : List (Nat × RetInput τ)) (hcap : ∀ x ∈ reads, retHoldCap ≤ x.1) (hgen : GenuineRun cfg src ssrc reads)
    (hlost : (run cfg reads).1.lost = 0) : Following src ssrc ((run cfg reads).2.map Prod.fst) (run cfg reads).1 ∧
      ∀ x ∈ (run cfg reads).2, x.2 = src x.1.ext := by
  induction reads using reverseRecOn with
  | nil => exact ⟨.inl ⟨rfl, rfl, rfl, rfl, rfl⟩, nofun⟩
  | append_singleton reads i ih =>
    have hle := (Later.read cfg (run cfg reads).1 i.1 i.2).lost_le
    rw [run_concat] at hlost ⊢
    dsimp only at hlost ⊢
    have hbefore : (run cfg reads).1.lost = 0 := by omega
    obtain ⟨hfollow, hbytes⟩ := ih (fun x hx => hcap x (mem_append_left _ hx)) (fun k x hk => by
      have hlt := (List.getElem?_eq_some_iff.1 hk).1
      have hthis := hgen k x (by rw [getElem?_append_left hlt]; exact hk)
      rwa [take_append_of_le_length hlt.le] at hthis) hbefore
    have hread : GenuineRead cfg src ssrc (run cfg reads).1 i.1 i.2 := by
      have hthis := hgen reads.length i (by simp)
      rwa [take_left] at hthis
    obtain ⟨hnext, hlast⟩ := hfollow.read hsrc cfg (hcap i (by simp)) hread (hlost.trans hbefore.symm)
    refine ⟨by rw [map_append]; exact hnext, ?_⟩
    intro x hx
    rcases mem_append.1 hx with hx | hx
    · exact hbytes x hx
    · exact hlast x (mem_toList.1 hx)

/-- Whatever arrives, in whatever order, and whenever gaps are given up, the packets returned have increasing
extended numbers within one SSRC, and each of them has arrived with that number. If all arrivals are packets of
a source that are near the expected one and fit in a slot, and no missing packet reaches its deadline at the
head of the window, the packets returned or queued are those of the source from the first arrival on, without
holes, up to the expected one; and what has arrived is among them or held. -/
theorem run_output (cfg : RetConfig τ) (reads : List (Nat × RetInput τ)) :
    ((run cfg reads).2.map Prod.fst).Pairwise RetQueued.Before ∧
      (∀ x ∈ (run cfg reads).2, x.2 ≠ [] ∧ (∃ y ∈ reads, x.2 = x.1.data.take y.1) ∧
        (run cfg reads).1.Came x.1.epoch x.1.ext x.1.data) ∧
      (∀ a ∈ (run cfg reads).1.arrived, a.ext % 65536 = (a.seq : Int)) ∧
      ∀ (src : Nat → List UInt8) (ssrc : Nat), SmallSource src → (∀ x ∈ reads, retHoldCap ≤ x.1) →
        GenuineRun cfg src ssrc reads → (run cfg reads).1.lost = 0 →
        (∃ first : Nat, (∀ a ∈ (run cfg reads).1.arrived.head?, a.ext = first) ∧
          (run cfg reads).2.map Prod.fst ++ (run cfg reads).1.outq =
            sent src (run cfg reads).1.epoch first ((run cfg reads).1.ext - first)) ∧
          (∀ x ∈ (run cfg reads).2, x.2 = src x.1.ext) ∧
          ∀ a ∈ (run cfg reads).1.arrived, (run cfg reads).1.Has a.ext := by
  have hord := run_ordered cfg reads
  have hsub : ((run cfg reads).2.map Prod.fst).Sublist (run cfg reads).1.pushed :=
    (sublist_append_left _ _).trans hord.queued
  refine ⟨hord.pushed_before.sublist hsub, ?_, hord.arrived_seq, ?_⟩
  · intro x hx
    obtain ⟨hne, hcut⟩ := run_bytes cfg reads hx
    exact ⟨hne, hcut, hord.pushed_came x.1 (hsub.subset (mem_map_of_mem hx))⟩
  intro src ssrc hsrc hcap hgen hlost
  obtain ⟨hfollow, hbytes⟩ := run_following cfg hsrc reads hcap hgen hlost
  rcases hfollow with ⟨-, hhold, hq, harr, hout⟩ | ⟨first, hact, -⟩
  · refine ⟨⟨(run cfg reads).1.ext, ?_, ?_⟩, hbytes, ?_⟩
    · rw [harr]
      intro a ha
      cases ha
    · rw [hout, hq, Nat.sub_self]
      rfl
    · rw [harr]
      intro a ha
      cases ha
  · exact ⟨⟨first, hact.first_arrived, hact.all⟩, hbytes, hact.has⟩

end Clock

variable {src : Nat → List UInt8} {b : List UInt8} {τ : Type}

theorem GenuineMain.packet {r : RetClient τ} {h : RtpHdr} (n : Nat) (hp : rtpParseHeader b = some h)
    (hseq : h.seq = n % 65536) (hpay : b.drop h.payloadOff = src n) (hstart : r.haveSsrc = false → n < 65536)
    (hfits : r.haveSsrc = true → r.ext ≤ n + 32768 ∧ n < r.ext + 32) : GenuineMain src h.ssrc r (some b) := by
  intro b' hb h' hp' _
  cases hb
  obtain rfl := some.inj (hp.symm.trans hp')
  exact ⟨rfl, n, hseq, hpay, hstart, hfits⟩

theorem GenuineRepair.packet {cfg : RetConfig τ} {ssrc : Nat} {r : RetClient τ} {rx : RtxPkt} (n : Nat)
    (hp : rtxParse b cfg.rtxPt = some rx) (hseq : rx.osn = n % 65536) (hpay : rx.payload = src n)
    (hfits : r.haveSsrc = true → r.ext ≤ n + 32768 ∧ n < r.ext + 32) : GenuineRepair cfg src ssrc r (some b) := by
  intro b' hb rx' hp' _
  cases hb
  obtain rfl := some.inj (hp.symm.trans hp')
  exact ⟨n, hseq, hpay, hfits⟩

theorem genuineMain_none (src : Nat → List UInt8) (ssrc : Nat) (r : RetClient τ) :
    GenuineMain src ssrc r none := fun b hb => absurd hb (by simp)

theorem genuineRepair_none (cfg : RetConfig τ) (src : Nat → List UInt8) (ssrc : Nat) (r : RetClient τ) :
    GenuineRepair cfg src ssrc r none := fun b hb => absurd hb (by simp)

/-- Packet 65535 comes as a repair, after packet 65536. -/
theorem run_output_repaired :
    let cfg : RetConfig Nat := ⟨97, (· + 100), (· + 10)⟩
    let src : Nat → List UInt8 := fun n => [UInt8.ofNat n]
    let main (hi lo b : UInt8) : List UInt8 := [0x80, 33, hi, lo, 0, 0, 0, 0, 0, 0, 0, 7, b]
    let repair : List UInt8 := [0x80, 97, 0, 0, 0, 0, 0, 0, 0, 0, 0, 7, 255, 255, 255]
    let reads : List (Nat × RetInput Nat) :=
      [(1500, ⟨false, some (main 255 254 254), none, none, 0⟩), (1500, ⟨false, some (main 0 0 0), none, none, 1⟩),
        (1500, ⟨false, none, some repair, none, 5⟩), (1500, ⟨false, none, none, none, 5⟩)]
    (run cfg reads).2.map Prod.snd = [[254], [255], [0]] ∧ (run cfg reads).1.nacks = [(65535, 1)] ∧
      ∃ first : Nat, (∀ a ∈ (run cfg reads).1.arrived.head?, a.ext = first) ∧
        (run cfg reads).2.map Prod.fst ++ (run cfg reads).1.outq =
          sent src (run cfg reads).1.epoch first ((run cfg reads).1.ext - first) := by
  intro cfg src main repair reads
  refine ⟨by decide +kernel, by decide +kernel, ?_⟩
  have hsmall : SmallSource src := fun n => ⟨cons_ne_nil _ _, by simp [src, retHoldCap]⟩
  have hnone := genuineRepair_none cfg src 7
  refine ((run_output cfg reads).2.2.2 src 7 hsmall (by decide) ?_ (by decide +kernel)).1
  intro k x hk
  have hlt : k < 4 := (List.getElem?_eq_some_iff.1 hk).1
  obtain rfl | rfl | rfl | rfl : k = 0 ∨ k = 1 ∨ k = 2 ∨ k = 3 := by omega
  all_goals
    cases hk
    intro _ _
  · refine ⟨?_, hnone _, hnone _⟩
    have hparse : rtpParseHeader (main 255 254 254) = some ⟨33, 65534, 0, 7, 12⟩ := by decide +kernel
    exact GenuineMain.packet 65534 hparse rfl (by decide +kernel) (by decide) (nofun)
  · refine ⟨?_, hnone _, hnone _⟩
    have hparse : rtpParseHeader (main 0 0 0) = some ⟨33, 0, 0, 7, 12⟩ := by decide +kernel
    exact GenuineMain.packet 65536 hparse rfl (by decide +kernel) (by decide +kernel) (by decide +kernel)
  · refine ⟨genuineMain_none src 7 _, ?_, hnone _⟩
    have hparse : rtxParse repair 97 = some ⟨7, 65535, [255]⟩ := by decide +kernel
    exact GenuineRepair.packet 65535 hparse rfl (by decide +kernel) (by decide +kernel)
  · exact ⟨genuineMain_none src 7 _, hnone _, hnone _⟩

/-- A repair in time is dropped when it is longer than a slot: packet 1 is missing from the output, though its
repair comes at 5 and its gap is given up at 101. -/
theorem run_output_hole :
    let cfg : RetConfig Nat := ⟨97, (· + 100), (· + 10)⟩
    let src : Nat → List UInt8 := fun n => if n = 1 then replicate 1501 9 else [1]
    let main (lo : UInt8) : List UInt8 := [0x80, 33, 0, lo, 0, 0, 0, 0, 0, 0, 0, 7, 1]
    let repair : List UInt8 := [0x80, 97, 0, 0, 0, 0, 0, 0, 0, 0, 0, 7, 0, 1] ++ replicate 1501 9
    let reads : List (Nat × RetInput Nat) :=
      [(9216, ⟨false, some (main 0), none, none, 0⟩), (9216, ⟨false, some (main 2), none, none, 1⟩),
        (9216, ⟨false, none, some repair, none, 5⟩), (9216, ⟨false, none, none, none, 101⟩)]
    (∀ n, src n ≠ []) ∧ GenuineRun cfg src 7 reads ∧ rtxParse repair 97 = some ⟨7, 1, src 1⟩ ∧
      (run cfg (reads.take 2)).1.ext = 1 ∧
      (run cfg (reads.take 2)).1.hold.map (fun h => (h.data.isSome, h.deadline)) = [(false, 101), (true, 1)] ∧
      (run cfg reads).2.map (fun x => x.1.ext) = [0, 2] := by
  intro cfg src main repair reads
  have hnone := genuineRepair_none cfg src 7
  have hparse : rtxParse repair 97 = some ⟨7, 1, src 1⟩ := by decide +kernel
  refine ⟨?_, ?_, hparse, by decide +kernel, by decide +kernel, by decide +kernel⟩
  · intro n
    dsimp only [src]
    split
    · exact cons_ne_nil 9 (replicate 1500 9)
    · exact cons_ne_nil 1 []
  intro k x hk
  have hlt : k < 4 := (List.getElem?_eq_some_iff.1 hk).1
  obtain rfl | rfl | rfl | rfl : k = 0 ∨ k = 1 ∨ k = 2 ∨ k = 3 := by omega
  all_goals
    cases hk
    intro _ _
  · refine ⟨?_, hnone _, hnone _⟩
    have hmain : rtpParseHeader (main 0) = some ⟨33, 0, 0, 7, 12⟩ := by decide +kernel
    exact GenuineMain.packet 0 hmain rfl (by decide +kernel) (by decide) (nofun)
  · refine ⟨?_, hnone _, hnone _⟩
    have hmain : rtpParseHeader (main 2) = some ⟨33, 2, 0, 7, 12⟩ := by decide +kernel
    exact GenuineMain.packet 2 hmain rfl (by decide +kernel) (by decide +kernel) (by decide +kernel)
  · refine ⟨genuineMain_none src 7 _, ?_, hnone _⟩
    exact GenuineRepair.packet 1 hparse rfl rfl (by decide +kernel)
  · exact ⟨genuineMain_none src 7 _, hnone _, hnone _⟩

end RetClient

end DvbIpiTools.Fccret
