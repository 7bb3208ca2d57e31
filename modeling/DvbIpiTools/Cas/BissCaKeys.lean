import DvbIpiTools.Cas.BissCaEmm

set_option autoImplicit false

/-! # The key hierarchy of BISS-CA

Whatever a receiver of the scrambled packets needs has been sent to it: the session word in an ECM an epoch
before, and the session key of the ECM in an EMM. -/

namespace DvbIpiTools.Cas

open BissCa Scrambler List Option

/-- The sections have the session key for all receivers. -/
def Covers (c : BissCrypto) (emms : List HandedEmm) (receivers : List Receiver) (sk : List UInt8) (p : Parity) :
    Prop :=
  ∀ r ∈ receivers, ∃ x ∈ emms, ∃ rnd, (r.ekid, c.rsaEncrypt r.pub (sessionData sk p) rnd) ∈ x.sec.entries

/-- An ECM with two session words under a session key. -/
structure HasWords (c : BissCrypto) (sk : List UInt8) (p : Parity) (words : Parity → List UInt8)
    (ecm : EcmSection) : Prop where
  skParity : ecm.skParity = p
  even : ecm.eswEven = c.aesCbcEncrypt sk ecm.iv (words .even)
  odd : ecm.eswOdd = c.aesCbcEncrypt sk ecm.iv (words .odd)

/-- A session key is the first one, or the receivers of the build that brought it have it. These are the
    receivers in force when it was activated unless they were loaded again in between. -/
def Brought (c : BissCrypto) (sk0 : List UInt8) (emms : List HandedEmm) (sk : List UInt8) (p : Parity) :
    Option (BuildInfo × BuildInfo) → Prop
  | none => sk = sk0
  | some (build, activation) => Covers c emms build.receivers sk p ∧
    (build.reloads = activation.reloads → build.receivers = activation.receivers)

variable {c : BissCrypto} {sk0 : List UInt8}

theorem Brought.mono {emms : List HandedEmm} {sk : List UInt8} {p : Parity}
    {skFor : Option (BuildInfo × BuildInfo)} (h : Brought c sk0 emms sk p skFor) (more : List HandedEmm) :
    Brought c sk0 (emms ++ more) sk p skFor := by
  match skFor, h with
  | none, h => exact h
  | some (build, activation), ⟨hcovers, hsame⟩ =>
    refine ⟨fun r hr => ?_, hsame⟩
    obtain ⟨x, hx, rnd, hentry⟩ := hcovers r hr
    exact ⟨x, mem_append_left _ hx, rnd, hentry⟩

structure KeyInv (c : BissCrypto) (sk0 : List UInt8) (R : BissRun) : Prop where
  sk : Brought c sk0 R.emms R.e.sk R.e.skParity R.skFor
  cache : R.e.ecmDirty = false → ∀ ecm, R.e.ecmCache = some ecm → HasWords c R.e.sk R.e.skParity R.e.sw ecm
  ecms : ∀ x ∈ R.ecms, ∃ sk p words, (x.epoch, words) ∈ R.past ∧ HasWords c sk p words x.ecm ∧
    Brought c sk0 x.before sk p x.skFor

/-- A call that touches neither the key in force nor the ECM. -/
structure SameEcm (e e' : BissCa) : Prop where
  sk : e'.sk = e.sk
  skParity : e'.skParity = e.skParity
  ecmCache : e'.ecmCache = e.ecmCache
  words : e'.ecmDirty = e.ecmDirty ∧ e'.sw = e.sw ∨ e'.ecmDirty = true

theorem SameEcm.refl (e : BissCa) : SameEcm e e := ⟨rfl, rfl, rfl, .inl ⟨rfl, rfl⟩⟩

theorem SameEcm.trans {e e' e'' : BissCa} (h : SameEcm e e') (h' : SameEcm e' e'') : SameEcm e e'' := by
  refine ⟨h'.sk.trans h.sk, h'.skParity.trans h.skParity, h'.ecmCache.trans h.ecmCache, ?_⟩
  rcases h'.words with ⟨hdirty', hsw'⟩ | hdirty'
  · rcases h.words with ⟨hdirty, hsw⟩ | hdirty
    · exact .inl ⟨hdirty'.trans hdirty, hsw'.trans hsw⟩
    · exact .inr (hdirty'.trans hdirty)
  · exact .inr hdirty'

theorem KeyInv.congr {c : BissCrypto} {sk0 : List UInt8} {R : BissRun} (h : KeyInv c sk0 R) {e : BissCa}
    (he : SameEcm R.e e) {R' : BissRun} (heq : R'.e = e) (hemms : R'.emms = R.emms) (hfor : R'.skFor = R.skFor)
    (hecms : R'.ecms = R.ecms) (hpast : R'.past = R.past) : KeyInv c sk0 R' := by
  refine ⟨?_, fun hdirty ecm hecm => ?_, ?_⟩
  · rw [heq, hemms, hfor, he.sk, he.skParity]
    exact h.sk
  · rw [heq] at hdirty hecm ⊢
    rcases he.words with ⟨hd, hsw⟩ | hd
    · rw [he.sk, he.skParity, hsw]
      exact h.cache (hd.symm.trans hdirty) ecm (he.ecmCache.symm.trans hecm)
    · exact nomatch hdirty.symm.trans hd
  · rw [hecms, hpast]
    exact h.ecms

variable {R : BissRun}

theorem KeyInv.noted (h : KeyInv c sk0 R) : KeyInv c sk0 { R with past := R.past ++ [(R.e.swEpoch, R.e.sw)] } := by
  refine ⟨h.sk, h.cache, fun x hx => ?_⟩
  obtain ⟨sk, p, words, hpast, hwords, hbrought⟩ := h.ecms x hx
  exact ⟨sk, p, words, mem_append_left _ hpast, hwords, hbrought⟩

namespace BissCa

variable (e : BissCa)

theorem emmBuildAbort_ecm : SameEcm e e.emmBuildAbort := by
  obtain ⟨secs, n, habort, -⟩ := emmBuildAbort_spec e
  rw [habort]
  exact ⟨rfl, rfl, rfl, .inl ⟨rfl, rfl⟩⟩

theorem rotateSk_ecm (fresh : List UInt8) (e : BissCa) : SameEcm e (e.rotateSk fresh) := by
  obtain ⟨hsk, hparity, hcache, hwords⟩ := emmBuildAbort_ecm { e with
    skEmm := fresh
    skEmmParity := epochParity (e.skEpoch + 1)
    skEpoch := e.skEpoch + 1
    emmVersion := (e.emmVersion + 1) &&& 0x1F
    skPending := true
    liveNew := false }
  exact ⟨hsk, hparity, hcache, hwords⟩

theorem rotateSw_ecm (b : Backend) (fails : Bool) (fresh : List UInt8) (e : BissCa) :
    SameEcm e (e.rotateSw b fails fresh).2 := by
  rw [rotateSw]
  simp only []
  split
  · exact ⟨rfl, rfl, rfl, .inl ⟨rfl, rfl⟩⟩
  · exact ⟨rfl, rfl, rfl, .inr rfl⟩

theorem scramblePacket_ecm (b : Backend) (fails : Bool) (freshSw freshSk : List UInt8) (e : BissCa) (outPid : Nat)
    (now : ℚ) (pkt : List UInt8) : SameEcm e (e.scramblePacket b fails freshSw freshSk outPid now pkt).2 := by
  have hrotate : SameEcm e (e.rotate b fails freshSw freshSk).2 := by
    have hsw := rotateSw_ecm b fails freshSw e
    rw [rotate]
    by_cases h : e.sinceSwMs ≥ e.swPeriodMs
    · have hsw : SameEcm e { (e.rotateSw b fails freshSw).2 with sinceSwMs := 0 } := { hsw with }
      simp only [if_pos h]
      split
      · have hsk := hsw.trans (rotateSk_ecm freshSk _)
        exact { hsk with }
      · exact hsw
    · simp only [if_neg h]
      split
      · have hsk := rotateSk_ecm freshSk e
        exact { hsk with }
      · exact SameEcm.refl e
  exact { hrotate with }

theorem forceSkRotation_ecm : SameEcm e e.forceSkRotation := by
  rw [forceSkRotation]
  split <;> exact ⟨rfl, rfl, rfl, .inl ⟨rfl, rfl⟩⟩

variable (found : List Receiver)

theorem reloadReceivers_ecm (e : BissCa) : SameEcm e (e.reloadReceivers found).2 := by
  rw [reloadReceivers]
  split
  · exact SameEcm.refl e
  · have habort := emmBuildAbort_ecm { e with receivers := loadReceivers found }
    exact { habort with }

theorem coreReload_ecm (e : BissCa) : SameEcm e (e.coreReload found) := by
  have hreload := reloadReceivers_ecm found e
  rw [coreReload]
  simp only []
  split
  · exact hreload.trans (forceSkRotation_ecm _)
  · exact hreload

theorem emmBegin_ecm : SameEcm e e.emmBegin := by
  rw [emmBegin, emmBuildBegin]
  split
  · split <;> exact ⟨rfl, rfl, rfl, .inl ⟨rfl, rfl⟩⟩
  · exact SameEcm.refl e

theorem emmBuildStep_ecm (c : BissCrypto) (rnd : Nat) (e : BissCa) : SameEcm e (e.emmBuildStep c rnd) := by
  unfold emmBuildStep
  split
  · exact SameEcm.refl e
  simp only []
  split
  · have habort := emmBuildAbort_ecm e
    exact { habort with }
  · split
    · split <;> exact ⟨rfl, rfl, rfl, .inl ⟨rfl, rfl⟩⟩
    · split <;> exact ⟨rfl, rfl, rfl, .inl ⟨rfl, rfl⟩⟩

end BissCa

/-! ## A key comes into force -/

theorem mem_emmEntries (c : BissCrypto) (data : List UInt8) {receivers : List Receiver} {r : Receiver}
    (hr : r ∈ receivers) :
    ∃ i < sectionCount receivers, ∀ rnd, (r.ekid, c.rsaEncrypt r.pub data rnd) ∈ emmEntries c rnd data receivers i := by
  obtain ⟨k, hk⟩ := mem_iff_getElem?.1 hr
  have hlt : k < receivers.length := (List.getElem?_eq_some_iff.1 hk).1
  refine ⟨k / entriesPerSection, ?_, fun rnd => mem_map.2 ⟨r, ?_, rfl⟩⟩
  · rw [sectionCount, if_pos (by omega)]
    simp only [entriesPerSection]
    omega
  · refine mem_iff_getElem?.2 ⟨k % entriesPerSection, ?_⟩
    rw [getElem?_take_of_lt (Nat.mod_lt _ (by decide)), getElem?_drop, mul_comm, Nat.div_add_mod]
    exact hk

theorem EmmInv.covers {v : EmmView} (h : EmmInv c v) (hne : v.emmSecs ≠ []) (hnew : v.liveNew = true)
    (hall : v.nSent = v.emmSecs.length) : Covers c v.emms v.liveInfo.receivers v.skEmm v.skEmmParity := by
  have hlive := h.live hne
  obtain ⟨data, hbuilt, hdata⟩ := hlive.built
  obtain rfl := hdata hnew
  have hsent : ∀ s ∈ v.emmSecs, s.sent = true := countP_eq_length.1 (h.count.symm.trans hall)
  intro r hr
  obtain ⟨i, hi, hentry⟩ := mem_emmEntries c v.data hr
  rw [← hbuilt.length] at hi
  have hs : v.emmSecs[i]? = some v.emmSecs[i] := getElem?_eq_getElem hi
  obtain ⟨sec, hsec, hmem⟩ := hlive.sent i _ hs (hsent _ (getElem_mem hi))
  obtain ⟨-, -, rnd, hentries⟩ := hbuilt.sec i _ sec hs hsec
  exact ⟨_, hmem, rnd, hentries ▸ hentry rnd⟩

theorem emmSend_key (h : KeyInv c sk0 R) (hemm : EmmInv c R.view)
    (now : ℚ) (cap : Nat) : KeyInv c sk0 (R.emmSend now cap) := by
  rw [BissRun.emmSend]
  rcases emmSend_cases now cap R.e with hnone | ⟨i, s, sec, hs, hsec, hsend⟩
  · simp only [hnone, map_none, toList_none, append_nil]
    rw [if_neg (fun hp => Bool.noConfusion (hp.1.symm.trans hp.2))]
    exact h
  simp only [hsend, map_some, toList_some]
  have hinv : EmmInv c ({ R with
      e := R.e.markSent now i s
      emms := R.emms ++ [⟨sec, R.liveInfo⟩] } : BissRun).view := handOut_inv hemm hs hsec now
  by_cases hact : R.e.skPending ∧ R.e.liveNew ∧ (R.e.markSent now i s).nSent = (R.e.markSent now i s).emmSecs.length
  · have hactivate : (R.e.markSent now i s).activateIfSent = (R.e.markSent now i s).activateSk := if_pos hact
    have hne : (R.e.markSent now i s).emmSecs ≠ [] := fun hnil => by
      have hnil : R.e.emmSecs = [] := (set_eq_nil_iff _ _).1 hnil
      rw [hnil] at hs
      cases hs
    rw [hactivate, if_pos ⟨hact.1, rfl⟩]
    exact ⟨⟨hinv.covers hne hact.2.1 hact.2.2, (hinv.live hne).receivers⟩, fun hd => Bool.noConfusion (show true = false from hd), h.ecms⟩
  · have hkeep : (R.e.markSent now i s).activateIfSent = R.e.markSent now i s := if_neg hact
    rw [hkeep, if_neg (fun hp => Bool.noConfusion (hp.1.symm.trans hp.2))]
    exact ⟨h.sk.mono _, h.cache, h.ecms⟩

/-- An ECM that is handed out is the cached one, after it was built again if it had to be. -/
theorem ecmDue_cases (c : BissCrypto) (iv : List UInt8) (now : ℚ) (cap : Nat) (e : BissCa) :
    e.ecmDue c iv now cap = (none, if e.ecmDirty then e.rebuildEcm c iv else e) ∨
      ∃ ecm, (if e.ecmDirty then e.rebuildEcm c iv else e).ecmCache = some ecm ∧ e.ecmDue c iv now cap =
          (some ecm, { (if e.ecmDirty then e.rebuildEcm c iv else e) with lastEcmSend := now }) := by
  unfold ecmDue
  generalize (if e.ecmDirty then e.rebuildEcm c iv else e) = e'
  cases hcache : e'.ecmCache with
  | none =>
    left
    simp only [hcache]
  | some ecm =>
    simp only [hcache]
    split
    · exact .inl rfl
    · split
      · exact .inl rfl
      · exact .inr ⟨ecm, rfl, rfl⟩

variable {b : Backend}

theorem ecmDue_key (h : KeyInv c sk0 R) (hpast : (R.e.swEpoch, R.e.sw) ∈ R.past) (iv : List UInt8) (now : ℚ)
    (cap : Nat) : KeyInv c sk0 (R.call b c (.ecmDue iv now cap)) := by
  show KeyInv c sk0 { R with
    e := (R.e.ecmDue c iv now cap).2
    ecms := R.ecms ++ ((R.e.ecmDue c iv now cap).1.map fun ecm =>
      ⟨ecm, (R.e.ecmDue c iv now cap).2.swEpoch, R.emms, R.skFor⟩).toList }
  -- a cache that was not up to date is built again
  have hbuild : ∀ e, e = (if R.e.ecmDirty then R.e.rebuildEcm c iv else R.e) →
      KeyInv c sk0 { R with e } ∧ e.ecmDirty = false ∧ (e.swEpoch, e.sw) ∈ R.past := by
    rintro e rfl
    split
    · refine ⟨⟨h.sk, fun _ ecm hecm => ?_, h.ecms⟩, rfl, hpast⟩
      cases hecm
      exact ⟨rfl, rfl, rfl⟩
    · next hclean => exact ⟨h, Bool.not_eq_true _ ▸ hclean, hpast⟩
  obtain ⟨hkey, hclean, hnoted⟩ := hbuild _ rfl
  rcases ecmDue_cases c iv now cap R.e with hnone | ⟨ecm, hcache, hdue⟩
  · simp only [hnone, map_none, toList_none, append_nil]
    exact hkey
  simp only [hdue, map_some, toList_some]
  refine ⟨hkey.sk, hkey.cache, fun x hx => ?_⟩
  rcases mem_append.1 hx with hx | hx
  · exact h.ecms x hx
  · obtain rfl := mem_singleton.1 hx
    exact ⟨_, _, _, hnoted, hkey.cache hclean ecm hcache, hkey.sk⟩

theorem BissReach.noted (h : BissReach b c sk0 R) : (R.e.swEpoch, R.e.sw) ∈ R.past := by
  cases h with
  | start _ _ => exact mem_singleton.2 rfl
  | step _ ev => exact mem_append_right _ (mem_singleton.2 rfl)

theorem BissReach.keyInv (h : BissReach b c sk0 R) : KeyInv c sk0 R := by
  induction h with
  | @start pids flushPid swPeriodMs found swEven swOdd sk e hsk he =>
    obtain ⟨scr, -, -, rfl⟩ := start_spec he
    exact ⟨hsk, nofun, nofun⟩
  | @step R hreach ev ih =>
    refine KeyInv.noted (R := R.call b c ev) ?_
    cases ev with
    | tick deltaMs => 
      exact ih.congr (e := R.e.clockTick deltaMs) ⟨rfl, rfl, rfl, .inl ⟨rfl, rfl⟩⟩ rfl rfl rfl rfl rfl
    | scramble fails freshSw freshSk outPid now pkt =>
      exact ih.congr (scramblePacket_ecm b fails freshSw.1 freshSk.1 R.e outPid now pkt) rfl rfl rfl rfl rfl
    | ecmDue iv now cap => exact ecmDue_key ih hreach.noted iv now cap
    | emmDue rnd now cap =>
      have hbegin : KeyInv c sk0 R.emmBegin := by
        have hsame := emmBegin_ecm R.e
        rw [BissCa.emmBegin] at hsame
        unfold BissRun.emmBegin
        split
        · next hb =>
          rw [if_pos hb] at hsame
          exact ih.congr hsame rfl rfl rfl rfl rfl
        · exact ih
      have hstep : KeyInv c sk0 (R.emmBegin.emmStep c rnd) :=
        hbegin.congr (emmBuildStep_ecm c rnd _) rfl rfl rfl rfl rfl
      exact emmSend_key hstep (emmStep_inv rnd (emmBegin_inv hreach.emmInv)) now cap
    | reload found => exact ih.congr (reloadReceivers_ecm found R.e) rfl rfl rfl rfl rfl
    | coreReload found => exact ih.congr (coreReload_ecm found R.e) rfl rfl rfl rfl rfl
    | forceRotation => exact ih.congr (forceSkRotation_ecm R.e) rfl rfl rfl rfl rfl

/-! ## The hierarchy -/

/-- The words of an ECM of an epoch: the one in force and the next one. -/
def ecmWords (word : Nat → List UInt8) (n : Nat) : Parity → List UInt8 :=
  fun p => if p = epochParity n then word n else word (n + 1)

theorem ecmWords_eq {word : Nat → List UInt8} {n : Nat} {words : Parity → List UInt8}
    (hcur : words (epochParity n) = word n) (hnext : words (epochParity (n + 1)) = word (n + 1)) :
    words = ecmWords word n := by
  funext p
  rw [ecmWords]
  by_cases hp : p = epochParity n
  · rw [if_pos hp, hp]
    exact hcur
  have hother : p = epochParity (n + 1) := by
    rw [epochParity_succ]
    revert hp
    generalize epochParity n = q
    cases p <;> cases q <;> simp [Parity.other]
  rw [if_neg hp, hother]
  exact hnext

/-- What the ECM has to say in every state, what the scrambler has under each parity, and what the sections
    handed out say. -/
theorem key_hierarchy {b : Backend} {c : BissCrypto} {sk0 : List UInt8} {R : BissRun} (h : BissReach b c sk0 R) :
    (∃ word : Nat → List UInt8, (∀ x ∈ R.past, x.1 ≤ R.e.swEpoch ∧ x.2 = ecmWords word x.1) ∧
      R.e.scr.scr.keys.key (epochParity R.e.swEpoch) = some (word R.e.swEpoch) ∧
      R.e.scr.scr.keys.key (epochParity (R.e.swEpoch + 1)) =
        (if R.e.swEpoch = 0 then none else some (word (R.e.swEpoch - 1))) ∧
      ∀ x ∈ R.ecms, ∃ sk p, HasWords c sk p (ecmWords word x.epoch) x.ecm ∧ Brought c sk0 x.before sk p x.skFor) ∧
    ∀ x ∈ R.emms, ∀ y ∈ R.emms, x.sec.version = y.sec.version → x.sec.number = y.sec.number →
      x.info.reloads = y.info.reloads → x.info.rotations < y.info.rotations + 32 →
      y.info.rotations < x.info.rotations + 32 → x.sec = y.sec := by
  obtain ⟨word, hword⟩ := h.words
  have hpast : ∀ x ∈ R.past, x.1 ≤ R.e.swEpoch ∧ x.2 = ecmWords word x.1 := fun x hx =>
    ⟨(hword.past x hx).1, ecmWords_eq (hword.past x hx).2.1 (hword.past x hx).2.2⟩
  refine ⟨⟨word, hpast, hword.key, hword.older, fun x hx => ?_⟩, ?_⟩
  · obtain ⟨sk, p, words, hmem, hhas, hbrought⟩ := h.keyInv.ecms x hx
    have hwords : words = ecmWords word x.epoch := (hpast _ hmem).2
    exact ⟨sk, p, hwords ▸ hhas, hbrought⟩
  intro x hx y hy hversion hnumber hreloads hlt hlt'
  have hinv := h.emmInv
  have hxv := (hinv.emms x hx).1
  have hyv := (hinv.emms y hy).1
  refine hinv.once x hx y hy ⟨?_, hreloads⟩ hnumber
  omega

/-! ## Runs of their own -/

/-- Encryption that keeps its arguments in sight. -/
def toyCrypto : BissCrypto where
  rsaEncrypt pub data _ := pub ++ data
  aesCbcEncrypt key iv word := key ++ iv ++ word

def toyKey (n : UInt8) : Key16 := ⟨replicate 16 n, length_replicate⟩

def toyReceivers (n : Nat) : List Receiver := (range n).map fun i => ⟨[UInt8.ofNat i], [UInt8.ofNat i]⟩

/-- An engine that has just been started with the receivers. -/
def toyStart (n : Nat) : Option BissRun :=
  (BissCa.start toyBackend [0x100] 0x1FFF 1000 (toyReceivers n) (toyKey 1).1 (toyKey 2).1 (toyKey 3).1).map fun e =>
    ⟨e, [(e.swEpoch, e.sw)], 0, ⟨e.receivers, 0, 0⟩, ⟨e.receivers, 0, 0⟩, [], none, []⟩

def toyRun (n : Nat) (evs : List BissEvent) : Option BissRun :=
  (toyStart n).map fun R => evs.foldl (fun R ev => R.step toyBackend toyCrypto ev) R

theorem toyRun_reach {n : Nat} {evs : List BissEvent} (h : toyRun n evs = some R) :
    BissReach toyBackend toyCrypto (toyKey 3).1 R := by
  have hfold : ∀ (evs : List BissEvent) {R : BissRun}, BissReach toyBackend toyCrypto (toyKey 3).1 R →
      BissReach toyBackend toyCrypto (toyKey 3).1 (evs.foldl (fun R ev => R.step toyBackend toyCrypto ev) R) := by
    intro evs
    induction evs with
    | nil => exact fun hR => hR
    | cons ev evs ih => exact fun hR => ih (hR.step ev)
  obtain ⟨R0, h0, rfl⟩ := map_eq_some_iff.1 h
  obtain ⟨e, he, rfl⟩ := map_eq_some_iff.1 h0
  exact hfold evs (BissReach.start rfl he)

/-- A key for sixteen receivers is on its way in two sections. The receivers are loaded again, the second section
    is sent all the same, and an ECM under the key follows. -/
def reloadedOnTheWay : List BissEvent :=
  [.emmDue 0 0 4096, .emmDue 0 1 4096, .forceRotation, .scramble false (toyKey 4) (toyKey 5) 0x100 2 toyPacket,
    .emmDue 0 3 4096, .emmDue 0 4 4096, .reload (toyReceivers 17), .emmDue 0 5 4096, .ecmDue [] 6 4096]

/-- A section is sent, and after the receivers were loaded again another one in its place. -/
def reloadedBetween : List BissEvent := [.emmDue 0 0 4096, .reload (toyReceivers 2), .emmDue 0 1 4096]

/-- A key that is activated, and a section sent twice. -/
def keyActivated : List BissEvent :=
  [.emmDue 0 0 4096, .ecmDue [] 0 4096, .forceRotation, .scramble false (toyKey 4) (toyKey 5) 0x100 1 toyPacket,
    .emmDue 0 2 4096, .emmDue 0 3 4096, .ecmDue [] 4 4096]

theorem toyRuns_run : (toyRun 16 reloadedOnTheWay).isSome ∧ (toyRun 1 reloadedBetween).isSome ∧
    (toyRun 2 keyActivated).isSome := by
  decide +kernel

/-- A receiver of the set in force has no entry with the key that an ECM is under, and a section changes without its
    version. -/
theorem reload_not_noticed : (∃ R, BissReach toyBackend toyCrypto (toyKey 3).1 R ∧ ∃ x ∈ R.ecms,
      HasWords toyCrypto (toyKey 5).1 .odd (ecmWords (fun n => if n = 0 then (toyKey 1).1 else (toyKey 2).1) 0) x.ecm ∧
      ∃ p ∈ x.skFor, ∃ r ∈ p.2.receivers, ∀ y ∈ x.before, ∀ entry ∈ y.sec.entries, entry.1 ≠ r.ekid) ∧
    ∃ R, BissReach toyBackend toyCrypto (toyKey 3).1 R ∧ ∃ x ∈ R.emms, ∃ y ∈ R.emms,
      x.sec.version = y.sec.version ∧ x.sec.number = y.sec.number ∧ x.sec ≠ y.sec := by
  constructor
  · refine ⟨_, toyRun_reach (some_get (toyRuns_run).1).symm, ?_⟩
    have hecm : ∃ x ∈ ((toyRun 16 reloadedOnTheWay).get (toyRuns_run).1).ecms, (x.ecm.skParity = .odd ∧
        x.ecm.eswEven = toyCrypto.aesCbcEncrypt (toyKey 5).1 x.ecm.iv (toyKey 1).1 ∧
        x.ecm.eswOdd = toyCrypto.aesCbcEncrypt (toyKey 5).1 x.ecm.iv (toyKey 2).1) ∧
        ∃ p ∈ x.skFor, ∃ r ∈ p.2.receivers, ∀ y ∈ x.before, ∀ entry ∈ y.sec.entries, entry.1 ≠ r.ekid := by
      decide +kernel
    obtain ⟨x, hx, ⟨hp, heven, hodd⟩, hmissing⟩ := hecm
    exact ⟨x, hx, ⟨hp, heven, hodd⟩, hmissing⟩
  · exact ⟨_, toyRun_reach (some_get (toyRuns_run).2.1).symm, by decide +kernel⟩

theorem key_hierarchy_activated :
    ∃ R, toyRun 2 keyActivated = some R ∧ (R.ecms.map fun x => x.skFor.isSome) = [false, true] ∧
      (R.emms.map fun x => x.sec.version) = [0, 1, 1] ∧
      (∃ word : Nat → List UInt8, ∀ x ∈ R.ecms, ∃ sk p, HasWords toyCrypto sk p (ecmWords word x.epoch) x.ecm ∧
        Brought toyCrypto (toyKey 3).1 x.before sk p x.skFor) ∧
      ∀ x ∈ R.emms, ∀ y ∈ R.emms, x.sec.version = y.sec.version → x.sec.number = y.sec.number →
        x.info.reloads = y.info.reloads → x.info.rotations < y.info.rotations + 32 →
        y.info.rotations < x.info.rotations + 32 → x.sec = y.sec := by
  obtain ⟨⟨word, -, -, -, hecms⟩, hemms⟩ := key_hierarchy (toyRun_reach (some_get (toyRuns_run).2.2).symm)
  exact ⟨_, (some_get (toyRuns_run).2.2).symm, by decide +kernel, by decide +kernel, ⟨word, hecms⟩, hemms⟩

end DvbIpiTools.Cas
