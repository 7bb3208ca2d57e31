import DvbIpiTools.Cas.BissCaRuns

set_option autoImplicit false

/-! # The session keys of BISS-CA

A session key comes into force when all live sections were sent that carry it, so every receiver they were
built for has had it. The set of receivers may have been loaded again by then, which starts another build of
the same version. -/

namespace DvbIpiTools.Cas

open BissCa Option Nat

/-! ## What is known of the sections -/

/-- The most receivers that are loaded. -/
def maxReceivers : Nat := maxSections * entriesPerSection

/-- The part of a run that the sections depend on. -/
structure EmmView where
  receivers : List Receiver
  skEmm : List UInt8
  skEmmParity : Parity
  liveNew : Bool
  skEpoch : Nat
  emmVersion : Nat
  emmDirty : Bool
  emmSecs : List EmmSlot
  nSent : Nat
  bld : Option EmmBuild
  reloads : Nat
  bldInfo : BuildInfo
  liveInfo : BuildInfo
  emms : List HandedEmm

def BissRun.view (R : BissRun) : EmmView :=
  ⟨R.e.receivers, R.e.skEmm, R.e.skEmmParity, R.e.liveNew, R.e.skEpoch, R.e.emmVersion, R.e.emmDirty, R.e.emmSecs,
    R.e.nSent, R.e.bld, R.reloads, R.bldInfo, R.liveInfo, R.emms⟩

namespace EmmView

/-- What a build is made from that begins now. -/
def info (v : EmmView) : BuildInfo := ⟨v.receivers, v.skEpoch, v.reloads⟩

/-- The session data of the newest key. -/
def data (v : EmmView) : List UInt8 := sessionData v.skEmm v.skEmmParity

end EmmView

/-- Two builds of the same key with no reload between them. -/
def SameTag (a b : BuildInfo) : Prop := a.rotations = b.rotations ∧ a.reloads = b.reloads

/-- The sections of a build, as far as they are there. -/
structure Built (c : BissCrypto) (info : BuildInfo) (data : List UInt8) (secs : List EmmSlot) : Prop where
  length : secs.length = sectionCount info.receivers
  sec : ∀ i s sec, secs[i]? = some s → s.sec = some sec → sec.version = info.rotations % 32 ∧
    sec.number = i % 256 ∧ ∃ rnd, sec.entries = emmEntries c rnd data info.receivers i

/-- The live sections. -/
structure LiveOk (c : BissCrypto) (v : EmmView) : Prop where
  built : ∃ data, Built c v.liveInfo data v.emmSecs ∧ (v.liveNew → data = v.data)
  few : v.liveInfo.receivers.length ≤ maxReceivers
  le : v.liveInfo.rotations ≤ v.skEpoch ∧ v.liveInfo.reloads ≤ v.reloads
  receivers : v.liveInfo.reloads = v.reloads → v.liveInfo.receivers = v.receivers
  sent : ∀ (i : Nat) (s : EmmSlot), v.emmSecs[i]? = some s → s.sent = true →
    ∃ sec, s.sec = some sec ∧ ⟨sec, v.liveInfo⟩ ∈ v.emms
  handed : ∀ x ∈ v.emms, SameTag x.info v.liveInfo →
    ∃ (i : Nat) (s : EmmSlot), v.emmSecs[i]? = some s ∧ s.sec = some x.sec

/-- The build under way. -/
structure BldOk (c : BissCrypto) (v : EmmView) (b : EmmBuild) : Prop where
  data : b.data = v.data
  version : b.version = v.skEpoch % 32
  info : v.bldInfo = v.info
  nSecs : b.nSecs = sectionCount v.receivers
  next : b.next < b.nSecs
  inPlace : b.inPlace = true → v.liveInfo = v.info ∧ v.liveNew = true ∧ v.emmSecs ≠ [] ∧
    ∀ i s, b.next ≤ i → v.emmSecs[i]? = some s → s.sec = none ∧ s.sent = false
  shadow : b.inPlace = false → Built c v.info b.data b.secs ∧
    ∀ (i : Nat) (s : EmmSlot), b.secs[i]? = some s → s.sent = false

/-- A build is to begin, or is under way beside the live sections. -/
def Coming (v : EmmView) : Prop := v.emmDirty = true ∨ ∃ b, v.bld = some b ∧ b.inPlace = false

structure EmmInv (c : BissCrypto) (v : EmmView) : Prop where
  receivers : v.receivers.length ≠ 0 ∧ v.receivers.length ≤ maxReceivers
  version : v.emmVersion = v.skEpoch % 32
  count : v.nSent = v.emmSecs.countP EmmSlot.sent
  live : v.emmSecs ≠ [] → LiveOk c v
  bld : ∀ b, v.bld = some b → BldOk c v b
  dirty : v.emmDirty = true → v.bld = none
  coming : Coming v → (∀ x ∈ v.emms, ¬ SameTag x.info v.info) ∧ (v.emmSecs ≠ [] → ¬ SameTag v.liveInfo v.info)
  emms : ∀ x ∈ v.emms, x.sec.version = x.info.rotations % 32 ∧ x.info.rotations ≤ v.skEpoch ∧
    x.info.reloads ≤ v.reloads
  once : ∀ x ∈ v.emms, ∀ y ∈ v.emms, SameTag x.info y.info → x.sec.number = y.sec.number → x.sec = y.sec

theorem sectionCount_pos (receivers : List Receiver) : 0 < sectionCount receivers := by
  rw [sectionCount]
  split
  · next h => exact div_pos (by simp only [entriesPerSection]; omega) (by decide)
  · exact one_pos

theorem sectionCount_le {receivers : List Receiver} (h : receivers.length ≤ maxReceivers) :
    sectionCount receivers ≤ 256 := by
  simp only [maxReceivers, maxSections, entriesPerSection] at h
  rw [sectionCount]
  split
  · simp only [entriesPerSection]
    omega
  · omega

theorem built_empty (c : BissCrypto) (info : BuildInfo) (data : List UInt8) :
    Built c info data (List.replicate (sectionCount info.receivers) {}) := by
  refine ⟨List.length_replicate, fun i s sec hs hsec => ?_⟩
  obtain rfl := List.eq_of_mem_replicate (List.mem_of_getElem? hs)
  cases hsec

/-! ## A build -/

variable {c : BissCrypto} {v : EmmView}

theorem beginInPlace_inv (h : EmmInv c v) (hdirty : v.emmDirty = true) : EmmInv c { v with
      bld := some ⟨List.replicate (sectionCount v.receivers) {}, sectionCount v.receivers, 0, v.data, v.emmVersion,
        true⟩
      emmDirty := false
      emmSecs := List.replicate (sectionCount v.receivers) {}
      nSent := 0
      liveNew := true
      bldInfo := v.info
      liveInfo := v.info } := by
  obtain ⟨hfresh, -⟩ := h.coming (.inl hdirty)
  have hpos := sectionCount_pos v.receivers
  have hempty : ∀ (i : Nat) (s : EmmSlot), (List.replicate (sectionCount v.receivers) ({} : EmmSlot))[i]? = some s →
      s.sec = none ∧ s.sent = false := by
    intro i s hs
    obtain rfl := List.eq_of_mem_replicate (List.mem_of_getElem? hs)
    exact ⟨rfl, rfl⟩
  have hne : List.replicate (sectionCount v.receivers) ({} : EmmSlot) ≠ [] := fun hnil => by
    have := congrArg List.length hnil
    rw [List.length_replicate, List.length_nil] at this
    omega
  refine ⟨h.receivers, h.version, ?_, fun _ => ⟨?_, ?_, ⟨le_rfl, le_rfl⟩, fun _ => rfl, ?_, ?_⟩,
    fun b hb => ?_, nofun, ?_, h.emms, h.once⟩
  · symm
    rw [List.countP_eq_zero]
    intro s hs
    rw [List.eq_of_mem_replicate hs]
    nofun
  · exact ⟨v.data, built_empty c v.info v.data, fun _ => rfl⟩
  · exact h.receivers.2
  · intro i s hs hsent
    rw [(hempty i s hs).2] at hsent
    cases hsent
  · intro x hx htag
    exact absurd htag (hfresh x hx)
  · cases hb
    exact ⟨rfl, h.version, rfl, rfl, hpos, fun _ => ⟨rfl, rfl, hne, fun i s _ hs => hempty i s hs⟩, nofun⟩
  · rintro (hd | ⟨b, hb, hshadow⟩)
    · cases hd
    · cases hb
      cases hshadow

theorem beginShadow_inv (h : EmmInv c v) (hdirty : v.emmDirty = true) : EmmInv c { v with
      bld := some ⟨List.replicate (sectionCount v.receivers) {}, sectionCount v.receivers, 0, v.data, v.emmVersion,
        false⟩
      emmDirty := false
      bldInfo := v.info } := by
  have hcoming := h.coming (.inl hdirty)
  refine { h with live := fun hne => ?_, bld := fun b hb => ?_, dirty := nofun, coming := fun _ => hcoming }
  · have hlive := h.live hne
    exact { hlive with }
  · cases hb
    refine ⟨rfl, h.version, rfl, rfl, sectionCount_pos v.receivers, nofun,
      fun _ => ⟨built_empty c v.info v.data, fun i s hs => ?_⟩⟩
    rw [List.eq_of_mem_replicate (List.mem_of_getElem? hs)]

variable {R : BissRun}

theorem emmBegin_inv (h : EmmInv c R.view) : EmmInv c R.emmBegin.view := by
  unfold BissRun.emmBegin
  split
  · next hbegin =>
    by_cases hempty : R.e.emmSecs.length = 0
    · have hview := beginInPlace_inv h hbegin.1
      simp only [BissRun.view, emmBuildBegin, hempty, decide_true, if_true]
      exact hview
    · have hview := beginShadow_inv h hbegin.1
      simp only [BissRun.view, emmBuildBegin, hempty, decide_false, if_false]
      exact hview
  · exact h

theorem getElem?_putSection (secs : List EmmSlot) (i : Nat) (sec : EmmSection) (j : Nat) :
    (putSection secs i sec)[j]? = (secs[j]?).map fun s => if i = j then { s with sec := some sec } else s := by
  rw [putSection, List.getElem?_modify]
  rfl

variable {secs : List EmmSlot} {i : Nat}

theorem Built.put {info : BuildInfo} {data : List UInt8}
    (h : Built c info data secs) {sec : EmmSection} (hversion : sec.version = info.rotations % 32)
    (hnumber : sec.number = i % 256) (rnd : Nat) (hentries : sec.entries = emmEntries c rnd data info.receivers i) :
    Built c info data (putSection secs i sec) := by
  refine ⟨?_, fun j s sec' hs hsec => ?_⟩
  · rw [putSection, List.length_modify]
    exact h.length
  rw [getElem?_putSection] at hs
  obtain ⟨s', hs', rfl⟩ := map_eq_some_iff.1 hs
  by_cases hij : i = j
  · subst hij
    rw [if_pos rfl] at hsec
    cases hsec
    exact ⟨hversion, hnumber, rnd, hentries⟩
  · rw [if_neg hij] at hsec
    exact h.sec j s' sec' hs' hsec

theorem countP_putSection (secs : List EmmSlot) (i : Nat) (sec : EmmSection) :
    (putSection secs i sec).countP EmmSlot.sent = secs.countP EmmSlot.sent := by
  have hmap : (putSection secs i sec).map EmmSlot.sent = secs.map EmmSlot.sent := by
    apply List.ext_getElem?
    intro j
    rw [List.getElem?_map, List.getElem?_map, getElem?_putSection, map_map]
    congr 1
    funext s
    split <;> rfl
  have hcount : ∀ l : List EmmSlot, l.countP EmmSlot.sent = (l.map EmmSlot.sent).countP id := fun l => by
    rw [List.countP_map]
    rfl
  rw [hcount, hcount, hmap]

theorem putLive_inv (h : EmmInv c v) {b : EmmBuild} (hb : v.bld = some b) (hin : b.inPlace = true)
    (sec : EmmSection) (hversion : sec.version = v.skEpoch % 32) (hnumber : sec.number = b.next % 256) (rnd : Nat)
    (hentries : sec.entries = emmEntries c rnd b.data v.receivers b.next) : EmmInv c { v with
      emmSecs := putSection v.emmSecs b.next sec
      bld := if b.next + 1 < b.nSecs then some { b with next := b.next + 1 } else none } := by
  have hbld := h.bld b hb
  obtain ⟨hinfo, hnew, hne, hrest⟩ := hbld.inPlace hin
  have hlive := h.live hne
  -- the slot of the section was neither filled nor sent before
  have hslot : ∀ (i : Nat) (s : EmmSlot), (putSection v.emmSecs b.next sec)[i]? = some s → i ≠ b.next →
      v.emmSecs[i]? = some s := by
    intro i s hs hi
    rw [getElem?_putSection] at hs
    obtain ⟨s', hs', rfl⟩ := map_eq_some_iff.1 hs
    rw [if_neg hi.symm]
    exact hs'
  have hsame : ∀ (i : Nat) (s : EmmSlot), v.emmSecs[i]? = some s → i ≠ b.next →
      (putSection v.emmSecs b.next sec)[i]? = some s := by
    intro i s hs hi
    rw [getElem?_putSection, hs, map_some, if_neg hi.symm]
  refine ⟨h.receivers, h.version, ?_, fun _ => ⟨?_, hlive.few, hlive.le, hlive.receivers, ?_, ?_⟩, fun b' hb' => ?_,
    ?_, ?_, h.emms, h.once⟩
  · simp only [countP_putSection]
    exact h.count
  · obtain ⟨data, hbuilt, hdata⟩ := hlive.built
    obtain rfl := hdata hnew
    refine ⟨v.data, ?_, fun _ => rfl⟩
    rw [hbld.data] at hentries
    refine hbuilt.put ?_ hnumber rnd ?_
    · rw [hversion, hinfo]
      rfl
    · rw [hentries, hinfo]
      rfl
  · intro i s hs hsent
    by_cases hi : i = b.next
    · rw [getElem?_putSection, hi] at hs
      obtain ⟨s', hs', rfl⟩ := map_eq_some_iff.1 hs
      rw [if_pos rfl] at hsent
      have hnot := (hrest b.next s' le_rfl hs').2
      exact nomatch hsent.symm.trans hnot
    · exact hlive.sent i s (hslot i s hs hi) hsent
  · intro x hx htag
    obtain ⟨i, s, hs, hsec⟩ := hlive.handed x hx htag
    refine ⟨i, s, hsame i s hs fun hi => ?_, hsec⟩
    have hnone := (hrest i s (by omega) hs).1
    exact nomatch hsec.symm.trans hnone
  · split at hb'
    · next hmore =>
      cases hb'
      refine { hbld with next := hmore, inPlace := fun _ => ⟨hinfo, hnew, ?_, ?_⟩, shadow := ?_ }
      · intro hnil
        exact hne (List.modify_eq_nil_iff.1 hnil)
      · intro i s hi hs
        have hi : b.next + 1 ≤ i := hi
        exact hrest i s (by omega) (hslot i s hs (by omega))
      · intro hshadow
        exact nomatch hin.symm.trans hshadow
    · cases hb'
  · intro hd
    have hnone := h.dirty hd
    exact nomatch hb.symm.trans hnone
  · rintro (hd | ⟨b', hb', hshadow⟩)
    · exact nomatch hb.symm.trans (h.dirty hd)
    · split at hb'
      · cases hb'
        exact nomatch hin.symm.trans hshadow
      · cases hb'

theorem putShadow_inv (h : EmmInv c v) {b : EmmBuild} (hb : v.bld = some b) (hin : b.inPlace = false)
    (sec : EmmSection) (hversion : sec.version = v.skEpoch % 32) (hnumber : sec.number = b.next % 256) (rnd : Nat)
    (hentries : sec.entries = emmEntries c rnd b.data v.receivers b.next) : EmmInv c (if b.next + 1 < b.nSecs then
        { v with bld := some { b with secs := putSection b.secs b.next sec, next := b.next + 1 } }
      else { v with
        emmSecs := putSection b.secs b.next sec
        nSent := 0
        liveNew := true
        bld := none
        liveInfo := v.bldInfo }) := by
  have hbld := h.bld b hb
  obtain ⟨hbuilt, hunsent⟩ := hbld.shadow hin
  have hbuilt' : Built c v.info b.data (putSection b.secs b.next sec) := hbuilt.put hversion hnumber rnd hentries
  have hunsent' : ∀ (i : Nat) (s : EmmSlot), (putSection b.secs b.next sec)[i]? = some s → s.sent = false := by
    intro i s hs
    rw [getElem?_putSection] at hs
    obtain ⟨s', hs', rfl⟩ := map_eq_some_iff.1 hs
    have hnot := hunsent i s' hs'
    split <;> exact hnot
  have hcoming := h.coming (.inr ⟨b, hb, hin⟩)
  have hnotDirty : ¬ v.emmDirty = true := fun hd => nomatch hb.symm.trans (h.dirty hd)
  split
  · next hmore =>
    refine { h with live := fun hne => ?_, bld := fun b' hb' => ?_, dirty := fun hd => absurd hd hnotDirty, coming := fun _ => hcoming }
    · have hlive := h.live hne
      exact { hlive with }
    · cases hb'
      refine { hbld with next := hmore, inPlace := fun hin' => ?_, shadow := fun _ => ⟨hbuilt', hunsent'⟩ }
      exact nomatch hin.symm.trans hin'
  refine ⟨h.receivers, h.version, ?_, fun _ => ⟨⟨b.data, ?_, fun _ => hbld.data⟩, ?_, ?_, ?_, ?_, ?_⟩, nofun,
    fun _ => rfl, ?_, h.emms, h.once⟩
  · symm
    rw [List.countP_eq_zero]
    intro s hs
    obtain ⟨i, hi⟩ := List.mem_iff_getElem?.1 hs
    rw [hunsent' i s hi]
    nofun
  · simp only [hbld.info]
    exact hbuilt'
  · simp only [hbld.info]
    exact h.receivers.2
  · simp only [hbld.info]
    exact ⟨le_rfl, le_rfl⟩
  · simp only [hbld.info]
    exact fun _ => rfl
  · intro i s hs hsent
    rw [hunsent' i s hs] at hsent
    cases hsent
  · intro x hx htag
    simp only [hbld.info] at htag
    exact absurd htag (hcoming.1 x hx)
  · rintro (hd | ⟨b', hb', -⟩)
    · exact absurd hd hnotDirty
    · cases hb'

theorem len_le (c : BissCrypto) (rnd : Nat) (data : List UInt8) (receivers : List Receiver) (version number last k : Nat) :
    (EmmSection.mk version number last (emmEntries c rnd data receivers k)).len ≤ emmBufSize := by
  have hlen : (emmEntries c rnd data receivers k).length ≤ entriesPerSection := by
    rw [emmEntries, List.length_map]
    exact List.length_take_le _ _
  simp only [EmmSection.len, emmBufSize, entriesPerSection] at hlen ⊢
  omega

theorem emmStep_inv (rnd : Nat) (h : EmmInv c R.view) : EmmInv c (R.emmStep c rnd).view := by
  unfold BissRun.emmStep emmBuildStep
  cases hb : R.e.bld with
  | none => exact h
  | some b =>
    have hbld := h.bld b hb
    simp only []
    rw [if_neg (not_lt.2 (len_le c rnd b.data R.e.receivers _ _ _ _))]
    obtain hin | hin := Bool.eq_false_or_eq_true b.inPlace
    · have hput := putLive_inv h hb hin ⟨b.version, b.next % 256, (b.nSecs - 1) % 256,
        emmEntries c rnd b.data R.e.receivers b.next⟩ hbld.version rfl rnd rfl
      by_cases hmore : b.next + 1 < b.nSecs
      · simp only [if_pos hmore] at hput
        simp only [hin, if_pos hmore, if_true]
        rw [hin] at hput
        exact hput
      · simp only [if_neg hmore] at hput
        simp only [hin, if_neg hmore, if_true]
        exact hput
    have hput := putShadow_inv h hb hin ⟨b.version, b.next % 256, (b.nSecs - 1) % 256,
      emmEntries c rnd b.data R.e.receivers b.next⟩ hbld.version rfl rnd rfl
    by_cases hmore : b.next + 1 < b.nSecs
    · rw [if_pos hmore] at hput
      simp only [hin, hmore, if_true, not_true_eq_false, and_false, if_false, Bool.false_eq_true]
      rw [hin] at hput
      exact hput
    · rw [if_neg hmore] at hput
      simp only [hin, hmore, if_false, Bool.false_eq_true]
      exact hput

/-! ## Sections handed out -/

variable {s : EmmSlot} (hs : secs[i]? = some s)

include hs

/-- The slots after one is marked as sent: only that one is another, and its section is the same. -/
theorem getElem?_sent (now : ℚ) {j : Nat}
    {t : EmmSlot} (ht : (secs.set i { s with lastSend := now, sent := true })[j]? = some t) :
    ∃ u, secs[j]? = some u ∧ t.sec = u.sec ∧ (t.sent = true → u.sent = true ∨ j = i) := by
  rw [List.getElem?_set] at ht
  split at ht
  · next hij =>
    subst hij
    rw [if_pos (List.getElem?_eq_some_iff.1 hs).1] at ht
    cases ht
    exact ⟨s, hs, rfl, fun _ => .inr rfl⟩
  · exact ⟨t, ht, rfl, .inl⟩

theorem getElem?_sent_of (now : ℚ) {j : Nat} {u : EmmSlot} (hu : secs[j]? = some u) :
    ∃ t, (secs.set i { s with lastSend := now, sent := true })[j]? = some t ∧ t.sec = u.sec := by
  by_cases hij : i = j
  · subst hij
    obtain rfl := some.inj (hs.symm.trans hu)
    exact ⟨_, List.getElem?_set_self (List.getElem?_eq_some_iff.1 hs).1, rfl⟩
  · exact ⟨u, (List.getElem?_set_ne hij).trans hu, rfl⟩

theorem countP_sent (now : ℚ) : (secs.set i { s with lastSend := now, sent := true }).countP EmmSlot.sent =
      if s.sent then secs.countP EmmSlot.sent else secs.countP EmmSlot.sent + 1 := by
  obtain ⟨hlt, hget⟩ := List.getElem?_eq_some_iff.1 hs
  rw [List.countP_set hlt, hget]
  by_cases hsent : s.sent = true
  · have hpos : 0 < secs.countP EmmSlot.sent := List.countP_pos_iff.2 ⟨s, List.mem_of_getElem? hs, hsent⟩
    simp only [hsent, if_true]
    omega
  · simp only [if_neg hsent, if_true, Nat.sub_zero]

omit hs

theorem handOut_inv (h : EmmInv c v) (hs : v.emmSecs[i]? = some s) {sec : EmmSection} (hsec : s.sec = some sec)
    (now : ℚ) : EmmInv c { v with
      emmSecs := v.emmSecs.set i { s with lastSend := now, sent := true }
      nSent := if s.sent then v.nSent else v.nSent + 1
      emms := v.emms ++ [⟨sec, v.liveInfo⟩] } := by
  have hne : v.emmSecs ≠ [] := fun hnil => by
    rw [hnil] at hs
    cases hs
  have hlive := h.live hne
  obtain ⟨data, hbuilt, hdata⟩ := hlive.built
  have hlt : ∀ {j : Nat} {t : EmmSlot}, v.emmSecs[j]? = some t → j < 256 := by
    intro j t ht
    have hlen := (List.getElem?_eq_some_iff.1 ht).1
    rw [hbuilt.length] at hlen
    exact lt_of_lt_of_le hlen (sectionCount_le hlive.few)
  refine ⟨h.receivers, h.version, ?_, fun _ => ⟨⟨data, ⟨?_, ?_⟩, hdata⟩, hlive.few, hlive.le, hlive.receivers, ?_, ?_⟩,
    fun b hb => ?_, h.dirty, fun hcoming => ⟨fun x hx => ?_, fun _ => ?_⟩, fun x hx => ?_, ?_⟩
  · simp only [countP_sent hs, h.count]
  · rw [List.length_set]
    exact hbuilt.length
  · intro j t sec' ht hsec'
    obtain ⟨u, hu, hsame, -⟩ := getElem?_sent hs now ht
    exact hbuilt.sec j u sec' hu (hsame ▸ hsec')
  · intro j t ht hsent
    obtain ⟨u, hu, hsame, hor⟩ := getElem?_sent hs now ht
    rcases hor hsent with hold | rfl
    · obtain ⟨sec', hsec', hmem⟩ := hlive.sent j u hu hold
      exact ⟨sec', hsame.trans hsec', List.mem_append_left _ hmem⟩
    · obtain rfl := some.inj (hs.symm.trans hu)
      exact ⟨sec, hsame.trans hsec, List.mem_append_right _ (List.mem_singleton.2 rfl)⟩
  · intro x hx htag
    rcases List.mem_append.1 hx with hx | hx
    · obtain ⟨j, u, hu, husec⟩ := hlive.handed x hx htag
      obtain ⟨t, ht, hsame⟩ := getElem?_sent_of hs now hu
      exact ⟨j, t, ht, hsame.trans husec⟩
    · obtain rfl := List.mem_singleton.1 hx
      obtain ⟨t, ht, hsame⟩ := getElem?_sent_of hs now hs
      exact ⟨i, t, ht, hsame.trans hsec⟩
  · have hbld := h.bld b hb
    refine { hbld with inPlace := fun hin => ?_ }
    obtain ⟨hinfo, hnew, -, hrest⟩ := hbld.inPlace hin
    refine ⟨hinfo, hnew, fun hnil => hne ((List.set_eq_nil_iff _ _).1 hnil), fun j t hj ht => ?_⟩
    obtain ⟨u, hu, hsame, hor⟩ := getElem?_sent hs now ht
    obtain ⟨hnone, hunsent⟩ := hrest j u hj hu
    refine ⟨hsame.trans hnone, ?_⟩
    by_contra hsent
    rcases hor (Bool.not_eq_false _ ▸ hsent) with hold | rfl
    · exact nomatch hold.symm.trans hunsent
    · obtain rfl := some.inj (hs.symm.trans hu)
      exact nomatch hsec.symm.trans hnone
  · rcases List.mem_append.1 hx with hx | hx
    · exact (h.coming hcoming).1 x hx
    · obtain rfl := List.mem_singleton.1 hx
      exact (h.coming hcoming).2 hne
  · exact (h.coming hcoming).2 hne
  · rcases List.mem_append.1 hx with hx | hx
    · exact h.emms x hx
    · obtain rfl := List.mem_singleton.1 hx
      exact ⟨(hbuilt.sec i s sec hs hsec).1, hlive.le⟩
  · -- an earlier section of the same build with the same number is in the same slot
    have hnew : ∀ y ∈ v.emms, SameTag y.info v.liveInfo → y.sec.number = sec.number → y.sec = sec := by
      intro y hy htag hnumber
      obtain ⟨j, u, hu, husec⟩ := hlive.handed y hy htag
      have hj := (hbuilt.sec j u y.sec hu husec).2.1
      have hi := (hbuilt.sec i s sec hs hsec).2.1
      have hjlt := hlt hu
      have hilt := hlt hs
      have hij : j = i := by
        rw [hj, hi, mod_eq_of_lt hjlt, mod_eq_of_lt hilt] at hnumber
        exact hnumber
      subst hij
      obtain rfl := some.inj (hs.symm.trans hu)
      exact some.inj (husec.symm.trans hsec)
    intro x hx y hy htag hnumber
    rcases List.mem_append.1 hx with hx | hx
    · rcases List.mem_append.1 hy with hy | hy
      · exact h.once x hx y hy htag hnumber
      · obtain rfl := List.mem_singleton.1 hy
        exact hnew x hx htag hnumber
    · obtain rfl := List.mem_singleton.1 hx
      rcases List.mem_append.1 hy with hy | hy
      · exact (hnew y hy ⟨htag.1.symm, htag.2.symm⟩ hnumber.symm).symm
      · obtain rfl := List.mem_singleton.1 hy
        rfl

theorem emmSend_cases (now : ℚ) (cap : Nat) (e : BissCa) :
    (e.emmSend now cap) = (none, e) ∨ ∃ i s sec, e.emmSecs[i]? = some s ∧ s.sec = some sec ∧
      e.emmSend now cap = (some sec, (e.markSent now i s).activateIfSent) := by
  unfold emmSend
  cases hdue : e.dueIndex now cap with
  | none => exact .inl rfl
  | some i =>
    simp only []
    cases hs : e.emmSecs[i]? with
    | none => exact .inl rfl
    | some s =>
      have hfound := List.find?_some hdue
      simp only [hs, map_some, getD_some, EmmSlot.due] at hfound
      cases hsec : s.sec with
      | none =>
        rw [hsec] at hfound
        cases hfound
      | some sec => exact .inr ⟨i, s, sec, hs, hsec, by simp only [hsec]⟩

theorem activateIfSent_view (R : BissRun) : { R with e := R.e.activateIfSent }.view = R.view := by
  simp only [activateIfSent]
  split <;> rfl

theorem emmSend_inv (now : ℚ) (cap : Nat) (h : EmmInv c R.view) : EmmInv c (R.emmSend now cap).view := by
  rw [BissRun.emmSend]
  rcases emmSend_cases now cap R.e with hnone | ⟨i, s, sec, hs, hsec, hsend⟩
  · simp only [hnone, map_none, toList_none, List.append_nil]
    exact h
  simp only [hsend, map_some, toList_some]
  have hview := activateIfSent_view { R with
    e := R.e.markSent now i s
    emms := R.emms ++ [⟨sec, R.liveInfo⟩] }
  have hinv : EmmInv c ({ R with
      e := R.e.markSent now i s
      emms := R.emms ++ [⟨sec, R.liveInfo⟩] } : BissRun).view := handOut_inv h hs hsec now
  rw [← hview] at hinv
  exact hinv

/-! ## Another key, other receivers -/

/-- A build is given up, and another one is to begin for another key or other receivers. -/
theorem restart_inv (h : EmmInv c v) {w : EmmView}
    (hreceivers : w.receivers.length ≠ 0 ∧ w.receivers.length ≤ maxReceivers)
    (hversion : w.emmVersion = w.skEpoch % 32) (hbld : w.bld = none)
    (hsecs : w.emmSecs = [] ∧ w.nSent = 0 ∨ w.emmSecs = v.emmSecs ∧ w.nSent = v.nSent)
    (hlive : w.liveInfo = v.liveInfo) (hemms : w.emms = v.emms)
    (hnew : w.liveNew = true → v.liveNew = true ∧ w.data = v.data)
    (hlater : v.skEpoch < w.skEpoch ∧ v.reloads = w.reloads ∧ v.receivers = w.receivers ∨ v.skEpoch = w.skEpoch ∧ v.reloads < w.reloads) :
    EmmInv c w := by
  have hle : v.skEpoch ≤ w.skEpoch ∧ v.reloads ≤ w.reloads := by omega
  have hother : ∀ info : BuildInfo, info.rotations ≤ v.skEpoch → info.reloads ≤ v.reloads → ¬ SameTag info w.info := by
    rintro info hrot hrel ⟨h1, h2⟩
    have h1 : info.rotations = w.skEpoch := h1
    have h2 : info.reloads = w.reloads := h2
    omega
  have hlive' : w.emmSecs ≠ [] → w.emmSecs = v.emmSecs ∧ v.emmSecs ≠ [] := by
    intro hne
    rcases hsecs with hnil | hsame
    · exact absurd hnil.1 hne
    · exact ⟨hsame.1, hsame.1 ▸ hne⟩
  refine ⟨hreceivers, hversion, ?_, fun hne => ?_, fun b hb => ?_, fun _ => hbld, fun _ => ⟨?_, ?_⟩, ?_, ?_⟩
  · rcases hsecs with ⟨hnil, hzero⟩ | ⟨hsame, hcount⟩
    · rw [hnil, hzero]
      rfl
    · rw [hsame, hcount]
      exact h.count
  · obtain ⟨hsame, hne'⟩ := hlive' hne
    have hl := h.live hne'
    obtain ⟨data, hbuilt, hdata⟩ := hl.built
    refine ⟨⟨data, ?_, fun hn => ?_⟩, ?_, ?_, ?_, ?_, ?_⟩
    · rw [hlive, hsame]
      exact hbuilt
    · obtain ⟨hold, hsameData⟩ := hnew hn
      rw [hsameData]
      exact hdata hold
    · rw [hlive]
      exact hl.few
    · rw [hlive]
      exact ⟨le_trans hl.le.1 hle.1, le_trans hl.le.2 hle.2⟩
    · rw [hlive]
      intro hrel
      rcases hlater with ⟨-, hrels, hrecv⟩ | ⟨-, hmore⟩
      · rw [← hrecv]
        exact hl.receivers (by omega)
      · have := hl.le.2
        omega
    · rw [hlive, hsame, hemms]
      exact hl.sent
    · rw [hlive, hsame, hemms]
      exact hl.handed
  · rw [hbld] at hb
    cases hb
  · rw [hemms]
    exact fun x hx => hother x.info (h.emms x hx).2.1 (h.emms x hx).2.2
  · intro hne
    have hl := h.live (hlive' hne).2
    rw [hlive]
    exact hother v.liveInfo hl.le.1 hl.le.2
  · rw [hemms]
    intro x hx
    obtain ⟨hver, hrot, hrel⟩ := h.emms x hx
    exact ⟨hver, le_trans hrot hle.1, le_trans hrel hle.2⟩
  · rw [hemms]
    exact h.once

theorem loadReceivers_length (found : List Receiver) : (loadReceivers found).length ≤ maxReceivers := by
  have hfold : ∀ set : List Receiver, set.length ≤ maxReceivers → (found.foldl loadVisit set).length ≤ maxReceivers := by
    induction found with
    | nil => exact fun set h => h
    | cons r found ih =>
      intro set h
      refine ih _ ?_
      rw [loadVisit]
      split
      · exact h
      · split
        · exact h
        · next hfull =>
          rw [List.length_append, List.length_singleton]
          exact not_le.1 hfull
  exact hfold [] (zero_le _)

theorem emmBuildAbort_spec (e : BissCa) : ∃ secs n, e.emmBuildAbort = { e with emmSecs := secs, nSent := n, bld := none } ∧
    (secs = [] ∧ n = 0 ∨ secs = e.emmSecs ∧ n = e.nSent) := by
  unfold emmBuildAbort
  cases hb : e.bld with
  | none =>
    refine ⟨e.emmSecs, e.nSent, ?_, .inr ⟨rfl, rfl⟩⟩
    obtain ⟨⟩ := e
    obtain rfl : _ = none := hb
    rfl
  | some b =>
    simp only []
    split
    · exact ⟨[], 0, rfl, .inl ⟨rfl, rfl⟩⟩
    · exact ⟨e.emmSecs, e.nSent, rfl, .inr ⟨rfl, rfl⟩⟩

theorem rotateSk_inv (h : EmmInv c R.view) (fresh : List UInt8) : EmmInv c { R with e := R.e.rotateSk fresh }.view := by
  rw [rotateSk]
  obtain ⟨secs, n, habort, hsecs⟩ := emmBuildAbort_spec { R.e with
    skEmm := fresh
    skEmmParity := epochParity (R.e.skEpoch + 1)
    skEpoch := R.e.skEpoch + 1
    emmVersion := (R.e.emmVersion + 1) &&& 0x1F
    skPending := true
    liveNew := false }
  simp only [habort]
  have hversion : (R.e.emmVersion + 1) &&& 0x1F = (R.e.skEpoch + 1) % 32 := by
    have hver : R.e.emmVersion = R.e.skEpoch % 32 := h.version
    rw [hver, and_two_pow_sub_one_eq_mod _ 5]
    omega
  exact restart_inv h h.receivers hversion rfl hsecs rfl rfl nofun (.inl ⟨lt_succ_self _, rfl, rfl⟩)

theorem reloaded_inv (h : EmmInv c R.view) (found : List Receiver) :
    EmmInv c (R.reloaded found (R.e.reloadReceivers found).2).view := by
  rw [BissRun.reloaded, reloadReceivers]
  by_cases hnone : (loadReceivers found).length = 0
  · simp only [if_pos hnone]
    exact h
  · simp only [if_neg hnone]
    obtain ⟨secs, n, habort, hsecs⟩ := emmBuildAbort_spec { R.e with receivers := loadReceivers found }
    simp only [habort]
    exact restart_inv h ⟨hnone, loadReceivers_length found⟩ h.version rfl hsecs rfl rfl (fun hn => ⟨hn, rfl⟩)
      (.inr ⟨rfl, lt_succ_self _⟩)

theorem forceSkRotation_view (R : BissRun) : { R with e := R.e.forceSkRotation }.view = R.view := by
  simp only [forceSkRotation]
  split <;> rfl

theorem ecmDue_view (c : BissCrypto) (iv : List UInt8) (now : ℚ) (cap : Nat) (R : BissRun) :
    { R with e := (R.e.ecmDue c iv now cap).2 }.view = R.view := by
  have hbuild : { R with e := if R.e.ecmDirty then R.e.rebuildEcm c iv else R.e }.view = R.view := by
    split <;> rfl
  rw [ecmDue]
  generalize (if R.e.ecmDirty then R.e.rebuildEcm c iv else R.e) = e at hbuild
  split
  · exact hbuild
  · split
    · exact hbuild
    · split <;> exact hbuild

theorem rotateSw_view (b : Backend) (fails : Bool) (fresh : List UInt8) (R : BissRun) :
    { R with e := (R.e.rotateSw b fails fresh).2 }.view = R.view := by
  rw [rotateSw]
  simp only []
  split <;> rfl

theorem scramble_inv (h : EmmInv c R.view) (b : Backend) (fails : Bool)
    (freshSw freshSk : List UInt8) (outPid : Nat) (now : ℚ) (pkt : List UInt8) :
    EmmInv c { R with e := (R.e.scramblePacket b fails freshSw freshSk outPid now pkt).2 }.view := by
  have hrotate : EmmInv c { R with e := (R.e.rotate b fails freshSw freshSk).2 }.view := by
    rw [rotate]
    by_cases hsw : R.e.sinceSwMs ≥ R.e.swPeriodMs
    · have hinv : EmmInv c { R with e := { (R.e.rotateSw b fails freshSw).2 with sinceSwMs := 0 } }.view :=
        (rotateSw_view b fails freshSw R).symm ▸ h
      simp only [if_pos hsw]
      split
      · exact rotateSk_inv hinv freshSk
      · exact hinv
    · simp only [if_neg hsw]
      split
      · exact rotateSk_inv h freshSk
      · exact h
  exact hrotate

theorem step_inv (h : EmmInv c R.view) (b : Backend) (ev : BissEvent) : EmmInv c (R.step b c ev).view := by
  cases ev with
  | tick deltaMs => exact h
  | scramble fails freshSw freshSk outPid now pkt =>
    exact scramble_inv h b fails freshSw.1 freshSk.1 outPid now pkt
  | ecmDue iv now cap => exact (ecmDue_view c iv now cap R).symm ▸ h
  | emmDue rnd now cap => exact emmSend_inv now cap (emmStep_inv rnd (emmBegin_inv h))
  | reload found => exact reloaded_inv h found
  | coreReload found =>
    have hreload := reloaded_inv h found
    show EmmInv c (R.reloaded found (R.e.coreReload found)).view
    rw [coreReload]
    simp only []
    split
    · exact (forceSkRotation_view (R.reloaded found (R.e.reloadReceivers found).2)).symm ▸ hreload
    · exact hreload
  | forceRotation => exact (forceSkRotation_view R).symm ▸ h

theorem BissReach.emmInv {b : Backend} {sk0 : List UInt8} (h : BissReach b c sk0 R) : EmmInv c R.view := by
  induction h with
  | @start pids flushPid swPeriodMs found swEven swOdd sk e hsk he =>
    obtain ⟨scr, -, hrecv, rfl⟩ := start_spec he
    exact ⟨⟨hrecv, loadReceivers_length found⟩, rfl, rfl, absurd rfl, nofun, fun _ => rfl,
      fun _ => ⟨nofun, absurd rfl⟩, nofun, nofun⟩
  | step _ ev ih => exact step_inv ih b ev

end DvbIpiTools.Cas
