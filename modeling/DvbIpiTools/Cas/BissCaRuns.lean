import DvbIpiTools.Cas.BissCa

set_option autoImplicit false

/-! # Runs of BISS-CA, and the session words

A run keeps beside the engine what the ECM had to say in every epoch of the session words, which sections were
handed out, and for which receivers they were built. -/

namespace DvbIpiTools.Cas

/-- A session word or key. -/
abbrev Key16 : Type := { w : List UInt8 // w.length = 16 }

inductive BissEvent
  | tick (deltaMs : Nat)
  | scramble (fails : Bool) (freshSw freshSk : Key16) (outPid : Nat) (now : ℚ) (pkt : List UInt8)
  | ecmDue (iv : List UInt8) (now : ℚ) (cap : Nat)
  | emmDue (rnd : Nat) (now : ℚ) (cap : Nat)
  | reload (found : List Receiver)
  | coreReload (found : List Receiver)
  | forceRotation

/-- What the sections of a build were made from: the receivers, the session keys and the reloads before it. -/
structure BuildInfo where
  receivers : List Receiver
  rotations : Nat
  reloads : Nat

/-- A section that was handed out. -/
structure HandedEmm where
  sec : EmmSection
  info : BuildInfo

/-- An ECM that was handed out, with the epoch of the session words, the EMM sections handed out before it, and
    for its key what `BissRun.skFor` has. -/
structure HandedEcm where
  ecm : EcmSection
  epoch : Nat
  before : List HandedEmm
  skFor : Option (BuildInfo × BuildInfo)

structure BissRun where
  e : BissCa
  /-- the epoch and the words of the ECM in every state so far -/
  past : List (Nat × (Parity → List UInt8))
  reloads : Nat
  /-- the build under way, and the one of the live sections -/
  bldInfo : BuildInfo
  liveInfo : BuildInfo
  emms : List HandedEmm
  /-- for the key in force: the build of the sections that brought it, and what a build would have been made
      from then -/
  skFor : Option (BuildInfo × BuildInfo)
  ecms : List HandedEcm

namespace BissRun

/-- What a build is made from that begins now. -/
def info (R : BissRun) : BuildInfo := ⟨R.e.receivers, R.e.skEpoch, R.reloads⟩

/-- A build begins. -/
def emmBegin (R : BissRun) : BissRun :=
  if R.e.emmDirty ∧ R.e.bld.isNone then
    { R with
      e := R.e.emmBuildBegin
      bldInfo := R.info
      liveInfo := if R.e.emmSecs.length = 0 then R.info else R.liveInfo }
  else R

/-- A build goes on, and takes the place of the live sections with its last step. -/
def emmStep (c : BissCrypto) (rnd : Nat) (R : BissRun) : BissRun := { R with
    e := R.e.emmBuildStep c rnd
    liveInfo := match R.e.bld with
      | none => R.liveInfo
      | some b => if !b.inPlace ∧ ¬ b.next + 1 < b.nSecs then R.bldInfo else R.liveInfo }

/-- A section is handed out; the last one brings a pending key into force. -/
def emmSend (now : ℚ) (cap : Nat) (R : BissRun) : BissRun :=
  let (sec, e) := R.e.emmSend now cap
  { R with
    e
    emms := R.emms ++ (sec.map fun sec => ⟨sec, R.liveInfo⟩).toList
    skFor := if R.e.skPending ∧ e.skPending = false then some (R.liveInfo, R.info) else R.skFor }

/-- The receivers are loaded again. -/
def reloaded (found : List Receiver) (e : BissCa) (R : BissRun) : BissRun :=
  { R with e, reloads := if (loadReceivers found).length = 0 then R.reloads else R.reloads + 1 }

def call (b : Backend) (c : BissCrypto) (R : BissRun) : BissEvent → BissRun
  | .tick deltaMs => { R with e := R.e.clockTick deltaMs }
  | .scramble fails freshSw freshSk outPid now pkt =>
    { R with e := (R.e.scramblePacket b fails freshSw.1 freshSk.1 outPid now pkt).2 }
  | .ecmDue iv now cap =>
    let (ecm, e) := R.e.ecmDue c iv now cap
    { R with e, ecms := R.ecms ++ (ecm.map fun ecm => ⟨ecm, e.swEpoch, R.emms, R.skFor⟩).toList }
  | .emmDue rnd now cap => (R.emmBegin.emmStep c rnd).emmSend now cap
  | .reload found => R.reloaded found (R.e.reloadReceivers found).2
  | .coreReload found => R.reloaded found (R.e.coreReload found)
  | .forceRotation => { R with e := R.e.forceSkRotation }

/-- A call, after which the words of the ECM are noted. -/
def step (b : Backend) (c : BissCrypto) (R : BissRun) (ev : BissEvent) : BissRun :=
  let R := R.call b c ev
  { R with past := R.past ++ [(R.e.swEpoch, R.e.sw)] }

theorem emmDue_e (b : Backend) (c : BissCrypto) (R : BissRun) (rnd : Nat) (now : ℚ) (cap : Nat) :
    (R.step b c (.emmDue rnd now cap)).e = (R.e.emmDue c rnd now cap).2 := by
  show ((R.emmBegin.emmStep c rnd).emmSend now cap).e = _
  rw [BissCa.emmDue, BissCa.emmBegin, emmBegin]
  split <;> rfl

end BissRun

/-- The states of a run. -/
inductive BissReach (b : Backend) (c : BissCrypto) (sk0 : List UInt8) : BissRun → Prop
  | start {pids : List Nat} {flushPid swPeriodMs : Nat} {found : List Receiver} {swEven swOdd sk : Key16}
      {e : BissCa} (hsk : sk.1 = sk0)
      (he : BissCa.start b pids flushPid swPeriodMs found swEven.1 swOdd.1 sk.1 = some e) :
      BissReach b c sk0 ⟨e, [(e.swEpoch, e.sw)], 0, ⟨e.receivers, 0, 0⟩, ⟨e.receivers, 0, 0⟩, [], none, []⟩
  | step {R : BissRun} (h : BissReach b c sk0 R) (ev : BissEvent) : BissReach b c sk0 (R.step b c ev)

/-! ## The scrambler's keys -/

namespace Scrambler

variable (b : Backend)

theorem queueFlush_keys (s : Scrambler) : (s.queueFlush b).2.keys = s.keys := by
  rw [queueFlush]
  split <;> rfl

theorem ensureBatch_keys (s : Scrambler) (mode : QueueMode) (parity : Option Parity) :
    (s.ensureBatch b mode parity).2.keys = s.keys := by
  rw [ensureBatch]
  by_cases h : s.scrambledCount > 0 ∧ (s.mode ≠ mode ∨ s.parity ≠ parity)
  · rw [if_pos h]
    exact queueFlush_keys b s
  · rw [if_neg h]

theorem store_keys (s : Scrambler) (e : Entry) : (s.store b e).2.keys = s.keys := by
  rw [store]
  split
  · simp only []
    split
    · exact queueFlush_keys b _
    · rfl
  · rfl

theorem makeRoom_keys (s : Scrambler) (needsCrypto : Bool) : (s.makeRoom b needsCrypto).2.keys = s.keys := by
  rw [makeRoom]
  split
  · simp only []
    split
    · exact (ensureBatch_keys b _ _ _).trans (queueFlush_keys b s)
    · exact queueFlush_keys b s
  · rfl

theorem queuePush_keys (s : Scrambler) (e : Entry) : (s.queuePush b e).2.keys = s.keys := by
  rw [queuePush]
  split
  · rfl
  · exact (store_keys b _ e).trans (makeRoom_keys b s e.needsCrypto)

theorem encryptPacketQueued_keys (fails : Bool) (s : Scrambler) (pkt : List UInt8) (parity : Int) :
    (s.encryptPacketQueued b fails pkt parity).2.2.keys = s.keys := by
  rw [encryptPacketQueued]
  split
  · rfl
  split
  · rfl
  split
  · unfold immediate
    split <;> rfl
  · simp only []
    split
    · exact queuePush_keys b s _
    · exact (queuePush_keys b _ _).trans (ensureBatch_keys b s _ _)

theorem setKey_keys (fails : Bool) (s : Scrambler) (parity : Int) (cw : List UInt8) :
    (s.setKey b fails parity cw).2.2.keys = s.keys.after (.setKey fails parity cw) := by
  rw [setKey, Keys.after]
  cases parityOf parity with
  | none => rfl
  | some p =>
    simp only []
    have hflush : (if s.scrambledCount > 0 ∧ s.parity = some p then s.queueFlush b else ([], s)).2.keys = s.keys := by
      split
      · exact queueFlush_keys b s
      · rfl
    generalize (if s.scrambledCount > 0 ∧ s.parity = some p then s.queueFlush b else ([], s)) = r at hflush
    by_cases hlen : cw.length = cwLen s.keys.algo
    · rw [if_neg (not_not_intro hlen)]
      cases fails with
      | true =>
        rw [if_pos rfl, if_neg (fun h => Bool.noConfusion h.2)]
        exact hflush
      | false =>
        rw [if_neg Bool.false_ne_true, if_pos ⟨hlen, rfl⟩]
        simp only [hflush]
    · rw [if_pos hlen, if_neg (fun h => hlen h.1)]

end Scrambler

namespace ScrambleEngine

theorem finish_keys {b : Backend} {e : ScrambleEngine} {r : List (List UInt8) × Scrambler}
    (h : r.2.keys = e.scr.keys) (outPid : Nat) (pkt : List UInt8) :
    (e.finish b outPid pkt r).2.scr.keys = e.scr.keys := by
  rw [finish]
  split
  · exact (Scrambler.queueFlush_keys b r.2).trans h
  · exact h

theorem scramblePacket_keys (b : Backend) (fails : Bool) (e : ScrambleEngine) (outPid : Nat)
    (haveSource haveTarget : Bool) (target : Parity) (cwValid : Bool) (now : ℚ) (pkt : List UInt8) :
    (e.scramblePacket b fails outPid haveSource haveTarget target cwValid now pkt).2.scr.keys = e.scr.keys := by
  have hclear : ∀ e : ScrambleEngine, (e.queueClear b outPid pkt).2.scr.keys = e.scr.keys := fun e =>
    finish_keys (Scrambler.queuePush_keys b e.scr _) outPid pkt
  unfold scramblePacket
  split
  · exact hclear e
  split
  · exact hclear e
  · simp only []
    split
    · exact hclear (e.setPidState _)
    · exact finish_keys (Scrambler.encryptPacketQueued_keys b fails _ pkt _) outPid pkt

/-- A control word of the right length is taken unless the key cannot be made. -/
theorem setCw_taken (b : Backend) (fails : Bool) {e : ScrambleEngine} (p : Parity) {cw : List UInt8}
    (hlen : cw.length = cwLen e.scr.keys.algo) (hpos : cw.length ≠ 0) :
    (e.setCw b fails (parityInt p) cw).1 = !fails ∧
      (e.setCw b fails (parityInt p) cw).2.2.scr.keys = if fails then e.scr.keys else
        { e.scr.keys with key := fun q => if q = p then some cw else e.scr.keys.key q } := by
  have hkeys := Scrambler.setKey_keys b fails e.scr (parityInt p) cw
  have hret := Scrambler.setKey_ret b fails e.scr (parityInt p) cw
  have hparity : parityOf (parityInt p) = some p := by cases p <;> rfl
  rw [Keys.after] at hkeys
  unfold setCw
  simp only [hparity] at hkeys hret ⊢
  rw [if_neg hpos]
  cases fails with
  | true =>
    rw [if_neg (fun h => Bool.noConfusion h.2)] at hkeys
    rw [if_neg (fun h => Bool.noConfusion (hret.1 h).2.2)]
    exact ⟨rfl, hkeys⟩
  | false =>
    rw [if_pos ⟨hlen, rfl⟩] at hkeys
    rw [if_pos (hret.2 ⟨rfl, hlen, rfl⟩)]
    exact ⟨rfl, hkeys⟩

end ScrambleEngine

/-! ## The session words -/

/-- A call that has nothing to do with the session words. -/
structure SameWords (e e' : BissCa) : Prop where
  sw : e'.sw = e.sw
  swEpoch : e'.swEpoch = e.swEpoch
  scr : e'.scr = e.scr

theorem SameWords.refl (e : BissCa) : SameWords e e := ⟨rfl, rfl, rfl⟩

theorem SameWords.trans {e e' e'' : BissCa} (h : SameWords e e') (h' : SameWords e' e'') : SameWords e e'' :=
  ⟨h'.sw.trans h.sw, h'.swEpoch.trans h.swEpoch, h'.scr.trans h.scr⟩

namespace BissCa

variable (e : BissCa)

theorem emmBuildAbort_words : SameWords e e.emmBuildAbort := by
  unfold emmBuildAbort
  split
  · exact SameWords.refl e
  · split <;> exact ⟨rfl, rfl, rfl⟩

theorem rotateSk_words (fresh : List UInt8) (e : BissCa) : SameWords e (e.rotateSk fresh) := by
  obtain ⟨hsw, hepoch, hscr⟩ := emmBuildAbort_words { e with
    skEmm := fresh
    skEmmParity := epochParity (e.skEpoch + 1)
    skEpoch := e.skEpoch + 1
    emmVersion := (e.emmVersion + 1) &&& 0x1F
    skPending := true
    liveNew := false }
  exact ⟨hsw, hepoch, hscr⟩

variable (c : BissCrypto)

theorem ecmDue_words (iv : List UInt8) (now : ℚ) (cap : Nat) (e : BissCa) : SameWords e (e.ecmDue c iv now cap).2 := by
  have hbuild : SameWords e (if e.ecmDirty then e.rebuildEcm c iv else e) := by
    split
    · exact ⟨rfl, rfl, rfl⟩
    · exact SameWords.refl e
  rw [ecmDue]
  generalize (if e.ecmDirty then e.rebuildEcm c iv else e) = e' at hbuild
  split
  · exact hbuild
  · split
    · exact hbuild
    · split
      · exact hbuild
      · exact ⟨hbuild.sw, hbuild.swEpoch, hbuild.scr⟩

theorem emmBegin_words : SameWords e e.emmBegin := by
  rw [emmBegin, emmBuildBegin]
  split
  · split <;> exact ⟨rfl, rfl, rfl⟩
  · exact SameWords.refl e

theorem emmBuildStep_words (rnd : Nat) (e : BissCa) : SameWords e (e.emmBuildStep c rnd) := by
  unfold emmBuildStep
  split
  · exact SameWords.refl e
  simp only []
  split
  · have := emmBuildAbort_words e
    exact ⟨this.sw, this.swEpoch, this.scr⟩
  · split
    · split <;> exact ⟨rfl, rfl, rfl⟩
    · split
      · exact ⟨rfl, rfl, rfl⟩
      · exact ⟨rfl, rfl, rfl⟩

theorem emmSend_words (now : ℚ) (cap : Nat) (e : BissCa) : SameWords e (e.emmSend now cap).2 := by
  unfold emmSend
  split
  · exact SameWords.refl e
  · split
    · exact SameWords.refl e
    · rw [activateIfSent]
      split <;> exact ⟨rfl, rfl, rfl⟩

theorem emmDue_words (rnd : Nat) (now : ℚ) (cap : Nat) (e : BissCa) : SameWords e (e.emmDue c rnd now cap).2 :=
  ((emmBegin_words e).trans (emmBuildStep_words c rnd _)).trans (emmSend_words now cap _)

theorem forceSkRotation_words : SameWords e e.forceSkRotation := by
  rw [forceSkRotation]
  split <;> exact ⟨rfl, rfl, rfl⟩

variable (found : List Receiver)

theorem reloadReceivers_words (e : BissCa) : SameWords e (e.reloadReceivers found).2 := by
  rw [reloadReceivers]
  split
  · exact SameWords.refl e
  · have := emmBuildAbort_words { e with receivers := loadReceivers found }
    exact ⟨this.sw, this.swEpoch, this.scr⟩

theorem coreReload_words (e : BissCa) : SameWords e (e.coreReload found) := by
  have hreload := reloadReceivers_words found e
  rw [coreReload]
  simp only []
  split
  · exact hreload.trans (forceSkRotation_words _)
  · exact hreload

end BissCa

theorem epochParity_succ (n : Nat) : epochParity (n + 1) = (epochParity n).other := by
  rw [epochParity, epochParity]
  by_cases h : n % 2 = 1
  · rw [if_pos h, if_neg (by omega)]
    rfl
  · rw [if_neg h, if_pos (by omega)]
    rfl

theorem Parity.other_ne (p : Parity) : p.other ≠ p := by cases p <;> nofun

theorem Parity.other_other (p : Parity) : p.other.other = p := by cases p <;> rfl

/-- `word` has the session word of every epoch: the ECM had those of the epoch and of the next one all the
    time, and the scrambler has the latest one of each parity. -/
structure WordsOk (word : Nat → List UInt8) (R : BissRun) : Prop where
  length : ∀ p, (R.e.sw p).length = 16
  algo : R.e.scr.scr.keys.algo = .cissa
  current : R.e.sw (epochParity R.e.swEpoch) = word R.e.swEpoch ∧
    R.e.sw (epochParity (R.e.swEpoch + 1)) = word (R.e.swEpoch + 1)
  past : ∀ x ∈ R.past, x.1 ≤ R.e.swEpoch ∧ x.2 (epochParity x.1) = word x.1 ∧
    x.2 (epochParity (x.1 + 1)) = word (x.1 + 1)
  key : R.e.scr.scr.keys.key (epochParity R.e.swEpoch) = some (word R.e.swEpoch)
  older : R.e.scr.scr.keys.key (epochParity (R.e.swEpoch + 1)) =
    if R.e.swEpoch = 0 then none else some (word (R.e.swEpoch - 1))

theorem WordsOk.congr {word : Nat → List UInt8} {R R' : BissRun} (h : WordsOk word R)
    (hsw : R'.e.sw = R.e.sw) (hepoch : R'.e.swEpoch = R.e.swEpoch)
    (hkeys : R'.e.scr.scr.keys = R.e.scr.scr.keys) (hpast : R'.past = R.past) : WordsOk word R' where
  length := by rw [hsw]; exact h.length
  algo := by rw [hkeys]; exact h.algo
  current := by rw [hsw, hepoch]; exact h.current
  past := by rw [hpast, hepoch]; exact h.past
  key := by rw [hkeys, hepoch]; exact h.key
  older := by rw [hkeys, hepoch]; exact h.older

variable {word : Nat → List UInt8} {R : BissRun} (h : WordsOk word R)

include h

theorem WordsOk.noted : WordsOk word { R with past := R.past ++ [(R.e.swEpoch, R.e.sw)] } where
  __ := h
  past := fun x hx => by
    rcases List.mem_append.1 hx with hx | hx
    · exact h.past x hx
    · obtain rfl := List.mem_singleton.1 hx
      exact ⟨le_rfl, h.current⟩

theorem rotateSw_words (b : Backend) (fails : Bool) (fresh : Key16) :
    ∃ word', WordsOk word' { R with e := (R.e.rotateSw b fails fresh.1).2 } := by
  have hlen : (R.e.sw (epochParity (R.e.swEpoch + 1))).length = cwLen R.e.scr.scr.keys.algo := by
    rw [h.algo, h.length]
    rfl
  obtain ⟨hok, hkeys⟩ := ScrambleEngine.setCw_taken b fails (e := R.e.scr) (epochParity (R.e.swEpoch + 1)) hlen
    (by rw [h.length]; omega)
  rw [BissCa.rotateSw]
  generalize R.e.scr.setCw b fails (ScrambleEngine.parityInt (epochParity (R.e.swEpoch + 1)))
    (R.e.sw (epochParity (R.e.swEpoch + 1))) = set at hok hkeys
  obtain ⟨ok, out, scr⟩ := set
  simp only [] at hok hkeys ⊢
  cases fails with
  | true =>
    obtain rfl : ok = false := hok
    exact ⟨word, h.congr rfl rfl hkeys rfl⟩
  | false =>
    obtain rfl : ok = true := hok
    rw [if_neg nofun] at hkeys
    have hback : epochParity (R.e.swEpoch + 1 + 1) = epochParity R.e.swEpoch := by
      rw [epochParity_succ, epochParity_succ, Parity.other_other]
    have hother : (epochParity (R.e.swEpoch + 1)).other = epochParity R.e.swEpoch := by
      rw [epochParity_succ, Parity.other_other]
    have hne : epochParity (R.e.swEpoch + 1) ≠ epochParity R.e.swEpoch := by
      rw [epochParity_succ]
      exact Parity.other_ne _
    -- the fresh word is that of the epoch after the next
    refine ⟨fun m => if m = R.e.swEpoch + 2 then fresh.1 else word m, ?_⟩
    rw [if_neg nofun]
    refine ⟨fun p => ?_, ?_, ⟨?_, ?_⟩, fun x hx => ?_, ?_, ?_⟩
    · simp only []
      split
      · exact fresh.2
      · exact h.length p
    · simp only [hkeys]
      exact h.algo
    · simp only [hother]
      rw [if_neg hne, if_neg (by omega)]
      exact h.current.2
    · simp only [hother, hback]
      rw [if_pos trivial, if_pos trivial]
    · obtain ⟨hle, hcur, hnext⟩ := h.past x hx
      simp only []
      rw [if_neg (by omega), if_neg (by omega)]
      exact ⟨by omega, hcur, hnext⟩
    · simp only [hkeys]
      rw [if_pos trivial, if_neg (by omega), h.current.2]
    · simp only [hkeys, hback]
      rw [if_neg hne.symm, if_neg (by omega), if_neg (by omega), h.key]
      rfl

theorem scramble_words (b : Backend) (fails : Bool) (freshSw freshSk : Key16) (outPid : Nat) (now : ℚ)
    (pkt : List UInt8) : ∃ word', WordsOk word'
      { R with e := (R.e.scramblePacket b fails freshSw.1 freshSk.1 outPid now pkt).2 } := by
  have hrotate : ∃ word', WordsOk word' { R with e := (R.e.rotate b fails freshSw.1 freshSk.1).2 } := by
    have hsw : ∃ word', WordsOk word' { R with e := (if R.e.sinceSwMs ≥ R.e.swPeriodMs then
          ((R.e.rotateSw b fails freshSw.1).1, { (R.e.rotateSw b fails freshSw.1).2 with sinceSwMs := 0 })
        else ([], R.e)).2 } := by
      split
      · obtain ⟨word', hword⟩ := rotateSw_words h b fails freshSw
        exact ⟨word', hword.congr rfl rfl rfl rfl⟩
      · exact ⟨word, h⟩
    obtain ⟨word', hword⟩ := hsw
    refine ⟨word', ?_⟩
    rw [BissCa.rotate]
    simp only []
    generalize (if R.e.sinceSwMs ≥ R.e.swPeriodMs then
          ((R.e.rotateSw b fails freshSw.1).1, { (R.e.rotateSw b fails freshSw.1).2 with sinceSwMs := 0 })
        else ([], R.e)) = r at hword
    obtain ⟨out, e⟩ := r
    split
    · have hsk := BissCa.rotateSk_words freshSk.1 e
      exact hword.congr hsk.sw hsk.swEpoch (congrArg (fun s => s.scr.keys) hsk.scr) rfl
    · exact hword
  obtain ⟨word', hword⟩ := hrotate
  exact ⟨word', hword.congr rfl rfl (ScrambleEngine.scramblePacket_keys b fails _ outPid true true _ true now pkt)
    rfl⟩

theorem step_words (b : Backend) (c : BissCrypto) (ev : BissEvent) : ∃ word', WordsOk word' (R.step b c ev) := by
  have hsame : ∀ {R' : BissRun}, SameWords R.e R'.e → R'.past = R.past →
      WordsOk word { R' with past := R'.past ++ [(R'.e.swEpoch, R'.e.sw)] } := fun hwords hpast =>
    (h.congr hwords.sw hwords.swEpoch (congrArg (fun s => s.scr.keys) hwords.scr) hpast).noted
  cases ev with
  | tick deltaMs => exact ⟨word, hsame ⟨rfl, rfl, rfl⟩ rfl⟩
  | scramble fails freshSw freshSk outPid now pkt =>
    obtain ⟨word', hword⟩ := scramble_words h b fails freshSw freshSk outPid now pkt
    exact ⟨word', hword.noted⟩
  | ecmDue iv now cap => exact ⟨word, hsame (BissCa.ecmDue_words c iv now cap R.e) rfl⟩
  | emmDue rnd now cap =>
    have hwords := BissCa.emmDue_words c rnd now cap R.e
    rw [← BissRun.emmDue_e b c R rnd now cap] at hwords
    refine ⟨word, hsame hwords ?_⟩
    show ((R.emmBegin.emmStep c rnd).emmSend now cap).past = R.past
    rw [BissRun.emmSend, BissRun.emmStep, BissRun.emmBegin]
    simp only []
    split <;> rfl
  | reload found => exact ⟨word, hsame (BissCa.reloadReceivers_words found R.e) rfl⟩
  | coreReload found => exact ⟨word, hsame (BissCa.coreReload_words found R.e) rfl⟩
  | forceRotation => exact ⟨word, hsame (BissCa.forceSkRotation_words R.e) rfl⟩

omit h

theorem start_spec {b : Backend} {pids : List Nat} {flushPid swPeriodMs : Nat} {found : List Receiver}
    {swEven swOdd sk : Key16} {e : BissCa}
    (he : BissCa.start b pids flushPid swPeriodMs found swEven.1 swOdd.1 sk.1 = some e) :
    ∃ scr, scr.scr.keys = ⟨.cissa, fun p => if p = .even then some swEven.1 else none⟩ ∧
      (loadReceivers found).length ≠ 0 ∧ e = {
        scr, swPeriodMs
        receivers := loadReceivers found
        sk := sk.1
        sw := fun p => if p = .odd then swOdd.1 else swEven.1
        skEmm := sk.1
        skPeriodMs := swPeriodMs * 6 } := by
  obtain ⟨hok, hkeys⟩ := @ScrambleEngine.setCw_taken b false (ScrambleEngine.start b .cissa pids flushPid) .even
    swEven.1 swEven.2 (by rw [swEven.2]; omega)
  rw [BissCa.start] at he
  split at he
  · cases he
  split at he
  · cases he
  · next hrecv =>
    have hok : ((ScrambleEngine.start b .cissa pids flushPid).setCw b false 0 swEven.1).1 = true := hok
    simp only [hok] at he
    exact ⟨_, hkeys, hrecv, (Option.some.inj he).symm⟩

theorem BissReach.words {b : Backend} {c : BissCrypto} {sk0 : List UInt8}
    (h : BissReach b c sk0 R) : ∃ word, WordsOk word R := by
  induction h with
  | @start pids flushPid swPeriodMs found swEven swOdd sk e hsk he =>
    obtain ⟨scr, hkeys, -, rfl⟩ := start_spec he
    refine ⟨fun m => if m = 0 then swEven.1 else swOdd.1, ⟨fun p => ?_, ?_, ⟨rfl, rfl⟩, fun x hx => ?_, ?_, ?_⟩⟩
    · simp only []
      split
      · exact swOdd.2
      · exact swEven.2
    · simp only [hkeys]
    · obtain rfl := List.mem_singleton.1 hx
      exact ⟨le_rfl, rfl, rfl⟩
    · simp only [hkeys]
      rfl
    · simp only [hkeys]
      rfl
  | step _ ev ih =>
    obtain ⟨word, hword⟩ := ih
    exact step_words hword b c ev

end DvbIpiTools.Cas
