import Mathlib.Data.List.Nodup
import Mathlib.Data.List.Range

set_option autoImplicit false

/-! # The output map of a program (`mux/pmtbuild.c`, `mux/remux/lifecycle.c`)

Which source PIDs a program carries and on which PIDs they go out: counted at first, and after a change
of the source's PMT taken over from the map before it. Of `out_es_t` the source entry and the CA system
are left out: only the table builders read them. -/

namespace DvbIpiTools.Tvhead

open List

def outPidPmtBase : Nat := 0x1000
def outProgramBlockBase : Nat := 0x0100
def outMaxEs : Nat := 32
def outProgramEsCap : Nat := outMaxEs - 1
def mptsMaxPrograms : Nat := 32

/-- `out_program_pids_t`. -/
structure OutProgramPids where
  pmtPid : Nat
  videoPid : Nat
  esPidBase : Nat
  aitPid : Nat

def outProgramPids (idx : Nat) : OutProgramPids :=
  let blockBase := outProgramBlockBase + idx * outMaxEs
  ⟨outPidPmtBase + idx, blockBase, blockBase + 1, blockBase + outProgramEsCap⟩

/-! ## The source's tables -/

/-- `pid_class_t` of an elementary stream; `other` are the classes that are never carried. -/
inductive PidClass
  | video | audio | teletext | subtitle | data | lcevc | other
  deriving DecidableEq

/-- `codec_t`. -/
inductive Codec
  | none | mpeg2v | h264 | hevc | vvc | av1 | mp2a | aac | aacLatm | ac3 | eac3 | opus | lcevc | dts
  | dtsHd | dtsHdMa | truehd | ac4
  deriving DecidableEq

/-- `ca_pass_t`. -/
inductive CaPass
  | none | ecm | emm | pcr
  deriving DecidableEq

/-- What is read of `psi_es_t`. -/
structure PsiEs where
  pid : Nat
  streamType : Nat
  cls : PidClass
  codec : Codec
  caPid : Nat

/-- What is read of `psi_t`. -/
structure Psi where
  es : List PsiEs
  pcrPid : Nat
  pmtPid : Nat
  pmtCaPid : Nat
  emmPid : Nat

/-- `out_es_t`. -/
structure OutEs where
  inPid : Nat
  outPid : Nat
  streamType : Nat
  isCa : CaPass

/-- `pcr_mode_t`. -/
inductive PcrMode
  | preserve | rebase | regenerate
  deriving DecidableEq

/-- What is read of the configuration of a program; `ownCas` is any of the own CA systems. -/
structure TvConfig where
  pcrMode : PcrMode
  ownCas : Bool
  stripData : Bool
  stripEcm : Bool

/-! ## Counting -/

def outStreamType : Codec → Nat
  | .mpeg2v => 0x02
  | .h264 => 0x1B
  | .hevc => 0x24
  | .vvc => 0x33
  | .av1 => 0x06
  | .mp2a => 0x03
  | .aac => 0x0F
  | .aacLatm => 0x11
  | .ac3 => 0x06
  | .eac3 => 0x06
  | .opus => 0x06
  | .lcevc => 0x36
  | .dts => 0x06
  | .dtsHd => 0x06
  | .dtsHdMa => 0x06
  | .truehd => 0x83
  | .ac4 => 0x06
  | .none => 0

def supported (stripData : Bool) (e : PsiEs) : Bool :=
  match e.cls with
  | .video | .audio => e.codec ≠ .none
  | .teletext | .subtitle => true
  | .data => !stripData
  | .lcevc => true
  | .other => false

/-- The stream that becomes the video. -/
def isVideo (stripData : Bool) (e : PsiEs) : Bool := e.cls = .video && supported stripData e

/-- A stream of the second loop of `pmtbuild_map_es`. -/
def isOther (stripData : Bool) (e : PsiEs) : Bool := e.cls ≠ .video && supported stripData e

/-- The stream type of a stream that is no video. -/
def otherType (e : PsiEs) : Nat :=
  match e.cls with
  | .teletext | .subtitle => 0x06
  | .data => e.streamType
  | _ => outStreamType e.codec

/-- The second loop of `pmtbuild_map_es`, with `n` entries before it: the entries and how many are
    dropped. -/
def mapOthers (stripData : Bool) (cap : Nat) : List PsiEs → Nat → Nat → List OutEs × Nat
  | [], _, _ => ([], 0)
  | e :: es, n, nextPid =>
    if !isOther stripData e then mapOthers stripData cap es n nextPid
    else if n ≥ cap then
      let (out, dropped) := mapOthers stripData cap es n nextPid
      (out, dropped + 1)
    else
      let (out, dropped) := mapOthers stripData cap es (n + 1) (nextPid + 1)
      (⟨e.pid, nextPid, otherType e, .none⟩ :: out, dropped)

def pickPcrOut (es : List OutEs) (srcPcrPid : Nat) : Nat :=
  match es.find? fun e => e.inPid = srcPcrPid with
  | some e => e.outPid
  | none => (es.head?.map OutEs.outPid).getD 0

/-- A map in the making: the entries, the PID with the PCR and how many are dropped. -/
structure EsMap where
  es : List OutEs
  pcrPid : Nat
  dropped : Nat

def pmtbuildMapEs (inEs : List PsiEs) (stripData : Bool) (srcPcrPid videoPid esPidBase cap : Nat) :
    EsMap :=
  let video := ((inEs.find? (isVideo stripData)).toList.take cap).map fun e =>
    (⟨e.pid, videoPid, outStreamType e.codec, .none⟩ : OutEs)
  let (others, dropped) := mapOthers stripData cap inEs video.length esPidBase
  ⟨video ++ others, pickPcrOut (video ++ others) srcPcrPid, dropped⟩

/-- The entries that are not on the video PID. -/
def nonVideo (videoPid : Nat) (es : List OutEs) : Nat := es.countP fun e => e.outPid ≠ videoPid

def pmtbuildAddPcrOnly (srcPcrPid esPidBase videoPid cap : Nat) (m : EsMap) : EsMap :=
  if srcPcrPid = 0 ∨ srcPcrPid ≥ 0x1FFF then m
  else if m.es.any fun e => e.inPid = srcPcrPid then m
  else if m.es.length ≥ cap then { m with dropped := m.dropped + 1 }
  else
    let outPid := esPidBase + nonVideo videoPid m.es
    { m with es := m.es ++ [⟨srcPcrPid, outPid, 0, .pcr⟩], pcrPid := outPid }

/-- One entry of `pmtbuild_add_ca_passthrough`, with the next PID. -/
def addCa (cap pid : Nat) (isCa : CaPass) (m : EsMap × Nat) : EsMap × Nat :=
  if pid = 0 then m
  else if m.1.es.length ≥ cap then ({ m.1 with dropped := m.1.dropped + 1 }, m.2)
  else ({ m.1 with es := m.1.es ++ [⟨pid, m.2, 0, isCa⟩] }, m.2 + 1)

def pmtbuildAddCaPassthrough (ecmPid emmPid esPidBase videoPid cap : Nat) (m : EsMap) : EsMap :=
  (addCa cap emmPid .emm (addCa cap ecmPid .ecm (m, esPidBase + nonVideo videoPid m.es))).1

/-- The ECM PID of the source: the program's, or the first one of a stream. -/
def sourceEcmPid (psi : Psi) : Nat :=
  if psi.pmtCaPid ≠ 0 then psi.pmtCaPid
  else ((psi.es.find? fun e => e.caPid ≠ 0).map PsiEs.caPid).getD 0

/-- `build_es_map`; `emmPidIn` is the EMM PID at discovery. -/
def buildEsMap (cfg : TvConfig) (pids : OutProgramPids) (emmPidIn : Nat) (psi : Psi) : EsMap :=
  let m := pmtbuildMapEs psi.es cfg.stripData psi.pcrPid pids.videoPid pids.esPidBase outProgramEsCap
  if m.es.length = 0 then m
  else
    let m :=
      if cfg.pcrMode ≠ .regenerate ∧ psi.pcrPid ≠ psi.pmtPid then
        pmtbuildAddPcrOnly psi.pcrPid pids.esPidBase pids.videoPid outProgramEsCap m
      else m
    let pass := !cfg.ownCas && !cfg.stripEcm
    pmtbuildAddCaPassthrough (if pass then sourceEcmPid psi else 0) (if pass then emmPidIn else 0)
      pids.esPidBase pids.videoPid outProgramEsCap m

/-! ## Keeping PIDs -/

def findOldEs (old : List OutEs) (e : OutEs) : Option Nat :=
  old.findIdx? fun o => o.inPid = e.inPid && o.isCa = e.isCa

/-- The offset of a PID in the block, if it is one of a stream. -/
def blockOff (videoPid outPid : Nat) : Option Nat :=
  if outPid < videoPid ∨ outPid - videoPid ≥ outProgramEsCap then none else some (outPid - videoPid)

/-- The first loop of `keep_out_pids`: the PID of the old map, and whether it is kept. -/
def takeOver (videoPid : Nat) (old : List OutEs) (e : OutEs) : OutEs × Bool :=
  match findOldEs old e with
  | none => (e, false)
  | some j =>
    let outPid := ((old[j]?).map OutEs.outPid).getD 0
    ({ e with outPid }, (blockOff videoPid outPid).isSome)

/-- The first free offset of the block. -/
def freeOff (used : List Nat) : Nat :=
  ((range outProgramEsCap).find? fun off => off ∉ used).getD outProgramEsCap

/-- The offset of an entry that is not kept: its own, if that is free. -/
def newOff (videoPid : Nat) (used : List Nat) (outPid : Nat) : Nat :=
  match blockOff videoPid outPid with
  | none => freeOff used
  | some off => if off ∈ used then freeOff used else off

/-- The second loop of `keep_out_pids`; `used` are the offsets taken so far. -/
def placeNew (videoPid : Nat) : List (OutEs × Bool) → List Nat → List OutEs
  | [], _ => []
  | (e, true) :: rest, used => e :: placeNew videoPid rest used
  | (e, false) :: rest, used =>
    let off := newOff videoPid used e.outPid
    { e with outPid := videoPid + off } ::
      placeNew videoPid rest (if off < outProgramEsCap then off :: used else used)

def keepOutPids (videoPid : Nat) (old neu : List OutEs) : List OutEs :=
  let taken := neu.map (takeOver videoPid old)
  placeNew videoPid taken ((taken.filter Prod.snd).map fun e => e.1.outPid - videoPid)

/-- The map after a PMT of the source, as `remap_es` makes it; `none` when it leaves the program as it
    is, because nothing is left or because the PCR would move (then a reconnect is wanted). -/
def remapPlan (cfg : TvConfig) (pids : OutProgramPids) (emmPidIn pcrPidOut : Nat) (old : List OutEs)
    (psi : Psi) : Option (List OutEs) :=
  let m := buildEsMap cfg pids emmPidIn psi
  if m.es.length = 0 then none
  else
    let neu := keepOutPids pids.videoPid old m.es
    if pickPcrOut neu psi.pcrPid ≠ pcrPidOut then none else some neu

/-! # What a map carries and where

`carried` says which source PIDs a program has and in which roles, without any output PID. A map that is
counted has exactly these, the video on the first PID of the block and the others behind it. -/

/-- A source PID and its role. -/
def OutEs.key (e : OutEs) : Nat × CaPass := (e.inPid, e.isCa)

/-! ## What is carried -/

/-- The streams of the source that are carried: one video, then the others. -/
def carriedEs (stripData : Bool) (es : List PsiEs) : List PsiEs :=
  ((es.find? (isVideo stripData)).toList ++ es.filter (isOther stripData)).take outProgramEsCap

/-- The PCR on a PID of its own. -/
def carriedPcr (cfg : TvConfig) (psi : Psi) (es : List PsiEs) : List (Nat × CaPass) :=
  if cfg.pcrMode ≠ .regenerate ∧ psi.pcrPid ≠ psi.pmtPid ∧ psi.pcrPid ≠ 0 ∧ psi.pcrPid < 0x1FFF ∧
      psi.pcrPid ∉ es.map PsiEs.pid then
    [(psi.pcrPid, .pcr)]
  else []

/-- A PID, if there is one. -/
def present (pid : Nat) (isCa : CaPass) : List (Nat × CaPass) := if pid = 0 then [] else [(pid, isCa)]

/-- The ECM and EMM of the source. -/
def carriedCa (cfg : TvConfig) (emmPidIn : Nat) (psi : Psi) : List (Nat × CaPass) :=
  if !cfg.ownCas && !cfg.stripEcm then present (sourceEcmPid psi) .ecm ++ present emmPidIn .emm else []

/-- The source PIDs a program carries, in order: as many as there is room for. -/
def carried (cfg : TvConfig) (emmPidIn : Nat) (psi : Psi) : List (Nat × CaPass) :=
  let es := carriedEs cfg.stripData psi.es
  if es = [] then []
  else ((es.map fun e => (e.pid, CaPass.none)) ++ carriedPcr cfg psi es ++ carriedCa cfg emmPidIn psi).take
    outProgramEsCap

/-- A video is carried. -/
def HasVideo (cfg : TvConfig) (psi : Psi) : Prop := ∃ e ∈ psi.es, isVideo cfg.stripData e = true

instance (cfg : TvConfig) (psi : Psi) : Decidable (HasVideo cfg psi) :=
  inferInstanceAs (Decidable (∃ e ∈ psi.es, isVideo cfg.stripData e = true))

/-! ## The counted map -/

/-- The entries with the keys `keys` on the PIDs from the block's first on, or from its second on when
    there is no video. -/
structure Counted (videoPid : Nat) (video : Bool) (keys : List (Nat × CaPass)) (es : List OutEs) :
    Prop where
  keys : es.map OutEs.key = keys
  outPids : es.map OutEs.outPid = range' (if video then videoPid else videoPid + 1) es.length
  length_le : es.length ≤ outProgramEsCap
  video_ne : video = true → es ≠ []

theorem mapOthers_spec (stripData : Bool) (cap : Nat) (es : List PsiEs) (n nextPid : Nat) :
    (mapOthers stripData cap es n nextPid).1.map OutEs.key =
        ((es.filter (isOther stripData)).take (cap - n)).map (fun e => (e.pid, CaPass.none)) ∧
      (mapOthers stripData cap es n nextPid).1.map OutEs.outPid =
        range' nextPid (mapOthers stripData cap es n nextPid).1.length := by
  induction es generalizing n nextPid with
  | nil => exact ⟨by rw [filter_nil, take_nil]; rfl, rfl⟩
  | cons e es ih =>
    rw [mapOthers]
    by_cases hother : isOther stripData e = true
    · rw [filter_cons_of_pos hother]
      simp only [hother, Bool.not_true, Bool.false_eq_true, if_false]
      by_cases hfull : n ≥ cap
      · rw [if_pos hfull]
        obtain ⟨hkeys, hpids⟩ := ih n nextPid
        have hzero : cap - n = 0 := by omega
        rw [hzero, take_zero] at hkeys ⊢
        exact ⟨hkeys, hpids⟩
      rw [if_neg hfull]
      obtain ⟨hkeys, hpids⟩ := ih (n + 1) (nextPid + 1)
      have hsucc : cap - n = cap - (n + 1) + 1 := by omega
      rw [hsucc, take_succ_cons, map_cons, map_cons, map_cons, hkeys, hpids, length_cons, range'_succ]
      exact ⟨rfl, rfl⟩
    · rw [filter_cons_of_neg hother]
      simp only [hother, Bool.not_false, if_true]
      exact ih n nextPid

theorem pmtbuildMapEs_counted (inEs : List PsiEs) (stripData : Bool) (srcPcrPid videoPid : Nat) :
    Counted videoPid (inEs.any (isVideo stripData))
      ((carriedEs stripData inEs).map fun e => (e.pid, CaPass.none))
      (pmtbuildMapEs inEs stripData srcPcrPid videoPid (videoPid + 1) outProgramEsCap).es := by
  cases hvideo : inEs.find? (isVideo stripData) with
  | none =>
    have hany : inEs.any (isVideo stripData) = false := by
      rw [any_eq_false]
      exact fun e he => find?_eq_none.1 hvideo e he
    obtain ⟨hkeys, hpids⟩ := mapOthers_spec stripData outProgramEsCap inEs 0 (videoPid + 1)
    have hes : (pmtbuildMapEs inEs stripData srcPcrPid videoPid (videoPid + 1) outProgramEsCap).es =
        (mapOthers stripData outProgramEsCap inEs 0 (videoPid + 1)).1 := by
      simp only [pmtbuildMapEs, hvideo, Option.toList_none, take_nil, map_nil, nil_append, length_nil]
    rw [hes, carriedEs, hvideo, hany]
    refine ⟨hkeys, hpids, ?_, nofun⟩
    have := congrArg length hkeys
    rw [length_map, length_map, length_take] at this
    omega
  | some v =>
    have hany : inEs.any (isVideo stripData) = true :=
      any_eq_true.2 ⟨v, mem_of_find?_eq_some hvideo, find?_some hvideo⟩
    obtain ⟨hkeys, hpids⟩ := mapOthers_spec stripData outProgramEsCap inEs 1 (videoPid + 1)
    have hes : (pmtbuildMapEs inEs stripData srcPcrPid videoPid (videoPid + 1) outProgramEsCap).es =
        ⟨v.pid, videoPid, outStreamType v.codec, .none⟩ ::
          (mapOthers stripData outProgramEsCap inEs 1 (videoPid + 1)).1 := by
      simp only [pmtbuildMapEs, hvideo]
      rfl
    have hcarried : carriedEs stripData inEs = v :: (inEs.filter (isOther stripData)).take (outProgramEsCap - 1) := by
      rw [carriedEs, hvideo]
      rfl
    rw [hes, hcarried, hany]
    refine ⟨?_, ?_, ?_, fun _ => cons_ne_nil _ _⟩
    · rw [map_cons, map_cons, hkeys]
      rfl
    · rw [map_cons, hpids, length_cons, if_pos rfl, range'_succ]
    · have := congrArg length hkeys
      rw [length_map, length_map, length_take] at this
      rw [length_cons]
      have hcap : outProgramEsCap = 31 := rfl
      omega

variable {videoPid : Nat} {video : Bool} {keys : List (Nat × CaPass)} {es : List OutEs} (h : Counted videoPid video keys es)

include h

theorem Counted.nextPid :
    videoPid + 1 + nonVideo videoPid es = (if video then videoPid else videoPid + 1) + es.length := by
  have hcount : nonVideo videoPid es = (es.map OutEs.outPid).countP fun pid => pid ≠ videoPid := by
    rw [countP_map]
    rfl
  rw [hcount, h.outPids]
  have hbehind : ∀ n, (range' (videoPid + 1) n).countP (fun pid => pid ≠ videoPid) = n := by
    intro n
    rw [countP_eq_length.2, length_range']
    intro pid hpid
    rw [mem_range'_1] at hpid
    exact decide_eq_true (by omega)
  cases video with
  | false =>
    show videoPid + 1 + (range' (videoPid + 1) es.length).countP _ = videoPid + 1 + es.length
    rw [hbehind]
  | true =>
    obtain ⟨n, hn⟩ : ∃ n, es.length = n + 1 :=
      Nat.exists_eq_add_one_of_ne_zero fun h0 => h.video_ne rfl (length_eq_zero_iff.1 h0)
    rw [hn, if_pos rfl, range'_succ, countP_cons, hbehind]
    simp only [ne_eq, not_true_eq_false, decide_false, Bool.false_eq_true, if_false]
    omega

theorem Counted.snoc (hroom : es.length < outProgramEsCap) {e : OutEs}
    (hpid : e.outPid = (if video then videoPid else videoPid + 1) + es.length) :
    Counted videoPid video (keys ++ [e.key]) (es ++ [e]) where
  keys := by rw [map_append, h.keys, map_singleton]
  outPids := by
    rw [map_append, h.outPids, length_append, length_singleton, range'_append_1.symm, map_singleton, hpid]
    rfl
  length_le := by
    rw [length_append, length_singleton]
    exact hroom
  video_ne := fun _ => append_ne_nil_of_right_ne_nil _ (cons_ne_nil _ _)

theorem Counted.length_keys : keys.length = es.length := by rw [← h.keys, length_map]

omit h

/-! ## The parts together -/

theorem take_take_append {α : Type} (n : Nat) (l l' : List α) : (l.take n ++ l').take n = (l ++ l').take n := by
  by_cases h : l.length ≤ n
  · rw [take_of_length_le h]
  · have hlen : (l.take n).length = n := by
      rw [length_take]
      omega
    rw [take_append_of_le_length (by omega), take_append_of_le_length (by omega), take_take, Nat.min_self]

variable {m : EsMap}

theorem Counted.addOne (h : Counted videoPid video keys m.es) {e : OutEs}
    (hpid : e.outPid = (if video then videoPid else videoPid + 1) + m.es.length) :
    Counted videoPid video ((keys ++ [e.key]).take outProgramEsCap)
      (if m.es.length ≥ outProgramEsCap then m.es else m.es ++ [e]) := by
  have hlen := h.length_keys
  have hle := h.length_le
  split
  · next hfull =>
    rw [take_append_of_le_length (by omega), take_of_length_le (by omega)]
    exact h
  · next hroom =>
    rw [take_of_length_le]
    · exact h.snoc (not_le.1 hroom) hpid
    · rw [length_append, length_singleton]
      omega

theorem Counted.take_keys (h : Counted videoPid video keys es) : keys.take outProgramEsCap = keys :=
  take_of_length_le (by rw [h.length_keys]; exact h.length_le)

theorem addCa_counted {m : EsMap × Nat} (h : Counted videoPid video keys m.1.es)
    (hnext : m.2 = (if video then videoPid else videoPid + 1) + m.1.es.length) (pid : Nat) (isCa : CaPass) :
    Counted videoPid video ((keys ++ present pid isCa).take outProgramEsCap)
        (addCa outProgramEsCap pid isCa m).1.es ∧ (addCa outProgramEsCap pid isCa m).2 =
        (if video then videoPid else videoPid + 1) + (addCa outProgramEsCap pid isCa m).1.es.length := by
  rw [addCa, present]
  split
  · rw [append_nil, h.take_keys]
    exact ⟨h, hnext⟩
  have hone := h.addOne (e := ⟨pid, m.2, 0, isCa⟩) hnext
  split
  · next hfull =>
    rw [if_pos hfull] at hone
    exact ⟨hone, hnext⟩
  · next hroom =>
    rw [if_neg hroom] at hone
    refine ⟨hone, ?_⟩
    rw [length_append, length_singleton, hnext]
    omega

theorem pmtbuildAddCaPassthrough_counted (h : Counted videoPid video keys m.es) (ecmPid emmPid : Nat) :
    Counted videoPid video ((keys ++ (present ecmPid .ecm ++ present emmPid .emm)).take outProgramEsCap)
      (pmtbuildAddCaPassthrough ecmPid emmPid (videoPid + 1) videoPid outProgramEsCap m).es := by
  obtain ⟨hecm, hnext⟩ := addCa_counted (m := (m, videoPid + 1 + nonVideo videoPid m.es)) h h.nextPid
    ecmPid .ecm
  have hboth := (addCa_counted hecm hnext emmPid .emm).1
  rw [take_take_append, append_assoc] at hboth
  exact hboth

theorem pmtbuildAddPcrOnly_counted (h : Counted videoPid video keys m.es) (srcPcrPid : Nat) : Counted videoPid video
      ((keys ++ if srcPcrPid ≠ 0 ∧ srcPcrPid < 0x1FFF ∧ srcPcrPid ∉ keys.map Prod.fst then
        [(srcPcrPid, CaPass.pcr)] else []).take outProgramEsCap)
      (pmtbuildAddPcrOnly srcPcrPid (videoPid + 1) videoPid outProgramEsCap m).es := by
  have hpids : keys.map Prod.fst = m.es.map OutEs.inPid := by
    rw [← h.keys, map_map]
    rfl
  have hany : (m.es.any fun e => e.inPid = srcPcrPid) = true ↔ srcPcrPid ∈ keys.map Prod.fst := by
    rw [hpids, any_eq_true, mem_map]
    simp only [decide_eq_true_eq]
  rw [pmtbuildAddPcrOnly]
  by_cases hbad : srcPcrPid = 0 ∨ srcPcrPid ≥ 0x1FFF
  · rw [if_pos hbad, if_neg (fun hcond => by omega), append_nil, h.take_keys]
    exact h
  rw [if_neg hbad]
  by_cases hmem : (m.es.any fun e => e.inPid = srcPcrPid) = true
  · rw [if_pos hmem, if_neg (fun hcond => hcond.2.2 (hany.1 hmem)), append_nil, h.take_keys]
    exact h
  rw [if_neg hmem, if_pos ⟨by omega, by omega, fun hin => hmem (hany.2 hin)⟩]
  have hone := h.addOne (m := m) (e := ⟨srcPcrPid, videoPid + 1 + nonVideo videoPid m.es, 0, .pcr⟩)
    h.nextPid
  by_cases hfull : m.es.length ≥ outProgramEsCap
  · rw [if_pos hfull] at hone ⊢
    exact hone
  · rw [if_neg hfull] at hone ⊢
    exact hone

theorem buildEsMap_counted (cfg : TvConfig) {pids : OutProgramPids} (hbase : pids.esPidBase = pids.videoPid + 1)
    (emmPidIn : Nat) (psi : Psi) :
    Counted pids.videoPid (psi.es.any (isVideo cfg.stripData)) (carried cfg emmPidIn psi)
      (buildEsMap cfg pids emmPidIn psi).es := by
  have hmap := pmtbuildMapEs_counted psi.es cfg.stripData psi.pcrPid pids.videoPid
  have hlen := hmap.length_keys
  rw [length_map] at hlen
  rw [buildEsMap, carried, hbase]
  by_cases hnil : carriedEs cfg.stripData psi.es = []
  · rw [hnil, length_nil] at hlen
    rw [if_pos hnil, if_pos hlen.symm]
    rw [hnil, map_nil] at hmap
    exact hmap
  have hpos : (pmtbuildMapEs psi.es cfg.stripData psi.pcrPid pids.videoPid (pids.videoPid + 1)
      outProgramEsCap).es.length ≠ 0 := by
    rw [← hlen]
    exact fun h0 => hnil (length_eq_zero_iff.1 h0)
  rw [if_neg hnil, if_neg hpos, append_assoc]
  generalize pmtbuildMapEs psi.es cfg.stripData psi.pcrPid pids.videoPid (pids.videoPid + 1)
    outProgramEsCap = m at hmap
  -- the PCR on its own PID, if any
  have hpcr : Counted pids.videoPid (psi.es.any (isVideo cfg.stripData))
      ((((carriedEs cfg.stripData psi.es).map fun e => (e.pid, CaPass.none)) ++
        carriedPcr cfg psi (carriedEs cfg.stripData psi.es)).take outProgramEsCap)
      (if cfg.pcrMode ≠ .regenerate ∧ psi.pcrPid ≠ psi.pmtPid then
        pmtbuildAddPcrOnly psi.pcrPid (pids.videoPid + 1) pids.videoPid outProgramEsCap m else m).es := by
    have hpids : ((carriedEs cfg.stripData psi.es).map fun e => (e.pid, CaPass.none)).map Prod.fst =
        (carriedEs cfg.stripData psi.es).map PsiEs.pid := by
      rw [map_map]
      rfl
    rw [carriedPcr]
    by_cases hcond : cfg.pcrMode ≠ .regenerate ∧ psi.pcrPid ≠ psi.pmtPid
    · rw [if_pos hcond]
      have hadd := pmtbuildAddPcrOnly_counted hmap psi.pcrPid
      rw [hpids] at hadd
      simp only [hcond.1, hcond.2, ne_eq, not_false_eq_true, true_and]
      exact hadd
    · rw [if_neg hcond, if_neg (fun hall => hcond ⟨hall.1, hall.2.1⟩), append_nil, hmap.take_keys]
      exact hmap
  have hca : present (if (!cfg.ownCas && !cfg.stripEcm) = true then sourceEcmPid psi else 0) .ecm ++
      present (if (!cfg.ownCas && !cfg.stripEcm) = true then emmPidIn else 0) .emm = carriedCa cfg emmPidIn psi := by
    rw [carriedCa]
    split
    · rfl
    · rfl
  have hall := pmtbuildAddCaPassthrough_counted hpcr
    (if (!cfg.ownCas && !cfg.stripEcm) = true then sourceEcmPid psi else 0)
    (if (!cfg.ownCas && !cfg.stripEcm) = true then emmPidIn else 0)
  rw [hca, take_take_append, append_assoc] at hall
  exact hall

end DvbIpiTools.Tvhead
