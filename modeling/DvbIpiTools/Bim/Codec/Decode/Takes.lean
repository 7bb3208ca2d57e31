import DvbIpiTools.Bim.Codec.Decode.Element

set_option autoImplicit false

/-! # Decoding payloads (`bim_decode_payload`, `dec_fragment_reference`)

A payload whose top element is a fragment reference is resolved to another payload, read by a decoder of its own. `nest` counts the
payloads that may be open inside the first one, `n` is the depth at which each of their decoders is cut off. There is no result where
one payload more would have to be opened. -/

namespace DvbIpiTools.Bim

open Codec Cutoff

/-- What the decoders of nested payloads share: the repository, the counters of the optimised decoders, the state of the callbacks. -/
structure World (σ : Type) where
  sr : Option StrReader
  counters : List Nat
  ctx : σ
deriving DecidableEq

/-- The result of a payload: `zleft` are the undelivered bytes of the zlib stream. -/
structure Payload where
  root : BimNode
  href : Option CStr := none
  zleft : Nat := 0

/-- A step of a payload: its bits and what outlives it. -/
structure Opened (σ : Type) where
  bits : List Bool
  world : World σ
deriving DecidableEq

variable {σ α : Type} (g : Graph) (o : DecodeOpts σ)

/-- `dec_init`, with the repository as a payload starts on it, and with the bits behind its modes. -/
def decInit (x : Opened σ) (bits : List Bool) : Dec σ where
  src := { bits, sr := x.world.sr.map fun sr => { sr with base := sr.pos, resync := false } }
  counters := x.world.counters
  ctx := x.world.ctx

/-- What is left behind a payload. -/
def decDone (d : Dec σ) : Opened σ where
  bits := d.src.bits
  world := { sr := d.src.sr, counters := d.counters, ctx := d.ctx }

/-- The modes of a payload, and whether it has fragment references. -/
def readModes : BitRd (Modes × Bool) := do
  let lenMode ← getBits 2
  require (lenMode ≠ 3)
  let deferred ← getFlag
  let cast ← getFlag
  let nofragref ← getFlag
  let _ ← getBits 3
  return ({ lenMode, deferred, cast }, o.mpegb && !nofragref)

/-! ## Fragment references -/

/-- A reference as `dec_fragment_reference` reads it. -/
structure FragRef where
  isDef : Bool
  format : Nat
  href : Option CStr

/-- The format of a reference, its own one or the default. -/
def fragFormat (specific : Bool) : BitRd Nat :=
  if specific then getBits 8 else Lax.lift o.fragFormats.head?

/-- The reference of `bits` bits; only that of a URI is looked at. -/
def fragHref (format bits : Nat) : BitRd (Option CStr) :=
  if format = 1 then do
    require (bits % 8 = 0)
    let data ← Stream.getBytes (bits / 8)
    require (0 ∉ data)
    return some (CStr.ofBytes data)
  else do
    skipBits bits
    return none

/-- The part of `dec_fragment_reference` that reads. -/
def fragRef : BitRd FragRef := do
  let isDef ← getFlag
  let specific ← getFlag
  let _ ← getBits 6
  let format ← fragFormat o specific
  let bits ← getV8
  let left ← bitsLeft
  require (bits ≤ left)
  let href ← fragHref format bits
  return { isDef, format, href }

/-- `adopt`: the content of a resolved fragment in the place of the reference. -/
def adopt (k f : BimNode) : BimNode := .mk k.name k.ns f.text f.attrs f.kids (f.cast.or k.cast) k.deferred

/-- The resolver's answer. -/
def resolved (w : World σ) (r : FragRef) : Option (List UInt8 × World σ) := do
  let resolve ← o.resolve
  let href ← r.href
  let (data, ctx) := resolve w.ctx href r.format
  let data ← data
  return (data, { w with ctx })

/-- A decoder of payloads, with no result where it would open too many. -/
abbrev PayloadDec (σ : Type) := CStr → Opened σ → Option (Outcome (Payload × Opened σ))

/-- The fragment in the place of the reference, which ends where `bits` begin. -/
def adoptOutcome (name : CStr) (r : FragRef) (bits : List Bool) : Outcome (Payload × Opened σ) → Outcome (Payload × Opened σ)
  | .ok (f, y) => .ok ({ root := adopt (newNode (some name) none) f.root, href := r.href }, { bits, world := y.world })
  | .failed => .failed
  | .deeper => .deeper

/-- `dec_fragment_reference`, with the decoder of the payload that it is resolved to. `depth` is that of this decoder: each payload has
one of its own, where it is 0. -/
def decFragmentReference (depth : Nat) (nested : PayloadDec σ) (name : CStr) (x : Opened σ) : Option (Outcome (Payload × Opened σ)) :=
  match fragRef o x.bits with
  | none => some .failed
  | some (r, bits) =>
    if r.isDef then some (.ok ({ root := setDeferred (newNode (some name) none), href := r.href }, { x with bits }))
    else if depth > 16 then some .failed
    else match resolved o x.world r with
      | none => some .failed
      | some (data, world) => (nested name { bits := BitList.ofBytes data, world }).map (adoptOutcome name r bits)

/-! ## Payloads -/

/-- The top element of a payload without fragment references. -/
def decTop (m : Modes) (n : Nat) (t : TypeRef) (name : CStr) : DecM σ Payload := do
  let (k, deferred) ← elementStep g o m (decElement g o m n) n true none (some t) (newNode (some name) none)
  let zleft ← Run.gets fun d => d.zrest.length
  return { root := if deferred then setDeferred k else k, zleft }

/-- The payload with what is left behind it. -/
def topOutcome : Outcome (Payload × Dec σ) → Outcome (Payload × Opened σ)
  | .ok (p, d) => .ok (p, decDone d)
  | .failed => .failed
  | .deeper => .deeper

/-- `bim_decode_payload`, with at most `nest` payloads inside this one. -/
def decodePayload (n : Nat) (t : TypeRef) (nest : Nat) : PayloadDec σ := fun name x =>
  match readModes o x.bits with
  | none => some .failed
  | some ((m, fragref), bits) =>
    if fragref then
      decFragmentReference o 0 (match nest with
        | 0 => fun _ _ => none
        | k + 1 => decodePayload n t k) name (decDone (decInit x bits))
    else some (topOutcome (decTop g o m n t name (decInit x bits)))

/-! # The readers of a decoder only take

No reader of a payload gives bits back, so the bits that are left are a measure for every loop whose rounds take some. -/

open Coder

variable {α β σ : Type}

/-! ## Bits -/

theorem shrinks_getV5 : Shrinks getV5 := fun s a s' h => by
  have hle := (Stream.of_getVluimsbf5_eq_some h).2
  omega

theorem shrinks_getV8 : Shrinks getV8 := fun s a s' h => by
  have hle := (Stream.of_getVluimsbf8_eq_some h).2
  omega

theorem shrinks_getBytes (n : Nat) : Shrinks (Stream.getBytes n : BitRd (List UInt8)) := fun s a s' h => by
  have hle := (Stream.of_getBytes_eq_some h).2
  omega

theorem shrinks_bitsLeft : Shrinks bitsLeft := by
  intro s a s' h
  cases h
  exact le_rfl

theorem shrinks_skipBits (n : Nat) : Shrinks (skipBits n) := by
  intro s a s' h
  unfold skipBits at h
  split at h
  · cases h
    rw [List.length_drop]
    omega
  · cases h

theorem shrinks_lift (x : Option α) : Shrinks (Lax.lift x) := by
  intro s a s' h
  rw [(Lax.of_lift h).2]

theorem shrinks_getOffset (w : Option Nat) : Shrinks (getOffset w) := by
  cases w with
  | none => exact shrinks_getV5
  | some w => exact shrinks_getBits w

variable {p : BitRd α}

theorem shrinks_optRd (present : Bool) (hp : Shrinks p) : Shrinks (optRd present p) := by
  cases present with
  | false => exact shrinks_pure _
  | true => exact hp.bind fun _ => shrinks_pure _

theorem shrinks_rflag (coded : Bool) : Shrinks (rflag coded) := by
  cases coded with
  | false => exact shrinks_pure _
  | true => exact shrinks_getFlag

theorem shrinks_rdUnit (present : Bool) (larger : Option Nat) (w : Nat) : Shrinks (rdUnit present larger w) := by
  refine shrinks_optRd present ?_
  split
  · exact shrinks_getBits w
  · exact shrinks_getV5

theorem shrinks_ite {c : Prop} [Decidable c] {q : BitRd α} (hp : Shrinks p) (hq : Shrinks q) :
    Shrinks (if c then p else q) := by
  split
  · exact hp
  · exact hq

/-! ## Values -/

theorem shrinks_decodeRange (r : Range) : Shrinks (decodeRange r) :=
  (shrinks_getOffset _).bind fun _ => (shrinks_require _).bind fun _ => shrinks_pure _

theorem shrinks_decodeSvlu5 : Shrinks decodeSvlu5 :=
  shrinks_getFlag.bind fun _ => shrinks_getV5.bind fun _ => shrinks_pure _

theorem shrinks_decListCount (len : Range) (unbounded : Bool) : Shrinks (decListCount len unbounded) :=
  (shrinks_getOffset _).bind fun _ => (shrinks_require _).bind fun _ => shrinks_pure _

theorem shrinks_countedBytes : Shrinks countedBytes :=
  shrinks_getV5.bind fun _ => shrinks_bitsLeft.bind fun _ => (shrinks_require _).bind fun _ => shrinks_getBytes _

theorem shrinks_utf8Render : Shrinks utf8Render :=
  shrinks_countedBytes.bind fun _ => (shrinks_require _).bind fun _ => shrinks_pure _

theorem shrinks_binaryRender (hex : Bool) : Shrinks (binaryRender hex) :=
  shrinks_getV5.bind fun _ => shrinks_bitsLeft.bind fun _ => (shrinks_require _).bind fun _ =>
    (shrinks_getBytes _).bind fun _ => shrinks_pure _

theorem shrinks_enumRender (values : List CStr) : Shrinks (enumRender values) := by
  refine (shrinks_getBits _).bind fun v => ?_
  cases values[v]? with
  | none => exact shrinks_failure
  | some s => exact shrinks_pure _

theorem shrinks_tvaDatetimeDecode : Shrinks tvaDatetimeDecode :=
  (shrinks_getBits 32).bind fun _ => (shrinks_getBits 32).bind fun _ => (shrinks_require _).bind fun _ => shrinks_pure _

theorem shrinks_tvaDateDecode : Shrinks tvaDateDecode :=
  (shrinks_getBits 32).bind fun _ => (shrinks_require _).bind fun _ => shrinks_pure _

variable (st : DvbState)

theorem shrinks_datetimeDecode : Shrinks (datetimeDecode st) := by
  have hminutes : ∀ st : DvbState, Shrinks (do
      let minutes ← getBits 11
      require (minutes < 1440)
      return (instantText st.mjd (minutes * 60000), st)) := fun st =>
    (shrinks_getBits 11).bind fun _ => (shrinks_require _).bind fun _ => shrinks_pure _
  refine (shrinks_getBits 2).bind fun flag => shrinks_ite ?_ ?_
  · refine shrinks_getFlag.bind fun hasDate => ?_
    split
    · exact (shrinks_getBits 16).bind fun _ => (shrinks_pure _).bind hminutes
    · split
      · exact (shrinks_pure _).bind hminutes
      · exact (shrinks_failure).bind hminutes
  · refine (shrinks_require _).bind fun _ => (shrinks_getBits 32).bind fun _ => (shrinks_getBits 32).bind fun _ => ?_
    exact (shrinks_require _).bind fun _ => shrinks_pure _

theorem shrinks_m7TimepointDecode (compat : Bool) (f : Facets) : Shrinks (m7TimepointDecode compat f) := by
  repeat' first
    | refine (shrinks_rflag _).bind fun _ => ?_
    | refine (shrinks_optRd _ shrinks_getV5).bind fun _ => ?_
    | refine (shrinks_optRd _ (shrinks_getBits _)).bind fun _ => ?_
    | refine (shrinks_require _).bind fun _ => ?_
  refine (shrinks_optRd _ ?_).bind fun _ => shrinks_pure _
  exact (shrinks_getBits 5).bind fun _ => (shrinks_getBits 2).bind fun _ => shrinks_pure _

theorem shrinks_m7DurationDecode (compat : Bool) (f : Facets) : Shrinks (m7DurationDecode compat f) := by
  repeat' first
    | refine (shrinks_rflag _).bind fun _ => ?_
    | refine (shrinks_rdUnit _ _ _).bind fun _ => ?_
    | refine (shrinks_optRd _ shrinks_getV5).bind fun _ => ?_
    | refine (shrinks_optRd _ (shrinks_getBits _)).bind fun _ => ?_
    | refine (shrinks_require _).bind fun _ => ?_
  refine (shrinks_optRd _ ?_).bind fun _ => shrinks_pure _
  exact (shrinks_getBits 6).bind fun _ => (shrinks_getBits 2).bind fun _ => shrinks_pure _

theorem shrinks_tagRounds (n : Nat) (sep : UInt8) : Shrinks (tagRounds n sep) := by
  induction n generalizing sep with
  | zero => exact shrinks_failure
  | succ n ih =>
    refine (shrinks_getBits 8).bind fun tag => shrinks_getFlag.bind fun more => ?_
    cases more with
    | true => exact (ih 38).bind fun _ => shrinks_pure _
    | false => exact (shrinks_pure _).bind fun _ => shrinks_pure _

theorem shrinks_tagsText (more : Bool) : Shrinks (tagsText more) := by
  cases more with
  | true => exact fun s a s' h => shrinks_tagRounds _ _ s a s' h
  | false => exact shrinks_pure _

theorem shrinks_locatorHead : Shrinks (locatorHead st) := by
  have hids : ∀ fresh, Shrinks (locatorIds st fresh) := fun fresh => shrinks_ite
    ((shrinks_getBits 16).bind fun _ => (shrinks_getBits 16).bind fun _ => (shrinks_getBits 16).bind fun _ => shrinks_pure _)
    ((shrinks_require _).bind fun _ => shrinks_pure _)
  have hcid : ∀ present tagged, Shrinks (cidText present tagged) := fun _ _ =>
    shrinks_ite ((shrinks_require _).bind fun _ => (shrinks_getBits 32).bind fun _ => shrinks_pure _) (shrinks_pure _)
  have hevent : ∀ kind, Shrinks (eventText kind) := fun _ =>
    shrinks_ite (shrinks_pure _) ((shrinks_getBits 16).bind fun _ => shrinks_pure _)
  have hday : ∀ (st : DvbState) fresh, Shrinks (locatorDay st fresh) := fun _ _ =>
    shrinks_ite ((shrinks_getBits 16).bind fun _ => shrinks_pure _) ((shrinks_require _).bind fun _ => shrinks_pure _)
  have htime : ∀ (st : DvbState) present, Shrinks (locatorTime st present) := fun st _ =>
    shrinks_ite (shrinks_getFlag.bind fun _ => (hday st _).bind fun _ => (shrinks_getBits 17).bind fun _ =>
      (shrinks_getBits 17).bind fun _ => (shrinks_require _).bind fun _ => shrinks_pure _) (shrinks_pure _)
  exact shrinks_getFlag.bind fun _ => (hids _).bind fun _ => shrinks_getFlag.bind fun _ => (shrinks_tagsText _).bind fun _ =>
    shrinks_getFlag.bind fun _ => (hcid _ _).bind fun _ => (shrinks_getBits 2).bind fun _ => (shrinks_require _).bind fun _ =>
    (hevent _).bind fun _ => shrinks_getFlag.bind fun _ => (htime _ _).bind fun _ => shrinks_pure _

theorem shrinks_compactTerm (cs : Option DvbCs) : Shrinks (compactTerm cs) := by
  refine shrinks_getFlag.bind fun grouping => ?_
  have hcode : Shrinks (csCode grouping) := shrinks_ite
    (shrinks_getV5.bind fun _ => shrinks_getV8.bind fun _ => shrinks_pure _) ((shrinks_getBits 7).bind fun _ => shrinks_pure _)
  exact hcode.bind fun _ => shrinks_getV8.bind fun _ => shrinks_lift _

/-! ## Bits and strings -/

/-- `p` gives no bit back. -/
def Takes (p : SrcRd α) : Prop := ∀ s a s', p s = some (a, s') → s'.bits.length ≤ s.bits.length

theorem takes_pure (a : α) : Takes (pure a : SrcRd α) := by
  intro s a' s' h
  cases h
  exact le_rfl

theorem takes_failure : Takes (failure : SrcRd α) := fun _ _ _ h => absurd h (by simp [failure, StateT.failure])

theorem Takes.bind {p : SrcRd α} {f : α → SrcRd β} (hp : Takes p) (hf : ∀ a, Takes (f a)) : Takes (p >>= f) := by
  intro s b s'' h
  obtain ⟨⟨a, s'⟩, ha, hb⟩ := Option.bind_eq_some_iff.1 h
  exact le_trans (hf a s' b s'' hb) (hp s a s' ha)

theorem takes_ofBits (hp : Shrinks p) : Takes (ofBits p) := by
  intro s a s' h
  obtain ⟨⟨a, bits⟩, hrun, heq⟩ := Option.map_eq_some_iff.1 h
  cases heq
  exact hp _ _ _ hrun

theorem takes_ite {c : Prop} [Decidable c] {p q : SrcRd α} (hp : Takes p) (hq : Takes q) : Takes (if c then p else q) := by
  split
  · exact hp
  · exact hq

theorem takes_get : Takes (get : SrcRd Source) := by
  intro s a s' h
  cases h
  exact le_rfl

theorem takes_dvbString : Takes dvbString := by
  refine takes_get.bind fun src => ?_
  cases src.sr with
  | none => exact takes_failure
  | some sr =>
    have hresync : Takes (takeResync sr) := takes_ite
      ((takes_ofBits (shrinks_getBits 16)).bind fun _ => takes_ite takes_failure (takes_pure _)) (takes_pure _)
    refine hresync.bind fun sr => takes_ite ?_ takes_failure
    intro s a s' h
    cases h
    exact le_rfl

theorem takes_locatorDecode : Takes (locatorDecode st) := by
  have hpath : ∀ present, Takes (pathText present) := fun _ => takes_ite (takes_dvbString.bind fun _ => takes_pure _) (takes_pure _)
  refine (takes_ofBits shrinks_getFlag).bind fun _ => takes_ite ?_ (takes_dvbString.bind fun _ => takes_pure _)
  exact (takes_ofBits (shrinks_locatorHead st)).bind fun _ => (takes_ofBits shrinks_getFlag).bind fun _ =>
    (hpath _).bind fun _ => takes_pure _

theorem takes_durationDecode : Takes durationDecode :=
  (takes_ofBits shrinks_getFlag).bind fun _ =>
    takes_ite ((takes_ofBits (shrinks_getBits 11)).bind fun _ => takes_pure _) (takes_dvbString.bind fun _ => takes_pure _)

theorem takes_termRender (o : DecodeOpts σ) : Takes (termRender o) :=
  takes_get.bind fun _ => takes_ite takes_failure ((takes_ofBits shrinks_getFlag).bind fun _ =>
    takes_ite (takes_ofBits (shrinks_compactTerm _)) (takes_dvbString.bind fun _ => takes_pure _))

/-! ## Steps of the decoder -/

/-- Lower is a decoder with fewer bits and the same nesting. -/
instance : Preorder (Dec σ) where
  le d d' := d.src.bits.length ≤ d'.src.bits.length ∧ d.level = d'.level
  le_refl _ := ⟨Nat.le_refl _, rfl⟩
  le_trans _ _ _ h h' := ⟨Nat.le_trans h.1 h'.1, h.2.trans h'.2⟩

theorem ends_ofSrc {p : SrcRd α} (hp : Takes p) (d : Dec σ) : Ends (fun _ => ofSrc p) d := by
  refine endsWith_const ?_
  rw [ofSrc]
  cases h : p d.src with
  | none => exact trivial
  | some x => exact ⟨hp _ _ _ h, rfl⟩

theorem ends_rd (hp : Shrinks p) (d : Dec σ) : Ends (fun _ => rd p) d := ends_ofSrc (takes_ofBits hp) d

theorem ends_rd_pos (hp : ∀ s a s', p s = some (a, s') → s'.length < s.length) (d : Dec σ) :
    EndsWith (fun x => x.2 ≤ d ∧ x.2.src.bits.length < d.src.bits.length) (fun _ => rd p) d := by
  refine endsWith_const ?_
  rw [rd, ofSrc, ofBits]
  cases h : p d.src.bits with
  | none => exact trivial
  | some x =>
    have hlt := hp _ _ _ h
    exact ⟨⟨le_of_lt hlt, rfl⟩, hlt⟩

end DvbIpiTools.Bim
