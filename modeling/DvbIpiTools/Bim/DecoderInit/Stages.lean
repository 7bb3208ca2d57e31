import Mathlib.Data.List.Nodup
import DvbIpiTools.Bim.DecoderInit.Tables

set_option autoImplicit false

/-! # The stages of the DecoderInit parser

A record goes through the stages of the parser one after another: the head, the initial schemas, the
parts of the tail. `headOf`, `initOf`, ... cut a record back to what a stage starts from. For each stage
the parser's result is valid and its code is read back; the search for the mapping SchemaID width
takes the width the record was written with exactly when no other width fits. -/

namespace DvbIpiTools.Bim

open BitList ListReader List

namespace DecoderInit

/-- What is set before the InitialDocument. -/
def addOf (di : DecoderInit) : DecoderInit := { di with initial := [] }

/-- What is set before the additional schemas. -/
def fragOf (di : DecoderInit) : DecoderInit := { di with
    nadditional := 0
    known := []
    schemaEncoding := 0
    castable := {}
    substitutable := {}
    initial := [] }

/-- What is set before the fragment reference formats. -/
def aodOf (di : DecoderInit) : DecoderInit := { di with
    fragFormats := []
    nadditional := 0
    known := []
    schemaEncoding := 0
    castable := {}
    substitutable := {}
    initial := [] }

/-- What is set before the tail. -/
def initOf (di : DecoderInit) : DecoderInit := { di with
    instances := []
    mappings := []
    fragFormats := []
    nadditional := 0
    known := []
    schemaEncoding := 0
    castable := {}
    substitutable := {}
    initial := [] }

/-- What is set before the AdvancedOptimisedDecoderTypes. -/
def cptOf (di : DecoderInit) : DecoderInit := { di.initOf with
    cptCodeLen := di.cptCodeLen
    cptComplete := di.cptComplete
    cpaths := di.cpaths
    aodTypes := [] }

/-- What is set before the schemas. -/
def headOf (di : DecoderInit) : DecoderInit where
  mpegb := di.mpegb
  profile := di.profile
  unitSizeCode := di.unitSizeCode
  reserved := di.reserved
  noAdvanced := di.noAdvanced
  insert := di.insert
  aod := di.aod
  addSchema := di.addSchema
  addSchemaOnly := di.addSchemaOnly
  fragRef := di.fragRef
  mpcOnly := di.mpcOnly
  hier := di.hier
  cpt := di.cpt
  prefixTable := di.prefixTable
  prefixes := di.prefixes

/-- What is set before the features. -/
def fixedOf (di : DecoderInit) : DecoderInit where
  mpegb := di.mpegb
  profile := di.profile
  unitSizeCode := di.unitSizeCode
  reserved := di.reserved
  noAdvanced := di.noAdvanced

/-! ## Head -/

structure HeadValid (di : DecoderInit) : Prop where
  profile : di.profile < 2 ^ 64
  unitSizeCode : di.unitSizeCode < 2 ^ 3
  reserved : di.reserved < if di.mpegb then 2 ^ 4 else 2 ^ 5
  old : di.mpegb = false → di.noAdvanced = true
  plain : di.noAdvanced = true → di.flags = replicate 9 false ∧ di.prefixes = []
  features : di.noAdvanced = false → di.FeaturesValid

def headBits (di : DecoderInit) : List Bool := vluimsbf8Bits di.profile ++ (ofNat 3 di.unitSizeCode ++
    if di.mpegb then [di.noAdvanced] ++ (ofNat 4 di.reserved ++ if di.noAdvanced then [] else featuresBits di)
    else ofNat 5 di.reserved)

theorem yields_rdFeatures (di : DecoderInit) : Yields (rdFeatures di) fun d _ =>
    d.FeaturesValid ∧ d = { di.setFlags d.flags with prefixes := d.prefixes } := fun _ _ _ h => of_rdFeatures h

theorem yields_rdHead (mpegb : Bool) : Yields (rdHead mpegb) fun d _ =>
    d.mpegb = mpegb ∧ d.headOf = d ∧ d.HeadValid := by
  refine (yields_rdV8 diRd).bind ?_
  rintro profile _ ⟨hprofile, -⟩
  refine (yields_rdBits diRd 3).bind ?_
  rintro unit _ ⟨hunit, -⟩
  cases mpegb with
  | true =>
    refine (yields_rdFlag diRd).bind ?_
    rintro noAdvanced _ -
    refine (yields_rdBits diRd 4).bind ?_
    rintro reserved _ ⟨hres, -⟩
    cases noAdvanced with
    | true =>
      exact yields_pure ⟨rfl, rfl, hprofile, hunit, hres, Bool.noConfusion,
        fun _ => ⟨rfl, rfl⟩, Bool.noConfusion⟩
    | false =>
      refine (yields_rdFeatures _).mono ?_
      rintro d _ ⟨hf, hd⟩
      have hna : d.noAdvanced = false := by rw [hd]; rfl
      have hmp : d.mpegb = true := by rw [hd]; rfl
      refine ⟨hmp, ?_, ?_, ?_, ?_, ?_, ?_, fun _ => hf⟩
      · rw [hd]; rfl
      · rw [hd]; exact hprofile
      · rw [hd]; exact hunit
      · rw [hd]; exact hres
      · intro h; rw [hmp] at h; cases h
      · intro h; rw [hna] at h; cases h
  | false =>
    refine (yields_rdBits diRd 5).bind ?_
    rintro reserved _ ⟨hres, -⟩
    exact yields_pure ⟨rfl, rfl, hprofile, hunit, hres, fun _ => rfl, fun _ => ⟨rfl, rfl⟩, Bool.noConfusion⟩

variable {di : DecoderInit}

theorem headOf_of_plain (hf : di.flags = replicate 9 false) (hp : di.prefixes = []) : di.headOf = di.fixedOf := by
  simp only [flags, replicate, cons.injEq] at hf
  obtain ⟨h1, h2, h3, h4, h5, h6, h7, h8, h9, -⟩ := hf
  rw [headOf, fixedOf, h1, h2, h3, h4, h5, h6, h7, h8, h9, hp]

theorem inverts_rdHead (hv : di.HeadValid)
    (hm : PrefixesMandatory di.prefixes) : Inverts (rdHead di.mpegb) (headBits di) di.headOf := by
  refine (inverts_rdV8 diRd hv.profile).bind ((inverts_rdBits diRd hv.unitSizeCode).bind ?_)
  have hres := hv.reserved
  cases hmp : di.mpegb with
  | true =>
    rw [hmp] at hres
    refine (inverts_rdFlag diRd _).bind ((inverts_rdBits diRd hres).bind ?_)
    cases hna : di.noAdvanced with
    | true =>
      obtain ⟨hf, hp⟩ := hv.plain hna
      rw [headOf_of_plain hf hp, fixedOf, hmp, hna]
      exact inverts_pure _
    | false =>
      have hbase : di.headOf = { di.fixedOf.setFlags di.flags with prefixes := di.prefixes } := rfl
      rw [hbase, fixedOf, hmp, hna]
      exact inverts_rdFeatures _ (hv.features hna) hm
  | false =>
    rw [hmp] at hres
    have hna := hv.old hmp
    obtain ⟨hf, hp⟩ := hv.plain hna
    rw [headOf_of_plain hf hp, fixedOf, hmp, hna]
    exact (inverts_rdBits diRd hres).map

/-! ## Initial schemas -/

structure InitValid (di : DecoderInit) : Prop where
  only : di.addSchemaOnly = true → di.initOf = di.headOf
  schemas : di.addSchemaOnly = false → di.schemas ≠ []
  nschemas : di.schemas.length < 2 ^ 64
  schema : ∀ k s, di.schemas[k]? = some s → SchemaValid k s
  cpt_off : di.cpt = false → di.cptCodeLen = 0 ∧ di.cptComplete = false ∧ di.cpaths = []
  cpt : di.addSchemaOnly = false → di.cpt = true → di.CptValid
  aod_off : di.aod = false → di.aodTypes = []
  naodTypes : di.aodTypes.length < 2 ^ 64
  aodTypes : ∀ t ∈ di.aodTypes, t.Fits

theorem yields_rdSchemas (di : DecoderInit) : Yields (rdSchemas di) fun d _ =>
    ∃ ss, d = { di with schemas := ss } ∧ ss ≠ [] ∧ ss.length < 2 ^ 64 ∧ ∀ k s, ss[k]? = some s → SchemaValid k s := by
  refine (yields_rdCount diRd 24).bind ?_
  rintro n _ ⟨hn, -⟩
  split
  · exact yields_throw
  rename_i h0
  have hone : ∀ k : Nat, Yields (rdSchema di.mpegb k)
      fun s m => SchemaValid k s ∧ (fun _ => 0) s ≤ m :=
    fun k => (yields_rdSchema di.mpegb k).mono fun s m hs => ⟨hs, Nat.zero_le m⟩
  refine (yields_each 0 n hone).bind ?_
  rintro ss _ ⟨rfl, hall, -⟩
  refine yields_pure ⟨ss, rfl, fun hnil => h0 (by rw [hnil]; rfl), hn, fun k s hk => ?_⟩
  have := hall k s hk
  rwa [zero_add] at this

theorem yields_rdCptStage (di : DecoderInit) : Yields (rdCptStage di) fun d _ =>
    ∃ cl cc cps, d = { di with cptCodeLen := cl, cptComplete := cc, cpaths := cps } ∧
      (di.cpt = false → d = di) ∧ (di.cpt = true → d.CptValid) := by
  unfold rdCptStage
  split
  · next hcpt =>
    intro s d s' h
    obtain ⟨hle, hv, hd⟩ := of_rdCpt h
    exact ⟨hle, _, _, _, hd, fun hf => absurd (hf.symm.trans hcpt) (by decide), fun _ => hv⟩
  · next hcpt => exact yields_pure ⟨_, _, _, rfl, fun _ => rfl, fun hf => absurd hf hcpt⟩

theorem yields_rdAodTypes (di : DecoderInit) : Yields (rdAodTypes di) fun d _ =>
    ∃ ts, d = { di with aodTypes := ts } ∧ (di.aod = false → d = di) ∧
      (di.aod = true → ts.length < 2 ^ 64 ∧ ∀ t ∈ ts, t.Fits) := by
  have hstr : ∀ _ : Nat, Yields (rdStr diRd none "") fun t _ => t.Fits :=
    fun _ => (yields_rdStr diRd none "").mono fun t m h => h.1
  unfold rdAodTypes
  split
  · next haod =>
    refine (yields_table diRd 8 hstr).bind ?_
    rintro ts _ ⟨hlen, hts⟩
    exact yields_pure ⟨ts, rfl, fun hf => absurd (hf.symm.trans haod) (by decide), fun _ => ⟨hlen, mem_of_table hts⟩⟩
  · next haod => exact yields_pure ⟨_, rfl, fun _ => rfl, fun hf => absurd hf haod⟩

theorem initValid_headOf (honly : di.addSchemaOnly = true) : di.headOf.InitValid where
  only := fun _ => rfl
  schemas := fun h => absurd (h.symm.trans honly) (by decide)
  nschemas := (by decide : 0 < 2 ^ 64)
  schema := by simp [headOf]
  cpt_off := fun _ => ⟨rfl, rfl, rfl⟩
  cpt := fun h => absurd (h.symm.trans honly) (by decide)
  aod_off := fun _ => rfl
  naodTypes := (by decide : 0 < 2 ^ 64)
  aodTypes := by simp [headOf]

theorem yields_rdInitialSchemas (hdi : di.headOf = di) :
    Yields (rdInitialSchemas di) fun d _ => d.headOf = di ∧ d.initOf = d ∧ d.InitValid := by
  unfold rdInitialSchemas
  rw [← hdi]
  split
  · next honly => exact yields_pure ⟨rfl, rfl, initValid_headOf honly⟩
  rename_i honly
  refine (yields_rdSchemas _).bind ?_
  rintro _ _ ⟨ss, rfl, hne, hlen, hss⟩
  refine (yields_rdCptStage _).bind ?_
  rintro _ _ ⟨cl, cc, cps, rfl, hoff, hon⟩
  refine (yields_rdAodTypes _).mono ?_
  rintro _ _ ⟨ts, rfl, haoff, haon⟩
  have hts : ts.length < 2 ^ 64 ∧ ∀ t ∈ ts, t.Fits := by
    cases haod : di.aod with
    | true => exact haon haod
    | false =>
      have hnil : ts = [] := congrArg aodTypes (haoff haod)
      rw [hnil]
      exact ⟨by decide, by simp⟩
  refine ⟨rfl, rfl, ⟨fun h => absurd h honly, fun _ => hne, hlen, hss, ?_, ?_, ?_, hts.1, hts.2⟩⟩
  · intro hcpt
    have hd := hoff hcpt
    exact ⟨congrArg cptCodeLen hd, congrArg cptComplete hd, congrArg cpaths hd⟩
  · intro _ hcpt
    have hv := hon hcpt
    exact { hv with }
  · intro haod
    exact congrArg aodTypes (haoff haod)

def cptStageBits (di : DecoderInit) : List Bool := if di.cpt then cptBits di else []

def aodTypesBits (di : DecoderInit) : List Bool :=
  if di.aod then tableBits strBits di.aodTypes else []

def initBits (di : DecoderInit) : List Bool :=
  if di.addSchemaOnly then []
  else tableBits schemaBits di.schemas ++ (cptStageBits di ++ aodTypesBits di)

def SchemasMandatory (di : DecoderInit) : Prop := ∀ s ∈ di.schemas, SchemaMandatory di.mpegb s

theorem inverts_rdSchemas (hv : di.InitValid) (hm : di.SchemasMandatory) (honly : di.addSchemaOnly = false) :
    Inverts (rdSchemas di.headOf) (tableBits schemaBits di.schemas)
      { di.headOf with schemas := di.schemas } := by
  intro rest
  have hfit := length_flatMap_ge di.schemas schemaBits 24
    fun s hs => twentyFour_le_schemaBits (hm s hs)
  have hschemas : Inverts (each (rdSchema di.headOf.mpegb) 0 di.schemas.length)
      (di.schemas.flatMap schemaBits) di.schemas := by
    refine inverts_each di.schemas 0 fun k s hk => ?_
    rw [zero_add]
    exact inverts_rdSchema (hv.schema k s hk) (hm s (mem_of_getElem? hk))
  rw [rdSchemas, tableBits, append_assoc, bind_of_ok (rdCount_bits diRd hv.nschemas (by
    rw [length_append]; omega)), if_neg, bind_of_ok (hschemas rest)]
  · rfl
  · exact fun h => hv.schemas honly (length_eq_zero_iff.1 h)

variable {rest : List Bool}

theorem rdCptStage_bits (hv : di.InitValid) (honly : di.addSchemaOnly = false) (hfit : di.cpt = true → di.PathCountFits rest.length) :
    rdCptStage { di.headOf with schemas := di.schemas } (cptStageBits di ++ rest)
      = .ok di.cptOf rest := by
  rw [rdCptStage, cptStageBits]
  show (if di.cpt = true then _ else _ : Rd DecoderInit) _ = _
  split
  · next hcpt => exact rdCpt_bits _ (hv.cpt honly hcpt) (hfit hcpt)
  · next hcpt =>
    obtain ⟨h1, h2, h3⟩ := hv.cpt_off (by simpa using hcpt)
    rw [cptOf, h1, h2, h3]
    rfl

theorem inverts_rdAodTypes (hv : di.InitValid) : Inverts (rdAodTypes di.cptOf) (aodTypesBits di) di.initOf := by
  cases haod : di.aod with
  | true =>
    have htable : Inverts (rdCounted diRd 8 fun _ => rdStr diRd none "")
        (tableBits strBits di.aodTypes) di.aodTypes := by
      refine inverts_rdCounted diRd hv.naodTypes (fun t _ => eight_le_strBits t) fun j t hj => ?_
      exact inverts_rdStr diRd none "" t (hv.aodTypes t (mem_of_getElem? hj))
        nofun
    rw [rdAodTypes, aodTypesBits, if_pos haod, if_pos (show di.cptOf.aod = true from haod)]
    exact htable.map
  | false =>
    have hnot : ¬ di.aod = true := by simp [haod]
    have hd : di.initOf = di.cptOf := by rw [initOf, hv.aod_off haod]; rfl
    rw [rdAodTypes, aodTypesBits, if_neg hnot, if_neg (show ¬ di.cptOf.aod = true from hnot), hd]
    exact inverts_pure _

theorem rdInitialSchemas_bits (hv : di.InitValid) (hm : di.SchemasMandatory)
    (hfit : di.addSchemaOnly = false → di.cpt = true → di.PathCountFits (aodTypesBits di ++ rest).length) :
    rdInitialSchemas di.headOf (initBits di ++ rest) = .ok di.initOf rest := by
  rw [rdInitialSchemas, initBits]
  show (if di.addSchemaOnly = true then _ else _ : Rd DecoderInit) _ = _
  split
  · next honly =>
    rw [hv.only honly]
    rfl
  · next honly =>
    have honly' : di.addSchemaOnly = false := by simpa using honly
    rw [append_assoc, bind_of_ok (inverts_rdSchemas hv hm honly' _), append_assoc,
      bind_of_ok (rdCptStage_bits hv honly' (hfit honly'))]
    exact inverts_rdAodTypes hv rest

theorem rdInitialSchemas_short (hv : di.InitValid) (hm : di.SchemasMandatory) (honly : di.addSchemaOnly = false) (hcpt : di.cpt = true)
    (hfit : ¬ di.PathCountFits (aodTypesBits di ++ rest).length) (d : DecoderInit)
    (s' : List Bool) : rdInitialSchemas di.headOf (initBits di ++ rest) ≠ .ok d s' := by
  intro h
  have honly' : ¬ di.addSchemaOnly = true := by simp [honly]
  rw [rdInitialSchemas, initBits, if_neg honly', if_neg (show ¬ di.headOf.addSchemaOnly = true from honly'),
    append_assoc, bind_of_ok (inverts_rdSchemas hv hm honly _), append_assoc] at h
  obtain ⟨e, s1, hstage, -⟩ := ok_of_bind h
  rw [rdCptStage, cptStageBits, if_pos hcpt, if_pos (show di.headOf.cpt = true from hcpt)] at hstage
  exact rdCpt_short _ (hv.cpt honly hcpt) hfit _ _ hstage

/-! ## Tail -/

theorem nall_lt (di : DecoderInit) : di.nall < 2 ^ 64 := by
  unfold nall
  dsimp only
  have hmod := Nat.mod_lt (di.schemas.length + if di.addSchema then di.nadditional else 0)
    (show 0 < 2 ^ 64 by decide)
  by_cases h : (di.schemas.length + if di.addSchema then di.nadditional else 0) % 2 ^ 64
      < di.schemas.length
  · rw [if_pos h]
    decide
  · rw [if_neg h]
    exact hmod

/-- The optimised decoders are configured here, not left out or to an update. -/
def hasAod (di : DecoderInit) : Bool := !di.addSchemaOnly && di.aod

def hasFrag (di : DecoderInit) : Bool := !di.addSchemaOnly && di.fragRef

structure TailValid (counts : Counts) (di : DecoderInit) : Prop where
  aod_off : di.hasAod = false → di.instances = [] ∧ di.mappings = []
  instances : InstancesValid di.aodTypes.length di.instances
  mappings : MappingsValid di.instances.length di.nall di.mappings
  frag_off : di.hasFrag = false → di.fragFormats = []
  frag : di.fragFormats.length < 2 ^ 8
  add_off : di.addSchema = false → di.nadditional = 0 ∧ di.known = [] ∧ di.schemaEncoding = 0 ∧
    di.castable = {} ∧ di.substitutable = {}
  add : di.addSchema = true → AdditionalValid counts di
  initial_off : di.addSchemaOnly = true → di.initial = []
  initial : di.initial.length < 2 ^ 64

/-- What the optimised decoder part accepts; SchemaID is held against `nall` once that is known. -/
structure AodValid (di : DecoderInit) : Prop where
  off : di.hasAod = false → di.instances = [] ∧ di.mappings = []
  instances : InstancesValid di.aodTypes.length di.instances
  mappings : ∀ nall, (∀ m ∈ di.mappings, ∀ t ∈ m.types, t.schema < nall) →
    MappingsValid di.instances.length nall di.mappings

theorem yields_rdTailAod (hdi : di.initOf = di) (sw : Nat) :
    Yields (rdTailAod di sw) fun d _ => d.initOf = di ∧ d.aodOf = d ∧ d.AodValid := by
  have his : di.instances = [] := by rw [← hdi]; rfl
  have hms : di.mappings = [] := by rw [← hdi]; rfl
  unfold rdTailAod
  split
  · next haod =>
    refine (yields_rdInstances _).bind ?_
    rintro is _ his
    refine (yields_rdMappings _ _).bind ?_
    rintro ms _ hms
    refine yields_pure ⟨hdi, ?_, fun hf => absurd (hf.symm.trans haod) (by decide), his, hms⟩
    rw [← hdi]
    rfl
  rename_i haod
  refine yields_pure ⟨hdi, ?_, fun _ => ⟨his, hms⟩, ?_, ?_⟩
  · rw [← hdi]
    rfl
  · rw [his]
    exact ⟨by decide, by simp⟩
  · rw [hms]
    exact fun _ _ => ⟨by decide, by simp⟩

theorem yields_rdTailFrag (hdi : di.aodOf = di) : Yields (rdTailFrag di) fun d _ => d.aodOf = di ∧ d.fragOf = d ∧
      (d.hasFrag = false → d.fragFormats = []) ∧ d.fragFormats.length < 2 ^ 8 := by
  have hff : di.fragFormats = [] := by rw [← hdi]; rfl
  unfold rdTailFrag
  split
  · next hfrag =>
    refine (yields_rdBits diRd 8).bind ?_
    rintro n _ ⟨hn, -⟩
    refine (yields_rdBytes diRd n).bind ?_
    rintro ff _ ⟨rfl, -⟩
    refine yields_pure ⟨hdi, ?_, fun hf => absurd (hf.symm.trans hfrag) (by decide), hn⟩
    rw [← hdi]
    rfl
  rename_i hfrag
  refine yields_pure ⟨hdi, ?_, fun _ => hff, ?_⟩
  · rw [← hdi]
    rfl
  · rw [hff]
    decide

theorem yields_rdTailAdd (counts : Counts) (hdi : di.fragOf = di) :
    Yields (rdTailAdd counts di) fun d _ => d.fragOf = di ∧ d.addOf = d ∧
      (d.addSchema = false → d = di) ∧ (d.addSchema = true → AdditionalValid counts d) := by
  unfold rdTailAdd
  split
  · next hadd =>
    refine (yields_rdAdditional counts di).mono ?_
    rintro d _ ⟨hv, hd⟩
    have hadd' : d.addSchema = true := by rw [hd]; exact hadd
    refine ⟨?_, ?_, fun hf => absurd (hf.symm.trans hadd') (by decide), fun _ => hv⟩
    · rw [hd]
      exact hdi
    · have hinit : d.initial = [] := by rw [hd, ← hdi]; rfl
      rw [addOf, ← hinit]
  · next hadd =>
    refine yields_pure ⟨hdi, ?_, fun _ => rfl, fun hf => absurd hf hadd⟩
    rw [← hdi]
    rfl

theorem yields_rdTailInitial (hdi : di.addOf = di) : Yields (rdTailInitial di) fun d _ => d.addOf = di ∧
      (d.addSchemaOnly = true → d.initial = []) ∧ d.initial.length < 2 ^ 64 := by
  have hnil : di.initial = [] := by rw [← hdi]; rfl
  unfold rdTailInitial
  split
  · next honly =>
    refine (yields_rdV8 diRd).bind ?_
    rintro n _ ⟨hn, -⟩
    refine (yields_rdBytes diRd n).bind ?_
    rintro doc _ ⟨rfl, -⟩
    refine yields_pure ⟨hdi, fun hf => ?_, hn⟩
    rw [show di.addSchemaOnly = true from hf] at honly
    cases honly
  · next honly =>
    refine yields_pure ⟨hdi, fun _ => hnil, ?_⟩
    rw [hnil]
    decide

theorem yields_checkMappings (di : DecoderInit) : Yields (checkMappings di) fun _ _ =>
    ∀ m ∈ di.mappings, ∀ t ∈ m.types, t.schema < di.nall := by
  unfold checkMappings
  split
  · next hok =>
    refine yields_pure fun m hm t ht => ?_
    have hm' := all_eq_true.1 hok m hm
    exact of_decide_eq_true (all_eq_true.1 hm' t ht)
  · exact yields_throw

variable {counts : Counts}

/-- The parts of the tail put together; each `h` says what the later parts leave alone. -/
theorem tailValid_of_stages {d1 d2 d3 d : DecoderInit} (h₂ : d2.aodOf = d1) (h₃ : d3.fragOf = d2)
    (h₄ : d.addOf = d3) (haod : d1.AodValid)
    (hfrag : (d2.hasFrag = false → d2.fragFormats = []) ∧ d2.fragFormats.length < 2 ^ 8)
    (hadd : (d3.addSchema = false → d3 = d2) ∧ (d3.addSchema = true → AdditionalValid counts d3))
    (hd2 : d2.fragOf = d2) (hinit : (d.addSchemaOnly = true → d.initial = []) ∧ d.initial.length < 2 ^ 64)
    (hcheck : ∀ m ∈ d.mappings, ∀ t ∈ m.types, t.schema < d.nall) : TailValid counts d := by
  subst h₂ h₄
  have hfields : d2.instances = d.instances ∧ d2.mappings = d.mappings ∧
      d2.aodTypes = d.aodTypes ∧ d2.fragFormats = d.fragFormats ∧ d2.hasAod = d.hasAod ∧ d2.hasFrag = d.hasFrag := by
    rw [← h₃]
    exact ⟨rfl, rfl, rfl, rfl, rfl, rfl⟩
  obtain ⟨h1, h2, h3, h4, h5, h6⟩ := hfields
  obtain ⟨hoff, his, hms⟩ := haod
  rw [h4, h6] at hfrag
  rw [show d2.aodOf.instances = d.instances from h1, show d2.aodOf.mappings = d.mappings from h2] at hoff hms
  rw [show d2.aodOf.hasAod = d.hasAod from h5] at hoff
  rw [show d2.aodOf.instances = d.instances from h1, show d2.aodOf.aodTypes = d.aodTypes from h3] at his
  refine ⟨hoff, his, hms _ hcheck, hfrag.1, hfrag.2, ?_, ?_, hinit.1, hinit.2⟩
  · intro h
    have hd : d.addOf = d2.fragOf := by rw [hd2]; exact hadd.1 h
    exact ⟨congrArg DecoderInit.nadditional hd, congrArg DecoderInit.known hd,
      congrArg DecoderInit.schemaEncoding hd, congrArg DecoderInit.castable hd, congrArg DecoderInit.substitutable hd⟩
  · intro h
    have hv := hadd.2 h
    exact { hv with known := fun s hs => (hv.known s hs).congr rfl rfl rfl }

theorem yields_rdTail (counts : Counts) (hdi : di.initOf = di) (sw : Nat) :
    Yields (rdTail counts di sw) fun d _ => d.initOf = di ∧ TailValid counts d := by
  refine (yields_rdTailAod hdi sw).bind ?_
  rintro d1 _ ⟨h1, hd1, haod⟩
  refine (yields_rdTailFrag hd1).bind ?_
  rintro d2 _ ⟨h2, hd2, hfrag⟩
  refine (yields_rdTailAdd counts hd2).bind ?_
  rintro d3 _ ⟨h3, hd3, hadd⟩
  refine (yields_rdTailInitial hd3).bind ?_
  rintro d _ ⟨h4, hinit⟩
  refine (yields_checkMappings d).bind ?_
  rintro _ _ hcheck
  refine yields_pure ⟨?_, tailValid_of_stages h2 h3 h4 haod hfrag hadd hd2 hinit hcheck⟩
  have hcut : d.initOf = d.addOf.fragOf.aodOf.initOf := rfl
  rw [hcut, h4, h3, h2, h1]

def tailAodBits (di : DecoderInit) : List Bool :=
  if di.hasAod then tableBits instanceBits di.instances ++
    tableBits (mappingBits di.instances.length (bimWidth di.nall)) di.mappings
  else []

def tailFragBits (di : DecoderInit) : List Bool :=
  if di.hasFrag then ofNat 8 di.fragFormats.length ++ ofBytes di.fragFormats else []

def tailAddBits (counts : Counts) (di : DecoderInit) : List Bool :=
  if di.addSchema then additionalBits counts di else []

def tailInitialBits (di : DecoderInit) : List Bool :=
  if di.addSchemaOnly then [] else vluimsbf8Bits di.initial.length ++ ofBytes di.initial

def tailBits (counts : Counts) (di : DecoderInit) : List Bool :=
  tailAodBits di ++ (tailFragBits di ++ (tailAddBits counts di ++ tailInitialBits di))

variable (hv : TailValid counts di)

include hv

theorem inverts_rdTailAod {sw : Nat} (hsw : di.hasAod = true → sw = bimWidth di.nall) :
    Inverts (rdTailAod di.initOf sw) (tailAodBits di) di.aodOf := by
  show Inverts (if di.hasAod = true then _ else _) _ _
  unfold tailAodBits
  split
  · next h =>
    rw [hsw h]
    refine (inverts_rdInstances hv.instances).bind ?_
    exact (inverts_rdMappings hv.instances.1 di.nall_lt hv.mappings).map
  · next h =>
    obtain ⟨h1, h2⟩ := hv.aod_off (by simpa using h)
    rw [aodOf, h1, h2]
    exact inverts_pure _

theorem inverts_rdTailFrag : Inverts (rdTailFrag di.aodOf) (tailFragBits di) di.fragOf := by
  show Inverts (if di.hasFrag = true then _ else _) _ _
  unfold tailFragBits
  split
  · exact (inverts_rdBits diRd hv.frag).bind (inverts_rdBytes diRd di.fragFormats).map
  · next h =>
    rw [fragOf, hv.frag_off (by simpa using h)]
    exact inverts_pure _

theorem inverts_rdTailAdd (hm : ∀ s ∈ di.known, SchemaMandatory di.mpegb s) :
    Inverts (rdTailAdd counts di.fragOf) (tailAddBits counts di) di.addOf := by
  show Inverts (if di.addSchema = true then _ else _) _ _
  unfold tailAddBits
  split
  · next h => exact inverts_rdAdditional di.fragOf (hv.add h) hm rfl rfl rfl
  · next h =>
    obtain ⟨h1, h2, h3, h4, h5⟩ := hv.add_off (by simpa using h)
    rw [addOf, h1, h2, h3, h4, h5]
    exact inverts_pure _

theorem inverts_rdTailInitial : Inverts (rdTailInitial di.addOf) (tailInitialBits di) di := by
  show Inverts (if (!di.addSchemaOnly) = true then _ else _) _ _
  unfold tailInitialBits
  cases h : di.addSchemaOnly with
  | true =>
    have hd : di.addOf = di := by rw [addOf, ← hv.initial_off h]
    rw [hd]
    exact inverts_pure _
  | false => exact (inverts_rdV8 diRd hv.initial).bind (inverts_rdBytes diRd di.initial).map

theorem inverts_rdTail (hm : ∀ s ∈ di.known, SchemaMandatory di.mpegb s) {sw : Nat}
    (hsw : di.hasAod = true → sw = bimWidth di.nall) :
    Inverts (rdTail counts di.initOf sw) (tailBits counts di) di := by
  refine (inverts_rdTailAod hv hsw).bind ((inverts_rdTailFrag hv).bind
    ((inverts_rdTailAdd hv hm).bind ?_))
  intro rest
  have hok : di.mappingsOk = true := by
    refine all_eq_true.2 fun m hmem => all_eq_true.2 fun t ht => ?_
    exact decide_eq_true ((hv.mappings.2 m hmem).types t ht).1
  rw [bind_of_ok (inverts_rdTailInitial hv rest), checkMappings, if_pos hok]
  rfl

omit hv

/-! ## The width search -/

/-- A width at which the tail parses and asks for just this width. -/
def consistent (counts : Counts) (di : DecoderInit) (s : List Bool) (w : Nat) : Bool :=
  match rdTail counts di w s with
  | .ok d _ => bimWidth d.nall = w
  | .error _ _ => false

theorem Lookahead.note_hits (l : Lookahead) (e : BimErr) (pos : Nat) :
    (l.note e pos).nhits = l.nhits ∧ (l.note e pos).hit = l.hit := by
  unfold note
  dsimp only
  generalize (if e.code ≠ diTrunc then 1 else 0 : Int) = sem
  split
  · exact ⟨rfl, rfl⟩
  · exact ⟨rfl, rfl⟩

theorem tryWidth_spec (counts : Counts) (di : DecoderInit) (s : List Bool) (l : Lookahead) (w : Nat) :
    (tryWidth counts di s l w).nhits = l.nhits + (if consistent counts di s w then 1 else 0) ∧
      (tryWidth counts di s l w).hit = if consistent counts di s w then w else l.hit := by
  unfold tryWidth consistent
  cases rdTail counts di w s with
  | ok d s' =>
    by_cases h : bimWidth d.nall = w
    · simp [h]
    · simp [h]
  | error e s' => exact l.note_hits e _

/-- The loop counts the consistent widths, and `hit` is the last of them. -/
theorem foldl_tryWidth (counts : Counts) (di : DecoderInit) (s : List Bool) (ws : List Nat) (l : Lookahead) :
    (ws.foldl (tryWidth counts di s) l).nhits
        = l.nhits + (ws.filter (consistent counts di s)).length ∧ (ws.foldl (tryWidth counts di s) l).hit
        = (ws.filter (consistent counts di s)).getLastD l.hit := by
  induction ws generalizing l with
  | nil => exact ⟨rfl, rfl⟩
  | cons w ws ih =>
    obtain ⟨h1, h2⟩ := ih (tryWidth counts di s l w)
    rw [foldl_cons, h1, h2, (tryWidth_spec counts di s l w).1, (tryWidth_spec counts di s l w).2, filter_cons]
    cases hc : consistent counts di s w with
    | true =>
      simp only [if_true, length_cons, getLastD_cons]
      exact ⟨by omega, trivial⟩
    | false => simp

theorem lookahead_unique {s : List Bool} {w : Nat} (hw : w ≤ 64) (hc : consistent counts di s w = true)
    (huniq : ∀ v ≤ 64, v ≠ w → consistent counts di s v = false) :
    ((range 65).foldl (tryWidth counts di s) {}).nhits = 1 ∧
      ((range 65).foldl (tryWidth counts di s) {}).hit = w := by
  have hfilter : (range 65).filter (consistent counts di s) = [w] := by
    have hsub : (range 65).filter (consistent counts di s)
        = (range 65).filter (· == w) := by
      refine filter_congr fun v hv => ?_
      have hv' : v ≤ 64 := Nat.le_of_lt_succ (mem_range.1 hv)
      by_cases hvw : v = w
      · rw [hvw, hc]
        simp
      · rw [huniq v hv' hvw]
        simp [hvw]
    rw [hsub, filter_beq, count_eq_one_of_mem nodup_range
      (mem_range.2 (Nat.lt_succ_of_le hw)), replicate_one]
  obtain ⟨h1, h2⟩ := foldl_tryWidth counts di s (range 65) {}
  rw [h1, h2, hfilter]
  exact ⟨rfl, rfl⟩

theorem lookahead_not_unique {s : List Bool} {v w : Nat} (hw : w ≤ 64) (hc : consistent counts di s w = true)
    (hv : v ≤ 64) (hcv : consistent counts di s v = true) (hvw : v ≠ w) :
    ((range 65).foldl (tryWidth counts di s) {}).nhits ≠ 1 := by
  intro h
  rw [(foldl_tryWidth counts di s (range 65) {}).1, zero_add] at h
  obtain ⟨x, hx⟩ := length_eq_one_iff.1 h
  have hmem : ∀ u ≤ 64, consistent counts di s u = true → u = x := by
    intro u hu hcu
    have : u ∈ (range 65).filter (consistent counts di s) :=
      mem_filter.2 ⟨mem_range.2 (Nat.lt_succ_of_le hu), hcu⟩
    rw [hx] at this
    exact mem_singleton.1 this
  exact hvw ((hmem v hv hcv).trans (hmem w hw hc).symm)

/-- No width but the one the tail was written with reads it consistently. -/
def WidthUnique (counts : Counts) (di : DecoderInit) (rest : List Bool) : Prop :=
  di.needsLookahead = true → ∀ w ≤ 64, w ≠ bimWidth di.nall →
    consistent counts di.initOf (tailBits counts di ++ rest) w = false

/-- Where no lookahead is needed, the width of the initial schemas alone is the right one. -/
theorem width_of_no_lookahead (h : di.needsLookahead = false) (hn : di.schemas.length < 2 ^ 64)
    (haod : di.hasAod = true) : bimWidth di.initOf.schemas.length = bimWidth di.nall := by
  have hadd : di.addSchema = false := by
    simp only [hasAod, Bool.and_eq_true, Bool.not_eq_true'] at haod
    simpa [needsLookahead, haod.1, haod.2] using h
  have hnall : di.nall = di.schemas.length := by
    unfold nall
    rw [hadd]
    simp only [Bool.false_eq_true, if_false, add_zero]
    rw [Nat.mod_eq_of_lt hn, if_neg (lt_irrefl _)]
  rw [hnall]
  rfl

theorem rdTailLookahead_bits (hi : di.InitValid)
    (hv : TailValid counts di) (hm : ∀ s ∈ di.known, SchemaMandatory di.mpegb s) (huniq : WidthUnique counts di rest) :
    rdTailLookahead counts di.initOf (tailBits counts di ++ rest) = .ok di rest := by
  unfold rdTailLookahead
  have hneed : di.initOf.needsLookahead = di.needsLookahead := rfl
  rw [hneed]
  cases h : di.needsLookahead with
  | false =>
    rw [if_pos (by decide)]
    exact inverts_rdTail hv hm (width_of_no_lookahead h hi.nschemas) rest
  | true =>
    have hread := inverts_rdTail hv hm (fun _ => rfl) rest
    have hc : consistent counts di.initOf (tailBits counts di ++ rest) (bimWidth di.nall)
        = true := by
      rw [consistent, hread]
      exact decide_eq_true rfl
    obtain ⟨hn, hhit⟩ := lookahead_unique (bimWidth_le _) hc (huniq h)
    rw [if_neg (by decide)]
    dsimp only
    rw [if_pos hn, hhit, hread]

theorem rdTailLookahead_ambiguous
    (hv : TailValid counts di) (hm : ∀ s ∈ di.known, SchemaMandatory di.mpegb s) (huniq : ¬ WidthUnique counts di rest) (d : DecoderInit) (s' : List Bool) :
    rdTailLookahead counts di.initOf (tailBits counts di ++ rest) ≠ .ok d s' := by
  unfold WidthUnique at huniq
  push Not at huniq
  obtain ⟨h, w, hw, hne, hcw⟩ := huniq
  have hread := inverts_rdTail hv hm (fun _ => rfl) rest
  have hc : consistent counts di.initOf (tailBits counts di ++ rest) (bimWidth di.nall)
      = true := by
    rw [consistent, hread]
    exact decide_eq_true rfl
  have hn := lookahead_not_unique (bimWidth_le _) hc hw (by simpa using hcw) hne
  unfold rdTailLookahead
  rw [show di.initOf.needsLookahead = true from h, if_neg (by decide)]
  rw [if_neg hn]
  split
  · simp
  · simp

end DecoderInit

end DvbIpiTools.Bim
