import DvbIpiTools.Bim.DecoderInit.Stages

set_option autoImplicit false

/-! # The DecoderInit round trip

The writer succeeds on a valid record exactly when the strings whose length may not be zero are not
empty, and then writes the code of the record. So a parsed DecoderInit survives being written and
parsed again exactly when these strings are not empty, the count of context paths stays plausible for
the parser and no second mapping SchemaID width fits the written tail. -/

namespace DvbIpiTools.Bim

open BitList ListReader List Nat

namespace DecoderInit

/-! ## What the parser returns -/

structure Valid (counts : Counts) (di : DecoderInit) : Prop where
  head : di.HeadValid
  init : di.InitValid
  tail : TailValid counts di

variable {di : DecoderInit}

theorem headValid_of_headOf (h : di.headOf.HeadValid) : di.HeadValid where
  __ := h
  features := fun hna =>
    { table_off := (h.features hna).table_off
      prefixes := (h.features hna).prefixes
      len_lt := (h.features hna).len_lt
      only := (h.features hna).only
      add := (h.features hna).add }

theorem initValid_of_initOf (h : di.initOf.InitValid) : di.InitValid where
  __ := h
  cpt := fun ho hc =>
    { codeLen_le := (h.cpt ho hc).codeLen_le
      count_lt := (h.cpt ho hc).count_lt
      paths := (h.cpt ho hc).paths
      len_lt := (h.cpt ho hc).len_lt }

theorem yields_rdTailLookahead (counts : Counts) (hdi : di.initOf = di) :
    Yields (rdTailLookahead counts di) fun d _ => d.initOf = di ∧ TailValid counts d := by
  intro s d s' h
  unfold rdTailLookahead at h
  split at h
  · exact yields_rdTail counts hdi _ s d s' h
  dsimp only at h
  split at h
  · exact yields_rdTail counts hdi _ s d s' h
  · split at h
    · cases h
    · cases h

theorem yields_rdAll (counts : Counts) (mpegb : Bool) :
    Yields (rdAll counts mpegb) fun di _ => di.mpegb = mpegb ∧ Valid counts di := by
  refine (yields_rdHead mpegb).bind ?_
  rintro d0 _ ⟨hmpegb, hd0, hhead⟩
  refine (yields_rdInitialSchemas hd0).bind ?_
  rintro d1 _ ⟨h1, hd1, hinit⟩
  refine (yields_rdTailLookahead counts hd1).mono ?_
  rintro d _ ⟨h2, htail⟩
  have hcut : d.headOf = d0 := by
    rw [← h1, ← h2]
    rfl
  refine ⟨?_, headValid_of_headOf ?_, initValid_of_initOf ?_, htail⟩
  · rw [← hmpegb, ← hcut]
    rfl
  · rw [hcut]
    exact hhead
  · rw [h2]
    exact hinit

/-! ## The writer -/

/-- No string is empty where the syntax forbids it. -/
structure Mandatory (di : DecoderInit) : Prop where
  prefixes : PrefixesMandatory di.prefixes
  schemas : di.SchemasMandatory
  known : ∀ s ∈ di.known, SchemaMandatory di.mpegb s

variable {mpegb : Bool}

theorem wCodecs_eq {cs : List DiCodec} (hm : CodecsMandatory mpegb cs) : wCodecs mpegb cs = .ok (codecsBits cs) := by
  have hcs : wrEach (wCodec mpegb) cs = .ok (cs.flatMap codecBits) := by
    refine wrEach_eq fun c hc => ?_
    have hstr : wrStr (if mpegb then none else some diZero) "DecoderInit TypeCodecURI_Length" c.uri
        = .ok (strBits c.uri) := by
      refine wrStr_eq fun hz => hm c hc ?_
      cases mpegb with
      | true => cases hz
      | false => rfl
    rw [wCodec, hstr, codecBits, tableBits, ← append_assoc]
    rfl
  rw [wCodecs, hcs]
  rfl

variable {bs : List Bool}

theorem of_wCodecs {cs : List DiCodec} (h : wCodecs mpegb cs = .ok bs) : CodecsMandatory mpegb cs := by
  obtain ⟨_, hcs, -⟩ := Wr.ok_of_bind h
  intro c hc hmpegb
  obtain ⟨_, hcodec⟩ := of_wrEach hcs c hc
  obtain ⟨_, hstr, -⟩ := Wr.ok_of_bind hcodec
  rw [hmpegb] at hstr
  exact of_wrStr hstr

variable {s : DiSchema}

theorem wSchema_eq (hm : SchemaMandatory mpegb s) : wSchema mpegb s = .ok (schemaBits s) := by
  rw [wSchema, wrStr_eq fun _ => hm.1, wrStr_eq fun h => absurd h (by simp), wCodecs_eq hm.2,
    schemaBits, ← append_assoc]
  rfl

theorem of_wSchema (h : wSchema mpegb s = .ok bs) : SchemaMandatory mpegb s := by
  obtain ⟨_, huri, h⟩ := Wr.ok_of_bind h
  obtain ⟨_, -, h⟩ := Wr.ok_of_bind h
  obtain ⟨_, hcodecs, -⟩ := Wr.ok_of_bind h
  exact ⟨of_wrStr huri, of_wCodecs hcodecs⟩

theorem wrSub_of_dvd (h : 8 ∣ bs.length) : wrSub bs = bs := by
  rw [wrSub, ofBytes_packBytes, padTo8, mod_eq_zero_of_dvd h]
  simp

theorem wPrefixTable_eq (hm : PrefixesMandatory di.prefixes) :
    wPrefixTable di = .ok (prefixTableBits di.prefixTable di.prefixes) := by
  unfold wPrefixTable prefixTableBits
  split
  · have hps : wrEach wPrefix di.prefixes = .ok (di.prefixes.flatMap prefixBits) := by
      refine wrEach_eq fun p hp => ?_
      rw [wPrefix, wrStr_eq fun _ => hm p hp, wrStr_eq fun h => absurd h (by simp)]
      rfl
    rw [hps]
    rfl
  · rfl

theorem wFeatures_eq (hv : di.FeaturesValid)
    (hm : PrefixesMandatory di.prefixes) : wFeatures di = .ok (featuresBits di) := by
  have honly : ¬ (di.addSchemaOnly && !di.addSchema) = true := by
    rw [Bool.and_eq_true, Bool.not_eq_true', not_and, Bool.not_eq_false]
    exact hv.only
  have hadd : ¬ (di.addSchema && !di.hier) = true := by
    rw [Bool.and_eq_true, Bool.not_eq_true', not_and, Bool.not_eq_false]
    exact hv.add
  have hdvd := prefixTableBits_dvd di.prefixTable di.prefixes
  rw [wFeatures, if_neg honly, if_neg hadd, wPrefixTable_eq hm]
  show Except.ok _ = Except.ok _
  rw [wrSub_of_dvd hdvd, Nat.div_mul_cancel hdvd, featuresBits, featuresLen,
    show flagBits - 9 = 24 from rfl, ofNat_eq_replicate, ofNat_eq_replicate]
  have hpad : (8 - (flagBits + (prefixTableBits di.prefixTable di.prefixes).length) % 8) % 8 = 7 := by
    have h33 : flagBits = 33 := rfl
    omega
  rw [hpad]
  simp only [append_assoc]

theorem of_wFeatures (hoff : di.prefixTable = false →
    di.prefixes = []) (h : wFeatures di = .ok bs) : PrefixesMandatory di.prefixes := by
  unfold wFeatures at h
  split at h
  · cases h
  split at h
  · cases h
  obtain ⟨_, htable, -⟩ := Wr.ok_of_bind h
  unfold wPrefixTable at htable
  split at htable
  · obtain ⟨_, hps, -⟩ := Wr.ok_of_bind htable
    intro p hp
    obtain ⟨_, hprefix⟩ := of_wrEach hps p hp
    obtain ⟨_, huri, -⟩ := Wr.ok_of_bind hprefix
    exact of_wrStr huri
  · next hno =>
    rw [hoff (by simpa using hno)]
    exact nofun

theorem wHead_guards (hv : di.HeadValid) : ¬ (di.unitSizeCode > 7 ∨ di.reserved ≥ if di.mpegb then 16 else 32) ∧
      ¬ (di.flags.any id && (!di.mpegb || di.noAdvanced)) = true := by
  have hunit := hv.unitSizeCode
  have hres := hv.reserved
  constructor
  · cases hmp : di.mpegb with
    | true =>
      rw [hmp] at hres
      simp only [if_true] at hres ⊢
      omega
    | false =>
      rw [hmp] at hres
      simp only [Bool.false_eq_true, if_false] at hres ⊢
      omega
  · intro h
    rw [Bool.and_eq_true, Bool.or_eq_true, Bool.not_eq_true'] at h
    have hna : di.noAdvanced = true := h.2.elim hv.old id
    rw [(hv.plain hna).1] at h
    cases h.1

theorem wHead_eq (hv : di.HeadValid) (hm : PrefixesMandatory di.prefixes) : wHead di = .ok (headBits di) := by
  obtain ⟨h1, h2⟩ := wHead_guards hv
  rw [wHead, if_neg h1, if_neg h2, headBits]
  cases hmp : di.mpegb with
  | true =>
    cases hna : di.noAdvanced with
    | true => simp [wrIf, bind, Except.bind, pure, Except.pure]
    | false => simp [wrIf, wFeatures_eq (hv.features hna) hm, bind, Except.bind, pure, Except.pure]
  | false => simp [pure, Except.pure]

theorem of_wHead (hv : di.HeadValid) (h : wHead di = .ok bs) : PrefixesMandatory di.prefixes := by
  obtain ⟨h1, h2⟩ := wHead_guards hv
  cases hna : di.noAdvanced with
  | true =>
    rw [(hv.plain hna).2]
    exact nofun
  | false =>
    have hmp : di.mpegb = true := by
      by_contra hf
      rw [hv.old (by simpa using hf)] at hna
      cases hna
    rw [wHead, if_neg h1, if_neg h2, if_pos hmp, hna, wrIf, if_pos (by decide)] at h
    obtain ⟨_, hfeat, -⟩ := Wr.ok_of_bind h
    exact of_wFeatures (hv.features hna).table_off hfeat

theorem wCpath_eq {codeLen i : Nat} {complete : Bool} {p : DiCpath} (hv : CpathValid codeLen complete i p) :
    wCpath codeLen complete p = .ok (cpathBits codeLen complete p) := by
  unfold wCpath cpathBits
  cases complete with
  | true => simp [pure, Except.pure]
  | false =>
    obtain ⟨-, -, h0, hlt⟩ := hv
    have hfits : fits p.code codeLen = true := by
      unfold fits
      rw [one_shiftLeft, decide_eq_true hlt, Bool.or_true]
    simp [h0, hfits, pure, Except.pure]

theorem wCpt_eq (hv : di.CptValid) : wCpt di = .ok (cptBits di) := by
  have hpaths : wrEach (wCpath di.cptCodeLen di.cptComplete) di.cpaths
      = .ok (di.cpaths.flatMap (cpathBits di.cptCodeLen di.cptComplete)) := by
    refine wrEach_eq fun p hp => ?_
    obtain ⟨i, hi⟩ := mem_iff_getElem?.1 hp
    exact wCpath_eq (hv.paths i p hi)
  rw [wCpt, if_neg (not_lt.2 hv.codeLen_le), hpaths]
  show Except.ok _ = Except.ok _
  have hsub : vluimsbf8Bits di.cptCodeLen ++ vluimsbf8Bits di.cpaths.length ++ [di.cptComplete] ++
      di.cpaths.flatMap (cpathBits di.cptCodeLen di.cptComplete) = di.cptSub := by
    simp [cptSub, cptBody]
  rw [hsub, wrSub, ofBytes_packBytes, length_packBytes, cptBits]

variable {counts : Counts}

theorem wInstances_eq (hv : TailValid counts di) : wInstances di = .ok (tableBits instanceBits di.instances) := by
  have his : wrEach (wInstance di.aodTypes.length) di.instances
      = .ok (di.instances.flatMap instanceBits) := by
    refine wrEach_eq fun i hi => ?_
    obtain ⟨-, hlt, s, hget⟩ := hv.instances.2 i hi
    rw [wInstance, hget]
    simp only
    rw [if_neg (fun h => h.elim (fun hne => hne rfl) (not_le.2 hlt))]
    rfl
  rw [wInstances, his]
  rfl

theorem wMapping_eq {ninstances nall : Nat} {m : DiMapping} (hv : MappingValid ninstances nall m) :
    wMapping ninstances nall m = .ok (mappingBits ninstances (bimWidth nall) m) := by
  have hids : wrEach (wInstanceId ninstances) m.instances
      = .ok (m.instances.flatMap (ofNat (bimWidth ninstances))) := by
    refine wrEach_eq fun i hi => ?_
    rw [wInstanceId, if_neg (not_le.2 (hv.instances i hi))]
    rfl
  have htypes : wrEach (wTyperef nall) m.types
      = .ok (m.types.flatMap (typerefBits (bimWidth nall))) := by
    refine wrEach_eq fun t ht => ?_
    rw [wTyperef, if_neg (not_le.2 (hv.types t ht).1)]
    rfl
  have hres := hv.reserved
  rw [wMapping, if_neg (by omega), hids, htypes, mappingBits, tableBits, tableBits]
  show Except.ok _ = Except.ok _
  simp only [append_assoc]

theorem wMappings_eq (hv : TailValid counts di) : wMappings di
      = .ok (tableBits (mappingBits di.instances.length (bimWidth di.nall)) di.mappings) := by
  rw [wMappings, wrEach_eq fun m hm => wMapping_eq (hv.mappings.2 m hm)]
  rfl

theorem wAod_eq (hv : TailValid counts di)
    (haod : di.hasAod = true) : wAod di = .ok (tableBits strBits di.aodTypes ++ tailAodBits di) := by
  have hstr : wrEach (wrStr none "") di.aodTypes = .ok (di.aodTypes.flatMap strBits) :=
    wrEach_eq fun t _ => wrStr_eq nofun
  rw [wAod, hstr, wInstances_eq hv, wMappings_eq hv, tailAodBits, if_pos haod]
  show Except.ok _ = Except.ok _
  rw [append_assoc]
  rfl

theorem wKnown_eq (hv : KnownValid counts di s) (hm : SchemaMandatory di.mpegb s) :
    wKnown counts di s = .ok (knownBits counts s) := by
  rw [wKnown, if_neg (by rw [hv.id_ok]; decide), wrStr_eq fun _ => hm.1,
    wrStr_eq fun h => absurd h (by simp), wCodecs_eq hm.2, wExt_eq hv.castable, wExt_eq hv.substitutable, knownBits]
  show Except.ok _ = Except.ok _
  simp only [append_assoc]

theorem of_wKnown (h : wKnown counts di s = .ok bs) : SchemaMandatory di.mpegb s := by
  unfold wKnown at h
  split at h
  · cases h
  · obtain ⟨_, huri, h⟩ := Wr.ok_of_bind h
    obtain ⟨_, -, h⟩ := Wr.ok_of_bind h
    obtain ⟨_, hcodecs, -⟩ := Wr.ok_of_bind h
    exact ⟨of_wrStr huri, of_wCodecs hcodecs⟩

theorem wAdditional_eq (hv : AdditionalValid counts di) (hm : ∀ s ∈ di.known, SchemaMandatory di.mpegb s) :
    wAdditional counts di = .ok (additionalBits counts di) := by
  have henc := hv.encoding
  rw [wAdditional, wrEach_eq fun s hs => wKnown_eq (hv.known s hs) (hm s hs)]
  show (if di.schemaEncoding > 255 then _ else _ : Wr) = _
  rw [if_neg (by omega), wExt_eq hv.castable, wExt_eq hv.substitutable, additionalBits, tableBits]
  show Except.ok _ = Except.ok _
  simp only [append_assoc, ofNat_eq_replicate]

theorem wFrag_eq (hv : TailValid counts di) (hfrag : di.hasFrag = true) : wFrag di = .ok (tailFragBits di) := by
  have hlen := hv.frag
  rw [wFrag, if_neg (by omega), tailFragBits, if_pos hfrag]
  rfl

/-- The code of a whole DecoderInit. -/
def allBits (counts : Counts) (di : DecoderInit) : List Bool :=
  headBits di ++ (initBits di ++ tailBits counts di)

variable (hv : Valid counts di)

include hv

theorem wInitialSchemas_eq (hm : di.SchemasMandatory) :
    wInitialSchemas di = .ok (initBits di ++ (tailAodBits di ++ tailFragBits di)) := by
  unfold wInitialSchemas initBits
  cases honly : di.addSchemaOnly with
  | true =>
    have h1 : di.hasAod = false := by simp [hasAod, honly]
    have h2 : di.hasFrag = false := by simp [hasFrag, honly]
    rw [tailAodBits, tailFragBits, h1, h2]
    rfl
  | false =>
    have hschemas : wSchemas di = .ok (tableBits schemaBits di.schemas) := by
      rw [wSchemas, if_neg fun h => hv.init.schemas honly (length_eq_zero_iff.1 h),
        wrEach_eq fun s hs => wSchema_eq (hm s hs)]
      rfl
    have hcpt : wrIf di.cpt (wCpt di) = .ok (cptStageBits di) := by
      unfold wrIf cptStageBits
      split
      · next h => exact wCpt_eq (hv.init.cpt honly h)
      · rfl
    have haod : wrIf di.aod (wAod di) = .ok (aodTypesBits di ++ tailAodBits di) := by
      have hhas : di.hasAod = di.aod := by simp [hasAod, honly]
      unfold wrIf aodTypesBits
      split
      · next h => exact wAod_eq hv.tail (hhas.trans h)
      · next h =>
        rw [tailAodBits, hhas, if_neg h]
        rfl
    have hfrag : wrIf di.fragRef (wFrag di) = .ok (tailFragBits di) := by
      have hhas : di.hasFrag = di.fragRef := by simp [hasFrag, honly]
      unfold wrIf
      split
      · next h => exact wFrag_eq hv.tail (hhas.trans h)
      · next h =>
        rw [tailFragBits, hhas, if_neg h]
        rfl
    rw [if_neg (by decide), if_neg (by decide), hschemas, hcpt, haod, hfrag]
    show Except.ok _ = Except.ok _
    simp only [append_assoc]

theorem wAll_eq (hm : di.Mandatory) : wAll counts di = .ok (allBits counts di) := by
  have hadd : wrIf di.addSchema (wAdditional counts di) = .ok (tailAddBits counts di) := by
    unfold wrIf tailAddBits
    split
    · next h => exact wAdditional_eq (hv.tail.add h) hm.known
    · rfl
  rw [wAll, wHead_eq hv.head hm.prefixes, wInitialSchemas_eq hv hm.schemas, hadd]
  show Except.ok _ = Except.ok _
  rw [allBits, tailBits, tailInitialBits]
  simp only [append_assoc]

/-- The writer refuses a record with an empty string where the syntax forbids one. -/
theorem of_wAll (h : wAll counts di = .ok bs) : di.Mandatory := by
  obtain ⟨_, hhead, h⟩ := Wr.ok_of_bind h
  obtain ⟨_, hinit, h⟩ := Wr.ok_of_bind h
  obtain ⟨_, hadd, -⟩ := Wr.ok_of_bind h
  refine ⟨of_wHead hv.head hhead, ?_, ?_⟩
  · cases honly : di.addSchemaOnly with
    | true =>
      have hnil : di.schemas = [] := congrArg DecoderInit.schemas (hv.init.only honly)
      intro s hs
      rw [hnil] at hs
      cases hs
    | false =>
      rw [wInitialSchemas, honly, if_neg (by decide)] at hinit
      obtain ⟨_, hschemas, -⟩ := Wr.ok_of_bind hinit
      unfold wSchemas at hschemas
      split at hschemas
      · cases hschemas
      · obtain ⟨_, heach, -⟩ := Wr.ok_of_bind hschemas
        intro s hs
        obtain ⟨_, hschema⟩ := of_wrEach heach s hs
        exact of_wSchema hschema
  · cases hflag : di.addSchema with
    | false =>
      rw [(hv.tail.add_off hflag).2.1]
      exact nofun
    | true =>
      rw [wrIf, hflag, if_pos rfl] at hadd
      obtain ⟨_, heach, -⟩ := Wr.ok_of_bind hadd
      intro s hs
      obtain ⟨_, hknown⟩ := of_wrEach heach s hs
      exact of_wKnown hknown

/-! ## Parsing what was written -/

/-- The zero bits the last byte of a written DecoderInit is filled up with. -/
def paddingOf (counts : Counts) (di : DecoderInit) : List Bool := padTo8 (allBits counts di).length

/-- The count of context paths is plausible where the DecoderInit ends with what is written of it:
    six bits for each path are no more than what follows the count. -/
def PathCountOk (counts : Counts) (di : DecoderInit) : Prop := di.addSchemaOnly = false → di.cpt = true →
    di.PathCountFits (aodTypesBits di ++ (tailBits counts di ++ paddingOf counts di)).length

theorem rdAll_bits (hm : di.Mandatory)
    (hcount : di.PathCountOk counts) (hwidth : WidthUnique counts di (paddingOf counts di)) :
    rdAll counts di.mpegb (allBits counts di ++ paddingOf counts di)
      = .ok di (paddingOf counts di) := by
  rw [rdAll, allBits, append_assoc, bind_of_ok (inverts_rdHead hv.head hm.prefixes _),
    append_assoc, bind_of_ok (rdInitialSchemas_bits hv.init hm.schemas hcount)]
  exact rdTailLookahead_bits hv.init hv.tail hm.known hwidth

omit hv

theorem of_rdAll_bits {d : DecoderInit} {s' : List Bool} (hv : Valid counts di) (hm : di.Mandatory)
    (h : rdAll counts di.mpegb (allBits counts di ++ paddingOf counts di) = .ok d s') :
    di.PathCountOk counts ∧ WidthUnique counts di (paddingOf counts di) := by
  rw [rdAll, allBits, append_assoc, bind_of_ok (inverts_rdHead hv.head hm.prefixes _), append_assoc] at h
  have hcount : di.PathCountOk counts := by
    intro honly hcpt
    by_contra hfit
    obtain ⟨_, _, hinit, -⟩ := ok_of_bind h
    exact rdInitialSchemas_short hv.init hm.schemas honly hcpt hfit _ _ hinit
  rw [bind_of_ok (rdInitialSchemas_bits hv.init hm.schemas hcount)] at h
  refine ⟨hcount, ?_⟩
  by_contra hwidth
  exact rdTailLookahead_ambiguous hv.tail hm.known hwidth _ _ h

/-- A DecoderInit the parser returned is written and parsed back to itself, over exactly the bytes
    written, if and only if no string is empty where the syntax forbids it, the count of context paths
    is plausible without the bytes that followed the original, and the mapping SchemaID width of the
    written tail is unambiguous. -/
theorem parse_write_iff {buf : List UInt8} {mpegb : Bool} {counts : Counts} {di : DecoderInit}
    {used : Nat} (h : parse buf mpegb counts = .ok (di, used)) :
    (∃ out, write counts di = .ok out ∧ parse out mpegb counts = .ok (di, out.length)) ↔
      di.Mandatory ∧ di.PathCountOk counts ∧ WidthUnique counts di (paddingOf counts di) := by
  obtain ⟨hmpegb, hv⟩ : di.mpegb = mpegb ∧ Valid counts di := by
    unfold parse at h
    split at h
    · next d s hread =>
      obtain ⟨rfl, -⟩ := h
      exact (yields_rdAll counts mpegb _ _ _ hread).2
    · cases h
  subst hmpegb
  constructor
  · rintro ⟨out, hwrite, hparse⟩
    obtain ⟨bits, hall, hout⟩ := Wr.ok_of_bind hwrite
    have hm := of_wAll hv hall
    rw [wAll_eq hv hm] at hall
    cases hall
    cases hout
    unfold parse at hparse
    rw [ofBytes_packBytes] at hparse
    split at hparse
    · next d s hread => exact ⟨hm, of_rdAll_bits hv hm hread⟩
    · cases hparse
  · rintro ⟨hm, hcount, hwidth⟩
    refine ⟨packBytes (allBits counts di), ?_, ?_⟩
    · rw [write, wAll_eq hv hm]
      rfl
    · have hread := rdAll_bits hv hm hcount hwidth
      unfold paddingOf at hread
      rw [parse, ofBytes_packBytes, hread]
      simp only [length_append, Nat.add_sub_cancel, length_packBytes]

/-- A DecoderInit with a codec, an optimised decoder and a known schema among the additional ones. -/
def additional : DecoderInit where
  mpegb := true
  aod := true
  addSchema := true
  hier := true
  schemas := [{ id := 0, uri := CStr.ofBytes [97], hint := CStr.ofBytes [], codecs := [⟨CStr.ofBytes [100], [1, 2]⟩] }]
  aodTypes := [CStr.ofBytes [122]]
  instances := [{ type := 0, raw := [5] }]
  mappings := [{ preserveDefault := true, reserved := 0, instances := [], types := [{ schema := 2, type := 7 }] }]
  nadditional := 4
  known := [{ id := 2, uri := CStr.ofBytes [107], hint := CStr.ofBytes [104], codecs := [] }]

def additionalBuf : List UInt8 :=
  [0, 0, 5, 98, 0, 0, 0, 0, 1, 1, 97, 0, 1, 1, 100, 2, 1, 2, 1, 1, 122, 1, 1, 5, 1, 128, 0, 1, 64, 224, 128, 32, 64, 45, 96,
    45, 0, 0, 0, 0, 0]

theorem parse_write_additional : ∃ out, write none additional = .ok out ∧ parse out true none = .ok (additional, out.length) := by
  have hparse : parse additionalBuf true none = .ok (additional, 41) := by
    have hsome : (parse additionalBuf true none).toOption = some (additional, 41) := by decide +kernel
    cases h : parse additionalBuf true none with
    | error e => simp [h, Except.toOption] at hsome
    | ok x =>
      rw [h] at hsome
      exact congrArg _ (Option.some.inj hsome)
  refine (parse_write_iff hparse).2 ⟨⟨nofun, ?_, ?_⟩, fun _ hcpt => Bool.noConfusion hcpt, fun _ => by decide +kernel⟩
  · intro s hs
    obtain rfl := mem_singleton.1 hs
    exact ⟨by decide, fun _ _ => nofun⟩
  · intro s hs
    obtain rfl := mem_singleton.1 hs
    exact ⟨by decide, fun _ _ => nofun⟩
/-- A 15938-1:2002 DecoderInit with one schema, its URI the byte `c`. -/
def oneSchemaBuf (c : UInt8) : List UInt8 := [0, 0, 1, 1, c, 0, 0, 0]

/-- What the parser makes of it. -/
def oneSchema (c : UInt8) : DecoderInit where
  mpegb := false
  noAdvanced := true
  schemas := [{ id := 0, uri := CStr.ofBytes [c], hint := CStr.ofBytes [], codecs := [] }]

/-- A SchemaURI of length one whose byte is NUL is accepted by the parser and refused by the writer,
    which takes its length with `strlen`. -/
theorem nul_schemaUri_not_rewritten : parse (oneSchemaBuf 0) false none = .ok (oneSchema 0, 8) ∧
      ¬ ∃ out, write none (oneSchema 0) = .ok out ∧ parse out false none = .ok (oneSchema 0, out.length) := by
  refine ⟨rfl, ?_⟩
  rintro ⟨out, hwrite, -⟩
  obtain ⟨_, hall, -⟩ := Wr.ok_of_bind hwrite
  obtain ⟨_, -, hall⟩ := Wr.ok_of_bind hall
  obtain ⟨_, hinit, -⟩ := Wr.ok_of_bind hall
  obtain ⟨_, hschemas, -⟩ := Wr.ok_of_bind hinit
  exact absurd hschemas (by simp [wSchemas, oneSchema, wrEach, wSchema, wrStr, CStr.ofBytes, bind,
    Except.bind, throw, throwThe, MonadExceptOf.throw])

end DecoderInit

/-! # The ranges of identifiers

The parser holds identifiers against `nall`, a sum in 64 bits that saturates, and adds one to a KnownAdditionalSchemaID in 64
bits. The sum never exceeds the true one. Adding one wraps for a single value, which is then accepted. -/

namespace DecoderInit

/-- NumberOfSchemas + NumberOfAdditionalSchemas. -/
def total (di : DecoderInit) : Nat := di.schemas.length + if di.addSchema then di.nadditional else 0

/-- Every identifier of a DecoderInit names something that is there. -/
structure InRange (di : DecoderInit) : Prop where
  known : ∀ s ∈ di.known, di.schemas.length < s.id ∧ s.id + 1 < di.total
  mapped : ∀ m ∈ di.mappings, ∀ t ∈ m.types, t.schema < di.total
  type : ∀ i ∈ di.instances, i.type < di.aodTypes.length
  instance_lt : ∀ m ∈ di.mappings, ∀ i ∈ m.instances, i < di.instances.length

theorem nall_le_total (di : DecoderInit) : di.nall ≤ di.total := by
  have hmod := Nat.mod_le di.total (2 ^ 64)
  unfold nall
  simp only
  rw [← total]
  split
  · rename_i hwrap
    -- the sum in 64 bits is below one of its parts: the true one needs more
    by_contra hlt
    rw [Nat.mod_eq_of_lt (by omega)] at hwrap
    unfold total at hwrap
    omega
  · exact hmod

variable {di : DecoderInit}

/-- The test on an identifier is exact, but for the one that wraps when one is added. -/
theorem of_knownIdOk {id : Nat} (h64 : id < 2 ^ 64) (h : di.knownIdOk id = true) :
    di.schemas.length < id ∧ (id ≠ 2 ^ 64 - 1 → id + 1 < di.total) := by
  have hle := di.nall_le_total
  simp only [knownIdOk, Bool.not_eq_true', Bool.or_eq_false_iff, decide_eq_false_iff_not, ge_iff_le, not_le] at h
  refine ⟨h.1, fun hne => ?_⟩
  omega

variable {buf : List UInt8} {mpegb : Bool} {counts : Counts} {used : Nat}
  (h : parse buf mpegb counts = .ok (di, used))

include h

theorem valid_of_parse : Valid counts di := by
  unfold parse at h
  split at h
  · rename_i d s hread
    obtain ⟨rfl, -⟩ := h
    exact (yields_rdAll counts mpegb _ _ _ hread).2.2
  · cases h

/-- The identifiers that a DecoderInit names are in range, unless a KnownAdditionalSchemaID is the one that wraps and no schema
    has it. -/
theorem parse_inRange_iff : di.InRange ↔ ∀ s ∈ di.known, s.id = 2 ^ 64 - 1 → 2 ^ 64 < di.total := by
  have hv := (valid_of_parse h).tail
  have hle := di.nall_le_total
  constructor
  · intro hr s hs hid
    have := (hr.known s hs).2
    omega
  intro hwrap
  refine ⟨fun s hs => ?_, fun m hm t ht => ?_, fun i hi => ?_, fun m hm i hi => ?_⟩
  · have hadd : di.addSchema = true := by
      by_contra hoff
      rw [Bool.not_eq_true] at hoff
      rw [(hv.add_off hoff).2.1] at hs
      cases hs
    have hknown := (hv.add hadd).known s hs
    obtain ⟨hlo, hhi⟩ := of_knownIdOk hknown.id_lt hknown.id_ok
    refine ⟨hlo, ?_⟩
    by_cases hid : s.id = 2 ^ 64 - 1
    · have := hwrap s hs hid
      omega
    · exact hhi hid
  · exact lt_of_lt_of_le ((hv.mappings.2 m hm).types t ht).1 hle
  · exact (hv.instances.2 i hi).2.1
  · exact (hv.mappings.2 m hm).instances i hi

omit h

/-- A DecoderInit with one schema, three additional ones and a known one among them. -/
def oneKnown (id : Nat) : DecoderInit where
  mpegb := true
  addSchema := true
  hier := true
  schemas := [{ id := 0, uri := CStr.ofBytes [0x61], hint := CStr.ofBytes [], codecs := [] }]
  nadditional := 3
  known := [{ id, uri := CStr.ofBytes [0x62], hint := CStr.ofBytes [], codecs := [] }]

/-- Its bytes, with those of the KnownAdditionalSchemaID. -/
def oneKnownBuf (id : List UInt8) : List UInt8 :=
  [0, 0, 5, 34, 0, 0, 0, 0, 1, 1, 97, 0, 0, 3, 1] ++ id ++ [1, 98, 0, 0, 0, 0, 0, 0]

set_option maxRecDepth 100000 in
theorem parse_oneKnown_inRange : parse (oneKnownBuf [2]) true none = .ok (oneKnown 2, 24) ∧ (oneKnown 2).InRange := by
  have hparse : parse (oneKnownBuf [2]) true none = .ok (oneKnown 2, 24) := by with_unfolding_all rfl
  refine ⟨hparse, (parse_inRange_iff hparse).2 fun s hs hid => ?_⟩
  rw [List.mem_singleton.1 hs] at hid
  cases hid

set_option maxRecDepth 100000 in
/-- The largest KnownAdditionalSchemaID wraps to 0 and is accepted, far behind the four schemas there are. -/
theorem parse_wrapped_knownId : parse (oneKnownBuf [129, 255, 255, 255, 255, 255, 255, 255, 255, 127]) true none =
    .ok (oneKnown (2 ^ 64 - 1), 33) ∧ ¬ (oneKnown (2 ^ 64 - 1)).InRange := by
  refine ⟨by with_unfolding_all rfl, fun h => ?_⟩
  have hknown := (h.known _ List.mem_cons_self).2
  exact absurd hknown (by decide)

end DecoderInit

end DvbIpiTools.Bim
