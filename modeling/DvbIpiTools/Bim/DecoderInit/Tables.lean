import DvbIpiTools.Bim.DecoderInit.Syntax

set_option autoImplicit false

/-! # The tables of a DecoderInit

The same for the tables: schemas, context paths, optimised decoders and their mappings, additional
schemas. Only the context path table is not read back whatever follows it: its count is held against
six bits an entry, and a path of length zero in a complete table takes five. -/

namespace DvbIpiTools.Bim

open BitList ListReader List

namespace DecoderInit

/-! ## Context paths -/

def CpathValid (codeLen : Nat) (complete : Bool) (i : Nat) (p : DiCpath) : Prop :=
  p.nbits < 2 ^ 64 ∧ (∃ bs : List Bool, bs.length = p.nbits ∧ p.bits = packBytes bs) ∧
    if complete then p.code = i + 1 else p.code ≠ 0 ∧ p.code < 2 ^ codeLen

def cpathBits (codeLen : Nat) (complete : Bool) (p : DiCpath) : List Bool :=
  vluimsbf5Bits p.nbits ++ (wrBits p.bits p.nbits ++ if complete then [] else ofNat codeLen p.code)

/-- ContextPathTable from the flag behind the count on. -/
def cptBody (di : DecoderInit) : List Bool :=
  di.cptComplete :: di.cpaths.flatMap (cpathBits di.cptCodeLen di.cptComplete)

/-- ContextPathTable without its length and padding. -/
def cptSub (di : DecoderInit) : List Bool :=
  vluimsbf8Bits di.cptCodeLen ++ (vluimsbf8Bits di.cpaths.length ++ di.cptBody)

def cptBits (di : DecoderInit) : List Bool :=
  vluimsbf8Bits ((di.cptSub.length + 7) / 8) ++ (di.cptSub ++ padTo8 di.cptSub.length)

/-- What `rd_cpt` accepts. -/
structure CptValid (di : DecoderInit) : Prop where
  codeLen_le : di.cptCodeLen ≤ 64
  count_lt : di.cpaths.length < 2 ^ 64
  paths : ∀ i p, di.cpaths[i]? = some p → CpathValid di.cptCodeLen di.cptComplete i p
  len_lt : (di.cptSub.length + 7) / 8 < 2 ^ 64

theorem yields_rdCpath (codeLen : Nat) (complete : Bool) (i : Nat) : Yields (rdCpath codeLen complete i) fun p m =>
      CpathValid codeLen complete i p ∧ (cpathBits codeLen complete p).length ≤ m := by
  refine (yields_rdV5 diRd).bind ?_
  rintro nbits m ⟨hn, hm⟩
  refine (yields_rdRaw diRd nbits).bind ?_
  rintro bits k ⟨rfl, bs, hlen, rfl⟩
  subst hlen
  have hbits : wrBits (packBytes bs) bs.length = bs := wrBits_packBytes bs
  cases complete with
  | true =>
    refine yields_pure ⟨⟨hn, ⟨bs, rfl, rfl⟩, rfl⟩, ?_⟩
    simp only [cpathBits, hbits, if_true, append_nil, length_append]
    omega
  | false =>
    refine (yields_rdBits diRd codeLen).bind ?_
    rintro code l ⟨hcode, rfl⟩
    split
    · exact yields_throw
    · next h0 =>
      refine yields_pure ⟨⟨hn, ⟨bs, rfl, rfl⟩, h0, hcode⟩, ?_⟩
      simp only [cpathBits, hbits, Bool.false_eq_true, if_false, length_append, length_ofNat]
      omega

theorem inverts_rdCpath {codeLen : Nat} {complete : Bool} {i : Nat} {p : DiCpath}
    (hv : CpathValid codeLen complete i p) :
    Inverts (rdCpath codeLen complete i) (cpathBits codeLen complete p) p := by
  obtain ⟨hn, ⟨bs, hlen, hbits⟩, hcode⟩ := hv
  obtain ⟨bits, nbits, code⟩ := p
  subst hlen hbits
  rw [cpathBits, wrBits_packBytes]
  refine (inverts_rdV5 diRd hn).bind ((inverts_rdRaw diRd bs).bind ?_)
  cases complete with
  | true =>
    obtain rfl : code = i + 1 := hcode
    exact inverts_pure _
  | false =>
    intro rest
    simp only [Bool.false_eq_true, if_false] at hcode ⊢
    rw [bind_of_ok (inverts_rdBits diRd hcode.2 rest), if_neg hcode.1]
    rfl

variable {di : DecoderInit}

theorem of_rdCpt {d : DecoderInit} {s s' : List Bool} (h : rdCpt di s = .ok d s') : s'.length ≤ s.length ∧ d.CptValid ∧
      d = { di with cptCodeLen := d.cptCodeLen, cptComplete := d.cptComplete, cpaths := d.cpaths } := by
  obtain ⟨len, s1, hlen, h⟩ := ok_of_bind h
  obtain ⟨start, s2, hleft, h⟩ := ok_of_bind h
  obtain ⟨rfl, rfl⟩ := EStateM.Result.ok.inj hleft
  obtain ⟨hle1, hlen64, -⟩ := yields_rdV8 diRd _ _ _ hlen
  split at h
  · cases h
  obtain ⟨codeLen, s3, hcodeLen, h⟩ := ok_of_bind h
  obtain ⟨n, s4, hn, h⟩ := ok_of_bind h
  obtain ⟨complete, s5, hcomplete, h⟩ := ok_of_bind h
  obtain ⟨hle3, -, hm3⟩ := yields_rdV8 diRd _ _ _ hcodeLen
  obtain ⟨hle4, hn64, hm4⟩ := yields_rdCount diRd 6 _ _ _ hn
  obtain ⟨hle5, hm5⟩ := yields_rdFlag diRd _ _ _ hcomplete
  split at h
  · exact absurd h throw_ne_ok
  rename_i hcode
  obtain ⟨paths, s6, hpaths, h⟩ := ok_of_bind h
  obtain ⟨left, s7, hleft, h⟩ := ok_of_bind h
  obtain ⟨rfl, rfl⟩ := EStateM.Result.ok.inj hleft
  obtain ⟨hle6, hcount, hall, hsum⟩ := yields_each 0 n (yields_rdCpath codeLen complete) _ _ _ hpaths
  split at h
  · exact absurd h throw_ne_ok
  rename_i hused
  obtain ⟨_, s8, hskip, h⟩ := ok_of_bind h
  obtain ⟨rfl, rfl⟩ := pure_ok h
  have hle8 : s8.length ≤ s6.length := by
    unfold rdSkip at hskip
    split at hskip
    · cases hskip
    · obtain ⟨-, rfl⟩ := EStateM.Result.ok.inj hskip
      rw [length_drop]
      omega
  have hcount64 : paths.length < 2 ^ 64 := by omega
  refine ⟨by omega, ⟨not_lt.1 hcode, hcount64, ?_, ?_⟩, rfl⟩
  · intro i p hp
    have := hall i p hp
    rwa [zero_add] at this
  -- the table as written is no longer than the one that was read
  subst hcount
  show ((vluimsbf8Bits codeLen ++ (vluimsbf8Bits paths.length ++
      complete :: paths.flatMap (cpathBits codeLen complete))).length + 7) / 8 < 2 ^ 64
  rw [length_append, length_append, length_cons, length_flatMap]
  omega

/-- The count of context paths is plausible for the parser when `follow` bits follow the table. -/
def PathCountFits (di : DecoderInit) (follow : Nat) : Prop :=
  6 * di.cpaths.length ≤ di.cptBody.length + (padTo8 di.cptSub.length).length + follow

instance (di : DecoderInit) (follow : Nat) : Decidable (di.PathCountFits follow) :=
  inferInstanceAs (Decidable (_ ≤ _))

variable {rest : List Bool} (base : DecoderInit)

theorem rdCpt_bits (hv : di.CptValid) (hfit : di.PathCountFits rest.length) :
    rdCpt base (cptBits di ++ rest) = .ok { base with
      cptCodeLen := di.cptCodeLen, cptComplete := di.cptComplete, cpaths := di.cpaths } rest := by
  have hpad : (di.cptSub.length + 7) / 8 * 8 = di.cptSub.length + (padTo8 di.cptSub.length).length := by
    rw [padTo8, length_replicate]
    omega
  have hsub : di.cptSub ++ (padTo8 di.cptSub.length ++ rest) = vluimsbf8Bits di.cptCodeLen ++
      (vluimsbf8Bits di.cpaths.length ++ ([di.cptComplete] ++
        (di.cpaths.flatMap (cpathBits di.cptCodeLen di.cptComplete) ++ (padTo8 di.cptSub.length ++ rest)))) := by
    simp only [cptSub, cptBody, append_assoc, cons_append, nil_append]
  have hpaths : Inverts (each (rdCpath di.cptCodeLen di.cptComplete) 0 di.cpaths.length)
      (di.cpaths.flatMap (cpathBits di.cptCodeLen di.cptComplete)) di.cpaths :=
    inverts_each di.cpaths 0 fun i p hp => by
      rw [zero_add]
      exact inverts_rdCpath (hv.paths i p hp)
  have hcount : di.cpaths.length * 6 ≤ ([di.cptComplete] ++
      (di.cpaths.flatMap (cpathBits di.cptCodeLen di.cptComplete) ++ (padTo8 di.cptSub.length ++ rest))).length := by
    unfold PathCountFits cptBody at hfit
    simp only [length_append, length_cons, length_nil] at hfit ⊢
    omega
  rw [rdCpt, cptBits, append_assoc, bind_of_ok (inverts_rdV8 diRd hv.len_lt _),
    bind_of_ok (show rdLeft _ = .ok _ _ from rfl), if_neg, append_assoc, hsub,
    bind_of_ok (inverts_rdV8 diRd (lt_of_le_of_lt hv.codeLen_le (by decide)) _),
    bind_of_ok (rdCount_bits diRd hv.count_lt hcount), bind_of_ok (inverts_rdFlag diRd _ _),
    if_neg (Nat.not_lt.2 hv.codeLen_le), bind_of_ok (hpaths _), bind_of_ok (show rdLeft _ = .ok _ _ from rfl), ← hsub]
  · have hused : (di.cptSub ++ (padTo8 di.cptSub.length ++ rest)).length -
        (padTo8 di.cptSub.length ++ rest).length = di.cptSub.length := by
      rw [length_append]
      omega
    have hskip : rdSkip ((di.cptSub.length + 7) / 8 * 8 - di.cptSub.length)
        (padTo8 di.cptSub.length ++ rest) = .ok () rest := by
      have hn : (di.cptSub.length + 7) / 8 * 8 - di.cptSub.length
          = (padTo8 di.cptSub.length).length := by omega
      rw [rdSkip, hn, if_neg (by rw [length_append]; omega), drop_left]
    rw [hused, if_neg (by simp), bind_of_ok hskip]
    rfl
  · rw [append_assoc, length_append, length_append]
    omega

theorem rdCpt_short (hv : di.CptValid) (hfit : ¬ di.PathCountFits rest.length) (d : DecoderInit) (s' : List Bool) :
    rdCpt base (cptBits di ++ rest) ≠ .ok d s' := by
  have hsub : di.cptSub ++ (padTo8 di.cptSub.length ++ rest) = vluimsbf8Bits di.cptCodeLen ++
      (vluimsbf8Bits di.cpaths.length ++ (di.cptBody ++ (padTo8 di.cptSub.length ++ rest))) := by
    simp only [cptSub, append_assoc]
  have hshort : (di.cptBody ++ (padTo8 di.cptSub.length ++ rest)).length
      < di.cpaths.length * 6 := by
    unfold PathCountFits at hfit
    rw [length_append, length_append]
    omega
  rw [rdCpt, cptBits, append_assoc, bind_of_ok (inverts_rdV8 diRd hv.len_lt _),
    bind_of_ok (show rdLeft _ = .ok _ _ from rfl)]
  split
  · simp [rdTrunc]
  · rw [append_assoc, hsub, bind_of_ok (inverts_rdV8 diRd (lt_of_le_of_lt hv.codeLen_le (by decide)) _),
      bind_of_error (rdCount_short diRd hv.count_lt (by decide) hshort)]
    simp

/-! ## Schemas -/

structure SchemaValid (k : Nat) (s : DiSchema) : Prop where
  id_eq : s.id = k
  uri : s.uri.Fits
  hint : s.hint.Fits
  codecs : CodecsValid s.codecs
  castable : s.castable = {}
  substitutable : s.substitutable = {}

def SchemaMandatory (mpegb : Bool) (s : DiSchema) : Prop := s.uri.NonEmpty ∧ CodecsMandatory mpegb s.codecs

def schemaBits (s : DiSchema) : List Bool := strBits s.uri ++ (strBits s.hint ++ codecsBits s.codecs)

theorem yields_rdSchema (mpegb : Bool) (k : Nat) : Yields (rdSchema mpegb k) fun s _ => SchemaValid k s := by
  refine (yields_rdStr diRd _ _).bind ?_
  rintro uri _ ⟨huri, -⟩
  refine (yields_rdStr diRd _ _).bind ?_
  rintro hint _ ⟨hhint, -⟩
  refine (yields_rdCodecs mpegb).bind ?_
  rintro codecs _ hcodecs
  exact yields_pure ⟨rfl, huri, hhint, hcodecs, rfl, rfl⟩

variable {s : DiSchema} {mpegb : Bool}

theorem inverts_rdSchema {k : Nat} (hv : SchemaValid k s)
    (hm : SchemaMandatory mpegb s) : Inverts (rdSchema mpegb k) (schemaBits s) s := by
  have huri := inverts_rdStr diRd (some diZero) "SchemaURI_Length" s.uri hv.uri fun _ => hm.1
  have hhint := inverts_rdStr diRd none "" s.hint hv.hint nofun
  have hcodecs := inverts_rdCodecs hv.codecs hm.2
  obtain ⟨id, uri, hint, codecs, castable, substitutable⟩ := s
  obtain ⟨rfl, -, -, -, rfl, rfl⟩ := hv
  exact huri.bind (hhint.bind hcodecs.map)

theorem twentyFour_le_schemaBits (hm : SchemaMandatory mpegb s) : 24 ≤ (schemaBits s).length := by
  have h1 := sixteen_le_strBits hm.1
  have h2 := eight_le_strBits s.hint
  rw [schemaBits, length_append, length_append]
  omega

/-! ## Optimised decoders and mappings -/

def InstanceValid (naodTypes : Nat) (i : DiInstance) : Prop := i.raw.length < 2 ^ 64 ∧ i.type < naodTypes ∧
    ∃ s, Stream.get (bimWidth naodTypes) (ofBytes i.raw) = some (i.type, s)

def instanceBits (i : DiInstance) : List Bool := vluimsbf8Bits i.raw.length ++ ofBytes i.raw

theorem yields_rdInstance (naodTypes : Nat) : Yields (rdInstance naodTypes) fun i _ => InstanceValid naodTypes i := by
  refine (yields_rdV8 diRd).bind ?_
  rintro n _ ⟨hn, -⟩
  refine (yields_rdBytes diRd n).bind ?_
  rintro raw _ ⟨rfl, -⟩
  split
  · exact yields_throw
  · next type s hget =>
    split
    · exact yields_throw
    · next hlt => exact yields_pure ⟨hn, not_le.1 hlt, s, hget⟩

variable {naodTypes : Nat}

theorem inverts_rdInstance {i : DiInstance} (hv : InstanceValid naodTypes i) :
    Inverts (rdInstance naodTypes) (instanceBits i) i := by
  obtain ⟨hlen, hlt, s, hget⟩ := hv
  refine (inverts_rdV8 diRd hlen).bind ?_
  intro rest
  rw [bind_of_ok (inverts_rdBytes diRd i.raw rest), hget]
  simp only
  rw [if_neg (Nat.not_le.2 hlt)]
  rfl

def InstancesValid (naodTypes : Nat) (is : List DiInstance) : Prop :=
  is.length < 2 ^ 64 ∧ ∀ i ∈ is, InstanceValid naodTypes i

theorem yields_rdInstances (naodTypes : Nat) :
    Yields (rdInstances naodTypes) fun is _ => InstancesValid naodTypes is := by
  refine (yields_table diRd 8 fun _ => yields_rdInstance naodTypes).mono ?_
  rintro is _ ⟨hlen, his⟩
  exact ⟨hlen, mem_of_table his⟩

theorem inverts_rdInstances {is : List DiInstance} (hv : InstancesValid naodTypes is) :
    Inverts (rdInstances naodTypes) (tableBits instanceBits is) is := by
  refine inverts_rdCounted diRd hv.1 (fun i _ => ?_) fun j i hj => ?_
  · have := length_vluimsbf8Bits_pos i.raw.length
    rw [instanceBits, length_append]
    omega
  · exact inverts_rdInstance (hv.2 i (mem_of_getElem? hj))

/-- What `rd_mappings` and `check_mappings` accept, whatever the width they read with. -/
structure MappingValid (ninstances nall : Nat) (m : DiMapping) : Prop where
  reserved : m.reserved < 2 ^ 7
  ninstances_lt : m.instances.length < 2 ^ 64
  instances : ∀ i ∈ m.instances, i < ninstances
  ntypes_lt : m.types.length < 2 ^ 64
  types : ∀ t ∈ m.types, t.schema < nall ∧ t.type < 2 ^ 64

def typerefBits (sw : Nat) (t : DiTyperef) : List Bool := ofNat sw t.schema ++ vluimsbf8Bits t.type

def mappingBits (ninstances sw : Nat) (m : DiMapping) : List Bool :=
  [m.preserveDefault] ++ (ofNat 7 m.reserved ++ (tableBits (ofNat (bimWidth ninstances)) m.instances
    ++ tableBits (typerefBits sw) m.types))

theorem yields_rdMapping (ninstances sw : Nat) : Yields (rdMapping ninstances sw) fun m _ =>
    ∀ nall, (∀ t ∈ m.types, t.schema < nall) → MappingValid ninstances nall m := by
  have hid : ∀ _ : Nat, Yields (rdInstanceId ninstances) fun v _ => v < ninstances := by
    intro _
    refine (yields_rdBits diRd _).bind ?_
    rintro v _ -
    split
    · exact yields_throw
    · next h => exact yields_pure (not_le.1 h)
  have href : ∀ _ : Nat, Yields (rdTyperef sw) fun t _ => t.type < 2 ^ 64 := by
    intro _
    refine (yields_rdBits diRd sw).bind ?_
    rintro schema _ -
    refine (yields_rdV8 diRd).bind ?_
    rintro type _ ⟨ht, -⟩
    exact yields_pure ht
  refine (yields_rdFlag diRd).bind ?_
  rintro preserveDefault _ -
  refine (yields_rdBits diRd 7).bind ?_
  rintro reserved _ ⟨hres, -⟩
  refine (yields_table diRd _ hid).bind ?_
  rintro instances _ ⟨hni, his⟩
  refine (yields_table diRd _ href).bind ?_
  rintro types _ ⟨hnt, hts⟩
  refine yields_pure fun nall hall => ⟨hres, hni, mem_of_table his, hnt, fun t ht => ?_⟩
  exact ⟨hall t ht, @mem_of_table _ (fun t => t.type < 2 ^ 64) _ hts t ht⟩

variable {ninstances nall : Nat}

theorem inverts_rdMapping (hn : ninstances < 2 ^ 64) (ha : nall < 2 ^ 64)
    {m : DiMapping} (hv : MappingValid ninstances nall m) :
    Inverts (rdMapping ninstances (bimWidth nall)) (mappingBits ninstances (bimWidth nall) m) m := by
  have hids : Inverts (rdCounted diRd (bimWidth ninstances) fun _ => rdInstanceId ninstances)
      (tableBits (ofNat (bimWidth ninstances)) m.instances) m.instances := by
    refine inverts_rdCounted diRd hv.ninstances_lt (fun i _ => by rw [length_ofNat]) fun j i hj => ?_
    have hi := hv.instances i (mem_of_getElem? hj)
    intro rest
    rw [rdInstanceId, bind_of_ok (inverts_rdBits diRd (lt_two_pow_bimWidth hn hi) rest), if_neg (Nat.not_le.2 hi)]
    rfl
  have htypes : Inverts (rdCounted diRd (bimWidth nall + 8) fun _ => rdTyperef (bimWidth nall))
      (tableBits (typerefBits (bimWidth nall)) m.types) m.types := by
    refine inverts_rdCounted diRd hv.ntypes_lt (fun t _ => ?_) fun j t hj => ?_
    · have := length_vluimsbf8Bits_pos t.type
      rw [typerefBits, length_append, length_ofNat]
      omega
    · obtain ⟨hs, ht⟩ := hv.types t (mem_of_getElem? hj)
      exact (inverts_rdBits diRd (lt_two_pow_bimWidth ha hs)).bind (inverts_rdV8 diRd ht).map
  exact (inverts_rdFlag diRd _).bind ((inverts_rdBits diRd hv.reserved).bind
    (hids.bind htypes.map))

def MappingsValid (ninstances nall : Nat) (ms : List DiMapping) : Prop :=
  ms.length < 2 ^ 64 ∧ ∀ m ∈ ms, MappingValid ninstances nall m

theorem yields_rdMappings (ninstances sw : Nat) : Yields (rdMappings ninstances sw) fun ms _ =>
    ∀ nall, (∀ m ∈ ms, ∀ t ∈ m.types, t.schema < nall) → MappingsValid ninstances nall ms := by
  refine (yields_table diRd 16 fun _ => yields_rdMapping ninstances sw).mono ?_
  rintro ms _ ⟨hlen, hms⟩ nall hall
  refine ⟨hlen, fun m hm => ?_⟩
  obtain ⟨j, hj⟩ := mem_iff_getElem?.1 hm
  exact hms j m hj nall (hall m hm)

theorem inverts_rdMappings (hn : ninstances < 2 ^ 64) (ha : nall < 2 ^ 64) {ms : List DiMapping}
    (hv : MappingsValid ninstances nall ms) : Inverts (rdMappings ninstances (bimWidth nall))
      (tableBits (mappingBits ninstances (bimWidth nall)) ms) ms := by
  refine inverts_rdCounted diRd hv.1 (fun m _ => ?_) fun j m hj => ?_
  · have h1 := eight_le_tableBits (ofNat (bimWidth ninstances)) m.instances
    have h2 := eight_le_tableBits (typerefBits (bimWidth nall)) m.types
    simp only [mappingBits, length_append]
    omega
  · exact inverts_rdMapping hn ha (hv.2 m (mem_of_getElem? hj))

/-! ## Additional schemas -/

structure KnownValid (counts : Counts) (di : DecoderInit) (s : DiSchema) : Prop where
  id_lt : s.id < 2 ^ 64
  id_ok : di.knownIdOk s.id = true
  uri : s.uri.Fits
  hint : s.hint.Fits
  codecs : CodecsValid s.codecs
  castable : ExtValid counts (some s.uri) false s.castable
  substitutable : ExtValid counts (some s.uri) true s.substitutable

def knownBits (counts : Counts) (s : DiSchema) : List Bool :=
  vluimsbf8Bits s.id ++ (strBits s.uri ++ (strBits s.hint ++ (codecsBits s.codecs ++
    (extOfBits counts (some s.uri) false s.castable ++ extOfBits counts (some s.uri) true s.substitutable))))

theorem yields_rdKnownSchema (counts : Counts) (di : DecoderInit) :
    Yields (rdKnownSchema counts di) fun s _ => KnownValid counts di s := by
  refine (yields_rdV8 diRd).bind ?_
  rintro id _ ⟨hid, -⟩
  split
  · exact yields_throw
  rename_i hok
  rw [Bool.not_eq_true', Bool.not_eq_false] at hok
  refine (yields_rdStr diRd _ _).bind ?_
  rintro uri _ ⟨huri, -⟩
  refine (yields_rdStr diRd _ _).bind ?_
  rintro hint _ ⟨hhint, -⟩
  refine (yields_rdCodecs di.mpegb).bind ?_
  rintro codecs _ hcodecs
  refine (yields_rdExtOf counts (some uri) false).bind ?_
  rintro castable _ hcast
  refine (yields_rdExtOf counts (some uri) true).bind ?_
  rintro substitutable _ hsub
  exact yields_pure ⟨hid, hok, huri, hhint, hcodecs, hcast, hsub⟩

variable {counts : Counts}

theorem inverts_rdKnownSchema (hv : KnownValid counts di s) (hm : SchemaMandatory di.mpegb s) :
    Inverts (rdKnownSchema counts di) (knownBits counts s) s := by
  have huri := inverts_rdStr diRd (some diZero) "AdditionalSchemaURI_Length" s.uri hv.uri
    fun _ => hm.1
  have hhint := inverts_rdStr diRd none "" s.hint hv.hint nofun
  have hcodecs := inverts_rdCodecs hv.codecs hm.2
  have hcast := inverts_rdExtOf hv.castable
  have hsub := inverts_rdExtOf hv.substitutable
  refine (inverts_rdV8 diRd hv.id_lt).bind ?_
  rw [if_neg (by rw [hv.id_ok]; decide)]
  exact huri.bind (hhint.bind (hcodecs.bind (hcast.bind hsub.map)))

/-- What `rd_additional` accepts. -/
structure AdditionalValid (counts : Counts) (di : DecoderInit) : Prop where
  nadditional_lt : di.nadditional < 2 ^ 64
  nknown_lt : di.known.length < 2 ^ 64
  known : ∀ s ∈ di.known, KnownValid counts di s
  encoding : di.schemaEncoding < 2 ^ 8
  castable : ExtValid counts none false di.castable
  substitutable : ExtValid counts none true di.substitutable

def additionalBits (counts : Counts) (di : DecoderInit) : List Bool :=
  vluimsbf8Bits di.nadditional ++ (tableBits (knownBits counts) di.known ++
    (ofNat 8 di.schemaEncoding ++ (extOfBits counts none false di.castable ++
      (extOfBits counts none true di.substitutable ++ replicate 7 false))))

/-- `known` reads nothing of the record that comes after NumberOfAdditionalSchemas. -/
theorem KnownValid.congr {counts : Counts} {di d : DecoderInit} {s : DiSchema} (h : KnownValid counts di s)
    (hschemas : d.schemas = di.schemas) (hadd : d.addSchema = di.addSchema) (hn : d.nadditional = di.nadditional) :
    KnownValid counts d s := by
  have hnall : d.nall = di.nall := by
    unfold nall
    rw [hschemas, hadd, hn]
  have hok : d.knownIdOk s.id = di.knownIdOk s.id := by
    unfold knownIdOk
    rw [hnall, hschemas]
  exact { h with id_ok := hok ▸ h.id_ok }

theorem yields_rdAdditional (counts : Counts) (di : DecoderInit) :
    Yields (rdAdditional counts di) fun d _ => AdditionalValid counts d ∧ d = { di with
        nadditional := d.nadditional
        known := d.known
        schemaEncoding := d.schemaEncoding
        castable := d.castable
        substitutable := d.substitutable } := by
  refine (yields_rdV8 diRd).bind ?_
  rintro nadditional _ ⟨hna, -⟩
  refine (yields_table diRd 24 fun _ => yields_rdKnownSchema counts _).bind ?_
  rintro known _ ⟨hnk, hknown⟩
  refine (yields_rdBits diRd 8).bind ?_
  rintro encoding _ ⟨henc, -⟩
  refine (yields_rdExtOf counts none false).bind ?_
  rintro castable _ hcast
  refine (yields_rdExtOf counts none true).bind ?_
  rintro substitutable _ hsub
  refine (yields_rdZero diRd 7 _).bind ?_
  rintro _ _ -
  refine yields_pure ⟨⟨hna, hnk, fun s hs => ?_, henc, hcast, hsub⟩, rfl⟩
  obtain ⟨j, hj⟩ := mem_iff_getElem?.1 hs
  exact (hknown j s hj).congr rfl rfl rfl

theorem inverts_rdAdditional (hv : AdditionalValid counts di) (hm : ∀ s ∈ di.known, SchemaMandatory di.mpegb s)
    (hmpegb : base.mpegb = di.mpegb) (hschemas : base.schemas = di.schemas) (hadd : base.addSchema = di.addSchema) :
    Inverts (rdAdditional counts base) (additionalBits counts di)
      { base with
        nadditional := di.nadditional
        known := di.known
        schemaEncoding := di.schemaEncoding
        castable := di.castable
        substitutable := di.substitutable } := by
  have hknown : Inverts (rdCounted diRd 24 fun _ =>
      rdKnownSchema counts { base with nadditional := di.nadditional })
      (tableBits (knownBits counts) di.known) di.known := by
    refine inverts_rdCounted diRd hv.nknown_lt (fun s hs => ?_) fun j s hj => ?_
    · have h1 := sixteen_le_strBits (hm s hs).1
      have h2 := length_vluimsbf8Bits_pos s.id
      simp only [knownBits, length_append]
      omega
    · have hs := mem_of_getElem? hj
      refine inverts_rdKnownSchema ((hv.known s hs).congr hschemas hadd rfl) ?_
      rw [hmpegb]
      exact hm s hs
  exact (inverts_rdV8 diRd hv.nadditional_lt).bind (hknown.bind
    ((inverts_rdBits diRd hv.encoding).bind ((inverts_rdExtOf hv.castable).bind
      ((inverts_rdExtOf hv.substitutable).bind (inverts_rdZero diRd 7 diReserved).map))))

end DecoderInit

end DvbIpiTools.Bim
