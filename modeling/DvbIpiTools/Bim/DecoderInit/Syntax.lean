import DvbIpiTools.Bim.DecoderInit.Model

set_option autoImplicit false

/-! # The DecoderInit syntax

Each part of a DecoderInit has its code as a plain bit string (`codecBits`, `cptBits`, ...) and a
predicate that says which values the parser can return for it (`DiCodec.Valid`, ...). For every part
the parser returns valid values only, and reads the code of a valid value back, provided the strings
that may not have length zero are not empty (`Mandatory`). -/

namespace DvbIpiTools.Bim

open BitList ListReader List

/-! ## Strings and codecs -/

/-- The string can be written where length zero is forbidden. -/
def CStr.NonEmpty (s : CStr) : Prop := s.val ≠ []

instance (s : CStr) : Decidable s.NonEmpty := inferInstanceAs (Decidable (s.val ≠ []))

/-- The length of the string fits its vluimsbf8 field. -/
def CStr.Fits (s : CStr) : Prop := s.val.length < 2 ^ 64

theorem eight_le_strBits (s : CStr) : 8 ≤ (strBits s).length := by
  have := length_vluimsbf8Bits_pos s.val.length
  rw [strBits, length_append]
  omega

theorem sixteen_le_strBits {s : CStr} (h : s.NonEmpty) : 16 ≤ (strBits s).length := by
  have := length_vluimsbf8Bits_pos s.val.length
  have hpos := length_pos_iff.2 h
  rw [strBits, length_append, length_ofBytes]
  omega

theorem eight_le_tableBits {α : Type} (enc : α → List Bool) (as : List α) : 8 ≤ (tableBits enc as).length := by
  have := length_vluimsbf8Bits_pos as.length
  rw [tableBits, length_append]
  omega

def DiCodec.Valid (c : DiCodec) : Prop := c.uri.Fits ∧ c.types.length < 2 ^ 64 ∧ ∀ t ∈ c.types, t < 2 ^ 64

/-- 15938-1:2002 forbids an empty TypeCodecURI. -/
def DiCodec.Mandatory (mpegb : Bool) (c : DiCodec) : Prop := mpegb = false → c.uri.NonEmpty

def CodecsValid (cs : List DiCodec) : Prop := cs.length < 2 ^ 64 ∧ ∀ c ∈ cs, c.Valid

def CodecsMandatory (mpegb : Bool) (cs : List DiCodec) : Prop := ∀ c ∈ cs, c.Mandatory mpegb

def codecBits (c : DiCodec) : List Bool := strBits c.uri ++ tableBits vluimsbf8Bits c.types

def codecsBits (cs : List DiCodec) : List Bool := tableBits codecBits cs

namespace DecoderInit

theorem mem_of_table {α : Type} {P : α → Prop} {as : List α}
    (h : ∀ (j : Nat) (a : α), as[j]? = some a → P a) : ∀ a ∈ as, P a := by
  intro a ha
  obtain ⟨j, hj⟩ := mem_iff_getElem?.1 ha
  exact h j a hj

theorem yields_rdCodec (mpegb : Bool) : Yields (rdCodec mpegb) fun c _ => c.Valid := by
  refine (yields_rdStr diRd _ _).bind ?_
  rintro uri m ⟨huri, -⟩
  have hv8 : ∀ _ : Nat, Yields (rdV8 diRd) fun v _ => v < 2 ^ 64 :=
    fun _ => (yields_rdV8 diRd).mono fun v m h => h.1
  refine (yields_table diRd 8 hv8).bind ?_
  rintro types k ⟨hlen, htypes⟩
  exact yields_pure ⟨huri, hlen, mem_of_table htypes⟩

theorem yields_rdCodecs (mpegb : Bool) : Yields (rdCodecs mpegb) fun cs _ => CodecsValid cs := by
  refine (yields_table diRd 16 fun _ => yields_rdCodec mpegb).mono ?_
  rintro cs m ⟨hlen, hcs⟩
  exact ⟨hlen, mem_of_table hcs⟩

variable {mpegb : Bool}

theorem inverts_rdCodec {c : DiCodec} (hv : c.Valid) (hm : c.Mandatory mpegb) :
    Inverts (rdCodec mpegb) (codecBits c) c := by
  obtain ⟨huri, hlen, htypes⟩ := hv
  have hstr : Inverts (rdStr diRd (if mpegb then none else some diZero) "TypeCodecURI_Length")
      (strBits c.uri) c.uri := by
    refine inverts_rdStr diRd _ _ c.uri huri fun hz => hm ?_
    cases mpegb with
    | true => cases hz
    | false => rfl
  have htable : Inverts (rdCounted diRd 8 fun _ => rdV8 diRd)
      (tableBits vluimsbf8Bits c.types) c.types := by
    refine inverts_rdCounted diRd hlen (fun t _ => length_vluimsbf8Bits_pos t) fun j t hj => ?_
    exact inverts_rdV8 diRd (htypes t (mem_of_getElem? hj))
  exact hstr.bind htable.map

theorem inverts_rdCodecs {cs : List DiCodec} (hv : CodecsValid cs)
    (hm : CodecsMandatory mpegb cs) : Inverts (rdCodecs mpegb) (codecsBits cs) cs := by
  refine inverts_rdCounted diRd hv.1 (fun c _ => ?_) fun j c hj => ?_
  · have h1 := eight_le_strBits c.uri
    have h2 := eight_le_tableBits vluimsbf8Bits c.types
    rw [codecBits, length_append]
    omega
  · have hmem := mem_of_getElem? hj
    exact inverts_rdCodec (hv.2 c hmem) (hm c hmem)

/-! ## External tables -/

/-- The count the callback gives for a table, zero where it gives none. -/
def countOf (counts : Counts) (uri : Option CStr) (elems : Bool) : Nat :=
  match counts.bind (· uri) with
  | none => 0
  | some (nt, ne) => if elems then ne.toNat else nt.toNat

/-- What `rd_ext` accepts: a code list only where the count is known. -/
def ExtValid (counts : Counts) (uri : Option CStr) (elems : Bool) (e : Ext) : Prop :=
  e.Valid (countOf counts uri elems) ∧ (e.present = true → e.all = false → (counts.bind (· uri)).isSome)

theorem countOf_lt (counts : Counts) (uri : Option CStr) (elems : Bool) : countOf counts uri elems < 2 ^ 64 := by
  unfold countOf
  split
  · decide
  · next nt ne _ =>
    have h1 := nt.toNat_lt
    have h2 := ne.toNat_lt
    split <;> omega

theorem codeListFollows_extBits (count : Nat) (e : Ext) (rest : List Bool) :
    codeListFollows (extBits count e ++ rest) = (e.present && !e.all) := by
  obtain ⟨present, all, codes⟩ := e
  cases present with
  | false => rfl
  | true =>
    cases all with
    | true =>
      show codeListFollows (true :: true :: rest) = _
      rw [codeListFollows, Stream.get_one]
      simp [Stream.get_one]
    | false =>
      have hbits : extBits count ⟨true, false, codes⟩ ++ rest = true :: false ::
          (vluimsbf5Bits codes.length ++ codes.flatMap (ofNat (bimWidth count)) ++ rest) := by
        simp [extBits]
      rw [hbits, codeListFollows, Stream.get_one]
      simp [Stream.get_one]

variable {e : Ext}

theorem extBits_of_no_list (h : (e.present && !e.all) = false) (m n : Nat) : extBits m e = extBits n e := by
  obtain ⟨present, all, codes⟩ := e
  cases present with
  | false => rfl
  | true =>
    cases all with
    | true => rfl
    | false => cases h

theorem valid_of_no_list (h : (e.present && !e.all) = false) {m : Nat} (hv : e.Valid m) (n : Nat) : e.Valid n := by
  have hnil : e.codes = [] := by
    cases hp : e.present with
    | false => exact (hv.1 hp).2
    | true => exact hv.2.1 (by simpa [hp] using h)
  refine ⟨hv.1, hv.2.1, ?_, ?_⟩
  · rw [hnil]; exact Nat.zero_le _
  · rw [hnil]; simp

variable {s s' : List Bool}

theorem get_of_rdFlag {b : Bool} (h : rdFlag diRd s = .ok b s') :
    ∃ v, Stream.get 1 s = some (v, s') ∧ b = decide (v ≠ 0) := by
  obtain ⟨v, s1, hbit, hpure⟩ := ok_of_bind h
  obtain ⟨rfl, rfl⟩ := pure_ok hpure
  refine ⟨v, ?_, rfl⟩
  unfold rdBits rdPrim at hbit
  split at hbit
  · cases hbit
  · next w s2 hget =>
    obtain ⟨rfl, rfl⟩ := EStateM.Result.ok.inj hbit
    exact hget

/-- The peek of `rd_ext` sees every code list that `bim_rd_ext` would read. -/
theorem rdExt_list_follows {count : Nat} (h : rdExt diRd count diRange s = .ok e s')
    (hlist : (e.present && !e.all) = true) : codeListFollows s = true := by
  obtain ⟨present, s1, hpresent, h⟩ := ok_of_bind h
  obtain ⟨v, hget, rfl⟩ := get_of_rdFlag hpresent
  rw [codeListFollows, hget]
  by_cases hv : v = 0
  · subst hv
    obtain ⟨rfl, -⟩ := pure_ok h
    cases hlist
  simp only [hv, if_false]
  rw [if_neg (by simp [hv])] at h
  obtain ⟨all, s2, hall, h⟩ := ok_of_bind h
  obtain ⟨w, hget', rfl⟩ := get_of_rdFlag hall
  rw [hget']
  by_cases hw : w = 0
  · simp [hw]
  · rw [if_pos (by simp [hw])] at h
    obtain ⟨rfl, -⟩ := pure_ok h
    cases hlist

theorem yields_rdExtOf (counts : Counts) (uri : Option CStr) (elems : Bool) :
    Yields (rdExtOf counts uri elems) fun e _ => ExtValid counts uri elems e := by
  intro s e s' h
  unfold rdExtOf at h
  split at h
  · next hpeek =>
    obtain ⟨hle, hv⟩ := yields_rdExt diRd 0 diRange s e s' h
    -- a table read with count zero lists no code: it would have been seen by the peek
    have hno : (e.present && !e.all) = false := by
      by_contra hlist
      rw [Bool.not_eq_false] at hlist
      have := rdExt_list_follows h hlist
      rw [this] at hpeek
      cases hpeek
    refine ⟨hle, valid_of_no_list hno hv _, fun hp ha => ?_⟩
    rw [hp, ha] at hno
    cases hno
  · next hpeek =>
    split at h
    · cases h
    · next nt ne hc =>
      obtain ⟨hle, hv⟩ := yields_rdExt diRd _ diRange s e s' h
      refine ⟨hle, ?_, fun _ _ => by rw [hc]; rfl⟩
      rw [countOf, hc]
      exact hv

/-- The code of a table whose counts the callback gives. -/
def extOfBits (counts : Counts) (uri : Option CStr) (elems : Bool) (e : Ext) : List Bool :=
  extBits (countOf counts uri elems) e

variable {counts : Counts} {uri : Option CStr} {elems : Bool}

theorem inverts_rdExtOf (hv : ExtValid counts uri elems e) :
    Inverts (rdExtOf counts uri elems) (extOfBits counts uri elems e) e := by
  intro rest
  rw [rdExtOf, extOfBits, codeListFollows_extBits]
  split
  · next hno =>
    rw [Bool.not_eq_true', ] at hno
    rw [extBits_of_no_list hno _ 0]
    exact inverts_rdExt diRd diRange (by decide) (valid_of_no_list hno hv.1 0) rest
  rename_i hlist
  rw [Bool.not_eq_true', Bool.not_eq_false, Bool.and_eq_true, Bool.not_eq_true'] at hlist
  obtain ⟨⟨nt, ne⟩, hc⟩ := Option.isSome_iff_exists.1 (hv.2 hlist.1 hlist.2)
  have hcount : countOf counts uri elems = if elems then ne.toNat else nt.toNat := by rw [countOf, hc]
  have hread := inverts_rdExt diRd diRange (countOf_lt counts uri elems) hv.1 rest
  rw [hcount] at hread ⊢
  rw [hc]
  exact hread

theorem wExt_eq (hv : ExtValid counts uri elems e) : wExt counts uri elems e = .ok (extOfBits counts uri elems e) := by
  rw [wExt, extOfBits]
  split
  · next hlist =>
    rw [Bool.and_eq_true, Bool.not_eq_true'] at hlist
    obtain ⟨⟨nt, ne⟩, hc⟩ := Option.isSome_iff_exists.1 (hv.2 hlist.1 hlist.2)
    have hcount : countOf counts uri elems = if elems then ne.toNat else nt.toNat := by rw [countOf, hc]
    have hvalid := hv.1
    rw [hcount] at hvalid ⊢
    rw [hc]
    exact wrExt_eq diRange hvalid
  · next hno =>
    rw [Bool.not_eq_true] at hno
    rw [extBits_of_no_list hno _ 0]
    exact wrExt_eq diRange (valid_of_no_list hno hv.1 0)

/-! ## Features and the PrefixTable -/

def PrefixesValid (ps : List DiPrefix) : Prop := ps.length < 2 ^ 64 ∧ ∀ p ∈ ps, p.uri.Fits ∧ p.pfx.Fits

def PrefixesMandatory (ps : List DiPrefix) : Prop := ∀ p ∈ ps, p.uri.NonEmpty

def prefixBits (p : DiPrefix) : List Bool := strBits p.uri ++ strBits p.pfx

def prefixTableBits (present : Bool) (ps : List DiPrefix) : List Bool :=
  if present then tableBits prefixBits ps else []

theorem yields_rdPrefix : Yields rdPrefix fun p m =>
    (p.uri.Fits ∧ p.pfx.Fits) ∧ (prefixBits p).length ≤ m := by
  refine (yields_rdStr diRd _ _).bind ?_
  rintro uri m ⟨huri, hm⟩
  refine (yields_rdStr diRd _ _).bind ?_
  rintro pfx k ⟨hpfx, hk⟩
  refine yields_pure ⟨⟨huri, hpfx⟩, ?_⟩
  show (strBits uri ++ strBits pfx).length ≤ m + (k + 0)
  rw [length_append]
  omega

variable {ps : List DiPrefix}

theorem inverts_rdPrefixTable (hv : PrefixesValid ps) (hm : PrefixesMandatory ps) :
    Inverts (rdCounted diRd 16 fun _ => rdPrefix) (tableBits prefixBits ps) ps := by
  refine inverts_rdCounted diRd hv.1 (fun p _ => ?_) fun j p hj => ?_
  · have h1 := eight_le_strBits p.uri
    have h2 := eight_le_strBits p.pfx
    rw [prefixBits, length_append]
    omega
  · have hmem := mem_of_getElem? hj
    obtain ⟨huri, hpfx⟩ := hv.2 p hmem
    have h1 := inverts_rdStr diRd (some diZero) "SchemaURI_Length" p.uri huri fun _ => hm p hmem
    have h2 := inverts_rdStr diRd none "" p.pfx hpfx nofun
    exact h1.bind h2.map

theorem strBits_dvd (s : CStr) : 8 ∣ (strBits s).length := by
  rw [strBits, length_append, length_vluimsbf8Bits, length_ofBytes]
  exact ⟨vluimsbf8Len s.val.length + s.val.length, by ring⟩

theorem prefixTableBits_dvd (present : Bool) (ps : List DiPrefix) : 8 ∣ (prefixTableBits present ps).length := by
  have hps : 8 ∣ (ps.flatMap prefixBits).length := by
    induction ps with
    | nil => exact Nat.dvd_zero 8
    | cons p ps ih =>
      rw [flatMap_cons, length_append, prefixBits, length_append]
      exact Nat.dvd_add (Nat.dvd_add (strBits_dvd p.uri) (strBits_dvd p.pfx)) ih
  cases present with
  | false => exact Nat.dvd_zero 8
  | true =>
    show 8 ∣ (tableBits prefixBits ps).length
    rw [tableBits, length_append, length_vluimsbf8Bits]
    exact Nat.dvd_add (Nat.dvd_mul_right 8 _) hps

/-- AdvancedFeatureFlags_Length. -/
def featuresLen (di : DecoderInit) : Nat :=
  (flagBits + (prefixTableBits di.prefixTable di.prefixes).length + 7) / 8

/-- The code of `w_features`: the reserved bits before the PrefixTable and the padding after it. -/
def featuresBits (di : DecoderInit) : List Bool :=
  vluimsbf8Bits di.featuresLen ++ (di.flags ++ (replicate 24 false ++
    (prefixTableBits di.prefixTable di.prefixes ++ replicate 7 false)))

/-- What `rd_features` accepts. -/
structure FeaturesValid (di : DecoderInit) : Prop where
  table_off : di.prefixTable = false → di.prefixes = []
  prefixes : PrefixesValid di.prefixes
  len_lt : di.featuresLen < 2 ^ 64
  only : di.addSchemaOnly = true → di.addSchema = true
  add : di.addSchema = true → di.hier = true

theorem of_rdPrefixes {present : Bool} {start avail : Nat} (h : rdPrefixes present start avail s = .ok ps s') :
    s'.length ≤ s.length ∧ PrefixesValid ps ∧ (present = false → ps = []) ∧
      (present = true → flagBits ≤ avail ∧ start - s'.length ≤ avail ∧
        24 + (prefixTableBits present ps).length + s'.length ≤ s.length) := by
  unfold rdPrefixes at h
  cases present with
  | false =>
    obtain ⟨rfl, rfl⟩ := pure_ok h
    exact ⟨le_rfl, ⟨by decide, by simp⟩, fun _ => rfl, nofun⟩
  | true =>
    rw [if_neg (by decide)] at h
    split at h
    · exact absurd h throw_ne_ok
    rename_i havail
    obtain ⟨_, s1, hzero, h⟩ := ok_of_bind h
    obtain ⟨ps', s2, htable, h⟩ := ok_of_bind h
    obtain ⟨left, s3, hleft, h⟩ := ok_of_bind h
    obtain ⟨rfl, rfl⟩ := EStateM.Result.ok.inj hleft
    split at h
    · exact absurd h throw_ne_ok
    rename_i hlen
    obtain ⟨rfl, rfl⟩ := pure_ok h
    obtain ⟨hle1, hm1⟩ := yields_rdZero diRd _ _ _ _ _ hzero
    obtain ⟨hle2, hn, hall, hm2⟩ := yields_rdCounted diRd 16 (fun _ => yields_rdPrefix) _ _ _ htable
    have h24 : flagBits - 9 = 24 := rfl
    refine ⟨by omega, ⟨hn, mem_of_table hall⟩, nofun, fun _ => ?_⟩
    refine ⟨by omega, by omega, ?_⟩
    show 24 + (tableBits prefixBits ps').length + s2.length ≤ s.length
    omega

theorem length_flags (di : DecoderInit) : di.flags.length = 9 := rfl

variable {di : DecoderInit}

theorem of_rdFeatures {d : DecoderInit} (h : rdFeatures di s = .ok d s') : s'.length ≤ s.length ∧ d.FeaturesValid ∧
      d = { di.setFlags d.flags with prefixes := d.prefixes } := by
  obtain ⟨len, s1, hlen, h⟩ := ok_of_bind h
  obtain ⟨start, s2, hleft, h⟩ := ok_of_bind h
  obtain ⟨rfl, rfl⟩ := EStateM.Result.ok.inj hleft
  obtain ⟨hle1, hlen64, -⟩ := yields_rdV8 diRd _ _ _ hlen
  split at h
  · cases h
  rename_i hfit
  obtain ⟨fs, s3, hflags, h⟩ := ok_of_bind h
  obtain ⟨ps, s4, hps, h⟩ := ok_of_bind h
  obtain ⟨left, s5, hleft, h⟩ := ok_of_bind h
  obtain ⟨rfl, rfl⟩ := EStateM.Result.ok.inj hleft
  obtain ⟨_, s6, hzero, h⟩ := ok_of_bind h
  have hone : ∀ j : Nat, Yields ((fun _ => rdFlag diRd : Nat → Rd Bool) j)
      fun b m => True ∧ (fun _ => 1) b ≤ m :=
    fun j => (yields_rdFlag diRd).mono fun b m hm => ⟨trivial, le_of_eq hm.symm⟩
  obtain ⟨hle3, hfs, -, hsum⟩ := yields_each 0 _ hone _ _ _ hflags
  obtain ⟨hle4, hvalid, hoff, hon⟩ := of_rdPrefixes hps
  obtain ⟨hle6, -⟩ := yields_rdZero diRd _ _ _ _ _ hzero
  have hsum' : fs.length ≤ s1.length - s3.length := by simpa [map_const'] using hsum
  -- the table fits AdvancedFeatureFlags_Length, so its own length does
  have hsize : (flagBits + (prefixTableBits (fs.getD 8 false) ps).length + 7) / 8 < 2 ^ 64 := by
    cases hb : fs.getD 8 false with
    | false => exact (by decide : (flagBits + 0 + 7) / 8 < 2 ^ 64)
    | true =>
      obtain ⟨h33, hlen', hread⟩ := hon hb
      rw [hb] at hread
      have h33' : flagBits = 33 := rfl
      omega
  unfold checkFeatures at h
  split at h
  · exact absurd h throw_ne_ok
  rename_i honly
  split at h
  · exact absurd h throw_ne_ok
  · next hadd =>
    obtain ⟨rfl, rfl⟩ := pure_ok h
    rw [Bool.and_eq_true, Bool.not_eq_true', not_and, Bool.not_eq_false] at honly hadd
    exact ⟨by omega, ⟨hoff, hvalid, hsize, honly, hadd⟩, rfl⟩

theorem inverts_rdFlags (fs : List Bool) : Inverts (each (fun _ => rdFlag diRd) 0 fs.length) fs fs := by
  have h : Inverts (each (fun _ => rdFlag diRd) 0 fs.length) (fs.flatMap fun b => [b]) fs :=
    inverts_each fs 0 fun _ b _ => inverts_rdFlag diRd b
  rwa [show (fs.flatMap fun b => [b]) = fs by simp] at h

theorem featuresLen_mul {di : DecoderInit} :
    di.featuresLen * 8 = 40 + (prefixTableBits di.prefixTable di.prefixes).length := by
  obtain ⟨k, hk⟩ := prefixTableBits_dvd di.prefixTable di.prefixes
  have h33 : flagBits = 33 := rfl
  rw [featuresLen, hk, h33]
  omega

theorem rdPrefixes_bits (hv : di.FeaturesValid) (hm : PrefixesMandatory di.prefixes) (tail : List Bool) (start : Nat)
    (hstart : start = 33 + (prefixTableBits di.prefixTable di.prefixes).length + tail.length) :
    ∃ tail', rdPrefixes di.prefixTable start (di.featuresLen * 8)
        (replicate 24 false ++ (prefixTableBits di.prefixTable di.prefixes ++ tail))
          = .ok di.prefixes (tail' ++ tail) ∧ tail' = if di.prefixTable then [] else replicate 24 false := by
  have h33 : flagBits = 33 := rfl
  have hmul := @featuresLen_mul di
  unfold rdPrefixes
  cases htable : di.prefixTable with
  | false =>
    refine ⟨_, ?_, rfl⟩
    rw [hv.table_off htable]
    rfl
  | true =>
    refine ⟨[], ?_, rfl⟩
    have hbits : prefixTableBits true di.prefixes = tableBits prefixBits di.prefixes := rfl
    rw [if_neg (by decide), if_neg (by omega), show flagBits - 9 = 24 from rfl,
      bind_of_ok (inverts_rdZero diRd 24 diReserved _), hbits, bind_of_ok (inverts_rdPrefixTable hv.prefixes hm tail),
      bind_of_ok (show rdLeft tail = .ok tail.length tail from rfl), if_neg (by omega)]
    rfl

theorem inverts_rdFeatures (base : DecoderInit) (hv : di.FeaturesValid) (hm : PrefixesMandatory di.prefixes) :
    Inverts (rdFeatures base) (featuresBits di)
      { base.setFlags di.flags with prefixes := di.prefixes } := by
  intro rest
  set pt := prefixTableBits di.prefixTable di.prefixes with hpt
  have hmul : di.featuresLen * 8 = 40 + pt.length := featuresLen_mul
  have hlen9 : min 9 (di.featuresLen * 8) = di.flags.length := by rw [length_flags]; omega
  rw [rdFeatures, featuresBits, append_assoc, bind_of_ok (inverts_rdV8 diRd hv.len_lt _),
    bind_of_ok (show rdLeft _ = .ok _ _ from rfl), if_neg, hlen9, append_assoc, bind_of_ok (inverts_rdFlags di.flags _)]
  · have h8 : di.flags.getD 8 false = di.prefixTable := rfl
    obtain ⟨tail', hread, htail⟩ := rdPrefixes_bits hv hm (replicate 7 false ++ rest)
      (di.flags ++ (replicate 24 false ++ (pt ++ replicate 7 false) ++ rest)).length (by
        simp only [length_append, length_replicate, length_flags, ← hpt]
        omega)
    rw [h8, ← hpt, append_assoc, append_assoc]
    rw [← hpt, append_assoc, append_assoc] at hread
    rw [bind_of_ok hread, bind_of_ok (show rdLeft _ = .ok _ _ from rfl)]
    -- what is left of AdvancedFeatureFlags_Length is the padding, and the unused reserved bits
    have hpad : tail' ++ (replicate 7 false ++ rest)
        = replicate (tail'.length + 7) false ++ rest := by
      rw [htail, ← append_assoc]
      split <;> rfl
    have hzero : di.featuresLen * 8 - ((di.flags ++ (replicate 24 false ++
        (pt ++ (replicate 7 false ++ rest)))).length -
        (tail' ++ (replicate 7 false ++ rest)).length) = tail'.length + 7 := by
      simp only [length_append, length_replicate, length_flags]
      rw [htail]
      cases htable : di.prefixTable with
      | false =>
        simp only [Bool.false_eq_true, if_false, length_replicate]
        omega
      | true =>
        simp only [if_true, length_nil]
        omega
    rw [hzero, hpad, bind_of_ok (inverts_rdZero diRd _ _ rest), checkFeatures]
    have honly : ¬ ((di.addSchemaOnly && !di.addSchema) = true) := by
      rw [Bool.and_eq_true, Bool.not_eq_true', not_and, Bool.not_eq_false]
      exact hv.only
    have hadd : ¬ ((di.addSchema && !di.hier) = true) := by
      rw [Bool.and_eq_true, Bool.not_eq_true', not_and, Bool.not_eq_false]
      exact hv.add
    exact (if_neg honly).trans (if_neg hadd) ▸ rfl
  · simp only [length_append, length_replicate, length_flags, ← hpt]
    omega

end DecoderInit

end DvbIpiTools.Bim
