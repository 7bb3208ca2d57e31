import DvbIpiTools.Bim.DecoderInit.Syntax
import DvbIpiTools.Bim.AccessUnit.Model

set_option autoImplicit false

/-! # The parts of a schema update unit

For strings, the three kinds of tables and the encoded schema: the code as a bit string, what the parser
accepts, that the writer produces the code and that the parser reads it back. All but one of the codes
are read back whatever follows them. The exception is a partial attribute table of a schema with a
single attribute: its codes have no bits, so the only thing its count is held against is what follows. -/

namespace DvbIpiTools.Bim

open BitList ListReader List Nat

/-! ## Varints and skips look no further than they read -/

namespace Stream

theorem get_local {n v : Nat} {s s' : List Bool} (h : get n s = some (v, s')) :
    ∃ bs, s = bs ++ s' ∧ ∀ rest, get n (bs ++ rest) = some (v, rest) := by
  unfold get at h
  split at h
  · cases h
  rename_i hn
  obtain ⟨rfl, rfl⟩ := h
  have htake : (s.take n).length = n := by
    rw [length_take]
    omega
  exact ⟨s.take n, (take_append_drop n s).symm, get_append htake⟩

theorem getVluimsbf8Loop_local {acc groups v : Nat} {s s' : List Bool}
    (h : getVluimsbf8Loop acc groups s = some (v, s')) :
    ∃ bs, s = bs ++ s' ∧ ∀ rest, getVluimsbf8Loop acc groups (bs ++ rest) = some (v, rest) := by
  induction groups generalizing acc s with
  | zero => cases h
  | succ groups ih =>
    rw [getVluimsbf8Loop] at h
    split at h
    · cases h
    rename_i cont s1 h1
    split at h
    · cases h
    rename_i group s2 h7
    obtain ⟨c, rfl, hc⟩ := get_local h1
    obtain ⟨g, rfl, hg⟩ := get_local h7
    split at h
    · cases h
    rename_i hover
    split at h
    · next hlast =>
      obtain ⟨rfl, rfl⟩ := h
      refine ⟨c ++ g, by rw [append_assoc], fun rest => ?_⟩
      rw [getVluimsbf8Loop, append_assoc, hc]
      simp only [hg, if_neg hover, if_pos hlast]
    · next hlast =>
      obtain ⟨bs, rfl, hbs⟩ := ih h
      refine ⟨c ++ (g ++ bs), by simp only [append_assoc], fun rest => ?_⟩
      rw [getVluimsbf8Loop, append_assoc, hc, append_assoc]
      simp only [hg, if_neg hover, if_neg hlast, hbs]

end Stream

theorem local_rdV8 (x : RdCtx) : Local (rdV8 x) := by
  intro s v s' h
  unfold rdV8 rdPrim at h
  split at h
  · cases h
  · next w s1 hp =>
    obtain ⟨rfl, rfl⟩ := EStateM.Result.ok.inj h
    obtain ⟨bs, rfl, hbs⟩ := Stream.getVluimsbf8Loop_local hp
    exact ⟨bs, rfl, inverts_rdPrim x hbs⟩

namespace AccessUnit

theorem local_rdSkipBytes (len : Nat) : Local (rdSkipBytes len) := by
  intro s u s' h
  unfold rdSkipBytes at h
  split at h
  · cases h
  rename_i hlen
  obtain ⟨-, rfl⟩ := EStateM.Result.ok.inj h
  have hle : len * 8 ≤ s.length := by omega
  refine ⟨s.take (len * 8), (take_append_drop _ s).symm, fun rest => ?_⟩
  have htake : (s.take (len * 8)).length = len * 8 := by rw [length_take, min_eq_left hle]
  rw [rdSkipBytes, if_neg, drop_left' htake]
  rw [length_append, htake]
  omega

/-! ## The encoded schema -/

theorem local_rdEncodedSpan : Local rdEncodedSpan := by
  refine (local_rdV8 auRd).bind fun n => ?_
  split
  · exact local_throw _
  · exact (local_rdV8 auRd).bind local_rdSkipBytes

theorem yields_rdEncodedSpan : Yields rdEncodedSpan fun _ m => 16 ≤ m := by
  refine (yields_rdV8 auRd).bind ?_
  rintro n m ⟨-, hm⟩
  have h8 := length_vluimsbf8Bits_pos n
  split
  · exact yields_throw
  refine (yields_rdV8 auRd).bind ?_
  rintro len k ⟨-, hk⟩
  have hk8 := length_vluimsbf8Bits_pos len
  intro s u s' h
  obtain ⟨bs, rfl, -⟩ := local_rdSkipBytes len s u s' h
  rw [length_append]
  exact ⟨by omega, by omega⟩

/-- The bits kept of an encoded schema. -/
def encodedBits (b : Bits) : List Bool := wrBits b.bits b.nbits

/-- What `rd_encoded` accepts: bits that it takes as one encoded schema. -/
def EncodedValid (b : Bits) : Prop := 16 ≤ (encodedBits b).length ∧ b.bits = packBytes (encodedBits b) ∧
    b.nbits = (encodedBits b).length ∧ ∃ u, Inverts rdEncodedSpan (encodedBits b) u

theorem yields_rdEncoded : Yields rdEncoded fun b _ => EncodedValid b := by
  intro s b s' h
  unfold rdEncoded at h
  split at h
  · cases h
  rename_i u s1 hspan
  obtain ⟨-, h16⟩ := yields_rdEncodedSpan _ _ _ hspan
  obtain ⟨bs, rfl, hbs⟩ := local_rdEncodedSpan _ _ _ hspan
  rw [length_append, Nat.add_sub_cancel] at h h16
  simp only at h
  rw [inverts_rdRaw auRd bs s1] at h
  obtain ⟨rfl, rfl⟩ := EStateM.Result.ok.inj h
  refine ⟨by rw [length_append]; omega, ?_⟩
  have hbits : encodedBits { bits := packBytes bs, nbits := bs.length } = bs := wrBits_packBytes bs
  show EncodedValid { bits := packBytes bs, nbits := bs.length }
  unfold EncodedValid
  rw [hbits]
  exact ⟨h16, rfl, rfl, u, hbs⟩

theorem inverts_rdEncoded {b : Bits} (hv : EncodedValid b) : Inverts rdEncoded (encodedBits b) b := by
  obtain ⟨-, hbits, hn, u, hu⟩ := hv
  intro rest
  rw [rdEncoded, hu rest]
  simp only
  rw [length_append, Nat.add_sub_cancel, inverts_rdRaw auRd (encodedBits b) rest]
  simp only [← hbits, ← hn]

/-! ## Strings -/

theorem yields_rdString : Yields rdString fun s _ => s.Fits := by
  refine (yields_rdV8 auRd).bind ?_
  rintro n m ⟨hn, -⟩
  split
  · exact yields_throw
  · refine (yields_rdBytes auRd n).bind ?_
    rintro data k ⟨hlen, -⟩
    have hle := CStr.length_ofBytes_le data
    exact yields_pure (lt_of_le_of_lt (hlen ▸ hle) hn)

variable {s : CStr}

theorem inverts_rdString (hfits : s.Fits) (hne : s.NonEmpty) : Inverts rdString (strBits s) s := by
  refine (inverts_rdV8 auRd hfits).bind ?_
  rw [if_neg fun h => hne (length_eq_zero_iff.1 h)]
  have h := (inverts_rdBytes auRd s.val).map (f := CStr.ofBytes)
  rwa [CStr.ofBytes_val] at h

theorem wString_eq (hne : s.NonEmpty) : wString s = .ok (strBits s) := by
  rw [wString, if_neg hne, wrStr_eq (by simp)]

theorem of_wString {bs : List Bool} (h : wString s = .ok bs) : s.NonEmpty := by
  intro hnil
  rw [wString, if_pos hnil] at h
  cases h

/-! ## Tables -/

/-- The global count of a first SUU, with the external table of types and elements. -/
def globalBits (k : TableKind) (first : Bool) (t : SuuTable) : List Bool :=
  if !first then []
  else if k = .attrs then vluimsbf8Bits t.nglobal.toNat
  else vluimsbf8Bits t.nglobal.toNat ++ extBits t.nglobal.toNat t.ext

/-- What precedes the flag of a table, as `rd_table` accepts it. -/
structure GlobalValid (k : TableKind) (first : Bool) (known : UInt64) (t : SuuTable) : Prop where
  known_eq : first = false → t.nglobal = known
  ext_off : (first = false ∨ k = .attrs) → t.ext = {}
  ext : t.ext.Valid t.nglobal.toNat

theorem Ext.valid_default (count : Nat) : ({} : Ext).Valid count :=
  ⟨fun _ => ⟨rfl, rfl⟩, fun _ => rfl, zero_le _, by simp⟩

theorem yields_rdGlobal (k : TableKind) (first : Bool) (known : UInt64) : Yields (rdGlobal k first known) fun p _ =>
      ∀ t : SuuTable, t.nglobal = p.1 → t.ext = p.2 → GlobalValid k first known t := by
  cases first with
  | false =>
    refine yields_pure ?_
    intro t hn he
    exact ⟨fun _ => hn, fun _ => he, he ▸ Ext.valid_default _⟩
  | true =>
    refine (yields_rdV8 auRd).bind ?_
    rintro v _ ⟨hv, -⟩
    have hto : (UInt64.ofNat v).toNat = v := by rw [UInt64.toNat_ofNat', mod_eq_of_lt hv]
    split
    · next hk =>
      refine yields_pure ?_
      intro t hn he
      exact ⟨fun h => Bool.noConfusion h, fun _ => he, he ▸ Ext.valid_default _⟩
    rename_i hk
    refine (yields_rdExt auRd v auRange).bind ?_
    rintro e _ he
    refine yields_pure ?_
    intro t hn hext
    refine ⟨fun h => Bool.noConfusion h, fun h => ?_, ?_⟩
    · exact absurd h (by simp [hk])
    · rw [hext, hn, hto]
      exact he

variable {k : TableKind} {first : Bool} {known : UInt64} {t : SuuTable}

theorem inverts_rdGlobal (hv : GlobalValid k first known t) :
    Inverts (rdGlobal k first known) (globalBits k first t) (t.nglobal, t.ext) := by
  have hn : t.nglobal.toNat < 2 ^ 64 := t.nglobal.toNat_lt
  have hof : UInt64.ofNat t.nglobal.toNat = t.nglobal := UInt64.ofNat_toNat
  unfold rdGlobal globalBits
  cases first with
  | false =>
    rw [hv.known_eq rfl, hv.ext_off (.inl rfl)]
    exact inverts_pure _
  | true =>
    by_cases hk : k = .attrs
    · rw [if_pos hk, hv.ext_off (.inr hk)]
      have h := (inverts_rdV8 auRd hn).map (f := fun v => (UInt64.ofNat v, ({} : Ext)))
      rw [hof] at h
      simpa only [hk, if_true, Bool.not_true, Bool.false_eq_true, if_false] using h
    rw [if_neg hk]
    refine (inverts_rdV8 auRd hn).bind ?_
    rw [if_neg hk]
    have h := (inverts_rdExt auRd auRange hn hv.ext).map
      (f := fun e => (UInt64.ofNat t.nglobal.toNat, e))
    simpa only [hof] using h

theorem wGlobal_eq (hv : GlobalValid k first known t) : wrIf first (wGlobal k t) = .ok (globalBits k first t) := by
  unfold wrIf wGlobal globalBits
  cases first with
  | false => rfl
  | true =>
    by_cases hk : k = .attrs
    · simp [hk, pure, Except.pure]
    · simp only [if_neg hk, wrExt_eq auRange hv.ext]
      rfl

theorem bimWidth_eq_zero {n : Nat} : bimWidth n = 0 ↔ n ≤ 1 := by
  rw [bimWidth, bimWidthFrom]
  have := le_bimWidthFrom n (0 + 1)
  split
  · next h => omega
  · next h => omega

/-- The shapes of the tables `rd_table` returns. -/
inductive TableShape : TableKind → SuuTable → Prop
  | allAttrs (nglobal : UInt64) (ext : Ext) : TableShape .attrs { nglobal, ext }
  | someAttrs (nglobal : UInt64) (ext : Ext) (codes : List Nat) (hlen : codes.length < 2 ^ 64)
      (hlt : ∀ c ∈ codes, c < nglobal.toNat) :
      TableShape .attrs { nglobal, ext, isPartial := true, codes, n := codes.length }
  | someCounts {k : TableKind} (hk : k ≠ .attrs) (nglobal : UInt64) (ext : Ext)
      (entries : List (Nat × Nat)) (hlen : entries.length < 2 ^ 64)
      (hlt : ∀ e ∈ entries, e.1 < nglobal.toNat ∧ e.2 < 2 ^ 64) :
      TableShape k { nglobal, ext, isPartial := true, codes := entries.map Prod.fst,
                     counts := entries.map Prod.snd, n := entries.length }
  | allCounts {k : TableKind} (hk : k ≠ .attrs) (nglobal : UInt64) (ext : Ext) (counts : List Nat)
      (hlen : counts.length = nglobal.toNat) (hlt : ∀ c ∈ counts, c < 2 ^ 64) :
      TableShape k { nglobal, ext, counts, n := counts.length }

/-- A code with its count. -/
def codedBits (e : Nat × Nat) : List Bool := vluimsbf5Bits e.1 ++ vluimsbf5Bits e.2

/-- The entries of a table. -/
def entriesBits (k : TableKind) (t : SuuTable) : List Bool :=
  if k = .attrs then
    if t.isPartial then
      vluimsbf5Bits t.n ++ t.codes.flatMap (ofNat (bimWidth t.nglobal.toNat))
    else []
  else if t.isPartial then vluimsbf5Bits t.n ++ (t.codes.zip t.counts).flatMap codedBits
  else t.counts.flatMap vluimsbf5Bits

/-- The code of a table. -/
def suuTableBits (k : TableKind) (first : Bool) (t : SuuTable) : List Bool :=
  globalBits k first t ++ ([t.isPartial] ++ entriesBits k t)

/-- The codes of a partial attribute table are no more than the bits after them, where they have no
    bits of their own. -/
def CodesFit (t : SuuTable) (left : Nat) : Prop := t.isPartial = true → t.nglobal.toNat ≤ 1 → t.n ≤ left

theorem five_le_vluimsbf5Bits (v : Nat) : 5 ≤ (vluimsbf5Bits v).length := by
  have hlen : 1 ≤ vluimsbf5Len v := (groupCount_spec 4 vluimsbf5MaxGroups v 1 (by decide)).1
  rw [length_vluimsbf5Bits]
  omega

theorem yields_rdAttrs (nglobal : Nat) : Yields (rdAttrs nglobal) fun codes _ =>
    codes.length < 2 ^ 64 ∧ ∀ c ∈ codes, c < nglobal := by
  have hcode : ∀ _ : Nat, Yields (rdAttr nglobal) fun c m => c < nglobal ∧ (fun _ => 0) c ≤ m := by
    intro _
    refine (yields_rdBits auRd _).bind ?_
    rintro c m -
    split
    · exact yields_throw
    · next h => exact yields_pure ⟨not_le.1 h, zero_le _⟩
  refine (yields_rdV5 auRd).bind ?_
  rintro v _ ⟨hv, -⟩
  refine yields_rdLeft.bind ?_
  rintro left _ -
  split
  · exact yields_rdTrunc auRd
  · refine (yields_each 0 v hcode).mono ?_
    rintro codes _ ⟨rfl, hall, -⟩
    refine ⟨hv, DecoderInit.mem_of_table fun j c hc => hall j c hc⟩

theorem yields_rdCoded (k : TableKind) (nglobal : Nat) : Yields (rdCoded k nglobal) fun e _ =>
    e.1 < nglobal ∧ e.2 < 2 ^ 64 := by
  refine (yields_rdV5 auRd).bind ?_
  rintro code _ -
  split
  · exact yields_throw
  · next h =>
    refine (yields_rdV5 auRd).bind ?_
    rintro count _ ⟨hc, -⟩
    exact yields_pure ⟨not_le.1 h, hc⟩

theorem yields_rdTable (k : TableKind) (first : Bool) (known : UInt64) :
    Yields (rdTable k first known) fun t _ => GlobalValid k first known t ∧ TableShape k t := by
  refine (yields_rdGlobal k first known).bind ?_
  rintro ⟨nglobal, ext⟩ _ hglobal
  refine (yields_rdFlag auRd).bind ?_
  rintro isPartial _ -
  by_cases hk : k = .attrs
  · rw [if_pos hk]
    subst hk
    cases isPartial with
    | false => exact yields_pure ⟨hglobal _ rfl rfl, .allAttrs nglobal ext⟩
    | true =>
      refine (yields_rdAttrs _).bind ?_
      rintro codes _ ⟨hlen, hlt⟩
      exact yields_pure ⟨hglobal _ rfl rfl, .someAttrs nglobal ext codes hlen hlt⟩
  rw [if_neg hk]
  cases isPartial with
  | true =>
    refine (yields_rdV5 auRd).bind ?_
    rintro v _ ⟨hv, -⟩
    refine yields_rdLeft.bind ?_
    rintro left _ -
    split
    · exact yields_rdTrunc auRd
    have hcoded := fun _ : Nat => (yields_rdCoded k nglobal.toNat).mono
      (fun e m h => (⟨h, zero_le m⟩ : _ ∧ (fun _ => 0) e ≤ m))
    refine (yields_each 0 v hcoded).bind ?_
    rintro entries _ ⟨rfl, hall, -⟩
    exact yields_pure ⟨hglobal _ rfl rfl, .someCounts hk nglobal ext entries hv
      (DecoderInit.mem_of_table fun j e he => hall j e he)⟩
  | false =>
    refine yields_rdLeft.bind ?_
    rintro left _ -
    split
    · exact yields_rdTrunc auRd
    have hcount := fun _ : Nat => (yields_rdV5 auRd).mono
      (fun c m h => (⟨h.1, zero_le m⟩ : c < 2 ^ 64 ∧ (fun _ => 0) c ≤ m))
    refine (yields_each 0 nglobal.toNat hcount).bind ?_
    rintro counts _ ⟨hlen, hall, -⟩
    exact yields_pure ⟨hglobal _ rfl rfl, .allCounts hk nglobal ext counts hlen
      (DecoderInit.mem_of_table fun j c hc => hall j c hc)⟩

variable {nglobal : Nat} {rest : List Bool}

theorem rdAttrs_bits {codes : List Nat} (hn : nglobal < 2 ^ 64) (hlen : codes.length < 2 ^ 64)
    (hlt : ∀ c ∈ codes, c < nglobal) (hfit : nglobal ≤ 1 → codes.length ≤ rest.length) :
    rdAttrs nglobal (vluimsbf5Bits codes.length ++
      (codes.flatMap (ofNat (bimWidth nglobal)) ++ rest)) = .ok codes rest := by
  have hcodes : Inverts (each (fun _ => rdAttr nglobal) 0 codes.length)
      (codes.flatMap (ofNat (bimWidth nglobal))) codes := by
    refine inverts_each codes 0 fun j c hj => ?_
    have hc := hlt c (mem_of_getElem? hj)
    intro rest
    rw [rdAttr, bind_of_ok (inverts_rdBits auRd (lt_two_pow_bimWidth hn hc) rest), if_neg (not_le.2 hc)]
    rfl
  have hbits := length_flatMap_ge codes (ofNat (bimWidth nglobal)) (bimWidth nglobal)
    fun c _ => by rw [length_ofNat]
  have hnot : ¬ codes.length >
      (codes.flatMap (ofNat (bimWidth nglobal)) ++ rest).length / attrStep (bimWidth nglobal) := by
    rw [not_lt, length_append]
    unfold attrStep
    split
    · next hw =>
      rw [le_div_iff_mul_le (pos_of_ne_zero hw)]
      omega
    · next hw =>
      have hone := hfit (bimWidth_eq_zero.1 (not_not.1 hw))
      omega
  rw [rdAttrs, bind_of_ok (inverts_rdV5 auRd hlen _), bind_of_ok (show rdLeft _ = .ok _ _ from rfl), if_neg hnot]
  exact hcodes rest

theorem rdAttrs_short {codes : List Nat} (hlen : codes.length < 2 ^ 64) (hone : nglobal ≤ 1)
    (hshort : rest.length < codes.length) : rdAttrs nglobal (vluimsbf5Bits codes.length ++
      (codes.flatMap (ofNat (bimWidth nglobal)) ++ rest)) = rdTrunc auRd rest := by
  have hw : bimWidth nglobal = 0 := bimWidth_eq_zero.2 hone
  have hnil : codes.flatMap (ofNat 0) = [] := by simp
  rw [rdAttrs, bind_of_ok (inverts_rdV5 auRd hlen _),
    bind_of_ok (show rdLeft _ = .ok _ _ from rfl), hw, hnil, nil_append, if_pos]
  show codes.length > rest.length / 1
  rw [Nat.div_one]
  exact hshort

theorem inverts_rdCoded (hn : nglobal < 2 ^ 64) {e : Nat × Nat}
    (he : e.1 < nglobal ∧ e.2 < 2 ^ 64) : Inverts (rdCoded k nglobal) (codedBits e) e := by
  refine (inverts_rdV5 auRd (lt_trans he.1 hn)).bind ?_
  rw [if_neg (not_le.2 he.1)]
  exact (inverts_rdV5 auRd he.2).map

theorem zip_fst_snd (entries : List (Nat × Nat)) : (entries.map Prod.fst).zip (entries.map Prod.snd) = entries := by
  rw [zip_map', map_id'']
  exact fun e => rfl

/-- A table is read back, whatever follows it but for attribute codes without bits. -/
theorem rdTable_bits (hg : GlobalValid k first known t) (hs : TableShape k t)
    (hfit : k = .attrs → CodesFit t rest.length) :
    rdTable k first known (suuTableBits k first t ++ rest) = .ok t rest := by
  rw [rdTable, suuTableBits, append_assoc, bind_of_ok (inverts_rdGlobal hg _), append_assoc]
  simp only
  rw [bind_of_ok (inverts_rdFlag auRd _ _)]
  unfold entriesBits
  cases hs with
  | allAttrs nglobal ext => rfl
  | someAttrs nglobal ext codes hlen hlt =>
    simp only [if_true, append_assoc]
    rw [if_neg (by decide), bind_of_ok (rdAttrs_bits nglobal.toNat_lt hlen hlt (hfit rfl rfl))]
    rfl
  | someCounts hk nglobal ext entries hlen hlt =>
    have hentries : Inverts (each (fun _ => rdCoded k nglobal.toNat) 0 entries.length)
        (entries.flatMap codedBits) entries :=
      inverts_each entries 0 fun j e hj => inverts_rdCoded nglobal.toNat_lt (hlt e (mem_of_getElem? hj))
    have hbits := length_flatMap_ge entries codedBits 10 fun e _ => by
      have h1 := five_le_vluimsbf5Bits e.1
      have h2 := five_le_vluimsbf5Bits e.2
      rw [codedBits, length_append]
      omega
    simp only [if_neg hk, if_true, append_assoc, zip_fst_snd]
    rw [bind_of_ok (inverts_rdV5 auRd hlen _), bind_of_ok (show rdLeft _ = .ok _ _ from rfl),
      if_neg (by rw [length_append]; omega), bind_of_ok (hentries rest)]
    rfl
  | allCounts hk nglobal ext counts hlen hlt =>
    have hcounts : Inverts (each (fun _ => rdV5 auRd) 0 counts.length)
        (counts.flatMap vluimsbf5Bits) counts :=
      inverts_each counts 0 fun j c hj => inverts_rdV5 auRd (hlt c (mem_of_getElem? hj))
    have hbits := length_flatMap_ge counts vluimsbf5Bits 5 fun c _ => five_le_vluimsbf5Bits c
    simp only [if_neg hk, Bool.false_eq_true, if_false]
    rw [bind_of_ok (show rdLeft _ = .ok _ _ from rfl),
      if_neg (by rw [length_append]; omega), ← hlen, bind_of_ok (hcounts rest)]
    rfl

theorem rdTable_short (hg : GlobalValid .attrs first known t) (hs : TableShape .attrs t)
    (hfit : ¬ CodesFit t rest.length) (t' : SuuTable) (s' : List Bool) :
    rdTable .attrs first known (suuTableBits .attrs first t ++ rest) ≠ .ok t' s' := by
  rw [rdTable, suuTableBits, append_assoc, bind_of_ok (inverts_rdGlobal hg _), append_assoc]
  simp only
  rw [bind_of_ok (inverts_rdFlag auRd _ _)]
  unfold entriesBits
  cases hs with
  | allAttrs nglobal ext => exact absurd Bool.noConfusion hfit
  | someAttrs nglobal ext codes hlen hlt =>
    unfold CodesFit at hfit
    simp only [forall_const, Classical.not_imp, not_le] at hfit
    obtain ⟨hone, hshort⟩ := hfit
    simp only [if_true, append_assoc]
    rw [if_neg (by decide), bind_of_error (rdAttrs_short hlen hone hshort)]
    simp
  | someCounts hk => exact absurd rfl hk
  | allCounts hk => exact absurd rfl hk

theorem wrEach_range {α : Type} [Inhabited α] {w : Nat → Wr} {enc : α → List Bool} {as : List α}
    (h : ∀ i a, as[i]? = some a → w i = .ok (enc a)) : wrEach w (range as.length) = .ok (as.flatMap enc) := by
  have hmap : (range as.length).map (fun i => as[i]?.getD default) = as := by
    refine ext_getElem (by simp) fun i h1 h2 => ?_
    simp [h2]
  conv_rhs => rw [← hmap]
  rw [flatMap_map]
  refine wrEach_eq fun i hi => ?_
  have hi := mem_range.1 hi
  rw [getElem?_eq_getElem hi]
  exact h i _ (getElem?_eq_getElem hi)

theorem wTable_eq (hg : GlobalValid k first known t) (hs : TableShape k t) :
    wTable k first known t = .ok (suuTableBits k first t) := by
  have hknown : (if first then t.nglobal.toNat else known.toNat) = t.nglobal.toNat := by
    cases first with
    | false => rw [hg.known_eq rfl]; rfl
    | true => rfl
  rw [wTable, wGlobal_eq hg, suuTableBits, entriesBits]
  simp only [hknown]
  show (if _ then _ else if _ then _ else _) = _
  cases hs with
  | allAttrs nglobal ext => simp [pure, Except.pure]
  | someAttrs nglobal ext codes hlen hlt =>
    have heach : wrEach (wEntry .attrs nglobal.toNat
        { nglobal, ext, isPartial := true, codes, n := codes.length }) (range codes.length)
        = .ok (codes.flatMap (ofNat (bimWidth nglobal.toNat))) := by
      refine wrEach_range fun i c hc => ?_
      have hlt := hlt c (mem_of_getElem? hc)
      simp [wEntry, hc, hlt, pure, Except.pure]
    simp only [heach]
    simp [bind, Except.bind, pure, Except.pure]
  | someCounts hk nglobal ext entries hlen hlt =>
    have heach : wrEach (wEntry k nglobal.toNat
        { nglobal, ext, isPartial := true, codes := entries.map Prod.fst,
          counts := entries.map Prod.snd, n := entries.length }) (range entries.length)
        = .ok (entries.flatMap codedBits) := by
      refine wrEach_range fun i e he => ?_
      have hlt := hlt e (mem_of_getElem? he)
      simp [wEntry, codedBits, hk, he, hlt.1, pure, Except.pure]
    simp only [heach, zip_fst_snd]
    simp [hk, bind, Except.bind, pure, Except.pure]
  | allCounts hk nglobal ext counts hlen hlt =>
    have heach : wrEach (wEntry k nglobal.toNat { nglobal, ext, counts, n := counts.length })
        (range counts.length) = .ok (counts.flatMap vluimsbf5Bits) := by
      refine wrEach_range fun i c hc => ?_
      simp [wEntry, hk, hc, pure, Except.pure]
    simp only [heach]
    simp [hk, hlen, bind, Except.bind, pure, Except.pure]

end AccessUnit

end DvbIpiTools.Bim
