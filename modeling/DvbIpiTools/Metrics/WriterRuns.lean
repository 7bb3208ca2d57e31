import DvbIpiTools.Metrics.ReaderRuns

set_option autoImplicit false

/-! # What the metrics writer puts into its parts

After any calls a usable writer has put every entry into the body of one of its parts, in order: each part has the header
of the snapshot with its own number, and its body is one of the grammar. -/

namespace DvbIpiTools.Metrics

open BeUtil List Nat

/-! ## The header -/

/-- The header bytes of a part. -/
def wireHdr (hdr : Hdr) (part flags : UInt8) : List UInt8 :=
  hdr.protoVersion :: hdr.component.toWire :: part :: flags :: (hdr.metricsId.field ++
    (bePut 8 hdr.processStartTime.toNat ++ (bePut 8 hdr.sequence.toNat ++ bePut 8 hdr.snapshotTime.toNat)))

@[simp] theorem length_wireHdr (hdr : Hdr) (part flags : UInt8) : (wireHdr hdr part flags).length = hdrLen := by
  simp only [wireHdr, length_cons, length_append, MetricsId.length_field, length_bePut]
  rfl

theorem setPart_wireHdr (hdr : Hdr) (part flags flags' : UInt8) (body : List UInt8) (n : Nat) :
    setPart (wireHdr hdr part flags ++ body) n flags' = wireHdr hdr (.ofNat n) flags' ++ body := rfl

theorem ofNat_mod_toNat (v : UInt64) : UInt64.ofNat (v.toNat % 256 ^ 8) = v := by
  have h := v.toNat_lt
  rw [mod_eq_of_lt (by norm_num; omega)]
  exact UInt64.ofNat_toNat

variable {hdr : Hdr}

theorem metricsReaderInit_wireHdr (hversion : hdr.protoVersion = protoVersion) (hid : hdr.metricsId.chars ≠ [])
    (part flags : UInt8) (body : List UInt8) :
    metricsReaderInit (wireHdr hdr part flags ++ body) = some { hdr with part, flags } := by
  have hlen : ¬ (wireHdr hdr part flags ++ body).length < hdrLen := by
    rw [length_append, length_wireHdr]
    omega
  have h0 : (wireHdr hdr part flags ++ body).getD 0 0 = protoVersion := hversion
  have hfield : MetricsId.ofField ((wireHdr hdr part flags ++ body).drop 4) = hdr.metricsId := by
    show MetricsId.ofField (hdr.metricsId.field ++ _ ++ body) = _
    rw [append_assoc, MetricsId.ofField_field]
  -- the three numbers stand behind fields of known length
  have hstart : beGet (wireHdr hdr part flags ++ body) (4 + idMax) 8 = hdr.processStartTime.toNat % 256 ^ 8 := by
    have := beGet_field ([hdr.protoVersion, hdr.component.toWire, part, flags] ++ hdr.metricsId.field)
      (bePut 8 hdr.sequence.toNat ++ bePut 8 hdr.snapshotTime.toNat ++ body) 8 hdr.processStartTime.toNat
    rw [length_append, MetricsId.length_field] at this
    rw [← this]
    simp [wireHdr]
  have hseq : beGet (wireHdr hdr part flags ++ body) (4 + idMax + 8) 8 = hdr.sequence.toNat % 256 ^ 8 := by
    have := beGet_field ([hdr.protoVersion, hdr.component.toWire, part, flags] ++ hdr.metricsId.field ++
      bePut 8 hdr.processStartTime.toNat) (bePut 8 hdr.snapshotTime.toNat ++ body) 8 hdr.sequence.toNat
    rw [length_append, length_append, MetricsId.length_field, length_bePut] at this
    rw [← this]
    simp [wireHdr]
  have htime : beGet (wireHdr hdr part flags ++ body) (4 + idMax + 16) 8 = hdr.snapshotTime.toNat % 256 ^ 8 := by
    have := beGet_field ([hdr.protoVersion, hdr.component.toWire, part, flags] ++ hdr.metricsId.field ++
      bePut 8 hdr.processStartTime.toNat ++ bePut 8 hdr.sequence.toNat) body 8 hdr.snapshotTime.toNat
    rw [length_append, length_append, length_append, MetricsId.length_field, length_bePut, length_bePut] at this
    rw [← this]
    simp [wireHdr]
  unfold metricsReaderInit
  rw [if_neg hlen]
  simp only [h0, hfield, hstart, hseq, htime, ofNat_mod_toNat]
  rw [if_neg (by decide), show (wireHdr hdr part flags ++ body).getD 1 0 = hdr.component.toWire from rfl, Component.ofWire_toWire]
  simp only
  rw [if_neg hid, ← hversion]
  rfl

/-! ## Labels and values -/

/-- No character of a string is cut at `n`: there it ends, or a byte that does not continue a character follows. -/
def Border (s : List UInt8) (n : Nat) : Prop := n = 0 ∨ s.length ≤ n ∨ s.getD n 0 &&& 0xC0 ≠ 0x80

/-- The longest prefix with at most `METRICS_LABEL_MAX` bytes that ends on a border. -/
structure LabelCut (s t : List UInt8) : Prop where
  isPrefix : t <+: s
  fits : t.length ≤ labelMax
  border : Border s t.length
  longest : ∀ n ≤ s.length, n ≤ labelMax → Border s n → n ≤ t.length

theorem backOff_le (s : List UInt8) (n : Nat) : backOff s n ≤ n := by
  induction n with
  | zero => exact le_rfl
  | succ n ih =>
    rw [backOff]
    split
    · exact le_succ_of_le ih
    · exact le_rfl

theorem backOff_border (s : List UInt8) (n : Nat) : Border s (backOff s n) := by
  induction n with
  | zero => exact .inl rfl
  | succ n ih =>
    rw [backOff]
    split
    · exact ih
    · rename_i hborder
      exact .inr (.inr hborder)

theorem le_backOff {s : List UInt8} {n k : Nat} (hn : n < s.length) (hk : k ≤ n) (hborder : Border s k) : k ≤ backOff s n := by
  induction n with
  | zero => exact hk
  | succ n ih =>
    rw [backOff]
    split
    · rename_i hcont
      rcases lt_or_ge n k with hlt | hge
      · obtain rfl : k = n + 1 := by omega
        rcases hborder with h0 | hend | hstart
        · omega
        · omega
        · exact absurd hcont hstart
      · exact ih (by omega) hge
    · exact hk

theorem writtenLabel_cut (label : Option (List UInt8)) : LabelCut (cstr (label.getD [])) (writtenLabel label) := by
  unfold writtenLabel
  simp only
  split
  · rename_i hlong
    have hle := backOff_le (cstr (label.getD [])) labelMax
    have hlen : ((cstr (label.getD [])).take (backOff (cstr (label.getD [])) labelMax)).length
        = backOff (cstr (label.getD [])) labelMax := by
      rw [length_take]
      omega
    exact {
      isPrefix := take_prefix _ _
      fits := by rw [hlen]; exact hle
      border := by rw [hlen]; exact backOff_border _ _
      longest := fun n _ hn hborder => by rw [hlen]; exact le_backOff hlong hn hborder }
  · rename_i hshort
    exact ⟨prefix_refl _, by omega, .inr (.inl le_rfl), fun n hn _ _ => hn⟩

theorem shl_and_one (b : BitVec 64) : b <<< 1 &&& 1#64 = 0#64 := by
  ext i hi
  simp [BitVec.getElem_shiftLeft]
  omega

theorem shl_or_one (b : BitVec 64) : b <<< 1 ||| 1#64 = b <<< 1 + 1#64 :=
  (BitVec.add_eq_or_of_and_eq_zero _ _ (shl_and_one b)).symm

theorem msb_iff (v : Int64) : v < 0 ↔ v.toBitVec.msb = true := by
  rw [Int64.lt_iff_toInt_lt, BitVec.msb_eq_toInt]
  simp

theorem metricsUnzigzag_zigzag (v : Int64) : metricsUnzigzag (metricsZigzag v) = v := by
  unfold metricsUnzigzag metricsZigzag
  split
  · rename_i hneg
    have hmsb : (~~~v.toBitVec).msb = false := by simp [(msb_iff v).1 hneg]
    have hlt := BitVec.msb_eq_false_iff_two_mul_lt.1 hmsb
    have hshift : ((~~~v.toBitVec) <<< 1 + 1#64) >>> 1 = ~~~v.toBitVec := by
      apply BitVec.eq_of_toNat_eq
      simp only [BitVec.toNat_ushiftRight, BitVec.toNat_add, BitVec.toNat_shiftLeft, shiftLeft_eq,
        shiftRight_eq_div_pow, BitVec.toNat_ofNat]
      omega
    have hlow : (~~~v.toBitVec) <<< 1 + 1#64 &&& 1#64 = 1#64 := by
      rw [← shl_or_one]
      ext i hi
      simp [BitVec.getElem_shiftLeft]
      omega
    apply Int64.toBitVec_inj.1
    show ((~~~v.toBitVec) <<< 1 ||| 1#64) >>> 1 ^^^ -(((~~~v.toBitVec) <<< 1 ||| 1#64) &&& 1#64) = v.toBitVec
    rw [shl_or_one, hshift, hlow, show -1#64 = BitVec.allOnes 64 from rfl, BitVec.xor_allOnes, BitVec.not_not]
  · rename_i hpos
    have hmsb : v.toBitVec.msb = false := by simpa using mt (msb_iff v).2 hpos
    have hlt := BitVec.msb_eq_false_iff_two_mul_lt.1 hmsb
    have hshift : v.toBitVec <<< 1 >>> 1 = v.toBitVec := by
      apply BitVec.eq_of_toNat_eq
      simp only [BitVec.toNat_ushiftRight, BitVec.toNat_shiftLeft, shiftLeft_eq, shiftRight_eq_div_pow]
      omega
    apply Int64.toBitVec_inj.1
    show v.toBitVec <<< 1 >>> 1 ^^^ -(v.toBitVec <<< 1 &&& 1#64) = v.toBitVec
    rw [hshift, shl_and_one]
    simp

/-! ## Groups -/

/-- An entry in a group. -/
def entryBytes (e : Entry) : List UInt8 := bePut 2 e.id.toNat ++ putVarint e.value

/-- A group with its entries. -/
def groupBytes (label : List UInt8) (es : List Entry) : List UInt8 :=
  UInt8.ofNat label.length :: (label ++ UInt8.ofNat es.length :: es.flatMap entryBytes)

theorem isVarint_putVarint (v : UInt64) : IsVarint (putVarint v) v := getVarint_putVarint v

theorem beGet_id (id : UInt16) : UInt16.ofNat (beGet (bePut 2 id.toNat) 0 2) = id := by
  have h := beGet_bePut 2 id.toNat []
  have hlt := id.toNat_lt
  rw [append_nil, mod_eq_of_lt (by norm_num; omega)] at h
  rw [h, UInt16.ofNat_toNat]

theorem groups_entries {label : List UInt8} {es : List Entry} (hlabel : ∀ e ∈ es, e.label = label) :
    Groups label es.length (es.flatMap entryBytes) es := by
  induction es with
  | nil => exact .nil label
  | cons e es ih =>
    have hrest := ih fun f hf => hlabel f (.tail _ hf)
    have hentry := Groups.entry (length_bePut 2 e.id.toNat) (isVarint_putVarint e.value)
      (by rw [length_putVarint]; exact varintLen_pos e.value) hrest
    rw [beGet_id, ← hlabel e (mem_cons_self ..)] at hentry
    rw [← hlabel e (mem_cons_self ..)]
    exact hentry

theorem body_group {label : List UInt8} {es : List Entry} (hlabel : ∀ e ∈ es, e.label = label)
    (hlen : label.length ≤ labelMax) (hne : es ≠ []) (hcount : es.length ≤ groupMaxEntries) :
    Body protoVersion (groupBytes label es) es := by
  have hll : (UInt8.ofNat label.length).toNat = label.length := by
    unfold labelMax at hlen
    rw [UInt8.toNat_ofNat', mod_eq_of_lt (by omega)]
  have hcnt : (UInt8.ofNat es.length).toNat = es.length := by
    unfold groupMaxEntries at hcount
    rw [UInt8.toNat_ofNat', mod_eq_of_lt (by omega)]
  have hpos : 0 < es.length := length_pos_iff.2 hne
  refine (if_neg (by decide)).mpr (.group hll hlen (by omega) ?_)
  rw [hcnt]
  exact groups_entries hlabel

/-- What is in the body of the part that is being filled; the last group is the open one. -/
inductive Filled (w : Writer) (body : List UInt8) : List Entry → Prop where
  | empty (hbody : body = []) (hgrp : w.grp = 0) : Filled w body []
  | group {closed label : List UInt8} {es cur : List Entry} (hclosed : Body protoVersion closed es)
      (hlabel : ∀ e ∈ cur, e.label = label) (hlen : label.length ≤ labelMax) (hne : cur ≠ [])
      (hcount : cur.length ≤ groupMaxEntries) (hbody : body = closed ++ groupBytes label cur)
      (hgrp : w.grp = hdrLen + closed.length) (hgrpCount : w.grpCount = cur.length) : Filled w body (es ++ cur)

theorem Filled.body {w : Writer} {body : List UInt8} {es : List Entry} (h : Filled w body es) : Body protoVersion body es := by
  cases h with
  | empty hbody hgrp =>
    rw [hbody]
    exact .nil _
  | group hclosed hlabel hlen hne hcount hbody hgrp hgrpCount =>
    rw [hbody]
    exact hclosed.append (body_group hlabel hlen hne hcount)

theorem set_at_length {a b : List UInt8} (c x : UInt8) {n : Nat} (h : n = a.length) : (a ++ c :: b).set n x = a ++ x :: b := by
  rw [h, set_append_right _ _ (Nat.le_refl _), Nat.sub_self]
  rfl

theorem addEntry_buf {w : Writer} {a label : List UInt8} {es : List Entry} {count : UInt8} (hgrp : w.grp = a.length)
    (hgrpCount : w.grpCount = es.length)
    (hbuf : w.buf = a ++ UInt8.ofNat label.length :: (label ++ count :: es.flatMap entryBytes)) (id : UInt16) (value : UInt64) :
    (w.addEntry id label value).buf = a ++ groupBytes label (es ++ [⟨id, label, value⟩]) := by
  have hsplit : w.buf ++ bePut 2 id.toNat ++ putVarint value =
      (a ++ UInt8.ofNat label.length :: label) ++ count :: (es.flatMap entryBytes ++ (bePut 2 id.toNat ++ putVarint value)) := by
    rw [hbuf]
    simp
  show (w.buf ++ bePut 2 id.toNat ++ putVarint value).set (w.grp + 1 + label.length) (.ofNat (w.grpCount + 1)) = _
  rw [hsplit, set_at_length _ _ (by rw [hgrp, length_append, length_cons]; omega), hgrpCount, groupBytes,
    length_append, flatMap_append]
  simp [entryBytes]

section place

variable {w : Writer} {hdrBytes body label : List UInt8} {es : List Entry}

theorem place_same (hlen : hdrBytes.length = hdrLen) (hbuf : w.buf = hdrBytes ++ body) (hfilled : Filled w body es)
    (hsame : w.SameGroup label) (id : UInt16) (value : UInt64) :
    ∃ body', (w.place true id label value).buf = hdrBytes ++ body' ∧
      Filled (w.place true id label value) body' (es ++ [⟨id, label, value⟩]) := by
  obtain ⟨hgrp0, hfree, hll, hbytes⟩ := hsame
  cases hfilled with
  | empty hbody hgrp => exact absurd hgrp hgrp0
  | @group closed l es cur hclosed hlabel hfits hne hcount hbody hgrp hgrpCount =>
    have hpos : w.grp = (hdrBytes ++ closed).length := by rw [hgrp, length_append, hlen]
    have hbuf' : w.buf = (hdrBytes ++ closed) ++ groupBytes l cur := by rw [hbuf, hbody, append_assoc]
    -- the bytes of the two labels are the same
    have hl : l = label := by
      have hat : byteAt w.buf w.grp = l.length := by
        have := byteAt_append_right (hdrBytes ++ closed) (groupBytes l cur) 0
        rw [add_zero] at this
        rw [hbuf', hpos, this]
        unfold labelMax at hfits
        show (UInt8.ofNat l.length).toNat = l.length
        rw [UInt8.toNat_ofNat', mod_eq_of_lt (by omega)]
      have hdrop : w.buf.drop (w.grp + 1) = l ++ UInt8.ofNat cur.length :: cur.flatMap entryBytes := by
        rw [hbuf', hpos, groupBytes, drop_length_add_append]
        rfl
      rw [hdrop, ← hll, hat, take_left] at hbytes
      exact hbytes
    subst hl
    refine ⟨closed ++ groupBytes l (cur ++ [⟨id, l, value⟩]), ?_, ?_⟩
    · rw [← append_assoc]
      exact addEntry_buf hpos hgrpCount hbuf' id value
    rw [append_assoc]
    refine .group hclosed ?_ hfits (by simp) ?_ rfl hgrp ?_
    · intro e he
      rcases mem_append.1 he with he | he
      · exact hlabel e he
      · rw [mem_singleton.1 he]
    · rw [length_append, length_singleton]
      omega
    · rw [length_append, length_singleton, ← hgrpCount]
      rfl

theorem place_new (hlen : hdrBytes.length = hdrLen) (hbuf : w.buf = hdrBytes ++ body) (hfilled : Filled w body es)
    (hlabel : label.length ≤ labelMax) (id : UInt16) (value : UInt64) :
    ∃ body', (w.place false id label value).buf = hdrBytes ++ body' ∧
      Filled (w.place false id label value) body' (es ++ [⟨id, label, value⟩]) := by
  have hpos : (w.openGroup label).grp = (hdrBytes ++ body).length := congrArg length hbuf
  have hbuf' : (w.openGroup label).buf = (hdrBytes ++ body) ++ UInt8.ofNat label.length :: (label ++ 0 :: [].flatMap entryBytes) := by
    show w.buf ++ _ = _
    rw [hbuf]
    rfl
  have hput := @addEntry_buf (w.openGroup label) _ _ [] _ hpos rfl hbuf' id value
  rw [nil_append, append_assoc] at hput
  refine ⟨body ++ groupBytes label [⟨id, label, value⟩], hput, ?_⟩
  refine .group hfilled.body (fun e he => by rw [mem_singleton.1 he]) hlabel (by simp) (le_add_left 1 254) rfl ?_ rfl
  show w.buf.length = _
  rw [hbuf, length_append, hlen]

end place

theorem length_addEntry (w : Writer) (id : UInt16) (label : List UInt8) (value : UInt64) :
    (w.addEntry id label value).buf.length = w.buf.length + (2 + varintLen value) := by
  show ((w.buf ++ bePut 2 id.toNat ++ putVarint value).set _ _).length = _
  rw [length_set, length_append, length_append, length_bePut, length_putVarint]
  omega

theorem length_place (w : Writer) (same : Bool) (id : UInt16) (label : List UInt8) (value : UInt64) :
    (w.place same id label value).buf.length
      = w.buf.length + (2 + varintLen value + if same then 0 else 2 + label.length) := by
  unfold Writer.place
  rw [length_addEntry]
  cases same with
  | true => rfl
  | false =>
    show (w.buf ++ UInt8.ofNat label.length :: (label ++ [0])).length + _ = _
    simp
    omega

theorem writtenLabel_length (label : Option (List UInt8)) : (writtenLabel label).length ≤ labelMax := (writtenLabel_cut label).fits

/-! ## Runs of the writer -/

/-- The bodies and entries of full parts: each part fits a datagram. -/
def FullParts (parts : List (List UInt8 × List Entry)) : Prop :=
  ∀ b ∈ parts, hdrLen + b.1.length ≤ maxSnapshotBytes ∧ Body protoVersion b.1 b.2

/-- The datagrams with these parts. -/
def datagramsOf (hdr : Hdr) (parts : List (List UInt8 × List Entry)) : List (List UInt8) :=
  parts.mapIdx fun k b => wireHdr hdr (.ofNat k) 0 ++ b.1

/-- A usable writer that has put the entries. -/
def Writer.Holds (hdr : Hdr) (w : Writer) (es : List Entry) : Prop :=
  ∃ parts body cur part flags, FullParts parts ∧ w.flushed = datagramsOf hdr parts ∧ parts.length = w.part ∧ w.part < maxParts ∧
    w.buf = wireHdr hdr part flags ++ body ∧ w.buf.length ≤ maxSnapshotBytes ∧ Filled w body cur ∧ es = parts.flatMap (·.2) ++ cur

theorem Writer.Holds.buf_ne {w : Writer} {es : List Entry} (h : w.Holds hdr es) : w.buf.length ≠ 0 := by
  obtain ⟨parts, body, cur, part, flags, -, -, -, -, hbuf, -⟩ := h
  rw [hbuf, length_append, length_wireHdr]
  unfold hdrLen
  omega

theorem holds_begin (h : (metricsWriterBegin hdr).1 = true) :
    hdr.protoVersion = protoVersion ∧ hdr.metricsId.chars ≠ [] ∧ (metricsWriterBegin hdr).2.Holds hdr [] := by
  unfold metricsWriterBegin at h ⊢
  split
  · rename_i hbad
    rw [if_pos hbad] at h
    cases h
  rename_i hgood
  have hversion : hdr.protoVersion = protoVersion := not_not.1 fun hne => hgood (.inl hne)
  refine ⟨hversion, fun hid => hgood (.inr hid), [], [], [], 0, 0, nofun, rfl, rfl, succ_pos 63, ?_, ?_, .empty rfl rfl, rfl⟩
  · simp [wireHdr]
  · simp only [length_append, MetricsId.length_field, length_bePut, length_cons, length_nil]
    decide

theorem datagramsOf_concat (hdr : Hdr) (parts : List (List UInt8 × List Entry)) (b : List UInt8 × List Entry) :
    datagramsOf hdr (parts ++ [b]) = datagramsOf hdr parts ++ [wireHdr hdr (.ofNat parts.length) 0 ++ b.1] := by
  simp [datagramsOf, mapIdx_append]

theorem Writer.Holds.flush {w w' : Writer} {es : List Entry} {flush : Flush} (h : w.Holds hdr es)
    (hflush : writerFlushPart flush w = (true, w')) : w'.Holds hdr es ∧ w'.buf.length = hdrLen := by
  obtain ⟨parts, body, cur, part, flags, hfull, hflushed, hlen, hpart, hbuf, hfits, hfilled, rfl⟩ := h
  unfold writerFlushPart at hflush
  split at hflush
  · exact absurd (Prod.mk.inj hflush).1 (by simp)
  split at hflush
  · exact absurd (Prod.mk.inj hflush).1 (by simp)
  rename_i hroom
  simp only at hflush
  split at hflush
  · obtain rfl := (Prod.mk.inj hflush).2
    have hset : setPart w.buf w.part 0 = wireHdr hdr (.ofNat w.part) 0 ++ body := by rw [hbuf, setPart_wireHdr]
    have htake : (wireHdr hdr (.ofNat w.part) 0 ++ body).take hdrLen = wireHdr hdr (.ofNat w.part) 0 := by
      rw [← length_wireHdr hdr (.ofNat w.part) 0, take_left]
    rw [hset, htake]
    refine ⟨⟨parts ++ [(body, cur)], [], [], .ofNat w.part, 0, ?_, ?_, ?_, ?_, ?_, ?_, .empty rfl rfl, ?_⟩, length_wireHdr ..⟩
    · intro b hb
      rcases mem_append.1 hb with hb | hb
      · exact hfull b hb
      · rw [mem_singleton.1 hb]
        rw [hbuf, length_append, length_wireHdr] at hfits
        exact ⟨hfits, hfilled.body⟩
    · rw [datagramsOf_concat, hflushed, hlen]
    · rw [length_append, hlen]
      rfl
    · show w.part + 1 < maxParts
      omega
    · rw [append_nil]
    · rw [length_wireHdr]
      decide
    · simp
  · exact absurd (Prod.mk.inj hflush).1 (by simp)

theorem Writer.Holds.place {w : Writer} {es : List Entry} (h : w.Holds hdr es) {same : Bool} {label : List UInt8}
    (hsame : same = true → w.SameGroup label) (hlabel : label.length ≤ labelMax) (id : UInt16) (value : UInt64)
    (hroom : w.buf.length + (2 + varintLen value + if same then 0 else 2 + label.length) ≤ maxSnapshotBytes) :
    (w.place same id label value).Holds hdr (es ++ [⟨id, label, value⟩]) := by
  obtain ⟨parts, body, cur, part, flags, hfull, hflushed, hlen, hpart, hbuf, hfits, hfilled, rfl⟩ := h
  have hplace : ∃ body', (w.place same id label value).buf = wireHdr hdr part flags ++ body' ∧
      Filled (w.place same id label value) body' (cur ++ [⟨id, label, value⟩]) := by
    cases same with
    | true => exact place_same (length_wireHdr ..) hbuf hfilled (hsame rfl) id value
    | false => exact place_new (length_wireHdr ..) hbuf hfilled hlabel id value
  have hkept : (w.place same id label value).flushed = w.flushed ∧ (w.place same id label value).part = w.part := by
    cases same <;> exact ⟨rfl, rfl⟩
  obtain ⟨body', hbuf', hfilled'⟩ := hplace
  refine ⟨parts, body', _, part, flags, hfull, hkept.1.trans hflushed, hlen.trans hkept.2.symm, by rw [hkept.2]; exact hpart, hbuf',
    ?_, hfilled', (append_assoc ..)⟩
  rw [length_place]
  exact hroom

theorem flush_failed {w w' : Writer} {flush : Flush} (hflush : writerFlushPart flush w = (false, w')) : w'.buf.length = 0 := by
  unfold writerFlushPart at hflush
  split at hflush
  · rw [← (Prod.mk.inj hflush).2]
    rfl
  split at hflush
  · rw [← (Prod.mk.inj hflush).2]
    rfl
  · simp only at hflush
    split at hflush
    · exact absurd (Prod.mk.inj hflush).1 (by simp)
    · rw [← (Prod.mk.inj hflush).2]
      rfl

theorem Writer.Holds.put {w : Writer} {es : List Entry} (h : w.Holds hdr es) (flush : Flush) (id : UInt16)
    (label : Option (List UInt8)) (value : UInt64) : (metricsWriterPut flush w id label value).2.buf.length = 0 ∨
      (metricsWriterPut flush w id label value).2.Holds hdr (es ++ [⟨id, writtenLabel label, value⟩]) := by
  have hfits := writtenLabel_length label
  have hsame : decide (w.SameGroup (writtenLabel label)) = true → w.SameGroup (writtenLabel label) := of_decide_eq_true
  unfold metricsWriterPut
  rw [if_neg h.buf_ne]
  simp only
  generalize decide (w.SameGroup (writtenLabel label)) = same at hsame ⊢
  by_cases hfull : maxSnapshotBytes < w.buf.length + (2 + varintLen value + if same then 0 else 2 + (writtenLabel label).length)
  · rw [if_pos hfull]
    cases hflush : writerFlushPart flush w with
    | mk ok w' =>
      cases ok with
      | false => exact .inl (flush_failed hflush)
      | true =>
        right
        obtain ⟨hholds, hlen⟩ := h.flush hflush
        refine hholds.place (fun hf => absurd hf (by simp)) hfits id value ?_
        have hv := varintLen_le value
        have hroom : hdrLen + (12 + (2 + labelMax)) ≤ maxSnapshotBytes := by decide
        rw [hlen, if_neg (by simp)]
        omega
  · rw [if_neg hfull]
    exact .inr (h.place hsame hfits id value (by omega))

/-! ## A whole snapshot -/

/-- A call that puts an entry. -/
inductive Call where
  | put (id : UInt16) (label : Option (List UInt8)) (value : UInt64)
  | putSigned (id : UInt16) (label : Option (List UInt8)) (value : Int64)

def Call.apply (flush : Flush) (w : Writer) : Call → Writer
  | .put id label value => (metricsWriterPut flush w id label value).2
  | .putSigned id label value => (metricsWriterPutSigned flush w id label value).2

/-- The entry that a call puts. -/
def Call.entry : Call → Entry
  | .put id label value => ⟨id, writtenLabel label, value⟩
  | .putSigned id label value => ⟨id, writtenLabel label, metricsZigzag value⟩

/-- The writer after `metrics_writer_begin` and the calls. -/
def written (flush : Flush) (hdr : Hdr) (calls : List Call) : Writer :=
  calls.foldl (Call.apply flush) (metricsWriterBegin hdr).2

theorem put_unusable {w : Writer} (h : w.buf.length = 0) (flush : Flush) (c : Call) : (c.apply flush w).buf.length = 0 := by
  cases c with
  | put id label value =>
    show (metricsWriterPut flush w id label value).2.buf.length = 0
    rw [metricsWriterPut, if_pos h]
    exact h
  | putSigned id label value =>
    show (metricsWriterPut flush w id label (metricsZigzag value)).2.buf.length = 0
    rw [metricsWriterPut, if_pos h]
    exact h

theorem calls_unusable {w : Writer} (h : w.buf.length = 0) (flush : Flush) (calls : List Call) :
    (calls.foldl (Call.apply flush) w).buf.length = 0 := by
  induction calls generalizing w with
  | nil => exact h
  | cons c calls ih => exact ih (put_unusable h flush c)

theorem calls_hold {w : Writer} {es : List Entry} (h : w.Holds hdr es) (flush : Flush) (calls : List Call) :
    (calls.foldl (Call.apply flush) w).buf.length = 0 ∨
      (calls.foldl (Call.apply flush) w).Holds hdr (es ++ calls.map Call.entry) := by
  induction calls generalizing w es with
  | nil =>
    right
    rw [map_nil, append_nil]
    exact h
  | cons c calls ih =>
    have hput : (c.apply flush w).buf.length = 0 ∨ (c.apply flush w).Holds hdr (es ++ [c.entry]) := by
      cases c with
      | put id label value => exact h.put flush id label value
      | putSigned id label value => exact h.put flush id label (metricsZigzag value)
    rcases hput with hput | hput
    · exact .inl (calls_unusable hput flush calls)
    · have hrest := ih hput
      rw [append_assoc] at hrest
      exact hrest

/-- The flushed parts and the last one. -/
def partsOf (w : Writer) : List (List UInt8) := w.flushed ++ [(metricsWriterFinish w).2.buf]

/-- When the writer finishes, its parts hold the entries of all the calls. -/
theorem written_parts {flush : Flush} {calls : List Call} (h : (metricsWriterFinish (written flush hdr calls)).1 ≠ 0) :
    hdr.protoVersion = protoVersion ∧ hdr.metricsId.chars ≠ [] ∧ ∃ parts body cur,
      FullParts parts ∧ parts.length < maxParts ∧ hdrLen + body.length ≤ maxSnapshotBytes ∧ Body protoVersion body cur ∧
      partsOf (written flush hdr calls)
        = datagramsOf hdr parts ++ [wireHdr hdr (.ofNat parts.length) flagLast ++ body] ∧
      calls.map Call.entry = parts.flatMap (·.2) ++ cur := by
  have husable : (written flush hdr calls).buf.length ≠ 0 := by
    intro h0
    rw [metricsWriterFinish, if_pos h0] at h
    exact h rfl
  cases hbegin : (metricsWriterBegin hdr).1 with
  | false =>
    refine absurd (calls_unusable ?_ flush calls) husable
    unfold metricsWriterBegin at hbegin ⊢
    split
    · rfl
    · rename_i hgood
      rw [if_neg hgood] at hbegin
      cases hbegin
  | true =>
    obtain ⟨hversion, hid, hholds⟩ := holds_begin hbegin
    refine ⟨hversion, hid, ?_⟩
    rcases calls_hold hholds flush calls with h0 | hrun
    · exact absurd h0 husable
    obtain ⟨parts, body, cur, part, flags, hfull, hflushed, hlen, hpart, hbuf, hfits, hfilled, hes⟩ := hrun
    have hlast : (metricsWriterFinish (written flush hdr calls)).2.buf
        = wireHdr hdr (.ofNat parts.length) flagLast ++ body := by
      rw [metricsWriterFinish, if_neg husable]
      show setPart (calls.foldl (Call.apply flush) (metricsWriterBegin hdr).2).buf _ _ = _
      rw [hbuf, setPart_wireHdr, hlen]
      rfl
    rw [hbuf, length_append, length_wireHdr] at hfits
    refine ⟨parts, body, cur, hfull, by omega, hfits, hfilled.body, ?_, ?_⟩
    · rw [partsOf, hlast]
      exact congrArg (· ++ _) hflushed
    · rw [← hes, nil_append]

end DvbIpiTools.Metrics
