import DvbIpiTools.Bim.AccessUnit.Syntax

set_option autoImplicit false

/-! # The access unit round trip

The SUUs of an access unit are read and written against a state that the earlier ones have changed.
`SuusValid st ss st'` says what the parser accepts from the state `st` and where it ends; the writer
follows the same chain of states, and the code of an SUU does not depend on the state any more, since
its tables carry the global counts they were read with. -/

namespace DvbIpiTools.Bim.AccessUnit

open BitList ListReader List

/-! ## Schema update units -/

/-- The header of a first SUU. -/
def namespacesBits (ns : CStr) (imported : List CStr) : List Bool :=
  strBits ns ++ (vluimsbf8Bits imported.length ++ imported.flatMap strBits)

/-- The code of an SUU among `nadd` additional schemas. -/
def suuBits (nadd : Nat) (s : Suu) : List Bool := ofNat (bimWidth nadd) s.schema ++ ([s.first] ++
    ((match s.ns with
      | some ns => namespacesBits ns s.imported
      | none => []) ++ (suuTableBits .types s.first s.types ++ (suuTableBits .elems s.first s.elems ++
        (suuTableBits .attrs s.first s.attrs ++ encodedBits s.encoded)))))

/-- The tables and the schema of an SUU, as the parser accepts them for the entry `a`. -/
structure BodyValid (a : AuSchema) (s : Suu) : Prop where
  types : GlobalValid .types s.first a.ntypes s.types
  types_shape : TableShape .types s.types
  elems : GlobalValid .elems s.first a.nelems s.elems
  elems_shape : TableShape .elems s.elems
  attrs : GlobalValid .attrs s.first a.nattrs s.attrs
  attrs_shape : TableShape .attrs s.attrs
  encoded : EncodedValid s.encoded

/-- The part of an SUU before its tables, and the state `st'` the SUU leads to. -/
inductive HeadValid (st : AuState) (s : Suu) : AuState → Prop
  | first {ns : CStr} {st' : AuState} (hfirst : s.first = true) (hns : s.ns = some ns)
      (hfits : ns.Fits) (himported : s.imported.length < 2 ^ 64) (hall : ∀ i ∈ s.imported, i.Fits)
      (hst : st.remember s ns = .ok st') : HeadValid st s st'
  | later (hfirst : s.first = false) (hns : s.ns = none) (himported : s.imported = [])
      (hknown : (st.entry s.schema).ns ≠ none) : HeadValid st s st

/-- What `rd_suu` accepts in the state `st`, ending in `st'`. -/
structure SuuValid (st : AuState) (s : Suu) (st' : AuState) : Prop where
  schema_lt : s.schema < 2 ^ bimWidth st.add.length
  schema_ok : st.schemaOk s.schema = true
  head : HeadValid st s st'
  body : BodyValid (st.entry s.schema) s

/-- No namespace is the empty string. -/
def Suu.Named (s : Suu) : Prop := (∀ ns ∈ s.ns, ns.NonEmpty) ∧ ∀ i ∈ s.imported, i.NonEmpty

theorem yields_rdNamespaces : Yields rdNamespaces fun p _ =>
    p.1.Fits ∧ p.2.length < 2 ^ 64 ∧ ∀ i ∈ p.2, i.Fits := by
  have hstr := fun _ : Nat => yields_rdString.mono
    (fun i m h => (⟨h, Nat.zero_le m⟩ : i.Fits ∧ (fun _ => 0) i ≤ m))
  refine yields_rdString.bind ?_
  rintro ns _ hns
  refine (yields_rdV8 auRd).bind ?_
  rintro v _ ⟨hv, -⟩
  refine yields_rdLeft.bind ?_
  rintro left _ -
  split
  · exact yields_rdTrunc auRd
  · refine (yields_each 0 v hstr).bind ?_
    rintro imported _ ⟨rfl, hall, -⟩
    exact yields_pure ⟨hns, hv, DecoderInit.mem_of_table fun j i hi => hall j i hi⟩

theorem yields_rdBody (a : AuSchema) (schema : Nat) (first : Bool) (ns : Option CStr)
    (imported : List CStr) : Yields (rdBody a schema first ns imported) fun s _ =>
      s.schema = schema ∧ s.first = first ∧ s.ns = ns ∧ s.imported = imported ∧ BodyValid a s := by
  refine (yields_rdTable .types first a.ntypes).bind ?_
  rintro types _ ⟨ht, hts⟩
  refine (yields_rdTable .elems first a.nelems).bind ?_
  rintro elems _ ⟨he, hes⟩
  refine (yields_rdTable .attrs first a.nattrs).bind ?_
  rintro attrs _ ⟨ha, has⟩
  refine yields_rdEncoded.bind ?_
  rintro encoded _ henc
  exact yields_pure ⟨rfl, rfl, rfl, rfl, ht, hts, he, hes, ha, has, henc⟩

variable {α : Type}

theorem yields_rdLift {r : Except BimErr α} : Yields (rdLift r) fun a m => r = .ok a ∧ m = 0 := by
  cases r with
  | error e => exact yields_throw
  | ok a => exact yields_pure ⟨rfl, rfl⟩

theorem yields_rdSuu (st : AuState) : Yields (rdSuu st) fun p _ => SuuValid st p.1 p.2 := by
  refine (yields_rdBits auRd _).bind ?_
  rintro schema _ ⟨hlt, -⟩
  split
  · exact yields_throw
  rename_i hok
  have hok : st.schemaOk schema = true := by simpa using hok
  refine (yields_rdFlag auRd).bind ?_
  rintro first _ -
  split
  · refine yields_rdNamespaces.bind ?_
    rintro ⟨ns, imported⟩ _ ⟨hns, hlen, hall⟩
    refine (yields_rdBody _ schema true (some ns) imported).bind ?_
    rintro s _ ⟨rfl, hfirst, hsns, rfl, hbody⟩
    refine yields_rdLift.bind ?_
    rintro st' _ ⟨hst, -⟩
    exact yields_pure ⟨hlt, hok, .first hfirst hsns hns hlen hall hst, hbody⟩
  split
  · exact yields_throw
  · next hknown =>
    refine (yields_rdBody _ schema false none []).bind ?_
    rintro s _ ⟨rfl, hfirst, hsns, himp, hbody⟩
    exact yields_pure ⟨hlt, hok, .later hfirst hsns himp hknown, hbody⟩

/-! ### Reading an SUU back -/

variable {ns : CStr} {imported : List CStr}

theorem inverts_rdNamespaces (hfits : ns.Fits) (hlen : imported.length < 2 ^ 64) (hall : ∀ i ∈ imported, i.Fits)
    (hns : ns.NonEmpty) (hne : ∀ i ∈ imported, i.NonEmpty) :
    Inverts rdNamespaces (namespacesBits ns imported) (ns, imported) := by
  have himported : Inverts (each (fun _ => rdString) 0 imported.length)
      (imported.flatMap strBits) imported :=
    inverts_each imported 0 fun j i hj =>
      inverts_rdString (hall i (mem_of_getElem? hj)) (hne i (mem_of_getElem? hj))
  have hbits := length_flatMap_ge imported strBits 16 fun i hi => sixteen_le_strBits (hne i hi)
  refine (inverts_rdString hfits hns).bind ((inverts_rdV8 auRd hlen).bind ?_)
  intro rest
  rw [bind_of_ok (show rdLeft _ = .ok _ _ from rfl), if_neg (by rw [length_append]; omega), bind_of_ok (himported rest)]
  rfl

/-- The bits of the three tables and the schema. -/
def bodyBits (s : Suu) : List Bool :=
  suuTableBits .types s.first s.types ++ (suuTableBits .elems s.first s.elems ++
    (suuTableBits .attrs s.first s.attrs ++ encodedBits s.encoded))

variable {a : AuSchema} {s : Suu} {rest : List Bool}

/-- The body is read back exactly if its codes fit into what follows them. -/
theorem rdBody_bits (hv : BodyValid a s) : (CodesFit s.attrs (encodedBits s.encoded ++ rest).length →
      rdBody a s.schema s.first s.ns s.imported (bodyBits s ++ rest) = .ok s rest) ∧
    (¬ CodesFit s.attrs (encodedBits s.encoded ++ rest).length → ∀ s' rest',
      rdBody a s.schema s.first s.ns s.imported (bodyBits s ++ rest) ≠ .ok s' rest') := by
  rw [rdBody, bodyBits, append_assoc,
    bind_of_ok (rdTable_bits hv.types hv.types_shape fun h => TableKind.noConfusion h), append_assoc,
    bind_of_ok (rdTable_bits hv.elems hv.elems_shape fun h => TableKind.noConfusion h), append_assoc]
  refine ⟨fun hfit => ?_, fun hfit s' rest' h => ?_⟩
  · rw [bind_of_ok (rdTable_bits hv.attrs hv.attrs_shape fun _ => hfit), bind_of_ok (inverts_rdEncoded hv.encoded rest)]
    rfl
  · obtain ⟨t', _, hattrs, -⟩ := ok_of_bind h
    exact rdTable_short hv.attrs hv.attrs_shape hfit _ _ hattrs

theorem suuBits_first {nadd : Nat} (hfirst : s.first = true) (hns : s.ns = some ns) : suuBits nadd s =
      ofNat (bimWidth nadd) s.schema ++ ([true] ++ (namespacesBits ns s.imported ++ bodyBits s)) := by
  rw [suuBits, hns, hfirst, bodyBits, hfirst]

theorem suuBits_later {nadd : Nat} (hfirst : s.first = false) (hns : s.ns = none) :
    suuBits nadd s = ofNat (bimWidth nadd) s.schema ++ ([false] ++ bodyBits s) := by
  rw [suuBits, hns, hfirst, bodyBits, hfirst, nil_append]

variable {st st' : AuState}

/-- What `rd_suu` makes of a written SUU: once its header is read, the rest is up to its body. -/
theorem rdSuu_header (rest : List Bool) (hv : SuuValid st s st') (hn : s.Named) :
    ∃ k : Suu → Rd (Suu × AuState), k s = pure (s, st') ∧ rdSuu st (suuBits st.add.length s ++ rest) =
      (rdBody (st.entry s.schema) s.schema s.first s.ns s.imported >>= k) (bodyBits s ++ rest) := by
  cases hv.head with
  | first hfirst hns hfits hlen hall hst =>
    rename_i ns
    have hnames := inverts_rdNamespaces hfits hlen hall (hn.1 ns hns) hn.2
    rw [suuBits_first hfirst hns, rdSuu, append_assoc,
      bind_of_ok (inverts_rdBits auRd hv.schema_lt _), if_neg (by rw [hv.schema_ok]; decide),
      append_assoc, bind_of_ok (inverts_rdFlag auRd true _), if_pos rfl, append_assoc,
      bind_of_ok (hnames _), hfirst, hns]
    exact ⟨fun s' => rdLift (st.remember s' ns) >>= fun st' => pure (s', st'), by simp only [hst]; rfl, rfl⟩
  | later hfirst hns himp hknown =>
    rw [suuBits_later hfirst hns, rdSuu, append_assoc,
      bind_of_ok (inverts_rdBits auRd hv.schema_lt _), if_neg (by rw [hv.schema_ok]; decide),
      append_assoc, bind_of_ok (inverts_rdFlag auRd false _), if_neg (by decide), if_neg hknown, hfirst, hns, himp]
    exact ⟨fun s' => pure (s', st), rfl, rfl⟩

theorem rdSuu_bits (hv : SuuValid st s st') (hn : s.Named) (hfit : CodesFit s.attrs (encodedBits s.encoded ++ rest).length) :
    rdSuu st (suuBits st.add.length s ++ rest) = .ok (s, st') rest := by
  obtain ⟨k, hk, hread⟩ := rdSuu_header rest hv hn
  rw [hread, bind_of_ok (rdBody_bits hv.body |>.1 hfit), hk]
  rfl

theorem rdSuu_short (hv : SuuValid st s st') (hn : s.Named) (hfit : ¬ CodesFit s.attrs (encodedBits s.encoded ++ rest).length)
    (p : Suu × AuState) (rest' : List Bool) :
    rdSuu st (suuBits st.add.length s ++ rest) ≠ .ok p rest' := by
  obtain ⟨k, -, hread⟩ := rdSuu_header rest hv hn
  rw [hread]
  intro h
  obtain ⟨_, _, hbody, -⟩ := ok_of_bind h
  exact (rdBody_bits hv.body).2 hfit _ _ hbody

/-! ### Writing an SUU -/

theorem wNamespaces_eq (hns : ns.NonEmpty) (hne : ∀ i ∈ imported, i.NonEmpty) :
    wNamespaces (some ns) imported = .ok (ns, namespacesBits ns imported) := by
  rw [wNamespaces, wString_eq hns, wrEach_eq fun i hi => wString_eq (hne i hi), namespacesBits]
  show Except.ok _ = Except.ok _
  rw [append_assoc]

theorem of_wNamespaces {p : CStr × List Bool} (h : wNamespaces (some ns) imported = .ok p) :
    ns.NonEmpty ∧ ∀ i ∈ imported, i.NonEmpty := by
  obtain ⟨_, hns, h⟩ := Wr.ok_of_bind h
  obtain ⟨_, himported, -⟩ := Wr.ok_of_bind h
  refine ⟨of_wString hns, fun i hi => ?_⟩
  obtain ⟨_, hi⟩ := of_wrEach himported i hi
  exact of_wString hi

theorem wBody_eq (hv : BodyValid a s) : wBody a s = .ok (bodyBits s) := by
  rw [wBody, wTable_eq hv.types hv.types_shape, wTable_eq hv.elems hv.elems_shape,
    wTable_eq hv.attrs hv.attrs_shape, bodyBits]
  simp only [append_assoc]
  rfl

theorem wSuu_eq (hv : SuuValid st s st') (hn : s.Named) : wSuu st s = .ok (suuBits st.add.length s, st') := by
  rw [wSuu, if_neg (by rw [hv.schema_ok]; decide), wBody_eq hv.body]
  cases hv.head with
  | first hfirst hns hfits hlen hall hst =>
    rename_i ns
    rw [suuBits_first hfirst hns, hns, wNamespaces_eq (hn.1 ns hns) hn.2, if_neg (by rw [hfirst]; simp), if_pos hfirst]
    show (st.remember s ns >>= _) = _
    rw [hst, hfirst]
    show Except.ok _ = Except.ok _
    simp only [append_assoc]
  | later hfirst hns himp hknown =>
    rw [suuBits_later hfirst hns, if_neg fun h => hknown h.2, if_neg (by rw [hfirst]; decide), hfirst]
    show Except.ok _ = Except.ok _
    simp only [append_assoc]

theorem of_wSuu (hv : SuuValid st s st') {p : List Bool × AuState} (h : wSuu st s = .ok p) : s.Named := by
  cases hv.head with
  | first hfirst hns hfits hlen hall hst =>
    rename_i ns
    rw [wSuu, if_neg (by rw [hv.schema_ok]; decide), if_neg (by rw [hfirst]; simp), if_pos hfirst, hns] at h
    obtain ⟨_, hnames, -⟩ := Wr.ok_of_bind h
    obtain ⟨hne, hall⟩ := of_wNamespaces hnames
    refine ⟨fun ns' hns' => ?_, hall⟩
    obtain rfl : ns = ns' := Option.some.inj (hns.symm.trans hns')
    exact hne
  | later hfirst hns himp hknown =>
    refine ⟨fun ns hns' => ?_, fun i hi => ?_⟩
    · rw [hns] at hns'
      cases hns'
    · rw [himp] at hi
      exact absurd hi not_mem_nil

/-! ## Chains of schema update units -/

/-- What the loop over the SUUs accepts from `st`, and the state it ends in. -/
def SuusValid : AuState → List Suu → AuState → Prop
  | st, [], st'' => st = st''
  | st, s :: ss, st'' => ∃ st', SuuValid st s st' ∧ SuusValid st' ss st''

/-- `CodesFit` for each SUU of a list that `left` bits follow. -/
def SuusFit (nadd : Nat) : List Suu → Nat → Prop
  | [], _ => True
  | s :: ss, left =>
    CodesFit s.attrs ((encodedBits s.encoded).length + (ss.flatMap (suuBits nadd)).length + left) ∧
      SuusFit nadd ss left

theorem HeadValid.frame (h : HeadValid st s st') : st'.add.length = st.add.length ∧ st'.di = st.di := by
  cases h with
  | later => exact ⟨rfl, rfl⟩
  | first hfirst hns hfits hlen hall hst =>
    unfold AuState.remember at hst
    simp only at hst
    split at hst
    · split at hst
      · cases hst
      · cases hst
        exact ⟨rfl, rfl⟩
    · split at hst
      · cases hst
      · cases hst
        exact ⟨length_set, rfl⟩

theorem keeping_ok {p : Rd α} {s s' : List Bool} {a : α} : keeping st p s = .ok a s' ↔ p s = .ok a s' := adaptExcept_ok

theorem yields_rdSuus (st : AuState) (n : Nat) : Yields (rdSuus st n) fun p _ =>
    p.1.length = n ∧ SuusValid st p.1 p.2 := by
  induction n generalizing st with
  | zero => exact yields_pure ⟨rfl, rfl⟩
  | succ n ih =>
    have hsuu : Yields (keeping st (rdSuu st)) fun p _ => SuuValid st p.1 p.2 := by
      intro s p s' h
      exact yields_rdSuu st s p s' (keeping_ok.1 h)
    refine hsuu.bind ?_
    rintro ⟨s, st'⟩ _ hs
    refine (ih st').bind ?_
    rintro ⟨ss, st''⟩ _ ⟨hlen, hss⟩
    exact yields_pure ⟨by rw [length_cons, hlen], st', hs, hss⟩

variable {ss : List Suu}

theorem rdSuus_bits (hv : SuusValid st ss st') (hn : ∀ s ∈ ss, s.Named) (hfit : SuusFit st.add.length ss rest.length) :
    rdSuus st ss.length (ss.flatMap (suuBits st.add.length) ++ rest) = .ok (ss, st') rest := by
  induction ss generalizing st with
  | nil =>
    obtain rfl : st = st' := hv
    rfl
  | cons s ss ih =>
    obtain ⟨st1, hs, hss⟩ := hv
    have hadd : st1.add.length = st.add.length := hs.head.frame.1
    have hhead : keeping st (rdSuu st) (suuBits st.add.length s ++ (ss.flatMap (suuBits st.add.length) ++ rest)) =
          .ok (s, st1) (ss.flatMap (suuBits st.add.length) ++ rest) := by
      refine keeping_ok.2 (rdSuu_bits hs (hn s mem_cons_self) ?_)
      rw [length_append, length_append, ← add_assoc]
      exact hfit.1
    have htail := ih hss (fun s' hs' => hn s' (mem_cons_of_mem s hs')) (by
      rw [hadd]
      exact hfit.2)
    rw [hadd] at htail
    rw [length_cons, rdSuus, flatMap_cons, append_assoc, bind_of_ok hhead]
    simp only
    rw [bind_of_ok htail]
    rfl

theorem rdSuus_short (hv : SuusValid st ss st') (hn : ∀ s ∈ ss, s.Named) (hfit : ¬ SuusFit st.add.length ss rest.length)
    (p : List Suu × AuState) (rest' : List Bool) :
    rdSuus st ss.length (ss.flatMap (suuBits st.add.length) ++ rest) ≠ .ok p rest' := by
  induction ss generalizing st p rest' with
  | nil => exact absurd trivial hfit
  | cons s ss ih =>
    obtain ⟨st1, hs, hss⟩ := hv
    have hadd : st1.add.length = st.add.length := hs.head.frame.1
    have hnamed := hn s mem_cons_self
    intro h
    rw [length_cons, rdSuus, flatMap_cons, append_assoc] at h
    by_cases hcodes : CodesFit s.attrs (encodedBits s.encoded ++ (ss.flatMap (suuBits st.add.length) ++ rest)).length
    · -- the head is read back, so the tail is where a count does not fit
      rw [bind_of_ok (keeping_ok.2 (rdSuu_bits hs hnamed hcodes))] at h
      obtain ⟨q, _, htail, -⟩ := ok_of_bind h
      rw [← hadd] at htail
      refine ih hss (fun s' hs' => hn s' (mem_cons_of_mem s hs')) ?_ q _ htail
      intro htailfit
      rw [hadd] at htailfit
      rw [length_append, length_append, ← add_assoc] at hcodes
      exact hfit ⟨hcodes, htailfit⟩
    · obtain ⟨_, _, hhead, -⟩ := ok_of_bind h
      exact rdSuu_short hs hnamed hcodes _ _ (keeping_ok.1 hhead)

theorem wSuus_eq (hv : SuusValid st ss st') (hn : ∀ s ∈ ss, s.Named) :
    wSuus st ss = .ok (ss.flatMap (suuBits st.add.length), st') := by
  induction ss generalizing st with
  | nil =>
    obtain rfl : st = st' := hv
    rfl
  | cons s ss ih =>
    obtain ⟨st1, hs, hss⟩ := hv
    have htail := ih hss fun s' hs' => hn s' (mem_cons_of_mem s hs')
    rw [hs.head.frame.1] at htail
    rw [wSuus, wSuu_eq hs (hn s mem_cons_self)]
    show (wSuus st1 ss >>= _) = _
    rw [htail]
    rfl

theorem ok_of_mapError {ε ε' : Type} {f : ε → ε'} {r : Except ε α} {a : α} (h : r.mapError f = .ok a) : r = .ok a := by
  cases r with
  | error e => cases h
  | ok b => exact congrArg Except.ok (Except.ok.inj h)

theorem of_wSuus (hv : SuusValid st ss st')
    {p : List Bool × AuState} (h : wSuus st ss = .ok p) : ∀ s ∈ ss, s.Named := by
  induction ss generalizing st p with
  | nil => exact fun s hs => absurd hs not_mem_nil
  | cons s ss ih =>
    obtain ⟨st1, hs, hss⟩ := hv
    obtain ⟨⟨bits, st2⟩, hhead, h⟩ := Wr.ok_of_bind h
    have hwrite := ok_of_mapError hhead
    have hnamed := of_wSuu hs hwrite
    rw [wSuu_eq hs hnamed] at hwrite
    obtain ⟨-, rfl⟩ := Prod.mk.inj (Except.ok.inj hwrite)
    obtain ⟨q, htail, -⟩ := Wr.ok_of_bind h
    intro s' hs'
    rcases mem_cons.1 hs' with rfl | hmem
    · exact hnamed
    · exact ih hss htail s' hmem

/-! ## Access units -/

/-- The code of an FUU. -/
def fuuBits (b : Bits) : List Bool := vluimsbf8Bits (b.nbits / 8) ++ wrBits b.bits b.nbits

/-- What the parser returns as an FUU: whole bytes. -/
def FuuValid (b : Bits) : Prop :=
  ∃ bs : List Bool, b = { bits := packBytes bs, nbits := bs.length } ∧ bs.length % 8 = 0 ∧
    bs.length / 8 < 2 ^ 64

theorem yields_rdFuu : Yields rdFuu fun b _ => FuuValid b := by
  refine (yields_rdV8 auRd).bind ?_
  rintro v _ ⟨hv, -⟩
  refine yields_rdLeft.bind ?_
  rintro left _ -
  split
  · exact yields_rdTrunc auRd
  · refine (yields_rdRaw auRd (v * 8)).bind ?_
    rintro bits _ ⟨-, bs, hlen, rfl⟩
    exact yields_pure ⟨bs, by rw [hlen], by omega, by omega⟩

theorem inverts_rdFuu {b : Bits} (hv : FuuValid b) : Inverts rdFuu (fuuBits b) b := by
  obtain ⟨bs, rfl, hmod, hlt⟩ := hv
  have hmul : bs.length / 8 * 8 = bs.length := by omega
  rw [fuuBits, wrBits_packBytes]
  refine (inverts_rdV8 auRd hlt).bind ?_
  intro rest
  rw [bind_of_ok (show rdLeft _ = .ok _ _ from rfl),
    if_neg (by rw [length_append]; omega), hmul, bind_of_ok (inverts_rdRaw auRd bs rest)]
  rfl

theorem wFuu_eq {b : Bits} (hv : FuuValid b) : wFuu b = .ok (fuuBits b) := by
  obtain ⟨bs, rfl, hmod, -⟩ := hv
  rw [wFuu, if_neg (not_not.2 hmod)]
  rfl

/-- What `rd_au` accepts from `st`, and the state it ends in. -/
structure AuValid (st : AuState) (au : Au) (st' : AuState) : Prop where
  suus_off : st.di.addSchema = false → au.suus = []
  suus_lt : au.suus.length < 2 ^ 64
  suus : SuusValid st au.suus st'
  fuus_off : st.di.addSchemaOnly = true → au.fuus = []
  fuus_lt : au.fuus.length < 2 ^ 64
  fuus : ∀ b ∈ au.fuus, FuuValid b

theorem yields_rdUpdates (st : AuState) : Yields (rdUpdates st) fun p _ =>
    (st.di.addSchema = false → p.1 = []) ∧ p.1.length < 2 ^ 64 ∧ SuusValid st p.1 p.2 := by
  unfold rdUpdates
  split
  · next hadd =>
    have hcount : Yields (keeping st (rdCount auRd 8)) fun v _ => v < 2 ^ 64 := by
      intro s v s' h
      obtain ⟨hle, hv, -⟩ := yields_rdCount auRd 8 s v s' (keeping_ok.1 h)
      exact ⟨hle, hv⟩
    refine hcount.bind ?_
    rintro n _ hn
    refine (yields_rdSuus st n).mono ?_
    rintro ⟨ss, st'⟩ _ ⟨hlen, hss⟩
    exact ⟨fun h => absurd (hadd.symm.trans h) (by decide), hlen ▸ hn, hss⟩
  · exact yields_pure ⟨fun _ => rfl, Nat.two_pow_pos 64, rfl⟩

theorem yields_rdAu (st : AuState) : Yields (rdAu st) fun p _ => AuValid st p.1 p.2 := by
  refine (yields_rdUpdates st).bind ?_
  rintro ⟨suus, st'⟩ _ ⟨hoff, hlt, hsuus⟩
  simp only
  split
  · exact yields_pure ⟨hoff, hlt, hsuus, fun _ => rfl, Nat.two_pow_pos 64, fun b hb => absurd hb not_mem_nil⟩
  rename_i hboth
  have hfuus : Yields (keeping st' (rdCounted auRd 8 fun _ => rdFuu)) fun fuus _ =>
      fuus.length < 2 ^ 64 ∧ ∀ b ∈ fuus, FuuValid b := by
    intro s fuus s' h
    obtain ⟨hle, hlen, hall⟩ := yields_table auRd 8 (fun _ => yields_rdFuu) s fuus s'
      (keeping_ok.1 h)
    exact ⟨hle, hlen, DecoderInit.mem_of_table hall⟩
  refine hfuus.bind ?_
  rintro fuus _ ⟨hflen, hfall⟩
  exact yields_pure ⟨hoff, hlt, hsuus, fun h => absurd h hboth, hflen, hfall⟩

/-- The SUUs with their count. -/
def updatesBits (st : AuState) (au : Au) : List Bool :=
  if st.di.addSchema then tableBits (suuBits st.add.length) au.suus else []

/-- The FUUs with their count. -/
def fuusBits (di : DecoderInit) (au : Au) : List Bool :=
  if di.addSchemaOnly then [] else tableBits fuuBits au.fuus

/-- The code of an access unit. -/
def auBits (st : AuState) (au : Au) : List Bool := updatesBits st au ++ fuusBits st.di au

/-- No namespace of an access unit is the empty string. -/
def Au.Named (au : Au) : Prop := ∀ s ∈ au.suus, s.Named

/-- What follows the SUUs: the FUUs, and the padding of the last byte. -/
def tailBits (st : AuState) (au : Au) : List Bool := fuusBits st.di au ++ padTo8 (auBits st au).length

/-- The attribute codes without bits of an access unit are plausible where it ends with what is
    written of it. -/
def Au.CodesFit (st : AuState) (au : Au) : Prop :=
  st.di.addSchema = true → SuusFit st.add.length au.suus (tailBits st au).length

theorem eight_le_suuBits (hv : SuuValid st s st') (nadd : Nat) : 8 ≤ (suuBits nadd s).length := by
  have h16 := hv.body.encoded.1
  simp only [suuBits, length_append]
  omega

theorem length_suus_ge (hv : SuusValid st ss st') (nadd : Nat) :
    ss.length * 8 ≤ (ss.flatMap (suuBits nadd)).length := by
  refine length_flatMap_ge ss _ 8 fun s hs => ?_
  induction ss generalizing st with
  | nil => exact absurd hs not_mem_nil
  | cons s' ss ih =>
    obtain ⟨st1, hs', hss⟩ := hv
    rcases mem_cons.1 hs with rfl | hmem
    · exact eight_le_suuBits hs' nadd
    · exact ih hss hmem

variable {au : Au} (hv : AuValid st au st')

include hv

theorem rdUpdates_bits (hn : au.Named) (hfit : au.CodesFit st) :
    rdUpdates st (updatesBits st au ++ tailBits st au) = .ok (au.suus, st') (tailBits st au) := by
  unfold rdUpdates updatesBits
  cases hadd : st.di.addSchema with
  | false =>
    have hsuus := hv.suus
    rw [hv.suus_off hadd] at hsuus ⊢
    obtain rfl : st = st' := hsuus
    rfl
  | true =>
    have hlen := length_suus_ge hv.suus st.add.length
    rw [if_pos rfl, if_pos rfl, tableBits, append_assoc, bind_of_ok (keeping_ok.2 (rdCount_bits auRd hv.suus_lt (by
        rw [length_append]; omega)))]
    exact rdSuus_bits hv.suus hn (hfit hadd)

theorem of_rdUpdates_bits (hn : au.Named) {p : List Suu × AuState}
    (h : rdUpdates st (updatesBits st au ++ tailBits st au) = .ok p rest) : au.CodesFit st := by
  intro hadd
  by_contra hfit
  have hlen := length_suus_ge hv.suus st.add.length
  rw [rdUpdates, updatesBits, if_pos hadd, if_pos hadd, tableBits, append_assoc,
    bind_of_ok (keeping_ok.2 (rdCount_bits auRd hv.suus_lt (by
      rw [length_append]; omega)))] at h
  exact rdSuus_short hv.suus hn hfit _ _ h

theorem rdAu_bits (hn : au.Named) (hfit : au.CodesFit st) :
    rdAu st (auBits st au ++ padTo8 (auBits st au).length) = .ok (au, st') (padTo8 (auBits st au).length) := by
  rw [rdAu, auBits, append_assoc]
  have hupdates := rdUpdates_bits hv hn hfit
  unfold tailBits auBits at hupdates
  rw [bind_of_ok hupdates]
  simp only
  split
  · next honly =>
    rw [fuusBits, if_pos honly]
    obtain ⟨suus, fuus⟩ := au
    obtain rfl : fuus = [] := hv.fuus_off honly
    rfl
  rename_i honly
  have hfuus : Inverts (rdCounted auRd 8 fun _ => rdFuu) (tableBits fuuBits au.fuus) au.fuus := by
    refine inverts_rdCounted auRd hv.fuus_lt (fun b _ => ?_) fun j b hj => ?_
    · have := length_vluimsbf8Bits_pos (b.nbits / 8)
      rw [fuuBits, length_append]
      omega
    · exact inverts_rdFuu (hv.fuus b (mem_of_getElem? hj))
  rw [fuusBits, if_neg honly, bind_of_ok (keeping_ok.2 (hfuus _))]
  rfl

theorem write_eq (hn : au.Named) : write st au = .ok (packBytes (auBits st au), st') := by
  have hupdates : wUpdates st au.suus = .ok (updatesBits st au, st') := by
    unfold wUpdates updatesBits
    split
    · rw [wSuus_eq hv.suus hn]
      rfl
    · next hadd =>
      have hsuus := hv.suus
      rw [hv.suus_off (by simpa using hadd)] at hsuus
      obtain rfl : st = st' := hsuus
      rfl
  have hfuus : wFuus st.di au.fuus = .ok (fuusBits st.di au) := by
    unfold wFuus fuusBits
    split
    · rfl
    · rw [wrEach_eq fun b hb => wFuu_eq (hv.fuus b hb)]
      rfl
  rw [write, if_neg fun h => h.2 (hv.suus_off (by simpa using h.1)), if_neg fun h => h.2 (hv.fuus_off h.1), hupdates]
  rw [hfuus]
  rfl

theorem of_write {p : List UInt8 × AuState} (h : write st au = .ok p) : au.Named := by
  rw [write, if_neg fun h => h.2 (hv.suus_off (by simpa using h.1)), if_neg fun h => h.2 (hv.fuus_off h.1)] at h
  obtain ⟨_, hupdates, -⟩ := Wr.ok_of_bind h
  unfold wUpdates at hupdates
  split at hupdates
  · obtain ⟨_, hsuus, -⟩ := Wr.ok_of_bind hupdates
    exact of_wSuus hv.suus hsuus
  · next hadd =>
    intro s hs
    rw [hv.suus_off (by simpa using hadd)] at hs
    exact absurd hs not_mem_nil

omit hv

theorem valid_of_parse {buf : List UInt8} {used : Nat}
    (h : parse st buf = .ok (au, used, st')) : AuValid st au st' := by
  unfold parse at h
  split at h
  · cases h
  · next au' st1 s hread =>
    obtain ⟨rfl, -, rfl⟩ := h
    exact (yields_rdAu st _ _ _ hread).2

/-- A written access unit is parsed back over exactly the bytes written, to the same state. -/
theorem parse_written (hv : AuValid st au st') (hn : au.Named) (hfit : au.CodesFit st) :
    parse st (packBytes (auBits st au)) = .ok (au, (packBytes (auBits st au)).length, st') := by
  rw [parse, ofBytes_packBytes, rdAu_bits hv hn hfit]
  simp only [length_append, Nat.add_sub_cancel, length_packBytes]

/-- An access unit the parser returned from the state `st` is written from `st`, ending in the same
    state, and parsed back from `st` to itself, if and only if none of its namespaces is empty and its
    attribute codes without bits are plausible without the bytes that followed the original. -/
theorem parse_write_parse_iff {st st' : AuState} {buf : List UInt8} {au : Au} {used : Nat}
    (h : parse st buf = .ok (au, used, st')) : (∃ out, write st au = .ok (out, st') ∧
      ∃ used' st'', parse st out = .ok (au, used', st'')) ↔ au.Named ∧ au.CodesFit st := by
  have hv := valid_of_parse h
  constructor
  · rintro ⟨out, hwrite, used', st'', hparse⟩
    have hn := of_write hv hwrite
    rw [write_eq hv hn] at hwrite
    obtain ⟨rfl, -⟩ := Prod.mk.inj (Except.ok.inj hwrite)
    refine ⟨hn, ?_⟩
    unfold parse at hparse
    rw [ofBytes_packBytes] at hparse
    split at hparse
    · cases hparse
    · next au' st1 s hread =>
      obtain ⟨p, _, hupdates, -⟩ := ok_of_bind hread
      rw [auBits, append_assoc] at hupdates
      exact of_rdUpdates_bits hv hn hupdates
  · rintro ⟨hn, hfit⟩
    exact ⟨_, write_eq hv hn, _, _, parse_written hv hn hfit⟩

/-- Three additional schemas, of which SUUs may set the second, and access units of SUUs only. -/
def threeSchemas : AuState where
  di := { mpegb := true, addSchema := true, addSchemaOnly := true, hier := true, nadditional := 3 }
  add := [{}, {}, {}]
  nadd_lt := by decide

/-- The state after a first SUU of the second schema, without types, elements and attributes. -/
def namedSchema (ns : CStr) : AuState where
  di := threeSchemas.di
  add := [{}, { ns := some ns }, {}]
  nadd_lt := by simp

/-- That SUU, its encoded schema one empty FUU. -/
def namingSuu (ns : CStr) : Suu where
  schema := 1
  first := true
  ns := some ns
  types := {}
  elems := {}
  attrs := {}
  encoded := { bits := [1, 0], nbits := 16 }

theorem parse_write_parse_named : ∃ used, parse threeSchemas [1, 96, 44, 32, 0, 0, 0, 0, 1, 0] =
        .ok ({ suus := [namingSuu (CStr.ofBytes [0x61])] }, used, namedSchema (CStr.ofBytes [0x61])) ∧
      ∃ out, write threeSchemas { suus := [namingSuu (CStr.ofBytes [0x61])] } =
          .ok (out, namedSchema (CStr.ofBytes [0x61])) ∧ ∃ used' st'', parse threeSchemas out =
          .ok ({ suus := [namingSuu (CStr.ofBytes [0x61])] }, used', st'') := by
  have hparse : parse threeSchemas [1, 96, 44, 32, 0, 0, 0, 0, 1, 0] =
      .ok ({ suus := [namingSuu (CStr.ofBytes [0x61])] }, 10, namedSchema (CStr.ofBytes [0x61])) := by
    decide +kernel
  refine ⟨10, hparse, (parse_write_parse_iff hparse).2 ⟨?_, ?_⟩⟩
  · intro s hs
    obtain rfl := mem_singleton.1 hs
    refine ⟨fun ns hns => ?_, fun i hi => absurd hi not_mem_nil⟩
    cases hns
    decide
  · intro _
    exact ⟨fun h => Bool.noConfusion h, trivial⟩

/-- A namespace of length one whose byte is NUL is accepted by the parser, which looks at the coded
    length, and refused by the writer, which looks at the first character. -/
theorem nul_namespace_not_rewritten : parse threeSchemas [1, 96, 32, 0, 0, 0, 0, 0, 1, 0] =
        .ok ({ suus := [namingSuu (CStr.ofBytes [0])] }, 10, namedSchema (CStr.ofBytes [0])) ∧
      ¬ ∃ out, write threeSchemas { suus := [namingSuu (CStr.ofBytes [0])] } =
          .ok (out, namedSchema (CStr.ofBytes [0])) ∧ ∃ used' st'', parse threeSchemas out =
          .ok ({ suus := [namingSuu (CStr.ofBytes [0])] }, used', st'') := by
  have hparse : parse threeSchemas [1, 96, 32, 0, 0, 0, 0, 0, 1, 0] =
      .ok ({ suus := [namingSuu (CStr.ofBytes [0])] }, 10, namedSchema (CStr.ofBytes [0])) := by
    decide +kernel
  refine ⟨hparse, ?_⟩
  rintro ⟨out, hwrite, -⟩
  have hnamed := of_write (valid_of_parse hparse) hwrite
  exact (hnamed _ (mem_singleton.2 rfl)).1 _ rfl rfl

end DvbIpiTools.Bim.AccessUnit
