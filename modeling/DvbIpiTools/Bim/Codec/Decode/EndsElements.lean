import DvbIpiTools.Bim.Codec.Decode.Takes

set_option autoImplicit false

/-! # Values end

A zlib string takes a chunk of the payload for each round but the first, and the references between simple types are followed downwards
only. -/

namespace DvbIpiTools.Bim

open Codec Coder Cutoff

variable {σ : Type} {g : Graph} (o : DecodeOpts σ)

/-! ## The simple types below one -/

/-- The item of a list, the members of a union. -/
def SimpleCodec.refs : SimpleCodec → List SimpleRef
  | .atom _ => []
  | .list item _ _ => [item]
  | .union members => members

/-- `r` is an item, a member or the restricted type of `s`. -/
def Graph.Below (g : Graph) (r s : SimpleRef) : Prop := r ∈ (g.simple s).codec.refs ∨ (g.simple s).base = some r

/-! ## Zlib strings -/

/-- The rounds that a zlib string may still take. -/
def zRounds (d : Dec σ) : Nat := d.src.bits.length + (if d.zrest = [] then 0 else 1)

theorem zlibChunk_pos {inflate : Lax.Inflate} {s s' : List Bool} {out : List UInt8}
    (h : zlibChunk o inflate s = some (out, s')) : s'.length < s.length := by
  obtain ⟨⟨clen, s1⟩, hlen, h⟩ := Option.bind_eq_some_iff.1 h
  have hpos := (Stream.of_getVluimsbf8_eq_some hlen).2
  have h8 := length_vluimsbf8Bits_pos clen
  have hle : s'.length ≤ s1.length := by
    refine (shrinks_require _).bind (fun _ => (shrinks_getBytes clen).bind fun data => ?_) s1 out s' h
    split
    · exact shrinks_failure
    · exact (shrinks_require _).bind fun _ => shrinks_pure _
  omega

theorem ends_zlibFill (d : Dec σ) :
    EndsWith (fun y => y.2 ≤ d ∧ (d.zrest = [] → y.2.src.bits.length < d.src.bits.length)) (fun _ => zlibFill o) d := by
  refine endsWith_gets ?_
  by_cases hempty : d.zrest = []
  · simp only [if_pos hempty]
    refine endsWith_lift fun inflate _ => ?_
    refine EndsWith.bind (ends_rd_pos (fun _ _ _ => zlibChunk_pos o) d) fun z d' h => ?_
    exact endsWith_const ⟨h.1, fun _ => h.2⟩
  · simp only [if_neg hempty]
    exact endsWith_const ⟨le_rfl, fun h => absurd h hempty⟩

theorem ends_zstringRound (t : List UInt8) (d : Dec σ) :
    EndsWith (fun y => y.2 ≤ d ∧ ∀ t', y.1 = .inl t' → zRounds y.2 < zRounds d) (fun _ => zstringRound o t) d := by
  refine EndsWith.bind (ends_zlibFill o d) fun _ d' hfill => ?_
  obtain ⟨hle, htakes⟩ := hfill
  refine endsWith_gets ?_
  by_cases hzero : 0 ∈ d'.zrest
  · simp only [if_pos hzero]
    exact endsWith_const ⟨hle, fun t' h => absurd h (by simp)⟩
  simp only [if_neg hzero]
  refine endsWith_const ⟨hle, fun t' _ => ?_⟩
  have hbits : d'.src.bits.length ≤ d.src.bits.length := hle.1
  show d'.src.bits.length + 0 < zRounds d
  unfold zRounds
  split
  · next hempty =>
    have hlt := htakes hempty
    omega
  · omega

theorem ends_decZstring (d : Dec σ) : Ends (fun n => decZstring o n) d :=
  ends_iterate (fun _ => zRounds) fun t d' _ => ends_zstringRound o t d'

/-! ## Plain values -/

theorem ends_withState {α : Type} {p : DvbState → SrcRd (α × DvbState)} (hp : ∀ st, Takes (p st)) (d : Dec σ) :
    Ends (fun _ => withState p) d :=
  (ends_gets Dec.st d).bind fun st d' _ => (ends_ofSrc (hp st) d').bind fun _ d'' _ =>
    (ends_modify (le_refl d'')).bind fun _ d3 _ => ends_pure _ d3

theorem ends_atomRender (a : Atom) (f : Facets) (d : Dec σ) : Ends (fun n => atomRender o n a f) d := by
  cases a with
  | utf8 => exact ends_rd shrinks_utf8Render d
  | boolean => exact (ends_rd shrinks_getFlag d).bind fun _ d' _ => ends_pure _ d'
  | float => exact (ends_rd (shrinks_getBits 32) d).bind fun _ d' _ => ends_pure _ d'
  | double => exact (ends_rd (shrinks_getBits 64) d).bind fun _ d' _ => ends_pure _ d'
  | hexbin => exact ends_rd (shrinks_binaryRender true) d
  | base64 => exact ends_rd (shrinks_binaryRender false) d
  | range r => exact ends_rd (shrinks_decodeRange r) d
  | svlu5 => exact ends_rd shrinks_decodeSvlu5 d
  | enum values => exact ends_rd (shrinks_enumRender values) d
  | string => exact (ends_ofSrc takes_dvbString d).bind fun _ d' _ => ends_pure _ d'
  | zstring => exact ends_decZstring o d
  | locator => exact ends_withState takes_locatorDecode d
  | duration => exact ends_ofSrc takes_durationDecode d
  | termref => exact ends_ofSrc (takes_termRender o) d
  | tvaDatetime => exact ends_rd shrinks_tvaDatetimeDecode d
  | tvaDate => exact ends_rd shrinks_tvaDateDecode d
  | m7Timepoint => exact ends_rd (shrinks_m7TimepointDecode _ _) d
  | m7Duration => exact ends_rd (shrinks_m7DurationDecode _ _) d
  | unsupported => exact ends_fail d
  | _ => exact ends_withState (fun st => takes_ofBits (shrinks_datetimeDecode st)) d

/-- The values of a simple type end, whatever is left to read. -/
def TextsEnd (dec : Nat → SimpleRef → DecM σ (List UInt8)) (s : SimpleRef) : Prop := ∀ d, Ends (fun n => dec n s) d

section Composed

variable {dec : Nat → SimpleRef → DecM σ (List UInt8)}

theorem ends_listItemsLoop {item : SimpleRef} (h : TextsEnd dec item) (count k : Nat) (d : Dec σ) :
    Ends (fun n => listItemsLoop (dec n) item count k) d := by
  induction k generalizing d with
  | zero => exact ends_pure [] d
  | succ k ih =>
    refine (ends_gets _ d).bind fun bits d1 _ => (h d1).bind fun t d2 _ => (ends_gets _ d2).bind fun now d3 _ => ?_
    exact (ends_check _ d3).bind fun _ d4 _ => (ih d4).bind fun _ d5 _ => ends_pure _ d5

theorem ends_decPlain {s : SimpleRef} (h : ∀ r, g.Below r s → TextsEnd dec r) (d : Dec σ) :
    Ends (fun n => decPlain g o (dec n) n s) d := by
  simp only [decPlain]
  cases hcodec : (g.simple s).codec with
  | atom a => exact ends_atomRender o a _ d
  | list item range unbounded =>
    have hitem : g.Below item s := .inl (by rw [hcodec]; exact List.mem_singleton_self item)
    exact (ends_rd (shrinks_decListCount range unbounded) d).bind fun count d' _ =>
      ends_listItemsLoop (h item hitem) count count d'
  | union members =>
    refine (ends_rd (shrinks_getBits _) d).bind fun v d' _ => endsWith_lift fun r hr => ?_
    exact h r (.inl (by rw [hcodec]; exact List.mem_of_getElem? hr)) d'

theorem ends_quantText (isDouble : Bool) (k : Nat) (i : AodInst) (d : Dec σ) : Ends (fun _ => quantText o isDouble k i) d := by
  unfold quantText
  refine ends_ite (fun _ => (ends_rd (shrinks_getBits _) d).bind fun _ d' _ => ends_pure _ d') fun _ => ?_
  refine (ends_rd (shrinks_getBits _) d).bind fun q d1 _ => (ends_gets _ d1).bind fun counter d2 _ => ?_
  exact (ends_modify (le_refl d2)).bind fun _ d3 _ => ends_pure _ d3

theorem ends_decAod {s : SimpleRef} (h : ∀ r, g.Below r s → TextsEnd dec r) (a : Aod) (m : AodMap) (d : Dec σ) :
    Ends (fun n => decAod g o (dec n) a n s m) d := by
  refine (ends_rd (shrinks_getBits _) d).bind fun id d1 _ => (ends_check _ d1).bind fun _ d2 _ => ?_
  refine ends_ite (fun _ => ends_decPlain o h d2) fun _ => ?_
  refine endsWith_lift fun k _ => endsWith_lift fun i _ => ?_
  cases hkind : i.kind with
  | zlib => simpa only [aodInst, hkind] using ends_decZstring o d2
  | qname =>
    have hname : Shrinks (qnameText o) := shrinks_countedBytes.bind fun _ => shrinks_pure _
    simpa only [aodInst, hkind] using ends_rd hname d2
  | _ => simpa only [aodInst, hkind] using ends_quantText o _ k i d2

end Composed

variable (hwf : WellFounded g.Below)

/-! ## The recursion over the simple types -/

theorem aodFind_none (a : Aod) (n : Nat) : aodFind g a n none = (pure none : DecM σ (Option AodMap)) := by
  cases n <;> rfl

include hwf in
theorem ends_aodFind (a : Aod) (s : SimpleRef) (d : Dec σ) : Ends (fun n => aodFind g a n (some s)) d := by
  induction s using hwf.induction with
  | _ s ih =>
    refine Ends.succ ?_
    simp only [aodFind]
    cases hfind : a.maps.reverse.find? (·.simple = s) with
    | some m => exact ends_pure _ d
    | none =>
      cases hbase : (g.simple s).base with
      | none =>
        simp only [aodFind_none]
        exact ends_pure none d
      | some r => exact ih r (.inr hbase)

include hwf in
theorem ends_decText (s : SimpleRef) : TextsEnd (decText g o) s := by
  induction s using hwf.induction with
  | _ s ih =>
    intro d
    refine Ends.succ ?_
    have hmap : Ends (fun n => aodMap g o n s) d := by
      unfold aodMap
      cases o.aod with
      | none => exact ends_pure none d
      | some a => exact (ends_aodFind hwf a s d).bind fun m d' _ => ends_pure _ d'
    refine hmap.bind fun m d' _ => ?_
    cases m with
    | none => exact ends_decPlain o ih d'
    | some x => exact ends_decAod o ih x.1 x.2 d'

include hwf in
theorem ends_decValueText (s : SimpleRef) (d : Dec σ) : Ends (fun n => decValueText g o n s) d :=
  (ends_decText o hwf s d).bind fun _ d' _ => ends_pure _ d'

end DvbIpiTools.Bim

/-! # Elements end

Attributes and content are finite, parts are finite trees, and a child is one level deeper; there is no level below `elemDepthMax`. Loops
without a count take bits in each round. -/

namespace DvbIpiTools.Bim

open Codec Coder Cutoff List

variable {σ : Type} {g : Graph} (o : DecodeOpts σ) (m : Modes)

/-! ## Attributes -/

theorem ends_addNodeAttr (a : NodeAttr) (node : BimNode) (d : Dec σ) : Ends (fun _ => addNodeAttr a node) d := by
  cases node with
  | mk name ns text attrs kids cast deferred => exact (ends_lift _ d).bind fun _ d' _ => ends_pure _ d'

theorem ends_laxAttrs (k : Nat) (node : BimNode) (d : Dec σ) : Ends (fun _ => laxAttrs k node) d := by
  induction k generalizing node d with
  | zero => exact ends_pure node d
  | succ k ih =>
    refine (ends_rd shrinks_countedBytes d).bind fun q d1 _ => (ends_rd shrinks_countedBytes d1).bind fun value d2 _ => ?_
    exact (ends_addNodeAttr _ node d2).bind fun node d3 _ => ih node d3

theorem shrinks_optFlag (coded : Bool) : Shrinks (optFlag coded) := shrinks_ite shrinks_getFlag (shrinks_pure true)

theorem shrinks_getSchemaId : Shrinks (getSchemaId o) :=
  (shrinks_getBits _).bind fun _ => (shrinks_require _).bind fun _ => shrinks_pure _

theorem shrinks_boxStart : Shrinks boxStart :=
  shrinks_getV5.bind fun _ => shrinks_bitsLeft.bind fun _ => (shrinks_require _).bind fun _ => shrinks_pure _

theorem getFlag_pos {s s' : List Bool} {b : Bool} (h : getFlag s = some (b, s')) : s'.length < s.length := by
  obtain ⟨⟨v, s1⟩, hv, h⟩ := Option.bind_eq_some_iff.1 h
  cases h
  have hlen := length_of_getBits hv
  omega

/-- A round of a loop is no higher than where it began, and has fewer bits if there is another one. -/
def Round {β γ : Type} (d0 : Dec σ) (y : (β ⊕ γ) × Dec σ) : Prop :=
  y.2 ≤ d0 ∧ ∀ x, y.1 = .inl x → y.2.src.bits.length < d0.src.bits.length

theorem ends_more {d0 d : Dec σ} (hle : d ≤ d0) (node : BimNode) :
    EndsWith (Round d0) (fun _ => rd getFlag >>= fun more => pure (if more then .inl node else .inr node : BimNode ⊕ BimNode)) d := by
  refine EndsWith.bind (ends_rd_pos (fun _ _ _ => getFlag_pos) d) fun more d' hlt => ?_
  exact endsWith_const ⟨le_trans hlt.1 hle, fun _ _ => lt_of_lt_of_le hlt.2 hle.1⟩

theorem ends_rounds {β γ : Type} {body : Nat → β → DecM σ (β ⊕ γ)} {d : Dec σ}
    (h : ∀ x d', d' ≤ d → EndsWith (Round d') (fun n => body n x) d') (x : β) : Ends (fun n => Run.iterate (body n) n x) d :=
  ends_iterate (fun (_ : β) (d : Dec σ) => d.src.bits.length) h

section Schemas

variable (hwf : WellFounded g.Below)
include hwf

theorem ends_knownAttr (attrs : List Attr) (node : BimNode) (d : Dec σ) :
    EndsWith (Round d) (fun n => knownAttr g o n attrs node) d := by
  refine EndsWith.bind (ends_rd shrinks_getV5 d) fun code d1 h1 => endsWith_lift fun a _ => ?_
  refine EndsWith.bind (ends_decValueText o hwf a.simple d1) fun value d2 h2 => ?_
  refine EndsWith.bind (ends_addNodeAttr _ node d2) fun node d3 h3 => ?_
  exact ends_more (le_trans h3 (le_trans h2 h1)) node

theorem ends_schemaAttrs (id len : Nat) (node : BimNode) (d : Dec σ) : Ends (fun n => schemaAttrs g o n id len node) d := by
  simp only [schemaAttrs]
  refine ends_ite (fun _ => (ends_rd shrinks_getV5 d).bind fun count d' _ => ends_laxAttrs count node d') fun _ => ?_
  refine ends_ite (fun _ => ends_rounds (fun node d' _ => ends_knownAttr o hwf _ node d') node) fun _ => ?_
  exact (ends_rd (shrinks_skipBits len) d).bind fun _ d' _ => ends_pure node d'

theorem ends_anyAttrsRound (node : BimNode) (d : Dec σ) : EndsWith (Round d) (fun n => anyAttrsRound g o n node) d := by
  refine EndsWith.bind (ends_rd (shrinks_getSchemaId o) d) fun id d1 h1 => ?_
  refine EndsWith.bind (ends_rd shrinks_boxStart d1) fun box d2 h2 => ?_
  refine EndsWith.bind (ends_schemaAttrs o hwf id box.1 node d2) fun node d3 h3 => ?_
  refine endsWith_gets (endsWith_check fun _ => ?_)
  exact ends_more (le_trans h3 (le_trans h2 h1)) node

theorem ends_decAnyAttributes (node : BimNode) (d : Dec σ) : Ends (fun n => decAnyAttributes g o n node) d := by
  refine (ends_rd shrinks_getFlag d).bind fun present d' _ => ?_
  exact ends_ite (fun _ => ends_rounds (fun node d'' _ => ends_anyAttrsRound o hwf node d'') node) fun _ => ends_pure node d'

theorem ends_decodeAttrs (attrs : List Attr) (node : BimNode) (d : Dec σ) : Ends (fun n => decodeAttrs g o n attrs node) d := by
  induction attrs generalizing node d with
  | nil => exact ends_pure node d
  | cons a attrs ih =>
    refine (ends_rd (shrinks_optFlag _) d).bind fun present d1 _ => ?_
    refine ends_ite (fun _ => ?_) fun _ => ih node d1
    refine (ends_decValueText o hwf a.simple d1).bind fun value d2 _ => ?_
    exact (ends_addNodeAttr _ node d2).bind fun node d3 _ => ih node d3

/-! ## Content -/

theorem ends_mixedBefore (mixed : Bool) (node : BimNode) (d : Dec σ) : Ends (fun n => mixedBefore g o n mixed node) d := by
  refine ends_ite (fun _ => ?_) fun _ => ends_pure node d
  refine (ends_rd shrinks_getFlag d).bind fun present d1 _ => ?_
  refine ends_ite (fun _ => ?_) fun _ => ends_pure node d1
  refine (ends_gets Dec.schema d1).bind fun schema d2 _ => ?_
  exact (ends_decValueText o hwf _ d2).bind fun t d3 _ => ends_pure _ d3

end Schemas

theorem shrinks_occurrences (p : Part) : Shrinks (occurrences p) := by
  refine (shrinks_optFlag _).bind fun present => shrinks_ite (shrinks_pure 1) (shrinks_ite ?_ (shrinks_pure 0))
  exact (shrinks_getOffset _).bind fun _ => (shrinks_require _).bind fun _ => shrinks_pure _

/-- A decoder of content that ends at every decoder of one level. -/
def FillEnds (l : Nat) (f : Nat → Fill σ) : Prop := ∀ node (d : Dec σ), d.level = l → Ends (fun n => f n node) d

section Fills

variable {l : Nat}

theorem ends_occurLoop {one : Nat → Fill σ} (h : FillEnds l one) (count k : Nat) :
    FillEnds l fun n => occurLoop (one n) count k := by
  induction k with
  | zero => exact fun node d _ => ends_pure node d
  | succ k ih =>
    intro node d hd
    refine (ends_gets _ d).bind fun bits d1 h1 => (ends_gets _ d1).bind fun spos d2 h2 => ?_
    have hd2 : d2.level = l := h2.2.trans (h1.2.trans hd)
    refine (h node d2 hd2).bind fun node d3 h3 => (ends_gets _ d3).bind fun now d4 h4 => (ends_gets _ d4).bind fun pos d5 h5 => ?_
    refine (ends_check _ d5).bind fun _ d6 h6 => ih node d6 ?_
    exact h6.2.trans (h5.2.trans (h4.2.trans (h3.2.trans hd2)))

/-- A part ends if each of its occurrences does: there are finitely many of them, however large their number. -/
theorem ends_decodePart {one : Nat → Fill σ} (h : FillEnds l one) (p : Part) : FillEnds l fun n => decodePart p (one n) :=
  fun node d hd => (ends_rd (shrinks_occurrences p) d).bind fun count d' h' => ends_occurLoop h count count node d' (h'.2.trans hd)

variable {fs : List (Nat → Fill σ)}

theorem ends_decodeSeq (h : ∀ f ∈ fs, FillEnds l f) : FillEnds l fun n => decodeSeq (fs.map fun f => f n) := by
  induction fs with
  | nil => exact fun node d _ => ends_pure node d
  | cons f fs ih =>
    intro node d hd
    refine (h f mem_cons_self node d hd).bind fun node d' h' => ?_
    exact ih (fun f hf => h f (.tail _ hf)) node d' (h'.2.trans hd)

/-- The part at an index, one of the parts that the decoder of each depth has there. -/
theorem ends_fillAt (i : Nat) {k : Nat → Fill σ → DecM σ BimNode} {d : Dec σ}
    (hk : ∀ f ∈ fs, Ends (fun n => k n (f n)) d) : Ends (fun n => Run.lift (fs.map fun f => f n)[i]? >>= k n) d := by
  simp only [getElem?_map]
  cases hf : fs[i]? with
  | none => exact ends_fail d
  | some f => exact hk f (mem_of_getElem? hf)

theorem ends_decodeChoice (h : ∀ f ∈ fs, FillEnds l f) : FillEnds l fun n => decodeChoice (fs.map fun f => f n) := by
  intro node d hd
  simp only [decodeChoice, length_map]
  refine (ends_rd (shrinks_getBits _) d).bind fun i d' h' => ?_
  exact ends_fillAt i fun f hf => h f hf node d' (h'.2.trans hd)

theorem shrinks_allIndex (n : Nat) : Shrinks (allIndex n) :=
  shrinks_ite ((shrinks_getBits _).bind fun _ => (shrinks_require _).bind fun _ => shrinks_pure _) (shrinks_pure 0)

theorem ends_decodeAllLoop (k : Nat) (h : ∀ f ∈ fs, FillEnds l f) : FillEnds l fun n => decodeAllLoop k (fs.map fun f => f n) := by
  induction k generalizing fs with
  | zero => exact fun node d _ => ends_pure node d
  | succ k ih =>
    intro node d hd
    refine (ends_rd (shrinks_allIndex _) d).bind fun c d1 h1 => ends_fillAt c fun f hf => ?_
    refine (h f hf node d1 (h1.2.trans hd)).bind fun node d2 h2 => ?_
    have hrest := @ih (fs.eraseIdx c) (fun f hf => h f (mem_of_mem_eraseIdx hf)) node d2 (h2.2.trans (h1.2.trans hd))
    simpa only [eraseIdx_map] using hrest

theorem ends_decodeAll (h : ∀ f ∈ fs, FillEnds l f) : FillEnds l fun n => decodeAll (fs.map fun f => f n) := by
  intro node d hd
  simp only [decodeAll, length_map]
  exact (ends_check _ d).bind fun _ d' h' => ends_decodeAllLoop _ h node d' (h'.2.trans hd)

end Fills

/-! ## Children -/

/-- The elements below level `l` end. -/
def Below (elem : Nat → ElemDec σ) (l : Nat) : Prop :=
  ∀ d : Dec σ, d.level = l + 1 → d.level ≤ elemDepthMax → ∀ p t k, Ends (fun n => elem n p t k) d

variable (d : Dec σ)

theorem ends_enter : EndsWith (fun y => y.2.src.bits.length ≤ d.src.bits.length ∧ y.2.level = d.level + 1 ∧
    y.2.level ≤ elemDepthMax) (fun _ => enter) d := by
  refine endsWith_gets (endsWith_check fun hroom => endsWith_const ?_)
  simp only [Bool.and_eq_true, decide_eq_true_eq] at hroom
  exact ⟨le_rfl, rfl, hroom.2⟩

theorem decoders_eq (dec : ElemDec σ) (n : Nat) (mixed : Bool) (ps : List Part) :
    decoders g o dec n mixed ps = ps.map fun p => decodePart p (decodeOne g o dec n mixed p) := by
  induction ps with
  | nil => rfl
  | cons p ps ih => rw [decoders, ih, map_cons]

/-- The decoders of the parts, at every depth. -/
def fills (g : Graph) (o : DecodeOpts σ) (elem : Nat → ElemDec σ) (mixed : Bool) (ps : List Part) : List (Nat → Fill σ) :=
  ps.map fun p n => decodePart p (decodeOne g o (elem n) n mixed p)

theorem decoders_fills (elem : Nat → ElemDec σ) (n : Nat) (mixed : Bool) (ps : List Part) :
    decoders g o (elem n) n mixed ps = (fills g o elem mixed ps).map fun f => f n := by
  rw [decoders_eq, fills, map_map]
  rfl

section Children

variable {elem : Nat → ElemDec σ} {l : Nat} (hbelow : Below elem l)
include hbelow

/-- A child is one level deeper, and the level is the same again behind it. -/
theorem ends_decAddChild (p : Option ElemPart) (t : Option TypeRef) (name : CStr) (ns : Option CStr) :
    FillEnds l fun n node => decAddChild (elem n) node p t name ns := by
  intro node d hd
  refine EndsWith.bind (ends_enter d) fun _ d1 h1 => ?_
  obtain ⟨hbits, hlevel, hroom⟩ : d1.src.bits.length ≤ d.src.bits.length ∧ d1.level = d.level + 1 ∧ d1.level ≤ elemDepthMax := h1
  refine EndsWith.bind (hbelow d1 (by rw [hlevel, hd]) hroom p t _) fun k d2 h2 => endsWith_modify ?_
  refine endsWith_const ⟨le_trans h2.1 hbits, ?_⟩
  show d2.level - 1 = d.level
  have hsame : d2.level = d1.level := h2.2
  omega

theorem ends_decAnyElement : FillEnds l fun n node => decAnyElement g o (elem n) node := by
  intro node d hd
  refine (ends_rd (shrinks_getSchemaId o) d).bind fun id d1 h1 => (ends_rd shrinks_boxStart d1).bind fun box d2 h2 => ?_
  have hd2 : d2.level = l := h2.2.trans (h1.2.trans hd)
  refine ends_ite (fun _ => ?_) fun _ => ends_ite (fun _ => ?_) fun _ => ?_
  · have hlax : Shrinks (laxElement o box.1 node) := by
      intro s a s' h
      obtain ⟨x, -, hx⟩ := Option.map_eq_some_iff.1 h
      exact (congrArg length (Prod.mk.inj hx).2).ge
    exact (ends_rd hlax d2).bind fun node d3 _ => (ends_rd (shrinks_skipBits _) d3).bind fun _ d4 _ => ends_pure node d4
  · have hknown : Ends (fun n => knownElement g o (elem n) id node) d2 := by
      refine (ends_rd shrinks_getV5 d2).bind fun code d3 h3 => endsWith_lift fun r _ => ?_
      refine (ends_gets Dec.schema d3).bind fun schema d4 h4 => (ends_modify (le_refl d4)).bind fun _ d5 h5 => ?_
      have hd5 : d5.level = l := h5.2.trans (h4.2.trans (h3.2.trans hd2))
      refine (ends_decAddChild hbelow none _ _ _ node d5 hd5).bind fun node d6 _ => ?_
      exact (ends_modify (le_refl d6)).bind fun _ d7 _ => ends_pure node d7
    refine hknown.bind fun node d3 _ => (ends_gets _ d3).bind fun now d4 _ => ?_
    exact (ends_check _ d4).bind fun _ d5 _ => ends_pure node d5
  · exact (ends_rd (shrinks_skipBits _) d2).bind fun _ d3 _ => ends_pure node d3

variable (hwf : WellFounded g.Below)
include hwf

omit hbelow in
theorem ends_withMixed {f : Nat → Fill σ} (h : FillEnds l f) (mixed : Bool) :
    FillEnds l fun n node => mixedBefore g o n mixed node >>= f n := fun node d hd =>
  (ends_mixedBefore o hwf mixed node d).bind fun node d' h' => h node d' (h'.2.trans hd)

end Children

mutual

theorem ends_decodeOne {elem : Nat → ElemDec σ} {l : Nat} (hbelow : Below elem l) (hwf : WellFounded g.Below) (mixed : Bool) :
    ∀ p : Part, FillEnds l fun n => decodeOne g o (elem n) n mixed p
  | .elem e _ _ => ends_withMixed o hwf (ends_decAddChild hbelow (some e) e.type e.name e.ns) mixed
  | .any _ _ _ => ends_withMixed o hwf (ends_decAnyElement o hbelow) mixed
  | .seq kids _ _ => by
    simp only [decodeOne, decoders_fills]
    exact ends_decodeSeq (ends_fills hbelow hwf mixed kids)
  | .choice kids _ _ => by
    simp only [decodeOne, decoders_fills]
    exact ends_decodeChoice (ends_fills hbelow hwf mixed kids)
  | .all kids _ _ => by
    simp only [decodeOne, decoders_fills]
    exact ends_decodeAll (ends_fills hbelow hwf mixed kids)

theorem ends_fills {elem : Nat → ElemDec σ} {l : Nat} (hbelow : Below elem l) (hwf : WellFounded g.Below) (mixed : Bool) :
    ∀ ps : List Part, ∀ f ∈ fills g o elem mixed ps, FillEnds l f
  | [], _, hf => absurd hf (by simp [fills])
  | p :: ps, f, hf => by
    rcases mem_cons.1 hf with rfl | hf
    · exact ends_decodePart (ends_decodeOne hbelow hwf mixed p) p
    · exact ends_fills hbelow hwf mixed ps f hf

end

/-! ## Elements -/

section Elements

variable {elem : Nat → ElemDec σ} {l : Nat} (hbelow : Below elem l) (hwf : WellFounded g.Below)
include hbelow hwf

theorem ends_decodeContent (t : BimType) : FillEnds l fun n node => decodeContent g o (elem n) n t node := by
  intro node d hd
  unfold decodeContent
  cases t.content with
  | seq =>
    cases t.top with
    | none => exact ends_pure node d
    | some p => exact ends_decodePart (ends_decodeOne o hbelow hwf t.mixed p) p node d hd
  | _ => exact ends_pure node d

theorem ends_decodeRest (t : BimType) : FillEnds l fun n node => decodeRest g o (elem n) n t node := by
  intro node d hd
  have hcontent : Ends (fun n => decodeContent g o (elem n) n t node >>= mixedBefore g o n t.mixed) d :=
    (ends_decodeContent o hbelow hwf t node d hd).bind fun node d' _ => ends_mixedBefore o hwf t.mixed node d'
  unfold decodeRest
  cases t.content with
  | simple s => exact (ends_decValueText o hwf s d).bind fun v d' _ => ends_pure _ d'
  | none => exact hcontent
  | seq => exact hcontent

theorem ends_decodeBody (t : TypeRef) : FillEnds l fun n node => decodeBody g o (elem n) n t node := by
  intro node d hd
  refine (ends_decodeAttrs o hwf _ node d).bind fun node d1 h1 => ?_
  have hany : Ends (fun n => anyAttributes g o n (g.types t).anyattr node) d1 :=
    ends_ite (fun _ => ends_decAnyAttributes o hwf node d1) fun _ => ends_pure node d1
  refine hany.bind fun node d2 h2 => ?_
  exact ends_decodeRest o hbelow hwf _ node d2 (h2.2.trans (h1.2.trans hd))

end Elements

theorem shrinks_typeCode (nsubs : Nat) (flag nillable : Bool) : Shrinks (typeCode m nsubs flag nillable) :=
  (shrinks_optFlag _).bind fun _ => shrinks_ite (shrinks_pure _)
    ((shrinks_getBits _).bind fun _ => (shrinks_require _).bind fun _ => shrinks_pure _)

theorem ends_substCode (p : Option ElemPart) (d : Dec σ) : Ends (fun _ => substCode g o p) d := by
  have hgroup : ∀ substs, Shrinks (groupMember substs) := fun _ =>
    (shrinks_require _).bind fun _ => (shrinks_getBits _).bind fun _ => shrinks_lift _
  have hextern : Shrinks (externalElem o) :=
    (shrinks_getBits _).bind fun _ => (shrinks_require _).bind fun _ => (shrinks_getBits _).bind fun _ => shrinks_lift _
  have hmember : ∀ ext substs, Shrinks (substMember o ext substs) := fun _ _ =>
    (shrinks_rflag _).bind fun _ => shrinks_ite hextern (hgroup _)
  have hsubst : ∀ e ext, Shrinks (substOf g o e ext) := fun _ _ => shrinks_ite (shrinks_pure _)
    (shrinks_getFlag.bind fun _ => shrinks_ite ((hmember _ _).bind fun _ => shrinks_pure _) (shrinks_pure _))
  have hext : ∀ (e : ElemRef) (d : Dec σ), Ends (fun _ => extSubst o e) d := by
    intro e d
    unfold extSubst
    cases o.extSubst with
    | none => exact ends_pure false d
    | some f => exact endsWith_const (le_refl d)
  unfold substCode
  cases p.bind ElemPart.elem with
  | none => exact ends_pure none d
  | some e => exact (hext e d).bind fun ext d' _ => ends_rd (hsubst e ext) d'

theorem ends_setNil (k : BimNode) (d : Dec σ) : Ends (fun _ => setNil k) d := ends_addNodeAttr _ k d

theorem ends_settleUnlessTop (top : Bool) (p : Option ElemPart) (t : Option TypeRef) (k : BimNode) (d : Dec σ) :
    Ends (fun _ => settleUnlessTop g o m top p t k) d := by
  have hcode : ∀ t nillable (d : Dec σ), Ends (fun _ => castCode o m t nillable) d := fun t nillable d => by
    refine (ends_gets Dec.schema d).bind fun schema d1 _ => ?_
    exact ends_ite (fun _ => (ends_rd (shrinks_typeCode m _ true nillable) d1).bind fun code d2 _ => ends_pure _ d2) fun _ =>
      ends_pure _ d1
  have hcast : ∀ (k : BimNode) t x (d : Dec σ), Ends (fun _ => castTo k t x) d := fun k t x d => by
    obtain ⟨s, code⟩ := x
    cases code with
    | sub i => exact (ends_lift _ d).bind fun t d' _ => ends_pure _ d'
    | _ => exact ends_pure _ d
  refine ends_ite (fun _ => ends_pure _ d) fun _ => ?_
  exact (ends_substCode o p d).bind fun sub d1 _ => (hcode _ _ d1).bind fun code d2 _ => hcast _ _ code d2

theorem ends_dropZbuf (boxed : Bool) (d : Dec σ) : Ends (fun _ => dropZbuf o boxed) d :=
  ends_ite (fun _ => ends_modify (le_refl d)) fun _ => ends_pure () d

theorem ends_stringResync : Ends (fun _ => stringResync o) d :=
  ends_ite (fun _ => ends_pure () d) fun _ => ends_modify (le_refl d)

theorem shrinks_monoLength : Shrinks (monoLength m) :=
  shrinks_ite (shrinks_getFlag.bind fun _ => shrinks_optRd _ shrinks_getV5) (shrinks_optRd _ shrinks_getV5)

section Elements

variable {elem : Nat → ElemDec σ} {l : Nat} (hbelow : Below elem l) (hwf : WellFounded g.Below)
include hbelow hwf

theorem ends_monoBody (x : Settled) (d : Dec σ) (hd : d.level = l) : Ends (fun n => monoBody g o (elem n) n x) d := by
  have hbody : Ends (fun n => Run.lift x.type >>= fun t => decodeBody g o (elem n) n t x.node) d :=
    endsWith_lift fun t _ => ends_decodeBody o hbelow hwf t x.node d hd
  unfold monoBody
  cases x.code with
  | deferred => exact ends_pure _ d
  | nil => exact ends_setNil _ d
  | _ => exact hbody

theorem ends_decodeMono (top : Bool) (p : Option ElemPart) (t : Option TypeRef) (k : BimNode) (d : Dec σ) (hd : d.level = l) :
    Ends (fun n => decodeMono g o m (elem n) n top p t k) d := by
  refine (ends_rd (shrinks_monoLength m) d).bind fun len d1 h1 => (ends_gets _ d1).bind fun start d2 h2 => ?_
  refine (ends_settleUnlessTop o m top p t k d2).bind fun x d3 h3 => (ends_dropZbuf o _ d3).bind fun _ d4 h4 => ?_
  have hd4 : d4.level = l := h4.2.trans (h3.2.trans (h2.2.trans (h1.2.trans hd)))
  refine (ends_monoBody o hbelow hwf x d4 hd4).bind fun node d5 _ => ?_
  have hlen : Ends (fun _ => checkLength o start len) d5 := by
    cases len with
    | none => exact ends_pure () d5
    | some len =>
      refine (ends_gets _ d5).bind fun now d6 _ => (ends_check _ d6).bind fun _ d7 _ => ?_
      exact (ends_dropZbuf o true d7).bind fun _ d8 _ => ends_stringResync o d8
  exact hlen.bind fun _ d6 _ => ends_pure _ d6

theorem ends_multiChunk (id : Nat) (x : Multi) (d : Dec σ) (hd : d.level = l) :
    Ends (fun n => multiChunk g o m (elem n) n id x) d := by
  refine (ends_modify (le_refl d)).bind fun _ d1 h1 => (ends_rd (shrinks_typeCode m _ _ _) d1).bind fun code d2 h2 => ?_
  have hd2 : d2.level = l := h2.2.trans (h1.2.trans hd)
  have hcontent : ∀ b, Ends (fun n => chunkContent g o (elem n) n x.node b) d2 := fun b => by
    cases b with
    | none => exact ends_pure _ d2
    | some t => exact endsWith_lift fun t _ => ends_decodeBody o hbelow hwf t x.node d2 hd2
  cases code with
  | nil => exact (ends_setNil _ d2).bind fun node d3 _ => ends_pure _ d3
  | deferred => exact ends_pure _ d2
  | unchanged => exact (hcontent _).bind fun node d3 _ => ends_pure _ d3
  | sub i => exact (hcontent _).bind fun node d3 _ => (ends_lift _ d3).bind fun t d4 _ => ends_pure _ d4

end Elements

theorem one_le_bimWidth {n : Nat} (hn : n > 1) : 1 ≤ bimWidth n := by
  have hstep : bimWidthFrom n 0 = bimWidthFrom n 1 := by
    rw [bimWidthFrom, if_pos ⟨by decide, by simpa using hn⟩]
  rw [bimWidth, hstep]
  exact le_bimWidthFrom n 1

theorem shrinks_skipChunks (len taken : Nat) : Shrinks (skipChunks len taken) := shrinks_skipBits _

theorem getSchemaId_pos (hs : o.nschemas > 1) {s s' : List Bool} {id : Nat} (h : getSchemaId o s = some (id, s')) :
    s'.length < s.length := by
  obtain ⟨⟨v, s1⟩, hv, h⟩ := Option.bind_eq_some_iff.1 h
  have hlen := length_of_getBits hv
  have hrest : s'.length ≤ s1.length := ((shrinks_require _).bind fun _ => shrinks_pure v) s1 id s' h
  have hwidth := one_le_bimWidth hs
  omega

theorem ends_left : Ends (fun _ => left) d := ends_gets _ d

theorem ends_skipRest (len start : Nat) (d : Dec σ) : Ends (fun _ => skipRest len start) d :=
  (ends_left d).bind fun now d' _ => ends_rd (shrinks_skipChunks len (start - now)) d'

section Elements

variable {elem : Nat → ElemDec σ} {l : Nat} (hbelow : Below elem l) (hwf : WellFounded g.Below)
include hbelow hwf

theorem ends_nextChunk (len start id : Nat) (x : Multi) (d : Dec σ) (hd : d.level = l) :
    Ends (fun n => nextChunk g o m (elem n) n len start id x) d := by
  refine ends_ite (fun _ => ?_) fun _ => ?_
  · exact (ends_skipRest len start d).bind fun _ d' _ => ends_pure _ d'
  · exact (ends_multiChunk o m hbelow hwf id x d hd).bind fun x d' _ => ends_pure _ d'

theorem ends_multiRound (hs : o.nschemas > 1) (len start : Nat) (x : Multi) (d : Dec σ) (hd : d.level = l) :
    EndsWith (Round d) (fun n => multiRound g o m (elem n) n len start x) d := by
  refine EndsWith.bind (ends_left d) fun now d1 h1 => ?_
  by_cases hmore : start - now < len
  · simp only [if_pos hmore]
    refine EndsWith.bind (ends_rd_pos (fun _ _ _ => getSchemaId_pos o hs) d1) fun id d2 h2 => ?_
    refine (ends_nextChunk o m hbelow hwf len start id x d2 (h2.1.2.trans (h1.2.trans hd))).mono fun y hy => ?_
    exact ⟨le_trans hy (le_trans h2.1 h1), fun _ _ => lt_of_le_of_lt hy.1 (lt_of_lt_of_le h2.2 h1.1)⟩
  · simp only [if_neg hmore]
    exact endsWith_const ⟨h1, fun _ h => absurd h (by simp)⟩

theorem ends_decodeMulti (hs : o.nschemas > 1) (p : Option ElemPart) (t : Option TypeRef) (k : BimNode) (d : Dec σ)
    (hd : d.level = l) : Ends (fun n => decodeMulti g o m (elem n) n p t k) d := by
  have hsubst : ∀ x coded, Shrinks (multiSubst g o x coded) := fun x coded => by
    refine shrinks_ite ((shrinks_getSchemaId o).bind fun id => shrinks_getV5.bind fun code => ?_) (shrinks_pure x)
    split
    · exact shrinks_pure x
    · exact shrinks_pure _
  refine (ends_gets Dec.schema d).bind fun schema d1 h1 => (ends_rd shrinks_boxStart d1).bind fun box d2 h2 => ?_
  refine (ends_rd shrinks_getFlag d2).bind fun coded d3 h3 => (ends_rd (hsubst _ coded) d3).bind fun x d4 h4 => ?_
  have hd4 : d4.level = l := h4.2.trans (h3.2.trans (h2.2.trans (h1.2.trans hd)))
  refine Ends.bind (ends_rounds (fun x d' h' => ends_multiRound o m hbelow hwf hs _ _ x d' (h'.2.trans hd4)) x) fun x d5 _ => ?_
  refine (ends_gets _ d5).bind fun now d6 _ => (ends_check _ d6).bind fun _ d7 _ => ?_
  exact (ends_modify (le_refl d7)).bind fun _ d8 _ => (ends_stringResync o d8).bind fun _ d9 _ => ends_pure _ d9

theorem ends_elementStep (top : Bool) (p : Option ElemPart) (t : Option TypeRef) (k : BimNode) (d : Dec σ) (hd : d.level = l) :
    Ends (fun n => elementStep g o m (elem n) n top p t k) d := by
  have hfreeze : ∀ frozen (d : Dec σ), Ends (fun _ => freeze frozen) d := fun frozen d =>
    ends_ite (fun _ => ends_modify (le_refl d)) fun _ => ends_pure () d
  have hmode : Shrinks schemaMode := shrinks_getFlag.bind fun _ => (shrinks_rflag _).bind fun _ =>
    (shrinks_rflag _).bind fun _ => shrinks_pure _
  refine (ends_gets Dec.hot d).bind fun hot d1 h1 => ?_
  -- only with several schemas there are elements of several chunks
  refine EndsWith.bind (Q := fun y => y.2 ≤ d1 ∧ (y.1 = true → o.nschemas > 1)) (m := fun _ => elementMode o) ?_ fun multi d2 h2 => ?_
  · refine endsWith_gets ?_
    by_cases hseveral : o.nschemas > 1 ∧ d1.hot ∧ !o.noSchemaMode
    · simp only [if_pos hseveral]
      refine EndsWith.bind (ends_rd hmode d1) fun x d3 h3 => EndsWith.bind (hfreeze x.2 d3) fun _ d4 h4 => ?_
      exact endsWith_const ⟨le_trans h4 h3, fun _ => hseveral.1⟩
    · simp only [if_neg hseveral]
      exact endsWith_const ⟨le_refl d1, nofun⟩
  have hd2 : d2.level = l := h2.1.2.trans (h1.2.trans hd)
  have hin : Ends (fun n => elementIn g o m (elem n) multi n top p t k) d2 :=
    ends_ite (fun hmulti => ends_decodeMulti o m hbelow hwf (h2.2 hmulti) p t k d2 hd2) fun _ =>
      ends_decodeMono o m hbelow hwf top p t k d2 hd2
  refine (hin.bind fun x d3 _ => (ends_modify (le_refl d3)).bind fun _ d4 _ => ends_pure x d4).mono fun _ hle => ?_
  exact le_trans hle h2.1

end Elements

end DvbIpiTools.Bim
