import DvbIpiTools.Bim.Fuu.ContextChain
import DvbIpiTools.Bim.Fuu.Positions

set_option autoImplicit false

/-! # Positions stay consistent

Below every node of the document the positions of the children are in order, once they are set. The
ordered insert does not keep that for every document: it stops at the first child that sorts after
the new one by SBC index, and in a document whose children are not sorted by SBC index (substituted
elements have none) such a child can stand before siblings of the new one. `RowMeets` is the
condition under which an update goes well; it is stated where the update looks a child up, on the
document as it is then. -/

namespace DvbIpiTools.Bim.Fuu

open StateTriple List

/-- Below every node of `t` the positions are in order; `τ` says which nodes have one space for all
their children. -/
def PosInv (τ : NodeId → Bool) (t : Node) : Prop := ∀ m, IdTree.Sub m t → Placed (τ m.id) m.kids

/-- `PosInv` of the document. -/
def Good (τ : NodeId → Bool) (s : FuuState) : Prop := ∀ doc, s.doc = some doc → PosInv τ doc

variable {τ : NodeId → Bool} {m : Node}

theorem PosInv.sub {t : Node} (h : PosInv τ t) (hm : IdTree.Sub m t) : PosInv τ m :=
  fun x hx => h x (hx.trans hm)

theorem posInv_node {i : NodeId} {v : NodeData} {ks : List Node} (h : Placed (τ i) ks)
    (hks : ∀ k ∈ ks, PosInv τ k) : PosInv τ (.node i v ks) := by
  intro x hx
  cases hx with
  | refl => exact h
  | kid hk hs => exact hks _ hk x hs

variable {m' : Node}

theorem PosInv.of_root (h : PosInv τ m) (hid : m'.id = m.id) (hkids : m'.kids = m.kids) : PosInv τ m' := by
  cases m with
  | node i v ks =>
    cases m' with
    | node i' v' ks' =>
      obtain rfl : i' = i := hid
      obtain rfl : ks' = ks := hkids
      exact posInv_node (h _ .refl) fun k hk => h.sub (.kid hk .refl)

variable {doc : Node}

theorem PosInv.set (h : PosInv τ doc) (hu : doc.Unique) (hm : IdTree.Sub m doc)
    (hkey : posKey m'.val = posKey m.val) (hm' : PosInv τ m') : PosInv τ (IdTree.set m.id m' doc) := by
  intro x hx
  rcases IdTree.sub_set_cases hx with hin | ⟨y, hy, hid, hkids⟩
  · exact hm' x hin
  rw [hid, hkids]
  refine (h y hy).congr ?_
  rw [map_map]
  apply map_congr_left
  intro k hk
  show posKey k.val = posKey (IdTree.set m.id m' k).val
  by_cases hroot : k.id = m.id
  · obtain rfl := hu.eq_of_id_eq ((IdTree.Sub.kid hk .refl).trans hy) hm hroot
    rw [IdTree.set_self, hkey]
  · rw [IdTree.set_of_ne m' hroot]
    rfl

theorem posInv_materialized {env : Env} {pt : TypeRef} (h : PosInv τ m) (hmpc : usesMpc env pt = τ m.id)
    (hsmall : env.di.insert = true → m.kids.length < 2 ^ 31) : PosInv τ (materialized env pt m) := by
  refine posInv_node ⟨.inl posSet_withPositions, fun _ => ?_⟩ fun k hk => ?_
  · rw [hmpc]
    exact ordered_withPositions hsmall (h m .refl)
  · obtain ⟨i, hi, rfl⟩ := mem_mapIdx.1 hk
    have hkid : PosInv τ m.kids[i] := h.sub (.kid (getElem_mem hi) .refl)
    exact hkid.of_root (id_withPos ..) (kids_withPos ..)

mutual

theorem posInv_label : ∀ (t : BimNode) (n : Nat), PosInv τ (label t n).1 ∧ (label t n).1.val.posSet = false
  | .mk name ns text attrs kids _ _, n => by
    rw [label]
    refine ⟨posInv_node (placed_of_unset ?_) ?_, rfl⟩
    · exact fun k hk => (posInv_labelKids kids (n + 1) k hk).2
    · exact fun k hk => (posInv_labelKids kids (n + 1) k hk).1

theorem posInv_labelKids : ∀ (ts : List BimNode) (n : Nat), ∀ k ∈ (labelKids ts n).1, PosInv τ k ∧ k.val.posSet = false
  | [], n => by simp [labelKids]
  | t :: ts, n => by
    rw [labelKids, forall_mem_cons]
    exact ⟨posInv_label t n, posInv_labelKids ts (label t n).2⟩

end

/-! ## The condition -/

/-- What a lookup of `t` below `p` needs. `place` gives the children among which a node will be put,
if one will be. -/
structure AccessOk (env : Env) (τ : NodeId → Bool) (place : Lookup → List Node → Option (List Node))
    (p : NodeId) (pt : TypeRef) (t : Tbc) (pos : Nat) (s : FuuState) : Prop where
  /-- The node is addressed under types that agree on the position spaces. -/
  mpc_eq : usesMpc env pt = τ p
  /-- With one space for all children every TBC has a position. -/
  has_pos : τ p = true → t.hasPos = true
  /-- `nkids` is an `int`. -/
  small : env.di.insert = true → ∀ doc m, s.doc = some doc → doc.find? p = some m → m.kids.length < 2 ^ 31
  /-- No child that sorts after the new one stands before a sibling it has to follow. -/
  fits : ∀ doc m, s.doc = some doc → doc.find? p = some m → ∀ left,
    place (lookup (usesMpc env pt) t pos 0 (materialized env pt m).kids) (materialized env pt m).kids =
      some left → InsertFits (env.types pt) (usesMpc env pt) (added t pos) left

/-- A context node is put in where AddContent finds none. -/
def contextPlace (cmd : Command) (r : Lookup) (kids : List Node) : Option (List Node) :=
  if cmd = .add ∧ r = .absent then some kids else none

/-- The payload is named as the operand TBC; character data has no name. -/
def NamedAs (op : Tbc) (row : Row) : Prop :=
  if op.kind = .chardata then op.name = none
  else ∀ k, row.payload = some k → nameKey k.name k.ns = nameKey op.name op.ns

/-- The condition at a context TBC. -/
def StepMeets (env : Env) (τ : NodeId → Bool) (cmd : Command) (chain : Chain) (t : Tbc) (pos : Nat)
    (s : FuuState) : Prop := t.kind ≠ .pathEnd → t.kind ≠ .parent → ∀ p pt, chain.getLast? = some (p, pt) →
    AccessOk env τ (contextPlace cmd) p pt t pos s

/-- The condition at the operand TBC. -/
def OperandMeets (env : Env) (τ : NodeId → Bool) (cmd : Command) (op : Tbc) (row : Row)
    (chain : Chain) (s : FuuState) : Prop :=
  op.kind ≠ .attr → op.kind ≠ .simple → ∀ p pt, chain.getLast? = some (p, pt) →
    AccessOk env τ (operandPlace cmd) p pt op (operandPos op row) s ∧ NamedAs op row

/-- The condition along a context path, and `K` at its end. -/
def PathMeets (env : Env) (τ : NodeId → Bool) (cmd : Command) (K : Chain → FuuState → Prop) :
    List (Tbc × Nat) → Chain → FuuState → Prop
  | [], chain, s => K chain s
  | (t, pos) :: rest, chain, s =>
    StepMeets env τ cmd chain t pos s ∧ ∀ chain' s', descendStep env cmd chain t pos s = .ok chain' s' →
        PathMeets env τ cmd K rest chain' s'

/-- The condition for one payload of a FUU, on the state before it is applied. -/
def RowMeets (env : Env) (τ : NodeId → Bool) (f : BimFuu) (row : Row) (s : FuuState) : Prop :=
  ∀ first op, f.tbcs.head? = some first → f.tbcs.getLast? = some op → if f.relative then
      PathMeets env τ f.command (OperandMeets env τ f.command op row) (f.steps row) s.ctx s
    else
      first.kind ≠ .pathEnd → ∀ root s', descendRoot f.command first s = .ok root s' →
        PathMeets env τ f.command (OperandMeets env τ f.command op row) ((f.steps row).drop 1)
          [(root, first.type)] s'

/-! ## Every step keeps the order -/

theorem good_put {s : FuuState} {next : Nat} (h : PosInv τ doc) (hu : doc.Unique) (hm : IdTree.Sub m doc)
    (hkey : posKey m'.val = posKey m.val) (hm' : PosInv τ m') : Good τ (putNode s doc m.id m' next) := by
  intro d hd
  obtain rfl : IdTree.set m.id m' doc = d := Option.some.inj hd
  exact h.set hu hm hkey hm'

variable {m1 : Node} {left : List Node}

theorem posInv_sublist (h : PosInv τ m1) (hid : m1.id = m.id) (hset : ∀ k ∈ m1.kids, k.val.posSet = true)
    (hleft : left.Sublist m1.kids) : PosInv τ (withKids m left) := by
  refine posInv_node ⟨.inl fun k hk => hset k (hleft.subset hk), fun _ => ?_⟩ fun k hk => ?_
  · rw [← hid]
    exact ((h m1 .refl).ordered hset).sublist hleft
  · exact h.sub (.kid (hleft.subset hk) .refl)

theorem posInv_insertKid {k : Node} {pt : BimType} (h : PosInv τ m1) (hid : m1.id = m.id)
    (hset : ∀ k ∈ m1.kids, k.val.posSet = true) (hleft : left.Sublist m1.kids) (hk : PosInv τ k)
    (hkset : k.val.posSet = true)
    (hfree : ∀ o ∈ left, sameSpace (τ m.id) o.val k.val = true → o.val.pos ≠ k.val.pos)
    (hfits : InsertFits pt (τ m.id) k.val left) : PosInv τ (withKids m (insertKid pt (τ m.id) k left)) := by
  have hmem : ∀ x, x ∈ insertKid pt (τ m.id) k left → x = k ∨ x ∈ m1.kids := by
    intro x hx
    exact (mem_cons.1 ((insertKid_perm _ _ _ _).mem_iff.1 hx)).imp_right fun hx => hleft.subset hx
  refine posInv_node ⟨.inl fun x hx => ?_, fun _ => ?_⟩ fun x hx => ?_
  · rcases hmem x hx with rfl | hx
    · exact hkset
    · exact hset x hx
  · refine ordered_insertKid ?_ hfree hfits
    rw [← hid]
    exact ((h m1 .refl).ordered hset).sublist hleft
  · rcases hmem x hx with rfl | hx
    · exact hk
    · exact h.sub (.kid hx .refl)

section

variable {env : Env} {cmd : Command} {s : FuuState} {c chain : Chain} {p : NodeId} {pt : TypeRef} {doc : Node}

theorem contextChild_good {t : Tbc} {pos : Nat} (hw : Walk (c ++ [(p, pt)]) s doc)
    (hg : Good τ s) (hok : AccessOk env τ (contextPlace cmd) p pt t pos s) :
    Good τ (stateAfter (contextChild env cmd p pt t pos) s) := by
  obtain ⟨m, hm, rfl, hfind⟩ := hw.last
  have hd := hw.live.doc_eq
  have hinv := hg doc hd
  have hmat : PosInv τ (materialized env pt m) :=
    posInv_materialized (hinv.sub hm) hok.mpc_eq fun h => hok.small h doc m hd hfind
  have hset : ∀ k ∈ (materialized env pt m).kids, k.val.posSet = true := posSet_withPositions
  have hput : Good τ (putNode s doc m.id (materialized env pt m) s.next) :=
    good_put hinv hw.live.unique hm rfl hmat
  rcases contextChild_cases env cmd pt t pos hd hfind with
    ⟨e, hrun⟩ | ⟨i, k, -, hrun⟩ | ⟨j, k, hadd, rfl, habs, -, hrun⟩
  · rw [stateAfter, hrun]
    exact hput
  · rw [stateAfter, hrun]
    exact hput
  · rw [stateAfter, hrun]
    have hfits := hok.fits doc m hd hfind _ (if_pos ⟨hadd, habs⟩)
    rw [hok.mpc_eq] at hfits habs ⊢
    refine good_put hinv hw.live.unique hm rfl (posInv_insertKid hmat rfl hset (Sublist.refl _)
      ?_ rfl (absent_free hok.has_pos habs) hfits)
    exact posInv_node (placed_of_unset nofun)
      nofun

variable {n next : Nat} {k : Node}

theorem IsOperand.posInv {op : Tbc} {row : Row} (h : IsOperand op row n next k) : PosInv τ k := by
  rcases h with ⟨-, rfl, -⟩ | ⟨-, t, -, rfl, -⟩
  · exact posInv_node (placed_of_unset nofun)
      nofun
  · exact (posInv_label t n).1

theorem IsOperand.nameKey {op : Tbc} {row : Row} (h : IsOperand op row n next k) (hnamed : NamedAs op row) :
    nameKey k.val.name k.val.ns = nameKey op.name op.ns := by
  unfold NamedAs at hnamed
  rcases h with ⟨hkind, rfl, -⟩ | ⟨hkind, ⟨name, ns, text, attrs, kids, cast, deferred⟩, ht, rfl, -⟩
  · rw [if_pos hkind] at hnamed
    rw [hnamed]
    rfl
  · rw [if_neg hkind] at hnamed
    rw [← hnamed _ ht, label]
    rfl

theorem placed_fields (pos : Nat) (k : Node) :
    (placed pos k).val = { k.val with pos, posSet := true } ∧ (placed pos k).id = k.id ∧
      (placed pos k).kids = k.kids := by
  cases k with
  | node i d ks => exact ⟨rfl, rfl, rfl⟩

theorem added_operandPos (op : Tbc) (row : Row) : (added op (operandPos op row)).pos = operandPos op row := by
  show (if op.hasPos then operandPos op row else 0) = operandPos op row
  by_cases h : op.hasPos = true
  · rw [if_pos h]
  · rw [if_neg h, operandPos, if_neg h]

theorem opChild_good {op : Tbc} {row : Row} (hw : Walk (c ++ [(p, pt)]) s doc)
    (hg : Good τ s) (hrow : cmd ≠ .delete → op.kind ≠ .chardata → row.payload.isSome)
    (hok : AccessOk env τ (operandPlace cmd) p pt op (operandPos op row) s) (hnamed : NamedAs op row) :
    Good τ (stateAfter (opChild env cmd op row p pt) s) := by
  obtain ⟨m, hm, rfl, hfind⟩ := hw.last
  have hd := hw.live.doc_eq
  have hinv := hg doc hd
  have hmat : PosInv τ (materialized env pt m) :=
    posInv_materialized (hinv.sub hm) hok.mpc_eq fun h => hok.small h doc m hd hfind
  have hset : ∀ k ∈ (materialized env pt m).kids, k.val.posSet = true := posSet_withPositions
  rcases opChild_cases env cmd pt hd hfind hrow with
    ⟨e, hrun⟩ | ⟨i, -, -, hrun⟩ | ⟨left, k, next, hleft, hk, hrun⟩
  · rw [stateAfter, hrun]
    exact good_put hinv hw.live.unique hm rfl hmat
  · rw [stateAfter, hrun]
    exact good_put hinv hw.live.unique hm rfl
      (posInv_sublist hmat rfl hset (eraseIdx_sublist _ _))
  · rw [stateAfter, hrun]
    have hord := (hmat _ .refl).ordered hset
    have hfits := hok.fits doc m hd hfind left hleft
    rw [hok.mpc_eq] at hfits hleft ⊢
    obtain ⟨hval, hid, hkids⟩ := placed_fields (operandPos op row) k
    have hkey : nameKey (added op (operandPos op row)).name (added op (operandPos op row)).ns =
        nameKey (placed (operandPos op row) k).val.name (placed (operandPos op row) k).val.ns := by
      rw [hval]
      exact (hk.nameKey hnamed).symm
    have hpos : (added op (operandPos op row)).pos = (placed (operandPos op row) k).val.pos := by
      rw [hval, added_operandPos]
    refine good_put hinv hw.live.unique hm rfl (posInv_insertKid hmat rfl hset
      (operandPlace_sublist hleft) (hk.posInv.of_root hid hkids) (by rw [hval]) ?_
      (hfits.congr hkey hpos))
    intro o ho hspace
    rw [← hpos]
    refine place_free hord hok.has_pos hleft o ho ?_
    rw [sameSpace_iff] at hspace ⊢
    rwa [hkey]

theorem withVal_good {m : Node} {d : NodeData} (hinv : PosInv τ doc) (hu : doc.Unique)
    (hm : IdTree.Sub m doc) (hkey : posKey d = posKey m.val) :
    Good τ (putNode s doc m.id (withVal m d) s.next) := good_put hinv hu hm hkey ((hinv.sub hm).of_root rfl rfl)

end

/-! ## What the way down leaves alone -/

/-- `k'` is `k` later: the same address and, if its position was set, the same fields. -/
def SameKid (k k' : Node) : Prop := k'.id = k.id ∧ (k.val.posSet = true → k'.val = k.val)

theorem SameKid.refl (k : Node) : SameKid k k := ⟨rfl, fun _ => rfl⟩

variable {a b : Node}

theorem SameKid.trans {c : Node} (hab : SameKid a b) (hbc : SameKid b c) : SameKid a c := by
  refine ⟨hbc.1.trans hab.1, fun hset => ?_⟩
  have hval := hab.2 hset
  rw [hbc.2 (by rw [hval]; exact hset), hval]

/-- The same children in the same order, and no position that was set has changed. -/
def Steady (m m' : Node) : Prop := m'.id = m.id ∧ List.Forall₂ SameKid m.kids m'.kids

theorem steady_of_kids (hid : m'.id = m.id) (h : m'.kids = m.kids) : Steady m m' := by
  refine ⟨hid, ?_⟩
  rw [h]
  exact forall₂_same.mpr fun k _ => .refl k

theorem Steady.trans {c : Node} (hab : Steady a b) (hbc : Steady b c) : Steady a c := by
  refine ⟨hbc.1.trans hab.1, ?_⟩
  obtain ⟨hlen1, h1⟩ := forall₂_iff_get.mp hab.2
  obtain ⟨hlen2, h2⟩ := forall₂_iff_get.mp hbc.2
  refine forall₂_iff_get.mpr ⟨hlen1.trans hlen2, fun i ha hc => ?_⟩
  exact (h1 i ha (hlen1 ▸ ha)).trans (h2 i (hlen1 ▸ ha) hc)

theorem steady_materialized (env : Env) (pt : TypeRef) (m : Node) : Steady m (materialized env pt m) := by
  refine ⟨rfl, forall₂_iff_get.mpr ⟨by simp [materialized, withPositions], ?_⟩⟩
  intro i h1 h2
  simp only [materialized, withPositions, IdTree.kids_node, get_eq_getElem, getElem_mapIdx]
  refine ⟨id_withPos .., fun hset => ?_⟩
  cases hk : m.kids[i] with
  | node id d below =>
    rw [hk] at hset
    rw [withPos, if_pos (by exact hset)]

/-- From `s` to `s'` addresses were only handed out; without AddContent the document kept its nodes. -/
structure Frame (cmd : Command) (s s' : FuuState) : Prop where
  mono : s.next ≤ s'.next
  steady : cmd ≠ .add → ∀ doc', s'.doc = some doc' → ∃ doc, s.doc = some doc ∧
    ∀ m', IdTree.Sub m' doc' → ∃ m, IdTree.Sub m doc ∧ Steady m m'

theorem Frame.refl (cmd : Command) (s : FuuState) : Frame cmd s s where
  mono := le_rfl
  steady := fun _ doc hd => ⟨doc, hd, fun m hm => ⟨m, hm, steady_of_kids rfl rfl⟩⟩

theorem Frame.trans {cmd : Command} {s1 s2 s3 : FuuState} (h : Frame cmd s1 s2) (h' : Frame cmd s2 s3) :
    Frame cmd s1 s3 where
  mono := h.mono.trans h'.mono
  steady := by
    intro hcmd doc3 hd3
    obtain ⟨doc2, hd2, h2⟩ := h'.steady hcmd doc3 hd3
    obtain ⟨doc1, hd1, h1⟩ := h.steady hcmd doc2 hd2
    refine ⟨doc1, hd1, fun m hm => ?_⟩
    obtain ⟨m2, hm2, hs2⟩ := h2 m hm
    obtain ⟨m1, hm1, hs1⟩ := h1 m2 hm2
    exact ⟨m1, hm1, hs1.trans hs2⟩

theorem frame_materialized {s : FuuState} (env : Env) (cmd : Command) (pt : TypeRef)
    (hd : s.doc = some doc) (hu : doc.Unique) (hm : IdTree.Sub m doc) :
    Frame cmd s (putNode s doc m.id (materialized env pt m) s.next) where
  mono := le_rfl
  steady := by
    intro _ doc' hd'
    obtain rfl : IdTree.set m.id (materialized env pt m) doc = doc' := Option.some.inj hd'
    refine ⟨doc, hd, fun x hx => ?_⟩
    rcases IdTree.sub_set_cases hx with hin | ⟨y, hy, hid, hkids⟩
    · cases hin with
      | refl => exact ⟨m, hm, steady_materialized env pt m⟩
      | kid hk hs =>
        obtain ⟨i, hi, rfl⟩ := mem_mapIdx.1 hk
        have hkid : IdTree.Sub m.kids[i] doc := (IdTree.Sub.kid (getElem_mem hi) .refl).trans hm
        cases hs with
        | refl => exact ⟨m.kids[i], hkid, steady_of_kids (id_withPos ..) (kids_withPos ..)⟩
        | kid hk' hs' =>
          rw [kids_withPos] at hk'
          exact ⟨x, (hs'.trans (.kid hk' .refl)).trans hkid, steady_of_kids rfl rfl⟩
    refine ⟨y, hy, hid, ?_⟩
    rw [hkids, forall₂_map_right_iff]
    refine forall₂_same.mpr fun k hk => ?_
    by_cases hroot : k.id = m.id
    · obtain rfl := hu.eq_of_id_eq ((IdTree.Sub.kid hk .refl).trans hy) hm hroot
      rw [IdTree.set_self]
      exact ⟨rfl, fun _ => rfl⟩
    · rw [IdTree.set_of_ne _ hroot]
      exact ⟨rfl, fun _ => rfl⟩

theorem Steady.eraseIdx (h : Steady m m') (i : Nat) :
    List.Forall₂ SameKid (m.kids.eraseIdx i) (m'.kids.eraseIdx i) := by
  rw [eraseIdx_eq_take_drop_succ, eraseIdx_eq_take_drop_succ]
  exact rel_append (forall₂_take _ h.2) (forall₂_drop _ h.2)

/-! ## Along the path -/

section

variable {env : Env} {cmd : Command} {s : FuuState} {chain : Chain}

theorem stateAfter_map {α β : Type} (m : FuuM α) (f : α → β) (s : FuuState) :
    stateAfter (m >>= fun a => pure (f a)) s = stateAfter m s := by
  unfold stateAfter
  cases h : m s with
  | ok a s' =>
    rw [bind_ok h]
    rfl
  | error e s' => rw [bind_error h]

variable {t : Tbc} {pos : Nat}

theorem descendElem_good (hdown : Down chain s) (hg : Good τ s)
    (hmeets : ∀ p pt, chain.getLast? = some (p, pt) → AccessOk env τ (contextPlace cmd) p pt t pos s) :
    Good τ (stateAfter (descendElem env cmd chain t pos) s) ∧
      Frame cmd s (stateAfter (descendElem env cmd chain t pos) s) := by
  obtain ⟨doc, hw⟩ := hdown
  rcases stateIf_run (decide (chain.length ≥ bimCtxMax)) "context path too deep" s with
    ⟨-, e, he⟩ | ⟨-, hok⟩
  · have hrun : descendElem env cmd chain t pos s = .error (.err e) s := bind_error he
    rw [stateAfter, hrun]
    exact ⟨hg, Frame.refl cmd s⟩
  cases hlast : chain.getLast? with
  | none =>
    refine absurd ?_ hw.path.ne_nil
    rw [getLast?_eq_none_iff.1 hlast]
    rfl
  | some x =>
    obtain ⟨p, pt⟩ := x
    have hafter : stateAfter (descendElem env cmd chain t pos) s = stateAfter (contextChild env cmd p pt t pos) s := by
      have hrun : descendElem env cmd chain t pos s = _ := bind_ok hok
      rw [← stateAfter_map (contextChild env cmd p pt t pos) fun k => chain ++ [(k, t.type)], stateAfter, hrun, hlast]
      rfl
    have haccess := hmeets p pt hlast
    rw [chain_eq hlast] at hw
    rw [hafter]
    refine ⟨contextChild_good hw hg haccess, ?_⟩
    obtain ⟨m, hm, rfl, hfind⟩ := hw.last
    have hframe := frame_materialized env cmd pt hw.live.doc_eq hw.live.unique hm
    rcases contextChild_cases env cmd pt t pos hw.live.doc_eq hfind with
      ⟨e, hrun⟩ | ⟨i, k, -, hrun⟩ | ⟨j, k, hadd, -, -, -, hrun⟩
    · rw [stateAfter, hrun]
      exact hframe
    · rw [stateAfter, hrun]
      exact hframe
    · rw [stateAfter, hrun]
      exact ⟨Nat.le_succ _, absurd hadd⟩

theorem descendStep_good (hdown : Down chain s) (hg : Good τ s) (hmeets : StepMeets env τ cmd chain t pos s) :
    Good τ (stateAfter (descendStep env cmd chain t pos) s) ∧
      Frame cmd s (stateAfter (descendStep env cmd chain t pos) s) := by
  unfold descendStep
  cases hk : t.kind with
  | pathEnd => exact ⟨hg, Frame.refl cmd s⟩
  | parent =>
    rw [stateAfter_map]
    rcases stateIf_run (decide (chain.length < 2)) "Reference to Parent above topmost node" s with
      ⟨-, e, he⟩ | ⟨-, hok⟩
    · rw [stateAfter, he]
      exact ⟨hg, Frame.refl cmd s⟩
    · rw [stateAfter, hok]
      exact ⟨hg, Frame.refl cmd s⟩
  | _ => exact descendElem_good hdown hg (hmeets (by simp [hk]) (by simp [hk]))

theorem descendLoop_good {K : Chain → FuuState → Prop} (steps : List (Tbc × Nat)) (hdown : Down chain s)
    (hg : Good τ s) (hmeets : PathMeets env τ cmd K steps chain s) :
    Good τ (stateAfter (descendLoop env cmd steps chain) s) ∧
      Frame cmd s (stateAfter (descendLoop env cmd steps chain) s) ∧
      ∀ chain' s', descendLoop env cmd steps chain s = .ok chain' s' → K chain' s' := by
  induction steps generalizing chain s with
  | nil =>
    refine ⟨hg, Frame.refl cmd s, fun chain' s' h => ?_⟩
    obtain ⟨rfl, rfl⟩ : chain = chain' ∧ s = s' := by
      exact ⟨(EStateM.Result.ok.inj h).1, (EStateM.Result.ok.inj h).2⟩
    exact hmeets
  | cons x rest ih =>
    obtain ⟨t, pos⟩ := x
    obtain ⟨hgood, hframe⟩ := descendStep_good hdown hg hmeets.1
    have hdown' := descendStep_down env cmd chain t pos s hdown
    unfold stateAfter at hgood hframe
    cases hrun : descendStep env cmd chain t pos s with
    | error e s' =>
      rw [hrun] at hgood hframe
      have hloop : descendLoop env cmd ((t, pos) :: rest) chain s = .error e s' := bind_error hrun
      rw [stateAfter, hloop]
      exact ⟨hgood, hframe, fun chain' s'' h => absurd h (by simp)⟩
    | ok chain' s' =>
      rw [hrun] at hgood hframe hdown'
      have hloop : descendLoop env cmd ((t, pos) :: rest) chain s = _ := bind_ok hrun
      obtain ⟨hg', hf', hK⟩ := ih hdown' hgood (hmeets.2 chain' s' hrun)
      rw [stateAfter, hloop]
      exact ⟨hg', hframe.trans hf', hK⟩

end

/-! ## One payload -/

section

variable {env : Env} {s : FuuState} {f : BimFuu} {row : Row} {op : Tbc}

theorem stateAfter_bind {α β : Type} {m : FuuM α} {g : α → FuuM β} {P : FuuState → Prop} (hm : P (stateAfter m s))
    (hg : ∀ a s', m s = .ok a s' → P (stateAfter (g a) s')) : P (stateAfter (m >>= g) s) := by
  unfold stateAfter at hm ⊢
  cases h : m s with
  | ok a s' =>
    rw [bind_ok h]
    exact hg a s' h
  | error e s' =>
    rw [h] at hm
    rw [bind_error h]
    exact hm

theorem descendRoot_good (cmd : Command) (t : Tbc) (hg : Good τ s) :
    Good τ (stateAfter (descendRoot cmd t) s) ∧ Frame cmd s (stateAfter (descendRoot cmd t) s) := by
  rcases descendRoot_cases cmd t s with ⟨e, hrun⟩ | ⟨d, -, hrun⟩ | ⟨hadd, -, hrun⟩
  · rw [stateAfter, hrun]
    exact ⟨hg, Frame.refl cmd s⟩
  · rw [stateAfter, hrun]
    exact ⟨hg, Frame.refl cmd s⟩
  · rw [stateAfter, hrun]
    refine ⟨fun d hd => ?_, Nat.le_succ _, absurd hadd⟩
    cases hd
    exact posInv_node (placed_of_unset nofun)
      nofun

/-- The chain a payload starts from. -/
def startChain (f : BimFuu) (s : FuuState) : Chain := if f.relative then s.ctx else []

theorem descend_good {first : Tbc} (hinv : Inv s) (hctx : f.relative = true → s.ctx ≠ [])
    (hg : Good τ s) (hfirst : f.tbcs.head? = some first) (hop : f.tbcs.getLast? = some op)
    (habs : f.relative = false → first.kind ≠ .pathEnd) (hmeets : RowMeets env τ f row s) :
    Good τ (stateAfter (descend env f row (startChain f s)) s) ∧
      Frame f.command s (stateAfter (descend env f row (startChain f s)) s) ∧
      ∀ chain s', descend env f row (startChain f s) s = .ok chain s' →
        Down chain s' ∧ OperandMeets env τ f.command op row chain s' := by
  have hmeets := hmeets first op hfirst hop
  unfold descend startChain
  by_cases hrel : f.relative = true
  · rw [if_pos hrel, if_pos hrel]
    rw [if_pos hrel] at hmeets
    have hdown : Down s.ctx s := by
      rcases hinv.ctx with hnil | ⟨doc, hd, hp⟩
      · exact absurd hnil (hctx hrel)
      · exact ⟨doc, hinv.live doc hd, .inr hp, hinv.depth, hp, hinv.depth⟩
    obtain ⟨hgood, hframe, hK⟩ := descendLoop_good _ hdown hg hmeets
    refine ⟨hgood, hframe, fun chain s' hrun => ⟨?_, hK chain s' hrun⟩⟩
    have := descendLoop_down env f.command (f.steps row) s.ctx s hdown
    rwa [hrun] at this
  rw [if_neg hrel] at hmeets ⊢
  cases htbcs : f.tbcs with
  | nil => exact absurd hfirst (by simp [htbcs])
  | cons t ts =>
    obtain rfl : t = first := by simpa [htbcs] using hfirst
    obtain ⟨hgood, hframe⟩ := descendRoot_good f.command t hg
    have hroot : ∀ r s', descendRoot f.command t s = .ok r s' → Down [(r, t.type)] s' := by
      intro r s' hrun
      have := @descendRoot_down f.command t t.type s hinv
      rwa [hrun] at this
    have hloop : ∀ r s', descendRoot f.command t s = .ok r s' → _ := fun r s' hrun =>
      descendLoop_good _ (hroot r s' hrun) (by rw [stateAfter, hrun] at hgood; exact hgood)
        (hmeets (habs (by simpa using hrel)) r s' hrun)
    refine ⟨stateAfter_bind hgood fun r s' hrun => (hloop r s' hrun).1,
      stateAfter_bind hframe fun r s' hrun => ?_, fun chain s' hrun => ?_⟩
    · rw [stateAfter, hrun] at hframe
      exact hframe.trans (hloop r s' hrun).2.1
    · obtain ⟨r, s1, hr, hrun⟩ := ok_of_bind hrun
      refine ⟨?_, (hloop r s1 hr).2.2 chain s' hrun⟩
      have hdown := descendLoop_down env f.command ((f.steps row).drop 1) [(r, t.type)] s1
        (hroot r s1 hr)
      rwa [hrun] at hdown

theorem operate_good {chain : Chain} (hrow : rowOk f.command f.tbcs row = true) (hop : f.tbcs.getLast? = some op)
    (hdown : Down chain s) (hg : Good τ s) (hmeets : OperandMeets env τ f.command op row chain s) :
    Good τ (stateAfter (operate env f op row chain) s) := by
  obtain ⟨hname, hvalue, hpayload⟩ := rowOk_operand hrow hop
  obtain ⟨doc, hw⟩ := hdown
  unfold operate
  cases hlast : chain.getLast? with
  | none => exact hg
  | some x =>
    obtain ⟨p, pt⟩ := x
    rw [chain_eq hlast] at hw
    obtain ⟨m, hm, hid, hfind⟩ := hw.last
    have hinv := hg doc hw.live.doc_eq
    -- a write that only changes the text or the attributes
    have hval : ∀ d, posKey d = posKey m.val → Good τ (putNode s doc p (withVal m d) s.next) := by
      intro d hkey
      rw [← hid]
      exact withVal_good hinv hw.live.unique hm hkey
    have hchild : op.kind ≠ .attr → op.kind ≠ .simple → Good τ (stateAfter (opChild env f.command op row p pt) s) := by
      intro ha hs
      obtain ⟨hok, hnamed⟩ := hmeets ha hs p pt hlast
      exact opChild_good hw hg (hpayload ha hs) hok hnamed
    cases hk : op.kind with
    | attr =>
      show Good τ (stateAfter (opAttr p op f.command row.value) s)
      rcases opAttr_cases f.command hw.live.doc_eq hfind (hname hk) (hvalue hk) with
        ⟨e, hrun⟩ | ⟨attrs, hrun⟩
      · rw [stateAfter, hrun]
        exact hg
      · rw [stateAfter, hrun]
        exact hval _ rfl
    | simple =>
      show Good τ (stateAfter (opText p f.command row.value) s)
      rcases opText_cases f.command row.value hw.live.doc_eq hfind with ⟨e, hrun⟩ | ⟨text, hrun⟩
      · rw [stateAfter, hrun]
        exact hg
      · rw [stateAfter, hrun]
        exact hval _ rfl
    | _ => exact hchild (by simp [hk]) (by simp [hk])

theorem opTopmost_good (hg : Good τ s) : Good τ (stateAfter (opTopmost f op row) s) := by
  have hif : ∀ {β : Type} (c : Bool) (what : String) (g : FuuM β), Good τ (stateAfter g s) →
      Good τ (stateAfter (stateIf c what >>= fun _ => g) s) := by
    intro β c what g hg'
    rcases stateIf_run c what s with ⟨-, e, he⟩ | ⟨-, hok⟩
    · rw [stateAfter, bind_error he]
      exact hg
    · rw [stateAfter, bind_ok hok]
      exact hg'
  refine hif _ _ _ (stateAfter_bind hg fun v s' hget => ?_)
  obtain rfl : s = s' := (EStateM.Result.ok.inj hget).2
  refine hif _ _ _ (hif _ _ _ ?_)
  -- the new document is a payload, or there is none
  have hdoc : ∀ d s', topmostDoc f row s = .ok d s' → ∀ n, d = some n → PosInv τ n := by
    intro d s' hrun n hn
    unfold topmostDoc at hrun
    split at hrun
    · obtain rfl := (EStateM.Result.ok.inj hrun).1
      cases hn
    cases hp : row.payload with
    | none =>
      rw [hp] at hrun
      obtain rfl := (EStateM.Result.ok.inj hrun).1
      cases hn
    | some t =>
      rw [hp] at hrun
      obtain rfl := (EStateM.Result.ok.inj hrun).1
      cases hn
      exact (posInv_label t s.next).1
  have hkeep : Good τ (stateAfter (topmostDoc f row) s) := by
    unfold topmostDoc
    split
    · exact hg
    · cases row.payload with
      | _ => exact hg
  exact stateAfter_bind hkeep fun d s' hrun n hn => hdoc d s' hrun n hn

theorem applyOne_cases (env : Env) (s : FuuState) (hrow : rowOk f.command f.tbcs row = true) :
    ∃ first op, f.tbcs.head? = some first ∧ f.tbcs.getLast? = some op ∧
      ((∃ e, applyOne env f row s = .error (.err e) s) ∨ applyOne env f row s = opTopmost f op row s ∨
        (f.relative = true → s.ctx ≠ []) ∧ (f.relative = false → first.kind ≠ .pathEnd) ∧
          applyOne env f row s = applyAt env f op row (startChain f s) s) := by
  obtain ⟨first, op, hfirst, hop⟩ := rowOk_tbcs hrow
  refine ⟨first, op, hfirst, hop, ?_⟩
  unfold applyOne startChain
  simp only [hop, hfirst]
  by_cases hrel : f.relative = true
  · rw [if_pos hrel, if_pos hrel]
    rcases stateIf_run s.ctx.isEmpty "relative addressing without context node" s with
      ⟨-, e, he⟩ | ⟨hctx, hok⟩
    · exact .inl ⟨e, (bind_ok (get_run s)).trans (bind_error he)⟩
    · refine .inr (.inr ⟨fun _ => by simpa using hctx, fun h => absurd hrel (by simp [h]), ?_⟩)
      exact (bind_ok (get_run s)).trans (bind_ok hok)
  rw [if_neg hrel, if_neg hrel]
  by_cases hend : first.kind = .pathEnd
  · rw [if_pos hend]
    exact .inr (.inl rfl)
  · rw [if_neg hend]
    exact .inr (.inr ⟨fun h => absurd h hrel, fun _ => hend, rfl⟩)

theorem applyOne_good (hrow : rowOk f.command f.tbcs row = true) (hinv : Inv s) (hg : Good τ s)
    (hmeets : RowMeets env τ f row s) : Good τ (stateAfter (applyOne env f row) s) := by
  obtain ⟨first, op, hfirst, hop, ⟨e, hrun⟩ | hrun | ⟨hctx, habs, hrun⟩⟩ := applyOne_cases env s hrow
  · rw [stateAfter, hrun]
    exact hg
  · rw [stateAfter, hrun]
    exact opTopmost_good hg
  · rw [stateAfter, hrun]
    obtain ⟨hgood, -, hend⟩ := descend_good hinv hctx hg hfirst hop habs hmeets
    refine stateAfter_bind (P := Good τ) hgood fun chain s1 hdesc => ?_
    obtain ⟨hdown, hoperand⟩ := hend chain s1 hdesc
    rw [stateAfter, hdesc] at hgood
    have hdone := operate_good hrow hop hdown hgood hoperand
    refine stateAfter_bind (P := Good τ) hdone fun u s2 hop' => ?_
    rw [stateAfter, hop'] at hdone
    exact hdone

/-! ## What a successful command leaves -/

variable {doc : Node} {s' : FuuState}

theorem findChild_put {m : Node} {kids : List Node} {next : Nat} (env : Env)
    (pt : TypeRef) (t : Tbc) (pos : Nat) (hd : s'.doc = (putNode s doc m.id (withKids m kids) next).doc)
    (hm : IdTree.Sub m doc) (hset : ∀ k ∈ kids, k.val.posSet = true) :
    (∃ doc', s'.doc = some doc' ∧ doc'.find? m.id = some (withKids m kids)) ∧
      findChild env m.id pt t pos s' = .ok (lookup (usesMpc env pt) t pos 0 kids) s' := by
  have hfind : IdTree.find? m.id (IdTree.set m.id (withKids m kids) doc) = some (withKids m kids) :=
    IdTree.find?_set rfl (hm.ids_subset (IdTree.id_mem_ids m))
  have hmat : materialized env pt (withKids m kids) = withKids m kids := by
    have hkids : withPositions env.di.insert (usesMpc env pt) (withKids m kids).kids = kids :=
      withPositions_of_posSet hset
    rw [materialized, hkids]
    rfl
  refine ⟨⟨_, hd, hfind⟩, ?_⟩
  have hsame : IdTree.set m.id (withKids m kids) (IdTree.set m.id (withKids m kids) doc) =
      IdTree.set m.id (withKids m kids) doc := IdTree.set_set (m := withKids m kids) rfl doc
  rw [findChild_run env pt t pos hd hfind, hmat, hsame]
  have hs' : s' = { s' with doc := some (IdTree.set m.id (withKids m kids) doc) } := by
    rw [← show s'.doc = some (IdTree.set m.id (withKids m kids) doc) from hd]
  rw [← hs']
  rfl

/-- What AddContent at `pos` below `p` promises: the position leads to the node added, which has
addresses that were not in use in `s`. -/
def AddDone (env : Env) (op : Tbc) (row : Row) (p : NodeId) (pt : TypeRef) (s s' : FuuState) : Prop :=
  ∃ doc m j k n next, s'.doc = some doc ∧ doc.find? p = some m ∧
    m.kids[j]? = some (placed (operandPos op row) k) ∧ IsOperand op row n next k ∧ s.next ≤ n ∧
    findChild env p pt op (operandPos op row) s' = .ok (.found j) s'

/-- What DeleteContent at `pos` below `p` promises: a child of that name is gone, nothing is found at
the position any more, and the other children are the same, at the same positions. -/
def DeleteDone (env : Env) (op : Tbc) (row : Row) (p : NodeId) (pt : TypeRef) (s s' : FuuState) : Prop :=
  ∃ doc m doc' m' i k, s.doc = some doc ∧ IdTree.Sub m doc ∧ m.id = p ∧ s'.doc = some doc' ∧
    doc'.find? p = some m' ∧ m.kids[i]? = some k ∧
    (k.val.posSet = true → sameName k.val op.name op.ns = true ∧ k.val.pos = operandPos op row) ∧
    List.Forall₂ SameKid (m.kids.eraseIdx i) m'.kids ∧
    findChild env p pt op (operandPos op row) s' = .ok .absent s'

variable {s0 s2 : FuuState}

theorem opChild_add {c : Chain} {p : NodeId} {pt : TypeRef} (hw : Walk (c ++ [(p, pt)]) s doc)
    (hmono : s0.next ≤ s.next) (hrow : op.kind ≠ .chardata → row.payload.isSome) (hnamed : NamedAs op row)
    (hrun : opChild env .add op row p pt s = .ok () s2) (hd : s'.doc = s2.doc) :
    AddDone env op row p pt s0 s' := by
  obtain ⟨m, hm, rfl, hfind⟩ := hw.last
  have hset : ∀ k ∈ (materialized env pt m).kids, k.val.posSet = true := posSet_withPositions
  rcases opChild_cases env .add pt hw.live.doc_eq hfind fun _ => hrow with
    ⟨e, hrun'⟩ | ⟨i, hdel, -⟩ | ⟨left, k, next, hleft, hk, hrun'⟩
  · rw [hrun'] at hrun
    cases hrun
  · cases hdel
  · rw [hrun'] at hrun
    obtain rfl := (EStateM.Result.ok.inj hrun).2
    obtain ⟨habs, rfl⟩ : lookup (usesMpc env pt) op (operandPos op row) 0 (materialized env pt m).kids =
        .absent ∧ (materialized env pt m).kids = left := by
      unfold operandPlace at hleft
      split at hleft
      · next habs => exact ⟨habs, Option.some.inj hleft⟩
      all_goals simp_all
    obtain ⟨hval, -, -⟩ := placed_fields (operandPos op row) k
    have hname : sameName (placed (operandPos op row) k).val op.name op.ns = true := by
      rw [hval]
      exact sameName_iff.2 (hk.nameKey hnamed)
    obtain ⟨j, hj, hkid⟩ := lookup_insertKid (env.types pt) hname (fun _ => by rw [hval]) habs
    have hput : ∀ x ∈ insertKid (env.types pt) (usesMpc env pt) (placed (operandPos op row) k)
        (materialized env pt m).kids, x.val.posSet = true := by
      intro x hx
      rcases mem_cons.1 ((insertKid_perm _ _ _ _).mem_iff.1 hx) with rfl | hx
      · rw [hval]
      · exact hset x hx
    obtain ⟨⟨doc', hd', hm'⟩, hlook⟩ := findChild_put env pt op (operandPos op row) hd hm hput
    rw [hj, zero_add] at hlook
    exact ⟨doc', _, j, k, s.next, next, hd', hm', hkid, hk, hmono, hlook⟩

theorem opChild_delete {c : Chain} {p : NodeId} {pt : TypeRef}
    (hw : Walk (c ++ [(p, pt)]) s doc) (hg : Good τ s) (hframe : Frame .delete s0 s)
    (hpos : op.hasPos = true) (hok : AccessOk env τ (operandPlace .delete) p pt op (operandPos op row) s)
    (hrun : opChild env .delete op row p pt s = .ok () s2) (hd : s'.doc = s2.doc) :
    DeleteDone env op row p pt s0 s' := by
  obtain ⟨m, hm, rfl, hfind⟩ := hw.last
  have hset : ∀ k ∈ (materialized env pt m).kids, k.val.posSet = true := posSet_withPositions
  have hmat : PosInv τ (materialized env pt m) :=
    posInv_materialized ((hg doc hw.live.doc_eq).sub hm) hok.mpc_eq
      fun h => hok.small h doc m hw.live.doc_eq hfind
  have hord : Ordered (usesMpc env pt) (materialized env pt m).kids := by
    rw [hok.mpc_eq]
    exact (hmat _ .refl).ordered hset
  rcases opChild_cases env .delete pt hw.live.doc_eq hfind fun h => absurd rfl h with
    ⟨e, hrun'⟩ | ⟨i, -, hfound, hrun'⟩ | ⟨left, k, next, hleft, hk, hrun'⟩
  · rw [hrun'] at hrun
    cases hrun
  · rw [hrun'] at hrun
    obtain rfl := (EStateM.Result.ok.inj hrun).2
    have hleft : ∀ k ∈ (materialized env pt m).kids.eraseIdx i, k.val.posSet = true := fun k hk =>
      hset k (mem_of_mem_eraseIdx hk)
    obtain ⟨⟨doc', hd', hm'⟩, hlook⟩ := findChild_put env pt op (operandPos op row) hd hm hleft
    -- the one found was the only one at its position
    have habs : lookup (usesMpc env pt) op (operandPos op row) 0
        ((materialized env pt m).kids.eraseIdx i) = .absent := by
      refine lookup_absent.2 fun o ho hmatch => ?_
      rw [matchesAt, if_pos hpos] at hmatch
      refine found_free hord (fun _ => hpos) hfound o ho ?_ ?_
      · rw [sameSpace_iff]
        exact hmatch.2.imp_right sameName_iff.1
      · rw [hmatch.1, added_operandPos]
    rw [habs] at hlook
    obtain ⟨doc0, hd0, hback⟩ := hframe.steady (by simp) doc hw.live.doc_eq
    obtain ⟨m0, hm0, hsteady⟩ := hback m hm
    have hsteady := hsteady.trans (steady_materialized env pt m)
    obtain ⟨k', hk', -, hsame⟩ := lookup_found hfound
    have hmatch : matchesAt (usesMpc env pt) op (operandPos op row) k'.val := by
      rw [← zero_add i] at hfound
      obtain ⟨l, x, r, hsplit, hlen, -, hx, -⟩ := lookup_found_split hfound
      rw [Nat.sub_zero, hsplit, ← hlen, getElem?_append_right (Nat.le_refl _), Nat.sub_self] at hk'
      obtain rfl : x = k' := by simpa using hk'
      exact hx
    rw [matchesAt, if_pos hpos] at hmatch
    obtain ⟨k, hk, hkk⟩ : ∃ k, m0.kids[i]? = some k ∧ SameKid k k' := by
      obtain ⟨hi, rfl⟩ := List.getElem?_eq_some_iff.1 hk'
      obtain ⟨hlen, hall⟩ := forall₂_iff_get.mp hsteady.2
      have hi0 : i < m0.kids.length := by
        rw [hlen]
        exact hi
      exact ⟨m0.kids[i], getElem?_eq_getElem hi0, hall i hi0 hi⟩
    refine ⟨doc0, m0, doc', _, i, k, hd0, hm0, hsteady.1.symm, hd', hm', hk, fun hkset => ?_, hsteady.eraseIdx i, hlook⟩
    rw [← hkk.2 hkset]
    exact ⟨hsame, hmatch.1⟩
  · cases hleft

theorem opTopmost_ctx (hrun : opTopmost f op row s = .ok () s') : s'.ctx = [] := by
  obtain ⟨_, s1, _, hrun⟩ := ok_of_bind hrun
  obtain ⟨_, s2, _, hrun⟩ := ok_of_bind hrun
  obtain ⟨_, s3, _, hrun⟩ := ok_of_bind hrun
  obtain ⟨_, s4, _, hrun⟩ := ok_of_bind hrun
  obtain ⟨_, s5, _, hrun⟩ := ok_of_bind hrun
  rw [← (EStateM.Result.ok.inj hrun).2]

/-- A payload that adds or removes a child does what the command promises. -/
theorem applyOne_effect {c : Chain} {p : NodeId} {pt : TypeRef} (hrow : rowOk f.command f.tbcs row = true)
    (hinv : Inv s) (hg : Good τ s) (hmeets : RowMeets env τ f row s) (hop : f.tbcs.getLast? = some op)
    (hattr : op.kind ≠ .attr) (hsimple : op.kind ≠ .simple) (hrun : applyOne env f row s = .ok () s')
    (hctx' : s'.ctx = c ++ [(p, pt)]) : (f.command = .add → AddDone env op row p pt s s') ∧
      (f.command = .delete → op.hasPos = true → DeleteDone env op row p pt s s') := by
  obtain ⟨first, op', hfirst, hop', hcases⟩ := applyOne_cases env s hrow
  obtain rfl : op = op' := Option.some.inj (hop.symm.trans hop')
  rcases hcases with ⟨e, hone⟩ | hone | ⟨hctx, habs, hone⟩
  · rw [hone] at hrun
    cases hrun
  · rw [hone] at hrun
    rw [opTopmost_ctx hrun] at hctx'
    exact absurd hctx' (by simp)
  · rw [hone] at hrun
    obtain ⟨hgood, hframe, hend⟩ := descend_good hinv hctx hg hfirst hop habs hmeets
    obtain ⟨chain, s1, hdesc, hrun⟩ := ok_of_bind hrun
    obtain ⟨_, s2, hoper, hrun⟩ := ok_of_bind hrun
    obtain rfl := (EStateM.Result.ok.inj hrun).2
    obtain rfl : chain = c ++ [(p, pt)] := hctx'
    obtain ⟨⟨doc, hw⟩, hoperand⟩ := hend _ s1 hdesc
    rw [stateAfter, hdesc] at hgood hframe
    have hlast : (c ++ [(p, pt)]).getLast? = some (p, pt) := by simp
    obtain ⟨hok, hnamed⟩ := hoperand hattr hsimple p pt hlast
    have hchild : opChild env f.command op row p pt s1 = .ok () s2 := by
      rw [operate, hlast] at hoper
      cases hk : op.kind with
      | attr => exact absurd hk hattr
      | simple => exact absurd hk hsimple
      | _ => simpa only [hk] using hoper
    obtain ⟨-, -, hpayload⟩ := rowOk_operand hrow hop
    refine ⟨fun hcmd => ?_, fun hcmd hpos => ?_⟩
    · rw [hcmd] at hchild
      exact opChild_add hw hframe.mono (hpayload hattr hsimple (by simp [hcmd])) hnamed hchild rfl
    · rw [hcmd] at hchild hframe hok
      exact opChild_delete hw hgood hframe hpos hok hchild rfl

end

/-! ## Runs -/

/-- The condition for the payloads of a FUU, one after the other. -/
def RowsMeet (env : Env) (τ : NodeId → Bool) (f : BimFuu) : List Row → FuuState → Prop
  | [], _ => True
  | row :: rest, s => RowMeets env τ f row s ∧ ∀ s', applyOne env f row s = .ok () s' → RowsMeet env τ f rest s'

/-- States that payloads which meet the condition lead to from the empty state, failed ones among
them. -/
inductive Run (env : Env) (τ : NodeId → Bool) : FuuState → Prop where
  | empty : Run env τ {}
  | reset {s : FuuState} (h : Run env τ s) : Run env τ { s with doc := none, ctx := [] }
  | payload {s : FuuState} (f : BimFuu) (row : Row) (hrow : row ∈ f.rows)
    (hmeets : RowMeets env τ f row s) (h : Run env τ s) : Run env τ (stateAfter (applyOne env f row) s)

variable {s : FuuState}

theorem inv_stateAfter {α : Type} {m : FuuM α} (h : Triple Inv m (fun _ => Inv) Failed) (hs : Inv s) :
    Inv (stateAfter m s) := by
  have hcall := h s hs
  unfold stateAfter
  cases hr : m s with
  | ok a s' =>
    rw [hr] at hcall
    exact hcall
  | error e s' =>
    rw [hr] at hcall
    exact hcall.2

theorem Run.invariant {env : Env} (h : Run env τ s) : Inv s ∧ Good τ s := by
  induction h with
  | empty => exact ⟨⟨fun n hn => absurd hn (by simp), .inl rfl, Nat.zero_le _⟩, fun d hd => absurd hd (by simp)⟩
  | reset _ _ =>
    exact ⟨⟨fun n hn => absurd hn (by simp), .inl rfl, Nat.zero_le _⟩, fun d hd => absurd hd (by simp)⟩
  | payload f row hrow hmeets _ ih =>
    have hok := f.rows_ok row hrow
    exact ⟨inv_stateAfter (applyOne_inv hok) ih.1, applyOne_good hok ih.1 ih.2 hmeets⟩

theorem Run.rows {env : Env} {f : BimFuu} (rows : List Row) (h : Run env τ s) (hrows : ∀ r ∈ rows, r ∈ f.rows)
    (hmeets : RowsMeet env τ f rows s) : Run env τ (stateAfter (applyRows env f rows) s) := by
  induction rows generalizing s with
  | nil => exact h
  | cons row rest ih =>
    have hnext := Run.payload f row (hrows row mem_cons_self) hmeets.1 h
    refine stateAfter_bind hnext fun u s' hrun => ?_
    rw [stateAfter, hrun] at hnext
    exact ih hnext (fun r hr => hrows r (.tail _ hr)) (hmeets.2 s' hrun)

/-- A call of `bim_fuu_apply` whose payloads meet the condition continues the run. -/
theorem Run.apply {env : Env} {f : BimFuu} (h : Run env τ s) (hmeets : RowsMeet env τ f f.rows s) :
    Run env τ (stateAfter (bimFuuApply env f) s) := by
  unfold bimFuuApply
  split
  · exact .reset h
  · split
    · exact h
    · exact h.rows f.rows (fun r hr => hr) hmeets

/-- In every run whose payloads all meet the condition: positions that are set are in order, and so
distinct, within each position space; a payload that adds a child can then be found at its position,
one that removes a child leaves the position free and the other children as they were; and a whole
call goes on with the run. -/
theorem positions_consistent (env : Env) (τ : NodeId → Bool) (s : FuuState) (h : Run env τ s) :
    (∀ doc m, s.doc = some doc → IdTree.Sub m doc → (∀ k ∈ m.kids, k.val.posSet = true) → Ordered (τ m.id) m.kids) ∧
      (∀ f row op c p pt s', row ∈ f.rows → RowMeets env τ f row s → f.tbcs.getLast? = some op →
        op.kind ≠ .attr → op.kind ≠ .simple → applyOne env f row s = .ok () s' → s'.ctx = c ++ [(p, pt)] →
          (f.command = .add → AddDone env op row p pt s s') ∧
          (f.command = .delete → op.hasPos = true → DeleteDone env op row p pt s s')) ∧
      ∀ f, RowsMeet env τ f f.rows s → Run env τ (stateAfter (bimFuuApply env f) s) := by
  obtain ⟨hinv, hg⟩ := h.invariant
  refine ⟨fun doc m hd hm hset => (hg doc hd m hm).ordered hset, ?_, fun f hmeets => h.apply hmeets⟩
  intro f row op c p pt s' hrow hmeets hop hattr hsimple hrun hctx
  exact applyOne_effect (f.rows_ok row hrow) hinv hg hmeets hop hattr hsimple hrun hctx

/-- AddContent of an empty element `b` at position 0 below a topmost element `a`. -/
def addChild : BimFuu where
  command := .add
  tbcs := [{ kind := .elem, name := some ⟨[97], by decide⟩ },
    { kind := .elem, name := some ⟨[98], by decide⟩, hasPos := true }]
  rows := [{ pos := [0, 0], payload := some (.mk (some ⟨[98], by decide⟩) none none [] []) }]

theorem positions_consistent_addChild :
    let env : Env := ⟨{ mpegb := false }, fun _ => {}⟩
    let op : Tbc := { kind := .elem, name := some ⟨[98], by decide⟩, hasPos := true }
    let row : Row := { pos := [0, 0], payload := some (.mk (some ⟨[98], by decide⟩) none none [] []) }
    AddDone env op row 0 0 {} (stateAfter (applyOne env addChild row) {}) := by
  intro env op row
  have hmeets : RowMeets env (fun _ => false) addChild row {} := by
    intro first op' hfirst hop
    cases hfirst
    cases hop
    refine fun _ root s' hroot => ?_
    obtain ⟨rfl, rfl⟩ := EStateM.Result.ok.inj hroot
    intro _ _ p pt hlast
    cases hlast
    refine ⟨⟨rfl, fun _ => rfl, nofun, ?_⟩, ?_⟩
    · intro doc m hd hm left hleft
      cases hd
      cases hm
      cases hleft
      exact Pairwise.nil
    · intro k h
      cases h
      rfl
  exact ((positions_consistent env (fun _ => false) {} .empty).2.1 addChild row op [] 0 0 _
    mem_cons_self hmeets rfl (by decide) (by decide) rfl rfl).1 rfl

instance (mpc : Bool) (kids : List Node) : Decidable (Ordered mpc kids) :=
  inferInstanceAs (Decidable (kids.Pairwise _))

/-- One type whose children are elements `h`, any number of them; `s` may stand for `h`. -/
def substEnv : Env where
  di := { mpegb := false }
  types := fun _ =>
    { top := some (.seq [.elem { name := ⟨[104], by decide⟩, type := some 1 } 0 bimUnbounded] 1 1)
      sbc := [{ kind := .elem, name := some ⟨[104], by decide⟩ }] }

/-- AddContent of the topmost element `a` with the children `h`, `s`, `h`. -/
def addTopmost : BimFuu where
  command := .add
  tbcs := [{ kind := .pathEnd }, { kind := .elem, name := some ⟨[97], by decide⟩ }]
  rows := [{ pos := [0, 0], payload := some (.mk (some ⟨[97], by decide⟩) none none []
    [.mk (some ⟨[104], by decide⟩) none none [] [], .mk (some ⟨[115], by decide⟩) none none [] [],
     .mk (some ⟨[104], by decide⟩) none none [] []]) }]

/-- AddContent of one more `h`, at position 2. -/
def addThird : BimFuu where
  command := .add
  tbcs := [{ kind := .elem, name := some ⟨[97], by decide⟩ }, { kind := .pathEnd },
    { kind := .elem, name := some ⟨[104], by decide⟩, hasPos := true }]
  rows := [{ pos := [0, 0, 2], payload := some (.mk (some ⟨[104], by decide⟩) none none [] []) }]

/-- The new `h` stops before `s`, which has no SBC index, and so before the `h` at position 1. -/
theorem insert_before_substitute : ¬ ∀ env s, Reachable env s → ∀ doc p pt m, s.doc = some doc →
    (p, pt) ∈ s.ctx → doc.find? p = some m → (∀ k ∈ m.kids, k.val.posSet = true) → Ordered (usesMpc env pt) m.kids := by
  intro h
  have hord := h substEnv _ (.apply addThird (.apply addTopmost .empty)) _ 0 0 _ rfl
    mem_cons_self rfl (by decide)
  exact absurd hord (by decide)

end DvbIpiTools.Bim.Fuu
