import DvbIpiTools.Bim.Fuu.Apply
import DvbIpiTools.Utils.StateTriple

set_option autoImplicit false

/-! # What the document operations do

Each operation of the machine on a live node, as an equation: the node that is read, and the one
written in its place. Later modules never unfold the operations. -/

namespace DvbIpiTools.Bim.Fuu

open StateTriple List

variable {α β : Type} {s' : FuuState} {f : α → FuuM β}

theorem bind_ok {m : FuuM α} {s : FuuState} {a : α} (h : m s = .ok a s') : (m >>= f) s = f a s' := by
  show EStateM.bind m f s = f a s'
  simp only [EStateM.bind, h]

theorem bind_error {m : FuuM α} {s : FuuState} {e : Fail} (h : m s = .error e s') : (m >>= f) s = .error e s' := by
  show EStateM.bind m f s = .error e s'
  simp only [EStateM.bind, h]

theorem ok_of_bind {m : FuuM α} {s : FuuState} {b : β}
    (h : (m >>= f) s = .ok b s') : ∃ a s1, m s = .ok a s1 ∧ f a s1 = .ok b s' := by
  cases hm : m s with
  | ok a s1 =>
    rw [bind_ok hm] at h
    exact ⟨a, s1, rfl, h⟩
  | error e s1 =>
    rw [bind_error hm] at h
    cases h

theorem get_run (s : FuuState) : (get : FuuM FuuState) s = .ok s s := rfl

theorem deref_run {s : FuuState} {doc m : Node} {p : NodeId} (hd : s.doc = some doc)
    (hm : doc.find? p = some m) : deref p s = .ok m s := by
  simp [deref, hd, hm]

theorem store_run {s : FuuState} {doc : Node} {p : NodeId} (hd : s.doc = some doc) (n : Node) :
    store p n s = .ok () { s with doc := some (IdTree.set p n doc) } := by
  simp [store, hd]

variable {P : FuuState → Prop} {E : Fail → FuuState → Prop} {what : String}

theorem triple_stateIf {Q : Unit → FuuState → Prop} {c : Bool} (herr : ∀ e s, P s → E (.err e) s)
    (hok : c = false → ∀ s, P s → Q () s) : Triple P (stateIf c what) Q E := by
  refine triple_ite (fun _ => triple_throw _ fun s hs => herr _ s hs) fun hc => ?_
  exact triple_pure _ (hok (by simpa using hc))

theorem triple_state {Q : α → FuuState → Prop} (herr : ∀ e s, P s → E (.err e) s) :
    Triple P (state what : FuuM α) Q E := triple_throw _ fun s hs => herr _ s hs

/-! ## Positions -/

theorem sameName_self (d : NodeData) : sameName d d.name d.ns = true := by
  unfold sameName
  cases d.name <;> simp

theorem sameSpace_self (mpc : Bool) (d : NodeData) : sameSpace mpc d d = true := by
  simp [sameSpace, sameName_self]

/-- The position `materialize` gives to child `i`. -/
def posOf (insert mpc : Bool) (kids : List Node) (i : Nat) (k : NodeData) : Nat :=
  let idx := (kids.take i).countP fun o => sameSpace mpc o.val k
  let z := kids.countP fun o => sameSpace mpc o.val k
  if insert then (ratImplicit z).getD idx 0 else idx

/-- Child `i` once it has a position. -/
def withPos (insert mpc : Bool) (kids : List Node) (i : Nat) : Node → Node
  | .node id d below =>
    if d.posSet then .node id d below
    else .node id { d with pos := posOf insert mpc kids i d, posSet := true } below

/-- The children once they have positions. -/
def withPositions (insert mpc : Bool) (kids : List Node) : List Node := kids.mapIdx (withPos insert mpc kids)

variable {kids : List Node} {i : Nat} {k : Node}

theorem countP_take_lt {P : Node → Bool}
    (hi : kids[i]? = some k) (hk : P k = true) : (kids.take i).countP P < kids.countP P := by
  obtain ⟨hlt, rfl⟩ := List.getElem?_eq_some_iff.1 hi
  calc (kids.take i).countP P < (kids.take i).countP P + (kids.drop i).countP P := by
        refine Nat.lt_add_of_pos_right (countP_pos_iff.2 ⟨kids[i], ?_, hk⟩)
        rw [drop_eq_getElem_cons hlt]
        exact mem_cons_self
    _ = kids.countP P := by rw [← countP_append, take_append_drop]

variable {insert mpc : Bool}

theorem implicitPos_run (hi : kids[i]? = some k) (s : FuuState) :
    implicitPos insert mpc kids i k.val s = .ok (posOf insert mpc kids i k.val) s := by
  have hlt := countP_take_lt (P := fun o => sameSpace mpc o.val k.val) hi (sameSpace_self mpc k.val)
  cases insert with
  | false => rfl
  | true =>
    have hnot : decide ((kids.take i).countP (fun o => sameSpace mpc o.val k.val) ≥
        kids.countP fun o => sameSpace mpc o.val k.val) = false := by
      simpa using hlt
    simp only [implicitPos, posOf, if_true, hnot, stateIf]
    rfl

theorem materializeFrom_run {insert mpc : Bool} {kids : List Node} (s : FuuState) (rest : List Node)
    (i : Nat) (hrest : kids.drop i = rest) :
    materializeFrom insert mpc kids i rest s = .ok (rest.mapIdx fun j => withPos insert mpc kids (i + j)) s := by
  induction rest generalizing i with
  | nil => rfl
  | cons k rest ih =>
    have hk : kids[i]? = some k := by
      rw [← head?_drop, hrest]
      rfl
    have hnext := ih (i + 1) (by rw [← tail_drop, hrest]; rfl)
    have hshift : (fun j => withPos insert mpc kids (i + 1 + j)) = fun j => withPos insert mpc kids (i + (j + 1)) := by
      funext j
      rw [add_assoc, add_comm 1 j]
    rw [hshift] at hnext
    cases k with
    | node id d below =>
      rw [materializeFrom, mapIdx_cons]
      split
      · next hset =>
        rw [bind_ok hnext]
        simp [withPos, hset]
        rfl
      rename_i hset
      have hpos : implicitPos insert mpc kids i d s = .ok (posOf insert mpc kids i d) s := implicitPos_run hk s
      rw [bind_ok hpos, bind_ok hnext]
      simp [withPos, hset]
      rfl

/-- A node with positions on its children. -/
def materialized (env : Env) (pt : TypeRef) (m : Node) : Node :=
  .node m.id m.val (withPositions env.di.insert (usesMpc env pt) m.kids)

theorem materialize_run {env : Env} {s : FuuState} {doc m : Node} {p : NodeId} {pt : TypeRef}
    (hd : s.doc = some doc) (hm : doc.find? p = some m) :
    materialize env p pt s = .ok () { s with doc := some (IdTree.set p (materialized env pt m) doc) } := by
  have hkids := @materializeFrom_run env.di.insert (usesMpc env pt) m.kids s m.kids 0 rfl
  rw [materialize, bind_ok (deref_run hd hm), bind_ok hkids, store_run hd]
  simp [materialized, withPositions]

theorem findChild_run {s : FuuState} {doc m : Node} {p : NodeId} (env : Env) (pt : TypeRef) (t : Tbc)
    (pos : Nat) (hd : s.doc = some doc) (hm : doc.find? p = some m) :
    findChild env p pt t pos s = .ok (lookup (usesMpc env pt) t pos 0 (materialized env pt m).kids)
        { s with doc := some (IdTree.set p (materialized env pt m) doc) } := by
  have hid : (materialized env pt m).id = p := (IdTree.sub_of_find? hm).2
  have hp : p ∈ doc.ids := IdTree.find?_isSome.1 (by rw [hm]; rfl)
  rw [findChild, bind_ok (materialize_run hd hm), bind_ok (deref_run rfl (IdTree.find?_set hid hp))]
  rfl

theorem insertChild_run {s : FuuState} {doc m : Node} {p : NodeId} (env : Env) (pt : TypeRef)
    (k : Node) (hd : s.doc = some doc) (hm : doc.find? p = some m) :
    insertChild env p pt k s = .ok () { s with doc := some (IdTree.set p
        (.node m.id m.val (insertKid (env.types pt) (usesMpc env pt) k m.kids)) doc) } := by
  rw [insertChild, bind_ok (deref_run hd hm), store_run hd]

theorem removeChild_run {s : FuuState} {doc m : Node} {p : NodeId} (hd : s.doc = some doc) (hm : doc.find? p = some m) :
    removeChild p i s = .ok () { s with doc := some (IdTree.set p (.node m.id m.val (m.kids.eraseIdx i)) doc) } := by
  rw [removeChild, bind_ok (deref_run hd hm), store_run hd]

theorem kidAt_run {s : FuuState} {doc m : Node} {p : NodeId} (hd : s.doc = some doc)
    (hm : doc.find? p = some m) (hk : m.kids[i]? = some k) : kidAt p i s = .ok k.id s := by
  rw [kidAt, bind_ok (deref_run hd hm)]
  simp only [hk]
  rfl

/-! ## Children after the operations -/

@[simp] theorem id_withPos (insert mpc : Bool) (kids : List Node) (i : Nat) (k : Node) :
    (withPos insert mpc kids i k).id = k.id := by
  cases k with
  | node id d below =>
    rw [withPos]
    split <;> rfl

@[simp] theorem kids_withPos (insert mpc : Bool) (kids : List Node) (i : Nat) (k : Node) :
    (withPos insert mpc kids i k).kids = k.kids := by
  cases k with
  | node id d below =>
    rw [withPos]
    split <;> rfl

theorem ids_withPos (insert mpc : Bool) (kids : List Node) (i : Nat) (k : Node) :
    (withPos insert mpc kids i k).ids = k.ids := by
  rw [IdTree.ids_eq, id_withPos, kids_withPos, ← IdTree.ids_eq]

theorem ids_materialized (env : Env) (pt : TypeRef) (m : Node) : (materialized env pt m).ids = m.ids := by
  rw [materialized, IdTree.ids_node, IdTree.ids_eq m, withPositions, flatMap_def, flatMap_def]
  congr 2
  apply ext_getElem
  · simp
  · intro i h1 h2
    simp [ids_withPos]

theorem insertKid_perm (pt : BimType) (mpc : Bool) (k : Node) (kids : List Node) :
    (insertKid pt mpc k kids).Perm (k :: kids) := by
  induction kids with
  | nil => exact Perm.refl _
  | cons o os ih =>
    rw [insertKid]
    split
    · exact Perm.refl _
    · exact (ih.cons o).trans (List.Perm.swap k o os)

variable {t : Tbc} {pos : Nat}

theorem lookup_found {j : Nat} : lookup mpc t pos i kids = .found j →
      ∃ k, kids[j - i]? = some k ∧ i ≤ j ∧ sameName k.val t.name t.ns = true := by
  induction kids generalizing i with
  | nil =>
    intro h
    cases h
  | cons k ks ih =>
    intro h
    have hnext : lookup mpc t pos (i + 1) ks = .found j →
        ∃ x, (k :: ks)[j - i]? = some x ∧ i ≤ j ∧ sameName x.val t.name t.ns = true := by
      intro h
      obtain ⟨x, hx, hle, hs⟩ := ih h
      refine ⟨x, ?_, by omega, hs⟩
      rw [show j - i = j - (i + 1) + 1 by omega, getElem?_cons_succ, hx]
    have hhere : sameName k.val t.name t.ns = true → i = j →
        ∃ x, (k :: ks)[j - i]? = some x ∧ i ≤ j ∧ sameName x.val t.name t.ns = true := by
      rintro hs rfl
      exact ⟨k, by simp, le_rfl, hs⟩
    rw [lookup] at h
    split at h
    · split at h
      · next hs => exact hhere hs (by simpa using h)
      · exact hnext h
    · split at h
      · exact hnext h
      · split at h
        · next hs => exact hhere hs (by simpa using h)
        · cases h

theorem withPositions_of_posSet (h : ∀ k ∈ kids, k.val.posSet = true) : withPositions insert mpc kids = kids := by
  apply ext_getElem
  · simp [withPositions]
  intro i h1 h2
  have hset := h kids[i] (getElem_mem h2)
  simp only [withPositions, getElem_mapIdx]
  cases hk : kids[i] with
  | node id d below =>
    rw [hk] at hset
    rw [withPos, if_pos (by exact hset)]

theorem posSet_withPositions : ∀ k ∈ withPositions insert mpc kids, k.val.posSet = true := by
  intro k hk
  obtain ⟨i, hi, rfl⟩ := mem_mapIdx.1 hk
  cases kids[i] with
  | node id d below =>
    rw [withPos]
    split
    · next hset => exact hset
    · rfl

theorem lookup_insertKid (pt : BimType) (hname : sameName k.val t.name t.ns = true)
    (hpos : t.hasPos = true → k.val.pos = pos) (habs : lookup mpc t pos i kids = .absent) :
    ∃ j, lookup mpc t pos i (insertKid pt mpc k kids) = .found (i + j) ∧ (insertKid pt mpc k kids)[j]? = some k := by
  have hhead : ∀ i rest, lookup mpc t pos i (k :: rest) = .found i := by
    intro i rest
    rw [lookup]
    by_cases hp : t.hasPos = true
    · simp [hp, hname, hpos hp]
    · simp [hp, hname]
  induction kids generalizing i with
  | nil => exact ⟨0, hhead i [], rfl⟩
  | cons o os ih =>
    rw [insertKid]
    split
    · exact ⟨0, hhead i _, rfl⟩
    -- the walk skipped `o` before and skips it again
    have hskip : ∀ rest, lookup mpc t pos i (o :: rest) = lookup mpc t pos (i + 1) rest := by
      intro rest
      rw [lookup] at habs ⊢
      split
      · next hp =>
        rw [if_pos hp] at habs
        split
        · next hs =>
          rw [if_pos hs] at habs
          cases habs
        · rfl
      rename_i hp
      rw [if_neg hp] at habs
      split
      · rfl
      · next hs =>
        rw [if_neg hs] at habs
        split at habs <;> cases habs
    rw [hskip] at habs
    obtain ⟨j, hj, hk⟩ := ih habs
    exact ⟨j + 1, by rw [hskip, hj, add_assoc, add_comm 1 j], by simpa using hk⟩

/-! ## Addresses of a payload -/

mutual

theorem label_ids : ∀ (t : BimNode) (n : Nat), n < (label t n).2 ∧ (label t n).1.ids = range' n ((label t n).2 - n)
  | .mk name ns text attrs kids _ _, n => by
    obtain ⟨hle, hids⟩ := labelKids_ids kids (n + 1)
    rw [label, IdTree.ids_node]
    refine ⟨hle, ?_⟩
    rw [show (labelKids kids (n + 1)).2 - n = (labelKids kids (n + 1)).2 - (n + 1) + 1 by omega, range'_succ, hids]

theorem labelKids_ids : ∀ (ts : List BimNode) (n : Nat), n ≤ (labelKids ts n).2 ∧
    (labelKids ts n).1.flatMap IdTree.ids = range' n ((labelKids ts n).2 - n)
  | [], n => by simp [labelKids]
  | t :: ts, n => by
    obtain ⟨hlt, hids⟩ := label_ids t n
    obtain ⟨hle, hrest⟩ := labelKids_ids ts (label t n).2
    refine ⟨by rw [labelKids]; omega, ?_⟩
    rw [labelKids, flatMap_cons, hids, hrest]
    have hsplit := @List.range'_append n ((label t n).2 - n)
      ((labelKids ts (label t n).2).2 - (label t n).2) 1
    rw [one_mul, show n + ((label t n).2 - n) = (label t n).2 by omega,
      show (label t n).2 - n + ((labelKids ts (label t n).2).2 - (label t n).2) =
        (labelKids ts (label t n).2).2 - n by omega] at hsplit
    exact hsplit

end

/-! ## A context step and an operand edit as a whole -/

theorem stateIf_run (c : Bool) (what : String) (s : FuuState) : (c = true ∧ ∃ e, stateIf c what s = .error (.err e) s) ∨
      c = false ∧ stateIf c what s = .ok () s := by
  cases c with
  | true => exact .inl ⟨rfl, _, rfl⟩
  | false => exact .inr ⟨rfl, rfl⟩

/-- The state with `n` written at `p`. -/
def putNode (s : FuuState) (doc : Node) (p : NodeId) (n : Node) (next : Nat) : FuuState := { s with
    doc := some (IdTree.set p n doc)
    next }

/-- A node with other children. -/
def withKids (m : Node) (kids : List Node) : Node := .node m.id m.val kids

/-- The fields of the node that a TBC at a position adds, as far as the insert reads them. -/
def added (t : Tbc) (pos : Nat) : NodeData :=
  { name := t.name
    ns := t.ns
    pos := if t.hasPos then pos else 0
    posSet := true }

section

variable (env : Env) (cmd : Command) {s : FuuState} {doc m : Node} {p : NodeId} (pt : TypeRef)

/-- A context step sets the positions below `p` and goes to the child it finds; for AddContent it puts
a missing node in and goes there. -/
theorem contextChild_cases (t : Tbc) (pos : Nat) (hd : s.doc = some doc) (hm : doc.find? p = some m) :
    (∃ e, contextChild env cmd p pt t pos s = .error (.err e) (putNode s doc p (materialized env pt m) s.next)) ∨
      (∃ (i : Nat) (k : Node), (materialized env pt m).kids[i]? = some k ∧ contextChild env cmd p pt t pos s =
          .ok k.id (putNode s doc p (materialized env pt m) s.next)) ∨
      ∃ (j : Nat) (k : Node), cmd = .add ∧ k = .node s.next (added t pos) [] ∧
        lookup (usesMpc env pt) t pos 0 (materialized env pt m).kids = .absent ∧
        (insertKid (env.types pt) (usesMpc env pt) k (materialized env pt m).kids)[j]? = some k ∧
        contextChild env cmd p pt t pos s = .ok k.id (putNode s doc p (withKids m
          (insertKid (env.types pt) (usesMpc env pt) k (materialized env pt m).kids)) (s.next + 1)) := by
  have hfind := findChild_run env pt t pos hd hm
  have hid : (materialized env pt m).id = p := (IdTree.sub_of_find? hm).2
  have hp : p ∈ doc.ids := IdTree.find?_isSome.1 (by rw [hm]; rfl)
  have hback := IdTree.find?_set hid hp
  have hrun : contextChild env cmd p pt t pos s = _ := bind_ok hfind
  cases hr : lookup (usesMpc env pt) t pos 0 (materialized env pt m).kids with
  | taken =>
    rw [hr] at hrun
    exact .inl ⟨_, hrun⟩
  | found i =>
    rw [hr] at hrun
    obtain ⟨k, hk, -, -⟩ := lookup_found hr
    have hkid : kidAt p i (putNode s doc p (materialized env pt m) s.next) = _ := kidAt_run rfl hback hk
    exact .inr (.inl ⟨i - 0, k, hk, hrun.trans hkid⟩)
  | absent =>
    rw [hr] at hrun
    rcases stateIf_run (decide (cmd ≠ .add)) "context node not instantiated"
      (putNode s doc p (materialized env pt m) s.next) with ⟨-, e, he⟩ | ⟨hcmd, hok⟩
    · exact .inl ⟨e, hrun.trans (bind_error he)⟩
    -- the node goes in; the second lookup changes nothing any more and finds it
    let k : Node := .node s.next (added t pos) []
    let m2 : Node := withKids m
      (insertKid (env.types pt) (usesMpc env pt) k (materialized env pt m).kids)
    have hset : ∀ x ∈ m2.kids, x.val.posSet = true := by
      intro x hx
      rcases mem_cons.1 ((insertKid_perm _ _ _ _).mem_iff.1 hx) with rfl | hx
      · rfl
      · exact posSet_withPositions x hx
    have hm2 : materialized env pt m2 = m2 := by
      rw [materialized, withPositions_of_posSet hset]
      rfl
    have hins := insertChild_run env pt k
      (s := putNode s doc p (materialized env pt m) (s.next + 1)) rfl hback
    rw [IdTree.set_set hid] at hins
    have hback2 : IdTree.find? p (IdTree.set p m2 doc) = some m2 := IdTree.find?_set hid hp
    have hfind2 := findChild_run env pt t pos
      (s := putNode s doc p m2 (s.next + 1)) rfl hback2
    rw [hm2, IdTree.set_set (m := m2) hid] at hfind2
    have hname : sameName k.val t.name t.ns = true := sameName_self { name := t.name, ns := t.ns }
    have hpos : t.hasPos = true → k.val.pos = pos := fun h => by simp [k, added, h]
    obtain ⟨j, hj, hkj⟩ := lookup_insertKid (env.types pt) hname hpos hr
    have hkid : kidAt p (0 + j) (putNode s doc p m2 (s.next + 1)) = .ok k.id _ :=
      kidAt_run rfl hback2 (by rw [zero_add]; exact hkj)
    refine .inr (.inr ⟨j, k, by simpa using hcmd, rfl, rfl, hkj, ?_⟩)
    refine hrun.trans ((bind_ok hok).trans ?_)
    refine (bind_ok (show nodeNew _ _ = .ok k (putNode s doc p (materialized env pt m) (s.next + 1))
      from rfl)).trans ((bind_ok hins).trans ((bind_ok hfind2).trans ?_))
    rw [show lookup (usesMpc env pt) t pos 0 m2.kids = .found (0 + j) from hj]
    exact hkid

/-- The children among which the operand is put: where there was none, or in place of the old one. -/
def operandPlace (cmd : Command) (r : Lookup) (kids : List Node) : Option (List Node) :=
  match cmd, r with
  | .add, .absent => some kids
  | .replace, .found i => some (kids.eraseIdx i)
  | .reset, .found i => some (kids.eraseIdx i)
  | _, _ => none

/-- `k` is what `op_child` puts in, at the addresses from `n` up to `next`. -/
def IsOperand (op : Tbc) (row : Row) (n next : Nat) (k : Node) : Prop :=
  (op.kind = .chardata ∧ k = .node n { name := none, text := row.value } [] ∧ next = n + 1) ∨
    op.kind ≠ .chardata ∧ ∃ t, row.payload = some t ∧ k = (label t n).1 ∧ next = (label t n).2

variable {op : Tbc} {row : Row}

theorem operandNode_run (hrow : op.kind ≠ .chardata → row.payload.isSome)
    (s : FuuState) : ∃ k next, IsOperand op row s.next next k ∧ operandNode op row s = .ok k { s with next } := by
  unfold operandNode
  split
  · next hk => exact ⟨_, _, .inl ⟨hk, rfl, rfl⟩, rfl⟩
  · next hk =>
    obtain ⟨t, ht⟩ := Option.isSome_iff_exists.1 (hrow hk)
    rw [ht]
    exact ⟨_, _, .inr ⟨hk, t, ht, rfl, rfl⟩, rfl⟩

/-- `op_child` sets the positions below `p`; then it fails, or removes the operand, or puts it in. -/
theorem opChild_cases (hd : s.doc = some doc) (hm : doc.find? p = some m)
    (hrow : cmd ≠ .delete → op.kind ≠ .chardata → row.payload.isSome) :
    (∃ e, opChild env cmd op row p pt s = .error (.err e) (putNode s doc p (materialized env pt m) s.next)) ∨
      (∃ i, cmd = .delete ∧ lookup (usesMpc env pt) op (operandPos op row) 0 (materialized env pt m).kids = .found i ∧
        opChild env cmd op row p pt s =
          .ok () (putNode s doc p (withKids m ((materialized env pt m).kids.eraseIdx i)) s.next)) ∨
      ∃ left k next, operandPlace cmd
          (lookup (usesMpc env pt) op (operandPos op row) 0 (materialized env pt m).kids)
          (materialized env pt m).kids = some left ∧ IsOperand op row s.next next k ∧
        opChild env cmd op row p pt s = .ok () (putNode s doc p (withKids m
          (insertKid (env.types pt) (usesMpc env pt) (placed (operandPos op row) k) left)) next) := by
  have hfind := findChild_run env pt op (operandPos op row) hd hm
  have hid : (materialized env pt m).id = p := (IdTree.sub_of_find? hm).2
  have hp : p ∈ doc.ids := IdTree.find?_isSome.1 (by rw [hm]; rfl)
  have hrun : opChild env cmd op row p pt s = _ := bind_ok hfind
  -- the operand goes in among the children `left` of the node written last
  have hput : ∀ left, cmd ≠ .delete → ∃ k next, IsOperand op row s.next next k ∧
      (do let k ← operandNode op row
          insertChild env p pt (placed (operandPos op row) k) : FuuM Unit)
          (putNode s doc p (withKids m left) s.next) =
        .ok () (putNode s doc p (withKids m (insertKid (env.types pt) (usesMpc env pt)
          (placed (operandPos op row) k) left)) next) := by
    intro left hcmd
    obtain ⟨k, next, hk, hop⟩ := operandNode_run (hrow hcmd) (putNode s doc p (withKids m left) s.next)
    refine ⟨k, next, hk, (bind_ok hop).trans ?_⟩
    have hback : IdTree.find? p (IdTree.set p (withKids m left) doc) = some (withKids m left) :=
      IdTree.find?_set hid hp
    have hins := insertChild_run env pt (placed (operandPos op row) k)
      (s := putNode s doc p (withKids m left) next) rfl hback
    rw [IdTree.set_set (m := withKids m left) hid] at hins
    exact hins
  cases hr : lookup (usesMpc env pt) op (operandPos op row) 0 (materialized env pt m).kids with
  | taken =>
    rw [hr] at hrun
    exact .inl ⟨_, hrun⟩
  | absent =>
    rw [hr] at hrun
    rcases stateIf_run (decide (cmd ≠ .add)) "operand node not instantiated"
      (putNode s doc p (materialized env pt m) s.next) with ⟨-, e, he⟩ | ⟨hcmd, hok⟩
    · exact .inl ⟨e, hrun.trans (bind_error he)⟩
    have hadd : cmd = .add := by simpa using hcmd
    obtain ⟨k, next, hk, hdone⟩ := hput (materialized env pt m).kids (by simp [hadd])
    refine .inr (.inr ⟨_, k, next, by rw [hadd]; rfl, hk, hrun.trans ((bind_ok hok).trans ?_)⟩)
    rw [editChild, if_neg (by simp [hadd])]
    exact hdone
  | found i =>
    rw [hr] at hrun
    rcases stateIf_run (decide (cmd = .add)) "AddContent on instantiated node"
      (putNode s doc p (materialized env pt m) s.next) with ⟨-, e, he⟩ | ⟨hcmd, hok⟩
    · exact .inl ⟨e, hrun.trans (bind_error he)⟩
    have hne : cmd ≠ .add := by simpa using hcmd
    have hback := IdTree.find?_set hid hp
    have hrem := removeChild_run (i := i) (s := putNode s doc p (materialized env pt m) s.next) rfl hback
    rw [IdTree.set_set hid] at hrem
    by_cases hdel : cmd = .delete
    · refine .inr (.inl ⟨i, hdel, rfl, hrun.trans ((bind_ok hok).trans ?_)⟩)
      rw [editChild, if_pos hdel]
      exact bind_ok hrem
    obtain ⟨k, next, hk, hdone⟩ := hput ((materialized env pt m).kids.eraseIdx i) hdel
    refine .inr (.inr ⟨(materialized env pt m).kids.eraseIdx i, k, next, ?_, hk, hrun.trans ((bind_ok hok).trans ?_)⟩)
    · cases cmd with
      | add => exact absurd rfl hne
      | delete => exact absurd rfl hdel
      | replace => rfl
      | reset => rfl
    · rw [editChild, if_neg hdel]
      exact (bind_ok hrem).trans hdone

/-- A node with other fields. -/
def withVal (m : Node) (d : NodeData) : Node := .node m.id d m.kids

theorem opText_cases (v : Option CStr) (hd : s.doc = some doc) (hm : doc.find? p = some m) :
    (∃ e, opText p cmd v s = .error (.err e) s) ∨
      ∃ text, opText p cmd v s = .ok () (putNode s doc p (withVal m { m.val with text }) s.next) := by
  have hrun : opText p cmd v s = _ := bind_ok (deref_run hd hm)
  rcases stateIf_run ((decide (cmd = .add)) != m.val.text.isNone) (if cmd = .add then
    "AddContent on instantiated content" else "content not instantiated") s with ⟨-, e, he⟩ | ⟨-, hok⟩
  · exact .inl ⟨e, hrun.trans (bind_error he)⟩
  · exact .inr ⟨_, hrun.trans ((bind_ok hok).trans (store_run hd _))⟩

theorem opAttr_cases {t : Tbc} {v : Option CStr} (hd : s.doc = some doc) (hm : doc.find? p = some m)
    (hname : t.name.isSome) (hv : cmd ≠ .delete → v.isSome) :
    (∃ e, opAttr p t cmd v s = .error (.err e) s) ∨ ∃ attrs, opAttr p t cmd v s =
        .ok () (putNode s doc p (withVal m { m.val with attrs }) s.next) := by
  obtain ⟨name, hn⟩ := Option.isSome_iff_exists.1 hname
  have hrun : opAttr p t cmd v s = _ := bind_ok (deref_run hd hm)
  rw [hn] at hrun
  have hattrs : (∃ e, attrsAfter m.val.attrs t name cmd v s = .error (.err e) s) ∨
      ∃ attrs, attrsAfter m.val.attrs t name cmd v s = .ok attrs s := by
    rcases stateIf_run ((decide (cmd = .add)) != (findAttr m.val.attrs name t.ns).isNone)
      (if cmd = .add then "AddContent on instantiated attribute" else
        "attribute not instantiated") s with ⟨-, e, he⟩ | ⟨-, hok⟩
    · exact .inl ⟨e, bind_error he⟩
    have hleft : attrsAfter m.val.attrs t name cmd v s = _ := bind_ok hok
    by_cases hdel : cmd = .delete
    · rw [if_pos hdel] at hleft
      exact .inr ⟨_, hleft⟩
    · obtain ⟨x, hx⟩ := Option.isSome_iff_exists.1 (hv hdel)
      rw [if_neg hdel, hx] at hleft
      rw [hx]
      exact .inr ⟨_, hleft⟩
  rcases hattrs with ⟨e, he⟩ | ⟨attrs, hok⟩
  · exact .inl ⟨e, hrun.trans (bind_error he)⟩
  · exact .inr ⟨attrs, hrun.trans ((bind_ok hok).trans (store_run hd _))⟩

/-- The topmost node of an absolute path: an error, the document, or for AddContent a new node. -/
theorem descendRoot_cases (t : Tbc) (s : FuuState) : (∃ e, descendRoot cmd t s = .error (.err e) s) ∨
      (∃ d, s.doc = some d ∧ descendRoot cmd t s = .ok d.id s) ∨
      (cmd = .add ∧ s.doc = none ∧ descendRoot cmd t s = .ok s.next { s with
        doc := some (.node s.next { name := t.name, ns := t.ns } [])
        next := s.next + 1 }) := by
  have hrun : descendRoot cmd t s = _ := bind_ok (get_run s)
  cases hd : s.doc with
  | none =>
    rw [hd] at hrun
    rcases stateIf_run (decide (cmd ≠ .add)) "context node not instantiated" s with
      ⟨-, e, he⟩ | ⟨hcmd, hok⟩
    · exact .inl ⟨e, hrun.trans (bind_error he)⟩
    · exact .inr (.inr ⟨by simpa using hcmd, rfl, hrun.trans (bind_ok hok)⟩)
  | some d =>
    rw [hd] at hrun
    rcases stateIf_run (!sameName d.val t.name t.ns) "topmost node differs" s with
      ⟨-, e, he⟩ | ⟨-, hok⟩
    · exact .inl ⟨e, hrun.trans (bind_error he)⟩
    · exact .inr (.inl ⟨d, rfl, hrun.trans (bind_ok hok)⟩)

end

end DvbIpiTools.Bim.Fuu
