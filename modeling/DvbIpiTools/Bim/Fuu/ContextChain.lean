import Mathlib.Data.List.Flatten
import DvbIpiTools.Bim.Fuu.Runs

set_option autoImplicit false

/-! # The context chain never dangles

`ctx` keeps node pointers from one update to the next while updates free subtrees. The invariant: the
chain is empty, or it leads from the document's topmost node down, one child at a time. Descending
only adds nodes and sets positions, which keeps every path; the operand edit removes a child of the
last node of the very chain that then becomes `ctx`; and whatever fails has removed nothing. -/

namespace DvbIpiTools.Bim.Fuu

open StateTriple List Option

/-- The nodes of a chain. -/
def ids (c : Chain) : List NodeId := c.map Prod.fst

/-- `doc` is the document, its addresses are distinct and below the next free one. -/
structure Live (s : FuuState) (doc : Node) : Prop where
  doc_eq : s.doc = some doc
  unique : doc.Unique
  fresh : ∀ x ∈ doc.ids, x < s.next

/-- The context chain is empty, or leads from the topmost node down. -/
def CtxOk (s : FuuState) : Prop := s.ctx = [] ∨ ∃ doc, s.doc = some doc ∧ IdTree.IsPath (ids s.ctx) doc

/-- The invariant of the machine: between calls, and wherever a call fails. -/
structure Inv (s : FuuState) : Prop where
  live : ∀ doc, s.doc = some doc → Live s doc
  ctx : CtxOk s
  depth : s.ctx.length ≤ bimCtxMax

/-- The invariant on the way down: `chain` is a path too. -/
structure Walk (chain : Chain) (s : FuuState) (doc : Node) : Prop where
  live : Live s doc
  ctx : s.ctx = [] ∨ IdTree.IsPath (ids s.ctx) doc
  ctxDepth : s.ctx.length ≤ bimCtxMax
  path : IdTree.IsPath (ids chain) doc
  depth : chain.length ≤ bimCtxMax

/-- What an error leaves: no fault, and the invariant. -/
def Failed (e : Fail) (s : FuuState) : Prop := e ≠ .fault ∧ Inv s

variable {chain : Chain} {s : FuuState} {doc : Node}

theorem Walk.inv (h : Walk chain s doc) : Inv s where
  live := by
    intro d hd
    rw [h.live.doc_eq] at hd
    exact some.inj hd ▸ h.live
  ctx := h.ctx.imp id fun hp => ⟨doc, h.live.doc_eq, hp⟩
  depth := h.ctxDepth

theorem Inv.failed (h : Inv s) (e : BimErr) : Failed (.err e) s := ⟨by simp, h⟩

/-! ## Writes that keep paths -/

/-- Every child is still there, with the same children of its own. -/
def Grows (m m' : Node) : Prop := m'.id = m.id ∧ ∀ k ∈ m.kids, ∃ k' ∈ m'.kids, k'.id = k.id ∧ k'.kids = k.kids

variable {m m' : Node}

theorem Grows.isPath (h : Grows m m') {l : List NodeId} (hl : IdTree.IsPath l m) : IdTree.IsPath l m' := by
  cases l with
  | nil => exact hl
  | cons i l =>
    by_cases hnil : l = []
    · subst hnil
      exact h.1.trans hl
    obtain ⟨hi, k, hk, hp⟩ := (IdTree.isPath_cons hnil).mp hl
    obtain ⟨k', hk', hid, hkids⟩ := h.2 k hk
    refine (IdTree.isPath_cons hnil).mpr ⟨h.1.trans hi, k', hk', ?_⟩
    -- a path depends on the root's identity and on the children only
    cases k with
    | node a v ks =>
      cases k' with
      | node a' v' ks' =>
        obtain rfl : a' = a := hid
        obtain rfl : ks' = ks := hkids
        cases l with
        | nil => exact absurd rfl hnil
        | cons j l =>
          cases l with
          | _ => exact hp

/-- `m'` may be written in place of `m`: its addresses are those of `m` or new ones below `next`. -/
structure Fits (s : FuuState) (next : Nat) (m m' : Node) : Prop where
  id_eq : m'.id = m.id
  unique : m'.Unique
  mono : s.next ≤ next
  old_or_new : ∀ x ∈ m'.ids, x ∈ m.ids ∨ s.next ≤ x ∧ x < next

variable {next : Nat}

theorem Live.put (h : Live s doc) (hm : IdTree.Sub m doc) (hf : Fits s next m m') :
    Live (putNode s doc m.id m' next) (IdTree.set m.id m' doc) where
  doc_eq := rfl
  unique := by
    refine h.unique.set hm hf.unique fun x hx => (hf.old_or_new x hx).imp_right fun hnew hmem => ?_
    have := h.fresh x hmem
    omega
  fresh := by
    intro x hx
    show x < next
    have hmono := hf.mono
    rcases h.unique.mem_ids_set hm hx with hdoc | hm'
    · have := h.fresh x hdoc
      omega
    · rcases hf.old_or_new x hm' with hold | hnew
      · have := h.fresh x (hm.ids_subset hold)
        omega
      · exact hnew.2

theorem Walk.put (h : Walk chain s doc) (hm : IdTree.Sub m doc) (hf : Fits s next m m') (hg : Grows m m') :
    Walk chain (putNode s doc m.id m' next) (IdTree.set m.id m' doc) where
  live := h.live.put hm hf
  ctx := h.ctx.imp_right fun hp => hp.set h.live.unique hm fun _ => hg.isPath
  ctxDepth := h.ctxDepth
  path := h.path.set h.live.unique hm fun _ => hg.isPath
  depth := h.depth

variable {kids : List Node}

theorem fits_kids (h : Live s doc)
    (hm : IdTree.Sub m doc) (hsub : (kids.flatMap IdTree.ids).Sublist (m.kids.flatMap IdTree.ids)) :
    Fits s s.next m (withKids m kids) := by
  have hall : (withKids m kids).ids.Sublist m.ids := by
    rw [withKids, IdTree.ids_node, IdTree.ids_eq m]
    exact hsub.cons_cons _
  exact ⟨rfl, (h.unique.sub hm).sublist hall, le_rfl, fun x hx => .inl (hall.subset hx)⟩

theorem kidIds_materialized (env : Env) (pt : TypeRef) (m : Node) :
    (materialized env pt m).kids.flatMap IdTree.ids = m.kids.flatMap IdTree.ids := by
  have := ids_materialized env pt m
  rw [IdTree.ids_eq, IdTree.ids_eq m] at this
  exact (cons.inj this).2

variable {env : Env} {pt : TypeRef}

theorem fits_materialized (h : Live s doc) (hm : IdTree.Sub m doc) : Fits s s.next m (materialized env pt m) :=
  fits_kids h hm (kidIds_materialized env pt m ▸ Sublist.refl _)

theorem grows_materialized (env : Env) (pt : TypeRef) (m : Node) : Grows m (materialized env pt m) := by
  refine ⟨rfl, fun k hk => ?_⟩
  obtain ⟨i, hi, rfl⟩ := getElem_of_mem hk
  refine ⟨withPos env.di.insert (usesMpc env pt) m.kids i m.kids[i], ?_, by simp, by simp⟩
  exact mem_mapIdx.2 ⟨i, hi, rfl⟩

/-- A node at new addresses, `next` the first free one after it. -/
structure New (s : FuuState) (next : Nat) (k : Node) : Prop where
  unique : k.Unique
  mono : s.next ≤ next
  range : ∀ x ∈ k.ids, s.next ≤ x ∧ x < next

variable {k : Node}

theorem new_of_range (hle : s.next ≤ next) (hids : k.ids = range' s.next (next - s.next)) : New s next k where
  unique := by
    rw [IdTree.Unique, hids]
    exact nodup_range'
  mono := hle
  range := by
    intro x hx
    rw [hids, mem_range'_1] at hx
    omega

theorem new_leaf (s : FuuState) (d : NodeData) : New s (s.next + 1) (.node s.next d []) := by
  have hids : (IdTree.node s.next d []).ids = range' s.next (s.next + 1 - s.next) := by
    rw [IdTree.ids_node, Nat.add_sub_cancel_left]
    rfl
  exact new_of_range (Nat.le_succ _) hids

theorem new_label (s : FuuState) (t : BimNode) : New s (label t s.next).2 (label t s.next).1 :=
  new_of_range (label_ids t s.next).1.le (label_ids t s.next).2

variable {op : Tbc} {row : Row}

theorem IsOperand.new (h : IsOperand op row s.next next k) : New s next k := by
  rcases h with ⟨-, rfl, rfl⟩ | ⟨-, t, -, rfl, rfl⟩
  · exact new_leaf s _
  · exact new_label s t

theorem ids_placed (pos : Nat) (k : Node) : (placed pos k).ids = k.ids := by
  cases k with
  | node i d ks => rw [placed, IdTree.ids_node, IdTree.ids_node]

theorem New.placed (h : New s next k) (pos : Nat) : New s next (placed pos k) where
  unique := by
    rw [IdTree.Unique, ids_placed]
    exact h.unique
  mono := h.mono
  range := by
    rw [ids_placed]
    exact h.range

variable {left : List Node}

theorem fits_insertKid (h : Live s doc) (hm : IdTree.Sub m doc) (hk : New s next k)
    (hsub : (left.flatMap IdTree.ids).Sublist (m.kids.flatMap IdTree.ids)) (pt : BimType) (mpc : Bool) :
    Fits s next m (withKids m (insertKid pt mpc k left)) := by
  have hperm := (insertKid_perm pt mpc k left).flatMap_right IdTree.ids
  have hnd : (m.id :: m.kids.flatMap IdTree.ids).Nodup := by
    rw [← IdTree.ids_eq]
    exact h.unique.sub hm
  have hdisj : ∀ x ∈ k.ids, x ∉ m.id :: m.kids.flatMap IdTree.ids := by
    intro x hx hmx
    rw [← IdTree.ids_eq] at hmx
    have := h.fresh x (hm.ids_subset hmx)
    have := (hk.range x hx).1
    omega
  rw [nodup_cons] at hnd
  refine ⟨rfl, ?_, hk.mono, ?_⟩
  · rw [IdTree.Unique, withKids, IdTree.ids_node, nodup_cons, hperm.mem_iff, hperm.nodup_iff,
      flatMap_cons, mem_append, not_or, nodup_append]
    refine ⟨⟨fun hx => hdisj _ hx mem_cons_self, fun hx => hnd.1 (hsub.subset hx)⟩, hk.unique, hnd.2.sublist hsub, ?_⟩
    rintro x hx y hy rfl
    exact hdisj x hx (mem_cons_of_mem _ (hsub.subset hy))
  intro x hx
  rw [withKids, IdTree.ids_node, mem_cons, hperm.mem_iff, flatMap_cons, mem_append] at hx
  rw [IdTree.ids_eq, mem_cons]
  rcases hx with rfl | hx | hx
  · exact .inl (.inl rfl)
  · exact .inr (hk.range x hx)
  · exact .inl (.inr (hsub.subset hx))

theorem Grows.insertKid {m1 : Node} (h : Grows m m1) (k : Node) (pt : BimType) (mpc : Bool) :
    Grows m (withKids m (insertKid pt mpc k m1.kids)) := by
  refine ⟨rfl, fun x hx => ?_⟩
  obtain ⟨x', hx', hid, hkids⟩ := h.2 x hx
  exact ⟨x', (insertKid_perm pt mpc k m1.kids).mem_iff.2 (.tail _ hx'), hid, hkids⟩

variable {P : FuuState → Prop} {what : String}

theorem state_failed {α : Type} {Q : α → FuuState → Prop}
    (hP : ∀ s, P s → Inv s) : Triple P (state what : FuuM α) Q Failed :=
  triple_state fun e s hs => (hP s hs).failed e

theorem stateIf_failed {c : Bool} (hP : ∀ s, P s → Inv s) :
    Triple P (stateIf c what) (fun _ s => c = false ∧ P s) Failed :=
  triple_stateIf (fun e s hs => (hP s hs).failed e) fun hc _ hs => ⟨hc, hs⟩

/-! ## The way down -/

/-- On the way down, at the end of `chain`. -/
def Down (chain : Chain) (s : FuuState) : Prop := ∃ doc, Walk chain s doc

theorem Down.inv (h : Down chain s) : Inv s := by
  obtain ⟨doc, hw⟩ := h
  exact hw.inv

variable {c : Chain} {p : NodeId}

theorem Walk.last (h : Walk (c ++ [(p, pt)]) s doc) : ∃ m, IdTree.Sub m doc ∧ m.id = p ∧ doc.find? p = some m := by
  have hp := h.path
  rw [ids, map_append] at hp
  obtain ⟨m, hm, rfl⟩ := hp.sub_last
  exact ⟨m, hm, rfl, h.live.unique.find?_of_sub hm⟩

variable {qt : TypeRef}

theorem Walk.extend (h : Walk (c ++ [(m.id, pt)]) s doc) (hroom : (c ++ [(m.id, pt)]).length < bimCtxMax)
    (hm : IdTree.Sub m doc) (hk : k ∈ m.kids) : Walk (c ++ [(m.id, pt)] ++ [(k.id, qt)]) s doc where
  __ := h
  path := by
    have hp := h.path
    rw [ids, map_append] at hp ⊢
    rw [map_append]
    exact hp.extend h.live.unique hm hk
  depth := by
    rw [length_append, length_singleton]
    omega

variable {cmd : Command} {t : Tbc}

theorem contextChild_down {pos : Nat} (hroom : (c ++ [(p, pt)]).length < bimCtxMax) :
    Triple (Down (c ++ [(p, pt)])) (contextChild env cmd p pt t pos)
      (fun k => Down (c ++ [(p, pt)] ++ [(k, qt)])) Failed := by
  rintro s ⟨doc, hw⟩
  obtain ⟨m, hm, rfl, hfind⟩ := hw.last
  have hgrow := grows_materialized env pt m
  have hput := hw.put hm (fits_materialized hw.live hm) hgrow
  have hsub := hw.live.unique.sub_set (materialized env pt m) hm
  rcases contextChild_cases env cmd pt t pos hw.live.doc_eq hfind with
    ⟨e, hrun⟩ | ⟨i, k, hk, hrun⟩ | ⟨j, k, -, rfl, -, hk, hrun⟩
  · rw [hrun]
    exact hput.inv.failed e
  · rw [hrun]
    have hpath : Walk (c ++ [((materialized env pt m).id, pt)]) _ _ := hput
    exact ⟨_, hpath.extend hroom hsub (mem_of_getElem? hk)⟩
  · rw [hrun]
    have hsame : ((materialized env pt m).kids.flatMap IdTree.ids).Sublist
        (m.kids.flatMap IdTree.ids) := kidIds_materialized env pt m ▸ Sublist.refl _
    have hfits := fits_insertKid hw.live hm (new_leaf s (added t pos)) hsame (env.types pt)
      (usesMpc env pt)
    have hpath : Walk (c ++ [((withKids m (insertKid (env.types pt) (usesMpc env pt)
        (.node s.next (added t pos) []) (materialized env pt m).kids)).id, pt)]) _ _ :=
      hw.put hm hfits (hgrow.insertKid _ _ _)
    exact ⟨_, hpath.extend hroom (hw.live.unique.sub_set _ hm) (mem_of_getElem? hk)⟩

theorem chain_eq {x : NodeId × TypeRef} (h : chain.getLast? = some x) : chain = chain.dropLast ++ [x] := by
  obtain ⟨l, rfl⟩ := getLast?_eq_some_iff.1 h
  simp

theorem descendElem_down (env : Env) (cmd : Command) (chain : Chain) (t : Tbc) (pos : Nat) :
    Triple (Down chain) (descendElem env cmd chain t pos) Down Failed := by
  refine Triple.bind (stateIf_failed fun s h => h.inv) fun _ => ?_
  refine triple_of_pre (fun s h => h.1) fun hroom => Triple.pre ?_ fun s h => h.2
  cases hlast : chain.getLast? with
  | none =>
    -- a chain on the way down is not empty
    rintro s ⟨doc, hw⟩
    rw [getLast?_eq_none_iff] at hlast
    exact absurd (by rw [hlast]; rfl) hw.path.ne_nil
  | some x =>
    have hlen : chain.length < bimCtxMax := by simpa using hroom
    rw [chain_eq hlast] at hlen ⊢
    exact Triple.bind (contextChild_down hlen) fun k => triple_pure _ fun s h => h

theorem descendStep_down (env : Env) (cmd : Command) (chain : Chain) (t : Tbc) (pos : Nat) :
    Triple (Down chain) (descendStep env cmd chain t pos) Down Failed := by
  unfold descendStep
  split
  · exact triple_pure _ fun s h => h
  · refine Triple.bind (stateIf_failed fun s h => h.inv) fun _ => ?_
    refine triple_of_pre (fun s h => h.1) fun hlen => triple_pure _ ?_
    rintro s ⟨-, doc, hw⟩
    have hlen : 2 ≤ chain.length := by
      simp at hlen
      omega
    have hids : ids chain.dropLast = (ids chain).dropLast := map_dropLast
    have hne : ids chain.dropLast ≠ [] := by
      rw [← length_pos_iff, ids, length_map, length_dropLast]
      omega
    refine ⟨doc, hw.live, hw.ctx, hw.ctxDepth, ?_, ?_⟩
    · have hpath := hw.path
      rw [← dropLast_append_getLast hpath.ne_nil, ← hids] at hpath
      exact hpath.cut hne
    · have := hw.depth
      rw [length_dropLast]
      omega
  all_goals exact descendElem_down env cmd chain t pos

theorem descendLoop_down (env : Env) (cmd : Command) (steps : List (Tbc × Nat)) (chain : Chain) :
    Triple (Down chain) (descendLoop env cmd steps chain) Down Failed := by
  induction steps generalizing chain with
  | nil => exact triple_pure _ fun s h => h
  | cons x rest ih => exact Triple.bind (descendStep_down env cmd chain x.1 x.2) ih

theorem descendRoot_down {cmd : Command} {t : Tbc} {pt : TypeRef} :
    Triple Inv (descendRoot cmd t) (fun r => Down [(r, pt)]) Failed := by
  refine Triple.bind (triple_get (Q := fun v s => v = s ∧ Inv s) fun s h => ⟨rfl, h⟩) fun v => ?_
  cases hd : v.doc with
  | none =>
    refine Triple.bind (stateIf_failed fun s h => h.2) fun _ => ?_
    rintro s ⟨-, rfl, h⟩
    -- there was no document, so no context either
    have hctx : v.ctx = [] := by
      rcases h.ctx with hnil | ⟨doc, hdoc, -⟩
      · exact hnil
      · rw [hd] at hdoc
        cases hdoc
    have hnew := new_leaf v { name := t.name, ns := t.ns }
    refine ⟨_, ⟨rfl, hnew.unique, fun x hx => (hnew.range x hx).2⟩, .inl hctx, h.depth, rfl, ?_⟩
    show 1 ≤ bimCtxMax
    decide
  | some d =>
    refine Triple.bind (stateIf_failed fun s h => h.2) fun _ => triple_pure _ ?_
    rintro s ⟨-, rfl, h⟩
    refine ⟨d, h.live d hd, ?_, h.depth, rfl, ?_⟩
    · rcases h.ctx with hnil | ⟨doc, hdoc, hp⟩
      · exact .inl hnil
      · rw [hd] at hdoc
        exact .inr (some.inj hdoc ▸ hp)
    · show 1 ≤ bimCtxMax
      decide

variable {f : BimFuu}

theorem descend_down (hf : f.tbcs ≠ []) (habs : f.relative = false → ∀ s, P s → Inv s)
    (hrel : f.relative = true → ∀ s, P s → Down chain s) : Triple P (descend env f row chain) Down Failed := by
  unfold descend
  split
  · next h => exact (descendLoop_down _ _ _ _).pre (hrel h)
  rename_i h
  split
  · next hnil => exact absurd hnil hf
  · next t _ _ =>
    have hroot := @descendRoot_down f.command t t.type
    exact Triple.bind (hroot.pre (habs (by simpa using h))) fun r => descendLoop_down _ _ _ _

/-! ## The operand -/

/-- The command is done: `chain` is a path, the old context may not be one any more. -/
def Done (chain : Chain) (s : FuuState) : Prop :=
  ∃ doc, Live s doc ∧ IdTree.IsPath (ids chain) doc ∧ chain.length ≤ bimCtxMax

/-- A write at the end of the chain keeps the chain, whatever happens to the children. -/
theorem Walk.done_put (h : Walk (c ++ [(m.id, pt)]) s doc) (hm : IdTree.Sub m doc) (hf : Fits s next m m') :
    Done (c ++ [(m.id, pt)]) (putNode s doc m.id m' next) := by
  refine ⟨_, h.live.put hm hf, ?_, h.depth⟩
  have hp := h.path
  rw [ids, map_append] at hp ⊢
  exact hp.set_last h.live.unique hm hf.id_eq

theorem operandPlace_sublist {r : Lookup} (h : operandPlace cmd r kids = some left) : left.Sublist kids := by
  unfold operandPlace at h
  split at h
  · exact some.inj h ▸ Sublist.refl _
  · exact some.inj h ▸ eraseIdx_sublist _ _
  · exact some.inj h ▸ eraseIdx_sublist _ _
  · cases h

theorem opChild_done (hrow : cmd ≠ .delete → op.kind ≠ .chardata → row.payload.isSome) :
    Triple (Down (c ++ [(p, pt)])) (opChild env cmd op row p pt)
      (fun _ => Done (c ++ [(p, pt)])) Failed := by
  rintro s ⟨doc, hw⟩
  obtain ⟨m, hm, rfl, hfind⟩ := hw.last
  rcases opChild_cases env cmd pt hw.live.doc_eq hfind hrow with
    ⟨e, hrun⟩ | ⟨i, -, -, hrun⟩ | ⟨left, k, next, hleft, hk, hrun⟩
  · rw [hrun]
    have hput := hw.put hm (fits_materialized hw.live hm) (grows_materialized env pt m)
    exact hput.inv.failed e
  · rw [hrun]
    refine hw.done_put hm (fits_kids hw.live hm ?_)
    rw [← kidIds_materialized env pt m]
    exact (eraseIdx_sublist _ _).flatMap _
  · rw [hrun]
    refine hw.done_put hm (fits_insertKid hw.live hm (hk.new.placed _) ?_ _ _)
    rw [← kidIds_materialized env pt m]
    exact (operandPlace_sublist hleft).flatMap _

theorem fits_withVal (h : Live s doc) (hm : IdTree.Sub m doc) (d : NodeData) : Fits s s.next m (withVal m d) := by
  have hids : (withVal m d).ids = m.ids := by rw [withVal, IdTree.ids_node, ← IdTree.ids_eq]
  refine ⟨rfl, ?_, le_rfl, fun x hx => .inl (hids ▸ hx)⟩
  rw [IdTree.Unique, hids]
  exact h.unique.sub hm

variable {v : Option CStr}

theorem opText_done : Triple (Down (c ++ [(p, pt)])) (opText p cmd v) (fun _ => Done (c ++ [(p, pt)])) Failed := by
  rintro s ⟨doc, hw⟩
  obtain ⟨m, hm, rfl, hfind⟩ := hw.last
  rcases opText_cases cmd v hw.live.doc_eq hfind with ⟨e, hrun⟩ | ⟨text, hrun⟩
  · rw [hrun]
    exact hw.inv.failed e
  · rw [hrun]
    exact hw.done_put hm (fits_withVal hw.live hm _)

theorem opAttr_done (hname : t.name.isSome) (hv : cmd ≠ .delete → v.isSome) :
    Triple (Down (c ++ [(p, pt)])) (opAttr p t cmd v) (fun _ => Done (c ++ [(p, pt)])) Failed := by
  rintro s ⟨doc, hw⟩
  obtain ⟨m, hm, rfl, hfind⟩ := hw.last
  rcases opAttr_cases cmd hw.live.doc_eq hfind hname hv with ⟨e, hrun⟩ | ⟨attrs, hrun⟩
  · rw [hrun]
    exact hw.inv.failed e
  · rw [hrun]
    exact hw.done_put hm (fits_withVal hw.live hm _)

/-! ## Whole calls -/

variable {r : Row} {tbcs : List Tbc}

theorem rowOk_operand (h : rowOk cmd tbcs r = true) (hop : tbcs.getLast? = some op) :
    (op.kind = .attr → op.name.isSome) ∧ (op.kind = .attr → cmd ≠ .delete → r.value.isSome) ∧
      (op.kind ≠ .attr → op.kind ≠ .simple → cmd ≠ .delete → op.kind ≠ .chardata → r.payload.isSome) := by
  simp only [rowOk, hop, Bool.and_eq_true] at h
  obtain ⟨-, h⟩ := h
  cases hk : op.kind with
  | elem =>
    rw [hk] at h
    simp only [Bool.or_eq_true, decide_eq_true_eq] at h
    exact ⟨by simp, by simp, fun _ _ hcmd _ => h.resolve_left hcmd⟩
  | attr =>
    rw [hk] at h
    simp only [Bool.and_eq_true, Bool.or_eq_true, decide_eq_true_eq] at h
    exact ⟨fun _ => h.1, fun _ hcmd => h.2.resolve_left hcmd, by simp⟩
  | simple => simp
  | chardata => simp
  | _ => simp [hk] at h

theorem rowOk_tbcs (h : rowOk cmd tbcs r = true) : ∃ first op, tbcs.head? = some first ∧ tbcs.getLast? = some op := by
  cases tbcs with
  | nil => simp [rowOk] at h
  | cons t ts => exact ⟨t, (t :: ts).getLast (cons_ne_nil _ _), rfl, getLast?_eq_some_getLast _⟩

theorem operate_done (hrow : rowOk f.command f.tbcs row = true) (hop : f.tbcs.getLast? = some op) :
    Triple (Down chain) (operate env f op row chain) (fun _ => Done chain) Failed := by
  obtain ⟨hname, hvalue, hpayload⟩ := rowOk_operand hrow hop
  unfold operate
  cases hlast : chain.getLast? with
  | none => exact state_failed fun s h => h.inv
  | some x =>
    obtain ⟨p, pt⟩ := x
    rw [chain_eq hlast]
    have hchild : op.kind ≠ .attr → op.kind ≠ .simple → Triple (Down (chain.dropLast ++ [(p, pt)]))
        (opChild env f.command op row p pt) (fun _ => Done (chain.dropLast ++ [(p, pt)])) Failed :=
      fun ha hs => opChild_done (hpayload ha hs)
    cases hk : op.kind with
    | attr => exact opAttr_done (hname hk) (hvalue hk)
    | simple => exact opText_done
    | _ => exact hchild (by simp [hk]) (by simp [hk])

theorem Done.inv (schema : Nat) (h : Done chain s) : Inv { s with ctx := chain, lastSchema := schema } := by
  obtain ⟨doc, hl, hp, hd⟩ := h
  refine ⟨?_, .inr ⟨doc, hl.doc_eq, hp⟩, hd⟩
  intro d hdoc
  rw [hl.doc_eq] at hdoc
  cases hdoc
  exact ⟨hl.doc_eq, hl.unique, hl.fresh⟩

theorem applyAt_inv (hrow : rowOk f.command f.tbcs row = true) (hop : f.tbcs.getLast? = some op)
    (habs : f.relative = false → ∀ s, P s → Inv s) (hrel : f.relative = true → ∀ s, P s → Down chain s) :
    Triple P (applyAt env f op row chain) (fun _ => Inv) Failed := by
  have hne : f.tbcs ≠ [] := fun h => by simp [h] at hop
  refine Triple.bind (descend_down hne habs hrel) fun chain' => ?_
  refine Triple.bind (operate_done hrow hop) fun _ => ?_
  exact triple_modify _ fun s h => h.inv f.schema

theorem opTopmost_inv : Triple Inv (opTopmost f op row) (fun _ => Inv) Failed := by
  refine Triple.bind (stateIf_failed fun s h => h) fun _ => Triple.pre ?_ fun s h => h.2
  refine Triple.bind (triple_get (Q := fun _ s => Inv s) fun s h => h) fun v => ?_
  refine Triple.bind (stateIf_failed fun s h => h) fun _ => Triple.pre ?_ fun s h => h.2
  refine Triple.bind (stateIf_failed fun s h => h) fun _ => Triple.pre ?_ fun s h => h.2
  have hdoc : Triple Inv (topmostDoc f row)
      (fun d s => ∀ n, d = some n → n.Unique ∧ ∀ x ∈ n.ids, x < s.next) Failed := by
    refine triple_ite (fun _ => triple_pure _ fun s _ n hn => absurd hn (by simp)) fun _ => ?_
    cases row.payload with
    | none => exact triple_pure _ fun s _ n hn => absurd hn (by simp)
    | some t =>
      rintro s - n hn
      cases hn
      exact ⟨(new_label s t).unique, fun x hx => ((new_label s t).range x hx).2⟩
  refine Triple.bind hdoc fun d => triple_modify _ fun s h => ?_
  refine ⟨fun n hn => ?_, .inl rfl, Nat.zero_le _⟩
  obtain ⟨hu, hlt⟩ := h n hn
  exact ⟨hn, hu, hlt⟩

theorem applyOne_inv (hrow : rowOk f.command f.tbcs row = true) :
    Triple Inv (applyOne env f row) (fun _ => Inv) Failed := by
  obtain ⟨first, op, hfirst, hop⟩ := rowOk_tbcs hrow
  unfold applyOne
  simp only [hop, hfirst]
  refine triple_ite (fun hrel => ?_) fun habs => ?_
  · refine Triple.bind (triple_get (Q := fun v s => v = s ∧ Inv s) fun s h => ⟨rfl, h⟩) fun v => ?_
    refine Triple.bind (stateIf_failed fun s h => h.2) fun _ => ?_
    refine applyAt_inv hrow hop (fun h => absurd hrel (by simp [h])) fun _ => ?_
    rintro s ⟨hctx, rfl, h⟩
    -- the context is not empty, so it is a path
    rcases h.ctx with hnil | ⟨doc, hd, hp⟩
    · exact absurd hctx (by simp [hnil])
    · exact ⟨doc, h.live doc hd, .inr hp, h.depth, hp, h.depth⟩
  · refine triple_ite (fun _ => opTopmost_inv) fun _ => ?_
    exact applyAt_inv hrow hop (fun _ s h => h) fun h => absurd h habs

theorem applyRows_inv (rows : List Row) (hrows : ∀ r ∈ rows, rowOk f.command f.tbcs r = true) :
    Triple Inv (applyRows env f rows) (fun _ => Inv) Failed := by
  induction rows with
  | nil => exact triple_pure _ fun s h => h
  | cons r rest ih =>
    refine Triple.bind (applyOne_inv (hrows r mem_cons_self)) fun _ => ?_
    exact ih fun x hx => hrows x (.tail _ hx)

theorem bimFuuApply_inv (env : Env) (f : BimFuu) : Triple Inv (bimFuuApply env f) (fun _ => Inv) Failed := by
  refine triple_ite (fun _ => triple_modify _ fun s h => ?_) fun _ => ?_
  · exact ⟨fun n hn => absurd hn (by simp), .inl rfl, Nat.zero_le _⟩
  · exact triple_ite (fun _ => triple_pure _ fun s h => h) fun _ => applyRows_inv _ f.rows_ok

theorem Reachable.inv (h : Reachable env s) : Inv s := by
  induction h with
  | empty => exact ⟨fun n hn => absurd hn (by simp), .inl rfl, Nat.zero_le _⟩
  | @apply s f _ ih =>
    have hcall := bimFuuApply_inv env f s ih
    unfold stateAfter
    cases hr : bimFuuApply env f s with
    | ok a s' =>
      rw [hr] at hcall
      exact hcall
    | error e s' =>
      rw [hr] at hcall
      exact hcall.2

/-- After any sequence of calls, failed ones among them, the context is empty or a chain of live nodes
from the topmost one down, of at most `BIM_CTX_MAX` nodes; and no call follows a pointer to a node
that is gone. -/
theorem ctx_chain_live (env : Env) (s : FuuState) (h : Reachable env s) :
    (s.ctx = [] ∨ ∃ doc, s.doc = some doc ∧ IdTree.IsPath (ids s.ctx) doc) ∧
      s.ctx.length ≤ bimCtxMax ∧ ∀ f s', bimFuuApply env f s ≠ .error .fault s' := by
  refine ⟨h.inv.ctx, h.inv.depth, fun f s' hf => ?_⟩
  have hcall := bimFuuApply_inv env f s h.inv
  rw [hf] at hcall
  exact hcall.1 rfl

/-- AddContent of the text `x` at a path a/b/c of which nothing exists yet. -/
def addPath : BimFuu where
  command := .add
  tbcs := [97, 98, 99].map (fun b => { kind := .elem, name := some (CStr.ofBytes [b]) }) ++ [{ kind := .simple }]
  rows := [{ pos := [0, 0, 0, 0], value := some ⟨[120], by decide⟩ }]

/-- DeleteContent of the element c of the parent of the context. -/
def deleteLeaf : BimFuu where
  command := .delete
  mode := 2
  tbcs := [{ kind := .parent }, { kind := .elem, name := some (CStr.ofBytes [99]) }]
  rows := [{ pos := [0, 0] }]

def plainEnv : Env := ⟨{ mpegb := false }, fun _ => {}⟩

def pathAdded : FuuState := stateAfter (bimFuuApply plainEnv addPath) {}

def leafDeleted : FuuState := stateAfter (bimFuuApply plainEnv deleteLeaf) pathAdded

theorem ctx_chain_live_deleteLeaf : pathAdded.ctx = [(0, 0), (1, 0), (2, 0)] ∧ leafDeleted.ctx = [(0, 0), (1, 0)] ∧
    ∃ doc, leafDeleted.doc = some doc ∧ IdTree.IsPath (ids leafDeleted.ctx) doc := by
  have hctx : leafDeleted.ctx = [(0, 0), (1, 0)] := by decide +kernel
  refine ⟨by decide +kernel, hctx, ?_⟩
  rcases (ctx_chain_live plainEnv leafDeleted (.apply deleteLeaf (.apply addPath .empty))).1 with hnil | hpath
  · simp [hctx] at hnil
  · exact hpath

end DvbIpiTools.Bim.Fuu
