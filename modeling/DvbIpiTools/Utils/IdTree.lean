import Mathlib.Data.List.Nodup
import Mathlib.Data.List.Pairwise
import Mathlib.Data.List.Perm.Basic

set_option autoImplicit false

/-! # Trees whose nodes have an identity

A program that keeps references into a tree and frees subtrees of it is modelled by a tree whose
nodes carry an identity (the address) beside their data: a reference is live when the tree holds a
node of that identity. `find?` follows a reference, `set` writes a node back, `IsPath` says that a
list of references leads from the root down, one child at a time. As long as identities are unique a
path survives every write below it, and every write that keeps the children along it. -/

/-- A tree of nodes with identity and data. -/
inductive IdTree (α : Type) where
  | node (id : Nat) (val : α) (kids : List (IdTree α))

namespace IdTree

open List

variable {α : Type}

/-- Identity of the root. -/
def id : IdTree α → Nat
  | node i _ _ => i

/-- Data of the root. -/
def val : IdTree α → α
  | node _ v _ => v

/-- Children of the root. -/
def kids : IdTree α → List (IdTree α)
  | node _ _ ks => ks

variable (i : Nat)

@[simp] theorem id_node (v : α) (ks : List (IdTree α)) : (node i v ks).id = i := rfl
@[simp] theorem val_node (v : α) (ks : List (IdTree α)) : (node i v ks).val = v := rfl
@[simp] theorem kids_node (v : α) (ks : List (IdTree α)) : (node i v ks).kids = ks := rfl
/-- Induction over the tree, with the children's hypotheses as a statement about the list. -/
@[elab_as_elim]
theorem induct {P : IdTree α → Prop} (step : ∀ i v ks, (∀ k ∈ ks, P k) → P (node i v ks)) (t : IdTree α) : P t :=
  @IdTree.rec α P (fun ks => ∀ k ∈ ks, P k) step
    (nofun)
    (fun k ks hk hks x hx => by
      rcases mem_cons.1 hx with rfl | hx
      · exact hk
      · exact hks x hx)
    t

mutual

/-- Identities of all nodes. -/
def ids : IdTree α → List Nat
  | node i _ ks => i :: idsKids ks

/-- Identities of all nodes of a forest. -/
def idsKids : List (IdTree α) → List Nat
  | [] => []
  | k :: ks => k.ids ++ idsKids ks

end

mutual

/-- The node of identity `p`. -/
def find? (p : Nat) : IdTree α → Option (IdTree α)
  | node i v ks => if i = p then some (node i v ks) else findKids? p ks

/-- The node of identity `p` in a forest. -/
def findKids? (p : Nat) : List (IdTree α) → Option (IdTree α)
  | [] => none
  | k :: ks => (k.find? p).orElse fun _ => findKids? p ks

end

mutual

/-- The tree with `m` in place of its node of identity `p`. -/
def set (p : Nat) (m : IdTree α) : IdTree α → IdTree α
  | node i v ks => if i = p then m else node i v (setKids p m ks)

/-- The forest with `m` in place of its node of identity `p`. -/
def setKids (p : Nat) (m : IdTree α) : List (IdTree α) → List (IdTree α)
  | [] => []
  | k :: ks => set p m k :: setKids p m ks

end

theorem idsKids_eq (ks : List (IdTree α)) : idsKids ks = ks.flatMap ids := by
  induction ks with
  | nil => rfl
  | cons k ks ih => rw [idsKids, ih, flatMap_cons]

theorem setKids_eq (p : Nat) (m : IdTree α) (ks : List (IdTree α)) : setKids p m ks = ks.map (set p m) := by
  induction ks with
  | nil => rfl
  | cons k ks ih => rw [setKids, ih, map_cons]

theorem ids_node (v : α) (ks : List (IdTree α)) : (node i v ks).ids = i :: ks.flatMap ids := by
  rw [ids, idsKids_eq]

theorem ids_eq (t : IdTree α) : t.ids = t.id :: t.kids.flatMap ids := by
  cases t with
  | node i v ks => exact ids_node i v ks

theorem id_mem_ids (t : IdTree α) : t.id ∈ t.ids := by
  rw [ids_eq]
  exact mem_cons_self

theorem set_node (p : Nat) (m : IdTree α) (i : Nat) (v : α) (ks : List (IdTree α)) :
    set p m (node i v ks) = if i = p then m else node i v (ks.map (set p m)) := by
  rw [set, setKids_eq]

/-! ## Nodes of a tree -/

/-- `Sub m t`: `m` is a node of `t`, with everything below it. -/
inductive Sub (m : IdTree α) : IdTree α → Prop where
  | refl : Sub m m
  | kid {k t : IdTree α} (hk : k ∈ t.kids) (h : Sub m k) : Sub m t

theorem Sub.trans {a b c : IdTree α} (hab : Sub a b) (hbc : Sub b c) : Sub a c := by
  induction hbc with
  | refl => exact hab
  | kid hk _ ih => exact .kid hk ih

variable {m t : IdTree α}

theorem Sub.ids_subset (h : Sub m t) : m.ids ⊆ t.ids := by
  induction h with
  | refl => exact Subset.refl _
  | @kid k t hk _ ih =>
    intro x hx
    rw [ids_eq]
    exact mem_cons_of_mem _ (mem_flatMap.2 ⟨k, hk, ih hx⟩)

variable {p : Nat} {ks : List (IdTree α)}

theorem findKids?_some : findKids? p ks = some m → ∃ k ∈ ks, k.find? p = some m := by
  induction ks with
  | nil =>
    intro h
    cases h
  | cons k ks ih =>
    intro h
    rw [findKids?] at h
    cases hk : k.find? p with
    | some x =>
      rw [hk] at h
      have : x = m := by simpa using h
      exact ⟨k, mem_cons_self, by rw [hk, this]⟩
    | none =>
      rw [hk] at h
      obtain ⟨k', hk', hf⟩ := ih (by simpa using h)
      exact ⟨k', mem_cons_of_mem _ hk', hf⟩

theorem findKids?_none : findKids? p ks = none ↔ ∀ k ∈ ks, k.find? p = none := by
  induction ks with
  | nil => simp [findKids?]
  | cons k ks ih =>
    rw [findKids?, forall_mem_cons, ← ih]
    cases k.find? p <;> simp

theorem sub_of_find? : t.find? p = some m → Sub m t ∧ m.id = p := by
  induction t using induct with
  | step i v ks ih =>
    intro h
    rw [find?] at h
    split at h
    · next hi =>
      obtain rfl : node i v ks = m := by simpa using h
      exact ⟨.refl, hi⟩
    · obtain ⟨k, hk, hf⟩ := findKids?_some h
      obtain ⟨hs, hid⟩ := ih k hk hf
      exact ⟨.kid hk hs, hid⟩

theorem find?_isSome : (t.find? p).isSome ↔ p ∈ t.ids := by
  induction t using induct with
  | step i v ks ih =>
    rw [find?, ids_node]
    split
    · next hi => simp [hi]
    rename_i hi
    rw [mem_cons, mem_flatMap]
    constructor
    · intro h
      obtain ⟨m, hm⟩ := Option.isSome_iff_exists.1 h
      obtain ⟨k, hk, hf⟩ := findKids?_some hm
      exact .inr ⟨k, hk, (ih k hk).mp (by rw [hf]; rfl)⟩
    rintro (rfl | ⟨k, hk, hp⟩)
    · exact absurd rfl hi
    · by_contra hnone
      rw [Option.not_isSome_iff_eq_none, findKids?_none] at hnone
      have := (ih k hk).mpr hp
      rw [hnone k hk] at this
      cases this

theorem find?_eq_none : t.find? p = none ↔ p ∉ t.ids := by rw [← find?_isSome, Option.not_isSome_iff_eq_none]

/-! ## Unique identities -/

/-- No two nodes share an identity. -/
def Unique (t : IdTree α) : Prop := t.ids.Nodup

theorem Unique.kid {t k : IdTree α} (ht : t.Unique) (hk : k ∈ t.kids) : k.Unique := by
  rw [Unique, ids_eq, nodup_cons] at ht
  exact (nodup_flatMap.1 ht.2).1 k hk

theorem Unique.sub (ht : t.Unique) (h : Sub m t) : m.Unique := by
  induction h with
  | refl => exact ht
  | kid hk _ ih => exact ih (ht.kid hk)

variable {k : IdTree α}

theorem Unique.id_not_mem (ht : t.Unique) (hk : k ∈ t.kids) : t.id ∉ k.ids := by
  rw [Unique, ids_eq, nodup_cons] at ht
  intro h
  exact ht.1 (mem_flatMap.2 ⟨k, hk, h⟩)

theorem Unique.kid_eq {k' : IdTree α} (ht : t.Unique) (hk : k ∈ t.kids) (hk' : k' ∈ t.kids) (hp : p ∈ k.ids) (hp' : p ∈ k'.ids) : k = k' := by
  rw [Unique, ids_eq, nodup_cons] at ht
  have hpw := (nodup_flatMap.1 ht.2).2
  by_contra hne
  have : Std.Symm (Function.onFun List.Disjoint (ids (α := α))) := ⟨fun _ _ h _ hx hy => h hy hx⟩
  exact hpw.forall hk hk' hne hp hp'

theorem Unique.find?_of_sub (ht : t.Unique) (h : Sub m t) : t.find? m.id = some m := by
  induction h with
  | refl =>
    cases m with
    | node i v ks => simp [find?]
  | @kid k t hk hs ih =>
    have hmem : m.id ∈ k.ids := hs.ids_subset (id_mem_ids m)
    have hsome : (t.find? m.id).isSome := by
      rw [find?_isSome, ids_eq]
      exact mem_cons_of_mem _ (mem_flatMap.2 ⟨k, hk, hmem⟩)
    obtain ⟨x, hx⟩ := Option.isSome_iff_exists.1 hsome
    -- the lookup goes below a child, and by uniqueness below `k`
    cases t with
    | node i v ks =>
      rw [find?] at hx
      split at hx
      · next hi => exact absurd (hi ▸ hmem) (ht.id_not_mem hk)
      rename_i hi
      obtain ⟨k', hk', hf⟩ := findKids?_some hx
      have hmem' : m.id ∈ k'.ids := find?_isSome.1 (by rw [hf]; rfl)
      obtain rfl := ht.kid_eq hk hk' hmem hmem'
      rw [ih (ht.kid hk)] at hf
      rw [find?, if_neg hi, hx, hf]

variable {m' : IdTree α}

theorem Unique.eq_of_id_eq (ht : t.Unique) (hm : Sub m t) (hm' : Sub m' t) (h : m.id = m'.id) : m = m' := by
  have hfind := ht.find?_of_sub hm
  rw [h, ht.find?_of_sub hm'] at hfind
  exact (Option.some.inj hfind).symm

/-- A node other than the root is below the child that holds its identity. -/
theorem Unique.sub_of_mem (ht : t.Unique) (hm : Sub m t) (hk : k ∈ t.kids)
    (hne : t.id ≠ m.id) (hmem : m.id ∈ k.ids) : Sub m k := by
  cases hm with
  | refl => exact absurd rfl hne
  | @kid k' _ hk' hs =>
    obtain rfl := ht.kid_eq hk' hk (hs.ids_subset (id_mem_ids m)) hmem
    exact hs

/-! ## Writing a node back -/

theorem set_of_not_mem (m : IdTree α) : p ∉ t.ids → set p m t = t := by
  induction t using induct with
  | step i v ks ih =>
    intro h
    rw [ids_node, mem_cons, mem_flatMap, not_or] at h
    rw [set_node, if_neg (Ne.symm h.1)]
    congr 1
    conv_rhs => rw [← map_id ks]
    apply map_congr_left
    intro k hk
    exact ih k hk fun hp => h.2 ⟨k, hk, hp⟩

theorem set_self (m m' : IdTree α) : set m.id m' m = m' := by
  cases m with
  | node i v ks => rw [set_node, id_node, if_pos rfl]

theorem set_of_ne (m : IdTree α) (h : t.id ≠ p) : set p m t = node t.id t.val (t.kids.map (set p m)) := by
  cases t with
  | node i v ks => rw [set_node, if_neg (by exact h)]; rfl

variable (ht : t.Unique)

include ht

theorem Unique.map_set (m : IdTree α) {l r : List (IdTree α)} (hs : t.kids = l ++ k :: r) (hp : p ∈ k.ids) :
    t.kids.map (set p m) = l ++ set p m k :: r := by
  have hnd : (t.kids.flatMap ids).Nodup := by
    rw [Unique, ids_eq, nodup_cons] at ht
    exact ht.2
  rw [hs, flatMap_append, flatMap_cons, nodup_append, nodup_append] at hnd
  obtain ⟨-, ⟨-, -, hr⟩, hl⟩ := hnd
  have hleft : ∀ x ∈ l, set p m x = x := by
    intro x hx
    apply set_of_not_mem
    intro hpx
    exact hl p (mem_flatMap.2 ⟨x, hx, hpx⟩) p (mem_append_left _ hp) rfl
  have hright : ∀ x ∈ r, set p m x = x := by
    intro x hx
    apply set_of_not_mem
    intro hpx
    exact hr p hp p (mem_flatMap.2 ⟨x, hx, hpx⟩) rfl
  rw [hs, map_append, map_cons, map_congr_left hleft, map_congr_left hright]
  simp

theorem Unique.ids_set (h : Sub m t) (m' : IdTree α) :
    ∃ rest, t.ids.Perm (rest ++ m.ids) ∧ (set m.id m' t).ids.Perm (rest ++ m'.ids) := by
  induction h with
  | refl =>
    refine ⟨[], Perm.refl _, ?_⟩
    rw [set_self]
    exact Perm.refl _
  | @kid k t hk hs ih =>
    obtain ⟨rest, h1, h2⟩ := ih (ht.kid hk)
    obtain ⟨l, r, hkids⟩ := append_of_mem hk
    have hmem : m.id ∈ k.ids := hs.ids_subset (id_mem_ids m)
    have hset := ht.map_set m' hkids hmem
    have hne : t.id ≠ m.id := fun he => ht.id_not_mem hk (he ▸ hmem)
    have hshape : ∀ a b : List Nat, a.Perm (rest ++ b) → (l.flatMap ids ++ (a ++ r.flatMap ids)).Perm
          (l.flatMap ids ++ (r.flatMap ids ++ rest) ++ b) := by
      intro a b hab
      rw [append_assoc, append_assoc]
      refine List.Perm.append_left _ (perm_append_comm.trans ?_)
      exact List.Perm.append_left _ hab
    refine ⟨t.id :: (l.flatMap ids ++ (r.flatMap ids ++ rest)), ?_, ?_⟩
    · rw [ids_eq, hkids, flatMap_append, flatMap_cons, cons_append]
      exact (hshape _ _ h1).cons _
    · rw [set_of_ne m' hne, ids_node, hset, flatMap_append, flatMap_cons, cons_append]
      exact (hshape _ _ h2).cons _

/-- Identities stay unique when the written node brings none that the tree holds elsewhere. -/
theorem Unique.set (h : Sub m t) (hm' : m'.Unique)
    (hfresh : ∀ x ∈ m'.ids, x ∈ m.ids ∨ x ∉ t.ids) : (set m.id m' t).Unique := by
  obtain ⟨rest, h1, h2⟩ := ht.ids_set h m'
  have hnd : (rest ++ m.ids).Nodup := h1.nodup_iff.1 ht
  rw [nodup_append] at hnd
  rw [Unique, h2.nodup_iff, nodup_append]
  refine ⟨hnd.1, hm', ?_⟩
  rintro x hx y hy rfl
  rcases hfresh x hy with hmem | hnot
  · exact hnd.2.2 x hx x hmem rfl
  · exact hnot (h1.mem_iff.2 (mem_append_left _ hx))

theorem Unique.mem_ids_set (h : Sub m t) {x : Nat} (hx : x ∈ (IdTree.set m.id m' t).ids) : x ∈ t.ids ∨ x ∈ m'.ids := by
  obtain ⟨rest, h1, h2⟩ := ht.ids_set h m'
  rcases mem_append.1 (h2.mem_iff.1 hx) with hr | hm
  · exact .inl (h1.mem_iff.2 (mem_append_left _ hr))
  · exact .inr hm

theorem Unique.sub_set (m' : IdTree α) (h : Sub m t) : Sub m' (IdTree.set m.id m' t) := by
  induction h with
  | refl =>
    rw [set_self]
    exact .refl
  | @kid k t hk hs ih =>
    have hmem : m.id ∈ k.ids := hs.ids_subset (id_mem_ids m)
    have hne : t.id ≠ m.id := fun he => ht.id_not_mem hk (he ▸ hmem)
    rw [set_of_ne m' hne]
    exact .kid (mem_map.2 ⟨k, hk, rfl⟩) (ih (ht.kid hk))

omit ht

/-- A node after a write is in what was written, or an old node with the write below it. -/
theorem sub_set_cases {x : IdTree α} : Sub x (set p m' t) →
    Sub x m' ∨ ∃ y, Sub y t ∧ x.id = y.id ∧ x.kids = y.kids.map (set p m') := by
  induction t using induct with
  | step i v ks ih =>
    intro h
    rw [set_node] at h
    split at h
    · exact .inl h
    cases h with
    | refl => exact .inr ⟨node i v ks, .refl, rfl, rfl⟩
    | kid hk hs =>
      obtain ⟨k, hmem, rfl⟩ := mem_map.1 hk
      rcases ih k hmem hs with hin | ⟨y, hy, hid, hkids⟩
      · exact .inl hin
      · exact .inr ⟨y, .kid hmem hy, hid, hkids⟩

theorem findKids?_set (ih : ∀ k ∈ ks, p ∈ k.ids → find? p (set p m' k) = some m') (h : ∃ k ∈ ks, p ∈ k.ids) :
    findKids? p (ks.map (set p m')) = some m' := by
  induction ks with
  | nil =>
    obtain ⟨k, hk, -⟩ := h
    cases hk
  | cons k ks ihk =>
    rw [map_cons, findKids?]
    by_cases hp : p ∈ k.ids
    · rw [ih k mem_cons_self hp]
      rfl
    have hrest : ∃ k ∈ ks, p ∈ k.ids := by
      obtain ⟨x, hx, hpx⟩ := h
      rcases mem_cons.1 hx with rfl | hx
      · exact absurd hpx hp
      · exact ⟨x, hx, hpx⟩
    rw [set_of_not_mem m' hp, find?_eq_none.2 hp]
    exact ihk (fun x hx => ih x (.tail _ hx)) hrest

theorem find?_set (hm' : m'.id = p) : p ∈ t.ids → find? p (set p m' t) = some m' := by
  induction t using induct with
  | step i v ks ih =>
    intro hp
    rw [set_node]
    split
    · cases m' with
      | node j w js => rw [find?, if_pos (by exact hm')]
    · next hi =>
      rw [ids_node, mem_cons, mem_flatMap] at hp
      rw [find?, if_neg hi]
      exact findKids?_set ih (hp.resolve_left fun h => hi h.symm)

theorem set_set (hm : m.id = p) (t : IdTree α) : set p m' (set p m t) = set p m' t := by
  induction t using induct with
  | step i v ks ih =>
    rw [set_node, set_node]
    split
    · rw [← hm, set_self]
    · next hi =>
      rw [set_node, if_neg hi, map_map]
      congr 1
      exact map_congr_left ih

/-! ## Paths from the root -/

/-- The references lead from the root down: the first is the root, each next one a child of the one
before it. -/
def IsPath : List Nat → IdTree α → Prop
  | [], _ => False
  | [i], t => t.id = i
  | i :: j :: l, t => t.id = i ∧ ∃ k ∈ t.kids, IsPath (j :: l) k

variable {l : List Nat}

theorem IsPath.ne_nil (h : IsPath l t) : l ≠ [] := by
  rintro rfl
  exact h

theorem isPath_cons {i : Nat} (hl : l ≠ []) : IsPath (i :: l) t ↔ t.id = i ∧ ∃ k ∈ t.kids, IsPath l k := by
  cases l with
  | nil => exact absurd rfl hl
  | cons j l => exact Iff.rfl

theorem IsPath.head {i : Nat} (h : IsPath (i :: l) t) : t.id = i := by
  cases l with
  | nil => exact h
  | cons j l => exact h.1

variable {c : List Nat}

theorem IsPath.sub_last (h : IsPath (c ++ [p]) t) : ∃ m, Sub m t ∧ m.id = p := by
  induction c generalizing t with
  | nil => exact ⟨t, .refl, h⟩
  | cons i c ih =>
    obtain ⟨-, k, hk, hp⟩ := (isPath_cons (by simp)).mp h
    obtain ⟨m, hm, hid⟩ := ih hp
    exact ⟨m, .kid hk hm, hid⟩

theorem IsPath.cut {d : List Nat} (hc : c ≠ []) (h : IsPath (c ++ d) t) : IsPath c t := by
  induction c generalizing t with
  | nil => exact absurd rfl hc
  | cons i c ih =>
    by_cases hnil : c = []
    · rw [hnil] at h ⊢
      exact h.head
    · obtain ⟨hi, k, hk, hp⟩ := (isPath_cons (by simp [hnil])).mp h
      exact (isPath_cons hnil).mpr ⟨hi, k, hk, ih hnil hp⟩

theorem IsPath.extend (ht : t.Unique) (h : IsPath (c ++ [m.id]) t)
    (hm : Sub m t) (hk : k ∈ m.kids) : IsPath (c ++ [m.id] ++ [k.id]) t := by
  induction c generalizing t with
  | nil =>
    obtain rfl := ht.eq_of_id_eq hm .refl h.symm
    exact ⟨rfl, k, hk, rfl⟩
  | cons i c ih =>
    obtain ⟨hi, k', hk', hp⟩ := (isPath_cons (by simp)).mp h
    obtain ⟨m', hm', hid⟩ := hp.sub_last
    obtain rfl := ht.eq_of_id_eq (.kid hk' hm') hm hid
    exact (isPath_cons (by simp)).mpr ⟨hi, k', hk', ih (ht.kid hk') hp hm'⟩

/-- A write that keeps the paths through the written node keeps all paths. -/
theorem IsPath.set (ht : t.Unique) (hm : Sub m t)
    (hkeep : ∀ l, IsPath l m → IsPath l m') (h : IsPath l t) : IsPath l (IdTree.set m.id m' t) := by
  induction l generalizing t with
  | nil => exact absurd rfl h.ne_nil
  | cons i l ih =>
    by_cases hroot : t.id = m.id
    · obtain rfl := ht.eq_of_id_eq hm .refl hroot.symm
      rw [set_self]
      exact hkeep _ h
    rw [set_of_ne m' hroot]
    by_cases hl : l = []
    · rw [hl] at h ⊢
      exact h
    obtain ⟨hi, k, hk, hp⟩ := (isPath_cons hl).mp h
    refine (isPath_cons hl).mpr ⟨hi, IdTree.set m.id m' k, mem_map.2 ⟨k, hk, rfl⟩, ?_⟩
    -- the write is below this child, or does not touch it
    by_cases hmem : m.id ∈ k.ids
    · exact ih (ht.kid hk) (ht.sub_of_mem hm hk hroot hmem) hp
    · rw [set_of_not_mem m' hmem]
      exact hp

/-- A path that ends at the written node stays one, whatever became of the node's children. -/
theorem IsPath.set_last (ht : t.Unique) (hm : Sub m t) (hid : m'.id = m.id) (h : IsPath (c ++ [m.id]) t) :
    IsPath (c ++ [m.id]) (IdTree.set m.id m' t) := by
  induction c generalizing t with
  | nil =>
    obtain rfl := ht.eq_of_id_eq hm .refl h.symm
    rw [set_self]
    exact hid
  | cons i c ih =>
    obtain ⟨hi, k, hk, hp⟩ := (isPath_cons (by simp)).mp h
    obtain ⟨x, hx, hxid⟩ := hp.sub_last
    obtain rfl := ht.eq_of_id_eq (.kid hk hx) hm hxid
    have hne : t.id ≠ x.id := fun he => ht.id_not_mem hk (he ▸ hx.ids_subset (id_mem_ids x))
    rw [set_of_ne m' hne, cons_append, isPath_cons (by simp)]
    exact ⟨hi, _, mem_map.2 ⟨k, hk, rfl⟩, ih (ht.kid hk) hx hp⟩

end IdTree
