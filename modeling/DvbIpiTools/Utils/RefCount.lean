import Mathlib.Data.List.Count
import Mathlib.Algebra.Order.BigOperators.Group.List
import Mathlib.Algebra.Order.Group.Nat
import Mathlib.Algebra.Ring.Nat

set_option autoImplicit false

/-! # Reference counts

Cells that count the references to them. A cell is freed with its last reference, and then its value is lost. -/

namespace RefCount

open List Option

structure Cell (α : Type) where
  val : α
  ref : Nat

variable {α : Type}

def refOf (cells : List (Cell α)) (i : Nat) : Nat := ((cells[i]?).map Cell.ref).getD 0

def valOf (cells : List (Cell α)) (i : Nat) : Option α := (cells[i]?).map Cell.val

/-- A new cell with one reference. -/
def alloc (cells : List (Cell α)) (v : α) : List (Cell α) := cells ++ [⟨v, 1⟩]

def incRef (cells : List (Cell α)) (i : Nat) : List (Cell α) := cells.modify i fun c => { c with ref := c.ref + 1 }

/-- With the last reference the cell is freed. -/
def decRef (freed : α) (cells : List (Cell α)) (i : Nat) : List (Cell α) :=
  cells.modify i fun c => if c.ref = 1 then ⟨freed, 0⟩ else { c with ref := c.ref - 1 }

def modifyVal (cells : List (Cell α)) (i : Nat) (f : α → α) : List (Cell α) :=
  cells.modify i fun c => { c with val := f c.val }

/-! ## Counts -/

/-- Every cell has the count of the references to it. -/
def Counted (cells : List (Cell α)) (refs : Nat → Nat) : Prop := ∀ i, refOf cells i = refs i

theorem refOf_modify (cells : List (Cell α)) (i j : Nat) (f : Cell α → Cell α) :
    refOf (cells.modify i f) j = if i = j then ((cells[j]?).map fun c => (f c).ref).getD 0 else refOf cells j := by
  rw [refOf, getElem?_modify, refOf]
  split
  · rw [Option.map_eq_map, Option.map_map]
    rfl
  · rw [Option.map_eq_map, Option.map_id_fun']
    rfl

theorem valOf_modify (cells : List (Cell α)) (i j : Nat) (f : Cell α → Cell α) :
    valOf (cells.modify i f) j = if i = j then (cells[j]?).map fun c => (f c).val else valOf cells j := by
  rw [valOf, getElem?_modify, valOf]
  split
  · rw [Option.map_eq_map, Option.map_map]
    rfl
  · rw [Option.map_eq_map, Option.map_id_fun']
    rfl

/-- One more reference to a cell. -/
def plus (refs : Nat → Nat) (i : Nat) : Nat → Nat := fun j => refs j + if j = i then 1 else 0

theorem plus_self (refs : Nat → Nat) (i : Nat) : plus refs i i = refs i + 1 := by rw [plus, if_pos rfl]

variable {i : Nat}

theorem plus_ne (refs : Nat → Nat) {j : Nat} (h : j ≠ i) : plus refs i j = refs j := by
  rw [plus, if_neg h, add_zero]

theorem Counted.congr {cells : List (Cell α)} {refs refs' : Nat → Nat} (h : Counted cells refs)
    (heq : ∀ i, refs i = refs' i) : Counted cells refs' := fun i => (h i).trans (heq i)

variable {cells : List (Cell α)} {refs : Nat → Nat} (h : Counted cells refs)

include h

theorem Counted.exists_val (hi : 0 < refs i) : ∃ c, cells[i]? = some c ∧ c.ref = refs i := by
  have href := h i
  rw [refOf] at href
  cases hc : cells[i]? with
  | none =>
    rw [hc] at href
    simp only [map_none, getD_none] at href
    omega
  | some c =>
    rw [hc] at href
    exact ⟨c, rfl, href⟩

theorem Counted.refs_length : refs cells.length = 0 := by
  rw [← h cells.length, refOf, getElem?_eq_none le_rfl]
  rfl

theorem Counted.alloc (v : α) : Counted (alloc cells v) (plus refs cells.length) := by
  intro i
  rw [refOf, RefCount.alloc, getElem?_append]
  by_cases hlt : i < cells.length
  · rw [if_pos hlt, plus_ne _ (by omega)]
    exact h i
  rw [if_neg hlt]
  by_cases heq : i = cells.length
  · subst heq
    rw [plus_self, Nat.sub_self, h.refs_length]
    rfl
  · rw [plus_ne _ heq, getElem?_eq_none (by rw [length_singleton]; omega), ← h i, refOf, getElem?_eq_none (by omega)]

theorem Counted.incRef (hi : i < cells.length) : Counted (incRef cells i) (plus refs i) := by
  intro j
  rw [RefCount.incRef, refOf_modify]
  by_cases hij : i = j
  · subst hij
    rw [if_pos rfl, plus_self, ← h i, refOf, getElem?_eq_getElem hi]
    rfl
  · rw [if_neg hij, plus_ne _ (Ne.symm hij)]
    exact h j

omit h

theorem Counted.decRef (freed : α) (h : Counted cells (plus refs i)) : Counted (decRef freed cells i) refs := by
  intro j
  rw [RefCount.decRef, refOf_modify]
  by_cases hij : i = j
  · subst hij
    obtain ⟨c, hc, hcref⟩ := h.exists_val (by rw [plus_self]; omega)
    rw [plus_self] at hcref
    rw [if_pos rfl, hc, map_some, getD_some]
    split
    · show 0 = refs i
      omega
    · show c.ref - 1 = refs i
      omega
  · rw [if_neg hij, h j, plus_ne _ (Ne.symm hij)]

theorem Counted.modifyVal (h : Counted cells refs) (i : Nat) (f : α → α) : Counted (modifyVal cells i f) refs := by
  intro j
  rw [RefCount.modifyVal, refOf_modify, ← h j]
  split
  · rfl
  · rfl

/-! ## Values -/

theorem valOf_alloc (cells : List (Cell α)) (v : α) (i : Nat) :
    valOf (alloc cells v) i = if i = cells.length then some v else valOf cells i := by
  rw [valOf, alloc, getElem?_append]
  by_cases hlt : i < cells.length
  · rw [if_pos hlt, if_neg (by omega)]
    rfl
  rw [if_neg hlt]
  by_cases heq : i = cells.length
  · rw [if_pos heq, heq, Nat.sub_self]
    rfl
  · rw [if_neg heq, getElem?_eq_none (by rw [length_singleton]; omega), valOf, getElem?_eq_none (by omega)]

theorem valOf_incRef (cells : List (Cell α)) (i j : Nat) : valOf (incRef cells i) j = valOf cells j := by
  rw [incRef, valOf_modify]
  split <;> rfl

theorem valOf_modifyVal (cells : List (Cell α)) (i j : Nat) (f : α → α) :
    valOf (modifyVal cells i f) j = if i = j then (valOf cells j).map f else valOf cells j := by
  rw [modifyVal, valOf_modify]
  split
  · rw [valOf, Option.map_map]
    rfl
  · rfl

theorem Counted.valOf_decRef (freed : α) (h : Counted cells (plus refs i)) {j : Nat} (hj : 0 < refs j) :
    valOf (RefCount.decRef freed cells i) j = valOf cells j := by
  rw [RefCount.decRef, valOf_modify]
  by_cases hij : i = j
  · subst hij
    obtain ⟨c, hc, hcref⟩ := h.exists_val (by rw [plus_self]; omega)
    rw [plus_self] at hcref
    rw [if_pos rfl, valOf, hc, map_some, map_some, if_neg (by omega)]
  · rw [if_neg hij]

/-! ## References from the values of cells -/

/-- The references that the values of the cells hold. -/
def held (f : α → Nat → Nat) (cells : List (Cell α)) (x : Nat) : Nat := (cells.map fun c => f c.val x).sum

variable (f : α → Nat → Nat)

theorem held_alloc (cells : List (Cell α)) (v : α) (x : Nat) : held f (alloc cells v) x = held f cells x + f v x := by
  rw [held, alloc, map_append, sum_append, map_singleton, sum_singleton]
  rfl

theorem held_modify (g : Cell α → Cell α) (x : Nat) {c : Cell α} (hc : cells[i]? = some c) :
    held f (cells.modify i g) x + f c.val x = held f cells x + f (g c).val x := by
  induction cells generalizing i with
  | nil => cases hc
  | cons d cells ih =>
    cases i with
    | zero =>
      cases hc
      simp only [held, modify_zero_cons, map_cons, sum_cons]
      omega
    | succ i =>
      have hrest := ih hc
      simp only [held, modify_succ_cons, map_cons, sum_cons] at hrest ⊢
      omega

theorem held_modify_none (g : Cell α → Cell α) (x : Nat)
    (hc : cells[i]? = none) : held f (cells.modify i g) x = held f cells x := by
  rw [modify_eq_self]
  exact getElem?_eq_none_iff.1 hc

theorem held_incRef (cells : List (Cell α)) (i x : Nat) : held f (incRef cells i) x = held f cells x := by
  cases hc : cells[i]? with
  | none => exact held_modify_none f _ x hc
  | some c => exact Nat.add_right_cancel (held_modify f (fun c => { c with ref := c.ref + 1 }) x hc)

theorem held_modifyVal (g : α → α) (x : Nat) {v : α} (hv : valOf cells i = some v) :
    held f (modifyVal cells i g) x + f v x = held f cells x + f (g v) x := by
  obtain ⟨c, hc, rfl⟩ := map_eq_some_iff.1 hv
  exact held_modify f _ x hc

/-- Where the last reference goes, the references of the value go with it. -/
theorem held_decRef (f : α → Nat → Nat) {freed : α} (x : Nat) (hfreed : f freed x = 0) {cells : List (Cell α)} {i : Nat}
    {v : α} (hv : valOf cells i = some v) :
    held f (decRef freed cells i) x + (if refOf cells i = 1 then f v x else 0) = held f cells x := by
  obtain ⟨c, hc, rfl⟩ := map_eq_some_iff.1 hv
  have hmod := held_modify f (fun c => if c.ref = 1 then ⟨freed, 0⟩ else { c with ref := c.ref - 1 }) x hc
  have href : refOf cells i = c.ref := by rw [refOf, hc, map_some, getD_some]
  rw [decRef, href]
  by_cases hone : c.ref = 1
  · rw [if_pos hone]
    simp only [if_pos hone] at hmod
    omega
  · rw [if_neg hone]
    simp only [if_neg hone] at hmod
    omega

theorem le_held (x : Nat) {v : α} (hv : valOf cells i = some v) : f v x ≤ held f cells x := by
  obtain ⟨c, hc, rfl⟩ := map_eq_some_iff.1 hv
  exact le_sum_of_mem (mem_map.2 ⟨c, mem_of_getElem? hc, rfl⟩)

end RefCount
