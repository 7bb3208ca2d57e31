import Mathlib.Data.List.Nodup
import Mathlib.Data.List.Perm.Basic

set_option autoImplicit false

/-! # Heap objects and who owns them

A pool is the part of the heap with the objects of one kind. Pointers are numbers that are never used
again. `Owned p refs` says that the live objects are exactly those in `refs`, each in it once: none is
leaked, none is shared and no pointer dangles. -/

namespace DvbIpiTools

open List

/-- The live objects; the `k`-th allocation has the number `k`, whether it succeeds or not. -/
structure Pool (α : Type) where
  cell : Nat → Option α
  next : Nat

namespace Pool

variable {α : Type}

/-- No object yet. -/
def empty : Pool α := ⟨fun _ => none, 0⟩

/-- `malloc`; `oom k` tells that the `k`-th allocation fails. -/
def alloc (oom : Nat → Bool) (v : α) (p : Pool α) : Option Nat × Pool α :=
  if oom p.next then (none, { p with next := p.next + 1 })
  else (some p.next, ⟨fun k => if k = p.next then some v else p.cell k, p.next + 1⟩)

def free (ptr : Option Nat) (p : Pool α) : Pool α :=
  match ptr with
  | none => p
  | some k => { p with cell := fun i => if i = k then none else p.cell i }

/-- The object at `k` given another value. -/
def set (k : Nat) (v : α) (p : Pool α) : Pool α :=
  { p with cell := fun i => if i = k then some v else p.cell i }

/-- The live objects are those in `refs`, each once. -/
structure Owned (p : Pool α) (refs : List Nat) : Prop where
  nodup : refs.Nodup
  live : ∀ k, p.cell k ≠ none ↔ k ∈ refs
  lt_next : ∀ k ∈ refs, k < p.next

theorem empty_owned : (empty : Pool α).Owned [] := ⟨nodup_nil, fun _ => ⟨fun h => absurd rfl h, nofun⟩, nofun⟩

variable {p : Pool α} {refs : List Nat}

theorem Owned.perm {refs' : List Nat} (h : p.Owned refs) (hperm : refs.Perm refs') : p.Owned refs' where
  nodup := hperm.nodup_iff.1 h.nodup
  live := fun k => (h.live k).trans hperm.mem_iff
  lt_next := fun k hk => h.lt_next k (hperm.mem_iff.2 hk)

theorem Owned.alloc (h : p.Owned refs) (oom : Nat → Bool) (v : α) :
    (p.alloc oom v).2.Owned ((p.alloc oom v).1.toList ++ refs) := by
  rw [Pool.alloc]
  split
  · exact ⟨h.nodup, h.live, fun k hk => Nat.lt_succ_of_lt (h.lt_next k hk)⟩
  refine ⟨nodup_cons.2 ⟨fun hmem => Nat.lt_irrefl _ (h.lt_next _ hmem), h.nodup⟩, ?_, ?_⟩
  · intro k
    show (if k = p.next then some v else p.cell k) ≠ none ↔ k ∈ p.next :: refs
    rw [mem_cons, ← h.live k]
    split
    · next hk => exact ⟨fun _ => .inl hk, fun _ => Option.some_ne_none v⟩
    · next hk => exact ⟨.inr, fun hor => hor.resolve_left hk⟩
  · intro k hk
    rcases mem_cons.1 hk with rfl | hk
    · exact Nat.lt_succ_self _
    · exact Nat.lt_succ_of_lt (h.lt_next k hk)

theorem Owned.free {ptr : Option Nat} (h : p.Owned (ptr.toList ++ refs)) : (p.free ptr).Owned refs := by
  cases ptr with
  | none => exact h
  | some k =>
    have hnodup : (k :: refs).Nodup := h.nodup
    rw [nodup_cons] at hnodup
    refine ⟨hnodup.2, ?_, fun i hi => h.lt_next i (.tail _ hi)⟩
    intro i
    show (if i = k then none else p.cell i) ≠ none ↔ i ∈ refs
    split
    · next hik =>
      rw [hik]
      exact ⟨fun hne => absurd rfl hne, fun hmem => absurd hmem hnodup.1⟩
    · next hik =>
      rw [h.live i]
      show i ∈ k :: refs ↔ i ∈ refs
      rw [mem_cons]
      exact ⟨fun hor => hor.resolve_left hik, .inr⟩

theorem Owned.set (h : p.Owned refs) {k : Nat} (hk : k ∈ refs) (v : α) : (p.set k v).Owned refs where
  nodup := h.nodup
  live := by
    intro i
    show (if i = k then some v else p.cell i) ≠ none ↔ i ∈ refs
    split
    · next hik =>
      rw [hik]
      exact ⟨fun _ => hk, fun _ => Option.some_ne_none v⟩
    · exact h.live i
  lt_next := h.lt_next

/-- Freeing several pointers. -/
def freeAll (ptrs : List (Option Nat)) (p : Pool α) : Pool α := ptrs.foldl (fun p ptr => p.free ptr) p

theorem Owned.freeAll {ptrs : List (Option Nat)}
    (h : p.Owned (ptrs.filterMap id ++ refs)) : (p.freeAll ptrs).Owned refs := by
  induction ptrs generalizing p with
  | nil => exact h
  | cons ptr ptrs ih =>
    refine ih (Owned.free ?_)
    cases ptr <;> exact h

end Pool

end DvbIpiTools
