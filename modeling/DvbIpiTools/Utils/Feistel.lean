import Mathlib.Data.List.Basic

set_option autoImplicit false

/-! # Feistel networks

A round hands the right half on and mixes a function of it into the left one. The rounds in reverse order, between two
exchanges of the halves, undo a network whatever its functions are. -/

namespace DvbIpiTools.Feistel

variable {α β : Type} [XorOp α] [XorOp β]

/-- One round. -/
def round (f : α → α) (p : α × α) : α × α := (p.2, p.1 ^^^ f p.2)

/-- The rounds of a list, the first one first. -/
def run (fs : List (α → α)) (p : α × α) : α × α := fs.foldl (fun p f => round f p) p

theorem run_cons (f : α → α) (fs : List (α → α)) (p : α × α) : run (f :: fs) p = run fs (round f p) := rfl

theorem run_append (fs gs : List (α → α)) (p : α × α) : run (fs ++ gs) p = run gs (run fs p) := List.foldl_append

theorem round_swap (hcancel : ∀ x y : α, x ^^^ y ^^^ y = x) (f : α → α) (p : α × α) :
    round f (round f p).swap = p.swap := by
  rw [round, round, Prod.swap_prod_mk, hcancel]
  rfl

theorem run_reverse (hcancel : ∀ x y : α, x ^^^ y ^^^ y = x) (fs : List (α → α)) (p : α × α) :
    run fs.reverse (run fs p).swap = p.swap := by
  induction fs generalizing p with
  | nil => rfl
  | cons f fs ih =>
    rw [List.reverse_cons, run_append, run_cons f fs, ih, run_cons, round_swap hcancel]
    rfl

theorem run_map {φ : α → β} (hφ : ∀ x y, φ (x ^^^ y) = φ x ^^^ φ y) {fs : List (α → α)} {gs : List (β → β)}
    (h : List.Forall₂ (fun f g => ∀ x, g (φ x) = φ (f x)) fs gs) (p : α × α) :
    run gs (p.map φ φ) = (run fs p).map φ φ := by
  induction h generalizing p with
  | nil => rfl
  | @cons f g fs gs hfg _ ih =>
    have hround : round g (p.map φ φ) = (round f p).map φ φ := by
      rw [round, round, Prod.map_snd, Prod.map_fst, hfg, ← hφ, Prod.map_apply]
    rw [run_cons, hround, ih, run_cons]

end DvbIpiTools.Feistel
