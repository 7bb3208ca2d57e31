import Mathlib.Order.Basic

set_option autoImplicit false

/-! # Recursion cut off at a depth

A recursion that may have no end is the family of its cut-offs: at depth `n` it gives up with `deeper` where
it would go on. It ends at a state if all deep enough cut-offs have one and the same result there. The states
are ordered, and `Ends` also says that a computation only goes down in that order, which is what the measure
of a loop behind it needs. -/

namespace Cutoff

variable {σ α β : Type}

inductive Outcome (α : Type) where
  | ok (a : α)
  | failed
  | deeper

/-- A computation with a state. -/
def Run (σ α : Type) := σ → Outcome (α × σ)

namespace Run

/-- `m`, then `f` on its result. A definition of its own, so that no check of a composed computation runs it. -/
protected def bind (m : Run σ α) (f : α → Run σ β) : Run σ β := fun s => match m s with
  | .ok (a, s') => f a s'
  | .failed => .failed
  | .deeper => .deeper

instance : Monad (Run σ) where
  pure a := fun s => .ok (a, s)
  bind := Run.bind

def fail : Run σ α := fun _ => .failed

def deeper : Run σ α := fun _ => .deeper

def gets (f : σ → α) : Run σ α := fun s => .ok (f s, s)

def modify (f : σ → σ) : Run σ Unit := fun s => .ok ((), f s)

def lift : Option α → Run σ α
  | none => fail
  | some a => pure a

def check (b : Bool) : Run σ Unit := if b then pure () else fail

/-- One round after the other, at most `n`. -/
def iterate (body : β → Run σ (β ⊕ α)) : Nat → β → Run σ α
  | 0, _ => deeper
  | n + 1, x => body x >>= Sum.elim (iterate body n) pure

variable {f : α → Run σ β} {m : Run σ α}

theorem bind_of_ok {s s' : σ} {a : α} (h : m s = .ok (a, s')) : (m >>= f) s = f a s' := by
  simp only [bind, Run.bind, h]

theorem bind_of_failed {s : σ} (h : m s = .failed) : (m >>= f) s = .failed := by
  simp only [bind, Run.bind, h]

theorem bind_of_deeper {s : σ} (h : m s = .deeper) : (m >>= f) s = .deeper := by
  simp only [bind, Run.bind, h]

end Run

/-- A result that is no cut-off and that `Q` holds of. -/
def Outcome.All (Q : α → Prop) : Outcome α → Prop
  | .ok a => Q a
  | .failed => True
  | .deeper => False

theorem Outcome.All.mono {Q Q' : α → Prop} {r : Outcome α} (h : r.All Q) (hq : ∀ a, Q a → Q' a) : r.All Q' := by
  cases r with
  | ok a => exact hq a h
  | failed => exact trivial
  | deeper => exact h

/-- The deep enough cut-offs of `m` have one result at `s`, and `Q` holds of it. -/
def EndsWith (Q : α × σ → Prop) (m : Nat → Run σ α) (s : σ) : Prop :=
  ∃ r : Outcome (α × σ), r.All Q ∧ ∃ N, ∀ n, N ≤ n → m n s = r

section Rules

variable {Q : α × σ → Prop} {Q' : β × σ → Prop} {m : Nat → Run σ α} {s : σ}

theorem endsWith_const {m : Run σ α} (h : (m s).All Q) : EndsWith Q (fun _ => m) s := ⟨m s, h, 0, fun _ _ => rfl⟩

theorem EndsWith.mono {Q2 : α × σ → Prop} (h : EndsWith Q m s) (hq : ∀ x, Q x → Q2 x) : EndsWith Q2 m s := by
  obtain ⟨r, hr, N, hN⟩ := h
  exact ⟨r, hr.mono hq, N, hN⟩

variable {f : α → Nat → Run σ β}

theorem EndsWith.bind (hm : EndsWith Q m s)
    (hf : ∀ a s', Q (a, s') → EndsWith Q' (f a) s') : EndsWith Q' (fun n => m n >>= fun a => f a n) s := by
  obtain ⟨r, hr, N, hN⟩ := hm
  cases r with
  | ok x =>
    obtain ⟨r', hr', N', hN'⟩ := hf x.1 x.2 hr
    exact ⟨r', hr', max N N', fun n hn => (Run.bind_of_ok (hN n (by omega))).trans (hN' n (by omega))⟩
  | failed => exact ⟨.failed, trivial, N, fun n hn => Run.bind_of_failed (hN n hn)⟩
  | deeper => exact absurd hr id

theorem endsWith_gets {φ : σ → α} (h : EndsWith Q' (f (φ s)) s) :
    EndsWith Q' (fun n => Run.gets φ >>= fun a => f a n) s := h

theorem endsWith_modify {φ : σ → σ} {f : Unit → Nat → Run σ β} (h : EndsWith Q' (f ()) (φ s)) :
    EndsWith Q' (fun n => Run.modify φ >>= fun a => f a n) s := h

theorem endsWith_check {b : Bool} {f : Unit → Nat → Run σ β} (h : b = true → EndsWith Q' (f ()) s) :
    EndsWith Q' (fun n => Run.check b >>= fun a => f a n) s := by
  cases b with
  | false => exact endsWith_const (m := Run.fail) trivial
  | true => exact h rfl

theorem endsWith_lift {x : Option α} (h : ∀ a, x = some a → EndsWith Q' (f a) s) :
    EndsWith Q' (fun n => Run.lift x >>= fun a => f a n) s := by
  cases x with
  | none => exact endsWith_const (m := Run.fail) trivial
  | some a => exact h a rfl

theorem EndsWith.succ (h : EndsWith Q (fun n => m (n + 1)) s) : EndsWith Q m s := by
  obtain ⟨r, hr, N, hN⟩ := h
  refine ⟨r, hr, N + 1, fun n hn => ?_⟩
  obtain ⟨k, rfl⟩ := Nat.exists_eq_add_of_le' (Nat.le_trans (Nat.le_add_left 1 N) hn)
  exact hN k (by omega)

/-- What a round of a loop leads to: less to do, or the end. -/
def Advances (Inv : β → σ → Prop) (μ : β → σ → Nat) (Q : α × σ → Prop) (bound : Nat) : (β ⊕ α) × σ → Prop
  | (.inl x, s) => Inv x s ∧ μ x s < bound
  | (.inr a, s) => Q (a, s)

variable {body : Nat → β → Run σ (β ⊕ α)} {Inv : β → σ → Prop} (μ : β → σ → Nat)

variable (h : ∀ x s, Inv x s → EndsWith (Advances Inv μ Q (μ x s)) (fun n => body n x) s)

include h

/-- A loop with a measure, its rounds and its body cut off independently. -/
theorem ends_iterate_aux : ∀ k x s, μ x s < k → Inv x s →
      ∃ r : Outcome (α × σ), r.All Q ∧ ∃ N, ∀ n, N ≤ n → ∀ j, N ≤ j → Run.iterate (body n) j x s = r := by
  intro k
  induction k with
  | zero => exact fun _ _ hlt => absurd hlt (Nat.not_lt_zero _)
  | succ k ih =>
    intro x s hlt hinv
    obtain ⟨r, hr, N, hN⟩ := h x s hinv
    cases r with
    | ok y =>
      obtain ⟨y, s'⟩ := y
      cases y with
      | inl x' =>
        obtain ⟨hinv', hless⟩ := hr
        obtain ⟨r, hr, N', hN'⟩ := ih x' s' (by omega) hinv'
        refine ⟨r, hr, max N N' + 1, fun n hn j hj => ?_⟩
        obtain ⟨j, rfl⟩ := Nat.exists_eq_add_of_le' (Nat.le_trans (Nat.le_add_left 1 _) hj)
        exact (Run.bind_of_ok (hN n (by omega))).trans (hN' n (by omega) j (by omega))
      | inr a =>
        refine ⟨.ok (a, s'), hr, N + 1, fun n hn j hj => ?_⟩
        obtain ⟨j, rfl⟩ := Nat.exists_eq_add_of_le' (Nat.le_trans (Nat.le_add_left 1 _) hj)
        exact Run.bind_of_ok (hN n (by omega))
    | failed =>
      refine ⟨.failed, trivial, N + 1, fun n hn j hj => ?_⟩
      obtain ⟨j, rfl⟩ := Nat.exists_eq_add_of_le' (Nat.le_trans (Nat.le_add_left 1 _) hj)
      exact Run.bind_of_failed (hN n (by omega))
    | deeper => exact absurd hr id

theorem endsWith_iterate {x : β} {s : σ} (hx : Inv x s) : EndsWith Q (fun n => Run.iterate (body n) n x) s := by
  obtain ⟨r, hr, N, hN⟩ := ends_iterate_aux μ h (μ x s + 1) x s (Nat.lt_succ_self _) hx
  exact ⟨r, hr, N, fun n hn => hN n hn n hn⟩

omit h

end Rules

/-! ## States that only go down -/

section Down

variable [Preorder σ] {m : Nat → Run σ α} {s : σ}

/-- `m` ends at `s`, in a state that is no higher. -/
abbrev Ends (m : Nat → Run σ α) (s : σ) : Prop := EndsWith (fun x => x.2 ≤ s) m s

theorem ends_pure (a : α) (s : σ) : Ends (fun _ => pure a) s := endsWith_const le_rfl

theorem ends_fail (s : σ) : Ends (fun _ => (Run.fail : Run σ α)) s := endsWith_const trivial

theorem ends_gets (f : σ → α) (s : σ) : Ends (fun _ => Run.gets f) s := endsWith_const le_rfl

theorem ends_modify {f : σ → σ} (h : f s ≤ s) : Ends (fun _ => Run.modify f) s := endsWith_const h

theorem ends_lift (x : Option α) (s : σ) : Ends (fun _ => Run.lift x) s := by
  cases x with
  | none => exact ends_fail s
  | some a => exact ends_pure a s

theorem ends_check (b : Bool) (s : σ) : Ends (fun _ => Run.check b) s := by
  cases b with
  | false => exact ends_fail s
  | true => exact ends_pure () s

theorem Ends.bind {f : α → Nat → Run σ β} (hm : Ends m s) (hf : ∀ a s', s' ≤ s → Ends (f a) s') :
    Ends (fun n => m n >>= fun a => f a n) s :=
  EndsWith.bind hm fun a s' h => (hf a s' h).mono fun _ hle => le_trans hle h

theorem Ends.succ (h : Ends (fun n => m (n + 1)) s) : Ends m s := EndsWith.succ h

theorem ends_iterate {body : Nat → β → Run σ (β ⊕ α)} (μ : β → σ → Nat) {x : β} {s : σ}
    (h : ∀ x s', s' ≤ s → EndsWith (fun y => y.2 ≤ s' ∧ ∀ x', y.1 = .inl x' → μ x' y.2 < μ x s') (fun n => body n x) s') :
    Ends (fun n => Run.iterate (body n) n x) s := by
  refine endsWith_iterate μ (fun x s' hs' => (h x s' hs').mono ?_) le_rfl
  rintro ⟨y, s''⟩ ⟨hle, hless⟩
  cases y with
  | inl x' => exact ⟨le_trans hle hs', hless x' rfl⟩
  | inr a => exact le_trans hle hs'

theorem ends_ite {c : Prop} [Decidable c] {m' : Nat → Run σ α} (h : c → Ends m s) (h' : ¬c → Ends m' s) :
    Ends (fun n => if c then m n else m' n) s := by
  by_cases hc : c
  · simpa only [if_pos hc] using h hc
  · simpa only [if_neg hc] using h' hc

end Down

end Cutoff
