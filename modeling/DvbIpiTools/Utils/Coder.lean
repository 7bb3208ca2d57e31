import Mathlib.Order.Basic

set_option autoImplicit false

/-! # Readers

A reader takes symbols off its input, and may fail. -/

namespace Coder

variable {β α γ : Type}

/-- A reader of the input alone. -/
abbrev Bits (β α : Type) := StateT (List β) Option α

/-! ## Readers only take -/

/-- `p` gives no symbol back. -/
def Shrinks (p : Bits β α) : Prop := ∀ s a s', p s = some (a, s') → s'.length ≤ s.length

theorem shrinks_pure (a : α) : Shrinks (pure a : Bits β α) := by
  intro s a' s' h
  cases h
  exact Nat.le_refl _

theorem shrinks_failure : Shrinks (failure : Bits β α) := fun _ _ _ h => absurd h (by simp [failure, StateT.failure])

variable {p : Bits β α} {f : α → Bits β γ}

theorem Shrinks.bind (hp : Shrinks p) (hf : ∀ a, Shrinks (f a)) : Shrinks (p >>= f) := by
  intro s b s'' h
  obtain ⟨⟨a, s'⟩, ha, hb⟩ := Option.bind_eq_some_iff.1 h
  exact Nat.le_trans (hf a s' b s'' hb) (hp s a s' ha)

/-! ## Reading a known code -/

/-- `p` takes the code `bs` of `a` and nothing more. -/
def Reads (p : Bits β α) (bs : List β) (a : α) : Prop := ∀ rest, p (bs ++ rest) = some (a, rest)

variable {a : α}

theorem bits_bind {s s' : List β} (h : p s = some (a, s')) : (p >>= f) s = f a s' := by
  show (p s).bind (fun x => f x.1 x.2) = _
  rw [h]
  rfl

theorem reads_pure (a : α) : Reads (pure a : Bits β α) [] a := fun _ => rfl

variable {bs : List β}

theorem Reads.bind {cs : List β} {c : γ} (hp : Reads p bs a)
    (hf : Reads (f a) cs c) : Reads (p >>= f) (bs ++ cs) c := by
  intro rest
  rw [List.append_assoc, bits_bind (hp _), hf]

theorem Reads.map {f : α → γ} (hp : Reads p bs a) : Reads (p >>= fun x => pure (f x)) bs (f a) := by
  intro rest
  rw [bits_bind (hp rest)]
  rfl

theorem Reads.all (hp : Reads p bs a) : p bs = some (a, []) := by
  have h := hp []
  rwa [List.append_nil] at h

end Coder
