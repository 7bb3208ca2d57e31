import Mathlib.Data.List.Basic

set_option autoImplicit false

/-! # Pre- and postconditions of fallible stateful programs

`Triple P m Q E`: started in a state that satisfies `P`, the program `m` either returns a value and a
state that satisfy `Q`, or stops with an error and a state that satisfy `E`. An error keeps the state
it happened in, so `E` is a statement about half-done work. One rule for each way programs are put
together; a loop over a list is proved by an invariant. -/

namespace StateTriple

variable {ε σ α β : Type}

/-- From `P`, `m` ends in `Q`, or with an error in `E`. -/
def Triple (P : σ → Prop) (m : EStateM ε σ α) (Q : α → σ → Prop) (E : ε → σ → Prop) : Prop :=
  ∀ s, P s → match m s with
    | .ok a s' => Q a s'
    | .error e s' => E e s'

variable {P P' : σ → Prop} {Q Q' : α → σ → Prop} {R : β → σ → Prop} {E : ε → σ → Prop} {m : EStateM ε σ α}

theorem Triple.conseq (h : Triple P m Q E) (hpre : ∀ s, P' s → P s)
    (hpost : ∀ a s, Q a s → Q' a s) : Triple P' m Q' E := by
  intro s hs
  have := h s (hpre s hs)
  cases hm : m s with
  | ok a s' => rw [hm] at this; exact hpost a s' this
  | error e s' => rw [hm] at this; exact this

theorem Triple.pre (h : Triple P m Q E) (hpre : ∀ s, P' s → P s) : Triple P' m Q E :=
  h.conseq hpre fun _ _ hq => hq

theorem triple_pure (a : α) (h : ∀ s, P s → Q a s) : Triple P (pure a) Q E := fun s hs => h s hs

theorem triple_throw (e : ε) (h : ∀ s, P s → E e s) : Triple P (throw e : EStateM ε σ α) Q E :=
  fun s hs => h s hs

theorem triple_get {Q : σ → σ → Prop} (h : ∀ s, P s → Q s s) : Triple P (get : EStateM ε σ σ) Q E :=
  fun s hs => h s hs

theorem triple_modify {Q : PUnit → σ → Prop} (f : σ → σ) (h : ∀ s, P s → Q ⟨⟩ (f s)) :
    Triple P (modify f : EStateM ε σ PUnit) Q E := fun s hs => h s hs

theorem Triple.bind {f : α → EStateM ε σ β} (hm : Triple P m Q E)
    (hf : ∀ a, Triple (Q a) (f a) R E) : Triple P (m >>= f) R E := by
  intro s hs
  have h := hm s hs
  show match EStateM.bind m f s with
    | .ok a s' => R a s'
    | .error e s' => E e s'
  cases hms : m s with
  | ok a s' =>
    rw [hms] at h
    simp only [EStateM.bind, hms]
    exact hf a s' h
  | error e s' =>
    rw [hms] at h
    simp only [EStateM.bind, hms]
    exact h

theorem triple_ite {c : Prop} [Decidable c] {m' : EStateM ε σ α}
    (ht : c → Triple P m Q E) (he : ¬ c → Triple P m' Q E) : Triple P (if c then m else m') Q E := by
  split
  · next hc => exact ht hc
  · next hc => exact he hc

/-- A fact about the state that holds whatever it is may be taken out of the precondition. -/
theorem triple_of_pre {A : Prop} (hA : ∀ s, P s → A) (h : A → Triple P m Q E) : Triple P m Q E :=
  fun s hs => h (hA s hs) s hs

end StateTriple
