import Mathlib.Algebra.Ring.Nat
import Mathlib.Data.List.Basic

set_option autoImplicit false

/-! # Readers over a list of symbols

A reader is an `EStateM` computation whose state is the input that is left. The rules here take
readers apart at a bind in both directions: forwards, to run a reader on an input whose prefix is
known, and backwards, to learn from a successful run what its steps read. `Inverts p bs a` says that
`p` reads exactly the code `bs` of `a`, whatever follows; `Yields p Q` collects what is known of every
value `p` accepts and of the input it took. -/

namespace ListReader

variable {ε σ α β : Type}

/-- A reader over a list of symbols. -/
abbrev Reader (ε σ α : Type) := EStateM ε (List σ) α

variable {p : Reader ε σ α} {f : α → Reader ε σ β} {s s' : List σ} {a : α}

theorem bind_of_ok (h : p s = .ok a s') : (p >>= f) s = f a s' := by
  show EStateM.bind p f s = f a s'
  simp only [EStateM.bind, h]

variable {e : ε}

theorem bind_of_error (h : p s = .error e s') : (p >>= f) s = .error e s' := by
  show EStateM.bind p f s = .error e s'
  simp only [EStateM.bind, h]

theorem ok_of_bind {s'' : List σ} {b : β}
    (h : (p >>= f) s = .ok b s'') : ∃ a s', p s = .ok a s' ∧ f a s' = .ok b s'' := by
  cases hp : p s with
  | ok a s' =>
    rw [bind_of_ok hp] at h
    exact ⟨a, s', rfl, h⟩
  | error e s' =>
    rw [bind_of_error hp] at h
    cases h

theorem pure_ok {b : α} (h : (pure a : Reader ε σ α) s = .ok b s') : a = b ∧ s = s' := by
  have h' : (EStateM.Result.ok a s : EStateM.Result ε (List σ) α) = .ok b s' := h
  exact ⟨(EStateM.Result.ok.inj h').1, (EStateM.Result.ok.inj h').2⟩

theorem throw_ne_ok : (throw e : Reader ε σ α) s ≠ .ok a s' := by
  intro h
  have h' : (EStateM.Result.error e s : EStateM.Result ε (List σ) α) = .ok a s' := h
  cases h'

/-! ## Reading a known code -/

/-- `p` reads the code `bs` of `a` and nothing more. -/
def Inverts (p : Reader ε σ α) (bs : List σ) (a : α) : Prop := ∀ rest, p (bs ++ rest) = .ok a rest

theorem inverts_pure (a : α) : Inverts (pure a : Reader ε σ α) [] a := fun _ => rfl

theorem Inverts.bind {bs cs : List σ} {b : β}
    (hp : Inverts p bs a) (hf : Inverts (f a) cs b) : Inverts (p >>= f) (bs ++ cs) b := by
  intro rest
  rw [List.append_assoc, bind_of_ok (hp _), hf]

theorem Inverts.map {f : α → β} {bs : List σ} (hp : Inverts p bs a) : Inverts (p >>= fun x => pure (f x)) bs (f a) := by
  intro rest
  rw [bind_of_ok (hp rest)]
  rfl

/-! ## What a successful run has read -/

/-- Everything `p` accepts satisfies `Q value (symbols taken)`. -/
def Yields (p : Reader ε σ α) (Q : α → Nat → Prop) : Prop :=
  ∀ s a s', p s = .ok a s' → s'.length ≤ s.length ∧ Q a (s.length - s'.length)

variable {Q : α → Nat → Prop}

theorem yields_pure (h : Q a 0) : Yields (pure a : Reader ε σ α) Q := by
  intro s b s' hb
  obtain ⟨rfl, rfl⟩ := pure_ok hb
  exact ⟨Nat.le_refl _, by rwa [Nat.sub_self]⟩

theorem yields_throw : Yields (throw e : Reader ε σ α) Q := fun _ _ _ h => absurd h throw_ne_ok

theorem Yields.bind {P : α → Nat → Prop} {Q : β → Nat → Prop} (hp : Yields p P)
    (hf : ∀ a m, P a m → Yields (f a) fun b n => Q b (m + n)) : Yields (p >>= f) Q := by
  intro s b s'' h
  obtain ⟨a, s', ha, hb⟩ := ok_of_bind h
  obtain ⟨hle, hP⟩ := hp s a s' ha
  obtain ⟨hle', hQ⟩ := hf a _ hP s' b s'' hb
  refine ⟨Nat.le_trans hle' hle, ?_⟩
  rwa [show s.length - s''.length = s.length - s'.length + (s'.length - s''.length) by omega]

theorem Yields.mono {P : α → Nat → Prop} (hp : Yields p P) (h : ∀ a n, P a n → Q a n) : Yields p Q := by
  intro s a s' ha
  obtain ⟨hle, hP⟩ := hp s a s' ha
  exact ⟨hle, h a _ hP⟩

theorem yields_peek {f : List σ → α} (h : ∀ s, Q (f s) 0) : Yields (fun s => .ok (f s) s : Reader ε σ α) Q := by
  intro s a s' ha
  obtain ⟨h1, h2⟩ := EStateM.Result.ok.inj ha
  subst h1
  subst h2
  exact ⟨Nat.le_refl _, by rw [Nat.sub_self]; exact h s⟩

/-! ## Readers that look no further than they read -/

/-- What `p` takes of an input it accepts is a code of the result. -/
def Local (p : Reader ε σ α) : Prop := ∀ s a s', p s = .ok a s' → ∃ bs, s = bs ++ s' ∧ Inverts p bs a

theorem local_throw (e : ε) : Local (throw e : Reader ε σ α) := fun _ _ _ h => absurd h throw_ne_ok

theorem Local.bind (hp : Local p) (hf : ∀ a, Local (f a)) : Local (p >>= f) := by
  intro s b s'' h
  obtain ⟨a, s', ha, hb⟩ := ok_of_bind h
  obtain ⟨bs, rfl, hbs⟩ := hp s a s' ha
  obtain ⟨cs, rfl, hcs⟩ := hf a s' b s'' hb
  exact ⟨bs ++ cs, (List.append_assoc bs cs s'').symm, hbs.bind hcs⟩

/-! ## Errors with something added -/

theorem adaptExcept_ok {ε' : Type} {f : ε → ε'} : p.adaptExcept f s = .ok a s' ↔ p s = .ok a s' := by
  unfold EStateM.adaptExcept
  cases p s <;> simp

/-! ## Counted loops -/

/-- Items `i`, `i + 1`, .., `i + n - 1` of a counted loop. -/
def each (p : Nat → Reader ε σ α) (i : Nat) : Nat → Reader ε σ (List α)
  | 0 => return []
  | n + 1 => do
    let a ← p i
    let as ← each p (i + 1) n
    return a :: as

theorem inverts_each {p : Nat → Reader ε σ α} {enc : α → List σ} (as : List α) (i : Nat)
    (h : ∀ j a, as[j]? = some a → Inverts (p (i + j)) (enc a) a) :
    Inverts (each p i as.length) (as.flatMap enc) as := by
  induction as generalizing i with
  | nil => exact inverts_pure []
  | cons a as ih =>
    have hhead : Inverts (p i) (enc a) a := h 0 a rfl
    have htail : Inverts (each p (i + 1) as.length) (as.flatMap enc) as := by
      refine ih (i + 1) ?_
      intro j b hb
      rw [Nat.add_right_comm, Nat.add_assoc]
      exact h (j + 1) b hb
    exact hhead.bind htail.map

theorem yields_each {p : Nat → Reader ε σ α} {P : Nat → α → Prop} {size : α → Nat} (i n : Nat)
    (h : ∀ j, Yields (p j) fun a m => P j a ∧ size a ≤ m) : Yields (each p i n) fun as m =>
      as.length = n ∧ (∀ j a, as[j]? = some a → P (i + j) a) ∧ (as.map size).sum ≤ m := by
  induction n generalizing i with
  | zero => exact yields_pure ⟨rfl, by simp, by simp⟩
  | succ n ih =>
    refine (h i).bind ?_
    rintro a m ⟨hP, hm⟩
    refine (ih (i + 1)).bind ?_
    rintro as k ⟨hlen, hall, hk⟩
    refine yields_pure ⟨by rw [List.length_cons, hlen], ?_, ?_⟩
    · intro j b hb
      cases j with
      | zero =>
        obtain rfl : a = b := by simpa using hb
        exact hP
      | succ j =>
        have := hall j b (by simpa using hb)
        rwa [show i + (j + 1) = i + 1 + j by omega]
    · rw [List.map_cons, List.sum_cons]
      omega

end ListReader
