import Mathlib.Computability.Language
import Mathlib.Order.CompletePartialOrder

set_option autoImplicit false

/-! # Scanners with a cursor

A scanner moves a cursor over a text. `Takes s stop m L` bounds what `m` does: from a cursor within the text it stops with `stop`, or it has
moved over a text of the language `L`, and so is still within. `Finds s m L A` is the converse: in front of a text of `L`, with something
allowed by `A` behind it, `m` moves over just that text. -/

namespace CursorScan

open Language List

variable {σ ε α β : Type}

/-- A computation on a cursor. -/
abbrev Walk (ε α : Type) := StateT Nat (Except ε) α

def Takes (s : List σ) (stop : ε) (m : Walk ε α) (L : Language σ) : Prop :=
  ∀ p ≤ s.length, m p = .error stop ∨ ∃ a t rest, s.drop p = t ++ rest ∧ t ∈ L ∧ m p = .ok (a, p + t.length)

def Finds (s : List σ) (m : Walk ε α) (L : Language σ) (A : List σ → Prop) : Prop :=
  ∀ p ≤ s.length, ∀ t rest, s.drop p = t ++ rest → t ∈ L → A rest → ∃ a, m p = .ok (a, p + t.length)

variable {s : List σ} {stop : ε} {m : Walk ε α} {f : α → Walk ε β} {L L' : Language σ} {A B : List σ → Prop} {p : Nat}

theorem drop_add_length {t rest : List σ} (hp : p ≤ s.length) (h : s.drop p = t ++ rest) :
    p + t.length ≤ s.length ∧ s.drop (p + t.length) = rest := by
  have hlen := congrArg length h
  rw [length_drop, length_append] at hlen
  refine ⟨by omega, ?_⟩
  rw [← drop_drop, h, drop_left]

theorem walk_bind_ok {p' : Nat} {a : α} (h : m p = .ok (a, p')) : (m >>= f) p = f a p' := by
  show (m p).bind (fun x => f x.1 x.2) = _
  rw [h]
  rfl

theorem walk_bind_error {e : ε} (h : m p = .error e) : (m >>= f) p = .error e := by
  show (m p).bind (fun x => f x.1 x.2) = _
  rw [h]
  rfl

theorem takes_pure (a : α) : Takes s stop (pure a : Walk ε α) 1 :=
  fun _ _ => .inr ⟨a, [], _, rfl, nil_mem_one, rfl⟩

theorem Takes.bind (hm : Takes s stop m L) (hf : ∀ a, Takes s stop (f a) L') : Takes s stop (m >>= f) (L * L') := by
  intro p hp
  rcases hm p hp with hstop | ⟨a, t, rest, hdrop, ht, hok⟩
  · exact .inl (walk_bind_error hstop)
  obtain ⟨hp', hrest⟩ := drop_add_length hp hdrop
  rw [walk_bind_ok hok]
  rcases hf a _ hp' with hstop | ⟨b, u, rest', hdrop', hu, hok'⟩
  · exact .inl hstop
  · refine .inr ⟨b, t ++ u, rest', ?_, append_mem_mul ht hu, ?_⟩
    · rw [hdrop, append_assoc, ← hdrop', hrest]
    · rw [hok', length_append, add_assoc]

theorem Takes.mono (hm : Takes s stop m L) (h : L ≤ L') : Takes s stop m L' := by
  intro p hp
  rcases hm p hp with hstop | ⟨a, t, rest, hdrop, ht, hok⟩
  · exact .inl hstop
  · exact .inr ⟨a, t, rest, hdrop, h ht, hok⟩

theorem Takes.map {g : α → β} (hm : Takes s stop m L) : Takes s stop (m >>= fun a => pure (g a)) L := by
  have h := hm.bind fun a => takes_pure (g a)
  rwa [mul_one] at h

theorem finds_pure (a : α) : Finds s (pure a : Walk ε α) 1 A := by
  intro p _ t rest _ ht _
  rw [(mem_one t).1 ht]
  exact ⟨a, rfl⟩

theorem Finds.bind (hm : Finds s m L A) (hf : ∀ a, Finds s (f a) L' B)
    (hA : ∀ t ∈ L', ∀ rest, B rest → A (t ++ rest)) : Finds s (m >>= f) (L * L') B := by
  intro p hp t rest hdrop ht hrest
  obtain ⟨u, hu, v, hv, rfl⟩ := mem_mul.1 ht
  rw [append_assoc] at hdrop
  obtain ⟨hp', hdrop'⟩ := drop_add_length hp hdrop
  obtain ⟨a, hok⟩ := hm p hp u (v ++ rest) hdrop hu (hA v hv rest hrest)
  obtain ⟨b, hok'⟩ := hf a _ hp' v rest hdrop' hv hrest
  refine ⟨b, ?_⟩
  rw [walk_bind_ok hok, hok', length_append, add_assoc]

theorem Finds.map {g : α → β} (hm : Finds s m L A) : Finds s (m >>= fun a => pure (g a)) L A := by
  have h : Finds s (m >>= fun a => pure (g a)) (L * 1) A := hm.bind (fun a => finds_pure (g a)) fun t ht rest hrest => by
    rw [(mem_one t).1 ht]
    exact hrest
  rwa [mul_one] at h

theorem Finds.mono (hm : Finds s m L A) (h : ∀ rest, B rest → A rest) : Finds s m L B :=
  fun p hp t rest hdrop ht hrest => hm p hp t rest hdrop ht (h rest hrest)

end CursorScan
