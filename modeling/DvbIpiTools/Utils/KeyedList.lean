import Mathlib.Data.List.Basic

set_option autoImplicit false

/-! # Lists of entries with a key

The first entry with a key is the one that counts. -/

namespace DvbIpiTools.KeyedList

open List

variable {α : Type} (key : α → Nat)

/-- The entry with the key `k`. -/
def lookup (l : List α) (k : Nat) : Option α := l.find? fun a => key a == k

/-- The entry with the key of `a` becomes `a`. -/
def replace (a : α) : List α → List α
  | [] => []
  | b :: l => if key b = key a then a :: l else b :: replace a l

variable {key} {l : List α} {a : α} {k : Nat}

theorem key_of_lookup (h : lookup key l k = some a) : key a = k := by simpa using find?_some h

@[simp] theorem length_replace : (replace key a l).length = l.length := by
  induction l with
  | nil => rfl
  | cons b l ih =>
    rw [replace]
    split
    · rfl
    · rw [length_cons, ih, length_cons]

theorem lookup_cons (b : α) (l : List α) (k : Nat) : lookup key (b :: l) k = if key b = k then some b else lookup key l k := by
  by_cases h : key b = k
  · rw [if_pos h, lookup, find?_cons_of_pos (by simpa using h)]
  · rw [if_neg h, lookup, find?_cons_of_neg (by simpa using h), lookup]

theorem lookup_replace {b : α} (h : lookup key l (key a) = some b) (k : Nat) :
    lookup key (replace key a l) k = if key a = k then some a else lookup key l k := by
  induction l with
  | nil => cases h
  | cons c l ih =>
    rw [lookup_cons] at h
    rw [replace]
    by_cases hc : key c = key a
    · rw [if_pos hc, lookup_cons, lookup_cons, hc]
      by_cases hk : key a = k
      · rw [if_pos hk, if_pos hk]
      · rw [if_neg hk, if_neg hk, if_neg hk]
    · rw [if_neg hc] at h ⊢
      rw [lookup_cons, lookup_cons, ih h]
      by_cases hk : key c = k
      · rw [if_pos hk, if_neg (fun he => hc (hk.trans he.symm)), if_pos hk]
      · rw [if_neg hk, if_neg hk]

theorem lookup_put {b : α} {j : Nat} (h : lookup key l j = some b) (ha : key a = j) (k : Nat) :
    lookup key (replace key a l) k = if j = k then some a else lookup key l k := by
  subst ha
  exact lookup_replace h k

theorem lookup_append (h : lookup key l (key a) = none) (k : Nat) :
    lookup key (l ++ [a]) k = if key a = k then some a else lookup key l k := by
  rw [lookup, find?_append]
  by_cases hk : key a = k
  · subst hk
    rw [lookup] at h
    simp [h]
  · simp [hk, lookup]

theorem mem_replace {b : α} (h : b ∈ replace key a l) : b = a ∨ b ∈ l := by
  induction l with
  | nil => cases h
  | cons c l ih =>
    rw [replace] at h
    split at h
    · exact (mem_cons.1 h).imp id (mem_cons_of_mem _)
    · rcases mem_cons.1 h with rfl | h
      · exact .inr mem_cons_self
      · exact (ih h).imp id (mem_cons_of_mem _)

theorem mem_of_lookup (h : lookup key l k = some a) : a ∈ l := mem_of_find?_eq_some h

theorem replace_replace {a' : α} (h : key a' = key a) : replace key a' (replace key a l) = replace key a' l := by
  induction l with
  | nil => rfl
  | cons b l ih =>
    rw [replace, replace]
    by_cases hb : key b = key a
    · rw [if_pos hb, replace, if_pos h.symm, if_pos (hb.trans h.symm)]
    · rw [if_neg hb, replace, if_neg (fun he => hb (he.trans h)), if_neg (fun he => hb (he.trans h)), ih]

end DvbIpiTools.KeyedList
