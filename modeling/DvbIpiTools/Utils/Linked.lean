import Mathlib.Data.List.Basic

set_option autoImplicit false

/-! # Linked lists in memory

Nodes have addresses, and a node that is allocated has the address of the next one or none. Several lists can be in
one memory; what is not in a list can change without touching it. -/

namespace DvbIpiTools

variable {ι : Type} {next next' : ι → Option (Option ι)} {a b c : Option ι} {l l' : List ι} {x : ι}

/-- The nodes from an address on, as far as where the last one points to. -/
def Linked (next : ι → Option (Option ι)) : Option ι → List ι → Option ι → Prop
  | a, [], b => a = b
  | a, x :: xs, b => a = some x ∧ ∃ c, next x = some c ∧ Linked next c xs b

namespace Linked

theorem congr (h : Linked next a l b) (hsame : ∀ y ∈ l, next' y = next y) : Linked next' a l b := by
  induction l generalizing a with
  | nil => exact h
  | cons y l ih =>
    obtain ⟨rfl, c, hc, hrest⟩ := h
    exact ⟨rfl, c, (hsame y List.mem_cons_self).trans hc, ih hrest fun z hz => hsame z (.tail _ hz)⟩

theorem append (h : Linked next a l b) (h' : Linked next b l' c) : Linked next a (l ++ l') c := by
  induction l generalizing a with
  | nil =>
    obtain rfl : a = b := h
    exact h'
  | cons y l ih =>
    obtain ⟨rfl, d, hd, hrest⟩ := h
    exact ⟨rfl, d, hd, ih hrest⟩

theorem relink (h : Linked next a l b) (hlast : l.getLast? = some x) (hnodup : l.Nodup)
    (hsame : ∀ y, y ≠ x → next' y = next y) (hx : next' x = some c) : Linked next' a l c := by
  induction l generalizing a with
  | nil => cases hlast
  | cons y l ih =>
    obtain ⟨rfl, d, hd, hrest⟩ := h
    obtain ⟨hy, hl⟩ := List.nodup_cons.1 hnodup
    cases l with
    | nil =>
      obtain rfl : y = x := Option.some.inj hlast
      exact ⟨rfl, c, hx, rfl⟩
    | cons z l =>
      have hlast' : (z :: l).getLast? = some x := by rwa [List.getLast?_cons_cons] at hlast
      have hne : y ≠ x := by
        rintro rfl
        exact hy (List.mem_of_getLast? hlast')
      exact ⟨rfl, d, (hsame y hne).trans hd, ih hrest hlast' hl⟩

end Linked

end DvbIpiTools
