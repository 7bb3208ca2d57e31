import Mathlib.Data.List.Perm.Basic
import Mathlib.Data.List.Nodup

set_option autoImplicit false

/-! # Parity of a family

An operation like the exclusive or, in which every value is its own inverse, combines the members of a family
into one value. Combining this parity with all members but one gives the one that was left out. -/

namespace DvbIpiTools.Parity

open List

universe u v

section Fold

variable {ι : Type u} {β : Type v} (op : β → β → β) (e : β)

/-- The members of `is` combined with `a`. -/
def fold (f : ι → β) (a : β) (is : List ι) : β := is.foldl (fun b i => op b (f i)) a

variable (f : ι → β)

@[simp] theorem fold_nil (a : β) : fold op f a [] = a := rfl

theorem fold_concat (a : β) (is : List ι) (i : ι) : fold op f a (is ++ [i]) = op (fold op f a is) (f i) := by
  rw [fold, foldl_append]
  rfl

theorem fold_map {κ : Type u} (f : ι → β) (g : κ → ι) (a : β) (ks : List κ) :
    fold op f a (ks.map g) = fold op (fun k => f (g k)) a ks := foldl_map

variable {is : List ι}

theorem fold_congr {f g : ι → β} (a : β) (h : ∀ i ∈ is, f i = g i) : fold op f a is = fold op g a is := by
  induction is generalizing a with
  | nil => rfl
  | cons i is ih =>
    show fold op f (op a (f i)) is = fold op g (op a (g i)) is
    rw [h i mem_cons_self]
    exact ih _ (fun j hj => h j (mem_cons_of_mem i hj))

theorem fold_hom {γ : Type v} (op' : γ → γ → γ) (φ : β → γ) (hφ : ∀ a b, φ (op a b) = op' (φ a) (φ b))
    (f : ι → β) (a : β) (is : List ι) : φ (fold op f a is) = fold op' (fun i => φ (f i)) (φ a) is := by
  induction is generalizing a with
  | nil => rfl
  | cons i is ih =>
    show φ (fold op f (op a (f i)) is) = fold op' _ (op' (φ a) (φ (f i))) is
    rw [ih, hφ]

variable [Std.Associative op] [Std.LawfulIdentity op e]

theorem fold_start (a : β) (is : List ι) : fold op f a is = op a (fold op f e is) := by
  have hassoc : ∀ a b c, op (op a b) c = op a (op b c) := Std.Associative.assoc
  have hleft : ∀ a, op e a = a := Std.LawfulLeftIdentity.left_id
  induction is generalizing a with
  | nil => exact (Std.LawfulRightIdentity.right_id a).symm
  | cons i is ih =>
    show fold op f (op a (f i)) is = op a (fold op f (op e (f i)) is)
    rw [ih (op a (f i)), ih (op e (f i)), hleft (f i), hassoc]

omit [Std.LawfulIdentity op e] in
theorem fold_perm [Std.Commutative op] (f : ι → β) (a : β) {js : List ι} (h : is.Perm js) :
    fold op f a is = fold op f a js := by
  have hassoc : ∀ a b c, op (op a b) c = op a (op b c) := Std.Associative.assoc
  have hcomm : ∀ a b, op a b = op b a := Std.Commutative.comm
  refine h.foldl_eq' ?_ a
  intro i _ j _ b
  rw [hassoc, hassoc, hcomm (f i)]

theorem fold_recovers [Std.Commutative op] [DecidableEq ι] (hself : ∀ a, op a a = e) (f : ι → β) (hnd : is.Nodup) {j : ι}
    (hj : j ∈ is) : fold op f (fold op f e is) (is.filter (· ≠ j)) = f j := by
  have hperm : is.Perm (j :: is.filter (· ≠ j)) := by
    have hfilter : is.filter (· ≠ j) = is.erase j := by
      rw [hnd.erase_eq_filter]
      exact filter_congr (fun i _ => by by_cases h : i = j <;> simp [h])
    rw [hfilter]
    exact perm_cons_erase hj
  have hassoc : ∀ a b c, op (op a b) c = op a (op b c) := Std.Associative.assoc
  have hleft : ∀ a, op e a = a := Std.LawfulLeftIdentity.left_id
  have htotal : fold op f e is = op (f j) (fold op f e (is.filter (· ≠ j))) := by
    rw [fold_perm op f e hperm]
    show fold op f (op e (f j)) _ = _
    rw [hleft (f j), fold_start op e]
  rw [fold_start op e f (fold op f e is), htotal, hassoc, hself]
  exact Std.LawfulRightIdentity.right_id (f j)

end Fold

/-! ## Byte strings -/

/-- The exclusive or of two byte strings, the shorter one as if zeros followed. -/
def xorBytes : List UInt8 → List UInt8 → List UInt8
  | [], ys => ys
  | x :: xs, [] => x :: xs
  | x :: xs, y :: ys => (x ^^^ y) :: xorBytes xs ys

theorem getD_xorBytes (xs ys : List UInt8) (k : Nat) : (xorBytes xs ys).getD k 0 = xs.getD k 0 ^^^ ys.getD k 0 := by
  induction xs, ys using xorBytes.induct generalizing k with
  | case3 x xs y ys ih =>
    cases k with
    | zero => rfl
    | succ k => exact ih k
  | _ => simp [xorBytes]

theorem length_xorBytes (xs ys : List UInt8) : (xorBytes xs ys).length = max xs.length ys.length := by
  induction xs, ys using xorBytes.induct with
  | case3 x xs y ys ih => simp [xorBytes, ih, Nat.succ_max_succ]
  | _ => simp [xorBytes]

end DvbIpiTools.Parity
