import Mathlib.Data.BitVec

set_option autoImplicit false

/-! # Linear functions on words

A function of words is linear when it turns the exclusive or of arguments into the exclusive or of values. Two linear
functions are equal when they agree on the words of one bit, so their equality is a finite check. -/

namespace DvbIpiTools.XorLinear

open BitVec

variable {α β γ : Type} [XorOp α] [XorOp β] [XorOp γ]

/-- A linear function. -/
def Linear (f : α → β) : Prop := ∀ x y, f (x ^^^ y) = f x ^^^ f y

/-- A function that is linear in both arguments together. -/
def Linear₂ (f : α → β → γ) : Prop := ∀ x y u v, f (x ^^^ y) (u ^^^ v) = f x u ^^^ f y v

theorem Linear.id : Linear (fun x : α => x) := fun _ _ => rfl

theorem Linear.comp {f : β → γ} {g : α → β} (hf : Linear f) (hg : Linear g) : Linear fun x => f (g x) := fun x y => by
  show f (g (x ^^^ y)) = _
  rw [hg, hf]

theorem Linear.comp₂ {δ : Type} [XorOp δ] {f : β → γ} {g : α → δ → β} (hf : Linear f) (hg : Linear₂ g) :
    Linear₂ fun x u => f (g x u) := fun x y u v => by
  show f (g (x ^^^ y) (u ^^^ v)) = _
  rw [hg, hf]

theorem Linear.foldl {ι : Type} {step : α → ι → α} (hstep : ∀ i, Linear fun x => step x i) (is : List ι) :
    Linear fun x => is.foldl step x := by
  induction is with
  | nil => exact fun x y => rfl
  | cons i is ih => exact ih.comp (hstep i)

theorem Linear₂.foldl {ι : Type} {step : α → β → ι → α} (hstep : ∀ i, Linear₂ fun x u => step x u i) (is : List ι) :
    Linear₂ fun x u => is.foldl (fun x i => step x u i) x := by
  induction is with
  | nil => exact fun x y u v => rfl
  | cons i is ih =>
    intro x y u v
    show is.foldl (fun x i => step x (u ^^^ v) i) (step (x ^^^ y) (u ^^^ v) i) = _
    rw [show step (x ^^^ y) (u ^^^ v) i = step x u i ^^^ step y v i from hstep i x y u v]
    exact ih _ _ u v

/-- Pairs are added in both places. -/
instance instXorOpPair : XorOp (α × β) := ⟨fun p q => (p.1 ^^^ q.1, p.2 ^^^ q.2)⟩

theorem Linear.fst : Linear (Prod.fst : α × β → α) := fun _ _ => rfl

theorem Linear.snd : Linear (Prod.snd : α × β → β) := fun _ _ => rfl

theorem Linear.prod {f : α → β} {g : α → γ} (hf : Linear f) (hg : Linear g) : Linear fun x => (f x, g x) :=
  fun x y => Prod.ext (hf x y) (hg x y)

section Sums

variable [Std.Associative (HXor.hXor : γ → γ → γ)] [Std.Commutative (HXor.hXor : γ → γ → γ)]

theorem xor_exchange (a b c d : γ) : (a ^^^ b) ^^^ (c ^^^ d) = (a ^^^ c) ^^^ (b ^^^ d) := by ac_rfl

theorem Linear.xor {f g : α → γ} (hf : Linear f) (hg : Linear g) : Linear fun x => f x ^^^ g x := fun x y => by
  show f (x ^^^ y) ^^^ g (x ^^^ y) = _
  rw [hf, hg, xor_exchange]

theorem Linear.xor₂ {f : α → γ} {g : β → γ} (hf : Linear f) (hg : Linear g) : Linear₂ fun x u => f x ^^^ g u :=
  fun x y u v => by
    show f (x ^^^ y) ^^^ g (u ^^^ v) = _
    rw [hf, hg, xor_exchange]

end Sums

/-! ## Operations on words -/

section Words

variable {m n : Nat}

theorem Linear.bit {c z : β} (hself : c ^^^ c = z) (hright : c ^^^ z = c) (hleft : z ^^^ c = c)
    (hzero : z ^^^ z = z) (i : Nat) : Linear fun x : BitVec m => if x.getLsbD i then c else z := fun x y => by
  show (if (x ^^^ y).getLsbD i then c else z) = _
  rw [getLsbD_xor]
  show _ = (if x.getLsbD i then c else z) ^^^ (if y.getLsbD i then c else z)
  cases x.getLsbD i <;> cases y.getLsbD i <;> simp [hself, hright, hleft, hzero]

theorem reverse_linear : Linear (BitVec.reverse (w := m)) := fun x y => by
  refine eq_of_getLsbD_eq fun i _ => ?_
  simp only [getLsbD_reverse, getLsbD_xor, getMsbD_xor]

variable (k : Nat)

theorem shiftLeft_linear : Linear fun x : BitVec m => x <<< k := fun x y => shiftLeft_xor_distrib x y k

theorem shiftRight_linear : Linear fun x : BitVec m => x >>> k := fun x y =>
  ushiftRight_xor_distrib x y k

theorem and_linear (c : BitVec m) : Linear fun x : BitVec m => x &&& c := fun x y => by
  refine eq_of_getLsbD_eq fun i _ => ?_
  simp only [getLsbD_and, getLsbD_xor, Bool.and_xor_distrib_right]

theorem setWidth_linear : Linear fun x : BitVec m => x.setWidth n := fun _ _ => setWidth_xor

theorem extractLsb'_linear : Linear fun x : BitVec m => x.extractLsb' k n := fun _ _ => extractLsb'_xor

theorem rotateLeft_linear : Linear fun x : BitVec m => x.rotateLeft k := fun x y => by
  refine eq_of_getLsbD_eq fun i _ => ?_
  rw [getLsbD_xor, getLsbD_rotateLeft, getLsbD_rotateLeft, getLsbD_rotateLeft]
  rw [getLsbD_xor, getLsbD_xor, Bool.and_xor_distrib_left]
  cases decide (i < k % m) <;> rfl

theorem append_linear : Linear₂ fun (x : BitVec m) (u : BitVec n) => x ++ u := fun _ _ _ _ =>
  xor_append.symm

/-- `Within x c`: the word `x` has bits only where `c` has. -/
def Within (x c : BitVec m) : Prop := x &&& c = x

instance (x c : BitVec m) : Decidable (Within x c) := inferInstanceAs (Decidable (x &&& c = x))

variable {x y : BitVec m}

theorem or_eq_xor (h : x &&& y = 0) : x ||| y = x ^^^ y := by
  refine eq_of_getLsbD_eq fun i hi => ?_
  have hbit : (x &&& y).getLsbD i = (0 : BitVec m).getLsbD i := by rw [h]
  rw [getLsbD_and, show (0 : BitVec m).getLsbD i = false from getLsbD_zero] at hbit
  cases hx : x.getLsbD i <;> cases hy : y.getLsbD i <;> simp_all

theorem shiftLeft_and_eq_zero {k : Nat} (h : ∀ i, k ≤ i → y.getLsbD i = false) : x <<< k &&& y = 0 := by
  refine eq_of_getLsbD_eq fun i _ => ?_
  rw [getLsbD_and, getLsbD_shiftLeft, show (0 : BitVec m).getLsbD i = false from getLsbD_zero]
  by_cases hi : i < k
  · rw [decide_eq_true hi, Bool.not_true, Bool.and_false, Bool.false_and, Bool.false_and]
  · rw [h i (Nat.not_lt.1 hi), Bool.and_false]

variable {c : BitVec m}

theorem Within.or_eq_xor {d : BitVec m} (hx : Within x c) (hy : Within y d) (h : c &&& d = 0) : x ||| y = x ^^^ y := by
  refine XorLinear.or_eq_xor ?_
  calc x &&& y = (x &&& c) &&& (y &&& d) := by rw [hx, hy]
    _ = (x &&& y) &&& (c &&& d) := by ac_rfl
    _ = 0 := by rw [h]; exact and_zero

theorem Within.xor {d : BitVec m} (hx : Within x c) (hy : Within y d) : Within (x ^^^ y) (c ||| d) := by
  refine eq_of_getLsbD_eq fun i _ => ?_
  have hxi : (x &&& c).getLsbD i = x.getLsbD i := by rw [hx]
  have hyi : (y &&& d).getLsbD i = y.getLsbD i := by rw [hy]
  rw [BitVec.getLsbD_and] at hxi hyi
  rw [BitVec.getLsbD_and, BitVec.getLsbD_xor, BitVec.getLsbD_or, ← hxi, ← hyi]
  cases x.getLsbD i <;> cases y.getLsbD i <;> cases c.getLsbD i <;> cases d.getLsbD i <;> rfl

theorem Within.and (x c : BitVec m) : Within (x &&& c) c := by rw [Within, BitVec.and_assoc, BitVec.and_self]

theorem Within.allOnes (x : BitVec m) : Within x (BitVec.allOnes m) := BitVec.and_allOnes

theorem Within.shiftLeft (h : Within x c) (k : Nat) : Within (x <<< k) (c <<< k) := by
  rw [Within, ← BitVec.shiftLeft_and_distrib, h]

theorem Within.shiftRight (h : Within x c) (k : Nat) : Within (x >>> k) (c >>> k) := by
  rw [Within, ← ushiftRight_and_distrib, h]

theorem Within.setWidth (h : Within x c) : Within (x.setWidth n) (c.setWidth n) := by
  rw [Within, ← setWidth_and, h]

/-- The places of a list of words are apart from each other and from those of `c`. -/
def apart (c : BitVec m) : List (BitVec m) → Bool
  | [] => true
  | d :: ds => c &&& d == 0 && apart (c ||| d) ds

theorem foldl_or_eq_xor {xs cs : List (BitVec m)} (hx : Within x c) (h : List.Forall₂ Within xs cs)
    (hapart : apart c cs = true) : xs.foldl (fun a b => a ||| b) x = xs.foldl (fun a b => a ^^^ b) x := by
  induction h generalizing x c with
  | nil => rfl
  | @cons y d ys ds hy _ ih =>
    rw [apart, Bool.and_eq_true, beq_iff_eq] at hapart
    rw [List.foldl_cons, List.foldl_cons, hx.or_eq_xor hy hapart.1]
    exact ih (hx.xor hy) hapart.2

end Words

/-! ## The words of one bit -/

section Basis

variable {m : Nat} {f g : BitVec m → β}

/-- The low `k` bits of a word. -/
def low (x : BitVec m) (k : Nat) : BitVec m := x &&& BitVec.ofNat m (2 ^ k - 1)

theorem getLsbD_low (x : BitVec m) (k j : Nat) : (low x k).getLsbD j = (x.getLsbD j && decide (j < k)) := by
  by_cases hj : j < m
  · rw [low, getLsbD_and, getLsbD_ofNat, Nat.testBit_two_pow_sub_one, decide_eq_true hj, Bool.true_and]
  · rw [getLsbD_of_ge _ _ (Nat.not_lt.1 hj), getLsbD_of_ge _ _ (Nat.not_lt.1 hj), Bool.false_and]

theorem low_zero (x : BitVec m) : low x 0 = 0 := by
  refine eq_of_getLsbD_eq fun j _ => ?_
  rw [getLsbD_low]
  simp

theorem low_self (x : BitVec m) : low x m = x := by
  refine eq_of_getLsbD_eq fun j hj => ?_
  rw [getLsbD_low, decide_eq_true hj, Bool.and_true]

theorem low_succ (x : BitVec m) (k : Nat) :
    low x (k + 1) = if x.getLsbD k then low x k ^^^ BitVec.twoPow m k else low x k := by
  refine eq_of_getLsbD_eq fun j hj => ?_
  by_cases hk : x.getLsbD k
  · rw [if_pos hk, getLsbD_xor, getLsbD_low, getLsbD_low, getLsbD_twoPow]
    rcases Nat.lt_trichotomy j k with hlt | rfl | hgt
    · simp [hlt, Nat.lt_succ_of_lt hlt, ne_of_gt hlt]
    · simp [hk, hj]
    · simp [not_lt.2 (Nat.succ_le_of_lt hgt), not_lt.2 hgt.le, ne_of_lt hgt]
  · rw [if_neg hk, getLsbD_low, getLsbD_low]
    rcases Nat.lt_trichotomy j k with hlt | rfl | hgt
    · simp [hlt, Nat.lt_succ_of_lt hlt]
    · simp [hk]
    · simp [not_lt.2 (Nat.succ_le_of_lt hgt), not_lt.2 hgt.le]

/-- Two functions agree on 0 and on the words of one bit. -/
def AgreeOnBasis (f g : BitVec m → β) : Prop :=
  f 0 = g 0 ∧ ∀ i : Fin m, f (BitVec.twoPow m i) = g (BitVec.twoPow m i)

instance [DecidableEq β] : Decidable (AgreeOnBasis f g) := inferInstanceAs (Decidable (_ ∧ _))

/-- The same for functions of two words. -/
def AgreeOnBasis₂ {n : Nat} (f g : BitVec m → BitVec n → β) : Prop :=
  AgreeOnBasis (fun x => f x 0) (fun x => g x 0) ∧ AgreeOnBasis (fun u => f 0 u) (fun u => g 0 u)

instance {n : Nat} {f g : BitVec m → BitVec n → β} [DecidableEq β] : Decidable (AgreeOnBasis₂ f g) :=
  inferInstanceAs (Decidable (_ ∧ _))

theorem Linear.eq_of_basis (hf : Linear f) (hg : Linear g) (h : AgreeOnBasis f g) (x : BitVec m) : f x = g x := by
  obtain ⟨hzero, hbasis⟩ := h
  have hlow : ∀ k ≤ m, f (low x k) = g (low x k) := by
    intro k
    induction k with
    | zero =>
      intro _
      rw [low_zero, hzero]
    | succ k ih =>
      intro hk
      rw [low_succ]
      split
      · rw [hf, hg, ih (Nat.le_of_succ_le hk), hbasis ⟨k, hk⟩]
      · exact ih (Nat.le_of_succ_le hk)
  rw [← low_self x]
  exact hlow m le_rfl

theorem Linear₂.eq_of_basis {n : Nat} {f g : BitVec m → BitVec n → β} (hf : Linear₂ f) (hg : Linear₂ g)
    (h : AgreeOnBasis₂ f g) (x : BitVec m) (u : BitVec n) : f x u = g x u := by
  have hl : ∀ {h : BitVec m → BitVec n → β}, Linear₂ h → Linear fun x => h x 0 := fun hh x y => by
    simpa using hh x y 0 0
  have hr : ∀ {h : BitVec m → BitVec n → β}, Linear₂ h → Linear fun u => h 0 u := fun hh u v => by
    simpa using hh 0 0 u v
  have hx : f x 0 = g x 0 := (hl hf).eq_of_basis (hl hg) h.1 x
  have hu : f 0 u = g 0 u := (hr hf).eq_of_basis (hr hg) h.2 u
  have hsum : ∀ {h : BitVec m → BitVec n → β}, Linear₂ h → h x u = h x 0 ^^^ h 0 u := fun hh => by
    simpa using hh x 0 0 u
  rw [hsum hf, hsum hg, hx, hu]

end Basis

end DvbIpiTools.XorLinear
