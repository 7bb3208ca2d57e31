import DvbIpiTools.Bim.Fuu.Positions

set_option autoImplicit false

/-! # Rational positions and their codes

The order of the rational increments numbers the fractions between 0 and 1 whose denominator is a power of two, level by level; a
position is such a fraction with 64 bits behind the point. Its code has as many groups of four bits as are not zero at the end. -/

namespace DvbIpiTools.Bim.Fuu

open BitList ListReader List Nat

/-! ## The order -/

/-- The loop of `fuu_rat_order`, with `n` rounds left. -/
def ratLevelFrom (i1 : Nat) : Nat → Nat → Nat
  | 0, j => j
  | n + 1, j => if 1 <<< j ≤ i1 then ratLevelFrom i1 n (j + 1) else j

/-- `j` of `fuu_rat_order`. -/
def ratLevel (i1 : Nat) : Nat := ratLevelFrom i1 62 1

/-- `fuu_rat_order` on 64 bits. -/
def fuuRatOrder (i : Nat) : Nat :=
  let i1 := (i + 1) % 2 ^ 64
  (2 * i1 + 1 + (2 ^ 64 - 2 ^ ratLevel i1)) % 2 ^ 64 * 2 ^ (64 - ratLevel i1) % 2 ^ 64

/-- The loop of `fuu_rat_index` over the zero bits at the end. -/
def trailingZeros (v : Nat) : Nat → Nat → Nat
  | 0, tz => tz
  | n + 1, tz => if v >>> tz % 2 = 1 then tz else trailingZeros v n (tz + 1)

/-- `fuu_rat_index`; none for `UNB`. -/
def fuuRatIndex (v : Nat) : Option Nat :=
  if v = 0 then none
  else
    let tz := trailingZeros v 64 0
    let j := 64 - tz
    if j > 21 then none
    else
      let i1 := (v >>> tz - 1 + 2 ^ j) / 2
      if i1 ≥ 1 ∧ i1 ≤ 2 ^ 20 ∧ fuuRatOrder (i1 - 1) = v then some (i1 - 1) else none

theorem ratLevelFrom_spec {i1 n j : Nat} (hlo : 2 ^ j ≤ 2 * i1) (hhi : i1 < 2 ^ (j + n)) :
    j ≤ ratLevelFrom i1 n j ∧ ratLevelFrom i1 n j ≤ j + n ∧ 2 ^ ratLevelFrom i1 n j ≤ 2 * i1 ∧ i1 < 2 ^ ratLevelFrom i1 n j := by
  induction n generalizing j with
  | zero => exact ⟨le_rfl, le_rfl, hlo, hhi⟩
  | succ n ih =>
    rw [ratLevelFrom, one_shiftLeft]
    split
    · next hle =>
      obtain ⟨h1, h2, h3, h4⟩ := @ih (j + 1) (by rw [pow_succ]; omega) (by rwa [add_right_comm])
      exact ⟨by omega, by omega, h3, h4⟩
    · next hlt => exact ⟨le_rfl, le_add_right _ _, hlo, not_le.1 hlt⟩

theorem fuuRatOrder_eq {i : Nat} (hi : i + 1 < 2 ^ 63) : 1 ≤ ratLevel (i + 1) ∧ ratLevel (i + 1) ≤ 63 ∧
    2 ^ ratLevel (i + 1) ≤ 2 * (i + 1) ∧ i + 1 < 2 ^ ratLevel (i + 1) ∧
      fuuRatOrder i = (2 * (i + 1) + 1 - 2 ^ ratLevel (i + 1)) * 2 ^ (64 - ratLevel (i + 1)) := by
  obtain ⟨hlo, hhi, hle, hlt⟩ := @ratLevelFrom_spec (i + 1) 62 1 (by omega) hi
  refine ⟨hlo, hhi, hle, hlt, ?_⟩
  unfold fuuRatOrder
  rw [mod_eq_of_lt (show i + 1 < 2 ^ 64 by omega)]
  unfold ratLevel
  dsimp only
  generalize ratLevelFrom (i + 1) 62 1 = j at hlo hhi hle hlt ⊢
  have hpow : 2 ^ j * 2 ^ (64 - j) = 2 ^ 64 := by rw [← pow_add, Nat.add_sub_cancel' (by omega)]
  have hsum : 2 * (i + 1) + 1 + (2 ^ 64 - 2 ^ j) = 2 * (i + 1) + 1 - 2 ^ j + 2 ^ 64 := by omega
  rw [hsum, add_mod_right, mod_eq_of_lt (a := 2 * (i + 1) + 1 - 2 ^ j) (by omega), mod_eq_of_lt]
  rw [← hpow]
  exact Nat.mul_lt_mul_of_pos_right (by omega) (Nat.two_pow_pos _)

theorem trailingZeros_odd {m t : Nat} (hm : m % 2 = 1) {n tz : Nat} (hle : tz ≤ t) (hn : t < tz + n) :
    trailingZeros (m * 2 ^ t) n tz = t := by
  induction n generalizing tz with
  | zero => omega
  | succ n ih =>
    have hshift : (m * 2 ^ t) >>> tz = m * 2 ^ (t - tz) := by
      obtain ⟨k, rfl⟩ := Nat.exists_eq_add_of_le hle
      rw [Nat.shiftRight_eq_div_pow, pow_add, mul_left_comm, Nat.mul_div_cancel_left _ (Nat.two_pow_pos _),
        Nat.add_sub_cancel_left]
    rw [trailingZeros, hshift]
    obtain rfl | hlt := eq_or_lt_of_le hle
    · rw [Nat.sub_self, Nat.pow_zero, Nat.mul_one, if_pos hm]
    · obtain ⟨k, hk⟩ := Nat.exists_eq_add_of_lt hlt
      rw [if_neg, ih hlt (by omega)]
      rw [hk, show tz + k + 1 - tz = k + 1 by omega, pow_succ, ← mul_assoc, mul_mod_left]
      decide

theorem trailingZeros_fuuRatOrder {i : Nat} (hi : i + 1 < 2 ^ 63) :
    trailingZeros (fuuRatOrder i) 64 0 = 64 - ratLevel (i + 1) ∧
      fuuRatOrder i >>> (64 - ratLevel (i + 1)) = 2 * (i + 1) + 1 - 2 ^ ratLevel (i + 1) := by
  obtain ⟨hlo, hhi, hle, hlt, heq⟩ := fuuRatOrder_eq hi
  rw [heq]
  obtain ⟨j, hj⟩ := Nat.exists_eq_add_of_le' hlo
  refine ⟨trailingZeros_odd ?_ (zero_le _) (by omega), ?_⟩
  · rw [hj, pow_succ] at hle ⊢
    omega
  · rw [Nat.shiftRight_eq_div_pow, Nat.mul_div_cancel _ (Nat.two_pow_pos _)]

theorem fuuRatOrder_inj {i k : Nat} (hi : i + 1 < 2 ^ 63) (hk : k + 1 < 2 ^ 63) (h : fuuRatOrder i = fuuRatOrder k) : i = k := by
  obtain ⟨htz, hval⟩ := trailingZeros_fuuRatOrder hi
  obtain ⟨htz', hval'⟩ := trailingZeros_fuuRatOrder hk
  obtain ⟨-, hhi', hle', -⟩ := fuuRatOrder_eq hk
  have hlevel : ratLevel (i + 1) = ratLevel (k + 1) := by
    rw [h, htz'] at htz
    omega
  rw [h, hlevel, hval'] at hval
  omega

theorem fuuRatOrder_pos {i : Nat} (hi : i + 1 < 2 ^ 63) : fuuRatOrder i ≠ 0 := by
  obtain ⟨-, -, hle, -, heq⟩ := fuuRatOrder_eq hi
  rw [heq]
  exact Nat.mul_ne_zero (by omega) (Nat.two_pow_pos _).ne'

theorem fuuRatIndex_fuuRatOrder {i : Nat} (hi : i < 2 ^ 20) : fuuRatIndex (fuuRatOrder i) = some i := by
  have hsmall : i + 1 < 2 ^ 63 := by omega
  obtain ⟨htz, hval⟩ := trailingZeros_fuuRatOrder hsmall
  obtain ⟨hlo, hhi, hle, hlt, -⟩ := fuuRatOrder_eq hsmall
  have hlevel : ratLevel (i + 1) ≤ 21 := by
    by_contra hgt
    have hpow : 2 ^ 22 ≤ 2 ^ ratLevel (i + 1) := Nat.pow_le_pow_right (by decide) (by omega)
    omega
  unfold fuuRatIndex
  rw [if_neg (fuuRatOrder_pos hsmall), htz]
  simp only [hval, Nat.sub_sub_self (show ratLevel (i + 1) ≤ 64 by omega)]
  rw [if_neg (by omega), show (2 * (i + 1) + 1 - 2 ^ ratLevel (i + 1) - 1 + 2 ^ ratLevel (i + 1)) / 2 = i + 1 by omega]
  simp only [Nat.add_sub_cancel]
  rw [if_pos ⟨by omega, by omega, trivial⟩]

theorem fuuRatOrder_of_index {v i : Nat} (h : fuuRatIndex v = some i) : fuuRatOrder i = v := by
  unfold fuuRatIndex at h
  split at h
  · cases h
  simp only at h
  split at h
  · cases h
  split at h
  · next hback =>
    cases h
    exact hback.2.2
  · cases h

/-! ## The code -/

/-- The loop of `bim_wr_rational` over the groups that are not zero. -/
def ratGroupsFrom (v : Nat) : Nat → Nat → Nat
  | 0, n => n
  | k + 1, n => if v * 2 ^ (4 * n) % 2 ^ 64 ≠ 0 then ratGroupsFrom v k (n + 1) else n

/-- `n` of `bim_wr_rational`: at most 16. -/
def ratGroups (v : Nat) : Nat := ratGroupsFrom v 15 1

/-- What `bim_wr_rational` writes. -/
def rationalBits (v : Nat) : List Bool :=
  replicate (ratGroups v - 1) true ++ [false] ++ ofNat (4 * ratGroups v) (v >>> (64 - 4 * ratGroups v))

/-- The loop of `bim_rd_rational` over the ones, behind `n` of them; at most 17 bits are read. -/
def rdRatGroups (x : RdCtx) : Nat → Nat → Rd Nat
  | 0, n => pure n
  | k + 1, n => do
    let b ← rdFlag x
    if b then rdRatGroups x k (n + 1) else return n + 1

/-- `bim_rd_rational`. -/
def rdRational (x : RdCtx) (range : String) : Rd Nat := do
  let n ← rdRatGroups x 17 0
  if n > 16 then throw (bimFail range (text "bim: " ++ text x.what ++ text " rational position code out of range"))
  else
    let b ← rdBits x (4 * n)
    return if 4 * n = 64 then b else b * 2 ^ (64 - 4 * n) % 2 ^ 64

theorem ratGroupsFrom_spec {v k n : Nat} (hn : n + k = 16) : n ≤ ratGroupsFrom v k n ∧ ratGroupsFrom v k n ≤ 16 ∧
    v * 2 ^ (4 * ratGroupsFrom v k n) % 2 ^ 64 = 0 := by
  induction k generalizing n with
  | zero =>
    obtain rfl : n = 16 := hn
    exact ⟨le_rfl, le_rfl, mul_mod_left _ _⟩
  | succ k ih =>
    rw [ratGroupsFrom]
    split
    · obtain ⟨hlo, hhi, hzero⟩ := @ih (n + 1) (by omega)
      exact ⟨by omega, hhi, hzero⟩
    · next h => exact ⟨le_rfl, by omega, not_not.1 h⟩

theorem inverts_rdRatGroups (x : RdCtx) {k m : Nat} (hm : m < k) (n : Nat) :
    Inverts (rdRatGroups x k n) (replicate m true ++ [false]) (n + m + 1) := by
  induction m generalizing k n with
  | zero =>
    obtain ⟨k, rfl⟩ := Nat.exists_eq_add_of_lt hm
    exact (inverts_rdFlag x false).bind (inverts_pure _)
  | succ m ih =>
    obtain ⟨k, rfl⟩ := Nat.exists_eq_add_of_le' (Nat.zero_lt_of_lt hm)
    rw [replicate_succ, cons_append, ← singleton_append, add_right_comm n]
    exact (inverts_rdFlag x true).bind (ih (by omega) (n + 1))

theorem inverts_rdRational (x : RdCtx) (range : String) {v : Nat} (hv : v < 2 ^ 64) : Inverts (rdRational x range) (rationalBits v) v := by
  obtain ⟨hlo, hhi, hzero⟩ := @ratGroupsFrom_spec v 15 1 rfl
  have hgroups := inverts_rdRatGroups x (k := 17) (m := ratGroups v - 1) (by unfold ratGroups; omega) 0
  rw [show 0 + (ratGroups v - 1) + 1 = ratGroups v by unfold ratGroups; omega] at hgroups
  refine hgroups.bind ?_
  unfold ratGroups
  generalize ratGroupsFrom v 15 1 = n at hlo hhi hzero ⊢
  rw [if_neg (by omega)]
  -- the groups that are left out are zero
  have hpow : 2 ^ (4 * n) * 2 ^ (64 - 4 * n) = 2 ^ 64 := by rw [← pow_add, Nat.add_sub_cancel' (by omega)]
  obtain ⟨q, hq⟩ := dvd_of_mod_eq_zero hzero
  have hval : v = q * 2 ^ (64 - 4 * n) := by
    rw [← hpow, mul_comm v, mul_assoc] at hq
    rw [Nat.mul_left_cancel (Nat.two_pow_pos _) hq, mul_comm]
  have hqlt : q < 2 ^ (4 * n) := by
    rw [hval, ← hpow] at hv
    exact Nat.lt_of_mul_lt_mul_right hv
  rw [show v >>> (64 - 4 * n) = q by rw [hval, Nat.shiftRight_eq_div_pow, Nat.mul_div_cancel _ (Nat.two_pow_pos _)]]
  have hback : (if 4 * n = 64 then q else q * 2 ^ (64 - 4 * n) % 2 ^ 64) = v := by
    split
    · next h64 => rw [hval, h64, Nat.sub_self, Nat.pow_zero, Nat.mul_one]
    · rw [← hval, mod_eq_of_lt hv]
  rw [← hback]
  exact (inverts_rdBits x hqlt).map

/-! ## Implicit positions -/

theorem getElem?_ratTail {step left p i : Nat} (hi : i < left) :
    (ratTail step left p)[i]? = some ((p + 2 * step * (i + 1)) % 2 ^ 64) := by
  induction left generalizing p i with
  | zero => omega
  | succ left ih =>
    rw [ratTail]
    cases i with
    | zero => rw [getElem?_cons_zero, zero_add, mul_one]
    | succ i => rw [getElem?_cons_succ, ih (by omega), mod_add_mod, mul_succ _ (i + 1), add_assoc, add_comm (2 * step)]

/-- The first loop stops after one position for the largest number of nodes that 63 bits hold; the others come back to it. -/
theorem ratImplicit_wraps : ¬ ((ratImplicit (2 ^ 63 - 1)).length = 2 ^ 63 - 1 ∧ (ratImplicit (2 ^ 63 - 1)).Pairwise (· < ·) ∧
    ∀ p ∈ ratImplicit (2 ^ 63 - 1), 0 < p) := by
  rintro ⟨-, hpair, -⟩
  have hwidth : bimWidth (2 ^ 63 - 1 + 1) = 63 := by
    have hlo := @lt_two_pow_bimWidth (2 ^ 63 - 1 + 1) (2 ^ 63 - 1) (by decide) (by decide)
    have hhi := @bimWidthFrom_lt (2 ^ 63 - 1 + 1) 0 (.inl rfl)
    change bimWidth (2 ^ 63 - 1 + 1) = 0 ∨ 2 ^ (bimWidth (2 ^ 63 - 1 + 1) - 1) < 2 ^ 63 at hhi
    generalize bimWidth (2 ^ 63 - 1 + 1) = b at hlo hhi ⊢
    have hge : 63 ≤ b := (Nat.pow_le_pow_iff_right (by decide)).1 (show 2 ^ 63 ≤ 2 ^ b by omega)
    have hlt : b - 1 < 63 := (Nat.pow_lt_pow_iff_right (by decide)).1 (hhi.resolve_left (by omega))
    omega
  obtain ⟨m, hm⟩ : ∃ m, 2 ^ 63 - 1 = m + 2 := ⟨2 ^ 63 - 3, by decide⟩
  have hhead (z n step : Nat) (hT : (3 * z + 2 ^ 64 - n + 3) % 2 ^ 64 / 2 = 0) :
      ratHead z n step (m + 2) 0 0 = (0 + step) % 2 ^ 64 :: ratTail step (m + 1) ((0 + step) % 2 ^ 64) := by
    rw [ratHead, hT, if_pos (by decide), ratHead, hT, if_neg (by decide)]
  have hrun : ratImplicit (2 ^ 63 - 1) = 2 :: ratTail 2 (m + 1) 2 := by
    unfold ratImplicit
    rw [hwidth]
    exact (congrArg (ratHead _ _ _ · 0 0) hm).trans (hhead (2 ^ 63 - 1) (2 ^ 63) 2 (by decide))
  have hback : 2 ∈ ratTail 2 (m + 1) 2 := by
    refine mem_of_getElem? (i := 2 ^ 62 - 1) ?_
    rw [getElem?_ratTail (by omega)]
    decide
  rw [hrun] at hpair
  exact absurd ((pairwise_cons.1 hpair).1 2 hback) (lt_irrefl 2)

/-- The order and the index of an increment belong to each other, implicit positions increase from above 0 on without leaving 64 bits,
and every position comes back from its code. -/
theorem rational_positions (x : RdCtx) (range : String) :
    (∀ i k, i < 2 ^ 62 → k < 2 ^ 62 → fuuRatOrder i = fuuRatOrder k → i = k) ∧ (∀ i < 2 ^ 62, fuuRatOrder i ≠ 0) ∧
    (∀ i < 2 ^ 20, fuuRatIndex (fuuRatOrder i) = some i) ∧ (∀ v i, fuuRatIndex v = some i → fuuRatOrder i = v) ∧
    (∀ z, z < 2 ^ 63 - 1 → (ratImplicit z).length = z ∧ (ratImplicit z).Pairwise (· < ·) ∧ ∀ p ∈ ratImplicit z, 0 < p) ∧
    ∀ v < 2 ^ 64, Inverts (rdRational x range) (rationalBits v) v :=
  ⟨fun _ _ hi hk => fuuRatOrder_inj (by omega) (by omega), fun _ hi => fuuRatOrder_pos (by omega),
    fun _ => fuuRatIndex_fuuRatOrder, fun _ _ => fuuRatOrder_of_index, fun _ => ratImplicit_spec, fun _ => inverts_rdRational x range⟩

end DvbIpiTools.Bim.Fuu
