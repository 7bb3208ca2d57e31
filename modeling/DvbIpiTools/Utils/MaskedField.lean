import Mathlib.Data.Nat.ModEq

set_option autoImplicit false

/-! # Numbers kept in some bits of a record

A record of bytes keeps a number modulo `M` in the bits a mask selects. Writing it leaves the bits outside the mask, and
two fields whose masks have no bit in common are written independently. Adding to the number is then an action of the
numbers modulo `M`. -/

namespace DvbIpiTools.MaskedField

open BitVec

variable {n : Nat}

/-! ## Writing through a mask -/

/-- The record `p` with the bits of `m` from `x`. -/
def blend (m x : Nat → UInt8) (p : Vector UInt8 n) : Vector UInt8 n :=
  Vector.ofFn fun i => (p[i] &&& ~~~ m i) ||| (x i &&& m i)

variable {i : Nat}

theorem getElem_blend (m x : Nat → UInt8) (p : Vector UInt8 n) (hi : i < n) :
    (blend m x p)[i] = (p[i] &&& ~~~ m i) ||| (x i &&& m i) := by
  simp [blend]

theorem blend_bit (b m x : UInt8) (k : Nat) : ((b &&& ~~~ m) ||| (x &&& m)).toBitVec.getLsbD k =
      if m.toBitVec.getLsbD k then x.toBitVec.getLsbD k else b.toBitVec.getLsbD k := by
  by_cases hk : k < 8
  · simp only [UInt8.toBitVec_or, UInt8.toBitVec_and, UInt8.toBitVec_not, getLsbD_or, getLsbD_and,
      getLsbD_not, hk, decide_true, Bool.true_and]
    cases m.toBitVec.getLsbD k <;> simp
  · have hb : b.toBitVec.getLsbD k = false := getLsbD_of_ge _ _ (by omega)
    have hx : x.toBitVec.getLsbD k = false := getLsbD_of_ge _ _ (by omega)
    simp [hb, hx]

theorem byte_ext {a b : UInt8} (h : ∀ k, a.toBitVec.getLsbD k = b.toBitVec.getLsbD k) : a = b :=
  UInt8.toBitVec_inj.1 (eq_of_getLsbD_eq fun k _ => h k)

theorem blend_blend (m x y : Nat → UInt8) (p : Vector UInt8 n) : blend m x (blend m y p) = blend m x p := by
  refine Vector.ext fun i hi => byte_ext fun k => ?_
  simp only [getElem_blend, blend_bit]
  split <;> rfl

variable {m : Nat → UInt8}

theorem getElem_blend_of_eq_zero {x : Nat → UInt8} (p : Vector UInt8 n) (hi : i < n) (hm : m i = 0) :
    (blend m x p)[i] = p[i] := by
  rw [getElem_blend, hm]
  simp

/-- Masks without a common bit. -/
def Apart (m m' : Nat → UInt8) : Prop := ∀ i, m i &&& m' i = 0

variable {m' : Nat → UInt8}

theorem Apart.symm (h : Apart m m') : Apart m' m := fun i => by
  rw [UInt8.and_comm]
  exact h i

theorem Apart.bit (h : Apart m m') (i k : Nat) : ((m i).toBitVec.getLsbD k && (m' i).toBitVec.getLsbD k) = false := by
  have hzero := congrArg (fun b : UInt8 => b.toBitVec.getLsbD k) (h i)
  simpa using hzero

theorem apart_not {u : Nat → UInt8}
    (h : ∀ i k, (m i).toBitVec.getLsbD k = true → (u i).toBitVec.getLsbD k = true) : Apart m fun i => ~~~ u i := by
  intro i
  refine byte_ext fun k => ?_
  rw [UInt8.toBitVec_and, UInt8.toBitVec_not, getLsbD_and, getLsbD_not]
  cases hm : (m i).toBitVec.getLsbD k
  · simp
  · simp [h i k hm]

theorem blend_comm (h : Apart m m') (x y : Nat → UInt8) (p : Vector UInt8 n) :
    blend m x (blend m' y p) = blend m' y (blend m x p) := by
  refine Vector.ext fun i hi => byte_ext fun k => ?_
  have hbit := h.bit i k
  simp only [getElem_blend, blend_bit]
  cases hm : (m i).toBitVec.getLsbD k
  · rfl
  · -- a bit of the one mask is none of the other
    have hm' : (m' i).toBitVec.getLsbD k = false := by simpa [hm] using hbit
    simp [hm']

theorem blend_under (m x : Nat → UInt8) (p : Vector UInt8 n) (hi : i < n) : (blend m x p)[i] &&& m i = x i &&& m i := by
  refine byte_ext fun k => ?_
  rw [getElem_blend, UInt8.toBitVec_and, UInt8.toBitVec_and, getLsbD_and, getLsbD_and, blend_bit]
  cases (m i).toBitVec.getLsbD k <;> simp

theorem blend_apart (h : Apart m m') (x : Nat → UInt8) (p : Vector UInt8 n)
    (hi : i < n) : (blend m x p)[i] &&& m' i = p[i] &&& m' i := by
  refine byte_ext fun k => ?_
  have hbit := h.bit i k
  rw [getElem_blend, UInt8.toBitVec_and, UInt8.toBitVec_and, getLsbD_and, getLsbD_and, blend_bit]
  cases hm' : (m' i).toBitVec.getLsbD k
  · simp
  · have hm : (m i).toBitVec.getLsbD k = false := by simpa [hm'] using hbit
    simp [hm]

/-! ## Fields -/

/-- A number modulo `M` in the bits of a mask: how it is read from the bits, and the bytes it is written as. -/
structure Field (M : Nat) where
  mask : Nat → UInt8
  value : (Nat → UInt8) → Nat
  enc : Nat → Nat → UInt8
  value_enc : ∀ v, v < M → value (fun i => enc v i &&& mask i) = v

namespace Field

variable {M : Nat} (f : Field M)

/-- The bytes of a record under the mask, 0 behind its end. -/
def under (p : Vector UInt8 n) (i : Nat) : UInt8 := p[i]?.getD 0 &&& f.mask i

def read (p : Vector UInt8 n) : Nat := f.value (f.under p)

def write (v : Nat) (p : Vector UInt8 n) : Vector UInt8 n := blend f.mask (f.enc v) p

/-- The field lies inside a record of `n` bytes. -/
def Inside (n : Nat) : Prop := ∀ i, n ≤ i → f.mask i = 0

/-- `d` more, modulo `M`. -/
def bump (d : Nat) (p : Vector UInt8 n) : Vector UInt8 n := f.write ((f.read p + d) % M) p

variable {f} {i : Nat}

theorem under_of_lt (p : Vector UInt8 n) (hi : i < n) : f.under p i = p[i] &&& f.mask i := by
  rw [under, Vector.getElem?_eq_getElem hi, Option.getD_some]

theorem under_of_le (p : Vector UInt8 n) (hi : n ≤ i) : f.under p i = 0 := by
  rw [under, Vector.getElem?_eq_none hi, Option.getD_none, UInt8.zero_and]

theorem read_write (hin : f.Inside n) {v : Nat} (hv : v < M) (p : Vector UInt8 n) : f.read (f.write v p) = v := by
  have hunder : f.under (f.write v p) = fun i => f.enc v i &&& f.mask i := by
    funext i
    by_cases hi : i < n
    · rw [under_of_lt _ hi, write, blend_under]
    · rw [under_of_le _ (by omega), hin i (by omega), UInt8.and_zero]
  rw [read, hunder, f.value_enc v hv]

theorem write_write (v w : Nat) (p : Vector UInt8 n) : f.write v (f.write w p) = f.write v p :=
  blend_blend _ _ _ p

theorem read_write_apart {M' : Nat} {g : Field M'} (h : Apart g.mask f.mask) (v : Nat) (p : Vector UInt8 n) :
    f.read (g.write v p) = f.read p := by
  have hunder : f.under (g.write v p) = f.under p := by
    funext i
    by_cases hi : i < n
    · rw [under_of_lt _ hi, under_of_lt _ hi, write, blend_apart h]
    · rw [under_of_le _ (by omega), under_of_le _ (by omega)]
  rw [read, hunder, read]

theorem write_comm {M' : Nat} {g : Field M'} (h : Apart f.mask g.mask) (v w : Nat) (p : Vector UInt8 n) :
    f.write v (g.write w p) = g.write w (f.write v p) := blend_comm h _ _ p

/-! ## Adding to a field -/

theorem read_bump (hM : 0 < M) (hin : f.Inside n) (d : Nat) (p : Vector UInt8 n) :
    f.read (f.bump d p) = (f.read p + d) % M := read_write hin (Nat.mod_lt _ hM) p

theorem bump_bump (hM : 0 < M) (hin : f.Inside n) {c d e : Nat} (he : e ≡ c + d [MOD M]) (p : Vector UInt8 n) :
    f.bump d (f.bump c p) = f.bump e p := by
  have hread : (f.read (f.bump c p) + d) % M = (f.read p + e) % M := by
    rw [read_bump hM hin]
    calc ((f.read p + c) % M + d) % M = (f.read p + c + d) % M := Nat.mod_add_mod _ _ _
      _ = (f.read p + (c + d)) % M := by rw [add_assoc]
      _ = (f.read p + e) % M := (he.symm.add_left (f.read p))
  unfold bump at hread ⊢
  rw [hread, write_write]

theorem bump_comm {M' : Nat} {g : Field M'} (h : Apart f.mask g.mask) (c d : Nat) (p : Vector UInt8 n) :
    f.bump c (g.bump d p) = g.bump d (f.bump c p) := by
  unfold bump
  rw [read_write_apart h.symm, read_write_apart h, write_comm h]

theorem bump_zero {p : Vector UInt8 n} (hlt : f.read p < M) (henc : ∀ i, f.enc (f.read p) i &&& f.mask i = f.under p i) :
    f.bump 0 p = p := by
  rw [bump, add_zero, Nat.mod_eq_of_lt hlt]
  refine Vector.ext fun i hi => byte_ext fun k => ?_
  have hbit := congrArg (fun b : UInt8 => b.toBitVec.getLsbD k) ((henc i).trans (under_of_lt p hi))
  rw [write, getElem_blend, blend_bit]
  split
  · rename_i hm
    simpa [hm] using hbit
  · rfl

theorem bump_apart {m' : Nat → UInt8} (h : Apart f.mask m') (d : Nat) (p : Vector UInt8 n) (hi : i < n) :
    (f.bump d p)[i] &&& m' i = p[i] &&& m' i := blend_apart h _ p hi

/-! ## A field at a place of the record -/

/-- The field from byte `k` of the record on. -/
def at' (f : Field M) (k : Nat) : Field M where
  mask i := if k ≤ i then f.mask (i - k) else 0
  value x := f.value fun i => x (k + i)
  enc v i := f.enc v (i - k)
  value_enc v hv := by
    simp only [Nat.le_add_right, if_true, Nat.add_sub_cancel_left]
    exact f.value_enc v hv

theorem read_at' (k : Nat) (p : Vector UInt8 n) :
    (f.at' k).read p = f.value fun i => p[k + i]?.getD 0 &&& f.mask i := by
  show f.value (fun i => p[k + i]?.getD 0 &&& if k ≤ k + i then f.mask (k + i - k) else 0) = _
  simp only [Nat.le_add_right, if_true, Nat.add_sub_cancel_left]

variable {k : Nat}

theorem at'_bump_zero {p : Vector UInt8 n} (hlt : (f.at' k).read p < M)
    (henc : ∀ i, f.enc (f.value fun i => p[k + i]?.getD 0 &&& f.mask i) i &&& f.mask i = p[k + i]?.getD 0 &&& f.mask i) :
    (f.at' k).bump 0 p = p := by
  refine bump_zero hlt fun i => ?_
  rw [read_at']
  show f.enc _ (i - k) &&& (if k ≤ i then f.mask (i - k) else 0) = p[i]?.getD 0 &&& if k ≤ i then f.mask (i - k) else 0
  by_cases hk : k ≤ i
  · rw [if_pos hk, henc, Nat.add_sub_cancel' hk]
  · rw [if_neg hk, UInt8.and_zero, UInt8.and_zero]

theorem getElem_write_at' (k v : Nat) (p : Vector UInt8 n) (hi : i < n) : ((f.at' k).write v p)[i] =
      if k ≤ i then (p[i] &&& ~~~ f.mask (i - k)) ||| (f.enc v (i - k) &&& f.mask (i - k)) else p[i] := by
  by_cases hk : k ≤ i
  · rw [if_pos hk, write, getElem_blend]
    show (p[i] &&& ~~~ (if k ≤ i then f.mask (i - k) else 0)) ||| (f.enc v (i - k) &&& if k ≤ i then f.mask (i - k) else 0) = _
    rw [if_pos hk]
  · rw [if_neg hk]
    exact getElem_blend_of_eq_zero p hi (if_neg hk)

/-- The mask has no bit from byte `k` on. -/
def Narrow (f : Field M) (k : Nat) : Prop := ∀ i, k ≤ i → f.mask i = 0

theorem Narrow.inside (h : f.Narrow k) {p : Nat} (hp : p + k ≤ n) : (f.at' p).Inside n := by
  intro i hi
  show (if p ≤ i then f.mask (i - p) else 0) = 0
  split
  · exact h _ (by omega)
  · rfl

theorem Narrow.apart (h : f.Narrow k) {M' : Nat} (g : Field M') {p q : Nat} (hpq : p + k ≤ q) :
    Apart (f.at' p).mask (g.at' q).mask := by
  intro i
  show (if p ≤ i then f.mask (i - p) else 0) &&& (if q ≤ i then g.mask (i - q) else 0) = 0
  by_cases hq : q ≤ i
  · rw [if_pos (by omega : p ≤ i), h _ (by omega), UInt8.zero_and]
  · rw [if_neg hq, UInt8.and_zero]

/-! ## A field that may be absent -/

variable (f) in
def maskAt : Option Nat → Nat → UInt8
  | none, _ => 0
  | some k, i => (f.at' k).mask i

variable (f) in
def readAt (o : Option Nat) (p : Vector UInt8 n) : Option Nat := o.map fun k => (f.at' k).read p

variable (f) in
def bumpAt (d : Nat) (o : Option Nat) (p : Vector UInt8 n) : Vector UInt8 n :=
  match o with
  | none => p
  | some k => (f.at' k).bump d p

variable {M' : Nat} {g : Field M'} {o o' : Option Nat}

theorem maskAt_of_lt (h : ∀ k ∈ o, i < k) : f.maskAt o i = 0 := by
  cases o with
  | none => rfl
  | some k => exact if_neg (not_le.2 (h k rfl))

theorem Narrow.apartAt (h : f.Narrow k) (hord : ∀ p ∈ o, ∀ q ∈ o', p + k ≤ q) : Apart (f.maskAt o) (g.maskAt o') := by
  intro i
  cases o with
  | none => exact UInt8.zero_and
  | some p =>
    cases o' with
    | none => exact UInt8.and_zero
    | some q => exact h.apart g (hord p rfl q rfl) i

theorem bumpAt_bumpAt (hM : 0 < M) (ho : ∀ k ∈ o, (f.at' k).Inside n) {c d e : Nat} (he : e ≡ c + d [MOD M])
    (p : Vector UInt8 n) : f.bumpAt d o (f.bumpAt c o p) = f.bumpAt e o p := by
  cases o with
  | none => rfl
  | some k => exact bump_bump hM (ho k rfl) he p

theorem bumpAt_comm (h : Apart (f.maskAt o) (g.maskAt o')) (c d : Nat) (p : Vector UInt8 n) :
    f.bumpAt c o (g.bumpAt d o' p) = g.bumpAt d o' (f.bumpAt c o p) := by
  cases o with
  | none => rfl
  | some k =>
    cases o' with
    | none => rfl
    | some l => exact bump_comm h c d p

theorem bumpAt_apart {m' : Nat → UInt8} (h : Apart (f.maskAt o) m') (d : Nat) (p : Vector UInt8 n)
    (hi : i < n) : (f.bumpAt d o p)[i] &&& m' i = p[i] &&& m' i := by
  cases o with
  | none => rfl
  | some k => exact bump_apart h d p hi

theorem readAt_bumpAt (hM : 0 < M) (ho : ∀ k ∈ o, (f.at' k).Inside n) (d : Nat) (p : Vector UInt8 n) :
    f.readAt o (f.bumpAt d o p) = (f.readAt o p).map fun v => (v + d) % M := by
  cases o with
  | none => rfl
  | some k => exact congrArg some (read_bump hM (ho k rfl) d p)

theorem readAt_bumpAt_apart (h : Apart (g.maskAt o') (f.maskAt o)) (d : Nat) (p : Vector UInt8 n) :
    f.readAt o (g.bumpAt d o' p) = f.readAt o p := by
  cases o' with
  | none => rfl
  | some l =>
    cases o with
    | none => rfl
    | some k => exact congrArg some (read_write_apart h _ p)

end Field

end DvbIpiTools.MaskedField
