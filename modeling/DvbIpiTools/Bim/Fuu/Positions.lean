import DvbIpiTools.Bim.Fuu.Runs

set_option autoImplicit false

/-! # Positions of siblings

The list side of the position rules: implicit positions, integer or rational, increase along each
position space; the ordered insert keeps them increasing when no child that sorts after the new one
stands before a sibling it has to follow; a removal keeps them. -/

namespace DvbIpiTools.Bim.Fuu

open List Nat

/-! ## Position spaces -/

/-- The expanded name of a node; text nodes share one space. -/
def nameKey (name ns : Option CStr) : Option (CStr × Option CStr) := name.map (·, ns)

variable {k : NodeData}

theorem sameName_iff {name ns : Option CStr} : sameName k name ns = true ↔ nameKey k.name k.ns = nameKey name ns := by
  unfold sameName nameKey
  cases k.name with
  | none => cases name <;> simp
  | some kn =>
    cases name with
    | none => simp
    | some n =>
      rw [Bool.and_eq_true, decide_eq_true_eq, decide_eq_true_eq, Option.map_some, Option.map_some,
        Option.some.injEq, Prod.mk.injEq, eq_comm (a := ns)]

variable {mpc : Bool} {o : NodeData}

theorem sameSpace_iff : sameSpace mpc o k = true ↔ mpc = true ∨ nameKey o.name o.ns = nameKey k.name k.ns := by
  rw [sameSpace, Bool.or_eq_true, sameName_iff]

theorem sameSpace_congr {k' : NodeData} (h : sameSpace mpc k k' = true) : sameSpace mpc o k = sameSpace mpc o k' := by
  rw [Bool.eq_iff_iff, sameSpace_iff, sameSpace_iff]
  rcases sameSpace_iff.1 h with hm | hk
  · simp [hm]
  · rw [hk]

theorem sameSpace_comm (mpc : Bool) (o k : NodeData) : sameSpace mpc o k = sameSpace mpc k o := by
  rw [Bool.eq_iff_iff, sameSpace_iff, sameSpace_iff, eq_comm (a := nameKey o.name o.ns)]

/-- Positions increase along each position space; so they are distinct in it. -/
def Ordered (mpc : Bool) (kids : List Node) : Prop :=
  kids.Pairwise fun a b => sameSpace mpc a.val b.val = true → a.val.pos < b.val.pos

/-- All children have a position or none has, and positions that are set are in order. -/
structure Placed (mpc : Bool) (kids : List Node) : Prop where
  uniform : (∀ k ∈ kids, k.val.posSet = true) ∨ ∀ k ∈ kids, k.val.posSet = false
  ordered : (∀ k ∈ kids, k.val.posSet = true) → Ordered mpc kids

variable {kids : List Node}

theorem placed_of_unset (h : ∀ k ∈ kids, k.val.posSet = false) : Placed mpc kids where
  uniform := .inr h
  ordered := by
    intro hset
    cases kids with
    | nil => exact Pairwise.nil
    | cons k ks =>
      have hk := h k mem_cons_self
      rw [hset k mem_cons_self] at hk
      cases hk

/-- The fields that positions depend on. -/
def posKey (d : NodeData) : Option CStr × Option CStr × Nat × Bool := (d.name, d.ns, d.pos, d.posSet)

theorem ordered_iff_keys : Ordered mpc kids ↔ (kids.map fun k => posKey k.val).Pairwise fun a b =>
      (mpc = true ∨ nameKey a.1 a.2.1 = nameKey b.1 b.2.1) → a.2.2.1 < b.2.2.1 := by
  rw [pairwise_map, Ordered]
  simp only [sameSpace_iff]
  exact Iff.rfl

theorem Placed.congr {mpc : Bool} {kids kids' : List Node}
    (h : kids.map (fun k => posKey k.val) = kids'.map fun k => posKey k.val) (hp : Placed mpc kids) :
    Placed mpc kids' := by
  have hset : ∀ b, (∀ k ∈ kids, k.val.posSet = b) ↔ ∀ k ∈ kids', k.val.posSet = b := by
    intro b
    have hmap : ∀ l : List Node, (∀ k ∈ l, k.val.posSet = b) ↔ ∀ x ∈ l.map (fun k => posKey k.val), x.2.2.2 = b := by
      intro l
      rw [forall_mem_map]
      exact Iff.rfl
    rw [hmap, hmap, h]
  refine ⟨?_, fun hall => ?_⟩
  · rw [← hset, ← hset]
    exact hp.uniform
  · rw [ordered_iff_keys, ← h, ← ordered_iff_keys]
    exact hp.ordered ((hset true).mpr hall)

/-! ## Rational positions -/

theorem ratTail_spec {step : Nat} (hstep : 0 < step) (left p : Nat) (hfit : p + 2 * step * left < 2 ^ 64) :
    (ratTail step left p).length = left ∧ (ratTail step left p).Pairwise (· < ·) ∧
      ∀ x ∈ ratTail step left p, p < x := by
  induction left generalizing p with
  | zero => exact ⟨rfl, Pairwise.nil, nofun⟩
  | succ left ih =>
    have hexp : 2 * step * (left + 1) = 2 * step * left + 2 * step := mul_succ _ _
    have hmod : (p + 2 * step) % 2 ^ 64 = p + 2 * step := mod_eq_of_lt (by omega)
    obtain ⟨hlen, hpw, hgt⟩ := ih (p + 2 * step) (by omega)
    rw [ratTail, hmod]
    refine ⟨by rw [length_cons, hlen], pairwise_cons.2 ⟨hgt, hpw⟩, ?_⟩
    intro x hx
    rcases mem_cons.1 hx with rfl | hx
    · omega
    · have := hgt x hx
      omega

/-- The first loop from `i` on, when what both loops add stays below the 64 bit range. -/
theorem ratHead_spec {z n step : Nat} (hstep : 0 < step) (hz : z * step < 2 ^ 64)
    (htail : ∀ i, (3 * z + 2 ^ 64 - n + 3) % 2 ^ 64 / 2 < i → i ≤ z → (2 * z - i) * step < 2 ^ 64)
    (left i p : Nat) (hi : i + left = z) (hp : p = i * step) :
    (ratHead z n step left i p).length = left ∧ (ratHead z n step left i p).Pairwise (· < ·) ∧
      ∀ x ∈ ratHead z n step left i p, p < x := by
  induction left generalizing i p with
  | zero => exact ⟨rfl, Pairwise.nil, nofun⟩
  | succ left ih =>
    rw [ratHead]
    split
    · have hle : (i + 1) * step ≤ z * step := mul_le_mul_right _ (by omega)
      have hnext : p + step = (i + 1) * step := by rw [hp, succ_mul]
      have hmod : (p + step) % 2 ^ 64 = p + step := mod_eq_of_lt (by omega)
      obtain ⟨hlen, hpw, hgt⟩ := ih (i + 1) (p + step) (by omega) hnext
      rw [hmod]
      refine ⟨by rw [length_cons, hlen], pairwise_cons.2 ⟨hgt, hpw⟩, ?_⟩
      intro x hx
      rcases mem_cons.1 hx with rfl | hx
      · omega
      · have := hgt x hx
        omega
    · next hcond =>
      have hgt : (3 * z + 2 ^ 64 - n + 3) % 2 ^ 64 / 2 < i := by
        simp only [Bool.or_eq_true, decide_eq_true_eq, not_or, not_le] at hcond
        exact hcond.1
      apply ratTail_spec hstep
      have := htail i hgt (by omega)
      have hsum : p + 2 * step * (left + 1) = (2 * z - i) * step := by
        rw [hp, show 2 * z - i = i + 2 * (left + 1) by omega, add_mul, mul_right_comm]
      omega

theorem bimWidthFrom_lt {n b : Nat} (hb : b = 0 ∨ 2 ^ (b - 1) < n) :
    bimWidthFrom n b = 0 ∨ 2 ^ (bimWidthFrom n b - 1) < n := by
  induction hk : 64 - b generalizing b with
  | zero =>
    rw [bimWidthFrom, if_neg (by omega)]
    exact hb
  | succ k ih =>
    rw [bimWidthFrom]
    split
    · next h =>
      refine ih (.inr ?_) (by omega)
      rw [one_shiftLeft] at h
      exact h.2
    · exact hb

theorem ratImplicit_spec {z : Nat} (hz : z < 2 ^ 63 - 1) :
    (ratImplicit z).length = z ∧ (ratImplicit z).Pairwise (· < ·) ∧ ∀ x ∈ ratImplicit z, 0 < x := by
  obtain ⟨b, hb⟩ : ∃ b, b = bimWidth (z + 1) := ⟨_, rfl⟩
  have hup : z + 1 ≤ 2 ^ b := by
    have := lt_two_pow_bimWidth (n := z + 1) (v := z) (by omega) (by omega)
    rw [← hb] at this
    omega
  have hlow : b = 0 ∨ 2 ^ (b - 1) < z + 1 := by
    rw [hb]
    exact bimWidthFrom_lt (.inl rfl)
  have hble : b ≤ 63 := by
    rcases hlow with h0 | hlow
    · omega
    · by_contra hgt
      have : 2 ^ 63 ≤ 2 ^ (b - 1) := Nat.pow_le_pow_right (by decide) (by omega)
      omega
  -- the power of two is less than twice the number of nodes plus two
  have hn : 2 ^ b ≤ 2 * z + 1 := by
    rcases hlow with h0 | hlow
    · rw [h0]
      omega
    cases hbz : b with
    | zero => omega
    | succ c =>
      rw [hbz, succ_sub_one] at hlow
      omega
  have hstep : 2 ^ b * 2 ^ (64 - b) = 2 ^ 64 := by
    rw [← pow_add]
    congr 1
    omega
  have hpos : 0 < 2 ^ (64 - b) := Nat.pow_pos (by decide)
  have hbound : ∀ x, x < 2 ^ b → x * 2 ^ (64 - b) < 2 ^ 64 := by
    intro x hx
    rw [← hstep]
    exact mul_lt_mul_of_pos_right hx hpos
  have hrun := ratHead_spec (n := 2 ^ b) hpos (hbound z (by omega)) ?_ z 0 0 (by omega) (by omega)
  · have heq : ratImplicit z = ratHead z (2 ^ b) (2 ^ (64 - b)) z 0 0 := by
      have h63 : (if b < 63 then b else 63) = b := by split <;> omega
      simp only [ratImplicit, ← hb]
      rw [if_neg (show ¬ b ≥ 64 by omega), h63]
    rw [heq]
    exact hrun
  · intro i hi hle
    exact hbound _ (by omega)

/-! ## Implicit positions -/

variable {insert : Bool} {i : Nat}

theorem val_withPos {k : Node} (h : k.val.posSet = false) : (withPos insert mpc kids i k).val = { k.val with
        pos := posOf insert mpc kids i k.val
        posSet := true } := by
  cases k with
  | node id d below =>
    have h : d.posSet = false := h
    simp [withPos, h]

variable {j : Nat}

theorem sameSpace_withPos {k o : Node} :
    sameSpace mpc (withPos insert mpc kids i k).val (withPos insert mpc kids j o).val = sameSpace mpc k.val o.val := by
  have hname : ∀ i (k : Node), (withPos insert mpc kids i k).val.name = k.val.name ∧
      (withPos insert mpc kids i k).val.ns = k.val.ns := by
    intro i k
    cases hset : k.val.posSet with
    | false =>
      rw [val_withPos hset]
      exact ⟨rfl, rfl⟩
    | true =>
      cases k with
      | node id d below =>
        have hset : d.posSet = true := hset
        simp [withPos, hset]
  rw [Bool.eq_iff_iff, sameSpace_iff, sameSpace_iff, (hname i k).1, (hname i k).2, (hname j o).1, (hname j o).2]

theorem posOf_lt {a b : Node} (hsmall : insert = true → kids.length < 2 ^ 31) (hi : kids[i]? = some a)
    (hj : kids[j]? = some b) (hij : i < j) (hspace : sameSpace mpc a.val b.val = true) :
    posOf insert mpc kids i a.val < posOf insert mpc kids j b.val := by
  have hsame : (fun o : Node => sameSpace mpc o.val a.val) = fun o => sameSpace mpc o.val b.val := by
    funext o
    exact sameSpace_congr hspace
  have hlt : (kids.take i).countP (fun o => sameSpace mpc o.val b.val) <
      (kids.take j).countP fun o => sameSpace mpc o.val b.val := by
    have hi' : (kids.take j)[i]? = some a := by rw [getElem?_take_of_lt hij, hi]
    have := countP_take_lt (P := fun o => sameSpace mpc o.val b.val) hi' hspace
    rwa [take_take, min_eq_left hij.le] at this
  have hz := countP_take_lt (P := fun o => sameSpace mpc o.val b.val) hj (sameSpace_self mpc b.val)
  unfold posOf
  rw [hsame]
  cases insert with
  | false => exact hlt
  | true =>
    have hle : kids.countP (fun o => sameSpace mpc o.val b.val) ≤ kids.length := countP_le_length
    obtain ⟨hlen, hpw, -⟩ := ratImplicit_spec (lt_of_le_of_lt hle (lt_trans (hsmall rfl) (by decide)))
    have hget := pairwise_iff_getElem.1 hpw _ _ (by rw [hlen]; omega) (by rw [hlen]; exact hz) hlt
    rw [if_pos rfl, if_pos rfl, getD_eq_getElem?_getD, getD_eq_getElem?_getD,
      getElem?_eq_getElem (by rw [hlen]; omega), getElem?_eq_getElem (by rw [hlen]; exact hz)]
    exact hget

theorem ordered_withPositions (hsmall : insert = true → kids.length < 2 ^ 31) (h : Placed mpc kids) :
    Ordered mpc (withPositions insert mpc kids) := by
  rcases h.uniform with hset | hunset
  · rw [withPositions_of_posSet hset]
    exact h.ordered hset
  rw [Ordered, pairwise_iff_getElem]
  intro i j hi hj hij hspace
  simp only [withPositions, length_mapIdx] at hi hj
  simp only [withPositions, getElem_mapIdx] at hspace ⊢
  rw [sameSpace_withPos] at hspace
  rw [val_withPos (hunset _ (getElem_mem hi)), val_withPos (hunset _ (getElem_mem hj))]
  exact posOf_lt hsmall (getElem?_eq_getElem hi) (getElem?_eq_getElem hj) hij hspace

/-! ## Lookup -/

/-- Whether `find_child` stops at `k`. -/
def matchesAt (mpc : Bool) (t : Tbc) (pos : Nat) (k : NodeData) : Prop :=
  if t.hasPos then k.pos = pos ∧ (mpc = true ∨ sameName k t.name t.ns = true)
  else sameName k t.name t.ns = true

variable {t : Tbc} {pos : Nat}

theorem lookup_cons {k : Node} {ks : List Node} :
    (¬ matchesAt mpc t pos k.val → lookup mpc t pos i (k :: ks) = lookup mpc t pos (i + 1) ks) ∧
      (matchesAt mpc t pos k.val → lookup mpc t pos i (k :: ks) =
        if sameName k.val t.name t.ns then .found i else .taken) := by
  rw [lookup, matchesAt]
  cases t.hasPos with
  | false => cases sameName k.val t.name t.ns <;> simp
  | true => cases sameName k.val t.name t.ns <;> cases mpc <;> by_cases hp : k.val.pos = pos <;> simp [hp]

theorem lookup_absent : lookup mpc t pos i kids = .absent ↔ ∀ k ∈ kids, ¬ matchesAt mpc t pos k.val := by
  induction kids generalizing i with
  | nil => simp [lookup]
  | cons k ks ih =>
    rw [forall_mem_cons, ← ih (i := i + 1)]
    by_cases hk : matchesAt mpc t pos k.val
    · rw [lookup_cons.2 hk]
      split <;> simp [hk]
    · rw [lookup_cons.1 hk]
      simp [hk]

theorem lookup_found_split (h : lookup mpc t pos i kids = .found (i + j)) :
    ∃ l k r, kids = l ++ k :: r ∧ l.length = j ∧ sameName k.val t.name t.ns = true ∧
      matchesAt mpc t pos k.val ∧ ∀ o ∈ l, ¬ matchesAt mpc t pos o.val := by
  induction kids generalizing i j with
  | nil => cases h
  | cons k ks ih =>
    by_cases hk : matchesAt mpc t pos k.val
    · rw [lookup_cons.2 hk] at h
      split at h
      · next hs =>
        have hj : j = 0 := by
          have := Lookup.found.inj h
          omega
        exact ⟨[], k, ks, rfl, by rw [hj]; rfl, hs, hk, nofun⟩
      · cases h
    rw [lookup_cons.1 hk] at h
    obtain ⟨x, -, hle, -⟩ := lookup_found h
    have hshift : i + j = i + 1 + (j - 1) := by omega
    rw [hshift] at h
    obtain ⟨l, x, r, rfl, hlen, hs, hx, hl⟩ := ih h
    refine ⟨k :: l, x, r, rfl, by rw [length_cons, hlen]; omega, hs, hx, ?_⟩
    rw [forall_mem_cons]
    exact ⟨hk, hl⟩

/-! ## The ordered insert -/

/-- No child that sorts after `k` stands before one of `k`'s space with a smaller position. -/
def InsertFits (pt : BimType) (mpc : Bool) (k : NodeData) (kids : List Node) : Prop :=
  kids.Pairwise fun x o => sameSpace mpc o.val k = true → o.val.pos < k.pos → sortsAfter pt mpc x.val k = false

theorem sbcIndex_congr (pt : BimType) {a b c d : Option CStr} (h : nameKey a b = nameKey c d) :
    sbcIndex pt a b = sbcIndex pt c d := by
  unfold nameKey at h
  cases a with
  | none =>
    cases c with
    | none => rfl
    | some n => cases h
  | some n =>
    cases c with
    | none => cases h
    | some n' =>
      simp only [Option.map_some, Option.some.injEq, Prod.mk.injEq] at h
      rw [h.1, h.2]

theorem sortsAfter_space {pt : BimType} (h : sameSpace mpc o k = true) :
    sortsAfter pt mpc o k = decide (k.pos < o.pos) := by
  unfold sortsAfter
  rcases sameSpace_iff.1 h with rfl | hkey
  · rfl
  · cases mpc <;> simp [sbcIndex_congr pt hkey]

theorem InsertFits.congr {pt : BimType} {mpc : Bool} {a b : NodeData} {kids : List Node}
    (hkey : nameKey a.name a.ns = nameKey b.name b.ns) (hpos : a.pos = b.pos)
    (h : InsertFits pt mpc a kids) : InsertFits pt mpc b kids := by
  refine h.imp ?_
  intro x o hxo hspace ho
  have := hxo (by rw [sameSpace_iff, hkey, ← sameSpace_iff]; exact hspace) (by omega)
  rwa [sortsAfter, hpos, sbcIndex_congr pt hkey] at this

theorem ordered_insertKid {pt : BimType} {k : Node}
    (h : Ordered mpc kids) (hnew : ∀ o ∈ kids, sameSpace mpc o.val k.val = true → o.val.pos ≠ k.val.pos)
    (hfits : InsertFits pt mpc k.val kids) : Ordered mpc (insertKid pt mpc k kids) := by
  induction kids with
  | nil => exact pairwise_singleton _ _
  | cons o os ih =>
    rw [Ordered, pairwise_cons] at h
    rw [InsertFits, pairwise_cons] at hfits
    rw [forall_mem_cons] at hnew
    rw [insertKid]
    split
    · next hafter =>
      -- everything of the space that is left comes after `k`
      rw [Ordered, pairwise_cons]
      refine ⟨?_, pairwise_cons.2 h⟩
      intro x hx hspace
      rw [sameSpace_comm] at hspace
      rcases mem_cons.1 hx with rfl | hx
      · rw [sortsAfter_space hspace, decide_eq_true_eq] at hafter
        exact hafter
      · by_contra hle
        have hne := hnew.2 x hx hspace
        have := hfits.1 x hx hspace (by omega)
        rw [hafter] at this
        cases this
    · next hafter =>
      rw [Ordered, pairwise_cons]
      refine ⟨?_, ih h.2 hnew.2 hfits.2⟩
      intro x hx hspace
      rcases mem_cons.1 ((insertKid_perm pt mpc k os).mem_iff.1 hx) with rfl | hx
      · rw [sortsAfter_space hspace, decide_eq_true_eq] at hafter
        have := hnew.1 hspace
        omega
      · exact h.1 x hx hspace

/-! ## Free positions -/

theorem absent_free (hpos : mpc = true → t.hasPos = true) (h : lookup mpc t pos 0 kids = .absent) :
    ∀ o ∈ kids, sameSpace mpc o.val (added t pos) = true → o.val.pos ≠ (added t pos).pos := by
  intro o ho hspace
  have hno := lookup_absent.1 h o ho
  have hname : mpc = true ∨ sameName o.val t.name t.ns = true := by
    rw [sameName_iff]
    exact sameSpace_iff.1 hspace
  unfold matchesAt at hno
  by_cases hp : t.hasPos = true
  · rw [if_pos hp] at hno
    rw [show (added t pos).pos = pos from if_pos hp]
    exact fun he => hno ⟨he, hname⟩
  · rw [if_neg hp] at hno
    exact absurd (hname.resolve_left fun hm => hp (hpos hm)) hno

theorem found_free (hord : Ordered mpc kids)
    (hpos : mpc = true → t.hasPos = true) (h : lookup mpc t pos 0 kids = .found i) :
    ∀ o ∈ kids.eraseIdx i, sameSpace mpc o.val (added t pos) = true → o.val.pos ≠ (added t pos).pos := by
  rw [← zero_add i] at h
  obtain ⟨l, k, r, rfl, rfl, hname, hmatch, hl⟩ := lookup_found_split h
  rw [Ordered, pairwise_append, pairwise_cons] at hord
  obtain ⟨-, ⟨hr, -⟩, hlr⟩ := hord
  have hspace : ∀ o, sameSpace mpc o (added t pos) = sameSpace mpc o k.val := by
    intro o
    refine (sameSpace_congr ?_).symm
    rw [sameSpace_iff]
    exact .inr (sameName_iff.1 hname)
  intro o ho hsame
  rw [hspace] at hsame
  have hside : o ∈ l ∨ o ∈ r := by
    rwa [eraseIdx_append_of_length_le (Nat.le_refl _), Nat.sub_self, eraseIdx_cons_zero, mem_append] at ho
  unfold matchesAt at hmatch hl
  by_cases hp : t.hasPos = true
  · rw [if_pos hp] at hmatch
    rw [show (added t pos).pos = pos from if_pos hp, ← hmatch.1]
    rcases hside with hol | hor
    · have := hlr o hol k mem_cons_self hsame
      omega
    · have := hr o hor (by rw [sameSpace_comm]; exact hsame)
      omega
  -- without a position: the first of the name went, those behind it have positions above zero
  rw [show (added t pos).pos = 0 from if_neg hp]
  rcases hside with hol | hor
  · have hno := hl o hol
    rw [if_neg hp, sameName_iff] at hno
    rcases sameSpace_iff.1 hsame with hm | hkey
    · exact absurd (hpos hm) hp
    · exact absurd (hkey.trans (sameName_iff.1 hname)) hno
  · have := hr o hor (by rw [sameSpace_comm]; exact hsame)
    omega

theorem place_free {cmd : Command} {left : List Node} (hord : Ordered mpc kids) (hpos : mpc = true → t.hasPos = true)
    (h : operandPlace cmd (lookup mpc t pos 0 kids) kids = some left) :
    ∀ o ∈ left, sameSpace mpc o.val (added t pos) = true → o.val.pos ≠ (added t pos).pos := by
  unfold operandPlace at h
  split at h
  · next hr =>
    cases h
    exact absent_free hpos hr
  · next hr =>
    cases h
    exact found_free hord hpos hr
  · next hr =>
    cases h
    exact found_free hord hpos hr
  · cases h

end DvbIpiTools.Bim.Fuu
