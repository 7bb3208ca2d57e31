import DvbIpiTools.Bim.Codec.Integers

set_option autoImplicit false

/-! # Integers come back

What the integer codecs accept, and that the written bits are read back as the canonical text of the same integer; then lists, item by
item. -/

namespace DvbIpiTools.Bim.Codec

open BitList Coder DateUtil List Option

/-! ## Offsets -/

variable {r : Range}

theorem reads_getOffset {off : Nat} (hspan : r.span < 2 ^ 64) (h : off ≤ r.span) :
    Reads (getOffset (rangeBits r)) (offsetBits (rangeBits r) off) off := by
  unfold rangeBits
  split
  · exact reads_getV5 (by omega)
  · exact reads_getBits (lt_two_pow_bimWidth (by omega) (by omega))

/-! ## Bounded integers -/

/-- An `int64_t` minimum and a `uint64_t` span whose maximum fits 64 bits. -/
structure ValidRange (r : Range) : Prop where
  min : -2 ^ 63 ≤ r.min ∧ r.min < 2 ^ 63
  span : r.span < 2 ^ 64
  max : r.min + r.span < 2 ^ 64

theorem rangeOffset_eq (hr : ValidRange r) (neg : Bool) {u : Nat} (hu : u < 2 ^ 64) : rangeOffset r neg u =
    if r.min ≤ signed neg u ∧ signed neg u < r.min + 2 ^ 64 then some (signed neg u - r.min).toNat else none := by
  obtain ⟨⟨hlo, hhi⟩, -, -⟩ := hr
  unfold rangeOffset
  by_cases hneg : neg = true ∧ u ≠ 0
  · have hval : signed neg u = -u := by rw [signed, if_pos hneg.1]
    rw [if_pos hneg, hval]
    split_ifs <;> first | rfl | (congr 1; omega)
  have hval : signed neg u = u := by
    unfold signed
    split
    · next hs =>
      have h0 : u = 0 := by
        by_contra h
        exact hneg ⟨hs, h⟩
      omega
    · rfl
  rw [if_neg hneg, hval]
  split_ifs <;> first | rfl | (congr 1; omega)

/-- `encode_range` takes the integers of the range and writes their offsets. -/
theorem encodeRange_eq (hr : ValidRange r) (v : List UInt8) : encodeRange r v = (intValue v).bind fun x =>
      if r.min ≤ x ∧ x ≤ r.min + r.span then some (offsetBits (rangeBits r) (x - r.min).toNat) else none := by
  have hlo := hr.min
  have hspan := hr.span
  have hmax := hr.max
  unfold encodeRange intValue
  rw [parseInt_eq]
  cases signedDigits v with
  | none => rfl
  | some x =>
    obtain ⟨neg, ds⟩ := x
    simp only [bind_eq_bind, bind_some, map_some]
    generalize decValue ds = n
    by_cases hbig : n < 2 ^ 64
    · rw [if_pos hbig, bind_some, rangeOffset_eq hr neg hbig]
      generalize signed neg n = x
      by_cases hin : r.min ≤ x ∧ x < r.min + 2 ^ 64
      · rw [if_pos hin, bind_some]
        by_cases hoff : (x - r.min).toNat > r.span
        · rw [if_pos hoff, if_neg (by omega)]
        · rw [if_neg hoff, if_pos (by omega)]
          rfl
      · rw [if_neg hin, if_neg (by omega)]
        rfl
    · rw [if_neg hbig, if_neg]
      · rfl
      · unfold signed
        split <;> omega

theorem isSome_encodeRange_iff (hr : ValidRange r) (v : List UInt8) :
    (encodeRange r v).isSome ↔ ∃ x, intValue v = some x ∧ r.min ≤ x ∧ x ≤ r.min + r.span := by
  rw [encodeRange_eq hr]
  cases intValue v with
  | none => simp
  | some x => by_cases h : r.min ≤ x ∧ x ≤ r.min + r.span <;> simp [h]

/-- The decoder prints the integer, up to `INT64_MAX` if the minimum is negative. -/
theorem reads_decodeRange {r : Range} (hr : ValidRange r) {x : Int} (hlo : r.min ≤ x) (hhi : x ≤ r.min + r.span)
    (hsigned : 0 ≤ r.min ∨ x < 2 ^ 63) :
    Reads (decodeRange r) (offsetBits (rangeBits r) (x - r.min).toNat) (decimalInt x) := by
  have hmin := hr.min
  have hspan := hr.span
  have hmax := hr.max
  have hoff : (x - r.min).toNat ≤ r.span := by omega
  have hread : Reads (decodeRange r) (offsetBits (rangeBits r) (x - r.min).toNat ++ ([] ++ []))
      (if r.min ≥ 0 then decimal ((r.min.toNat + (x - r.min).toNat) % 2 ^ 64)
        else decimalInt ((r.min + (x - r.min).toNat : Int).bmod (2 ^ 64))) :=
    (reads_getOffset hspan hoff).bind ((reads_require (decide_eq_true hoff)).bind (reads_pure _))
  have hsum : r.min + ((x - r.min).toNat : Int) = x := by omega
  rw [append_nil, append_nil, hsum] at hread
  have htext : (if r.min ≥ 0 then decimal ((r.min.toNat + (x - r.min).toNat) % 2 ^ 64) else decimalInt (x.bmod (2 ^ 64)))
      = decimalInt x := by
    by_cases hneg : r.min ≥ 0
    · rw [if_pos hneg, decimalInt, if_neg (by omega), Nat.mod_eq_of_lt (by omega)]
      congr 1
      omega
    · rw [if_neg hneg, Int.bmod_eq_of_le (by omega) (by omega)]
  rw [htext] at hread
  exact hread

/-! ## Unbounded integers -/

theorem encodeSvlu5_eq (v : List UInt8) : encodeSvlu5 v =
    (signedDigits v).bind fun x => if decValue x.2 < 2 ^ 64 then some (x.1 :: vluimsbf5Bits (decValue x.2)) else none := by
  unfold encodeSvlu5
  rw [parseInt_eq]
  cases signedDigits v with
  | none => rfl
  | some x =>
    simp only [bind_eq_bind, bind_some]
    split <;> rfl

variable {n : Nat}

theorem reads_decodeSvlu5 (neg : Bool) (h : n < 2 ^ 64) :
    Reads decodeSvlu5 (neg :: vluimsbf5Bits n) ((if neg then [45] else []) ++ decimal n) := by
  have hread := (reads_getFlag neg).bind (f := fun sign => getV5 >>= fun v => pure ((if sign then [45] else []) ++ decimal v))
    (reads_getV5 h).map
  exact hread

/-! ## Lists -/

theorem encodeList_eq {enc : List UInt8 → Option (List Bool)} {len : Range} {unbounded : Bool} {v : List UInt8} {bits : List Bool}
    (h : encodeList enc len unbounded v = some bits) :
    ∃ items, (listItems v).mapM enc = some items ∧ ¬ (len.min > 0 ∧ ((listItems v).length : Int) < len.min) ∧
      (unbounded = false → (((listItems v).length - len.min) % 2 ^ 64).toNat ≤ len.span) ∧
      bits = offsetBits (if unbounded then none else rangeBits len) (((listItems v).length - len.min) % 2 ^ 64).toNat ++
        items.flatten := by
  unfold encodeList at h
  simp only at h
  split at h
  · cases h
  rename_i hshort
  split at h
  · cases h
  · next hlong =>
    obtain ⟨items, hitems, h⟩ := bind_eq_some_iff.1 h
    refine ⟨items, hitems, hshort, fun hb => ?_, (some.inj h).symm⟩
    by_contra hgt
    exact hlong ⟨by rw [hb]; rfl, by omega⟩

/-- A length range has no negative bound; its span counts only if there is an upper one. -/
structure LengthRange (len : Range) : Prop where
  min : 0 ≤ len.min ∧ len.min < 2 ^ 63
  span : len.span < 2 ^ 64

theorem reads_decListCount {len : Range} {unbounded : Bool} (hlen : LengthRange len) {n : Nat} (hn : n < 2 ^ 64)
    (hlo : ¬ (len.min > 0 ∧ (n : Int) < len.min))
    (hhi : unbounded = false → ((n - len.min) % 2 ^ 64).toNat ≤ len.span) : Reads (decListCount len unbounded)
      (offsetBits (if unbounded then none else rangeBits len) ((n - len.min) % 2 ^ 64).toNat) n := by
  obtain ⟨⟨hmin, hmax⟩, hspan⟩ := hlen
  have hoff : ((n - len.min) % 2 ^ 64).toNat = n - len.min.toNat := by omega
  have hlow : (len.min % 2 ^ 64).toNat = len.min.toNat := by omega
  rw [hoff] at hhi ⊢
  have hread : Reads (getOffset (if unbounded then none else rangeBits len))
      (offsetBits (if unbounded then none else rangeBits len) (n - len.min.toNat)) (n - len.min.toNat) := by
    cases unbounded with
    | true => exact reads_getV5 (by omega)
    | false => exact reads_getOffset hspan (hhi rfl)
  have hok : (!((!unbounded && decide (n - len.min.toNat > len.span)) ||
      decide (n - len.min.toNat > 2 ^ 64 - 1 - len.min.toNat))) = true := by
    cases unbounded with
    | true => simp only [Bool.not_true, Bool.false_and, Bool.false_or, Bool.not_eq_true', decide_eq_false_iff_not]; omega
    | false =>
      have := hhi rfl
      simp only [Bool.not_false, Bool.true_and, Bool.not_eq_true', Bool.or_eq_false_iff, decide_eq_false_iff_not]
      omega
  have hall : Reads (decListCount len unbounded)
      (offsetBits (if unbounded then none else rangeBits len) (n - len.min.toNat) ++ ([] ++ []))
      (n - len.min.toNat + len.min.toNat) := by
    unfold decListCount
    rw [hlow]
    exact hread.bind ((reads_require hok).bind (reads_pure _))
  rw [append_nil, append_nil, show n - len.min.toNat + len.min.toNat = n by omega] at hall
  exact hall

/-- The items of a list as `list_render` prints them. -/
def joined (ws : List (List UInt8)) : List UInt8 := [32].intercalate ws

variable {α β : Type} {f : α → Option β} {a : α} {as : List α} {bs : List β}

theorem mapM_cons_some (h : (a :: as).mapM f = some bs) :
    ∃ b cs, f a = some b ∧ as.mapM f = some cs ∧ bs = b :: cs := by
  rw [mapM_cons] at h
  obtain ⟨b, hb, h⟩ := bind_eq_some_iff.1 h
  obtain ⟨cs, hcs, h⟩ := bind_eq_some_iff.1 h
  exact ⟨b, cs, hb, hcs, (some.inj h).symm⟩

section Items

variable {enc : List UInt8 → Option (List Bool)} {dec : BitRd (List UInt8)} {R : List UInt8 → List UInt8 → Prop}

/-- What `enc` writes of the texts in `p`, `dec` reads as a text that `R` relates to it. -/
def Codes (enc : List UInt8 → Option (List Bool)) (dec : BitRd (List UInt8)) (p : List UInt8 → Prop)
    (R : List UInt8 → List UInt8 → Prop) : Prop :=
  ∀ v bits, p v → enc v = some bits → ∃ w, R v w ∧ Reads dec bits w

/-- The loop reads its items: `n` is the number of all of them, those of `vs` are left. -/
theorem reads_listLoop {p : List UInt8 → Prop} (hcodes : Codes enc dec p R) {n : Nat} {vs : List (List UInt8)}
    {items : List (List Bool)} (hp : ∀ v ∈ vs, p v) (hitems : vs.mapM enc = some items)
    (hfit : n ≤ maxNodes ∨ ∀ bits ∈ items, bits ≠ []) (hvs : vs.length ≤ n) : ∃ ws, List.Forall₂ R vs ws ∧
      Reads (listLoop dec n vs.length) items.flatten ((if 0 < vs.length ∧ vs.length < n then [32] else []) ++ joined ws) := by
  induction vs generalizing items with
  | nil =>
    cases hitems
    exact ⟨[], .nil, reads_pure []⟩
  | cons v vs ih =>
    obtain ⟨bits, rest, hv, hrest, rfl⟩ := mapM_cons_some hitems
    obtain ⟨w, hR, hread⟩ := hcodes v bits (hp v mem_cons_self) hv
    obtain ⟨ws, hRs, hloop⟩ := ih (fun u hu => hp u (mem_cons_of_mem v hu)) hrest
      (hfit.imp_right fun h b hb => h b (mem_cons_of_mem bits hb)) (Nat.le_of_succ_le hvs)
    refine ⟨w :: ws, .cons hR hRs, fun tail => ?_⟩
    have hlen : (v :: vs).length = vs.length + 1 := rfl
    rw [hlen, flatten_cons, append_assoc, listLoop]
    have hprogress : (!(decide ((bits ++ (rest.flatten ++ tail)).length = (rest.flatten ++ tail).length) && decide (n > maxNodes)))
        = true := by
      rw [Bool.not_eq_true', Bool.and_eq_false_iff, decide_eq_false_iff_not, decide_eq_false_iff_not, length_append]
      rcases hfit with hfew | hbits
      · exact .inr (by omega)
      · have := length_pos_iff.2 (hbits bits mem_cons_self)
        exact .inl (by omega)
    rw [bits_bind (show bitsLeft _ = some (_, _) from rfl), bits_bind (hread _),
      bits_bind (show bitsLeft _ = some (_, _) from rfl), require_bind hprogress, bits_bind (hloop tail)]
    have hjoin : w ++ ((if 0 < vs.length ∧ vs.length < n then [32] else []) ++ joined ws) = joined (w :: ws) := by
      cases hRs with
      | nil => simp [joined]
      | cons hR' hRs' =>
        rw [if_pos ⟨Nat.succ_pos _, hvs⟩]
        simp [joined, intercalate]
    rw [append_assoc, hjoin]
    simp only [Nat.succ_pos, true_and]
    rfl

theorem listRender_of_zeroBits {len : Range} {unbounded : Bool} {u : List UInt8} {bits : List Bool} {n : Nat}
    (hcount : Reads (decListCount len unbounded) bits n) (hmany : n > maxNodes) (hread : Reads dec [] u) {rest : List Bool} :
    listRender dec len unbounded (bits ++ rest) = none := by
  unfold listRender
  rw [bits_bind (hcount rest)]
  obtain ⟨k, rfl⟩ : ∃ k, n = k + 1 := Nat.exists_eq_succ_of_ne_zero (by unfold maxNodes at hmany; omega)
  have hnow := hread rest
  rw [nil_append] at hnow
  rw [listLoop, bits_bind (show bitsLeft _ = some (_, _) from rfl), bits_bind hnow,
    bits_bind (show bitsLeft _ = some (_, _) from rfl), require_none]
  rw [Bool.not_eq_false', Bool.and_eq_true, decide_eq_true_iff, decide_eq_true_iff]
  exact ⟨rfl, hmany⟩

/-! ### Items of a text -/

theorem listItems_of_nil {s : List UInt8} (h : skipWs s = []) : listItems s = [] := by
  rw [listItems]
  split
  · rfl
  · next hcons =>
    rw [h] at hcons
    cases hcons

variable {c : UInt8}

theorem listItems_of_cons {s cs : List UInt8} (h : skipWs s = c :: cs) :
    listItems s = (c :: cs.takeWhile fun d => !isSeparator d) :: listItems (cs.dropWhile fun d => !isSeparator d) := by
  rw [listItems]
  split
  · next hnil =>
    rw [h] at hnil
    cases hnil
  · next hcons =>
    rw [h] at hcons
    cases hcons
    rfl

theorem listItems_space (s : List UInt8) : listItems (32 :: s) = listItems s := by
  have hskip : skipWs (32 :: s) = skipWs s := rfl
  cases h : skipWs s with
  | nil => rw [listItems_of_nil h, listItems_of_nil (hskip.trans h)]
  | cons c cs => rw [listItems_of_cons h, listItems_of_cons (hskip.trans h)]

/-- A text without white space in it. -/
def Solid (w : List UInt8) : Prop := w ≠ [] ∧ ∀ c ∈ w, isSpace c = false

theorem isSeparator_of_not_isSpace (h : isSpace c = false) : isSeparator c = false := by
  by_contra hsep
  rw [Bool.not_eq_false, isSeparator] at hsep
  simp only [Bool.or_eq_true, decide_eq_true_iff] at hsep
  rcases hsep with ((rfl | rfl) | rfl) | rfl <;> cases h

theorem listItems_solid_append {w rest : List UInt8} (hw : Solid w) (hrest : rest = [] ∨ ∃ s, rest = 32 :: s) :
    listItems (w ++ rest) = w :: listItems rest := by
  obtain ⟨hne, hall⟩ := hw
  obtain ⟨c, cs, rfl⟩ := exists_cons_of_ne_nil hne
  have hc := hall c mem_cons_self
  have hskip : skipWs (c :: cs ++ rest) = c :: (cs ++ rest) := by
    rw [cons_append, skipWs, dropWhile_cons, hc]
    rfl
  have hcs : ∀ d ∈ cs, (!isSeparator d) = true := fun d hd => by
    rw [isSeparator_of_not_isSpace (hall d (mem_cons_of_mem c hd))]
    rfl
  rw [listItems_of_cons hskip, takeWhile_append_of_pos hcs, dropWhile_append_of_pos hcs]
  rcases hrest with rfl | ⟨s, rfl⟩
  · simp
  · have hsep : (!isSeparator 32) = false := rfl
    simp [hsep]

theorem listItems_joined {ws : List (List UInt8)} (h : ∀ w ∈ ws, Solid w) : listItems (joined ws) = ws := by
  induction ws with
  | nil => exact listItems_of_nil rfl
  | cons w ws ih =>
    have hw := h w mem_cons_self
    have hws := ih fun u hu => h u (mem_cons_of_mem w hu)
    cases ws with
    | nil =>
      have hone := listItems_solid_append hw (.inl rfl)
      rw [append_nil, @listItems_of_nil [] rfl] at hone
      have htext : joined [w] = w := by simp [joined, intercalate]
      rw [htext, hone]
    | cons u us =>
      have htext : joined (w :: u :: us) = w ++ 32 :: joined (u :: us) := by simp [joined, intercalate]
      rw [htext, listItems_solid_append hw (.inr ⟨_, rfl⟩), listItems_space, hws]

end Items

/-- A text that memory holds. -/
abbrev CText := { v : List UInt8 // v.length < 2 ^ 64 }

theorem length_listItems_le (s : List UInt8) : (listItems s).length ≤ s.length := by
  induction hn : s.length using Nat.strongRecOn generalizing s with
  | ind n ih =>
    cases h : skipWs s with
    | nil =>
      rw [listItems_of_nil h]
      exact Nat.zero_le _
    | cons c cs =>
      have hdrop := length_dropWhile_le (fun d => !isSeparator d) cs
      have hskip := length_dropWhile_le isSpace s
      have hlen := congrArg length h
      rw [skipWs, length_cons] at hlen
      rw [listItems_of_cons h, length_cons]
      have := ih _ (by omega) (cs.dropWhile fun d => !isSeparator d) rfl
      omega

theorem forall₂_right {R : α → β → Prop} (h : List.Forall₂ R as bs) : ∀ b ∈ bs, ∃ a ∈ as, R a b := by
  induction h with
  | nil =>
    intro b hb
    cases hb
  | @cons a b as bs hab _ ih =>
    intro c hc
    rcases mem_cons.1 hc with rfl | hmem
    · exact ⟨a, mem_cons_self, hab⟩
    · obtain ⟨d, hd, hR⟩ := ih c hmem
      exact ⟨d, mem_cons_of_mem a hd, hR⟩

/-! ## Integer types -/

/-- The integer types: bounded on both sides, or not. -/
inductive IntegerType where
  | range (r : Range) (valid : ValidRange r)
  | svlu5

namespace IntegerType

def encode : IntegerType → List UInt8 → Option (List Bool)
  | range r _ => encodeRange r
  | svlu5 => encodeSvlu5

def decode : IntegerType → BitRd (List UInt8)
  | range r _ => decodeRange r
  | svlu5 => decodeSvlu5

/-- A value that is printed as it is: with a negative minimum, one that a signed 64 bit number holds. -/
def Printable : IntegerType → List UInt8 → Prop
  | range r _, v => 0 ≤ r.min ∨ ∀ x ∈ intValue v, x < 2 ^ 63
  | svlu5, _ => True

/-- A type with a single value. -/
def ZeroBits : IntegerType → Prop
  | range r _ => r.span = 0
  | svlu5 => False

instance : DecidablePred ZeroBits
  | range r _ => inferInstanceAs (Decidable (r.span = 0))
  | svlu5 => inferInstanceAs (Decidable False)

/-- Both texts denote one integer; for a bounded type the second one is its canonical text. -/
def Same (t : IntegerType) (v w : List UInt8) : Prop :=
  ∃ x, intValue v = some x ∧ intValue w = some x ∧ (t ≠ svlu5 → w = decimalInt x)

theorem solid_decimal (neg : Bool) (n : Nat) : Solid ((if neg then [45] else []) ++ decimal n) := by
  refine ⟨fun h => decimal_ne_nil n (append_eq_nil_iff.1 h).2, fun c hc => ?_⟩
  rcases mem_append.1 hc with hc | hc
  · cases neg with
    | false => cases hc
    | true =>
      rw [mem_singleton.1 hc]
      rfl
  · exact isSpace_of_isDigit (isDigit_of_mem_decimal hc)

theorem solid_decimalInt (x : Int) : Solid (decimalInt x) := by
  have h := solid_decimal (x < 0) x.natAbs
  unfold decimalInt
  by_cases hx : x < 0
  · simpa [hx] using h
  · simpa [hx] using h

variable (t : IntegerType)

theorem codes : Codes t.encode t.decode t.Printable fun v w => t.Same v w ∧ Solid w := by
  intro v bits hp h
  cases t with
  | range r hr =>
    rw [encode, encodeRange_eq hr] at h
    obtain ⟨x, hx, h⟩ := bind_eq_some_iff.1 h
    split at h
    · next hin =>
      cases h
      refine ⟨decimalInt x, ⟨⟨x, hx, intValue_decimalInt x, fun _ => rfl⟩, solid_decimalInt x⟩, ?_⟩
      exact reads_decodeRange hr hin.1 hin.2 (hp.imp_right fun hall => hall x hx)
    · cases h
  | svlu5 =>
    rw [encode, encodeSvlu5_eq] at h
    obtain ⟨⟨neg, ds⟩, hds, h⟩ := bind_eq_some_iff.1 h
    split at h
    · next hbig =>
      cases h
      refine ⟨_, ⟨⟨signed neg (decValue ds), ?_, ?_, absurd rfl⟩, solid_decimal neg _⟩,
        reads_decodeSvlu5 neg hbig⟩
      · rw [intValue, hds]
        rfl
      · rw [intValue, signedDigits_decimal, map_some, decValue_decimal]
    · cases h

variable {bits : List Bool}

theorem encode_eq_nil_iff {v : List UInt8} (h : t.encode v = some bits) : bits = [] ↔ t.ZeroBits := by
  cases t with
  | range r hr =>
    rw [encode, encodeRange_eq hr] at h
    obtain ⟨x, -, h⟩ := bind_eq_some_iff.1 h
    split at h
    · cases h
      show _ ↔ r.span = 0
      unfold rangeBits
      split
      · simp only [offsetBits, vluimsbf5Bits, append_eq_nil_iff, reduceCtorEq, and_false, false_iff]
        omega
      rw [offsetBits, ← length_eq_zero_iff, length_ofNat]
      constructor
      · intro hw
        have hfit := @lt_two_pow_bimWidth (r.span + 1) r.span (by omega) (by omega)
        rw [hw] at hfit
        omega
      · intro h0
        rw [h0]
        decide +kernel
    · cases h
  | svlu5 =>
    rw [encode, encodeSvlu5_eq] at h
    obtain ⟨x, -, h⟩ := bind_eq_some_iff.1 h
    split at h
    · cases h
      simp [ZeroBits]
    · cases h

theorem mem_items {enc : List UInt8 → Option (List Bool)} {vs : List (List UInt8)} {items : List (List Bool)}
    (h : vs.mapM enc = some items) : ∀ bits ∈ items, ∃ v ∈ vs, enc v = some bits := by
  induction vs generalizing items with
  | nil =>
    cases h
    intro bits hbits
    cases hbits
  | cons v vs ih =>
    obtain ⟨bits, rest, hv, hrest, rfl⟩ := mapM_cons_some h
    intro cs hcs
    rcases mem_cons.1 hcs with rfl | hmem
    · exact ⟨v, mem_cons_self, hv⟩
    · obtain ⟨u, hu, henc⟩ := ih hrest cs hmem
      exact ⟨u, mem_cons_of_mem v hu, henc⟩

/-- A list comes back item by item, unless its items take no bits and are too many: then it is refused. -/
theorem list_roundTrip {len : Range} (hlen : LengthRange len) {unbounded : Bool} {v : CText}
    (h : encodeList t.encode len unbounded v.val = some bits) (hp : ∀ u ∈ listItems v.val, t.Printable u) :
    if t.ZeroBits ∧ (listItems v.val).length > maxNodes then ∀ rest, listRender t.decode len unbounded (bits ++ rest) = none
    else ∃ w, Reads (listRender t.decode len unbounded) bits w ∧ List.Forall₂ t.Same (listItems v.val) (listItems w) := by
  obtain ⟨items, hitems, hlo, hhi, rfl⟩ := encodeList_eq h
  have hcount := reads_decListCount hlen (lt_of_le_of_lt (length_listItems_le v.val) v.property) hlo hhi
  split
  · next hrefused =>
    obtain ⟨hzero, hmany⟩ := hrefused
    intro rest
    -- every item takes no bits, so the first one ends the loop
    obtain ⟨u, us, hu⟩ : ∃ u us, listItems v.val = u :: us := exists_cons_of_ne_nil fun hnil => by
      rw [hnil] at hmany
      cases hmany
    have hitems' := hitems
    rw [hu] at hitems'
    obtain ⟨b, bs, hb, -, -⟩ := mapM_cons_some hitems'
    obtain ⟨w, -, hread⟩ := t.codes u b (hp u (by rw [hu]; exact mem_cons_self)) hb
    rw [(t.encode_eq_nil_iff hb).2 hzero] at hread
    rw [append_assoc]
    exact listRender_of_zeroBits hcount hmany hread
  · next htaken =>
    have hfit : (listItems v.val).length ≤ maxNodes ∨ ∀ bits ∈ items, bits ≠ [] := by
      by_cases hzero : t.ZeroBits
      · exact .inl (not_lt.1 fun hmany => htaken ⟨hzero, hmany⟩)
      · refine .inr fun bits hbits hnil => hzero ?_
        obtain ⟨u, -, hu⟩ := mem_items hitems bits hbits
        exact (t.encode_eq_nil_iff hu).1 hnil
    obtain ⟨ws, hws, hloop⟩ := reads_listLoop t.codes hp hitems hfit le_rfl
    rw [if_neg (by omega), nil_append] at hloop
    have hsolid : ∀ w ∈ ws, Solid w := fun w hw => by
      obtain ⟨u, -, hu⟩ := forall₂_right hws w hw
      exact hu.2
    refine ⟨joined ws, hcount.bind hloop, ?_⟩
    rw [listItems_joined hsolid]
    exact hws.imp fun _ _ hR => hR.1

end IntegerType

/-- Integers of every range and unbounded ones come back, alone and in lists. -/
theorem integers_roundTrip : (∀ r, ValidRange r → ∀ v,
      ((encodeRange r v).isSome ↔ ∃ x, intValue v = some x ∧ r.min ≤ x ∧ x ≤ r.min + r.span) ∧
      ∀ bits, encodeRange r v = some bits → (0 ≤ r.min ∨ ∀ x ∈ intValue v, x < 2 ^ 63) →
        ∃ x, intValue v = some x ∧ Reads (decodeRange r) bits (decimalInt x)) ∧
    (∀ v x, intValue v = some x → x.natAbs < 2 ^ 64 →
      ∃ bits w, encodeSvlu5 v = some bits ∧ Reads decodeSvlu5 bits w ∧ intValue w = some x) ∧
    ∀ (t : IntegerType) (len : Range) (unbounded : Bool) (v : CText) (bits : List Bool), LengthRange len →
      encodeList t.encode len unbounded v.val = some bits → (∀ u ∈ listItems v.val, t.Printable u) →
      if t.ZeroBits ∧ (listItems v.val).length > maxNodes then ∀ rest, listRender t.decode len unbounded (bits ++ rest) = none
      else ∃ w, Reads (listRender t.decode len unbounded) bits w ∧ List.Forall₂ t.Same (listItems v.val) (listItems w) := by
  refine ⟨fun r hr v => ⟨isSome_encodeRange_iff hr v, fun bits h hprint => ?_⟩, fun v x hx hfit => ?_,
    fun t len unbounded v bits hlen h hp => t.list_roundTrip hlen h hp⟩
  · obtain ⟨w, ⟨⟨x, hx, -, hcanon⟩, -⟩, hread⟩ := (IntegerType.range r hr).codes v bits hprint h
    rw [hcanon (by simp)] at hread
    exact ⟨x, hx, hread⟩
  obtain ⟨⟨neg, ds⟩, hds, rfl⟩ := map_eq_some_iff.1 hx
  have hbig : decValue ds < 2 ^ 64 := by
    unfold signed at hfit
    simp only at hfit
    split at hfit <;> omega
  refine ⟨neg :: vluimsbf5Bits (decValue ds), _, ?_, reads_decodeSvlu5 neg hbig, ?_⟩
  · rw [encodeSvlu5_eq, hds, bind_some, if_pos hbig]
  · rw [intValue, signedDigits_decimal, map_some, decValue_decimal]

/-- Bounded integers, one of the largest unbounded ones, and a list. -/
theorem integers_roundTrip_samples :
    (∃ x, intValue (text " +4") = some x ∧ Reads (decodeRange ⟨-3, 10⟩) (ofNat 4 7) (decimalInt x)) ∧
    (∃ bits w, encodeSvlu5 (text "-18446744073709551615") = some bits ∧ Reads decodeSvlu5 bits w ∧
      intValue w = some (-18446744073709551615)) ∧
    ∃ w, Reads (listRender (decodeRange ⟨3, 10⟩) ⟨1, 3⟩ false) (ofNat 2 1 ++ (ofNat 4 1 ++ ofNat 4 10)) w ∧
      List.Forall₂ (IntegerType.range ⟨3, 10⟩ ⟨by decide, by decide, by decide⟩).Same [text "4", text "13"] (listItems w) := by
  have hitems : listItems (text "4 13") = [text "4", text "13"] := by decide +kernel
  have hlist := integers_roundTrip.2.2 (.range ⟨3, 10⟩ ⟨by decide, by decide, by decide⟩) ⟨1, 3⟩ false
    ⟨text "4 13", by decide +kernel⟩ (ofNat 2 1 ++ (ofNat 4 1 ++ ofNat 4 10)) ⟨by decide, by decide⟩ (by decide +kernel)
    fun _ _ => .inl (by decide)
  rw [if_neg fun h => absurd h.1 (by decide), hitems] at hlist
  exact ⟨(integers_roundTrip.1 _ ⟨by decide, by decide, by decide⟩ _).2 _ (by decide +kernel) (.inr (by decide +kernel)),
    integers_roundTrip.2.1 _ _ (by decide +kernel) (by decide), hlist⟩

theorem mapM_replicate {b : β} (h : f a = some b) (n : Nat) : (replicate n a).mapM f = some (replicate n b) := by
  induction n with
  | zero => rfl
  | succ n ih =>
    rw [replicate_succ, mapM_cons, h, ih]
    rfl

theorem encodeList_fives (hn : n < 2 ^ 64) :
    encodeList (encodeRange ⟨5, 0⟩) ⟨0, 0⟩ true (joined (replicate n [53])) = some (vluimsbf5Bits n) := by
  have hsplit := @listItems_joined (replicate n [53]) fun w hw => by
    rw [(mem_replicate.1 hw).2]
    exact ⟨by simp, by simp [isSpace]⟩
  have hitem : encodeRange ⟨5, 0⟩ [53] = some [] := by decide +kernel
  have hcount : ((n : Int) % 2 ^ 64).toNat = n := by omega
  unfold encodeList
  rw [hsplit]
  simp only [length_replicate, mapM_replicate hitem n, Int.sub_zero, hcount, offsetBits]
  simp

/-- An integer above `INT64_MAX` of a range with a negative minimum is printed as another one, and a long list of items without bits is
    refused. -/
theorem integers_not_returned : (∃ bits, encodeRange ⟨-1, 2 ^ 64 - 1⟩ (text "9223372036854775808") = some bits ∧
      decodeRange ⟨-1, 2 ^ 64 - 1⟩ bits = some (text "-9223372036854775808", [])) ∧
    ∃ bits, encodeList (encodeRange ⟨5, 0⟩) ⟨0, 0⟩ true (joined (replicate 100001 [53])) = some bits ∧
      listRender (decodeRange ⟨5, 0⟩) ⟨0, 0⟩ true bits = none := by
  refine ⟨⟨offsetBits none (2 ^ 63 + 1), by decide +kernel, by decide +kernel⟩, vluimsbf5Bits 100001,
    encodeList_fives (by decide), ?_⟩
  have hcount : Reads (decListCount ⟨0, 0⟩ true) (vluimsbf5Bits 100001) 100001 :=
    @reads_decListCount ⟨0, 0⟩ true ⟨by decide, by decide⟩ 100001 (by decide) (by decide) nofun
  have hread := @reads_decodeRange ⟨5, 0⟩ ⟨by decide, by decide, by decide⟩ 5 (by decide) (by decide) (.inl (by decide))
  have hbits : offsetBits (rangeBits ⟨5, 0⟩) ((5 : Int) - 5).toNat = [] := by decide +kernel
  rw [hbits] at hread
  have h := @listRender_of_zeroBits _ _ _ _ _ _ hcount (by decide) hread []
  rwa [append_nil] at h

end DvbIpiTools.Bim.Codec
