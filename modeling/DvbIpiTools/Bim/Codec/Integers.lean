import DvbIpiTools.Bim.Codec.Instants

set_option autoImplicit false

/-! # Integers and lists of them

`BIM_RANGE`, `BIM_SVLU5` and `BIM_LIST` of `encode/simple.c` and `decode/simple.c`. A bounded integer is written as its offset from the
minimum. -/

namespace DvbIpiTools.Bim.Codec

open BitList Coder DateUtil List

/-! ## The codecs -/

/-- `range_bits`; -1 is `none`. -/
def rangeBits (r : Range) : Option Nat := if r.span > 65535 then none else some (bimWidth (r.span + 1))

/-- An offset in a field of `rangeBits`, or as vluimsbf5. -/
def offsetBits (w : Option Nat) (off : Nat) : List Bool := match w with
  | none => vluimsbf5Bits off
  | some w => ofNat w off

def getOffset (w : Option Nat) : BitRd Nat := match w with
  | none => getV5
  | some w => getBits w

/-- The offset that `encode_range` finds, before it is held against the span. -/
def rangeOffset (r : Range) (neg : Bool) (u : Nat) : Option Nat :=
  let mag := if r.min < 0 then r.min.natAbs else 0
  if neg ∧ u ≠ 0 then
    if u > mag then none else some (mag - u)
  else if r.min ≥ 0 then
    if u < r.min.toNat then none else some (u - r.min.toNat)
  else if u > 2 ^ 64 - 1 - mag then none
  else some (u + mag)

def encodeRange (r : Range) (v : List UInt8) : Option (List Bool) := do
  let (neg, u) ← parseInt v
  let off ← rangeOffset r neg u
  if off > r.span then none else return offsetBits (rangeBits r) off

/-- `BIM_RANGE` of `dec_plain`: with a negative minimum the sum is printed as a signed 64 bit number. -/
def decodeRange (r : Range) : BitRd (List UInt8) := do
  let v ← getOffset (rangeBits r)
  require (v ≤ r.span)
  return if r.min ≥ 0 then decimal ((r.min.toNat + v) % 2 ^ 64) else decimalInt ((r.min + v).bmod (2 ^ 64))

/-- `BIM_SVLU5` of `enc_plain`. -/
def encodeSvlu5 (v : List UInt8) : Option (List Bool) := do
  let (neg, u) ← parseInt v
  return neg :: vluimsbf5Bits u

/-- `BIM_SVLU5` of `dec_plain`. -/
def decodeSvlu5 : BitRd (List UInt8) := do
  let sign ← getFlag
  let v ← getV5
  return (if sign then [45] else []) ++ decimal v

/-- The separators of `strcspn(p, " \t\r\n")`. -/
def isSeparator (c : UInt8) : Bool := c = 32 || c = 9 || c = 13 || c = 10

theorem length_dropWhile_le {α : Type} (p : α → Bool) (s : List α) : (s.dropWhile p).length ≤ s.length :=
  (dropWhile_sublist p).length_le

/-- The items of a list as both loops of `encode_list` walk over them. -/
def listItems (s : List UInt8) : List (List UInt8) :=
  match _h : skipWs s with
  | [] => []
  | c :: cs => (c :: cs.takeWhile fun d => !isSeparator d) :: listItems (cs.dropWhile fun d => !isSeparator d)
termination_by s.length
decreasing_by
  have hle := length_dropWhile_le (fun d => !isSeparator d) cs
  have hskip := length_dropWhile_le isSpace s
  have hlen := congrArg List.length _h
  rw [skipWs, length_cons] at hlen
  omega

/-- `encode_list`, with the codec of the items. -/
def encodeList (enc : List UInt8 → Option (List Bool)) (len : Range) (unbounded : Bool) (v : List UInt8) :
    Option (List Bool) := do
  let n := (listItems v).length
  if len.min > 0 ∧ (n : Int) < len.min then none
  else
    let n := ((n - len.min) % 2 ^ 64).toNat
    if !unbounded ∧ n > len.span then none
    else do
      let items ← (listItems v).mapM enc
      return offsetBits (if unbounded then none else rangeBits len) n ++ items.flatten

def maxNodes : Nat := 100000

def decListCount (len : Range) (unbounded : Bool) : BitRd Nat := do
  let n ← getOffset (if unbounded then none else rangeBits len)
  let low := (len.min % 2 ^ 64).toNat
  require (!((!unbounded && n > len.span) || n > 2 ^ 64 - 1 - low))
  return n + low

/-- `bitreader_bits_left`. -/
def bitsLeft : BitRd Nat := fun s => some (s.length, s)

/-- The loop of `list_render` over the last `k` of `n` items. -/
def listLoop (dec : BitRd (List UInt8)) (n : Nat) : Nat → BitRd (List UInt8)
  | 0 => pure []
  | k + 1 => do
    let bits ← bitsLeft
    let item ← dec
    let left ← bitsLeft
    require (!(bits = left && n > maxNodes))
    let rest ← listLoop dec n k
    return (if k + 1 < n then [32] else []) ++ item ++ rest

def listRender (dec : BitRd (List UInt8)) (len : Range) (unbounded : Bool) : BitRd (List UInt8) := do
  let n ← decListCount len unbounded
  listLoop dec n n

/-! ## The integer that a text denotes -/

/-- Sign and digits of an integer, with white space around them. -/
def signedDigits (v : List UInt8) : Option (Bool × List UInt8) :=
  let v := skipWs v
  let neg := charAt v 0 = 45
  let v := if charAt v 0 = 45 ∨ charAt v 0 = 43 then v.drop 1 else v
  let ds := v.takeWhile isDigit
  if ds = [] ∨ skipWs (v.dropWhile isDigit) ≠ [] then none else some (neg, ds)

def signed (neg : Bool) (n : Nat) : Int := if neg then -n else n

/-- The value of an `xs:integer` of any size. -/
def intValue (v : List UInt8) : Option Int := (signedDigits v).map fun x => signed x.1 (decValue x.2)

theorem isSpace_of_isDigit {c : UInt8} (h : isDigit c = true) : isSpace c = false := by
  rw [isDigit_iff] at h
  simp only [isSpace, Bool.or_eq_false_iff, Bool.and_eq_false_iff, decide_eq_false_iff_not]
  refine ⟨fun heq => ?_, .inr fun hle => ?_⟩
  · rw [heq] at h
    exact absurd h.1 (by decide)
  · have : c.toNat ≤ 13 := hle
    omega

theorem skipWs_of_isDigit {s : List UInt8} (h : isDigit (charAt s 0) = true) : skipWs s = s := by
  cases s with
  | nil => rfl
  | cons c s =>
    have hc : isSpace c = false := isSpace_of_isDigit h
    rw [skipWs, dropWhile_cons, hc]
    rfl

theorem takeWhile_isDigit_eq_nil {s : List UInt8} : s.takeWhile isDigit = [] ↔ isDigit (charAt s 0) = false := by
  cases s with
  | nil => exact ⟨fun _ => rfl, fun _ => rfl⟩
  | cons c s =>
    rw [takeWhile_cons]
    show _ ↔ isDigit c = false
    cases isDigit c <;> simp

theorem parseInt_eq (v : List UInt8) : parseInt v =
    (signedDigits v).bind fun x => if decValue x.2 < 2 ^ 64 then some (x.1, decValue x.2) else none := by
  unfold parseInt signedDigits
  simp only
  generalize (if charAt (skipWs v) 0 = 45 ∨ charAt (skipWs v) 0 = 43 then (skipWs v).drop 1 else skipWs v) = s
  by_cases hdigit : isDigit (charAt s 0) = true
  · have hne : s.takeWhile isDigit ≠ [] := fun h => by
      rw [takeWhile_isDigit_eq_nil, hdigit] at h
      cases h
    rw [if_pos hdigit, parseUint]
    simp only [skipWs_of_isDigit hdigit, hne, false_or]
    by_cases hend : skipWs (s.dropWhile isDigit) = []
    · simp only [hend, ne_eq, not_true_eq_false, or_false, if_false, Option.bind_some]
      by_cases hbig : decValue (s.takeWhile isDigit) < 2 ^ 64
      · rw [if_neg (Nat.not_le.2 hbig), if_pos hbig, Option.map_some]
      · rw [if_pos (Nat.not_lt.1 hbig), if_neg hbig, Option.map_none]
    · simp [hend]
  · rw [Bool.not_eq_true] at hdigit
    simp [hdigit, takeWhile_isDigit_eq_nil.2 hdigit]

theorem signedDigits_decimal (n : Nat) (neg : Bool) : signedDigits ((if neg then [45] else []) ++ decimal n) =
    some (neg, decimal n) := by
  have hall : ∀ c ∈ decimal n, isDigit c = true := fun c hc => isDigit_of_mem_decimal hc
  have hrun := @takeWhile_digits (decimal n) [] hall rfl
  rw [append_nil] at hrun
  have hne := decimal_ne_nil n
  cases neg with
  | true =>
    have hskip : skipWs (45 :: decimal n) = 45 :: decimal n := rfl
    simp only [signedDigits, if_true, singleton_append, hskip, charAt, getD_cons_zero, true_or,
      drop_succ_cons, drop_zero, hrun]
    simp [hne, skipWs]
  | false =>
    obtain ⟨c, cs, hcs⟩ := exists_cons_of_ne_nil hne
    have hc : isDigit c = true := hall c (by rw [hcs]; exact mem_cons_self)
    have hskip : skipWs (decimal n) = decimal n := skipWs_of_isDigit (by rw [hcs]; exact hc)
    have h45 : c ≠ 45 := fun h => by
      rw [h] at hc
      cases hc
    have h43 : c ≠ 43 := fun h => by
      rw [h] at hc
      cases hc
    have hhead : charAt (decimal n) 0 = c := by
      rw [hcs]
      rfl
    simp only [signedDigits, Bool.false_eq_true, if_false, nil_append, hskip, hhead, h45, h43, or_self, hrun]
    simp [hne, skipWs]

theorem intValue_decimalInt (x : Int) : intValue (decimalInt x) = some x := by
  have h := signedDigits_decimal x.natAbs (x < 0)
  unfold intValue decimalInt
  by_cases hx : x < 0
  · simp only [hx, decide_true, if_true, singleton_append] at h
    rw [if_pos hx, h]
    simp only [Option.map_some, decValue_decimal, signed, if_true]
    congr 1
    omega
  · simp only [hx, decide_false, Bool.false_eq_true, if_false, nil_append] at h
    rw [if_neg hx, h]
    simp only [Option.map_some, decValue_decimal, signed, Bool.false_eq_true, if_false]
    congr 1
    omega

end DvbIpiTools.Bim.Codec
