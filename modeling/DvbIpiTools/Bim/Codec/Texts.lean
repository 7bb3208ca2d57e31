import DvbIpiTools.Helper.DateUtil

set_option autoImplicit false

/-! # Numbers in texts

What the value codecs use of the C library to read and print numbers: `strtoull`, the conversions of
`sscanf` and `printf`, and `base64.c`. -/

namespace DvbIpiTools.Bim.Codec

open DateUtil List Nat

/-! ## Printing -/

/-- `%llu`. -/
def decimal (n : Nat) : List UInt8 := (Nat.toDigits 10 n).map fun c => UInt8.ofNat c.toNat

/-- `%x`. -/
def hexText (n : Nat) : List UInt8 := (Nat.toDigits 16 n).map fun c => UInt8.ofNat c.toNat

/-- `%0wu`. -/
def padded (w n : Nat) : List UInt8 := replicate (w - (decimal n).length) 48 ++ decimal n

/-- `%0wd`: the sign counts as one of the `w` places. -/
def paddedInt (w : Nat) (n : Int) : List UInt8 :=
  if n < 0 then 45 :: padded (w - 1) n.natAbs else padded w n.natAbs

/-- `%lld`. -/
def decimalInt (n : Int) : List UInt8 := if n < 0 then 45 :: decimal n.natAbs else decimal n.natAbs

/-! ## Reading -/

def isSpace (c : UInt8) : Bool := c = 32 || (9 ≤ c && c ≤ 13)

/-- `enc_skip_ws`. -/
def skipWs (s : List UInt8) : List UInt8 := s.dropWhile isSpace

/-- The value of a run of decimal digits. -/
def decValue (ds : List UInt8) : Nat := ds.foldl (fun v c => v * 10 + (c.toNat - 48)) 0

def parseUint (s : List UInt8) : Option Nat :=
  let v := skipWs s
  let ds := v.takeWhile isDigit
  if ds = [] ∨ decValue ds ≥ 2 ^ 64 ∨ skipWs (v.dropWhile isDigit) ≠ [] then none
  else some (decValue ds)

/-- `parse_int`: sign and magnitude. -/
def parseInt (s : List UInt8) : Option (Bool × Nat) :=
  let v := skipWs s
  let neg := charAt v 0 = 45
  let v := if charAt v 0 = 45 ∨ charAt v 0 = 43 then v.drop 1 else v
  if isDigit (charAt v 0) then (parseUint v).map fun n => (neg, n) else none

def hexNibble (c : UInt8) : Option Nat :=
  if 48 ≤ c ∧ c ≤ 57 then some (c.toNat - 48)
  else if 97 ≤ c ∧ c ≤ 102 then some (c.toNat - 87)
  else if 65 ≤ c ∧ c ≤ 70 then some (c.toNat - 55)
  else none

def isXdigit (c : UInt8) : Bool := (hexNibble c).isSome

/-- The value of a run of hexadecimal digits. -/
def hexValue (ds : List UInt8) : Nat := ds.foldl (fun v c => v * 16 + (hexNibble c).getD 0) 0

/-- `hex_run`: `strtoull` to base 16, with the `0x` it skips in front of a digit. -/
def hexRun (s : List UInt8) : Option (Nat × List UInt8) :=
  if !isXdigit (charAt s 0) then none
  else
    let s := if charAt s 0 = 48 ∧ (charAt s 1 = 120 ∨ charAt s 1 = 88) ∧ isXdigit (charAt s 2) then s.drop 2
      else s
    if hexValue (s.takeWhile isXdigit) > 0xFFFFFFFF then none
    else some (hexValue (s.takeWhile isXdigit), s.dropWhile isXdigit)

/-- The digits a conversion of `sscanf` takes: white space is skipped, a sign counts for the width. -/
def scanDigits (width : Option Nat) (s : List UInt8) : Option (Bool × Nat × List UInt8) :=
  let s := skipWs s
  let sign := charAt s 0 = 45 ∨ charAt s 0 = 43
  let body := if sign then s.drop 1 else s
  let width := width.map fun w => if sign then w - 1 else w
  let run := body.takeWhile isDigit
  let ds := match width with
    | some w => run.take w
    | none => run
  if ds = [] then none else some (decide (charAt s 0 = 45), decValue ds, body.drop ds.length)

/-- `%wd` for at most four digits. -/
def scanInt (width : Nat) (s : List UInt8) : Option (Int × List UInt8) := do
  let (neg, n, s) ← scanDigits (some width) s
  return (if neg then -n else n, s)

/-- `%u`, `%wu`: `strtoul`, which takes a negative number modulo 2^64 and stops at its largest result, then the low 32 bits. -/
def scanUint (width : Option Nat) (s : List UInt8) : Option (Nat × List UInt8) := do
  let (neg, n, s) ← scanDigits width s
  let n := if n ≥ 2 ^ 64 then 2 ^ 64 - 1 else if neg then 2 ^ 64 - n else n
  return (n % 2 ^ 32, s)

/-- A literal character of a format. -/
def scanChars (cs : List UInt8) (s : List UInt8) : Option (List UInt8) :=
  if cs.isPrefixOf s then some (s.drop cs.length) else none

/-! ## Base64 (`base64.c`) -/

/-- A character of `b64_alphabet`. -/
def b64Char (n : Nat) : UInt8 :=
  (text "ABCDEFGHIJKLMNOPQRSTUVWXYZabcdefghijklmnopqrstuvwxyz0123456789+/").getD (n % 64) 0

def base64Encode : List UInt8 → List UInt8
  | [] => []
  | [a] =>
    let v := a.toNat <<< 16
    [b64Char (v >>> 18), b64Char (v >>> 12), 61, 61]
  | [a, b] =>
    let v := a.toNat <<< 16 ||| b.toNat <<< 8
    [b64Char (v >>> 18), b64Char (v >>> 12), b64Char (v >>> 6), 61]
  | a :: b :: c :: rest =>
    let v := a.toNat <<< 16 ||| b.toNat <<< 8 ||| c.toNat
    b64Char (v >>> 18) :: b64Char (v >>> 12) :: b64Char (v >>> 6) :: b64Char v :: base64Encode rest

/-! # Printed numbers

What `%llu` and `%0wu` print, digit by digit, and that the digits are read back as the number. -/

/-- The character of a digit. -/
def digit (n : Nat) : UInt8 := UInt8.ofNat (48 + n)

variable {n : Nat}

theorem toNat_digit (h : n < 10) : (digit n).toNat = 48 + n := by
  rw [digit, UInt8.toNat_ofNat', mod_eq_of_lt (by omega)]

variable {c : UInt8}

theorem isDigit_iff : isDigit c = true ↔ 48 ≤ c.toNat ∧ c.toNat ≤ 57 := by
  rw [isDigit, Bool.and_eq_true, decide_eq_true_iff, decide_eq_true_iff]
  exact Iff.rfl

@[simp] theorem isDigit_digit (h : n < 10) : isDigit (digit n) = true := by
  rw [isDigit_iff, toNat_digit h]
  omega

theorem digit_ne (h : n < 10) (hc : isDigit c = false) : digit n ≠ c := by
  intro heq
  rw [← heq, isDigit_digit h] at hc
  cases hc

/-! ## Decimal numbers -/

theorem decimal_of_lt (h : n < 10) : decimal n = [digit n] := by
  rw [decimal, toDigits_of_lt_base h, map_singleton, toNat_digitChar_of_lt_ten h, digit]

theorem decimal_of_ge (h : 10 ≤ n) : decimal n = decimal (n / 10) ++ [digit (n % 10)] := by
  have hlast : n % 10 < 10 := mod_lt _ (by decide)
  rw [decimal, toDigits_of_base_le (by decide) h, map_append, map_singleton,
    toNat_digitChar_of_lt_ten hlast, digit, decimal]

theorem decimal_ne_nil (n : Nat) : decimal n ≠ [] := by simp [decimal, toDigits_ne_nil]

theorem isDigit_of_mem_decimal (hc : c ∈ decimal n) : isDigit c = true := by
  induction n using Nat.strongRecOn with
  | ind n ih =>
    by_cases h : n < 10
    · rw [decimal_of_lt h, mem_singleton] at hc
      rw [hc, isDigit_digit h]
    · rw [decimal_of_ge (by omega), mem_append, mem_singleton] at hc
      rcases hc with hc | rfl
      · exact ih (n / 10) (by omega) hc
      · exact isDigit_digit (mod_lt _ (by decide))

theorem decValue_append_digit (ds : List UInt8) {d : Nat} (h : d < 10) :
    decValue (ds ++ [digit d]) = decValue ds * 10 + d := by
  simp only [decValue, foldl_append, foldl_cons, foldl_nil, toNat_digit h]
  omega

@[simp] theorem decValue_decimal (n : Nat) : decValue (decimal n) = n := by
  induction n using Nat.strongRecOn with
  | ind n ih =>
    by_cases h : n < 10
    · rw [decimal_of_lt h, ← nil_append [digit n], decValue_append_digit [] h]
      simp [decValue]
    · rw [decimal_of_ge (by omega), decValue_append_digit _ (mod_lt _ (by decide)), ih (n / 10) (by omega)]
      omega

theorem takeWhile_digits {ds rest : List UInt8} (hds : ∀ c ∈ ds, isDigit c = true) (hrest : isDigit (charAt rest 0) = false) :
    (ds ++ rest).takeWhile isDigit = ds ∧ (ds ++ rest).dropWhile isDigit = rest := by
  induction ds with
  | nil =>
    cases rest with
    | nil => exact ⟨rfl, rfl⟩
    | cons c rest =>
      have hc : isDigit c = false := hrest
      exact ⟨by simp [hc], by simp [hc]⟩
  | cons d ds ih =>
    obtain ⟨htake, hdrop⟩ := ih fun c hc => hds c (mem_cons_of_mem d hc)
    have hd := hds d mem_cons_self
    rw [cons_append, takeWhile_cons, dropWhile_cons, hd]
    simp [htake, hdrop]

/-! ## Numbers of a fixed width -/

theorem padded_one (h : n < 10) : padded 1 n = [digit n] := by
  rw [padded, decimal_of_lt h]
  rfl

theorem padded_succ {w : Nat} (hw : 1 ≤ w) (n : Nat) : padded (w + 1) n = padded w (n / 10) ++ [digit (n % 10)] := by
  unfold padded
  by_cases h : n < 10
  · rw [decimal_of_lt h, div_eq_of_lt h, mod_eq_of_lt h, decimal_of_lt (by decide : 0 < 10)]
    obtain ⟨k, rfl⟩ := Nat.exists_eq_add_of_le hw
    rw [length_singleton, length_singleton, Nat.add_sub_cancel, Nat.add_sub_cancel_left, add_comm, replicate_succ']
    rfl
  · rw [decimal_of_ge (by omega), length_append, length_singleton, Nat.add_sub_add_right, append_assoc]

theorem padded_two (h : n < 100) : padded 2 n = [digit (n / 10), digit (n % 10)] := by
  rw [padded_succ le_rfl, padded_one (by omega)]
  rfl

theorem padded_three (h : n < 1000) : padded 3 n = [digit (n / 100), digit (n / 10 % 10), digit (n % 10)] := by
  rw [padded_succ (by decide), padded_two (by omega), Nat.div_div_eq_div_mul]
  rfl

theorem padded_four (h : n < 10000) :
    padded 4 n = [digit (n / 1000), digit (n / 100 % 10), digit (n / 10 % 10), digit (n % 10)] := by
  rw [padded_succ (by decide), padded_three (by omega), Nat.div_div_eq_div_mul, Nat.div_div_eq_div_mul]
  rfl

theorem decValue_digits_two (h : n < 100) : decValue [digit (n / 10), digit (n % 10)] = n := by
  simp only [decValue, foldl_cons, foldl_nil, toNat_digit (show n / 10 < 10 by omega),
    toNat_digit (show n % 10 < 10 by omega)]
  omega

end DvbIpiTools.Bim.Codec
