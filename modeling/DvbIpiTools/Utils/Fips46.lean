import DvbIpiTools.Utils.XorLinear

set_option autoImplicit false

/-! # The Data Encryption Standard

FIPS 46-3 as published: the bits of a word are numbered from 1 at its left end, a permutation lists for each bit of its
result the bit of the argument it is taken from. -/

namespace DvbIpiTools.Fips46

open XorLinear

/-! ## Tables -/

/-- IP. -/
def tableIP : List Nat := [
  58, 50, 42, 34, 26, 18, 10, 2, 60, 52, 44, 36, 28, 20, 12, 4, 62, 54, 46, 38, 30, 22, 14, 6,
  64, 56, 48, 40, 32, 24, 16, 8, 57, 49, 41, 33, 25, 17, 9, 1, 59, 51, 43, 35, 27, 19, 11, 3,
  61, 53, 45, 37, 29, 21, 13, 5, 63, 55, 47, 39, 31, 23, 15, 7]

/-- The inverse of IP. -/
def tableFP : List Nat := [
  40, 8, 48, 16, 56, 24, 64, 32, 39, 7, 47, 15, 55, 23, 63, 31, 38, 6, 46, 14, 54, 22, 62, 30,
  37, 5, 45, 13, 53, 21, 61, 29, 36, 4, 44, 12, 52, 20, 60, 28, 35, 3, 43, 11, 51, 19, 59, 27,
  34, 2, 42, 10, 50, 18, 58, 26, 33, 1, 41, 9, 49, 17, 57, 25]

/-- E. -/
def tableE : List Nat := [
  32, 1, 2, 3, 4, 5, 4, 5, 6, 7, 8, 9, 8, 9, 10, 11, 12, 13, 12, 13, 14, 15, 16, 17,
  16, 17, 18, 19, 20, 21, 20, 21, 22, 23, 24, 25, 24, 25, 26, 27, 28, 29, 28, 29, 30, 31, 32, 1]

/-- P. -/
def tableP : List Nat := [
  16, 7, 20, 21, 29, 12, 28, 17, 1, 15, 23, 26, 5, 18, 31, 10, 2, 8, 24, 14, 32, 27, 3, 9,
  19, 13, 30, 6, 22, 11, 4, 25]

/-- PC-1. -/
def tablePC1 : List Nat := [
  57, 49, 41, 33, 25, 17, 9, 1, 58, 50, 42, 34, 26, 18, 10, 2, 59, 51, 43, 35, 27, 19, 11, 3, 60, 52, 44, 36,
  63, 55, 47, 39, 31, 23, 15, 7, 62, 54, 46, 38, 30, 22, 14, 6, 61, 53, 45, 37, 29, 21, 13, 5, 28, 20, 12, 4]

/-- PC-2. -/
def tablePC2 : List Nat := [
  14, 17, 11, 24, 1, 5, 3, 28, 15, 6, 21, 10, 23, 19, 12, 4, 26, 8, 16, 7, 27, 20, 13, 2,
  41, 52, 31, 37, 47, 55, 30, 40, 51, 45, 33, 48, 44, 49, 39, 56, 34, 53, 46, 42, 50, 36, 29, 32]

/-- S1 to S8, four rows each. -/
def tableS : List (List (List Nat)) := [
  [[14, 4, 13, 1, 2, 15, 11, 8, 3, 10, 6, 12, 5, 9, 0, 7],
    [0, 15, 7, 4, 14, 2, 13, 1, 10, 6, 12, 11, 9, 5, 3, 8],
    [4, 1, 14, 8, 13, 6, 2, 11, 15, 12, 9, 7, 3, 10, 5, 0],
    [15, 12, 8, 2, 4, 9, 1, 7, 5, 11, 3, 14, 10, 0, 6, 13]],
  [[15, 1, 8, 14, 6, 11, 3, 4, 9, 7, 2, 13, 12, 0, 5, 10],
    [3, 13, 4, 7, 15, 2, 8, 14, 12, 0, 1, 10, 6, 9, 11, 5],
    [0, 14, 7, 11, 10, 4, 13, 1, 5, 8, 12, 6, 9, 3, 2, 15],
    [13, 8, 10, 1, 3, 15, 4, 2, 11, 6, 7, 12, 0, 5, 14, 9]],
  [[10, 0, 9, 14, 6, 3, 15, 5, 1, 13, 12, 7, 11, 4, 2, 8],
    [13, 7, 0, 9, 3, 4, 6, 10, 2, 8, 5, 14, 12, 11, 15, 1],
    [13, 6, 4, 9, 8, 15, 3, 0, 11, 1, 2, 12, 5, 10, 14, 7],
    [1, 10, 13, 0, 6, 9, 8, 7, 4, 15, 14, 3, 11, 5, 2, 12]],
  [[7, 13, 14, 3, 0, 6, 9, 10, 1, 2, 8, 5, 11, 12, 4, 15],
    [13, 8, 11, 5, 6, 15, 0, 3, 4, 7, 2, 12, 1, 10, 14, 9],
    [10, 6, 9, 0, 12, 11, 7, 13, 15, 1, 3, 14, 5, 2, 8, 4],
    [3, 15, 0, 6, 10, 1, 13, 8, 9, 4, 5, 11, 12, 7, 2, 14]],
  [[2, 12, 4, 1, 7, 10, 11, 6, 8, 5, 3, 15, 13, 0, 14, 9],
    [14, 11, 2, 12, 4, 7, 13, 1, 5, 0, 15, 10, 3, 9, 8, 6],
    [4, 2, 1, 11, 10, 13, 7, 8, 15, 9, 12, 5, 6, 3, 0, 14],
    [11, 8, 12, 7, 1, 14, 2, 13, 6, 15, 0, 9, 10, 4, 5, 3]],
  [[12, 1, 10, 15, 9, 2, 6, 8, 0, 13, 3, 4, 14, 7, 5, 11],
    [10, 15, 4, 2, 7, 12, 9, 5, 6, 1, 13, 14, 0, 11, 3, 8],
    [9, 14, 15, 5, 2, 8, 12, 3, 7, 0, 4, 10, 1, 13, 11, 6],
    [4, 3, 2, 12, 9, 5, 15, 10, 11, 14, 1, 7, 6, 0, 8, 13]],
  [[4, 11, 2, 14, 15, 0, 8, 13, 3, 12, 9, 7, 5, 10, 6, 1],
    [13, 0, 11, 7, 4, 9, 1, 10, 14, 3, 5, 12, 2, 15, 8, 6],
    [1, 4, 11, 13, 12, 3, 7, 14, 10, 15, 6, 8, 0, 5, 9, 2],
    [6, 11, 13, 8, 1, 4, 10, 7, 9, 5, 0, 15, 14, 2, 3, 12]],
  [[13, 2, 8, 4, 6, 15, 11, 1, 10, 9, 3, 14, 5, 0, 12, 7],
    [1, 15, 13, 8, 10, 3, 7, 4, 12, 5, 6, 11, 0, 14, 9, 2],
    [7, 11, 4, 1, 9, 12, 14, 2, 0, 6, 10, 13, 15, 3, 5, 8],
    [2, 1, 14, 7, 4, 10, 8, 13, 15, 12, 9, 0, 3, 5, 6, 11]]]

/-- The rotations of the halves of the key before each round. -/
def rotations : List Nat := [1, 1, 2, 2, 2, 2, 2, 2, 1, 2, 2, 2, 2, 2, 2, 1]

/-! ## The cipher -/

/-- The word whose bits are those of `x` that the table lists. -/
def permute {n : Nat} (m : Nat) (table : List Nat) (x : BitVec n) : BitVec m :=
  table.foldl (fun y p => y <<< 1 ^^^ if x.getLsbD (n - p) then 1 else 0) 0

/-- An S-box: the outer bits of its argument choose the row, the inner ones the column. -/
def sbox (j : Nat) (b : BitVec 6) : BitVec 4 :=
  let row := 2 * (b >>> 5).toNat + (b &&& 1).toNat
  let col := (b >>> 1 &&& 15).toNat
  BitVec.ofNat 4 (((tableS.getD j []).getD row []).getD col 0)

/-- Eight words of four bits side by side. -/
def join8 (s1 s2 s3 s4 s5 s6 s7 s8 : BitVec 4) : BitVec (4 + 4 + 4 + 4 + 4 + 4 + 4 + 4) :=
  s1 ++ s2 ++ s3 ++ s4 ++ s5 ++ s6 ++ s7 ++ s8

/-- The cipher function `f(R, K)`. -/
def cipherF (k : BitVec 48) (r : BitVec 32) : BitVec 32 :=
  let b := permute 48 tableE r ^^^ k
  permute 32 tableP (join8 (sbox 0 (b.extractLsb' 42 6)) (sbox 1 (b.extractLsb' 36 6)) (sbox 2 (b.extractLsb' 30 6))
    (sbox 3 (b.extractLsb' 24 6)) (sbox 4 (b.extractLsb' 18 6)) (sbox 5 (b.extractLsb' 12 6))
    (sbox 6 (b.extractLsb' 6 6)) (sbox 7 (b.extractLsb' 0 6)))

/-- A half of the key rotated left. -/
def rotateKey (half : BitVec 28) (n : Nat) : BitVec 28 := half.rotateLeft n

/-- A half of the key after the rotations before round `i`. -/
def keyHalf (half : BitVec 28) (i : Nat) : BitVec 28 := (rotations.take (i + 1)).foldl rotateKey half

/-- The key of round `i`, from 0. -/
def roundKey (key : BitVec 64) (i : Nat) : BitVec 48 :=
  let cd := permute 56 tablePC1 key
  permute 48 tablePC2 (keyHalf (cd.extractLsb' 28 28) i ++ keyHalf (cd.extractLsb' 0 28) i)

/-- One round. -/
def round (k : BitVec 48) (lr : BitVec 32 × BitVec 32) : BitVec 32 × BitVec 32 := (lr.2, lr.1 ^^^ cipherF k lr.2)

/-- Enciphering: the halves change places behind the last round. -/
def encipher (key block : BitVec 64) : BitVec 64 :=
  let x := permute 64 tableIP block
  let lr := (List.range 16).foldl (fun lr i => round (roundKey key i) lr) (x.extractLsb' 32 32, x.extractLsb' 0 32)
  permute 64 tableFP (lr.2 ++ lr.1)

end DvbIpiTools.Fips46
