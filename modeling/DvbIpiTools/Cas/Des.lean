import DvbIpiTools.Helper.BeUtil
import Mathlib.Data.BitVec

set_option autoImplicit false

/-! # Single and triple DES (`cas/des.c`)

The S-boxes stand in tables that have the permutation P worked in, the key schedule in tables for the nibbles of a
half, and both halves of the block are kept rotated by one from `des_ip` to `des_fp`. A block is eight bytes. -/

namespace DvbIpiTools.Cas

open BeUtil

/-- A block of `DES_BLOCK_LEN` bytes. -/
abbrev DesBlock := Vector UInt8 8

/-! ## Tables -/

/-- `des_sp`: the S-boxes through P, rotated by one. -/
def desSp : List (List (BitVec 32)) := [
  [0x1010400, 0, 0x10000, 0x1010404, 0x1010004, 0x10404, 4, 0x10000, 0x400, 0x1010400, 0x1010404, 0x400,
    0x1000404, 0x1010004, 0x1000000, 4, 0x404, 0x1000400, 0x1000400, 0x10400, 0x10400, 0x1010000, 0x1010000,
    0x1000404, 0x10004, 0x1000004, 0x1000004, 0x10004, 0, 0x404, 0x10404, 0x1000000, 0x10000, 0x1010404, 4,
    0x1010000, 0x1010400, 0x1000000, 0x1000000, 0x400, 0x1010004, 0x10000, 0x10400, 0x1000004, 0x400, 4,
    0x1000404, 0x10404, 0x1010404, 0x10004, 0x1010000, 0x1000404, 0x1000004, 0x404, 0x10404, 0x1010400,
    0x404, 0x1000400, 0x1000400, 0, 0x10004, 0x10400, 0, 0x1010004],
  [0x80108020, 0x80008000, 0x8000, 0x108020, 0x100000, 0x20, 0x80100020, 0x80008020, 0x80000020, 0x80108020,
    0x80108000, 0x80000000, 0x80008000, 0x100000, 0x20, 0x80100020, 0x108000, 0x100020, 0x80008020, 0,
    0x80000000, 0x8000, 0x108020, 0x80100000, 0x100020, 0x80000020, 0, 0x108000, 0x8020, 0x80108000,
    0x80100000, 0x8020, 0, 0x108020, 0x80100020, 0x100000, 0x80008020, 0x80100000, 0x80108000, 0x8000,
    0x80100000, 0x80008000, 0x20, 0x80108020, 0x108020, 0x20, 0x8000, 0x80000000, 0x8020, 0x80108000,
    0x100000, 0x80000020, 0x100020, 0x80008020, 0x80000020, 0x100020, 0x108000, 0, 0x80008000, 0x8020,
    0x80000000, 0x80100020, 0x80108020, 0x108000],
  [0x208, 0x8020200, 0, 0x8020008, 0x8000200, 0, 0x20208, 0x8000200, 0x20008, 0x8000008, 0x8000008, 0x20000,
    0x8020208, 0x20008, 0x8020000, 0x208, 0x8000000, 8, 0x8020200, 0x200, 0x20200, 0x8020000, 0x8020008,
    0x20208, 0x8000208, 0x20200, 0x20000, 0x8000208, 8, 0x8020208, 0x200, 0x8000000, 0x8020200, 0x8000000,
    0x20008, 0x208, 0x20000, 0x8020200, 0x8000200, 0, 0x200, 0x20008, 0x8020208, 0x8000200, 0x8000008,
    0x200, 0, 0x8020008, 0x8000208, 0x20000, 0x8000000, 0x8020208, 8, 0x20208, 0x20200, 0x8000008,
    0x8020000, 0x8000208, 0x208, 0x8020000, 0x20208, 8, 0x8020008, 0x20200],
  [0x802001, 0x2081, 0x2081, 0x80, 0x802080, 0x800081, 0x800001, 0x2001, 0, 0x802000, 0x802000, 0x802081,
    0x81, 0, 0x800080, 0x800001, 1, 0x2000, 0x800000, 0x802001, 0x80, 0x800000, 0x2001, 0x2080, 0x800081, 1,
    0x2080, 0x800080, 0x2000, 0x802080, 0x802081, 0x81, 0x800080, 0x800001, 0x802000, 0x802081, 0x81, 0, 0,
    0x802000, 0x2080, 0x800080, 0x800081, 1, 0x802001, 0x2081, 0x2081, 0x80, 0x802081, 0x81, 1, 0x2000,
    0x800001, 0x2001, 0x802080, 0x800081, 0x2001, 0x2080, 0x800000, 0x802001, 0x80, 0x800000, 0x2000,
    0x802080],
  [0x100, 0x2080100, 0x2080000, 0x42000100, 0x80000, 0x100, 0x40000000, 0x2080000, 0x40080100, 0x80000,
    0x2000100, 0x40080100, 0x42000100, 0x42080000, 0x80100, 0x40000000, 0x2000000, 0x40080000, 0x40080000,
    0, 0x40000100, 0x42080100, 0x42080100, 0x2000100, 0x42080000, 0x40000100, 0, 0x42000000, 0x2080100,
    0x2000000, 0x42000000, 0x80100, 0x80000, 0x42000100, 0x100, 0x2000000, 0x40000000, 0x2080000,
    0x42000100, 0x40080100, 0x2000100, 0x40000000, 0x42080000, 0x2080100, 0x40080100, 0x100, 0x2000000,
    0x42080000, 0x42080100, 0x80100, 0x42000000, 0x42080100, 0x2080000, 0, 0x40080000, 0x42000000, 0x80100,
    0x2000100, 0x40000100, 0x80000, 0, 0x40080000, 0x2080100, 0x40000100],
  [0x20000010, 0x20400000, 0x4000, 0x20404010, 0x20400000, 0x10, 0x20404010, 0x400000, 0x20004000, 0x404010,
    0x400000, 0x20000010, 0x400010, 0x20004000, 0x20000000, 0x4010, 0, 0x400010, 0x20004010, 0x4000,
    0x404000, 0x20004010, 0x10, 0x20400010, 0x20400010, 0, 0x404010, 0x20404000, 0x4010, 0x404000,
    0x20404000, 0x20000000, 0x20004000, 0x10, 0x20400010, 0x404000, 0x20404010, 0x400000, 0x4010,
    0x20000010, 0x400000, 0x20004000, 0x20000000, 0x4010, 0x20000010, 0x20404010, 0x404000, 0x20400000,
    0x404010, 0x20404000, 0, 0x20400010, 0x10, 0x4000, 0x20400000, 0x404010, 0x4000, 0x400010, 0x20004010,
    0, 0x20404000, 0x20000000, 0x400010, 0x20004010],
  [0x200000, 0x4200002, 0x4000802, 0, 0x800, 0x4000802, 0x200802, 0x4200800, 0x4200802, 0x200000, 0,
    0x4000002, 2, 0x4000000, 0x4200002, 0x802, 0x4000800, 0x200802, 0x200002, 0x4000800, 0x4000002,
    0x4200000, 0x4200800, 0x200002, 0x4200000, 0x800, 0x802, 0x4200802, 0x200800, 2, 0x4000000, 0x200800,
    0x4000000, 0x200800, 0x200000, 0x4000802, 0x4000802, 0x4200002, 0x4200002, 2, 0x200002, 0x4000000,
    0x4000800, 0x200000, 0x4200800, 0x802, 0x200802, 0x4200800, 0x802, 0x4000002, 0x4200802, 0x4200000,
    0x200800, 0, 2, 0x4200802, 0, 0x200802, 0x4200000, 0x800, 0x4000002, 0x4000800, 0x800, 0x200002],
  [0x10001040, 0x1000, 0x40000, 0x10041040, 0x10000000, 0x10001040, 0x40, 0x10000000, 0x40040, 0x10040000,
    0x10041040, 0x41000, 0x10041000, 0x41040, 0x1000, 0x40, 0x10040000, 0x10000040, 0x10001000, 0x1040,
    0x41000, 0x40040, 0x10040040, 0x10041000, 0x1040, 0, 0, 0x10040040, 0x10000040, 0x10001000, 0x41040,
    0x40000, 0x41040, 0x40000, 0x10041000, 0x1000, 0x40, 0x10040040, 0x1000, 0x41040, 0x10001000, 0x40,
    0x10000040, 0x10040000, 0x10040040, 0x10000000, 0x40000, 0x10001040, 0, 0x10041040, 0x40040, 0x10000040,
    0x10040000, 0x10001000, 0x10001040, 0, 0x10041040, 0x41000, 0x41000, 0x1040, 0x1040, 0x40040,
    0x10000000, 0x10041000]]

def desKsC : List (List (BitVec 32)) := [
  [0, 0x40000, 0x2000, 0x42000, 1, 0x40001, 0x2001, 0x42001, 0x2000000, 0x2040000, 0x2002000, 0x2042000,
    0x2000001, 0x2040001, 0x2002001, 0x2042001],
  [0, 0x10000, 0x10, 0x10010, 0x400, 0x10400, 0x410, 0x10410, 0x1000000, 0x1010000, 0x1000010, 0x1010010,
    0x1000400, 0x1010400, 0x1000410, 0x1010410],
  [0, 0x80000, 0x8000000, 0x8080000, 0x100, 0x80100, 0x8000100, 0x8080100, 0, 0x80000, 0x8000000, 0x8080000,
    0x100, 0x80100, 0x8000100, 0x8080100],
  [0, 0x20, 0x800, 0x820, 0x20000000, 0x20000020, 0x20000800, 0x20000820, 2, 0x22, 0x802, 0x822, 0x20000002,
    0x20000022, 0x20000802, 0x20000822],
  [0, 4, 0x100000, 0x100004, 0, 4, 0x100000, 0x100004, 0x10000000, 0x10000004, 0x10100000, 0x10100004,
    0x10000000, 0x10000004, 0x10100000, 0x10100004],
  [0, 0x4000000, 0x200000, 0x4200000, 0, 0x4000000, 0x200000, 0x4200000, 0x200, 0x4000200, 0x200200,
    0x4200200, 0x200, 0x4000200, 0x200200, 0x4200200],
  [0, 0x1000, 8, 0x1008, 0x20000, 0x21000, 0x20008, 0x21008, 0, 0x1000, 8, 0x1008, 0x20000, 0x21000,
    0x20008, 0x21008]]

def desKsD : List (List (BitVec 32)) := [
  [0, 1, 0x8000000, 0x8000001, 0x2000, 0x2001, 0x8002000, 0x8002001, 2, 3, 0x8000002, 0x8000003, 0x2002,
    0x2003, 0x8002002, 0x8002003],
  [0, 4, 0, 4, 0x20000, 0x20004, 0x20000, 0x20004, 0x200, 0x204, 0x200, 0x204, 0x20200, 0x20204, 0x20200,
    0x20204],
  [0, 0x1000, 0x80000, 0x81000, 0, 0x1000, 0x80000, 0x81000, 0x4000000, 0x4001000, 0x4080000, 0x4081000,
    0x4000000, 0x4001000, 0x4080000, 0x4081000],
  [0, 0x200000, 0, 0x200000, 0x10, 0x200010, 0x10, 0x200010, 0x20000000, 0x20200000, 0x20000000, 0x20200000,
    0x20000010, 0x20200010, 0x20000010, 0x20200010],
  [0, 0x100, 0x2000000, 0x2000100, 0x20, 0x120, 0x2000020, 0x2000120, 0x400, 0x500, 0x2000400, 0x2000500,
    0x420, 0x520, 0x2000420, 0x2000520],
  [0, 0x10000000, 0x800, 0x10000800, 8, 0x10000008, 0x808, 0x10000808, 0x100000, 0x10100000, 0x100800,
    0x10100800, 0x100008, 0x10100008, 0x100808, 0x10100808],
  [0, 0x40000, 0x1000000, 0x1040000, 0, 0x40000, 0x1000000, 0x1040000, 0x10000, 0x50000, 0x1010000,
    0x1050000, 0x10000, 0x50000, 0x1010000, 0x1050000]]

/-- An entry of a table. -/
def desEntry (t : List (List (BitVec 32))) (row : Nat) (i : BitVec 32) : BitVec 32 := (t.getD row []).getD i.toNat 0

/-! ## The key schedule -/

def builtinParity (b : Nat) : Bool := (List.range 32).foldl (fun p i => p ^^ b.testBit i) false

/-- `des_key_expand`: seven bits of the key in each byte, the parity odd. -/
def desKeyExpand (key : Vector UInt8 7) : DesBlock :=
  let v := beGet key.toList 0 7
  Vector.ofFn fun i : Fin 8 =>
    let b := (v >>> (49 - 7 * i.val) &&& 0x7F) <<< 1
    UInt8.ofNat (b ||| if builtinParity b then 0 else 1)

/-- `des_key_t`: a pair of words for each round, `k[2 * i]` and `k[2 * i + 1]`. -/
structure DesKey where
  k : Fin 16 → BitVec 32 × BitVec 32

def ksLookup (t : List (List (BitVec 32))) (half : BitVec 32) : BitVec 32 :=
  desEntry t 0 (half >>> 24 &&& 15) ||| desEntry t 1 (half >>> 20 &&& 15) ||| desEntry t 2 (half >>> 16 &&& 15) |||
    desEntry t 3 (half >>> 12 &&& 15) ||| desEntry t 4 (half >>> 8 &&& 15) ||| desEntry t 5 (half >>> 4 &&& 15) |||
    desEntry t 6 (half &&& 15)

/-- A step of the bit transpose in `des_set_key`. -/
def transposeStep (x : BitVec 64) (n : Nat) (mask : BitVec 64) : BitVec 64 :=
  let t := (x ^^^ x >>> n) &&& mask
  x ^^^ (t ^^^ t <<< n)

/-- The transposed key. -/
def desTranspose (x : BitVec 64) : BitVec 64 :=
  transposeStep (transposeStep (transposeStep x 7 0x00AA00AA00AA00AA) 14 0x0000CCCC0000CCCC) 28 0x00000000F0F0F0F0

/-- The first half of the permuted key. -/
def desKeyC (x : BitVec 64) : BitVec 32 := (x >>> 36).setWidth 32

/-- The second half. -/
def desKeyD (x : BitVec 64) : BitVec 32 :=
  (x >>> 8 &&& 0xFF).setWidth 32 <<< 20 ||| (x >>> 16 &&& 0xFF).setWidth 32 <<< 12 |||
    (x >>> 24 &&& 0xFF).setWidth 32 <<< 4 ||| (x >>> 32 &&& 0x0F).setWidth 32

/-- A half of the key one round on: rotated by one or two places, as the bits of `0x7EFC` say. -/
def rotateHalf (half : BitVec 32) (i : Nat) : BitVec 32 :=
  let s := 1 + (0x7EFC >>> i &&& 1)
  (half <<< s ||| half >>> (28 - s)) &&& 0x0FFFFFFF

/-- A half of the key in round `i`. -/
def halfAt (half : BitVec 32) : Nat → BitVec 32
  | 0 => rotateHalf half 0
  | i + 1 => rotateHalf (halfAt half i) (i + 1)

/-- The two words of a round from the halves of the key. -/
def roundWords (c d : BitVec 32) : BitVec 32 × BitVec 32 :=
  let wc := ksLookup desKsC c
  let wd := ksLookup desKsD d
  ((wc &&& 0xFFFF0000#32) ||| wd >>> 16, wc <<< 16 ||| (wd &&& 0xFFFF#32))

/-- The schedule of a key whose bytes have been gathered into a word, the first byte lowest. -/
def desSchedule (x : BitVec 64) : DesKey :=
  let t := desTranspose x
  ⟨fun i => roundWords (halfAt (desKeyC t) i) (halfAt (desKeyD t) i)⟩

def desSetKey (key : DesBlock) : DesKey := desSchedule (BitVec.ofNat 64 (beGet key.toList.reverse 0 8))

/-! ## The rounds -/

def rol32 (v : BitVec 32) (n : Nat) : BitVec 32 := v <<< n ||| v >>> (32 - n)

/-- `t = ((a >> n) ^ b) & mask; b ^= t; a ^= t << n`. -/
def exchange (n : Nat) (mask a b : BitVec 32) : BitVec 32 × BitVec 32 :=
  let t := (a >>> n ^^^ b) &&& mask
  (a ^^^ t <<< n, b ^^^ t)

def desIp (l r : BitVec 32) : BitVec 32 × BitVec 32 :=
  let (l, r) := exchange 4 0x0F0F0F0F l r
  let (l, r) := exchange 16 0x0000FFFF l r
  let (r, l) := exchange 2 0x33333333 r l
  let (r, l) := exchange 8 0x00FF00FF r l
  let r := rol32 r 1
  let (r, l) := exchange 0 0xAAAAAAAA r l
  (rol32 l 1, r)

def desFp (l r : BitVec 32) : BitVec 32 × BitVec 32 :=
  let l := rol32 l 31
  let (r, l) := exchange 0 0xAAAAAAAA r l
  let r := rol32 r 31
  let (r, l) := exchange 8 0x00FF00FF r l
  let (r, l) := exchange 2 0x33333333 r l
  let (l, r) := exchange 16 0x0000FFFF l r
  let (l, r) := exchange 4 0x0F0F0F0F l r
  (l, r)

def desF (r : BitVec 32) (k : BitVec 32 × BitVec 32) : BitVec 32 :=
  let a := rol32 r 28 ^^^ k.1
  let b := r ^^^ k.2
  desEntry desSp 6 (a &&& 63) ||| desEntry desSp 4 (a >>> 8 &&& 63) ||| desEntry desSp 2 (a >>> 16 &&& 63) |||
    desEntry desSp 0 (a >>> 24 &&& 63) ||| desEntry desSp 7 (b &&& 63) ||| desEntry desSp 5 (b >>> 8 &&& 63) |||
    desEntry desSp 3 (b >>> 16 &&& 63) ||| desEntry desSp 1 (b >>> 24 &&& 63)

/-- The body of the loop in `des_rounds`: two rounds, with the words of the rounds `a` and `b`. -/
def desTwoRounds (ks : DesKey) (a b : Fin 16) (lr : BitVec 32 × BitVec 32) : BitVec 32 × BitVec 32 :=
  let l := lr.1 ^^^ desF lr.2 (ks.k a)
  let r := lr.2 ^^^ desF l (ks.k b)
  (l, r)

/-- The rounds of pass `i` of the loop: the words `4 * i` and `4 * i + 2`, or `30 - 4 * i` and `28 - 4 * i`. -/
def desPass (decrypt : Bool) (i : Nat) : Fin 16 × Fin 16 :=
  if decrypt then (Fin.ofNat 16 (15 - 2 * i), Fin.ofNat 16 (14 - 2 * i))
  else (Fin.ofNat 16 (2 * i), Fin.ofNat 16 (2 * i + 1))

def desRounds (ks : DesKey) (decrypt : Bool) (l r : BitVec 32) : BitVec 32 × BitVec 32 :=
  let (l, r) := (List.range 8).foldl
    (fun lr i => desTwoRounds ks (desPass decrypt i).1 (desPass decrypt i).2 lr) (l, r)
  (r, l)

/-! ## Blocks -/

/-- The halves of a block (`be32_get`). -/
def blockGet (b : DesBlock) : BitVec 32 × BitVec 32 :=
  (BitVec.ofNat 32 (beGet b.toList 0 4), BitVec.ofNat 32 (beGet b.toList 4 4))

/-- The block of two halves (`be32_put`). -/
def blockPut (lr : BitVec 32 × BitVec 32) : DesBlock :=
  ⟨(bePut 4 lr.1.toNat ++ bePut 4 lr.2.toNat).toArray, by simp⟩

def desCrypt (ks : DesKey) (block : DesBlock) (decrypt : Bool) : DesBlock :=
  let (l, r) := blockGet block
  let (l, r) := desIp l r
  let (l, r) := desRounds ks decrypt l r
  blockPut (desFp l r)

def desEncrypt (ks : DesKey) (block : DesBlock) : DesBlock := desCrypt ks block false

def desDecrypt (ks : DesKey) (block : DesBlock) : DesBlock := desCrypt ks block true

/-- `des3_decrypt`: between the stages the permutations cancel. -/
def des3Decrypt (k1 k2 k3 : DesKey) (block : DesBlock) : DesBlock :=
  let (l, r) := blockGet block
  let (l, r) := desIp l r
  let (l, r) := desRounds k3 true l r
  let (l, r) := desRounds k2 false l r
  let (l, r) := desRounds k1 true l r
  blockPut (desFp l r)

end DvbIpiTools.Cas
