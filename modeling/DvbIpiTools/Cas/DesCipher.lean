import DvbIpiTools.Cas.DesStandard

set_option autoImplicit false

/-! # DES as a whole

The words of the key schedule are the groups of the published round keys, the rounds are a network of Feistel's kind on
the rotated halves, and between the stages of triple DES the two permutations cancel. -/

namespace DvbIpiTools.Cas

open XorLinear WordBytes BeUtil List

/-! ## The words of the key schedule -/

/-- An entry of a table for a nibble. -/
def nibbleEntry (t : List (List (BitVec 32))) (row : Nat) (n : BitVec 4) : BitVec 32 := desEntry t row (n.setWidth 32)

/-- The tables of the key schedule have linear rows, and no two rows have a bit in common. -/
theorem keyTables_checked :
    (∀ t ∈ [desKsC, desKsD], ∀ row < 7, ∀ x y : Fin (2 ^ 4), nibbleEntry t row (BitVec.ofFin x ^^^ BitVec.ofFin y) =
      nibbleEntry t row (BitVec.ofFin x) ^^^ nibbleEntry t row (BitVec.ofFin y)) ∧
    (∀ t ∈ [desKsC, desKsD], ∀ row < 7, ∀ x : Fin (2 ^ 4),
      Within (nibbleEntry t row (BitVec.ofFin x)) (nibbleEntry t row 15)) ∧
    ∀ t ∈ [desKsC, desKsD], apart (nibbleEntry t 0 15) [nibbleEntry t 1 15, nibbleEntry t 2 15,
      nibbleEntry t 3 15, nibbleEntry t 4 15, nibbleEntry t 5 15, nibbleEntry t 6 15] = true := by
  decide +kernel

variable {t : List (List (BitVec 32))} (ht : t ∈ [desKsC, desKsD])

include ht

theorem nibbleEntry_linear {row : Nat} (hrow : row < 7) : Linear (nibbleEntry t row) :=
  fun x y => (keyTables_checked).1 t ht row hrow x.toFin y.toFin

theorem nibbleEntry_within {row : Nat} (hrow : row < 7)
    (x : BitVec 4) : Within (nibbleEntry t row x) (nibbleEntry t row 15) :=
  (keyTables_checked).2.1 t ht row hrow x.toFin

/-- The lookup as a sum over the nibbles. -/
def nibbleSum (t : List (List (BitVec 32))) (half : BitVec 32) : BitVec 32 :=
  nibbleEntry t 0 (half.extractLsb' 24 4) ^^^ nibbleEntry t 1 (half.extractLsb' 20 4) ^^^
    nibbleEntry t 2 (half.extractLsb' 16 4) ^^^ nibbleEntry t 3 (half.extractLsb' 12 4) ^^^
    nibbleEntry t 4 (half.extractLsb' 8 4) ^^^ nibbleEntry t 5 (half.extractLsb' 4 4) ^^^
    nibbleEntry t 6 (half.extractLsb' 0 4)

theorem nibbleSum_linear : Linear (nibbleSum t) := by
  have hrow : ∀ row k, row < 7 → Linear fun half : BitVec 32 => nibbleEntry t row (half.extractLsb' k 4) :=
    fun row k h => (nibbleEntry_linear ht h).comp (extractLsb'_linear k)
  exact (((((hrow 0 24 (by decide)).xor (hrow 1 20 (by decide))).xor (hrow 2 16 (by decide))).xor
    (hrow 3 12 (by decide))).xor (hrow 4 8 (by decide))).xor (hrow 5 4 (by decide)) |>.xor (hrow 6 0 (by decide))

theorem ksLookup_eq (half : BitVec 32) : ksLookup t half = nibbleSum t half := by
  have hnibble : ∀ k, half >>> k &&& 15 = (half.extractLsb' k 4).setWidth 32 := by
    intro k
    refine BitVec.eq_of_getLsbD_eq fun i hi => ?_
    have h15 : (15 : BitVec 32).getLsbD i = decide (i < 4) := by
      rw [show (15 : BitVec 32) = BitVec.ofNat 32 (2 ^ 4 - 1) from rfl, BitVec.getLsbD_ofNat, Nat.testBit_two_pow_sub_one,
        decide_eq_true hi, Bool.true_and]
    rw [BitVec.getLsbD_and, BitVec.getLsbD_ushiftRight, BitVec.getLsbD_setWidth, BitVec.getLsbD_extractLsb', h15,
      decide_eq_true hi, Bool.true_and, Bool.and_comm]
  have hlow : half &&& 15 = (half.extractLsb' 0 4).setWidth 32 := by rw [← hnibble, BitVec.ushiftRight_zero]
  have hin : ∀ row k, row < 7 → Within (nibbleEntry t row (half.extractLsb' k 4)) (nibbleEntry t row 15) :=
    fun row k h => nibbleEntry_within ht h _
  have hor := foldl_or_eq_xor (hin 0 24 (by decide)) (.cons (hin 1 20 (by decide)) (.cons (hin 2 16 (by decide))
    (.cons (hin 3 12 (by decide)) (.cons (hin 4 8 (by decide)) (.cons (hin 5 4 (by decide))
      (.cons (hin 6 0 (by decide)) .nil)))))) ((keyTables_checked).2.2 t ht)
  simp only [foldl_cons, foldl_nil] at hor
  rw [ksLookup, hnibble, hnibble, hnibble, hnibble, hnibble, hnibble, hlow]
  exact hor

omit ht

/-- The words of a round from the halves of the key are the groups of the round key. -/
theorem roundWords_eq (c d : BitVec 28) : roundWords (c.setWidth 32) (d.setWidth 32) =
    (oddGroups (Fips46.permute 48 Fips46.tablePC2 (c ++ d)), evenGroups (Fips46.permute 48 Fips46.tablePC2 (c ++ d))) := by
  have hfirst : ∀ x y : BitVec 32, (x &&& 0xFFFF0000#32) ||| y >>> 16 = (x &&& 0xFFFF0000#32) ^^^ y >>> 16 := fun x y =>
    (Within.and x 0xFFFF0000#32).or_eq_xor ((Within.allOnes y).shiftRight 16) (by decide)
  have hsecond : ∀ x y : BitVec 32, x <<< 16 ||| (y &&& 0xFFFF#32) = x <<< 16 ^^^ (y &&& 0xFFFF#32) := fun x y =>
    ((Within.allOnes x).shiftLeft 16).or_eq_xor (Within.and y 0xFFFF#32) (by decide)
  have hc : Linear fun c : BitVec 28 => nibbleSum desKsC (c.setWidth 32) :=
    (nibbleSum_linear (by decide)).comp setWidth_linear
  have hd : Linear fun d : BitVec 28 => nibbleSum desKsD (d.setWidth 32) :=
    (nibbleSum_linear (by decide)).comp setWidth_linear
  have hodd : Linear₂ fun c d : BitVec 28 =>
      (nibbleSum desKsC (c.setWidth 32) &&& 0xFFFF0000#32) ^^^ nibbleSum desKsD (d.setWidth 32) >>> 16 :=
    ((and_linear _).comp hc).xor₂ ((shiftRight_linear 16).comp hd)
  have heven : Linear₂ fun c d : BitVec 28 =>
      nibbleSum desKsC (c.setWidth 32) <<< 16 ^^^ (nibbleSum desKsD (d.setWidth 32) &&& 0xFFFF) :=
    ((shiftLeft_linear 16).comp hc).xor₂ ((and_linear _).comp hd)
  have hkey : Linear₂ fun c d : BitVec 28 => Fips46.permute 48 Fips46.tablePC2 (c ++ d) :=
    (permute_linear 48 _).comp₂ append_linear
  rw [roundWords, ksLookup_eq (by decide), ksLookup_eq (by decide), hfirst, hsecond]
  refine Prod.ext ?_ ?_
  · exact hodd.eq_of_basis (oddGroups_linear.comp₂ hkey) (by decide +kernel) c d
  · exact heven.eq_of_basis (evenGroups_linear.comp₂ hkey) (by decide +kernel) c d

theorem halfAt_eq (half : BitVec 28) {i : Nat} (hi : i < 16) :
    halfAt (half.setWidth 32) i = (Fips46.keyHalf half i).setWidth 32 := by
  have hkey : ∀ i < 16, Fips46.keyHalf half i = Fips46.rotateKey
      ((Fips46.rotations.take i).foldl Fips46.rotateKey half) (Fips46.rotations.getD i 0) := by
    intro i hi
    have htake : Fips46.rotations.take (i + 1) = Fips46.rotations.take i ++ [Fips46.rotations.getD i 0] := by
      revert i
      decide
    rw [Fips46.keyHalf, htake, foldl_append]
    rfl
  induction i with
  | zero => rw [halfAt, rotateHalf_eq half hi, hkey 0 hi]; rfl
  | succ i ih => rw [halfAt, ih (by omega), rotateHalf_eq _ hi, hkey (i + 1) hi]; rfl

/-! ## Blocks as words -/

variable (b : DesBlock)

theorem toList_cases : ∃ b0 b1 b2 b3 b4 b5 b6 b7, b.toList = [b0, b1, b2, b3, b4, b5, b6, b7] := by
  have hlen : b.toList.length = 8 := by simp
  match b.toList, hlen with
  | [b0, b1, b2, b3, b4, b5, b6, b7], _ => exact ⟨b0, b1, b2, b3, b4, b5, b6, b7, rfl⟩

/-- The word of a block, as the standard numbers its bits. -/
def blockWord (b : DesBlock) : BitVec 64 := BitVec.ofNat 64 (beGet b.toList 0 8)

theorem ofNat_beGet (b0 b1 b2 b3 b4 b5 b6 b7 : UInt8) : BitVec.ofNat 64 (beGet [b0, b1, b2, b3, b4, b5, b6, b7] 0 8) =
    word8 b0.toBitVec b1.toBitVec b2.toBitVec b3.toBitVec b4.toBitVec b5.toBitVec b6.toBitVec b7.toBitVec := by
  have hword := toNat_word8 b0.toBitVec b1.toBitVec b2.toBitVec b3.toBitVec b4.toBitVec b5.toBitVec b6.toBitVec b7.toBitVec
  have hget : beGet [b0, b1, b2, b3, b4, b5, b6, b7] 0 8 =
      (word8 b0.toBitVec b1.toBitVec b2.toBitVec b3.toBitVec b4.toBitVec b5.toBitVec b6.toBitVec b7.toBitVec).toNat := by
    rw [hword]
    simp [beGet, byteAt]
  rw [hget, BitVec.ofNat_toNat, BitVec.setWidth_eq]

theorem swapBytes_word8 (b0 b1 b2 b3 b4 b5 b6 b7 : BitVec 8) :
    swapBytes (word8 b0 b1 b2 b3 b4 b5 b6 b7) = word8 b7 b6 b5 b4 b3 b2 b1 b0 := by
  have h := bytes8_word8 b0 b1 b2 b3 b4 b5 b6 b7
  simp only [bytes8, map_cons, map_nil, cons.injEq, and_true] at h
  obtain ⟨h0, h1, h2, h3, h4, h5, h6, h7⟩ := h
  rw [swapBytes, h0, h1, h2, h3, h4, h5, h6, h7]

/-- The words of the key schedule are the groups of the published round keys. -/
theorem desSetKey_eq (key : DesBlock) (i : Fin 16) : (desSetKey key).k i =
    (oddGroups (Fips46.roundKey (blockWord key) i), evenGroups (Fips46.roundKey (blockWord key) i)) := by
  have hgather : BitVec.ofNat 64 (beGet key.toList.reverse 0 8) = swapBytes (blockWord key) := by
    obtain ⟨b0, b1, b2, b3, b4, b5, b6, b7, hkey⟩ := toList_cases key
    rw [blockWord, hkey, ofNat_beGet, swapBytes_word8]
    exact ofNat_beGet b7 b6 b5 b4 b3 b2 b1 b0
  rw [desSetKey, hgather, desSchedule]
  dsimp only
  rw [desKeyC_eq, desKeyD_eq, halfAt_eq _ i.isLt, halfAt_eq _ i.isLt, roundWords_eq]
  rfl

theorem halves_blockWord : halves (blockWord b) = blockGet b := by
  obtain ⟨b0, b1, b2, b3, b4, b5, b6, b7, hb⟩ := toList_cases b
  have h4 := b4.toNat_lt
  have h5 := b5.toNat_lt
  have h6 := b6.toNat_lt
  have h7 := b7.toNat_lt
  rw [blockWord, blockGet, halves, hb]
  refine Prod.ext (BitVec.toNat_inj.1 ?_) (BitVec.toNat_inj.1 ?_)
  all_goals
    simp only [BitVec.extractLsb'_toNat, BitVec.toNat_ofNat, Nat.shiftRight_eq_div_pow, beGet, byteAt, getD_cons_zero,
      getD_cons_succ, Nat.reduceAdd, zero_mul, zero_add]
    omega

variable (p : BitVec 32 × BitVec 32)

theorem blockGet_blockPut : blockGet (blockPut p) = p := by
  have hfirst : beGet (blockPut p).toList 0 4 = p.1.toNat % 256 ^ 4 := beGet_bePut 4 p.1.toNat _
  have hsecond : beGet (blockPut p).toList 4 4 = p.2.toNat % 256 ^ 4 := by
    have h := beGet_end (bePut 4 p.1.toNat) 4 p.2.toNat
    rwa [length_append, length_bePut, length_bePut] at h
  rw [blockGet, hfirst, hsecond]
  refine Prod.ext (BitVec.toNat_inj.1 ?_) (BitVec.toNat_inj.1 ?_)
  all_goals
    have := p.2.isLt
    simp only [BitVec.toNat_ofNat]
    omega

theorem append_halves (x : BitVec 64) : (halves x).1 ++ (halves x).2 = x := by
  refine BitVec.toNat_inj.1 ?_
  rw [toNat_append]
  simp only [halves, BitVec.extractLsb'_toNat, Nat.shiftRight_eq_div_pow]
  omega

theorem blockWord_blockPut : blockWord (blockPut p) = p.1 ++ p.2 := by
  rw [← append_halves (blockWord (blockPut p)), halves_blockWord, blockGet_blockPut]

theorem blockPut_blockGet : blockPut (blockGet b) = b := by
  obtain ⟨b0, b1, b2, b3, b4, b5, b6, b7, hb⟩ := toList_cases b
  have hfirst : bePut 4 (blockGet b).1.toNat = [b0, b1, b2, b3] := by
    have hget : beGet b.toList 0 4 < 2 ^ 32 := beGet_lt b.toList 0 4
    have hput : bePut 4 (beGet b.toList 0 4) = (b.toList.drop 0).take 4 := bePut_beGet (by simp)
    rw [blockGet, BitVec.toNat_ofNat, Nat.mod_eq_of_lt hget, hput, hb]
    rfl
  have hsecond : bePut 4 (blockGet b).2.toNat = [b4, b5, b6, b7] := by
    have hget : beGet b.toList 4 4 < 2 ^ 32 := beGet_lt b.toList 4 4
    have hput : bePut 4 (beGet b.toList 4 4) = (b.toList.drop 4).take 4 := bePut_beGet (by simp)
    rw [blockGet, BitVec.toNat_ofNat, Nat.mod_eq_of_lt hget, hput, hb]
    rfl
  refine Vector.toList_inj.1 ?_
  show bePut 4 (blockGet b).1.toNat ++ bePut 4 (blockGet b).2.toNat = b.toList
  rw [hfirst, hsecond, hb]
  rfl

/-! ## The rounds -/

/-- The rounds in the order in which they are run. -/
def roundOrder (decrypt : Bool) : List (Fin 16) := if decrypt then (finRange 16).reverse else finRange 16

variable (ks : DesKey)

theorem desRounds_eq (decrypt : Bool) (l r : BitVec 32) : desRounds ks decrypt l r =
    (Feistel.run ((roundOrder decrypt).map fun i r => desF r (ks.k i)) (l, r)).swap := by
  have hpass : ∀ (is : List Nat) lr, is.foldl
      (fun lr i => desTwoRounds ks (desPass decrypt i).1 (desPass decrypt i).2 lr) lr =
      Feistel.run ((is.flatMap fun i => [(desPass decrypt i).1, (desPass decrypt i).2]).map fun i r => desF r (ks.k i)) lr := by
    intro is
    induction is with
    | nil => intro lr; rfl
    | cons i is ih => intro lr; rw [foldl_cons, ih]; rfl
  have horder : (range 8).flatMap (fun i => [(desPass decrypt i).1, (desPass decrypt i).2]) = roundOrder decrypt := by
    cases decrypt <;> decide
  rw [desRounds, hpass, horder]
  rfl

theorem xor_cancel (x y : BitVec 32) : x ^^^ y ^^^ y = x := by
  rw [BitVec.xor_assoc, BitVec.xor_self, BitVec.xor_zero]

theorem desRounds_undo (decrypt : Bool) (l r : BitVec 32) :
    desRounds ks (!decrypt) (desRounds ks decrypt l r).1 (desRounds ks decrypt l r).2 = (l, r) := by
  have horder : roundOrder (!decrypt) = (roundOrder decrypt).reverse := by cases decrypt <;> simp [roundOrder]
  rw [desRounds_eq, desRounds_eq, horder, map_reverse, Feistel.run_reverse xor_cancel]
  rfl

/-- The code's rounds with the schedule of a key, on the rotated halves, are the standard's. -/
theorem desRounds_desSetKey (key : DesBlock) (p : BitVec 32 × BitVec 32) :
    desRounds (desSetKey key) false (rotated p).1 (rotated p).2 =
      rotated ((range 16).foldl (fun lr i => Fips46.round (Fips46.roundKey (blockWord key) i) lr) p).swap := by
  have hstd : (range 16).foldl (fun lr i => Fips46.round (Fips46.roundKey (blockWord key) i) lr) p =
      Feistel.run ((finRange 16).map fun i : Fin 16 => Fips46.cipherF (Fips46.roundKey (blockWord key) i)) p := by
    rfl
  have hrounds : List.Forall₂ (fun f g => ∀ x, g (rol32 x 1) = rol32 (f x) 1)
      ((finRange 16).map fun i : Fin 16 => Fips46.cipherF (Fips46.roundKey (blockWord key) i))
      ((roundOrder false).map fun i r => desF r ((desSetKey key).k i)) := by
    rw [forall₂_map_left_iff, forall₂_map_right_iff]
    refine forall₂_same.mpr fun i _ x => ?_
    rw [desSetKey_eq]
    exact desF_eq x _
  exact congrArg Prod.swap (Feistel.run_map (φ := (rol32 · 1)) (rol32_linear 1) hrounds p)

/-! ## Whole blocks -/

theorem desCrypt_eq (block : DesBlock) (decrypt : Bool) {p q : BitVec 32 × BitVec 32}
    (hp : desIp (blockGet block).1 (blockGet block).2 = p) (hq : desRounds ks decrypt p.1 p.2 = q) :
    desCrypt ks block decrypt = blockPut (desFp q.1 q.2) := by
  subst hp hq
  rfl

theorem desEncrypt_eq (key block : DesBlock) : blockWord (desEncrypt (desSetKey key) block) =
    Fips46.encipher (blockWord key) (blockWord block) := by
  have hip := desIp_eq (blockWord block)
  rw [halves_blockWord] at hip
  have hrounds := desRounds_desSetKey key (halves (Fips46.permute 64 Fips46.tableIP (blockWord block)))
  have hstd : ∀ lr, (range 16).foldl (fun lr i => Fips46.round (Fips46.roundKey (blockWord key) i) lr)
      (halves (Fips46.permute 64 Fips46.tableIP (blockWord block))) = lr →
      Fips46.encipher (blockWord key) (blockWord block) = Fips46.permute 64 Fips46.tableFP (lr.2 ++ lr.1) := by
    intro lr hlr
    subst hlr
    rfl
  rw [desEncrypt, desCrypt_eq _ _ _ hip hrounds, blockWord_blockPut, hstd _ rfl]
  generalize (range 16).foldl (fun lr i => Fips46.round (Fips46.roundKey (blockWord key) i) lr)
    (halves (Fips46.permute 64 Fips46.tableIP (blockWord block))) = lr
  have hfp := desFp_eq (lr.2 ++ lr.1)
  rw [halves_append] at hfp
  rw [show lr.swap = (lr.2, lr.1) from rfl, hfp, append_halves]

/-- Behind `des_crypt` the halves are those before its final permutation. -/
theorem desIp_desCrypt (block : DesBlock) (decrypt : Bool) :
    desIp (blockGet (desCrypt ks block decrypt)).1 (blockGet (desCrypt ks block decrypt)).2 =
      desRounds ks decrypt (desIp (blockGet block).1 (blockGet block).2).1 (desIp (blockGet block).1 (blockGet block).2).2 := by
  rw [desCrypt_eq ks block decrypt rfl rfl, blockGet_blockPut, desIp_desFp]

theorem desDecrypt_desEncrypt (block : DesBlock) : desDecrypt ks (desEncrypt ks block) = block := by
  have hundo := desRounds_undo ks false (desIp (blockGet block).1 (blockGet block).2).1
    (desIp (blockGet block).1 (blockGet block).2).2
  rw [Bool.not_false] at hundo
  rw [desDecrypt, desEncrypt, desCrypt_eq _ _ _ (desIp_desCrypt ks block false) hundo, desFp_desIp, blockPut_blockGet]

theorem des3Decrypt_eq (k1 k2 k3 : DesKey) (block : DesBlock) :
    des3Decrypt k1 k2 k3 block = desDecrypt k1 (desEncrypt k2 (desDecrypt k3 block)) := by
  rw [desDecrypt, desEncrypt, desDecrypt, desCrypt_eq k1 _ true (desIp_desCrypt k2 _ false) rfl, desIp_desCrypt]
  rfl

end DvbIpiTools.Cas
