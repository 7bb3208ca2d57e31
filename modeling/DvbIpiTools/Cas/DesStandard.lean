import DvbIpiTools.Cas.Des
import DvbIpiTools.Utils.Feistel
import DvbIpiTools.Utils.Fips46
import DvbIpiTools.Utils.WordBytes

set_option autoImplicit false

/-! # The table-driven DES is DES

The permutations, the expansion and the key schedule are linear, so the code's ways of computing them are compared with
the published tables on the words of one bit; the S-boxes are compared entry by entry. The halves of the code are those
of the standard rotated by one, and the rounds are a Feistel network in both. -/

namespace DvbIpiTools.Cas

open XorLinear WordBytes BeUtil BitVec

/-! ## Linear pieces -/

theorem rol32_eq_xor (v : BitVec 32) (n : Nat) : rol32 v n = v <<< n ^^^ v >>> (32 - n) := by
  refine or_eq_xor (shiftLeft_and_eq_zero fun i hi => ?_)
  rw [getLsbD_ushiftRight]
  exact getLsbD_of_ge v _ (by omega)

variable (n : Nat)

theorem rol32_linear : Linear fun v => rol32 v n := by
  have h := (shiftLeft_linear (m := 32) n).xor (shiftRight_linear (32 - n))
  simpa only [rol32_eq_xor] using h

theorem exchange_linear (mask : BitVec 32) : Linear fun p : BitVec 32 × BitVec 32 => exchange n mask p.1 p.2 := by
  have hsum : Linear fun p : BitVec 32 × BitVec 32 => p.1 >>> n ^^^ p.2 :=
    ((shiftRight_linear n).comp Linear.fst).xor Linear.snd
  have ht : Linear fun p : BitVec 32 × BitVec 32 => (p.1 >>> n ^^^ p.2) &&& mask := (and_linear mask).comp hsum
  exact (Linear.fst.xor ((shiftLeft_linear n).comp ht)).prod (Linear.snd.xor ht)

theorem swap_linear : Linear (Prod.swap : BitVec 32 × BitVec 32 → BitVec 32 × BitVec 32) := fun _ _ => rfl

theorem rolLeft_linear : Linear fun p : BitVec 32 × BitVec 32 => (rol32 p.1 n, p.2) :=
  ((rol32_linear n).comp Linear.fst).prod Linear.snd

theorem desIp_linear : Linear fun p : BitVec 32 × BitVec 32 => desIp p.1 p.2 := by
  have h := (rolLeft_linear 1).comp <| swap_linear.comp <| (exchange_linear 0 0xAAAAAAAA).comp <|
    (rolLeft_linear 1).comp <| (exchange_linear 8 0x00FF00FF).comp <| (exchange_linear 2 0x33333333).comp <|
      swap_linear.comp <| (exchange_linear 16 0x0000FFFF).comp (exchange_linear 4 0x0F0F0F0F)
  exact h

theorem desFp_linear : Linear fun p : BitVec 32 × BitVec 32 => desFp p.1 p.2 := by
  have h := (exchange_linear 4 0x0F0F0F0F).comp <| (exchange_linear 16 0x0000FFFF).comp <| swap_linear.comp <|
    (exchange_linear 2 0x33333333).comp <| (exchange_linear 8 0x00FF00FF).comp <| (rolLeft_linear 31).comp <|
      (exchange_linear 0 0xAAAAAAAA).comp <| swap_linear.comp (rolLeft_linear 31)
  exact h

theorem permute_linear {n : Nat} (m : Nat) (table : List Nat) : Linear (Fips46.permute (n := n) m table) := by
  have hstep : ∀ p, Linear₂ fun (y : BitVec m) (x : BitVec n) => y <<< 1 ^^^ if x.getLsbD (n - p) then 1 else 0 :=
    fun p => (shiftLeft_linear 1).xor₂
      (Linear.bit xor_self xor_zero zero_xor xor_zero (n - p))
  intro x y
  have h := Linear₂.foldl hstep table 0 0 x y
  rw [show (0 : BitVec m) ^^^ 0 = 0 from xor_zero] at h
  exact h

/-- The halves of a word. -/
def halves (x : BitVec 64) : BitVec 32 × BitVec 32 := (x.extractLsb' 32 32, x.extractLsb' 0 32)

theorem halves_linear : Linear halves := (extractLsb'_linear 32).prod (extractLsb'_linear 0)

theorem halves_append (l r : BitVec 32) : halves (l ++ r) = (l, r) := by
  exact Prod.ext extractLsb'_append_eq_left extractLsb'_append_eq_right

/-- Both halves rotated by one, as the code keeps them. -/
def rotated (p : BitVec 32 × BitVec 32) : BitVec 32 × BitVec 32 := p.map (rol32 · 1) (rol32 · 1)

theorem rotated_linear : Linear rotated :=
  ((rol32_linear 1).comp Linear.fst).prod ((rol32_linear 1).comp Linear.snd)

/-- A word with its bytes in the other order. -/
def swapBytes (x : BitVec 64) : BitVec 64 :=
  word8 (x.extractLsb' 0 8) (x.extractLsb' 8 8) (x.extractLsb' 16 8) (x.extractLsb' 24 8) (x.extractLsb' 32 8)
    (x.extractLsb' 40 8) (x.extractLsb' 48 8) (x.extractLsb' 56 8)

/-! ## What is compared

All that rests on the numbers of the tables, on the words of one bit or entry by entry. -/

/-- The groups of a round key that the code keeps in its first word: the first, third, fifth and seventh. -/
def oddGroups (k : BitVec 48) : BitVec 32 :=
  (k.extractLsb' 42 6).setWidth 32 <<< 24 ^^^ (k.extractLsb' 30 6).setWidth 32 <<< 16 ^^^
    (k.extractLsb' 18 6).setWidth 32 <<< 8 ^^^ (k.extractLsb' 6 6).setWidth 32

/-- The groups of its second word. -/
def evenGroups (k : BitVec 48) : BitVec 32 :=
  (k.extractLsb' 36 6).setWidth 32 <<< 24 ^^^ (k.extractLsb' 24 6).setWidth 32 <<< 16 ^^^
    (k.extractLsb' 12 6).setWidth 32 <<< 8 ^^^ (k.extractLsb' 0 6).setWidth 32

/-- The argument of the S-boxes. -/
def sboxInput (r : BitVec 32) (k : BitVec 48) : BitVec 48 := Fips46.permute 48 Fips46.tableE r ^^^ k

/-- The output of one S-box in its place, the others 0. -/
def inPlace (j : Fin 8) (s : BitVec 4) : BitVec 32 :=
  Fips46.join8 (if j.val = 0 then s else 0) (if j.val = 1 then s else 0) (if j.val = 2 then s else 0) (if j.val = 3 then s else 0)
    (if j.val = 4 then s else 0) (if j.val = 5 then s else 0) (if j.val = 6 then s else 0) (if j.val = 7 then s else 0)

/-- What the output of an S-box adds to the value of the cipher function, rotated by one. -/
def throughP (j : Fin 8) (s : BitVec 4) : BitVec 32 := rol32 (Fips46.permute 32 Fips46.tableP (inPlace j s)) 1

/-- What the code computes by shifts, masks and tables of its own is what the published tables say. -/
structure TablesAgree : Prop where
  ip : AgreeOnBasis (fun x => desIp (halves x).1 (halves x).2)
    (fun x => rotated (halves (Fips46.permute 64 Fips46.tableIP x)))
  fp : AgreeOnBasis (fun x => desFp (rotated (halves x)).1 (rotated (halves x)).2)
    (fun x => halves (Fips46.permute 64 Fips46.tableFP x))
  ip_fp : AgreeOnBasis (fun x => desIp (desFp (halves x).1 (halves x).2).1 (desFp (halves x).1 (halves x).2).2) halves
  fp_ip : AgreeOnBasis (fun x => desFp (desIp (halves x).1 (halves x).2).1 (desIp (halves x).1 (halves x).2).2) halves
  keyC : AgreeOnBasis (fun key => desKeyC (desTranspose (swapBytes key)))
    (fun key => ((Fips46.permute 56 Fips46.tablePC1 key).extractLsb' 28 28).setWidth 32)
  keyD : AgreeOnBasis (fun key => desKeyD (desTranspose (swapBytes key)))
    (fun key => ((Fips46.permute 56 Fips46.tablePC1 key).extractLsb' 0 28).setWidth 32)
  rotate : ∀ i < 16, AgreeOnBasis (fun h : BitVec 28 => rotateHalf (h.setWidth 32) i)
    (fun h => (Fips46.rotateKey h (Fips46.rotations.getD i 0)).setWidth 32)
  odd : ∀ s ∈ [(24, 42), (16, 30), (8, 18), (0, 6)],
    AgreeOnBasis₂ (fun r k => (rol32 (rol32 r 1) 28 ^^^ oddGroups k) >>> s.1 &&& 63)
      (fun r k => ((sboxInput r k).extractLsb' s.2 6).setWidth 32)
  even : ∀ s ∈ [(24, 36), (16, 24), (8, 12), (0, 0)],
    AgreeOnBasis₂ (fun r k => (rol32 r 1 ^^^ evenGroups k) >>> s.1 &&& 63)
      (fun r k => ((sboxInput r k).extractLsb' s.2 6).setWidth 32)
  sp : ∀ (j : Fin 8) (b : Fin (2 ^ 6)),
    desEntry desSp j ((BitVec.ofFin b).setWidth 32) = throughP j (Fips46.sbox j (BitVec.ofFin b))
  within : ∀ (j : Fin 8) (s : Fin (2 ^ 4)), Within (throughP j (BitVec.ofFin s)) (throughP j 15)
  apart : apart (throughP 6 15) [throughP 4 15, throughP 2 15, throughP 0 15, throughP 7 15, throughP 5 15,
    throughP 3 15, throughP 1 15] = true

theorem tables_agree : TablesAgree where
  ip := by decide +kernel
  fp := by decide +kernel
  ip_fp := by decide +kernel
  fp_ip := by decide +kernel
  keyC := by decide +kernel
  keyD := by decide +kernel
  rotate := by decide +kernel
  odd := by decide +kernel
  even := by decide +kernel
  sp := by decide +kernel
  within := by decide +kernel
  apart := by decide +kernel

/-! ## The initial and the final permutation -/

theorem desIp_eq (x : BitVec 64) :
    desIp (halves x).1 (halves x).2 = rotated (halves (Fips46.permute 64 Fips46.tableIP x)) :=
  (desIp_linear.comp halves_linear).eq_of_basis (rotated_linear.comp (halves_linear.comp (permute_linear 64 _)))
    (tables_agree).ip x

theorem desFp_eq (x : BitVec 64) :
    desFp (rotated (halves x)).1 (rotated (halves x)).2 = halves (Fips46.permute 64 Fips46.tableFP x) :=
  (desFp_linear.comp (rotated_linear.comp halves_linear)).eq_of_basis (halves_linear.comp (permute_linear 64 _))
    (tables_agree).fp x

theorem desIp_desFp (l r : BitVec 32) : desIp (desFp l r).1 (desFp l r).2 = (l, r) := by
  have h := (desIp_linear.comp (desFp_linear.comp halves_linear)).eq_of_basis halves_linear
    (tables_agree).ip_fp (l ++ r)
  rwa [halves_append] at h

theorem desFp_desIp (l r : BitVec 32) : desFp (desIp l r).1 (desIp l r).2 = (l, r) := by
  have h := (desFp_linear.comp (desIp_linear.comp halves_linear)).eq_of_basis halves_linear
    (tables_agree).fp_ip (l ++ r)
  rwa [halves_append] at h

/-! ## The cipher function -/

theorem group_linear (off n : Nat) : Linear fun k : BitVec 48 => (k.extractLsb' off 6).setWidth 32 <<< n :=
  (shiftLeft_linear n).comp (setWidth_linear.comp (extractLsb'_linear off))

theorem lowGroup_linear (off : Nat) : Linear fun k : BitVec 48 => (k.extractLsb' off 6).setWidth 32 :=
  setWidth_linear.comp (extractLsb'_linear off)

theorem oddGroups_linear : Linear oddGroups :=
  (((group_linear 42 24).xor (group_linear 30 16)).xor (group_linear 18 8)).xor (lowGroup_linear 6)

theorem evenGroups_linear : Linear evenGroups :=
  (((group_linear 36 24).xor (group_linear 24 16)).xor (group_linear 12 8)).xor (lowGroup_linear 0)

theorem sboxInput_linear : Linear₂ sboxInput := (permute_linear 48 _).xor₂ Linear.id

variable (r : BitVec 32)

/-- The code's six bits for the first S-box of a pair, and for the other one, are the standard's. -/
theorem oddIndex_eq (k : BitVec 48) {s : Nat × Nat} (hs : s ∈ [(24, 42), (16, 30), (8, 18), (0, 6)]) :
    (rol32 (rol32 r 1) 28 ^^^ oddGroups k) >>> s.1 &&& 63 = ((sboxInput r k).extractLsb' s.2 6).setWidth 32 := by
  have hmask : Linear fun x : BitVec 32 => x >>> s.1 &&& 63 := (and_linear 63).comp (shiftRight_linear s.1)
  have hgroup : Linear fun x : BitVec 48 => (x.extractLsb' s.2 6).setWidth 32 := lowGroup_linear s.2
  have hleft := hmask.comp₂ (((rol32_linear 28).comp (rol32_linear 1)).xor₂ oddGroups_linear)
  have hright := hgroup.comp₂ sboxInput_linear
  exact hleft.eq_of_basis hright ((tables_agree).odd s hs) r k

theorem evenIndex_eq (k : BitVec 48) {s : Nat × Nat} (hs : s ∈ [(24, 36), (16, 24), (8, 12), (0, 0)]) :
    (rol32 r 1 ^^^ evenGroups k) >>> s.1 &&& 63 = ((sboxInput r k).extractLsb' s.2 6).setWidth 32 := by
  have hmask : Linear fun x : BitVec 32 => x >>> s.1 &&& 63 := (and_linear 63).comp (shiftRight_linear s.1)
  have hgroup : Linear fun x : BitVec 48 => (x.extractLsb' s.2 6).setWidth 32 := lowGroup_linear s.2
  have hleft := hmask.comp₂ ((rol32_linear 1).xor₂ evenGroups_linear)
  have hright := hgroup.comp₂ sboxInput_linear
  exact hleft.eq_of_basis hright ((tables_agree).even s hs) r k

theorem desSp_eq (j : Fin 8) (b : BitVec 6) : desEntry desSp j (b.setWidth 32) = throughP j (Fips46.sbox j b) :=
  (tables_agree).sp j b.toFin

theorem throughP_within (j : Fin 8) (s : BitVec 4) : Within (throughP j s) (throughP j 15) :=
  (tables_agree).within j s.toFin

theorem join8_xor (a0 a1 a2 a3 a4 a5 a6 a7 b0 b1 b2 b3 b4 b5 b6 b7 : BitVec 4) :
    Fips46.join8 (a0 ^^^ b0) (a1 ^^^ b1) (a2 ^^^ b2) (a3 ^^^ b3) (a4 ^^^ b4) (a5 ^^^ b5) (a6 ^^^ b6) (a7 ^^^ b7) =
      Fips46.join8 a0 a1 a2 a3 a4 a5 a6 a7 ^^^ Fips46.join8 b0 b1 b2 b3 b4 b5 b6 b7 := by
  simp only [Fips46.join8, ← xor_append]

theorem join8_eq (s0 s1 s2 s3 s4 s5 s6 s7 : BitVec 4) :
    Fips46.join8 s0 s1 s2 s3 s4 s5 s6 s7 = inPlace 6 s6 ^^^ inPlace 4 s4 ^^^ inPlace 2 s2 ^^^ inPlace 0 s0 ^^^
      inPlace 7 s7 ^^^ inPlace 5 s5 ^^^ inPlace 3 s3 ^^^ inPlace 1 s1 := by
  have hxor : ∀ x y : BitVec (4 + 4 + 4 + 4 + 4 + 4 + 4 + 4), (show BitVec 32 from x) ^^^ y = (x ^^^ y) := fun _ _ => rfl
  simp only [inPlace, hxor, ← join8_xor]
  simp

theorem oddEntry_eq (r : BitVec 32) (k : BitVec 48) (j : Fin 8) {n off : Nat}
    (hs : (n, off) ∈ [(24, 42), (16, 30), (8, 18), (0, 6)]) :
    desEntry desSp j ((rol32 (rol32 r 1) 28 ^^^ oddGroups k) >>> n &&& 63) =
      throughP j (Fips46.sbox j ((sboxInput r k).extractLsb' off 6)) := by
  rw [oddIndex_eq r k hs, desSp_eq]

theorem evenEntry_eq (r : BitVec 32) (k : BitVec 48) (j : Fin 8) {n off : Nat}
    (hs : (n, off) ∈ [(24, 36), (16, 24), (8, 12), (0, 0)]) :
    desEntry desSp j ((rol32 r 1 ^^^ evenGroups k) >>> n &&& 63) =
      throughP j (Fips46.sbox j ((sboxInput r k).extractLsb' off 6)) := by
  rw [evenIndex_eq r k hs, desSp_eq]

theorem throughP_sum (s0 s1 s2 s3 s4 s5 s6 s7 : BitVec 4) :
    throughP 6 s6 ||| throughP 4 s4 ||| throughP 2 s2 ||| throughP 0 s0 ||| throughP 7 s7 ||| throughP 5 s5 |||
      throughP 3 s3 ||| throughP 1 s1 =
        rol32 (Fips46.permute 32 Fips46.tableP (Fips46.join8 s0 s1 s2 s3 s4 s5 s6 s7)) 1 := by
  have hword : ∀ x y : BitVec 32, rol32 (Fips46.permute 32 Fips46.tableP (x ^^^ y)) 1 =
      rol32 (Fips46.permute 32 Fips46.tableP x) 1 ^^^ rol32 (Fips46.permute 32 Fips46.tableP y) 1 :=
    (rol32_linear 1).comp (permute_linear 32 _)
  have hor := foldl_or_eq_xor (throughP_within 6 s6) (.cons (throughP_within 4 s4) (.cons (throughP_within 2 s2)
    (.cons (throughP_within 0 s0) (.cons (throughP_within 7 s7) (.cons (throughP_within 5 s5)
      (.cons (throughP_within 3 s3) (.cons (throughP_within 1 s1) .nil))))))) (tables_agree).apart
  simp only [List.foldl_cons, List.foldl_nil] at hor
  rw [hor, join8_eq, hword, hword, hword, hword, hword, hword, hword]
  rfl

/-- The code's round function on a half rotated by one is the standard's, rotated by one. -/
theorem desF_eq (k : BitVec 48) : desF (rol32 r 1) (oddGroups k, evenGroups k) = rol32 (Fips46.cipherF k r) 1 := by
  have hodd := @oddEntry_eq r k
  have heven := @evenEntry_eq r k
  rw [desF, Fips46.cipherF]
  generalize rol32 (rol32 r 1) 28 ^^^ oddGroups k = a at hodd
  generalize rol32 r 1 ^^^ evenGroups k = b at heven
  have h6 : desEntry desSp 6 (a &&& 63) = throughP 6 (Fips46.sbox 6 ((sboxInput r k).extractLsb' 6 6)) := by
    rw [← ushiftRight_zero a]
    exact hodd 6 (by decide)
  have h7 : desEntry desSp 7 (b &&& 63) = throughP 7 (Fips46.sbox 7 ((sboxInput r k).extractLsb' 0 6)) := by
    rw [← ushiftRight_zero b]
    exact heven 7 (by decide)
  have h4 : desEntry desSp 4 (a >>> 8 &&& 63) = throughP 4 (Fips46.sbox 4 ((sboxInput r k).extractLsb' 18 6)) :=
    hodd 4 (by decide)
  have h2 : desEntry desSp 2 (a >>> 16 &&& 63) = throughP 2 (Fips46.sbox 2 ((sboxInput r k).extractLsb' 30 6)) :=
    hodd 2 (by decide)
  have h0 : desEntry desSp 0 (a >>> 24 &&& 63) = throughP 0 (Fips46.sbox 0 ((sboxInput r k).extractLsb' 42 6)) :=
    hodd 0 (by decide)
  have h5 : desEntry desSp 5 (b >>> 8 &&& 63) = throughP 5 (Fips46.sbox 5 ((sboxInput r k).extractLsb' 12 6)) :=
    heven 5 (by decide)
  have h3 : desEntry desSp 3 (b >>> 16 &&& 63) = throughP 3 (Fips46.sbox 3 ((sboxInput r k).extractLsb' 24 6)) :=
    heven 3 (by decide)
  have h1 : desEntry desSp 1 (b >>> 24 &&& 63) = throughP 1 (Fips46.sbox 1 ((sboxInput r k).extractLsb' 36 6)) :=
    heven 1 (by decide)
  rw [h6, h4, h2, h0, h7, h5, h3, h1, throughP_sum]
  rfl

/-! ## The key schedule -/

theorem swapBytes_linear : Linear swapBytes := fun x y => by
  simp only [swapBytes, extractLsb'_xor, word8_xor]

theorem transposeStep_linear (mask : BitVec 64) : Linear fun x => transposeStep x n mask := by
  have ht : Linear fun x : BitVec 64 => (x ^^^ x >>> n) &&& mask :=
    (and_linear mask).comp (Linear.id.xor (shiftRight_linear n))
  exact Linear.id.xor (ht.xor ((shiftLeft_linear n).comp ht))

theorem desTranspose_linear : Linear desTranspose :=
  (transposeStep_linear 28 _).comp ((transposeStep_linear 14 _).comp (transposeStep_linear 7 _))

theorem desKeyC_linear : Linear desKeyC := setWidth_linear.comp (shiftRight_linear 36)

theorem desKeyD_linear : Linear desKeyD := by
  have hpiece : ∀ (n k : Nat) (c : BitVec 64), Linear fun x : BitVec 64 => (x >>> n &&& c).setWidth 32 <<< k :=
    fun n k c => (shiftLeft_linear k).comp (setWidth_linear.comp ((and_linear c).comp (shiftRight_linear n)))
  have hlow : Linear fun x : BitVec 64 => (x >>> 32 &&& 0x0F).setWidth 32 :=
    setWidth_linear.comp ((and_linear 0x0F).comp (shiftRight_linear 32))
  have hxor : ∀ x, desKeyD x = (x >>> 8 &&& 0xFF).setWidth 32 <<< 20 ^^^ (x >>> 16 &&& 0xFF).setWidth 32 <<< 12 ^^^
      (x >>> 24 &&& 0xFF).setWidth 32 <<< 4 ^^^ (x >>> 32 &&& 0x0F).setWidth 32 := by
    intro x
    have hor := foldl_or_eq_xor ((Within.and (x >>> 8) 0xFF).setWidth (n := 32).shiftLeft 20)
      (.cons ((Within.and (x >>> 16) 0xFF).setWidth (n := 32).shiftLeft 12)
        (.cons ((Within.and (x >>> 24) 0xFF).setWidth (n := 32).shiftLeft 4)
          (.cons ((Within.and (x >>> 32) 0x0F).setWidth) .nil))) (by decide)
    exact hor
  have hsum := (((hpiece 8 20 0xFF).xor (hpiece 16 12 0xFF)).xor (hpiece 24 4 0xFF)).xor hlow
  intro x y
  rw [hxor, hxor, hxor]
  exact hsum x y

theorem desKeyC_eq (key : BitVec 64) : desKeyC (desTranspose (swapBytes key)) =
    ((Fips46.permute 56 Fips46.tablePC1 key).extractLsb' 28 28).setWidth 32 :=
  (desKeyC_linear.comp (desTranspose_linear.comp swapBytes_linear)).eq_of_basis
    (setWidth_linear.comp ((extractLsb'_linear 28).comp (permute_linear 56 _))) (tables_agree).keyC key

theorem desKeyD_eq (key : BitVec 64) : desKeyD (desTranspose (swapBytes key)) =
    ((Fips46.permute 56 Fips46.tablePC1 key).extractLsb' 0 28).setWidth 32 :=
  (desKeyD_linear.comp (desTranspose_linear.comp swapBytes_linear)).eq_of_basis
    (setWidth_linear.comp ((extractLsb'_linear 0).comp (permute_linear 56 _))) (tables_agree).keyD key

theorem rotateHalf_eq (half : BitVec 28) {i : Nat} (hi : i < 16) :
    rotateHalf (half.setWidth 32) i = (Fips46.rotateKey half (Fips46.rotations.getD i 0)).setWidth 32 := by
  have hxor : ∀ s, s ≤ 28 → ∀ h : BitVec 28, h.setWidth 32 <<< s ||| h.setWidth 32 >>> (28 - s) =
      h.setWidth 32 <<< s ^^^ h.setWidth 32 >>> (28 - s) := by
    intro s hs h
    refine or_eq_xor (shiftLeft_and_eq_zero fun j hj => ?_)
    rw [getLsbD_ushiftRight, getLsbD_setWidth, getLsbD_of_ge h _ (by omega), Bool.and_false]
  have hs : 1 + (0x7EFC >>> i &&& 1) ≤ 28 := by
    have := Nat.and_le_right (n := 0x7EFC >>> i) (m := 1)
    omega
  have hleft : Linear fun h : BitVec 28 => rotateHalf (h.setWidth 32) i := by
    have hsum := (and_linear 0x0FFFFFFF).comp (((shiftLeft_linear (1 + (0x7EFC >>> i &&& 1))).comp
      (setWidth_linear (m := 28) (n := 32))).xor ((shiftRight_linear (28 - (1 + (0x7EFC >>> i &&& 1)))).comp setWidth_linear))
    intro x y
    simp only [rotateHalf, hxor _ hs]
    exact hsum x y
  have hright : Linear fun h : BitVec 28 => (Fips46.rotateKey h (Fips46.rotations.getD i 0)).setWidth 32 :=
    setWidth_linear.comp (rotateLeft_linear _)
  exact hleft.eq_of_basis hright ((tables_agree).rotate i hi) half

end DvbIpiTools.Cas
