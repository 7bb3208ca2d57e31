import Mathlib.Data.List.TakeWhile
import Mathlib.Data.Nat.Bitwise

set_option autoImplicit false

/-! # UTF-8, by the value of its bytes

`Encodes n bs` gives the bytes of a scalar value as numbers, so that a decoder written with shifts and masks is checked by
arithmetic. -/

namespace DvbIpiTools.Utf8

open List UInt8

/-- The bytes `bs` are the encoding of the scalar value `n`. -/
inductive Encodes (n : Nat) : List UInt8 → Prop where
  | one {b : UInt8} (hn : n < 0x80) (h : b.toNat = n) : Encodes n [b]
  | two {b b1 : UInt8} (hlo : 0x80 ≤ n) (hhi : n < 0x800) (h : b.toNat = 0xC0 + n / 64) (h1 : b1.toNat = 0x80 + n % 64) :
      Encodes n [b, b1]
  | three {b b1 b2 : UInt8} (hlo : 0x800 ≤ n) (hhi : n < 0x10000) (h : b.toNat = 0xE0 + n / 4096)
      (h1 : b1.toNat = 0x80 + n / 64 % 64) (h2 : b2.toNat = 0x80 + n % 64) : Encodes n [b, b1, b2]
  | four {b b1 b2 b3 : UInt8} (hlo : 0x10000 ≤ n) (hhi : n < 0x110000) (h : b.toNat = 0xF0 + n / 262144)
      (h1 : b1.toNat = 0x80 + n / 4096 % 64) (h2 : b2.toNat = 0x80 + n / 64 % 64) (h3 : b3.toNat = 0x80 + n % 64) :
      Encodes n [b, b1, b2, b3]

theorem toNat_lt (c : Char) : c.toNat < 0x110000 := by
  have := c.valid
  show c.val.toNat < 0x110000
  omega

theorem encodes_char (c : Char) : Encodes c.toNat (String.utf8EncodeChar c) := by
  have hlt := toNat_lt c
  have hval : c.val.toNat = c.toNat := rfl
  rw [String.utf8EncodeChar]
  split
  · exact .one (by omega) (by rw [toNat_ofNat']; omega)
  · split
    · refine .two (by omega) (by omega) ?_ ?_ <;> rw [toNat_ofNat'] <;> omega
    · split
      · refine .three (by omega) (by omega) ?_ ?_ ?_ <;> rw [toNat_ofNat'] <;> omega
      · refine .four (by omega) (by omega) ?_ ?_ ?_ ?_ <;> rw [toNat_ofNat'] <;> omega

theorem and_C0_iff (b : UInt8) : b &&& 0xC0 = 0x80 ↔ 0x80 ≤ b.toNat ∧ b.toNat < 0xC0 := by
  have hall : ∀ k : Fin 256, UInt8.ofNat k.val &&& 0xC0 = 0x80 ↔ 0x80 ≤ k.val ∧ k.val < 0xC0 := by decide +kernel
  have := hall ⟨b.toNat, b.toNat_lt⟩
  rwa [UInt8.ofNat_toNat] at this

namespace Encodes

variable {n : Nat} {bs : List UInt8} (h : Encodes n bs)

include h

theorem ne_nil : bs ≠ [] := by cases h <;> simp

theorem length_pos : 0 < bs.length := length_pos_iff.2 h.ne_nil

theorem head {b : UInt8} {rest : List UInt8} (hbs : bs = b :: rest) : ¬ b &&& 0xC0 = 0x80 := by
  rw [and_C0_iff]
  cases h <;> obtain ⟨rfl, rfl⟩ := cons.inj hbs <;> omega

theorem tail {b : UInt8} (hb : b ∈ bs.tail) : b &&& 0xC0 = 0x80 := by
  rw [and_C0_iff]
  cases h <;> simp only [tail_cons, mem_cons, not_mem_nil, or_false] at hb
  · subst hb
    omega
  · obtain rfl | rfl := hb <;> omega
  · obtain rfl | rfl | rfl := hb <;> omega

theorem zero_mem : 0 ∈ bs ↔ n = 0 := by
  have key : ∀ {b : UInt8} {k : Nat}, b.toNat = k → 0 < k → (0 : UInt8) ≠ b := fun hb hk he => by
    rw [← he] at hb
    exact absurd (show (0 : UInt8).toNat = 0 from rfl) (by omega)
  cases h with
  | one hn h =>
    rw [mem_singleton, ← h]
    exact ⟨fun he => he ▸ rfl, fun he => (UInt8.toNat_inj.1 (he.trans rfl)).symm⟩
  | two hlo hhi h h1 => simp [key h (by omega), key h1 (by omega)]; omega
  | three hlo hhi h h1 h2 => simp [key h (by omega), key h1 (by omega), key h2 (by omega)]; omega
  | four hlo hhi h h1 h2 h3 =>
    simp [key h (by omega), key h1 (by omega), key h2 (by omega), key h3 (by omega)]; omega

omit h

end Encodes

/-- The bytes of a text. -/
def utf8 (cs : List Char) : List UInt8 := cs.flatMap String.utf8EncodeChar

@[simp] theorem utf8_nil : utf8 [] = [] := rfl

@[simp] theorem utf8_cons (c : Char) (cs : List Char) : utf8 (c :: cs) = String.utf8EncodeChar c ++ utf8 cs :=
  flatMap_cons

@[simp] theorem utf8_append (cs ds : List Char) : utf8 (cs ++ ds) = utf8 cs ++ utf8 ds := flatMap_append

variable {cs : List Char}

theorem utf8_length_pos (h : cs ≠ []) : 0 < (utf8 cs).length := by
  obtain ⟨c, cs, rfl⟩ := exists_cons_of_ne_nil h
  have := (encodes_char c).length_pos
  rw [utf8_cons, length_append]
  omega

theorem utf8_eq_nil : utf8 cs = [] ↔ cs = [] := by
  refine ⟨fun h => ?_, fun h => h ▸ rfl⟩
  by_contra hne
  have := utf8_length_pos hne
  rw [h] at this
  cases this

theorem zero_mem_utf8 : 0 ∈ utf8 cs ↔ ∃ c ∈ cs, c.toNat = 0 := by
  simp only [utf8, mem_flatMap, (encodes_char _).zero_mem]

/-- The bytes of a buffer in front of its terminator. -/
def cstring (buf : List UInt8) : List UInt8 := buf.takeWhile (· ≠ 0)

theorem cstring_utf8 (h : ∀ c ∈ cs, c.toNat ≠ 0) : cstring (utf8 cs) = utf8 cs := by
  refine takeWhile_eq_self_iff.2 fun b hb => ?_
  have hne : b ≠ 0 := fun h0 => by
    obtain ⟨c, hc, hz⟩ := zero_mem_utf8.1 (h0 ▸ hb)
    exact h c hc hz
  simpa using hne

end DvbIpiTools.Utf8
