import DvbIpiTools.Bim.Io

set_option autoImplicit false

/-! # String repositories (`strrepo.c`)

A repository is its bytes: an encoding byte, then strings with their terminators. -/

namespace DvbIpiTools.Bim

open List

/-- `strrepo_writer_init`: the encoding byte of UTF-8. -/
def strrepoInit : List UInt8 := [1]

/-- `strrepo_writer_put` where no resync is pending. -/
def strrepoPut (sw : List UInt8) (s : CStr) : List UInt8 := sw ++ s.val ++ [0]

def strrepoAt (buf : List UInt8) (off : Nat) : Option CStr :=
  if off < 1 ∨ off ≥ buf.length ∨ 0 ∉ buf.drop off then none else some (CStr.ofBytes (buf.drop off))

/-! ## Readers -/

/-- `strrepo_reader_t`. `resync` is set where it points to the reader of the payload: the next string takes its offset from there. -/
structure StrReader where
  buf : List UInt8
  pos : Nat := 1
  /-- The first string of the fragment. -/
  base : Nat := 1
  resync : Bool := false
deriving DecidableEq

/-- What a payload is read from: its bits and the repository, NULL: none. -/
structure Source where
  bits : List Bool
  sr : Option StrReader

/-- A reader of a payload. -/
abbrev SrcRd (α : Type) := StateT Source Option α

/-- A reader of the bits alone. -/
def ofBits {α : Type} (p : StateT (List Bool) Option α) : SrcRd α := fun s =>
  (p s.bits).map fun (a, bits) => (a, { s with bits })

def takeResync (sr : StrReader) : SrcRd StrReader :=
  if sr.resync then do
    let off ← ofBits (Stream.get 16)
    if off > sr.buf.length - sr.base then failure else return { sr with resync := false, pos := sr.base + off }
  else return sr

/-- The string at the cursor: its terminator has to be in the buffer. -/
def stringAt (sr : StrReader) : SrcRd CStr :=
  if 0 ∈ sr.buf.drop sr.pos then
    let s := CStr.ofBytes (sr.buf.drop sr.pos)
    fun src => some (s, { src with sr := some { sr with pos := sr.pos + s.val.length + 1 } })
  else failure

/-- `strrepo_reader_next_dup`, `dvb_string_append`. -/
def dvbString : SrcRd CStr := do
  let src ← get
  match src.sr with
  | none => failure
  | some sr =>
    let sr ← takeResync sr
    stringAt sr

theorem CStr.ofBytes_append (s : CStr) (t : List UInt8) : CStr.ofBytes (s.val ++ 0 :: t) = s := by
  apply Subtype.ext
  have hall : ∀ b ∈ s.val, decide (b ≠ 0) = true := by
    intro b hb
    have hne : b ≠ 0 := fun h => s.property (h ▸ hb)
    simpa using hne
  show (s.val ++ 0 :: t).takeWhile (· ≠ 0) = s.val
  rw [takeWhile_append_of_pos hall]
  simp

/-- A string put at the end of a repository is at the old length, whatever is put later. -/
theorem strrepoAt_put (sw t : List UInt8) (s : CStr) (hsw : sw ≠ []) :
    strrepoAt (strrepoPut sw s ++ t) sw.length = some s := by
  have hdrop : (strrepoPut sw s ++ t).drop sw.length = s.val ++ 0 :: t := by
    rw [strrepoPut, append_assoc, append_assoc, drop_left]
    rfl
  have hpos : 1 ≤ sw.length := length_pos_iff.2 hsw
  have hlen : sw.length < (strrepoPut sw s ++ t).length := by
    rw [strrepoPut, length_append, length_append, length_append, length_singleton]
    omega
  have hin : ¬ (sw.length < 1 ∨ sw.length ≥ (strrepoPut sw s ++ t).length ∨ 0 ∉ s.val ++ 0 :: t) := by
    simp only [not_or, not_not, not_le, not_lt]
    exact ⟨hpos, hlen, by simp⟩
  unfold strrepoAt
  rw [hdrop, if_neg hin, CStr.ofBytes_append]

theorem strrepoAt_mono {s s' : List UInt8} {off : Nat} {v : CStr} (h : s <+: s')
    (hv : strrepoAt s off = some v) : strrepoAt s' off = some v := by
  obtain ⟨t, rfl⟩ := h
  unfold strrepoAt at hv ⊢
  split at hv
  · cases hv
  rename_i hin
  simp only [not_or, not_not, not_le, not_lt] at hin
  obtain ⟨hpos, hlen, hzero⟩ := hin
  have hdrop : (s ++ t).drop off = s.drop off ++ t := drop_append_of_le_length hlen.le
  have hin' : ¬ (off < 1 ∨ off ≥ (s ++ t).length ∨ 0 ∉ s.drop off ++ t) := by
    simp only [not_or, not_not, not_le, not_lt]
    exact ⟨hpos, by rw [length_append]; omega, mem_append_left _ hzero⟩
  rw [hdrop, if_neg hin', ← hv]
  -- the terminator ends the string before what was appended
  obtain ⟨l, r, hsplit⟩ := append_of_mem hzero
  have hnil : ∀ u : List UInt8, (l ++ 0 :: u).takeWhile (· ≠ 0) = l.takeWhile (· ≠ 0) := by
    intro u
    rw [takeWhile_append]
    split
    · next hall =>
      rw [takeWhile_cons_of_neg (by simp), append_nil]
      exact (( takeWhile_prefix _).eq_of_length hall).symm
    · rfl
  congr 1
  apply Subtype.ext
  show (s.drop off ++ t).takeWhile (· ≠ 0) = (s.drop off).takeWhile (· ≠ 0)
  rw [hsplit, append_assoc, cons_append, hnil, hnil]

end DvbIpiTools.Bim
