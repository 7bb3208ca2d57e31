import Mathlib.Data.List.GetD

set_option autoImplicit false

/-! # Classic packet filter programs

The part of the classic BPF machine that address filters need: absolute loads, a mask, an equality test
and forward jumps. A jump counts from the next instruction and skips that many, so a program is run by
recursion on what is left of it. -/

namespace ClassicBpf

open List

/-- `struct sock_filter`, by its code; the conditional distances have 8 bits. -/
inductive Insn
  /-- `BPF_LD | BPF_H | BPF_ABS` -/
  | ldAbsH (k : Nat)
  /-- `BPF_LD | BPF_W | BPF_ABS` -/
  | ldAbsW (k : Nat)
  /-- `BPF_ALU | BPF_AND | BPF_K` -/
  | andK (k : BitVec 32)
  /-- `BPF_JMP | BPF_JEQ | BPF_K` -/
  | jeqK (k : BitVec 32) (jt jf : BitVec 8)
  /-- `BPF_JMP | BPF_JA` -/
  | ja (k : BitVec 32)
  /-- `BPF_RET | BPF_K` -/
  | retK (k : BitVec 32)
deriving DecidableEq

/-! ## Packet bytes -/

/-- The byte `i` of a packet. -/
def byteBits (p : List UInt8) (i : Nat) : BitVec 8 := (p.getD i 0).toBitVec

/-- Two bytes in network order. -/
def half (p : List UInt8) (i : Nat) : BitVec 32 := (byteBits p i ++ byteBits p (i + 1)).setWidth 32

/-- Four bytes in network order. -/
def word (p : List UInt8) (i : Nat) : BitVec 32 :=
  byteBits p i ++ byteBits p (i + 1) ++ byteBits p (i + 2) ++ byteBits p (i + 3)

/-! ## Runs -/

/-- The machine before the instructions `is` of which `skip` are jumped over, with `a` in the
    accumulator. The value is what the program returns; a load outside the packet returns 0. -/
def exec (p : List UInt8) : List Insn → Nat → BitVec 32 → BitVec 32
  | [], _, _ => 0
  | _ :: is, skip + 1, a => exec p is skip a
  | .ldAbsH k :: is, 0, _ => if k + 2 ≤ p.length then exec p is 0 (half p k) else 0
  | .ldAbsW k :: is, 0, _ => if k + 4 ≤ p.length then exec p is 0 (word p k) else 0
  | .andK k :: is, 0, a => exec p is 0 (a &&& k)
  | .jeqK k jt jf :: is, 0, a => exec p is (if a = k then jt else jf).toNat a
  | .ja k :: is, 0, a => exec p is k.toNat a
  | .retK k :: _, 0, _ => k

/-- A program takes the packets for which it returns a length. -/
def accepts (prog : List Insn) (p : List UInt8) : Bool := exec p prog 0 0 ≠ 0

variable {p : List UInt8}

theorem exec_append (is js : List Insn) (n : Nat) (a : BitVec 32) :
    exec p (is ++ js) (is.length + n) a = exec p js n a := by
  induction is with
  | nil => rw [nil_append, length_nil, Nat.zero_add]
  | cons i is ih => rw [cons_append, length_cons, Nat.add_right_comm, exec, ih]

variable {is js : List Insn}

theorem exec_append_length {n : Nat} (a : BitVec 32) (h : n = is.length) : exec p (is ++ js) n a = exec p js 0 a := by
  have := @exec_append p is js 0 a
  rwa [Nat.add_zero, ← h] at this

/-! ## Masked tests -/

/-- One word of the packet compared under a mask; where it differs, `jf` instructions are skipped. -/
def testWord (off : Nat) (mask net : BitVec 32) (jf : BitVec 8) : List Insn :=
  [.ldAbsW off, .andK mask, .jeqK net 0 jf]

@[simp] theorem length_testWord (off : Nat) (mask net : BitVec 32) (jf : BitVec 8) :
    (testWord off mask net jf).length = 3 := rfl

variable {off : Nat} {mask net : BitVec 32} {jf : BitVec 8}

/-- A test goes on with `is` where the word matches, and past it where it does not. -/
theorem exec_testWord (hjf : jf.toNat = is.length) (a : BitVec 32) (hlen : off + 4 ≤ p.length) :
    exec p (testWord off mask net jf ++ (is ++ js)) 0 a =
      if word p off &&& mask = net then exec p (is ++ js) 0 (word p off &&& mask)
      else exec p js 0 (word p off &&& mask) := by
  rw [testWord, cons_append, cons_append, cons_append, nil_append, exec, if_pos hlen, exec, exec]
  by_cases h : word p off &&& mask = net
  · rw [if_pos h, if_pos h]
    rfl
  · rw [if_neg h, if_neg h]
    exact exec_append_length _ hjf

theorem exec_testWord_short (a : BitVec 32) (hlen : ¬ off + 4 ≤ p.length) :
    exec p (testWord off mask net jf ++ is) 0 a = 0 := by
  rw [testWord, cons_append, exec, if_neg hlen]

/-! ## Bits in network order -/

/-- The bit `i` of a byte string, the first one highest. -/
def bitAt (p : List UInt8) (i : Nat) : Bool := (byteBits p (i / 8)).getMsbD (i % 8)

variable {j : Nat}

theorem bitAt_byte (p : List UInt8) (k : Nat) (hj : j < 8) : (byteBits p k).getMsbD j = bitAt p (8 * k + j) := by
  rw [bitAt, show (8 * k + j) / 8 = k by omega, show (8 * k + j) % 8 = j by omega]

theorem getMsbD_word (p : List UInt8) (i : Nat) (hj : j < 32) : (word p i).getMsbD j = bitAt p (8 * i + j) := by
  simp only [word, BitVec.getMsbD_append]
  split
  · rw [bitAt_byte p (i + 3) (by omega)]
    congr 1
    omega
  split
  · rw [bitAt_byte p (i + 2) (by omega)]
    congr 1
    omega
  · split
    · rw [bitAt_byte p (i + 1) (by omega)]
      congr 1
      omega
    · exact bitAt_byte p i (by omega)

/-- The mask of the first `k` of `w` bits. -/
def topMask (w k : Nat) : BitVec w := BitVec.allOnes w <<< (w - k)

variable {w k : Nat}

theorem getMsbD_topMask (hk : k ≤ w) : (topMask w k).getMsbD j = decide (j < k) := by
  rw [topMask, BitVec.getMsbD_shiftLeft, BitVec.getMsbD_allOnes]
  congr 1
  rw [eq_iff_iff]
  omega

/-- Two words agree under the mask of the first `k` bits when those bits agree. -/
theorem and_topMask_eq_iff (x y : BitVec w) (hk : k ≤ w) :
    x &&& topMask w k = y &&& topMask w k ↔ ∀ j < k, x.getMsbD j = y.getMsbD j := by
  constructor
  · intro h j hj
    have hbit := congrArg (fun z => z.getMsbD j) h
    simpa [getMsbD_topMask hk, hj] using hbit
  intro h
  apply BitVec.eq_of_getMsbD_eq
  intro j _
  rw [BitVec.getMsbD_and, BitVec.getMsbD_and, getMsbD_topMask hk]
  by_cases hj : j < k
  · rw [h j hj]
  · simp [hj]

theorem byteBits_eq_iff (p q : List UInt8) (k : Nat) :
    byteBits p k = byteBits q k ↔ ∀ j < 8, bitAt p (8 * k + j) = bitAt q (8 * k + j) := by
  constructor
  · intro h j hj
    rw [← bitAt_byte p k hj, ← bitAt_byte q k hj, h]
  · intro h
    apply BitVec.eq_of_getMsbD_eq
    intro j hj
    rw [bitAt_byte p k hj, bitAt_byte q k hj, h j hj]

/-! ## Chains of tests -/

/-- A word of the packet to be compared under a mask. -/
structure Test where
  off : Nat
  mask : BitVec 32
  net : BitVec 32

def Test.Inside (p : List UInt8) (t : Test) : Prop := t.off + 4 ≤ p.length

def Test.Holds (p : List UInt8) (t : Test) : Prop := word p t.off &&& t.mask = t.net

/-- The program that takes the packet where every test holds, and else goes on behind itself. -/
def testChain : List Test → List Insn
  | [] => [.retK 0xFFFFFFFF]
  | t :: ts => testWord t.off t.mask t.net (BitVec.ofNat 8 (testChain ts).length) ++ testChain ts

@[simp] theorem length_testChain (ts : List Test) : (testChain ts).length = 3 * ts.length + 1 := by
  induction ts with
  | nil => rfl
  | cons t ts ih =>
    rw [testChain, length_append, length_testWord, ih, length_cons]
    omega

variable {ts : List Test} (hfit : 3 * ts.length + 1 < 256)

include hfit

/-- The distances of a chain that fits into 8 bits are as they should be. -/
theorem toNat_ofNat_length : (BitVec.ofNat 8 (testChain ts).length).toNat = (testChain ts).length := by
  rw [BitVec.toNat_ofNat, length_testChain]
  exact Nat.mod_eq_of_lt hfit

theorem exec_testChain_hit (hlen : ∀ t ∈ ts, t.Inside p) (hall : ∀ t ∈ ts, t.Holds p) (js : List Insn) (a : BitVec 32) :
    exec p (testChain ts ++ js) 0 a = 0xFFFFFFFF := by
  induction ts generalizing a with
  | nil => rfl
  | cons t ts ih =>
    rw [length_cons] at hfit
    have ht : word p t.off &&& t.mask = t.net := hall t mem_cons_self
    rw [testChain, append_assoc, exec_testWord (toNat_ofNat_length (by omega)) a
      (hlen t mem_cons_self), if_pos ht]
    exact ih (by omega) (fun u hu => hlen u (mem_cons_of_mem t hu))
      (fun u hu => hall u (mem_cons_of_mem t hu)) _

theorem exec_testChain_miss (hlen : ∀ t ∈ ts, t.Inside p) (hmiss : ¬ ∀ t ∈ ts, t.Holds p) (js : List Insn)
    (a : BitVec 32) : ∃ a', exec p (testChain ts ++ js) 0 a = exec p js 0 a' := by
  induction ts generalizing a with
  | nil => exact absurd (fun t ht => nomatch ht) hmiss
  | cons t ts ih =>
    rw [length_cons] at hfit
    rw [testChain, append_assoc, exec_testWord (toNat_ofNat_length (by omega)) a
      (hlen t mem_cons_self)]
    split
    · next ht =>
      refine ih (by omega) (fun u hu => hlen u (mem_cons_of_mem t hu)) (fun hall => hmiss ?_) _
      exact forall_mem_cons.2 ⟨ht, hall⟩
    · exact ⟨_, rfl⟩

/-- A packet that ends inside a chain is not taken, unless what follows takes it. -/
theorem exec_testChain_short (hshort : ∃ t ∈ ts, ¬ t.Inside p) (hjs : ∀ a, exec p js 0 a = 0)
    (a : BitVec 32) : exec p (testChain ts ++ js) 0 a = 0 := by
  induction ts generalizing a with
  | nil => exact absurd hshort (by simp)
  | cons t ts ih =>
    rw [length_cons] at hfit
    rw [testChain, append_assoc]
    by_cases hlen : t.Inside p
    · rw [exec_testWord (toNat_ofNat_length (by omega)) a hlen]
      have hshort' : ∃ t ∈ ts, ¬ t.Inside p := by
        obtain ⟨u, hu, hnot⟩ := hshort
        rcases mem_cons.1 hu with rfl | hu
        · exact absurd hlen hnot
        · exact ⟨u, hu, hnot⟩
      split
      · exact ih (by omega) hshort' _
      · exact hjs _
    · exact exec_testWord_short a hlen

omit hfit

/-! ## Alternatives -/

variable {css : List (List Test)}

/-- Several chains one after the other: taken where one of them takes the packet. -/
theorem exec_chains (hfit : ∀ ts ∈ css, 3 * ts.length + 1 < 256) (hlen : ∀ ts ∈ css, ∀ t ∈ ts, t.Inside p)
    (hjs : ∀ a, exec p js 0 a = 0) [Decidable (∃ ts ∈ css, ∀ t ∈ ts, t.Holds p)] (a : BitVec 32) :
    exec p (css.flatMap testChain ++ js) 0 a = if ∃ ts ∈ css, ∀ t ∈ ts, t.Holds p then 0xFFFFFFFF else 0 := by
  split
  · next h =>
    obtain ⟨ts, hts, hall⟩ := h
    induction css generalizing a with
    | nil => cases hts
    | cons cs css ih =>
      obtain ⟨hcs, hfit⟩ := forall_mem_cons.1 hfit
      obtain ⟨hlcs, hlen⟩ := forall_mem_cons.1 hlen
      rw [flatMap_cons, append_assoc]
      by_cases hhit : ∀ t ∈ cs, t.Holds p
      · exact exec_testChain_hit hcs hlcs hhit _ a
      · obtain ⟨a', heq⟩ := exec_testChain_miss hcs hlcs hhit (css.flatMap testChain ++ js) a
        rw [heq]
        rcases mem_cons.1 hts with rfl | hts
        · exact absurd hall hhit
        · exact ih hfit hlen a' hts
  · next h =>
    induction css generalizing a with
    | nil => exact hjs a
    | cons cs css ih =>
      obtain ⟨hcs, hfit⟩ := forall_mem_cons.1 hfit
      obtain ⟨hlcs, hlen⟩ := forall_mem_cons.1 hlen
      rw [flatMap_cons, append_assoc]
      obtain ⟨a', heq⟩ := exec_testChain_miss hcs hlcs (fun hall => h ⟨cs, mem_cons_self, hall⟩)
        (css.flatMap testChain ++ js) a
      rw [heq]
      exact ih hfit hlen a' fun ⟨ts, hts, hall⟩ => h ⟨ts, mem_cons_of_mem cs hts, hall⟩

theorem exec_chains_short (hfit : ∀ ts ∈ css, 3 * ts.length + 1 < 256)
    (hshort : ∀ ts ∈ css, ∃ t ∈ ts, ¬ t.Inside p) (hjs : ∀ a, exec p js 0 a = 0)
    (a : BitVec 32) : exec p (css.flatMap testChain ++ js) 0 a = 0 := by
  induction css generalizing a with
  | nil => exact hjs a
  | cons cs css ih =>
    obtain ⟨hcs, hfit⟩ := forall_mem_cons.1 hfit
    obtain ⟨hscs, hshort⟩ := forall_mem_cons.1 hshort
    rw [flatMap_cons, append_assoc]
    exact exec_testChain_short hcs hscs (ih hfit hshort) a

/-- A jump to the second instruction of a chain of one test: where the accumulator does not happen to
    match, the chains behind it decide. -/
theorem exec_into_chain (hone : ∀ ts ∈ css, ts.length = 1) {q : Nat} (hget : css[q + 1]? = some ts) (hlen : ∀ t ∈ ts, t.Inside p)
    (hall : ∀ t ∈ ts, t.Holds p) (js : List Insn) (a : BitVec 32) :
    exec p (css.flatMap testChain ++ js) (4 * q + 1) a = 0xFFFFFFFF := by
  induction q generalizing css with
  | zero =>
    match css, hget with
    | cs :: ds :: css, hget =>
      obtain rfl : ds = ts := by simpa using hget
      obtain ⟨u, rfl⟩ := length_eq_one_iff.1 (hone cs mem_cons_self)
      have hds := hone ds (.tail _ mem_cons_self)
      have hhit := fun a => exec_testChain_hit (by omega) hlen hall (css.flatMap testChain ++ js) a
      rw [flatMap_cons, flatMap_cons, append_assoc, append_assoc]
      show exec p (.ldAbsW u.off :: .andK u.mask :: .jeqK u.net 0 1 :: .retK 0xFFFFFFFF ::
        (testChain ds ++ (css.flatMap testChain ++ js))) 1 a = _
      rw [exec, exec, exec]
      split
      · rfl
      · exact hhit _
  | succ q ih =>
    match css, hget with
    | cs :: css, hget =>
      have hcs := hone cs mem_cons_self
      rw [flatMap_cons, append_assoc, show 4 * (q + 1) + 1 = (testChain cs).length + (4 * q + 1) by
          rw [length_testChain]
          omega, exec_append]
      exact ih (fun ts hts => hone ts (mem_cons_of_mem cs hts)) (by simpa using hget)

end ClassicBpf
