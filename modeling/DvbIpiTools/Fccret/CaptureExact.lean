import DvbIpiTools.Fccret.CaptureFrame

set_option autoImplicit false

/-! # The capture filter and the range list

The clauses of the program are chains of masked tests, and each is taken exactly by the addresses of its
range. Put together, the program decides membership as long as the jump over the IPv4 section fits its
8 bits. With 64 IPv4 ranges it no longer does: whatever is not IPv4 then lands inside that section. -/

namespace DvbIpiTools.Fccret

open ClassicBpf List

namespace Capture

/-! ## Prefixes bit by bit -/

theorem take_eq_take_iff (a b : V6Addr) {n : Nat} (hn : n ≤ 16) :
    a.bytes.take n = b.bytes.take n ↔ ∀ k < n, byteBits a.bytes k = byteBits b.bytes k := by
  have ha := a.length_eq
  have hb := b.length_eq
  constructor
  · intro h k hk
    have hget := congrArg (fun l => l.getD k 0) h
    simp only [getD_eq_getElem?_getD, getElem?_take, hk, if_true] at hget
    rw [byteBits, byteBits, getD_eq_getElem?_getD, getD_eq_getElem?_getD, hget]
  intro h
  apply ext_getElem
  · rw [length_take, length_take, ha, hb]
  intro k hk hk'
  rw [length_take, ha] at hk
  have hbit := h k (by omega)
  rw [byteBits, byteBits, getD_eq_getElem _ _ (by omega), getD_eq_getElem _ _ (by omega)] at hbit
  rw [getElem_take, getElem_take]
  exact UInt8.toBitVec_inj.1 hbit

variable {bits : Nat}

theorem v6PrefixMatch_iff (a b : V6Addr) (hbits : bits ≤ 128) :
    v6PrefixMatch a b bits = true ↔ ∀ i < bits, bitAt a.bytes i = bitAt b.bytes i := by
  have hbytes : (∀ k < bits / 8, byteBits a.bytes k = byteBits b.bytes k) ↔
      ∀ i < bits / 8 * 8, bitAt a.bytes i = bitAt b.bytes i := by
    constructor
    · intro h i hi
      have := (byteBits_eq_iff _ _ _).1 (h (i / 8) (by omega)) (i % 8) (by omega)
      rwa [Nat.div_add_mod] at this
    · intro h k hk
      exact (byteBits_eq_iff _ _ _).2 fun j hj => h _ (by omega)
  have hrem : byteBits a.bytes (bits / 8) &&& 0xFF#8 <<< (8 - bits % 8) =
      byteBits b.bytes (bits / 8) &&& 0xFF#8 <<< (8 - bits % 8) ↔
      ∀ j < bits % 8, bitAt a.bytes (8 * (bits / 8) + j) = bitAt b.bytes (8 * (bits / 8) + j) := by
    have := and_topMask_eq_iff (byteBits a.bytes (bits / 8)) (byteBits b.bytes (bits / 8))
      (show bits % 8 ≤ 8 by omega)
    refine this.trans (forall₂_congr fun j hj => ?_)
    rw [bitAt_byte _ _ (by omega), bitAt_byte _ _ (by omega)]
  have hsplit : (∀ i < bits, bitAt a.bytes i = bitAt b.bytes i) ↔
      (∀ i < bits / 8 * 8, bitAt a.bytes i = bitAt b.bytes i) ∧
      ∀ j < bits % 8, bitAt a.bytes (8 * (bits / 8) + j) = bitAt b.bytes (8 * (bits / 8) + j) := by
    constructor
    · exact fun h => ⟨fun i hi => h i (by omega), fun j hj => h _ (by omega)⟩
    · rintro ⟨hlow, hhigh⟩ i hi
      by_cases hlt : i < bits / 8 * 8
      · exact hlow i hlt
      · have := hhigh (i - 8 * (bits / 8)) (by omega)
        rwa [Nat.add_sub_cancel' (by omega)] at this
  rw [hsplit, ← hbytes, ← hrem, ← take_eq_take_iff a b (by omega)]
  simp only [v6PrefixMatch]
  by_cases hfull : bits / 8 ≠ 0 ∧ a.bytes.take (bits / 8) ≠ b.bytes.take (bits / 8)
  · rw [if_pos hfull]
    exact ⟨fun h => Bool.noConfusion h, fun h => absurd h.1 hfull.2⟩
  have htake : a.bytes.take (bits / 8) = b.bytes.take (bits / 8) := by
    by_contra hne
    refine hfull ⟨fun hzero => hne ?_, hne⟩
    rw [hzero, take_zero, take_zero]
  rw [if_neg hfull]
  by_cases hmod : bits % 8 ≠ 0
  · rw [if_pos hmod, decide_eq_true_eq]
    exact ⟨fun h => ⟨htake, h⟩, And.right⟩
  · rw [if_neg hmod]
    refine ⟨fun _ => ⟨htake, hrem.2 fun j hj => ?_⟩, fun _ => rfl⟩
    omega

theorem v6WordMask_eq (bits w : Nat) : v6WordMask bits w = topMask 32 (min 32 (bits - w * 32)) := by
  simp only [v6WordMask, topMask]
  split
  · next h =>
    rw [show min 32 (bits - w * 32) = 0 by omega]
    decide
  split
  · next h h' =>
    rw [show min 32 (bits - w * 32) = 32 by omega]
    decide
  · next h h' =>
    rw [show 32 - min 32 (bits - w * 32) = w * 32 + 32 - bits by omega]
    rfl

theorem v6Words_iff (a b : List UInt8) (hbits : bits ≤ 128) :
    (∀ w < 4, word a (w * 4) &&& v6WordMask bits w = word b (w * 4) &&& v6WordMask bits w) ↔
      ∀ i < bits, bitAt a i = bitAt b i := by
  have hword : ∀ w, word a (w * 4) &&& v6WordMask bits w = word b (w * 4) &&& v6WordMask bits w ↔
      ∀ j < min 32 (bits - w * 32), bitAt a (8 * (w * 4) + j) = bitAt b (8 * (w * 4) + j) := by
    intro w
    rw [v6WordMask_eq]
    refine (and_topMask_eq_iff _ _ (by omega)).trans (forall₂_congr fun j hj => ?_)
    rw [getMsbD_word _ _ (by omega), getMsbD_word _ _ (by omega)]
  constructor
  · intro h i hi
    have := (hword (i / 32)).1 (h _ (by omega)) (i % 32) (by omega)
    rwa [show 8 * (i / 32 * 4) + i % 32 = i by omega] at this
  · intro h w _
    exact (hword w).2 fun j hj => h _ (by omega)

/-! ## Clauses as chains of tests -/

/-- The tests of the IPv4 clauses. -/
def v4Tests (addrOff : Nat) (ranges : List Cidr) : List (List Test) :=
  ranges.filterMap fun c =>
    match c with
    | .v4 addr mask => some [⟨addrOff, mask, addr &&& mask⟩]
    | .v6 .. => none

/-- The test of one word of an IPv6 address. -/
def v6Test (addrOff : Nat) (addr : V6Addr) (bits w : Nat) : Test where
  off := addrOff + w * 4
  mask := v6WordMask bits w
  net := word addr.bytes (w * 4) &&& v6WordMask bits w

/-- The tests of the IPv6 clauses. -/
def v6Tests (addrOff : Nat) (ranges : List Cidr) : List (List Test) :=
  ranges.filterMap fun c =>
    match c with
    | .v4 .. => none
    | .v6 addr bits _ => some ((range 4).map (v6Test addrOff addr bits))

theorem emitV4Clauses_eq (addrOff : Nat) (ranges : List Cidr) :
    emitV4Clauses addrOff ranges = (v4Tests addrOff ranges).flatMap testChain := by
  induction ranges with
  | nil => rfl
  | cons c ranges ih =>
    rw [emitV4Clauses] at ih ⊢
    rw [flatMap_cons, ih]
    cases c with
    | _ => rfl

theorem emitV6Clauses_eq (addrOff : Nat) (ranges : List Cidr) :
    emitV6Clauses addrOff ranges = (v6Tests addrOff ranges).flatMap testChain := by
  induction ranges with
  | nil => rfl
  | cons c ranges ih =>
    rw [emitV6Clauses] at ih ⊢
    rw [flatMap_cons, ih]
    cases c with
    | _ => rfl

theorem length_emitV4Clauses (addrOff : Nat) (ranges : List Cidr) :
    (emitV4Clauses addrOff ranges).length = 4 * nv4 ranges := by
  induction ranges with
  | nil => rfl
  | cons c ranges ih =>
    rw [emitV4Clauses] at ih ⊢
    rw [flatMap_cons, length_append, ih]
    simp only [nv4, countP_cons]
    cases c with
    | v4 addr mask =>
      show 4 + _ = _
      simp only [Cidr.isV4, if_true]
      omega
    | v6 addr bits h => simp [Cidr.isV4]

variable {addrOff : Nat} {ts : List Test}

theorem mem_v4Tests {ranges : List Cidr} : ts ∈ v4Tests addrOff ranges ↔
      ∃ addr mask, Cidr.v4 addr mask ∈ ranges ∧ ts = [⟨addrOff, mask, addr &&& mask⟩] := by
  rw [v4Tests, mem_filterMap]
  constructor
  · rintro ⟨c, hc, hts⟩
    cases c with
    | v4 addr mask => exact ⟨addr, mask, hc, (Option.some.inj hts).symm⟩
    | v6 addr bits h => cases hts
  · rintro ⟨addr, mask, hc, rfl⟩
    exact ⟨_, hc, rfl⟩

theorem mem_v6Tests {ranges : List Cidr} : ts ∈ v6Tests addrOff ranges ↔ ∃ addr bits h, Cidr.v6 addr bits h ∈ ranges ∧
        ts = (range 4).map (v6Test addrOff addr bits) := by
  rw [v6Tests, mem_filterMap]
  constructor
  · rintro ⟨c, hc, hts⟩
    cases c with
    | v4 addr mask => cases hts
    | v6 addr bits h => exact ⟨addr, bits, h, hc, (Option.some.inj hts).symm⟩
  · rintro ⟨addr, bits, h, hc, rfl⟩
    exact ⟨_, hc, rfl⟩

variable {pkt : List UInt8} {ranges : List Cidr}

theorem v4Tests_hit_iff (addrOff : Nat) : (∃ ts ∈ v4Tests addrOff ranges, ∀ t ∈ ts, t.Holds pkt) ↔
      inRanges (.v4 (word pkt addrOff)) ranges = true := by
  rw [inRanges, any_eq_true]
  constructor
  · rintro ⟨ts, hts, hall⟩
    obtain ⟨addr, mask, hc, rfl⟩ := mem_v4Tests.1 hts
    have hmatch : word pkt addrOff &&& mask = addr &&& mask := hall ⟨addrOff, mask, addr &&& mask⟩ mem_cons_self
    exact ⟨.v4 addr mask, hc, by simp only [inRange, hmatch, decide_true]⟩
  rintro ⟨c, hc, hmatch⟩
  cases c with
  | v4 addr mask =>
    refine ⟨_, mem_v4Tests.2 ⟨addr, mask, hc, rfl⟩, fun t ht => ?_⟩
    rw [mem_singleton.1 ht]
    simp only [inRange, decide_eq_true_eq] at hmatch
    exact hmatch
  | v6 addr bits h => cases hmatch

variable {off : Nat} (h : off + 40 ≤ pkt.length)

theorem word_dst6 {w : Nat} (hw : w < 4) : word (dst6 pkt off h).bytes (w * 4) = word pkt (off + 24 + w * 4) := by
  have hbyte : ∀ k < 16, byteBits (dst6 pkt off h).bytes k = byteBits pkt (off + 24 + k) := by
    intro k hk
    simp [byteBits, dst6, getD_eq_getElem?_getD, hk]
  rw [word, word, hbyte _ (by omega), hbyte _ (by omega), hbyte _ (by omega), hbyte _ (by omega)]
  rfl

theorem v6Tests_hit_iff : (∃ ts ∈ v6Tests (off + 24) ranges, ∀ t ∈ ts, t.Holds pkt) ↔
      inRanges (.v6 (dst6 pkt off h)) ranges = true := by
  have hclause : ∀ (addr : V6Addr) (bits : Nat), bits ≤ 128 →
      ((∀ t ∈ (range 4).map (v6Test (off + 24) addr bits), t.Holds pkt) ↔
        v6PrefixMatch (dst6 pkt off h) addr bits = true) := by
    intro addr bits hbits
    rw [v6PrefixMatch_iff _ _ hbits, ← v6Words_iff _ _ hbits]
    simp only [mem_map, mem_range, forall_exists_index, and_imp, forall_apply_eq_imp_iff₂]
    refine forall₂_congr fun w hw => ?_
    rw [word_dst6 h hw]
    rfl
  rw [inRanges, any_eq_true]
  constructor
  · rintro ⟨ts, hts, hall⟩
    obtain ⟨addr, bits, hbits, hc, rfl⟩ := mem_v6Tests.1 hts
    exact ⟨_, hc, (hclause addr bits hbits).1 hall⟩
  · rintro ⟨c, hc, hmatch⟩
    cases c with
    | v4 addr mask => cases hmatch
    | v6 addr bits hbits =>
      exact ⟨_, mem_v6Tests.2 ⟨addr, bits, hbits, hc, rfl⟩, (hclause addr bits hbits).2 hmatch⟩

/-! ## The sections of a dispatch block -/

theorem exec_v4Section (off : Nat) (js : List Insn) (a : BitVec 32) :
    exec pkt (emitV4Clauses (off + 16) ranges ++ (.retK 0 :: js)) 0 a =
      if off + 20 ≤ pkt.length ∧ inRanges (.v4 (word pkt (off + 16))) ranges = true then 0xFFFFFFFF
      else 0 := by
  classical
  have hfit : ∀ ts ∈ v4Tests (off + 16) ranges, 3 * ts.length + 1 < 256 := by
    intro ts hts
    obtain ⟨addr, mask, -, rfl⟩ := mem_v4Tests.1 hts
    rw [length_singleton]
    decide
  rw [emitV4Clauses_eq]
  by_cases hlen : off + 20 ≤ pkt.length
  · rw [exec_chains hfit _ (fun _ => rfl)]
    · simp only [v4Tests_hit_iff, hlen, true_and]
    · intro ts hts t ht
      obtain ⟨addr, mask, -, rfl⟩ := mem_v4Tests.1 hts
      rw [mem_singleton.1 ht]
      exact hlen
  · rw [if_neg fun h => hlen h.1]
    refine exec_chains_short hfit (fun ts hts => ?_) (fun _ => rfl) a
    obtain ⟨addr, mask, -, rfl⟩ := mem_v4Tests.1 hts
    exact ⟨_, mem_cons_self, hlen⟩

theorem exec_v6Section (off : Nat) (js : List Insn) (a : BitVec 32) :
    exec pkt (emitV6Clauses (off + 24) ranges ++ (.retK 0 :: js)) 0 a =
      if ∃ h, inRanges (.v6 (dst6 pkt off h)) ranges = true then 0xFFFFFFFF else 0 := by
  classical
  have hfit : ∀ ts ∈ v6Tests (off + 24) ranges, 3 * ts.length + 1 < 256 := by
    intro ts hts
    obtain ⟨addr, bits, -, -, rfl⟩ := mem_v6Tests.1 hts
    rw [length_map, length_range]
    decide
  rw [emitV6Clauses_eq]
  by_cases hlen : off + 40 ≤ pkt.length
  · rw [exec_chains hfit _ (fun _ => rfl)]
    · simp only [v6Tests_hit_iff hlen, hlen, exists_true_left]
    intro ts hts t ht
    obtain ⟨addr, bits, -, -, rfl⟩ := mem_v6Tests.1 hts
    obtain ⟨w, hw, rfl⟩ := mem_map.1 ht
    have hw := mem_range.1 hw
    show off + 24 + w * 4 + 4 ≤ pkt.length
    omega
  rw [if_neg fun h => hlen h.fst]
  refine exec_chains_short hfit (fun ts hts => ?_) (fun _ => rfl) a
  obtain ⟨addr, bits, -, -, rfl⟩ := mem_v6Tests.1 hts
  refine ⟨_, mem_map_of_mem (mem_range.2 (show 3 < 4 by decide)), ?_⟩
  show ¬ off + 24 + 3 * 4 + 4 ≤ pkt.length
  omega

/-! ## Whole programs -/

theorem exec_dispatchBlock_eq (base : Nat) (js : List Insn) (et : BitVec 32) :
    exec pkt (emitDispatchBlock base ranges ++ js) 0 et = if et = ethPIp then
        exec pkt (emitV4Clauses (base + 16) ranges ++ (.retK 0 :: .jeqK ethPIpv6 1 0 :: .retK 0 ::
          (emitV6Clauses (base + 24) ranges ++ (.retK 0 :: js)))) 0 et
      else
        exec pkt (emitV4Clauses (base + 16) ranges ++ (.retK 0 :: .jeqK ethPIpv6 1 0 :: .retK 0 ::
          (emitV6Clauses (base + 24) ranges ++ (.retK 0 :: js))))
          ((v4ClauseInsns * nv4 ranges + 1) % 256) et := by
  simp only [emitDispatchBlock, append_assoc, cons_append, nil_append]
  rw [exec]
  split
  · rfl
  · rw [BitVec.toNat_ofNat]

theorem exec_dispatchBlock (hn : nv4 ranges ≤ 63) (base : Nat) (js : List Insn) (et : BitVec 32) :
    exec pkt (emitDispatchBlock base ranges ++ js) 0 et =
      if ∃ d, destinationAt pkt et base = some d ∧ inRanges d ranges = true then 0xFFFFFFFF
      else 0 := by
  rw [exec_dispatchBlock_eq, destinationAt]
  by_cases h4 : et = ethPIp
  · rw [if_pos h4, if_pos h4, exec_v4Section]
    by_cases hlen : base + 20 ≤ pkt.length
    · simp [hlen]
    · simp [hlen]
  rw [if_neg h4, if_neg h4]
  have hlen : (v4ClauseInsns * nv4 ranges + 1) % 256 = (emitV4Clauses (base + 16) ranges ++ [Insn.retK 0]).length := by
    rw [length_append, length_emitV4Clauses, length_singleton, v4ClauseInsns]
    omega
  rw [append_cons, exec_append_length _ hlen, exec]
  by_cases h6 : et = ethPIpv6
  · rw [if_pos h6, if_pos h6]
    show exec pkt (emitV6Clauses (base + 24) ranges ++ (.retK 0 :: js)) 0 et = _
    rw [exec_v6Section]
    by_cases hlen : base + 40 ≤ pkt.length
    · simp [hlen]
    · simp [hlen]
  · rw [if_neg h6, if_neg h6]
    simp [exec]

theorem length_emitV6Clauses (addrOff : Nat) (ranges : List Cidr) :
    (emitV6Clauses addrOff ranges).length = 13 * nv6 ranges := by
  induction ranges with
  | nil => rfl
  | cons c ranges ih =>
    rw [emitV6Clauses] at ih ⊢
    rw [flatMap_cons, length_append, ih]
    simp only [nv6, countP_cons]
    cases c with
    | v4 addr mask => simp [Cidr.isV4]
    | v6 addr bits h =>
      show 13 + _ = _
      simp only [Cidr.isV4, Bool.not_false, if_true]
      omega

theorem length_emitDispatchBlock (base : Nat) (ranges : List Cidr) :
    (emitDispatchBlock base ranges).length = bpfDispatchLen (nv4 ranges) (nv6 ranges) := by
  simp only [emitDispatchBlock, length_append, length_emitV4Clauses, length_emitV6Clauses,
    length_cons, length_nil, bpfDispatchLen, v4ClauseInsns, v6ClauseInsns, v6WordInsns]
  omega

/-- A program that is built is the one for the ranges, and short enough for its long jump. -/
theorem of_captureBuildBpf {prog : List Insn} (h : captureBuildBpf ranges = some prog) :
    prog = program ranges ∧ bpfDispatchLen (nv4 ranges) (nv6 ranges) < 2 ^ 32 := by
  simp only [captureBuildBpf] at h
  split at h
  · cases h
  · next htotal =>
    split at h
    · cases h
    · have hmax : maxInsns = 4096 := rfl
      exact ⟨(Option.some.inj h).symm, by omega⟩

/-- The prologue leaves the ethertype in the accumulator, before the block for it. -/
theorem exec_program (hlen : bpfDispatchLen (nv4 ranges) (nv6 ranges) < 2 ^ 32) :
    (etherType pkt = none ∧ exec pkt (program ranges) 0 0 = 0) ∨ ∃ et off js, etherType pkt = some (et, off) ∧
        exec pkt (program ranges) 0 0 = exec pkt (emitDispatchBlock off ranges ++ js) 0 et := by
  simp only [program, cons_append, nil_append, etherType]
  rw [exec]
  by_cases h14 : pkt.length < 14
  · exact .inl ⟨if_pos h14, if_neg (by omega)⟩
  rw [if_pos (show 12 + 2 ≤ pkt.length by omega), if_neg h14, exec]
  by_cases hvlan : half pkt 12 = ethP8021q
  · rw [if_pos hvlan, if_pos hvlan]
    have hja : exec pkt (.ja (BitVec.ofNat 32 (bpfDispatchLen (nv4 ranges) (nv6 ranges))) ::
        (emitDispatchBlock 14 ranges ++ (.ldAbsH 16 :: emitDispatchBlock 18 ranges))) 0
          (half pkt 12) = exec pkt (.ldAbsH 16 :: emitDispatchBlock 18 ranges) 0 (half pkt 12) := by
      refine exec_append_length _ ?_
      rw [BitVec.toNat_ofNat, length_emitDispatchBlock]
      exact Nat.mod_eq_of_lt hlen
    by_cases h18 : pkt.length < 14 + 4
    · refine .inl ⟨if_pos h18, hja.trans ?_⟩
      rw [exec, if_neg (by omega)]
    · refine .inr ⟨half pkt 16, 18, [], if_neg h18, hja.trans ?_⟩
      rw [exec, if_pos (by omega), append_nil]
  · rw [if_neg hvlan, if_neg hvlan]
    exact .inr ⟨half pkt 12, 14, _, rfl, rfl⟩

/-- While the jump over the IPv4 section fits, the program decides membership. -/
theorem accepts_program_iff (hlen : bpfDispatchLen (nv4 ranges) (nv6 ranges) < 2 ^ 32)
    (hn : nv4 ranges ≤ 63) (pkt : List UInt8) :
    accepts (program ranges) pkt = true ↔ ∃ d, destination pkt = some d ∧ inRanges d ranges = true := by
  rw [accepts, decide_eq_true_eq, destination]
  rcases @exec_program pkt ranges hlen with ⟨het, hexec⟩ | ⟨et, off, js, het, hexec⟩
  · rw [hexec, het]
    simp
  · rw [hexec, het, exec_dispatchBlock hn]
    split
    · next h => exact ⟨fun _ => h, fun _ => by decide⟩
    · next h => exact ⟨fun hne => absurd rfl hne, fun hd => absurd hd h⟩

/-! ## Too many IPv4 ranges -/

/-- The four bytes of an address. -/
def addrBytes (a : BitVec 32) : List UInt8 :=
  [.ofBitVec (a.extractLsb' 24 8), .ofBitVec (a.extractLsb' 16 8), .ofBitVec (a.extractLsb' 8 8),
    .ofBitVec (a.extractLsb' 0 8)]

variable (a : BitVec 32)

theorem word_addrBytes : word (addrBytes a) 0 = a := by
  apply BitVec.eq_of_getLsbD_eq
  intro i hi
  simp only [word, byteBits, addrBytes, getD_cons_zero, getD_cons_succ,
    UInt8.toBitVec_ofBitVec, BitVec.getLsbD_append, BitVec.getLsbD_extractLsb']
  by_cases h8 : i < 8
  · simp [h8]
  by_cases h16 : i < 16
  · simp [h8, show i - 8 < 8 by omega, show 8 + (i - 8) = i by omega]
  · by_cases h24 : i < 24
    · simp [h8, show ¬ i - 8 < 8 by omega, show i - 8 - 8 < 8 by omega, show 16 + (i - 8 - 8) = i by omega]
    · simp [h8, show ¬ i - 8 < 8 by omega, show ¬ i - 8 - 8 < 8 by omega,
        show i - 8 - 8 - 8 < 8 by omega, show 24 + (i - 8 - 8 - 8) = i by omega]

/-- An ARP frame with `a` where an IPv4 packet has its destination. -/
def arpFrame (a : BitVec 32) : List UInt8 :=
  replicate 12 0 ++ [0x08, 0x06] ++ replicate 16 0 ++ addrBytes a

theorem length_arpFrame : (arpFrame a).length = 34 := rfl

theorem etherType_arpFrame : etherType (arpFrame a) = some (0x0806, 14) := by
  have h12 : byteBits (arpFrame a) 12 = 0x08 := rfl
  have h13 : byteBits (arpFrame a) 13 = 0x06 := rfl
  have hhalf : half (arpFrame a) 12 = 0x0806 := by
    rw [half, h12, h13]
    decide
  have hvlan : (0x0806 : BitVec 32) ≠ ethP8021q := by decide
  rw [etherType, length_arpFrame, hhalf, if_neg (by decide), if_neg hvlan]

theorem destination_arpFrame : destination (arpFrame a) = none := by
  have hip : (0x0806 : BitVec 32) ≠ ethPIp := by decide
  have hipv6 : (0x0806 : BitVec 32) ≠ ethPIpv6 := by decide
  simp only [destination, etherType_arpFrame, destinationAt, if_neg hip, if_neg hipv6]

theorem word_arpFrame : word (arpFrame a) 30 = a := word_addrBytes a

theorem length_v4Tests (addrOff : Nat) (ranges : List Cidr) : (v4Tests addrOff ranges).length = nv4 ranges := by
  have hlen := length_emitV4Clauses addrOff ranges
  have hone : ∀ ts ∈ v4Tests addrOff ranges, (testChain ts).length = 4 := by
    intro ts hts
    obtain ⟨addr, mask, -, rfl⟩ := mem_v4Tests.1 hts
    rfl
  rw [emitV4Clauses_eq, length_flatMap, map_congr_left hone, map_const', sum_replicate_nat] at hlen
  omega

/-- With 64 IPv4 ranges or more, a frame without any destination is taken. -/
theorem arpFrame_accepted (hlen : bpfDispatchLen (nv4 ranges) (nv6 ranges) < 2 ^ 32) (hn : 64 ≤ nv4 ranges) :
    ∃ pkt, accepts (program ranges) pkt = true ∧ destination pkt = none := by
  -- the clause after the one the jump lands in
  have hq : nv4 ranges % 64 + 1 < (v4Tests 30 ranges).length := by
    rw [length_v4Tests]
    omega
  obtain ⟨addr, mask, -, hts⟩ := mem_v4Tests.1 (getElem_mem hq)
  refine ⟨arpFrame addr, ?_, destination_arpFrame addr⟩
  rw [accepts, decide_eq_true_eq]
  rcases @exec_program (arpFrame addr) ranges hlen with ⟨het, -⟩ | ⟨et, off, js, het, hexec⟩
  · rw [etherType_arpFrame] at het
    cases het
  rw [etherType_arpFrame] at het
  cases het
  have hip : (0x0806 : BitVec 32) ≠ ethPIp := by decide
  have hskip : (v4ClauseInsns * nv4 ranges + 1) % 256 = 4 * (nv4 ranges % 64) + 1 := by
    rw [v4ClauseInsns]
    omega
  have hhit : exec (arpFrame addr) (program ranges) 0 0 = 0xFFFFFFFF := by
    rw [hexec, exec_dispatchBlock_eq, if_neg hip, hskip, emitV4Clauses_eq]
    refine exec_into_chain ?_ (getElem?_eq_getElem hq) ?_ ?_ _ _
    · intro ts hts
      obtain ⟨addr, mask, -, rfl⟩ := mem_v4Tests.1 hts
      rfl
    · intro t ht
      rw [hts] at ht
      rw [mem_singleton.1 ht]
      exact le_rfl
    · intro t ht
      rw [hts] at ht
      rw [mem_singleton.1 ht]
      show word (arpFrame addr) 30 &&& mask = addr &&& mask
      rw [word_arpFrame]
  rw [hhit]
  decide

/-! ## The filter and the ranges -/

/-- The filter is exact, and in particular discards nothing that would be delivered, as long as there are
    at most 63 IPv4 ranges. -/
theorem filter_exact_iff {ranges : List Cidr} {prog : List Insn} (h : captureBuildBpf ranges = some prog) :
    ((∀ pkt, accepts prog pkt = true ↔ ∃ d, destination pkt = some d ∧ inRanges d ranges = true) ∧
      ∀ pkt, (captureHandleFrame pkt ranges).isSome = true → accepts prog pkt = true) ↔ nv4 ranges ≤ 63 := by
  obtain ⟨rfl, hlen⟩ := of_captureBuildBpf h
  constructor
  · rintro ⟨hexact, -⟩
    by_contra hn
    obtain ⟨pkt, hacc, hnone⟩ := arpFrame_accepted hlen (by omega)
    obtain ⟨d, hd, -⟩ := (hexact pkt).1 hacc
    rw [hnone] at hd
    cases hd
  · intro hn
    refine ⟨accepts_program_iff hlen hn, fun pkt hdeliver => ?_⟩
    exact (accepts_program_iff hlen hn pkt).2 (destination_of_delivered hdeliver)

/-- One range of each family. -/
def twoRanges : List Cidr := [.v4 0xEF000000 0xFF000000, .v6 ⟨0xFF :: replicate 15 0, rfl⟩ 8 (by decide)]

theorem filter_exact_iff_twoRanges : captureBuildBpf twoRanges = some (program twoRanges) ∧
    (((∀ pkt, accepts (program twoRanges) pkt = true ↔ ∃ d, destination pkt = some d ∧ inRanges d twoRanges = true) ∧
      ∀ pkt, (captureHandleFrame pkt twoRanges).isSome = true →
        accepts (program twoRanges) pkt = true) ↔ nv4 twoRanges ≤ 63) :=
  have h : captureBuildBpf twoRanges = some (program twoRanges) := by decide +kernel
  ⟨h, filter_exact_iff h⟩

/-- 64 ranges 239.x.0.0/16 and the range ff00::/8. -/
def manyRanges : List Cidr :=
  (range 64).map (fun i => .v4 (0xEF000000 + BitVec.ofNat 32 (i * 65536)) 0xFFFF0000) ++
    [.v6 ⟨0xFF :: replicate 15 0, rfl⟩ 8 (by decide)]

/-- A packet of a transport stream in RTP to ff02::1, port 5000. -/
def v6Frame : List UInt8 := replicate 12 0 ++ [0x86, 0xDD] ++
    [0x60, 0, 0, 0, 0, 21, 17, 1] ++ replicate 16 0 ++ ([0xFF, 0x02] ++ replicate 13 0 ++ [1]) ++
    [0x13, 0x88, 0x13, 0x88, 0, 21, 0, 0] ++ [0x80, 33, 0, 1, 0, 0, 0, 1, 0, 0, 0, 7] ++ [0x47]

/-- A frame that `capture_handle_frame` would deliver is discarded by the filter of the same ranges. -/
theorem v6Frame_discarded : captureBuildBpf manyRanges = some (program manyRanges) ∧
    (captureHandleFrame v6Frame manyRanges).isSome = true ∧
    (∃ d, destination v6Frame = some d ∧ inRanges d manyRanges = true) ∧
    accepts (program manyRanges) v6Frame = false := by
  have hdeliver : (captureHandleFrame v6Frame manyRanges).isSome = true := by decide +kernel
  exact ⟨by decide +kernel, hdeliver, destination_of_delivered hdeliver, by decide +kernel⟩

end Capture

end DvbIpiTools.Fccret
