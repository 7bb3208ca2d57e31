import Mathlib.Data.Prod.Lex
import Mathlib.Data.List.Lex
import DvbIpiTools.Bim.Index.Model

set_option autoImplicit false

/-! # The order of index entries

The comparisons are those of a linear order, as long as the time keys are valid: each entry has a key
in it, `strcmp` orders by the bytes, times by the instant first. So sorted entries are sorted by their
tuples, and a contiguous part of them is. -/

namespace DvbIpiTools.Bim.Index

open DateUtil List

/-- The bytes of a string as numbers: `strcmp` is their lexicographic order. -/
def bytesKey (s : CStr) : List ℕ := s.val.map UInt8.toNat

variable {a b : CStr}

theorem bytesKey_injective (h : bytesKey a = bytesKey b) : a = b :=
  Subtype.ext (map_injective_iff.2 (fun _ _ hxy => UInt8.toNat_inj.1 hxy) h)

theorem strcmp_compares (a b : CStr) : (strcmp a b).Compares (bytesKey a) (bytesKey b) := by
  obtain ⟨as, ha⟩ := a
  obtain ⟨bs, hb⟩ := b
  show (strcmpFrom as bs).Compares (as.map UInt8.toNat) (bs.map UInt8.toNat)
  clear ha hb
  induction as generalizing bs with
  | nil =>
    cases bs with
    | nil => rfl
    | cons b bs => exact nil_lt_cons _ _
  | cons a as ih =>
    cases bs with
    | nil => exact nil_lt_cons _ _
    | cons b bs =>
      rw [strcmpFrom]
      split
      · next h => exact cons_lt_cons_iff.2 (.inl (UInt8.lt_iff_toNat_lt.1 h))
      split
      · next h => exact cons_lt_cons_iff.2 (.inl (UInt8.lt_iff_toNat_lt.1 h))
      rename_i h1 h2
      have heq : a.toNat = b.toNat := by
        rw [UInt8.lt_iff_toNat_lt] at h1 h2
        omega
      have hrest := ih bs
      rw [map_cons, map_cons, heq]
      cases hs : strcmpFrom as bs with
      | eq =>
        rw [hs] at hrest
        exact congrArg _ hrest
      | _ =>
        rw [hs] at hrest
        exact cons_lt_cons_iff.2 (.inr ⟨rfl, hrest⟩)

theorem compares_then {α β : Type} [LinearOrder α] [LinearOrder β] {o o' : Ordering} {a a' : α}
    {b b' : β} (h : o.Compares a a') (h' : o'.Compares b b') :
    (if o ≠ .eq then o else o').Compares (toLex (a, b)) (toLex (a', b')) := by
  cases o with
  | eq =>
    obtain rfl : a = a' := h
    cases o' with
    | eq =>
      obtain rfl : b = b' := h'
      rfl
    | _ => exact Prod.Lex.toLex_lt_toLex.2 (.inr ⟨rfl, h'⟩)
  | _ => exact Prod.Lex.toLex_lt_toLex.2 (.inl h)

theorem compare_compares {α : Type} [LinearOrder α] (a b : α) : (compare a b).Compares a b :=
  compare_iff a b |>.mp rfl

/-! ## Keys, tuples and entries -/

/-- A time key is valid; other keys always are. -/
def Valid (k : Kind) (s : CStr) : Prop := k.timeKey = true → (iso8601UtcSecs s).isSome

/-- Where `key_cmp` orders a key. -/
def orderKey (timeKey : Bool) (s : CStr) : ℤ ×ₗ List ℕ :=
  toLex (if timeKey then (iso8601UtcSecs s).getD 0 else 0, bytesKey s)

/-- Where `tuple_cmp` orders a tuple. -/
def tupleKey (k : Kind) (t : CStr × CStr) : (ℤ ×ₗ List ℕ) ×ₗ List ℕ :=
  toLex (orderKey k.timeKey t.1, if k.nfields < 2 then [] else bytesKey t.2)

/-- Where `entry_cmp` orders an entry. -/
def entryKey (k : Kind) (e : Entry) : ((ℤ ×ₗ List ℕ) ×ₗ List ℕ) ×ₗ ℕ ×ₗ ℕ :=
  toLex (tupleKey k (e.key0, e.key1), toLex (e.container.toNat, e.fragment.toNat))

variable {k : Kind}

theorem keyCmp_compares (ha : Valid k a) (hb : Valid k b) :
    (keyCmp k.timeKey a b).Compares (orderKey k.timeKey a) (orderKey k.timeKey b) := by
  unfold keyCmp orderKey
  cases ht : k.timeKey with
  | false =>
    have := compares_then (show Ordering.eq.Compares (0 : ℤ) 0 from rfl) (strcmp_compares a b)
    simpa using this
  | true =>
    obtain ⟨x, hx⟩ := Option.isSome_iff_exists.1 (ha ht)
    obtain ⟨y, hy⟩ := Option.isSome_iff_exists.1 (hb ht)
    have := compares_then (compare_compares x y) (strcmp_compares a b)
    simp only [hx, hy, Option.getD_some, if_true]
    by_cases hxy : x = y
    · simpa [hxy] using this
    · have hne : compare x y ≠ .eq := fun h => hxy (compare_eq_iff_eq.1 h)
      rw [if_pos hxy]
      rwa [if_pos hne] at this

theorem tupleCmp_compares {k : Kind} {a b : CStr × CStr} (ha : Valid k a.1) (hb : Valid k b.1) :
    (tupleCmp k a b).Compares (tupleKey k a) (tupleKey k b) := by
  have hkey := keyCmp_compares ha hb
  unfold tupleCmp tupleKey
  by_cases hn : k.nfields < 2
  · have := compares_then hkey (show Ordering.eq.Compares ([] : List ℕ) [] from rfl)
    rw [if_pos (.inr hn), if_pos hn, if_pos hn]
    by_cases hc : keyCmp k.timeKey a.1 b.1 = .eq
    · rw [hc] at this ⊢
      exact this
    · rwa [if_pos hc] at this
  · have := compares_then hkey (strcmp_compares a.2 b.2)
    simpa [hn] using this

theorem locator_compares (a b : Entry) : (if a.container ≠ b.container then compare a.container.toNat b.container.toNat
      else compare a.fragment.toNat b.fragment.toNat).Compares
      (toLex (a.container.toNat, a.fragment.toNat)) (toLex (b.container.toNat, b.fragment.toNat)) := by
  have hloc := compares_then (compare_compares a.container.toNat b.container.toNat)
    (compare_compares a.fragment.toNat b.fragment.toNat)
  by_cases h : a.container = b.container
  · simpa [h] using hloc
  · have hne : compare a.container.toNat b.container.toNat ≠ .eq := fun hc =>
      h (UInt16.toNat_inj.1 (compare_eq_iff_eq.1 hc))
    rw [if_pos hne] at hloc
    rwa [if_pos h]

theorem entryCmp_compares {a b : Entry} (ha : Valid k a.key0) (hb : Valid k b.key0) :
    (entryCmp k a b).Compares (entryKey k a) (entryKey k b) :=
  compares_then (@tupleCmp_compares k (a.key0, a.key1) (b.key0, b.key1) ha hb) (locator_compares a b)

/-! ## Sorted entries -/

theorem sortEntries_perm (k : Kind) (e : List Entry) : (sortEntries k e).Perm e := by
  unfold sortEntries
  split
  · exact perm_insertionSort _ e
  · exact Perm.refl e

variable {e : List Entry}

theorem sortEntries_sorted (h : ∀ x ∈ e, Valid k x.key0) :
    (sortEntries k e).Pairwise fun a b => tupleKey k (a.key0, a.key1) ≤ tupleKey k (b.key0, b.key1) := by
  unfold sortEntries
  split
  · have hle : ∀ a ∈ e, ∀ b ∈ e, entryCmp k a b ≠ .gt ↔ entryKey k (id a) ≤ entryKey k (id b) := by
      intro a ha b hb
      have hc := entryCmp_compares (h a ha) (h b hb)
      exact hc.ne_gt
    have heq := map_insertionSort _ (fun a b : Entry => entryKey k a ≤ entryKey k b) id e hle
    rw [map_id, map_id] at heq
    rw [heq]
    refine (pairwise_insertionSort _ e).imp fun {a b} hab => ?_
    rcases Prod.Lex.toLex_le_toLex.1 hab with hlt | ⟨heq, -⟩
    · exact le_of_lt hlt
    · exact le_of_eq heq
  · next hlen =>
    cases e with
    | nil => exact Pairwise.nil
    | cons x xs =>
      cases xs with
      | nil => exact pairwise_singleton _ _
      | cons y ys =>
        rw [length_cons, length_cons] at hlen
        omega

theorem strcmp_eq_iff : strcmp a b = .eq ↔ a = b := by
  rw [(strcmp_compares a b).eq_eq]
  exact ⟨bytesKey_injective, congrArg _⟩

theorem keyCmp_eq_iff {timeKey : Bool} {a b : CStr} : keyCmp timeKey a b = .eq ↔ a = b := by
  unfold keyCmp
  split
  · split
    · next x y hx hy =>
      split
      · next hne =>
        refine ⟨fun h => absurd (compare_eq_iff_eq.1 h) hne, fun h => ?_⟩
        rw [h, hy] at hx
        exact absurd (Option.some.inj hx).symm hne
      · exact strcmp_eq_iff
    · exact strcmp_eq_iff
  · exact strcmp_eq_iff

/-! ## Chunks -/

/-- The chunks the entries are cut into. -/
def chunksFrom (k : Kind) : Nat → List Entry → List (List Entry)
  | 0, _ => []
  | _ + 1, [] => []
  | fuel + 1, e :: es => (e :: es).take (cut k (e :: es)) :: chunksFrom k fuel ((e :: es).drop (cut k (e :: es)))

/-- The chunks of the sorted entries of a kind. -/
def chunks (k : Kind) (e : List Entry) : List (List Entry) := chunksFrom k e.length e

theorem chunkLenFrom_le (k : Kind) (strs i : Nat) (e : List Entry) :
    chunkLenFrom k strs i e ≤ i + e.length ∧ chunkLenFrom k strs i e ≤ max i 0xFFFF := by
  induction e generalizing strs i with
  | nil => exact ⟨Nat.le_add_right _ _, Nat.le_max_left _ _⟩
  | cons x xs ih =>
    rw [chunkLenFrom, length_cons]
    split
    · next h =>
      have := ih (strs + entryStrlen k x) (i + 1)
      omega
    · omega

theorem cutBack_le (e : List Entry) (m : Nat) : cutBack e m ≤ m := by
  induction m with
  | zero => exact le_rfl
  | succ m ih =>
    rw [cutBack]
    split
    · split
      · omega
      · exact le_rfl
    · exact le_rfl

theorem cut_le (k : Kind) (e : List Entry) : cut k e ≤ e.length ∧ cut k e ≤ 0xFFFF := by
  have hlen : chunkLen k e ≤ e.length ∧ chunkLen k e ≤ 0xFFFF := by
    have := chunkLenFrom_le k 1 0 e
    rw [chunkLen]
    omega
  have hback := cutBack_le e (chunkLen k e)
  unfold cut
  split
  · omega
  · exact hlen

theorem chunksFrom_length_le (k : Kind) (fuel : Nat) (e : List Entry) :
    ∀ c ∈ chunksFrom k fuel e, c.length ≤ 0xFFFF := by
  induction fuel generalizing e with
  | zero => simp [chunksFrom]
  | succ fuel ih =>
    cases e with
    | nil => simp [chunksFrom]
    | cons x xs =>
      rw [chunksFrom, forall_mem_cons, length_take]
      have := cut_le k (x :: xs)
      exact ⟨by omega, ih _⟩

/-! # What `qsort` is promised of `entry_cmp`

`key_cmp` compares two instants if it can read both and falls back to `strcmp` if it cannot. A key that is no time can
so stand between two times that the instants put the other way round, and the three make a cycle. This is the only way
in which the comparison of entries is not an order. -/

/-! ## Antisymmetry -/

theorem strcmp_swap (a b : CStr) : strcmp b a = (strcmp a b).swap :=
  (strcmp_compares b a).inj (strcmp_compares a b).swap

theorem keyCmp_swap (timeKey : Bool) (a b : CStr) : keyCmp timeKey b a = (keyCmp timeKey a b).swap := by
  unfold keyCmp
  split
  · rcases iso8601UtcSecs a with _ | x
    · cases iso8601UtcSecs b <;> exact strcmp_swap a b
    rcases iso8601UtcSecs b with _ | y
    · exact strcmp_swap a b
    by_cases hxy : x = y
    · subst hxy
      simp only [ne_eq, not_true_eq_false, if_false]
      exact strcmp_swap a b
    · simp only [ne_eq, hxy, Ne.symm hxy, not_false_eq_true, if_true]
      exact (compare_compares y x).inj (compare_compares x y).swap
  · exact strcmp_swap a b

/-- The part of an entry that is compared when the first keys are alike. -/
def restKey (k : Kind) (e : Entry) : List ℕ ×ₗ ℕ ×ₗ ℕ :=
  toLex (if k.nfields < 2 then [] else bytesKey e.key1, toLex (e.container.toNat, e.fragment.toNat))

/-- `entry_cmp` is `key_cmp`, and for equal keys an order of what is left. -/
theorem entryCmp_spec (k : Kind) (a b : Entry) : ∃ o : Ordering, o.Compares (restKey k a) (restKey k b) ∧
      entryCmp k a b = if keyCmp k.timeKey a.key0 b.key0 ≠ .eq then keyCmp k.timeKey a.key0 b.key0 else o := by
  by_cases hn : k.nfields < 2
  · have hkey : ∀ e, restKey k e = toLex ([], toLex (e.container.toNat, e.fragment.toNat)) := fun e => by
      rw [restKey, if_pos hn]
    rw [hkey, hkey]
    refine ⟨_, compares_then (show Ordering.eq.Compares ([] : List ℕ) [] from rfl) (locator_compares a b), ?_⟩
    simp [entryCmp, tupleCmp, hn]
  have hkey : ∀ e, restKey k e = toLex (bytesKey e.key1, toLex (e.container.toNat, e.fragment.toNat)) := fun e => by
    rw [restKey, if_neg hn]
  rw [hkey, hkey]
  refine ⟨_, compares_then (strcmp_compares a.key1 b.key1) (locator_compares a b), ?_⟩
  by_cases hk : keyCmp k.timeKey a.key0 b.key0 = .eq
  · simp [entryCmp, tupleCmp, hn, hk]
  · simp [entryCmp, tupleCmp, hk]

theorem entryCmp_swap (k : Kind) (a b : Entry) : entryCmp k b a = (entryCmp k a b).swap := by
  obtain ⟨o, ho, hab⟩ := entryCmp_spec k a b
  obtain ⟨o', ho', hba⟩ := entryCmp_spec k b a
  have hswap : o' = o.swap := ho'.inj ho.swap
  rw [hab, hba, keyCmp_swap k.timeKey a.key0 b.key0, hswap]
  cases keyCmp k.timeKey a.key0 b.key0 <;> rfl

/-! ## Cycles -/

/-- A key that is no time between two times that the instants put the other way round. -/
def Crossed (a b c : CStr) : Prop :=
  ∃ x y, iso8601UtcSecs a = some x ∧ iso8601UtcSecs b = none ∧ iso8601UtcSecs c = some y ∧ y < x ∧
    strcmp a b = .lt ∧ strcmp b c = .lt

variable {c : CStr}

theorem strcmp_trans (hab : strcmp a b = .lt) (hbc : strcmp b c = .lt) : strcmp a c = .lt := by
  rw [(strcmp_compares a b).eq_lt] at hab
  rw [(strcmp_compares b c).eq_lt] at hbc
  rw [(strcmp_compares a c).eq_lt]
  exact lt_trans hab hbc

theorem strcmp_no_cycle (hab : strcmp a b = .lt) (hbc : strcmp b c = .lt) : strcmp c a ≠ .lt := by
  intro hca
  have haa := strcmp_trans (strcmp_trans hab hbc) hca
  rw [(strcmp_compares a a).eq_lt] at haa
  exact lt_irrefl _ haa

theorem keyCmp_none (h : iso8601UtcSecs a = none ∨ iso8601UtcSecs b = none) : keyCmp true a b = strcmp a b := by
  unfold keyCmp
  rcases h with h | h
  · simp [h]
  · rw [h]
    cases iso8601UtcSecs a <;> rfl

theorem keyCmp_some {x y : ℤ} (hx : iso8601UtcSecs a = some x) (hy : iso8601UtcSecs b = some y) :
    keyCmp true a b = if x ≠ y then compare x y else strcmp a b := by
  simp [keyCmp, hx, hy]

theorem crossed_of_cycle (hb : iso8601UtcSecs b = none) (hab : keyCmp true a b = .lt)
    (hbc : keyCmp true b c = .lt) (hca : keyCmp true c a = .lt) : Crossed a b c := by
  rw [keyCmp_none (.inr hb)] at hab
  rw [keyCmp_none (.inl hb)] at hbc
  cases ha : iso8601UtcSecs a with
  | none =>
    rw [keyCmp_none (.inr ha)] at hca
    exact absurd hca (strcmp_no_cycle hab hbc)
  | some x =>
    cases hc : iso8601UtcSecs c with
    | none =>
      rw [keyCmp_none (.inl hc)] at hca
      exact absurd hca (strcmp_no_cycle hab hbc)
    | some y =>
      rw [keyCmp_some hc ha] at hca
      split at hca
      · exact ⟨x, y, ha, hb, hc, compare_lt_iff_lt.1 hca, hab, hbc⟩
      · exact absurd hca (strcmp_no_cycle hab hbc)

theorem keyCmp_cycle {timeKey : Bool} (hab : keyCmp timeKey a b = .lt) (hbc : keyCmp timeKey b c = .lt)
    (hca : keyCmp timeKey c a = .lt) : timeKey = true ∧ (Crossed a b c ∨ Crossed b c a ∨ Crossed c a b) := by
  cases timeKey with
  | false => exact absurd hca (strcmp_no_cycle hab hbc)
  | true =>
    refine ⟨rfl, ?_⟩
    cases ha : iso8601UtcSecs a with
    | none => exact .inr (.inr (crossed_of_cycle ha hca hab hbc))
    | some x =>
      cases hb : iso8601UtcSecs b with
      | none => exact .inl (crossed_of_cycle hb hab hbc hca)
      | some y =>
        cases hc : iso8601UtcSecs c with
        | none => exact .inr (.inl (crossed_of_cycle hc hbc hca hab))
        | some z =>
          -- three times are in the order of their instants
          have hvalid : ∀ {s : CStr} {v : ℤ}, iso8601UtcSecs s = some v → Valid ⟨0, true, []⟩ s := by
            intro s v hs _
            rw [hs]
            rfl
          have hlt : ∀ {s t : CStr} {v w : ℤ}, iso8601UtcSecs s = some v → iso8601UtcSecs t = some w →
              keyCmp true s t = .lt → orderKey true s < orderKey true t := by
            intro s t v w hs ht h
            exact (keyCmp_compares (hvalid hs) (hvalid ht)).eq_lt.1 h
          exact absurd (lt_trans (lt_trans (hlt ha hb hab) (hlt hb hc hbc)) (hlt hc ha hca)) (lt_irrefl _)

/-! ## The order of entries -/

/-- No key that is no time stands crosswise among the entries. -/
def Uncrossed (k : Kind) (e : List Entry) : Prop :=
  k.timeKey = true → ∀ a ∈ e, ∀ b ∈ e, ∀ c ∈ e, ¬ Crossed a.key0 b.key0 c.key0

theorem keyCmp_trans (h : Uncrossed k e) {a b c : Entry} (ha : a ∈ e) (hb : b ∈ e)
    (hc : c ∈ e) (hab : keyCmp k.timeKey a.key0 b.key0 = .lt) (hbc : keyCmp k.timeKey b.key0 c.key0 = .lt) :
    keyCmp k.timeKey a.key0 c.key0 = .lt := by
  cases hac : keyCmp k.timeKey a.key0 c.key0 with
  | lt => rfl
  | eq =>
    rw [keyCmp_eq_iff] at hac
    rw [← hac, keyCmp_swap, hab] at hbc
    cases hbc
  | gt =>
    have hca : keyCmp k.timeKey c.key0 a.key0 = .lt := by
      rw [keyCmp_swap, hac]
      rfl
    obtain ⟨ht, hcross⟩ := keyCmp_cycle hab hbc hca
    rcases hcross with hcross | hcross | hcross
    · exact absurd hcross (h ht a ha b hb c hc)
    · exact absurd hcross (h ht b hb c hc a ha)
    · exact absurd hcross (h ht c hc a ha b hb)

/-- An entry is not behind another: its key is before, or the keys are the same and so is the rest. -/
theorem entryCmp_ne_gt_iff (k : Kind) (a b : Entry) :
    entryCmp k a b ≠ .gt ↔ keyCmp k.timeKey a.key0 b.key0 = .lt ∨ a.key0 = b.key0 ∧ restKey k a ≤ restKey k b := by
  obtain ⟨o, ho, hab⟩ := entryCmp_spec k a b
  rw [hab, ← @keyCmp_eq_iff k.timeKey, ← ho.ne_gt]
  cases keyCmp k.timeKey a.key0 b.key0 <;> simp

theorem entryCmp_trans (h : Uncrossed k e) {a b c : Entry} (ha : a ∈ e) (hb : b ∈ e)
    (hc : c ∈ e) (hab : entryCmp k a b ≠ .gt) (hbc : entryCmp k b c ≠ .gt) : entryCmp k a c ≠ .gt := by
  rw [entryCmp_ne_gt_iff] at hab hbc ⊢
  rcases hab with hab | ⟨hab, hrest⟩
  · rcases hbc with hbc | ⟨hbc, -⟩
    · exact .inl (keyCmp_trans h ha hb hc hab hbc)
    · exact .inl (hbc ▸ hab)
  · rcases hbc with hbc | ⟨hbc, hrest'⟩
    · exact .inl (hab ▸ hbc)
    · exact .inr ⟨hab.trans hbc, le_trans hrest hrest'⟩

/-- What `bim_index_build` needs of the comparison for its entries: an order, by which the entries can be sorted, and
    groups of equal first keys that are together in whatever order `qsort` leaves them. -/
structure Ordered (k : Kind) (e : List Entry) : Prop where
  swap : ∀ a ∈ e, ∀ b ∈ e, entryCmp k b a = (entryCmp k a b).swap
  trans : ∀ a ∈ e, ∀ b ∈ e, ∀ c ∈ e, entryCmp k a b ≠ .gt → entryCmp k b c ≠ .gt → entryCmp k a c ≠ .gt
  group : Equivalence fun a b : CStr => keyCmp true a b = .eq
  sorted : (sortEntries k e).Pairwise fun a b => entryCmp k a b ≠ .gt
  contiguous : ∀ s : List Entry, s.Perm e → s.Pairwise (fun a b => entryCmp k a b ≠ .gt) →
    ∀ x y z, [x, y, z].Sublist s → keyCmp true x.key0 z.key0 = .eq → keyCmp true x.key0 y.key0 = .eq

theorem sortEntries_pairwise (h : Uncrossed k e) : (sortEntries k e).Pairwise fun a b => entryCmp k a b ≠ .gt := by
  unfold sortEntries
  split
  · -- the comparison is an order on the entries of the list
    have hmap := map_insertionSort (fun a b : {x // x ∈ e} => entryCmp k a b ≠ .gt)
      (fun a b => entryCmp k a b ≠ .gt) Subtype.val e.attach (fun _ _ _ _ => Iff.rfl)
    rw [attach_map_subtype_val] at hmap
    have htrans : IsTrans {x // x ∈ e} fun a b => entryCmp k a b ≠ .gt :=
      ⟨fun a b c => entryCmp_trans h a.2 b.2 c.2⟩
    have htotal : Std.Total fun a b : {x // x ∈ e} => entryCmp k a b ≠ .gt := by
      refine ⟨fun a b => ?_⟩
      rw [entryCmp_swap k a b]
      cases entryCmp k a b <;> simp
    rw [← hmap, pairwise_map]
    exact pairwise_insertionSort _ e.attach
  · next hlen =>
    rcases e with _ | ⟨x, _ | ⟨y, ys⟩⟩
    · exact Pairwise.nil
    · exact pairwise_singleton _ _
    · simp at hlen

theorem key_contiguous {x y z : Entry} (hxy : entryCmp k x y ≠ .gt) (hyz : entryCmp k y z ≠ .gt)
    (hxz : x.key0 = z.key0) : x.key0 = y.key0 := by
  rw [entryCmp_ne_gt_iff] at hxy hyz
  rcases hxy with hxy | ⟨hxy, -⟩
  · rcases hyz with hyz | ⟨hyz, -⟩
    · rw [← hxz, keyCmp_swap, hxy] at hyz
      cases hyz
    · rw [hxz, hyz]
  · exact hxy

/-- The comparison is an order of the entries exactly when no key that is no time stands crosswise. -/
theorem ordered_iff (k : Kind) (e : List Entry) : Ordered k e ↔ Uncrossed k e := by
  constructor
  · intro h ht a ha b hb c hc hcross
    obtain ⟨x, y, hx, hnone, hy, hlt, hab, hbc⟩ := hcross
    have h1 : entryCmp k a b ≠ .gt := by
      rw [entryCmp_ne_gt_iff, ht, keyCmp_none (.inr hnone)]
      exact .inl hab
    have h2 : entryCmp k b c ≠ .gt := by
      rw [entryCmp_ne_gt_iff, ht, keyCmp_none (.inl hnone)]
      exact .inl hbc
    have h3 := h.trans a ha b hb c hc h1 h2
    rw [entryCmp_ne_gt_iff, ht, keyCmp_some hx hy, if_pos (ne_of_gt hlt)] at h3
    rcases h3 with h3 | ⟨heq, -⟩
    · exact lt_asymm hlt (compare_lt_iff_lt.1 h3)
    · rw [heq, hy] at hx
      exact absurd (Option.some.inj hx) (ne_of_lt hlt)
  · intro h
    refine ⟨fun a _ b _ => entryCmp_swap k a b, fun a ha b hb c hc => entryCmp_trans h ha hb hc, ?_,
      sortEntries_pairwise h, ?_⟩
    · simp only [keyCmp_eq_iff]
      exact ⟨fun _ => rfl, Eq.symm, Eq.trans⟩
    · intro s _ hs x y z hsub hxz
      rw [keyCmp_eq_iff] at hxz ⊢
      obtain ⟨hx, hrest⟩ := pairwise_cons.1 (hs.sublist hsub)
      obtain ⟨hy, -⟩ := pairwise_cons.1 hrest
      exact key_contiguous (hx y (by simp)) (hy z (by simp)) hxz

/-- Three end times of the schedule index; the second has no seconds and no zone. -/
def crossedEntries : List Entry :=
  [{ key0 := ⟨text "2030-01-01T10:00:00Z", by decide +kernel⟩, container := 1, fragment := 1 },
    { key0 := ⟨text "2030-01-01T10:30", by decide +kernel⟩, container := 1, fragment := 2 },
    { key0 := ⟨text "2030-01-01T11:00:00+05:00", by decide +kernel⟩, container := 1, fragment := 3 }]

/-- They are a cycle: each is before the next, and the last before the first. -/
theorem crossedEntries_cycle : ¬ ∀ a ∈ crossedEntries, ∀ b ∈ crossedEntries, ∀ c ∈ crossedEntries,
      entryCmp (kindAt 2) a b ≠ .gt → entryCmp (kindAt 2) b c ≠ .gt → entryCmp (kindAt 2) a c ≠ .gt := by
  decide +kernel

end DvbIpiTools.Bim.Index
