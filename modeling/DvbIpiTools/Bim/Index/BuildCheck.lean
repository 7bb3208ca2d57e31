import Mathlib.Data.List.Perm.Basic
import DvbIpiTools.Bim.Index.Check

set_option autoImplicit false

/-! # A built index under its own check

The walk over all chunks, kinds and the index list, put together: a build that succeeds is clean
exactly if no chunk starts with the key that the one before it ends with (with two keys: ends with the
same tuple), fragment ids have 24 bits, and no sub-index takes the container of the index list. -/

namespace DvbIpiTools.Bim.Index

open List Option Nat

variable {conts : List Cont} {has : Nat → Nat → Bool} {kind : Nat} {k : Kind} {prev : Option Entry}

theorem order_false {hi : CStr × CStr} :
    ((prev.map (tup k)).any fun l => !false && decide (tupleCmp k l hi ≠ .lt)) = false ↔
      ∀ l, prev = some l → tupleCmp k (tup k l) hi = .lt := by
  cases prev with
  | none => simp
  | some l => simp

variable {last : Entry} {sc : Nat}

theorem chunk_walked {es : List Entry} {sub : Cont} (hfind : conts.find? (fun x => x.id = sc) = some sub)
    (hsub : buildSub (kindAt kind) es = some sub.structs) (hsmall : es.length ≤ 65536)
    (hlast : es.getLast? = some last)
    (hb : Between (kindAt kind) (prev.map (tup (kindAt kind))) (tup (kindAt kind) last) es) :
    Walked (Check.over conts has)
      (misorderedIf ((prev.map (tup (kindAt kind))).any fun l =>
          !false && decide (tupleCmp (kindAt kind) l (tup (kindAt kind) last) ≠ .lt)) +
        if (kindAt kind).nfields = 1 then
          checkSingle (Check.over conts has) kind sc 0 ((prev.map (tup (kindAt kind))).map Prod.fst)
            (tup (kindAt kind) last).1
        else checkTwo (Check.over conts has) kind sc 0 (prev.map (tup (kindAt kind)))
          (tup (kindAt kind) last))
      0 (es.map (readLeaf kind)) (∀ l, prev = some l → Sep (kindAt kind) l es) := by
  have hmem : last ∈ es := mem_of_getLast? hlast
  have hcmp : ∀ l, prev = some l → (tupleCmp (kindAt kind) (tup (kindAt kind) l) (tup (kindAt kind) last) = .lt ↔
      tupleKey (kindAt kind) (tup (kindAt kind) l) < tupleKey (kindAt kind) (tup (kindAt kind) last)) := by
    intro l hl
    have hv := (hb.ge_prev (tup (kindAt kind) l) (by rw [hl]; rfl)).1
    exact (tupleCmp_compares hv hb.valid_hi).eq_lt
  rcases kind_fields kind with hk | hk
  · have hle := fun a b : Entry => (tupleKey_single hk (tup (kindAt kind) a) (tup (kindAt kind) b)).1
    have hlt := fun a b : Entry => (tupleKey_single hk (tup (kindAt kind) a) (tup (kindAt kind) b)).2
    rw [if_pos hk.1]
    have hsorted := hb.sorted.imp fun {a b} h => (hle a b).mp h
    have hhi := fun e he => (hle e last).mp (hb.le_hi e he)
    refine ((walked_order _).add (checkSingle_walked has hk hfind hsub hsorted hhi)).congr ?_
    rw [order_false]
    cases prev with
    | none => simp
    | some l =>
      obtain ⟨first, hfirst⟩ : ∃ first, es.head? = some first := by
        cases es with
        | nil => cases hmem
        | cons x xs => exact ⟨x, rfl⟩
      have hfm : first ∈ es := mem_of_head? hfirst
      have hge : bytesKey l.key0 ≤ bytesKey first.key0 :=
        (hle l first).mp ((hb.ge_prev (tup (kindAt kind) l) rfl).2 first hfm)
      refine ⟨fun ⟨_, h⟩ x hx => ?_, fun h => ⟨fun x hx => ?_, fun p e hp he => ?_⟩⟩
      · cases hx
        rw [Sep, if_pos hk.1]
        intro e he heq
        have := h l.key0 e rfl he
        rw [heq] at this
        exact lt_irrefl _ this
      · cases hx
        have hsep := h l rfl
        rw [Sep, if_pos hk.1] at hsep
        rw [hcmp l rfl, hlt l last]
        have hne : bytesKey l.key0 ≠ bytesKey first.key0 := fun heq =>
          hsep first hfirst (bytesKey_injective heq)
        exact lt_of_lt_of_le (lt_of_le_of_ne hge hne) ((hle first last).mp (hb.le_hi first hfm))
      · obtain rfl : l.key0 = p := some.inj hp
        obtain rfl : first = e := some.inj (hfirst.symm.trans he)
        have hsep := h l rfl
        rw [Sep, if_pos hk.1] at hsep
        exact lt_of_le_of_ne hge fun heq => hsep first hfirst (bytesKey_injective heq)
  · have hnf : ¬ (kindAt kind).nfields = 1 := by omega
    have htup : ∀ e : Entry, tup (kindAt kind) e = (e.key0, e.key1) := by
      intro e
      rw [tup, if_pos (by omega)]
    rw [if_neg hnf]
    refine ((walked_order _).add (checkTwo_walked has hk.1 hfind hsub hsmall hb)).congr ?_
    rw [order_false, and_true]
    refine forall_congr' fun l => forall_congr' fun hl => ?_
    have hle := (hb.ge_prev (tup (kindAt kind) l) (by rw [hl]; rfl)).2 last hmem
    rw [hcmp l hl, Sep, if_neg hnf]
    refine ⟨fun h e he heq => ?_, fun h => ?_⟩
    · obtain rfl : last = e := some.inj (hlast.symm.trans he)
      rw [htup, htup, heq] at h
      exact lt_irrefl _ h
    · refine lt_of_le_of_ne hle fun heq => h last hlast ?_
      have := tupleKey_injective hk.1 heq
      rwa [htup, htup] at this

/-! ## All chunks of a kind -/

/-- Each chunk is apart from the last entry before it. -/
def CutsApart (k : Kind) : Option Entry → List (List Entry) → Prop
  | _, [] => True
  | prev, c :: cs => (∀ l, prev = some l → Sep k l c) ∧ CutsApart k c.getLast? cs

variable {s offs : List UInt8}

theorem offsLaid_bytes (kind : Nat) (h : OffsLaid s offs ((kindAt kind).keys last)) :
    offs.length = 2 * (kindAt kind).nfields ∧
      ∀ rest, upperBound (kindAt kind) s (offs ++ rest) = some (tup (kindAt kind) last) := by
  obtain ⟨os, rfl, hall⟩ := h
  rcases kind_fields kind with ⟨hk, -⟩ | ⟨hk, -⟩
  · rw [Kind.keys, hk] at hall
    obtain ⟨o, os, ho, hnil, rfl⟩ := forall₂_cons_right_iff.mp hall
    obtain rfl := forall₂_nil_right_iff.mp hnil
    refine ⟨by rw [hk]; rfl, fun rest => ?_⟩
    have hget := be16Get_of_lt ho.1 rest
    simp only [upperBound, flatMap_cons, flatMap_nil, append_nil, hget, ho.2, hk, tup]
    rfl
  rw [Kind.keys, hk] at hall
  obtain ⟨o, os, ho, hrest, rfl⟩ := forall₂_cons_right_iff.mp hall
  obtain ⟨o', os, ho', hnil, rfl⟩ := forall₂_cons_right_iff.mp hrest
  obtain rfl := forall₂_nil_right_iff.mp hnil
  refine ⟨by rw [hk]; rfl, fun rest => ?_⟩
  have hget := be16Get_of_lt ho.1 (be16 o' ++ rest)
  have hget' := be16Get_of_lt ho'.1 rest
  have hdrop : (be16 o ++ (be16 o' ++ rest)).drop 2 = be16 o' ++ rest := rfl
  simp only [upperBound, flatMap_cons, flatMap_nil, append_nil, append_assoc, hget, ho.2, hk, tup, hdrop, hget', ho'.2]
  rfl

variable {fuel : Nat} {c : Check}

theorem indexLoop_cons {rest : List UInt8} (hoffs : OffsLaid s offs ((kindAt kind).keys last)) (hsc : sc < 65536)
    (hfuel : (offs ++ be16 sc ++ [0] ++ rest).length ≤ fuel) (lo : Option (CStr × CStr)) :
    ∃ fuel', rest.length ≤ fuel' ∧
      indexLoop c kind s false (2 * (kindAt kind).nfields + 3) fuel lo (offs ++ be16 sc ++ [0] ++ rest) =
        misorderedIf (lo.any fun l => !false && decide (tupleCmp (kindAt kind) l (tup (kindAt kind) last) ≠ .lt)) +
          (if (kindAt kind).nfields = 1 then
              checkSingle c kind sc 0 (lo.map Prod.fst) (tup (kindAt kind) last).1
            else checkTwo c kind sc 0 lo (tup (kindAt kind) last)) +
          indexLoop c kind s false (2 * (kindAt kind).nfields + 3) fuel' (some (tup (kindAt kind) last)) rest := by
  obtain ⟨hlen, hupper⟩ := offsLaid_bytes kind hoffs
  obtain ⟨b, hb⟩ : ∃ b, b = offs ++ be16 sc ++ [0] ++ rest := ⟨_, rfl⟩
  have htail : b = offs ++ (be16 sc ++ 0 :: rest) := by simp [hb]
  have hdrop : b.drop (2 * (kindAt kind).nfields) = be16 sc ++ 0 :: rest := by rw [htail, ← hlen, drop_left]
  have hdrop2 : b.drop (2 * (kindAt kind).nfields + 2) = 0 :: rest := by
    rw [← drop_drop, hdrop]
    rfl
  have hdrop3 : b.drop (2 * (kindAt kind).nfields + 3) = rest := by
    rw [show 2 * (kindAt kind).nfields + 3 = 2 * (kindAt kind).nfields + 2 + 1 by omega, ← drop_drop, hdrop2]
    rfl
  have hblen : b.length = offs.length + 3 + rest.length := by
    rw [htail, length_append]
    show offs.length + (rest.length + 3) = _
    omega
  rw [← hb] at hfuel ⊢
  cases fuel with
  | zero => omega
  | succ fuel =>
    refine ⟨fuel, by omega, ?_⟩
    cases hcons : b with
    | nil =>
      rw [hcons, length_nil] at hblen
      omega
    | cons x xs =>
      rw [indexLoop]
      · rw [← hcons]
        simp only [Bool.false_eq_true, if_false, drop_zero, hdrop, hdrop2, hdrop3]
        rw [htail, hupper, be16Get_of_lt hsc]
        rfl
      · simp

/-- Every chunk is in the container its index entry names. -/
def Found (conts : List Cont) (kind : Nat) (cs : List (List Entry × Nat)) : Prop :=
  ∀ x ∈ cs, x.1.length ≤ 65536 ∧ ∃ sub, conts.find? (fun c => c.id = x.2) = some sub ∧
    buildSub (kindAt kind) x.1 = some sub.structs

theorem getLast?_le {c rest : List Entry} (hlast : c.getLast? = some last)
    (h : (c ++ rest).Pairwise fun a b => tupleKey k (tup k a) ≤ tupleKey k (tup k b)) :
    (∀ e ∈ c, tupleKey k (tup k e) ≤ tupleKey k (tup k last)) ∧
      ∀ e ∈ rest, tupleKey k (tup k last) ≤ tupleKey k (tup k e) := by
  rw [pairwise_append] at h
  obtain ⟨l, rfl⟩ := getLast?_eq_some_iff.1 hlast
  refine ⟨fun e he => ?_, fun e he => h.2.2 last (by simp) e he⟩
  rcases mem_append.1 he with he | he
  · exact (pairwise_append.1 h.1).2.2 e he last (by simp)
  · rw [mem_singleton.1 he]

variable {body : List UInt8} {cs : List (List Entry × Nat)}

theorem indexLoop_walked (has : Nat → Nat → Bool) (hlaid : IxLaid (kindAt kind) s body cs)
    (hfound : Found conts kind cs) (hfuel : body.length ≤ fuel) (prev : Option Entry)
    (hvalid : ∀ e ∈ (cs.map Prod.fst).flatten, Valid (kindAt kind) e.key0)
    (hsorted : ((cs.map Prod.fst).flatten).Pairwise fun a b => tupleKey (kindAt kind) (tup (kindAt kind) a) ≤ tupleKey (kindAt kind) (tup (kindAt kind) b))
    (hprev : ∀ l, prev = some l → Valid (kindAt kind) l.key0 ∧ ∀ e ∈ (cs.map Prod.fst).flatten, tupleKey (kindAt kind) (tup (kindAt kind) l) ≤ tupleKey (kindAt kind) (tup (kindAt kind) e)) :
    Walked (Check.over conts has)
      (indexLoop (Check.over conts has) kind s false (2 * (kindAt kind).nfields + 3) fuel
        (prev.map (tup (kindAt kind))) body)
      0 ((cs.map Prod.fst).flatten.map (readLeaf kind))
      (CutsApart (kindAt kind) prev (cs.map Prod.fst)) := by
  induction hlaid generalizing prev fuel with
  | nil =>
    have hnil : indexLoop (Check.over conts has) kind s false (2 * (kindAt kind).nfields + 3) fuel
        (prev.map (tup (kindAt kind))) [] = {} := by
      cases fuel <;> rfl
    rw [hnil]
    exact walked_nil
  | @cons offs rest c sc cs last hlast hoffs hsc _ ih =>
    rw [map_cons, flatten_cons] at hvalid hsorted hprev
    obtain ⟨⟨hsmall, sub, hfind, hsub⟩, hfound⟩ := forall_mem_cons.1 hfound
    obtain ⟨hle, hge⟩ := getLast?_le hlast hsorted
    have hmem : last ∈ c := mem_of_getLast? hlast
    have hb : Between (kindAt kind) (prev.map (tup (kindAt kind))) (tup (kindAt kind) last) c := by
      refine ⟨(pairwise_append.1 hsorted).1, fun e he => hvalid e (mem_append_left _ he), hle,
        hvalid last (mem_append_left _ hmem), fun p hp => ?_⟩
      obtain ⟨l, hl, rfl⟩ := map_eq_some_iff.1 hp
      exact ⟨(hprev l hl).1, fun e he => (hprev l hl).2 e (mem_append_left _ he)⟩
    obtain ⟨fuel', hfuel', hstep⟩ := indexLoop_cons (c := Check.over conts has) hoffs hsc hfuel
      (prev.map (tup (kindAt kind)))
    have hnext := ih hfound hfuel' (some last) (fun e he => hvalid e (mem_append_right _ he))
      (pairwise_append.1 hsorted).2.1 (by
        intro l hl
        cases hl
        exact ⟨hvalid last (mem_append_left _ hmem), hge⟩)
    rw [hstep, map_cons, flatten_cons, map_append]
    refine ((chunk_walked hfind hsub hsmall hlast hb).add hnext).congr ?_
    rw [CutsApart, hlast]

theorem indexLoop_missing (hlaid : IxLaid (kindAt kind) s body cs) (hfuel : body.length ≤ fuel)
    (hsc : sc ∈ cs.map Prod.snd) (hnone : c.find sc .subIndex 0 = none) (lo : Option (CStr × CStr)) :
    0 < (indexLoop c kind s false (2 * (kindAt kind).nfields + 3) fuel lo body).missing := by
  induction hlaid generalizing fuel lo with
  | nil => cases hsc
  | @cons offs rest ch sc' cs last hlast hoffs hlt _ ih =>
    obtain ⟨fuel', hfuel', hstep⟩ := indexLoop_cons (c := c) hoffs hlt hfuel lo
    rw [hstep, Report.add_missing, Report.add_missing]
    rw [map_cons, mem_cons] at hsc
    rcases hsc with rfl | hsc
    · have hmiss : 0 < (if (kindAt kind).nfields = 1 then
          checkSingle c kind sc 0 (lo.map Prod.fst) (tup (kindAt kind) last).1
          else checkTwo c kind sc 0 lo (tup (kindAt kind) last)).missing := by
        split
        · simp [checkSingle, hnone]
        · simp [checkTwo, hnone]
      omega
    · have := ih hfuel' hsc (some (tup (kindAt kind) last))
      omega

/-! ## The index list -/

theorem ixLaid_length
    (h : IxLaid (kindAt kind) s body cs) : body.length = (2 * (kindAt kind).nfields + 3) * cs.length := by
  induction h with
  | nil => rfl
  | @cons offs rest c sc cs last _ hoffs _ _ ih =>
    have hlen := (offsLaid_bytes kind hoffs).1
    rw [length_append, length_append, length_append, hlen, ih]
    show 2 * (kindAt kind).nfields + 2 + 1 + _ = _ * (cs.length + 1)
    rw [mul_succ]
    omega

theorem readFields_laid {bytes : List UInt8} {fields : List Field} (h : FieldsLaid s bytes fields) (left : List UInt8) :
    readFields (some s) fields.length (bytes ++ left) =
      (fields.map fun f => { fid := xpathField, xp := some f.xpath, enc := 0 }, left) := by
  obtain ⟨offs, rfl, hall⟩ := h
  induction hall with
  | nil => rfl
  | @cons off f offs fs ho _ ih =>
    obtain ⟨b, hb⟩ : ∃ b, b = offs.flatMap (fun off => be16 xpathField ++ be16 off ++ be16 0) ++ left := ⟨_, rfl⟩
    have hbytes : (off :: offs).flatMap (fun off => be16 xpathField ++ be16 off ++ be16 0) ++ left =
        be16 xpathField ++ (be16 off ++ (be16 0 ++ b)) := by
      rw [hb, flatMap_cons]
      simp only [append_assoc]
    have hlen : ¬ (be16 xpathField ++ (be16 off ++ (be16 0 ++ b))).length < 4 := by
      show ¬ b.length + 6 < 4
      omega
    have hlen1 : ¬ (be16 off ++ (be16 0 ++ b)).length < 2 := by
      show ¬ b.length + 4 < 2
      omega
    have hlen2 : ¬ (be16 0 ++ b).length < 2 := by
      show ¬ b.length + 2 < 2
      omega
    have hv : be16Get (be16 xpathField ++ (be16 off ++ (be16 0 ++ b))) = xpathField :=
      be16Get_of_lt (by decide) _
    have hd1 : (be16 xpathField ++ (be16 off ++ (be16 0 ++ b))).drop 2 = be16 off ++ (be16 0 ++ b) := rfl
    have hd2 : (be16 off ++ (be16 0 ++ b)).drop 2 = be16 0 ++ b := rfl
    have hd3 : (be16 0 ++ b).drop 2 = b := rfl
    rw [hbytes, length_cons, readFields, if_neg hlen]
    simp only [hv, hd1, if_true]
    rw [if_neg hlen1, hd2, if_neg hlen2, hd3, hb, ih]
    simp only [be16Get_of_lt ho.1, bind_some, ho.2, be16Get_of_lt (show 0 < 65536 by decide), map_cons]

theorem matchKind_self {kind : Nat} (h : kind < bimIndexKinds) : matchKind (kindAt kind).fragType (kindAt kind).nfields
      ((kindAt kind).fields.map fun f => { fid := xpathField, xp := some f.xpath, enc := 0 }) = some kind := by
  have hall : ∀ kind ∈ range bimIndexKinds, matchKind (kindAt kind).fragType (kindAt kind).nfields
      ((kindAt kind).fields.map fun f => { fid := xpathField, xp := some f.xpath, enc := 0 }) = some kind := by
    decide +kernel
  exact hall kind (mem_range.2 h)

theorem checkEntry_laid {entry : List UInt8} {kind : Nat} (hkind : kind < bimIndexKinds) (h : EntryLaid s kind entry) :
    ∃ dl d, entry = dl :: d ∧ dl.toNat = d.length ∧ 3 ≤ d.length ∧
      ∀ c, checkEntry c (some s) d = { indexes := 1 : Report } + checkIndex c kind indexListContainer kind := by
  obtain ⟨fields, hlaid, rfl⟩ := h
  have hkind' : kind < 6 := hkind
  obtain ⟨rest, hrest⟩ : ∃ rest, rest = fields ++ (be16 indexListContainer ++ [UInt8.ofNat kind]) := ⟨_, rfl⟩
  have hd : be16 (kindAt kind).fragType ++ UInt8.ofNat (kindAt kind).nfields :: fields ++
      be16 indexListContainer ++ [UInt8.ofNat kind] =
      be16 (kindAt kind).fragType ++ UInt8.ofNat (kindAt kind).nfields :: rest := by
    rw [hrest]
    simp only [append_assoc, cons_append]
  have hflen : fields.length = 6 * (kindAt kind).nfields := by
    obtain ⟨offs, rfl, hall⟩ := hlaid
    rw [Kind.nfields, ← hall.length_eq, length_flatMap]
    show (offs.map fun _ => 6).sum = _
    simp [mul_comm]
  have hfrag : (kindAt kind).fragType < 65535 := by
    unfold kindAt
    split <;> decide
  refine ⟨_, be16 (kindAt kind).fragType ++ UInt8.ofNat (kindAt kind).nfields :: rest,
    congrArg (cons _) hd, ?_, ?_, fun c => ?_⟩
  · show _ = rest.length + 1 + 2
    rw [hrest, length_append, hflen]
    show _ = 6 * (kindAt kind).nfields + 3 + 1 + 2
    rcases kind_fields kind with ⟨hk, -⟩ | ⟨hk, -⟩
    · rw [hk]
      rfl
    · rw [hk]
      rfl
  · show 3 ≤ rest.length + 1 + 2
    omega
  · rw [checkEntry]
    have hftype := be16Get_of_lt (show (kindAt kind).fragType < 65536 by omega)
      (UInt8.ofNat (kindAt kind).nfields :: rest)
    have hnot : ¬ (kindAt kind).fragType = xpathField := by
      show ¬ (kindAt kind).fragType = 65535
      omega
    have hnf : (UInt8.ofNat (kindAt kind).nfields).toNat = (kindAt kind).fields.length := by
      rcases kind_fields kind with ⟨hk, -⟩ | ⟨hk, -⟩
      · rw [hk, show (kindAt kind).fields.length = 1 from hk]
        rfl
      · rw [hk, show (kindAt kind).fields.length = 2 from hk]
        rfl
    have hdrop : (be16 (kindAt kind).fragType ++ UInt8.ofNat (kindAt kind).nfields :: rest).drop 2 =
        UInt8.ofNat (kindAt kind).nfields :: rest := rfl
    simp only [hftype, if_neg hnot, add_zero, hdrop, headD_cons, tail_cons, hnf]
    rw [hrest, readFields_laid hlaid]
    have hleft : (be16 indexListContainer ++ [UInt8.ofNat kind]).length = 3 := rfl
    have hcont := be16Get_of_lt (show indexListContainer < 65536 by decide) [UInt8.ofNat kind]
    have hid : (UInt8.ofNat kind).toNat = kind := by
      rw [UInt8.toNat_ofNat']
      omega
    have hmatch := matchKind_self hkind
    simp only [hleft, if_true]
    rw [show (kindAt kind).nfields = (kindAt kind).fields.length from rfl] at hmatch
    rw [hmatch, hcont]
    show _ + checkIndex c kind indexListContainer (UInt8.ofNat kind).toNat = _
    rw [hid]

/-- The walk over the index list is the walk over the indices of its kinds. -/
theorem listLoop_plans {plans : List KindPlan} (c : Check)
    (hlaid : ∀ p ∈ plans, p.kind < bimIndexKinds ∧ EntryLaid s p.kind p.entry)
    (hfuel : (plans.flatMap KindPlan.entry).length ≤ fuel) :
    listLoop c (some s) fuel (plans.flatMap KindPlan.entry) =
      plans.foldr (fun p r => { indexes := 1 : Report } + checkIndex c p.kind indexListContainer p.kind + r)
        {} := by
  induction plans generalizing fuel with
  | nil => cases fuel <;> rfl
  | cons p plans ih =>
    rw [forall_mem_cons] at hlaid
    obtain ⟨dl, d, hentry, hdl, hthree, hcheck⟩ := checkEntry_laid hlaid.1.1 hlaid.1.2
    rw [flatMap_cons, hentry, cons_append] at hfuel ⊢
    rw [length_cons, length_append] at hfuel
    cases fuel with
    | zero => omega
    | succ fuel =>
      have hin : ¬ (dl.toNat > (d ++ plans.flatMap KindPlan.entry).length ∨ dl.toNat < 3) := by
        rw [length_append]
        omega
      rw [listLoop, if_neg hin, hdl, take_left, drop_left, hcheck c, ih hlaid.2 (by omega)]
      rfl

/-! ## The built containers -/

/-- The structures of the index list container behind the indices. -/
def Out.listTail (o : Out) : List Struct :=
  [⟨.indexList, structIdUnused, o.list⟩, ⟨.dataRepository, dataRepoStrings, o.sw⟩]

/-- What a build returns. -/
structure Built (inp : Nat → List Entry) (firstId : Nat) (plans : List KindPlan) (o : Out)
    (conts : List Cont) : Prop where
  nodup : (plans.map KindPlan.kind).Nodup
  kinds_lt : ∀ p ∈ plans, p.kind < bimIndexKinds
  done : BuildDone inp plans { nextId := firstId } o
  conts_eq : conts = ⟨indexListContainer, o.structs ++ o.listTail⟩ :: o.subs

theorem bimIndexBuild_built {mask firstId : Nat} {inp : Nat → List Entry}
    (h : bimIndexBuild mask inp firstId = .ok conts) :
    ∃ plans o, plans.map KindPlan.kind = kindsOf mask ∧ Built inp firstId plans o conts := by
  obtain ⟨o, hkinds, h⟩ := Wr.ok_of_bind h
  obtain ⟨plans, hplans, hdone⟩ := putKinds_done (by simp [strrepoInit]) hkinds
  refine ⟨plans, o, hplans, ?_, fun p hp => ?_, hdone, (Except.ok.inj h).symm⟩
  · rw [hplans]
    exact nodup_range.filter _
  · have hmem : p.kind ∈ kindsOf mask := hplans ▸ mem_map_of_mem hp
    exact mem_range.1 (mem_filter.1 hmem).1

section

variable {inp : Nat → List Entry} {firstId : Nat} {plans : List KindPlan} {o : Out}

theorem Built.find_list (h : Built inp firstId plans o conts) (has : Nat → Nat → Bool) (type : StructType) (id : Nat) :
    (Check.over conts has).find indexListContainer type id =
      ((plans.map KindPlan.struct ++ o.listTail).find? fun st => st.type = type && st.id = id).map
        Struct.body := by
  have hfind : conts.find? (fun x => x.id = indexListContainer) =
      some ⟨indexListContainer, o.structs ++ o.listTail⟩ := by
    rw [h.conts_eq, find?_cons_of_pos (by simp)]
  rw [over_find has hfind, h.done.structs_eq]
  rfl

variable {rest : List Struct}

theorem find_not_index {plans : List KindPlan} {type : StructType} {id : Nat} (ht : type ≠ .index) :
    (plans.map KindPlan.struct ++ rest).find? (fun st => st.type = type && st.id = id) =
      rest.find? fun st => st.type = type && st.id = id := by
  have hnone : (plans.map KindPlan.struct).find? (fun st => st.type = type && st.id = id) = none := by
    refine find?_eq_none.2 fun st hst => ?_
    obtain ⟨p, -, rfl⟩ := mem_map.1 hst
    simp [KindPlan.struct, ht.symm]
  rw [find?_append, hnone, none_or]

variable {p : KindPlan}

theorem find_index {plans : List KindPlan} (hnd : (plans.map KindPlan.kind).Nodup) (hp : p ∈ plans) :
    (plans.map KindPlan.struct ++ rest).find? (fun st => st.type = .index && st.id = p.kind) = some p.struct := by
  induction plans with
  | nil => cases hp
  | cons q plans ih =>
    rw [map_cons, nodup_cons] at hnd
    rw [map_cons, cons_append]
    rcases mem_cons.1 hp with rfl | hp
    · rw [find?_cons_of_pos (by simp [KindPlan.struct])]
    · have hne : q.kind ≠ p.kind := fun heq => hnd.1 (heq ▸ mem_map_of_mem hp)
      rw [find?_cons_of_neg (by simp [KindPlan.struct, hne])]
      exact ih hnd.2 hp

theorem Built.checkIndex_eq (h : Built inp firstId plans o conts) (has : Nat → Nat → Bool) (hp : p ∈ plans) :
    checkIndex (Check.over conts has) p.kind indexListContainer p.kind =
      indexLoop (Check.over conts has) p.kind o.sw false (2 * (kindAt p.kind).nfields + 3)
        (p.body.length + 2) none p.body := by
  have hix : (Check.over conts has).find indexListContainer .index p.kind =
      some (indexHdr :: locatorRemote :: p.body) := by
    rw [h.find_list, find_index h.nodup hp]
    rfl
  have hstr : (Check.over conts has).stringsOf indexListContainer = some o.sw := by
    rw [Check.stringsOf, h.find_list, find_not_index (by simp)]
    rfl
  have hlen := ixLaid_length (h.done.kinds_done p hp).body_laid
  have hmod : (p.body.length) % (2 * (kindAt p.kind).nfields + 3) = 0 := by
    rw [hlen]
    exact mul_mod_right _ _
  unfold checkIndex
  rw [hix, hstr]
  have hover : decide ((indexHdr :: locatorRemote :: p.body).length ≥ 2 ∧
      ((indexHdr :: locatorRemote :: p.body).headD 0).toNat ≥ 0x80) = false := by
    simp [indexHdr]
  simp only [hover, Bool.false_eq_true, if_false]
  rw [if_neg]
  · rfl
  · simp [hmod]

theorem find_sub {parts : List (Nat × List Entry × Nat)} {subs : List Cont} {x : Nat × List Entry × Nat}
    (hall : List.Forall₂ (fun x (sub : Cont) => sub.id = x.2.2 ∧ buildSub (kindAt x.1) x.2.1 = some sub.structs) parts subs)
    (hnd : (parts.map (·.2.2)).Nodup) (hx : x ∈ parts) :
    ∃ sub, subs.find? (fun c => c.id = x.2.2) = some sub ∧ buildSub (kindAt x.1) x.2.1 = some sub.structs := by
  induction hall with
  | nil => cases hx
  | @cons y sub parts subs hy _ ih =>
    rw [map_cons, nodup_cons] at hnd
    rcases mem_cons.1 hx with rfl | hx
    · exact ⟨sub, find?_cons_of_pos (by simp [hy.1]), hy.2⟩
    · have hne : sub.id ≠ x.2.2 := fun heq => hnd.1 (hy.1 ▸ heq ▸ mem_map_of_mem hx)
      rw [find?_cons_of_neg (by simp [hne])]
      exact ih hnd.2 hx

theorem mem_parts (hp : p ∈ plans) {c : List Entry × Nat} (hc : c ∈ p.cs) :
    (p.kind, c) ∈ plans.flatMap KindPlan.parts := mem_flatMap.2 ⟨p, hp, mem_map_of_mem hc⟩

variable (h : Built inp firstId plans o conts)

include h

theorem Built.found (hzero : firstId = 0 → plans.flatMap KindPlan.parts = []) (hp : p ∈ plans) :
    Found conts p.kind p.cs := by
  intro x hx
  have hmem := mem_parts hp hx
  obtain ⟨subs, hsubs, hall⟩ := h.done.subs_eq
  have hids := h.done.ids_eq
  have hid : firstId ≤ x.2 := by
    have : x.2 ∈ (plans.flatMap KindPlan.parts).map (·.2.2) := mem_map_of_mem hmem
    rw [hids, mem_range'_1] at this
    exact this.1
  have hne : indexListContainer ≠ x.2 := by
    show 0 ≠ x.2
    intro heq
    rw [hzero (by omega)] at hmem
    cases hmem
  have hnd : ((plans.flatMap KindPlan.parts).map (·.2.2)).Nodup := by
    rw [hids]
    exact nodup_range'
  obtain ⟨sub, hfind, hsub⟩ := find_sub hall hnd hmem
  refine ⟨?_, sub, ?_, hsub⟩
  · have hc : x.1 ∈ p.cs.map Prod.fst := mem_map_of_mem hx
    rw [(h.done.kinds_done p hp).cut_eq] at hc
    have := chunksFrom_length_le _ _ _ x.1 hc
    omega
  · rw [h.conts_eq, hsubs, find?_cons_of_neg (by simpa using hne)]
    exact hfind

theorem Built.check_eq (has : Nat → Nat → Bool) :
    bimIndexCheck (Check.over conts has) = some (plans.foldr (fun p r => { indexes := 1 : Report } +
      checkIndex (Check.over conts has) p.kind indexListContainer p.kind + r) {}) := by
  have hlist : (Check.over conts has).find indexListContainer .indexList structIdUnused = some o.list := by
    rw [h.find_list, find_not_index (by simp)]
    rfl
  have hstr : (Check.over conts has).stringsOf indexListContainer = some o.sw := by
    rw [Check.stringsOf, h.find_list, find_not_index (by simp)]
    rfl
  have hbytes : o.list = plans.flatMap KindPlan.entry := h.done.list_eq
  rw [bimIndexCheck, hlist, hstr, hbytes]
  have hlaid : ∀ p ∈ plans, p.kind < bimIndexKinds ∧ EntryLaid o.sw p.kind p.entry := fun p hp =>
    ⟨h.kinds_lt p hp, (h.done.kinds_done p hp).entry_laid⟩
  exact congrArg some (listLoop_plans _ hlaid le_rfl)

theorem Built.walked (has : Nat → Nat → Bool) (hzero : firstId = 0 → plans.flatMap KindPlan.parts = [])
    (hvalid : ∀ p ∈ plans, ∀ e ∈ inp p.kind, Valid (kindAt p.kind) e.key0) :
    ∃ r, bimIndexCheck (Check.over conts has) = some r ∧ Walked (Check.over conts has) r plans.length
        (plans.flatMap fun p => (sortEntries (kindAt p.kind) (inp p.kind)).map (readLeaf p.kind))
        (∀ p ∈ plans, CutsApart (kindAt p.kind) none
          (chunks (kindAt p.kind) (sortEntries (kindAt p.kind) (inp p.kind)))) := by
  refine ⟨_, h.check_eq has, ?_⟩
  have hone : ∀ p ∈ plans, Walked (Check.over conts has)
      (checkIndex (Check.over conts has) p.kind indexListContainer p.kind) 0
      ((sortEntries (kindAt p.kind) (inp p.kind)).map (readLeaf p.kind))
      (CutsApart (kindAt p.kind) none (chunks (kindAt p.kind) (sortEntries (kindAt p.kind) (inp p.kind)))) := by
    intro p hp
    have hdone := h.done.kinds_done p hp
    rw [h.checkIndex_eq has hp, ← hdone.cut_eq]
    have hperm := sortEntries_perm (kindAt p.kind) (inp p.kind)
    have hwalk := indexLoop_walked has hdone.body_laid (h.found hzero hp) (le_add_right _ 2) none
      (by
        rw [hdone.flat]
        exact fun e he => hvalid p hp e (hperm.mem_iff.1 he))
      (by
        rw [hdone.flat]
        refine (sortEntries_sorted (hvalid p hp)).imp fun {a b} hab => ?_
        rw [tupleKey_tup, tupleKey_tup]
        exact hab)
      (fun l hl => absurd hl (by simp))
    rw [hdone.flat] at hwalk
    exact hwalk
  clear hzero hvalid h
  induction plans with
  | nil => exact walked_nil.congr (by simp)
  | cons p plans ih =>
    rw [forall_mem_cons] at hone
    have hindex : Walked (Check.over conts has) { indexes := 1 : Report } 1 [] True :=
      ⟨rfl, rfl, rfl, rfl, rfl, by simp, rfl, rfl⟩
    have hwalk := (hindex.add hone.1).add (ih hone.2)
    rw [foldr_cons, flatMap_cons, length_cons, add_comm]
    refine hwalk.congr ?_
    rw [forall_mem_cons, true_and]

omit h

variable {r : Report}

theorem Built.missing (h : Built inp firstId plans o conts) (has : Nat → Nat → Bool) (hzero : firstId = 0)
    (hne : plans.flatMap KindPlan.parts ≠ [])
    (hr : bimIndexCheck (Check.over conts has) = some r) : 0 < r.missing := by
  have hnone : (Check.over conts has).find indexListContainer .subIndex 0 = none := by
    rw [h.find_list, find_not_index (by simp)]
    rfl
  obtain rfl := some.inj ((h.check_eq has).symm.trans hr)
  -- the first chunk of all has the first id
  obtain ⟨p, hp, hsc⟩ : ∃ p ∈ plans, indexListContainer ∈ p.cs.map Prod.snd := by
    have hmem : indexListContainer ∈ (plans.flatMap KindPlan.parts).map (·.2.2) := by
      rw [h.done.ids_eq, mem_range'_1]
      have := length_pos_iff.2 hne
      show firstId ≤ 0 ∧ 0 < firstId + _
      omega
    obtain ⟨x, hx, hid⟩ := mem_map.1 hmem
    obtain ⟨p, hp, hxp⟩ := mem_flatMap.1 hx
    obtain ⟨c, hc, rfl⟩ := mem_map.1 hxp
    exact ⟨p, hp, hid ▸ mem_map_of_mem hc⟩
  have hmiss : 0 < (checkIndex (Check.over conts has) p.kind indexListContainer p.kind).missing := by
    rw [h.checkIndex_eq has hp]
    exact indexLoop_missing (h.done.kinds_done p hp).body_laid (le_add_right _ 2) hsc hnone none
  clear hr h hne hsc
  induction plans with
  | nil => cases hp
  | cons q plans ih =>
    rw [foldr_cons, Report.add_missing, Report.add_missing]
    rcases mem_cons.1 hp with rfl | hp
    · omega
    · have := ih hp
      omega

/-! ## The result -/

/-- The report is clean and complete: every entry of the kinds in the mask was read exactly once. -/
structure Passes (mask : Nat) (inp : Nat → List Entry) (r : Report) : Prop where
  malformed : r.malformed = 0
  missing : r.missing = 0
  misordered : r.misordered = 0
  unresolved : r.unresolved = 0
  indexes : r.indexes = (kindsOf mask).length
  entries : r.entries = ((kindsOf mask).map fun kind => (inp kind).length).sum
  each_once : r.seen.Perm ((kindsOf mask).flatMap fun kind => (inp kind).map (leafOf kind))

/-- Fragment ids have 24 bits, no sub-index takes the container of the index list, and the chunks are
apart. -/
structure BuildFits (mask : Nat) (inp : Nat → List Entry) (firstId : Nat) : Prop where
  fragments : ∀ kind ∈ kindsOf mask, ∀ e ∈ inp kind, e.fragment.toNat < 2 ^ 24
  first_id : firstId = 0 → ∀ kind ∈ kindsOf mask, inp kind = []
  apart : ∀ kind ∈ kindsOf mask, CutsApart (kindAt kind) none
    (chunks (kindAt kind) (sortEntries (kindAt kind) (inp kind)))

variable {mask : Nat}

theorem Built.parts_nil (h : Built inp firstId plans o conts) (hp : ∀ p ∈ plans, inp p.kind = []) :
    plans.flatMap KindPlan.parts = [] := by
  rw [flatMap_eq_nil_iff]
  intro p hmem
  have hcut := (h.done.kinds_done p hmem).cut_eq
  rw [hp p hmem] at hcut
  have hcs : p.cs = [] := map_eq_nil_iff.1 hcut
  rw [KindPlan.parts, hcs]
  rfl

theorem Built.parts_ne_nil (h : Built inp firstId plans o conts) (hmem : p ∈ plans)
    (hp : inp p.kind ≠ []) : plans.flatMap KindPlan.parts ≠ [] := by
  intro hnil
  rw [flatMap_eq_nil_iff] at hnil
  have hcs : p.cs = [] := map_eq_nil_iff.1 (hnil p hmem)
  have hflat := (h.done.kinds_done p hmem).flat
  rw [hcs] at hflat
  have hperm := sortEntries_perm (kindAt p.kind) (inp p.kind)
  rw [← hflat] at hperm
  exact hp hperm.nil_eq.symm

theorem Passes.of_walked {c : Check}
    (hw : Walked c r (kindsOf mask).length ((kindsOf mask).flatMap fun kind => (sortEntries (kindAt kind) (inp kind)).map (readLeaf kind)) (∀ kind ∈ kindsOf mask, CutsApart (kindAt kind) none (chunks (kindAt kind) (sortEntries (kindAt kind) (inp kind)))))
    (hhas : ∀ kind ∈ kindsOf mask, ∀ e ∈ inp kind, c.has e.container.toNat e.fragment.toNat = true)
    (hfit : BuildFits mask inp firstId) : Passes mask inp r := by
  have hleaf : ∀ kind ∈ kindsOf mask, ∀ e ∈ inp kind, readLeaf kind e = leafOf kind e := by
    intro kind hkind e he
    have hlt : e.fragment.toNat < 16777216 := hfit.fragments kind hkind e he
    rw [readLeaf, mod_eq_of_lt hlt]
    rfl
  have hperm : ((kindsOf mask).flatMap fun kind =>
      (sortEntries (kindAt kind) (inp kind)).map (readLeaf kind)).Perm
      ((kindsOf mask).flatMap fun kind => (inp kind).map (leafOf kind)) := by
    refine List.Perm.flatMap_left _ fun kind hkind => ?_
    rw [← map_congr_left (hleaf kind hkind)]
    exact (sortEntries_perm _ _).map _
  refine ⟨hw.malformed, hw.missing, hw.misordered.2 hfit.apart, ?_, hw.indexes, ?_, ?_⟩
  · rw [hw.unresolved, hperm.countP_eq, countP_eq_zero]
    intro l hl
    obtain ⟨kind, hkind, hl⟩ := mem_flatMap.1 hl
    obtain ⟨e, he, rfl⟩ := mem_map.1 hl
    simpa [leafOf] using hhas kind hkind e he
  · rw [hw.entries, hperm.length_eq, length_flatMap]
    simp
  · rw [hw.seen]
    exact hperm

theorem valid_of_times (hvalid : mask.testBit 2 = true → ∀ e ∈ inp 2, (DateUtil.iso8601UtcSecs e.key0).isSome)
    {kind : Nat} (hkind : kind ∈ kindsOf mask) : ∀ e ∈ inp kind, Valid (kindAt kind) e.key0 := by
  intro e he htime
  have htwo : kind = 2 := by
    unfold kindAt at htime
    split at htime <;> simp_all
  subst htwo
  exact hvalid (mem_filter.1 hkind).2 e he

/-- What the check reports of a build whose sub-indexes do not take the container of the index list. -/
theorem build_walked (has : Nat → Nat → Bool)
    (hvalid : mask.testBit 2 = true → ∀ e ∈ inp 2, (DateUtil.iso8601UtcSecs e.key0).isSome)
    (h : bimIndexBuild mask inp firstId = .ok conts) (hzero : firstId = 0 → ∀ kind ∈ kindsOf mask, inp kind = []) :
    ∃ r, bimIndexCheck (Check.over conts has) = some r ∧
      Walked (Check.over conts has) r (kindsOf mask).length ((kindsOf mask).flatMap fun kind =>
        (sortEntries (kindAt kind) (inp kind)).map (readLeaf kind))
        (∀ kind ∈ kindsOf mask, CutsApart (kindAt kind) none
          (chunks (kindAt kind) (sortEntries (kindAt kind) (inp kind)))) := by
  obtain ⟨plans, o, hplans, hb⟩ := bimIndexBuild_built h
  have hkind : ∀ {p : KindPlan}, p ∈ plans → p.kind ∈ kindsOf mask := fun hp => hplans ▸ mem_map_of_mem hp
  have hparts : firstId = 0 → plans.flatMap KindPlan.parts = [] := fun h0 =>
    hb.parts_nil fun p hp => hzero h0 p.kind (hkind hp)
  obtain ⟨r, hr, hw⟩ := hb.walked has hparts fun p hp => valid_of_times hvalid (hkind hp)
  refine ⟨r, hr, ?_⟩
  rw [← hplans, length_map, flatMap_map]
  refine hw.congr ⟨fun hall kind hk => ?_, fun hall p hp => hall p.kind (mem_map_of_mem hp)⟩
  obtain ⟨p, hp, rfl⟩ := mem_map.1 hk
  exact hall p hp

theorem fits_of_passes {has : Nat → Nat → Bool}
    (hvalid : mask.testBit 2 = true → ∀ e ∈ inp 2, (DateUtil.iso8601UtcSecs e.key0).isSome)
    (h : bimIndexBuild mask inp firstId = .ok conts) (hr : bimIndexCheck (Check.over conts has) = some r)
    (hpass : Passes mask inp r) : BuildFits mask inp firstId := by
  have hfirst : firstId = 0 → ∀ kind ∈ kindsOf mask, inp kind = [] := by
    intro hzero kind hk
    obtain ⟨plans, o, hplans, hb⟩ := bimIndexBuild_built h
    obtain ⟨p, hp, rfl⟩ := mem_map.1 (hplans ▸ hk)
    by_contra hne
    have := hb.missing has hzero (hb.parts_ne_nil hp hne) hr
    rw [hpass.missing] at this
    exact absurd this (lt_irrefl _)
  obtain ⟨r', hr', hw⟩ := build_walked has hvalid h hfirst
  obtain rfl : r = r' := some.inj (hr.symm.trans hr')
  refine ⟨fun kind hk e he => ?_, hfirst, hw.misordered.1 hpass.misordered⟩
  -- the entry was read, and what is read has 24 bits
  have hmem : leafOf kind e ∈ r.seen := hpass.each_once.mem_iff.2 (mem_flatMap.2 ⟨kind, hk, mem_map_of_mem he⟩)
  rw [hw.seen] at hmem
  obtain ⟨kind', -, hmem⟩ := mem_flatMap.1 hmem
  obtain ⟨e', -, heq⟩ := mem_map.1 hmem
  have hfrag : e'.fragment.toNat % 16777216 = e.fragment.toNat := congrArg Leaf.fragment heq
  omega

end

/-- A build that succeeds passes its own check exactly if the input fits. -/
theorem build_passes_iff (mask : Nat) (inp : Nat → List Entry) (firstId : Nat) (conts : List Cont)
    (has : Nat → Nat → Bool)
    (hvalid : mask.testBit 2 = true → ∀ e ∈ inp 2, (DateUtil.iso8601UtcSecs e.key0).isSome)
    (hhas : ∀ kind ∈ kindsOf mask, ∀ e ∈ inp kind, has e.container.toNat e.fragment.toNat = true)
    (h : bimIndexBuild mask inp firstId = .ok conts) :
    (∃ r, bimIndexCheck (Check.over conts has) = some r ∧ Passes mask inp r) ↔ BuildFits mask inp firstId := by
  refine ⟨fun ⟨r, hr, hpass⟩ => fits_of_passes hvalid h hr hpass, fun hfit => ?_⟩
  obtain ⟨r, hr, hw⟩ := build_walked has hvalid h hfit.first_id
  exact ⟨r, hr, Passes.of_walked hw hhas hfit⟩

/-- Three programmes: two with the title `s` and one with the title `t`. -/
def titled (s t : CStr) : Nat → List Entry
  | 1 => [⟨s, ⟨[], CStr.zero_notMem_nil⟩, 1, 1⟩, ⟨s, ⟨[], CStr.zero_notMem_nil⟩, 1, 2⟩, ⟨t, ⟨[], CStr.zero_notMem_nil⟩, 1, 3⟩]
  | _ => []

variable {s t : CStr}

theorem sortEntries_titled (hst : strcmp s t ≠ .gt) : sortEntries (kindAt 1) (titled s t 1) = titled s t 1 := by
  have hcmp : ∀ x y : Entry, strcmp x.key0 y.key0 ≠ .gt → x.container = y.container →
      x.fragment.toNat ≤ y.fragment.toNat → entryCmp (kindAt 1) x y ≠ .gt := by
    intro x y hkey hcont hfrag
    have htuple : tupleCmp (kindAt 1) (x.key0, x.key1) (y.key0, y.key1) = strcmp x.key0 y.key0 := if_pos (.inr (by decide))
    simp only [entryCmp, htuple, hcont, ne_eq, not_true_eq_false, if_false]
    split
    · exact hkey
    · exact fun h => (compare_gt_iff_gt.1 h).not_ge hfrag
  have hss : strcmp s s ≠ .gt := by simp [strcmp_eq_iff.2]
  rw [sortEntries, if_pos (show (titled s t 1).length > 1 from Nat.lt_of_sub_eq_succ rfl)]
  refine List.Pairwise.insertionSort_eq ?_
  simp only [titled, pairwise_cons, mem_cons, not_mem_nil, or_false, forall_eq_or_imp, forall_eq]
  exact ⟨⟨hcmp _ _ hss rfl (le_of_ble_eq_true rfl), hcmp _ _ hst rfl (le_of_ble_eq_true rfl)⟩,
    hcmp _ _ hst rfl (le_of_ble_eq_true rfl), fun _ h => h.elim, .nil⟩

variable {e : List Entry}

theorem chunksFrom_of_ne (he : e ≠ []) (fuel : Nat) :
    chunksFrom k (fuel + 1) e = e.take (cut k e) :: chunksFrom k fuel (e.drop (cut k e)) := by
  cases e with
  | nil => exact absurd rfl he
  | cons x xs => rfl

theorem putChunks_of_ne (he : e ≠ []) (hcut : cut k e ≠ 0) (fuel : Nat) (ix : List UInt8) (o : Out) :
    putChunks k (fuel + 1) e ix o =
      putChunk k (e.take (cut k e)) ix o >>= fun x => putChunks k fuel (e.drop (cut k e)) x.1 x.2 := by
  cases e with
  | nil => exact absurd rfl he
  | cons x xs =>
    rw [putChunks]
    exact if_neg hcut

theorem putStr_long {u : CStr} (hu : u.val.length = 32000) {sw : List UInt8} (hroom : sw.length + 32001 ≤ 65535) :
    putStr sw u = some (sw.length, strrepoPut sw u) ∧ (strrepoPut sw u).length = sw.length + 32001 := by
  refine ⟨?_, by rw [strrepoPut, length_append, length_append, hu, length_singleton]⟩
  rw [putStr, if_neg]
  rw [hu, bimRepoMax]
  omega

/-- A chunk that ends with such a title takes an id, and room for the title in the index list. -/
theorem putChunk_long {c : List Entry} {u : CStr} {structs : List Struct} (ix : List UInt8) (o : Out)
    (hlast : c.getLast?.elim [] (kindAt 1).keys = [u]) (hu : u.val.length = 32000)
    (hsub : buildSub (kindAt 1) c = some structs) (hid : o.nextId ≤ 0xFFFF) (hroom : o.sw.length + 32001 ≤ 65535) :
    ∃ ix' o', putChunk (kindAt 1) c ix o = .ok (ix', o') ∧ o'.nextId = o.nextId + 1 ∧
      o'.sw.length = o.sw.length + 32001 := by
  obtain ⟨hput, hlen⟩ := putStr_long hu hroom
  have hkeys : putKeys o.sw (c.getLast?.elim [] (kindAt 1).keys) = .ok (be16 o.sw.length ++ [], strrepoPut o.sw u) := by
    rw [hlast, putKeys, hput]
    rfl
  have hrun : putChunk (kindAt 1) c ix o = .ok (ix ++ (be16 o.sw.length ++ [] ++ be16 o.nextId ++ [0]), { o with
      sw := strrepoPut o.sw u
      subs := o.subs ++ [⟨o.nextId, structs⟩]
      nextId := o.nextId + 1 }) := by
    rw [putChunk, if_neg (by omega), hsub, hkeys]
    rfl
  exact ⟨_, _, hrun, rfl, hlen⟩

/-- Titles of 32000 bytes: a container takes two of them, the index list two more. -/
theorem build_titled (hst : strcmp s t ≠ .gt) (hs : s.val.length = 32000) (ht : t.val.length = 32000) :
    chunks (kindAt 1) (sortEntries (kindAt 1) (titled s t 1)) = [(titled s t 1).take 2, (titled s t 1).drop 2] ∧
      ∃ conts, bimIndexBuild 2 (titled s t) 3 = .ok conts := by
  have hcut2 : cut (kindAt 1) (titled s t 1) = 2 := by
    simp [cut, chunkLen, titled, chunkLenFrom, entryStrlen, hs, ht, bimRepoMax, kindAt, Kind.nfields]
  have hcut1 : cut (kindAt 1) ((titled s t 1).drop 2) = 1 := by
    simp [cut, chunkLen, titled, chunkLenFrom, entryStrlen, ht, bimRepoMax, kindAt, Kind.nfields]
  obtain ⟨two, htwo⟩ : ∃ structs, buildSub (kindAt 1) ((titled s t 1).take 2) = some structs := by
    obtain ⟨h0, hlen⟩ := @putStr_long s hs strrepoInit (by decide)
    obtain ⟨h1, -⟩ := @putStr_long s hs (strrepoPut strrepoInit s) (by rw [hlen]; decide)
    rw [buildSub, if_pos (by rfl)]
    simp [titled, leafLayer, h0, h1]
  obtain ⟨one, hone⟩ : ∃ structs, buildSub (kindAt 1) ((titled s t 1).drop 2) = some structs := by
    rw [buildSub, if_pos (by rfl)]
    simp [titled, leafLayer, (@putStr_long t ht strrepoInit (by decide)).1]
  obtain ⟨entry, sw, hentry, hsw⟩ : ∃ entry sw, listEntry strrepoInit 1 = .ok (entry, sw) ∧ sw.length = 39 := by
    have hlist : (listEntry strrepoInit 1).toOption.map (fun x => x.2.length) = some 39 := by decide +kernel
    cases h : listEntry strrepoInit 1 with
    | error e => simp [h, Except.toOption] at hlist
    | ok x =>
      rw [h] at hlist
      exact ⟨x.1, x.2, rfl, some.inj hlist⟩
  rw [sortEntries_titled hst]
  refine ⟨?_, ?_⟩
  · rw [chunks, show (titled s t 1).length = 3 from rfl, chunksFrom_of_ne (by simp [titled]), hcut2,
      chunksFrom_of_ne (by simp [titled]), hcut1]
    rfl
  obtain ⟨ix1, o1, h1, hid1, hsw1⟩ := @putChunk_long ((titled s t 1).take 2) s two [indexHdr, locatorRemote]
    { sw, list := entry, nextId := 3 } rfl hs htwo (le_of_ble_eq_true rfl) (by rw [hsw]; decide)
  obtain ⟨ix2, o2, h2, -, -⟩ := @putChunk_long ((titled s t 1).drop 2) t one ix1 o1 rfl ht hone
    (by rw [hid1]; exact le_of_ble_eq_true rfl) (by rw [hsw1, hsw]; decide)
  have hall : putChunks (kindAt 1) 3 (titled s t 1) [indexHdr, locatorRemote]
      { sw, list := entry, nextId := 3 } = .ok (ix2, o2) := by
    rw [putChunks_of_ne (by simp [titled]) (by rw [hcut2]; decide), hcut2, h1]
    show putChunks (kindAt 1) 2 ((titled s t 1).drop 2) ix1 o1 = _
    rw [putChunks_of_ne (by simp [titled]) (by rw [hcut1]; decide), hcut1]
    show putChunk (kindAt 1) ((titled s t 1).drop 2) ix1 o1 >>= _ = _
    rw [h2]
    rfl
  have hkind : putKind 1 (titled s t 1) { nextId := 3 } =
      .ok { o2 with structs := o2.structs ++ [⟨.index, 1, ix2⟩] } := by
    rw [putKind, sortEntries_titled hst]
    show listEntry strrepoInit 1 >>= _ = _
    rw [hentry]
    show putChunks (kindAt 1) 3 (titled s t 1) [indexHdr, locatorRemote]
      { sw, list := entry, nextId := 3 } >>= _ = _
    rw [hall]
    rfl
  rw [bimIndexBuild, show kindsOf 2 = [1] by decide, putKinds, hkind]
  exact ⟨_, rfl⟩

/-- Two containers: the first two titles, and the third. -/
theorem build_passes_twoChunks : ∃ inp conts r, (chunks (kindAt 1) (sortEntries (kindAt 1) (inp 1))).length = 2 ∧
    bimIndexBuild 2 inp 3 = .ok conts ∧ bimIndexCheck (Check.over conts fun _ _ => true) = some r ∧ Passes 2 inp r := by
  have hlong : ∀ b : UInt8, 0 ≠ b → ∃ xs, xs.length = 31999 ∧ 0 ∉ b :: xs := fun b hb =>
    ⟨replicate 31999 b, length_replicate, not_mem_cons_of_ne_of_not_mem hb fun h => hb (eq_of_mem_replicate h)⟩
  obtain ⟨xs, hxs, h97⟩ := hlong 97 (by decide)
  obtain ⟨ys, hys, h98⟩ := hlong 98 (by decide)
  obtain ⟨s, t, hs, ht, hst⟩ : ∃ s t : CStr, s.val.length = 32000 ∧ t.val.length = 32000 ∧ strcmp s t = .lt :=
    ⟨⟨97 :: xs, h97⟩, ⟨98 :: ys, h98⟩, by simp [hxs], by simp [hys], rfl⟩
  obtain ⟨hchunks, conts, hb⟩ := build_titled (by rw [hst]; exact nofun) hs ht
  have hkinds : kindsOf 2 = [1] := by decide
  have hfit : BuildFits 2 (titled s t) 3 := by
    refine ⟨by simp [hkinds, titled], nofun, ?_⟩
    simp only [hkinds, mem_singleton, forall_eq, hchunks]
    refine ⟨nofun, fun l hl => ?_, trivial⟩
    obtain rfl := Option.some.inj hl
    rw [Sep, if_pos (by rfl)]
    rintro e he heq
    obtain rfl := Option.some.inj he
    have hts : s = t := heq
    rw [strcmp_eq_iff.2 hts] at hst
    cases hst
  obtain ⟨r, hr, hpass⟩ := (build_passes_iff 2 (titled s t) 3 conts (fun _ _ => true) nofun (fun _ _ _ _ => rfl) hb).mpr hfit
  exact ⟨titled s t, conts, r, by rw [hchunks]; rfl, hb, hr, hpass⟩

/-- The third programme starts a container of its own, with the title the first two end with. -/
theorem sameTitle_misordered : ¬ ∀ mask inp firstId conts has,
    (mask.testBit 2 = true → ∀ e ∈ inp 2, (DateUtil.iso8601UtcSecs e.key0).isSome) →
    (∀ kind ∈ kindsOf mask, ∀ e ∈ inp kind, has e.container.toNat e.fragment.toNat = true) →
    bimIndexBuild mask inp firstId = .ok conts →
      ∃ r, bimIndexCheck (Check.over conts has) = some r ∧ Passes mask inp r := by
  intro hclaim
  obtain ⟨s, hs⟩ : ∃ s : CStr, s.val.length = 32000 :=
    ⟨⟨replicate 32000 97, fun h => absurd (eq_of_mem_replicate h) (by decide)⟩, length_replicate⟩
  obtain ⟨hchunks, conts, hok⟩ := build_titled (by rw [strcmp_eq_iff.2 rfl]; exact nofun) hs hs
  have hvalid : Nat.testBit 2 2 = true → ∀ e ∈ titled s s 2, (DateUtil.iso8601UtcSecs e.key0).isSome := nofun
  obtain ⟨r, hr, hpass⟩ := hclaim 2 (titled s s) 3 conts (fun _ _ => true) hvalid (fun _ _ _ _ => rfl) hok
  have hapart := (fits_of_passes hvalid hok hr hpass).apart 1 (by decide)
  rw [hchunks] at hapart
  have hsep := hapart.2.1 _ rfl
  rw [Sep, if_pos (by rfl)] at hsep
  exact hsep _ rfl rfl

end DvbIpiTools.Bim.Index
