import DvbIpiTools.Bim.Index.Build

set_option autoImplicit false

/-! # The check over built containers

What `bim_index_check` reports on the containers a build returned: every structure is found, every
entry is read, and only the bounds between chunks can be out of order. -/

namespace DvbIpiTools.Bim.Index

open List Option

/-! ## Reports -/

section

variable (a b : Report)

@[simp] theorem Report.add_indexes : (a + b).indexes = a.indexes + b.indexes := rfl

@[simp] theorem Report.add_ignored : (a + b).ignored = a.ignored + b.ignored := rfl

@[simp] theorem Report.add_entries : (a + b).entries = a.entries + b.entries := rfl

@[simp] theorem Report.add_missing : (a + b).missing = a.missing + b.missing := rfl

@[simp] theorem Report.add_malformed : (a + b).malformed = a.malformed + b.malformed := rfl

@[simp] theorem Report.add_misordered : (a + b).misordered = a.misordered + b.misordered := rfl

@[simp] theorem Report.add_unresolved : (a + b).unresolved = a.unresolved + b.unresolved := rfl

@[simp] theorem Report.add_seen : (a + b).seen = a.seen ++ b.seen := rfl

end

/-- A part of the walk that found everything: `n` indices and these leaf entries; it is in order
exactly if `inOrder`. -/
structure Walked (c : Check) (r : Report) (n : Nat) (leaves : List Leaf) (inOrder : Prop) : Prop where
  indexes : r.indexes = n
  ignored : r.ignored = 0
  entries : r.entries = leaves.length
  missing : r.missing = 0
  malformed : r.malformed = 0
  misordered : r.misordered = 0 ↔ inOrder
  unresolved : r.unresolved = leaves.countP fun l => !c.has l.container l.fragment
  seen : r.seen = leaves

variable {c : Check}

theorem walked_nil : Walked c {} 0 [] True := ⟨rfl, rfl, rfl, rfl, rfl, by simp, rfl, rfl⟩

theorem Walked.add {r r' : Report} {n n' : Nat} {ls ls' : List Leaf} {p p' : Prop}
    (h : Walked c r n ls p) (h' : Walked c r' n' ls' p') : Walked c (r + r') (n + n') (ls ++ ls') (p ∧ p') where
  indexes := by rw [Report.add_indexes, h.indexes, h'.indexes]
  ignored := by rw [Report.add_ignored, h.ignored, h'.ignored]
  entries := by rw [Report.add_entries, h.entries, h'.entries, length_append]
  missing := by rw [Report.add_missing, h.missing, h'.missing]
  malformed := by rw [Report.add_malformed, h.malformed, h'.malformed]
  misordered := by rw [Report.add_misordered, Nat.add_eq_zero_iff, h.misordered, h'.misordered]
  unresolved := by rw [Report.add_unresolved, h.unresolved, h'.unresolved, countP_append]
  seen := by rw [Report.add_seen, h.seen, h'.seen]

theorem Walked.congr {r : Report} {n : Nat} {ls : List Leaf} {p p' : Prop} (h : Walked c r n ls p)
    (hp : p ↔ p') : Walked c r n ls p' := { h with misordered := h.misordered.trans hp }

theorem walked_order (b : Bool) : Walked c (misorderedIf b) 0 [] (b = false) := by
  refine ⟨rfl, rfl, rfl, rfl, rfl, ?_, rfl, rfl⟩
  cases b <;> simp [misorderedIf]

theorem walked_locator (l : Leaf) : Walked c (checkLocator c l) 0 [l] True := by
  refine ⟨rfl, rfl, rfl, rfl, rfl, by simp [checkLocator], ?_, rfl⟩
  rw [countP_singleton, checkLocator]
  cases c.has l.container l.fragment <;> rfl

theorem Walked.leaf {r : Report} {l : Leaf} {ls : List Leaf} {p : Prop} (b : Bool) (h : Walked c r 0 ls p) :
    Walked c (misorderedIf b + checkLocator c l + r) 0 (l :: ls) (b = false ∧ p) :=
  (((walked_order b).add (walked_locator l)).add h).congr (by simp)

/-! ## Kinds -/

theorem kind_fields (kind : Nat) : ((kindAt kind).nfields = 1 ∧ (kindAt kind).timeKey = false) ∨
      ((kindAt kind).nfields = 2 ∧ (kindAt kind).timeKey = true) := by
  unfold kindAt
  split
  · exact .inl ⟨rfl, rfl⟩
  · exact .inl ⟨rfl, rfl⟩
  · exact .inr ⟨rfl, rfl⟩
  · exact .inl ⟨rfl, rfl⟩
  · exact .inl ⟨rfl, rfl⟩
  · exact .inl ⟨rfl, rfl⟩

/-- The tuple of an entry: the second key counts for kinds with two fields. -/
def tup (k : Kind) (e : Entry) : CStr × CStr := (e.key0, if k.nfields > 1 then e.key1 else ⟨[], CStr.zero_notMem_nil⟩)

/-- The leaf entry that an input entry asks for. -/
def leafOf (kind : Nat) (e : Entry) : Leaf :=
  ⟨kind, (tup (kindAt kind) e).1, (tup (kindAt kind) e).2, e.container.toNat, e.fragment.toNat⟩

/-- The leaf entry that is read: a fragment id has 24 bits. -/
def readLeaf (kind : Nat) (e : Entry) : Leaf := { leafOf kind e with fragment := e.fragment.toNat % 16777216 }

theorem tupleKey_tup (k : Kind) (e : Entry) : tupleKey k (tup k e) = tupleKey k (e.key0, e.key1) := by
  unfold tupleKey tup
  by_cases h : k.nfields < 2
  · rw [if_pos h, if_pos h]
  · rw [if_neg h, if_neg h, if_pos (by omega)]

variable {k : Kind}

theorem tupleCmp_ne_gt {a b : CStr × CStr} (ha : Valid k a.1) (hb : Valid k b.1)
    (h : tupleKey k a ≤ tupleKey k b) : tupleCmp k a b ≠ .gt := (tupleCmp_compares ha hb).ne_gt.2 h

/-! ## One layer -/

theorem aboveSingle_false {p v : CStr} (h : bytesKey p ≤ bytesKey v) : aboveSingle false (some p) v = false := by
  have hne : strcmp p v ≠ .gt := (strcmp_compares p v).ne_gt.2 h
  simpa [aboveSingle, keyCmp] using hne

variable {s : List UInt8} {recs : List Record} {es : List Entry}

/-- A single layer that is sorted and not above `hi`; only the first entry may be out of order, if it
is not above `lo`. -/
theorem singleLoop_walked {kind : Nat} {hi : CStr} (hk : (kindAt kind).nfields = 1) (hlaid : LeafLaid s Entry.key0 recs es)
    (hsorted : es.Pairwise fun a b => bytesKey a.key0 ≤ bytesKey b.key0)
    (hhi : ∀ e ∈ es, bytesKey e.key0 ≤ bytesKey hi) (atLo : Bool) (prev : Option CStr)
    (hprev : atLo = false → ∀ p, prev = some p → ∀ e ∈ es, bytesKey p ≤ bytesKey e.key0) :
    Walked c (singleLoop c kind s hi atLo prev recs) 0 (es.map (readLeaf kind))
      (∀ p e, atLo = true → prev = some p → es.head? = some e → bytesKey p < bytesKey e.key0) := by
  induction hlaid generalizing atLo prev with
  | nil => exact walked_nil.congr (by simp)
  | @cons r e recs es hr _ ih =>
    obtain ⟨hstr, hcont, hfrag⟩ := hr
    rw [pairwise_cons] at hsorted
    rw [forall_mem_cons] at hhi
    have hrest := ih hsorted.2 hhi.2 false (some e.key0) (by
      rintro - p hp x hx
      cases hp
      exact hsorted.1 x hx)
    have hhi' : decide (keyCmp false e.key0 hi = .gt) = false := by
      have hne : strcmp e.key0 hi ≠ .gt := (strcmp_compares e.key0 hi).ne_gt.2 hhi.1
      simpa [keyCmp] using hne
    have hleaf : readLeaf kind e = ⟨kind, e.key0, ⟨[], CStr.zero_notMem_nil⟩, r.container, r.fragment⟩ := by
      simp only [readLeaf, leafOf, tup, hk, hcont, hfrag]
      rfl
    rw [singleLoop, hstr, map_cons, hleaf]
    refine (hrest.leaf _).congr ?_
    rw [hhi', Bool.or_false]
    refine ⟨fun h p x hlo hp hx => ?_, fun h => ⟨?_, by simp⟩⟩
    · obtain rfl : e = x := some.inj hx
      obtain rfl := hp
      have hlt := h.1
      rw [hlo] at hlt
      rw [← (strcmp_compares p e.key0).eq_lt]
      simpa [aboveSingle, keyCmp] using hlt
    cases prev with
    | none => rfl
    | some p =>
      cases atLo with
      | false => exact aboveSingle_false (hprev rfl p rfl e mem_cons_self)
      | true =>
        have hlt := (strcmp_compares p e.key0).eq_lt.2 (h p e rfl rfl rfl)
        simp [aboveSingle, keyCmp, hlt]

/-! ## Two layers -/

/-- What the walk through sorted entries needs: valid keys, none above `hi`, none below `prev`. -/
structure Between (k : Kind) (prev : Option (CStr × CStr)) (hi : CStr × CStr) (es : List Entry) : Prop where
  sorted : es.Pairwise fun a b => tupleKey k (tup k a) ≤ tupleKey k (tup k b)
  valid : ∀ e ∈ es, Valid k e.key0
  le_hi : ∀ e ∈ es, tupleKey k (tup k e) ≤ tupleKey k hi
  valid_hi : Valid k hi.1
  ge_prev : ∀ p, prev = some p → Valid k p.1 ∧ ∀ e ∈ es, tupleKey k p ≤ tupleKey k (tup k e)

variable {hi : CStr × CStr}

theorem Between.right {prev : Option (CStr × CStr)} {g : List Entry}
    {prev' : Option (CStr × CStr)} (h : Between k prev hi (g ++ es))
    (hprev : prev' = prev ∨ ∃ e ∈ g, prev' = some (tup k e)) : Between k prev' hi es where
  sorted := (pairwise_append.1 h.sorted).2.1
  valid := fun e he => h.valid e (mem_append_right _ he)
  le_hi := fun e he => h.le_hi e (mem_append_right _ he)
  valid_hi := h.valid_hi
  ge_prev := by
    intro p hp
    rcases hprev with rfl | ⟨x, hx, rfl⟩
    · obtain ⟨hv, hle⟩ := h.ge_prev p hp
      exact ⟨hv, fun e he => hle e (mem_append_right _ he)⟩
    · cases hp
      refine ⟨h.valid x (mem_append_left _ hx), fun e he => ?_⟩
      exact (pairwise_append.1 h.sorted).2.2 x hx e he

theorem endLoop_walked {kind : Nat} {fin : CStr} {g : List Entry} (hk : (kindAt kind).nfields = 2)
    (hlaid : LeafLaid s Entry.key1 recs g) (hsame : ∀ x ∈ g, x.key0 = fin) (prev : Option (CStr × CStr))
    (hb : Between (kindAt kind) prev hi (g ++ es)) :
    ∃ rep prev', endLoop c kind s hi fin prev recs = (rep, some prev') ∧
      Walked c rep 0 (g.map (readLeaf kind)) True ∧ Between (kindAt kind) prev' hi es := by
  induction hlaid generalizing prev with
  | nil => exact ⟨{}, prev, rfl, walked_nil, hb⟩
  | @cons r e recs g hr _ ih =>
    obtain ⟨hstr, hcont, hfrag⟩ := hr
    rw [forall_mem_cons] at hsame
    obtain ⟨rfl, hsame⟩ := hsame
    have htup : tup (kindAt kind) e = (e.key0, e.key1) := by rw [tup, if_pos (by omega)]
    have hnext : Between (kindAt kind) (some (e.key0, e.key1)) hi (g ++ es) :=
      Between.right (g := [e]) hb (.inr ⟨e, by simp, by rw [htup]⟩)
    obtain ⟨rep, prev', hrun, hwalk, hb'⟩ := ih hsame _ hnext
    have hmem : e ∈ e :: (g ++ es) := mem_cons_self
    have hhi : tupleCmp (kindAt kind) (e.key0, e.key1) hi ≠ .gt := by
      have hle := hb.le_hi e hmem
      rw [htup] at hle
      exact tupleCmp_ne_gt (hb.valid e hmem) hb.valid_hi hle
    have hprev : (prev.any fun p => tupleCmp (kindAt kind) p (e.key0, e.key1) = .gt) = false := by
      cases prev with
      | none => rfl
      | some p =>
        obtain ⟨hv, hle⟩ := hb.ge_prev p rfl
        have hle := hle e hmem
        rw [htup] at hle
        have hne : tupleCmp (kindAt kind) p (e.key0, e.key1) ≠ .gt := tupleCmp_ne_gt hv (hb.valid e hmem) hle
        simpa using hne
    have hleaf : readLeaf kind e = ⟨kind, e.key0, e.key1, r.container, r.fragment⟩ := by
      simp only [readLeaf, leafOf, htup, hcont, hfrag]
    have hstep : endLoop c kind s hi e.key0 prev (r :: recs) =
        (misorderedIf (prev.any (fun p => tupleCmp (kindAt kind) p (e.key0, e.key1) = .gt) ||
            tupleCmp (kindAt kind) (e.key0, e.key1) hi = .gt) +
          checkLocator c ⟨kind, e.key0, e.key1, r.container, r.fragment⟩ + rep, some prev') := by
      rw [endLoop, hstr]
      simp only [hrun]
    refine ⟨_, prev', hstep, ?_, hb'⟩
    rw [map_cons, hleaf]
    refine (hwalk.leaf _).congr ?_
    simp [hprev, hhi]

theorem twoLoop_walked {kind : Nat} {l2 j : Nat} {l1 : List UInt8} {all : List Record} (hk : (kindAt kind).nfields = 2)
    (hlaid : EndLaid s j l1 recs es) (hall : all.drop j = recs) (hl2 : l2 = 1 + 7 * all.length)
    (hj : j + recs.length = all.length) (prev : Option (CStr × CStr))
    (hb : Between (kindAt kind) prev hi es) :
    Walked c (twoLoop c kind s hi l2 all j prev l1) 0 (es.map (readLeaf kind)) True := by
  induction hlaid generalizing prev with
  | nil j =>
    have hlen : ¬ 1 + j * (2 + locatorLen) ≠ l2 := by
      rw [length_nil] at hj
      show ¬ 1 + j * 7 ≠ l2
      omega
    rw [twoLoop, if_neg hlen]
    · exact walked_nil
    · simp
  | @cons j off fin l1 recs recs' g es hlt hfin hne hsame hroom hleaf _ ih =>
    have hg : recs.length = g.length := hleaf.length_eq
    have hpos : 0 < g.length := length_pos_iff.2 hne
    have hoff := be16Get_of_lt hlt []
    have hlast := be16Get_of_lt (show j + g.length - 1 < 65536 by omega) []
    rw [append_nil] at hoff hlast
    rw [length_append] at hj
    have htake : (all.drop j).take (j + g.length - 1 + 1 - j) = recs := by
      rw [hall, show j + g.length - 1 + 1 - j = recs.length by omega, take_left]
    have hdrop : all.drop (j + g.length) = recs' := by rw [← drop_drop, hall, ← hg, drop_left]
    obtain ⟨rep, prev', hrun, hwalk, hb'⟩ := endLoop_walked (c := c) (s := s) hk hleaf hsame prev hb
    have hin : ¬ (j + g.length - 1 < j ∨ 1 + (j + g.length - 1 + 1) * (2 + locatorLen) > l2) := by
      show ¬ (j + g.length - 1 < j ∨ 1 + (j + g.length - 1 + 1) * 7 > l2)
      omega
    have hstep : twoLoop c kind s hi l2 all j prev (be16 off ++ be16 (j + g.length - 1) ++ l1) =
        rep + twoLoop c kind s hi l2 all (j + g.length) prev' l1 := by
      show twoLoop c kind s hi l2 all j prev (_ :: _ :: _ :: _ :: l1) = _
      rw [twoLoop, show be16Get [UInt8.ofNat (off / 256), UInt8.ofNat off] = off from hoff, hfin]
      simp only
      rw [show be16Get [UInt8.ofNat ((j + g.length - 1) / 256), UInt8.ofNat (j + g.length - 1)] =
        j + g.length - 1 from hlast, if_neg hin, htake, hrun, show j + g.length - 1 + 1 = j + g.length by omega]
    rw [hstep, map_append]
    exact (hwalk.add (ih hdrop (by omega) prev' hb')).congr (by simp)

/-! ## One chunk -/

/-- The chunk behind the entry `l` starts with another key, or with two keys ends with another tuple. -/
def Sep (k : Kind) (l : Entry) (c : List Entry) : Prop :=
  if k.nfields = 1 then ∀ e, c.head? = some e → l.key0 ≠ e.key0
  else ∀ e, c.getLast? = some e → (l.key0, l.key1) ≠ (e.key0, e.key1)

theorem tupleKey_single (hk : k.nfields = 1 ∧ k.timeKey = false) (a b : CStr × CStr) :
    (tupleKey k a ≤ tupleKey k b ↔ bytesKey a.1 ≤ bytesKey b.1) ∧
      (tupleKey k a < tupleKey k b ↔ bytesKey a.1 < bytesKey b.1) := by
  have hnf : k.nfields < 2 := by omega
  simp [tupleKey, orderKey, hk.2, hnf, Prod.Lex.toLex_lt_toLex, le_iff_lt_or_eq]

theorem tupleKey_injective (hk : k.nfields = 2) {a b : CStr × CStr} (h : tupleKey k a = tupleKey k b) : a = b := by
  have hnf : ¬ k.nfields < 2 := by omega
  unfold tupleKey orderKey at h
  rw [if_neg hnf, if_neg hnf] at h
  obtain ⟨h0, h1⟩ := Prod.mk.inj (toLex_inj.1 h)
  obtain ⟨-, h0⟩ := Prod.mk.inj (toLex_inj.1 h0)
  exact Prod.ext (bytesKey_injective h0) (bytesKey_injective h1)

/-- The containers of a lookup. -/
def Check.over (conts : List Cont) (has : Nat → Nat → Bool) : Check := ⟨findIn conts, has⟩

section

variable {conts : List Cont} (has : Nat → Nat → Bool) {kind sc : Nat} {sub : Cont}

theorem over_find (hfind : conts.find? (fun x => x.id = sc) = some sub) (type : StructType) (id : Nat) :
    (Check.over conts has).find sc type id =
      (sub.structs.find? fun st => st.type = type && st.id = id).map Struct.body := by
  show findIn conts sc type id = _
  unfold findIn
  rw [hfind]
  cases h : sub.structs.find? fun st => st.type = type && st.id = id with
  | none => simp [h]
  | some st => simp [h]

theorem checkSingle_walked {es : List Entry} {lo : Option CStr} {hi : CStr}
    (hk : (kindAt kind).nfields = 1 ∧ (kindAt kind).timeKey = false)
    (hfind : conts.find? (fun x => x.id = sc) = some sub) (hsub : buildSub (kindAt kind) es = some sub.structs)
    (hsorted : es.Pairwise fun a b => bytesKey a.key0 ≤ bytesKey b.key0)
    (hhi : ∀ e ∈ es, bytesKey e.key0 ≤ bytesKey hi) :
    Walked (Check.over conts has) (checkSingle (Check.over conts has) kind sc 0 lo hi) 0
      (es.map (readLeaf kind))
      (∀ p e, lo = some p → es.head? = some e → bytesKey p < bytesKey e.key0) := by
  rw [buildSub, if_pos hk.1, bind_eq_bind, bind_eq_some_iff] at hsub
  obtain ⟨⟨l2, sw⟩, hleaf, hsub⟩ := hsub
  have hstructs := (some.inj hsub).symm
  obtain ⟨-, -, hlen, hlaid⟩ := leafLayer_laid (by simp [strrepoInit]) hleaf
  have hbad : badLeaf (leafHdr :: l2) = false := by simp [badLeaf, locatorLen, leafHdr, hlen]
  unfold checkSingle Check.stringsOf
  rw [over_find has hfind, over_find has hfind, hstructs]
  show Walked _ (if badLeaf (leafHdr :: l2) = true then _ else _) _ _ _
  rw [if_neg (by simp [hbad])]
  refine (singleLoop_walked hk.1 hlaid hsorted hhi true lo (by simp)).congr ?_
  simp

theorem checkTwo_walked {es : List Entry} {lo : Option (CStr × CStr)} {hi : CStr × CStr}
    (hk : (kindAt kind).nfields = 2) (hfind : conts.find? (fun x => x.id = sc) = some sub)
    (hsub : buildSub (kindAt kind) es = some sub.structs) (hsmall : es.length ≤ 65536)
    (hb : Between (kindAt kind) lo hi es) :
    Walked (Check.over conts has) (checkTwo (Check.over conts has) kind sc 0 lo hi) 0
      (es.map (readLeaf kind)) True := by
  rw [buildSub, if_neg (by omega), bind_eq_bind, bind_eq_some_iff] at hsub
  obtain ⟨⟨l1, l2, sw⟩, hleaf, hsub⟩ := hsub
  have hstructs := (some.inj hsub).symm
  obtain ⟨-, -, hl1, hl2, hlaid⟩ := endLayer_laid (by simp [strrepoInit]) le_rfl (by omega) hleaf
  have hbad : badLeaf (leafHdr :: l2) = false := by simp [badLeaf, locatorLen, leafHdr, hl2]
  have hnode : ¬ ((nodeHdr :: 1 :: l1).length < 2 ∨ ((nodeHdr :: 1 :: l1).headD 0).toNat / 64 ≠ 0 ∨
      ((nodeHdr :: 1 :: l1).length - 2) % 4 ≠ 0) := by
    simp [nodeHdr, hl1]
  have hnodes : (Check.over conts has).find sc .subIndex 0 = some (nodeHdr :: 1 :: l1) := by
    rw [over_find has hfind, hstructs]
    rfl
  have hleaves : (Check.over conts has).find sc .subIndex 1 = some (leafHdr :: l2) := by
    rw [over_find has hfind, hstructs]
    rfl
  have hstrings : (Check.over conts has).stringsOf sc = some sw := by
    rw [Check.stringsOf, over_find has hfind, hstructs]
    rfl
  unfold checkTwo
  rw [hnodes, hstrings]
  simp only
  rw [if_neg hnode, show ((nodeHdr :: 1 :: l1).getD 1 0).toNat = 1 from rfl, hleaves]
  simp only
  rw [if_neg (by simp [hbad])]
  have hlen := length_records hl2
  refine twoLoop_walked hk hlaid rfl ?_ ?_ lo hb
  · show l2.length + 1 = 1 + 7 * (records l2).length
    omega
  · show 0 + (records l2).length = (records l2).length
    omega

end

end DvbIpiTools.Bim.Index
