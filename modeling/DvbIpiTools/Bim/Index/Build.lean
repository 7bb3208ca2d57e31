import DvbIpiTools.Bim.Index.Order

set_option autoImplicit false

/-! # What the build lays out

The bytes of each structure, as far as a reader needs them: offsets that lead to the strings they were
made for in any later state of the repository, and entries in the order of the chunk. -/

namespace DvbIpiTools.Bim.Index

open List Option

/-! ## Fields -/

theorem be16Get_be16 (v : Nat) (t : List UInt8) : be16Get (be16 v ++ t) = v % 65536 := by
  show (UInt8.ofNat (v / 256)).toNat * 256 + (UInt8.ofNat v).toNat = _
  rw [UInt8.toNat_ofNat', UInt8.toNat_ofNat']
  omega

theorem be16Get_of_lt {v : Nat} (h : v < 65536) (t : List UInt8) : be16Get (be16 v ++ t) = v := by
  rw [be16Get_be16, Nat.mod_eq_of_lt h]

theorem be24Get_be24 (v : Nat) (t : List UInt8) : be24Get (be24 v ++ t) = v % 16777216 := by
  show (UInt8.ofNat (v / 65536)).toNat * 65536 + (UInt8.ofNat (v / 256)).toNat * 256 + (UInt8.ofNat v).toNat = _
  rw [UInt8.toNat_ofNat', UInt8.toNat_ofNat', UInt8.toNat_ofNat']
  omega

/-- A string put into a repository: where it is, and that the repository only grew. -/
structure Put (sw : List UInt8) (s : CStr) (off : Nat) (sw' : List UInt8) : Prop where
  grows : sw <+: sw'
  ne_nil : sw' ≠ []
  lt : off < 65536
  at_off : strrepoAt sw' off = some s

variable {sw sw' : List UInt8}

theorem putStr_put {s : CStr} {off : Nat} (hsw : sw ≠ []) (h : putStr sw s = some (off, sw')) : Put sw s off sw' := by
  unfold putStr at h
  split at h
  · cases h
  rename_i hroom
  cases h
  have hat := strrepoAt_put sw [] s hsw
  rw [append_nil] at hat
  unfold bimRepoMax at hroom
  refine ⟨⟨s.val ++ [0], by rw [strrepoPut, append_assoc]⟩, by simp [strrepoPut], ?_, hat⟩
  omega

/-! ## Leaf layers -/

/-- The records lead to the keys and locators of the entries. -/
def LeafLaid (s : List UInt8) (key : Entry → CStr) (recs : List Record) (es : List Entry) : Prop :=
  List.Forall₂ (fun r e => strrepoAt s r.off = some (key e) ∧ r.container = e.container.toNat ∧
    r.fragment = e.fragment.toNat % 16777216) recs es

variable {s s' : List UInt8} {es : List Entry} {key : Entry → CStr}

theorem LeafLaid.mono {recs : List Record} (h : LeafLaid s key recs es) (hs : s <+: s') : LeafLaid s' key recs es :=
  h.imp fun _ _ hr => ⟨strrepoAt_mono hs hr.1, hr.2⟩

theorem records_cons (off : Nat) (e : Entry) (rest : List UInt8) : records (be16 off ++ locator e ++ rest) =
      ⟨off % 65536, e.container.toNat, e.fragment.toNat % 16777216⟩ :: records rest := by
  have hoff := be16Get_be16 off []
  have hcont := be16Get_of_lt e.container.toNat_lt []
  have hfrag := be24Get_be24 e.fragment.toNat []
  rw [append_nil] at hoff hcont hfrag
  show (⟨be16Get (be16 off), be16Get (be16 e.container.toNat), be24Get (be24 e.fragment.toNat)⟩ : Record) ::
    records rest = _
  rw [hoff, hcont, hfrag]

variable {bytes : List UInt8}

theorem leafLayer_laid (hsw : sw ≠ []) (h : leafLayer key sw es = some (bytes, sw')) :
    sw <+: sw' ∧ sw' ≠ [] ∧ bytes.length = 7 * es.length ∧ LeafLaid sw' key (records bytes) es := by
  induction es generalizing sw bytes with
  | nil =>
    cases h
    exact ⟨prefix_refl _, hsw, rfl, .nil⟩
  | cons e es ih =>
    rw [leafLayer, bind_eq_bind, bind_eq_some_iff] at h
    obtain ⟨⟨off, sw1⟩, hput, h⟩ := h
    rw [bind_eq_bind, bind_eq_some_iff] at h
    obtain ⟨⟨rest, sw2⟩, hrest, h⟩ := h
    cases h
    have hp := putStr_put hsw hput
    obtain ⟨hgrow, hne, hlen, hlaid⟩ := ih hp.ne_nil hrest
    refine ⟨hp.grows.trans hgrow, hne, ?_, ?_⟩
    · rw [length_append, hlen, length_cons]
      show 7 + 7 * es.length = _
      omega
    · rw [records_cons, Nat.mod_eq_of_lt hp.lt]
      exact .cons ⟨strrepoAt_mono hgrow hp.at_off, rfl, rfl⟩ hlaid

variable {l : List UInt8}

theorem records_append {l' : List UInt8} (h : l.length % 7 = 0) : records (l ++ l') = records l ++ records l' := by
  induction hn : l.length / 7 generalizing l with
  | zero =>
    have : l = [] := length_eq_zero_iff.1 (by omega)
    rw [this]
    rfl
  | succ n ih =>
    match l with
    | a :: b :: c :: d :: e :: f :: g :: rest =>
      simp only [length_cons] at h hn
      simp only [cons_append, records]
      rw [ih (by omega) (by omega)]
    | [] | [_] | [_, _] | [_, _, _] | [_, _, _, _] | [_, _, _, _, _] | [_, _, _, _, _, _] => simp at hn

theorem length_records {n : Nat} (h : l.length = 7 * n) : (records l).length = n := by
  induction n generalizing l with
  | zero =>
    rw [length_eq_zero_iff.1 h]
    rfl
  | succ n ih =>
    match l with
    | a :: b :: c :: d :: e :: f :: g :: rest =>
      simp only [length_cons] at h
      simp only [records, length_cons]
      rw [ih (by omega)]
    | [] | [_] | [_, _] | [_, _, _] | [_, _, _, _] | [_, _, _, _, _] | [_, _, _, _, _, _] =>
      simp only [length_cons, length_nil] at h
      omega

/-! ## Two layers -/

/-- The first layer from entry `j` on: runs of entries with one end time, each with the offset of that
time and the index of its last entry. -/
inductive EndLaid (s : List UInt8) : Nat → List UInt8 → List Record → List Entry → Prop where
  | nil (j : Nat) : EndLaid s j [] [] []
  | cons {j off : Nat} {fin : CStr} {l1 : List UInt8} {recs recs' : List Record} {g es : List Entry}
    (hlt : off < 65536) (hfin : strrepoAt s off = some fin) (hne : g ≠ []) (hsame : ∀ x ∈ g, x.key0 = fin)
    (hroom : j + g.length ≤ 65536) (hleaf : LeafLaid s Entry.key1 recs g)
    (hrest : EndLaid s (j + g.length) l1 recs' es) :
    EndLaid s j (be16 off ++ be16 (j + g.length - 1) ++ l1) (recs ++ recs') (g ++ es)

theorem sameEnd_iff {e x : Entry} : sameEnd e x = true ↔ x.key0 = e.key0 := by
  rw [sameEnd, decide_eq_true_eq, keyCmp_eq_iff]

variable {fuel : Nat}

theorem endLayer_laid {j : Nat} {l1 l2 : List UInt8} (hsw : sw ≠ []) (hfuel : es.length ≤ fuel)
    (hroom : j + es.length ≤ 65536) (h : endLayer fuel j sw es = some (l1, l2, sw')) :
    sw <+: sw' ∧ sw' ≠ [] ∧ l1.length % 4 = 0 ∧ l2.length = 7 * es.length ∧ EndLaid sw' j l1 (records l2) es := by
  induction fuel generalizing j sw l1 l2 es with
  | zero =>
    obtain rfl := length_eq_zero_iff.1 (Nat.le_zero.1 hfuel)
    obtain ⟨rfl, rfl, rfl⟩ : [] = l1 ∧ [] = l2 ∧ sw = sw' := by simpa [endLayer] using h
    exact ⟨prefix_refl _, hsw, rfl, rfl, .nil j⟩
  | succ fuel ih =>
    cases es with
    | nil =>
      obtain ⟨rfl, rfl, rfl⟩ : [] = l1 ∧ [] = l2 ∧ sw = sw' := by simpa [endLayer] using h
      exact ⟨prefix_refl _, hsw, rfl, rfl, .nil j⟩
    | cons e es =>
      rw [endLayer, bind_eq_bind, bind_eq_some_iff] at h
      obtain ⟨⟨off, sw1⟩, hput, h⟩ := h
      obtain ⟨g, hg⟩ : ∃ g, g = (e :: es).takeWhile (sameEnd e) := ⟨_, rfl⟩
      obtain ⟨rest, hrest⟩ : ∃ rest, rest = (e :: es).dropWhile (sameEnd e) := ⟨_, rfl⟩
      have hsplit : e :: es = g ++ rest := by rw [hg, hrest, takeWhile_append_dropWhile]
      simp only [← hg, ← hrest] at h
      rw [bind_eq_bind, bind_eq_some_iff] at h
      obtain ⟨⟨l2', sw2⟩, hleaf, h⟩ := h
      rw [bind_eq_bind, bind_eq_some_iff] at h
      obtain ⟨⟨l1'', l2'', sw3⟩, hnext, h⟩ := h
      obtain ⟨rfl, hout⟩ := Prod.mk.inj (some.inj h)
      cases hout
      have hgne : g ≠ [] := by
        rw [hg, takeWhile_cons_of_pos (sameEnd_iff.2 rfl)]
        simp
      have hlen : (e :: es).length = g.length + rest.length := by rw [hsplit, length_append]
      have hpos : 0 < g.length := length_pos_iff.2 hgne
      have hp := putStr_put hsw hput
      obtain ⟨hgrow, hne, hl2, hlaid⟩ := leafLayer_laid hp.ne_nil hleaf
      obtain ⟨hgrow', hne', hl1'', hl2'', hlaid'⟩ := ih hne (by omega) (by omega) hnext
      refine ⟨hp.grows.trans (hgrow.trans hgrow'), hne', ?_, ?_, ?_⟩
      · rw [length_append]
        show (4 + l1''.length) % 4 = 0
        omega
      · rw [length_append, hl2, hl2'', hlen]
        omega
      · have hmod : l2'.length % 7 = 0 := by
          omega
        rw [records_append hmod, hsplit]
        refine .cons hp.lt (strrepoAt_mono (hgrow.trans hgrow') hp.at_off) hgne ?_ (by omega)
          (hlaid.mono hgrow') hlaid'
        intro x hx
        rw [hg] at hx
        exact sameEnd_iff.1 (mem_takeWhile_imp hx)

/-! ## Index entries -/

/-- The strings at the offsets. -/
def OffsLaid (s : List UInt8) (offs : List UInt8) (keys : List CStr) : Prop :=
  ∃ os : List Nat, offs = os.flatMap be16 ∧
    List.Forall₂ (fun off key => off < 65536 ∧ strrepoAt s off = some key) os keys

/-- The entries of an index structure: the last keys of each chunk, and its container. -/
inductive IxLaid (k : Kind) (s : List UInt8) : List UInt8 → List (List Entry × Nat) → Prop where
  | nil : IxLaid k s [] []
  | cons {offs rest : List UInt8} {c : List Entry} {sc : Nat} {cs : List (List Entry × Nat)}
    (last : Entry) (hlast : c.getLast? = some last) (hoffs : OffsLaid s offs (k.keys last)) (hsc : sc < 65536)
    (hrest : IxLaid k s rest cs) :
    IxLaid k s (offs ++ be16 sc ++ [0] ++ rest) ((c, sc) :: cs)

variable {offs : List UInt8} {keys : List CStr}

theorem OffsLaid.mono (h : OffsLaid s offs keys) (hs : s <+: s') : OffsLaid s' offs keys := by
  obtain ⟨os, rfl, hall⟩ := h
  exact ⟨os, rfl, hall.imp fun _ _ ho => ⟨ho.1, strrepoAt_mono hs ho.2⟩⟩

variable {k : Kind} {cs : List (List Entry × Nat)} {b : List UInt8}

theorem IxLaid.mono (h : IxLaid k s b cs) (hs : s <+: s') : IxLaid k s' b cs := by
  induction h with
  | nil => exact .nil
  | cons last hlast hoffs hsc _ ih => exact .cons last hlast (hoffs.mono hs) hsc ih

variable {cs' : List (List Entry × Nat)}

theorem IxLaid.append {b' : List UInt8}
    (h : IxLaid k s b cs) (h' : IxLaid k s b' cs') : IxLaid k s (b ++ b') (cs ++ cs') := by
  induction h with
  | nil => exact h'
  | cons last hlast hoffs hsc _ ih =>
    rw [append_assoc _ _ b']
    exact .cons last hlast hoffs hsc ih

theorem putKeys_laid (hsw : sw ≠ [])
    (h : putKeys sw keys = .ok (offs, sw')) : sw <+: sw' ∧ sw' ≠ [] ∧ OffsLaid sw' offs keys := by
  induction keys generalizing sw offs with
  | nil =>
    obtain ⟨rfl, rfl⟩ := Prod.mk.inj (Except.ok.inj h)
    exact ⟨prefix_refl _, hsw, [], rfl, .nil⟩
  | cons s ss ih =>
    rw [putKeys] at h
    cases hput : putStr sw s with
    | none =>
      rw [hput] at h
      cases h
    | some x =>
      obtain ⟨off, sw1⟩ := x
      rw [hput] at h
      obtain ⟨⟨offs', sw2⟩, hrest, h⟩ := Wr.ok_of_bind h
      obtain ⟨rfl, rfl⟩ := Prod.mk.inj (Except.ok.inj h)
      have hp := putStr_put hsw hput
      obtain ⟨hgrow, hne, os, rfl, hall⟩ := ih hp.ne_nil hrest
      refine ⟨hp.grows.trans hgrow, hne, off :: os, rfl, .cons ⟨hp.lt, ?_⟩ hall⟩
      exact strrepoAt_mono hgrow hp.at_off

/-! ## Chunks and kinds -/

/-- The containers with the ids from `n` on hold the chunks. -/
def SubsLaid (k : Kind) (n : Nat) (cs : List (List Entry × Nat)) (subs : List Cont) : Prop :=
  cs.map Prod.snd = range' n cs.length ∧
    List.Forall₂ (fun c sub => sub.id = c.2 ∧ buildSub k c.1 = some sub.structs) cs subs

/-- What the chunk loop leaves. -/
structure ChunksDone (k : Kind) (e : List Entry) (cs : List (List Entry × Nat)) (ix ix' : List UInt8)
    (o o' : Out) : Prop where
  flat : (cs.map Prod.fst).flatten = e
  grows : o.sw <+: o'.sw
  sw_ne : o'.sw ≠ []
  list_eq : o'.list = o.list
  structs_eq : o'.structs = o.structs
  next_eq : o'.nextId = o.nextId + cs.length
  subs_eq : ∃ subs, o'.subs = o.subs ++ subs ∧ SubsLaid k o.nextId cs subs
  ix_eq : ∃ body, ix' = ix ++ body ∧ IxLaid k o'.sw body cs

variable {ix ix' : List UInt8} {o o' : Out}

theorem putChunk_done {c : List Entry} (hsw : o.sw ≠ []) (hc : c ≠ []) (h : putChunk k c ix o = .ok (ix', o')) :
    ChunksDone k c [(c, o.nextId)] ix ix' o o' := by
  unfold putChunk at h
  by_cases hid : o.nextId > 0xFFFF
  · rw [if_pos hid] at h
    cases h
  rw [if_neg hid] at h
  cases hsub : buildSub k c with
  | none =>
    rw [hsub] at h
    cases h
  | some structs =>
    simp only [hsub] at h
    obtain ⟨⟨offs, sw⟩, hkeys, h⟩ := Wr.ok_of_bind h
    obtain ⟨rfl, rfl⟩ := Prod.mk.inj (Except.ok.inj h)
    have hlast := getLast?_eq_some_getLast hc
    rw [hlast] at hkeys
    obtain ⟨hgrow, hne, hoffs⟩ := putKeys_laid hsw hkeys
    refine ⟨by simp, hgrow, hne, rfl, rfl, rfl, ⟨[⟨o.nextId, structs⟩], rfl, rfl, ?_⟩, ?_⟩
    · exact .cons ⟨rfl, hsub⟩ .nil
    · refine ⟨offs ++ be16 o.nextId ++ [0], rfl, ?_⟩
      have := IxLaid.cons (k := k) (s := sw) _ hlast hoffs (by omega : o.nextId < 65536) .nil
      rwa [append_nil] at this

variable {e : List Entry} {o'' : Out}

theorem ChunksDone.trans {e' : List Entry} {ix'' : List UInt8} (h : ChunksDone k e cs ix ix' o o')
    (h' : ChunksDone k e' cs' ix' ix'' o' o'') : ChunksDone k (e ++ e') (cs ++ cs') ix ix'' o o'' where
  flat := by rw [map_append, flatten_append, h.flat, h'.flat]
  grows := h.grows.trans h'.grows
  sw_ne := h'.sw_ne
  list_eq := h'.list_eq.trans h.list_eq
  structs_eq := h'.structs_eq.trans h.structs_eq
  next_eq := by rw [h'.next_eq, h.next_eq, length_append, add_assoc]
  subs_eq := by
    obtain ⟨subs, hsubs, hids, hall⟩ := h.subs_eq
    obtain ⟨subs', hsubs', hids', hall'⟩ := h'.subs_eq
    refine ⟨subs ++ subs', by rw [hsubs', hsubs, append_assoc], ?_, rel_append hall hall'⟩
    rw [map_append, hids, hids', h.next_eq, length_append, ← range'_append, one_mul]
  ix_eq := by
    obtain ⟨body, hbody, hlaid⟩ := h.ix_eq
    obtain ⟨body', hbody', hlaid'⟩ := h'.ix_eq
    exact ⟨body ++ body', by rw [hbody', hbody, append_assoc], (hlaid.mono h'.grows).append hlaid'⟩

theorem chunksDone_nil (hsw : o.sw ≠ []) : ChunksDone k [] [] ix ix o o where
  flat := rfl
  grows := prefix_refl _
  sw_ne := hsw
  list_eq := rfl
  structs_eq := rfl
  next_eq := rfl
  subs_eq := ⟨[], (append_nil _).symm, rfl, .nil⟩
  ix_eq := ⟨[], (append_nil _).symm, .nil⟩

theorem putChunks_done (hsw : o.sw ≠ []) (hfuel : e.length ≤ fuel) (h : putChunks k fuel e ix o = .ok (ix', o')) :
    ∃ cs, cs.map Prod.fst = chunksFrom k fuel e ∧ ChunksDone k e cs ix ix' o o' := by
  induction fuel generalizing e ix o with
  | zero =>
    obtain rfl := length_eq_zero_iff.1 (Nat.le_zero.1 hfuel)
    obtain ⟨rfl, rfl⟩ := Prod.mk.inj (Except.ok.inj h)
    exact ⟨[], rfl, chunksDone_nil hsw⟩
  | succ fuel ih =>
    cases e with
    | nil =>
      obtain ⟨rfl, rfl⟩ := Prod.mk.inj (Except.ok.inj h)
      exact ⟨[], rfl, chunksDone_nil hsw⟩
    | cons x xs =>
      rw [putChunks] at h
      by_cases hm : cut k (x :: xs) = 0
      · simp only [if_pos hm] at h
        cases h
      simp only [if_neg hm] at h
      obtain ⟨⟨ix1, o1⟩, hchunk, h⟩ := Wr.ok_of_bind h
      obtain ⟨m, hcut⟩ : ∃ m, cut k (x :: xs) = m + 1 := Nat.exists_eq_succ_of_ne_zero hm
      have hne : (x :: xs).take (cut k (x :: xs)) ≠ [] := by simp [hcut]
      have hone := putChunk_done hsw hne hchunk
      have hlen : ((x :: xs).drop (cut k (x :: xs))).length ≤ fuel := by
        rw [length_drop]
        omega
      obtain ⟨cs, hcs, hrest⟩ := ih hone.sw_ne hlen h
      have hall := hone.trans hrest
      rw [take_append_drop] at hall
      refine ⟨_, ?_, hall⟩
      rw [chunksFrom, map_append, hcs]
      rfl

/-- The fields of an index list entry lead to the paths of the kind. -/
def FieldsLaid (s bytes : List UInt8) (fields : List Field) : Prop :=
  ∃ offs : List Nat, bytes = offs.flatMap (fun off => be16 xpathField ++ be16 off ++ be16 0) ∧
    List.Forall₂ (fun off f => off < 65536 ∧ strrepoAt s off = some f.xpath) offs fields

/-- An index list entry that a reader finds to be of `kind`. -/
def EntryLaid (s : List UInt8) (kind : Nat) (entry : List UInt8) : Prop :=
  ∃ fields, FieldsLaid s fields (kindAt kind).fields ∧
    entry = (if (kindAt kind).nfields = 1 then 0x0C else 0x12) :: be16 (kindAt kind).fragType ++
      UInt8.ofNat (kindAt kind).nfields :: fields ++ be16 indexListContainer ++ [UInt8.ofNat kind]

variable {kind : Nat} {entry : List UInt8}

theorem EntryLaid.mono (h : EntryLaid s kind entry) (hs : s <+: s') : EntryLaid s' kind entry := by
  obtain ⟨fields, ⟨offs, rfl, hall⟩, rfl⟩ := h
  exact ⟨_, ⟨offs, rfl, hall.imp fun _ _ ho => ⟨ho.1, strrepoAt_mono hs ho.2⟩⟩, rfl⟩

theorem listFields_laid {fs : List Field} (hsw : sw ≠ [])
    (h : listFields sw fs = .ok (bytes, sw')) : sw <+: sw' ∧ sw' ≠ [] ∧ FieldsLaid sw' bytes fs := by
  induction fs generalizing sw bytes with
  | nil =>
    obtain ⟨rfl, rfl⟩ := Prod.mk.inj (Except.ok.inj h)
    exact ⟨prefix_refl _, hsw, [], rfl, .nil⟩
  | cons f fs ih =>
    rw [listFields] at h
    cases hput : putStr sw f.xpath with
    | none =>
      rw [hput] at h
      cases h
    | some x =>
      obtain ⟨off, sw1⟩ := x
      rw [hput] at h
      obtain ⟨⟨rest, sw2⟩, hrest, h⟩ := Wr.ok_of_bind h
      obtain ⟨rfl, rfl⟩ := Prod.mk.inj (Except.ok.inj h)
      have hp := putStr_put hsw hput
      obtain ⟨hgrow, hne, offs, rfl, hall⟩ := ih hp.ne_nil hrest
      refine ⟨hp.grows.trans hgrow, hne, off :: offs, rfl, .cons ⟨hp.lt, ?_⟩ hall⟩
      exact strrepoAt_mono hgrow hp.at_off

theorem listEntry_laid (hsw : sw ≠ [])
    (h : listEntry sw kind = .ok (entry, sw')) : sw <+: sw' ∧ sw' ≠ [] ∧ EntryLaid sw' kind entry := by
  obtain ⟨⟨fields, sw1⟩, hfields, h⟩ := Wr.ok_of_bind h
  obtain ⟨rfl, rfl⟩ := Prod.mk.inj (Except.ok.inj h)
  obtain ⟨hgrow, hne, hlaid⟩ := listFields_laid hsw hfields
  exact ⟨hgrow, hne, fields, hlaid, rfl⟩

/-- What the build makes of one kind: its chunks with their containers, its index list entry, and the
entries of its index structure. -/
structure KindPlan where
  kind : Nat
  cs : List (List Entry × Nat)
  entry : List UInt8
  body : List UInt8

/-- The index structure of a kind. -/
def KindPlan.struct (p : KindPlan) : Struct := ⟨.index, p.kind, indexHdr :: locatorRemote :: p.body⟩

/-- The chunks of a kind with the kind. -/
def KindPlan.parts (p : KindPlan) : List (Nat × List Entry × Nat) := p.cs.map fun c => (p.kind, c)

/-- The plan of a kind is carried out, with the strings in `s`. -/
structure KindDone (inp : Nat → List Entry) (s : List UInt8) (p : KindPlan) : Prop where
  cut_eq : p.cs.map Prod.fst = chunks (kindAt p.kind) (sortEntries (kindAt p.kind) (inp p.kind))
  flat : (p.cs.map Prod.fst).flatten = sortEntries (kindAt p.kind) (inp p.kind)
  entry_laid : EntryLaid s p.kind p.entry
  body_laid : IxLaid (kindAt p.kind) s p.body p.cs

variable {inp : Nat → List Entry}

theorem KindDone.mono {p : KindPlan} (h : KindDone inp s p) (hs : s <+: s') : KindDone inp s' p :=
  ⟨h.cut_eq, h.flat, h.entry_laid.mono hs, h.body_laid.mono hs⟩

/-- The plans of some kinds are carried out between `o` and `o'`. -/
structure BuildDone (inp : Nat → List Entry) (plans : List KindPlan) (o o' : Out) : Prop where
  grows : o.sw <+: o'.sw
  sw_ne : o'.sw ≠ []
  list_eq : o'.list = o.list ++ plans.flatMap KindPlan.entry
  structs_eq : o'.structs = o.structs ++ plans.map KindPlan.struct
  kinds_done : ∀ p ∈ plans, KindDone inp o'.sw p
  ids_eq : (plans.flatMap KindPlan.parts).map (·.2.2) =
    range' o.nextId (plans.flatMap KindPlan.parts).length
  next_eq : o'.nextId = o.nextId + (plans.flatMap KindPlan.parts).length
  subs_eq : ∃ subs, o'.subs = o.subs ++ subs ∧
    List.Forall₂ (fun x (sub : Cont) => sub.id = x.2.2 ∧ buildSub (kindAt x.1) x.2.1 = some sub.structs)
      (plans.flatMap KindPlan.parts) subs

theorem BuildDone.trans {ps ps' : List KindPlan}
    (h : BuildDone inp ps o o') (h' : BuildDone inp ps' o' o'') : BuildDone inp (ps ++ ps') o o'' where
  grows := h.grows.trans h'.grows
  sw_ne := h'.sw_ne
  list_eq := by rw [h'.list_eq, h.list_eq, flatMap_append, append_assoc]
  structs_eq := by rw [h'.structs_eq, h.structs_eq, map_append, append_assoc]
  kinds_done := by
    intro p hp
    rcases mem_append.1 hp with hp | hp
    · exact (h.kinds_done p hp).mono h'.grows
    · exact h'.kinds_done p hp
  ids_eq := by
    rw [flatMap_append, map_append, h.ids_eq, h'.ids_eq, h.next_eq, length_append, ← range'_append, one_mul]
  next_eq := by rw [h'.next_eq, h.next_eq, flatMap_append, length_append, add_assoc]
  subs_eq := by
    obtain ⟨subs, hsubs, hall⟩ := h.subs_eq
    obtain ⟨subs', hsubs', hall'⟩ := h'.subs_eq
    refine ⟨subs ++ subs', by rw [hsubs', hsubs, append_assoc], ?_⟩
    rw [flatMap_append]
    exact rel_append hall hall'

theorem putKind_done (hsw : o.sw ≠ [])
    (h : putKind kind (inp kind) o = .ok o') : ∃ p, p.kind = kind ∧ BuildDone inp [p] o o' := by
  obtain ⟨⟨entry, sw⟩, hentry, h⟩ := Wr.ok_of_bind h
  obtain ⟨⟨ix, o1⟩, hchunks, h⟩ := Wr.ok_of_bind h
  cases h
  obtain ⟨hgrow, hne, hlaid⟩ := listEntry_laid hsw hentry
  obtain ⟨cs, hcs, hdone⟩ := putChunks_done hne le_rfl hchunks
  obtain ⟨body, rfl, hbody⟩ := hdone.ix_eq
  obtain ⟨subs, hsubs, hids, hall⟩ := hdone.subs_eq
  have hparts : ∀ entry, ([⟨kind, cs, entry, body⟩] : List KindPlan).flatMap KindPlan.parts =
      cs.map fun c => (kind, c) := fun _ => flatMap_singleton _ _
  refine ⟨⟨kind, cs, entry, body⟩, rfl, hgrow.trans hdone.grows, hdone.sw_ne, ?_, ?_, ?_, ?_, ?_, subs, hsubs, ?_⟩
  · rw [flatMap_singleton]
    exact hdone.list_eq
  · rw [map_singleton]
    exact congrArg (· ++ _) hdone.structs_eq
  · intro p hp
    obtain rfl := mem_singleton.1 hp
    exact ⟨hcs, hdone.flat, hlaid.mono hdone.grows, hbody⟩
  · rw [hparts, List.map_map, length_map]
    exact hids
  · rw [hparts, length_map]
    exact hdone.next_eq
  · rw [hparts, forall₂_map_left_iff]
    exact hall

theorem putKinds_done {kinds : List Nat} (hsw : o.sw ≠ []) (h : putKinds inp kinds o = .ok o') :
    ∃ plans : List KindPlan, plans.map KindPlan.kind = kinds ∧ BuildDone inp plans o o' := by
  induction kinds generalizing o with
  | nil =>
    cases h
    refine ⟨[], rfl, prefix_refl _, hsw, (append_nil _).symm, (append_nil _).symm, ?_, rfl,
      rfl, [], (append_nil _).symm, .nil⟩
    exact nofun
  | cons kind kinds ih =>
    obtain ⟨o1, hkind, hrest⟩ := Wr.ok_of_bind h
    obtain ⟨p, rfl, hp⟩ := putKind_done hsw hkind
    obtain ⟨ps, rfl, hps⟩ := ih hp.sw_ne hrest
    exact ⟨p :: ps, rfl, hp.trans hps⟩

end DvbIpiTools.Bim.Index
