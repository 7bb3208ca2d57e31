import DvbIpiTools.Bim.Codec.Lax.Model

set_option autoImplicit false

/-! # Lax elements come back

What the encoder writes takes the decoder from the state that corresponds to the encoder's before to the one that corresponds to it
behind: the same table of codes, the same namespaces and names. The open nodes and the waiting attributes are the decoder's alone. -/

namespace DvbIpiTools.Bim.Lax

open BitList Codec Coder List Option Nat

/-! ## Corresponding states -/

/-- The decoder's open nodes and waiting attributes. -/
abbrev Open := List BimNode × List (Nat × CStr)

/-- The decoder where the encoder is. -/
def Writer.reader (l : Writer) (o : Open) : Reader where
  sy := l.sy
  fifo := []
  ns := l.ns
  el := l.el
  at_ := l.at_
  stack := o.1
  pend := o.2

/-- What was written between `l` and `l'` takes the decoder from `o` to `o'`. -/
def Carries (l l' : Writer) (o o' : Open) : Prop :=
  ∃ out, l'.bw = l.bw ++ out ∧ ∀ rest, Steps (l.reader o, out ++ rest) (l'.reader o', rest)

theorem Carries.refl (l : Writer) (o : Open) : Carries l l o o := ⟨[], (append_nil _).symm, fun _ => .refl⟩

variable {l l' l'' : Writer} {o o' : Open}

theorem Carries.trans {o'' : Open} (h : Carries l l' o o') (h' : Carries l' l'' o' o'') : Carries l l'' o o'' := by
  obtain ⟨out, hbw, hsteps⟩ := h
  obtain ⟨out', hbw', hsteps'⟩ := h'
  refine ⟨out ++ out', by rw [hbw', hbw, append_assoc], fun rest => ?_⟩
  rw [append_assoc]
  exact (hsteps _).trans (hsteps' rest)

/-- What was written and the known namespaces and names stay what they are. -/
structure Grows (l l' : Writer) : Prop where
  bw : l.bw <+: l'.bw
  ns : l.ns <+: l'.ns
  el : l.el <+: l'.el
  at_ : l.at_ <+: l'.at_
  room : l.ns.length ≤ 256 → l'.ns.length ≤ 256

theorem Grows.refl (l : Writer) : Grows l l := ⟨prefix_rfl, prefix_rfl, prefix_rfl, prefix_rfl, id⟩

theorem Grows.trans (h : Grows l l') (h' : Grows l' l'') : Grows l l'' :=
  ⟨h.bw.trans h'.bw, h.ns.trans h'.ns, h.el.trans h'.el, h.at_.trans h'.at_, h'.room ∘ h.room⟩

theorem Grows.names (h : Grows l l') (k : Kind) : l.names k <+: l'.names k := by
  cases k with
  | elem => exact h.el
  | attr => exact h.at_

/-- The number `i` stands for a name in a namespace. -/
def Named (l : Writer) (k : Kind) (i : Nat) (uri name : CStr) : Prop :=
  ∃ id, (l.names k)[i]? = some (id, name) ∧ l.ns[id]? = some uri

variable {i : Nat} {α : Type}

theorem getElem?_of_prefix {xs ys : List α} (h : xs <+: ys) {a : α} (ha : xs[i]? = some a) : ys[i]? = some a := by
  obtain ⟨zs, rfl⟩ := h
  rw [getElem?_append_left (List.getElem?_eq_some_iff.1 ha).1, ha]

variable {k : Kind} {name uri : CStr}

theorem Named.grows (h : Named l k i uri name) (hg : Grows l l') : Named l' k i uri name := by
  obtain ⟨id, hname, huri⟩ := h
  exact ⟨id, getElem?_of_prefix (hg.names k) hname, getElem?_of_prefix hg.ns huri⟩

/-! ## Events and strings -/

theorem of_bind {β : Type} {m : Enc α} {f : α → Enc β} {b : β} (h : (m >>= f) l = some (b, l'')) :
    ∃ a l', m l = some (a, l') ∧ f a l' = some (b, l'') := by
  obtain ⟨⟨a, l'⟩, hm, hf⟩ := bind_eq_some_iff.1 h
  exact ⟨a, l', hm, hf⟩

variable {ev : Nat}

theorem of_event (h : event ev l = some ((), l')) :
    ∃ bits, eventBits l.sy ev = some bits ∧ l' = { l with bw := l.bw ++ bits, sy := l.sy.event ev } := by
  obtain ⟨bits, hbits, heq⟩ := map_eq_some_iff.1 h
  exact ⟨bits, hbits, (Prod.mk.inj heq).2.symm⟩

variable {bits : List Bool}

theorem reads_code {sy : Syms} {code : Nat} {sym : Sym} (h : sy.byCode code = some sym) :
    ∃ tail, ofNat 8 code = [false] ++ tail ∧ Reads (laxCode sy false) tail sym.ev.toList := by
  have hcode : sym.code = code := by simpa using find?_some h
  have hlt : code < 2 ^ 7 := hcode ▸ sy.tab.code_lt sym (mem_of_find?_eq_some h)
  refine ⟨ofNat 7 code, ?_, fun rest => ?_⟩
  · rw [show 8 = 1 + 7 by rfl, ofNat_add, shiftRight_eq_div_pow, div_eq_of_lt hlt]
    rfl
  · show (getBits 7 >>= fun code => lift (sy.byCode code) >>= fun sym => pure sym.ev.toList) (ofNat 7 code ++ rest) = _
    rw [bits_bind (reads_getBits hlt rest), h]
    rfl

theorem reads_escape (sy : Syms) (h : ev < 2 ^ 15) :
    ∃ tail, ofNat 16 (1 <<< 15 ||| ev) = [true] ++ tail ∧ Reads (laxCode sy true) tail [ev] := by
  refine ⟨ofNat 15 ev, ?_, fun rest => ?_⟩
  · have hor : 1 <<< 15 ||| ev = 1 * 2 ^ 15 + ev := shiftLeft_or h
    rw [hor, show 16 = 1 + 15 by rfl, ofNat_add, shiftRight_eq_div_pow]
    congr 1
    · rw [show (1 * 2 ^ 15 + ev) / 2 ^ 15 = 1 by omega]
      rfl
    · rw [← ofNat_mod 15 (1 * 2 ^ 15 + ev), mul_comm, mul_add_mod, ofNat_mod]
  · show (getBits 15 >>= fun uid => pure [uid]) (ofNat 15 ev ++ rest) = _
    rw [bits_bind (reads_getBits h rest)]
    rfl

theorem reads_eventBits {sy : Syms} (h : eventBits sy ev = some bits) :
    ∃ ext tail, bits = [ext] ++ tail ∧ Reads (laxCode sy ext) tail [ev] := by
  unfold eventBits at h
  cases hcode : sy.code ev with
  | some code =>
    rw [hcode] at h
    cases h
    exact ⟨false, reads_code (Syms.byCode_code hcode)⟩
  | none =>
    simp only [hcode] at h
    split at h
    · cases h
    · cases h
      exact ⟨true, reads_escape sy (by omega)⟩

theorem laxEvent_eventBits (h : eventBits l.sy ev = some bits) (o : Open) (rest : List Bool) :
    laxEvent (l.reader o) (bits ++ rest) = some ((ev, { l.reader o with sy := l.sy.event ev }), rest) := by
  obtain ⟨ext, tail, rfl, hcode⟩ := reads_eventBits h
  have hflag : getFlag ([ext] ++ tail ++ rest) = some (ext, tail ++ rest) := by
    rw [append_assoc]
    exact reads_getFlag ext _
  rw [laxEvent, if_pos (show (l.reader o).fifo = [] from rfl), bits_bind hflag]
  exact bits_bind (hcode rest)

/-- What `str` writes. -/
def strBits (s : CStr) : List Bool := ofBytes s.val ++ ofNat 8 0

variable {s : CStr}

theorem of_str (h : str s l = some ((), l')) : l' = { l with bw := l.bw ++ strBits s } :=
  (Prod.mk.inj (some.inj h)).2.symm

theorem laxBytes_strBits {bs : List UInt8} (hbs : 0 ∉ bs) (rest : List Bool) :
    ∀ {n : Nat}, bs.length < n → laxBytes n (ofBytes bs ++ ofNat 8 0 ++ rest) = some (bs, rest) := by
  induction bs with
  | nil =>
    intro n hn
    obtain ⟨n, rfl⟩ := exists_eq_succ_of_ne_zero hn.ne'
    rw [laxBytes, ofBytes_nil, nil_append, bits_bind (reads_getBits (by decide) rest)]
    rfl
  | cons b bs ih =>
    intro n hn
    obtain ⟨n, rfl⟩ := exists_eq_succ_of_ne_zero (ne_of_gt (zero_lt_of_lt hn))
    have hb : ¬b.toNat = 0 := fun h0 => hbs (by
      rw [show b = 0 from UInt8.toNat_inj.1 h0]
      exact mem_cons_self)
    have htail := ih (fun hmem => hbs (mem_cons_of_mem b hmem)) (lt_of_succ_lt_succ hn)
    rw [laxBytes, ofBytes_cons, append_assoc, append_assoc, bits_bind (reads_getBits b.toNat_lt _)]
    simp only [if_neg hb]
    rw [← append_assoc, bits_bind htail, UInt8.ofNat_toNat]
    rfl

theorem reads_laxString (s : CStr) : Reads laxString (strBits s) s := by
  intro rest
  have hlen : s.val.length < (strBits s ++ rest).length + 1 := by
    simp only [strBits, length_append, length_ofBytes, length_ofNat]
    omega
  show ((laxBytes _) (strBits s ++ rest)).map _ = _
  rw [strBits] at hlen ⊢
  rw [laxBytes_strBits s.property rest hlen, map_some]
  show some (CStr.ofBytes s.val, rest) = _
  rw [CStr.ofBytes_val]

theorem laxStep_event (h : eventBits l.sy ev = some bits) (o : Open) (rest : List Bool) :
    laxStep (l.reader o) (bits ++ rest) = (if ev < 23 then control { l.reader o with sy := l.sy.event ev } ev
      else if ev % 2 = 1 then lift (openElement { l.reader o with sy := l.sy.event ev } ((ev - 23) / 2))
      else pendAttr { l.reader o with sy := l.sy.event ev } ((ev - 24) / 2)) rest :=
  bits_bind (laxEvent_eventBits h o rest)

/-! ## Namespaces and names -/

variable {r : Reader}

theorem control_ns (h : r.ns.length < 256) (uri : CStr) (rest : List Bool) :
    control r 1 (strBits uri ++ rest) = some (.more { r with ns := r.ns ++ [uri] }, rest) := by
  rw [control, require_bind (by simpa using h), bits_bind (reads_laxString uri rest)]
  rfl

variable {id : Nat}

theorem laxName_bits (hid : id < r.ns.length) (hroom : r.ns.length ≤ 256) (name : CStr)
    (rest : List Bool) : laxName r (ofNat 8 id ++ strBits name ++ rest) = some ((id, name), rest) := by
  have hlt : id < 2 ^ 8 := by omega
  have hnsid : laxNsid r (ofNat 8 id ++ (strBits name ++ rest)) = some (id, strBits name ++ rest) := by
    rw [laxNsid, bits_bind (reads_getBits hlt _), require_bind (by simpa using hid)]
    rfl
  rw [append_assoc, laxName, bits_bind hnsid, bits_bind (reads_laxString name rest)]
  rfl

variable {out : List Bool}

theorem carries_one (hbw : l'.bw = l.bw ++ out)
    (hstep : ∀ rest, laxStep (l.reader o) (out ++ rest) = some (.more (l'.reader o'), rest)) : Carries l l' o o' :=
  ⟨out, hbw, fun rest => .single (hstep rest)⟩

variable {ns : Option CStr}

theorem nsId_carries (h : nsId ns l = some (id, l')) (hroom : l.ns.length ≤ 256) :
    Grows l l' ∧ l'.ns[id]? = some (nsOf ns) ∧ l'.el = l.el ∧ l'.at_ = l.at_ ∧ ∀ o, Carries l l' o o := by
  unfold nsId at h
  split at h
  · next i hfind =>
    cases h
    obtain ⟨hlt, huri, -⟩ := findIdx?_eq_some_iff_getElem.1 hfind
    refine ⟨Grows.refl l, ?_, rfl, rfl, Carries.refl l⟩
    rw [getElem?_eq_getElem hlt, some.injEq]
    simpa using huri
  unfold newNs at h
  split at h
  · cases h
  rename_i hlt
  obtain ⟨⟨⟩, l1, hevent, h⟩ := of_bind h
  obtain ⟨⟨⟩, l2, hstr, h⟩ := of_bind h
  obtain ⟨bits, hbits, rfl⟩ := of_event hevent
  obtain rfl := of_str hstr
  cases h
  refine ⟨⟨⟨_, (append_assoc _ _ _).symm⟩, prefix_append _ _, prefix_rfl, prefix_rfl, fun _ => ?_⟩,
    getElem?_concat_length, rfl, rfl, fun o => ?_⟩
  · simp only [length_append, length_singleton]
    omega
  · refine carries_one (append_assoc _ _ _) fun rest => ?_
    have hbits' : eventBits l.sy 1 = some bits := hbits
    rw [append_assoc, laxStep_event hbits' o, if_pos (by decide)]
    exact control_ns (not_le.1 hlt) _ rest

variable {code : Nat}

theorem nameIn_carries (h : nameIn k id name l = some (code, l')) (hroom : l.ns.length ≤ 256)
    (huri : l.ns[id]? = some uri) : Grows l l' ∧ Named l' k code uri name ∧ ∀ o, Carries l l' o o := by
  unfold nameIn at h
  split at h
  · next i hfind =>
    cases h
    obtain ⟨hlt, hname, -⟩ := findIdx?_eq_some_iff_getElem.1 hfind
    refine ⟨Grows.refl l, ⟨id, ?_, huri⟩, Carries.refl l⟩
    rw [getElem?_eq_getElem hlt, some.injEq]
    simpa using hname
  obtain ⟨⟨⟩, l1, hevent, h⟩ := of_bind h
  obtain ⟨⟨⟩, l2, hput, h⟩ := of_bind h
  obtain ⟨⟨⟩, l3, hstr, h⟩ := of_bind h
  obtain ⟨bits, hbits, rfl⟩ := of_event hevent
  cases hput
  obtain rfl := of_str hstr
  cases h
  have hidlt : id < l.ns.length := (List.getElem?_eq_some_iff.1 huri).1
  have hbw : l.bw ++ bits ++ ofNat 8 id ++ strBits name = l.bw ++ (bits ++ (ofNat 8 id ++ strBits name)) := by
    simp only [append_assoc]
  cases k with
  | elem =>
    refine ⟨⟨⟨_, hbw.symm⟩, prefix_rfl, prefix_append _ _, prefix_rfl, fun _ => hroom⟩,
      ⟨id, getElem?_concat_length, huri⟩, fun o => ?_⟩
    refine carries_one hbw fun rest => ?_
    · have hbits' : eventBits l.sy 2 = some bits := hbits
      rw [append_assoc, laxStep_event hbits' o, if_pos (by decide), control]
      rw [bits_bind (laxName_bits hidlt hroom name rest)]
      rfl
  | attr =>
    refine ⟨⟨⟨_, hbw.symm⟩, prefix_rfl, prefix_rfl, prefix_append _ _, fun _ => hroom⟩,
      ⟨id, getElem?_concat_length, huri⟩, fun o => ?_⟩
    refine carries_one hbw fun rest => ?_
    · have hbits' : eventBits l.sy 3 = some bits := hbits
      rw [append_assoc, laxStep_event hbits' o, if_pos (by decide), control]
      rw [bits_bind (laxName_bits hidlt hroom name rest)]
      rfl

theorem nameId_carries (h : nameId k ns name l = some (code, l')) (hroom : l.ns.length ≤ 256) :
    Grows l l' ∧ Named l' k code (nsOf ns) name ∧ ∀ o, Carries l l' o o := by
  obtain ⟨id, l1, hns, h⟩ := of_bind h
  obtain ⟨hgrows, huri, -, -, hcarries⟩ := nsId_carries hns hroom
  obtain ⟨hgrows', hnamed, hcarries'⟩ := nameIn_carries h (hgrows.room hroom) huri
  exact ⟨hgrows.trans hgrows', hnamed, fun o => (hcarries o).trans (hcarries' o)⟩

/-! ## What comes back -/

/-- The empty namespace is none. -/
def laxNs (ns : Option CStr) : Option CStr := if nsOf ns = CStr.ofBytes [] then none else some (nsOf ns)

def laxAttr (a : NodeAttr) : NodeAttr := { a with ns := laxNs a.ns }

/-- The text of a node, as a child. -/
def textKids : Option CStr → List BimNode
  | none => []
  | some s => [textNode s]

mutual

/-- The node that comes back: the names, the attributes and the texts of `k`, the text of an element as its first child. -/
def laxNode : BimNode → BimNode
  | .mk none _ text _ _ _ _ => textNode (text.getD (CStr.ofBytes []))
  | .mk (some name) ns text attrs kids _ _ =>
    .mk (some name) (laxNs ns) none (attrs.map laxAttr) (textKids text ++ laxNodes kids)

def laxNodes : List BimNode → List BimNode
  | [] => []
  | k :: kids => laxNode k :: laxNodes kids

end

/-- No more attributes than the decoder can let wait, and no two of one name. -/
structure AttrsFit (attrs : List NodeAttr) : Prop where
  length_le : attrs.length ≤ 64
  nodup : (attrs.map fun a => (a.name, laxNs a.ns)).Nodup

mutual

/-- The elements nest at most `room` deep, and the attributes of each one fit. -/
def Fits : Nat → BimNode → Prop
  | _, .mk none _ _ _ _ _ _ => True
  | 0, .mk (some _) _ _ _ _ _ _ => False
  | room + 1, .mk (some _) _ _ attrs kids _ _ => AttrsFit attrs ∧ FitIn room kids

def FitIn : Nat → List BimNode → Prop
  | _, [] => True
  | room, k :: kids => Fits room k ∧ FitIn room kids

end

/-! ## What the decoder refuses -/

/-- In what was written between `l` and `l'` the decoder comes to a round that fails. -/
def Stops (l l' : Writer) (o : Open) : Prop :=
  ∃ out, l'.bw = l.bw ++ out ∧ ∀ rest, ∃ y, Steps (l.reader o, out ++ rest) y ∧ laxStep y.1 y.2 = none

theorem stops_one (hbw : l'.bw = l.bw ++ out)
    (hstep : ∀ rest, laxStep (l.reader o) (out ++ rest) = none) : Stops l l' o :=
  ⟨out, hbw, fun rest => ⟨_, .refl, hstep rest⟩⟩

theorem Carries.stops (h : Carries l l' o o') (hs : Stops l' l'' o') : Stops l l'' o := by
  obtain ⟨out, hbw, hsteps⟩ := h
  obtain ⟨out', hbw', hstop⟩ := hs
  refine ⟨out ++ out', by rw [hbw', hbw, append_assoc], fun rest => ?_⟩
  obtain ⟨y, hy, hnone⟩ := hstop rest
  rw [append_assoc]
  exact ⟨y, (hsteps _).trans hy, hnone⟩

theorem Stops.grows (h : Stops l l' o) (hg : Grows l' l'') : Stops l l'' o := by
  obtain ⟨out, hbw, hstop⟩ := h
  obtain ⟨more, hmore⟩ := hg.bw
  refine ⟨out ++ more, by rw [← hmore, hbw, append_assoc], fun rest => ?_⟩
  rw [append_assoc]
  exact hstop (more ++ rest)

/-! ## Attributes -/

/-- Waiting attributes are the given ones, by their numbers. -/
def Waits (l : Writer) (attrs : List NodeAttr) (pend : List (Nat × CStr)) : Prop :=
  List.Forall₂ (fun a x => Named l .attr x.1 (nsOf a.ns) a.name ∧ x.2 = a.value) attrs pend

variable {aid : Nat}

theorem pendAttr_bits (haid : aid < r.at_.length) (hpend : r.pend.length < 64) (value : CStr) (rest : List Bool) :
    pendAttr r aid (strBits value ++ rest) = some (.more { r with pend := r.pend ++ [(aid, value)] }, rest) := by
  rw [pendAttr, require_bind (by simp [haid, hpend]), bits_bind (reads_laxString value rest)]
  rfl

variable {a : NodeAttr}

theorem attr_meets (hevent : event (24 + 2 * aid) l = some ((), l'))
    (hstr : str a.value l' = some ((), l'')) (hnamed : Named l .attr aid (nsOf a.ns) a.name) :
    Grows l l'' ∧ ∀ stack pend, (pend.length < 64 → Carries l l'' (stack, pend) (stack, pend ++ [(aid, a.value)])) ∧
      (64 ≤ pend.length → Stops l l'' (stack, pend)) := by
  obtain ⟨bits, hbits, rfl⟩ := of_event hevent
  obtain rfl := of_str hstr
  refine ⟨⟨⟨_, (append_assoc _ _ _).symm⟩, prefix_rfl, prefix_rfl, prefix_rfl, id⟩, fun stack pend =>
    ⟨fun hpend => carries_one (append_assoc _ _ _) fun rest => ?_,
      fun hpend => stops_one (append_assoc _ _ _) fun rest => ?_⟩⟩
  · obtain ⟨id, hname, -⟩ := hnamed
    have hknown : aid < l.at_.length := (List.getElem?_eq_some_iff.1 hname).1
    rw [append_assoc, laxStep_event hbits, if_neg (by omega), if_neg (by omega),
      show (24 + 2 * aid - 24) / 2 = aid by omega]
    exact pendAttr_bits hknown hpend a.value rest
  · rw [append_assoc, laxStep_event hbits, if_neg (by omega), if_neg (by omega)]
    refine require_none ?_ _ _
    rw [Bool.and_eq_false_iff]
    exact .inr (decide_eq_false (not_lt.2 hpend))

variable {attrs : List NodeAttr}

/-- The attributes of an element wait for it as long as there is room for them. -/
theorem walkAttrs_meets : ∀ {l l' : Writer}, walkAttrs attrs l = some ((), l') → l.ns.length ≤ 256 →
    Grows l l' ∧ ∃ new, Waits l' attrs new ∧ ∀ stack pend,
      (pend.length + attrs.length ≤ 64 → Carries l l' (stack, pend) (stack, pend ++ new)) ∧
        (pend.length ≤ 64 → 64 < pend.length + attrs.length → Stops l l' (stack, pend)) := by
  induction attrs with
  | nil =>
    intro l l' h _
    cases h
    refine ⟨Grows.refl l, [], .nil, fun stack pend => ⟨fun _ => ?_, fun hle hlt => ?_⟩⟩
    · rw [append_nil]
      exact Carries.refl l _
    · rw [length_nil] at hlt
      omega
  | cons a attrs ih =>
    intro l l' h hroom
    obtain ⟨aid, l1, hid, h⟩ := of_bind h
    obtain ⟨⟨⟩, l2, hevent, h⟩ := of_bind h
    obtain ⟨⟨⟩, l3, hstr, h⟩ := of_bind h
    obtain ⟨hgrows, hnamed, hcarries⟩ := nameId_carries hid hroom
    obtain ⟨hgrows', hone⟩ := attr_meets hevent hstr hnamed
    obtain ⟨hgrows'', new, hwaits, hmeets⟩ := ih h (hgrows'.room (hgrows.room hroom))
    refine ⟨(hgrows.trans hgrows').trans hgrows'', (aid, a.value) :: new,
      .cons ⟨hnamed.grows (hgrows'.trans hgrows''), rfl⟩ hwaits, fun stack pend => ?_⟩
    have hrest := hmeets stack (pend ++ [(aid, a.value)])
    rw [length_append, length_singleton, append_assoc, singleton_append] at hrest
    rw [length_cons]
    refine ⟨fun hpend => ((hcarries _).trans ((hone stack pend).1 (by omega))).trans (hrest.1 (by omega)),
      fun hle hlt => (hcarries _).stops ?_⟩
    by_cases hpend : pend.length < 64
    · exact ((hone stack pend).1 hpend).stops (hrest.2 (by omega) (by omega))
    · exact ((hone stack pend).2 (not_lt.1 hpend)).grows hgrows''

theorem keepName_named (hns : r.ns = l.ns)
    (h : Named l k i (nsOf ns) name) : keepName r (l.names k) i = some (laxNs ns, name) := by
  obtain ⟨id, hname, huri⟩ := h
  unfold keepName laxNs
  simp only [hname, hns, huri, bind_eq_bind, bind_some, Option.pure_def]

theorem addAttr_new (h : (a.name, a.ns) ∉ attrs.map fun b => (b.name, b.ns)) :
    addAttr attrs a = some (attrs ++ [a]) := by
  unfold addAttr
  rw [if_neg]
  intro hany
  obtain ⟨b, hb, heq⟩ := any_eq_true.1 hany
  simp only [Bool.and_eq_true, decide_eq_true_eq] at heq
  exact h (mem_map.2 ⟨b, hb, by rw [heq.1, heq.2]⟩)

variable {pend : List (Nat × CStr)}

theorem addAttr_known (h : (a.name, a.ns) ∈ attrs.map fun b => (b.name, b.ns)) : addAttr attrs a = none := by
  unfold addAttr
  rw [if_pos]
  obtain ⟨b, hb, heq⟩ := mem_map.1 h
  obtain ⟨hname, hns⟩ := Prod.mk.inj heq
  rw [List.any_eq_true]
  exact ⟨b, hb, by rw [hname, hns]; simp⟩

/-- The waiting attributes come onto the element in their order, each under its own name; a name that is there already stops them. -/
theorem keepAttrs_eq (hns : r.ns = l.ns) (hat : r.at_ = l.at_) (h : Waits l attrs pend) : ∀ (before : List NodeAttr),
      (before.map fun b => (b.name, b.ns)).Nodup → keepAttrs r pend before =
        if ((before ++ attrs.map laxAttr).map fun b => (b.name, b.ns)).Nodup then some (before ++ attrs.map laxAttr) else none := by
  induction h with
  | nil =>
    intro before hnodup
    rw [map_nil, append_nil, if_pos hnodup]
    rfl
  | @cons a x attrs pend hax _ ih =>
    intro before hnodup
    obtain ⟨hnamed, hvalue⟩ := hax
    have hname : keepName r r.at_ x.1 = some (laxNs a.ns, a.name) := by
      rw [hat]
      exact keepName_named hns hnamed
    obtain ⟨id, value⟩ := x
    simp only at hvalue hname
    rw [keepAttrs, hname]
    rw [hvalue]
    show (addAttr before (laxAttr a)).bind _ = _
    by_cases hmem : ((laxAttr a).name, (laxAttr a).ns) ∈ before.map fun b => (b.name, b.ns)
    · rw [addAttr_known hmem, if_neg fun hall => ?_]
      · rfl
      · rw [map_append, List.map_map, nodup_append] at hall
        exact hall.2.2 _ hmem _ (mem_map.2 ⟨a, mem_cons_self, rfl⟩) rfl
    rw [addAttr_new hmem]
    have htail := ih (before ++ [laxAttr a]) (by
      rw [map_append, map_singleton, nodup_append]
      exact ⟨hnodup, nodup_singleton _, fun y hy z hz => by
        obtain rfl := mem_singleton.1 hz
        exact fun heq => hmem (heq ▸ hy)⟩)
    rw [append_assoc, singleton_append, ← map_cons] at htail
    exact htail

/-! ## Nodes -/

/-- The children of a node grow one by one. -/
def addKids (node : BimNode) (kids : List BimNode) : BimNode := kids.foldl addKid node

theorem addKids_append (node : BimNode) (xs ys : List BimNode) : addKids node (xs ++ ys) = addKids (addKids node xs) ys :=
  foldl_append

theorem addKids_mk (name ns text : Option CStr) (attrs : List NodeAttr) (kids : List BimNode) :
    ∀ before, addKids (.mk name ns text attrs before) kids = .mk name ns text attrs (before ++ kids) := by
  induction kids with
  | nil =>
    intro before
    rw [append_nil]
    rfl
  | cons k kids ih =>
    intro before
    have htail := ih (before ++ [k])
    rw [append_assoc] at htail
    exact htail

theorem text_carries {l1 : Writer} (hevent : event 6 l = some ((), l1)) (hstr : str s l1 = some ((), l')) :
    Grows l l' ∧ ∀ node stack pend, Carries l l' (node :: stack, pend) (addKid node (textNode s) :: stack, pend) := by
  obtain ⟨bits, hbits, rfl⟩ := of_event hevent
  obtain rfl := of_str hstr
  refine ⟨⟨⟨_, (append_assoc _ _ _).symm⟩, prefix_rfl, prefix_rfl, prefix_rfl, id⟩, fun node stack pend => ?_⟩
  refine carries_one (append_assoc _ _ _) fun rest => ?_
  rw [append_assoc, laxStep_event hbits, if_pos (by decide), control, bits_bind (reads_laxString s rest)]
  rfl

theorem walkText_carries {text : Option CStr} (h : walkText text l = some ((), l')) :
    Grows l l' ∧ ∀ node stack pend, Carries l l' (node :: stack, pend) (addKids node (textKids text) :: stack, pend) := by
  cases text with
  | none =>
    cases h
    exact ⟨Grows.refl l, fun node stack pend => Carries.refl l _⟩
  | some s =>
    obtain ⟨⟨⟩, l1, hevent, hstr⟩ := of_bind h
    exact text_carries hevent hstr

theorem openElement_waits {r : Reader} {l : Writer} {eid : Nat} {ns : Option CStr} {name : CStr} {attrs : List NodeAttr}
    (hns : r.ns = l.ns) (hel : r.el = l.el) (hat : r.at_ = l.at_) (hnamed : Named l .elem eid (nsOf ns) name)
    (hwaits : Waits l attrs r.pend) :
    openElement r eid = if r.stack.length < 64 ∧ (attrs.map fun a => (a.name, laxNs a.ns)).Nodup then some (.more
      { r with stack := .mk (some name) (laxNs ns) none (attrs.map laxAttr) [] :: r.stack, pend := [] }) else none := by
  have hname : keepName r r.el eid = some (laxNs ns, name) := by
    rw [hel]
    exact keepName_named hns hnamed
  have hattrs : keepAttrs r r.pend [] =
      if (attrs.map fun a => (a.name, laxNs a.ns)).Nodup then some (attrs.map laxAttr) else none := by
    have hall := keepAttrs_eq hns hat hwaits [] nodup_nil
    rwa [nil_append, List.map_map] at hall
  unfold openElement
  simp only [hname, hattrs, bind_eq_bind, bind_some]
  by_cases hroom : r.stack.length < 64
  · rw [if_neg (not_le.2 hroom)]
    by_cases hnodup : (attrs.map fun a => (a.name, laxNs a.ns)).Nodup
    · rw [if_pos hnodup, if_pos ⟨hroom, hnodup⟩]
      rfl
    · rw [if_neg hnodup, if_neg fun h => hnodup h.2]
      rfl
  · rw [if_pos (not_lt.1 hroom), if_neg fun h => hroom h.1]

variable {eid : Nat} {new : List (Nat × CStr)}

theorem open_meets (ns : Option CStr) (hevent : event (23 + 2 * eid) l = some ((), l'))
    (hnamed : Named l .elem eid (nsOf ns) name) (hwaits : Waits l attrs new) :
    Grows l l' ∧ ∀ stack, (stack.length < 64 → (attrs.map fun a => (a.name, laxNs a.ns)).Nodup →
        Carries l l' (stack, new) (.mk (some name) (laxNs ns) none (attrs.map laxAttr) [] :: stack, [])) ∧
      (64 ≤ stack.length ∨ ¬(attrs.map fun a => (a.name, laxNs a.ns)).Nodup → Stops l l' (stack, new)) := by
  obtain ⟨bits, hbits, rfl⟩ := of_event hevent
  have hopen := fun stack => @openElement_waits { l.reader (stack, new) with sy := l.sy.event (23 + 2 * eid) } l eid ns name
    attrs rfl rfl rfl hnamed hwaits
  refine ⟨⟨prefix_append _ _, prefix_rfl, prefix_rfl, prefix_rfl, id⟩, fun stack =>
    ⟨fun hroom hnodup => carries_one rfl fun rest => ?_, fun hbad => stops_one rfl fun rest => ?_⟩⟩
  · rw [laxStep_event hbits, if_neg (by omega), if_pos (by omega), show (23 + 2 * eid - 23) / 2 = eid by omega, lift, hopen,
      if_pos ⟨hroom, hnodup⟩]
    rfl
  · rw [laxStep_event hbits, if_neg (by omega), if_pos (by omega), show (23 + 2 * eid - 23) / 2 = eid by omega, lift, hopen,
      if_neg fun h => hbad.elim (not_le.2 h.1) fun hdup => hdup h.2]
    rfl

theorem close_carries (hevent : event 4 l = some ((), l')) :
    Grows l l' ∧ ∀ k node stack pend, Carries l l' (k :: node :: stack, pend) (addKid node k :: stack, pend) := by
  obtain ⟨bits, hbits, rfl⟩ := of_event hevent
  refine ⟨⟨prefix_append _ _, prefix_rfl, prefix_rfl, prefix_rfl, id⟩, fun k node stack pend => ?_⟩
  refine carries_one rfl fun rest => ?_
  rw [laxStep_event hbits, if_pos (by decide), control]
  rfl

mutual

/-- The decoder hangs what comes back of a node that fits below its innermost node, and stops in any other. -/
theorem walk_meets : ∀ (k : BimNode) {l l' : Writer}, walk k l = some ((), l') → l.ns.length ≤ 256 →
    Grows l l' ∧ ∀ room node stack, (Fits room k → stack.length + 1 + room ≤ 64 →
        Carries l l' (node :: stack, []) (addKid node (laxNode k) :: stack, [])) ∧
      (¬Fits room k → stack.length + 1 + room = 64 → Stops l l' (node :: stack, []))
  | .mk none _ text _ _ _ _, l, l', h, _ => by
    obtain ⟨⟨⟩, l1, hevent, hstr⟩ := of_bind h
    obtain ⟨hgrows, hcarries⟩ := text_carries hevent hstr
    exact ⟨hgrows, fun room node stack =>
      ⟨fun _ _ => hcarries node stack [], fun hfits _ => absurd (by cases room <;> trivial) hfits⟩⟩
  | .mk (some name) ns text attrs kids _ _, l, l', h, hroom => by
    obtain ⟨eid, l1, hid, h⟩ := of_bind h
    obtain ⟨⟨⟩, l2, hattrs, h⟩ := of_bind h
    obtain ⟨⟨⟩, l3, hevent, h⟩ := of_bind h
    obtain ⟨⟨⟩, l4, htext, h⟩ := of_bind h
    obtain ⟨⟨⟩, l5, hkids, hclose⟩ := of_bind h
    obtain ⟨hg1, hnamed, hc1⟩ := nameId_carries hid hroom
    obtain ⟨hg2, new, hwaits, hm2⟩ := walkAttrs_meets hattrs (hg1.room hroom)
    obtain ⟨hg3, hm3⟩ := open_meets ns hevent (hnamed.grows hg2) hwaits
    obtain ⟨hg4, hc4⟩ := walkText_carries htext
    obtain ⟨hg5, hm5⟩ := walkKids_meets kids hkids (hg4.room (hg3.room (hg2.room (hg1.room hroom))))
    obtain ⟨hg6, hc6⟩ := close_carries hclose
    have hg := hg3.trans (hg4.trans (hg5.trans hg6))
    refine ⟨hg1.trans (hg2.trans hg), fun room node stack => ?_⟩
    obtain ⟨hpend, hmany⟩ := hm2 (node :: stack) []
    obtain ⟨hopen, hbad⟩ := hm3 (node :: stack)
    rw [length_nil, zero_add] at hpend hmany
    rw [length_cons] at hopen hbad
    refine ⟨fun hfits hlen => ?_, fun hfits hlen => (hc1 _).stops ?_⟩
    · cases room with
      | zero => exact absurd hfits id
      | succ room =>
        obtain ⟨⟨hle, hnodup⟩, hkidsFit⟩ := hfits
        have hbelow := (hm5 room (addKids (.mk (some name) (laxNs ns) none (attrs.map laxAttr) []) (textKids text))
          (node :: stack)).1 hkidsFit (by
            rw [length_cons]
            omega)
        have hnode : addKids (addKids (.mk (some name) (laxNs ns) none (attrs.map laxAttr) []) (textKids text)) (laxNodes kids) =
            .mk (some name) (laxNs ns) none (attrs.map laxAttr) (textKids text ++ laxNodes kids) := by
          rw [← addKids_append, addKids_mk, nil_append]
        rw [hnode] at hbelow
        exact (hc1 _).trans ((hpend hle).trans ((hopen (by omega) hnodup).trans
          ((hc4 _ _ _).trans (hbelow.trans (hc6 _ node stack [])))))
    -- the attributes come first, then the element itself, then what is below it
    · by_cases hle : attrs.length ≤ 64
      · refine (hpend hle).stops ?_
        by_cases hrefused : 64 ≤ stack.length + 1 ∨ ¬(attrs.map fun a => (a.name, laxNs a.ns)).Nodup
        · exact (hbad hrefused).grows (hg4.trans (hg5.trans hg6))
        rw [not_or, not_le, not_not] at hrefused
        refine (hopen hrefused.1 hrefused.2).stops ((hc4 _ _ _).stops ?_)
        cases room with
        | zero => omega
        | succ room =>
          refine ((hm5 room _ (node :: stack)).2 (fun hkidsFit => hfits ⟨⟨hle, hrefused.2⟩, hkidsFit⟩) ?_).grows hg6
          rw [length_cons]
          omega
      · exact (hmany (zero_le 64) (not_le.1 hle)).grows hg

theorem walkKids_meets : ∀ (kids : List BimNode) {l l' : Writer}, walkKids kids l = some ((), l') → l.ns.length ≤ 256 →
    Grows l l' ∧ ∀ room node stack, (FitIn room kids → stack.length + 1 + room ≤ 64 →
        Carries l l' (node :: stack, []) (addKids node (laxNodes kids) :: stack, [])) ∧
      (¬FitIn room kids → stack.length + 1 + room = 64 → Stops l l' (node :: stack, []))
  | [], l, l', h, _ => by
    cases h
    exact ⟨Grows.refl l, fun _ _ _ => ⟨fun _ _ => Carries.refl l _, fun hfits _ => absurd trivial hfits⟩⟩
  | k :: kids, l, l', h, hroom => by
    obtain ⟨⟨⟩, l1, hwalk, hkids⟩ := of_bind h
    obtain ⟨hg1, hm1⟩ := walk_meets k hwalk hroom
    obtain ⟨hg2, hm2⟩ := walkKids_meets kids hkids (hg1.room hroom)
    refine ⟨hg1.trans hg2, fun room node stack => ⟨fun hfits hlen =>
      ((hm1 room node stack).1 hfits.1 hlen).trans ((hm2 room _ stack).1 hfits.2 hlen), fun hfits hlen => ?_⟩⟩
    by_cases hk : Fits room k
    · exact ((hm1 room node stack).1 hk hlen.le).stops ((hm2 room _ stack).2 (fun hrest => hfits ⟨hk, hrest⟩) hlen)
    · exact ((hm1 room node stack).2 hk hlen).grows hg2

end

/-! ## The round trip -/

theorem encLax_zlib_off {o : EncOpts} (ho : o.laxZlib = false) {k : BimNode} (h : encLax o k = some out) :
    ∃ l, (do walk k; event 7 : Enc Unit) { bw := [], sy := .init o.laxAgg, ns := [], el := [], at_ := [] } = some ((), l) ∧
      out = ofNat 14 0 ++ [o.laxAgg, false] ++ l.bw := by
  obtain ⟨⟨⟨⟩, l⟩, hl, h⟩ := bind_eq_some_iff.1 h
  obtain ⟨events, hevents, h⟩ := bind_eq_some_iff.1 h
  cases h
  rw [body, ho] at hevents
  cases hevents
  exact ⟨l, hl, by rw [ho]⟩

theorem decLax_header (agg : Bool) (inflate : Option Inflate) (bits : Nat) (node : BimNode) (s : List Bool) :
    decLax inflate bits node (ofNat 14 0 ++ [agg, false] ++ s) = laxEvents agg node s := by
  have hheader : ofNat 14 0 ++ [agg, false] = ofNat 4 0 ++ (ofNat 4 0 ++ (ofNat 6 0 ++ ([agg] ++ [false]))) := rfl
  rw [hheader]
  simp only [append_assoc]
  rw [decLax, bits_bind (reads_getBits (by decide) _), bits_bind (reads_getBits (by decide) _),
    require_bind (by decide), bits_bind (reads_getBits (by decide) _), bits_bind (reads_getFlag _ _), bits_bind (reads_getFlag _ _)]
  rfl

/-- A node that the encoder takes comes back below the node that the decoder is given if its elements nest at most 63 deep and the
attributes of each one fit; any other node is refused. -/
theorem lax_roundTrip (o : EncOpts) (ho : o.laxZlib = false) (k node : BimNode) (out : List Bool)
    (h : encLax o k = some out) (inflate : Option Inflate) (bits : Nat) (rest : List Bool) :
    (Fits 63 k → decLax inflate bits node (out ++ rest) = some (addKid node (laxNode k), rest)) ∧
      (¬Fits 63 k → decLax inflate bits node (out ++ rest) = none) := by
  obtain ⟨l, hl, rfl⟩ := encLax_zlib_off ho h
  obtain ⟨⟨⟩, l1, hwalk, hevent⟩ := of_bind hl
  obtain ⟨bits7, hbits, rfl⟩ := of_event hevent
  rw [append_assoc, decLax_header]
  constructor
  · intro hfits
    obtain ⟨events, hbw, hsteps⟩ := ((walk_meets k hwalk (zero_le 256)).2 63 node []).1 hfits (by decide)
    have hdone : laxStep (l1.reader ([addKid node (laxNode k)], [])) (bits7 ++ rest) =
        some (.done (addKid node (laxNode k)), rest) := by
      rw [laxStep_event hbits, if_pos (by decide), control]
      rfl
    have hall : l1.bw ++ bits7 ++ rest = events ++ (bits7 ++ rest) := by
      rw [hbw, append_assoc]
      rfl
    rw [hall]
    exact laxLoop_of_steps (hsteps (bits7 ++ rest)) hdone (by simp [toDo, Writer.reader])
  · intro hfits
    obtain ⟨events, hbw, hstop⟩ := ((walk_meets k hwalk (zero_le 256)).2 63 node []).2 hfits rfl
    obtain ⟨y, hsteps, hnone⟩ := hstop (bits7 ++ rest)
    have hall : l1.bw ++ bits7 ++ rest = events ++ (bits7 ++ rest) := by
      rw [hbw, append_assoc]
      rfl
    rw [hall]
    exact laxLoop_of_stop hsteps hnone _

/-- Two namespaces, attributes, text and children, with agglutinated events. -/
theorem lax_roundTrip_sample : ∃ k out, encLax { laxAgg := true, laxZlib := false, deflate := none } k = some out ∧
      decLax none out.length (.mk none none none [] []) out = some (.mk none none none [] [laxNode k], []) := by
  let k : BimNode := .mk (some (CStr.ofBytes [114])) (some (CStr.ofBytes [117])) (some (CStr.ofBytes [116]))
    [⟨CStr.ofBytes [97], none, CStr.ofBytes [120]⟩, ⟨CStr.ofBytes [97], some (CStr.ofBytes [117]), CStr.ofBytes []⟩]
    [.mk none none (some (CStr.ofBytes [122])) [] [], .mk (some (CStr.ofBytes [101])) none none [] []]
  have hfits : Fits 63 k := ⟨⟨by decide, by decide +kernel⟩, trivial, ⟨⟨by decide, by decide⟩, trivial⟩, trivial⟩
  obtain ⟨out, hout⟩ := isSome_iff_exists.1
    (show (encLax { laxAgg := true, laxZlib := false, deflate := none } k).isSome = true by decide +kernel)
  refine ⟨k, out, hout, ?_⟩
  have hback := (lax_roundTrip _ rfl k (.mk none none none [] []) out hout none out.length []).1 hfits
  rwa [append_nil] at hback

/-- Elements within elements. -/
def nested : Nat → BimNode
  | 0 => .mk (some (CStr.ofBytes [97])) none none [] []
  | n + 1 => .mk (some (CStr.ofBytes [97])) none none [] [nested n]

/-- The encoder takes 64 elements within each other, and an attribute twice; the decoder takes neither. -/
theorem lax_refused :
    let o : EncOpts := { laxAgg := false, laxZlib := false, deflate := none }
    let refused := fun k => (encLax o k).any fun out => (decLax none out.length (.mk none none none [] []) out).isNone
    refused (nested 63) = true ∧ refused (.mk (some (CStr.ofBytes [97])) none none
        [⟨CStr.ofBytes [97], none, CStr.ofBytes []⟩, ⟨CStr.ofBytes [97], some (CStr.ofBytes []), CStr.ofBytes []⟩] []) = true := by
  decide +kernel

end DvbIpiTools.Bim.Lax
