import DvbIpiTools.Bim.Xsd.Pattern

set_option autoImplicit false

/-! # The matcher decides the language without empty iterations

A call of the matcher decides a set of remaining texts, unless a limit cut it off. The sets are those of the node under
repetition, of the rest of its sequence and of the continuation, in this order. -/

namespace DvbIpiTools.Bim.Xsd.Pattern

open BoundedRepeat Utf8 List Option Nat

/-! ## UTF-8 under the reader and the back-off loop -/

theorem or_shift {c x : Nat} (hx : x < 64) : c <<< 6 ||| x = c * 64 + x := by
  rw [← shiftLeft_add_eq_or_of_lt hx, shiftLeft_eq]

theorem contBytes_cons {c x : Nat} {b : UInt8} {bs : List UInt8} (hb : b.toNat = 0x80 + x) (hx : x < 64) :
    contBytes c (b :: bs) = contBytes (c * 64 + x) bs := by
  have hcont : b &&& 0xC0 = 0x80 := (and_C0_iff b).2 (by omega)
  have hmask : b.toNat &&& 0x3F = x := by
    rw [show 0x3F = 2 ^ 6 - 1 from rfl, and_two_pow_sub_one_eq_mod]
    omega
  rw [contBytes, if_pos hcont, hmask, or_shift hx]

theorem utf8Next_encodes {n : Nat} {bs rest : List UInt8} (h : Encodes n bs) : utf8Next (bs ++ rest) = some (n, bs.length) := by
  cases h with
  | @one b hn h => simp only [cons_append, nil_append, utf8Next, h, if_pos hn, length_singleton]
  | @two b b1 hlo hhi h h1 =>
    have hlead : b.toNat &&& (0x3F >>> 1) = n / 64 := by
      rw [show 0x3F >>> 1 = 2 ^ 5 - 1 from rfl, and_two_pow_sub_one_eq_mod]
      omega
    simp only [cons_append, nil_append, utf8Next, if_neg (show ¬ b.toNat < 0x80 by omega),
      if_neg (show ¬ b.toNat < 0xC0 by omega), if_neg (show ¬ 0xF0 ≤ b.toNat by omega),
      if_neg (show ¬ 0xE0 ≤ b.toNat by omega), length_cons, if_neg (show ¬ rest.length + 1 < 1 by omega)]
    rw [show (b1 :: rest).take 1 = [b1] from rfl, hlead, contBytes_cons h1 (by omega), contBytes]
    simp only [map_some, length_nil, some.injEq, Prod.mk.injEq, and_true]
    omega
  | @three b b1 b2 hlo hhi h h1 h2 =>
    have hlead : b.toNat &&& (0x3F >>> 2) = n / 4096 := by
      rw [show 0x3F >>> 2 = 2 ^ 4 - 1 from rfl, and_two_pow_sub_one_eq_mod]
      omega
    simp only [cons_append, nil_append, utf8Next, if_neg (show ¬ b.toNat < 0x80 by omega),
      if_neg (show ¬ b.toNat < 0xC0 by omega), if_neg (show ¬ 0xF0 ≤ b.toNat by omega),
      if_pos (show 0xE0 ≤ b.toNat by omega), length_cons, if_neg (show ¬ rest.length + 1 + 1 < 2 by omega)]
    rw [show (b1 :: b2 :: rest).take 2 = [b1, b2] from rfl, hlead, contBytes_cons h1 (by omega), contBytes_cons h2 (by omega),
      contBytes]
    simp only [map_some, length_nil, some.injEq, Prod.mk.injEq, and_true]
    omega
  | @four b b1 b2 b3 hlo hhi h h1 h2 h3 =>
    have hlead : b.toNat &&& (0x3F >>> 3) = n / 262144 := by
      rw [show 0x3F >>> 3 = 2 ^ 3 - 1 from rfl, and_two_pow_sub_one_eq_mod]
      omega
    simp only [cons_append, nil_append, utf8Next, if_neg (show ¬ b.toNat < 0x80 by omega),
      if_neg (show ¬ b.toNat < 0xC0 by omega), if_pos (show 0xF0 ≤ b.toNat by omega), length_cons,
      if_neg (show ¬ rest.length + 1 + 1 + 1 < 3 by omega)]
    rw [show (b1 :: b2 :: b3 :: rest).take 3 = [b1, b2, b3] from rfl, hlead, contBytes_cons h1 (by omega),
      contBytes_cons h2 (by omega), contBytes_cons h3 (by omega), contBytes]
    simp only [map_some, length_nil, some.injEq, Prod.mk.injEq, and_true]
    omega

/-- The text `w` is what is left of `cs` at the position `s`. -/
def At (cs : List Char) (s : Nat) (w : List Char) : Prop := ∃ done, cs = done ++ w ∧ s = (utf8 done).length

namespace At

variable {cs w : List Char} {s p : Nat} {c : Char}

theorem length (h : At cs s w) : s + (utf8 w).length = (utf8 cs).length := by
  obtain ⟨done, rfl, rfl⟩ := h
  rw [utf8_append, length_append]

theorem drop (h : At cs s w) : (utf8 cs).drop s = utf8 w := by
  obtain ⟨done, rfl, rfl⟩ := h
  rw [utf8_append, drop_left]

theorem append {x : List Char} (h : At cs s (x ++ w)) : At cs (s + (utf8 x).length) w := by
  obtain ⟨done, rfl, rfl⟩ := h
  exact ⟨done ++ x, by simp, by simp⟩

theorem start : At cs 0 cs := ⟨[], rfl, rfl⟩

end At

variable {a : Atom}

theorem atomTake_nil {cs : List Char} {s : Nat} (h : At cs s []) : atomTake a (utf8 cs) s = none := by
  rw [atomTake, h.drop]
  rfl

theorem atomTake_cons {cs w : List Char} {s : Nat} {c : Char} (h : At cs s (c :: w)) :
    atomTake a (utf8 cs) s = if a.has c.toNat then some (s + (utf8 [c]).length) else none := by
  rw [atomTake, h.drop, utf8_cons, utf8Next_encodes (encodes_char c), utf8_cons, utf8_nil, append_nil]

/-- The greedy run takes the longest run of the atom's characters, up to the upper bound. -/
theorem greedy_spec {cs : List Char} {a : Atom} {max : Nat} : ∀ {left cnt s : Nat} {w : List Char}, At cs s w →
    (utf8 w).length ≤ left → ∃ t w', w = t ++ w' ∧ (∀ c ∈ t, a.has c.toNat = true) ∧
      greedy a max (utf8 cs) left cnt s = (cnt + t.length, s + (utf8 t).length) ∧ (cnt ≤ max → cnt + t.length ≤ max) ∧
      (cnt + t.length < max → ∀ c w'', w' = c :: w'' → a.has c.toNat = false)
  | 0, cnt, s, w, _, hleft => by
    have hw : w = [] := utf8_eq_nil.1 (length_eq_zero_iff.1 (le_zero.1 hleft))
    exact ⟨[], w, rfl, by simp, rfl, id, fun _ c w'' hc => by simp [hw] at hc⟩
  | left + 1, cnt, s, w, h, hleft => by
    rw [greedy]
    by_cases hmax : cnt < max
    · rw [if_pos hmax]
      cases w with
      | nil =>
        rw [atomTake_nil h]
        exact ⟨[], [], rfl, by simp, rfl, id, fun _ c w'' hc => by simp at hc⟩
      | cons c w =>
        rw [atomTake_cons h]
        by_cases hc : a.has c.toNat = true
        · rw [if_pos hc]
          have hpos : 0 < (utf8 [c]).length := utf8_length_pos (by simp)
          have hsplit : (utf8 (c :: w)).length = (utf8 [c]).length + (utf8 w).length := by
            rw [show c :: w = [c] ++ w from rfl, utf8_append, length_append]
          obtain ⟨t, w', hw, hall, hrun, hle, hstop⟩ :=
            @greedy_spec cs a max left (cnt + 1) _ _ (At.append (x := [c]) h) (by omega)
          refine ⟨c :: t, w', by rw [hw]; rfl, ?_, ?_, ?_, ?_⟩
          · intro d hd
            obtain rfl | hd := mem_cons.1 hd
            · exact hc
            · exact hall d hd
          · simp only [hrun, Prod.mk.injEq]
            have : utf8 (c :: t) = utf8 [c] ++ utf8 t := by rw [← utf8_append]; rfl
            rw [this, length_append, length_cons]
            omega
          · intro _
            have := hle (by omega)
            rw [length_cons]
            omega
          · intro hlt
            rw [length_cons] at hlt
            exact hstop (by omega)
        · rw [if_neg hc]
          refine ⟨[], c :: w, rfl, by simp, rfl, id, fun _ d w'' hd => ?_⟩
          obtain ⟨rfl, -⟩ := cons.inj hd
          exact Bool.not_eq_true _ ▸ hc
    · rw [if_neg hmax]
      exact ⟨[], w, rfl, by simp, rfl, id, fun hlt => absurd hlt (by simpa using hmax)⟩

theorem stepBack_bytes {v : List UInt8} {s : Nat} : ∀ {bs : List UInt8} {q : Nat}, bs ≠ [] → s ≤ q →
    (∀ i, i < bs.length → v.getD (q + i) 0 = bs.getD i 0) → (∀ i, 0 < i → i < bs.length → bs.getD i 0 &&& 0xC0 = 0x80) →
    (¬ bs.getD 0 0 &&& 0xC0 = 0x80) → stepBack v s (q + bs.length) = q := by
  intro bs q hne hs hv htail hhead
  have hpos : 0 < bs.length := length_pos_iff.2 hne
  -- from behind the byte `i + 1` the loop comes down to the lead byte
  have hdown : ∀ i, i < bs.length → stepBack v s (q + (i + 1)) = q := fun i => by
    induction i with
    | zero =>
      intro hi
      rw [show q + (0 + 1) = q + 1 from rfl, stepBack, show v.getD q 0 = bs.getD 0 0 from hv 0 hi,
        if_neg (fun h => hhead h.2)]
    | succ i ih =>
      intro hi
      rw [← add_assoc, stepBack, hv (i + 1) hi, if_pos ⟨by omega, htail (i + 1) (succ_pos i) hi⟩]
      exact ih (by omega)
  obtain ⟨k, hk⟩ := exists_eq_succ_of_ne_zero hpos.ne'
  rw [hk]
  exact hdown k (by omega)

theorem stepBack_spec {cs t w : List Char} {s : Nat} {c : Char} (h : At cs s (t ++ c :: w)) :
    stepBack (utf8 cs) s (s + (utf8 (t ++ [c])).length) = s + (utf8 t).length := by
  have henc := encodes_char c
  have hpos := henc.length_pos
  have hbytes : (utf8 cs).drop (s + (utf8 t).length) = String.utf8EncodeChar c ++ utf8 w := by
    rw [(At.append h).drop, utf8_cons]
  rw [utf8_append, length_append, ← add_assoc,
    show utf8 [c] = String.utf8EncodeChar c from by rw [utf8_cons, utf8_nil, append_nil]]
  refine stepBack_bytes henc.ne_nil (by omega) (fun i hi => ?_) (fun i h0 hi => ?_) ?_
  · rw [getD_eq_getElem?_getD, getD_eq_getElem?_getD, ← getElem?_drop, hbytes, getElem?_append_left hi]
  · refine henc.tail ?_
    rw [getD_eq_getElem?_getD, getElem?_eq_getElem hi, getD_some]
    obtain ⟨b, bs, hb⟩ := exists_cons_of_ne_nil henc.ne_nil
    obtain ⟨k, rfl⟩ := exists_eq_succ_of_ne_zero h0.ne'
    simp only [hb, tail_cons, getElem_cons_succ]
    exact getElem_mem _
  · obtain ⟨b, bs, hb⟩ := exists_cons_of_ne_nil henc.ne_nil
    rw [hb]
    exact henc.head hb

/-! ## Decisions -/

/-- A limit was reached: `m_rep` set `bad`, or the back-off loop ran out of steps. -/
def Mt.CutOff (m : Mt) : Prop := m.bad = true ∨ stepsMax < m.steps

/-- A call from `m` with the result `r` decides `P`, unless it was cut off. A match is always one. -/
structure Decides (m : Mt) (r : Bool × Mt) (P : Prop) : Prop where
  steps : m.steps ≤ r.2.steps
  bad : m.bad = true → r.2.bad = true
  sound : r.1 = true → P
  complete : r.1 = false → ¬ r.2.CutOff → ¬ P

namespace Decides

variable {m m' : Mt} {r r' : Bool × Mt} {P Q : Prop}

theorem congr (h : Decides m r P) (hPQ : P ↔ Q) : Decides m r Q :=
  ⟨h.steps, h.bad, fun hr => hPQ.1 (h.sound hr), fun hr hcut hQ => h.complete hr hcut (hPQ.2 hQ)⟩

theorem fail : Decides m (false, m) False := ⟨le_rfl, id, nofun, fun _ _ => id⟩

theorem cut (hsteps : m.steps ≤ m'.steps) (hbad : m.bad = true → m'.bad = true) (hcut : m'.CutOff) :
    Decides m (false, m') P := ⟨hsteps, hbad, nofun, fun _ hncut => absurd hcut hncut⟩

theorem step (h : Decides m' r P) (hsteps : m.steps ≤ m'.steps) (hbad : m.bad = true → m'.bad = true) : Decides m r P :=
  ⟨le_trans hsteps h.steps, fun hm => h.bad (hbad hm), h.sound, h.complete⟩

theorem guard {c : Prop} [Decidable c] (h : c → Decides m r P) : Decides m (if c then r else (false, m)) (c ∧ P) := by
  split
  · rename_i hc
    exact (h hc).congr ⟨fun hP => ⟨hc, hP⟩, And.right⟩
  · rename_i hc
    exact fail.congr ⟨False.elim, fun hP => hc hP.1⟩

theorem orElse (h : Decides m r P) (h' : Decides r.2 r' Q) : Decides m (if r.1 then r else r') (P ∨ Q) := by
  cases hr : r.1 with
  | true =>
    simp only [if_true]
    exact ⟨h.steps, h.bad, fun _ => .inl (h.sound hr), fun hf => by rw [hr] at hf; cases hf⟩
  | false =>
    simp only [Bool.false_eq_true, if_false]
    refine ⟨le_trans h.steps h'.steps, fun hm => h'.bad (h.bad hm), fun hm => .inr (h'.sound hm), fun hf hcut => ?_⟩
    -- what cut the first call off still shows behind the second
    have hfirst : ¬ r.2.CutOff := fun hc => hcut (hc.imp h'.bad fun hs => lt_of_lt_of_le hs h'.steps)
    exact not_or.2 ⟨h.complete hr hfirst, h'.complete hf hcut⟩

end Decides

theorem tryAlts_spec {seq : Seq → Mt → Bool × Mt} {P : Seq → Prop} (hseq : ∀ q m, Decides m (seq q m) (P q)) :
    ∀ (qs : List Seq) (m : Mt), Decides m (tryAlts seq qs m) (∃ q ∈ qs, P q)
  | [], m => Decides.fail.congr (by simp)
  | q :: qs, m => by
    rw [tryAlts]
    exact ((hseq q m).orElse (tryAlts_spec hseq qs _)).congr (by simp)

/-- The back-off loop tries every split of the run `t` with `min` characters or more in front, the longest first. -/
theorem backOff_spec {cs : List Char} {seq : Nat → Mt → Bool × Mt} {R : Language Char} {min s : Nat}
    (hseq : ∀ p m w, At cs p w → Decides m (seq p m) (w ∈ R)) : ∀ {t w : List Char} {m : Mt}, At cs s (t ++ w) →
      Decides m (backOff seq (utf8 cs) min s t.length (s + (utf8 t).length) m)
        (∃ x y, t = x ++ y ∧ min ≤ x.length ∧ y ++ w ∈ R) ∧
      ∀ r, backOff seq (utf8 cs) min s t.length (s + (utf8 t).length) m = r → r.1 = false → ¬ r.2.CutOff →
        m.steps + (t.length - min) ≤ r.2.steps := by
  intro t
  induction t using reverseRecOn with
  | nil =>
    intro w m h
    have hfirst : Decides m (if min ≤ 0 then seq (s + (utf8 []).length) m else (false, m)) (min ≤ 0 ∧ w ∈ R) :=
      Decides.guard fun _ => hseq _ m w h
    have hP : (∃ x y, [] = x ++ y ∧ min ≤ x.length ∧ y ++ w ∈ R) ↔ (min ≤ 0 ∧ w ∈ R) ∨ False := by
      rw [or_false]
      constructor
      · rintro ⟨x, y, hxy, hmin, hw⟩
        obtain ⟨rfl, rfl⟩ := append_eq_nil_iff.1 hxy.symm
        exact ⟨hmin, hw⟩
      · exact fun ⟨hmin, hw⟩ => ⟨[], [], rfl, hmin, hw⟩
    have heq : backOff seq (utf8 cs) min s ([] : List Char).length (s + (utf8 []).length) m =
        if (if min ≤ 0 then seq (s + (utf8 []).length) m else (false, m)).1
        then if min ≤ 0 then seq (s + (utf8 []).length) m else (false, m)
        else (false, (if min ≤ 0 then seq (s + (utf8 []).length) m else (false, m)).2) := by
      rw [length_nil, backOff]
      simp only [ite_self]
    rw [heq]
    refine ⟨(hfirst.orElse Decides.fail).congr hP.symm, ?_⟩
    rintro r rfl hr hcut
    have := ((hfirst.orElse Decides.fail).congr hP.symm).steps
    simpa using this
  | append_singleton t c ih =>
    intro w m h
    have hlen : (t ++ [c]).length = t.length + 1 := by simp
    have hw : At cs (s + (utf8 (t ++ [c])).length) w := At.append h
    have hback : stepBack (utf8 cs) s (s + (utf8 (t ++ [c])).length) = s + (utf8 t).length :=
      stepBack_spec (by simpa using h)
    have hfirst : Decides m (if min ≤ t.length + 1 then seq (s + (utf8 (t ++ [c])).length) m else (false, m))
        (min ≤ t.length + 1 ∧ w ∈ R) := Decides.guard fun _ => hseq _ m w hw
    rw [hlen, backOff]
    generalize hr : (if min ≤ t.length + 1 then seq (s + (utf8 (t ++ [c])).length) m else (false, m)) = r at hfirst ⊢
    simp only [hback]
    have hP : (∃ x y, t ++ [c] = x ++ y ∧ min ≤ x.length ∧ y ++ w ∈ R) ↔
        (min ≤ t.length + 1 ∧ w ∈ R) ∨ ∃ x y, t = x ++ y ∧ min ≤ x.length ∧ y ++ c :: w ∈ R := by
      constructor
      · rintro ⟨x, y, hxy, hmin, hyw⟩
        rcases eq_nil_or_concat y with rfl | ⟨y, d, rfl⟩
        · refine .inl ⟨?_, hyw⟩
          have := congrArg length hxy
          simp only [append_nil] at this
          omega
        · rw [concat_eq_append, ← append_assoc] at hxy
          obtain ⟨rfl, hc⟩ := append_inj' hxy rfl
          obtain rfl := (cons.inj hc).1
          exact .inr ⟨x, y, rfl, hmin, by simpa using hyw⟩
      · rintro (⟨hmin, hw⟩ | ⟨x, y, rfl, hmin, hyw⟩)
        · exact ⟨t ++ [c], [], by simp, by simpa using hmin, hw⟩
        · exact ⟨x, y ++ [c], by simp, hmin, by simpa using hyw⟩
    -- the call behind a failed one: it fails at once on `bad`, at the minimum and at the limit, else goes one back
    have hrest : Decides r.2 (if r.2.bad then (false, r.2) else if t.length + 1 ≤ min then (false, r.2)
        else if stepsMax < r.2.steps + 1 then (false, { r.2 with steps := r.2.steps + 1 })
        else backOff seq (utf8 cs) min s t.length (s + (utf8 t).length) { r.2 with steps := r.2.steps + 1 })
        (∃ x y, t = x ++ y ∧ min ≤ x.length ∧ y ++ c :: w ∈ R) ∧
        ∀ r', (if r.2.bad then (false, r.2) else if t.length + 1 ≤ min then (false, r.2)
          else if stepsMax < r.2.steps + 1 then (false, { r.2 with steps := r.2.steps + 1 })
          else backOff seq (utf8 cs) min s t.length (s + (utf8 t).length) { r.2 with steps := r.2.steps + 1 }) = r' →
          r'.1 = false → ¬ r'.2.CutOff → r.2.steps + (t.length + 1 - min) ≤ r'.2.steps := by
      split
      · rename_i hbad
        refine ⟨Decides.cut le_rfl id (.inl hbad), ?_⟩
        rintro r' rfl _ hcut
        exact absurd (.inl hbad) hcut
      split
      · rename_i hmin
        refine ⟨Decides.fail.congr ⟨False.elim, ?_⟩, ?_⟩
        · rintro ⟨x, y, rfl, hx, -⟩
          rw [length_append] at hmin
          omega
        · rintro r' rfl _ _
          exact le_of_eq (by rw [Nat.sub_eq_zero_of_le hmin]; rfl)
      split
      · rename_i hlimit
        refine ⟨Decides.cut (le_succ _) id (.inr hlimit), ?_⟩
        rintro r' rfl _ hcut
        exact absurd (.inr hlimit) hcut
      obtain ⟨hd, hs⟩ := @ih (c :: w) { r.2 with steps := r.2.steps + 1 } (by simpa using h)
      refine ⟨hd.step (le_succ _) id, ?_⟩
      intro r' hr' hf hcut
      have := hs r' hr' hf hcut
      simp only at this
      omega
    refine ⟨(hfirst.orElse hrest.1).congr hP.symm, ?_⟩
    rintro r' rfl hf hcut
    by_cases hone : r.1 = true
    · rw [if_pos hone, hone] at hf
      cases hf
    · rw [if_neg hone] at hf hcut ⊢
      exact le_trans (Nat.add_le_add_right hfirst.steps _) (hrest.2 _ rfl hf hcut)

/-! ## What a call decides -/

/-- What may come of a node after `cnt` repetitions. -/
def Node.rest (n : Node) (cnt : Nat) : Language Char := more (n.once nonempty) n.quant.min n.quant.bound cnt

/-- The texts a continuation accepts, in a value of `stop` bytes. A repetition that did not move is refused. -/
def Cont.tails (stop : Nat) : Cont → Language Char
  | .nil => 1
  | .frame q i (some n) cnt start k =>
    {w | start + (utf8 w).length ≠ stop ∧ w ∈ n.rest (cnt + 1) * (seqLang nonempty (q.drop (i + 1)) * k.tails stop)}
  | .frame q i none _ _ k => seqLang nonempty (q.drop i) * k.tails stop

/-- The counts a node is entered with: an atom from 0 only, a group within its bound and no deeper than the frames. -/
def Node.Counted (left cnt : Nat) : Node → Prop
  | .atom _ _ => cnt = 0
  | .group _ u => cnt ≤ u.max ∧ cnt + left ≤ framesMax

/-- Every frame of a continuation can be entered. -/
def Cont.Counted (left : Nat) : Cont → Prop
  | .nil => True
  | .frame _ _ (some n) cnt _ k => n.Counted left (cnt + 1) ∧ k.Counted left
  | .frame _ _ none _ _ k => k.Counted left

/-- What a call of `m_rep` decides. -/
def RepDecides (cs : List Char) (left : Nat) (rep : Rep) : Prop :=
  ∀ (n : Node) (cnt s : Nat) (q : Seq) (i : Nat) (k : Cont) (m : Mt) (w : List Char), At cs s w → n.Counted left cnt →
    k.Counted left → Decides m (rep n cnt s q i k m)
      (w ∈ n.rest cnt * (seqLang nonempty (q.drop (i + 1)) * k.tails (utf8 cs).length))

variable {left cnt : Nat}

theorem Node.Counted.mono {n : Node} {left' : Nat} (h : n.Counted left cnt) (hle : left' ≤ left) :
    n.Counted left' cnt := by
  cases n with
  | atom a u => exact h
  | group alts u => exact ⟨h.1, le_trans (Nat.add_le_add_left hle _) h.2⟩

variable {k : Cont}

theorem Cont.Counted.mono {left' : Nat} (h : k.Counted left) (hle : left' ≤ left) : k.Counted left' := by
  induction k with
  | nil => trivial
  | frame q i node cnt start k ih =>
    cases node with
    | none => exact ih h
    | some n => exact ⟨h.1.mono hle, ih h.2⟩

theorem Node.counted_zero (n : Node) (hleft : left ≤ framesMax) : n.Counted left 0 := by
  cases n with
  | atom a u => rfl
  | group alts u => exact ⟨zero_le _, by omega⟩

variable {q : Seq} {i : Nat}

theorem seqLang_drop {n : Node} (h : q[i]? = some n) :
    seqLang nonempty (q.drop i) = n.rest 0 * seqLang nonempty (q.drop (i + 1)) := by
  obtain ⟨hi, hn⟩ := List.getElem?_eq_some_iff.1 h
  rw [drop_eq_getElem_cons hi, hn, seqLang, Node.rest]

theorem seqLang_end (h : q[i]? = none) : seqLang nonempty (q.drop i) = 1 := by
  rw [drop_eq_nil_of_le (getElem?_eq_none_iff.1 h), seqLang]

theorem mCont_spec {cs : List Char} {left : Nat} {rep : Rep} (hrep : RepDecides cs left rep) (hleft : left ≤ framesMax)
    {k : Cont} {s : Nat} {m : Mt} {w : List Char} (h : At cs s w) (hk : k.Counted left) :
    Decides m (mCont rep (utf8 cs) k s m) (w ∈ k.tails (utf8 cs).length) := by
  induction k with
  | nil =>
    have hlen := h.length
    rw [mCont, Cont.tails, Language.mem_one, ← utf8_eq_nil, ← length_eq_zero_iff]
    refine ⟨le_rfl, id, fun hs => ?_, fun hs _ => ?_⟩
    · have := beq_iff_eq.1 hs
      omega
    · have := beq_eq_false_iff_ne.1 hs
      omega
  | frame q i node cnt start k ih =>
    cases node with
    | some n =>
      rw [mCont]
      refine (Decides.guard fun _ => hrep _ _ _ _ _ _ _ _ h hk.1 hk.2).congr ?_
      have hlen := h.length
      have hmoved : s ≠ start ↔ start + (utf8 w).length ≠ (utf8 cs).length := by omega
      rw [hmoved]
      exact Iff.rfl
    | none =>
      rw [mCont, Cont.tails]
      by_cases hbad : m.bad = true
      · rw [if_pos hbad]
        exact Decides.cut le_rfl id (.inl hbad)
      rw [if_neg hbad]
      cases hq : q[i]? with
      | none => exact (ih hk).congr (by rw [seqLang_end hq, one_mul])
      | some n =>
        rw [seqLang_drop hq, mul_assoc]
        exact hrep _ _ _ _ _ _ _ _ h (n.counted_zero hleft) hk

theorem mSeq_spec {cs : List Char} {left : Nat} {rep : Rep} (hrep : RepDecides cs left rep) (hleft : left ≤ framesMax)
    {q : Seq} {i : Nat} {k : Cont} {s : Nat} {m : Mt} {w : List Char} (h : At cs s w) (hk : k.Counted left) :
    Decides m (mSeq rep (utf8 cs) q i s k m) (w ∈ seqLang nonempty (q.drop i) * k.tails (utf8 cs).length) :=
  @mCont_spec cs left rep hrep hleft (.frame q i none 0 0 k) s m w h hk

variable {u : Quant}

/-- The alternatives of a group, each in front of one more repetition, are an iteration that moves. -/
theorem group_once {cs : List Char} {alts : List Seq} {s : Nat} {w : List Char}
    (h : At cs s w) : (∃ alt ∈ alts, w ∈ seqLang nonempty (alt.drop 0) *
        (Cont.frame q i (some (.group alts u)) cnt s k).tails (utf8 cs).length) ↔
      w ∈ (Node.group alts u).once nonempty *
        ((Node.group alts u).rest (cnt + 1) * (seqLang nonempty (q.drop (i + 1)) * k.tails (utf8 cs).length)) := by
  -- the rest is somewhere else than at `s` just when the iteration took a character
  have hmove : ∀ {x y : List Char}, x ++ y = w → (s + (utf8 y).length ≠ (utf8 cs).length ↔ x ≠ []) := by
    rintro x y rfl
    have hlen := h.length
    rw [utf8_append, length_append] at hlen
    rw [ne_eq x, ← utf8_eq_nil, ← length_eq_zero_iff]
    omega
  simp only [drop_zero, Language.mem_mul, Node.once, nonempty, Language.mem_sub, Language.mem_one]
  constructor
  · rintro ⟨alt, halt, x, hx, y, ⟨hne, hy⟩, hxy⟩
    exact ⟨x, ⟨mem_altsLang.2 ⟨alt, halt, hx⟩, (hmove hxy).1 hne⟩, y, Language.mem_mul.1 hy, hxy⟩
  · rintro ⟨x, ⟨hx, hne⟩, y, hy, hxy⟩
    obtain ⟨alt, halt, hx⟩ := mem_altsLang.1 hx
    exact ⟨alt, halt, x, hx, y, ⟨(hmove hxy).2 hne, Language.mem_mul.2 hy⟩, hxy⟩

theorem Quant.le_bound {n : Nat} (h : n ≤ u.max) : (n : ℕ∞) ≤ u.bound := by
  rw [Quant.bound]
  split
  · exact le_top
  · exact cast_le.2 h

theorem Quant.lt_max (hcnt : cnt + left ≤ framesMax) (h : ((cnt + 1 : ℕ) : ℕ∞) ≤ u.bound) : cnt < u.max := by
  rw [Quant.bound] at h
  split at h
  · rename_i hmax
    have : framesMax < uint32Max := by decide
    omega
  · exact succ_le_iff.1 (cast_le.1 h)

theorem mRep_group {cs : List Char} (hrep : RepDecides cs left (mRep (utf8 cs) left)) (hleft : left + 1 ≤ framesMax)
    {alts : List Seq} {s : Nat} {m : Mt} {w : List Char} (h : At cs s w)
    (hn : (Node.group alts u).Counted (left + 1) cnt) (hk : k.Counted (left + 1)) :
    Decides m (mRep (utf8 cs) (left + 1) (.group alts u) cnt s q i k m)
      (w ∈ (Node.group alts u).rest cnt * (seqLang nonempty (q.drop (i + 1)) * k.tails (utf8 cs).length)) := by
  rw [mRep]
  by_cases hlimit : stepsMax < m.steps + 1
  · rw [if_pos hlimit]
    exact Decides.cut (le_succ _) (fun _ => rfl) (.inl rfl)
  rw [if_neg hlimit]
  have hk' := hk.mono (le_succ left)
  have hframe : ∀ m', cnt < u.max → Decides m' (tryAlts (fun alt m => mSeq (mRep (utf8 cs) left) (utf8 cs) alt 0 s
      (.frame q i (some (.group alts u)) cnt s k) m) alts m') (∃ alt ∈ alts, w ∈ seqLang nonempty (alt.drop 0) *
        (Cont.frame q i (some (.group alts u)) cnt s k).tails (utf8 cs).length) := fun m' hcnt => by
    have hentered : (Cont.frame q i (some (.group alts u)) cnt s k).Counted left :=
      ⟨⟨hcnt, by have := hn.2; omega⟩, hk'⟩
    exact tryAlts_spec (P := fun alt => w ∈ seqLang nonempty (alt.drop 0) * _)
      (fun alt m => @mSeq_spec cs left _ hrep (by omega) alt 0 _ s m w h hentered) alts m'
  have hdone : ∀ m', Decides m' (if u.min ≤ cnt then mSeq (mRep (utf8 cs) left) (utf8 cs) q (i + 1) s k m' else (false, m'))
      (u.min ≤ cnt ∧ w ∈ seqLang nonempty (q.drop (i + 1)) * k.tails (utf8 cs).length) := fun m' =>
    Decides.guard fun _ => mSeq_spec hrep (by omega) h hk'
  refine (((Decides.guard (hframe _)).orElse (hdone _)).congr ?_).step (le_succ m.steps) id
  rw [group_once h, show (Node.group alts u).rest cnt = more _ _ _ cnt from rfl, mem_more_mul]
  constructor
  · rintro (⟨hcnt, hw⟩ | ⟨hmin, hw⟩)
    · exact .inr ⟨Quant.le_bound hcnt, hw⟩
    · exact .inl ⟨hmin, Quant.le_bound hn.1, hw⟩
  · rintro (⟨hmin, -, hw⟩ | ⟨hbound, hw⟩)
    · exact .inr ⟨hmin, hw⟩
    · exact .inl ⟨Quant.lt_max hn.2 hbound, hw⟩

theorem Node.rest_atom (a : Atom) (u : Quant) (cnt : Nat) :
    (Node.atom a u).rest cnt = more (letters fun c => a.has c.toNat) u.min u.bound cnt := rfl

/-- Every way to take the atom ends within the greedy run, or the run is at `UINT32_MAX`. -/
theorem atom_within {a : Atom} {u : Quant} {t w : List Char} {R : Language Char} (hall : ∀ c ∈ t, a.has c.toNat = true)
    (hle : t.length ≤ u.max) (hstop : t.length < u.max → ∀ c w', w = c :: w' → a.has c.toNat = false) :
    ((∃ x y, t = x ++ y ∧ u.min ≤ x.length ∧ y ++ w ∈ R) → t ++ w ∈ (Node.atom a u).rest 0 * R) ∧
    (t ++ w ∈ (Node.atom a u).rest 0 * R → (∃ x y, t = x ++ y ∧ u.min ≤ x.length ∧ y ++ w ∈ R) ∨ t.length = uint32Max) := by
  constructor
  · rintro ⟨x, y, rfl, hmin, hR⟩
    rw [append_assoc, Node.rest_atom]
    refine Language.append_mem_mul ⟨x.length, by simpa using hmin, ?_, ?_⟩ hR
    · rw [zero_add]
      exact Quant.le_bound (by rw [length_append] at hle; omega)
    · exact mem_letters_pow.2 ⟨rfl, fun c hc => hall c (mem_append_left _ hc)⟩
  rw [Node.rest_atom, Language.mem_mul]
  rintro ⟨x, ⟨j, hmin, hbound, hx⟩, y, hy, hxy⟩
  rw [zero_add] at hmin hbound
  obtain ⟨rfl, hletters⟩ := mem_letters_pow.1 hx
  by_cases hlong : t.length < x.length
  · right
    -- the character behind the greedy run is one of the atom's, so the run stopped at the upper bound
    obtain ⟨z, rfl⟩ : ∃ z, x = t ++ z := by
      obtain ⟨z, hz⟩ | ⟨z, hz⟩ := append_eq_append_iff.1 hxy
      · rw [hz.1, length_append] at hlong
        omega
      · exact ⟨z, hz.1⟩
    rw [append_assoc, append_cancel_left_eq] at hxy
    cases z with
    | nil => simp at hlong
    | cons c z =>
      have hmax : ¬ t.length < u.max := fun hlt => by
        have := hstop hlt c (z ++ y) hxy.symm
        rw [hletters c (by simp)] at this
        cases this
      rw [Quant.bound] at hbound
      split at hbound
      · rename_i hinf
        omega
      · have := cast_le.1 hbound
        omega
  · left
    obtain ⟨z, rfl⟩ : ∃ z, t = x ++ z := by
      obtain ⟨z, hz⟩ | ⟨z, hz⟩ := append_eq_append_iff.1 hxy
      · exact ⟨z, hz.1⟩
      · rw [hz.1, length_append] at hlong
        have hz0 : z = [] := length_eq_zero_iff.1 (by omega)
        exact ⟨[], by rw [hz.1, hz0]; simp⟩
    rw [append_assoc, append_cancel_left_eq] at hxy
    exact ⟨x, z, rfl, hmin, hxy ▸ hy⟩

theorem mRep_atom {cs : List Char} (hrep : RepDecides cs left (mRep (utf8 cs) left)) (hleft : left + 1 ≤ framesMax) {s : Nat} {m : Mt} {w : List Char} (h : At cs s w)
    (hk : k.Counted (left + 1)) : Decides m (mRep (utf8 cs) (left + 1) (.atom a u) 0 s q i k m)
      (w ∈ (Node.atom a u).rest 0 * (seqLang nonempty (q.drop (i + 1)) * k.tails (utf8 cs).length)) := by
  rw [mRep]
  by_cases hlimit : stepsMax < m.steps + 1
  · rw [if_pos hlimit]
    exact Decides.cut (le_succ _) (fun _ => rfl) (.inl rfl)
  rw [if_neg hlimit]
  have hlen := h.length
  obtain ⟨t, w', rfl, hall, hrun, hle, hstop⟩ :=
    @greedy_spec cs a u.max ((utf8 cs).length - s) 0 s w h (by omega)
  simp only [hrun, zero_add] at hle hstop ⊢
  obtain ⟨hback, hcount⟩ := @backOff_spec cs (fun p m => mSeq (mRep (utf8 cs) left) (utf8 cs) q (i + 1) p k m) _ u.min s
    (fun p m w hw => mSeq_spec hrep (by omega) hw (hk.mono (le_succ left))) t w' { m with steps := m.steps + 1 } h
  obtain ⟨hin, hout⟩ := @atom_within a u t w' (seqLang nonempty (q.drop (i + 1)) * k.tails (utf8 cs).length) hall
    (hle (zero_le _)) hstop
  refine ⟨le_trans (le_succ _) hback.steps, hback.bad, fun hr => hin (hback.sound hr), fun hr hcut hw => ?_⟩
  rcases hout hw with hw | hlong
  · exact hback.complete hr hcut hw
  -- from `UINT32_MAX` down to the lower bound are more steps than the limit has
  have hsteps := hcount _ rfl hr hcut
  have hmin := u.min_lt
  have hlimit' := not_or.1 hcut
  have huint : uint32Max = 4294967295 := rfl
  have hmax : stepsMax = 1000000 := rfl
  simp only at hsteps
  omega

theorem mRep_spec (cs : List Char) : ∀ left, left ≤ framesMax → RepDecides cs left (mRep (utf8 cs) left)
  | 0, _ => fun n cnt s q i k m w _ _ _ => by
    rw [mRep]
    exact Decides.cut (le_succ _) (fun _ => rfl) (.inl rfl)
  | left + 1, hleft => fun n cnt s q i k m w h hn hk => by
    have hrep := mRep_spec cs left (by omega)
    cases n with
    | group alts u => exact mRep_group hrep hleft h hn hk
    | atom a u =>
      cases hn
      exact mRep_atom hrep hleft h hk

/-! ## The matcher -/

theorem matchRun_decides (p : XsdPattern) {cs : List Char} (hcs : ∀ c ∈ cs, c.toNat ≠ 0) :
    Decides ⟨0, false⟩ (matchRun p (utf8 cs)) (cs ∈ p.langNonempty) := by
  rw [matchRun]
  simp only [cstring_utf8 hcs]
  have hseq : ∀ q m, Decides m (mSeq (mRep (utf8 cs) framesMax) (utf8 cs) q 0 0 .nil m) (cs ∈ seqLang nonempty q) := by
    intro q m
    refine (mSeq_spec (mRep_spec cs framesMax le_rfl) le_rfl At.start (k := .nil) trivial).congr ?_
    rw [Cont.tails, mul_one, drop_zero]
  exact (tryAlts_spec hseq p.alts ⟨0, false⟩).congr mem_altsLang.symm

/-- The run was ended by the step limit of the back-off loop, which no later call of `m_rep` noticed. -/
def BackOffCut (m : Mt) : Prop := stepsMax < m.steps ∧ m.bad = false

theorem xsdPatternMatch_one {p : XsdPattern} {buf : List UInt8} : xsdPatternMatch p buf = 1 ↔ (matchRun p buf).1 = true := by
  rw [xsdPatternMatch]
  cases (matchRun p buf).1 <;> cases (matchRun p buf).2.bad <;> decide

theorem xsdPatternMatch_zero {p : XsdPattern} {buf : List UInt8} :
    xsdPatternMatch p buf = 0 ↔ (matchRun p buf).1 = false ∧ (matchRun p buf).2.bad = false := by
  rw [xsdPatternMatch]
  cases (matchRun p buf).1 <;> cases (matchRun p buf).2.bad <;> decide

theorem xsdPatternMatch_cases (p : XsdPattern) (buf : List UInt8) :
    xsdPatternMatch p buf = 1 ∨ xsdPatternMatch p buf = 0 ∨ xsdPatternMatch p buf = -1 := by
  rw [xsdPatternMatch]
  cases (matchRun p buf).1 <;> cases (matchRun p buf).2.bad <;> decide

/-- A match is a word of the language, with no iteration of a group empty. Unless the back-off loop ended the run, no match
    means that there is no such parse, and a run cut off reports so or has found a match. -/
theorem xsdPatternMatch_decides (re : List UInt8) (p : XsdPattern) (_ : xsdPatternCompile re = some p) (cs : List Char)
    (hcs : ∀ c ∈ cs, c.toNat ≠ 0) :
    (xsdPatternMatch p (utf8 cs) = 1 → cs ∈ p.langNonempty ∧ cs ∈ p.lang) ∧ (¬ BackOffCut (matchRun p (utf8 cs)).2 →
      (xsdPatternMatch p (utf8 cs) = 0 → cs ∉ p.langNonempty) ∧
      (¬ (matchRun p (utf8 cs)).2.CutOff → (xsdPatternMatch p (utf8 cs) = 1 ↔ cs ∈ p.langNonempty)) ∧
      ((matchRun p (utf8 cs)).2.CutOff → xsdPatternMatch p (utf8 cs) = -1 ∨ xsdPatternMatch p (utf8 cs) = 1)) := by
  have h := matchRun_decides p hcs
  have hsound : xsdPatternMatch p (utf8 cs) = 1 → cs ∈ p.langNonempty := fun hone => h.sound (xsdPatternMatch_one.1 hone)
  refine ⟨fun hone => ⟨hsound hone, p.langNonempty_le (hsound hone)⟩, fun hback => ?_⟩
  have hbad : (matchRun p (utf8 cs)).2.bad = false → ¬ (matchRun p (utf8 cs)).2.CutOff := by
    rintro hbad (hcut | hcut)
    · rw [hbad] at hcut
      cases hcut
    · exact hback ⟨hcut, hbad⟩
  have hzero : xsdPatternMatch p (utf8 cs) = 0 → cs ∉ p.langNonempty := fun hzero => by
    obtain ⟨hf, hb⟩ := xsdPatternMatch_zero.1 hzero
    exact h.complete hf (hbad hb)
  refine ⟨hzero, fun hcut => ⟨hsound, fun hw => ?_⟩, fun hcut => ?_⟩
  · rw [xsdPatternMatch_one]
    by_contra hf
    exact h.complete (Bool.not_eq_true _ ▸ hf) hcut hw
  · rcases xsdPatternMatch_cases p (utf8 cs) with hone | hz | hcutoff
    · exact .inr hone
    · exact absurd hcut (hbad (xsdPatternMatch_zero.1 hz).2)
    · exact .inl hcutoff

/-! ## A group that can be empty -/

/-- What `(a?)+b` compiles to. -/
def nullableGroup : XsdPattern :=
  ⟨[[.group [[.atom (.char 0x61) ⟨0, 1, zero_lt_limit⟩]] ⟨1, uint32Max, one_lt_limit⟩, .atom (.char 0x62) ⟨1, 1, one_lt_limit⟩]]⟩

set_option maxRecDepth 100000 in
theorem compile_nullableGroup : xsdPatternCompile [0x28, 0x61, 0x3F, 0x29, 0x2B, 0x62] = some nullableGroup := by
  with_unfolding_all rfl

theorem nullableGroup_matches : xsdPatternMatch nullableGroup (utf8 ['a', 'b']) = 1 ∧ ['a', 'b'] ∈ nullableGroup.langNonempty :=
  ⟨by decide +kernel,
    ((xsdPatternMatch_decides _ nullableGroup compile_nullableGroup ['a', 'b'] (by simp)).1 (by decide +kernel)).1⟩

/-- `b` is one empty iteration of the group and a `b`, but the matcher refuses the iteration. -/
theorem empty_iteration_refused : xsdPatternCompile [0x28, 0x61, 0x3F, 0x29, 0x2B, 0x62] = some nullableGroup ∧
    ['b'] ∈ nullableGroup.lang ∧ xsdPatternMatch nullableGroup (utf8 ['b']) = 0 ∧
    (matchRun nullableGroup (utf8 ['b'])).2.bad = false ∧ (matchRun nullableGroup (utf8 ['b'])).2.steps ≤ stepsMax := by
  refine ⟨compile_nullableGroup, ?_, by decide +kernel, by decide +kernel, by decide +kernel⟩
  have hgroup : [] ∈ (Node.group [[.atom (.char 0x61) ⟨0, 1, by decide⟩]] ⟨1, uint32Max, by decide⟩).once id :=
    Or.inl (Language.append_mem_mul (a := []) (b := []) ⟨0, le_refl 0, Quant.le_bound (zero_le _), Language.nil_mem_one⟩
      Language.nil_mem_one)
  have hb : ['b'] ∈ (Node.atom (.char 0x62) ⟨1, 1, by decide⟩).once id := ⟨'b', by decide, rfl⟩
  refine .inl (Language.append_mem_mul (a := []) ⟨1, le_rfl, Quant.le_bound (by decide), ?_⟩
    (Language.append_mem_mul (a := ['b']) ⟨1, le_rfl, Quant.le_bound (by decide), ?_⟩ Language.nil_mem_one))
  · rw [pow_one]
    exact hgroup
  · rw [pow_one]
    exact hb

end DvbIpiTools.Bim.Xsd.Pattern
