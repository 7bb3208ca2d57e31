import Mathlib.Data.List.Infix

set_option autoImplicit false

/-! # NAL units (`bitreader.c`)

A unit is escaped so that no start code appears in it, and the units of a stream are found between its start codes. -/

namespace DvbIpiTools.Nal

open List Nat

/-! ## Emulation prevention -/

/-- `rbsp_unescape` behind `zeros` zero bytes, with room for `cap` more bytes. -/
def rbspUnescapeFrom : Nat → List UInt8 → Nat → List UInt8
  | _, [], _ => []
  | _, _ :: _, 0 => []
  | zeros, b :: s, cap + 1 =>
    if zeros ≥ 2 ∧ b = 3 then rbspUnescapeFrom 0 s (cap + 1)
    else b :: rbspUnescapeFrom (if b = 0 then zeros + 1 else 0) s cap

def rbspUnescape (s : List UInt8) (cap : Nat) : List UInt8 := rbspUnescapeFrom 0 s cap

/-- `rbsp_escape` behind `zeros` zero bytes; none where the room does not suffice. -/
def rbspEscapeFrom : Nat → List UInt8 → Nat → Option (List UInt8)
  | _, [], _ => some []
  | zeros, b :: s, cap =>
    if zeros ≥ 2 ∧ b ≤ 3 then
      if cap < 2 then none
      else (rbspEscapeFrom (if b = 0 then 1 else 0) s (cap - 2)).map (3 :: b :: ·)
    else
      if cap < 1 then none
      else (rbspEscapeFrom (if b = 0 then zeros + 1 else 0) s (cap - 1)).map (b :: ·)

/-- `rbsp_escape`; where it returns 0 for want of room, there is no output. -/
def rbspEscape (s : List UInt8) (cap : Nat) : Option (List UInt8) := rbspEscapeFrom 0 s cap

/-- No two zero bytes stand before a byte below 3. -/
def Clean (s : List UInt8) : Prop := ∀ b < 3, ¬ [0, 0, b] <:+: s

variable {s : List UInt8} {a : UInt8}

theorem clean_cons : Clean (a :: s) ↔ Clean s ∧ ∀ b < 3, ¬ [0, 0, b] <+: a :: s := by
  unfold Clean
  simp only [infix_cons_iff, not_or, forall_and]
  exact and_comm

theorem clean_short (h : s.length ≤ 2) : Clean s := fun _ _ hin => by
  have hle := hin.length_le
  simp only [length_cons, length_nil] at hle
  omega

theorem clean_of_ne (ha : a ≠ 0) (h : Clean s) : Clean (a :: s) :=
  clean_cons.2 ⟨h, fun _ _ hp => ha (cons_prefix_cons.1 hp).1.symm⟩

theorem clean_zeros {zeros : Nat} (hz : zeros ≤ 2) (ha : a ≠ 0) (h3 : zeros = 2 → 3 ≤ a) (h : Clean s) :
    Clean (replicate zeros 0 ++ a :: s) := by
  have h0 := clean_of_ne ha h
  have h1 : Clean (0 :: a :: s) := clean_cons.2 ⟨h0, fun _ _ hp => ha (cons_prefix_cons.1 (cons_prefix_cons.1 hp).2).1.symm⟩
  match zeros, hz with
  | 0, _ => exact h0
  | 1, _ => exact h1
  | 2, _ =>
    refine clean_cons.2 ⟨h1, fun c hc hp => ?_⟩
    obtain rfl := (cons_prefix_cons.1 (cons_prefix_cons.1 (cons_prefix_cons.1 hp).2).2).1
    exact absurd (h3 rfl) (UInt8.not_le.2 hc)

/-- Behind a byte that nothing is inserted before, no more than two zero bytes are counted. -/
theorem zeros_le {b : UInt8} {zeros : Nat} (h : ¬ (zeros ≥ 2 ∧ b ≤ 3)) : (if b = 0 then zeros + 1 else 0) ≤ 2 := by
  split
  · next hb => exact Nat.lt_of_not_le fun hz => h ⟨hz, by rw [hb]; decide⟩
  · exact zero_le _

/-- What holds of the output behind `zeros` zero bytes, at most two of them: it is clean there and goes back to the input, whatever
follows. -/
theorem rbspEscapeFrom_spec {s out : List UInt8} {zeros cap : Nat} (hz : zeros ≤ 2) (h : rbspEscapeFrom zeros s cap = some out) :
    Clean (replicate zeros 0 ++ out) ∧ s.length ≤ out.length ∧
      ∃ k, ∀ t n, rbspUnescapeFrom zeros (out ++ t) (s.length + n) = s ++ rbspUnescapeFrom k t n := by
  induction s generalizing zeros cap out with
  | nil =>
    cases h
    exact ⟨clean_short (by simpa using hz), le_rfl, zeros, fun t n => by rw [length_nil, Nat.zero_add]; rfl⟩
  | cons b s ih =>
    rw [rbspEscapeFrom] at h
    split at h
    · next hstuff =>
      obtain rfl : zeros = 2 := by omega
      split at h
      · cases h
      obtain ⟨out, hout, rfl⟩ := Option.map_eq_some_iff.1 h
      obtain ⟨hclean, hlen, k, hback⟩ := ih (by split <;> omega) hout
      refine ⟨clean_zeros le_rfl (by decide) (fun _ => by decide) ?_, by simp only [length_cons]; omega, k, fun t n => ?_⟩
      · -- the inserted byte separates the zeros before it from what follows
        split at hclean
        · next hb => rwa [hb]
        · next hb => exact clean_of_ne hb hclean
      · rw [length_cons, succ_add, cons_append, rbspUnescapeFrom, if_pos ⟨le_rfl, rfl⟩, cons_append, rbspUnescapeFrom, if_neg (by omega),
          hback]
        rfl
    · next hplain =>
      split at h
      · cases h
      obtain ⟨out, hout, rfl⟩ := Option.map_eq_some_iff.1 h
      obtain ⟨hclean, hlen, k, hback⟩ := ih (zeros_le hplain) hout
      refine ⟨?_, succ_le_succ hlen, k, fun t n => ?_⟩
      · split at hclean
        · next hb => rwa [hb, ← singleton_append, ← append_assoc, ← replicate_succ']
        · next hb => exact clean_zeros hz hb (fun h2 => UInt8.le_of_lt (UInt8.not_le.1 fun hle => hplain ⟨h2.ge, hle⟩)) hclean
      · rw [length_cons, succ_add, cons_append, rbspUnescapeFrom, if_neg (fun h => hplain ⟨h.1, by rw [h.2]; decide⟩), hback]
        rfl

theorem rbspEscapeFrom_isSome {zeros cap : Nat} (hz : zeros ≤ 2)
    (hcap : s.length + (s.length + zeros) / 2 ≤ cap) : ∃ out, rbspEscapeFrom zeros s cap = some out := by
  induction s generalizing zeros cap with
  | nil => exact ⟨[], rfl⟩
  | cons b s ih =>
    rw [length_cons] at hcap
    rw [rbspEscapeFrom]
    split
    · next hstuff =>
      rw [if_neg (by omega)]
      obtain ⟨out, hout⟩ := @ih (if b = 0 then 1 else 0) (cap - 2) (by split <;> omega) (by split <;> omega)
      exact ⟨_, by rw [hout]; rfl⟩
    · next hplain =>
      rw [if_neg (by omega)]
      obtain ⟨out, hout⟩ := @ih _ (cap - 1) (zeros_le hplain) (by split <;> omega)
      exact ⟨_, by rw [hout]; rfl⟩

/-! ## Start codes -/

/-- The loop of `find_startcode` over `n` bytes from `q` on; `memchr` only passes over bytes other than 1. The length stays 0 when there is
no start code. -/
def scanStartcode (d : List UInt8) (start : Nat) : Nat → Nat → Nat × Nat
  | 0, _ => (d.length, 0)
  | n + 1, q =>
    if d[q]? = some 1 ∧ d[q - 1]? = some 0 ∧ d[q - 2]? = some 0 then
      if q ≥ start + 3 ∧ d[q - 3]? = some 0 then (q - 3, 4) else (q - 2, 3)
    else scanStartcode d start n (q + 1)

/-- `find_startcode` from `start` on: the position and the length of a start code. -/
def findStartcode (d : List UInt8) (start : Nat) : Nat × Nat := scanStartcode d start (d.length - (start + 2)) (start + 2)

/-- `sc_iter_t` over a buffer. -/
structure ScIter where
  p : Nat
  scl : Nat

def scIterInit (d : List UInt8) : ScIter := ⟨(findStartcode d 0).1, (findStartcode d 0).2⟩

/-- `sc_iter_next`: where a unit starts and ends. -/
def scIterNext (d : List UInt8) (it : ScIter) : Option ((Nat × Nat) × ScIter) :=
  if it.p ≥ d.length then none
  else
    let start := it.p + it.scl
    some ((start, (findStartcode d start).1), ⟨(findStartcode d start).1, (findStartcode d start).2⟩)

/-- All units, in at most `n` calls. -/
def scUnits (d : List UInt8) : Nat → ScIter → Option (List (Nat × Nat))
  | 0, _ => none
  | n + 1, it => match scIterNext d it with
    | none => some []
    | some (r, it) => (scUnits d n it).map (r :: ·)

variable {d : List UInt8} {start n q k : Nat}

/-- A start code ends at `q`. -/
abbrev Hit (d : List UInt8) (q : Nat) : Prop := d[q]? = some 1 ∧ d[q - 1]? = some 0 ∧ d[q - 2]? = some 0

theorem scanStartcode_skip (h : ∀ i < k, ¬ Hit d (q + i)) : scanStartcode d start (k + n) q = scanStartcode d start n (q + k) := by
  induction k generalizing q with
  | zero => rw [Nat.zero_add, Nat.add_zero]
  | succ k ih =>
    have h0 : ¬ Hit d q := h 0 (succ_pos _)
    have hrest (i : Nat) (hi : i < k) : ¬ Hit d (q + 1 + i) := by
      rw [Nat.add_assoc, Nat.add_comm 1]
      exact h (i + 1) (succ_lt_succ hi)
    rw [Nat.add_right_comm, scanStartcode, if_neg h0, ih hrest, Nat.add_assoc, Nat.add_comm 1]

theorem scanStartcode_range (hq : start + 2 ≤ q) (hn : q + n = d.length) (hs : start ≤ d.length) :
    start ≤ (scanStartcode d start n q).1 ∧ ((scanStartcode d start n q).1 < d.length → 3 ≤ (scanStartcode d start n q).2) ∧
      (scanStartcode d start n q).1 + (scanStartcode d start n q).2 ≤ d.length := by
  induction n generalizing q with
  | zero => exact ⟨hs, fun h => absurd h (lt_irrefl _), le_refl _⟩
  | succ n ih =>
    rw [scanStartcode]
    split
    · split <;> simp only <;> omega
    · exact ih (by omega) (by omega)

theorem findStartcode_range (hs : start ≤ d.length) :
    start ≤ (findStartcode d start).1 ∧ ((findStartcode d start).1 < d.length → 3 ≤ (findStartcode d start).2) ∧
      (findStartcode d start).1 + (findStartcode d start).2 ≤ d.length := by
  by_cases h : start + 2 ≤ d.length
  · exact scanStartcode_range (le_refl _) (by omega) hs
  · rw [findStartcode, Nat.sub_eq_zero_of_le (by omega)]
    exact ⟨hs, fun h => absurd h (lt_irrefl _), le_refl _⟩

/-- Units lie in the buffer, each one behind the start code that ends the one before. -/
theorem scUnits_ranges {it : ScIter} (hin : it.p + it.scl ≤ d.length) (hscl : it.p < d.length → 3 ≤ it.scl) (hn : d.length < it.p + n) :
    ∃ rs, scUnits d n it = some rs ∧ (∀ r ∈ rs, it.p < r.1 ∧ r.1 ≤ r.2 ∧ r.2 ≤ d.length) ∧ rs.Pairwise fun a b => a.2 < b.1 := by
  induction n generalizing it with
  | zero => omega
  | succ n ih =>
    by_cases hp : it.p ≥ d.length
    · exact ⟨[], by rw [scUnits, scIterNext, if_pos hp], by simp, .nil⟩
    · obtain ⟨hlo, hlen, hhi⟩ := findStartcode_range hin
      have h3 := hscl (by omega)
      obtain ⟨rs, hrs, hall, hpair⟩ := @ih ⟨_, _⟩ hhi hlen (show d.length < (findStartcode d (it.p + it.scl)).1 + n by omega)
      refine ⟨_, by rw [scUnits, scIterNext, if_neg hp]; simp only [hrs]; rfl, forall_mem_cons.2 ⟨⟨?_, hlo, ?_⟩, ?_⟩,
        pairwise_cons.2 ⟨fun r hr => (hall r hr).1, hpair⟩⟩
      · exact Nat.lt_add_of_pos_right (by omega)
      · exact le_trans (le_add_right _ _) hhi
      · exact fun r hr => ⟨lt_of_le_of_lt (le_trans (le_add_right _ _) hlo) (hall r hr).1, (hall r hr).2⟩

/-! ## A stream of units -/

/-- A unit of a stream with the start code before it. -/
structure NalUnit where
  long : Bool
  body : List UInt8
  ne_nil : body ≠ []
  head_ne : body.head? ≠ some 0
  last_ne : body.getLast? ≠ some 0
  noStart : ¬ [0, 0, 1] <:+: body

def NalUnit.zeros (u : NalUnit) : Nat := if u.long then 3 else 2

/-- The start code of a unit. -/
def NalUnit.code (u : NalUnit) : List UInt8 := replicate u.zeros 0 ++ [1]

/-- The bytes of units. -/
def stream (us : List NalUnit) : List UInt8 := us.flatMap fun u => u.code ++ u.body

/-- Where the bodies of units lie when their bytes begin at `i`. -/
def spans : Nat → List NalUnit → List (Nat × Nat)
  | _, [] => []
  | i, u :: us => (i + u.code.length, i + u.code.length + u.body.length) :: spans (i + u.code.length + u.body.length) us

theorem scanStartcode_append (pre s : List UInt8) (hq : 2 ≤ q) : scanStartcode (pre ++ s) pre.length n (pre.length + q) =
    (pre.length + (scanStartcode s 0 n q).1, (scanStartcode s 0 n q).2) := by
  have hget {q i : Nat} (hi : i ≤ q) : (pre ++ s)[pre.length + q - i]? = s[q - i]? := by
    rw [Nat.add_sub_assoc hi, getElem?_append_right (Nat.le_add_right _ _), Nat.add_sub_cancel_left]
  induction n generalizing q with
  | zero => rw [scanStartcode, scanStartcode, length_append]
  | succ n ih =>
    have h0 : (pre ++ s)[pre.length + q]? = s[q]? := hget (zero_le q)
    rw [scanStartcode, scanStartcode, h0, hget (by omega), hget hq]
    split
    · by_cases h3 : 3 ≤ q
      · rw [hget h3]
        simp only [ge_iff_le, Nat.add_le_add_iff_left, Nat.zero_add]
        split <;> simp only [Prod.mk.injEq, and_true] <;> omega
      · rw [if_neg (by omega), if_neg (by omega)]
        simp only [Prod.mk.injEq, and_true]
        omega
    · exact ih (le_succ_of_le hq)

variable {body rest : List UInt8}

theorem findStartcode_append (pre s : List UInt8) : findStartcode (pre ++ s) pre.length =
    (pre.length + (findStartcode s 0).1, (findStartcode s 0).2) := by
  have hlen : (pre ++ s).length - (pre.length + 2) = s.length - (0 + 2) := by
    rw [length_append]
    omega
  rw [findStartcode, findStartcode, hlen, scanStartcode_append pre s (le_refl 2)]

theorem not_hit_body (hno : ¬ [0, 0, 1] <:+: body) (h2 : 2 ≤ q) (hq : q < body.length) (s : List UInt8) : ¬ Hit (body ++ s) q := by
  rintro ⟨h, h1, h0⟩
  obtain ⟨i, rfl⟩ := Nat.exists_eq_add_of_le' h2
  rw [getElem?_append_left (by omega), getElem?_eq_getElem (by omega), Option.some_inj] at h h1 h0
  refine hno ⟨body.take i, body.drop (i + 3), ?_⟩
  have hdrop := drop_eq_getElem_cons (show i < body.length by omega)
  rw [drop_eq_getElem_cons (show i + 1 < body.length by omega), drop_eq_getElem_cons (show i + 1 + 1 < body.length by omega)] at hdrop
  rw [append_assoc]
  conv_rhs => rw [← take_append_drop i body, hdrop]
  simp only [Nat.add_sub_cancel, show i + 2 - 1 = i + 1 from rfl] at h h1 h0
  rw [h, h1, h0]
  rfl

theorem findStartcode_last (hno : ¬ [0, 0, 1] <:+: body) : findStartcode body 0 = (body.length, 0) := by
  have hskip := @scanStartcode_skip body 0 0 2 (body.length - 2) fun i hi =>
    append_nil body ▸ not_hit_body hno (by omega) (by omega) []
  exact hskip

theorem findStartcode_body (hno : ¬ [0, 0, 1] <:+: body) (hlast : body.getLast? ≠ some 0) (u : NalUnit) (rest : List UInt8) :
    findStartcode (body ++ (u.code ++ rest)) 0 = (body.length, u.code.length) := by
  obtain ⟨d, hd⟩ : ∃ d, body ++ (u.code ++ rest) = d := ⟨_, rfl⟩
  have hget (i : Nat) : d[body.length + i]? = (replicate u.zeros 0 ++ 1 :: rest)[i]? := by
    rw [← hd, getElem?_append_right (Nat.le_add_right _ _), Nat.add_sub_cancel_left, NalUnit.code, append_assoc]
    rfl
  have hzero (i : Nat) (hi : i < u.zeros) : d[body.length + i]? = some 0 := by
    rw [hget, getElem?_append_left (by rwa [length_replicate]), getElem?_replicate, if_pos hi]
  have hone : d[body.length + u.zeros]? = some 1 := by
    rw [hget, getElem?_append_right (by rw [length_replicate]), length_replicate, Nat.sub_self]
    rfl
  have hback {i : Nat} (h1 : 1 ≤ i) (hi : i ≤ u.zeros) : d[body.length + u.zeros - i]? = some 0 := by
    rw [Nat.add_sub_assoc hi]
    exact hzero _ (by omega)
  have hlen : u.code.length = u.zeros + 1 := by rw [NalUnit.code, length_append, length_replicate]; rfl
  have hz : u.zeros = if u.long then 3 else 2 := rfl
  have h2 : 2 ≤ u.zeros := by split at hz <;> omega
  have hskip (i : Nat) (hi : i < body.length + u.zeros - 2) : ¬ Hit d (2 + i) := by
    by_cases hlt : 2 + i < body.length
    · exact hd ▸ not_hit_body hno (by omega) hlt _
    · intro hhit
      have h0 := hzero (2 + i - body.length) (by omega)
      rw [Nat.add_sub_cancel' (Nat.not_lt.1 hlt), hhit.1] at h0
      cases h0
  have hn : d.length - (0 + 2) = body.length + u.zeros - 2 + (rest.length + 1) := by
    rw [← hd, length_append, length_append, hlen]
    omega
  rw [hd, findStartcode, hn, scanStartcode_skip hskip, show 2 + (body.length + u.zeros - 2) = body.length + u.zeros by omega, scanStartcode,
    if_pos ⟨hone, hback le_rfl (by omega), hback (by decide) h2⟩, hlen]
  by_cases hl : u.long
  · rw [if_pos hl] at hz
    rw [if_pos ⟨by omega, hback (by decide) (by omega)⟩, hz]
    rfl
  · -- the last byte of the body is not a zero that belongs to the start code
    rw [if_neg hl] at hz
    rw [if_neg, hz]
    · rfl
    · rintro ⟨hge, h0⟩
      rw [hz, ← hd, show body.length + 2 - 3 = body.length - 1 by omega, getElem?_append_left (by omega), ← getLast?_eq_getElem?] at h0
      exact hlast h0

theorem scUnits_done {it : ScIter} (h : d.length ≤ it.p) (n : Nat) : scUnits d (n + 1) it = some [] := by
  rw [scUnits, scIterNext, if_pos h]

theorem scUnits_next {it : ScIter} {e : Nat × Nat} (h : it.p < d.length) (he : findStartcode d (it.p + it.scl) = e) (n : Nat) :
    scUnits d (n + 1) it = (scUnits d n ⟨e.1, e.2⟩).map ((it.p + it.scl, e.1) :: ·) := by
  rw [scUnits, scIterNext, if_neg (not_le.2 h)]
  simp only [he]

theorem stream_cons (pre : List UInt8) (u : NalUnit) (us : List NalUnit) :
    pre ++ stream (u :: us) = (pre ++ u.code) ++ (u.body ++ stream us) := by
  simp only [stream, flatMap_cons, append_assoc]

theorem length_stream_cons (pre : List UInt8) (u : NalUnit) (us : List NalUnit) :
    (pre ++ stream (u :: us)).length = pre.length + u.code.length + u.body.length + (stream us).length := by
  rw [stream_cons]
  simp only [length_append, Nat.add_assoc]

/-- From the start code of a unit on, the units are found where they are. -/
theorem scUnits_stream (us : List NalUnit) (u : NalUnit) (pre : List UInt8) {n : Nat} (hn : (pre ++ stream (u :: us)).length < pre.length + n) :
    scUnits (pre ++ stream (u :: us)) n ⟨pre.length, u.code.length⟩ = some (spans pre.length (u :: us)) := by
  induction us generalizing u pre n with
  | nil =>
    have hpos := length_pos_iff.2 u.ne_nil
    have hlen := length_stream_cons pre u []
    obtain ⟨n, rfl⟩ : ∃ k, n = k + 2 := Nat.exists_eq_add_of_le' (by omega)
    have hfind : findStartcode (pre ++ stream [u]) (pre.length + u.code.length) = (pre.length + u.code.length + u.body.length, 0) := by
      rw [stream_cons, ← length_append, findStartcode_append, stream, flatMap_nil, append_nil, findStartcode_last u.noStart]
    rw [scUnits_next (show pre.length < _ by omega) hfind, scUnits_done (by rw [hlen]; exact le_refl _)]
    rfl
  | cons v us ih =>
    have hpos := length_pos_iff.2 u.ne_nil
    have hlen := length_stream_cons pre u (v :: us)
    obtain ⟨n, rfl⟩ : ∃ k, n = k + 1 := Nat.exists_eq_add_of_le' (by omega)
    have hfind : findStartcode (pre ++ stream (u :: v :: us)) (pre.length + u.code.length) =
        (pre.length + u.code.length + u.body.length, v.code.length) := by
      rw [stream_cons, ← length_append, findStartcode_append, stream, flatMap_cons, append_assoc, findStartcode_body u.noStart u.last_ne]
    have hcat : pre ++ u.code ++ u.body ++ stream (v :: us) = pre ++ stream (u :: v :: us) := by rw [append_assoc, ← stream_cons]
    have hpre : (pre ++ u.code ++ u.body).length = pre.length + u.code.length + u.body.length := by simp only [length_append]
    have hrest := @ih v (pre ++ u.code ++ u.body) n (by rw [hcat, hpre]; omega)
    rw [hcat, hpre] at hrest
    rw [scUnits_next (show pre.length < _ by omega) hfind, hrest]
    rfl

/-- Escaped bytes have no start code and come back; the units of a stream are found where they are; and in any bytes the search comes to
its end with ranges one behind the other. -/
theorem nal_units_exact : (∀ x cap, x.length + x.length / 2 ≤ cap → ∃ out, rbspEscape x cap = some out) ∧
    (∀ x cap out, rbspEscape x cap = some out → Clean out ∧ ∀ n ≥ x.length, rbspUnescape out n = x) ∧
    (∀ us : List NalUnit, ∀ n > (stream us).length, scUnits (stream us) n (scIterInit (stream us)) = some (spans 0 us)) ∧
    ∀ d : List UInt8, ∀ n > d.length, ∃ rs, scUnits d n (scIterInit d) = some rs ∧ (∀ r ∈ rs, r.1 ≤ r.2 ∧ r.2 ≤ d.length) ∧
      rs.Pairwise fun a b => a.2 < b.1 := by
  refine ⟨fun x cap => rbspEscapeFrom_isSome (zero_le 2), fun x cap out h => ?_, fun us n hn => ?_, fun d n hn => ?_⟩
  · obtain ⟨hclean, -, k, hback⟩ := rbspEscapeFrom_spec (zero_le _) h
    refine ⟨hclean, fun n hn => ?_⟩
    obtain ⟨n, rfl⟩ := Nat.exists_eq_add_of_le hn
    have hb := hback [] n
    rwa [append_nil, rbspUnescapeFrom, append_nil] at hb
  · cases us with
    | nil =>
      obtain ⟨n, rfl⟩ := Nat.exists_eq_add_of_lt hn
      rfl
    | cons u us =>
      have hinit : scIterInit (stream (u :: us)) = ⟨0, u.code.length⟩ := by
        have hfind := findStartcode_body (show ¬ [0, 0, 1] <:+: [] by decide) (by decide) u (u.body ++ stream us)
        rw [scIterInit, ← nil_append (stream _), stream_cons, nil_append, ← nil_append (u.code ++ _), hfind]
        rfl
      rw [hinit]
      exact scUnits_stream us u [] (by rwa [nil_append, length_nil, Nat.zero_add])
  · obtain ⟨-, hlen, hhi⟩ := findStartcode_range (zero_le d.length)
    obtain ⟨rs, hrs, hall, hpair⟩ := @scUnits_ranges d n (scIterInit d) hhi hlen (lt_of_lt_of_le hn (le_add_left _ _))
    exact ⟨rs, hrs, fun r hr => (hall r hr).2, hpair⟩

/-- A long start code before 67 00 00 03 01, a short one before 68 01. -/
def twoUnits : List NalUnit :=
  [⟨true, [0x67, 0, 0, 3, 1], by decide, by decide, by decide, by decide⟩,
    ⟨false, [0x68, 1], by decide, by decide, by decide, by decide⟩]

theorem nal_units_exact_twoUnits : rbspEscape [0x67, 0, 0, 1] 6 = some [0x67, 0, 0, 3, 1] ∧
    rbspUnescape [0x67, 0, 0, 3, 1] 4 = [0x67, 0, 0, 1] ∧
    scUnits (stream twoUnits) 15 (scIterInit (stream twoUnits)) = some [(4, 9), (12, 14)] :=
  ⟨by decide, (nal_units_exact.2.1 _ 6 _ (by decide)).2 4 (by decide), nal_units_exact.2.2.1 twoUnits 15 (by decide)⟩

end DvbIpiTools.Nal
