import Mathlib.Data.List.Infix
import DvbIpiTools.Demux.SectionAsm

set_option autoImplicit false

/-! # Sections in a stream of packets

What a conforming multiplexer may put into the packets of a PID, and that the assembler reads the
sections back. Between two packets the assembler is either idle or has the first bytes of one section;
`Matches` says which. -/

namespace DvbIpiTools.Demux

open BeUtil List

/-- A section: its length is the one in its header. -/
structure Section where
  bytes : List UInt8
  four_le : 4 ≤ bytes.length
  le_max : bytes.length ≤ sectionAsmBufLen
  length_eq : tspackLength12 bytes 1 + 3 = bytes.length
  tableId_ne : bytes.getD 0 0 ≠ 0xFF

theorem Section.eq_of_bytes {s t : Section} (h : s.bytes = t.bytes) : s = t := by
  cases s
  cases t
  cases h
  rfl

/-- A section of which the first bytes were sent. -/
structure Pending where
  sec : Section
  sent : Nat
  sent_lt : sent < sec.bytes.length

namespace SectionAsm

/-! ## One section through `consume` -/

/-- The assembler with the first `k` bytes of a section. -/
def atPos (a : SectionAsm) (s : Section) (k : Nat) : SectionAsm :=
  { a with active := true, buf := s.bytes.take k, expect := if k < 3 then 0 else s.bytes.length }

/-- The assembler after the last byte of a section. -/
def finished (a : SectionAsm) (s : Section) (next : Nat) : SectionAsm :=
  { a with active := false, buf := s.bytes, expect := s.bytes.length, next }

theorem restart_eq_atPos (a : SectionAsm) (s : Section) : a.restart = a.atPos s 0 := rfl

theorem length12_take (s : Section) : tspackLength12 (s.bytes.take 3) 1 + 3 = s.bytes.length := by
  rw [← s.length_eq]
  simp [tspackLength12, byteAt, getD_eq_getElem?_getD]

variable {s : Section} {k : Nat}

theorem consume_header (a : SectionAsm) (hk : k < 3) {b : UInt8} (hb : s.bytes[k]? = some b) (bs : List UInt8)
    (i : Nat) : (a.atPos s k).consume (b :: bs) i = (a.atPos s (k + 1)).consume bs (i + 1) := by
  have hlen := s.four_le
  have hmax := s.le_max
  have htake : (s.bytes.take k).length = k := by
    rw [length_take]
    omega
  have hbuf : s.bytes.take k ++ [b] = s.bytes.take (k + 1) := by
    rw [take_add_one, hb]
    rfl
  have htake' : (s.bytes.take (k + 1)).length = k + 1 := by
    rw [length_take]
    omega
  have hroom : k < sectionAsmBufLen := lt_trans hk (by decide)
  rw [consume]
  simp only [atPos, hk, if_true, htake, hroom, hbuf, htake']
  by_cases h3 : k + 1 ≥ 3
  · obtain rfl : k = 2 := by omega
    rw [if_pos h3, length12_take s, if_neg (by omega)]
    rfl
  · rw [if_neg h3, if_pos (by omega)]

theorem consume_part (a : SectionAsm) {n : Nat} (h : k + n < s.bytes.length) (i : Nat) :
    (a.atPos s k).consume ((s.bytes.drop k).take n) i = (false, a.atPos s (k + n)) := by
  induction n generalizing k i with
  | zero =>
    rw [take_zero]
    rfl
  | succ n ih =>
    have hdrop : s.bytes.drop k = s.bytes[k] :: s.bytes.drop (k + 1) := drop_eq_getElem_cons (by omega)
    by_cases hk : k < 3
    · rw [hdrop, take_succ_cons, consume_header a hk (getElem?_eq_getElem (by omega)),
        ih (by omega), add_right_comm, add_assoc]
    -- the length is known: what is there is taken at once
    have hlen : (s.bytes.take k).length = k := by
      rw [length_take]
      omega
    have hpart : ((s.bytes.drop k).take (n + 1)).length = n + 1 := by
      rw [length_take, length_drop]
      omega
    rw [hdrop, take_succ_cons, consume]
    rw [← take_succ_cons, ← hdrop]
    have hne : s.bytes.length ≠ 0 := by omega
    have hmin : min (s.bytes.length - k) (n + 1) = n + 1 := by omega
    simp only [atPos, hk, if_false, hlen, hpart, hmin, hne, take_take, Nat.min_self]
    rw [← take_add, length_take, if_neg (by omega), if_neg (by omega)]

theorem consume_finish (a : SectionAsm) (hk : k < s.bytes.length) (rest : List UInt8) (i : Nat) :
    (a.atPos s k).consume (s.bytes.drop k ++ rest) i = (true, a.finished s (i + (s.bytes.length - k))) := by
  obtain ⟨m, hm⟩ : ∃ m, m = 3 - k := ⟨_, rfl⟩
  induction m generalizing k i with
  | zero =>
    have hlen : (s.bytes.take k).length = k := by
      rw [length_take]
      omega
    have hdrop : s.bytes.drop k ++ rest = s.bytes[k] :: (s.bytes.drop (k + 1) ++ rest) := by
      rw [drop_eq_getElem_cons hk, cons_append]
    have htake : (s.bytes.drop k ++ rest).take (s.bytes.length - k) = s.bytes.drop k := by
      rw [take_append_of_le_length (by rw [length_drop]), take_of_length_le]
      rw [length_drop]
    have hmin : min (s.bytes.length - k) (s.bytes.drop k ++ rest).length = s.bytes.length - k := by
      rw [length_append, length_drop]
      omega
    have hne : s.bytes.length ≠ 0 := by omega
    rw [hdrop, consume, ← hdrop]
    simp only [atPos, show ¬ k < 3 by omega, if_false, hlen, hmin, htake, hne,
      take_append_drop, ge_iff_le, Nat.le_refl, if_true]
    rfl
  | succ m ih =>
    have hlen := s.four_le
    rw [drop_eq_getElem_cons hk, cons_append,
      consume_header a (by omega) (getElem?_eq_getElem hk), ih (by omega) _ (by omega)]
    congr 2
    omega

end SectionAsm

/-! ## What a packet may carry -/

/-- How the sections of a payload end: with stuffing, or with the first bytes of one more section. -/
inductive BodyEnd
  | stuffing (n : Nat)
  | part (p : Pending) (sent_pos : 0 < p.sent)

namespace BodyEnd

def bytes : BodyEnd → List UInt8
  | stuffing n => replicate n 0xFF
  | part p _ => p.sec.bytes.take p.sent

/-- What is pending afterwards. -/
def pending : BodyEnd → Option Pending
  | stuffing _ => none
  | part p _ => some p

end BodyEnd

/-- The bytes that are missing of the pending section. -/
def restOf : Option Pending → List UInt8
  | none => []
  | some p => p.sec.bytes.drop p.sent

/-- The pending section itself. -/
def pendingSec : Option Pending → List Section
  | none => []
  | some p => [p.sec]

/-- The bytes of several sections back to back. -/
def flatBytes (secs : List Section) : List UInt8 := secs.flatMap Section.bytes

/-- `Carries st pl pusi fin new st'`: with `st` pending, a packet may have the payload `pl` and the start
    indicator `pusi`. It finishes the sections `fin`; `new` are those of them that start in it. -/
inductive Carries : Option Pending → List UInt8 → Bool → List Section → List Section → Option Pending → Prop
  /-- a further part of the pending section -/
  | more (p : Pending) (n : Nat) (h : p.sent + n < p.sec.bytes.length) :
      Carries (some p) ((p.sec.bytes.drop p.sent).take n) false [] [] (some ⟨p.sec, p.sent + n, h⟩)
  /-- the end of the pending section, then stuffing -/
  | last (p : Pending) (n : Nat) :
      Carries (some p) (p.sec.bytes.drop p.sent ++ replicate n 0xFF) false [p.sec] [] none
  /-- nothing pending and nothing started -/
  | quiet (pl : List UInt8) : Carries none pl false [] [] none
  /-- the end of the pending section, if any, behind the pointer field; then sections that start here -/
  | start (st : Option Pending) (ptr : UInt8) (secs : List Section) (e : BodyEnd)
      (hptr : ptr.toNat = (restOf st).length) (hnew : secs ≠ [] ∨ e.pending ≠ none) :
      Carries st (ptr :: (restOf st ++ (flatBytes secs ++ e.bytes))) true (pendingSec st ++ secs) secs
        e.pending

/-- `Stream last st pkts secs`: the packets of a PID that finish the sections `secs`, with the counter
    `last` before them and `st` pending. Packets without payload may stand anywhere. -/
inductive Stream : Option Nat → Option Pending → List (List UInt8) → List Section → Prop
  | nil (last : Option Nat) (st : Option Pending) : Stream last st [] []
  | other {last : Option Nat} {st : Option Pending} {pkt : List UInt8} {pkts : List (List UInt8)}
      {secs : List Section} (hpl : tspackPayload pkt = none) (hrest : Stream last st pkts secs) :
      Stream last st (pkt :: pkts) secs
  | once {last : Option Nat} {st st' : Option Pending} {pkt pl : List UInt8} {pusi : Bool}
      {fin new secs : List Section} {pkts : List (List UInt8)}
      (hpl : tspackPayload pkt = some (pl, pusi)) (hcc : ∀ c, last = some c → pktCc pkt = (c + 1) &&& 0x0F)
      (hcarry : Carries st pl pusi fin new st') (hrest : Stream (some (pktCc pkt)) st' pkts secs) :
      Stream last st (pkt :: pkts) (fin ++ secs)

/-- `Doubled xs ys`: `ys` is `xs` with some of its elements sent twice. -/
inductive Doubled {α : Type} : List α → List α → Prop
  | nil : Doubled [] []
  | once (x : α) {xs ys : List α} (h : Doubled xs ys) : Doubled (x :: xs) (x :: ys)
  | twice (x : α) {xs ys : List α} (h : Doubled xs ys) : Doubled (x :: xs) (x :: x :: ys)

variable {α : Type}

theorem Doubled.refl (xs : List α) : Doubled xs xs := by
  induction xs with
  | nil => exact .nil
  | cons x xs ih => exact .once x ih

/-- `Replays xs ys`: `ys` is `xs`, except that the end of what one packet brought may stand there twice
    in a row. -/
inductive Replays {α : Type} : List α → List α → Prop
  | nil : Replays [] []
  | once (block : List α) {xs ys : List α} (h : Replays xs ys) : Replays (block ++ xs) (block ++ ys)
  | twice (block : List α) {again xs ys : List α} (hagain : again <:+ block) (h : Replays xs ys) :
      Replays (block ++ xs) (block ++ (again ++ ys))

theorem Replays.sublist {xs ys : List α} (h : Replays xs ys) : xs.Sublist ys := by
  induction h with
  | nil => exact Sublist.refl []
  | once block _ ih => exact (Sublist.refl block).append ih
  | twice block _ _ ih => exact (Sublist.refl block).append (ih.trans (sublist_append_right _ _))

theorem Replays.subset {xs ys : List α} (h : Replays xs ys) : ys ⊆ xs := by
  induction h with
  | nil => exact Subset.refl []
  | once block _ ih => exact append_subset.2 ⟨subset_append_left _ _, fun _ hx => mem_append_right _ (ih hx)⟩
  | twice block hagain _ ih =>
    refine append_subset.2 ⟨subset_append_left _ _, append_subset.2 ⟨?_, ?_⟩⟩
    · exact fun _ hx => mem_append_left _ (hagain.subset hx)
    · exact fun _ hx => mem_append_right _ (ih hx)

namespace SectionAsm

/-- The assembler has what was sent of the pending section. -/
def Matches (a : SectionAsm) : Option Pending → Prop
  | none => a.active = false
  | some p => a = a.atPos p.sec p.sent

/-- The counter the assembler has seen last. -/
def SeenCc (a : SectionAsm) : Option Nat → Prop
  | none => a.ccSeen = false
  | some c => a.ccSeen = true ∧ a.cc = c

/-- The counter of `a'` is that of `a`. -/
def SameCc (a a' : SectionAsm) : Prop := a'.ccSeen = a.ccSeen ∧ a'.cc = a.cc

variable {a : SectionAsm}

theorem Matches.zeroNext {p : Pending} (h : a.Matches (some p)) :
    ({ a with next := 0 } : SectionAsm) = ({ a with next := 0 } : SectionAsm).atPos p.sec p.sent :=
  congrArg (fun b : SectionAsm => { b with next := 0 }) h

/-! ## The sections of a payload -/

variable {pl : List UInt8}

theorem nextSection_start (a : SectionAsm) {i : Nat} (hi : i ≠ 0) {b : UInt8}
    {bs : List UInt8} (hdrop : pl.drop i = b :: bs) (hb : b ≠ 0xFF) :
    nextSection { a with next := i } pl = ({ a with next := 0 } : SectionAsm).restart.consume (pl.drop i) i := by
  have hlt : i < pl.length := by
    by_contra hge
    rw [drop_eq_nil_of_le (by omega)] at hdrop
    cases hdrop
  have hget : pl.getD i 0 = b := by
    rw [getD_eq_getElem _ _ hlt]
    rw [drop_eq_getElem_cons hlt] at hdrop
    exact (cons.inj hdrop).1
  rw [nextSection, hget]
  simp only [hi, hb, false_or, or_false]
  rw [if_neg (by omega)]

theorem nextSection_stop (a : SectionAsm) {i n : Nat} (hdrop : pl.drop i = replicate n 0xFF) :
    nextSection { a with next := i } pl = (false, { a with next := 0 }) := by
  rw [nextSection]
  refine if_pos ?_
  by_cases hlt : i < pl.length
  · refine .inr (.inr ?_)
    have hlen := congrArg length hdrop
    rw [length_drop, length_replicate] at hlen
    rw [drop_eq_getElem_cons hlt, show n = n - 1 + 1 by omega, replicate_succ] at hdrop
    rw [getD_eq_getElem _ _ hlt]
    exact (cons.inj hdrop).1
  · exact .inr (.inl (not_lt.1 hlt))

theorem exists_head {s : Section} {rest : List UInt8} : ∃ b bs, s.bytes ++ rest = b :: bs ∧ b ≠ 0xFF := by
  have hlen := s.four_le
  have htable := s.tableId_ne
  cases hs : s.bytes with
  | nil =>
    rw [hs] at hlen
    cases hlen
  | cons b bs =>
    rw [hs, getD_cons_zero] at htable
    exact ⟨b, bs ++ rest, rfl, htable⟩

theorem exists_head_take {s : Section} {k : Nat} (hk : 0 < k) : ∃ b bs, s.bytes.take k = b :: bs ∧ b ≠ 0xFF := by
  obtain ⟨b, bs, hs, hb⟩ := @exists_head s []
  rw [append_nil] at hs
  obtain ⟨k, rfl⟩ : ∃ m, k = m + 1 := ⟨k - 1, by omega⟩
  exact ⟨b, bs.take k, by rw [hs, take_succ_cons], hb⟩

/-- The sections that start in a payload, one after the other, and what is pending behind them. -/
theorem drain_body {pl : List UInt8} (secs : List Section) (e : BodyEnd) (a : SectionAsm) {i fuel : Nat}
    (hi : i ≠ 0) (hdrop : pl.drop i = flatBytes secs ++ e.bytes) (hfuel : secs.length < fuel) :
    ∃ a', drain pl fuel (nextSection { a with next := i } pl) = (secs.map Section.bytes, a') ∧
      (a.active = false ∨ secs ≠ [] ∨ e.pending ≠ none → a'.Matches e.pending) ∧ SameCc a a' := by
  induction secs generalizing a i fuel with
  | nil =>
    obtain ⟨fuel, rfl⟩ : ∃ f, fuel = f + 1 := ⟨fuel - 1, by omega⟩
    rw [flatBytes, flatMap_nil, nil_append] at hdrop
    cases e with
    | stuffing n =>
      rw [nextSection_stop a hdrop]
      refine ⟨_, rfl, ?_, rfl, rfl⟩
      rintro (h | h | h)
      · exact h
      · exact absurd rfl h
      · exact absurd rfl h
    | part p hpos =>
      obtain ⟨b, bs, hhead, hb⟩ := @exists_head_take p.sec p.sent hpos
      have hpart := consume_part ({ a with next := 0 } : SectionAsm) (s := p.sec) (k := 0)
        (by rw [zero_add]; exact p.sent_lt) i
      rw [drop_zero, zero_add] at hpart
      rw [nextSection_start a hi (hdrop.trans hhead) hb, hdrop]
      refine ⟨({ a with next := 0 } : SectionAsm).atPos p.sec p.sent, ?_, fun _ => rfl, rfl, rfl⟩
      rw [restart_eq_atPos _ p.sec]
      show drain pl (fuel + 1) (consume _ (p.sec.bytes.take p.sent) i) = _
      rw [hpart]
      rfl
  | cons s secs ih =>
    obtain ⟨fuel, rfl⟩ : ∃ f, fuel = f + 1 := ⟨fuel - 1, by omega⟩
    have hflat : pl.drop i = s.bytes ++ (flatBytes secs ++ e.bytes) := by
      rw [hdrop, flatBytes, flatMap_cons, append_assoc]
      rfl
    obtain ⟨b, bs, hhead, hb⟩ := @exists_head s (flatBytes secs ++ e.bytes)
    have hlen := s.four_le
    have hfin := consume_finish ({ a with next := 0 } : SectionAsm) (s := s) (k := 0) (by omega)
      (flatBytes secs ++ e.bytes) i
    rw [drop_zero, Nat.sub_zero] at hfin
    have hrest : pl.drop (i + s.bytes.length) = flatBytes secs ++ e.bytes := by
      rw [← drop_drop, hflat, drop_left]
    obtain ⟨a', hdrain, hmatch, hcc⟩ := ih (a.finished s 0) (by omega) hrest
      (show secs.length < fuel by rw [length_cons] at hfuel; omega)
    refine ⟨a', ?_, fun _ => hmatch (.inl rfl), hcc⟩
    rw [nextSection_start a hi (hflat.trans hhead) hb, restart_eq_atPos _ s, hflat, hfin, drain]
    have hnext : ({ a with next := 0 } : SectionAsm).finished s (i + s.bytes.length) =
        { a.finished s 0 with next := i + s.bytes.length } := rfl
    rw [hnext, hdrain]
    rfl

theorem length_le_flatBytes (secs : List Section) : secs.length ≤ (flatBytes secs).length := by
  induction secs with
  | nil => exact le_rfl
  | cons s secs ih =>
    have hlen := s.four_le
    rw [flatBytes, flatMap_cons, length_append, length_cons]
    rw [flatBytes] at ih
    omega

theorem feed_idle (ha : a.active = false) (pl : List UInt8) : a.feed pl false = (false, { a with next := 0 }) := by
  simp [feed, ha]

theorem feed_active (ha : a.active = true) (pl : List UInt8) :
    a.feed pl false = ({ a with next := 0 } : SectionAsm).consume pl 0 := by
  simp [feed, ha]

variable {ptr : UInt8}

theorem feed_pusi_idle (ha : a.active = false) {rest : List UInt8} (hptr : ptr.toNat ≤ rest.length) :
    a.feed (ptr :: rest) true = ({ a with next := 0 } : SectionAsm).restart.consume
      ((ptr :: rest).drop (1 + ptr.toNat)) (1 + ptr.toNat) := by
  have hlen : ¬ 1 + ptr.toNat > (ptr :: rest).length := by
    rw [length_cons]
    omega
  simp only [feed, if_true, if_neg hlen, ha, Bool.false_and, Bool.false_eq_true, if_false]

theorem feed_pusi_active {a' : SectionAsm} (ha : a.active = true) (hne : ptr ≠ 0)
    {rest : List UInt8} (hptr : ptr.toNat ≤ rest.length)
    (hfin : ({ a with next := 0 } : SectionAsm).consume (rest.take ptr.toNat) 1 = (true, a')) :
    a.feed (ptr :: rest) true = (true, { a' with next := 1 + ptr.toNat }) := by
  have hlen : ¬ 1 + ptr.toNat > (ptr :: rest).length := by
    rw [length_cons]
    omega
  have hcond : (a.active && decide (ptr ≠ 0)) = true := by simp [ha, hne]
  simp only [feed, if_true, if_neg hlen, hcond, hfin]

/-- The sections that start in a payload, for an assembler that has none pending. -/
theorem feed_start_idle (ha : a.active = false) {skip : List UInt8} (hptr : ptr.toNat = skip.length)
    (secs : List Section) (e : BodyEnd) (hnew : secs ≠ [] ∨ e.pending ≠ none) :
    ∃ a', a.feedPayload (ptr :: (skip ++ (flatBytes secs ++ e.bytes))) true =
      (secs.map Section.bytes, a') ∧ a'.Matches e.pending ∧ SameCc a a' := by
  have hlen := length_le_flatBytes secs
  have hdrop : (ptr :: (skip ++ (flatBytes secs ++ e.bytes))).drop (1 + ptr.toNat) = flatBytes secs ++ e.bytes := by
    rw [add_comm, drop_succ_cons, hptr, drop_left]
  obtain ⟨a', hdrain, hmatch, hcc⟩ := @drain_body (ptr :: (skip ++ (flatBytes secs ++ e.bytes))) secs e a
    (1 + ptr.toNat) ((ptr :: (skip ++ (flatBytes secs ++ e.bytes))).length + 1) (by omega) hdrop (by
      simp only [length_cons, length_append]
      omega)
  refine ⟨a', ?_, hmatch (.inr hnew), hcc⟩
  -- a section starts here, so the feed goes on as `psi_section_asm_next` would
  obtain ⟨b, bs, hhead, hb⟩ : ∃ b bs, flatBytes secs ++ e.bytes = b :: bs ∧ b ≠ 0xFF := by
    cases secs with
    | cons s secs =>
      rw [flatBytes, flatMap_cons, append_assoc]
      exact exists_head
    | nil =>
      rw [flatBytes, flatMap_nil, nil_append]
      cases e with
      | stuffing n => exact absurd (hnew.resolve_left (fun h => h rfl)) (fun h => h rfl)
      | part p hpos => exact exists_head_take hpos
  rw [← hdrain, nextSection_start a (by omega) (hdrop.trans hhead) hb, feedPayload,
    feed_pusi_idle ha (by rw [length_append]; omega)]

/-- The end of the pending section behind the pointer field, then those that start in the payload. -/
theorem feed_start_pending {p : Pending} (ha : a.Matches (some p))
    (hptr : ptr.toNat = (p.sec.bytes.drop p.sent).length) (secs : List Section) (e : BodyEnd) :
    ∃ a', a.feedPayload (ptr :: (p.sec.bytes.drop p.sent ++ (flatBytes secs ++ e.bytes))) true =
      (p.sec.bytes :: secs.map Section.bytes, a') ∧ a'.Matches e.pending ∧ SameCc a a' := by
  have hlen := length_le_flatBytes secs
  have hsent := p.sent_lt
  have hpos : ptr ≠ 0 := by
    rintro rfl
    rw [length_drop] at hptr
    change 0 = _ at hptr
    omega
  have hdrop : (ptr :: (p.sec.bytes.drop p.sent ++ (flatBytes secs ++ e.bytes))).drop (1 + ptr.toNat) =
      flatBytes secs ++ e.bytes := by
    rw [add_comm, drop_succ_cons, hptr, drop_left]
  have htake : (p.sec.bytes.drop p.sent ++ (flatBytes secs ++ e.bytes)).take ptr.toNat =
      p.sec.bytes.drop p.sent ++ [] := by
    rw [hptr, take_left, append_nil]
  have hactive : a.active = true := by rw [ha]; rfl
  have hfin : ({ a with next := 0 } : SectionAsm).consume
      ((p.sec.bytes.drop p.sent ++ (flatBytes secs ++ e.bytes)).take ptr.toNat) 1 =
      (true, (a.finished p.sec (1 + (p.sec.bytes.length - p.sent)))) := by
    rw [htake, ha.zeroNext, consume_finish _ hsent]
    rfl
  obtain ⟨a', hdrain, hmatch, hcc⟩ := @drain_body
    (ptr :: (p.sec.bytes.drop p.sent ++ (flatBytes secs ++ e.bytes))) secs e (a.finished p.sec 0)
    (1 + ptr.toNat) (ptr :: (p.sec.bytes.drop p.sent ++ (flatBytes secs ++ e.bytes))).length
    (by omega) hdrop (by
      simp only [length_cons, length_append]
      omega)
  refine ⟨a', ?_, hmatch (.inl rfl), hcc⟩
  rw [feedPayload, feed_pusi_active hactive hpos (by rw [length_append]; omega) hfin, drain]
  have hnext : ({ a.finished p.sec (1 + (p.sec.bytes.length - p.sent)) with
      next := 1 + ptr.toNat } : SectionAsm) = { a.finished p.sec 0 with next := 1 + ptr.toNat } := rfl
  rw [hnext, hdrain]
  rfl

variable {st st' : Option Pending} {pusi : Bool} {fin new : List Section}

theorem feed_carries (h : Carries st pl pusi fin new st') (ha : a.Matches st) :
    ∃ a', a.feedPayload pl pusi = (fin.map Section.bytes, a') ∧ a'.Matches st' ∧ SameCc a a' := by
  cases h with
  | more p n hlt =>
    have hactive : a.active = true := by rw [ha]; rfl
    refine ⟨({ a with next := 0 } : SectionAsm).atPos p.sec (p.sent + n), ?_, rfl, rfl, rfl⟩
    rw [feedPayload, feed_active hactive, Matches.zeroNext ha, consume_part _ hlt]
    rfl
  | last p n =>
    have hsent := p.sent_lt
    have hactive : a.active = true := by rw [ha]; rfl
    have hdrop : (p.sec.bytes.drop p.sent ++ replicate n 0xFF).drop
        (p.sec.bytes.length - p.sent) = replicate n 0xFF := by
      rw [← length_drop, drop_left]
    obtain ⟨a', hdrain, hmatch, hcc⟩ := @drain_body
      (p.sec.bytes.drop p.sent ++ replicate n 0xFF) [] (.stuffing n) (a.finished p.sec 0)
      (p.sec.bytes.length - p.sent) (p.sec.bytes.drop p.sent ++ replicate n 0xFF).length
      (by omega) hdrop (by
        rw [length_append, length_drop, length_nil]
        omega)
    refine ⟨a', ?_, hmatch (.inl rfl), hcc⟩
    rw [feedPayload, feed_active hactive, Matches.zeroNext ha, consume_finish _ hsent, zero_add, drain]
    have hnext : ({ a with next := 0 } : SectionAsm).finished p.sec (p.sec.bytes.length - p.sent) =
        { a.finished p.sec 0 with next := p.sec.bytes.length - p.sent } := rfl
    rw [hnext, hdrain]
    rfl
  | quiet =>
    refine ⟨{ a with next := 0 }, ?_, ha, rfl, rfl⟩
    rw [feedPayload, feed_idle ha]
    rfl
  | start st ptr _ e hptr hnew =>
    cases st with
    | none => exact feed_start_idle ha hptr new e hnew
    | some p => exact feed_start_pending ha hptr new e

/-- The same payload once more, when the first time left nothing pending. -/
theorem feed_again (h : Carries st pl pusi fin new none) (ha : a.active = false) :
    ∃ a', a.feedPayload pl pusi = (new.map Section.bytes, a') ∧ a'.active = false ∧ SameCc a a' := by
  generalize hst' : (none : Option Pending) = st' at h
  have hquiet : ∀ pl, a.feedPayload pl false = ([], { a with next := 0 }) := by
    intro pl
    rw [feedPayload, feed_idle ha]
    rfl
  cases h with
  | more p n hlt => cases hst'
  | start st ptr _ e hptr hnew =>
    obtain ⟨a', heq, hmatch, hcc⟩ := feed_start_idle ha hptr new e hnew
    rw [← hst'] at hmatch
    exact ⟨a', heq, hmatch, hcc⟩
  | _ => exact ⟨_, hquiet _, ha, rfl, rfl⟩

/-! ## Counters -/

theorem Matches.withCc (h : a.Matches st) (c : Nat) : ({ a with ccSeen := true, cc := c } : SectionAsm).Matches st := by
  cases st with
  | none => exact h
  | some p => exact congrArg (fun b : SectionAsm => { b with ccSeen := true, cc := c }) h

variable {last : Option Nat} {pkt : List UInt8}

theorem stepCc_next (ha : a.SeenCc last) (hcc : ∀ c, last = some c → pktCc pkt = (c + 1) &&& 0x0F) :
    a.stepCc pkt = some { a with ccSeen := true, cc := pktCc pkt } := by
  cases last with
  | none =>
    have ha : a.ccSeen = false := ha
    simp [stepCc, ha]
  | some c =>
    obtain ⟨hseen, rfl⟩ : a.ccSeen = true ∧ a.cc = c := ha
    have hnext := hcc _ rfl
    have hne : pktCc pkt ≠ a.cc := by
      rw [hnext, show (0x0F : Nat) = 2 ^ 4 - 1 from rfl, Nat.and_two_pow_sub_one_eq_mod]
      omega
    simp [stepCc, hseen, hne, ← hnext]

theorem stepCc_again_active (ha : a.SeenCc (some (pktCc pkt))) (hactive : a.active = true) : a.stepCc pkt = none := by
  obtain ⟨hseen, hcc⟩ : a.ccSeen = true ∧ a.cc = pktCc pkt := ha
  simp [stepCc, hseen, hcc, hactive]

theorem stepCc_again_idle (ha : a.SeenCc (some (pktCc pkt))) (hidle : a.active = false) : a.stepCc pkt = some a := by
  obtain ⟨active, ccSeen, cc, expect, next, buf⟩ := a
  obtain ⟨rfl, rfl⟩ : ccSeen = true ∧ cc = pktCc pkt := ha
  obtain rfl : active = false := hidle
  simp [stepCc]

/-! ## Streams -/

theorem feedPackets_append (a : SectionAsm) (before after : List (List UInt8)) : a.feedPackets (before ++ after) =
      ((a.feedPackets before).1 ++ ((a.feedPackets before).2.feedPackets after).1,
        ((a.feedPackets before).2.feedPackets after).2) := by
  induction before generalizing a with
  | nil => rfl
  | cons pkt before ih => simp only [cons_append, SectionAsm.feedPackets, ih, append_assoc]

theorem feedPacket_carries
    (hpl : tspackPayload pkt = some (pl, pusi)) (hcc : ∀ c, last = some c → pktCc pkt = (c + 1) &&& 0x0F)
    (hcarry : Carries st pl pusi fin new st') (ha : a.Matches st) (hlast : a.SeenCc last) :
    ∃ a', a.feedPacket pkt = (fin.map Section.bytes, a') ∧ a'.Matches st' ∧ a'.SeenCc (some (pktCc pkt)) := by
  obtain ⟨a', heq, hmatch, hseen, hc⟩ := feed_carries hcarry (ha.withCc (pktCc pkt))
  refine ⟨a', ?_, hmatch, hseen, hc⟩
  simp only [feedPacket, hpl, stepCc_next hlast hcc, heq]

/-- Behind a pointer field of zero a section starts, whatever was pending. -/
theorem feedPacket_restart (hlast : a.SeenCc last) {body : List UInt8}
    (hpl : tspackPayload pkt = some (0 :: body, true)) (hcc : ∀ c, last = some c → pktCc pkt = (c + 1) &&& 0x0F) :
    a.feedPacket pkt = ({ a with active := false } : SectionAsm).feedPacket pkt := by
  have hlast' : ({ a with active := false } : SectionAsm).SeenCc last := by cases last <;> exact hlast
  have hfeed : ∀ a : SectionAsm, a.feed (0 :: body) true =
      ({ a with active := false } : SectionAsm).feed (0 :: body) true := by
    intro a
    have hzero : ∀ active : Bool, (active && decide ((0 : UInt8) ≠ 0)) = false := by decide
    simp only [feed, if_true, hzero, Bool.false_eq_true, if_false, restart]
  simp only [feedPacket, hpl, stepCc_next hlast hcc, stepCc_next hlast' hcc, feedPayload]
  rw [hfeed]

/-- The same packet once more: skipped inside a section, and else its sections come again. -/
theorem feedPacket_again (hpl : tspackPayload pkt = some (pl, pusi)) (hcarry : Carries st pl pusi fin new st')
    (ha : a.Matches st') (hlast : a.SeenCc (some (pktCc pkt))) :
    ∃ again a', a.feedPacket pkt = (again.map Section.bytes, a') ∧ again <:+ new ∧ a'.Matches st' ∧
      a'.SeenCc (some (pktCc pkt)) := by
  cases st' with
  | some p =>
    have hactive : a.active = true := by rw [ha]; rfl
    refine ⟨[], a, ?_, nil_suffix, ha, hlast⟩
    simp only [feedPacket, hpl, stepCc_again_active hlast hactive, map_nil]
  | none =>
    obtain ⟨a', heq, hidle, hseen, hc⟩ := feed_again hcarry ha
    refine ⟨new, a', ?_, suffix_rfl, hidle, hseen.trans hlast.1, hc.trans hlast.2⟩
    simp only [feedPacket, hpl, stepCc_again_idle hlast ha, heq]

theorem Carries.suffix (h : Carries st pl pusi fin new st') : new <:+ fin := by
  cases h with
  | last => exact nil_suffix
  | start => exact suffix_append _ _
  | _ => exact suffix_rfl

/-- The assembler reads the sections of a stream back, whichever packets are sent twice. -/
theorem feedPackets_stream {pkts : List (List UInt8)} {secs : List Section} (h : Stream last st pkts secs)
    {sent : List (List UInt8)} (hsent : Doubled pkts sent) (ha : a.Matches st) (hlast : a.SeenCc last) :
    ∃ out, (a.feedPackets sent).1 = out.map Section.bytes ∧ Replays secs out := by
  induction h generalizing a sent with
  | nil =>
    cases hsent with
    | nil => exact ⟨[], rfl, .nil⟩
  | other hpl _ ih =>
    cases hsent with
    | once _ hrest | twice _ hrest =>
      obtain ⟨out, heq, hreplay⟩ := ih hrest ha hlast
      refine ⟨out, ?_, hreplay⟩
      simp only [feedPackets, feedPacket, hpl, nil_append, heq]
  | once hpl hcc hcarry _ ih =>
    obtain ⟨a', hfeed, hmatch, hseen⟩ := feedPacket_carries hpl hcc hcarry ha hlast
    cases hsent with
    | once _ hrest =>
      obtain ⟨out, heq, hreplay⟩ := ih hrest hmatch hseen
      refine ⟨_ ++ out, ?_, .once _ hreplay⟩
      simp only [feedPackets, hfeed, heq, map_append]
    | twice _ hrest =>
      obtain ⟨again, a'', hfeed', hsuffix, hmatch', hseen'⟩ := feedPacket_again hpl hcarry hmatch hseen
      obtain ⟨out, heq, hreplay⟩ := ih hrest hmatch' hseen'
      refine ⟨_ ++ (again ++ out), ?_, .twice _ (hsuffix.trans (Carries.suffix hcarry)) hreplay⟩
      simp only [feedPackets, hfeed, hfeed', heq, map_append]

/-! ## After a gap -/

/-- The assemblers differ at most in what an idle one has left over. -/
structure Like (a b : SectionAsm) : Prop where
  ccSeen : a.ccSeen = b.ccSeen
  cc : a.cc = b.cc
  active : a.active = b.active
  buf : a.active = true → a.buf = b.buf ∧ a.expect = b.expect

variable {b : SectionAsm}

theorem Like.of_idle (hseen : a.ccSeen = b.ccSeen) (hcc : a.cc = b.cc)
    (ha : a.active = false) (hb : b.active = false) : Like a b :=
  ⟨hseen, hcc, ha.trans hb.symm, fun h => by rw [ha] at h; exact Bool.noConfusion h⟩

theorem Like.eq_of_active (h : Like a b) (ha : a.active = true) :
    ({ a with next := 0 } : SectionAsm) = { b with next := 0 } := by
  obtain ⟨hbuf, hexpect⟩ := h.buf ha
  rw [h.ccSeen, h.cc, h.active, hbuf, hexpect]

theorem Like.feedPayload (h : Like a b) (pl : List UInt8) (pusi : Bool) :
    (a.feedPayload pl pusi).1 = (b.feedPayload pl pusi).1 ∧
      Like (a.feedPayload pl pusi).2 (b.feedPayload pl pusi).2 := by
  have hsame : a.feed pl pusi = b.feed pl pusi ∨
      ∃ a' b', a.feed pl pusi = (false, a') ∧ b.feed pl pusi = (false, b') ∧ Like a' b' := by
    cases hactive : a.active with
    | true =>
      have hzero : ∀ c : SectionAsm, c.feed pl pusi = ({ c with next := 0 } : SectionAsm).feed pl pusi :=
        fun _ => rfl
      refine .inl ?_
      rw [hzero a, hzero b, h.eq_of_active hactive]
    | false =>
      have hb : b.active = false := h.active.symm.trans hactive
      cases pusi with
      | false => exact .inr ⟨_, _, feed_idle hactive pl, feed_idle hb pl, .of_idle h.ccSeen h.cc hactive hb⟩
      | true =>
        cases pl with
        | nil => exact .inr ⟨_, _, rfl, rfl, .of_idle h.ccSeen h.cc hactive hb⟩
        | cons ptr rest =>
          by_cases hptr : ptr.toNat ≤ rest.length
          · refine .inl ?_
            rw [feed_pusi_idle hactive hptr, feed_pusi_idle hb hptr, restart, restart, h.ccSeen, h.cc]
          have hlen : 1 + ptr.toNat > (ptr :: rest).length := by
            rw [length_cons]
            omega
          refine .inr ⟨{ a with next := 0, active := false }, { b with next := 0, active := false },
            ?_, ?_, .of_idle h.ccSeen h.cc rfl rfl⟩
          · simp only [feed, if_true, if_pos hlen]
          · simp only [feed, if_true, if_pos hlen]
  rw [SectionAsm.feedPayload, SectionAsm.feedPayload]
  rcases hsame with heq | ⟨a', b', ha, hb, hlike⟩
  · rw [heq]
    exact ⟨rfl, rfl, rfl, rfl, fun _ => ⟨rfl, rfl⟩⟩
  · rw [ha, hb]
    exact ⟨rfl, hlike⟩

theorem Like.feedPacket (h : Like a b) (pkt : List UInt8) :
    (a.feedPacket pkt).1 = (b.feedPacket pkt).1 ∧ Like (a.feedPacket pkt).2 (b.feedPacket pkt).2 := by
  simp only [SectionAsm.feedPacket]
  cases tspackPayload pkt with
  | none => exact ⟨rfl, h⟩
  | some r =>
    obtain ⟨pl, pusi⟩ := r
    have hstep : (a.stepCc pkt = none ∧ b.stepCc pkt = none) ∨
        ∃ a' b', a.stepCc pkt = some a' ∧ b.stepCc pkt = some b' ∧ Like a' b' := by
      simp only [stepCc, h.ccSeen, h.cc, h.active]
      by_cases hseen : b.ccSeen = true
      · simp only [hseen, if_true]
        by_cases hskip : pktCc pkt = b.cc ∧ b.active = true
        · exact .inl ⟨if_pos hskip, if_pos hskip⟩
        · rw [if_neg hskip, if_neg hskip]
          split
          · exact .inr ⟨_, _, rfl, rfl, .of_idle rfl rfl rfl rfl⟩
          · refine .inr ⟨_, _, rfl, rfl, rfl, rfl, rfl, fun hactive => h.buf (h.active.trans hactive)⟩
      · simp only [hseen]
        exact .inr ⟨_, _, rfl, rfl, rfl, rfl, rfl, fun hactive => h.buf (h.active.trans hactive)⟩
    rcases hstep with ⟨ha, hb⟩ | ⟨a', b', ha, hb, hlike⟩
    · simp only [ha, hb]
      exact ⟨trivial, h⟩
    · simp only [ha, hb]
      exact hlike.feedPayload pl pusi

theorem Like.feedPackets (h : Like a b) (pkts : List (List UInt8)) :
    (a.feedPackets pkts).1 = (b.feedPackets pkts).1 := by
  induction pkts generalizing a b with
  | nil => rfl
  | cons pkt pkts ih =>
    obtain ⟨hout, hlike⟩ := h.feedPacket pkt
    simp only [SectionAsm.feedPackets]
    rw [hout, ih hlike]

/-- The counter of a packet with payload is not the next one, and nothing excuses it. -/
structure Gap (a : SectionAsm) (pkt : List UInt8) : Prop where
  payload : tspackPayload pkt ≠ none
  seen : a.ccSeen = true
  cc_ne : pktCc pkt ≠ (a.cc + 1) &&& 0x0F
  not_disc : pktDisc pkt = false
  not_dup : ¬ (pktCc pkt = a.cc ∧ a.active = true)

/-- What comes out after a gap is what a new assembler makes of the packets after it. -/
theorem feedPackets_gap (h : Gap a pkt) (pkts : List (List UInt8)) :
    (a.feedPackets (pkt :: pkts)).1 = (({} : SectionAsm).feedPackets (pkt :: pkts)).1 := by
  obtain ⟨⟨pl, pusi⟩, hpl⟩ := Option.ne_none_iff_exists'.1 h.payload
  have hstep : a.stepCc pkt = some { a with active := false, cc := pktCc pkt } := by
    simp only [stepCc, h.seen, if_true]
    rw [if_neg h.not_dup, if_pos ⟨h.cc_ne, by rw [h.not_disc]; rfl⟩]
  have hfresh : ({} : SectionAsm).stepCc pkt = some { ccSeen := true, cc := pktCc pkt } := rfl
  have hlike : Like { a with active := false, cc := pktCc pkt } { ccSeen := true, cc := pktCc pkt } :=
    .of_idle h.seen rfl rfl rfl
  obtain ⟨hout, hrest⟩ := hlike.feedPayload pl pusi
  simp only [SectionAsm.feedPackets, SectionAsm.feedPacket, hpl, hstep, hfresh]
  rw [hout, hrest.feedPackets pkts]

end SectionAsm

end DvbIpiTools.Demux
