import DvbIpiTools.Bim.Codec.Texts
import DvbIpiTools.Demux.Fec2022

set_option autoImplicit false

/-! # The matrices that the repair header can name

`fec2022_parse_ld` and `fec2022_enc_new` bound the columns and the packets of a matrix. The header of a repair has
one byte for the columns and one for the rows, and the decoder compares the two bytes with its own numbers. -/

namespace DvbIpiTools.Fec2022

open BeUtil DateUtil Bim.Codec List Function

/-! ## The configured matrix -/

/-- `strtoul` to base 10, with the text behind the number: the whole text where there is none. -/
def strtoul (s : List UInt8) : Nat × List UInt8 :=
  let v := skipWs s
  let body := if charAt v 0 = 45 ∨ charAt v 0 = 43 then v.drop 1 else v
  let n := decValue (body.takeWhile isDigit)
  if body.takeWhile isDigit = [] then (0, s)
  else (if n ≥ 2 ^ 64 then 2 ^ 64 - 1 else if charAt v 0 = 45 then (2 ^ 64 - n) % 2 ^ 64 else n,
    body.dropWhile isDigit)

/-- `fec2022_parse_ld` of a string without its NUL. -/
def parseLd (s : List UInt8) : Option (Nat × Nat) :=
  let (l, rest) := strtoul s
  if charAt rest 0 ≠ 58 ∨ l = 0 then none
  else
    let (d, rest) := strtoul (rest.drop 1)
    if rest ≠ [] ∨ d = 0 then none
    else if l > maxL ∨ d > maxLd / l then none
    else some (l, d)

theorem accepted_of_parseLd {s : List UInt8} {l d : Nat} (h : parseLd s = some (l, d)) : Accepted l d := by
  simp only [parseLd] at h
  split at h
  · cases h
  rename_i hl
  split at h
  · cases h
  rename_i hd
  split at h
  · cases h
  rename_i hmax
  cases h
  rintro (hzero | hzero | hbig | hbig)
  · exact hl (.inr hzero)
  · exact hd (.inr hzero)
  · exact hmax (.inl hbig)
  · exact hmax (.inr hbig)

theorem Accepted.rows_lt {l d : Nat} (h : Accepted l d) (hl : l ≠ 1) : d < 256 := by
  have hpos : l ≠ 0 := fun h0 => h (.inl h0)
  have hd : d ≤ maxLd / l := not_lt.1 fun hbig => h (.inr (.inr (.inr hbig)))
  have hhalf : maxLd / l ≤ maxLd / 2 := Nat.div_le_div_left (by omega) (by omega)
  exact lt_of_le_of_lt (hd.trans hhalf) (by decide)

/-- `RFC6015 Offset` and `NA` are the numbers of this decoder. -/
def Dec.HeaderFits (s : Dec) (pkt : List UInt8) : Prop := byteAt pkt 25 = s.l ∧ byteAt pkt 26 = s.d

namespace Enc

/-! ## Any use of an encoder -/

/-- A call of `fec2022_enc_feed` or `fec2022_enc_drain` with any packet and any buffer. -/
inductive Use where
  | feed (pkt : List UInt8) (pts cap : Nat)
  | drain (cap : Nat)

def use (e : Enc) : Use → Option (List UInt8) × Enc
  | .feed pkt pts cap => e.feed pkt pts cap
  | .drain cap => e.drain cap

/-- What the calls return, one after the other. -/
def emitted : Enc → List Use → List (List UInt8)
  | _, [] => []
  | e, u :: us => (e.use u).1.toList ++ emitted (e.use u).2 us

/-- The two header bytes of a repair of this matrix. -/
def Stamped (l d : Nat) (r : List UInt8) : Prop := byteAt r 25 = l % 256 ∧ byteAt r 26 = d % 256

/-- An encoder of this matrix with only its own repairs in the queue. -/
structure Holds (l d : Nat) (e : Enc) : Prop where
  l_eq : e.l = l
  d_eq : e.d = d
  queued : ∀ r ∈ e.q, Stamped l d r

namespace Holds

variable {l d : Nat} {e : Enc}

theorem drain (he : Holds l d e) (cap : Nat) : Holds l d (e.drain cap).2 ∧ ∀ r ∈ (e.drain cap).1, Stamped l d r := by
  unfold Enc.drain
  cases hq : e.q with
  | nil => exact ⟨he, by simp⟩
  | cons r rest =>
    have hall := he.queued
    rw [hq] at hall
    dsimp only
    split
    · exact ⟨he, by simp⟩
    · refine ⟨⟨he.l_eq, he.d_eq, fun r' hr' => hall r' (.tail _ hr')⟩, ?_⟩
      intro r' hr'
      rw [← Option.some.inj hr']
      exact hall r mem_cons_self

theorem finish (he : Holds l d e) (k pts : Nat) : Holds l d (e.finish k pts) := by
  unfold Enc.finish
  split
  · refine ⟨he.l_eq, he.d_eq, fun r hr => ?_⟩
    rcases mem_append.1 hr with hr | hr
    · refine he.queued r ?_
      split at hr
      · exact mem_of_mem_tail hr
      · exact hr
    · rw [mem_singleton.1 hr, he.l_eq, he.d_eq]
      exact ⟨repairPacket_l _ _ _ _ _ _, repairPacket_d _ _ _ _ _ _⟩
  · exact he

theorem feed (he : Holds l d e) (pkt : List UInt8) (pts cap : Nat) :
    Holds l d (e.feed pkt pts cap).2 ∧ ∀ r ∈ (e.feed pkt pts cap).1, Stamped l d r := by
  unfold Enc.feed
  split
  · exact ⟨he, by simp⟩
  dsimp only
  have hadd : Holds l d { e with
      nextCol := (e.nextCol + 1) % e.l
      cols := update e.cols e.nextCol (addTo (e.cols e.nextCol) pkt) } := ⟨he.l_eq, he.d_eq, he.queued⟩
  have hfin := hadd.finish e.nextCol pts
  generalize Enc.finish _ e.nextCol pts = f at hfin ⊢
  have hcount : Holds l d (if f.sinceRel < f.d then { f with sinceRel := f.sinceRel + 1 } else f) := by
    split
    · exact ⟨hfin.l_eq, hfin.d_eq, hfin.queued⟩
    · exact hfin
  generalize (if f.sinceRel < f.d then { f with sinceRel := f.sinceRel + 1 } else f) = g at hcount ⊢
  split
  · exact ⟨hcount, by simp⟩
  · exact hcount.drain cap

theorem emitted (he : Holds l d e) (us : List Use) : ∀ r ∈ e.emitted us, Stamped l d r := by
  induction us generalizing e with
  | nil => exact nofun
  | cons u us ih =>
    have hstep : Holds l d (e.use u).2 ∧ ∀ r ∈ (e.use u).1, Stamped l d r := by
      cases u with
      | feed pkt pts cap => exact he.feed pkt pts cap
      | drain cap => exact he.drain cap
    intro r hr
    rcases mem_append.1 hr with hr | hr
    · exact hstep.2 r (Option.mem_toList.1 hr)
    · exact ih hstep.1 r hr

end Holds

/-! ## A matrix of one column -/

/-- A packet with nothing but a header. -/
def bare : List UInt8 := 0x80 :: replicate 11 0

/-- The encoder of one column after `n` of `d` packets. -/
structure Filling (d n : Nat) (e : Enc) : Prop where
  l_eq : e.l = 1
  d_eq : e.d = d
  next_eq : e.nextCol = 0
  since_eq : e.sinceRel = n
  count_eq : (e.cols 0).count = n
  queue_eq : e.q = []

namespace Filling

variable {d n : Nat} {e : Enc}

theorem feed (he : Filling d n e) (hn : n + 1 < d) :
    (e.feed bare 0 maxRepair).1 = none ∧ Filling d (n + 1) (e.feed bare 0 maxRepair).2 := by
  have hadd : (update e.cols 0 (addTo (e.cols 0) bare) 0).count = n + 1 := by
    rw [update_self, addTo, he.count_eq]
  have hopen : ¬n + 1 = d := by omega
  have hsince : n < d := by omega
  unfold Enc.feed
  rw [if_neg (by decide)]
  simp only [he.next_eq, Enc.finish, hadd, he.d_eq, if_neg hopen, he.since_eq, if_pos hsince, if_pos hn]
  exact ⟨trivial, he.l_eq, rfl, by rw [he.l_eq], rfl, hadd, he.queue_eq⟩

theorem feed_last (he : Filling d n e) (hn : n + 1 = d) : ∃ r, r ∈ (e.feed bare 0 maxRepair).1 := by
  have hadd : (update e.cols 0 (addTo (e.cols 0) bare) 0).count = n + 1 := by
    rw [update_self, addTo, he.count_eq]
  have hsince : n < d := by omega
  unfold Enc.feed
  rw [if_neg (by decide)]
  simp only [he.next_eq, Enc.finish, hadd, he.d_eq, if_pos hn, he.since_eq, if_pos hsince, he.l_eq, he.queue_eq]
  rw [if_neg (by omega)]
  exact ⟨_, rfl⟩

theorem emits (he : Filling d n e) {m : Nat} (hm : n + m + 1 = d) :
    ∃ r, r ∈ e.emitted (replicate (m + 1) (.feed bare 0 maxRepair)) := by
  induction m generalizing n e with
  | zero =>
    obtain ⟨r, hr⟩ := he.feed_last (by omega)
    exact ⟨r, mem_append_left _ (Option.mem_toList.2 hr)⟩
  | succ m ih =>
    obtain ⟨r, hr⟩ := ih (he.feed (by omega)).2 (by omega)
    exact ⟨r, mem_append_right _ hr⟩

end Filling

end Enc

/-! ## Which matrices are usable -/

/-- Every repair that an encoder of this matrix ever returns fits a decoder of this matrix. -/
def Usable (l d : Nat) : Prop :=
  ∀ pt seq e s, encNew l d pt seq = some e → decNew l d = some s → ∀ us, ∀ r ∈ e.emitted us, s.HeaderFits r

theorem usable_of_rows_lt {l d : Nat} (hd : d < 256) : Usable l d := by
  intro pt seq e s he hs us r hr
  unfold encNew at he
  unfold decNew at hs
  split at he
  · rename_i hacc
    rw [if_pos hacc] at hs
    cases he
    cases hs
    have hl : l ≤ maxL := not_lt.1 fun hbig => hacc (.inr (.inr (.inl hbig)))
    have hbytes := Enc.Holds.emitted (l := l) (d := d) ⟨rfl, rfl, fun r hr => absurd hr not_mem_nil⟩ us r hr
    have hl' : l < 256 := lt_of_le_of_lt hl (by decide)
    exact ⟨hbytes.1.trans (Nat.mod_eq_of_lt hl'), hbytes.2.trans (Nat.mod_eq_of_lt hd)⟩
  · cases he

/-- A column of more than 255 packets gets a repair that the decoder drops. -/
theorem not_usable_of_rows_ge {l d : Nat} (hacc : Accepted l d) (hd : 256 ≤ d) : ¬Usable l d := by
  intro huse
  obtain rfl : l = 1 := by
    by_contra hl
    exact absurd (hacc.rows_lt hl) (not_lt.2 hd)
  have he : encNew 1 d 0 0 = some { l := 1, d := d, pt := 0, seq := 0 } := if_pos hacc
  have hs : decNew 1 d = some { l := 1, d := d } := if_pos hacc
  have hfill : Enc.Filling d 0 { l := 1, d := d, pt := 0, seq := 0 } := ⟨rfl, rfl, rfl, rfl, rfl, rfl⟩
  obtain ⟨r, hr⟩ := hfill.emits (show 0 + (d - 1) + 1 = d by omega)
  have hfits : byteAt r 26 = d := (huse 0 0 _ _ he hs _ r hr).2
  have hbyte := byteAt_lt r 26
  omega

/-- A configured matrix is usable exactly when its rows fit a byte. -/
theorem parseLd_usable_iff {s : List UInt8} {l d : Nat} (h : parseLd s = some (l, d)) :
    Accepted l d ∧ (Usable l d ↔ d < 256) := by
  have hacc := accepted_of_parseLd h
  refine ⟨hacc, fun huse => ?_, usable_of_rows_lt⟩
  by_contra hd
  exact not_usable_of_rows_ge hacc (not_lt.1 hd) huse

/-- `"20:5"`. -/
theorem parseLd_usable_iff_small : parseLd [50, 48, 58, 53] = some (20, 5) ∧ Accepted 20 5 ∧ (Usable 20 5 ↔ 5 < 256) :=
  ⟨by decide, parseLd_usable_iff (s := [50, 48, 58, 53]) (by decide)⟩

/-- `"1:256"` is accepted, and no repair of its encoder fits its decoder. -/
theorem parseLd_unusable : parseLd [49, 58, 50, 53, 54] = some (1, 256) ∧ Accepted 1 256 ∧ ¬Usable 1 256 :=
  ⟨by decide, by decide, not_usable_of_rows_ge (by decide) (by decide)⟩

end DvbIpiTools.Fec2022
