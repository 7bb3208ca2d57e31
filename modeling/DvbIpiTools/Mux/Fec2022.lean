import DvbIpiTools.Helper.BeUtil
import DvbIpiTools.Utils.Parity
import Mathlib.Data.List.Induction
import Mathlib.Data.Nat.ModEq

set_option autoImplicit false

/-! # SMPTE 2022-1 column encoder (`mux/fec2022.c`)

Source packets are dealt to the columns in turn; `d` packets of a column give one repair packet. The fields a
repair carries are one record for the encoder's columns and the decoder's repairs. A payload buffer is the list
of the bytes that were written to it, with zeros behind them; the ring of queued repairs is the list of its used
part. -/

namespace DvbIpiTools.Fec2022

open BeUtil List Function Nat

/-- `FEC2022_MAX_PKT`. -/
def maxPkt : Nat := 1500

/-- `FEC2022_MAX_REPAIR`. -/
def maxRepair : Nat := 12 + 16 + (maxPkt - 12)

/-- `FEC2022_MAX_L`. -/
def maxL : Nat := 40

/-- `FEC2022_MAX_LD`. -/
def maxLd : Nat := 400

/-- The matrices for which `fec2022_enc_new` and `fec2022_dec_new` do not return NULL. -/
def Accepted (l d : Nat) : Prop := ¬(l = 0 ∨ d = 0 ∨ l > maxL ∨ d > maxLd / l)

instance (l d : Nat) : Decidable (Accepted l d) := inferInstanceAs (Decidable (¬_))

/-! ## Recovery fields -/

/-- The fields of a packet that a repair recovers: the bits of the first two header bytes, the timestamp, the
payload length and the payload. -/
structure Recovery where
  p : Nat := 0
  x : Nat := 0
  cc : Nat := 0
  m : Nat := 0
  pt : Nat := 0
  ts : Nat := 0
  len : Nat := 0
  payload : List UInt8 := []

/-- The fields of one packet. -/
def Recovery.ofPacket (pkt : List UInt8) : Recovery where
  p := byteAt pkt 0 >>> 5 &&& 1
  x := byteAt pkt 0 >>> 4 &&& 1
  cc := byteAt pkt 0 &&& 0xF
  m := byteAt pkt 1 >>> 7 &&& 1
  pt := byteAt pkt 1 &&& 0x7F
  ts := beGet pkt 4 4
  len := pkt.length - 12
  payload := pkt.drop 12

/-- The exclusive or, field by field. -/
def Recovery.xor (a b : Recovery) : Recovery where
  p := a.p ^^^ b.p
  x := a.x ^^^ b.x
  cc := a.cc ^^^ b.cc
  m := a.m ^^^ b.m
  pt := a.pt ^^^ b.pt
  ts := a.ts ^^^ b.ts
  len := a.len ^^^ b.len
  payload := Parity.xorBytes a.payload b.payload

/-! ## Encoder -/

/-- `fec2022_col_t`. -/
structure Col where
  recovery : Recovery := {}
  snb : Nat := 0
  count : Nat := 0

/-- `struct fec2022_enc`. -/
structure Enc where
  l : Nat
  d : Nat
  pt : Nat
  seq : Nat
  nextCol : Nat := 0
  sinceRel : Nat := 0
  q : List (List UInt8) := []
  cols : Nat → Col := fun _ => {}

/-- `fec2022_enc_new`; `seq` is the random number. -/
def encNew (l d pt seq : Nat) : Option Enc := if Accepted l d then some { l, d, pt, seq } else none

/-- The repair packet of a finished column. -/
def repairPacket (l d pt seq pts : Nat) (c : Col) : List UInt8 :=
  UInt8.ofNat (0x80 ||| c.recovery.p <<< 5 ||| c.recovery.x <<< 4 ||| c.recovery.cc) ::
    UInt8.ofNat (c.recovery.m <<< 7 ||| pt &&& 0x7F) ::
    (bePut 2 seq ++ bePut 4 pts ++ bePut 4 0 ++ bePut 2 c.snb ++ bePut 2 c.recovery.len ++
      [UInt8.ofNat (0x80 ||| c.recovery.pt), 0, 0, 0] ++ bePut 4 c.recovery.ts ++
      [0, UInt8.ofNat l, UInt8.ofNat d, 0] ++ c.recovery.payload)

namespace Enc

/-- `fec2022_enc_drain`. -/
def drain (e : Enc) (cap : Nat) : Option (List UInt8) × Enc := match e.q with
  | [] => (none, e)
  | r :: rest => if cap < maxRepair then (none, e) else (some r, { e with q := rest, sinceRel := 0 })

/-- The column with one more packet. -/
def addTo (c : Col) (pkt : List UInt8) : Col where
  recovery := c.recovery.xor (Recovery.ofPacket pkt)
  snb := if c.count = 0 then beGet pkt 2 2 else c.snb
  count := c.count + 1

/-- A full column goes to the queue, from which the oldest repair is dropped when it is full. -/
def finish (e : Enc) (k pts : Nat) : Enc :=
  if (e.cols k).count = e.d then
    { e with
      q := (if e.q.length = e.l then e.q.tail else e.q) ++ [repairPacket e.l e.d e.pt e.seq pts (e.cols k)]
      seq := (e.seq + 1) % 65536
      cols := update e.cols k {} }
  else e

/-- `fec2022_enc_feed`. -/
def feed (e : Enc) (pkt : List UInt8) (pts cap : Nat) : Option (List UInt8) × Enc :=
  if pkt.length < 12 ∨ pkt.length > maxPkt ∨ cap < maxRepair then (none, e)
  else
    let k := e.nextCol
    let e := { e with nextCol := (k + 1) % e.l, cols := update e.cols k (addTo (e.cols k) pkt) }
    let e := e.finish k pts
    let e := if e.sinceRel < e.d then { e with sinceRel := e.sinceRel + 1 } else e
    if e.sinceRel < e.d then (none, e) else e.drain cap

end Enc

/-! # What the column encoder sends

Every packet the encoder returns is the repair of a column group: of `d` source packets that are `l` apart, the
first of them in the first row of a matrix. -/

/-- RTP packets with consecutive sequence numbers, one SSRC and version 2. -/
structure IsStream (src : Nat → List UInt8) (seq0 ssrc : Nat) : Prop where
  header_le : ∀ n, 12 ≤ (src n).length
  length_le : ∀ n, (src n).length ≤ maxPkt
  version : ∀ n, byteAt (src n) 0 >>> 6 = 2
  seq_eq : ∀ n, beGet (src n) 2 2 = (seq0 + n) % 65536
  ssrc_eq : ∀ n, beGet (src n) 8 4 = ssrc

/-- The recovery fields of the first `n` packets of the group that starts with packet `b`. -/
def columnRecovery (src : Nat → List UInt8) (l b n : Nat) : Recovery :=
  Parity.fold Recovery.xor (fun i => Recovery.ofPacket (src (b + i * l))) {} (range n)

/-- The repair of the group that starts with packet `b`. -/
def IsRepair (src : Nat → List UInt8) (seq0 l d b : Nat) (pkt : List UInt8) : Prop :=
  b % (l * d) < l ∧ ∃ pt seq pts, pkt =
    repairPacket l d pt seq pts ⟨columnRecovery src l b d, (seq0 + b) % 65536, d⟩

namespace Enc

/-- How many of the first `n` packets went to column `k`. -/
def dealt (l n k : Nat) : Nat := (n + (l - 1 - k)) / l

/-- Column `k` after `c` packets. -/
def colAt (src : Nat → List UInt8) (seq0 l d k c : Nat) : Col :=
  ⟨columnRecovery src l (c / d * (l * d) + k) (c % d),
    if c % d = 0 then 0 else (seq0 + (c / d * (l * d) + k)) % 65536, c % d⟩

theorem dealt_succ {l n k : Nat} (hk : k < l) : dealt l (n + 1) k = dealt l n k + if n % l = k then 1 else 0 := by
  have hdvd : l ∣ n + (l - 1 - k) + 1 ↔ n % l = k := by
    have hsum : n + (l - 1 - k) + 1 = n + (l - k) := by omega
    rw [hsum, ← modEq_zero_iff_dvd]
    constructor
    · intro h
      have hadd : n + (l - k) + k ≡ 0 + k [MOD l] := Nat.ModEq.add_right k h
      rw [show n + (l - k) + k = n + l by omega, zero_add] at hadd
      have hmod : (n + l) % l = k % l := hadd
      rwa [add_mod_right, mod_eq_of_lt hk] at hmod
    intro h
    have hmod : n ≡ k [MOD l] := by
      show n % l = k % l
      rw [h, mod_eq_of_lt hk]
    have hadd := Nat.ModEq.add_right (l - k) hmod
    rw [show k + (l - k) = l by omega] at hadd
    exact hadd.trans (modEq_zero_iff_dvd.2 (dvd_refl l))
  rw [dealt, dealt, show n + 1 + (l - 1 - k) = n + (l - 1 - k) + 1 by omega, Nat.succ_div]
  by_cases h : n % l = k
  · rw [if_pos (hdvd.2 h), if_pos h]
  · rw [if_neg (fun hd => h (hdvd.1 hd)), if_neg h]

theorem dealt_next {l : Nat} (hl : 0 < l) (n : Nat) : dealt l n (n % l) = n / l := by
  have hlt := mod_lt n hl
  have hsum : n + (l - 1 - n % l) = l - 1 + n / l * l := by
    have hdiv := mod_add_div' n l
    omega
  rw [dealt, hsum, add_mul_div_right _ _ hl, div_eq_of_lt (by omega), zero_add]

theorem next_member {l d : Nat} (n : Nat) : n / l / d * (l * d) + n % l + n / l % d * l = n := by
  have hrow := mod_add_div (n / l) d
  have hcol := mod_add_div n l
  calc n / l / d * (l * d) + n % l + n / l % d * l = n % l + l * (n / l % d + d * (n / l / d)) := by ring
    _ = n := by rw [hrow, hcol]

/-- The encoder after `n` packets of the stream. -/
structure After (src : Nat → List UInt8) (seq0 l d n : Nat) (e : Enc) : Prop where
  l_eq : e.l = l
  d_eq : e.d = d
  next_eq : e.nextCol = n % l
  cols_eq : ∀ k < l, e.cols k = colAt src seq0 l d k (dealt l n k)
  queued : ∀ r ∈ e.q, ∃ b, IsRepair src seq0 l d b r

namespace After

variable {src : Nat → List UInt8} {seq0 ssrc l d n : Nat} {e : Enc}

theorem drain (he : After src seq0 l d n e) (cap : Nat) :
    After src seq0 l d n (e.drain cap).2 ∧ ∀ r ∈ (e.drain cap).1, ∃ b, IsRepair src seq0 l d b r := by
  unfold Enc.drain
  cases hq : e.q with
  | nil => exact ⟨he, by simp⟩
  | cons r rest =>
    dsimp only
    split
    · exact ⟨he, by simp⟩
    have hall := he.queued
    rw [hq] at hall
    refine ⟨{ he with queued := fun r' hr' => hall r' (.tail _ hr') }, ?_⟩
    intro r' hr'
    rw [← Option.some.inj hr']
    exact hall r mem_cons_self

theorem addTo_colAt (hs : IsStream src seq0 ssrc) (hl : 0 < l) (n : Nat) :
    addTo (colAt src seq0 l d (n % l) (dealt l n (n % l))) (src n) =
      ⟨columnRecovery src l (n / l / d * (l * d) + n % l) (n / l % d + 1),
        (seq0 + (n / l / d * (l * d) + n % l)) % 65536, n / l % d + 1⟩ := by
  have hnext := next_member (l := l) (d := d) n
  rw [dealt_next hl]
  simp only [addTo, colAt]
  refine congr (congr (congrArg Col.mk ?_) ?_) rfl
  · rw [columnRecovery, columnRecovery, range_succ, Parity.fold_concat, hnext]
  · split
    · rename_i hzero
      rw [hzero, zero_mul, add_zero] at hnext
      rw [hs.seq_eq, hnext]
    · rfl

theorem colAt_succ {k c : Nat} (hc : c % d + 1 < d) :
    colAt src seq0 l d k (c + 1) = ⟨columnRecovery src l (c / d * (l * d) + k) (c % d + 1),
      (seq0 + (c / d * (l * d) + k)) % 65536, c % d + 1⟩ := by
  have hmod : (c + 1) % d = c % d + 1 := by
    rw [add_mod, mod_eq_of_lt (show 1 < d by omega), mod_eq_of_lt hc]
  have hdiv : (c + 1) / d = c / d := by
    rw [Nat.succ_div, if_neg, add_zero]
    intro hdvd
    omega
  rw [colAt, hmod, hdiv, if_neg (succ_ne_zero _)]

theorem colAt_full {k c : Nat} (hc : c % d + 1 = d) : colAt src seq0 l d k (c + 1) = {} := by
  have hmod : (c + 1) % d = 0 := by
    rw [add_mod]
    by_cases h1 : d = 1
    · rw [h1, mod_one]
    · rw [mod_eq_of_lt (show 1 < d by omega), hc, mod_self]
  rw [colAt, hmod, if_pos rfl]
  rfl

/-- The next packet in its column, and the column in the queue when it is full. -/
theorem finish (he : After src seq0 l d n e) (hs : IsStream src seq0 ssrc) (hl : 0 < l) (hd : 0 < d) (pts : Nat) :
    After src seq0 l d (n + 1) (Enc.finish { e with
      nextCol := (n % l + 1) % e.l
      cols := update e.cols (n % l) (addTo (e.cols (n % l)) (src n)) } (n % l) pts) := by
  have hk := mod_lt n hl
  have hcol : addTo (e.cols (n % l)) (src n) = ⟨columnRecovery src l (n / l / d * (l * d) + n % l) (n / l % d + 1),
        (seq0 + (n / l / d * (l * d) + n % l)) % 65536, n / l % d + 1⟩ := by
    rw [he.cols_eq _ hk]
    exact addTo_colAt hs hl n
  have hnext : (n % l + 1) % e.l = (n + 1) % l := by rw [he.l_eq, mod_add_mod]
  have hdealt := dealt_succ (n := n) hk
  rw [if_pos rfl, dealt_next hl] at hdealt
  have hother : ∀ j < l, j ≠ n % l → e.cols j = colAt src seq0 l d j (dealt l (n + 1) j) := by
    intro j hj hne
    rw [he.cols_eq j hj, dealt_succ hj, if_neg (fun h => hne h.symm), add_zero]
  have hle : n / l % d + 1 ≤ d := mod_lt _ hd
  have hcount : (update e.cols (n % l) (addTo (e.cols (n % l)) (src n)) (n % l)).count = n / l % d + 1 := by
    rw [update_self, hcol]
  unfold Enc.finish
  split
  · rename_i hfull
    replace hfull : n / l % d + 1 = d := hcount.symm.trans (hfull.trans he.d_eq)
    refine ⟨he.l_eq, he.d_eq, hnext, ?_, ?_⟩
    · intro j hj
      dsimp only
      by_cases hjk : j = n % l
      · rw [hjk, update_self, hdealt, colAt_full hfull]
      · rw [update_of_ne hjk, update_of_ne hjk]
        exact hother j hj hjk
    intro r hr
    rcases mem_append.1 hr with hr | hr
    · refine he.queued r ?_
      split at hr
      · exact mem_of_mem_tail hr
      · exact hr
    rw [mem_singleton.1 hr]
    dsimp only
    rw [update_self, hcol, he.l_eq, he.d_eq, hfull]
    refine ⟨n / l / d * (l * d) + n % l, ?_, _, _, _, rfl⟩
    rw [Nat.mul_add_mod_self_right, Nat.mod_eq_of_lt (hk.trans_le (Nat.le_mul_of_pos_right l hd))]
    exact hk
  · rename_i hpart
    replace hpart : n / l % d + 1 ≠ d := fun h => hpart (hcount.trans (h.trans he.d_eq.symm))
    refine ⟨he.l_eq, he.d_eq, hnext, ?_, he.queued⟩
    intro j hj
    dsimp only
    by_cases hjk : j = n % l
    · rw [hjk, update_self, hcol, hdealt, colAt_succ (lt_of_le_of_ne hle hpart)]
    · rw [update_of_ne hjk]
      exact hother j hj hjk

theorem feed (he : After src seq0 l d n e) (hs : IsStream src seq0 ssrc) (hl : 0 < l) (hd : 0 < d) (pts : Nat) :
    After src seq0 l d (n + 1) (e.feed (src n) pts maxRepair).2 ∧
      ∀ r ∈ (e.feed (src n) pts maxRepair).1, ∃ b, IsRepair src seq0 l d b r := by
  have hlow := hs.header_le n
  have hhigh := hs.length_le n
  unfold Enc.feed
  rw [if_neg (by omega)]
  dsimp only
  rw [he.next_eq]
  have hfin := he.finish hs hl hd pts
  generalize Enc.finish _ (n % l) pts = f at hfin ⊢
  have hcount : After src seq0 l d (n + 1) (if f.sinceRel < f.d then { f with sinceRel := f.sinceRel + 1 } else f) := by
    split
    · exact { hfin with }
    · exact hfin
  generalize (if f.sinceRel < f.d then { f with sinceRel := f.sinceRel + 1 } else f) = g at hcount ⊢
  split
  · exact ⟨hcount, by simp⟩
  · exact hcount.drain maxRepair

end After

/-! ## Runs -/

/-- A call of `fec2022_enc_feed` with the next packet of the stream, or of `fec2022_enc_drain`; the output buffer
has `FEC2022_MAX_REPAIR` bytes. -/
inductive Call where
  | feed (pts : Nat)
  | drain

/-- The encoder, the number of packets fed so far and what was returned. -/
structure Running where
  enc : Enc
  fed : Nat := 0
  out : List (List UInt8) := []

def Running.step (src : Nat → List UInt8) (x : Running) : Call → Running
  | .feed pts =>
    { enc := (x.enc.feed (src x.fed) pts maxRepair).2
      fed := x.fed + 1
      out := x.out ++ (x.enc.feed (src x.fed) pts maxRepair).1.toList }
  | .drain => { x with enc := (x.enc.drain maxRepair).2, out := x.out ++ (x.enc.drain maxRepair).1.toList }

/-- The calls one after the other. -/
def run (src : Nat → List UInt8) (e : Enc) (calls : List Call) : Running := calls.foldl (Running.step src) { enc := e }

theorem run_isRepair {src : Nat → List UInt8} {seq0 ssrc l d pt seq : Nat} (hs : IsStream src seq0 ssrc) {e : Enc}
    (he : encNew l d pt seq = some e) (calls : List Call) :
    ∀ r ∈ (run src e calls).out, ∃ b, IsRepair src seq0 l d b r := by
  obtain ⟨hacc, rfl⟩ : Accepted l d ∧ ({ l, d, pt, seq } : Enc) = e := by
    unfold encNew at he
    split at he
    · rename_i hacc
      exact ⟨hacc, Option.some.inj he⟩
    · cases he
  have hl : 0 < l := pos_of_ne_zero fun h => hacc (.inl h)
  have hd : 0 < d := pos_of_ne_zero fun h => hacc (.inr (.inl h))
  suffices hrun : After src seq0 l d (run src { l, d, pt, seq } calls).fed (run src { l, d, pt, seq } calls).enc ∧
      ∀ r ∈ (run src { l, d, pt, seq } calls).out, ∃ b, IsRepair src seq0 l d b r from hrun.2
  induction calls using reverseRecOn with
  | nil =>
    refine ⟨⟨rfl, rfl, (zero_mod l).symm, ?_, nofun⟩, nofun⟩
    intro k hk
    have hzero : dealt l 0 k = 0 := div_eq_of_lt (by omega)
    show ({} : Col) = colAt src seq0 l d k (dealt l 0 k)
    rw [hzero, colAt, zero_mod, if_pos rfl]
    rfl
  | append_singleton calls c ih =>
    obtain ⟨hafter, hout⟩ := ih
    rw [run, foldl_append]
    cases c with
    | feed pts =>
      obtain ⟨hnext, hthis⟩ := hafter.feed hs hl hd pts
      refine ⟨hnext, fun r hr => ?_⟩
      rcases mem_append.1 hr with hr | hr
      · exact hout r hr
      · exact hthis r (Option.mem_toList.1 hr)
    | drain =>
      obtain ⟨hnext, hthis⟩ := hafter.drain maxRepair
      refine ⟨hnext, fun r hr => ?_⟩
      rcases mem_append.1 hr with hr | hr
      · exact hout r hr
      · exact hthis r (Option.mem_toList.1 hr)

end Enc

end DvbIpiTools.Fec2022
