import Mathlib.Data.List.Basic
import DvbIpiTools.Cas.SimulcryptMsg

set_option autoImplicit false

/-! # Round trip of SimulCrypt messages

What the writer finishes, the reader delivers, however the bytes arrive; and of the TLVs of a message the
reader finds all, and nothing beyond the payload. -/

namespace DvbIpiTools.Cas

open BeUtil SimulcryptWriter SimulcryptReader List Nat

/-! ## Messages -/

structure SimulcryptMsg where
  version : UInt8
  type : UInt16
  tlvs : List (UInt16 × List UInt8)

/-- An element on the wire. -/
def tlvBytes (t : UInt16 × List UInt8) : List UInt8 := bePut 2 t.1.toNat ++ bePut 2 t.2.length ++ t.2

def tlvsBytes (tlvs : List (UInt16 × List UInt8)) : List UInt8 := tlvs.flatMap tlvBytes

namespace SimulcryptMsg

def payload (m : SimulcryptMsg) : List UInt8 := tlvsBytes m.tlvs

def hdr (m : SimulcryptMsg) : SimulcryptHdr := ⟨m.version.toNat, m.type.toNat, m.payload.length⟩

/-- The whole message on the wire. -/
def frame (m : SimulcryptMsg) : List UInt8 :=
  [m.version] ++ bePut 2 m.type.toNat ++ bePut 2 m.payload.length ++ m.payload

/-- What the reader is to deliver. -/
def delivery (m : SimulcryptMsg) : PollResult := .frame m.hdr m.payload

/-- A message as the writer builds it in a buffer of `cap` bytes. -/
def build (cap : Nat) (m : SimulcryptMsg) : List UInt8 :=
  ((SimulcryptWriter.begin cap m.version m.type).2.putTlvs m.tlvs).finish

end SimulcryptMsg

/-! ## Writing -/

/-- A writer that has taken some elements, or has failed. -/
def Wrote (version : UInt8) (type : UInt16) (tlvs : List (UInt16 × List UInt8)) (w : SimulcryptWriter) : Prop :=
  w.buf = [] ∨ w.buf = [version] ++ bePut 2 type.toNat ++ bePut 2 0 ++ tlvsBytes tlvs ∧
    (tlvsBytes tlvs).length ≤ simulcryptMaxPayload

theorem length_tlvBytes (t : UInt16 × List UInt8) : (tlvBytes t).length = 4 + t.2.length := by
  rw [tlvBytes, length_append, length_append, length_bePut, length_bePut]

theorem tlvsBytes_concat (tlvs : List (UInt16 × List UInt8)) (t : UInt16 × List UInt8) :
    tlvsBytes (tlvs ++ [t]) = tlvsBytes tlvs ++ tlvBytes t := by
  rw [tlvsBytes, flatMap_append, flatMap_singleton]
  rfl

variable {tlvs : List (UInt16 × List UInt8)} {w : SimulcryptWriter} {version : UInt8} {type : UInt16}

theorem putTlv_wrote (h : Wrote version type tlvs w) (t : UInt16 × List UInt8) :
    Wrote version type (tlvs ++ [t]) (w.putTlv t.1 t.2).2 := by
  rw [putTlv]
  by_cases hzero : w.buf.length = 0
  · rw [if_pos hzero]
    exact .inl (length_eq_zero_iff.1 hzero)
  rw [if_neg hzero]
  rcases h with hnil | ⟨hbuf, hlen⟩
  · exact absurd (by rw [hnil]; rfl) hzero
  by_cases hfull : w.buf.length - simulcryptHdrLen + 4 + t.2.length > simulcryptMaxPayload ∨
      w.cap - w.buf.length < 4 + t.2.length
  · simp only [if_pos hfull]
    exact .inl rfl
  simp only [if_neg hfull]
  have hbuflen : w.buf.length = simulcryptHdrLen + (tlvsBytes tlvs).length := by
    rw [hbuf]
    simp [simulcryptHdrLen]
    omega
  refine .inr ⟨?_, ?_⟩
  · rw [tlvsBytes_concat, hbuf, tlvBytes]
    simp only [append_assoc]
  · rw [tlvsBytes_concat, length_append, length_tlvBytes]
    omega

theorem putTlvs_wrote (h : Wrote version type tlvs w) (more : List (UInt16 × List UInt8)) :
    Wrote version type (tlvs ++ more) (w.putTlvs more) := by
  induction more generalizing tlvs w with
  | nil =>
    rw [append_nil]
    exact h
  | cons t more ih =>
    have hput := ih (putTlv_wrote h t)
    rw [append_assoc] at hput
    exact hput

variable {m : SimulcryptMsg}

theorem build_eq {cap : Nat} (h : m.build cap ≠ []) :
    m.build cap = m.frame ∧ m.payload.length ≤ simulcryptMaxPayload := by
  have hbegin : Wrote m.version m.type [] (SimulcryptWriter.begin cap m.version m.type).2 := by
    rw [SimulcryptWriter.begin, hdrWrite]
    split
    · exact .inl rfl
    · exact Or.inr ⟨by rw [tlvsBytes, flatMap_nil, append_nil], zero_le _⟩
  have hwrote := putTlvs_wrote hbegin m.tlvs
  rw [SimulcryptMsg.build, finish] at h ⊢
  rcases hwrote with hnil | ⟨hbuf, hlen⟩
  · rw [hnil] at h
    exact absurd rfl h
  refine ⟨?_, hlen⟩
  have hbuflen : ((SimulcryptWriter.begin cap m.version m.type).2.putTlvs m.tlvs).buf.length =
      simulcryptHdrLen + m.payload.length := by
    rw [hbuf]
    simp [simulcryptHdrLen, SimulcryptMsg.payload]
    omega
  rw [if_neg (by rw [hbuflen, simulcryptHdrLen]; omega), hbuflen, Nat.add_sub_cancel_left, hbuf]
  rfl

theorem finish_failed {tag : UInt16} {value : List UInt8} (h : (w.putTlv tag value).1 = false)
    (more : List (UInt16 × List UInt8)) : ((w.putTlv tag value).2.putTlvs more).finish = [] := by
  have hempty : (w.putTlv tag value).2.buf = [] := by
    rw [putTlv] at h ⊢
    by_cases hzero : w.buf.length = 0
    · rw [if_pos hzero]
      exact length_eq_zero_iff.1 hzero
    · rw [if_neg hzero] at h ⊢
      simp only [] at h ⊢
      split at h
      · next hfull => rw [if_pos hfull]
      · cases h
  have hstays : ∀ (v : SimulcryptWriter), v.buf = [] → (v.putTlvs more).buf = [] := by
    induction more with
    | nil => exact fun _ hv => hv
    | cons t more ih =>
      intro v hv
      refine ih _ ?_
      show (v.putTlv t.1 t.2).2.buf = []
      rw [putTlv, if_pos (by rw [hv]; rfl)]
      exact hv
  rw [finish, if_pos (by rw [hstays _ hempty]; rfl)]

/-! ## Reading -/

/-- The reader is in the header or in the payload, and has room for what it asks. -/
def ReaderOk (r : SimulcryptReader) : Prop := (r.need = 0 ∧ r.buf.length < simulcryptHdrLen) ∨
    (simulcryptHdrLen ≤ r.buf.length ∧ r.buf.length < r.need ∧ r.need ≤ simulcryptMaxFrame)

variable {r : SimulcryptReader}

theorem ReaderOk.want_pos (h : ReaderOk r) : 0 < r.want ∧ r.buf.length + r.want ≤ simulcryptMaxFrame := by
  rw [want]
  rcases h with ⟨hneed, hlt⟩ | ⟨hhdr, hlt, hle⟩
  · rw [if_neg (not_not_intro hneed)]
    simp only [simulcryptHdrLen, simulcryptMaxFrame, simulcryptMaxPayload] at *
    omega
  · rw [if_pos (by omega)]
    omega

theorem length_frame (m : SimulcryptMsg) : m.frame.length = simulcryptHdrLen + m.payload.length := by
  rw [SimulcryptMsg.frame, length_append, length_append, length_append, length_bePut, length_bePut]
  rfl

variable {s : List UInt8}

theorem hdrParse_frame (hlen : m.payload.length ≤ simulcryptMaxPayload) {buf rest : List UInt8}
    (h : buf ++ s = m.frame ++ rest) (hbuf : simulcryptHdrLen ≤ buf.length) : hdrParse buf = some m.hdr := by
  have hbuf : 5 ≤ buf.length := hbuf
  have hversion : byteAt buf 0 = m.version.toNat := by
    rw [← byteAt_append_left (by omega), h]
    rfl
  have htype : beGet buf 1 2 = m.type.toNat := by
    have hfield := beGet_field [m.version] (bePut 2 m.payload.length ++ m.payload ++ rest) 2 m.type.toNat
    have hlt : m.type.toNat < 256 ^ 2 := m.type.toNat_lt
    rw [mod_eq_of_lt hlt] at hfield
    rw [← beGet_append_left (by omega), h, ← hfield, SimulcryptMsg.frame]
    simp only [append_assoc, length_singleton]
  have hpayload : beGet buf 3 2 = m.payload.length := by
    have hfield := beGet_field ([m.version] ++ bePut 2 m.type.toNat) (m.payload ++ rest) 2 m.payload.length
    rw [mod_eq_of_lt (by simp only [simulcryptMaxPayload] at hlen; omega)] at hfield
    rw [← beGet_append_left (by omega), h, ← hfield, SimulcryptMsg.frame]
    simp only [append_assoc, length_append, length_singleton, length_bePut]
  rw [hdrParse, if_neg (by simp only [simulcryptHdrLen]; omega), hversion, htype, hpayload, SimulcryptMsg.hdr]

/-- The reader is on the way to the first of the messages that are left, with `s` still to come. -/
structure Reading (r : SimulcryptReader) (s : List UInt8) (msgs : List SimulcryptMsg) : Prop where
  bytes : r.buf ++ s = msgs.flatMap SimulcryptMsg.frame
  fits : ∀ m ∈ msgs, m.payload.length ≤ simulcryptMaxPayload
  state : (r.need = 0 ∧ r.buf.length < simulcryptHdrLen) ∨
    (simulcryptHdrLen ≤ r.buf.length ∧ ∃ m ms, msgs = m :: ms ∧ r.buf.length < m.frame.length ∧
      r.need = m.frame.length ∧ r.hdr = m.hdr)

theorem Reading.ok {r : SimulcryptReader} {s : List UInt8} {msgs : List SimulcryptMsg} (h : Reading r s msgs) :
    ReaderOk r := by
  rcases h.state with hhdr | ⟨hlen, m, ms, rfl, hlt, hneed, -⟩
  · exact .inl hhdr
  · have hfits := h.fits m mem_cons_self
    rw [length_frame] at hneed hlt
    refine .inr ⟨hlen, by omega, ?_⟩
    rw [simulcryptMaxFrame]
    omega

variable {msgs : List SimulcryptMsg}

theorem Reading.done (h : Reading r [] msgs) : msgs = [] := by
  cases msgs with
  | nil => rfl
  | cons m ms =>
    exfalso
    have hlen := congrArg length h.bytes
    rw [append_nil, flatMap_cons, length_append] at hlen
    rcases h.state with ⟨-, hlt⟩ | ⟨-, m', ms', heq, hlt, -⟩
    · rw [length_frame] at hlen
      omega
    · obtain ⟨rfl, rfl⟩ := cons.inj heq
      omega

/-- After a read that stays within what was asked for. -/
structure Extended (r : SimulcryptReader) (s : List UInt8) (msgs : List SimulcryptMsg) : Prop where
  bytes : r.buf ++ s = msgs.flatMap SimulcryptMsg.frame
  fits : ∀ m ∈ msgs, m.payload.length ≤ simulcryptMaxPayload
  state : (r.need = 0 ∧ r.buf.length ≤ simulcryptHdrLen) ∨
    (simulcryptHdrLen ≤ r.buf.length ∧ ∃ m ms, msgs = m :: ms ∧ r.buf.length ≤ m.frame.length ∧
      r.need = m.frame.length ∧ r.hdr = m.hdr)

/-- The header, as soon as it is there, is that of the first message left. -/
theorem parseHdr_spec (h : Extended r s msgs) : r.parseHdr.1 = true ∧ r.parseHdr.2.buf = r.buf ∧
      ((r.parseHdr.2.need = 0 ∧ r.buf.length < simulcryptHdrLen) ∨
      (simulcryptHdrLen ≤ r.buf.length ∧ ∃ m ms, msgs = m :: ms ∧ r.buf.length ≤ m.frame.length ∧
        r.parseHdr.2.need = m.frame.length ∧ r.parseHdr.2.hdr = m.hdr)) := by
  rw [parseHdr]
  rcases h.state with ⟨hneed, hle⟩ | ⟨hlen, m, ms, rfl, hle, hneed, hhdr⟩
  · by_cases hlen : r.buf.length ≥ simulcryptHdrLen
    · rw [if_pos ⟨hneed, hlen⟩]
      cases hmsgs : msgs with
      | nil =>
        have hnil := h.bytes
        rw [hmsgs, flatMap_nil, append_eq_nil_iff] at hnil
        rw [hnil.1] at hlen
        cases hlen
      | cons m ms =>
        have hbytes := h.bytes
        rw [hmsgs, flatMap_cons] at hbytes
        have hfits := h.fits m (by rw [hmsgs]; exact mem_cons_self)
        rw [hdrParse_frame hfits hbytes hlen]
        refine ⟨decide_eq_true ?_, rfl, .inr ⟨hlen, m, ms, rfl, ?_, ?_, rfl⟩⟩
        · show simulcryptHdrLen + m.payload.length ≤ simulcryptMaxFrame
          rw [simulcryptMaxFrame]
          omega
        · rw [length_frame]
          omega
        · rw [length_frame]
          rfl
    · rw [if_neg (fun hboth => hlen hboth.2)]
      exact ⟨rfl, rfl, .inl ⟨hneed, by omega⟩⟩
  · have hne : ¬ (r.need = 0 ∧ r.buf.length ≥ simulcryptHdrLen) := by
      rintro ⟨hzero, -⟩
      rw [hneed, length_frame, simulcryptHdrLen] at hzero
      omega
    rw [if_neg hne]
    exact ⟨rfl, rfl, .inr ⟨hlen, m, ms, rfl, hle, hneed, hhdr⟩⟩

theorem take_spec {r : SimulcryptReader} {s : List UInt8} {msgs : List SimulcryptMsg} (h : Reading r s msgs)
    {n : Nat} (hwant : n ≤ r.want) (hs : n ≤ s.length) :
    ((r.take (s.take n)).1 = .nothing ∧ Reading (r.take (s.take n)).2 (s.drop n) msgs) ∨
    ∃ m ms, msgs = m :: ms ∧ (r.take (s.take n)).1 = m.delivery ∧ Reading (r.take (s.take n)).2 (s.drop n) ms := by
  have hlen : (r.buf ++ s.take n).length = r.buf.length + n := by
    rw [length_append, length_take, min_eq_left hs]
  have hbytes : (r.buf ++ s.take n) ++ s.drop n = msgs.flatMap SimulcryptMsg.frame := by
    rw [append_assoc, take_append_drop]
    exact h.bytes
  have hextended : Extended { r with buf := r.buf ++ s.take n } (s.drop n) msgs := by
    refine ⟨hbytes, h.fits, ?_⟩
    simp only [hlen]
    rw [want] at hwant
    rcases h.state with ⟨hneed, hlt⟩ | ⟨hhdr, m, ms, rfl, hlt, hneed, hm⟩
    · rw [if_neg (not_not_intro hneed)] at hwant
      exact .inl ⟨hneed, by omega⟩
    · rw [if_pos (by omega), hneed] at hwant
      exact .inr ⟨by omega, m, ms, rfl, by omega, hneed, hm⟩
  obtain ⟨hok, hbuf, hstate⟩ := parseHdr_spec hextended
  rw [SimulcryptReader.take]
  generalize hparse : { r with buf := r.buf ++ s.take n }.parseHdr = parsed at hok hbuf hstate
  obtain ⟨ok, t⟩ := parsed
  simp only [] at hok hbuf hstate ⊢
  rw [if_neg (by rw [hok]; nofun), hbuf]
  rcases hstate with ⟨hneed, hlt⟩ | ⟨hhdr, m, ms, rfl, hle, hneed, hm⟩
  · rw [if_neg (fun hboth => hboth.1 hneed)]
    refine .inl ⟨rfl, ⟨?_, h.fits, .inl ⟨hneed, ?_⟩⟩⟩
    · rw [hbuf]
      exact hbytes
    · rw [hbuf]
      exact hlt
  by_cases hfull : (r.buf ++ s.take n).length ≥ t.need
  · have hwhole : r.buf ++ s.take n = m.frame ∧ s.drop n = ms.flatMap SimulcryptMsg.frame := by
      exact append_inj hbytes (by omega)
    have hpos : t.need ≠ 0 := by
      rw [hneed, length_frame, simulcryptHdrLen]
      omega
    rw [if_pos ⟨hpos, hfull⟩]
    refine .inr ⟨m, ms, rfl, ?_, ?_⟩
    · rw [hwhole.1, hm]
      show PollResult.frame m.hdr ((m.frame.drop 5).take m.payload.length) = .frame m.hdr m.payload
      have hdrop : m.frame.drop 5 = m.payload := rfl
      rw [hdrop, take_length]
    · exact ⟨hwhole.2, fun m' hm' => h.fits m' (mem_cons_of_mem m hm'), .inl ⟨rfl, succ_pos 4⟩⟩
  · rw [if_neg (fun hboth => hfull hboth.2)]
    refine .inl ⟨rfl, ⟨?_, h.fits, .inr ⟨?_, m, ms, rfl, ?_, hneed, hm⟩⟩⟩
    · rw [hbuf]
      exact hbytes
    · rw [hbuf]
      exact hhdr
    · rw [hbuf]
      omega

/-- What one poll does: as a read, and a read of something shortens what is to come. -/
theorem reads_spec (h : Reading r s msgs) (ks : List Nat) :
    (((reads ks r s).1 = .nothing ∧ Reading (reads ks r s).2.1 (reads ks r s).2.2 msgs) ∨
      ∃ m ms, msgs = m :: ms ∧ (reads ks r s).1 = m.delivery ∧ Reading (reads ks r s).2.1 (reads ks r s).2.2 ms) ∧
    (reads ks r s).2.2.length ≤ s.length ∧ ((∃ k ∈ ks, 0 < k) → s ≠ [] → (reads ks r s).2.2.length < s.length) := by
  induction ks generalizing r s with
  | nil => exact ⟨.inl ⟨rfl, h⟩, le_rfl, nofun⟩
  | cons k ks ih =>
    rw [reads]
    by_cases hk : k = 0
    · rw [if_pos hk]
      obtain ⟨hres, hle, hlt⟩ := ih h
      refine ⟨hres, hle, fun hsome => hlt ?_⟩
      obtain ⟨k', hk', hpos⟩ := hsome
      rcases mem_cons.1 hk' with rfl | hk'
      · omega
      · exact ⟨k', hk', hpos⟩
    rw [if_neg hk]
    have hwant := h.ok.want_pos.1
    by_cases hempty : s.length = 0
    · rw [if_pos (by omega)]
      exact ⟨.inl ⟨rfl, h⟩, le_rfl, fun _ hs => absurd (length_eq_zero_iff.1 hempty) hs⟩
    generalize hn : min k (min r.want s.length) = n
    have hpos : 0 < n := by omega
    have hdrop : (s.drop n).length < s.length := by
      rw [length_drop]
      omega
    simp only [if_neg hpos.ne']
    rcases take_spec h (n := n) (by omega) (by omega) with ⟨hnothing, hreading⟩ | ⟨m, ms, rfl, hres, hreading⟩
    · generalize r.take (s.take n) = taken at hnothing hreading
      obtain ⟨res, t⟩ := taken
      obtain rfl : res = .nothing := hnothing
      obtain ⟨hres, hle, -⟩ := ih hreading
      exact ⟨hres, le_trans hle hdrop.le, fun _ _ => lt_of_le_of_lt hle hdrop⟩
    · generalize r.take (s.take n) = taken at hres hreading
      obtain ⟨res, t⟩ := taken
      obtain rfl : res = m.delivery := hres
      exact ⟨.inr ⟨m, ms, rfl, rfl, hreading⟩, le_of_lt hdrop, fun _ _ => hdrop⟩

/-- The results of polls without those that had nothing. -/
def deliveries (results : List PollResult) : List PollResult := results.filter (· ≠ .nothing)

theorem polls_spec (h : Reading r s msgs) (ps : List (Option (List Nat))) :
    (∃ k, deliveries (polls r s ps).1 = (msgs.take k).map SimulcryptMsg.delivery ∧
      Reading (polls r s ps).2.1 (polls r s ps).2.2 (msgs.drop k)) ∧
    ((∀ p ∈ ps, ∃ ks, p = some ks ∧ ∃ k ∈ ks, 0 < k) → (polls r s ps).2.2.length ≤ s.length - ps.length) := by
  induction ps generalizing r s msgs with
  | nil => exact ⟨⟨0, rfl, h⟩, fun _ => le_rfl⟩
  | cons p ps ih =>
    have hpoll : (((r.poll s p).1 = .nothing ∧ Reading (r.poll s p).2.1 (r.poll s p).2.2 msgs) ∨
        ∃ m ms, msgs = m :: ms ∧ (r.poll s p).1 = m.delivery ∧ Reading (r.poll s p).2.1 (r.poll s p).2.2 ms) ∧
        ((∃ ks, p = some ks ∧ ∃ k ∈ ks, 0 < k) → (r.poll s p).2.2.length ≤ s.length - 1) := by
      cases p with
      | none => exact ⟨.inl ⟨rfl, h⟩, nofun⟩
      | some ks =>
        obtain ⟨hres, hle, hlt⟩ := reads_spec h ks
        refine ⟨hres, ?_⟩
        rintro ⟨ks', hks, hsome⟩
        cases hks
        show (reads ks r s).2.2.length ≤ s.length - 1
        by_cases hs : s = []
        · rw [hs] at hle ⊢
          exact hle
        · have := hlt hsome hs
          omega
    obtain ⟨hres, hshort⟩ := hpoll
    rw [polls]
    generalize r.poll s p = polled at hres hshort
    obtain ⟨res, t, s'⟩ := polled
    rcases hres with ⟨rfl, hreading⟩ | ⟨m, ms, rfl, rfl, hreading⟩
    · obtain ⟨⟨k, hout, hrest⟩, hlen⟩ := ih hreading
      refine ⟨⟨k, ?_, hrest⟩, fun hps => ?_⟩
      · rw [← hout]
        rfl
      · have hfirst : s'.length ≤ s.length - 1 := hshort (hps p mem_cons_self)
        have hmore := hlen fun q hq => hps q (mem_cons_of_mem p hq)
        show (polls t s' ps).2.2.length ≤ s.length - (ps.length + 1)
        simp only [] at hmore
        omega
    obtain ⟨⟨k, hout, hrest⟩, hlen⟩ := ih hreading
    refine ⟨⟨k + 1, ?_, hrest⟩, fun hps => ?_⟩
    · rw [take_succ_cons, map_cons, ← hout]
      rfl
    · have hfirst : s'.length ≤ s.length - 1 := hshort (hps p mem_cons_self)
      have hmore := hlen fun q hq => hps q (mem_cons_of_mem p hq)
      show (polls t s' ps).2.2.length ≤ s.length - (ps.length + 1)
      simp only [] at hmore
      omega

/-! ## TLVs -/

theorem next_element (a rest : List UInt8) (t : UInt16 × List UInt8) (hlen : t.2.length ≤ simulcryptMaxPayload) :
    (TlvReader.mk (a ++ (tlvBytes t ++ rest)) a.length).next = .element ⟨t.1.toNat, a.length + 4, t.2.length⟩
        ⟨a ++ (tlvBytes t ++ rest), a.length + 4 + t.2.length⟩ := by
  have htotal : (a ++ (tlvBytes t ++ rest)).length = a.length + (4 + t.2.length + rest.length) := by
    rw [length_append, length_append, length_tlvBytes]
  have htag : beGet (a ++ (tlvBytes t ++ rest)) a.length 2 = t.1.toNat := by
    have hlt : t.1.toNat < 256 ^ 2 := t.1.toNat_lt
    have hfield := beGet_field a (bePut 2 t.2.length ++ t.2 ++ rest) 2 t.1.toNat
    rw [mod_eq_of_lt hlt] at hfield
    rw [← hfield, tlvBytes]
    simp only [append_assoc]
  have hvlen : beGet (a ++ (tlvBytes t ++ rest)) (a.length + 2) 2 = t.2.length := by
    have hfield := beGet_field (a ++ bePut 2 t.1.toNat) (t.2 ++ rest) 2 t.2.length
    rw [mod_eq_of_lt (by simp only [simulcryptMaxPayload] at hlen; omega), length_append, length_bePut] at hfield
    rw [← hfield, tlvBytes]
    simp only [append_assoc]
  rw [TlvReader.next]
  simp only [htotal, htag, hvlen]
  rw [if_neg (by omega), if_neg (by omega), if_neg (by omega)]

theorem drop_element (a rest : List UInt8) (t : UInt16 × List UInt8) :
    (a ++ (tlvBytes t ++ rest)).drop (a.length + 4) = t.2 ++ rest := by
  have hsplit : a ++ (tlvBytes t ++ rest) = (a ++ bePut 2 t.1.toNat ++ bePut 2 t.2.length) ++ (t.2 ++ rest) := by
    rw [tlvBytes]
    simp only [append_assoc]
  have hoff : a.length + 4 = (a ++ bePut 2 t.1.toNat ++ bePut 2 t.2.length).length := by
    rw [length_append, length_append, length_bePut, length_bePut]
  rw [hsplit, hoff, drop_left]

theorem value_element (a rest : List UInt8) (t : UInt16 × List UInt8) :
    (Tlv.mk t.1.toNat (a.length + 4) t.2.length).value (a ++ (tlvBytes t ++ rest)) = t.2 := by
  rw [Tlv.value, drop_element, take_left]

theorem tlvsBytes_cons (t : UInt16 × List UInt8) (tlvs : List (UInt16 × List UInt8)) :
    tlvsBytes (t :: tlvs) = tlvBytes t ++ tlvsBytes tlvs := flatMap_cons

theorem next_tlvs (a : List UInt8) : ∀ tlvs : List (UInt16 × List UInt8), (∀ t ∈ tlvs, t.2.length ≤ simulcryptMaxPayload) →
    (TlvReader.mk (a ++ tlvsBytes tlvs) a.length).next = match tlvs with
      | [] => .finished
      | t :: tlvs => .element ⟨t.1.toNat, a.length + 4, t.2.length⟩
          ⟨a ++ tlvBytes t ++ tlvsBytes tlvs, (a ++ tlvBytes t).length⟩
  | [], _ => by rw [TlvReader.next, if_pos (by rw [tlvsBytes, flatMap_nil, append_nil])]
  | t :: tlvs, hlen => by
    rw [tlvsBytes_cons, next_element a _ t (hlen t mem_cons_self)]
    simp only [append_assoc, length_append, length_tlvBytes, add_assoc]

variable {n : Nat}

theorem scan_tlvs (tlvs : List (UInt16 × List UInt8)) (a : List UInt8) (hlen : ∀ t ∈ tlvs, t.2.length ≤ simulcryptMaxPayload) (hn : tlvs.length < n) :
    let s := (TlvReader.mk (a ++ tlvsBytes tlvs) a.length).scan n
    (s.1.map fun t => (t.tag, t.value (a ++ tlvsBytes tlvs))) = tlvs.map (fun t => (t.1.toNat, t.2)) ∧
      s.2 = .finished := by
  induction tlvs generalizing a n with
  | nil =>
    obtain ⟨n, rfl⟩ : ∃ k, n = k + 1 := ⟨n - 1, by simp at hn; omega⟩
    simp only [TlvReader.scan, next_tlvs a [] hlen]
    exact ⟨rfl, trivial⟩
  | cons t tlvs ih =>
    obtain ⟨n, rfl⟩ : ∃ k, n = k + 1 := ⟨n - 1, by simp at hn; omega⟩
    have hrest := ih (a ++ tlvBytes t) (fun t' ht' => hlen t' (mem_cons_of_mem t ht'))
      (by simp at hn; omega)
    simp only [TlvReader.scan, next_tlvs a (t :: tlvs) hlen, map_cons]
    rw [tlvsBytes_cons, value_element, ← append_assoc]
    exact ⟨by rw [hrest.1], hrest.2⟩

/-- The first element of a tag and a width. -/
def firstTlv (width tag : Nat) (tlvs : List (UInt16 × List UInt8)) : Option Nat :=
  (tlvs.find? fun t => t.1.toNat = tag ∧ t.2.length = width).map fun t => beGet t.2 0 width

theorem find_tlvs (width tag : Nat) (tlvs : List (UInt16 × List UInt8)) (a : List UInt8)
    (hlen : ∀ t ∈ tlvs, t.2.length ≤ simulcryptMaxPayload) (hn : tlvs.length < n) :
    (TlvReader.mk (a ++ tlvsBytes tlvs) a.length).find width tag n = firstTlv width tag tlvs := by
  induction tlvs generalizing a n with
  | nil =>
    obtain ⟨n, rfl⟩ : ∃ k, n = k + 1 := ⟨n - 1, by simp at hn; omega⟩
    simp only [TlvReader.find, next_tlvs a [] hlen]
    rfl
  | cons t tlvs ih =>
    obtain ⟨n, rfl⟩ : ∃ k, n = k + 1 := ⟨n - 1, by simp at hn; omega⟩
    have hrest := ih (a ++ tlvBytes t) (fun t' ht' => hlen t' (mem_cons_of_mem t ht'))
      (by simp at hn; omega)
    simp only [TlvReader.find, next_tlvs a (t :: tlvs) hlen]
    by_cases hmatch : t.1.toNat = tag ∧ t.2.length = width
    · rw [if_pos hmatch, firstTlv, find?_cons_of_pos (by simpa using hmatch), Option.map_some, tlvsBytes_cons,
        ← beGet_drop, drop_element, beGet_append_left (by omega)]
    · rw [if_neg hmatch, hrest, firstTlv, firstTlv, find?_cons_of_neg (by simpa using hmatch)]

/-- Whatever the payload is: the element is inside it, and is what its bytes say. -/
theorem next_inside {r r' : TlvReader} {t : Tlv} (hpos : r.pos ≤ r.buf.length) (h : r.next = .element t r') :
    r'.buf = r.buf ∧ t.off + t.len ≤ r.buf.length ∧ r.pos < r'.pos ∧ r'.pos = t.off + t.len ∧
      ∃ u : UInt16 × List UInt8, u.2.length ≤ simulcryptMaxPayload ∧
        r.buf.drop r.pos = tlvBytes u ++ r.buf.drop r'.pos := by
  rw [TlvReader.next] at h
  split at h
  · cases h
  split at h
  · cases h
  simp only [] at h
  split at h
  · cases h
  rename_i hvlen
  obtain ⟨rfl, rfl⟩ := TlvNext.element.inj h
  have hlt := beGet_lt r.buf (r.pos + 2) 2
  have htag := beGet_lt r.buf r.pos 2
  refine ⟨rfl, by simp only []; omega, by simp only []; omega, rfl,
    (.ofNat (beGet r.buf r.pos 2), (r.buf.drop (r.pos + 4)).take (beGet r.buf (r.pos + 2) 2)), ?_, ?_⟩
  · rw [length_take, simulcryptMaxPayload]
    omega
  have htagBytes : bePut 2 (UInt16.ofNat (beGet r.buf r.pos 2)).toNat = (r.buf.drop r.pos).take 2 := by
    rw [UInt16.toNat_ofNat', mod_eq_of_lt (by omega), bePut_beGet (by omega)]
  have hlenBytes : bePut 2 ((r.buf.drop (r.pos + 4)).take (beGet r.buf (r.pos + 2) 2)).length =
      (r.buf.drop (r.pos + 2)).take 2 := by
    rw [length_take, length_drop, min_eq_left (by omega), bePut_beGet (by omega)]
  rw [tlvBytes, htagBytes, hlenBytes, append_assoc, append_assoc]
  have hvalue := take_append_drop (beGet r.buf (r.pos + 2) 2) (r.buf.drop (r.pos + 4))
  rw [drop_drop] at hvalue
  have htwo := take_append_drop 2 (r.buf.drop (r.pos + 2))
  rw [drop_drop] at htwo
  have hone := take_append_drop 2 (r.buf.drop r.pos)
  rw [drop_drop] at hone
  rw [hvalue, htwo, hone]

/-- A payload that is a list of elements. -/
def WellFormed (payload : List UInt8) : Prop :=
  ∃ tlvs : List (UInt16 × List UInt8), (∀ t ∈ tlvs, t.2.length ≤ simulcryptMaxPayload) ∧ payload = tlvsBytes tlvs

theorem scan_inside {r : TlvReader} (hpos : r.pos ≤ r.buf.length) (hn : r.buf.length - r.pos < n) :
    (∀ t ∈ (r.scan n).1, t.off + t.len ≤ r.buf.length) ∧ (r.scan n).2 ≠ .unfinished ∧
      ((r.scan n).2 = .finished → WellFormed (r.buf.drop r.pos)) := by
  induction n generalizing r with
  | zero => exact absurd hn (not_lt_zero _)
  | succ n ih =>
    rw [TlvReader.scan]
    cases hnext : r.next with
    | finished =>
      refine ⟨nofun, nofun, fun _ => ⟨[], nofun, ?_⟩⟩
      rw [TlvReader.next] at hnext
      split at hnext
      · next hend => rw [hend, drop_length]; rfl
      · split at hnext
        · cases hnext
        · simp only [] at hnext
          split at hnext <;> cases hnext
    | truncated => exact ⟨nofun, nofun, nofun⟩
    | element t r' =>
      obtain ⟨hbuf, hin, hlt, hpos', u, hu, hbytes⟩ := next_inside hpos hnext
      obtain ⟨hall, hend, hwell⟩ := ih (by rw [hbuf]; omega) (by rw [hbuf]; omega)
      refine ⟨fun x hx => ?_, hend, fun hfin => ?_⟩
      · rcases mem_cons.1 hx with rfl | hx
        · exact hin
        · rw [← hbuf]
          exact hall x hx
      obtain ⟨tlvs, hlen, htlvs⟩ := hwell hfin
      refine ⟨u :: tlvs, fun x hx => ?_, ?_⟩
      · rcases mem_cons.1 hx with rfl | hx
        · exact hu
        · exact hlen x hx
      · rw [hbytes, ← hbuf, htlvs]
        rfl

theorem length_le_tlvsBytes (tlvs : List (UInt16 × List UInt8)) : tlvs.length ≤ (tlvsBytes tlvs).length := by
  induction tlvs with
  | nil => exact le_rfl
  | cons t tlvs ih =>
    rw [tlvsBytes_cons, length_append, length_tlvBytes, length_cons]
    omega

theorem tlvScan_tlvs (hlen : ∀ t ∈ tlvs, t.2.length ≤ simulcryptMaxPayload) :
    ((tlvScan (tlvsBytes tlvs)).1.map fun t => (t.tag, t.value (tlvsBytes tlvs))) =
        tlvs.map (fun t => (t.1.toNat, t.2)) ∧ (tlvScan (tlvsBytes tlvs)).2 = .finished := by
  have := length_le_tlvsBytes tlvs
  exact scan_tlvs tlvs [] hlen (by omega)

/-- The elements of any payload are inside it, and a payload that is no list of elements ends with -1. -/
theorem tlvScan_spec (payload : List UInt8) : (∀ t ∈ (tlvScan payload).1, t.off + t.len ≤ payload.length) ∧
      (WellFormed payload → (tlvScan payload).2 = .finished) ∧
      (¬ WellFormed payload → (tlvScan payload).2 = .truncated) := by
  obtain ⟨hall, hend, hwell⟩ := scan_inside (r := ⟨payload, 0⟩) (zero_le _) (n := payload.length + 1)
    (by simp only []; omega)
  refine ⟨hall, ?_, fun hbad => ?_⟩
  · rintro ⟨tlvs, hlen, rfl⟩
    exact (tlvScan_tlvs hlen).2
  · cases hres : (tlvScan payload).2 with
    | finished => exact absurd (hwell hres) hbad
    | truncated => rfl
    | unfinished => exact absurd hres hend

/-! ## Any bytes -/

/-- The states of a reader from its start on, whatever it reads. -/
inductive ReaderState : SimulcryptReader → Prop
  | init : ReaderState {}
  | read {r : SimulcryptReader} (h : ReaderState r) (data : List UInt8) (hdata : data.length ≤ r.want) :
      ReaderState (r.take data).2

theorem parseHdr_ok
    (h : (r.need = 0 ∧ r.buf.length ≤ simulcryptHdrLen) ∨ (simulcryptHdrLen ≤ r.buf.length ∧ r.buf.length ≤ r.need ∧ r.need ≤ simulcryptMaxFrame)) :
    r.parseHdr.1 = true ∧ r.parseHdr.2.buf = r.buf ∧
      ((r.parseHdr.2.need = 0 ∧ r.buf.length < simulcryptHdrLen) ∨ (simulcryptHdrLen ≤ r.buf.length ∧
        r.buf.length ≤ r.parseHdr.2.need ∧ r.parseHdr.2.need ≤ simulcryptMaxFrame)) := by
  rw [parseHdr]
  by_cases hparse : r.need = 0 ∧ r.buf.length ≥ simulcryptHdrLen
  · have hhdr : hdrParse r.buf = some ⟨byteAt r.buf 0, beGet r.buf 1 2, beGet r.buf 3 2⟩ := if_neg (by omega)
    have hmax : simulcryptHdrLen + beGet r.buf 3 2 ≤ simulcryptMaxFrame := by
      have := beGet_lt r.buf 3 2
      simp only [simulcryptMaxFrame, simulcryptMaxPayload]
      omega
    rw [if_pos hparse, hhdr]
    refine ⟨decide_eq_true hmax, rfl, .inr ⟨hparse.2, ?_, hmax⟩⟩
    rcases h with ⟨-, hle⟩ | ⟨-, hle, -⟩
    · exact le_trans hle (le_add_right _ _)
    · exact le_trans hle (by rw [hparse.1]; exact zero_le _)
  · rw [if_neg hparse]
    refine ⟨rfl, rfl, ?_⟩
    rcases h with ⟨hneed, -⟩ | hpayload
    · exact .inl ⟨hneed, not_le.1 fun hle => hparse ⟨hneed, hle⟩⟩
    · exact .inr hpayload

theorem take_ok (h : ReaderOk r) {data : List UInt8} (hdata : data.length ≤ r.want) :
    (r.take data).1 ≠ .failed ∧ ReaderOk (r.take data).2 := by
  have hlen : (r.buf ++ data).length = r.buf.length + data.length := length_append
  obtain ⟨hok, hbuf, hstate⟩ := parseHdr_ok (r := { r with buf := r.buf ++ data }) (by
    simp only [hlen]
    rw [want] at hdata
    rcases h with ⟨hneed, hlt⟩ | ⟨hhdr, hlt, hle⟩
    · rw [if_neg (not_not_intro hneed)] at hdata
      exact .inl ⟨hneed, by omega⟩
    · rw [if_pos (by omega)] at hdata
      exact .inr ⟨by omega, by omega, hle⟩)
  rw [SimulcryptReader.take]
  generalize { r with buf := r.buf ++ data }.parseHdr = parsed at hok hbuf hstate
  obtain ⟨ok, t⟩ := parsed
  simp only [] at hok hbuf hstate ⊢
  rw [if_neg (by rw [hok]; nofun)]
  by_cases hfull : t.need ≠ 0 ∧ t.buf.length ≥ t.need
  · rw [if_pos hfull]
    exact ⟨nofun, .inl ⟨rfl, succ_pos 4⟩⟩
  rw [if_neg hfull]
  refine ⟨nofun, ?_⟩
  rw [ReaderOk, hbuf]
  rw [hbuf] at hfull
  rcases hstate with hhdr | ⟨hhdr, hle, hmax⟩
  · exact .inl hhdr
  · refine .inr ⟨hhdr, lt_of_le_of_ne hle fun heq => hfull ⟨?_, le_of_eq heq.symm⟩, hmax⟩
    rw [← heq]
    exact ne_of_gt (lt_of_lt_of_le (succ_pos 4) hhdr)

theorem ReaderState.ok {r : SimulcryptReader} (h : ReaderState r) : ReaderOk r := by
  induction h with
  | init => exact .inl ⟨rfl, succ_pos 4⟩
  | read _ data hdata ih => exact (take_ok ih hdata).2

/-! ## The whole -/

/-- The messages that were built. -/
def wire (msgs : List (Nat × SimulcryptMsg)) : List UInt8 := msgs.flatMap fun x => x.2.build x.1

/-- What was built arrives however it is cut, with all its TLVs and no more; any other input stays inside
    the buffers and is refused where it is no list of TLVs; and what does not fit is not sent. -/
theorem simulcrypt_framing : (∀ msgs : List (Nat × SimulcryptMsg), (∀ x ∈ msgs, x.2.build x.1 ≠ []) → ∀ ps,
      (∃ k, deliveries (polls {} (wire msgs) ps).1 = (msgs.take k).map fun x => x.2.delivery) ∧
      ((polls {} (wire msgs) ps).2.2 = [] → deliveries (polls {} (wire msgs) ps).1 = msgs.map fun x => x.2.delivery) ∧
      ((∀ p ∈ ps, ∃ ks, p = some ks ∧ ∃ k ∈ ks, 0 < k) → (wire msgs).length ≤ ps.length →
        (polls {} (wire msgs) ps).2.2 = [])) ∧ (∀ cap (m : SimulcryptMsg), m.build cap ≠ [] →
      ((tlvScan m.payload).1.map fun t => (t.tag, t.value m.payload)) = m.tlvs.map (fun t => (t.1.toNat, t.2)) ∧
      (tlvScan m.payload).2 = .finished ∧
      ∀ tag, findU8 m.payload tag = firstTlv 1 tag m.tlvs ∧ findU16 m.payload tag = firstTlv 2 tag m.tlvs ∧
        findU32 m.payload tag = firstTlv 4 tag m.tlvs) ∧
    (∀ r, ReaderState r → r.buf.length + r.want ≤ simulcryptMaxFrame ∧
      ∀ data, data.length ≤ r.want → (r.take data).1 ≠ .failed) ∧
    (∀ payload, (∀ t ∈ (tlvScan payload).1, t.off + t.len ≤ payload.length) ∧
      (¬ WellFormed payload → (tlvScan payload).2 = .truncated)) ∧ (∀ (w : SimulcryptWriter) tag value,
      (w.buf.length - simulcryptHdrLen + 4 + value.length > simulcryptMaxPayload ∨
        w.cap - w.buf.length < 4 + value.length → (w.putTlv tag value).1 = false) ∧
      ((w.putTlv tag value).1 = false → ∀ more, ((w.putTlv tag value).2.putTlvs more).finish = [])) := by
  refine ⟨fun msgs hmsgs ps => ?_, fun cap m hm => ?_, fun r hr => ?_, fun payload => ?_, fun w tag value => ?_⟩
  · have hbuilt : wire msgs = (msgs.map Prod.snd).flatMap SimulcryptMsg.frame := by
      rw [wire, flatMap_map]
      exact flatMap_congr fun x hx => (build_eq (hmsgs x hx)).1
    have hstart : Reading {} (wire msgs) (msgs.map Prod.snd) := by
      refine ⟨by rw [hbuilt]; rfl, fun m hm => ?_, .inl ⟨rfl, succ_pos 4⟩⟩
      obtain ⟨x, hx, rfl⟩ := mem_map.1 hm
      exact (build_eq (hmsgs x hx)).2
    obtain ⟨⟨k, hout, hreading⟩, hshort⟩ := polls_spec hstart ps
    rw [← map_take, map_map] at hout
    refine ⟨⟨k, hout⟩, fun hend => ?_, fun hps hlen => ?_⟩
    · rw [hend] at hreading
      have hdone := hreading.done
      rw [← map_drop, map_eq_nil_iff] at hdone
      have htake := take_append_drop k msgs
      rw [hdone, append_nil] at htake
      rw [hout, htake]
      rfl
    · have := hshort hps
      exact length_eq_zero_iff.1 (by omega)
  · have hlen : ∀ t ∈ m.tlvs, t.2.length ≤ simulcryptMaxPayload := by
      intro t ht
      have hpay := (build_eq hm).2
      obtain ⟨a, b, hab⟩ := append_of_mem ht
      rw [SimulcryptMsg.payload, hab, tlvsBytes, flatMap_append, flatMap_cons, length_append,
        length_append, length_tlvBytes] at hpay
      omega
    have hfuel := length_le_tlvsBytes m.tlvs
    have hfind : ∀ width tag, (TlvReader.mk m.payload 0).find width tag (m.payload.length + 1) =
        firstTlv width tag m.tlvs := fun width tag =>
      find_tlvs width tag m.tlvs [] hlen (by rw [SimulcryptMsg.payload]; omega)
    exact ⟨(tlvScan_tlvs hlen).1, (tlvScan_tlvs hlen).2, fun tag => ⟨hfind 1 tag, hfind 2 tag, hfind 4 tag⟩⟩
  · exact ⟨hr.ok.want_pos.2, fun data hdata => (take_ok hr.ok hdata).1⟩
  · exact ⟨(tlvScan_spec payload).1, (tlvScan_spec payload).2.2⟩
  · refine ⟨fun hfull => ?_, finish_failed⟩
    rw [putTlv]
    split
    · rfl
    · simp only [if_pos hfull]

/-- Two messages. -/
def twoMessages : List (Nat × SimulcryptMsg) :=
  [(16, ⟨2, 0x0201, [(0x000E, [0, 7]), (0x000C, [1])]⟩), (9, ⟨3, 0x0005, [(0x0001, [])]⟩)]

/-- The bytes of the two come one by one. -/
theorem simulcrypt_framing_two : deliveries (polls {} (wire twoMessages) (replicate 25 (some [1]))).1 =
        twoMessages.map (fun x => x.2.delivery) ∧
      (twoMessages.map fun x => findU16 x.2.payload 0x000E) = [some 7, none] := by
  have hbuilt : ∀ x ∈ twoMessages, x.2.build x.1 ≠ [] := by decide +kernel
  obtain ⟨-, hall, hend⟩ := simulcrypt_framing.1 twoMessages hbuilt (replicate 25 (some [1]))
  refine ⟨hall (hend ?_ (by decide +kernel)), by decide +kernel⟩
  intro p hp
  obtain rfl := eq_of_mem_replicate hp
  exact ⟨[1], rfl, 1, mem_singleton.2 rfl, one_pos⟩

end DvbIpiTools.Cas
