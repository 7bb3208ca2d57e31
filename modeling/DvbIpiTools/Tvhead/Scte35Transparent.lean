import DvbIpiTools.Tvhead.Scte35stamp

set_option autoImplicit false

/-! # SCTE-35 packets go through (`mux/scte35stamp.c`)

Which packets make a complete section is said without the code's state: a first packet that starts one and the packets
behind it that go on with it, up to the one that ends it. What leaves is what came, with these sections restamped. -/

namespace DvbIpiTools.Tvhead.Scte35stamp

open BeUtil Demux List Nat

/-! ## Complete sections in a run of packets -/

/-- A packet that is not scrambled and has a payload. -/
def Clear (p : Pkt) : Prop := ¬(byteAt p.bytes 3 >>> 6 ≠ 0 ∨ byteAt p.bytes 3 &&& 0x10 = 0)

/-- The unit start indicator. -/
def UnitStart (p : Pkt) : Prop := byteAt p.bytes 1 &&& 0x40 ≠ 0

instance (p : Pkt) : Decidable (Clear p) := inferInstanceAs (Decidable (¬_))
instance (p : Pkt) : Decidable (UnitStart p) := inferInstanceAs (Decidable (_ ≠ _))

/-- A splice section of `total` bytes starts in the packet. -/
structure Begins (p : Pkt) (total : Nat) : Prop where
  clear : Clear p
  unitStart : UnitStart p
  header : startsSection p.bytes = some total
  count : (total + 1 + 182) / 183 ≤ scte35MaxPackets

/-- The packet may go on with a section. -/
structure Continues (p : Pkt) : Prop where
  clear : Clear p
  noStart : ¬UnitStart p
  payload : payloadStart p.bytes < 188

/-- A section and packets that go on with it. -/
def Started (total : Nat) (pk : List Pkt) : Prop := ∃ p rest, pk = p :: rest ∧ Begins p total ∧ ∀ q ∈ rest, Continues q

/-- The packets of a complete section, none too many. -/
structure Collected (total : Nat) (pk : List Pkt) : Prop where
  started : Started total pk
  count : pk.length ≤ scte35MaxPackets
  short : room true pk.dropLast < total
  whole : total ≤ room true pk

/-- A complete section with a good CRC. -/
def Valid (qs : List (Pkt × Int)) (total : Nat) : Prop :=
  Collected total (qs.map Prod.fst) ∧ crc32Mpeg ((payload true (qs.map Prod.fst)).take total) = 0

/-- The packets `new` are the packets `old` with the section of `total` bytes in them moved by `delta90k`. -/
structure Restamped (total : Nat) (delta90k : Int) (old new : List Pkt) : Prop where
  origin : new.map Pkt.origin = old.map Pkt.origin
  length : ∀ p ∈ new, p.bytes.length = 188
  heads : heads true new = heads true old
  tail : (payload true new).drop total = (payload true old).drop total
  shifted : Shifted delta90k ((payload true old).take total) ((payload true new).take total)

/-- What is sent for what is fed: complete sections restamped with the delta of their last packet, and every packet of no
such section as it came. -/
inductive Sent : List (Pkt × Int) → List Pkt → Prop
  | nil : Sent [] []
  | same {p : Pkt} {d : Int} {fs : List (Pkt × Int)} {out : List Pkt}
      (h : ∀ qs total, qs <+: (p, d) :: fs → ¬Valid qs total) (hrest : Sent fs out) : Sent ((p, d) :: fs) (p :: out)
  | restamped {qs : List (Pkt × Int)} {p : Pkt} {d : Int} {total : Nat} {new : List Pkt} {fs : List (Pkt × Int)}
      {out : List Pkt} (hvalid : Valid (qs ++ [(p, d)]) total) (hnew : Restamped total d ((qs ++ [(p, d)]).map Prod.fst) new)
      (hrest : Sent fs out) : Sent (qs ++ (p, d) :: fs) (new ++ out)

/-! ## Room -/

theorem room_append (first : Bool) (pk : List Pkt) (p : Pkt) (hpk : pk ≠ []) :
    room first (pk ++ [p]) = room first pk + (188 - sectionStart false p.bytes) := by
  induction pk generalizing first with
  | nil => exact absurd rfl hpk
  | cons q pk ih =>
    cases pk with
    | nil => rfl
    | cons r pk => exact (congrArg (_ + ·) (ih false (by simp))).trans (add_assoc _ _ _).symm

variable {xs ys : List Pkt}

theorem room_mono {first : Bool} (h : xs <+: ys) : room first xs ≤ room first ys := by
  obtain ⟨zs, rfl⟩ := h
  induction xs generalizing first with
  | nil => exact zero_le _
  | cons x xs ih => exact Nat.add_le_add_left ih _

variable {total : Nat}

theorem startsSection_bounds {pkt : List UInt8} (h : startsSection pkt = some total) :
    16 ≤ total ∧ total ≤ sectionMax ∧ payloadStart pkt + 17 ≤ 188 := by
  unfold startsSection at h
  dsimp only at h
  split at h
  · cases h
  · split at h
    · next hb =>
      cases h
      exact hb
    · cases h

variable {pk : List Pkt}

theorem Started.start_le (h : Started total pk) : ∀ p ∈ pk, sectionStart true p.bytes ≤ 188 := by
  obtain ⟨p, rest, rfl, hb, hc⟩ := h
  intro q hq
  rcases mem_cons.1 hq with rfl | hq
  · have hbounds := startsSection_bounds hb.header
    rw [sectionStart, if_pos rfl]
    omega
  · have hpay := (hc q hq).payload
    rw [sectionStart, if_pos rfl]
    omega

/-! ## `patch_and_emit` on a complete section -/

variable {s : Scte35stamp}

theorem patchAndEmit_collected (h : Collected s.total s.pk) (hlen : ∀ p ∈ s.pk, p.bytes.length = 188)
    (delta90k : Int) : (s.patchAndEmit delta90k).2 = {} ∧
      (crc32Mpeg ((payload true s.pk).take s.total) ≠ 0 → (s.patchAndEmit delta90k).1 = s.pk) ∧
      (crc32Mpeg ((payload true s.pk).take s.total) = 0 →
        Restamped s.total delta90k s.pk (s.patchAndEmit delta90k).1) := by
  have hpaylen := length_payload hlen true
  have hseclen : ((payload true s.pk).take s.total).length = s.total := by
    rw [length_take, hpaylen, min_eq_left h.whole]
  have hsec : (gather true s.pk s.total ++ replicate s.total 0).take s.total = (payload true s.pk).take s.total := by
    rw [gather_eq hlen, take_left' hseclen]
  have htotal : 16 ≤ s.total := by
    obtain ⟨p, rest, -, hb, -⟩ := h.started
    exact (startsSection_bounds hb.header).1
  rw [patchAndEmit, hsec]
  by_cases hcrc : crc32Mpeg ((payload true s.pk).take s.total) = 0
  · have hshift := @shiftSection_shifted ((payload true s.pk).take s.total) (hseclen.symm ▸ htotal) delta90k
    have hnewlen : (shiftSection ((payload true s.pk).take s.total) delta90k).length = s.total :=
      hshift.length.trans hseclen
    obtain ⟨hlens, hheads, hpayload⟩ := scatter_spec hlen h.started.start_le (hnewlen.symm ▸ h.whole)
    rw [if_neg (not_not.2 hcrc)]
    refine ⟨rfl, absurd hcrc, fun _ => ⟨scatter_origin _ _ _, hlens, hheads, ?_, ?_⟩⟩
    · show (payload true (scatter true s.pk _)).drop s.total = _
      rw [hpayload, hnewlen, drop_left' hnewlen]
    · show Shifted _ _ ((payload true (scatter true s.pk _)).take s.total)
      rw [hpayload, take_left' hnewlen]
      exact hshift
  · rw [if_pos hcrc]
    exact ⟨rfl, fun _ => rfl, fun h0 => absurd h0 hcrc⟩

/-! ## The state between packets -/

/-- A packet put behind those held. -/
def store (s : Scte35stamp) (p : Pkt) : Scte35stamp :=
  { s with pk := s.pk ++ [p], got := s.got + sectionTake (s.pk.length = 0) p.bytes (s.total - s.got) }

/-- The state behind the `memcpy` of `scte35stamp_feed`, for a packet that gets there. -/
def accepted (s : Scte35stamp) (p : Pkt) : Option Scte35stamp :=
  if ¬Clear p then none
  else if UnitStart p then
    match startsSection p.bytes with
    | none => none
    | some total => if (total + 1 + 182) / 183 > scte35MaxPackets then none else some (store { total } p)
  else if s.pk.length = 0 then none
  else if payloadStart p.bytes ≥ 188 then none
  else if s.pk.length ≥ scte35MaxPackets then none
  else some (store s p)

/-- The end of `scte35stamp_feed`. -/
def settle (s : Scte35stamp) (delta90k : Int) : List Pkt × Scte35stamp :=
  if s.got ≥ s.total then s.patchAndEmit delta90k else ([], s)

theorem feed_eq (hempty : s.pk = [] → s = {}) (p : Pkt) (delta90k : Int) : s.feed p delta90k = match s.accepted p with
    | none => s.passThrough p
    | some s' => ((if UnitStart p then s.pk else []) ++ (s'.settle delta90k).1, (s'.settle delta90k).2) := by
  rw [feed, accepted]
  by_cases hclear : Clear p
  · rw [if_neg hclear, if_neg (not_not.2 hclear)]
    by_cases hstart : UnitStart p
    · have hbit : byteAt p.bytes 1 &&& 0x40 ≠ 0 := hstart
      simp only [if_pos hbit, if_pos hstart]
      cases startsSection p.bytes with
      | none => rfl
      | some total =>
        dsimp only
        split <;> rfl
    have hbit : ¬byteAt p.bytes 1 &&& 0x40 ≠ 0 := hstart
    simp only [if_neg hbit, if_neg hstart]
    split
    · next hzero =>
      rw [hempty (length_eq_zero_iff.1 hzero)]
      rfl
    · split
      · rfl
      · rw [collect]
        split <;> rfl
  · rw [if_pos (not_not.1 hclear), if_pos hclear]

/-- Packets are held: the beginning of a section that is not complete. -/
structure Holds (s : Scte35stamp) : Prop where
  started : Started s.total s.pk
  count : s.pk.length ≤ scte35MaxPackets
  got : s.got = room true s.pk
  short : s.got < s.total

/-- Every reachable state. -/
def Inv (s : Scte35stamp) : Prop := s = {} ∨ s.Holds

theorem Holds.pk_ne_nil (h : s.Holds) : s.pk ≠ [] := by
  obtain ⟨p, rest, hpk, -, -⟩ := h.started
  rw [hpk]
  exact cons_ne_nil p rest

theorem Inv.empty (h : s.Inv) (hpk : s.pk = []) : s = {} := h.resolve_right fun hs => hs.pk_ne_nil hpk

/-- What a packet that is taken makes of the state. -/
structure Stored (s : Scte35stamp) (p : Pkt) (s' : Scte35stamp) : Prop where
  started : Started s'.total s'.pk
  count : s'.pk.length ≤ scte35MaxPackets
  short : room true s'.pk.dropLast < s'.total
  got : s'.got = min s'.total (room true s'.pk)
  cases : (UnitStart p ∧ s'.pk = [p]) ∨ (Continues p ∧ s.Holds ∧ s'.pk = s.pk ++ [p] ∧ s'.total = s.total)

variable {p : Pkt} {s' : Scte35stamp}

theorem accepted_spec (hs : s.Inv) (h : s.accepted p = some s') : s.Stored p s' := by
  unfold accepted at h
  split at h
  · cases h
  rename_i hclear
  rw [not_not] at hclear
  split at h
  · next hstart =>
    split at h
    · cases h
    rename_i total hheader
    split at h
    · cases h
    rename_i hcount
    cases h
    have hbegins : Begins p total := ⟨hclear, hstart, hheader, le_of_not_gt hcount⟩
    have hbounds := startsSection_bounds hheader
    refine ⟨⟨p, [], rfl, hbegins, fun q hq => absurd hq (by simp)⟩, ?_, ?_, ?_, .inl ⟨hstart, rfl⟩⟩
    · show 1 ≤ scte35MaxPackets
      decide
    · show 0 < total
      omega
    · show 0 + sectionTake true p.bytes (total - 0) = min total (188 - sectionStart true p.bytes + 0)
      rw [sectionTake, zero_add, Nat.sub_zero, add_zero, Nat.min_comm]
  · next hstart =>
    split at h
    · cases h
    rename_i hzero
    split at h
    · cases h
    rename_i hpay
    split at h
    · cases h
    rename_i hcount
    cases h
    have hholds : s.Holds := hs.resolve_left fun hs => hzero (by rw [hs]; rfl)
    have hcont : Continues p := ⟨hclear, hstart, not_le.1 hpay⟩
    obtain ⟨q, rest, hpk, hb, hc⟩ := hholds.started
    have hroom := room_append true s.pk p hholds.pk_ne_nil
    refine ⟨⟨q, rest ++ [p], by rw [store, hpk]; rfl, hb, fun r hr => ?_⟩, ?_, ?_, ?_, .inr ⟨hcont, hholds, rfl, rfl⟩⟩
    · rcases mem_append.1 hr with hr | hr
      · exact hc r hr
      · exact mem_singleton.1 hr ▸ hcont
    · rw [store, length_append, length_singleton]
      omega
    · rw [store, dropLast_concat, ← hholds.got]
      exact hholds.short
    · have hgot := hholds.got
      have hshort := hholds.short
      show s.got + sectionTake (s.pk.length = 0) p.bytes (s.total - s.got) = min s.total (room true (s.pk ++ [p]))
      rw [hroom, sectionTake, decide_eq_false hzero]
      omega

/-- A packet that is not taken starts no section, and goes on with none that is held. -/
theorem not_taken (h : s.accepted p = none) :
    (∀ total, ¬Begins p total) ∧ (s.pk ≠ [] → ¬Continues p ∨ s.pk.length ≥ scte35MaxPackets) := by
  refine ⟨fun total hb => ?_, fun hpk => ?_⟩
  · rw [accepted, if_neg (not_not.2 hb.clear), if_pos hb.unitStart, hb.header] at h
    dsimp only at h
    rw [if_neg (not_lt.2 hb.count)] at h
    cases h
  by_contra hno
  rw [not_or, not_not, not_le] at hno
  obtain ⟨hc, hcount⟩ := hno
  rw [accepted, if_neg (not_not.2 hc.clear), if_neg hc.noStart,
    if_neg (mt length_eq_zero_iff.1 hpk), if_neg (not_le.2 hc.payload), if_neg (not_le.2 hcount)] at h
  cases h

/-! ## What is no section -/

/-- No complete section with a good CRC begins with the first of these packets. -/
def NoSection (fs : List (Pkt × Int)) : Prop := ∀ qs total, qs <+: fs → ¬Valid qs total

variable {f : Pkt × Int}

theorem noSection_of_not_begins (h : ∀ total, ¬Begins f.1 total) (fs : List (Pkt × Int)) : NoSection (f :: fs) := by
  intro qs total hq hv
  obtain ⟨p, rest, hpk, hb, -⟩ := hv.1.started
  cases qs with
  | nil => cases hpk
  | cons g qs =>
    obtain rfl : g = f := (cons_prefix_cons.1 hq).1
    obtain rfl : g.1 = p := (cons.inj hpk).1
    exact h total hb

theorem Continues.not_begins (h : Continues p) (total : Nat) : ¬Begins p total := fun hb => h.noStart hb.unitStart

theorem Collected.of_prefix {t : Nat} (hstarted : Started total xs) (hc : Collected t ys) :
    (ys <+: xs → t = total ∧ t ≤ room true xs) ∧
      (∀ z zs, ys = xs ++ z :: zs → t = total ∧ room true xs < t ∧ Continues z ∧ xs.length < scte35MaxPackets) := by
  obtain ⟨p, rest, rfl, hb, -⟩ := hstarted
  obtain ⟨q, rest', rfl, hb', hc'⟩ := hc.started
  have htotal : q = p → t = total := fun hqp => by
    have h := hb'.header
    rw [hqp, hb.header] at h
    exact (Option.some.inj h).symm
  refine ⟨fun hpre => ⟨htotal (cons_prefix_cons.1 hpre).1, hc.whole.trans (room_mono hpre)⟩, fun z zs hz => ?_⟩
  have hlen := congrArg length hz
  have hcount := hc.count
  rw [length_append, show (z :: zs).length = zs.length + 1 from rfl] at hlen
  obtain ⟨hqp, hrest⟩ := cons.inj hz
  refine ⟨htotal hqp, ?_, hc' z (hrest ▸ by simp), by omega⟩
  -- the packets before the last one are not enough
  refine lt_of_le_of_lt (room_mono ?_) hc.short
  have hne : z :: zs ≠ [] := cons_ne_nil z zs
  rw [hz, dropLast_append_of_ne_nil hne]
  exact prefix_append _ _

/-- Either of two prefixes of a list is a prefix of the other one, or goes on behind it. -/
theorem prefix_cases {α : Type} {qs hs fs : List α} (h : qs <+: hs ++ fs) :
    qs <+: hs ∨ ∃ z zs, qs = hs ++ z :: zs ∧ z :: zs <+: fs := by
  rcases prefix_or_prefix_of_prefix h (prefix_append hs fs) with h' | ⟨zs, rfl⟩
  · exact .inl h'
  · cases zs with
    | nil => exact .inl (by simp)
    | cons z zs => exact .inr ⟨z, zs, rfl, (prefix_append_right_inj hs).mp h⟩

variable {hs fs : List (Pkt × Int)}

/-- A section that is not complete with the packets held, and not continued by the next one. -/
theorem noSection_of_interrupted (h : s.Holds) (hpk : hs.map Prod.fst = s.pk)
    (hnext : ∀ f ∈ fs.head?, ¬Continues f.1 ∨ s.pk.length ≥ scte35MaxPackets) : NoSection (hs ++ fs) := by
  intro qs total hq hv
  have hunique := Collected.of_prefix h.started hv.1
  have hroom := h.got ▸ h.short
  rcases prefix_cases hq with hq | ⟨z, zs, rfl, hz⟩
  · obtain ⟨rfl, hwhole⟩ := hunique.1 (hpk ▸ hq.map Prod.fst)
    omega
  obtain ⟨-, -, hcont, hcount⟩ := hunique.2 z.1 (zs.map Prod.fst) (by rw [map_append, hpk]; rfl)
  cases fs with
  | nil => exact absurd (prefix_nil.1 hz) (by simp)
  | cons f fs =>
    obtain rfl : z = f := (cons_prefix_cons.1 hz).1
    rcases hnext z rfl with hno | hfull
    · exact hno hcont
    · omega

theorem noSection_of_bad (h : Collected total (hs.map Prod.fst))
    (hcrc : crc32Mpeg ((payload true (hs.map Prod.fst)).take total) ≠ 0) : NoSection (hs ++ fs) := by
  intro qs t hq hv
  have hunique := Collected.of_prefix h.started hv.1
  rcases prefix_cases hq with hq | ⟨z, zs, rfl, -⟩
  · obtain ⟨rfl, -⟩ := hunique.1 (hq.map Prod.fst)
    obtain ⟨ys, rfl⟩ := hq
    cases ys with
    | nil => exact hcrc (by rw [append_nil]; exact hv.2)
    | cons y ys =>
      have hback := ((Collected.of_prefix hv.1.started h).2 y.1 (ys.map Prod.fst) (by rw [map_append]; rfl)).2.1
      have hwhole := hv.1.whole
      omega
  · obtain ⟨rfl, hlt, -, -⟩ := hunique.2 z.1 (zs.map Prod.fst) (by rw [map_append]; rfl)
    have hwhole := h.whole
    omega

variable {out : List Pkt}

/-- Packets that go out as they came: no section begins at the first one, and the others start none. -/
theorem Sent.pass (hno : NoSection (f :: hs ++ fs))
    (hcont : ∀ g ∈ hs, ∀ total, ¬Begins g.1 total) (h : Sent fs out) : Sent (f :: hs ++ fs) ((f :: hs).map Prod.fst ++ out) := by
  refine .same hno ?_
  clear hno
  induction hs with
  | nil => exact h
  | cons g hs ih =>
    exact .same (noSection_of_not_begins (hcont g mem_cons_self) (hs ++ fs))
      (ih fun g' hg' => hcont g' (mem_cons_of_mem g hg'))

theorem Started.pass (h : Started total pk)
    (hpk : hs.map Prod.fst = pk) (hno : NoSection (hs ++ fs)) (hrest : Sent fs out) : Sent (hs ++ fs) (pk ++ out) := by
  obtain ⟨p, rest, rfl, -, hc⟩ := h
  cases hs with
  | nil => cases hpk
  | cons f hs =>
    have hmap : hs.map Prod.fst = rest := (cons.inj hpk).2
    rw [← hpk]
    exact hrest.pass hno fun g hg => (hc g.1 (hmap ▸ mem_map_of_mem hg)).not_begins

/-! ## Runs -/

/-- Packets fed one after the other, each with its delta. -/
def feedAll (s : Scte35stamp) : List (Pkt × Int) → List Pkt × Scte35stamp
  | [] => ([], s)
  | f :: fs => ((s.feed f.1 f.2).1 ++ (feedAll (s.feed f.1 f.2).2 fs).1, (feedAll (s.feed f.1 f.2).2 fs).2)

/-- What goes out while the packets are fed and at the flush behind them. -/
def emitted (s : Scte35stamp) (fs : List (Pkt × Int)) : List Pkt := (s.feedAll fs).1 ++ (s.feedAll fs).2.flush.1

theorem emitted_cons (s : Scte35stamp) (f : Pkt × Int) (fs : List (Pkt × Int)) :
    s.emitted (f :: fs) = (s.feed f.1 f.2).1 ++ (s.feed f.1 f.2).2.emitted fs := by
  rw [emitted, emitted, feedAll, append_assoc]

theorem settle_sent {s s' : Scte35stamp} {p : Pkt} {d : Int} (h : s.Stored p s')
    (hlen : ∀ q ∈ s'.pk, q.bytes.length = 188) {hs fs : List (Pkt × Int)}
    (hpk : (hs ++ [(p, d)]).map Prod.fst = s'.pk)
    (ih : ∀ (t : Scte35stamp) (ts : List (Pkt × Int)), t.Inv → ts.map Prod.fst = t.pk → (∀ q ∈ t.pk, q.bytes.length = 188) → Sent (ts ++ fs) (t.emitted fs)) :
    Sent (hs ++ (p, d) :: fs) ((s'.settle d).1 ++ (s'.settle d).2.emitted fs) := by
  have hsplit : hs ++ (p, d) :: fs = (hs ++ [(p, d)]) ++ fs := by
    rw [append_assoc]
    rfl
  have hgot := h.got
  rw [settle]
  split
  · next hfull =>
    have hcollected : Collected s'.total s'.pk := ⟨h.started, h.count, h.short, by omega⟩
    obtain ⟨hempty, hbad, hgood⟩ := patchAndEmit_collected hcollected hlen d
    have hrest : Sent fs (emitted {} fs) := ih {} [] (.inl rfl) rfl fun q hq => absurd hq (by simp)
    rw [hempty]
    by_cases hcrc : crc32Mpeg ((payload true s'.pk).take s'.total) = 0
    · have hvalid : Valid (hs ++ [(p, d)]) s'.total := by
        rw [Valid, hpk]
        exact ⟨hcollected, hcrc⟩
      exact .restamped hvalid (hpk ▸ hgood hcrc) hrest
    · rw [hbad hcrc, hsplit]
      exact h.started.pass hpk (noSection_of_bad (hpk ▸ hcollected) (hpk ▸ hcrc)) hrest
  · next hpart =>
    have hholds : s'.Holds := ⟨h.started, h.count, by omega, by omega⟩
    rw [nil_append, hsplit]
    exact ih s' _ (.inr hholds) hpk hlen

/-- A run from any reachable state: what is held and what is still fed goes out. -/
theorem emitted_sent (fs : List (Pkt × Int)) (hfs : ∀ f ∈ fs, f.1.bytes.length = 188) (s : Scte35stamp)
    (hs : List (Pkt × Int)) (hinv : s.Inv) (hpk : hs.map Prod.fst = s.pk) (hlen : ∀ q ∈ s.pk, q.bytes.length = 188) :
    Sent (hs ++ fs) (s.emitted fs) := by
  induction fs generalizing s hs with
  | nil =>
    show Sent (hs ++ []) ([] ++ s.pk)
    rcases hinv with rfl | hholds
    · rw [map_eq_nil_iff.1 hpk]
      exact .nil
    · rw [nil_append, ← append_nil s.pk]
      exact hholds.started.pass hpk (noSection_of_interrupted hholds hpk fun f hf => absurd hf (by simp)) .nil
  | cons f fs ih =>
    obtain ⟨p, d⟩ := f
    have hp : p.bytes.length = 188 := hfs (p, d) mem_cons_self
    have ih' := ih fun f hf => hfs f (.tail _ hf)
    -- the packets held before, when this one does not go on with their section
    have hheld : ∀ {out : List Pkt}, (s.pk ≠ [] → ¬Continues p ∨ s.pk.length ≥ scte35MaxPackets) →
        Sent ((p, d) :: fs) out → Sent (hs ++ (p, d) :: fs) (s.pk ++ out) := by
      intro out hnext hrest
      rcases hinv with rfl | hholds
      · rw [map_eq_nil_iff.1 hpk]
        exact hrest
      · refine hholds.started.pass hpk (noSection_of_interrupted hholds hpk fun f hf => ?_) hrest
        obtain rfl : (p, d) = f := Option.some.inj hf
        exact hnext hholds.pk_ne_nil
    rw [emitted_cons, feed_eq hinv.empty]
    cases hacc : s.accepted p with
    | none =>
      obtain ⟨hbegins, hnext⟩ := not_taken hacc
      have hrest : Sent fs (emitted {} fs) := ih' {} [] (.inl rfl) rfl fun q hq => absurd hq (by simp)
      show Sent _ ((s.pk ++ [p]) ++ emitted {} fs)
      rw [append_assoc]
      exact hheld hnext (.same (noSection_of_not_begins hbegins fs) hrest)
    | some s' =>
      have hstored := accepted_spec hinv hacc
      rw [append_assoc]
      rcases hstored.cases with ⟨hstart, hpk'⟩ | ⟨hcont, hholds, hpk', -⟩
      · rw [if_pos hstart]
        refine hheld (fun _ => .inl fun hc => hc.noStart hstart) ?_
        exact @settle_sent s s' p d hstored (hpk' ▸ fun q hq => mem_singleton.1 hq ▸ hp) [] fs hpk'.symm ih'
      rw [if_neg hcont.noStart, nil_append]
      refine settle_sent hstored (fun q hq => ?_) (by rw [map_append, hpk, hpk']; rfl) ih'
      rw [hpk'] at hq
      rcases mem_append.1 hq with hq | hq
      · exact hlen q hq
      · exact mem_singleton.1 hq ▸ hp

theorem Sent.origin (h : Sent fs out) : out.map Pkt.origin = fs.map fun f => f.1.origin := by
  induction h with
  | nil => rfl
  | same _ _ ih => rw [map_cons, map_cons, ih]
  | @restamped qs p d total new fs out _ hnew _ ih =>
    rw [map_append, hnew.origin, ih, map_map, map_append, map_append, append_assoc]
    rfl

/-! ## Bounds -/

/-- What keeps the offsets of `patch_and_emit` inside: the count of packets, the length of the section, the start of its
part in each packet, and the position in the section reached behind any number of packets. -/
structure InBounds (s : Scte35stamp) : Prop where
  count : s.pk.length ≤ scte35MaxPackets
  total : s.total ≤ sectionMax
  got : s.got ≤ s.total
  start : ∀ p ∈ s.pk, sectionStart true p.bytes ≤ 188
  pos : ∀ i, (gather true (s.pk.take i) s.total).length ≤ s.total

theorem length_gather_le (first : Bool) (pk : List Pkt) (left : Nat) : (gather first pk left).length ≤ left := by
  induction pk generalizing first left with
  | nil => exact zero_le _
  | cons p pk ih =>
    have htail := ih false (left - sectionTake first p.bytes left)
    have htake : sectionTake first p.bytes left ≤ left := min_le_right _ _
    rw [gather, length_append, length_take]
    omega

theorem Stored.inBounds (h : s.Stored p s') : s'.InBounds := by
  refine ⟨h.count, ?_, h.got ▸ min_le_left _ _, h.started.start_le, fun i => length_gather_le true _ _⟩
  obtain ⟨q, rest, -, hb, -⟩ := h.started
  exact (startsSection_bounds hb.header).2.1

theorem feed_inv (hs : s.Inv) (p : Pkt) (d : Int) : (s.feed p d).2.Inv := by
  rw [feed_eq hs.empty]
  cases hacc : s.accepted p with
  | none => exact .inl rfl
  | some s' =>
    have h := accepted_spec hs hacc
    have hgot := h.got
    show (s'.settle d).2.Inv
    rw [settle]
    split
    · refine .inl ?_
      unfold patchAndEmit
      dsimp only
      split <;> rfl
    · have hholds : s'.Holds := ⟨h.started, h.count, by omega, by omega⟩
      exact .inr hholds

theorem feedAll_inv (hs : s.Inv) (fs : List (Pkt × Int)) : (s.feedAll fs).2.Inv := by
  induction fs generalizing s with
  | nil => exact hs
  | cons f fs ih => exact ih (feed_inv hs f.1 f.2)

/-- Patching is transparent: what is fed goes out, complete sections restamped, and no offset leaves its buffer. -/
theorem scte35stamp_transparent (fs : List (Pkt × Int)) (hfs : ∀ f ∈ fs, f.1.bytes.length = 188) :
    Sent fs (emitted {} fs) ∧ (emitted {} fs).map Pkt.origin = fs.map (fun f => f.1.origin) ∧
      ∀ (before : List (Pkt × Int)) (f : Pkt × Int) (s' : Scte35stamp), (feedAll {} before).2.accepted f.1 = some s' →
        ((feedAll {} before).2.feed f.1 f.2).2 = (s'.settle f.2).2 ∧ s'.InBounds := by
  have hsent := emitted_sent fs hfs {} [] (.inl rfl) rfl fun q hq => absurd hq (by simp)
  refine ⟨hsent, hsent.origin, fun before f s' hacc => ?_⟩
  have hinv := feedAll_inv (.inl rfl : Inv {}) before
  refine ⟨?_, (accepted_spec hinv hacc).inBounds⟩
  rw [feed_eq hinv.empty, hacc]

/-- A section of 200 bytes in two packets: its time wraps around at `2^33`, and the CRC is made anew. -/
theorem scte35stamp_transparent_wraps :
    let packets (adj crc : List UInt8) : List Pkt :=
      let sec := [0xFC, 0x30, 0xC5, 0] ++ adj ++ replicate 187 0 ++ crc
      [⟨[0x47, 0x40, 0x64, 0x10, 0] ++ sec.take 183, 0, 0⟩,
        ⟨[0x47, 0, 0x64, 0x11] ++ sec.drop 183 ++ replicate 167 0xFF, 0, 1⟩]
    let fs := (packets [1, 0xFF, 0xFF, 0xFF, 0xFF] [0x2D, 0x60, 0x85, 0x7F]).map (·, 90000)
    (emitted {} fs).map Pkt.bytes = (packets [0, 0, 1, 0x5F, 0x8F] [0x38, 0x64, 0x6C, 0x44]).map Pkt.bytes ∧
      Sent fs (emitted {} fs) := by
  intro packets fs
  exact ⟨by decide +kernel, (scte35stamp_transparent fs (by decide +kernel)).1⟩

end DvbIpiTools.Tvhead.Scte35stamp
