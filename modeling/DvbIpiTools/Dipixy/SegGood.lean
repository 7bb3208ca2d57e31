import DvbIpiTools.Dipixy.SegCalls

set_option autoImplicit false

/-! # Snapshots that are in order

The segments of a snapshot are numbered and timed one after the other, and parts lie one behind the other. Every
call makes such a snapshot from one that is in order. -/

namespace DvbIpiTools.Dipixy

open RefCount List Nat

/-- Segments one after the other, from a number and a time to those of the next one. -/
def Timeline : UInt32 → UInt64 → List Seg → UInt32 → UInt64 → Prop
  | q, t, [], q', t' => q = q' ∧ t = t'
  | q, t, s :: ss, q', t' => s.seq = q ∧ s.startMs = t ∧ Timeline (q + 1) (t + s.duration.ms) ss q' t'

/-- Parts one behind the other. -/
def Tiles : Nat → List Part → Nat → Prop
  | off, [], size => off = size
  | off, p :: ps, size => p.offset = off ∧ Tiles (off + p.size) ps size

variable {segs : List Seg} {q q' : UInt32} {t t' : UInt64}

theorem Timeline.append (h : Timeline q t segs q' t') {s : Seg} (hseq : s.seq = q') (hstart : s.startMs = t') :
    Timeline q t (segs ++ [s]) (q' + 1) (t' + s.duration.ms) := by
  induction segs generalizing q t with
  | nil =>
    obtain ⟨rfl, rfl⟩ := h
    exact ⟨hseq, hstart, rfl, rfl⟩
  | cons a segs ih =>
    obtain ⟨ha, hta, hrest⟩ := h
    exact ⟨ha, hta, ih hrest⟩

theorem Tiles.append {ps : List Part} {off size : Nat} (h : Tiles off ps size) {p : Part} (hp : p.offset = size) :
    Tiles off (ps ++ [p]) (size + p.size) := by
  induction ps generalizing off with
  | nil =>
    obtain rfl : off = size := h
    exact ⟨hp, rfl⟩
  | cons a ps ih =>
    obtain ⟨ha, hrest⟩ := h
    exact ⟨ha, ih hrest⟩

variable (h : Timeline q t segs q' t')

include h

theorem Timeline.seq_eq {i : Nat} {s : Seg} (hs : segs[i]? = some s) : s.seq = q + UInt32.ofNat i := by
  induction segs generalizing q t i with
  | nil => cases hs
  | cons a segs ih =>
    obtain ⟨ha, -, hrest⟩ := h
    cases i with
    | zero =>
      cases hs
      rw [ha]
      exact (UInt32.add_zero q).symm
    | succ i =>
      rw [ih hrest hs, UInt32.ofNat_add, UInt32.add_assoc, UInt32.add_comm 1]
      rfl

theorem Timeline.next_eq : q' = q + UInt32.ofNat segs.length := by
  induction segs generalizing q t with
  | nil =>
    obtain ⟨rfl, -⟩ := h
    exact (UInt32.add_zero q).symm
  | cons a segs ih =>
    obtain ⟨-, -, hrest⟩ := h
    rw [ih hrest, length_cons, UInt32.ofNat_add, UInt32.add_assoc, UInt32.add_comm 1]
    rfl

theorem Timeline.start_eq {i : Nat} {a b : Seg} (ha : segs[i]? = some a) (hb : segs[i + 1]? = some b) :
    b.startMs = a.startMs + a.duration.ms := by
  induction segs generalizing q t i with
  | nil => cases ha
  | cons s segs ih =>
    obtain ⟨-, hs, hrest⟩ := h
    cases i with
    | zero =>
      cases ha
      cases segs with
      | nil => cases hb
      | cons c segs =>
        cases hb
        rw [hrest.2.1, hs]
    | succ i => exact ih hrest ha hb

omit h

def bufLen (b : Option Buf) : Nat := ((b.map Buf.bytes).getD []).length

theorem BufLe.len {a b : Option Buf} (h : BufLe a b) : bufLen a ≤ bufLen b := by
  rcases h with rfl | ⟨buf, more, rfl, rfl⟩
  · exact le_rfl
  · show buf.bytes.length ≤ (buf.bytes ++ more).length
    rw [length_append]
    omega

/-- A snapshot that is in order, with what it shows. -/
structure Good (maxSegs : Nat) (s : Snapshot) (sh : Shown) : Prop where
  length : sh.segs.length = s.count
  count : s.count ≤ maxSegs
  timeline : ∃ t, Timeline s.oldestSeq t (sh.segs.map Prod.fst) s.nextSeq s.cumMs
  parts : ∀ p ∈ sh.segs, p.1.parts = [] ∨ Tiles 0 p.1.parts p.1.size
  sizes : ∀ p ∈ sh.segs, p.1.size ≤ bufLen p.2
  liveParts : Tiles 0 s.liveParts s.liveLen
  liveLen : s.liveLen ≤ bufLen sh.live
  liveCap : ∀ b, sh.live = some b → s.liveLen ≤ s.liveCap ∧ s.liveCap = b.cap
  initSize : s.initSize ≤ bufLen sh.init
  breaks : (sh.segs.map Prod.fst).countP Seg.disc + s.discPending.toNat ≤ 1

/-- What is known besides when segments were not pushed whole, or not in parts. -/
structure Fed (whole parts : Bool) (s : Snapshot) (sh : Shown) : Prop where
  tiles : whole = false → ∀ p ∈ sh.segs, Tiles 0 p.1.parts p.1.size
  liveMsn : whole = false → s.partTarget > 0 → s.liveMsn = s.nextSeq
  noParts : parts = false → s.liveParts = [] ∧ ∀ p ∈ sh.segs, p.1.parts = []

section

variable {maxSegs : Nat} {s : Snapshot} {a b : Shown} {whole parts : Bool}

theorem SegsLe.fst_eq {a b : List (Seg × Option Buf)} (h : SegsLe a b) : b.map Prod.fst = a.map Prod.fst := by
  induction h with
  | nil => rfl
  | cons hp _ ih => rw [map_cons, map_cons, ih, hp.1]

theorem SegsLe.mem {a b : List (Seg × Option Buf)} (h : SegsLe a b) {q : Seg × Option Buf} (hq : q ∈ b) :
    ∃ p ∈ a, p.1 = q.1 ∧ BufLe p.2 q.2 := by
  induction h with
  | nil => cases hq
  | @cons p q' as bs hp _ ih =>
    rcases mem_cons.1 hq with rfl | hq
    · exact ⟨p, mem_cons_self, hp⟩
    · obtain ⟨p', hp', heq⟩ := ih hq
      exact ⟨p', mem_cons_of_mem _ hp', heq⟩

theorem Good.le (g : Good maxSegs s a) (h : ShownLe a b) : Good maxSegs s b := by
  refine ⟨?_, g.count, ?_, ?_, ?_, g.liveParts, le_trans g.liveLen h.live.len, ?_, le_trans g.initSize h.init.len, ?_⟩
  · have hlen := congrArg List.length h.segs.fst_eq
    rw [length_map, length_map] at hlen
    exact hlen.trans g.length
  · rw [h.segs.fst_eq]
    exact g.timeline
  · intro q hq
    obtain ⟨p, hp, heq, -⟩ := h.segs.mem hq
    rw [← heq]
    exact g.parts p hp
  · intro q hq
    obtain ⟨p, hp, heq, hle⟩ := h.segs.mem hq
    rw [← heq]
    exact le_trans (g.sizes p hp) hle.len
  · intro buf hbuf
    rcases h.live with heq | ⟨buf', more, ha, hb⟩
    · exact g.liveCap buf (heq.trans hbuf)
    · obtain rfl := Option.some.inj (hb.symm.trans hbuf)
      exact g.liveCap buf' ha
  · rw [h.segs.fst_eq]
    exact g.breaks

theorem Fed.le (f : Fed whole parts s a) (h : ShownLe a b) : Fed whole parts s b := by
  refine ⟨fun hw q hq => ?_, f.liveMsn, fun hp => ⟨(f.noParts hp).1, fun q hq => ?_⟩⟩
  · obtain ⟨p, hp, heq, -⟩ := h.segs.mem hq
    rw [← heq]
    exact f.tiles hw p hp
  · obtain ⟨p, hmem, heq, -⟩ := h.segs.mem hq
    rw [← heq]
    exact (f.noParts hp).2 p hmem

/-! ## The calls -/

/-- A snapshot as it is published: no bytes lie behind those of the segment in progress. -/
structure Sound (maxSegs : Nat) (whole parts : Bool) (s : Snapshot) (sh : Shown) : Prop where
  good : Good maxSegs s sh
  fed : Fed whole parts s sh
  front : bufLen sh.live = s.liveLen

theorem Sound.withRing (h : Sound maxSegs whole parts s a) (r : Nat) : Sound maxSegs whole parts (s.withRing r) a :=
  ⟨{ h.good with }, ⟨h.fed.tiles, h.fed.liveMsn, h.fed.noParts⟩, h.front⟩

theorem basis_sound {v : StoreView} {h : Heap}
    (hold : ∀ b, v.old = some b → Sound v.maxSegs whole parts b (h.shows b)) :
    Sound v.maxSegs whole parts (basis v h).1 (basis v h).2 := by
  unfold basis
  cases hv : v.old with
  | none =>
    exact ⟨⟨rfl, zero_le _, ⟨0, rfl, rfl⟩, nofun, nofun, rfl, le_refl _, nofun, le_refl _, zero_le _⟩,
      ⟨fun _ => nofun, fun _ _ => rfl, fun _ => ⟨rfl, nofun⟩⟩, rfl⟩
  | some b => exact hold b hv

theorem kept_sublist (segs : List (Seg × Option Buf)) : (kept s maxSegs segs).Sublist segs := by
  rw [kept]
  split
  · exact tail_sublist segs
  · exact Sublist.refl segs

theorem mem_kept {segs : List (Seg × Option Buf)} {p : Seg × Option Buf} (hp : p ∈ kept s maxSegs segs) : p ∈ segs :=
  (kept_sublist segs).subset hp

theorem mem_pushed {segs : List (Seg × Option Buf)} {q p : Seg × Option Buf}
    (hp : p ∈ kept s maxSegs segs ++ [q]) : p ∈ segs ∨ p = q := by
  rcases mem_append.1 hp with hp | hp
  · exact .inl (mem_kept hp)
  · exact .inr (mem_singleton.1 hp)

theorem Good.kept (g : Good maxSegs s a) (hpos : 0 < maxSegs) :
    (kept s maxSegs a.segs).length = (s.evicted maxSegs).count ∧
      ∃ t, Timeline (s.evicted maxSegs).oldestSeq t ((kept s maxSegs a.segs).map Prod.fst) s.nextSeq s.cumMs := by
  rw [Dipixy.kept, Snapshot.evicted]
  obtain ⟨t, ht⟩ := g.timeline
  have hlen := g.length
  by_cases hfull : s.count ≥ maxSegs
  · rw [if_pos hfull, if_pos hfull]
    cases hsegs : a.segs with
    | nil =>
      rw [hsegs] at hlen
      have hzero : 0 = s.count := hlen
      omega
    | cons p segs =>
      rw [hsegs] at hlen ht
      obtain ⟨-, -, hrest⟩ := ht
      refine ⟨?_, _, hrest⟩
      rw [length_cons] at hlen
      show segs.length = s.count - 1
      omega
  · rw [if_neg hfull, if_neg hfull]
    exact ⟨hlen, t, ht⟩

theorem Good.pushed (g : Good maxSegs s a) (hpos : 0 < maxSegs) {seg : Seg} {buf : Option Buf} {d : Duration}
    (hseq : seg.seq = s.nextSeq) (hstart : seg.startMs = s.cumMs) (hd : seg.duration = d) (hdisc : seg.disc = s.discPending)
    (hparts : seg.parts = [] ∨ Tiles 0 seg.parts seg.size) (hsize : seg.size ≤ bufLen buf) :
    Good maxSegs ((s.evicted maxSegs).appended d) ⟨Dipixy.kept s maxSegs a.segs ++ [(seg, buf)], a.live, a.init⟩ := by
  obtain ⟨hlen, t, ht⟩ := g.kept hpos
  have hcount := evicted_count hpos g.count
  have hsame : (s.evicted maxSegs).nextSeq = s.nextSeq ∧ (s.evicted maxSegs).cumMs = s.cumMs ∧
      (s.evicted maxSegs).liveParts = s.liveParts ∧ (s.evicted maxSegs).liveLen = s.liveLen ∧
      (s.evicted maxSegs).liveCap = s.liveCap ∧ (s.evicted maxSegs).initSize = s.initSize := by
    rw [Snapshot.evicted]
    split <;> exact ⟨rfl, rfl, rfl, rfl, rfl, rfl⟩
  obtain ⟨hnext, hcum, hlp, hll, hlc, his⟩ := hsame
  refine ⟨?_, hcount, ⟨t, ?_⟩, fun p hp => ?_, fun p hp => ?_, ?_, ?_, ?_, ?_, ?_⟩
  · rw [length_append, hlen]
    rfl
  · rw [map_append]
    show Timeline _ _ _ ((s.evicted maxSegs).nextSeq + 1) ((s.evicted maxSegs).cumMs + d.ms)
    rw [hnext, hcum, ← hd]
    exact ht.append hseq hstart
  · rcases mem_pushed hp with hp | rfl
    · exact g.parts p hp
    · exact hparts
  · rcases mem_pushed hp with hp | rfl
    · exact g.sizes p hp
    · exact hsize
  · show Tiles 0 (s.evicted maxSegs).liveParts (s.evicted maxSegs).liveLen
    rw [hlp, hll]
    exact g.liveParts
  · show (s.evicted maxSegs).liveLen ≤ _
    rw [hll]
    exact g.liveLen
  · show ∀ b, a.live = some b → (s.evicted maxSegs).liveLen ≤ (s.evicted maxSegs).liveCap ∧ _
    rw [hll, hlc]
    intro b hb
    exact ⟨(g.liveCap b hb).1, hlc.trans (g.liveCap b hb).2⟩
  · show (s.evicted maxSegs).initSize ≤ _
    rw [his]
    exact g.initSize
  · have hkept : ((Dipixy.kept s maxSegs a.segs).map Prod.fst).countP Seg.disc ≤ (a.segs.map Prod.fst).countP Seg.disc :=
      ((kept_sublist a.segs).map Prod.fst).countP_le
    have hbreaks := g.breaks
    have hlast : [seg].countP Seg.disc = s.discPending.toNat := by
      rw [countP_singleton, hdisc]
      cases s.discPending <;> rfl
    rw [map_append, countP_append]
    show _ + [seg].countP Seg.disc + 0 ≤ 1
    omega

theorem Sound.pushWhole (h : Sound maxSegs whole parts s a) (hpos : 0 < maxSegs) (x : Nat) (data : List UInt8)
    (cap : Nat) (d : Duration) :
    Sound maxSegs true parts ((s.evicted maxSegs).appended d) ⟨kept s maxSegs a.segs ++
      [(⟨some x, data.length, d, s.nextSeq, s.cumMs, [], s.discPending⟩, some ⟨data, cap⟩)], a.live, a.init⟩ := by
  refine ⟨h.good.pushed hpos rfl rfl rfl rfl (.inl rfl) le_rfl, ⟨nofun, nofun, fun hp => ⟨?_, fun p hmem => ?_⟩⟩, ?_⟩
  · exact (evicted_live s maxSegs).2.2.trans (h.fed.noParts hp).1
  · rcases mem_pushed hmem with hmem | rfl
    · exact (h.fed.noParts hp).2 p hmem
    · rfl
  · exact h.front.trans (evicted_live s maxSegs).2.1.symm

theorem Sound.pushLl (h : Sound maxSegs whole parts s a) (hpos : 0 < maxSegs) (d : Duration) :
    Sound maxSegs whole true ((s.evicted maxSegs).appended d).closed ⟨kept s maxSegs a.segs ++
      [(⟨s.liveData, s.liveLen, d, s.nextSeq, s.cumMs, s.liveParts, s.discPending⟩, a.live)], none, a.init⟩ := by
  let seg : Seg := ⟨s.liveData, s.liveLen, d, s.nextSeq, s.cumMs, s.liveParts, s.discPending⟩
  have g := @Good.pushed _ _ _ h.good hpos seg a.live d rfl rfl rfl rfl (.inr h.good.liveParts) h.good.liveLen
  refine ⟨{ g with liveParts := rfl, liveLen := le_rfl, liveCap := nofun },
    ⟨fun hw p hmem => ?_, fun _ _ => rfl, nofun⟩, rfl⟩
  rcases mem_pushed hmem with hmem | rfl
  · exact h.fed.tiles hw p hmem
  · exact h.good.liveParts

theorem Sound.pushPart {b : Shown} (h : Sound maxSegs whole parts s a) {x cap : Nat} {data : List UInt8} (duration : ℚ)
    (independent : Bool) (hcap : s.liveLen + data.length ≤ cap) (hlive : b.live = some ⟨liveBytes a ++ data, cap⟩)
    (hsegs : SegsLe a.segs b.segs) (hinit : BufLe a.init b.init) :
    Sound maxSegs whole true (s.withPart x cap data.length duration independent) b := by
  -- as far as the segments and the init segment go, nothing has changed
  have hle : ShownLe a ⟨b.segs, a.live, b.init⟩ := ⟨hsegs, BufLe.refl _, hinit⟩
  have g := h.good.le hle
  have f := h.fed.le hle
  have hlen : bufLen b.live = s.liveLen + data.length := by
    rw [hlive]
    show (liveBytes a ++ data).length = _
    rw [length_append]
    exact congrArg (· + data.length) h.front
  refine ⟨⟨g.length, g.count, g.timeline, g.parts, g.sizes, ?_, ?_, fun buf hbuf => ?_, g.initSize, g.breaks⟩,
    ⟨f.tiles, f.liveMsn, nofun⟩, hlen⟩
  · exact h.good.liveParts.append rfl
  · exact le_of_eq hlen.symm
  · obtain rfl := Option.some.inj (hlive.symm.trans hbuf)
    exact ⟨hcap, rfl⟩

theorem Sound.break (h : Sound maxSegs whole parts s a) : Sound maxSegs whole parts s.broken ⟨[], none, a.init⟩ := by
  refine ⟨⟨rfl, zero_le _, ⟨s.cumMs, rfl, rfl⟩, nofun, nofun, rfl, le_refl _, nofun, h.good.initSize, le_rfl⟩,
    ⟨fun _ => nofun, fun _ ht => ?_, fun _ => ⟨rfl, nofun⟩⟩, rfl⟩
  have ht : s.partTarget > 0 := ht
  show (if s.partTarget > 0 then s.nextSeq + 1 else s.liveMsn) = _
  rw [if_pos ht]
  rfl

theorem Sound.llEnable (h : Sound maxSegs whole parts s a) (partTarget : ℚ) :
    Sound maxSegs whole parts { s with partTarget, liveMsn := s.nextSeq } a :=
  ⟨{ h.good with }, ⟨h.fed.tiles, fun _ _ => rfl, h.fed.noParts⟩, h.front⟩

theorem Sound.anchor (h : Sound maxSegs whole parts s a) (wallMs : UInt64) :
    Sound maxSegs whole parts { s with availMs := wallMs } a :=
  ⟨{ h.good with }, ⟨h.fed.tiles, h.fed.liveMsn, h.fed.noParts⟩, h.front⟩

theorem Sound.setInit (h : Sound maxSegs whole parts s a) (x : Nat) (data : List UInt8) (cap : Nat) :
    Sound maxSegs whole parts (s.withInit x data.length) ⟨a.segs, a.live, some ⟨data, cap⟩⟩ :=
  ⟨{ h.good with initSize := le_rfl }, ⟨h.fed.tiles, h.fed.liveMsn, h.fed.noParts⟩, h.front⟩

theorem synced_sound (v : StoreView) (h : Heap) (cur : Option Snapshot) :
    Sound maxSegs false false ((basis { v with old := none } h).1.synced cur v.old) ⟨[], none, none⟩ := by
  have hsame : ∀ s : Snapshot, s.count = 0 → s.oldestSeq = s.nextSeq → s.liveParts = [] → s.liveLen = 0 →
      s.initSize = 0 → (s.partTarget > 0 → s.liveMsn = s.nextSeq) → Sound maxSegs false false s ⟨[], none, none⟩ := by
    intro s hcount hseq hparts hlen hinit hmsn
    refine ⟨⟨hcount.symm, by omega, ⟨s.cumMs, hseq, rfl⟩, nofun, nofun, ?_, by omega, nofun, by omega, by simpa using Bool.toNat_le _⟩,
      ⟨fun _ => nofun, fun _ => hmsn, fun _ => ⟨hparts, nofun⟩⟩, hlen.symm⟩
    rw [hparts, hlen]
    rfl
  have hmsn : ∀ cur : Snapshot, cur.partTarget > 0 →
      (if cur.partTarget > 0 then cur.nextSeq else v.floor) = cur.nextSeq := fun cur ht => if_pos ht
  cases cur with
  | none =>
    cases hold : v.old with
    | _ => exact hsame _ rfl rfl rfl rfl rfl fun _ => rfl
  | some cur =>
    cases hold : v.old with
    | _ => exact hsame _ rfl rfl rfl rfl rfl (hmsn cur)

/-- How a store has been fed after a call. -/
def StoreCall.fedWhole (c : StoreCall) (whole : Bool) : Bool :=
  match c with
  | .pushSegment _ _ => true
  | _ => whole

def StoreCall.fedParts (c : StoreCall) (parts : Bool) : Bool :=
  match c with
  | .pushPart _ _ _ => true
  | .pushSegmentLl _ => true
  | _ => parts

/-- The bytes of the segment in progress that a call publishes are those of before, or nobody had them. -/
def LiveOwn (h : Heap) (S : List Snapshot) (old : Option Nat) (ns : Snapshot) : Prop :=
  ∀ x, ns.liveData = some x → old = some x ∨ ¬ Reach h S [] [] x

/-- A call that takes a number for a segment. -/
def StoreCall.pushes : StoreCall → Bool
  | .pushSegment _ _ => true
  | .pushSegmentLl _ => true
  | _ => false

/-- The numbers that a call uses up; a break leaves one out. -/
def StoreCall.numbers : StoreCall → UInt32
  | .pushSegment _ _ => 1
  | .pushSegmentLl _ => 1
  | .discontinuity => 1
  | _ => 0

/-- How a call goes on with the numbers. -/
structure Numbered (c : StoreCall) (s ns : Snapshot) : Prop where
  next : ns.nextSeq = s.nextSeq + c.numbers
  count : c.pushes = true → 0 < ns.count

theorem Numbered.same {c : StoreCall} {s ns : Snapshot} (hnext : ns.nextSeq = s.nextSeq) (hpush : c.pushes = false)
    (hzero : c.numbers = 0) : Numbered c s ns := by
  refine ⟨?_, fun h => nomatch hpush.symm.trans h⟩
  rw [hzero, UInt32.add_zero]
  exact hnext

theorem evicted_nextSeq (s : Snapshot) (maxSegs : Nat) : (s.evicted maxSegs).nextSeq = s.nextSeq := by
  rw [Snapshot.evicted]
  split <;> rfl

theorem call_spec {h : Heap} {S : List Snapshot} {v : StoreView} (o : Owned h S [] [])
    (hold : ∀ b, v.old = some b → b ∈ S ∧ RingOk h b ∧ Sound v.maxSegs whole parts b (h.shows b))
    (hpos : 0 < v.maxSegs) (hmax : v.maxSegs ≤ hlsMaxSegs) (mem : Mem) (c : StoreCall) :
    Called h S (basis v h).1.liveData (fun ns sh => Sound v.maxSegs (c.fedWhole whole) (c.fedParts parts) ns sh ∧
      LiveOwn h S (basis v h).1.liveData ns ∧ Numbered c (basis v h).1 ns) (h.call v mem c) := by
  have hold' : v.OldOk h S := fun b hb => ⟨(hold b hb).1, (hold b hb).2.1⟩
  have hbase : Sound v.maxSegs whole parts (basis v h).1 (basis v h).2 := basis_sound fun b hb => (hold b hb).2.2
  have hweak : ∀ {P : Snapshot → Shown → Prop} {r : Outcome × Heap}, Called h S none P r →
      Called h S (basis v h).1.liveData P r := by
    intro P r hr
    obtain ⟨out, h'⟩ := r
    cases out with
    | fail => exact hr
    | keep => exact hr
    | publish ns =>
      exact ⟨hr.1, ⟨hr.2.1.segs, fun x hx _ => hr.2.1.bufs x hx nofun, fun x _ hx => hr.2.1.bufLe hx⟩, hr.2.2⟩
  have hlive : ∀ {s : Snapshot} {r : Nat}, s.liveData = (basis v h).1.liveData →
      LiveOwn h S (basis v h).1.liveData (s.withRing r) := fun hs x hx => .inl (hs.symm.trans hx)
  cases c with
  | pushSegment data d =>
    refine (hweak (pushSegment_called o hold' hpos hmax hbase.good.count data d)).mono ?_
    rintro _ _ ⟨r, x, rfl, rfl⟩
    refine ⟨(hbase.pushWhole hpos x data _ d).withRing r, hlive (evicted_live _ _).1, ?_, fun _ => succ_pos _⟩
    exact congrArg (· + 1) (evicted_nextSeq _ _)
  | pushPart data duration independent =>
    refine (pushPart_called o hold' data hbase.front (fun b hb => (hbase.good.liveCap b hb).2) duration
      independent).mono ?_
    rintro _ sh ⟨r, x, cap, rfl, hcap, hlv, hsegs, hinit, hown⟩
    refine ⟨(hbase.pushPart duration independent hcap hlv hsegs hinit).withRing r, fun y hy => ?_,
      Numbered.same rfl rfl rfl⟩
    cases hy
    exact hown
  | pushSegmentLl d =>
    refine (hweak (pushSegmentLl_called o hold' hpos hmax hbase.good.count d)).mono ?_
    rintro _ _ ⟨r, rfl, rfl⟩
    refine ⟨(hbase.pushLl hpos d).withRing r, nofun, ?_, fun _ => succ_pos _⟩
    exact congrArg (· + 1) (evicted_nextSeq _ _)
  | discontinuity =>
    refine (hweak (discontinuity_called o hold')).mono ?_
    rintro _ _ ⟨r, rfl, rfl⟩
    exact ⟨hbase.break.withRing r, nofun, rfl, nofun⟩
  | setInitSegment data =>
    refine (hweak (setInitSegment_called o hold' data)).mono ?_
    rintro _ _ ⟨r, x, rfl, rfl⟩
    exact ⟨(hbase.setInit x data _).withRing r, hlive rfl, Numbered.same rfl rfl rfl⟩
  | llhlsEnable partTarget =>
    refine (hweak (llhlsEnable_called o hold' partTarget)).mono ?_
    rintro _ _ ⟨r, rfl, rfl⟩
    exact ⟨(hbase.llEnable partTarget).withRing r, hlive rfl, Numbered.same rfl rfl rfl⟩
  | anchor wallMs =>
    refine (hweak (anchor_called o hold' wallMs)).mono ?_
    rintro _ _ ⟨r, rfl, rfl⟩
    exact ⟨(hbase.anchor wallMs).withRing r, hlive rfl, Numbered.same rfl rfl rfl⟩

end

end DvbIpiTools.Dipixy
