import Mathlib.Data.List.Basic
import Mathlib.Data.List.Induction
import DvbIpiTools.Dash.Times

set_option autoImplicit false

/-! # The segments of a timeline

What the standard assigns to a list of `S` elements, and that `dash_mpd_parse` keeps the newest entries of it: the
segments before them are counted. -/

namespace DvbIpiTools.Dash

open List Option Nat

/-! ## What the standard assigns -/

def SElem.dur (s : SElem) : ℕ := (s.d.getD 0).toNat

def SElem.isOpen (s : SElem) : Bool := s.r = some .negative

/-- The elements that have a duration. -/
def counted (ss : List SElem) : List SElem := ss.filter fun s => s.d.getD 0 ≠ 0

/-- The segments of one element: `r + 1` of `d` ticks, the first at `t`. -/
structure Run where
  t : ℕ
  d : ℕ
  r : ℕ

/-- Time and duration of each segment. -/
def Run.segments (x : Run) : List (ℕ × ℕ) := (range (x.r + 1)).map fun k => (x.t + k * x.d, x.d)

def expansion (xs : List Run) : List (ℕ × ℕ) := xs.flatMap Run.segments

/-- Where an open element at `t` ends: where the next one begins, or at `stop`. -/
def stopAt (stop t : ℕ) : List SElem → ℕ
  | [] => stop
  | next :: _ => (next.t.map UInt64.toNat).getD t

/-- How often the segment at `t` is repeated, an open one as often as whole segments fit before `e`. -/
def SElem.repeats (s : SElem) (t e : ℕ) : ℕ :=
  match s.r with
  | none => 0
  | some (.count n) => n.toNat
  | some .negative => (e - t) / s.dur - 1

/-- The elements one after the other, where one without `t` begins at the end of the one before. -/
def runs (stop : ℕ) : ℕ → List SElem → List Run
  | _, [] => []
  | start, s :: ss =>
    let t := (s.t.map UInt64.toNat).getD start
    let r := s.repeats t (stopAt stop t ss)
    ⟨t, s.dur, r⟩ :: runs stop (t + s.dur * (r + 1)) ss

/-- The end of the period in milliseconds after its start, zero where it is not known. -/
def periodEndMs (m : Mpd) (p : Period) : ℕ :=
  if p.durationMs ≠ 0 then p.durationMs.toNat
  else if m.isDynamic then 0 else m.mediaPresentationDurationMs.toNat - p.startMs.toNat

/-- Where an open timeline ends: at the current time, if that is known, but not after the period. -/
def timelineEndMs (m : Mpd) (p : Period) (now : UInt64) : ℕ :=
  if m.isDynamic ∧ m.hasAvailabilityStart then
    let elapsed := now.toNat - m.availabilityStartMs.toNat - p.startMs.toNat
    if periodEndMs m p = 0 then elapsed else min elapsed (periodEndMs m p)
  else periodEndMs m p

/-- The end of an open timeline in ticks. -/
def timelineEnd (m : Mpd) (p : Period) (now : UInt64) (r : Representation) : ℕ :=
  exactTicks r (timelineEndMs m p now) + r.presentationTimeOffset.toNat

/-! ## The entries, when none is shifted out -/

def TimelineEntry.run (e : TimelineEntry) : Run := ⟨e.t.toNat, e.d.toNat, e.r.toNat⟩

/-- The last segment begins before 2^64. -/
def TimelineEntry.Fits (e : TimelineEntry) : Prop := e.d ≠ 0 ∧ e.t.toNat + e.d.toNat * e.r.toNat < 2 ^ 64

/-- The entry of an element; `start` is where the one before ends. -/
def SElem.entry (s : SElem) (start : UInt64) : TimelineEntry :=
  ⟨s.t.getD start, s.d.getD 0, match s.r with | some (.count n) => n | _ => 0⟩

def TimelineEntry.after (e : TimelineEntry) : UInt64 := e.t + e.d * (e.r + 1)

/-- An entry when it is known that the next one begins at `stop`. -/
def TimelineEntry.closedAt (e : TimelineEntry) (isOpen : Bool) (stop : Option UInt64) : TimelineEntry :=
  match stop with
  | none => e
  | some t => if isOpen ∧ t > e.t then closeEntry e t else e

/-- The entries from `e` on. -/
def entriesFrom (stop : UInt64) : TimelineEntry → Bool → List SElem → List TimelineEntry
  | e, isOpen, [] => [e.closedAt isOpen (some stop)]
  | e, isOpen, s :: ss =>
    let e := e.closedAt isOpen s.t
    e :: entriesFrom stop (s.entry e.after) s.isOpen ss

variable {e : TimelineEntry}

theorem toNat_closed {t : UInt64} (hlt : e.t < t) :
    (closeEntry e t).r.toNat = (t.toNat - e.t.toNat) / e.d.toNat - 1 := by
  have hn : ((t - e.t) / e.d).toNat = (t.toNat - e.t.toNat) / e.d.toNat := by
    rw [UInt64.toNat_div, UInt64.toNat_sub_of_le _ _ (UInt64.le_of_lt hlt)]
  unfold closeEntry
  dsimp only
  split
  · next hne =>
    have hpos : ((t - e.t) / e.d).toNat ≠ 0 := fun h0 => hne (UInt64.toNat_inj.1 h0)
    have hle : (1 : UInt64) ≤ (t - e.t) / e.d := UInt64.le_iff_toNat_le.2 (pos_of_ne_zero hpos)
    rw [UInt64.toNat_sub_of_le _ _ hle, hn]
    rfl
  · next heq =>
    rw [← hn, not_not.1 heq]
    rfl

theorem run_closedAt {isOpen : Bool} (hr : isOpen → e.r = 0) (t : UInt64) : (e.closedAt isOpen (some t)).run =
      ⟨e.t.toNat, e.d.toNat, if isOpen then (t.toNat - e.t.toNat) / e.d.toNat - 1 else e.r.toNat⟩ := by
  unfold TimelineEntry.closedAt
  dsimp only
  cases isOpen with
  | false => rw [if_neg (fun h => nomatch h.1)]; rfl
  | true =>
    split
    · next h => exact congrArg (Run.mk e.t.toNat e.d.toNat) (toNat_closed h.2)
    · next h =>
      have hle : t.toNat ≤ e.t.toNat := UInt64.le_iff_toNat_le.1 (UInt64.not_lt.1 fun hlt => h ⟨rfl, hlt⟩)
      rw [TimelineEntry.run, hr rfl, Nat.sub_eq_zero_of_le hle, Nat.zero_div]
      rfl

theorem toNat_getD (x : Option UInt64) (y : UInt64) : (x.getD y).toNat = (x.map UInt64.toNat).getD y.toNat := by
  cases x <;> rfl

theorem run_entry_closedAt (s : SElem) (start : UInt64) (next : Option UInt64) :
    ((s.entry start).closedAt s.isOpen next).run = ⟨(s.t.getD start).toNat, s.dur,
        s.repeats (s.t.getD start).toNat ((next.map UInt64.toNat).getD (s.t.getD start).toNat)⟩ := by
  cases next with
  | none =>
    rw [TimelineEntry.closedAt, SElem.repeats, map_none, getD_none, Nat.sub_self, Nat.zero_div]
    obtain ⟨_, _, _ | _ | _⟩ := s <;> rfl
  | some t =>
    obtain ⟨_, _, _ | _ | _⟩ := s
    · exact run_closedAt (by simp [SElem.isOpen]) t
    · exact run_closedAt (fun _ => rfl) t
    · exact run_closedAt (by simp [SElem.isOpen]) t

theorem toNat_after (e : TimelineEntry) : e.after.toNat = (e.run.t + e.run.d * (e.run.r + 1)) % 2 ^ 64 := by
  unfold TimelineEntry.after
  rw [UInt64.toNat_add, UInt64.toNat_mul, UInt64.toNat_add, add_mod_mod, add_mod, mul_mod, mod_mod,
    ← mul_mod, ← add_mod]
  rfl

variable {s : SElem} {a : ℕ}

theorem runs_congr {b : ℕ} (h : s.t = none → a = b) (stop : ℕ) (ss : List SElem) :
    runs stop a (s :: ss) = runs stop b (s :: ss) := by
  cases ht : s.t with
  | none => rw [h ht]
  | some t => rw [runs, runs, ht]; rfl

/-- The entries are what the standard assigns, if all segments begin before 2^64. -/
theorem map_run_entriesFrom {stop : UInt64} {stopN : ℕ} : ∀ (ss : List SElem) (s : SElem) (start : UInt64),
    (∀ l, (s :: ss).getLast? = some l → l.isOpen → stop.toNat = stopN) →
    (∀ x ∈ runs stopN start.toNat (s :: ss), x.t + x.d * x.r < 2 ^ 64) →
    (entriesFrom stop (s.entry start) s.isOpen ss).map TimelineEntry.run = runs stopN start.toNat (s :: ss) := by
  intro ss
  induction ss with
  | nil =>
    intro s start hstop hfit
    rw [entriesFrom, map_singleton, run_entry_closedAt, runs, runs, ← toNat_getD s.t start, stopAt]
    by_cases hopen : s.isOpen
    · rw [← hstop s rfl hopen]
      rfl
    unfold SElem.repeats
    rw [SElem.isOpen, decide_eq_true_eq] at hopen
    split
    · rfl
    · rfl
    · contradiction
  | cons s' ss ih =>
    intro s start hstop hfit
    have hhead : _ = Run.mk _ _ (s.repeats _ (stopAt stopN (s.t.getD start).toNat (s' :: ss))) :=
      run_entry_closedAt s start s'.t
    rw [runs, ← toNat_getD] at hfit ⊢
    rw [entriesFrom, map_cons, hhead]
    generalize s.repeats (s.t.getD start).toNat (stopAt stopN (s.t.getD start).toNat (s' :: ss)) = r at hfit hhead ⊢
    refine congrArg (_ :: ·) ?_
    have hrest := fun x hx => hfit x (.tail _ hx)
    have hstart : runs stopN ((s.entry start).closedAt s.isOpen s'.t).after.toNat (s' :: ss) =
        runs stopN ((s.t.getD start).toNat + s.dur * (r + 1)) (s' :: ss) := by
      refine runs_congr (fun hnone => ?_) stopN ss
      obtain ⟨x, hx, ht⟩ : ∃ x ∈ runs stopN ((s.t.getD start).toNat + s.dur * (r + 1)) (s' :: ss),
          x.t = (s.t.getD start).toNat + s.dur * (r + 1) := by
        rw [runs, hnone]
        exact ⟨_, mem_cons_self, rfl⟩
      have hlt := hrest x hx
      rw [toNat_after, hhead]
      exact mod_eq_of_lt (by dsimp only; omega)
    rw [ih s' _ (fun l hl => hstop l (by rwa [getLast?_cons_cons])) (by rw [hstart]; exact hrest)]
    exact hstart

/-! ## The newest entries -/

/-- The positions after `before` and the segments of the entries. -/
def countFrom (before : UInt64) (es : List TimelineEntry) : UInt64 := es.foldl (fun before x => before + (1 + x.r)) before

/-- The entries that are kept of `es`. -/
def window (es : List TimelineEntry) : List TimelineEntry := es.drop (es.length - dashMaxTimeline)

/-- The timeline has the newest of `es`, and has counted the others. -/
structure Shows (timeline : List TimelineEntry) (skipped : UInt64) (es : List TimelineEntry) : Prop where
  timeline : timeline = window es
  skipped : skipped = countFrom 0 (es.take (es.length - dashMaxTimeline))

theorem shows_nil : Shows [] 0 [] := by
  constructor
  · rw [window, drop_nil]
  · rw [take_nil]
    rfl

variable {ctx : TimelineCtx}

theorem Shows.push {es : List TimelineEntry} (h : Shows ctx.timeline ctx.timelineSkipped es)
    (e : TimelineEntry) : Shows (ctx.push e).timeline (ctx.push e).timelineSkipped (es ++ [e]) := by
  obtain ⟨htl, hskip⟩ := h
  have hlen : (window es).length = min es.length dashMaxTimeline := by
    rw [window, length_drop]
    omega
  have hmax : 0 < dashMaxTimeline := by decide
  unfold TimelineCtx.push
  by_cases hfull : dashMaxTimeline ≤ es.length
  · obtain ⟨first, rest, hcons⟩ := exists_cons_of_length_pos (show 0 < (window es).length by omega)
    rw [htl, hcons]
    dsimp only
    rw [if_pos (by rw [← hcons]; omega)]
    have hdrop : es.drop (es.length - dashMaxTimeline) = first :: rest := hcons
    have hlt : es.length - dashMaxTimeline < es.length := by omega
    rw [drop_eq_getElem_cons hlt] at hdrop
    obtain ⟨hfirst, hrest⟩ := cons.inj hdrop
    have hsucc : (es ++ [e]).length - dashMaxTimeline = es.length - dashMaxTimeline + 1 := by
      rw [length_append, length_singleton]
      omega
    constructor
    · rw [window, hsucc, drop_append_of_le_length (by omega), hrest]
    · rw [hsucc, take_append_of_le_length (by omega), take_add_one, getElem?_eq_getElem hlt, hfirst,
        hskip, countFrom, countFrom, foldl_append]
      rfl
  · have hzero : es.length - dashMaxTimeline = 0 := by omega
    have hsucc : (es ++ [e]).length - dashMaxTimeline = 0 := by
      rw [length_append, length_singleton]
      omega
    have hwin : window es = es := by rw [window, hzero, drop_zero]
    have hwin' : window (es ++ [e]) = es ++ [e] := by rw [window, hsucc, drop_zero]
    have hskip' : ctx.timelineSkipped = countFrom 0 ((es ++ [e]).take ((es ++ [e]).length - dashMaxTimeline)) := by
      rw [hskip, hzero, hsucc, take_zero, take_zero]
    rw [htl, hwin]
    cases es with
    | nil => exact ⟨hwin'.symm, hskip'⟩
    | cons first rest =>
      have hne : (first :: rest).length ≠ dashMaxTimeline := by omega
      dsimp only
      rw [if_neg hne]
      exact ⟨hwin'.symm, hskip'⟩

variable {cur : TimelineEntry}

theorem Shows.setLast {timeline es : List TimelineEntry} {skipped : UInt64}
    (h : Shows timeline skipped (es ++ [cur])) (e : TimelineEntry) :
    timeline.getLast? = some cur ∧ Shows (timeline.dropLast ++ [e]) skipped (es ++ [e]) := by
  obtain ⟨htl, hskip⟩ := h
  have hmax : 0 < dashMaxTimeline := by decide
  have hwin : ∀ x, window (es ++ [x]) = es.drop (es.length + 1 - dashMaxTimeline) ++ [x] := by
    intro x
    rw [window, length_append, length_singleton, drop_append_of_le_length (by omega)]
  refine ⟨by rw [htl, hwin, getLast?_concat], ?_, ?_⟩
  · rw [htl, hwin, hwin, dropLast_concat]
  · rw [hskip, length_append, length_append, length_singleton, length_singleton,
      take_append_of_le_length (by omega), take_append_of_le_length (by omega)]

/-! ## The callback -/

/-- What is known of the timeline while it is read. -/
structure Reading (ctx : TimelineCtx) (es : List TimelineEntry) (cur : TimelineEntry) : Prop where
  shows : Shows ctx.timeline ctx.timelineSkipped (es ++ [cur])
  open_r : ctx.openEnded → cur.r = 0

theorem timelineSCb_skip (ctx : TimelineCtx) (hd : s.d.getD 0 = 0) : timelineSCb ctx s = ctx := by
  obtain ⟨t, _ | d, r⟩ := s
  · rfl
  · exact if_pos hd

variable {ss : List SElem}

theorem ne_zero_of_mem_counted (h : s ∈ counted ss) : s.d.getD 0 ≠ 0 := by
  rw [counted, mem_filter] at h
  exact of_decide_eq_true h.2

theorem foldl_counted (ctx : TimelineCtx) (ss : List SElem) :
    ss.foldl timelineSCb ctx = (counted ss).foldl timelineSCb ctx := by
  induction ss generalizing ctx with
  | nil => rfl
  | cons s ss ih =>
    rw [foldl_cons, counted, filter_cons]
    split
    · exact ih _
    · next h =>
      rw [timelineSCb_skip ctx (by simpa using h)]
      exact ih ctx

theorem openEnded_push (ctx : TimelineCtx) (e : TimelineEntry) : (ctx.push e).openEnded = ctx.openEnded := by
  unfold TimelineCtx.push
  split
  · split <;> rfl
  · rfl

theorem entry_r (start : UInt64) (h : s.isOpen) : (s.entry start).r = 0 := by
  obtain ⟨_, _, _ | _ | _⟩ := s
  · rfl
  · rfl
  · cases h

theorem timelineSCb_first (hd : s.d.getD 0 ≠ 0) (hnil : ctx.timeline = []) :
    timelineSCb ctx s = { ctx with openEnded := s.isOpen }.push (s.entry 0) := by
  obtain ⟨t, _ | d, r⟩ := s
  · exact absurd rfl hd
  · change d ≠ 0 at hd
    unfold timelineSCb
    dsimp only
    rw [if_neg hd, hnil, getLast?_nil]
    obtain _ | _ | n := r <;> rw [← hnil] <;> rfl

/-- Once there are entries, the last one is closed before the next one is put behind it. -/
theorem timelineSCb_next {prev : TimelineEntry} (hd : s.d.getD 0 ≠ 0) (hlast : ctx.timeline.getLast? = some prev) :
    timelineSCb ctx s = { ctx with
        timeline := ctx.timeline.dropLast ++ [prev.closedAt ctx.openEnded s.t]
        openEnded := s.isOpen }.push (s.entry (prev.closedAt ctx.openEnded s.t).after) := by
  have hsame : ctx.timeline.dropLast ++ [prev] = ctx.timeline := dropLast_append_getLast? prev hlast
  obtain ⟨t, _ | d, r⟩ := s
  · exact absurd rfl hd
  change d ≠ 0 at hd
  unfold timelineSCb TimelineEntry.closedAt
  dsimp only
  rw [if_neg hd, hlast]
  cases t with
  | none => obtain _ | _ | n := r <;> dsimp only <;> rw [hsame] <;> rfl
  | some t =>
    dsimp only
    split
    · obtain _ | _ | n := r <;> rfl
    · obtain _ | _ | n := r <;> dsimp only <;> rw [hsame] <;> rfl

/-- Reading on closes the entry that is open and puts the others behind it. -/
theorem reading_foldl (stop : UInt64) (hd : ∀ s ∈ ss, s.d.getD 0 ≠ 0) {es : List TimelineEntry}
    (h : Reading ctx es cur) : ∃ es' cur', Reading (ss.foldl timelineSCb ctx) es' cur' ∧
      es' ++ [cur'.closedAt (ss.foldl timelineSCb ctx).openEnded (some stop)] =
        es ++ entriesFrom stop cur ctx.openEnded ss := by
  induction ss generalizing ctx es cur with
  | nil => exact ⟨es, cur, h, rfl⟩
  | cons s ss ih =>
    have hds := hd s mem_cons_self
    obtain ⟨hlast, hset⟩ := h.shows.setLast (cur.closedAt ctx.openEnded s.t)
    have hstep := timelineSCb_next hds hlast
    have hopen : (timelineSCb ctx s).openEnded = s.isOpen := by rw [hstep, openEnded_push]
    have hread : Reading (timelineSCb ctx s) (es ++ [cur.closedAt ctx.openEnded s.t])
        (s.entry (cur.closedAt ctx.openEnded s.t).after) := by
      refine ⟨?_, fun ho => entry_r _ (hopen ▸ ho)⟩
      rw [hstep]
      exact Shows.push hset _
    obtain ⟨es', cur', hread', heq⟩ := ih (fun x hx => hd x (.tail _ hx)) hread
    refine ⟨es', cur', hread', heq.trans ?_⟩
    rw [hopen, entriesFrom, append_assoc]
    rfl

/-! ## Where the segments are -/

theorem length_segments (x : Run) : x.segments.length = x.r + 1 := by
  rw [Run.segments, length_map, length_range]

theorem ofNat_add_one_add (k : ℕ) (r : UInt64) : UInt64.ofNat k + (1 + r) = UInt64.ofNat (k + (r.toNat + 1)) := by
  rw [UInt64.ofNat_add, UInt64.ofNat_add, UInt64.ofNat_toNat, UInt64.add_comm r]
  rfl

theorem countFrom_ofNat (k : ℕ) (es : List TimelineEntry) :
    countFrom (UInt64.ofNat k) es = UInt64.ofNat (k + (expansion (es.map TimelineEntry.run)).length) := by
  induction es generalizing k with
  | nil => rfl
  | cons e es ih =>
    change countFrom (UInt64.ofNat k + (1 + e.r)) es = _
    rw [ofNat_add_one_add, ih, expansion, expansion, map_cons, flatMap_cons, length_append, length_segments, add_assoc]
    rfl

theorem zipIdx_segments (x : Run) (k : ℕ) :
    x.segments.zipIdx k = (range (x.r + 1)).map fun i => ((x.t + i * x.d, x.d), k + i) := by
  refine ext_getElem (by simp [Run.segments]) fun i h1 h2 => ?_
  simp [Run.segments]

/-- The test of `dash_timeline_find` finds the segment of the entry that begins at `time`. -/
theorem find_segments (hfit : e.Fits) (time : UInt64) (k : ℕ) :
    (e.run.segments.zipIdx k).find? (fun x => x.1.1 = time.toNat) =
      if time ≥ e.t ∧ time ≤ e.t + e.d * e.r ∧ (time - e.t) % e.d = 0 then
        some ((time.toNat, e.d.toNat), k + (time.toNat - e.t.toNat) / e.d.toNat)
      else none := by
  obtain ⟨hd, hlast⟩ := hfit
  have hdpos : 0 < e.d.toNat := pos_of_ne_zero fun h0 => hd (UInt64.toNat_inj.1 h0)
  have hend : (e.t + e.d * e.r).toNat = e.t.toNat + e.d.toNat * e.r.toNat := by
    rw [UInt64.toNat_add, UInt64.toNat_mul, add_mod_mod, mod_eq_of_lt hlast]
  rw [zipIdx_segments, find?_map]
  split
  · next hcond =>
    obtain ⟨hge, hle, hmod⟩ := hcond
    have hge' := UInt64.le_iff_toNat_le.1 hge
    have hle' := UInt64.le_iff_toNat_le.1 hle
    have hmod' : (time.toNat - e.t.toNat) % e.d.toNat = 0 := by
      rw [← UInt64.toNat_sub_of_le _ _ hge, ← UInt64.toNat_mod, hmod]
      rfl
    have hmul : (time.toNat - e.t.toNat) / e.d.toNat * e.d.toNat = time.toNat - e.t.toNat :=
      Nat.div_mul_cancel (Nat.dvd_of_mod_eq_zero hmod')
    have hrepeat : (time.toNat - e.t.toNat) / e.d.toNat < e.r.toNat + 1 := by
      refine Nat.lt_succ_of_le (Nat.div_le_of_le_mul ?_)
      omega
    have hfind : (range (e.run.r + 1)).find? ((fun x : (ℕ × ℕ) × ℕ => decide (x.1.1 = time.toNat)) ∘
        fun i => ((e.run.t + i * e.run.d, e.run.d), k + i)) = some ((time.toNat - e.t.toNat) / e.d.toNat) := by
      refine find?_range_eq_some.2 ⟨?_, mem_range.2 hrepeat, fun j hj => ?_⟩
      · refine decide_eq_true (show e.t.toNat + (time.toNat - e.t.toNat) / e.d.toNat * e.d.toNat = time.toNat from ?_)
        omega
      · have hlt : j * e.d.toNat < (time.toNat - e.t.toNat) / e.d.toNat * e.d.toNat := mul_lt_mul_of_pos_right hj hdpos
        have hne : e.t.toNat + j * e.d.toNat ≠ time.toNat := by omega
        show (!decide (e.t.toNat + j * e.d.toNat = time.toNat)) = true
        rw [decide_eq_false hne]
        rfl
    rw [hfind, map_some]
    have htime : e.t.toNat + (time.toNat - e.t.toNat) / e.d.toNat * e.d.toNat = time.toNat := by omega
    simp only [TimelineEntry.run, htime]
  · next hcond =>
    refine map_eq_none_iff.2 (find?_range_eq_none.2 fun i hi => ?_)
    have hne : e.t.toNat + i * e.d.toNat ≠ time.toNat := by
      intro heq
      have hge : e.t ≤ time := UInt64.le_iff_toNat_le.2 (by omega)
      have hle : i * e.d.toNat ≤ e.d.toNat * e.r.toNat := by
        rw [mul_comm]
        exact mul_le_mul_left _ (le_of_lt_succ hi)
      refine hcond ⟨hge, UInt64.le_iff_toNat_le.2 (by omega), UInt64.toNat_inj.1 ?_⟩
      rw [UInt64.toNat_mod, UInt64.toNat_sub_of_le _ _ hge, ← heq, Nat.add_sub_cancel_left]
      exact mul_mod_left _ _
    show (!decide (e.t.toNat + i * e.d.toNat = time.toNat)) = true
    rw [decide_eq_false hne]
    rfl

theorem timelineFind_eq (time : UInt64) {es : List TimelineEntry} (hfit : ∀ e ∈ es, e.Fits) (k : ℕ) :
    timelineFind time es (UInt64.ofNat k) =
      (((expansion (es.map TimelineEntry.run)).zipIdx k).find? fun x => x.1.1 = time.toNat).map fun x =>
        (UInt64.ofNat x.1.2, UInt64.ofNat x.2) := by
  induction es generalizing k with
  | nil => rfl
  | cons e es ih =>
    have he := hfit e mem_cons_self
    rw [timelineFind, expansion, map_cons, flatMap_cons, zipIdx_append, find?_append, find_segments he]
    split
    · next hcond =>
      have hdiv : (time - e.t) / e.d = UInt64.ofNat ((time.toNat - e.t.toNat) / e.d.toNat) := by
        refine UInt64.toNat_inj.1 ?_
        rw [UInt64.toNat_div, UInt64.toNat_sub_of_le _ _ hcond.1, UInt64.toNat_ofNat']
        have := time.toNat_lt
        exact (mod_eq_of_lt (lt_of_le_of_lt (div_le_self _ _) (by omega))).symm
      rw [some_or, map_some, hdiv, ← UInt64.ofNat_add, UInt64.ofNat_toNat]
    · rw [none_or, ofNat_add_one_add, ih (fun x hx => hfit x (.tail _ hx)), length_segments]
      rfl

/-- The segments of the newest entries. -/
def retained (xs : List Run) : List (ℕ × ℕ) := expansion (xs.drop (xs.length - dashMaxTimeline))

/-- How many segments there are before them. -/
def dropped (xs : List Run) : ℕ := (expansion (xs.take (xs.length - dashMaxTimeline))).length

/-- What is asked about the timeline is answered as for the segments of `xs`; positions are modulo 2^64. -/
structure Answers (r : Representation) (xs : List Run) : Prop where
  last : dashTimelineLast r = (expansion xs).getLast?.map fun p =>
    (UInt64.ofNat p.1, UInt64.ofNat p.2, UInt64.ofNat ((expansion xs).length - 1))
  found : ∀ i p, (retained xs)[i]? = some p → (∀ j q, j < i → (retained xs)[j]? = some q → q.1 ≠ p.1) →
    dashTimelineFind r (UInt64.ofNat p.1) = some (UInt64.ofNat p.2, UInt64.ofNat (dropped xs + i))
  absent : ∀ time : UInt64, (∀ p ∈ retained xs, p.1 ≠ time.toNat) → dashTimelineFind r time = none

theorem expansion_append (xs ys : List Run) : expansion (xs ++ ys) = expansion xs ++ expansion ys :=
  flatMap_append

theorem getLast?_segments (x : Run) : x.segments.getLast? = some (x.t + x.r * x.d, x.d) := by
  rw [Run.segments, range_succ, map_append, map_singleton, getLast?_concat]

variable {r : Representation} {es : List TimelineEntry}

theorem dashTimelineLast_eq (h : Shows r.timeline r.timelineSkipped es) :
    dashTimelineLast r = (expansion (es.map TimelineEntry.run)).getLast?.map fun p =>
      (UInt64.ofNat p.1, UInt64.ofNat p.2, UInt64.ofNat ((expansion (es.map TimelineEntry.run)).length - 1)) := by
  obtain ⟨htl, hskip⟩ := h
  have hmax : 0 < dashMaxTimeline := by decide
  obtain rfl | ⟨pre, e, rfl⟩ := eq_nil_or_concat' es
  · rw [dashTimelineLast, htl]
    rfl
  have hwin : window (pre ++ [e]) = pre.drop ((pre ++ [e]).length - dashMaxTimeline) ++ [e] := by
    rw [window, drop_append_of_le_length (by rw [length_append, length_singleton]; omega)]
  have hcount : countFrom (countFrom 0 (pre.take ((pre ++ [e]).length - dashMaxTimeline)))
      (pre.drop ((pre ++ [e]).length - dashMaxTimeline)) = countFrom 0 pre := by
    rw [countFrom, countFrom, ← foldl_append, take_append_drop]
    rfl
  rw [dashTimelineLast, htl, hwin, getLast?_concat, dropLast_concat]
  change some (_, _, countFrom r.timelineSkipped _ + e.r) = _
  rw [hskip, take_append_of_le_length (by rw [length_append, length_singleton]; omega), hcount,
    show (0 : UInt64) = UInt64.ofNat 0 from rfl, countFrom_ofNat, map_append, map_singleton,
    expansion_append, show expansion [e.run] = e.run.segments from append_nil _, length_append,
    length_segments, getLast?_append, getLast?_segments, some_or, map_some]
  have htime : UInt64.ofNat (e.run.t + e.run.r * e.run.d) = e.t + e.d * e.r := by
    rw [UInt64.ofNat_add, UInt64.ofNat_mul, UInt64.mul_comm]
    simp only [TimelineEntry.run, UInt64.ofNat_toNat]
  have hpos : UInt64.ofNat ((expansion (pre.map TimelineEntry.run)).length + (e.run.r + 1) - 1) =
      UInt64.ofNat (0 + (expansion (pre.map TimelineEntry.run)).length) + e.r := by
    rw [← add_assoc, Nat.add_sub_cancel, UInt64.ofNat_add, zero_add]
    simp only [TimelineEntry.run, UInt64.ofNat_toNat]
  rw [htime, hpos]
  simp only [TimelineEntry.run, UInt64.ofNat_toNat]

theorem lt_of_mem_retained (hfit : ∀ e ∈ es, e.Fits) : ∀ p ∈ retained (es.map TimelineEntry.run), p.1 < 2 ^ 64 := by
  intro p hp
  obtain ⟨x, hx, hp⟩ := mem_flatMap.1 hp
  obtain ⟨e, he, rfl⟩ := mem_map.1 (mem_of_mem_drop hx)
  obtain ⟨k, hk, rfl⟩ := mem_map.1 hp
  have hle : k * e.run.d ≤ e.run.d * e.run.r := by
    rw [mul_comm]
    exact mul_le_mul_left _ (le_of_lt_succ (mem_range.1 hk))
  exact lt_of_le_of_lt (Nat.add_le_add_left hle _) (hfit e he).2

theorem answers_of_shows (h : Shows r.timeline r.timelineSkipped es) (hfit : ∀ e ∈ es, e.Fits) :
    Answers r (es.map TimelineEntry.run) := by
  obtain ⟨htl, hskip⟩ := h
  have hfind : ∀ time, dashTimelineFind r time = (((retained (es.map TimelineEntry.run)).zipIdx
      (dropped (es.map TimelineEntry.run))).find? fun x => x.1.1 = time.toNat).map fun x =>
        (UInt64.ofNat x.1.2, UInt64.ofNat x.2) := by
    intro time
    have hcount := countFrom_ofNat 0 (es.take (es.length - dashMaxTimeline))
    have hdropped : dropped (es.map TimelineEntry.run) =
        0 + (expansion ((es.take (es.length - dashMaxTimeline)).map TimelineEntry.run)).length := by
      rw [dropped, length_map, map_take, zero_add]
    rw [dashTimelineFind, htl, hskip, window, show (0 : UInt64) = UInt64.ofNat 0 from rfl, hcount, ← hdropped,
      timelineFind_eq time (fun e he => hfit e (mem_of_mem_drop he)), retained, length_map, map_drop]
  refine ⟨dashTimelineLast_eq ⟨htl, hskip⟩, fun i p hi hfirst => ?_, fun time habsent => ?_⟩
  · obtain ⟨hlt, hget⟩ := List.getElem?_eq_some_iff.1 hi
    have hsmall : (UInt64.ofNat p.1).toNat = p.1 := by
      exact mod_eq_of_lt (lt_of_mem_retained hfit p (mem_of_getElem? hi))
    rw [hfind, hsmall]
    refine map_eq_some_iff.2 ⟨(p, dropped (es.map TimelineEntry.run) + i), ?_, rfl⟩
    refine find?_eq_some_iff_getElem.2 ⟨decide_eq_true rfl, i, by rwa [length_zipIdx], ?_, fun j hj => ?_⟩
    · rw [getElem_zipIdx, hget]
    · have hne := hfirst j _ hj (getElem?_eq_getElem (hj.trans hlt))
      rw [getElem_zipIdx, decide_eq_false hne]
      rfl
  · rw [hfind]
    refine map_eq_none_iff.2 (find?_eq_none.2 fun x hx => ?_)
    have hne := habsent x.1 (fst_mem_of_mem_zipIdx hx)
    exact fun h => hne (of_decide_eq_true h)

/-! ## The end of an open timeline -/

theorem toNat_sub_or_zero (a b : UInt64) : (if a > b then a - b else 0).toNat = a.toNat - b.toNat := by
  split
  · next hgt => exact UInt64.toNat_sub_of_le _ _ (UInt64.le_of_lt hgt)
  · next hle => exact (Nat.sub_eq_zero_of_le (UInt64.le_iff_toNat_le.1 (UInt64.not_lt.1 hle))).symm

theorem toNat_openEndMs (m : Mpd) (p : Period) (now : UInt64) : (openEndMs m p now).toNat = timelineEndMs m p now := by
  have hperiod : (if p.durationMs ≠ 0 then p.durationMs
      else if !m.isDynamic ∧ m.mediaPresentationDurationMs > p.startMs then m.mediaPresentationDurationMs - p.startMs
      else 0).toNat = periodEndMs m p := by
    unfold periodEndMs
    split
    · rfl
    · cases m.isDynamic with
      | true => rfl
      | false => simpa using toNat_sub_or_zero m.mediaPresentationDurationMs p.startMs
  unfold openEndMs timelineEndMs
  dsimp only
  rw [← hperiod]
  generalize (if p.durationMs ≠ 0 then p.durationMs else _ : UInt64) = periodEnd
  split
  · have helapsed := toNat_sub_or_zero (if now > m.availabilityStartMs then now - m.availabilityStartMs else 0) p.startMs
    rw [toNat_sub_or_zero now m.availabilityStartMs] at helapsed
    rw [← helapsed]
    generalize (if _ > p.startMs then _ else 0 : UInt64) = elapsed
    have hzero : periodEnd = 0 ↔ periodEnd.toNat = 0 := UInt64.toNat_inj.symm
    have hgt : elapsed > periodEnd ↔ periodEnd.toNat < elapsed.toNat := UInt64.lt_iff_toNat_lt
    split
    · next h => rw [if_neg (fun h0 => h.1 (hzero.2 h0)), min_eq_right (hgt.1 h.2).le]
    rename_i h
    split
    · rfl
    · next hne =>
      have hle : elapsed.toNat ≤ periodEnd.toNat := not_lt.1 fun hlt => h ⟨fun h0 => hne (hzero.1 h0), hgt.2 hlt⟩
      rw [min_eq_left hle]
  · rfl

variable {now : UInt64}

theorem expandOpenEnded_timeline {m : Mpd} {p : Period} (hlast : r.timeline.getLast? = some cur) (hr : cur.r = 0) :
    (expandOpenEnded m p now r).timeline = r.timeline.dropLast ++
      [cur.closedAt true (some (msToTicks r (openEndMs m p now) + r.presentationTimeOffset))] := by
  unfold expandOpenEnded TimelineEntry.closedAt closeEntry
  rw [hlast]
  dsimp only
  generalize msToTicks r (openEndMs m p now) + r.presentationTimeOffset = stop
  congr 2
  by_cases hle : stop ≤ cur.t
  · rw [if_pos (.inr hle), if_neg (fun h => absurd h.2 (UInt64.not_lt.2 hle)), ← hr]
  · rw [if_pos (show true = true ∧ stop > cur.t from ⟨rfl, UInt64.not_le.1 hle⟩)]
    by_cases hd : cur.d = 0
    · rw [if_pos (.inl hd), hd]
      simp
    · rw [if_neg (not_or.2 ⟨hd, hle⟩)]

/-! ## From the elements to the representations -/

/-- A loop that appends what it makes of each element, until there are `n`. -/
theorem getElem?_foldl_capped {σ α β : Type} (get : σ → List β) (step : σ → α → σ) (n : ℕ) (R : α → β → Prop)
    (hfull : ∀ s x, n ≤ (get s).length → get (step s x) = get s)
    (hstep : ∀ s x, (get s).length < n → ∃ b, get (step s x) = get s ++ [b] ∧ R x b) {s0 : σ} (hempty : get s0 = [])
    (xs : List α) : (get (xs.foldl step s0)).length = min xs.length n ∧
      ∀ (i : ℕ) (b : β), (get (xs.foldl step s0))[i]? = some b → ∃ x : α, xs[i]? = some x ∧ R x b := by
  induction xs using reverseRecOn with
  | nil => simp [hempty]
  | append_singleton xs x ih =>
    obtain ⟨hlen, hall⟩ := ih
    have hold : ∀ (i : ℕ) (b : β), (get (xs.foldl step s0))[i]? = some b → ∃ y : α, (xs ++ [x])[i]? = some y ∧ R y b := by
      intro i b hb
      obtain ⟨y, hy, hR⟩ := hall i b hb
      exact ⟨y, by rw [getElem?_append_left (List.getElem?_eq_some_iff.1 hy).1, hy], hR⟩
    rw [foldl_append, foldl_cons, foldl_nil, length_append, length_singleton]
    by_cases hn : n ≤ (get (xs.foldl step s0)).length
    · rw [hfull _ x hn]
      exact ⟨by omega, hold⟩
    obtain ⟨b, hb, hR⟩ := hstep (xs.foldl step s0) x (by omega)
    rw [hb]
    refine ⟨by rw [length_append, length_singleton]; omega, fun i c hc => ?_⟩
    by_cases hi : i < (get (xs.foldl step s0)).length
    · exact hold i c (by rwa [getElem?_append_left hi] at hc)
    rw [getElem?_append_right (by omega)] at hc
    obtain ⟨h0, rfl⟩ := List.getElem?_eq_some_iff.1 hc
    have hi : i = xs.length := by
      rw [length_singleton] at h0
      omega
    exact ⟨x, by rw [hi, getElem?_concat_length], by simpa using hR⟩

/-- The timeline that was read is that of `o`. -/
def Carries (timeline : List TimelineEntry) (skipped : UInt64) (openEnded : Bool) (o : Option (List SElem)) : Prop :=
  ∀ ss, o = some ss → timeline = (ss.foldl timelineSCb {}).timeline ∧
    skipped = (ss.foldl timelineSCb {}).timelineSkipped ∧
    openEnded = ((ss.foldl timelineSCb {}).openEnded && !(ss.foldl timelineSCb {}).timeline.isEmpty)

def SegtmplDefaults.Carries (d : SegtmplDefaults) (o : Option (List SElem)) : Prop :=
  Dash.Carries d.timeline d.timelineSkipped d.timelineOpenEnded o

/-- The timeline of a template, if it has one, else the inherited one. -/
def templateTimeline (st : Option SegmentTemplateElem) (inherited : Option (List SElem)) : Option (List SElem) :=
  (st.bind (·.segmentTimeline)).or inherited

variable {d : SegtmplDefaults} {o : Option (List SElem)}

theorem carries_parseSegmentTemplate (h : d.Carries o)
    (st : Option SegmentTemplateElem) : (parseSegmentTemplate st d).Carries (templateTimeline st o) := by
  obtain _ | ⟨_ | tl, _, _, _, _, _⟩ := st
  · exact h
  · exact h
  · intro ss hss
    cases hss
    exact ⟨rfl, rfl, rfl⟩

/-- The `S` elements that are in force for a representation. -/
def timelineOf (tag : MpdElem) (p a r : ℕ) : Option (List SElem) := do
  let period ← tag.periods[p]?
  let as ← period.adaptationSets[a]?
  let rep ← as.representations[r]?
  templateTimeline rep.segmentTemplate
    (templateTimeline as.segmentTemplate (templateTimeline period.segmentTemplate none))

def Period.representation (p : Period) (a r : ℕ) : Option Representation :=
  p.adaptationSets[a]?.bind (·.representations[r]?)

variable {i : ℕ} {rep : Representation}

theorem adaptationSet_carries (h : d.Carries o) (tag : AdaptationSetElem)
    (hrep : (tag.representations.foldl (representationCb (parseSegmentTemplate tag.segmentTemplate d)) {}).representations[i]? = some rep) :
    ∃ x, tag.representations[i]? = some x ∧ Dash.Carries rep.timeline rep.timelineSkipped rep.timelineOpenEnded
      (templateTimeline x.segmentTemplate (templateTimeline tag.segmentTemplate o)) := by
  refine (getElem?_foldl_capped AdaptationSet.representations _ dashMaxRepresentations
    (fun x rep => Dash.Carries rep.timeline rep.timelineSkipped rep.timelineOpenEnded
      (templateTimeline x.segmentTemplate (templateTimeline tag.segmentTemplate o))) (fun s x hn => ?_)
    (fun s x hn => ?_) rfl tag.representations).2 i rep hrep
  · rw [representationCb, if_pos hn]
  · rw [representationCb, if_neg (not_le.2 hn)]
    exact ⟨_, rfl, carries_parseSegmentTemplate (carries_parseSegmentTemplate h _) _⟩

variable {period : Period}

theorem period_carries (h : d.Carries o) (hnil : period.adaptationSets = []) (tags : List AdaptationSetElem)
    (hrep : (tags.foldl (adaptationSetCb d) period).representation a i = some rep) :
    ∃ as x, tags[a]? = some as ∧ as.representations[i]? = some x ∧
      Dash.Carries rep.timeline rep.timelineSkipped rep.timelineOpenEnded
        (templateTimeline x.segmentTemplate (templateTimeline as.segmentTemplate o)) := by
  obtain ⟨as, has, hrep⟩ := bind_eq_some_iff.1 hrep
  obtain ⟨x, hx, rfl⟩ := (getElem?_foldl_capped Period.adaptationSets _ dashMaxAdaptationSets
    (fun x as => as = x.representations.foldl (representationCb (parseSegmentTemplate x.segmentTemplate d)) {})
    (fun s x hn => by rw [adaptationSetCb, if_pos hn])
    (fun s x hn => ⟨_, by rw [adaptationSetCb, if_neg (not_le.2 hn)], rfl⟩) hnil tags).2 a as has
  obtain ⟨y, hy, hc⟩ := adaptationSet_carries h x hrep
  exact ⟨x, y, hx, hy, hc⟩

variable {p : ℕ}

theorem periods_carry (tags : List PeriodElem) {ctx : PeriodCtx} (hnil : ctx.mpd.periods = []) (hp : (tags.foldl periodCb ctx).mpd.periods[p]? = some period)
    (hrep : period.representation a i = some rep) :
    ∃ tag as x, tags[p]? = some tag ∧ tag.adaptationSets[a]? = some as ∧ as.representations[i]? = some x ∧
      Dash.Carries rep.timeline rep.timelineSkipped rep.timelineOpenEnded (templateTimeline x.segmentTemplate
        (templateTimeline as.segmentTemplate (templateTimeline tag.segmentTemplate none))) := by
  obtain ⟨x, hx, start, dur, rfl⟩ := (getElem?_foldl_capped (fun c : PeriodCtx => c.mpd.periods) periodCb
    dashMaxPeriods (fun x per => ∃ start dur, per = x.adaptationSets.foldl (adaptationSetCb (parseSegmentTemplate
      x.segmentTemplate { startNumber := 1 })) { startMs := start, durationMs := dur })
    (fun s x hn => by rw [periodCb, if_pos hn])
    (fun s x hn => ⟨_, by rw [periodCb, if_neg (not_le.2 hn)], _, _, rfl⟩) hnil tags).2 p period hp
  have hnone : SegtmplDefaults.Carries { startNumber := 1 } none := nofun
  obtain ⟨as, y, has, hy, hc⟩ := period_carries (carries_parseSegmentTemplate hnone _) rfl _ hrep
  exact ⟨x, as, y, hx, has, hy, hc⟩

/-! ## The whole way -/

theorem dur_of_mem_runs {stop start : ℕ} {x : Run} (hx : x ∈ runs stop start ss) : ∃ s ∈ ss, x.d = s.dur := by
  induction ss generalizing start with
  | nil => cases hx
  | cons s ss ih =>
    obtain rfl | hx := mem_cons.1 hx
    · exact ⟨s, mem_cons_self, rfl⟩
    · obtain ⟨s', hs', hd⟩ := ih hx
      exact ⟨s', mem_cons_of_mem _ hs', hd⟩

theorem last_lt {xs : List Run} (hfit : ∀ p ∈ expansion xs, p.1 < 2 ^ 64) {x : Run} (hx : x ∈ xs) :
    x.t + x.d * x.r < 2 ^ 64 := by
  have hlast : (x.t + x.r * x.d, x.d) ∈ x.segments := mem_map.2 ⟨x.r, mem_range.2 (lt_succ_self _), rfl⟩
  rw [mul_comm]
  exact hfit _ (mem_flatMap.2 ⟨x, hx, hlast⟩)

theorem fits_of_runs {stop : ℕ} {es : List TimelineEntry} (heq : es.map TimelineEntry.run = runs stop 0 (counted ss))
    (hfit : ∀ x ∈ expansion (runs stop 0 (counted ss)), x.1 < 2 ^ 64) : ∀ e ∈ es, e.Fits := by
  intro e he
  have hrun : e.run ∈ runs stop 0 (counted ss) := heq ▸ mem_map_of_mem he
  obtain ⟨s, hs, hd⟩ := dur_of_mem_runs hrun
  refine ⟨fun h0 => ?_, ?_⟩
  · have hne : s.d.getD 0 ≠ 0 := by simpa using of_mem_filter hs
    exact hne (UInt64.toNat_inj.1 (hd.symm.trans (congrArg UInt64.toNat h0)))
  · exact last_lt hfit hrun

theorem finishRepresentation_answers (m : Mpd) (p : Period) (now : UInt64) {r : Representation}
    (h : Carries r.timeline r.timelineSkipped r.timelineOpenEnded (some ss))
    (hend : ∀ s, (counted ss).getLast? = some s → s.isOpen → timelineEnd m p now r < 2 ^ 64)
    (hfit : ∀ x ∈ expansion (runs (timelineEnd m p now r) 0 (counted ss)), x.1 < 2 ^ 64) :
    Answers (finishRepresentation m p now r) (runs (timelineEnd m p now r) 0 (counted ss)) := by
  obtain ⟨htl, hskip, hopen⟩ := h ss rfl
  rw [foldl_counted] at htl hskip hopen
  cases hss : counted ss with
  | nil =>
    rw [hss] at htl hskip hopen
    have hfinish : finishRepresentation m p now r = r := if_neg fun h => h.2 htl
    rw [hfinish]
    have hshows : Shows r.timeline r.timelineSkipped [] := by
      rw [htl, hskip]
      exact shows_nil
    exact answers_of_shows hshows (fun _ he => nomatch he)
  | cons s rest =>
    have hd : ∀ x ∈ s :: rest, x.d.getD 0 ≠ 0 := fun x hx => ne_zero_of_mem_counted (hss ▸ hx)
    obtain ⟨stop, hstopdef⟩ : ∃ x, msToTicks r (openEndMs m p now) + r.presentationTimeOffset = x := ⟨_, rfl⟩
    have hstop : ∀ l, (s :: rest).getLast? = some l → l.isOpen → stop.toNat = timelineEnd m p now r := by
      intro l hl hlo
      have hlt := hend l (hss ▸ hl) hlo
      unfold timelineEnd at hlt ⊢
      rw [← toNat_openEndMs] at hlt ⊢
      rw [← hstopdef, UInt64.toNat_add, toNat_msToTicks (by omega), mod_eq_of_lt hlt]
    have hfirst : timelineSCb {} s = _ := timelineSCb_first (hd s mem_cons_self) rfl
    have hread : Reading (timelineSCb {} s) [] (s.entry 0) := by
      rw [hfirst]
      exact ⟨shows_nil.push _, entry_r 0⟩
    have hopen0 : (timelineSCb {} s).openEnded = s.isOpen := by rw [hfirst, openEnded_push]
    obtain ⟨es, cur, hread, hes⟩ := reading_foldl stop (fun x hx => hd x (.tail _ hx)) hread
    rw [hopen0, nil_append] at hes
    rw [hss, foldl_cons] at htl hskip hopen
    generalize rest.foldl timelineSCb (timelineSCb {} s) = ctx at htl hskip hopen hread hes
    have hlist := map_run_entriesFrom rest s 0 hstop (by rw [← hss]; exact fun x hx => last_lt hfit hx)
    rw [← hes] at hlist
    have hne : ctx.timeline.isEmpty = false := by
      rw [isEmpty_eq_false_iff_exists_mem]
      exact ⟨cur, mem_of_getLast? (hread.shows.setLast cur).1⟩
    rw [hne, Bool.not_false, Bool.and_true] at hopen
    have hshows : Shows (finishRepresentation m p now r).timeline (finishRepresentation m p now r).timelineSkipped
        (es ++ [cur.closedAt ctx.openEnded (some stop)]) := by
      obtain ⟨hlast, hset⟩ := hread.shows.setLast (cur.closedAt ctx.openEnded (some stop))
      rw [← htl] at hlast hset
      rw [← hskip] at hset
      unfold finishRepresentation
      cases ho : ctx.openEnded with
      | false =>
        rw [if_neg (by rw [hopen, ho]; exact fun h => nomatch h.1), htl, hskip]
        exact hread.shows
      | true =>
        have hcur := hread.open_r ho
        rw [ho] at hset
        rw [if_pos ⟨hopen.trans ho, by rw [htl]; exact isEmpty_eq_false_iff.1 hne⟩,
          expandOpenEnded_timeline hlast hcur, hstopdef]
        have hskipped : (expandOpenEnded m p now r).timelineSkipped = r.timelineSkipped := by
          rw [expandOpenEnded, hlast]
        rwa [hskipped]
    have hanswers := answers_of_shows hshows (fits_of_runs (by rw [hlist, hss]; rfl) hfit)
    rw [hlist] at hanswers
    exact hanswers

/-- The end of the timeline depends on nothing that is changed at the end. -/
theorem timelineEnd_finishRepresentation (m : Mpd) (p : Period) (now : UInt64) (r : Representation) :
    timelineEnd m p now (finishRepresentation m p now r) = timelineEnd m p now r := by
  unfold finishRepresentation expandOpenEnded
  split
  · split <;> rfl
  · rfl

theorem dashMpdParse_representation {tag : MpdElem} (hp : (dashMpdParse now tag).periods[p]? = some period)
    (hrep : period.representation a i = some rep) :
    ∃ m period0 rep0, rep = finishRepresentation m period0 now rep0 ∧
      timelineEndMs (dashMpdParse now tag) period now = timelineEndMs m period0 now ∧
      Carries rep0.timeline rep0.timelineSkipped rep0.timelineOpenEnded (timelineOf tag p a i) := by
  rw [dashMpdParse, getElem?_map, map_eq_some_iff] at hp
  obtain ⟨period0, hp0, rfl⟩ := hp
  obtain ⟨as, has, hrep⟩ := bind_eq_some_iff.1 hrep
  rw [getElem?_map] at has
  obtain ⟨as0, has0, rfl⟩ := map_eq_some_iff.1 has
  rw [getElem?_map] at hrep
  obtain ⟨rep0, hrep0, rfl⟩ := map_eq_some_iff.1 hrep
  obtain ⟨tagP, tagA, tagR, htP, htA, htR, hcarries⟩ := periods_carry tag.periods rfl hp0
    (bind_eq_some_iff.2 ⟨as0, has0, hrep0⟩)
  refine ⟨_, period0, rep0, rfl, rfl, ?_⟩
  simpa [timelineOf, htP, htA, htR] using hcarries

/-- What is asked about a representation's timeline after `dash_mpd_parse` is answered as the standard has it. -/
theorem dashMpdParse_answers {now : UInt64} {tag : MpdElem} {p a i : ℕ} {period : Period} {rep : Representation}
    {ss : List SElem} (hp : (dashMpdParse now tag).periods[p]? = some period)
    (hrep : period.representation a i = some rep) (hss : timelineOf tag p a i = some ss)
    (hend : ∀ s, (counted ss).getLast? = some s → s.isOpen → timelineEnd (dashMpdParse now tag) period now rep < 2 ^ 64)
    (hfit : ∀ x ∈ expansion (runs (timelineEnd (dashMpdParse now tag) period now rep) 0 (counted ss)), x.1 < 2 ^ 64) :
    Answers rep (runs (timelineEnd (dashMpdParse now tag) period now rep) 0 (counted ss)) := by
  obtain ⟨m, period0, rep0, rfl, hms, hcarries⟩ := dashMpdParse_representation hp hrep
  rw [hss] at hcarries
  have hsame : timelineEnd (dashMpdParse now tag) period now (finishRepresentation m period0 now rep0) =
      timelineEnd m period0 now rep0 := by
    rw [← timelineEnd_finishRepresentation m period0 now rep0, timelineEnd, timelineEnd, hms]
  rw [hsame] at hend hfit ⊢
  exact finishRepresentation_answers m period0 now hcarries hend hfit

/-- A timeline with an open element, and one without a start behind it. -/
theorem dashMpdParse_answers_open : Answers
    { timescale := 1000, startNumber := 1, timeline := [⟨100, 50, 1⟩, ⟨200, 40, 2⟩, ⟨320, 60, 10⟩] }
    [⟨100, 50, 1⟩, ⟨200, 40, 2⟩, ⟨320, 60, 10⟩] :=
  @dashMpdParse_answers 0 { periods := [{ durationMs := some 1000, adaptationSets := [{ representations := [{
    segmentTemplate := some { timescale := some 1000, segmentTimeline := some [⟨some 100, some 50, some .negative⟩,
      ⟨some 200, some 40, some (.count 2)⟩, ⟨none, some 60, some .negative⟩] } }] }] }] } 0 0 0
    { durationMs := 1000, adaptationSets := [{ representations := [{ timescale := 1000, startNumber := 1, timeline :=
      [⟨100, 50, 1⟩, ⟨200, 40, 2⟩, ⟨320, 60, 10⟩] }] }] } _ _ rfl rfl rfl (by decide) (by decide)

/-- Two elements with the same start: only the first one is found. -/
theorem dashTimelineFind_first : ¬∀ (now : UInt64) (tag : MpdElem) (p a i : ℕ) (period : Period)
    (rep : Representation) (ss : List SElem), (dashMpdParse now tag).periods[p]? = some period →
    period.representation a i = some rep → timelineOf tag p a i = some ss →
    (∀ x ∈ expansion (runs (timelineEnd (dashMpdParse now tag) period now rep) 0 (counted ss)), x.1 < 2 ^ 64) →
    ∀ j q, (retained (runs (timelineEnd (dashMpdParse now tag) period now rep) 0 (counted ss)))[j]? = some q →
      dashTimelineFind rep (UInt64.ofNat q.1) = some (UInt64.ofNat q.2,
        UInt64.ofNat (dropped (runs (timelineEnd (dashMpdParse now tag) period now rep) 0 (counted ss)) + j)) := by
  intro hall
  have h := hall 0 { periods := [{ adaptationSets := [{ representations := [{ segmentTemplate := some {
    segmentTimeline := some [⟨some 0, some 2, none⟩, ⟨some 0, some 3, none⟩] } }] }] }] } 0 0 0 _ _ _ rfl rfl rfl
    (by decide) 1 (0, 3) rfl
  cases h

end DvbIpiTools.Dash
