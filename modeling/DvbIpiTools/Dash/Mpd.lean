import Mathlib.Init

set_option autoImplicit false

/-! # Reading an MPD (`dash/mpd.c`)

The elements are given by the values of their attributes, an attribute that is missing is `none`. What names or
selects a representation, its URLs and the latency targets are left out. -/

namespace DvbIpiTools.Dash

def dashMaxRepresentations : Nat := 16
def dashMaxAdaptationSets : Nat := 8
def dashMaxPeriods : Nat := 4
def dashMaxTimeline : Nat := 128

/-! ## The elements -/

/-- The `r` of an `S`: what begins with a minus sign, or the value. -/
inductive Repeat where
  | negative
  | count (n : UInt64)
  deriving DecidableEq

/-- An `S` element. -/
structure SElem where
  t : Option UInt64 := none
  d : Option UInt64 := none
  r : Option Repeat := none

structure SegmentTemplateElem where
  segmentTimeline : Option (List SElem) := none
  presentationTimeOffset : Option UInt64 := none
  timescale : Option UInt32 := none
  duration : Option UInt64 := none
  startNumber : Option UInt64 := none
  availabilityTimeOffsetMs : Option UInt64 := none

structure RepresentationElem where
  segmentTemplate : Option SegmentTemplateElem := none

structure AdaptationSetElem where
  segmentTemplate : Option SegmentTemplateElem := none
  representations : List RepresentationElem := []

structure PeriodElem where
  startMs : Option UInt64 := none
  durationMs : Option UInt64 := none
  segmentTemplate : Option SegmentTemplateElem := none
  adaptationSets : List AdaptationSetElem := []

structure MpdElem where
  isDynamic : Bool := false
  availabilityStartMs : Option UInt64 := none
  mediaPresentationDurationMs : Option UInt64 := none
  periods : List PeriodElem := []

/-! ## What is read -/

/-- `dash_timeline_entry_t` -/
structure TimelineEntry where
  t : UInt64
  d : UInt64
  r : UInt64

/-- `segtmpl_defaults_t` -/
structure SegtmplDefaults where
  timescale : UInt32 := 0
  duration : UInt64 := 0
  startNumber : UInt64 := 0
  availabilityTimeOffsetMs : UInt64 := 0
  presentationTimeOffset : UInt64 := 0
  timeline : List TimelineEntry := []
  timelineSkipped : UInt64 := 0
  timelineOpenEnded : Bool := false

/-- `dash_representation_t` -/
structure Representation where
  timescale : UInt32 := 0
  duration : UInt64 := 0
  startNumber : UInt64 := 0
  availabilityTimeOffsetMs : UInt64 := 0
  presentationTimeOffset : UInt64 := 0
  timeline : List TimelineEntry := []
  timelineSkipped : UInt64 := 0
  timelineOpenEnded : Bool := false

/-- `dash_adaptation_set_t` -/
structure AdaptationSet where
  representations : List Representation := []

/-- `dash_period_t` -/
structure Period where
  adaptationSets : List AdaptationSet := []
  startMs : UInt64 := 0
  durationMs : UInt64 := 0

/-- `dash_mpd_t` -/
structure Mpd where
  isDynamic : Bool := false
  hasAvailabilityStart : Bool := false
  availabilityStartMs : UInt64 := 0
  mediaPresentationDurationMs : UInt64 := 0
  periods : List Period := []

/-! ## The timeline -/

/-- `timeline_ctx_t`, with the part of `segtmpl_defaults_t` that it is about. -/
structure TimelineCtx where
  timeline : List TimelineEntry := []
  timelineSkipped : UInt64 := 0
  openEnded : Bool := false

/-- What `timeline_s_cb` sets the `r` of an open entry to, when the next one begins at `t`. -/
def closeEntry (prev : TimelineEntry) (t : UInt64) : TimelineEntry :=
  let n := (t - prev.t) / prev.d
  { prev with r := if n ≠ 0 then n - 1 else 0 }

/-- `e` at the end of the timeline, with the oldest entry shifted out of a full one. -/
def TimelineCtx.push (ctx : TimelineCtx) (e : TimelineEntry) : TimelineCtx :=
  match ctx.timeline with
  | first :: rest =>
    if ctx.timeline.length = dashMaxTimeline then
      { ctx with timeline := rest ++ [e], timelineSkipped := ctx.timelineSkipped + (1 + first.r) }
    else { ctx with timeline := ctx.timeline ++ [e] }
  | [] => { ctx with timeline := [e] }

def timelineSCb (ctx : TimelineCtx) (s : SElem) : TimelineCtx :=
  match s.d with
  | none => ctx
  | some d =>
    if d = 0 then ctx
    else
      let (t, timeline) := match ctx.timeline.getLast?, s.t with
        | none, t => (t.getD 0, ctx.timeline)
        | some prev, none => (prev.t + prev.d * (prev.r + 1), ctx.timeline)
        | some prev, some t =>
          (t, if ctx.openEnded ∧ t > prev.t then ctx.timeline.dropLast ++ [closeEntry prev t] else ctx.timeline)
      let (r, openEnded) := match s.r with
        | none => (0, false)
        | some .negative => (0, true)
        | some (.count n) => (n, false)
      { ctx with timeline, openEnded }.push ⟨t, d, r⟩

def parseSegmentTimeline (st : Option (List SElem)) (out : SegtmplDefaults) : SegtmplDefaults :=
  match st with
  | none => out
  | some ss =>
    let ctx := ss.foldl timelineSCb {}
    { out with
      timeline := ctx.timeline
      timelineSkipped := ctx.timelineSkipped
      timelineOpenEnded := ctx.openEnded && !ctx.timeline.isEmpty }

def parseSegmentTemplate (st : Option SegmentTemplateElem) (out : SegtmplDefaults) : SegtmplDefaults :=
  match st with
  | none => out
  | some st =>
    let out := parseSegmentTimeline st.segmentTimeline out
    { out with
      presentationTimeOffset := st.presentationTimeOffset.getD out.presentationTimeOffset
      timescale := st.timescale.getD out.timescale
      duration := st.duration.getD out.duration
      startNumber := st.startNumber.getD out.startNumber
      availabilityTimeOffsetMs := st.availabilityTimeOffsetMs.getD out.availabilityTimeOffsetMs }

/-! ## The callbacks of the elements -/

def representationCb (inherited : SegtmplDefaults) (as : AdaptationSet) (tag : RepresentationElem) : AdaptationSet :=
  if as.representations.length ≥ dashMaxRepresentations then as
  else
    let st := parseSegmentTemplate tag.segmentTemplate inherited
    let r : Representation :=
      { timescale := st.timescale
        duration := st.duration
        startNumber := st.startNumber
        availabilityTimeOffsetMs := st.availabilityTimeOffsetMs
        presentationTimeOffset := st.presentationTimeOffset
        timeline := st.timeline
        timelineSkipped := st.timelineSkipped
        timelineOpenEnded := st.timelineOpenEnded }
    { as with representations := as.representations ++ [r] }

def adaptationSetCb (inherited : SegtmplDefaults) (period : Period) (tag : AdaptationSetElem) : Period :=
  if period.adaptationSets.length ≥ dashMaxAdaptationSets then period
  else
    let defaults := parseSegmentTemplate tag.segmentTemplate inherited
    let as := tag.representations.foldl (representationCb defaults) {}
    { period with adaptationSets := period.adaptationSets ++ [as] }

/-- `period_ctx_t` -/
structure PeriodCtx where
  mpd : Mpd
  prevEndMs : UInt64 := 0

def periodCb (ctx : PeriodCtx) (tag : PeriodElem) : PeriodCtx :=
  if ctx.mpd.periods.length ≥ dashMaxPeriods then ctx
  else
    let startMs := tag.startMs.getD ctx.prevEndMs
    let durMs := tag.durationMs.getD 0
    let defaults := parseSegmentTemplate tag.segmentTemplate { startNumber := 1 }
    let period := tag.adaptationSets.foldl (adaptationSetCb defaults) { startMs, durationMs := durMs }
    { mpd := { ctx.mpd with periods := ctx.mpd.periods ++ [period] }, prevEndMs := startMs + durMs }

/-! ## Times -/

/-- The time scale, one where the template has none. -/
def Representation.ts (r : Representation) : UInt64 := if r.timescale ≠ 0 then r.timescale.toUInt64 else 1

def msToTicks (r : Representation) (ms : UInt64) : UInt64 := ms / 1000 * r.ts + ms % 1000 * r.ts / 1000

def ticksToMs (r : Representation) (ticks : UInt64) : UInt64 := ticks / r.ts * 1000 + ticks % r.ts * 1000 / r.ts

def dashEdgeIndex (r : Representation) (elapsedMs : UInt64) : Option UInt64 :=
  let ms := elapsedMs + r.availabilityTimeOffsetMs
  if r.duration = 0 then none
  else
    let done := (ms / 1000 * r.ts + ms % 1000 * r.ts / 1000) / r.duration
    if done = 0 then none else some (done - 1)

def dashIndexAvailableMs (r : Representation) (idx : UInt64) : UInt64 :=
  let end_ := ticksToMs r ((idx + 1) * r.duration)
  if end_ > r.availabilityTimeOffsetMs then end_ - r.availabilityTimeOffsetMs else 0

/-! ## The whole MPD -/

/-- Where `expand_open_ended` lets an open timeline end, in milliseconds after the start of the period; `now` is
`dash_wall_ms`. -/
def openEndMs (m : Mpd) (p : Period) (now : UInt64) : UInt64 :=
  let periodEndMs :=
    if p.durationMs ≠ 0 then p.durationMs
    else if !m.isDynamic ∧ m.mediaPresentationDurationMs > p.startMs then m.mediaPresentationDurationMs - p.startMs
    else 0
  if m.isDynamic ∧ m.hasAvailabilityStart then
    let el := if now > m.availabilityStartMs then now - m.availabilityStartMs else 0
    let endMs := if el > p.startMs then el - p.startMs else 0
    if periodEndMs ≠ 0 ∧ endMs > periodEndMs then periodEndMs else endMs
  else periodEndMs

def expandOpenEnded (m : Mpd) (p : Period) (now : UInt64) (r : Representation) : Representation :=
  match r.timeline.getLast? with
  | none => r
  | some e =>
    let endTicks := msToTicks r (openEndMs m p now) + r.presentationTimeOffset
    let n := (endTicks - e.t) / e.d
    let r' := if e.d = 0 ∨ endTicks ≤ e.t then 0 else if n ≠ 0 then n - 1 else 0
    { r with timelineOpenEnded := false, timeline := r.timeline.dropLast ++ [{ e with r := r' }] }

/-- What `dash_mpd_parse` does to a representation at the end. -/
def finishRepresentation (m : Mpd) (p : Period) (now : UInt64) (r : Representation) : Representation :=
  if r.timelineOpenEnded ∧ r.timeline ≠ [] then expandOpenEnded m p now r else r

/-- `dash_mpd_parse`, of the MPD element. -/
def dashMpdParse (now : UInt64) (tag : MpdElem) : Mpd :=
  let out : Mpd :=
    { isDynamic := tag.isDynamic
      hasAvailabilityStart := tag.availabilityStartMs.isSome
      availabilityStartMs := tag.availabilityStartMs.getD 0
      mediaPresentationDurationMs := tag.mediaPresentationDurationMs.getD 0 }
  let out := (tag.periods.foldl periodCb { mpd := out }).mpd
  { out with
    periods := out.periods.map fun p =>
      { p with adaptationSets := p.adaptationSets.map fun as =>
        { as with representations := as.representations.map (finishRepresentation out p now) } } }

/-! ## Segments of a timeline -/

/-- `dash_timeline_last`: time, duration and position. -/
def dashTimelineLast (r : Representation) : Option (UInt64 × UInt64 × UInt64) :=
  match r.timeline.getLast? with
  | none => none
  | some e =>
    let before := r.timeline.dropLast.foldl (fun before x => before + (1 + x.r)) r.timelineSkipped
    some (e.t + e.d * e.r, e.d, before + e.r)

/-- The loop of `dash_timeline_find` over the entries that are left. -/
def timelineFind (time : UInt64) : List TimelineEntry → UInt64 → Option (UInt64 × UInt64)
  | [], _ => none
  | e :: rest, before =>
    if time ≥ e.t ∧ time ≤ e.t + e.d * e.r ∧ (time - e.t) % e.d = 0 then some (e.d, before + (time - e.t) / e.d)
    else timelineFind time rest (before + (1 + e.r))

/-- `dash_timeline_find`: duration and position. -/
def dashTimelineFind (r : Representation) (time : UInt64) : Option (UInt64 × UInt64) :=
  timelineFind time r.timeline r.timelineSkipped

end DvbIpiTools.Dash
