import DvbIpiTools.Utils.Coder
import DvbIpiTools.Bim.Codec.Schema
import DvbIpiTools.Bim.Codec.Texts

set_option autoImplicit false

/-! # Codecs of dates and times (`tvatypes.c`, `m7time.c`, dateTime of `dvbtypes.c`)

An encoder yields the bits of a value, a decoder reads them and prints the value; the buffers of the
decoders hold the longest text there is. -/

namespace DvbIpiTools.Bim.Codec

open BitList Coder DateUtil

/-- A reader of bits. -/
abbrev BitRd (α : Type) := Bits Bool α

def getBits (n : Nat) : BitRd Nat := Stream.get n

def getV5 : BitRd Nat := Stream.getVluimsbf5

def getV8 : BitRd Nat := Stream.getVluimsbf8

def getFlag : BitRd Bool := do
  let v ← getBits 1
  return v ≠ 0

def require (b : Bool) : BitRd Unit := if b then pure () else failure

/-! ## Shared pieces -/

def isoFractionMs (s : List UInt8) : Option Nat :=
  let p := s.dropWhile (· ≠ 84)
  if p.length < 9 ∨ charAt p 3 ≠ 58 ∨ charAt p 6 ≠ 58 ∨ charAt p 9 ≠ 46 then some 0
  else
    let ds := (p.drop 10).takeWhile isDigit
    if (ds.drop 3).any (· ≠ 48) then none
    else some (decValue (ds.take 3) * 10 ^ (3 - ds.length))

/-- A fraction of a second without its trailing zeros. -/
def fractionText (ms : Nat) : List UInt8 :=
  if ms = 0 then [] else 46 :: ((padded 3 ms).reverse.dropWhile (· = 48)).reverse

/-- `%04d-%02d-%02d` of a day. -/
def dateText (mjd : Int) : List UInt8 :=
  let (y, mo, d) := mjdToDate mjd
  paddedInt 4 y ++ [45] ++ paddedInt 2 mo ++ [45] ++ paddedInt 2 d

/-- `%02u:%02u:%02u` of a second of the day. -/
def clockText (sec : Nat) : List UInt8 :=
  padded 2 (sec / 3600) ++ [58] ++ padded 2 (sec % 3600 / 60) ++ [58] ++ padded 2 (sec % 60)

/-- A day and the milliseconds in it, in UTC. -/
def instantText (mjd : Int) (ms : Nat) : List UInt8 :=
  dateText mjd ++ [84] ++ clockText (ms / 1000) ++ fractionText (ms % 1000) ++ [90]

/-! ## TV-Anytime -/

def tvaDatetimeEncode (v : List UInt8) : Option (List Bool) := do
  let t ← iso8601Split v
  let ms ← isoFractionMs v
  let sec := t.h * 3600 + t.mi * 60 + t.s - t.offMin.getD 0 * 60
  let days := Int.fdiv sec 86400
  let mjd := dateToMjd t.y t.mo t.d + days
  let sec := sec - days * 86400
  if mjd < 0 ∨ mjd > 0xFFFFFFFF then none
  else return ofNat 32 mjd.toNat ++ ofNat 32 (sec * 1000 + ms).toNat

def tvaDatetimeDecode : BitRd (List UInt8) := do
  let mjd ← getBits 32
  let ms ← getBits 32
  require (ms < 86400000 && mjd ≤ 0xFFFFF)
  return instantText mjd ms

def tvaDateEncode (v : List UInt8) : Option (List Bool) := do
  let (y, s) ← scanInt 4 v
  let s ← scanChars [45] s
  let (mo, s) ← scanInt 2 s
  let s ← scanChars [45] s
  let (d, s) ← scanInt 2 s
  if s ≠ [] ∨ mo < 1 ∨ mo > 12 ∨ d < 1 ∨ d > 31 then none
  else
    let mjd := dateToMjd y mo d
    if dateText mjd ≠ v ∨ mjd < 0 ∨ mjd > 0xFFFFFFFF then none
    else return ofNat 32 mjd.toNat

def tvaDateDecode : BitRd (List UInt8) := do
  let mjd ← getBits 32
  require (mjd ≤ 0xFFFFF)
  return dateText mjd

/-! ## DVB dateTime -/

/-- `dvb_codec_state_t`: what locators and dates of one fragment share. -/
structure DvbState where
  havePrefix : Bool := false
  onid : Nat := 0
  tsid : Nat := 0
  sid : Nat := 0
  haveDay : Bool := false
  day : Nat := 0
  haveDate : Bool := false
  mjd : Int := 0
deriving DecidableEq

def mjd16Full (v : Nat) : Int := if (v : Int) < mjdUnixEpoch then v + 65536 else v

/-- What `dvb_datetime_encode_st` finds in a text: the day in UTC, the minute of the day, the second and
the fraction. -/
structure Instant where
  mjd : Int
  minute : Nat
  sec : Nat
  frac : Nat

/-- The checks of `dvb_datetime_encode_st`. -/
def datetimeParse (v : List UInt8) : Option Instant := do
  let f ← iso8601Split v
  let frac ← isoFractionMs v
  let total := iso8601MjdMinutes f
  let mjd := Int.fdiv total 1440
  if mjd < 15079 ∨ mjd > 88127 then none
  else return ⟨mjd, (total - mjd * 1440).toNat, f.s.toNat, frac⟩

/-- PublishedTime is used for it. -/
def Instant.isPublished (t : Instant) : Bool :=
  t.sec = 0 && t.frac = 0 && t.mjd ≥ mjdUnixEpoch && t.mjd < mjdUnixEpoch + 65536

/-- `dvb_datetime_encode_st`, `dvb_datetime_encode`. -/
def datetimeEncode (published : Bool) (st : DvbState) (v : List UInt8) :
    Option (List Bool × DvbState) := do
  let t ← datetimeParse v
  if published && t.isPublished then
    let reuse := st.haveDate && st.mjd = t.mjd
    let date := if reuse then [] else ofNat 16 (t.mjd % 65536).toNat
    return (ofNat 2 1 ++ [!reuse] ++ date ++ ofNat 11 t.minute, { st with haveDate := true, mjd := t.mjd })
  else return (ofNat 2 0 ++ ofNat 32 t.mjd.toNat ++ ofNat 32 ((t.minute * 60 + t.sec) * 1000 + t.frac), st)

/-- `dvb_datetime_decode_st`. -/
def datetimeDecode (st : DvbState) : BitRd (List UInt8 × DvbState) := do
  let flag ← getBits 2
  if flag = 1 then
    let hasDate ← getFlag
    let st ← if hasDate then do
        let date ← getBits 16
        pure { st with haveDate := true, mjd := mjd16Full date }
      else if st.haveDate then pure st else failure
    let minutes ← getBits 11
    require (minutes < 1440)
    return (instantText st.mjd (minutes * 60000), st)
  else
    require (flag = 0)
    let mjd ← getBits 32
    let ms ← getBits 32
    require (15079 ≤ mjd && mjd ≤ 88127 && ms < 86400000)
    return (instantText mjd ms, st)

/-! ## MPEG-7 time points -/

/-- `take_num`: digits, at least one, below 2^64. -/
def takeNum (s : List UInt8) : Option (Nat × List UInt8) :=
  let ds := s.takeWhile isDigit
  if ds = [] ∨ decValue ds ≥ 2 ^ 64 then none else some (decValue ds, s.dropWhile isDigit)

/-- `take2`: exactly two digits. -/
def take2 (s : List UInt8) : Option (Nat × List UInt8) :=
  if (s.takeWhile isDigit).length = 2 then takeNum s else none

/-- `take_tz` on the six characters of a time zone. -/
def takeTz (s : List UInt8) : Option (Int × Nat) := do
  let sign := charAt s 0
  if sign ≠ 43 ∧ sign ≠ 45 then none
  else
    let (hh, q) ← take2 ((s.drop 1).take 2)
    if q ≠ [] ∨ charAt s 3 ≠ 58 then none
    else
      let (m, _) ← take2 ((s.drop 4).take 2)
      if sign = 45 ∧ hh = 0 ∧ m ≠ 0 then none
      else return (if sign = 45 then -hh else hh, m)

/-- A time zone at the end of a text (`ends_tz`), and the text before it. -/
def splitTz (s : List UInt8) : Option (Int × Nat) × List UInt8 :=
  if s.length < 6 then (none, s)
  else match takeTz (s.drop (s.length - 6)) with
    | none => (none, s)
    | some tz => (some tz, s.take (s.length - 6))

/-- `m7_timepoint_t`; a section that is absent is `none`. -/
structure M7Timepoint where
  neg : Bool
  year : Option Nat
  month : Option Nat
  day : Option Nat
  hour : Option Nat
  min : Option Nat
  sec : Option Nat
  n : Option Nat
  ff : Option Nat
  frac : Option Nat
  tz : Option (Int × Nat)

/-- A further section behind the character `c`, to the end or to the next section. -/
def section? {α : Type} (c : UInt8) (p : List UInt8 → Option (α × List UInt8)) (s : List UInt8) :
    Option (Option α × List UInt8) :=
  if charAt s 0 = c then (p (s.drop 1)).map fun (a, s) => (some a, s) else some (none, s)

/-- A section that is looked for only behind the one before. -/
def sectionBehind {α β : Type} (before : Option β) (c : UInt8) (p : List UInt8 → Option (α × List UInt8)) (s : List UInt8) :
    Option (Option α × List UInt8) :=
  if before.isSome then section? c p s else some (none, s)

/-- The date of `m7_timepoint_parse`, all of `s`. -/
def m7Date (s : List UInt8) : Option (Bool × Nat × Option Nat × Option Nat) := do
  let neg := charAt s 0 = 45
  let (year, s) ← takeNum (if neg then s.drop 1 else s)
  if s = [] then return (neg, year, none, none)
  else
    let s ← scanChars [45] s
    let (month, s) ← take2 s
    if s = [] then return (neg, year, some month, none)
    else
      let s ← scanChars [45] s
      let (day, s) ← take2 s
      if s = [] then return (neg, year, some month, some day) else none

/-- The time of `m7_timepoint_parse`, all of `s`: hour, minute, second, `n` and `ff`. -/
def m7Time (s : List UInt8) : Option (Nat × Option Nat × Option Nat × Option Nat × Option Nat) := do
  let (hour, s) ← take2 s
  let (min, s) ← section? 58 take2 s
  let (sec, s) ← sectionBehind min 58 take2 s
  let (n, s) ← sectionBehind sec 58 takeNum s
  let (ff, s) ← sectionBehind n 46 take2 s
  if s = [] then return (hour, min, sec, n, ff) else none

/-- The fraction behind an `F`, to the end, and the text in front of it. -/
def splitFrac (s : List UInt8) : Option (Option Nat × List UInt8) :=
  if 70 ∈ s then
    match takeNum ((s.dropWhile (· ≠ 70)).drop 1) with
    | some (frac, []) => some (some frac, s.takeWhile (· ≠ 70))
    | _ => none
  else some (none, s)

/-- The date in front of a `T`, if there is anything. -/
def optDate (s : List UInt8) : Option (Option (Bool × Nat × Option Nat × Option Nat)) :=
  if s.takeWhile (· ≠ 84) = [] then some none else (m7Date (s.takeWhile (· ≠ 84))).map some

/-- The time behind a `T`. -/
def optTime (s : List UInt8) : Option (Option (Nat × Option Nat × Option Nat × Option Nat × Option Nat)) :=
  if 84 ∈ s then (m7Time ((s.dropWhile (· ≠ 84)).drop 1)).map some else some none

/-- The sections that were found. -/
def M7Timepoint.ofParts (date : Option (Bool × Nat × Option Nat × Option Nat))
    (time : Option (Nat × Option Nat × Option Nat × Option Nat × Option Nat)) (frac : Option Nat) (tz : Option (Int × Nat)) :
    M7Timepoint where
  neg := (date.map fun d => d.1).getD false
  year := date.map fun d => d.2.1
  month := date.bind fun d => d.2.2.1
  day := date.bind fun d => d.2.2.2
  hour := time.map fun t => t.1
  min := time.bind fun t => t.2.1
  sec := time.bind fun t => t.2.2.1
  n := time.bind fun t => t.2.2.2.1
  ff := time.bind fun t => t.2.2.2.2
  frac := frac
  tz := tz

def m7TimepointParse (s : List UInt8) : Option M7Timepoint := do
  let (tz, s) := splitTz s
  let (frac, s) ← splitFrac s
  let date ← optDate s
  let time ← optTime s
  return .ofParts date time frac tz

/-- `%c%02d:%02u` of a zone. -/
def tzText (tz : Int × Nat) : List UInt8 :=
  (if tz.1 < 0 then 45 else 43) :: padded 2 tz.1.natAbs ++ [58] ++ padded 2 tz.2

/-- An optional section of a text. -/
def optText {α : Type} (f : α → List UInt8) : Option α → List UInt8
  | none => []
  | some a => f a

def m7TimepointRender (t : M7Timepoint) : List UInt8 :=
  optText (fun y => (if t.neg then [45] else []) ++ decimal y) t.year ++
  optText (fun m => 45 :: padded 2 m) t.month ++ optText (fun d => 45 :: padded 2 d) t.day ++
  optText (fun h => 84 :: padded 2 h) t.hour ++ optText (fun m => 58 :: padded 2 m) t.min ++
  optText (fun s => 58 :: padded 2 s) t.sec ++ optText (fun n => 58 :: decimal n) t.n ++
  optText (fun f => 46 :: padded 2 f) t.ff ++ optText (fun f => 70 :: decimal f) t.frac ++ optText tzText t.tz

/-- `flags_of` for one section: with `BIM_COMPAT_M7_FLAGS` a section whose probe a pattern excludes has no
flag. -/
def m7Flag (compat : Bool) (f : Facets) (probe : String) : Bool :=
  !compat || (f.patterns ++ f.basePatterns).all fun p => p (CStr.ofBytes (text probe))

/-- `wflag`: a section without a flag has to be unused. -/
def wflag (coded v : Bool) : Option (List Bool) :=
  if coded then some [v] else if v then none else some []

/-- A flag that is there only in one case. -/
def wflagIn (there coded v : Bool) : Option (List Bool) := if there then wflag coded v else some []

def rflag (coded : Bool) : BitRd Bool := if coded then getFlag else pure false

/-- The code of an optional section that is present. -/
def optBits {α : Type} (f : α → List Bool) : Option α → List Bool
  | none => []
  | some a => f a

/-- A section that is read if present. -/
def optRd {α : Type} (present : Bool) (r : BitRd α) : BitRd (Option α) :=
  if present then do
    let a ← r
    return some a
  else pure none

def tzOk (tz : Option (Int × Nat)) (lo hi : Int) : Bool := match tz with
  | none => true
  | some (h, m) => lo ≤ h && h ≤ hi && m % 15 = 0 && m ≤ 45

/-- `1 <= v <= hi` of a section, if present. -/
def inRange (lo hi : Nat) : Option Nat → Bool
  | none => true
  | some v => lo ≤ v && v ≤ hi

/-- The nested flags of a time: each one only where the section before is present. -/
def m7TimeFlags (fl : String → Bool) (t : M7Timepoint) : Option (List Bool) := do
  let time ← wflag (fl "T00") t.hour.isSome
  if t.hour.isNone then return time
  let min ← wflag (fl "T00:00") t.min.isSome
  if t.min.isNone then return time ++ min
  let sec ← wflag (fl "T00:00:00") t.sec.isSome
  if t.sec.isNone then return time ++ min ++ sec
  let n ← wflag (fl "T00:00:00:1") t.n.isSome
  if t.n.isNone then return time ++ min ++ sec ++ n
  let ff ← wflag (fl "T00:00:00:1.00") t.ff.isSome
  return time ++ min ++ sec ++ n ++ ff

/-- The flags of a date: the sign goes first in the compatible form and behind the date flag otherwise. -/
def m7DateFlags (compat : Bool) (fl : String → Bool) (t : M7Timepoint) : Option (List Bool) := do
  let first ← wflagIn compat (fl "-1") t.neg
  let date ← wflag (!compat || fl "1") t.year.isSome
  if t.year.isNone then return first ++ date
  let sign := if compat then [] else [t.neg]
  let month ← wflag (!compat || fl "1-01") t.month.isSome
  if t.month.isNone then return first ++ date ++ sign ++ month
  let day ← wflag (!compat || fl "1-01-01") t.day.isSome
  return first ++ date ++ sign ++ month ++ day

def m7TimepointEncode (compat : Bool) (f : Facets) (v : List UInt8) : Option (List Bool) := do
  let fl := m7Flag compat f
  let t ← m7TimepointParse v
  let w := bimWidth (t.frac.getD 0)
  let shift := if compat then 1 else 0
  if !(inRange 1 12 t.month && inRange 1 31 t.day && inRange 0 23 t.hour && inRange 0 59 t.min &&
      inRange 0 59 t.sec && inRange 0 99 t.ff && tzOk t.tz (-15) 16) then none
  else if t.n.isSome && (t.frac.getD 0 = 0 || (w < 64 && t.n.getD 0 ≥ 2 ^ w)) then none
  else
    let date ← m7DateFlags compat fl t
    let time ← m7TimeFlags fl t
    let frac ← wflag (fl "F1") t.frac.isSome
    let tz ← wflag (fl "+01:00") t.tz.isSome
    return date ++ time ++ frac ++ tz ++
      optBits vluimsbf5Bits t.year ++ optBits (fun m => ofNat 4 (m - shift)) t.month ++
      optBits (fun d => ofNat 5 (d - shift)) t.day ++ optBits (ofNat 5) t.hour ++
      optBits (ofNat 6) t.min ++ optBits (ofNat 6) t.sec ++ optBits vluimsbf5Bits t.frac ++
      optBits (ofNat w) t.n ++ optBits (ofNat 7) t.ff ++
      optBits (fun z => ofNat 5 (z.1 + 15).toNat ++ ofNat 2 (z.2 / 15)) t.tz

/-- `timepoint_render` of the decoder. -/
def m7TimepointDecode (compat : Bool) (f : Facets) : BitRd (List UInt8) := do
  let fl := m7Flag compat f
  let shift := if compat then 1 else 0
  let first ← rflag (compat && fl "-1")
  let date ← rflag (!compat || fl "1")
  let sign ← rflag (!compat && date)
  let hasMonth ← rflag (date && (!compat || fl "1-01"))
  let hasDay ← rflag (hasMonth && (!compat || fl "1-01-01"))
  let time ← rflag (fl "T00")
  let hasMin ← rflag (time && fl "T00:00")
  let hasSec ← rflag (hasMin && fl "T00:00:00")
  let hasN ← rflag (hasSec && fl "T00:00:00:1")
  let hasFf ← rflag (hasN && fl "T00:00:00:1.00")
  let hasFrac ← rflag (fl "F1")
  let hasTz ← rflag (fl "+01:00")
  let year ← optRd date getV5
  let month ← optRd hasMonth (getBits 4)
  let day ← optRd hasDay (getBits 5)
  let hour ← optRd time (getBits 5)
  let min ← optRd hasMin (getBits 6)
  let sec ← optRd hasSec (getBits 6)
  let frac ← optRd hasFrac getV5
  require (!hasN || frac.getD 0 ≠ 0)
  let n ← optRd hasN (getBits (bimWidth (frac.getD 0)))
  let ff ← optRd hasFf (getBits 7)
  let tz ← optRd hasTz do
    let h ← getBits 5
    let m ← getBits 2
    pure ((h : Int) - 15, m * 15)
  return m7TimepointRender {
    neg := first || sign, year, month := month.map (· + shift), day := day.map (· + shift)
    hour, min, sec, n, ff, frac, tz }

/-! ## MPEG-7 durations -/

/-- `m7_duration_t`; `t`: the time part is present, `h`, `m`, `s`, `n` are its units. -/
structure M7Duration where
  neg : Bool
  d : Option Nat
  t : Bool
  h : Option Nat
  m : Option Nat
  s : Option Nat
  n : Option Nat
  ff : Option Nat
  frac : Option Nat
  tz : Option (Int × Nat)

/-- A number with its unit `c`; without it nothing is taken. -/
def takeUnit (c : UInt8) (s : List UInt8) : Option Nat × List UInt8 := match takeNum s with
  | none => (none, s)
  | some (v, q) => if charAt q 0 = c then (some v, q.drop 1) else (none, s)

/-- The days of `m7_duration_parse`: digits that overflow are refused. -/
def takeDays (s : List UInt8) : Option (Option Nat × List UInt8) :=
  if !isDigit (charAt s 0) then some (none, s)
  else (takeNum s).map fun _ => takeUnit 68 s

/-- The time part of `m7_duration_parse` behind its `T`. -/
def takeUnits (s : List UInt8) :
    Option ((Option Nat × Option Nat × Option Nat × Option Nat × Option Nat) × List UInt8) := do
  let (h, s) := takeUnit 72 s
  let (m, s) := takeUnit 77 s
  let (sec, s) := takeUnit 83 s
  let (n, s) := takeUnit 78 s
  if s.length ≥ 3 ∧ charAt s 2 = 102 then
    let (ff, q) ← take2 s
    return ((h, m, sec, n, some ff), q.drop 1)
  else return ((h, m, sec, n, none), s)

/-- A zone with a `Z` behind it at the end of a text, and the text before it. -/
def splitTzZ (s : List UInt8) : Option (Int × Nat) × List UInt8 :=
  if s.length ≥ 7 ∧ s.getLast? = some 90 ∧ (splitTz (s.take (s.length - 1))).1.isSome then splitTz (s.take (s.length - 1))
  else (none, s)

/-- The units behind a `T`. -/
def optUnits (s : List UInt8) :
    Option (Bool × (Option Nat × Option Nat × Option Nat × Option Nat × Option Nat) × List UInt8) :=
  if charAt s 0 = 84 then (takeUnits (s.drop 1)).map fun (units, s) => (true, units, s)
  else some (false, (none, none, none, none, none), s)

/-- The fraction at the end. -/
def takeFrac (s : List UInt8) : Option (Option Nat) :=
  if s = [] then some none
  else match takeNum s with
    | some (frac, [70]) => some (some frac)
    | _ => none

def m7DurationParse (s : List UInt8) : Option M7Duration := do
  let (tz, s) := splitTzZ s
  let neg := charAt s 0 = 45
  let s ← scanChars [80] (if neg then s.drop 1 else s)
  let (d, s) ← takeDays s
  let (t, (h, m, sec, n, ff), s) ← optUnits s
  let frac ← takeFrac s
  return { neg, d, t, h, m, s := sec, n, ff, frac, tz }

/-- A number with its unit. -/
def unitText (c : UInt8) : Option Nat → List UInt8 := optText fun v => decimal v ++ [c]

def m7DurationRender (x : M7Duration) : List UInt8 :=
  (if x.neg then [45, 80] else [80]) ++ unitText 68 x.d ++ (if x.t then [84] else []) ++
  unitText 72 x.h ++ unitText 77 x.m ++ unitText 83 x.s ++ unitText 78 x.n ++
  optText (fun f => padded 2 f ++ [102]) x.ff ++ unitText 70 x.frac ++ optText (fun z => tzText z ++ [90]) x.tz

/-- A unit is bounded, and coded in a field of its own, only behind the next larger one. -/
def unitOk (larger : Option Nat) (hi : Nat) (v : Option Nat) : Bool := larger.isNone || inRange 0 hi v

/-- The code of a unit: a field of `w` bits behind the next larger unit, else vluimsbf5. -/
def unitBits (larger : Option Nat) (w : Nat) : Option Nat → List Bool :=
  optBits fun v => if larger.isSome then ofNat w v else vluimsbf5Bits v

def m7DurationEncode (compat : Bool) (f : Facets) (v : List UInt8) : Option (List Bool) := do
  let fl := m7Flag compat f
  let x ← m7DurationParse v
  let w := bimWidth (x.frac.getD 0)
  if !(unitOk x.d 23 x.h && unitOk x.h 59 x.m && unitOk x.m 59 x.s && inRange 0 99 x.ff &&
      tzOk x.tz (-31) 32) then none
  else if x.n.isSome && x.s.isSome && (x.frac.getD 0 = 0 || (w < 64 && x.n.getD 0 ≥ 2 ^ w)) then none
  else
    let neg ← wflag (fl "-P") x.neg
    let d ← wflag (fl "P1D") x.d.isSome
    let t ← wflag (fl "PT") x.t
    let h ← wflagIn x.t (fl "PT1H") x.h.isSome
    let m ← wflagIn x.t (fl "PT1M") x.m.isSome
    let s ← wflagIn x.t (fl "PT1S") x.s.isSome
    let n ← wflagIn x.t (fl "PT1N") x.n.isSome
    let ff ← wflagIn x.t (fl "PT01f") x.ff.isSome
    let frac ← wflag (fl "P1F") x.frac.isSome
    let tz ← wflag (fl "P+01:00Z") x.tz.isSome
    return neg ++ d ++ t ++ h ++ m ++ s ++ n ++ ff ++ frac ++ tz ++
      optBits vluimsbf5Bits x.d ++ unitBits x.d 5 x.h ++ unitBits x.h 6 x.m ++ unitBits x.m 6 x.s ++
      optBits vluimsbf5Bits x.frac ++ unitBits x.s w x.n ++ optBits (ofNat 7) x.ff ++
      optBits (fun z => ofNat 6 (z.1 + 31).toNat ++ ofNat 2 (z.2 / 15)) x.tz

/-- A unit as `unitBits` codes it. -/
def rdUnit (present : Bool) (larger : Option Nat) (w : Nat) : BitRd (Option Nat) :=
  optRd present (if larger.isSome then getBits w else getV5)

/-- `duration_render` of the decoder. -/
def m7DurationDecode (compat : Bool) (f : Facets) : BitRd (List UInt8) := do
  let fl := m7Flag compat f
  let neg ← rflag (fl "-P")
  let hasD ← rflag (fl "P1D")
  let t ← rflag (fl "PT")
  let hasH ← rflag (t && fl "PT1H")
  let hasM ← rflag (t && fl "PT1M")
  let hasS ← rflag (t && fl "PT1S")
  let hasN ← rflag (t && fl "PT1N")
  let hasFf ← rflag (t && fl "PT01f")
  let hasFrac ← rflag (fl "P1F")
  let hasTz ← rflag (fl "P+01:00Z")
  let d ← optRd hasD getV5
  let h ← rdUnit hasH d 5
  let m ← rdUnit hasM h 6
  let s ← rdUnit hasS m 6
  let frac ← optRd hasFrac getV5
  require (!(hasN && s.isSome) || frac.getD 0 ≠ 0)
  let n ← rdUnit hasN s (bimWidth (frac.getD 0))
  let ff ← optRd hasFf (getBits 7)
  let tz ← optRd hasTz do
    let h ← getBits 6
    let m ← getBits 2
    pure ((h : Int) - 31, m * 15)
  return m7DurationRender { neg, d, t, h, m, s, n, ff, frac, tz }

/-! ## The decoders only take -/

variable {v : Nat}

theorem length_of_getBits {n : Nat} {s s' : List Bool} (h : getBits n s = some (v, s')) : s'.length + n = s.length :=
  (Stream.of_get_eq_some h).2.symm

theorem shrinks_getBits (n : Nat) : Shrinks (getBits n) := fun s a s' h => by
  have hlen := length_of_getBits h
  omega

theorem shrinks_require (b : Bool) : Shrinks (require b) := by
  cases b with
  | false => exact shrinks_failure
  | true => exact shrinks_pure ()

theorem shrinks_getFlag : Shrinks getFlag := (shrinks_getBits 1).bind fun _ => shrinks_pure _

/-! ## Reading what was written -/

theorem reads_getBits {n : Nat} (h : v < 2 ^ n) : Reads (getBits n) (ofNat n v) v := by
  intro rest
  rw [getBits, Stream.get_ofNat, Nat.mod_eq_of_lt h]

variable {b : Bool}

theorem reads_require (h : b = true) : Reads (require b) [] () := by
  rw [h]
  exact reads_pure ()

theorem require_none {α : Type} (h : b = false) (f : Unit → BitRd α) (s : List Bool) : (require b >>= f) s = none := by
  rw [h]
  rfl

theorem require_bind {α : Type} (h : b = true) (f : Unit → BitRd α) (s : List Bool) : (require b >>= f) s = f () s := by
  rw [h]
  rfl

theorem reads_getV5 (h : v < 2 ^ 64) : Reads getV5 (vluimsbf5Bits v) v :=
  fun rest => Stream.getVluimsbf5_bits h rest

theorem reads_getFlag (b : Bool) : Reads getFlag [b] b := by
  intro rest
  cases b <;> rfl

end DvbIpiTools.Bim.Codec
