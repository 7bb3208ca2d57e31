import DvbIpiTools.Bim.StrRepo
import DvbIpiTools.Bim.Codec.Times

set_option autoImplicit false

/-! # Decoders of the DVB types (`dvbtypes.c`)

Locators and controlled terms: their strings come from the repository of the fragment, and locators share a state with the dates. -/

namespace DvbIpiTools.Bim.Codec

open BitList Coder DateUtil

/-! ## Locators -/

/-- The identifiers that a locator starts with, new ones or those of the one before. -/
def locatorIds (st : DvbState) (fresh : Bool) : BitRd DvbState :=
  if fresh then do
    let tsid ← getBits 16
    let onid ← getBits 16
    let sid ← getBits 16
    return { st with havePrefix := true, tsid, onid, sid }
  else do
    require st.havePrefix
    return st

/-- `dvb://`, the network, the transport stream unless it is 0, the service. -/
def idsText (st : DvbState) : List UInt8 :=
  text "dvb://" ++ hexText st.onid ++ [46] ++ (if st.tsid ≠ 0 then hexText st.tsid else []) ++ [46] ++ hexText st.sid

/-- The rounds of the loop over the component tags, with the separator of the next one. -/
def tagRounds : Nat → UInt8 → BitRd (List UInt8)
  | 0, _ => failure
  | n + 1, sep => do
    let tag ← getBits 8
    let more ← getFlag
    let rest ← if more then tagRounds n 38 else pure []
    return sep :: hexText tag ++ rest

/-- The component tags. Every round takes nine bits, so there are fewer rounds than bits. -/
def tagsText (more : Bool) : BitRd (List UInt8) := fun s =>
  if more then tagRounds (s.length + 1) 46 s else some ([], s)

/-- The number behind the component tags. -/
def cidText (present tagged : Bool) : BitRd (List UInt8) :=
  if present then do
    require tagged
    let cid ← getBits 32
    return 36 :: hexText cid
  else return []

/-- The event or TVA id. -/
def eventText (kind : Nat) : BitRd (List UInt8) :=
  if kind = 0 then return []
  else do
    let id ← getBits 16
    return (if kind = 1 then text ";" else text ";;") ++ hexText id

/-- The day of a time, a new one or that of the one before. -/
def locatorDay (st : DvbState) (fresh : Bool) : BitRd DvbState :=
  if fresh then do
    let day ← getBits 16
    return { st with haveDay := true, day }
  else do
    require st.haveDay
    return st

/-- `~%04d%02d%02dT%02u%02u%02uZ--PT%02uH%02uM%02uS`. -/
def timeText (day tm dur : Nat) : List UInt8 :=
  let (y, mo, d) := mjdToDate (mjd16Full day)
  126 :: paddedInt 4 y ++ paddedInt 2 mo ++ paddedInt 2 d ++ [84] ++ padded 2 (tm / 3600) ++ padded 2 (tm / 60 % 60) ++
    padded 2 (tm % 60) ++ text "Z--PT" ++ padded 2 (dur / 3600) ++ [72] ++ padded 2 (dur / 60 % 60) ++ [77] ++
    padded 2 (dur % 60) ++ [83]

/-- The time. -/
def locatorTime (st : DvbState) (present : Bool) : BitRd (List UInt8 × DvbState) :=
  if present then do
    let fresh ← getFlag
    let st ← locatorDay st fresh
    let tm ← getBits 17
    let dur ← getBits 17
    require (tm < 86400)
    return (timeText st.day tm dur, st)
  else return ([], st)

/-- `locator_decode_optimized` up to its path. -/
def locatorHead (st : DvbState) : BitRd (List UInt8 × DvbState) := do
  let fresh ← getFlag
  let st ← locatorIds st fresh
  let more ← getFlag
  let tags ← tagsText more
  let present ← getFlag
  let cid ← cidText present (tags ≠ [])
  let kind ← getBits 2
  require (kind ≠ 3)
  let event ← eventText kind
  let timed ← getFlag
  let (time, st') ← locatorTime st timed
  return (idsText st ++ tags ++ cid ++ event ++ time, st')

/-- The path, a string of the repository. -/
def pathText (present : Bool) : SrcRd (List UInt8) :=
  if present then do
    let s ← dvbString
    return 47 :: s.val
  else return []

def locatorDecodeOptimized (st : DvbState) : SrcRd (List UInt8 × DvbState) := do
  let (head, st) ← ofBits (locatorHead st)
  let present ← ofBits getFlag
  let path ← pathText present
  return (head ++ path, st)

/-- `dvb_locator_decode_buf`. -/
def locatorDecode (st : DvbState) : SrcRd (List UInt8 × DvbState) := do
  let optimized ← ofBits getFlag
  if optimized then locatorDecodeOptimized st
  else
    let s ← dvbString
    return (s.val, st)

/-! ## Durations -/

/-- `BIM_DURATION` of `dec_plain`. -/
def durationDecode : SrcRd (List UInt8) := do
  let compact ← ofBits getFlag
  if compact then
    let v ← ofBits (getBits 11)
    return text "PT" ++ decimal (v / 60) ++ [72] ++ decimal (v % 60) ++ [77]
  else
    let s ← dvbString
    return s.val

/-! ## Controlled terms -/

/-- `dvb_cs_t`: `rank` is the number of a term in a scheme, `term` the term of a number, at most as long as the given buffer. -/
structure DvbCs where
  rank : Option (CStr → CStr → Option Nat) := none
  term : Option (CStr → Nat → Nat → Option CStr) := none
  list : List (Option CStr) := []
  compact : Bool := false

/-- The schemes of a table; at index 0 there is none. -/
def csTable (uris : List String) : List (Option CStr) := none :: uris.map fun s => some (CStr.ofBytes (text s))

def csId : List (Option CStr) := csTable [
  "urn:tva:metadata:cs:ActionTypeCS:2004", "urn:tva:metadata:cs:AtmosphereCS:2004",
  "urn:tva:metadata:cs:ContentAlertCS:2004", "urn:tva:metadata:cs:ContentCommercialCS:2004",
  "urn:tva:metadata:cs:ContentCS:2004", "urn:tva:metadata:cs:FormatCS:2004", "urn:tva:metadata:cs:HowRelatedCS:2004",
  "urn:tva:metadata:cs:IntendedAudienceCS:2004", "urn:tva:metadata:cs:IntentionCS:2004",
  "urn:tva:metadata:cs:LanguageCS:2004", "urn:tva:metadata:cs:MediaTypeCS:2004",
  "urn:tva:metadata:cs:OriginationCS:2004", "urn:mpeg:mpeg7:cs:RoleCS:2001", "urn:tva:metadata:cs:TVARoleCS:2004",
  "urn:tva:metadata:cs:AudioPurposeCS:2004", "urn:tva:metadata:cs:PurchaseTypeCS:2004",
  "urn:tva:metadata:cs:UnitTypeCS:2004"]

def csG2 : List (Option CStr) := csTable [
  "urn:tva:metadata:cs:AtmosphereCS:2005", "urn:tva:metadata:cs:ContentAlertCS:2005",
  "urn:tva:metadata:cs:ContentCommercialCS:2005", "urn:tva:metadata:cs:ContentCS:2005",
  "urn:tva:metadata:cs:FormatCS:2005", "urn:tva:metadata:cs:HowRelatedCS:2005",
  "urn:tva:metadata:cs:IntendedAudienceCS:2005", "urn:tva:metadata:cs:IntentionCS:2005",
  "urn:tva:metadata:cs:MediaType:2005", "urn:tva:metadata:cs:OriginationCS:2005", "urn:tva:metadata:cs:TVARoleCS:2005"]

def csG3 : List (Option CStr) := csTable [
  "urn:dvb:ipdc:esg:cs:ServiceTypeCS:2005", "urn:dvb:ipdc:esg:cs:ZappingSupportCS:2005"]

def csG4 : List (Option CStr) := csTable [
  "urn:dvb:metadata:cs:AudioCodecCS:2007", "urn:dvb:metadata:cs:VideoCodecCS:2007"]

def csG5 : List (Option CStr) := csTable [
  "urn:tva:metadata:cs:AudioPurposeCS:2007", "urn:tva:metadata:cs:CaptionCodingFormatCS:2007",
  "urn:tva:metadata:cs:ContentCS:2007", "urn:tva:metadata:cs:DerivationReasonTypeCS:2007",
  "urn:tva:metadata:cs:FormatCS:2007", "urn:tva:metadata:cs:HowRelatedCS:2007", "urn:tva:metadata:cs:UnitTypeCS:2007"]

def csUri (cs : Option DvbCs) (group idx : Nat) : Option CStr :=
  let table := match group with
    | 0 => (cs.map DvbCs.list).getD []
    | 2 => csG2
    | 3 => csG3
    | 4 => csG4
    | 5 => csG5
    | _ => []
  table[idx]?.join

/-- A scheme's group and index. -/
def csCode (grouping : Bool) : BitRd (Nat × Nat) :=
  if grouping then do
    let group ← getV5
    let csid ← getV8
    return (group, csid)
  else do
    let csid ← getBits 7
    return (0, csid)

/-- The text of a coded term: the scheme with the name that its term has, or all the numbers. -/
def termText (cs : Option DvbCs) (grouping : Bool) (group csid term : Nat) : Option (List UInt8) :=
  let uri := if grouping then csUri cs group csid else csId[csid]?.join
  match uri, cs.bind DvbCs.term with
  | some uri, some name => (name uri term 256).map fun name => uri.val ++ [58] ++ name.val
  | _, _ => some (text "dvbcs:" ++ decimal group ++ [58] ++ decimal csid ++ [58] ++ decimal term)

/-- The compact form of a term. -/
def compactTerm (cs : Option DvbCs) : BitRd (List UInt8) := do
  let grouping ← getFlag
  let (group, csid) ← csCode grouping
  let term ← getV8
  fun s => (termText cs grouping group csid term).map fun t => (t, s)

/-- `dvb_controlledterm_decode_buf`. -/
def controlledTermDecode (cs : Option DvbCs) : SrcRd (List UInt8) := do
  let compact ← ofBits getFlag
  if compact then ofBits (compactTerm cs)
  else
    let s ← dvbString
    return s.val

end DvbIpiTools.Bim.Codec
