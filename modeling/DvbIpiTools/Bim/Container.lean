import DvbIpiTools.Helper.BeUtil

set_option autoImplicit false

/-! # Containers (`container.c`)

A container is a directory of structures, each with the offset and the length of its body, and the bodies
behind it. Allocation succeeds. -/

namespace DvbIpiTools.Bim.Container

open BeUtil List Nat

def structEntryLen : Nat := 8

def uint24Max : Nat := 0xFFFFFF

def encapHeaderLen : Nat := 2

/-- `BIM_FRAGREF_BIM`, `BIM_FRAGREF_DVB_BIM`. -/
def fragrefBim : Nat := 0x00

def fragrefDvbBim : Nat := 0xE1

/-- `bim_struct_t`. -/
structure Struct where
  type : UInt8
  id : UInt8
  body : List UInt8

/-- `bim_fragref_t`. -/
structure FragRef where
  auOff : Nat
  strOff : Nat
  fragId : Nat
  version : UInt8
deriving DecidableEq

/-! ## Build -/

def putStruct (s : Struct) (ptr : Nat) : List UInt8 := s.type :: s.id :: (bePut 3 ptr ++ bePut 3 s.body.length)

/-- The entries that the loop of `bim_container_build_structs` writes, the next body at `off`. -/
def directory : Nat → List Struct → List UInt8
  | _, [] => []
  | off, s :: st => putStruct s off ++ directory (off + s.body.length) st

def bodies (st : List Struct) : List UInt8 := st.flatMap Struct.body

/-- `bim_container_build_structs`. -/
def buildStructs (st : List Struct) : Option (List UInt8) :=
  let off := 1 + st.length * structEntryLen
  if st.length < 1 ∨ st.length > 0xFF then none
  else if ∃ s ∈ st, s.body.length > uint24Max then none
  else if off + (bodies st).length > uint24Max then none
  else some (UInt8.ofNat st.length :: (directory off st ++ bodies st))

def entryLen (format : Nat) : Nat := if format = fragrefDvbBim then 8 else 6

/-- An entry of the Encapsulation structure. -/
def putRef (format : Nat) (r : FragRef) : List UInt8 :=
  bePut 2 r.auOff ++ ((if format = fragrefDvbBim then bePut 2 r.strOff else []) ++ ([r.version] ++ bePut 3 r.fragId))

/-- The Encapsulation structure. -/
def encapsulation (format : Nat) (refs : List FragRef) : List UInt8 :=
  [0xFF, UInt8.ofNat format] ++ refs.flatMap (putRef format)

/-- `bim_container_build`. -/
def build (format : Nat) (accessUnit : List UInt8) (stringRepo : Option (List UInt8)) (refs : List FragRef) :
    Option (List UInt8) :=
  if format ≠ fragrefBim ∧ format ≠ fragrefDvbBim then none
  else if ∃ r ∈ refs, r.auOff > 0xFFFF ∨ format = fragrefDvbBim ∧ r.strOff > 0xFFFF then none
  else if encapHeaderLen + refs.length * entryLen format > uint24Max then none
  else buildStructs ((if refs = [] then [] else [⟨0x01, 0xFF, encapsulation format refs⟩]) ++
    (stringRepo.toList.map (Struct.mk 0x02 0x00) ++ [⟨0x02, 0x01, accessUnit⟩]))

/-! ## Find -/

/-- What `bim_container_find` tells: 0 with a range, 1, -1. -/
inductive Find where
  | found (ptr length : Nat)
  | absent
  | malformed

/-- The loop of `bim_container_find`: `n` entries from `p` on. -/
def findLoop (buf : List UInt8) (type id : Nat) : Nat → Nat → Find → Find
  | 0, _, found => found
  | n + 1, p, found =>
    let ptr := beGet buf (p + 2) 3
    let length := beGet buf (p + 5) 3
    if ptr > buf.length ∨ length > buf.length - ptr then .malformed
    else findLoop buf type id n (p + structEntryLen)
      (if byteAt buf p = type ∧ byteAt buf (p + 1) = id then .found ptr length else found)

/-- `bim_container_find`. -/
def find (buf : List UInt8) (type id : Nat) : Find :=
  if buf.length < 1 then .malformed
  else if buf.length < 1 + byteAt buf 0 * structEntryLen then .malformed
  else findLoop buf type id (byteAt buf 0) 1 .absent

/-- The entry of a reference at the front of `e`. -/
def readRef (format : Nat) (e : List UInt8) : FragRef :=
  let q := if format = fragrefDvbBim then 4 else 2
  { auOff := beGet e 0 2
    strOff := if format = fragrefDvbBim then beGet e 2 2 else 0
    version := e.getD q 0
    fragId := beGet e (q + 1) 3 }

/-- The loop of `bim_container_parse_refs`. -/
def readRefs (format : Nat) : Nat → List UInt8 → List FragRef
  | 0, _ => []
  | n + 1, e => readRef format e :: readRefs format n (e.drop (entryLen format))

/-- `bim_container_parse_refs`: format and references; none: -1. -/
def parseRefs (buf : List UInt8) : Option (Nat × List FragRef) :=
  match find buf 0x01 0xFF with
  | .malformed => none
  | .absent => some (0, [])
  | .found ptr length =>
    let enc := (buf.drop ptr).take length
    if length < encapHeaderLen then none
    else if byteAt enc 1 ≠ fragrefBim ∧ byteAt enc 1 ≠ fragrefDvbBim then some (byteAt enc 1, [])
    else if (length - encapHeaderLen) % entryLen (byteAt enc 1) ≠ 0 then none
    else some (byteAt enc 1,
      readRefs (byteAt enc 1) ((length - encapHeaderLen) / entryLen (byteAt enc 1)) (enc.drop encapHeaderLen))

/-! ## Structures come back -/

/-- What the loop finds in the directory of `st`, the bodies from `off` on. -/
def located (type id : Nat) : Nat → List Struct → Find → Find
  | _, [], found => found
  | off, s :: st, found => located type id (off + s.body.length) st
      (if s.type.toNat = type ∧ s.id.toNat = id then .found off s.body.length else found)

theorem length_directory (off : Nat) (st : List Struct) : (directory off st).length = st.length * structEntryLen := by
  induction st generalizing off with
  | nil => rfl
  | cons s st ih =>
    rw [directory, length_append, ih, putStruct, length_cons, length_cons, length_append, length_bePut, length_bePut,
      length_cons, structEntryLen]
    omega

variable {type id : Nat}

theorem bodies_cons (s : Struct) (st : List Struct) : bodies (s :: st) = s.body ++ bodies st := flatMap_cons

theorem findLoop_directory (st : List Struct) (a rest : List UInt8) {off : Nat} (found : Find)
    (hfit : off + (bodies st).length ≤ uint24Max)
    (hin : off + (bodies st).length ≤ (a ++ (directory off st ++ rest)).length) :
    findLoop (a ++ (directory off st ++ rest)) type id st.length a.length found = located type id off st found := by
  induction st generalizing a off found with
  | nil => rfl
  | cons s st ih =>
    obtain ⟨buf, hbuf⟩ : ∃ buf, a ++ (directory off (s :: st) ++ rest) = buf := ⟨_, rfl⟩
    rw [bodies_cons, length_append, hbuf] at hin
    rw [bodies_cons, length_append] at hfit
    unfold uint24Max at hfit
    have hentry : buf = a ++ s.type :: s.id :: (bePut 3 off ++ (bePut 3 s.body.length ++
        (directory (off + s.body.length) st ++ rest))) := by
      rw [← hbuf, directory, putStruct]
      simp only [append_assoc, cons_append]
    have hptr : beGet buf (a.length + 2) 3 = off := by
      have h := beGet_field (a ++ [s.type, s.id]) (bePut 3 s.body.length ++ (directory (off + s.body.length) st ++ rest)) 3 off
      rw [mod_eq_of_lt (by norm_num; omega), length_append] at h
      simpa [hentry] using h
    have hlen : beGet buf (a.length + 5) 3 = s.body.length := by
      have h := beGet_field (a ++ s.type :: s.id :: bePut 3 off) (directory (off + s.body.length) st ++ rest) 3 s.body.length
      rw [mod_eq_of_lt (by norm_num; omega), length_append, length_cons, length_cons, length_bePut] at h
      simpa [hentry] using h
    have htype : byteAt buf a.length = s.type.toNat := by rw [hentry, byteAt, getD_append_right _ _ _ _ le_rfl]; simp
    have hid : byteAt buf (a.length + 1) = s.id.toNat := by
      rw [hentry, byteAt, getD_append_right _ _ _ _ (le_succ _)]
      simp
    have hnext := @ih (a ++ putStruct s off) (off + s.body.length)
      (if s.type.toNat = type ∧ s.id.toNat = id then .found off s.body.length else found) (by unfold uint24Max; omega)
    have hsame : a ++ putStruct s off ++ (directory (off + s.body.length) st ++ rest) = buf := by
      rw [← hbuf, directory]
      simp only [append_assoc]
    have hpos : (a ++ putStruct s off).length = a.length + structEntryLen := by
      rw [length_append, putStruct, length_cons, length_cons, length_append, length_bePut, length_bePut, structEntryLen]
    rw [hsame, hpos] at hnext
    rw [hbuf, length_cons, findLoop]
    simp only [hptr, hlen, htype, hid]
    rw [if_neg (by omega)]
    exact hnext (by omega)

theorem located_append (off : Nat) (st1 st2 : List Struct) (found : Find) : located type id off (st1 ++ st2) found =
      located type id (off + (bodies st1).length) st2 (located type id off st1 found) := by
  induction st1 generalizing off found with
  | nil => rfl
  | cons s st1 ih => rw [cons_append, located, ih, located, bodies_cons, length_append, add_assoc]

theorem located_of_not_mem {st : List Struct} (h : ∀ s ∈ st, ¬(s.type.toNat = type ∧ s.id.toNat = id)) (off : Nat)
    (found : Find) : located type id off st found = found := by
  induction st generalizing off with
  | nil => rfl
  | cons s st ih =>
    rw [located, if_neg (h s mem_cons_self)]
    exact ih (fun x hx => h x (mem_cons_of_mem s hx)) _

theorem find_buildStructs {st : List Struct} {buf : List UInt8} (h : buildStructs st = some buf) :
    find buf type id = located type id (1 + st.length * structEntryLen) st .absent ∧
      buf.drop (1 + st.length * structEntryLen) = bodies st := by
  unfold buildStructs at h
  dsimp only at h
  split at h
  · nomatch h
  rename_i hn
  split at h
  · nomatch h
  split at h
  · nomatch h
  rename_i hfit
  cases h
  have hcount : byteAt (UInt8.ofNat st.length :: (directory (1 + st.length * structEntryLen) st ++ bodies st)) 0 =
      st.length := by
    show (UInt8.ofNat st.length).toNat = _
    rw [UInt8.toNat_ofNat', mod_eq_of_lt (by omega)]
  have hlen : (UInt8.ofNat st.length :: (directory (1 + st.length * structEntryLen) st ++ bodies st)).length =
      1 + st.length * structEntryLen + (bodies st).length := by
    rw [length_cons, length_append, length_directory]
    omega
  refine ⟨?_, ?_⟩
  · rw [find, if_neg (by omega), hcount, if_neg (by omega)]
    exact findLoop_directory st [UInt8.ofNat st.length] (bodies st) .absent (not_lt.1 hfit) (le_of_eq hlen.symm)
  · obtain ⟨dir, hdir⟩ : ∃ dir, directory (1 + st.length * structEntryLen) st = dir := ⟨_, rfl⟩
    rw [hdir, add_comm, drop_succ_cons, ← length_directory, hdir, drop_left]

theorem find_body {st1 st2 : List Struct} {s : Struct} {buf : List UInt8}
    (h : buildStructs (st1 ++ s :: st2) = some buf)
    (hlast : ∀ x ∈ st2, ¬(x.type.toNat = s.type.toNat ∧ x.id.toNat = s.id.toNat)) :
    ∃ ptr, find buf s.type.toNat s.id.toNat = .found ptr s.body.length ∧ (buf.drop ptr).take s.body.length = s.body := by
  obtain ⟨hfind, hdrop⟩ := @find_buildStructs s.type.toNat s.id.toNat _ _ h
  rw [located_append, located, if_pos ⟨rfl, rfl⟩, located_of_not_mem hlast] at hfind
  refine ⟨_, hfind, ?_⟩
  rw [← drop_drop, hdrop, bodies, bodies, flatMap_append, drop_left, flatMap_cons, take_left]

theorem findLoop_found {buf : List UInt8} {ptr length : Nat} : ∀ (n p : Nat) (found : Find),
    (found = .found ptr length → ptr + length ≤ buf.length) → findLoop buf type id n p found = .found ptr length →
      ptr + length ≤ buf.length
  | 0, _, _, hin, h => hin h
  | n + 1, p, found, hin, h => by
    unfold findLoop at h
    dsimp only at h
    split at h
    · nomatch h
    · refine findLoop_found n _ _ (fun hfound => ?_) h
      split at hfound
      · obtain ⟨rfl, rfl⟩ := Find.found.inj hfound
        omega
      · exact hin hfound

/-! ## References come back -/

variable {format : Nat}

/-- What a container of a format keeps of a reference. -/
def FragRef.carried (format : Nat) (r : FragRef) : FragRef :=
  if format = fragrefDvbBim then r else { r with strOff := 0 }

theorem length_putRef (r : FragRef) : (putRef format r).length = entryLen format := by
  unfold putRef entryLen
  split <;> simp

theorem readRef_putRef {r : FragRef} (hau : r.auOff ≤ 0xFFFF) (hstr : format = fragrefDvbBim → r.strOff ≤ 0xFFFF)
    (hid : r.fragId < 2 ^ 24) (rest : List UInt8) : readRef format (putRef format r ++ rest) = r.carried format := by
  have hput (n v : Nat) (a t : List UInt8) (h : v < 256 ^ n) : beGet (a ++ (bePut n v ++ t)) a.length n = v := by
    rw [beGet_field, mod_eq_of_lt h]
  have hau' (t : List UInt8) := hput 2 r.auOff [] t (lt_succ_of_le hau)
  unfold readRef putRef FragRef.carried
  by_cases hf : format = fragrefDvbBim
  · have hs := hput 2 r.strOff (bePut 2 r.auOff) (r.version :: (bePut 3 r.fragId ++ rest)) (lt_succ_of_le (hstr hf))
    have hi := hput 3 r.fragId (bePut 2 r.auOff ++ (bePut 2 r.strOff ++ [r.version])) rest hid
    simp only [if_pos hf]
    exact (FragRef.mk.injEq ..).mpr ⟨hau' _, hs, hi, rfl⟩
  · have hi := hput 3 r.fragId (bePut 2 r.auOff ++ [r.version]) rest hid
    simp only [if_neg hf]
    exact (FragRef.mk.injEq ..).mpr ⟨hau' _, rfl, hi, rfl⟩

theorem readRefs_flatMap {refs : List FragRef} (hau : ∀ r ∈ refs, r.auOff ≤ 0xFFFF)
    (hstr : format = fragrefDvbBim → ∀ r ∈ refs, r.strOff ≤ 0xFFFF) (hid : ∀ r ∈ refs, r.fragId < 2 ^ 24) :
    readRefs format refs.length (refs.flatMap (putRef format)) = refs.map (FragRef.carried format) := by
  induction refs with
  | nil => rfl
  | cons r refs ih =>
    rw [forall_mem_cons] at hau hid
    have hrest := ih hau.2 (fun hf x hx => hstr hf x (mem_cons_of_mem r hx)) hid.2
    rw [length_cons, flatMap_cons, readRefs, readRef_putRef hau.1 (fun hf => hstr hf r mem_cons_self) hid.1,
      ← @length_putRef format r, drop_left, hrest, map_cons]

theorem parseRefs_build {au buf : List UInt8} {sr : Option (List UInt8)} {refs : List FragRef}
    (hid : ∀ r ∈ refs, r.fragId < 2 ^ 24) (h : build format au sr refs = some buf) :
    parseRefs buf = some (if refs = [] then 0 else format, refs.map (FragRef.carried format)) := by
  unfold build at h
  split at h
  · nomatch h
  rename_i hformat
  split at h
  · nomatch h
  rename_i hptr
  split at h
  · nomatch h
  have hother : ∀ s ∈ sr.toList.map (Struct.mk 0x02 0x00) ++ [⟨0x02, 0x01, au⟩],
      ¬(s.type.toNat = 0x01 ∧ s.id.toNat = 0xFF) := by
    cases sr <;> simp
  have hf : format = fragrefBim ∨ format = fragrefDvbBim := Decidable.by_contra fun hno => hformat (not_or.1 hno)
  split at h
  · rename_i hnil
    rw [parseRefs, (find_buildStructs h).1, nil_append, located_of_not_mem hother, if_pos hnil, hnil]
    rfl
  rename_i hne
  obtain ⟨ptr, hfind, hbody⟩ := @find_body [] _ _ _ h hother
  have hlen : (encapsulation format refs).length = encapHeaderLen + refs.length * entryLen format := by
    rw [encapsulation, length_append, length_flatMap, map_congr_left fun r _ => length_putRef r, map_const', sum_replicate_nat]
    rfl
  have hbyte : byteAt (encapsulation format refs) 1 = format := by obtain rfl | rfl := hf <;> rfl
  have hel : 0 < entryLen format := by unfold entryLen; split <;> decide
  rw [hlen] at hbody
  rw [parseRefs, show find buf 0x01 0xFF = _ from hfind, if_neg hne]
  simp only [hlen, hbody, hbyte, Nat.add_sub_cancel_left, Nat.mul_mod_left, Nat.mul_div_cancel _ hel]
  rw [if_neg (by omega), if_neg hformat, if_neg (by omega)]
  refine congrArg (fun x => some (format, x)) (readRefs_flatMap (fun r hr => ?_) (fun hdvb r hr => ?_) hid) <;>
    by_contra hbig
  · exact hptr ⟨r, hr, .inl (not_le.1 hbig)⟩
  · exact hptr ⟨r, hr, .inr ⟨hdvb, not_le.1 hbig⟩⟩

theorem buildStructs_none {st : List Struct} (hpos : 1 ≤ st.length) (hmax : st.length ≤ 255) :
    buildStructs st = none ↔ uint24Max < 1 + st.length * structEntryLen + (bodies st).length := by
  unfold buildStructs
  rw [if_neg (by omega)]
  split
  · rename_i hbig
    obtain ⟨s, hs, hlen⟩ := hbig
    obtain ⟨a, b, rfl⟩ := append_of_mem hs
    simp only [bodies, flatMap_append, flatMap_cons, length_append] at hlen ⊢
    exact iff_of_true trivial (by omega)
  · split <;> simp <;> omega

/-- Structures of different keys come back with their bodies and no others do; references come back, without the
string pointer in a format that has none; and no range that is found leaves the buffer. -/
theorem container_round_trip :
    (∀ st : List Struct, 1 ≤ st.length → st.length ≤ 255 → (st.map fun s => (s.type, s.id)).Nodup →
      (buildStructs st = none ↔ uint24Max < 1 + st.length * structEntryLen + (bodies st).length) ∧
      ∀ buf, buildStructs st = some buf →
        (∀ s ∈ st, ∃ ptr, find buf s.type.toNat s.id.toNat = .found ptr s.body.length ∧
          (buf.drop ptr).take s.body.length = s.body) ∧
        ∀ type id, (∀ s ∈ st, ¬(s.type.toNat = type ∧ s.id.toNat = id)) → find buf type id = .absent) ∧
    (∀ format au sr refs buf, (∀ r ∈ refs, r.fragId < 2 ^ 24) → build format au sr refs = some buf →
      parseRefs buf = some (if refs = [] then 0 else format, refs.map (FragRef.carried format))) ∧
    ∀ buf type id ptr length, find buf type id = .found ptr length → ptr + length ≤ buf.length := by
  refine ⟨fun st hpos hmax hnodup => ⟨buildStructs_none hpos hmax, fun buf h => ⟨fun s hs => ?_, fun type id hno => ?_⟩⟩,
    fun format au sr refs buf hid h => parseRefs_build hid h, fun buf type id ptr length h => ?_⟩
  · obtain ⟨st1, st2, rfl⟩ := append_of_mem hs
    refine find_body h fun x hx hkey => ?_
    rw [map_append, map_cons, nodup_append, nodup_cons] at hnodup
    exact hnodup.2.1.1 (mem_map.2 ⟨x, hx, Prod.ext (UInt8.toNat_inj.1 hkey.1) (UInt8.toNat_inj.1 hkey.2)⟩)
  · rw [(find_buildStructs h).1, located_of_not_mem hno]
  · unfold find at h
    split at h
    · nomatch h
    · split at h
      · nomatch h
      · exact findLoop_found _ _ .absent nofun h

/-- A container of the BiM format has no room for a string pointer. -/
theorem container_loses_string_pointer : ∃ buf, build fragrefBim [] none [⟨0, 5, 0, 0⟩] = some buf ∧
    parseRefs buf = some (fragrefBim, [⟨0, 0, 0, 0⟩]) :=
  ⟨_, rfl, by decide +kernel⟩

end DvbIpiTools.Bim.Container
