import DvbIpiTools.Demux.Crc32
import Mathlib.Data.Vector.Defs

set_option autoImplicit false

/-! # BISS-CA sections (`biss/ca_sections.c`)

What a builder writes its parser reads back. The parsers also pass over descriptors, which no builder writes. A result
that the source points to is its offset in the section here. -/

namespace DvbIpiTools.Cas

open BeUtil Demux Nat
open List hiding Vector

def bissCaEkidLen : Nat := 8
def bissCaSkLen : Nat := 16
def bissCaSwLen : Nat := 16
def bissCaIvLen : Nat := 16
def bissCaRsaBytes : Nat := 256
def bissCaSessionDataLen : Nat := 24

/-- `entry_size`. -/
def emmEntrySize : Nat := bissCaEkidLen + bissCaRsaBytes

/-- A part of a buffer. -/
def slice (p : List UInt8) (off n : Nat) : List UInt8 := (p.drop off).take n

/-- `psi_finish_section`: the length, with its flags, and the CRC. -/
def psiFinishSection (out : List UInt8) (cap : Nat) (flagsNibble : UInt8) : Option (List UInt8) :=
  if cap < out.length + 4 then none
  else
    let seclen := out.length + 4 - 3
    let out := (out.set 1 (flagsNibble ||| UInt8.ofNat (seclen >>> 8 &&& 0x0F))).set 2 (UInt8.ofNat seclen)
    some (out ++ bePut 4 (crc32Mpeg out))

/-- The low bit of an `int`. -/
def lowBit (n : Int) : UInt8 := if n % 2 = 1 then 1 else 0

/-! ## Session data -/

/-- `biss_ca_build_session_data`. -/
def buildSessionData (sk : Vector UInt8 16) (parity : Int) (cap : Nat) : Option (List UInt8) :=
  if cap < bissCaSessionDataLen then none
  else some ([0x00, 0x16, 0x81, 0x11, lowBit parity] ++ sk.toList ++ [0x82, 0x01, 0x00])

/-- `biss_ca_parse_session_data`: the key and its parity. -/
def parseSessionData (p : List UInt8) : Option (List UInt8 × Nat) :=
  if p.length < bissCaSessionDataLen then none
  else if byteAt p 2 ≠ 0x81 ∨ byteAt p 3 ≠ 0x11 then none
  else if byteAt p 4 >>> 1 ≠ 0 then none
  else if byteAt p 21 ≠ 0x82 ∨ byteAt p 22 ≠ 0x01 then none
  else some (slice p 5 bissCaSkLen, byteAt p 4 &&& 1)

/-! ## EMM sections -/

/-- `biss_ca_emm_entry_t`. -/
structure EmmEntry where
  entitlementKeyId : Vector UInt8 8
  encryptedSessionData : Vector UInt8 256

def EmmEntry.bytes (e : EmmEntry) : List UInt8 := e.entitlementKeyId.toList ++ e.encryptedSessionData.toList

/-- What both sections begin with. -/
def bissCaHeader (tableId esid version sectionNumber lastSectionNumber onid : Nat) : List UInt8 :=
  [UInt8.ofNat tableId, 0, 0] ++ bePut 2 esid ++
    [UInt8.ofNat (0xC0 ||| (version &&& 0x1F) <<< 1 ||| 0x01), UInt8.ofNat sectionNumber,
      UInt8.ofNat lastSectionNumber] ++ bePut 2 onid

/-- `biss_ca_build_emm_section`. -/
def buildEmmSection (tableId esid version sectionNumber lastSectionNumber onid lastTableId : Nat)
    (entries : List EmmEntry) (cap : Nat) : Option (List UInt8) :=
  if cap < 14 + entries.length * emmEntrySize + 4 then none
  else
    psiFinishSection (bissCaHeader tableId esid version sectionNumber lastSectionNumber onid ++
      [UInt8.ofNat lastTableId, 0x00, 0x00, 0x00] ++ entries.flatMap EmmEntry.bytes) cap 0xF0

/-- `biss_ca_emm_parsed_t`, with the offset of the entries. -/
structure EmmParsed where
  tableId : Nat
  esid : Nat
  onid : Nat
  entries : Nat
  nEntries : Nat

/-- `biss_ca_parse_emm_section`. -/
def parseEmmSection (sec : List UInt8) : Option EmmParsed :=
  if sec.length < 14 + 4 then none
  else if byteAt sec 0 < 0x81 ∨ 0x8F < byteAt sec 0 then none
  else if crc32Mpeg sec ≠ 0 then none
  else if byteAt sec 11 >>> 5 &&& 0x07 ≠ 0 ∨ byteAt sec 11 >>> 4 &&& 0x01 ≠ 0 then none
  else
    let n := 14 + ((byteAt sec 12 &&& 0x0F) <<< 8 ||| byteAt sec 13)
    if sec.length < n + 4 then none
    else if (sec.length - 4 - n) % emmEntrySize ≠ 0 then none
    else some ⟨byteAt sec 0, beGet sec 3 2, beGet sec 8 2, n, (sec.length - 4 - n) / emmEntrySize⟩

/-- `biss_ca_emm_find_entry`: the offset of the session data of the first entry with the id. -/
def emmFindEntry (sec : List UInt8) (emm : EmmParsed) (ekid : Vector UInt8 8) : Option Nat :=
  ((range emm.nEntries).find? fun i =>
      slice sec (emm.entries + i * emmEntrySize) bissCaEkidLen == ekid.toList).map fun i =>
    emm.entries + i * emmEntrySize + bissCaEkidLen

/-- The entries that a parsed section points to: ids and session data. -/
def EmmParsed.entryList (emm : EmmParsed) (sec : List UInt8) : List (List UInt8 × List UInt8) :=
  (range emm.nEntries).map fun i =>
    (slice sec (emm.entries + i * emmEntrySize) bissCaEkidLen,
      slice sec (emm.entries + i * emmEntrySize + bissCaEkidLen) bissCaRsaBytes)

/-! ## ECM sections -/

/-- `biss_ca_build_ecm_section`. -/
def buildEcmSection (esid version sectionNumber lastSectionNumber onid : Nat) (sessionKeyParity : Int)
    (iv eswEven eswOdd : Vector UInt8 16) (cap : Nat) : Option (List UInt8) :=
  if cap < 12 + 1 + bissCaIvLen + 2 * bissCaSwLen + 4 then none
  else
    psiFinishSection (bissCaHeader 0x80 esid version sectionNumber lastSectionNumber onid ++
      [(0x00 : UInt8), 0x00, lowBit sessionKeyParity <<< 7] ++ iv.toList ++ eswEven.toList ++ eswOdd.toList) cap 0xF0

/-- `biss_ca_ecm_parsed_t`. -/
structure EcmParsed where
  esid : Nat
  onid : Nat
  sessionKeyParity : Nat
  iv : List UInt8
  eswEven : List UInt8
  eswOdd : List UInt8
deriving DecidableEq

/-- `biss_ca_parse_ecm_section`. -/
def parseEcmSection (sec : List UInt8) : Option EcmParsed :=
  if sec.length < 12 + 1 + bissCaIvLen + 2 * bissCaSwLen + 4 then none
  else if byteAt sec 0 ≠ 0x80 then none
  else if crc32Mpeg sec ≠ 0 then none
  else if byteAt sec 10 >>> 5 &&& 0x07 ≠ 0 then none
  else
    let n := 12 + ((byteAt sec 10 &&& 0x0F) <<< 8 ||| byteAt sec 11)
    if sec.length < n + 1 + bissCaIvLen + 2 * bissCaSwLen + 4 then none
    else
      some ⟨beGet sec 3 2, beGet sec 8 2, byteAt sec n >>> 7 &&& 1, slice sec (n + 1) bissCaIvLen,
        slice sec (n + 1 + bissCaIvLen) bissCaSwLen, slice sec (n + 1 + bissCaIvLen + bissCaSwLen) bissCaSwLen⟩

/-! ## What comes back -/

variable {sec : List UInt8} {cap : Nat}

theorem psiFinishSection_cons {a b c flags : UInt8} {rest : List UInt8}
    (h : psiFinishSection (a :: b :: c :: rest) cap flags = some sec) :
    ∃ x y crc, sec = a :: x :: y :: (rest ++ bePut 4 crc) ∧ crc32Mpeg sec = 0 := by
  unfold psiFinishSection at h
  split at h
  · cases h
  · refine ⟨_, _, _, (Option.some.inj h).symm, ?_⟩
    rw [← Option.some.inj h]
    exact crc32Mpeg_append_self _

theorem lowBit_toNat (n : Int) : (lowBit n).toNat = (n % 2).toNat := by
  unfold lowBit
  split <;> rename_i hn
  · rw [hn]
    rfl
  · have hzero : n % 2 = 0 := by omega
    rw [hzero]
    rfl

theorem bissCaHeader_eq (tableId esid version sectionNumber lastSectionNumber onid : Nat) :
    bissCaHeader tableId esid version sectionNumber lastSectionNumber onid =
      [UInt8.ofNat tableId, 0, 0, UInt8.ofNat (esid >>> 8), UInt8.ofNat esid,
        UInt8.ofNat (0xC0 ||| (version &&& 0x1F) <<< 1 ||| 0x01), UInt8.ofNat sectionNumber,
        UInt8.ofNat lastSectionNumber, UInt8.ofNat (onid >>> 8), UInt8.ofNat onid] := rfl

theorem beGet_two (p : List UInt8) (off : Nat) : beGet p off 2 = byteAt p off * 256 + byteAt p (off + 1) := by
  simp only [beGet, add_zero, zero_mul, zero_add]

variable {p : List UInt8}

theorem beGet_two_ofNat {off v : Nat} (hi : p.getD off 0 = UInt8.ofNat (v >>> 8))
    (hlo : p.getD (off + 1) 0 = UInt8.ofNat v) : beGet p off 2 = v % 65536 := by
  rw [beGet_two, byteAt, byteAt, hi, hlo, UInt8.toNat_ofNat', UInt8.toNat_ofNat', shiftRight_eq_div_pow]
  omega

variable {a b : List UInt8} {n : Nat}

theorem byteAt_append_of_length (h : a.length = n) (i : Nat) :
    byteAt (a ++ b) (n + i) = byteAt b i := h ▸ byteAt_append_right a b i

theorem slice_append_of_length {c : List UInt8} {k : Nat} (ha : a.length = n) (hb : b.length = k) :
    slice (a ++ (b ++ c)) n k = b := by
  rw [slice, ← ha, drop_left, ← hb, take_left]

theorem parseSessionData_build {sk : Vector UInt8 16} {parity : Int}
    (h : buildSessionData sk parity cap = some p) : parseSessionData p = some (sk.toList, (parity % 2).toNat) := by
  unfold buildSessionData at h
  split at h
  · cases h
  have hkey : sk.toList.length = 16 := sk.length_toList
  generalize sk.toList = key at h hkey ⊢
  cases h
  have hfront : ([0x00, 0x16, 0x81, 0x11, lowBit parity] ++ key).length = 21 := by
    simp only [length_append, hkey, length_cons, length_nil]
  have hbit : byteAt ([0x00, 0x16, 0x81, 0x11, lowBit parity] ++ key ++ [0x82, 0x01, 0x00]) 4 = (parity % 2).toNat :=
    lowBit_toNat parity
  have hslice : slice ([0x00, 0x16, 0x81, 0x11, lowBit parity] ++ key ++ [0x82, 0x01, 0x00]) 5 16 = key := by
    rw [append_assoc]
    exact slice_append_of_length rfl hkey
  have h21 : byteAt ([0x00, 0x16, 0x81, 0x11, lowBit parity] ++ key ++ [0x82, 0x01, 0x00]) 21 = 0x82 :=
    byteAt_append_of_length hfront 0
  have h22 : byteAt ([0x00, 0x16, 0x81, 0x11, lowBit parity] ++ key ++ [0x82, 0x01, 0x00]) 22 = 0x01 :=
    byteAt_append_of_length hfront 1
  have h2 : byteAt ([0x00, 0x16, 0x81, 0x11, lowBit parity] ++ key ++ [0x82, 0x01, 0x00]) 2 = 0x81 := rfl
  have h3 : byteAt ([0x00, 0x16, 0x81, 0x11, lowBit parity] ++ key ++ [0x82, 0x01, 0x00]) 3 = 0x11 := rfl
  have hsmall : (parity % 2).toNat < 2 := by omega
  unfold parseSessionData
  rw [if_neg (by simp only [length_append, hkey, length_cons, length_nil]; decide),
    if_neg (by rw [h2, h3]; decide), hbit,
    if_neg (by rw [shiftRight_eq_div_pow]; omega), if_neg (by rw [h21, h22]; decide)]
  rw [and_one_is_mod, mod_eq_of_lt hsmall]
  exact congrArg (fun x => some (x, _)) hslice

theorem drop_flatMap_bytes (entries : List EmmEntry) (t : List UInt8) {i : Nat} (hi : i ≤ entries.length) :
    (entries.flatMap EmmEntry.bytes ++ t).drop (i * emmEntrySize) = (entries.drop i).flatMap EmmEntry.bytes ++ t := by
  induction i generalizing entries with
  | zero => rw [zero_mul, drop_zero, drop_zero]
  | succ i ih =>
    cases entries with
    | nil => cases hi
    | cons e es =>
      have hlen : e.bytes.length = emmEntrySize := by
        rw [EmmEntry.bytes, length_append, Vector.length_toList, Vector.length_toList]
        rfl
      rw [succ_mul, add_comm, ← drop_drop, flatMap_cons, append_assoc, ← hlen, drop_left,
        hlen, ih es (le_of_succ_le_succ hi), drop_succ_cons]

theorem length_flatMap_bytes (entries : List EmmEntry) :
    (entries.flatMap EmmEntry.bytes).length = entries.length * emmEntrySize := by
  induction entries with
  | nil => rfl
  | cons e es ih =>
    rw [flatMap_cons, length_append, ih, EmmEntry.bytes, length_append, Vector.length_toList,
      Vector.length_toList, length_cons, succ_mul, add_comm]
    rfl

theorem entryList_flatMap {emm : EmmParsed} {sec front t : List UInt8} {entries : List EmmEntry}
    (hsec : sec = front ++ (entries.flatMap EmmEntry.bytes ++ t)) (hfront : emm.entries = front.length)
    (hn : emm.nEntries = entries.length) :
    emm.entryList sec = entries.map fun e => (e.entitlementKeyId.toList, e.encryptedSessionData.toList) := by
  refine ext_getElem (by simp [EmmParsed.entryList, hn]) fun i hi hi' => ?_
  have hlt : i < entries.length := by simpa using hi'
  have hdrop : sec.drop (emm.entries + i * emmEntrySize) =
      entries[i].entitlementKeyId.toList ++ (entries[i].encryptedSessionData.toList ++
        ((entries.drop (i + 1)).flatMap EmmEntry.bytes ++ t)) := by
    rw [hsec, hfront, ← drop_drop, drop_left, drop_flatMap_bytes entries t hlt.le,
      drop_eq_getElem_cons hlt, flatMap_cons, EmmEntry.bytes, append_assoc, append_assoc]
  simp only [EmmParsed.entryList, getElem_map, getElem_range]
  refine Prod.ext ?_ ?_
  · show (sec.drop _).take bissCaEkidLen = _
    rw [hdrop]
    exact take_left' (Vector.length_toList ..)
  · show (sec.drop (emm.entries + i * emmEntrySize + bissCaEkidLen)).take bissCaRsaBytes = _
    have hid : entries[i].entitlementKeyId.toList.length = bissCaEkidLen := Vector.length_toList ..
    rw [← drop_drop, hdrop, drop_left' hid]
    exact take_left' (Vector.length_toList ..)

theorem emmFindEntry_entryList (sec : List UInt8) (emm : EmmParsed) (ekid : Vector UInt8 8) :
    (emmFindEntry sec emm ekid).map (fun off => slice sec off bissCaRsaBytes) =
      ((emm.entryList sec).find? fun e => e.1 == ekid.toList).map Prod.snd := by
  rw [emmFindEntry, EmmParsed.entryList, find?_map, Option.map_map, Option.map_map]
  rfl

variable {emm : EmmParsed}

/-- Whatever the bytes are, the entries are between the descriptors and the CRC. -/
theorem parseEmmSection_within (h : parseEmmSection sec = some emm) :
    emm.entries + emm.nEntries * emmEntrySize + 4 = sec.length := by
  unfold parseEmmSection at h
  split at h
  · cases h
  split at h
  · cases h
  split at h
  · cases h
  split at h
  · cases h
  dsimp only at h
  split at h
  · cases h
  split at h
  · cases h
  rename_i hmod
  cases h
  have hdiv := Nat.div_mul_cancel (Nat.dvd_of_mod_eq_zero (not_not.1 hmod))
  dsimp only at hdiv ⊢
  omega

variable {entries : List EmmEntry} {esid version sectionNumber lastSectionNumber onid : Nat}

theorem parseEmmSection_build {tableId lastTableId : Nat} (hmin : 0x81 ≤ tableId) (hmax : tableId ≤ 0x8F)
    (h : buildEmmSection tableId esid version sectionNumber lastSectionNumber onid lastTableId entries cap = some sec) :
    ∃ emm, parseEmmSection sec = some emm ∧ emm.tableId = tableId ∧ emm.esid = esid % 65536 ∧ emm.onid = onid % 65536 ∧
      emm.entryList sec = entries.map fun e => (e.entitlementKeyId.toList, e.encryptedSessionData.toList) := by
  unfold buildEmmSection at h
  split at h
  · cases h
  simp only [bissCaHeader_eq, cons_append, nil_append] at h
  obtain ⟨x, y, crc, hsec, hcrc⟩ := psiFinishSection_cons h
  have hlen : sec.length = 14 + entries.length * emmEntrySize + 4 := by
    rw [hsec, ← length_flatMap_bytes]
    simp only [cons_append, length_cons, length_append, length_bePut]
    omega
  have htable : byteAt sec 0 = tableId := by
    rw [hsec]
    show (UInt8.ofNat tableId).toNat = tableId
    rw [UInt8.toNat_ofNat', mod_eq_of_lt (by omega)]
  have hesid : beGet sec 3 2 = esid % 65536 := beGet_two_ofNat (by rw [hsec]; rfl) (by rw [hsec]; rfl)
  have honid : beGet sec 8 2 = onid % 65536 := beGet_two_ofNat (by rw [hsec]; rfl) (by rw [hsec]; rfl)
  have h11 : byteAt sec 11 = 0 := by rw [hsec]; rfl
  have h12 : byteAt sec 12 = 0 := by rw [hsec]; rfl
  have h13 : byteAt sec 13 = 0 := by rw [hsec]; rfl
  have hn : 14 + ((byteAt sec 12 &&& 0x0F) <<< 8 ||| byteAt sec 13) = 14 := by rw [h12, h13]; rfl
  have hbody : sec.length - 4 - 14 = entries.length * emmEntrySize := by omega
  have hcount : (sec.length - 4 - 14) / emmEntrySize = entries.length := by
    rw [hbody]
    exact Nat.mul_div_cancel _ (by decide)
  refine ⟨⟨tableId, esid % 65536, onid % 65536, 14, entries.length⟩, ?_, rfl, rfl, rfl, ?_⟩
  · unfold parseEmmSection
    rw [if_neg (by omega), htable, if_neg (by omega), if_neg (not_not.2 hcrc), h11, if_neg (by decide)]
    rw [hn, if_neg (by omega), hcount, hbody, mul_mod_left, if_neg (by decide), hesid, honid]
  · refine @entryList_flatMap _ _ (sec.take 14) (bePut 4 crc) _ ?_ ?_ rfl
    · rw [hsec]
      rfl
    · rw [length_take_of_le (by omega)]

theorem buildEmmSection_isSome (hn : entries.length ≤ 15) (hcap : 4096 ≤ cap)
    (tableId esid version sectionNumber lastSectionNumber onid lastTableId : Nat) :
    (buildEmmSection tableId esid version sectionNumber lastSectionNumber onid lastTableId entries cap).isSome := by
  have hsize : entries.length * emmEntrySize ≤ 15 * 264 := mul_le_mul_right 264 hn
  unfold buildEmmSection
  rw [if_neg (by omega), psiFinishSection, if_neg]
  · rfl
  · simp only [bissCaHeader_eq, cons_append, nil_append, length_cons, length_flatMap_bytes]
    omega

theorem parseEcmSection_build {sessionKeyParity : Int} {iv eswEven eswOdd : Vector UInt8 16}
    (h : buildEcmSection esid version sectionNumber lastSectionNumber onid sessionKeyParity iv eswEven eswOdd cap = some sec) :
    parseEcmSection sec = some ⟨esid % 65536, onid % 65536, (sessionKeyParity % 2).toNat, iv.toList, eswEven.toList,
      eswOdd.toList⟩ := by
  unfold buildEcmSection at h
  split at h
  · cases h
  have hiv : iv.toList.length = 16 := iv.length_toList
  have heven : eswEven.toList.length = 16 := eswEven.length_toList
  have hodd : eswOdd.toList.length = 16 := eswOdd.length_toList
  generalize iv.toList = iv at h hiv ⊢
  generalize eswEven.toList = eswEven at h heven ⊢
  generalize eswOdd.toList = eswOdd at h hodd ⊢
  simp only [bissCaHeader_eq, cons_append, nil_append] at h
  obtain ⟨x, y, crc, hsec, hcrc⟩ := psiFinishSection_cons h
  obtain ⟨front, hfront⟩ : ∃ front, front = sec.take 13 := ⟨_, rfl⟩
  have hlen : sec.length = 65 := by
    rw [hsec]
    simp only [cons_append, length_cons, length_append, length_bePut, hiv, heven, hodd]
  have hlenFront : front.length = 13 := hfront ▸ length_take_of_le (by omega)
  have hparts : sec = front ++ (iv ++ (eswEven ++ (eswOdd ++ bePut 4 crc))) := by
    rw [hfront, hsec]
    simp only [cons_append, append_assoc]
    rfl
  have hesid : beGet sec 3 2 = esid % 65536 := beGet_two_ofNat (by rw [hsec]; rfl) (by rw [hsec]; rfl)
  have honid : beGet sec 8 2 = onid % 65536 := beGet_two_ofNat (by rw [hsec]; rfl) (by rw [hsec]; rfl)
  have h0 : byteAt sec 0 = 0x80 := by rw [hsec]; rfl
  have h10 : byteAt sec 10 = 0 := by rw [hsec]; rfl
  have h11 : byteAt sec 11 = 0 := by rw [hsec]; rfl
  have hparity : byteAt sec 12 >>> 7 &&& 1 = (sessionKeyParity % 2).toNat := by
    have h12 : byteAt sec 12 = (lowBit sessionKeyParity <<< 7).toNat := by rw [hsec]; rfl
    rw [h12, ← lowBit_toNat]
    unfold lowBit
    split <;> rfl
  have hn : 12 + ((byteAt sec 10 &&& 0x0F) <<< 8 ||| byteAt sec 11) = 12 := by rw [h10, h11]; rfl
  have hsliceIv : slice sec 13 16 = iv := hparts ▸ slice_append_of_length hlenFront hiv
  have hsliceEven : slice sec 29 16 = eswEven := by
    rw [hparts, ← append_assoc]
    exact slice_append_of_length (by rw [length_append, hlenFront, hiv]) heven
  have hsliceOdd : slice sec 45 16 = eswOdd := by
    rw [hparts, ← append_assoc, ← append_assoc]
    exact slice_append_of_length (by rw [length_append, length_append, hlenFront, hiv, heven]) hodd
  unfold parseEcmSection
  rw [if_neg (by rw [hlen]; decide), if_neg (not_not.2 h0), if_neg (not_not.2 hcrc)]
  rw [if_neg (by rw [h10]; decide)]
  rw [hn, if_neg (by rw [hlen]; decide), hesid, honid, hparity]
  show some (EcmParsed.mk _ _ _ (slice sec 13 16) (slice sec 29 16) (slice sec 45 16)) = _
  rw [hsliceIv, hsliceEven, hsliceOdd]

theorem emmFindEntry_build
    (h : emm.entryList sec = entries.map fun e => (e.entitlementKeyId.toList, e.encryptedSessionData.toList))
    (ekid : Vector UInt8 8) : (emmFindEntry sec emm ekid).map (fun off => slice sec off bissCaRsaBytes) =
      (entries.find? fun e => e.entitlementKeyId == ekid).map fun e => e.encryptedSessionData.toList := by
  have hid (a b : Vector UInt8 8) : (a.toList == b.toList) = (a == b) := by
    rw [Bool.eq_iff_iff, beq_iff_eq, beq_iff_eq]
    exact Vector.toList_inj
  rw [emmFindEntry_entryList, h, find?_map, Option.map_map]
  simp only [Function.comp_def, hid]

/-- The parsers take what the builders write and return its fields, the numbers of 16 bits by their low bits; and
whatever bytes the EMM parser takes, its entries are in them. -/
theorem bissCaSections_roundTrip : (∀ sk parity cap p, buildSessionData sk parity cap = some p →
      parseSessionData p = some (sk.toList, (parity % 2).toNat)) ∧
    (∀ esid version number last onid parity iv eswEven eswOdd cap sec,
      buildEcmSection esid version number last onid parity iv eswEven eswOdd cap = some sec →
      parseEcmSection sec = some ⟨esid % 65536, onid % 65536, (parity % 2).toNat, iv.toList, eswEven.toList,
        eswOdd.toList⟩) ∧
    (∀ tableId esid version number last onid lastTableId entries cap sec, 0x81 ≤ tableId → tableId ≤ 0x8F →
      buildEmmSection tableId esid version number last onid lastTableId entries cap = some sec →
      ∃ emm, parseEmmSection sec = some emm ∧ emm.tableId = tableId ∧ emm.esid = esid % 65536 ∧
        emm.onid = onid % 65536 ∧
        (emm.entryList sec = entries.map fun e => (e.entitlementKeyId.toList, e.encryptedSessionData.toList)) ∧
        ∀ ekid, (emmFindEntry sec emm ekid).map (fun off => slice sec off bissCaRsaBytes) =
          (entries.find? fun e => e.entitlementKeyId == ekid).map fun e => e.encryptedSessionData.toList) ∧
    (∀ tableId esid version number last onid lastTableId entries cap, entries.length ≤ 15 → 4096 ≤ cap →
      (buildEmmSection tableId esid version number last onid lastTableId entries cap).isSome) ∧
    ∀ sec emm, parseEmmSection sec = some emm → emm.entries + emm.nEntries * emmEntrySize + 4 = sec.length := by
  refine ⟨fun _ _ _ _ h => parseSessionData_build h, fun _ _ _ _ _ _ _ _ _ _ _ h => parseEcmSection_build h,
    fun _ _ _ _ _ _ _ _ _ _ hmin hmax h => ?_, fun _ _ _ _ _ _ _ _ _ hn hcap => buildEmmSection_isSome hn hcap ..,
    fun _ _ h => parseEmmSection_within h⟩
  obtain ⟨emm, hparse, htable, hesid, honid, hentries⟩ := parseEmmSection_build hmin hmax h
  exact ⟨emm, hparse, htable, hesid, honid, hentries, emmFindEntry_build hentries⟩

/-- The entry of a receiver. -/
def emmEntryOf (n : UInt8) : EmmEntry := ⟨Vector.replicate 8 n, Vector.replicate 256 n⟩

/-- An ECM, and an EMM of two entries in which the second one is found. -/
theorem bissCaSections_roundTrip_emm :
    let sec := (buildEmmSection 0x81 0x1234 5 0 0 0xABCD 0x81 [emmEntryOf 1, emmEntryOf 2] 4096).getD []
    parseEcmSection ((buildEcmSection 0x1234 5 0 0 0xABCD 1 (.replicate 16 1) (.replicate 16 2) (.replicate 16 3) 4096).getD []) =
        some ⟨0x1234, 0xABCD, 1, replicate 16 1, replicate 16 2, replicate 16 3⟩ ∧
      ∃ emm, parseEmmSection sec = some emm ∧
        (emmFindEntry sec emm (.replicate 8 2)).map (fun off => slice sec off bissCaRsaBytes) = some (replicate 256 2) := by
  intro sec
  refine ⟨bissCaSections_roundTrip.2.1 0x1234 5 0 0 0xABCD 1 (.replicate 16 1) (.replicate 16 2) (.replicate 16 3) 4096 _
    (by decide +kernel), ?_⟩
  obtain ⟨emm, hparse, -, -, -, -, hfind⟩ := bissCaSections_roundTrip.2.2.1 0x81 0x1234 5 0 0 0xABCD 0x81
    [emmEntryOf 1, emmEntryOf 2] 4096 sec (by decide) (by decide) (by decide +kernel)
  exact ⟨emm, hparse, (hfind _).trans (by decide +kernel)⟩

/-- An ECM section with a descriptor of one byte, before its CRC. -/
def ecmWithDescriptor : List UInt8 :=
  [0x80, 0xF0, 0x3F, 0, 1, 0xC1, 0, 0, 0, 2, 0x00, 0x01, 0xFF, 0x80] ++ replicate 48 0

/-- A parser takes more than the builder writes. -/
theorem parseEcmSection_not_exact :
    ¬∀ sec p, parseEcmSection sec = some p → ∃ esid version number last onid parity iv eswEven eswOdd cap,
      buildEcmSection esid version number last onid parity iv eswEven eswOdd cap = some sec := by
  intro h
  obtain ⟨esid, version, number, last, onid, parity, iv, eswEven, eswOdd, cap, hb⟩ :=
    h (ecmWithDescriptor ++ bePut 4 (crc32Mpeg ecmWithDescriptor))
      ⟨1, 2, 1, replicate 16 0, replicate 16 0, replicate 16 0⟩ (by decide +kernel)
  unfold buildEcmSection at hb
  split at hb
  · cases hb
  · simp only [bissCaHeader_eq, cons_append, nil_append] at hb
    obtain ⟨x, y, crc, hsec, -⟩ := psiFinishSection_cons hb
    have h11 := congrArg (fun sec => byteAt sec 11) hsec
    exact absurd h11 (by show (1 : Nat) ≠ 0; decide)

end DvbIpiTools.Cas
