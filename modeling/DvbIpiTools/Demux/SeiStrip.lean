import DvbIpiTools.Demux.NalUnits
import Mathlib.Algebra.Group.Nat.Defs

set_option autoImplicit false

/-! # LCEVC messages in SEI units (`escodec/aubuild.c`)

The messages of a unit are moved together in the buffer they are read from. -/

namespace DvbIpiTools.Nal

open List Nat

/-! ## The loop over the messages -/

/-- The doubling in `growbuf_reserve`. -/
def growCap (need : Nat) : Nat → Nat → Nat
  | 0, _ => need
  | k + 1, ncap => if ncap < need then if ncap > (2 ^ 64 - 1) / 2 then need else growCap need k (ncap * 2) else ncap

/-- The capacity that `growbuf_reserve` leaves when it gets its memory. -/
def growbufReserve (cap need initial : Nat) : Nat :=
  if cap ≥ need then cap else growCap need 64 (if cap = 0 then initial else cap)

/-- A run of `0xFF` bytes and the byte behind it, from `i` on where `n` bytes are left: the sum and the place behind it, or none when the
payload ends first. A read outside the buffer has no result at all. -/
def seiCode (rb : List UInt8) : Nat → Nat → Nat → Option (Option (Nat × Nat))
  | 0, _, _ => some none
  | n + 1, i, v => do
    let b ← rb[i]?
    if b = 0xFF then seiCode rb n (i + 1) (v + 255) else return some (v + b.toNat, i + 1)

/-- Whether a message holds LCEVC data. -/
def isLcevc (rb : List UInt8) (type size i : Nat) : Option Bool :=
  if type = 4 ∧ size ≥ 4 then do
    return [← rb[i]?, ← rb[i + 1]?, ← rb[i + 2]?, ← rb[i + 3]?] = [0xB4, 0x00, 0x50, 0x00]
  else some false

/-- `memmove` from `src` to `dst` where the two differ. -/
def moveMessage (rb : List UInt8) (dst src len : Nat) : Option (List UInt8) :=
  if dst = src then some rb
  else if src + len ≤ rb.length ∧ dst + len ≤ rb.length then some (rb.take dst ++ (rb.drop src).take len ++ rb.drop (dst + len))
  else none

/-- The buffer and the locals of the loop. -/
structure SeiLoop where
  rb : List UInt8
  w : Nat
  i : Nat
  removed : Bool

/-- The body of the loop; none inside where `malformed` is set. `type` is 32 bits wide. -/
def seiMessage (s : SeiLoop) : Option (Option SeiLoop) := do
  let some (type, j) ← seiCode s.rb (s.rb.length - s.i) s.i 0 | return none
  let some (size, k) ← seiCode s.rb (s.rb.length - j) j 0 | return none
  if s.rb.length < k + size then return none
  if ← isLcevc s.rb (type % 2 ^ 32) size k then return some { s with i := k + size, removed := true }
  let len := k + size - s.i
  let rb ← moveMessage s.rb s.w s.i len
  return some { s with rb, w := s.w + len, i := k + size }

/-- The loop; a message takes at least two bytes. -/
def seiMessages : Nat → SeiLoop → Option (Option SeiLoop)
  | 0, s => some (some s)
  | n + 1, s =>
    if s.i + 2 ≤ s.rb.length then do
      let some s ← seiMessage s | return none
      seiMessages n s
    else some (some s)

/-- The room behind the header for the escaped form of `w` bytes. -/
def escRoom (esccap hdrlen w : Nat) : Nat := growbufReserve esccap (hdrlen + w + w / 2 + 8) 4096 - hdrlen

/-- What is written behind the header once all messages are read. The stop bit goes to `rb[w]`, which has room; that
    write and failed allocations are left out. -/
def strippedUnit (hdr : List UInt8) (esccap : Nat) (s : SeiLoop) : Option (List UInt8) :=
  if !s.removed then none
  else if s.w = 0 then some []
  else
    let out := s.rb.take s.w ++ [0x80]
    match rbspEscape out (escRoom esccap hdr.length out.length) with
    | none | some [] => none
    | some esc => some (hdr ++ esc)

/-- `esc_strip_lcevc_sei`: none inside where it returns 0, and otherwise the unit it yields. -/
def escStripLcevcSei (nal : List UInt8) (hdrlen esccap : Nat) : Option (Option (List UInt8)) :=
  if nal.length ≤ hdrlen then some none
  else
    let rb := rbspUnescape (nal.drop hdrlen) (nal.length - hdrlen)
    (seiMessages rb.length ⟨rb, 0, 0, false⟩).map (·.bind (strippedUnit (nal.take hdrlen) esccap))

/-! ## Every access is inside the buffer -/

variable {rb : List UInt8} {s : SeiLoop} {i n : Nat}

theorem le_growCap (need k ncap : Nat) : need ≤ growCap need k ncap := by
  induction k generalizing ncap with
  | zero => exact le_rfl
  | succ k ih =>
    rw [growCap]
    split
    · split
      · exact le_rfl
      · exact ih _
    · omega

theorem le_growbufReserve (cap need initial : Nat) : need ≤ growbufReserve cap need initial := by
  rw [growbufReserve]
  split
  · assumption
  · exact le_growCap _ _ _

theorem le_escRoom (esccap hdrlen w : Nat) : w + w / 2 ≤ escRoom esccap hdrlen w := by
  have := le_growbufReserve esccap (hdrlen + w + w / 2 + 8) 4096
  rw [escRoom]
  omega

theorem seiCode_total (a : Nat) (h : i + n ≤ rb.length) : ∃ r, seiCode rb n i a = some r ∧ ∀ v j, r = some (v, j) → i < j ∧ j ≤ i + n := by
  induction n generalizing i a with
  | zero => exact ⟨none, rfl, nofun⟩
  | succ n ih =>
    rw [seiCode, getElem?_eq_getElem (by omega)]
    simp only [Option.bind_eq_bind, Option.bind_some]
    split
    · obtain ⟨r, hr, hj⟩ := ih (a + 255) (show i + 1 + n ≤ rb.length by omega)
      refine ⟨r, hr, fun v j h => ?_⟩
      have := hj v j h
      omega
    · refine ⟨_, rfl, fun v j h => ?_⟩
      cases h
      omega

theorem isLcevc_total (type : Nat) {size : Nat} (h : i + size ≤ rb.length) : ∃ b, isLcevc rb type size i = some b := by
  rw [isLcevc]
  split
  · rw [getElem?_eq_getElem (by omega), getElem?_eq_getElem (by omega), getElem?_eq_getElem (by omega), getElem?_eq_getElem (by omega)]
    exact ⟨_, rfl⟩
  · exact ⟨_, rfl⟩

theorem moveMessage_spec {w len : Nat} (hw : w ≤ i) (h : i + len ≤ rb.length) :
    ∃ rb', moveMessage rb w i len = some rb' ∧ rb'.length = rb.length ∧
      rb'.take (w + len) = rb.take w ++ (rb.drop i).take len ∧ rb'.drop (i + len) = rb.drop (i + len) := by
  rw [moveMessage]
  split
  · next heq =>
    subst heq
    exact ⟨rb, rfl, rfl, take_add, rfl⟩
  · have hlen : (rb.take w ++ (rb.drop i).take len).length = w + len := by
      simp only [length_append, length_take, length_drop]
      omega
    refine ⟨_, if_pos ⟨h, by omega⟩, ?_, take_left' hlen, ?_⟩
    · rw [length_append, hlen, length_drop]
      omega
    · rw [drop_append, hlen, drop_eq_nil_of_le (by omega), nil_append, drop_drop]
      congr 1
      omega

/-- What is between messages: the kept ones lie before the place that is read next. -/
structure SeiLoop.Ok (s : SeiLoop) : Prop where
  w_le : s.w ≤ s.i
  i_le : s.i ≤ s.rb.length

theorem seiMessage_total (hs : s.Ok) : ∃ r, seiMessage s = some r ∧ ∀ s', r = some s' → s'.Ok := by
  obtain ⟨r, hr, htype⟩ := seiCode_total 0 (show s.i + (s.rb.length - s.i) ≤ s.rb.length from by have := hs.i_le; omega)
  unfold seiMessage
  rw [hr]
  obtain _ | ⟨type, j⟩ := r
  · exact ⟨none, rfl, nofun⟩
  obtain ⟨hij, hj⟩ := htype type j rfl
  obtain ⟨r, hr, hsize⟩ := seiCode_total 0 (show j + (s.rb.length - j) ≤ s.rb.length by omega)
  simp only [Option.bind_eq_bind, Option.bind_some, hr]
  obtain _ | ⟨size, k⟩ := r
  · exact ⟨none, rfl, nofun⟩
  obtain ⟨hjk, hk⟩ := hsize size k rfl
  simp only
  split
  · exact ⟨none, rfl, nofun⟩
  · next hin =>
    have hw := hs.w_le
    obtain ⟨b, hb⟩ := isLcevc_total (type % 2 ^ 32) (not_lt.1 hin)
    rw [hb]
    obtain _ | _ := b
    · obtain ⟨rb', hrb, hlen, -, -⟩ := moveMessage_spec hw (show s.i + (k + size - s.i) ≤ s.rb.length by omega)
      simp only [Option.bind_some, Bool.false_eq_true, if_false, hrb]
      refine ⟨_, rfl, fun s' h => ?_⟩
      cases h
      exact ⟨by simp only; omega, by simp only [hlen]; omega⟩
    · refine ⟨_, rfl, fun s' h => ?_⟩
      cases h
      exact ⟨by simp only; omega, not_lt.1 hin⟩

theorem seiMessages_total (hs : s.Ok) : seiMessages n s ≠ none := by
  induction n generalizing s with
  | zero => exact nofun
  | succ n ih =>
    rw [seiMessages]
    split
    · obtain ⟨r, hr, hok⟩ := seiMessage_total hs
      rw [hr]
      obtain _ | s' := r
      · exact nofun
      · exact ih (hok s' rfl)
    · exact nofun

theorem escStripLcevcSei_total (nal : List UInt8) (hdrlen esccap : Nat) : escStripLcevcSei nal hdrlen esccap ≠ none := by
  rw [escStripLcevcSei]
  split
  · exact nofun
  · exact fun h => seiMessages_total ⟨le_rfl, zero_le _⟩ (Option.map_eq_none_iff.1 h)

/-! ## The messages of a unit -/

/-- A message of a SEI unit. -/
structure SeiMessage where
  type : Nat
  payload : List UInt8
  type_lt : type < 2 ^ 32
  size_lt : payload.length < 2 ^ 32

/-- A type or a size as a unit has it. -/
def codeBytes (v : Nat) : List UInt8 := replicate (v / 255) 0xFF ++ [UInt8.ofNat (v % 255)]

/-- A message as a unit has it. -/
def SeiMessage.bytes (m : SeiMessage) : List UInt8 := codeBytes m.type ++ codeBytes m.payload.length ++ m.payload

/-- An LCEVC message. -/
def SeiMessage.Lcevc (m : SeiMessage) : Prop := m.type = 4 ∧ m.payload.take 4 = [0xB4, 0x00, 0x50, 0x00]

instance (m : SeiMessage) : Decidable m.Lcevc := inferInstanceAs (Decidable (_ ∧ _))

/-- The messages that are not LCEVC ones. -/
def others (ms : List SeiMessage) : List SeiMessage := ms.filter fun m => ¬ m.Lcevc

/-- The payload of a unit with these messages. -/
def seiRbsp (ms : List SeiMessage) : List UInt8 := ms.flatMap SeiMessage.bytes ++ [0x80]

/-- A unit with these messages and with zero bytes behind its trailing bits. -/
def seiUnit (hdr : List UInt8) (ms : List SeiMessage) (zeros : Nat) : List UInt8 :=
  hdr ++ (rbspEscape (seiRbsp ms) ((seiRbsp ms).length + (seiRbsp ms).length / 2)).getD [] ++ replicate zeros 0

variable {rest : List UInt8} {m : SeiMessage}

theorem getElem?_drop_cons {b : UInt8} (h : rb.drop i = b :: rest) : rb[i]? = some b ∧ i < rb.length ∧ rb.drop (i + 1) = rest := by
  refine ⟨?_, Nat.lt_of_not_le fun hle => ?_, ?_⟩
  · rw [← add_zero i, ← getElem?_drop, h]
    rfl
  · rw [drop_eq_nil_of_le hle] at h
    cases h
  · rw [← drop_drop, h]
    rfl

theorem seiCode_codeBytes {v : Nat} (h : rb.drop i = codeBytes v ++ rest) (hn : n + i = rb.length) :
    seiCode rb n i 0 = some (some (v, i + (codeBytes v).length)) := by
  have hmod : v % 255 < 255 := mod_lt _ (by decide)
  have hrun (q a n i : Nat) (h : rb.drop i = replicate q 0xFF ++ [UInt8.ofNat (v % 255)] ++ rest) (hn : n + i = rb.length) :
      seiCode rb n i a = some (some (a + 255 * q + v % 255, i + (q + 1))) := by
    induction q generalizing a n i with
    | zero =>
      obtain ⟨hget, hi, -⟩ := getElem?_drop_cons h
      obtain ⟨n, rfl⟩ : ∃ k, n = k + 1 := Nat.exists_eq_add_of_le' (by omega)
      have hval : (UInt8.ofNat (v % 255)).toNat = v % 255 := UInt8.toNat_ofNat_of_lt' (lt_trans hmod (by decide))
      have hne : UInt8.ofNat (v % 255) ≠ 0xFF := fun he => hmod.ne (hval.symm.trans (congrArg UInt8.toNat he))
      rw [seiCode, hget, Option.bind_eq_bind, Option.bind_some, if_neg hne, hval]
      rfl
    | succ q ih =>
      rw [replicate_succ, cons_append, cons_append] at h
      obtain ⟨hget, hi, hdrop⟩ := getElem?_drop_cons h
      obtain ⟨n, rfl⟩ : ∃ k, n = k + 1 := Nat.exists_eq_add_of_le' (by omega)
      rw [seiCode, hget, Option.bind_eq_bind, Option.bind_some, if_pos rfl, ih (a + 255) n (i + 1) hdrop (by omega)]
      simp only [Option.some.injEq, Prod.mk.injEq]
      omega
  rw [hrun _ 0 n i h hn, codeBytes, length_append, length_replicate, length_singleton, zero_add, div_add_mod]

theorem isLcevc_payload (h : rb.drop i = m.payload ++ rest) : isLcevc rb m.type m.payload.length i = some (decide m.Lcevc) := by
  have hget {k : Nat} (hk : k < m.payload.length) : rb[i + k]? = m.payload[k]? := by
    rw [← getElem?_drop, h, getElem?_append_left hk]
  rw [isLcevc]
  split
  · next hin =>
    have h0 := hget (k := 0) (by omega)
    rw [add_zero] at h0
    rw [h0, hget (k := 1) (by omega), hget (k := 2) (by omega), hget (k := 3) (by omega)]
    have hlcevc : decide m.Lcevc = decide (m.payload.take 4 = [0xB4, 0x00, 0x50, 0x00]) := decide_eq_decide.2 (and_iff_right hin.1)
    rw [hlcevc]
    match m.payload, hin.2 with
    | a :: b :: c :: d :: t, _ => rfl
  · next hin =>
    refine congrArg some (Eq.symm (decide_eq_false fun hm => hin ⟨hm.1, ?_⟩))
    have := congrArg length hm.2
    simp only [length_take, length_cons, length_nil] at this
    omega

theorem seiMessage_bytes (hs : s.Ok) (h : s.rb.drop s.i = m.bytes ++ rest) : ∃ s', seiMessage s = some (some s') ∧ s'.Ok ∧
    s'.rb.drop s'.i = rest ∧ (s'.removed = true ↔ s.removed = true ∨ m.Lcevc) ∧
      s'.rb.take s'.w = s.rb.take s.w ++ if m.Lcevc then [] else m.bytes := by
  obtain ⟨hw, hi⟩ := hs
  have hlen := congrArg length h
  have hbytes : m.bytes.length = (codeBytes m.type).length + (codeBytes m.payload.length).length + m.payload.length := by
    rw [SeiMessage.bytes, length_append, length_append]
  rw [length_drop, length_append] at hlen
  have htype : s.rb.drop s.i = codeBytes m.type ++ (codeBytes m.payload.length ++ (m.payload ++ rest)) := by
    rw [h, SeiMessage.bytes, append_assoc, append_assoc]
  have hsize : s.rb.drop (s.i + (codeBytes m.type).length) = codeBytes m.payload.length ++ (m.payload ++ rest) := by
    rw [← drop_drop, htype, drop_left]
  have hpay : s.rb.drop (s.i + (codeBytes m.type).length + (codeBytes m.payload.length).length) = m.payload ++ rest := by
    rw [← drop_drop, hsize, drop_left]
  have hend : s.i + (codeBytes m.type).length + (codeBytes m.payload.length).length + m.payload.length = s.i + m.bytes.length := by
    rw [hbytes]
    omega
  unfold seiMessage
  rw [seiCode_codeBytes htype (by omega), Option.bind_eq_bind, Option.bind_some]
  simp only
  rw [seiCode_codeBytes hsize (by omega), Option.bind_some]
  simp only
  rw [if_neg (by omega), Nat.mod_eq_of_lt m.type_lt, isLcevc_payload hpay, Option.bind_eq_bind, Option.bind_some, hend, Nat.add_sub_cancel_left]
  have hrest : s.rb.drop (s.i + m.bytes.length) = rest := by rw [← drop_drop, h, drop_left]
  by_cases hm : m.Lcevc
  · rw [decide_eq_true hm, if_pos rfl, if_pos hm]
    exact ⟨_, rfl, ⟨by simp only; omega, by simp only; omega⟩, hrest, by simp [hm], (append_nil _).symm⟩
  · obtain ⟨rb', hrb, hlen', htake, hdrop⟩ := moveMessage_spec hw (show s.i + m.bytes.length ≤ s.rb.length by omega)
    rw [decide_eq_false hm, if_neg Bool.false_ne_true, if_neg hm, hrb]
    refine ⟨_, rfl, ⟨by simp only; omega, by simp only; omega⟩, hdrop.trans hrest, by simp [hm], ?_⟩
    simp only [htake, h, take_left]

theorem length_bytes (m : SeiMessage) : 2 ≤ m.bytes.length := by
  simp only [SeiMessage.bytes, codeBytes, length_append, length_singleton]
  omega

/-- The loop over whole messages, of which no more than one byte is left. -/
theorem seiMessages_bytes {ms : List SeiMessage} (hs : s.Ok) (hn : s.rb.length ≤ s.i + n) (hrest : rest.length ≤ 1)
    (h : s.rb.drop s.i = ms.flatMap SeiMessage.bytes ++ rest) : ∃ s', seiMessages n s = some (some s') ∧ s'.w ≤ s'.rb.length ∧
      (s'.removed = true ↔ s.removed = true ∨ ∃ m ∈ ms, m.Lcevc) ∧ s'.rb.take s'.w = s.rb.take s.w ++ (others ms).flatMap SeiMessage.bytes := by
  induction ms generalizing n s with
  | nil =>
    have hlen := congrArg length h
    rw [length_drop, flatMap_nil, nil_append] at hlen
    have hdone : seiMessages n s = some (some s) := by
      cases n with
      | zero => rfl
      | succ n => rw [seiMessages, if_neg (by omega)]
    exact ⟨s, hdone, hs.w_le.trans hs.i_le, by simp, (append_nil _).symm⟩
  | cons m ms ih =>
    have hlen := congrArg length h
    have h2 := length_bytes m
    rw [flatMap_cons, append_assoc] at h
    rw [length_drop, flatMap_cons, length_append, length_append] at hlen
    obtain ⟨n, rfl⟩ : ∃ k, n = k + 1 := Nat.exists_eq_add_of_le' (by omega)
    obtain ⟨s1, hstep, hok, hdrop, hrem, htake⟩ := seiMessage_bytes hs h
    have hlen1 := congrArg length hdrop
    rw [length_drop, length_append] at hlen1
    have hi := hok.i_le
    obtain ⟨s2, hrun, hw, hrem2, htake2⟩ := @ih s1 n hok (by omega) hdrop
    refine ⟨s2, ?_, hw, ?_, ?_⟩
    · rw [seiMessages, if_pos (by omega), hstep]
      exact hrun
    · rw [hrem2, hrem, exists_mem_cons_iff, or_assoc]
    · rw [htake2, htake, append_assoc, others, others, filter_cons]
      by_cases hm : m.Lcevc <;> simp [hm]

/-! ## Units with zero bytes behind them -/

/-- What the loop takes for messages from the trailing bits on. -/
def paddingMessages : Nat → List SeiMessage
  | 0 => []
  | z + 1 => ⟨0x80, [], by decide, by decide⟩ :: replicate (z / 2) ⟨0, [], by decide, by decide⟩

theorem padding_bytes (z : Nat) : ∃ left, left.length ≤ 1 ∧ 0x80 :: replicate z 0 = (paddingMessages z).flatMap SeiMessage.bytes ++ left := by
  cases z with
  | zero => exact ⟨[0x80], le_rfl, rfl⟩
  | succ z =>
    refine ⟨replicate (z % 2) 0, by rw [length_replicate]; omega, ?_⟩
    have hpairs : (replicate (z / 2) (⟨0, [], by decide, by decide⟩ : SeiMessage)).flatMap SeiMessage.bytes = replicate (z / 2 * 2) 0 := by
      rw [flatMap_replicate, ← flatten_replicate_replicate]
      rfl
    rw [paddingMessages, flatMap_cons, hpairs, append_assoc, ← replicate_add, div_add_mod']
    rfl

theorem padding_not_lcevc {z : Nat} (hm : m ∈ paddingMessages z) : ¬ m.Lcevc := by
  cases z with
  | zero => cases hm
  | succ z =>
    obtain rfl | hm := mem_cons.1 hm
    · decide
    · rw [(mem_replicate.1 hm).2]
      decide

theorem rbspUnescapeFrom_zeros {z : Nat} (k : Nat) (h : z ≤ n) : rbspUnescapeFrom k (replicate z 0) n = replicate z 0 := by
  induction z generalizing k n with
  | zero => rw [replicate_zero, rbspUnescapeFrom]
  | succ z ih =>
    obtain ⟨n, rfl⟩ : ∃ j, n = j + 1 := Nat.exists_eq_add_of_le' (by omega)
    rw [replicate_succ, rbspUnescapeFrom, if_neg (fun h => absurd h.2 (by decide)), ih _ (by omega)]

/-- With half as much room again a string is escaped, and comes back together with the zero bytes behind it. -/
theorem rbspEscape_back {x : List UInt8} {cap : Nat} (hcap : x.length + x.length / 2 ≤ cap) : ∃ e, rbspEscape x cap = some e ∧
    x.length ≤ e.length ∧ ∀ z, rbspUnescape (e ++ replicate z 0) (e.length + z) = x ++ replicate z 0 := by
  obtain ⟨e, he⟩ := rbspEscapeFrom_isSome (zero_le 2) hcap
  obtain ⟨-, hle, k, hback⟩ := rbspEscapeFrom_spec (zero_le 2) he
  obtain ⟨n, hn⟩ := Nat.exists_eq_add_of_le hle
  refine ⟨e, he, hle, fun z => ?_⟩
  rw [hn, add_assoc]
  exact (hback _ _).trans (by rw [rbspUnescapeFrom_zeros k (le_add_left _ _)])

/-- What a call yields when these messages are left: no unit for none, and otherwise one with the same header. -/
def Yields (hdr : List UInt8) (ms : List SeiMessage) (r : Option (Option (List UInt8))) : Prop :=
  ms = [] ∧ r = some (some []) ∨ ms ≠ [] ∧ ∃ e, r = some (some (hdr ++ e)) ∧ rbspUnescape e e.length = seiRbsp ms

variable {hdr : List UInt8} {ms ms' : List SeiMessage} {r : Option (Option (List UInt8))}

theorem Yields.ne_none (h : Yields hdr ms r) : r ≠ some none := by
  rintro rfl
  obtain ⟨-, h⟩ | ⟨-, e, h, -⟩ := h <;> cases h

theorem seiRbsp_ne_nil : seiRbsp ms ≠ [] := append_ne_nil_of_right_ne_nil _ (cons_ne_nil _ _)

theorem Yields.unique (h : Yields hdr ms r) (h' : Yields hdr ms' r) : seiRbsp ms = seiRbsp ms' := by
  have hempty {e : List UInt8} {ms : List SeiMessage} (he : some (some []) = some (some (hdr ++ e)))
      (hback : rbspUnescape e e.length = seiRbsp ms) : False := by
    obtain ⟨-, rfl⟩ := append_eq_nil_iff.1 (Option.some.inj (Option.some.inj he)).symm
    exact seiRbsp_ne_nil hback.symm
  obtain ⟨rfl, rfl⟩ | ⟨-, e, rfl, hback⟩ := h
  · obtain ⟨rfl, -⟩ | ⟨-, e, he, hback⟩ := h'
    · rfl
    · exact (hempty he hback).elim
  · obtain ⟨-, he⟩ | ⟨-, e', he, hback'⟩ := h'
    · exact (hempty he.symm hback).elim
    · obtain rfl := append_cancel_left (Option.some.inj (Option.some.inj he))
      exact hback.symm.trans hback'

theorem strippedUnit_yields (hdr : List UInt8) (esccap : Nat) (hw : s.w ≤ s.rb.length) (hrem : s.removed = true)
    (htake : s.rb.take s.w = ms.flatMap SeiMessage.bytes) : Yields hdr ms (some (strippedUnit hdr esccap s)) := by
  have hlen := congrArg length htake
  rw [length_take, min_eq_left hw] at hlen
  unfold strippedUnit
  rw [hrem, if_neg (by decide)]
  cases ms with
  | nil => exact .inl ⟨rfl, congrArg some (if_pos hlen)⟩
  | cons m ms =>
    have h2 := length_bytes m
    rw [flatMap_cons, length_append] at hlen
    obtain ⟨e, he, hle, hback⟩ := rbspEscape_back (le_escRoom esccap hdr.length (seiRbsp (m :: ms)).length)
    refine .inr ⟨cons_ne_nil _ _, e, congrArg some ?_, by simpa using hback 0⟩
    rw [if_neg (by omega), htake]
    unfold seiRbsp at he
    simp only [he]
    cases e with
    | nil => exact absurd (length_eq_zero_iff.1 (le_zero.1 hle)) seiRbsp_ne_nil
    | cons => rfl

theorem escStripLcevcSei_unit (hdr : List UInt8) (ms : List SeiMessage) (zeros esccap : Nat) :
    if ∃ m ∈ ms, m.Lcevc then Yields hdr (others ms ++ paddingMessages zeros) (escStripLcevcSei (seiUnit hdr ms zeros) hdr.length esccap)
    else escStripLcevcSei (seiUnit hdr ms zeros) hdr.length esccap = some none := by
  obtain ⟨e, he, hle, hback⟩ := rbspEscape_back (le_refl ((seiRbsp ms).length + (seiRbsp ms).length / 2))
  have hpos : 0 < (seiRbsp ms).length := length_pos_iff.2 seiRbsp_ne_nil
  obtain ⟨left, hleft, hpad⟩ := padding_bytes zeros
  have hrb : rbspUnescape (e ++ replicate zeros 0) (e.length + zeros) = (ms ++ paddingMessages zeros).flatMap SeiMessage.bytes ++ left := by
    rw [hback, seiRbsp, append_assoc, singleton_append, hpad, flatMap_append, append_assoc]
  have hothers : others (ms ++ paddingMessages zeros) = others ms ++ paddingMessages zeros := by
    rw [others, filter_append, filter_eq_self.2 fun m hm => decide_eq_true (padding_not_lcevc hm)]
    rfl
  obtain ⟨s, hrun, hw, hrem, htake⟩ := seiMessages_bytes (⟨le_rfl, zero_le _⟩ : SeiLoop.Ok ⟨_, 0, 0, false⟩) (le_add_left _ _) hleft hrb
  have hstrip : escStripLcevcSei (seiUnit hdr ms zeros) hdr.length esccap = some (strippedUnit hdr esccap s) := by
    rw [escStripLcevcSei, seiUnit, he, Option.getD_some, append_assoc, if_neg (by simp only [length_append]; omega), drop_left, take_left,
      length_append, length_append, length_replicate, Nat.add_sub_cancel_left]
    exact congrArg (Option.map _) hrun
  rw [hstrip]
  split
  · next hl =>
    obtain ⟨m, hm, hl⟩ := hl
    rw [← hothers]
    exact strippedUnit_yields hdr esccap hw (hrem.2 (.inr ⟨m, mem_append_left _ hm, hl⟩)) htake
  · next hno =>
    have hfalse : s.removed = false := Bool.eq_false_iff.2 fun h => by
      obtain h | ⟨m, hm, hl⟩ := hrem.1 h
      · cases h
      · exact (mem_append.1 hm).elim (fun hm => hno ⟨m, hm, hl⟩) fun hm => padding_not_lcevc hm hl
    rw [strippedUnit, hfalse]
    rfl

/-- What stripping is to do with a unit: 0 is returned when it has no LCEVC message, and otherwise the other messages are left. -/
def StripExact (hdr : List UInt8) (ms : List SeiMessage) (zeros esccap : Nat) : Prop :=
  (escStripLcevcSei (seiUnit hdr ms zeros) hdr.length esccap = some none ↔ ¬ ∃ m ∈ ms, m.Lcevc) ∧
    ((∃ m ∈ ms, m.Lcevc) → Yields hdr (others ms) (escStripLcevcSei (seiUnit hdr ms zeros) hdr.length esccap))

/-- No byte outside the payload is read and the room for the output suffices. Stripping is exact but for zero bytes behind the unit, which it
keeps as further messages once it removes one. -/
theorem sei_strip_exact_iff (nal x hdr : List UInt8) (hdrlen esccap zeros : Nat) (ms : List SeiMessage) :
    escStripLcevcSei nal hdrlen esccap ≠ none ∧
    (∃ out, rbspEscape x (escRoom esccap hdrlen x.length) = some out) ∧
    (StripExact hdr ms zeros esccap ↔ zeros = 0 ∨ ¬ ∃ m ∈ ms, m.Lcevc) := by
  refine ⟨escStripLcevcSei_total nal hdrlen esccap, ?_, ?_⟩
  · exact rbspEscapeFrom_isSome (zero_le 2) (le_escRoom esccap hdrlen x.length)
  have hunit := escStripLcevcSei_unit hdr ms zeros esccap
  by_cases hl : ∃ m ∈ ms, m.Lcevc
  · rw [if_pos hl] at hunit
    constructor
    · rintro ⟨-, hexact⟩
      obtain _ | z := zeros
      · exact .inl rfl
      have heq := congrArg length (hunit.unique (hexact hl))
      simp only [seiRbsp, flatMap_append, paddingMessages, flatMap_cons, length_append] at heq
      have h2 := length_bytes (⟨0x80, [], by decide, by decide⟩ : SeiMessage)
      omega
    · rintro (rfl | hno)
      · rw [paddingMessages, append_nil] at hunit
        exact ⟨⟨fun h => absurd h hunit.ne_none, absurd hl⟩, fun _ => hunit⟩
      · exact absurd hl hno
  · rw [if_neg hl] at hunit
    exact ⟨fun _ => .inr hl, fun _ => ⟨⟨fun _ => hl, fun _ => hunit⟩, fun h => absurd h hl⟩⟩

/-- A header, an LCEVC message, the trailing bits and a zero byte: a message of type 0x80 is left. -/
theorem sei_strip_keeps_padding : ¬ ∀ hdr ms zeros esccap, StripExact hdr ms zeros esccap := by
  intro h
  obtain ⟨-, hexact⟩ := h [0x06] [⟨4, [0xB4, 0x00, 0x50, 0x00], by decide, by decide⟩] 1 0
  have hout : escStripLcevcSei (seiUnit [0x06] [⟨4, [0xB4, 0x00, 0x50, 0x00], by decide, by decide⟩] 1) 1 0 =
      some (some [0x06, 0x80, 0x00, 0x80]) := by decide
  obtain ⟨-, hnil⟩ | ⟨hne, -⟩ := hexact (by decide)
  · rw [length_singleton, hout] at hnil
    cases hnil
  · exact hne (by decide)

end DvbIpiTools.Nal
