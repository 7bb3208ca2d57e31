import Mathlib.Data.List.TakeWhile
import DvbIpiTools.Utils.ListReader
import DvbIpiTools.Bim.BitLayer

set_option autoImplicit false

/-! # Syntax element readers and writers (`bimio.c`)

The readers run on the bits that are left (`Stream`), in `EStateM` so that a failure keeps the
position it happened at, as `bim_rd_t` does. The writers return the bits they append or the error;
allocation is taken to succeed, so the primitives themselves cannot fail. Every element has its code
as a plain bit string (`strBits`, `extBits`, ...): the writers produce it and the readers invert it. -/

namespace DvbIpiTools.Bim

open BitList ListReader List Option Nat

/-- `bim_width`: the loop `while (b < 64 && (1 << b) < n) b++`. -/
def bimWidthFrom (n b : Nat) : Nat :=
  if b < 64 ∧ 1 <<< b < n then bimWidthFrom n (b + 1) else b
termination_by 64 - b

/-- `bim_width`: `ceil(log2(n))` for a 64 bit `n`. -/
def bimWidth (n : Nat) : Nat := bimWidthFrom n 0

theorem bimWidthFrom_spec (n b : Nat) (hb : b ≤ 64) :
    bimWidthFrom n b ≤ 64 ∧ (bimWidthFrom n b = 64 ∨ n ≤ 2 ^ bimWidthFrom n b) := by
  induction hk : 64 - b generalizing b with
  | zero =>
    rw [bimWidthFrom, if_neg (by omega)]
    exact ⟨hb, .inl (by omega)⟩
  | succ k ih =>
    rw [bimWidthFrom]
    split
    · exact ih (b + 1) (by omega) (by omega)
    · next h =>
      refine ⟨hb, .inr ?_⟩
      rw [one_shiftLeft] at h
      by_contra hlt
      exact h ⟨by omega, by omega⟩

theorem le_bimWidthFrom (n b : Nat) : b ≤ bimWidthFrom n b := by
  induction hk : 64 - b generalizing b with
  | zero => rw [bimWidthFrom, if_neg (by omega)]
  | succ k ih =>
    rw [bimWidthFrom]
    split
    · exact le_of_succ_le (ih (b + 1) (by omega))
    · exact le_rfl

theorem bimWidth_le (n : Nat) : bimWidth n ≤ 64 := (bimWidthFrom_spec n 0 (by decide)).1

theorem lt_two_pow_bimWidth {n v : Nat} (hn : n < 2 ^ 64) (hv : v < n) : v < 2 ^ bimWidth n := by
  rcases (bimWidthFrom_spec n 0 (by decide)).2 with h | h
  · rw [show bimWidth n = 64 from h]
    omega
  · exact lt_of_lt_of_le hv h

/-! ## Errors, C strings -/

/-- `bim_err_t` of a failure. -/
structure BimErr where
  code : String
  msg : List UInt8
deriving DecidableEq

/-- The bytes of a literal text of the source. -/
def text (s : String) : List UInt8 := s.toUTF8.toList

/-- `bim_fail`: `msg` holds 160 bytes with its terminator. -/
def bimFail (code : String) (msg : List UInt8) : BimErr := ⟨code, msg.take 159⟩

/-- A `char *` that is not NULL: the bytes before the terminator. -/
abbrev CStr := { s : List UInt8 // 0 ∉ s }

theorem CStr.zero_notMem_nil : (0 : UInt8) ∉ [] := not_mem_nil

/-- A buffer of bytes seen as a C string. -/
def CStr.ofBytes (data : List UInt8) : CStr :=
  ⟨data.takeWhile (· ≠ 0), fun h => by simpa using mem_takeWhile_imp h⟩

@[simp] theorem CStr.ofBytes_val (s : CStr) : CStr.ofBytes s.val = s := by
  apply Subtype.ext
  show s.val.takeWhile (· ≠ 0) = s.val
  rw [takeWhile_eq_self_iff]
  intro b hb
  have hne : b ≠ 0 := fun h => s.property (h ▸ hb)
  simpa using hne

theorem CStr.length_ofBytes_le (data : List UInt8) : (CStr.ofBytes data).val.length ≤ data.length :=
  (takeWhile_sublist _).length_le

/-! ## Readers -/

/-- A reader on the bits that are left. -/
abbrev Rd (α : Type) := Reader BimErr Bool α

/-- The fixed part of `bim_rd_t`: code of a truncation, syntax structure named in messages. -/
structure RdCtx where
  trunc : String
  what : String

/-- `bim_rd_trunc`. A vluimsbf code that breaks off midway leaves the C reader somewhat further on;
    no caller looks at the position of a truncation. -/
def rdTrunc {α : Type} (x : RdCtx) : Rd α := fun s =>
  .error (bimFail x.trunc (text "bim: " ++ text x.what ++ text " truncated")) s

/-- `bitreader_bits_left`. -/
def rdLeft : Rd Nat := fun s => .ok s.length s

/-- A `bitreader` primitive, with truncation as its only failure. -/
def rdPrim {α : Type} (x : RdCtx) (p : List Bool → Option (α × List Bool)) : Rd α := fun s =>
  match p s with
  | none => rdTrunc x s
  | some (v, s) => .ok v s

/-- `bim_rd_bits`. -/
def rdBits (x : RdCtx) (n : Nat) : Rd Nat := rdPrim x (Stream.get n)

/-- `bim_rd_flag`. -/
def rdFlag (x : RdCtx) : Rd Bool := do
  let v ← rdBits x 1
  return v ≠ 0

/-- `bim_rd_v8`. -/
def rdV8 (x : RdCtx) : Rd Nat := rdPrim x Stream.getVluimsbf8

/-- `bim_rd_v5`. -/
def rdV5 (x : RdCtx) : Rd Nat := rdPrim x Stream.getVluimsbf5

/-- `bim_rd_count`: a count of entries of at least `minBits` each. -/
def rdCount (x : RdCtx) (minBits : Nat) : Rd Nat := do
  let v ← rdV8 x
  let left ← rdLeft
  if minBits ≠ 0 ∧ v > left / minBits then rdTrunc x
  else return v

/-- `bim_rd_bytes`. -/
def rdBytes (x : RdCtx) (n : Nat) : Rd (List UInt8) := do
  let left ← rdLeft
  if n > left / 8 then rdTrunc x
  else rdPrim x (Stream.getBytes n)

/-- `bim_rd_str`: `zero` is the error code where length 0 is forbidden. -/
def rdStr (x : RdCtx) (zero : Option String) (name : String) : Rd CStr := do
  let n ← rdV8 x
  match n, zero with
  | 0, some code => throw (bimFail code (text "bim: " ++ text x.what ++ text " " ++ text name ++ text " zero"))
  | _, _ =>
    let data ← rdBytes x n
    return CStr.ofBytes data

/-- `bim_rd_zero`: `nbits` zero bits, 64 at a time. -/
def rdZero (x : RdCtx) (nbits : Nat) (code : String) : Rd Unit :=
  if _h : nbits = 0 then pure ()
  else do
    let v ← rdBits x (min nbits 64)
    if v ≠ 0 then
      throw (bimFail code (text "bim: " ++ text x.what ++ text " reserved bits not zero"))
    else rdZero x (nbits - min nbits 64) code
termination_by nbits

/-- The loop of `bim_rd_raw`: eight bits a byte, the last byte filled from the top. -/
def rdRawLoop (x : RdCtx) (nbits : Nat) : Rd (List UInt8) :=
  if _h : nbits = 0 then return []
  else do
    let v ← rdBits x (min nbits 8)
    let bytes ← rdRawLoop x (nbits - min nbits 8)
    return UInt8.ofNat (v <<< (8 - min nbits 8)) :: bytes
termination_by nbits

/-- `bim_rd_raw`. -/
def rdRaw (x : RdCtx) (nbits : Nat) : Rd (List UInt8) := do
  let left ← rdLeft
  if nbits > left then rdTrunc x
  else rdRawLoop x nbits

/-- A table: the count of its entries, each of at least `minBits`, then the entries. -/
def rdCounted {α : Type} (x : RdCtx) (minBits : Nat) (p : Nat → Rd α) : Rd (List α) := do
  let n ← rdCount x minBits
  each p 0 n

/-- `bim_ext_t`: ExternallyCastableTypeTable or ExternallySubstitutableElementTable. -/
structure Ext where
  present : Bool := false
  all : Bool := false
  codes : List Nat := []
deriving DecidableEq

/-- The range failure of `bim_rd_ext`. -/
def rdExtRange {α : Type} (x : RdCtx) (range : String) : Rd α :=
  throw (bimFail range (text "bim: " ++ text x.what ++
    text " externally castable/substitutable code out of range"))

/-- `bim_rd_ext`. -/
def rdExt (x : RdCtx) (count : Nat) (range : String) : Rd Ext := do
  let present ← rdFlag x
  if !present then return { present := false }
  else
    let all ← rdFlag x
    if all then return { present := true, all := true }
    else
      let n ← rdV5 x
      let left ← rdLeft
      if n > count ∨ (bimWidth count ≠ 0 ∧ n > left / bimWidth count) then rdExtRange x range
      else
        let codes ← each (fun _ => do
          let c ← rdBits x (bimWidth count)
          if c ≥ count then rdExtRange x range
          else return c) 0 n
        return { present := true, all := false, codes := codes }

/-! ## Writers -/

/-- What a writer appends, or the error it stops with. -/
abbrev Wr := Except BimErr (List Bool)

/-- The code of a table: the count of its entries, then the entries. -/
def tableBits {α : Type} (enc : α → List Bool) (as : List α) : List Bool :=
  vluimsbf8Bits as.length ++ as.flatMap enc

/-- A loop of a writer. -/
def wrEach {α : Type} (w : α → Wr) : List α → Wr
  | [] => return []
  | a :: as => do
    let b ← w a
    let bs ← wrEach w as
    return b ++ bs

/-- An optional part of a writer. -/
def wrIf (present : Bool) (w : Wr) : Wr := if present then w else return []

/-- The code of a string: vluimsbf8 length, then the bytes. -/
def strBits (s : CStr) : List Bool := vluimsbf8Bits s.val.length ++ ofBytes s.val

/-- `bim_wr_str`. -/
def wrStr (zero : Option String) (name : String) (s : CStr) : Wr :=
  match s.val.length, zero with
  | 0, some code => throw (bimFail code (text "bim: " ++ text name ++ text " zero"))
  | _, _ => return strBits s

/-- `bim_wr_bits`: the first `nbits` bits of a byte string. -/
def wrBits : List UInt8 → Nat → List Bool
  | [], _ => []
  | b :: bytes, nbits =>
    if nbits = 0 then []
    else ofNat (min nbits 8) (b.toNat >>> (8 - min nbits 8)) ++ wrBits bytes (nbits - min nbits 8)

/-- `bim_wr_sub`: the bytes of a sub-writer, the last one padded. -/
def wrSub (sub : List Bool) : List Bool := ofBytes (packBytes sub)

/-- The code of an external table whose schema has `count` entries. -/
def extBits (count : Nat) (e : Ext) : List Bool :=
  if !e.present then [false]
  else if e.all then [true, true]
  else [true, false] ++ vluimsbf5Bits e.codes.length ++ e.codes.flatMap (ofNat (bimWidth count))

/-- `bim_wr_ext`. -/
def wrExt (count : Nat) (range : String) (e : Ext) : Wr :=
  if !e.present then return [false]
  else if e.all then return [true, true]
  else do
    let codes ← wrEach (fun c =>
      if c ≥ count then
        throw (bimFail range (text "bim: externally castable/substitutable code out of range"))
      else return ofNat (bimWidth count) c) e.codes
    return [true, false] ++ vluimsbf5Bits e.codes.length ++ codes

/-! ## The readers invert the codes -/

section Inverts

variable {α β : Type} (x : RdCtx)

theorem inverts_rdPrim {p : List Bool → Option (α × List Bool)} {bs : List Bool} {a : α}
    (h : ∀ rest, p (bs ++ rest) = some (a, rest)) : Inverts (rdPrim x p) bs a := by
  intro rest
  rw [rdPrim, h]

variable {v : Nat}

theorem inverts_rdBits {n : Nat} (hv : v < 2 ^ n) : Inverts (rdBits x n) (ofNat n v) v := by
  refine inverts_rdPrim x fun rest => ?_
  rw [Stream.get_ofNat, mod_eq_of_lt hv]

theorem inverts_rdFlag (b : Bool) : Inverts (rdFlag x) [b] b := by
  intro rest
  have hbit : rdBits x 1 ([b] ++ rest) = .ok b.toNat rest := @inverts_rdPrim _ x _ [b] _ (Stream.get_one b) rest
  rw [rdFlag, bind_of_ok hbit]
  cases b <;> rfl

theorem inverts_rdV8 (hv : v < 2 ^ 64) : Inverts (rdV8 x) (vluimsbf8Bits v) v :=
  inverts_rdPrim x (Stream.getVluimsbf8_bits hv)

theorem inverts_rdV5 (hv : v < 2 ^ 64) : Inverts (rdV5 x) (vluimsbf5Bits v) v :=
  inverts_rdPrim x (Stream.getVluimsbf5_bits hv)

variable {minBits : Nat} {rest : List Bool}

/-- A count is accepted when at least `minBits` bits follow for each of its entries. -/
theorem rdCount_bits (hv : v < 2 ^ 64) (hfit : v * minBits ≤ rest.length) :
    rdCount x minBits (vluimsbf8Bits v ++ rest) = .ok v rest := by
  rw [rdCount, bind_of_ok (inverts_rdV8 x hv rest), bind_of_ok (show rdLeft rest = .ok rest.length rest from rfl)]
  have hnot : ¬ (minBits ≠ 0 ∧ v > rest.length / minBits) := by
    rintro ⟨hpos, hgt⟩
    have hdiv := (div_lt_iff_lt_mul (pos_of_ne_zero hpos)).1 hgt
    omega
  rw [if_neg hnot]
  rfl

theorem rdCount_short (hv : v < 2 ^ 64) (hpos : minBits ≠ 0) (hshort : rest.length < v * minBits) :
    rdCount x minBits (vluimsbf8Bits v ++ rest) = rdTrunc x rest := by
  rw [rdCount, bind_of_ok (inverts_rdV8 x hv rest),
    bind_of_ok (show rdLeft rest = .ok rest.length rest from rfl), if_pos]
  exact ⟨hpos, (div_lt_iff_lt_mul (pos_of_ne_zero hpos)).2 hshort⟩

theorem length_flatMap_ge (as : List α) (enc : α → List Bool) (k : Nat)
    (h : ∀ a ∈ as, k ≤ (enc a).length) : as.length * k ≤ (as.flatMap enc).length := by
  induction as with
  | nil => simp
  | cons a as ih =>
    have ha := h a mem_cons_self
    have has := ih fun b hb => h b (mem_cons_of_mem a hb)
    rw [length_cons, flatMap_cons, length_append, succ_mul]
    omega

theorem inverts_rdCounted {p : Nat → Rd α} {enc : α → List Bool} {as : List α} (hlen : as.length < 2 ^ 64)
    (hmin : ∀ a ∈ as, minBits ≤ (enc a).length) (h : ∀ j a, as[j]? = some a → Inverts (p j) (enc a) a) :
    Inverts (rdCounted x minBits p) (tableBits enc as) as := by
  intro rest
  have hfit := length_flatMap_ge as enc minBits hmin
  rw [rdCounted, tableBits, append_assoc, bind_of_ok (rdCount_bits x hlen (by
    rw [length_append]; omega))]
  refine inverts_each as 0 (fun j a ha => ?_) rest
  rw [zero_add]
  exact h j a ha

theorem inverts_rdBytes (data : List UInt8) : Inverts (rdBytes x data.length) (ofBytes data) data := by
  intro rest
  rw [rdBytes, bind_of_ok (show rdLeft _ = .ok _ _ from rfl), if_neg]
  · exact inverts_rdPrim x (Stream.getBytes_ofBytes data) rest
  · rw [length_append, length_ofBytes]
    omega

theorem inverts_rdStr (zero : Option String) (name : String) (s : CStr) (hlen : s.val.length < 2 ^ 64)
    (hzero : zero.isSome → s.val ≠ []) : Inverts (rdStr x zero name) (strBits s) s := by
  refine (inverts_rdV8 x hlen).bind ?_
  have hbytes : Inverts (rdBytes x s.val.length >>= fun data => pure (CStr.ofBytes data))
      (ofBytes s.val) s := by
    have h := (inverts_rdBytes x s.val).map (f := CStr.ofBytes)
    rwa [CStr.ofBytes_val] at h
  split
  · next code h0 => exact absurd (length_eq_zero_iff.1 h0) (hzero rfl)
  · exact hbytes

theorem inverts_rdZero (n : Nat) (code : String) : Inverts (rdZero x n code) (replicate n false) () := by
  induction n using Nat.strongRecOn with
  | ind n ih =>
    rw [rdZero]
    split
    · next h => rw [h]; exact inverts_pure ()
    rename_i h
    have hsplit : replicate n false
        = ofNat (min n 64) 0 ++ replicate (n - min n 64) false := by
      rw [ofNat_eq_replicate, replicate_append_replicate]
      congr 1; omega
    rw [hsplit]
    refine (inverts_rdBits x (Nat.two_pow_pos _)).bind ?_
    exact ih _ (by omega)

theorem inverts_rdRawLoop (bs : List Bool) : Inverts (rdRawLoop x bs.length) bs (packBytes bs) := by
  induction hn : bs.length using Nat.strongRecOn generalizing bs with
  | ind n ih =>
    subst hn
    rw [rdRawLoop]
    split
    · next h =>
      obtain rfl := length_eq_zero_iff.1 h
      rw [packBytes_nil]
      exact inverts_pure []
    rename_i h
    have hne : bs ≠ [] := fun hnil => h (by rw [hnil]; rfl)
    have hlen : (bs.take 8).length = min bs.length 8 := by rw [length_take, min_comm]
    have hdrop : (bs.drop 8).length = bs.length - min bs.length 8 := by rw [length_drop]; omega
    have hhead : Inverts (rdBits x (min bs.length 8)) (bs.take 8) (toNat (bs.take 8)) := by
      refine inverts_rdPrim x fun rest => ?_
      exact Stream.get_append hlen rest
    have htail := ih _ (by rw [length_drop]; omega) (bs.drop 8) rfl
    rw [hdrop] at htail
    have hall := hhead.bind (f := fun v => rdRawLoop x (bs.length - min bs.length 8) >>=
      fun bytes => pure (UInt8.ofNat (v <<< (8 - min bs.length 8)) :: bytes)) htail.map
    rw [take_append_drop] at hall
    rw [packBytes_of_ne_nil hne, packByte, hlen]
    exact hall

theorem inverts_rdRaw (bs : List Bool) : Inverts (rdRaw x bs.length) bs (packBytes bs) := by
  intro rest
  rw [rdRaw, bind_of_ok (show rdLeft _ = .ok _ _ from rfl), if_neg]
  · exact inverts_rdRawLoop x bs rest
  · rw [length_append]
    omega

theorem wrBits_packBytes (bs : List Bool) : wrBits (packBytes bs) bs.length = bs := by
  induction hn : bs.length using Nat.strongRecOn generalizing bs with
  | ind n ih =>
    subst hn
    by_cases hnil : bs = []
    · subst hnil
      rw [packBytes_nil]
      rfl
    have hpos := length_pos_iff.2 hnil
    have hlen : (bs.take 8).length = min bs.length 8 := by rw [length_take, min_comm]
    have hdrop : (bs.drop 8).length = bs.length - min bs.length 8 := by rw [length_drop]; omega
    have hbyte := ofNat_packByte (show (bs.take 8).length ≤ 8 by omega)
    have hhead : ofNat (min bs.length 8) ((packByte (bs.take 8)).toNat >>> (8 - min bs.length 8))
        = bs.take 8 := by
      rw [← take_ofNat, show min bs.length 8 + (8 - min bs.length 8) = 8 by omega, hbyte, ← hlen, take_left]
    have htail := ih _ (by rw [length_drop]; omega) (bs.drop 8) rfl
    rw [hdrop] at htail
    rw [packBytes_of_ne_nil hnil, wrBits, if_neg (by omega), hhead, htail, take_append_drop]

/-- What `bim_rd_ext` accepts: codes only in a table that lists them, all below the count. -/
def Ext.Valid (count : Nat) (e : Ext) : Prop :=
  (e.present = false → e.all = false ∧ e.codes = []) ∧ (e.all = true → e.codes = []) ∧
    e.codes.length ≤ count ∧ ∀ c ∈ e.codes, c < count

theorem inverts_rdExt {count : Nat} (range : String) (hcount : count < 2 ^ 64) {e : Ext}
    (he : e.Valid count) : Inverts (rdExt x count range) (extBits count e) e := by
  obtain ⟨habsent, hall, hlen, hcodes⟩ := he
  obtain ⟨present, all, codes⟩ := e
  cases present with
  | false =>
    obtain ⟨rfl, rfl⟩ := habsent rfl
    intro rest
    show rdExt x count range ([false] ++ rest) = _
    rw [rdExt, bind_of_ok (inverts_rdFlag x false rest)]
    rfl
  | true =>
    cases all with
    | true =>
      obtain rfl : codes = [] := hall rfl
      intro rest
      show rdExt x count range ([true] ++ ([true] ++ rest)) = _
      rw [rdExt, bind_of_ok (inverts_rdFlag x true _), if_neg (by decide), bind_of_ok (inverts_rdFlag x true rest)]
      rfl
    | false =>
      have hlist : Inverts (each (fun _ => do
          let c ← rdBits x (bimWidth count)
          if c ≥ count then rdExtRange x range
          else return c) 0 codes.length) (codes.flatMap (ofNat (bimWidth count))) codes := by
        refine inverts_each codes 0 fun j c hj => ?_
        have hc : c < count := hcodes c (mem_of_getElem? hj)
        intro rest
        rw [bind_of_ok (inverts_rdBits x (lt_two_pow_bimWidth hcount hc) rest), if_neg (by omega)]
        rfl
      have hfit := length_flatMap_ge codes (ofNat (bimWidth count)) (bimWidth count)
        fun c _ => by rw [length_ofNat]
      intro rest
      have hbits : extBits count ⟨true, false, codes⟩ ++ rest = [true] ++ ([false] ++
          (vluimsbf5Bits codes.length ++ (codes.flatMap (ofNat (bimWidth count)) ++ rest))) := by
        simp [extBits]
      rw [hbits, rdExt, bind_of_ok (inverts_rdFlag x true _), if_neg (by decide),
        bind_of_ok (inverts_rdFlag x false _), if_neg (by decide)]
      have hnot : ¬ (codes.length > count ∨ (bimWidth count ≠ 0 ∧ codes.length >
          (codes.flatMap (ofNat (bimWidth count)) ++ rest).length / bimWidth count)) := by
        rintro (h | ⟨hpos, hgt⟩)
        · exact absurd hlen (by simpa using h)
        · have hdiv := (div_lt_iff_lt_mul (pos_of_ne_zero hpos)).1 hgt
          rw [length_append] at hdiv
          omega
      rw [bind_of_ok (inverts_rdV5 x (lt_of_le_of_lt hlen hcount) _),
        bind_of_ok (show rdLeft _ = .ok _ _ from rfl), if_neg hnot, bind_of_ok (hlist rest)]
      rfl

end Inverts

/-! ## What the stream operations accept

A varint may come in more groups than it needs, so a code that is written again never takes more
bits than the one that was read. -/

theorem groupCount_le {step max value k n : Nat} (hn : n ≤ k) (hv : value < 2 ^ (step * k)) :
    groupCount step max value n ≤ k := by
  induction hm : k - n generalizing n with
  | zero =>
    obtain rfl : n = k := by omega
    rw [groupCount, if_neg]
    rintro ⟨-, hne⟩
    exact hne (by rw [shiftRight_eq_div_pow, div_eq_of_lt hv])
  | succ m ih =>
    rw [groupCount]
    split
    · exact ih (by omega) (by omega)
    · exact hn

theorem length_vluimsbf8GroupBits (v k : Nat) : (vluimsbf8GroupBits v k).length = 8 * k := by
  induction k with
  | zero => rfl
  | succ k ih =>
    rw [vluimsbf8GroupBits, length_cons, length_append, length_ofNat, ih]
    omega

theorem length_vluimsbf8Bits (v : Nat) : (vluimsbf8Bits v).length = 8 * vluimsbf8Len v :=
  length_vluimsbf8GroupBits v _

theorem length_vluimsbf5Bits (v : Nat) : (vluimsbf5Bits v).length = 5 * vluimsbf5Len v := by
  have hlen : 1 ≤ vluimsbf5Len v := (groupCount_spec 4 vluimsbf5MaxGroups v 1 (by decide)).1
  rw [vluimsbf5Bits, length_append, length_replicate, length_cons, length_ofNat]
  omega

theorem length_vluimsbf8Bits_pos (v : Nat) : 8 ≤ (vluimsbf8Bits v).length := by
  have hlen : 1 ≤ vluimsbf8Len v := (groupCount_spec 7 vluimsbf8MaxGroups v 1 (by decide)).1
  rw [length_vluimsbf8Bits]
  omega

namespace Stream

variable {n v : Nat} {s s' : List Bool}

theorem of_get_eq_some (h : get n s = some (v, s')) : v < 2 ^ n ∧ s.length = s'.length + n := by
  unfold get at h
  split at h
  · cases h
  rename_i hn
  simp only [some.injEq, Prod.mk.injEq] at h
  obtain ⟨rfl, rfl⟩ := h
  have hlt := toNat_lt (s.take n)
  rw [length_take, Nat.min_eq_left (by omega)] at hlt
  refine ⟨hlt, ?_⟩
  rw [length_drop]
  omega

theorem of_getVluimsbf8Loop_eq_some {acc groups : Nat} (h : getVluimsbf8Loop acc groups s = some (v, s')) :
    ∃ k, 1 ≤ k ∧ s.length = s'.length + 8 * k ∧ v < (acc + 1) * 2 ^ (7 * k) ∧ v < 2 ^ 64 := by
  induction groups generalizing acc s with
  | zero => cases h
  | succ groups ih =>
    rw [getVluimsbf8Loop] at h
    split at h
    · cases h
    rename_i cont s1 h1
    split at h
    · cases h
    rename_i group s2 h7
    obtain ⟨-, hl1⟩ := of_get_eq_some h1
    obtain ⟨hg, hl7⟩ := of_get_eq_some h7
    have hnext : acc <<< 7 ||| group = acc * 2 ^ 7 + group := shiftLeft_or hg
    split at h
    · cases h
    rename_i hover
    rw [not_not, shiftRight_eq_div_pow] at hover
    have hacc : acc < 2 ^ 57 := Nat.lt_of_div_eq_zero (Nat.two_pow_pos _) hover
    split at h
    · simp only [some.injEq, Prod.mk.injEq] at h
      obtain ⟨rfl, rfl⟩ := h
      rw [hnext]
      exact ⟨1, le_rfl, by omega, by omega, by omega⟩
    · obtain ⟨k, hk, hlen, hv, h64⟩ := ih h
      refine ⟨k + 1, by omega, by omega, lt_of_lt_of_le hv ?_, h64⟩
      rw [hnext, show 7 * (k + 1) = 7 + 7 * k by ring, pow_add, ← mul_assoc]
      exact mul_le_mul_right _ (by omega)

theorem of_getVluimsbf8_eq_some (h : getVluimsbf8 s = some (v, s')) :
    v < 2 ^ 64 ∧ (vluimsbf8Bits v).length + s'.length ≤ s.length := by
  obtain ⟨k, hk, hlen, hv, h64⟩ := of_getVluimsbf8Loop_eq_some h
  rw [zero_add, one_mul] at hv
  have hmin : vluimsbf8Len v ≤ k := groupCount_le hk hv
  rw [length_vluimsbf8Bits]
  exact ⟨h64, by omega⟩

theorem of_getVluimsbf5Prefix_eq_some {left m : Nat} (h : getVluimsbf5Prefix n left s = some (m, s')) :
    n < m ∧ m ≤ n + left ∧ s.length = s'.length + (m - n) := by
  induction left generalizing n s with
  | zero => cases h
  | succ left ih =>
    rw [getVluimsbf5Prefix] at h
    split at h
    · cases h
    rename_i bit s1 h1
    obtain ⟨-, hl1⟩ := of_get_eq_some h1
    split at h
    · simp only [some.injEq, Prod.mk.injEq] at h
      obtain ⟨rfl, rfl⟩ := h
      omega
    · have := ih h
      omega

theorem of_getVluimsbf5_eq_some (h : getVluimsbf5 s = some (v, s')) :
    v < 2 ^ 64 ∧ (vluimsbf5Bits v).length + s'.length ≤ s.length := by
  unfold getVluimsbf5 at h
  split at h
  · cases h
  rename_i n s1 hprefix
  obtain ⟨hpos, hmax, hl⟩ := of_getVluimsbf5Prefix_eq_some hprefix
  obtain ⟨hv, hl'⟩ := of_get_eq_some h
  have h16 : n * 4 ≤ 64 := by unfold vluimsbf5MaxGroups at hmax; omega
  have hmin : vluimsbf5Len v ≤ n := groupCount_le (by omega) (by rwa [mul_comm])
  refine ⟨lt_of_lt_of_le hv (Nat.pow_le_pow_right (by decide) h16), ?_⟩
  rw [length_vluimsbf5Bits]
  omega

theorem of_getBytes_eq_some {out : List UInt8}
    (h : getBytes n s = some (out, s')) : out.length = n ∧ s.length = s'.length + 8 * n := by
  induction n generalizing s out with
  | zero =>
    simp only [getBytes, some.injEq, Prod.mk.injEq] at h
    obtain ⟨rfl, rfl⟩ := h
    exact ⟨rfl, rfl⟩
  | succ n ih =>
    rw [getBytes] at h
    split at h
    · cases h
    rename_i c s1 h8
    split at h
    · cases h
    rename_i out' s2 hrec
    simp only [some.injEq, Prod.mk.injEq] at h
    obtain ⟨rfl, rfl⟩ := h
    obtain ⟨-, hl⟩ := of_get_eq_some h8
    obtain ⟨hlen, hl'⟩ := ih hrec
    exact ⟨by rw [length_cons, hlen], by omega⟩

end Stream

/-! ## What the readers accept -/

section Yields

variable {α : Type} (x : RdCtx) {Q : α → Nat → Prop}

theorem yields_rdTrunc : Yields (rdTrunc x : Rd α) Q := by
  intro s a s' h
  cases h

theorem yields_rdLeft : Yields rdLeft fun _ m => m = 0 := yields_peek fun _ => rfl

theorem yields_rdPrim {p : List Bool → Option (α × List Bool)}
    (h : ∀ s a s', p s = some (a, s') → s'.length ≤ s.length ∧ Q a (s.length - s'.length)) :
    Yields (rdPrim x p) Q := by
  intro s a s' ha
  unfold rdPrim at ha
  split at ha
  · cases ha
  · next v s1 hp =>
    obtain ⟨rfl, rfl⟩ := EStateM.Result.ok.inj ha
    exact h s v s1 hp

theorem yields_rdBits (n : Nat) : Yields (rdBits x n) fun v m => v < 2 ^ n ∧ m = n := by
  refine yields_rdPrim x fun s v s' h => ?_
  obtain ⟨hv, hlen⟩ := Stream.of_get_eq_some h
  exact ⟨by omega, hv, by omega⟩

theorem yields_rdFlag : Yields (rdFlag x) fun _ m => m = 1 := by
  refine (yields_rdBits x 1).bind ?_
  rintro v m ⟨-, rfl⟩
  exact yields_pure rfl

theorem yields_rdV8 : Yields (rdV8 x) fun v m => v < 2 ^ 64 ∧ (vluimsbf8Bits v).length ≤ m := by
  refine yields_rdPrim x fun s v s' h => ?_
  obtain ⟨hv, hlen⟩ := Stream.of_getVluimsbf8_eq_some h
  exact ⟨by omega, hv, by omega⟩

theorem yields_rdV5 : Yields (rdV5 x) fun v m => v < 2 ^ 64 ∧ (vluimsbf5Bits v).length ≤ m := by
  refine yields_rdPrim x fun s v s' h => ?_
  obtain ⟨hv, hlen⟩ := Stream.of_getVluimsbf5_eq_some h
  exact ⟨by omega, hv, by omega⟩

theorem yields_rdCount (minBits : Nat) :
    Yields (rdCount x minBits) fun v m => v < 2 ^ 64 ∧ (vluimsbf8Bits v).length ≤ m := by
  refine (yields_rdV8 x).bind ?_
  rintro v m ⟨hv, hm⟩
  refine yields_rdLeft.bind ?_
  rintro left k rfl
  split
  · exact yields_rdTrunc x
  · exact yields_pure ⟨hv, hm⟩

variable {p : Nat → Rd α} {P : Nat → α → Prop}

theorem yields_rdCounted {enc : α → List Bool}
    (minBits : Nat) (h : ∀ j, Yields (p j) fun a m => P j a ∧ (enc a).length ≤ m) :
    Yields (rdCounted x minBits p) fun as m => as.length < 2 ^ 64 ∧ (∀ j a, as[j]? = some a → P j a) ∧
      (tableBits enc as).length ≤ m := by
  refine (yields_rdCount x minBits).bind ?_
  rintro n m ⟨hn, hm⟩
  refine (yields_each 0 n h).mono ?_
  rintro as k ⟨rfl, hall, hsum⟩
  refine ⟨hn, fun j a ha => ?_, ?_⟩
  · have := hall j a ha
    rwa [zero_add] at this
  · rw [tableBits, length_append, length_flatMap]
    omega

theorem yields_table (minBits : Nat) (h : ∀ j, Yields (p j) fun a _ => P j a) :
    Yields (rdCounted x minBits p) fun as _ => as.length < 2 ^ 64 ∧ ∀ j a, as[j]? = some a → P j a := by
  have hzero : ∀ j, Yields (p j) fun a m => P j a ∧ ((fun _ => []) a : List Bool).length ≤ m :=
    fun j => (h j).mono fun a m ha => ⟨ha, zero_le m⟩
  refine (yields_rdCounted x minBits hzero).mono ?_
  rintro as m ⟨hlen, hall, -⟩
  exact ⟨hlen, hall⟩

theorem yields_rdBytes (n : Nat) : Yields (rdBytes x n) fun data m => data.length = n ∧ m = 8 * n := by
  refine yields_rdLeft.bind ?_
  rintro left k rfl
  split
  · exact yields_rdTrunc x
  · refine yields_rdPrim x fun s data s' h => ?_
    obtain ⟨hlen, hl⟩ := Stream.of_getBytes_eq_some h
    exact ⟨by omega, hlen, by omega⟩

theorem yields_rdStr (zero : Option String) (name : String) :
    Yields (rdStr x zero name) fun s m => s.val.length < 2 ^ 64 ∧ (strBits s).length ≤ m := by
  refine (yields_rdV8 x).bind ?_
  rintro n m ⟨hn, hm⟩
  split
  · exact yields_throw
  refine (yields_rdBytes x n).bind ?_
  rintro data k ⟨hlen, rfl⟩
  have hle : (CStr.ofBytes data).val.length ≤ n := hlen ▸ CStr.length_ofBytes_le data
  have hcount : (vluimsbf8Bits (CStr.ofBytes data).val.length).length
      ≤ (vluimsbf8Bits n).length := by
    rw [length_vluimsbf8Bits, length_vluimsbf8Bits]
    obtain ⟨h1, -, h2⟩ := vluimsbf8Len_spec hn
    exact mul_le_mul_left 8 (groupCount_le h1 (lt_of_le_of_lt hle h2))
  refine yields_pure ⟨by omega, ?_⟩
  rw [strBits, length_append, length_ofBytes]
  omega

theorem yields_rdZero (n : Nat) (code : String) : Yields (rdZero x n code) fun _ m => m = n := by
  induction n using Nat.strongRecOn with
  | ind n ih =>
    rw [rdZero]
    split
    · next h => exact yields_pure h.symm
    rename_i h
    refine (yields_rdBits x _).bind ?_
    rintro v m ⟨-, rfl⟩
    split
    · exact yields_throw
    · refine (ih _ (by omega)).mono ?_
      rintro - k rfl
      omega

theorem yields_rdRawLoop (n : Nat) : Yields (rdRawLoop x n) fun data m =>
    m = n ∧ ∃ bs : List Bool, bs.length = n ∧ data = packBytes bs := by
  induction n using Nat.strongRecOn with
  | ind n ih =>
    rw [rdRawLoop]
    split
    · next h => exact yields_pure ⟨h.symm, [], h.symm, packBytes_nil.symm⟩
    rename_i h
    refine (yields_rdBits x _).bind ?_
    rintro v m ⟨hv, rfl⟩
    refine (ih _ (by omega)).bind ?_
    rintro data k ⟨rfl, bs, hbs, rfl⟩
    refine yields_pure ⟨by omega, ofNat (min n 8) v ++ bs, ?_, ?_⟩
    · rw [length_append, length_ofNat, hbs]
      omega
    have hne : ofNat (min n 8) v ++ bs ≠ [] := by
      intro hnil
      have := congrArg length hnil
      rw [length_append, length_ofNat, length_nil] at this
      omega
    -- a short last chunk leaves nothing behind it
    by_cases h8 : n < 8
    · have hnil : bs = [] := length_eq_zero_iff.1 (by omega)
      subst hnil
      rw [append_nil] at hne ⊢
      rw [packBytes_of_ne_nil hne, take_of_length_le (by rw [length_ofNat]; omega),
        drop_of_length_le (by rw [length_ofNat]; omega), packByte, toNat_ofNat, length_ofNat, mod_eq_of_lt hv]
    · have h8' : min n 8 = 8 := by omega
      rw [h8'] at hv hne ⊢
      rw [packBytes_of_ne_nil hne, take_left' (length_ofNat 8 v),
        drop_left' (length_ofNat 8 v), packByte, toNat_ofNat, length_ofNat, mod_eq_of_lt hv]

theorem yields_rdRaw (n : Nat) : Yields (rdRaw x n) fun data m =>
    m = n ∧ ∃ bs : List Bool, bs.length = n ∧ data = packBytes bs := by
  refine yields_rdLeft.bind ?_
  rintro left k rfl
  split
  · exact yields_rdTrunc x
  · refine (yields_rdRawLoop x n).mono ?_
    intro data m h
    rwa [zero_add]

theorem yields_rdExt (count : Nat) (range : String) : Yields (rdExt x count range) fun e _ => e.Valid count := by
  refine (yields_rdFlag x).bind ?_
  rintro present m -
  split
  · exact yields_pure ⟨fun _ => ⟨rfl, rfl⟩, fun _ => rfl, zero_le _, by simp⟩
  refine (yields_rdFlag x).bind ?_
  rintro all k -
  split
  · exact yields_pure ⟨nofun, fun _ => rfl, zero_le _, by simp⟩
  refine (yields_rdV5 x).bind ?_
  rintro n k' -
  refine yields_rdLeft.bind ?_
  rintro left k'' -
  split
  · exact yields_throw
  rename_i hnot
  have hcode : ∀ j : Nat, Yields ((fun _ => do
      let c ← rdBits x (bimWidth count)
      if c ≥ count then rdExtRange x range
      else return c : Nat → Rd Nat) j) fun c m => c < count ∧ (fun _ => 0) c ≤ m := by
    intro j
    refine (yields_rdBits x _).bind ?_
    rintro c m -
    split
    · exact yields_throw
    · next hc => exact yields_pure ⟨by omega, zero_le _⟩
  refine (yields_each 0 n hcode).bind ?_
  rintro codes m ⟨rfl, hall, -⟩
  refine yields_pure ⟨fun h => Bool.noConfusion h, Bool.noConfusion, ?_, ?_⟩
  · exact not_lt.1 fun h => hnot (.inl h)
  · intro c hc
    obtain ⟨j, hj⟩ := mem_iff_getElem?.1 hc
    exact hall j c hj

end Yields

/-! ## The writers produce the codes -/

section Writers

variable {α : Type}

theorem Wr.ok_of_bind {ε β : Type} {w : Except ε α} {f : α → Except ε β} {b : β}
    (h : (w >>= f) = .ok b) : ∃ a, w = .ok a ∧ f a = .ok b := by
  cases w with
  | ok a => exact ⟨a, rfl, h⟩
  | error e => cases h

variable {w : α → Wr} {as : List α}

theorem wrEach_eq {enc : α → List Bool} (h : ∀ a ∈ as, w a = .ok (enc a)) : wrEach w as = .ok (as.flatMap enc) := by
  induction as with
  | nil => rfl
  | cons a as ih =>
    rw [wrEach, h a mem_cons_self, ih fun b hb => h b (mem_cons_of_mem a hb)]
    rfl

variable {bs : List Bool}

theorem of_wrEach (h : wrEach w as = .ok bs) : ∀ a ∈ as, ∃ cs, w a = .ok cs := by
  induction as generalizing bs with
  | nil =>
    intro a ha
    cases ha
  | cons a as ih =>
    obtain ⟨b, hb, h⟩ := Wr.ok_of_bind h
    obtain ⟨c, hc, -⟩ := Wr.ok_of_bind h
    intro a' ha'
    rcases mem_cons.1 ha' with rfl | hmem
    · exact ⟨b, hb⟩
    · exact ih hc a' hmem

variable {name : String}

theorem wrStr_eq {zero : Option String} {s : CStr}
    (h : zero.isSome → s.val ≠ []) : wrStr zero name s = .ok (strBits s) := by
  unfold wrStr
  split
  · next code h0 => exact absurd (length_eq_zero_iff.1 h0) (h rfl)
  · rfl

theorem of_wrStr {code : String} {s : CStr} (h : wrStr (some code) name s = .ok bs) : s.val ≠ [] := by
  intro hnil
  unfold wrStr at h
  split at h
  · cases h
  · next hne => exact hne code (by rw [hnil]; rfl) rfl

theorem wrExt_eq {count : Nat} (range : String) {e : Ext} (he : e.Valid count) :
    wrExt count range e = .ok (extBits count e) := by
  obtain ⟨present, all, codes⟩ := e
  cases present with
  | false => rfl
  | true =>
    cases all with
    | true => rfl
    | false =>
      have hcodes : wrEach (fun c =>
          if c ≥ count then
            throw (bimFail range (text "bim: externally castable/substitutable code out of range"))
          else return ofNat (bimWidth count) c) codes
          = .ok (codes.flatMap (ofNat (bimWidth count))) := by
        refine wrEach_eq fun c hc => ?_
        rw [if_neg (not_le.2 (he.2.2.2 c hc))]
        rfl
      show (wrEach _ codes >>= fun cs => _) = _
      rw [hcodes]
      rfl

end Writers

end DvbIpiTools.Bim
