import DvbIpiTools.Helper.BeUtil
import Mathlib

set_option autoImplicit false

/-! # Client frames of a WebSocket (`ws/ws_frame.c`)

A buffer is the list of its bytes in use; a function that would read behind them, or write behind the room there is,
is none. A word is loaded and stored in either byte order. -/

namespace DvbIpiTools.Ws

open BeUtil List

/-! ## Unmasking -/

/-- The word that `memcpy` loads from bytes. -/
def loadWord (big : Bool) (bytes : List UInt8) : Nat := beGet (if big then bytes else bytes.reverse) 0 bytes.length

/-- The `n` bytes that `memcpy` stores of a word. -/
def storeWord (big : Bool) (n word : Nat) : List UInt8 := if big then bePut n word else (bePut n word).reverse

/-- The loop of `ws_unmask` over words of eight bytes, and the one over the rest, which begins at `i`. -/
def unmaskFrom (big : Bool) (mword : Nat) (mask : List UInt8) : Nat → Nat → List UInt8 → List UInt8
  | 0, i, body => body.mapIdx fun j b => b ^^^ mask.getD ((i + j) % 4) 0
  | words + 1, i, body =>
    storeWord big 8 (loadWord big (body.take 8) ^^^ mword) ++ unmaskFrom big mword mask words (i + 8) (body.drop 8)

def wsUnmask (big : Bool) (body mask : List UInt8) : List UInt8 :=
  let m32 := loadWord big mask
  unmaskFrom big (m32 ||| m32 <<< 32) mask (body.length / 8) 0 body

/-! ## The parser -/

def wsMaxMessageLen : Nat := 1 <<< 20

def opContinuation : Nat := 0x0
def opText : Nat := 0x1
def opBinary : Nat := 0x2
def opClose : Nat := 0x8
def opPing : Nat := 0x9
def opPong : Nat := 0xA

/-- The size of `ctrl_payload`. -/
def ctrlPayloadCap : Nat := 125

/-- `ws_parser_t`. -/
structure Parser where
  buf : List UInt8 := []
  off : Nat := 0
  cap : Nat := 0
  msg : List UInt8 := []
  msgCap : Nat := 0
  msgOpcode : Nat := 0
  haveMsgOpcode : Bool := false
  ctrlPayload : List UInt8 := []

/-- `buf_reserve`: the capacity after it; none without memory. -/
def bufReserve (oom : Bool) (cap need : Nat) : Option Nat :=
  if need ≤ cap then some cap
  else if oom then none
  else some (max (if cap ≠ 0 then cap * 2 else 256) need)

def wsParserInit (oom : Bool) : Parser := { cap := (bufReserve oom 0 256).getD 0, msgCap := (bufReserve oom 0 256).getD 0 }

/-- `ws_parser_feed`: what it returns, and the parser. -/
def wsParserFeed (oom : Bool) (p : Parser) (data : List UInt8) : Option (Bool × Parser) :=
  let p := if p.off ≠ 0 then { p with buf := p.buf.drop p.off, off := 0 } else p
  match bufReserve oom p.cap (p.buf.length + data.length) with
  | none => some (false, p)
  | some cap =>
    if p.buf.length + data.length ≤ cap then some (true, { p with buf := p.buf ++ data, cap }) else none

def consume (p : Parser) (n : Nat) : Parser :=
  if p.off + n = p.buf.length then { p with off := 0, buf := [] } else { p with off := p.off + n }

/-- `n` bytes from `i` on. -/
def bytesAt (b : List UInt8) (i n : Nat) : Option (List UInt8) :=
  if i + n ≤ b.length then some ((b.drop i).take n) else none

/-- What a call of `ws_parser_next` returns. -/
inductive Ret
  | none
  | error
  | got (opcode : Nat) (payload : List UInt8)

/-- How a round of the loop of `ws_parser_next` ends. -/
inductive Round
  | ret (r : Ret)
  | again

/-- A control frame. -/
def isControl (op : Nat) : Bool := op = opClose || op = opPing || op = opPong

/-- The length of the payload and where the mask is; none in the inner option when they are not all there. -/
def payloadLen (b : List UInt8) (b1 : UInt8) : Option (Option (Nat × Nat)) :=
  let plen := (b1 &&& 0x7F).toNat
  if plen = 126 then
    if b.length < 4 then some none
    else do
      let bytes ← bytesAt b 2 2
      some (some (beGet bytes 0 2, 4))
  else if plen = 127 then
    if b.length < 10 then some none
    else do
      let bytes ← bytesAt b 2 8
      some (some (beGet bytes 0 8, 10))
  else some (some (plen, 2))

/-- A data frame begins a message or goes on with one; none when it may not. -/
def startMessage (p : Parser) (op : Nat) : Option Parser :=
  if op = opText ∨ op = opBinary then
    if p.haveMsgOpcode then none else some { p with msg := [], msgOpcode := op, haveMsgOpcode := true }
  else if op = opContinuation then
    if p.haveMsgOpcode then some p else none
  else none

/-- The body of a data frame is put behind what there is of the message. -/
def addFragment (big oom : Bool) (p : Parser) (fin : Bool) (mask body : List UInt8) (need : Nat) :
    Option (Round × Parser) :=
  if p.msg.length + body.length > wsMaxMessageLen then some (.ret .error, p)
  else match bufReserve oom p.msgCap (p.msg.length + body.length) with
    | none => some (.ret .error, p)
    | some msgCap =>
      if p.msg.length + body.length ≤ msgCap then
        let p := consume { p with msg := p.msg ++ wsUnmask big body mask, msgCap } need
        if fin then some (.ret (.got p.msgOpcode p.msg), { p with haveMsgOpcode := false })
        else some (.again, p)
      else none

/-- The part of a round behind the checks of the header: the frame is all there. -/
def takeFrame (big oom : Bool) (p : Parser) (fin : Bool) (op : Nat) (mask body : List UInt8) (need : Nat) :
    Option (Round × Parser) :=
  if isControl op then
    if body.length ≤ ctrlPayloadCap then
      some (.ret (.got op (wsUnmask big body mask)), consume { p with ctrlPayload := wsUnmask big body mask } need)
    else none
  else match startMessage p op with
    | none => some (.ret .error, p)
    | some p => addFragment big oom p fin mask body need

/-- One round of the loop of `ws_parser_next`. -/
def round (big oom : Bool) (p : Parser) : Option (Round × Parser) :=
  let b := p.buf.drop p.off
  if b.length < 2 then some (.ret .none, p)
  else do
    let b0 ← b[0]?
    if b0 &&& 0x70 ≠ 0 then some (.ret .error, p)
    else do
      let fin : Bool := b0 &&& 0x80 ≠ 0
      let op := (b0 &&& 0x0F).toNat
      let b1 ← b[1]?
      match ← payloadLen b b1 with
      | none => some (.ret .none, p)
      | some (plen, hdr) =>
        if b1 &&& 0x80 = 0 then some (.ret .error, p)
        else if isControl op ∧ (plen > 125 ∨ ¬ fin) then some (.ret .error, p)
        else if plen > wsMaxMessageLen then some (.ret .error, p)
        else if b.length < hdr + 4 + plen then some (.ret .none, p)
        else do
          let mask ← bytesAt b hdr 4
          let body ← bytesAt b (hdr + 4) plen
          takeFrame big oom p fin op mask body (hdr + 4 + plen)

/-- The loop of `ws_parser_next`; none also when `fuel` rounds are not enough. -/
def nextLoop (big oom : Bool) : Nat → Parser → Option (Ret × Parser)
  | 0, _ => none
  | fuel + 1, p =>
    match round big oom p with
    | none => none
    | some (.ret r, p) => some (r, p)
    | some (.again, p) => nextLoop big oom fuel p

def wsParserNext (big oom : Bool) (p : Parser) : Option (Ret × Parser) := nextLoop big oom (p.buf.length + 1) p

/-! ## Words and bytes -/

theorem bePut_xor (n a b : Nat) : bePut n (a ^^^ b) = List.zipWith (· ^^^ ·) (bePut n a) (bePut n b) := by
  induction n with
  | zero => rfl
  | succ n ih =>
    have hbyte : UInt8.ofNat ((a ^^^ b) >>> (8 * n)) = UInt8.ofNat (a >>> (8 * n)) ^^^ UInt8.ofNat (b >>> (8 * n)) := by
      rw [Nat.shiftRight_xor_distrib, UInt8.ofNat_xor]
    rw [bePut, bePut, bePut, zipWith_cons_cons, hbyte, ih]

variable (big : Bool)

theorem storeWord_xor (n a b : Nat) :
    storeWord big n (a ^^^ b) = List.zipWith (· ^^^ ·) (storeWord big n a) (storeWord big n b) := by
  cases big
  · show (bePut n (a ^^^ b)).reverse = _
    rw [bePut_xor]
    exact reverse_zipWith (by rw [length_bePut, length_bePut])
  · exact bePut_xor n a b

theorem storeWord_loadWord (bytes : List UInt8) : storeWord big bytes.length (loadWord big bytes) = bytes := by
  have hput : ∀ l : List UInt8, bePut l.length (beGet l 0 l.length) = l := fun l => by
    rw [bePut_beGet (le_of_eq (zero_add _)), drop_zero, take_length]
  cases big
  · have hrev := hput bytes.reverse
    rw [length_reverse] at hrev
    show (bePut bytes.length (beGet bytes.reverse 0 bytes.length)).reverse = bytes
    rw [hrev, reverse_reverse]
  · exact hput bytes

theorem bePut_twice {m : Nat} (hm : m < 2 ^ 32) : bePut 8 (m ||| m <<< 32) = bePut 4 m ++ bePut 4 m := by
  have hword : m ||| m <<< 32 = m * 256 ^ 4 + m := by
    rw [Nat.or_comm, ← Nat.shiftLeft_add_eq_or_of_lt hm, Nat.shiftLeft_eq]
    norm_num
  have hbyte : ∀ i, i < 4 → UInt8.ofNat ((m * 256 ^ 4 + m) >>> (8 * (4 + i))) = UInt8.ofNat (m >>> (8 * i)) := by
    intro i hi
    rw [mul_add, Nat.shiftRight_add]
    have hhalf : (m * 256 ^ 4 + m) >>> (8 * 4) = m := by omega
    rw [hhalf]
  have hlow : bePut 4 (m * 256 ^ 4 + m) = bePut 4 m := bePut_add 4 m m
  rw [hword]
  show UInt8.ofNat _ :: UInt8.ofNat _ :: UInt8.ofNat _ :: UInt8.ofNat _ :: bePut 4 (m * 256 ^ 4 + m) = _
  rw [hlow, hbyte 3 (by decide), hbyte 2 (by decide), hbyte 1 (by decide), hbyte 0 (by decide)]
  rfl

variable {mask : List UInt8}

theorem storeWord_mask (hmask : mask.length = 4) :
    storeWord big 8 (loadWord big mask ||| loadWord big mask <<< 32) = mask ++ mask := by
  have hlt : loadWord big mask < 2 ^ 32 := by
    have := beGet_lt (if big then mask else mask.reverse) 0 mask.length
    rw [hmask] at this
    unfold loadWord
    rw [hmask]
    exact this
  have hback := storeWord_loadWord big mask
  rw [hmask] at hback
  unfold storeWord at hback ⊢
  rw [bePut_twice hlt]
  cases big
  · rw [if_neg Bool.false_ne_true] at hback ⊢
    rw [reverse_append, hback]
  · rw [if_pos rfl] at hback ⊢
    rw [hback]

/-- The unmasking of a body byte by byte. -/
def unmaskBytes (mask body : List UInt8) : List UInt8 := body.mapIdx fun j b => b ^^^ mask.getD (j % 4) 0

theorem zipWith_mask {body : List UInt8} (hmask : mask.length = 4) (hbody : body.length = 8) :
    List.zipWith (· ^^^ ·) body (mask ++ mask) = unmaskBytes mask body := by
  obtain ⟨m0, m1, m2, m3, rfl⟩ := length_eq_four.1 hmask
  rcases body with _ | ⟨b0, _ | ⟨b1, _ | ⟨b2, _ | ⟨b3, body⟩⟩⟩⟩
  iterate 4 cases hbody
  rcases body with _ | ⟨b4, _ | ⟨b5, _ | ⟨b6, _ | ⟨b7, body⟩⟩⟩⟩
  iterate 4 cases hbody
  obtain rfl : body = [] := eq_nil_of_length_eq_zero (by simpa using hbody)
  simp [unmaskBytes]

theorem unmaskFrom_eq (big : Bool) {mask : List UInt8} (hmask : mask.length = 4) {words i : Nat} (hi : i % 4 = 0)
    {body : List UInt8} (hlen : words * 8 ≤ body.length) :
    unmaskFrom big (loadWord big mask ||| loadWord big mask <<< 32) mask words i body = unmaskBytes mask body := by
  have hshift : ∀ j, (i + j) % 4 = j % 4 := fun j => by omega
  induction words generalizing i body with
  | zero =>
    unfold unmaskFrom unmaskBytes
    simp only [hshift]
  | succ words ih =>
    have htake : (body.take 8).length = 8 := by
      rw [length_take]
      omega
    have hload := storeWord_loadWord big (body.take 8)
    rw [htake] at hload
    have hrest := @ih (i + 8) (by omega) (body.drop 8) (by rw [length_drop]; omega) (fun j => by omega)
    rw [unmaskFrom, storeWord_xor, hload, storeWord_mask big hmask, hrest, zipWith_mask hmask htake]
    conv_rhs => rw [← take_append_drop 8 body]
    unfold unmaskBytes
    have hround : (fun (j : Nat) (b : UInt8) => b ^^^ mask.getD ((j + 8) % 4) 0) =
        fun j b => b ^^^ mask.getD (j % 4) 0 := by
      funext j b
      rw [show (j + 8) % 4 = j % 4 by omega]
    rw [mapIdx_append, htake, hround]

theorem wsUnmask_eq (hmask : mask.length = 4) (body : List UInt8) : wsUnmask big body mask = unmaskBytes mask body :=
  unmaskFrom_eq big hmask rfl (Nat.div_mul_le_self _ _)

end DvbIpiTools.Ws
