import DvbIpiTools.Dipixy.WsFrame

set_option autoImplicit false

/-! # Messages out of client frames

A client sends frames; what they mean depends on the message that is unfinished before them. However the bytes are cut
into calls, the parser delivers what the frames mean, and reports the first frame that means nothing. -/

namespace DvbIpiTools.Ws

open BeUtil List Option Nat

/-! ## Frames on the wire -/

/-- The three encodings of a length. -/
inductive LenForm
  | short
  | medium
  | long

/-- What a length field can hold. -/
def LenForm.Holds : LenForm → Nat → Prop
  | .short, n => n ≤ 125
  | .medium, n => n < 2 ^ 16
  | .long, n => n < 2 ^ 64

/-- A frame as any client may send it. -/
structure Frame where
  fin : Bool
  rsv : Fin 8
  op : Fin 16
  masked : Bool
  form : LenForm
  mask : List UInt8
  mask_length : mask.length = 4
  payload : List UInt8
  holds : form.Holds payload.length

namespace Frame

def firstByte (f : Frame) : UInt8 := (if f.fin then 0x80 else 0) ||| .ofNat (f.rsv.val <<< 4) ||| .ofNat f.op.val

/-- The seven bits of the length, and what follows them. -/
def lenBits (f : Frame) : Nat × List UInt8 :=
  match f.form with
  | .short => (f.payload.length, [])
  | .medium => (126, bePut 2 f.payload.length)
  | .long => (127, bePut 8 f.payload.length)

def secondByte (f : Frame) : UInt8 := (if f.masked then 0x80 else 0) ||| .ofNat f.lenBits.1

/-- The header up to the mask. -/
def head (f : Frame) : List UInt8 := f.firstByte :: f.secondByte :: f.lenBits.2

/-- The bytes of a frame. -/
def bytes (f : Frame) : List UInt8 :=
  f.head ++ if f.masked then f.mask ++ unmaskBytes f.mask f.payload else f.payload

end Frame

/-- A message that is not finished: its opcode and its bytes so far. -/
abbrev Unfinished := Option (Nat × List UInt8)

/-- A frame that a conforming client does not send when `cur` is unfinished. -/
def Frame.Bad (f : Frame) (cur : Unfinished) : Prop := f.rsv ≠ 0 ∨ f.masked = false ∨
    if isControl f.op then ¬ f.fin ∨ 125 < f.payload.length
    else if f.op = opText ∨ f.op = opBinary then cur.isSome ∨ wsMaxMessageLen < f.payload.length
    else if f.op = opContinuation then match cur with
      | none => True
      | some (_, acc) => wsMaxMessageLen < acc.length + f.payload.length
    else True

/-- What one good frame does: the message that is unfinished after it, and what is complete. -/
def Frame.effect (f : Frame) (cur : Unfinished) : Unfinished × Option (Nat × List UInt8) :=
  if isControl f.op then (cur, some (f.op, f.payload))
  else
    let (op, acc) := if f.op = opContinuation then cur.getD (0, []) else (f.op.val, [])
    if f.fin then (none, some (op, acc ++ f.payload)) else (some (op, acc ++ f.payload), none)

/-- `Sends cur frames items cur'`: frames of a conforming client from one unfinished message to another, and the
    messages and control payloads that they complete. -/
inductive Sends : Unfinished → List Frame → List (Nat × List UInt8) → Unfinished → Prop
  | nil (cur : Unfinished) : Sends cur [] [] cur
  | cons {cur cur' : Unfinished} {f : Frame} {fs : List Frame} {items : List (Nat × List UInt8)} (hf : ¬ f.Bad cur)
      (h : Sends (f.effect cur).1 fs items cur') : Sends cur (f :: fs) ((f.effect cur).2.toList ++ items) cur'

/-! ## Reading a frame -/

theorem unmaskBytes_twice (mask body : List UInt8) : unmaskBytes mask (unmaskBytes mask body) = body := by
  unfold unmaskBytes
  apply ext_getElem?
  intro i
  rw [getElem?_mapIdx, getElem?_mapIdx, Option.map_map]
  cases body[i]? with
  | none => rfl
  | some x => simp

@[simp] theorem length_unmaskBytes (mask body : List UInt8) : (unmaskBytes mask body).length = body.length :=
  length_mapIdx

theorem firstByte_bits (f : Frame) :
    (f.firstByte &&& 0x70 ≠ 0 ↔ f.rsv ≠ 0) ∧ (f.firstByte &&& 0x80 ≠ 0 ↔ f.fin = true) ∧
      (f.firstByte &&& 0x0F).toNat = f.op := by
  have hall : ∀ (fin : Bool) (rsv : Fin 8) (op : Fin 16),
      let b : UInt8 := (if fin then 0x80 else 0) ||| .ofNat (rsv.val <<< 4) ||| .ofNat op.val
      (b &&& 0x70 ≠ 0 ↔ rsv ≠ 0) ∧ (b &&& 0x80 ≠ 0 ↔ fin = true) ∧ (b &&& 0x0F).toNat = op := by
    decide +kernel
  exact hall f.fin f.rsv f.op

theorem lenBits_lt (f : Frame) : f.lenBits.1 < 128 := by
  have hholds := f.holds
  unfold Frame.lenBits
  cases hform : f.form
  · rw [hform] at hholds
    exact lt_of_le_of_lt hholds (by decide)
  · exact (by decide : 126 < 128)
  · exact (by decide : 127 < 128)

theorem secondByte_bits (f : Frame) :
    (f.secondByte &&& 0x80 = 0 ↔ f.masked = false) ∧ (f.secondByte &&& 0x7F).toNat = f.lenBits.1 := by
  have hall : ∀ masked : Bool, ∀ n < 128, let b : UInt8 := (if masked then 0x80 else 0) ||| .ofNat n
      (b &&& 0x80 = 0 ↔ masked = false) ∧ (b &&& 0x7F).toNat = n := by
    decide +kernel
  exact hall f.masked _ (lenBits_lt f)

/-- The bytes that are fed and not consumed. -/
def Parser.unread (p : Parser) : List UInt8 := p.buf.drop p.off

theorem bytesAt_field {b stream : List UInt8} (hb : b <+: stream) {a field rest : List UInt8}
    (hstream : stream = a ++ (field ++ rest)) (hlen : a.length + field.length ≤ b.length) :
    bytesAt b a.length field.length = some field := by
  obtain ⟨more, rfl⟩ := hb
  have htake : (b.drop a.length).take field.length = field := by
    have hdrop : (b ++ more).drop a.length = field ++ rest := by rw [hstream, drop_left]
    rw [drop_append_of_le_length (by omega)] at hdrop
    rw [← @List.take_append_of_le_length _ _ more _ (by rw [length_drop]; omega), hdrop, take_left]
  rw [bytesAt, if_pos hlen, htake]

theorem head_length (f : Frame) : f.head.length = 2 + f.lenBits.2.length := by
  simp only [Frame.head, length_cons]
  omega

variable {tail : List UInt8}

theorem payloadLen_eq (f : Frame) {b : List UInt8} (hb : b <+: f.bytes ++ tail) (h2 : 2 ≤ b.length) :
    payloadLen b f.secondByte =
      some (if b.length < f.head.length then none else some (f.payload.length, f.head.length)) := by
  have hbits := (secondByte_bits f).2
  have hholds := f.holds
  have hstream : f.bytes ++ tail = [f.firstByte, f.secondByte] ++ (f.lenBits.2 ++
      ((if f.masked then f.mask ++ unmaskBytes f.mask f.payload else f.payload) ++ tail)) := by
    simp only [Frame.bytes, Frame.head, cons_append, nil_append, append_assoc]
  have hfield := fun h => bytesAt_field hb hstream h
  rw [head_length]
  unfold payloadLen
  simp only [hbits]
  unfold Frame.lenBits at hfield ⊢
  cases hform : f.form with
  | short =>
    rw [hform] at hholds
    have hle : f.payload.length ≤ 125 := hholds
    simp only
    rw [if_neg (by omega), if_neg (by omega), if_neg (show ¬ b.length < 2 + [].length from not_lt.2 h2)]
    rfl
  | medium =>
    rw [hform] at hholds
    have hlt : f.payload.length < 2 ^ 16 := hholds
    simp only [hform, length_bePut] at hfield ⊢
    rw [if_pos trivial]
    by_cases hmore : b.length < 4
    · rw [if_pos hmore, if_pos hmore]
    have hget := beGet_bePut 2 f.payload.length []
    rw [append_nil, mod_eq_of_lt (by omega)] at hget
    rw [if_neg hmore, if_neg hmore]
    have hbytes := hfield (by simp only [length_cons, length_nil]; omega)
    simp only [length_cons, length_nil] at hbytes
    simp [hbytes, hget]
  | long =>
    rw [hform] at hholds
    have hlt : f.payload.length < 2 ^ 64 := hholds
    simp only [hform, length_bePut] at hfield ⊢
    rw [if_neg (by decide), if_pos trivial]
    by_cases hmore : b.length < 10
    · rw [if_pos hmore, if_pos hmore]
    have hget := beGet_bePut 8 f.payload.length []
    rw [append_nil, mod_eq_of_lt (by omega)] at hget
    rw [if_neg hmore, if_neg hmore]
    have hbytes := hfield (by simp only [length_cons, length_nil]; omega)
    simp only [length_cons, length_nil] at hbytes
    simp [hbytes, hget]

/-- A header that is refused whatever came before. -/
def Frame.BadHead (f : Frame) : Prop :=
  f.rsv ≠ 0 ∨ f.masked = false ∨ isControl f.op = true ∧ (125 < f.payload.length ∨ ¬ f.fin) ∨
    wsMaxMessageLen < f.payload.length

instance (f : Frame) : Decidable f.BadHead := by unfold Frame.BadHead; infer_instance

variable {p : Parser}

/-- What a round does when a frame is next: it waits, refuses the header or takes the frame. -/
theorem round_frame (big oom : Bool) (f : Frame) (hb : p.unread <+: f.bytes ++ tail) :
    (p.unread.length < f.bytes.length ∧ round big oom p = some (.ret .none, p)) ∨
    (f.BadHead ∧ round big oom p = some (.ret .error, p)) ∨ (¬ f.BadHead ∧ f.bytes.length ≤ p.unread.length ∧
      round big oom p = takeFrame big oom p f.fin f.op f.mask (unmaskBytes f.mask f.payload) f.bytes.length) := by
  obtain ⟨hrsv, hfin, hop⟩ := firstByte_bits f
  obtain ⟨hmasked, hlow⟩ := secondByte_bits f
  have hheadlen := head_length f
  have hlen : f.bytes.length = f.head.length + (if f.masked then 4 else 0) + f.payload.length := by
    unfold Frame.bytes
    cases f.masked
    · simp
    · simp only [if_true, length_append, f.mask_length, length_unmaskBytes]
      omega
  unfold round
  generalize hunread : p.buf.drop p.off = b
  have hunread' : p.unread = b := hunread
  rw [hunread'] at hb ⊢
  by_cases h2 : b.length < 2
  · left
    rw [if_pos h2]
    exact ⟨by omega, rfl⟩
  have h0 : b[0]? = some f.firstByte := by
    obtain ⟨more, hmore⟩ := hb
    have : (b ++ more)[0]? = some f.firstByte := by rw [hmore]; rfl
    rwa [getElem?_append_left (by omega)] at this
  have h1 : b[1]? = some f.secondByte := by
    obtain ⟨more, hmore⟩ := hb
    have : (b ++ more)[1]? = some f.secondByte := by rw [hmore]; rfl
    rwa [getElem?_append_left (by omega)] at this
  have hfinb : decide (f.firstByte &&& 0x80 ≠ 0) = f.fin := by cases hf : f.fin <;> simp [hfin, hf]
  rw [if_neg h2, h0]
  simp only [bind_eq_bind, bind_some, hop, hfinb, hrsv]
  by_cases hr : f.rsv ≠ 0
  · rw [if_pos hr]
    exact .inr (.inl ⟨.inl hr, rfl⟩)
  rw [if_neg hr, h1]
  simp only [bind_some, payloadLen_eq f hb (not_lt.1 h2), hmasked]
  by_cases hhead : b.length < f.head.length
  · rw [if_pos hhead]
    exact .inl ⟨by omega, rfl⟩
  rw [if_neg hhead]
  simp only
  by_cases hm : f.masked = false
  · rw [if_pos hm]
    exact .inr (.inl ⟨.inr (.inl hm), rfl⟩)
  rw [if_neg hm]
  by_cases hc : isControl f.op = true ∧ (125 < f.payload.length ∨ ¬ f.fin)
  · rw [if_pos hc]
    exact .inr (.inl ⟨.inr (.inr (.inl hc)), rfl⟩)
  rw [if_neg hc]
  by_cases hmax : wsMaxMessageLen < f.payload.length
  · rw [if_pos hmax]
    exact .inr (.inl ⟨.inr (.inr (.inr hmax)), rfl⟩)
  rw [if_neg hmax]
  have hgood : ¬ f.BadHead := by
    rintro (h | h | h | h)
    · exact hr h
    · exact hm h
    · exact hc h
    · exact hmax h
  rw [Bool.not_eq_false] at hm
  rw [if_pos hm] at hlen
  have hneed : f.head.length + 4 + f.payload.length = f.bytes.length := hlen.symm
  by_cases hall : b.length < f.head.length + 4 + f.payload.length
  · rw [if_pos hall]
    exact .inl ⟨by omega, rfl⟩
  -- the frame is all there
  have hstream : f.bytes ++ tail = f.head ++ (f.mask ++ (unmaskBytes f.mask f.payload ++ tail)) := by
    simp only [Frame.bytes, hm, if_true, append_assoc]
  have hmask := bytesAt_field hb hstream (by rw [f.mask_length]; omega)
  have hbody := bytesAt_field hb (hstream.trans (append_assoc f.head f.mask _).symm)
    (by rw [length_append, f.mask_length, length_unmaskBytes]; omega)
  rw [f.mask_length] at hmask
  rw [length_append, f.mask_length, length_unmaskBytes] at hbody
  rw [if_neg hall, hmask, bind_some, hbody, bind_some, hneed]
  exact .inr (.inr ⟨hgood, by omega, rfl⟩)

/-! ## Taking a frame -/

/-- What always holds of a parser: the buffers hold what is in them. -/
structure Parser.Ok (p : Parser) : Prop where
  off : p.off ≤ p.buf.length
  cap : p.buf.length ≤ p.cap
  msg : p.msg.length ≤ p.msgCap

/-- The message that is not finished. -/
def Parser.cur (p : Parser) : Unfinished := if p.haveMsgOpcode then some (p.msgOpcode, p.msg) else none

theorem bufReserve_le {oom : Bool} {cap need cap' : Nat} (h : bufReserve oom cap need = some cap') : need ≤ cap' := by
  unfold bufReserve at h
  split at h
  · cases h
    assumption
  · split at h
    · cases h
    · cases h
      exact le_max_right _ _

theorem bufReserve_memory (cap need : Nat) : ∃ cap', bufReserve false cap need = some cap' := by
  unfold bufReserve
  split <;> exact ⟨_, rfl⟩

theorem consume_unread (n : Nat) : (consume p n).unread = p.unread.drop n := by
  unfold consume Parser.unread
  split
  · next h => rw [drop_drop, h, drop_length, drop_nil]
  · rw [drop_drop]

theorem consume_ok {p : Parser} (h : p.Ok) {n : Nat} (hn : n ≤ p.unread.length) : (consume p n).Ok := by
  have hoff := h.off
  rw [Parser.unread, length_drop] at hn
  unfold consume
  split
  · exact ⟨le_refl _, zero_le _, h.msg⟩
  · exact ⟨by show p.off + n ≤ p.buf.length; omega, h.cap, h.msg⟩

theorem consume_cur (p : Parser) (n : Nat) : (consume p n).cur = p.cur := by
  unfold consume
  split <;> rfl

theorem addFragment_good (big : Bool) {p : Parser} (hp : p.Ok) (hhave : p.haveMsgOpcode = true) (f : Frame)
    (hmax : p.msg.length + f.payload.length ≤ wsMaxMessageLen) (hall : f.bytes.length ≤ p.unread.length) :
    ∃ p', addFragment big false p f.fin f.mask (unmaskBytes f.mask f.payload) f.bytes.length =
        some (if f.fin then .ret (.got p.msgOpcode (p.msg ++ f.payload)) else .again, p') ∧
      p'.Ok ∧ p'.cur = (if f.fin then none else some (p.msgOpcode, p.msg ++ f.payload)) ∧
      p'.unread = p.unread.drop f.bytes.length := by
  obtain ⟨cap, hcap⟩ := bufReserve_memory p.msgCap (p.msg.length + f.payload.length)
  have hle := bufReserve_le hcap
  unfold addFragment
  rw [wsUnmask_eq big f.mask_length, unmaskBytes_twice, length_unmaskBytes, if_neg (not_lt.2 hmax), hcap]
  simp only [if_pos hle]
  generalize hq : ({ p with msg := p.msg ++ f.payload, msgCap := cap } : Parser) = q
  have hqok : q.Ok := by
    rw [← hq]
    exact ⟨hp.off, hp.cap, by rw [length_append]; exact hle⟩
  have hqunread : q.unread = p.unread := by rw [← hq]; rfl
  have hmsg : (consume q f.bytes.length).msg = p.msg ++ f.payload ∧
      (consume q f.bytes.length).msgOpcode = p.msgOpcode := by
    rw [← hq]
    unfold consume
    split <;> exact ⟨rfl, rfl⟩
  have hok := @consume_ok q hqok f.bytes.length (by rw [hqunread]; exact hall)
  have hunread : (consume q f.bytes.length).unread = p.unread.drop f.bytes.length := by rw [consume_unread, hqunread]
  cases f.fin
  · refine ⟨_, rfl, hok, ?_, hunread⟩
    rw [consume_cur, ← hq]
    unfold Parser.cur
    simp [hhave]
  · refine ⟨{ consume q f.bytes.length with haveMsgOpcode := false }, ?_, ⟨hok.off, hok.cap, hok.msg⟩, rfl, hunread⟩
    rw [if_pos rfl, if_pos rfl, ← hmsg.1, ← hmsg.2]

theorem isControl_data {op : Nat} (h : op = opText ∨ op = opBinary) : op ≠ opContinuation := by
  rcases h with rfl | rfl <;> decide

variable {f : Frame} (big : Bool)

theorem takeFrame_good (hp : p.Ok) (hf : ¬ f.Bad p.cur) (hall : f.bytes.length ≤ p.unread.length) :
    ∃ r p', takeFrame big false p f.fin f.op f.mask (unmaskBytes f.mask f.payload) f.bytes.length = some (r, p') ∧
      (r = match (f.effect p.cur).2 with
        | some item => .ret (.got item.1 item.2)
        | none => .again) ∧ p'.Ok ∧ p'.cur = (f.effect p.cur).1 ∧ p'.unread = p.unread.drop f.bytes.length := by
  unfold Frame.Bad at hf
  simp only [not_or] at hf
  obtain ⟨-, -, hf⟩ := hf
  unfold takeFrame Frame.effect
  by_cases hc : isControl f.op = true
  · rw [if_pos hc] at hf ⊢
    simp only [not_or, not_not, not_lt] at hf
    rw [wsUnmask_eq big f.mask_length, unmaskBytes_twice, length_unmaskBytes, if_pos hc,
      if_pos (show f.payload.length ≤ ctrlPayloadCap from hf.2)]
    have hok := @consume_ok { p with ctrlPayload := f.payload } ⟨hp.off, hp.cap, hp.msg⟩ f.bytes.length hall
    exact ⟨_, _, rfl, rfl, hok, consume_cur _ _, consume_unread _⟩
  rw [if_neg hc] at hf ⊢
  rw [if_neg hc]
  by_cases hdata : f.op.val = opText ∨ f.op.val = opBinary
  · -- the first frame of a message
    rw [if_pos hdata] at hf
    simp only [not_or, not_lt] at hf
    have hhave : p.haveMsgOpcode = false := by
      cases hh : p.haveMsgOpcode
      · rfl
      · exact absurd (by rw [Parser.cur, hh]; rfl) hf.1
    simp only [startMessage, if_pos hdata, hhave, Bool.false_eq_true, if_false, if_neg (isControl_data hdata)]
    obtain ⟨p', htake, hok, hcur, hunread⟩ := @addFragment_good big
      { p with msg := [], msgOpcode := f.op, haveMsgOpcode := true } ⟨hp.off, hp.cap, zero_le _⟩ rfl f
      (by simpa using hf.2) hall
    refine ⟨_, p', htake, ?_, hok, ?_, hunread⟩
    · cases f.fin <;> rfl
    · rw [hcur]
      cases f.fin <;> rfl
  · rw [if_neg hdata] at hf
    by_cases hcont : f.op.val = opContinuation
    · -- more of a message
      rw [if_pos hcont] at hf
      cases hhave : p.haveMsgOpcode with
      | false =>
        rw [Parser.cur, hhave] at hf
        exact absurd trivial hf
      | true =>
        have hcur : p.cur = some (p.msgOpcode, p.msg) := by rw [Parser.cur, hhave]; rfl
        rw [hcur] at hf
        simp only [not_lt] at hf
        simp only [startMessage, if_neg hdata, if_pos hcont, hhave, if_true, hcur, getD_some]
        obtain ⟨p', htake, hok, hcur', hunread⟩ := addFragment_good big hp hhave f hf hall
        refine ⟨_, p', htake, ?_, hok, ?_, hunread⟩
        · cases f.fin <;> rfl
        · rw [hcur']
          cases f.fin <;> rfl
    · rw [if_neg hcont] at hf
      exact absurd trivial hf

theorem takeFrame_bad (hf : f.Bad p.cur) (hhead : ¬ f.BadHead) (need : Nat) :
    takeFrame big false p f.fin f.op f.mask (unmaskBytes f.mask f.payload) need = some (.ret .error, p) := by
  unfold Frame.BadHead at hhead
  simp only [not_or] at hhead
  obtain ⟨hrsv, hmasked, hcontrol, hmax⟩ := hhead
  rcases hf with hf | hf | hf
  · exact absurd hf hrsv
  · exact absurd hf hmasked
  · unfold takeFrame
    by_cases hc : isControl f.op = true
    · rw [if_pos hc] at hf
      exact absurd ⟨hc, hf.symm⟩ hcontrol
    rw [if_neg hc] at hf ⊢
    unfold startMessage
    by_cases hdata : f.op.val = opText ∨ f.op.val = opBinary
    · rw [if_pos hdata] at hf ⊢
      rcases hf with hf | hf
      · have hhave : p.haveMsgOpcode = true := by
          unfold Parser.cur at hf
          split at hf
          · assumption
          · cases hf
        rw [if_pos hhave]
      · exact absurd hf hmax
    rw [if_neg hdata] at hf ⊢
    by_cases hcont : f.op.val = opContinuation
    · rw [if_pos hcont] at hf ⊢
      cases hhave : p.haveMsgOpcode with
      | false => rfl
      | true =>
        rw [Parser.cur, hhave] at hf
        simp only [if_true, addFragment, length_unmaskBytes, if_pos (show _ > _ from hf)]
    · rw [if_neg hcont]

/-! ## A call of `ws_parser_next` -/

/-- What may follow the frames that a conforming client sends: nothing, or a frame that it does not send. -/
def TailOk (cur : Unfinished) (tail : List UInt8) : Prop :=
  tail = [] ∨ ∃ (f : Frame) (rest : List UInt8), f.Bad cur ∧ tail = f.bytes ++ rest

/-- The parser stands before `frames`, which complete `items`; of their bytes and the tail, `future` is not fed yet. -/
structure Ready (p : Parser) (future : List UInt8) (frames : List Frame) (items : List (Nat × List UInt8))
    (cur : Unfinished) (tail : List UInt8) : Prop where
  ok : p.Ok
  sends : Sends p.cur frames items cur
  bytes : p.unread ++ future = frames.flatMap Frame.bytes ++ tail
  tail : TailOk cur tail

theorem bytes_length (f : Frame) : 2 ≤ f.bytes.length := by
  rw [Frame.bytes, length_append, head_length]
  omega

theorem Frame.BadHead.bad (h : f.BadHead) (cur : Unfinished) : f.Bad cur := by
  unfold Frame.Bad
  rcases h with h | h | ⟨hc, h⟩ | h
  · exact .inl h
  · exact .inr (.inl h)
  · rw [if_pos hc]
    exact .inr (.inr h.symm)
  · right
    right
    split
    · exact .inr (lt_trans (by decide) h)
    split
    · exact .inr h
    · split
      · split
        · trivial
        · exact lt_of_lt_of_le h (le_add_left _ _)
      · trivial

variable {frames : List Frame} {items : List (Nat × List UInt8)} {cur : Unfinished} {future : List UInt8}

/-- What a call returns: nothing while bytes are missing, an error at the bad frame, or the next item. -/
theorem nextLoop_ready {fuel : Nat} (h : Ready p future frames items cur tail) (hfuel : p.unread.length < fuel) :
    ∃ r p', nextLoop big false fuel p = some (r, p') ∧ match r with
      | .none => (∃ frames', Ready p' future frames' items cur tail) ∧ (future = [] → items = [] ∧ tail = [])
      | .error => (∃ frames', Ready p' future frames' items cur tail) ∧ items = [] ∧ tail ≠ []
      | .got op payload => ∃ items' frames', items = (op, payload) :: items' ∧ Ready p' future frames' items' cur tail := by
  induction fuel generalizing p frames items with
  | zero => exact absurd hfuel (not_lt_zero _)
  | succ fuel ih =>
    obtain ⟨hok, hsends, hbytes, htail⟩ := h
    rw [nextLoop]
    cases hsends with
    | nil =>
      rcases htail with rfl | ⟨f, rest, hbad, rfl⟩
      · -- nothing is left
        have hnil : p.unread = [] := (append_eq_nil_iff.1 hbytes).1
        have hround : round big false p = some (.ret .none, p) := by
          unfold round
          rw [if_pos (by rw [show p.buf.drop p.off = [] from hnil]; decide)]
        rw [hround]
        exact ⟨_, _, rfl, ⟨[], hok, .nil _, hbytes, .inl rfl⟩, fun _ => ⟨rfl, rfl⟩⟩
      -- the bad frame
      have hready : Ready p future [] [] p.cur (f.bytes ++ rest) := ⟨hok, .nil _, hbytes, .inr ⟨f, rest, hbad, rfl⟩⟩
      have hpos := bytes_length f
      have hne : f.bytes ++ rest ≠ [] := fun hnil => by
        rw [(append_eq_nil_iff.1 hnil).1] at hpos
        cases hpos
      rcases round_frame big false f ⟨future, hbytes⟩ with ⟨hlt, hr⟩ | ⟨-, hr⟩ | ⟨hhead, hall, hr⟩
      · rw [hr]
        refine ⟨_, _, rfl, ⟨[], hready⟩, ?_⟩
        rintro rfl
        have hlen := congrArg length hbytes
        simp only [append_nil, flatMap_nil, nil_append, length_append] at hlen
        omega
      · rw [hr]
        exact ⟨_, _, rfl, ⟨[], hready⟩, rfl, hne⟩
      · rw [hr, takeFrame_bad big hbad hhead]
        exact ⟨_, _, rfl, ⟨[], hready⟩, rfl, hne⟩
    | @cons _ _ f fs items hf hrest =>
      have hstream : p.unread ++ future = f.bytes ++ (fs.flatMap Frame.bytes ++ tail) := by
        rw [hbytes, flatMap_cons, append_assoc]
      have hready : Ready p future (f :: fs) ((f.effect p.cur).2.toList ++ items) cur tail :=
        ⟨hok, .cons hf hrest, hbytes, htail⟩
      have hpos := bytes_length f
      rcases round_frame big false f ⟨future, hstream⟩ with ⟨hlt, hr⟩ | ⟨hhead, -⟩ | ⟨-, hall, hr⟩
      · rw [hr]
        refine ⟨_, _, rfl, ⟨_, hready⟩, ?_⟩
        rintro rfl
        have hlen := congrArg length hstream
        simp only [append_nil, length_append] at hlen
        omega
      · exact absurd (hhead.bad _) hf
      · obtain ⟨r, p', htake, hres, hok', hcur, hunread⟩ := takeFrame_good big hok hf hall
        have hbytes' : p'.unread ++ future = fs.flatMap Frame.bytes ++ tail := by
          rw [hunread, ← drop_append_of_le_length hall, hstream, drop_left]
        have hready' : Ready p' future fs items cur tail := ⟨hok', by rw [hcur]; exact hrest, hbytes', htail⟩
        rw [hr, htake, hres]
        cases heff : (f.effect p.cur).2 with
        | some item => exact ⟨_, p', rfl, items, fs, rfl, hready'⟩
        | none =>
          refine ih hready' ?_
          rw [hunread, length_drop]
          omega

/-! ## Any bytes -/

theorem bytesAt_isSome {b : List UInt8} {i n : Nat} (h : i + n ≤ b.length) : ∃ l, bytesAt b i n = some l ∧ l.length = n := by
  refine ⟨_, if_pos h, ?_⟩
  rw [length_take, length_drop]
  omega

theorem payloadLen_isSome (b : List UInt8) (b1 : UInt8) : ∃ l, payloadLen b b1 = some l := by
  unfold payloadLen
  simp only
  split
  · split
    · exact ⟨_, rfl⟩
    · obtain ⟨l, hl, -⟩ := @bytesAt_isSome b 2 2 (by omega)
      rw [hl]
      exact ⟨_, rfl⟩
  split
  · split
    · exact ⟨_, rfl⟩
    · obtain ⟨l, hl, -⟩ := @bytesAt_isSome b 2 8 (by omega)
      rw [hl]
      exact ⟨_, rfl⟩
  · exact ⟨_, rfl⟩

theorem startMessage_ok {q : Parser} (hp : p.Ok) {op : Nat} (h : startMessage p op = some q) :
    q.Ok ∧ q.unread = p.unread := by
  unfold startMessage at h
  split at h
  · split at h <;> cases h
    exact ⟨⟨hp.off, hp.cap, zero_le _⟩, rfl⟩
  · split at h
    · split at h <;> cases h
      exact ⟨hp, rfl⟩
    · cases h

theorem addFragment_ok (big oom : Bool) {p : Parser} (hp : p.Ok) (fin : Bool) (mask body : List UInt8) {need : Nat}
    (hmask : mask.length = 4) (hneed : need ≤ p.unread.length) (hpos : 0 < need) :
    ∃ r p', addFragment big oom p fin mask body need = some (r, p') ∧ p'.Ok ∧
      (r = .again → p'.unread.length < p.unread.length) := by
  unfold addFragment
  split
  · exact ⟨_, _, rfl, hp, nofun⟩
  split
  · exact ⟨_, _, rfl, hp, nofun⟩
  rename_i cap hcap
  have hle := bufReserve_le hcap
  rw [if_pos hle]
  have hlen : (wsUnmask big body mask).length = body.length := by rw [wsUnmask_eq big hmask, length_unmaskBytes]
  have hok := @consume_ok { p with msg := p.msg ++ wsUnmask big body mask, msgCap := cap }
    ⟨hp.off, hp.cap, by rw [length_append, hlen]; exact hle⟩ need hneed
  split
  · exact ⟨_, _, rfl, ⟨hok.off, hok.cap, hok.msg⟩, nofun⟩
  · refine ⟨_, _, rfl, hok, fun _ => ?_⟩
    rw [consume_unread, length_drop]
    show p.unread.length - need < _
    omega

/-- A round reads and writes where it may, and takes bytes if another follows. -/
theorem round_ok (big oom : Bool) (hp : p.Ok) :
    ∃ r p', round big oom p = some (r, p') ∧ p'.Ok ∧ (r = .again → p'.unread.length < p.unread.length) := by
  have hunread : p.buf.drop p.off = p.unread := rfl
  unfold round
  rw [hunread]
  simp only
  split
  · exact ⟨_, _, rfl, hp, nofun⟩
  rename_i h2
  rw [getElem?_eq_getElem (show 0 < p.unread.length by omega), getElem?_eq_getElem (show 1 < p.unread.length by omega)]
  simp only [bind_eq_bind, bind_some]
  split
  · exact ⟨_, _, rfl, hp, nofun⟩
  obtain ⟨l, hl⟩ := payloadLen_isSome p.unread p.unread[1]
  rw [hl, bind_some]
  rcases l with _ | ⟨plen, hdr⟩
  · exact ⟨_, _, rfl, hp, nofun⟩
  simp only
  split
  · exact ⟨_, _, rfl, hp, nofun⟩
  split
  · exact ⟨_, _, rfl, hp, nofun⟩
  rename_i hcontrol
  split
  · exact ⟨_, _, rfl, hp, nofun⟩
  split
  · exact ⟨_, _, rfl, hp, nofun⟩
  rename_i hall
  obtain ⟨mask, hmask, hmlen⟩ := @bytesAt_isSome p.unread hdr 4 (by omega)
  obtain ⟨body, hbody, hblen⟩ := @bytesAt_isSome p.unread (hdr + 4) plen (by omega)
  rw [hmask, bind_some, hbody, bind_some]
  unfold takeFrame
  split
  · next hc =>
    have h125 : body.length ≤ ctrlPayloadCap := by
      rw [hblen]
      exact not_lt.1 fun hlt => hcontrol ⟨hc, .inl hlt⟩
    rw [if_pos h125]
    have hok := @consume_ok { p with ctrlPayload := wsUnmask big body mask } ⟨hp.off, hp.cap, hp.msg⟩
      (hdr + 4 + plen) (not_lt.1 hall)
    exact ⟨_, _, rfl, hok, nofun⟩
  split
  · exact ⟨_, _, rfl, hp, nofun⟩
  rename_i q hq
  obtain ⟨hqok, hqunread⟩ := startMessage_ok hp hq
  obtain ⟨r, p', hr, hok, hless⟩ := @addFragment_ok big oom q hqok (decide (p.unread[0] &&& 0x80 ≠ 0))
    mask body (hdr + 4 + plen) hmlen (by rw [hqunread]; omega) (by omega)
  rw [hqunread] at hless
  exact ⟨r, p', hr, hok, hless⟩

theorem nextLoop_ok (big oom : Bool) {fuel : Nat} (hp : p.Ok) (hfuel : p.unread.length < fuel) :
    ∃ r p', nextLoop big oom fuel p = some (r, p') ∧ p'.Ok := by
  induction fuel generalizing p with
  | zero => exact absurd hfuel (not_lt_zero _)
  | succ fuel ih =>
    obtain ⟨r, p', hr, hok, hless⟩ := round_ok big oom hp
    rw [nextLoop, hr]
    cases r with
    | ret r => exact ⟨r, p', rfl, hok⟩
    | again =>
      have hlt := hless rfl
      exact ih hok (by omega)

theorem unread_length_le (p : Parser) : p.unread.length ≤ p.buf.length := by
  rw [Parser.unread, length_drop]
  exact sub_le _ _

theorem wsParserNext_ok (big oom : Bool) (hp : p.Ok) : ∃ r p', wsParserNext big oom p = some (r, p') ∧ p'.Ok :=
  nextLoop_ok big oom hp (lt_succ_of_le (unread_length_le p))

theorem wsParserFeed_ok (oom : Bool) (hp : p.Ok) (data : List UInt8) :
    ∃ ok p', wsParserFeed oom p data = some (ok, p') ∧ p'.Ok ∧
      (oom = false → p'.cur = p.cur ∧ p'.unread = p.unread ++ data) := by
  generalize hq : (if p.off ≠ 0 then { p with buf := p.buf.drop p.off, off := 0 } else p) = q
  have hqs : q.Ok ∧ q.off = 0 ∧ q.buf = p.unread ∧ q.cur = p.cur := by
    rw [← hq]
    split
    · refine ⟨⟨zero_le _, ?_, hp.msg⟩, rfl, rfl, rfl⟩
      exact le_trans (unread_length_le p) hp.cap
    · next h =>
      have hoff : p.off = 0 := not_not.1 h
      refine ⟨hp, hoff, ?_, rfl⟩
      rw [Parser.unread, hoff, drop_zero]
  obtain ⟨hqok, hqoff, hqbuf, hqcur⟩ := hqs
  unfold wsParserFeed
  simp only [hq]
  split
  · next hnone =>
    refine ⟨_, _, rfl, hqok, ?_⟩
    rintro rfl
    obtain ⟨cap, hcap⟩ := bufReserve_memory q.cap (q.buf.length + data.length)
    rw [hcap] at hnone
    cases hnone
  rename_i cap hcap
  have hle := bufReserve_le hcap
  rw [if_pos hle]
  refine ⟨_, _, rfl, ⟨?_, ?_, hqok.msg⟩, fun _ => ⟨hqcur, ?_⟩⟩
  · rw [hqoff]
    exact zero_le _
  · rw [length_append]
    exact hle
  · show (q.buf ++ data).drop q.off = _
    rw [hqoff, hqbuf, drop_zero]

/-! ## Calls -/

/-- The calls of the server; `oom` when the call gets no memory. -/
inductive Call
  | feed (oom : Bool) (data : List UInt8)
  | next (oom : Bool)

/-- The call gets the memory it asks for. -/
def Call.HasMemory : Call → Prop
  | .feed oom _ => oom = false
  | .next oom => oom = false

/-- The bytes that a call feeds. -/
def Call.data : Call → List UInt8
  | .feed _ data => data
  | .next _ => []

/-- Calls one after the other, and what those of `ws_parser_next` return. -/
def runCalls (big : Bool) : Parser → List Call → Option (List Ret × Parser)
  | p, [] => some ([], p)
  | p, .feed oom data :: calls =>
    match wsParserFeed oom p data with
    | none => none
    | some (_, p) => runCalls big p calls
  | p, .next oom :: calls =>
    match wsParserNext big oom p with
    | none => none
    | some (r, p) =>
      match runCalls big p calls with
      | none => none
      | some (rs, p) => some (r :: rs, p)

/-- What a call of `ws_parser_next` delivers. -/
def Ret.item : Ret → Option (Nat × List UInt8)
  | .got op payload => some (op, payload)
  | .none => .none
  | .error => .none

theorem runCalls_ok (calls : List Call) (hp : p.Ok) : ∃ rs p', runCalls big p calls = some (rs, p') := by
  induction calls generalizing p with
  | nil => exact ⟨_, _, rfl⟩
  | cons c calls ih =>
    cases c with
    | feed oom data =>
      obtain ⟨ok, p', hfeed, hok, -⟩ := wsParserFeed_ok oom hp data
      rw [runCalls, hfeed]
      exact ih hok
    | next oom =>
      obtain ⟨r, p', hnext, hok⟩ := wsParserNext_ok big oom hp
      obtain ⟨rs, q, hrs⟩ := ih hok
      rw [runCalls, hnext]
      exact ⟨r :: rs, q, by simp only [hrs]⟩

theorem wsParserInit_ok (oom : Bool) : (wsParserInit oom).Ok := ⟨le_refl _, zero_le _, zero_le _⟩

/-- Calls with memory deliver what their bytes mean, and what is left is ready for the rest. -/
theorem runCalls_ready {calls : List Call} (hmem : ∀ c ∈ calls, c.HasMemory)
    (h : Ready p (calls.flatMap Call.data ++ future) frames items cur tail) :
    ∃ rs p' frames' items', runCalls big p calls = some (rs, p') ∧ items = rs.filterMap Ret.item ++ items' ∧
      Ready p' future frames' items' cur tail ∧ (tail = [] → Ret.error ∉ rs) := by
  induction calls generalizing p frames items with
  | nil => exact ⟨[], p, frames, items, rfl, rfl, h, fun _ => not_mem_nil⟩
  | cons c calls ih =>
    have hrest : ∀ c ∈ calls, c.HasMemory := fun c hc => hmem c (.tail _ hc)
    have hthis := hmem c mem_cons_self
    cases c with
    | feed oom data =>
      obtain ⟨ok, p', hfeed, hok, hkeep⟩ := wsParserFeed_ok oom h.ok data
      obtain ⟨hcur, hunread⟩ := hkeep hthis
      have hready : Ready p' (calls.flatMap Call.data ++ future) frames items cur tail := by
        refine ⟨hok, by rw [hcur]; exact h.sends, ?_, h.tail⟩
        rw [hunread, append_assoc, ← h.bytes, flatMap_cons, append_assoc]
        rfl
      rw [runCalls, hfeed]
      exact ih hrest hready
    | next oom =>
      obtain rfl : oom = false := hthis
      obtain ⟨r, p', hnext, hres⟩ := nextLoop_ready big h (lt_succ_of_le (unread_length_le p))
      have hnext' : wsParserNext big false p = some (r, p') := hnext
      -- whatever is returned, the parser stands before what is left of the items
      have hleft : ∃ frames' items', items = (Ret.item r).toList ++ items' ∧
          Ready p' (calls.flatMap Call.data ++ future) frames' items' cur tail ∧ (tail = [] → r ≠ .error) := by
        cases r with
        | none =>
          obtain ⟨⟨frames', hready⟩, -⟩ := hres
          exact ⟨frames', items, rfl, hready, nofun⟩
        | error =>
          obtain ⟨⟨frames', hready⟩, -, hne⟩ := hres
          exact ⟨frames', items, rfl, hready, fun hnil => absurd hnil hne⟩
        | got op payload =>
          obtain ⟨items', frames', heq, hready⟩ := hres
          exact ⟨frames', items', heq, hready, nofun⟩
      obtain ⟨frames', items', heq, hready, hne⟩ := hleft
      obtain ⟨rs, q, frames'', items'', hrs, heq', hready', hnoerr⟩ := ih hrest hready
      refine ⟨r :: rs, q, frames'', items'', ?_, ?_, hready', ?_⟩
      · simp only [runCalls, hnext', hrs]
      · rw [heq, heq', ← append_assoc]
        cases hr : Ret.item r <;> simp [hr]
      · intro hnil hmemr
        rcases mem_cons.1 hmemr with hr | hr
        · exact hne hnil hr.symm
        · exact hnoerr hnil hr

/-- Enough calls of `ws_parser_next` at the end deliver all, and come to the error if there is one. -/
theorem runCalls_drain {n : Nat} (h : Ready p [] frames items cur tail) (hn : items.length < n) :
    ∃ rs p', runCalls big p (replicate n (.next false)) = some (rs, p') ∧ rs.filterMap Ret.item = items ∧
      rs.getLast? = some (if tail = [] then .none else .error) ∧ (tail = [] → Ret.error ∉ rs) := by
  induction n generalizing p frames items with
  | zero => exact absurd hn (not_lt_zero _)
  | succ n ih =>
    obtain ⟨r, p', hnext, hres⟩ := nextLoop_ready big h (lt_succ_of_le (unread_length_le p))
    have hnext' : wsParserNext big false p = some (r, p') := hnext
    rw [replicate_succ]
    simp only [runCalls, hnext']
    cases r with
    | got op payload =>
      obtain ⟨items', frames', rfl, hready⟩ := hres
      rw [length_cons] at hn
      obtain ⟨rs, q, hrs, hitems, hlast, hnoerr⟩ := ih hready (by omega)
      refine ⟨.got op payload :: rs, q, by simp only [hrs], by simp [Ret.item, hitems], ?_, ?_⟩
      · rw [getLast?_cons, hlast]
        rfl
      · intro hnil hmem
        rcases mem_cons.1 hmem with hr | hr
        · cases hr
        · exact hnoerr hnil hr
    | none =>
      obtain ⟨⟨frames', hready⟩, hend⟩ := hres
      obtain ⟨rfl, rfl⟩ := hend rfl
      cases n with
      | zero => exact ⟨[.none], p', rfl, rfl, rfl, by simp⟩
      | succ n =>
        obtain ⟨rs, q, hrs, hitems, hlast, hnoerr⟩ := ih hready (succ_pos _)
        refine ⟨.none :: rs, q, by simp only [hrs], (filterMap_cons_none rfl).trans hitems, ?_, ?_⟩
        · rw [getLast?_cons, hlast]
          rfl
        · intro hnil hmem
          rcases mem_cons.1 hmem with hr | hr
          · cases hr
          · exact hnoerr hnil hr
    | error =>
      obtain ⟨⟨frames', hready⟩, rfl, hne⟩ := hres
      cases n with
      | zero => exact ⟨[.error], p', rfl, rfl, by rw [if_neg hne]; rfl, fun hnil => absurd hnil hne⟩
      | succ n =>
        obtain ⟨rs, q, hrs, hitems, hlast, -⟩ := ih hready (succ_pos _)
        refine ⟨.error :: rs, q, by simp only [hrs], (filterMap_cons_none rfl).trans hitems, ?_,
          fun hnil => absurd hnil hne⟩
        rw [getLast?_cons, hlast]
        rfl

theorem runCalls_append (p : Parser) (a b : List Call) : runCalls big p (a ++ b) = match runCalls big p a with
      | none => none
      | some (rs, p) => match runCalls big p b with
        | none => none
        | some (rs', p) => some (rs ++ rs', p) := by
  induction a generalizing p with
  | nil =>
    rw [nil_append, runCalls]
    simp only
    cases runCalls big p b with
    | none => rfl
    | some r => rfl
  | cons c a ih =>
    cases c with
    | feed oom data =>
      rw [cons_append, runCalls, runCalls]
      cases wsParserFeed oom p data with
      | none => rfl
      | some r => exact ih r.2
    | next oom =>
      rw [cons_append, runCalls, runCalls]
      cases wsParserNext big oom p with
      | none => rfl
      | some r =>
        simp only [ih]
        cases runCalls big r.2 a with
        | none => rfl
        | some q =>
          simp only
          cases runCalls big q.2 b <;> rfl

/-- However the bytes of frames are fed, the messages and control payloads they mean are delivered, in order, and then
    the first frame that means nothing is an error; whatever is fed, the parser stays in its buffers and returns; and
    unmasking by words is unmasking by bytes. -/
theorem ws_messages (big : Bool) :
    (∀ (frames : List Frame) (items : List (Nat × List UInt8)) (cur : Unfinished) (tail : List UInt8),
      Sends none frames items cur → TailOk cur tail → ∀ calls : List Call, (∀ c ∈ calls, c.HasMemory) →
      calls.flatMap Call.data = frames.flatMap Frame.bytes ++ tail → ∀ n, items.length < n →
      ∃ rs p, runCalls big (wsParserInit false) (calls ++ replicate n (.next false)) = some (rs, p) ∧
        rs.filterMap Ret.item = items ∧ rs.getLast? = some (if tail = [] then .none else .error) ∧
        (tail = [] → Ret.error ∉ rs)) ∧
    (∀ (oom : Bool) (calls : List Call), (runCalls big (wsParserInit oom) calls).isSome = true) ∧
    ∀ mask body : List UInt8, mask.length = 4 → wsUnmask big body mask = unmaskBytes mask body := by
  refine ⟨?_, ?_, fun mask body hmask => wsUnmask_eq big hmask body⟩
  · intro frames items cur tail hsends htail calls hmem hbytes n hn
    have hready : Ready (wsParserInit false) (calls.flatMap Call.data ++ []) frames items cur tail := by
      refine ⟨wsParserInit_ok false, hsends, ?_, htail⟩
      rw [append_nil, hbytes]
      rfl
    obtain ⟨rs, p, frames', items', hrs, heq, hready', hnoerr⟩ := runCalls_ready big hmem hready
    have hle : items'.length ≤ items.length := by
      rw [heq, length_append]
      exact le_add_left _ _
    obtain ⟨rs', q, hrs', hitems, hlast, hnoerr'⟩ := runCalls_drain big hready' (lt_of_le_of_lt hle hn)
    refine ⟨rs ++ rs', q, ?_, ?_, ?_, ?_⟩
    · simp only [runCalls_append, hrs, hrs']
    · rw [filterMap_append, hitems, heq]
    · rw [getLast?_append, hlast]
      rfl
    · intro hnil hmem
      rcases mem_append.1 hmem with hr | hr
      · exact hnoerr hnil hr
      · exact hnoerr' hnil hr
  · intro oom calls
    obtain ⟨rs, p, h⟩ := runCalls_ok big calls (wsParserInit_ok oom)
    rw [h]
    rfl

/-- A text in two fragments with a ping between them, and a frame without a mask behind them. -/
def helloStart : Frame := ⟨false, 0, ⟨opText, by decide⟩, true, .short, [1, 2, 3, 4], rfl, [72, 101], show 2 ≤ 125 by decide⟩

def pingFrame : Frame := ⟨true, 0, ⟨opPing, by decide⟩, true, .medium, [9, 8, 7, 6], rfl, [1], show 1 < 2 ^ 16 by decide⟩

def helloEnd : Frame := ⟨true, 0, ⟨opContinuation, by decide⟩, true, .long, [5, 6, 7, 8], rfl, [108, 108, 111], show 3 < 2 ^ 64 by decide⟩

def nakedFrame : Frame := ⟨true, 0, ⟨opText, by decide⟩, false, .short, [0, 0, 0, 0], rfl, [65], show 1 ≤ 125 by decide⟩

theorem hello_sends : Sends none [helloStart, pingFrame, helloEnd] [(9, [1]), (1, [72, 101, 108, 108, 111])] none := by
  have h1 : ¬ helloStart.Bad none := by unfold Frame.Bad; decide +kernel
  have h2 : ¬ pingFrame.Bad (some (1, [72, 101])) := by unfold Frame.Bad; decide +kernel
  have h3 : ¬ helloEnd.Bad (some (1, [72, 101])) := by unfold Frame.Bad; decide +kernel
  exact .cons h1 (.cons h2 (.cons h3 (.nil none)))

theorem naked_tail : TailOk none nakedFrame.bytes := .inr ⟨nakedFrame, [], .inr (.inl rfl), (append_nil _).symm⟩

/-- Their bytes in two calls. -/
def helloCalls : List Call :=
  let bytes := [helloStart, pingFrame, helloEnd].flatMap Frame.bytes ++ nakedFrame.bytes
  [.feed false (bytes.take 11), .next false, .feed false (bytes.drop 11)]

theorem hello_delivered :
    ∃ rs p, runCalls false (wsParserInit false) (helloCalls ++ replicate 3 (.next false)) = some (rs, p) ∧
      rs.filterMap Ret.item = [(9, [1]), (1, [72, 101, 108, 108, 111])] ∧
      rs.getLast? = some (if nakedFrame.bytes = [] then .none else .error) ∧
      (nakedFrame.bytes = [] → Ret.error ∉ rs) := by
  refine (ws_messages false).1 _ _ _ _ hello_sends naked_tail helloCalls ?_ ?_ 3 (by decide)
  · intro c hc
    simp only [helloCalls, mem_cons, not_mem_nil, or_false] at hc
    rcases hc with rfl | rfl | rfl <;> rfl
  · simp only [helloCalls, flatMap_cons, flatMap_nil, Call.data, nil_append, append_nil, take_append_drop]

end DvbIpiTools.Ws
