import DvbIpiTools.Utils.Utf8
import DvbIpiTools.Utils.BoundedRepeat

set_option autoImplicit false

/-! # Pattern facets (`lib/bim/xsd/pattern.c`)

The pattern is compiled to alternatives of sequences of quantified atoms and groups, and the matcher tries them with
backtracking over byte positions of the value. Compilation without memory fails as a malformed pattern does, so an
allocation here always succeeds. -/

namespace DvbIpiTools.Bim.Xsd.Pattern

open List Nat

def depthMax : Nat := 64
def stepsMax : Nat := 1000000
def recurseMax : Nat := 10000
def uint32Max : Nat := 4294967295

/-! ## Characters -/

/-- `span_t`. -/
structure Span where
  lo : Nat
  hi : Nat

def nameStart : List Span :=
  [⟨0x3A, 0x3A⟩, ⟨0x41, 0x5A⟩, ⟨0x5F, 0x5F⟩, ⟨0x61, 0x7A⟩, ⟨0xC0, 0xD6⟩, ⟨0xD8, 0xF6⟩, ⟨0xF8, 0x2FF⟩, ⟨0x370, 0x37D⟩,
   ⟨0x37F, 0x1FFF⟩, ⟨0x200C, 0x200D⟩, ⟨0x2070, 0x218F⟩, ⟨0x2C00, 0x2FEF⟩, ⟨0x3001, 0xD7FF⟩, ⟨0xF900, 0xFDCF⟩,
   ⟨0xFDF0, 0xFFFD⟩, ⟨0x10000, 0xEFFFF⟩]

def nameMore : List Span := [⟨0x2D, 0x2E⟩, ⟨0x30, 0x39⟩, ⟨0xB7, 0xB7⟩, ⟨0x300, 0x36F⟩, ⟨0x203F, 0x2040⟩]

/-- Unicode Nd. -/
def digits : List Span :=
  [⟨0x30, 0x39⟩, ⟨0x660, 0x669⟩, ⟨0x6F0, 0x6F9⟩, ⟨0x7C0, 0x7C9⟩, ⟨0x966, 0x96F⟩, ⟨0x9E6, 0x9EF⟩, ⟨0xA66, 0xA6F⟩,
   ⟨0xAE6, 0xAEF⟩, ⟨0xB66, 0xB6F⟩, ⟨0xBE6, 0xBEF⟩, ⟨0xC66, 0xC6F⟩, ⟨0xCE6, 0xCEF⟩, ⟨0xD66, 0xD6F⟩, ⟨0xDE6, 0xDEF⟩,
   ⟨0xE50, 0xE59⟩, ⟨0xED0, 0xED9⟩, ⟨0xF20, 0xF29⟩, ⟨0x1040, 0x1049⟩, ⟨0x1090, 0x1099⟩, ⟨0x17E0, 0x17E9⟩,
   ⟨0x1810, 0x1819⟩, ⟨0x1946, 0x194F⟩, ⟨0x19D0, 0x19D9⟩, ⟨0x1A80, 0x1A89⟩, ⟨0x1A90, 0x1A99⟩, ⟨0x1B50, 0x1B59⟩,
   ⟨0x1BB0, 0x1BB9⟩, ⟨0x1C40, 0x1C49⟩, ⟨0x1C50, 0x1C59⟩, ⟨0xA620, 0xA629⟩, ⟨0xA8D0, 0xA8D9⟩, ⟨0xA900, 0xA909⟩,
   ⟨0xA9D0, 0xA9D9⟩, ⟨0xA9F0, 0xA9F9⟩, ⟨0xAA50, 0xAA59⟩, ⟨0xABF0, 0xABF9⟩, ⟨0xFF10, 0xFF19⟩]

def inSpans (s : List Span) (c : Nat) : Bool := s.any fun t => decide (t.lo ≤ c ∧ c ≤ t.hi)

/-- The multi-character escapes `\d`, `\s`, `\i`, `\c`. -/
inductive Multi where
  | digit | space | start | name

def inMulti : Multi → Nat → Bool
  | .digit, c => inSpans digits c
  | .space, c => c == 0x20 || c == 0x09 || c == 0x0A || c == 0x0D
  | .start, c => inSpans nameStart c
  | .name, c => inSpans nameStart c || inSpans nameMore c

/-- The continuation bytes behind the lead byte. -/
def contBytes (c : Nat) : List UInt8 → Option Nat
  | [] => some c
  | b :: bs => if b &&& 0xC0 = 0x80 then contBytes (c <<< 6 ||| (b.toNat &&& 0x3F)) bs else none

/-- `utf8_next`: the next code point and its number of bytes, none on malformed bytes. -/
def utf8Next : List UInt8 → Option (Nat × Nat)
  | [] => none
  | b :: s =>
    if b.toNat < 0x80 then some (b.toNat, 1)
    else if b.toNat < 0xC0 then none
    else
      let n := if 0xF0 ≤ b.toNat then 3 else if 0xE0 ≤ b.toNat then 2 else 1
      if s.length < n then none
      else (contBytes (b.toNat &&& (0x3F >>> n)) (s.take n)).map fun c => (c, n + 1)

/-! ## The compiled pattern -/

/-- `item_t`: a range, or a multi-character escape. -/
inductive Item where
  | range (lo hi : Nat)
  | multi (m : Multi) (neg : Bool)

def Item.has : Item → Nat → Bool
  | .range lo hi, c => decide (lo ≤ c ∧ c ≤ hi)
  | .multi m neg, c => inMulti m c != neg

/-- `cls_t`, with or without a subtracted class. -/
inductive Cls where
  | plain (neg : Bool) (v : List Item)
  | minus (neg : Bool) (v : List Item) (sub : Cls)

def Cls.has : Cls → Nat → Bool
  | .plain neg v, c => v.any (·.has c) != neg
  | .minus neg v sub, c => (v.any (·.has c) != neg) && !sub.has c

/-- The kinds of a node that take one code point. -/
inductive Atom where
  | char (c : Nat)
  | any
  | cls (k : Cls)
  | multi (m : Multi) (neg : Bool)

def Atom.has : Atom → Nat → Bool
  | .char d, c => c == d
  | .any, c => c != 0x0A && c != 0x0D
  | .cls k, c => k.has c
  | .multi m neg, c => inMulti m c != neg

/-- The bounds of a quantifier. `*`, `+` and `{m,}` have `UINT32_MAX` for their upper bound. -/
structure Quant where
  min : Nat
  max : Nat
  min_lt : min < 100000

/-- `node_t`. -/
inductive Node where
  | atom (a : Atom) (u : Quant)
  | group (alts : List (List Node)) (u : Quant)

abbrev Seq : Type := List Node

/-- `xsd_pattern_t`. -/
structure XsdPattern where
  alts : List Seq

/-! ## Compilation

A reader takes bytes off the front of the pattern, which its result type records. -/

/-- What is left after at least one byte. -/
abbrev Shorter (p : List UInt8) : Type := {r : List UInt8 // r.length < p.length}

/-- What is left after any number of bytes. -/
abbrev AtMost (p : List UInt8) : Type := {r : List UInt8 // r.length ≤ p.length}

/-- What an escape stands for. -/
inductive Escape where
  | char (c : Nat)
  | multi (m : Multi) (neg : Bool)

/-- `escape`, by the letter behind the backslash. -/
def escapeOf (e : UInt8) : Option Escape :=
  if e = 0x6E then some (.char 0x0A)
  else if e = 0x72 then some (.char 0x0D)
  else if e = 0x74 then some (.char 0x09)
  else if e ∈ [0x5C, 0x7C, 0x2E, 0x2D, 0x5E, 0x3F, 0x2A, 0x2B, 0x7B, 0x7D, 0x28, 0x29, 0x5B, 0x5D] then some (.char e.toNat)
  else if e = 0x64 then some (.multi .digit false)
  else if e = 0x73 then some (.multi .space false)
  else if e = 0x69 then some (.multi .start false)
  else if e = 0x63 then some (.multi .name false)
  else if e = 0x44 then some (.multi .digit true)
  else if e = 0x53 then some (.multi .space true)
  else if e = 0x49 then some (.multi .start true)
  else if e = 0x43 then some (.multi .name true)
  else none

theorem drop_shorter (b : UInt8) (p : List UInt8) (n : Nat) : (p.drop (n - 1)).length < (b :: p).length := by
  rw [length_drop, length_cons]
  omega

/-- One code point of the pattern. -/
def takeChar (p : List UInt8) : Option (Nat × Shorter p) :=
  match p with
  | [] => none
  | b :: p =>
    match utf8Next (b :: p) with
    | none => none
    | some (c, n) => some (c, ⟨p.drop (n - 1), drop_shorter b p n⟩)

/-- One code point or escape, as classes and sequences read it. -/
def takeEscaped (p : List UInt8) : Option (Escape × Shorter p) :=
  match p with
  | 0x5C :: e :: rest => (escapeOf e).map fun x => (x, ⟨rest, by simp only [length_cons]; omega⟩)
  | [0x5C] => none
  | p => (takeChar p).map fun x => (.char x.1, x.2)

/-- An item of a class: a code point or escape, then the upper end of a range if `-` follows it and neither `[` nor `]`
    comes next. -/
def takeItem (p : List UInt8) : Option (Item × Shorter p) :=
  match takeEscaped p with
  | none => none
  | some (.multi m neg, r) => some (.multi m neg, r)
  | some (.char lo, ⟨0x2D :: b :: rest, hr⟩) =>
    if b = 0x5B ∨ b = 0x5D then some (.range lo lo, ⟨0x2D :: b :: rest, hr⟩)
    else
      match takeEscaped (b :: rest) with
      | some (.char hi, r) =>
        if hi < lo then none
        else some (.range lo hi, ⟨r.1, by have := r.2; simp only [length_cons] at hr this; omega⟩)
      | _ => none
  | some (.char lo, r) => some (.range lo lo, r)

/-- The items of a class up to its `]`, which is read too. A subtracted class ends them. -/
def classItems (sub : (p : List UInt8) → Option (Cls × Shorter p)) (neg : Bool) (v : List Item) (p : List UInt8) :
    Option (Cls × Shorter p) :=
  match p with
  | [] => none
  | b :: rest =>
    if b = 0x5D then if v.isEmpty then none else some (.plain neg v, ⟨rest, by simp only [length_cons]; omega⟩)
    else if b = 0x2D ∧ rest.head? = some 0x5B ∧ ¬ v.isEmpty then
      match sub (rest.drop 1) with
      | some (k, ⟨0x5D :: r, hr⟩) =>
        some (.minus neg v k, ⟨r, by simp only [length_cons, length_drop] at hr ⊢; omega⟩)
      | _ => none
    else if b = 0x5B then none
    else
      match takeItem (b :: rest) with
      | none => none
      | some (it, r) =>
        match classItems sub neg (v ++ [it]) r.1 with
        | none => none
        | some (k, r') => some (k, ⟨r'.1, lt_trans r'.2 r.2⟩)
termination_by p.length
decreasing_by exact r.2

/-- `parse_class`, behind the `[`. `left` is how many more levels `DEPTH_MAX` allows. -/
def parseClass : Nat → (p : List UInt8) → Option (Cls × Shorter p)
  | 0, _ => none
  | left + 1, 0x5E :: p =>
    (classItems (parseClass left) true [] p).map fun x => (x.1, ⟨x.2.1, lt_trans x.2.2 (by simp only [length_cons]; omega)⟩)
  | left + 1, p => classItems (parseClass left) false [] p

/-- The digits of a bound, no more of them once the value is at 100000. -/
def takeNumber (a : Nat) : List UInt8 → Nat × List UInt8
  | [] => (a, [])
  | b :: p => if 0x30 ≤ b ∧ b ≤ 0x39 ∧ a < 100000 then takeNumber (a * 10 + (b.toNat - 0x30)) p else (a, b :: p)

theorem takeNumber_length (p : List UInt8) : ∀ a, (takeNumber a p).2.length ≤ p.length := by
  induction p with
  | nil => exact fun a => le_rfl
  | cons b p ih =>
    intro a
    rw [takeNumber]
    split
    · exact le_succ_of_le (ih _)
    · exact le_rfl

def isDigit (b : Option UInt8) : Bool := b.any fun b => decide (0x30 ≤ b ∧ b ≤ 0x39)

/-- The upper bound behind the lower one `a`: none written, an open end, or a number. -/
def takeMax (a : Nat) : List UInt8 → Nat × List UInt8
  | 0x2C :: p => if isDigit p.head? then takeNumber 0 p else (uint32Max, p)
  | p => (a, p)

theorem takeMax_length (a : Nat) (p : List UInt8) : (takeMax a p).2.length ≤ p.length := by
  unfold takeMax
  split
  · split
    · exact le_succ_of_le (takeNumber_length _ _)
    · exact le_succ _
  · exact le_rfl

theorem zero_lt_limit : 0 < 100000 := by decide

theorem one_lt_limit : 1 < 100000 := by decide

def parseQuant (p : List UInt8) : Option (Quant × AtMost p) :=
  match p with
  | 0x3F :: rest => some (⟨0, 1, zero_lt_limit⟩, ⟨rest, le_succ _⟩)
  | 0x2A :: rest => some (⟨0, uint32Max, zero_lt_limit⟩, ⟨rest, le_succ _⟩)
  | 0x2B :: rest => some (⟨1, uint32Max, one_lt_limit⟩, ⟨rest, le_succ _⟩)
  | 0x7B :: rest =>
    if isDigit rest.head? then
      let a := takeNumber 0 rest
      let b := takeMax a.1 a.2
      match hb : b.2 with
      | 0x7D :: r =>
        if h : a.1 < 100000 ∧ a.1 ≤ b.1 then
          some (⟨a.1, b.1, h.1⟩, ⟨r, by
            have h1 := takeNumber_length rest 0
            have h2 := takeMax_length a.1 a.2
            simp only [a, b] at hb h1 h2
            rw [hb] at h2
            simp only [length_cons] at h2 ⊢
            omega⟩)
        else none
      | _ => none
    else none
  | p => some (⟨1, 1, one_lt_limit⟩, ⟨p, le_refl _⟩)

/-- The atom or group in front of a quantifier. `group` reads alternatives up to their `)`. -/
def takeAtom (group : (p : List UInt8) → Option (List Seq × AtMost p)) (left : Nat) (p : List UInt8) :
    Option ((Quant → Node) × Shorter p) :=
  match p with
  | [] => none
  | b :: rest =>
    if b = 0x28 then
      match group rest with
      | some (alts, ⟨0x29 :: r, hr⟩) => some (.group alts, ⟨r, by simp only [length_cons] at hr ⊢; omega⟩)
      | _ => none
    else if b = 0x5B then
      (parseClass left rest).map fun x => (.atom (.cls x.1), ⟨x.2.1, lt_succ_of_lt x.2.2⟩)
    else if b = 0x2E then some (.atom .any, ⟨rest, lt_succ_self _⟩)
    else if b ∈ [0x3F, 0x2A, 0x2B, 0x7B, 0x29, 0x5D] then none
    else
      (takeEscaped (b :: rest)).map fun x =>
        (match x.1 with | .char c => .atom (.char c) | .multi m neg => .atom (.multi m neg), x.2)

def parseSeq (group : (p : List UInt8) → Option (List Seq × AtMost p)) (left : Nat) (nested : Bool) (q : Seq) (p : List UInt8) :
    Option (Seq × AtMost p) :=
  if p.head? = none ∨ p.head? = some 0x7C ∨ (nested = true ∧ p.head? = some 0x29) then some (q, ⟨p, le_refl _⟩)
  else
    match takeAtom group left p with
    | none => none
    | some (mk, r) =>
      match parseQuant r.1 with
      | none => none
      | some (u, r') =>
        match parseSeq group left nested (q ++ [mk u]) r'.1 with
        | none => none
        | some (q, r'') => some (q, ⟨r''.1, le_trans r''.2 (le_trans r'.2 (le_of_lt r.2))⟩)
termination_by p.length
decreasing_by exact lt_of_le_of_lt r'.2 r.2

/-- The loop of `parse_alts`. -/
def altsLoop (seq : (p : List UInt8) → Option (Seq × AtMost p)) (alts : List Seq) (p : List UInt8) :
    Option (List Seq × AtMost p) :=
  match seq p with
  | none => none
  | some (q, ⟨0x7C :: rest, hr⟩) =>
    match altsLoop seq (alts ++ [q]) rest with
    | none => none
    | some (alts, r) => some (alts, ⟨r.1, le_trans r.2 (le_trans (le_succ _) hr)⟩)
  | some (q, r) => some (alts ++ [q], r)
termination_by p.length
decreasing_by exact hr

/-- `parse_alts`. `left` is how many more levels of groups and classes `DEPTH_MAX` allows. -/
def parseAlts : Nat → Bool → (p : List UInt8) → Option (List Seq × AtMost p)
  | 0, nested, p => altsLoop (parseSeq (fun _ => none) 0 nested []) [] p
  | left + 1, nested, p => altsLoop (parseSeq (parseAlts left true) (left + 1) nested []) [] p

def xsdPatternCompile (re : List UInt8) : Option XsdPattern :=
  match parseAlts depthMax false (Utf8.cstring re) with
  | some (alts, ⟨[], _⟩) => some ⟨alts⟩
  | _ => none

/-! ## Matching

A position is an offset into the value `v`, whose terminator is left off. -/

/-- `cont_t`: the rest of `q` from `i`, or one more repetition of `node`. -/
inductive Cont where
  | nil
  | frame (q : Seq) (i : Nat) (node : Option Node) (cnt start : Nat) (k : Cont)

/-- `mt_t`. -/
structure Mt where
  steps : Nat
  bad : Bool

/-- `m_rep` at one depth: node, count, position, sequence, index, continuation. -/
abbrev Rep : Type := Node → Nat → Nat → Seq → Nat → Cont → Mt → Bool × Mt

/-- `m_cont`. A frame without a node is `m_seq` on its sequence. -/
def mCont (rep : Rep) (v : List UInt8) : Cont → Nat → Mt → Bool × Mt
  | .nil, s, m => (s == v.length, m)
  | .frame q i (some n) cnt start k, s, m => if s ≠ start then rep n (cnt + 1) s q i k m else (false, m)
  | .frame q i none _ _ k, s, m =>
    if m.bad then (false, m)
    else match q[i]? with
      | none => mCont rep v k s m
      | some n => rep n 0 s q i k m

def mSeq (rep : Rep) (v : List UInt8) (q : Seq) (i s : Nat) (k : Cont) (m : Mt) : Bool × Mt :=
  if m.bad then (false, m)
  else match q[i]? with
    | none => mCont rep v k s m
    | some n => rep n 0 s q i k m

/-- `atom_take`: the position behind the code point at `p`. -/
def atomTake (a : Atom) (v : List UInt8) (p : Nat) : Option Nat :=
  match utf8Next (v.drop p) with
  | none => none
  | some (c, n) => if a.has c then some (p + n) else none

/-- The greedy run from `p` with `cnt` taken. Each atom takes a byte at least, so as many rounds as bytes are left are enough. -/
def greedy (a : Atom) (max : Nat) (v : List UInt8) : Nat → Nat → Nat → Nat × Nat
  | 0, cnt, p => (cnt, p)
  | left + 1, cnt, p =>
    if cnt < max then
      match atomTake a v p with
      | none => (cnt, p)
      | some p' => greedy a max v left (cnt + 1) p'
    else (cnt, p)

/-- One code point back from `p`, not below `s`. -/
def stepBack (v : List UInt8) (s : Nat) : Nat → Nat
  | 0 => 0
  | p + 1 => if s < p ∧ v.getD p 0 &&& 0xC0 = 0x80 then stepBack v s p else p

/-- The back-off loop of `m_rep`. The limit on steps ends it without setting `bad`. -/
def backOff (seq : Nat → Mt → Bool × Mt) (v : List UInt8) (min s : Nat) : Nat → Nat → Mt → Bool × Mt
  | cnt, p, m =>
    let r := if min ≤ cnt then seq p m else (false, m)
    if r.1 then r
    else if r.2.bad then (false, r.2)
    else match cnt with
      | 0 => (false, r.2)
      | cnt + 1 =>
        if cnt + 1 ≤ min then (false, r.2)
        else if stepsMax < r.2.steps + 1 then (false, { r.2 with steps := r.2.steps + 1 })
        else backOff seq v min s cnt (stepBack v s p) { r.2 with steps := r.2.steps + 1 }

/-- The alternatives in their order, up to the first that matches. -/
def tryAlts (seq : Seq → Mt → Bool × Mt) : List Seq → Mt → Bool × Mt
  | [], m => (false, m)
  | q :: qs, m =>
    let r := seq q m
    if r.1 then r else tryAlts seq qs r.2

/-- `m_rep`, with the number of frames that the depth limit still allows. -/
def mRep (v : List UInt8) : Nat → Rep
  | 0, _, _, _, _, _, _, m => (false, ⟨m.steps + 1, true⟩)
  | left + 1, n, cnt, s, q, i, k, m =>
    if stepsMax < m.steps + 1 then (false, ⟨m.steps + 1, true⟩)
    else match n with
      | .atom a u =>
        let r := greedy a u.max v (v.length - s) cnt s
        backOff (fun p m => mSeq (mRep v left) v q (i + 1) p k m) v u.min s r.1 r.2 { m with steps := m.steps + 1 }
      | .group alts u =>
        let r :=
          if cnt < u.max then
            tryAlts (fun alt m => mSeq (mRep v left) v alt 0 s (.frame q i (some n) cnt s k) m) alts
              { m with steps := m.steps + 1 }
          else (false, { m with steps := m.steps + 1 })
        if r.1 then r
        else if u.min ≤ cnt then mSeq (mRep v left) v q (i + 1) s k r.2
        else (false, r.2)

/-- The deepest `m_rep` is at depth `4 * DEPTH_MAX + RECURSE_MAX`, the first at depth 0. -/
def framesMax : Nat := 4 * depthMax + recurseMax + 1

/-- The run of the matcher over the value in `buf`. -/
def matchRun (p : XsdPattern) (buf : List UInt8) : Bool × Mt :=
  let v := Utf8.cstring buf
  tryAlts (fun q m => mSeq (mRep v framesMax) v q 0 0 .nil m) p.alts ⟨0, false⟩

def xsdPatternMatch (p : XsdPattern) (buf : List UInt8) : Int :=
  let r := matchRun p buf
  if r.1 then 1 else if r.2.bad then -1 else 0

/-! # The language of a compiled pattern

Words are texts of Unicode scalar values. What one iteration of a group may be is a parameter: any word of its
alternatives, or only a non-empty one. -/

open BoundedRepeat

/-- The upper bound of a quantifier, where `UINT32_MAX` is no bound. -/
def Quant.bound (u : Quant) : ℕ∞ := if u.max = uint32Max then ⊤ else u.max

def Node.quant : Node → Quant
  | .atom _ u => u
  | .group _ u => u

section
variable (it : Language Char → Language Char)

mutual

/-- One iteration of a node. -/
def Node.once : Node → Language Char
  | .atom a _ => letters fun c => a.has c.toNat
  | .group alts _ => it (altsLang alts)

def altsLang : List (List Node) → Language Char
  | [] => 0
  | q :: qs => seqLang q + altsLang qs

def seqLang : List Node → Language Char
  | [] => 1
  | n :: q => more (n.once) n.quant.min n.quant.bound 0 * seqLang q

end
end

/-- An iteration that moves. -/
def nonempty (l : Language Char) : Language Char := l - 1

/-- The language of Appendix F. -/
def XsdPattern.lang (p : XsdPattern) : Language Char := altsLang id p.alts

/-- The language with no empty iteration of a group. -/
def XsdPattern.langNonempty (p : XsdPattern) : Language Char := altsLang nonempty p.alts

theorem mem_altsLang {it : Language Char → Language Char} {w : List Char} :
    ∀ {alts : List Seq}, w ∈ altsLang it alts ↔ ∃ alt ∈ alts, w ∈ seqLang it alt
  | [] => by simp only [altsLang, Language.notMem_zero, not_mem_nil, false_and, exists_false]
  | q :: qs => by simp only [altsLang, Language.mem_add, mem_altsLang, exists_mem_cons_iff]

mutual

theorem once_nonempty_le : ∀ (n : Node), ∀ w ∈ n.once nonempty, w ∈ n.once id
  | .atom _ _ => fun _ hw => hw
  | .group alts _ => fun w hw => altsLang_nonempty_le alts w hw.1

theorem altsLang_nonempty_le : ∀ (alts : List (List Node)), ∀ w ∈ altsLang nonempty alts, w ∈ altsLang id alts
  | [] => fun _ hw => hw
  | q :: qs => fun w hw => hw.imp (seqLang_nonempty_le q w) (altsLang_nonempty_le qs w)

theorem seqLang_nonempty_le : ∀ (q : List Node), ∀ w ∈ seqLang nonempty q, w ∈ seqLang id q
  | [] => fun _ hw => hw
  | n :: q => by exact mul_mono (more_mono (once_nonempty_le n)) (seqLang_nonempty_le q)

end

theorem XsdPattern.langNonempty_le (p : XsdPattern) {w : List Char} (h : w ∈ p.langNonempty) : w ∈ p.lang :=
  altsLang_nonempty_le p.alts w h

end DvbIpiTools.Bim.Xsd.Pattern
