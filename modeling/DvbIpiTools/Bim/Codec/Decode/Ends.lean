import DvbIpiTools.Bim.Codec.Decode.EndsElements

set_option autoImplicit false

/-! # Payloads end

The nesting level is a measure for the recursion of elements. Simple types have no such guard: they have to be made of others. -/

namespace DvbIpiTools.Bim

open Codec Coder Cutoff Option

variable {σ : Type} {g : Graph} (o : DecodeOpts σ) (m : Modes)

theorem ends_decElement (hwf : WellFounded g.Below) (p : Option ElemPart) (t : Option TypeRef) (k : BimNode) (d : Dec σ)
    (hd : d.level ≤ elemDepthMax) : Ends (fun n => decElement g o m n p t k) d := by
  induction hj : elemDepthMax - d.level generalizing p t k d with
  | zero =>
    refine Ends.succ ?_
    refine ends_elementStep o m (fun d' hd' hroom => ?_) hwf false p t k d rfl
    omega
  | succ j ih =>
    refine Ends.succ ?_
    refine ends_elementStep o m (fun d' hd' hroom p t k => ?_) hwf false p t k d rfl
    exact ih p t k d' hroom (by omega)

theorem ends_decTop (hwf : WellFounded g.Below) (t : TypeRef) (name : CStr) (d : Dec σ) (hd : d.level = 0) :
    Ends (fun n => decTop g o m n t name) d := by
  have hbelow : Below (decElement g o m) 0 := fun d' _ hroom p t k => ends_decElement o m hwf p t k d' hroom
  refine (ends_elementStep o m hbelow hwf true none (some t) _ d hd).bind fun x d' _ => ?_
  exact (ends_gets _ d').bind fun zleft d'' _ => ends_pure _ d''

/-! ## The payload that a reference is resolved to -/

/-- The payload that a reference is resolved to. -/
def refersTo (w : World σ) (r : FragRef) : Option (Opened σ) :=
  if r.isDef then none else (resolved o w r).map fun y => { bits := BitList.ofBytes y.1, world := y.2 }

/-- The payload that is opened inside `x`, if any. -/
def follow (x : Opened σ) : Option (Opened σ) := match readModes o x.bits with
  | some ((_, true), bits) => (fragRef o bits).bind fun y => refersTo o (decDone (decInit x bits)).world y.1
  | _ => none

/-- What may be opened inside a payload. -/
def inside (g : Graph) (n : Nat) (t : TypeRef) : Nat → PayloadDec σ
  | 0 => fun _ _ => none
  | k + 1 => decodePayload g o n t k

variable {x : Opened σ}

theorem decodePayload_reference {bits : List Bool} (h : readModes o x.bits = some ((m, true), bits)) (n : Nat)
    (t : TypeRef) (nest : Nat) (name : CStr) :
    decodePayload g o n t nest name x = decFragmentReference o 0 (inside o g n t nest) name (decDone (decInit x bits)) := by
  cases nest <;> simp only [decodePayload, h, if_true, inside]

/-- Of a payload that is opened inside another one, only the outcome is looked at. -/
theorem decodePayload_follow {y : Opened σ} (h : follow o x = some y) (t : TypeRef) (name : CStr) :
    ∃ r bits, ∀ n nest, decodePayload g o n t nest name x = (inside o g n t nest name y).map (adoptOutcome name r bits) := by
  unfold follow at h
  split at h
  · next m bits hmodes =>
    obtain ⟨⟨r, rest⟩, hr, h⟩ := bind_eq_some_iff.1 h
    unfold refersTo at h
    split at h
    · cases h
    rename_i hdef
    obtain ⟨⟨data, world⟩, hdata, rfl⟩ := map_eq_some_iff.1 h
    refine ⟨r, rest, fun n nest => ?_⟩
    have hbits : fragRef o (decDone (decInit x bits)).bits = some (r, rest) := hr
    rw [decodePayload_reference o m hmodes, decFragmentReference]
    simp only [hbits, if_neg hdef, hdata]
    rfl
  · cases h

/-- A reference that leads nowhere has a result whatever might be opened. -/
theorem decodePayload_stays (h : follow o x = none) {bits : List Bool}
    (hmodes : readModes o x.bits = some ((m, true), bits)) (t : TypeRef) (name : CStr) :
    ∃ r : Outcome (Payload × Opened σ), r ≠ .deeper ∧ ∀ n nest, decodePayload g o n t nest name x = some r := by
  simp only [decodePayload_reference o m hmodes, decFragmentReference]
  simp only [follow, hmodes] at h
  have hsame : (decDone (decInit x bits)).bits = bits := rfl
  rw [hsame]
  cases hr : fragRef o bits with
  | none => exact ⟨.failed, by simp, fun _ _ => rfl⟩
  | some y =>
    obtain ⟨r, rest⟩ := y
    rw [hr, bind_some, refersTo] at h
    cases hdef : r.isDef with
    | true =>
      refine ⟨.ok ({ root := setDeferred (newNode (some name) none), href := r.href },
        { decDone (decInit x bits) with bits := rest }), by simp, fun _ _ => ?_⟩
      simp only [hdef, if_true]
    | false =>
      simp only [hdef, Bool.false_eq_true, if_false, map_eq_none_iff] at h
      exact ⟨.failed, by simp, fun _ _ => by simp [hdef, h]⟩

theorem decodePayload_last (hwf : WellFounded g.Below) (h : follow o x = none) (t : TypeRef) (name : CStr) :
    ∃ r : Outcome (Payload × Opened σ), r ≠ .deeper ∧ ∃ N, ∀ n, N ≤ n → ∀ nest, decodePayload g o n t nest name x = some r := by
  cases hmodes : readModes o x.bits with
  | none => exact ⟨.failed, by simp, 0, fun n _ nest => by cases nest <;> simp only [decodePayload, hmodes]⟩
  | some y =>
    obtain ⟨⟨m, fragref⟩, bits⟩ := y
    cases fragref with
    | true =>
      obtain ⟨r, hr, hrun⟩ := decodePayload_stays o m h hmodes t name
      exact ⟨r, hr, 0, fun n _ nest => hrun n nest⟩
    | false =>
      obtain ⟨r, hr, N, hN⟩ := ends_decTop o m hwf t name (decInit x bits) rfl
      refine ⟨topOutcome r, ?_, N, fun n hn nest => ?_⟩
      · cases r with
        | deeper => exact absurd hr id
        | _ => simp [topOutcome]
      · rw [← hN n hn]
        cases nest <;> simp only [decodePayload, hmodes, Bool.false_eq_true, if_false]

/-- `bim_decode_payload` ends without a resolver, at every payload, if simple types are made of others only. -/
theorem decodePayload_ends (g : Graph) (hwf : WellFounded g.Below) (o : DecodeOpts σ) (hresolve : o.resolve = none)
    (t : TypeRef) (name : CStr) (x : Opened σ) :
    ∃ r : Outcome (Payload × Opened σ), r ≠ .deeper ∧ ∃ N, ∀ n, N ≤ n → ∀ nest, decodePayload g o n t nest name x = some r := by
  refine decodePayload_last o hwf ?_ t name
  unfold follow
  split
  · next bits _ =>
    cases fragRef o bits with
    | none => rfl
    | some y => simp [refersTo, resolved, hresolve]
  · rfl

/-! ## Samples -/

/-- Floating point numbers without a text. -/
def noFloats : FloatTexts where
  single _ := []
  double _ := []
  dequant _ _ _ _ := []

/-- A type whose content is any number of elements of the same type. -/
def nestedType : BimType where
  content := .seq
  top := some (.elem { name := CStr.ofBytes [97], type := some 0 } 0 bimUnbounded)

/-- A type refers to itself, and no simple type refers to another. -/
def nestedGraph : Graph where
  types _ := nestedType
  elems _ := { name := CStr.ofBytes [97], type := some 0, substs_lt := no_elemRefs_lt }
  simples _ := { codec := .atom .boolean }
  counts _ p h := by
    obtain rfl := some.inj h
    exact ⟨by decide, by decide, by decide⟩

theorem nestedGraph_wf : WellFounded nestedGraph.Below := by
  refine ⟨fun s => ⟨s, fun r hr => ?_⟩⟩
  cases s <;> exact absurd hr (by simp [Graph.Below, Graph.simple, nestedGraph, bimXsString, SimpleCodec.refs])

theorem decodePayload_ends_nested : ∃ r : Outcome (Payload × Opened Unit), r ≠ .deeper ∧ ∃ N, ∀ n, N ≤ n → ∀ nest,
    decodePayload nestedGraph { floats := noFloats } n 0 nest (CStr.ofBytes [97])
      { bits := BitList.ofBytes [0, 255, 255, 255, 255], world := { sr := none, counters := [], ctx := () } } = some r :=
  decodePayload_ends nestedGraph nestedGraph_wf { floats := noFloats } rfl 0 (CStr.ofBytes [97])
    { bits := BitList.ofBytes [0, 255, 255, 255, 255], world := { sr := none, counters := [], ctx := () } }

/-- A union that is its own only member, as the content of a type. -/
def circularGraph : Graph where
  types _ := { content := .simple (.at 0) }
  elems _ := { name := CStr.ofBytes [97], type := some 0, substs_lt := no_elemRefs_lt }
  simples _ := { codec := .union [.at 0] }
  counts _ p h := absurd h (by simp)

theorem rd_noBits (d : Dec σ) : (rd (getBits (bimWidth 1)) : DecM σ Nat) d = .ok (0, d) := by
  have hwidth : bimWidth 1 = 0 := by rw [bimWidth, bimWidthFrom, if_neg (by decide)]
  rw [hwidth]
  rfl

theorem decText_circular (n : Nat) (d : Dec Unit) : decText circularGraph { floats := noFloats } n (.at 0) d = .deeper := by
  induction n generalizing d with
  | zero => rfl
  | succ n ih =>
    have hmember : unionRender (decText circularGraph { floats := noFloats } n) [.at 0] d = .deeper :=
      (Run.bind_of_ok (rd_noBits d)).trans (ih d)
    exact hmember

theorem decTop_circular (n : Nat) (d : Dec Unit) :
    decTop circularGraph { floats := noFloats } {} n 0 (CStr.ofBytes [97]) d = .deeper := by
  have hvalue : decValueText circularGraph { floats := noFloats } n (.at 0) d = .deeper :=
    Run.bind_of_deeper (decText_circular n d)
  -- every step in front of the value reads nothing
  have hbody : ∀ elem node, decodeBody circularGraph { floats := noFloats } elem n 0 node d = .deeper := fun elem node =>
    (Run.bind_of_ok (show decodeAttrs _ _ n [] node d = .ok (node, d) from rfl)).trans
      ((Run.bind_of_ok (show anyAttributes _ _ n false node d = .ok (node, d) from rfl)).trans (Run.bind_of_deeper hvalue))
  have hmono : ∀ elem node, decodeMono circularGraph { floats := noFloats } {} elem n true none (some 0) node d = .deeper :=
    fun elem node => (Run.bind_of_ok (show rd (monoLength {}) d = .ok (none, d) from rfl)).trans
      ((Run.bind_of_ok (show left d = .ok (_, d) from rfl)).trans
        ((Run.bind_of_ok (show settleUnlessTop _ _ _ true none (some 0) node d = .ok (⟨node, some 0, .unchanged⟩, d) from rfl)).trans
          ((Run.bind_of_ok (show dropZbuf _ false d = .ok ((), d) from rfl)).trans (Run.bind_of_deeper (hbody elem node)))))
  have hstep : elementStep circularGraph { floats := noFloats } {} (decElement circularGraph { floats := noFloats } {} n) n true none
      (some 0) (newNode (some (CStr.ofBytes [97])) none) d = .deeper :=
    (Run.bind_of_ok (show Run.gets Dec.hot d = .ok (_, d) from rfl)).trans
      ((Run.bind_of_ok (show elementMode _ d = .ok (false, d) from rfl)).trans (Run.bind_of_deeper (hmono _ _)))
  exact Run.bind_of_deeper hstep

/-- The union is read without end. -/
theorem decodePayload_circular : ¬∃ n nest,
    decodePayload circularGraph { floats := noFloats } n 0 nest (CStr.ofBytes [97])
      { bits := BitList.ofBytes [0], world := { sr := none, counters := [], ctx := () } } ≠ some .deeper := by
  rintro ⟨n, nest, hne⟩
  refine hne ?_
  have hmodes : readModes ({ floats := noFloats } : DecodeOpts Unit) (BitList.ofBytes [0]) = some (({}, false), []) := by
    decide +kernel
  cases nest <;> simp only [decodePayload, hmodes, Bool.false_eq_true, if_false, decTop_circular, topOutcome]

/-! # Chains of fragment references

A payload opens at most one other one, so the payloads that are open at a time are a chain. Each is read by a decoder of its own, whose
`depth` starts at 0: the test against 16 never fails, and a chain is followed to its end, if it has one. -/

variable {σ : Type} {g : Graph} (o : DecodeOpts σ)

/-- The payload `k` references behind `x`. -/
def chain : Nat → Opened σ → Option (Opened σ)
  | 0, x => some x
  | k + 1, x => (follow o x).bind (chain k)

theorem decodePayload_ne_none {x : Opened σ} (h : follow o x = none) (n : Nat) (t : TypeRef) (nest : Nat) (name : CStr) :
    decodePayload g o n t nest name x ≠ none := by
  cases hmodes : readModes o x.bits with
  | none => cases nest <;> simp [decodePayload, hmodes]
  | some y =>
    obtain ⟨⟨m, fragref⟩, bits⟩ := y
    cases fragref with
    | false => cases nest <;> simp [decodePayload, hmodes]
    | true =>
      obtain ⟨r, -, hrun⟩ := decodePayload_stays (g := g) o m h hmodes t name
      rw [hrun]
      exact some_ne_none r

/-- The decoder would open more than `nest` payloads inside exactly where the chain is longer than that. -/
theorem decodePayload_eq_none_iff (n : Nat) (t : TypeRef) (nest : Nat) (name : CStr) (x : Opened σ) :
    decodePayload g o n t nest name x = none ↔ chain o (nest + 1) x ≠ none := by
  induction nest generalizing x with
  | zero =>
    cases h : follow o x with
    | none => simpa [chain, h] using decodePayload_ne_none o h n t 0 name
    | some y =>
      obtain ⟨r, bits, hrun⟩ := decodePayload_follow (g := g) o h t name
      simp [hrun, inside, chain, h]
  | succ nest ih =>
    cases h : follow o x with
    | none => simpa [chain, h] using decodePayload_ne_none o h n t (nest + 1) name
    | some y =>
      obtain ⟨r, bits, hrun⟩ := decodePayload_follow (g := g) o h t name
      rw [hrun, inside, map_eq_none_iff, ih y]
      simp [chain, h]

theorem decodePayload_chain (hwf : WellFounded g.Below) (t : TypeRef) (name : CStr) (k : Nat) (x : Opened σ)
    (h : chain o k x = none) : ∃ nest N, ∃ r : Outcome (Payload × Opened σ), r ≠ .deeper ∧
      ∀ n, N ≤ n → decodePayload g o n t nest name x = some r := by
  induction k generalizing x with
  | zero => cases h
  | succ k ih =>
    cases hf : follow o x with
    | none =>
      obtain ⟨r, hr, N, hN⟩ := decodePayload_last o hwf hf t name
      exact ⟨0, N, r, hr, fun n hn => hN n hn 0⟩
    | some y =>
      rw [chain, hf, bind_some] at h
      obtain ⟨nest, N, r, hr, hN⟩ := ih y h
      obtain ⟨ref, bits, hrun⟩ := decodePayload_follow (g := g) o hf t name
      refine ⟨nest + 1, N, adoptOutcome name ref bits r, ?_, fun n hn => ?_⟩
      · cases r with
        | deeper => exact absurd rfl hr
        | _ => simp [adoptOutcome]
      · rw [hrun, inside, hN n hn, map_some]

/-- At most 17 payloads are open inside another exactly where no more references follow each other, and a payload is decoded at all
exactly where the references have an end. -/
theorem fragmentReference_nesting (g : Graph) (o : DecodeOpts σ) (t : TypeRef) (name : CStr) (x : Opened σ) :
    ((∀ n, decodePayload g o n t 17 name x ≠ none) ↔ chain o 18 x = none) ∧ (WellFounded g.Below →
        ((∃ nest N, ∃ r : Outcome (Payload × Opened σ), r ≠ .deeper ∧ ∀ n, N ≤ n → decodePayload g o n t nest name x = some r) ↔
          ∃ k, chain o k x = none)) := by
  refine ⟨⟨fun h => ?_, fun h n hn => ?_⟩, fun hwf => ⟨?_, fun ⟨k, hk⟩ => decodePayload_chain o hwf t name k x hk⟩⟩
  · by_contra hchain
    exact h 0 ((decodePayload_eq_none_iff o 0 t 17 name x).2 hchain)
  · exact (decodePayload_eq_none_iff o n t 17 name x).1 hn h
  · rintro ⟨nest, N, r, -, hN⟩
    refine ⟨nest + 1, ?_⟩
    by_contra hchain
    have hnone := (decodePayload_eq_none_iff (g := g) o N t nest name x).2 hchain
    rw [hN N (Nat.le_refl N)] at hnone
    exact some_ne_none r hnone

/-! ## A payload that refers to itself -/

/-- The modes with fragment references, then one to a fragment of format 1 and the URI `a`. -/
def selfBytes : List UInt8 := [0, 64, 1, 8, 97]

/-- A resolver that always has the payload itself. -/
def selfOpts : DecodeOpts Unit where
  mpegb := true
  resolve := some fun s _ _ => (some selfBytes, s)
  floats := noFloats

def selfPayload : Opened Unit where
  bits := BitList.ofBytes selfBytes
  world := { sr := none, counters := [], ctx := () }

theorem follow_selfPayload : follow selfOpts selfPayload = some selfPayload := by decide +kernel

theorem chain_selfPayload (k : Nat) : chain selfOpts k selfPayload = some selfPayload := by
  induction k with
  | zero => rfl
  | succ k ih => rw [chain, follow_selfPayload, bind_some, ih]

/-- However many payloads may be open, one more is opened. -/
theorem decodePayload_selfPayload : ¬∃ n nest,
    decodePayload nestedGraph selfOpts n 0 nest (CStr.ofBytes [97]) selfPayload ≠ none := by
  rintro ⟨n, nest, hne⟩
  refine hne ?_
  rw [decodePayload_eq_none_iff, chain_selfPayload]
  exact some_ne_none _

/-- A resolver that has the payload as often as its context says. -/
def countedOpts : DecodeOpts Nat where
  mpegb := true
  resolve := some fun s _ _ => (if s = 0 then none else some selfBytes, s - 1)
  floats := noFloats

def countedPayload : Opened Nat where
  bits := BitList.ofBytes selfBytes
  world := { sr := none, counters := [], ctx := 2 }

/-- Two references one behind the other are followed to their end. -/
theorem fragmentReference_nesting_ends : chain countedOpts 2 countedPayload ≠ none ∧
      (∀ n, decodePayload nestedGraph countedOpts n 0 17 (CStr.ofBytes [97]) countedPayload ≠ none) ∧
      ∃ nest N, ∃ r : Outcome (Payload × Opened Nat), r ≠ .deeper ∧
        ∀ n, N ≤ n → decodePayload nestedGraph countedOpts n 0 nest (CStr.ofBytes [97]) countedPayload = some r := by
  have hnesting := fragmentReference_nesting nestedGraph countedOpts 0 (CStr.ofBytes [97]) countedPayload
  exact ⟨by decide +kernel, hnesting.1.2 (by decide +kernel), (hnesting.2 nestedGraph_wf).2 ⟨3, by decide +kernel⟩⟩

end DvbIpiTools.Bim
