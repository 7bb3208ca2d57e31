import DvbIpiTools.Metrics.Protocol

set_option autoImplicit false

/-! # What the metrics reader accepts

The body of a snapshot has a grammar of its own for each version of the protocol. A loop over a reader ends, never
leaves the body, and comes to its clean end exactly on the bodies of the grammar. -/

namespace DvbIpiTools.Metrics

open BeUtil List Option Nat

/-! ## The grammar -/

/-- `vs` codes `v`, whatever follows. -/
def IsVarint (vs : List UInt8) (v : UInt64) : Prop := ∀ rest, getVarint (vs ++ rest) = some (v, vs.length)

/-- Entries of version 1. -/
inductive Entries : List UInt8 → List Entry → Prop where
  | nil : Entries [] []
  | entry {id label value rest : List UInt8} {ll : UInt8} {es : List Entry} (hid : id.length = 2)
      (hll : ll.toNat = label.length) (hlabel : label.length ≤ labelMax) (hvalue : value.length = 8)
      (hrest : Entries rest es) :
      Entries (id ++ ll :: (label ++ (value ++ rest))) (⟨.ofNat (beGet id 0 2), label, .ofNat (beGet value 0 8)⟩ :: es)

/-- What follows in a body of version 2 while `left` entries of a group with a label are to come. -/
inductive Groups : List UInt8 → Nat → List UInt8 → List Entry → Prop where
  | nil (label : List UInt8) : Groups label 0 [] []
  | group {old label rest : List UInt8} {ll count : UInt8} {es : List Entry} (hll : ll.toNat = label.length)
      (hlabel : label.length ≤ labelMax) (hcount : count.toNat ≠ 0) (hrest : Groups label count.toNat rest es) :
      Groups old 0 (ll :: (label ++ count :: rest)) es
  | entry {label id vs rest : List UInt8} {v : UInt64} {left : Nat} {es : List Entry} (hid : id.length = 2)
      (hv : IsVarint vs v) (hpos : 0 < vs.length) (hrest : Groups label left rest es) :
      Groups label (left + 1) (id ++ (vs ++ rest)) (⟨.ofNat (beGet id 0 2), label, v⟩ :: es)

/-- A body and the entries in it. -/
def Body (version : UInt8) (body : List UInt8) (es : List Entry) : Prop :=
  if version = protoV1 then Entries body es else Groups [] 0 body es

variable {a b : List UInt8} {es fs : List Entry}

theorem Entries.append (ha : Entries a es) (hb : Entries b fs) : Entries (a ++ b) (es ++ fs) := by
  induction ha with
  | nil => exact hb
  | entry hid hll hlabel hvalue _ ih =>
    simp only [append_assoc, cons_append]
    exact .entry hid hll hlabel hvalue ih

variable {left : Nat}

theorem Groups.append {label : List UInt8} (ha : Groups label left a es)
    (hb : ∀ old, Groups old 0 b fs) : Groups label left (a ++ b) (es ++ fs) := by
  induction ha with
  | nil => exact hb _
  | group hll hlabel hcount _ ih =>
    simp only [append_assoc, cons_append]
    exact .group hll hlabel hcount ih
  | entry hid hv hpos _ ih =>
    simp only [append_assoc, cons_append]
    exact .entry hid hv hpos ih

theorem Groups.relabel {label : List UInt8} (h : Groups label 0 a es) (label' : List UInt8) : Groups label' 0 a es := by
  cases h with
  | nil => exact .nil _
  | group hll hlabel hcount hrest => exact .group hll hlabel hcount hrest

theorem Body.append {version : UInt8} (ha : Body version a es)
    (hb : Body version b fs) : Body version (a ++ b) (es ++ fs) := by
  unfold Body at *
  split at ha
  · rename_i hv
    rw [if_pos hv] at hb ⊢
    exact ha.append hb
  · rename_i hv
    rw [if_neg hv] at hb ⊢
    exact ha.append fun old => hb.relabel old

theorem Body.nil (version : UInt8) : Body version [] [] := by
  unfold Body
  split
  · exact .nil
  · exact .nil _

/-! ## One call on the bytes behind the position -/

/-- The reader looks at bytes of its body only. -/
structure Reader.Inside (r : Reader) : Prop where
  pos : r.pos ≤ r.buf.length
  label : r.grpLeft ≠ 0 → r.labelOff + r.labelLen ≤ r.buf.length

/-- The bytes to come. -/
def Reader.rest (r : Reader) : List UInt8 := r.buf.drop r.pos

/-- The label of the open group. -/
def Reader.label (r : Reader) : List UInt8 := (r.buf.drop r.labelOff).take r.labelLen

theorem Reader.length_rest (r : Reader) : r.rest.length = r.buf.length - r.pos := by
  rw [Reader.rest, length_drop]

theorem Reader.getElem?_rest (r : Reader) (k : Nat) : r.buf[r.pos + k]? = r.rest[k]? := by
  rw [Reader.rest, getElem?_drop]

variable {r : Reader}

theorem Reader.left_eq (h : r.pos ≤ r.buf.length) : r.left = some r.rest.length := by
  rw [Reader.left, if_pos h, r.length_rest]

theorem Reader.slice_rest {r : Reader} {k n : Nat} (h : k + n ≤ r.rest.length) (hpos : r.pos ≤ r.buf.length) :
    slice r.buf (r.pos + k) n = some ((r.rest.drop k).take n) := by
  rw [r.length_rest] at h
  rw [slice, if_pos (by omega), Reader.rest, drop_drop]

variable (h : r.Inside)

include h

theorem nextInGroup_eq (hleft : r.grpLeft ≠ 0) : nextInGroup r = some ( if r.rest.length < 3 then (.malformed, r) else
        match getVarint (r.rest.drop 2) with
        | none => (.malformed, r)
        | some (v, vn) =>
          (.entry ⟨.ofNat (beGet (r.rest.take 2) 0 2), r.label, v⟩, { r with pos := r.pos + (2 + vn), grpLeft := r.grpLeft - 1 })) := by
  unfold nextInGroup
  rw [Reader.left_eq h.pos]
  simp only [bind_eq_bind, bind_some]
  split
  · rfl
  rename_i hlen
  have hp : slice r.buf (r.pos + 2) (r.rest.length - 2) = some (r.rest.drop 2) := by
    rw [Reader.slice_rest (by omega) h.pos, take_of_length_le (by rw [length_drop])]
  have hid : slice r.buf r.pos 2 = some (r.rest.take 2) := @Reader.slice_rest r 0 2 (by omega) h.pos
  have hlabel : slice r.buf r.labelOff r.labelLen = some r.label := if_pos (h.label hleft)
  rw [hp, hid, hlabel]
  simp only [bind_some]
  cases getVarint (r.rest.drop 2) <;> rfl

theorem nextGroup_eq : nextGroup r = some ( match r.rest with
      | [] => .inl .done
      | ll :: t =>
        if labelMax < ll.toNat ∨ t.length < ll.toNat + 1 then .inl .malformed
        else if (t.getD ll.toNat 0).toNat = 0 then .inl .malformed
        else .inr { r with
          grpLeft := (t.getD ll.toNat 0).toNat, labelOff := r.pos + 1, labelLen := ll.toNat, pos := r.pos + (ll.toNat + 2) }) := by
  have hlen := r.length_rest
  have hpos := h.pos
  unfold nextGroup
  cases hrest : r.rest with
  | nil =>
    rw [hrest, length_nil] at hlen
    rw [if_pos (by omega)]
  | cons ll t =>
    have hll : r.buf[r.pos]? = some ll := by
      have := r.getElem?_rest 0
      rwa [hrest, add_zero] at this
    rw [hrest, length_cons] at hlen
    rw [if_neg (by omega), hll, Reader.left_eq h.pos, hrest]
    simp only [bind_eq_bind, bind_some, length_cons, add_lt_add_iff_right,
      show ll.toNat + 2 = ll.toNat + 1 + 1 from rfl]
    split
    · rfl
    rename_i hfits
    have hcount : r.buf[r.pos + 1 + ll.toNat]? = some (t.getD ll.toNat 0) := by
      rw [add_assoc, r.getElem?_rest, hrest, add_comm 1, getElem?_cons_succ,
        getD_eq_getElem?_getD, getElem?_eq_getElem (by omega), getD_some]
    rw [hcount]
    simp only [bind_some]
    split <;> rfl

theorem nextV1_eq : nextV1 r = some ( if r.rest = [] then (.done, r) else if r.rest.length < 3 then (.malformed, r)
      else if labelMax < byteAt r.rest 2 ∨ r.rest.length - 3 < byteAt r.rest 2 + 8 then (.malformed, r)
      else (.entry ⟨.ofNat (beGet (r.rest.take 2) 0 2), (r.rest.drop 3).take (byteAt r.rest 2),
          .ofNat (beGet ((r.rest.drop (3 + byteAt r.rest 2)).take 8) 0 8)⟩, { r with pos := r.pos + 3 + byteAt r.rest 2 + 8 })) := by
  have hlen := r.length_rest
  have hpos := h.pos
  unfold nextV1
  by_cases hend : r.pos = r.buf.length
  · have hnil : r.rest = [] := length_eq_zero_iff.1 (by omega)
    rw [if_pos hend, if_pos hnil]
  have hnil : r.rest ≠ [] := fun hnil => by
    rw [hnil, length_nil] at hlen
    omega
  rw [if_neg hend, if_neg hnil, Reader.left_eq h.pos]
  simp only [bind_eq_bind, bind_some]
  by_cases hshort : r.rest.length < 3
  · rw [if_pos hshort, if_pos hshort]
    rfl
  rw [if_neg hshort, if_neg hshort]
  have hll : r.buf[r.pos + 2]? = some (r.rest.getD 2 0) := by
    rw [r.getElem?_rest, getD_eq_getElem?_getD, getElem?_eq_getElem (by omega), getD_some]
  rw [hll]
  simp only [bind_some]
  rw [show (r.rest.getD 2 0).toNat = byteAt r.rest 2 from rfl]
  split
  · rfl
  · have hid : slice r.buf r.pos 2 = some (r.rest.take 2) := @Reader.slice_rest r 0 2 (by omega) h.pos
    rw [hid, Reader.slice_rest (by omega) h.pos, add_assoc r.pos 3, Reader.slice_rest (by omega) h.pos]
    rfl

/-! ## A loop over a reader -/

/-- A call that stays in the body, and goes on in it when it returns an entry. -/
structure Goes (r : Reader) (rc : Next) (r' : Reader) : Prop where
  inside : r'.Inside
  buf : r'.buf = r.buf
  version : r'.version = r.version
  moves : (∃ e, rc = .entry e) → r.pos < r'.pos

theorem nextInGroup_goes (hleft : r.grpLeft ≠ 0) : ∃ rc r', nextInGroup r = some (rc, r') ∧ Goes r rc r' := by
  rw [nextInGroup_eq h hleft]
  split
  · exact ⟨_, _, rfl, ⟨h, rfl, rfl, nofun⟩⟩
  rename_i hlen
  split
  · exact ⟨_, _, rfl, ⟨h, rfl, rfl, nofun⟩⟩
  rename_i v vn hv
  obtain ⟨hpos, hle, -⟩ := getVarint_local hv
  rw [length_drop, r.length_rest] at hle
  rw [r.length_rest] at hlen
  refine ⟨_, _, rfl, ⟨⟨?_, fun _ => h.label hleft⟩, rfl, rfl, fun _ => ?_⟩⟩
  · show r.pos + (2 + vn) ≤ r.buf.length
    omega
  · show r.pos < r.pos + (2 + vn)
    omega

omit h

variable {r' : Reader}

theorem nextGroup_inside (h : r.Inside) (hr : nextGroup r = some (.inr r')) :
    r'.Inside ∧ r'.buf = r.buf ∧ r'.version = r.version ∧ r.pos < r'.pos ∧ r'.grpLeft ≠ 0 := by
  rw [nextGroup_eq h] at hr
  split at hr
  · cases hr
  rename_i ll t hrest
  split at hr
  · cases hr
  rename_i hfits
  split at hr
  · cases hr
  rename_i hcount
  obtain rfl := Sum.inr.inj (some.inj hr)
  have hlen := r.length_rest
  rw [hrest, length_cons] at hlen
  refine ⟨⟨?_, fun _ => ?_⟩, rfl, rfl, ?_, hcount⟩
  · show r.pos + (ll.toNat + 2) ≤ r.buf.length
    omega
  · show r.pos + 1 + ll.toNat ≤ r.buf.length
    omega
  · show r.pos < r.pos + (ll.toNat + 2)
    omega

theorem metricsReaderNextRef_goes (h : r.Inside) : ∃ rc r', metricsReaderNextRef r = some (rc, r') ∧ Goes r rc r' := by
  unfold metricsReaderNextRef
  split
  · rw [nextV1_eq h]
    split
    · exact ⟨_, _, rfl, ⟨h, rfl, rfl, nofun⟩⟩
    split
    · exact ⟨_, _, rfl, ⟨h, rfl, rfl, nofun⟩⟩
    split
    · exact ⟨_, _, rfl, ⟨h, rfl, rfl, nofun⟩⟩
    have hlen := r.length_rest
    refine ⟨_, _, rfl, ⟨⟨?_, h.label⟩, rfl, rfl, fun _ => ?_⟩⟩
    · show r.pos + 3 + byteAt r.rest 2 + 8 ≤ r.buf.length
      omega
    · show r.pos < r.pos + 3 + byteAt r.rest 2 + 8
      omega
  · unfold nextV2
    split
    · cases hg : nextGroup r with
      | none =>
        rw [nextGroup_eq h] at hg
        cases hg
      | some out =>
        cases out with
        | inl rc =>
          refine ⟨rc, r, rfl, ⟨h, rfl, rfl, ?_⟩⟩
          rintro ⟨e, rfl⟩
          rw [nextGroup_eq h] at hg
          split at hg
          · cases hg
          · split at hg
            · cases hg
            · split at hg <;> cases hg
        | inr r' =>
          obtain ⟨hin, hbuf, hversion, hmove, hleft⟩ := nextGroup_inside h hg
          obtain ⟨rc, r'', hr, hgoes⟩ := nextInGroup_goes hin hleft
          exact ⟨rc, r'', hr, ⟨hgoes.inside, hgoes.buf.trans hbuf, hgoes.version.trans hversion,
            fun he => lt_trans hmove (hgoes.moves he)⟩⟩
    · rename_i hleft
      exact nextInGroup_goes h hleft

variable {n : Nat}

/-- A loop ends within as many calls as there are bytes to come, and one more. -/
theorem readAll_isSome (h : r.Inside) (hn : r.rest.length < n) :
    ∃ es rc, readAll metricsReaderNextRef n r = some (es, rc) ∧ ∀ e, rc ≠ .entry e := by
  induction n generalizing r with
  | zero => exact absurd hn (not_lt_zero _)
  | succ n ih =>
    obtain ⟨rc, r', hr, hgoes⟩ := metricsReaderNextRef_goes h
    have hlen := r.length_rest
    have hlen' := r'.length_rest
    have hbuf := hgoes.buf
    rw [readAll, hr]
    cases rc with
    | entry e =>
      have hmove := hgoes.moves ⟨e, rfl⟩
      have hpos' := hgoes.inside.pos
      obtain ⟨es, rc, hes, hrc⟩ := ih hgoes.inside (by rw [hlen', hbuf]; rw [hbuf] at hpos'; omega)
      exact ⟨e :: es, rc, by simp only [bind_eq_bind, bind_some, hes]; rfl, hrc⟩
    | done => exact ⟨[], .done, rfl, nofun⟩
    | malformed => exact ⟨[], .malformed, rfl, nofun⟩

theorem inside_initBody (version : UInt8) (body : List UInt8) : (metricsReaderInitBody version body).Inside :=
  ⟨zero_le _, absurd rfl⟩

/-! ## Bodies of the grammar are read to their end -/

variable {next : Reader → Option (Next × Reader)}

theorem readAll_entry {e : Entry} {rc : Next} (hr : next r = some (.entry e, r')) (h : readAll next n r' = some (es, rc)) :
    readAll next (n + 1) r = some (e :: es, rc) := by
  rw [readAll, hr]
  simp only [bind_eq_bind, bind_some, h]
  rfl

theorem readAll_done {n : Nat} {r r' : Reader} {next : Reader → Option (Next × Reader)}
    (hr : next r = some (.done, r')) : readAll next (n + 1) r = some ([], .done) := by
  rw [readAll, hr]
  rfl

variable {bytes : List UInt8}

theorem Entries.length_le (h : Entries bytes es) : es.length ≤ bytes.length := by
  induction h with
  | nil => exact le_rfl
  | entry hid _ _ _ _ ih =>
    simp only [length_append, length_cons]
    omega

theorem Groups.length_le {label : List UInt8} (h : Groups label left bytes es) : es.length ≤ bytes.length := by
  induction h with
  | nil => exact le_rfl
  | _ =>
    simp only [length_append, length_cons]
    omega

/-- The reader that has moved on by `k` bytes has that much less to come. -/
theorem Reader.rest_drop (r : Reader) (k : Nat) : r.buf.drop (r.pos + k) = r.rest.drop k := by
  rw [Reader.rest, drop_drop]

theorem nextV2_of_nextGroup (hleft : r.grpLeft = 0) (hr : nextGroup r = some (.inr r'))
    (hleft' : r'.grpLeft ≠ 0) : nextV2 r = nextV2 r' := by
  rw [nextV2, nextV2, if_pos hleft, if_neg hleft', hr]
  rfl

theorem Entries.reads (h : Entries bytes es) (hin : r.Inside)
    (hrest : r.rest = bytes) (hn : es.length < n) : readAll nextV1 n r = some (es, .done) := by
  induction h generalizing r n with
  | nil =>
    obtain ⟨n, rfl⟩ := exists_eq_succ_of_ne_zero (show n ≠ 0 by omega)
    exact @readAll_done _ _ r _ (by rw [nextV1_eq hin, if_pos hrest])
  | @entry id label value rest ll es hid hll hlabel hvalue hes ih =>
    obtain ⟨n, rfl⟩ := exists_eq_succ_of_ne_zero (show n ≠ 0 by omega)
    have hlen := r.length_rest
    have hpos := hin.pos
    have hll' : byteAt r.rest 2 = label.length := by
      have h2 := byteAt_append_right id (ll :: (label ++ (value ++ rest))) 0
      rw [hid, add_zero] at h2
      rw [hrest, h2]
      exact hll
    have htake : r.rest.take 2 = id := by rw [hrest, take_append_of_le_length (by omega), take_of_length_le (by omega)]
    have hdrop : r.rest.drop 3 = label ++ (value ++ rest) := by
      rw [hrest, show 3 = id.length + 1 by omega, drop_length_add_append]
      rfl
    have hlabel' : (r.rest.drop 3).take label.length = label := by
      rw [hdrop, take_append_of_le_length le_rfl, take_length]
    have hvalue' : (r.rest.drop (3 + label.length)).take 8 = value := by
      rw [← drop_drop, hdrop, drop_left, ← hvalue, take_append_of_le_length le_rfl, take_length]
    have hall := congrArg length hrest
    simp only [length_append, length_cons] at hall
    have hnext : nextV1 r = some (.entry ⟨.ofNat (beGet id 0 2), label, .ofNat (beGet value 0 8)⟩,
        { r with pos := r.pos + 3 + label.length + 8 }) := by
      have hne : r.rest ≠ [] := fun h0 => by
        rw [h0, length_nil] at hall
        omega
      rw [nextV1_eq hin, if_neg hne, if_neg (by omega), hll', if_neg (by omega), htake, hlabel', hvalue']
    rw [length_cons] at hn
    have hin' : Reader.Inside { r with pos := r.pos + 3 + label.length + 8 } := by
      refine ⟨?_, hin.label⟩
      show r.pos + 3 + label.length + 8 ≤ r.buf.length
      omega
    have hrest' : r.buf.drop (r.pos + 3 + label.length + 8) = rest := by
      rw [add_assoc, add_assoc, r.rest_drop, ← drop_drop, hdrop, ← drop_drop, drop_left, ← hvalue, drop_left]
    exact readAll_entry hnext (ih hin' hrest' (by omega))

theorem Groups.reads {label : List UInt8} (h : Groups label left bytes es)
    (hin : r.Inside) (hleft : r.grpLeft = left) (hlabel : left ≠ 0 → r.label = label) (hrest : r.rest = bytes)
    (hn : es.length < n) : readAll nextV2 n r = some (es, .done) := by
  induction h generalizing r n with
  | nil =>
    obtain ⟨n, rfl⟩ := exists_eq_succ_of_ne_zero (show n ≠ 0 by omega)
    refine @readAll_done _ _ r _ ?_
    rw [nextV2, if_pos hleft, nextGroup_eq hin, hrest]
    rfl
  | @group old label rest ll count es hll hlen hcount hes ih =>
    have hgroup : nextGroup r = some (.inr { r with
        grpLeft := count.toNat, labelOff := r.pos + 1, labelLen := ll.toNat, pos := r.pos + (ll.toNat + 2) }) := by
      have hget : (label ++ count :: rest).getD ll.toNat 0 = count := by
        rw [hll, getD_append_right _ _ _ _ (Nat.le_refl _), Nat.sub_self]
        rfl
      rw [nextGroup_eq hin, hrest]
      simp only [hget, length_append, length_cons]
      rw [if_neg (by omega), if_neg hcount]
    obtain ⟨hin', -, -, -, hleft'⟩ := nextGroup_inside hin hgroup
    have hsame := nextV2_of_nextGroup hleft hgroup hleft'
    have hlabel' : (r.buf.drop (r.pos + 1)).take ll.toNat = label := by
      rw [← drop_drop, show r.buf.drop r.pos = _ from hrest, hll, drop_succ_cons, drop_zero,
        take_append_of_le_length le_rfl, take_length]
    have hrest' : r.buf.drop (r.pos + (ll.toNat + 2)) = rest := by
      rw [r.rest_drop, hrest, hll, show label.length + 2 = 1 + label.length + 1 by omega, ← drop_drop, ← drop_drop]
      simp
    have hread := ih hin' rfl (fun _ => hlabel') hrest' hn
    obtain ⟨n, rfl⟩ := exists_eq_succ_of_ne_zero (show n ≠ 0 by omega)
    rw [readAll, hsame]
    exact hread
  | @entry label id vs rest v left es hid hv hpos hes ih =>
    obtain ⟨n, rfl⟩ := exists_eq_succ_of_ne_zero (show n ≠ 0 by omega)
    have hall := congrArg length hrest
    simp only [length_append] at hall
    have htake : r.rest.take 2 = id := by rw [hrest, take_append_of_le_length (by omega), take_of_length_le (by omega)]
    have hdrop : r.rest.drop 2 = vs ++ rest := by rw [hrest, ← hid, drop_left]
    have hne : r.grpLeft ≠ 0 := by omega
    have hnext : nextV2 r = some (.entry ⟨.ofNat (beGet id 0 2), label, v⟩,
        { r with pos := r.pos + (2 + vs.length), grpLeft := r.grpLeft - 1 }) := by
      rw [nextV2, if_neg hne, nextInGroup_eq hin hne, if_neg (by omega), hdrop, hv rest, htake, hlabel (by omega)]
    have hlen := r.length_rest
    have hpos' := hin.pos
    rw [length_cons] at hn
    have hin' : Reader.Inside { r with pos := r.pos + (2 + vs.length), grpLeft := r.grpLeft - 1 } := by
      refine ⟨?_, fun _ => hin.label hne⟩
      show r.pos + (2 + vs.length) ≤ r.buf.length
      omega
    have hrest' : r.buf.drop (r.pos + (2 + vs.length)) = rest := by
      rw [r.rest_drop, ← drop_drop, hdrop, drop_left]
    have hleft' : r.grpLeft - 1 = left := by omega
    exact readAll_entry hnext (ih hin' hleft' (fun _ => hlabel (by omega)) hrest' (by omega))

/-! ## What is read to its end is a body of the grammar -/

theorem readAll_cases (h : readAll next n r = some (es, .done)) : (es = [] ∧ ∃ r', next r = some (.done, r')) ∨
      ∃ m e r' es', n = m + 1 ∧ es = e :: es' ∧ next r = some (.entry e, r') ∧ readAll next m r' = some (es', .done) := by
  cases n with
  | zero => cases h
  | succ m =>
    rw [readAll] at h
    cases hr : next r with
    | none =>
      rw [hr] at h
      cases h
    | some out =>
      obtain ⟨rc, r'⟩ := out
      rw [hr] at h
      simp only [bind_eq_bind, bind_some] at h
      cases rc with
      | entry e =>
        obtain ⟨⟨es', rc⟩, hes, hout⟩ := bind_eq_some_iff.1 h
        cases hout
        exact .inr ⟨m, e, r', es', rfl, rfl, rfl, hes⟩
      | done =>
        cases h
        exact .inl ⟨rfl, r', rfl⟩
      | malformed => exact absurd (Prod.mk.inj (some.inj h)).2 (by simp)

theorem Entries.of_readAll (hin : r.Inside) (h : readAll nextV1 n r = some (es, .done)) : Entries r.rest es := by
  induction n generalizing r es with
  | zero => cases h
  | succ n ih =>
    have hlen := r.length_rest
    rcases readAll_cases h with ⟨rfl, r', hr⟩ | ⟨m, e, r', es', hm, rfl, hr, hes⟩
    · rw [nextV1_eq hin] at hr
      split at hr
      · rename_i hnil
        rw [hnil]
        exact .nil
      · split at hr
        · exact absurd (Prod.mk.inj (some.inj hr)).1 (by simp)
        · split at hr <;> exact absurd (Prod.mk.inj (some.inj hr)).1 (by simp)
    obtain rfl := Nat.succ.inj hm
    rw [nextV1_eq hin] at hr
    split at hr
    · exact absurd (Prod.mk.inj (some.inj hr)).1 (by simp)
    split at hr
    · exact absurd (Prod.mk.inj (some.inj hr)).1 (by simp)
    rename_i h3
    split at hr
    · exact absurd (Prod.mk.inj (some.inj hr)).1 (by simp)
    rename_i hfits
    obtain ⟨he, rfl⟩ := Prod.mk.inj (some.inj hr)
    obtain rfl := Next.entry.inj he
    have hin' : Reader.Inside { r with pos := r.pos + 3 + byteAt r.rest 2 + 8 } := by
      refine ⟨?_, hin.label⟩
      show r.pos + 3 + byteAt r.rest 2 + 8 ≤ r.buf.length
      omega
    have hrest := ih hin' hes
    have hsplit : r.rest = r.rest.take 2 ++ r.rest.getD 2 0 :: ((r.rest.drop 3).take (byteAt r.rest 2) ++
        ((r.rest.drop (3 + byteAt r.rest 2)).take 8 ++ r.rest.drop (3 + byteAt r.rest 2 + 8))) := by
      have h2 : r.rest.drop 2 = r.rest.getD 2 0 :: r.rest.drop 3 := by
        rw [drop_eq_getElem_cons (show 2 < r.rest.length by omega), getD_eq_getElem?_getD,
          getElem?_eq_getElem (by omega), getD_some]
      rw [← drop_drop (i := 8), take_append_drop, ← drop_drop, take_append_drop, ← h2, take_append_drop]
    have hbehind : Reader.rest { r with pos := r.pos + 3 + byteAt r.rest 2 + 8 } = r.rest.drop (3 + byteAt r.rest 2 + 8) := by
      rw [← r.rest_drop]
      simp only [Reader.rest, add_assoc]
    rw [hbehind] at hrest
    have hbyte : (r.rest.getD 2 0).toNat = byteAt r.rest 2 := rfl
    have hlabel : ((r.rest.drop 3).take (byteAt r.rest 2)).length = byteAt r.rest 2 := by
      rw [length_take, length_drop]
      omega
    have hid : (r.rest.take 2).length = 2 := by rw [length_take]; omega
    have hvalue : ((r.rest.drop (3 + byteAt r.rest 2)).take 8).length = 8 := by
      rw [length_take, length_drop]
      omega
    have hall := Entries.entry hid (hbyte.trans hlabel.symm) (by omega) hvalue hrest
    rwa [← hsplit] at hall

theorem Groups.of_nextInGroup {e : Entry} (hin : r.Inside) (hleft : r.grpLeft ≠ 0)
    (hr : nextInGroup r = some (.entry e, r')) (hes : Groups r'.label r'.grpLeft r'.rest es) :
    Groups r.label r.grpLeft r.rest (e :: es) := by
  rw [nextInGroup_eq hin hleft] at hr
  split at hr
  · exact absurd (Prod.mk.inj (some.inj hr)).1 (by simp)
  rename_i h3
  split at hr
  · exact absurd (Prod.mk.inj (some.inj hr)).1 (by simp)
  rename_i v vn hv
  obtain ⟨he, rfl⟩ := Prod.mk.inj (some.inj hr)
  obtain rfl := Next.entry.inj he
  obtain ⟨hpos, hle, hlocal⟩ := getVarint_local hv
  have hvs : ((r.rest.drop 2).take vn).length = vn := by rw [length_take]; omega
  have hbehind : Reader.rest { r with pos := r.pos + (2 + vn), grpLeft := r.grpLeft - 1 } = (r.rest.drop 2).drop vn := by
    rw [drop_drop]
    exact r.rest_drop _
  rw [hbehind] at hes
  have hsplit : r.rest = r.rest.take 2 ++ ((r.rest.drop 2).take vn ++ (r.rest.drop 2).drop vn) := by
    rw [take_append_drop, take_append_drop]
  have hone : r.grpLeft = r.grpLeft - 1 + 1 := by omega
  have hall := @Groups.entry _ (r.rest.take 2) _ _ v _ _ (by rw [length_take]; omega)
    (fun rest => by rw [hlocal, hvs]) (by omega) hes
  rw [← hsplit] at hall
  rw [hone]
  exact hall

theorem Groups.of_nextGroup {old : List UInt8} (hin : r.Inside)
    (hr : nextGroup r = some (.inr r')) (hes : Groups r'.label r'.grpLeft r'.rest es) : Groups old 0 r.rest es := by
  rw [nextGroup_eq hin] at hr
  split at hr
  · cases hr
  rename_i ll t hrest
  split at hr
  · cases hr
  rename_i hfits
  split at hr
  · cases hr
  rename_i hcount
  obtain rfl := Sum.inr.inj (some.inj hr)
  have hlabel : Reader.label { r with
      grpLeft := (t.getD ll.toNat 0).toNat, labelOff := r.pos + 1, labelLen := ll.toNat, pos := r.pos + (ll.toNat + 2) }
      = t.take ll.toNat := by
    show (r.buf.drop (r.pos + 1)).take ll.toNat = _
    rw [r.rest_drop, hrest, drop_succ_cons, drop_zero]
  have hbehind : Reader.rest { r with
      grpLeft := (t.getD ll.toNat 0).toNat, labelOff := r.pos + 1, labelLen := ll.toNat, pos := r.pos + (ll.toNat + 2) }
      = t.drop (ll.toNat + 1) := by
    show r.buf.drop (r.pos + (ll.toNat + 2)) = _
    rw [r.rest_drop, hrest, drop_succ_cons]
  rw [hlabel, hbehind] at hes
  have hlen : (t.take ll.toNat).length = ll.toNat := by rw [length_take]; omega
  have hsplit : t = t.take ll.toNat ++ t.getD ll.toNat 0 :: t.drop (ll.toNat + 1) := by
    have h1 : t.drop ll.toNat = t.getD ll.toNat 0 :: t.drop (ll.toNat + 1) := by
      rw [drop_eq_getElem_cons (show ll.toNat < t.length by omega), getD_eq_getElem?_getD,
        getElem?_eq_getElem (by omega), getD_some]
    rw [← h1, take_append_drop]
  have hall := @Groups.group old _ _ ll _ _ hlen.symm (by omega) hcount hes
  rw [← hsplit] at hall
  rwa [hrest]

theorem Groups.of_readAll (hin : r.Inside)
    (h : readAll nextV2 n r = some (es, .done)) : Groups r.label r.grpLeft r.rest es := by
  induction n generalizing r es with
  | zero => cases h
  | succ n ih =>
    by_cases hleft : r.grpLeft = 0
    · -- a call between two groups goes on in the next one
      cases hg : nextGroup r with
      | none =>
        rw [readAll, nextV2, if_pos hleft, hg] at h
        cases h
      | some out =>
        cases out with
        | inl rc =>
          have hr : nextV2 r = some (rc, r) := by rw [nextV2, if_pos hleft, hg]; rfl
          have hnoentry : ∀ e, rc ≠ .entry e := by
            rintro e rfl
            rw [nextGroup_eq hin] at hg
            split at hg
            · cases hg
            · split at hg
              · cases hg
              · split at hg <;> cases hg
          rcases readAll_cases h with ⟨rfl, r', hr'⟩ | ⟨m, e, r', es', hm, rfl, hr', hes⟩
          · rw [hr] at hr'
            cases hr'
            have hnil : r.rest = [] := by
              rw [nextGroup_eq hin] at hg
              split at hg
              · assumption
              · split at hg
                · cases hg
                · split at hg <;> cases hg
            rw [hleft, hnil]
            exact .nil _
          · rw [hr] at hr'
            exact absurd (Prod.mk.inj (some.inj hr')).1 (hnoentry e)
        | inr r1 =>
          obtain ⟨hin1, -, -, -, hleft1⟩ := nextGroup_inside hin hg
          have hsame := nextV2_of_nextGroup hleft hg hleft1
          have hin2 := nextInGroup_goes hin1 hleft1
          rw [readAll, hsame] at h
          rw [hleft]
          refine .of_nextGroup hin hg ?_
          rcases readAll_cases (n := n + 1) h with ⟨rfl, r', hr'⟩ | ⟨m, e, r', es', hm, rfl, hr', hes⟩
          · rw [nextV2, if_neg hleft1, nextInGroup_eq hin1 hleft1] at hr'
            split at hr'
            · exact absurd (Prod.mk.inj (some.inj hr')).1 (by simp)
            · split at hr' <;> exact absurd (Prod.mk.inj (some.inj hr')).1 (by simp)
          obtain rfl := Nat.succ.inj hm
          rw [nextV2, if_neg hleft1] at hr'
          obtain ⟨rc, r2, hr2, hgoes⟩ := hin2
          rw [hr'] at hr2
          cases hr2
          exact .of_nextInGroup hin1 hleft1 hr' (ih hgoes.inside hes)
    · obtain ⟨rc, r2, hr2, hgoes⟩ := nextInGroup_goes hin hleft
      rcases readAll_cases h with ⟨rfl, r', hr'⟩ | ⟨m, e, r', es', hm, rfl, hr', hes⟩
      · rw [nextV2, if_neg hleft, nextInGroup_eq hin hleft] at hr'
        split at hr'
        · exact absurd (Prod.mk.inj (some.inj hr')).1 (by simp)
        · split at hr' <;> exact absurd (Prod.mk.inj (some.inj hr')).1 (by simp)
      · obtain rfl := Nat.succ.inj hm
        rw [nextV2, if_neg hleft] at hr'
        rw [hr'] at hr2
        cases hr2
        exact .of_nextInGroup hin hleft hr' (ih hgoes.inside hes)

/-! ## The reader decides the grammar -/

theorem readAll_congr {next' : Reader → Option (Next × Reader)} {P : Reader → Prop}
    (heq : ∀ r, P r → next r = next' r) (hstep : ∀ r rc r', P r → next r = some (rc, r') → P r') (n : Nat)
    (h : P r) : readAll next n r = readAll next' n r := by
  induction n generalizing r with
  | zero => rfl
  | succ n ih =>
    rw [readAll, readAll, ← heq r h]
    cases hr : next r with
    | none => rfl
    | some out =>
      obtain ⟨rc, r'⟩ := out
      cases rc with
      | entry e => simp only [bind_eq_bind, bind_some, ih (hstep r _ r' h hr)]
      | done => rfl
      | malformed => rfl

/-- A body is read to its clean end exactly when it is one of the grammar, and then its entries are read. -/
theorem readAll_iff (version : UInt8) (body : List UInt8) (es : List Entry) :
    readAll metricsReaderNextRef (body.length + 1) (metricsReaderInitBody version body) = some (es, .done)
      ↔ Body version body es := by
  have hin := inside_initBody version body
  have hrest : (metricsReaderInitBody version body).rest = body := rfl
  have hsame : ∀ next, (∀ r : Reader, r.Inside ∧ r.version = version → metricsReaderNextRef r = next r) →
      readAll metricsReaderNextRef (body.length + 1) (metricsReaderInitBody version body)
        = readAll next (body.length + 1) (metricsReaderInitBody version body) := by
    intro next hnext
    refine readAll_congr hnext ?_ _ ⟨hin, rfl⟩
    rintro r rc r' ⟨hr, hv⟩ hcall
    obtain ⟨rc2, r2, hr2, hgoes⟩ := metricsReaderNextRef_goes hr
    rw [hcall] at hr2
    cases hr2
    exact ⟨hgoes.inside, hgoes.version.trans hv⟩
  unfold Body
  split
  · rename_i hv
    rw [hsame nextV1 fun r hr => if_pos (hr.2.trans hv)]
    constructor
    · intro h
      exact Entries.of_readAll hin h
    · intro h
      exact h.reads hin hrest (lt_succ_of_le h.length_le)
  rename_i hv
  rw [hsame nextV2 fun r hr => if_neg (hr.2 ▸ hv)]
  constructor
  · intro h
    exact (Groups.of_readAll hin h).relabel []
  · intro h
    exact h.reads hin rfl (absurd rfl) hrest (lt_succ_of_le h.length_le)

/-- `metrics_reader_next` reads the same entries, with their labels cut to the room there is for them. -/
theorem readAll_next (labelCap n : Nat) (r : Reader) :
    readAll (metricsReaderNext labelCap) n r = (readAll metricsReaderNextRef n r).map fun (es, rc) =>
      (es.map fun e => { e with label := e.label.take (labelCap - 1) }, rc) := by
  induction n generalizing r with
  | zero => rfl
  | succ n ih =>
    rw [readAll, readAll, metricsReaderNext]
    cases hr : metricsReaderNextRef r with
    | none => rfl
    | some out =>
      obtain ⟨rc, r'⟩ := out
      cases rc with
      | entry e =>
        simp only [bind_eq_bind, Option.pure_def, bind_some, ih]
        cases readAll metricsReaderNextRef n r' <;> rfl
      | done => rfl
      | malformed => rfl

end DvbIpiTools.Metrics
