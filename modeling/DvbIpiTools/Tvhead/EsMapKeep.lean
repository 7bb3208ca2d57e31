import Mathlib.Data.List.Perm.Basic
import DvbIpiTools.Tvhead.EsMap

set_option autoImplicit false

/-! # PIDs that stay

`keep_out_pids` gives the entries of the old map their PIDs back and places the new ones beside them. The
PIDs of the result are distinct and in the block as long as no entry of the old map comes up twice in
the new one. -/

namespace DvbIpiTools.Tvhead

open List

/-- An entry without its output PID. -/
def OutEs.stream (e : OutEs) : Nat × Nat × CaPass := (e.inPid, e.streamType, e.isCa)

/-- A PID of the block that is not the AIT's. -/
def InBlock (videoPid outPid : Nat) : Prop := videoPid ≤ outPid ∧ outPid < videoPid + outProgramEsCap

theorem blockOff_of_inBlock {videoPid outPid : Nat} (h : InBlock videoPid outPid) :
    blockOff videoPid outPid = some (outPid - videoPid) := by
  obtain ⟨hge, hlt⟩ := h
  exact if_neg (by omega)

theorem inBlock_of_blockOff {videoPid outPid off : Nat} (h : blockOff videoPid outPid = some off) :
    InBlock videoPid outPid ∧ off = outPid - videoPid := by
  rw [blockOff] at h
  split at h
  · cases h
  · next hin =>
    cases h
    exact ⟨⟨by omega, by omega⟩, rfl⟩

theorem freeOff_spec {used : List Nat} (h : used.length < outProgramEsCap) :
    freeOff used < outProgramEsCap ∧ freeOff used ∉ used := by
  cases hfind : (range outProgramEsCap).find? fun off => off ∉ used with
  | some off =>
    have hmem := mem_range.1 (mem_of_find?_eq_some hfind)
    have hfree := find?_some hfind
    rw [freeOff, hfind]
    exact ⟨hmem, of_decide_eq_true hfree⟩
  | none =>
    have hsub : range outProgramEsCap ⊆ used := by
      intro off hoff
      have := find?_eq_none.1 hfind off hoff
      simpa using this
    have hle := (subperm_of_subset nodup_range hsub).length_le
    rw [length_range] at hle
    omega

/-! ## Placing -/

theorem newOff_spec (videoPid outPid : Nat) {used : List Nat} (h : used.length < outProgramEsCap) :
    newOff videoPid used outPid < outProgramEsCap ∧ newOff videoPid used outPid ∉ used := by
  rw [newOff]
  split
  · exact freeOff_spec h
  · next off hoff =>
    obtain ⟨⟨hge, hlt⟩, rfl⟩ := inBlock_of_blockOff hoff
    split
    · exact freeOff_spec h
    · next hnot => exact ⟨Nat.sub_lt_left_of_lt_add hge hlt, hnot⟩

/-- What the second loop does to its entries. -/
structure Placed (videoPid : Nat) (ts : List (OutEs × Bool)) (used : List Nat) (out : List OutEs) :
    Prop where
  stream : out.map OutEs.stream = ts.map fun t => t.1.stream
  nodup : (out.map OutEs.outPid).Nodup
  inBlock : ∀ e ∈ out, InBlock videoPid e.outPid
  /-- an entry is kept, or it is a new one beside the used offsets -/
  origin : ∀ e ∈ out, (e, true) ∈ ts ∨ (∃ t, (t, false) ∈ ts ∧ t.key = e.key) ∧ e.outPid - videoPid ∉ used

theorem placeNew_placed {videoPid : Nat} {ts : List (OutEs × Bool)} {used : List Nat}
    (hkept : ∀ e, (e, true) ∈ ts → InBlock videoPid e.outPid ∧ e.outPid - videoPid ∈ used)
    (hnodup : ((ts.filter Prod.snd).map fun t => t.1.outPid).Nodup)
    (hroom : used.length + ts.countP (fun t => !t.2) ≤ outProgramEsCap) :
    Placed videoPid ts used (placeNew videoPid ts used) := by
  induction ts generalizing used with
  | nil => exact ⟨rfl, nodup_nil, nofun, nofun⟩
  | cons t ts ih =>
    obtain ⟨e, kept⟩ := t
    cases kept with
    | true =>
      rw [filter_cons_of_pos rfl, map_cons, nodup_cons] at hnodup
      obtain ⟨hin, hmem⟩ := hkept e (mem_cons_self ..)
      have hrest := ih (fun e' he' => hkept e' (.tail _ he')) hnodup.2 hroom
      refine ⟨congrArg _ hrest.stream, ?_, ?_, ?_⟩
      · rw [placeNew, map_cons, nodup_cons]
        refine ⟨?_, hrest.nodup⟩
        intro hdup
        obtain ⟨e', he', heq⟩ := mem_map.1 hdup
        rcases hrest.origin e' he' with hkept' | ⟨-, hfresh⟩
        · refine hnodup.1 (mem_map.2 ⟨(e', true), mem_filter.2 ⟨hkept', rfl⟩, heq⟩)
        · rw [heq] at hfresh
          exact hfresh hmem
      · rw [placeNew]
        exact forall_mem_cons.2 ⟨hin, hrest.inBlock⟩
      · rw [placeNew]
        refine forall_mem_cons.2 ⟨.inl (mem_cons_self ..), ?_⟩
        intro e' he'
        rcases hrest.origin e' he' with hk | ⟨⟨t, ht, hkey⟩, hfresh⟩
        · exact .inl (.tail _ hk)
        · exact .inr ⟨⟨t, mem_cons_of_mem _ ht, hkey⟩, hfresh⟩
    | false =>
      rw [countP_cons_of_pos rfl] at hroom
      obtain ⟨hlt, hfree⟩ := newOff_spec videoPid e.outPid (show used.length < outProgramEsCap by omega)
      obtain ⟨off, hoff⟩ : ∃ off, off = newOff videoPid used e.outPid := ⟨_, rfl⟩
      rw [← hoff] at hlt hfree
      have hrest := @ih (off :: used)
        (fun e' he' => ⟨(hkept e' (.tail _ he')).1, mem_cons_of_mem _ (hkept e' (.tail _ he')).2⟩) hnodup
        (by rw [length_cons]; omega)
      have hplace : placeNew videoPid ((e, false) :: ts) used =
          { e with outPid := videoPid + off } :: placeNew videoPid ts (off :: used) := by
        rw [placeNew, ← hoff, if_pos hlt]
      have hoffset : videoPid + off - videoPid = off := Nat.add_sub_cancel_left ..
      rw [hplace]
      refine ⟨congrArg _ hrest.stream, ?_, ?_, ?_⟩
      · rw [map_cons, nodup_cons]
        refine ⟨?_, hrest.nodup⟩
        intro hdup
        obtain ⟨e', he', heq⟩ := mem_map.1 hdup
        have heq : e'.outPid - videoPid = off := by
          rw [heq]
          exact hoffset
        rcases hrest.origin e' he' with hkept' | ⟨-, hfresh⟩
        · exact hfree (heq ▸ (hkept e' (.tail _ hkept')).2)
        · exact hfresh (heq ▸ mem_cons_self ..)
      · exact forall_mem_cons.2 ⟨⟨Nat.le_add_right _ _, Nat.add_lt_add_left hlt _⟩, hrest.inBlock⟩
      · refine forall_mem_cons.2 ⟨.inr ⟨⟨e, mem_cons_self .., rfl⟩, ?_⟩, ?_⟩
        · rw [hoffset]
          exact hfree
        · intro e' he'
          rcases hrest.origin e' he' with hk | ⟨⟨t, ht, hkey⟩, hfresh⟩
          · exact .inl (.tail _ hk)
          · exact .inr ⟨⟨t, mem_cons_of_mem _ ht, hkey⟩, fun hmem => hfresh (.tail _ hmem)⟩

/-! ## Taking over -/

theorem findOldEs_eq (old : List OutEs) (e : OutEs) : findOldEs old e = old.findIdx? fun o => o.key = e.key := by
  rw [findOldEs]
  congr 1
  funext o
  rw [Bool.eq_iff_iff, Bool.and_eq_true, decide_eq_true_eq, decide_eq_true_eq, decide_eq_true_eq]
  exact ⟨fun h => Prod.ext h.1 h.2, fun h => ⟨congrArg Prod.fst h, congrArg Prod.snd h⟩⟩

variable {e : OutEs}

theorem findOldEs_congr (old : List OutEs) {e' : OutEs} (h : e.key = e'.key) : findOldEs old e = findOldEs old e' := by
  rw [findOldEs_eq, findOldEs_eq, h]

theorem findOldEs_eq_some {old : List OutEs} {j : Nat} (h : findOldEs old e = some j) :
    ∃ o, old[j]? = some o ∧ o.key = e.key := by
  rw [findOldEs_eq, findIdx?_eq_some_iff_getElem] at h
  obtain ⟨hlt, hkey, -⟩ := h
  exact ⟨old[j], getElem?_eq_getElem hlt, of_decide_eq_true hkey⟩

theorem findOldEs_eq_none {old : List OutEs} : findOldEs old e = none ↔ e.key ∉ old.map OutEs.key := by
  rw [findOldEs_eq, findIdx?_eq_none_iff]
  constructor
  · intro h hmem
    obtain ⟨o, ho, hkey⟩ := mem_map.1 hmem
    exact of_decide_eq_false (h o ho) hkey
  · intro h o ho
    exact decide_eq_false fun hkey => h (mem_map.2 ⟨o, ho, hkey⟩)

section
variable {videoPid : Nat} {old neu : List OutEs}

theorem takeOver_key (e : OutEs) : (takeOver videoPid old e).1.key = e.key := by
  rw [takeOver]
  split <;> rfl

theorem takeOver_stream (e : OutEs) : (takeOver videoPid old e).1.stream = e.stream := by
  rw [takeOver]
  split <;> rfl

variable (hin : ∀ o ∈ old, InBlock videoPid o.outPid)

include hin

theorem takeOver_of_some {e : OutEs} {j : Nat} (h : findOldEs old e = some j) :
    ∃ o, old[j]? = some o ∧ takeOver videoPid old e = ({ e with outPid := o.outPid }, true) := by
  obtain ⟨o, ho, -⟩ := findOldEs_eq_some h
  refine ⟨o, ho, ?_⟩
  have hblock := blockOff_of_inBlock (hin o (mem_of_getElem? ho))
  simp only [takeOver, h, ho, Option.map_some, Option.getD_some, hblock, Option.isSome_some]

theorem takeOver_snd (e : OutEs) : (takeOver videoPid old e).2 = decide (e.key ∈ old.map OutEs.key) := by
  cases h : findOldEs old e with
  | none =>
    rw [decide_eq_false (findOldEs_eq_none.1 h)]
    simp only [takeOver, h]
  | some j =>
    obtain ⟨o, ho, htake⟩ := takeOver_of_some hin h
    have hmem : e.key ∈ old.map OutEs.key := by
      by_contra hnot
      rw [findOldEs_eq_none.2 hnot] at h
      cases h
    rw [htake, decide_eq_true hmem]

omit hin

theorem kept_keys_nodup (honce : ∀ e ∈ neu, e.key ∈ old.map OutEs.key → (neu.map OutEs.key).count e.key = 1) :
    ((neu.filter fun e => e.key ∈ old.map OutEs.key).map OutEs.key).Nodup := by
  rw [nodup_iff_count_le_one]
  intro k
  by_cases hk : k ∈ (neu.filter fun e => e.key ∈ old.map OutEs.key).map OutEs.key
  · obtain ⟨e, he, rfl⟩ := mem_map.1 hk
    rw [mem_filter, decide_eq_true_eq] at he
    rw [← honce e he.1 he.2]
    exact (filter_sublist.map OutEs.key).count_le _
  · rw [count_eq_zero_of_not_mem hk]
    exact Nat.zero_le 1

theorem taken_nodup (hnodup : (old.map OutEs.outPid).Nodup) (hin : ∀ o ∈ old, InBlock videoPid o.outPid)
    (honce : ∀ e ∈ neu, e.key ∈ old.map OutEs.key → (neu.map OutEs.key).count e.key = 1) :
    (((neu.map (takeOver videoPid old)).filter Prod.snd).map fun t => t.1.outPid).Nodup := by
  have hfilter : ((neu.map (takeOver videoPid old)).filter Prod.snd).map (fun t => t.1.outPid) =
      (neu.filter fun e => e.key ∈ old.map OutEs.key).map fun e => (takeOver videoPid old e).1.outPid := by
    rw [filter_map, map_map]
    congr 1
    exact filter_congr fun e _ => takeOver_snd hin e
  have hkeys := kept_keys_nodup honce
  rw [hfilter]
  rw [List.Nodup, pairwise_map] at hkeys ⊢
  refine hkeys.imp_of_mem ?_
  intro a b ha hb hne heq
  have hfound : ∀ e ∈ neu.filter fun e => e.key ∈ old.map OutEs.key, ∃ (j : Nat) (o : OutEs),
      old[j]? = some o ∧ o.key = e.key ∧ (takeOver videoPid old e).1.outPid = o.outPid := by
    intro e he
    rw [mem_filter, decide_eq_true_eq] at he
    cases hfind : findOldEs old e with
    | none => exact absurd he.2 (findOldEs_eq_none.1 hfind)
    | some j =>
      obtain ⟨o, ho, htake⟩ := takeOver_of_some hin hfind
      obtain ⟨o', ho', hkey⟩ := findOldEs_eq_some hfind
      obtain rfl := Option.some.inj (ho.symm.trans ho')
      exact ⟨j, o, ho, hkey, by rw [htake]⟩
  obtain ⟨i, p, hp, hpkey, hpout⟩ := hfound a ha
  obtain ⟨j, q, hq, hqkey, hqout⟩ := hfound b hb
  -- the same PID in the old map is the same entry
  have hout : (old.map OutEs.outPid)[i]? = (old.map OutEs.outPid)[j]? := by
    rw [getElem?_map, getElem?_map, hp, hq, Option.map_some, Option.map_some, ← hpout, ← hqout, heq]
  have hlt : i < (old.map OutEs.outPid).length := by
    rw [length_map]
    exact (List.getElem?_eq_some_iff.1 hp).1
  have hij : i = j := (getElem?_inj hlt hnodup).1 hout
  rw [hij] at hp
  obtain rfl := Option.some.inj (hp.symm.trans hq)
  exact hne (hpkey.symm.trans hqkey)

/-- What `keep_out_pids` makes of a counted map. -/
structure Keeps (videoPid : Nat) (old neu out : List OutEs) : Prop where
  stream : out.map OutEs.stream = neu.map OutEs.stream
  nodup : (out.map OutEs.outPid).Nodup
  inBlock : ∀ e ∈ out, InBlock videoPid e.outPid
  keep : ∀ e ∈ out, ∀ j, findOldEs old e = some j → ∃ o, old[j]? = some o ∧ o.outPid = e.outPid

theorem keepOutPids_keeps (hnodup : (old.map OutEs.outPid).Nodup)
    (hin : ∀ o ∈ old, InBlock videoPid o.outPid) (hlen : neu.length ≤ outProgramEsCap)
    (honce : ∀ e ∈ neu, e.key ∈ old.map OutEs.key → (neu.map OutEs.key).count e.key = 1) :
    Keeps videoPid old neu (keepOutPids videoPid old neu) := by
  have hcount := @List.length_eq_countP_add_countP _ Prod.snd (neu.map (takeOver videoPid old))
  rw [length_map] at hcount
  have hplaced := @placeNew_placed videoPid (neu.map (takeOver videoPid old))
    (((neu.map (takeOver videoPid old)).filter Prod.snd).map fun e => e.1.outPid - videoPid) ?_
    (taken_nodup hnodup hin honce) ?_
  · rw [keepOutPids]
    refine ⟨?_, hplaced.nodup, hplaced.inBlock, ?_⟩
    · rw [hplaced.stream, map_map]
      exact map_congr_left fun e _ => takeOver_stream e
    intro e he j hfind
    rcases hplaced.origin e he with hkept | ⟨⟨t, ht, hkey⟩, -⟩
    · obtain ⟨e0, -, htake⟩ := mem_map.1 hkept
      have hkey : e0.key = e.key := by rw [← @takeOver_key videoPid old e0, htake]
      rw [← findOldEs_congr old hkey] at hfind
      obtain ⟨o, ho, htake'⟩ := takeOver_of_some hin hfind
      rw [htake'] at htake
      exact ⟨o, ho, congrArg (fun t : OutEs × Bool => t.1.outPid) htake⟩
    obtain ⟨e0, -, htake⟩ := mem_map.1 ht
    have hkey0 : e0.key = e.key := by rw [← hkey, ← @takeOver_key videoPid old e0, htake]
    rw [← findOldEs_congr old hkey0] at hfind
    obtain ⟨o, -, htake'⟩ := takeOver_of_some hin hfind
    rw [htake'] at htake
    exact nomatch congrArg Prod.snd htake
  · intro e he
    obtain ⟨e0, -, htake⟩ := mem_map.1 he
    refine ⟨?_, mem_map.2 ⟨(e, true), mem_filter.2 ⟨he, rfl⟩, rfl⟩⟩
    cases hfind : findOldEs old e0 with
    | none =>
      simp only [takeOver, hfind] at htake
      exact nomatch congrArg Prod.snd htake
    | some j =>
      obtain ⟨o, ho, htake'⟩ := takeOver_of_some hin hfind
      rw [htake'] at htake
      have hout : o.outPid = e.outPid := congrArg (fun t : OutEs × Bool => t.1.outPid) htake
      rw [← hout]
      exact hin o (mem_of_getElem? ho)
  · rw [length_map, ← countP_eq_length_filter]
    have hnot : (neu.map (takeOver videoPid old)).countP (fun t => !t.2) =
        (neu.map (takeOver videoPid old)).countP (fun t => decide ¬(t.2 = true)) := by
      refine countP_congr fun t _ => ?_
      cases t.2 <;> decide
    omega

end

end DvbIpiTools.Tvhead
