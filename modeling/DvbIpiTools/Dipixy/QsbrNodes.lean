import DvbIpiTools.Utils.Linked
import DvbIpiTools.Dipixy.QsbrOwners

set_option autoImplicit false

/-! # The retire list

Every node that is allocated is on the list, or one thread has it: to put it there, or since it took the list. So a
push beside a sweep loses no node: the nodes of the list and those of the threads are lists that share none, and each
kind of step is one change of them, a write to an own node, an allocation, a regrouping with the list or a release. -/

namespace DvbIpiTools.Dipixy.Qsbr

open List Function

/-- Where a node that is allocated points to. -/
def St.next (st : St) (nd : Nat) : Option (Option Nat) := (st.nodes nd).map Node.next

/-- The nodes that a thread has. -/
def NodesOf (next : Nat → Option (Option Nat)) : Pc → List Nat → Prop
  | .closeLock _ nd, l => l = [nd]
  | .close _ nd, l => l = [nd]
  | .closeUnlock _ nd, l => l = [nd]
  | .nodeMark nd _, l => l = [nd]
  | .push nd _, l => l = [nd]
  | .pushNext nd _ _, l => l = [nd]
  | .pushCas nd old _, l => l = [nd] ∧ next nd = some old
  | .sweep chain kh kt, l =>
    ∃ C K, l = C ++ K ∧ Linked next chain C none ∧ Linked next kh K none ∧ K.getLast? = kt
  | .check nd nx kh kt _, l =>
    ∃ C K, l = nd :: (C ++ K) ∧ Linked next nx C none ∧ Linked next kh K none ∧ K.getLast? = kt
  | .splice kh kt, l => ∃ e, Linked next (some kh) l e ∧ l.getLast? = some kt
  | .spliceNext kh kt _, l => ∃ e, Linked next (some kh) l e ∧ l.getLast? = some kt
  | .spliceCas kh kt old, l => Linked next (some kh) l old ∧ l.getLast? = some kt
  | _, l => l = []

variable {l : List Nat}

theorem NodesOf.congr {next next' : Nat → Option (Option Nat)} {x : Pc} (h : NodesOf next x l)
    (hsame : ∀ nd ∈ l, next' nd = next nd) : NodesOf next' x l := by
  cases x with
  | pushCas nd old k =>
    obtain ⟨rfl, hnext⟩ := h
    exact ⟨rfl, (hsame nd (mem_singleton.2 rfl)).trans hnext⟩
  | sweep chain kh kt =>
    obtain ⟨C, K, rfl, hC, hK, hkt⟩ := h
    exact ⟨C, K, rfl, hC.congr fun y hy => hsame y (mem_append_left _ hy),
      hK.congr fun y hy => hsame y (mem_append_right _ hy), hkt⟩
  | check nd nx kh kt j =>
    obtain ⟨C, K, rfl, hC, hK, hkt⟩ := h
    exact ⟨C, K, rfl, hC.congr fun y hy => hsame y (mem_cons_of_mem _ (mem_append_left _ hy)),
      hK.congr fun y hy => hsame y (mem_cons_of_mem _ (mem_append_right _ hy)), hkt⟩
  | splice kh kt =>
    obtain ⟨e, he, hkt⟩ := h
    exact ⟨e, he.congr hsame, hkt⟩
  | spliceNext kh kt old =>
    obtain ⟨e, he, hkt⟩ := h
    exact ⟨e, he.congr hsame, hkt⟩
  | spliceCas kh kt old => exact ⟨h.1.congr hsame, h.2⟩
  | _ => exact h

/-- A thread whose node has not got all of its mark yet. -/
def Pc.marking : Pc → Bool
  | .closeLock _ _ => true
  | .close _ _ => true
  | .closeUnlock _ _ => true
  | .nodeMark _ _ => true
  | _ => false

/-- The nodes of the list and those of every thread. -/
structure Lists (n : Nat) (st : St) (ls : Option Nat → List Nat) : Prop where
  head : Linked st.next st.head (ls none) none
  threads : ∀ t, NodesOf st.next (st.pc t) (ls (some t))
  nodup : ∀ q, (ls q).Nodup
  single : ∀ nd q q', nd ∈ ls q → nd ∈ ls q' → q = q'
  all : ∀ nd, (∃ x, st.nodes nd = some x) ↔ ∃ q, nd ∈ ls q
  marks : ∀ q nd x, nd ∈ ls q → (∀ t, q = some t → (st.pc t).marking = false) → st.nodes nd = some x →
    n ≤ x.mark.length

/-- The list gets the nodes `L` and the thread `t` gets `l`; the other threads keep theirs. -/
def handed (ls : Option Nat → List Nat) (t : Nat) (L l : List Nat) : Option Nat → List Nat :=
  fun q => q.elim L fun u => if u = t then l else ls (some u)

theorem handed_other {ls : Option Nat → List Nat} {t u : Nat} {L l : List Nat} (hu : u ≠ t) :
    handed ls t L l (some u) = ls (some u) := if_neg hu

theorem handed_self {ls : Option Nat → List Nat} {t : Nat} {L l : List Nat} : handed ls t L l (some t) = l :=
  if_pos rfl

theorem mem_handed {ls : Option Nat → List Nat} {t nd : Nat} {L l : List Nat} {q : Option Nat} :
    nd ∈ handed ls t L l q ↔ q = none ∧ nd ∈ L ∨ q = some t ∧ nd ∈ l ∨ ∃ u, u ≠ t ∧ q = some u ∧ nd ∈ ls (some u) := by
  cases q with
  | none => simp [handed]
  | some u =>
    by_cases hu : u = t
    · simp [handed, hu]
    · simp [handed, hu]

/-- After a step of a thread, with the nodes of the list and of the thread. No other thread has one of these: they were
    on the list, the thread's, or free. -/
theorem Lists.next {n : Nat} {st st' : St} {t : Nat} {x : Pc} {ls : Option Nat → List Nat} (h : Lists n st ls)
    (L l : List Nat) (hpc : st'.pc = update st.pc t x)
    (hsame : ∀ u nd, u ≠ t → nd ∈ ls (some u) → st'.nodes nd = st.nodes nd)
    (hhead : Linked st'.next st'.head L none) (hmine : NodesOf st'.next x l) (hL : L.Nodup) (hl : l.Nodup)
    (hapart : ∀ nd ∈ L, nd ∉ l)
    (hfrom : ∀ nd, nd ∈ L ∨ nd ∈ l → nd ∈ ls none ∨ nd ∈ ls (some t) ∨ st.nodes nd = none)
    (hall : ∀ nd, (∃ x, st'.nodes nd = some x) ↔ nd ∈ L ∨ nd ∈ l ∨ ∃ u, u ≠ t ∧ nd ∈ ls (some u))
    (hmarks : ∀ nd y, nd ∈ L ∨ nd ∈ l ∧ x.marking = false → st'.nodes nd = some y → n ≤ y.mark.length) :
    ∃ ls', Lists n st' ls' := by
  have hother : ∀ {nd u : Nat}, u ≠ t → nd ∈ ls (some u) → ¬ (nd ∈ L ∨ nd ∈ l) := by
    intro nd u hu hnd hmem
    rcases hfrom nd hmem with hnone | hmine | hfree
    · exact nomatch h.single nd _ _ hnone hnd
    · exact hu (Option.some.inj (h.single nd _ _ hnd hmine))
    · obtain ⟨y, hy⟩ := (h.all nd).2 ⟨_, hnd⟩
      exact nomatch hfree.symm.trans hy
  refine ⟨handed ls t L l, hhead, fun u => ?_, fun q => ?_, fun nd q q' hq hq' => ?_, fun nd => ?_,
    fun q nd y hq hmark hy => ?_⟩
  · rw [hpc]
    by_cases hu : u = t
    · subst hu
      rw [update_self, handed_self]
      exact hmine
    · rw [update_of_ne hu, handed_other hu]
      refine (h.threads u).congr fun nd hnd => ?_
      rw [St.next, St.next, hsame u nd hu hnd]
  · cases q with
    | none => exact hL
    | some u =>
      by_cases hu : u = t
      · subst hu
        rw [handed_self]
        exact hl
      · rw [handed_other hu]
        exact h.nodup _
  · rcases mem_handed.1 hq with ⟨rfl, hnd⟩ | ⟨rfl, hnd⟩ | ⟨u, hu, rfl, hnd⟩ <;>
      rcases mem_handed.1 hq' with ⟨rfl, hnd'⟩ | ⟨rfl, hnd'⟩ | ⟨u', hu', rfl, hnd'⟩
    · rfl
    · exact (hapart nd hnd hnd').elim
    · exact (hother hu' hnd' (.inl hnd)).elim
    · exact (hapart nd hnd' hnd).elim
    · rfl
    · exact (hother hu' hnd' (.inr hnd)).elim
    · exact (hother hu hnd (.inl hnd')).elim
    · exact (hother hu hnd (.inr hnd')).elim
    · exact h.single nd _ _ hnd hnd'
  · simp only [hall nd, mem_handed]
    constructor
    · rintro (hnd | hnd | ⟨u, hu, hnd⟩)
      · exact ⟨none, .inl ⟨rfl, hnd⟩⟩
      · exact ⟨some t, .inr (.inl ⟨rfl, hnd⟩)⟩
      · exact ⟨some u, .inr (.inr ⟨u, hu, rfl, hnd⟩)⟩
    · rintro ⟨q, ⟨-, hnd⟩ | ⟨-, hnd⟩ | ⟨u, hu, -, hnd⟩⟩
      · exact .inl hnd
      · exact .inr (.inl hnd)
      · exact .inr (.inr ⟨u, hu, hnd⟩)
  · rcases mem_handed.1 hq with ⟨rfl, hnd⟩ | ⟨rfl, hnd⟩ | ⟨u, hu, rfl, hnd⟩
    · exact hmarks nd y (.inl hnd) hy
    · have hmark := hmark t rfl
      rw [hpc, update_self] at hmark
      exact hmarks nd y (.inr ⟨hnd, hmark⟩) hy
    · have hmark := hmark u rfl
      rw [hpc, update_of_ne hu] at hmark
      rw [hsame u nd hu hnd] at hy
      refine h.marks (some u) nd y hnd (fun u' hu' => ?_) hy
      cases hu'
      exact hmark

section

variable {n : Nat} {st st' : St} {t : Nat} {x : Pc} {ls : Option Nat → List Nat}

theorem Lists.all_split (h : Lists n st ls) (t nd : Nat) :
    (∃ y, st.nodes nd = some y) ↔ nd ∈ ls none ∨ nd ∈ ls (some t) ∨ ∃ u, u ≠ t ∧ nd ∈ ls (some u) := by
  rw [h.all nd]
  constructor
  · rintro ⟨q, hq⟩
    cases q with
    | none => exact .inl hq
    | some u =>
      by_cases hu : u = t
      · exact .inr (.inl (hu ▸ hq))
      · exact .inr (.inr ⟨u, hu, hq⟩)
  · rintro (hnd | hnd | ⟨u, -, hnd⟩)
    · exact ⟨_, hnd⟩
    · exact ⟨_, hnd⟩
    · exact ⟨_, hnd⟩

theorem Lists.apart (h : Lists n st ls) (t : Nat) : ∀ nd ∈ ls none, nd ∉ ls (some t) := fun nd hnd hmine =>
  nomatch h.single nd _ _ hnd hmine

/-- A step that changes neither a node nor the head. -/
theorem Lists.same (h : Lists n st ls) (hpc : st'.pc = update st.pc t x) (hnodes : st'.nodes = st.nodes)
    (hhead : st'.head = st.head) (hmine : NodesOf st.next x (ls (some t)))
    (hmarks : x.marking = false → (st.pc t).marking = false ∨
      ∀ nd ∈ ls (some t), ∀ y, st.nodes nd = some y → n ≤ y.mark.length) : ∃ ls', Lists n st' ls' := by
  have hnext : st'.next = st.next := by
    funext nd
    rw [St.next, St.next, hnodes]
  refine h.next (ls none) (ls (some t)) hpc (fun u nd _ _ => by rw [hnodes]) ?_ ?_ (h.nodup _) (h.nodup _) (h.apart t)
    (fun nd hnd => hnd.elim .inl fun hnd => .inr (.inl hnd)) (fun nd => ?_) fun nd y hnd hy => ?_
  · rw [hnext, hhead]
    exact h.head
  · rw [hnext]
    exact hmine
  · rw [hnodes]
    exact h.all_split t nd
  · rw [hnodes] at hy
    rcases hnd with hnd | ⟨hnd, hmark⟩
    · exact h.marks none nd y hnd nofun hy
    · rcases hmarks hmark with hold | hnew
      · refine h.marks (some t) nd y hnd (fun u hu => ?_) hy
        cases hu
        exact hold
      · exact hnew nd hnd y hy

variable {nd : Nat} (h : Lists n st ls)

include h

/-- A thread writes to a node that it has, and has its nodes in another order. -/
theorem Lists.write (hnd : nd ∈ ls (some t)) {y : Node} (l : List Nat) (hperm : l.Perm (ls (some t)))
    (hpc : st'.pc = update st.pc t x) (hnodes : st'.nodes = update st.nodes nd (some y))
    (hhead : st'.head = st.head) (hmine : NodesOf st'.next x l)
    (hmarks : x.marking = false → (st.pc t).marking = false ∧ ∃ z, st.nodes nd = some z ∧ y.mark = z.mark) :
    ∃ ls', Lists n st' ls' := by
  have hsame : ∀ {nd'}, nd' ≠ nd → st'.nodes nd' = st.nodes nd' := fun hne => by rw [hnodes, update_of_ne hne]
  refine h.next (ls none) l hpc (fun u nd' hu hnd' => hsame ?_) ?_ hmine (h.nodup _) (hperm.nodup_iff.2 (h.nodup _))
    (fun nd' hnd' hl => h.apart t nd' hnd' (hperm.mem_iff.1 hl)) (fun nd' hnd' => ?_) (fun nd' => ?_)
    fun nd' z hnd' hz => ?_
  · rintro rfl
    exact hu (Option.some.inj (h.single _ _ _ hnd' hnd))
  · rw [hhead]
    refine h.head.congr fun nd' hnd' => ?_
    rw [St.next, St.next, hsame]
    rintro rfl
    exact h.apart t _ hnd' hnd
  · rcases hnd' with hnd' | hnd'
    · exact .inl hnd'
    · exact .inr (.inl (hperm.mem_iff.1 hnd'))
  · rw [hperm.mem_iff, ← h.all_split t nd']
    by_cases hne : nd' = nd
    · subst hne
      rw [hnodes, update_self]
      exact ⟨fun _ => (h.all _).2 ⟨_, hnd⟩, fun _ => ⟨_, rfl⟩⟩
    · rw [hsame hne]
  · rcases hnd' with hnd' | ⟨hnd', hmark⟩
    · have hne : nd' ≠ nd := fun heq => h.apart t _ hnd' (heq ▸ hnd)
      rw [hsame hne] at hz
      exact h.marks none nd' z hnd' nofun hz
    obtain ⟨hold, w, hw, hyw⟩ := hmarks hmark
    have hmine : ∀ u, some t = some u → (st.pc u).marking = false := by
      intro u hu
      cases hu
      exact hold
    by_cases hne : nd' = nd
    · subst hne
      rw [hnodes, update_self] at hz
      cases hz
      rw [hyw]
      exact h.marks (some t) nd' w hnd hmine hw
    · rw [hsame hne] at hz
      exact h.marks (some t) nd' z (hperm.mem_iff.1 hnd') hmine hz

/-- A thread that has no list allocates a node. -/
theorem Lists.malloc (hfree : st.nodes nd = none) (hnone : ls (some t) = []) {y : Node}
    (hpc : st'.pc = update st.pc t x) (hnodes : st'.nodes = update st.nodes nd (some y))
    (hhead : st'.head = st.head) (hmine : NodesOf st'.next x [nd]) (hmark : x.marking = true) :
    ∃ ls', Lists n st' ls' := by
  have hnew : ∀ q, nd ∉ ls q := by
    intro q hq
    obtain ⟨z, hz⟩ := (h.all nd).2 ⟨q, hq⟩
    exact nomatch hfree.symm.trans hz
  have hsame : ∀ {nd'}, nd' ≠ nd → st'.nodes nd' = st.nodes nd' := fun hne => by rw [hnodes, update_of_ne hne]
  refine h.next (ls none) [nd] hpc (fun u nd' hu hnd' => hsame fun heq => hnew _ (heq ▸ hnd')) ?_ hmine (h.nodup _)
    (pairwise_singleton _ _) (fun nd' hnd' hmem => hnew _ (mem_singleton.1 hmem ▸ hnd')) (fun nd' hnd' => ?_)
    (fun nd' => ?_) fun nd' z hnd' hz => ?_
  · rw [hhead]
    refine h.head.congr fun nd' hnd' => ?_
    rw [St.next, St.next, hsame fun heq => hnew _ (heq ▸ hnd')]
  · rcases hnd' with hnd' | hnd'
    · exact .inl hnd'
    · rw [mem_singleton.1 hnd']
      exact .inr (.inr hfree)
  · by_cases hne : nd' = nd
    · subst hne
      rw [hnodes, update_self]
      exact ⟨fun _ => .inr (.inl (mem_singleton.2 rfl)), fun _ => ⟨_, rfl⟩⟩
    · rw [hsame hne, h.all_split t nd', hnone]
      simp [hne]
  · rcases hnd' with hnd' | ⟨-, hfalse⟩
    · rw [hsame fun heq => hnew _ (heq ▸ hnd')] at hz
      exact h.marks none nd' z hnd' nofun hz
    · exact nomatch hmark.symm.trans hfalse

/-- The list and the nodes of a thread are divided anew: a push, a sweep that takes the list, a splice. -/
theorem Lists.regroup (L l : List Nat) (hpc : st'.pc = update st.pc t x) (hnodes : st'.nodes = st.nodes)
    (hperm : (L ++ l).Perm (ls none ++ ls (some t))) (hhead : Linked st.next st'.head L none)
    (hmine : NodesOf st.next x l) (hold : (st.pc t).marking = false) : ∃ ls', Lists n st' ls' := by
  have hnext : st'.next = st.next := by
    funext nd
    rw [St.next, St.next, hnodes]
  have hmem : ∀ nd, nd ∈ L ∨ nd ∈ l ↔ nd ∈ ls none ∨ nd ∈ ls (some t) := fun nd => by
    rw [← mem_append, ← mem_append, hperm.mem_iff]
  have hnodup : (L ++ l).Nodup := by
    rw [hperm.nodup_iff, nodup_append]
    refine ⟨h.nodup _, h.nodup _, fun a ha b hb => ?_⟩
    rintro rfl
    exact h.apart t a ha hb
  obtain ⟨hL, hl, hapart⟩ := nodup_append.1 hnodup
  refine h.next L l hpc (fun u nd _ _ => by rw [hnodes]) (hnext ▸ hhead) (hnext ▸ hmine) hL hl
    (fun nd hnd hnd' => hapart nd hnd nd hnd' rfl) (fun nd hnd => ?_) (fun nd => ?_) fun nd y hnd hy => ?_
  · rcases (hmem nd).1 hnd with hnd | hnd
    · exact .inl hnd
    · exact .inr (.inl hnd)
  · rw [hnodes, h.all_split t nd, ← or_assoc, ← or_assoc, hmem]
  · rw [hnodes] at hy
    have hnd : nd ∈ L ∨ nd ∈ l := hnd.imp_right And.left
    rcases (hmem nd).1 hnd with hnd | hnd
    · exact h.marks none nd y hnd nofun hy
    · refine h.marks (some t) nd y hnd (fun u hu => ?_) hy
      cases hu
      exact hold

/-- A thread releases the first of its nodes. -/
theorem Lists.free (hls : ls (some t) = nd :: l) (hpc : st'.pc = update st.pc t x)
    (hnodes : st'.nodes = update st.nodes nd none) (hhead : st'.head = st.head) (hmine : NodesOf st.next x l)
    (hold : (st.pc t).marking = false) : ∃ ls', Lists n st' ls' := by
  have hnd : nd ∈ ls (some t) := hls ▸ mem_cons_self
  have hmem : ∀ {nd'}, nd' ∈ l → nd' ∈ ls (some t) := fun hnd' => hls ▸ mem_cons_of_mem _ hnd'
  have hnodup := h.nodup (some t)
  rw [hls] at hnodup
  obtain ⟨hnot, hl⟩ := nodup_cons.1 hnodup
  have hsame : ∀ {nd'}, nd' ≠ nd → st'.nodes nd' = st.nodes nd' := fun hne => by rw [hnodes, update_of_ne hne]
  have hsame' : ∀ {nd'}, nd' ≠ nd → st'.next nd' = st.next nd' := fun hne => by rw [St.next, St.next, hsame hne]
  have hlist : ∀ nd' ∈ ls none, nd' ≠ nd := fun nd' hnd' heq => h.apart t _ hnd' (heq ▸ hnd)
  have hrest : ∀ nd' ∈ l, nd' ≠ nd := fun nd' hnd' heq => hnot (heq ▸ hnd')
  refine h.next (ls none) l hpc (fun u nd' hu hnd' => hsame ?_) ?_ (hmine.congr fun nd' hnd' => hsame' (hrest nd' hnd'))
    (h.nodup _) hl (fun nd' hnd' hmine => h.apart t _ hnd' (hmem hmine)) (fun nd' hnd' => ?_) (fun nd' => ?_)
    fun nd' z hnd' hz => ?_
  · rintro rfl
    exact hu (Option.some.inj (h.single _ _ _ hnd' hnd))
  · rw [hhead]
    exact h.head.congr fun nd' hnd' => hsame' (hlist nd' hnd')
  · rcases hnd' with hnd' | hnd'
    · exact .inl hnd'
    · exact .inr (.inl (hmem hnd'))
  · by_cases hne : nd' = nd
    · subst hne
      rw [hnodes, update_self]
      constructor
      · rintro ⟨y, hy⟩
        cases hy
      · rintro (hnd' | hnd' | ⟨u, hu, hnd'⟩)
        · exact (hlist _ hnd' rfl).elim
        · exact (hnot hnd').elim
        · exact (hu (Option.some.inj (h.single _ _ _ hnd' hnd))).elim
    · rw [hsame hne, h.all_split t nd', hls]
      simp [hne]
  · rcases hnd' with hnd' | ⟨hnd', -⟩
    · rw [hsame (hlist nd' hnd')] at hz
      exact h.marks none nd' z hnd' nofun hz
    · rw [hsame (hrest nd' hnd')] at hz
      refine h.marks (some t) nd' z (hmem hnd') (fun u hu => ?_) hz
      cases hu
      exact hold

omit h

end

/-! ## Steps -/

section

variable {n : Nat} {st st' : St} {t : Nat} {x : Pc} {ls : Option Nat → List Nat} {next : Nat → Option (Option Nat)}

theorem NodesOf.after {k : After} : NodesOf next k.pc [] := by
  cases k <;> exact rfl

theorem linked_none {b : Option Nat} (h : Linked next none l b) : l = [] := by
  cases l with
  | nil => rfl
  | cons y l => cases h.1

theorem Move.nodesOf {y : Pc} (h : Move n st x y) (hl : NodesOf st.next x l) : NodesOf st.next y l := by
  cases h with
  | leak p k =>
    obtain rfl : l = [] := hl
    exact NodesOf.after
  | pushRetry nd old k => exact hl.1
  | sweepNode nd kh kt x hx =>
    obtain ⟨C, K, rfl, hC, hK, hkt⟩ := hl
    cases C with
    | nil => cases hC
    | cons y C =>
      obtain ⟨hy, c, hc, hrest⟩ := hC
      cases hy
      rw [St.next, hx] at hc
      obtain rfl : x.next = c := Option.some.inj hc
      exact ⟨C, K, rfl, hrest, hK, hkt⟩
  | sweepKept kh kt =>
    obtain ⟨C, K, rfl, hC, hK, hkt⟩ := hl
    obtain rfl := linked_none hC
    exact ⟨none, hK, hkt⟩
  | sweepDone kh kt hnone =>
    obtain ⟨C, K, rfl, hC, hK, hkt⟩ := hl
    obtain rfl := linked_none hC
    rcases hnone with rfl | rfl
    · exact linked_none hK
    · exact getLast?_eq_none_iff.1 hkt
  | spliceRetry kh kt old => exact ⟨old, hl.1, hl.2⟩
  | _ => exact hl

theorem Move.lists (h : Move n st (st.pc t) x) (hinv : Lists n st ls) : ∃ ls', Lists n (st.setPc t x) ls' := by
  have hmine := hinv.threads t
  refine hinv.same (x := x) rfl rfl rfl (h.nodesOf hmine) fun hmark => ?_
  generalize st.pc t = y at h hmine
  cases h with
  | nodeDone nd k z hz hlen =>
    refine .inr fun nd' hnd' y hy => ?_
    have hls : ls (some t) = [nd] := hmine
    rw [hls] at hnd'
    rw [mem_singleton.1 hnd', hz] at hy
    cases hy
    exact Nat.le_of_not_lt hlen
  | _ => exact .inl rfl

theorem Switch.lists (h : Switch st t (st.pc t) st' x) (hinv : Lists n st ls) : ∃ ls', Lists n (st'.setPc t x) ls' := by
  have hmine := hinv.threads t
  generalize hy : st.pc t = y at h hmine
  cases h with
  | closeLock s nd hfree => exact hinv.same (x := .close s nd) rfl rfl rfl hmine nofun
  | closeUnlock s nd => exact hinv.same (x := .nodeMark nd .done) rfl rfl rfl hmine nofun
  | _ =>
    refine hinv.same rfl rfl rfl ?_ fun _ => .inl (hy ▸ rfl)
    exact hmine

theorem next_update {nd nd' : Nat} {y : Node} (hnodes : st'.nodes = update st.nodes nd (some y)) :
    st'.next nd' = if nd' = nd then some y.next else st.next nd' := by
  rw [St.next, hnodes]
  by_cases hnd : nd' = nd
  · subst hnd
    rw [update_self, if_pos rfl]
    rfl
  · rw [update_of_ne hnd, if_neg hnd]
    rfl

/-- A write to an own node, or an exchange of the head of the list, keeps the lists apart. -/
theorem Link.lists (h : Link st (st.pc t) st' x) (hinv : Lists n st ls) : ∃ ls', Lists n (st'.setPc t x) ls' := by
  have hmine := hinv.threads t
  have hnodup := hinv.nodup (some t)
  generalize hpc : st.pc t = y at h hmine
  have hold : y.marking = false → (st.pc t).marking = false := fun hy => hpc ▸ hy
  cases h with
  | pushNext nd old k z hz =>
    have hls : ls (some t) = [nd] := hmine
    refine hinv.write (x := .pushCas nd old k) (hls ▸ mem_singleton.2 rfl) _ (Perm.refl _) rfl rfl rfl ⟨hls, ?_⟩
      fun _ => ⟨hold rfl, z, hz, rfl⟩
    exact (next_update rfl).trans (if_pos rfl)
  | pushCas nd old k hhead =>
    obtain ⟨hls, hnext⟩ := hmine
    refine hinv.regroup (x := k.pc) (nd :: ls none) [] rfl rfl ?_ ⟨rfl, old, hnext, hhead ▸ hinv.head⟩ NodesOf.after
      (hold rfl)
    rw [append_nil, hls]
    exact (perm_append_singleton nd (ls none)).symm
  | take =>
    have hls : ls (some t) = [] := hmine
    refine hinv.regroup (x := .sweep st.head none none) [] (ls none) rfl rfl ?_ rfl
      ⟨ls none, [], (append_nil _).symm, hinv.head, rfl, rfl⟩ (hold rfl)
    rw [hls, append_nil]
    exact Perm.refl _
  | keep nd nx kh kt j z hz =>
    obtain ⟨C, K, hls, hC, hK, hkt⟩ := hmine
    rw [hls] at hnodup
    obtain ⟨hnot, -⟩ := nodup_cons.1 hnodup
    have hnext : ∀ nd' ∈ C ++ K, (st.setNode nd (some { z with next := kh })).next nd' = st.next nd' := by
      intro nd' hnd'
      rw [next_update rfl, if_neg]
      rintro rfl
      exact hnot hnd'
    -- the node goes from the front of the chain to the front of those that are kept
    refine hinv.write (x := .sweep nx (some nd) (kt.or (some nd))) (hls ▸ mem_cons_self) (C ++ nd :: K)
      (hls ▸ perm_middle) rfl rfl rfl ⟨C, nd :: K, rfl, hC.congr fun nd' hnd' => hnext nd' ?_, ?_, ?_⟩
      fun _ => ⟨hold rfl, z, hz, rfl⟩
    · exact mem_append_left _ hnd'
    · exact ⟨rfl, kh, (next_update rfl).trans (if_pos rfl),
        hK.congr fun nd' hnd' => hnext nd' (mem_append_right _ hnd')⟩
    · rw [getLast?_cons, ← hkt]
      cases K.getLast? <;> rfl
  | spliceNext kh kt old z hz =>
    obtain ⟨e, he, hkt⟩ := hmine
    refine hinv.write (x := .spliceCas kh kt old) (mem_of_getLast? hkt) _ (Perm.refl _) rfl rfl rfl ⟨?_, hkt⟩
      fun _ => ⟨hold rfl, z, hz, rfl⟩
    refine he.relink hkt hnodup (fun nd' hne => ?_) ((next_update rfl).trans (if_pos rfl))
    exact (next_update rfl).trans (if_neg hne)
  | spliceCas kh kt old hhead =>
    obtain ⟨hK, hkt⟩ := hmine
    refine hinv.regroup (x := .idle) (ls (some t) ++ ls none) [] rfl rfl ?_ (hK.append (hhead ▸ hinv.head)) rfl (hold rfl)
    rw [append_nil]
    exact perm_append_comm

theorem Hand.lists (h : Hand n st (st.pc t) st' x) (hinv : Lists n st ls) : ∃ ls', Lists n (st'.setPc t x) ls' := by
  have hmine := hinv.threads t
  generalize hpc : st.pc t = y at h hmine
  have hold : y.marking = false → (st.pc t).marking = false := fun hy => hpc ▸ hy
  cases h with
  | retire p nd k hnew => exact hinv.malloc (x := .nodeMark nd k) hnew hmine rfl rfl rfl rfl rfl
  | closing s nd hnew => exact hinv.malloc (x := .closeLock s nd) hnew hmine rfl rfl rfl rfl rfl
  | close s nd z hz =>
    have hls : ls (some t) = [nd] := hmine
    exact hinv.write (x := .closeUnlock s nd) (hls ▸ mem_singleton.2 rfl) _ (Perm.refl _) rfl rfl rfl hls nofun
  | nodeRead nd k z hz hlen =>
    have hls : ls (some t) = [nd] := hmine
    exact hinv.write (x := .nodeMark nd k) (hls ▸ mem_singleton.2 rfl) _ (Perm.refl _) rfl rfl rfl hls nofun
  | checkFree nd nx kh kt j z hz hj =>
    obtain ⟨C, K, hls, hC, hK, hkt⟩ := hmine
    obtain ⟨-, -, hpcs, -, hnodes, -, -, -, hhead⟩ := freeSlot_same ((st.free z.snaps).setNode nd none) z.idx
    refine hinv.free (x := .sweep nx kh kt) hls ?_ hnodes hhead ⟨C, K, rfl, hC, hK, hkt⟩ (hold rfl)
    exact congrArg (fun pc => update pc t (.sweep nx kh kt)) hpcs
  | _ =>
    refine hinv.same rfl rfl rfl ?_ fun _ => .inl (hold rfl)
    exact hmine

/-- Every step loses no node and shares none. -/
theorem ThreadStep.lists (h : ThreadStep n st t st') (hinv : Lists n st ls) : ∃ ls', Lists n st' ls' := by
  cases h with
  | move h | switch h | link h | hand h => exact h.lists hinv

end

end DvbIpiTools.Dipixy.Qsbr
