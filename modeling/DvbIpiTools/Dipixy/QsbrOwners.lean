import Mathlib.Data.List.Induction
import DvbIpiTools.Dipixy.Qsbr

set_option autoImplicit false

/-! # Who has a snapshot

Every snapshot is in one place: published, retiring at its store, in a node, in the hands of a thread, or freed. So it
is freed once at most. A step of a thread is a `ThreadStep`: it only goes on, changes a lock or a slot, links a node, or
hands snapshots over. Only the last kind changes who has what, and it takes them from places that the thread may touch:
the lock of a store makes its published and retiring snapshots the thread's. -/

namespace DvbIpiTools.Dipixy.Qsbr

open List Option Function

/-! ## What a step does -/

/-- A thread goes on, and nothing else changes. -/
inductive Move (n : Nat) (st : St) : Pc → Pc → Prop
  | load (s : Nat) : Move n st (.load s) (.store s (st.snap s))
  | giveUp (s : Nat) (old : Option Nat) : Move n st (.store s old) (.unlock s)
  | scanFull (s old i j : Nat) : Move n st (.scan s old i j) (.retire old (.unlock s))
  | scanDone (s old i j : Nat) : Move n st (.scan s old i j) (.mark s old [])
  | scanPass (s old i j p : Nat) (ms : List UInt64) (he : (st.retiring s)[i]? = some (p, ms)) (hj : j < n)
    (hpass : slotPassed (st.workers j).v (ms.getD j 0) = true) :
    Move n st (.scan s old i j) (.scan s old i (j + 1))
  | scanKeep (s old i j : Nat) : Move n st (.scan s old i j) (.scan s old (i + 1) 0)
  | markRead (s old : Nat) (ms : List UInt64) (hlt : ms.length < n) :
    Move n st (.mark s old ms) (.mark s old (ms ++ [(st.workers ms.length).v]))
  | retireNext (s p : Nat) (rest : List Nat) : Move n st (.drained s (p :: rest)) (.retire p (.drain s rest))
  | leak (p : Nat) (k : After) : Move n st (.retire p k) k.pc
  | nodeDone (nd : Nat) (k : After) (x : Node) (hx : st.nodes nd = some x) (hlen : ¬ x.mark.length < n) :
    Move n st (.nodeMark nd k) (.push nd k)
  | push (nd : Nat) (k : After) : Move n st (.push nd k) (.pushNext nd st.head k)
  | pushRetry (nd : Nat) (old : Option Nat) (k : After) : Move n st (.pushCas nd old k) (.pushNext nd st.head k)
  | sweepNode (nd : Nat) (kh kt : Option Nat) (x : Node) (hx : st.nodes nd = some x) :
    Move n st (.sweep (some nd) kh kt) (.check nd x.next kh kt 0)
  | sweepKept (kh kt : Nat) : Move n st (.sweep none (some kh) (some kt)) (.splice kh kt)
  | sweepDone (kh kt : Option Nat) (hnone : kh = none ∨ kt = none) : Move n st (.sweep none kh kt) .idle
  | checkPass (nd : Nat) (next kh kt : Option Nat) (j : Nat) (x : Node) (hx : st.nodes nd = some x) (hj : j < n)
    (hpass : slotPassed (st.workers j).v (x.mark.getD j 0) = true) :
    Move n st (.check nd next kh kt j) (.check nd next kh kt (j + 1))
  | splice (kh kt : Nat) : Move n st (.splice kh kt) (.spliceNext kh kt st.head)
  | spliceRetry (kh kt : Nat) (old : Option Nat) : Move n st (.spliceCas kh kt old) (.spliceNext kh kt st.head)

/-- A thread takes or gives back a lock, or changes the state of a slot, besides. -/
inductive Switch (st : St) (t : Nat) : Pc → St → Pc → Prop
  | publish (s : Nat) (hfree : st.locks s = none) : Switch st t .idle (st.setLock s (some t)) (.load s)
  | openStore (s : Nat) : Switch st t .idle (st.setSlot s .opening) (.openLock s)
  | closeStore (s : Nat) : Switch st t .idle (st.setSlot s .closing) (.closing s)
  | unlock (s : Nat) : Switch st t (.unlock s) (st.setLock s none) .idle
  | openLock (s : Nat) (hfree : st.locks s = none) : Switch st t (.openLock s) (st.setLock s (some t)) (.drain s)
  | enabled (s old : Nat) : Switch st t (.enabled s old) (st.setLock s none) (.retire old .done)
  | drained (s : Nat) : Switch st t (.drained s []) (st.setSlot s .opened) (.unlock s)
  | closeFail (s : Nat) : Switch st t (.closing s) (st.setSlot s .opened) .idle
  | closeLock (s nd : Nat) (hfree : st.locks s = none) :
    Switch st t (.closeLock s nd) (st.setLock s (some t)) (.close s nd)
  | closeUnlock (s nd : Nat) : Switch st t (.closeUnlock s nd) (st.setLock s none) (.nodeMark nd .done)

/-- A thread links a node, or takes the list or puts nodes on it. -/
inductive Link (st : St) : Pc → St → Pc → Prop
  | pushNext (nd : Nat) (old : Option Nat) (k : After) (x : Node) (hx : st.nodes nd = some x) :
    Link st (.pushNext nd old k) (st.setNode nd (some { x with next := old })) (.pushCas nd old k)
  | pushCas (nd : Nat) (old : Option Nat) (k : After) (hhead : st.head = old) :
    Link st (.pushCas nd old k) { st with head := some nd } k.pc
  | take : Link st .idle { st with head := none } (.sweep st.head none none)
  | keep (nd : Nat) (next kh kt : Option Nat) (j : Nat) (x : Node) (hx : st.nodes nd = some x) :
    Link st (.check nd next kh kt j) (st.setNode nd (some { x with next := kh }))
      (.sweep next (some nd) (kt.or (some nd)))
  | spliceNext (kh kt : Nat) (old : Option Nat) (x : Node) (hx : st.nodes kt = some x) :
    Link st (.spliceNext kh kt old) (st.setNode kt (some { x with next := old })) (.spliceCas kh kt old)
  | spliceCas (kh kt : Nat) (old : Option Nat) (hhead : st.head = old) :
    Link st (.spliceCas kh kt old) { st with head := some kh } .idle

/-- The slot of a store that was closed is free again. -/
def St.freeSlot (st : St) : Option Nat → St
  | none => st
  | some s => st.setSlot s .free

/-- A thread takes or hands over snapshots, or frees them. -/
inductive Hand (n : Nat) (st : St) : Pc → St → Pc → Prop
  | storeFirst (s : Nat) :
    Hand n st (.store s none) { st.setSnap s (some st.fresh) with fresh := st.fresh + 1 } (.unlock s)
  | store (s old : Nat) :
    Hand n st (.store s (some old)) { st.setSnap s (some st.fresh) with fresh := st.fresh + 1 } (.scan s old 0 0)
  | enable (s old : Nat) :
    Hand n st (.store s (some old)) { st.setSnap s (some st.fresh) with fresh := st.fresh + 1 } (.enabled s old)
  | scanFree (s old i j p : Nat) (ms : List UInt64) (he : (st.retiring s)[i]? = some (p, ms)) (hj : ¬ j < n) :
    Hand n st (.scan s old i j) ((st.free [p]).setRetiring s (dropEntry (st.retiring s) i)) (.scan s old i 0)
  | markDone (s old : Nat) (ms : List UInt64) (hlen : ¬ ms.length < n) :
    Hand n st (.mark s old ms) (st.setRetiring s (st.retiring s ++ [(old, ms)])) (.unlock s)
  | drain (s : Nat) :
    Hand n st (.drain s) ((st.setSnap s none).setRetiring s [])
      (.drained s ((st.snap s).toList ++ (st.retiring s).map Prod.fst))
  | retire (p nd : Nat) (k : After) (hnew : st.nodes nd = none) :
    Hand n st (.retire p k) (st.setNode nd (some ⟨none, [p], [], none⟩)) (.nodeMark nd k)
  | closing (s nd : Nat) (hnew : st.nodes nd = none) :
    Hand n st (.closing s) (st.setNode nd (some ⟨some s, [], [], none⟩)) (.closeLock s nd)
  | close (s nd : Nat) (x : Node) (hx : st.nodes nd = some x) :
    Hand n st (.close s nd) (((st.setSnap s none).setRetiring s []).setNode nd
      (some { x with snaps := (st.snap s).toList ++ (st.retiring s).map Prod.fst })) (.closeUnlock s nd)
  | nodeRead (nd : Nat) (k : After) (x : Node) (hx : st.nodes nd = some x) (hlen : x.mark.length < n) :
    Hand n st (.nodeMark nd k) (st.setNode nd (some { x with mark := x.mark ++ [(st.workers x.mark.length).v] }))
      (.nodeMark nd k)
  | checkFree (nd : Nat) (next kh kt : Option Nat) (j : Nat) (x : Node) (hx : st.nodes nd = some x) (hj : ¬ j < n) :
    Hand n st (.check nd next kh kt j) (((st.free x.snaps).setNode nd none).freeSlot x.idx) (.sweep next kh kt)

/-- All that a step of a thread can do. -/
inductive ThreadStep (n : Nat) (st : St) (t : Nat) : St → Prop
  | move {x : Pc} (h : Move n st (st.pc t) x) : ThreadStep n st t (st.setPc t x)
  | switch {st' : St} {x : Pc} (h : Switch st t (st.pc t) st' x) : ThreadStep n st t (st'.setPc t x)
  | link {st' : St} {x : Pc} (h : Link st (st.pc t) st' x) : ThreadStep n st t (st'.setPc t x)
  | hand {st' : St} {x : Pc} (h : Hand n st (st.pc t) st' x) : ThreadStep n st t (st'.setPc t x)

variable {n t : Nat} {st st' : St}

theorem begin_cases {op : Op} (h : begin st t op = some st') : ThreadStep n st t st' := by
  unfold begin at h
  split at h
  · next hidle =>
    cases op with
    | publish s =>
      simp only [] at h
      split at h
      · next hfree =>
        cases h
        exact .switch (hidle ▸ .publish s hfree)
      · cases h
    | openStore s =>
      simp only [] at h
      split at h
      · cases h
        exact .switch (hidle ▸ .openStore s)
      · cases h
    | closeStore s =>
      simp only [] at h
      split at h
      · cases h
        exact .switch (hidle ▸ .closeStore s)
      · cases h
    | sweep =>
      cases h
      exact .link (hidle ▸ .take)
  · cases h

variable {nd s : Nat} {ch : Choice}

theorem malloc_spec (h : st.malloc ch = some nd) : st.nodes nd = none := by
  simpa using (filter_eq_some_iff.1 h).2

variable {old : Option Nat}

/-- A publisher stores its snapshot, if there was memory for one. -/
theorem store_cases (hpc : st.pc t = .store s old) (h : threadStep n st t ch = some st') :
    ThreadStep n st t st' := by
  simp only [threadStep, hpc] at h
  split at h
  · cases old with
    | none =>
      cases h
      exact .hand (hpc ▸ .storeFirst s)
    | some old =>
      by_cases henable : ch.enable
      · simp only [henable, if_true] at h
        cases h
        exact .hand (hpc ▸ .enable s old)
      · simp only [henable] at h
        cases h
        exact .hand (hpc ▸ .store s old)
  · cases h
    exact .move (hpc ▸ .giveUp s old)

/-- `snap_retire` looks at an entry and a worker, or is through. -/
theorem scan_cases {old i j : Nat} (hpc : st.pc t = .scan s old i j) (h : threadStep n st t ch = some st') :
    ThreadStep n st t st' := by
  simp only [threadStep, hpc] at h
  split at h
  · cases h
    split
    · exact .move (hpc ▸ .scanFull s old i j)
    · exact .move (hpc ▸ .scanDone s old i j)
  rename_i p ms he
  split at h
  · next hj =>
    split at h
    · next hpass =>
      cases h
      exact .move (hpc ▸ .scanPass s old i j p ms he hj hpass)
    · cases h
      exact .move (hpc ▸ .scanKeep s old i j)
  · next hj =>
    cases h
    exact .hand (hpc ▸ .scanFree s old i j p ms he hj)

/-- A sweep is through with the list. -/
theorem sweepEnd_cases {kh kt : Option Nat} (hpc : st.pc t = .sweep none kh kt) (h : threadStep n st t ch = some st') :
    ThreadStep n st t st' := by
  simp only [threadStep, hpc] at h
  split at h
  · next kh kt =>
    cases h
    exact .move (hpc ▸ .sweepKept kh kt)
  · next hnone =>
    cases h
    refine .move (hpc ▸ .sweepDone kh kt ?_)
    cases kh with
    | none => exact .inl rfl
    | some kh =>
      cases kt with
      | none => exact .inr rfl
      | some kt => exact (hnone kh kt rfl rfl).elim

/-- A sweep looks at a node and a worker. -/
theorem check_cases {next kh kt : Option Nat} {j : Nat} (hpc : st.pc t = .check nd next kh kt j)
    (h : threadStep n st t ch = some st') : ThreadStep n st t st' := by
  simp only [threadStep, hpc] at h
  obtain ⟨x, hx, rfl⟩ := map_eq_some_iff.1 h
  by_cases hj : j < n
  · rw [if_pos hj]
    by_cases hpass : slotPassed (st.workers j).v (x.mark.getD j 0) = true
    · rw [if_pos hpass]
      exact .move (hpc ▸ .checkPass nd next kh kt j x hx hj hpass)
    · rw [if_neg hpass]
      exact .link (hpc ▸ .keep nd next kh kt j x hx)
  rw [if_neg hj]
  have hhand := Hand.checkFree nd next kh kt j x hx hj
  rw [← hpc] at hhand
  have hstep := ThreadStep.hand hhand
  cases hidx : x.idx with
  | _ =>
    rw [hidx] at hstep
    exact hstep

/-- Whatever a thread does is one of the kinds of steps. -/
theorem threadStep_cases (h : threadStep n st t ch = some st') : ThreadStep n st t st' := by
  have hstep := h
  unfold threadStep at h
  split at h
  · cases h
  · next s hpc =>
    cases h
    exact .move (hpc ▸ .load s)
  · next s old hpc => exact store_cases hpc hstep
  · next s old i j hpc => exact scan_cases hpc hstep
  · next s old ms hpc =>
    split at h
    · next hlt =>
      cases h
      exact .move (hpc ▸ .markRead s old ms hlt)
    · next hlt =>
      cases h
      exact .hand (hpc ▸ .markDone s old ms hlt)
  · next s hpc =>
    cases h
    exact .switch (hpc ▸ .unlock s)
  · next s old hpc =>
    cases h
    exact .switch (hpc ▸ .enabled s old)
  · next s hpc =>
    split at h
    · next hfree =>
      cases h
      exact .switch (hpc ▸ .openLock s hfree)
    · cases h
  · next s hpc =>
    cases h
    exact .hand (hpc ▸ .drain s)
  · next s hpc =>
    cases h
    exact .switch (hpc ▸ .drained s)
  · next s p rest hpc =>
    cases h
    exact .move (hpc ▸ .retireNext s p rest)
  · next p k hpc =>
    split at h
    · cases h
      exact .move (hpc ▸ .leak p k)
    · next nd hnd =>
      cases h
      exact .hand (hpc ▸ .retire p nd k (malloc_spec hnd))
  · next s hpc =>
    split at h
    · cases h
      exact .switch (hpc ▸ .closeFail s)
    · next nd hnd =>
      cases h
      exact .hand (hpc ▸ .closing s nd (malloc_spec hnd))
  · next s nd hpc =>
    split at h
    · next hfree =>
      cases h
      exact .switch (hpc ▸ .closeLock s nd hfree)
    · cases h
  · next s nd hpc =>
    obtain ⟨x, hx, rfl⟩ := map_eq_some_iff.1 h
    exact .hand (hpc ▸ .close s nd x hx)
  · next s nd hpc =>
    cases h
    exact .switch (hpc ▸ .closeUnlock s nd)
  · next nd k hpc =>
    obtain ⟨x, hx, rfl⟩ := map_eq_some_iff.1 h
    split
    · next hlen =>
      have hhand := Hand.nodeRead nd k x hx hlen
      rw [← hpc] at hhand
      have hstep := ThreadStep.hand hhand
      rwa [St.setPc, St.setNode, update_eq_self] at hstep
    · next hlen => exact .move (hpc ▸ .nodeDone nd k x hx hlen)
  · next nd k hpc =>
    cases h
    exact .move (hpc ▸ .push nd k)
  · next nd old k hpc =>
    obtain ⟨x, hx, rfl⟩ := map_eq_some_iff.1 h
    exact .link (hpc ▸ .pushNext nd old k x hx)
  · next nd old k hpc =>
    split at h
    · next hok =>
      cases h
      exact .link (hpc ▸ .pushCas nd old k hok.2)
    · cases h
      exact .move (hpc ▸ .pushRetry nd old k)
  · next nd kh kt hpc =>
    obtain ⟨x, hx, rfl⟩ := map_eq_some_iff.1 h
    exact .move (hpc ▸ .sweepNode nd kh kt x hx)
  · next kh kt hpc => exact sweepEnd_cases hpc hstep
  · next nd next kh kt j hpc => exact check_cases hpc hstep
  · next kh kt hpc =>
    cases h
    exact .move (hpc ▸ .splice kh kt)
  · next kh kt old hpc =>
    obtain ⟨x, hx, rfl⟩ := map_eq_some_iff.1 h
    exact .link (hpc ▸ .spliceNext kh kt old x hx)
  · next kh kt old hpc =>
    split at h
    · next hok =>
      cases h
      exact .link (hpc ▸ .spliceCas kh kt old hok.2)
    · cases h
      exact .move (hpc ▸ .spliceRetry kh kt old)

/-! ## Locks -/

def After.locked : After → Option Nat
  | .unlock s => some s
  | .drain s _ => some s
  | .done => none

/-- The store whose lock a thread has. -/
def Pc.locked : Pc → Option Nat
  | .load s => some s
  | .store s _ => some s
  | .scan s _ _ _ => some s
  | .mark s _ _ => some s
  | .unlock s => some s
  | .enabled s _ => some s
  | .drain s => some s
  | .drained s _ => some s
  | .retire _ k => k.locked
  | .close s _ => some s
  | .closeUnlock s _ => some s
  | .nodeMark _ k => k.locked
  | .push _ k => k.locked
  | .pushNext _ _ k => k.locked
  | .pushCas _ _ k => k.locked
  | _ => none

@[simp] theorem After.locked_pc (k : After) : k.pc.locked = k.locked := by cases k <;> rfl

/-- With the lock of a store, its published snapshot stays. -/
structure Locks (st : St) : Prop where
  locked : ∀ t s, (st.pc t).locked = some s → st.locks s = some t
  stored : ∀ t s old, st.pc t = .store s old → st.snap s = old

/-- A step keeps the invariant of the locks if it takes only a free one and gives up only its own. -/
theorem Locks.next {st st' : St} {t : Nat} {x : Pc} (h : Locks st) (hpc : st'.pc = update st.pc t x)
    (hmine : ∀ s, x.locked = some s → st'.locks s = some t)
    (hother : ∀ u s, u ≠ t → st.locks s = some u → st'.locks s = some u)
    (hsnap : ∀ s, st'.snap s = st.snap s ∨ st.locks s = some t)
    (hstored : ∀ s old, x = .store s old → st'.snap s = old) : Locks st' := by
  constructor
  · intro u s hu
    rw [hpc] at hu
    by_cases hut : u = t
    · subst hut
      rw [update_self] at hu
      exact hmine s hu
    · rw [update_of_ne hut] at hu
      exact hother u s hut (h.locked u s hu)
  intro u s old hu
  rw [hpc] at hu
  by_cases hut : u = t
  · subst hut
    rw [update_self] at hu
    exact hstored s old hu
  · rw [update_of_ne hut] at hu
    rcases hsnap s with hsame | hmine
    · exact hsame.trans (h.stored u s old hu)
    · have hlock := h.locked u s (by rw [hu]; rfl)
      exact (hut (some.inj (hlock.symm.trans hmine))).elim

variable {x y : Pc}

theorem Move.locked (h : Move n st x y) : y.locked = x.locked := by
  cases h <;> first | rfl | exact After.locked_pc _

theorem Move.stored (h : Move n st x y) (hy : y = .store s old) : st.snap s = old := by
  cases h with
  | load s =>
    cases hy
    rfl
  | leak p k => cases k <;> cases hy
  | _ => cases hy

theorem Link.locked (h : Link st x st' y) :
    y.locked = x.locked ∧ st'.locks = st.locks ∧ st'.snap = st.snap ∧ st'.pc = st.pc := by
  cases h with
  | pushCas nd old k hhead => exact ⟨After.locked_pc k, rfl, rfl, rfl⟩
  | _ => exact ⟨rfl, rfl, rfl, rfl⟩

@[simp] theorem freeSlot_same (st : St) (s : Option Nat) : (st.freeSlot s).locks = st.locks ∧
    (st.freeSlot s).snap = st.snap ∧ (st.freeSlot s).pc = st.pc ∧ (st.freeSlot s).retiring = st.retiring ∧
    (st.freeSlot s).nodes = st.nodes ∧ (st.freeSlot s).freed = st.freed ∧ (st.freeSlot s).fresh = st.fresh ∧
    (st.freeSlot s).workers = st.workers ∧ (st.freeSlot s).head = st.head := by
  cases s <;> exact ⟨rfl, rfl, rfl, rfl, rfl, rfl, rfl, rfl, rfl⟩

theorem Hand.locked (h : Hand n st x st' y) :
    y.locked = x.locked ∧ st'.locks = st.locks ∧ (∀ s, st'.snap s = st.snap s ∨ x.locked = some s) ∧
      st'.pc = st.pc := by
  have hset : ∀ (s s' : Nat) (p : Option Nat), update st.snap s p s' = st.snap s' ∨ some s = some s' := by
    intro s s' p
    by_cases hs : s' = s
    · exact .inr (congrArg some hs.symm)
    · exact .inl (update_of_ne hs _ _)
  cases h with
  | storeFirst s | store s | enable s | drain s | close s => exact ⟨rfl, rfl, fun s' => hset s s' _, rfl⟩
  | checkFree nd next kh kt j x hx hj =>
    obtain ⟨hl, hs, hp, -⟩ := freeSlot_same ((st.free x.snaps).setNode nd none) x.idx
    exact ⟨rfl, hl, fun s => .inl (congrFun hs s), hp⟩
  | _ => exact ⟨rfl, rfl, fun _ => .inl rfl, rfl⟩

theorem Link.not_store (h : Link st x st' y) (s : Nat) (old : Option Nat) : y ≠ .store s old := by
  cases h with
  | pushCas nd old k hhead => cases k <;> exact nofun
  | _ => exact nofun

theorem Hand.not_store (h : Hand n st x st' y) (s : Nat) (old : Option Nat) : y ≠ .store s old := by
  cases h <;> exact nofun

theorem Switch.locks (h : Switch st t x st' y) (hx : st.pc t = x) (hinv : Locks st) : Locks (st'.setPc t y) := by
  have hset : ∀ s, st.locks s = none → ∀ u s', u ≠ t → st.locks s' = some u →
      update st.locks s (some t) s' = some u := by
    intro s hfree u s' hut hu
    rw [update_of_ne]
    · exact hu
    · rintro rfl
      exact nomatch hfree.symm.trans hu
  have hdrop : ∀ s, st.locks s = some t → ∀ u s', u ≠ t → st.locks s' = some u →
      update st.locks s none s' = some u := by
    intro s hmine u s' hut hu
    rw [update_of_ne]
    · exact hu
    · rintro rfl
      exact hut (some.inj (hu.symm.trans hmine))
  have htake : ∀ {s y}, st.locks s = none → (∀ s', y.locked = some s' → s = s') → (∀ s' old, y ≠ .store s' old) →
      Locks ((st.setLock s (some t)).setPc t y) := by
    intro s y hfree hy hstore
    refine hinv.next rfl (fun s' hs' => ?_) (hset s hfree) (fun _ => .inl rfl) fun s' old hx => (hstore s' old hx).elim
    obtain rfl := hy s' hs'
    exact update_self _ _ _
  cases h with
  | publish s hfree => exact htake hfree (fun _ hs => some.inj hs) nofun
  | openLock s hfree => exact htake hfree (fun _ hs => some.inj hs) nofun
  | closeLock s nd hfree => exact htake hfree (fun _ hs => some.inj hs) nofun
  | unlock s | enabled s | closeUnlock s =>
    exact hinv.next rfl nofun (hdrop s (hinv.locked t s (by rw [hx]; rfl))) (fun _ => .inl rfl) nofun
  | drained s =>
    refine hinv.next rfl (fun s' hs' => ?_) (fun _ _ _ hu => hu) (fun _ => .inl rfl) nofun
    exact hinv.locked t s' (by rw [hx]; exact hs')
  | _ => exact hinv.next rfl nofun (fun _ _ _ hu => hu) (fun _ => .inl rfl) nofun

/-- Every step keeps the invariant of the locks. -/
theorem ThreadStep.locks (h : ThreadStep n st t st') (hinv : Locks st) : Locks st' := by
  cases h with
  | @move x hmove =>
    refine hinv.next rfl (fun s hs => ?_) (fun _ _ _ hu => hu) (fun _ => .inl rfl) fun s old hx => hmove.stored hx
    exact hinv.locked t s (by rw [← hmove.locked]; exact hs)
  | @switch st' x hswitch => exact hswitch.locks rfl hinv
  | @link st' x hlink =>
    obtain ⟨hlocked, hlocks, hsnap, hpc⟩ := hlink.locked
    refine hinv.next (x := x) (by rw [← hpc]; rfl) (fun s hs => ?_) (fun u s _ hu => ?_)
      (fun s => .inl (congrFun hsnap s)) fun s old hx => (hlink.not_store s old hx).elim
    · exact (congrFun hlocks s).trans (hinv.locked t s (by rw [← hlocked]; exact hs))
    · exact (congrFun hlocks s).trans hu
  | @hand st' x hhand =>
    obtain ⟨hlocked, hlocks, hsnap, hpc⟩ := hhand.locked
    refine hinv.next (x := x) (by rw [← hpc]; rfl) (fun s hs => ?_) (fun u s _ hu => ?_) (fun s => ?_)
      fun s old hx => (hhand.not_store s old hx).elim
    · exact (congrFun hlocks s).trans (hinv.locked t s (by rw [← hlocked]; exact hs))
    · exact (congrFun hlocks s).trans hu
    · rcases hsnap s with hsame | hmine
      · exact .inl hsame
      · exact .inr (hinv.locked t s hmine)

/-! ## Places -/

def After.hand : After → List Nat
  | .drain _ rest => rest
  | _ => []

/-- The snapshots that a thread has taken from where they were. -/
def Pc.hand : Pc → List Nat
  | .scan _ old _ _ => [old]
  | .mark _ old _ => [old]
  | .enabled _ old => [old]
  | .drained _ rest => rest
  | .retire p k => p :: k.hand
  | .nodeMark _ k => k.hand
  | .push _ k => k.hand
  | .pushNext _ _ k => k.hand
  | .pushCas _ _ k => k.hand
  | _ => []

@[simp] theorem After.hand_pc (k : After) : k.pc.hand = k.hand := by cases k <;> rfl

/-- Where a snapshot can be. -/
inductive Place
  | fresh
  | current (s : Nat)
  | retiring (s : Nat)
  | node (nd : Nat)
  | thread (t : Nat)
  | freed

/-- The snapshots at a place. -/
def Has (st : St) : Place → Nat → Prop
  | .fresh, p => st.fresh ≤ p
  | .current s, p => st.snap s = some p
  | .retiring s, p => p ∈ (st.retiring s).map Prod.fst
  | .node nd, p => ∃ x, st.nodes nd = some x ∧ p ∈ x.snaps
  | .thread t, p => p ∈ (st.pc t).hand
  | .freed, p => p ∈ st.freed

/-- Every snapshot is at one place, and there once. -/
structure Owns (st : St) : Prop where
  single : ∀ p q q', Has st q p → Has st q' p → q = q'
  hands : ∀ t, (st.pc t).hand.Nodup
  retiring : ∀ s, ((st.retiring s).map Prod.fst).Nodup
  nodes : ∀ nd x, st.nodes nd = some x → x.snaps.Nodup
  freed : st.freed.Nodup

variable {p : Nat}

theorem has_setPc (hpc : st'.pc = st.pc) {q : Place}
    (h : Has (st'.setPc t x) q p) : q = .thread t ∧ p ∈ x.hand ∨ q ≠ .thread t ∧ Has { st' with pc := st.pc } q p := by
  cases q with
  | thread u =>
    have h : p ∈ (update st'.pc t x u).hand := h
    by_cases hut : u = t
    · subst hut
      rw [update_self] at h
      exact .inl ⟨rfl, h⟩
    · rw [update_of_ne hut, hpc] at h
      exact .inr ⟨fun heq => hut (Place.thread.inj heq), h⟩
  | _ => exact .inr ⟨nofun, h⟩

theorem hands_setPc (hpc : st'.pc = st.pc) (h : ∀ u, (st.pc u).hand.Nodup)
    (hx : x.hand.Nodup) (u : Nat) : ((st'.setPc t x).pc u).hand.Nodup := by
  show (update st'.pc t x u).hand.Nodup
  by_cases hut : u = t
  · subst hut
    rw [update_self]
    exact hx
  · rw [update_of_ne hut, hpc]
    exact h u

/-- Snapshots that move, each to one place, are in one place. -/
theorem single_of_moved (h : Owns st) (moved : Nat → Place → Prop) (hfun : ∀ p q q', moved p q → moved p q' → q = q')
    (hst' : ∀ q p, Has st' q p → (Has st q p ∧ ∀ q', ¬ moved p q') ∨ moved p q) :
    ∀ p q q', Has st' q p → Has st' q' p → q = q' := by
  intro p q q' hq hq'
  rcases hst' q p hq with ⟨hold, hno⟩ | hmoved
  · rcases hst' q' p hq' with ⟨hold', -⟩ | hmoved'
    · exact h.single p q q' hold hold'
    · exact (hno q' hmoved').elim
  · rcases hst' q' p hq' with ⟨-, hno⟩ | hmoved'
    · exact (hno q hmoved).elim
    · exact hfun p q q' hmoved hmoved'

/-- A step that puts no snapshot anywhere it was not. -/
theorem Owns.stay (h : Owns st) (hst' : ∀ q p, Has st' q p → Has st q p)
    (hhands : ∀ t, (st'.pc t).hand.Nodup) (hretiring : st'.retiring = st.retiring)
    (hnodes : ∀ nd x, st'.nodes nd = some x → x.snaps.Nodup) (hfreed : st'.freed = st.freed) : Owns st' :=
  ⟨fun p q q' hq hq' => h.single p q q' (hst' q p hq) (hst' q' p hq'), hhands, hretiring ▸ h.retiring, hnodes,
    hfreed ▸ h.freed⟩

theorem Move.hand {n : Nat} {st : St} {x y : Pc} (h : Move n st x y) : ∃ gone, x.hand = gone ++ y.hand := by
  cases h with
  | leak p k => exact ⟨[p], by rw [After.hand_pc]; rfl⟩
  | _ => exact ⟨[], rfl⟩

/-- Who only goes on keeps what he has, or drops it. -/
theorem Move.owns (h : Move n st (st.pc t) x) (hinv : Owns st) : Owns (st.setPc t x) := by
  obtain ⟨gone, hgone⟩ := h.hand
  have hnodup := hinv.hands t
  rw [hgone] at hnodup
  refine hinv.stay (fun q p hq => ?_) (hands_setPc rfl hinv.hands (nodup_append.1 hnodup).2.1) rfl hinv.nodes rfl
  rcases has_setPc rfl hq with ⟨rfl, hp⟩ | ⟨-, hold⟩
  · show p ∈ (st.pc t).hand
    rw [hgone]
    exact mem_append_right _ hp
  · exact hold

theorem Owns.same (h : Owns st) (hhand : x.hand = (st.pc t).hand)
    (hpc : st'.pc = st.pc) (hretiring : st'.retiring = st.retiring) (hfreed : st'.freed = st.freed)
    (hsnap : st'.snap = st.snap) (hfresh : st'.fresh = st.fresh)
    (hnodes : ∀ nd z, st'.nodes nd = some z → ∃ z', st.nodes nd = some z' ∧ z.snaps = z'.snaps) :
    Owns (st'.setPc t x) := by
  refine h.stay (fun q p hq => ?_) (hands_setPc hpc h.hands (hhand ▸ h.hands t)) hretiring (fun nd z hz => ?_) hfreed
  · rcases has_setPc hpc hq with ⟨rfl, hp⟩ | ⟨-, hold⟩
    · rw [hhand] at hp
      exact hp
    cases q with
    | fresh =>
      rw [hfresh] at hold
      exact hold
    | current s => exact (congrFun hsnap s).symm.trans hold
    | retiring s =>
      rw [hretiring] at hold
      exact hold
    | node nd =>
      obtain ⟨z, hz, hp⟩ := hold
      obtain ⟨z', hz', hsnaps⟩ := hnodes nd z hz
      exact ⟨z', hz', hsnaps ▸ hp⟩
    | thread u => exact hold
    | freed =>
      rw [hfreed] at hold
      exact hold
  · obtain ⟨z', hz', hsnaps⟩ := hnodes nd z hz
    exact hsnaps ▸ h.nodes nd z' hz'

theorem Switch.owns (h : Switch st t (st.pc t) st' x) (hinv : Owns st) : Owns (st'.setPc t x) := by
  generalize hy : st.pc t = y at h
  cases h <;> exact hinv.same (hy ▸ rfl) rfl rfl rfl rfl rfl fun nd z hz => ⟨z, hz, rfl⟩

theorem Link.nodes (h : Link st x st' y) {z : Node} (hz : st'.nodes nd = some z) :
    ∃ z', st.nodes nd = some z' ∧ z.snaps = z'.snaps ∧ z.mark = z'.mark := by
  have hset : ∀ {nd' : Nat} {w : Node} {next : Option Nat}, st.nodes nd' = some w →
      update st.nodes nd' (some { w with next }) nd = some z →
      ∃ z', st.nodes nd = some z' ∧ z.snaps = z'.snaps ∧ z.mark = z'.mark := by
    intro nd' w next hw hz
    by_cases hnd : nd = nd'
    · subst hnd
      rw [update_self] at hz
      cases hz
      exact ⟨w, hw, rfl, rfl⟩
    · rw [update_of_ne hnd] at hz
      exact ⟨z, hz, rfl, rfl⟩
  cases h with
  | pushNext nd' old k w hw => exact hset hw hz
  | keep nd' next kh kt j w hw => exact hset hw hz
  | spliceNext kh kt old w hw => exact hset hw hz
  | _ => exact ⟨z, hz, rfl, rfl⟩

theorem Link.owns (h : Link st (st.pc t) st' x) (hinv : Owns st) : Owns (st'.setPc t x) := by
  have hnodes : ∀ nd z, st'.nodes nd = some z → ∃ z', st.nodes nd = some z' ∧ z.snaps = z'.snaps := by
    intro nd z hz
    obtain ⟨z', hz', hsnaps, -⟩ := h.nodes hz
    exact ⟨z', hz', hsnaps⟩
  generalize hy : st.pc t = y at h
  cases h with
  | pushCas nd old k hhead => exact hinv.same (by rw [hy, After.hand_pc]; rfl) rfl rfl rfl rfl rfl hnodes
  | _ => exact hinv.same (hy ▸ rfl) rfl rfl rfl rfl rfl hnodes

/-- A step that takes snapshots from some places and puts them in another one. -/
theorem Owns.give (h : Owns st) (ps : List Nat) (srcs : Place → Prop) (dst : Place) (hdst : ¬ srcs dst)
    (hps : ∀ p ∈ ps, ∃ src, srcs src ∧ Has st src p) (hsrc : ∀ q p, srcs q → Has st' q p → Has st q p ∧ p ∉ ps)
    (hnew : ∀ p, Has st' dst p → Has st dst p ∨ p ∈ ps)
    (hother : ∀ q p, ¬ srcs q → q ≠ dst → Has st' q p → Has st q p) :
    ∀ p q q', Has st' q p → Has st' q' p → q = q' := by
  have hstay : ∀ q p, ¬ srcs q → Has st q p → p ∉ ps := by
    intro q p hq hp hmem
    obtain ⟨src, hs, hhas⟩ := hps p hmem
    exact hq (h.single p src q hhas hp ▸ hs)
  refine single_of_moved h (fun p q => p ∈ ps ∧ q = dst) (fun p q q' hq hq' => hq.2.trans hq'.2.symm) fun q p hp => ?_
  have hold : Has st q p ∧ p ∉ ps → (Has st q p ∧ ∀ q', ¬ (p ∈ ps ∧ q' = dst)) ∨ p ∈ ps ∧ q = dst := fun hq =>
    .inl ⟨hq.1, fun q' hq' => hq.2 hq'.1⟩
  by_cases hs : srcs q
  · exact hold (hsrc q p hs hp)
  by_cases hd : q = dst
  · subst hd
    rcases hnew p hp with hq | hmem
    · exact hold ⟨hq, hstay q p hs hq⟩
    · exact .inr ⟨hmem, rfl⟩
  · have hq := hother q p hs hd hp
    exact hold ⟨hq, hstay q p hs hq⟩

theorem update_cases {α : Type} {f : Nat → α} {s' : Nat} {y z : α} (h : update f s y s' = z) :
    s' = s ∧ y = z ∨ s' ≠ s ∧ f s' = z := by
  by_cases hs : s' = s
  · subst hs
    rw [update_self] at h
    exact .inl ⟨rfl, h⟩
  · rw [update_of_ne hs] at h
    exact .inr ⟨hs, h⟩

theorem dropEntry_perm {α : Type} {es : List α} {i : Nat} {e : α} (he : es[i]? = some e) :
    es.Perm (e :: dropEntry es i) := by
  obtain ⟨hlt, hget⟩ := List.getElem?_eq_some_iff.1 he
  induction es using reverseRecOn with
  | nil => cases he
  | append_singleton init last _ =>
    have hdrop : dropEntry (init ++ [last]) i = ((init ++ [last]).set i last).dropLast := by
      rw [dropEntry, getLast?_append]
      rfl
    rw [hdrop]
    rw [length_append, length_singleton] at hlt
    by_cases hi : i < init.length
    · rw [set_append_left _ _ hi, dropLast_concat]
      have hget' : init[i] = e := by rw [← hget, getElem_append_left hi]
      have hset : init.set i last = init.take i ++ last :: init.drop (i + 1) := set_eq_take_append_cons_drop.trans
        (if_pos hi)
      have hinit : init = init.take i ++ e :: init.drop (i + 1) := by
        rw [← hget', getElem_cons_drop, take_append_drop]
      rw [hset]
      calc (init ++ [last]).Perm (last :: init) := perm_append_singleton last init
        _ = last :: (init.take i ++ e :: init.drop (i + 1)) := by rw [← hinit]
        List.Perm _ (last :: e :: (init.take i ++ init.drop (i + 1))) := (perm_middle).cons last
        List.Perm _ (e :: last :: (init.take i ++ init.drop (i + 1))) := List.Perm.swap _ _ _
        List.Perm _ (e :: (init.take i ++ last :: init.drop (i + 1))) := (perm_middle.symm).cons e
    · have hlast : i = init.length := by omega
      subst hlast
      have hget' : last = e := by
        rw [← hget]
        simp
      rw [hget', set_append_right _ _ (Nat.le_refl _), Nat.sub_self, set_cons_zero, dropLast_concat]
      exact perm_append_singleton e init

theorem retire_owns {k : After} (hpc : st.pc t = .retire p k) (hnew : st.nodes nd = none)
    (h : Owns st) : Owns ((st.setNode nd (some ⟨none, [p], [], none⟩)).setPc t (.nodeMark nd k)) := by
  have hhand : (st.pc t).hand = p :: k.hand := by rw [hpc]; rfl
  have hnodup := h.hands t
  rw [hhand] at hnodup
  obtain ⟨hp, hrest⟩ := nodup_cons.1 hnodup
  refine ⟨h.give [p] (· = .thread t) (.node nd) nofun ?_ ?_ ?_ ?_, hands_setPc rfl h.hands hrest, h.retiring, ?_, h.freed⟩
  · intro a ha
    refine ⟨.thread t, rfl, ?_⟩
    show a ∈ (st.pc t).hand
    rw [hhand, mem_singleton.1 ha]
    exact mem_cons_self
  · rintro q a rfl ha
    rcases has_setPc rfl ha with ⟨-, hk⟩ | ⟨hne, -⟩
    · refine ⟨?_, fun hap => hp (mem_singleton.1 hap ▸ hk)⟩
      show a ∈ (st.pc t).hand
      rw [hhand]
      exact mem_cons_of_mem _ hk
    · exact (hne rfl).elim
  · rintro a ⟨x, hx, ha⟩
    rcases update_cases hx with ⟨-, hx⟩ | ⟨hne, -⟩
    · cases hx
      exact .inr ha
    · exact (hne rfl).elim
  · intro q a hq hnd ha
    rcases has_setPc rfl ha with ⟨heq, -⟩ | ⟨-, hold⟩
    · exact (hq heq).elim
    cases q with
    | node nd' =>
      obtain ⟨x, hx, ha⟩ := hold
      rcases update_cases hx with ⟨rfl, -⟩ | ⟨-, hx⟩
      · exact (hnd rfl).elim
      · exact ⟨x, hx, ha⟩
    | _ => exact hold
  · intro nd' x hx
    rcases update_cases hx with ⟨-, hx⟩ | ⟨-, hx⟩
    · cases hx
      exact pairwise_singleton _ p
    · exact h.nodes nd' x hx

variable {ms : List UInt64}

theorem markDone_owns {old : Nat} (hpc : st.pc t = .mark s old ms) (h : Owns st) :
    Owns ((st.setRetiring s (st.retiring s ++ [(old, ms)])).setPc t (.unlock s)) := by
  have hhand : (st.pc t).hand = [old] := by rw [hpc]; rfl
  have hmine : Has st (.thread t) old := by
    show old ∈ (st.pc t).hand
    rw [hhand]
    exact mem_singleton.2 rfl
  refine ⟨h.give [old] (· = .thread t) (.retiring s) nofun ?_ ?_ ?_ ?_, hands_setPc rfl h.hands Pairwise.nil, ?_,
    h.nodes, h.freed⟩
  · intro a ha
    exact ⟨.thread t, rfl, mem_singleton.1 ha ▸ hmine⟩
  · rintro q a rfl ha
    rcases has_setPc rfl ha with ⟨-, hk⟩ | ⟨hne, -⟩
    · cases hk
    · exact (hne rfl).elim
  · intro a ha
    have ha : a ∈ (update st.retiring s (st.retiring s ++ [(old, ms)]) s).map Prod.fst := ha
    rw [update_self, map_append] at ha
    exact mem_append.1 ha
  · intro q a hq hs ha
    rcases has_setPc rfl ha with ⟨heq, -⟩ | ⟨-, hold⟩
    · exact (hq heq).elim
    cases q with
    | retiring s' =>
      have hold : a ∈ (update st.retiring s (st.retiring s ++ [(old, ms)]) s').map Prod.fst := hold
      rw [update_of_ne fun heq => hs (congrArg _ heq)] at hold
      exact hold
    | _ => exact hold
  · intro s'
    show ((update st.retiring s (st.retiring s ++ [(old, ms)]) s').map Prod.fst).Nodup
    by_cases hs : s' = s
    · subst hs
      rw [update_self, map_append, nodup_append]
      refine ⟨h.retiring s', pairwise_singleton _ _, fun a ha b hb => ?_⟩
      rintro rfl
      obtain rfl := mem_singleton.1 hb
      exact nomatch h.single a (.retiring s') (.thread t) ha hmine
    · rw [update_of_ne hs]
      exact h.retiring s'

theorem scanFree_owns {old i j : Nat} (hpc : st.pc t = .scan s old i j)
    (he : (st.retiring s)[i]? = some (p, ms)) (h : Owns st) :
    Owns (((st.free [p]).setRetiring s (dropEntry (st.retiring s) i)).setPc t (.scan s old i 0)) := by
  have hhand : (st.pc t).hand = [old] := by rw [hpc]; rfl
  have hperm := (dropEntry_perm he).map Prod.fst
  have hnodup := hperm.nodup_iff.1 (h.retiring s)
  obtain ⟨hp, hrest⟩ := nodup_cons.1 hnodup
  have hmine : Has st (.retiring s) p := hperm.mem_iff.2 mem_cons_self
  refine ⟨h.give [p] (· = .retiring s) .freed nofun ?_ ?_ ?_ ?_,
    hands_setPc rfl h.hands (pairwise_singleton _ old), ?_, h.nodes, ?_⟩
  · intro a ha
    exact ⟨.retiring s, rfl, mem_singleton.1 ha ▸ hmine⟩
  · rintro q a rfl ha
    have ha : a ∈ (update st.retiring s (dropEntry (st.retiring s) i) s).map Prod.fst := ha
    rw [update_self] at ha
    exact ⟨hperm.mem_iff.2 (.tail _ ha), fun hap => hp (mem_singleton.1 hap ▸ ha)⟩
  · intro a ha
    exact (mem_append.1 (show a ∈ [p] ++ st.freed from ha)).symm
  · intro q a hq hs ha
    rcases has_setPc rfl ha with ⟨rfl, hk⟩ | ⟨-, hold⟩
    · show a ∈ (st.pc t).hand
      rw [hhand]
      exact hk
    cases q with
    | retiring s' =>
      have hold : a ∈ (update st.retiring s (dropEntry (st.retiring s) i) s').map Prod.fst := hold
      rw [update_of_ne fun heq => hq (congrArg _ heq)] at hold
      exact hold
    | freed => exact (hs rfl).elim
    | _ => exact hold
  · intro s'
    show ((update st.retiring s (dropEntry (st.retiring s) i) s').map Prod.fst).Nodup
    by_cases hs : s' = s
    · subst hs
      rw [update_self]
      exact hrest
    · rw [update_of_ne hs]
      exact h.retiring s'
  · refine nodup_cons.2 ⟨fun hfreed => ?_, h.freed⟩
    exact nomatch h.single p (.retiring s) .freed hmine hfreed

/-- All that a store has: the published snapshot and those that are retiring. -/
def St.all (st : St) (s : Nat) : List Nat := (st.snap s).toList ++ (st.retiring s).map Prod.fst

theorem mem_all (hp : p ∈ st.all s) : ∃ src, (src = .current s ∨ src = .retiring s) ∧ Has st src p := by
  rcases mem_append.1 hp with hp | hp
  · exact ⟨.current s, .inl rfl, mem_toList.1 hp⟩
  · exact ⟨.retiring s, .inr rfl, hp⟩

theorem all_nodup (h : Owns st) (s : Nat) : (st.all s).Nodup := by
  refine nodup_append.2 ⟨?_, h.retiring s, fun a ha b hb => ?_⟩
  · cases st.snap s with
    | none => exact Pairwise.nil
    | some p => exact pairwise_singleton _ p
  · rintro rfl
    exact nomatch h.single a (.current s) (.retiring s) (mem_toList.1 ha) hb

theorem emptied_single (h : Owns st) (dst : Place) (hdst : dst ≠ .current s ∧ dst ≠ .retiring s)
    (hsnap : st'.snap = update st.snap s none) (hretiring : st'.retiring = update st.retiring s [])
    (hnew : ∀ p, Has st' dst p → Has st dst p ∨ p ∈ st.all s)
    (hother : ∀ q p, (∀ s, q ≠ .current s) → (∀ s, q ≠ .retiring s) → q ≠ dst → Has st' q p → Has st q p) :
    ∀ p q q', Has st' q p → Has st' q' p → q = q' := by
  refine h.give (st.all s) (fun q => q = .current s ∨ q = .retiring s) dst (fun hd => ?_) (fun p hp => mem_all hp) ?_ hnew ?_
  · rcases hd with hd | hd
    · exact hdst.1 hd
    · exact hdst.2 hd
  · rintro q p (rfl | rfl) hp
    · have hp : st'.snap s = some p := hp
      rw [hsnap, update_self] at hp
      cases hp
    · have hp : p ∈ (st'.retiring s).map Prod.fst := hp
      rw [hretiring, update_self] at hp
      cases hp
  · intro q p hq hd hp
    cases q with
    | current s' =>
      have hp : st'.snap s' = some p := hp
      rw [hsnap, update_of_ne fun heq => hq (.inl (congrArg _ heq))] at hp
      exact hp
    | retiring s' =>
      have hp : p ∈ (st'.retiring s').map Prod.fst := hp
      rw [hretiring, update_of_ne fun heq => hq (.inr (congrArg _ heq))] at hp
      exact hp
    | _ => exact hother _ p nofun nofun hd hp

theorem retiring_emptied (h : Owns st) (s s' : Nat) : ((update st.retiring s [] s').map Prod.fst).Nodup := by
  by_cases hs : s' = s
  · subst hs
    rw [update_self]
    exact Pairwise.nil
  · rw [update_of_ne hs]
    exact h.retiring s'

theorem drain_owns (hpc : st.pc t = .drain s) (h : Owns st) :
    Owns (((st.setSnap s none).setRetiring s []).setPc t (.drained s (st.all s))) := by
  have hhand : (st.pc t).hand = [] := by rw [hpc]; rfl
  refine ⟨emptied_single h (.thread t) ⟨nofun, nofun⟩ rfl rfl (fun p hp => ?_) (fun q p hc hr hd hp => ?_),
    hands_setPc rfl h.hands (all_nodup h s), retiring_emptied h s, h.nodes, h.freed⟩
  · rcases has_setPc rfl hp with ⟨-, hp⟩ | ⟨hne, -⟩
    · exact .inr hp
    · exact (hne rfl).elim
  rcases has_setPc rfl hp with ⟨rfl, -⟩ | ⟨-, hold⟩
  · exact (hd rfl).elim
  · cases q with
    | current s' => exact (hc s' rfl).elim
    | retiring s' => exact (hr s' rfl).elim
    | _ => exact hold

theorem close_owns {x : Node} (hpc : st.pc t = .close s nd) (h : Owns st) :
    Owns ((((st.setSnap s none).setRetiring s []).setNode nd (some { x with snaps := st.all s })).setPc t
      (.closeUnlock s nd)) := by
  refine ⟨emptied_single h (.node nd) ⟨nofun, nofun⟩ rfl rfl ?_ (fun q p hc hr hd hp => ?_),
    hands_setPc rfl h.hands Pairwise.nil, retiring_emptied h s, fun nd' y hy => ?_, h.freed⟩
  · rintro p ⟨y, hy, hp⟩
    rcases update_cases hy with ⟨-, hy⟩ | ⟨hne, -⟩
    · cases hy
      exact .inr hp
    · exact (hne rfl).elim
  · rcases has_setPc rfl hp with ⟨rfl, hk⟩ | ⟨-, hold⟩
    · cases hk
    cases q with
    | current s' => exact (hc s' rfl).elim
    | retiring s' => exact (hr s' rfl).elim
    | node nd' =>
      obtain ⟨y, hy, hp⟩ := hold
      rcases update_cases hy with ⟨rfl, -⟩ | ⟨-, hy⟩
      · exact (hd rfl).elim
      · exact ⟨y, hy, hp⟩
    | _ => exact hold
  · rcases update_cases hy with ⟨-, hy⟩ | ⟨-, hy⟩
    · cases hy
      exact all_nodup h s
    · exact h.nodes nd' y hy

theorem checkFree_owns {next kh kt : Option Nat} {j : Nat} {x : Node}
    (hpc : st.pc t = .check nd next kh kt j) (hx : st.nodes nd = some x) (h : Owns st) :
    Owns ((((st.free x.snaps).setNode nd none).freeSlot x.idx).setPc t (.sweep next kh kt)) := by
  have hhand : (st.pc t).hand = [] := by rw [hpc]; rfl
  obtain ⟨-, hsnap, hpcs, hretiring, hnodes, hfreed, hfresh, -⟩ :=
    freeSlot_same ((st.free x.snaps).setNode nd none) x.idx
  generalize ((st.free x.snaps).setNode nd none).freeSlot x.idx = st' at hsnap hpcs hretiring hnodes hfreed hfresh ⊢
  have hnodes : st'.nodes = update st.nodes nd none := hnodes
  have hfreed : st'.freed = x.snaps ++ st.freed := hfreed
  refine ⟨h.give x.snaps (· = .node nd) .freed nofun ?_ ?_ ?_ ?_, hands_setPc hpcs h.hands Pairwise.nil, ?_, ?_, ?_⟩
  · intro a ha
    exact ⟨.node nd, rfl, x, hx, ha⟩
  · rintro q a rfl ⟨y, hy, -⟩
    have hy : st'.nodes nd = some y := hy
    rw [hnodes, update_self] at hy
    cases hy
  · intro a ha
    have ha : a ∈ st'.freed := ha
    rw [hfreed] at ha
    exact (mem_append.1 ha).symm
  · intro q a hq hd ha
    rcases has_setPc hpcs ha with ⟨rfl, hk⟩ | ⟨-, hold⟩
    · cases hk
    cases q with
    | fresh =>
      rw [hfresh] at hold
      exact hold
    | current s =>
      rw [hsnap] at hold
      exact hold
    | retiring s =>
      rw [hretiring] at hold
      exact hold
    | node nd' =>
      obtain ⟨y, hy, ha⟩ := hold
      rw [hnodes] at hy
      rcases update_cases hy with ⟨-, hy⟩ | ⟨-, hy⟩
      · cases hy
      · exact ⟨y, hy, ha⟩
    | thread u => exact hold
    | freed => exact (hd rfl).elim
  · intro s
    show ((st'.retiring s).map Prod.fst).Nodup
    rw [hretiring]
    exact h.retiring s
  · intro nd' y hy
    have hy : st'.nodes nd' = some y := hy
    rw [hnodes] at hy
    rcases update_cases hy with ⟨-, hy⟩ | ⟨-, hy⟩
    · cases hy
    · exact h.nodes nd' y hy
  · show st'.freed.Nodup
    rw [hfreed, nodup_append]
    refine ⟨h.nodes nd x hx, h.freed, fun a ha b hb => ?_⟩
    rintro rfl
    exact nomatch h.single a (.node nd) .freed ⟨x, hx, ha⟩ hb

/-- A new snapshot is published; the old one, if there is one, is in the hands of the thread. -/
theorem store_owns (hpc : st.pc t = .store s old) (hold : st.snap s = old) (hx : x.hand = old.toList)
    (h : Owns st) : Owns (({ st.setSnap s (some st.fresh) with fresh := st.fresh + 1 } : St).setPc t x) := by
  have hfresh : ∀ {q : Place}, Has st q st.fresh → q = .fresh := fun {q} hq =>
    h.single st.fresh q .fresh hq (Nat.le_refl _)
  have hmine : ∀ {p : Nat}, p ∈ old.toList → Has st (.current s) p := by
    intro p hp
    exact hold.trans (mem_toList.1 hp)
  refine ⟨?_, hands_setPc rfl h.hands ?_, h.retiring, h.nodes, h.freed⟩
  · refine single_of_moved h
      (fun p q => p = st.fresh ∧ q = .current s ∨ p ∈ old.toList ∧ q = .thread t) ?_ fun q p hp => ?_
    · rintro p q q' (⟨hp, rfl⟩ | ⟨hp, rfl⟩) (⟨hp', rfl⟩ | ⟨hp', rfl⟩)
      · rfl
      · rw [hp] at hp'
        exact nomatch hfresh (hmine hp')
      · rw [hp'] at hp
        exact nomatch hfresh (hmine hp)
      · rfl
    have hstay : Has st q p → q ≠ .fresh → q ≠ .current s → (Has st q p ∧ ∀ q', ¬ (p = st.fresh ∧ q' = Place.current s ∨
        p ∈ old.toList ∧ q' = Place.thread t)) ∨ (p = st.fresh ∧ q = .current s ∨ p ∈ old.toList ∧ q = .thread t) := by
      intro hq hnf hnc
      refine .inl ⟨hq, fun q' hq' => ?_⟩
      rcases hq' with ⟨rfl, -⟩ | ⟨hp, -⟩
      · exact hnf (hfresh hq)
      · exact hnc (h.single p q (.current s) hq (hmine hp))
    rcases has_setPc rfl hp with ⟨rfl, hmem⟩ | ⟨hne, hq⟩
    · rw [hx] at hmem
      exact .inr (.inr ⟨hmem, rfl⟩)
    cases q with
    | fresh =>
      have hq : st.fresh + 1 ≤ p := hq
      refine .inl ⟨Nat.le_of_succ_le hq, fun q' hq' => ?_⟩
      rcases hq' with ⟨rfl, -⟩ | ⟨hp, -⟩
      · omega
      · exact nomatch h.single p (.current s) .fresh (hmine hp) (Nat.le_of_succ_le hq)
    | current s' =>
      rcases update_cases (show update st.snap s (some st.fresh) s' = some p from hq) with
        ⟨rfl, hsame⟩ | ⟨hne', hq⟩
      · exact .inr (.inl ⟨(some.inj hsame).symm, rfl⟩)
      · exact hstay hq nofun fun heq => hne' (Place.current.inj heq)
    | _ => exact hstay hq nofun nofun
  · rw [hx]
    cases old with
    | none => exact Pairwise.nil
    | some p => exact pairwise_singleton _ p

theorem closing_owns (h : Owns st) :
    Owns ((st.setNode nd (some ⟨some s, [], [], none⟩)).setPc t (.closeLock s nd)) := by
  refine h.stay (fun q p hq => ?_) (hands_setPc rfl h.hands Pairwise.nil) rfl (fun nd' y hy => ?_) rfl
  · rcases has_setPc rfl hq with ⟨rfl, hk⟩ | ⟨-, hold⟩
    · cases hk
    cases q with
    | node nd' =>
      obtain ⟨y, hy, hp⟩ := hold
      rcases update_cases hy with ⟨-, hy⟩ | ⟨-, hy⟩
      · cases hy
        cases hp
      · exact ⟨y, hy, hp⟩
    | _ => exact hold
  · rcases update_cases hy with ⟨-, hy⟩ | ⟨-, hy⟩
    · cases hy
      exact Pairwise.nil
    · exact h.nodes nd' y hy

theorem nodeRead_owns {k : After} {x : Node} (hpc : st.pc t = .nodeMark nd k) (hx : st.nodes nd = some x)
    (h : Owns st) : Owns ((st.setNode nd (some { x with mark := ms })).setPc t (.nodeMark nd k)) := by
  refine h.same (by rw [hpc]) rfl rfl rfl rfl rfl fun nd' y hy => ?_
  rcases update_cases hy with ⟨rfl, hsame⟩ | ⟨-, hold⟩
  · cases hsame
    exact ⟨x, hx, rfl⟩
  · exact ⟨y, hold, rfl⟩

/-- Snapshots that are handed over were where the thread may touch them, and are in the new place only. -/
theorem Hand.owns (h : Hand n st (st.pc t) st' x) (hlocks : Locks st) (hinv : Owns st) : Owns (st'.setPc t x) := by
  generalize hpc : st.pc t = y at h
  cases h with
  | storeFirst s => exact store_owns hpc (hlocks.stored t s none hpc) rfl hinv
  | store s old | enable s old => exact store_owns hpc (hlocks.stored t s (some old) hpc) rfl hinv
  | scanFree s old i j p ms he hj => exact scanFree_owns hpc he hinv
  | markDone s old ms hlen => exact markDone_owns hpc hinv
  | drain s => exact drain_owns hpc hinv
  | retire p nd k hnew => exact retire_owns hpc hnew hinv
  | closing s nd hnew => exact closing_owns hinv
  | close s nd x hx => exact close_owns hpc hinv
  | nodeRead nd k x hx hlen => exact nodeRead_owns hpc hx hinv
  | checkFree nd next kh kt j x hx hj => exact checkFree_owns hpc hx hinv

/-- Every step keeps each snapshot in one place. -/
theorem ThreadStep.owns (h : ThreadStep n st t st') (hlocks : Locks st) (hinv : Owns st) : Owns st' := by
  cases h with
  | move h | switch h | link h => exact h.owns hinv
  | hand h => exact h.owns hlocks hinv

end DvbIpiTools.Dipixy.Qsbr
