import DvbIpiTools.Dipixy.QsbrNodes

set_option autoImplicit false

/-! # Snapshots are freed when nobody has them

While a worker has a snapshot that was retired, its counter is what the mark says: a mark is taken after the snapshot
was replaced, and a worker that counts on gives up what it has. So a thread that finds another counter than the mark's,
or an offline one, knows that the worker has it no more, and no worker gets it again: it is not published. -/

namespace DvbIpiTools.Dipixy.Qsbr

open List Function Option

/-- A snapshot that was retired, with its mark as far as it has been read. -/
def Marked (st : St) (p : Nat) (ms : List UInt64) : Prop :=
  (∃ s, (p, ms) ∈ st.retiring s) ∨ (∃ t s, st.pc t = .mark s p ms) ∨
    ∃ nd x, st.nodes nd = some x ∧ p ∈ x.snaps ∧ x.mark = ms

/-- A snapshot that was freed, or is about to be and has passed a worker. -/
def Cleared (st : St) (p w : Nat) : Prop :=
  (∃ t s old i j ms, st.pc t = .scan s old i j ∧ (st.retiring s)[i]? = some (p, ms) ∧ w < j) ∨
    (∃ t nd next kh kt j x, st.pc t = .check nd next kh kt j ∧ st.nodes nd = some x ∧ p ∈ x.snaps ∧ w < j) ∨
    p ∈ st.freed

/-- The marks and what the threads have compared guard every snapshot that a worker has. -/
structure Guards (n : Nat) (st : St) : Prop where
  outside : ∀ w, n ≤ w → (st.workers w).held = []
  online : ∀ w, (st.workers w).held ≠ [] → online (st.workers w).v = true ∧ ∀ v, (st.workers w).pc ≠ .online v
  marked : ∀ p ms, Marked st p ms → ∀ w v, ms[w]? = some v → p ∈ (st.workers w).held → (st.workers w).v = v
  cleared : ∀ p w, Cleared st p w → p ∉ (st.workers w).held
  entries : ∀ s e, e ∈ st.retiring s → n ≤ e.2.length
  blank : ∀ t s nd x, st.pc t = .closeLock s nd ∨ st.pc t = .close s nd → st.nodes nd = some x → x.mark = []

section

variable {n : Nat} {st st' : St} {t : Nat}

/-! ## Workers -/

theorem Marked.has {p : Nat} {ms : List UInt64} (h : Marked st p ms) : ∃ q, Has st q p ∧ ∀ s, q ≠ .current s := by
  rcases h with ⟨s, hs⟩ | ⟨t, s, hpc⟩ | ⟨nd, x, hx, hp, -⟩
  · exact ⟨.retiring s, mem_map.2 ⟨_, hs, rfl⟩, nofun⟩
  · refine ⟨.thread t, ?_, nofun⟩
    show p ∈ (st.pc t).hand
    rw [hpc]
    exact mem_singleton.2 rfl
  · exact ⟨.node nd, ⟨x, hx, hp⟩, nofun⟩

theorem Cleared.has {p w : Nat} (h : Cleared st p w) : ∃ q, Has st q p ∧ ∀ s, q ≠ .current s := by
  rcases h with ⟨t, s, old, i, j, ms, -, he, -⟩ | ⟨t, nd, nx, kh, kt, j, x, -, hx, hp, -⟩ | hp
  · exact ⟨.retiring s, mem_map.2 ⟨_, mem_of_getElem? he, rfl⟩, nofun⟩
  · exact ⟨.node nd, ⟨x, hx, hp⟩, nofun⟩
  · exact ⟨.freed, hp, nofun⟩

/-- A worker has no more than before, and the counter of before if it has anything that was retired. -/
theorem Guards.setWorker (h : Guards n st) {w : Nat} (hw : w < n) {y : Worker}
    (hheld : ∀ p ∈ y.held, (p ∈ (st.workers w).held ∧ y.v = (st.workers w).v) ∨ ∃ s, st.snap s = some p)
    (honline : y.held ≠ [] → Qsbr.online y.v = true ∧ ∀ v, y.pc ≠ .online v) (hinv : Owns st) :
    Guards n (st.setWorker w y) := by
  have hpublished : ∀ {p : Nat}, (∃ q, Has st q p ∧ ∀ s, q ≠ .current s) → ¬ ∃ s, st.snap s = some p := by
    rintro p ⟨q, hq, hne⟩ ⟨s, hs⟩
    exact hne s (hinv.single p q (.current s) hq hs)
  have hother : ∀ {u : Nat}, u ≠ w → (st.setWorker w y).workers u = st.workers u := fun hu =>
    update_of_ne hu _ _
  have hself : (st.setWorker w y).workers w = y := update_self _ _ _
  refine ⟨fun u hu => ?_, fun u hu => ?_, fun p ms hp u v hv hmem => ?_, fun p u hp hmem => ?_, h.entries, h.blank⟩
  · rw [hother (by omega)]
    exact h.outside u hu
  · by_cases huw : u = w
    · subst huw
      rw [hself] at hu ⊢
      exact honline hu
    · rw [hother huw] at hu ⊢
      exact h.online u hu
  · by_cases huw : u = w
    · subst huw
      rw [hself] at hmem ⊢
      rcases hheld p hmem with ⟨hold, hsame⟩ | hpub
      · rw [hsame]
        exact h.marked p ms hp u v hv hold
      · exact (hpublished (@Marked.has st p ms hp) hpub).elim
    · rw [hother huw] at hmem ⊢
      exact h.marked p ms hp u v hv hmem
  · by_cases huw : u = w
    · subst huw
      rw [hself] at hmem
      rcases hheld p hmem with ⟨hold, -⟩ | hpub
      · exact h.cleared p u hp hold
      · exact hpublished (@Cleared.has st p u hp) hpub
    · rw [hother huw] at hmem
      exact h.cleared p u hp hmem

/-- The steps of a worker keep the guards: when its counter goes on, it has given up what it had. -/
theorem workerStep_guards {w : Nat} {a : WorkerAct} (hw : w < n) (hstep : workerStep st w a = some st')
    (h : Guards n st) (hinv : Owns st) : Guards n st' := by
  have hgive : ∀ {y : Worker}, y.held = [] → Guards n (st.setWorker w y) := fun hy =>
    h.setWorker hw (fun p hp => nomatch hy ▸ hp) (fun hne => (hne hy).elim) hinv
  have hkeep : ∀ pc, ((st.workers w).held ≠ [] → ∀ v, pc ≠ .online v) →
      Guards n (st.setWorker w { st.workers w with pc }) := fun pc hpc =>
    h.setWorker hw (fun p hp => .inl ⟨hp, rfl⟩) (fun hne => ⟨(h.online w hne).1, hpc hne⟩) hinv
  unfold workerStep at hstep
  simp only [] at hstep
  split at hstep
  · cases hstep
    exact hgive rfl
  · cases hstep
    refine hkeep _ fun _ v => ?_
    split <;> exact nofun
  · cases hstep
    refine hkeep _ fun hne v => ?_
    rw [if_pos (h.online w hne).1]
    exact nofun
  · next s hpc =>
    split at hstep
    · next honline =>
      cases hstep
      refine h.setWorker hw (fun p hp => ?_) (fun _ => ⟨honline, fun v hv => nomatch hpc.symm.trans hv⟩) hinv
      rcases mem_append.1 hp with hp | hp
      · exact .inr ⟨s, mem_toList.1 hp⟩
      · exact .inl ⟨hp, rfl⟩
    · cases hstep
  · cases hstep
    exact hgive rfl
  · next v hpc =>
    cases hstep
    refine hgive ?_
    -- it went on to be online when it had nothing
    by_contra hne
    exact (h.online w hne).2 v hpc
  · cases hstep

end

/-! ## Threads -/

section

variable {n : Nat} {st st' : St} {t : Nat} {x : Pc} {ls : Option Nat → List Nat}

/-- What a step of a thread leaves alone. -/
structure Frame (st st' : St) (t : Nat) (ls : Option Nat → List Nat) : Prop where
  workers : st'.workers = st.workers
  pc : ∀ u, u ≠ t → st'.pc u = st.pc u
  nodes : ∀ u nd, u ≠ t → nd ∈ ls (some u) → st'.nodes nd = st.nodes nd
  retiring : ∀ s, st'.retiring s = st.retiring s ∨ (st.pc t).locked = some s

theorem Frame.of_eq (hworkers : st'.workers = st.workers) (hpc : st'.pc = update st.pc t x)
    (hnodes : st'.nodes = st.nodes) (hretiring : ∀ s, st'.retiring s = st.retiring s ∨ (st.pc t).locked = some s) :
    Frame st st' t ls :=
  ⟨hworkers, fun u hu => by rw [hpc, update_of_ne hu], fun u nd _ _ => by rw [hnodes], hretiring⟩

theorem Frame.of_node (h : Lists n st ls) {nd : Nat} {y : Option Node}
    (hnd : nd ∈ ls (some t) ∨ st.nodes nd = none) (hworkers : st'.workers = st.workers)
    (hpc : st'.pc = update st.pc t x) (hnodes : st'.nodes = update st.nodes nd y)
    (hretiring : ∀ s, st'.retiring s = st.retiring s ∨ (st.pc t).locked = some s) : Frame st st' t ls := by
  refine ⟨hworkers, fun u hu => by rw [hpc, update_of_ne hu], fun u nd' hu hnd' => ?_, hretiring⟩
  rw [hnodes, update_of_ne]
  rintro rfl
  rcases hnd with hmine | hfree
  · exact hu (some.inj (h.single _ _ _ hnd' hmine))
  · obtain ⟨z, hz⟩ := (h.all _).2 ⟨_, hnd'⟩
    exact nomatch hfree.symm.trans hz

theorem Link.frame (h : Link st (st.pc t) st' x) (hinv : Lists n st ls) : Frame st (st'.setPc t x) t ls := by
  have hmine := hinv.threads t
  generalize st.pc t = y at h hmine
  cases h with
  | pushNext nd old k z hz =>
    have hls : ls (some t) = [nd] := hmine
    exact .of_node hinv (.inl (hls ▸ mem_singleton.2 rfl)) rfl rfl rfl fun _ => .inl rfl
  | keep nd nx kh kt j z hz =>
    obtain ⟨C, K, hls, -⟩ := hmine
    exact .of_node hinv (.inl (hls ▸ mem_cons_self)) rfl rfl rfl fun _ => .inl rfl
  | spliceNext kh kt old z hz =>
    obtain ⟨e, -, hkt⟩ := hmine
    exact .of_node hinv (.inl (mem_of_getLast? hkt)) rfl rfl rfl fun _ => .inl rfl
  | _ => exact .of_eq rfl rfl rfl fun _ => .inl rfl

theorem Hand.frame (h : Hand n st (st.pc t) st' x) (hinv : Lists n st ls) : Frame st (st'.setPc t x) t ls := by
  have hmine := hinv.threads t
  have hset : ∀ {s : Nat} {es : List (Nat × List UInt64)}, (st.pc t).locked = some s →
      ∀ s', update st.retiring s es s' = st.retiring s' ∨ (st.pc t).locked = some s' := by
    intro s es hs s'
    by_cases hss : s' = s
    · exact .inr (hss ▸ hs)
    · exact .inl (update_of_ne hss _ _)
  generalize hpc : st.pc t = y at h hmine
  have hlocked : ∀ s, y.locked = some s → (st.pc t).locked = some s := fun s hs => hpc ▸ hs
  cases h with
  | scanFree s | markDone s | drain s => exact .of_eq rfl rfl rfl (hset (hlocked s rfl))
  | retire _ _ _ hnew | closing _ _ hnew => exact .of_node hinv (.inr hnew) rfl rfl rfl fun _ => .inl rfl
  | close s nd z hz =>
    have hls : ls (some t) = [nd] := hmine
    exact .of_node hinv (.inl (hls ▸ mem_singleton.2 rfl)) rfl rfl rfl (hset (hlocked s rfl))
  | nodeRead nd k z hz hlen =>
    have hls : ls (some t) = [nd] := hmine
    exact .of_node hinv (.inl (hls ▸ mem_singleton.2 rfl)) rfl rfl rfl fun _ => .inl rfl
  | checkFree nd nx kh kt j z hz hj =>
    obtain ⟨C, K, hls, -⟩ := hmine
    obtain ⟨-, -, hpcs, hretiring, hnodes, -, -, hworkers, -⟩ :=
      freeSlot_same ((st.free z.snaps).setNode nd none) z.idx
    refine .of_node (x := .sweep nx kh kt) hinv (.inl (hls ▸ mem_cons_self)) hworkers ?_ hnodes
      fun s => .inl (congrFun hretiring s)
    exact congrArg (fun pc => update pc t (.sweep nx kh kt)) hpcs
  | _ => exact .of_eq rfl rfl rfl fun _ => .inl rfl

theorem ThreadStep.frame (h : ThreadStep n st t st') (hinv : Lists n st ls) : Frame st st' t ls := by
  cases h with
  | move h => exact .of_eq rfl rfl rfl fun _ => .inl rfl
  | switch h =>
    generalize st.pc t = y at h
    cases h <;> exact .of_eq rfl rfl rfl fun _ => .inl rfl
  | link h => exact h.frame hinv
  | hand h => exact h.frame hinv

/-- A mark that was there, that is empty, or that has got another counter. -/
def Grown (st : St) (p : Nat) (ms : List UInt64) : Prop :=
  Marked st p ms ∨ ms = [] ∨ ∃ ms', Marked st p ms' ∧ ms = ms' ++ [(st.workers ms'.length).v]

variable {p : Nat} {ms : List UInt64}

/-- The marks after a step come from what the thread has at hand, from the stores and from the nodes. -/
theorem grown_of_setPc (h : Marked (st'.setPc t x) p ms) (hpc : st'.pc = st.pc)
    (hmark : ∀ s p ms, x = .mark s p ms → Grown st p ms)
    (hretiring : ∀ s p ms, (p, ms) ∈ st'.retiring s → Grown st p ms)
    (hnodes : ∀ nd y, st'.nodes nd = some y → ∀ p ∈ y.snaps, Grown st p y.mark) : Grown st p ms := by
  rcases h with ⟨s, hs⟩ | ⟨u, s, hu⟩ | ⟨nd, y, hy, hp, rfl⟩
  · exact hretiring s p ms hs
  · rcases update_cases hu with ⟨-, hx⟩ | ⟨-, hu⟩
    · exact hmark s p ms hx
    · rw [hpc] at hu
      exact .inl (.inr (.inl ⟨u, s, hu⟩))
  · exact hnodes nd y hy p hp

theorem grown_retiring (st : St) (s p : Nat) (ms : List UInt64) (h : (p, ms) ∈ st.retiring s) : Grown st p ms :=
  .inl (.inl ⟨s, h⟩)

theorem grown_nodes (st : St) (nd : Nat) (y : Node) (hy : st.nodes nd = some y) (p : Nat) (hp : p ∈ y.snaps) :
    Grown st p y.mark := .inl (.inr (.inr ⟨nd, y, hy, hp, rfl⟩))

theorem Move.marked (h : Move n st (st.pc t) x) (hm : Marked (st.setPc t x) p ms) : Grown st p ms := by
  refine grown_of_setPc hm rfl (fun s p ms hx => ?_) (grown_retiring st) (grown_nodes st)
  generalize hpc : st.pc t = y at h
  cases h with
  | scanDone s old i j =>
    cases hx
    exact .inr (.inl rfl)
  | markRead _ old ms' hlt =>
    cases hx
    exact .inr (.inr ⟨ms', .inr (.inl ⟨t, _, hpc⟩), rfl⟩)
  | leak p k => cases k <;> cases hx
  | _ => cases hx

theorem Switch.marked (h : Switch st t (st.pc t) st' x) (hm : Marked (st'.setPc t x) p ms) : Grown st p ms := by
  generalize st.pc t = y at h
  cases h <;> exact grown_of_setPc hm rfl nofun (grown_retiring st) (grown_nodes st)

theorem Link.marked (h : Link st (st.pc t) st' x) (hm : Marked (st'.setPc t x) p ms) : Grown st p ms := by
  have hnodes : ∀ nd y, st'.nodes nd = some y → ∀ p ∈ y.snaps, Grown st p y.mark := by
    intro nd y hy p hp
    obtain ⟨z, hz, hsnaps, hmark⟩ := h.nodes hy
    rw [hmark]
    exact grown_nodes st nd z hz p (hsnaps ▸ hp)
  generalize st.pc t = y at h
  cases h with
  | pushCas nd old k hhead =>
    refine grown_of_setPc hm rfl (fun s p ms hx => ?_) (grown_retiring st) hnodes
    cases k <;> cases hx
  | _ => exact grown_of_setPc hm rfl nofun (grown_retiring st) hnodes

/-- A mark is as it was, or empty, or has grown by a counter. -/
theorem Hand.marked (h : Hand n st (st.pc t) st' x) (hinv : Guards n st)
    (hm : Marked (st'.setPc t x) p ms) : Grown st p ms := by
  generalize hpc : st.pc t = y at h
  cases h with
  | scanFree s old i j p' ms' he hj =>
    refine grown_of_setPc hm rfl nofun (fun s' p ms hmem => ?_) (grown_nodes st)
    have hmem : (p, ms) ∈ update st.retiring s (dropEntry (st.retiring s) i) s' := hmem
    by_cases hs : s' = s
    · subst hs
      rw [update_self] at hmem
      exact grown_retiring st s' p ms ((dropEntry_perm he).mem_iff.2 (.tail _ hmem))
    · rw [update_of_ne hs] at hmem
      exact grown_retiring st s' p ms hmem
  | markDone s old ms' hlen =>
    refine grown_of_setPc hm rfl nofun (fun s' p ms hmem => ?_) (grown_nodes st)
    have hmem : (p, ms) ∈ update st.retiring s (st.retiring s ++ [(old, ms')]) s' := hmem
    by_cases hs : s' = s
    · subst hs
      rw [update_self] at hmem
      rcases mem_append.1 hmem with hmem | hmem
      · exact grown_retiring st s' p ms hmem
      · cases mem_singleton.1 hmem
        exact .inl (.inr (.inl ⟨t, s', hpc⟩))
    · rw [update_of_ne hs] at hmem
      exact grown_retiring st s' p ms hmem
  | drain s =>
    refine grown_of_setPc hm rfl nofun (fun s' p ms hmem => ?_) (grown_nodes st)
    have hmem : (p, ms) ∈ update st.retiring s [] s' := hmem
    by_cases hs : s' = s
    · subst hs
      rw [update_self] at hmem
      cases hmem
    · rw [update_of_ne hs] at hmem
      exact grown_retiring st s' p ms hmem
  | retire _ nd | closing _ nd =>
    refine grown_of_setPc hm rfl nofun (grown_retiring st) (fun nd' y hy p hp => ?_)
    rcases update_cases hy with ⟨-, hsame⟩ | ⟨-, hold⟩
    · cases hsame
      exact .inr (.inl rfl)
    · exact grown_nodes st nd' y hold p hp
  | close s nd z hz =>
    refine grown_of_setPc hm rfl nofun (fun s' p ms hmem => ?_) (fun nd' y hy p hp => ?_)
    · have hmem : (p, ms) ∈ update st.retiring s [] s' := hmem
      by_cases hs : s' = s
      · subst hs
        rw [update_self] at hmem
        cases hmem
      · rw [update_of_ne hs] at hmem
        exact grown_retiring st s' p ms hmem
    · rcases update_cases hy with ⟨-, hsame⟩ | ⟨-, hold⟩
      · -- the mark of the node has not been begun
        cases hsame
        exact .inr (.inl (hinv.blank t s nd z (.inr hpc) hz))
      · exact grown_nodes st nd' y hold p hp
  | nodeRead nd k z hz hlen =>
    refine grown_of_setPc hm rfl nofun (grown_retiring st) (fun nd' y hy p hp => ?_)
    rcases update_cases hy with ⟨-, hsame⟩ | ⟨-, hold⟩
    · cases hsame
      exact .inr (.inr ⟨z.mark, .inr (.inr ⟨nd, z, hz, hp, rfl⟩), rfl⟩)
    · exact grown_nodes st nd' y hold p hp
  | checkFree nd nx kh kt j z hz hj =>
    obtain ⟨-, -, hpcs, hretiring, hnodes, -⟩ := freeSlot_same ((st.free z.snaps).setNode nd none) z.idx
    refine grown_of_setPc hm hpcs nofun (fun s p ms hmem => ?_) (fun nd' y hy p hp => ?_)
    · rw [hretiring] at hmem
      exact grown_retiring st s p ms hmem
    · rw [hnodes] at hy
      rcases update_cases hy with ⟨-, hnone⟩ | ⟨-, hold⟩
      · cases hnone
      · exact grown_nodes st nd' y hold p hp
  | _ => exact grown_of_setPc hm rfl nofun (grown_retiring st) (grown_nodes st)

theorem ThreadStep.marked (h : ThreadStep n st t st') (hinv : Guards n st) (hm : Marked st' p ms) : Grown st p ms := by
  cases h with
  | move h | switch h | link h => exact h.marked hm
  | hand h => exact h.marked hinv hm

end

section

variable {n p : Nat} {st st' : St} {t : Nat} {ls : Option Nat → List Nat}

/-- A worker whose counter differs from the mark has the snapshot no more. -/
theorem Guards.passed (h : Guards n st) {w : Nat} {ms : List UInt64} (hm : Marked st p ms) (hw : w < ms.length)
    (hpass : slotPassed (st.workers w).v (ms.getD w 0) = true) : p ∉ (st.workers w).held := by
  intro hp
  have hget : ms[w]? = some (ms.getD w 0) := by
    rw [getD_eq_getElem?_getD, getElem?_eq_getElem hw]
    rfl
  have hsame := h.marked p ms hm w _ hget hp
  have honline := (h.online w (ne_nil_of_mem hp)).1
  rw [hsame] at hpass honline
  rw [slotPassed, honline, bne_self_eq_false] at hpass
  cases hpass

variable (h : ThreadStep n st t st')

include h

/-- The workers a thread has passed, in `snap_retire` or in a sweep. -/
def Pc.passed : Pc → Nat
  | .scan _ _ _ j => j
  | .check _ _ _ _ j => j
  | _ => 0

theorem ThreadStep.passed_eq (hpos : 0 < (st'.pc t).passed) :
    (∃ s old i k p ms, st'.pc t = .scan s old i (k + 1) ∧ k < n ∧ st.pc t = .scan s old i k ∧
      (st.retiring s)[i]? = some (p, ms) ∧ slotPassed (st.workers k).v (ms.getD k 0) = true ∧ st'.retiring = st.retiring) ∨
    ∃ nd nx kh kt k x, st'.pc t = .check nd nx kh kt (k + 1) ∧ k < n ∧ st.pc t = .check nd nx kh kt k ∧
      st.nodes nd = some x ∧ slotPassed (st.workers k).v (x.mark.getD k 0) = true ∧ st'.nodes = st.nodes := by
  have hself : ∀ {st0 : St} {y : Pc}, (st0.setPc t y).pc t = y := update_self _ _ _
  have hnone : ∀ {x : Pc}, 0 < x.passed → x.passed ≠ 0 := Nat.ne_of_gt
  cases h with
  | move h =>
    rw [hself] at hpos ⊢
    generalize st.pc t = y at h ⊢
    cases h with
    | scanPass s old i k p ms he hk hpass => exact .inl ⟨s, old, i, k, p, ms, rfl, hk, rfl, he, hpass, rfl⟩
    | checkPass nd nx kh kt k x hx hk hpass => exact .inr ⟨nd, nx, kh, kt, k, x, rfl, hk, rfl, hx, hpass, rfl⟩
    | leak p k => cases k <;> exact (hnone hpos rfl).elim
    | _ => exact (hnone hpos rfl).elim
  | switch h | hand h =>
    rw [hself] at hpos
    generalize st.pc t = y at h
    cases h <;> exact (hnone hpos rfl).elim
  | link h =>
    rw [hself] at hpos
    generalize st.pc t = y at h
    cases h with
    | pushCas nd old k hhead => cases k <;> exact (hnone hpos rfl).elim
    | _ => exact (hnone hpos rfl).elim

/-- What is freed now was found clear of every worker. -/
theorem ThreadStep.freed_eq (hp : p ∈ st'.freed) : p ∈ st.freed ∨ ∀ w < n, Cleared st p w := by
  cases h with
  | move h => exact .inl hp
  | switch h | link h =>
    generalize st.pc t = y at h
    cases h <;> exact .inl hp
  | hand h =>
    generalize hy : st.pc t = y at h
    cases h with
    | scanFree s old i j p' ms he hj =>
      rcases mem_append.1 (show p ∈ [p'] ++ st.freed from hp) with hp | hp
      · obtain rfl := mem_singleton.1 hp
        exact .inr fun w hw => .inl ⟨t, s, old, i, j, ms, hy, he, by omega⟩
      · exact .inl hp
    | checkFree nd nx kh kt j x hx hj =>
      obtain ⟨-, -, -, -, -, hfreed, -⟩ := freeSlot_same ((st.free x.snaps).setNode nd none) x.idx
      have hp : p ∈ (((st.free x.snaps).setNode nd none).freeSlot x.idx).freed := hp
      rw [hfreed] at hp
      rcases mem_append.1 (show p ∈ x.snaps ++ st.freed from hp) with hp | hp
      · exact .inr fun w hw => .inr (.inl ⟨t, nd, nx, kh, kt, j, x, hy, hx, hp, by omega⟩)
      · exact .inl hp
    | _ => exact .inl hp

omit h

/-- When a snapshot has been found clear of a worker, the worker does not have it. -/
theorem ThreadStep.cleared (h : ThreadStep n st t st') (hlocks : Locks st) (hls : Lists n st ls) (hinv : Guards n st)
    {w : Nat} (hc : Cleared st' p w) : p ∉ (st.workers w).held := by
  have hframe := h.frame hls
  rcases hc with ⟨u, s, old, i, j, ms, hpc, he, hw⟩ | ⟨u, nd, nx, kh, kt, j, x, hpc, hx, hp, hw⟩ | hp
  · by_cases hu : u = t
    · subst hu
      obtain ⟨s, old, i, k, p', ms', hnew, hk, hold, he', hpass, hsame⟩ | ⟨_, _, _, _, _, _, hnew, -⟩ :=
        h.passed_eq (by rw [hpc]; exact Nat.zero_lt_of_lt hw)
      swap
      · exact nomatch hpc.symm.trans hnew
      cases hpc.symm.trans hnew
      rw [hsame, he'] at he
      cases he
      rcases Nat.lt_succ_iff_lt_or_eq.1 hw with hlt | rfl
      · exact hinv.cleared p w (Or.inl ⟨u, s, old, i, k, ms, hold, he', hlt⟩)
      · have hmem := mem_of_getElem? he'
        have hlen := hinv.entries s _ hmem
        exact hinv.passed (Or.inl ⟨s, hmem⟩) (Nat.lt_of_lt_of_le hk hlen) hpass
    · -- another thread has the lock of the store
      rw [hframe.pc u hu] at hpc
      have hlock := hlocks.locked u s (by rw [hpc]; rfl)
      rcases hframe.retiring s with hsame | hmine
      · rw [hsame] at he
        exact hinv.cleared p w (Or.inl ⟨u, s, old, i, j, ms, hpc, he, hw⟩)
      · exact (hu (some.inj (hlock.symm.trans (hlocks.locked t s hmine)))).elim
  · by_cases hu : u = t
    · subst hu
      obtain ⟨_, _, _, _, _, _, hnew, -⟩ | ⟨nd, nx, kh, kt, k, x', hnew, hk, hold, hx', hpass, hsame⟩ :=
        h.passed_eq (by rw [hpc]; exact Nat.zero_lt_of_lt hw)
      · exact nomatch hpc.symm.trans hnew
      cases hpc.symm.trans hnew
      rw [hsame, hx'] at hx
      obtain rfl := some.inj hx
      rcases Nat.lt_succ_iff_lt_or_eq.1 hw with hlt | rfl
      · exact hinv.cleared p w (Or.inr (Or.inl ⟨u, nd, nx, kh, kt, k, x', hold, hx', hp, hlt⟩))
      have hmine := hls.threads u
      rw [hold] at hmine
      obtain ⟨C, K, hnodes, -⟩ := hmine
      have hlen := hls.marks (some u) nd x' (hnodes ▸ mem_cons_self) (fun u' hu' => by
        obtain rfl := some.inj hu'
        rw [hold]
        rfl) hx'
      exact hinv.passed (Or.inr (Or.inr ⟨nd, x', hx', hp, rfl⟩)) (Nat.lt_of_lt_of_le hk hlen) hpass
    · -- the node is another thread's
      rw [hframe.pc u hu] at hpc
      have hmine := hls.threads u
      rw [hpc] at hmine
      obtain ⟨C, K, hnodes, -⟩ := hmine
      rw [hframe.nodes u nd hu (hnodes ▸ mem_cons_self)] at hx
      exact hinv.cleared p w (Or.inr (Or.inl ⟨u, nd, nx, kh, kt, j, x, hpc, hx, hp, hw⟩))
  · rcases h.freed_eq hp with hold | hall
    · exact hinv.cleared p w (Or.inr (Or.inr hold))
    · by_cases hw : w < n
      · exact hinv.cleared p w (hall w hw)
      · rw [hinv.outside w (Nat.le_of_not_lt hw)]
        exact nofun

end

section

variable {n : Nat} {st st' : St} {t : Nat} {ls : Option Nat → List Nat}

theorem ThreadStep.entries (h : ThreadStep n st t st') (hinv : Guards n st) (s : Nat) (e : Nat × List UInt64)
    (he : e ∈ st'.retiring s) : n ≤ e.2.length := by
  cases h with
  | move h => exact hinv.entries s e he
  | switch h | link h =>
    generalize st.pc t = y at h
    cases h <;> exact hinv.entries s e he
  | hand h =>
    have hset : ∀ {s' : Nat} {es : List (Nat × List UInt64)}, (∀ e ∈ es, n ≤ e.2.length) →
        e ∈ update st.retiring s' es s → n ≤ e.2.length := by
      intro s' es hes he
      by_cases hs : s = s'
      · subst hs
        rw [update_self] at he
        exact hes e he
      · rw [update_of_ne hs] at he
        exact hinv.entries s e he
    generalize st.pc t = y at h
    cases h with
    | scanFree s' old i j p ms hget hj =>
      refine hset (fun e' he' => hinv.entries s' e' ?_) he
      exact (dropEntry_perm hget).mem_iff.2 (.tail _ he')
    | markDone s' old ms hlen =>
      refine hset (fun e' he' => ?_) he
      rcases mem_append.1 he' with he' | he'
      · exact hinv.entries s' e' he'
      · rw [mem_singleton.1 he']
        exact Nat.le_of_not_lt hlen
    | drain s' => exact hset (fun e' he' => absurd he' not_mem_nil) he
    | close s' nd x hx => exact hset (fun e' he' => absurd he' not_mem_nil) he
    | checkFree nd nx kh kt j x hx hj =>
      obtain ⟨-, -, -, hretiring, -⟩ := freeSlot_same ((st.free x.snaps).setNode nd none) x.idx
      have he : e ∈ (((st.free x.snaps).setNode nd none).freeSlot x.idx).retiring s := he
      rw [hretiring] at he
      exact hinv.entries s e he
    | _ => exact hinv.entries s e he

/-- A store that is being closed has a node whose mark has not been begun. -/
theorem ThreadStep.blank (h : ThreadStep n st t st') (hls : Lists n st ls) (hinv : Guards n st) (u s nd : Nat) (x : Node)
    (hpc : st'.pc u = .closeLock s nd ∨ st'.pc u = .close s nd) (hx : st'.nodes nd = some x) : x.mark = [] := by
  have hframe := h.frame hls
  by_cases hu : u = t
  · subst hu
    have hself : ∀ {st0 : St} {y : Pc}, (st0.setPc u y).pc u = y := update_self _ _ _
    cases h with
    | move h =>
      rw [hself] at hpc
      generalize st.pc u = y at h
      cases h with
      | leak p k => cases k <;> rcases hpc with hpc | hpc <;> cases hpc
      | _ => rcases hpc with hpc | hpc <;> cases hpc
    | switch h =>
      rw [hself] at hpc
      generalize hy : st.pc u = y at h
      cases h with
      | closeLock s' nd' hfree =>
        rcases hpc with hpc | hpc
        · cases hpc
        · cases hpc
          exact hinv.blank u s nd x (.inl hy) hx
      | _ => rcases hpc with hpc | hpc <;> cases hpc
    | link h =>
      rw [hself] at hpc
      generalize st.pc u = y at h
      cases h with
      | pushCas nd' old k hhead => cases k <;> rcases hpc with hpc | hpc <;> cases hpc
      | _ => rcases hpc with hpc | hpc <;> cases hpc
    | hand h =>
      rw [hself] at hpc
      generalize st.pc u = y at h
      cases h with
      | closing s' nd' hnew =>
        rcases hpc with hpc | hpc
        · cases hpc
          rcases update_cases hx with ⟨-, hsame⟩ | ⟨hne, -⟩
          · cases hsame
            rfl
          · exact (hne rfl).elim
        · cases hpc
      | _ => rcases hpc with hpc | hpc <;> cases hpc
  · rw [hframe.pc u hu] at hpc
    have hmem : nd ∈ ls (some u) := by
      have hmine := hls.threads u
      rcases hpc with hpc | hpc
      · rw [hpc] at hmine
        exact (show ls (some u) = [nd] from hmine) ▸ mem_singleton.2 rfl
      · rw [hpc] at hmine
        exact (show ls (some u) = [nd] from hmine) ▸ mem_singleton.2 rfl
    rw [hframe.nodes u nd hu hmem] at hx
    exact hinv.blank u s nd x hpc hx

/-- Every step of a thread keeps the guards. -/
theorem ThreadStep.guards (h : ThreadStep n st t st') (hlocks : Locks st) (hls : Lists n st ls) (hinv : Guards n st) :
    Guards n st' := by
  have hworkers := (h.frame hls).workers
  refine ⟨?_, ?_, fun p ms hp w v hv hmem => ?_, fun p w hc => ?_, h.entries hinv, h.blank hls hinv⟩
  · rw [hworkers]
    exact hinv.outside
  · rw [hworkers]
    exact hinv.online
  · rw [hworkers] at hmem ⊢
    rcases h.marked hinv hp with hold | rfl | ⟨ms', hold, rfl⟩
    · exact hinv.marked p ms hold w v hv hmem
    · cases hv
    · -- the counter that was just read, or one of before
      rw [getElem?_append] at hv
      split at hv
      · exact hinv.marked p ms' hold w v hv hmem
      rename_i hge
      have hlt := (List.getElem?_eq_some_iff.1 hv).1
      rw [length_singleton] at hlt
      have hw : w = ms'.length := by omega
      rw [hw, Nat.sub_self] at hv
      rw [hw]
      exact some.inj hv
  · rw [hworkers]
    exact h.cleared hlocks hls hinv hc

/-! ## Runs -/

structure Inv (n : Nat) (st : St) : Prop where
  locks : Locks st
  owns : Owns st
  lists : ∃ ls, Lists n st ls
  guards : Guards n st

theorem workerStep_eq {w : Nat} {a : WorkerAct} (h : workerStep st w a = some st') : ∃ y, st' = st.setWorker w y := by
  unfold workerStep at h
  simp only [] at h
  split at h
  · exact ⟨_, (some.inj h).symm⟩
  · exact ⟨_, (some.inj h).symm⟩
  · exact ⟨_, (some.inj h).symm⟩
  · split at h
    · exact ⟨_, (some.inj h).symm⟩
    · cases h
  · exact ⟨_, (some.inj h).symm⟩
  · exact ⟨_, (some.inj h).symm⟩
  · cases h

theorem ThreadStep.inv (h : ThreadStep n st t st') (hinv : Inv n st) : Inv n st' := by
  obtain ⟨hlocks, howns, ⟨ls, hls⟩, hguards⟩ := hinv
  exact ⟨h.locks hlocks, h.owns hlocks howns, h.lists hls, h.guards hlocks hls hguards⟩

/-- The invariant is kept by the steps of the workers and of the threads. -/
theorem Inv.step (h : Inv n st) {a : Act} (ha : step n st a = some st') : Inv n st' := by
  cases a with
  | worker w a =>
    unfold Qsbr.step at ha
    simp only [] at ha
    split at ha
    · next hw =>
      have hguards := workerStep_guards hw ha h.guards h.owns
      obtain ⟨y, rfl⟩ := workerStep_eq ha
      obtain ⟨hlocks, howns, ⟨ls, hls⟩, -⟩ := h
      have hhas : ∀ q p, Has (st.setWorker w y) q p → Has st q p := fun q p hq => by cases q <;> exact hq
      exact ⟨⟨hlocks.locked, hlocks.stored⟩, howns.stay hhas howns.hands rfl howns.nodes rfl,
        ⟨ls, hls.head, hls.threads, hls.nodup, hls.single, hls.all, hls.marks⟩, hguards⟩
    · cases ha
  | begin t op => exact (begin_cases ha).inv h
  | thread t ch => exact (threadStep_cases ha).inv h

theorem Inv.init (n : Nat) : Inv n {} := by
  refine ⟨⟨nofun, nofun⟩, ⟨fun p q q' hq hq' => ?_, fun _ => Pairwise.nil, fun _ => Pairwise.nil, nofun,
    Pairwise.nil⟩, ⟨fun _ => [], rfl, fun _ => rfl, fun _ => Pairwise.nil, nofun, fun nd => ?_, nofun⟩, ?_⟩
  · have hfresh : ∀ q, Has {} q p → q = .fresh := by
      intro q hq
      cases q with
      | fresh => rfl
      | node nd =>
        obtain ⟨x, hx, -⟩ := hq
        cases hx
      | _ => cases hq
    rw [hfresh q hq, hfresh q' hq']
  · constructor
    · rintro ⟨x, hx⟩
      cases hx
    · rintro ⟨q, hq⟩
      cases hq
  · constructor
    · exact fun _ _ => rfl
    · exact fun w hw => (hw rfl).elim
    · intro p ms hp w v hv hmem
      cases hmem
    · intro p w hc hmem
      cases hmem
    · intro s e he
      cases he
    · intro t s nd x hpc hx
      cases hx

theorem Reach.inv (h : Reach n st) : Inv n st := by
  induction h with
  | init => exact Inv.init n
  | step _ a ha ih => exact ih.step ha

theorem reclamation_safe (h : Reach n st) :
    (∀ p ∈ st.freed, ∀ w, p ∉ (st.workers w).held) ∧ (∀ s p, st.snap s = some p → p ∉ st.freed) ∧ st.freed.Nodup ∧
      ∃ ls : Option Nat → List Nat, Linked st.next st.head (ls none) none ∧
        (∀ t, NodesOf st.next (st.pc t) (ls (some t))) ∧ (∀ q, (ls q).Nodup) ∧
        (∀ nd q q', nd ∈ ls q → nd ∈ ls q' → q = q') ∧ ∀ nd, (∃ x, st.nodes nd = some x) ↔ ∃ q, nd ∈ ls q := by
  obtain ⟨-, howns, ⟨ls, hls⟩, hguards⟩ := h.inv
  refine ⟨fun p hp w => hguards.cleared p w (.inr (.inr hp)), fun s p hs hp => ?_, howns.freed,
    ls, hls.head, hls.threads, hls.nodup, hls.single, hls.all⟩
  exact nomatch howns.single p (.current s) .freed hs hp

end

def run (n : Nat) (acts : List Act) : Option St := acts.foldlM (fun st a => step n st a) {}

theorem Reach.run {n : Nat} {acts : List Act} {st st' : St} (h : Reach n st)
    (hrun : acts.foldlM (fun st a => Qsbr.step n st a) st = some st') : Reach n st' := by
  induction acts generalizing st with
  | nil =>
    cases hrun
    exact h
  | cons a acts ih =>
    obtain ⟨st1, hstep, hrest⟩ := bind_eq_some_iff.1 hrun
    exact ih (h.step a hstep) hrest

/-- A worker loads a snapshot, which is replaced; when the worker has been quiescent, it is freed. -/
def quiescentRun : List Act :=
  [.begin 0 (.publish 0), .thread 0 {}, .thread 0 {}, .thread 0 {}, .worker 0 (.load 0), .begin 0 (.publish 0),
    .thread 0 {}, .thread 0 {}, .thread 0 {}, .thread 0 {}, .thread 0 {}, .thread 0 {}, .worker 0 .quiescent,
    .begin 0 (.publish 0), .thread 0 {}, .thread 0 {}, .thread 0 {}, .thread 0 {}]

theorem quiescentRun_runs : (run 1 quiescentRun).isSome := by decide +kernel

theorem quiescentRun_freed : ((run 1 quiescentRun).get quiescentRun_runs).freed = [0] ∧
    ∀ w, 0 ∉ (((run 1 quiescentRun).get quiescentRun_runs).workers w).held := by
  have hfreed : ((run 1 quiescentRun).get quiescentRun_runs).freed = [0] := by decide +kernel
  have hreach : Reach 1 ((run 1 quiescentRun).get quiescentRun_runs) :=
    Reach.init.run (some_get quiescentRun_runs).symm
  refine ⟨hfreed, (reclamation_safe hreach).1 0 ?_⟩
  exact mem_singleton.2 rfl

end DvbIpiTools.Dipixy.Qsbr
