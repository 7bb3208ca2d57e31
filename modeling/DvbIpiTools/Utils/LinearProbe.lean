import Mathlib.Algebra.Group.Nat.Defs
import Mathlib.Data.List.Count
import Mathlib.Data.Nat.Find

set_option autoImplicit false

/-! # Linear probing with tombstones

A circular table of `n` cells, each empty, live or dead (a tombstone). The elements are placed by a hash
function and found by walking from their home cell until an empty one. What makes this work is
`Placed`: from the home of a live element no empty cell comes before its own. Neither placing nor
killing another element breaks it, since both leave a cell that is not empty. -/

namespace LinearProbe

open Option List Nat

variable {α κ : Type}

/-- A cell of the table. -/
inductive Cell (α : Type)
  | empty
  | dead
  | live (a : α)

namespace Cell

def isLive : Cell α → Bool
  | live _ => true
  | _ => false

def isDead : Cell α → Bool
  | dead => true
  | _ => false

def isEmpty : Cell α → Bool
  | empty => true
  | _ => false

@[simp] theorem isLive_empty : (empty : Cell α).isLive = false := rfl
@[simp] theorem isLive_dead : (dead : Cell α).isLive = false := rfl
@[simp] theorem isLive_live (a : α) : (live a).isLive = true := rfl
@[simp] theorem isDead_empty : (empty : Cell α).isDead = false := rfl
@[simp] theorem isDead_dead : (dead : Cell α).isDead = true := rfl
@[simp] theorem isDead_live (a : α) : (live a).isDead = false := rfl
@[simp] theorem isEmpty_empty : (empty : Cell α).isEmpty = true := rfl
@[simp] theorem isEmpty_dead : (dead : Cell α).isEmpty = false := rfl
@[simp] theorem isEmpty_live (a : α) : (live a).isEmpty = false := rfl

theorem isEmpty_iff {c : Cell α} : c.isEmpty = true ↔ c = empty := by cases c <;> simp

end Cell

/-- A table with the cell `i` replaced. -/
def put (t : Nat → Cell α) (i : Nat) (c : Cell α) : Nat → Cell α := fun k => if k = i then c else t k

@[simp] theorem put_self (t : Nat → Cell α) (i : Nat) (c : Cell α) : put t i c i = c := if_pos rfl

variable {t : Nat → Cell α} {i k : Nat}

theorem put_of_ne (c : Cell α) (h : k ≠ i) : put t i c k = t k := if_neg h

/-! ## Walks -/

/-- The first cell from `h` on where `stop` holds, in at most `fuel` steps. -/
def probe (next : Nat → Nat) (stop : Nat → Bool) : Nat → Nat → Option Nat
  | 0, _ => none
  | fuel + 1, h => if stop h then some h else probe next stop fuel (next h)

variable {stop : Nat → Bool} {fuel h : Nat} {next : Nat → Nat}

/-- A walk that would stop at fewer cells, but still at the one where it stopped. -/
theorem probe_mono {stop' : Nat → Bool} (hprobe : probe next stop fuel h = some k) (hk : stop' k = true)
    (hle : ∀ i, stop' i = true → stop i = true) : probe next stop' fuel h = some k := by
  induction fuel generalizing h with
  | zero => cases hprobe
  | succ fuel ih =>
    rw [probe] at hprobe ⊢
    by_cases hstop' : stop' h = true
    · rw [if_pos (hle h hstop')] at hprobe
      rw [if_pos hstop', hprobe]
    rw [if_neg hstop']
    by_cases hstop : stop h = true
    · rw [if_pos hstop] at hprobe
      rw [some.inj hprobe] at hstop'
      exact absurd hk hstop'
    · rw [if_neg hstop] at hprobe
      exact ih hprobe

theorem probe_stop (hprobe : probe next stop fuel h = some k) : stop k = true := by
  induction fuel generalizing h with
  | zero => cases hprobe
  | succ fuel ih =>
    rw [probe] at hprobe
    by_cases hstop : stop h = true
    · rw [if_pos hstop] at hprobe
      rwa [some.inj hprobe] at hstop
    · rw [if_neg hstop] at hprobe
      exact ih hprobe

/-- One cell further, around the end of the table. -/
def succMod (n : Nat) (h : Nat) : Nat := (h + 1) % n

theorem succMod_add (n h j : Nat) : (succMod n h + j) % n = (h + (j + 1)) % n := by
  rw [succMod, mod_add_mod, add_assoc, add_comm 1 j]

variable {n : Nat}

theorem probe_first {j : Nat} (hh : h < n)
    (hstop : stop ((h + j) % n) = true) (hbefore : ∀ i < j, stop ((h + i) % n) = false)
    (hfuel : j < fuel) : probe (succMod n) stop fuel h = some ((h + j) % n) := by
  induction j generalizing h fuel with
  | zero =>
    obtain ⟨fuel, rfl⟩ : ∃ f, fuel = f + 1 := ⟨fuel - 1, by omega⟩
    have hhere : (h + 0) % n = h := mod_eq_of_lt hh
    rw [hhere] at hstop ⊢
    rw [probe, if_pos hstop]
  | succ j ih =>
    obtain ⟨fuel, rfl⟩ : ∃ f, fuel = f + 1 := ⟨fuel - 1, by omega⟩
    have hhere : stop h = false := by
      have := hbefore 0 (by omega)
      rwa [add_zero, mod_eq_of_lt hh] at this
    have hlt : succMod n h < n := mod_lt _ (by omega)
    rw [probe, if_neg (by rw [hhere]; decide),
      ih hlt (by rw [succMod_add]; exact hstop) (fun i hi => ?_) (by omega), succMod_add]
    rw [succMod_add]
    exact hbefore (i + 1) (by omega)

theorem exists_offset (hh : h < n) (hi : i < n) : ∃ j < n, i = (h + j) % n := by
  refine ⟨(i + n - h) % n, mod_lt _ (by omega), ?_⟩
  rw [add_mod_mod, show h + (i + n - h) = i + n by omega, add_mod_right, mod_eq_of_lt hi]

theorem probe_total {n h : Nat} {stop : Nat → Bool} (hh : h < n)
    (hex : ∃ i < n, stop i = true) : ∃ j < n, stop ((h + j) % n) = true ∧ (∀ i < j, stop ((h + i) % n) = false) ∧
        probe (succMod n) stop n h = some ((h + j) % n) := by
  obtain ⟨i, hi, hstop⟩ := hex
  obtain ⟨j, hj, rfl⟩ := exists_offset hh hi
  have hP : ∃ k, stop ((h + k) % n) = true := ⟨j, hstop⟩
  have hle : Nat.find hP ≤ j := Nat.find_min' hP hstop
  have hbefore : ∀ k < Nat.find hP, stop ((h + k) % n) = false := fun k hk => by simpa using Nat.find_min hP hk
  exact ⟨Nat.find hP, by omega, Nat.find_spec hP, hbefore, probe_first hh (Nat.find_spec hP) hbefore (by omega)⟩

/-! ## Elements that can be found -/

/-- No empty cell stands between the home `h` and the cell `i`. -/
def Reach (t : Nat → Cell α) (n h i : Nat) : Prop :=
  ∃ j < n, i = (h + j) % n ∧ ∀ k < j, t ((h + k) % n) ≠ .empty

/-- Every live element can be reached from its home. -/
def Placed (home : α → Nat) (t : Nat → Cell α) (n : Nat) : Prop :=
  ∀ i < n, ∀ a, t i = .live a → Reach t n (home a) i

/-- No key is in the table twice. -/
def Unique (key : α → κ) (t : Nat → Cell α) (n : Nat) : Prop :=
  ∀ i < n, ∀ j < n, ∀ a b, t i = .live a → t j = .live b → key a = key b → i = j

/-- The element is in the table. -/
def Holds (t : Nat → Cell α) (n : Nat) (a : α) : Prop := ∃ i < n, t i = .live a

variable {c : Cell α}

theorem Reach.put (hr : Reach t n h i) (k : Nat) (hc : c ≠ .empty) : Reach (put t k c) n h i := by
  obtain ⟨j, hj, hi, hbefore⟩ := hr
  refine ⟨j, hj, hi, fun l hl => ?_⟩
  by_cases hk : (h + l) % n = k
  · rw [hk, put_self]
    exact hc
  · rw [put_of_ne c hk]
    exact hbefore l hl

theorem placed_empty (home : α → Nat) (n : Nat) : Placed home (fun _ => .empty) n := nofun

theorem Placed.congr {home home' : α → Nat} {t : Nat → Cell α} {n : Nat} (hp : Placed home t n)
    (h : ∀ a, Holds t n a → home' a = home a) : Placed home' t n := by
  intro i hi a ha
  rw [h a ⟨i, hi, ha⟩]
  exact hp i hi a ha

variable {home : α → Nat}

theorem Placed.kill (hp : Placed home t n) (k : Nat) : Placed home (put t k .dead) n := by
  intro i hi a ha
  by_cases hik : i = k
  · rw [hik, put_self] at ha
    cases ha
  · rw [put_of_ne _ hik] at ha
    exact (hp i hi a ha).put k nofun

variable {a : α}

/-- A live cell written at the end of a walk over nothing but live cells. -/
theorem Placed.live (hp : Placed home t n) (hr : Reach t n (home a) k) : Placed home (put t k (.live a)) n := by
  intro i hi b hb
  by_cases hik : i = k
  · rw [hik, put_self] at hb
    obtain rfl := Cell.live.inj hb
    rw [hik]
    exact hr.put k nofun
  · rw [put_of_ne _ hik] at hb
    exact (hp i hi b hb).put k nofun

theorem holds_put_live (hk : k < n) (hnot : (t k).isLive = false) (b : α) :
    Holds (put t k (.live a)) n b ↔ b = a ∨ Holds t n b := by
  constructor
  · rintro ⟨i, hi, hb⟩
    by_cases hik : i = k
    · rw [hik, put_self] at hb
      exact .inl (Cell.live.inj hb).symm
    · rw [put_of_ne _ hik] at hb
      exact .inr ⟨i, hi, hb⟩
  rintro (rfl | ⟨i, hi, hb⟩)
  · exact ⟨k, hk, put_self _ _ _⟩
  · refine ⟨i, hi, ?_⟩
    rwa [put_of_ne]
    rintro rfl
    rw [hb] at hnot
    cases hnot

variable {key : α → κ}

theorem holds_put_dead (hu : Unique key t n) (hk : k < n) (ha : t k = .live a) (b : α) :
    Holds (put t k .dead) n b ↔ Holds t n b ∧ key b ≠ key a := by
  constructor
  · rintro ⟨i, hi, hb⟩
    by_cases hik : i = k
    · rw [hik, put_self] at hb
      cases hb
    · rw [put_of_ne _ hik] at hb
      exact ⟨⟨i, hi, hb⟩, fun h => hik (hu i hi k hk b a hb ha h)⟩
  rintro ⟨⟨i, hi, hb⟩, hne⟩
  refine ⟨i, hi, ?_⟩
  rwa [put_of_ne]
  rintro rfl
  rw [hb] at ha
  exact hne (congrArg key (Cell.live.inj ha))

theorem Unique.kill (hu : Unique key t n) (k : Nat) : Unique key (put t k .dead) n := by
  intro i hi j hj a b ha hb hab
  by_cases hik : i = k
  · rw [hik, put_self] at ha
    cases ha
  by_cases hjk : j = k
  · rw [hjk, put_self] at hb
    cases hb
  · rw [put_of_ne _ hik] at ha
    rw [put_of_ne _ hjk] at hb
    exact hu i hi j hj a b ha hb hab

theorem Unique.live (hu : Unique key t n)
    (hnew : ∀ b, Holds t n b → key b ≠ key a) : Unique key (put t k (.live a)) n := by
  intro i hi j hj b c hb hc hbc
  by_cases hik : i = k
  · by_cases hjk : j = k
    · rw [hik, hjk]
    · rw [hik, put_self] at hb
      rw [put_of_ne _ hjk] at hc
      obtain rfl := Cell.live.inj hb
      exact absurd hbc.symm (hnew c ⟨j, hj, hc⟩)
  rw [put_of_ne _ hik] at hb
  by_cases hjk : j = k
  · rw [hjk, put_self] at hc
    obtain rfl := Cell.live.inj hc
    exact absurd hbc (hnew b ⟨i, hi, hb⟩)
  · rw [put_of_ne _ hjk] at hc
    exact hu i hi j hj b c hb hc hbc

/-! ## Finding -/

/-- Where a search ends: at an empty cell or at an element that matches. -/
def stopAt (p : α → Bool) (t : Nat → Cell α) (i : Nat) : Bool :=
  match t i with
  | .empty => true
  | .dead => false
  | .live a => p a

variable {p : α → Bool}

theorem stopAt_of_match (h : t i = .live a) (hp : p a = true) : stopAt p t i = true := by
  rw [stopAt, h]
  exact hp

theorem of_stopAt (h : stopAt p t i = true) : t i = .empty ∨ ∃ a, t i = .live a ∧ p a = true := by
  unfold stopAt at h
  split at h
  · next hc => exact .inl hc
  · cases h
  · next a hc => exact .inr ⟨a, hc, h⟩

/-- A search from the home of a matching element ends at a matching element. -/
theorem find_match {p : α → Bool} {t : Nat → Cell α} {n h i : Nat} {a : α} (hh : h < n)
    (hr : Reach t n h i) (hi : t i = .live a) (hp : p a = true) :
    ∃ k < n, ∃ b, probe (succMod n) (stopAt p t) n h = some k ∧ t k = .live b ∧ p b = true := by
  obtain ⟨j, hj, rfl, hbefore⟩ := hr
  have hlt : ∀ l, (h + l) % n < n := fun l => mod_lt _ (by omega)
  obtain ⟨l, hl, hstop, hfirst, hprobe⟩ := probe_total hh ⟨_, hlt j, stopAt_of_match hi hp⟩
  rcases of_stopAt hstop with hempty | ⟨b, hb, hpb⟩
  · -- an empty cell would stand before the element
    rcases lt_trichotomy l j with hlj | rfl | hjl
    · exact absurd hempty (hbefore l hlj)
    · exact absurd (hempty.symm.trans hi) (by simp)
    · have := hfirst j hjl
      rw [stopAt_of_match hi hp] at this
      cases this
  · exact ⟨_, hlt l, b, hprobe, hb, hpb⟩

theorem find_none {p : α → Bool} {t : Nat → Cell α} {n h : Nat} (hh : h < n)
    (hempty : ∃ i < n, t i = .empty) (hno : ∀ a, Holds t n a → p a = false) :
    ∃ k < n, probe (succMod n) (stopAt p t) n h = some k ∧ t k = .empty := by
  obtain ⟨i, hi, hcell⟩ := hempty
  have hlt : ∀ l, (h + l) % n < n := fun l => mod_lt _ (by omega)
  obtain ⟨l, -, hstop, -, hprobe⟩ := probe_total hh ⟨i, hi, show stopAt p t i = true by rw [stopAt, hcell]⟩
  refine ⟨_, hlt l, hprobe, ?_⟩
  rcases of_stopAt hstop with h | ⟨b, hb, hpb⟩
  · exact h
  · rw [hno b ⟨_, hlt l, hb⟩] at hpb
    cases hpb

/-! ## Counting cells -/

/-- How many of the `n` cells satisfy `p`. -/
def count (p : Cell α → Bool) (t : Nat → Cell α) (n : Nat) : Nat := (range n).countP fun i => p (t i)

theorem count_succ (p : Cell α → Bool) (t : Nat → Cell α) (n : Nat) :
    count p t (n + 1) = count p t n + (p (t n)).toNat := by
  unfold count
  rw [range_succ, countP_append, countP_singleton]
  cases p (t n) <;> rfl

theorem count_put_of_le {p : Cell α → Bool} (hi : n ≤ i) : count p (put t i c) n = count p t n := by
  refine countP_congr fun k hk => ?_
  have hk := mem_range.1 hk
  rw [put_of_ne c (by omega)]

theorem count_put {p : Cell α → Bool} {t : Nat → Cell α} {n i : Nat} {c : Cell α} (hi : i < n) :
    count p (put t i c) n + (p (t i)).toNat = count p t n + (p c).toNat := by
  induction n with
  | zero => omega
  | succ n ih =>
    rw [count_succ, count_succ]
    by_cases hin : i = n
    · rw [hin, put_self, count_put_of_le le_rfl]
      omega
    · rw [put_of_ne c (Ne.symm hin)]
      omega

theorem exists_of_count_lt {p : Cell α → Bool} (h : count p t n < n) : ∃ i < n, p (t i) = false := by
  induction n with
  | zero => omega
  | succ n ih =>
    rw [count_succ] at h
    cases hp : p (t n) with
    | false => exact ⟨n, by omega, hp⟩
    | true =>
      rw [hp] at h
      obtain ⟨i, hi, hpi⟩ := ih (by simp only [Bool.toNat_true] at h; omega)
      exact ⟨i, by omega, hpi⟩

theorem count_live_add_dead (t : Nat → Cell α) (n : Nat) :
    count Cell.isLive t n + count Cell.isDead t n = count (fun c => !c.isEmpty) t n := by
  induction n with
  | zero => rfl
  | succ n ih =>
    rw [count_succ, count_succ, count_succ, ← ih]
    cases t n <;> simp only [Cell.isLive, Cell.isDead, Cell.isEmpty, Bool.toNat_true,
      Bool.toNat_false, Bool.not_true, Bool.not_false] <;> omega

theorem exists_empty (h : count Cell.isLive t n + count Cell.isDead t n < n) : ∃ i < n, t i = .empty := by
  rw [count_live_add_dead] at h
  obtain ⟨i, hi, hcell⟩ := exists_of_count_lt h
  exact ⟨i, hi, Cell.isEmpty_iff.1 (by simpa using hcell)⟩

/-! ## Placing -/

/-- The cell an element goes to: the first that is not live. -/
def freeCell (next : Nat → Nat) (home : α → Nat) (t : Nat → Cell α) (n : Nat) (a : α) : Option Nat :=
  probe next (fun i => !(t i).isLive) n (home a)

theorem probe_free {t : Nat → Cell α} {n h : Nat} (hh : h < n) (hroom : count Cell.isLive t n < n) : ∃ k < n,
      probe (succMod n) (fun i => !(t i).isLive) n h = some k ∧ (t k).isLive = false ∧ Reach t n h k := by
  obtain ⟨i, hi, hfree⟩ := exists_of_count_lt hroom
  obtain ⟨j, hj, hstop, hfirst, hprobe⟩ := @probe_total n h (fun i => !(t i).isLive)
    hh ⟨i, hi, by simpa using hfree⟩
  refine ⟨_, mod_lt _ (by omega), hprobe, by simpa using hstop, j, hj, rfl, fun l hl hempty => ?_⟩
  have := hfirst l hl
  rw [hempty] at this
  cases this

theorem freeCell_spec {home : α → Nat} {t : Nat → Cell α} {n : Nat} {a : α} (hhome : home a < n)
    (hroom : count Cell.isLive t n < n) : ∃ k, freeCell (succMod n) home t n a = some k ∧ k < n ∧
      (t k).isLive = false ∧ (Placed home t n → Placed home (put t k (.live a)) n) := by
  obtain ⟨k, hk, hprobe, hfree, hreach⟩ := probe_free hhome hroom
  exact ⟨k, hprobe, hk, hfree, fun hp => hp.live hreach⟩

/-- The loop of a rebuild: the elements one after the other into a table. `none` is a walk that finds
    no free cell. -/
def placeAll (next : Nat → Nat) (home : α → Nat) (n : Nat) :
    List α → (Nat → Cell α) → Option (Nat → Cell α)
  | [], t => some t
  | a :: as, t =>
    match freeCell next home t n a with
    | none => none
    | some k => placeAll next home n as (put t k (.live a))

theorem count_dead_put_live (hk : k < n) (a : α) : count Cell.isDead (put t k (.live a)) n ≤ count Cell.isDead t n := by
  have h := @count_put _ Cell.isDead t n k (.live a) hk
  have hlive : (Cell.live a).isDead.toNat = 0 := rfl
  omega

theorem count_live_put_live (hk : k < n) (hfree : (t k).isLive = false) (a : α) :
    count Cell.isLive (put t k (.live a)) n = count Cell.isLive t n + 1 := by
  have h := @count_put _ Cell.isLive t n k (.live a) hk
  have hlive : (Cell.live a).isLive.toNat = 1 := rfl
  rw [hfree, Bool.toNat_false] at h
  omega

theorem placeAll_spec {home : α → Nat} {key : α → κ} {n : Nat} {as : List α} {t : Nat → Cell α}
    (hhome : ∀ a, home a < n) (hroom : count Cell.isLive t n + as.length ≤ n) (hp : Placed home t n)
    (hu : Unique key t n) (hnodup : (as.map key).Nodup) (hnew : ∀ a ∈ as, ∀ b, Holds t n b → key b ≠ key a) :
    ∃ t', placeAll (succMod n) home n as t = some t' ∧ Placed home t' n ∧ Unique key t' n ∧
      (∀ b, Holds t' n b ↔ b ∈ as ∨ Holds t n b) ∧ count Cell.isLive t' n = count Cell.isLive t n + as.length ∧
      count Cell.isDead t' n ≤ count Cell.isDead t n := by
  induction as generalizing t with
  | nil => exact ⟨t, rfl, hp, hu, by simp, rfl, le_rfl⟩
  | cons a as ih =>
    rw [length_cons] at hroom
    rw [map_cons, nodup_cons] at hnodup
    obtain ⟨k, hk, hlt, hfree, hplaced⟩ := freeCell_spec (hhome a)
      (show count Cell.isLive t n < n by omega)
    have hlive := count_live_put_live hlt hfree a
    have hdead := count_dead_put_live hlt a (t := t)
    have hholds := holds_put_live hlt hfree (a := a)
    have hu' : Unique key (put t k (.live a)) n := hu.live (hnew a mem_cons_self)
    have hnew' : ∀ b ∈ as, ∀ c, Holds (put t k (.live a)) n c → key c ≠ key b := by
      intro b hb c hc
      rcases (hholds c).1 hc with rfl | hc
      · exact fun h => hnodup.1 (h ▸ mem_map_of_mem hb)
      · exact hnew b (mem_cons_of_mem a hb) c hc
    obtain ⟨t', h0, h1, h2, h3, h4, h5⟩ := ih (t := put t k (.live a)) (by omega) (hplaced hp) hu'
      hnodup.2 hnew'
    refine ⟨t', by rw [placeAll, hk]; exact h0, h1, h2, fun b => ?_, ?_, ?_⟩
    · rw [h3, hholds, mem_cons]
      tauto
    · rw [h4, hlive, length_cons]
      omega
    · exact le_trans h5 hdead

/-- The elements of a table in the order of their cells. -/
def elems (t : Nat → Cell α) (n : Nat) : List α :=
  (range n).filterMap fun i =>
    match t i with
    | .live a => some a
    | _ => none

theorem elems_succ (t : Nat → Cell α) (n : Nat) : elems t (n + 1) = elems t n ++ (match t n with
      | .live a => [a]
      | _ => []) := by
  unfold elems
  rw [range_succ, filterMap_append]
  cases h : t n <;> simp [h]

theorem mem_elems : a ∈ elems t n ↔ Holds t n a := by
  unfold elems Holds
  rw [mem_filterMap]
  constructor
  · rintro ⟨i, hi, ha⟩
    refine ⟨i, mem_range.1 hi, ?_⟩
    split at ha
    · next b hb => rw [hb, some.inj ha]
    · cases ha
  · rintro ⟨i, hi, ha⟩
    exact ⟨i, mem_range.2 hi, by rw [ha]⟩

theorem length_elems (t : Nat → Cell α) (n : Nat) : (elems t n).length = count Cell.isLive t n := by
  induction n with
  | zero => rfl
  | succ n ih =>
    rw [elems_succ, length_append, ih, count_succ]
    cases t n <;> rfl

theorem nodup_elems (hu : Unique key t n) : ((elems t n).map key).Nodup := by
  induction n with
  | zero => exact nodup_nil
  | succ n ih =>
    have hu' : Unique key t n := fun i hi j hj => hu i (by omega) j (by omega)
    rw [elems_succ, map_append, nodup_append]
    refine ⟨ih hu', ?_, ?_⟩
    · cases t n <;> simp
    intro x hx y hy hxy
    obtain ⟨a, ha, rfl⟩ := mem_map.1 hx
    obtain ⟨i, hi, hia⟩ := mem_elems.1 ha
    cases hn : t n with
    | live b =>
      simp only [hn, map_cons, map_nil, mem_singleton] at hy
      have := hu i (by omega) n (by omega) a b hia hn (hxy.trans hy)
      omega
    | _ => simp [hn] at hy

theorem count_const (p : Cell α → Bool) (n : Nat) (h : p .empty = false) : count p (fun _ => .empty) n = 0 := by
  simp [count, h]

theorem rebuild_spec {home : α → Nat} {key : α → κ} {m : Nat} {as : List α}
    (hhome : ∀ a, home a < m) (hroom : as.length ≤ m) (hnodup : (as.map key).Nodup) :
    ∃ t', placeAll (succMod m) home m as (fun _ => .empty) = some t' ∧ Placed home t' m ∧
      Unique key t' m ∧ (∀ b, Holds t' m b ↔ b ∈ as) ∧ count Cell.isLive t' m = as.length ∧
      count Cell.isDead t' m = 0 := by
  have hlive : count Cell.isLive (fun _ => (.empty : Cell α)) m = 0 := count_const _ m rfl
  have hdead : count Cell.isDead (fun _ => (.empty : Cell α)) m = 0 := count_const _ m rfl
  have hnone : ∀ b, ¬ Holds (fun _ => (.empty : Cell α)) m b := fun b ⟨i, _, h⟩ => nomatch h
  obtain ⟨t', h0, h1, h2, h3, h4, h5⟩ := @placeAll_spec _ _ home key m as (fun _ => .empty) hhome
    (by omega) (placed_empty home m) (fun i _ j _ a b h => nomatch h) hnodup
    (fun a _ b hb => absurd hb (hnone b))
  refine ⟨t', h0, h1, h2, fun b => ?_, by omega, by omega⟩
  rw [h3]
  exact ⟨fun h => h.resolve_right (hnone b), .inl⟩

/-! ## Tables whose size is a power of two -/

theorem succMod_two_pow (k : Nat) : (fun h => (h + 1) &&& (2 ^ k - 1)) = succMod (2 ^ k) := by
  funext h
  rw [and_two_pow_sub_one_eq_mod, succMod]

/-! ## Finding or claiming in one walk -/

/-- What a walk that looks for an element or for room to put it ends with. -/
inductive Claim (α : Type)
  | found (a : α)
  | claimed (k : Nat) (wasDead : Bool)

/-- One walk that looks for a match and remembers the first dead cell, to be taken over when an empty
    cell ends the search. -/
def findOrClaim (next : Nat → Nat) (p : α → Bool) (t : Nat → Cell α) :
    Nat → Nat → Option Nat → Option (Claim α)
  | 0, _, _ => none
  | fuel + 1, h, avail =>
    match t h with
    | .empty => some (.claimed (avail.getD h) avail.isSome)
    | .dead => findOrClaim next p t fuel (next h) (avail.or (some h))
    | .live a => if p a then some (.found a) else findOrClaim next p t fuel (next h) avail

theorem findOrClaim_some (next : Nat → Nat) (p : α → Bool) (t : Nat → Cell α) (fuel h c : Nat) :
    findOrClaim next p t fuel h (some c) = (probe next (stopAt p t) fuel h).map fun j =>
      match t j with
      | .live a => .found a
      | _ => .claimed c true := by
  induction fuel generalizing h with
  | zero => rfl
  | succ fuel ih =>
    rw [findOrClaim, probe]
    cases ht : t h with
    | empty => simp [stopAt, ht]
    | dead => simp [stopAt, ht, ih]
    | live a =>
      by_cases hp : p a = true
      · simp [stopAt, ht, hp]
      · simp [stopAt, ht, hp, ih]

/-- The walk ends where the search ends, and what it claims is the first cell that is not live. -/
theorem findOrClaim_none (next : Nat → Nat) (p : α → Bool) (t : Nat → Cell α) (fuel h : Nat) :
    findOrClaim next p t fuel h none = (probe next (stopAt p t) fuel h).bind fun j =>
      match t j with
      | .live a => some (.found a)
      | _ => (probe next (fun i => !(t i).isLive) fuel h).map fun c => .claimed c (t c).isDead := by
  induction fuel generalizing h with
  | zero => rfl
  | succ fuel ih =>
    rw [findOrClaim, probe, probe]
    cases ht : t h with
    | empty => simp [stopAt, ht, Cell.isLive, Cell.isDead]
    | dead =>
      simp only [stopAt, ht, Cell.isLive, Bool.not_false, if_true, Bool.false_eq_true, if_false,
        Option.or, findOrClaim_some, map_some, Cell.isDead]
      cases probe next (stopAt p t) fuel (next h) with
      | none => rfl
      | some j => simp only [map_some, bind_some]; cases t j <;> rfl
    | live a =>
      by_cases hp : p a = true
      · simp [stopAt, ht, hp]
      · simp [stopAt, ht, hp, ih, Cell.isLive]

end LinearProbe
