import Mathlib.Data.List.Range

set_option autoImplicit false

/-! # The hold queue (`mux/releaseq.c`)

A ring of slots that doubles until it has its full size. -/

namespace DvbIpiTools.Tvhead

open List

def initialPackets : Nat := 256

/-- `struct releaseq`. -/
structure Releaseq (α : Type) where
  slots : Nat → α
  cap : Nat
  max : Nat
  head : Nat
  len : Nat

namespace Releaseq

variable {α : Type}

/-- `releaseq_new`, for a size that is not zero. -/
def new [Inhabited α] (max : Nat) : Releaseq α := ⟨fun _ => default, 0, max, 0, 0⟩

/-- The size to grow to. -/
def ncap (q : Releaseq α) : Nat := min q.max (if q.cap ≠ 0 then q.cap * 2 else initialPackets)

/-- `grow`; `oom` tells that the allocation fails. -/
def grow (oom : Bool) (q : Releaseq α) : Option (Releaseq α) :=
  if q.ncap ≤ q.cap then none
  else if oom then none
  else some { q with slots := fun i => q.slots ((q.head + i) % q.cap), cap := q.ncap, head := 0 }

/-- The end of `releaseq_push`: the item into the next slot. -/
def store (x : α) (q : Releaseq α) : Releaseq α :=
  { q with slots := fun i => if i = (q.head + q.len) % q.cap then x else q.slots i, len := q.len + 1 }

/-- `releaseq_push`. -/
def push (oom : Bool) (x : α) (q : Releaseq α) : Option (Releaseq α) :=
  if q.len = q.cap then (q.grow oom).map (store x) else some (q.store x)

/-- `releaseq_head`. -/
def headItem (q : Releaseq α) : Option α := if q.len = 0 then none else some (q.slots q.head)

/-- `releaseq_pop`. -/
def pop (q : Releaseq α) : Releaseq α :=
  if q.len = 0 then q else { q with head := (q.head + 1) % q.cap, len := q.len - 1 }

end Releaseq

end DvbIpiTools.Tvhead
