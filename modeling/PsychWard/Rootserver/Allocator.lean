import Mathlib.Data.List.Basic

/-!
# The CSlot allocator

`PsychAllocator` of `allocator.cpp`: a bump pointer over the empty slots of the boot information and
a pool of at most 256 returned slots, which is used first. The array `free_slots` is the list
`freeSlots` with the last returned slot at its head, so `free_count` is its length.
-/

namespace PsychWard.Rootserver

/-- `FREE_POOL_SIZE`. -/
def freePoolSize : ℕ := 256

/-- The state of the slot allocator. -/
structure PsychAllocator where
  currentSlot : ℕ
  maxSlot : ℕ
  freeSlots : List ℕ

namespace PsychAllocator

/-- `alloc_slot`: the slot returned last, else the next one of the bump range, else 0. -/
def allocSlot (a : PsychAllocator) : ℕ × PsychAllocator :=
  match a.freeSlots with
  | slot :: rest => (slot, { a with freeSlots := rest })
  | [] =>
    if a.currentSlot < a.maxSlot then
      (a.currentSlot, { a with currentSlot := a.currentSlot + 1 })
    else (0, a)

/-- `free`: a slot goes back into the pool unless it is 0, the pool is full or it is in it. -/
def free (a : PsychAllocator) (slot : ℕ) : PsychAllocator :=
  if slot = 0 ∨ freePoolSize ≤ a.freeSlots.length then a
  else if slot ∈ a.freeSlots then a
  else { a with freeSlots := slot :: a.freeSlots }

end PsychAllocator

end PsychWard.Rootserver
