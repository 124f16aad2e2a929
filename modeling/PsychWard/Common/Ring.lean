import Mathlib.Data.List.Range
import Mathlib.Logic.Function.Basic

/-!
# Ring buffers

A ring buffer of `n` slots with the index of the next free slot and that of the oldest element. One
slot is left unused, so that the indices agree only when the buffer is empty. `contents` lists what
waits in it, oldest first; pushing and popping are those of a queue of capacity `n - 1`.
-/

namespace PsychWard

structure Ring (α : Type*) (n : ℕ) where
  slots : ℕ → α
  head : ℕ
  tail : ℕ
  head_lt : head < n
  tail_lt : tail < n

namespace Ring

variable {α : Type*} {n : ℕ}

/-- The number of elements that wait. -/
def count (r : Ring α n) : ℕ := (r.head + n - r.tail) % n

/-- The elements that wait, oldest first. -/
def contents (r : Ring α n) : List α :=
  (List.range r.count).map fun k => r.slots ((r.tail + k) % n)

/-- The ring with `a` in the next free slot. -/
def pushed (r : Ring α n) (a : α) : Ring α n where
  slots := Function.update r.slots r.head a
  head := (r.head + 1) % n
  tail := r.tail
  head_lt := Nat.mod_lt _ (Nat.zero_lt_of_lt r.head_lt)
  tail_lt := r.tail_lt

/-- The ring without its oldest element. -/
def popped (r : Ring α n) : Ring α n where
  slots := r.slots
  head := r.head
  tail := (r.tail + 1) % n
  head_lt := r.head_lt
  tail_lt := Nat.mod_lt _ (Nat.zero_lt_of_lt r.tail_lt)

/-- Store behind the newest element; `none` when the ring is full. -/
def push (r : Ring α n) (a : α) : Option (Ring α n) :=
  if (r.head + 1) % n = r.tail then none else some (r.pushed a)

/-- Remove the oldest element; `none` when the ring is empty. -/
def pop (r : Ring α n) : Option (α × Ring α n) :=
  if r.head ≠ r.tail then some (r.slots r.tail, r.popped) else none

/-- The contents are as long as the count says. -/
theorem length_contents (r : Ring α n) : r.contents.length = r.count := by simp [contents]

/-- The count without a remainder. -/
theorem count_eq (r : Ring α n) :
    r.count = if r.tail ≤ r.head then r.head - r.tail else r.head + n - r.tail := by
  have hh := r.head_lt
  have ht := r.tail_lt
  unfold count
  split
  next h =>
    have hsub : r.head + n - r.tail = r.head - r.tail + n := by omega
    rw [hsub, Nat.add_mod_right, Nat.mod_eq_of_lt (by omega)]
  next h => exact Nat.mod_eq_of_lt (by omega)

/-- One slot always stays free. -/
theorem count_lt (r : Ring α n) : r.count < n := Nat.mod_lt _ (Nat.zero_lt_of_lt r.head_lt)

/-- The head is the count behind the tail. -/
theorem head_eq (r : Ring α n) : r.head = (r.tail + r.count) % n := by
  have hh := r.head_lt
  have ht := r.tail_lt
  rw [count_eq]
  split
  next h => rw [Nat.add_sub_cancel' h, Nat.mod_eq_of_lt hh]
  next h => rw [Nat.add_sub_cancel' (by omega), Nat.add_mod_right, Nat.mod_eq_of_lt hh]

/-- A ring is empty where head and tail meet. -/
theorem count_eq_zero_iff (r : Ring α n) : r.count = 0 ↔ r.head = r.tail := by
  have hh := r.head_lt
  have ht := r.tail_lt
  rw [count_eq]
  split <;> omega

/-- The next slot, as code computes it with a test in place of a remainder. -/
theorem succ_mod (i : ℕ) (hi : i < n) : (i + 1) % n = if i + 1 = n then 0 else i + 1 := by
  split
  next h => rw [h, Nat.mod_self]
  next h => exact Nat.mod_eq_of_lt (by omega)

/-- The next free slot is the oldest element when all but one slot are taken. -/
theorem full_iff (r : Ring α n) : (r.head + 1) % n = r.tail ↔ r.count + 1 = n := by
  have hh := r.head_lt
  have ht := r.tail_lt
  rw [succ_mod _ hh, count_eq]
  split_ifs <;> omega

/-- Waiting elements lie in different slots, none of them in the next free one. -/
theorem slot_ne_head (r : Ring α n) {k : ℕ} (hk : k < r.count) : (r.tail + k) % n ≠ r.head := by
  have hh := r.head_lt
  have ht := r.tail_lt
  have hlt := r.count_lt
  rw [count_eq] at hk hlt
  by_cases hwrap : r.tail + k < n
  · rw [Nat.mod_eq_of_lt hwrap]
    split_ifs at hk <;> omega
  · rw [Nat.mod_eq_sub_mod (by omega), Nat.mod_eq_of_lt (by split_ifs at hk <;> omega)]
    split_ifs at hk <;> omega

/-- A push fails on a full ring only. -/
theorem push_eq_none_iff (r : Ring α n) (a : α) : r.push a = none ↔ r.contents.length + 1 = n := by
  rw [length_contents, ← full_iff, push]
  simp

/-- A push writes the slot at the head. -/
theorem slots_pushed (r : Ring α n) (a : α) (i : ℕ) :
    (r.pushed a).slots i = if i = r.head then a else r.slots i :=
  Function.update_apply r.slots r.head a i

/-- A successful push appends. -/
theorem contents_push {r r' : Ring α n} {a : α} (h : r.push a = some r') :
    r'.contents = r.contents ++ [a] := by
  rw [push, Option.ite_none_left_eq_some, Option.some.injEq] at h
  obtain ⟨hfull, rfl⟩ := h
  have hh := r.head_lt
  have ht := r.tail_lt
  have hcount : (r.pushed a).count = r.count + 1 := by
    rw [succ_mod _ hh] at hfull
    rw [count_eq, count_eq]
    simp only [pushed, succ_mod _ hh]
    split_ifs at hfull ⊢ <;> omega
  have hnew : (r.pushed a).slots ((r.tail + r.count) % n) = a := by
    rw [slots_pushed, if_pos r.head_eq.symm]
  have hold : ∀ k < r.count, (r.pushed a).slots ((r.tail + k) % n) = r.slots ((r.tail + k) % n) :=
    fun k hk => by rw [slots_pushed, if_neg (r.slot_ne_head hk)]
  rw [contents, hcount, List.range_succ, List.map_append, List.map_singleton, contents]
  exact congrArg₂ (· ++ [·]) (List.map_congr_left fun k hk => hold k (List.mem_range.mp hk)) hnew

/-- A pop fails on an empty ring only. -/
theorem pop_eq_none_iff (r : Ring α n) : r.pop = none ↔ r.contents = [] := by
  rw [← List.length_eq_zero_iff, length_contents, count_eq_zero_iff, pop]
  simp

/-- A successful pop takes the oldest element. -/
theorem contents_pop {r r' : Ring α n} {a : α} (h : r.pop = some (a, r')) :
    r.contents = a :: r'.contents := by
  rw [pop, Option.ite_none_right_eq_some, Option.some.injEq, Prod.mk.injEq] at h
  obtain ⟨hne, rfl, rfl⟩ := h
  have hh := r.head_lt
  have ht := r.tail_lt
  have hcount : r.count = r.popped.count + 1 := by
    rw [count_eq, count_eq]
    simp only [popped, succ_mod _ ht]
    split_ifs <;> omega
  have hnext : ∀ k, (r.tail + (k + 1)) % n = ((r.tail + 1) % n + k) % n := fun k => by
    rw [Nat.mod_add_mod, Nat.add_right_comm, Nat.add_assoc]
  rw [contents, hcount, List.range_succ_eq_map, List.map_cons, List.map_map, Nat.add_zero,
    Nat.mod_eq_of_lt ht, contents]
  exact congrArg (r.slots r.tail :: ·)
    (List.map_congr_left fun k _ => congrArg r.slots (hnext k))

end Ring

end PsychWard
