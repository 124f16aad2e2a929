import Mathlib.Data.Nat.ModEq
import Mathlib.Logic.Function.Basic

/-!
# Ring buffers with free-running indices

A producer and a consumer share `n` slots. Each counts its elements modulo `m`, which `n` divides,
and an index stands for the slot that it leaves modulo `n`. The indices are not reset, and all `n`
slots can be in use: `tail = head` says that the ring is empty because fewer than `m` elements wait.

`Holds` lists what waits; the producer appends to it and the consumer takes its first element,
whatever the other one does in between.
-/

namespace PsychWard

namespace FreeRing

variable {α : Type*} {m n : ℕ} {slots : ℕ → α} {tail head : ℕ} {l : List α} {a : α}

/-- The elements `l` wait, oldest first, from the consumer's index `tail` up to the producer's index
`head`. -/
structure Holds (m n : ℕ) (slots : ℕ → α) (tail head : ℕ) (l : List α) : Prop where
  tail_lt : tail < m
  head_eq : head = (tail + l.length) % m
  slot : ∀ (k : ℕ) (h : k < l.length), slots ((tail + k) % n) = l[k]

namespace Holds

theorem nil (h : tail < m) : Holds m n slots tail tail [] :=
  ⟨h, (Nat.mod_eq_of_lt h).symm, fun _ hk => absurd hk (Nat.not_lt_zero _)⟩

/-- The oldest element. -/
theorem first (h : Holds m n slots tail head (a :: l)) : slots (tail % n) = a :=
  h.slot 0 (Nat.zero_lt_succ _)

/-- The indices agree when nothing waits. -/
theorem eq_iff (h : Holds m n slots tail head l) (hlen : l.length < m) : tail = head ↔ l = [] := by
  rw [h.head_eq, ← List.length_eq_zero_iff]
  constructor
  · intro heq
    have hmod : tail + 0 ≡ tail + l.length [MOD m] := by
      rw [Nat.ModEq, Nat.add_zero, Nat.mod_eq_of_lt h.tail_lt]
      exact heq
    exact (Nat.ModEq.eq_of_lt_of_lt (Nat.ModEq.add_left_cancel' tail hmod) (Nat.zero_lt_of_lt hlen)
      hlen).symm
  · intro hzero
    rw [hzero, Nat.add_zero, Nat.mod_eq_of_lt h.tail_lt]

/-- The producer stores behind the newest element. -/
theorem push (hn : n ∣ m) (h : Holds m n slots tail head l) (hlen : l.length < n) (a : α) :
    Holds m n (Function.update slots (head % n) a) tail ((head + 1) % m) (l ++ [a]) where
  tail_lt := h.tail_lt
  head_eq := by rw [h.head_eq, Nat.mod_add_mod, List.length_append, List.length_singleton,
    Nat.add_assoc]
  slot k hk := by
    have hhead : head % n = (tail + l.length) % n := by rw [h.head_eq, Nat.mod_mod_of_dvd _ hn]
    rw [hhead]
    rw [List.length_append, List.length_singleton] at hk
    rcases Nat.lt_or_ge k l.length with hold | hnew
    · have hne : (tail + k) % n ≠ (tail + l.length) % n := by
        intro heq
        have hmod : k ≡ l.length [MOD n] := Nat.ModEq.add_left_cancel' tail heq
        exact absurd (Nat.ModEq.eq_of_lt_of_lt hmod (hold.trans hlen) hlen) hold.ne
      rw [Function.update_of_ne hne, h.slot k hold, List.getElem_append_left hold]
    · obtain rfl : k = l.length := by omega
      rw [Function.update_self, List.getElem_append_right hnew]
      simp only [Nat.sub_self, List.getElem_cons_zero]

/-- The consumer takes the oldest element. -/
theorem pop (hn : n ∣ m) (h : Holds m n slots tail head (a :: l)) :
    Holds m n slots ((tail + 1) % m) head l where
  tail_lt := Nat.mod_lt _ (Nat.zero_lt_of_lt h.tail_lt)
  head_eq := by rw [h.head_eq, Nat.mod_add_mod, List.length_cons, Nat.add_assoc, Nat.add_comm 1]
  slot k hk := by
    have hslot : ((tail + 1) % m + k) % n = (tail + (k + 1)) % n := by
      rw [Nat.add_mod, Nat.mod_mod_of_dvd _ hn, ← Nat.add_mod, Nat.add_assoc, Nat.add_comm 1]
    rw [hslot]
    exact h.slot (k + 1) (Nat.succ_lt_succ hk)

end Holds

end FreeRing

end PsychWard
