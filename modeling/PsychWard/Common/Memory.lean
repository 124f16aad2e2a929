import Mathlib.Data.List.GetD
import Mathlib.Logic.Function.Basic

/-!
# Byte-addressed memory

`Memory` gives every offset a byte. `put` stores a list of bytes, `bytes` reads one, and `Stands`
says that one is there; the lemmas say how reads and stores of ranges compose.
-/

namespace PsychWard

/-- Bytes of memory by their offset. -/
abbrev Memory := ℕ → UInt8

namespace Memory

/-- Store bytes from offset `i` on. -/
def put (m : Memory) (i : ℕ) (bytes : List UInt8) : Memory := fun k =>
  if i ≤ k ∧ k < i + bytes.length then bytes.getD (k - i) 0 else m k

/-- `n` bytes from offset `i` on. -/
def bytes (m : Memory) (i n : ℕ) : List UInt8 := (List.range n).map fun k => m (i + k)

/-- The bytes stand in the memory from offset `i` on. -/
def Stands (m : Memory) (i : ℕ) : List UInt8 → Prop
  | [] => True
  | b :: l => m i = b ∧ Stands m (i + 1) l

variable {m : Memory} {i j n : ℕ} {l : List UInt8}

theorem length_bytes : (m.bytes i n).length = n := by rw [bytes, List.length_map, List.length_range]

theorem bytes_succ (m : Memory) (i n : ℕ) : m.bytes i (n + 1) = m i :: m.bytes (i + 1) n := by
  rw [bytes, bytes, List.range_succ_eq_map, List.map_cons, List.map_map, Nat.add_zero]
  refine congrArg (m i :: ·) (List.map_congr_left fun k _ => ?_)
  rw [Function.comp_apply, Nat.succ_eq_add_one, Nat.add_assoc, Nat.add_comm 1]

/-- Two neighbouring ranges are read as one. -/
theorem bytes_add (m : Memory) (i n k : ℕ) :
    m.bytes i (n + k) = m.bytes i n ++ m.bytes (i + n) k := by
  rw [bytes, List.range_add, List.map_append, List.map_map]
  refine congrArg₂ (· ++ ·) rfl (List.map_congr_left fun j _ => ?_)
  rw [Function.comp_apply, Nat.add_assoc]

/-- What is read depends on the range only. -/
theorem bytes_congr {m' : Memory} (h : ∀ k < n, m' (i + k) = m (i + k)) :
    m'.bytes i n = m.bytes i n :=
  List.map_congr_left fun k hk => h k (List.mem_range.mp hk)

theorem getD_bytes {k : ℕ} (h : k < n) : (m.bytes i n).getD k 0 = m (i + k) := by
  rw [List.getD_eq_getElem _ _ (by rwa [length_bytes])]
  simp only [bytes, List.getElem_map, List.getElem_range]

theorem put_of_lt {k : ℕ} (h : k < i) : m.put i l k = m k := if_neg fun h' => by omega

theorem put_of_ge {k : ℕ} (h : i + l.length ≤ k) : m.put i l k = m k := if_neg fun h' => by omega

theorem put_of_mem {k : ℕ} (h : k < l.length) : m.put i l (i + k) = l.getD k 0 := by
  rw [put, if_pos (by omega), Nat.add_sub_cancel_left]

theorem update_eq_put (m : Memory) (i : ℕ) (b : UInt8) : Function.update m i b = m.put i [b] := by
  funext k
  rcases eq_or_ne k i with rfl | hne
  · rw [Function.update_self, put, List.length_singleton, if_pos (by omega), Nat.sub_self,
      List.getD_cons_zero]
  · rw [Function.update_of_ne hne, put, List.length_singleton, if_neg (by omega)]

/-- What was stored is read back. -/
theorem bytes_put (h : n ≤ l.length) : (m.put i l).bytes i n = l.take n := by
  refine List.ext_getElem (by rw [length_bytes, List.length_take]; omega) fun k h1 h2 => ?_
  rw [length_bytes] at h1
  have hk : k < l.length := by omega
  simp only [bytes, List.getElem_map, List.getElem_range, List.getElem_take, put_of_mem hk]
  exact List.getD_eq_getElem l 0 hk

/-- A store behind the bytes that are read does not matter. -/
theorem bytes_put_of_le (h : i + n ≤ j) : (m.put j l).bytes i n = m.bytes i n :=
  List.map_congr_left fun k hk => put_of_lt (by have := List.mem_range.mp hk; omega)

/-- Two stores of neighbouring ranges are one, the lower range first. -/
theorem put_put (m : Memory) (i : ℕ) (l l' : List UInt8) :
    (m.put i l).put (i + l.length) l' = m.put i (l ++ l') := by
  funext k
  rcases Nat.lt_or_ge k (i + l.length) with hlt | hge
  · rw [put_of_lt hlt]
    rcases Nat.lt_or_ge k i with hk | hk
    · rw [put_of_lt hk, put_of_lt hk]
    · obtain ⟨j, rfl⟩ := Nat.exists_eq_add_of_le hk
      rw [put_of_mem (by omega), put_of_mem (by rw [List.length_append]; omega),
        List.getD_append _ _ _ _ (by omega)]
  · obtain ⟨j, rfl⟩ := Nat.exists_eq_add_of_le hge
    rcases Nat.lt_or_ge j l'.length with hj | hj
    · rw [put_of_mem hj, Nat.add_assoc, put_of_mem (by rw [List.length_append]; omega),
        List.getD_append_right _ _ _ _ (Nat.le_add_right _ _), Nat.add_sub_cancel_left]
    · rw [put_of_ge (by omega), put_of_ge (by omega), put_of_ge (by rw [List.length_append]; omega)]

/-- The higher range may come first. -/
theorem put_put_below (m : Memory) (i : ℕ) (l l' : List UInt8) :
    (m.put (i + l'.length) l).put i l' = m.put i (l' ++ l) := by
  rw [← put_put]
  funext k
  rcases Nat.lt_or_ge k (i + l'.length) with hlt | hge
  · rw [put_of_lt hlt]
    rcases Nat.lt_or_ge k i with hk | hk
    · rw [put_of_lt hk, put_of_lt hk, put_of_lt hlt]
    · obtain ⟨j, rfl⟩ := Nat.exists_eq_add_of_le hk
      rw [put_of_mem (by omega), put_of_mem (by omega)]
  · rw [put_of_ge hge, put, put, put_of_ge hge]

theorem stands_append {l' : List UInt8} :
    m.Stands i (l ++ l') ↔ m.Stands i l ∧ m.Stands (i + l.length) l' := by
  induction l generalizing i with
  | nil => exact ⟨fun h => ⟨trivial, h⟩, fun h => h.2⟩
  | cons b l ih =>
    rw [List.cons_append, Stands, Stands, ih, and_assoc, List.length_cons, Nat.add_assoc,
      Nat.add_comm 1]

theorem stands_bytes (h : m.Stands i l) : m.bytes i l.length = l := by
  induction l generalizing i with
  | nil => rfl
  | cons b l ih => rw [List.length_cons, bytes_succ, h.1, ih h.2]

/-- What agrees with the bytes at their offsets has them. -/
theorem stands_of_getD (h : ∀ k < l.length, m (i + k) = l.getD k 0) : m.Stands i l := by
  induction l generalizing i with
  | nil => trivial
  | cons b l ih =>
    refine ⟨h 0 (Nat.zero_lt_succ _), ih fun k hk => ?_⟩
    rw [Nat.add_assoc, Nat.add_comm 1]
    exact h (k + 1) (Nat.succ_lt_succ hk)

end Memory

end PsychWard
