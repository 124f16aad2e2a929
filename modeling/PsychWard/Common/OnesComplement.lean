import Mathlib.Data.Nat.ModEq
import Mathlib.Algebra.BigOperators.Group.List.Basic

/-!
# One's complement sums

Addition of `w`-bit words with the carry out of the top bit added at the bottom. It is addition modulo
`2 ^ w - 1`, in which zero has two representations, `0` and `2 ^ w - 1`. A sum is `0` only if nothing
but zeros was added; `foldl_onesAdd_eq` says what it is otherwise, whatever the order of the words.
-/

namespace PsychWard

variable {w : ℕ}

/-- Addition with end-around carry. -/
def onesAdd (w a b : ℕ) : ℕ := (a + b) % 2 ^ w + (a + b) / 2 ^ w

/-- The complement of a word. -/
def onesNot (w a : ℕ) : ℕ := 2 ^ w - 1 - a

/-- The one's complement sum of words. -/
def onesSum (w : ℕ) (ws : List ℕ) : ℕ := ws.foldl (onesAdd w) 0

section
variable {a b : ℕ} {ws : List ℕ}

/-- Without a carry it is the sum. -/
theorem onesAdd_of_lt (h : a + b < 2 ^ w) : onesAdd w a b = a + b := by
  rw [onesAdd, Nat.mod_eq_of_lt h, Nat.div_eq_of_lt h, Nat.add_zero]

/-- A carry comes back at the low end. -/
theorem onesAdd_of_ge (ha : a < 2 ^ w) (hb : b < 2 ^ w) (h : 2 ^ w ≤ a + b) :
    onesAdd w a b = a + b - (2 ^ w - 1) := by
  have hmod : (a + b) % 2 ^ w = a + b - 2 ^ w := by
    rw [Nat.mod_eq_sub_mod h, Nat.mod_eq_of_lt (by omega)]
  have hdiv : (a + b) / 2 ^ w = 1 := Nat.div_eq_of_lt_le (by omega) (by omega)
  rw [onesAdd, hmod, hdiv]
  omega

/-- The sum is a word again. -/
theorem onesAdd_lt (ha : a < 2 ^ w) (hb : b < 2 ^ w) : onesAdd w a b < 2 ^ w := by
  by_cases h : a + b < 2 ^ w
  · rwa [onesAdd_of_lt h]
  · rw [onesAdd_of_ge ha hb (by omega)]
    omega

/-- Only zeros add up to zero. -/
theorem onesAdd_pos (h : 0 < a + b) : 0 < onesAdd w a b := by
  by_cases hlt : a + b < 2 ^ w
  · rwa [onesAdd_of_lt hlt]
  · have hdiv : 0 < (a + b) / 2 ^ w := Nat.div_pos (by omega) (Nat.two_pow_pos w)
    rw [onesAdd]
    omega

/-- It is addition modulo `2 ^ w - 1`. -/
theorem onesAdd_modEq (ha : a < 2 ^ w) (hb : b < 2 ^ w) :
    onesAdd w a b ≡ a + b [MOD 2 ^ w - 1] := by
  by_cases h : a + b < 2 ^ w
  · rw [onesAdd_of_lt h]
  · rw [onesAdd_of_ge ha hb (by omega)]
    exact (Nat.modEq_iff_dvd' (by omega)).mpr ⟨1, by omega⟩

/-- The words between `1` and `2 ^ w - 1` are all different modulo `2 ^ w - 1`. -/
theorem eq_of_modEq (h : a ≡ b [MOD 2 ^ w - 1]) (ha₀ : 0 < a) (ha : a < 2 ^ w) (hb₀ : 0 < b)
    (hb : b < 2 ^ w) : a = b := by
  have hpred : a - 1 ≡ b - 1 [MOD 2 ^ w - 1] := by
    refine Nat.ModEq.add_right_cancel' 1 ?_
    rwa [Nat.sub_add_cancel ha₀, Nat.sub_add_cancel hb₀]
  have heq := Nat.ModEq.eq_of_lt_of_lt hpred (by omega) (by omega)
  omega

/-- The running sum is a word. -/
theorem foldl_onesAdd_lt (h : ∀ x ∈ ws, x < 2 ^ w) (ha : a < 2 ^ w) :
    ws.foldl (onesAdd w) a < 2 ^ w := by
  induction ws generalizing a with
  | nil => exact ha
  | cons x ws ih =>
    obtain ⟨hx, hws⟩ := List.forall_mem_cons.mp h
    exact ih hws (onesAdd_lt ha hx)

/-- The running sum is zero only if every word was. -/
theorem foldl_onesAdd_pos (h : 0 < a + ws.sum) : 0 < ws.foldl (onesAdd w) a := by
  induction ws generalizing a with
  | nil => exact h
  | cons x ws ih =>
    rw [List.sum_cons] at h
    rw [List.foldl_cons]
    refine ih ?_
    by_cases hax : 0 < a + x
    · exact Nat.add_pos_left (onesAdd_pos hax) _
    · exact Nat.add_pos_right _ (by omega)

/-- So the running sum is the sum modulo `2 ^ w - 1`. -/
theorem foldl_onesAdd_modEq (h : ∀ x ∈ ws, x < 2 ^ w) (ha : a < 2 ^ w) :
    ws.foldl (onesAdd w) a ≡ a + ws.sum [MOD 2 ^ w - 1] := by
  induction ws generalizing a with
  | nil => rfl
  | cons x ws ih =>
    obtain ⟨hx, hws⟩ := List.forall_mem_cons.mp h
    rw [List.foldl_cons, List.sum_cons, ← Nat.add_assoc]
    exact (ih hws (onesAdd_lt ha hx)).trans ((onesAdd_modEq ha hx).add_right _)

/-- A nonzero sum is the one word between `1` and `2 ^ w - 1` that is congruent to the total. -/
theorem foldl_onesAdd_eq (h : ∀ x ∈ ws, x < 2 ^ w) (ha : a < 2 ^ w) (hpos : 0 < a + ws.sum)
    (hb₀ : 0 < b) (hb : b < 2 ^ w) (hmod : a + ws.sum ≡ b [MOD 2 ^ w - 1]) :
    ws.foldl (onesAdd w) a = b :=
  eq_of_modEq ((foldl_onesAdd_modEq h ha).trans hmod) (foldl_onesAdd_pos hpos)
    (foldl_onesAdd_lt h ha) hb₀ hb

/-- The sum of words is a word. -/
theorem onesSum_lt (h : ∀ x ∈ ws, x < 2 ^ w) : onesSum w ws < 2 ^ w :=
  foldl_onesAdd_lt h (Nat.two_pow_pos w)

/-- Starting with the other zero makes no difference to a sum that is not zero. -/
theorem foldl_onesAdd_ones (h : ∀ x ∈ ws, x < 2 ^ w) (hw : 0 < w) (hpos : 0 < ws.sum) :
    ws.foldl (onesAdd w) (2 ^ w - 1) = onesSum w ws := by
  have htwo : 1 < 2 ^ w := Nat.one_lt_two_pow (by omega)
  have hsum : onesSum w ws ≡ ws.sum [MOD 2 ^ w - 1] := by
    have hfold := foldl_onesAdd_modEq h (Nat.two_pow_pos w)
    rwa [Nat.zero_add] at hfold
  refine foldl_onesAdd_eq h (by omega) (by omega) (foldl_onesAdd_pos (by omega)) (onesSum_lt h) ?_
  refine Nat.ModEq.trans ?_ hsum.symm
  rw [Nat.ModEq, Nat.add_mod_left]

/-- With the other zero to start from, a sum that comes to zero is that zero. -/
theorem foldl_onesAdd_ones_eq (h : ∀ x ∈ ws, x < 2 ^ w) (hw : 0 < w)
    (hmod : ws.sum ≡ 0 [MOD 2 ^ w - 1]) : ws.foldl (onesAdd w) (2 ^ w - 1) = 2 ^ w - 1 := by
  have htwo : 1 < 2 ^ w := Nat.one_lt_two_pow (by omega)
  refine foldl_onesAdd_eq h (by omega) (by omega) (by omega) (by omega) ?_
  exact (hmod.add_left (2 ^ w - 1)).trans rfl

end

end PsychWard
