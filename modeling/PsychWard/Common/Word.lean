import Mathlib.Data.Int.Basic
import Mathlib.Tactic.Ring

/-!
# Machine words

A 64-bit register is a natural number below `2 ^ 64`; `toInt64` reads it as a two's complement
integer and `toWord` stores an integer into a register. Additions and products of `int64_t` values
are computed in `ℤ` and brought back into range by `wrap64`.
-/

namespace PsychWard

/-- The `int64_t` congruent to `x`. -/
def wrap64 (x : ℤ) : ℤ := x.bmod (2 ^ 64)

/-- The `int64_t` a 64-bit register holds. -/
def toInt64 (w : ℕ) : ℤ := wrap64 w

/-- The 64-bit register that holds `x`. -/
def toWord (x : ℤ) : ℕ := (x % 2 ^ 64).toNat

/-- The `int` a 64-bit register is converted to: its low 32 bits, read as two's complement. -/
def toInt32 (w : ℕ) : ℤ := (w : ℤ).bmod (2 ^ 32)

theorem wrap64_eq_self {x : ℤ} (h₁ : -2 ^ 63 ≤ x) (h₂ : x < 2 ^ 63) : wrap64 x = x := by
  unfold wrap64
  rw [Int.bmod_eq_of_le] <;> omega

theorem toWord_of_nonneg {x : ℤ} (h₁ : 0 ≤ x) (h₂ : x < 2 ^ 64) : (toWord x : ℤ) = x := by
  unfold toWord
  rw [Int.emod_eq_of_lt h₁ h₂]
  exact Int.toNat_of_nonneg h₁

/-- Reading back a stored integer gives the `int64_t` congruent to it. -/
theorem toInt64_toWord (x : ℤ) : toInt64 (toWord x) = wrap64 x := by
  unfold toInt64 toWord wrap64
  rw [Int.toNat_of_nonneg (Int.emod_nonneg _ (by norm_num))]
  exact Int.emod_bmod ..

/-- An `int` that is stored in a register keeps its bits. -/
theorem toWord_toInt32_mod (v : ℕ) : toWord (toInt32 v) % 2 ^ 32 = v % 2 ^ 32 := by
  have hmod : toInt32 v % 2 ^ 32 = v % 2 ^ 32 := Int.bmod_emod
  rw [toWord]
  omega

end PsychWard
