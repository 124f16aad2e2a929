import Mathlib.Algebra.Group.End
import Mathlib.Algebra.Group.Int.Defs

/-!
# The Gregorian calendar

Dates of the proleptic Gregorian calendar, the day after and the day before a date, and the date a
number of days after 1 January 1970. A function on the integers that starts there and goes from each
day to the next is `ofDays`.
-/

namespace PsychWard.Calendar

/-- A year divisible by four, except a century that is not divisible by four hundred. -/
def IsLeap (y : ℤ) : Prop := y % 4 = 0 ∧ (y % 100 ≠ 0 ∨ y % 400 = 0)

instance (y : ℤ) : Decidable (IsLeap y) := inferInstanceAs (Decidable (_ ∧ _))

/-- The length of a month. -/
def daysInMonth (y : ℤ) (m : ℕ) : ℕ :=
  if m = 2 then if IsLeap y then 29 else 28
  else if m = 4 ∨ m = 6 ∨ m = 9 ∨ m = 11 then 30
  else 31

theorem daysInMonth_pos (y : ℤ) (m : ℕ) : 0 < daysInMonth y m := by
  unfold daysInMonth
  split_ifs <;> decide

/-- Month and day are those of a date in the year. -/
structure IsDate (year : ℤ) (month day : ℕ) : Prop where
  month_pos : 1 ≤ month
  month_le : month ≤ 12
  day_pos : 1 ≤ day
  day_le : day ≤ daysInMonth year month

@[ext]
structure Date where
  year : ℤ
  month : ℕ
  day : ℕ
  isDate : IsDate year month day
deriving DecidableEq

namespace Date

/-- The day after. -/
def next (t : Date) : Date :=
  if h : t.day < daysInMonth t.year t.month then
    ⟨t.year, t.month, t.day + 1, t.isDate.month_pos, t.isDate.month_le, Nat.succ_pos _, h⟩
  else if hm : t.month < 12 then
    ⟨t.year, t.month + 1, 1, Nat.succ_pos _, hm, Nat.le_refl _, daysInMonth_pos _ _⟩
  else ⟨t.year + 1, 1, 1, Nat.le_refl _, by decide, Nat.le_refl _, daysInMonth_pos _ _⟩

/-- The day before. -/
def prev (t : Date) : Date :=
  if h : 1 < t.day then
    ⟨t.year, t.month, t.day - 1, t.isDate.month_pos, t.isDate.month_le, Nat.le_sub_one_of_lt h,
      (Nat.sub_le _ _).trans t.isDate.day_le⟩
  else if hm : 1 < t.month then
    ⟨t.year, t.month - 1, daysInMonth t.year (t.month - 1), Nat.le_sub_one_of_lt hm,
      (Nat.sub_le _ _).trans t.isDate.month_le, daysInMonth_pos _ _, Nat.le_refl _⟩
  else ⟨t.year - 1, 12, 31, by decide, Nat.le_refl _, by decide, Nat.le_refl _⟩

/-- The day before the next one. -/
theorem prev_next (t : Date) : t.next.prev = t := by
  obtain ⟨y, m, d, hm, hm', hd, hd'⟩ := t
  by_cases h : d < daysInMonth y m
  · simp [next, prev, h, Nat.lt_of_lt_of_le Nat.zero_lt_one hd]
  · have hlast : daysInMonth y m = d := Nat.le_antisymm (Nat.le_of_not_lt h) hd'
    by_cases hlt : m < 12
    · simp [next, prev, hlt, Nat.lt_of_lt_of_le Nat.zero_lt_one hm, hlast]
    · obtain rfl : m = 12 := Nat.le_antisymm hm' (Nat.le_of_not_lt hlt)
      have h31 : d = 31 := hlast.symm
      simp [next, prev, h31, daysInMonth]

/-- The day after the one before. -/
theorem next_prev (t : Date) : t.prev.next = t := by
  obtain ⟨y, m, d, hm, hm', hd, hd'⟩ := t
  by_cases h : 1 < d
  · have hlt : d - 1 < daysInMonth y m := by omega
    simp [next, prev, h, hlt, Nat.sub_add_cancel hd]
  · have hone : d = 1 := by omega
    by_cases hlt : 1 < m
    · have hm12 : m - 1 < 12 := by omega
      simp [next, prev, hone, hlt, hm12, Nat.sub_add_cancel hm]
    · have hjan : m = 1 := by omega
      simp [next, prev, hone, hjan, daysInMonth]

/-- From each day to the next, which loses no date. -/
def tomorrow : Equiv.Perm Date := ⟨next, prev, prev_next, next_prev⟩

end Date

/-- 1 January 1970 -/
def epoch : Date := ⟨1970, 1, 1, by decide, by decide, by decide, by decide⟩

/-- The date `z` days after the epoch. -/
def ofDays (z : ℤ) : Date := (Date.tomorrow ^ z) epoch

theorem ofDays_zero : ofDays 0 = epoch := rfl

/-- Counting on by one day. -/
theorem ofDays_add_one (z : ℤ) : ofDays (z + 1) = (ofDays z).next := by
  rw [ofDays, Int.add_comm, zpow_one_add]
  rfl

/-- A function that starts at the epoch and goes from each day to the next counts the days. -/
theorem eq_ofDays {f : ℤ → Date} (h0 : f 0 = epoch) (hnext : ∀ z, f (z + 1) = (f z).next) (z : ℤ) :
    f z = ofDays z := by
  induction z with
  | zero => rw [h0, ofDays_zero]
  | succ n ih => rw [hnext, ih, ofDays_add_one]
  | pred n ih =>
    have hf := hnext (-n - 1)
    have hdays := ofDays_add_one (-n - 1)
    rw [Int.sub_add_cancel] at hf hdays
    exact Date.tomorrow.injective (hf.symm.trans (ih.trans hdays))

end PsychWard.Calendar
