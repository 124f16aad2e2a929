import PsychWard.Common.Calendar
import PsychWard.Common.Word
import Mathlib.Data.Nat.Digits.Defs

/-!
# The date and the time of day

`civil_from_days` cuts the days into eras of 400 years that begin on 1 March, so that the leap day is
the last day of a year. Within an era it divides by the mean length of a year after a correction of
one day in 1460, 36524 and 146096. `long` values stay far away from their bounds and are integers
here; `unsigned` values are `UInt32`, and a conversion to `int` keeps the low 32 bits.

The year of an era is right because the corrected day grows with the day and is right on the first
and the last day of each of the 400 years. From there on the date of the next day is the next date:
the month and the day of the month are a table of the 366 days of a year.
-/

namespace PsychWard.Shell

open Calendar

/-- `civil_from_days`: the year, the month and the day. -/
def civilFromDays (z : ℤ) : ℤ × ℤ × ℤ :=
  let z := z + 719468
  let era := (if z ≥ 0 then z else z - 146096).tdiv 146097
  let doe := UInt32.ofInt (z - era * 146097)
  let yoe := (doe - doe / 1460 + doe / 36524 - doe / 146096) / 365
  let doy := doe - (365 * yoe + yoe / 4 - yoe / 100)
  let mp := (5 * doy + 2) / 153
  let d := toInt32 (doy - (153 * mp + 2) / 5 + 1).toNat
  let m := toInt32 (mp + if mp < 10 then 3 else -9).toNat
  (Int.bmod (yoe.toNat + era * 400 + if m ≤ 2 then 1 else 0) (2 ^ 32), m, d)

/-- `put_2digit`: the text it prints. -/
def put2Digit (val : ℤ) : List UInt8 :=
  let val := if val < 0 then 0 else val
  let val := if val > 99 then 99 else val
  [UInt8.ofNat (48 + val / 10).toNat, UInt8.ofNat (48 + val % 10).toNat]

/-- `sys_putdec` -/
def sysPutdec (val : ℕ) : List UInt8 :=
  if val = 0 then [48] else ((Nat.digits 10 val).map fun c => UInt8.ofNat (c + 48)).reverse

/-- The locals of `print_localtime` that it prints. -/
structure LocalTime where
  year : ℤ
  month : ℤ
  day : ℤ
  hour : ℤ
  minute : ℤ
  second : ℤ
deriving DecidableEq, Repr

/-- `days` and `secs_of_day` of `print_localtime` -/
def splitSeconds (totalSeconds : ℤ) : ℤ × ℤ :=
  let days := totalSeconds.tdiv 86400
  let secsOfDay := totalSeconds.tmod 86400
  if secsOfDay < 0 then (days - 1, secsOfDay + 86400) else (days, secsOfDay)

/-- The fields that `print_localtime` computes. -/
def localTime (epochMs : ℕ) (tzOffsetHours : ℤ) : LocalTime :=
  let (days, secsOfDay) := splitSeconds ((epochMs / 1000 : ℕ) + tzOffsetHours * 3600)
  let (year, month, day) := civilFromDays days
  { year, month, day
    hour := secsOfDay.tdiv 3600
    minute := (secsOfDay.tmod 3600).tdiv 60
    second := secsOfDay.tmod 60 }

/-- `print_localtime`: the text it prints. -/
def printLocaltime (epochMs : ℕ) (tzOffsetHours : ℤ) : List UInt8 :=
  let t := localTime epochMs tzOffsetHours
  sysPutdec (toWord t.year) ++ [45] ++ put2Digit t.month ++ [45] ++ put2Digit t.day ++
    [32] ++ put2Digit t.hour ++ [58] ++ put2Digit t.minute ++ [58] ++ put2Digit t.second ++
    [32, 85, 84, 67] ++ (if tzOffsetHours ≥ 0 then [43] else [45]) ++
    sysPutdec (toWord (if tzOffsetHours ≥ 0 then tzOffsetHours else -tzOffsetHours)) ++ [10]

example : localTime 1709210096789 3 = ⟨2024, 2, 29, 15, 34, 56⟩ := by decide

/-! ## The year of an era -/

/-- `yoe` of a day of an era -/
def yearOfEra (doe : ℕ) : ℕ := (doe - doe / 1460 + doe / 36524 - doe / 146096) / 365

/-- The days of an era before the year `y` of it. -/
def yearStart (y : ℕ) : ℕ := 365 * y + y / 4 - y / 100

/-- The days of the year `y` of an era: the leap day at its end belongs to the next calendar year. -/
def yearLength (y : ℕ) : ℕ := if IsLeap (y + 1) then 366 else 365

/-- The last year of an era ends one day after `yearStart 400`. -/
theorem yearStart_add_yearLength {y : ℕ} (hy : y < 400) :
    yearStart y + yearLength y = yearStart (y + 1) + (y + 1) / 400 := by
  have hall : ∀ y < 400, yearStart y + yearLength y = yearStart (y + 1) + (y + 1) / 400 := by
    decide +kernel
  exact hall y hy

/-- A day less the corrections for the leap days before it. -/
def corrected (doe : ℕ) : ℕ := doe - doe / 1460 + doe / 36524

/-- Later days have later corrected numbers. -/
theorem corrected_mono {a b : ℕ} (h : a ≤ b) : corrected a ≤ corrected b := by
  have hquarter : a - a / 1460 ≤ b - b / 1460 := by omega
  exact Nat.add_le_add hquarter (Nat.div_le_div_right h)

/-- The corrected numbers of the days of a year lie in 365 days. -/
theorem corrected_yearStart {y : ℕ} (hy : y < 400) :
    365 * y ≤ corrected (yearStart y) ∧ corrected (yearStart (y + 1) - 1) < 365 * (y + 1) := by
  have hall : ∀ y < 400, 365 * y ≤ corrected (yearStart y) ∧
      corrected (yearStart (y + 1) - 1) < 365 * (y + 1) := by decide +kernel
  exact hall y hy

/-- The division finds the year of the era in which the day lies. -/
theorem yearOfEra_eq {y doe : ℕ} (hy : y < 400) (hfrom : yearStart y ≤ doe)
    (hto : doe < yearStart y + yearLength y) : yearOfEra doe = y := by
  rw [yearStart_add_yearLength hy] at hto
  by_cases hlast : doe < yearStart (y + 1)
  · have hend : yearStart (y + 1) ≤ 146096 := by
      unfold yearStart
      omega
    have hnone : doe / 146096 = 0 := Nat.div_eq_of_lt (by omega)
    have hlow := (corrected_yearStart hy).1.trans (corrected_mono hfrom)
    have hhigh := (corrected_mono (Nat.le_sub_one_of_lt hlast)).trans_lt (corrected_yearStart hy).2
    rw [yearOfEra, hnone]
    refine Nat.div_eq_of_lt_le ?_ ?_
    · rw [Nat.mul_comm]
      exact hlow
    · rw [Nat.mul_comm]
      exact hhigh
  · obtain rfl : y = 399 := by omega
    obtain rfl : doe = 146096 := by
      have h400 : yearStart (399 + 1) = 146096 := rfl
      omega
    rfl

/-- Every day of an era lies in a year. -/
theorem exists_year {doe : ℕ} (h : doe < 146097) :
    ∃ y < 400, yearStart y ≤ doe ∧ doe < yearStart y + yearLength y := by
  have hbelow : ∀ n ≤ 400, doe < yearStart n + n / 400 →
      ∃ y < n, yearStart y ≤ doe ∧ doe < yearStart y + yearLength y := by
    intro n
    induction n with
    | zero => exact fun _ h0 => absurd h0 (Nat.not_lt_zero doe)
    | succ n ih =>
      intro hn hdoe
      rw [← yearStart_add_yearLength hn] at hdoe
      by_cases hfrom : yearStart n ≤ doe
      · exact ⟨n, Nat.lt_succ_self n, hfrom, hdoe⟩
      · obtain ⟨y, hy, hin⟩ := ih (by omega) (by omega)
        exact ⟨y, by omega, hin⟩
  exact hbelow 400 (Nat.le_refl _) h

/-! ## The month of a year -/

/-- The month and the day of the month of a day of a year that begins in March. -/
def monthOf (doy : ℕ) : ℕ :=
  if (5 * doy + 2) / 153 < 10 then (5 * doy + 2) / 153 + 3 else (5 * doy + 2) / 153 - 9

/-- The day of the month, by the day of the year. -/
def dayOf (doy : ℕ) : ℕ := doy - (153 * ((5 * doy + 2) / 153) + 2) / 5 + 1

/-- Only the leap day is missing in a common year, such as the year 1. -/
theorem month_table {doy : ℕ} (h : doy < 366) :
    1 ≤ monthOf doy ∧ monthOf doy ≤ 12 ∧ 1 ≤ dayOf doy ∧
      (dayOf doy ≤ daysInMonth 1 (monthOf doy) ∨
        doy = 365 ∧ monthOf doy = 2 ∧ dayOf doy = 29) := by
  have hall : ∀ doy < 366, 1 ≤ monthOf doy ∧ monthOf doy ≤ 12 ∧ 1 ≤ dayOf doy ∧
      (dayOf doy ≤ daysInMonth 1 (monthOf doy) ∨
        doy = 365 ∧ monthOf doy = 2 ∧ dayOf doy = 29) := by decide +kernel
  exact hall doy h

/-- The day after a day of the same year: in the same month, in the next one, or in January. -/
theorem month_step {doy : ℕ} (h : doy < 365) :
    (monthOf (doy + 1) = monthOf doy ∧ dayOf (doy + 1) = dayOf doy + 1) ∨
      (monthOf doy ≠ 2 ∧ monthOf doy < 12 ∧ dayOf doy = daysInMonth 1 (monthOf doy) ∧
        monthOf (doy + 1) = monthOf doy + 1 ∧ dayOf (doy + 1) = 1) ∨
      (monthOf doy = 12 ∧ dayOf doy = 31 ∧ monthOf (doy + 1) = 1 ∧ dayOf (doy + 1) = 1) := by
  have hall : ∀ doy < 365,
      (monthOf (doy + 1) = monthOf doy ∧ dayOf (doy + 1) = dayOf doy + 1) ∨
        (monthOf doy ≠ 2 ∧ monthOf doy < 12 ∧ dayOf doy = daysInMonth 1 (monthOf doy) ∧
          monthOf (doy + 1) = monthOf doy + 1 ∧ dayOf (doy + 1) = 1) ∨
        (monthOf doy = 12 ∧ dayOf doy = 31 ∧ monthOf (doy + 1) = 1 ∧ dayOf (doy + 1) = 1) := by
    decide +kernel
  exact hall doy h

/-- Only February depends on the year. -/
theorem daysInMonth_of_ne {m : ℕ} (hm : m ≠ 2) (y y' : ℤ) : daysInMonth y m = daysInMonth y' m := by
  rw [daysInMonth, daysInMonth, if_neg hm, if_neg hm]

/-- No month is shorter than in an ordinary year. -/
theorem daysInMonth_one_le (y : ℤ) (m : ℕ) : daysInMonth 1 m ≤ daysInMonth y m := by
  by_cases hm : m = 2
  · subst hm
    rw [daysInMonth, daysInMonth, if_pos rfl, if_pos rfl, if_neg (by decide)]
    split <;> decide
  · exact (daysInMonth_of_ne hm 1 y).le

/-- Leap years come back after 400 years. -/
theorem isLeap_add_era (y era : ℤ) : IsLeap (y + era * 400) ↔ IsLeap y := by
  unfold IsLeap
  omega

/-! ## The date of a day -/

/-- A day as the conversion cuts it up: an era, a year of it and a day of this year. -/
structure EraDay where
  era : ℤ
  yoe : ℕ
  doy : ℕ
  yoe_lt : yoe < 400
  doy_lt : doy < yearLength yoe

namespace EraDay

/-- The calendar year: January and February count to the next one. -/
def year (e : EraDay) : ℤ := e.yoe + e.era * 400 + if monthOf e.doy ≤ 2 then 1 else 0

theorem doy_lt_366 (e : EraDay) : e.doy < 366 := by
  have h := e.doy_lt
  unfold yearLength at h
  split at h <;> omega

/-- The leap day exists only in a leap year. -/
theorem isLeap (e : EraDay) (h : e.doy = 365) : IsLeap (e.yoe + 1 + e.era * 400) := by
  have hlt := e.doy_lt
  unfold yearLength at hlt
  split at hlt
  next hleap => exact (isLeap_add_era _ _).mpr hleap
  next => omega

/-- The date of a day of an era. -/
def date (e : EraDay) : Date where
  year := e.year
  month := monthOf e.doy
  day := dayOf e.doy
  isDate := by
    obtain ⟨hpos, hle, hday, htable⟩ := month_table e.doy_lt_366
    refine ⟨hpos, hle, hday, ?_⟩
    obtain hcommon | ⟨h365, hfeb, h29⟩ := htable
    · exact hcommon.trans (daysInMonth_one_le _ _)
    · have hyear : e.year = e.yoe + 1 + e.era * 400 := by
        rw [year, hfeb, if_pos (Nat.le_refl 2)]
        omega
      rw [hfeb, h29, hyear, daysInMonth, if_pos rfl, if_pos (e.isLeap h365)]

/-- The days from 1 March of the year 0 on. -/
def number (e : EraDay) : ℤ := e.era * 146097 + yearStart e.yoe + e.doy

/-- The next day of the same year has the next date. -/
theorem date_same_year {e e' : EraDay} (hera : e'.era = e.era) (hyoe : e'.yoe = e.yoe)
    (hdoy : e'.doy = e.doy + 1) : e'.date = e.date.next := by
  have hlt : e.doy < 365 := by
    have := e'.doy_lt_366
    omega
  have hvalid := e'.date.isDate.day_le
  have hstep := month_step hlt
  rw [← hdoy] at hstep
  obtain ⟨hmonth, hday⟩ | ⟨hfeb, hdec, hlast, hmonth, hday⟩ | ⟨hdec, hlast, hmonth, hday⟩ := hstep
  · have hyear : e'.year = e.year := by rw [year, year, hera, hyoe, hmonth]
    have hin : e.date.day < daysInMonth e.date.year e.date.month := by
      simp only [date, hmonth, hday, hyear] at hvalid
      exact hvalid
    rw [Date.next, dif_pos hin]
    ext <;> simp [date, hyear, hmonth, hday]
  · have hyear : e'.year = e.year := by
      rw [year, year, hera, hyoe, hmonth]
      split_ifs <;> omega
    have hout : ¬ e.date.day < daysInMonth e.date.year e.date.month := by
      simp only [date, hlast]
      exact (daysInMonth_of_ne hfeb 1 _).ge.not_gt
    rw [Date.next, dif_neg hout, dif_pos (show e.date.month < 12 from hdec)]
    ext <;> simp [date, hyear, hmonth, hday]
  · have hyear : e'.year = e.year + 1 := by
      rw [year, year, hera, hyoe, hmonth, hdec]
      simp
    have hout : ¬ e.date.day < daysInMonth e.date.year e.date.month := by
      simp [date, hlast, hdec, daysInMonth]
    rw [Date.next, dif_neg hout, dif_neg (by simp [date, hdec])]
    ext <;> simp [date, hyear, hmonth, hday]

/-- The first day of a year is 1 March; the day before it is the last of February. -/
theorem date_next_year {e e' : EraDay} (hlast : e.doy + 1 = yearLength e.yoe) (hdoy : e'.doy = 0)
    (hyear : e'.yoe + e'.era * 400 = e.yoe + 1 + e.era * 400) : e'.date = e.date.next := by
  have hyear' : e'.year = e.yoe + 1 + e.era * 400 := by
    rw [year, hdoy, if_neg (by decide), hyear]
    omega
  have hfeb : monthOf e.doy = 2 ∧ dayOf e.doy = daysInMonth (e.yoe + 1 + e.era * 400) 2 := by
    rw [daysInMonth, if_pos rfl]
    unfold yearLength at hlast
    by_cases hleap : IsLeap (e.yoe + 1)
    · rw [if_pos hleap] at hlast
      rw [if_pos ((isLeap_add_era _ _).mpr hleap), Nat.succ.inj hlast]
      decide
    · rw [if_neg hleap] at hlast
      rw [if_neg fun h => hleap ((isLeap_add_era _ _).mp h), Nat.succ.inj hlast]
      decide
  have hown : e.year = e.yoe + 1 + e.era * 400 := by
    rw [year, hfeb.1, if_pos (Nat.le_refl 2)]
    omega
  have hout : ¬ e.date.day < daysInMonth e.date.year e.date.month := by
    simp [date, hfeb, hown]
  rw [Date.next, dif_neg hout, dif_pos (by simp [date, hfeb])]
  have hmarch : monthOf 0 = 3 ∧ dayOf 0 = 1 := by decide
  ext <;> simp [date, hyear', hown, hfeb, hdoy, hmarch]

/-- An era has 146097 days. -/
theorem dayOfEra_lt (e : EraDay) : yearStart e.yoe + e.doy < 146097 := by
  have hfull := yearStart_add_yearLength e.yoe_lt
  have hend : yearStart (e.yoe + 1) + (e.yoe + 1) / 400 ≤ 146097 := by
    have := e.yoe_lt
    unfold yearStart
    omega
  have := e.doy_lt
  omega

/-- The day of the number `n`. -/
def ofNumber (n : ℤ) : EraDay :=
  have hlt : (n % 146097).toNat < 146097 := by omega
  have hin : yearOfEra (n % 146097).toNat < 400 ∧
      yearStart (yearOfEra (n % 146097).toNat) ≤ (n % 146097).toNat ∧
      (n % 146097).toNat < yearStart (yearOfEra (n % 146097).toNat) +
        yearLength (yearOfEra (n % 146097).toNat) := by
    obtain ⟨y, hy, hfrom, hto⟩ := exists_year hlt
    rw [yearOfEra_eq hy hfrom hto]
    exact ⟨hy, hfrom, hto⟩
  { era := n / 146097
    yoe := yearOfEra (n % 146097).toNat
    doy := (n % 146097).toNat - yearStart (yearOfEra (n % 146097).toNat)
    yoe_lt := hin.1
    doy_lt := by omega }

/-- The era of a number. -/
theorem number_ediv (e : EraDay) : e.number / 146097 = e.era := by
  have hlt := e.dayOfEra_lt
  unfold number
  omega

/-- The day of the era of a number. -/
theorem number_emod (e : EraDay) : (e.number % 146097).toNat = yearStart e.yoe + e.doy := by
  have hlt := e.dayOfEra_lt
  unfold number
  omega

/-- The year is computed back. -/
theorem yearOfEra_doe (e : EraDay) : yearOfEra (yearStart e.yoe + e.doy) = e.yoe :=
  yearOfEra_eq e.yoe_lt (Nat.le_add_right _ _) (Nat.add_lt_add_left e.doy_lt _)

/-- A day is found by its number. -/
theorem ofNumber_number (e : EraDay) : ofNumber e.number = e := by
  have hera := e.number_ediv
  have hdoe := e.number_emod
  have hyoe := e.yearOfEra_doe
  obtain ⟨era, yoe, doy, hy, hd⟩ := e
  simp only [ofNumber, hdoe, hera, hyoe, Nat.add_sub_cancel_left]

/-- Every number is that of a day. -/
theorem number_ofNumber (n : ℤ) : (ofNumber n).number = n := by
  have hlt : (n % 146097).toNat < 146097 := by omega
  obtain ⟨y, hy, hfrom, hto⟩ := exists_year hlt
  simp only [ofNumber, number, yearOfEra_eq hy hfrom hto]
  omega

/-- From each number to the next, the date goes to the next one. -/
theorem date_succ (n : ℤ) : (ofNumber (n + 1)).date = (ofNumber n).date.next := by
  obtain ⟨e, rfl⟩ : ∃ e, n = number e := ⟨_, (number_ofNumber n).symm⟩
  rw [ofNumber_number]
  have hfull := yearStart_add_yearLength e.yoe_lt
  -- the next day lies in the same year, in the next one, or in the next era
  by_cases hlast : e.doy + 1 < yearLength e.yoe
  · have hnext : number ⟨e.era, e.yoe, e.doy + 1, e.yoe_lt, hlast⟩ = e.number + 1 := by
      simp only [number]
      omega
    rw [← hnext, ofNumber_number]
    exact date_same_year rfl rfl rfl
  · have hend : e.doy + 1 = yearLength e.yoe := by
      have := e.doy_lt
      omega
    have hzero : ∀ y, 0 < yearLength y := fun y => by unfold yearLength; split <;> decide
    by_cases hyoe : e.yoe + 1 < 400
    · have hnext : number ⟨e.era, e.yoe + 1, 0, hyoe, hzero _⟩ = e.number + 1 := by
        simp only [number]
        omega
      rw [← hnext, ofNumber_number]
      exact date_next_year hend rfl (by simp)
    · have h399 : e.yoe = 399 := by
        have := e.yoe_lt
        omega
      have hstart : yearStart 0 = 0 ∧ yearStart (399 + 1) = 146096 := by decide
      have hnext : number ⟨e.era + 1, 0, 0, by decide, hzero _⟩ = e.number + 1 := by
        rw [h399] at hfull hend
        simp only [number, h399]
        omega
      rw [← hnext, ofNumber_number]
      refine date_next_year hend rfl ?_
      simp only [h399]
      omega

end EraDay

/-- The dates that the conversion finds are those of the calendar. -/
theorem date_ofNumber (z : ℤ) : (EraDay.ofNumber (z + 719468)).date = ofDays z := by
  refine eq_ofDays (f := fun z => (EraDay.ofNumber (z + 719468)).date) ?_ (fun z => ?_) z
  · ext <;> decide
  · rw [← EraDay.date_succ, Int.add_right_comm]

/-! ## The machine arithmetic -/

/-- Division towards zero, after a correction of negative numbers, is division with a remainder. -/
theorem tdiv_era (n : ℤ) : (if n ≥ 0 then n else n - 146096).tdiv 146097 = n / 146097 := by
  split
  next h => exact Int.tdiv_eq_ediv_of_nonneg h
  next h =>
    rw [Int.tdiv_eq_ediv]
    have hsign : (146097 : ℤ).sign = 1 := rfl
    split <;> omega

/-- A difference that does not wrap. -/
theorem sub_toNat {a b : UInt32} (h : b.toNat ≤ a.toNat) : (a - b).toNat = a.toNat - b.toNat :=
  UInt32.toNat_sub_of_le a b (UInt32.le_iff_toNat_le.mpr h)

/-- A sum that does not wrap. -/
theorem add_toNat {a b : UInt32} (h : a.toNat + b.toNat < 2 ^ 32) :
    (a + b).toNat = a.toNat + b.toNat := by
  rw [UInt32.toNat_add, Nat.mod_eq_of_lt h]

/-- A product that does not wrap. -/
theorem mul_toNat {k a : UInt32} {n : ℕ} (hk : k.toNat = n) (h : n * a.toNat < 2 ^ 32) :
    (k * a).toNat = n * a.toNat := by
  rw [UInt32.toNat_mul, hk, Nat.mod_eq_of_lt h]

/-- A small number stays as it is. -/
theorem toInt32_of_lt {v : ℕ} (h : v < 2 ^ 31) : toInt32 v = v := by
  exact Int.bmod_eq_of_le (by omega) (by omega)

/-- The year of the era, in 32 bits. -/
theorem toNat_yoe {doe : UInt32} (h : doe.toNat < 146097) :
    ((doe - doe / 1460 + doe / 36524 - doe / 146096) / 365).toNat = yearOfEra doe.toNat := by
  have h1460 : (doe / 1460).toNat = doe.toNat / 1460 := UInt32.toNat_div doe 1460
  have h36524 : (doe / 36524).toNat = doe.toNat / 36524 := UInt32.toNat_div doe 36524
  have h146096 : (doe / 146096).toNat = doe.toNat / 146096 := UInt32.toNat_div doe 146096
  have hquarter := sub_toNat (a := doe) (b := doe / 1460) (by omega)
  have hcentury := add_toNat (a := doe - doe / 1460) (b := doe / 36524) (by omega)
  have hera := sub_toNat (a := doe - doe / 1460 + doe / 36524) (b := doe / 146096) (by omega)
  refine (UInt32.toNat_div _ 365).trans ?_
  rw [hera, hcentury, hquarter, h1460, h36524, h146096]
  rfl

/-- The start of the year, in 32 bits. -/
theorem toNat_yearStart {yoe : UInt32} (h : yoe.toNat < 400) :
    (365 * yoe + yoe / 4 - yoe / 100).toNat = yearStart yoe.toNat := by
  have h4 : (yoe / 4).toNat = yoe.toNat / 4 := UInt32.toNat_div yoe 4
  have h100 : (yoe / 100).toNat = yoe.toNat / 100 := UInt32.toNat_div yoe 100
  have hmul : (365 * yoe).toNat = 365 * yoe.toNat := mul_toNat rfl (by omega)
  have hadd := add_toNat (a := 365 * yoe) (b := yoe / 4) (by omega)
  rw [sub_toNat (by omega), hadd, hmul, h4, h100]
  rfl

/-- The month from March on, in 32 bits. -/
theorem toNat_mp {doy : UInt32} (h : doy.toNat < 366) :
    ((5 * doy + 2) / 153).toNat = (5 * doy.toNat + 2) / 153 := by
  have h2 : (2 : UInt32).toNat = 2 := rfl
  have hmul : (5 * doy).toNat = 5 * doy.toNat := mul_toNat rfl (by omega)
  have hadd := add_toNat (a := 5 * doy) (b := 2) (by omega)
  refine (UInt32.toNat_div _ 153).trans ?_
  rw [hadd, hmul]
  rfl

/-- The day of the month, in 32 bits. -/
theorem toNat_dayOf {doy mp : UInt32} (h : doy.toNat < 366)
    (hmp : mp.toNat = (5 * doy.toNat + 2) / 153) :
    (doy - (153 * mp + 2) / 5 + 1).toNat = dayOf doy.toNat := by
  have h2 : (2 : UInt32).toNat = 2 := rfl
  have h1 : (1 : UInt32).toNat = 1 := rfl
  have hmul : (153 * mp).toNat = 153 * mp.toNat := mul_toNat rfl (by omega)
  have hadd := add_toNat (a := 153 * mp) (b := 2) (by omega)
  have hdiv : ((153 * mp + 2) / 5).toNat = (153 * mp + 2).toNat / 5 :=
    UInt32.toNat_div (153 * mp + 2) 5
  have hsub := sub_toNat (a := doy) (b := (153 * mp + 2) / 5) (by omega)
  rw [add_toNat (by omega), hsub, hdiv, hadd, hmul, hmp]
  rfl

/-- The month, in 32 bits. -/
theorem toNat_monthOf {doy mp : UInt32} (h : doy.toNat < 366)
    (hmp : mp.toNat = (5 * doy.toNat + 2) / 153) :
    (mp + if mp < 10 then 3 else -9).toNat = monthOf doy.toNat := by
  have hlt : mp < 10 ↔ mp.toNat < 10 := UInt32.lt_iff_toNat_lt
  have h3 : (3 : UInt32).toNat = 3 := rfl
  have h9 : (-9 : UInt32).toNat = 2 ^ 32 - 9 := rfl
  rw [monthOf, ← hmp]
  by_cases h10 : mp.toNat < 10
  · rw [if_pos (hlt.mpr h10), if_pos h10, add_toNat (by omega), h3]
  · rw [if_neg (hlt.not.mpr h10), if_neg h10, UInt32.toNat_add, h9]
    omega

/-- The machine computes the date of the day, but for the bits of the year above the 32nd. -/
theorem civilFromDays_eq (z : ℤ) : civilFromDays z =
    (Int.bmod (ofDays z).year (2 ^ 32), ((ofDays z).month : ℤ), ((ofDays z).day : ℤ)) := by
  rw [← date_ofNumber, civilFromDays]
  obtain ⟨e, he⟩ : ∃ e : EraDay, z + 719468 = e.number := ⟨_, (EraDay.number_ofNumber _).symm⟩
  simp only [he, tdiv_era, e.number_ediv, e.ofNumber_number]
  have hlt := e.dayOfEra_lt
  have hdoe : (UInt32.ofInt (e.number - e.era * 146097)).toNat = yearStart e.yoe + e.doy := by
    rw [UInt32.ofInt, UInt32.toNat_ofNat', EraDay.number]
    omega
  generalize UInt32.ofInt (e.number - e.era * 146097) = doe at hdoe
  have hyoe := (toNat_yoe (by omega : doe.toNat < 146097)).trans
    ((congrArg yearOfEra hdoe).trans e.yearOfEra_doe)
  generalize (doe - doe / 1460 + doe / 36524 - doe / 146096) / 365 = yoe at hyoe
  have hstart := (toNat_yearStart (hyoe ▸ e.yoe_lt)).trans (congrArg yearStart hyoe)
  generalize 365 * yoe + yoe / 4 - yoe / 100 = start at hstart
  have hdoy : (doe - start).toNat = e.doy := by
    rw [sub_toNat (by omega), hdoe, hstart, Nat.add_sub_cancel_left]
  generalize doe - start = doy at hdoy
  have h366 : doy.toNat < 366 := hdoy ▸ e.doy_lt_366
  have hmp := toNat_mp h366
  have hd := toNat_dayOf h366 hmp
  have hm := toNat_monthOf h366 hmp
  obtain ⟨-, hm12, -, -⟩ := month_table e.doy_lt_366
  have hd366 : dayOf e.doy ≤ e.doy + 1 := Nat.add_le_add_right (Nat.sub_le _ _) 1
  rw [hdoy] at hd hm
  rw [hd, hm, toInt32_of_lt (by have := e.doy_lt_366; omega), toInt32_of_lt (by omega), hyoe]
  simp only [EraDay.date, EraDay.year, Nat.cast_le_ofNat]

/-- `int` holds the year of the day. -/
def YearFits (z : ℤ) : Prop := -2 ^ 31 ≤ (ofDays z).year ∧ (ofDays z).year < 2 ^ 31

/-- Where the year fits `civil_from_days` gives the date. -/
theorem civilFromDays_of_fits {z : ℤ} (h : YearFits z) :
    civilFromDays z = ((ofDays z).year, ((ofDays z).month : ℤ), ((ofDays z).day : ℤ)) := by
  have hbmod : Int.bmod (ofDays z).year (2 ^ 32) = (ofDays z).year := by
    obtain ⟨hlow, hhigh⟩ := h
    exact Int.bmod_eq_of_le (by omega) (by omega)
  rw [civilFromDays_eq, hbmod]

/-! ## The time of day -/

/-- C division, corrected for negative seconds, is the one that rounds down. -/
theorem splitSeconds_eq (totalSeconds : ℤ) :
    splitSeconds totalSeconds = (totalSeconds / 86400, totalSeconds % 86400) := by
  have hsign : (86400 : ℤ).sign = 1 := rfl
  have habs : (86400 : ℤ).natAbs = 86400 := rfl
  rw [splitSeconds, Int.tdiv_eq_ediv, Int.tmod_eq_emod, hsign, habs]
  split_ifs <;> simp only [Prod.mk.injEq] <;> omega

/-- The year of a day from the year 0 on, up to the last second that 64 bits of milliseconds count. -/
theorem year_bounds {z : ℤ} (hlow : -719468 ≤ z) (hhigh : z ≤ 213503982336) :
    0 ≤ (ofDays z).year ∧ (ofDays z).year < 2 ^ 31 := by
  rw [← date_ofNumber]
  obtain ⟨e, he⟩ : ∃ e : EraDay, z + 719468 = e.number := ⟨_, (EraDay.number_ofNumber _).symm⟩
  have hera := e.number_ediv
  have hyoe := e.yoe_lt
  have hif : (if monthOf e.doy ≤ 2 then (1 : ℤ) else 0) ≤ 1 ∧
      0 ≤ (if monthOf e.doy ≤ 2 then (1 : ℤ) else 0) := by split <;> decide
  rw [he, e.ofNumber_number]
  simp only [EraDay.date, EraDay.year]
  omega

/-- The two digits of a number below 100. -/
def twoDigits (n : ℕ) : List UInt8 := [UInt8.ofNat (48 + n / 10), UInt8.ofNat (48 + n % 10)]

/-- A number below 100 is printed with two digits. -/
theorem put2Digit_of_lt {n : ℕ} (h : n < 100) : put2Digit n = twoDigits n := by
  have hlow : ¬ (n : ℤ) < 0 := by omega
  have hhigh : ¬ (n : ℤ) > 99 := by omega
  simp only [put2Digit, if_neg hlow, if_neg hhigh, twoDigits]
  congr 2

/-- `t` is the date of the day `days`, and with the time of day it is `epochMs`, in a zone
`tzOffsetHours` ahead. -/
structure IsLocalTime (epochMs : ℕ) (tzOffsetHours days : ℤ) (t : Date) (hour minute second : ℕ) :
    Prop where
  date : t = ofDays days
  hour_lt : hour < 24
  minute_lt : minute < 60
  second_lt : second < 60
  seconds : days * 86400 + hour * 3600 + minute * 60 + second =
    (epochMs / 1000 : ℕ) + tzOffsetHours * 3600

/-- `YYYY-MM-DD HH:MM:SS UTC+N` -/
def shownTime (t : Date) (hour minute second : ℕ) (tzOffsetHours : ℤ) : List UInt8 :=
  sysPutdec t.year.toNat ++ [45] ++ twoDigits t.month ++ [45] ++ twoDigits t.day ++ [32] ++
    twoDigits hour ++ [58] ++ twoDigits minute ++ [58] ++ twoDigits second ++ [32, 85, 84, 67] ++
    (if tzOffsetHours ≥ 0 then [43] else [45]) ++ sysPutdec tzOffsetHours.natAbs ++ [10]

/-- What is printed is the date and the time of day. -/
theorem localTime_eq {epochMs : ℕ} {tzOffsetHours : ℤ} (hms : epochMs < 2 ^ 64)
    (htz : -23 ≤ tzOffsetHours ∧ tzOffsetHours ≤ 23) :
    ∃ (days : ℤ) (t : Date) (hour minute second : ℕ),
      IsLocalTime epochMs tzOffsetHours days t hour minute second ∧
      localTime epochMs tzOffsetHours = ⟨t.year, t.month, t.day, hour, minute, second⟩ ∧
      printLocaltime epochMs tzOffsetHours = shownTime t hour minute second tzOffsetHours := by
  generalize htotal : ((epochMs / 1000 : ℕ) : ℤ) + tzOffsetHours * 3600 = total
  have hdays : -719468 ≤ total / 86400 ∧ total / 86400 ≤ 213503982336 := by omega
  have hyear := year_bounds hdays.1 hdays.2
  generalize ht : ofDays (total / 86400) = t at hyear
  obtain ⟨secs, hsecs⟩ : ∃ secs : ℕ, total % 86400 = secs := ⟨(total % 86400).toNat, by omega⟩
  have hlt : secs < 86400 := by omega
  have hlocal : localTime epochMs tzOffsetHours =
      ⟨t.year, t.month, t.day, (secs / 3600 : ℕ), (secs % 3600 / 60 : ℕ), (secs % 60 : ℕ)⟩ := by
    have hcivil := civilFromDays_of_fits (z := total / 86400) (by rw [YearFits, ht]; omega)
    rw [ht] at hcivil
    simp only [localTime, htotal, splitSeconds_eq, hcivil, hsecs]
    rfl
  refine ⟨total / 86400, t, secs / 3600, secs % 3600 / 60, secs % 60,
    ⟨ht.symm, by omega, by omega, by omega, ?_⟩, hlocal, ?_⟩
  · rw [htotal]
    omega
  -- all fields have at most two digits but the year
  · have hday : t.day < 100 := by
      have h31 : daysInMonth t.year t.month ≤ 31 := by
        unfold daysInMonth
        split_ifs <;> decide
      have := t.isDate.day_le
      omega
    have hword : toWord t.year = t.year.toNat := by
      unfold toWord
      omega
    -- the sign is printed apart
    have hoffset : toWord (if tzOffsetHours ≥ 0 then tzOffsetHours else -tzOffsetHours) =
        tzOffsetHours.natAbs := by
      unfold toWord
      split <;> omega
    have := t.isDate.month_le
    simp only [printLocaltime, hlocal, shownTime, hword, hoffset]
    rw [put2Digit_of_lt (by omega), put2Digit_of_lt hday, put2Digit_of_lt (by omega),
      put2Digit_of_lt (by omega), put2Digit_of_lt (by omega)]

/-- The conversion counts the days of the calendar, and what is printed is the local time. -/
theorem civilFromDays_localTime :
    (∀ z, YearFits z →
      ∃ t : Date, civilFromDays z = (t.year, (t.month : ℤ), (t.day : ℤ)) ∧
        (YearFits (z + 1) →
          civilFromDays (z + 1) = (t.next.year, (t.next.month : ℤ), (t.next.day : ℤ)))) ∧
      civilFromDays 0 = (1970, 1, 1) ∧
      ∀ epochMs < 2 ^ 64, ∀ tzOffsetHours, -23 ≤ tzOffsetHours ∧ tzOffsetHours ≤ 23 →
        ∃ (days : ℤ) (t : Date) (hour minute second : ℕ),
          IsLocalTime epochMs tzOffsetHours days t hour minute second ∧
          localTime epochMs tzOffsetHours = ⟨t.year, t.month, t.day, hour, minute, second⟩ ∧
          printLocaltime epochMs tzOffsetHours =
            shownTime t hour minute second tzOffsetHours := by
  refine ⟨fun z hz => ⟨ofDays z, civilFromDays_of_fits hz, fun hnext => ?_⟩, by decide,
    fun _ hms _ htz => localTime_eq hms htz⟩
  rw [civilFromDays_of_fits hnext, ofDays_add_one]

/-- The day after 28 February 2024 is the 29th. -/
theorem civilFromDays_leapDay : YearFits 19781 ∧ ∃ t : Date,
    civilFromDays 19781 = (t.year, (t.month : ℤ), (t.day : ℤ)) ∧
      (YearFits (19781 + 1) →
        civilFromDays (19781 + 1) = (t.next.year, (t.next.month : ℤ), (t.next.day : ℤ))) :=
  have hfits : YearFits 19781 :=
    have hyear := year_bounds (z := 19781) (by decide) (by decide)
    ⟨by omega, hyear.2⟩
  ⟨hfits, civilFromDays_localTime.1 19781 hfits⟩

end PsychWard.Shell
