import Mathlib.Tactic.IntervalCases
import Mathlib.Tactic.SplitIfs
import WindowVm.Log.Calendar

/-!
# Stamped dates are Gregorian dates

The date of a log stamp is the proleptic Gregorian date that many days after 1970-01-01, for
every day count whose year fits the stamp's 32-bit year (`civilOfDays_eq_dateAfterEpoch`). The
calendar is stated on its own terms: a leap year is divisible by 4 and not by 100, or by 400;
February has 29 days in a leap year and 28 otherwise, April, June, September and November have
30, the other months 31; and `dateAfterEpoch` steps from 1970-01-01 one day at a time.

The proof counts days from 0000-03-01 (`dayNumber`), in years that begin in March so that the
leap day ends a year. The next date has the next number (`dayNumber_nextDate`), so the date `n`
days after 1970-01-01 has the number `n + 719468`; and the civil-from-days computation reads
every date back from its number (`civilOfDayNumber_dayNumber`).
-/

namespace WindowVm.Log

/-! ## The proleptic Gregorian calendar -/

/-- A leap year: divisible by 4 and not by 100, or divisible by 400. -/
def IsLeap (y : Nat) : Prop := y % 4 = 0 ∧ (y % 100 ≠ 0 ∨ y % 400 = 0)

instance : DecidablePred IsLeap := fun _ => inferInstanceAs (Decidable (_ ∧ _))

/-- The number of days of month `m` (1 to 12) in year `y`. -/
def monthLength (y m : Nat) : Nat :=
  if m = 2 then (if IsLeap y then 29 else 28)
  else if m = 4 ∨ m = 6 ∨ m = 9 ∨ m = 11 then 30
  else 31

/-- A year, a month of it and a day of that month. -/
def ValidDate : Nat × Nat × Nat → Prop
  | (y, m, d) => 1 ≤ m ∧ m ≤ 12 ∧ 1 ≤ d ∧ d ≤ monthLength y m

instance : DecidablePred ValidDate := fun _ => inferInstanceAs (Decidable (_ ∧ _ ∧ _ ∧ _))

/-- The day after a date. -/
def nextDate : Nat × Nat × Nat → Nat × Nat × Nat
  | (y, m, d) =>
    if d < monthLength y m then (y, m, d + 1)
    else if m < 12 then (y, m + 1, 1)
    else (y + 1, 1, 1)

/-- The date `n` days after 1970-01-01. -/
def dateAfterEpoch : Nat → Nat × Nat × Nat
  | 0 => (1970, 1, 1)
  | n + 1 => nextDate (dateAfterEpoch n)

example : dateAfterEpoch 789 = (1972, 2, 29) := by decide +kernel

theorem le_monthLength (y m : Nat) : 28 ≤ monthLength y m := by
  unfold monthLength
  split_ifs <;> omega

theorem validDate_nextDate {date : Nat × Nat × Nat} (h : ValidDate date) :
    ValidDate (nextDate date) := by
  obtain ⟨y, m, d⟩ := date
  obtain ⟨hm₁, hm₂, hd₁, hd₂⟩ := h
  simp only [nextDate]
  split_ifs with hd hm
  · exact ⟨hm₁, hm₂, by omega, by omega⟩
  · exact ⟨by omega, by omega, Nat.le_refl 1,
      Nat.le_trans (by omega) (le_monthLength y (m + 1))⟩
  · exact ⟨Nat.le_refl 1, by omega, Nat.le_refl 1,
      Nat.le_trans (by omega) (le_monthLength (y + 1) 1)⟩

theorem year_le_nextDate (date : Nat × Nat × Nat) : date.1 ≤ (nextDate date).1 := by
  obtain ⟨y, m, d⟩ := date
  simp only [nextDate]
  split_ifs <;> simp

/-! ## Counting days from 0000-03-01 -/

/-- Days from the first of March of a year divisible by 400 to the first of March `k` years
later. -/
def eraDays (k : Nat) : Nat := 365 * k + k / 4 - k / 100 + k / 400

/-- Days from 0000-03-01 to the first of March of year `y`. -/
def marchFirst (y : Nat) : Nat := y / 400 * 146097 + eraDays (y % 400)

/-- Days from the first of March to the first of the month `k` months later: the months from
March have 31, 30, 31, 30, 31, 31, 30, 31, 30, 31 and 31 days. -/
def monthStart (k : Nat) : Nat := (153 * k + 2) / 5

/-- The year whose first of March begins the twelve months a date falls in. -/
def marchYear (y m : Nat) : Nat := if m ≤ 2 then y - 1 else y

/-- The place of a month among the twelve from March. -/
def marchMonth (m : Nat) : Nat := if m ≤ 2 then m + 9 else m - 3

/-- Days from 0000-03-01 to a date. -/
def dayNumber : Nat × Nat × Nat → Nat
  | (y, m, d) => marchFirst (marchYear y m) + monthStart (marchMonth m) + d - 1

theorem eraDays_succ {k : Nat} (hk : k < 400) :
    eraDays (k + 1) = eraDays k + 365 + if IsLeap (k + 1) then 1 else 0 := by
  unfold eraDays
  by_cases h : IsLeap (k + 1)
  · rw [if_pos h]
    unfold IsLeap at h
    omega
  · rw [if_neg h]
    unfold IsLeap at h
    omega

theorem isLeap_mod_add_one (y : Nat) : IsLeap (y % 400 + 1) ↔ IsLeap (y + 1) := by
  unfold IsLeap
  omega

/-- A year from March to March has the leap day of the February that ends it. -/
theorem marchFirst_succ (y : Nat) :
    marchFirst (y + 1) = marchFirst y + 365 + if IsLeap (y + 1) then 1 else 0 := by
  unfold marchFirst
  by_cases hlast : y % 400 = 399
  · have hleap : IsLeap (y + 1) := by
      unfold IsLeap
      omega
    rw [show (y + 1) % 400 = 0 by omega, show (y + 1) / 400 = y / 400 + 1 by omega, hlast,
      if_pos hleap, show eraDays 0 = 0 from rfl, show eraDays 399 = 145731 from rfl]
    omega
  · rw [show (y + 1) % 400 = y % 400 + 1 by omega, show (y + 1) / 400 = y / 400 by omega,
      eraDays_succ (by omega)]
    simp only [isLeap_mod_add_one]
    omega

/-- Away from February, the month lengths are the steps of `monthStart`. -/
theorem monthLength_eq_monthStart (y : Nat) {m : Nat} (h₁ : 1 ≤ m) (h₂ : m ≤ 12)
    (hm : m ≠ 2) :
    monthLength y m = monthStart (marchMonth m + 1) - monthStart (marchMonth m) := by
  obtain hjan | hlater : m < 2 ∨ 2 < m := by omega
  · interval_cases m
    rfl
  · interval_cases m <;> rfl

/-- The day number counts days: the next date has the next number. -/
theorem dayNumber_nextDate {date : Nat × Nat × Nat} (h : ValidDate date) (hy : 1 ≤ date.1) :
    dayNumber (nextDate date) = dayNumber date + 1 := by
  obtain ⟨y, m, d⟩ := date
  obtain ⟨hm₁, hm₂, hd₁, hd₂⟩ := h
  dsimp only at hy
  simp only [nextDate]
  split_ifs with hd hm
  · simp only [dayNumber]
    omega
  · by_cases h2 : m = 2
    · subst h2
      have hfirst := marchFirst_succ (y - 1)
      rw [Nat.sub_add_cancel hy] at hfirst
      show marchFirst y + monthStart 0 + 1 - 1 = marchFirst (y - 1) + monthStart 11 + d - 1 + 1
      rw [show monthStart 0 = 0 from rfl, show monthStart 11 = 337 from rfl]
      by_cases hl : IsLeap y
      · rw [if_pos hl] at hfirst
        rw [monthLength, if_pos rfl, if_pos hl] at hd hd₂
        omega
      · rw [if_neg hl] at hfirst
        rw [monthLength, if_pos rfl, if_neg hl] at hd hd₂
        omega
    · have hlen := monthLength_eq_monthStart y hm₁ hm₂ h2
      have hnext : marchMonth (m + 1) = marchMonth m + 1 := by
        unfold marchMonth
        split_ifs <;> omega
      have hyear : marchYear y (m + 1) = marchYear y m := by
        unfold marchYear
        split_ifs <;> omega
      have : monthStart (marchMonth m) < monthStart (marchMonth m + 1) := by
        unfold monthStart
        omega
      simp only [dayNumber, hnext, hyear]
      omega
  · obtain rfl : m = 12 := by omega
    have hdec : monthLength y 12 = 31 := rfl
    show marchFirst y + monthStart 10 + 1 - 1 = marchFirst y + monthStart 9 + d - 1 + 1
    rw [show monthStart 10 = 306 from rfl, show monthStart 9 = 275 from rfl]
    omega

/-- Every date from 1970-01-01 on is valid, and its day number is its distance from
1970-01-01 plus the 719468 days from 0000-03-01 to 1970-01-01. -/
theorem dateAfterEpoch_dayNumber (n : Nat) :
    ValidDate (dateAfterEpoch n) ∧ 1970 ≤ (dateAfterEpoch n).1 ∧
      dayNumber (dateAfterEpoch n) = n + 719468 := by
  induction n with
  | zero =>
    exact ⟨⟨Nat.le_refl 1, by omega, Nat.le_refl 1, by decide⟩, Nat.le_refl 1970, rfl⟩
  | succ n ih =>
    obtain ⟨hv, hy, hd⟩ := ih
    refine ⟨validDate_nextDate hv, Nat.le_trans hy (year_le_nextDate _), ?_⟩
    have hnext := dayNumber_nextDate hv (by omega)
    show dayNumber (nextDate (dateAfterEpoch n)) = n + 1 + 719468
    omega

/-! ## Reading a date back from its number -/

/-- The year of an era is found again from any day of it: the three correction terms of the
computation take off one day for each leap day before that day. -/
theorem yearOfEra_eraDays_add {k doy : Nat} (hk : k < 400)
    (hdoy : doy < 365 ∨ doy = 365 ∧ IsLeap (k + 1)) :
    (eraDays k + doy - (eraDays k + doy) / 1460 + (eraDays k + doy) / 36524 -
      (eraDays k + doy) / 146096) / 365 = k := by
  obtain ⟨C, Q, R, hC, hQ, hR, rfl⟩ :
      ∃ C Q R, C < 4 ∧ Q < 25 ∧ R < 4 ∧ k = 100 * C + 4 * Q + R :=
    ⟨k / 100, k % 100 / 4, k % 4, by omega, by omega, by omega, by omega⟩
  have hdays : eraDays (100 * C + 4 * Q + R) = 36524 * C + 1461 * Q + 365 * R := by
    unfold eraDays
    omega
  have hleap : doy < 365 ∨ doy = 365 ∧ R = 3 ∧ (Q ≠ 24 ∨ C = 3) := by
    unfold IsLeap at hdoy
    omega
  rw [hdays]
  generalize hz : 36524 * C + 1461 * Q + 365 * R + doy = doe
  have h₃ : doe / 146096 = if C = 3 ∧ Q = 24 ∧ R = 3 ∧ doy = 365 then 1 else 0 := by
    split <;> omega
  have h₂ : doe / 36524 = C + doe / 146096 := by
    rw [h₃]
    split <;> omega
  have h₁ : doe / 1460 = 25 * C + Q + if 1460 ≤ 24 * C + Q + 365 * R + doy then 1 else 0 := by
    split <;> omega
  rw [h₁, h₂, h₃]
  split <;> split <;> omega

theorem monthIndex_of_monthStart {k doy : Nat} (h₁ : monthStart k ≤ doy)
    (h₂ : doy < monthStart (k + 1)) : (5 * doy + 2) / 153 = k := by
  unfold monthStart at h₁ h₂
  omega

/-- A valid date's day within its year counted from March lies within its month. -/
theorem lt_monthStart_succ {y m d : Nat} (h : ValidDate (y, m, d)) :
    monthStart (marchMonth m) + d - 1 < monthStart (marchMonth m + 1) := by
  obtain ⟨hm₁, hm₂, hd₁, hd₂⟩ := h
  by_cases h2 : m = 2
  · subst h2
    simp only [monthLength, if_true] at hd₂
    split at hd₂ <;> simp [marchMonth, monthStart] <;> omega
  · rw [monthLength_eq_monthStart y hm₁ hm₂ h2] at hd₂
    have : monthStart (marchMonth m) < monthStart (marchMonth m + 1) := by
      unfold monthStart
      omega
    omega

/-- A valid date's day within its year counted from March is at most 365, the leap day of the
February that ends a leap year. -/
theorem dayOfYear_le_365 {y m d : Nat} (h : ValidDate (y, m, d)) (hy : 1 ≤ y) :
    monthStart (marchMonth m) + d - 1 < 365 ∨
      monthStart (marchMonth m) + d - 1 = 365 ∧ IsLeap (marchYear y m % 400 + 1) := by
  have hmonth := lt_monthStart_succ h
  obtain ⟨hm₁, hm₂, hd₁, hd₂⟩ := h
  by_cases h2 : m = 2
  · subst h2
    show monthStart 11 + d - 1 < 365 ∨
      monthStart 11 + d - 1 = 365 ∧ IsLeap ((y - 1) % 400 + 1)
    rw [isLeap_mod_add_one, Nat.sub_add_cancel hy, show monthStart 11 = 337 from rfl]
    by_cases hl : IsLeap y
    · rw [monthLength, if_pos rfl, if_pos hl] at hd₂
      by_cases hlast : d = 29
      · exact .inr ⟨by omega, hl⟩
      · exact .inl (by omega)
    · rw [monthLength, if_pos rfl, if_neg hl] at hd₂
      exact .inl (by omega)
  · have : marchMonth m ≤ 10 := by
      unfold marchMonth
      split <;> omega
    have : monthStart (marchMonth m + 1) ≤ 337 := by
      unfold monthStart
      omega
    omega

/-- A day of a year of an era lies within the era. -/
theorem eraDays_add_lt {k doy : Nat} (hk : k < 400)
    (hdoy : doy < 365 ∨ doy = 365 ∧ IsLeap (k + 1)) : eraDays k + doy < 146097 := by
  have hnext := eraDays_succ hk
  have hend : eraDays (k + 1) ≤ 146097 := by
    unfold eraDays
    omega
  rcases hdoy with hlt | ⟨heq, hl⟩
  · split at hnext <;> omega
  · rw [if_pos hl] at hnext
    omega

/-- The civil-from-days computation reads a date back from its day number. -/
theorem civilOfDayNumber_dayNumber {date : Nat × Nat × Nat} (h : ValidDate date)
    (hy : 1 ≤ date.1) : civilOfDayNumber (dayNumber date) = date := by
  obtain ⟨y, m, d⟩ := date
  dsimp only at hy
  have hmonth := lt_monthStart_succ h
  have hyear := dayOfYear_le_365 h hy
  obtain ⟨hm₁, hm₂, hd₁, -⟩ := h
  have hstart : monthStart (marchMonth m) ≤ monthStart (marchMonth m) + d - 1 := by omega
  have hk : marchYear y m % 400 < 400 := Nat.mod_lt _ (by omega)
  have hdoe := eraDays_add_lt hk hyear
  have hz : dayNumber (y, m, d) = marchYear y m / 400 * 146097 +
      (eraDays (marchYear y m % 400) + (monthStart (marchMonth m) + d - 1)) := by
    simp only [dayNumber, marchFirst]
    omega
  have hq : dayNumber (y, m, d) / 146097 = marchYear y m / 400 := by omega
  have hr : dayNumber (y, m, d) % 146097 =
      eraDays (marchYear y m % 400) + (monthStart (marchMonth m) + d - 1) := by omega
  have hyoe := yearOfEra_eraDays_add hk hyear
  have hdays : 365 * (marchYear y m % 400) + marchYear y m % 400 / 4 - marchYear y m % 400 / 100 =
      eraDays (marchYear y m % 400) := by
    unfold eraDays
    omega
  have hmp := monthIndex_of_monthStart hstart hmonth
  simp only [civilOfDayNumber, hq, hr, hyoe, hdays, Nat.add_sub_cancel_left, hmp]
  rw [show (153 * marchMonth m + 2) / 5 = monthStart (marchMonth m) from rfl]
  unfold marchYear marchMonth
  split_ifs <;> simp only [Prod.mk.injEq] <;> omega

/-! ## The date of a day count -/

theorem civilOfDayNumber_dateAfterEpoch (n : Nat) :
    civilOfDayNumber (n + 719468) = dateAfterEpoch n := by
  obtain ⟨hv, hy, hd⟩ := dateAfterEpoch_dayNumber n
  rw [← hd]
  exact civilOfDayNumber_dayNumber hv (by omega)

/-- The date of a day count is the Gregorian date that many days after 1970-01-01, whenever its
year fits in 32 bits. -/
theorem civilOfDays_eq_dateAfterEpoch (n : Nat) (h : (dateAfterEpoch n).1 < 2 ^ 32) :
    civilOfDays n = dateAfterEpoch n := by
  have hdate := civilOfDayNumber_dateAfterEpoch n
  simp only [civilOfDays, hdate]
  rw [Nat.mod_eq_of_lt (show (dateAfterEpoch n).1 < 4294967296 from h)]

/-- The first leap day after 1970-01-01. -/
theorem civilOfDays_first_leap_day :
    (dateAfterEpoch 789).1 < 2 ^ 32 ∧ civilOfDays 789 = dateAfterEpoch 789 :=
  have hyear : (dateAfterEpoch 789).1 < 2 ^ 32 := by decide +kernel
  ⟨hyear, civilOfDays_eq_dateAfterEpoch 789 hyear⟩

example : civilOfDays 0 = (1970, 1, 1) := by decide

example : civilOfDays 19782 = (2024, 2, 29) := by decide

end WindowVm.Log
