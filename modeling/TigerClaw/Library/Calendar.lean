import Mathlib.Algebra.BigOperators.Group.Finset.Basic
import Mathlib.Algebra.Group.Int.Defs
import Mathlib.Algebra.Group.Nat.Defs
import Mathlib.Data.Nat.Basic
import Mathlib.Tactic.IntervalCases

/-!
# The Gregorian calendar

Proleptic, from the year 0 on.

* `isLeap`, `daysInMonth`, `daysInYear`: the rule.
* `daysBeforeYear`, `daysBeforeMonth`, `dayNumber`: a date as the number of days before it, counted
  year by year and month by month.
* `dayNumber_of_march`: the same from March to March, where every month has its fixed place in the
  year.
* `era_split`: a day of an era of 400 years has its century, its cycle of four years, its year and
  its place in that.
-/

namespace Calendar

/-- Divisible by 4, except centuries that are not divisible by 400. -/
def isLeap (year : ℕ) : Bool :=
  decide (year % 4 = 0) && (decide (year % 100 ≠ 0) || decide (year % 400 = 0))

def daysInYear (year : ℕ) : ℕ := if isLeap year then 366 else 365

def daysInMonth (year : ℕ) : ℕ → ℕ
  | 2 => if isLeap year then 29 else 28
  | 4 | 6 | 9 | 11 => 30
  | _ => 31

/-- The days of the years from 0 on. -/
def daysBeforeYear (year : ℕ) : ℕ := ∑ y ∈ Finset.range year, daysInYear y

/-- The days of the months from January on. -/
def daysBeforeMonth (year month : ℕ) : ℕ :=
  ∑ m ∈ Finset.range (month - 1), daysInMonth year (m + 1)

/-- The days before a date. -/
def dayNumber (year month day : ℕ) : ℕ :=
  daysBeforeYear year + daysBeforeMonth year month + (day - 1)

theorem isLeap_iff {year : ℕ} :
    isLeap year = true ↔ year % 4 = 0 ∧ (year % 100 ≠ 0 ∨ year % 400 = 0) := by
  simp [isLeap]

/-- A quotient that is rounded up. -/
theorem ceil_div (n : ℕ) {k : ℕ} (hk : 0 < k) :
    (n + (k - 1)) / k = n / k + if n % k = 0 then 0 else 1 := by
  have hn := Nat.div_add_mod n k
  have hlt := Nat.mod_lt n hk
  have hsplit : n + (k - 1) = (n % k + (k - 1)) + k * (n / k) := by omega
  rw [hsplit, Nat.add_mul_div_left _ _ hk, Nat.add_comm]
  congr 1
  split
  · rename_i hzero
    exact Nat.div_eq_of_lt (by omega)
  · rw [Nat.div_eq_iff hk]
    omega

/-- What the rule says of three remainders, and what they make of three quotients. -/
theorem leap_cases (year : ℕ) :
    (isLeap year = true ∧ (year + 3) / 4 = year / 4 ∧
        ((year + 99) / 100 = year / 100 + 1 ∧ (year + 399) / 400 = year / 400 + 1 ∨
          (year + 99) / 100 = year / 100 ∧ (year + 399) / 400 = year / 400)) ∨
      (isLeap year = false ∧ (year + 399) / 400 = year / 400 + 1 ∧
        ((year + 3) / 4 = year / 4 + 1 ∧ (year + 99) / 100 = year / 100 + 1 ∨
          (year + 3) / 4 = year / 4 ∧ (year + 99) / 100 = year / 100)) := by
  have h4 : (year + 3) / 4 = _ := @ceil_div year 4 (by decide)
  have h100 : (year + 99) / 100 = _ := @ceil_div year 100 (by decide)
  have h400 : (year + 399) / 400 = _ := @ceil_div year 400 (by decide)
  rw [h4, h100, h400, isLeap]
  by_cases hm4 : year % 4 = 0
  · by_cases hm100 : year % 100 = 0
    · by_cases hm400 : year % 400 = 0
      · simp [hm4, hm100, hm400]
      · simp [hm4, hm100, hm400]
    · have hm400 : ¬ year % 400 = 0 := by omega
      simp [hm4, hm100, hm400]
  · have hm100 : ¬ year % 100 = 0 := by omega
    have hm400 : ¬ year % 400 = 0 := by omega
    simp [hm4, hm100, hm400]

/-- The leap years are counted by three divisions. -/
theorem daysBeforeYear_eq (year : ℕ) :
    daysBeforeYear year + (year + 99) / 100 =
      365 * year + (year + 3) / 4 + (year + 399) / 400 := by
  induction year with
  | zero => rfl
  | succ year ih =>
    have hsucc : daysBeforeYear (year + 1) = daysBeforeYear year + daysInYear year :=
      Finset.sum_range_succ _ _
    have h4 : (year + 1 + 3) / 4 = year / 4 + 1 := by omega
    have h100 : (year + 1 + 99) / 100 = year / 100 + 1 := by omega
    have h400 : (year + 1 + 399) / 400 = year / 400 + 1 := by omega
    rw [hsucc, daysInYear, h4, h100, h400]
    obtain ⟨hleap, hquotients⟩ | ⟨hleap, hquotients⟩ := leap_cases year
    · rw [hleap, if_pos rfl]
      omega
    · rw [hleap, if_neg Bool.false_ne_true]
      omega

/-- The days of a year before its March. -/
def beforeMarch (year : ℕ) : ℕ := if isLeap year then 60 else 59

/-- From March to March, the leap years are counted from the front. -/
theorem daysBeforeYear_add_beforeMarch (year : ℕ) :
    daysBeforeYear year + beforeMarch year + year / 100 =
      365 * year + year / 4 + year / 400 + 60 := by
  have hdays := daysBeforeYear_eq year
  rw [beforeMarch]
  obtain ⟨hleap, hquotients⟩ | ⟨hleap, hquotients⟩ := leap_cases year
  · rw [hleap, if_pos rfl]
    omega
  · rw [hleap, if_neg Bool.false_ne_true]
    omega

/-- The months from March on begin where they always do. -/
theorem daysBeforeMonth_of_march {year mp : ℕ} (h : mp < 10) :
    daysBeforeMonth year (mp + 3) = beforeMarch year + (153 * mp + 2) / 5 := by
  rw [daysBeforeMonth, beforeMarch]
  cases hleap : isLeap year <;> interval_cases mp <;>
    simp [Finset.sum_range_succ, daysInMonth, hleap]

/-- The date that lies `doy` days behind the first of March. -/
def marchDate (year doy : ℕ) : ℕ × ℕ × ℕ :=
  let mp := (5 * doy + 2) / 153
  let day := doy - (153 * mp + 2) / 5 + 1
  if mp < 10 then (year, mp + 3, day) else (year + 1, mp - 9, day)

/-- **From March to March**, a date is counted without asking which year is a leap year. -/
theorem dayNumber_of_march {year doy : ℕ} (h : doy ≤ 365) :
    dayNumber (marchDate year doy).1 (marchDate year doy).2.1 (marchDate year doy).2.2 +
        year / 100 =
      365 * year + year / 4 + year / 400 + 60 + doy := by
  have hyear := daysBeforeYear_add_beforeMarch year
  rw [marchDate]
  split
  · rename_i hmp
    rw [dayNumber, daysBeforeMonth_of_march hmp]
    dsimp only
    omega
  · rename_i hmp
    have hsucc : daysBeforeYear (year + 1) = daysBeforeYear year + daysInYear year :=
      Finset.sum_range_succ _ _
    have hdays : daysInYear year = beforeMarch year + 306 := by
      rw [daysInYear, beforeMarch]
      split <;> rfl
    rw [dayNumber, hsucc, hdays]
    obtain hmp | hmp : (5 * doy + 2) / 153 = 10 ∨ (5 * doy + 2) / 153 = 11 := by omega
    · have hjanuary : daysBeforeMonth (year + 1) 1 = 0 := rfl
      rw [hmp, hjanuary]
      dsimp only
      omega
    · have hfebruary : daysBeforeMonth (year + 1) 2 = 31 := rfl
      rw [hmp, hfebruary]
      dsimp only
      omega

/-- The date is one of the calendar. -/
theorem marchDate_valid {year doy : ℕ} (h : doy ≤ 365)
    (hleap : doy = 365 → isLeap (year + 1) = true) :
    (1 ≤ (marchDate year doy).2.1 ∧ (marchDate year doy).2.1 ≤ 12) ∧
      1 ≤ (marchDate year doy).2.2 ∧
      (marchDate year doy).2.2 ≤ daysInMonth (marchDate year doy).1 (marchDate year doy).2.1 := by
  obtain ⟨mp, hmp⟩ : ∃ mp, mp = (5 * doy + 2) / 153 := ⟨_, rfl⟩
  rw [marchDate]
  rw [← hmp]
  have hlt : mp < 12 := by omega
  interval_cases mp
  all_goals simp only [daysInMonth, Nat.reduceLT, Nat.reduceAdd, Nat.reduceSub, if_true, if_false]
  all_goals first
    | omega
    | skip
  -- February
  split
  · omega
  · rename_i hnot
    have := mt hleap hnot
    omega

/-- A day of an era. -/
theorem era_split {doe : ℕ} (h : doe < 146097) :
    ∃ c q t doy, c < 4 ∧ q < 25 ∧ t < 4 ∧ doy ≤ 365 ∧
      doe = 36524 * c + 1461 * q + 365 * t + doy ∧ (doy = 365 → t = 3 ∧ (q < 24 ∨ c = 3)) := by
  obtain ⟨c, r, hc, hr, rfl⟩ : ∃ c r, c < 4 ∧ (r < 36524 ∨ r = 36524 ∧ c = 3) ∧
      doe = 36524 * c + r :=
    ⟨min (doe / 36524) 3, doe - 36524 * min (doe / 36524) 3, by omega, by omega, by omega⟩
  obtain ⟨q, s, hq, hs, rfl⟩ : ∃ q s, q < 25 ∧ (s < 1460 ∨ s = 1460 ∧ (q < 24 ∨ c = 3)) ∧
      r = 1461 * q + s := ⟨r / 1461, r % 1461, by omega, by omega, by omega⟩
  obtain ⟨t, k, ht, hk, rfl⟩ : ∃ t k, t < 4 ∧ (k < 365 ∨ k = 365 ∧ t = 3) ∧ s = 365 * t + k :=
    ⟨min (s / 365) 3, s - 365 * min (s / 365) 3, by omega, by omega, by omega⟩
  exact ⟨c, q, t, k, hc, hq, ht, by omega, by omega, by omega⟩

/-- The last day before March is there in leap years. -/
theorem isLeap_of_era {era c q : ℕ} (h : q < 24 ∨ c = 3) (hq : q < 25) :
    isLeap (400 * era + 100 * c + 4 * q + 3 + 1) = true := by
  rw [isLeap_iff]
  omega

end Calendar
