/-
Days and seconds of the Gregorian calendar.

Years are runs of months and months are runs of days, of different lengths. So
a date is a number with places of different sizes, and dates in order have
numbers in order. Months and days are counted from zero here.
-/

import Mathlib.Order.Monotone.Basic
import Mathlib.Tactic.Linarith

namespace ChangeSql.Calendar

def isLeap (year : Int) : Bool :=
  year % 4 = 0 ∧ (year % 100 ≠ 0 ∨ year % 400 = 0)

/-- The days in front of a year, from the year 0 on. -/
def daysBeforeYear (year : Int) : Int :=
  365 * year + (year + 3) / 4 - (year + 99) / 100 + (year + 399) / 400

def daysInMonth (leap : Bool) (month : Nat) : Int :=
  if month = 1 then if leap then 29 else 28
  else if month = 3 ∨ month = 5 ∨ month = 8 ∨ month = 10 then 30
  else 31

/-- The days in front of a month, from the first of January on. -/
def daysBeforeMonth (leap : Bool) : Nat → Int
  | 0 => 0
  | month + 1 => daysBeforeMonth leap month + daysInMonth leap month

def dayNumber (year : Int) (month : Nat) (day : Int) : Int :=
  daysBeforeYear year + daysBeforeMonth (isLeap year) month + day

def secondNumber (day hour minute second : Int) : Int :=
  ((day * 24 + hour) * 60 + minute) * 60 + second

example : dayNumber 1970 0 0 = 719528 := by decide

/-! ### Places -/

/-- A place begins where the one in front of it ends. Then the place decides
between two numbers, and the rest does so within one place. -/
theorem place_lt_iff (start size : Nat → Int) (next : ∀ n, start (n + 1) = start n + size n)
    (nonneg : ∀ n, 0 ≤ size n) {n m : Nat} {rest other : Int} (restNonneg : 0 ≤ rest)
    (restInside : rest < size n) (otherNonneg : 0 ≤ other) (otherInside : other < size m) :
    start n + rest < start m + other ↔ n < m ∨ n = m ∧ rest < other := by
  have ordered : Monotone start :=
    monotone_nat_of_le_succ fun k => by linarith [next k, nonneg k]
  have before {k l : Nat} (less : k < l) : start k + size k ≤ start l := by
    rw [← next]
    exact ordered less
  rcases Nat.lt_trichotomy n m with less | rfl | greater
  · have ends := before less
    constructor
    · exact fun _ => Or.inl less
    · intro _
      linarith
  · constructor
    · intro smaller
      exact Or.inr ⟨rfl, by linarith⟩
    · rintro (impossible | ⟨_, smaller⟩)
      · exact absurd impossible (Nat.lt_irrefl n)
      · linarith
  · have ends := before greater
    constructor
    · intro smaller
      linarith
    · rintro (less | ⟨same, _⟩)
      · exact absurd less (Nat.lt_asymm greater)
      · exact absurd same.symm (Nat.ne_of_lt greater)

theorem daysInMonth_pos (leap : Bool) (month : Nat) : 0 < daysInMonth leap month := by
  unfold daysInMonth
  split_ifs
  all_goals decide

theorem daysInMonth_le (leap : Bool) (month : Nat) : daysInMonth leap month ≤ 31 := by
  unfold daysInMonth
  split_ifs
  all_goals decide

theorem daysBeforeMonth_nonneg (leap : Bool) (month : Nat) : 0 ≤ daysBeforeMonth leap month := by
  induction month with
  | zero => exact le_rfl
  | succ month ih =>
      have positive := daysInMonth_pos leap month
      change 0 ≤ daysBeforeMonth leap month + daysInMonth leap month
      linarith

theorem daysBeforeMonth_mono (leap : Bool) {month later : Nat} (le : month ≤ later) :
    daysBeforeMonth leap month ≤ daysBeforeMonth leap later := by
  induction later, le using Nat.le_induction with
  | base => exact le_rfl
  | succ later _ ih =>
      have positive := daysInMonth_pos leap later
      change _ ≤ daysBeforeMonth leap later + daysInMonth leap later
      linarith

theorem daysBeforeYear_succ (year : Int) :
    daysBeforeYear (year + 1) = daysBeforeYear year + daysBeforeMonth (isLeap year) 12 := by
  have length : daysBeforeMonth (isLeap year) 12 = if isLeap year then 366 else 365 := by
    cases isLeap year with
    | false => rfl
    | true => rfl
  rw [length]
  unfold daysBeforeYear
  by_cases leap : isLeap year = true
  · rw [if_pos leap]
    unfold isLeap at leap
    rw [decide_eq_true_eq] at leap
    omega
  · rw [if_neg leap]
    unfold isLeap at leap
    rw [decide_eq_true_eq] at leap
    omega

theorem dayOfYear_lt {leap : Bool} {month : Nat} {day : Int} (inYear : month < 12)
    (inMonth : day < daysInMonth leap month) :
    daysBeforeMonth leap month + day < daysBeforeMonth leap 12 := by
  have later : daysBeforeMonth leap (month + 1) ≤ daysBeforeMonth leap 12 :=
    daysBeforeMonth_mono leap inYear
  change daysBeforeMonth leap month + daysInMonth leap month ≤ _ at later
  linarith

/-! ### Dates in order -/

section

variable {year otherYear month otherMonth : Nat} {day otherDay : Int}

theorem dayNumber_lt_iff (inYear : month < 12) (nonneg : 0 ≤ day)
    (inMonth : day < daysInMonth (isLeap year) month) (otherInYear : otherMonth < 12)
    (otherNonneg : 0 ≤ otherDay) (otherInMonth : otherDay < daysInMonth (isLeap otherYear) otherMonth) :
    dayNumber year month day < dayNumber otherYear otherMonth otherDay ↔
      year < otherYear ∨ year = otherYear ∧
        (month < otherMonth ∨ month = otherMonth ∧ day < otherDay) := by
  have years := place_lt_iff (fun year : Nat => daysBeforeYear year)
    (fun year : Nat => daysBeforeMonth (isLeap year) 12)
    (fun year => by exact_mod_cast daysBeforeYear_succ year)
    (fun year => daysBeforeMonth_nonneg _ 12)
    (add_nonneg (daysBeforeMonth_nonneg (isLeap year) month) nonneg) (dayOfYear_lt inYear inMonth)
    (add_nonneg (daysBeforeMonth_nonneg (isLeap otherYear) otherMonth) otherNonneg)
    (dayOfYear_lt otherInYear otherInMonth)
  unfold dayNumber
  rw [add_assoc, add_assoc, years]
  apply or_congr_right
  apply and_congr_right
  rintro rfl
  exact place_lt_iff (daysBeforeMonth (isLeap year)) (daysInMonth (isLeap year)) (fun _ => rfl)
    (fun month => (daysInMonth_pos _ month).le) nonneg inMonth otherNonneg otherInMonth

end

theorem secondNumber_lt_iff {day hour minute second day' hour' minute' second' : Int}
    (hours : 0 ≤ hour ∧ hour < 24) (minutes : 0 ≤ minute ∧ minute < 60)
    (seconds : 0 ≤ second ∧ second < 60) (hours' : 0 ≤ hour' ∧ hour' < 24)
    (minutes' : 0 ≤ minute' ∧ minute' < 60) (seconds' : 0 ≤ second' ∧ second' < 60) :
    secondNumber day hour minute second < secondNumber day' hour' minute' second' ↔
      day < day' ∨ day = day' ∧ (hour < hour' ∨ hour = hour' ∧
        (minute < minute' ∨ minute = minute' ∧ second < second')) := by
  unfold secondNumber
  omega

end ChangeSql.Calendar
