import Mathlib.Algebra.BigOperators.Intervals
import Mathlib.Tactic.Common

/-!
# The Gregorian calendar

The days of a year are counted from the lengths of its months, and the days of an era from the
lengths of its years.
-/

namespace UtSystems.Lib.Calendar

open Finset

set_option autoImplicit false

/-- Every fourth year, but of the centuries only every fourth. -/
def isLeap (year : Nat) : Bool := year % 4 = 0 && (year % 100 ≠ 0 || year % 400 = 0)

def monthDays (year month : Nat) : Nat :=
  if month = 2 then if isLeap year then 29 else 28
  else if month = 4 ∨ month = 6 ∨ month = 9 ∨ month = 11 then 30
  else 31

def yearDays (year : Nat) : Nat := ∑ month ∈ Ico 1 13, monthDays year month

/-- A date, and a time of that day. -/
structure Moment where
  year : Nat
  month : Nat
  day : Nat
  hour : Nat
  minute : Nat
  second : Nat
  isMonth : 1 ≤ month ∧ month ≤ 12
  isDay : 1 ≤ day ∧ day ≤ monthDays year month
  isHour : hour < 24
  isMinute : minute < 60
  isSecond : second < 60

/-- The days from the first of January of the year `era` to the first of the month. -/
def daysBefore (era year month : Nat) : Nat :=
  (∑ y ∈ Ico era year, yearDays y) + ∑ m ∈ Ico 1 month, monthDays year m

def Moment.daysSince (era : Nat) (moment : Moment) : Nat :=
  daysBefore era moment.year moment.month + (moment.day - 1)

def Moment.secondsSince (era : Nat) (moment : Moment) : Nat :=
  ((moment.daysSince era * 24 + moment.hour) * 60 + moment.minute) * 60 + moment.second

theorem year_days (year : Nat) : yearDays year = if isLeap year then 366 else 365 := by
  unfold yearDays monthDays
  cases isLeap year with
  | true => rfl
  | false => rfl

theorem month_days_le (year month : Nat) : monthDays year month ≤ 31 := by
  unfold monthDays
  split
  · split
    · decide
    · decide
  · split
    · decide
    · exact Nat.le_refl _

theorem day_le (moment : Moment) : moment.day ≤ 31 :=
  Nat.le_trans moment.isDay.2 (month_days_le _ _)

theorem days_before_month (era year month : Nat) :
    daysBefore era year month = daysBefore era year 1 + ∑ m ∈ Ico 1 month, monthDays year m := by
  unfold daysBefore
  rw [Ico_self, sum_empty, Nat.add_zero]

/-- The days before a later year. -/
theorem days_before_year {era year : Nat} (later : era ≤ year) :
    daysBefore era (year + 1) 1 = daysBefore era year 1 + yearDays year := by
  unfold daysBefore
  rw [sum_Ico_succ_top later, Ico_self, sum_empty, Nat.add_zero]
  rfl

end UtSystems.Lib.Calendar
