/-!
# The calendar

Dates of the proleptic Gregorian calendar, and their count of days from 1 January 1970. Years are astronomical: year 0 comes before year 1.
-/

namespace NestedMachine

/-- A day of the calendar. -/
structure Date where
  year : Int
  month : Nat
  day : Nat
deriving DecidableEq

namespace Date

/-- The year has 366 days. -/
def isLeap (year : Int) : Bool := year % 4 = 0 && (year % 100 ≠ 0 || year % 400 = 0)

/-- The days of a month. A number that is no month has none. -/
def monthLength (year : Int) : (month : Nat) → Nat
  | 1 | 3 | 5 | 7 | 8 | 10 | 12 => 31
  | 4 | 6 | 9 | 11 => 30
  | 2 => if isLeap year then 29 else 28
  | _ => 0

/-- The month has such a day. -/
def IsValid (date : Date) : Prop := 1 ≤ date.day ∧ date.day ≤ monthLength date.year date.month

instance (date : Date) : Decidable date.IsValid :=
  inferInstanceAs (Decidable (1 ≤ date.day ∧ date.day ≤ monthLength date.year date.month))

/-- The days from the start of year 1 to the start of `year`. -/
def daysBeforeYear (year : Int) : Int :=
  365 * (year - 1) + (year - 1) / 4 - (year - 1) / 100 + (year - 1) / 400

/-- The days from the start of the year to the start of `month`. -/
def daysBeforeMonth (year : Int) : (month : Nat) → Nat
  | 0 => 0
  | month + 1 => daysBeforeMonth year month + monthLength year month

/-- The days from 1 January 1970 to a date. -/
def toDays (date : Date) : Int :=
  daysBeforeYear date.year - daysBeforeYear 1970 + daysBeforeMonth date.year date.month + (date.day - 1)

/-- The date of a day, counted from 1 January 1970. The calendar repeats every 400 years; within such a cycle the years that have begun are counted, and within the year the months. -/
def ofDays (days : Int) : Date :=
  let sinceFirst := days + daysBeforeYear 1970
  let cycle := daysBeforeYear 401
  let inCycle := sinceFirst % cycle
  let year : Nat := 1 + (List.range' 2 399).countP fun (year : Nat) => daysBeforeYear year ≤ inCycle
  let inYear := (inCycle - daysBeforeYear year).toNat
  let month := 1 + (List.range' 2 11).countP fun month => daysBeforeMonth year month ≤ inYear
  ⟨400 * (sinceFirst / cycle) + year, month, inYear - daysBeforeMonth year month + 1⟩

end Date

end NestedMachine
