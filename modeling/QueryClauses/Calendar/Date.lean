/-! Days of the Gregorian calendar, reckoned backwards beyond its introduction and with a year zero.
Each day has a number, a place in its year, in its week and in the weeks of a year. -/

namespace QueryClauses

def isLeapYear (year : Int) : Bool := year % 4 = 0 && (year % 100 ≠ 0 || year % 400 = 0)

def daysInYear (year : Int) : Nat := if isLeapYear year then 366 else 365

def daysInMonth (year : Int) : Nat → Nat
  | 2 => if isLeapYear year then 29 else 28
  | 4 | 6 | 9 | 11 => 30
  | _ => 31

/-- The days of a year before a month. -/
def daysBeforeMonth (year : Int) : Nat → Nat
  | 0 | 1 => 0
  | month + 2 => daysBeforeMonth year (month + 1) + daysInMonth year (month + 1)

/-- The days from the first day of the year 1 to the first day of a year. -/
def daysBeforeYear (year : Int) : Int :=
  365 * (year - 1) + (year - 1) / 4 - (year - 1) / 100 + (year - 1) / 400

structure Date where
  year : Int
  month : Nat
  day : Nat
  month_pos : 1 ≤ month := by decide
  month_le : month ≤ 12 := by decide
  day_pos : 1 ≤ day := by decide
  day_le : day ≤ daysInMonth year month := by decide
  deriving DecidableEq, Repr

namespace Date

def ofYMD? (year : Int) (month day : Nat) : Option Date :=
  if h : (1 ≤ month ∧ month ≤ 12) ∧ 1 ≤ day ∧ day ≤ daysInMonth year month then
    some ⟨year, month, day, h.1.1, h.1.2, h.2.1, h.2.2⟩
  else none

/-- The place of the day in its year, from one. -/
def ordinal (d : Date) : Nat := daysBeforeMonth d.year d.month + d.day

/-- The days since the first day of the year 1. -/
def number (d : Date) : Int := daysBeforeYear d.year + d.ordinal - 1

/-- The days since the latest Monday. The year 1 began on one. -/
def daysFromMonday (d : Date) : Nat := (d.number % 7).toNat

/-- The days since the latest Sunday. -/
def daysFromSunday (d : Date) : Nat := (d.daysFromMonday + 1) % 7

/-- The week of the year in which the first Monday of the year begins week one. -/
def mondayWeek (d : Date) : Nat := (d.ordinal + 6 - d.daysFromMonday) / 7

/-- The week of the year in which the first Sunday of the year begins week one. -/
def sundayWeek (d : Date) : Nat := (d.ordinal + 6 - d.daysFromSunday) / 7

/-- The year of the ISO week of a day and the number of that week. A week belongs to the year of its
Thursday. -/
def isoWeek (d : Date) : Int × Nat :=
  let thursday : Int := d.ordinal + 3 - d.daysFromMonday
  let (year, ordinal) :=
    if thursday < 1 then (d.year - 1, thursday + daysInYear (d.year - 1))
    else if thursday > daysInYear d.year then (d.year + 1, thursday - daysInYear d.year)
    else (d.year, thursday)
  (year, ((ordinal - 1) / 7 + 1).toNat)

end Date

end QueryClauses
