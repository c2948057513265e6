/-! What a time format asks for: literal characters and components of an instant, each with the form
in which it is written. -/

namespace QueryClauses

inductive Padding where
  | zero | space | bare
  deriving DecidableEq, Repr

inductive MonthForm where
  | number | long | short
  deriving DecidableEq, Repr

inductive WeekdayForm where
  | long | short | sinceSunday | sinceMonday
  deriving DecidableEq, Repr

inductive WeekForm where
  | iso | fromSunday | fromMonday
  deriving DecidableEq, Repr

inductive YearForm where
  | full | century | lastTwo
  deriving DecidableEq, Repr

inductive TickUnit where
  | second | millisecond | microsecond | nanosecond
  deriving DecidableEq, Repr

inductive Component where
  | day (padding : Padding)
  | month (padding : Padding) (form : MonthForm)
  | ordinal (padding : Padding)
  | weekday (form : WeekdayForm) (oneIndexed : Bool)
  | weekNumber (padding : Padding) (form : WeekForm)
  | year (padding : Padding) (form : YearForm) (ofIsoWeek signed : Bool)
  | hour (padding : Padding) (ofTwelve : Bool)
  | minute (padding : Padding)
  | second (padding : Padding)
  | period (upper : Bool)
  /-- The leading digits of the fraction: so many, or as many as are needed. -/
  | subsecond (digits : Option Nat)
  | offsetHour (padding : Padding) (signed : Bool)
  | offsetMinute (padding : Padding)
  | offsetSecond (padding : Padding)
  | unixTimestamp (unit : TickUnit) (signed : Bool)
  /-- Characters passed over in reading; it writes nothing, but the count has to be given. -/
  | ignore (count : Option Nat)
  /-- The end of the text in reading; it writes nothing. -/
  | finish
  deriving DecidableEq, Repr

inductive FormatItem where
  | literal (c : Char)
  | component (component : Component)
  deriving DecidableEq, Repr

/-- A time format, in the order of writing. -/
abbrev TimeFormat := List FormatItem

end QueryClauses
