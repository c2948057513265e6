import QueryClauses.Calendar.Instant
import QueryClauses.TimeFormat.Basic

/-! Writing an instant by a time format. Every component is taken from the calendar and the clock of
the instant's own place, apart from the count of seconds since 1970. -/

namespace QueryClauses

namespace Padding

/-- A number in at least so many characters. -/
def pad (p : Padding) (width n : Nat) : String :=
  let digits := Nat.toDigits 10 n
  String.ofList (match p with
    | zero => digits.leftpad width '0'
    | space => digits.leftpad width ' '
    | bare => digits)

end Padding

def monthName : Nat → String
  | 1 => "January" | 2 => "February" | 3 => "March" | 4 => "April" | 5 => "May" | 6 => "June"
  | 7 => "July" | 8 => "August" | 9 => "September" | 10 => "October" | 11 => "November"
  | _ => "December"

/-- The name of the day so many days after a Monday. -/
def weekdayName : Nat → String
  | 0 => "Monday" | 1 => "Tuesday" | 2 => "Wednesday" | 3 => "Thursday" | 4 => "Friday"
  | 5 => "Saturday" | _ => "Sunday"

/-- The first three letters of a name. -/
def shortName (name : String) : String := String.ofList (name.toList.take 3)

def signText (negative signed : Bool) : String := if negative then "-" else if signed then "+" else ""

def nanosecondsPer : TickUnit → Nat
  | .second => 1000000000
  | .millisecond => 1000000
  | .microsecond => 1000
  | .nanosecond => 1

namespace Component

def yearText (p : Padding) (form : YearForm) (signed : Bool) (year : Int) : String :=
  match form with
  | .full => signText (year < 0) signed ++ p.pad 4 year.natAbs
  | .century => signText (year < 0) signed ++ p.pad 2 (year.natAbs / 100)
  | .lastTwo => p.pad 2 (year.natAbs % 100)

/-- The leading digits of a fraction of nine digits. -/
def fractionText (digits : Option Nat) (nanosecond : Nat) : String :=
  let all := (Nat.toDigits 10 nanosecond).leftpad 9 '0'
  String.ofList (match digits with
    | some n => all.take n
    | none => all.take 1 ++ ((all.drop 1).reverse.dropWhile (· = '0')).reverse)

/-- The count of units since the epoch: seconds are rounded down, finer units toward the epoch. -/
def unixTicks (unit : TickUnit) (i : Instant) : Int :=
  match unit with
  | .second => i.epochSeconds
  | _ => i.epochNanoseconds.tdiv (nanosecondsPer unit)

def unixText (unit : TickUnit) (signed : Bool) (i : Instant) : String :=
  let ticks := unixTicks unit i
  signText (ticks < 0) signed ++ Padding.bare.pad 1 ticks.natAbs

def text (i : Instant) : Component → String
  | day p => p.pad 2 i.date.day
  | month p .number => p.pad 2 i.date.month
  | month _ .long => monthName i.date.month
  | month _ .short => shortName (monthName i.date.month)
  | ordinal p => p.pad 3 i.date.ordinal
  | weekday .long _ => weekdayName i.date.daysFromMonday
  | weekday .short _ => shortName (weekdayName i.date.daysFromMonday)
  | weekday .sinceSunday oneIndexed => Padding.bare.pad 1 (i.date.daysFromSunday + oneIndexed.toNat)
  | weekday .sinceMonday oneIndexed => Padding.bare.pad 1 (i.date.daysFromMonday + oneIndexed.toNat)
  | weekNumber p .iso => p.pad 2 i.date.isoWeek.2
  | weekNumber p .fromSunday => p.pad 2 i.date.sundayWeek
  | weekNumber p .fromMonday => p.pad 2 i.date.mondayWeek
  | year p form ofIsoWeek signed =>
    yearText p form signed (if ofIsoWeek then i.date.isoWeek.1 else i.date.year)
  | hour p false => p.pad 2 i.time.hour
  | hour p true => p.pad 2 ((i.time.hour.val + 11) % 12 + 1)
  | minute p => p.pad 2 i.time.minute
  | second p => p.pad 2 i.time.second
  | period upper =>
    if i.time.hour.val < 12 then (if upper then "AM" else "am") else if upper then "PM" else "pm"
  | subsecond digits => fractionText digits i.time.nanosecond
  | offsetHour p signed => signText i.offset.isNegative signed ++ p.pad 2 i.offset.hours
  | offsetMinute p => p.pad 2 i.offset.minutes
  | offsetSecond p => p.pad 2 i.offset.secondsPastMinute
  | unixTimestamp unit signed => unixText unit signed i
  | ignore _ => ""
  | finish => ""

end Component

namespace FormatItem

def text (i : Instant) : FormatItem → String
  | literal c => c.toString
  | component c => c.text i

end FormatItem

namespace TimeFormat

def text (f : TimeFormat) (i : Instant) : String := String.join (f.map (·.text i))

end TimeFormat

end QueryClauses
