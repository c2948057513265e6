import QueryClauses.Calendar.Date

/-! Moments, told by the calendar and the clock of a place that is some seconds ahead of universal
time or behind it. -/

namespace QueryClauses

structure ClockTime where
  hour : Fin 24
  minute : Fin 60
  second : Fin 60
  nanosecond : Fin 1000000000
  deriving DecidableEq, Repr

namespace ClockTime

def midnight : ClockTime := ⟨0, 0, 0, 0⟩

/-- The whole seconds since midnight. -/
def seconds (t : ClockTime) : Nat := t.hour * 3600 + t.minute * 60 + t.second

end ClockTime

/-- How far a clock is ahead of universal time: less than 26 hours either way. -/
structure UtcOffset where
  seconds : Int
  bound : seconds.natAbs < 93600 := by decide
  deriving DecidableEq, Repr

namespace UtcOffset

def utc : UtcOffset := ⟨0, by decide⟩

def isUtc (o : UtcOffset) : Bool := o.seconds = 0

def isNegative (o : UtcOffset) : Bool := o.seconds < 0

/-- The whole hours, whatever the sign. -/
def hours (o : UtcOffset) : Nat := o.seconds.natAbs / 3600

def minutes (o : UtcOffset) : Nat := o.seconds.natAbs / 60 % 60

def secondsPastMinute (o : UtcOffset) : Nat := o.seconds.natAbs % 60

end UtcOffset

structure Instant where
  date : Date
  time : ClockTime
  offset : UtcOffset
  deriving DecidableEq, Repr

namespace Instant

/-- The whole seconds of universal time since the year 1970 began, rounded down. -/
def epochSeconds (i : Instant) : Int :=
  (i.date.number - 719162) * 86400 + i.time.seconds - i.offset.seconds

/-- The point in time itself, in nanoseconds of universal time since the year 1970 began. -/
def epochNanoseconds (i : Instant) : Int := i.epochSeconds * 1000000000 + i.time.nanosecond.val

/-- Both are the same point in time. -/
def coincides (i j : Instant) : Bool := i.epochNanoseconds = j.epochNanoseconds

/-- The instant of a range that was never set: when the year 1 began. -/
def zero : Instant := ⟨{ year := 1, month := 1, day := 1 }, .midnight, .utc⟩

end Instant

structure TimeRange where
  lower : Instant
  upper : Instant
  deriving DecidableEq, Repr

namespace TimeRange

def zero : TimeRange := ⟨.zero, .zero⟩

def isZero (r : TimeRange) : Bool := r.lower.coincides .zero && r.upper.coincides .zero

def coincides (r s : TimeRange) : Bool := r.lower.coincides s.lower && r.upper.coincides s.upper

end TimeRange

end QueryClauses
