import QueryClauses.Error
import QueryClauses.TimeFormat.Parser
import QueryClauses.TimeFormat.Printer

/-! The text of an instant, by a given description or by the common ones. -/

namespace QueryClauses

namespace TimeFormat

/-- The local date and time to the second. -/
def toSecond : TimeFormat :=
  [.component (.year .zero .full false false), .literal '-', .component (.month .zero .number),
    .literal '-', .component (.day .zero), .literal 'T', .component (.hour .zero false), .literal ':',
    .component (.minute .zero), .literal ':', .component (.second .zero)]

/-- An instant of universal time. -/
def utc : TimeFormat := toSecond ++ [.literal 'Z']

/-- An instant with its offset from universal time to the minute. -/
def withOffset : TimeFormat :=
  toSecond ++ [.component (.offsetHour .zero true), .literal ':', .component (.offsetMinute .zero)]

end TimeFormat

namespace Instant

def defaultText (i : Instant) : String :=
  if i.offset.isUtc then TimeFormat.utc.text i else TimeFormat.withOffset.text i

/-- The text by a description, if one is given; a description that is none is the fault of the field
that has it. -/
def format (i : Instant) (description : Option String) (field : String) : Except Error String :=
  match description with
  | none => .ok i.defaultText
  | some d =>
    match TimeFormat.parse? d with
    | some f => .ok (f.text i)
    | none => .error (.invalidTimeFormat field "no such format")

end Instant

end QueryClauses
