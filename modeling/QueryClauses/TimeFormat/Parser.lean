import QueryClauses.TimeFormat.Basic

/-! Reading a time format from its description, in which brackets hold the components and a doubled
opening bracket is a literal one. A component is a name and modifiers between blanks, each a key and a
value; the case of their letters does not count, and the last value of a key does. -/

namespace QueryClauses

def Padding.ofText? : String → Option Padding
  | "zero" => some .zero
  | "space" => some .space
  | "none" => some .bare
  | _ => none

def MonthForm.ofText? : String → Option MonthForm
  | "numerical" => some .number
  | "long" => some .long
  | "short" => some .short
  | _ => none

def WeekdayForm.ofText? : String → Option WeekdayForm
  | "long" => some .long
  | "short" => some .short
  | "sunday" => some .sinceSunday
  | "monday" => some .sinceMonday
  | _ => none

def WeekForm.ofText? : String → Option WeekForm
  | "iso" => some .iso
  | "sunday" => some .fromSunday
  | "monday" => some .fromMonday
  | _ => none

def YearForm.ofText? : String → Option YearForm
  | "full" => some .full
  | "century" => some .century
  | "last_two" => some .lastTwo
  | _ => none

def TickUnit.ofText? : String → Option TickUnit
  | "second" => some .second
  | "millisecond" => some .millisecond
  | "microsecond" => some .microsecond
  | "nanosecond" => some .nanosecond
  | _ => none

/-- One of two words, as whether it is the first. -/
def choice? (yes no text : String) : Option Bool :=
  if text = yes then some true else if text = no then some false else none

/-- A number of digits, where `1+` is as many as are needed. -/
def subsecondDigits? (text : String) : Option (Option Nat) :=
  match text.toList with
  | ['1', '+'] => some none
  | [c] => if c.isDigit && c ≠ '0' then some (some (c.toNat - '0'.toNat)) else none
  | _ => none

/-- A count from 1 to 65535, with a plus sign and zeros before it if one likes. -/
def ignoredCount? (text : String) : Option Nat :=
  let digits := match text.toList with
    | '+' :: r => r
    | r => r
  let count := Nat.ofDigitChars 10 digits 0
  if digits.all Char.isDigit && 1 ≤ count && count ≤ 65535 then some count else none

namespace Component

/-- A component in the form that it has without modifiers. -/
def ofName? : String → Option Component
  | "day" => some (.day .zero)
  | "month" => some (.month .zero .number)
  | "ordinal" => some (.ordinal .zero)
  | "weekday" => some (.weekday .long true)
  | "week_number" => some (.weekNumber .zero .iso)
  | "year" => some (.year .zero .full false false)
  | "hour" => some (.hour .zero false)
  | "minute" => some (.minute .zero)
  | "second" => some (.second .zero)
  | "period" => some (.period true)
  | "subsecond" => some (.subsecond none)
  | "offset_hour" => some (.offsetHour .zero false)
  | "offset_minute" => some (.offsetMinute .zero)
  | "offset_second" => some (.offsetSecond .zero)
  | "unix_timestamp" => some (.unixTimestamp .second false)
  | "ignore" => some (.ignore none)
  | "end" => some .finish
  | _ => none

def withPadding (p : Padding) : Component → Option Component
  | day _ => some (.day p)
  | month _ form => some (.month p form)
  | ordinal _ => some (.ordinal p)
  | weekNumber _ form => some (.weekNumber p form)
  | year _ form ofIsoWeek signed => some (.year p form ofIsoWeek signed)
  | hour _ ofTwelve => some (.hour p ofTwelve)
  | minute _ => some (.minute p)
  | second _ => some (.second p)
  | offsetHour _ signed => some (.offsetHour p signed)
  | offsetMinute _ => some (.offsetMinute p)
  | offsetSecond _ => some (.offsetSecond p)
  | _ => none

def withForm (text : String) : Component → Option Component
  | month p _ => (MonthForm.ofText? text).map (.month p)
  | weekday _ oneIndexed => (WeekdayForm.ofText? text).map (.weekday · oneIndexed)
  | weekNumber p _ => (WeekForm.ofText? text).map (.weekNumber p)
  | year p _ ofIsoWeek signed => (YearForm.ofText? text).map (.year p · ofIsoWeek signed)
  | hour p _ => (choice? "12" "24" text).map (.hour p)
  | _ => none

def withSign (signed : Bool) : Component → Option Component
  | year p form ofIsoWeek _ => some (.year p form ofIsoWeek signed)
  | offsetHour p _ => some (.offsetHour p signed)
  | unixTimestamp unit _ => some (.unixTimestamp unit signed)
  | _ => none

/-- Whether names of the component are told apart by case in reading, which writing does not ask. -/
def hasCase : Component → Bool
  | month .. | weekday .. | period _ => true
  | _ => false

/-- The component with one modifier applied, if that modifier is one of its own. -/
def modify (c : Component) (key value : String) : Option Component :=
  match key, c with
  | "padding", c => (Padding.ofText? value).bind c.withPadding
  | "repr", c => c.withForm value
  | "sign", c => (choice? "mandatory" "automatic" value).bind c.withSign
  | "case_sensitive", c => if c.hasCase then (choice? "true" "false" value).map fun _ => c else none
  | "one_indexed", weekday form _ => (choice? "true" "false" value).map (.weekday form)
  | "base", year p form _ signed =>
    (choice? "iso_week" "calendar" value).map (.year p form · signed)
  | "range", c@(year ..) => (choice? "standard" "extended" value).map fun _ => c
  | "case", period _ => (choice? "upper" "lower" value).map .period
  | "digits", subsecond _ => (subsecondDigits? value).map .subsecond
  | "precision", unixTimestamp _ signed => (TickUnit.ofText? value).map (.unixTimestamp · signed)
  | "count", ignore _ => (ignoredCount? value).map fun n => .ignore (some n)
  | "trailing_input", finish => (choice? "prohibit" "discard" value).map fun _ => .finish
  | _, _ => none

/-- The component with the modifier that a word spells: a key, a colon and a value. -/
def modifyBy (c : Component) (word : List Char) : Option Component :=
  let key := word.takeWhile (· ≠ ':')
  match word.dropWhile (· ≠ ':') with
  | ':' :: value => if key.isEmpty || value.isEmpty then none
      else c.modify (String.ofList key) (String.ofList value)
  | _ => none

/-- Nothing that has to be given is missing. -/
def isComplete : Component → Bool
  | ignore none => false
  | _ => true

def isBlank (c : Char) : Bool := c = ' ' || c = '\t' || c = '\n' || c = '\x0c' || c = '\r'

/-- The component that the text between brackets describes. -/
def ofBody? (body : List Char) : Option Component :=
  match ((body.map Char.toLower).splitOnP isBlank).filter (!·.isEmpty) with
  | [] => none
  | name :: modifiers => do
    let plain ← ofName? (String.ofList name)
    let c ← modifiers.foldlM modifyBy plain
    if c.isComplete then some c else none

end Component

namespace TimeFormat

/-- Reads on, outside brackets or after so much of a component, latest character first. -/
def scan : Option (List Char) → List Char → Option TimeFormat
  | none, [] => some []
  | some _, [] => none
  | none, '[' :: '[' :: r => (scan none r).map (.literal '[' :: ·)
  | none, '[' :: r => scan (some []) r
  | none, c :: r => (scan none r).map (.literal c :: ·)
  | some body, ']' :: r =>
    (Component.ofBody? body.reverse).bind fun c => (scan none r).map (.component c :: ·)
  | some body, c :: r => if c = '[' || c = '\\' then none else scan (some (c :: body)) r

def parse? (description : String) : Option TimeFormat := scan none description.toList

end TimeFormat

end QueryClauses
