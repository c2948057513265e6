import QueryClauses.Calendar.Date
import QueryClauses.Numeral.Value
import QueryClauses.Text.Hex
import QueryClauses.Toml.Basic

/-! Words that stand for truth values, numbers, dates and times of day. -/

namespace QueryClauses

namespace Numeral

/-- The number nearest to a numeral, unless it is beyond the finite ones. -/
def nearest? (n : Numeral) : Option Binary64 :=
  let digits := Nat.ofDigitChars 10 (n.whole ++ n.fraction) 0
  let power := n.exponent.getD 0 - n.fraction.length
  let lead := (Nat.toDigits 10 digits).length - 1 + power
  if digits = 0 || lead < -324 then some (.ofRatio n.negative 0 1)
  else if 308 < lead then none
  else
    let x := Binary64.ofRatio n.negative (digits * Nat.pow 10 power.toNat) (Nat.pow 10 (-power).toNat)
    if x.isFinite then some x else none

end Numeral

namespace TomlScalar

/-- The digits without the underscores between them, if each underscore is between two digits. -/
def withoutUnderscores? (isDigit : Char → Bool) : List Char → Option (List Char)
  | [] => some []
  | '_' :: _ => none
  | a :: '_' :: r@(b :: _) =>
    if isDigit a && isDigit b then (withoutUnderscores? isDigit r).map (a :: ·) else none
  | a :: r => (withoutUnderscores? isDigit r).map (a :: ·)

/-- An unsigned number in another base, behind the letter that marks it. -/
def inBase? (base : Nat) (digits : List Char) : Option Nat := do
  let ds ← withoutUnderscores? (fun c => (Hex.value? c).isSome) digits
  if ds.isEmpty then none
  else ds.foldlM (fun n c => (Hex.value? c).bind fun d => if d < base then some (n * base + d) else none) 0

/-- Integers of 128 bits, with a sign or without. -/
def integer? (n : Int) : Option Toml := if -(1 <<< 127) ≤ n && n < 1 <<< 128 then some (.integer n) else none

def sign : List Char → Bool × List Char
  | '-' :: r => (true, r)
  | '+' :: r => (false, r)
  | r => (false, r)

def infinity : Binary64 := .ofMagnitude false Binary64.infinity

def notANumber : Binary64 := .ofMagnitude false (Binary64.infinity + 1 <<< 51)

def decimal? (word : List Char) : Option Toml := do
  let (negative, r) := sign word
  let (n, rest) ← Numeral.scan? (← withoutUnderscores? Char.isDigit r)
  if n.negative || !rest.isEmpty then none
  else if n.isInteger then integer? (if negative then -n.toNat else n.toNat)
  else (Numeral.nearest? { n with negative }).map .float

def number? (word : List Char) : Option Toml :=
  match word with
  | '0' :: 'x' :: ds => (inBase? 16 ds).bind fun n => integer? n
  | '0' :: 'o' :: ds => (inBase? 8 ds).bind fun n => integer? n
  | '0' :: 'b' :: ds => (inBase? 2 ds).bind fun n => integer? n
  | _ =>
    match sign word with
    | (negative, ['i', 'n', 'f']) => some (.float (infinity.negated negative))
    | (negative, ['n', 'a', 'n']) => some (.float (notANumber.negated negative))
    | _ => decimal? word

/-- Exactly so many digits and what is behind them. -/
def digits? (count : Nat) (s : List Char) : Option (Nat × List Char) :=
  let ds := s.take count
  if ds.length = count && ds.all Char.isDigit then some (Nat.ofDigitChars 10 ds 0, s.drop count) else none

def expect? (c : Char) : List Char → Option (List Char)
  | d :: r => if d = c then some r else none
  | [] => none

def date? (s : List Char) : Option (List Char) := do
  let (year, r) ← digits? 4 s
  let (month, r) ← digits? 2 (← expect? '-' r)
  let (day, r) ← digits? 2 (← expect? '-' r)
  if (Date.ofYMD? year month day).isSome then some r else none

/-- A time of day, in which a minute may have a leap second. -/
def clock? (s : List Char) : Option (List Char) := do
  let (hour, r) ← digits? 2 s
  let (minute, r) ← digits? 2 (← expect? ':' r)
  let (second, r) ← digits? 2 (← expect? ':' r)
  let (_, r) ← Numeral.scanFraction? r
  if hour ≤ 23 && minute ≤ 59 && second ≤ 60 then some r else none

def isOffset : List Char → Bool
  | [] | ['Z'] | ['z'] => true
  | c :: r =>
    (c = '+' || c = '-') && ((do
      let (hour, r) ← digits? 2 r
      let (minute, r) ← digits? 2 (← expect? ':' r)
      some (hour ≤ 23 && minute ≤ 59 && r.isEmpty)) : Option Bool).getD false

/-- A date, a time of day, or a date and a time with an offset or without. -/
def isMoment (word : List Char) : Bool :=
  match date? word with
  | some [] => true
  | some (c :: r) => (c = 'T' || c = 't' || c = ' ') && (clock? r).any isOffset
  | none => (clock? word).any (·.isEmpty)

def ofWord? (word : List Char) : Option Toml :=
  if word = ['t', 'r', 'u', 'e'] then some (.boolean true)
  else if word = ['f', 'a', 'l', 's', 'e'] then some (.boolean false)
  else if isMoment word then some (.moment (String.ofList word))
  else number? word

def isWordChar (c : Char) : Bool := c.isAlphanum || c = '+' || c = '-' || c = '.' || c = '_' || c = ':'

/-- A word and what is behind it. Between a date and a time of day there may be a space. -/
def scan? (s : List Char) : Option (Toml × List Char) :=
  let word := s.takeWhile isWordChar
  let r := s.dropWhile isWordChar
  let (word, r) := match date? word, r with
    | some [], ' ' :: d :: _ =>
      if d.isDigit then (word ++ ' ' :: r.tail.takeWhile isWordChar, r.tail.dropWhile isWordChar) else (word, r)
    | _, _ => (word, r)
  (ofWord? word).map fun v => (v, r)

end TomlScalar

end QueryClauses
