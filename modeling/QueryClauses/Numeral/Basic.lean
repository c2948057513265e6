/-! Numbers as they are written: decimal digits, perhaps a fraction, perhaps a power of ten. -/

namespace QueryClauses

structure Numeral where
  negative : Bool
  /-- The digits before the point, without superfluous zeros. -/
  whole : List Char
  /-- The digits behind the point; without any there is no point either. -/
  fraction : List Char
  exponent : Option Int
  deriving DecidableEq, Repr

namespace Numeral

def ofNat (n : Nat) : Numeral := ⟨false, Nat.toDigits 10 n, [], none⟩

def ofInt (n : Int) : Numeral := { ofNat n.natAbs with negative := n < 0 }

/-- It has neither a fraction nor a power of ten. -/
def isInteger (n : Numeral) : Bool := n.fraction.isEmpty && n.exponent.isNone

def digitValue (c : Char) : Nat := c.toNat - '0'.toNat

/-- A power of ten, its sign always written. -/
def exponentChars (e : Int) : List Char :=
  'e' :: (if e < 0 then '-' else '+') :: Nat.toDigits 10 e.natAbs

def chars (n : Numeral) : List Char :=
  (if n.negative then ['-'] else []) ++ n.whole ++
    (if n.fraction.isEmpty then [] else '.' :: n.fraction) ++
    (match n.exponent with
      | some e => exponentChars e
      | none => [])

def text (n : Numeral) : String := String.ofList n.chars

/-- The digits at the front and what is behind them. -/
def scanDigits (s : List Char) : List Char × List Char :=
  (s.takeWhile Char.isDigit, s.dropWhile Char.isDigit)

/-- Digits at the front, of which there has to be one. -/
def scanSomeDigits? (s : List Char) : Option (List Char × List Char) :=
  match scanDigits s with
  | ([], _) => none
  | (ds, r) => some (ds, r)

/-- Digits that do not begin with a zero, or a zero alone. -/
def scanWhole? (s : List Char) : Option (List Char × List Char) :=
  match scanSomeDigits? s with
  | some (['0'], r) => some (['0'], r)
  | some ('0' :: _, _) => none
  | found => found

def scanFraction? : List Char → Option (List Char × List Char)
  | '.' :: r => scanSomeDigits? r
  | s => some ([], s)

def scanExponent? : List Char → Option (Option Int × List Char)
  | c :: r =>
    if c = 'e' || c = 'E' then
      let (negative, r) : Bool × List Char := match r with
        | '-' :: r => (true, r)
        | '+' :: r => (false, r)
        | r => (false, r)
      (scanSomeDigits? r).map fun (ds, r) =>
        let n : Int := Nat.ofDigitChars 10 ds 0
        (some (if negative then -n else n), r)
    else some (none, c :: r)
  | [] => some (none, [])

/-- A numeral at the front and what is behind it. -/
def scan? (s : List Char) : Option (Numeral × List Char) := do
  let (negative, r) : Bool × List Char := match s with
    | '-' :: r => (true, r)
    | r => (false, r)
  let (whole, r) ← scanWhole? r
  let (fraction, r) ← scanFraction? r
  let (exponent, r) ← scanExponent? r
  some (⟨negative, whole, fraction, exponent⟩, r)

end Numeral

end QueryClauses
