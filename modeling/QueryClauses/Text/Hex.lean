/-! Hexadecimal digits. -/

namespace QueryClauses.Hex

def value? (c : Char) : Option Nat :=
  if c.isDigit then some (c.toNat - '0'.toNat)
  else if 'a' ≤ c && c ≤ 'f' then some (c.toNat - 'a'.toNat + 10)
  else if 'A' ≤ c && c ≤ 'F' then some (c.toNat - 'A'.toNat + 10)
  else none

/-- The number that the digits spell. -/
def number? (ds : List Char) : Option Nat := ds.foldlM (fun n c => (value? c).map (n * 16 + ·)) 0

/-- The two lower-case digits of a number below 256. -/
def lowerPair (n : Nat) : List Char := [Nat.digitChar (n / 16), Nat.digitChar (n % 16)]

/-- The two upper-case digits of a number below 256. -/
def upperPair (n : Nat) : List Char := (lowerPair n).map Char.toUpper

end QueryClauses.Hex
