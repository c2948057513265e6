import QueryClauses.Binary64.Basic
import QueryClauses.Numeral.Basic

/-! The floating-point number for a numeral. Of its digits those count that fit into 64 bits, and they
are scaled by one rounded power of ten, so the result may be a unit off the nearest number. -/

namespace QueryClauses

namespace Binary64

def ofNat (n : Nat) : Binary64 := ofRatio false n 1

def powerOfTen (n : Nat) : Binary64 := ofNat (Nat.pow 10 n)

/-- The greatest power of ten that is finite. -/
def maxPower : Nat := 308

/-- Divides by a power of ten; by several, the greatest first, if one is not enough. -/
def scaleDown (x : Binary64) (n : Nat) : Binary64 :=
  if n ≤ maxPower then x.divMagnitude (powerOfTen n)
  else if x.isZero then x
  else scaleDown (x.divMagnitude (powerOfTen maxPower)) (n - maxPower)
termination_by n
decreasing_by simp only [maxPower] at *; omega

/-- Multiplies by a power of ten, if the result is finite. -/
def scaleUp? (x : Binary64) (n : Nat) : Option Binary64 :=
  if x.isZero then some x
  else if n ≤ maxPower then
    let product := x.mulMagnitude (powerOfTen n)
    if product.isFinite then some product else none
  else none

def scale? (x : Binary64) : Int → Option Binary64
  | .ofNat n => x.scaleUp? n
  | .negSucc n => some (x.scaleDown (n + 1))

def negated (x : Binary64) (negative : Bool) : Binary64 := ofMagnitude negative x.magnitude

end Binary64

namespace Numeral

/-- The greatest significand that is kept. -/
def maxSignificand : Nat := 1 <<< 64 - 1

/-- Appends digits to a significand for as long as they fit, and gives back those left over. -/
def fill : Nat → List Char → Nat × List Char
  | n, [] => (n, [])
  | n, c :: r => if n * 10 + digitValue c ≤ maxSignificand then fill (n * 10 + digitValue c) r else (n, c :: r)

/-- The significand and the power of ten that scales it. Digits left over before the point count as
zeros, those behind it not at all. -/
def parts (n : Numeral) : Nat × Int :=
  let (significand, left) := fill 0 n.whole
  let (significand, dropped) := fill significand n.fraction
  (significand, left.length + dropped.length - n.fraction.length + n.exponent.getD 0)

/-- The floating-point number, unless it is beyond the finite ones. -/
def toBinary64? (n : Numeral) : Option Binary64 :=
  ((Binary64.ofNat n.parts.1).scale? n.parts.2).map (·.negated n.negative)

def toNat (n : Numeral) : Nat := Nat.ofDigitChars 10 n.whole 0

/-- The integer of 64 bits, if it is one. Zero with a minus sign is not. -/
def toInt64? (n : Numeral) : Option Int64 :=
  if !n.isInteger then none
  else if n.negative then
    if n.toNat ≠ 0 && n.toNat ≤ 1 <<< 63 then some (.ofInt (-n.toNat)) else none
  else if n.toNat < 1 <<< 63 then some (.ofNat n.toNat)
  else none

end Numeral

end QueryClauses
