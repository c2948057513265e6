/-! Binary floating-point numbers of 64 bits, as their bits: a sign, eleven bits of exponent and 52 of
fraction. A quotient of natural numbers is rounded to the nearest of them. -/

namespace QueryClauses

structure Binary64 where
  bits : UInt64
  deriving DecidableEq, Repr

namespace Binary64

def isNegative (x : Binary64) : Bool := 1 <<< 63 ≤ x.bits.toNat

/-- The bits without the sign. Numbers of one sign are ordered by them. -/
def magnitude (x : Binary64) : Nat := x.bits.toNat % 1 <<< 63

/-- The magnitude of the infinities; those above it are no numbers. -/
def infinity : Nat := 2047 <<< 52

def isNaN (x : Binary64) : Bool := infinity < x.magnitude

def isFinite (x : Binary64) : Bool := x.magnitude < infinity

/-- Either of the two zeros. -/
def isZero (x : Binary64) : Bool := x.magnitude = 0

/-- Equality as numbers: the zeros are equal, and what is no number is equal to nothing. -/
def numEq (x y : Binary64) : Bool := !x.isNaN && !y.isNaN && (x = y || (x.isZero && y.isZero))

/-- The significand of a finite number, in units of two to the power of `exponent`. -/
def significand (x : Binary64) : Nat :=
  if x.magnitude < 1 <<< 52 then x.magnitude else x.magnitude % 1 <<< 52 + 1 <<< 52

def exponent (x : Binary64) : Int := (max (x.magnitude >>> 52) 1 : Nat) - 1075

def ofMagnitude (negative : Bool) (magnitude : Nat) : Binary64 :=
  ⟨.ofNat (magnitude + if negative then 1 <<< 63 else 0)⟩

/-- A quotient rounded to the nearest natural number, a tie to the even one. -/
def roundQuotient (num den : Nat) : Nat :=
  let q := num / den
  let r := num % den
  if 2 * r < den then q else if den < 2 * r then q + 1 else q + q % 2

/-- The greatest integer `e` with two to the power of `e` at most `num / den`, if both are positive. -/
def floorLog2 (num den : Nat) : Int :=
  let e : Int := (num.log2 : Int) - den.log2
  if den <<< e.toNat ≤ num <<< (-e).toNat then e else e - 1

/-- The magnitude nearest to a quotient, a tie going to the even significand; from half a unit above
the greatest finite number on, it is that of infinity. -/
def nearest (num den : Nat) : Nat :=
  if num = 0 then 0
  else
    let unit := max (floorLog2 num den - 52) (-1074)
    let m := roundQuotient (num <<< (-unit).toNat) (den <<< unit.toNat)
    min ((unit + 1074).toNat <<< 52 + m) infinity

/-- The numerator and the denominator of the magnitude of a finite number. -/
def ratio (x : Binary64) : Nat × Nat :=
  (x.significand <<< x.exponent.toNat, 1 <<< (-x.exponent).toNat)

def ofRatio (negative : Bool) (num den : Nat) : Binary64 := ofMagnitude negative (nearest num den)

/-- The product of two finite magnitudes. -/
def mulMagnitude (x y : Binary64) : Binary64 :=
  ofRatio false (x.ratio.1 * y.ratio.1) (x.ratio.2 * y.ratio.2)

/-- The quotient of two finite magnitudes, the second not zero. -/
def divMagnitude (x y : Binary64) : Binary64 :=
  ofRatio false (x.ratio.1 * y.ratio.2) (x.ratio.2 * y.ratio.1)

end Binary64

end QueryClauses
