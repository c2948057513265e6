import QueryClauses.Binary64.Basic

/-! The fewest decimal digits that tell a finite number from all others: the decimal on the coarsest
grid of powers of ten that is nearer to the number than to its neighbours. -/

namespace QueryClauses

/-- The number `digits * 10 ^ exponent`. -/
structure Decimal where
  digits : Nat
  exponent : Int
  deriving DecidableEq, Repr

/-- Where a value goes that lies halfway between two decimals. -/
inductive TieRule where
  | toEven | up
  deriving DecidableEq, Repr

namespace Binary64

/-- How `digits * 10 ^ power` compares with `quarters` quarters of the unit of a significand. -/
def compareQuarters (x : Binary64) (digits : Nat) (power : Int) (quarters : Nat) : Ordering :=
  let unit := x.exponent - 2
  compare ((digits * Nat.pow 10 power.toNat) <<< (-unit).toNat)
    ((quarters * Nat.pow 10 (-power).toNat) <<< unit.toNat)

/-- The neighbour below is only half a unit away, as its significand is twice as fine. -/
def narrowBelow (x : Binary64) : Bool := x.significand = 1 <<< 52 && -1074 < x.exponent

/-- A decimal is rounded to the magnitude of this number. -/
def contains (x : Binary64) (digits : Nat) (power : Int) : Bool :=
  let even : Bool := x.significand % 2 = 0
  let lower := if x.narrowBelow then 4 * x.significand - 1 else 4 * x.significand - 2
  let below := x.compareQuarters digits power lower
  let above := x.compareQuarters digits power (4 * x.significand + 2)
  (below == .gt || (even && below == .eq)) && (above == .lt || (even && above == .eq))

/-- The multiple of ten to the power of `power` at or just below the magnitude. -/
def floorOnGrid (x : Binary64) (power : Int) : Nat :=
  (x.significand * Nat.pow 10 (-power).toNat) <<< x.exponent.toNat /
    Nat.pow 10 power.toNat <<< (-x.exponent).toNat

/-- Of the multiples next to the magnitude the one that stands for it, if one does; of two the nearer. -/
def onGrid? (x : Binary64) (tie : TieRule) (power : Int) : Option Nat :=
  let below := x.floorOnGrid power
  match x.contains below power, x.contains (below + 1) power with
  | true, true =>
    match x.compareQuarters (2 * below + 1) power (8 * x.significand) with
    | .lt => some (below + 1)
    | .gt => some below
    | .eq => some (match tie with
      | .toEven => below + below % 2
      | .up => below + 1)
  | true, false => some below
  | false, true => some (below + 1)
  | false, false => none

/-- The first grid with a decimal that stands for the number, from so many powers above the finest one
needed down. -/
def search (x : Binary64) (tie : TieRule) : Nat → Decimal
  | 0 => ⟨(x.onGrid? tie (-324)).getD 0, -324⟩
  | n + 1 =>
    match x.onGrid? tie (n + 1 - 324 : Int) with
    | some digits => ⟨digits, n + 1 - 324⟩
    | none => search x tie n

/-- The shortest decimal for the magnitude of a finite number that is not zero. -/
def shortest (tie : TieRule) (x : Binary64) : Decimal := x.search tie 632

end Binary64

end QueryClauses
