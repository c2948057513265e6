import QueryClauses.Binary64.Shortest
import QueryClauses.Numeral.Basic

/-! Finite floating-point numbers written out with the fewest digits that tell them apart. -/

namespace QueryClauses

/-- The choices left open by the digits. -/
structure FloatLayout where
  tie : TieRule
  /-- Whether a number whose first digit has this power of ten is written without a power of ten. -/
  isPositional : Int → Bool
  /-- Whether an integer gets a point and a zero. -/
  pointZero : Bool

/-- A float among texts is always positional, and an integer is written as one. -/
def FloatLayout.plain : FloatLayout := ⟨.up, fun _ => true, false⟩

/-- A float among data is never mistaken for an integer, and neither many zeros nor many digits that
do not matter are written. -/
def FloatLayout.data : FloatLayout := ⟨.toEven, fun e => -5 ≤ e && e ≤ 15, true⟩

namespace FloatLayout

def zeros (n : Nat) : List Char := List.replicate n '0'

/-- The fraction of an integer. -/
def integerFraction (l : FloatLayout) : List Char := if l.pointZero then ['0'] else []

/-- The numeral of given digits, the last of them with the given power of ten. -/
def arrange (l : FloatLayout) (negative : Bool) (digits : List Char) (power : Int) : Numeral :=
  let lead := digits.length - 1 + power
  if l.isPositional lead then
    if 0 ≤ power then ⟨negative, digits ++ zeros power.toNat, l.integerFraction, none⟩
    else if 0 ≤ lead then
      ⟨negative, digits.take (lead.toNat + 1), digits.drop (lead.toNat + 1), none⟩
    else ⟨negative, ['0'], zeros (-lead - 1).toNat ++ digits, none⟩
  else ⟨negative, digits.take 1, digits.drop 1, some lead⟩

/-- The numeral of a finite number. -/
def numeral (l : FloatLayout) (x : Binary64) : Numeral :=
  if x.isZero then ⟨x.isNegative, ['0'], l.integerFraction, none⟩
  else
    let d := x.shortest l.tie
    l.arrange x.isNegative (Nat.toDigits 10 d.digits) d.exponent

end FloatLayout

end QueryClauses
