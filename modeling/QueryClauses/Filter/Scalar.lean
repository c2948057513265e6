import QueryClauses.Json.Basic
import QueryClauses.Numeral.Layout
import QueryClauses.Numeral.Value

/-! Values that a query parameter can have, their text and their JSON. -/

namespace QueryClauses

inductive Scalar where
  | string (s : String)
  | bool (b : Bool)
  | int (n : Int64)
  | float (x : Binary64)
  deriving DecidableEq

namespace Scalar

def kind : Scalar → String
  | string _ => "string"
  | bool _ => "bool"
  | int _ => "integer"
  | float _ => "float"

def isZero : Scalar → Bool
  | string s => s.isEmpty
  | bool b => !b
  | int n => n = 0
  | float x => x.isZero

/-- Equality of values; floats are compared as numbers. -/
def same : Scalar → Scalar → Bool
  | string s, string t => s = t
  | bool b, bool c => b = c
  | int m, int n => m = n
  | float x, float y => x.numEq y
  | _, _ => false

def floatText (x : Binary64) : String :=
  if x.isNaN then "NaN"
  else if x.isFinite then (FloatLayout.plain.numeral x).text
  else if x.isNegative then "-inf" else "inf"

def text : Scalar → String
  | string s => s
  | bool b => if b then "true" else "false"
  | int n => (Numeral.ofInt n.toInt).text
  | float x => floatText x

/-- Floats that are not finite have no JSON of their own. -/
def toJson : Scalar → Json
  | string s => .ofString s
  | bool b => .bool b
  | int n => .number (.ofInt n.toInt)
  | float x => if x.isFinite then .number (FloatLayout.data.numeral x) else .null

/-- A number is an integer if it is written as one and fits, and else a float. -/
def ofJson? : Json → Option Scalar
  | .bool b => some (bool b)
  | .number n =>
    match n.toInt64? with
    | some i => some (int i)
    | none => n.toBinary64?.map float
  | .string s => s.map string
  | _ => none

end Scalar

end QueryClauses
