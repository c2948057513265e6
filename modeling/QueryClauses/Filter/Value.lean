import QueryClauses.Calendar.Instant
import QueryClauses.Filter.Scalar

/-! Filters: records of named values, each with a tag that says how its column is filtered and a format
for its instants. -/

namespace QueryClauses

structure FieldOf (α : Type) where
  name : String
  value : α
  tag : Option String := none
  format : Option String := none
  deriving DecidableEq

inductive Value where
  | scalar (s : Scalar)
  | list (items : List Value)
  | timeRange (range : TimeRange)
  | record (fields : List (FieldOf Value))
  | optional (inner : Option Value)

abbrev Field := FieldOf Value

/-- The fields of a record, in the order of their declaration. -/
abbrev Record := List Field

namespace Value

def kind : Value → String
  | scalar s => s.kind
  | list _ => "list"
  | timeRange _ => "time range"
  | record _ => "record"
  | optional (some _) => "optional"
  | optional none => "absent optional"

mutual

/-- The value says nothing. An optional that is present always says something. -/
def isZero : Value → Bool
  | scalar s => s.isZero
  | list items => items.isEmpty
  | timeRange range => range.isZero
  | record fields => areZero fields
  | optional inner => inner.isNone

def areZero : List (FieldOf Value) → Bool
  | [] => true
  | ⟨_, value, _, _⟩ :: r => value.isZero && areZero r

end

theorem areZero_eq_all (fields : Record) : areZero fields = fields.all (·.value.isZero) := by
  induction fields with
  | nil => rfl
  | cons f r ih => simp [areZero, ih]

/-- The value as that of a parameter. -/
def scalar? : Value → Option Scalar
  | scalar s => some s
  | _ => none

mutual

/-- Equality of values: floats are compared as numbers and instants as points in time. -/
def same : Value → Value → Bool
  | scalar s, scalar t => s.same t
  | list xs, list ys => sameItems xs ys
  | timeRange r, timeRange s => r.coincides s
  | record fs, record gs => sameFields fs gs
  | optional none, optional none => true
  | optional (some v), optional (some w) => v.same w
  | _, _ => false

def sameItems : List Value → List Value → Bool
  | [], [] => true
  | v :: vs, w :: ws => v.same w && sameItems vs ws
  | _, _ => false

def sameFields : List (FieldOf Value) → List (FieldOf Value) → Bool
  | [], [] => true
  | ⟨name, v, tag, format⟩ :: fs, g :: gs =>
    (name = g.name && v.same g.value && tag = g.tag && format = g.format) && sameFields fs gs
  | _, _ => false

end

end Value

end QueryClauses
