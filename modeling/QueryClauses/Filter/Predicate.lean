import QueryClauses.Filter.Condition
import QueryClauses.Filter.FieldOptions
import QueryClauses.Filter.Value
import QueryClauses.TimeFormat.Instant

/-! The predicate of a filter: the conditions of its fields in their order, all of which are to hold.
The first field for which there is no condition decides what is wrong. -/

namespace QueryClauses

namespace FieldOf

def options (f : Field) : FieldOptions := .parse (f.tag.getD "")

def column (f : Field) : String := f.options.columnName f.name

/-- The elements of a list, if each can be a parameter. -/
def elements (column : String) (items : List Value) : Except Error (List Scalar) :=
  items.mapM fun item =>
    match item.scalar? with
    | some s => .ok s
    | none => .error (.unsupportedField column item.kind)

/-- The condition for a value, if there is anything to be asked. -/
def conditionFor (column : String) (unnest : Bool) (format : Option String) (value : Value) :
    Except Error (Option Condition) :=
  match value with
  | .scalar (.string s) => .ok (some (.compare column unnest (.one s)))
  | .scalar (.bool b) =>
    if unnest then .error (.unsupportedUnnest column value.kind) else .ok (some (.holds column b))
  | .list [] => .ok none
  | .list items => do .ok (some (.compare column unnest (.anyOf (← elements column items))))
  | .timeRange range =>
    if unnest then .error (.unsupportedUnnest column value.kind)
    else do
      let lower ← range.lower.format format column
      let upper ← range.upper.format format column
      .ok (some (.between column lower upper))
  | .record _ => .error (.unsupportedRecord column)
  | .scalar (.int _) | .scalar (.float _) | .optional _ => .error (.unsupportedField column value.kind)

/-- The condition of a field. One optional around its value is taken off, and an absent one has no
condition. -/
def condition (f : Field) : Except Error (Option Condition) :=
  if f.options.omitEmpty && f.value.isZero then .ok none
  else
    match f.value with
    | .optional none => .error (.unsupportedField f.column f.value.kind)
    | .optional (some value) => conditionFor f.column f.options.unnest f.format value
    | value => conditionFor f.column f.options.unnest f.format value

end FieldOf

structure Predicate where
  text : String
  params : Parameters
  deriving DecidableEq

namespace Predicate

/-- Nothing is asked. -/
def isEmpty (p : Predicate) : Bool := p.text.isEmpty

def ofConditions (conditions : List Condition) : Predicate :=
  ⟨" AND ".intercalate (conditions.map Condition.text), conditions.flatMap Condition.params⟩

def ofRecord (fields : Record) : Except Error Predicate := do
  .ok (ofConditions ((← fields.mapM FieldOf.condition).filterMap id))

/-- The predicate of a filter, which has to be a record. -/
def ofValue (filter : Value) : Except Error Predicate :=
  match filter with
  | .record fields => ofRecord fields
  | _ => .error (.notARecord filter.kind)

end Predicate

end QueryClauses
