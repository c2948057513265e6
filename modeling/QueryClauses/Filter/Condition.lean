import QueryClauses.Filter.Parameter

/-! Conditions on a column, each with its text and with the parameters that the text refers to. -/

namespace QueryClauses

/-- What is compared with a column or with the elements of a repeated one. -/
inductive Comparand where
  | one (text : String)
  | anyOf (values : List Scalar)
  deriving DecidableEq

inductive Condition where
  | holds (column : String) (expected : Bool)
  | between (column lower upper : String)
  | compare (column : String) (unnest : Bool) (comparand : Comparand)
  deriving DecidableEq

namespace Comparand

/-- The names of the parameters for the elements of a list. -/
def elementNames (column : String) (values : List Scalar) : List String :=
  (List.range values.length).map (Parameter.elementName column)

/-- The comparison, to be put behind what is compared. -/
def text (column : String) : Comparand → String
  | one _ => " = " ++ Parameter.placeholder column
  | anyOf values =>
    " IN (" ++ ",".intercalate ((elementNames column values).map Parameter.placeholder) ++ ")"

def params (column : String) : Comparand → Parameters
  | one s => [⟨column, .string s⟩]
  | anyOf values => List.zipWith Parameter.mk (elementNames column values) values

end Comparand

namespace Condition

def text : Condition → String
  | holds column expected => if expected then column else "NOT " ++ column
  | between column _ _ =>
    column ++ " BETWEEN " ++ Parameter.placeholder (Parameter.lowerName column) ++ " AND " ++
      Parameter.placeholder (Parameter.upperName column)
  | compare column false comparand => column ++ comparand.text column
  | compare column true comparand =>
    "EXISTS (SELECT * FROM UNNEST(" ++ column ++ ") AS x WHERE x" ++ comparand.text column ++ ")"

def params : Condition → Parameters
  | holds _ _ => []
  | between column lower upper =>
    [⟨Parameter.lowerName column, .string lower⟩, ⟨Parameter.upperName column, .string upper⟩]
  | compare column _ comparand => comparand.params column

end Condition

end QueryClauses
