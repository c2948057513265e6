import QueryClauses.Error
import QueryClauses.Filter.Scalar
import QueryClauses.Json.Members
import QueryClauses.Json.Parser

/-! Named parameters of a query. Their names are derived from the column they are compared with. -/

namespace QueryClauses

structure Parameter where
  name : String
  value : Scalar
  deriving DecidableEq

namespace Parameter

/-- How a parameter is referred to in the text of a query. -/
def placeholder (name : String) : String := "@" ++ name

/-- The name for an element of a list. -/
def elementName (column : String) (index : Nat) : String := column ++ index.repr

def lowerName (column : String) : String := column ++ "From"

def upperName (column : String) : String := column ++ "To"

def toJson (p : Parameter) : Json := .ofMembers [("name", .ofString p.name), ("value", p.value.toJson)]

def ofJson? (json : Json) : Option Parameter :=
  match json.fields? [["name"], ["value"]] with
  | some [some name, some value] => do some ⟨← name.toString?, ← Scalar.ofJson? value⟩
  | _ => none

def parseJson (text : String) : Except Error Parameter :=
  match (Json.parse? text).bind ofJson? with
  | some p => .ok p
  | none => .error (.malformedJson "no parameter")

end Parameter

/-- Parameters in the order in which a query refers to them. -/
abbrev Parameters := List Parameter

namespace Parameters

def add (ps : Parameters) (name : String) (value : Scalar) : Parameters := ps ++ [⟨name, value⟩]

def toJson (ps : Parameters) : Json := .array (ps.map Parameter.toJson)

end Parameters

end QueryClauses
