import QueryClauses.Json.Members
import QueryClauses.Json.Parser
import QueryClauses.Spec.Basic

/-! Specifications as JSON. -/

namespace QueryClauses.Spec

/-- The names of the repeated columns' field and those of the template's, the usual one first. -/
def fieldNames : List (List String) := [["repeated", "repeated_columns"], ["template", "sql_query"]]

def toJson (s : Spec) : Json :=
  .ofMembers [("repeated", .array (s.repeated.toList.map .ofString)), ("template", .ofString s.template)]

/-- The specification with the given fields, those left out being empty. -/
def ofFields (repeated : Option (List String)) (template : Option String) : Spec :=
  ⟨.ofList (repeated.getD []), template.getD ""⟩

def ofJson? (json : Json) : Option Spec :=
  match json.fields? fieldNames with
  | some [repeated, template] => do
    some (ofFields (← repeated.mapM Json.toStrings?) (← template.mapM Json.toString?))
  | _ => none

def parseJson (text : String) : Except Error Spec :=
  match (Json.parse? text).bind ofJson? with
  | some s => s.validate
  | none => .error (.malformedJson "no specification")

end QueryClauses.Spec
