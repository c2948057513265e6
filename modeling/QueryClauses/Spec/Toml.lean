import QueryClauses.Spec.Json
import QueryClauses.Toml.Parser

/-! Specifications as TOML. -/

namespace QueryClauses

namespace Toml

/-- The value of the only entry with one of the given keys: nothing if there are several. -/
def field? (keys : List String) (es : Entries) : Option (Option Toml) :=
  match es.filter fun e => keys.contains e.1 with
  | [] => some none
  | [e] => some (some e.2)
  | _ => none

def toString? : Toml → Option String
  | string s => some s
  | _ => none

def toStrings? : Toml → Option (List String)
  | array items => items.mapM toString?
  | _ => none

end Toml

namespace Spec

def quoted (s : String) : String := String.ofList (TomlText.write s.toList)

def toToml (s : Spec) : String :=
  "repeated = [" ++ ", ".intercalate (s.repeated.toList.map quoted) ++ "]\n" ++
    "template = " ++ quoted s.template ++ "\n"

def ofToml? (es : Toml.Entries) : Option Spec := do
  match ← fieldNames.mapM (Toml.field? · es) with
  | [repeated, template] =>
    some (ofFields (← repeated.mapM Toml.toStrings?) (← template.mapM Toml.toString?))
  | _ => none

def parseToml (text : String) : Except Error Spec :=
  match (Toml.parse? text).bind ofToml? with
  | some s => s.validate
  | none => .error (.malformedToml "no specification")

end Spec

end QueryClauses
