import QueryClauses.Json.Text
import QueryClauses.Numeral.Basic

/-! JSON values, and their text without blanks. -/

namespace QueryClauses

/-- A string whose escapes do not add up to characters is well formed, but has no text. -/
inductive Json where
  | null
  | bool (b : Bool)
  | number (n : Numeral)
  | string (text : Option String)
  | array (items : List Json)
  | object (members : List (Option String × Json))

namespace Json

def ofString (s : String) : Json := string (some s)

/-- An object of the given members, in their order. -/
def ofMembers (members : List (String × Json)) : Json :=
  object (members.map fun (key, value) => (some key, value))

def stringText : Option String → String
  | some s => String.ofList (JsonText.quote s.toList)
  | none => "\"\\ud800\""

mutual

def text : Json → String
  | null => "null"
  | bool b => if b then "true" else "false"
  | number n => n.text
  | string s => stringText s
  | array items => "[" ++ ",".intercalate (itemTexts items) ++ "]"
  | object members => "\x7b" ++ ",".intercalate (memberTexts members) ++ "\x7d"

def itemTexts : List Json → List String
  | [] => []
  | item :: r => text item :: itemTexts r

def memberTexts : List (Option String × Json) → List String
  | [] => []
  | (key, value) :: r => (stringText key ++ ":" ++ text value) :: memberTexts r

end

end Json

end QueryClauses
