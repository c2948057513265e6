import QueryClauses.Json.Basic

/-! Taking the fields of a value out of JSON: from an object by their names, or from an array by their
places. -/

namespace QueryClauses.Json

/-- Every key has a text. -/
def hasPlainKeys (members : List (Option String × Json)) : Bool := members.all (·.1.isSome)

/-- The values of all members with one of the given keys. -/
def valuesAt (keys : List String) (members : List (Option String × Json)) : List Json :=
  members.filterMap fun (key, value) => if key.any keys.contains then some value else none

/-- The fields with the given names, of which each field may have several: nothing if a field occurs
more than once or if there are more items than fields. -/
def fields? (names : List (List String)) : Json → Option (List (Option Json))
  | object members =>
    if hasPlainKeys members then
      names.mapM fun keys =>
        match valuesAt keys members with
        | [] => some none
        | [value] => some (some value)
        | _ => none
    else none
  | array items =>
    if items.length ≤ names.length then
      some (items.map some ++ List.replicate (names.length - items.length) none)
    else none
  | _ => none

def toString? : Json → Option String
  | string text => text
  | _ => none

def toStrings? : Json → Option (List String)
  | array items => items.mapM toString?
  | _ => none

end QueryClauses.Json
