import QueryClauses.Spec.Toml

/-! Specifications in files, whose names tell JSON from TOML. -/

namespace QueryClauses

/-- What follows the last dot of a file's name, unless the name begins with that dot. -/
def fileExtension? (name : String) : Option String :=
  let reversed := name.toList.reverse
  match reversed.dropWhile (· ≠ '.') with
  | _ :: _ :: _ => some (String.ofList (reversed.takeWhile (· ≠ '.')).reverse)
  | _ => none

/-- The extension is that of JSON, in whatever case its letters are. -/
def isJsonFile (name : String) : Bool := (fileExtension? name).any (·.toLower = "json")

namespace Spec

/-- The specification in a file of the given name and content; without content, the file cannot be
read. -/
def ofFile (name : String) (content : Option ByteArray) : Except Error Spec :=
  match content with
  | none => .error (.unreadable "no file")
  | some bytes =>
    match String.fromUTF8? bytes with
    | none => .error (.unreadable "no text")
    | some text => if isJsonFile name then parseJson text else parseToml text

end Spec

end QueryClauses
