/-! What a field's tag says: the column's name before the first comma, directives behind it. -/

namespace QueryClauses

structure FieldOptions where
  name : Option String := none
  /-- A zero value is left out. -/
  omitEmpty : Bool := false
  /-- The column is repeated, and its elements are compared. -/
  unnest : Bool := false
  deriving DecidableEq, Repr

namespace FieldOptions

/-- The options when only the first token has been read, which is a name whatever it is. -/
def named (name : String) : FieldOptions := { name := if name = "" then none else some name }

/-- The options when one more directive has been read. One that is not known says nothing. -/
def heed (o : FieldOptions) (directive : String) : FieldOptions :=
  if directive = "omitempty" then { o with omitEmpty := true }
  else if directive = "unnest" then { o with unnest := true }
  else o

def parse (tag : String) : FieldOptions :=
  match (tag.toList.splitOn ',').map String.ofList with
  | [] => {}
  | name :: directives => directives.foldl heed (named name)

def columnName (o : FieldOptions) (fieldName : String) : String := o.name.getD fieldName

end FieldOptions

end QueryClauses
