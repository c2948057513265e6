import QueryClauses.Error
import QueryClauses.Path
import QueryClauses.Spec.PathSet

/-! What is known of a table: which of its columns are repeated, and the query text into which
clauses go. -/

namespace QueryClauses

structure Spec where
  repeated : PathSet
  template : String
  deriving DecidableEq

namespace Spec

def new (template : String) : Spec := ⟨.empty, template⟩

/-- Nothing is repeated, and there is no template. -/
instance : Inhabited Spec where
  default := ⟨.empty, ""⟩

def withRepeated (s : Spec) (path : String) : Spec := { s with repeated := s.repeated.insert path }

def withRepeatedColumns (s : Spec) (paths : List String) : Spec :=
  { s with repeated := s.repeated.insertAll paths }

def isRepeated (s : Spec) (path : String) : Bool := path ∈ s.repeated

/-- The least repeated path with an empty segment. -/
def misnamed? (s : Spec) : Option String :=
  s.repeated.toList.find? fun path => (Path.segments path).any (·.isEmpty)

def misnamedError (path : String) : Error :=
  .invalidSpec ("repeated column '" ++ path ++ "' has an empty segment")

/-- The specification itself, if no repeated path has an empty segment. -/
def validate (s : Spec) : Except Error Spec :=
  match s.misnamed? with
  | some path => .error (misnamedError path)
  | none => .ok s

end Spec

end QueryClauses
