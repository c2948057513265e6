/-! Everything that can go wrong, and what is said about it. -/

namespace QueryClauses

inductive Error where
  /-- A filter that is no record. -/
  | notARecord (kind : String)
  /-- A value for which there is no condition. -/
  | unsupportedField (field kind : String)
  /-- A record inside the record. -/
  | unsupportedRecord (field : String)
  /-- A value that is not looked up among the elements of a repeated column. -/
  | unsupportedUnnest (field kind : String)
  | invalidTimeFormat (field reason : String)
  | invalidSpec (reason : String)
  | unreadable (reason : String)
  | malformedToml (reason : String)
  | malformedJson (reason : String)
  deriving DecidableEq, Repr

namespace Error

def message : Error → String
  | notARecord kind => "filter must be a record: " ++ kind
  | unsupportedField field kind => field ++ " is of unknown type: " ++ kind
  | unsupportedRecord field => field ++ " struct is not supported"
  | unsupportedUnnest field kind => field ++ " cannot be unnested: " ++ kind
  | invalidTimeFormat field reason => "Invalid time format for " ++ field ++ ": " ++ reason
  | invalidSpec reason => "Invalid spec: " ++ reason
  | unreadable reason => "IO error: " ++ reason
  | malformedToml reason => "TOML error: " ++ reason
  | malformedJson reason => "JSON error: " ++ reason

/-- The filter is at fault. -/
def isInputError : Error → Bool
  | notARecord _ | unsupportedField .. | unsupportedRecord _ | unsupportedUnnest ..
  | invalidTimeFormat .. => true
  | _ => false

/-- The specification or its source is at fault. -/
def isConfigError : Error → Bool
  | invalidSpec _ | unreadable _ | malformedToml _ | malformedJson _ => true
  | _ => false

theorem isConfigError_eq_not_isInputError (e : Error) : e.isConfigError = !e.isInputError := by
  cases e <;> rfl

end Error

end QueryClauses
