import QueryClauses.Projection.Forest

/-! Rows of nested records, and the two readings of a projection: the values of the expressions in its
clause, and the part of a row for which its paths ask. -/

namespace QueryClauses

/-- A nested value. -/
inductive Datum (α : Type) where
  | scalar (a : α)
  | record (fields : List (String × Datum α))
  | array (elements : List (Datum α))

/-- The named values of a record. -/
abbrev Row (α : Type) := List (String × Datum α)

variable {α : Type}

namespace Datum

def field? (name : String) : Datum α → Option (Datum α)
  | record fields => fields.lookup name
  | _ => none

/-- The value to which successive fields lead. -/
def select? : List String → Datum α → Option (Datum α)
  | [], d => some d
  | name :: names, d => (d.field? name).bind (select? names)

end Datum

namespace ColumnExpr

mutual

/-- The name of an item and its value in the current row. -/
def eval : ColumnExpr → Datum α → Option (String × Datum α)
  | column reference, row =>
    (row.select? (Path.segments reference)).map ((Path.segments reference).getLastD "", ·)
  | struct fields name, row => (evalAll fields row).map (name, .record ·)
  | array fields source name, row =>
    match row.select? (Path.segments source) with
    | some (.array elements) =>
      (elements.mapM (evalAll fields)).map fun rows => (name, .array (rows.map .record))
    | _ => none

def evalAll : List ColumnExpr → Datum α → Option (Row α)
  | [], _ => some []
  | e :: es, row => (e.eval row).bind fun v => (evalAll es row).map (v :: ·)

end

end ColumnExpr

namespace Datum

/-- A path leads somewhere, through arrays of records just where the names up to there are those of a
repeated column, and through single records otherwise. -/
def Fits (spec : Spec) (above : List String) : List String → Datum α → Prop
  | [], _ => True
  | [name], d => ∃ v, d.field? name = some v
  | name :: next :: rest, d =>
    if spec.isRepeated (Path.ofSegments (above ++ [name])) then
      ∃ elements, d.field? name = some (array elements) ∧
        ∀ e ∈ elements, ∃ fields, e = record fields ∧ e.Fits spec (above ++ [name]) (next :: rest)
    else
      ∃ fields, d.field? name = some (record fields) ∧
        (record fields).Fits spec (above ++ [name]) (next :: rest)

/-- What is left of a value for some paths: of an array all its elements, each with what the paths ask
of it. -/
def pruneWith (prune : Datum α → Row α) : Datum α → Datum α
  | array elements => array (elements.map fun e => record (prune e))
  | d => record (prune d)

open ColumnTree (extent tailsBelow apart extent_tailsBelow_le extent_apart_le) in
/-- The part of a record for which paths ask. A path of one name asks for the whole field; of the paths
that go on below one name, the first asks in its place for what they all name there. -/
def prune : List (List String) → Datum α → Row α
  | [], _ => []
  | [] :: paths, d => prune paths d
  | [name] :: paths, d => (d.field? name).toList.map (name, ·) ++ prune paths d
  | (name :: next :: rest) :: paths, d =>
    let below := prune ((next :: rest) :: tailsBelow name paths)
    (d.field? name).toList.map (fun v => (name, v.pruneWith below)) ++ prune (apart name paths) d
termination_by paths => extent paths
decreasing_by
  · simp
  · simp
  · have := extent_tailsBelow_le name paths
    simp
    omega
  · have := extent_apart_le name paths
    simp
    omega

end Datum

end QueryClauses
