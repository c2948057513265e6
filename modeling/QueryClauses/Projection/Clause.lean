import QueryClauses.Projection.Basic

/-! The text that selects the columns of a projection. What is selected is first read off the store as
expressions, whose references are relative to the array around them, and then written out. -/

namespace QueryClauses

/-- A record of the given columns. -/
def structText (body name : String) : String := "STRUCT(" ++ body ++ ") AS " ++ name

/-- The records of the given columns, one for each element of a repeated record. -/
def arrayText (body source name : String) : String :=
  "ARRAY(SELECT AS STRUCT " ++ body ++ " FROM UNNEST(" ++ source ++ ")) AS " ++ name

/-- An item of a columns clause. -/
inductive ColumnExpr where
  | column (reference : String)
  | struct (fields : List ColumnExpr) (name : String)
  | array (fields : List ColumnExpr) (source name : String)

namespace ColumnExpr

/-- How a segment of the given kind is read; a leaf has no fields. -/
def ofKind (kind : SegmentKind) (reference name : String) (fields : List ColumnExpr) : ColumnExpr :=
  match kind with
  | .leaf => column reference
  | .struct => struct fields name
  | .array => array fields reference name

mutual

def text : ColumnExpr → String
  | column reference => reference
  | struct fields name => structText (",".intercalate (texts fields)) name
  | array fields source name => arrayText (",".intercalate (texts fields)) source name

def texts : List ColumnExpr → List String
  | [] => []
  | e :: es => e.text :: texts es

end

def clause (items : List ColumnExpr) : String := ",".intercalate (texts items)

end ColumnExpr

namespace Projection

/-- The expressions for the given segments, with at most so many levels. -/
def exprs (p : Projection) : Nat → List Nat → List ColumnExpr
  | 0, _ => []
  | levels + 1, ids => ids.filterMap fun id =>
      p.segments[id]?.map fun s => .ofKind s.kind (p.reference id) s.name (p.exprs levels s.children)

/-- What is selected. No segment is more levels down than there are segments. -/
def items (p : Projection) : List ColumnExpr := p.exprs p.segments.size p.roots

def clause (p : Projection) : String := ColumnExpr.clause p.items

end Projection

/-- The columns clause of a query; with nothing asked for, everything is selected. -/
def columnsClause (spec : Spec) (paths : List String) : String :=
  if paths.isEmpty then "*" else (Projection.ofPaths spec paths).clause

end QueryClauses
