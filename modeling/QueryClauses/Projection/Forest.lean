import QueryClauses.Projection.Clause

/-! Projections as trees. A forest is grouped from its paths level by level, and the same trees can be
seen in the store of a projection. -/

namespace QueryClauses

inductive ColumnTree where
  | leaf (name : String)
  | struct (name : String) (children : List ColumnTree)
  | array (name : String) (children : List ColumnTree)

namespace ColumnTree

/-- A group of the given kind; a leaf has no children. -/
def ofKind (kind : SegmentKind) (name : String) (children : List ColumnTree) : ColumnTree :=
  match kind with
  | .leaf => leaf name
  | .struct => struct name children
  | .array => array name children

/-! ### Grouping -/

/-- The path goes on below a name. -/
def goesBelow (name : String) : List String → Bool
  | head :: _ :: _ => head == name
  | _ => false

/-- What the paths that go on below a name say there, in their order. -/
def tailsBelow (name : String) (paths : List (List String)) : List (List String) :=
  (paths.filter (goesBelow name)).map List.tail

/-- The paths that do not go on below a name. -/
def apart (name : String) (paths : List (List String)) : List (List String) :=
  paths.filter (!goesBelow name ·)

/-- The number of paths and of all their names. -/
def extent : List (List String) → Nat
  | [] => 0
  | path :: paths => path.length + 1 + extent paths

@[simp] theorem extent_cons (path : List String) (paths : List (List String)) :
    extent (path :: paths) = path.length + 1 + extent paths := rfl

theorem extent_apart_le (name : String) (paths : List (List String)) :
    extent (apart name paths) ≤ extent paths := by
  induction paths with
  | nil => simp [apart]
  | cons p ps ih =>
    rw [apart] at ih
    by_cases h : goesBelow name p <;> simp [apart, h] <;> omega

theorem extent_tailsBelow_le (name : String) (paths : List (List String)) :
    extent (tailsBelow name paths) ≤ extent paths := by
  induction paths with
  | nil => simp [tailsBelow]
  | cons p ps ih =>
    rw [tailsBelow] at ih
    by_cases h : goesBelow name p <;> simp [tailsBelow, h] <;> omega

/-- A group below given names. It is an array just if its whole dotted name is that of a repeated
column. -/
def group (spec : Spec) (above : List String) (name : String) (children : List ColumnTree) : ColumnTree :=
  if spec.isRepeated (Path.ofSegments (above ++ [name])) then array name children else struct name children

/-- The trees of the paths below given names. A path of one name is a leaf in its place; one of several
names stands, in the place of the first like it, for all that go on below its first name. -/
def grouped (spec : Spec) (above : List String) : List (List String) → List ColumnTree
  | [] => []
  | [] :: paths => grouped spec above paths
  | [name] :: paths => leaf name :: grouped spec above paths
  | (name :: next :: rest) :: paths =>
    group spec above name (grouped spec (above ++ [name]) ((next :: rest) :: tailsBelow name paths)) ::
      grouped spec above (apart name paths)
termination_by paths => extent paths
decreasing_by
  · simp
  · simp
  · have := extent_tailsBelow_le name paths
    simp
    omega
  · have := extent_apart_le name paths
    simp
    omega

def ofPaths (spec : Spec) (paths : List String) : List ColumnTree :=
  grouped spec [] (paths.map Path.segments)

/-! ### Text -/

mutual

/-- The text of a tree whose nearest array is so many names above it. -/
def text (scope : List String) : ColumnTree → String
  | leaf name => Path.ofSegments (scope ++ [name])
  | struct name children =>
    String.join ["STRUCT(", ",".intercalate (texts (scope ++ [name]) children), ") AS ", name]
  | array name children =>
    String.join ["ARRAY(SELECT AS STRUCT ", ",".intercalate (texts [] children), " FROM UNNEST(",
      Path.ofSegments (scope ++ [name]), ")) AS ", name]

def texts (scope : List String) : List ColumnTree → List String
  | [] => []
  | t :: ts => text scope t :: texts scope ts

end

/-- The text of a whole forest. -/
def clause (forest : List ColumnTree) : String := ",".intercalate (texts [] forest)

/-! ### Expressions -/

mutual

/-- What is selected by a tree whose nearest array is so many names above it. -/
def expr (scope : List String) : ColumnTree → ColumnExpr
  | leaf name => .column (Path.ofSegments (scope ++ [name]))
  | struct name children => .struct (exprs (scope ++ [name]) children) name
  | array name children => .array (exprs [] children) (Path.ofSegments (scope ++ [name])) name

def exprs (scope : List String) : List ColumnTree → List ColumnExpr
  | [] => []
  | t :: ts => expr scope t :: exprs scope ts

end

/-! ### Leaves -/

mutual

/-- The whole dotted names of the leaves from left to right, below given names. -/
def leaves (above : List String) : ColumnTree → List String
  | leaf name => [Path.ofSegments (above ++ [name])]
  | struct name children => leavesOf (above ++ [name]) children
  | array name children => leavesOf (above ++ [name]) children

def leavesOf (above : List String) : List ColumnTree → List String
  | [] => []
  | t :: ts => leaves above t ++ leavesOf above ts

end

end ColumnTree

namespace Projection

/-- The trees of the given segments, with at most so many levels. -/
def trees (p : Projection) : Nat → List Nat → List ColumnTree
  | 0, _ => []
  | levels + 1, ids => ids.filterMap fun id =>
      p.segments[id]?.map fun s => .ofKind s.kind s.name (p.trees levels s.children)

def forest (p : Projection) : List ColumnTree := p.trees p.segments.size p.roots

end Projection

end QueryClauses
