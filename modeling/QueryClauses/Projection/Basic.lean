import QueryClauses.Spec.Basic

/-! Columns asked for, grouped by the records that hold them. The segments of all paths are kept in
one store in the order of their arrival, each with the place of its parent and of its children, so a
parent always comes before its children. -/

namespace QueryClauses

/-- What a segment is read as: a column, a record, or the elements of a repeated record. -/
inductive SegmentKind where
  | leaf | struct | array
  deriving DecidableEq, Repr

structure Segment where
  kind : SegmentKind
  name : String
  parent : Option Nat
  children : List Nat
  deriving DecidableEq, Repr

namespace Segment

/-- A segment that other segments of its name are hung below. -/
def isGroup (s : Segment) (name : String) : Bool := s.kind ≠ .leaf && s.name == name

def adopt (s : Segment) (child : Nat) : Segment := { s with children := s.children ++ [child] }

end Segment

structure Projection where
  segments : Array Segment
  roots : List Nat
  deriving DecidableEq, Repr

namespace Projection

def empty : Projection := ⟨#[], []⟩

def isEmpty (p : Projection) : Bool := p.roots.isEmpty

/-- The segments directly below a parent, or the roots. -/
def childrenOf (p : Projection) : Option Nat → List Nat
  | some parent => (p.segments[parent]?.map (·.children)).getD []
  | none => p.roots

def kind? (p : Projection) (id : Nat) : Option SegmentKind := p.segments[id]?.map (·.kind)

/-- The places of a segment and of all above it, upwards. -/
def ancestry (p : Projection) (id : Nat) : List Nat :=
  match p.segments[id]? with
  | none => []
  | some s =>
    match s.parent with
    | none => [id]
    | some parent => if parent < id then id :: p.ancestry parent else [id]
termination_by id

/-- The names of the segments at the given places. -/
def names (p : Projection) (ids : List Nat) : List String :=
  ids.filterMap fun id => p.segments[id]?.map (·.name)

/-- The names from the root down to a parent; none above the roots. -/
def namesDownTo (p : Projection) : Option Nat → List String
  | some id => (p.names (p.ancestry id)).reverse
  | none => []

/-- The whole dotted name of a segment. -/
def fullName (p : Projection) (id : Nat) : String := Path.ofSegments (p.namesDownTo (some id))

/-- The places of a segment and of those above it that are below the nearest array. -/
def scope (p : Projection) (id : Nat) : List Nat :=
  match p.ancestry id with
  | [] => []
  | own :: above => own :: above.takeWhile (p.kind? · ≠ some .array)

/-- The dotted name of a segment as seen from the elements of the nearest array above it. -/
def reference (p : Projection) (id : Nat) : String :=
  Path.ofSegments (p.names (p.scope id)).reverse

/-- Adds a segment after the last one below a parent. -/
def push (p : Projection) (parent : Option Nat) (name : String) (kind : SegmentKind) : Projection :=
  let id := p.segments.size
  let segments := p.segments.push ⟨kind, name, parent, []⟩
  match parent with
  | some above => { p with segments := segments.modify above (·.adopt id) }
  | none => { segments := segments, roots := p.roots ++ [id] }

/-- The group of a given name directly below a parent. -/
def group? (p : Projection) (parent : Option Nat) (name : String) : Option Nat :=
  (p.childrenOf parent).find? fun id => p.segments[id]?.any (·.isGroup name)

/-- How a new group is read depends on its whole dotted name alone. -/
def groupKind (spec : Spec) (p : Projection) (parent : Option Nat) (name : String) : SegmentKind :=
  if spec.isRepeated (Path.ofSegments (p.namesDownTo parent ++ [name])) then .array else .struct

/-- Hangs the last name as a leaf below the groups of the names before it, adding those groups that
are missing. -/
def graft (spec : Spec) (p : Projection) (parent : Option Nat) : List String → Projection
  | [] => p
  | [name] => p.push parent name .leaf
  | name :: rest =>
    match p.group? parent name with
    | some id => graft spec p (some id) rest
    | none => graft spec (p.push parent name (groupKind spec p parent name)) (some p.segments.size) rest

def addColumn (spec : Spec) (p : Projection) (path : String) : Projection :=
  graft spec p none (Path.segments path)

def ofPaths (spec : Spec) (paths : List String) : Projection := paths.foldl (addColumn spec) empty

end Projection

end QueryClauses
