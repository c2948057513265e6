import QueryClauses.Proofs.Projection.Forest

/-! The columns clause of a projection is the text of its forest. Every reference that is found by an
upward walk in the store is the one that the forest has at its place. -/

namespace QueryClauses

namespace ColumnTree

theorem structText_eq (body name : String) :
    structText body name = String.join ["STRUCT(", body, ") AS ", name] := by
  unfold structText
  simp only [String.join_cons, String.join_nil, String.append_empty, String.append_assoc]

theorem arrayText_eq (body source name : String) :
    arrayText body source name =
      String.join ["ARRAY(SELECT AS STRUCT ", body, " FROM UNNEST(", source, ")) AS ", name] := by
  unfold arrayText
  simp only [String.join_cons, String.join_nil, String.append_empty, String.append_assoc]

mutual

theorem text_expr (scope : List String) : ∀ t : ColumnTree, (expr scope t).text = text scope t
  | leaf name => by rw [expr, ColumnExpr.text, text]
  | struct name children => by rw [expr, ColumnExpr.text, text, texts_exprs, structText_eq]
  | array name children => by rw [expr, ColumnExpr.text, text, texts_exprs, arrayText_eq]

theorem texts_exprs (scope : List String) :
    ∀ ts : List ColumnTree, ColumnExpr.texts (exprs scope ts) = texts scope ts
  | [] => rfl
  | t :: ts => by rw [exprs, ColumnExpr.texts, texts, text_expr scope t, texts_exprs scope ts]

end

theorem exprs_eq_map (scope : List String) (ts : List ColumnTree) : exprs scope ts = ts.map (expr scope) := by
  induction ts with
  | nil => rfl
  | cons t ts ih => rw [exprs, ih, List.map_cons]

end ColumnTree

namespace Projection

variable {p : Projection}

/-- An expression of the store is that of its tree. -/
theorem ofKind_reference (h : p.Linked) {id : Nat} {s : Segment} (hs : p.segments[id]? = some s)
    {fields : List ColumnExpr} {children : List ColumnTree}
    (hf : fields = ColumnTree.exprs (p.scopeNames (some id)) children) :
    ColumnExpr.ofKind s.kind (p.reference id) s.name fields =
      ColumnTree.expr (p.scopeNames s.parent) (.ofKind s.kind s.name children) := by
  rw [reference_eq h hs, hf, scopeNames_some h hs]
  cases s.kind <;> rfl

theorem exprs_childrenOf (h : p.Linked) (levels : Nat) (parent : Option Nat) :
    p.exprs levels (p.childrenOf parent) =
      ColumnTree.exprs (p.scopeNames parent) (p.trees levels (p.childrenOf parent)) := by
  induction levels generalizing parent with
  | zero => rfl
  | succ levels ih =>
    rw [ColumnTree.exprs_eq_map, exprs, trees, List.map_filterMap]
    refine List.filterMap_congr fun id hid => ?_
    obtain ⟨s, hs, rfl⟩ := (mem_childrenOf h).1 hid
    rw [hs, Option.map_some, Option.map_some, Option.map_some]
    congr 1
    refine ofKind_reference h hs ?_
    rw [children_eq_childrenOf hs, ih]

theorem items_eq (h : p.Linked) : p.items = ColumnTree.exprs [] p.forest :=
  exprs_childrenOf h p.segments.size none

theorem items_ofPaths (spec : Spec) (paths : List String) :
    (ofPaths spec paths).items = ColumnTree.exprs [] (ColumnTree.ofPaths spec paths) := by
  rw [items_eq (linked_ofPaths spec paths), forest_ofPaths]

end Projection

/-- The clause for some columns is the text of the trees into which their paths are grouped. -/
theorem columnsClause_eq_clause_ofPaths (spec : Spec) (paths : List String) (hp : paths ≠ []) :
    columnsClause spec paths = ColumnTree.clause (ColumnTree.ofPaths spec paths) := by
  have hne : paths.isEmpty = false := List.isEmpty_eq_false_iff.2 hp
  rw [columnsClause, hne, if_neg Bool.false_ne_true, Projection.clause, Projection.items_ofPaths,
    ColumnExpr.clause, ColumnTree.texts_exprs, ColumnTree.clause]

/-- Arrays in arrays, a leaf beside a group of its name, and a group that is asked for again later. -/
theorem columnsClause_eq_clause_nested_arrays :
    ["N.d.x", "A", "N.d.p.y", "A.b", "A"] ≠ [] ∧
      columnsClause ⟨.ofList ["N.d", "N.d.p"], ""⟩ ["N.d.x", "A", "N.d.p.y", "A.b", "A"] =
        ColumnTree.clause
          (ColumnTree.ofPaths ⟨.ofList ["N.d", "N.d.p"], ""⟩ ["N.d.x", "A", "N.d.p.y", "A.b", "A"]) :=
  ⟨List.cons_ne_nil _ _, columnsClause_eq_clause_ofPaths _ _ (List.cons_ne_nil _ _)⟩

example :
    columnsClause ⟨.ofList ["N.d", "N.d.p"], ""⟩ ["N.d.x", "A", "N.d.p.y", "A.b", "A"] =
      "STRUCT(ARRAY(SELECT AS STRUCT x,ARRAY(SELECT AS STRUCT y FROM UNNEST(p)) AS p FROM UNNEST(N.d))" ++
        " AS d) AS N,A,STRUCT(A.b) AS A,A" := by
  decide +kernel

end QueryClauses
