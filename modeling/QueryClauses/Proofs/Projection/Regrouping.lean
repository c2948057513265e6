import QueryClauses.Proofs.Projection.Reading

/-! Projections in the order of their leaves. The leaves of a forest have the paths below each group next to
each other, in the place of the first of them, and grouping paths in that order gives the same forest again.
So the leaves are a normal form of the columns that are asked for. -/

namespace QueryClauses

namespace ColumnTree

variable {spec : Spec} {above : List String} {name : String} {first : List String}
  {below others : List (List String)}

theorem tailsBelow_append (name : String) (paths others : List (List String)) :
    tailsBelow name (paths ++ others) = tailsBelow name paths ++ tailsBelow name others := by
  simp only [tailsBelow, List.filter_append, List.map_append]

theorem apart_append (name : String) (paths others : List (List String)) :
    apart name (paths ++ others) = apart name paths ++ apart name others :=
  List.filter_append ..

theorem goesBelow_cons {path : List String} (h : path ≠ []) : goesBelow name (name :: path) := by
  obtain ⟨next, rest, rfl⟩ := List.exists_cons_of_ne_nil h
  simp [goesBelow]

/-- All that goes on below a name, followed by what does not. -/
theorem tailsBelow_map_cons_append (hb : ∀ path ∈ below, path ≠ [])
    (ho : ∀ path ∈ others, goesBelow name path = false) :
    tailsBelow name (below.map (name :: ·) ++ others) = below := by
  have hbelow : tailsBelow name (below.map (name :: ·)) = below := by
    rw [tailsBelow, List.filter_eq_self.2 (List.forall_mem_map.2 fun path hp => goesBelow_cons (hb path hp)),
      List.map_map]
    exact List.map_id _
  have hothers : tailsBelow name others = [] := by
    rw [tailsBelow, List.filter_eq_nil_iff.2 fun path hp => by simp [ho path hp], List.map_nil]
  rw [tailsBelow_append, hbelow, hothers, List.append_nil]

theorem apart_map_cons_append (hb : ∀ path ∈ below, path ≠ [])
    (ho : ∀ path ∈ others, goesBelow name path = false) :
    apart name (below.map (name :: ·) ++ others) = others := by
  have hbelow : apart name (below.map (name :: ·)) = [] :=
    List.filter_eq_nil_iff.2 (List.forall_mem_map.2 fun path hp => by simp [goesBelow_cons (hb path hp)])
  have hothers : apart name others = others := List.filter_eq_self.2 fun path hp => by simp [ho path hp]
  rw [apart_append, hbelow, hothers, List.nil_append]

theorem grouped_map_cons_append (hb : ∀ path ∈ first :: below, path ≠ [])
    (ho : ∀ path ∈ others, goesBelow name path = false) :
    grouped spec above ((first :: below).map (name :: ·) ++ others) =
      group spec above name (grouped spec (above ++ [name]) (first :: below)) :: grouped spec above others := by
  obtain ⟨hfirst, hbelow⟩ := List.forall_mem_cons.1 hb
  obtain ⟨next, rest, rfl⟩ := List.exists_cons_of_ne_nil hfirst
  rw [List.map_cons, List.cons_append, grouped, tailsBelow_map_cons_append hbelow ho,
    apart_map_cons_append hbelow ho]

theorem goesBelow_of_mem_apart {path : List String} {paths : List (List String)} (h : path ∈ apart name paths) :
    goesBelow name path = false := by
  simpa using List.of_mem_filter h

/-- Grouping the paths of the leaves gives the forest of the paths that were grouped, whatever was repeated
then and above whatever names they stood. -/
theorem grouped_namePathsOf_grouped (other : Spec) (base : List String) {paths : List (List String)}
    (h : ∀ path ∈ paths, path ≠ []) :
    grouped spec above (namePathsOf (grouped other base paths)) = grouped spec above paths := by
  fun_induction grouped other base paths generalizing above with
  | case1 base => rfl
  | case2 base paths ih => exact absurd rfl (h [] List.mem_cons_self)
  | case3 base name paths ih =>
    rw [namePathsOf, namePaths, List.singleton_append, grouped, grouped,
      ih fun path hp => h path (List.mem_cons_of_mem _ hp)]
  | case4 base name next rest paths ihChildren ihApart =>
    have htails : ∀ path ∈ (next :: rest) :: tailsBelow name paths, path ≠ [] :=
      List.forall_mem_cons.2 ⟨List.cons_ne_nil _ _, fun path hp => (mem_tailsBelow hp).2⟩
    have hapart : ∀ path ∈ apart name paths, path ≠ [] := fun path hp =>
      h path (List.mem_cons_of_mem _ (mem_of_mem_apart hp))
    have hchildren := @ihChildren (above ++ [name]) htails
    have hperm : (namePathsOf (grouped other (base ++ [name]) ((next :: rest) :: tailsBelow name paths))).Perm
        ((next :: rest) :: tailsBelow name paths) := namePathsOf_grouped_perm htails
    have hothers (path) (hp : path ∈ namePathsOf (grouped other base (apart name paths))) :
        goesBelow name path = false :=
      goesBelow_of_mem_apart ((namePathsOf_grouped_perm hapart).mem_iff.1 hp)
    rw [namePathsOf, namePaths_group]
    -- the leaves below the name stand together, and there is a first one
    generalize namePathsOf (grouped other (base ++ [name]) ((next :: rest) :: tailsBelow name paths)) = leaves
      at hchildren hperm ⊢
    obtain ⟨first, below, rfl⟩ := List.exists_cons_of_ne_nil fun hnil : leaves = [] =>
      List.cons_ne_nil _ _ (hnil ▸ hperm).nil_eq.symm
    rw [grouped_map_cons_append (fun path hp => htails path (hperm.mem_iff.1 hp)) hothers, hchildren,
      ihApart hapart, grouped]

theorem map_segments_leavesOf_ofPaths (paths : List String) :
    (leavesOf [] (ofPaths spec paths)).map Path.segments = namePathsOf (ofPaths spec paths) := by
  have hsegments (names) (hn : names ∈ namePathsOf (ofPaths spec paths)) :
      Path.segments (Path.ofSegments names) = names := by
    obtain ⟨path, rfl⟩ := exists_eq_segments_of_mem hn
    rw [Path.ofSegments_segments]
  rw [leavesOf_ofPaths, List.map_map]
  exact (List.map_congr_left hsegments).trans (List.map_id _)

theorem ofPaths_leavesOf_ofPaths (spec other : Spec) (paths : List String) :
    ofPaths spec (leavesOf [] (ofPaths other paths)) = ofPaths spec paths := by
  rw [ofPaths, map_segments_leavesOf_ofPaths, ofPaths, ofPaths,
    grouped_namePathsOf_grouped other [] segments_ne_nil_of_mem]

/-- The same text is that of the same forest. -/
theorem ofPaths_eq_of_columnsClause_eq {spec other : Spec} {paths others : List String} (hp : paths ≠ [])
    (ho : others ≠ []) (hpaths : ∀ path ∈ paths, Text.Free ColumnExpr.marks path)
    (hothers : ∀ path ∈ others, Text.Free ColumnExpr.marks path)
    (h : columnsClause spec paths = columnsClause other others) : ofPaths spec paths = ofPaths other others := by
  rw [columnsClause_eq_clause_exprs hp, columnsClause_eq_clause_exprs ho] at h
  exact exprs_inj (ColumnExpr.clause_inj (exprs_ofPaths_ne_nil spec hp) (exprs_ofPaths_ne_nil other ho)
    (allLegible_exprs_ofPaths spec hpaths) (allLegible_exprs_ofPaths other hothers) h)

end ColumnTree

/-- The whole dotted names of the leaves of a projection from left to right. -/
def leafPaths (spec : Spec) (paths : List String) : List String :=
  ColumnTree.leavesOf [] (Projection.ofPaths spec paths).forest

theorem leafPaths_eq (spec : Spec) (paths : List String) :
    leafPaths spec paths = ColumnTree.leavesOf [] (ColumnTree.ofPaths spec paths) := by
  rw [leafPaths, Projection.forest_ofPaths]

/-- The clause depends on the forest, and on whether there are columns at all. -/
theorem columnsClause_congr {spec other : Spec} {paths others : List String} (hne : paths = [] ↔ others = [])
    (h : ColumnTree.ofPaths spec paths = ColumnTree.ofPaths other others) :
    columnsClause spec paths = columnsClause other others := by
  by_cases hp : paths = []
  · rw [hp, hne.1 hp]
    rfl
  · rw [columnsClause_eq_clause_exprs hp, columnsClause_eq_clause_exprs fun ho => hp (hne.2 ho), h]

theorem leafPaths_eq_nil_iff {spec : Spec} {paths : List String} : leafPaths spec paths = [] ↔ paths = [] := by
  have hperm : (leafPaths spec paths).Perm paths := leafPaths_eq spec paths ▸ ColumnTree.leavesOf_ofPaths_perm
  rw [← List.length_eq_zero_iff, hperm.length_eq, List.length_eq_zero_iff]

theorem columnsClause_leafPaths_of (spec other : Spec) (paths : List String) :
    columnsClause spec (leafPaths other paths) = columnsClause spec paths := by
  refine columnsClause_congr leafPaths_eq_nil_iff ?_
  rw [leafPaths_eq, ColumnTree.ofPaths_leavesOf_ofPaths]

open Text (Free)
open ColumnExpr (marks)

/-- The leaves of a projection, asked for from left to right, have the same clause and the same leaves. So
columns with the same leaves have the same clause, whatever is repeated, and columns with the same clause have
the same leaves if their names have no space, bracket or comma. -/
theorem columnsClause_leafPaths (spec : Spec) (paths : List String) :
    columnsClause spec (leafPaths spec paths) = columnsClause spec paths ∧
      leafPaths spec (leafPaths spec paths) = leafPaths spec paths ∧
      (∀ (one two : Spec) (others : List String), leafPaths one paths = leafPaths two others →
        columnsClause spec paths = columnsClause spec others) ∧
      ∀ others : List String, paths ≠ [] → others ≠ [] → (∀ path ∈ paths, Free marks path) →
        (∀ path ∈ others, Free marks path) → columnsClause spec paths = columnsClause spec others →
          leafPaths spec paths = leafPaths spec others := by
  refine ⟨columnsClause_leafPaths_of spec spec paths, ?_, fun one two others h => ?_, ?_⟩
  · rw [leafPaths_eq, leafPaths_eq, ColumnTree.ofPaths_leavesOf_ofPaths]
  · rw [← columnsClause_leafPaths_of spec one paths, h, columnsClause_leafPaths_of]
  · intro others hp ho hpaths hothers h
    rw [leafPaths_eq, leafPaths_eq, ColumnTree.ofPaths_eq_of_columnsClause_eq hp ho hpaths hothers h]

/-- Two orders of the same columns, with a leaf beside a group of its name and a name without characters. -/
theorem columnsClause_leafPaths_interleaved :
    let spec : Spec := ⟨.ofList ["Lines", "Lines.Parts"], ""⟩
    let paths := ["Lines.Parts.Code", "Id", "Lines.Parts", "Lines.Parts.", "Id.Lines"]
    let others := ["Lines.Parts.Code", "Lines.Parts.", "Id", "Id.Lines", "Lines.Parts"]
    leafPaths spec paths = leafPaths spec others ∧ leafPaths spec paths ≠ paths ∧
      columnsClause spec paths = columnsClause spec others := by
  intro spec paths others
  have hother : leafPaths (.new "") paths = leafPaths (.new "") others := by decide +kernel
  obtain ⟨-, -, hclause, hleaves⟩ := columnsClause_leafPaths spec paths
  have h := hclause _ _ others hother
  exact ⟨hleaves others (List.cons_ne_nil _ _) (List.cons_ne_nil _ _) (by decide +kernel) (by decide +kernel) h,
    by decide +kernel, h⟩

end QueryClauses
