import QueryClauses.Projection.Row
import QueryClauses.Proofs.Projection.Clause

/-! What a columns clause selects from a row. The names in the scope of a tree lead from the current row
to the record whose fields the tree names, so every reference finds its field, and the items of the clause
have the values of the part of the row for which the paths ask. -/

namespace QueryClauses

variable {α : Type}

namespace ColumnTree

theorem mem_tailsBelow {name : String} {path : List String} {paths : List (List String)}
    (h : path ∈ tailsBelow name paths) : name :: path ∈ paths ∧ path ≠ [] := by
  obtain ⟨q, hq, rfl⟩ := List.mem_map.1 h
  obtain ⟨hq, hb⟩ := List.mem_filter.1 hq
  obtain ⟨next, rest, rfl⟩ := goesBelow_eq_true_iff.1 hb
  exact ⟨hq, List.cons_ne_nil _ _⟩

theorem mem_of_mem_apart {name : String} {path : List String} {paths : List (List String)}
    (h : path ∈ apart name paths) : path ∈ paths :=
  List.mem_of_mem_filter h

end ColumnTree

namespace Datum

theorem select?_append (names more : List String) (d : Datum α) :
    d.select? (names ++ more) = (d.select? names).bind (select? more) := by
  induction names generalizing d with
  | nil => rfl
  | cons name names ih =>
    rw [List.cons_append, select?, select?, Option.bind_assoc]
    congr 1
    funext e
    exact ih e

theorem select?_concat {names : List String} {d e : Datum α} (h : d.select? names = some e) (name : String) :
    d.select? (names ++ [name]) = e.field? name := by
  rw [select?_append, h, Option.bind_some, select?]
  cases e.field? name <;> rfl

/-- A value fits the paths below a name just as the one around it fits the whole paths. -/
theorem fits_cons {spec : Spec} {above : List String} {name : String} {path : List String}
    (hp : path ≠ []) (d : Datum α) : d.Fits spec above (name :: path) ↔
      if spec.isRepeated (Path.ofSegments (above ++ [name])) then
        ∃ elements, d.field? name = some (array elements) ∧
          ∀ e ∈ elements, ∃ fields, e = record fields ∧ e.Fits spec (above ++ [name]) path
      else
        ∃ fields, d.field? name = some (record fields) ∧
          (record fields).Fits spec (above ++ [name]) path := by
  obtain ⟨next, rest, rfl⟩ := List.exists_cons_of_ne_nil hp
  rfl

variable {spec : Spec} {above : List String} {name : String} {path : List String}
  {paths : List (List String)} {d : Datum α}

theorem fits_elements (hr : spec.isRepeated (Path.ofSegments (above ++ [name])))
    (h : ∀ p ∈ path :: paths, p ≠ [] ∧ d.Fits spec above (name :: p)) :
    ∃ elements, d.field? name = some (array elements) ∧
      ∀ e ∈ elements, ∀ p ∈ path :: paths, e.Fits spec (above ++ [name]) p := by
  have hfit (p) (hp : p ∈ path :: paths) := (fits_cons (h p hp).1 d).1 (h p hp).2
  simp only [hr, if_true] at hfit
  obtain ⟨elements, hfield, -⟩ := hfit path List.mem_cons_self
  refine ⟨elements, hfield, fun e he p hp => ?_⟩
  obtain ⟨elements', hfield', hall⟩ := hfit p hp
  cases hfield.symm.trans hfield'
  obtain ⟨fields, -, hf⟩ := hall e he
  exact hf

theorem fits_record (hr : ¬ spec.isRepeated (Path.ofSegments (above ++ [name])))
    (h : ∀ p ∈ path :: paths, p ≠ [] ∧ d.Fits spec above (name :: p)) :
    ∃ fields, d.field? name = some (record fields) ∧
      ∀ p ∈ path :: paths, (record fields).Fits spec (above ++ [name]) p := by
  have hfit (p) (hp : p ∈ path :: paths) := (fits_cons (h p hp).1 d).1 (h p hp).2
  simp only [hr, Bool.false_eq_true, if_false] at hfit
  obtain ⟨fields, hfield, -⟩ := hfit path List.mem_cons_self
  refine ⟨fields, hfield, fun p hp => ?_⟩
  obtain ⟨fields', hfield', hf⟩ := hfit p hp
  cases hfield.symm.trans hfield'
  exact hf

end Datum

theorem mapM_eq_some_map {β γ : Type} {f : β → Option γ} {g : β → γ} {l : List β}
    (h : ∀ x ∈ l, f x = some (g x)) : l.mapM f = some (l.map g) := by
  induction l with
  | nil => rfl
  | cons x l ih =>
    obtain ⟨hx, hl⟩ := List.forall_mem_cons.1 h
    rw [List.mapM_cons, hx, ih hl]
    rfl

/-- A dotted name without dots in its parts. -/
def Dotless (names : List String) : Prop := ∀ name ∈ names, '.' ∉ name.toList

theorem dotless_concat {names : List String} {name : String} (hs : Dotless names)
    (hn : '.' ∉ name.toList) : Dotless (names ++ [name]) := by
  intro n h
  rcases List.mem_append.1 h with h | h
  · exact hs n h
  · exact List.mem_singleton.1 h ▸ hn

theorem segments_concat {names : List String} {name : String} (h : Dotless (names ++ [name])) :
    Path.segments (Path.ofSegments (names ++ [name])) = names ++ [name] :=
  Path.segments_ofSegments (by simp) h

open ColumnTree ColumnExpr

variable {spec : Spec} {scope : List String} {name : String} {children : List ColumnTree}
  {row d : Datum α} {prune : Datum α → Row α}

/-! ### Trees -/

theorem eval_leaf (hrow : row.select? scope = some d) (hdot : Dotless (scope ++ [name])) {v : Datum α}
    (hv : d.field? name = some v) : (expr scope (leaf name)).eval row = some (name, v) := by
  rw [expr, eval, segments_concat hdot, Datum.select?_concat hrow, hv]
  simp

theorem eval_struct {fields : Row α}
    (h : evalAll (exprs (scope ++ [name]) children) row = some (prune (.record fields))) :
    (expr scope (struct name children)).eval row =
      some (name, (Datum.record fields).pruneWith prune) := by
  rw [expr, eval, h]
  rfl

/-- The elements of an array are the rows of its children, whose scope starts anew. -/
theorem eval_array (hrow : row.select? scope = some d) (hdot : Dotless (scope ++ [name]))
    {elements : List (Datum α)} (hfield : d.field? name = some (.array elements))
    (h : ∀ e ∈ elements, evalAll (exprs [] children) e = some (prune e)) :
    (expr scope (array name children)).eval row =
      some (name, (Datum.array elements).pruneWith prune) := by
  rw [expr, eval, segments_concat hdot, Datum.select?_concat hrow, hfield]
  simp only [mapM_eq_some_map h]
  simp [Datum.pruneWith, Function.comp_def]

/-- The trees below given names select, from the row whose fields in scope lead to a record, the part of
that record for which their paths ask. -/
theorem evalAll_exprs_grouped {above : List String} {paths : List (List String)}
    (hrow : row.select? scope = some d) (hscope : Dotless scope)
    (hdot : ∀ path ∈ paths, Dotless path) (hfit : ∀ path ∈ paths, d.Fits spec above path) :
    evalAll (exprs scope (grouped spec above paths)) row = some (d.prune paths) := by
  fun_induction grouped spec above paths generalizing scope row d with
  | case1 above => rw [exprs, evalAll, Datum.prune]
  | case2 above paths ih =>
    rw [Datum.prune]
    exact ih hrow hscope (fun p hp => hdot p (List.mem_cons_of_mem _ hp))
      fun p hp => hfit p (List.mem_cons_of_mem _ hp)
  | case3 above name paths ih =>
    obtain ⟨hname, hdot⟩ := List.forall_mem_cons.1 hdot
    obtain ⟨⟨v, hv⟩, hfit⟩ := List.forall_mem_cons.1 hfit
    have hleaf := eval_leaf hrow (dotless_concat hscope (hname name List.mem_cons_self)) hv
    rw [exprs, evalAll, hleaf, Option.bind_some, ih hrow hscope hdot hfit, Datum.prune, hv]
    rfl
  | case4 above name next rest paths ihChildren ihApart =>
    obtain ⟨hpath, hdots⟩ := List.forall_mem_cons.1 hdot
    obtain ⟨hfirst, hfits⟩ := List.forall_mem_cons.1 hfit
    have hrest := ihApart hrow hscope (fun p hp => hdots p (mem_of_mem_apart hp))
      fun p hp => hfits p (mem_of_mem_apart hp)
    have hscope' := dotless_concat hscope (hpath name List.mem_cons_self)
    have hmem : ∀ p ∈ (next :: rest) :: tailsBelow name paths,
        name :: p ∈ (name :: next :: rest) :: paths ∧ p ≠ [] := by
      intro p hp
      rcases List.mem_cons.1 hp with rfl | hp
      · exact ⟨List.mem_cons_self, List.cons_ne_nil _ _⟩
      · obtain ⟨hp, hne⟩ := mem_tailsBelow hp
        exact ⟨List.mem_cons_of_mem _ hp, hne⟩
    have hdot' : ∀ p ∈ (next :: rest) :: tailsBelow name paths, Dotless p :=
      fun p hp n hn => hdot _ (hmem p hp).1 n (List.mem_cons_of_mem _ hn)
    have hfit' : ∀ p ∈ (next :: rest) :: tailsBelow name paths, p ≠ [] ∧ d.Fits spec above (name :: p) :=
      fun p hp => ⟨(hmem p hp).2, hfit _ (hmem p hp).1⟩
    rw [group, exprs, evalAll, Datum.prune]
    by_cases hr : spec.isRepeated (Path.ofSegments (above ++ [name]))
    · obtain ⟨elements, hfield, hbelow⟩ := Datum.fits_elements hr hfit'
      have hnil : Dotless [] := by
        intro n hn
        cases hn
      rw [if_pos hr, eval_array hrow hscope' hfield fun e he => ihChildren rfl hnil hdot' (hbelow e he),
        hrest, hfield]
      rfl
    · obtain ⟨fields, hfield, hbelow⟩ := Datum.fits_record hr hfit'
      have hrow' : row.select? (scope ++ [name]) = some (.record fields) := by
        rw [Datum.select?_concat hrow, hfield]
      rw [if_neg hr, eval_struct (ihChildren hrow' hscope' hdot' hbelow), hrest, hfield]
      rfl

/-! ### Clauses -/

/-- From a row that fits the paths of its columns, the columns clause of a projection selects just the
part for which they ask. -/
theorem evalAll_items_eq_prune {paths : List String} (hp : paths ≠ []) {row : Row α}
    (hfit : ∀ path ∈ paths, (Datum.record row).Fits spec [] (Path.segments path)) :
    columnsClause spec paths = ColumnExpr.clause (Projection.ofPaths spec paths).items ∧
      evalAll (Projection.ofPaths spec paths).items (.record row) =
        some ((Datum.record row).prune (paths.map Path.segments)) := by
  constructor
  · have hne : paths.isEmpty = false := List.isEmpty_eq_false_iff.2 hp
    rw [columnsClause, hne, if_neg Bool.false_ne_true, Projection.clause]
  · rw [Projection.items_ofPaths, ColumnTree.ofPaths]
    refine evalAll_exprs_grouped rfl (by intro n hn; cases hn) ?_ ?_
    · intro path hpath
      obtain ⟨column, -, rfl⟩ := List.mem_map.1 hpath
      exact fun name hname => Path.dot_not_mem_of_mem_segments hname
    · intro path hpath
      obtain ⟨column, hcolumn, rfl⟩ := List.mem_map.1 hpath
      exact hfit column hcolumn

/-- An array in a record in an array, asked for before and after another column. -/
theorem evalAll_items_nested_arrays :
    let spec : Spec := ⟨.ofList ["Lines", "Lines.Item.Parts"], ""⟩
    let paths := ["Lines.Item.Parts.Code", "Id", "Lines.Qty"]
    let row : Row Nat := [("Id", .scalar 7), ("Lines", .array [.record [("Qty", .scalar 4),
      ("Item", .record [("Parts", .array [.record [("Code", .scalar 3), ("Size", .scalar 9)]])])]])]
    columnsClause spec paths = ColumnExpr.clause (Projection.ofPaths spec paths).items ∧
      evalAll (Projection.ofPaths spec paths).items (.record row) =
        some [("Lines", .array [.record [("Item", .record [("Parts", .array [.record [("Code",
          .scalar 3)]])]), ("Qty", .scalar 4)]]), ("Id", .scalar 7)] := by
  intro spec paths row
  have hlines : spec.isRepeated (Path.ofSegments ["Lines"]) := by decide +kernel
  have hitem : ¬ spec.isRepeated (Path.ofSegments ["Lines", "Item"]) := by decide +kernel
  have hparts : spec.isRepeated (Path.ofSegments ["Lines", "Item", "Parts"]) := by decide +kernel
  have hpaths : paths.map Path.segments =
    [["Lines", "Item", "Parts", "Code"], ["Id"], ["Lines", "Qty"]] := by decide +kernel
  have hfit : ∀ path ∈ paths.map Path.segments, (Datum.record row).Fits spec [] path := by
    rw [hpaths]
    simp [Datum.Fits, Datum.field?, List.lookup_cons, row, hlines, hitem, hparts]
  have hprune : (Datum.record row).prune (paths.map Path.segments) =
      [("Lines", .array [.record [("Item", .record [("Parts", .array [.record [("Code",
        .scalar 3)]])]), ("Qty", .scalar 4)]]), ("Id", .scalar 7)] := by
    rw [hpaths]
    simp [Datum.prune, Datum.pruneWith, Datum.field?, tailsBelow, apart, goesBelow, List.lookup_cons, row]
  rw [← hprune]
  exact evalAll_items_eq_prune (List.cons_ne_nil _ _) (List.forall_mem_map.1 hfit)

end QueryClauses
