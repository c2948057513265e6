import QueryClauses.Proofs.Projection.Reading

/-! The fields that are selected from the elements of an array are a projection of their own. Whether a group
below the array is repeated is decided by its whole name, and its references start at the array, so both are
those of the paths below the array, with what is repeated there. -/

namespace QueryClauses

/-- What is left of a path behind another and the dot after it. -/
def Path.below? (above path : String) : Option String :=
  (path.toList.dropPrefix? (above ++ ".").toList).map String.ofList

theorem Path.below?_eq_some_iff {above path rest : String} :
    Path.below? above path = some rest ↔ path = above ++ "." ++ rest := by
  simp only [Path.below?, Option.map_eq_some_iff, List.dropPrefix?_eq_some_iff, beq_iff_eq]
  constructor
  · rintro ⟨cs, ⟨pre, hpath, rfl⟩, rfl⟩
    apply String.toList_inj.1
    rw [hpath, String.toList_append (s := above ++ "."), String.toList_ofList]
  · rintro rfl
    exact ⟨rest.toList, ⟨_, String.toList_append, rfl⟩, String.ofList_toList⟩

namespace Spec

/-- What is repeated below a path, by its name there. -/
def below (s : Spec) (above : String) : Spec :=
  { s with repeated := .ofList (s.repeated.toList.filterMap (Path.below? above)) }

theorem mem_repeated_below {s : Spec} {above path : String} :
    path ∈ (s.below above).repeated ↔ above ++ "." ++ path ∈ s.repeated := by
  simp only [below, PathSet.mem_ofList, List.mem_filterMap, Path.below?_eq_some_iff, exists_eq_right]
  rfl

theorem isRepeated_below (s : Spec) (above path : String) :
    (s.below above).isRepeated path = s.isRepeated (above ++ "." ++ path) :=
  decide_eq_decide.2 mem_repeated_below

end Spec

/-! ### Groups of a clause -/

open Text (Within)

namespace ColumnExpr

def fields : ColumnExpr → List ColumnExpr
  | column _ => []
  | struct fields _ | array fields _ _ => fields

def isGroup (name : String) : ColumnExpr → Bool
  | column _ => false
  | struct _ n | array _ _ n => n == name

/-- The groups that are reached by their names, the outermost first. -/
def groupsAt : List String → List ColumnExpr → List ColumnExpr
  | [], _ => []
  | [name], items => items.filter (isGroup name)
  | name :: next :: rest, items => groupsAt (next :: rest) ((items.filter (isGroup name)).flatMap fields)

variable {e f : ColumnExpr} {items : List ColumnExpr} {name : String}

theorem text_struct (fields : List ColumnExpr) (name : String) :
    (struct fields name).text = structText (clause fields) name := by
  rw [text, clause]

theorem text_array (fields : List ColumnExpr) (source name : String) :
    (array fields source name).text = arrayText (clause fields) source name := by
  rw [text, clause]

theorem within_clause_of_mem (h : e ∈ items) : Within e.text (clause items) := by
  induction items with
  | nil => cases h
  | cons f items ih =>
    cases items with
    | nil => exact ⟨"", "", by simp [clause, texts, List.mem_singleton.1 h]⟩
    | cons g items =>
      have hcons : clause (f :: g :: items) = f.text ++ "," ++ clause (g :: items) := by
        simp only [clause, texts, String.intercalate_cons_cons]
      rcases List.mem_cons.1 h with rfl | h
      · exact ⟨"", "," ++ clause (g :: items), by simp [hcons, String.append_assoc]⟩
      · exact (ih h).trans ⟨f.text ++ ",", "", by rw [hcons, String.append_empty]⟩

theorem within_text_of_mem_fields (h : e ∈ f.fields) : Within e.text f.text := by
  refine (within_clause_of_mem h).trans ?_
  cases f with
  | column reference => cases h
  | struct fields name =>
    rw [text_struct, structText]
    exact ⟨"STRUCT(", ") AS " ++ name, by simp only [ColumnExpr.fields, String.append_assoc]⟩
  | array fields source name =>
    have htext : arrayText (clause fields) source name =
        "ARRAY(SELECT AS STRUCT " ++ clause fields ++ (" FROM UNNEST(" ++ source ++ ")) AS " ++ name) := by
      unfold arrayText
      simp only [String.append_assoc]
    rw [text_array]
    exact ⟨_, _, htext⟩

theorem exists_within_of_mem_groupsAt {names : List String} (h : e ∈ groupsAt names items) :
    ∃ f ∈ items, Within e.text f.text := by
  fun_induction groupsAt names items with
  | case1 => cases h
  | case2 name items => exact ⟨e, List.mem_of_mem_filter h, .refl _⟩
  | case3 name next rest items ih =>
    obtain ⟨g, hg, heg⟩ := ih h
    obtain ⟨f, hf, hgf⟩ := List.mem_flatMap.1 hg
    exact ⟨f, List.mem_of_mem_filter hf, heg.trans (within_text_of_mem_fields hgf)⟩

/-- A group that is reached is written somewhere in the clause. -/
theorem within_clause_of_mem_groupsAt {names : List String} (h : e ∈ groupsAt names items) :
    Within e.text (clause items) := by
  obtain ⟨f, hf, hef⟩ := exists_within_of_mem_groupsAt h
  exact hef.trans (within_clause_of_mem hf)

end ColumnExpr

/-! ### Groups of a forest -/

namespace ColumnTree

variable {spec : Spec} {above scope : List String} {name : String} {path : List String}
  {paths : List (List String)}

theorem tailsBelow_cons_of_goesBelow (h : goesBelow name path) :
    tailsBelow name (path :: paths) = path.tail :: tailsBelow name paths := by
  simp [tailsBelow, h]

theorem tailsBelow_cons_of_not (h : goesBelow name path = false) :
    tailsBelow name (path :: paths) = tailsBelow name paths := by
  simp [tailsBelow, h]

theorem tailsBelow_apart_self (name : String) (paths : List (List String)) :
    tailsBelow name (apart name paths) = [] := by
  simp [tailsBelow, apart, List.filter_filter]

theorem tailsBelow_apart_of_ne {other : String} (h : other ≠ name) (paths : List (List String)) :
    tailsBelow name (apart other paths) = tailsBelow name paths := by
  have hpart (path : List String) (hp : goesBelow name path) : goesBelow other path = false := by
    obtain ⟨next, rest, rfl⟩ := goesBelow_eq_true_iff.1 hp
    simp [goesBelow, h.symm]
  rw [tailsBelow, apart, List.filter_filter, tailsBelow]
  congr 1
  refine List.filter_congr fun path _ => ?_
  cases hp : goesBelow name path with
  | false => rfl
  | true => rw [hpart path hp]; rfl

/-- There is one group of a name just if a path goes on below it, and it has all that do. -/
theorem filter_isGroup_grouped (spec : Spec) (above : List String) (paths : List (List String)) (name : String) :
    (grouped spec above paths).filter (isGroup name) =
      if tailsBelow name paths = [] then []
      else [group spec above name (grouped spec (above ++ [name]) (tailsBelow name paths))] := by
  fun_induction grouped spec above paths with
  | case1 above => simp [tailsBelow]
  | case2 above paths ih => rw [ih, tailsBelow_cons_of_not rfl]
  | case3 above other paths ih => rw [List.filter_cons_of_neg (by simp [isGroup]), ih, tailsBelow_cons_of_not rfl]
  | case4 above other next rest paths _ ihApart =>
    by_cases hn : other = name
    · subst hn
      rw [List.filter_cons_of_pos (by simp [isGroup_group]), ihApart, tailsBelow_apart_self, if_pos rfl,
        tailsBelow_cons_of_goesBelow (by simp [goesBelow]), if_neg (List.cons_ne_nil _ _), List.tail_cons]
    · rw [List.filter_cons_of_neg (by simp [isGroup_group, hn]), ihApart, tailsBelow_apart_of_ne hn,
        tailsBelow_cons_of_not (by simp [goesBelow, hn])]

/-- What is left of a path that goes on behind some names. -/
def rest? (names path : List String) : Option (List String) := (path.dropPrefix? names).filter (· ≠ [])

/-- What is left of the paths that go on behind some names, in their order. -/
def tailsAt (names : List String) (paths : List (List String)) : List (List String) :=
  paths.filterMap (rest? names)

theorem rest?_cons (names path : List String) :
    rest? (name :: names) path = if goesBelow name path then rest? names path.tail else none := by
  match path with
  | [] => rfl
  | [head] =>
    have hnil : rest? names [] = none := by cases names <;> rfl
    by_cases h : head = name
    · subst h
      simpa [rest?, List.dropPrefix?, goesBelow] using hnil
    · simp [rest?, List.dropPrefix?, goesBelow, h]
  | head :: next :: rest =>
    by_cases h : head = name <;> simp [rest?, List.dropPrefix?, goesBelow, h]

theorem tailsAt_cons (names : List String) (paths : List (List String)) :
    tailsAt (name :: names) paths = tailsAt names (tailsBelow name paths) := by
  rw [tailsAt, tailsAt, tailsBelow, List.filterMap_map, List.filterMap_filter]
  exact List.filterMap_congr fun path _ => rest?_cons names path

theorem tailsAt_singleton (name : String) (paths : List (List String)) :
    tailsAt [name] paths = tailsBelow name paths := by
  rw [tailsAt_cons]
  refine (List.filterMap_congr fun path hp => ?_).trans List.filterMap_some
  simp [rest?, (mem_tailsBelow hp).2]

theorem filter_isGroup_exprs (ts : List ColumnTree) :
    (exprs scope ts).filter (ColumnExpr.isGroup name) = exprs scope (ts.filter (isGroup name)) := by
  rw [exprs_eq_map, exprs_eq_map, List.filter_map]
  congr 1
  refine List.filter_congr fun t _ => ?_
  cases t <;> rfl

theorem filter_isGroup_exprs_grouped (h : tailsBelow name paths ≠ []) :
    (exprs scope (grouped spec above paths)).filter (ColumnExpr.isGroup name) =
      [expr scope (group spec above name (grouped spec (above ++ [name]) (tailsBelow name paths)))] := by
  rw [filter_isGroup_exprs, filter_isGroup_grouped, if_neg h, exprs, exprs]

theorem exists_fields_expr_group (spec : Spec) (above scope : List String) (name : String)
    (children : List ColumnTree) :
    ∃ inner, (expr scope (group spec above name children)).fields = exprs inner children := by
  unfold group
  split
  · exact ⟨[], rfl⟩
  · exact ⟨scope ++ [name], rfl⟩

/-- There is one group at the names of a repeated column below which something is asked for. It is an array,
and it selects what is left of the paths behind those names. -/
theorem groupsAt_exprs_grouped {names : List String} (hne : names ≠ []) (ht : tailsAt names paths ≠ [])
    (hr : spec.isRepeated (Path.ofSegments (above ++ names))) :
    ∃ source name, ColumnExpr.groupsAt names (exprs scope (grouped spec above paths)) =
      [.array (exprs [] (grouped spec (above ++ names) (tailsAt names paths))) source name] := by
  induction names generalizing above scope paths with
  | nil => exact absurd rfl hne
  | cons name rest ih =>
    cases rest with
    | nil =>
      rw [tailsAt_singleton] at ht
      rw [ColumnExpr.groupsAt, filter_isGroup_exprs_grouped ht, tailsAt_singleton, group, if_pos hr, expr]
      exact ⟨_, _, rfl⟩
    | cons next rest =>
      rw [tailsAt_cons] at ht
      have hb : tailsBelow name paths ≠ [] := by
        intro hnil
        rw [hnil] at ht
        exact ht rfl
      have happend : above ++ name :: next :: rest = above ++ [name] ++ next :: rest := by simp
      obtain ⟨inner, hfields⟩ := exists_fields_expr_group spec above scope name
        (grouped spec (above ++ [name]) (tailsBelow name paths))
      rw [happend] at hr
      rw [ColumnExpr.groupsAt, filter_isGroup_exprs_grouped hb, List.flatMap_singleton, hfields, happend,
        tailsAt_cons]
      exact ih (List.cons_ne_nil _ _) ht hr

/-! ### Below an array -/

theorem group_below {base : List String} (hb : base ≠ []) (children : List ColumnTree) :
    group spec (base ++ above) name children =
      group (spec.below (Path.ofSegments base)) above name children := by
  rw [group, group, Spec.isRepeated_below, List.append_assoc, Path.ofSegments_append hb (by simp)]

/-- Below some names the groups are those of the paths there, with what is repeated there. -/
theorem grouped_below {base : List String} (hb : base ≠ []) (above : List String) (paths : List (List String)) :
    grouped spec (base ++ above) paths = grouped (spec.below (Path.ofSegments base)) above paths := by
  fun_induction grouped (spec.below (Path.ofSegments base)) above paths with
  | case1 above => rw [grouped]
  | case2 above paths ih => rw [grouped, ih]
  | case3 above name paths ih => rw [grouped, ih]
  | case4 above name next rest paths ihChildren ihApart =>
    rw [grouped, List.append_assoc, ihChildren, ihApart, group_below hb]

theorem rest?_segments (above path : String) :
    rest? (Path.segments above) (Path.segments path) = (Path.below? above path).map Path.segments := by
  ext tail
  simp only [rest?, Option.filter_eq_some_iff, List.dropPrefix?_eq_some_iff, beq_iff_eq, decide_eq_true_eq,
    Option.map_eq_some_iff, Path.below?_eq_some_iff]
  constructor
  · rintro ⟨⟨_, hpath, rfl⟩, hne⟩
    refine ⟨Path.ofSegments tail, ?_, Path.segments_ofSegments hne fun name hn => ?_⟩
    · rw [← Path.ofSegments_segments path, hpath, Path.ofSegments_append (Path.segments_ne_nil above) hne,
        Path.ofSegments_segments]
    · exact Path.dot_not_mem_of_mem_segments (hpath ▸ List.mem_append_right _ hn)
  · rintro ⟨rest, rfl, rfl⟩
    exact ⟨⟨_, Path.segments_append above rest, rfl⟩, Path.segments_ne_nil rest⟩

theorem tailsAt_map_segments (above : String) (paths : List String) :
    tailsAt (Path.segments above) (paths.map Path.segments) =
      (paths.filterMap (Path.below? above)).map Path.segments := by
  rw [tailsAt, List.filterMap_map, List.map_filterMap]
  exact List.filterMap_congr fun path _ => rest?_segments above path

end ColumnTree

open ColumnExpr ColumnTree

theorem exists_groupsAt_items {spec : Spec} {above : String} {paths : List String} (hr : above ∈ spec.repeated)
    (hinner : paths.filterMap (Path.below? above) ≠ []) :
    ∃ source name, groupsAt (Path.segments above) (Projection.ofPaths spec paths).items =
      [.array (exprs [] (ofPaths (spec.below above) (paths.filterMap (Path.below? above)))) source name] := by
  have hnames := Path.segments_ne_nil above
  have htails := tailsAt_map_segments above paths
  have hne : tailsAt (Path.segments above) (paths.map Path.segments) ≠ [] := by
    rw [htails]
    simpa using hinner
  have hrepeated : spec.isRepeated (Path.ofSegments ([] ++ Path.segments above)) := by
    rw [List.nil_append, Path.ofSegments_segments]
    exact decide_eq_true hr
  have hbelow (tails : List (List String)) : grouped spec ([] ++ Path.segments above) tails =
      grouped (spec.below above) [] tails := by
    rw [List.nil_append, ← List.append_nil (Path.segments above), grouped_below hnames, Path.ofSegments_segments]
  rw [Projection.items_ofPaths, ofPaths, ofPaths, ← htails, ← hbelow]
  exact groupsAt_exprs_grouped hnames hne hrepeated

/-- A repeated column below which something is asked for has one group in the projection. It is an array, and
what stands in it is the columns clause for the paths below the column, with what is repeated there. -/
theorem groupsAt_items_of_repeated {spec : Spec} {above : String} {paths : List String}
    (hr : above ∈ spec.repeated) (hp : ∃ rest, above ++ "." ++ rest ∈ paths) :
    ∃ fields source name,
      groupsAt (Path.segments above) (Projection.ofPaths spec paths).items = [.array fields source name] ∧
        ColumnExpr.clause fields = columnsClause (spec.below above) (paths.filterMap (Path.below? above)) ∧
        Within (arrayText (columnsClause (spec.below above) (paths.filterMap (Path.below? above))) source name)
          (columnsClause spec paths) := by
  obtain ⟨rest, hrest⟩ := hp
  have hinner : paths.filterMap (Path.below? above) ≠ [] :=
    List.ne_nil_of_mem (List.mem_filterMap.2 ⟨_, hrest, Path.below?_eq_some_iff.2 rfl⟩)
  obtain ⟨source, name, hgroups⟩ := exists_groupsAt_items hr hinner
  have hclause : columnsClause (spec.below above) (paths.filterMap (Path.below? above)) = _ :=
    columnsClause_eq_clause_exprs hinner
  refine ⟨_, source, name, hgroups, hclause.symm, ?_⟩
  have hmem := List.mem_singleton_self (ColumnExpr.array (exprs [] (ofPaths (spec.below above)
    (paths.filterMap (Path.below? above)))) source name)
  rw [← hgroups] at hmem
  have hwithin := within_clause_of_mem_groupsAt hmem
  rwa [text_array, ← hclause, Projection.items_ofPaths,
    ← columnsClause_eq_clause_exprs (List.ne_nil_of_mem hrest)] at hwithin

/-- An array in a record in an array, with a path of its own among other paths, a leaf of its name, and another
array with the same name elsewhere. -/
theorem groupsAt_items_of_repeated_inner_array :
    let spec : Spec := ⟨.ofList ["N.det", "N.det.prod.DI", "N.det.prod.DI.adi", "DI"], ""⟩
    let paths := ["N.det.x", "N.det.prod.DI.adi.n", "DI.y", "N.det.prod.DI", "N.det.prod.DI.k", "N.e"]
    let inner := columnsClause (spec.below "N.det.prod.DI") ["adi.n", "k"]
    inner = "ARRAY(SELECT AS STRUCT n FROM UNNEST(adi)) AS adi,k" ∧
      ∃ fields source name,
        groupsAt ["N", "det", "prod", "DI"] (Projection.ofPaths spec paths).items = [.array fields source name] ∧
          ColumnExpr.clause fields = inner ∧
          Within (arrayText inner source name) (columnsClause spec paths) := by
  intro spec paths inner
  have hnames : Path.segments "N.det.prod.DI" = ["N", "det", "prod", "DI"] := by decide +kernel
  have hbelow : paths.filterMap (Path.below? "N.det.prod.DI") = ["adi.n", "k"] := by decide +kernel
  have h := @groupsAt_items_of_repeated spec "N.det.prod.DI" paths (by decide +kernel) ⟨"k", by decide +kernel⟩
  rw [hnames, hbelow] at h
  exact ⟨by decide +kernel, h⟩

end QueryClauses
