import QueryClauses.Proofs.Projection.Row

/-! The leaves of a projection are the columns that were asked for. Grouping reorders the paths, but not those
with the same names before the last one. In the clause, the references on the way to a leaf spell its path, and
so do the names that are given on the way. -/

namespace QueryClauses

/-- The names of a path before the last dot. -/
def Path.parent (path : String) : List String := (Path.segments path).dropLast

/-! ### Routes -/

namespace ColumnExpr

/-- How a leaf is reached: the sources that are unnested around it and then its own reference, and the names
given to the groups around it and then its own name. -/
structure Route where
  sources : List String
  names : List String

mutual

/-- The routes to the leaves of an item from left to right, outermost groups first. -/
def routes : ColumnExpr → List Route
  | column reference => [⟨[reference], [(Path.segments reference).getLastD ""]⟩]
  | struct fields name => (routesOf fields).map fun r => ⟨r.sources, name :: r.names⟩
  | array fields source name => (routesOf fields).map fun r => ⟨source :: r.sources, name :: r.names⟩

def routesOf : List ColumnExpr → List Route
  | [] => []
  | e :: es => routes e ++ routesOf es

end

end ColumnExpr

namespace ColumnTree

variable {spec : Spec} {P : String → Prop} {above scope : List String} {name : String}

/-! ### Names in a forest -/

mutual

/-- Every name of the tree is like that, and every group has children. -/
def Grown (P : String → Prop) : ColumnTree → Prop
  | leaf name => P name
  | struct name children => P name ∧ children ≠ [] ∧ AllGrown P children
  | array name children => P name ∧ children ≠ [] ∧ AllGrown P children

def AllGrown (P : String → Prop) : List ColumnTree → Prop
  | [] => True
  | t :: ts => Grown P t ∧ AllGrown P ts

end

theorem grown_group {children : List ColumnTree} :
    (group spec above name children).Grown P ↔ P name ∧ children ≠ [] ∧ AllGrown P children := by
  unfold group
  split <;> rw [Grown]

theorem grouped_ne_nil {path : List String} {paths : List (List String)} (h : path ≠ []) :
    grouped spec above (path :: paths) ≠ [] := by
  match path, h with
  | [_], _ => rw [grouped]; exact List.cons_ne_nil _ _
  | _ :: _ :: _, _ => rw [grouped]; exact List.cons_ne_nil _ _

theorem mem_cons_tailsBelow {path p : List String} {paths : List (List String)}
    (h : p ∈ path :: tailsBelow name paths) : name :: p ∈ (name :: path) :: paths := by
  rcases List.mem_cons.1 h with rfl | h
  · exact List.mem_cons_self
  · exact List.mem_cons_of_mem _ (mem_tailsBelow h).1

/-- The names in the trees of some paths are names of those paths. -/
theorem allGrown_grouped {paths : List (List String)} (h : ∀ path ∈ paths, ∀ name ∈ path, P name) :
    AllGrown P (grouped spec above paths) := by
  fun_induction grouped spec above paths with
  | case1 above => rw [AllGrown]; trivial
  | case2 above paths ih => exact ih fun path hp => h path (List.mem_cons_of_mem _ hp)
  | case3 above name paths ih =>
    rw [AllGrown, Grown]
    exact ⟨h [name] List.mem_cons_self name List.mem_cons_self,
      ih fun path hp => h path (List.mem_cons_of_mem _ hp)⟩
  | case4 above name next rest paths ihChildren ihApart =>
    rw [AllGrown, grown_group]
    refine ⟨⟨h _ List.mem_cons_self name List.mem_cons_self, grouped_ne_nil (List.cons_ne_nil _ _), ?_⟩, ?_⟩
    · exact ihChildren fun path hp n hn => h _ (mem_cons_tailsBelow hp) n (List.mem_cons_of_mem _ hn)
    · exact ihApart fun path hp => h path (List.mem_cons_of_mem _ (mem_of_mem_apart hp))

/-! ### Paths of the leaves -/

mutual

/-- The names from the root of the tree down to each of its leaves. -/
def namePaths : ColumnTree → List (List String)
  | leaf name => [[name]]
  | struct name children => (namePathsOf children).map (name :: ·)
  | array name children => (namePathsOf children).map (name :: ·)

def namePathsOf : List ColumnTree → List (List String)
  | [] => []
  | t :: ts => namePaths t ++ namePathsOf ts

end

theorem namePaths_group {children : List ColumnTree} :
    (group spec above name children).namePaths = (namePathsOf children).map (name :: ·) := by
  unfold group
  split <;> rw [namePaths]

mutual

theorem leaves_eq (above : List String) :
    ∀ t : ColumnTree, leaves above t = t.namePaths.map fun names => Path.ofSegments (above ++ names)
  | leaf name => rfl
  | struct name children => by
    rw [leaves, namePaths, leavesOf_eq, List.map_map]
    simp only [Function.comp_def, List.append_assoc, List.singleton_append]
  | array name children => by
    rw [leaves, namePaths, leavesOf_eq, List.map_map]
    simp only [Function.comp_def, List.append_assoc, List.singleton_append]

theorem leavesOf_eq (above : List String) :
    ∀ ts : List ColumnTree,
      leavesOf above ts = (namePathsOf ts).map fun names => Path.ofSegments (above ++ names)
  | [] => rfl
  | t :: ts => by rw [leavesOf, namePathsOf, leaves_eq above t, leavesOf_eq above ts, List.map_append]

end

/-! ### Order -/

/-- Whether a path goes below a name can be seen from its names before the last. -/
theorem goesBelow_eq (name : String) (path : List String) :
    goesBelow name path = (path.dropLast.head? == some name) := by
  match path with
  | [] => rfl
  | [_] => rfl
  | head :: next :: rest => simp [goesBelow]

theorem namePathsOf_ne_nil : ∀ {ts : List ColumnTree}, ∀ names ∈ namePathsOf ts, names ≠ []
  | [], names, h => by rw [namePathsOf] at h; cases h
  | t :: ts, names, h => by
    rw [namePathsOf, List.mem_append] at h
    rcases h with h | h
    · cases t with
      | leaf name =>
        rw [namePaths, List.mem_singleton] at h
        exact h ▸ List.cons_ne_nil _ _
      | struct name children =>
        obtain ⟨below, -, rfl⟩ := List.mem_map.1 h
        exact List.cons_ne_nil _ _
      | array name children =>
        obtain ⟨below, -, rfl⟩ := List.mem_map.1 h
        exact List.cons_ne_nil _ _
    · exact namePathsOf_ne_nil names h

/-- Of paths that start with one name, those with the same names before the last are the same below it. -/
theorem filter_dropLast_map_cons {paths : List (List String)} (h : ∀ path ∈ paths, path ≠ [])
    (key : List String) : (paths.map (name :: ·)).filter (·.dropLast = key) =
      if key.head? = some name then (paths.filter (·.dropLast = key.tail)).map (name :: ·) else [] := by
  have hdrop (path) (hp : path ∈ paths) : (name :: path).dropLast = name :: path.dropLast :=
    List.dropLast_cons_of_ne_nil (h path hp)
  split
  · next hk =>
    obtain ⟨key, rfl⟩ := List.head?_eq_some_iff.1 hk
    rw [List.filter_map]
    congr 1
    refine List.filter_congr fun path hp => decide_eq_decide.2 ?_
    simp [hdrop path hp]
  · next hk =>
    rw [List.filter_eq_nil_iff]
    intro path hpath
    obtain ⟨path, hp, rfl⟩ := List.mem_map.1 hpath
    rw [hdrop path hp, decide_eq_true_eq]
    rintro rfl
    exact hk rfl

theorem filter_filter_eq_filter {α : Type} {p q : α → Bool} (h : ∀ x, p x → q x) (l : List α) :
    (l.filter q).filter p = l.filter p := by
  rw [List.filter_filter]
  exact List.filter_congr fun x _ => Bool.and_eq_left_iff_imp.2 (h x)

theorem filter_filter_eq_nil {α : Type} {p q : α → Bool} (h : ∀ x, p x → ¬ q x) (l : List α) :
    (l.filter q).filter p = [] := by
  rw [List.filter_eq_nil_iff]
  exact fun x hx hp => h x hp (List.of_mem_filter hx)

/-- A property that decides another has its elements on one side of a list parted by that other. -/
theorem filter_filter_append_filter_not {α : Type} {p q : α → Bool} (b : Bool) (h : ∀ x, p x → q x = b)
    (l : List α) : (l.filter q).filter p ++ (l.filter (!q ·)).filter p = l.filter p := by
  cases b with
  | true =>
    rw [filter_filter_eq_filter h, filter_filter_eq_nil fun x hp => by simp [h x hp], List.append_nil]
  | false =>
    rw [filter_filter_eq_nil fun x hp => by simp [h x hp], filter_filter_eq_filter fun x hp => by simp [h x hp],
      List.nil_append]

theorem map_cons_tailsBelow (name : String) (paths : List (List String)) :
    (tailsBelow name paths).map (name :: ·) = paths.filter (goesBelow name) := by
  rw [tailsBelow, List.map_map]
  refine (List.map_congr_left fun path hp => ?_).trans (List.map_id _)
  obtain ⟨next, rest, rfl⟩ := goesBelow_eq_true_iff.1 (List.of_mem_filter hp)
  rfl

/-- The paths of the leaves are those that were grouped, and paths with the same names before the last stay
in their order. -/
theorem filter_dropLast_grouped {paths : List (List String)} (h : ∀ path ∈ paths, path ≠ [])
    (key : List String) : (namePathsOf (grouped spec above paths)).filter (·.dropLast = key) =
      paths.filter (·.dropLast = key) := by
  fun_induction grouped spec above paths generalizing key with
  | case1 above => rfl
  | case2 above paths ih => exact absurd rfl (h [] List.mem_cons_self)
  | case3 above name paths ih =>
    have ih := ih (fun path hp => h path (List.mem_cons_of_mem _ hp)) key
    rw [namePathsOf, namePaths, List.singleton_append, List.filter_cons, List.filter_cons, ih]
  | case4 above name next rest paths ihChildren ihApart =>
    have htails : ∀ path ∈ (next :: rest) :: tailsBelow name paths, path ≠ [] :=
      List.forall_mem_cons.2 ⟨List.cons_ne_nil _ _, fun path hp => (mem_tailsBelow hp).2⟩
    have hbelow : ((next :: rest) :: tailsBelow name paths).map (name :: ·) =
        ((name :: next :: rest) :: paths).filter (goesBelow name) := by
      rw [List.map_cons, map_cons_tailsBelow, List.filter_cons_of_pos (by simp [goesBelow])]
    have hapart : apart name paths = ((name :: next :: rest) :: paths).filter (!goesBelow name ·) := by
      rw [List.filter_cons_of_neg (by simp [goesBelow]), apart]
    have hchildren (key) := ihChildren htails key
    have hrest := ihApart (fun path hp => h path (List.mem_cons_of_mem _ (mem_of_mem_apart hp))) key
    rw [namePathsOf, namePaths_group, List.filter_append, filter_dropLast_map_cons namePathsOf_ne_nil,
      hchildren, ← filter_dropLast_map_cons htails, hbelow, hrest, hapart]
    refine filter_filter_append_filter_not (key.head? == some name) (fun path hp => ?_) _
    rw [goesBelow_eq, of_decide_eq_true hp]

/-- Every path has its leaf, as often as it was asked for. -/
theorem namePathsOf_grouped_perm {paths : List (List String)} (h : ∀ path ∈ paths, path ≠ []) :
    (namePathsOf (grouped spec above paths)).Perm paths := by
  rw [List.perm_iff_count]
  intro path
  have hcount (l : List (List String)) : (l.filter (·.dropLast = path.dropLast)).count path = l.count path :=
    List.count_filter (by simp)
  rw [← hcount, filter_dropLast_grouped h, hcount]

/-! ### Routes to the leaves -/

open ColumnExpr (Route routes routesOf)

/-- The references on the way from the names in scope are joined to the same text as the names on it. -/
structure Spells (scope : List String) (r : Route) : Prop where
  sources_ne_nil : r.sources ≠ []
  names_ne_nil : r.names ≠ []
  ofSegments_eq : Path.ofSegments r.sources = Path.ofSegments (scope ++ r.names)

theorem Spells.struct {r : Route} (h : Spells (scope ++ [name]) r) :
    Spells scope ⟨r.sources, name :: r.names⟩ where
  sources_ne_nil := h.sources_ne_nil
  names_ne_nil := List.cons_ne_nil _ _
  ofSegments_eq := by rw [h.ofSegments_eq, List.append_assoc, List.singleton_append]

/-- An array is referred to from the scope around it, and in it the scope starts anew. -/
theorem Spells.array {r : Route} (h : Spells [] r) :
    Spells scope ⟨Path.ofSegments (scope ++ [name]) :: r.sources, name :: r.names⟩ where
  sources_ne_nil := List.cons_ne_nil _ _
  names_ne_nil := List.cons_ne_nil _ _
  ofSegments_eq := by
    have hjoin : Path.ofSegments (scope ++ name :: r.names) =
        Path.ofSegments (scope ++ [name]) ++ "." ++ Path.ofSegments r.names := by
      rw [List.append_cons, Path.ofSegments_append (by simp) h.names_ne_nil]
    rw [hjoin, ← List.nil_append r.names, ← h.ofSegments_eq, Path.ofSegments,
      String.intercalate_cons_of_ne_nil h.sources_ne_nil]
    rfl

/-- A name that is one part of a dotted name. -/
def IsPart (name : String) : Prop := '.' ∉ name.toList

theorem routes_expr_leaf (hs : Dotless scope) (hn : IsPart name) :
    routes (expr scope (leaf name)) = [⟨[Path.ofSegments (scope ++ [name])], [name]⟩] := by
  rw [expr, routes, segments_concat (dotless_concat hs hn)]
  simp

mutual

theorem spells_of_mem_routes {r : Route} : ∀ {t : ColumnTree} {scope : List String}, Dotless scope →
    t.Grown IsPart → r ∈ routes (expr scope t) → Spells scope r
  | leaf name, scope, hs, ht, h => by
    rw [routes_expr_leaf hs ht, List.mem_singleton] at h
    subst h
    exact ⟨List.cons_ne_nil _ _, List.cons_ne_nil _ _, String.intercalate_singleton⟩
  | struct name children, scope, hs, ht, h => by
    obtain ⟨hn, -, hc⟩ := ht
    rw [expr, routes] at h
    obtain ⟨r, hr, rfl⟩ := List.mem_map.1 h
    exact (spells_of_mem_routesOf (dotless_concat hs hn) hc hr).struct
  | array name children, scope, hs, ht, h => by
    obtain ⟨hn, -, hc⟩ := ht
    rw [expr, routes] at h
    obtain ⟨r, hr, rfl⟩ := List.mem_map.1 h
    exact (spells_of_mem_routesOf (List.forall_mem_nil _) hc hr).array

theorem spells_of_mem_routesOf {r : Route} : ∀ {ts : List ColumnTree} {scope : List String}, Dotless scope →
    AllGrown IsPart ts → r ∈ routesOf (exprs scope ts) → Spells scope r
  | [], scope, _, _, h => by rw [exprs, routesOf] at h; cases h
  | t :: ts, scope, hs, ⟨ht, hts⟩, h => by
    rw [exprs, routesOf, List.mem_append] at h
    exact h.elim (spells_of_mem_routes hs ht) (spells_of_mem_routesOf hs hts)

end

mutual

theorem map_names_routes : ∀ {t : ColumnTree} {scope : List String}, Dotless scope → t.Grown IsPart →
    (routes (expr scope t)).map Route.names = t.namePaths
  | leaf name, scope, hs, ht => by
    rw [routes_expr_leaf hs ht, namePaths]
    rfl
  | struct name children, scope, hs, ⟨hn, _, hc⟩ => by
    rw [expr, routes, namePaths, ← map_names_routesOf (dotless_concat hs hn) hc, List.map_map, List.map_map]
    rfl
  | array name children, scope, _, ⟨_, _, hc⟩ => by
    rw [expr, routes, namePaths, ← map_names_routesOf (List.forall_mem_nil _) hc, List.map_map, List.map_map]
    rfl

theorem map_names_routesOf : ∀ {ts : List ColumnTree} {scope : List String}, Dotless scope →
    AllGrown IsPart ts → (routesOf (exprs scope ts)).map Route.names = namePathsOf ts
  | [], _, _, _ => rfl
  | t :: ts, scope, hs, ⟨ht, hts⟩ => by
    rw [exprs, routesOf, namePathsOf, List.map_append, map_names_routes hs ht, map_names_routesOf hs hts]

end

/-! ### Leaves of a projection -/

variable {paths : List String}

theorem allGrown_ofPaths : AllGrown IsPart (ofPaths spec paths) :=
  allGrown_grouped (List.forall_mem_map.2 fun _ _ _ hn => Path.dot_not_mem_of_mem_segments hn)

theorem segments_ne_nil_of_mem : ∀ names ∈ paths.map Path.segments, names ≠ [] :=
  List.forall_mem_map.2 fun path _ => Path.segments_ne_nil path

theorem map_ofSegments_map_segments (paths : List String) :
    (paths.map Path.segments).map Path.ofSegments = paths := by
  rw [List.map_map]
  exact (List.map_congr_left fun path _ => Path.ofSegments_segments path).trans (List.map_id _)

theorem leavesOf_ofPaths :
    leavesOf [] (ofPaths spec paths) = (namePathsOf (ofPaths spec paths)).map Path.ofSegments := by
  rw [leavesOf_eq]
  rfl

theorem leavesOf_ofPaths_perm : (leavesOf [] (ofPaths spec paths)).Perm paths := by
  rw [leavesOf_ofPaths]
  exact ((namePathsOf_grouped_perm segments_ne_nil_of_mem).map _).trans
    (.of_eq (map_ofSegments_map_segments paths))

theorem filter_parent_map_ofSegments {l : List (List String)}
    (h : ∀ names ∈ l, ∃ path, names = Path.segments path) (parent : List String) :
    (l.map Path.ofSegments).filter (Path.parent · = parent) =
      (l.filter (·.dropLast = parent)).map Path.ofSegments := by
  rw [List.filter_map]
  congr 1
  refine List.filter_congr fun names hn => decide_eq_decide.2 ?_
  obtain ⟨path, rfl⟩ := h names hn
  rw [Path.ofSegments_segments, Path.parent]

/-- The names down to a leaf are those of one of the paths. -/
theorem exists_eq_segments_of_mem {names : List String} (h : names ∈ namePathsOf (ofPaths spec paths)) :
    ∃ path, names = Path.segments path := by
  obtain ⟨path, -, rfl⟩ := List.mem_map.1 ((namePathsOf_grouped_perm segments_ne_nil_of_mem).mem_iff.1 h)
  exact ⟨path, rfl⟩

theorem filter_parent_leavesOf_ofPaths (parent : List String) :
    (leavesOf [] (ofPaths spec paths)).filter (Path.parent · = parent) =
      paths.filter (Path.parent · = parent) := by
  have hsegments : ∀ names ∈ paths.map Path.segments, ∃ path, names = Path.segments path :=
    List.forall_mem_map.2 fun path _ => ⟨path, rfl⟩
  rw [leavesOf_ofPaths, filter_parent_map_ofSegments fun _ hn => exists_eq_segments_of_mem hn, ofPaths,
    filter_dropLast_grouped segments_ne_nil_of_mem, ← filter_parent_map_ofSegments hsegments,
    map_ofSegments_map_segments]

end ColumnTree

open ColumnTree ColumnExpr

/-- Read along the references in the clause or along the names given in it, the routes to the leaves of a
projection are its leaves from left to right. These are the columns that were asked for, each as often as it
was, and columns with the same names before the last are in the order in which they were asked for. -/
theorem routesOf_items_ofPaths (spec : Spec) (paths : List String) :
    let p := Projection.ofPaths spec paths
    let leaves := leavesOf [] p.forest
    (routesOf p.items).map (fun r => Path.ofSegments r.sources) = leaves ∧
      (routesOf p.items).map (fun r => Path.ofSegments r.names) = leaves ∧
      leaves.Perm paths ∧
      ∀ parent, leaves.filter (Path.parent · = parent) = paths.filter (Path.parent · = parent) := by
  intro p leaves
  have hleaves : leaves = leavesOf [] (ColumnTree.ofPaths spec paths) := by
    rw [← Projection.forest_ofPaths]
  have hnames : (routesOf p.items).map (fun r => Path.ofSegments r.names) = leaves := by
    rw [hleaves, leavesOf_ofPaths, ← map_names_routesOf (List.forall_mem_nil _) allGrown_ofPaths,
      ← Projection.items_ofPaths, List.map_map]
    rfl
  refine ⟨?_, hnames, hleaves ▸ leavesOf_ofPaths_perm, hleaves ▸ filter_parent_leavesOf_ofPaths⟩
  rw [← hnames]
  refine List.map_congr_left fun r hr => ?_
  rw [Projection.items_ofPaths] at hr
  exact (spells_of_mem_routesOf (List.forall_mem_nil _) allGrown_ofPaths hr).ofSegments_eq

example :
    leavesOf [] (Projection.ofPaths ⟨.ofList ["a"], ""⟩ ["a.y", "b", "a.x", "a.y"]).forest =
      ["a.y", "a.x", "a.y", "b"] := by
  decide +kernel

end QueryClauses
