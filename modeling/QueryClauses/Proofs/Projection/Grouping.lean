import QueryClauses.Projection.Forest

/-! Grouping paths one at a time. The trees of some paths and one more are the trees of those paths with
the last one put among them: it goes on below the first group of its name, or starts a group. -/

namespace QueryClauses.ColumnTree

variable {spec : Spec} {above : List String} {name : String} {path : List String}
  {t : ColumnTree} {ts : List ColumnTree}

def isGroup (name : String) : ColumnTree → Bool
  | leaf _ => false
  | struct n _ | array n _ => n == name

def mapChildren (f : List ColumnTree → List ColumnTree) : ColumnTree → ColumnTree
  | leaf name => leaf name
  | struct name children => struct name (f children)
  | array name children => array name (f children)

/-- Changes the first group of a name; if there is none, a new tree comes last. -/
def amend (name : String) (change : ColumnTree → ColumnTree) (new : ColumnTree) :
    List ColumnTree → List ColumnTree
  | [] => [new]
  | t :: ts => if t.isGroup name then change t :: ts else t :: amend name change new ts

/-- The forest below given names with one more path in it. -/
def graft (spec : Spec) (above : List String) : List String → List ColumnTree → List ColumnTree
  | [], forest => forest
  | [name], forest => forest ++ [leaf name]
  | name :: next :: rest, forest =>
    let extend := graft spec (above ++ [name]) (next :: rest)
    amend name (mapChildren extend) (group spec above name (extend [])) forest

theorem isGroup_group {n : String} : (group spec above n ts).isGroup name = (n == name) := by
  unfold group
  split <;> rfl

theorem mapChildren_group (f : List ColumnTree → List ColumnTree) :
    (group spec above name ts).mapChildren f = group spec above name (f ts) := by
  unfold group
  split <;> rfl

theorem mapChildren_ofKind {kind : SegmentKind} (hk : kind ≠ .leaf)
    (f : List ColumnTree → List ColumnTree) :
    (ofKind kind name ts).mapChildren f = ofKind kind name (f ts) := by
  cases kind with
  | leaf => exact absurd rfl hk
  | struct => rfl
  | array => rfl

variable {change : ColumnTree → ColumnTree} {new : ColumnTree}

theorem amend_of_forall_not (h : ∀ t ∈ ts, t.isGroup name = false) :
    amend name change new ts = ts ++ [new] := by
  induction ts with
  | nil => rfl
  | cons t ts ih =>
    obtain ⟨ht, hts⟩ := List.forall_mem_cons.1 h
    rw [amend, ht, ih hts]
    rfl

theorem amend_append_cons {us : List ColumnTree} (h : ∀ t ∈ us, t.isGroup name = false)
    (ht : t.isGroup name) : amend name change new (us ++ t :: ts) = us ++ change t :: ts := by
  induction us with
  | nil => simp [amend, ht]
  | cons u us ih =>
    obtain ⟨hu, hus⟩ := List.forall_mem_cons.1 h
    rw [List.cons_append, amend, hu, ih hus]
    rfl

/-! ### Grouping -/

theorem grouped_singleton (hp : path ≠ []) :
    grouped spec above [path] = graft spec above path [] := by
  induction path generalizing above with
  | nil => exact absurd rfl hp
  | cons name rest ih =>
    cases rest with
    | nil => simp [grouped, graft]
    | cons next rest =>
      have ih : grouped spec (above ++ [name]) [next :: rest] = _ := ih (List.cons_ne_nil _ _)
      simp only [grouped, tailsBelow, apart, List.filter_nil, List.map_nil, ih, graft, amend]

/-- A path passes by a tree into which it does not go. -/
theorem graft_cons_of_not (hp : path ≠ [])
    (h : ∀ name next rest, path = name :: next :: rest → t.isGroup name = false) :
    graft spec above path (t :: ts) = t :: graft spec above path ts := by
  match path, hp with
  | [name], _ => rfl
  | name :: next :: rest, _ =>
    simp only [graft, amend, h name next rest rfl]
    rfl

theorem goesBelow_eq_true_iff :
    goesBelow name path = true ↔ ∃ next rest, path = name :: next :: rest := by
  match path with
  | [] => simp [goesBelow]
  | [_] => simp [goesBelow]
  | head :: next :: rest => simp [goesBelow]

theorem tailsBelow_concat (paths : List (List String)) :
    tailsBelow name (paths ++ [path]) =
      tailsBelow name paths ++ if goesBelow name path then [path.tail] else [] := by
  cases h : goesBelow name path <;> simp [tailsBelow, h]

theorem apart_concat (paths : List (List String)) :
    apart name (paths ++ [path]) =
      apart name paths ++ if goesBelow name path then [] else [path] := by
  cases h : goesBelow name path <;> simp [apart, h]

/-- The last path is put among the trees of those before it. -/
theorem grouped_concat (hp : path ≠ []) (paths : List (List String)) :
    grouped spec above (paths ++ [path]) = graft spec above path (grouped spec above paths) := by
  fun_induction grouped spec above paths generalizing path with
  | case1 above => exact grouped_singleton hp
  | case2 above paths ih =>
    rw [List.cons_append, grouped]
    exact ih hp
  | case3 above name paths ih =>
    rw [List.cons_append, grouped, ih hp, graft_cons_of_not hp fun _ _ _ _ => rfl]
  | case4 above name next rest paths ihChildren ihApart =>
    rw [List.cons_append, grouped, tailsBelow_concat, apart_concat]
    cases hb : goesBelow name path with
    | true =>
      obtain ⟨head, tail, rfl⟩ := goesBelow_eq_true_iff.1 hb
      have ih := ihChildren (List.cons_ne_nil head tail)
      rw [List.cons_append] at ih
      rw [if_pos rfl, if_pos rfl, List.append_nil, List.tail_cons, ih]
      rw [graft, amend, isGroup_group, beq_self_eq_true, if_pos rfl, mapChildren_group]
    | false =>
      have hne : ∀ n head tail, path = n :: head :: tail →
          (group spec above name
            (grouped spec (above ++ [name]) ((next :: rest) :: tailsBelow name paths))).isGroup n = false := by
        rintro n head tail rfl
        have hn : n ≠ name := by simpa [goesBelow] using hb
        rw [isGroup_group]
        exact beq_false_of_ne hn.symm
      rw [graft_cons_of_not hp hne, ← ihApart hp]
      simp only [Bool.false_eq_true, if_false, List.append_nil]

end QueryClauses.ColumnTree
