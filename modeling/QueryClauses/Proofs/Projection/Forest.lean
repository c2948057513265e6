import Mathlib.Data.List.Nodup
import QueryClauses.Proofs.Projection.Graft
import QueryClauses.Proofs.Projection.Grouping

/-! The forest in the store of a projection. A tree depends on nothing but the segments below its root,
so adding a column to the store puts one path into its forest, and the store of some columns holds the
trees into which their paths are grouped. -/

namespace QueryClauses.Projection

variable {spec : Spec} {p q : Projection} {parent : Option Nat} {name : String} {kind : SegmentKind}
  {names : List String} {id : Nat} {s : Segment}

/-- The trees of the children of a parent. -/
def below (p : Projection) (parent : Option Nat) : List ColumnTree :=
  p.trees p.segments.size (p.childrenOf parent)

/-- The tree of a segment. -/
def tree? (p : Projection) (id : Nat) : Option ColumnTree :=
  p.segments[id]?.map fun s => .ofKind s.kind s.name (p.below (some id))

theorem trees_of_size_le {ids : List Nat} (h : ∀ id ∈ ids, p.segments.size ≤ id) :
    ∀ levels, p.trees levels ids = []
  | 0 => rfl
  | levels + 1 => List.filterMap_eq_nil_iff.2 fun id hid => by
    rw [Array.getElem?_eq_none (h id hid), Option.map_none]

/-- As many levels as there are segments from the given ones on show all that is below them. -/
theorem trees_congr_levels (h : p.Linked) {l m : Nat} {ids : List Nat}
    (hl : ∀ id ∈ ids, p.segments.size ≤ id + l) (hm : ∀ id ∈ ids, p.segments.size ≤ id + m) :
    p.trees l ids = p.trees m ids := by
  induction l generalizing m ids with
  | zero => exact (trees_of_size_le hl m).symm
  | succ l ih =>
    cases m with
    | zero => exact trees_of_size_le hm _
    | succ m =>
      refine List.filterMap_congr fun id hid => Option.map_congr fun s hs => ?_
      have hchildren (c : Nat) (hc : c ∈ s.children) : id < c :=
        lt_of_mem_childrenOf h (children_eq_childrenOf hs ▸ hc)
      rw [ih (m := m)]
      · intro c hc
        have := hchildren c hc
        have := hl id hid
        omega
      · intro c hc
        have := hchildren c hc
        have := hm id hid
        omega

theorem below_eq (h : p.Linked) (parent : Option Nat) :
    p.below parent = (p.childrenOf parent).filterMap p.tree? := by
  rw [below, trees_congr_levels h (m := p.segments.size + 1) (fun _ _ => Nat.le_add_left _ _)
    (fun _ _ => Nat.le_trans (Nat.le_succ _) (Nat.le_add_left _ _))]
  refine List.filterMap_congr fun id _ => Option.map_congr fun s hs => ?_
  rw [children_eq_childrenOf hs, below]

/-- Stores that agree on a segment and on all below it have the same tree there. -/
theorem tree?_congr (hp : p.Linked) (hq : q.Linked) (id : Nat) (hid : id < p.segments.size)
    (h : ∀ j, id ∈ p.ancestry j → q.segments[j]? = p.segments[j]?) : q.tree? id = p.tree? id := by
  have hs := h id (mem_ancestry_self hp hid)
  have hc : q.childrenOf (some id) = p.childrenOf (some id) := by rw [childrenOf, childrenOf, hs]
  rw [tree?, tree?, hs, below_eq hp, below_eq hq, hc]
  congr 1
  funext s
  congr 1
  refine List.filterMap_congr fun c hc => ?_
  have := lt_of_mem_childrenOf hp hc
  obtain ⟨t, ht, hpar⟩ := (mem_childrenOf hp).1 hc
  have hidc : id ∈ p.ancestry c :=
    (mem_ancestry hp).2 ⟨t, ht, .inr ⟨id, hpar, mem_ancestry_self hp hid⟩⟩
  have hlt := lt_size_of_mem_childrenOf hp hc
  exact tree?_congr hp hq c hlt fun j hj => h j (mem_ancestry_trans hp hidc hj)
termination_by p.segments.size - id

theorem isGroup_of_tree?_eq_some {t : ColumnTree} (ht : p.tree? id = some t) :
    t.isGroup name = p.segments[id]?.any (·.isGroup name) := by
  obtain ⟨s, hs, rfl⟩ := Option.map_eq_some_iff.1 ht
  rw [hs, Option.any_some, Segment.isGroup]
  cases s.kind <;> rfl

/-! ### Adding a segment -/

theorem tree?_push_of_mem (h : p.Linked) (hp : p.HasPlace parent) (hid : id ∈ p.childrenOf parent) :
    (p.push parent name kind).tree? id = p.tree? id := by
  refine tree?_congr h (linked_push h hp) id (lt_size_of_mem_childrenOf h hid) fun j hj => ?_
  obtain ⟨s, hs, -⟩ := (mem_ancestry h).1 hj
  refine getElem?_push_of_ne (lt_size_of_getElem? hs) ?_
  rintro rfl
  exact Nat.not_le.2 (lt_of_mem_childrenOf h hid) (le_of_mem_ancestry h hj)

theorem below_push_new (h : p.Linked) (hp : p.HasPlace parent) :
    (p.push parent name kind).below (some p.segments.size) = [] := by
  have hne : some p.segments.size ≠ parent := fun he => Nat.lt_irrefl _ (hp _ he.symm)
  have hnil : p.childrenOf (some p.segments.size) = [] := by
    rw [childrenOf, Array.getElem?_eq_none (Nat.le_refl _)]
    rfl
  rw [below_eq (linked_push h hp), childrenOf_push hp, hnil, if_neg hne]
  rfl

theorem below_push (h : p.Linked) (hp : p.HasPlace parent) :
    (p.push parent name kind).below parent = p.below parent ++ [.ofKind kind name []] := by
  have hnew : (p.push parent name kind).tree? p.segments.size = some (.ofKind kind name []) := by
    rw [tree?, getElem?_push_new hp, Option.map_some, below_push_new h hp]
  rw [below_eq (linked_push h hp), childrenOf_push hp, if_pos rfl, List.filterMap_append, below_eq h,
    List.filterMap_cons_some hnew, List.filterMap_nil]
  congr 1
  exact List.filterMap_congr fun id hid => tree?_push_of_mem h hp hid

/-! ### Adding a column -/

theorem tree?_graft_of_ne (h : p.Linked) {c : Nat} (hid : id ∈ p.childrenOf parent)
    (hc : c ∈ p.childrenOf parent) (hne : id ≠ c) :
    (p.graft spec (some id) names).tree? c = p.tree? c := by
  have hplace := hasPlace_of_mem_childrenOf h hid
  refine tree?_congr h (linked_graft h hplace) c (lt_size_of_mem_childrenOf h hc) fun j hj => ?_
  obtain ⟨s, hs, -⟩ := (mem_ancestry h).1 hj
  exact getElem?_graft h hplace (lt_size_of_getElem? hs)
    ⟨id, rfl, fun hd => hne (eq_of_mem_ancestry h hid hc hd hj)⟩

/-- A column that is added below a child changes the tree of that child only. -/
theorem below_graft_child (h : p.Linked) {as bs : List Nat} (hs : p.segments[id]? = some s)
    (hids : p.childrenOf parent = as ++ id :: bs) :
    (p.graft spec (some id) names).below parent = as.filterMap p.tree? ++
      .ofKind s.kind s.name ((p.graft spec (some id) names).below (some id)) :: bs.filterMap p.tree? := by
  have hid : id ∈ p.childrenOf parent := by simp [hids]
  have hnodup := nodup_childrenOf h parent
  rw [hids, List.nodup_middle, List.nodup_cons, List.mem_append, not_or] at hnodup
  have hself : (p.graft spec (some id) names).tree? id =
      some (.ofKind s.kind s.name ((p.graft spec (some id) names).below (some id))) := by
    have hl : (p.graft spec (some id) names).segments[id]?.map Segment.label =
        p.segments[id]?.map Segment.label := label_graft (lt_size_of_getElem? hs)
    rw [hs, Option.map_some] at hl
    obtain ⟨t, ht, hts⟩ := Option.map_eq_some_iff.1 hl
    have hkind : t.kind = s.kind := (congrArg Segment.kind hts :)
    have hname : t.name = s.name := (congrArg Segment.name hts :)
    rw [tree?, ht, Option.map_some, hkind, hname]
  rw [below_eq (linked_graft h (hasPlace_of_mem_childrenOf h hid)), childrenOf_graft h hid, hids,
    List.filterMap_append, List.filterMap_cons_some hself]
  have hsame (c : Nat) (hc : c ∈ as ∨ c ∈ bs) :
      (p.graft spec (some id) names).tree? c = p.tree? c := by
    refine tree?_graft_of_ne h hid ?_ ?_
    · rw [hids, List.mem_append, List.mem_cons]
      exact hc.imp_right .inr
    · rintro rfl
      exact hc.elim hnodup.1.1 hnodup.1.2
  rw [List.filterMap_congr fun c hc => hsame c (.inl hc),
    List.filterMap_congr fun c hc => hsame c (.inr hc)]

theorem ofKind_groupKind (spec : Spec) (p : Projection) (parent : Option Nat) (name : String)
    (ts : List ColumnTree) :
    ColumnTree.ofKind (p.groupKind spec parent name) name ts =
      .group spec (p.namesDownTo parent) name ts := by
  unfold groupKind ColumnTree.group
  split <;> rfl

/-- The group that is found is the first of its name among the children. -/
theorem exists_of_group?_eq_some (h : p.Linked) (hid : p.group? parent name = some id) :
    ∃ s as bs, p.segments[id]? = some s ∧ s.kind ≠ .leaf ∧ s.name = name ∧ s.parent = parent ∧
      p.childrenOf parent = as ++ id :: bs ∧ ∀ t ∈ as.filterMap p.tree?, t.isGroup name = false := by
  obtain ⟨s, hs, hparent⟩ := (mem_childrenOf h).1 (mem_childrenOf_of_group? hid)
  obtain ⟨hgroup, as, bs, hids, has⟩ := List.find?_eq_some_iff_append.1 hid
  rw [hs, Option.any_some, Segment.isGroup, Bool.and_eq_true, decide_eq_true_iff, beq_iff_eq] at hgroup
  refine ⟨s, as, bs, hs, hgroup.1, hgroup.2, hparent, hids, fun t ht => ?_⟩
  obtain ⟨a, ha, hat⟩ := List.mem_filterMap.1 ht
  rw [isGroup_of_tree?_eq_some hat]
  simpa using has a ha

theorem isGroup_of_group?_eq_none (h : p.Linked) (hid : p.group? parent name = none)
    {t : ColumnTree} (ht : t ∈ p.below parent) : t.isGroup name = false := by
  rw [below_eq h] at ht
  obtain ⟨a, ha, hat⟩ := List.mem_filterMap.1 ht
  rw [isGroup_of_tree?_eq_some hat]
  simpa using List.find?_eq_none.1 hid a ha

/-- Adding a column below a parent puts its path into the forest there. -/
theorem below_graft (h : p.Linked) (hp : p.HasPlace parent) :
    (p.graft spec parent names).below parent =
      ColumnTree.graft spec (p.namesDownTo parent) names (p.below parent) := by
  fun_induction graft spec p parent names with
  | case1 => rfl
  | case2 p parent name => exact below_push h hp
  | case3 p parent name rest hr id hid ih =>
    obtain ⟨next, rest, rfl⟩ := List.exists_cons_of_ne_nil hr
    have hplace := hasPlace_of_mem_childrenOf h (mem_childrenOf_of_group? hid)
    obtain ⟨s, as, bs, hs, hkind, rfl, rfl, hids, has⟩ := exists_of_group?_eq_some h hid
    have hself : p.tree? id = some (.ofKind s.kind s.name (p.below (some id))) := by rw [tree?, hs]; rfl
    rw [below_graft_child h hs hids, ih h hplace, namesDownTo_some h hs, below_eq h s.parent, hids,
      List.filterMap_append, List.filterMap_cons_some hself, ColumnTree.graft,
      ColumnTree.amend_append_cons has, ColumnTree.mapChildren_ofKind hkind]
    rw [isGroup_of_tree?_eq_some hself, hs]
    simpa [Segment.isGroup] using hkind
  | case4 p parent name rest hr hid ih =>
    obtain ⟨next, rest, rfl⟩ := List.exists_cons_of_ne_nil hr
    have hgroup := ofKind_groupKind spec p parent name
    generalize p.groupKind spec parent name = kind at ih hgroup ⊢
    have hlink : (p.push parent name kind).Linked := linked_push h hp
    have hnew : (p.push parent name kind).segments[p.segments.size]? =
        some ⟨kind, name, parent, []⟩ := getElem?_push_new hp
    have hids : (p.push parent name kind).childrenOf parent =
        p.childrenOf parent ++ p.segments.size :: [] := by
      rw [childrenOf_push hp, if_pos rfl]
    have hold : (p.childrenOf parent).filterMap (p.push parent name kind).tree? = p.below parent := by
      rw [below_eq h]
      exact List.filterMap_congr fun c hc => tree?_push_of_mem h hp hc
    rw [below_graft_child hlink hnew hids, ih hlink hasPlace_push, hold, below_push_new h hp,
      namesDownTo_some hlink hnew, namesDownTo_push h hp, hgroup, ColumnTree.graft,
      ColumnTree.amend_of_forall_not fun t ht => isGroup_of_group?_eq_none h hid ht]
    rfl

/-! ### The forest -/

theorem forest_addColumn (h : p.Linked) (path : String) :
    (p.addColumn spec path).forest = ColumnTree.graft spec [] (Path.segments path) p.forest :=
  below_graft h hasPlace_none

/-- The store of some columns holds the trees into which their paths are grouped. -/
theorem forest_ofPaths (spec : Spec) (paths : List String) :
    (ofPaths spec paths).forest = ColumnTree.ofPaths spec paths := by
  induction paths using List.reverseRecOn with
  | nil => rw [ColumnTree.ofPaths, List.map_nil, ColumnTree.grouped]; rfl
  | append_singleton paths path ih =>
    rw [ColumnTree.ofPaths, List.map_append, List.map_singleton,
      ColumnTree.grouped_concat (Path.segments_ne_nil path), ← ColumnTree.ofPaths, ← ih,
      ← forest_addColumn (linked_ofPaths spec paths), ofPaths, List.foldl_append]
    rfl

end QueryClauses.Projection
