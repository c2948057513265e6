import QueryClauses.Proofs.Projection.Forest
import QueryClauses.Proofs.Projection.WellFormed

/-! Adding a column touches the list of one parent. The names of the column lead down through the groups that
are there already, as far as there are any, and what is left of it is hung below the last of these as a strand
of new segments, each the only child of the one before it. -/

namespace QueryClauses.Projection

variable {spec : Spec} {p q r : Projection} {parent pending : Option Nat} {names known rest : List String}
  {id : Nat} {ids : List Nat} {s : Segment} {added : List Segment}

/-- The groups have the given names, and each is directly below the one before it, the first of them below a
parent. -/
inductive Descends (p : Projection) : Option Nat → List String → List Nat → Prop
  | stop (parent : Option Nat) : p.Descends parent [] []
  | step {parent : Option Nat} {names : List String} {id : Nat} {ids : List Nat} {s : Segment}
    (hid : id ∈ p.childrenOf parent) (hs : p.segments[id]? = some s) (hk : s.kind ≠ .leaf)
    (h : p.Descends (some id) names ids) : p.Descends parent (s.name :: names) (id :: ids)

/-- Segments of the given names in consecutive places, each the only child of the one before it and the last
of them a leaf. The first is below a parent that has the names above it. -/
def strand (spec : Spec) (above : List String) (parent : Option Nat) (place : Nat) :
    List String → List Segment
  | [] => []
  | [name] => [⟨.leaf, name, parent, []⟩]
  | name :: rest =>
    ⟨if spec.isRepeated (Path.ofSegments (above ++ [name])) then .array else .struct, name, parent, [place + 1]⟩ ::
      strand spec (above ++ [name]) (some place) (place + 1) rest

theorem strand_cons (spec : Spec) (above : List String) (parent : Option Nat) (place : Nat) (name : String)
    {rest : List String} (hr : rest ≠ []) : strand spec above parent place (name :: rest) =
      ⟨if spec.isRepeated (Path.ofSegments (above ++ [name])) then .array else .struct, name, parent, [place + 1]⟩ ::
        strand spec (above ++ [name]) (some place) (place + 1) rest := by
  obtain ⟨next, rest, rfl⟩ := List.exists_cons_of_ne_nil hr
  rfl

theorem length_strand (spec : Spec) (above : List String) (parent : Option Nat) (place : Nat)
    (names : List String) : (strand spec above parent place names).length = names.length := by
  fun_induction strand spec above parent place names with
  | case1 => rfl
  | case2 => rfl
  | case3 above parent place name rest _ ih => rw [List.length_cons, ih, List.length_cons]

/-! ### Segments behind the others -/

/-- A store with some segments added behind those of another, the first of them as the last child of a
parent. -/
structure Extends (p q : Projection) (parent : Option Nat) (added : List Segment) : Prop where
  old : ∀ j < p.segments.size, q.segments[j]? =
    p.segments[j]?.map fun s => if parent = some j then s.adopt p.segments.size else s
  new : ∀ i, q.segments[p.segments.size + i]? = added[i]?
  roots : q.roots = if parent = none then p.roots ++ [p.segments.size] else p.roots

theorem Extends.size (h : p.Extends q parent added) (hne : added ≠ []) :
    q.segments.size = p.segments.size + added.length := by
  have hpos := List.length_pos_of_ne_nil hne
  have hlast := h.new (added.length - 1)
  have hend := h.new added.length
  rw [List.getElem?_eq_getElem (by omega)] at hlast
  rw [List.getElem?_eq_none (Nat.le_refl _), Array.getElem?_eq_none_iff] at hend
  have hlt := lt_size_of_getElem? hlast
  omega

theorem Extends.label (h : p.Extends q parent added) {j : Nat} (hj : j < p.segments.size) :
    q.segments[j]?.map Segment.label = p.segments[j]?.map Segment.label := by
  rw [h.old j hj, Option.map_map]
  congr 1
  funext s
  simp only [Function.comp]
  split <;> rfl

theorem Extends.childrenOf (h : p.Extends q parent added) {a : Option Nat} (ha : p.HasPlace a) :
    q.childrenOf a = p.childrenOf a ++ if a = parent then [p.segments.size] else [] := by
  cases a with
  | none =>
    simp only [Projection.childrenOf, h.roots, eq_comm]
    split <;> simp
  | some id =>
    obtain ⟨s, hs⟩ : ∃ s, p.segments[id]? = some s := ⟨_, Array.getElem?_eq_getElem (ha id rfl)⟩
    simp only [Projection.childrenOf, h.old id (ha id rfl), hs, eq_comm]
    split <;> simp [Segment.adopt]

theorem extends_push (hp : p.HasPlace parent) (name : String) (kind : SegmentKind) :
    p.Extends (p.push parent name kind) parent [⟨kind, name, parent, []⟩] where
  old _ hj := getElem?_push_old hj
  new i := by
    cases i with
    | zero => exact getElem?_push_new hp
    | succ i => exact Array.getElem?_eq_none (by rw [size_push]; omega)
  roots := roots_push

/-- What is put below the only new segment comes behind it. -/
theorem Extends.trans (h : p.Extends q parent [s]) (hq : q.Extends r (some p.segments.size) added) :
    p.Extends r parent (s.adopt q.segments.size :: added) where
  old j hj := by
    have hsize := h.size (List.cons_ne_nil _ _)
    rw [hq.old j (by omega)]
    simp only [Option.some.injEq, Nat.ne_of_gt hj, if_false, Option.map_id', h.old j hj]
  new i := by
    have hsize : q.segments.size = p.segments.size + 1 := h.size (List.cons_ne_nil _ _)
    cases i with
    | zero =>
      have hs : q.segments[p.segments.size]? = some s := h.new 0
      rw [Nat.add_zero, hq.old _ (by omega), hs]
      simp
    | succ i =>
      have hnew := hq.new i
      rwa [hsize, Nat.add_assoc, Nat.add_comm 1 i] at hnew
  roots := hq.roots.trans h.roots

/-! ### The strand -/

/-- No group is there for the first of some names, unless that one is the last. -/
def IsNew (p : Projection) (parent : Option Nat) (names : List String) : Prop :=
  ∀ name rest, names = name :: rest → rest ≠ [] → p.group? parent name = none

theorem isNew_of_childrenOf_eq_nil (h : p.childrenOf parent = []) : p.IsNew parent names := by
  intro name _ _ _
  rw [group?, h, List.find?_nil]

/-- Where there is no group for its first name, all of a column is hung. -/
theorem extends_graft_of_isNew (h : p.Linked) (hp : p.HasPlace parent) (hne : names ≠ [])
    (hnew : p.IsNew parent names) :
    p.Extends (p.graft spec parent names) parent
      (strand spec (p.namesDownTo parent) parent p.segments.size names) := by
  induction names generalizing p parent with
  | nil => exact absurd rfl hne
  | cons name rest ih =>
    by_cases hr : rest = []
    · subst hr
      exact extends_push hp name .leaf
    have hpush : p.Extends (p.push parent name (p.groupKind spec parent name)) parent _ :=
      extends_push hp name _
    have hnil : (p.push parent name (p.groupKind spec parent name)).childrenOf (some p.segments.size) = [] := by
      rw [← children_eq_childrenOf (getElem?_push_new hp)]
    have hrest := ih (linked_push h hp) hasPlace_push hr (isNew_of_childrenOf_eq_nil hnil)
    rw [namesDownTo_some (linked_push h hp) (getElem?_push_new hp), namesDownTo_push h hp] at hrest
    have hboth := hpush.trans hrest
    rw [graft_cons spec p parent name hr, hnew name rest rfl hr, strand_cons spec _ parent _ name hr]
    rwa [size_push] at hboth

/-! ### The groups that are there -/

/-- The last of some groups, or the parent above them if there are none. -/
def lowest (parent : Option Nat) (ids : List Nat) : Option Nat := ids.getLast?.or parent

theorem lowest_cons (parent : Option Nat) (id : Nat) (ids : List Nat) :
    lowest parent (id :: ids) = lowest (some id) ids := by
  cases ids with
  | nil => rfl
  | cons a ids => rw [lowest, lowest, List.getLast?_cons_cons, List.getLast?_cons, Option.some_or, Option.some_or]

/-- A group that is there is the one that is found. -/
theorem group?_eq_some (h : p.Grouped spec pending) (hid : id ∈ p.childrenOf parent)
    (hs : p.segments[id]? = some s) (hk : s.kind ≠ .leaf) : p.group? parent s.name = some id := by
  obtain ⟨t, ht, hq⟩ := (mem_childrenOf h.linked).1 hid
  rw [hs] at ht
  cases ht
  cases hfound : p.group? parent s.name with
  | none => exact absurd rfl (not_group_of_group?_eq_none h.linked hfound hs hq hk)
  | some other =>
    obtain ⟨t, -, -, ht, hkt, hname, hqt, -⟩ := exists_of_group?_eq_some h.linked hfound
    rw [h.unique hs ht (hq.trans hqt.symm) hk hkt hname.symm]

/-- Some names lead down through groups that are there, up to names that are new. -/
theorem exists_descends (h : p.Linked) (parent : Option Nat) (hne : names ≠ []) :
    ∃ known rest ids, names = known ++ rest ∧ rest ≠ [] ∧ p.Descends parent known ids ∧
      p.IsNew (lowest parent ids) rest := by
  induction names generalizing parent with
  | nil => exact absurd rfl hne
  | cons name rest ih =>
    by_cases hr : rest = []
    · exact ⟨[], name :: rest, [], rfl, hne, .stop parent, fun _ _ he hmore =>
        absurd ((List.cons.inj he).2 ▸ hr) hmore⟩
    cases hid : p.group? parent name with
    | none =>
      refine ⟨[], name :: rest, [], rfl, hne, .stop parent, fun _ _ he _ => ?_⟩
      exact (List.cons.inj he).1 ▸ hid
    | some id =>
      obtain ⟨s, -, -, hs, hk, rfl, -⟩ := exists_of_group?_eq_some h hid
      obtain ⟨known, left, ids, rfl, hleft, hd, hnew⟩ := ih (some id) hr
      exact ⟨s.name :: known, left, id :: ids, rfl, hleft, .step (mem_childrenOf_of_group? hid) hs hk hd,
        lowest_cons parent id ids ▸ hnew⟩

theorem Descends.hasPlace (hd : p.Descends parent known ids) (h : p.Linked) (hp : p.HasPlace parent) :
    p.HasPlace (lowest parent ids) := by
  induction hd with
  | stop => exact hp
  | @step parent _ id ids _ hid _ _ _ ih =>
    rw [lowest_cons]
    exact ih (hasPlace_of_mem_childrenOf h hid)

theorem Descends.namesDownTo (hd : p.Descends parent known ids) (h : p.Linked) :
    p.namesDownTo (lowest parent ids) = p.namesDownTo parent ++ known := by
  induction hd with
  | stop => rw [List.append_nil]; rfl
  | @step parent _ id ids s hid hs _ _ ih =>
    obtain ⟨t, ht, rfl⟩ := (mem_childrenOf h).1 hid
    rw [hs] at ht
    cases ht
    rw [lowest_cons, ih, namesDownTo_some h hs, List.append_assoc, List.singleton_append]

/-- A column goes down through the groups that are there for its names. -/
theorem Descends.graft_append (hd : p.Descends parent known ids) (h : p.Grouped spec pending)
    (hne : rest ≠ []) : p.graft spec parent (known ++ rest) = p.graft spec (lowest parent ids) rest := by
  induction hd with
  | stop => rfl
  | @step parent names id ids s hid hs hk _ ih =>
    have hrest : names ++ rest ≠ [] := List.append_ne_nil_of_right_ne_nil names hne
    rw [List.cons_append, graft_cons spec p parent s.name hrest, group?_eq_some h hid hs hk, lowest_cons]
    exact ih

/-- There is no other way down for the names before the last, and none goes on where they are new. -/
theorem Descends.prefix_of_isNew {others : List String} {places : List Nat}
    (hd : p.Descends parent known ids) (h : p.Grouped spec pending) (hne : rest ≠ [])
    (hnew : p.IsNew (lowest parent ids) rest) (hothers : others <+: (known ++ rest).dropLast)
    (hplaces : p.Descends parent others places) : places <+: ids := by
  induction hd generalizing others places with
  | stop parent =>
    cases hplaces with
    | stop => exact List.prefix_rfl
    | @step _ names id _ s hid hs hk _ =>
      obtain ⟨name, more, rfl⟩ := List.exists_cons_of_ne_nil hne
      have hmore : more ≠ [] := by
        rintro rfl
        cases List.prefix_nil.1 hothers
      rw [List.nil_append, List.dropLast_cons_of_ne_nil hmore, List.cons_prefix_cons] at hothers
      have hfound := group?_eq_some h hid hs hk
      rw [hothers.1, show p.group? parent name = none from hnew name more rfl hmore] at hfound
      cases hfound
  | @step parent names id ids s hid hs hk _ ih =>
    cases hplaces with
    | stop => exact List.nil_prefix
    | @step _ others other places t hother ht hkt hbelow =>
      have hrest : names ++ rest ≠ [] := List.append_ne_nil_of_right_ne_nil names hne
      rw [List.cons_append, List.dropLast_cons_of_ne_nil hrest, List.cons_prefix_cons] at hothers
      have hfound := group?_eq_some h hother ht hkt
      rw [hothers.1, group?_eq_some h hid hs hk] at hfound
      cases hfound
      rw [lowest_cons] at hnew
      exact List.cons_prefix_cons.2 ⟨rfl, ih hnew hothers.2 hbelow⟩

/-- A column that is added to a projection is followed through the groups that are there for its names before
the last, as far as possible. What is left of it makes as many new segments, a strand of groups that ends in
one leaf. All others keep their place, kind, name and parent, and no list of children changes but that of the
last group on the way, or that of the roots: it gets the first of the new segments at its end. -/
theorem addColumn_ofPaths (spec : Spec) (paths : List String) (path : String) :
    let p := ofPaths spec paths
    let q := p.addColumn spec path
    ∃ known rest ids, Path.segments path = known ++ rest ∧ rest ≠ [] ∧ p.Descends none known ids ∧
      (∀ names places, names <+: (Path.segments path).dropLast → p.Descends none names places → places <+: ids) ∧
      q.segments.size = p.segments.size + rest.length ∧
      (∀ i, q.segments[p.segments.size + i]? = (strand spec known ids.getLast? p.segments.size rest)[i]?) ∧
      (∀ j < p.segments.size, q.segments[j]?.map Segment.label = p.segments[j]?.map Segment.label) ∧
      ∀ parent, p.HasPlace parent →
        q.childrenOf parent = p.childrenOf parent ++ if parent = ids.getLast? then [p.segments.size] else [] := by
  intro p q
  have hgrouped : p.Grouped spec none := grouped_ofPaths spec paths
  obtain ⟨known, rest, ids, hnames, hrest, hd, hnew⟩ :=
    exists_descends hgrouped.linked none (Path.segments_ne_nil path)
  have hgraft : q = p.graft spec (lowest none ids) rest := by
    rw [← hd.graft_append hgrouped hrest, ← hnames]
    rfl
  have hext : p.Extends q (lowest none ids) _ := hgraft ▸
    extends_graft_of_isNew hgrouped.linked (hd.hasPlace hgrouped.linked hasPlace_none) hrest hnew
  rw [hd.namesDownTo hgrouped.linked, lowest, Option.or_none] at hext
  have hlength := length_strand spec known ids.getLast? p.segments.size rest
  have hstrand : strand spec known ids.getLast? p.segments.size rest ≠ [] :=
    List.ne_nil_of_length_pos (hlength ▸ List.length_pos_of_ne_nil hrest)
  exact ⟨known, rest, ids, hnames, hrest, hd,
    fun _ _ hothers => hd.prefix_of_isNew hgrouped hrest hnew (hnames ▸ hothers),
    hlength ▸ hext.size hstrand, hext.new, fun _ hj => hext.label hj, fun _ hp => hext.childrenOf hp⟩

/-- A leaf of the name of a group is passed by. -/
example :
    let spec : Spec := ⟨.ofList ["a.b"], ""⟩
    ((ofPaths spec ["a", "a.x"]).addColumn spec "a.b.c").segments.toList =
      [⟨.leaf, "a", none, []⟩, ⟨.struct, "a", none, [2, 3]⟩, ⟨.leaf, "x", some 1, []⟩,
        ⟨.array, "b", some 1, [4]⟩, ⟨.leaf, "c", some 3, []⟩] := by
  decide +kernel

end QueryClauses.Projection
