import QueryClauses.Proofs.Projection.Regrouping
import QueryClauses.Proofs.Projection.WellFormed

/-! What of a specification a projection depends on. Where a segment is put does not depend on the kinds of the
groups: the store with all groups read as records is that of a specification in which nothing is repeated. The
kind of a group depends on its whole name alone, so the clause tells of the names around its columns whether they
are repeated, and of no others. -/

namespace QueryClauses

/-- The dotted names of the groups around a path: some of its first names, but not all. -/
def Path.groups (path : String) : List String :=
  (List.range' 1 ((segments path).length - 1)).map fun k => ofSegments ((segments path).take k)

/-- The segment with a group read as a record. -/
def Segment.asRecord (s : Segment) : Segment := { s with kind := if s.kind = .leaf then .leaf else .struct }

namespace Projection

variable {spec other : Spec} {p q : Projection} {parent : Option Nat} {name : String} {kind : SegmentKind}
  {names : List String} {id : Nat}

/-- The store with all groups read as records. -/
def asRecords (p : Projection) : Projection := { p with segments := p.segments.map Segment.asRecord }

/-! ### Places -/

@[simp] theorem getElem?_asRecords : p.asRecords.segments[id]? = p.segments[id]?.map Segment.asRecord :=
  Array.getElem?_map

@[simp] theorem size_asRecords : p.asRecords.segments.size = p.segments.size :=
  Array.size_map

theorem childrenOf_asRecords (parent : Option Nat) : p.asRecords.childrenOf parent = p.childrenOf parent := by
  cases parent with
  | none => rfl
  | some a =>
    rw [childrenOf, childrenOf, getElem?_asRecords, Option.map_map]
    rfl

theorem isGroup_asRecord (s : Segment) (name : String) : s.asRecord.isGroup name = s.isGroup name := by
  cases hk : s.kind <;> simp [Segment.asRecord, Segment.isGroup, hk]

theorem group?_asRecords : p.asRecords.group? parent name = p.group? parent name := by
  rw [group?, group?, childrenOf_asRecords]
  congr 1
  funext id
  rw [getElem?_asRecords, Option.any_map]
  congr 1
  funext s
  exact isGroup_asRecord s name

theorem asRecords_push : (p.push parent name kind).asRecords =
    p.asRecords.push parent name (if kind = .leaf then .leaf else .struct) := by
  have hmap : (p.segments.push ⟨kind, name, parent, []⟩).map Segment.asRecord =
      p.asRecords.segments.push ⟨if kind = .leaf then .leaf else .struct, name, parent, []⟩ := Array.map_push
  cases parent with
  | none => rw [push, push, asRecords, hmap, size_asRecords]; rfl
  | some a =>
    have hmodify (segments : Array Segment) :
        (segments.modify a (·.adopt p.segments.size)).map Segment.asRecord =
          (segments.map Segment.asRecord).modify a (·.adopt p.segments.size) := by
      refine Array.ext (by simp) fun id hid hid' => ?_
      simp only [Array.getElem_map, Array.getElem_modify]
      split <;> rfl
    rw [push, push, asRecords, hmodify, hmap, size_asRecords]
    rfl

/-- Nothing is repeated in a specification of nothing but a template. -/
theorem groupKind_new (p : Projection) (parent : Option Nat) (name : String) :
    p.groupKind (.new "") parent name = .struct := by
  rw [groupKind, Spec.isRepeated, Spec.new]
  simp

/-- A column goes to the same place whatever the kinds of the groups. -/
theorem asRecords_graft (spec : Spec) (p : Projection) (parent : Option Nat) (names : List String) :
    (p.graft spec parent names).asRecords = p.asRecords.graft (.new "") parent names := by
  fun_induction graft spec p parent names with
  | case1 => rfl
  | case2 p parent name => rw [asRecords_push, graft, if_pos rfl]
  | case3 p parent name rest hr id hid ih =>
    rw [ih, graft_cons _ _ _ _ hr, group?_asRecords, hid]
  | case4 p parent name rest hr hid ih =>
    rw [ih, graft_cons _ _ _ _ hr, group?_asRecords, hid, asRecords_push, if_neg (groupKind_ne_leaf _ _ _ _),
      groupKind_new, size_asRecords]

theorem asRecords_ofPaths (spec : Spec) (paths : List String) :
    (ofPaths spec paths).asRecords = ofPaths (.new "") paths := by
  induction paths using List.reverseRecOn with
  | nil => simp [ofPaths, empty, asRecords]
  | append_singleton paths path ih =>
    rw [ofPaths, List.foldl_append, ofPaths, List.foldl_append, ← ofPaths, ← ofPaths, ← ih]
    exact asRecords_graft spec _ none (Path.segments path)

theorem ancestry_asRecords (p : Projection) (id : Nat) : p.asRecords.ancestry id = p.ancestry id := by
  fun_induction ancestry p id with
  | case1 id hs =>
    rw [ancestry]
    simp [hs]
  | case2 id s hs hq =>
    rw [ancestry]
    simp [hs, Segment.asRecord, hq]
  | case3 id s hs a hq hlt ih =>
    rw [ancestry]
    simp [hs, Segment.asRecord, hq, hlt, ih]
  | case4 id s hs a hq hlt =>
    rw [ancestry]
    simp [hs, Segment.asRecord, hq, hlt]

theorem fullName_asRecords (p : Projection) (id : Nat) : p.asRecords.fullName id = p.fullName id := by
  have hnames (ids : List Nat) : p.asRecords.names ids = p.names ids := by
    refine List.filterMap_congr fun id _ => ?_
    rw [getElem?_asRecords, Option.map_map]
    rfl
  rw [fullName, fullName, namesDownTo, namesDownTo, ancestry_asRecords, hnames]

/-! ### Kinds -/

/-- Two stores that differ in nothing but the kinds of groups, and in those just if the whole name of the group
is repeated in one of two specifications and not in the other. -/
structure DifferInKinds (spec other : Spec) (p q : Projection) : Prop where
  roots_eq : p.roots = q.roots
  size_eq : p.segments.size = q.segments.size
  segment_eq : ∀ {id : Nat} {s t : Segment}, p.segments[id]? = some s → q.segments[id]? = some t →
    s.name = t.name ∧ s.parent = t.parent ∧ s.children = t.children
  kind_ne_iff : ∀ {id : Nat} {s t : Segment}, p.segments[id]? = some s → q.segments[id]? = some t →
    (s.kind ≠ t.kind ↔
      s.kind ≠ .leaf ∧ ¬ (p.fullName id ∈ spec.repeated ↔ p.fullName id ∈ other.repeated))

/-- Segments that are the same as records are both leaves or both groups. -/
theorem eq_of_asRecord_eq {s t : Segment} (h : s.asRecord = t.asRecord) :
    (s.kind = .leaf ↔ t.kind = .leaf) ∧
      s.name = t.name ∧ s.parent = t.parent ∧ s.children = t.children := by
  obtain ⟨hkind, hrest⟩ := Segment.mk.inj h
  refine ⟨?_, hrest⟩
  by_cases hs : s.kind = .leaf <;> by_cases ht : t.kind = .leaf <;> simp [hs, ht] at hkind ⊢

theorem differInKinds_of_asRecords_eq (hp : p.Grouped spec none) (hq : q.Grouped other none)
    (h : p.asRecords = q.asRecords) : DifferInKinds spec other p q := by
  have hrecord {id : Nat} {s t : Segment} (hs : p.segments[id]? = some s) (ht : q.segments[id]? = some t) :
      s.asRecord = t.asRecord := by
    apply Option.some.inj
    rw [← Option.map_some, ← hs, ← getElem?_asRecords, h, getElem?_asRecords, ht, Option.map_some]
  refine ⟨(congrArg roots h :), ?_, fun hs ht => (eq_of_asRecord_eq (hrecord hs ht)).2,
    fun {id s t} hs ht => ?_⟩
  · rw [← p.size_asRecords, h, size_asRecords]
  · obtain ⟨hleaf, -⟩ := eq_of_asRecord_eq (hrecord hs ht)
    by_cases hk : s.kind = .leaf
    · simp [hk, hleaf.1 hk]
    · have hname : q.fullName id = p.fullName id := by rw [← fullName_asRecords, ← h, fullName_asRecords]
      rw [hp.kind_eq hs hk, hq.kind_eq ht (mt hleaf.2 hk), hname]
      by_cases hr : p.fullName id ∈ spec.repeated <;> by_cases ho : p.fullName id ∈ other.repeated <;>
        simp [hr, ho]

theorem differInKinds_ofPaths (spec other : Spec) (paths : List String) :
    DifferInKinds spec other (ofPaths spec paths) (ofPaths other paths) :=
  differInKinds_of_asRecords_eq (grouped_ofPaths spec paths) (grouped_ofPaths other paths)
    (by rw [asRecords_ofPaths, asRecords_ofPaths])

end Projection

/-! ### Clauses -/

namespace ColumnTree

variable {spec other : Spec} {above : List String} {name : String} {names : List String}

/-- Two specifications agree on the groups around a path below given names. -/
def AgreeAlong (spec other : Spec) (above : List String) : List String → Prop
  | name :: next :: rest =>
    spec.isRepeated (Path.ofSegments (above ++ [name])) = other.isRepeated (Path.ofSegments (above ++ [name])) ∧
      AgreeAlong spec other (above ++ [name]) (next :: rest)
  | _ => True

theorem agreeAlong_cons (hn : names ≠ []) : AgreeAlong spec other above (name :: names) ↔
    spec.isRepeated (Path.ofSegments (above ++ [name])) = other.isRepeated (Path.ofSegments (above ++ [name])) ∧
      AgreeAlong spec other (above ++ [name]) names := by
  obtain ⟨next, rest, rfl⟩ := List.exists_cons_of_ne_nil hn
  rfl

theorem agreeAlong_iff : AgreeAlong spec other above names ↔ ∀ k, 0 < k → k < names.length →
    spec.isRepeated (Path.ofSegments (above ++ names.take k)) =
      other.isRepeated (Path.ofSegments (above ++ names.take k)) := by
  induction names generalizing above with
  | nil => simp [AgreeAlong]
  | cons name rest ih =>
    cases rest with
    | nil => simp [AgreeAlong]; omega
    | cons next rest =>
      rw [AgreeAlong, ih]
      constructor
      · rintro ⟨hname, hrest⟩ k hpos hk
        match k, hpos with
        | 1, _ => exact hname
        | k + 2, _ => simpa using hrest (k + 1) (Nat.succ_pos k) (by simpa using hk)
      · intro h
        refine ⟨h 1 Nat.one_pos (by simp), fun k hpos hk => ?_⟩
        simpa using h (k + 1) (Nat.succ_pos k) (by simpa using hk)

theorem group_eq_group_iff {ts us : List ColumnTree} : group spec above name ts = group other above name us ↔
    spec.isRepeated (Path.ofSegments (above ++ [name])) = other.isRepeated (Path.ofSegments (above ++ [name])) ∧
      ts = us := by
  unfold group
  cases spec.isRepeated (Path.ofSegments (above ++ [name])) <;>
    cases other.isRepeated (Path.ofSegments (above ++ [name])) <;> simp

/-- Two specifications agree along some paths, if they agree along what goes on below a name and along the rest. -/
theorem forall_agreeAlong_cons_iff {next : String} {rest : List String} {paths : List (List String)} :
    (∀ path ∈ (name :: next :: rest) :: paths, AgreeAlong spec other above path) ↔
      (spec.isRepeated (Path.ofSegments (above ++ [name])) =
          other.isRepeated (Path.ofSegments (above ++ [name])) ∧
        ∀ path ∈ (next :: rest) :: tailsBelow name paths, AgreeAlong spec other (above ++ [name]) path) ∧
      ∀ path ∈ apart name paths, AgreeAlong spec other above path := by
  constructor
  · intro h
    have hfirst := (agreeAlong_cons (List.cons_ne_nil _ _)).1 (h _ List.mem_cons_self)
    refine ⟨⟨hfirst.1, fun path hp => ?_⟩, fun path hp =>
      h path (List.mem_cons_of_mem _ (mem_of_mem_apart hp))⟩
    rcases List.mem_cons.1 hp with rfl | hp
    · exact hfirst.2
    · obtain ⟨hp, hne⟩ := mem_tailsBelow hp
      exact ((agreeAlong_cons hne).1 (h _ (List.mem_cons_of_mem _ hp))).2
  · rintro ⟨⟨hname, hbelow⟩, hapart⟩ path hp
    by_cases hb : goesBelow name path
    · obtain ⟨head, tail, rfl⟩ := goesBelow_eq_true_iff.1 hb
      refine ⟨hname, hbelow _ ?_⟩
      rcases List.mem_cons.1 hp with he | hp
      · cases he
        exact List.mem_cons_self
      · exact List.mem_cons_of_mem _ (List.mem_map.2 ⟨_, List.mem_filter.2 ⟨hp, hb⟩, rfl⟩)
    · rcases List.mem_cons.1 hp with rfl | hp
      · exact absurd (goesBelow_cons (List.cons_ne_nil _ _)) hb
      · exact hapart path (List.mem_filter.2 ⟨hp, by simpa using hb⟩)

/-- The forests of some paths are the same for two specifications just if these agree on the groups around the
paths. -/
theorem grouped_eq_grouped_iff {paths : List (List String)} :
    grouped spec above paths = grouped other above paths ↔
      ∀ path ∈ paths, AgreeAlong spec other above path := by
  fun_induction grouped spec above paths with
  | case1 above => simp [grouped]
  | case2 above paths ih => simp [grouped, ih, AgreeAlong]
  | case3 above name paths ih => simp [grouped, ih, AgreeAlong]
  | case4 above name next rest paths ihChildren ihApart =>
    rw [grouped, List.cons.injEq, group_eq_group_iff, ihChildren, ihApart, forall_agreeAlong_cons_iff]

theorem agreeAlong_segments_iff {path : String} : AgreeAlong spec other [] (Path.segments path) ↔
    ∀ g ∈ Path.groups path, spec.isRepeated g = other.isRepeated g := by
  have hmem (k : Nat) : k ∈ List.range' 1 ((Path.segments path).length - 1) ↔
      0 < k ∧ k < (Path.segments path).length := by
    rw [List.mem_range'_1]
    omega
  simp only [agreeAlong_iff, Path.groups, List.forall_mem_map, hmem, and_imp, List.nil_append]

theorem ofPaths_eq_ofPaths_iff {paths : List String} : ofPaths spec paths = ofPaths other paths ↔
    ∀ path ∈ paths, ∀ g ∈ Path.groups path, spec.isRepeated g = other.isRepeated g := by
  rw [ofPaths, ofPaths, grouped_eq_grouped_iff, List.forall_mem_map]
  exact forall₂_congr fun path _ => agreeAlong_segments_iff

end ColumnTree

open ColumnExpr (marks)

theorem Spec.isRepeated_withRepeated_of_ne {spec : Spec} {path entry : String} (h : path ≠ entry) :
    (spec.withRepeated entry).isRepeated path = spec.isRepeated path :=
  decide_eq_decide.2 (by simp [withRepeated, h])

/-- With two specifications the segments of a projection are in the same places, and only groups whose whole
names are repeated in one and not in the other differ in their kinds. So the clause is the same if the two agree
on the groups around its paths, whatever their templates are and whatever else is repeated, and where names have
no space, bracket or comma it is the same only then. -/
theorem columnsClause_eq_of_agree_on_groups (spec other : Spec) (paths : List String) :
    (Projection.ofPaths spec paths).DifferInKinds spec other (Projection.ofPaths other paths) ∧
      ((∀ path ∈ paths, ∀ g ∈ Path.groups path, spec.isRepeated g = other.isRepeated g) →
        columnsClause spec paths = columnsClause other paths) ∧
      (∀ entry, (∀ path ∈ paths, entry ∉ Path.groups path) →
        columnsClause (spec.withRepeated entry) paths = columnsClause spec paths) ∧
      ((∀ path ∈ paths, Text.Free marks path) → columnsClause spec paths = columnsClause other paths →
        ∀ path ∈ paths, ∀ g ∈ Path.groups path, spec.isRepeated g = other.isRepeated g) := by
  have hagree {other : Spec}
      (h : ∀ path ∈ paths, ∀ g ∈ Path.groups path, spec.isRepeated g = other.isRepeated g) :
      columnsClause spec paths = columnsClause other paths :=
    columnsClause_congr Iff.rfl (ColumnTree.ofPaths_eq_ofPaths_iff.2 h)
  refine ⟨Projection.differInKinds_ofPaths spec other paths, hagree, fun entry he => ?_, fun hfree h => ?_⟩
  · refine (hagree fun path hp g hg => (Spec.isRepeated_withRepeated_of_ne ?_).symm).symm
    rintro rfl
    exact he path hp hg
  · by_cases hp : paths = []
    · rw [hp]
      exact List.forall_mem_nil _
    · exact ColumnTree.ofPaths_eq_ofPaths_iff.1 (ColumnTree.ofPaths_eq_of_columnsClause_eq hp hp hfree hfree h)

/-- Another template, a requested leaf, the local name of a group and an unrelated column are of no account, and
the name of a group is. -/
theorem columnsClause_eq_of_agree_on_groups_local_names :
    let spec : Spec := ⟨.ofList ["Lines", "Lines.Parts"], "SELECT %s"⟩
    let other : Spec := ⟨.ofList ["Lines", "Lines.Parts", "Lines.Parts.Code", "Parts", "Taxes"], ""⟩
    let paths := ["Lines.Parts.Code", "Id", "Lines.Qty"]
    columnsClause spec paths = columnsClause other paths ∧
      columnsClause (spec.withRepeated "Parts") paths = columnsClause spec paths ∧
      columnsClause spec paths ≠ columnsClause ⟨.ofList ["Lines"], ""⟩ paths := by
  intro spec other paths
  obtain ⟨-, hagree, hentry, -⟩ := columnsClause_eq_of_agree_on_groups spec other paths
  refine ⟨hagree (by decide +kernel), hentry "Parts" (by decide +kernel), fun h => ?_⟩
  obtain ⟨-, -, -, hconverse⟩ := columnsClause_eq_of_agree_on_groups spec ⟨.ofList ["Lines"], ""⟩ paths
  have hgroups := hconverse (by decide +kernel) h "Lines.Parts.Code" List.mem_cons_self "Lines.Parts"
    (by decide +kernel)
  exact absurd hgroups (by decide +kernel)

end QueryClauses
