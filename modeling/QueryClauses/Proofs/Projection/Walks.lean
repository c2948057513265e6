import Mathlib.Data.List.TakeWhile
import QueryClauses.Projection.Clause
import QueryClauses.Proofs.Projection.WellFormed

/-! Walks through the store of a projection, given by rules that look up every place they come to and know no
bound on the number of steps. Parents are before their children, so a walk upwards ends, and so does a walk down
from the roots, which comes to every segment once. A column that is added is hung only where there is a place. -/

namespace QueryClauses.Projection

variable {spec : Spec} {p : Projection} {parent : Option Nat} {bound : Option SegmentKind} {names : List String}
  {id a : Nat} {ids places : List Nat} {items : List ColumnExpr} {s : Segment}

/-! ### Upwards -/

/-- The places that are visited from a segment to its parent and so on. The walk ends at a root, or at the first
segment above its start that is of the given kind. -/
inductive Climbs (p : Projection) (bound : Option SegmentKind) : Nat → List Nat → Prop
  | root {id : Nat} {s : Segment} (hs : p.segments[id]? = some s) (hroot : s.parent = none) :
    p.Climbs bound id [id]
  | bounded {id a : Nat} {s t : Segment} (hs : p.segments[id]? = some s) (ha : s.parent = some a)
    (ht : p.segments[a]? = some t) (hb : some t.kind = bound) : p.Climbs bound id [id, a]
  | up {id a : Nat} {s t : Segment} {places : List Nat} (hs : p.segments[id]? = some s)
    (ha : s.parent = some a) (ht : p.segments[a]? = some t) (hb : some t.kind ≠ bound)
    (h : p.Climbs bound a places) : p.Climbs bound id (id :: places)

/-- Places of the store, each of them before the one that is visited earlier. -/
structure IsDescent (p : Projection) (places : List Nat) : Prop where
  lt_size : ∀ a ∈ places, a < p.segments.size
  pairwise : places.Pairwise (· > ·)

theorem Climbs.le (hc : p.Climbs bound id places) (h : p.Linked) : ∀ a ∈ places, a ≤ id := by
  induction hc with
  | root => simp
  | bounded hs ha => simpa using Nat.le_of_lt (h.parent_lt hs ha)
  | up hs ha _ _ _ ih =>
    have hlt := h.parent_lt hs ha
    simpa using fun b hb => Nat.le_trans (ih b hb) (Nat.le_of_lt hlt)

theorem Climbs.isDescent (hc : p.Climbs bound id places) (h : p.Linked) : p.IsDescent places := by
  induction hc with
  | root hs => exact ⟨by simpa using lt_size_of_getElem? hs, List.pairwise_singleton _ _⟩
  | bounded hs ha ht =>
    exact ⟨by simpa using ⟨lt_size_of_getElem? hs, lt_size_of_getElem? ht⟩, by simpa using h.parent_lt hs ha⟩
  | up hs ha _ _ hc ih =>
    refine ⟨List.forall_mem_cons.2 ⟨lt_size_of_getElem? hs, ih.lt_size⟩,
      List.pairwise_cons.2 ⟨fun b hb => ?_, ih.pairwise⟩⟩
    exact Nat.lt_of_le_of_lt (hc.le h b hb) (h.parent_lt hs ha)

/-- A walk upwards goes along the lineage of its start, up to the first segment of the given kind. -/
theorem climbs_lineage (h : p.Linked) (bound : Option SegmentKind) {id : Nat} {s : Segment}
    (hs : p.segments[id]? = some s) :
    p.Climbs bound id (id :: ((p.lineage s.parent).takeWhile (p.kind? · ≠ bound) ++
      ((p.lineage s.parent).find? (p.kind? · = bound)).toList)) := by
  cases ha : s.parent with
  | none => exact .root hs ha
  | some a =>
    have hlt := h.parent_lt hs ha
    obtain ⟨t, ht⟩ : ∃ t, p.segments[a]? = some t :=
      ⟨_, Array.getElem?_eq_getElem (Nat.lt_trans hlt (lt_size_of_getElem? hs))⟩
    have hkind : p.kind? a = some t.kind := by rw [kind?, ht, Option.map_some]
    rw [lineage, ancestry_eq h ht, List.takeWhile_cons, List.find?_cons, hkind]
    by_cases hb : some t.kind = bound
    · simpa [hb] using Climbs.bounded hs ha ht hb
    · simpa [hb] using Climbs.up hs ha ht hb (climbs_lineage h bound ht)
termination_by id

/-- Without a kind that bounds it, a walk visits a segment and all above it. -/
theorem climbs_ancestry (h : p.Linked) (hs : p.segments[id]? = some s) : p.Climbs none id (p.ancestry id) := by
  have hfound (a : Nat) (ha : a ∈ p.lineage s.parent) : p.kind? a ≠ none := by
    have hmem : a ∈ p.ancestry id := ancestry_eq h hs ▸ List.mem_cons_of_mem _ ha
    have hlt := Nat.lt_of_le_of_lt (le_of_mem_ancestry h hmem) (lt_size_of_getElem? hs)
    rw [kind?, Array.getElem?_eq_getElem hlt, Option.map_some]
    exact Option.some_ne_none _
  have hclimb := climbs_lineage h none hs
  rwa [List.takeWhile_eq_self_iff.2 (by simpa using hfound), List.find?_eq_none.2 (by simpa using hfound),
    Option.toList_none, List.append_nil, ← ancestry_eq h hs] at hclimb

/-- Bounded by arrays, a walk visits what is in the scope of a segment, and the array around it if there is one. -/
theorem climbs_scope (h : p.Linked) (hs : p.segments[id]? = some s) : ∃ around : Option Nat,
    (∀ a ∈ around, p.kind? a = some .array) ∧ p.Climbs (some .array) id (p.scope id ++ around.toList) := by
  refine ⟨(p.lineage s.parent).find? (p.kind? · = some .array), fun a ha => ?_, ?_⟩
  · simpa using List.find?_some ha
  · rw [scope, ancestry_eq h hs]
    exact climbs_lineage h (some .array) hs

/-! ### Downwards -/

/-- The items that are written for the given segments, and the places that are visited for them: each segment,
and all that is below it unless it is a leaf, before the next one. -/
inductive Writes (p : Projection) : List Nat → List ColumnExpr → List Nat → Prop
  | nil : p.Writes [] [] []
  | leaf {id : Nat} {ids places : List Nat} {items : List ColumnExpr} {s : Segment}
    (hs : p.segments[id]? = some s) (hk : s.kind = .leaf) (h : p.Writes ids items places) :
    p.Writes (id :: ids) (.column (p.reference id) :: items) (id :: places)
  | group {id : Nat} {ids below places : List Nat} {fields items : List ColumnExpr} {s : Segment}
    (hs : p.segments[id]? = some s) (hk : s.kind ≠ .leaf) (hbelow : p.Writes s.children fields below)
    (h : p.Writes ids items places) :
    p.Writes (id :: ids) (.ofKind s.kind (p.reference id) s.name fields :: items) (id :: (below ++ places))

theorem lt_of_mem_children (h : p.Linked) (hs : p.segments[id]? = some s) :
    ∀ c ∈ s.children, id < c ∧ c < p.segments.size := by
  intro c hc
  rw [children_eq_childrenOf hs] at hc
  exact ⟨lt_of_mem_childrenOf h hc, lt_size_of_mem_childrenOf h hc⟩

/-- With as many levels as there are segments from the given ones on, a walk down ends and writes the items that
are read off. -/
theorem exists_writes (h : p.Linked) {levels : Nat} {ids : List Nat}
    (hids : ∀ id ∈ ids, id < p.segments.size ∧ p.segments.size ≤ id + levels) :
    ∃ places, p.Writes ids (p.exprs levels ids) places := by
  -- on the levels for what is below a segment, and on the row for the segments beside it
  induction levels generalizing ids with
  | zero =>
    obtain rfl : ids = [] := List.eq_nil_iff_forall_not_mem.2 fun id hid => by
      have := hids id hid
      omega
    exact ⟨[], .nil⟩
  | succ levels ih =>
    induction ids with
    | nil => exact ⟨[], .nil⟩
    | cons id ids iht =>
      obtain ⟨⟨hid, hsize⟩, hids⟩ := List.forall_mem_cons.1 hids
      obtain ⟨places, hplaces⟩ := iht hids
      have hs := Array.getElem?_eq_getElem hid
      have hitem : p.exprs (levels + 1) (id :: ids) = .ofKind p.segments[id].kind (p.reference id)
          p.segments[id].name (p.exprs levels p.segments[id].children) :: p.exprs (levels + 1) ids := by
        rw [exprs, List.filterMap_cons, hs, Option.map_some]
        rfl
      rw [hitem]
      by_cases hk : p.segments[id].kind = .leaf
      · rw [hk]
        exact ⟨id :: places, .leaf hs hk hplaces⟩
      · have hchildren (c : Nat) (hc : c ∈ p.segments[id].children) :
            c < p.segments.size ∧ p.segments.size ≤ c + levels := by
          have := lt_of_mem_children h hs c hc
          omega
        obtain ⟨below, hbelow⟩ := ih hchildren
        exact ⟨id :: (below ++ places), .group hs hk hbelow hplaces⟩

/-- The segments that are visited from some segments are these and all below them. -/
theorem Writes.mem_iff (hw : p.Writes ids items places) (h : p.Grouped spec none) :
    a ∈ places ↔ ∃ id ∈ ids, id ∈ p.ancestry a := by
  induction hw with
  | nil => simp
  | @leaf id ids places items s hs hk _ ih =>
    have hnil : p.childrenOf (some id) = [] := by
      rw [← children_eq_childrenOf hs, (wellFormed_of_grouped h).children_eq_nil_iff hs, hk]
    rw [List.mem_cons, List.exists_mem_cons_iff, ih,
      mem_ancestry_iff_child h.linked (lt_size_of_getElem? hs), hnil]
    simp
  | @group id ids below places fields items s hs hk _ _ ihb ih =>
    rw [List.mem_cons, List.mem_append, List.exists_mem_cons_iff, ihb, ih, ← or_assoc,
      mem_ancestry_iff_child h.linked (lt_size_of_getElem? hs), children_eq_childrenOf hs]

/-- What is visited from the later children of a parent is not below an earlier one. -/
theorem Writes.not_mem_ancestry (hw : p.Writes ids items places) (h : p.Grouped spec none)
    (hids : (id :: ids).Sublist (p.childrenOf parent)) (ha : a ∈ places) : id ∉ p.ancestry a := by
  intro hid
  obtain ⟨c, hc, hca⟩ := (hw.mem_iff h).1 ha
  obtain rfl := eq_of_mem_ancestry h.linked (hids.mem List.mem_cons_self)
    (hids.mem (List.mem_cons_of_mem _ hc)) hid hca
  exact (List.nodup_cons.1 ((nodup_childrenOf h.linked parent).sublist hids)).1 hc

/-- No segment is visited twice from the children of a parent. -/
theorem Writes.nodup (hw : p.Writes ids items places) (h : p.Grouped spec none)
    (hids : ids.Sublist (p.childrenOf parent)) : places.Nodup := by
  have hself {id : Nat} {s : Segment} (hs : p.segments[id]? = some s) : id ∈ p.ancestry id :=
    mem_ancestry_self h.linked (lt_size_of_getElem? hs)
  induction hw generalizing parent with
  | nil => exact List.nodup_nil
  | @leaf id ids places items s hs hk hw ih =>
    refine List.nodup_cons.2 ⟨fun hid => ?_, ih ((List.sublist_cons_self _ _).trans hids)⟩
    exact hw.not_mem_ancestry h hids hid (hself hs)
  | @group id ids below places fields items s hs hk hwb hw ihb ih =>
    -- All of this is below the segment, and what comes after it is not, so the two have nothing in common.
    have hbelow (a : Nat) (ha : a ∈ below) : a ≠ id ∧ id ∈ p.ancestry a := by
      obtain ⟨c, hc, hca⟩ := (hwb.mem_iff h).1 ha
      have hlt := lt_of_mem_children h.linked hs c hc
      have hle := le_of_mem_ancestry h.linked hca
      rw [children_eq_childrenOf hs] at hc
      exact ⟨by omega, (mem_ancestry_iff_child h.linked (lt_size_of_getElem? hs)).2 (.inr ⟨c, hc, hca⟩)⟩
    refine List.nodup_cons.2 ⟨fun hid => ?_, List.nodup_append'.2 ⟨?_, ?_, fun a hab hap => ?_⟩⟩
    · rcases List.mem_append.1 hid with hid | hid
      · exact (hbelow id hid).1 rfl
      · exact hw.not_mem_ancestry h hids hid (hself hs)
    · have hchildren : s.children.Sublist (p.childrenOf (some id)) := by rw [children_eq_childrenOf hs]
      exact ihb hchildren
    · exact ih ((List.sublist_cons_self _ _).trans hids)
    · exact hw.not_mem_ancestry h hids hap (hbelow a hab).2

/-- A walk down from the roots comes to every segment once. -/
theorem Writes.perm_range (hw : p.Writes p.roots items places) (h : p.Grouped spec none) :
    places.Perm (List.range p.segments.size) := by
  have hroots : p.roots.Sublist (p.childrenOf none) := List.Sublist.refl _
  refine (List.perm_ext_iff_of_nodup (hw.nodup h hroots) List.nodup_range).2 fun a => ?_
  rw [hw.mem_iff h, List.mem_range]
  constructor
  · rintro ⟨id, -, hid⟩
    obtain ⟨s, hs, -⟩ := (mem_ancestry h.linked).1 hid
    exact lt_size_of_getElem? hs
  · exact exists_root_mem_ancestry h.linked

/-! ### Adding a column -/

/-- A column is hung below a parent, one name after the other. The parent has to be in the store, and where a
group is looked for, so have the segments below it; for a new group there is a walk upwards from the parent. -/
inductive Hangs (spec : Spec) : Projection → Option Nat → List String → Projection → Prop
  | leaf {p : Projection} {parent : Option Nat} {name : String} (hp : p.HasPlace parent) :
    Hangs spec p parent [name] (p.push parent name .leaf)
  | found {p q : Projection} {parent : Option Nat} {name : String} {rest : List String} {id : Nat}
    (hr : rest ≠ []) (hp : p.HasPlace parent) (hc : ∀ c ∈ p.childrenOf parent, c < p.segments.size)
    (hid : p.group? parent name = some id) (h : Hangs spec p (some id) rest q) :
    Hangs spec p parent (name :: rest) q
  | new {p q : Projection} {parent : Option Nat} {name : String} {rest : List String}
    (hr : rest ≠ []) (hp : p.HasPlace parent) (hc : ∀ c ∈ p.childrenOf parent, c < p.segments.size)
    (hid : p.group? parent name = none) (hw : ∀ a, parent = some a → p.Climbs none a (p.ancestry a))
    (h : Hangs spec (p.push parent name (p.groupKind spec parent name)) (some p.segments.size) rest q) :
    Hangs spec p parent (name :: rest) q

theorem hangs_graft (h : p.Linked) (hp : p.HasPlace parent) (hne : names ≠ []) :
    Hangs spec p parent names (p.graft spec parent names) := by
  fun_induction graft spec p parent names with
  | case1 => exact absurd rfl hne
  | case2 p parent name => exact .leaf hp
  | case3 p parent name rest hr id hid ih =>
    have hplace := hasPlace_of_mem_childrenOf h (mem_childrenOf_of_group? hid)
    exact .found hr hp (fun _ => lt_size_of_mem_childrenOf h) hid (ih h hplace hr)
  | case4 p parent name rest hr hid ih =>
    refine .new hr hp (fun _ => lt_size_of_mem_childrenOf h) hid (fun a ha => ?_)
      (ih (linked_push h hp) hasPlace_push hr)
    exact climbs_ancestry h (Array.getElem?_eq_getElem (hp a ha))

/-- Whatever columns a projection is made of, the walks for it stay in the store and end. There is a walk for the
whole name of a segment, up to a root, and one for its reference, up to a root or to the array around it, and every
such walk goes from each segment to an earlier one. There is a walk that writes the items that are read off, it
goes from each segment to later ones, and it comes to every segment once. Where a further column is hung, there is
a place for it. -/
theorem walks_ofPaths (spec : Spec) (paths : List String) :
    let p := ofPaths spec paths
    (∀ id < p.segments.size, ∃ places, p.Climbs none id places ∧
        p.fullName id = Path.ofSegments (p.names places).reverse) ∧
      (∀ id < p.segments.size, ∃ places, ∃ around : Option Nat, (∀ a ∈ around, p.kind? a = some .array) ∧
        p.Climbs (some .array) id (places ++ around.toList) ∧
        p.reference id = Path.ofSegments (p.names places).reverse) ∧
      (∀ bound id places, p.Climbs bound id places → p.IsDescent places) ∧
      (∃ places, p.Writes p.roots p.items places) ∧
      (∀ id s, p.segments[id]? = some s → ∀ c ∈ s.children, id < c ∧ c < p.segments.size) ∧
      (∀ items places, p.Writes p.roots items places → places.Perm (List.range p.segments.size)) ∧
      ∀ path, Hangs spec p none (Path.segments path) (p.addColumn spec path) := by
  intro p
  have h : p.Grouped spec none := grouped_ofPaths spec paths
  refine ⟨fun id hid => ?_, fun id hid => ?_, fun _ _ _ hc => hc.isDescent h.linked, ?_,
    fun _ _ => lt_of_mem_children h.linked, fun _ _ hw => hw.perm_range h, fun path => ?_⟩
  · exact ⟨p.ancestry id, climbs_ancestry h.linked (Array.getElem?_eq_getElem hid), rfl⟩
  · obtain ⟨around, harray, hclimbs⟩ := climbs_scope h.linked (Array.getElem?_eq_getElem hid)
    exact ⟨p.scope id, around, harray, hclimbs, rfl⟩
  · refine exists_writes h.linked fun id hid => ⟨?_, Nat.le_add_left _ _⟩
    exact lt_size_of_mem_childrenOf h.linked (q := none) hid
  · exact hangs_graft h.linked hasPlace_none (Path.segments_ne_nil path)

/-- Columns of an array that come apart, so that their segments are not in the order in which they are written. -/
theorem walks_ofPaths_interleaved :
    let spec : Spec := ⟨.ofList ["a.b"], ""⟩
    let p := ofPaths spec ["a.b.x", "c", "a.b.d.y"]
    5 < p.segments.size ∧ (∃ places, p.Climbs none 5 places ∧ p.IsDescent places ∧
        "a.b.d.y" = Path.ofSegments (p.names places).reverse) ∧
      (∃ places, ∃ around : Option Nat, (∀ a ∈ around, p.kind? a = some .array) ∧
        p.Climbs (some .array) 5 (places ++ around.toList) ∧ p.IsDescent (places ++ around.toList) ∧
        "d.y" = Path.ofSegments (p.names places).reverse) ∧
      p.segments[1]?.map (·.children) = some [2, 4] ∧ (1 < 4 ∧ 4 < p.segments.size) ∧
      (∃ places, p.Writes [0, 3] p.items places ∧ places.Perm [0, 1, 2, 3, 4, 5]) ∧
      Hangs spec p none ["a", "e"] (p.addColumn spec "a.e") := by
  intro spec p
  obtain ⟨hfull, href, hdescent, hitems, hdown, honce, hhangs⟩ := walks_ofPaths spec ["a.b.x", "c", "a.b.d.y"]
  have hsize : p.segments.size = 6 := by decide +kernel
  have hfullName : p.fullName 5 = "a.b.d.y" := by decide +kernel
  have hreference : p.reference 5 = "d.y" := by decide +kernel
  have hs : p.segments[1]? = some ⟨.array, "b", some 0, [2, 4]⟩ := by decide +kernel
  have hroots : p.roots = [0, 3] := by decide +kernel
  have hid : 5 < p.segments.size := by omega
  obtain ⟨above, habove, hname⟩ := hfull 5 hid
  obtain ⟨within, around, harray, hwithin, hsource⟩ := href 5 hid
  obtain ⟨places, hw⟩ := hitems
  refine ⟨hid, ⟨above, habove, hdescent _ _ _ habove, hfullName ▸ hname⟩,
    ⟨within, around, harray, hwithin, hdescent _ _ _ hwithin, hreference ▸ hsource⟩, by rw [hs]; rfl,
    hdown 1 _ hs 4 (by decide), ⟨places, hroots ▸ hw, ?_⟩, hhangs "a.e"⟩
  have hperm := honce _ _ hw
  rwa [hsize] at hperm

end QueryClauses.Projection
