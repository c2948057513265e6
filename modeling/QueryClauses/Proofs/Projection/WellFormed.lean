import Mathlib.Data.List.Nodup
import QueryClauses.Proofs.Projection.Graft

/-! The store of a projection is well formed after every column. While a column is being added, the
group to which it is to go may still be without children, and it is the only one; the leaf at the end
of the column gives it one. -/

namespace QueryClauses.Projection

variable {spec : Spec} {p : Projection} {parent : Option Nat} {name : String} {kind : SegmentKind}
  {names : List String} {id : Nat} {s : Segment}

/-- The places in all lists of places: the roots and the children of every segment. -/
def links (p : Projection) : List Nat := p.roots ++ p.segments.toList.flatMap (·.children)

/-- What holds of the store between two columns. -/
structure WellFormed (spec : Spec) (p : Projection) : Prop where
  /-- Every segment is once in the lists, and they have nothing else. -/
  links_perm : p.links.Perm (List.range p.segments.size)
  mem_childrenOf : ∀ {id : Nat} {s : Segment}, p.segments[id]? = some s → id ∈ p.childrenOf s.parent
  parent : ∀ {id a : Nat} {s : Segment}, p.segments[id]? = some s → s.parent = some a →
    a < id ∧ ∃ t, p.segments[a]? = some t ∧ t.kind ≠ .leaf
  ascending : ∀ parent, (p.childrenOf parent).Pairwise (· < ·)
  children_eq_nil_iff : ∀ {id : Nat} {s : Segment}, p.segments[id]? = some s →
    (s.children = [] ↔ s.kind = .leaf)
  group_unique : ∀ {parent : Option Nat} {a b : Nat} {s t : Segment}, a ∈ p.childrenOf parent →
    b ∈ p.childrenOf parent → p.segments[a]? = some s → p.segments[b]? = some t → s.kind ≠ .leaf →
    t.kind ≠ .leaf → s.name = t.name → a = b
  dot_not_mem_name : ∀ {id : Nat} {s : Segment}, p.segments[id]? = some s → '.' ∉ s.name.toList
  kind_eq : ∀ {id : Nat} {s : Segment}, p.segments[id]? = some s → s.kind ≠ .leaf →
    s.kind = if p.fullName id ∈ spec.repeated then .array else .struct

/-- A column can be put there: below nothing, or below a group. -/
def HasGroup (p : Projection) (parent : Option Nat) : Prop :=
  ∀ a, parent = some a → ∃ s, p.segments[a]? = some s ∧ s.kind ≠ .leaf

/-- What holds of the store at any time. No group but the pending one is without children. -/
structure Grouped (spec : Spec) (p : Projection) (pending : Option Nat) : Prop where
  linked : p.Linked
  parent : ∀ {id : Nat} {s : Segment}, p.segments[id]? = some s → p.HasGroup s.parent
  unique : ∀ {a b : Nat} {s t : Segment}, p.segments[a]? = some s → p.segments[b]? = some t →
    s.parent = t.parent → s.kind ≠ .leaf → t.kind ≠ .leaf → s.name = t.name → a = b
  dotless : ∀ {id : Nat} {s : Segment}, p.segments[id]? = some s → '.' ∉ s.name.toList
  kind_eq : ∀ {id : Nat} {s : Segment}, p.segments[id]? = some s → s.kind ≠ .leaf →
    s.kind = if p.fullName id ∈ spec.repeated then .array else .struct
  childless : ∀ {id : Nat} {s : Segment}, p.segments[id]? = some s → p.childrenOf (some id) = [] →
    s.kind = .leaf ∨ pending = some id

theorem hasPlace_of_hasGroup (h : p.HasGroup parent) : p.HasPlace parent := by
  intro a ha
  obtain ⟨s, hs, -⟩ := h a ha
  exact lt_size_of_getElem? hs

theorem hasGroup_none : p.HasGroup none := by
  intro a h
  cases h

theorem hasGroup_some (hs : p.segments[id]? = some s) (hk : s.kind ≠ .leaf) : p.HasGroup (some id) := by
  rintro a ⟨⟩
  exact ⟨s, hs, hk⟩

theorem grouped_empty (spec : Spec) : empty.Grouped spec none where
  linked := linked_empty
  parent h := by simp [empty] at h
  unique h := by simp [empty] at h
  dotless h := by simp [empty] at h
  kind_eq h := by simp [empty] at h
  childless h := by simp [empty] at h

/-! ### Adding a segment -/

/-- A segment of the store is the new one, or it was there with the same kind, name and parent. -/
theorem getElem?_push_eq_some (hp : p.HasPlace parent)
    (hs : (p.push parent name kind).segments[id]? = some s) :
    (id = p.segments.size ∧ s = ⟨kind, name, parent, []⟩) ∨
      ∃ t, p.segments[id]? = some t ∧ s.kind = t.kind ∧ s.name = t.name ∧ s.parent = t.parent := by
  by_cases hid : id < p.segments.size
  · rw [getElem?_push_old hid] at hs
    obtain ⟨t, ht, rfl⟩ := Option.map_eq_some_iff.1 hs
    refine .inr ⟨t, ht, ?_⟩
    split <;> exact ⟨rfl, rfl, rfl⟩
  · have hsize : id = p.segments.size := by
      have := lt_size_of_getElem? hs
      rw [size_push] at this
      omega
    subst hsize
    rw [getElem?_push_new hp] at hs
    cases hs
    exact .inl ⟨rfl, rfl⟩

theorem hasGroup_push {q : Option Nat} (h : p.HasGroup q) : (p.push parent name kind).HasGroup q := by
  intro a ha
  obtain ⟨s, hs, hk⟩ := h a ha
  have hlt := lt_size_of_getElem? hs
  rw [getElem?_push_old hlt, hs]
  refine ⟨_, rfl, ?_⟩
  split <;> exact hk

theorem fullName_push_old (h : p.Linked) (hp : p.HasPlace parent) (hid : id < p.segments.size) :
    (p.push parent name kind).fullName id = p.fullName id := by
  rw [fullName, fullName,
    namesDownTo_some_congr h (linked_push h hp) (fun j hj => label_push hj) id hid]

theorem fullName_push_new (h : p.Linked) (hp : p.HasPlace parent) :
    (p.push parent name kind).fullName p.segments.size =
      Path.ofSegments (p.namesDownTo parent ++ [name]) := by
  rw [fullName, namesDownTo_some (linked_push h hp) (getElem?_push_new hp), namesDownTo_push h hp]

/-- There is no group of a name where none is found. -/
theorem not_group_of_group?_eq_none (h : p.Linked) (hg : p.group? parent name = none)
    (hs : p.segments[id]? = some s) (hq : s.parent = parent) (hk : s.kind ≠ .leaf) : s.name ≠ name := by
  intro hn
  have hid : id ∈ p.childrenOf parent := (mem_childrenOf h).2 ⟨s, hs, hq⟩
  have hnot := List.find?_eq_none.1 hg id hid
  rw [hs] at hnot
  simp [Segment.isGroup, hk, hn] at hnot

/-- What is put below the pending group becomes the pending one, and takes its place as the only one
that may be without children. -/
theorem grouped_push (h : p.Grouped spec parent) (hp : p.HasGroup parent) (hname : '.' ∉ name.toList)
    (hkind : kind = .leaf ∨ kind = p.groupKind spec parent name ∧ p.group? parent name = none) :
    (p.push parent name kind).Grouped spec (some p.segments.size) where
  linked := linked_push h.linked (hasPlace_of_hasGroup hp)
  parent {id s} hs := by
    rcases getElem?_push_eq_some (hasPlace_of_hasGroup hp) hs with ⟨-, rfl⟩ | ⟨t, ht, -, -, hq⟩
    · exact hasGroup_push hp
    · rw [hq]
      exact hasGroup_push (h.parent ht)
  unique {a b s t} hs ht hq hks hkt hn := by
    have hplace := hasPlace_of_hasGroup hp
    have hnew {u : Segment} {c : Nat} (hu : p.segments[c]? = some u) (hq : u.parent = parent)
        (hk : u.kind ≠ .leaf) (hgroup : kind ≠ .leaf) : u.name ≠ name :=
      not_group_of_group?_eq_none h.linked (hkind.resolve_left hgroup).2 hu hq hk
    rcases getElem?_push_eq_some hplace hs with ⟨rfl, rfl⟩ | ⟨u, hu, hku, hnu, hqu⟩
    · rcases getElem?_push_eq_some hplace ht with ⟨rfl, rfl⟩ | ⟨v, hv, hkv, hnv, hqv⟩
      · rfl
      · exact absurd (hnv ▸ hn.symm) (hnew hv (hqv ▸ hq.symm) (hkv ▸ hkt) hks)
    · rcases getElem?_push_eq_some hplace ht with ⟨rfl, rfl⟩ | ⟨v, hv, hkv, hnv, hqv⟩
      · exact absurd (hnu ▸ hn) (hnew hu (hqu ▸ hq) (hku ▸ hks) hkt)
      · exact h.unique hu hv (hqu ▸ hqv ▸ hq) (hku ▸ hks) (hkv ▸ hkt) (hnu ▸ hnv ▸ hn)
  dotless {id s} hs := by
    rcases getElem?_push_eq_some (hasPlace_of_hasGroup hp) hs with ⟨-, rfl⟩ | ⟨t, ht, -, hn, -⟩
    · exact hname
    · rw [hn]
      exact h.dotless ht
  kind_eq {id s} hs hk := by
    rcases getElem?_push_eq_some (hasPlace_of_hasGroup hp) hs with ⟨rfl, rfl⟩ | ⟨t, ht, hkt, -, -⟩
    · rw [fullName_push_new h.linked (hasPlace_of_hasGroup hp)]
      refine (hkind.resolve_left hk).1.trans ?_
      simp only [groupKind, Spec.isRepeated, decide_eq_true_eq]
    · rw [fullName_push_old h.linked (hasPlace_of_hasGroup hp) (lt_size_of_getElem? ht), hkt]
      exact h.kind_eq ht (hkt ▸ hk)
  childless {id s} hs hc := by
    rcases getElem?_push_eq_some (hasPlace_of_hasGroup hp) hs with ⟨rfl, -⟩ | ⟨t, ht, hkt, -, -⟩
    · exact .inr rfl
    · rw [childrenOf_push (hasPlace_of_hasGroup hp), List.append_eq_nil_iff] at hc
      rw [hkt]
      refine (h.childless ht hc.1).imp_right fun he => ?_
      rw [if_pos he.symm] at hc
      exact absurd hc.2 (List.cons_ne_nil _ _)

/-! ### Adding a column -/

/-- A group with a child need not be the pending one any more. -/
theorem Grouped.below (h : p.Grouped spec parent) (hid : id ∈ p.childrenOf parent) (next : Option Nat) :
    p.Grouped spec next :=
  { h with
    childless := fun {c s} hs hc => (h.childless hs hc).imp_right fun he => by
      rw [he, hc] at hid
      cases hid }

/-- A leaf is not in need of children. -/
theorem Grouped.closed (h : p.Grouped spec (some id)) (hs : p.segments[id]? = some s)
    (hk : s.kind = .leaf) : p.Grouped spec none :=
  { h with
    childless := fun {c t} ht hc => .inl <| (h.childless ht hc).elim (fun hl => hl) fun he => by
      cases he
      rw [hs] at ht
      cases ht
      exact hk }

theorem hasGroup_of_group?_eq_some (hid : p.group? parent name = some id) : p.HasGroup (some id) := by
  rintro a ⟨⟩
  have hgroup := List.find?_some hid
  cases hs : p.segments[id]? with
  | none => simp [hs] at hgroup
  | some s =>
    refine ⟨s, rfl, ?_⟩
    rw [hs, Option.any_some, Segment.isGroup, Bool.and_eq_true, decide_eq_true_iff] at hgroup
    exact hgroup.1

theorem grouped_graft (h : p.Grouped spec parent) (hp : p.HasGroup parent) (hne : names ≠ [])
    (hn : ∀ name ∈ names, '.' ∉ name.toList) : (p.graft spec parent names).Grouped spec none := by
  fun_induction graft spec p parent names with
  | case1 => exact absurd rfl hne
  | case2 p parent name =>
    have hpush : (p.push parent name .leaf).Grouped spec (some p.segments.size) :=
      grouped_push h hp (hn name List.mem_cons_self) (.inl rfl)
    exact hpush.closed (getElem?_push_new (hasPlace_of_hasGroup hp)) rfl
  | case3 p parent name rest hr id hid ih =>
    refine ih (h.below (mem_childrenOf_of_group? hid) _) (hasGroup_of_group?_eq_some hid) hr ?_
    exact fun n hmem => hn n (List.mem_cons_of_mem _ hmem)
  | case4 p parent name rest hr hid ih =>
    have hpush : (p.push parent name (p.groupKind spec parent name)).Grouped spec (some p.segments.size) :=
      grouped_push h hp (hn name List.mem_cons_self) (.inr ⟨rfl, hid⟩)
    have hkind := groupKind_ne_leaf spec p parent name
    refine ih hpush (hasGroup_some (getElem?_push_new (hasPlace_of_hasGroup hp)) hkind) hr ?_
    exact fun n hmem => hn n (List.mem_cons_of_mem _ hmem)

theorem grouped_addColumn (h : p.Grouped spec none) (path : String) :
    (p.addColumn spec path).Grouped spec none :=
  grouped_graft h hasGroup_none (Path.segments_ne_nil path) fun _ hname =>
    Path.dot_not_mem_of_mem_segments hname

theorem grouped_ofPaths (spec : Spec) (paths : List String) : (ofPaths spec paths).Grouped spec none := by
  induction paths using List.reverseRecOn with
  | nil => exact grouped_empty spec
  | append_singleton paths path ih =>
    rw [ofPaths, List.foldl_append]
    exact grouped_addColumn ih path

/-! ### The lists of places -/

theorem mem_childrenOf_iff_parent? (h : p.Linked) {q : Option Nat} :
    id ∈ p.childrenOf q ↔ p.parent? id = some q := by
  rw [Projection.mem_childrenOf h, parent?, Option.map_eq_some_iff]

theorem parent?_of_mem_children (h : p.Linked) (hs : p.segments[id]? = some s) {c : Nat}
    (hc : c ∈ s.children) : p.parent? c = some (some id) :=
  (mem_childrenOf_iff_parent? h).1 (children_eq_childrenOf hs ▸ hc)

theorem exists_getElem?_of_mem_toList (hs : s ∈ p.segments.toList) : ∃ id : Nat, p.segments[id]? = some s := by
  obtain ⟨id, hid⟩ := List.mem_iff_getElem?.1 hs
  exact ⟨id, by rwa [Array.getElem?_toList] at hid⟩

theorem mem_links (h : p.Linked) : id ∈ p.links ↔ id < p.segments.size := by
  rw [links, List.mem_append, List.mem_flatMap]
  constructor
  · rintro (hroot | ⟨s, hs, hc⟩)
    · exact lt_size_of_mem_childrenOf h (q := none) hroot
    · obtain ⟨a, ha⟩ := exists_getElem?_of_mem_toList hs
      exact lt_size_of_mem_childrenOf h (children_eq_childrenOf ha ▸ hc)
  · intro hid
    have hmem := (Projection.mem_childrenOf h).2 ⟨_, Array.getElem?_eq_getElem hid, rfl⟩
    cases hq : p.segments[id].parent with
    | none =>
      rw [hq] at hmem
      exact .inl hmem
    | some a =>
      have hlt := h.parent_lt (Array.getElem?_eq_getElem hid) hq
      obtain ⟨s, hs⟩ : ∃ s, p.segments[a]? = some s := ⟨_, Array.getElem?_eq_getElem (Nat.lt_trans hlt hid)⟩
      rw [hq, ← children_eq_childrenOf hs] at hmem
      exact .inr ⟨s, Array.mem_toList_iff.2 (Array.mem_of_getElem? hs), hmem⟩

theorem nodup_links (h : p.Linked) : p.links.Nodup := by
  have hget {a : Nat} (ha : a < p.segments.toList.length) :
      p.segments[a]? = some p.segments.toList[a] := by
    rw [← Array.getElem?_toList, List.getElem?_eq_getElem ha]
  rw [links, List.nodup_append', List.nodup_flatMap]
  refine ⟨nodup_childrenOf h none, ⟨fun s hs => ?_, ?_⟩, ?_⟩
  · obtain ⟨a, ha⟩ := exists_getElem?_of_mem_toList hs
    exact children_eq_childrenOf ha ▸ nodup_childrenOf h (some a)
  · rw [List.pairwise_iff_getElem]
    intro a b ha hb hlt c hca hcb
    have hpa := parent?_of_mem_children h (hget ha) hca
    rw [parent?_of_mem_children h (hget hb) hcb] at hpa
    cases hpa
    exact Nat.lt_irrefl _ hlt
  · intro c hroot hc
    obtain ⟨s, hs, hc⟩ := List.mem_flatMap.1 hc
    obtain ⟨a, ha⟩ := exists_getElem?_of_mem_toList hs
    have hpa := parent?_of_mem_children h ha hc
    rw [(mem_childrenOf_iff_parent? h (q := none)).1 hroot] at hpa
    cases hpa

theorem links_perm_range (h : p.Linked) : p.links.Perm (List.range p.segments.size) :=
  (List.perm_ext_iff_of_nodup (nodup_links h) List.nodup_range).2 fun _ => by
    rw [mem_links h, List.mem_range]

/-! ### The whole store -/

theorem wellFormed_of_grouped (h : p.Grouped spec none) : p.WellFormed spec where
  links_perm := links_perm_range h.linked
  mem_childrenOf hs := (Projection.mem_childrenOf h.linked).2 ⟨_, hs, rfl⟩
  parent hs ha := ⟨h.linked.parent_lt hs ha, h.parent hs _ ha⟩
  ascending parent := by
    rw [h.linked.childrenOf_eq]
    exact List.pairwise_lt_range.filter _
  children_eq_nil_iff {id s} hs := by
    rw [children_eq_childrenOf hs]
    constructor
    · exact fun hc => (h.childless hs hc).resolve_right nofun
    · intro hk
      rw [List.eq_nil_iff_forall_not_mem]
      intro c hc
      obtain ⟨t, ht, hq⟩ := (Projection.mem_childrenOf h.linked).1 hc
      obtain ⟨u, hu, hne⟩ := h.parent ht id hq
      rw [hs] at hu
      cases hu
      exact hne hk
  group_unique {parent a b s t} ha hb hs ht hks hkt hn := by
    obtain ⟨u, hu, hqu⟩ := (Projection.mem_childrenOf h.linked).1 ha
    obtain ⟨v, hv, hqv⟩ := (Projection.mem_childrenOf h.linked).1 hb
    rw [hs] at hu
    rw [ht] at hv
    cases hu
    cases hv
    exact h.unique hs ht (hqu.trans hqv.symm) hks hkt hn
  dot_not_mem_name := h.dotless
  kind_eq := h.kind_eq

/-- The store is well formed after any columns, added one after the other to an empty one. -/
theorem wellFormed_ofPaths (spec : Spec) (paths : List String) : (ofPaths spec paths).WellFormed spec :=
  wellFormed_of_grouped (grouped_ofPaths spec paths)

end QueryClauses.Projection
