import QueryClauses.Projection.Basic

/-! The store of a projection holds a forest. Adding a segment keeps the links between parents and
children in agreement, and changes nothing of the segments that are there but the children of one. -/

namespace QueryClauses.Projection

variable {p : Projection} {parent : Option Nat} {name : String} {kind : SegmentKind}

/-- The parent that a segment names. -/
def parent? (p : Projection) (id : Nat) : Option (Option Nat) := p.segments[id]?.map (·.parent)

/-- A segment can be hung there: below nothing, or below a segment of the store. -/
def HasPlace (p : Projection) (parent : Option Nat) : Prop := ∀ a, parent = some a → a < p.segments.size

/-- Every parent stands before its children, and the children of a parent are just the segments that
name it, in the order of their arrival. -/
structure Linked (p : Projection) : Prop where
  parent_lt : ∀ {id a : Nat} {s : Segment}, p.segments[id]? = some s → s.parent = some a → a < id
  childrenOf_eq : ∀ parent,
    p.childrenOf parent = (List.range p.segments.size).filter (p.parent? · == some parent)

theorem lt_size_of_getElem? {id : Nat} {s : Segment} (hs : p.segments[id]? = some s) : id < p.segments.size :=
  (Array.getElem?_eq_some_iff.1 hs).1

theorem linked_empty : Linked empty where
  parent_lt h _ := by simp [empty] at h
  childrenOf_eq parent := by cases parent <;> simp [empty, childrenOf]

theorem hasPlace_none : p.HasPlace none := by
  intro a h
  cases h

theorem hasPlace_some {id : Nat} (h : id < p.segments.size) : p.HasPlace (some id) := by
  rintro a ⟨⟩
  exact h

/-! ### Adding a segment -/

@[simp] theorem size_push : (p.push parent name kind).segments.size = p.segments.size + 1 := by
  cases parent <;> simp [push]

theorem getElem?_push_old {id : Nat} (h : id < p.segments.size) :
    (p.push parent name kind).segments[id]? =
      p.segments[id]?.map fun s => if parent = some id then s.adopt p.segments.size else s := by
  cases parent with
  | none => simp [push, Array.getElem?_push, Nat.ne_of_lt h]
  | some a =>
    simp only [push, Array.getElem?_modify, Array.getElem?_push, Nat.ne_of_lt h, if_false,
      Option.some.injEq]
    by_cases ha : a = id <;> simp [ha]

theorem getElem?_push_new (hp : p.HasPlace parent) :
    (p.push parent name kind).segments[p.segments.size]? = some ⟨kind, name, parent, []⟩ := by
  cases parent with
  | none => simp [push]
  | some a =>
    have ha : a ≠ p.segments.size := Nat.ne_of_lt (hp a rfl)
    rw [push, Array.getElem?_modify, if_neg ha, Array.getElem?_push_size]

theorem parent?_push_old {id : Nat} (h : id < p.segments.size) :
    (p.push parent name kind).parent? id = p.parent? id := by
  simp only [parent?, getElem?_push_old h, Option.map_map]
  congr 1
  funext s
  simp only [Function.comp]
  split <;> rfl

theorem parent?_push_new (hp : p.HasPlace parent) :
    (p.push parent name kind).parent? p.segments.size = some parent := by
  rw [parent?, getElem?_push_new hp, Option.map_some]

theorem roots_push : (p.push parent name kind).roots =
    if parent = none then p.roots ++ [p.segments.size] else p.roots := by
  cases parent <;> simp [push]

/-- The new segment is the last child of its parent, and other parents keep their children. -/
theorem childrenOf_push (hp : p.HasPlace parent) (q : Option Nat) :
    (p.push parent name kind).childrenOf q =
      p.childrenOf q ++ if q = parent then [p.segments.size] else [] := by
  cases q with
  | none =>
    simp only [childrenOf, roots_push, eq_comm]
    split <;> simp
  | some a =>
    by_cases ha : a < p.segments.size
    · obtain ⟨s, hs⟩ : ∃ s, p.segments[a]? = some s := ⟨_, Array.getElem?_eq_getElem ha⟩
      simp only [childrenOf, getElem?_push_old ha, hs, eq_comm]
      split <;> simp [Segment.adopt]
    · have hne : some a ≠ parent := fun h => ha (hp a h.symm)
      simp only [childrenOf, hne, if_false, List.append_nil, Array.getElem?_eq_none (Nat.not_lt.1 ha)]
      by_cases he : a = p.segments.size
      · rw [he, getElem?_push_new hp]
        rfl
      · rw [Array.getElem?_eq_none (by rw [size_push]; omega)]

theorem linked_push (h : p.Linked) (hp : p.HasPlace parent) : (p.push parent name kind).Linked where
  parent_lt {id a s} hs ha := by
    by_cases hid : id < p.segments.size
    · rw [getElem?_push_old hid] at hs
      obtain ⟨t, ht, rfl⟩ := Option.map_eq_some_iff.1 hs
      refine h.parent_lt ht ?_
      rw [← ha]
      split <;> rfl
    · have hn : id = p.segments.size := by
        have := lt_size_of_getElem? hs
        rw [size_push] at this
        omega
      subst hn
      rw [getElem?_push_new hp] at hs
      cases hs
      exact hp a ha
  childrenOf_eq q := by
    rw [childrenOf_push hp, h.childrenOf_eq, size_push, List.range_succ, List.filter_append]
    congr 1
    · refine List.filter_congr fun id hid => ?_
      rw [parent?_push_old (List.mem_range.1 hid)]
    · by_cases hq : q = parent
      · simp [hq, parent?_push_new hp]
      · simp [hq, Ne.symm hq, parent?_push_new hp]

/-! ### Children -/

theorem mem_childrenOf (h : p.Linked) {q : Option Nat} {id : Nat} :
    id ∈ p.childrenOf q ↔ ∃ s, p.segments[id]? = some s ∧ s.parent = q := by
  rw [h.childrenOf_eq, List.mem_filter, List.mem_range, beq_iff_eq, parent?]
  constructor
  · rintro ⟨-, hq⟩
    exact Option.map_eq_some_iff.1 hq
  · rintro ⟨s, hs, rfl⟩
    exact ⟨lt_size_of_getElem? hs, by simp [hs]⟩

theorem lt_size_of_mem_childrenOf (h : p.Linked) {q : Option Nat} {id : Nat}
    (hid : id ∈ p.childrenOf q) : id < p.segments.size := by
  obtain ⟨s, hs, -⟩ := (mem_childrenOf h).1 hid
  exact lt_size_of_getElem? hs

theorem nodup_childrenOf (h : p.Linked) (q : Option Nat) : (p.childrenOf q).Nodup := by
  rw [h.childrenOf_eq]
  exact List.nodup_range.filter _

theorem children_eq_childrenOf {id : Nat} {s : Segment} (hs : p.segments[id]? = some s) :
    s.children = p.childrenOf (some id) := by
  simp [childrenOf, hs]

theorem lt_of_mem_childrenOf (h : p.Linked) {a id : Nat} (hid : id ∈ p.childrenOf (some a)) : a < id := by
  obtain ⟨s, hs, hq⟩ := (mem_childrenOf h).1 hid
  exact h.parent_lt hs hq

theorem mem_childrenOf_of_group? {id : Nat} (hid : p.group? parent name = some id) :
    id ∈ p.childrenOf parent :=
  List.mem_of_find?_eq_some hid

end QueryClauses.Projection
