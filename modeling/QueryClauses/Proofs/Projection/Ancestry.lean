import QueryClauses.Proofs.Projection.Store

/-! Upward walks in the store of a projection. A walk from a segment is that segment and then the walk
from its parent, so whole names and references grow by one name with every level. Segments with the
same parent have nothing in common below them. -/

namespace QueryClauses.Projection

variable {p : Projection} {id a b : Nat} {s : Segment}

/-- The places above the children of a parent, upwards. -/
def lineage (p : Projection) : Option Nat → List Nat
  | some id => p.ancestry id
  | none => []

theorem ancestry_eq (h : p.Linked) (hs : p.segments[id]? = some s) :
    p.ancestry id = id :: p.lineage s.parent := by
  rw [ancestry]
  simp only [hs]
  cases ha : s.parent with
  | none => rfl
  | some a => simp [lineage, h.parent_lt hs ha]

theorem mem_ancestry (h : p.Linked) : a ∈ p.ancestry id ↔
    ∃ s, p.segments[id]? = some s ∧ (a = id ∨ ∃ b, s.parent = some b ∧ a ∈ p.ancestry b) := by
  cases hs : p.segments[id]? with
  | none =>
    rw [ancestry]
    simp [hs]
  | some s =>
    rw [ancestry_eq h hs]
    cases hq : s.parent <;> simp [lineage, hq]

theorem mem_ancestry_self (h : p.Linked) (hid : id < p.segments.size) : id ∈ p.ancestry id :=
  (mem_ancestry h).2 ⟨_, Array.getElem?_eq_getElem hid, .inl rfl⟩

/-- Above a segment there are only earlier ones. -/
theorem le_of_mem_ancestry (h : p.Linked) : ∀ {id : Nat}, a ∈ p.ancestry id → a ≤ id
  | id, ha => by
    obtain ⟨s, hs, rfl | ⟨b, hb, ha⟩⟩ := (mem_ancestry h).1 ha
    · exact Nat.le_refl _
    · have hlt := h.parent_lt hs hb
      exact Nat.le_trans (le_of_mem_ancestry h ha) (Nat.le_of_lt hlt)

/-- What is above a segment is above all that is below it. -/
theorem mem_ancestry_trans (h : p.Linked) (hab : a ∈ p.ancestry b) :
    ∀ {id : Nat}, b ∈ p.ancestry id → a ∈ p.ancestry id
  | id, hb => by
    obtain ⟨s, hs, rfl | ⟨c, hc, hb⟩⟩ := (mem_ancestry h).1 hb
    · exact hab
    · have := h.parent_lt hs hc
      exact (mem_ancestry h).2 ⟨s, hs, .inr ⟨c, hc, mem_ancestry_trans h hab hb⟩⟩

/-- A child is not above another child of its parent. -/
theorem eq_of_mem_ancestry_sibling (h : p.Linked) {q : Option Nat} (ha : a ∈ p.childrenOf q)
    (hb : b ∈ p.childrenOf q) (hab : a ∈ p.ancestry b) : a = b := by
  obtain ⟨t, ht, rfl⟩ := (mem_childrenOf h).1 ha
  obtain ⟨s, hs, hq⟩ := (mem_childrenOf h).1 hb
  obtain ⟨u, hu, rfl | ⟨c, hc, hac⟩⟩ := (mem_ancestry h).1 hab
  · rfl
  · rw [hs] at hu
    cases hu
    have hlt := h.parent_lt ht (hq ▸ hc)
    exact absurd (le_of_mem_ancestry h hac) (Nat.not_le.2 hlt)

/-- Nothing is below two children of one parent. -/
theorem eq_of_mem_ancestry (h : p.Linked) {q : Option Nat} (hqa : a ∈ p.childrenOf q)
    (hqb : b ∈ p.childrenOf q) : ∀ {id : Nat}, a ∈ p.ancestry id → b ∈ p.ancestry id → a = b
  | id, ha, hb => by
    obtain ⟨s, hs, rfl | ⟨c, hc, hac⟩⟩ := (mem_ancestry h).1 ha
    · exact (eq_of_mem_ancestry_sibling h hqb hqa hb).symm
    · obtain ⟨t, ht, rfl | ⟨d, hd, hbd⟩⟩ := (mem_ancestry h).1 hb
      · exact eq_of_mem_ancestry_sibling h hqa hqb ha
      · have := h.parent_lt hs hc
        rw [hs] at ht
        cases ht
        rw [hc] at hd
        cases hd
        exact eq_of_mem_ancestry h hqa hqb hac hbd

/-- A segment is above itself, and above what one of its children is above. -/
theorem mem_ancestry_iff_child (h : p.Linked) (hid : id < p.segments.size) : ∀ {a : Nat},
    id ∈ p.ancestry a ↔ a = id ∨ ∃ c ∈ p.childrenOf (some id), c ∈ p.ancestry a
  | a => by
    constructor
    · intro ha
      obtain ⟨s, hs, rfl | ⟨b, hb, hab⟩⟩ := (mem_ancestry h).1 ha
      · exact .inl rfl
      · have hlt := h.parent_lt hs hb
        refine .inr ?_
        rcases (mem_ancestry_iff_child h hid).1 hab with rfl | ⟨c, hc, hcb⟩
        · exact ⟨a, (mem_childrenOf h).2 ⟨s, hs, hb⟩, mem_ancestry_self h (lt_size_of_getElem? hs)⟩
        · exact ⟨c, hc, (mem_ancestry h).2 ⟨s, hs, .inr ⟨b, hb, hcb⟩⟩⟩
    · rintro (rfl | ⟨c, hc, hca⟩)
      · exact mem_ancestry_self h hid
      · obtain ⟨s, hs, hq⟩ := (mem_childrenOf h).1 hc
        exact mem_ancestry_trans h ((mem_ancestry h).2 ⟨s, hs, .inr ⟨id, hq, mem_ancestry_self h hid⟩⟩) hca

/-- Every segment is below a root, or is one. -/
theorem exists_root_mem_ancestry (h : p.Linked) : ∀ {a : Nat}, a < p.segments.size →
    ∃ id ∈ p.roots, id ∈ p.ancestry a
  | a, ha => by
    have hs := Array.getElem?_eq_getElem ha
    cases hq : p.segments[a].parent with
    | none => exact ⟨a, (mem_childrenOf h (q := none)).2 ⟨_, hs, hq⟩, mem_ancestry_self h ha⟩
    | some b =>
      have hlt := h.parent_lt hs hq
      obtain ⟨id, hid, hidb⟩ := exists_root_mem_ancestry h (Nat.lt_trans hlt ha)
      exact ⟨id, hid, (mem_ancestry h).2 ⟨_, hs, .inr ⟨b, hq, hidb⟩⟩⟩

/-! ### Names -/

theorem names_cons (hs : p.segments[id]? = some s) (ids : List Nat) :
    p.names (id :: ids) = s.name :: p.names ids := by
  simp [names, hs]

theorem namesDownTo_eq (q : Option Nat) : p.namesDownTo q = (p.names (p.lineage q)).reverse := by
  cases q <;> rfl

/-- The whole name of a segment is that of its parent with its own behind it. -/
theorem namesDownTo_some (h : p.Linked) (hs : p.segments[id]? = some s) :
    p.namesDownTo (some id) = p.namesDownTo s.parent ++ [s.name] := by
  rw [namesDownTo, ancestry_eq h hs, names_cons hs, List.reverse_cons, namesDownTo_eq]

/-- The names from the nearest array down to a parent, by which its children are referred to. -/
def scopeNames (p : Projection) (q : Option Nat) : List String :=
  (p.names ((p.lineage q).takeWhile (p.kind? · ≠ some .array))).reverse

/-- An array starts the scope of its children anew; in a record the scope goes on. -/
theorem scopeNames_some (h : p.Linked) (hs : p.segments[id]? = some s) :
    p.scopeNames (some id) = if s.kind = .array then [] else p.scopeNames s.parent ++ [s.name] := by
  simp only [scopeNames, lineage, ancestry_eq h hs, List.takeWhile_cons, kind?, hs, Option.map_some]
  by_cases hk : s.kind = .array
  · simp [hk, names]
  · simp [hk, names_cons hs]

theorem reference_eq (h : p.Linked) (hs : p.segments[id]? = some s) :
    p.reference id = Path.ofSegments (p.scopeNames s.parent ++ [s.name]) := by
  simp only [reference, scope, ancestry_eq h hs, names_cons hs, List.reverse_cons, scopeNames]

end QueryClauses.Projection
