import Mathlib.Data.List.Induction
import QueryClauses.Proofs.Projection.Ancestry

/-! What adding a column does to the store. Segments that are there keep their kind, name and parent,
and below a given group only that group and what is below it get new children. -/

namespace QueryClauses

/-- A segment without its children. -/
def Segment.label (s : Segment) : Segment := { s with children := [] }

namespace Projection

variable {spec : Spec} {p : Projection} {parent : Option Nat} {name : String} {kind : SegmentKind}
  {names : List String} {id j : Nat}

theorem hasPlace_of_mem_childrenOf (h : p.Linked) (hid : id ∈ p.childrenOf parent) :
    p.HasPlace (some id) :=
  hasPlace_some (lt_size_of_mem_childrenOf h hid)

theorem hasPlace_push : (p.push parent name kind).HasPlace (some p.segments.size) :=
  hasPlace_some (by rw [size_push]; exact Nat.lt_succ_self _)

theorem groupKind_ne_leaf (spec : Spec) (p : Projection) (parent : Option Nat) (name : String) :
    p.groupKind spec parent name ≠ .leaf := by
  unfold groupKind
  split <;> nofun

theorem graft_cons (spec : Spec) (p : Projection) (parent : Option Nat) (name : String) {rest : List String}
    (hr : rest ≠ []) : p.graft spec parent (name :: rest) =
      match p.group? parent name with
      | some id => p.graft spec (some id) rest
      | none => (p.push parent name (p.groupKind spec parent name)).graft spec (some p.segments.size) rest := by
  obtain ⟨next, rest, rfl⟩ := List.exists_cons_of_ne_nil hr
  rfl

theorem linked_graft (h : p.Linked) (hp : p.HasPlace parent) : (p.graft spec parent names).Linked := by
  fun_induction graft spec p parent names with
  | case1 => exact h
  | case2 => exact linked_push h hp
  | case3 p parent name rest _ id hid ih =>
    exact ih h (hasPlace_of_mem_childrenOf h (mem_childrenOf_of_group? hid))
  | case4 p parent name rest _ hid ih => exact ih (linked_push h hp) hasPlace_push

theorem linked_ofPaths (spec : Spec) (paths : List String) : (ofPaths spec paths).Linked := by
  induction paths using List.reverseRecOn with
  | nil => exact linked_empty
  | append_singleton paths path ih =>
    rw [ofPaths, List.foldl_append]
    exact linked_graft ih hasPlace_none

/-- Only columns that are added below nothing can add a root. -/
theorem roots_graft (hp : parent ≠ none) : (p.graft spec parent names).roots = p.roots := by
  fun_induction graft spec p parent names with
  | case1 => rfl
  | case2 => simp [roots_push, hp]
  | case3 p parent name rest _ id hid ih => exact ih nofun
  | case4 p parent name rest _ hid ih => rw [ih nofun, roots_push, if_neg hp]

theorem label_push (hj : j < p.segments.size) :
    (p.push parent name kind).segments[j]?.map Segment.label = p.segments[j]?.map Segment.label := by
  rw [getElem?_push_old hj, Option.map_map]
  congr 1
  funext s
  simp only [Function.comp]
  split <;> rfl

theorem label_graft (hj : j < p.segments.size) :
    (p.graft spec parent names).segments[j]?.map Segment.label = p.segments[j]?.map Segment.label := by
  fun_induction graft spec p parent names with
  | case1 => rfl
  | case2 => exact label_push hj
  | case3 p parent name rest _ id hid ih => exact ih hj
  | case4 p parent name rest _ hid ih => rw [ih (by rw [size_push]; omega), label_push hj]

theorem namesDownTo_some_congr {q : Projection} (hp : p.Linked) (hq : q.Linked)
    (hl : ∀ j < p.segments.size, q.segments[j]?.map Segment.label = p.segments[j]?.map Segment.label)
    (id : Nat) (hid : id < p.segments.size) : q.namesDownTo (some id) = p.namesDownTo (some id) := by
  have hs := Array.getElem?_eq_getElem hid
  have hlabel := hl id hid
  rw [hs, Option.map_some] at hlabel
  obtain ⟨t, ht, hts⟩ := Option.map_eq_some_iff.1 hlabel
  have hname : t.name = p.segments[id].name := (congrArg Segment.name hts :)
  have hparent : t.parent = p.segments[id].parent := (congrArg Segment.parent hts :)
  rw [namesDownTo_some hp hs, namesDownTo_some hq ht, hname, hparent]
  congr 1
  cases ha : p.segments[id].parent with
  | none => rfl
  | some a =>
    have hlt := hp.parent_lt hs ha
    exact namesDownTo_some_congr hp hq hl a (Nat.lt_trans hlt hid)

theorem namesDownTo_push (h : p.Linked) (hp : p.HasPlace parent) :
    (p.push parent name kind).namesDownTo parent = p.namesDownTo parent := by
  cases parent with
  | none => rfl
  | some a =>
    exact namesDownTo_some_congr h (linked_push h hp) (fun j hj => label_push hj) a (hp a rfl)

theorem getElem?_push_of_ne (hj : j < p.segments.size) (hne : parent ≠ some j) :
    (p.push parent name kind).segments[j]? = p.segments[j]? := by
  simp [getElem?_push_old hj, hne]

/-- A column that is added below a group leaves all else as it is. -/
theorem getElem?_graft (h : p.Linked) (hp : p.HasPlace parent) (hj : j < p.segments.size)
    (hn : ∃ a, parent = some a ∧ a ∉ p.ancestry j) :
    (p.graft spec parent names).segments[j]? = p.segments[j]? := by
  fun_induction graft spec p parent names with
  | case1 => rfl
  | case2 p parent name =>
    obtain ⟨a, rfl, ha⟩ := hn
    refine getElem?_push_of_ne hj fun he => ha ?_
    cases he
    exact mem_ancestry_self h hj
  | case3 p parent name rest _ id hid ih =>
    obtain ⟨a, rfl, ha⟩ := hn
    have hc := mem_childrenOf_of_group? hid
    refine ih h (hasPlace_of_mem_childrenOf h hc) hj ⟨id, rfl, fun hd => ha ?_⟩
    obtain ⟨s, hs, hq⟩ := (mem_childrenOf h).1 hc
    have haid : a ∈ p.ancestry id :=
      (mem_ancestry h).2 ⟨s, hs, .inr ⟨a, hq, mem_ancestry_self h (hp a rfl)⟩⟩
    exact mem_ancestry_trans h haid hd
  | case4 p parent name rest _ hid ih =>
    obtain ⟨a, rfl, ha⟩ := hn
    have hlink : (p.push (some a) name (p.groupKind spec (some a) name)).Linked := linked_push h hp
    rw [ih hlink hasPlace_push (by rw [size_push]; omega)
      ⟨_, rfl, fun hd => Nat.not_le.2 hj (le_of_mem_ancestry hlink hd)⟩]
    refine getElem?_push_of_ne hj fun he => ha ?_
    cases he
    exact mem_ancestry_self h hj

/-- A column that is added below a child leaves its parent with the same children. -/
theorem childrenOf_graft (h : p.Linked) (hid : id ∈ p.childrenOf parent) :
    (p.graft spec (some id) names).childrenOf parent = p.childrenOf parent := by
  cases parent with
  | none => exact roots_graft nofun
  | some a =>
    have hlt := lt_of_mem_childrenOf h hid
    have hsize := lt_size_of_mem_childrenOf h hid
    have hn : id ∉ p.ancestry a := fun hd => Nat.not_le.2 hlt (le_of_mem_ancestry h hd)
    rw [childrenOf, childrenOf,
      getElem?_graft h (hasPlace_some hsize) (Nat.lt_trans hlt hsize) ⟨id, rfl, hn⟩]

end Projection

end QueryClauses
