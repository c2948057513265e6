import Mathlib.Data.List.Sort
import QueryClauses.Spec.Basic

/-! Which specifications are accepted, and by which paths they are told apart: a set of paths is known by
its members, whatever list it was made from. -/

namespace QueryClauses

theorem PathSet.ext {s t : PathSet} (h : ∀ path, path ∈ s ↔ path ∈ t) : s = t := by
  have hlist : s.toList = t.toList := s.ascending.eq_of_mem_iff t.ascending h
  cases s
  cases t
  cases hlist
  rfl

/-- The list of a set, in its order, makes that set. -/
theorem PathSet.ofList_toList (s : PathSet) : ofList s.toList = s :=
  ext fun _ => mem_ofList

namespace Spec

variable {s : Spec}

theorem misnamed?_eq_none_iff : s.misnamed? = none ↔ ∀ path ∈ s.repeated, "" ∉ Path.segments path := by
  rw [misnamed?, List.find?_eq_none]
  refine forall₂_congr fun path _ => not_congr ?_
  simp

theorem validate_of_segments (h : ∀ path ∈ s.repeated, "" ∉ Path.segments path) : s.validate = .ok s := by
  rw [validate, misnamed?_eq_none_iff.2 h]

/-- The path that is found is before all others with an empty segment. -/
theorem of_misnamed?_eq_some {path : String} (h : s.misnamed? = some path) :
    path ∈ s.repeated ∧ "" ∈ Path.segments path ∧
      ∀ q ∈ s.repeated, "" ∈ Path.segments q → path = q ∨ path < q := by
  obtain ⟨hempty, before, behind, hlist, hbefore⟩ := List.find?_eq_some_iff_append.1 h
  have hascending := s.repeated.ascending
  rw [hlist, List.pairwise_append, List.pairwise_cons] at hascending
  refine ⟨List.mem_of_find?_eq_some h, by simpa using hempty, fun q hq hqempty => ?_⟩
  rw [PathSet.mem_iff, hlist, List.mem_append, List.mem_cons] at hq
  rcases hq with hq | rfl | hq
  · have hnone : ∀ name ∈ Path.segments q, name ≠ "" := by simpa using hbefore q hq
    exact absurd rfl (hnone "" hqempty)
  · exact .inl rfl
  · exact .inr (hascending.2.1.1 q hq)

theorem validate_of_misnamed? {path : String} (h : s.misnamed? = some path) :
    s.validate = .error (.invalidSpec ("repeated column '" ++ path ++ "' has an empty segment")) := by
  rw [validate, h]
  rfl

/-- What is refused has a path with an empty segment, which the error names. -/
theorem validate_of_empty_segment {path : String} (hpath : path ∈ s.repeated)
    (h : "" ∈ Path.segments path) :
    ∃ path ∈ s.repeated, "" ∈ Path.segments path ∧
      s.validate = .error (.invalidSpec ("repeated column '" ++ path ++ "' has an empty segment")) := by
  cases hm : s.misnamed? with
  | none => exact absurd h (misnamed?_eq_none_iff.1 hm path hpath)
  | some first =>
    obtain ⟨hfirst, hempty, -⟩ := of_misnamed?_eq_some hm
    exact ⟨first, hfirst, hempty, validate_of_misnamed? hm⟩

end Spec

end QueryClauses
