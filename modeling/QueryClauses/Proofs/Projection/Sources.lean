import QueryClauses.Proofs.Projection.Scope
import QueryClauses.Proofs.Projection.WellFormed
import QueryClauses.Proofs.Spec.Reading

/-! What is unnested in a projection. A group is an array just if its whole name is that of a repeated column,
and a specification that was accepted repeats no column with an empty segment. So there is no empty name down
to an array, whatever the paths are, and none in its reference, which is the end of its whole name. -/

namespace QueryClauses

theorem Path.empty_mem_segments_empty : "" ∈ segments "" := segments_empty ▸ List.mem_cons_self

/-- A path is not empty if none of its parts is. -/
theorem Path.ne_empty_of_segments {path : String} (h : "" ∉ Path.segments path) : path ≠ "" := by
  rintro rfl
  exact h Path.empty_mem_segments_empty

/-! ### Names of repeated columns -/

namespace Spec

variable {s : Spec} {names inner : List String}

/-- What is joined from some of the names of a repeated column has no empty part. -/
theorem Accepted.empty_not_mem_inner (h : s.Accepted) (hr : Path.ofSegments names ∈ s.repeated)
    (hne : inner ≠ []) (hinner : inner <:+ names) : "" ∉ Path.segments (Path.ofSegments inner) := by
  obtain ⟨first, hfirst⟩ := List.exists_mem_of_ne_nil inner hne
  have hnames : names ≠ [] := List.ne_nil_of_mem (hinner.mem hfirst)
  rw [Path.mem_segments_ofSegments hne]
  rintro ⟨name, hname, hempty⟩
  exact h.empty_not_mem_segments hr ((Path.mem_segments_ofSegments hnames).2 ⟨name, hinner.mem hname, hempty⟩)

theorem Accepted.empty_not_mem (h : s.Accepted) (hne : names ≠ []) (hr : Path.ofSegments names ∈ s.repeated) :
    "" ∉ names :=
  fun hempty => h.empty_not_mem_segments hr
    ((Path.mem_segments_ofSegments hne).2 ⟨"", hempty, Path.empty_mem_segments_empty⟩)

end Spec

/-! ### Arrays in the store -/

namespace Projection

variable {spec : Spec} {p : Projection} {pending : Option Nat} {id : Nat} {s : Segment}

theorem scopeNames_suffix (parent : Option Nat) : p.scopeNames parent <:+ p.namesDownTo parent := by
  rw [scopeNames, namesDownTo_eq]
  exact List.reverse_suffix.2 ((List.takeWhile_prefix _).filterMap _)

theorem fullName_mem_repeated (h : p.Grouped spec pending) (hs : p.segments[id]? = some s)
    (hk : s.kind = .array) : p.fullName id ∈ spec.repeated := by
  have hkind := h.kind_eq hs (by rw [hk]; nofun)
  rw [hk] at hkind
  by_contra hnot
  rw [if_neg hnot] at hkind
  cases hkind

end Projection

/-! ### Arrays in the clause -/

open ColumnTree ColumnExpr

namespace ColumnExpr

theorem groupsAt_nil (names : List String) : groupsAt names [] = [] := by
  induction names with
  | nil => rfl
  | cons name rest ih =>
    cases rest with
    | nil => rfl
    | cons next rest => exact ih

end ColumnExpr

namespace ColumnTree

variable {spec : Spec} {above scope names : List String} {paths : List (List String)} {e : ColumnExpr}

/-- What is found at some names is a group with the last of them, below the others. It is referred to by the
last of the names on the way, and by its own. -/
theorem exists_group_of_mem_groupsAt (h : e ∈ groupsAt names (exprs scope (grouped spec above paths))) :
    ∃ outer name inner children, names = outer ++ [name] ∧ inner <:+ scope ++ outer ∧
      e = expr inner (group spec (above ++ outer) name children) := by
  induction names generalizing above scope paths with
  | nil => cases h
  | cons name rest ih =>
    cases rest with
    | nil =>
      rw [groupsAt, filter_isGroup_exprs, filter_isGroup_grouped] at h
      split at h
      · cases h
      · obtain rfl := List.mem_singleton.1 h
        exact ⟨[], name, scope, _, rfl, by simp, by rw [List.append_nil]⟩
    | cons next rest =>
      rw [groupsAt, filter_isGroup_exprs, filter_isGroup_grouped] at h
      split at h
      · rw [exprs, List.flatMap_nil, groupsAt_nil] at h
        cases h
      · obtain ⟨inner, hinner, hfields⟩ : ∃ inner, inner <:+ scope ++ [name] ∧
            (expr scope (group spec above name (grouped spec (above ++ [name]) (tailsBelow name paths)))).fields =
              exprs inner (grouped spec (above ++ [name]) (tailsBelow name paths)) := by
          unfold group
          split
          · exact ⟨[], List.nil_suffix, rfl⟩
          · exact ⟨scope ++ [name], List.suffix_rfl, rfl⟩
        rw [exprs, exprs, List.flatMap_singleton, hfields] at h
        obtain ⟨outer, last, within, children, hnames, hwithin, he⟩ := ih h
        have hpart : within <:+ scope ++ name :: outer := by
          rw [← List.singleton_append, ← List.append_assoc]
          exact hwithin.trans (List.suffix_append_self_iff.2 hinner)
        refine ⟨name :: outer, last, within, children, by rw [hnames, List.cons_append], hpart, ?_⟩
        rw [he, List.append_assoc, List.singleton_append]

theorem repeated_of_expr_group_eq_array {name source other : String} {inner : List String}
    {children : List ColumnTree} {fields : List ColumnExpr}
    (h : expr inner (group spec above name children) = .array fields source other) :
    Path.ofSegments (above ++ [name]) ∈ spec.repeated ∧ source = Path.ofSegments (inner ++ [name]) := by
  unfold group at h
  split at h
  · next hr =>
    cases h
    exact ⟨of_decide_eq_true hr, rfl⟩
  · cases h

end ColumnTree

/-- With a specification that was accepted, nothing is unnested by an empty name. Whatever the paths are, there
is no empty name down to an array, neither in the store nor in the clause, and its reference has no empty part;
a group that is reached through an empty name is a record. -/
theorem sources_ofPaths_of_accepted {spec : Spec} (h : spec.Accepted) (paths : List String) :
    let p := Projection.ofPaths spec paths
    (∀ id s, p.segments[id]? = some s → s.kind = .array →
        "" ∉ p.namesDownTo (some id) ∧ p.reference id ≠ "" ∧ "" ∉ Path.segments (p.reference id)) ∧
      (∀ names fields source name, .array fields source name ∈ groupsAt names p.items →
        "" ∉ names ∧ source ≠ "" ∧ "" ∉ Path.segments source) ∧
      ∀ names e, e ∈ groupsAt names p.items → "" ∈ names →
        ∃ fields name, e = .struct fields name ∧ Text.Within (structText (clause fields) name) p.clause := by
  intro p
  have hgrouped : p.Grouped spec none := Projection.grouped_ofPaths spec paths
  have hitems : p.items = exprs [] (grouped spec [] (paths.map Path.segments)) :=
    Projection.items_ofPaths spec paths
  refine ⟨fun id s hs hk => ?_, fun names fields source name he => ?_, fun names e he hempty => ?_⟩
  · have hr : Path.ofSegments (p.namesDownTo (some id)) ∈ spec.repeated :=
      Projection.fullName_mem_repeated hgrouped hs hk
    have hnames := Projection.namesDownTo_some hgrouped.linked hs
    have href : "" ∉ Path.segments (p.reference id) := by
      rw [Projection.reference_eq hgrouped.linked hs]
      refine h.empty_not_mem_inner hr (by simp) ?_
      rw [hnames]
      exact List.suffix_append_self_iff.2 (Projection.scopeNames_suffix s.parent)
    exact ⟨h.empty_not_mem (by rw [hnames]; simp) hr, Path.ne_empty_of_segments href, href⟩
  · rw [hitems] at he
    obtain ⟨outer, last, inner, children, rfl, hinner, hexpr⟩ := exists_group_of_mem_groupsAt he
    obtain ⟨hr, rfl⟩ := repeated_of_expr_group_eq_array hexpr.symm
    have hend : inner ++ [last] <:+ [] ++ outer ++ [last] := List.suffix_append_self_iff.2 hinner
    have hsource := h.empty_not_mem_inner hr (by simp) hend
    exact ⟨h.empty_not_mem (by simp) hr, Path.ne_empty_of_segments hsource, hsource⟩
  · have hwithin := within_clause_of_mem_groupsAt he
    rw [hitems] at he
    obtain ⟨outer, last, inner, children, rfl, -, rfl⟩ := exists_group_of_mem_groupsAt he
    have hnot : spec.isRepeated (Path.ofSegments ([] ++ outer ++ [last])) = false :=
      decide_eq_false fun hr => h.empty_not_mem (by simp) hr hempty
    rw [group, if_neg (by rw [hnot]; exact Bool.false_ne_true), expr] at hwithin ⊢
    rw [text_struct] at hwithin
    exact ⟨_, _, rfl, hwithin⟩

/-- Empty names before, between and behind those of an array, and an array in an array. -/
theorem sources_ofPaths_of_accepted_empty_names :
    let spec : Spec := ⟨.ofList ["N.det", "N.det.prod.DI"], ""⟩
    let p := Projection.ofPaths spec ["N.det.prod.DI.k", ".N.det.y", "N.det..z.", "N..det.w"]
    spec.Accepted ∧
      (∀ names fields source name, .array fields source name ∈ groupsAt names p.items →
        "" ∉ names ∧ source ≠ "" ∧ "" ∉ Path.segments source) ∧
      ∃ fields name, .struct fields name ∈ groupsAt ["N", "det", ""] p.items := by
  intro spec p
  have h : spec.Accepted := .validated (by decide +kernel)
  obtain ⟨-, harrays, hrecords⟩ :=
    sources_ofPaths_of_accepted h ["N.det.prod.DI.k", ".N.det.y", "N.det..z.", "N..det.w"]
  have hlength : 0 < (groupsAt ["N", "det", ""] p.items).length := by decide +kernel
  obtain ⟨e, he⟩ := List.exists_mem_of_length_pos hlength
  obtain ⟨fields, name, rfl, -⟩ := hrecords _ e he (by decide)
  exact ⟨h, harrays, fields, name, he⟩

example :
    columnsClause ⟨.ofList ["N.det"], ""⟩ ["N.det..z", ".N.det.y"] =
      "STRUCT(ARRAY(SELECT AS STRUCT STRUCT(.z) AS  FROM UNNEST(N.det)) AS det) AS N," ++
        "STRUCT(STRUCT(STRUCT(.N.det.y) AS det) AS N) AS " := by
  decide +kernel

end QueryClauses
