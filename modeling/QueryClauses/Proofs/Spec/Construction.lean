import QueryClauses.Proofs.Lexicographic
import QueryClauses.Proofs.Spec.Reading

/-! Specifications that are built up by adding paths. The set of the paths is all that is left of the steps, and
the path that a refusal names is the least of those with a gap, so it does not depend on the steps either, nor
on whether the set was built or read. -/

namespace QueryClauses

open Text (bytes)

/-! ### Gaps -/

/-- The path is empty, it begins or ends with a dot, or it has two dots in a row. -/
inductive Path.HasGap : String → Prop
  | empty : HasGap ""
  | leading (rest : String) : HasGap ("." ++ rest)
  | trailing (rest : String) : HasGap (rest ++ ".")
  | doubled (before behind : String) : HasGap (before ++ ".." ++ behind)

theorem Path.empty_mem_segments_iff {path : String} : "" ∈ segments path ↔ HasGap path := by
  have hdots (before behind : String) : before ++ "." ++ ("" ++ "." ++ behind) = before ++ ".." ++ behind := by
    rw [show ".." = "." ++ "." by decide]
    simp only [String.empty_append, String.append_assoc]
  constructor
  · intro h
    obtain ⟨before, behind, hsegments⟩ := List.append_of_mem h
    have hpath : path = ofSegments (before ++ ([""] ++ behind)) := by
      rw [← ofSegments_segments path, hsegments, List.singleton_append]
    by_cases hbefore : before = [] <;> by_cases hbehind : behind = []
    · rw [hpath, hbefore, hbehind]
      exact .empty
    · rw [hpath, hbefore, List.nil_append, ofSegments_append (List.cons_ne_nil _ _) hbehind, ofSegments_singleton,
        String.empty_append]
      exact .leading _
    · rw [hpath, hbehind, List.append_nil, ofSegments_append hbefore (List.cons_ne_nil _ _), ofSegments_singleton,
        String.append_empty]
      exact .trailing _
    · have hrest : [""] ++ behind ≠ [] := List.cons_ne_nil _ _
      rw [hpath, ofSegments_append hbefore hrest, ofSegments_append (List.cons_ne_nil _ _) hbehind,
        ofSegments_singleton, hdots]
      exact .doubled _ _
  · intro h
    cases h with
    | empty => rw [segments_empty]; exact List.mem_cons_self
    | leading rest =>
      have hdot : "." ++ rest = "" ++ "." ++ rest := by rw [String.empty_append]
      rw [hdot, segments_append, segments_empty]
      exact List.mem_append_left _ List.mem_cons_self
    | trailing rest =>
      have hdot : rest ++ "." = rest ++ "." ++ "" := by rw [String.append_empty]
      rw [hdot, segments_append, segments_empty]
      exact List.mem_append_right _ List.mem_cons_self
    | doubled before behind =>
      rw [← hdots, segments_append, segments_append, segments_empty]
      exact List.mem_append_right _ (List.mem_append_left _ List.mem_cons_self)

namespace Spec

variable {template template' : String} {paths paths' : List String} {s s' : Spec}

/-! ### Steps -/

/-- The specification is made from one without paths in some steps, which add just the given paths. -/
inductive Built : String → List String → Spec → Prop
  | new (template : String) : Built template [] (.new template)
  | default : Built "" [] default
  | withRepeated {template : String} {paths : List String} {s : Spec} (path : String)
    (h : Built template paths s) : Built template (path :: paths) (s.withRepeated path)
  | withRepeatedColumns {template : String} {paths : List String} {s : Spec} (more : List String)
    (h : Built template paths s) : Built template (more ++ paths) (s.withRepeatedColumns more)

/-- Just the given paths are repeated. -/
def Repeats (s : Spec) (paths : List String) : Prop := ∀ path, path ∈ s.repeated ↔ path ∈ paths

theorem Built.repeats (h : Built template paths s) : s.Repeats paths := by
  intro q
  induction h with
  | new | default => exact iff_of_false (PathSet.not_mem_empty q) List.not_mem_nil
  | withRepeated path h ih => rw [Spec.withRepeated, PathSet.mem_insert, ih, List.mem_cons]
  | withRepeatedColumns more h ih => rw [Spec.withRepeatedColumns, PathSet.mem_insertAll, ih, List.mem_append]

theorem Built.template_eq (h : Built template paths s) : s.template = template := by
  induction h with
  | new | default => rfl
  | withRepeated path h ih => exact ih
  | withRepeatedColumns more h ih => exact ih

theorem eq_iff_of_repeats (h : s.Repeats paths) (h' : s'.Repeats paths') :
    s = s' ↔ s.template = s'.template ∧ ∀ path, path ∈ paths ↔ path ∈ paths' := by
  constructor
  · rintro rfl
    exact ⟨rfl, fun path => (h path).symm.trans (h' path)⟩
  · rintro ⟨htemplate, hpaths⟩
    have hrepeated : s.repeated = s'.repeated :=
      PathSet.ext fun path => (h path).trans ((hpaths path).trans (h' path).symm)
    cases s
    cases s'
    cases htemplate
    cases hrepeated
    rfl

/-! ### What is accepted -/

theorem validate_eq_ok_iff (h : s.Repeats paths) : s.validate = .ok s ↔ ∀ path ∈ paths, ¬Path.HasGap path := by
  have hgaps : (∀ path ∈ paths, ¬Path.HasGap path) ↔ s.misnamed? = none := by
    rw [misnamed?_eq_none_iff]
    exact forall_congr' fun path => by rw [h path, Path.empty_mem_segments_iff]
  rw [hgaps, validate]
  cases s.misnamed? <;> simp

/-- The path with a gap that has the least bytes. -/
def IsOffender (paths : List String) (path : String) : Prop :=
  path ∈ paths ∧ Path.HasGap path ∧
    ∀ q ∈ paths, Path.HasGap q → (compare (bytes path) (bytes q)).isLE

theorem IsOffender.unique {path q : String} (h : IsOffender paths path) (hq : IsOffender paths q) : path = q :=
  Text.eq_of_compare_bytes (h.2.2 q hq.1 hq.2.1) (hq.2.2 path h.1 h.2.1)

theorem isOffender_of_misnamed? {path : String} (h : s.Repeats paths) (hm : s.misnamed? = some path) :
    IsOffender paths path := by
  obtain ⟨hpath, hempty, hbelow⟩ := of_misnamed?_eq_some hm
  refine ⟨(h path).1 hpath, Path.empty_mem_segments_iff.1 hempty, fun q hq hgap => ?_⟩
  rcases hbelow q ((h q).2 hq) (Path.empty_mem_segments_iff.2 hgap) with rfl | hlt
  · rw [Std.compare_eq_iff_eq.2 rfl]
    rfl
  · rw [Text.compare_bytes_of_lt hlt]
    rfl

/-- The offender is found in every specification that repeats the paths. -/
theorem misnamed?_of_isOffender {least : String} (h : s.Repeats paths) (hleast : IsOffender paths least) :
    s.misnamed? = some least := by
  cases hm : s.misnamed? with
  | none =>
    have hempty : "" ∈ Path.segments least := Path.empty_mem_segments_iff.2 hleast.2.1
    exact absurd hempty (misnamed?_eq_none_iff.1 hm least ((h least).2 hleast.1))
  | some path => rw [(isOffender_of_misnamed? h hm).unique hleast]

theorem validate_of_isOffender {least : String} (h : s.Repeats paths) (hleast : IsOffender paths least) :
    s.validate = .error (.invalidSpec ("repeated column '" ++ least ++ "' has an empty segment")) :=
  validate_of_misnamed? (misnamed?_of_isOffender h hleast)

theorem existsUnique_isOffender (h : ∃ path ∈ paths, Path.HasGap path) : ∃! least, IsOffender paths least := by
  have hs : (Spec.mk (.ofList paths) "").Repeats paths := fun q => PathSet.mem_ofList
  cases hm : (Spec.mk (.ofList paths) "").misnamed? with
  | none =>
    obtain ⟨path, hpath, hgap⟩ := h
    exact absurd (Path.empty_mem_segments_iff.2 hgap) (misnamed?_eq_none_iff.1 hm path ((hs path).2 hpath))
  | some least =>
    have hleast := isOffender_of_misnamed? hs hm
    exact ⟨least, hleast, fun path hpath => hpath.unique hleast⟩

/-- A specification that is built up is known by its template and the set of the paths that were added. It is
accepted just if none of them has a gap, and otherwise refused by the name of the least that has one, as is any
other with the same set, in whatever steps it is built and from whatever text it is read. What is wrong with a
text is the fault of the specification. -/
theorem validate_of_built (h : Built template paths s) :
    (∀ {template' paths' s'}, Built template' paths' s' →
        (s = s' ↔ template = template' ∧ ∀ path, path ∈ paths ↔ path ∈ paths')) ∧
      (s.validate = .ok s ↔ ∀ path ∈ paths, ¬Path.HasGap path) ∧
      ((∃ path ∈ paths, Path.HasGap path) → ∃! least, IsOffender paths least) ∧
      (∀ least reason, IsOffender paths least → reason = "repeated column '" ++ least ++ "' has an empty segment" →
        s.validate = .error (.invalidSpec reason) ∧
          (∀ {template' paths' s'}, Built template' paths' s' → (∀ path, path ∈ paths ↔ path ∈ paths') →
            s'.validate = .error (.invalidSpec reason)) ∧
          ∀ {text : String} {r : Spec}, r.Repeats paths →
            ((Json.parse? text).bind ofJson? = some r → parseJson text = .error (.invalidSpec reason)) ∧
              ((Toml.parse? text).bind ofToml? = some r → parseToml text = .error (.invalidSpec reason))) ∧
      ∀ text e, parseJson text = .error e ∨ parseToml text = .error e →
        e.isConfigError = true ∧ e.isInputError = false := by
  refine ⟨fun h' => ?_, validate_eq_ok_iff h.repeats, existsUnique_isOffender, ?_, fun text e he => ?_⟩
  · rw [eq_iff_of_repeats h.repeats h'.repeats, h.template_eq, h'.template_eq]
  · rintro least reason hleast rfl
    refine ⟨validate_of_isOffender h.repeats hleast, fun h' hpaths => ?_, fun hr => ⟨fun htext => ?_,
      fun htext => ?_⟩⟩
    · exact validate_of_isOffender (fun q => (h'.repeats q).trans (hpaths q).symm) hleast
    · rw [parseJson, htext, ← validate_of_isOffender hr hleast]
    · rw [parseToml, htext, ← validate_of_isOffender hr hleast]
  · have hconfig : e.isConfigError = true := he.elim isConfigError_of_parseJson isConfigError_of_parseToml
    have hnot := e.isConfigError_eq_not_isInputError
    rw [hconfig] at hnot
    exact ⟨hconfig, by simpa using hnot⟩

/-- Built in two orders and in different portions, and read from a text of each kind, with paths that have gaps of
every kind, of which the empty one is the least. -/
theorem validate_of_built_two_orders :
    let paths := ["é.", "a..b", "d", "", ".c"]
    let s := ((Spec.new "q").withRepeatedColumns ["d", "", ".c"]).withRepeatedColumns ["é.", "a..b"]
    let s' := (((default : Spec).withRepeatedColumns [".c", "d", ".c"]).withRepeated "a..b").withRepeatedColumns
      ["", "é."]
    let json := "\x7b\"repeated_columns\": [\".c\", \"d\", \"\", \"a..b\", \"é.\"]\x7d"
    let toml := "template = 'q'\nrepeated = ['a..b', 'é.', 'd', 'd', '.c', '']\n"
    let refused : Except Error Spec := .error (.invalidSpec "repeated column '' has an empty segment")
    Built "q" paths s ∧ Built "" ["", "é.", "a..b", ".c", "d", ".c"] s' ∧ IsOffender paths "" ∧
      s.validate = refused ∧ s'.validate = refused ∧ parseJson json = refused ∧ parseToml toml = refused := by
  intro paths s s' json toml refused
  have hs : Built "q" paths s :=
    ((Built.new "q").withRepeatedColumns ["d", "", ".c"]).withRepeatedColumns ["é.", "a..b"]
  have hs' : Built "" ["", "é.", "a..b", ".c", "d", ".c"] s' :=
    ((Built.default.withRepeatedColumns [".c", "d", ".c"]).withRepeated "a..b").withRepeatedColumns ["", "é."]
  have hbelow : ∀ q ∈ paths, (compare (bytes "") (bytes q)).isLE := by decide
  have hleast : IsOffender paths "" := ⟨by decide, .empty, fun q hq _ => hbelow q hq⟩
  have hreason : "repeated column '' has an empty segment" =
      "repeated column '" ++ "" ++ "' has an empty segment" := by decide
  have hrepeats (template : String) : (Spec.mk (.ofList paths) template).Repeats paths := fun _ => PathSet.mem_ofList
  have hjson : (Json.parse? json).bind ofJson? = some ⟨.ofList paths, ""⟩ := by decide +kernel
  have htoml : (Toml.parse? toml).bind ofToml? = some ⟨.ofList paths, "q"⟩ := by decide +kernel
  obtain ⟨hrefused, hothers, htexts⟩ := (validate_of_built hs).2.2.2.1 "" _ hleast hreason
  exact ⟨hs, hs', hleast, hrefused, hothers hs' (by grind), (htexts (hrepeats "")).1 hjson,
    (htexts (hrepeats "q")).2 htoml⟩

end Spec

end QueryClauses
