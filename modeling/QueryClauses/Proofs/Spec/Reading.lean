import QueryClauses.Proofs.Spec.Validation
import QueryClauses.Spec.File

/-! Specifications that are read. What a text says is validated before it is given out, so a specification from
a text or from a file has been accepted like any other, and what is wrong with it is its own fault. -/

namespace QueryClauses.Spec

variable {s : Spec} {e : Error}

/-- Either a specification is found in the text and validated, or the text is malformed. -/
theorem parseJson_cases (text : String) :
    (∃ r, (Json.parse? text).bind ofJson? = some r ∧ parseJson text = r.validate) ∨
      ∃ reason, parseJson text = .error (.malformedJson reason) := by
  cases h : (Json.parse? text).bind ofJson? with
  | none => exact .inr ⟨_, by rw [parseJson, h]⟩
  | some r => exact .inl ⟨r, rfl, by rw [parseJson, h]⟩

theorem parseToml_cases (text : String) :
    (∃ r, (Toml.parse? text).bind ofToml? = some r ∧ parseToml text = r.validate) ∨
      ∃ reason, parseToml text = .error (.malformedToml reason) := by
  cases h : (Toml.parse? text).bind ofToml? with
  | none => exact .inr ⟨_, by rw [parseToml, h]⟩
  | some r => exact .inl ⟨r, rfl, by rw [parseToml, h]⟩

/-- What is in a file is read as JSON or as TOML. -/
theorem ofFile_cases (name : String) (content : Option ByteArray) :
    (∃ text, ofFile name content = parseJson text ∨ ofFile name content = parseToml text) ∨
      ∃ reason, ofFile name content = .error (.unreadable reason) := by
  unfold ofFile
  split
  · exact .inr ⟨_, rfl⟩
  · split
    · exact .inr ⟨_, rfl⟩
    · next text _ =>
      refine .inl ⟨text, ?_⟩
      split
      · exact .inl rfl
      · exact .inr rfl

/-! ### Faults -/

theorem isConfigError_of_validate (h : s.validate = .error e) : e.isConfigError = true := by
  rw [validate] at h
  split at h
  · cases h
    rfl
  · cases h

theorem isConfigError_of_parseJson {text : String} (h : parseJson text = .error e) :
    e.isConfigError = true := by
  rcases parseJson_cases text with ⟨r, -, hr⟩ | ⟨reason, hr⟩ <;> rw [hr] at h
  · exact isConfigError_of_validate h
  · cases h
    rfl

theorem isConfigError_of_parseToml {text : String} (h : parseToml text = .error e) :
    e.isConfigError = true := by
  rcases parseToml_cases text with ⟨r, -, hr⟩ | ⟨reason, hr⟩ <;> rw [hr] at h
  · exact isConfigError_of_validate h
  · cases h
    rfl

/-! ### Accepted specifications -/

/-- The specification was accepted, as it is or when it was read. -/
inductive Accepted (s : Spec) : Prop
  | validated (h : s.validate = .ok s)
  | json {text : String} (h : parseJson text = .ok s)
  | toml {text : String} (h : parseToml text = .ok s)
  | file {name : String} {content : Option ByteArray} (h : ofFile name content = .ok s)

theorem eq_of_validate_eq_ok {r : Spec} (h : r.validate = .ok s) : r = s := by
  rw [validate] at h
  split at h
  · cases h
  · cases h
    rfl

theorem validate_of_parseJson {text : String} (h : parseJson text = .ok s) : s.validate = .ok s := by
  rcases parseJson_cases text with ⟨r, -, hr⟩ | ⟨reason, hr⟩ <;> rw [hr] at h
  · exact eq_of_validate_eq_ok h ▸ h
  · cases h

theorem validate_of_parseToml {text : String} (h : parseToml text = .ok s) : s.validate = .ok s := by
  rcases parseToml_cases text with ⟨r, -, hr⟩ | ⟨reason, hr⟩ <;> rw [hr] at h
  · exact eq_of_validate_eq_ok h ▸ h
  · cases h

/-- However a specification was accepted, it is valid. -/
theorem Accepted.validate_eq (h : s.Accepted) : s.validate = .ok s := by
  cases h with
  | validated h => exact h
  | json h => exact validate_of_parseJson h
  | toml h => exact validate_of_parseToml h
  | @file name content h =>
    rcases ofFile_cases name content with ⟨text, htext | htext⟩ | ⟨reason, hr⟩
    · exact validate_of_parseJson (htext ▸ h)
    · exact validate_of_parseToml (htext ▸ h)
    · rw [hr] at h
      cases h

theorem Accepted.empty_not_mem_segments (h : s.Accepted) {path : String} (hpath : path ∈ s.repeated) :
    "" ∉ Path.segments path := by
  have hvalid := h.validate_eq
  rw [validate] at hvalid
  split at hvalid
  · cases hvalid
  · next hm => exact misnamed?_eq_none_iff.1 hm path hpath

end QueryClauses.Spec
