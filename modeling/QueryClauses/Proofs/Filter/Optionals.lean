import QueryClauses.Proofs.Filter.Faults
import QueryClauses.Proofs.Filter.Tags

/-! Values within optionals. An optional that is present is never zero, so its value is asked for even where
zero values are to be left out, and asked for just as without the optional. Within a second one it is at
fault. -/

namespace QueryClauses

namespace FieldOf

/-- The field with its value in an optional. -/
def present (f : Field) : Field := { f with value := .optional (some f.value) }

/-- The field with a tag that leaves no zero value out. -/
def keepingZero (f : Field) : Field := { f with tag := f.tag.map (FieldOptions.without "omitempty") }

variable {f : Field}

theorem options_keepingZero (f : Field) : f.keepingZero.options = { f.options with omitEmpty := false } := by
  cases ht : f.tag with
  | none =>
    simp only [options, keepingZero, ht, Option.map_none, Option.getD_none]
    decide +kernel
  | some tag =>
    simp only [options, keepingZero, ht, Option.map_some, Option.getD_some]
    exact FieldOptions.parse_without tag

theorem condition_present (f : Field) :
    f.present.condition = conditionFor f.column f.options.unnest f.format f.value := by
  rw [condition_eq, if_neg (by simp [present, Value.isZero])]
  rfl

theorem condition_keepingZero (h : ∀ inner, f.value ≠ .optional inner) :
    f.keepingZero.condition = conditionFor f.column f.options.unnest f.format f.value := by
  have hcolumn : f.keepingZero.column = f.column := by
    rw [column, column, options_keepingZero]
    rfl
  rw [condition_eq, hcolumn, options_keepingZero, if_neg (by simp)]
  exact congrArg _ (Value.unwrapped_of_ne fun inner => h (some inner))

/-- The value within the second optional is not looked at. -/
theorem condition_present_present (f : Field) :
    f.present.present.condition = .error (.unsupportedField f.column "optional") := by
  rw [condition_present]
  rfl

end FieldOf

namespace Predicate

open FieldOf (present keepingZero)

/-- A record none of whose values is an optional has the same predicate, or the same fault, when all its
values are put into optionals as when `omitempty` is taken out of all its tags. A value in two optionals is
at fault, whatever it is and whatever the tag says, and is the record's fault if no field before it is. -/
theorem ofValue_record_map_present :
    (∀ r : Record, (∀ f ∈ r, ∀ inner, f.value ≠ .optional inner) →
      ofValue (.record (r.map present)) = ofValue (.record (r.map keepingZero))) ∧
    (∀ f : Field, f.present.present.condition = .error (.unsupportedField f.column "optional")) ∧
    ∀ (before after : Record) (f : Field), (∀ g ∈ before, ∃ a, g.condition = .ok a) →
      ofValue (.record (before ++ f.present.present :: after)) =
        .error (.unsupportedField f.column "optional") := by
  refine ⟨fun r hr => ?_, FieldOf.condition_present_present, fun before after f hbefore => ?_⟩
  · refine ofRecord_congr ?_
    rw [List.map_map, List.map_map]
    refine List.map_congr_left fun f hf => ?_
    exact (FieldOf.condition_present f).trans (FieldOf.condition_keepingZero (hr f hf)).symm
  · refine ofRecord_eq_error_iff.2 ⟨before, f.present.present, after, rfl, fun g hg => ?_, ?_⟩
    · exact FieldOf.exists_condition_eq_ok_iff.1 (hbefore g hg)
    · exact FieldOf.condition_eq_error_iff.1 (FieldOf.condition_present_present f)

/-- Zero values that are asked for from within optionals, a directive among others and in the place of the
name, an empty list that is skipped all the same, and a value that is at fault as it is without an optional. -/
theorem ofValue_record_map_present_zero_values :
    let r : Record := [
      { name := "Kind", value := .scalar (.string ""), tag := some "omitempty,omitempty,unnest,omitempty" },
      { name := "Taken", value := .scalar (.bool false), tag := some ",other,omitempty" },
      { name := "Owner", value := .list [], tag := some ",omitempty" }]
    let p := ofConditions [.compare "omitempty" true (.one ""), .holds "Taken" false]
    let count : Field := { name := "Count", value := .scalar (.int 0), tag := some ",omitempty" }
    r.map (·.keepingZero.tag) = [some "omitempty,unnest", some ",other", some ""] ∧
      ofValue (.record r) = .ok (ofConditions []) ∧ ofValue (.record (r.map present)) = .ok p ∧
      ofValue (.record (r.map keepingZero)) = .ok p ∧
      ofValue (.record ((r ++ [count]).map present)) = .error (.unsupportedField "Count" "integer") ∧
      ofValue (.record (r ++ count.present.present :: r)) = .error (.unsupportedField "Count" "optional") := by
  intro r p count
  have hr : ∀ f ∈ r ++ [count], ∀ inner, f.value ≠ .optional inner := by
    simp [r, count]
  have hbefore : ∀ g ∈ r, ∃ a, g.condition = .ok a := by
    simp only [r, List.forall_mem_cons]
    exact ⟨⟨_, rfl⟩, ⟨_, rfl⟩, ⟨_, rfl⟩, List.forall_mem_nil _⟩
  have hpresent : ofValue (.record (r.map present)) = .ok p := rfl
  have hcolumn : count.column = "Count" := by decide +kernel
  refine ⟨by decide +kernel, rfl, hpresent, ?_, ?_,
    hcolumn ▸ ofValue_record_map_present.2.2 r r count hbefore⟩
  · rw [← hpresent]
    exact (ofValue_record_map_present.1 r fun f hf => hr f (List.mem_append_left _ hf)).symm
  · rw [ofValue_record_map_present.1 _ hr]
    rfl

end Predicate

end QueryClauses
