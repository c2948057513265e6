import QueryClauses.Proofs.Filter.Names

/-! Columns for which the names of parameters cannot be confused. Such a column does not itself end like a
name that is derived from a column, so both the column and what a parameter is for can be told from the
parameter's name. -/

namespace QueryClauses

/-- What a parameter is for: the value of a column, an element of its list, or a bound of its range. -/
inductive Role where
  | plain
  | element (index : Nat)
  | lower
  | upper
  deriving DecidableEq

/-- The name of the parameter of a column for a role. -/
def Parameter.nameFor (column : String) : Role → String
  | .plain => column
  | .element index => elementName column index
  | .lower => lowerName column
  | .upper => upperName column

/-- The column ends neither in a digit nor in what is put behind a column for a bound. -/
structure IsUnambiguous (column : String) : Prop where
  not_digit : ¬ endsInDigit column
  not_lower : ¬ "From".toList <:+ column.toList
  not_upper : ¬ "To".toList <:+ column.toList

namespace IsUnambiguous

variable {column e : String}

instance (column : String) : Decidable (IsUnambiguous column) :=
  decidable_of_iff (¬ endsInDigit column ∧ ¬ "From".toList <:+ column.toList ∧ ¬ "To".toList <:+ column.toList)
    ⟨fun ⟨hd, hl, hu⟩ => ⟨hd, hl, hu⟩, fun h => ⟨h.not_digit, h.not_lower, h.not_upper⟩⟩

theorem not_isBound (h : IsUnambiguous (column ++ e)) : ¬ IsBound e := by
  have hsuffix : e.toList <:+ (column ++ e).toList := by
    rw [String.toList_append]
    exact List.suffix_append _ _
  rintro (rfl | rfl)
  · exact h.not_lower hsuffix
  · exact h.not_upper hsuffix

theorem not_endsInDigit (h : IsUnambiguous (column ++ e)) (he : e ≠ "") : ¬ endsInDigit e := by
  rw [← endsInDigit_append (s := column) he]
  exact h.not_digit

end IsUnambiguous

theorem endsInDigit_of_repr_eq_append {i : Nat} {e t : String} (he : e ≠ "") (h : i.repr = e ++ t) :
    endsInDigit e := by
  have hne : e.toList ≠ [] := by simpa using he
  rw [endsInDigit, List.getLast?_eq_some_getLast hne, Option.any_some]
  refine Nat.isDigit_of_mem_toDigits (b := 10) (n := i) (by decide) (by decide) ?_
  rw [← Nat.toList_repr, h, String.toList_append]
  exact List.mem_append_left _ (List.getLast_mem hne)

namespace Role

variable {ρ σ : Role} {column other e : String}

/-- What is put behind a column for a role. -/
def suffix : Role → String
  | plain => ""
  | element index => index.repr
  | lower => "From"
  | upper => "To"

theorem nameFor_eq (column : String) (ρ : Role) : Parameter.nameFor column ρ = column ++ ρ.suffix := by
  cases ρ with
  | plain => exact String.append_empty.symm
  | element index => rfl
  | lower => rfl
  | upper => rfl

theorem repr_ne_of_endsInDigit_eq {i : Nat} {s : String} (hs : endsInDigit s = false) : i.repr ≠ s := by
  rintro rfl
  exact Bool.eq_false_iff.1 hs (endsInDigit_repr i)

theorem suffix_inj (h : ρ.suffix = σ.suffix) : ρ = σ := by
  cases ρ with
  | element i =>
    cases σ with
    | element j => exact congrArg element (repr_inj.1 h)
    | plain | lower | upper => exact absurd h (repr_ne_of_endsInDigit_eq rfl)
  | plain | lower | upper =>
    cases σ with
    | element j => exact absurd h.symm (repr_ne_of_endsInDigit_eq rfl)
    | plain | lower | upper =>
      revert h
      decide

theorem eq_empty_of_isBound_append (h : IsUnambiguous (column ++ e)) (hb : IsBound (e ++ σ.suffix)) :
    e = "" := by
  cases σ with
  | plain =>
    rw [suffix, String.append_empty] at hb
    exact absurd hb h.not_isBound
  | element j =>
    -- a number does not end like a bound
    have hdigit := hb.endsInDigit_eq
    rw [suffix, endsInDigit_append Nat.repr_ne_empty, endsInDigit_repr] at hdigit
    cases hdigit
  | lower => exact IsBound.eq_empty_of_append (.inl rfl) hb
  | upper => exact IsBound.eq_empty_of_append (.inr rfl) hb

/-- No part of a suffix that is followed by another suffix is the end of such a column. -/
theorem eq_empty_of_suffix_eq_append (h : IsUnambiguous (column ++ e)) (hs : ρ.suffix = e ++ σ.suffix) :
    e = "" := by
  cases ρ with
  | plain => exact (String.append_eq_empty_iff.1 hs.symm).1
  | element i =>
    by_contra he
    exact h.not_endsInDigit he (endsInDigit_of_repr_eq_append he hs)
  | lower => exact eq_empty_of_isBound_append h (.inl hs.symm)
  | upper => exact eq_empty_of_isBound_append h (.inr hs.symm)

theorem nameFor_inj (hc : IsUnambiguous column) (ho : IsUnambiguous other)
    (h : Parameter.nameFor column ρ = Parameter.nameFor other σ) : column = other ∧ ρ = σ := by
  rw [nameFor_eq, nameFor_eq] at h
  rcases append_eq_append h with ⟨e, rfl, hs⟩ | ⟨e, rfl, hs⟩
  · obtain rfl := eq_empty_of_suffix_eq_append ho hs
    rw [String.empty_append] at hs
    exact ⟨String.append_empty.symm, suffix_inj hs⟩
  · obtain rfl := eq_empty_of_suffix_eq_append hc hs
    rw [String.empty_append] at hs
    exact ⟨String.append_empty, (suffix_inj hs).symm⟩

end Role

theorem Condition.exists_nameFor_of_mem_names {c : Condition} {name : String} (h : name ∈ c.names) :
    ∃ ρ, name = Parameter.nameFor c.column ρ := by
  rw [names_eq] at h
  obtain ⟨s, hs, rfl⟩ := List.mem_map.1 h
  suffices hrole : ∃ ρ : Role, ρ.suffix = s by
    obtain ⟨ρ, rfl⟩ := hrole
    exact ⟨ρ, (Role.nameFor_eq _ ρ).symm⟩
  cases c with
  | holds column expected => cases hs
  | between column low high =>
    rcases isBound_of_mem_suffixes hs with rfl | rfl
    · exact ⟨.lower, rfl⟩
    · exact ⟨.upper, rfl⟩
  | compare column unnest comparand =>
    cases comparand with
    | one text => exact ⟨.plain, (List.mem_singleton.1 hs).symm⟩
    | anyOf values =>
      obtain ⟨i, -, rfl⟩ := List.mem_map.1 hs
      exact ⟨.element i, rfl⟩

namespace Predicate

/-- The parameters of conditions on distinct columns that cannot be confused have distinct names. -/
theorem nodup_flatMap_names {cs : List Condition} (h : (cs.map Condition.column).Nodup)
    (hcs : ∀ c ∈ cs, IsUnambiguous c.column) : (cs.flatMap Condition.names).Nodup := by
  refine List.nodup_flatMap.2 ⟨fun c _ => Condition.nodup_names c, ?_⟩
  refine (List.pairwise_map.1 h).imp_of_mem fun {c d} hc hd hne name hnc hnd => ?_
  obtain ⟨ρ, hρ⟩ := Condition.exists_nameFor_of_mem_names hnc
  obtain ⟨σ, hσ⟩ := Condition.exists_nameFor_of_mem_names hnd
  exact hne (Role.nameFor_inj (hcs c hc) (hcs d hd) (hρ.symm.trans hσ)).1

/-- If the columns of a record's fields are distinct and none can be confused, fields that are skipped left
aside, then the names of its parameters are distinct. On such columns the name of a parameter tells its
column and its role, whatever the number of an element. -/
theorem nodup_names_of_unambiguous :
    (∀ (r : Record) (p : Predicate), ofValue (.record r) = .ok p →
      ((r.filter (!·.isSkipped)).map FieldOf.column).Nodup →
      (∀ f ∈ r, ¬ f.isSkipped → IsUnambiguous f.column) → (p.params.map Parameter.name).Nodup) ∧
    ∀ (column other : String) (ρ σ : Role), IsUnambiguous column → IsUnambiguous other →
      Parameter.nameFor column ρ = Parameter.nameFor other σ → column = other ∧ ρ = σ := by
  refine ⟨fun r p h hr hcolumns => ?_, fun _ _ _ _ hc ho hname => Role.nameFor_inj hc ho hname⟩
  obtain ⟨hok, rfl⟩ := ofRecord_eq_ok h
  rw [map_name_ofConditions]
  have hmap := map_column_conditions hok
  refine nodup_flatMap_names (hmap ▸ hr) fun c hc => ?_
  have hcolumn := List.mem_map_of_mem (f := Condition.column) hc
  rw [hmap] at hcolumn
  obtain ⟨f, hf, hfc⟩ := List.mem_map.1 hcolumn
  obtain ⟨hmem, hkept⟩ := List.mem_filter.1 hf
  exact hfc ▸ hcolumns f hmem (by simpa using hkept)

/-- A list with numbers of one and of two digits, columns that begin like one another, and a field that is
skipped on a column that could be confused with an element of the list. -/
theorem nodup_names_of_unambiguous_skipped :
    let r : Record := [
      { name := "Owner", value := .list (List.replicate 12 (.scalar (.string "a"))) },
      { name := "Own", value := .timeRange .zero },
      { name := "OwnFr", value := .scalar (.string "b"), tag := some ",unnest" },
      { name := "Owner1", value := .scalar (.string ""), tag := some ",omitempty" }]
    ¬ IsUnambiguous "Owner1" ∧ (∃ p, ofValue (.record r) = .ok p ∧ p.params.length = 15 ∧
        (p.params.map Parameter.name).Nodup) ∧
      Parameter.nameFor "Own" (.element 11) ≠ Parameter.nameFor "Own" (.element 1) := by
  intro r
  have hr : ((r.filter (!·.isSkipped)).map FieldOf.column).Nodup := by decide +kernel
  have hcolumns : ∀ f ∈ r, ¬ f.isSkipped → IsUnambiguous f.column := by decide +kernel
  have hown : IsUnambiguous "Own" := by decide +kernel
  refine ⟨by decide +kernel, ⟨_, rfl, rfl, nodup_names_of_unambiguous.1 r _ rfl hr hcolumns⟩, fun h => ?_⟩
  exact absurd (nodup_names_of_unambiguous.2 _ _ _ _ hown hown h).2 (by decide)

end Predicate

end QueryClauses
