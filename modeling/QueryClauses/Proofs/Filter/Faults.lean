import QueryClauses.Proofs.Filter.Conditions

/-! When a filter has no predicate, and what is said about it. Each way in which a value can be at fault is
a case of one relation; where several things are wrong at once, only the case of what is found first applies.
The first field at fault decides for the record. -/

namespace QueryClauses

namespace FieldOf

/-- What is wrong with a value of which nothing can be asked. -/
inductive Fault (column : String) (format : Option String) : Bool → Value → Error → Prop
  | absent (unnest : Bool) :
    Fault column format unnest (.optional none) (.unsupportedField column "absent optional")
  | optional (unnest : Bool) (inner : Value) :
    Fault column format unnest (.optional (some inner)) (.unsupportedField column "optional")
  | int (unnest : Bool) (n : Int64) :
    Fault column format unnest (.scalar (.int n)) (.unsupportedField column "integer")
  | float (unnest : Bool) (x : Binary64) :
    Fault column format unnest (.scalar (.float x)) (.unsupportedField column "float")
  | record (unnest : Bool) (fields : Record) :
    Fault column format unnest (.record fields) (.unsupportedRecord column)
  | unnestedBool (b : Bool) :
    Fault column format true (.scalar (.bool b)) (.unsupportedUnnest column "bool")
  /-- The format is not looked at. -/
  | unnestedRange (range : TimeRange) :
    Fault column format true (.timeRange range) (.unsupportedUnnest column "time range")
  | noFormat (range : TimeRange) {description : String} (hf : format = some description)
      (h : TimeFormat.parse? description = none) :
    Fault column format false (.timeRange range) (.invalidTimeFormat column "no such format")
  /-- The first element that cannot be a parameter. -/
  | item (unnest : Bool) {before after : List Value} {v : Value}
      (hb : ∀ w ∈ before, ∃ s, w = .scalar s) (hv : ∀ s, v ≠ .scalar s) :
    Fault column format unnest (.list (before ++ v :: after)) (.unsupportedField column v.kind)

/-- A field is at fault if the value within one optional is, but not if a zero value is to be left out. -/
def Offends (f : Field) (e : Error) : Prop :=
  ¬ (f.options.omitEmpty ∧ f.value.isZero) ∧ Fault f.column f.format f.options.unnest f.value.unwrapped e

end FieldOf

/-- What comes first in a list is its head, or comes behind a head that is passed by. -/
theorem exists_first_cons_iff {β : Type} {passed found : β → Prop} {y : β} {l : List β} :
    (∃ before x after, y :: l = before ++ x :: after ∧ (∀ z ∈ before, passed z) ∧ found x) ↔
      found y ∨ passed y ∧ ∃ before x after, l = before ++ x :: after ∧ (∀ z ∈ before, passed z) ∧ found x := by
  constructor
  · rintro ⟨_ | ⟨z, before⟩, x, after, hl, hb, hx⟩
    · obtain ⟨rfl, rfl⟩ := List.cons.inj hl
      exact .inl hx
    · obtain ⟨rfl, rfl⟩ := List.cons.inj hl
      obtain ⟨hy, hb⟩ := List.forall_mem_cons.1 hb
      exact .inr ⟨hy, before, x, after, rfl, hb, hx⟩
  · rintro (hy | ⟨hy, before, x, after, rfl, hb, hx⟩)
    · exact ⟨[], y, l, rfl, List.forall_mem_nil _, hy⟩
    · exact ⟨y :: before, x, after, rfl, List.forall_mem_cons.2 ⟨hy, hb⟩, hx⟩

/-- The first fault in a list decides. -/
theorem mapM_eq_error_iff {β γ : Type} {g : β → Except Error γ} {l : List β} {e : Error} :
    l.mapM g = .error e ↔
      ∃ before x after, l = before ++ x :: after ∧ (∀ y ∈ before, ∃ z, g y = .ok z) ∧ g x = .error e := by
  induction l with
  | nil => simp [pure, Except.pure]
  | cons y l ih =>
    rw [List.mapM_cons, exists_first_cons_iff, ← ih]
    cases g y with
    | error d => simp [bind, Except.bind]
    | ok z => cases l.mapM g <;> simp [bind, Except.bind, pure, Except.pure]

/-- No instant has a text by a description that is none. -/
theorem Instant.format_eq_error_iff {i : Instant} {format : Option String} {column : String} {e : Error} :
    i.format format column = .error e ↔
      (∃ d, format = some d ∧ TimeFormat.parse? d = none) ∧
        e = .invalidTimeFormat column "no such format" := by
  cases format with
  | none => simp [Instant.format]
  | some d => cases h : TimeFormat.parse? d <;> simp [Instant.format, h, eq_comm]

namespace FieldOf

variable {column : String} {unnest : Bool} {format : Option String} {value : Value} {f : Field} {e : Error}

theorem elements_eq_error_iff {items : List Value} : elements column items = .error e ↔
    ∃ before v after, items = before ++ v :: after ∧ (∀ w ∈ before, ∃ s, w = .scalar s) ∧
      (∀ s, v ≠ .scalar s) ∧ e = .unsupportedField column v.kind := by
  rw [elements, mapM_eq_error_iff]
  refine exists_congr fun before => exists_congr fun v => exists_congr fun after => and_congr_right fun _ => ?_
  refine and_congr (forall₂_congr fun w _ => ?_) ?_
  · cases w <;> simp [Value.scalar?]
  · cases v <;> simp [Value.scalar?, eq_comm]

theorem conditionFor_list_eq_error_iff {items : List Value} :
    conditionFor column unnest format (.list items) = .error e ↔ elements column items = .error e := by
  cases items with
  | nil => simp [conditionFor, elements, pure, Except.pure]
  | cons item items =>
    simp only [conditionFor]
    cases elements column (item :: items) <;> simp [bind, Except.bind]

theorem conditionFor_timeRange_eq_error_iff {range : TimeRange} :
    conditionFor column false format (.timeRange range) = .error e ↔
      (∃ d, format = some d ∧ TimeFormat.parse? d = none) ∧
        e = .invalidTimeFormat column "no such format" := by
  simp only [conditionFor, Bool.false_eq_true, if_false]
  cases hl : range.lower.format format column with
  | error d =>
    -- the description is the fault, and the upper bound is not reached
    rw [← Instant.format_eq_error_iff (i := range.lower), hl]
    simp [bind, Except.bind]
  | ok lower =>
    rw [← Instant.format_eq_error_iff (i := range.upper)]
    cases range.upper.format format column <;> simp [bind, Except.bind]

/-- There is no condition for a value just if it is at fault in one of those ways. -/
theorem conditionFor_eq_error_iff :
    conditionFor column unnest format value = .error e ↔ Fault column format unnest value e := by
  constructor
  · intro h
    match value with
    | .scalar (.string s) => cases h
    | .scalar (.bool b) =>
      cases unnest with
      | true => cases h; exact .unnestedBool b
      | false => cases h
    | .scalar (.int n) => cases h; exact .int unnest n
    | .scalar (.float x) => cases h; exact .float unnest x
    | .list items =>
      obtain ⟨before, v, after, rfl, hb, hv, rfl⟩ :=
        elements_eq_error_iff.1 (conditionFor_list_eq_error_iff.1 h)
      exact .item unnest hb hv
    | .timeRange range =>
      cases unnest with
      | true => cases h; exact .unnestedRange range
      | false =>
        obtain ⟨⟨d, hf, hd⟩, rfl⟩ := conditionFor_timeRange_eq_error_iff.1 h
        exact .noFormat range hf hd
    | .record fields => cases h; exact .record unnest fields
    | .optional none => cases h; exact .absent unnest
    | .optional (some inner) => cases h; exact .optional unnest inner
  · intro h
    cases h with
    | noFormat range hf hd => exact conditionFor_timeRange_eq_error_iff.2 ⟨⟨_, hf, hd⟩, rfl⟩
    | item unnest hb hv =>
      exact conditionFor_list_eq_error_iff.2 (elements_eq_error_iff.2 ⟨_, _, _, rfl, hb, hv, rfl⟩)
    | absent | optional | int | float | record | unnestedBool | unnestedRange => rfl

theorem condition_eq_error_iff : f.condition = .error e ↔ f.Offends e := by
  rw [condition_eq, Offends, ← conditionFor_eq_error_iff, ← Bool.and_eq_true]
  split
  · next h => simp [h]
  · next h => simp [h]

theorem exists_condition_eq_ok_iff : (∃ a, f.condition = .ok a) ↔ ∀ e, ¬ f.Offends e := by
  simp only [← condition_eq_error_iff]
  cases f.condition <;> simp

/-- Every fault is one of the filter, and not of a specification. -/
theorem isInputError_of_fault (h : Fault column format unnest value e) : e.isInputError := by
  cases h <;> rfl

end FieldOf

namespace Predicate

open FieldOf (Offends)

theorem ofRecord_eq_error_iff {r : Record} {e : Error} : ofRecord r = .error e ↔
    ∃ before f after, r = before ++ f :: after ∧ (∀ g ∈ before, ∀ d, ¬ g.Offends d) ∧ f.Offends e := by
  have hmap : ofRecord r = .error e ↔ r.mapM FieldOf.condition = .error e := by
    unfold ofRecord
    cases r.mapM FieldOf.condition <;> simp [bind, Except.bind]
  simp only [hmap, mapM_eq_error_iff, FieldOf.exists_condition_eq_ok_iff, FieldOf.condition_eq_error_iff]

theorem exists_ofRecord_eq_error_iff {r : Record} :
    (∃ e, ofRecord r = .error e) ↔ ∃ f ∈ r, ∃ e, f.Offends e := by
  constructor
  · rintro ⟨e, he⟩
    obtain ⟨before, f, after, rfl, -, hf⟩ := ofRecord_eq_error_iff.1 he
    exact ⟨f, by simp, e, hf⟩
  · rintro ⟨f, hf, e, he⟩
    cases hr : ofRecord r with
    | error d => exact ⟨d, rfl⟩
    | ok p =>
      obtain ⟨a, ha⟩ := (ofRecord_eq_ok hr).1 f hf
      exact absurd he (FieldOf.exists_condition_eq_ok_iff.1 ⟨a, ha⟩ e)

/-- A filter that is no record has no predicate. A record has none just if a field is at fault, and the
error is that of the first such field. It is always one of the filter. -/
theorem ofValue_eq_error_iff (filter : Value) (r : Record) (e : Error) :
    ((∀ fields, filter ≠ .record fields) → ofValue filter = .error (.notARecord filter.kind)) ∧
      ((∃ d, ofValue (.record r) = .error d) ↔ ∃ f ∈ r, ∃ d, f.Offends d) ∧
      (ofValue (.record r) = .error e ↔
        ∃ before f after, r = before ++ f :: after ∧ (∀ g ∈ before, ∀ d, ¬ g.Offends d) ∧
          f.Offends e) ∧
      (ofValue filter = .error e → e.isInputError ∧ ¬ e.isConfigError) := by
  have hother (h : ∀ fields, filter ≠ .record fields) :
      ofValue filter = .error (.notARecord filter.kind) := by
    unfold ofValue
    split
    · next fields => exact absurd rfl (h fields)
    · rfl
  refine ⟨hother, exists_ofRecord_eq_error_iff, ofRecord_eq_error_iff, fun he => ?_⟩
  have hinput : e.isInputError := by
    by_cases hf : ∃ fields, filter = .record fields
    · obtain ⟨fields, rfl⟩ := hf
      obtain ⟨-, f, -, -, -, hf⟩ := ofRecord_eq_error_iff.1 he
      exact FieldOf.isInputError_of_fault hf.2
    · rw [hother fun fields h => hf ⟨fields, h⟩] at he
      cases he
      rfl
  rw [Error.isConfigError_eq_not_isInputError, hinput]
  exact ⟨rfl, Bool.false_ne_true⟩

/-- Zero values that are left out whatever they are, a list that is at fault only later, and then a range for
which `unnest` goes before its description. -/
theorem ofValue_eq_error_of_unnested_range :
    let r : Record := [
      { name := "Count", value := .scalar (.int 0), tag := some ",omitempty" },
      { name := "Role", value := .optional none, tag := some ",omitempty,unnest" },
      { name := "Inner", value := .record [{ name := "A", value := .list [] }], tag := some ",omitempty" },
      { name := "At", value := .optional (some (.timeRange .zero)), tag := some "Time,omitempty,unnest",
        format := some "[nope]" },
      { name := "Owner", value := .list [.scalar (.int 7), .list [], .record []] }]
    ofValue (.record r) = .error (.unsupportedUnnest "Time" "time range") ∧
      ofValue (.record (r.drop 4)) = .error (.unsupportedField "Owner" "list") := by
  intro r
  have hskipped : ∀ g ∈ r.take 3, ∀ d, ¬ g.Offends d := by
    have hz : ∀ g ∈ r.take 3, g.options.omitEmpty ∧ g.value.isZero := by decide +kernel
    exact fun g hg d h => h.1 (hz g hg)
  have hrange : (r[3]).Offends (.unsupportedUnnest "Time" "time range") := by
    have hcolumn : (r[3]).column = "Time" := by decide +kernel
    have hunnest : (r[3]).options.unnest = true := by decide +kernel
    refine ⟨by decide +kernel, ?_⟩
    rw [hcolumn, hunnest]
    exact .unnestedRange _
  have hlist : (r[4]).Offends (.unsupportedField "Owner" "list") := by
    refine ⟨by decide +kernel, ?_⟩
    exact @FieldOf.Fault.item "Owner" none false [.scalar (.int 7)] [.record []] (.list []) (by simp) (by simp)
  exact ⟨(ofValue_eq_error_iff (.record r) r _).2.2.1.2 ⟨_, _, _, rfl, hskipped, hrange⟩,
    (ofValue_eq_error_iff (.record r) (r.drop 4) _).2.2.1.2 ⟨[], _, _, rfl, List.forall_mem_nil _, hlist⟩⟩

end Predicate

end QueryClauses
