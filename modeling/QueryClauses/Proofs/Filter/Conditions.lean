import QueryClauses.Filter.Predicate

/-! The conditions of a record's fields. A record has a predicate just if nothing is wrong with any of
its fields, and the predicate then says in their order what those ask that are not skipped. -/

namespace QueryClauses

/-- The column on which a condition is. -/
def Condition.column : Condition → String
  | holds column _ | between column _ _ | compare column _ _ => column

/-- The value within an optional around it. -/
def Value.unwrapped : Value → Value
  | optional (some value) => value
  | value => value

theorem Value.unwrapped_of_ne {value : Value} (h : ∀ inner, value ≠ .optional (some inner)) :
    value.unwrapped = value := by
  unfold Value.unwrapped
  split
  · next inner => exact absurd rfl (h inner)
  · rfl

def Value.isEmptyList : Value → Bool
  | list [] => true
  | _ => false

namespace FieldOf

/-- Nothing is asked of the field's column. -/
def isSkipped (f : Field) : Bool :=
  f.options.omitEmpty && f.value.isZero || f.value.unwrapped.isEmptyList

/-- What a value asks of a column, with one case for each kind of value that can be asked for. -/
inductive Asks (column : String) (format : Option String) : Bool → Value → Option Condition → Prop
  | string (unnest : Bool) (s : String) :
    Asks column format unnest (.scalar (.string s)) (some (.compare column unnest (.one s)))
  | bool (b : Bool) : Asks column format false (.scalar (.bool b)) (some (.holds column b))
  | nothing (unnest : Bool) : Asks column format unnest (.list []) none
  | list (unnest : Bool) {item : Value} {items : List Value} {scalars : List Scalar}
      (h : elements column (item :: items) = .ok scalars) :
    Asks column format unnest (.list (item :: items)) (some (.compare column unnest (.anyOf scalars)))
  | timeRange {range : TimeRange} {lower upper : String}
      (hl : range.lower.format format column = .ok lower)
      (hu : range.upper.format format column = .ok upper) :
    Asks column format false (.timeRange range) (some (.between column lower upper))

variable {column : String} {unnest : Bool} {format : Option String} {value : Value} {f : Field}
  {c : Condition} {a : Option Condition}

/-- A value for which there is a condition, or nothing to be asked, is one of those cases. -/
theorem asks_of_conditionFor (h : conditionFor column unnest format value = .ok a) :
    Asks column format unnest value a := by
  unfold conditionFor at h
  split at h
  · cases h
    exact .string unnest _
  · cases unnest with
    | true => cases h
    | false => cases h; exact .bool _
  · cases h
    exact .nothing unnest
  · next items hne =>
    obtain ⟨item, items, rfl⟩ := List.exists_cons_of_ne_nil hne
    cases he : elements column (item :: items) with
    | error e => rw [he] at h; cases h
    | ok scalars => rw [he] at h; cases h; exact .list unnest he
  · next range =>
    cases unnest with
    | true => cases h
    | false =>
      rw [if_neg Bool.false_ne_true] at h
      cases hl : range.lower.format format column with
      | error e => rw [hl] at h; cases h
      | ok lower =>
        cases hu : range.upper.format format column with
        | error e => rw [hl, hu] at h; cases h
        | ok upper => rw [hl, hu] at h; cases h; exact .timeRange hl hu
  all_goals cases h

theorem column_of_asks (h : Asks column format unnest value (some c)) : c.column = column := by
  cases h <;> rfl

theorem isNone_of_asks (h : Asks column format unnest value a) : value.isEmptyList = a.isNone := by
  cases h <;> rfl

/-- The condition of a field, if it has one. -/
def condition? (f : Field) : Option Condition := f.condition.toOption.join

theorem condition?_eq_some_iff : f.condition? = some c ↔ f.condition = .ok (some c) := by
  rw [condition?]
  cases f.condition <;> simp [Except.toOption]

/-- An absent optional is at fault just as any other value for which there is no condition. -/
theorem condition_eq (f : Field) :
    f.condition = if f.options.omitEmpty && f.value.isZero then .ok none
      else conditionFor f.column f.options.unnest f.format f.value.unwrapped := by
  unfold condition
  split
  · rfl
  · split
    · next h => rw [h]; rfl
    · next h => rw [h]; rfl
    · next hn hs => rw [Value.unwrapped_of_ne hs]

theorem asks_of_condition (h : f.condition = .ok (some c)) :
    Asks f.column f.format f.options.unnest f.value.unwrapped (some c) := by
  rw [condition_eq] at h
  split at h
  · cases h
  · exact asks_of_conditionFor h

theorem column_of_condition (h : f.condition = .ok (some c)) : c.column = f.column :=
  column_of_asks (asks_of_condition h)

theorem isSkipped_eq_isNone (h : f.condition = .ok a) : f.isSkipped = a.isNone := by
  rw [condition_eq] at h
  unfold isSkipped
  split at h
  · next hz => cases h; rw [hz]; rfl
  · next hz =>
    rw [Bool.eq_false_iff.2 hz, Bool.false_or]
    exact isNone_of_asks (asks_of_conditionFor h)

end FieldOf

namespace Predicate

open FieldOf

theorem mapM_eq_ok_iff {β γ : Type} {g : β → Except Error γ} {l : List β} {ys : List γ} :
    l.mapM g = .ok ys ↔ l.map g = ys.map .ok := by
  induction l generalizing ys with
  | nil => cases ys <;> simp [pure, Except.pure]
  | cons x l ih =>
    rw [List.mapM_cons, List.map_cons]
    cases hx : g x with
    | error e => cases ys <;> simp [bind, Except.bind]
    | ok y =>
      cases hl : l.mapM g with
      | error e => cases ys <;> simp [bind, Except.bind, ← ih, hl]
      | ok zs => cases ys <;> simp [bind, Except.bind, pure, Except.pure, ← ih, hl]

/-- Nothing of the fields matters but their conditions and faults. -/
theorem ofRecord_congr {r s : Record} (h : r.map condition = s.map condition) :
    ofRecord r = ofRecord s := by
  have hid (t : Record) : t.mapM condition = (t.map condition).mapM id := by
    rw [List.mapM_map]
    rfl
  rw [ofRecord, ofRecord, hid r, hid s, h]

/-- The conditions of a record. -/
def conditions (r : Record) : Except Error (List Condition) := (r.mapM condition).map (List.filterMap id)

theorem ofRecord_eq_map (r : Record) : ofRecord r = (conditions r).map ofConditions := by
  unfold ofRecord conditions
  cases r.mapM condition <;> rfl

theorem conditions_eq_ok {r : Record} {cs : List Condition} (h : conditions r = .ok cs) :
    (∀ f ∈ r, ∃ a, f.condition = .ok a) ∧ cs = r.filterMap condition? := by
  unfold conditions at h
  cases hr : r.mapM condition with
  | error e => rw [hr] at h; cases h
  | ok as =>
    rw [hr] at h
    cases h
    have hmap := mapM_eq_ok_iff.1 hr
    constructor
    · intro f hf
      have hmem := List.mem_map_of_mem (f := condition) hf
      rw [hmap] at hmem
      obtain ⟨a, -, ha⟩ := List.mem_map.1 hmem
      exact ⟨a, ha.symm⟩
    · have hid : as.filterMap id = (as.map .ok).filterMap fun a : Except Error (Option Condition) =>
          a.toOption.join := by
        rw [List.filterMap_map]
        congr 1
      rw [hid, ← hmap, List.filterMap_map]
      rfl

/-- A predicate is that of the conditions of the fields, with which nothing is wrong. -/
theorem ofRecord_eq_ok {r : Record} {p : Predicate} (h : ofRecord r = .ok p) :
    (∀ f ∈ r, ∃ a, f.condition = .ok a) ∧ p = ofConditions (r.filterMap condition?) := by
  rw [ofRecord_eq_map] at h
  cases hr : conditions r with
  | error e => rw [hr] at h; cases h
  | ok cs =>
    rw [hr] at h
    cases h
    exact (conditions_eq_ok hr).imp_right (congrArg ofConditions)

/-- The conditions of a record are on the columns of the fields that are not skipped. -/
theorem map_column_conditions {r : Record} (h : ∀ f ∈ r, ∃ a, f.condition = .ok a) :
    (r.filterMap condition?).map Condition.column = (r.filter (!·.isSkipped)).map FieldOf.column := by
  induction r with
  | nil => rfl
  | cons f r ih =>
    obtain ⟨⟨a, ha⟩, h⟩ := List.forall_mem_cons.1 h
    have hs := isSkipped_eq_isNone ha
    cases a with
    | none =>
      have hc : f.condition? = none := by rw [condition?, ha]; rfl
      rw [List.filterMap_cons_none hc, List.filter_cons_of_neg (by simp [hs]), ih h]
    | some c =>
      have hc : f.condition? = some c := condition?_eq_some_iff.2 ha
      rw [List.filterMap_cons_some hc, List.filter_cons_of_pos (by simp [hs]), List.map_cons, List.map_cons,
        ih h, column_of_condition ha]

end Predicate

end QueryClauses
