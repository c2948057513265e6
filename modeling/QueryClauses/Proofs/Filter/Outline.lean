import Mathlib.Data.List.Forall2
import QueryClauses.Proofs.Filter.Names

/-! What the text of a predicate depends on. The outline of a condition is what is left of it without the
values for its parameters, and its text and the names of its parameters are those of its outline. The
contents of a record's values decide nothing but what goes into the parameters: records that are similar
have the same outlines, or the same fault. -/

namespace QueryClauses

/-- The comparand with the values for its parameters left out. -/
def Comparand.outline : Comparand → Comparand
  | one _ => one ""
  | anyOf values => anyOf (values.map fun _ => .bool false)

theorem Comparand.text_outline (column : String) (comparand : Comparand) :
    comparand.outline.text column = comparand.text column := by
  cases comparand with
  | one s => rfl
  | anyOf values => simp only [outline, text, elementNames, List.length_map]

namespace Condition

/-- The condition with the values for its parameters left out. -/
def outline : Condition → Condition
  | holds column expected => holds column expected
  | between column _ _ => between column "" ""
  | compare column unnest comparand => compare column unnest comparand.outline

theorem column_outline (c : Condition) : c.outline.column = c.column := by
  cases c <;> rfl

theorem text_compare (column : String) (unnest : Bool) (comparand : Comparand) :
    (compare column unnest comparand).text =
      if unnest then
        "EXISTS (SELECT * FROM UNNEST(" ++ column ++ ") AS x WHERE x" ++ comparand.text column ++ ")"
      else column ++ comparand.text column := by
  cases unnest <;> rfl

theorem text_outline (c : Condition) : c.outline.text = c.text := by
  cases c with
  | holds column expected => rfl
  | between column lower upper => rfl
  | compare column unnest comparand =>
    rw [outline, text_compare, text_compare, Comparand.text_outline]

theorem suffixes_outline (c : Condition) : c.outline.suffixes = c.suffixes := by
  cases c with
  | holds column expected => rfl
  | between column lower upper => rfl
  | compare column unnest comparand =>
    cases comparand with
    | one s => rfl
    | anyOf values => simp only [outline, Comparand.outline, suffixes, List.length_map]

theorem names_outline (c : Condition) : c.outline.names = c.names := by
  rw [names_eq, names_eq, suffixes_outline, column_outline]

end Condition

/-! ### Similar records -/

/-- Elements of lists that are told apart by their parameters alone. -/
inductive Value.SimilarItem : Value → Value → Prop
  | scalars (s t : Scalar) : SimilarItem (.scalar s) (.scalar t)
  | other {v : Value} (h : v.scalar? = none) : SimilarItem v v

/-- Values of one shape that are zero together. -/
inductive Value.Similar : Value → Value → Prop
  | string {s t : String} (h : s.isEmpty = t.isEmpty) :
    Similar (.scalar (.string s)) (.scalar (.string t))
  | bool (b : Bool) : Similar (.scalar (.bool b)) (.scalar (.bool b))
  | int {m n : Int64} (h : m = 0 ↔ n = 0) : Similar (.scalar (.int m)) (.scalar (.int n))
  | float {x y : Binary64} (h : x.isZero = y.isZero) : Similar (.scalar (.float x)) (.scalar (.float y))
  | list {items others : List Value} (h : List.Forall₂ SimilarItem items others) :
    Similar (.list items) (.list others)
  | timeRange {range other : TimeRange} (h : range.isZero = other.isZero) :
    Similar (.timeRange range) (.timeRange other)
  | record {fields others : Record}
      (h : (Value.record fields).isZero = (Value.record others).isZero) :
    Similar (.record fields) (.record others)
  | absent : Similar (.optional none) (.optional none)
  | present {v w : Value} (h : Similar v w) : Similar (.optional (some v)) (.optional (some w))

/-- Fields that differ in nothing but the contents of similar values. -/
structure FieldOf.Similar (f g : Field) : Prop where
  name_eq : f.name = g.name
  tag_eq : f.tag = g.tag
  format_eq : f.format = g.format
  value : f.value.Similar g.value

namespace Value

variable {v w : Value}

theorem Similar.isZero_eq (h : v.Similar w) : v.isZero = w.isZero := by
  cases h with
  | string h | float h | timeRange h | record h => exact h
  | bool b => rfl
  | int h => exact decide_eq_decide.2 h
  | list h => cases h <;> rfl
  | absent => rfl
  | present h => rfl

theorem Similar.unwrapped (h : v.Similar w) : v.unwrapped.Similar w.unwrapped := by
  cases h with
  | present h => exact h
  | string h => exact .string h
  | bool b => exact .bool b
  | int h => exact .int h
  | float h => exact .float h
  | list h => exact .list h
  | timeRange h => exact .timeRange h
  | record h => exact .record h
  | absent => exact .absent

end Value

/-- A description is at fault for every instant or for none. -/
theorem Instant.format_eq (description : Option String) (field : String) :
    (∀ i : Instant, ∃ text, i.format description field = .ok text) ∨
      ∃ e, ∀ i : Instant, i.format description field = .error e := by
  cases description with
  | none => exact .inl fun i => ⟨i.defaultText, rfl⟩
  | some d =>
    cases h : TimeFormat.parse? d with
    | none => exact .inr ⟨.invalidTimeFormat field "no such format", fun i => by rw [format]; simp only [h]⟩
    | some f => exact .inl fun i => ⟨f.text i, by rw [format]; simp only [h]⟩

theorem map_eq_map_iff {β γ : Type} {g : β → γ} {x y : Except Error β} : x.map g = y.map g ↔
    (∃ a b, x = .ok a ∧ y = .ok b ∧ g a = g b) ∨ ∃ e, x = .error e ∧ y = .error e := by
  cases x <;> cases y <;> simp [Except.map, eq_comm]

/-- What is the same for each element is the same for the list, and so is the first fault. -/
theorem mapM_map_congr {α β γ : Type} {f : α → Except Error β} {g : β → γ} {l m : List α}
    (h : List.Forall₂ (fun x y => (f x).map g = (f y).map g) l m) :
    (l.mapM f).map (List.map g) = (m.mapM f).map (List.map g) := by
  induction h with
  | nil => rfl
  | cons hxy _ ih =>
    rw [List.mapM_cons, List.mapM_cons]
    rcases map_eq_map_iff.1 hxy with ⟨a, b, hx, hy, hab⟩ | ⟨e, hx, hy⟩
    · rcases map_eq_map_iff.1 ih with ⟨as, bs, hl, hm, habs⟩ | ⟨e, hl, hm⟩
      · rw [hx, hy, hl, hm]
        refine congrArg Except.ok ?_
        rw [List.map_cons, List.map_cons, hab, habs]
      · rw [hx, hy, hl, hm]
        rfl
    · rw [hx, hy]
      rfl

namespace FieldOf

variable {column : String} {unnest : Bool} {format : Option String} {v w : Value} {f g : Field}

theorem elements_map_congr {items others : List Value} (h : List.Forall₂ Value.SimilarItem items others) :
    (elements column items).map (List.map fun _ => Scalar.bool false) =
      (elements column others).map (List.map fun _ => Scalar.bool false) := by
  refine mapM_map_congr (h.imp fun v w hvw => ?_)
  cases hvw with
  | scalars s t => rfl
  | other h => rfl

/-- Similar values have conditions of one outline, or the same fault. -/
theorem conditionFor_map_outline (h : v.Similar w) :
    (conditionFor column unnest format v).map (Option.map Condition.outline) =
      (conditionFor column unnest format w).map (Option.map Condition.outline) := by
  cases h with
  | string h => rfl
  | bool b => rfl
  | int h => rfl
  | float h => rfl
  | list h =>
    cases h with
    | nil => rfl
    | cons hi hrest =>
      simp only [conditionFor]
      have he := @elements_map_congr column _ _ (.cons hi hrest)
      rcases map_eq_map_iff.1 he with ⟨xs, ys, hx, hy, hxs⟩ | ⟨e, hx, hy⟩
      · rw [hx, hy]
        exact congrArg (fun values => Except.ok (some (Condition.compare column unnest (.anyOf values)))) hxs
      · rw [hx, hy]
  | @timeRange range other h =>
    cases unnest with
    | true => rfl
    | false =>
      simp only [conditionFor, Bool.false_eq_true, if_false]
      rcases Instant.format_eq format column with hok | ⟨e, he⟩
      · obtain ⟨lower, hl⟩ := hok range.lower
        obtain ⟨upper, hu⟩ := hok range.upper
        obtain ⟨lower', hl'⟩ := hok other.lower
        obtain ⟨upper', hu'⟩ := hok other.upper
        rw [hl, hu, hl', hu']
        rfl
      · rw [he range.lower, he other.lower]
        rfl
  | record h => rfl
  | absent => rfl
  | present h => rfl

theorem condition_map_outline (h : f.Similar g) :
    f.condition.map (Option.map Condition.outline) = g.condition.map (Option.map Condition.outline) := by
  have ho : f.options = g.options := by rw [options, options, h.tag_eq]
  have hc : f.column = g.column := by rw [column, column, ho, h.name_eq]
  rw [condition_eq, condition_eq, ho, hc, h.format_eq, h.value.isZero_eq]
  split
  · rfl
  · exact conditionFor_map_outline h.value.unwrapped

end FieldOf

namespace Predicate

/-- The text of a predicate and the names of its parameters. -/
def outline (p : Predicate) : String × List String := (p.text, p.params.map Parameter.name)

theorem outline_ofConditions (cs : List Condition) :
    (ofConditions cs).outline = (ofConditions (cs.map Condition.outline)).outline := by
  have htext : (cs.map Condition.outline).map Condition.text = cs.map Condition.text := by
    rw [List.map_map]
    exact List.map_congr_left fun c _ => c.text_outline
  have hnames : (cs.map Condition.outline).flatMap Condition.names = cs.flatMap Condition.names := by
    rw [List.flatMap_map]
    exact List.flatMap_congr fun c _ => c.names_outline
  rw [outline, outline, map_name_ofConditions, map_name_ofConditions, hnames, ofConditions, ofConditions,
    htext]

theorem ofRecord_map_outline {r s : Record} (h : List.Forall₂ FieldOf.Similar r s) :
    (ofRecord r).map outline = (ofRecord s).map outline := by
  have hcs := mapM_map_congr (h.imp fun _ _ hfg => FieldOf.condition_map_outline hfg)
  have hof (r : Record) : (ofRecord r).map outline =
      ((r.mapM FieldOf.condition).map (List.map (Option.map Condition.outline))).map
        fun as => (ofConditions (as.filterMap id)).outline := by
    unfold ofRecord
    cases r.mapM FieldOf.condition with
    | error e => rfl
    | ok as =>
      have hid : (as.map (Option.map Condition.outline)).filterMap id =
          (as.filterMap id).map Condition.outline := by
        rw [List.filterMap_map, List.map_filterMap]
        rfl
      show Except.ok (ofConditions (as.filterMap id)).outline = Except.ok (ofConditions
        ((as.map (Option.map Condition.outline)).filterMap id)).outline
      rw [hid, ← outline_ofConditions]
  rw [hof, hof, hcs]

/-- Similar records have predicates of one text, whose parameters have the same names, or they have the
same fault. No value of a filter gets into the text, or decides what the text is. -/
theorem ofValue_record_of_similar {r s : Record} (h : List.Forall₂ FieldOf.Similar r s) :
    (∃ p q, ofValue (.record r) = .ok p ∧ ofValue (.record s) = .ok q ∧ p.text = q.text ∧
        p.params.map Parameter.name = q.params.map Parameter.name) ∨
      ∃ e, ofValue (.record r) = .error e ∧ ofValue (.record s) = .error e := by
  have houtline : (ofValue (.record r)).map outline = (ofValue (.record s)).map outline :=
    ofRecord_map_outline h
  rcases map_eq_map_iff.1 houtline with ⟨p, q, hp, hq, hpq⟩ | hfault
  · obtain ⟨htext, hnames⟩ := Prod.mk.inj hpq
    exact .inl ⟨p, q, hp, hq, htext, hnames⟩
  · exact .inr hfault

/-- A list with text of its own that would end the clause, another range, and another optional string. -/
theorem ofValue_record_of_similar_contents :
    let r : Record := [
      { name := "Owner", value := .list [.scalar (.string "a"), .scalar (.int 7)] },
      { name := "At", value := .timeRange ⟨.zero, { Instant.zero with time := ⟨1, 0, 0, 0⟩ }⟩ },
      { name := "Kind", value := .optional (some (.scalar (.string "k"))), tag := some ",omitempty" }]
    let s : Record := [
      { name := "Owner", value := .list [.scalar (.string "') OR (1=1"), .scalar (.bool true)] },
      { name := "At", value := .timeRange ⟨{ Instant.zero with time := ⟨2, 0, 0, 0⟩ }, .zero⟩ },
      { name := "Kind", value := .optional (some (.scalar (.string "@x"))), tag := some ",omitempty" }]
    List.Forall₂ FieldOf.Similar r s ∧ ofValue (.record r) ≠ ofValue (.record s) ∧
      ∃ p q, ofValue (.record r) = .ok p ∧ ofValue (.record s) = .ok q ∧ p.text = q.text ∧
        p.params.map Parameter.name = q.params.map Parameter.name := by
  intro r s
  have hitems : List.Forall₂ Value.SimilarItem [.scalar (.string "a"), .scalar (.int 7)]
      [.scalar (.string "') OR (1=1"), .scalar (.bool true)] :=
    .cons (.scalars _ _) (.cons (.scalars _ _) .nil)
  have hsimilar : List.Forall₂ FieldOf.Similar r s :=
    .cons ⟨rfl, rfl, rfl, .list hitems⟩ (.cons ⟨rfl, rfl, rfl, .timeRange (by decide +kernel)⟩
      (.cons ⟨rfl, rfl, rfl, .present (.string (by decide +kernel))⟩ .nil))
  have hr : ∃ p, ofValue (.record r) = .ok p := ⟨_, rfl⟩
  obtain ⟨p, hp⟩ := hr
  refine ⟨hsimilar, by decide +kernel, ?_⟩
  rcases ofValue_record_of_similar hsimilar with h | ⟨e, he, -⟩
  · exact h
  · rw [hp] at he
    cases he

end Predicate

end QueryClauses
