import QueryClauses.Proofs.Filter.Words

/-! A predicate is read back from its text and its parameters: the text gives the outlines of its conditions,
and the parameters fill them one after the other. So what a record asks of which columns is known from its
predicate. -/

namespace QueryClauses

/-! ### Filling outlines -/

namespace Condition

variable {c d : Condition}

/-- An outline with the values of parameters put into it. -/
def fill (ps : Parameters) : Condition → Condition
  | holds column expected => holds column expected
  | between column _ _ =>
    match ps with
    | [lower, upper] => between column lower.value.text upper.value.text
    | _ => between column "" ""
  | compare column unnest (.one _) => compare column unnest (.one (String.join (ps.map (·.value.text))))
  | compare column unnest (.anyOf _) => compare column unnest (.anyOf (ps.map (·.value)))

theorem map_value_params_anyOf (column : String) (values : List Scalar) :
    ((Comparand.anyOf values).params column).map Parameter.value = values := by
  have hlen : (Comparand.elementNames column values).length = values.length := by
    simp [Comparand.elementNames]
  have hsnd := List.map_snd_zip (Nat.le_of_eq hlen.symm)
  rw [List.zip, List.map_zipWith] at hsnd
  rw [Comparand.params, List.map_zipWith]
  exact hsnd

theorem fill_outline (c : Condition) : c.outline.fill c.params = c := by
  cases c with
  | holds column expected => rfl
  | between column lower upper => rfl
  | compare column unnest comparand =>
    cases comparand with
    | one s =>
      show compare column unnest (.one (String.join [s])) = _
      rw [String.join_cons, String.join_nil, String.append_empty]
    | anyOf values =>
      show compare column unnest (.anyOf (((Comparand.anyOf values).params column).map Parameter.value)) = _
      rw [map_value_params_anyOf]

theorem length_params_eq (h : c.outline = d.outline) : c.params.length = d.params.length := by
  have hnames : c.names = d.names := by rw [← c.names_outline, h, d.names_outline]
  simpa [names] using congrArg List.length hnames

end Condition

namespace Predicate

open FieldOf

/-- Conditions are known from their outlines and the list of all their parameters. -/
theorem eq_of_map_outline_eq {cs ds : List Condition}
    (ho : cs.map Condition.outline = ds.map Condition.outline)
    (hp : cs.flatMap Condition.params = ds.flatMap Condition.params) : cs = ds := by
  induction cs generalizing ds with
  | nil => simpa [eq_comm] using ho
  | cons c cs ih =>
    cases ds with
    | nil => cases ho
    | cons d ds =>
      obtain ⟨hoc, hocs⟩ := List.cons.inj ho
      rw [List.flatMap_cons, List.flatMap_cons] at hp
      obtain ⟨hpc, hpcs⟩ := List.append_inj hp (Condition.length_params_eq hoc)
      have hcd : c = d := by rw [← c.fill_outline, hoc, hpc, d.fill_outline]
      rw [hcd, ih hocs hpcs]

end Predicate

/-! ### Fields -/

namespace FieldOf

variable {f g : Field} {c : Condition} {column : String}

/-- The fields ask the same, one case for each kind of value that can be asked for. -/
inductive AsksLike (f g : Field) : Prop
  | string (s : String) (hf : f.value.unwrapped = .scalar (.string s))
      (hg : g.value.unwrapped = .scalar (.string s)) (hunnest : f.options.unnest = g.options.unnest)
  | bool (b : Bool) (hf : f.value.unwrapped = .scalar (.bool b)) (hg : g.value.unwrapped = .scalar (.bool b))
  | list (values : List Scalar) (hf : f.value.unwrapped = .list (values.map .scalar))
      (hg : g.value.unwrapped = .list (values.map .scalar)) (hunnest : f.options.unnest = g.options.unnest)
  | timeRange (range other : TimeRange) (lower upper : String) (hf : f.value.unwrapped = .timeRange range)
      (hg : g.value.unwrapped = .timeRange other)
      (hfl : range.lower.format f.format f.column = .ok lower)
      (hfu : range.upper.format f.format f.column = .ok upper)
      (hgl : other.lower.format g.format g.column = .ok lower)
      (hgu : other.upper.format g.format g.column = .ok upper)

theorem eq_map_scalar_of_elements {items : List Value} {scalars : List Scalar}
    (h : elements column items = .ok scalars) : items = scalars.map .scalar := by
  have hmap := Predicate.mapM_eq_ok_iff.1 h
  clear h
  induction items generalizing scalars with
  | nil => simpa [eq_comm] using hmap
  | cons item items ih =>
    cases scalars with
    | nil => cases hmap
    | cons s scalars =>
      obtain ⟨hitem, hitems⟩ := List.cons.inj hmap
      rw [List.map_cons, ← ih hitems]
      congr 1
      cases item with
      | scalar t => cases hitem; rfl
      | list => cases hitem
      | timeRange => cases hitem
      | record => cases hitem
      | optional => cases hitem

/-- Fields with one condition ask the same of the same column. -/
theorem asksLike_of_condition (hf : f.condition = .ok (some c)) (hg : g.condition = .ok (some c)) :
    f.column = g.column ∧ f.AsksLike g := by
  have hcol : f.column = g.column := (column_of_condition hf).symm.trans (column_of_condition hg)
  refine ⟨hcol, ?_⟩
  have hfa := asks_of_condition hf
  have hga := asks_of_condition hg
  generalize hfv : f.value.unwrapped = v at hfa
  generalize hgv : g.value.unwrapped = w at hga
  generalize hfu : f.options.unnest = u at hfa
  generalize hgu : g.options.unnest = u' at hga
  -- the columns are parameters of what is asked, so one of them has to be a variable
  generalize hgc : g.column = column at hga
  rw [hcol, hgc] at hfa
  cases hfa with
  | string _ s => cases hga; exact .string s hfv hgv (hfu.trans hgu.symm)
  | bool b => cases hga; exact .bool b hfv hgv
  | list _ hfe =>
    cases hga with
    | list _ hge =>
      rw [eq_map_scalar_of_elements hfe] at hfv
      rw [eq_map_scalar_of_elements hge] at hgv
      exact .list _ hfv hgv (hfu.trans hgu.symm)
  | timeRange hfl hfup =>
    cases hga with
    | timeRange hgl hgup =>
      rw [← hgc] at hfl hfup hgl hgup
      rw [← hcol] at hfl hfup
      exact .timeRange _ _ _ _ hfv hgv hfl hfup hgl hgup

end FieldOf

namespace Predicate

open FieldOf

/-- The fields that are not skipped have the conditions of a record, in their order. -/
theorem forall₂_conditions {r : Record} (h : ∀ f ∈ r, ∃ a, f.condition = .ok a) :
    List.Forall₂ (fun f c => f.condition = .ok (some c)) (r.filter (!·.isSkipped))
      (r.filterMap condition?) := by
  induction r with
  | nil => exact .nil
  | cons f r ih =>
    obtain ⟨⟨a, ha⟩, h⟩ := List.forall_mem_cons.1 h
    have hs := isSkipped_eq_isNone ha
    cases a with
    | none =>
      have hc : f.condition? = none := by rw [condition?, ha]; rfl
      rw [List.filterMap_cons_none hc, List.filter_cons_of_neg (by simp [hs])]
      exact ih h
    | some c =>
      rw [List.filterMap_cons_some (condition?_eq_some_iff.2 ha), List.filter_cons_of_pos (by simp [hs])]
      exact .cons ha (ih h)

theorem forall₂_of_forall₂_left {α β : Type} {R : α → β → Prop} {S : α → α → Prop}
    (hRS : ∀ a a' b, R a b → R a' b → S a a') {l l' : List α} {m : List β} (h : List.Forall₂ R l m)
    (h' : List.Forall₂ R l' m) : List.Forall₂ S l l' := by
  induction h generalizing l' with
  | nil => cases h'; exact .nil
  | cons hab _ ih =>
    cases h' with
    | cons hab' h' => exact .cons (hRS _ _ _ hab hab') (ih h')

/-- The name of a column as it stands in a query, unless it is the word that denies. It can be the one that
joins, since only what follows a whole condition is read as that. -/
structure IsColumnName (name : String) : Prop where
  ne_empty : name ≠ ""
  isAlphanum : ∀ c ∈ name.toList, c.isAlphanum ∨ c = '_' ∨ c = '.'
  ne_not : name ≠ "NOT"

theorem IsColumnName.plain {name : String} (h : IsColumnName name) : Plain name := by
  intro c hc
  rcases h.isAlphanum c hc with hc | rfl | rfl
  · constructor
    · rintro rfl
      cases hc
    · simp only [endsPlaceholder, Bool.or_eq_false_iff, decide_eq_false_iff_not]
      refine ⟨⟨?_, ?_⟩, ?_⟩ <;> rintro rfl <;> cases hc
  · decide
  · decide

theorem forall_conditions_of_isColumnName {r : Record} (h : ∀ f ∈ r, ∃ a, f.condition = .ok a)
    (hr : ∀ f ∈ r.filter (!·.isSkipped), IsColumnName f.column) :
    ∀ c ∈ r.filterMap condition?, Plain c.column ∧ c.column ≠ "" ∧ c.column ≠ "NOT" := by
  have hcolumns : ∀ column ∈ (r.filterMap condition?).map Condition.column, IsColumnName column := by
    rw [map_column_conditions h]
    exact List.forall_mem_map.2 hr
  intro c hc
  have hname := hcolumns _ (List.mem_map_of_mem hc)
  exact ⟨hname.plain, hname.ne_empty, hname.ne_not⟩

/-- Records with one predicate ask the same of the same columns, field by field, if those that are skipped
are left out. -/
theorem asksLike_of_ofValue_eq {r s : Record} {p q : Predicate}
    (hr : ofValue (.record r) = .ok p) (hs : ofValue (.record s) = .ok q)
    (hrc : ∀ f ∈ r.filter (!·.isSkipped), IsColumnName f.column)
    (hsc : ∀ g ∈ s.filter (!·.isSkipped), IsColumnName g.column) (htext : p.text = q.text)
    (hparams : p.params = q.params) :
    List.Forall₂ (fun f g => f.column = g.column ∧ f.AsksLike g) (r.filter (!·.isSkipped))
      (s.filter (!·.isSkipped)) := by
  obtain ⟨hrok, hp⟩ := ofRecord_eq_ok hr
  obtain ⟨hsok, hq⟩ := ofRecord_eq_ok hs
  rw [hp, hq] at htext hparams
  have houtline := map_outline_eq_of_text_eq (forall_conditions_of_isColumnName hrok hrc)
    (forall_conditions_of_isColumnName hsok hsc) htext
  have hconditions := eq_of_map_outline_eq houtline hparams
  have hfields := forall₂_conditions hsok
  rw [← hconditions] at hfields
  refine forall₂_of_forall₂_left ?_ (forall₂_conditions hrok) hfields
  exact fun f g c hf hg => asksLike_of_condition hf hg

/-- Columns with the names of keywords, once with tags, optionals, a skipped field and a literal format, and
once without. -/
theorem asksLike_of_ofValue_eq_keywords :
    let r : Record := [
      { name := "EXISTS", value := .scalar (.bool true) },
      { name := "AND", value := .scalar (.bool true) },
      { name := "IN", value := .list [.scalar (.string "a"), .scalar (.int 1)], tag := some ",unnest" },
      { name := "BETWEEN", value := .timeRange .zero },
      { name := "x", value := .scalar (.string "y") }]
    let s : Record := [
      { name := "Taker", value := .optional (some (.scalar (.bool true))), tag := some "EXISTS,omitempty" },
      { name := "AND", value := .scalar (.bool true), tag := some "" },
      { name := "Owner", value := .list [.scalar (.string "a"), .scalar (.int 1)], tag := some "IN,unnest" },
      { name := "Kind", value := .scalar (.string ""), tag := some "NOT,omitempty" },
      { name := "BETWEEN", value := .timeRange ⟨{ Instant.zero with time := ⟨1, 0, 0, 0⟩ }, .zero⟩,
        format := some "0001-01-01T00:00:00Z" },
      { name := "x", value := .optional (some (.scalar (.string "y"))) }]
    let p := ofConditions [.holds "EXISTS" true, .holds "AND" true,
      .compare "IN" true (.anyOf [.string "a", .int 1]),
      .between "BETWEEN" "0001-01-01T00:00:00Z" "0001-01-01T00:00:00Z", .compare "x" false (.one "y")]
    ofValue (.record r) = .ok p ∧ ofValue (.record s) = .ok p ∧
      (∀ f ∈ r.filter (!·.isSkipped), IsColumnName f.column) ∧
      (∀ g ∈ s.filter (!·.isSkipped), IsColumnName g.column) ∧
      List.Forall₂ (fun f g => f.column = g.column ∧ f.AsksLike g) (r.filter (!·.isSkipped))
        (s.filter (!·.isSkipped)) := by
  intro r s p
  have hr : ofValue (.record r) = .ok p := rfl
  have hs : ofValue (.record s) = .ok p := rfl
  have hnames : ∀ name ∈ ["EXISTS", "AND", "IN", "BETWEEN", "x"], IsColumnName name := by
    intro name hname
    simp only [List.mem_cons, List.not_mem_nil, or_false] at hname
    rcases hname with rfl | rfl | rfl | rfl | rfl <;> constructor <;> simp
  have hrcolumns : (r.filter (!·.isSkipped)).map FieldOf.column = ["EXISTS", "AND", "IN", "BETWEEN", "x"] := rfl
  have hscolumns : (s.filter (!·.isSkipped)).map FieldOf.column = ["EXISTS", "AND", "IN", "BETWEEN", "x"] := rfl
  have hrc : ∀ f ∈ r.filter (!·.isSkipped), IsColumnName f.column :=
    List.forall_mem_map.1 (hrcolumns ▸ hnames)
  have hsc : ∀ g ∈ s.filter (!·.isSkipped), IsColumnName g.column :=
    List.forall_mem_map.1 (hscolumns ▸ hnames)
  exact ⟨hr, hs, hrc, hsc, asksLike_of_ofValue_eq hr hs hrc hsc rfl rfl⟩

end Predicate

end QueryClauses
