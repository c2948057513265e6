import Mathlib.Data.List.Nodup
import Mathlib.Data.List.Pairwise
import QueryClauses.Proofs.Filter.Conditions

/-! When the names of a predicate's parameters are distinct. Each is a column with a suffix behind it, and
two of different columns are the same just when one column is the other with a beginning of such a suffix
behind it. -/

namespace QueryClauses

/-! ### Suffixes -/

def endsInDigit (s : String) : Bool := s.toList.getLast?.any Char.isDigit

theorem endsInDigit_append {s t : String} (ht : t ≠ "") : endsInDigit (s ++ t) = endsInDigit t := by
  have hne : t.toList ≠ [] := by simpa using ht
  rw [endsInDigit, endsInDigit, String.toList_append, List.getLast?_append,
    List.getLast?_eq_some_getLast hne, Option.some_or]

theorem endsInDigit_repr (i : Nat) : endsInDigit i.repr := by
  have hne : i.repr.toList ≠ [] := by simp
  rw [endsInDigit, List.getLast?_eq_some_getLast hne, Option.any_some]
  refine Nat.isDigit_of_mem_toDigits (b := 10) (n := i) (by decide) (by decide) ?_
  rw [← Nat.toList_repr]
  exact List.getLast_mem hne

theorem repr_inj {i j : Nat} : i.repr = j.repr ↔ i = j := by
  constructor
  · intro h
    have hd := congrArg String.toList h
    rw [Nat.toList_repr, Nat.toList_repr] at hd
    rw [← Nat.ofDigitChars_ten_toDigits (n := i), hd, Nat.ofDigitChars_ten_toDigits]
  · rintro rfl
    rfl

theorem append_eq_append {a b s t : String} (h : a ++ s = b ++ t) :
    (∃ e, b = a ++ e ∧ s = e ++ t) ∨ ∃ e, a = b ++ e ∧ t = e ++ s := by
  have hlist := congrArg String.toList h
  rw [String.toList_append, String.toList_append, List.append_eq_append_iff] at hlist
  rcases hlist with ⟨e, hb, hs⟩ | ⟨e, ha, ht⟩
  · refine .inl ⟨String.ofList e, ?_, ?_⟩ <;> apply String.toList_inj.1 <;> simpa
  · refine .inr ⟨String.ofList e, ?_, ?_⟩ <;> apply String.toList_inj.1 <;> simpa

/-- The suffixes for the bounds of a range. -/
def IsBound (s : String) : Prop := s = "From" ∨ s = "To"

theorem IsBound.endsInDigit_eq {s : String} (h : IsBound s) : endsInDigit s = false := by
  rcases h with rfl | rfl <;> rfl

theorem IsBound.ne_empty {s : String} (h : IsBound s) : s ≠ "" := by
  rcases h with rfl | rfl <;> decide

theorem IsBound.eq_empty_of_append {e t : String} (ht : IsBound t) (h : IsBound (e ++ t)) : e = "" := by
  rcases ht with rfl | rfl <;> rcases h with h | h
  · simpa using h
  · have hlast := congrArg (fun s : String => s.toList.getLast?) h
    simp at hlast
  · have hlast := congrArg (fun s : String => s.toList.getLast?) h
    simp at hlast
  · simpa using h

namespace Condition

variable {c d : Condition}

def names (c : Condition) : List String := c.params.map Parameter.name

/-- What is put behind the column in the names of the parameters. -/
def suffixes : Condition → List String
  | holds _ _ => []
  | between _ _ _ => ["From", "To"]
  | compare _ _ (.one _) => [""]
  | compare _ _ (.anyOf values) => (List.range values.length).map Nat.repr

theorem params_anyOf (column : String) (values : List Scalar) :
    (Comparand.params column (.anyOf values)).map Parameter.name = Comparand.elementNames column values := by
  have hlen : (Comparand.elementNames column values).length = values.length := by
    simp [Comparand.elementNames]
  have hfst := List.map_fst_zip (Nat.le_of_eq hlen)
  rw [List.zip, List.map_zipWith] at hfst
  rw [Comparand.params, List.map_zipWith]
  exact hfst

theorem names_eq (c : Condition) : c.names = c.suffixes.map (c.column ++ ·) := by
  cases c with
  | holds column expected => rfl
  | between column lower upper => rfl
  | compare column unnest comparand =>
    cases comparand with
    | one s => simp [names, params, Comparand.params, suffixes, Condition.column]
    | anyOf values =>
      rw [names, params, params_anyOf, suffixes, List.map_map]
      rfl

theorem nodup_suffixes (c : Condition) : c.suffixes.Nodup := by
  cases c with
  | holds column expected => exact List.nodup_nil
  | between column lower upper => simp [suffixes]
  | compare column unnest comparand =>
    cases comparand with
    | one s => exact List.nodup_singleton _
    | anyOf values =>
      rw [suffixes]
      exact List.nodup_range.map_on fun i _ j _ h => repr_inj.1 h

theorem nodup_names (c : Condition) : c.names.Nodup := by
  rw [names_eq]
  exact (nodup_suffixes c).map_on fun s _ t _ h => (String.append_right_inj c.column).1 h

/-- A parameter of one condition has the name of one of another. The column of the second is that of the
first with a beginning of one of its suffixes behind it. -/
inductive Captures : Condition → Condition → Prop
  | lower {column low high other s : String} {unnest : Bool} (h : other = Parameter.lowerName column) :
    Captures (between column low high) (compare other unnest (.one s))
  | upper {column low high other s : String} {unnest : Bool} (h : other = Parameter.upperName column) :
    Captures (between column low high) (compare other unnest (.one s))
  | element {column other s : String} {unnest unnest' : Bool} {values : List Scalar} {i : Nat}
      (hi : i < values.length) (h : other = Parameter.elementName column i) :
    Captures (compare column unnest (.anyOf values)) (compare other unnest' (.one s))
  | digits {column other ds : String} {unnest unnest' : Bool} {values more : List Scalar} {i j : Nat}
      (hi : i < values.length) (hj : j < more.length) (hne : ds ≠ "") (h : other = column ++ ds)
      (hij : i.repr = ds ++ j.repr) :
    Captures (compare column unnest (.anyOf values)) (compare other unnest' (.anyOf more))

theorem isBound_of_mem_suffixes {column low high s : String} (h : s ∈ (between column low high).suffixes) :
    IsBound s := by
  simpa [suffixes, IsBound] using h

/-- Of conditions on longer columns, a range shares a name only with that of a string. -/
theorem captures_of_bound {column low high e t : String} (he : e ≠ "") (hcol : d.column = column ++ e)
    (hb : IsBound (e ++ t)) (hd : t ∈ d.suffixes) : (between column low high).Captures d := by
  cases d with
  | holds other expected => cases hd
  | between other low' high' => exact absurd ((isBound_of_mem_suffixes hd).eq_empty_of_append hb) he
  | compare other unnest comparand =>
    cases comparand with
    | one s =>
      have ht : t = "" := by simpa [suffixes] using hd
      rw [ht, String.append_empty] at hb
      rcases hb with rfl | rfl
      · exact .lower hcol
      · exact .upper hcol
    | anyOf more =>
      -- a number does not end like a bound
      obtain ⟨j, -, rfl⟩ := List.mem_map.1 hd
      have hdigit := hb.endsInDigit_eq
      rw [endsInDigit_append Nat.repr_ne_empty, endsInDigit_repr] at hdigit
      cases hdigit

/-- Of conditions on longer columns, a list shares a name only with that of a string or of another list. -/
theorem captures_of_digits {column e t : String} {unnest : Bool} {values : List Scalar} {i : Nat}
    (hi : i < values.length) (he : e ≠ "") (hcol : d.column = column ++ e) (hit : i.repr = e ++ t)
    (hd : t ∈ d.suffixes) : (compare column unnest (.anyOf values)).Captures d := by
  cases d with
  | holds other expected => cases hd
  | between other low high =>
    have hb := isBound_of_mem_suffixes hd
    have hdigit := endsInDigit_repr i
    rw [hit, endsInDigit_append hb.ne_empty, hb.endsInDigit_eq] at hdigit
    cases hdigit
  | compare other unnest' comparand =>
    cases comparand with
    | one s =>
      have ht : t = "" := by simpa [suffixes] using hd
      rw [ht, String.append_empty] at hit
      exact .element hi (hcol.trans (by rw [← hit]; rfl))
    | anyOf more =>
      obtain ⟨j, hj, rfl⟩ := List.mem_map.1 hd
      exact .digits hi (List.mem_range.1 hj) he hcol hit

theorem captures_of_suffixes {e t : String} (he : e ≠ "") (hcol : d.column = c.column ++ e)
    (hc : e ++ t ∈ c.suffixes) (hd : t ∈ d.suffixes) : c.Captures d := by
  cases c with
  | holds column expected => cases hc
  | between column low high => exact captures_of_bound he hcol (isBound_of_mem_suffixes hc) hd
  | compare column unnest comparand =>
    cases comparand with
    | one s =>
      have hempty : e ++ t = "" := by simpa [suffixes] using hc
      exact absurd (String.append_eq_empty_iff.1 hempty).1 he
    | anyOf values =>
      obtain ⟨i, hi, hit⟩ := List.mem_map.1 hc
      exact captures_of_digits (List.mem_range.1 hi) he hcol hit hd

theorem Captures.exists_suffix (h : c.Captures d) :
    ∃ t ∈ d.suffixes, ∃ e, e ≠ "" ∧ d.column = c.column ++ e ∧ e ++ t ∈ c.suffixes := by
  cases h with
  | lower h => exact ⟨"", by simp [suffixes], "From", by decide, h, by simp [suffixes]⟩
  | upper h => exact ⟨"", by simp [suffixes], "To", by decide, h, by simp [suffixes]⟩
  | @element column other s unnest unnest' values i hi h =>
    refine ⟨"", by simp [suffixes], i.repr, Nat.repr_ne_empty, h, ?_⟩
    rw [String.append_empty]
    exact List.mem_map_of_mem (List.mem_range.2 hi)
  | @digits column other ds unnest unnest' values more i j hi hj hne h hij =>
    refine ⟨j.repr, List.mem_map_of_mem (List.mem_range.2 hj), ds, hne, h, ?_⟩
    rw [← hij]
    exact List.mem_map_of_mem (List.mem_range.2 hi)

theorem Captures.column_ne (h : c.Captures d) : c.column ≠ d.column := by
  obtain ⟨t, -, e, he, hcol, -⟩ := h.exists_suffix
  intro heq
  rw [← heq] at hcol
  exact he ((String.append_right_inj c.column).1 (by rw [String.append_empty, ← hcol]))

theorem Captures.exists_name (h : c.Captures d) : ∃ name, name ∈ c.names ∧ name ∈ d.names := by
  obtain ⟨t, ht, e, -, hcol, hc⟩ := h.exists_suffix
  refine ⟨d.column ++ t, ?_, ?_⟩
  · rw [names_eq, hcol, String.append_assoc]
    exact List.mem_map_of_mem hc
  · rw [names_eq]
    exact List.mem_map_of_mem ht

/-- Conditions on two columns share a name only if one captures the other. -/
theorem captures_or_captures {name : String} (hne : c.column ≠ d.column) (hc : name ∈ c.names)
    (hd : name ∈ d.names) : c.Captures d ∨ d.Captures c := by
  rw [names_eq] at hc hd
  obtain ⟨s, hs, rfl⟩ := List.mem_map.1 hc
  obtain ⟨t, ht, heq⟩ := List.mem_map.1 hd
  rcases append_eq_append heq with ⟨e, hcol, rfl⟩ | ⟨e, hcol, rfl⟩
  · refine .inr (captures_of_suffixes ?_ hcol ht hs)
    rintro rfl
    exact hne (by simpa using hcol)
  · refine .inl (captures_of_suffixes ?_ hcol hs ht)
    rintro rfl
    exact hne (by simpa using hcol.symm)

end Condition

namespace Predicate

open FieldOf

theorem map_name_ofConditions (cs : List Condition) :
    (ofConditions cs).params.map Parameter.name = cs.flatMap Condition.names := by
  rw [ofConditions, List.map_flatMap]
  rfl

/-- The parameters of conditions on distinct columns have distinct names unless one condition captures
another. -/
theorem nodup_flatMap_names_iff {cs : List Condition} (h : (cs.map Condition.column).Nodup) :
    (cs.flatMap Condition.names).Nodup ↔ ∀ c ∈ cs, ∀ d ∈ cs, ¬ c.Captures d := by
  rw [List.nodup_flatMap]
  constructor
  · rintro ⟨-, hdisjoint⟩ c hc d hd hcap
    obtain ⟨name, hnc, hnd⟩ := hcap.exists_name
    have hne : c ≠ d := fun he => hcap.column_ne (congrArg Condition.column he)
    have hsymm : Std.Symm (Function.onFun List.Disjoint Condition.names) :=
      ⟨fun _ _ h _ hnd hnc => h hnc hnd⟩
    exact hdisjoint.forall hc hd hne hnc hnd
  · intro hcap
    refine ⟨fun c _ => Condition.nodup_names c, ?_⟩
    refine (List.pairwise_map.1 h).imp_of_mem fun {c d} hc hd hne name hnc hnd => ?_
    rcases Condition.captures_or_captures hne hnc hnd with h | h
    · exact hcap c hc d hd h
    · exact hcap d hd c hc h

/-- For fields on distinct columns, the parameters of the predicate have distinct names just when no
field's condition captures that of another. -/
theorem nodup_names_iff {r : Record} {p : Predicate} (h : ofRecord r = .ok p)
    (hr : ((r.filter (!·.isSkipped)).map FieldOf.column).Nodup) :
    (p.params.map Parameter.name).Nodup ↔
      ∀ f ∈ r, ∀ g ∈ r, ∀ c d, f.condition = .ok (some c) → g.condition = .ok (some d) →
        ¬ c.Captures d := by
  obtain ⟨hok, rfl⟩ := ofRecord_eq_ok h
  rw [← map_column_conditions hok] at hr
  rw [map_name_ofConditions, nodup_flatMap_names_iff hr]
  constructor
  · intro hcap f hf g hg c d hc hd
    exact hcap c (List.mem_filterMap.2 ⟨f, hf, condition?_eq_some_iff.2 hc⟩) d
      (List.mem_filterMap.2 ⟨g, hg, condition?_eq_some_iff.2 hd⟩)
  · intro hcap c hc d hd
    obtain ⟨f, hf, hc⟩ := List.mem_filterMap.1 hc
    obtain ⟨g, hg, hd⟩ := List.mem_filterMap.1 hd
    exact hcap f hf g hg c d (condition?_eq_some_iff.1 hc) (condition?_eq_some_iff.1 hd)

/-- The parameter of a string on a column that is called like the lower bound of a range. -/
theorem nodup_names_iff_range_and_string :
    let r : Record := [{ name := "At", value := .timeRange .zero },
      { name := "AtFrom", value := .scalar (.string "b") }]
    let p := ofConditions [.between "At" Instant.zero.defaultText Instant.zero.defaultText,
      .compare "AtFrom" false (.one "b")]
    ofRecord r = .ok p ∧ ((r.filter (!·.isSkipped)).map FieldOf.column).Nodup ∧
      ¬ (p.params.map Parameter.name).Nodup := by
  intro r p
  have hok : ofRecord r = .ok p := rfl
  have hr : ((r.filter (!·.isSkipped)).map FieldOf.column).Nodup := by decide +kernel
  refine ⟨hok, hr, fun hnodup => ?_⟩
  have hnone := (nodup_names_iff hok hr).1 hnodup
  exact hnone _ List.mem_cons_self _ (List.mem_cons_of_mem _ List.mem_cons_self) _ _ rfl rfl (.lower rfl)

/-- Two fields on distinct columns, a list and a string, with parameters of one name. -/
theorem not_nodup_names_list_and_string :
    let r : Record := [{ name := "Owner", value := .list [.scalar (.string "a")] },
      { name := "Owner0", value := .scalar (.string "b") }]
    let p : Predicate := ⟨"Owner IN (@Owner0) AND Owner0 = @Owner0",
      [⟨"Owner0", .string "a"⟩, ⟨"Owner0", .string "b"⟩]⟩
    ofRecord r = .ok p ∧ ((r.filter (!·.isSkipped)).map FieldOf.column).Nodup ∧
      ¬ (p.params.map Parameter.name).Nodup := by
  refine ⟨rfl, ?_, ?_⟩ <;> decide +kernel

end Predicate

end QueryClauses
