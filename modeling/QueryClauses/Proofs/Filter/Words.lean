import QueryClauses.Proofs.Filter.Outline
import QueryClauses.Proofs.Filter.Placeholders
import QueryClauses.Proofs.Text

/-! The text of a predicate as a row of words. The first two words of a condition say of what kind it is, so
its outline is read off the front of the row, and what is behind it is read in the same way: predicates of
one text have conditions with the same outlines. -/

namespace QueryClauses

variable {name column : String}

/-! ### Words -/

theorem Plain.space_not_mem (h : Plain name) : ' ' ∉ name.toList := by
  intro hmem
  have hend := (h _ hmem).2
  simp [endsPlaceholder] at hend

theorem Plain.space_not_mem_placeholder (h : Plain name) : ' ' ∉ (Parameter.placeholder name).toList := by
  simp [Parameter.placeholder, h.space_not_mem]

namespace Comparand

def operator : Comparand → String
  | one _ => "="
  | anyOf _ => "IN"

/-- What stands behind the operator. -/
def operand (column : String) : Comparand → String
  | one _ => Parameter.placeholder column
  | anyOf values => "(" ++ ",".intercalate ((elementNames column values).map Parameter.placeholder) ++ ")"

theorem text_eq (column : String) (comparand : Comparand) :
    comparand.text column = " " ++ comparand.operator ++ " " ++ comparand.operand column := by
  cases comparand with
  | one s => rfl
  | anyOf values =>
    apply String.toList_inj.1
    simp [text, operator, operand]

theorem operator_outline (comparand : Comparand) : comparand.outline.operator = comparand.operator := by
  cases comparand <;> rfl

theorem operand_outline (column : String) (comparand : Comparand) :
    comparand.outline.operand column = comparand.operand column := by
  cases comparand with
  | one s => rfl
  | anyOf values => simp only [outline, operand, elementNames, List.length_map]

end Comparand

namespace Condition

def words : Condition → List String
  | holds column expected => if expected then [column] else ["NOT", column]
  | between column _ _ =>
    [column, "BETWEEN", Parameter.placeholder (Parameter.lowerName column), "AND",
      Parameter.placeholder (Parameter.upperName column)]
  | compare column unnest comparand =>
    if unnest then
      ["EXISTS", "(SELECT", "*", "FROM", "UNNEST(" ++ column ++ ")", "AS", "x", "WHERE", "x",
        comparand.operator, comparand.operand column ++ ")"]
    else [column, comparand.operator, comparand.operand column]

theorem text_eq_intercalate (c : Condition) : c.text = " ".intercalate c.words := by
  apply String.toList_inj.1
  cases c with
  | holds column expected =>
    show (if expected then column else "NOT " ++ column).toList = _
    cases expected <;> simp [words]
  | between column lower upper =>
    show (column ++ " BETWEEN " ++ Parameter.placeholder (Parameter.lowerName column) ++ " AND " ++
      Parameter.placeholder (Parameter.upperName column)).toList = _
    simp [words]
  | compare column unnest comparand =>
    rw [text_compare]
    cases unnest <;> simp [words, Comparand.text_eq]

theorem text_ne_empty {c : Condition} (h : c.column ≠ "") : c.text ≠ "" := by
  cases c with
  | holds column expected =>
    cases expected with
    | true => exact h
    | false => exact fun he => h (String.append_eq_empty_iff.1 he).2
  | between column lower upper =>
    intro he
    have hcol := (String.append_eq_empty_iff.1 (String.append_eq_empty_iff.1 he).1).1
    simp at hcol
  | compare column unnest comparand =>
    rw [text_compare]
    cases unnest <;> simp [Comparand.text_eq]

theorem words_ne_nil (c : Condition) : c.words ≠ [] := by
  unfold words
  split
  · split <;> exact List.cons_ne_nil _ _
  · exact List.cons_ne_nil _ _
  · split <;> exact List.cons_ne_nil _ _

theorem words_outline (c : Condition) : c.outline.words = c.words := by
  cases c with
  | holds column expected => rfl
  | between column lower upper => rfl
  | compare column unnest comparand =>
    simp only [outline, words, Comparand.operator_outline, Comparand.operand_outline]

theorem space_not_mem_operand (comparand : Comparand) (hc : Plain column) :
    ' ' ∉ (comparand.operand column).toList := by
  cases comparand with
  | one s => exact hc.space_not_mem_placeholder
  | anyOf values =>
    have hnames : ∀ name ∈ Comparand.elementNames column values, Plain name := by
      rw [← params_anyOf]
      exact fun name h => plain_of_mem_names (c := compare column false (.anyOf values)) hc h
    have hlist : ' ' ∉ (",".intercalate
        ((Comparand.elementNames column values).map Parameter.placeholder)).toList :=
      Text.not_mem_intercalate (by simp)
        (List.forall_mem_map.2 fun name h => (hnames name h).space_not_mem_placeholder)
    rw [Comparand.operand, String.toList_append, String.toList_append, List.mem_append, List.mem_append,
      not_or, not_or]
    exact ⟨⟨by simp, hlist⟩, by simp⟩

theorem space_not_mem_of_mem_words {c : Condition} (hc : Plain c.column) :
    ∀ word ∈ c.words, ' ' ∉ word.toList := by
  cases c with
  | holds column expected =>
    have hcol : ' ' ∉ column.toList := hc.space_not_mem
    cases expected <;> simp [words, hcol]
  | between column lower upper =>
    have hcol : ' ' ∉ column.toList := hc.space_not_mem
    have hl : Plain (Parameter.lowerName column) := plain_of_mem_names hc List.mem_cons_self
    have hu : Plain (Parameter.upperName column) :=
      plain_of_mem_names hc (List.mem_cons_of_mem _ List.mem_cons_self)
    simp [words, hcol, hl.space_not_mem_placeholder, hu.space_not_mem_placeholder]
  | compare column unnest comparand =>
    have hcol : ' ' ∉ column.toList := hc.space_not_mem
    have hand : ' ' ∉ (comparand.operand column).toList := space_not_mem_operand comparand hc
    have hop : ' ' ∉ comparand.operator.toList := by cases comparand <;> simp [Comparand.operator]
    cases unnest <;> simp [words, hcol, hand, hop]

/-! ### Reading an outline -/

/-- From an operand the names of its parameters are read. -/
theorem reads_operand (unnest : Bool) (comparand : Comparand) (hc : Plain column) :
    Reads (comparand.operand column) (compare column unnest comparand).names := by
  intro rest hrest
  have hop : '@' ∉ (" " ++ comparand.operator ++ " ").toList := by
    cases comparand <;> simp [Comparand.operator]
  have h := reads_comparand unnest comparand hc rest hrest
  rw [Comparand.text_eq, String.toList_append, List.append_assoc, referred_append hop] at h
  exact h

end Condition

/-- The outline of the comparand for which an operator and its operand stand. A list has as many values
as there are names in the operand. -/
def Comparand.ofWords? : List String → Option Comparand
  | operator :: operand :: _ =>
    if operator = "=" then some (.one "")
    else if operator = "IN" then some (.anyOf ((referred operand.toList).map fun _ => .bool false))
    else none
  | _ => none

theorem Comparand.ofWords?_operator (unnest : Bool) (comparand : Comparand) (hc : Plain column)
    {close : String} (hclose : close = "" ∨ close = ")") (rest : List String) :
    Comparand.ofWords? (comparand.operator :: (comparand.operand column ++ close) :: rest) =
      some comparand.outline := by
  cases comparand with
  | one s => rfl
  | anyOf values =>
    have hread := Condition.reads_operand unnest (.anyOf values) hc close.toList
      (by rcases hclose with rfl | rfl <;> simp [Stops, endsPlaceholder])
    have hrest : referred close.toList = [] := by rcases hclose with rfl | rfl <;> rfl
    rw [← String.toList_append, hrest, List.append_nil] at hread
    have hlen : (Condition.compare column unnest (.anyOf values)).names.length = values.length := by
      rw [Condition.names, Condition.params, Condition.params_anyOf, elementNames]
      simp
    show some (Comparand.anyOf _) = some (Comparand.anyOf _)
    rw [hread, List.map_const', List.map_const', hlen]

namespace Condition

/-- The outline of the condition that begins a row of words. -/
def ofWords : List String → Condition
  | [] => holds "" true
  | first :: rest =>
    if first = "NOT" then holds (rest.headD "") false
    else if first = "EXISTS" ∧ rest.head? = some "(SELECT" then
      let source := ((rest.getD 3 "").toList.drop 7).dropLast
      compare (String.ofList source) true ((Comparand.ofWords? (rest.drop 8)).getD (.one ""))
    else if rest.head? = some "BETWEEN" then between first "" ""
    else
      match Comparand.ofWords? rest with
      | some comparand => compare first false comparand
      | none => holds first true

/-- A row of words that goes on with another condition, or not at all. -/
def Joins (rest : List String) : Prop := ∀ word ∈ rest.head?, word = "AND"

theorem Joins.head?_ne {rest : List String} (h : Joins rest) {word : String} (hne : word ≠ "AND") :
    rest.head? ≠ some word :=
  fun hw => hne (h word hw)

theorem Joins.ofWords?_eq_none {rest : List String} (h : Joins rest) : Comparand.ofWords? rest = none := by
  match rest with
  | [] => rfl
  | [_] => rfl
  | first :: operand :: rest =>
    have hfirst : first = "AND" := h first rfl
    rw [hfirst]
    rfl

variable {c : Condition} {rest : List String}

/-- The outline of a condition is read off its words, whatever else they are joined to. -/
theorem ofWords_words_append (hc : Plain c.column) (hnot : c.column ≠ "NOT") (hrest : Joins rest) :
    ofWords (c.words ++ rest) = c.outline := by
  cases c with
  | holds column expected =>
    cases expected with
    | true =>
      show ofWords (column :: rest) = holds column true
      have hselect : ¬(column = "EXISTS" ∧ rest.head? = some "(SELECT") :=
        fun h => hrest.head?_ne (by decide) h.2
      have hbetween := hrest.head?_ne (by decide : "BETWEEN" ≠ "AND")
      rw [ofWords, if_neg (show column ≠ "NOT" from hnot), if_neg hselect, if_neg hbetween,
        hrest.ofWords?_eq_none]
    | false => rfl
  | between column lower upper =>
    show ofWords (column :: "BETWEEN" :: _) = between column "" ""
    rw [ofWords, if_neg (show column ≠ "NOT" from hnot), if_neg (by simp)]
    rfl
  | compare column unnest comparand =>
    have hcol : Plain column := hc
    cases unnest with
    | false =>
      have hop : comparand.operator ≠ "(SELECT" ∧ comparand.operator ≠ "BETWEEN" := by
        cases comparand <;> simp [Comparand.operator]
      have hread := Comparand.ofWords?_operator false comparand hcol (.inl rfl) rest
      rw [String.append_empty] at hread
      show ofWords (column :: comparand.operator :: comparand.operand column :: rest) = _
      rw [ofWords, if_neg (show column ≠ "NOT" from hnot), if_neg (by simp [hop.1]), if_neg (by simp [hop.2]),
        hread]
      rfl
    | true =>
      have hread := Comparand.ofWords?_operator true comparand hcol (.inr rfl) rest
      have hsource : (("UNNEST(" ++ column ++ ")").toList.drop 7).dropLast = column.toList := by simp
      show ofWords ("EXISTS" :: "(SELECT" :: "*" :: "FROM" :: ("UNNEST(" ++ column ++ ")") :: "AS" :: "x" ::
        "WHERE" :: "x" :: comparand.operator :: (comparand.operand column ++ ")") :: rest) = _
      rw [ofWords, if_neg (by decide), if_pos ⟨rfl, rfl⟩]
      simp only [List.getD_cons_succ, List.getD_cons_zero, List.drop_succ_cons, List.drop_zero, hsource, hread,
        String.ofList_toList, Option.getD_some, outline]

end Condition

namespace Predicate

open Condition

/-- The words of conditions each of which is joined to something before it. -/
def joinedWords : List Condition → List String
  | [] => []
  | c :: cs => "AND" :: (c.words ++ joinedWords cs)

theorem joins_joinedWords (cs : List Condition) : Joins (joinedWords cs) := by
  cases cs <;> simp [Joins, joinedWords]

theorem joinedWords_ne_nil {cs : List Condition} (h : cs ≠ []) : joinedWords cs ≠ [] := by
  obtain ⟨c, cs, rfl⟩ := List.exists_cons_of_ne_nil h
  exact List.cons_ne_nil _ _

theorem space_not_mem_joinedWords {cs : List Condition} (h : ∀ c ∈ cs, Plain c.column) :
    ∀ word ∈ joinedWords cs, ' ' ∉ word.toList := by
  induction cs with
  | nil => exact fun word hword => absurd hword List.not_mem_nil
  | cons c cs ih =>
    obtain ⟨hc, hcs⟩ := List.forall_mem_cons.1 h
    refine List.forall_mem_cons.2 ⟨by simp, List.forall_mem_append.2 ⟨?_, ih hcs⟩⟩
    exact space_not_mem_of_mem_words hc

theorem text_eq_intercalate_joinedWords {cs : List Condition} (h : cs ≠ []) :
    "AND " ++ (ofConditions cs).text = " ".intercalate (joinedWords cs) := by
  induction cs with
  | nil => exact absurd rfl h
  | cons c cs ih =>
    have hfirst : " ".intercalate ("AND" :: c.words) = "AND " ++ c.text := by
      rw [String.intercalate_cons_of_ne_nil c.words_ne_nil, ← c.text_eq_intercalate]
      rfl
    cases cs with
    | nil => simp [ofConditions, joinedWords, hfirst]
    | cons d cs =>
      have hne : d :: cs ≠ [] := List.cons_ne_nil d cs
      have htext : (ofConditions (c :: d :: cs)).text =
          c.text ++ " " ++ ("AND " ++ (ofConditions (d :: cs)).text) := by
        apply String.toList_inj.1
        simp [ofConditions]
      have hwords : joinedWords (c :: d :: cs) = ("AND" :: c.words) ++ joinedWords (d :: cs) := rfl
      rw [htext, ih hne, hwords, String.intercalate_append_of_ne_nil (List.cons_ne_nil _ _)
        (joinedWords_ne_nil hne), hfirst, String.append_assoc, String.append_assoc, String.append_assoc]

/-- Rows of the same words are those of conditions with the same outlines. -/
theorem map_outline_eq_of_joinedWords_eq {cs ds : List Condition}
    (hcs : ∀ c ∈ cs, Plain c.column ∧ c.column ≠ "NOT") (hds : ∀ d ∈ ds, Plain d.column ∧ d.column ≠ "NOT")
    (h : joinedWords cs = joinedWords ds) : cs.map Condition.outline = ds.map Condition.outline := by
  induction cs generalizing ds with
  | nil =>
    cases ds with
    | nil => rfl
    | cons d ds => cases h
  | cons c cs ih =>
    cases ds with
    | nil => cases h
    | cons d ds =>
      obtain ⟨⟨hplain, hnot⟩, hcs⟩ := List.forall_mem_cons.1 hcs
      obtain ⟨⟨hplain', hnot'⟩, hds⟩ := List.forall_mem_cons.1 hds
      have hwords : c.words ++ joinedWords cs = d.words ++ joinedWords ds := List.tail_eq_of_cons_eq h
      have houtline : c.outline = d.outline := by
        rw [← ofWords_words_append hplain hnot (joins_joinedWords cs), hwords,
          ofWords_words_append hplain' hnot' (joins_joinedWords ds)]
      rw [← c.words_outline, houtline, d.words_outline] at hwords
      rw [List.map_cons, List.map_cons, houtline, ih hcs hds (List.append_cancel_left hwords)]

theorem text_ofConditions_ne_empty {cs : List Condition} (hne : cs ≠ []) (h : ∀ c ∈ cs, c.column ≠ "") :
    (ofConditions cs).text ≠ "" := by
  obtain ⟨c, cs, rfl⟩ := List.exists_cons_of_ne_nil hne
  have hc := c.text_ne_empty (h c List.mem_cons_self)
  cases cs with
  | nil => simpa [ofConditions] using hc
  | cons d cs => simp [ofConditions]

/-- Predicates of one text have conditions with the same outlines. -/
theorem map_outline_eq_of_text_eq {cs ds : List Condition}
    (hcs : ∀ c ∈ cs, Plain c.column ∧ c.column ≠ "" ∧ c.column ≠ "NOT")
    (hds : ∀ d ∈ ds, Plain d.column ∧ d.column ≠ "" ∧ d.column ≠ "NOT")
    (h : (ofConditions cs).text = (ofConditions ds).text) :
    cs.map Condition.outline = ds.map Condition.outline := by
  have hempty : (ofConditions []).text = "" := rfl
  by_cases hc : cs = []
  · by_cases hd : ds = []
    · rw [hc, hd]
    · rw [hc, hempty] at h
      exact absurd h.symm (text_ofConditions_ne_empty hd fun d hmem => (hds d hmem).2.1)
  · by_cases hd : ds = []
    · rw [hd, hempty] at h
      exact absurd h (text_ofConditions_ne_empty hc fun c hmem => (hcs c hmem).2.1)
    · refine map_outline_eq_of_joinedWords_eq (fun c hmem => ⟨(hcs c hmem).1, (hcs c hmem).2.2⟩)
        (fun d hmem => ⟨(hds d hmem).1, (hds d hmem).2.2⟩) ?_
      have hspace : " ".toList = [' '] := rfl
      refine Text.eq_of_intercalate_eq hspace (joinedWords_ne_nil hc) (joinedWords_ne_nil hd)
        (space_not_mem_joinedWords fun c hmem => (hcs c hmem).1)
        (space_not_mem_joinedWords fun d hmem => (hds d hmem).1) ?_
      rw [← text_eq_intercalate_joinedWords hc, ← text_eq_intercalate_joinedWords hd, h]

end Predicate

end QueryClauses
