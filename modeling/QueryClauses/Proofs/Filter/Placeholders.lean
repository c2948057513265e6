import QueryClauses.Proofs.Filter.Names

/-! The placeholders in the text of a predicate are those of its parameters. A reader of the text finds
them at the at signs, and is not misled if no column's name has such a sign or a mark that ends a
placeholder. -/

namespace QueryClauses

/-! ### Reading -/

def endsPlaceholder (c : Char) : Bool := c = ' ' || c = ',' || c = ')'

/-- What is read behind each at sign, as far as nothing ends it. -/
def referred : List Char → List String
  | [] => []
  | c :: text =>
    if c = '@' then String.ofList (text.takeWhile (!endsPlaceholder ·)) :: referred text
    else referred text

/-- A text that goes on like this ends a placeholder before it. -/
def Stops (rest : List Char) : Prop := ∀ c ∈ rest.head?, endsPlaceholder c

theorem Stops.append {s t : String} (h : Stops s.toList) (hne : s ≠ "") : Stops (s ++ t).toList := by
  have hlist : s.toList ≠ [] := by simpa using hne
  obtain ⟨c, cs, hs⟩ := List.exists_cons_of_ne_nil hlist
  rw [String.toList_append, hs]
  rw [hs] at h
  exact h

/-- A name that is read as it is. -/
def Plain (name : String) : Prop := ∀ c ∈ name.toList, c ≠ '@' ∧ endsPlaceholder c = false

/-- From a text just these names are read, whatever comes behind it. -/
def Reads (text : String) (names : List String) : Prop :=
  ∀ rest, Stops rest → referred (text.toList ++ rest) = names ++ referred rest

variable {s t name : String} {names more : List String}

theorem referred_append {cs rest : List Char} (h : '@' ∉ cs) : referred (cs ++ rest) = referred rest := by
  induction cs with
  | nil => rfl
  | cons c cs ih =>
    rw [List.mem_cons, not_or] at h
    rw [List.cons_append, referred, if_neg (Ne.symm h.1), ih h.2]

theorem Plain.not_mem (h : Plain name) : '@' ∉ name.toList := fun hat => (h _ hat).1 rfl

theorem Plain.append {column suffix : String} (hc : Plain column) (hs : Plain suffix) :
    Plain (column ++ suffix) := by
  intro c h
  rw [String.toList_append, List.mem_append] at h
  rcases h with h | h
  · exact hc c h
  · exact hs c h

theorem plain_repr (i : Nat) : Plain i.repr := by
  intro c h
  rw [Nat.toList_repr] at h
  have hd := Nat.isDigit_of_mem_toDigits (by decide) (by decide) h
  constructor
  · rintro rfl
    cases hd
  · simp only [endsPlaceholder, Bool.or_eq_false_iff, decide_eq_false_iff_not]
    refine ⟨⟨?_, ?_⟩, ?_⟩ <;> rintro rfl <;> cases hd

namespace Reads

theorem of_not_mem (h : '@' ∉ s.toList) : Reads s [] := fun _ _ => referred_append h

theorem placeholder (h : Plain name) : Reads (Parameter.placeholder name) [name] := by
  intro rest hrest
  have hname : ∀ c ∈ name.toList, (!endsPlaceholder c) = true := fun c hc => by simp [(h c hc).2]
  have hstop : rest.takeWhile (!endsPlaceholder ·) = [] := by
    cases rest with
    | nil => rfl
    | cons c rest => simp [hrest c rfl]
  have htext : (Parameter.placeholder name).toList = '@' :: name.toList := by
    simp [Parameter.placeholder]
  rw [htext, List.cons_append, referred, if_pos rfl, List.takeWhile_append_of_pos hname, hstop,
    List.append_nil, String.ofList_toList, referred_append h.not_mem]
  rfl

theorem append_text (h : '@' ∉ s.toList) (ht : Reads t names) : Reads (s ++ t) names := by
  intro rest hrest
  rw [String.toList_append, List.append_assoc, referred_append h, ht rest hrest]

theorem append (hs : Reads s names) (hstop : Stops t.toList) (ht : Reads t more) :
    Reads (s ++ t) (names ++ more) := by
  intro rest hrest
  have htr : Stops (t.toList ++ rest) := by
    cases h : t.toList with
    | nil => exact hrest
    | cons c cs =>
      rw [h] at hstop
      exact hstop
  rw [String.toList_append, List.append_assoc, hs _ htr, ht rest hrest, List.append_assoc]

/-- Texts joined by what ends a placeholder are read one after the other. -/
theorem intercalate {β : Type} {text : β → String} {names : β → List String} {sep : String}
    (hne : sep ≠ "") (hstop : Stops sep.toList) (hsep : '@' ∉ sep.toList) {l : List β}
    (h : ∀ x ∈ l, Reads (text x) (names x)) :
    Reads (sep.intercalate (l.map text)) (l.flatMap names) := by
  induction l with
  | nil => exact of_not_mem List.not_mem_nil
  | cons x l ih =>
    obtain ⟨hx, hl⟩ := List.forall_mem_cons.1 h
    cases l with
    | nil =>
      rw [List.map_cons, List.map_nil, String.intercalate_singleton, List.flatMap_singleton]
      exact hx
    | cons y l =>
      rw [List.map_cons, List.map_cons, String.intercalate_cons_cons, ← List.map_cons, List.flatMap_cons,
        String.append_assoc]
      exact hx.append (hstop.append hne) (append_text hsep (ih hl))

end Reads

/-! ### Conditions -/

namespace Condition

variable {column : String}

theorem plain_of_mem_suffixes {c : Condition} {suffix : String} (h : suffix ∈ c.suffixes) :
    Plain suffix := by
  cases c with
  | holds column expected => cases h
  | between column lower upper =>
    rcases isBound_of_mem_suffixes h with rfl | rfl <;> simp [Plain, endsPlaceholder]
  | compare column unnest comparand =>
    cases comparand with
    | one s =>
      have hempty : suffix = "" := by simpa [suffixes] using h
      rw [hempty]
      simp [Plain]
    | anyOf values =>
      obtain ⟨i, -, rfl⟩ := List.mem_map.1 h
      exact plain_repr i

theorem plain_of_mem_names {c : Condition} (hc : Plain c.column) {name : String} (h : name ∈ c.names) :
    Plain name := by
  rw [names_eq] at h
  obtain ⟨suffix, hs, rfl⟩ := List.mem_map.1 h
  exact hc.append (plain_of_mem_suffixes hs)

theorem reads_comparand (unnest : Bool) (comparand : Comparand) (hc : Plain column) :
    Reads (comparand.text column) (compare column unnest comparand).names := by
  cases comparand with
  | one s =>
    rw [Comparand.text]
    exact .append_text (by simp) (.placeholder hc)
  | anyOf values =>
    have hplain : ∀ name ∈ Comparand.elementNames column values, Plain name := by
      rw [← params_anyOf]
      exact fun name h => plain_of_mem_names (c := compare column unnest (.anyOf values)) hc h
    have hread : Reads
        (",".intercalate ((Comparand.elementNames column values).map Parameter.placeholder))
        ((Comparand.elementNames column values).flatMap fun name => [name]) :=
      .intercalate (by decide) (by simp [Stops, endsPlaceholder]) (by simp)
        fun name h => .placeholder (hplain name h)
    rw [Comparand.text, names, params, params_anyOf, String.append_assoc]
    refine .append_text (by simp) ?_
    have hend : Reads ")" [] := .of_not_mem (by simp)
    have happend := hread.append (by simp [Stops, endsPlaceholder]) hend
    simpa using happend

/-- The placeholders in the text of a condition are those of its parameters. -/
theorem reads_text {c : Condition} (hc : Plain c.column) : Reads c.text c.names := by
  cases c with
  | holds column expected =>
    cases expected with
    | true => exact .of_not_mem hc.not_mem
    | false =>
      show Reads ("NOT " ++ column) []
      exact .append_text (by simp) (.of_not_mem hc.not_mem)
  | between column lower upper =>
    have hl : Plain (Parameter.lowerName column) := plain_of_mem_names hc List.mem_cons_self
    have hu : Plain (Parameter.upperName column) :=
      plain_of_mem_names hc (List.mem_cons_of_mem _ List.mem_cons_self)
    show Reads (column ++ " BETWEEN " ++ Parameter.placeholder (Parameter.lowerName column) ++ " AND " ++
      Parameter.placeholder (Parameter.upperName column)) [_, _]
    have hand : Reads (" AND " ++ Parameter.placeholder (Parameter.upperName column)) [_] :=
      .append_text (by simp) (.placeholder hu)
    have hboth := (Reads.placeholder hl).append (by simp [Stops, endsPlaceholder]) hand
    rw [String.append_assoc, String.append_assoc, String.append_assoc]
    exact .append_text hc.not_mem (.append_text (by simp) hboth)
  | compare column unnest comparand =>
    have hread := reads_comparand unnest comparand hc
    cases unnest with
    | false =>
      show Reads (column ++ comparand.text column) _
      exact .append_text hc.not_mem hread
    | true =>
      show Reads ("EXISTS (SELECT * FROM UNNEST(" ++ column ++ ") AS x WHERE x" ++
        comparand.text column ++ ")") _
      have hend : Reads ")" [] := .of_not_mem (by simp)
      have happend := hread.append (by simp [Stops, endsPlaceholder]) hend
      rw [List.append_nil] at happend
      rw [String.append_assoc, String.append_assoc, String.append_assoc]
      exact .append_text (by simp) (.append_text hc.not_mem (.append_text (by simp) happend))

end Condition

namespace Predicate

open FieldOf

theorem reads_ofConditions {cs : List Condition} (h : ∀ c ∈ cs, Plain c.column) :
    Reads (ofConditions cs).text (cs.flatMap Condition.names) :=
  .intercalate (by decide) (by simp [Stops, endsPlaceholder]) (by simp) fun c hc => c.reads_text (h c hc)

/-- What a reader of a predicate's text finds behind the at signs are the names of its parameters in
their order. -/
theorem referred_text {r : Record} {p : Predicate} (h : ofRecord r = .ok p)
    (hr : ∀ f ∈ r, Plain f.column) : referred p.text.toList = p.params.map Parameter.name := by
  obtain ⟨-, rfl⟩ := ofRecord_eq_ok h
  have hplain : ∀ c ∈ r.filterMap condition?, Plain c.column := by
    intro c hc
    obtain ⟨f, hf, hc⟩ := List.mem_filterMap.1 hc
    rw [column_of_condition (condition?_eq_some_iff.1 hc)]
    exact hr f hf
  have hread := reads_ofConditions hplain [] (by simp [Stops])
  rw [List.append_nil, referred, List.append_nil] at hread
  rw [hread, map_name_ofConditions]

/-- A filter with fields of every kind, one of which is skipped. -/
theorem referred_text_every_kind :
    let r : Record := [{ name := "Owner", value := .list [.scalar (.string "@a"), .scalar (.int 7)] },
      { name := "F", value := .list [.scalar (.bool true)], tag := some "Tags,unnest" },
      { name := "Empty", value := .scalar (.string ""), tag := some ",omitempty" },
      { name := "At", value := .timeRange .zero },
      { name := "Taker", value := .optional (some (.scalar (.bool false))) },
      { name := "Kind", value := .scalar (.string "k"), tag := some ",unnest" }]
    let p := ofConditions [.compare "Owner" false (.anyOf [.string "@a", .int 7]),
      .compare "Tags" true (.anyOf [.bool true]),
      .between "At" Instant.zero.defaultText Instant.zero.defaultText, .holds "Taker" false,
      .compare "Kind" true (.one "k")]
    ofRecord r = .ok p ∧ (∀ f ∈ r, Plain f.column) ∧
      referred p.text.toList = ["Owner0", "Owner1", "Tags0", "AtFrom", "AtTo", "Kind"] := by
  intro r p
  have hok : ofRecord r = .ok p := rfl
  have hcolumns : r.map FieldOf.column = ["Owner", "Tags", "Empty", "At", "Taker", "Kind"] := rfl
  have hplain : ∀ column ∈ r.map FieldOf.column, Plain column := by
    rw [hcolumns]
    simp [Plain, endsPlaceholder]
  have hr : ∀ f ∈ r, Plain f.column := List.forall_mem_map.1 hplain
  exact ⟨hok, hr, (referred_text hok hr).trans rfl⟩

end Predicate

end QueryClauses
