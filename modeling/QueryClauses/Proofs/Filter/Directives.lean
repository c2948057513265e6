import Mathlib.Data.List.Forall2
import QueryClauses.Proofs.Filter.Conditions
import QueryClauses.Proofs.Filter.Tags

/-! Which tags say the same. Nothing counts but the first token and which of the known directives are among the
others. Tags that agree in this give the same options, and records that differ in such tags alone the same predicate
or the same fault. -/

namespace QueryClauses

namespace FieldOptions

variable {tag other name : String} {directives others added : List String}

/-- A tag is written in just one way as tokens with commas between them. -/
theorem existsUnique_tokens (tag : String) : ∃! parts : List String,
    parts ≠ [] ∧ (∀ part ∈ parts, ',' ∉ part.toList) ∧ ofTokens parts = tag := by
  refine ⟨tokens tag, ⟨?_, fun _ => comma_not_mem_of_mem_tokens, ofTokens_tokens tag⟩, ?_⟩
  · obtain ⟨name, directives, h⟩ := exists_cons_tokens tag
    exact h ▸ List.cons_ne_nil _ _
  · rintro parts ⟨hne, hcomma, rfl⟩
    exact (tokens_ofTokens hne hcomma).symm

/-! ### Tags that agree -/

/-- Tags with the same first token and the same of the known directives behind it. -/
@[mk_iff agrees_def]
structure Agrees (tag other : String) : Prop where
  head : (tokens tag).head? = (tokens other).head?
  omitEmpty : "omitempty" ∈ (tokens tag).tail ↔ "omitempty" ∈ (tokens other).tail
  unnest : "unnest" ∈ (tokens tag).tail ↔ "unnest" ∈ (tokens other).tail

theorem named_name_inj : (named name).name = (named other).name ↔ name = other := by
  unfold named
  by_cases hn : name = "" <;> by_cases ho : other = "" <;> simp [hn, ho, eq_comm]

theorem agrees_iff (h : tokens tag = name :: directives) {first : String} (ho : tokens other = first :: others) :
    Agrees tag other ↔ name = first ∧ ("omitempty" ∈ directives ↔ "omitempty" ∈ others) ∧
      ("unnest" ∈ directives ↔ "unnest" ∈ others) := by
  rw [agrees_def, h, ho]
  simp

/-- Tags give the same options just if they agree. -/
theorem parse_eq_parse_iff : parse tag = parse other ↔ Agrees tag other := by
  obtain ⟨name, directives, h⟩ := exists_cons_tokens tag
  obtain ⟨first, others, ho⟩ := exists_cons_tokens other
  rw [agrees_iff h ho, parse_eq h, parse_eq ho, mk.injEq, named_name_inj]
  simp

/-- The order of the directives says nothing, and neither do those that are repeated or not known. -/
theorem parse_ofTokens_of_perm (h : ∀ part ∈ name :: directives, ',' ∉ part.toList)
    (hp : directives.Perm (added ++ others))
    (hadded : ∀ d ∈ added, d ∈ others ∨ d ≠ "omitempty" ∧ d ≠ "unnest") :
    parse (ofTokens (name :: directives)) = parse (ofTokens (name :: others)) := by
  have hsub : name :: others ⊆ name :: directives :=
    List.cons_subset_cons _ fun d hd => hp.mem_iff.2 (List.mem_append_right _ hd)
  have hmem (d : String) (hknown : d = "omitempty" ∨ d = "unnest") : d ∈ directives ↔ d ∈ others := by
    rw [hp.mem_iff, List.mem_append]
    refine ⟨fun hd => hd.elim (fun ha => ?_) id, .inr⟩
    exact (hadded d ha).resolve_right fun hne => hknown.elim hne.1 hne.2
  rw [parse_eq_parse_iff, agrees_iff (tokens_ofTokens (List.cons_ne_nil _ _) h)
    (tokens_ofTokens (List.cons_ne_nil _ _) fun part hpart => h part (hsub hpart))]
  exact ⟨rfl, hmem _ (.inl rfl), hmem _ (.inr rfl)⟩

end FieldOptions

/-! ### Records -/

namespace FieldOf

variable {f g : Field}

/-- Fields that differ in nothing but their tags, which agree; no tag is as good as an empty one. -/
structure Retagged (f g : Field) : Prop where
  name_eq : f.name = g.name
  value_eq : f.value = g.value
  format_eq : f.format = g.format
  tag : FieldOptions.Agrees (f.tag.getD "") (g.tag.getD "")

theorem condition_of_retagged (h : f.Retagged g) : f.condition = g.condition := by
  have hoptions : f.options = g.options := FieldOptions.parse_eq_parse_iff.2 h.tag
  rw [condition_eq, condition_eq, column, column, hoptions, h.name_eq, h.value_eq, h.format_eq]

theorem map_condition_of_retagged {r s : Record} (h : List.Forall₂ Retagged r s) :
    r.map condition = s.map condition := by
  induction h with
  | nil => rfl
  | cons hfg _ ih => rw [List.map_cons, List.map_cons, condition_of_retagged hfg, ih]

end FieldOf

namespace FieldOptions

/-- A tag is in one way a row of tokens with commas between them. The first of them is the name, if it is not
empty, and a flag is set just if its directive is among the others, as when these are read one by one. So it says
nothing how they are ordered, repeated or mixed with others, tags give the same options just if they agree, and
records with tags that agree have the same predicate or the same fault. -/
theorem parse_ofTokens :
    (∀ tag : String, ∃! parts : List String,
        parts ≠ [] ∧ (∀ part ∈ parts, ',' ∉ part.toList) ∧ ofTokens parts = tag) ∧
      (∀ (name : String) (directives : List String), (∀ part ∈ name :: directives, ',' ∉ part.toList) →
        let o := parse (ofTokens (name :: directives))
        o.name = (if name = "" then none else some name) ∧ (o.omitEmpty ↔ "omitempty" ∈ directives) ∧
          (o.unnest ↔ "unnest" ∈ directives) ∧ o = directives.foldl heed (named name)) ∧
      (∀ (name : String) (directives added others : List String),
        (∀ part ∈ name :: directives, ',' ∉ part.toList) → directives.Perm (added ++ others) →
        (∀ d ∈ added, d ∈ others ∨ d ≠ "omitempty" ∧ d ≠ "unnest") →
        parse (ofTokens (name :: directives)) = parse (ofTokens (name :: others))) ∧
      (∀ tag other : String, parse tag = parse other ↔ Agrees tag other) ∧
      ∀ r s : Record, List.Forall₂ FieldOf.Retagged r s →
        Predicate.ofValue (.record r) = Predicate.ofValue (.record s) := by
  refine ⟨existsUnique_tokens, fun name directives h => ?_, fun _ _ _ _ => parse_ofTokens_of_perm,
    fun _ _ => parse_eq_parse_iff, fun r s h => ?_⟩
  · have htokens := tokens_ofTokens (List.cons_ne_nil _ _) h
    refine ⟨?_, ?_, ?_, parse_eq_foldl htokens⟩
    · rw [parse_eq htokens]
      rfl
    · simp [parse_eq htokens]
    · simp [parse_eq htokens]
  · exact Predicate.ofRecord_congr (FieldOf.map_condition_of_retagged h)

/-- A directive in the place of the name, one that is repeated, some that are not known, and no tag at all. -/
theorem parse_ofTokens_name_like_directive :
    let r : Record := [
      { name := "Kind", value := .list [.scalar (.string "a")], tag := some "omitempty,x,unnest,unnest" },
      { name := "Taken", value := .scalar (.bool false), tag := some ",Omitempty" },
      { name := "Owner", value := .scalar (.string ""), tag := none }]
    let s : Record := [
      { name := "Kind", value := .list [.scalar (.string "a")], tag := some "omitempty,unnest, omitempty" },
      { name := "Taken", value := .scalar (.bool false), tag := some "" },
      { name := "Owner", value := .scalar (.string ""), tag := some ",string" }]
    parse "omitempty,x,unnest,unnest" = ⟨some "omitempty", false, true⟩ ∧
      parse "omitempty,x,unnest,unnest" = parse "omitempty,unnest" ∧ List.Forall₂ FieldOf.Retagged r s ∧
      Predicate.ofValue (.record r) = Predicate.ofValue (.record s) := by
  intro r s
  obtain ⟨-, hread, hperm, -, hrecord⟩ := parse_ofTokens
  have hcomma : ∀ part ∈ ["omitempty", "x", "unnest", "unnest"], ',' ∉ part.toList := by decide +kernel
  have hplain : ∀ d ∈ ["x", "unnest"], d ∈ ["unnest"] ∨ d ≠ "omitempty" ∧ d ≠ "unnest" := by decide
  have hretagged : List.Forall₂ FieldOf.Retagged r s :=
    .cons ⟨rfl, rfl, rfl, by decide +kernel, by decide +kernel, by decide +kernel⟩ <|
    .cons ⟨rfl, rfl, rfl, by decide +kernel, by decide +kernel, by decide +kernel⟩ <|
    .cons ⟨rfl, rfl, rfl, by decide +kernel, by decide +kernel, by decide +kernel⟩ .nil
  refine ⟨?_, ?_, hretagged, hrecord r s hretagged⟩
  · exact (hread "omitempty" ["x", "unnest", "unnest"] hcomma).2.2.2
  · exact hperm "omitempty" ["x", "unnest", "unnest"] ["x", "unnest"] ["unnest"] hcomma (.refl _) hplain

end FieldOptions

end QueryClauses
