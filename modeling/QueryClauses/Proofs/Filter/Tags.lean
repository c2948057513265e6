import QueryClauses.Filter.FieldOptions
import QueryClauses.Path
import QueryClauses.Proofs.Text

/-! Tags as rows of tokens. A tag is its tokens joined with commas. A directive that is read sets its flag or says
nothing, and no later one takes the flag back, so what a tag says is said by the first token and by which
directives are among the others. -/

namespace QueryClauses.FieldOptions

variable {tag name : String} {directives : List String}

/-- The parts of a tag between its commas, of which there is always at least one. -/
def tokens (tag : String) : List String := (tag.toList.splitOn ',').map String.ofList

def ofTokens (tokens : List String) : String := ",".intercalate tokens

theorem comma_not_mem_of_mem_tokens {token : String} (h : token ∈ tokens tag) : ',' ∉ token.toList := by
  obtain ⟨part, hp, rfl⟩ := List.mem_map.1 h
  rw [String.toList_ofList]
  exact Path.not_mem_of_mem_splitOn hp

theorem exists_cons_tokens (tag : String) : ∃ name directives, tokens tag = name :: directives :=
  List.exists_cons_of_ne_nil (by simp [tokens, List.splitOn_ne_nil])

theorem ofTokens_tokens (tag : String) : ofTokens (tokens tag) = tag := by
  apply String.toList_inj.1
  have hofList : String.toList ∘ String.ofList = id := by funext cs; simp
  rw [ofTokens, tokens, String.toList_intercalate, List.map_map, hofList, List.map_id]
  exact List.intercalate_splitOn ','

theorem tokens_ofTokens {parts : List String} (hne : parts ≠ []) (h : ∀ part ∈ parts, ',' ∉ part.toList) :
    tokens (ofTokens parts) = parts := by
  have hofList : String.ofList ∘ String.toList = id := by funext s; simp
  rw [tokens, ofTokens, Text.splitOn_intercalate rfl hne h, List.map_map, hofList, List.map_id]

/-! ### Reading directives one after the other -/

/-- A directive sets no flag but its own, and it takes none back. -/
theorem heed_eq (o : FieldOptions) (directive : String) : heed o directive =
    ⟨o.name, o.omitEmpty || directive = "omitempty", o.unnest || directive = "unnest"⟩ := by
  unfold heed
  by_cases ho : directive = "omitempty"
  · simp [ho]
  · by_cases hu : directive = "unnest" <;> simp [ho, hu]

theorem foldl_heed (o : FieldOptions) (directives : List String) : directives.foldl heed o =
    ⟨o.name, o.omitEmpty || directives.contains "omitempty", o.unnest || directives.contains "unnest"⟩ := by
  induction directives generalizing o with
  | nil => simp
  | cons directive directives ih =>
    rw [List.foldl_cons, ih, heed_eq]
    simp [Bool.or_assoc, eq_comm]

theorem parse_eq_foldl (h : tokens tag = name :: directives) : parse tag = directives.foldl heed (named name) := by
  rw [tokens] at h
  rw [parse, h]

theorem parse_eq (h : tokens tag = name :: directives) :
    parse tag = ⟨(named name).name, directives.contains "omitempty", directives.contains "unnest"⟩ := by
  rw [parse_eq_foldl h, foldl_heed]
  simp [named]

/-! ### Directives that are taken out -/

/-- The tag with a directive taken out wherever it stands. The first token is no directive. -/
def without (directive tag : String) : String :=
  ofTokens ((tokens tag).take 1 ++ ((tokens tag).drop 1).filter (· ≠ directive))

theorem parse_without (tag : String) :
    parse (without "omitempty" tag) = { parse tag with omitEmpty := false } := by
  obtain ⟨name, directives, h⟩ := exists_cons_tokens tag
  have hkept : tokens (without "omitempty" tag) = name :: directives.filter (· ≠ "omitempty") := by
    rw [without, h]
    refine tokens_ofTokens (List.cons_ne_nil _ _) fun part hp => ?_
    have hsub : name :: directives.filter (· ≠ "omitempty") ⊆ tokens tag := by
      rw [h]
      exact List.cons_subset_cons _ List.filter_sublist.subset
    exact comma_not_mem_of_mem_tokens (hsub hp)
  rw [parse_eq h, parse_eq hkept]
  simp

end QueryClauses.FieldOptions
