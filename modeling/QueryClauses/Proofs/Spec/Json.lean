import QueryClauses.Proofs.Json.Writing
import QueryClauses.Proofs.Spec.Validation
import QueryClauses.Spec.Json

/-! Specifications are read from JSON as they stand there: the members for the two fields may have either
of their names and any order, blanks may stand between the tokens, and other members do not matter. -/

namespace QueryClauses

namespace Json

variable {key : String} {keys : List String} {value : Json} {members rest : List (String × Json)}

theorem valuesAt_keyed (keys : List String) (members : List (String × Json)) :
    valuesAt keys (keyed members) =
      members.filterMap fun m => if m.1 ∈ keys then some m.2 else none := by
  simp [valuesAt, keyed, List.filterMap_map]

/-- A field is found under one of its names, wherever it stands. -/
theorem valuesAt_of_perm (hkey : key ∈ keys) (hmembers : members.Perm ((key, value) :: rest))
    (hrest : ∀ m ∈ rest, m.1 ∉ keys) : valuesAt keys (keyed members) = [value] := by
  have hnone : rest.filterMap (fun m => if m.1 ∈ keys then some m.2 else none) = [] :=
    List.filterMap_eq_nil_iff.2 fun m hm => if_neg (hrest m hm)
  have hperm := hmembers.filterMap fun m => if m.1 ∈ keys then some m.2 else none
  rw [List.filterMap_cons, hnone] at hperm
  simp only [if_pos hkey] at hperm
  rw [valuesAt_keyed]
  exact List.perm_singleton.1 hperm

theorem ofMembers_eq (members : List (String × Json)) : ofMembers members = object (keyed members) := rfl

theorem hasPlainKeys_keyed (members : List (String × Json)) : hasPlainKeys (keyed members) = true := by
  simp [hasPlainKeys, keyed]

theorem toStrings?_array_map_ofString (texts : List String) :
    toStrings? (.array (texts.map ofString)) = some texts := by
  rw [toStrings?, List.mapM_map]
  exact List.mapM_pure.trans (congrArg some (List.map_id texts))

end Json

namespace Spec

variable {key key' text template : String} {paths : List String} {value : Json} {s : Spec}
  {members others : List (String × Json)}

theorem ofJson?_of_perm (hkey : key ∈ ["repeated", "repeated_columns"])
    (hkey' : key' ∈ ["template", "sql_query"])
    (hmembers : members.Perm ((key, .array (paths.map .ofString)) :: (key', .ofString template) :: others))
    (hothers : ∀ m ∈ others, m.1 ∉ ["repeated", "repeated_columns", "template", "sql_query"]) :
    ofJson? (.ofMembers members) = some ⟨.ofList paths, template⟩ := by
  have hrepeated : Json.valuesAt ["repeated", "repeated_columns"] (Json.keyed members) =
      [.array (paths.map .ofString)] := by
    refine Json.valuesAt_of_perm hkey hmembers (List.forall_mem_cons.2 ⟨fun h => ?_, fun m hm h => ?_⟩)
    · simp only [List.mem_cons, List.not_mem_nil, or_false] at hkey' h
      rcases hkey' with rfl | rfl <;> simp at h
    · exact hothers m hm (List.mem_append_left ["template", "sql_query"] h)
  have htemplate : Json.valuesAt ["template", "sql_query"] (Json.keyed members) = [.ofString template] := by
    refine Json.valuesAt_of_perm hkey' (hmembers.trans (.swap _ _ _))
      (List.forall_mem_cons.2 ⟨fun h => ?_, fun m hm h => ?_⟩)
    · simp only [List.mem_cons, List.not_mem_nil, or_false] at hkey h
      rcases hkey with rfl | rfl <;> simp at h
    · exact hothers m hm (List.mem_append_right ["repeated", "repeated_columns"] h)
  have hfields : (Json.ofMembers members).fields? fieldNames =
      some [some (.array (paths.map .ofString)), some (.ofString template)] := by
    rw [Json.ofMembers_eq, Json.fields?, if_pos (Json.hasPlainKeys_keyed members), fieldNames,
      List.mapM_cons, List.mapM_cons, hrepeated, htemplate]
    rfl
  rw [ofJson?, hfields]
  simp [Json.toStrings?_array_map_ofString, Json.toString?, Json.ofString, ofFields]

theorem parseJson_eq_validate (htext : Json.Denotes text value) (hs : ofJson? value = some s) :
    parseJson text = s.validate := by
  rw [parseJson, Json.parse?_of_denotes htext, Option.bind_some, hs]

theorem denotes_text_toJson (s : Spec) : Json.Denotes s.toJson.text s.toJson := by
  refine Json.denotes_text (Json.spells_text_ofMembers ?_)
  refine List.forall_mem_cons.2 ⟨Json.spells_text_array ?_, List.forall_mem_cons.2 ⟨?_, nofun⟩⟩
  · exact List.forall_mem_map.2 fun path _ => Json.spells_text_ofString path
  · exact Json.spells_text_ofString s.template

theorem ofJson?_toJson (s : Spec) : ofJson? s.toJson = some s := by
  have h : ofJson? s.toJson = some ⟨.ofList s.repeated.toList, s.template⟩ :=
    ofJson?_of_perm List.mem_cons_self List.mem_cons_self (List.Perm.refl _) nofun
  rwa [PathSet.ofList_toList] at h

/-- From a text that has a list of paths and a template for the two fields, the specification of the set
of those paths and of that template is read, and it is refused just if a path has an empty segment. The
text of a specification that is accepted is read as that specification. -/
theorem parseJson_of_denotes (htext : Json.Denotes text (.ofMembers members))
    (hkey : key ∈ ["repeated", "repeated_columns"]) (hkey' : key' ∈ ["template", "sql_query"])
    (hmembers : members.Perm ((key, .array (paths.map .ofString)) :: (key', .ofString template) :: others))
    (hothers : ∀ m ∈ others, m.1 ∉ ["repeated", "repeated_columns", "template", "sql_query"]) :
    ((∀ path ∈ paths, "" ∉ Path.segments path) →
        ∃ s : Spec, parseJson text = .ok s ∧ (∀ path, path ∈ s.repeated ↔ path ∈ paths) ∧
          s.template = template) ∧
      ((∃ path ∈ paths, "" ∈ Path.segments path) → ∃ reason, parseJson text = .error (.invalidSpec reason)) ∧
      ∀ s : Spec, s.validate = .ok s → parseJson s.toJson.text = .ok s := by
  have hparse := parseJson_eq_validate htext (ofJson?_of_perm hkey hkey' hmembers hothers)
  refine ⟨fun h => ?_, ?_, fun s hs => ?_⟩
  · refine ⟨⟨.ofList paths, template⟩, ?_, fun path => PathSet.mem_ofList, rfl⟩
    exact hparse.trans (validate_of_segments fun path hpath => h path (PathSet.mem_ofList.1 hpath))
  · rintro ⟨path, hpath, hempty⟩
    obtain ⟨first, -, -, hfirst⟩ :=
      validate_of_empty_segment (s := ⟨.ofList paths, template⟩) (PathSet.mem_ofList.2 hpath) hempty
    exact ⟨_, hparse.trans hfirst⟩
  · exact (parseJson_eq_validate (denotes_text_toJson s) (ofJson?_toJson s)).trans hs

/-- The other names in the other order, a member that says nothing, escapes, and a path that is there
twice. -/
def escapedText : String :=
  "\x7b \"note\" : null, \"sql_query\":\"\\\"\\\\\\u0001\" ,\n\"repeated_columns\":[\"b.c\", \"a\\n\",\"b.c\"]\x7d\n"

def escapedMembers : List (String × Json) :=
  [("note", .null), ("sql_query", .ofString "\"\\\x01"),
    ("repeated_columns", .array (["b.c", "a\n", "b.c"].map .ofString))]

theorem denotes_escapedText : Json.Denotes escapedText (.ofMembers escapedMembers) := by
  have hnil : Json.Blank [] := Json.blank_nil
  have hspace : Json.Blank [' '] := by decide
  have hline : Json.Blank ['\n'] := by decide
  have hnote := Json.SpellsMember.mk "note" hspace hspace .null hnil
  have hquery := Json.SpellsMember.mk "sql_query" hnil hnil (.string "\"\\\x01") hspace
  have hpaths := Json.SpellsItems.more (.string "b.c") hnil hspace
    (.more (.string "a\n") hnil hnil (.last (.string "b.c") hnil))
  have hcolumns := Json.SpellsMember.mk "repeated_columns" hnil hnil (.array hnil hpaths) hnil
  exact ⟨[], _, ['\n'], hnil, .object hspace (.more hnote hspace (.more hquery hline (.last hcolumns))),
    hline, by decide⟩

theorem parseJson_of_denotes_escaped :
    Json.Denotes escapedText (.ofMembers escapedMembers) ∧
      ∃ s : Spec, parseJson escapedText = .ok s ∧
        (∀ path, path ∈ s.repeated ↔ path ∈ ["b.c", "a\n", "b.c"]) ∧ s.template = "\"\\\x01" := by
  have hkey : "repeated_columns" ∈ ["repeated", "repeated_columns"] := by decide
  have hkey' : "sql_query" ∈ ["template", "sql_query"] := by decide
  have hmembers : escapedMembers.Perm (("repeated_columns", .array (["b.c", "a\n", "b.c"].map .ofString)) ::
      ("sql_query", .ofString "\"\\\x01") :: [("note", .null)]) := (List.reverse_perm _).symm
  have hnote : ∀ m ∈ [("note", Json.null)],
      m.1 ∉ ["repeated", "repeated_columns", "template", "sql_query"] := by decide
  exact ⟨denotes_escapedText,
    (parseJson_of_denotes denotes_escapedText hkey hkey' hmembers hnote).1 (by decide)⟩

end Spec

end QueryClauses
