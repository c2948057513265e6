import QueryClauses.Proofs.Spec.Validation
import QueryClauses.Proofs.Toml.Reading
import QueryClauses.Spec.Toml

/-! The TOML text of a specification is read as that specification, whatever its paths and its template
are, and it is refused just as the specification is. -/

namespace QueryClauses

open Text (startsIn_cons)
open Toml (line listed)
open TomlText (write)

namespace Toml

theorem isPlain_repeated : IsPlain "repeated" := ⟨by decide, by decide⟩

theorem isPlain_template : IsPlain "template" := ⟨by decide, by decide⟩

theorem toStrings?_array_map_string (texts : List String) :
    toStrings? (array (texts.map string)) = some texts := by
  rw [toStrings?, List.mapM_map]
  exact List.mapM_pure.trans (congrArg some (List.map_id texts))

theorem skipSpace_write (s r : List Char) : skipSpace (write s ++ r) = write s ++ r := by
  obtain ⟨q, body, hq, hquote⟩ := TomlText.exists_cons_write s
  rw [hq, List.cons_append]
  rcases hquote with rfl | rfl
  · exact skipSpace_cons rfl _
  · exact skipSpace_cons rfl _

end Toml

namespace Spec

variable (s : Spec)

theorem toList_toToml : s.toToml.toList =
    line "repeated" ('[' :: (listed s.repeated.toList ++ ']' :: '\n' ::
      line "template" (write s.template.toList ++ ['\n']))) := by
  have hlisted : (", ".intercalate (s.repeated.toList.map quoted)).toList = listed s.repeated.toList := by
    rw [String.toList_intercalate, List.map_map]
    exact congrArg _ (List.map_congr_left fun path _ => String.toList_ofList)
  have hquoted : (quoted s.template).toList = write s.template.toList := String.toList_ofList
  have hopen : "repeated = [".toList = "repeated".toList ++ [' ', '=', ' ', '['] := by decide
  have hclose : "]\n".toList = [']', '\n'] := by decide
  have hkey : "template = ".toList = "template".toList ++ [' ', '=', ' '] := by decide
  have hend : "\n".toList = ['\n'] := by decide
  -- for any texts: those in the rewriting would be unfolded to their bytes
  have hparts (a b c d e f : String) : (a ++ b ++ c ++ d ++ e ++ f).toList =
      a.toList ++ b.toList ++ c.toList ++ d.toList ++ e.toList ++ f.toList := by
    simp only [String.toList_append]
  refine (hparts _ _ _ _ _ _).trans ?_
  rw [hopen, hlisted, hclose, hkey, hquoted, hend]
  simp only [line, List.append_assoc, List.cons_append, List.nil_append]

/-- Each line takes a step, and within the first one each path does. -/
theorem statements?_toToml {steps : Nat} (hsteps : s.repeated.toList.length < steps) :
    Toml.statements? (steps + 3) s.toToml.toList =
      some [.entry ["repeated"] (.array (s.repeated.toList.map .string)),
        .entry ["template"] (.string s.template)] := by
  have hrepeated (rest) :
      Toml.scan? (steps + 2) Toml.maxDepth ('[' :: (listed s.repeated.toList ++ ']' :: rest)) =
        some (.array (s.repeated.toList.map .string), rest) :=
    Toml.scan?_listed (by omega) (by decide) rest
  have htemplate : Toml.scan? (steps + 1) Toml.maxDepth (write s.template.toList ++ ['\n']) =
      some (.string s.template, ['\n']) := Toml.scan?_write s.template (startsIn_cons (by decide))
  have hlast : Toml.statements? (steps + 1) [] = some [] := rfl
  rw [toList_toToml, Toml.statements?_line Toml.isPlain_repeated (Toml.skipSpace_cons rfl _) (hrepeated _),
    Toml.statements?_line Toml.isPlain_template (Toml.skipSpace_write _ _) htemplate, hlast]
  rfl

theorem assemble?_entries (repeated template : Toml) :
    TomlStatement.assemble? [.entry ["repeated"] repeated, .entry ["template"] template] =
      some [("repeated", repeated), ("template", template)] := rfl

theorem parse?_toToml : Toml.parse? s.toToml =
    some [("repeated", .array (s.repeated.toList.map .string)), ("template", .string s.template)] := by
  have hlength : s.repeated.toList.length < s.toToml.toList.length := by
    have hlisted := Toml.length_le_length_listed s.repeated.toList
    rw [toList_toToml, line]
    simp only [List.length_append, List.length_cons]
    omega
  obtain ⟨steps, hsteps⟩ : ∃ n, 2 * s.toToml.toList.length + 2 = n + 3 :=
    ⟨2 * s.toToml.toList.length - 1, by omega⟩
  have hstatements := statements?_toToml s (show s.repeated.toList.length < steps by omega)
  rw [← hsteps] at hstatements
  have hfirst : ∃ r, s.toToml.toList = 'r' :: r := ⟨_, toList_toToml s⟩
  obtain ⟨r, hr⟩ := hfirst
  rw [Toml.parse?_eq_assemble? hr (by decide) hstatements, assemble?_entries]

theorem ofToml?_entries (paths : List String) (template : String) :
    ofToml? [("repeated", .array (paths.map .string)), ("template", .string template)] =
      some ⟨.ofList paths, template⟩ := by
  have hfields : fieldNames.mapM
      (Toml.field? · [("repeated", .array (paths.map .string)), ("template", .string template)]) =
        some [some (.array (paths.map .string)), some (.string template)] := rfl
  rw [ofToml?, hfields]
  simp [Toml.toStrings?_array_map_string, Toml.toString?, ofFields]

/-- The text of a specification is read as that specification if it is accepted, and otherwise it is refused
by the error that refuses the specification. -/
theorem parseToml_toToml : parseToml s.toToml = s.validate ∧
    (((∀ path ∈ s.repeated, "" ∉ Path.segments path) ∧ parseToml s.toToml = .ok s) ∨
      ∃ path ∈ s.repeated, "" ∈ Path.segments path ∧ parseToml s.toToml =
        .error (.invalidSpec ("repeated column '" ++ path ++ "' has an empty segment"))) := by
  have hparse : parseToml s.toToml = s.validate := by
    rw [parseToml, parse?_toToml, Option.bind_some, ofToml?_entries, PathSet.ofList_toList]
  refine ⟨hparse, ?_⟩
  rw [hparse]
  by_cases h : ∀ path ∈ s.repeated, "" ∉ Path.segments path
  · exact .inl ⟨h, validate_of_segments h⟩
  · simp only [not_forall, not_not] at h
    obtain ⟨path, hpath, hempty⟩ := h
    exact .inr (validate_of_empty_segment hpath hempty)

end Spec

end QueryClauses
