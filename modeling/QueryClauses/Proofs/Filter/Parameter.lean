import QueryClauses.Filter.Parameter
import QueryClauses.Proofs.Json.Writing
import QueryClauses.Proofs.Numeral.Value

/-! A parameter is read back from its JSON with its kind, although the kind is not written: the texts of the four
kinds do not overlap. A string is between quotes, whatever its characters look like; an integer has no point; a
float has one, or a power of ten; and no kind has the text of a float that is not finite. -/

namespace QueryClauses

namespace Scalar

theorem spells_text_toJson (value : Scalar) : Json.Spells value.toJson value.toJson.text.toList := by
  cases value with
  | string s => exact Json.spells_text_ofString s
  | bool b =>
    cases b with
    | true => exact .yes
    | false => exact .no
  | int n => exact Json.spells_text_number (Numeral.written_ofInt n.toInt)
  | float x =>
    rw [toJson]
    split
    · exact Json.spells_text_number (FloatLayout.written_numeral _ x)
    · exact .null

theorem ofJson?_int (n : Int64) : ofJson? (int n).toJson = some (int n) := by
  rw [toJson, ofJson?, Numeral.toInt64?_ofInt]

theorem ofJson?_finite {x : Binary64} (hx : x.isFinite = true) :
    ∃ y, ofJson? (float x).toJson = some (float y) := by
  obtain ⟨y, hy⟩ := Option.isSome_iff_exists.1 (Numeral.isSome_toBinary64?_numeral hx)
  refine ⟨y, ?_⟩
  rw [toJson, if_pos hx, ofJson?, Numeral.toInt64?_of_not_integer (FloatLayout.isInteger_numeral rfl x), hy]
  rfl

end Scalar

namespace Parameter

theorem denotes_text_toJson (p : Parameter) : Json.Denotes p.toJson.text p.toJson := by
  refine Json.denotes_text (Json.spells_text_ofMembers ?_)
  refine List.forall_mem_cons.2 ⟨Json.spells_text_ofString p.name, List.forall_mem_cons.2 ⟨?_, nofun⟩⟩
  exact p.value.spells_text_toJson

theorem ofJson?_toJson (p : Parameter) :
    ofJson? p.toJson = (Scalar.ofJson? p.value.toJson).map fun value => ⟨p.name, value⟩ := by
  have hfields : p.toJson.fields? [["name"], ["value"]] =
      some [some (.ofString p.name), some p.value.toJson] := rfl
  have hname : (Json.ofString p.name).toString? = some p.name := rfl
  rw [ofJson?, hfields]
  simp only [hname, Option.bind_eq_bind, Option.bind_some]
  exact Option.map_eq_bind.symm

/-- The name is kept, and the value is read by itself. -/
theorem parseJson_text (p : Parameter) :
    parseJson p.toJson.text =
      match Scalar.ofJson? p.value.toJson with
      | some value => .ok ⟨p.name, value⟩
      | none => .error (.malformedJson "no parameter") := by
  rw [parseJson, Json.parse?_of_denotes (denotes_text_toJson p), Option.bind_some, ofJson?_toJson]
  cases Scalar.ofJson? p.value.toJson <;> rfl

/-- From the JSON text of a parameter the same parameter is read, if its value is a string, a truth value or an
integer, and a parameter of the same name with a float, if its value is a finite float; the text of any other float
is refused. -/
theorem parseJson_text_toJson (p : Parameter) :
    match p.value with
    | .float x =>
      if x.isFinite then ∃ y, parseJson p.toJson.text = .ok { p with value := .float y }
      else ∃ reason, parseJson p.toJson.text = .error (.malformedJson reason)
    | _ => parseJson p.toJson.text = .ok p := by
  have hparse := p.parseJson_text
  obtain ⟨name, value⟩ := p
  cases value with
  | string s => exact hparse
  | bool b => exact hparse
  | int n =>
    dsimp only at hparse ⊢
    rwa [Scalar.ofJson?_int] at hparse
  | float x =>
    dsimp only at hparse ⊢
    split
    · next hx =>
      obtain ⟨y, hy⟩ := Scalar.ofJson?_finite hx
      rw [hy] at hparse
      exact ⟨y, hparse⟩
    · next hx =>
      rw [Scalar.toJson, if_neg hx] at hparse
      exact ⟨_, hparse⟩

/-- A float that is an integer keeps its point. -/
example : (toJson ⟨"rate", .float ⟨0x4000000000000000⟩⟩).text = "\x7b\"name\":\"rate\",\"value\":2.0\x7d" := by
  decide +kernel

end Parameter

end QueryClauses
