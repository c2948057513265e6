import QueryClauses.Proofs.Json.Reading

/-! Values made of strings, arrays and objects spell themselves: their text, which has no blanks, is one of
those that are read as them. -/

namespace QueryClauses.Json

variable {items : List Json} {members : List (String × Json)}

theorem spells_text_ofString (s : String) : Spells (ofString s) (ofString s).text.toList := by
  have htext : (ofString s).text.toList = JsonText.quote s.toList := String.toList_ofList
  exact htext ▸ .string s

theorem spells_text_number {n : Numeral} (h : n.Written) : Spells (number n) (number n).text.toList := by
  have htext : (number n).text.toList = n.chars := String.toList_ofList
  exact htext ▸ .number h

theorem spellsItems_itemTexts (hne : items ≠ []) (h : ∀ item ∈ items, Spells item item.text.toList) :
    SpellsItems items (",".intercalate (itemTexts items)).toList := by
  induction items with
  | nil => exact absurd rfl hne
  | cons item items ih =>
    obtain ⟨hitem, hitems⟩ := List.forall_mem_cons.1 h
    cases items with
    | nil => simpa [itemTexts] using SpellsItems.last hitem blank_nil
    | cons next items =>
      have hmore := SpellsItems.more hitem blank_nil blank_nil (ih (List.cons_ne_nil _ _) hitems)
      simpa [itemTexts] using hmore

theorem spells_text_array (h : ∀ item ∈ items, Spells item item.text.toList) :
    Spells (array items) (array items).text.toList := by
  cases items with
  | nil => exact .emptyArray blank_nil
  | cons item items =>
    have harray := Spells.array blank_nil (spellsItems_itemTexts (List.cons_ne_nil _ _) h)
    simpa [text] using harray

theorem spellsMembers_memberTexts (hne : members ≠ [])
    (h : ∀ member ∈ members, Spells member.2 member.2.text.toList) :
    SpellsMembers members (",".intercalate (memberTexts (keyed members))).toList := by
  induction members with
  | nil => exact absurd rfl hne
  | cons member members ih =>
    obtain ⟨hmember, hmembers⟩ := List.forall_mem_cons.1 h
    have hfirst := SpellsMember.mk member.1 blank_nil blank_nil hmember blank_nil
    cases members with
    | nil => simpa [keyed, memberTexts, stringText] using SpellsMembers.last hfirst
    | cons next members =>
      have hmore := SpellsMembers.more hfirst blank_nil (ih (List.cons_ne_nil _ _) hmembers)
      simpa [keyed, memberTexts, stringText] using hmore

theorem spells_text_ofMembers (h : ∀ member ∈ members, Spells member.2 member.2.text.toList) :
    Spells (ofMembers members) (ofMembers members).text.toList := by
  cases members with
  | nil => exact .emptyObject blank_nil
  | cons member members =>
    have hobject := Spells.object blank_nil (spellsMembers_memberTexts (List.cons_ne_nil _ _) h)
    simpa [keyed, ofMembers, text] using hobject

theorem denotes_text {value : Json} (h : Spells value value.text.toList) : Denotes value.text value :=
  ⟨[], _, [], blank_nil, h, blank_nil, by simp⟩

end QueryClauses.Json
