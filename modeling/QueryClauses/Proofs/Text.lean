/-! Texts that are put together of parts, and how the parts are found in them again. -/

namespace QueryClauses.Text

variable {c : Char} {sep : String} {parts : List String}

/-- Joined parts have no character that is neither in a part nor between them. -/
theorem not_mem_intercalate (hsep : c ∉ sep.toList) (h : ∀ part ∈ parts, c ∉ part.toList) :
    c ∉ (sep.intercalate parts).toList := by
  induction parts with
  | nil => simp
  | cons part parts ih =>
    obtain ⟨hpart, hparts⟩ := List.forall_mem_cons.1 h
    cases parts with
    | nil => rwa [String.intercalate_singleton]
    | cons next parts =>
      have hrest := ih hparts
      simp only [String.intercalate_cons_cons, String.toList_append, List.mem_append, not_or]
      exact ⟨⟨hpart, hsep⟩, hrest⟩

theorem mem_intercalate_of_mem {part : String} (hpart : part ∈ parts) (h : c ∈ part.toList) :
    c ∈ (sep.intercalate parts).toList := by
  induction parts with
  | nil => cases hpart
  | cons head parts ih =>
    cases parts with
    | nil =>
      rw [String.intercalate_singleton]
      exact List.mem_singleton.1 hpart ▸ h
    | cons next parts =>
      simp only [String.intercalate_cons_cons, String.toList_append, List.mem_append]
      rcases List.mem_cons.1 hpart with rfl | hpart
      · exact .inl (.inl h)
      · exact .inr (ih hpart)

/-- Parts that are joined by a character they do not have are found again. -/
theorem splitOn_intercalate (hsep : sep.toList = [c]) (hp : parts ≠ [])
    (h : ∀ part ∈ parts, c ∉ part.toList) :
    (sep.intercalate parts).toList.splitOn c = parts.map String.toList := by
  rw [String.toList_intercalate, hsep]
  exact List.splitOn_intercalate c (List.forall_mem_map.2 h) (by simpa using hp)

theorem eq_of_intercalate_eq {others : List String} (hsep : sep.toList = [c]) (hp : parts ≠ [])
    (ho : others ≠ []) (hparts : ∀ part ∈ parts, c ∉ part.toList)
    (hothers : ∀ part ∈ others, c ∉ part.toList) (h : sep.intercalate parts = sep.intercalate others) :
    parts = others := by
  have hmap : parts.map String.toList = others.map String.toList := by
    rw [← splitOn_intercalate hsep hp hparts, ← splitOn_intercalate hsep ho hothers, h]
  exact (List.map_inj_right fun _ _ hst => String.toList_inj.1 hst).1 hmap

/-- A text is found as it is in another one. -/
def Within (part whole : String) : Prop := ∃ before after, whole = before ++ part ++ after

theorem Within.refl (s : String) : Within s s := ⟨"", "", by simp⟩

theorem Within.trans {s t u : String} (hst : Within s t) (htu : Within t u) : Within s u := by
  obtain ⟨before, after, rfl⟩ := hst
  obtain ⟨before', after', rfl⟩ := htu
  exact ⟨before' ++ before, after ++ after', by simp only [String.append_assoc]⟩

/-! ### Marks -/

variable {marks rest others : List Char} {s t : String}

/-- A text without any of the given characters. -/
def Free (marks : List Char) (s : String) : Prop := ∀ c ∈ marks, c ∉ s.toList

/-- What is left of a text is empty or starts with one of the given characters. -/
def StartsIn (marks rest : List Char) : Prop := ∀ c ∈ rest.head?, c ∈ marks

-- by the list, not by all characters there are
instance : Decidable (Free marks s) := List.decidableBAll (fun c => c ∉ s.toList) marks

theorem StartsIn.nil : StartsIn marks [] := by
  intro c hc
  cases hc

theorem startsIn_cons (h : c ∈ marks) : StartsIn marks (c :: rest) := by
  intro d hd
  cases hd
  exact h

theorem startsIn_append (hs : s.toList.head? = some c) (h : c ∈ marks) : StartsIn marks (s.toList ++ rest) := by
  intro d hd
  rw [List.head?_append, hs] at hd
  cases hd
  exact h

theorem StartsIn.mono {more : List Char} (h : StartsIn marks rest) (hm : marks ⊆ more) : StartsIn more rest :=
  fun c hc => hm (h c hc)

theorem StartsIn.ne_cons (h : StartsIn marks rest) (hc : c ∉ marks) : rest ≠ c :: others := by
  rintro rfl
  exact hc (h c rfl)

theorem append_inj_of_startsIn {a b : List Char} (ha : ∀ c ∈ marks, c ∉ a) (hb : ∀ c ∈ marks, c ∉ b)
    (hrest : StartsIn marks rest) (hothers : StartsIn marks others) (h : a ++ rest = b ++ others) :
    a = b ∧ rest = others := by
  induction a generalizing b with
  | nil =>
    cases b with
    | nil => exact ⟨rfl, h⟩
    | cons d b =>
      subst h
      exact absurd List.mem_cons_self (hb d (hrest d rfl))
  | cons d a ih =>
    cases b with
    | nil =>
      obtain rfl : d :: (a ++ rest) = others := h
      exact absurd List.mem_cons_self (ha d (hothers d rfl))
    | cons e b =>
      obtain ⟨rfl, htail⟩ := List.cons.inj h
      obtain ⟨rfl, hrests⟩ := ih (fun c hc hm => ha c hc (List.mem_cons_of_mem _ hm))
        (fun c hc hm => hb c hc (List.mem_cons_of_mem _ hm)) htail
      exact ⟨rfl, hrests⟩

/-- A text without marks ends where the first mark after it stands. -/
theorem Free.append_inj (hs : Free marks s) (ht : Free marks t) (hrest : StartsIn marks rest)
    (hothers : StartsIn marks others) (h : s.toList ++ rest = t.toList ++ others) : s = t ∧ rest = others :=
  (append_inj_of_startsIn hs ht hrest hothers h).imp_left String.toList_inj.1

end QueryClauses.Text
