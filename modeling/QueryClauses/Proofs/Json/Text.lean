import QueryClauses.Json.Parser

/-! Strings between quotes are read back as they were, whatever characters they have. -/

namespace QueryClauses

theorem Hex.number?_lowerPair {n : Nat} (h : n < 256) :
    Hex.number? ('0' :: '0' :: Hex.lowerPair n) = some n := by
  have hall : ∀ m : Fin 256, Hex.number? ('0' :: '0' :: Hex.lowerPair m) = some m.val := by decide +kernel
  exact hall ⟨n, h⟩

namespace JsonText

variable {r : List Char}

/-- A unit that is no half of a pair is a character, whatever follows it. -/
theorem text?_unit_cons {u : Nat} (h : u < 0xd800) (ps : List Piece) :
    text? (.unit u :: ps) = (text? ps).map (Char.ofNat u :: ·) := by
  have hhigh : isHighSurrogate u = false := by
    simp [isHighSurrogate]
    omega
  have hlow : isLowSurrogate u = false := by
    simp [isLowSurrogate]
    omega
  cases ps with
  | nil => simp [text?, hhigh, hlow]
  | cons p ps =>
    cases p with
    | char d => simp [text?, hhigh, hlow]
    | unit v => rw [text?]; simp [hhigh, hlow]

theorem scan?_unit (c : Char) (h : c.toNat < 256) :
    scan? (['\\', 'u', '0', '0'] ++ Hex.lowerPair c.toNat ++ r) =
      (scan? r).map fun (ps, r) => (.unit c.toNat :: ps, r) := by
  have hn := Hex.number?_lowerPair h
  unfold Hex.lowerPair at hn ⊢
  simp only [List.cons_append, List.nil_append]
  rw [scan?, hn]
  cases scan? r <;> rfl

/-- A character is read as one piece, which stands for it. -/
theorem exists_piece (c : Char) : ∃ p,
    (∀ r, scan? (escape c ++ r) = (scan? r).map fun (ps, r) => (p :: ps, r)) ∧
      ∀ ps, text? (p :: ps) = (text? ps).map (c :: ·) := by
  have hshort {d e : Char} (he : ofEscape? e = some d) (hu : e ≠ 'u') (r : List Char) :
      scan? ('\\' :: e :: r) = (scan? r).map fun (ps, r) => (.char d :: ps, r) := by
    rw [scan?, he]
    · cases scan? r <;> rfl
    · rintro a b c d r rfl
      exact absurd rfl hu
  unfold escape
  iterate 7
    split
    · next h =>
      subst h
      exact ⟨.char _, hshort rfl (by decide), fun ps => rfl⟩
  split
  · next h =>
    have hlt : c.toNat < 32 := h
    refine ⟨.unit c.toNat, fun r => scan?_unit c (by omega), fun ps => ?_⟩
    rw [text?_unit_cons (by omega), Char.ofNat_toNat]
  · next hquote hslash _ _ _ _ _ hcontrol =>
    refine ⟨.char c, fun r => ?_, fun ps => rfl⟩
    rw [List.singleton_append, scan?]
    · simp [hcontrol, hslash]
    · exact hquote
    · exact fun _ _ _ _ _ h _ => hslash h
    · exact fun _ _ h _ => hslash h

theorem scan?_flatMap_escape (s r : List Char) :
    ∃ ps, scan? (s.flatMap escape ++ '"' :: r) = some (ps, r) ∧ text? ps = some s := by
  induction s with
  | nil => exact ⟨[], rfl, rfl⟩
  | cons c s ih =>
    obtain ⟨ps, hscan, htext⟩ := ih
    obtain ⟨p, hp, hpt⟩ := exists_piece c
    refine ⟨p :: ps, ?_, ?_⟩
    · rw [List.flatMap_cons, List.append_assoc, hp, hscan, Option.map_some]
    · rw [hpt, htext, Option.map_some]

end JsonText

/-- A string is read back from behind its opening quote up to its closing one. -/
theorem Json.scanString?_quote (s : String) (r : List Char) :
    ∃ body, JsonText.quote s.toList ++ r = '"' :: body ∧ Json.scanString? body = some (some s, r) := by
  obtain ⟨ps, hscan, htext⟩ := JsonText.scan?_flatMap_escape s.toList r
  refine ⟨s.toList.flatMap JsonText.escape ++ '"' :: r, by simp [JsonText.quote], ?_⟩
  simp [scanString?, hscan, htext]

end QueryClauses
