import Mathlib.Logic.Basic
import QueryClauses.Proofs.Text
import QueryClauses.Toml.Text

/-! Strings are read back as they were, whichever of the four forms they are written in. With escapes, a
character is read from the escape that stands for it. Without them, or on several lines, quotes may stand
for themselves, and then no three of them are in a row before the closing ones. -/

namespace QueryClauses

theorem Hex.number?_upperPair {n : Nat} (h : n < 256) :
    Hex.number? ('0' :: '0' :: Hex.upperPair n) = some n := by
  have hall : ∀ m : Fin 256, Hex.number? ('0' :: '0' :: Hex.upperPair m) = some m.val := by decide +kernel
  exact hall ⟨n, h⟩

namespace TomlText

open Text (StartsIn)

variable {c : Char} {cs s rest : List Char}

/-! ### Characters -/

/-- How a character may stand between double quotes: by a letter behind a backslash, by its number, or for
itself. -/
inductive Spells (c : Char) : List Char → Prop
  | letter {e : Char} (h : ofEscape? e = some c) : Spells c ['\\', e]
  | number {a b : Char} (h : (Hex.number? ['0', '0', a, b]).bind charOf? = some c) :
    Spells c ['\\', 'u', '0', '0', a, b]
  | plain (hcontrol : isControl c = false) (hslash : c ≠ '\\') (hquote : c ≠ '"') : Spells c [c]

theorem charOf?_toNat (c : Char) : charOf? c.toNat = some c := by
  have hvalid : c.toNat.isValidChar := c.valid
  rw [charOf?, if_pos hvalid, Char.ofNat_toNat]

theorem toNat_lt_of_isControl (h : isControl c = true) : c.toNat < 256 := by
  simp only [isControl, Bool.or_eq_true, Bool.and_eq_true, decide_eq_true_eq] at h
  rcases h with ⟨h, -⟩ | rfl
  · exact Nat.lt_trans h (by decide)
  · decide

theorem spells_escape (hquote : c ≠ '"') : Spells c (escape c) := by
  unfold escape
  iterate 5
    split
    · next h =>
      subst h
      exact .letter rfl
  split
  · next h =>
    have hn := Hex.number?_upperPair (toNat_lt_of_isControl h)
    refine .number (Eq.trans ?_ (charOf?_toNat c))
    exact congrArg (Option.bind · charOf?) hn
  · next hslash hcontrol => exact .plain (Bool.eq_false_iff.2 hcontrol) hslash hquote

theorem spells_escapeOneLine (c : Char) : Spells c (escapeOneLine c) := by
  unfold escapeOneLine
  split
  · next h =>
    subst h
    exact .letter rfl
  · next hquote =>
    split
    · next h =>
      subst h
      exact .letter rfl
    · exact spells_escape hquote

theorem exists_cons_of_spells (h : Spells c cs) : ∃ d ds, cs = d :: ds ∧ d ≠ '"' ∧ isControl d = false := by
  cases h with
  | letter | number => exact ⟨'\\', _, rfl, by decide, rfl⟩
  | plain hcontrol hslash hquote => exact ⟨c, [], rfl, hquote, hcontrol⟩

/-- What stands behind a backslash is no hexadecimal escape and no end of line. -/
theorem of_ofEscape?_eq_some {e : Char} (h : ofEscape? e = some c) :
    e ≠ 'u' ∧ e ≠ 'U' ∧ ∀ r, isLineBlank (e :: r) = false := by
  unfold ofEscape? at h
  split at h
  case h_8 => cases h
  all_goals exact ⟨by decide, by decide, fun r => rfl⟩

/-! ### One line -/

theorem scanBasic?_spells (h : Spells c cs) (r : List Char) :
    scanBasic? (cs ++ r) = (scanBasic? r).map fun (s, r) => (c :: s, r) := by
  cases h with
  | @letter e he =>
    obtain ⟨hu, hU, -⟩ := of_ofEscape?_eq_some he
    simp only [List.cons_append, List.nil_append]
    rw [scanBasic?, he]
    · rfl
    · exact fun _ _ _ _ _ h _ => hu h
    · exact fun _ _ _ _ _ _ _ _ _ h _ => hU h
  | number hn =>
    simp only [List.cons_append, List.nil_append]
    rw [scanBasic?, hn]
    rfl
  | plain hcontrol hslash hquote =>
    rw [List.singleton_append, scanBasic?]
    · simp [hcontrol, hslash]
    · exact hquote
    · exact fun _ _ _ _ _ h _ => hslash h
    · exact fun _ _ _ _ _ _ _ _ _ h _ => hslash h
    · exact fun _ _ h _ => hslash h

theorem scanBasic?_flatMap_escapeOneLine (s rest : List Char) :
    scanBasic? (s.flatMap escapeOneLine ++ '"' :: rest) = some (s, rest) := by
  induction s with
  | nil => rfl
  | cons c s ih =>
    rw [List.flatMap_cons, List.append_assoc, scanBasic?_spells (spells_escapeOneLine c), ih]
    rfl

theorem scanLiteral?_append (h : ∀ c ∈ s, isControl c = false ∧ c ≠ '\'') (rest : List Char) :
    scanLiteral? (s ++ '\'' :: rest) = some (s, rest) := by
  induction s with
  | nil => rfl
  | cons c s ih =>
    obtain ⟨⟨hcontrol, hquote⟩, hs⟩ := List.forall_mem_cons.1 h
    rw [List.cons_append, scanLiteral?, hcontrol, ih hs]
    · rfl
    · exact hquote

/-! ### Several lines with escapes -/

/-- A character is read by itself, unless it is the first of three quotes. -/
theorem scanMultiBasic?_cons (hfree : isControl c → c = '\n') (hslash : c ≠ '\\')
    (hquote : c = '"' → ∀ r, rest ≠ '"' :: '"' :: r) :
    scanMultiBasic? false (c :: rest) = (scanMultiBasic? false rest).map fun (s, r) => (c :: s, r) := by
  have hreturn : c ≠ '\r' := by
    rintro rfl
    exact absurd (hfree rfl) (by decide)
  have hcontrol : (isControl c && decide (c ≠ '\n')) = false := by simpa using hfree
  rw [scanMultiBasic?]
  · simp only [Bool.false_and, hcontrol, Bool.false_or, Bool.false_eq_true, decide_eq_true_eq, hslash,
      if_false]
  · exact fun _ hc h => hquote hc _ h
  · exact fun _ hc h => hquote hc _ h
  · exact fun _ hc h => hquote hc _ h
  · exact fun _ hc _ => hreturn hc
  · exact fun _ _ _ _ _ hc _ => hslash hc
  · exact fun _ _ _ _ _ _ _ _ _ hc _ => hslash hc
  · exact fun _ _ hc _ => hslash hc

/-- How a character other than a quote that stands for itself is written on several lines. It ends a row of
quotes. -/
def SpellsApart (c : Char) (cs : List Char) : Prop := Spells c cs ∨ c = '\n' ∧ cs = ['\n']

theorem exists_cons_of_spellsApart (h : SpellsApart c cs) :
    ∃ d ds, cs = d :: ds ∧ d ≠ '"' ∧ (isControl d → c = '\n') := by
  rcases h with h | ⟨rfl, rfl⟩
  · obtain ⟨d, ds, rfl, hquote, hcontrol⟩ := exists_cons_of_spells h
    exact ⟨d, ds, rfl, hquote, by simp [hcontrol]⟩
  · exact ⟨'\n', [], rfl, by decide, fun _ => rfl⟩

theorem scanMultiBasic?_spells (h : Spells c cs) (r : List Char) :
    scanMultiBasic? false (cs ++ r) = (scanMultiBasic? false r).map fun (s, r) => (c :: s, r) := by
  cases h with
  | @letter e he =>
    obtain ⟨hu, hU, hblank⟩ := of_ofEscape?_eq_some he
    simp only [List.cons_append, List.nil_append]
    rw [scanMultiBasic?, hblank, he]
    · rfl
    · exact fun _ _ _ _ _ h _ => hu h
    · exact fun _ _ _ _ _ _ _ _ _ h _ => hU h
  | number hn =>
    simp only [List.cons_append, List.nil_append]
    rw [scanMultiBasic?, hn]
    rfl
  | plain hcontrol hslash hquote =>
    exact scanMultiBasic?_cons (by simp [hcontrol]) hslash fun h => absurd h hquote

theorem scanMultiBasic?_spellsApart (h : SpellsApart c cs) (r : List Char) :
    scanMultiBasic? false (cs ++ r) = (scanMultiBasic? false r).map fun (s, r) => (c :: s, r) := by
  rcases h with h | ⟨rfl, rfl⟩
  · exact scanMultiBasic?_spells h r
  · exact scanMultiBasic?_cons (fun _ => rfl) (by decide) nofun

/-- Quotes are read by themselves where at most two are in a row. -/
theorem scanMultiBasic?_replicate {quotes : Nat} (hquotes : quotes ≤ 2) (hc : c ≠ '"') (r : List Char) :
    scanMultiBasic? false (List.replicate quotes '"' ++ c :: r) =
      (scanMultiBasic? false (c :: r)).map fun (s, r) => (List.replicate quotes '"' ++ s, r) := by
  induction quotes with
  | zero => simp
  | succ quotes ih =>
    have hrow (r') : List.replicate quotes '"' ++ c :: r ≠ '"' :: '"' :: r' := by
      obtain rfl | rfl : quotes = 0 ∨ quotes = 1 := by omega
      · simp [hc]
      · simp [hc]
    rw [List.replicate_succ, List.cons_append, scanMultiBasic?_cons (by decide) (by decide) fun _ => hrow,
      ih (by omega), Option.map_map]
    rfl

/-- The closing quotes are found behind those of a row that has not ended. -/
theorem scanMultiBasic?_quotes {quotes : Nat} (hquotes : quotes ≤ 2) (hrest : ∀ r, rest ≠ '"' :: r) :
    scanMultiBasic? false (List.replicate quotes '"' ++ '"' :: '"' :: '"' :: rest) =
      some (List.replicate quotes '"', rest) := by
  obtain rfl | rfl | rfl : quotes = 0 ∨ quotes = 1 ∨ quotes = 2 := by omega
  · rw [List.replicate_zero, List.nil_append, scanMultiBasic?]
    · exact fun _ h => hrest _ h
    · exact fun _ h => hrest _ h
  · rw [List.replicate_one, List.singleton_append, scanMultiBasic?]
    exact fun _ h => hrest _ h
  · rfl

/-- A quote goes on with the row, unless it would be the third. All else ends the row. -/
theorem escapeLines_cons {quotes : Nat} (hquotes : quotes ≤ 2) (c : Char) (s : List Char) :
    (c = '"' ∧ quotes < 2 ∧ escapeLines quotes (c :: s) = '"' :: escapeLines (quotes + 1) s) ∨
      ∃ cs, SpellsApart c cs ∧ escapeLines quotes (c :: s) = cs ++ escapeLines 0 s := by
  by_cases hc : c = '"'
  · subst hc
    by_cases h : quotes = 2
    · exact .inr ⟨['\\', '"'], .inl (.letter rfl), by rw [escapeLines, if_pos h]; rfl⟩
    · exact .inl ⟨rfl, by omega, by rw [escapeLines, if_neg h]⟩
  · by_cases h : c = '\n'
    · subst h
      exact .inr ⟨['\n'], .inr ⟨rfl, rfl⟩, rfl⟩
    · refine .inr ⟨escape c, .inl (spells_escape hc), ?_⟩
      rw [escapeLines]
      · exact hc
      · exact h

/-- The quotes of a row before the string are read with it. -/
theorem scanMultiBasic?_escapeLines {quotes : Nat} (hquotes : quotes ≤ 2) (s : List Char)
    (hrest : ∀ r, rest ≠ '"' :: r) :
    scanMultiBasic? false (List.replicate quotes '"' ++ (escapeLines quotes s ++ '"' :: '"' :: '"' :: rest)) =
      some (List.replicate quotes '"' ++ s, rest) := by
  induction s generalizing quotes with
  | nil =>
    rw [escapeLines, List.nil_append, List.append_nil]
    exact scanMultiBasic?_quotes hquotes hrest
  | cons c s ih =>
    rcases escapeLines_cons hquotes c s with ⟨rfl, hlt, hrow⟩ | ⟨cs, hcs, hapart⟩
    · have hnext := ih (show quotes + 1 ≤ 2 from hlt)
      rw [List.replicate_succ', List.append_assoc, List.append_assoc] at hnext
      rw [hrow]
      exact hnext
    · have hnext := ih (Nat.zero_le 2)
      rw [List.replicate_zero, List.nil_append, List.nil_append] at hnext
      have hread := scanMultiBasic?_spellsApart hcs (escapeLines 0 s ++ '"' :: '"' :: '"' :: rest)
      obtain ⟨d, ds, rfl, hd, -⟩ := exists_cons_of_spellsApart hcs
      rw [hnext, List.cons_append] at hread
      rw [hapart, List.append_assoc, List.cons_append, scanMultiBasic?_replicate hquotes hd, hread]
      rfl

/-! ### Several lines without escapes -/

theorem scanMultiLiteral?_cons (hfree : isControl c → c = '\n')
    (hquote : c = '\'' → ∀ r, rest ≠ '\'' :: '\'' :: r) :
    scanMultiLiteral? (c :: rest) = (scanMultiLiteral? rest).map fun (s, r) => (c :: s, r) := by
  have hreturn : c ≠ '\r' := by
    rintro rfl
    exact absurd (hfree rfl) (by decide)
  have hcontrol : (isControl c && decide (c ≠ '\n')) = false := by simpa using hfree
  rw [scanMultiLiteral?]
  · simp only [hcontrol, Bool.false_eq_true, if_false]
  · exact fun _ hc h => hquote hc _ h
  · exact fun _ hc h => hquote hc _ h
  · exact fun _ hc h => hquote hc _ h
  · exact fun _ hc _ => hreturn hc

theorem of_hasTriple_cons {q : Char} (h : hasTriple q (c :: s) = false) :
    hasTriple q s = false ∧ (c = q → ∀ r, s ≠ q :: q :: r) := by
  rcases s with _ | ⟨d, _ | ⟨e, s⟩⟩
  · exact ⟨by simp [hasTriple], by simp⟩
  · exact ⟨by simp [hasTriple], by simp⟩
  · rw [hasTriple, Bool.or_eq_false_iff] at h
    refine ⟨h.2, ?_⟩
    rintro rfl r hs
    cases hs
    simp at h

/-- The quotes in front of the closing ones are at most two, since no three are in a row. -/
theorem scanMultiLiteral?_append (hfree : ∀ c ∈ s, isControl c → c = '\n')
    (htriple : hasTriple '\'' s = false) (hrest : ∀ r, rest ≠ '\'' :: r) :
    scanMultiLiteral? (s ++ '\'' :: '\'' :: '\'' :: rest) = some (s, rest) := by
  induction s with
  | nil =>
    rw [List.nil_append, scanMultiLiteral?]
    · exact fun _ h => hrest _ h
    · exact fun _ h => hrest _ h
  | cons c s ih =>
    obtain ⟨hc, hs⟩ := List.forall_mem_cons.1 hfree
    obtain ⟨htail, hrow⟩ := of_hasTriple_cons htriple
    -- the scanner takes the last quotes of the string together with the closing ones
    by_cases hlast : c = '\'' ∧ (s = [] ∨ s = ['\''])
    · obtain ⟨rfl, rfl | rfl⟩ := hlast
      · rw [List.singleton_append, scanMultiLiteral?]
        exact fun _ h => hrest _ h
      · rfl
    · rw [List.cons_append, scanMultiLiteral?_cons hc fun hquote r hr => ?_, ih hs htail]
      · rfl
      · obtain ⟨d, t, rfl⟩ := List.exists_cons_of_ne_nil fun hnil => hlast ⟨hquote, .inl hnil⟩
        obtain ⟨rfl, htwo⟩ := List.cons.inj hr
        obtain ⟨e, t, rfl⟩ := List.exists_cons_of_ne_nil fun hnil => hlast ⟨hquote, .inr (hnil ▸ rfl)⟩
        obtain ⟨rfl, -⟩ := List.cons.inj htwo
        exact hrow hquote t rfl

/-! ### The first line -/

theorem dropNewline?_cons (h : isControl c = false) (r : List Char) : dropNewline? (c :: r) = none := by
  unfold dropNewline?
  split
  · next heq =>
    cases heq
    exact absurd h (by decide)
  · next heq =>
    cases heq
    exact absurd h (by decide)
  · rfl

/-- The line feed in front of a string of several lines is no part of it, and the others have none. -/
theorem dropNewline_lead {body : List Char} (h : '\n' ∉ s → dropNewline? body = none) :
    dropNewline (lead s ++ body) = body := by
  by_cases hs : '\n' ∈ s
  · rw [lead, if_pos (List.contains_iff_mem.2 hs)]
    rfl
  · rw [lead, if_neg (mt List.contains_iff_mem.1 hs), List.nil_append, dropNewline, h hs]
    rfl

theorem dropNewline?_escapeLines (hs : '\n' ∉ s) (r : List Char) :
    dropNewline? (escapeLines 0 s ++ '"' :: r) = none := by
  cases s with
  | nil => rfl
  | cons c s =>
    rcases escapeLines_cons (Nat.zero_le 2) c s with ⟨-, -, hrow⟩ | ⟨cs, hcs, hapart⟩
    · rw [hrow]
      rfl
    · obtain ⟨d, ds, rfl, -, hcontrol⟩ := exists_cons_of_spellsApart hcs
      rw [hapart]
      refine dropNewline?_cons (Bool.eq_false_iff.2 fun h => hs ?_) _
      rw [hcontrol h]
      exact List.mem_cons_self

theorem dropNewline?_append (hfree : ∀ c ∈ s, isControl c → c = '\n') (hs : '\n' ∉ s) (r : List Char) :
    dropNewline? (s ++ '\'' :: r) = none := by
  cases s with
  | nil => rfl
  | cons c s =>
    refine dropNewline?_cons (Bool.eq_false_iff.2 fun h => hs ?_) _
    rw [hfree c List.mem_cons_self h]
    exact List.mem_cons_self

/-! ### All forms -/

/-- What is known of a string from the form without escapes that is chosen for it. -/
theorem formFor_cases (s : List Char) :
    formFor s = .basic ∨ formFor s = .multiBasic ∨
      (formFor s = .literal ∧ ∀ c ∈ s, isControl c = false ∧ c ≠ '\'') ∨
      (formFor s = .multiLiteral ∧ (∀ c ∈ s, isControl c → c = '\n') ∧ hasTriple '\'' s = false) := by
  have hclean : (s.all fun c => !isControl c || c = '\n') = true ↔ ∀ c ∈ s, isControl c → c = '\n' := by
    simp [imp_iff_not_or]
  simp only [formFor]
  split
  · exact .inl rfl
  split
  · next h =>
    simp only [Bool.and_eq_true, hclean, Bool.not_eq_true', List.contains_eq_mem,
      decide_eq_false_iff_not] at h
    obtain ⟨⟨hfree, hline⟩, hquote⟩ := h
    refine .inr (.inr (.inl ⟨rfl, fun c hc => ⟨Bool.eq_false_iff.2 fun hcontrol => ?_, ?_⟩⟩))
    · exact hline (hfree c hc hcontrol ▸ hc)
    · exact ne_of_mem_of_not_mem hc hquote
  split
  · exact .inr (.inl rfl)
  split
  · next h =>
    simp only [Bool.and_eq_true, hclean, Bool.not_eq_true'] at h
    exact .inr (.inr (.inr ⟨rfl, h⟩))
  split
  · exact .inl rfl
  · exact .inr (.inl rfl)

theorem scan?_basic (s : List Char) (hrest : ∀ r, rest ≠ '"' :: r) :
    scan? ('"' :: (s.flatMap escapeOneLine ++ '"' :: rest)) = some (s, rest) := by
  have hquotes (r) : s.flatMap escapeOneLine ++ '"' :: rest ≠ '"' :: '"' :: r := by
    cases s with
    | nil => exact fun h => hrest r (List.cons.inj h).2
    | cons c s =>
      obtain ⟨d, ds, hcs, hd, -⟩ := exists_cons_of_spells (spells_escapeOneLine c)
      rw [List.flatMap_cons, hcs]
      exact fun h => hd (List.cons.inj h).1
  rw [scan?]
  · exact scanBasic?_flatMap_escapeOneLine s rest
  · exact fun r h => hquotes r (List.cons.inj h).2
  · exact nofun

theorem scan?_literal (h : ∀ c ∈ s, isControl c = false ∧ c ≠ '\'') (hrest : ∀ r, rest ≠ '\'' :: r) :
    scan? ('\'' :: (s ++ '\'' :: rest)) = some (s, rest) := by
  have hquotes (r) : s ++ '\'' :: rest ≠ '\'' :: '\'' :: r := by
    cases s with
    | nil => exact fun h => hrest r (List.cons.inj h).2
    | cons c s => exact fun heq => (h c List.mem_cons_self).2 (List.cons.inj heq).1
  rw [scan?]
  · exact scanLiteral?_append h rest
  · exact nofun
  · exact fun r h => hquotes r (List.cons.inj h).2

theorem scan?_multiBasic (s : List Char) (hrest : ∀ r, rest ≠ '"' :: r) :
    scan? ('"' :: '"' :: '"' :: (lead s ++ (escapeLines 0 s ++ '"' :: '"' :: '"' :: rest))) =
      some (s, rest) := by
  rw [scan?, dropNewline_lead fun hs => dropNewline?_escapeLines hs _]
  exact scanMultiBasic?_escapeLines (Nat.zero_le 2) s hrest

theorem scan?_multiLiteral (hfree : ∀ c ∈ s, isControl c → c = '\n') (htriple : hasTriple '\'' s = false)
    (hrest : ∀ r, rest ≠ '\'' :: r) :
    scan? ('\'' :: '\'' :: '\'' :: (lead s ++ (s ++ '\'' :: '\'' :: '\'' :: rest))) =
      some (s, rest) := by
  rw [scan?, dropNewline_lead fun hs => dropNewline?_append hfree hs _]
  exact scanMultiLiteral?_append hfree htriple hrest

/-- What may follow a string. -/
def ends : List Char := [',', ']', '\n']

/-- A string is read back from the form that is chosen for it, and what follows it is left. -/
theorem scan?_write (s : List Char) (hrest : StartsIn ends rest) :
    scan? (write s ++ rest) = some (s, rest) := by
  have hdouble (r) : rest ≠ '"' :: r := hrest.ne_cons (by decide)
  have hsingle (r) : rest ≠ '\'' :: r := hrest.ne_cons (by decide)
  unfold write
  rcases formFor_cases s with hform | hform | ⟨hform, hliteral⟩ | ⟨hform, hfree, htriple⟩
  · rw [hform]
    simpa using scan?_basic s hdouble
  · rw [hform]
    simpa using scan?_multiBasic s hdouble
  · rw [hform]
    simpa using scan?_literal hliteral hsingle
  · rw [hform]
    simpa using scan?_multiLiteral hfree htriple hsingle

-- the first line is empty, and every third quote of the row is escaped
example : write "'''\n\"\"\"\"\x01".toList = "\"\"\"\n'''\n\"\"\\\"\"\\u0001\"\"\"".toList := by decide

theorem exists_cons_write (s : List Char) : ∃ q r, write s = q :: r ∧ (q = '"' ∨ q = '\'') := by
  unfold write
  cases formFor s
  case basic => exact ⟨_, _, rfl, .inl rfl⟩
  case literal => exact ⟨_, _, rfl, .inr rfl⟩
  case multiBasic => exact ⟨_, _, rfl, .inl rfl⟩
  case multiLiteral => exact ⟨_, _, rfl, .inr rfl⟩

end TomlText

end QueryClauses
