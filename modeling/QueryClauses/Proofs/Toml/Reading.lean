import QueryClauses.Proofs.Toml.Text
import QueryClauses.Toml.Parser

/-! Lines with a plain key and with a string or an array of strings are read as entries with that key and
that value. -/

namespace QueryClauses.Toml

open Text (StartsIn startsIn_cons)
open TomlText (write isSpace)

variable {c : Char} {rest s : List Char} {key : String} {texts : List String} {steps depth : Nat} {value : Toml}

/-! ### Characters that start something -/

/-- The characters with which neither a key nor a value of an array starts. -/
def skipped : List Char := [' ', '\t', '\n', '\r', '#', ']']

theorem ne_bracket (h : c ∉ skipped) : c ≠ ']' := by
  rintro rfl
  exact h (by decide)

theorem skipLines?_cons (h : c ∉ skipped) (r : List Char) : skipLines? false (c :: r) = some (c :: r) := by
  simp only [skipped, List.mem_cons, List.not_mem_nil, or_false, not_or] at h
  obtain ⟨hspace, htab, hline, hreturn, hcomment, -⟩ := h
  rw [skipLines?]
  · simp [isSpace, hspace, htab, hcomment]
  · exact hline
  · exact fun _ h _ => hreturn h

/-! ### Values -/

theorem scan?_write (text : String) (hrest : StartsIn TomlText.ends rest) :
    scan? (steps + 1) depth (write text.toList ++ rest) = some (string text, rest) := by
  have hscan := TomlText.scan?_write text.toList hrest
  obtain ⟨q, r, hq, hquote⟩ := TomlText.exists_cons_write text.toList
  rw [hq, List.cons_append] at hscan ⊢
  have htext : some (string (.ofList text.toList), rest) = some (string text, rest) := by
    rw [String.ofList_toList]
  rcases hquote with rfl | rfl
  · rwa [scan?, hscan]
  · rwa [scan?, hscan]

/-- The texts of an array as they stand between its brackets. -/
def listed (texts : List String) : List Char :=
  [',', ' '].intercalate (texts.map fun text => write text.toList)

theorem listed_singleton (text : String) : listed [text] = write text.toList := by
  rw [listed, List.map_singleton, List.intercalate_singleton]

theorem listed_cons_cons (text next : String) (texts : List String) :
    listed (text :: next :: texts) = write text.toList ++ ',' :: ' ' :: listed (next :: texts) := by
  simp only [listed, List.map_cons, List.intercalate_cons_cons, List.append_assoc, List.cons_append,
    List.nil_append]

theorem exists_cons_listed (text : String) (texts : List String) :
    ∃ c r, listed (text :: texts) = c :: r ∧ c ∉ skipped := by
  obtain ⟨q, r, hq, hquote⟩ := TomlText.exists_cons_write text.toList
  have hstart : q ∉ skipped := by rcases hquote with rfl | rfl <;> decide
  cases texts with
  | nil => exact ⟨q, r, by rw [listed_singleton, hq], hstart⟩
  | cons next texts => exact ⟨q, _, by rw [listed_cons_cons, hq, List.cons_append], hstart⟩

theorem length_le_length_listed (texts : List String) : texts.length ≤ (listed texts).length := by
  induction texts with
  | nil => exact Nat.zero_le _
  | cons text texts ih =>
    cases texts with
    | nil =>
      obtain ⟨c, r, hstart, -⟩ := exists_cons_listed text []
      simp [hstart]
    | cons next texts =>
      rw [listed_cons_cons]
      simp only [List.length_cons, List.length_append] at ih ⊢
      omega

theorem scanItems?_last (h : scan? steps depth s = some (value, ']' :: rest)) :
    scanItems? (steps + 1) depth s = some ([value], rest) := by
  rw [scanItems?, h]
  rfl

theorem scanItems?_more {r : List Char} {items : List Toml} (hc : c ∉ skipped)
    (h : scan? steps depth s = some (value, ',' :: ' ' :: c :: r))
    (hs : scanItems? steps depth (c :: r) = some (items, rest)) :
    scanItems? (steps + 1) depth s = some (value :: items, rest) := by
  have hcomma (r) : skipLines? false (',' :: r) = some (',' :: r) := skipLines?_cons (by decide) r
  have hspace : skipLines? false (' ' :: c :: r) = some (c :: r) := skipLines?_cons hc r
  rw [scanItems?, h]
  simp [hcomma, hspace, hs, ne_bracket hc]

theorem scanItems?_listed (hsteps : texts.length + 1 < steps) (text : String) (depth : Nat) (rest : List Char) :
    scanItems? steps depth (listed (text :: texts) ++ ']' :: rest) =
      some ((text :: texts).map string, rest) := by
  obtain ⟨steps, rfl⟩ : ∃ n, steps = n + 2 := ⟨steps - 2, by omega⟩
  induction texts generalizing text steps with
  | nil =>
    rw [listed_singleton]
    exact scanItems?_last (scan?_write text (startsIn_cons (by decide)))
  | cons next texts ih =>
    rw [List.length_cons] at hsteps
    obtain ⟨steps, rfl⟩ : ∃ n, steps = n + 1 := ⟨steps - 1, by omega⟩
    have hitems := ih next steps (by omega)
    obtain ⟨c, r, hstart, hc⟩ := exists_cons_listed next texts
    have hscan : scan? (steps + 2) depth
        (write text.toList ++ ',' :: ' ' :: (listed (next :: texts) ++ ']' :: rest)) =
          some (string text, ',' :: ' ' :: (listed (next :: texts) ++ ']' :: rest)) :=
      scan?_write text (startsIn_cons (by decide))
    rw [listed_cons_cons, List.append_assoc]
    rw [hstart, List.cons_append] at hitems hscan ⊢
    exact scanItems?_more hc hscan hitems

/-- An array of texts, read with a step for each text and for its bracket. -/
theorem scan?_listed (hsteps : texts.length + 1 < steps) (hdepth : depth ≠ 0) (rest : List Char) :
    scan? steps depth ('[' :: (listed texts ++ ']' :: rest)) = some (array (texts.map string), rest) := by
  obtain ⟨steps, rfl⟩ : ∃ n, steps = n + 1 := ⟨steps - 1, by omega⟩
  obtain ⟨depth, rfl⟩ := Nat.exists_eq_succ_of_ne_zero hdepth
  cases texts with
  | nil => rfl
  | cons text texts =>
    rw [List.length_cons] at hsteps
    have hitems := scanItems?_listed (show texts.length + 1 < steps by omega) text depth rest
    obtain ⟨c, r, hstart, hc⟩ := exists_cons_listed text texts
    rw [hstart, List.cons_append] at hitems ⊢
    rw [scan?]
    simp [skipLines?_cons hc, ne_bracket hc, hitems]

/-! ### Lines -/

/-- A key that need not stand between quotes. -/
structure IsPlain (key : String) : Prop where
  ne_nil : key.toList ≠ []
  bare : key.toList.all isBareChar = true

/-- A line up to its end. -/
def line (key : String) (text : List Char) : List Char := key.toList ++ ' ' :: '=' :: ' ' :: text

theorem ne_of_isBareChar {d : Char} (hc : isBareChar c = true) (hd : isBareChar d = false) : c ≠ d := by
  rintro rfl
  rw [hc] at hd
  cases hd

theorem IsPlain.exists_cons (hkey : IsPlain key) : ∃ c r, key.toList = c :: r ∧ isBareChar c = true := by
  obtain ⟨c, r, hcs⟩ := List.exists_cons_of_ne_nil hkey.ne_nil
  exact ⟨c, r, hcs, List.all_eq_true.1 hkey.bare c (hcs ▸ List.mem_cons_self)⟩

theorem skipSpace_cons (hc : isSpace c = false) (r : List Char) : skipSpace (c :: r) = c :: r := by
  rw [skipSpace, List.dropWhile_cons, hc, if_neg Bool.false_ne_true]

theorem scanKey?_plain (hkey : IsPlain key) (r : List Char) :
    scanKey? (key.toList ++ ' ' :: r) = some (key, ' ' :: r) := by
  obtain ⟨c, cs, hcs, hc⟩ := hkey.exists_cons
  have hquoted : TomlText.scanLine? (key.toList ++ ' ' :: r) = none := by
    rw [hcs, List.cons_append, TomlText.scanLine?]
    · exact fun _ h => ne_of_isBareChar hc rfl (List.cons.inj h).1
    · exact fun _ h => ne_of_isBareChar hc rfl (List.cons.inj h).1
  have hbare := List.all_eq_true.1 hkey.bare
  have htake : (key.toList ++ ' ' :: r).takeWhile isBareChar = key.toList := by
    rw [List.takeWhile_append_of_pos hbare, List.takeWhile_cons_of_neg (by decide), List.append_nil]
  have hdrop : (key.toList ++ ' ' :: r).dropWhile isBareChar = ' ' :: r := by
    rw [List.dropWhile_append_of_pos hbare, List.dropWhile_cons_of_neg (by decide)]
  have hkey : String.ofList key.toList = key := String.ofList_toList
  rw [scanKey?, hquoted, htake, hdrop]
  rw [hcs] at hkey ⊢
  rw [← hkey]

theorem scanPath?_plain (hkey : IsPlain key) (r : List Char) :
    scanPath? (key.toList ++ ' ' :: '=' :: r) = some ([key], '=' :: r) := by
  obtain ⟨c, cs, hcs, hc⟩ := hkey.exists_cons
  have hspace : isSpace c = false := by
    simp [isSpace, ne_of_isBareChar hc (d := ' ') rfl, ne_of_isBareChar hc (d := '\t') rfl]
  have hskip : skipSpace (key.toList ++ ' ' :: '=' :: r) = key.toList ++ ' ' :: '=' :: r := by
    rw [hcs]
    exact skipSpace_cons hspace _
  have hkey := scanKey?_plain hkey ('=' :: r)
  rw [scanPath?, maxParts, scanParts?, hskip, hkey]
  rfl

theorem scanStatement?_line (hkey : IsPlain key) (htext : skipSpace s = s)
    (h : scan? steps maxDepth s = some (value, rest)) :
    scanStatement? steps (line key s) = some (.entry [key] value, rest) := by
  obtain ⟨c, cs, hcs, hc⟩ := hkey.exists_cons
  have hbracket : c ≠ '[' := ne_of_isBareChar hc rfl
  have hskip : skipSpace (' ' :: s) = s := htext
  have hpath := scanPath?_plain hkey (' ' :: s)
  rw [line]
  rw [hcs] at hpath ⊢
  rw [List.cons_append] at hpath ⊢
  rw [scanStatement?, hpath]
  · simp only [Option.bind_eq_bind, Option.bind_some, hskip, h]
  · exact fun _ h => hbracket (List.cons.inj h).1
  · exact fun _ h => hbracket (List.cons.inj h).1

theorem statements?_line (hkey : IsPlain key) (htext : skipSpace s = s)
    (h : scan? steps maxDepth s = some (value, '\n' :: rest)) :
    statements? (steps + 1) (line key s) = (statements? steps rest).map (.entry [key] value :: ·) := by
  obtain ⟨c, cs, hcs, hc⟩ := hkey.exists_cons
  have hmarks : skipped.any isBareChar = false := rfl
  have hskipped : c ∉ skipped := fun h => List.any_eq_false.1 hmarks c h hc
  have hline : line key s = c :: (cs ++ ' ' :: '=' :: ' ' :: s) := by rw [line, hcs, List.cons_append]
  have hstatement := scanStatement?_line hkey htext h
  have hend : endLine? false ('\n' :: rest) = some rest := rfl
  rw [hline] at hstatement ⊢
  rw [statements?, skipLines?_cons hskipped]
  simp [hstatement, hend]

/-- A document without a mark of the byte order is what its statements define. -/
theorem parse?_eq_assemble? {text : String} {statements : List TomlStatement} {r : List Char}
    (htext : text.toList = c :: r) (hc : c ≠ '\ufeff')
    (h : statements? (2 * text.toList.length + 2) text.toList = some statements) :
    parse? text = TomlStatement.assemble? statements := by
  rw [parse?]
  rw [htext] at h ⊢
  split
  · next heq => exact absurd (List.cons.inj heq).1 hc
  · rw [h]
    rfl

end QueryClauses.Toml
