import QueryClauses.Proofs.Json.Text
import QueryClauses.Proofs.Numeral.Reading

/-! The grammar of JSON texts, in which blanks may stand around every token. A text that spells a value is
read as that value. What follows it is a blank or a mark that ends an item, so a number is not read too
far. -/

namespace QueryClauses.Json

open Text (StartsIn startsIn_cons)

variable {c : Char} {value : Json} {items : List Json} {members : List (String × Json)}
  {cs ds blank rest s : List Char} {steps : Nat}

/-! ### Grammar -/

def Blank (cs : List Char) : Prop := ∀ c ∈ cs, isBlank c

instance (cs : List Char) : Decidable (Blank cs) := List.decidableBAll (fun c => isBlank c) cs

theorem blank_nil : Blank [] := nofun

mutual

/-- A text that spells a value, with no blanks around it. Strings are written as `quote` writes them. -/
inductive Spells : Json → List Char → Prop
  | null : Spells null ['n', 'u', 'l', 'l']
  | yes : Spells (bool true) ['t', 'r', 'u', 'e']
  | no : Spells (bool false) ['f', 'a', 'l', 's', 'e']
  | number {n : Numeral} (h : n.Written) : Spells (number n) n.chars
  | string (s : String) : Spells (ofString s) (JsonText.quote s.toList)
  | emptyArray {b : List Char} (hb : Blank b) : Spells (array []) ('[' :: (b ++ [']']))
  | array {items : List Json} {b cs : List Char} (hb : Blank b) (h : SpellsItems items cs) :
    Spells (array items) ('[' :: (b ++ (cs ++ [']'])))
  | emptyObject {b : List Char} (hb : Blank b) : Spells (object []) ('\x7b' :: (b ++ ['\x7d']))
  | object {members : List (String × Json)} {b cs : List Char} (hb : Blank b)
    (h : SpellsMembers members cs) : Spells (ofMembers members) ('\x7b' :: (b ++ (cs ++ ['\x7d'])))

/-- The items of an array, from the first of them up to the bracket. -/
inductive SpellsItems : List Json → List Char → Prop
  | last {item : Json} {cs b : List Char} (h : Spells item cs) (hb : Blank b) : SpellsItems [item] (cs ++ b)
  | more {item : Json} {items : List Json} {cs b b' ds : List Char} (h : Spells item cs) (hb : Blank b)
    (hb' : Blank b') (hs : SpellsItems items ds) :
    SpellsItems (item :: items) (cs ++ (b ++ ',' :: (b' ++ ds)))

/-- The members of an object, from the first of them up to the brace. -/
inductive SpellsMembers : List (String × Json) → List Char → Prop
  | last {member : String × Json} {cs : List Char} (h : SpellsMember member cs) : SpellsMembers [member] cs
  | more {member : String × Json} {members : List (String × Json)} {cs b ds : List Char}
    (h : SpellsMember member cs) (hb : Blank b) (hs : SpellsMembers members ds) :
    SpellsMembers (member :: members) (cs ++ ',' :: (b ++ ds))

/-- A member of an object, with the blanks behind it. -/
inductive SpellsMember : String × Json → List Char → Prop
  | mk (key : String) {value : Json} {b b' cs b'' : List Char} (hb : Blank b) (hb' : Blank b')
    (h : Spells value cs) (hb'' : Blank b'') :
    SpellsMember (key, value) (JsonText.quote key.toList ++ (b ++ ':' :: (b' ++ (cs ++ b''))))

end

/-- What may follow a value. -/
def ends : List Char := [' ', '\t', '\n', '\r', ',', ']', '\x7d']

/-- A text of a value alone, with blanks around it. -/
def Denotes (text : String) (value : Json) : Prop :=
  ∃ b cs b', Blank b ∧ Spells value cs ∧ Blank b' ∧ text.toList = b ++ (cs ++ b')

/-! ### Blanks -/

theorem skipBlank_append (hb : Blank blank) (s : List Char) : skipBlank (blank ++ s) = skipBlank s :=
  List.dropWhile_append_of_pos hb

theorem skipBlank_cons (hc : isBlank c = false) : skipBlank (c :: s) = c :: s := by
  rw [skipBlank, List.dropWhile_cons, hc, if_neg Bool.false_ne_true]

theorem skipBlank_append_cons (hb : Blank blank) (hc : isBlank c = false) :
    skipBlank (blank ++ c :: s) = c :: s := by
  rw [skipBlank_append hb, skipBlank_cons hc]

theorem startsIn_ends_of_blank (hb : Blank blank) (hs : StartsIn ends s) : StartsIn ends (blank ++ s) := by
  cases blank with
  | nil => exact hs
  | cons c b =>
    refine startsIn_cons ?_
    have hc := hb c List.mem_cons_self
    simp only [isBlank, Bool.or_eq_true, decide_eq_true_eq] at hc
    rcases hc with ((rfl | rfl) | rfl) | rfl <;> decide

/-! ### One step of a reader -/

theorem isBlank_eq_false_of_numeral (hc : c = '-' ∨ c.isDigit) : isBlank c = false := by
  rcases hc with rfl | hc
  · rfl
  · simp only [isBlank, Bool.or_eq_false_iff, decide_eq_false_iff_not]
    refine ⟨⟨⟨?_, ?_⟩, ?_⟩, ?_⟩ <;> rintro rfl <;> cases hc

theorem scan?_numeral (hc : c = '-' ∨ c.isDigit) :
    scan? (steps + 1) (c :: s) = (Numeral.scan? (c :: s)).map fun (n, r) => (number n, r) := by
  rw [scan?, skipBlank_cons (isBlank_eq_false_of_numeral hc)]
  split
  case h_7 => rfl
  all_goals
    next h =>
      cases h
      exact absurd hc (by decide)

theorem scan?_blank (hb : Blank blank) (s : List Char) :
    scan? (steps + 1) (blank ++ s) = scan? (steps + 1) s := by
  simp only [scan?, skipBlank_append hb]

theorem scan?_quote (key : String) (r : List Char) :
    scan? (steps + 1) (JsonText.quote key.toList ++ r) = some (ofString key, r) := by
  obtain ⟨body, hbody, hscan⟩ := scanString?_quote key r
  rw [hbody, scan?, skipBlank_cons rfl]
  simp only [hscan, Option.map_some]
  rfl

theorem scan?_items (hb : Blank blank) (hc : isBlank c = false) (hne : c ≠ ']')
    (h : scanItems? steps (c :: s) = some (items, rest)) :
    scan? (steps + 1) ('[' :: (blank ++ c :: s)) = some (array items, rest) := by
  rw [scan?, skipBlank_cons rfl]
  simp only [skipBlank_append_cons hb hc]
  simp [hne, h]

theorem scan?_members (hb : Blank blank) (hc : isBlank c = false) (hne : c ≠ '\x7d')
    {ms : List (Option String × Json)} (h : scanMembers? steps (c :: s) = some (ms, rest)) :
    scan? (steps + 1) ('\x7b' :: (blank ++ c :: s)) = some (object ms, rest) := by
  rw [scan?, skipBlank_cons rfl]
  simp only [skipBlank_append_cons hb hc]
  simp [hne, h]

theorem scanItems?_last (hb : Blank blank) (h : scan? steps s = some (value, blank ++ ']' :: rest)) :
    scanItems? (steps + 1) s = some ([value], rest) := by
  have hskip : skipBlank (blank ++ ']' :: rest) = ']' :: rest := skipBlank_append_cons hb rfl
  rw [scanItems?, h]
  simp only [Option.bind_eq_bind, Option.bind_some, hskip]

theorem scanItems?_more (hb : Blank blank) (h : scan? steps s = some (value, blank ++ ',' :: ds))
    (hs : scanItems? steps ds = some (items, rest)) :
    scanItems? (steps + 1) s = some (value :: items, rest) := by
  have hskip : skipBlank (blank ++ ',' :: ds) = ',' :: ds := skipBlank_append_cons hb rfl
  rw [scanItems?, h]
  simp only [Option.bind_eq_bind, Option.bind_some, hskip, hs, Option.map_some]

/-- The members from a given one on, once its value is read. -/
theorem scanMembers?_member {b b' after : List Char} (hblank : Blank blank) (hb : Blank b) (key : String)
    (h : scan? steps (b' ++ (cs ++ after)) = some (value, after)) :
    scanMembers? (steps + 1)
        (blank ++ (JsonText.quote key.toList ++ (b ++ ':' :: (b' ++ (cs ++ after))))) =
      match skipBlank after with
      | ',' :: r => (scanMembers? steps r).map fun (ms, r) => ((some key, value) :: ms, r)
      | '\x7d' :: r => some ([(some key, value)], r)
      | _ => none := by
  obtain ⟨body, hbody, hscan⟩ := scanString?_quote key (b ++ ':' :: (b' ++ (cs ++ after)))
  have hskip : skipBlank (b ++ ':' :: (b' ++ (cs ++ after))) = ':' :: (b' ++ (cs ++ after)) :=
    skipBlank_append_cons hb rfl
  have hquote : skipBlank (blank ++ '"' :: body) = '"' :: body := skipBlank_append_cons hblank rfl
  rw [hbody, scanMembers?, hquote]
  simp only [hscan, Option.bind_eq_bind, Option.bind_some, hskip]
  rw [h]
  rfl

/-! ### All steps -/

/-- Members whose keys have texts, as an object has them. -/
def keyed (members : List (String × Json)) : List (Option String × Json) :=
  members.map fun (key, value) => (some key, value)

theorem exists_cons_of_spells (h : Spells value cs) : ∃ c r, cs = c :: r ∧ isBlank c = false ∧ c ≠ ']' := by
  cases h with
  | number h =>
    obtain ⟨c, r, hcs, hc⟩ := Numeral.exists_cons_chars h
    refine ⟨c, r, hcs, isBlank_eq_false_of_numeral hc, ?_⟩
    rintro rfl
    exact absurd hc (by decide)
  | string s => exact ⟨_, _, rfl, rfl, by decide⟩
  | _ => exact ⟨_, _, rfl, rfl, by decide⟩

theorem exists_cons_of_spellsItems (h : SpellsItems items cs) :
    ∃ c r, cs = c :: r ∧ isBlank c = false ∧ c ≠ ']' := by
  cases h with
  | last h | more h =>
    obtain ⟨c, r, rfl, hc⟩ := exists_cons_of_spells h
    exact ⟨c, _, rfl, hc⟩

theorem exists_cons_of_spellsMembers (h : SpellsMembers members cs) :
    ∃ c r, cs = c :: r ∧ isBlank c = false ∧ c ≠ '\x7d' := by
  cases h with
  | last h | more h =>
    cases h
    exact ⟨_, _, rfl, rfl, by decide⟩

/-- So many steps are enough for a value. A bracket takes a step, and so does the first item behind it. -/
def ReadsValues (steps : Nat) : Prop :=
  ∀ {value : Json} {cs blank rest : List Char}, Spells value cs → 2 * cs.length ≤ steps → Blank blank →
    StartsIn ends rest → scan? steps (blank ++ (cs ++ rest)) = some (value, rest)

def ReadsItems (steps : Nat) : Prop :=
  ∀ {items : List Json} {cs blank rest : List Char}, SpellsItems items cs → 2 * cs.length < steps →
    Blank blank → scanItems? steps (blank ++ (cs ++ ']' :: rest)) = some (items, rest)

def ReadsMembers (steps : Nat) : Prop :=
  ∀ {members : List (String × Json)} {cs blank rest : List Char}, SpellsMembers members cs →
    2 * cs.length < steps → Blank blank →
      scanMembers? steps (blank ++ (cs ++ '\x7d' :: rest)) = some (keyed members, rest)

theorem ends_ends : Numeral.Ends ends := by decide

theorem readsValues_succ (hi : ReadsItems steps) (hm : ReadsMembers steps) : ReadsValues (steps + 1) := by
  intro value cs blank rest h hsteps hb hrest
  rw [scan?_blank hb]
  cases h with
  | null => rfl
  | yes => rfl
  | no => rfl
  | @number n h =>
    obtain ⟨c, r, hcs, hc⟩ := Numeral.exists_cons_chars h
    have hscan := Numeral.scan?_chars h ends_ends hrest
    rw [hcs, List.cons_append] at hscan ⊢
    rw [scan?_numeral hc, hscan, Option.map_some]
  | string s => exact scan?_quote s rest
  | @emptyArray b hb =>
    have hskip : skipBlank (b ++ ']' :: rest) = ']' :: rest := skipBlank_append_cons hb rfl
    simp only [List.cons_append, List.append_assoc, List.nil_append]
    rw [scan?, skipBlank_cons rfl]
    simp only [hskip]
  | @array items b cs hb h =>
    obtain ⟨c, r, rfl, hc, hne⟩ := exists_cons_of_spellsItems h
    have hread : scanItems? steps (c :: (r ++ ']' :: rest)) = some (items, rest) :=
      hi h (by simp at hsteps ⊢; omega) blank_nil
    simp only [List.cons_append, List.append_assoc, List.nil_append]
    exact scan?_items hb hc hne hread
  | @emptyObject b hb =>
    have hskip : skipBlank (b ++ '\x7d' :: rest) = '\x7d' :: rest := skipBlank_append_cons hb rfl
    simp only [List.cons_append, List.append_assoc, List.nil_append]
    rw [scan?, skipBlank_cons rfl]
    simp only [hskip]
  | @object members b cs hb h =>
    obtain ⟨c, r, rfl, hc, hne⟩ := exists_cons_of_spellsMembers h
    have hread : scanMembers? steps (c :: (r ++ '\x7d' :: rest)) = some (keyed members, rest) :=
      hm h (by simp at hsteps ⊢; omega) blank_nil
    simp only [List.cons_append, List.append_assoc, List.nil_append]
    exact scan?_members hb hc hne hread

theorem readsItems_succ (hv : ReadsValues steps) (hi : ReadsItems steps) : ReadsItems (steps + 1) := by
  intro items cs blank rest h hsteps hb
  cases h with
  | @last item cs b h hafter =>
    have hend : StartsIn ends (b ++ ']' :: rest) := startsIn_ends_of_blank hafter (startsIn_cons (by decide))
    have hread := hv h (by simp at hsteps; omega) hb hend
    rw [List.append_assoc]
    exact scanItems?_last hafter hread
  | @more item items cs b b' ds h hafter hnext hs =>
    have hend : StartsIn ends (b ++ ',' :: (b' ++ (ds ++ ']' :: rest))) :=
      startsIn_ends_of_blank hafter (startsIn_cons (by decide))
    have hread := hv h (by simp at hsteps; omega) hb hend
    have hmore : scanItems? steps (b' ++ (ds ++ ']' :: rest)) = some (items, rest) :=
      hi hs (by simp at hsteps; omega) hnext
    simp only [List.append_assoc, List.cons_append]
    exact scanItems?_more hafter hread hmore

theorem readsMembers_succ (hv : ReadsValues steps) (hm : ReadsMembers steps) : ReadsMembers (steps + 1) := by
  intro members cs blank rest h hsteps hb
  cases h with
  | @last member cs h =>
    cases h with
    | @mk key value b b' cs after hkey hvalue h hafter =>
      have hend : StartsIn ends (after ++ '\x7d' :: rest) :=
        startsIn_ends_of_blank hafter (startsIn_cons (by decide))
      have hread := hv h (by simp at hsteps; omega) hvalue hend
      have hskip : skipBlank (after ++ '\x7d' :: rest) = '\x7d' :: rest := skipBlank_append_cons hafter rfl
      simp only [List.append_assoc, List.cons_append]
      rw [scanMembers?_member hb hkey key hread, hskip]
      rfl
  | @more member members cs next ds h hnext hs =>
    cases h with
    | @mk key value b b' cs after hkey hvalue h hafter =>
      have hend : StartsIn ends (after ++ ',' :: (next ++ (ds ++ '\x7d' :: rest))) :=
        startsIn_ends_of_blank hafter (startsIn_cons (by decide))
      have hread := hv h (by simp at hsteps; omega) hvalue hend
      have hmore : scanMembers? steps (next ++ (ds ++ '\x7d' :: rest)) = some (keyed members, rest) :=
        hm hs (by simp at hsteps; omega) hnext
      have hskip : skipBlank (after ++ ',' :: (next ++ (ds ++ '\x7d' :: rest))) =
          ',' :: (next ++ (ds ++ '\x7d' :: rest)) := skipBlank_append_cons hafter rfl
      simp only [List.append_assoc, List.cons_append]
      rw [scanMembers?_member hb hkey key hread, hskip]
      simp only [hmore]
      rfl

/-- With as many steps as are given, all that is short enough is read. -/
theorem reads (steps : Nat) : ReadsValues steps ∧ ReadsItems steps ∧ ReadsMembers steps := by
  induction steps with
  | zero =>
    refine ⟨?_, fun _ hlt => absurd hlt (Nat.not_lt_zero _), fun _ hlt => absurd hlt (Nat.not_lt_zero _)⟩
    intro value cs blank rest h hsteps
    obtain ⟨c, r, rfl, -⟩ := exists_cons_of_spells h
    simp at hsteps
  | succ steps ih =>
    obtain ⟨hv, hi, hm⟩ := ih
    exact ⟨readsValues_succ hi hm, readsItems_succ hv hi, readsMembers_succ hv hm⟩

/-- A text that spells a value is read as that value. -/
theorem parse?_of_denotes {text : String} (h : Denotes text value) : parse? text = some value := by
  obtain ⟨b, cs, b', hb, hs, hb', htext⟩ := h
  have hend : StartsIn ends (b' ++ []) := startsIn_ends_of_blank hb' Text.StartsIn.nil
  have hskip : skipBlank (b' ++ []) = [] := skipBlank_append hb' []
  rw [List.append_nil] at hend hskip
  have hread := (reads (2 * text.toList.length + 1)).1 hs (by simp [htext]; omega) hb hend
  rw [parse?]
  rw [htext] at hread ⊢
  simp only [hread, hskip, Option.bind_eq_bind, Option.bind_some, List.isEmpty_nil, if_true]

end QueryClauses.Json
