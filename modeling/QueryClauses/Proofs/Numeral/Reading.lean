import QueryClauses.Numeral.Basic
import QueryClauses.Proofs.Numeral.Digits
import QueryClauses.Proofs.Text

/-! A numeral is read back from its text. Its digits go on to the first character that is none, so the
statements are about a text that goes on with one of the marks that can follow. -/

namespace QueryClauses.Numeral

open Text (StartsIn startsIn_cons)

variable {n : Numeral} {ds rest : List Char} {marks : List Char}

/-- The numeral has digits where it has to, and no superfluous zeros. -/
structure Written (n : Numeral) : Prop where
  whole_ne_nil : n.whole ≠ []
  whole : ∀ c ∈ n.whole, c.isDigit
  whole_zero : ∀ r, n.whole = '0' :: r → r = []
  fraction : ∀ c ∈ n.fraction, c.isDigit

theorem written_ofNat (n : Nat) : (ofNat n).Written where
  whole_ne_nil := Nat.toDigits_ne_nil
  whole _ := isDigit_of_mem_toDigits
  whole_zero r h := by
    rcases Nat.eq_zero_or_pos n with rfl | hn
    · exact (List.cons.inj h).2.symm
    · exact absurd h (toDigits_ne_zero_cons hn r)
  fraction := nofun

theorem written_ofInt (n : Int) : (ofInt n).Written :=
  { written_ofNat n.natAbs with }

/-- None of the characters can go on with a number. -/
def Ends (marks : List Char) : Prop :=
  ∀ c ∈ marks, c.isDigit = false ∧ c ≠ '.' ∧ c ≠ 'e' ∧ c ≠ 'E'

instance : Decidable (Ends marks) :=
  List.decidableBAll (fun (c : Char) => c.isDigit = false ∧ c ≠ '.' ∧ c ≠ 'e' ∧ c ≠ 'E') marks

theorem scanDigits_append (hds : ∀ c ∈ ds, c.isDigit) (hmarks : ∀ c ∈ marks, c.isDigit = false)
    (hrest : StartsIn marks rest) : scanDigits (ds ++ rest) = (ds, rest) := by
  have hstop : rest.takeWhile Char.isDigit = [] ∧ rest.dropWhile Char.isDigit = rest := by
    cases rest with
    | nil => exact ⟨rfl, rfl⟩
    | cons c r =>
      have hc := hmarks c (hrest c rfl)
      simp [hc]
  rw [scanDigits, List.takeWhile_append_of_pos hds, List.dropWhile_append_of_pos hds, hstop.1, hstop.2,
    List.append_nil]

theorem scanSomeDigits?_append (hne : ds ≠ []) (hds : ∀ c ∈ ds, c.isDigit)
    (hmarks : ∀ c ∈ marks, c.isDigit = false) (hrest : StartsIn marks rest) :
    scanSomeDigits? (ds ++ rest) = some (ds, rest) := by
  obtain ⟨d, ds, rfl⟩ := List.exists_cons_of_ne_nil hne
  rw [scanSomeDigits?, scanDigits_append hds hmarks hrest]

theorem scanWhole?_append (h : n.Written) (hmarks : ∀ c ∈ marks, c.isDigit = false)
    (hrest : StartsIn marks rest) : scanWhole? (n.whole ++ rest) = some (n.whole, rest) := by
  rw [scanWhole?, scanSomeDigits?_append h.whole_ne_nil h.whole hmarks hrest]
  split
  · next he => rw [he]
  · next hnot he =>
    obtain ⟨hw, -⟩ := Prod.mk.inj (Option.some.inj he)
    exact absurd (h.whole_zero _ hw) hnot
  · rfl

/-- The characters of the fraction, with the point. -/
def fractionChars (n : Numeral) : List Char := if n.fraction.isEmpty then [] else '.' :: n.fraction

/-- The characters of the power of ten. -/
def powerChars (n : Numeral) : List Char :=
  match n.exponent with
  | some e => exponentChars e
  | none => []

theorem chars_eq (n : Numeral) :
    n.chars = (if n.negative then ['-'] else []) ++ (n.whole ++ (n.fractionChars ++ n.powerChars)) := by
  exact (List.append_assoc _ _ _).trans (List.append_assoc _ _ _)

/-- A numeral begins with its sign or with a digit. -/
theorem exists_cons_chars (h : n.Written) : ∃ c r, n.chars = c :: r ∧ (c = '-' ∨ c.isDigit) := by
  rw [chars_eq]
  cases n.negative with
  | true => exact ⟨'-', _, rfl, .inl rfl⟩
  | false =>
    obtain ⟨d, ds, hd⟩ := List.exists_cons_of_ne_nil h.whole_ne_nil
    rw [hd]
    exact ⟨d, _, rfl, .inr (h.whole d (hd ▸ List.mem_cons_self))⟩

theorem scanFraction?_append (h : n.Written) (hmarks : ∀ c ∈ marks, c.isDigit = false ∧ c ≠ '.')
    (hrest : StartsIn marks rest) : scanFraction? (n.fractionChars ++ rest) = some (n.fraction, rest) := by
  unfold fractionChars
  cases hf : n.fraction with
  | nil =>
    cases rest with
    | nil => rfl
    | cons c r =>
      have hc := (hmarks c (hrest c rfl)).2
      simp [scanFraction?, hc]
  | cons d ds =>
    have hds : ∀ c ∈ d :: ds, c.isDigit := hf ▸ h.fraction
    exact scanSomeDigits?_append (List.cons_ne_nil d ds) hds (fun c hc => (hmarks c hc).1) hrest

theorem scanExponent?_append (hmarks : ∀ c ∈ marks, c.isDigit = false ∧ c ≠ 'e' ∧ c ≠ 'E')
    (hrest : StartsIn marks rest) : scanExponent? (n.powerChars ++ rest) = some (n.exponent, rest) := by
  unfold powerChars
  cases he : n.exponent with
  | none =>
    cases rest with
    | nil => rfl
    | cons c r =>
      obtain ⟨-, hlower, hupper⟩ := hmarks c (hrest c rfl)
      simp [scanExponent?, hlower, hupper]
  | some e =>
    have hdigits : scanSomeDigits? (Nat.toDigits 10 e.natAbs ++ rest) = some (Nat.toDigits 10 e.natAbs, rest) :=
      scanSomeDigits?_append Nat.toDigits_ne_nil
        (fun c hc => isDigit_of_mem_toDigits hc) (fun c hc => (hmarks c hc).1) hrest
    have hvalue := Nat.ofDigitChars_ten_toDigits (n := e.natAbs)
    by_cases hneg : e < 0
    · have habs : -(e.natAbs : Int) = e := by omega
      simp only [exponentChars, if_pos hneg, List.cons_append, scanExponent?, hdigits, Option.map_some,
        hvalue, habs]
      rfl
    · have habs : (e.natAbs : Int) = e := by omega
      simp only [exponentChars, if_neg hneg, List.cons_append, scanExponent?, hdigits, Option.map_some,
        hvalue, habs]
      rfl

/-- A numeral is read from its characters, if what follows cannot go on with it. -/
theorem scan?_chars (h : n.Written) (hmarks : Ends marks) (hrest : StartsIn marks rest) :
    scan? (n.chars ++ rest) = some (n, rest) := by
  have hpowerStart : StartsIn ('e' :: marks) (n.powerChars ++ rest) := by
    unfold powerChars
    split
    · exact startsIn_cons List.mem_cons_self
    · exact hrest.mono (List.subset_cons_self _ _)
  have hfractionStart : StartsIn ('.' :: 'e' :: marks) (n.fractionChars ++ (n.powerChars ++ rest)) := by
    unfold fractionChars
    split
    · exact hpowerStart.mono (List.subset_cons_self _ _)
    · exact startsIn_cons List.mem_cons_self
  have hpower : scanExponent? (n.powerChars ++ rest) = some (n.exponent, rest) :=
    scanExponent?_append (fun c hc => ⟨(hmarks c hc).1, (hmarks c hc).2.2⟩) hrest
  have hfraction : scanFraction? (n.fractionChars ++ (n.powerChars ++ rest)) =
      some (n.fraction, n.powerChars ++ rest) := by
    refine scanFraction?_append h (List.forall_mem_cons.2 ⟨by decide, fun c hc => ?_⟩) hpowerStart
    exact ⟨(hmarks c hc).1, (hmarks c hc).2.1⟩
  have hwhole : scanWhole? (n.whole ++ (n.fractionChars ++ (n.powerChars ++ rest))) =
      some (n.whole, n.fractionChars ++ (n.powerChars ++ rest)) := by
    refine scanWhole?_append h (List.forall_mem_cons.2 ⟨rfl, List.forall_mem_cons.2 ⟨rfl, ?_⟩⟩) hfractionStart
    exact fun c hc => (hmarks c hc).1
  have hparts : Numeral.mk n.negative n.whole n.fraction n.exponent = n := rfl
  rw [chars_eq, List.append_assoc, List.append_assoc, List.append_assoc]
  cases hn : n.negative with
  | true =>
    rw [hn] at hparts
    simp [scan?, hwhole, hfraction, hpower, hparts]
  | false =>
    obtain ⟨d, ds, hd⟩ := List.exists_cons_of_ne_nil h.whole_ne_nil
    have hsign : d ≠ '-' := by
      rintro rfl
      exact absurd (h.whole '-' (hd ▸ List.mem_cons_self)) (by decide)
    rw [hd, List.cons_append] at hwhole
    rw [hn, hd] at hparts
    simp [hd, scan?, hsign, hwhole, hfraction, hpower, hparts]

end QueryClauses.Numeral
