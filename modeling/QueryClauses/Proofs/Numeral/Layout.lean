import QueryClauses.Numeral.Layout
import QueryClauses.Proofs.Binary64.Shortest
import QueryClauses.Proofs.Numeral.Reading

/-! The numeral of a floating-point number is well formed and amounts to the decimal chosen for the number,
wherever its point stands. Among data it is never the numeral of an integer. -/

namespace QueryClauses

namespace Numeral

/-- The number without its sign: the digits as an integer, scaled by where the point stands. -/
def amount (n : Numeral) : ℚ :=
  Nat.ofDigitChars 10 (n.whole ++ n.fraction) 0 * 10 ^ (n.exponent.getD 0 - n.fraction.length)

end Numeral

namespace FloatLayout

open Numeral

variable {l : FloatLayout} {negative : Bool} {c : Char} {ds : List Char} {n : ℕ} {power : ℤ} {x : Binary64}

/-! ### Zeros -/

theorem isDigit_of_mem_zeros (h : c ∈ zeros n) : c.isDigit := isDigit_of_mem_replicate h

theorem integerFraction_eq (l : FloatLayout) : ∃ k, l.integerFraction = zeros k := by
  unfold integerFraction
  split
  · exact ⟨1, rfl⟩
  · exact ⟨0, rfl⟩

theorem ofDigitChars_zero_cons (ds : List Char) : Nat.ofDigitChars 10 ('0' :: ds) 0 = Nat.ofDigitChars 10 ds 0 :=
  Nat.ofDigitChars_cons

theorem ofDigitChars_zeros_append (n : ℕ) (ds : List Char) :
    Nat.ofDigitChars 10 (zeros n ++ ds) 0 = Nat.ofDigitChars 10 ds 0 := by
  rw [zeros, Nat.ofDigitChars_append, Nat.ofDigitChars_replicate_zero, Nat.mul_zero]

theorem ofDigitChars_append_zeros (ds : List Char) (n : ℕ) :
    Nat.ofDigitChars 10 (ds ++ zeros n) 0 = 10 ^ n * Nat.ofDigitChars 10 ds 0 := by
  rw [zeros, Nat.ofDigitChars_append, Nat.ofDigitChars_replicate_zero]

/-! ### The point -/

/-- Digits can be arranged unless they begin with a zero and others are to follow before the point. -/
theorem written_arrange (hds : ∀ d ∈ c :: ds, d.isDigit) (hzero : c = '0' → ds = [] ∧ power < 0) :
    (l.arrange negative (c :: ds) power).Written := by
  have htake : ∀ k, ∀ d ∈ (c :: ds).take k, d.isDigit := fun k d hd => hds d (List.mem_of_mem_take hd)
  have hdrop : ∀ k, ∀ d ∈ (c :: ds).drop k, d.isDigit := fun k d hd => hds d (List.mem_of_mem_drop hd)
  unfold arrange
  dsimp only
  split_ifs with hpositional hpower hlead
  · obtain ⟨k, hfraction⟩ := l.integerFraction_eq
    refine ⟨List.cons_ne_nil _ _, ?_, fun r h => ?_, fun d hd => isDigit_of_mem_zeros (hfraction ▸ hd)⟩
    · exact List.forall_mem_append.2 ⟨hds, fun _ => isDigit_of_mem_zeros⟩
    · have hc := (hzero (List.cons.inj h).1).2
      omega
  · refine ⟨List.cons_ne_nil _ _, htake _, fun r h => ?_, hdrop _⟩
    rw [← (List.cons.inj h).2, (hzero (List.cons.inj h).1).1, List.take_nil]
  · exact ⟨List.cons_ne_nil _ _, fun d hd => List.mem_singleton.1 hd ▸ rfl, fun r h => (List.cons.inj h).2.symm,
      List.forall_mem_append.2 ⟨fun _ => isDigit_of_mem_zeros, hds⟩⟩
  · exact ⟨List.cons_ne_nil _ _, htake _, fun r h => (List.cons.inj h).2.symm, hdrop _⟩

/-- The point does not change what the digits amount to. -/
theorem amount_arrange (l : FloatLayout) (negative : Bool) (hds : ds ≠ []) (power : ℤ) :
    (l.arrange negative ds power).amount = Nat.ofDigitChars 10 ds 0 * 10 ^ power := by
  have hlength : 0 < ds.length := List.length_pos_of_ne_nil hds
  unfold arrange
  dsimp only
  split_ifs with hpositional hpower hlead
  · obtain ⟨k, hfraction⟩ := l.integerFraction_eq
    obtain ⟨p, rfl⟩ := Int.eq_ofNat_of_zero_le hpower
    have hshift : (10 : ℚ) ^ k * 10 ^ (0 - (k : ℤ)) = 1 := by
      rw [zero_sub, zpow_neg, zpow_natCast, mul_inv_cancel₀ (by positivity)]
    rw [amount, hfraction, ofDigitChars_append_zeros, Int.toNat_natCast, ofDigitChars_append_zeros]
    simp only [Option.getD_none, zeros, List.length_replicate, Nat.cast_mul, Nat.cast_pow, Nat.cast_ofNat,
      zpow_natCast]
    calc (10 : ℚ) ^ k * (10 ^ p * Nat.ofDigitChars 10 ds 0) * 10 ^ (0 - (k : ℤ))
        = 10 ^ k * 10 ^ (0 - (k : ℤ)) * (Nat.ofDigitChars 10 ds 0 * 10 ^ p) := by ring
      _ = Nat.ofDigitChars 10 ds 0 * 10 ^ p := by rw [hshift, one_mul]
  · rw [amount, List.take_append_drop, List.length_drop]
    congr 2
    simp only [Option.getD_none]
    omega
  · rw [amount, List.singleton_append, ofDigitChars_zero_cons, ofDigitChars_zeros_append, List.length_append,
      zeros, List.length_replicate]
    congr 2
    simp only [Option.getD_none]
    omega
  · rw [amount, List.take_append_drop, List.length_drop]
    congr 2
    simp only [Option.getD_some]
    omega

theorem isInteger_arrange (hl : l.pointZero) (hds : ds ≠ []) (power : ℤ) :
    (l.arrange negative ds power).isInteger = false := by
  have hlength : 0 < ds.length := List.length_pos_of_ne_nil hds
  unfold arrange
  dsimp only
  split_ifs with hpositional hpower hlead
  · simp [isInteger, integerFraction, hl]
  · have hdrop : ds.drop (((ds.length : ℤ) - 1 + power).toNat + 1) ≠ [] := by
      rw [ne_eq, List.drop_eq_nil_iff]
      omega
    simp [isInteger, hdrop]
  · simp [isInteger, hds]
  · simp [isInteger]

/-- Among data there are so few digits before the point that they fit into 64 bits. -/
theorem length_whole_arrange (negative : Bool) (ds : List Char) (power : ℤ) :
    (data.arrange negative ds power).whole.length ≤ 16 := by
  unfold arrange
  dsimp only
  split_ifs with hpositional hpower hlead
  · simp only [data, Bool.and_eq_true, decide_eq_true_eq] at hpositional
    simp only [List.length_append, zeros, List.length_replicate]
    omega
  · simp only [data, Bool.and_eq_true, decide_eq_true_eq] at hpositional
    simp only [List.length_take]
    omega
  · simp
  · simp only [List.length_take]
    omega

/-! ### The numeral of a number -/

theorem numeral_of_isZero (hx : x.isZero = true) :
    l.numeral x = ⟨x.isNegative, ['0'], l.integerFraction, none⟩ := by
  rw [numeral, if_pos hx]

theorem numeral_of_not_isZero (hx : x.isZero = false) :
    l.numeral x =
      l.arrange x.isNegative (Nat.toDigits 10 (x.shortest l.tie).digits) (x.shortest l.tie).exponent := by
  rw [numeral, if_neg (by simp [hx])]

theorem written_numeral (l : FloatLayout) (x : Binary64) : (l.numeral x).Written := by
  cases hx : x.isZero with
  | true =>
    obtain ⟨k, hfraction⟩ := l.integerFraction_eq
    rw [numeral_of_isZero hx]
    exact ⟨List.cons_ne_nil _ _, fun d hd => List.mem_singleton.1 hd ▸ rfl, fun r h => (List.cons.inj h).2.symm,
      fun d hd => isDigit_of_mem_zeros (hfraction ▸ hd)⟩
  | false =>
    obtain ⟨c, ds, hds⟩ : ∃ c ds, Nat.toDigits 10 (x.shortest l.tie).digits = c :: ds :=
      List.exists_cons_of_ne_nil Nat.toDigits_ne_nil
    rw [numeral_of_not_isZero hx, hds]
    refine written_arrange (fun d hd => isDigit_of_mem_toDigits (hds ▸ hd)) fun hc => ?_
    subst hc
    refine ⟨(written_ofNat _).whole_zero _ hds, not_le.1 fun hexponent => ?_⟩
    exact toDigits_ne_zero_cons (Binary64.digits_shortest_pos hx hexponent) ds hds

theorem amount_numeral_le (l : FloatLayout) (x : Binary64) : (l.numeral x).amount ≤ x.midpointAbove := by
  cases hx : x.isZero with
  | true =>
    obtain ⟨k, hfraction⟩ := l.integerFraction_eq
    rw [numeral_of_isZero hx, amount, hfraction, ofDigitChars_append_zeros,
      show Nat.ofDigitChars 10 ['0'] 0 = 0 from rfl, Nat.mul_zero, Nat.cast_zero, zero_mul, Binary64.midpointAbove]
    positivity
  | false =>
    rw [numeral_of_not_isZero hx, amount_arrange _ _ Nat.toDigits_ne_nil, Nat.ofDigitChars_ten_toDigits]
    exact Binary64.value_shortest_le x l.tie

theorem isInteger_numeral (hl : l.pointZero) (x : Binary64) : (l.numeral x).isInteger = false := by
  cases hx : x.isZero with
  | true =>
    rw [numeral_of_isZero hx]
    simp [isInteger, integerFraction, hl]
  | false =>
    rw [numeral_of_not_isZero hx]
    exact isInteger_arrange hl Nat.toDigits_ne_nil _

theorem length_whole_numeral (x : Binary64) : (data.numeral x).whole.length ≤ 16 := by
  cases hx : x.isZero with
  | true =>
    rw [numeral_of_isZero hx]
    exact Nat.le_of_ble_eq_true rfl
  | false =>
    rw [numeral_of_not_isZero hx]
    exact length_whole_arrange _ _ _

end FloatLayout

end QueryClauses
