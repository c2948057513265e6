import QueryClauses.Numeral.Value
import QueryClauses.Proofs.Numeral.Layout

/-! What a numeral is read as. The numeral of an integer of 64 bits is read as that integer, and the numeral of a
finite float among data as a float. That float is a product of two rounded factors. Each rounding may add one part
in two to the power of 53, and only for the two greatest magnitudes this could be too much: their numerals are
read as they are. -/

namespace QueryClauses

namespace Binary64

variable {m n : ℕ} {x : Binary64}

/-- Numbers whose product is at most this can be rounded before they are multiplied: the result is finite. -/
def scalable : ℚ := (2 ^ 53 - 5 / 2) * 2 ^ (971 : ℤ)

theorem scalable_lt_overflow : scalable < overflow := by
  rw [scalable, overflow]
  gcongr
  norm_num

theorem scalable_mul_lt_overflow : scalable * (1 + 2 ^ (-53 : ℤ)) ^ 2 < overflow := by
  rw [scalable, overflow, mul_right_comm]
  gcongr
  norm_num

theorem scalable_lt_pow : scalable < 10 ^ 309 := by
  have hpow : ((2 ^ 1024 : ℕ) : ℚ) < (10 ^ 309 : ℕ) := Nat.cast_lt.2 (by decide +kernel)
  rw [Nat.cast_pow, Nat.cast_pow, Nat.cast_ofNat, Nat.cast_ofNat] at hpow
  calc scalable ≤ 2 ^ 53 * 2 ^ (971 : ℤ) := by
        rw [scalable]
        gcongr
        norm_num
    _ = 2 ^ 1024 := by rw [← zpow_natCast 2 53, ← zpow_add₀ two_ne_zero, ← zpow_natCast]; rfl
    _ < 10 ^ 309 := hpow

/-! ### Products -/

theorem value_ofNat_le (hn : 0 < n) (h : (n : ℚ) ≤ scalable) : (ofNat n).value ≤ n * (1 + 2 ^ (-53 : ℤ)) := by
  have hone : (1 : ℚ) ≤ n := by exact_mod_cast hn
  have hsmall : (2 : ℚ) ^ (-1022 : ℤ) ≤ n / (1 : ℕ) := by
    rw [Nat.cast_one, div_one]
    exact (zpow_le_one_of_nonpos₀ one_le_two (by norm_num)).trans hone
  have hlt : nearest n 1 < infinity := by
    refine nearest_lt_infinity Nat.one_pos ?_
    rw [Nat.cast_one, div_one]
    exact h.trans_lt scalable_lt_overflow
  have hvalue := value_ofRatio_le hn Nat.one_pos hsmall hlt
  rwa [Nat.cast_one, div_one] at hvalue

theorem ratio_snd_pos (x : Binary64) : 0 < x.ratio.2 := Nat.shiftLeft_pos_iff.2 Nat.one_pos

theorem value_nonneg (x : Binary64) : 0 ≤ x.value := by
  rw [value]
  positivity

theorem isFinite_mulMagnitude (hm : 0 < m) (hn : 0 < n) (h : (m * n : ℚ) ≤ scalable) :
    ((ofNat m).mulMagnitude (ofNat n)).isFinite = true := by
  have hm1 : (1 : ℚ) ≤ m := by exact_mod_cast hm
  have hn1 : (1 : ℚ) ≤ n := by exact_mod_cast hn
  have hmle := value_ofNat_le hm ((le_mul_of_one_le_right (by positivity) hn1).trans h)
  have hnle := value_ofNat_le hn ((le_mul_of_one_le_left (by positivity) hm1).trans h)
  refine isFinite_ofMagnitude false (nearest_lt_infinity (Nat.mul_pos (ratio_snd_pos _) (ratio_snd_pos _)) ?_)
  rw [Nat.cast_mul, Nat.cast_mul, mul_div_mul_comm, ratio_div, ratio_div]
  calc (ofNat m).value * (ofNat n).value
      ≤ m * (1 + 2 ^ (-53 : ℤ)) * (n * (1 + 2 ^ (-53 : ℤ))) :=
        mul_le_mul hmle hnle (value_nonneg _) (by positivity)
    _ = m * n * (1 + 2 ^ (-53 : ℤ)) ^ 2 := by ring
    _ ≤ scalable * (1 + 2 ^ (-53 : ℤ)) ^ 2 := by gcongr
    _ < overflow := scalable_mul_lt_overflow

theorem isSome_scaleUp? (h : (m * 10 ^ n : ℚ) ≤ scalable) : ((ofNat m).scaleUp? n).isSome = true := by
  rw [scaleUp?]
  rcases Nat.eq_zero_or_pos m with rfl | hm
  · rfl
  have hm1 : (1 : ℚ) ≤ m := by exact_mod_cast hm
  -- The significand is at least one, so a greater power would be too great by itself.
  have hn : n ≤ maxPower := by
    by_contra hlt
    have hpow : (10 : ℚ) ^ 309 ≤ 10 ^ n := pow_le_pow_right₀ (by norm_num) (Nat.succ_le_of_lt (not_le.1 hlt))
    have hscaled : (10 : ℚ) ^ n ≤ scalable := (le_mul_of_one_le_left (by positivity) hm1).trans h
    exact absurd (hpow.trans hscaled) (not_le.2 scalable_lt_pow)
  have hfinite : ((ofNat m).mulMagnitude (powerOfTen n)).isFinite = true := by
    refine isFinite_mulMagnitude hm (Nat.pow_pos (by decide)) ?_
    rwa [Nat.pow_eq, Nat.cast_pow, Nat.cast_ofNat]
  by_cases hzero : (ofNat m).isZero = true
  · rw [if_pos hzero]
    rfl
  · rw [if_neg hzero, if_pos hn]
    dsimp only
    rw [if_pos hfinite]
    rfl

/-- A natural number is scaled by any power of ten, if the result is not too great. -/
theorem isSome_scale? {e : ℤ} (h : (m * 10 ^ e : ℚ) ≤ scalable) : ((ofNat m).scale? e).isSome = true := by
  cases e with
  | ofNat n =>
    refine isSome_scaleUp? ?_
    rwa [Int.ofNat_eq_natCast, zpow_natCast] at h
  | negSucc n => rfl

/-! ### The greatest magnitudes -/

theorem midpointAbove_le_scalable (hx : x.magnitude < infinity - 2) : x.midpointAbove ≤ scalable := by
  have hinfinity : infinity = 2047 * 2 ^ 52 := rfl
  have hshift : x.magnitude >>> 52 = x.magnitude / 2 ^ 52 := Nat.shiftRight_eq_div_pow _ _
  have hexponent : x.exponent ≤ 971 := by
    rw [exponent]
    omega
  rw [midpointAbove, scalable]
  rcases hexponent.lt_or_eq with hlt | heq
  · have hs : (x.significand : ℚ) ≤ 2 ^ 53 := by exact_mod_cast x.significand_lt.le
    calc ((x.significand : ℚ) + 1 / 2) * 2 ^ x.exponent ≤ (2 ^ 53 + 1 / 2) * 2 ^ (970 : ℤ) := by
          gcongr
          · exact one_le_two
          · omega
      _ ≤ (2 ^ 53 - 5 / 2) * 2 ^ (971 : ℤ) := by
          rw [show (971 : ℤ) = 1 + 970 by norm_num, zpow_add₀ two_ne_zero, ← mul_assoc]
          gcongr
          norm_num
  · have hs : (x.significand : ℚ) ≤ 2 ^ 53 - 3 := by
      have hnat : x.significand + 3 ≤ 2 ^ 53 := by
        rw [exponent] at heq
        rw [significand, Nat.one_shiftLeft]
        split <;> omega
      have hcast : ((x.significand + 3 : ℕ) : ℚ) ≤ (2 ^ 53 : ℕ) := Nat.cast_le.2 hnat
      push_cast at hcast
      linarith
    rw [heq]
    gcongr
    linarith

theorem exists_eq_ofMagnitude (x : Binary64) : ∃ negative, x = ofMagnitude negative x.magnitude := by
  have hbits := x.bits.toNat_lt
  refine ⟨x.isNegative, congrArg mk (UInt64.toNat_inj.1 ?_)⟩
  rw [UInt64.toNat_ofNat', magnitude, isNegative, Nat.one_shiftLeft]
  simp only [decide_eq_true_eq]
  split <;> omega

end Binary64

namespace Numeral

variable {n : Numeral} {m : ℕ} {ds : List Char}

/-! ### Significands -/

/-- Digits are left over only if that makes the number less. -/
theorem fill_le (m : ℕ) (ds : List Char) :
    (fill m ds).1 * 10 ^ (fill m ds).2.length ≤ Nat.ofDigitChars 10 ds m := by
  induction ds generalizing m with
  | nil => rw [fill, List.length_nil, Nat.pow_zero, Nat.mul_one, Nat.ofDigitChars_nil]
  | cons c ds ih =>
    rw [fill]
    split
    · rw [Nat.ofDigitChars_cons, Nat.mul_comm 10]
      exact ih _
    · exact le_ofDigitChars m (c :: ds)

/-- Nothing is left over of a number that fits. -/
theorem fill_eq (h : Nat.ofDigitChars 10 ds m ≤ maxSignificand) :
    fill m ds = (Nat.ofDigitChars 10 ds m, []) := by
  induction ds generalizing m with
  | nil => rfl
  | cons c ds ih =>
    rw [Nat.ofDigitChars_cons, Nat.mul_comm 10] at h ⊢
    have hle : m * 10 + digitValue c ≤ maxSignificand :=
      ((Nat.le_mul_of_pos_right _ (Nat.pow_pos (by decide))).trans (le_ofDigitChars _ ds)).trans h
    rw [fill, if_pos hle]
    exact ih h

/-- What is read is not greater than what is written. -/
theorem parts_le_amount (h : n.Written) (hwhole : n.whole.length ≤ 16) :
    (n.parts.1 * 10 ^ n.parts.2 : ℚ) ≤ n.amount := by
  -- All digits before the point are kept, so those behind it go on with the same number.
  have hfits : Nat.ofDigitChars 10 n.whole 0 ≤ maxSignificand := by
    have hlt := (ofDigitChars_lt h.whole).trans_le (Nat.pow_le_pow_right (by decide) hwhole)
    exact hlt.le.trans (by decide)
  have hle := fill_le (Nat.ofDigitChars 10 n.whole 0) n.fraction
  rw [← Nat.ofDigitChars_append] at hle
  have hcast : ((fill (Nat.ofDigitChars 10 n.whole 0) n.fraction).1 : ℚ) *
      10 ^ (fill (Nat.ofDigitChars 10 n.whole 0) n.fraction).2.length ≤
        Nat.ofDigitChars 10 (n.whole ++ n.fraction) 0 := by
    exact_mod_cast hle
  rw [parts, fill_eq hfits, amount]
  dsimp only
  generalize fill (Nat.ofDigitChars 10 n.whole 0) n.fraction = filled at hcast ⊢
  calc (filled.1 : ℚ) * 10 ^ (([] : List Char).length + filled.2.length - n.fraction.length + n.exponent.getD 0 : ℤ)
      = filled.1 * 10 ^ filled.2.length * 10 ^ (n.exponent.getD 0 - n.fraction.length) := by
        rw [mul_assoc, ← zpow_natCast, ← zpow_add₀ (by norm_num)]
        congr 2
        simp only [List.length_nil]
        omega
    _ ≤ Nat.ofDigitChars 10 (n.whole ++ n.fraction) 0 * 10 ^ (n.exponent.getD 0 - n.fraction.length) := by
        gcongr

/-! ### Floats -/

theorem isSome_toBinary64? (h : n.Written) (hwhole : n.whole.length ≤ 16)
    (hamount : n.amount ≤ Binary64.scalable) :
    n.toBinary64?.isSome = true := by
  rw [toBinary64?, Option.isSome_map]
  exact Binary64.isSome_scale? ((parts_le_amount h hwhole).trans hamount)

/-- The two greatest magnitudes, with either sign. -/
theorem isSome_toBinary64?_greatest :
    ∀ negative, ∀ m ∈ [Binary64.infinity - 1, Binary64.infinity - 2],
      (FloatLayout.data.numeral (.ofMagnitude negative m)).toBinary64?.isSome = true := by
  decide +kernel

/-- The numeral of a finite float is read as a float. -/
theorem isSome_toBinary64?_numeral {x : Binary64} (hx : x.isFinite = true) :
    (FloatLayout.data.numeral x).toBinary64?.isSome = true := by
  rcases Nat.lt_or_ge x.magnitude (Binary64.infinity - 2) with hlt | hge
  · refine isSome_toBinary64? (FloatLayout.written_numeral _ x) (FloatLayout.length_whole_numeral x) ?_
    exact (FloatLayout.amount_numeral_le _ x).trans (Binary64.midpointAbove_le_scalable hlt)
  · have hlt : x.magnitude < Binary64.infinity := of_decide_eq_true hx
    have hgreatest : x.magnitude ∈ [Binary64.infinity - 1, Binary64.infinity - 2] := by
      simp only [List.mem_cons, List.not_mem_nil, or_false]
      omega
    obtain ⟨negative, heq⟩ := x.exists_eq_ofMagnitude
    rw [heq]
    exact isSome_toBinary64?_greatest negative _ hgreatest

/-! ### Integers -/

theorem toInt64?_of_not_integer (h : n.isInteger = false) : n.toInt64? = none := by
  rw [toInt64?, h]
  rfl

/-- The numeral of an integer of 64 bits is read as that integer, and the least has no counterpart with the other
sign. -/
theorem toInt64?_ofInt (i : Int64) : (ofInt i.toInt).toInt64? = some i := by
  have hlow : -2 ^ 63 ≤ i.toInt := i.le_toInt
  have hhigh : i.toInt < 2 ^ 63 := i.toInt_lt
  have hvalue : (ofInt i.toInt).toNat = i.toInt.natAbs := Nat.ofDigitChars_ten_toDigits
  have hinteger : (ofInt i.toInt).isInteger = true := rfl
  have hnegative : (ofInt i.toInt).negative = decide (i.toInt < 0) := rfl
  rw [toInt64?, hinteger, hvalue, hnegative, Nat.one_shiftLeft, Bool.not_true, if_neg Bool.false_ne_true]
  rcases lt_or_ge i.toInt 0 with hneg | hpos
  · have habs : -(i.toInt.natAbs : ℤ) = i.toInt := by omega
    have hfits : (i.toInt.natAbs ≠ 0 && i.toInt.natAbs ≤ 2 ^ 63 : Bool) = true := by
      rw [Bool.and_eq_true, decide_eq_true_eq, decide_eq_true_eq]
      omega
    rw [if_pos (decide_eq_true hneg), if_pos hfits, habs, Int64.ofInt_toInt]
  · have habs : (i.toInt.natAbs : ℤ) = i.toInt := by omega
    rw [if_neg (by simpa using hpos), if_pos (by omega), ← Int64.ofInt_eq_ofNat, habs, Int64.ofInt_toInt]

end Numeral

end QueryClauses
