import Mathlib.Algebra.Order.Field.Power
import Mathlib.Data.Rat.Cast.Order
import Mathlib.Tactic.FieldSimp
import Mathlib.Tactic.Linarith
import Mathlib.Tactic.NormNum
import Mathlib.Tactic.Positivity
import Mathlib.Tactic.Ring
import QueryClauses.Binary64.Basic

/-! Rounding a quotient to a binary floating-point number. The grid on which it is rounded is so fine that the
result is off by at most one part in two to the power of 53, and it is finite if the quotient is less than half
a unit above the greatest finite number. -/

namespace QueryClauses.Binary64

variable {num den : ℕ} {q : ℚ} {u e : ℤ} {m : ℕ}

/-- The number without its sign, if it is finite. -/
def value (x : Binary64) : ℚ := x.significand * 2 ^ x.exponent

/-- What is below it is rounded to a finite number. -/
def overflow : ℚ := (2 ^ 53 - 1 / 2) * 2 ^ (971 : ℤ)

/-! ### Shifts -/

/-- Of the powers with opposite exponents only one counts, so their quotient is the power itself. -/
theorem pow_toNat {b : ℚ} (hb : b ≠ 0) (e : ℤ) : b ^ e.toNat = b ^ e * b ^ (-e).toNat := by
  obtain ⟨n, rfl | rfl⟩ := e.eq_nat_or_neg
  · rw [Int.toNat_natCast, Int.toNat_neg_natCast, pow_zero, mul_one, zpow_natCast]
  · rw [Int.toNat_neg_natCast, neg_neg, Int.toNat_natCast, pow_zero, zpow_neg, zpow_natCast,
      inv_mul_cancel₀ (pow_ne_zero n hb)]

theorem cast_shiftLeft (a n : ℕ) : ((a <<< n : ℕ) : ℚ) = a * 2 ^ n := by
  rw [Nat.shiftLeft_eq, Nat.cast_mul, Nat.cast_pow, Nat.cast_ofNat]

theorem div_shiftLeft (a b : ℕ) (e : ℤ) :
    ((a <<< e.toNat : ℕ) : ℚ) / ((b <<< (-e).toNat : ℕ) : ℚ) = a / b * 2 ^ e := by
  rw [cast_shiftLeft, cast_shiftLeft, pow_toNat two_ne_zero e, ← mul_assoc,
    mul_div_mul_right _ _ (pow_ne_zero _ two_ne_zero), mul_div_right_comm]

theorem ratio_div (x : Binary64) : (x.ratio.1 : ℚ) / x.ratio.2 = x.value := by
  rw [ratio, value, div_shiftLeft, Nat.cast_one, div_one]

/-! ### The nearest natural number -/

theorem roundQuotient_bounds (num den : ℕ) (hd : 0 < den) :
    2 * (den * roundQuotient num den) ≤ 2 * num + den ∧ 2 * num ≤ 2 * (den * roundQuotient num den) + den := by
  have hdiv := Nat.div_add_mod num den
  have hmod := Nat.mod_lt num hd
  rw [roundQuotient]
  split_ifs with hlow hhigh
  · omega
  · rw [Nat.mul_add, Nat.mul_one]
    omega
  · rcases Nat.mod_two_eq_zero_or_one (num / den) with h | h <;> rw [h, Nat.mul_add] <;> omega

theorem roundQuotient_le (num : ℕ) (hd : 0 < den) : (roundQuotient num den : ℚ) ≤ num / den + 1 / 2 := by
  have hpos : (0 : ℚ) < den := by exact_mod_cast hd
  have h : (2 * (den * roundQuotient num den) : ℚ) ≤ 2 * num + den := by
    exact_mod_cast (roundQuotient_bounds num den hd).1
  rw [div_add_div _ _ hpos.ne' two_ne_zero, le_div_iff₀ (by positivity)]
  linarith

theorem le_roundQuotient (num : ℕ) (hd : 0 < den) : (num / den - 1 / 2 : ℚ) ≤ roundQuotient num den := by
  have hpos : (0 : ℚ) < den := by exact_mod_cast hd
  have h : (2 * num : ℚ) ≤ 2 * (den * roundQuotient num den) + den := by
    exact_mod_cast (roundQuotient_bounds num den hd).2
  rw [div_sub_div _ _ hpos.ne' two_ne_zero, div_le_iff₀ (by positivity)]
  linarith

/-! ### The binary logarithm -/

theorem shiftLeft_le_iff (hn : 0 < num) (hd : 0 < den) (e : ℤ) :
    den <<< e.toNat ≤ num <<< (-e).toNat ↔ (2 : ℚ) ^ e ≤ num / den := by
  have hnum : (0 : ℚ) < num := by exact_mod_cast hn
  have hden : (0 : ℚ) < den := by exact_mod_cast hd
  have hpos : (0 : ℚ) < ((num <<< (-e).toNat : ℕ) : ℚ) := by
    rw [cast_shiftLeft]
    positivity
  rw [← Nat.cast_le (α := ℚ), ← div_le_one hpos, div_shiftLeft, le_div_iff₀ hden, div_mul_eq_mul_div,
    div_le_one hnum, mul_comm]

theorem floorLog2_bounds (hn : 0 < num) (hd : 0 < den) :
    (2 : ℚ) ^ floorLog2 num den ≤ num / den ∧ (num / den : ℚ) < 2 ^ (floorLog2 num den + 1) := by
  have hden : (0 : ℚ) < den := by exact_mod_cast hd
  have hnlo : (2 : ℚ) ^ (num.log2 : ℤ) ≤ num := by exact_mod_cast Nat.log2_self_le hn.ne'
  have hnhi : (num : ℚ) < 2 ^ ((num.log2 : ℤ) + 1) := by exact_mod_cast Nat.lt_log2_self
  have hdlo : (2 : ℚ) ^ (den.log2 : ℤ) ≤ den := by exact_mod_cast Nat.log2_self_le hd.ne'
  have hdhi : (den : ℚ) < 2 ^ ((den.log2 : ℤ) + 1) := by exact_mod_cast Nat.lt_log2_self
  have hlower : (2 : ℚ) ^ ((num.log2 : ℤ) - den.log2 - 1) ≤ num / den := by
    rw [le_div_iff₀ hden]
    calc (2 : ℚ) ^ ((num.log2 : ℤ) - den.log2 - 1) * den
        ≤ 2 ^ ((num.log2 : ℤ) - den.log2 - 1) * 2 ^ ((den.log2 : ℤ) + 1) := by gcongr
      _ = 2 ^ (num.log2 : ℤ) := by rw [← zpow_add₀ two_ne_zero]; congr 1; ring
      _ ≤ num := hnlo
  have hupper : (num / den : ℚ) < 2 ^ ((num.log2 : ℤ) - den.log2 + 1) := by
    rw [div_lt_iff₀ hden]
    calc (num : ℚ) < 2 ^ ((num.log2 : ℤ) + 1) := hnhi
      _ = 2 ^ ((num.log2 : ℤ) - den.log2 + 1) * 2 ^ (den.log2 : ℤ) := by
          rw [← zpow_add₀ two_ne_zero]; congr 1; ring
      _ ≤ 2 ^ ((num.log2 : ℤ) - den.log2 + 1) * den := by gcongr
  unfold floorLog2
  dsimp only
  split
  · next h => exact ⟨(shiftLeft_le_iff hn hd _).1 h, hupper⟩
  · next h =>
    rw [shiftLeft_le_iff hn hd, not_le] at h
    exact ⟨hlower, by rwa [sub_add_cancel]⟩

/-! ### The grid -/

/-- The multiple `m` of two to the power of `u` is nearest to a quotient, and the grid of these multiples is as
fine as 53 digits allow. -/
structure Rounds (q : ℚ) (u : ℤ) (m : ℕ) : Prop where
  finest_le : -1074 ≤ u
  lt : q < 2 ^ (u + 53)
  normal : -1074 < u → (2 : ℚ) ^ (u + 52) ≤ q
  le : (m : ℚ) ≤ q * 2 ^ (-u) + 1 / 2
  ge : q * 2 ^ (-u) - 1 / 2 ≤ m

theorem exists_rounds (hn : 0 < num) (hd : 0 < den) :
    ∃ u m, Rounds (num / den) u m ∧ nearest num den = min ((u + 1074).toNat <<< 52 + m) infinity := by
  obtain ⟨hlo, hhi⟩ := floorLog2_bounds hn hd
  refine ⟨max (floorLog2 num den - 52) (-1074), _, ?_, by rw [nearest, if_neg hn.ne']⟩
  generalize floorLog2 num den = e at *
  have hpos : 0 < den <<< (max (e - 52) (-1074)).toNat := Nat.shiftLeft_pos_iff.2 hd
  have hscaled := div_shiftLeft num den (-max (e - 52) (-1074))
  rw [neg_neg] at hscaled
  exact {
    finest_le := le_max_right _ _
    lt := hhi.trans_le (zpow_le_zpow_right₀ one_le_two (by omega))
    normal := fun h => by rwa [show max (e - 52) (-1074) + 52 = e by omega]
    le := hscaled ▸ roundQuotient_le _ hpos
    ge := hscaled ▸ le_roundQuotient _ hpos }

theorem Rounds.le_max (h : Rounds q u m) : m ≤ 2 ^ 53 := by
  have hlt : q * 2 ^ (-u) < 2 ^ (53 : ℕ) := by
    calc q * 2 ^ (-u) < 2 ^ (u + 53) * 2 ^ (-u) := by gcongr; exact h.lt
      _ = 2 ^ (53 : ℕ) := by rw [← zpow_add₀ two_ne_zero, ← zpow_natCast]; congr 1; push_cast; ring
  have hm : (m : ℚ) < 2 ^ 53 + 1 := by linarith [h.le]
  exact Nat.le_of_lt_succ (by exact_mod_cast hm)

theorem Rounds.min_le (h : Rounds q u m) (hq : (2 : ℚ) ^ (u + 52) ≤ q) : 2 ^ 52 ≤ m := by
  have hge : (2 : ℚ) ^ (52 : ℕ) ≤ q * 2 ^ (-u) := by
    calc (2 : ℚ) ^ (52 : ℕ) = 2 ^ (u + 52) * 2 ^ (-u) := by
          rw [← zpow_add₀ two_ne_zero, ← zpow_natCast]; congr 1; push_cast; ring
      _ ≤ q * 2 ^ (-u) := by gcongr
  have hm : (2 ^ 52 : ℚ) < m + 1 := by linarith [h.ge]
  exact Nat.le_of_lt_succ (by exact_mod_cast hm)

/-- A quotient that is less than half a unit above the greatest finite number is rounded to a finite one. -/
theorem nearest_lt_infinity (hd : 0 < den) (hq : (num / den : ℚ) < overflow) : nearest num den < infinity := by
  rcases Nat.eq_zero_or_pos num with rfl | hn
  · rw [nearest, if_pos rfl]
    decide
  obtain ⟨u, m, h, hnearest⟩ := exists_rounds hn hd
  have htop : overflow < 2 ^ (1024 : ℤ) := by
    rw [overflow, show (1024 : ℤ) = 53 + 971 by norm_num, zpow_add₀ two_ne_zero]
    gcongr
    norm_num
  have hu : u ≤ 971 := by
    by_contra hlt
    have hbig := h.normal (by omega)
    have hle : (2 : ℚ) ^ (1024 : ℤ) ≤ 2 ^ (u + 52) := zpow_le_zpow_right₀ one_le_two (by omega)
    linarith
  have hm := h.le_max
  have hfinest := h.finest_le
  refine hnearest ▸ (Nat.min_le_left _ _).trans_lt ?_
  rw [infinity]
  rcases hu.lt_or_eq with hlt | rfl
  · omega
  · -- On the coarsest grid the greatest significand has one unit to go, and the quotient is half a unit below.
    have hscaled : (num / den : ℚ) * 2 ^ (-971 : ℤ) < 2 ^ 53 - 1 / 2 := by
      calc (num / den : ℚ) * 2 ^ (-971 : ℤ) < overflow * 2 ^ (-971 : ℤ) := by gcongr
        _ = 2 ^ 53 - 1 / 2 := by
          rw [overflow, mul_assoc, ← zpow_add₀ two_ne_zero]
          norm_num
    have hlt : (m : ℚ) < 2 ^ 53 := by linarith [h.le]
    have hmlt : m < 2 ^ 53 := by exact_mod_cast hlt
    omega

/-! ### The number on the grid -/

theorem magnitude_ofMagnitude (negative : Bool) (hm : m < 1 <<< 63) : (ofMagnitude negative m).magnitude = m := by
  rw [Nat.one_shiftLeft] at hm
  cases negative <;>
    simp only [ofMagnitude, magnitude, UInt64.toNat_ofNat', Bool.false_eq_true, if_true, if_false,
      Nat.one_shiftLeft] <;>
    omega

theorem value_ofMagnitude (hu : -1074 ≤ u) (hlo : 2 ^ 52 ≤ m) (hhi : m ≤ 2 ^ 53)
    (hfinite : (u + 1074).toNat <<< 52 + m < infinity) :
    (ofMagnitude false ((u + 1074).toNat <<< 52 + m)).value = m * 2 ^ u := by
  have hmagnitude := magnitude_ofMagnitude (m := (u + 1074).toNat <<< 52 + m) false
    (by rw [infinity] at hfinite; omega)
  rw [value, significand, exponent, hmagnitude, Nat.one_shiftLeft, if_neg (by omega)]
  rcases hhi.lt_or_eq with hlt | rfl
  · rw [show ((u + 1074).toNat <<< 52 + m) % 2 ^ 52 + 2 ^ 52 = m by omega,
      show ((max (((u + 1074).toNat <<< 52 + m) >>> 52) 1 : ℕ) : ℤ) - 1075 = u by omega]
  · -- The carry goes to the exponent, and the significand is the least one on the next grid.
    rw [show ((u + 1074).toNat <<< 52 + 2 ^ 53) % 2 ^ 52 + 2 ^ 52 = 2 ^ 52 by omega,
      show ((max (((u + 1074).toNat <<< 52 + 2 ^ 53) >>> 52) 1 : ℕ) : ℤ) - 1075 = u + 1 by omega,
      zpow_add_one₀ two_ne_zero]
    push_cast
    ring

/-- Rounding adds at most one part in two to the power of 53. -/
theorem value_ofRatio_le (hn : 0 < num) (hd : 0 < den) (hq : (2 : ℚ) ^ (-1022 : ℤ) ≤ num / den)
    (hfinite : nearest num den < infinity) :
    (ofRatio false num den).value ≤ num / den * (1 + 2 ^ (-53 : ℤ)) := by
  obtain ⟨u, m, h, hnearest⟩ := exists_rounds hn hd
  have hnormal : (2 : ℚ) ^ (u + 52) ≤ num / den := by
    rcases h.finest_le.lt_or_eq with hlt | rfl
    · exact h.normal hlt
    · simpa using hq
  rw [hnearest] at hfinite
  have hfinite' : (u + 1074).toNat <<< 52 + m < infinity := (min_lt_iff.1 hfinite).resolve_right (lt_irrefl _)
  rw [ofRatio, hnearest, min_eq_left hfinite'.le,
    value_ofMagnitude h.finest_le (h.min_le hnormal) h.le_max hfinite']
  have hhalf : (2 : ℚ) ^ (u + 52) * 2 ^ (-53 : ℤ) = 1 / 2 * 2 ^ u := by
    rw [← zpow_add₀ two_ne_zero, show u + 52 + -53 = -1 + u by ring, zpow_add₀ two_ne_zero, zpow_neg_one, one_div]
  calc (m : ℚ) * 2 ^ u ≤ (num / den * 2 ^ (-u) + 1 / 2) * 2 ^ u := by gcongr; exact h.le
    _ = num / den + 1 / 2 * 2 ^ u := by
        rw [add_mul, mul_assoc, ← zpow_add₀ two_ne_zero, neg_add_cancel, zpow_zero, mul_one]
    _ ≤ num / den + num / den * 2 ^ (-53 : ℤ) := by rw [← hhalf]; gcongr
    _ = num / den * (1 + 2 ^ (-53 : ℤ)) := by ring

theorem isFinite_ofMagnitude (negative : Bool) (hm : m < infinity) : (ofMagnitude negative m).isFinite = true := by
  rw [isFinite, magnitude_ofMagnitude negative (hm.trans (by decide)), decide_eq_true hm]

end QueryClauses.Binary64
