import QueryClauses.Binary64.Shortest
import QueryClauses.Proofs.Binary64.Rounding

/-! The decimal chosen for a number is one that the number contains, so it is at most half a unit above the
number, and it is not zero. Should no grid have such a decimal, the choice is zero on the finest grid, which is
not too great either. -/

namespace QueryClauses

/-- The number that a decimal is. -/
def Decimal.value (d : Decimal) : ℚ := d.digits * 10 ^ d.exponent

namespace Binary64

variable {x : Binary64} {tie : TieRule} {digits quarters : ℕ} {power : ℤ}

/-- Half way from the magnitude of a number to the one above it. -/
def midpointAbove (x : Binary64) : ℚ := (x.significand + 1 / 2) * 2 ^ x.exponent

theorem significand_pos (hx : x.isZero = false) : 0 < x.significand := by
  have hne : x.magnitude ≠ 0 := by simpa [isZero] using hx
  rw [significand, Nat.one_shiftLeft]
  split <;> omega

theorem significand_lt (x : Binary64) : x.significand < 2 ^ 53 := by
  rw [significand, Nat.one_shiftLeft]
  split <;> omega

/-! ### Comparisons -/

/-- Both sides are multiplied by the powers that would make them fractions. -/
theorem exists_scale (x : Binary64) (digits : ℕ) (power : ℤ) (quarters : ℕ) :
    ∃ (a b : ℕ) (k : ℚ), x.compareQuarters digits power quarters = compare a b ∧ 0 < k ∧
      (a : ℚ) = digits * 10 ^ power * k ∧ (b : ℚ) = quarters * 2 ^ (x.exponent - 2) * k := by
  refine ⟨_, _, 10 ^ (-power).toNat * 2 ^ (-(x.exponent - 2)).toNat, rfl, by positivity, ?_, ?_⟩
  · rw [cast_shiftLeft, Nat.cast_mul, Nat.pow_eq, Nat.cast_pow, Nat.cast_ofNat, pow_toNat (by norm_num) power]
    ring
  · rw [cast_shiftLeft, Nat.cast_mul, Nat.pow_eq, Nat.cast_pow, Nat.cast_ofNat,
      pow_toNat two_ne_zero (x.exponent - 2)]
    ring

theorem compareQuarters_isLE_iff :
    (x.compareQuarters digits power quarters).isLE ↔
      (digits * 10 ^ power : ℚ) ≤ quarters * 2 ^ (x.exponent - 2) := by
  obtain ⟨a, b, k, hcompare, hk, ha, hb⟩ := exists_scale x digits power quarters
  rw [hcompare, Nat.isLE_compare, ← Nat.cast_le (α := ℚ), ha, hb, mul_le_mul_iff_left₀ hk]

theorem compareQuarters_isGE_iff :
    (x.compareQuarters digits power quarters).isGE ↔
      (quarters * 2 ^ (x.exponent - 2) : ℚ) ≤ digits * 10 ^ power := by
  obtain ⟨a, b, k, hcompare, hk, ha, hb⟩ := exists_scale x digits power quarters
  rw [hcompare, Nat.isGE_compare, ← Nat.cast_le (α := ℚ), ha, hb, mul_le_mul_iff_left₀ hk]

/-! ### Decimals that a number contains -/

theorem value_le_of_contains (h : x.contains digits power = true) :
    (digits * 10 ^ power : ℚ) ≤ x.midpointAbove := by
  have hle : (x.compareQuarters digits power (4 * x.significand + 2)).isLE := by
    simp only [contains, Bool.and_eq_true, Bool.or_eq_true, beq_iff_eq] at h
    rcases h.2 with h | h
    · rw [h]; rfl
    · rw [h.2]; rfl
  calc (digits * 10 ^ power : ℚ) ≤ (4 * x.significand + 2 : ℕ) * 2 ^ (x.exponent - 2) :=
        compareQuarters_isLE_iff.1 hle
    _ = x.midpointAbove := by
        rw [midpointAbove, zpow_sub₀ two_ne_zero]
        push_cast
        ring

theorem pos_of_contains (hx : x.isZero = false) (h : x.contains digits power = true) : 0 < digits := by
  have hpos := significand_pos hx
  simp only [contains, Bool.and_eq_true, Bool.or_eq_true, beq_iff_eq] at h
  generalize hlower : (if x.narrowBelow then 4 * x.significand - 1 else 4 * x.significand - 2) = lower at h
  have hge : (x.compareQuarters digits power lower).isGE := by
    rcases h.1 with h | h
    · rw [h]; rfl
    · rw [h.2]; rfl
  have hlowerPos : (0 : ℚ) < lower := by
    have hnat : 0 < lower := by
      rw [← hlower]
      split <;> omega
    exact_mod_cast hnat
  have hbelow : (0 : ℚ) < digits * 10 ^ power :=
    (mul_pos hlowerPos (by positivity)).trans_le (compareQuarters_isGE_iff.1 hge)
  have hdigits : (0 : ℚ) < digits := pos_of_mul_pos_left hbelow (by positivity)
  exact_mod_cast hdigits

theorem contains_of_onGrid?_eq_some (h : x.onGrid? tie power = some digits) : x.contains digits power = true := by
  unfold onGrid? at h
  dsimp only at h
  split at h
  · next hbelow habove =>
    split at h
    · exact Option.some.inj h ▸ habove
    · exact Option.some.inj h ▸ hbelow
    · -- Half way between two multiples, both are contained, so the parity does not matter.
      cases tie with
      | toEven =>
        rcases Nat.mod_two_eq_zero_or_one (x.floorOnGrid power) with hmod | hmod
        · rw [hmod] at h
          exact Option.some.inj h ▸ hbelow
        · rw [hmod] at h
          exact Option.some.inj h ▸ habove
      | up => exact Option.some.inj h ▸ habove
  · next hbelow _ => exact Option.some.inj h ▸ hbelow
  · next _ habove => exact Option.some.inj h ▸ habove
  · cases h

/-! ### The decimal chosen -/

theorem search_eq_or_contains (x : Binary64) (tie : TieRule) (n : ℕ) :
    x.search tie n = ⟨0, -324⟩ ∨ x.contains (x.search tie n).digits (x.search tie n).exponent = true := by
  induction n with
  | zero =>
    rw [search]
    cases h : x.onGrid? tie (-324) with
    | none => exact .inl rfl
    | some digits => exact .inr (contains_of_onGrid?_eq_some h)
  | succ n ih =>
    rw [search]
    split
    · next digits h => exact .inr (contains_of_onGrid?_eq_some h)
    · exact ih

theorem value_shortest_le (x : Binary64) (tie : TieRule) : (x.shortest tie).value ≤ x.midpointAbove := by
  rcases search_eq_or_contains x tie 632 with h | h
  · rw [shortest, h, Decimal.value, Nat.cast_zero, zero_mul, midpointAbove]
    positivity
  · exact value_le_of_contains h

/-- An integer is chosen with digits other than zero. -/
theorem digits_shortest_pos (hx : x.isZero = false) (hexponent : 0 ≤ (x.shortest tie).exponent) :
    0 < (x.shortest tie).digits := by
  rcases search_eq_or_contains x tie 632 with h | h
  · rw [shortest, h] at hexponent
    exact absurd hexponent (by decide)
  · exact pos_of_contains hx h

end Binary64

end QueryClauses
