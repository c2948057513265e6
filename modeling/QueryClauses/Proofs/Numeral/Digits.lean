import Mathlib.Algebra.Group.Nat.Defs

/-! Rows of decimal digits and the numbers they spell. -/

namespace QueryClauses

variable {ds : List Char} {c : Char} {n : Nat}

theorem digit_bounds (h : c.isDigit) : '0'.toNat ≤ c.toNat ∧ c.toNat ≤ '9'.toNat := by
  rw [Char.isDigit, Bool.and_eq_true, decide_eq_true_iff, decide_eq_true_iff] at h
  exact h

theorem isDigit_of_mem_replicate (h : c ∈ List.replicate n '0') : c.isDigit := by
  rw [List.eq_of_mem_replicate h]
  rfl

theorem isDigit_of_mem_toDigits (h : c ∈ Nat.toDigits 10 n) : c.isDigit :=
  Nat.isDigit_of_mem_toDigits (by decide) (by decide) h

theorem ofDigitChars_cons_zero (c : Char) (ds : List Char) : Nat.ofDigitChars 10 (c :: ds) 0 =
    10 ^ ds.length * (c.toNat - '0'.toNat) + Nat.ofDigitChars 10 ds 0 := by
  rw [Nat.ofDigitChars_cons, Nat.mul_zero, Nat.zero_add, Nat.ofDigitChars_eq_ofDigitChars_zero]

theorem ofDigitChars_lt (h : ∀ c ∈ ds, c.isDigit) : Nat.ofDigitChars 10 ds 0 < 10 ^ ds.length := by
  induction ds with
  | nil => exact Nat.one_pos
  | cons c ds ih =>
    obtain ⟨hc, hds⟩ := List.forall_mem_cons.1 h
    have hrest := ih hds
    have hnine : c.toNat - '0'.toNat ≤ 9 := Nat.sub_le_sub_right (digit_bounds hc).2 _
    have hmul := Nat.mul_le_mul_left (10 ^ ds.length) hnine
    rw [ofDigitChars_cons_zero, List.length_cons, Nat.pow_succ]
    omega

theorem le_ofDigitChars (m : Nat) (ds : List Char) : m * 10 ^ ds.length ≤ Nat.ofDigitChars 10 ds m := by
  rw [Nat.ofDigitChars_eq_ofDigitChars_zero, Nat.mul_comm]
  exact Nat.le_add_right _ _

/-- Only zero itself begins with a zero. -/
theorem toDigits_ne_zero_cons (hn : 0 < n) (r : List Char) : Nat.toDigits 10 n ≠ '0' :: r := by
  intro h
  have hdigits : ∀ c ∈ r, c.isDigit := fun c hc => isDigit_of_mem_toDigits (h ▸ List.mem_cons_of_mem _ hc)
  have hvalue : Nat.ofDigitChars 10 r 0 = n := by
    have hn := Nat.ofDigitChars_ten_toDigits (n := n)
    rwa [h, Nat.ofDigitChars_cons] at hn
  have hlt : n < 10 ^ r.length := hvalue ▸ ofDigitChars_lt hdigits
  rcases Nat.eq_zero_or_pos r.length with hr | hr
  · rw [hr] at hlt
    omega
  · have hlength := (Nat.length_toDigits_le_iff (by decide) hr).2 hlt
    rw [h, List.length_cons] at hlength
    omega

end QueryClauses
