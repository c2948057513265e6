import Mathlib.Algebra.Group.Nat.Defs
import QueryClauses.Proofs.Calendar.Order
import QueryClauses.Proofs.Numeral.Digits
import QueryClauses.TimeFormat.Instant

/-! The characters of the common text of an instant. It consists of marks and of numbers in a fixed number of
digits, which have the value and the order of the numbers. -/

namespace QueryClauses

theorem compare_char (c d : Char) : compare c d = compare c.toNat d.toNat := by
  cases h : compare c d with
  | lt =>
    have hlt : c < d := compareOfLessAndEq_eq_lt.1 h
    exact (Nat.compare_eq_lt.2 hlt).symm
  | eq => rw [Std.compare_eq_iff_eq.1 h, Nat.compare_eq_eq.2 rfl]
  | gt =>
    rw [Std.OrientedOrd.eq_swap, Ordering.swap_eq_gt] at h
    have hlt : d < c := compareOfLessAndEq_eq_lt.1 h
    exact (Nat.compare_eq_gt.2 hlt).symm

/-! ### Rows of digits -/

variable {ds es : List Char} {c : Char}

/-- A lesser digit outweighs whatever comes after it. -/
theorem ofDigitChars_cons_lt {d : Char} (hc : c.isDigit) (hlen : ds.length = es.length)
    (hds : ∀ c ∈ ds, c.isDigit) (h : c.toNat < d.toNat) :
    Nat.ofDigitChars 10 (c :: ds) 0 < Nat.ofDigitChars 10 (d :: es) 0 := by
  have hrest := ofDigitChars_lt hds
  have hstep : c.toNat - '0'.toNat + 1 ≤ d.toNat - '0'.toNat := by
    have hzero := (digit_bounds hc).1
    omega
  have hmul := Nat.mul_le_mul_left (10 ^ ds.length) hstep
  rw [Nat.mul_add, Nat.mul_one] at hmul
  rw [ofDigitChars_cons_zero, ofDigitChars_cons_zero, ← hlen]
  omega

theorem compare_of_isDigit (hlen : ds.length = es.length) (hds : ∀ c ∈ ds, c.isDigit)
    (hes : ∀ c ∈ es, c.isDigit) :
    compare ds es = compare (Nat.ofDigitChars 10 ds 0) (Nat.ofDigitChars 10 es 0) := by
  induction ds generalizing es with
  | nil =>
    rw [List.eq_nil_of_length_eq_zero hlen.symm]
    rfl
  | cons c ds ih =>
    cases es with
    | nil => cases hlen
    | cons d es =>
      obtain ⟨hc, hds⟩ := List.forall_mem_cons.1 hds
      obtain ⟨hd, hes⟩ := List.forall_mem_cons.1 hes
      replace hlen : ds.length = es.length := Nat.succ.inj hlen
      rw [List.compare_cons_cons, ih hlen hds hes, compare_char]
      refine (compare_eq_then ?_ ?_ fun heq => ?_).symm
      · exact ofDigitChars_cons_lt hc hlen hds
      · exact ofDigitChars_cons_lt hd hlen.symm hes
      · rw [ofDigitChars_cons_zero, ofDigitChars_cons_zero, hlen, heq]
        exact compare_congr (Nat.add_lt_add_left · _) (congrArg _) (Nat.add_lt_add_left · _)

namespace Padding

variable {width m n : Nat}

/-- The number in at least so many digits. -/
def zeroDigits (width n : Nat) : List Char := (Nat.toDigits 10 n).leftpad width '0'

theorem toList_pad_zero (width n : Nat) : (zero.pad width n).toList = zeroDigits width n :=
  String.toList_ofList

theorem zeroDigits_ne_nil (width n : Nat) : zeroDigits width n ≠ [] :=
  List.append_ne_nil_of_right_ne_nil _ Nat.toDigits_ne_nil

theorem isDigit_of_mem_zeroDigits {c : Char} (h : c ∈ zeroDigits width n) : c.isDigit := by
  rcases List.mem_append.1 h with h | h
  · exact isDigit_of_mem_replicate h
  · exact isDigit_of_mem_toDigits h

theorem length_zeroDigits (hw : 0 < width) (h : n < 10 ^ width) : (zeroDigits width n).length = width := by
  rw [zeroDigits, List.length_leftpad]
  exact Nat.max_eq_left ((Nat.length_toDigits_le_iff (by decide) hw).2 h)

theorem ofDigitChars_zeroDigits (width n : Nat) : Nat.ofDigitChars 10 (zeroDigits width n) 0 = n := by
  rw [zeroDigits, List.leftpad, Nat.ofDigitChars_append, Nat.ofDigitChars_replicate_zero, Nat.mul_zero,
    Nat.ofDigitChars_ten_toDigits]

theorem compare_zeroDigits (hw : 0 < width) (hm : m < 10 ^ width) (hn : n < 10 ^ width) :
    compare (zeroDigits width m) (zeroDigits width n) = compare m n := by
  rw [compare_of_isDigit ((length_zeroDigits hw hm).trans (length_zeroDigits hw hn).symm)
    (fun _ hc => isDigit_of_mem_zeroDigits hc) (fun _ hc => isDigit_of_mem_zeroDigits hc),
    ofDigitChars_zeroDigits, ofDigitChars_zeroDigits]

end Padding

/-! ### The common text -/

open Padding (zeroDigits toList_pad_zero)

/-- A year in at least four digits, with a sign if it is negative. -/
def yearChars (year : Int) : List Char := (if year < 0 then ['-'] else []) ++ zeroDigits 4 year.natAbs

def Date.chars (d : Date) : List Char :=
  yearChars d.year ++ '-' :: (zeroDigits 2 d.month ++ '-' :: zeroDigits 2 d.day)

def ClockTime.chars (t : ClockTime) : List Char :=
  zeroDigits 2 t.hour ++ ':' :: (zeroDigits 2 t.minute ++ ':' :: zeroDigits 2 t.second)

def UtcOffset.chars (o : UtcOffset) : List Char :=
  if o.isUtc then ['Z']
  else (if o.isNegative then '-' else '+') :: (zeroDigits 2 o.hours ++ ':' :: zeroDigits 2 o.minutes)

/-! All their numbers but the year have two digits at most. -/

theorem Date.month_lt (d : Date) : d.month < 10 ^ 2 := Nat.lt_of_le_of_lt d.month_le (by decide)

theorem Date.day_lt (d : Date) : d.day < 10 ^ 2 :=
  Nat.lt_of_le_of_lt (d.day_le.trans (daysInMonth_le d.year d.month)) (by decide)

theorem ClockTime.hour_lt (t : ClockTime) : t.hour.val < 10 ^ 2 := Nat.lt_trans t.hour.isLt (by decide)

theorem ClockTime.minute_lt (t : ClockTime) : t.minute.val < 10 ^ 2 := Nat.lt_trans t.minute.isLt (by decide)

theorem ClockTime.second_lt (t : ClockTime) : t.second.val < 10 ^ 2 := Nat.lt_trans t.second.isLt (by decide)

theorem UtcOffset.eq_utc_of_isUtc {o : UtcOffset} (h : o.isUtc) : o = .utc := by
  obtain ⟨seconds, bound⟩ := o
  obtain rfl : seconds = 0 := of_decide_eq_true h
  rfl

theorem UtcOffset.hours_lt (o : UtcOffset) : o.hours < 10 ^ 2 := by
  have hbound := o.bound
  unfold hours
  omega

theorem UtcOffset.minutes_lt (o : UtcOffset) : o.minutes < 10 ^ 2 := by
  unfold minutes
  omega

theorem toList_signText (negative signed : Bool) : (signText negative signed).toList =
    if negative then ['-'] else if signed then ['+'] else [] := by
  cases negative <;> cases signed <;> rfl

namespace TimeFormat

theorem toList_text (f : TimeFormat) (i : Instant) :
    (TimeFormat.text f i).toList = f.flatMap fun item => (item.text i).toList := by
  rw [TimeFormat.text, String.toList_join, List.flatMap_map]

theorem toList_text_append (f g : TimeFormat) (i : Instant) :
    (TimeFormat.text (f ++ g) i).toList = (TimeFormat.text f i).toList ++ (TimeFormat.text g i).toList := by
  simp only [toList_text, List.flatMap_append]

theorem toList_literal (c : Char) (i : Instant) : ((FormatItem.literal c).text i).toList = [c] :=
  String.toList_singleton c

theorem toList_component (c : Component) (i : Instant) :
    ((FormatItem.component c).text i).toList = (c.text i).toList := rfl

theorem toList_text_toSecond (i : Instant) :
    (TimeFormat.text toSecond i).toList = i.date.chars ++ 'T' :: i.time.chars := by
  simp only [toList_text, toSecond, List.flatMap_cons, List.flatMap_nil, toList_literal, toList_component,
    Component.text, Component.yearText, String.toList_append, toList_signText, toList_pad_zero, Date.chars,
    yearChars, ClockTime.chars, decide_eq_true_iff, Bool.false_eq_true, if_false, List.append_assoc,
    List.cons_append, List.nil_append, List.append_nil]

end TimeFormat

theorem Instant.toList_defaultText (i : Instant) :
    i.defaultText.toList = i.date.chars ++ 'T' :: (i.time.chars ++ i.offset.chars) := by
  have hjoin (f : TimeFormat) (h : (TimeFormat.text f i).toList = i.offset.chars) :
      (TimeFormat.text (TimeFormat.toSecond ++ f) i).toList =
        i.date.chars ++ 'T' :: (i.time.chars ++ i.offset.chars) := by
    rw [TimeFormat.toList_text_append, TimeFormat.toList_text_toSecond, h, List.append_assoc, List.cons_append]
  rw [defaultText]
  split
  · next h =>
    refine hjoin _ ?_
    rw [UtcOffset.chars, if_pos h, TimeFormat.toList_text, List.flatMap_singleton,
      TimeFormat.toList_literal]
  · next h =>
    refine hjoin _ ?_
    rw [UtcOffset.chars, if_neg h]
    simp only [TimeFormat.toList_text, List.flatMap_cons, List.flatMap_nil, TimeFormat.toList_literal,
      TimeFormat.toList_component, Component.text, String.toList_append, toList_signText, toList_pad_zero]
    cases i.offset.isNegative <;> simp

end QueryClauses
