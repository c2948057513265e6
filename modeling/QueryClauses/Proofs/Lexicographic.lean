import Mathlib.Data.Int.Order.Basic
import Mathlib.Data.List.Basic
import Mathlib.Data.Nat.Basic
import Mathlib.Order.Compare
import Mathlib.Order.Lattice

/-! Comparisons that are made in stages. Texts are compared by their first difference, and it does not matter
whether characters or the bytes of their UTF-8 forms are looked at. -/

namespace QueryClauses

/-! ### Stages -/

section Stages

variable {α β : Type} [LinearOrder α] [LinearOrder β]

theorem compare_congr {a b : α} {m n : β} (hlt : a < b → m < n) (heq : a = b → m = n) (hgt : b < a → n < m) :
    compare m n = compare a b := by
  rcases lt_trichotomy a b with h | h | h
  · rw [compare_lt_iff_lt.2 h, compare_lt_iff_lt.2 (hlt h)]
  · rw [compare_eq_iff_eq.2 h, compare_eq_iff_eq.2 (heq h)]
  · rw [compare_gt_iff_gt.2 h, compare_gt_iff_gt.2 (hgt h)]

/-- What differs in the first stage is decided by it, and else by the second. -/
theorem compare_eq_then {a b : α} {m n : β} {o : Ordering} (hlt : a < b → m < n) (hgt : b < a → n < m)
    (heq : a = b → compare m n = o) : compare m n = (compare a b).then o := by
  rcases lt_trichotomy a b with h | h | h
  · rw [compare_lt_iff_lt.2 h, compare_lt_iff_lt.2 (hlt h)]
    rfl
  · rw [compare_eq_iff_eq.2 h, heq h]
    rfl
  · rw [compare_gt_iff_gt.2 h, compare_gt_iff_gt.2 (hgt h)]
    rfl

end Stages

/-- Rows with beginnings of one length are compared by these and then by what follows. -/
theorem compare_append {α : Type} [Ord α] {l m s t : List α} (h : l.length = m.length) :
    compare (l ++ s) (m ++ t) = (compare l m).then (compare s t) := by
  induction l generalizing m with
  | nil =>
    rw [List.eq_nil_of_length_eq_zero h.symm]
    rfl
  | cons x l ih =>
    cases m with
    | nil => cases h
    | cons y m =>
      rw [List.cons_append, List.cons_append, List.compare_cons_cons, List.compare_cons_cons,
        ih (Nat.succ.inj h), Ordering.then_assoc]

namespace Text

/-! ### Bytes -/

/-- The bytes of the text in UTF-8. -/
def bytes (s : String) : List UInt8 := s.toUTF8.data.toList

theorem bytes_eq (s : String) : bytes s = s.toList.flatMap String.utf8EncodeChar := by
  have hs : s.toUTF8 = s.toList.utf8Encode := by
    rw [← String.toByteArray_ofList, String.ofList_toList]
    rfl
  rw [bytes, hs, List.utf8Encode, List.data_toByteArray]

/-- The first byte in which the forms of two characters differ is less for the lesser character, and no
form is a beginning of another. -/
theorem compare_utf8EncodeChar_of_lt {c d : Char} (h : c < d) (s t : List UInt8) :
    compare (String.utf8EncodeChar c ++ s) (String.utf8EncodeChar d ++ t) = .lt := by
  have hlt : c.val.toNat < d.val.toNat := h
  have hvalid : d.val.toNat.isValidChar := d.valid
  rw [Nat.isValidChar] at hvalid
  simp only [String.utf8EncodeChar]
  generalize c.val.toNat = m at *
  generalize d.val.toNat = n at *
  -- one case for each two lengths of the forms; all bytes are then below 256
  split_ifs
  all_goals
    simp (disch := omega) only [List.cons_append, List.nil_append, List.compare_cons_cons,
      Ordering.then_eq_lt, UInt8.compare_eq_toNat_compare_toNat, UInt8.toNat_ofNat', Nat.compare_eq_lt,
      Nat.compare_eq_eq, Nat.mod_eq_of_lt]
    omega

theorem compare_utf8EncodeChar_append (c d : Char) (s t : List UInt8) :
    compare (String.utf8EncodeChar c ++ s) (String.utf8EncodeChar d ++ t) =
      (compare c d).then (compare s t) := by
  cases h : compare c d with
  | lt => exact compare_utf8EncodeChar_of_lt (compareOfLessAndEq_eq_lt.1 h) s t
  | eq =>
    obtain rfl := Std.compare_eq_iff_eq.1 h
    have hself : compare (String.utf8EncodeChar c) (String.utf8EncodeChar c) = .eq :=
      Std.compare_eq_iff_eq.2 rfl
    rw [compare_append rfl, hself]
  | gt =>
    rw [Std.OrientedOrd.eq_swap, Ordering.swap_eq_gt] at h
    rw [Std.OrientedOrd.eq_swap, compare_utf8EncodeChar_of_lt (compareOfLessAndEq_eq_lt.1 h) t s]
    rfl

theorem exists_cons_utf8EncodeChar (c : Char) : ∃ b r, String.utf8EncodeChar c = b :: r := by
  refine List.exists_cons_of_length_pos ?_
  rw [String.length_utf8EncodeChar]
  exact c.utf8Size_pos

/-- Texts are in the order of their bytes when they are in that of their characters. -/
theorem compare_bytes (s t : String) : compare (bytes s) (bytes t) = compare s.toList t.toList := by
  rw [bytes_eq, bytes_eq]
  generalize s.toList = l
  generalize t.toList = m
  induction l generalizing m with
  | nil =>
    cases m with
    | nil => rfl
    | cons d m =>
      obtain ⟨b, r, hd⟩ := exists_cons_utf8EncodeChar d
      rw [List.flatMap_cons, hd]
      rfl
  | cons c l ih =>
    cases m with
    | nil =>
      obtain ⟨b, r, hc⟩ := exists_cons_utf8EncodeChar c
      rw [List.flatMap_cons, hc]
      rfl
    | cons d m =>
      rw [List.flatMap_cons, List.flatMap_cons, compare_utf8EncodeChar_append, List.compare_cons_cons, ih]

theorem compare_eq_lt_of_lt {l m : List Char} (h : l < m) : compare l m = .lt := by
  induction l generalizing m with
  | nil =>
    cases m with
    | nil => exact absurd h (List.lt_irrefl [])
    | cons d m => rfl
  | cons c l ih =>
    cases m with
    | nil => exact absurd h (List.not_lt_nil _)
    | cons d m =>
      rw [List.compare_cons_cons]
      rcases List.cons_lt_cons_iff.1 h with hlt | ⟨rfl, hlt⟩
      · rw [show compare c d = .lt from compareOfLessAndEq_eq_lt.2 hlt]
        rfl
      · rw [Std.compare_eq_iff_eq.2 rfl, ih hlt]
        rfl

/-- A lesser text has the lesser bytes. -/
theorem compare_bytes_of_lt {s t : String} (h : s < t) : compare (bytes s) (bytes t) = .lt := by
  rw [compare_bytes]
  exact compare_eq_lt_of_lt (String.lt_iff.1 h)

theorem eq_of_compare_bytes {s t : String} (h : (compare (bytes s) (bytes t)).isLE)
    (h' : (compare (bytes t) (bytes s)).isLE) : s = t := by
  have heq : compare (bytes s) (bytes t) = .eq := Std.OrientedCmp.isLE_antisymm h h'
  rw [compare_bytes] at heq
  exact String.toList_inj.1 (Std.compare_eq_iff_eq.1 heq)

end Text

end QueryClauses
