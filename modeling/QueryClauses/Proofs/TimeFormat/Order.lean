import QueryClauses.Proofs.Filter.Conditions
import QueryClauses.Proofs.TimeFormat.Characters

/-! The order of the common texts of instants of universal time. As long as years have four digits the texts
have one width and the greater units stand before the lesser ones, so the texts are in the order of the
instants, and the texts of the bounds of a range in that of the bounds. -/

namespace QueryClauses

def Date.HasFourDigitYear (d : Date) : Prop := 0 ≤ d.year ∧ d.year ≤ 9999

instance (d : Date) : Decidable d.HasFourDigitYear := inferInstanceAs (Decidable (_ ∧ _))

/-- The text of such an instant is as long as that of any other. -/
structure Instant.HasFixedWidth (i : Instant) : Prop where
  isUtc : i.offset.isUtc
  year : i.date.HasFourDigitYear

/-! ### Stages of a comparison -/

theorem compare_cons_self (c : Char) (s t : List Char) : compare (c :: s) (c :: t) = compare s t := by
  rw [List.compare_cons_cons, Std.compare_eq_iff_eq.2 rfl]
  rfl

theorem Padding.compare_zeroDigits_append {width m n : Nat} (hw : 0 < width) (hm : m < 10 ^ width)
    (hn : n < 10 ^ width) (s t : List Char) :
    compare (zeroDigits width m ++ s) (zeroDigits width n ++ t) = (compare m n).then (compare s t) := by
  rw [compare_append ((length_zeroDigits hw hm).trans (length_zeroDigits hw hn).symm),
    compare_zeroDigits hw hm hn]

namespace Date

variable {d e : Date}

theorem yearChars_eq (h : d.HasFourDigitYear) : yearChars d.year = Padding.zeroDigits 4 d.year.natAbs := by
  rw [yearChars, if_neg (Int.not_lt.2 h.1), List.nil_append]

theorem HasFourDigitYear.natAbs_lt (h : d.HasFourDigitYear) : d.year.natAbs < 10 ^ 4 := by
  obtain ⟨hpos, hle⟩ := h
  omega

theorem compare_natAbs_year (hd : d.HasFourDigitYear) (he : e.HasFourDigitYear) :
    compare d.year.natAbs e.year.natAbs = compare d.year e.year := by
  have hd := hd.1
  have he := he.1
  exact compare_congr (by omega) (by omega) (by omega)

theorem compare_chars_append (hd : d.HasFourDigitYear) (he : e.HasFourDigitYear) (s t : List Char) :
    compare (d.chars ++ s) (e.chars ++ t) = (compare d.number e.number).then (compare s t) := by
  simp only [chars, yearChars_eq hd, yearChars_eq he, List.append_assoc, List.cons_append, compare_cons_self,
    Padding.compare_zeroDigits_append (by decide : 0 < 4) hd.natAbs_lt he.natAbs_lt,
    Padding.compare_zeroDigits_append Nat.two_pos d.month_lt e.month_lt,
    Padding.compare_zeroDigits_append Nat.two_pos d.day_lt e.day_lt, compare_natAbs_year hd he, compare_number,
    Ordering.then_assoc]

end Date

theorem ClockTime.compare_chars_append (t u : ClockTime) (r s : List Char) :
    compare (t.chars ++ r) (u.chars ++ s) = (compare t.seconds u.seconds).then (compare r s) := by
  simp only [chars, List.append_assoc, List.cons_append, compare_cons_self,
    Padding.compare_zeroDigits_append Nat.two_pos t.hour_lt u.hour_lt,
    Padding.compare_zeroDigits_append Nat.two_pos t.minute_lt u.minute_lt,
    Padding.compare_zeroDigits_append Nat.two_pos t.second_lt u.second_lt, compare_seconds, Ordering.then_assoc]

namespace Instant

variable {i j : Instant}

theorem HasFixedWidth.toList_defaultText (h : i.HasFixedWidth) :
    i.defaultText.toList = i.date.chars ++ 'T' :: (i.time.chars ++ ['Z']) := by
  rw [Instant.toList_defaultText, UtcOffset.chars, if_pos h.isUtc]

theorem compare_bytes_defaultText (hi : i.HasFixedWidth) (hj : j.HasFixedWidth) :
    compare (Text.bytes i.defaultText) (Text.bytes j.defaultText) =
      compare (i.epochNanoseconds / 1000000000) (j.epochNanoseconds / 1000000000) := by
  have hoffset : i.offset = j.offset :=
    (UtcOffset.eq_utc_of_isUtc hi.isUtc).trans (UtcOffset.eq_utc_of_isUtc hj.isUtc).symm
  have hz : compare ['Z'] ['Z'] = .eq := by decide
  rw [Text.compare_bytes, hi.toList_defaultText, hj.toList_defaultText,
    Date.compare_chars_append hi.year hj.year, compare_cons_self, ClockTime.compare_chars_append, hz,
    Ordering.then_eq, epochNanoseconds_ediv, epochNanoseconds_ediv,
    compare_epochSeconds hoffset]

theorem defaultText_eq_iff (hi : i.HasFixedWidth) (hj : j.HasFixedWidth) :
    i.defaultText = j.defaultText ↔ i.epochNanoseconds / 1000000000 = j.epochNanoseconds / 1000000000 := by
  rw [← String.toList_inj, ← Std.compare_eq_iff_eq, ← Text.compare_bytes, compare_bytes_defaultText hi hj,
    Std.compare_eq_iff_eq]

end Instant

/-! ### The bounds of a range -/

/-- A range for which there is a condition has it on the common texts of its bounds, if there is no format. -/
theorem FieldOf.condition_timeRange {f : Field} {range : TimeRange} (hv : f.value.unwrapped = .timeRange range)
    (hf : f.format = none) (hu : f.options.unnest = false) (hs : f.isSkipped = false) :
    f.condition = .ok (some (.between f.column range.lower.defaultText range.upper.defaultText)) := by
  have hz : (f.options.omitEmpty && f.value.isZero) = false := (Bool.or_eq_false_iff.1 hs).1
  rw [condition_eq, hz, if_neg Bool.false_ne_true, hv, hf, hu]
  rfl

theorem Predicate.params_infix_of_mem {r : Record} {p : Predicate} {f : Field} {c : Condition}
    (h : ofRecord r = .ok p) (hf : f ∈ r) (hc : f.condition = .ok (some c)) : c.params <:+: p.params := by
  obtain ⟨-, rfl⟩ := ofRecord_eq_ok h
  have hmem : c ∈ r.filterMap FieldOf.condition? :=
    List.mem_filterMap.2 ⟨f, hf, FieldOf.condition?_eq_some_iff.2 hc⟩
  obtain ⟨before, after, hsplit⟩ := List.append_of_mem hmem
  refine ⟨before.flatMap Condition.params, after.flatMap Condition.params, ?_⟩
  rw [ofConditions, hsplit, List.flatMap_append, List.flatMap_cons, List.append_assoc]

open Parameter (lowerName upperName)

/-- Common texts of instants of universal time are compared as the instants are to the second, in all the
years with four digits. So the parameters for the bounds of a range that has its earlier bound first are in
order too, and are equal just if the bounds are in one second. -/
theorem Instant.compare_bytes_format :
    (∀ (i j : Instant) (field other : String), i.HasFixedWidth → j.HasFixedWidth →
      ∃ s t, i.format none field = .ok s ∧ j.format none other = .ok t ∧
        compare (Text.bytes s) (Text.bytes t) =
          compare (i.epochNanoseconds / 1000000000) (j.epochNanoseconds / 1000000000)) ∧
    ∀ (f : Field) (range : TimeRange), f.value.unwrapped = .timeRange range → f.format = none →
      f.options.unnest = false → f.isSkipped = false →
      range.lower.HasFixedWidth → range.upper.HasFixedWidth →
      range.lower.epochNanoseconds ≤ range.upper.epochNanoseconds →
      ∃ lower upper, f.condition = .ok (some (.between f.column lower upper)) ∧
        (∀ r p, f ∈ r → Predicate.ofValue (.record r) = .ok p →
          [⟨lowerName f.column, .string lower⟩, ⟨upperName f.column, .string upper⟩] <:+: p.params) ∧
        (compare (Text.bytes lower) (Text.bytes upper)).isLE ∧
        (lower = upper ↔
          range.lower.epochNanoseconds / 1000000000 = range.upper.epochNanoseconds / 1000000000) := by
  refine ⟨fun i j field other hi hj => ?_, fun f range hv hf hu hs hlower hupper hle => ?_⟩
  · exact ⟨_, _, rfl, rfl, compare_bytes_defaultText hi hj⟩
  · have hcondition := FieldOf.condition_timeRange hv hf hu hs
    refine ⟨_, _, hcondition, fun r p hr hp => ?_, ?_, defaultText_eq_iff hlower hupper⟩
    · exact Predicate.params_infix_of_mem hp hr hcondition
    · rw [compare_bytes_defaultText hlower hupper, Std.isLE_compare]
      exact Int.ediv_le_ediv (by decide) hle

/-- A year that is filled up with a zero, and a range from the last moment of a leap day to the next day. -/
theorem Instant.compare_bytes_format_leap_day :
    let early : Instant := ⟨{ year := 999, month := 12, day := 31 }, ⟨23, 59, 59, 0⟩, .utc⟩
    let lower : Instant := ⟨{ year := 2024, month := 2, day := 29 }, ⟨23, 59, 59, 999999999⟩, .utc⟩
    let upper : Instant := ⟨{ year := 2024, month := 3, day := 1 }, .midnight, .utc⟩
    let range := Value.timeRange ⟨lower, upper⟩
    let f : Field := { name := "Made", value := .optional (some range), tag := some "made,omitempty" }
    let first := "2024-02-29T23:59:59Z"
    let last := "2024-03-01T00:00:00Z"
    early.format none "" = .ok "0999-12-31T23:59:59Z" ∧
      compare (Text.bytes "0999-12-31T23:59:59Z") (Text.bytes first) = .lt ∧
      f.condition = .ok (some (.between "made" first last)) ∧
      (∀ r p, f ∈ r → Predicate.ofValue (.record r) = .ok p →
        [⟨"madeFrom", .string first⟩, ⟨"madeTo", .string last⟩] <:+: p.params) ∧
      (compare (Text.bytes first) (Text.bytes last)).isLE ∧ first ≠ last := by
  intro early lower upper range f first last
  have hearly : early.HasFixedWidth := ⟨by decide, by decide⟩
  have hlower : lower.HasFixedWidth := ⟨by decide, by decide⟩
  have hupper : upper.HasFixedWidth := ⟨by decide, by decide⟩
  have hunnest : f.options.unnest = false := by decide +kernel
  have hskipped : f.isSkipped = false := by decide +kernel
  have hcolumn : f.column = "made" := by decide +kernel
  have hnames : lowerName "made" = "madeFrom" ∧ upperName "made" = "madeTo" := by decide +kernel
  have htext : early.defaultText = "0999-12-31T23:59:59Z" := by decide +kernel
  have hfirst : lower.defaultText = first := by decide +kernel
  have hlast : upper.defaultText = last := by decide +kernel
  obtain ⟨s, t, hs, ht, hst⟩ := compare_bytes_format.1 early lower "" "" hearly hlower
  obtain ⟨l, u, hc, hp, hle, heq⟩ :=
    compare_bytes_format.2 f ⟨lower, upper⟩ rfl rfl hunnest hskipped hlower hupper (by decide)
  -- the texts of which the theorem speaks are the common ones
  obtain rfl : s = "0999-12-31T23:59:59Z" := (Except.ok.inj hs).symm.trans htext
  obtain rfl : t = first := (Except.ok.inj ht).symm.trans hfirst
  have hcondition := FieldOf.condition_timeRange (f := f) rfl rfl hunnest hskipped
  obtain ⟨-, hl, hu⟩ := Condition.between.inj (Option.some.inj (Except.ok.inj (hc.symm.trans hcondition)))
  obtain rfl : l = first := hl.trans hfirst
  obtain rfl : u = last := hu.trans hlast
  rw [hcolumn] at hc hp
  rw [hnames.1, hnames.2] at hp
  exact ⟨hs, hst.trans (by decide), hc, hp, hle, fun h => absurd (heq.1 h) (by decide)⟩

end QueryClauses
