import Mathlib.Data.Int.Init
import QueryClauses.Calendar.Instant
import QueryClauses.Proofs.Lexicographic

/-! The order of days and of moments. The days of a year come before those of the next one, and so it is
with months, hours and minutes: what is later in the calendar and on the clock is later in time. -/

namespace QueryClauses

/-! ### Days -/

variable {year later : Int} {month other : Nat}

theorem daysBeforeYear_succ (year : Int) :
    daysBeforeYear (year + 1) = daysBeforeYear year + daysInYear year := by
  unfold daysBeforeYear daysInYear isLeapYear
  split
  · next h =>
    simp only [Bool.and_eq_true, Bool.or_eq_true, decide_eq_true_iff] at h
    omega
  · next h =>
    simp only [Bool.and_eq_true, Bool.or_eq_true, decide_eq_true_iff] at h
    omega

theorem daysBeforeYear_add_le (h : year < later) :
    daysBeforeYear year + daysInYear year ≤ daysBeforeYear later := by
  induction later, h using Int.leInduction with
  | base => exact Int.le_of_eq (daysBeforeYear_succ year).symm
  | succ y _ ih =>
    rw [daysBeforeYear_succ]
    omega

theorem daysBeforeMonth_succ (year : Int) (h : 1 ≤ month) :
    daysBeforeMonth year (month + 1) = daysBeforeMonth year month + daysInMonth year month := by
  obtain ⟨m, rfl⟩ := Nat.exists_eq_add_of_le' h
  rfl

theorem daysBeforeMonth_add_le (year : Int) (hm : 1 ≤ month) (h : month < other) :
    daysBeforeMonth year month + daysInMonth year month ≤ daysBeforeMonth year other := by
  induction other, h using Nat.le_induction with
  | base => exact Nat.le_of_eq (daysBeforeMonth_succ year hm).symm
  | succ n hn ih =>
    rw [daysBeforeMonth_succ year (by omega)]
    omega

theorem daysBeforeMonth_thirteen (year : Int) : daysBeforeMonth year 13 = daysInYear year := by
  unfold daysInYear
  simp only [daysBeforeMonth, daysInMonth]
  split <;> rfl

theorem daysInMonth_le (year : Int) (month : Nat) : daysInMonth year month ≤ 31 := by
  unfold daysInMonth
  split <;> (try split) <;> decide

namespace Date

theorem ordinal_pos (d : Date) : 1 ≤ d.ordinal := Nat.le_add_left_of_le d.day_pos

theorem ordinal_le (d : Date) : d.ordinal ≤ daysInYear d.year := by
  have hmonth := daysBeforeMonth_add_le d.year d.month_pos (Nat.lt_succ_of_le d.month_le)
  have hday := d.day_le
  rw [daysBeforeMonth_thirteen] at hmonth
  unfold ordinal
  omega

variable {d e : Date}

theorem number_lt_of_month_lt (hy : d.year = e.year) (h : d.month < e.month) : d.number < e.number := by
  have hmonth := daysBeforeMonth_add_le d.year d.month_pos h
  have hd := d.day_le
  have he := e.day_pos
  unfold number ordinal
  rw [← hy]
  omega

theorem number_lt_of_year_lt (h : d.year < e.year) : d.number < e.number := by
  have hyear := daysBeforeYear_add_le h
  have hd := d.ordinal_le
  have he := e.ordinal_pos
  unfold number
  omega

theorem compare_number (d e : Date) : compare d.number e.number =
    (compare d.year e.year).then ((compare d.month e.month).then (compare d.day e.day)) := by
  refine compare_eq_then number_lt_of_year_lt number_lt_of_year_lt fun hy => ?_
  refine compare_eq_then (number_lt_of_month_lt hy) (number_lt_of_month_lt hy.symm) fun hm => ?_
  have hdays : e.number - e.day = d.number - d.day := by
    unfold number ordinal
    rw [hy, hm]
    omega
  exact compare_congr (by omega) (by omega) (by omega)

end Date

namespace ClockTime

theorem seconds_lt (t : ClockTime) : t.seconds < 86400 := by
  unfold seconds
  omega

theorem compare_seconds (t u : ClockTime) : compare t.seconds u.seconds =
    (compare t.hour.val u.hour.val).then
      ((compare t.minute.val u.minute.val).then (compare t.second.val u.second.val)) := by
  unfold seconds
  refine compare_eq_then (by omega) (by omega) fun hh => ?_
  refine compare_eq_then (by omega) (by omega) fun hm => ?_
  exact compare_congr (by omega) (by omega) (by omega)

end ClockTime

namespace Instant

theorem epochNanoseconds_ediv (i : Instant) : i.epochNanoseconds / 1000000000 = i.epochSeconds := by
  unfold epochNanoseconds
  omega

/-- With one offset, what is later on the calendar or, on one day, on the clock is later in time. -/
theorem compare_epochSeconds {i j : Instant} (h : i.offset = j.offset) :
    compare i.epochSeconds j.epochSeconds =
      (compare i.date.number j.date.number).then (compare i.time.seconds j.time.seconds) := by
  have hi := i.time.seconds_lt
  have hj := j.time.seconds_lt
  unfold epochSeconds
  rw [h]
  refine compare_eq_then (by omega) (by omega) fun hd => ?_
  exact compare_congr (by omega) (by omega) (by omega)

end Instant

end QueryClauses
