import QueryClauses.Proofs.Numeral.Reading
import QueryClauses.Proofs.TimeFormat.Characters

/-! Reading an instant from a common text: the date and the time are those of the place whose offset follows
them. What is read is the instant itself to the second, except for the seconds of an offset, which are not
written. -/

namespace QueryClauses

/-! ### Scanners -/

/-- A number of so many digits at the front, and what is behind it. -/
def scanNumber? (width : Nat) (s : List Char) : Option (Nat × List Char) :=
  if (s.take width).length = width ∧ (s.take width).all Char.isDigit then
    some (Nat.ofDigitChars 10 (s.take width) 0, s.drop width)
  else none

/-- What is behind a mark at the front. -/
def scanMark? (mark : Char) : List Char → Option (List Char)
  | [] => none
  | c :: r => if c = mark then some r else none

def scanSign? : List Char → Option (Bool × List Char)
  | '-' :: r => some (true, r)
  | '+' :: r => some (false, r)
  | _ => none

def withSign (negative : Bool) (n : Nat) : Int := if negative then -(n : Int) else n

/-- A year in as many digits as there are, with a sign or without one. -/
def scanYear? (s : List Char) : Option (Int × List Char) := do
  let (negative, r) := (scanSign? s).getD (false, s)
  let (digits, r) ← Numeral.scanSomeDigits? r
  some (withSign negative (Nat.ofDigitChars 10 digits 0), r)

def scanDate? (s : List Char) : Option (Date × List Char) := do
  let (year, r) ← scanYear? s
  let (month, r) ← scanNumber? 2 (← scanMark? '-' r)
  let (day, r) ← scanNumber? 2 (← scanMark? '-' r)
  let date ← Date.ofYMD? year month day
  some (date, r)

/-- The time without the fraction of its second. -/
def ClockTime.atSecond (t : ClockTime) : ClockTime := { t with nanosecond := ⟨0, by decide⟩ }

def ClockTime.ofHMS? (hour minute second : Nat) : Option ClockTime :=
  if h : hour < 24 ∧ minute < 60 ∧ second < 60 then
    some ⟨⟨hour, h.1⟩, ⟨minute, h.2.1⟩, ⟨second, h.2.2⟩, ⟨0, by decide⟩⟩
  else none

def scanClockTime? (s : List Char) : Option (ClockTime × List Char) := do
  let (hour, r) ← scanNumber? 2 s
  let (minute, r) ← scanNumber? 2 (← scanMark? ':' r)
  let (second, r) ← scanNumber? 2 (← scanMark? ':' r)
  let time ← ClockTime.ofHMS? hour minute second
  some (time, r)

def UtcOffset.ofSeconds? (seconds : Int) : Option UtcOffset :=
  if h : seconds.natAbs < 93600 then some ⟨seconds, h⟩ else none

/-- No offset, or a sign for both the hours and the minutes that follow it. -/
def scanOffset? (s : List Char) : Option (UtcOffset × List Char) :=
  match scanMark? 'Z' s with
  | some r => some (.utc, r)
  | none => do
    let (negative, r) ← scanSign? s
    let (hours, r) ← scanNumber? 2 r
    let (minutes, r) ← scanNumber? 2 (← scanMark? ':' r)
    let offset ← UtcOffset.ofSeconds? (withSign negative (hours * 3600 + minutes * 60))
    some (offset, r)

def Instant.ofText? (text : String) : Option Instant := do
  let (date, r) ← scanDate? text.toList
  let (time, r) ← scanClockTime? (← scanMark? 'T' r)
  let (offset, r) ← scanOffset? r
  if r.isEmpty then some ⟨date, time, offset⟩ else none

/-! ### What is written is read -/

open Padding (zeroDigits)

variable {rest : List Char}

theorem scanMark?_cons (mark : Char) (rest : List Char) : scanMark? mark (mark :: rest) = some rest :=
  if_pos rfl

theorem scanNumber?_zeroDigits {width n : Nat} (hw : 0 < width) (h : n < 10 ^ width) :
    scanNumber? width (zeroDigits width n ++ rest) = some (n, rest) := by
  have hlen := Padding.length_zeroDigits hw h
  have htake : (zeroDigits width n ++ rest).take width = zeroDigits width n := List.take_left' hlen
  have hdrop : (zeroDigits width n ++ rest).drop width = rest := List.drop_left' hlen
  have hdigits : (zeroDigits width n).all Char.isDigit :=
    List.all_eq_true.2 fun c hc => Padding.isDigit_of_mem_zeroDigits hc
  rw [scanNumber?, htake, hdrop, if_pos ⟨hlen, hdigits⟩, Padding.ofDigitChars_zeroDigits]

theorem withSign_natAbs (n : Int) : withSign (n < 0) n.natAbs = n := by
  rcases Int.lt_or_le n 0 with h | h
  · rw [withSign, if_pos (decide_eq_true h)]
    omega
  · rw [withSign, if_neg (by simpa using h)]
    omega

theorem scanSign?_of_isDigit {c : Char} (h : c.isDigit) : scanSign? (c :: rest) = none := by
  unfold scanSign?
  split
  · next he =>
    cases he
    cases h
  · next he =>
    cases he
    cases h
  · rfl

/-- A year is read up to the mark behind its digits. -/
theorem scanYear?_append (year : Int) (rest : List Char) :
    scanYear? (yearChars year ++ '-' :: rest) = some (year, '-' :: rest) := by
  have hisDigit (c) (hc : c ∈ zeroDigits 4 year.natAbs) : c.isDigit := Padding.isDigit_of_mem_zeroDigits hc
  obtain ⟨c, r, hc⟩ := List.exists_cons_of_ne_nil (Padding.zeroDigits_ne_nil 4 year.natAbs)
  have hmark : Text.StartsIn ['-'] ('-' :: rest) := Text.startsIn_cons List.mem_cons_self
  have hnot : ∀ c ∈ ['-'], c.isDigit = false := List.forall_mem_singleton.2 rfl
  have hdigits : Numeral.scanSomeDigits? (zeroDigits 4 year.natAbs ++ '-' :: rest) =
      some (zeroDigits 4 year.natAbs, '-' :: rest) :=
    Numeral.scanSomeDigits?_append (Padding.zeroDigits_ne_nil 4 _) hisDigit hnot hmark
  have hsign : (scanSign? (yearChars year ++ '-' :: rest)).getD (false, yearChars year ++ '-' :: rest) =
      (decide (year < 0), zeroDigits 4 year.natAbs ++ '-' :: rest) := by
    rcases Int.lt_or_le year 0 with h | h
    · rw [yearChars, if_pos h, decide_eq_true h]
      rfl
    · have hnone : scanSign? (zeroDigits 4 year.natAbs ++ '-' :: rest) = none := by
        rw [hc]
        exact scanSign?_of_isDigit (hisDigit c (hc ▸ List.mem_cons_self))
      rw [yearChars, if_neg (Int.not_lt.2 h), decide_eq_false (Int.not_lt.2 h), List.nil_append, hnone]
      rfl
  rw [scanYear?, hsign]
  simp only [hdigits, Option.bind_eq_bind, Option.bind_some, Padding.ofDigitChars_zeroDigits, withSign_natAbs]

theorem ofYMD?_self (d : Date) : Date.ofYMD? d.year d.month d.day = some d :=
  dif_pos ⟨⟨d.month_pos, d.month_le⟩, d.day_pos, d.day_le⟩

theorem scanDate?_append (d : Date) (rest : List Char) : scanDate? (d.chars ++ rest) = some (d, rest) := by
  simp only [scanDate?, Date.chars, List.append_assoc, List.cons_append, scanYear?_append, scanMark?_cons,
    scanNumber?_zeroDigits Nat.two_pos d.month_lt, scanNumber?_zeroDigits Nat.two_pos d.day_lt, ofYMD?_self,
    Option.bind_eq_bind, Option.bind_some]

theorem scanClockTime?_append (t : ClockTime) (rest : List Char) :
    scanClockTime? (t.chars ++ rest) = some (t.atSecond, rest) := by
  have htime : ClockTime.ofHMS? t.hour t.minute t.second = some t.atSecond :=
    dif_pos ⟨t.hour.isLt, t.minute.isLt, t.second.isLt⟩
  simp only [scanClockTime?, ClockTime.chars, List.append_assoc, List.cons_append, scanMark?_cons,
    scanNumber?_zeroDigits Nat.two_pos t.hour_lt, scanNumber?_zeroDigits Nat.two_pos t.minute_lt,
    scanNumber?_zeroDigits Nat.two_pos t.second_lt, htime, Option.bind_eq_bind, Option.bind_some]

namespace UtcOffset

theorem withSign_secondsPastMinute (o : UtcOffset) :
    withSign o.isNegative o.secondsPastMinute = o.seconds.tmod 60 := by
  unfold withSign isNegative secondsPastMinute
  rcases Int.lt_or_le o.seconds 0 with h | h
  · have hneg : o.seconds.tmod 60 = -(-o.seconds % 60) := by
      rw [← Int.tmod_eq_emod_of_nonneg (by omega), Int.neg_tmod, Int.neg_neg]
    rw [if_pos (decide_eq_true h), hneg]
    omega
  · rw [if_neg (by simpa using h), Int.tmod_eq_emod_of_nonneg h]
    omega

/-- The parts of an offset have all its sign. -/
theorem withSign_add (o : UtcOffset) : withSign o.isNegative (o.hours * 3600 + o.minutes * 60) +
    withSign o.isNegative o.secondsPastMinute = o.seconds := by
  unfold withSign isNegative hours minutes secondsPastMinute
  rcases Int.lt_or_le o.seconds 0 with h | h
  · rw [if_pos (decide_eq_true h), if_pos (decide_eq_true h)]
    omega
  · rw [if_neg (by simpa using h), if_neg (by simpa using h)]
    omega

theorem natAbs_withSign (negative : Bool) (n : Nat) : (withSign negative n).natAbs = n := by
  cases negative with
  | true => exact Int.natAbs_neg n
  | false => rfl

/-- The offset without the seconds past its last minute. -/
def toMinute (o : UtcOffset) : UtcOffset :=
  ⟨withSign o.isNegative (o.hours * 3600 + o.minutes * 60), by
    have hbound := o.bound
    rw [natAbs_withSign]
    unfold hours minutes
    omega⟩

theorem toMinute_of_isUtc {o : UtcOffset} (h : o.isUtc) : o.toMinute = .utc := by
  rw [eq_utc_of_isUtc h]
  rfl

end UtcOffset

theorem scanSign?_cons (negative : Bool) (rest : List Char) :
    scanSign? ((if negative then '-' else '+') :: rest) = some (negative, rest) := by
  cases negative <;> rfl

theorem scanMark?_sign (negative : Bool) (rest : List Char) :
    scanMark? 'Z' ((if negative then '-' else '+') :: rest) = none := by
  cases negative <;> rfl

theorem scanOffset?_chars (o : UtcOffset) : scanOffset? o.chars = some (o.toMinute, []) := by
  rw [UtcOffset.chars]
  split
  · next h =>
    rw [UtcOffset.toMinute_of_isUtc h]
    rfl
  · have hminutes : scanNumber? 2 (zeroDigits 2 o.minutes ++ []) = some (o.minutes, []) :=
      scanNumber?_zeroDigits Nat.two_pos o.minutes_lt
    rw [List.append_nil] at hminutes
    have hoffset : UtcOffset.ofSeconds? (withSign o.isNegative (o.hours * 3600 + o.minutes * 60)) =
        some o.toMinute := dif_pos o.toMinute.bound
    simp only [scanOffset?, scanMark?_sign, scanSign?_cons, scanMark?_cons,
      scanNumber?_zeroDigits Nat.two_pos o.hours_lt, hminutes, hoffset, Option.bind_eq_bind, Option.bind_some]

namespace Instant

/-- The instant as it is read from its text. -/
def toText (i : Instant) : Instant := ⟨i.date, i.time.atSecond, i.offset.toMinute⟩

theorem ofText?_defaultText_eq (i : Instant) : ofText? i.defaultText = some i.toText := by
  rw [ofText?, toList_defaultText]
  simp only [scanDate?_append, scanMark?_cons, scanClockTime?_append, scanOffset?_chars, Option.bind_eq_bind,
    Option.bind_some]
  rfl

/-- An instant has a common text, and what is read from it is later than the instant, to the second, by just
the seconds of its offset past the whole minutes, and earlier if the offset is negative. So the text is that of
the instant to the second if the offset is of whole minutes, and only then. -/
theorem epochNanoseconds_of_defaultText (i : Instant) (field : String) :
    ∃ text j, i.format none field = .ok text ∧ ofText? text = some j ∧
      j.epochNanoseconds = (i.epochNanoseconds / 1000000000 + i.offset.seconds.tmod 60) * 1000000000 ∧
      (j.epochNanoseconds = i.epochNanoseconds / 1000000000 * 1000000000 ↔ 60 ∣ i.offset.seconds) := by
  have hoffset := i.offset.withSign_add
  rw [UtcOffset.withSign_secondsPastMinute] at hoffset
  have hseconds : i.toText.epochSeconds = i.epochSeconds + i.offset.seconds.tmod 60 := by
    change (i.date.number - 719162) * 86400 + i.time.seconds - i.offset.toMinute.seconds = _
    change i.offset.toMinute.seconds + i.offset.seconds.tmod 60 = i.offset.seconds at hoffset
    unfold epochSeconds
    omega
  have hread : i.toText.epochNanoseconds =
      (i.epochNanoseconds / 1000000000 + i.offset.seconds.tmod 60) * 1000000000 := by
    rw [epochNanoseconds_ediv, ← hseconds]
    exact Int.add_zero _
  refine ⟨_, _, rfl, ofText?_defaultText_eq i, hread, ?_⟩
  rw [hread, Int.dvd_iff_tmod_eq_zero]
  omega

-- an offset of half a minute to the west keeps its sign and nothing else
example : (⟨{ year := -1, month := 12, day := 31 }, ⟨23, 59, 59, 1⟩, ⟨-30, by decide⟩⟩ : Instant).defaultText =
    "-0001-12-31T23:59:59-00:00" := by decide +kernel

end Instant

end QueryClauses
