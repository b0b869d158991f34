import Mathlib.Order.Basic
import Mathlib.Tactic.IntervalCases
import Mathlib.Tactic.Linarith

/-!
# The Gregorian calendar

The proleptic Gregorian calendar over all integers, against the count of seconds since the start of
1970 in which every day has 86400 of them. A `Civil` date is year, month, day and time of day;
`Civil.unixTime` is its second. The days before a year and before a month are given by formulas, and
their lemmas say that the formulas step by the length of a year and of a month.

A second has one valid date at most (`unixTime_injective`), and where it lies says in which year and
month the date is.
-/

namespace Lib

/-- A leap year: every fourth, of the century years only every fourth again. -/
def Leap (y : ℤ) : Prop := y % 4 = 0 ∧ (y % 100 ≠ 0 ∨ y % 400 = 0)

instance (y : ℤ) : Decidable (Leap y) := inferInstanceAs (Decidable (_ ∧ _))

/-- The days of a year. -/
def yearLength (y : ℤ) : ℤ := if Leap y then 366 else 365

/-- The days of a month; the months are counted from 1. -/
def monthLength (y : ℤ) (m : ℕ) : ℤ :=
  if m = 2 then if Leap y then 29 else 28
  else if m = 4 ∨ m = 6 ∨ m = 9 ∨ m = 11 then 30 else 31

/-- The days from the start of 1970 to the start of a year. -/
def daysToYear (y : ℤ) : ℤ :=
  365 * (y - 1970) + ((y - 1) / 4 - (y - 1) / 100 + (y - 1) / 400 - 477)

/-- The days from the start of a year to the start of a month. -/
def daysToMonth (y : ℤ) : ℕ → ℤ
  | 0 => 0
  | 1 => 0
  | m + 2 => daysToMonth y (m + 1) + monthLength y (m + 1)

variable {y z : ℤ} {m k : ℕ} {d t : ℤ}

theorem daysToYear_epoch : daysToYear 1970 = 0 := by decide

/-- A year later. -/
theorem daysToYear_succ (y : ℤ) : daysToYear (y + 1) = daysToYear y + yearLength y := by
  by_cases hy : Leap y
  · rw [yearLength, if_pos hy]
    unfold Leap at hy
    unfold daysToYear
    omega
  · rw [yearLength, if_neg hy]
    unfold Leap at hy
    unfold daysToYear
    omega

theorem yearLength_pos (y : ℤ) : 365 ≤ yearLength y := by
  unfold yearLength
  split <;> omega

theorem yearLength_le (y : ℤ) : yearLength y ≤ 366 := by
  unfold yearLength
  split <;> omega

/-- A later year starts behind the end of this one. -/
theorem daysToYear_add_le (h : y < z) : daysToYear y + yearLength y ≤ daysToYear z := by
  induction z, h using Int.leInduction with
  | base => exact (daysToYear_succ y).ge
  | succ k hk ih =>
    have hlen := yearLength_pos k
    rw [daysToYear_succ]
    omega

theorem monthLength_pos (y : ℤ) (m : ℕ) : 28 ≤ monthLength y m := by
  unfold monthLength
  split_ifs <;> omega

theorem monthLength_le (y : ℤ) (m : ℕ) : monthLength y m ≤ 31 := by
  unfold monthLength
  split_ifs <;> omega

/-- A month later. -/
theorem daysToMonth_succ (y : ℤ) (hm : 1 ≤ m) :
    daysToMonth y (m + 1) = daysToMonth y m + monthLength y m := by
  obtain ⟨k, rfl⟩ : ∃ k, m = k + 1 := ⟨m - 1, by omega⟩
  rfl

/-- A later month starts behind the end of this one. -/
theorem daysToMonth_add_le (hm : 1 ≤ m) (h : m < k) :
    daysToMonth y m + monthLength y m ≤ daysToMonth y k := by
  induction k, h using Nat.le_induction with
  | base => exact (daysToMonth_succ y hm).ge
  | succ k hk ih =>
    have hlen := monthLength_pos y k
    rw [daysToMonth_succ y (by omega)]
    omega

theorem daysToMonth_mono (hm : 1 ≤ m) (h : m ≤ k) : daysToMonth y m ≤ daysToMonth y k := by
  rcases h.lt_or_eq with hlt | rfl
  · have hlen := monthLength_pos y m
    exact (by omega : daysToMonth y m ≤ daysToMonth y m + monthLength y m).trans
      (daysToMonth_add_le hm hlt)
  · exact le_rfl

/-- The days before a month, all twelve of them. -/
theorem daysToMonth_eq (y : ℤ) (hm : 1 ≤ m) (hle : m ≤ 13) :
    daysToMonth y m =
      [0, 0, 31, 59, 90, 120, 151, 181, 212, 243, 273, 304, 334, 365].getD m 0 +
        if 3 ≤ m ∧ Leap y then 1 else 0 := by
  interval_cases m <;> by_cases hy : Leap y <;> simp [daysToMonth, monthLength, hy]

theorem daysToMonth_end (y : ℤ) : daysToMonth y 13 = yearLength y := by
  rw [daysToMonth_eq y (by omega) le_rfl, yearLength]
  by_cases hy : Leap y <;> simp [hy]

/-! ## Dates -/

/-- A date and a time of day. -/
structure Civil : Type where
  year : ℤ
  month : ℕ
  day : ℕ
  hour : ℕ
  min : ℕ
  sec : ℕ
  deriving DecidableEq, Repr

namespace Civil

/-- A date that there is. -/
structure Valid (c : Civil) : Prop where
  month_pos : 1 ≤ c.month
  month_le : c.month ≤ 12
  day_pos : 1 ≤ c.day
  day_le : (c.day : ℤ) ≤ monthLength c.year c.month
  hour_lt : c.hour < 24
  min_lt : c.min < 60
  sec_lt : c.sec < 60

/-- The days since the start of 1970. -/
def dayNumber (c : Civil) : ℤ := daysToYear c.year + daysToMonth c.year c.month + (c.day - 1)

/-- The seconds since the start of 1970. -/
def unixTime (c : Civil) : ℤ := c.dayNumber * 86400 + (c.hour * 3600 + c.min * 60 + c.sec : ℕ)

/-- The seconds since the start of the month. -/
def ofMonth (c : Civil) : ℤ := (c.day - 1) * 86400 + (c.hour * 3600 + c.min * 60 + c.sec : ℕ)

/-- The seconds since the start of the year. -/
def ofYear (c : Civil) : ℤ := daysToMonth c.year c.month * 86400 + c.ofMonth

variable {c c' : Civil}

theorem unixTime_eq (c : Civil) : c.unixTime = daysToYear c.year * 86400 + c.ofYear := by
  rw [unixTime, dayNumber, ofYear, ofMonth]
  omega

theorem Valid.ofMonth_nonneg (h : c.Valid) : 0 ≤ c.ofMonth := by
  have := h.day_pos
  rw [ofMonth]
  omega

theorem Valid.secs_lt (h : c.Valid) : c.hour * 3600 + c.min * 60 + c.sec < 86400 := by
  have := h.hour_lt
  have := h.min_lt
  have := h.sec_lt
  omega

/-- A second is in the month of its date. -/
theorem Valid.ofMonth_lt (h : c.Valid) : c.ofMonth < monthLength c.year c.month * 86400 := by
  have hle := h.day_le
  have hlt := h.secs_lt
  rw [ofMonth]
  omega

/-- The day of a second. -/
theorem Valid.dayNumber_eq (h : c.Valid) : c.dayNumber = c.unixTime / 86400 := by
  have hlt := h.secs_lt
  rw [unixTime]
  omega

theorem Valid.secs_eq (h : c.Valid) :
    ((c.hour * 3600 + c.min * 60 + c.sec : ℕ) : ℤ) = c.unixTime % 86400 := by
  have hlt := h.secs_lt
  rw [unixTime]
  omega

/-- A day is in the year of its date. -/
theorem Valid.dayNumber_mem (h : c.Valid) :
    daysToYear c.year ≤ c.dayNumber ∧ c.dayNumber < daysToYear c.year + yearLength c.year := by
  have hd := h.day_pos
  have hle := h.day_le
  have hstart : 0 ≤ daysToMonth c.year c.month := by
    rw [daysToMonth_eq c.year h.month_pos (h.month_le.trans (by omega))]
    have hm := h.month_pos
    have hm' := h.month_le
    generalize c.month = m at hm hm'
    interval_cases m <;> simp <;> split <;> omega
  have hend := daysToMonth_add_le (y := c.year) h.month_pos (Nat.lt_succ_of_le h.month_le)
  rw [daysToMonth_end] at hend
  rw [dayNumber]
  omega

/-- A second is in the year of its date. -/
theorem Valid.ofYear_mem (h : c.Valid) :
    0 ≤ c.ofYear ∧ c.ofYear < yearLength c.year * 86400 := by
  have hday := h.dayNumber_mem
  have hlt := h.secs_lt
  have htime := c.unixTime_eq
  rw [unixTime] at htime
  omega

/-- The years between two points in time. -/
theorem Valid.year_mem (h : c.Valid) (hlo : daysToYear y * 86400 ≤ c.unixTime)
    (hhi : c.unixTime < daysToYear z * 86400) : y ≤ c.year ∧ c.year < z := by
  obtain ⟨h0, hend⟩ := h.ofYear_mem
  rw [unixTime_eq] at hlo hhi
  constructor
  · by_contra! hlt
    have := daysToYear_add_le hlt
    omega
  · by_contra! hle
    rcases hle.lt_or_eq with hlt | rfl
    · have := daysToYear_add_le hlt
      have := yearLength_pos z
      omega
    · omega

/-- The seconds of the year, and the month of the date. -/
theorem Valid.ofYear_month (h : c.Valid) :
    daysToMonth c.year c.month * 86400 ≤ c.ofYear ∧
      c.ofYear < daysToMonth c.year (c.month + 1) * 86400 := by
  have h0 := h.ofMonth_nonneg
  have hlt := h.ofMonth_lt
  rw [daysToMonth_succ c.year h.month_pos, ofYear]
  omega

/-- **One date for a second**: two dates that there are, with the same number of seconds, are the
same. -/
theorem unixTime_injective (h : c.Valid) (h' : c'.Valid) (heq : c.unixTime = c'.unixTime) :
    c = c' := by
  have hday : c.dayNumber = c'.dayNumber := by rw [h.dayNumber_eq, h'.dayNumber_eq, heq]
  have hsecs := h.secs_eq.trans ((congrArg (· % 86400) heq).trans h'.secs_eq.symm)
  obtain ⟨hlo, hhi⟩ := h.dayNumber_mem
  obtain ⟨hlo', hhi'⟩ := h'.dayNumber_mem
  have hyear : c.year = c'.year := by
    rcases lt_trichotomy c.year c'.year with hlt | heq | hgt
    · have := daysToYear_add_le hlt
      omega
    · exact heq
    · have := daysToYear_add_le hgt
      omega
  have hofYear : daysToMonth c.year c.month + (c.day - 1 : ℤ) =
      daysToMonth c.year c'.month + (c'.day - 1 : ℤ) := by
    rw [dayNumber, dayNumber, ← hyear] at hday
    omega
  have hd := h.day_pos
  have hle := h.day_le
  have hd' := h'.day_pos
  have hle' := h'.day_le
  rw [← hyear] at hle'
  have hmonth : c.month = c'.month := by
    rcases lt_trichotomy c.month c'.month with hlt | heq | hgt
    · have := daysToMonth_add_le (y := c.year) h.month_pos hlt
      omega
    · exact heq
    · have := daysToMonth_add_le (y := c.year) h'.month_pos hgt
      omega
  rw [hmonth] at hofYear
  have hs := h.sec_lt
  have hs' := h'.sec_lt
  have hm := h.min_lt
  have hm' := h'.min_lt
  cases c
  cases c'
  simp only [mk.injEq] at *
  omega

end Civil

end Lib
