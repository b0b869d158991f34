import Shfs.Lib.Calendar
import Shfs.Listing
import Shfs.SetTime

/-!
# The year of a recent file

`ls` prints the time of a file of the last six months without its year, and `do_ls` guesses the year
from `get_this_year` and `get_this_month` (shell.c). These do not use the calendar but years of
365 days and 6 hours, so they run behind it by 6 hours in the year before a leap year and by 12
hours in a leap year (`clockLag`).

In the first hours of a month the guess then takes the month before for the current one, and a file
of these same hours is put into the year before. `recent_time_iff` says that this is the only
mistake.
-/

namespace Shfs

open Lib

/-! ## The current year and month -/

/-- `get_this_year`, at the time `now`. -/
def getThisYear (now : ℕ) : UInt32 :=
  let sPerYear := 365 * 24 * 3600
  let deltaS := 24 * 3600
  let year := UInt32.ofNat (now / (sPerYear + deltaS / 4))
  1970 + year

/-- The loop of `get_this_month`: `month` is the one before the first of `days`. -/
def monthLoop : List ℤ → ℤ → ℤ → ℤ
  | [], month, _ => month
  | d :: days, month, secs =>
    if secs ≥ 0 then monthLoop days (month + 1) (secs - 24 * 3600 * d) else month

/-- `days_month`, with 28 or 29 days for the second one. -/
def daysMonth (february : ℤ) : List ℤ := [31, february, 31, 30, 31, 30, 31, 31, 30, 31, 30, 31]

/-- `get_this_month`, from 0 on. -/
def getThisMonth (now : ℕ) : UInt32 :=
  let secs : ℤ := (now % (365 * 24 * 3600 + 24 * 3600 / 4) : ℕ)
  let february := if getThisYear now % 4 ≠ 0 then 28 else 29
  .ofInt (monthLoop (daysMonth february) (-1) secs)

/-- What `do_ls` takes from the kernel at the time `now`. -/
def clockAt (mktime : UInt32 → UInt32 → UInt32 → UInt32 → UInt32 → UInt64) (now : ℕ) : Clock :=
  ⟨getThisYear now, getThisMonth now, mktime⟩

/-! ## What `ls` prints -/

/-- The names of the months, from 1 on. -/
def monthName (m : ℕ) : Bytes :=
  [[], ascii "Jan", ascii "Feb", ascii "Mar", ascii "Apr", ascii "May", ascii "Jun", ascii "Jul",
    ascii "Aug", ascii "Sep", ascii "Oct", ascii "Nov", ascii "Dec"].getD m []

/-- The three columns of a recent time: name of the month, day, and `HH:MM`. -/
structure Prints (col : ℕ → Bytes) (c : Civil) : Prop where
  month : col DIR_MONTH = monthName c.month
  day : col DIR_DAY = dec c.day
  year : col DIR_YEAR = fmtPrec 2 c.hour ++ 58 :: fmtPrec 2 c.min

/-- `mktime` of the kernel, on the dates that there are. -/
def KernelMktime (mktime : UInt32 → UInt32 → UInt32 → UInt32 → UInt32 → UInt64) : Prop :=
  ∀ c : Civil, c.Valid → c.sec = 0 → 0 ≤ c.year → c.year < 2 ^ 32 →
    mktime (.ofNat c.year.toNat) (.ofNat c.month) (.ofNat c.day) (.ofNat c.hour) (.ofNat c.min) =
      .ofInt c.unixTime

/-- How far `get_this_year` and `get_this_month` are behind the calendar. -/
def clockLag (year : ℤ) : ℤ := if year % 4 = 3 then 21600 else if year % 4 = 0 then 43200 else 0

/-- The file is from this month, and this month is younger than the lag of the clock. -/
def Confused (now mtime : Civil) : Prop :=
  now.year = mtime.year ∧ now.month = mtime.month ∧ now.ofMonth < clockLag now.year

/-! ## The guess -/

/-- Where the loop of `get_this_month` stops: the seconds are behind the start of that month, and in
front of its end unless it is the last. -/
theorem monthLoop_spec (days : List ℤ) (month secs : ℤ) (hdays : days ≠ []) (h0 : 0 ≤ secs) :
    ∃ k < days.length, monthLoop days month secs = month + 1 + k ∧
      (days.take k).sum * 86400 ≤ secs ∧
      (k + 1 < days.length → secs < (days.take (k + 1)).sum * 86400) := by
  induction days generalizing month secs with
  | nil => exact absurd rfl hdays
  | cons d days ih =>
    rw [monthLoop, if_pos h0]
    rcases lt_or_ge (secs - 24 * 3600 * d) 0 with hneg | hnonneg
    · refine ⟨0, Nat.succ_pos _, ?_, by simpa using h0, fun _ => ?_⟩
      · cases days with
        | nil => simp [monthLoop]
        | cons e days =>
          rw [monthLoop, if_neg (not_le.mpr hneg)]
          simp
      · simp only [zero_add, List.take_succ_cons, List.take_zero, List.sum_cons, List.sum_nil]
        omega
    · rcases days with _ | ⟨e, days⟩
      · exact ⟨0, Nat.succ_pos _, by simp [monthLoop], by simpa using h0,
          fun h => absurd h (by simp)⟩
      · obtain ⟨k, hk, hval, hlo, hhi⟩ := ih (month + 1) _ (List.cons_ne_nil e days) hnonneg
        refine ⟨k + 1, Nat.succ_lt_succ hk, ?_, ?_, fun h => ?_⟩
        · rw [hval]
          push_cast
          omega
        · rw [List.take_succ_cons, List.sum_cons]
          omega
        · have hend := hhi (Nat.lt_of_succ_lt_succ h)
          rw [List.take_succ_cons, List.sum_cons]
          omega

/-- The table, with the right February, is the calendar. -/
theorem sum_take_daysMonth (y : ℤ) {k : ℕ} (hk : k ≤ 12) :
    ((daysMonth (if Leap y then 29 else 28)).take k).sum = daysToMonth y (k + 1) := by
  rw [daysToMonth_eq y (by omega) (by omega)]
  interval_cases k <;> by_cases hy : Leap y <;> simp [daysMonth, hy]

/-- Between 1901 and 2099 every fourth year is a leap year. -/
theorem leap_iff_of_mem {y : ℤ} (h : 1901 ≤ y ∧ y ≤ 2099) : Leap y ↔ y % 4 = 0 := by
  unfold Leap
  omega

theorem daysToYear_of_mem {y : ℤ} (h : 1901 ≤ y ∧ y ≤ 2100) :
    daysToYear y = 365 * (y - 1970) + ((y - 1) / 4 - 492) := by
  unfold daysToYear
  omega

theorem toNat_getThisYear (now : ℕ) (h : now / 31557600 < 2 ^ 31) :
    (getThisYear now).toNat = 1970 + now / 31557600 := by
  change (1970 + UInt32.ofNat (now / 31557600)).toNat = _
  rw [UInt32.toNat_add, UInt32.toNat_ofNat']
  change (1970 + now / 31557600 % 2 ^ 32) % 2 ^ 32 = _
  omega

theorem toNat_ofInt (x : ℤ) : (UInt32.ofInt x).toNat = (x % 2 ^ 32).toNat := by
  rw [UInt32.ofInt, UInt32.toNat_ofNat']
  omega

/-- `get_this_month` is the month of the calendar in which the seconds of the year would be. -/
theorem getThisMonth_spec (now : ℕ) (h : now / 31557600 < 130) :
    ∃ m : ℕ, 1 ≤ m ∧ m ≤ 12 ∧ (getThisMonth now).toNat = m - 1 ∧
      daysToMonth (1970 + now / 31557600 : ℕ) m * 86400 ≤ (now % 31557600 : ℕ) ∧
      (m < 12 → ((now % 31557600 : ℕ) : ℤ) <
        daysToMonth (1970 + now / 31557600 : ℕ) (m + 1) * 86400) := by
  have hyear := toNat_getThisYear now (by omega)
  have hfeb : (if getThisYear now % 4 ≠ 0 then 28 else 29 : ℤ) =
      if Leap (1970 + now / 31557600 : ℕ) then 29 else 28 := by
    have hiff : getThisYear now % 4 = 0 ↔ Leap (1970 + now / 31557600 : ℕ) := by
      rw [leap_iff_of_mem (by omega), ← UInt32.toNat_inj, UInt32.toNat_mod, hyear]
      change (1970 + now / 31557600) % 4 = 0 ↔ _
      omega
    by_cases hl : Leap (1970 + now / 31557600 : ℕ)
    · simp only [hiff.mpr hl, hl, ne_eq, not_true, if_false, if_true]
    · simp only [hiff, hl, ne_eq, not_false_eq_true, if_true, if_false]
  obtain ⟨k, hk, hval, hlo, hhi⟩ := monthLoop_spec
    (daysMonth (if Leap (1970 + now / 31557600 : ℕ) then 29 else 28)) (-1)
    (now % 31557600 : ℕ) (List.cons_ne_nil _ _) (Int.natCast_nonneg _)
  have hk12 : k < 12 := hk
  rw [sum_take_daysMonth _ hk12.le] at hlo
  refine ⟨k + 1, by omega, by omega, ?_, hlo, fun hm => ?_⟩
  · change (UInt32.ofInt (monthLoop (daysMonth (if getThisYear now % 4 ≠ 0 then 28 else 29)) (-1)
      (now % 31557600 : ℕ))).toNat = _
    rw [hfeb, hval, toNat_ofInt]
    omega
  · have hend := hhi (show k + 1 < 12 by omega)
    rwa [sum_take_daysMonth _ hm.le] at hend

/-- The year that `do_ls` takes for a month, counted from 1. -/
def guessYear (now m : ℕ) : ℕ :=
  if (getThisMonth now).toNat < m - 1 then (getThisYear now).toNat - 1 else (getThisYear now).toNat

/-- Years of 365 days and 6 hours against the calendar: `get_this_year` and the seconds that
`get_this_month` starts from. -/
theorem clock_eq {n : Civil} (hn : n.Valid) {now : ℕ} (hnow : n.unixTime = now)
    (hyear : 1970 ≤ n.year ∧ n.year ≤ 2099) :
    let ahead := if n.year % 4 = 1 then 21600 else - clockLag n.year
    ((now / 31557600 : ℕ) : ℤ) =
        n.year - 1970 + (if n.ofYear + ahead < 0 then -1
          else if 31557600 ≤ n.ofYear + ahead then 1 else 0) ∧
      ((now % 31557600 : ℕ) : ℤ) =
        n.ofYear + ahead + (if n.ofYear + ahead < 0 then 31557600
          else if 31557600 ≤ n.ofYear + ahead then -31557600 else 0) := by
  intro ahead
  obtain ⟨h0, hend⟩ := hn.ofYear_mem
  have hlen := yearLength_le n.year
  rw [Civil.unixTime_eq, daysToYear_of_mem (by omega)] at hnow
  have hahead : ahead = 86400 * ((n.year - 1) / 4 - 492) - 21600 * (n.year - 1970) := by
    simp only [ahead, clockLag]
    split_ifs <;> omega
  have hbound : -43200 ≤ ahead ∧ ahead ≤ 21600 := by
    simp only [ahead, clockLag]
    split_ifs <;> omega
  clear_value ahead
  generalize n.ofYear = T at *
  generalize n.year = y at *
  split_ifs <;> omega

/-- How `get_this_year` and `get_this_month` stand to the calendar: in step or a month ahead, or,
within the lag, in the month before. -/
inductive Stand (n : Civil) (now : ℕ) : Prop where
  | inStep (hyear : ((getThisYear now).toNat : ℤ) = n.year)
      (hlo : n.month ≤ (getThisMonth now).toNat + 1) (hhi : (getThisMonth now).toNat ≤ n.month)
      (hlag : clockLag n.year ≤ n.ofMonth)
  | behind (hyear : ((getThisYear now).toNat : ℤ) = n.year)
      (hmonth : (getThisMonth now).toNat + 2 = n.month) (hlag : n.ofMonth < clockLag n.year)
  | lastYear (hyear : ((getThisYear now).toNat : ℤ) = n.year - 1)
      (hmonth : (getThisMonth now).toNat = 11) (hfirst : n.month = 1)
      (hlag : n.ofMonth < clockLag n.year)
  | nextYear (hyear : ((getThisYear now).toNat : ℤ) = n.year + 1)
      (hmonth : (getThisMonth now).toNat = 0) (hlast : n.month = 12)
      (hlag : clockLag n.year ≤ n.ofMonth)

theorem clockLag_mem (y : ℤ) : 0 ≤ clockLag y ∧ clockLag y ≤ 43200 := by
  unfold clockLag
  split_ifs <;> omega

/-- **The clock against the calendar**: what `do_ls` takes from the kernel at a time stands to the
date of that time in one of the ways of `Stand`, for each year up to 2099. -/
theorem stand {n : Civil} (hn : n.Valid) {now : ℕ} (hnow : n.unixTime = now)
    (hyear : 1970 ≤ n.year ∧ n.year < 2100) (hhi : now ≤ 4102444799) : Stand n now := by
  obtain ⟨hq, hr⟩ := clock_eq hn hnow (by omega)
  obtain ⟨M, hM1, hM12, hM, hMlo, hMhi⟩ := getThisMonth_spec now (by omega)
  have hY := toNat_getThisYear now (by omega)
  obtain ⟨hT0, hTend⟩ := hn.ofYear_mem
  obtain ⟨hTlo, hThi⟩ := hn.ofYear_month
  have hT : n.ofYear = daysToMonth n.year n.month * 86400 + n.ofMonth := rfl
  have hn1 := hn.month_pos
  have hn12 := hn.month_le
  have hlag := clockLag_mem n.year
  have hlast : ∀ y, daysToMonth y 12 ≤ 335 := by
    intro y
    rw [daysToMonth_eq y (by omega) (by omega)]
    by_cases hy : Leap y <;> simp [hy]
  have hsecond : ∀ y, daysToMonth y 2 = 31 := by
    intro y
    rw [daysToMonth_eq y (by omega) (by omega)]
    simp
  set ahead : ℤ := if n.year % 4 = 1 then 21600 else - clockLag n.year with hahead
  have hbound : -clockLag n.year ≤ ahead ∧ ahead ≤ 21600 := by
    rw [hahead]
    split <;> omega
  have hcast : ((1970 + now / 31557600 : ℕ) : ℤ) = 1970 + (now / 31557600 : ℕ) := by push_cast; rfl
  -- a month that starts after the second, and one that has started
  have hbefore : ∀ y k, M < 12 → M + 1 ≤ k → ((now % 31557600 : ℕ) : ℤ) <
      daysToMonth (1970 + now / 31557600 : ℕ) (M + 1) * 86400 →
      ((1970 + now / 31557600 : ℕ) : ℤ) = y →
      ((now % 31557600 : ℕ) : ℤ) < daysToMonth y k * 86400 := by
    rintro y k _ hk hlt rfl
    have := daysToMonth_mono (y := (1970 + now / 31557600 : ℕ)) (Nat.succ_pos M) hk
    simp only [Nat.succ_eq_add_one] at this
    omega
  rcases lt_or_ge (n.ofYear + ahead) 0 with hneg | hnonneg
  · -- still the year before
    rw [if_pos hneg] at hq hr
    have hfirst : n.month = 1 := by
      by_contra hne
      have := daysToMonth_mono (y := n.year) (m := 2) (by omega) (show 2 ≤ n.month by omega)
      rw [hsecond] at this
      have := hn.ofMonth_nonneg
      omega
    have hM12' : M = 12 := by
      by_contra hne
      have := hbefore _ 12 (by omega) (by omega) (hMhi (by omega)) rfl
      have := hlast (1970 + now / 31557600 : ℕ)
      omega
    rw [hfirst] at hT
    have hT' : n.ofYear = n.ofMonth := by
      rw [hT, daysToMonth]
      omega
    exact .lastYear (by omega) (by omega) hfirst (by omega)
  rcases le_or_gt 31557600 (n.ofYear + ahead) with hnext | hsame
  · -- the year after, at the end of a leap year
    rw [if_neg (not_lt.mpr hnonneg), if_pos hnext] at hq hr
    have hlen : yearLength n.year = if n.year % 4 = 0 then 366 else 365 := by
      rw [yearLength]
      simp only [leap_iff_of_mem (y := n.year) (by omega)]
    have hleap : n.year % 4 = 0 ∧ ahead = -43200 := by
      have hcases : n.year % 4 = 0 ∧ ahead = -43200 ∨ n.year % 4 ≠ 0 := by
        rw [hahead, clockLag]
        split_ifs <;> omega
      refine hcases.resolve_right fun hne => ?_
      rw [hlen, if_neg hne] at hTend
      omega
    have hM1' : M = 1 := by
      by_contra hne
      have := daysToMonth_mono (y := (1970 + now / 31557600 : ℕ)) (m := 2) (by omega)
        (show 2 ≤ M by omega)
      rw [hsecond] at this
      rw [hlen] at hTend
      omega
    have hmonth12 : n.month = 12 := by
      by_contra hne
      have := daysToMonth_mono (y := n.year) (m := n.month + 1) (k := 12) (by omega) (by omega)
      have := hlast n.year
      omega
    have hlag' : clockLag n.year ≤ n.ofMonth := by
      rw [hmonth12] at hT
      have := hlast n.year
      omega
    exact .nextYear (by omega) (by omega) hmonth12 hlag'
  rw [if_neg (not_lt.mpr hnonneg), if_neg (not_le.mpr hsame)] at hq hr
  have hYn : ((1970 + now / 31557600 : ℕ) : ℤ) = n.year := by omega
  rw [hYn] at hMlo hMhi
  rcases le_or_gt (daysToMonth n.year n.month * 86400) (n.ofYear + ahead) with hle | hgt
  · -- at least in step
    have hnM : n.month ≤ M := by
      by_contra! hlt
      have := daysToMonth_mono (y := n.year) (m := M + 1) (k := n.month) (by omega) (by omega)
      have := hMhi (by omega)
      omega
    have hMn : M ≤ n.month + 1 := by
      by_contra! hlt
      have := daysToMonth_add_le (y := n.year) (m := n.month + 1) (k := M) (by omega) (by omega)
      have := monthLength_pos n.year (n.month + 1)
      omega
    refine .inStep (by omega) (by omega) (by omega) ?_
    have h1 : n.year % 4 = 1 → clockLag n.year = 0 := fun h1 => by
      rw [clockLag, if_neg (by omega), if_neg (by omega)]
    have := hn.ofMonth_nonneg
    by_contra! hlag'
    rw [hahead] at hle
    split at hle
    · next h => exact absurd (h1 h) (by omega)
    · omega
  · -- in the month before
    have hMn : M < n.month := by
      by_contra! hge
      have := daysToMonth_mono (y := n.year) hn1 hge
      omega
    have hnM : n.month ≤ M + 1 := by
      by_contra! hlt
      have := daysToMonth_add_le (y := n.year) (m := M + 1) (k := n.month) (by omega) (by omega)
      have := monthLength_pos n.year (M + 1)
      have := hMhi (by omega)
      have := hn.ofMonth_nonneg
      omega
    exact .behind (by omega) (by omega) (by omega)

/-- The seconds of a month of the year before, and those of this month. -/
theorem daysToMonth_le_add (y y' : ℤ) {k : ℕ} (hk : 1 ≤ k) (hle : k ≤ 8) :
    daysToMonth y' (k + 5) ≤ daysToMonth y k + 156 := by
  rw [daysToMonth_eq y' (by omega) (by omega), daysToMonth_eq y hk (by omega)]
  interval_cases k <;> by_cases hy : Leap y <;> by_cases hy' : Leap y' <;> simp [hy, hy']

/-- Seven months of one year. -/
theorem add_le_daysToMonth (y : ℤ) {k : ℕ} (hk : 1 ≤ k) (hle : k ≤ 6) :
    daysToMonth y k + 212 ≤ daysToMonth y (k + 7) := by
  rw [daysToMonth_eq y hk (by omega), daysToMonth_eq y (m := k + 7) (by omega) (by omega)]
  interval_cases k <;> by_cases hy : Leap y <;> simp [hy]

/-- A file of the last six months: its year and its month. -/
theorem recent_month {n m : Civil} (hn : n.Valid) (hm : m.Valid)
    (hrecent : n.unixTime - 15778476 < m.unixTime) (hpast : m.unixTime ≤ n.unixTime) :
    (m.year = n.year ∧ m.month ≤ n.month ∧ n.month ≤ m.month + 7) ∨
      (m.year = n.year - 1 ∧ n.month + 5 ≤ m.month) := by
  obtain ⟨hT0, hTend⟩ := hn.ofYear_mem
  obtain ⟨hTlo, hThi⟩ := hn.ofYear_month
  obtain ⟨hS0, hSend⟩ := hm.ofYear_mem
  obtain ⟨hSlo, hShi⟩ := hm.ofYear_month
  have hprev := daysToYear_succ (n.year - 1)
  have hlen := yearLength_pos (n.year - 1)
  rw [sub_add_cancel] at hprev
  have hyear := hm.year_mem (y := n.year - 1) (z := n.year + 1)
    (by rw [n.unixTime_eq] at hrecent; omega)
    (by rw [daysToYear_succ]; rw [n.unixTime_eq] at hpast; omega)
  rw [n.unixTime_eq, m.unixTime_eq] at hrecent hpast
  rcases (by omega : m.year = n.year ∨ m.year = n.year - 1) with hy | hy
  · refine Or.inl ⟨hy, ?_, ?_⟩
    · rw [hy] at hpast hSlo
      by_contra! hlt
      have := daysToMonth_mono (y := n.year) (m := n.month + 1) (by omega) hlt
      omega
    · rw [hy] at hrecent hShi
      by_contra! hlt
      have hn12 := hn.month_le
      have := add_le_daysToMonth n.year (k := m.month + 1) (by omega) (by omega)
      have := daysToMonth_mono (y := n.year) (m := m.month + 1 + 7) (k := n.month) (by omega)
        (by omega)
      omega
  · refine Or.inr ⟨hy, ?_⟩
    rw [hy] at hrecent hShi
    have hn8 : n.month ≤ 8 := by
      by_contra! hlt
      have := daysToMonth_mono (y := n.year) (m := 9) (by omega) hlt
      rw [daysToMonth_eq n.year (m := 9) (by omega) (by omega)] at this
      have hend := daysToMonth_mono (y := n.year - 1) (m := m.month + 1) (k := 13) (by omega)
        (Nat.succ_le_succ hm.month_le)
      rw [daysToMonth_end] at hend
      simp at this
      split at this <;> omega
    by_contra! hlt
    have := daysToMonth_mono (y := n.year - 1) (m := m.month + 1) (k := n.month + 5) (by omega)
      (by omega)
    have := daysToMonth_le_add n.year (n.year - 1) hn.month_pos hn8
    omega

/-- **The guess** is right but for the files of the first hours of a month. -/
theorem guessYear_eq {n m : Civil} (hn : n.Valid) (hm : m.Valid) {now : ℕ} (hnow : n.unixTime = now)
    (hlo : 15724800 ≤ now) (hhi : now ≤ 4102444799) (hrecent : now - 15778476 < m.unixTime)
    (hpast : m.unixTime ≤ now) :
    (Confused n m → (guessYear now m.month : ℤ) = m.year - 1) ∧
      (¬ Confused n m → (guessYear now m.month : ℤ) = m.year) := by
  have hyear : 1970 ≤ n.year ∧ n.year < 2100 :=
    hn.year_mem (by rw [hnow, daysToYear_epoch]; omega)
      (by rw [hnow, show daysToYear 2100 = 47482 by decide]; omega)
  have hmonth := recent_month hn hm (by rw [hnow]; exact hrecent) (by rw [hnow]; exact hpast)
  have hm1 := hm.month_pos
  have hm12 := hm.month_le
  have hn1 := hn.month_pos
  unfold Confused guessYear
  rcases stand hn hnow hyear hhi with ⟨hy, hle, hge, hlag⟩ | ⟨hy, hM, hlag⟩ |
    ⟨hy, hM, hfirst, hlag⟩ | ⟨hy, hM, hlast, hlag⟩
  · refine ⟨fun h => absurd h.2.2 (by omega), fun _ => ?_⟩
    split <;> omega
  · refine ⟨fun h => ?_, fun h => ?_⟩ <;> split <;> omega
  · refine ⟨fun h => ?_, fun h => ?_⟩ <;> split <;> omega
  · refine ⟨fun h => absurd h.2.2 (by omega), fun _ => ?_⟩
    split <;> omega

/-! ## The columns -/

theorem getMonth_monthName {k : ℕ} (hk : 1 ≤ k) (hle : k ≤ 12) :
    getMonth (monthName k) = some (k - 1) := by
  interval_cases k <;> rfl

/-- What the three columns are read as. -/
theorem lsTime_prints {mktime : UInt32 → UInt32 → UInt32 → UInt32 → UInt32 → UInt64}
    {col : ℕ → Bytes} {m : Civil} (hm : m.Valid) (hcol : Prints col m) {now : ℕ}
    (hnow : 0 < (getThisYear now).toNat) :
    lsTime (clockAt mktime now) (col DIR_MONTH) (col DIR_DAY) (col DIR_YEAR) =
      mktime (.ofNat (guessYear now m.month)) (.ofNat m.month) (.ofNat m.day) (.ofNat m.hour)
        (.ofNat m.min) := by
  have hm1 := hm.month_pos
  have hm12 := hm.month_le
  have hhour : ∀ b ∈ fmtPrec 2 (m.hour : ℤ), decide (b ≠ 58) = true := fun b hb =>
    decide_eq_true (ne_of_isDigit (isDigit_of_mem_fmtPrec hb) (by decide))
  have htake : (fmtPrec 2 m.hour ++ 58 :: fmtPrec 2 m.min).takeWhile (· ≠ 58) =
      fmtPrec 2 m.hour := by
    rw [List.takeWhile_append_of_pos hhour]
    simp
  have hdrop : ((fmtPrec 2 m.hour ++ 58 :: fmtPrec 2 m.min).dropWhile (· ≠ 58)).drop 1 =
      fmtPrec 2 m.min := by
    rw [List.dropWhile_append_of_pos hhour]
    simp
  have hmon : (UInt32.ofNat (m.month - 1)).toNat = m.month - 1 := by
    rw [UInt32.toNat_ofNat']
    omega
  have hmonth : (UInt32.ofNat (m.month - 1)) + 1 = .ofNat m.month := by
    rw [← UInt32.toNat_inj, UInt32.toNat_add, hmon, UInt32.toNat_ofNat']
    change (m.month - 1 + 1) % 2 ^ 32 = _
    rw [Nat.sub_add_cancel hm1]
  -- months are counted from 0 in the table and by the clock, and from 1 in a date
  have hguess : (if UInt32.ofNat (m.month - 1) > (clockAt mktime now).thisMonth
      then (clockAt mktime now).thisYear - 1 else (clockAt mktime now).thisYear) =
        .ofNat (guessYear now m.month) := by
    change (if UInt32.ofNat (m.month - 1) > getThisMonth now then getThisYear now - 1
      else getThisYear now) = _
    have hlt := (getThisYear now).toNat_lt
    have hiff : UInt32.ofNat (m.month - 1) > getThisMonth now ↔
        (getThisMonth now).toNat < m.month - 1 := by
      rw [gt_iff_lt, UInt32.lt_iff_toNat_lt, hmon]
    have hone : (1 : UInt32) ≤ getThisYear now := UInt32.le_iff_toNat_le.mpr hnow
    rw [← UInt32.toNat_inj, UInt32.toNat_ofNat', guessYear]
    by_cases hgt : (getThisMonth now).toNat < m.month - 1
    · rw [if_pos (hiff.mpr hgt), if_pos hgt, UInt32.toNat_sub_of_le _ _ hone]
      change _ - 1 = _
      omega
    · rw [if_neg (fun h => hgt (hiff.mp h)), if_neg hgt]
      omega
  rw [hcol.month, hcol.day, hcol.year, lsTime, getMonth_monthName hm1 hm12]
  dsimp only
  rw [if_neg (by simp), htake, hdrop, hmonth, hguess]
  simp only [strtouint, decVal_dec_self, decVal_fmtPrec]
  rfl

/-- Numbers that are no more than 64 bits apart stay different. -/
theorem ofInt_ne {a b : ℤ} (hlt : a < b) (hgap : b - a < 2 ^ 64) :
    UInt64.ofInt a ≠ .ofInt b := by
  intro h
  have hnat := congrArg UInt64.toNat h
  rw [UInt64.ofInt, UInt64.ofInt, UInt64.toNat_ofNat', UInt64.toNat_ofNat'] at hnat
  omega

/-- The date at the start of the minute, maybe in another year. -/
def minuteOf (m : Civil) (year : ℤ) : Civil := { m with year := year, sec := 0 }

theorem valid_minuteOf {m : Civil} (hm : m.Valid) {year : ℤ}
    (hday : (m.day : ℤ) ≤ monthLength year m.month) : (minuteOf m year).Valid :=
  ⟨hm.month_pos, hm.month_le, hm.day_pos, hday, hm.hour_lt, hm.min_lt,
    Nat.succ_pos 59⟩

theorem unixTime_minuteOf {m : Civil} (hm : m.Valid) :
    (minuteOf m m.year).unixTime = m.unixTime - m.unixTime % 60 := by
  have hsec := hm.sec_lt
  change m.dayNumber * 86400 + (m.hour * 3600 + m.min * 60 + 0 : ℕ) = _
  rw [Civil.unixTime]
  omega

/-- A year earlier. -/
theorem minuteOf_lastYear {m : Civil} (hm : m.Valid)
    (hday : (m.day : ℤ) ≤ monthLength (m.year - 1) m.month) :
    (minuteOf m (m.year - 1)).unixTime < (minuteOf m m.year).unixTime ∧
      (minuteOf m m.year).unixTime - (minuteOf m (m.year - 1)).unixTime < 732 * 86400 := by
  have hmem := (valid_minuteOf hm hday).ofYear_mem
  have hmem' := (valid_minuteOf hm hm.day_le).ofYear_mem
  have hsucc := daysToYear_succ (m.year - 1)
  have hlen := yearLength_le (m.year - 1)
  have hlen' := yearLength_le m.year
  rw [sub_add_cancel] at hsucc
  rw [Civil.unixTime_eq, Civil.unixTime_eq]
  simp only [minuteOf] at hmem hmem' ⊢
  omega

/-- **Recent times**: what `do_ls` takes for the time of a file of the last six months is its time
without the seconds, but for the files of the first hours of a month. -/
theorem recent_time_iff {mktime : UInt32 → UInt32 → UInt32 → UInt32 → UInt32 → UInt64}
    (hmk : KernelMktime mktime) {n m : Civil} (hn : n.Valid) (hm : m.Valid) {now : ℕ} {mtime : ℤ}
    (hnow : n.unixTime = now) (hmtime : m.unixTime = mtime) (hlo : 15724800 ≤ now)
    (hhi : now ≤ 4102444799) (hrecent : now - 15778476 < mtime) (hpast : mtime ≤ now)
    (fmask : UInt16) (s : ℕ → Byte) {col : ℕ → Bytes} (hcol : Prints col m) :
    (lsFattr fmask (clockAt mktime now) s col).time = .ofInt (mtime - mtime % 60) ↔
      ¬ Confused n m := by
  subst hmtime
  have hyear : 1969 ≤ m.year ∧ m.year < 2100 :=
    hm.year_mem (by rw [show daysToYear 1969 = -365 by decide]; omega)
      (by rw [show daysToYear 2100 = 47482 by decide]; omega)
  have hthis := toNat_getThisYear now (by omega)
  obtain ⟨hwrong, hright⟩ := guessYear_eq hn hm hnow hlo hhi hrecent hpast
  change lsTime (clockAt mktime now) (col DIR_MONTH) (col DIR_DAY) (col DIR_YEAR) = _ ↔ _
  rw [lsTime_prints hm hcol (by omega), ← unixTime_minuteOf hm]
  -- the kernel makes a time of the year that has been guessed
  have hvalue : ∀ year : ℤ, (guessYear now m.month : ℤ) = year → 0 ≤ year → year < 2 ^ 32 →
      (m.day : ℤ) ≤ monthLength year m.month →
      mktime (.ofNat (guessYear now m.month)) (.ofNat m.month) (.ofNat m.day) (.ofNat m.hour)
        (.ofNat m.min) = .ofInt (minuteOf m year).unixTime := by
    intro year hguess h0 hlt hday
    have hcall := hmk (minuteOf m year) (valid_minuteOf hm hday) rfl h0 hlt
    have hnat : (minuteOf m year).year.toNat = guessYear now m.month := by
      change year.toNat = _
      omega
    rwa [hnat] at hcall
  constructor
  · -- a wrong year is another time
    intro heq hconf
    have hguess := hwrong hconf
    have hfirst : m.day = 1 := by
      have hmd := hm.day_pos
      have hlag := clockLag_mem n.year
      have hofMonth : m.ofMonth ≤ n.ofMonth := by
        have hle := hpast.trans hnow.ge
        rw [m.unixTime_eq, n.unixTime_eq, Civil.ofYear, Civil.ofYear, hconf.1, hconf.2.1] at hle
        omega
      have hlt := hconf.2.2
      have hdef : m.ofMonth = (m.day - 1) * 86400 + (m.hour * 3600 + m.min * 60 + m.sec : ℕ) := rfl
      omega
    have hday : (m.day : ℤ) ≤ monthLength (m.year - 1) m.month := by
      have := monthLength_pos (m.year - 1) m.month
      omega
    rw [hvalue _ hguess (by omega) (by omega) hday] at heq
    obtain ⟨hlt, hgt⟩ := minuteOf_lastYear hm hday
    exact ofInt_ne hlt (by omega) heq
  · intro hconf
    exact hvalue _ (hright hconf) (by omega) (by omega) hm.day_le

/-- `mktime` of the kernel, by the calendar. -/
def civilMktime (year mon day hour min : UInt32) : UInt64 :=
  .ofInt (Civil.mk year.toNat mon.toNat day.toNat hour.toNat min.toNat 0).unixTime

theorem kernelMktime_civilMktime : KernelMktime civilMktime := by
  intro c hc hsec h0 hlt
  have hmonth := hc.month_le
  have hday := hc.day_le.trans (monthLength_le _ _)
  have hhour := hc.hour_lt
  have hmin := hc.min_lt
  have hyear : ((c.year.toNat % 2 ^ 32 : ℕ) : ℤ) = c.year := by omega
  simp only [civilMktime, UInt32.toNat_ofNat', hyear,
    Nat.mod_eq_of_lt (show c.month < 2 ^ 32 by omega),
    Nat.mod_eq_of_lt (show c.day < 2 ^ 32 by omega),
    Nat.mod_eq_of_lt (show c.hour < 2 ^ 32 by omega),
    Nat.mod_eq_of_lt (show c.min < 2 ^ 32 by omega)]
  rw [← hsec]

/-- The columns of a line with this time. -/
def timeCols (m : Civil) (i : ℕ) : Bytes :=
  if i = DIR_MONTH then monthName m.month
  else if i = DIR_DAY then dec m.day
  else if i = DIR_YEAR then fmtPrec 2 m.hour ++ 58 :: fmtPrec 2 m.min
  else []

theorem prints_timeCols (m : Civil) : Prints (timeCols m) m := ⟨rfl, rfl, rfl⟩

/-- A file of the last November, in March. -/
theorem recent_time_november :
    (lsFattr 0xFFFF (clockAt civilMktime 1047729607) (fun _ => 45)
      (timeCols ⟨2002, 11, 30, 23, 59, 59⟩)).time = .ofInt (1038700799 - 1038700799 % 60) ↔
        ¬ Confused ⟨2003, 3, 15, 12, 0, 7⟩ ⟨2002, 11, 30, 23, 59, 59⟩ :=
  recent_time_iff kernelMktime_civilMktime
    ⟨by decide, by decide, by decide, by decide, by decide, by decide, by decide⟩
    ⟨by decide, by decide, by decide, by decide, by decide, by decide, by decide⟩
    (by decide) (by decide) (by decide) (by decide) (by decide) (by decide) _ _ (prints_timeCols _)

/-- A file of half an hour ago, at one o'clock on 1 March 2012: it is taken for one of 2011. -/
theorem not_recent_time_march :
    (lsFattr 0xFFFF (clockAt civilMktime 1330563600) (fun _ => 45)
      (timeCols ⟨2012, 3, 1, 0, 30, 0⟩)).time = .ofInt 1298939400 ∧
    (Civil.mk 2012 3 1 0 30 0).unixTime = 1330561800 ∧
    UInt64.ofInt 1298939400 ≠ .ofInt (1330561800 - 1330561800 % 60) := by
  decide

end Shfs
