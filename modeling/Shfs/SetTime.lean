import Shfs.Lib.Calendar
import Shfs.Time

/-!
# `strctime` and `s_settime`

The text of a time on its way to the server and back to a number: `strctime` (shell.c) prints the
date, `s_settime` (perl-code.in) takes the text apart with a pattern and gives the fields to
`mktime` of the POSIX module, which is a parameter here. `strctime_eq_stamp`: the text is the date
of the second. `settime_strctime`: the server gets the second back.
-/

namespace Shfs

open Lib

/-! ## `s_settime` -/

/-- What `s_settime` matches in the text, as the numbers of fields of digits; the pattern is
`(.{4})(..)(..)(..)(..)\.(..)`. -/
structure Stamp : Type where
  year : ℕ
  month : ℕ
  day : ℕ
  hour : ℕ
  min : ℕ
  sec : ℕ
  deriving DecidableEq, Repr

/-- A match of the pattern here; `.` is any octet but a line feed. -/
def stampHere (s : Bytes) : Option Stamp :=
  if 15 ≤ s.length ∧ nl ∉ s.take 15 ∧ (s.drop 12).head? = some 46 then
    some
      { year := decVal (s.take 4)
        month := decVal ((s.drop 4).take 2)
        day := decVal ((s.drop 6).take 2)
        hour := decVal ((s.drop 8).take 2)
        min := decVal ((s.drop 10).take 2)
        sec := decVal ((s.drop 13).take 2) }
  else none

/-- The first match of the pattern. -/
def matchStamp : Bytes → Option Stamp
  | [] => none
  | b :: bs => (stampHere (b :: bs)).or (matchStamp bs)

/-- `POSIX::mktime`: second, minute, hour, day of the month, month from 0 on, year since 1900. -/
abbrev Mktime : Type := ℤ → ℤ → ℤ → ℤ → ℤ → ℤ → ℤ

/-- In GMT it gives the Unix time of a date. -/
def Mktime.IsGmt (mktime : Mktime) : Prop :=
  ∀ c : Civil, c.Valid →
    mktime c.sec c.min c.hour c.day (c.month - 1) (c.year - 1900) = c.unixTime

/-- The `$sec` of `s_settime`; nothing if the text does not match. -/
def settimeSec (mktime : Mktime) (time : Bytes) : Option ℤ :=
  (matchStamp time).map fun s => mktime s.sec s.min s.hour s.day (s.month - 1) (s.year - 1900)

/-! ## The text of a date -/

/-- `CCYYMMDDhhmm.ss` -/
def stampOf (c : Civil) : Bytes :=
  fmtPrec 4 c.year ++ fmtPrec 2 c.month ++ fmtPrec 2 c.day ++ fmtPrec 2 c.hour ++ fmtPrec 2 c.min ++
    ascii "." ++ fmtPrec 2 c.sec

/-- A number that fits is printed with as many digits as are asked for. -/
theorem length_fmtPrec {p x : ℕ} (hp : 0 < p) (h : x < 10 ^ p) :
    (fmtPrec p x).length = p := by
  have hlen := length_dec_le hp h
  have hneg : ¬ (x : ℤ) < 0 := by omega
  rw [fmtPrec, if_neg hneg, List.nil_append, List.length_append, List.length_replicate,
    Int.natAbs_natCast]
  omega

theorem isDigit_of_mem_fmtPrec {p x : ℕ} {c : Byte} (h : c ∈ fmtPrec p x) :
    isDigit c = true := by
  have hneg : ¬ (x : ℤ) < 0 := by omega
  rw [fmtPrec, if_neg hneg, List.nil_append, List.mem_append] at h
  rcases h with h | h
  · rw [List.eq_of_mem_replicate h]
    rfl
  · exact isDigit_of_mem_dec h

/-- The zeros in front do not count. -/
theorem decVal_fmtPrec (prec x : ℕ) : decVal (fmtPrec prec x) = x := by
  have hneg : ¬ (x : ℤ) < 0 := by omega
  rw [fmtPrec, if_neg hneg, List.nil_append, Int.natAbs_natCast]
  induction prec - (dec x).length with
  | zero => exact decVal_dec_self x
  | succ k ih => exact ih

/-- A number that is printed with two digits. -/
theorem fmtPrec_two {x : ℕ} (h : x < 100) :
    ∃ a b, fmtPrec 2 x = [a, b] ∧ isDigit a = true ∧ isDigit b = true ∧ decVal [a, b] = x := by
  obtain ⟨a, b, hab⟩ := List.length_eq_two.mp (length_fmtPrec (p := 2) (by omega) h)
  have hdigit : ∀ c ∈ [a, b], isDigit c = true := fun c hc =>
    isDigit_of_mem_fmtPrec (p := 2) (x := x) (hab ▸ hc)
  exact ⟨a, b, hab, hdigit a (by simp), hdigit b (by simp), hab ▸ decVal_fmtPrec 2 x⟩

/-- A year that is printed with four digits. -/
theorem fmtPrec_four {x : ℕ} (h : x < 10000) :
    ∃ a b c d, fmtPrec 4 x = [a, b, c, d] ∧ (∀ e ∈ [a, b, c, d], isDigit e = true) ∧
      decVal [a, b, c, d] = x := by
  have hlen := length_fmtPrec (p := 4) (by omega) h
  obtain ⟨a, b, c, d, habcd⟩ : ∃ a b c d, fmtPrec 4 x = [a, b, c, d] := by
    match fmtPrec 4 x, hlen with
    | [a, b, c, d], _ => exact ⟨a, b, c, d, rfl⟩
  exact ⟨a, b, c, d, habcd, fun e he => isDigit_of_mem_fmtPrec (p := 4) (x := x) (habcd ▸ he),
    habcd ▸ decVal_fmtPrec 4 x⟩

/-- **The pattern takes the text of a date apart** into the numbers that it was printed from, for
every year of four digits. -/
theorem matchStamp_stampOf {c : Civil} (hc : c.Valid) {year : ℕ} (hyear : c.year = year)
    (h9999 : year < 10000) :
    matchStamp (stampOf c) = some ⟨year, c.month, c.day, c.hour, c.min, c.sec⟩ := by
  have hday := hc.day_le.trans (monthLength_le _ _)
  have hmonth := hc.month_le
  have hhour := hc.hour_lt
  have hmin := hc.min_lt
  have hsec := hc.sec_lt
  obtain ⟨y₁, y₂, y₃, y₄, hy, hyd, hyv⟩ := fmtPrec_four h9999
  obtain ⟨o₁, o₂, ho, hod₁, hod₂, hov⟩ := fmtPrec_two (x := c.month) (by omega)
  obtain ⟨d₁, d₂, hd, hdd₁, hdd₂, hdv⟩ := fmtPrec_two (x := c.day) (by omega)
  obtain ⟨h₁, h₂, hh, hhd₁, hhd₂, hhv⟩ := fmtPrec_two (x := c.hour) (by omega)
  obtain ⟨m₁, m₂, hm, hmd₁, hmd₂, hmv⟩ := fmtPrec_two (x := c.min) (by omega)
  obtain ⟨s₁, s₂, hs, hsd₁, hsd₂, hsv⟩ := fmtPrec_two (x := c.sec) (by omega)
  have htext : stampOf c =
      [y₁, y₂, y₃, y₄, o₁, o₂, d₁, d₂, h₁, h₂, m₁, m₂, 46, s₁, s₂] := by
    rw [stampOf, hyear, hy, ho, hd, hh, hm, hs]
    rfl
  have hnl : nl ∉ [y₁, y₂, y₃, y₄, o₁, o₂, d₁, d₂, h₁, h₂, m₁, m₂, 46, s₁, s₂] := by
    intro h
    have hall : ∀ e ∈ [y₁, y₂, y₃, y₄, o₁, o₂, d₁, d₂, h₁, h₂, m₁, m₂, 46, s₁, s₂],
        isDigit e = true ∨ e = 46 := by
      simp_all
    rcases hall nl h with h | h
    · exact absurd h (by decide)
    · exact absurd h (by decide)
  have hhere : stampHere (stampOf c) = some ⟨year, c.month, c.day, c.hour, c.min, c.sec⟩ := by
    rw [stampHere, htext, if_pos ⟨le_rfl, hnl, rfl⟩]
    change some (Stamp.mk (decVal [y₁, y₂, y₃, y₄]) (decVal [o₁, o₂]) (decVal [d₁, d₂])
      (decVal [h₁, h₂]) (decVal [m₁, m₂]) (decVal [s₁, s₂])) = _
    rw [hyv, hov, hdv, hhv, hmv, hsv]
  rw [htext, matchStamp, ← htext, hhere]
  rfl

/-! ## The date of a second -/

theorem isleap_iff {y : ℤ} (h : 0 ≤ y) : isleap y = true ↔ Leap y := by
  simp only [isleap, Leap, Int.tmod_eq_emod_of_nonneg h, Bool.and_eq_true, Bool.or_eq_true,
    beq_iff_eq, bne_iff_ne]

/-- The loop over the years ends in the year of the day. -/
theorem strctimeYear_spec (fuel : ℕ) (i work : ℤ) (hi : 0 ≤ i) (h0 : 0 ≤ work)
    (hfuel : work < 365 * fuel) :
    0 ≤ (strctimeYear fuel i work).1 ∧
      daysToYear (strctimeYear fuel i work).1 + (strctimeYear fuel i work).2 =
        daysToYear i + work ∧
      0 ≤ (strctimeYear fuel i work).2 ∧
      (strctimeYear fuel i work).2 < yearLength (strctimeYear fuel i work).1 := by
  induction fuel generalizing i work with
  | zero => omega
  | succ fuel ih =>
    have hk : (if isleap i then 366 else 365 : ℤ) = yearLength i := by
      rw [yearLength]
      simp only [isleap_iff hi]
    simp only [strctimeYear, hk]
    split
    · next hge =>
      have hlen := yearLength_pos i
      have hsucc := daysToYear_succ i
      obtain ⟨hy, hsum, hrest⟩ := ih (i + 1) (work - yearLength i) (by omega)
        (by omega) (by push_cast at hfuel; omega)
      exact ⟨hy, by omega, hrest⟩
    · next hlt => exact ⟨hi, rfl, h0, not_le.mp hlt⟩

/-- The loop over the months ends in the last one that starts no later. -/
theorem strctimeMonth_spec {work : ℤ} (h0 : 0 ≤ work) (n : ℕ) :
    strctimeMonth work n ≤ n ∧ spm (strctimeMonth work n) ≤ work ∧
      ∀ j, strctimeMonth work n < j → j ≤ n → work < spm j := by
  induction n with
  | zero => exact ⟨le_rfl, h0, fun j hj hle => absurd hle (by omega)⟩
  | succ n ih =>
    rw [strctimeMonth]
    split
    · next hgt =>
      obtain ⟨hle, hspm, hnext⟩ := ih
      refine ⟨hle.trans (Nat.le_succ n), hspm, fun j hj hjn => ?_⟩
      rcases Nat.lt_or_ge n j with hlt | hge
      · rwa [show j = n + 1 by omega]
      · exact hnext j hj hge
    · next hle => exact ⟨le_rfl, not_lt.mp hle, fun j hj hjn => absurd hjn (by omega)⟩

/-- The end of a month in the table. -/
def spmEnd (i : ℕ) : ℤ := if i = 11 then 365 else spm (i + 1)

theorem daysToMonth_spm (y : ℤ) {i : ℕ} (hi : i ≤ 11) :
    daysToMonth y (i + 1) = spm i + if 2 ≤ i ∧ Leap y then 1 else 0 := by
  rw [daysToMonth_eq y (by omega) (by omega)]
  interval_cases i <;> simp [spm]

theorem monthLength_spm (y : ℤ) {i : ℕ} (hi : i ≤ 11) :
    monthLength y (i + 1) = spmEnd i - spm i + if i = 1 ∧ Leap y then 1 else 0 := by
  interval_cases i <;> by_cases hy : Leap y <;> simp [monthLength, spmEnd, spm, hy]

theorem spm_two_le {i : ℕ} (hi : i ≤ 11) (h2 : 2 ≤ i) : 59 ≤ spm i := by
  interval_cases i <;> decide

theorem spmEnd_le {i : ℕ} (h2 : i < 2) : spmEnd i ≤ 59 := by
  interval_cases i <;> decide

/-- The month and the day of the month of a day of the year, as `strctime` works them out. -/
def strctimeDay (year work : ℤ) : ℕ × ℤ :=
  let leap := isleap year && work > 58
  let day : ℤ := if leap && work == 59 then 2 else 1
  let work := if leap then work - 1 else work
  (strctimeMonth work 11, day + (work - spm (strctimeMonth work 11)))

/-- **Month and day**: what is left behind the years is split into a month and a day of it that
there is, the leap day included, and the two put together give it back. -/
theorem strctimeDay_spec {y work : ℤ} (hy : 0 ≤ y) (h0 : 0 ≤ work) (hlt : work < yearLength y) :
    (strctimeDay y work).1 ≤ 11 ∧ 1 ≤ (strctimeDay y work).2 ∧
      (strctimeDay y work).2 ≤ monthLength y ((strctimeDay y work).1 + 1) ∧
      daysToMonth y ((strctimeDay y work).1 + 1) + ((strctimeDay y work).2 - 1) = work := by
  -- the table of months is that of a common year
  have hmonth : ∀ w, 0 ≤ w → w < 365 → strctimeMonth w 11 ≤ 11 ∧ spm (strctimeMonth w 11) ≤ w ∧
      w < spmEnd (strctimeMonth w 11) := by
    intro w hw0 hw
    obtain ⟨hle, hspm, hnext⟩ := strctimeMonth_spec hw0 11
    refine ⟨hle, hspm, ?_⟩
    rw [spmEnd]
    split
    · exact hw
    · exact hnext _ (Nat.lt_succ_self _) (by omega)
  by_cases hleap : isleap y = true ∧ 58 < work
  · -- a leap year, from 29 February on
    have hy' := (isleap_iff hy).mp hleap.1
    rw [yearLength, if_pos hy'] at hlt
    obtain ⟨hle, hspm, hend⟩ := hmonth (work - 1) (by omega) (by omega)
    have hday : strctimeDay y work = (strctimeMonth (work - 1) 11,
        (if work = 59 then 2 else 1) + (work - 1 - spm (strctimeMonth (work - 1) 11))) := by
      simp [strctimeDay, hleap.1, hleap.2]
    rw [hday]
    generalize strctimeMonth (work - 1) 11 = i at hle hspm hend
    dsimp only
    rw [daysToMonth_spm y hle, monthLength_spm y hle]
    by_cases h59 : work = 59
    · have hi : i = 1 := by
        have hi2 : i < 2 := by
          by_contra h2
          have := spm_two_le hle (not_lt.mp h2)
          omega
        interval_cases i
        · exact absurd hend (by rw [h59]; decide)
        · rfl
      subst hi h59
      simp [hy', spm, spmEnd]
    · have hi : 2 ≤ i := by
        by_contra h2
        have := spmEnd_le (not_le.mp h2)
        omega
      simp only [h59, if_false, hi, hy', and_self, if_true, show ¬ i = 1 by omega, false_and]
      omega
  · -- otherwise the table is right
    have hw : work < 365 := by
      rw [yearLength] at hlt
      split at hlt
      · next hy' =>
        have := not_and.mp hleap ((isleap_iff hy).mpr hy')
        omega
      · exact hlt
    obtain ⟨hle, hspm, hend⟩ := hmonth work h0 hw
    have hday : strctimeDay y work =
        (strctimeMonth work 11, 1 + (work - spm (strctimeMonth work 11))) := by
      have hfalse : (isleap y && decide (work > 58)) = false := by simpa using hleap
      simp only [strctimeDay, hfalse, Bool.false_and, Bool.false_eq_true, if_false]
    rw [hday]
    generalize strctimeMonth work 11 = i at hle hspm hend
    dsimp only
    have hno : ¬ (2 ≤ i ∧ Leap y) := by
      rintro ⟨h2, hy'⟩
      have := spm_two_le hle h2
      have := not_and.mp hleap ((isleap_iff hy).mpr hy')
      omega
    rw [daysToMonth_spm y hle, monthLength_spm y hle, if_neg hno]
    refine ⟨hle, by omega, ?_, by omega⟩
    split <;> omega

/-- `strctime` of a second that is not negative, by its fields. -/
theorem strctime_fields {t : ℤ} (ht : 0 ≤ t) :
    strctime t =
      let (year, work) := strctimeYear ((t / 86400).toNat / 365 + 1) 1970 (t / 86400)
      let (month, day) := strctimeDay year work
      fmtPrec 4 year ++ fmtPrec 2 (month + 1) ++ fmtPrec 2 day ++
        fmtPrec 2 (t % 86400 / 3600) ++ fmtPrec 2 (t % 86400 / 60 % 60) ++ ascii "." ++
        fmtPrec 2 (t % 86400 % 60) := by
  have hS : SPD = 86400 := rfl
  have hm : 0 ≤ t % 86400 := Int.emod_nonneg _ (by decide)
  have hm60 : 0 ≤ t % 86400 / 60 := Int.ediv_nonneg hm (by decide)
  have h3600 : t % 86400 / 60 / 60 = t % 86400 / 3600 := by omega
  simp only [strctime, hS, Int.tmod_eq_emod_of_nonneg ht, Int.tdiv_eq_ediv_of_nonneg ht,
    Int.tmod_eq_emod_of_nonneg hm, Int.tdiv_eq_ediv_of_nonneg hm, Int.tmod_eq_emod_of_nonneg hm60,
    Int.tdiv_eq_ediv_of_nonneg hm60, h3600]
  rfl

/-- **`strctime` prints the date of the second**: there is a date with these seconds, and the text
is its stamp. -/
theorem strctime_eq_stampOf {t : ℤ} (ht : 0 ≤ t) :
    ∃ c : Civil, c.Valid ∧ c.unixTime = t ∧ strctime t = stampOf c := by
  have hd : 0 ≤ t / 86400 := Int.ediv_nonneg ht (by decide)
  have hs : 0 ≤ t % 86400 ∧ t % 86400 < 86400 := by omega
  have hyear := strctimeYear_spec ((t / 86400).toNat / 365 + 1) 1970 (t / 86400)
    (by decide) hd (by omega)
  have htext := strctime_fields ht
  rcases hp : strctimeYear ((t / 86400).toNat / 365 + 1) 1970 (t / 86400) with ⟨y, w⟩
  rw [hp] at hyear htext
  dsimp only at hyear
  obtain ⟨hy, hsum, hw, hlt⟩ := hyear
  have hday := strctimeDay_spec hy hw hlt
  dsimp only at htext
  rcases hq : strctimeDay y w with ⟨m, d⟩
  rw [hq] at hday htext
  dsimp only at hday
  obtain ⟨hm, hd1, hdle, hdsum⟩ := hday
  rw [daysToYear_epoch] at hsum
  refine ⟨⟨y, m + 1, d.toNat, (t % 86400 / 3600).toNat, (t % 86400 / 60 % 60).toNat,
    (t % 86400 % 60).toNat⟩, ⟨?_, ?_, ?_, ?_, ?_, ?_, ?_⟩, ?_, ?_⟩
  · exact Nat.le_add_left 1 m
  · exact Nat.succ_le_succ hm
  · change 1 ≤ d.toNat
    omega
  · change ((d.toNat : ℕ) : ℤ) ≤ monthLength y (m + 1)
    omega
  · change (t % 86400 / 3600).toNat < 24
    omega
  · change (t % 86400 / 60 % 60).toNat < 60
    omega
  · change (t % 86400 % 60).toNat < 60
    omega
  · simp only [Civil.unixTime, Civil.dayNumber]
    omega
  · have hcast : ∀ {x : ℤ}, 0 ≤ x → ((x.toNat : ℕ) : ℤ) = x := Int.toNat_of_nonneg
    rw [htext, stampOf]
    dsimp only
    rw [hcast (by omega), hcast (by omega), hcast (by omega), hcast (by omega)]
    rfl

/-- **The server gets the second back**, and the text on the way is its date. `strctime` counts the
years and the months of the second off and prints what is left, and `s_settime` takes the text apart
again and has `mktime` put it together, so the leap days have to agree on both sides. -/
theorem settime_strctime {mktime : Mktime} (hmk : mktime.IsGmt) {tvSec : ℤ} (h0 : 0 ≤ tvSec)
    (hle : tvSec ≤ 253402300799) :
    settimeSec mktime (strctime tvSec) = some tvSec ∧
      ∃! c : Civil, c.Valid ∧ c.unixTime = tvSec ∧ strctime tvSec = stampOf c := by
  obtain ⟨c, hc, htime, htext⟩ := strctime_eq_stampOf h0
  refine ⟨?_, c, ⟨hc, htime, htext⟩, fun c' h' =>
    Civil.unixTime_injective h'.1 hc (h'.2.1.trans htime.symm)⟩
  obtain ⟨hlo, hhi⟩ := hc.year_mem (y := 1970) (z := 10000)
    (by rw [htime, show daysToYear 1970 = 0 by decide]; omega)
    (by rw [htime, show daysToYear 10000 = 2932897 by decide]; omega)
  have hyear : c.year = c.year.toNat := by omega
  rw [htext, settimeSec, matchStamp_stampOf hc hyear (by omega), Option.map_some]
  have hsec := hmk c hc
  rw [hyear, htime] at hsec
  exact congrArg some hsec

/-- `mktime` of GMT, on dates that there are. -/
def gmtMktime : Mktime := fun sec min hour day mon year =>
  (Civil.mk (year + 1900) (mon + 1).toNat day.toNat hour.toNat min.toNat sec.toNat).unixTime

theorem isGmt_gmtMktime : gmtMktime.IsGmt := by
  intro c _
  simp only [gmtMktime, sub_add_cancel, Int.toNat_natCast]

/-- The last second of 29 February 2000. -/
theorem settime_strctime_leapDay :
    settimeSec gmtMktime (strctime 951868799) = some 951868799 ∧
      ∃! c : Civil, c.Valid ∧ c.unixTime = 951868799 ∧ strctime 951868799 = stampOf c :=
  settime_strctime isGmt_gmtMktime (by decide) (by decide)

end Shfs
