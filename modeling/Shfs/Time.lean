import Shfs.Getline

/-!
# Times on the wire

`strctime` of shell.c: the UTC date and time of a `tv_sec` as the text `touch -t` takes,
`CCYYMMDDhhmm.ss`. C's signed division rounds towards zero, so the arithmetic is written with
`Int.tdiv` and `Int.tmod`; a negative time prints negative fields.

`bareWord_strctime`: the text is one bare word whatever the time is.
-/

namespace Shfs

open Lib

/-- `__isleap` -/
def isleap (year : ℤ) : Bool :=
  year.tmod 4 == 0 && (year.tmod 100 != 0 || year.tmod 400 == 0)

/-- `__spm`: days before each month of a year that is not a leap year. -/
def spm (month : ℕ) : ℤ :=
  [0, 31, 59, 90, 120, 151, 181, 212, 243, 273, 304, 334].getD month 0

/-- The macro `SPD`, seconds per day. -/
def SPD : ℤ := 24 * 60 * 60

/-- `for (i = 1970; ; i++)`: take whole years off the days `work`. Every turn that does not break
takes at least 365 of them, so `work / 365 + 1` turns are enough. -/
def strctimeYear : ℕ → ℤ → ℤ → ℤ × ℤ
  | 0, i, work => (i, work)
  | fuel + 1, i, work =>
    let k : ℤ := if isleap i then 366 else 365
    if work ≥ k then strctimeYear fuel (i + 1) (work - k) else (i, work)

/-- `for (i = 11; i && (__spm[i] > work); i--)` -/
def strctimeMonth (work : ℤ) : ℕ → ℕ
  | 0 => 0
  | i + 1 => if spm (i + 1) > work then strctimeMonth work i else i + 1

/-- `%.Nd`: at least `prec` digits. -/
def fmtPrec (prec : ℕ) (x : ℤ) : Bytes :=
  (if x < 0 then ascii "-" else []) ++
    List.replicate (prec - (dec x.natAbs).length) (digit 0) ++ dec x.natAbs

/-- `strctime` -/
def strctime (tvSec : ℤ) : Bytes :=
  let work := tvSec.tmod SPD
  let sec := work.tmod 60
  let work := work.tdiv 60
  let min := work.tmod 60
  let hour := work.tdiv 60
  let work := tvSec.tdiv SPD
  let (year, work) := strctimeYear (work.toNat / 365 + 1) 1970 work
  let leap := isleap year && work > 58
  let day : ℤ := if leap && work == 59 then 2 else 1
  let work := if leap then work - 1 else work
  let month := strctimeMonth work 11
  let day := day + (work - spm month)
  fmtPrec 4 year ++ fmtPrec 2 (month + 1) ++ fmtPrec 2 day ++ fmtPrec 2 hour ++ fmtPrec 2 min ++
    ascii "." ++ fmtPrec 2 sec

theorem bareWord_fmtPrec (prec : ℕ) (x : ℤ) : BareWord (fmtPrec prec x) := by
  refine ⟨by simp [fmtPrec, numeral_ne_nil], fun c hc => ?_⟩
  rcases List.mem_append.mp hc with hc | hc
  · rcases List.mem_append.mp hc with hc | hc
    · split at hc
      · rw [List.mem_singleton.mp hc]
        decide
      · cases hc
    · rw [List.eq_of_mem_replicate hc]
      decide
  · exact (bareWord_dec _).2 c hc

/-- The text of a time is one word. -/
theorem bareWord_strctime (tvSec : ℤ) : BareWord (strctime tvSec) :=
  ((((((bareWord_fmtPrec _ _).append (bareWord_fmtPrec _ _)).append (bareWord_fmtPrec _ _)).append
    (bareWord_fmtPrec _ _)).append (bareWord_fmtPrec _ _)).append (by decide)).append
    (bareWord_fmtPrec _ _)

/-- The last second of a leap day. -/
example : strctime 951868799 = ascii "200002292359.59" := by decide

end Shfs
