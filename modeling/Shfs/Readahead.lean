import Shfs.FileCache

/-!
# How much a refill reads

`fcache_file_read` asks for the octets it needs from the start of their page on, at least as many as
it has just used up, rounded up to pages and cut to the size of the buffer. The server can only
read whole multiples of the length, so the length is made to divide the offset (`gcdLoop`).

`readahead_spec` says what comes out of this. `OneRound` is the question whether an empty buffer
has everything that is needed after one refill; if not, the refill ends in front of it
(`readahead_lt`).
-/

namespace Shfs

open Lib

/-! ## Pages -/

theorem pageBase_le (n : ℕ) : pageBase n ≤ n := Nat.div_mul_le_self n PAGE_SIZE

theorem dvd_pageBase (n : ℕ) : PAGE_SIZE ∣ pageBase n := Dvd.intro_left _ rfl

theorem sub_pageBase (n : ℕ) : n - pageBase n = n % PAGE_SIZE := by
  have := Nat.div_add_mod' n PAGE_SIZE
  unfold pageBase
  omega

theorem pageBase_of_dvd {n : ℕ} (h : PAGE_SIZE ∣ n) : pageBase n = n := Nat.div_mul_cancel h

theorem dvd_pageUp (n : ℕ) : PAGE_SIZE ∣ pageUp n := dvd_pageBase _

theorem le_pageUp (n : ℕ) : n ≤ pageUp n := by
  unfold pageUp pageBase PAGE_SIZE
  omega

theorem pageUp_lt (n : ℕ) : pageUp n < n + PAGE_SIZE := by
  unfold pageUp pageBase PAGE_SIZE
  omega

theorem gcdLoop_eq (y z : ℕ) : gcdLoop y z = Nat.gcd y z := by
  fun_induction gcdLoop y z with
  | case1 y z h hlt =>
    obtain rfl : z = 0 := by omega
    simp
  | case2 y z h hlt =>
    obtain rfl : y = 0 := by omega
    simp
  | case3 y z h hlt ih => rw [ih, Nat.gcd_comm y, Nat.gcd_rec z y]
  | case4 y z h hlt ih => rw [ih, Nat.gcd_comm, ← Nat.gcd_rec]

/-- Is one refill of a buffer that is empty enough for `count` octets from `offset` on? -/
def OneRound (size offset count : ℕ) : Prop :=
  pageUp (offset % PAGE_SIZE + count) ≤ size ∧
    pageUp (offset % PAGE_SIZE + count) ∣ pageBase offset

instance (size offset count : ℕ) : Decidable (OneRound size offset count) :=
  inferInstanceAs (Decidable (_ ∧ _))

section Readahead

variable {size : ℕ} (hsize : PAGE_SIZE ∣ size) (hpos : 0 < size)

include hsize hpos

/-- The length before it is made to divide the offset. -/
theorem capped_ahead {n : ℕ} (hn : n ≠ 0) :
    0 < min (pageUp n) size ∧ PAGE_SIZE ∣ min (pageUp n) size := by
  have h := le_pageUp n
  refine ⟨by omega, ?_⟩
  rcases min_choice (pageUp n) size with h | h <;> rw [h]
  · exact dvd_pageUp n
  · exact hsize

omit hsize hpos in
/-- `readahead` without its assignments. -/
theorem readahead_eq (offset count cached : ℕ) :
    readahead size offset count cached =
      let ahead := min (pageUp (max cached (offset % PAGE_SIZE + count))) size
      if ahead ∣ pageBase offset then ahead else Nat.gcd (pageBase offset) ahead := by
  have hmax : (if cached < offset % PAGE_SIZE + count then offset % PAGE_SIZE + count else cached) =
      max cached (offset % PAGE_SIZE + count) := by
    split <;> omega
  have hmin : ∀ n : ℕ, (if n > size then size else n) = min n size := fun n => by
    split <;> omega
  simp only [readahead, sub_pageBase, hmax, hmin, gcdLoop_eq, Nat.dvd_iff_mod_eq_zero, ite_not]

/-- **The length of a refill** is a positive number of pages, at most the buffer, and divides the
offset it is read from. -/
theorem readahead_spec (offset cached : ℕ) {count : ℕ} (hcount : count ≠ 0) :
    0 < readahead size offset count cached ∧ readahead size offset count cached ≤ size ∧
      PAGE_SIZE ∣ readahead size offset count cached ∧
      readahead size offset count cached ∣ pageBase offset := by
  rw [readahead_eq]
  obtain ⟨hlt, hdvd⟩ := capped_ahead hsize hpos
    (n := max cached (offset % PAGE_SIZE + count)) (by omega)
  set ahead := min (pageUp (max cached (offset % PAGE_SIZE + count))) size with hahead
  have hle : ahead ≤ size := min_le_right ..
  dsimp only
  split
  · next h => exact ⟨hlt, hle, hdvd, h⟩
  · have hgcd := Nat.gcd_dvd_right (pageBase offset) ahead
    exact ⟨Nat.gcd_pos_of_pos_right _ hlt, (Nat.le_of_dvd hlt hgcd).trans hle,
      Nat.dvd_gcd (dvd_pageBase offset) hdvd, Nat.gcd_dvd_left _ _⟩

/-- When one refill of an empty buffer is not enough, it ends in front of the last octet needed. -/
theorem readahead_lt {offset count : ℕ} (hcount : count ≠ 0) (h : ¬ OneRound size offset count) :
    readahead size offset count 0 < offset % PAGE_SIZE + count := by
  rw [readahead_eq, Nat.max_eq_right (Nat.zero_le _)]
  set n := offset % PAGE_SIZE + count with hn
  obtain ⟨hlt, hdvd⟩ := capped_ahead hsize hpos (n := n) (by omega)
  have hup := pageUp_lt n
  -- a multiple of the page size below `pageUp n` is below `n`
  have hbelow : ∀ k, PAGE_SIZE ∣ k → k < pageUp n → k < n := by
    intro k hk hlt
    obtain ⟨a, rfl⟩ := hk
    obtain ⟨b, hb⟩ := dvd_pageUp n
    rw [hb] at hlt hup
    have : a + 1 ≤ b := Nat.lt_of_mul_lt_mul_left hlt
    have : PAGE_SIZE * (a + 1) ≤ PAGE_SIZE * b := Nat.mul_le_mul_left _ this
    rw [Nat.mul_succ] at this
    omega
  rcases Nat.lt_or_ge size (pageUp n) with hbig | hfit
  · have hmin : min (pageUp n) size = size := by omega
    rw [hmin] at hlt ⊢
    dsimp only
    split
    · exact hbelow _ hsize hbig
    · exact (Nat.le_of_dvd hlt (Nat.gcd_dvd_right _ _)).trans_lt (hbelow _ hsize hbig)
  · have hmin : min (pageUp n) size = pageUp n := by omega
    have hndvd : ¬ pageUp n ∣ pageBase offset := fun hd => h ⟨hfit, hd⟩
    rw [hmin] at hlt ⊢
    dsimp only
    rw [if_neg hndvd]
    refine hbelow _ (Nat.dvd_gcd (dvd_pageBase offset) (dvd_pageUp n)) ?_
    refine lt_of_le_of_ne (Nat.le_of_dvd hlt (Nat.gcd_dvd_right _ _)) fun heq => hndvd ?_
    rw [← heq]
    exact Nat.gcd_dvd_left _ _

end Readahead

end Shfs
