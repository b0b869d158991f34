import Mathlib.Algebra.Group.Nat.Defs

/-!
# A counter of ticks that wraps

A time stamp is a value that the counter had. What is left of the difference of the counter and a
stamp is the number of ticks since the stamp was taken, as long as that is less than the range of
the counter; `Since` is what holds without that limit.
-/

namespace Lib

variable {w : ℕ}

/-- The counter has gone `n` ticks from `stamp` to `now`. -/
def Since (now stamp : BitVec w) (n : ℕ) : Prop := now = stamp + BitVec.ofNat w n

variable {now stamp : BitVec w} {n : ℕ}

theorem since_now (now : BitVec w) : Since now now 0 := (BitVec.add_zero now).symm

theorem Since.tick (h : Since now stamp n) : Since (now + 1) stamp (n + 1) := by
  rw [Since, BitVec.ofNat_add, ← BitVec.add_assoc, ← h]
  rfl

/-- A stamp that is dated back. -/
theorem Since.back (h : Since now stamp n) (m : BitVec w) : Since now (stamp - m)
    (m.toNat + n) := by
  rw [Since, BitVec.ofNat_add, BitVec.ofNat_toNat, BitVec.setWidth_eq, ← BitVec.add_assoc,
    BitVec.sub_add_cancel, ← h]

/-- **The age** is the number of ticks, although the counter may have wrapped in between. -/
theorem Since.age (h : Since now stamp n) (hn : n < 2 ^ w) : (now - stamp).toNat = n := by
  rw [h, BitVec.add_comm, BitVec.add_sub_cancel, BitVec.toNat_ofNat, Nat.mod_eq_of_lt hn]

theorem Since.age_le (h : Since now stamp n) (hn : n < 2 ^ w) (m : BitVec w) :
    now - stamp ≤ m ↔ n ≤ m.toNat := by
  rw [BitVec.le_def, h.age hn]

theorem Since.le_age (h : Since now stamp n) (hn : n < 2 ^ w) (m : BitVec w) :
    m ≤ now - stamp ↔ m.toNat ≤ n := by
  rw [BitVec.le_def, h.age hn]

end Lib
