import Mathlib.Data.Finset.Card

/-!
# Pools

A pool hands out tickets: it counts those that are left, and knows who holds one. A holder takes a
ticket and gives it back; a ticket that is taken and handed to nobody is lost.

Whatever the order of the moves, the tickets that are left and those that are held add up to what
there was, less the tickets that were lost (`Pool.total_move`).
-/

namespace Lib

universe u

/-- A pool of tickets. -/
structure Pool (ι : Type u) : Type u where
  holders : Finset ι
  free : ℤ

namespace Pool

/-- What can happen to the ticket of a holder. -/
inductive Move : Type where
  | keep
  | take
  | give
  | lose
  deriving DecidableEq, Repr

variable {ι : Type u}

/-- The tickets that are left and those that are held. -/
def total (p : Pool ι) : ℤ := p.free + p.holders.card

/-- Without holders all tickets are left. -/
theorem free_of_holders {p : Pool ι} (h : p.holders = ∅) : p.free = p.total := by
  simp [total, h]

variable [DecidableEq ι]

/-- A move of `i`. -/
def move (p : Pool ι) (i : ι) : Move → Pool ι
  | .keep => p
  | .take => ⟨insert i p.holders, p.free - 1⟩
  | .give => ⟨p.holders.erase i, p.free + 1⟩
  | .lose => ⟨p.holders, p.free - 1⟩

/-- A ticket is taken by one who holds none, while there is one left, and given back by its
holder. -/
def Legal (p : Pool ι) (i : ι) : Move → Prop
  | .keep => True
  | .take => i ∉ p.holders ∧ 0 < p.free
  | .give => i ∈ p.holders
  | .lose => 0 < p.free

variable {p : Pool ι} {i : ι} {m : Move}

/-- **A move keeps the total** of the free tickets and of those that are held, unless it loses a
ticket; and then the total is one less. -/
theorem total_move (h : p.Legal i m) :
    (p.move i m).total = p.total - if m = .lose then 1 else 0 := by
  cases m with
  | keep => simp [move]
  | take =>
    have hcard : (insert i p.holders).card = p.holders.card + 1 :=
      Finset.card_insert_of_notMem h.1
    simp only [total, move, reduceCtorEq, if_false]
    omega
  | give =>
    have hcard : (p.holders.erase i).card + 1 = p.holders.card :=
      Finset.card_erase_add_one (show i ∈ p.holders from h)
    simp only [total, move, reduceCtorEq, if_false]
    omega
  | lose =>
    simp only [total, move, if_true]
    omega

/-- A move of `i` is no business of the others. -/
theorem mem_move_of_ne {j : ι} (h : j ≠ i) : j ∈ (p.move i m).holders ↔ j ∈ p.holders := by
  cases m with
  | keep | lose => exact Iff.rfl
  | take => simp [move, h]
  | give => simp [move, h]

theorem free_move (h : p.Legal i m) (hp : 0 ≤ p.free) : 0 ≤ (p.move i m).free := by
  cases m with
  | keep => exact hp
  | take => exact Int.sub_nonneg.mpr h.2
  | give => exact Int.add_nonneg hp Int.one_nonneg
  | lose => exact Int.sub_nonneg.mpr h

end Pool

end Lib
