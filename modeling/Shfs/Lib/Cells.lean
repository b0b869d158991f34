import Mathlib.Data.List.Basic
import Mathlib.Data.Int.Notation

/-!
# A buffer that is worked on in place

A program with pointers into a buffer loads and stores single cells. `Cells` is the buffer together
with the accesses so far; an access outside of the buffer has no result. Pointers are integers,
since one may come to stand in front of the buffer as long as nothing is loaded or stored there.

A program that moves the content of a buffer within the buffer must not store to a cell that it
still has to load: its accesses are `InOrder`.
-/

namespace Lib

universe u

/-- An access to a cell. -/
inductive Access : Type where
  | load (i : ℕ)
  | store (i : ℕ)
  deriving DecidableEq, Repr

/-- No cell is loaded after it has been stored to. -/
def InOrder (log : List Access) : Prop := log.Pairwise fun a b => ∀ i, a = .store i → b ≠ .load i

theorem InOrder.nil : InOrder [] := List.Pairwise.nil

theorem InOrder.load {log : List Access} {i : ℕ} (h : InOrder log) (hi : .store i ∉ log) :
    InOrder (log ++ [.load i]) := by
  refine List.pairwise_append.mpr ⟨h, List.pairwise_singleton .., ?_⟩
  rintro a ha b hb j rfl rfl
  obtain rfl := Access.load.inj (List.mem_singleton.mp hb)
  exact hi ha

theorem InOrder.store {log : List Access} (h : InOrder log) (i : ℕ) :
    InOrder (log ++ [.store i]) := by
  refine List.pairwise_append.mpr ⟨h, List.pairwise_singleton .., ?_⟩
  rintro a - b hb j - rfl
  cases List.mem_singleton.mp hb

/-- A buffer, and the accesses to it. -/
structure Cells (β : Type u) : Type u where
  cells : List β
  log : List Access

namespace Cells

variable {β : Type u} {cells : List β} {i : ℕ}

/-- `*p` -/
def load (m : Cells β) (p : ℤ) : Option (β × Cells β) :=
  if 0 ≤ p then m.cells[p.toNat]?.map fun b => (b, ⟨m.cells, m.log ++ [.load p.toNat]⟩)
  else none

/-- `*p = b` -/
def store (m : Cells β) (p : ℤ) (b : β) : Option (Cells β) :=
  if 0 ≤ p ∧ p.toNat < m.cells.length then
    some ⟨m.cells.set p.toNat b, m.log ++ [.store p.toNat]⟩
  else none

/-- One cell after the other, from `p` on. -/
def storeAll : Cells β → ℤ → List β → Option (Cells β)
  | m, _, [] => some m
  | m, p, b :: bs => do
    let m ← m.store p b
    m.storeAll (p + 1) bs

/-- A cell of the buffer. -/
theorem load_of_get {b : β} (h : cells[i]? = some b) (log : List Access) :
    (⟨cells, log⟩ : Cells β).load i = some (b, ⟨cells, log ++ [.load i]⟩) := by
  rw [load, if_pos (Int.natCast_nonneg i), Int.toNat_natCast, h]
  rfl

theorem store_of_lt (h : i < cells.length) (b : β) (log : List Access) :
    (⟨cells, log⟩ : Cells β).store i b = some ⟨cells.set i b, log ++ [.store i]⟩ := by
  rw [store, Int.toNat_natCast, if_pos ⟨Int.natCast_nonneg i, h⟩]

/-- The cell behind a part of the buffer. -/
theorem store_append (front : List β) (old b : β) (back : List β) (log : List Access) :
    (⟨front ++ old :: back, log⟩ : Cells β).store front.length b =
      some ⟨front ++ b :: back, log ++ [.store front.length]⟩ := by
  have hlt : front.length < (front ++ old :: back).length := by simp
  rw [store_of_lt hlt, List.set_append_right _ _ (Nat.le_refl _), Nat.sub_self, List.set_cons_zero]

/-- The cells behind a part of the buffer, with what is behind them left alone: each of them is
stored to once. -/
theorem storeAll_append (front : List β) {old new : List β} (h : old.length = new.length)
    (back : List β) (log : List Access) :
    (⟨front ++ (old ++ back), log⟩ : Cells β).storeAll front.length new =
      some ⟨front ++ (new ++ back), log ++ (List.range' front.length new.length).map .store⟩ := by
  induction new generalizing front old log with
  | nil =>
    obtain rfl := List.eq_nil_of_length_eq_zero h
    simp [storeAll]
  | cons b new ih =>
    obtain ⟨a, old, rfl⟩ := List.exists_cons_of_length_eq_add_one h
    have hnext : (front.length : ℤ) + 1 = ((front ++ [b]).length : ℕ) := by simp
    have hrest := ih (front ++ [b]) (Nat.succ.inj h) (log ++ [.store front.length])
    rw [storeAll, List.cons_append, store_append, Option.bind_eq_bind, Option.bind_some, hnext]
    rw [List.append_assoc, List.singleton_append] at hrest
    rw [hrest, List.length_append, List.length_singleton, List.length_cons, List.range'_succ]
    simp

end Cells

end Lib
