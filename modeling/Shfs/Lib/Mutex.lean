import Mathlib.Tactic.TypeStar

/-!
# A mutex, as one thread sees it

`Guarded σ` is a state `σ` with a mutex in front of it that does not nest. A thread that tries to
take the mutex while it holds it waits for ever; here it goes on, but `stuck` says what has
happened, and no step takes that back. `critical` is a step of `σ` under the mutex, where the
attempt to take it may be interrupted by a signal.

A thread is free when it does not hold the mutex and is not stuck. `Guarded.critical_free` and
`Guarded.unlock_held` keep it so; `Guarded.lock_held` and `Guarded.critical_held` are the two ways
to get stuck.
-/

namespace Lib

universe u v

/-- A state behind a mutex; `signals` says which attempts to take it will be interrupted. -/
structure Guarded (σ : Type u) : Type u where
  held : Bool
  stuck : Bool
  signals : List Bool
  state : σ

namespace Guarded

variable {σ : Type u} {ρ : Type v}

/-- The thread takes the mutex. -/
def lock (t : Guarded σ) : Guarded σ :=
  if t.held then { t with stuck := true } else { t with held := true }

/-- The thread gives it back. -/
def unlock (t : Guarded σ) : Guarded σ := { t with held := false }

/-- A step under the mutex, or what an interrupted attempt returns. -/
def critical (step : σ → ρ × σ) (interrupted : ρ) (t : Guarded σ) : ρ × Guarded σ :=
  if t.held then (interrupted, { t with stuck := true })
  else if t.signals.headD false then (interrupted, { t with signals := t.signals.tail })
  else ((step t.state).1, { t with signals := t.signals.tail, state := (step t.state).2 })

/-- The thread does not hold the mutex. -/
structure Free (t : Guarded σ) : Prop where
  held : t.held = false
  stuck : t.stuck = false

/-- The thread holds it, and has taken it once. -/
structure Held (t : Guarded σ) : Prop where
  held : t.held = true
  stuck : t.stuck = false

/-- The thread has tried to take it twice. -/
def Stuck (t : Guarded σ) : Prop := t.stuck = true

variable {t : Guarded σ} {step : σ → ρ × σ} {interrupted : ρ}

theorem Stuck.not_free (h : t.Stuck) : ¬ t.Free := fun hf => by
  have := h.symm.trans hf.stuck
  cases this

theorem lock_of_held (h : t.held = true) : t.lock = { t with stuck := true } := if_pos h

theorem lock_of_not_held (h : t.held = false) : t.lock = { t with held := true } :=
  if_neg (ne_true_of_eq_false h)

theorem critical_of_held (h : t.held = true) :
    critical step interrupted t = (interrupted, { t with stuck := true }) := if_pos h

theorem lock_free (h : t.Free) : t.lock.Held := by
  rw [lock_of_not_held h.held]
  exact ⟨rfl, h.stuck⟩

theorem lock_held (h : t.Held) : t.lock.Stuck := by
  rw [lock_of_held h.held]
  exact rfl

theorem lock_stuck (h : t.Stuck) : t.lock.Stuck := by
  cases hheld : t.held with
  | true =>
    rw [lock_of_held hheld]
    exact rfl
  | false =>
    rw [lock_of_not_held hheld]
    exact h

theorem unlock_held (h : t.Held) : t.unlock.Free := ⟨rfl, h.stuck⟩

theorem unlock_stuck (h : t.Stuck) : t.unlock.Stuck := h

theorem critical_free (h : t.Free) : (critical step interrupted t).2.Free := by
  unfold critical
  rw [h.held]
  simp only [Bool.false_eq_true, if_false]
  split <;> exact ⟨rfl, h.stuck⟩

theorem critical_held (h : t.Held) : (critical step interrupted t).2.Stuck := by
  rw [critical_of_held h.held]
  exact rfl

theorem critical_held_fst (h : t.Held) : (critical step interrupted t).1 = interrupted := by
  rw [critical_of_held h.held]

theorem critical_stuck (h : t.Stuck) : (critical step interrupted t).2.Stuck := by
  unfold critical
  split
  · exact rfl
  · split <;> exact h

end Guarded

end Lib
