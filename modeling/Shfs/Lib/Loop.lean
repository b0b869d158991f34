import Mathlib.Data.Nat.Notation

/-!
# Loops with an early exit

`loop cond body fuel a` runs `while (cond) a = body(a)`, where the body can also leave the loop
with a result. `none` says that `fuel` rounds were not enough.

`loop_rule` is the invariant rule for a loop that ends, `loop_total` ends it, by a measure that
every round makes smaller, and `loop_correct` is both. `loop_rel` is the rule for two loops at a
time.
-/

namespace Lib

universe u v

variable {α : Type u} {β : Type v}

/-- `while (cond) body`, left early with `.inl`. -/
def loop (cond : α → Bool) (body : α → β ⊕ α) : ℕ → α → Option (β ⊕ α)
  | 0, a => if cond a then none else some (.inr a)
  | fuel + 1, a =>
    if cond a then
      match body a with
      | .inl b => some (.inl b)
      | .inr a' => loop cond body fuel a'
    else some (.inr a)

variable {cond : α → Bool} {body : α → β ⊕ α}

theorem loop_no_fuel (a : α) : loop cond body 0 a = if cond a then none else some (.inr a) := rfl

theorem loop_succ (fuel : ℕ) (a : α) : loop cond body (fuel + 1) a =
    if cond a then
      match body a with
      | .inl b => some (.inl b)
      | .inr a' => loop cond body fuel a'
    else some (.inr a) := rfl

theorem loop_done {a : α} (h : cond a = false) (fuel : ℕ) :
    loop cond body fuel a = some (.inr a) := by
  cases fuel with
  | zero => exact if_neg (ne_true_of_eq_false h)
  | succ fuel => exact if_neg (ne_true_of_eq_false h)

/-- A loop that counts down to 0 is done there. -/
theorem loop_zero (μ : α → ℕ) {a : α} (h : μ a = 0) (fuel : ℕ) :
    loop (fun a => decide (μ a ≠ 0)) body fuel a = some (.inr a) := by
  apply loop_done
  exact decide_eq_false fun hne => hne h

/-- **The invariant rule**: what every round keeps holds behind the loop, and what every exit has
holds of the early results. -/
theorem loop_rule (Inv : α → Prop) (Exit : β → Prop)
    (hbody : ∀ a, Inv a → cond a = true → Sum.elim Exit Inv (body a)) {fuel : ℕ} {a : α}
    {r : β ⊕ α} (ha : Inv a) (h : loop cond body fuel a = some r) :
    Sum.elim Exit (fun a => Inv a ∧ cond a = false) r := by
  induction fuel generalizing a with
  | zero =>
    rw [loop_no_fuel] at h
    split at h
    · cases h
    · next hc =>
      obtain rfl := Option.some.inj h
      exact ⟨ha, by simpa using hc⟩
  | succ fuel ih =>
    rw [loop_succ] at h
    split at h
    · next hc =>
      have hround := hbody a ha hc
      -- the round that comes first either leaves the loop or is followed by the others
      cases hb : body a with
      | inl b =>
        rw [hb] at h hround
        obtain rfl := Option.some.inj h
        exact hround
      | inr a' =>
        rw [hb] at h hround
        exact ih hround h
    · next hc =>
      obtain rfl := Option.some.inj h
      exact ⟨ha, by simpa using hc⟩

/-- **Termination**: a measure that is positive while the loop goes on, and that every round makes
smaller, bounds the rounds. -/
theorem loop_total (Inv : α → Prop) (μ : α → ℕ) (hpos : ∀ a, Inv a → cond a = true → 0 < μ a)
    (hbody : ∀ a, Inv a → cond a = true → ∀ a', body a = .inr a' → Inv a' ∧ μ a' < μ a)
    {fuel : ℕ} {a : α} (ha : Inv a) (hfuel : μ a ≤ fuel) :
    ∃ r, loop cond body fuel a = some r := by
  induction fuel generalizing a with
  | zero =>
    cases hc : cond a with
    | false => exact ⟨_, loop_done hc 0⟩
    | true =>
      have := hpos a ha hc
      omega
  | succ fuel ih =>
    rw [loop_succ]
    split
    · next hc =>
      cases hb : body a with
      | inl b => exact ⟨_, rfl⟩
      | inr a' =>
        obtain ⟨hinv, hlt⟩ := hbody a ha hc a' hb
        exact ih hinv (by omega)
    · exact ⟨_, rfl⟩

/-- **Total correctness**: an invariant together with a measure. With as much fuel as the measure
says at the start the loop ends, and what it ends with is an early exit, or keeps the invariant and
fails the condition. -/
theorem loop_correct (Inv : α → Prop) (Exit : β → Prop) (μ : α → ℕ)
    (hpos : ∀ a, Inv a → cond a = true → 0 < μ a)
    (hbody : ∀ a, Inv a → cond a = true → Sum.elim Exit (fun a' => Inv a' ∧ μ a' < μ a) (body a))
    {fuel : ℕ} {a : α} (ha : Inv a) (hfuel : μ a ≤ fuel) :
    ∃ r, loop cond body fuel a = some r ∧
      Sum.elim Exit (fun a => Inv a ∧ cond a = false) r := by
  have hround : ∀ a, Inv a → cond a = true → ∀ a', body a = .inr a' → Inv a' ∧ μ a' < μ a := by
    intro a ha hc a' hb
    have := hbody a ha hc
    rwa [hb] at this
  obtain ⟨r, hr⟩ := loop_total Inv μ hpos hround ha hfuel
  refine ⟨r, hr, loop_rule Inv Exit (fun a ha hc => ?_) ha hr⟩
  have := hbody a ha hc
  cases hb : body a with
  | inl b => rwa [hb] at this
  | inr a' =>
    rw [hb] at this
    exact this.1

/-- **Two loops side by side**: if the rounds correspond, the other loop ends as well, and with a
result that corresponds. -/
theorem loop_rel {α' : Type u} {β' : Type v} {cond' : α' → Bool} {body' : α' → β' ⊕ α'}
    (R : α → α' → Prop) (E : β → β' → Prop) (hcond : ∀ a a', R a a' → cond a = cond' a')
    (hbody : ∀ a a', R a a' → cond a = true → Sum.LiftRel E R (body a) (body' a')) {fuel : ℕ}
    {a : α} {a' : α'} {r : β ⊕ α} (ha : R a a') (h : loop cond body fuel a = some r) :
    ∃ r', loop cond' body' fuel a' = some r' ∧ Sum.LiftRel E R r r' := by
  induction fuel generalizing a a' with
  | zero =>
    rw [loop_no_fuel] at h
    rw [loop_no_fuel, ← hcond a a' ha]
    split at h
    · cases h
    · next hc =>
      obtain rfl := Option.some.inj h
      rw [if_neg hc]
      exact ⟨.inr a', rfl, .inr ha⟩
  | succ fuel ih =>
    rw [loop_succ] at h
    rw [loop_succ, ← hcond a a' ha]
    split at h
    · next hc =>
      have hround := hbody a a' ha hc
      rw [if_pos hc]
      cases hround' : body' a' with
      | inl b' =>
        cases hb : body a with
        | inl b =>
          rw [hb] at h hround
          obtain rfl := Option.some.inj h
          exact ⟨.inl b', rfl, hround' ▸ hround⟩
        | inr a₁ =>
          rw [hb, hround'] at hround
          cases hround
      | inr a₁' =>
        cases hb : body a with
        | inl b =>
          rw [hb, hround'] at hround
          cases hround
        | inr a₁ =>
          rw [hb] at h hround
          rw [hround', Sum.liftRel_inr_inr] at hround
          exact ih hround h
    · next hc =>
      obtain rfl := Option.some.inj h
      rw [if_neg hc]
      exact ⟨.inr a', rfl, .inr ha⟩

end Lib
