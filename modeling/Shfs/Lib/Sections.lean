import Mathlib.Logic.Function.Basic
import Mathlib.Logic.Relation
import Mathlib.Tactic.Common

/-!
# Threads with one lock

Threads that share a state and a lock. `Sections` is what a thread does while it has the lock: how
it begins, its steps, and the last one, with which it gives the lock back; a thread may also end in
the middle and keep the lock for good. The state may `drift` on its own at any time. A `Turn` is one
step of any thread that can go on, so the threads interleave in every possible way; that only one of
them is inside is not built in, but follows from how the lock is taken (`Turns.exclusive`).

`Serial` is the account of an observer who sees one section after another. `Turns.account` says that
there always is one, with the sections in the order in which they have ended, and that a section
under way has begun where that account ends. `Serial.replay` turns the account into a run of a
specification, which is proved for one section at a time.
-/

namespace Lib

universe u v w x y z

/-- What a thread does while it has the lock. -/
structure Sections (γ : Type u) (τ : Type v) (σ : Type w) (ρ : Type x) where
  /-- a job begins in a state -/
  enter : γ → σ → τ → Prop
  step : τ → σ → τ → σ → Prop
  /-- the job is done, and the lock is given back -/
  leave : τ → σ → ρ → σ → Prop
  /-- the thread ends with the lock -/
  halt : τ → σ → Prop
  /-- what happens to the state whoever has the lock -/
  drift : σ → σ → Prop

/-- Where a thread is. -/
inductive Place (γ : Type u) (τ : Type v) : Type max u v
  | outside
  | waiting (g : γ)
  | inside (g : γ) (t : τ)
  /-- it has ended, with the lock -/
  | gone (g : γ) (t : τ)

/-- The threads, the lock and the state, and the jobs that have been done. -/
structure Threads (ι : Type y) (γ : Type u) (τ : Type v) (σ : Type w) (ρ : Type x) where
  place : ι → Place γ τ
  owner : Option ι
  state : σ
  log : List (γ × ρ)

variable {ι : Type y} {γ : Type u} {τ : Type v} {σ : Type w} {ρ : Type x}

/-- Nobody has done anything. -/
def Threads.start (s₀ : σ) : Threads ι γ τ σ ρ := ⟨fun _ => .outside, none, s₀, []⟩

section Turns

variable [DecidableEq ι] (S : Sections γ τ σ ρ)

/-- The thread is somewhere else. -/
def Threads.move (c : Threads ι γ τ σ ρ) (i : ι) (p : Place γ τ) : Threads ι γ τ σ ρ :=
  { c with place := Function.update c.place i p }

/-- One step of one thread, or of none. -/
inductive Turn : Threads ι γ τ σ ρ → Threads ι γ τ σ ρ → Prop
  | ask (c i g) (h : c.place i = .outside) : Turn c (c.move i (.waiting g))
  /-- it gives up waiting -/
  | giveUp (c i g) (h : c.place i = .waiting g) : Turn c (c.move i .outside)
  | take (c i g t) (h : c.place i = .waiting g) (hfree : c.owner = none)
    (henter : S.enter g c.state t) : Turn c { c.move i (.inside g t) with owner := some i }
  | work (c i g t t' s') (h : c.place i = .inside g t) (hstep : S.step t c.state t' s') :
    Turn c { c.move i (.inside g t') with state := s' }
  | leave (c i g t r s') (h : c.place i = .inside g t) (hleave : S.leave t c.state r s') :
    Turn c { c.move i .outside with owner := none, state := s', log := c.log ++ [(g, r)] }
  | halt (c i g t) (h : c.place i = .inside g t) (hhalt : S.halt t c.state) :
    Turn c (c.move i (.gone g t))
  | drift (c s') (hdrift : S.drift c.state s') : Turn c { c with state := s' }

/-- The states that the threads can lead to from a state, by any number of turns in any order. All
results about threads are about these: what holds of every `Turns` holds of every interleaving. -/
abbrev Turns : Threads ι γ τ σ ρ → Threads ι γ τ σ ρ → Prop := Relation.ReflTransGen (Turn S)

end Turns

/-! ## One section after another -/

section Serial

variable (S : Sections γ τ σ ρ)

/-- Steps of one section, with the state drifting in between. -/
abbrev Sections.Runs : τ × σ → τ × σ → Prop :=
  Relation.ReflTransGen fun a b => S.step a.1 a.2 b.1 b.2 ∨ (a.1 = b.1 ∧ S.drift a.2 b.2)

/-- The sections one after another. -/
inductive Serial (s₀ : σ) : List (γ × ρ) → σ → Prop
  | nil : Serial s₀ [] s₀
  | drift {l s s'} (h : Serial s₀ l s) (hdrift : S.drift s s') : Serial s₀ l s'
  | section {l s g t t' s' r s''} (h : Serial s₀ l s) (henter : S.enter g s t)
    (hruns : S.Runs (t, s) (t', s')) (hleave : S.leave t' s' r s'') :
    Serial s₀ (l ++ [(g, r)]) s''

/-- The results and the last state, as a specification of one job gives them. -/
def Replay {β : Type z} (spec : γ → β → ρ → β → Prop) : β → List (γ × ρ) → β → Prop
  | b, [], b' => b = b'
  | b, (g, r) :: l, b' => ∃ b₁, spec g b r b₁ ∧ Replay spec b₁ l b'

variable {S} {s₀ s : σ} {l : List (γ × ρ)}

section Replay

variable {β : Type z} {spec : γ → β → ρ → β → Prop} {b b' b'' : β}

theorem Replay.concat {g : γ} {r : ρ} (h : Replay spec b l b') (hspec : spec g b' r b'') :
    Replay spec b (l ++ [(g, r)]) b'' := by
  induction l generalizing b with
  | nil =>
    obtain rfl : b = b' := h
    exact ⟨b'', hspec, rfl⟩
  | cons p l ih =>
    obtain ⟨b₁, hb₁, hrest⟩ := h
    exact ⟨b₁, hb₁, ih hrest⟩

/-- **A simulation, one section at a time**, makes the account a run of the specification. -/
theorem Serial.replay {R : σ → β → Prop} (h : Serial S s₀ l s) (h₀ : R s₀ b)
    (hdrift : ∀ s s' b, R s b → S.drift s s' → R s' b)
    (hsection : ∀ g s t t' s' r s'' b, R s b → S.enter g s t → S.Runs (t, s) (t', s') →
      S.leave t' s' r s'' → ∃ b', spec g b r b' ∧ R s'' b') :
    ∃ b', Replay spec b l b' ∧ R s b' := by
  induction h with
  | nil => exact ⟨b, rfl, h₀⟩
  | drift _ hd ih =>
    obtain ⟨b', hl, hb'⟩ := ih
    exact ⟨b', hl, hdrift _ _ _ hb' hd⟩
  | «section» _ henter hruns hleave ih =>
    obtain ⟨b', hl, hb'⟩ := ih
    obtain ⟨b'', hspec, hb''⟩ := hsection _ _ _ _ _ _ _ _ hb' henter hruns hleave
    exact ⟨b'', hl.concat hspec, hb''⟩

end Replay

end Serial

/-! ## The invariant -/

section Account

variable {S : Sections γ τ σ ρ} {s₀ : σ} {c c' : Threads ι γ τ σ ρ}

/-- The thread is inside, or has ended there. -/
def Place.Holds (p : Place γ τ) (g : γ) (t : τ) : Prop := p = .inside g t ∨ p = .gone g t

/-- Only the owner is inside; the sections that have ended are one account, and the one under way
has begun where it ends. -/
structure Account (S : Sections γ τ σ ρ) (s₀ : σ) (c : Threads ι γ τ σ ρ) : Prop where
  owns : ∀ i g t, (c.place i).Holds g t → c.owner = some i
  free : c.owner = none → Serial S s₀ c.log c.state
  held : ∀ i, c.owner = some i → ∃ g t₀ t s₁, (c.place i).Holds g t ∧ Serial S s₀ c.log s₁ ∧
    S.enter g s₁ t₀ ∧ S.Runs (t₀, s₁) (t, c.state)

theorem account_start (s₀ : σ) : Account S s₀ (Threads.start s₀ : Threads ι γ τ σ ρ) where
  owns i g t h := by rcases h with h | h <;> cases h
  free _ := .nil
  held i h := by cases h

variable [DecidableEq ι]

@[simp] theorem Threads.move_self (c : Threads ι γ τ σ ρ) (i : ι) (p : Place γ τ) :
    (c.move i p).place i = p := Function.update_self ..

theorem Threads.move_of_ne (c : Threads ι γ τ σ ρ) {i j : ι} (h : j ≠ i) (p : Place γ τ) :
    (c.move i p).place j = c.place j := Function.update_of_ne h ..

/-- A thread that is not inside goes somewhere else that is not inside. -/
theorem Account.move (h : Account S s₀ c) {i : ι} {p : Place γ τ}
    (hbefore : ∀ g t, ¬ (c.place i).Holds g t) (hafter : ∀ g t, ¬ p.Holds g t) :
    Account S s₀ (c.move i p) where
  owns j g t hj := by
    by_cases hji : j = i
    · subst hji
      rw [c.move_self] at hj
      exact absurd hj (hafter g t)
    · rw [c.move_of_ne hji] at hj
      exact h.owns j g t hj
  free hfree := h.free hfree
  held j hj := by
    obtain ⟨g, t₀, t, s₁, hplace, hrest⟩ := h.held j hj
    have hji : j ≠ i := by
      rintro rfl
      exact hbefore g t hplace
    exact ⟨g, t₀, t, s₁, by rwa [c.move_of_ne hji], hrest⟩

/-- The owner is somewhere else inside. -/
theorem Account.work (h : Account S s₀ c) {i : ι} {g : γ} {t t' : τ} {s' : σ} {p : Place γ τ}
    (hi : c.place i = .inside g t) (hp : p.Holds g t') (hruns : S.Runs (t, c.state) (t', s')) :
    Account S s₀ { c.move i p with state := s' } := by
  have howner := h.owns i g t (.inl hi)
  refine ⟨fun j g' u hj => ?_, fun hfree => ?_, fun j hj => ?_⟩
  · by_cases hji : j = i
    · rw [hji]
      exact howner
    · exact h.owns j g' u (by rwa [← c.move_of_ne hji p])
  · cases howner.symm.trans hfree
  · obtain rfl : i = j := Option.some.inj (howner.symm.trans hj)
    obtain ⟨g', t₀, u, s₁, hplace, hserial, henter, hbefore⟩ := h.held i hj
    rw [hi] at hplace
    obtain ⟨rfl, rfl⟩ : g = g' ∧ t = u := by
      rcases hplace with hplace | hplace
      · exact ⟨(Place.inside.inj hplace).1, (Place.inside.inj hplace).2⟩
      · cases hplace
    exact ⟨g, t₀, t', s₁, by rwa [c.move_self], hserial, henter, hbefore.trans hruns⟩

/-- **A turn** keeps the account. Only a thread that leaves adds to it, and then it adds its whole
section, which began where the account ended. -/
theorem Turn.account (hturn : Turn S c c') (h : Account S s₀ c) : Account S s₀ c' := by
  cases hturn with
  | ask i g hi =>
    refine h.move (fun g' t hh => ?_) fun g' t hh => ?_
    · rw [hi] at hh
      rcases hh with hh | hh <;> cases hh
    · rcases hh with hh | hh <;> cases hh
  | giveUp i g hi =>
    refine h.move (fun g' t hh => ?_) fun g' t hh => ?_
    · rw [hi] at hh
      rcases hh with hh | hh <;> cases hh
    · rcases hh with hh | hh <;> cases hh
  | take i g t hi hfree henter =>
    refine ⟨fun j g' u hj => ?_, fun hnone => (by cases hnone), fun j hj => ?_⟩
    · by_cases hji : j = i
      · rw [hji]
      · -- nobody was inside, since the lock was free
        have := h.owns j g' u (by rwa [← c.move_of_ne hji (.inside g t)])
        cases hfree.symm.trans this
    · obtain rfl : i = j := Option.some.inj hj
      exact ⟨g, t, t, c.state, .inl (c.move_self ..), h.free hfree, henter, .refl⟩
  | work i g t t' s' hi hstep => exact h.work hi (.inl rfl) (.single (.inl hstep))
  | leave i g t r s' hi hleave =>
    have howner := h.owns i g t (.inl hi)
    obtain ⟨g', t₀, u, s₁, hplace, hserial, henter, hruns⟩ := h.held i howner
    rw [hi] at hplace
    obtain ⟨rfl, rfl⟩ : g = g' ∧ t = u := by
      rcases hplace with hplace | hplace
      · exact ⟨(Place.inside.inj hplace).1, (Place.inside.inj hplace).2⟩
      · cases hplace
    refine ⟨fun j g' u hj => ?_, fun _ => .section hserial henter hruns hleave,
      fun j hj => (by cases hj)⟩
    by_cases hji : j = i
    · subst hji
      rcases hj with hj | hj <;> cases (c.move_self ..).symm.trans hj
    · have := h.owns j g' u (by rwa [← c.move_of_ne hji .outside])
      exact absurd (Option.some.inj (howner.symm.trans this)).symm hji
  | halt i g t hi hhalt => exact h.work hi (.inr rfl) .refl
  | drift s' hdrift =>
    refine ⟨h.owns, fun hfree => .drift (h.free hfree) hdrift, fun j hj => ?_⟩
    obtain ⟨g, t₀, t, s₁, hplace, hserial, henter, hruns⟩ := h.held j hj
    exact ⟨g, t₀, t, s₁, hplace, hserial, henter, hruns.tail (.inr ⟨rfl, hdrift⟩)⟩

/-- **The account**: however the threads take turns, there is one in which the sections stand one
after another, in the order in which they have ended. It is proved turn by turn (`Turn.account`). -/
theorem Turns.account (h : Turns S (Threads.start s₀) c) : Account S s₀ c := by
  induction h with
  | refl => exact account_start s₀
  | tail _ hturn ih => exact hturn.account ih

/-- **Mutual exclusion**: two threads that are both inside, or have ended there, are the same
thread. Both are the owner of the lock. -/
theorem Turns.exclusive (h : Turns S (Threads.start s₀) c) {i j : ι} {g g' : γ} {t t' : τ}
    (hi : (c.place i).Holds g t) (hj : (c.place j).Holds g' t') : i = j :=
  Option.some.inj ((h.account.owns i g t hi).symm.trans (h.account.owns j g' t' hj))

/-- **A thread that has ended inside** is the last one: it stays there with the lock, no section
ends any more, and the state only drifts. -/
theorem Turns.frozen (h : Turns S (Threads.start s₀) c) {i : ι} {g : γ} {t : τ}
    (hi : c.place i = .gone g t) (hlater : Turns S c c') :
    c'.place i = .gone g t ∧ c'.owner = some i ∧ c'.log = c.log ∧
      Relation.ReflTransGen S.drift c.state c'.state := by
  induction hlater with
  | refl => exact ⟨hi, h.account.owns i g t (.inr hi), rfl, .refl⟩
  | @tail d e hd hturn ih =>
    obtain ⟨hplace, howner, hlog, hstate⟩ := ih
    have haccount := Turns.account (h.trans hd)
    -- it does not move, and nobody else is inside
    have hmove : ∀ {j : ι} {p q : Place γ τ}, d.place j = q → (∀ g t, q ≠ .gone g t) →
        (d.move j p).place i = .gone g t := by
      intro j p q hj hq
      have hij : i ≠ j := by
        rintro rfl
        exact hq g t (hj.symm.trans hplace)
      rw [d.move_of_ne hij, hplace]
    have hinside : ∀ {j : ι} {g' : γ} {t' : τ}, d.place j ≠ .inside g' t' := by
      intro j g' t' hj
      have hij := Option.some.inj (howner.symm.trans (haccount.owns j g' t' (.inl hj)))
      rw [← hij, hplace] at hj
      cases hj
    cases hturn with
    | ask j g' hj => exact ⟨hmove hj fun _ _ h => (by cases h), howner, hlog, hstate⟩
    | giveUp j g' hj => exact ⟨hmove hj fun _ _ h => (by cases h), howner, hlog, hstate⟩
    | take j g' t' hj hfree henter => cases hfree.symm.trans howner
    | work j g' t' t'' s' hj hstep => exact absurd hj hinside
    | leave j g' t' r s' hj hleave => exact absurd hj hinside
    | halt j g' t' hj hhalt => exact absurd hj hinside
    | drift s' hdrift => exact ⟨hplace, howner, hlog, hstate.tail hdrift⟩

/-- Where no thread ends inside, no thread has. -/
theorem Turns.not_gone (hhalt : ∀ t s, ¬ S.halt t s) (h : Turns S (Threads.start s₀) c) (i : ι)
    (g : γ) (t : τ) : c.place i ≠ .gone g t := by
  induction h generalizing i g t with
  | refl => exact fun h => by cases h
  | tail _ hturn ih =>
    have hmove : ∀ {c : Threads ι γ τ σ ρ} {j : ι} {p : Place γ τ},
      (∀ i g t, c.place i ≠ .gone g t) →
        (∀ g t, p ≠ .gone g t) → (c.move j p).place i ≠ .gone g t := by
      intro c j p hc hp
      by_cases hij : i = j
      · subst hij
        rw [c.move_self]
        exact hp g t
      · rw [c.move_of_ne hij]
        exact hc i g t
    cases hturn with
    | halt j g' t' hj hh => exact absurd hh (hhalt t' _)
    | drift s' hdrift => exact ih i g t
    | _ => exact hmove ih fun _ _ h => by cases h

/-- What a thread inside can do on its own, the threads can do. -/
theorem Turns.of_runs {i : ι} {g : γ} {t t' : τ} {s' : σ} (hi : c.place i = .inside g t)
    (h : S.Runs (t, c.state) (t', s')) :
    Turns S c { c.move i (.inside g t') with state := s' } := by
  generalize hb : (t', s') = b at h
  induction h generalizing t' s' with
  | refl =>
    obtain ⟨rfl, rfl⟩ := Prod.mk.inj hb
    have : c.move i (.inside g t') = c := by
      rw [Threads.move, ← hi, Function.update_eq_self]
    rw [this]
  | tail _ hstep ih =>
    rename_i d e _
    subst hb
    refine (ih (show (d.1, d.2) = d from rfl)).tail ?_
    rcases hstep with hstep | ⟨ht, hdrift⟩
    · have := Turn.work (S := S) { c.move i (.inside g d.1) with state := d.2 } i g d.1 t' s'
        (c.move_self ..) hstep
      simpa [Threads.move] using this
    · obtain rfl : d.1 = t' := ht
      exact .drift _ s' hdrift

end Account

end Lib
