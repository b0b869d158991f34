import Mathlib.Data.List.Basic

/-!
# Runs of a deterministic system

A system is a step function `step : S → A → S`; its runs are the folds over a list of actions.
`Along P s as` says that `P` holds of every state of the run and the action taken there.

An invariant proved for one step is used through two rules. `Along.of_guarded` is for an invariant
that only survives the steps meeting a guard: if every step of the run meets it, what the
invariant gives holds along the whole run. `along_congr` is for an unconditional invariant under
which two step properties are the same.
-/

namespace Lib

universe u v

variable {S : Type u} {A : Type v}

/-- The state after a list of actions. -/
def run (step : S → A → S) (s : S) (as : List A) : S := as.foldl step s

/-- `P` holds at every step of the run. -/
def Along (step : S → A → S) (P : S → A → Prop) : S → List A → Prop
  | _, [] => True
  | s, a :: as => P s a ∧ Along step P (step s a) as

instance {step : S → A → S} {P : S → A → Prop} [∀ s a, Decidable (P s a)] :
    ∀ (s : S) (as : List A), Decidable (Along step P s as)
  | _, [] => isTrue trivial
  | s, a :: as =>
    have : Decidable (Along step P (step s a) as) := instDecidableAlong _ as
    inferInstanceAs (Decidable (P s a ∧ Along step P (step s a) as))

variable {step : S → A → S} {P Q : S → A → Prop} {Inv : S → Prop}

/-- `Along` by positions: at every cut of the run, `P` holds of the state there and the next
action. -/
theorem along_iff {s : S} {as : List A} :
    Along step P s as ↔ ∀ pre a post, as = pre ++ a :: post → P (run step s pre) a := by
  induction as generalizing s with
  | nil =>
    refine ⟨fun _ pre a post h => ?_, fun _ => trivial⟩
    have := congrArg List.length h
    simp at this
  | cons b bs ih =>
    rw [Along, ih]
    constructor
    · rintro ⟨hb, hbs⟩ pre a post h
      cases pre with
      | nil =>
        obtain ⟨rfl, -⟩ := List.cons.inj h
        exact hb
      | cons p pre =>
        obtain ⟨rfl, htail⟩ := List.cons.inj h
        exact hbs pre a post htail
    · intro h
      exact ⟨h [] b bs rfl, fun pre a post hbs => h (b :: pre) a post (congrArg _ hbs)⟩

theorem run_append (s : S) (as bs : List A) : run step s (as ++ bs) = run step (run step s as) bs :=
  List.foldl_append

/-- `Along` over a run in two parts. -/
theorem along_append {s : S} {as bs : List A} :
    Along step P s (as ++ bs) ↔ Along step P s as ∧ Along step P (run step s as) bs := by
  induction as generalizing s with
  | nil => exact ⟨fun h => ⟨trivial, h⟩, fun h => h.2⟩
  | cons a as ih =>
    rw [List.cons_append, Along, Along, ih, and_assoc]
    rfl

variable (Inv) in
/-- **The run rule**: an invariant that survives the guarded steps, and under which a guarded step
has the property, gives the property along every run whose steps meet the guard. -/
theorem Along.of_guarded (hstep : ∀ s a, Inv s → Q s a → P s a ∧ Inv (step s a)) {s : S}
    {as : List A} (hs : Inv s) (h : Along step Q s as) : Along step P s as := by
  induction as generalizing s with
  | nil => trivial
  | cons a as ih =>
    obtain ⟨hp, hinv⟩ := hstep s a hs h.1
    exact ⟨hp, ih hinv h.2⟩

theorem Along.and {s : S} {as : List A} (h : Along step P s as) (h' : Along step Q s as) :
    Along step (fun s a => P s a ∧ Q s a) s as := by
  induction as generalizing s with
  | nil => trivial
  | cons a as ih => exact ⟨⟨h.1, h'.1⟩, ih h.2 h'.2⟩

/-- A property of the actions alone joins a property of the steps. -/
theorem Along.and_mem {R : A → Prop} {s : S} {as : List A} (h : Along step P s as)
    (hR : ∀ a ∈ as, R a) : Along step (fun s a => P s a ∧ R a) s as := by
  induction as generalizing s with
  | nil => trivial
  | cons a as ih =>
    exact ⟨⟨h.1, hR a (List.mem_cons_self ..)⟩,
      ih h.2 fun b hb => hR b (List.mem_cons_of_mem _ hb)⟩

variable (Inv) in
/-- The same for the state in which the run ends. -/
theorem Along.run_of_guarded (hstep : ∀ s a, Inv s → Q s a → Inv (step s a)) {s : S} {as : List A}
    (hs : Inv s) (h : Along step Q s as) : Inv (run step s as) := by
  induction as generalizing s with
  | nil => exact hs
  | cons a as ih => exact ih (hstep s a hs h.1) h.2

/-- Under an invariant, equivalent step properties hold along the same runs. -/
theorem along_congr (hstep : ∀ s a, Inv s → Inv (step s a))
    (hiff : ∀ s a, Inv s → (P s a ↔ Q s a)) {s : S} {as : List A} (hs : Inv s) :
    Along step P s as ↔ Along step Q s as :=
  ⟨Along.of_guarded Inv (fun s a hs hp => ⟨(hiff s a hs).mp hp, hstep s a hs⟩) hs,
    Along.of_guarded Inv (fun s a hs hq => ⟨(hiff s a hs).mpr hq, hstep s a hs⟩) hs⟩

variable (Inv) in
/-- **From runs to steps**: every state of the run has the property exactly if every step meets the
condition, where the condition preserves an invariant that gives the property, and the property
behind a step needs the condition. -/
theorem forall_prefix_iff_along {R : S → Prop} (hR : ∀ s, Inv s → R s)
    (hstep : ∀ s a, Inv s → Q s a → Inv (step s a))
    (hneed : ∀ s a, Inv s → R (step s a) → Q s a) {s : S} {as : List A} (hs : Inv s) :
    (∀ before, before <+: as → R (run step s before)) ↔ Along step Q s as := by
  constructor
  · intro h
    induction as generalizing s with
    | nil => trivial
    | cons a as ih =>
      have ha : Q s a := hneed s a hs (h [a] ⟨as, rfl⟩)
      refine ⟨ha, ih (hstep s a hs ha) fun before hbefore => ?_⟩
      exact h (a :: before) ((List.prefix_cons_inj a).mpr hbefore)
  · rintro h before ⟨after, rfl⟩
    exact hR _ (Along.run_of_guarded Inv hstep hs (along_append.mp h).1)

end Lib
