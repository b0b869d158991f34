import Mathlib.Data.List.Basic

/-!
# Scanners: reading a stream until an answer is complete

A scanner is a deterministic automaton that is fed one letter at a time and, on some letter,
stops with an answer. `scan` runs it over a piece of a stream and either runs out of letters in
some state or reports the answer together with the letters it has not looked at.

The laws say that a scanner does not care how its input is cut: `scan_append` continues a scan
that ran out of letters, and `scan_front` says that a scanner which stops exactly at the end of
a string is still hungry on every proper prefix of it.
-/

namespace Lib

universe u v w

variable {B : Type u} {G : Type v} {A : Type w}

/-- Feed `step` the letters of a list, starting in state `g`. `inl` is the state in which the
letters ran out, `inr` the answer and the letters left over. -/
def scan (step : G → B → G ⊕ A) : G → List B → G ⊕ (A × List B)
  | g, [] => .inl g
  | g, b :: bs =>
    match step g b with
    | .inl g' => scan step g' bs
    | .inr a => .inr (a, bs)

variable {step : G → B → G ⊕ A}

@[simp] theorem scan_nil (g : G) : scan step g [] = .inl g := rfl

theorem scan_cons_inl {g k : G} {b : B} (h : step g b = .inl k) (bs : List B) :
    scan step g (b :: bs) = scan step k bs := by
  simp only [scan, h]

theorem scan_cons_inr {g : G} {b : B} {a : A} (h : step g b = .inr a) (bs : List B) :
    scan step g (b :: bs) = .inr (a, bs) := by
  simp only [scan, h]

/-- Cutting the input: run the first piece, and the second one only if the first ran out. -/
theorem scan_append (g : G) (bs cs : List B) :
    scan step g (bs ++ cs) =
      match scan step g bs with
      | .inl g' => scan step g' cs
      | .inr (a, rest) => .inr (a, rest ++ cs) := by
  induction bs generalizing g with
  | nil => rfl
  | cons b bs ih =>
    rcases h : step g b with g' | a
    · rw [List.cons_append, scan_cons_inl h, scan_cons_inl h]
      exact ih g'
    · rw [List.cons_append, scan_cons_inr h, scan_cons_inr h]

theorem scan_append_inl {g g' : G} {bs : List B} (h : scan step g bs = .inl g') (cs : List B) :
    scan step g (bs ++ cs) = scan step g' cs := by
  rw [scan_append, h]

theorem scan_append_inr {g : G} {a : A} {bs rest : List B} (h : scan step g bs = .inr (a, rest))
    (cs : List B) : scan step g (bs ++ cs) = .inr (a, rest ++ cs) := by
  rw [scan_append, h]

/-- A scan that runs out of letters can be stopped at any letter. -/
theorem scan_take {g g' : G} {bs : List B} (h : scan step g bs = .inl g') (n : ℕ) :
    ∃ k, scan step g (bs.take n) = .inl k ∧ scan step k (bs.drop n) = .inl g' := by
  rw [← List.take_append_drop n bs, scan_append] at h
  cases hs : scan step g (bs.take n) with
  | inl k =>
    rw [hs] at h
    exact ⟨k, rfl, h⟩
  | inr r =>
    rw [hs] at h
    cases h

/-- What is left over is a proper suffix of the input: an answer consumes at least one letter. -/
theorem scan_rest_length {g : G} {a : A} {bs rest : List B}
    (h : scan step g bs = .inr (a, rest)) : rest.length < bs.length := by
  induction bs generalizing g with
  | nil => cases h
  | cons b bs ih =>
    rcases hs : step g b with g' | a'
    · rw [scan_cons_inl hs] at h
      have := ih h
      rw [List.length_cons]
      omega
    · rw [scan_cons_inr hs] at h
      obtain ⟨-, rfl⟩ := Prod.mk.inj (Sum.inr.inj h)
      exact Nat.lt_succ_self _

/-- A scanner that answers exactly at the end of a string is still hungry on every proper
prefix. -/
theorem scan_front {g : G} {a : A} {bs cs : List B} (h : scan step g (bs ++ cs) = .inr (a, []))
    (hne : cs ≠ []) : ∃ g', scan step g bs = .inl g' := by
  rcases hb : scan step g bs with g' | ⟨a', rest⟩
  · exact ⟨g', rfl⟩
  · rw [scan_append_inr hb] at h
    obtain ⟨-, hnil⟩ := Prod.mk.inj (Sum.inr.inj h)
    exact absurd (List.append_eq_nil_iff.mp hnil).2 hne

end Lib
