import Shfs.Lib.Image

/-!
# Calls that move a part

`read(2)` and `write(2)` may move fewer octets than they are asked for. `Partial` is what the calls
on an open file return, in their order: they fail, or they move a part of the octets that are to be
had, and at least one if there is one. `Handle` is the open file.

A loop of such calls goes by `read_some` and `write_some`: what has been moved so far, and that
nothing is moved only if there is nothing left. `read_none` and `write_none` say that a call of a
sound pattern does not fail, which is what a loop needs to get to its end.
-/

namespace Lib

/-- The results of the calls: given the number of the call and how many octets are to be had. -/
structure Partial : Type where
  result : ℕ → ℕ → Option ℕ
  le : ∀ {i m n : ℕ}, result i m = some n → n ≤ m
  pos : ∀ {i m n : ℕ}, result i m = some n → 0 < m → 0 < n

/-- No call fails. -/
def Partial.Sound (p : Partial) : Prop := ∀ i m, p.result i m ≠ none

/-- An open file, with the number of calls so far. -/
structure Handle : Type where
  content : Bytes
  pos : ℕ
  calls : ℕ
  deriving DecidableEq, Repr

namespace Handle

variable (p : Partial) (h : Handle)

/-- `read(2)` of up to `n` octets. -/
def read (n : ℕ) : Option Bytes × Handle :=
  match p.result h.calls (min n (h.content.length - h.pos)) with
  | none => (none, { h with calls := h.calls + 1 })
  | some k => (some ((h.content.drop h.pos).take k), ⟨h.content, h.pos + k, h.calls + 1⟩)

/-- `write(2)` of these octets, and how many of them are stored. -/
def write (d : Bytes) : Option ℕ × Handle :=
  match p.result h.calls d.length with
  | none => (none, { h with calls := h.calls + 1 })
  | some k => (some k, ⟨store h.content h.pos (d.take k), h.pos + k, h.calls + 1⟩)

variable {p h} {h' : Handle}

/-- A read that fails, and one that brings `k` octets. -/
theorem read_of_none {n : ℕ} (hk : p.result h.calls (min n (h.content.length - h.pos)) = none) :
    h.read p n = (none, { h with calls := h.calls + 1 }) := by
  rw [read, hk]

theorem read_of_some {n k : ℕ}
    (hk : p.result h.calls (min n (h.content.length - h.pos)) = some k) :
    h.read p n =
      (some ((h.content.drop h.pos).take k), ⟨h.content, h.pos + k, h.calls + 1⟩) := by
  rw [read, hk]

/-- What a read brings. -/
theorem read_some {n : ℕ} {d : Bytes} (hr : h.read p n = (some d, h')) :
    d = (h.content.drop h.pos).take d.length ∧ d.length ≤ n ∧
      (d = [] → n = 0 ∨ h.content.length ≤ h.pos) ∧
      h'.content = h.content ∧ h'.pos = h.pos + d.length := by
  cases hk : p.result h.calls (min n (h.content.length - h.pos)) with
  | none =>
    rw [read_of_none hk] at hr
    cases (Prod.mk.inj hr).1
  | some k =>
    rw [read_of_some hk] at hr
    obtain ⟨hd, rfl⟩ := Prod.mk.inj hr
    obtain rfl := Option.some.inj hd
    have hle := p.le hk
    have hlen : ((h.content.drop h.pos).take k).length = k := by
      rw [List.length_take, List.length_drop]
      omega
    refine ⟨by rw [hlen], by omega, fun hnil => ?_, rfl, by rw [hlen]⟩
    rw [hnil, List.length_nil] at hlen
    have hpos := p.pos hk
    omega

theorem read_none {n : ℕ} (hr : (h.read p n).1 = none) : ¬ p.Sound := by
  intro hsound
  cases hk : p.result h.calls (min n (h.content.length - h.pos)) with
  | none => exact hsound _ _ hk
  | some k =>
    rw [read_of_some hk] at hr
    cases hr

/-- What a write leaves. -/
theorem write_some {d : Bytes} {k : ℕ} (hw : h.write p d = (some k, h')) :
    k ≤ d.length ∧ (k = 0 → d = []) ∧ h'.content = store h.content h.pos (d.take k) ∧
      h'.pos = h.pos + k := by
  unfold write at hw
  cases hk : p.result h.calls d.length with
  | none =>
    rw [hk] at hw
    cases (Prod.mk.inj hw).1
  | some j =>
    rw [hk] at hw
    obtain ⟨hj, rfl⟩ := Prod.mk.inj hw
    obtain rfl := Option.some.inj hj
    refine ⟨p.le hk, fun hzero => ?_, rfl, rfl⟩
    by_contra hne
    exact (p.pos hk (List.length_pos_iff.mpr hne)).ne' hzero

theorem write_none {d : Bytes} (hw : (h.write p d).1 = none) : ¬ p.Sound := by
  intro hsound
  unfold write at hw
  cases hk : p.result h.calls d.length with
  | none => exact hsound _ _ hk
  | some k =>
    rw [hk] at hw
    cases hw

end Handle

end Lib
