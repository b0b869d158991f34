import Shfs.Lib.Bytes

/-!
# Lines of a stream, through a buffer of fixed size

A reader that collects a line in a buffer of `max` octets takes the octets up to the next line
feed; when the buffer is full before one turns up, the last octet in it is given up for the line
feed and the line ends there. `nextLine max bs` is that line together with the number of octets
taken from the stream, and `none` as long as the stream does not decide.

`nextLine` looks at no more of the stream than it takes (`nextLine_append`), so what it answers
does not depend on how much of the rest has already arrived.
-/

namespace Lib

/-- The next line of a stream, read through a buffer of `max` octets, and the number of octets it
takes with its end. -/
def nextLine (max : ℕ) (bs : Bytes) : Option (Bytes × ℕ) :=
  if nl ∈ bs.take max then some (bs.takeWhile (· ≠ nl), (bs.takeWhile (· ≠ nl)).length + 1)
  else if max ≤ bs.length then some (bs.take (max - 1), max)
  else none

variable {max : ℕ} {bs l rest : Bytes} {n : ℕ}

/-- Text without a line feed, and the first line feed behind it. -/
theorem takeWhile_ne_nl (h : nl ∉ l) : (l ++ nl :: rest).takeWhile (· ≠ nl) = l := by
  have hall : ∀ b ∈ l, decide (b ≠ nl) = true := by
    intro b hb
    simpa using fun heq : b = nl => h (heq ▸ hb)
  rw [List.takeWhile_append_of_pos hall]
  simp

/-- A string with a line feed is a line, its end and a rest. -/
theorem exists_line_of_mem (h : nl ∈ bs) : ∃ l rest, bs = l ++ nl :: rest ∧ nl ∉ l := by
  induction bs with
  | nil => cases h
  | cons b bs ih =>
    by_cases hb : b = nl
    · subst hb
      exact ⟨[], bs, rfl, by simp⟩
    · obtain ⟨l, rest, rfl, hl⟩ := ih ((List.mem_cons.mp h).resolve_left (Ne.symm hb))
      refine ⟨b :: l, rest, rfl, ?_⟩
      simp only [List.mem_cons, not_or]
      exact ⟨Ne.symm hb, hl⟩

/-- **A line that fits** in the buffer is read as it is, and taken off the stream with its line
feed. -/
theorem nextLine_of_fits (h : nl ∉ l) (hlen : l.length < max) :
    nextLine max (l ++ nl :: rest) = some (l, l.length + 1) := by
  have hmem : nl ∈ (l ++ nl :: rest).take max := by
    rw [List.take_append, List.take_of_length_le (by omega)]
    obtain ⟨k, hk⟩ : ∃ k, max - l.length = k + 1 := ⟨max - l.length - 1, by omega⟩
    rw [hk, List.take_succ_cons]
    simp
  rw [nextLine, if_pos hmem, takeWhile_ne_nl h]

/-- A line that does not fit loses its last buffered octet and ends there. -/
theorem nextLine_of_full (h : nl ∉ bs.take max) (hlen : max ≤ bs.length) :
    nextLine max bs = some (bs.take (max - 1), max) := by
  rw [nextLine, if_neg h, if_pos hlen]

theorem nextLine_eq_none_iff : nextLine max bs = none ↔ nl ∉ bs ∧ bs.length < max := by
  unfold nextLine
  split
  · next h =>
    simp only [reduceCtorEq, false_iff, not_and]
    exact fun hn => absurd (List.mem_of_mem_take h) hn
  · next h =>
    split
    · simp only [reduceCtorEq, false_iff, not_and]
      omega
    · next hlen =>
      rw [List.take_of_length_le (by omega)] at h
      simp only [true_iff]
      exact ⟨h, by omega⟩

/-- The two ways a line is found. -/
theorem nextLine_eq_some (h : nextLine max bs = some (l, n)) :
    (∃ rest, bs = l ++ nl :: rest ∧ nl ∉ l ∧ l.length < max ∧ n = l.length + 1) ∨
      (nl ∉ bs.take max ∧ max ≤ bs.length ∧ l = bs.take (max - 1) ∧ n = max) := by
  unfold nextLine at h
  split at h
  · next hmem =>
    obtain ⟨l', rest, hbs, hl'⟩ := exists_line_of_mem (List.mem_of_mem_take hmem)
    subst hbs
    rw [takeWhile_ne_nl hl'] at h
    obtain ⟨rfl, rfl⟩ := Prod.mk.inj (Option.some.inj h)
    refine Or.inl ⟨rest, rfl, hl', ?_, rfl⟩
    by_contra hlen
    rw [List.take_append_of_le_length (by omega)] at hmem
    exact hl' (List.mem_of_mem_take hmem)
  · next hmem =>
    split at h
    · next hlen =>
      obtain ⟨rfl, rfl⟩ := Prod.mk.inj (Option.some.inj h)
      exact Or.inr ⟨hmem, hlen, rfl, rfl⟩
    · cases h

/-- What is taken is there. -/
theorem nextLine_le_length (h : nextLine max bs = some (l, n)) : n ≤ bs.length := by
  rcases nextLine_eq_some h with ⟨rest, rfl, -, -, rfl⟩ | ⟨-, hlen, -, rfl⟩
  · simp
  · exact hlen

theorem nextLine_pos (hmax : 0 < max) (h : nextLine max bs = some (l, n)) : 0 < n := by
  rcases nextLine_eq_some h with ⟨-, -, -, -, rfl⟩ | ⟨-, -, -, rfl⟩
  · omega
  · exact hmax

/-- A line is shorter than the buffer. -/
theorem nextLine_length_lt (hmax : 0 < max) (h : nextLine max bs = some (l, n)) :
    l.length < max := by
  rcases nextLine_eq_some h with ⟨-, -, -, hlen, -⟩ | ⟨-, -, rfl, -⟩
  · exact hlen
  · rw [List.length_take]
    omega

/-- **More of the stream does not change the line.** A line that can be read is complete, or as long
as the buffer. -/
theorem nextLine_append (h : nextLine max bs = some (l, n)) (more : Bytes) :
    nextLine max (bs ++ more) = some (l, n) := by
  rcases nextLine_eq_some h with ⟨rest, rfl, hl, hlen, rfl⟩ | ⟨hmem, hlen, rfl, rfl⟩
  · rw [List.append_assoc, List.cons_append]
    exact nextLine_of_fits hl hlen
  · rw [nextLine_of_full (by rwa [List.take_append_of_le_length hlen]) (by simp; omega),
      List.take_append_of_le_length (by omega)]

/-- The lines of a stream, as long as there are complete ones; `fuel` bounds their number. -/
def linesAux (max : ℕ) : ℕ → Bytes → List Bytes
  | 0, _ => []
  | fuel + 1, bs =>
    match nextLine max bs with
    | none => []
    | some (l, n) => l :: linesAux max fuel (bs.drop n)

/-- All complete lines of a stream. -/
def lines (max : ℕ) (bs : Bytes) : List Bytes := linesAux max bs.length bs

/-- Enough fuel is enough. -/
theorem linesAux_eq_lines (hmax : 0 < max) {fuel : ℕ} (h : bs.length ≤ fuel) :
    linesAux max fuel bs = lines max bs := by
  unfold lines
  induction fuel using Nat.strong_induction_on generalizing bs with
  | _ fuel ih =>
    cases fuel with
    | zero => rw [Nat.le_zero.mp h]
    | succ fuel =>
      rcases hb : bs.length with _ | k
      · have hnil : bs = [] := List.length_eq_zero_iff.mp hb
        have hnone : nextLine max bs = none := nextLine_eq_none_iff.mpr ⟨by simp [hnil], by omega⟩
        simp only [linesAux, hnone]
      · simp only [linesAux]
        rcases hn : nextLine max bs with _ | ⟨l, n⟩
        · rfl
        · have hpos := nextLine_pos hmax hn
          have hlen : (bs.drop n).length ≤ k := by
            rw [List.length_drop]
            omega
          simp only
          rw [ih fuel (Nat.lt_succ_self _) (by omega)]
          rcases Nat.lt_or_ge k (fuel + 1) with hk | hk
          · rw [ih k hk hlen]
          · omega

/-- The first of the lines, and the others. -/
theorem lines_of_nextLine (hmax : 0 < max) (h : nextLine max bs = some (l, n)) :
    lines max bs = l :: lines max (bs.drop n) := by
  have hpos := nextLine_pos hmax h
  have hle := nextLine_le_length h
  obtain ⟨k, hk⟩ : ∃ k, bs.length = k + 1 := ⟨bs.length - 1, by omega⟩
  rw [lines, hk, linesAux, h]
  simp only
  rw [linesAux_eq_lines hmax]
  rw [List.length_drop]
  omega

end Lib
