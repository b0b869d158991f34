import Shfs.Lib.Bytes
import Shfs.Lib.Scan

/-!
# In-place quoting

Paths travel between single quotes, with every quote inside expanded to `'\''`. The kernel side
does this in place: `replaceQuote` is `replace_quote` of shell.c, working in a buffer of
`SHFS_PATH_MAX` octets. It scans forward for the terminator, counting quotes, then moves the text
backwards to its final position, and gives up before the first write when the result would not
fit.

`quoteText` is the expansion as a function of the text, and `replaceQuote_eq` the specification:
either the expansion does not fit and the buffer is left alone, or the buffer holds it. Since the
callers only look at the string in the buffer, the rest of the development uses `checkPath`, whose
specification is `checkPath_eq`.
-/

namespace Shfs

open Lib

/-- `SHFS_PATH_MAX` (shfs.h). -/
abbrev SHFS_PATH_MAX : ℕ := 512

/-- The string a C program sees in a buffer: everything before the first NUL. -/
def cstr (buf : Bytes) : Bytes := buf.takeWhile (· ≠ 0)

/-- A buffer of `SHFS_PATH_MAX` octets holding the string `s`. -/
def pathBuf (s : Bytes) : Bytes := s ++ List.replicate (SHFS_PATH_MAX - s.length) 0

/-! ## `replace_quote` -/

/-- The expansion `replace_quote` computes: `aaa'aaa` becomes `aaa'\''aaa`. -/
def quoteText (s : Bytes) : Bytes :=
    s.flatMap fun c => if c = apos then [apos, bsl, apos, apos] else [c]

/-- The second loop of `replace_quote`. The pointer `r` of the source is one before the `r`
octets not moved yet, `s` is where the next octet goes, `q` counts the quotes left. -/
def replaceQuoteLoop (buf : Bytes) : ℕ → ℕ → ℕ → Bytes
  | 0, _, _ => buf
  | r + 1, s, q =>
    if q = 0 then buf
    else if buf.getD r 0 = apos then
      replaceQuoteLoop
        ((((buf.set (s - 3) apos).set (s - 2) bsl).set (s - 1) apos).set s apos) r (s - 4) (q - 1)
    else replaceQuoteLoop (buf.set s (buf.getD r 0)) r (s - 1) q

/-- `replace_quote`: `none` stands for the result -1, which leaves the buffer as it was. -/
def replaceQuote (name : Bytes) : Option Bytes :=
  let r := (cstr name).length
  let q := (cstr name).count apos
  let s := r + 3 * q
  if s + 1 > SHFS_PATH_MAX then none
  else some (replaceQuoteLoop (name.set s 0) r (s - 1) q)

/-- `check_path`, on the string the caller's path buffer holds: the string after quoting, or
`none` where the source returns 0. -/
def checkPath (path : Bytes) : Option Bytes := (replaceQuote (pathBuf path)).map cstr

@[simp] theorem quoteText_nil : quoteText [] = [] := rfl

theorem quoteText_cons_apos (s : Bytes) :
    quoteText (apos :: s) = apos :: bsl :: apos :: apos :: quoteText s := by
  simp [quoteText]

theorem quoteText_cons_ne {c : Byte} (h : c ≠ apos) (s : Bytes) :
    quoteText (c :: s) = c :: quoteText s := by
  simp [quoteText, h]

theorem quoteText_append (s t : Bytes) : quoteText (s ++ t) = quoteText s ++ quoteText t := by
  simp [quoteText]

/-- Every quote costs three octets. -/
theorem length_quoteText (s : Bytes) : (quoteText s).length = s.length + 3 * s.count apos := by
  induction s with
  | nil => rfl
  | cons c s ih =>
    by_cases h : c = apos
    · subst h
      rw [quoteText_cons_apos, List.count_cons_self]
      simp only [List.length_cons, ih]
      omega
    · rw [quoteText_cons_ne h, List.count_cons_of_ne h]
      simp only [List.length_cons, ih]
      omega

/-- A text without quotes is its own expansion. -/
theorem quoteText_eq_self {s : Bytes} (h : apos ∉ s) : quoteText s = s := by
  induction s with
  | nil => rfl
  | cons c s ih =>
    rw [List.mem_cons, not_or] at h
    rw [quoteText_cons_ne (Ne.symm h.1), ih h.2]

theorem quoteText_eq_self_iff {s : Bytes} : quoteText s = s ↔ apos ∉ s := by
  refine ⟨fun h hmem => ?_, quoteText_eq_self⟩
  have hlen := length_quoteText s
  rw [h] at hlen
  have := List.count_pos_iff.mpr hmem
  omega

/-- The expansion adds quotes and backslashes only. -/
theorem mem_quoteText {s : Bytes} {b : Byte} (h : b ∈ quoteText s) : b ∈ s ∨ b = apos ∨
    b = bsl := by
  obtain ⟨c, hc, hb⟩ := List.mem_flatMap.mp h
  split at hb
  · simp only [List.mem_cons, List.not_mem_nil, or_false] at hb
    tauto
  · rw [List.mem_singleton.mp hb]
    exact Or.inl hc

/-! ### The in-place loop computes the expansion

By induction on the part `p` of the text that has not been moved. The buffer is always `p`, a
gap of three octets for every quote left in `p`, and the part that has its final shape; the gap
is what keeps the writes away from the octets still to be read. -/

theorem set_length_append (l : Bytes) (x : Byte) (t : Bytes) (y : Byte) :
    (l ++ x :: t).set l.length y = l ++ y :: t := by
  rw [List.set_append_right _ _ (Nat.le_refl _), Nat.sub_self, List.set_cons_zero]

/-- The gap that follows an octet, regrouped so that its last octet is in front of `done`. -/
theorem exists_gap_concat (x : Byte) (gap : Bytes) :
    ∃ gap' y, x :: gap = gap' ++ [y] ∧ gap'.length = gap.length :=
  ⟨(x :: gap).dropLast, (x :: gap).getLast (by simp),
    ((x :: gap).dropLast_append_getLast (by simp)).symm, by simp⟩

/-- The gap that follows a quote, with room for the four octets of its expansion. -/
theorem exists_gap_four (x : Byte) (gap : Bytes) (h : 3 ≤ gap.length) : ∃ g y₁ y₂ y₃ y₄,
    x :: gap = g ++ [y₁, y₂, y₃, y₄] ∧ g.length + 3 = gap.length := by
  obtain ⟨g₁, y₄, h₁, l₁⟩ := exists_gap_concat x gap
  obtain ⟨x₁, t₁, rfl⟩ := List.exists_cons_of_length_pos (l := g₁) (by omega)
  obtain ⟨g₂, y₃, h₂, l₂⟩ := exists_gap_concat x₁ t₁
  rw [List.length_cons] at l₁
  obtain ⟨x₂, t₂, rfl⟩ := List.exists_cons_of_length_pos (l := g₂) (by omega)
  obtain ⟨g₃, y₂, h₃, l₃⟩ := exists_gap_concat x₂ t₂
  rw [List.length_cons] at l₂
  obtain ⟨x₃, t₃, rfl⟩ := List.exists_cons_of_length_pos (l := g₃) (by omega)
  obtain ⟨g₄, y₁, h₄, l₄⟩ := exists_gap_concat x₃ t₃
  rw [List.length_cons] at l₃
  refine ⟨g₄, y₁, y₂, y₃, y₄, ?_, by omega⟩
  rw [h₁, h₂, h₃, h₄]
  simp

/-- The four stores of a quote. -/
theorem set_four (l t : Bytes) (y₁ y₂ y₃ y₄ a b c d : Byte) :
    ((((l ++ y₁ :: y₂ :: y₃ :: y₄ :: t).set l.length a).set (l.length + 1) b).set
      (l.length + 2) c).set (l.length + 3) d = l ++ a :: b :: c :: d :: t := by
  simp

theorem replaceQuoteLoop_eq (p : Bytes) : ∀ (gap done : Bytes), gap.length = 3 * p.count apos →
    replaceQuoteLoop (p ++ gap ++ done) p.length (p.length + gap.length - 1) (p.count apos) =
      quoteText p ++ done := by
  -- the loop goes from the end of the text; the gap between the text and what is done has three
  -- octets for each quote that is left
  induction p using List.reverseRecOn with
  | nil =>
    intro gap done hgap
    have : gap = [] := List.eq_nil_of_length_eq_zero (by simpa using hgap)
    subst this
    rfl
  | append_singleton p c ih =>
    intro gap done hgap
    have hlen : (p ++ [c]).length = p.length + 1 := by simp
    rw [hlen, replaceQuoteLoop]
    by_cases hq : (p ++ [c]).count apos = 0
    · -- no quotes left: the gap is closed and the rest is in place
      rw [if_pos hq]
      have hgap0 : gap = [] := List.eq_nil_of_length_eq_zero (by omega)
      rw [quoteText_eq_self (List.count_eq_zero.mp hq), hgap0, List.append_nil]
    · rw [if_neg hq]
      have hread : (p ++ [c] ++ gap ++ done).getD p.length 0 = c := by
        simp
      rw [hread]
      by_cases hc : c = apos
      · -- a quote: four octets are written at the end of the gap
        subst hc
        rw [if_pos rfl]
        have hcount : (p ++ [apos]).count apos = p.count apos + 1 := by simp
        rw [hcount] at hgap ⊢
        obtain ⟨g, y₁, y₂, y₃, y₄, hg, hlen'⟩ := exists_gap_four apos gap (by omega)
        have hglen : g.length = 3 * p.count apos := by omega
        have hbuf : p ++ [apos] ++ gap ++ done = p ++ g ++ y₁ :: y₂ :: y₃ :: y₄ :: done := by
          have : [apos] ++ gap = g ++ [y₁, y₂, y₃, y₄] := hg
          rw [List.append_assoc p, this]
          simp
        have hs : p.length + 1 + gap.length - 1 = (p ++ g).length + 3 := by
          rw [List.length_append]
          omega
        rw [hbuf, hs]
        rw [Nat.add_sub_cancel, show (p ++ g).length + 3 - 2 = (p ++ g).length + 1 from rfl,
          show (p ++ g).length + 3 - 1 = (p ++ g).length + 2 from rfl, set_four]
        have hs' : (p ++ g).length + 3 - 4 = p.length + g.length - 1 := by
          rw [List.length_append]
          omega
        rw [hs', Nat.add_sub_cancel, ih g _ hglen, quoteText_append, quoteText_cons_apos]
        simp
      · -- any other octet moves to the end of the gap
        rw [if_neg hc]
        have hcount : (p ++ [c]).count apos = p.count apos := by
          simp [List.count_append, hc]
        rw [hcount] at hgap ⊢
        obtain ⟨g, y, hg, hglen⟩ := exists_gap_concat c gap
        have hbuf : p ++ [c] ++ gap ++ done = p ++ g ++ y :: done := by
          have : [c] ++ gap = g ++ [y] := hg
          rw [List.append_assoc p, this]
          simp
        have hs : p.length + 1 + gap.length - 1 = (p ++ g).length := by
          rw [List.length_append]
          omega
        rw [hbuf, hs, set_length_append]
        have hs' : (p ++ g).length - 1 = p.length + g.length - 1 := by rw [List.length_append]
        rw [hs', ih g _ (hglen.trans hgap), quoteText_append, quoteText_cons_ne hc]
        simp

theorem cstr_append_zero {s : Bytes} (h : (0 : Byte) ∉ s) (t : Bytes) : cstr (s ++ 0 :: t) = s := by
  have hs : ∀ b ∈ s, decide (b ≠ 0) = true := fun b hb =>
    decide_eq_true fun h0 => h (h0 ▸ hb)
  rw [cstr, List.takeWhile_append_of_pos hs]
  simp

/-- Text without a NUL is the string it is. -/
theorem cstr_eq_self {l : Bytes} (h : (0 : Byte) ∉ l) : cstr l = l := by
  have hl : ∀ b ∈ l, decide (b ≠ 0) = true := fun b hb => decide_eq_true fun h0 => h (h0 ▸ hb)
  rw [cstr, ← List.append_nil l, List.takeWhile_append_of_pos hl, List.takeWhile_nil]

/-- **In-place quoting equals its definition**, for a string `s` with its terminator in a buffer
of `SHFS_PATH_MAX` octets: the expansion is refused exactly when it does not fit, and otherwise
the buffer holds it, terminated, with the octets behind it untouched. -/
theorem replaceQuote_eq {s t : Bytes} (h0 : (0 : Byte) ∉ s)
    (hlen : (s ++ 0 :: t).length = SHFS_PATH_MAX) :
    replaceQuote (s ++ 0 :: t) =
      if (quoteText s).length + 1 > SHFS_PATH_MAX then none
      else some (quoteText s ++ 0 :: t.drop (3 * s.count apos)) := by
  unfold replaceQuote
  simp only [cstr_append_zero h0, ← length_quoteText]
  split
  · rfl
  · next hfit =>
    congr 1
    have hql := length_quoteText s
    simp only [List.length_append, List.length_cons] at hlen
    -- split the octets behind the text into the gap, the new terminator and the rest
    obtain ⟨gap, y, rest, hsplit, hgap, hrest⟩ : ∃ gap y rest, (0 : Byte) :: t = gap ++ y :: rest ∧
        gap.length = 3 * s.count apos ∧ rest = t.drop (3 * s.count apos) := by
      have hlt : 3 * s.count apos < ((0 : Byte) :: t).length := by
        rw [List.length_cons]
        omega
      refine ⟨((0 : Byte) :: t).take (3 * s.count apos), ((0 : Byte) :: t)[3 * s.count apos], _, ?_,
        ?_, rfl⟩
      · rw [show t.drop (3 * s.count apos) = ((0 : Byte) :: t).drop (3 * s.count apos + 1) from rfl,
          ← List.drop_eq_getElem_cons hlt, List.take_append_drop]
      · rw [List.length_take]
        omega
    have hset : (s ++ (0 : Byte) :: t).set (quoteText s).length 0 = s ++ gap ++ 0 :: rest := by
      rw [hsplit, ← List.append_assoc,
        show (quoteText s).length = (s ++ gap).length by rw [List.length_append]; omega,
        set_length_append]
    rw [hset, hql, ← hgap, replaceQuoteLoop_eq s gap _ hgap, hrest, hgap]

/-- `check_path` on a string that fits its buffer. -/
theorem checkPath_eq {s : Bytes} (h0 : (0 : Byte) ∉ s) (hlen : s.length < SHFS_PATH_MAX) :
    checkPath s =
      if (quoteText s).length + 1 > SHFS_PATH_MAX then none else some (quoteText s) := by
  unfold checkPath pathBuf
  have hrep : List.replicate (SHFS_PATH_MAX - s.length) (0 : Byte) =
      0 :: List.replicate (SHFS_PATH_MAX - s.length - 1) 0 := by
    rw [← List.replicate_succ]
    congr 1
    omega
  rw [hrep, replaceQuote_eq h0 (by simp; omega)]
  split
  · rfl
  · have h0' : (0 : Byte) ∉ quoteText s := by
      intro hm
      rcases mem_quoteText hm with h | h | h
      · exact h0 h
      · cases h
      · cases h
    simp [cstr_append_zero h0']

end Shfs
