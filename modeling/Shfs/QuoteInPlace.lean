import Shfs.Lib.Cells
import Shfs.Quote

/-!
# In-place quoting, cell by cell

`replace_quote` with every load and store it does: the two pointers go through the buffer from
behind, and the quotes that are left to be expanded say how far they are apart. `replaceQuoteAt` has
no result when a pointer leaves the buffer.

`replaceQuote` of the text level does the same without looking where it goes. `moveLoop_eq` says
that it goes nowhere else, and that no octet is overwritten before it has been moved: the cells that
have been stored to are all behind the ones that are still to be loaded.
-/

namespace Shfs

open Lib

/-- The first loop of `replace_quote`: where the string ends, and the number of its quotes. `left`
is the number of cells from `r` on. -/
def scanLoop : (left r q : ℕ) → Cells Byte → Option ((ℕ × ℕ) × Cells Byte)
  | 0, _, _, _ => none
  | left + 1, r, q, m => do
    let (c, m) ← m.load r
    if c = 0 then return ((r, q), m)
    else
      let (c, m) ← m.load r
      scanLoop left (r + 1) (if c = apos then q + 1 else q) m

/-- The second loop, with `r` behind the octet that is next to be moved. -/
def moveLoop : (r : ℕ) → (s : ℤ) → (q : ℕ) → Cells Byte → Option (Cells Byte)
  | _, _, 0, m => some m
  | 0, _, _ + 1, m => (m.load (-1)).map Prod.snd
  | r + 1, s, q + 1, m => do
    let (c, m) ← m.load r
    if c = apos then
      let s := s - 3
      let m ← m.store s apos
      let m ← m.store (s + 1) bsl
      let m ← m.store (s + 2) apos
      let m ← m.store (s + 3) apos
      moveLoop r (s - 1) q m
    else
      let (c, m) ← m.load r
      let m ← m.store s c
      moveLoop r (s - 1) (q + 1) m

/-- `replace_quote` -/
def replaceQuoteAt (m : Cells Byte) : Option (ℤ × Cells Byte) := do
  let ((r, q), m) ← scanLoop m.cells.length 0 0 m
  let s := r + 3 * q
  if s + 1 > SHFS_PATH_MAX then return (-1, m)
  else
    let m ← m.store s 0
    let m ← moveLoop r (s - 1) q m
    return (0, m)

variable {cells : Bytes} {log : List Access}

/-- The first loop only loads, up to the NUL. -/
theorem scanLoop_eq (done : Bytes) {s t : Bytes} (h0 : (0 : Byte) ∉ s)
    (hcells : cells = done ++ s ++ 0 :: t) (hlog : ∀ i, Access.store i ∉ log) (horder : InOrder log)
    {left : ℕ} (hleft : s.length < left) (q : ℕ) :
    ∃ log', scanLoop left done.length q ⟨cells, log⟩ =
        some ((done.length + s.length, q + s.count apos), ⟨cells, log'⟩) ∧
      (∀ i, Access.store i ∉ log') ∧ InOrder log' := by
  induction s generalizing done log left q with
  | nil =>
    obtain ⟨left, rfl⟩ := Nat.exists_eq_succ_of_ne_zero (Nat.ne_of_gt hleft)
    have hget : cells[done.length]? = some 0 := by simp [hcells]
    refine ⟨log ++ [.load done.length], ?_, by simpa using hlog, horder.load (hlog _)⟩
    simp only [scanLoop, Cells.load_of_get hget, Option.bind_eq_bind, Option.bind_some, if_true]
    rfl
  | cons c s ih =>
    obtain ⟨left, rfl⟩ := Nat.exists_eq_succ_of_ne_zero (Nat.ne_of_gt (Nat.zero_lt_of_lt hleft))
    rw [List.mem_cons, not_or] at h0
    have hget : cells[done.length]? = some c := by simp [hcells]
    have hlog₁ : ∀ i, Access.store i ∉ log ++ [.load done.length] := by simpa using hlog
    have hlog₂ : ∀ i, Access.store i ∉ log ++ [.load done.length] ++ [.load done.length] := by
      simpa using hlog
    obtain ⟨log', hscan, hlog', horder'⟩ := ih (done ++ [c]) h0.2 (by simp [hcells]) hlog₂
      ((horder.load (hlog _)).load (hlog₁ _)) (Nat.lt_of_succ_lt_succ hleft)
      (if c = apos then q + 1 else q)
    refine ⟨log', ?_, hlog', horder'⟩
    have hcount : (if c = apos then q + 1 else q) + s.count apos = q + (c :: s).count apos := by
      rw [List.count_cons]
      simp only [beq_iff_eq]
      split <;> omega
    have hlength : (done ++ [c]).length + s.length = done.length + (c :: s).length := by
      simp only [List.length_append, List.length_cons, List.length_nil]
      omega
    rw [hcount, hlength, List.length_append] at hscan
    simp only [scanLoop, Cells.load_of_get hget, Option.bind_eq_bind, Option.bind_some,
      if_neg (Ne.symm h0.1)]
    exact hscan

/-- A store behind a part of the buffer leaves that part alone. -/
theorem take_set_of_le {r i : ℕ} (h : r ≤ i) (b : Byte) :
    (cells.set i b).take r = cells.take r := by
  rw [List.take_set, List.set_eq_of_length_le]
  rw [List.length_take]
  omega

/-- **The second loop stays inside the buffer**, stores only behind what it still has to load, and
does what it does on texts. -/
theorem moveLoop_eq {r q : ℕ} {s : ℤ} (hs : s + 1 = r + 3 * q) (hroom : r + 3 * q ≤ cells.length)
    (hq : (cells.take r).count apos = q) (hlog : ∀ i, Access.store i ∈ log → r ≤ i)
    (horder : InOrder log) :
    ∃ log', moveLoop r s q ⟨cells, log⟩ = some ⟨replaceQuoteLoop cells r s.toNat q, log'⟩ ∧
      InOrder log' := by
  -- `r` octets are still to be moved and `q` quotes are among them; all stores so far are behind
  -- `r`, so what is read there is the old text
  induction r generalizing cells log s q with
  | zero =>
    rw [List.take_zero, List.count_nil] at hq
    subst hq
    exact ⟨log, rfl, horder⟩
  | succ r ih =>
    cases q with
    | zero => exact ⟨log, by rw [moveLoop, replaceQuoteLoop, if_pos rfl], horder⟩
    | succ q =>
      have hlt : r < cells.length := by omega
      have hget : cells[r]? = some cells[r] := List.getElem?_eq_getElem hlt
      have hgetD : cells.getD r 0 = cells[r] := by
        rw [List.getD_eq_getElem?_getD, hget, Option.getD_some]
      rw [List.take_add_one, hget, Option.toList_some, List.count_append] at hq
      have hfresh : Access.store r ∉ log := fun h => absurd (hlog r h) (Nat.not_succ_le_self r)
      rw [replaceQuoteLoop, if_neg (Nat.succ_ne_zero q), hgetD]
      simp only [moveLoop, Cells.load_of_get hget, Option.bind_eq_bind, Option.bind_some]
      by_cases hc : cells[r] = apos
      · -- four octets behind, and the quotes that are left are in front of `r`
        rw [hc, List.count_singleton_self, Nat.succ_inj] at hq
        rw [if_pos hc, if_pos hc]
        obtain rfl : s = ((r + 3 * q + 3 : ℕ) : ℤ) := by omega
        have h0 : ((r + 3 * q + 3 : ℕ) : ℤ) - 3 = ((r + 3 * q : ℕ) : ℤ) := by omega
        have h1 : ((r + 3 * q : ℕ) : ℤ) + 1 = ((r + 3 * q + 1 : ℕ) : ℤ) := by omega
        have h2 : ((r + 3 * q : ℕ) : ℤ) + 2 = ((r + 3 * q + 2 : ℕ) : ℤ) := by omega
        have h3 : ((r + 3 * q : ℕ) : ℤ) + 3 = ((r + 3 * q + 3 : ℕ) : ℤ) := by omega
        rw [h0, h1, h2, h3, Cells.store_of_lt (by omega), Option.bind_some,
          Cells.store_of_lt (by rw [List.length_set]; omega), Option.bind_some,
          Cells.store_of_lt (by simp only [List.length_set]; omega), Option.bind_some,
          Cells.store_of_lt (by simp only [List.length_set]; omega), Option.bind_some,
            Int.toNat_natCast]
        have hnext : (((r + 3 * q : ℕ) : ℤ) - 1).toNat = r + 3 * q + 3 - 4 := by omega
        rw [← hnext]
        refine ih (by omega) (by simp only [List.length_set]; omega) ?_ ?_
          ((((horder.load hfresh).store _).store _).store _ |>.store _)
        · rw [take_set_of_le (by omega), take_set_of_le (by omega), take_set_of_le (by omega),
            take_set_of_le (by omega), hq]
        · intro i hi
          simp only [List.append_assoc, List.cons_append, List.nil_append, List.mem_append,
            List.mem_cons, List.not_mem_nil, or_false, reduceCtorEq, false_or,
              Access.store.injEq] at hi
          rcases hi with hi | hi
          · exact Nat.le_of_succ_le (hlog i hi)
          · omega
      · -- one octet behind
        have hcount : [cells[r]].count apos = 0 :=
          List.count_eq_zero.mpr (by simpa using Ne.symm hc)
        rw [hcount, Nat.add_zero] at hq
        rw [if_neg hc, if_neg hc]
        obtain rfl : s = ((r + 3 * (q + 1) : ℕ) : ℤ) := by omega
        have hfresh' : Access.store r ∉ log ++ [.load r] := by simpa using hfresh
        rw [Cells.store_of_lt (by omega), Option.bind_some, Int.toNat_natCast]
        have hnext : (((r + 3 * (q + 1) : ℕ) : ℤ) - 1).toNat = r + 3 * (q + 1) - 1 := by omega
        rw [← hnext]
        refine ih (by omega) (by rw [List.length_set]; omega) ?_ ?_
          (((horder.load hfresh).load hfresh').store _)
        · rw [take_set_of_le (by omega), hq]
        · intro i hi
          simp only [List.append_assoc, List.cons_append, List.nil_append, List.mem_append,
            List.mem_cons, List.not_mem_nil, or_false, reduceCtorEq, false_or,
              Access.store.injEq] at hi
          rcases hi with hi | hi
          · exact Nat.le_of_succ_le (hlog i hi)
          · omega

/-- **In-place quoting, cell by cell**: for a string `s` with its terminator in a buffer of
`SHFS_PATH_MAX` octets, nothing outside of the buffer is touched and no octet is overwritten before
it has been moved. The result is -1, with the buffer as it was, exactly when the expansion of the
string does not fit with its terminator; otherwise it is 0, and the buffer has the expansion. -/
theorem replaceQuoteAt_eq {s t : Bytes} (h0 : (0 : Byte) ∉ s)
    (hlen : (s ++ 0 :: t).length = SHFS_PATH_MAX) :
    ∃ log, InOrder log ∧ replaceQuoteAt ⟨s ++ 0 :: t, []⟩ =
      if (quoteText s).length + 1 > SHFS_PATH_MAX then some (-1, ⟨s ++ 0 :: t, log⟩)
      else some (0, ⟨quoteText s ++ 0 :: t.drop (3 * s.count apos), log⟩) := by
  have hleft : s.length < (s ++ 0 :: t).length := by simp
  obtain ⟨log, hscan, hlog, horder⟩ :=
    scanLoop_eq [] h0 (rfl : s ++ 0 :: t = [] ++ s ++ 0 :: t) (fun _ => List.not_mem_nil) .nil hleft
      0
  rw [List.length_nil, Nat.zero_add, Nat.zero_add] at hscan
  have hql := length_quoteText s
  rw [replaceQuoteAt]
  simp only [hscan, Option.bind_eq_bind, Option.bind_some, Option.pure_def, ← hql]
  by_cases hfit : (quoteText s).length + 1 > SHFS_PATH_MAX
  · exact ⟨log, horder, by rw [if_pos hfit, if_pos hfit]⟩
  · -- the cells in front of the new terminator are the ones to be moved
    have htake : ((s ++ 0 :: t).set (quoteText s).length 0).take s.length = s := by
      rw [take_set_of_le (by omega), List.take_left]
    have hlt : (quoteText s).length < (s ++ 0 :: t).length := by omega
    have heq := replaceQuote_eq h0 hlen
    rw [if_neg hfit, replaceQuote] at heq
    simp only [cstr_append_zero h0, ← hql, if_neg hfit, Option.some.injEq] at heq
    have hbehind : ∀ i, Access.store i ∈ log ++ [.store (quoteText s).length] → s.length ≤ i := by
      intro i hi
      rw [List.mem_append, List.mem_singleton, Access.store.injEq] at hi
      rcases hi with hi | hi
      · exact absurd hi (hlog i)
      · omega
    obtain ⟨log', hmove, horder'⟩ := moveLoop_eq (s := (quoteText s).length - 1) (by omega)
      (by rw [List.length_set]; omega) (congrArg (List.count apos) htake) hbehind
      (horder.store (quoteText s).length)
    have hptr : (((quoteText s).length : ℤ) - 1).toNat = (quoteText s).length - 1 := by omega
    rw [hptr, heq] at hmove
    refine ⟨log', horder', ?_⟩
    rw [if_neg hfit, if_neg hfit, Cells.store_of_lt hlt, Option.bind_some, hmove, Option.bind_some]

/-- `it's`, in front of other octets. -/
theorem replaceQuoteAt_eq_its : ∃ log, InOrder log ∧
    replaceQuoteAt ⟨ascii "it's" ++ 0 :: List.replicate 507 120, []⟩ =
      some (0, ⟨ascii "it'\\''s" ++ 0 :: List.replicate 504 120, log⟩) := by
  have hlen : (ascii "it's" ++ 0 :: List.replicate 507 120).length = SHFS_PATH_MAX := by
    rw [List.length_append, List.length_cons, List.length_replicate]
    rfl
  obtain ⟨log, horder, hrun⟩ := replaceQuoteAt_eq (by decide) hlen
  refine ⟨log, horder, hrun.trans ?_⟩
  rw [if_neg (by decide), List.drop_replicate]
  rfl

end Shfs
