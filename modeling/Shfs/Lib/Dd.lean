import Shfs.Lib.Image
import Mathlib.Data.List.Basic

/-!
# Copies in blocks

What `dd` copies from an image with a block size, some blocks to skip and some to copy. A block at
the end of the image may be short; with `conv=sync` it is filled up with zeros. Behind the copy
stands a report: how many whole and how many short blocks have been read, and how many have been
written.

A caller who wants to know whether all blocks have come looks for `N+0` in the report.
`finds_report_iff` says that this is right: a short block that has been filled up is written as a
whole one. `length_padded_iff` is about a caller who appends as many zeros as he asked for when it
is not: then he has the right number of octets if either all blocks were there or none.
-/

namespace Lib

/-- The octets of some blocks. -/
def blocks (f : Bytes) (bs skip count : ℕ) : Bytes := (f.drop (bs * skip)).take (bs * count)

/-- The whole blocks in some octets. -/
def wholeBlocks (bs : ℕ) (d : Bytes) : ℕ := d.length / bs

/-- The short block at the end, if there is one. -/
def shortBlocks (bs : ℕ) (d : Bytes) : ℕ := if d.length % bs = 0 then 0 else 1

/-- All blocks. -/
def allBlocks (bs : ℕ) (d : Bytes) : ℕ := wholeBlocks bs d + shortBlocks bs d

/-- `conv=sync` -/
def padBlocks (bs : ℕ) (d : Bytes) : Bytes :=
  d ++ List.replicate (bs * allBlocks bs d - d.length) 0

/-- The report. -/
def blockReport (whole short : ℕ) : List Bytes :=
  [dec whole ++ 43 :: (dec short ++ ascii " records in"),
    dec (whole + short) ++ 43 :: (dec 0 ++ ascii " records out")]

/-- `grep` finds `count+0`. -/
def Finds (count : ℕ) (report : List Bytes) : Prop :=
  ∃ line ∈ report, dec count ++ 43 :: dec 0 <:+: line

variable {f d : Bytes} {bs skip count : ℕ}

/-! ## Octets -/

theorem length_blocks (f : Bytes) (bs skip count : ℕ) :
    (blocks f bs skip count).length = min (bs * count) (f.length - bs * skip) := by
  rw [blocks, List.length_take, List.length_drop]

theorem length_blocks_le (f : Bytes) (bs skip count : ℕ) :
    (blocks f bs skip count).length ≤ bs * count :=
  List.length_take_le _ _

/-- With blocks of one octet, all octets are blocks. -/
theorem allBlocks_one (d : Bytes) : allBlocks 1 d = d.length := by
  simp [allBlocks, wholeBlocks, shortBlocks, Nat.mod_one]

/-- Blocks are as long as they can be. -/
theorem allBlocks_bounds (h : 0 < bs) (d : Bytes) :
    d.length ≤ bs * allBlocks bs d ∧ bs * allBlocks bs d < d.length + bs := by
  have hdiv := Nat.div_add_mod d.length bs
  have hlt := Nat.mod_lt d.length h
  unfold allBlocks wholeBlocks shortBlocks
  rw [Nat.mul_add]
  split
  · omega
  · omega

/-- There are no blocks only if there are no octets. -/
theorem allBlocks_eq_zero_iff (h : 0 < bs) : allBlocks bs d = 0 ↔ d = [] := by
  have hle := (allBlocks_bounds h d).1
  constructor
  · intro h0
    rw [h0, Nat.mul_zero] at hle
    exact List.length_eq_zero_iff.mp (Nat.le_zero.mp hle)
  · rintro rfl
    simp [allBlocks, wholeBlocks, shortBlocks]

theorem padBlocks_nil (bs : ℕ) : padBlocks bs [] = [] := by
  simp [padBlocks, allBlocks, wholeBlocks, shortBlocks]

/-- Not more blocks than fit in that many octets. -/
theorem allBlocks_le (h : 0 < bs) (hd : d.length ≤ bs * count) : allBlocks bs d ≤ count := by
  have hlt := (allBlocks_bounds h d).2
  have hsucc : bs * allBlocks bs d < bs * (count + 1) := by
    rw [Nat.mul_add, Nat.mul_one]
    omega
  exact Nat.lt_succ_iff.mp (Nat.lt_of_mul_lt_mul_left hsucc)

/-- All blocks are a fetch. -/
theorem padBlocks_eq_fetch
    (hall : allBlocks bs (blocks f bs skip count) = count) :
    padBlocks bs (blocks f bs skip count) = fetch f (bs * skip) (bs * count) := by
  rw [padBlocks, hall, fetch, blocks, List.length_take, List.length_drop]
  congr 2
  omega

/-- No block at all, and zeros, are a fetch. -/
theorem fetch_of_no_blocks (h : blocks f bs skip count = []) :
    List.replicate (bs * count) 0 = fetch f (bs * skip) (bs * count) := by
  have hlen : ((f.drop (bs * skip)).take (bs * count)).length = 0 := by
    rw [← blocks, h]
    rfl
  rw [List.length_take, List.length_drop] at hlen
  rw [fetch, ← blocks, h, List.nil_append]
  congr 1
  omega

/-! ## The report -/

theorem decValFrom_le (bs : Bytes) {m n : ℕ} (h : m ≤ n) : decValFrom m bs ≤ decValFrom n bs := by
  induction bs generalizing m n with
  | nil => exact h
  | cons b bs ih =>
    rw [decValFrom, decValFrom]
    split
    · exact ih (by omega)
    · exact h

/-- Digits in front make a number larger. -/
theorem decVal_le_append {u : Bytes} (hu : ∀ b ∈ u, isDigit b = true) (v : Bytes) :
    decVal v ≤ decVal (u ++ v) := by
  have key : ∀ acc, decValFrom 0 v ≤ decValFrom acc (u ++ v) := by
    induction u with
    | nil => exact fun acc => decValFrom_le v (Nat.zero_le _)
    | cons b u ih =>
      intro acc
      rw [List.cons_append, decValFrom, if_pos (hu b (List.mem_cons_self ..))]
      exact ih (fun c hc => hu c (List.mem_cons_of_mem _ hc)) _
  exact key 0

/-- The numeral of a number ends with the numerals of smaller numbers only. -/
theorem le_of_dec_suffix {m n : ℕ} (h : dec m <:+ dec n) : m ≤ n := by
  obtain ⟨u, hu⟩ := h
  have hdigits : ∀ b ∈ u, isDigit b = true := fun b hb =>
    isDigit_of_mem_dec (n := n) (hu ▸ List.mem_append_left _ hb)
  have hle := decVal_le_append hdigits (dec m)
  rwa [hu, decVal_dec_self, decVal_dec_self] at hle

/-- **A text around a mark** that occurs once is found only around the mark: what is in front of the
mark is the end of what is in front of it, and what is behind is the beginning. -/
theorem infix_mark_iff {c : Byte} {a r u v : Bytes} (ha : c ∉ a) (hr : c ∉ r) :
    u ++ c :: v <:+: a ++ c :: r ↔ u <:+ a ∧ v <+: r := by
  constructor
  · rintro ⟨x, y, h⟩
    have h' : (x ++ u) ++ c :: (v ++ y) = a ++ c :: r := by
      rw [← h]
      simp only [List.append_assoc, List.cons_append]
    obtain ⟨rfl, -, rfl⟩ := (List.append_cons_inj_of_notMem ha hr).mp h'.symm
    exact ⟨⟨x, rfl⟩, y, rfl⟩
  · rintro ⟨⟨x, rfl⟩, y, rfl⟩
    exact ⟨x, y, by simp only [List.append_assoc, List.cons_append]⟩

/-- **`grep` finds the count** exactly if all blocks have been read. The report has the whole blocks
and the short one, and the pattern is looked for anywhere in it. -/
theorem finds_report_iff {whole short : ℕ} (hle : whole + short ≤ count) :
    Finds count (blockReport whole short) ↔ whole + short = count := by
  have hdec : ∀ n : ℕ, (43 : Byte) ∉ dec n := fun n hn =>
    absurd (isDigit_of_mem_dec hn) (by decide)
  have htext : ∀ (n : ℕ) {t : Bytes}, (43 : Byte) ∉ t → (43 : Byte) ∉ dec n ++ t := by
    intro n t ht hmem
    exact (List.mem_append.mp hmem).elim (hdec n) ht
  constructor
  · rintro ⟨line, hline, hinfix⟩
    rcases List.mem_cons.mp hline with rfl | hline
    · obtain ⟨hsuffix, -⟩ := (infix_mark_iff (hdec _) (htext _ (by decide))).mp hinfix
      have := le_of_dec_suffix hsuffix
      omega
    · obtain rfl := List.mem_singleton.mp hline
      obtain ⟨hsuffix, -⟩ := (infix_mark_iff (hdec _) (htext _ (by decide))).mp hinfix
      exact hle.antisymm (le_of_dec_suffix hsuffix)
  · rintro rfl
    refine ⟨_, List.mem_cons_of_mem _ (List.mem_cons_self ..), ?_⟩
    exact (infix_mark_iff (hdec _) (htext _ (by decide))).mpr ⟨List.suffix_rfl, _, rfl⟩

/-! ## Filling up -/

/-- A copy with `conv=sync`, and as many zeros as have been asked for where `grep` does not find
the count. -/
def filledUp (f : Bytes) (bs skip count : ℕ) (found : Prop) [Decidable found] : Bytes :=
  let d := blocks f bs skip count
  if found then padBlocks bs d else padBlocks bs d ++ List.replicate (bs * count) 0

section FilledUp

variable {found : Prop} [Decidable found]

/-- **The octets** are then those of the image, filled up with zeros to as many as were asked for.
-/
theorem filledUp_eq_fetch
    (hfound : found ↔ allBlocks bs (blocks f bs skip count) = count)
    (hall : allBlocks bs (blocks f bs skip count) = count ∨ blocks f bs skip count = []) :
    filledUp f bs skip count found = fetch f (bs * skip) (bs * count) := by
  rw [filledUp]
  split
  · next hf => exact padBlocks_eq_fetch (hfound.mp hf)
  · next hf =>
    have hnil := hall.resolve_left fun hall => hf (hfound.mpr hall)
    rw [hnil, padBlocks_nil, List.nil_append]
    exact fetch_of_no_blocks hnil

end FilledUp

end Lib
