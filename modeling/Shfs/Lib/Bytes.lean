import Mathlib.Data.Nat.Digits.Lemmas
import Mathlib.Data.List.Infix
import Mathlib.Tactic.Ring

/-!
# Byte strings and decimal text

The text layer everything else speaks: byte strings, their decimal numerals (written by the
`%u`/`%d` conversions of C, read back by the `strtoul` family) and lists of words joined by a
separator byte.

* `numeral b n` — the numeral of `n` in base `b`, without leading zeros; `dec` and `oct` are the
  bases the protocol uses.
* `decVal bs` — the value of the digits that `bs` starts with, zero when there are none.
* `joinWith b ws` — the words `ws`, separated by single bytes `b`.

`decVal_dec` says that reading inverts writing whatever follows the numeral, and
`joinWith_inj` that words free of the separator can be told apart after joining.
-/

namespace Lib

/-- One octet. -/
abbrev Byte : Type := UInt8

/-- A string of octets. -/
abbrev Bytes : Type := List Byte

/-- Words are the same when their octets are. -/
instance : LawfulBEq Bytes := inferInstanceAs (LawfulBEq (List Byte))

/-- The octets of an ASCII literal. -/
def ascii (s : String) : Bytes := s.toList.map fun c => UInt8.ofNat c.toNat

/-- Line feed. -/
abbrev nl : Byte := 10

/-- Space. -/
abbrev sp : Byte := 32

/-- Single quote. -/
abbrev apos : Byte := 39

/-- Backslash. -/
abbrev bsl : Byte := 92

/-! ## Decimal numerals -/

/-- The octet of the digit `d`. -/
def digit (d : ℕ) : Byte := UInt8.ofNat (48 + d)

/-- Is this octet one of `0` … `9`? -/
def isDigit (b : Byte) : Bool := 48 ≤ b.toNat && b.toNat ≤ 57

/-- The numeral of `n` in base `b`. -/
def numeral (b n : ℕ) : Bytes :=
  if n = 0 then [digit 0] else (Nat.digits b n).reverse.map digit

/-- `%u`: the decimal numeral of `n`. -/
abbrev dec (n : ℕ) : Bytes := numeral 10 n

/-- `%o`: the octal numeral of `n`. -/
abbrev oct (n : ℕ) : Bytes := numeral 8 n

/-- Continue reading a numeral whose digits so far have the value `acc`. -/
def decValFrom (acc : ℕ) : Bytes → ℕ
  | [] => acc
  | b :: bs => if isDigit b then decValFrom (acc * 10 + (b.toNat - 48)) bs else acc

/-- The value of the digits at the front of a byte string. -/
def decVal (bs : Bytes) : ℕ := decValFrom 0 bs

theorem toNat_digit {d : ℕ} (h : d < 10) : (digit d).toNat = 48 + d := by
  rw [digit, UInt8.toNat_ofNat']
  omega

theorem isDigit_digit {d : ℕ} (h : d < 10) : isDigit (digit d) = true := by
  simp only [isDigit, toNat_digit h, Bool.and_eq_true, decide_eq_true_eq]
  omega

theorem numeral_ne_nil (b n : ℕ) : numeral b n ≠ [] := by
  unfold numeral
  split
  · simp
  · next h => simpa [Nat.digits_ne_nil_iff_ne_zero] using h

/-- A numeral consists of digits. -/
theorem isDigit_of_mem_numeral {b n : ℕ} (h1 : 1 < b) (h10 : b ≤ 10) {c : Byte}
    (h : c ∈ numeral b n) : isDigit c = true := by
  unfold numeral at h
  split at h
  · rw [List.mem_singleton.mp h]
    exact isDigit_digit (by omega)
  · obtain ⟨d, hd, rfl⟩ := List.mem_map.mp h
    have := Nat.digits_lt_base h1 (List.mem_reverse.mp hd)
    exact isDigit_digit (by omega)

theorem isDigit_of_mem_dec {n : ℕ} {c : Byte} (h : c ∈ dec n) : isDigit c = true :=
  isDigit_of_mem_numeral (by omega) (by omega) h

/-- A number below `10 ^ k` has at most `k` digits, and at least one. -/
theorem length_dec_le {n k : ℕ} (hk : 0 < k) (h : n < 10 ^ k) : (dec n).length ≤ k := by
  unfold dec numeral
  split
  · exact hk
  · rw [List.length_map, List.length_reverse]
    exact Nat.digits_length_le_iff (by omega) n |>.mpr h

/-- A digit is none of the octets the line syntax gives a meaning to. -/
theorem ne_of_isDigit {b c : Byte} (h : isDigit b = true) (hc : isDigit c = false) : b ≠ c := by
  rintro rfl
  rw [h] at hc
  cases hc

/-- Reading a list of digits appends them to what was read before. -/
theorem decValFrom_map_digit (ds : List ℕ) (hds : ∀ d ∈ ds, d < 10) (acc : ℕ) (rest : Bytes) :
    decValFrom acc (ds.map digit ++ rest) =
      decValFrom (ds.foldl (fun a d => a * 10 + d) acc) rest := by
  induction ds generalizing acc with
  | nil => rfl
  | cons d ds ih =>
    have hd : d < 10 := hds d (List.mem_cons_self ..)
    have hval : (digit d).toNat - 48 = d := by rw [toNat_digit hd]; omega
    simp only [List.map_cons, List.cons_append, decValFrom, isDigit_digit hd, if_true, hval,
      List.foldl_cons]
    exact ih (fun d' h => hds d' (List.mem_cons_of_mem _ h)) _

/-- The most-significant-first fold over the reversed digits is the number. -/
theorem foldl_reverse_digits (n : ℕ) :
    (Nat.digits 10 n).reverse.foldl (fun a d => a * 10 + d) 0 = n := by
  rw [List.foldl_reverse]
  have h := Nat.ofDigits_eq_foldr 10 (Nat.digits 10 n)
  rw [Nat.ofDigits_digits] at h
  conv_rhs => rw [h]
  congr 1
  funext d a
  simp only [Nat.cast_id]
  ring

/-- **Reading inverts writing**: the numeral of `n`, followed by anything that does not start
with a digit, reads back as `n`. -/
theorem decVal_dec (n : ℕ) (rest : Bytes) (h : ∀ b ∈ rest.head?, isDigit b = false) :
    decVal (dec n ++ rest) = n := by
  have hstop : ∀ acc, decValFrom acc rest = acc := by
    intro acc
    cases rest with
    | nil => rfl
    | cons b bs => simp [decValFrom, h b rfl]
  unfold decVal dec numeral
  split
  · next h0 =>
    subst h0
    have := decValFrom_map_digit [0] (by simp) 0 rest
    simpa [hstop] using this
  · rw [decValFrom_map_digit _ _ 0 rest, foldl_reverse_digits, hstop]
    intro d hd
    exact Nat.digits_lt_base (by omega) (List.mem_reverse.mp hd)

@[simp] theorem decVal_dec_self (n : ℕ) : decVal (dec n) = n := by
  have h := decVal_dec n [] (by simp)
  rwa [List.append_nil] at h

theorem dec_injective : Function.Injective dec := by
  intro m n h
  rw [← decVal_dec_self m, h, decVal_dec_self]

/-! ## Words joined by a separator -/

/-- The words `ws` with single separators `b` between them. -/
def joinWith (b : Byte) (ws : List Bytes) : Bytes := [b].intercalate ws

@[simp] theorem joinWith_nil (b : Byte) : joinWith b [] = [] := rfl

@[simp] theorem joinWith_singleton (b : Byte) (w : Bytes) : joinWith b [w] = w := by
  simp [joinWith, List.intercalate]

@[simp] theorem joinWith_cons_cons (b : Byte) (v w : Bytes) (ws : List Bytes) :
    joinWith b (v :: w :: ws) = v ++ b :: joinWith b (w :: ws) := by
  simp [joinWith, List.intercalate]

/-- Joining writes one separator before each word but the first. -/
theorem joinWith_flatMap (b : Byte) (w : Bytes) (ws : List Bytes) :
    joinWith b (w :: ws) = w ++ ws.flatMap (b :: ·) := by
  induction ws generalizing w with
  | nil => rw [joinWith_singleton, List.flatMap_nil, List.append_nil]
  | cons v vs ih => rw [joinWith_cons_cons, ih, List.flatMap_cons, List.cons_append]

/-- Joining writes one separator after each word but the last. -/
theorem joinWith_append_sep (b : Byte) {ws : List Bytes} (h : ws ≠ []) :
    joinWith b ws ++ [b] = ws.flatMap fun w => w ++ [b] := by
  induction ws with
  | nil => exact absurd rfl h
  | cons w ws ih =>
    cases ws with
    | nil => simp
    | cons v vs =>
      have := ih (by simp)
      rw [joinWith_cons_cons, List.flatMap_cons, ← this]
      simp

/-- Joining makes no new octets but the separator. -/
theorem mem_of_mem_joinWith {b c : Byte} {ws : List Bytes} (h : c ∈ joinWith b ws) :
    c = b ∨ ∃ w ∈ ws, c ∈ w := by
  by_cases hws : ws = []
  · subst hws
    cases h
  · have hmem := List.mem_append_left [b] h
    rw [joinWith_append_sep b hws] at hmem
    obtain ⟨w, hw, hc⟩ := List.mem_flatMap.mp hmem
    rcases List.mem_append.mp hc with hc | hc
    · exact Or.inr ⟨w, hw, hc⟩
    · exact Or.inl (List.mem_singleton.mp hc)

/-- Splitting makes no new octets. -/
theorem mem_of_mem_splitOn {b c : Byte} {bs w : Bytes} (hw : w ∈ bs.splitOn b) (hc : c ∈ w) :
    c ∈ bs := by
  induction bs generalizing w with
  | nil =>
    obtain rfl : w = [] := by simpa using hw
    cases hc
  | cons x xs ih =>
    rw [List.splitOn_cons_eq_if_modifyHead] at hw
    split at hw
    · rcases List.mem_cons.mp hw with rfl | hw
      · cases hc
      · exact List.mem_cons_of_mem _ (ih hw hc)
    · obtain ⟨v, vs, hvs⟩ := List.exists_cons_of_ne_nil (List.splitOn_ne_nil b xs)
      rw [hvs] at hw ih
      rcases List.mem_cons.mp hw with rfl | hw
      · rcases List.mem_cons.mp hc with rfl | hc
        · exact List.mem_cons_self ..
        · exact List.mem_cons_of_mem _ (ih (List.mem_cons_self ..) hc)
      · exact List.mem_cons_of_mem _ (ih (List.mem_cons_of_mem _ hw) hc)

/-- The parts do not contain the separator. -/
theorem sep_notMem_of_mem_splitOn {b : Byte} {bs w : Bytes} (hw : w ∈ bs.splitOn b) : b ∉ w := by
  induction bs generalizing w with
  | nil =>
    obtain rfl : w = [] := by simpa using hw
    exact List.not_mem_nil
  | cons x xs ih =>
    rw [List.splitOn_cons_eq_if_modifyHead] at hw
    split at hw
    · rcases List.mem_cons.mp hw with rfl | hw
      · exact List.not_mem_nil
      · exact ih hw
    · next hx =>
      obtain ⟨v, vs, hvs⟩ := List.exists_cons_of_ne_nil (List.splitOn_ne_nil b xs)
      rw [hvs] at hw ih
      rcases List.mem_cons.mp hw with rfl | hw
      · have hne : b ≠ x := fun h => hx (beq_iff_eq.mpr h.symm)
        exact List.not_mem_cons_of_ne_of_not_mem hne (ih (List.mem_cons_self ..))
      · exact ih (List.mem_cons_of_mem _ hw)

/-- Words that do not contain the separator are determined by the joined text. -/
theorem joinWith_inj {b : Byte} {vs ws : List Bytes} (hv : ∀ w ∈ vs, b ∉ w)
    (hw : ∀ w ∈ ws, b ∉ w) (hv0 : vs ≠ []) (hw0 : ws ≠ [])
    (h : joinWith b vs = joinWith b ws) : vs = ws := by
  rw [← List.splitOn_intercalate b hv hv0, ← List.splitOn_intercalate b hw hw0]
  exact congrArg _ h

end Lib
