import Shfs.Lib.Cells
import Shfs.Overrun
import Shfs.SameFile

/-!
# Building a path, cell by cell

`get_name` with every store it does. The first walk up the chain of dentries says where the path
ends; the second one fills the buffer from there to the front, with an index that has to be 0 when
the root is reached. `getNameAt` has no result when a store leaves the buffer.

`getName` of the text level does the same without looking where it goes. Each walk is a recursion on
the dentry. What they agree on is the index: below a dentry it is the length of its path. So the
path is built (`buildsName_of_lt`), and the two levels have the same result and the same string
(`getNameAt_eq`).
-/

namespace Shfs

open Lib

/-- What an `int` keeps of a number. -/
def int32 (n : ℤ) : ℤ := n.bmod (2 ^ 32)

/-- The first loop of `get_name`. -/
def sumLoop : Dentry → ℤ → ℤ
  | .root, len => len
  | .child parent name, len => sumLoop parent (int32 (len + (name.length + 1)))

/-- The second loop of `get_name`. -/
def fillLoop : Dentry → ℤ → Cells Byte → Option (Cells Byte)
  | .root, _, m => some m
  | .child parent name, len, m => do
    let len := int32 (len - name.length)
    let m ← m.storeAll len (strncpy name name.length)
    let len := int32 (len - 1)
    let m ← m.store len 47
    fillLoop parent len m

/-- `get_name` -/
def getNameAt (d : Dentry) (m : Cells Byte) : Option (ℤ × Cells Byte) :=
  let len := sumLoop d 0
  -- at the largest `int` the sum wraps around, and the path counts as short
  if int32 (len + 1) > SHFS_PATH_MAX then some (0, m)
  else if len = 0 then do
    let m ← m.store 0 47
    let m ← m.store 1 0
    return (1, m)
  else do
    let m ← m.store len 0
    let m ← fillLoop d len m
    return (1, m)

/-- What `get_name` is for: a path that does not fit is refused with the buffer left alone; any
other one is in the buffer then, with a NUL behind it, and each of these octets has been stored to
once, and no other cell. -/
def BuildsName (d : Dentry) (cells : Bytes) : Prop :=
  if d.path.length + 1 > SHFS_PATH_MAX then getNameAt d ⟨cells, []⟩ = some (0, ⟨cells, []⟩)
  else ∃ stores : List ℕ, stores.Perm (List.range (d.text.length + 1)) ∧
    getNameAt d ⟨cells, []⟩ =
      some (1, ⟨d.text ++ 0 :: cells.drop (d.text.length + 1), stores.map .store⟩)

/-! ## The two loops -/

variable {d : Dentry} {cells : Bytes}

theorem int32_eq {n : ℤ} (h0 : 0 ≤ n) (h : n < 2 ^ 31) : int32 n = n := by
  obtain ⟨k, rfl⟩ := Int.eq_ofNat_of_zero_le h0
  exact asInt_of_lt (by omega)

/-- The first loop counts the octets of the path. -/
theorem sumLoop_eq {n : ℕ} (h : n + d.len < 2 ^ 31) : sumLoop d n = (n + d.len : ℕ) := by
  induction d generalizing n with
  | root => rfl
  | child parent name ih =>
    rw [Dentry.len] at h ⊢
    have hsum : int32 ((n : ℤ) + (name.length + 1)) = (n + (name.length + 1) : ℕ) :=
      int32_eq (by omega) (by omega)
    have hrest : n + (name.length + 1) + parent.len < 2 ^ 31 := by omega
    rw [sumLoop, hsum, ih hrest, Nat.add_right_comm, Nat.add_assoc]

theorem sumLoop_zero (d : Dentry) (h : d.len < 2 ^ 31) : sumLoop d 0 = d.len := by
  have hsum : 0 + d.len < 2 ^ 31 := by omega
  rw [← Int.natCast_zero, sumLoop_eq hsum, Nat.zero_add]

/-- A name is copied as it is: it has no NUL. -/
theorem strncpy_eq_self {name : Bytes} (h : (0 : Byte) ∉ name) :
    strncpy name name.length = name := by
  rw [strncpy, cstr_eq_self h, List.take_length, Nat.sub_self, List.replicate_zero, List.append_nil]

/-- A part of a buffer that is as long as the path of a child: first the path of the parent, then
the slash, then the name. -/
theorem exists_split {k n : ℕ} (h : cells.length = k + (n + 1)) :
    ∃ front slash name, cells = front ++ slash :: name ∧ front.length = k ∧ name.length = n := by
  have hlt : k < cells.length := by omega
  refine ⟨cells.take k, cells[k], cells.drop (k + 1), ?_, ?_, ?_⟩
  · rw [← List.drop_eq_getElem_cons hlt, List.take_append_drop]
  · exact List.length_take_of_le hlt.le
  · rw [List.length_drop]
    omega

/-- One dentry of the second loop: its name and the slash in front of it. -/
theorem fillLoop_child (parent : Dentry) {name front under : Bytes} (h0 : (0 : Byte) ∉ name)
    (hunder : under.length = name.length) (hlt : front.length + (name.length + 1) < 2 ^ 31)
    (slash : Byte) (back : Bytes) (log : List Access) :
    fillLoop (.child parent name) (front.length + (name.length + 1) : ℕ)
        ⟨front ++ slash :: (under ++ back), log⟩ =
      fillLoop parent front.length ⟨front ++ 47 :: (name ++ back),
        log ++ (List.range' (front.length + 1) name.length ++ [front.length]).map .store⟩ := by
  have hname : int32 ((front.length + (name.length + 1) : ℕ) - name.length) =
      (front.length + 1 : ℕ) := by
    rw [int32_eq (by omega) (by omega)]
    omega
  have hslash : int32 ((front.length + 1 : ℕ) - 1) = front.length := by
    rw [int32_eq (by omega) (by omega)]
    omega
  have hcopy := Cells.storeAll_append (front ++ [slash]) hunder back log
  rw [List.length_append, List.length_singleton, List.append_assoc, List.singleton_append,
    List.append_assoc, List.singleton_append] at hcopy
  simp only [fillLoop, hname, strncpy_eq_self h0, hcopy, Option.bind_eq_bind, Option.bind_some,
    hslash, Cells.store_append, List.map_append, List.map_singleton, List.append_assoc]

/-- **The second loop fills the part of the buffer it starts behind**: the path takes the place of
as many octets, each of them is stored to once, and nothing behind is touched. -/
theorem fillLoop_eq (h0 : (0 : Byte) ∉ d.path) (hlen : d.len < 2 ^ 31) {old : Bytes}
    (hold : old.length = d.len) (back : Bytes) (log : List Access) :
    ∃ stores : List ℕ, stores.Perm (List.range d.len) ∧
      fillLoop d d.len ⟨old ++ back, log⟩ = some ⟨d.path ++ back, log ++ stores.map .store⟩ := by
  induction d generalizing old back log with
  | root =>
    obtain rfl := List.eq_nil_of_length_eq_zero hold
    exact ⟨[], .nil, by simp [fillLoop, Dentry.path]⟩
  | child parent name ih =>
    rw [Dentry.path, List.mem_append, not_or, List.mem_cons, not_or] at h0
    rw [Dentry.len] at hlen hold
    obtain ⟨front, slash, under, rfl, hfront, hunder⟩ := exists_split hold
    -- what is behind the path of the parent then
    obtain ⟨stores, hperm, hfill⟩ := ih h0.1 (by omega) hfront (47 :: (name ++ back))
      (log ++ (List.range' (parent.len + 1) name.length ++ [parent.len]).map .store)
    refine ⟨List.range' (parent.len + 1) name.length ++ parent.len :: stores, ?_, ?_⟩
    · have hrange : List.range (parent.len + (name.length + 1)) =
          List.range parent.len ++ [parent.len] ++ List.range' (parent.len + 1) name.length := by
        rw [Nat.add_comm name.length 1, ← Nat.add_assoc, List.range_eq_range',
          ← List.range'_append_1, Nat.zero_add, List.range'_1_concat, Nat.zero_add,
            ← List.range_eq_range']
      rw [Dentry.len, hrange]
      have hfirst := (hperm.cons parent.len).trans (List.perm_append_singleton _ _).symm
      exact List.perm_append_comm.trans (hfirst.append_right _)
    · have hstep := fillLoop_child parent h0.2.2 hunder (hfront ▸ hlen) slash back log
      rw [hfront] at hstep
      rw [Dentry.len, List.append_assoc, List.cons_append, hstep, hfill]
      simp [Dentry.path]

/-! ## The function -/

/-- A path that does not fit. -/
theorem getNameAt_long (hlen : d.len + 1 < 2 ^ 31) (hlong : d.len + 1 > SHFS_PATH_MAX)
    (m : Cells Byte) : getNameAt d m = some (0, m) := by
  have hsum := sumLoop_zero d (by omega)
  have hint : int32 (d.len + 1) = d.len + 1 := int32_eq (by omega) (by omega)
  rw [getNameAt, hsum, hint, if_pos (by omega)]

/-- A path that fits. -/
theorem getNameAt_fits (h0 : (0 : Byte) ∉ d.path) (hfit : ¬ d.len + 1 > SHFS_PATH_MAX)
    (hroom : cells.length = SHFS_PATH_MAX) :
    ∃ stores : List ℕ, stores.Perm (List.range (d.text.length + 1)) ∧
      getNameAt d ⟨cells, []⟩ =
        some (1, ⟨d.text ++ 0 :: cells.drop (d.text.length + 1), stores.map .store⟩) := by
  have hmax : SHFS_PATH_MAX = 512 := rfl
  have hsum := sumLoop_zero d (by omega)
  have hint : int32 (d.len + 1) = d.len + 1 := int32_eq (by omega) (by omega)
  rw [getNameAt, hsum, hint, if_neg (by omega), Dentry.text]
  by_cases hroot : d.len = 0
  · rw [if_pos hroot, if_pos (by omega)]
    obtain ⟨a, b, back, rfl⟩ : ∃ a b back, cells = a :: b :: back := by
      obtain ⟨a, rest, rfl⟩ := List.exists_cons_of_length_eq_add_one (hroom.trans hmax)
      obtain ⟨b, back, rfl⟩ :=
        List.exists_cons_of_length_eq_add_one (Nat.succ.inj (hroom.trans hmax))
      exact ⟨a, b, back, rfl⟩
    exact ⟨[0, 1], .refl _, rfl⟩
  · obtain ⟨old, last, back, rfl, hold, -⟩ :=
      exists_split (k := d.len) (n := 511 - d.len) (hroom.trans (by omega))
    obtain ⟨stores, hperm, hfill⟩ := fillLoop_eq h0 (by omega) hold (0 :: back) [.store d.len]
    refine ⟨d.len :: stores, ?_, ?_⟩
    · rw [if_neg hroot, d.length_path, List.range_succ]
      exact (hperm.cons _).trans (List.perm_append_singleton _ _).symm
    · have hterm := Cells.store_append old last 0 back []
      rw [hold, List.nil_append] at hterm
      have hdrop : (old ++ last :: back).drop (d.path.length + 1) = back := by
        rw [d.length_path, ← hold, List.drop_length_add_append]
        rfl
      rw [if_neg hroot, if_neg (by omega), hterm, Option.bind_eq_bind, Option.bind_some, hfill,
        hdrop]
      rfl

/-- **`get_name` builds the path**: for dentries of any depth whose names have no NUL, as long as an
`int` holds the length of the path together with the NUL. -/
theorem buildsName_of_lt (h0 : (0 : Byte) ∉ d.path) (hlen : d.path.length + 1 < 2 ^ 31)
    (hroom : cells.length = SHFS_PATH_MAX) : BuildsName d cells := by
  rw [d.length_path] at hlen
  rw [BuildsName, d.length_path]
  split
  · next hlong => exact getNameAt_long hlen hlong _
  · next hfit => exact getNameAt_fits h0 hfit hroom

theorem buildsName_of_lt_bin :
    BuildsName (.child (.child .root (ascii "usr")) (ascii "bin"))
      (List.replicate SHFS_PATH_MAX 0) :=
  buildsName_of_lt (by decide) (by decide) (List.length_replicate ..)

/-- **The two models of `get_name` agree**: what `getName` says is the result, and the string that
is in the buffer. All that is proved of paths on the level of texts holds of the stores, as long as
an `int` holds the length. -/
theorem getNameAt_eq (h0 : (0 : Byte) ∉ d.path) (hlen : d.len + 1 < 2 ^ 31)
    (hroom : cells.length = SHFS_PATH_MAX) :
    ∃ m, getNameAt d ⟨cells, []⟩ = some ((getName d (cstr cells)).1, m) ∧
      cstr m.cells = (getName d (cstr cells)).2 := by
  by_cases hfit : d.len + 1 > SHFS_PATH_MAX
  · exact ⟨⟨cells, []⟩, by rw [getNameAt_long hlen hfit, getName, if_pos hfit],
      by rw [getName, if_pos hfit]⟩
  · obtain ⟨stores, -, hbuilt⟩ := getNameAt_fits h0 hfit hroom
    have htext : getName d (cstr cells) = (1, d.text) := by
      rw [getName, if_neg hfit, Dentry.text]
      split <;> rfl
    have hnul : (0 : Byte) ∉ d.text := by
      rw [Dentry.text]
      split
      · decide
      · exact h0
    exact ⟨_, by rw [hbuilt, htext], by rw [htext]; exact cstr_append_zero hnul _⟩

/-- With the largest `int` for its length, the path counts as one that fits, and its NUL goes where
there is no buffer any more. -/
theorem getNameAt_largest (h : d.len + 1 = 2 ^ 31) (hroom : cells.length = SHFS_PATH_MAX) :
    getNameAt d ⟨cells, []⟩ = none := by
  have hmax : SHFS_PATH_MAX = 512 := rfl
  have hsum := sumLoop_zero d (by omega)
  have hlen : (d.len : ℤ) = 2147483647 := by omega
  have hwrap : int32 (2147483647 + 1) = -2147483648 := by decide
  have hstore : (⟨cells, []⟩ : Cells Byte).store 2147483647 0 = none := by
    rw [Cells.store, if_neg]
    exact fun hin => absurd hin.2 (by dsimp only; omega)
  simp only [getNameAt, hsum, hlen, hwrap]
  rw [if_neg (by omega), if_neg (by decide), hstore]
  rfl

/-- Directories whose names have the largest length there is, around the last name. -/
def deepest : ℕ → Dentry
  | 0 => .child .root (List.replicate 254 97)
  | n + 1 => .child (deepest n) (List.replicate 255 97)

theorem len_deepest (n : ℕ) : (deepest n).len = 256 * n + 255 := by
  induction n with
  | zero => rw [deepest, Dentry.len, Dentry.len, List.length_replicate]
  | succ n ih =>
    rw [deepest, Dentry.len, ih, List.length_replicate]
    omega

theorem not_mem_deepest (n : ℕ) : (0 : Byte) ∉ (deepest n).path := by
  have hname (k : ℕ) : (0 : Byte) ∉ 47 :: List.replicate k 97 := by
    rw [List.mem_cons, List.mem_replicate, not_or, not_and]
    exact ⟨by decide, fun _ => by decide⟩
  induction n with
  | zero => exact hname 254
  | succ n ih =>
    rw [deepest, Dentry.path, List.mem_append, not_or]
    exact ⟨ih, hname 255⟩

/-- A path of `2 ^ 31 - 1` octets is not refused. -/
theorem not_buildsName_of_len (h : d.len + 1 = 2 ^ 31) (hroom : cells.length = SHFS_PATH_MAX) :
    ¬ BuildsName d cells := by
  have hmax : SHFS_PATH_MAX = 512 := rfl
  rw [BuildsName, d.length_path, if_pos (by omega), getNameAt_largest h hroom]
  exact (Option.some_ne_none _).symm

/-- A length below `2 ^ 31` is not enough: the NUL counts as well. -/
theorem not_buildsName_deepest :
    (0 : Byte) ∉ (deepest 8388607).path ∧ (deepest 8388607).path.length < 2 ^ 31 ∧
      ¬ BuildsName (deepest 8388607) (List.replicate SHFS_PATH_MAX 0) := by
  have hlen := len_deepest 8388607
  refine ⟨not_mem_deepest _, ?_, not_buildsName_of_len ?_ (List.length_replicate ..)⟩
  · rw [Dentry.length_path, hlen]
    decide
  · rw [hlen]
    decide

end Shfs
