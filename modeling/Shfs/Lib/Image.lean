import Shfs.Lib.Bytes
import Mathlib.Data.List.GetD

/-!
# Images

The contents of a file or of a buffer as a byte string, with the two things that are done to them:
`store f off d` puts the octets `d` at `off`, and `fetch f off n` takes the `n` octets from `off`.
An image has zeros everywhere behind its end: a gap in front of stored octets is filled with them,
and a fetch past the end is padded with them.

An image is its length and its octets (`image_ext`), so the laws below are proved by looking up
one octet with `getD_store` and `getD_fetch`. A store inside or right behind an earlier one is a
store into what that one has put there (`store_store`); a fetch from what has just been stored
does not see the rest of the image (`fetch_store_inside`).
-/

namespace Lib

/-- The image `f` with `d` at `off`. Storing nothing does not extend it. -/
def store (f : Bytes) (off : ℕ) (d : Bytes) : Bytes :=
  if d = [] then f
  else f.take off ++ List.replicate (off - f.length) 0 ++ (d ++ f.drop (off + d.length))

/-- The `n` octets of `f` from `off` on. -/
def fetch (f : Bytes) (off n : ℕ) : Bytes :=
  (f.drop off).take n ++ List.replicate (n - (f.length - off)) 0

/-! ## Octet by octet -/

/-- Images with the same length and octets are the same. -/
theorem image_ext {f g : Bytes} (hlen : f.length = g.length)
    (h : ∀ i < f.length, f.getD i 0 = g.getD i 0) : f = g := by
  refine List.ext_getElem hlen fun i hf hg => ?_
  have := h i hf
  rwa [List.getD_eq_getElem _ _ hf, List.getD_eq_getElem _ _ hg] at this

@[simp] theorem store_nil (f : Bytes) (off : ℕ) : store f off [] = f := rfl

theorem length_store {d : Bytes} (h : d ≠ []) (f : Bytes) (off : ℕ) :
    (store f off d).length = max f.length (off + d.length) := by
  have hpos := List.length_pos_iff.mpr h
  rw [store, if_neg h]
  simp only [List.length_append, List.length_take, List.length_replicate, List.length_drop]
  omega

@[simp] theorem length_fetch (f : Bytes) (off n : ℕ) : (fetch f off n).length = n := by
  simp only [fetch, List.length_append, List.length_take, List.length_replicate, List.length_drop]
  omega

theorem getD_eq_zero {f : Bytes} {i : ℕ} (h : f.length ≤ i) : f.getD i 0 = 0 :=
  List.getD_eq_default _ _ h

/-- Zeros behind the end do not show. -/
theorem getD_append_zeros (f : Bytes) (k i : ℕ) :
    (f ++ List.replicate k (0 : Byte)).getD i 0 = f.getD i 0 := by
  by_cases hf : i < f.length
  · exact List.getD_append _ _ _ _ hf
  · rw [List.getD_append_right _ _ _ _ (by omega), getD_eq_zero (f := f) (by omega)]
    by_cases hk : i - f.length < k
    · exact List.getD_replicate _ hk
    · exact getD_eq_zero (by rw [List.length_replicate]; omega)

/-- **An octet of a store** is the stored one where there is one, and otherwise the one of the
image. Behind the end of both it is 0. -/
theorem getD_store (f : Bytes) (off : ℕ) (d : Bytes) (i : ℕ) :
    (store f off d).getD i 0 =
      if off ≤ i ∧ i < off + d.length then d.getD (i - off) 0 else f.getD i 0 := by
  by_cases hd : d = []
  · subst hd
    rw [store_nil, if_neg (by rw [List.length_nil]; omega)]
  rw [store, if_neg hd]
  by_cases hlt : i < off
  · -- in front of the stored octets: an octet of `f`, or the zeros that fill the gap
    rw [if_neg (by omega), List.getD_append _ _ _ _ (by simp; omega), getD_append_zeros]
    simp [List.getD_eq_getElem?_getD, hlt]
  · have hhead : (f.take off ++ List.replicate (off - f.length) (0 : Byte)).length = off := by
      simp only [List.length_append, List.length_take, List.length_replicate]
      omega
    rw [List.getD_append_right _ _ _ _ (by omega), hhead]
    split
    · rw [List.getD_append _ _ _ _ (by omega)]
    · rw [List.getD_append_right _ _ _ _ (by omega)]
      simp only [List.getD_eq_getElem?_getD, List.getElem?_drop]
      congr 2
      omega

/-- An octet of a fetch. -/
theorem getD_fetch (f : Bytes) (off n i : ℕ) :
    (fetch f off n).getD i 0 = if i < n then f.getD (off + i) 0 else 0 := by
  split
  · next hi =>
    rw [fetch, getD_append_zeros]
    simp [List.getD_eq_getElem?_getD, hi]
  · exact getD_eq_zero (by rw [length_fetch]; omega)

/-! ## Stores -/

/-- The whole image is what a fetch of its length returns. -/
theorem fetch_all (f : Bytes) : fetch f 0 f.length = f := by
  simp [fetch]

@[simp] theorem fetch_zero (f : Bytes) (off : ℕ) : fetch f off 0 = [] := by simp [fetch]

/-- **A store into a store.** Octets put inside what has just been stored, or right behind it,
change what is stored. -/
theorem store_store (f : Bytes) (off : ℕ) (d : Bytes) {o : ℕ} (ho : o ≤ d.length) (e : Bytes) :
    store (store f off d) (off + o) e = store f off (store d o e) := by
  by_cases he : e = []
  · simp [he]
  have hpos := List.length_pos_iff.mpr he
  have hne : store d o e ≠ [] := fun h => by
    have := length_store he d o
    rw [h, List.length_nil] at this
    omega
  have hle : f.length ≤ (store f off d).length ∧
      (store f off d).length ≤ max f.length (off + d.length) := by
    by_cases hd : d = []
    · rw [hd, store_nil]
      omega
    · rw [length_store hd]
      omega
  by_cases hd : d = []
  · -- nothing stored yet: the offset is the same
    obtain rfl : o = 0 := by rw [hd, List.length_nil] at ho; omega
    subst hd
    have : store [] 0 e = e := by simp [store]
    rw [store_nil, this, Nat.add_zero]
  refine image_ext ?_ fun i _ => ?_
  · rw [length_store he, length_store hne, length_store he, length_store hd]
    omega
  · simp only [getD_store, length_store he]
    by_cases h₁ : off + o ≤ i ∧ i < off + o + e.length
    · rw [if_pos h₁, if_pos (by omega), if_pos (by omega), Nat.sub_sub]
    · rw [if_neg h₁]
      by_cases h₂ : off ≤ i ∧ i < off + d.length
      · rw [if_pos h₂, if_pos (by omega), if_neg (by omega)]
      · rw [if_neg h₂, if_neg (by omega)]

/-- Octets stored over with at least as many are gone. -/
theorem store_covered (f : Bytes) (off : ℕ) {e d : Bytes} (h : e.length ≤ d.length) :
    store (store f off e) off d = store f off d := by
  by_cases he : e = []
  · rw [he, store_nil]
  have hpos := List.length_pos_iff.mpr he
  have hd : d ≠ [] := fun hd => by rw [hd, List.length_nil] at h; omega
  refine image_ext ?_ fun i _ => ?_
  · rw [length_store hd, length_store hd, length_store he]
    omega
  · simp only [getD_store]
    split
    · rfl
    · rw [if_neg (by omega)]

/-! ## Fetches -/

/-- A fetch inside a fetch. -/
theorem fetch_fetch (f : Bytes) (off : ℕ) {n o c : ℕ} (h : o + c ≤ n) :
    fetch (fetch f off n) o c = fetch f (off + o) c := by
  refine image_ext (by simp) fun i hi => ?_
  rw [length_fetch] at hi
  rw [getD_fetch, getD_fetch, getD_fetch, if_pos hi, if_pos hi, if_pos (by omega), Nat.add_assoc]

/-- A fetch in two parts. -/
theorem fetch_add (f : Bytes) (off m n : ℕ) :
    fetch f off (m + n) = fetch f off m ++ fetch f (off + m) n := by
  refine image_ext (by simp) fun i hi => ?_
  rw [length_fetch] at hi
  rw [getD_fetch, if_pos hi]
  by_cases hm : i < m
  · rw [List.getD_append _ _ _ _ (by simpa), getD_fetch, if_pos hm]
  · rw [List.getD_append_right _ _ _ _ (by simpa using hm), length_fetch, getD_fetch,
      if_pos (by omega)]
    congr 1
    omega

/-- **A fetch from what has been stored** brings a part of it, wherever the rest of the image is. -/
theorem fetch_store_inside (f : Bytes) (off : ℕ) {d : Bytes} {o c : ℕ} (h : o + c ≤ d.length) :
    fetch (store f off d) (off + o) c = fetch d o c := by
  refine image_ext (by simp) fun i hi => ?_
  rw [length_fetch] at hi
  rw [getD_fetch, getD_fetch, if_pos hi, if_pos hi, getD_store, if_pos (by omega)]
  congr 1
  omega

/-- The first `n` octets after a store among them, or right behind them. -/
theorem fetch_store_front (f : Bytes) {n o : ℕ} (ho : o ≤ n) (e : Bytes) :
    fetch (store f o e) 0 (max n (o + e.length)) = store (fetch f 0 n) o e := by
  by_cases he : e = []
  · simp [he, ho]
  refine image_ext ?_ fun i hi => ?_
  · rw [length_store he, length_fetch, length_fetch]
  · rw [length_fetch] at hi
    rw [getD_fetch, if_pos hi, Nat.zero_add, getD_store, getD_store]
    split
    · rfl
    · rw [getD_fetch, if_pos (by omega), Nat.zero_add]

/-- Storing right behind an image appends. -/
theorem store_length (f e : Bytes) : store f f.length e = f ++ e := by
  by_cases he : e = []
  · rw [he, store_nil, List.append_nil]
  · simp [store, he]

/-- **Two stores one behind the other** are one: octets can be stored in any parts, as long as each
part starts where the last one has ended. -/
theorem store_append (f : Bytes) (off : ℕ) (d e : Bytes) :
    store (store f off d) (off + d.length) e = store f off (d ++ e) := by
  rw [store_store _ _ _ le_rfl, store_length]

/-- What has been stored at the front is there. -/
theorem fetch_store_self (f e : Bytes) : fetch (store f 0 e) 0 e.length = e := by
  have := fetch_store_inside f 0 (d := e) (o := 0) (c := e.length) (by omega)
  rw [Nat.add_zero] at this
  rw [this, fetch_all]

/-! ## Octets laid at an offset -/

/-- The octet at position `i` of the octets `d` laid at `off`, if there is one. -/
def octet (off : ℕ) (d : Bytes) (i : ℕ) : Option Byte := if off ≤ i then d[i - off]? else none

/-- The octets after a store among them, or right behind them. -/
theorem octet_store (off : ℕ) {d : Bytes} {o : ℕ} (ho : o ≤ d.length) (e : Bytes) (i : ℕ) :
    octet off (store d o e) i = (octet (off + o) e i).or (octet off d i) := by
  by_cases he : e = []
  · subst he
    have hnone : octet (off + o) [] i = none := by
      unfold octet
      split <;> rfl
    rw [store_nil, hnone, Option.none_or]
  have hstore : store d o e = d.take o ++ (e ++ d.drop (o + e.length)) := by
    rw [store, if_neg he, Nat.sub_eq_zero_of_le ho]
    simp
  have htake : (d.take o).length = o := List.length_take_of_le ho
  unfold octet
  rw [hstore]
  by_cases h : off ≤ i
  · rw [if_pos h, if_pos h]
    by_cases hlt : i < off + o
    · rw [if_neg (by omega), Option.none_or, List.getElem?_append_left (by omega),
        List.getElem?_take_of_lt (by omega)]
    · rw [if_pos (by omega), List.getElem?_append_right (by omega), htake]
      by_cases hin : i - off - o < e.length
      · rw [List.getElem?_append_left hin, Nat.sub_sub, List.getElem?_eq_getElem (by omega),
          Option.some_or]
      · have hnone : e[i - (off + o)]? = none := List.getElem?_eq_none (by omega)
        rw [List.getElem?_append_right (by omega), List.getElem?_drop, hnone, Option.none_or]
        congr 1
        omega
  · rw [if_neg h, if_neg h, if_neg (by omega), Option.none_or]

end Lib
