import Shfs.CacheWords

/-!
# What `fcache_file_write` says it has written

The writes of the remote side fail here in any pattern, and a write that fails stores nothing
(`faulty`). The logical file is the remote file with the octets over it that are still to be
written. A call is truthful if after the result `n` the logical file is the old one with the first
`n` octets of the buffer in it, and after an error the old one.

The octets have no influence on what the call does. Which flushes it makes, where the parts of the
buffer go and how it ends follows from a `Course`, and for all octets together the call is truthful
exactly if its course is `Safe`: no write fails once an octet has been taken, unless the probing
octet that is sent behind it gets through, no more octets are taken than an `int` can say, and no
part of the buffer that goes into the emptied cache begins at 2^32 or behind it, where `offset` has
wrapped around.
-/

namespace Shfs.Words

open Lib

/-! ## Failing writes -/

/-- A remote file whose writes fail in a pattern, with the number of writes so far. The count that a
write returns matters only where it is passed on, and `fcacheFileWrite` makes it an `int` there. -/
def faulty (p : ℕ → Option Errno) : Fops (Bytes × ℕ) where
  read name off n _ s := ⟨.ok (fetch s.1 off n), name, s⟩
  write name off d _ s :=
    match p s.2 with
    | some e => ⟨.error e, name, (s.1, s.2 + 1)⟩
    | none => ⟨.ok d.length, name, (store s.1 off d, s.2 + 1)⟩

/-- The remote file with what is dirty in the buffer over it. -/
def logical (s : Slot (Bytes × ℕ)) : Bytes :=
  match s.cache with
  | none => s.remote.1
  | some c =>
    match c.type with
    | .read => s.remote.1
    | .write => store s.remote.1 c.offset c.held

/-- The call says what it has done to the logical file. -/
def Truthful (before : Bytes) (offset : UInt32) (buffer : Bytes) :
    Option (Outcome ℕ (Bytes × ℕ)) → Prop
  | some (.back (.ok n) s _) =>
    n ≤ buffer.length ∧ logical s = store before offset.toNat (buffer.take n)
  | some (.back (.error _) s _) => logical s = before
  | _ => False

instance (before : Bytes) (offset : UInt32) (buffer : Bytes) :
    ∀ r, Decidable (Truthful before offset buffer r)
  | some (.back (.ok _) _ _) => inferInstanceAs (Decidable (_ ∧ _))
  | some (.back (.error _) _ _) => inferInstanceAs (Decidable (_ = _))
  | some .outside | none => .isFalse id

/-! ## The course of a write -/

/-- What decides the course of a write: the pattern, whether the buffer of the inode is new, how
many octets fit into it before the first flush, its size, and the request. -/
structure Course : Type where
  fails : ℕ → Option Errno
  new : Bool
  front : ℕ
  size : ℕ
  offset : ℕ
  count : ℕ

namespace Course

variable (a : Course)

/-- Are there octets left after the first `i` flushes and what has gone into the buffer then? -/
def More (i : ℕ) : Prop := a.front + i * a.size < a.count

instance (i : ℕ) : Decidable (a.More i) := inferInstanceAs (Decidable (_ < _))

/-- The number of octets taken with `i` flushes. -/
def taken (i : ℕ) : ℕ := min a.count (a.front + i * a.size)

/-- `i` flushes get through, and then there is nothing left or the next one fails. -/
def Stops (i : ℕ) : Prop :=
  (∀ k < i, a.fails k = none ∧ a.More k) ∧ (a.More i → a.fails i ≠ none)

/-- The call fails: because of the probing octet if one is sent, otherwise because of a flush. -/
def Fails (i : ℕ) : Prop :=
  if a.new ∧ a.taken i ≠ 0 then a.fails (if a.More i then i + 1 else i) ≠ none else a.More i

/-- The call returns a negative value: it fails, or has taken more octets than an `int` can say. -/
def Negative (i : ℕ) : Prop := a.Fails i ∨ 2 ^ 31 ≤ a.taken i

/-- No call that has taken octets returns a negative value, and no part that goes into the emptied
buffer begins at 2^32 or behind it. -/
def Safe : Prop :=
  ∀ i, a.Stops i →
    (a.Negative i → a.taken i = 0) ∧ ∀ k < i, a.offset + a.front + k * a.size < 2 ^ 32

/-- The logical file after `i` flushes: the first part is put where it belongs, the others at an
offset of 32 bits. -/
def landed (before buffer : Bytes) : ℕ → Bytes
  | 0 => store before a.offset (buffer.take a.front)
  | i + 1 => store (landed before buffer i) ((a.offset + a.front + i * a.size) % 2 ^ 32)
      ((buffer.drop (a.front + i * a.size)).take a.size)

variable {a} {i j : ℕ} {before buffer : Bytes}

/-- The number of flushes that get through is determined. -/
theorem Stops.unique (hi : a.Stops i) (hj : a.Stops j) : i = j := by
  rcases Nat.lt_trichotomy i j with h | h | h
  · obtain ⟨hnone, hmore⟩ := hj.1 i h
    exact absurd hnone (hi.2 hmore)
  · exact h
  · obtain ⟨hnone, hmore⟩ := hi.1 j h
    exact absurd hnone (hj.2 hmore)

variable (before) in
/-- Without wrapping around everything goes where it belongs. -/
theorem landed_eq (hlen : a.count = buffer.length)
    (hmore : ∀ k < i, a.More k) (hlt : ∀ k < i, a.offset + a.front + k * a.size < 2 ^ 32) :
    a.landed before buffer i = store before a.offset (buffer.take (a.front + i * a.size)) := by
  induction i with
  | zero => rw [landed, Nat.zero_mul, Nat.add_zero]
  | succ i ih =>
    have hi := hmore i (Nat.lt_succ_self i)
    unfold More at hi
    have htake : (buffer.take (a.front + i * a.size)).length = a.front + i * a.size :=
      List.length_take_of_le (by omega)
    have happend := store_append before a.offset (buffer.take (a.front + i * a.size))
      ((buffer.drop (a.front + i * a.size)).take a.size)
    rw [htake, ← List.take_add] at happend
    rw [landed, Nat.mod_eq_of_lt (hlt i (Nat.lt_succ_self i)),
      ih (fun k hk => hmore k (Nat.lt_succ_of_lt hk)) (fun k hk => hlt k (Nat.lt_succ_of_lt hk)),
      Nat.add_assoc, happend, Nat.succ_mul, Nat.add_assoc]

/-- A part of a buffer of equal octets. -/
theorem getD_part {n k m : ℕ} (b : Byte)
    (hm : m < (((List.replicate n b).drop k).take a.size).length) :
    (((List.replicate n b).drop k).take a.size).getD m 0 = b := by
  rw [List.getD_eq_getElem _ _ hm]
  simp

variable (before) in
/-- In a buffer of ones, the first octet is at its place as soon as any has been taken. -/
theorem landed_first (hsize : 0 < a.size) (hoffset : a.offset < 2 ^ 32) (hcount : 0 < a.count)
    (htaken : a.taken i ≠ 0) :
    (a.landed before (List.replicate a.count 1) i).getD a.offset 0 = 1 := by
  induction i with
  | zero =>
    rw [taken, Nat.zero_mul, Nat.add_zero] at htaken
    rw [landed, getD_store, if_pos]
    · rw [Nat.sub_self, List.getD_eq_getElem _ _ (by simp; omega)]
      simp
    · simp only [List.length_take, List.length_replicate]
      omega
  | succ i ih =>
    rw [landed, getD_store]
    split
    · next hin => exact getD_part 1 (by omega)
    · next hout =>
      refine ih fun hz => hout ?_
      -- the first part
      have hzero : a.front = 0 ∧ i * a.size = 0 := by
        unfold taken at hz
        omega
      rw [hzero.1, hzero.2, Nat.add_zero, Nat.add_zero, Nat.mod_eq_of_lt hoffset]
      simp only [List.length_take, List.length_drop, List.length_replicate]
      omega

variable (before buffer) in
/-- The place of a part that has wrapped around stays as it was. -/
theorem landed_skipped (hcount : a.count < 2 ^ 32) (hoffset : a.offset < 2 ^ 32)
    (hlen : buffer.length = a.count) (hmore : ∀ k < i, a.More k) {k : ℕ}
    (hle : 2 ^ 32 ≤ a.offset + a.front + k * a.size)
    (hlt : ∀ j < k, a.offset + a.front + j * a.size < 2 ^ 32) :
    (a.landed before buffer i).getD (a.offset + a.front + k * a.size) 0 =
      before.getD (a.offset + a.front + k * a.size) 0 := by
  induction i with
  | zero =>
    rw [landed, getD_store, if_neg]
    rw [List.length_take]
    omega
  | succ i ih =>
    have hi := hmore i (Nat.lt_succ_self i)
    unfold More at hi
    rw [landed, getD_store, if_neg, ih fun k hk => hmore k (Nat.lt_succ_of_lt hk)]
    rw [List.length_take, List.length_drop, hlen]
    rcases Nat.lt_or_ge i k with hik | hki
    · rw [Nat.mod_eq_of_lt (hlt i hik)]
      have hmul : (i + 1) * a.size ≤ k * a.size := Nat.mul_le_mul_right _ hik
      rw [Nat.succ_mul] at hmul
      omega
    · have hmul : k * a.size ≤ i * a.size := Nat.mul_le_mul_right _ hki
      omega

/-- The file behind the call is the one that its result says. -/
def Kept (a : Course) (before buffer : Bytes) (i : ℕ) : Prop :=
  (a.Negative i → a.landed before buffer i = before) ∧
    (¬ a.Negative i →
      a.landed before buffer i = store before a.offset (buffer.take (a.taken i)))

/-- A safe course is good for any octets. -/
theorem Safe.kept (h : a.Safe) (hpos : 0 < a.count) (hlen : a.count = buffer.length)
    (hi : a.Stops i) : a.Kept before buffer i := by
  obtain ⟨hfails, hlt⟩ := h i hi
  have hmore : ∀ k < i, a.More k := fun k hk => (hi.1 k hk).2
  rw [Kept, landed_eq before hlen hmore hlt]
  constructor
  · intro hf
    have htaken := hfails hf
    have hnone : a.front + i * a.size = 0 := by
      unfold taken at htaken
      omega
    rw [hnone, List.take_zero, store_nil]
  · intro _
    congr 1
    rw [List.take_eq_take_iff, taken, hlen]
    omega

/-- If the call is right about ones in a file of zeros, its course is safe. -/
theorem safe_of_kept (hsize : 0 < a.size) (hoffset : a.offset < 2 ^ 32) (hcount : a.count < 2 ^ 32)
    (hpos : 0 < a.count) (hzero : ∀ x, before.getD x 0 = 0)
    (h : ∀ i, a.Stops i → a.Kept before (List.replicate a.count 1) i) : a.Safe := by
  intro i hi
  obtain ⟨herror, hok⟩ := h i hi
  have hmore : ∀ k < i, a.More k := fun k hk => (hi.1 k hk).2
  have hnothing : a.Negative i → a.taken i = 0 := by
    intro hf
    by_contra htaken
    have hfirst := landed_first before hsize hoffset hpos htaken
    rw [herror hf, hzero] at hfirst
    exact absurd hfirst (by decide)
  refine ⟨hnothing, fun k => ?_⟩
  induction k using Nat.strong_induction_on with
  | _ k ih =>
    intro hk
    by_contra! hle
    have hmorek := hmore k hk
    unfold More at hmorek
    have hmul : (k + 1) * a.size ≤ i * a.size := Nat.mul_le_mul_right _ hk
    rw [Nat.succ_mul] at hmul
    have htaken : a.front + k * a.size < a.taken i := by
      unfold taken
      omega
    have hskipped := landed_skipped before (List.replicate a.count 1) hcount hoffset
      List.length_replicate hmore hle fun j hj => ih j hj (hj.trans hk)
    have hf : ¬ a.Negative i := fun hf => by
      have := hnothing hf
      omega
    -- this octet has been taken, and should be there
    rw [hok hf, hzero, getD_store, if_pos, List.getD_eq_getElem] at hskipped
    · simp at hskipped
    · simp only [List.length_take, List.length_replicate]
      unfold taken at htaken ⊢
      omega
    · simp only [List.length_take, List.length_replicate]
      unfold taken at htaken ⊢
      omega

end Course

/-! ## The call -/

/-- How many octets fit into the buffer of the inode before it has to be written out. -/
def fits (size : ℕ) (c : FCache) (offset : ℕ) : ℕ :=
  match c.type with
  | .read => size
  | .write =>
    if c.offset ≤ offset ∧ offset ≤ c.offset + c.count then size - (offset - c.offset) else 0

/-- The course of a write of `count` octets at `offset`, with this buffer. -/
def course (p : ℕ → Option Errno) (size : UInt32) (c : FCache) (offset count : UInt32) :
    Course where
  fails := p
  new := c.new
  front := min count.toNat (fits size.toNat c offset.toNat)
  size := size.toNat
  offset := offset.toNat
  count := count.toNat

/-- The buffer and the remote file together. -/
def Writing.file (v : Writing (Bytes × ℕ)) : Bytes := store v.remote.1 v.cache.offset v.cache.held

/-- What holds of the variables after `i` flushes that have got through. -/
structure Writing.At (a : Course) (offset : UInt32) (before buffer : Bytes) (i : ℕ)
    (v : Writing (Bytes × ℕ)) : Prop where
  type : v.cache.type = .write
  new : v.cache.new = a.new
  held : v.cache.count ≤ a.size
  nonempty : v.wrote ≠ 0 → v.cache.count ≠ 0
  offset : v.offset = offset + v.wrote
  wrote : v.wrote.toNat = a.taken i
  left : v.wrote.toNat + v.count.toNat = a.count
  rest : v.buffer = buffer.drop v.wrote.toNat
  failed : v.failed = none
  sent : v.remote.2 = i
  through : ∀ k < i, a.fails k = none ∧ a.More k
  landed : v.file = a.landed before buffer i

section Write

variable {p : ℕ → Option Errno} {a : Course} {size offset : UInt32} {before buffer : Bytes} {i : ℕ}
  {v : Writing (Bytes × ℕ)}

theorem Writing.At.more_iff (h : v.At a offset before buffer i) : a.More i ↔ v.count ≠ 0 := by
  have hwrote := h.wrote
  have hleft := h.left
  rw [ne_eq, ← UInt32.toNat_inj, Course.More]
  unfold Course.taken at hwrote
  change _ ↔ v.count.toNat ≠ 0
  omega

/-- A flush that fails leaves everything but `result` as it was. -/
theorem Writing.At.drain_error (h : v.At a offset before buffer i) (hsize : size.toNat = a.size)
    (ino : ℕ) {e : Errno} (he : a.fails i = some e) :
    v.drain (faulty a.fails) size ino =
      .inl (some { v with remote := (v.remote.1, i + 1), failed := some e }) := by
  rw [Writing.drain, if_pos (hsize ▸ h.held)]
  simp only [faulty, h.sent, he]

/-- A flush that gets through. -/
theorem Writing.At.drain_ok (h : v.At a offset before buffer i) (hsize : size.toNat = a.size)
    (hpos : 0 < a.size) (hlen : buffer.length = a.count) (hcount : a.count < 2 ^ 32)
    (hoffset : a.offset = offset.toNat) (ino : ℕ) (hne : v.count ≠ 0) (hi : a.fails i = none) :
    ∃ v', v.drain (faulty a.fails) size ino = .inr v' ∧ v'.At a offset before buffer (i + 1) ∧
      v'.count.toNat < v.count.toNat := by
  have hmore := h.more_iff.mpr hne
  have hleft := h.left
  have hwrote := h.wrote
  unfold Course.More at hmore
  unfold Course.taken at hwrote
  have hrest : v.buffer.length = v.count.toNat := by
    rw [h.rest, List.length_drop]
    omega
  -- `c` is no more than what is left and no more than the buffer has room for, so that none of the
  -- sums wraps around
  set c : UInt32 := if v.count > size then size else v.count with hcdef
  have hc : c.toNat = min v.count.toNat a.size := by
    rw [hcdef, apply_ite UInt32.toNat]
    simp only [gt_iff_lt, UInt32.lt_iff_toNat_lt]
    split <;> omega
  have hlt : c.toNat ≤ v.count.toNat ∧ 0 < c.toNat := by omega
  have hput : 0 + c.toNat ≤ size.toNat ∧ c.toNat ≤ v.buffer.length := by omega
  have hcount' : (v.count - c).toNat = v.count.toNat - c.toNat :=
    UInt32.toNat_sub_of_le _ _ (UInt32.le_iff_toNat_le.mpr hlt.1)
  have hwrote' : (v.wrote + c).toNat = v.wrote.toNat + c.toNat := toNat_add (by omega)
  have htaken : v.wrote.toNat + c.toNat = a.taken (i + 1) := by
    rw [Course.taken, Nat.succ_mul]
    omega
  rw [Writing.drain, if_pos (hsize ▸ h.held)]
  simp only [faulty, h.sent, hi]
  rw [← hcdef, Writing.put, if_pos hput]
  refine ⟨_, rfl, ⟨h.type, h.new, ?_, fun _ => ?_, ?_, ?_, ?_, ?_, h.failed, rfl, ?_, ?_⟩, ?_⟩
  · change c.toNat ≤ a.size
    omega
  · exact hlt.2.ne'
  · change v.offset + c = offset + (v.wrote + c)
    rw [h.offset, UInt32.add_assoc]
  · exact hwrote'.trans htaken
  · change (v.wrote + c).toNat + (v.count - c).toNat = a.count
    omega
  · change v.buffer.drop c.toNat = buffer.drop (v.wrote + c).toNat
    rw [h.rest, List.drop_drop, hwrote']
  · intro k hk
    rcases Nat.lt_succ_iff_lt_or_eq.mp hk with hk | rfl
    · exact h.through k hk
    · exact ⟨hi, hmore⟩
  · -- the part that is put has the buffer for itself
    have hheld : fetch (store v.cache.data 0 (v.buffer.take c.toNat)) 0 c.toNat =
        v.buffer.take c.toNat := by
      have := fetch_store_self v.cache.data (v.buffer.take c.toNat)
      rwa [List.length_take_of_le hput.2] at this
    have hplace : v.offset.toNat = (a.offset + a.front + i * a.size) % 2 ^ 32 := by
      rw [h.offset, UInt32.toNat_add, hoffset, Nat.add_assoc]
      congr 2
      omega
    have hpart : v.buffer.take c.toNat =
        (buffer.drop (a.front + i * a.size)).take a.size := by
      have hdrop : v.buffer = buffer.drop (a.front + i * a.size) := by
        rw [h.rest]
        congr 1
        omega
      rw [← hdrop, List.take_eq_take_iff]
      omega
    change store v.file v.offset.toNat
      (fetch (store v.cache.data 0 (v.buffer.take c.toNat)) 0 c.toNat) = _
    rw [hheld, h.landed, hplace, hpart]
    rfl
  · change (v.count - c).toNat < _
    omega

variable (size offset) in
/-- The first put takes all that fits in front of the loop. -/
theorem Writing.put_at {count c : UInt32} {o : ℕ} (name : Bytes) (cache : FCache) (far : Bytes)
    {n : ℕ} (hsize : size.toNat = a.size) (hcount : count.toNat = a.count)
    (hlen : buffer.length = count.toNat) (htype : cache.type = .write) (hnew : cache.new = a.new)
    (hoffset : a.offset = offset.toNat) (ho : offset.toNat = cache.offset + o)
    (hin : o ≤ cache.count) (hheld : cache.count ≤ size.toNat) (hfit : o + c.toNat ≤ size.toNat)
    (hc : c.toNat = a.front) (hle : c.toNat ≤ count.toNat)
    (hn : n = max cache.count (o + c.toNat)) :
    ∃ v, (⟨name, offset, count, 0, buffer, cache, (far, 0), none⟩ :
        Writing (Bytes × ℕ)).put size o c n = some v ∧
      v.At a offset (store far cache.offset cache.held) buffer 0 ∧ v.cache.count = n := by
  have hput : o + c.toNat ≤ size.toNat ∧ c.toNat ≤ buffer.length := ⟨hfit, by omega⟩
  have hleft : (count - c).toNat = count.toNat - c.toNat :=
    UInt32.toNat_sub_of_le _ _ (UInt32.le_iff_toNat_le.mpr hle)
  have hzero : (0 : UInt32) + c = c := UInt32.zero_add c
  rw [Writing.put, if_pos hput]
  refine ⟨_, rfl, ⟨htype, hnew, ?_, ?_, ?_, ?_, ?_, ?_, rfl, rfl, by rintro _ ⟨⟩, ?_⟩, rfl⟩
  · change n ≤ _
    omega
  · intro hne
    change n ≠ 0
    have hne' : c.toNat ≠ 0 := fun h => hne (hzero.trans (UInt32.toNat_inj.mp h))
    omega
  · change offset + c = offset + (0 + c)
    rw [hzero]
  · change (0 + c).toNat = _
    rw [hzero, Course.taken]
    omega
  · change (0 + c).toNat + (count - c).toNat = _
    rw [hzero]
    omega
  · change buffer.drop c.toNat = buffer.drop (0 + c).toNat
    rw [hzero]
  · have htake : (buffer.take c.toNat).length = c.toNat := List.length_take_of_le hput.2
    have hfront := fetch_store_front cache.data hin (buffer.take c.toNat)
    rw [htake, ← hn] at hfront
    change store far cache.offset (fetch (store cache.data o (buffer.take c.toNat)) 0 n) = _
    rw [hfront, Course.landed, hoffset, ho, ← hc, ← store_store _ _ _ (by rwa [length_fetch])]
    rfl

/-- A buffer that is full takes nothing more. -/
theorem Writing.append_full (hfull : v.cache.count = size.toNat) : v.append size = some v := by
  unfold Writing.append
  split
  · next hcond =>
    have hsub : ulongSub size.toNat v.cache.count = 0 := by
      have := size.toNat_lt
      rw [hfull, ulongSub_of_le le_rfl (by omega), Nat.sub_self]
    have hpos : v.count.toNat > 0 :=
      Nat.pos_of_ne_zero fun h => hcond.1 (UInt32.toNat_inj.mp h)
    have ho : (UInt32.ofNat (v.offset.toNat - v.cache.offset)).toNat ≤ size.toNat := by
      rw [UInt32.toNat_ofNat', hcond.2, Nat.add_sub_cancel_left, hfull]
      exact Nat.mod_le _ _
    dsimp only
    rw [hsub, if_pos hpos, Writing.put, if_pos ⟨by simpa using ho, by simp⟩]
    simp
  · rfl

/-- What is put behind the octets in the buffer. -/
theorem toNat_room (size count : UInt32) {n : ℕ} (hn : n ≤ size.toNat) :
    (if count.toNat > ulongSub size.toNat n then .ofNat (ulongSub size.toNat n) else count :
      UInt32).toNat = min count.toNat (size.toNat - n) := by
  have hlt := size.toNat_lt
  have hsub : ulongSub size.toNat n = size.toNat - n := ulongSub_of_le hn (by omega)
  have hcast : (UInt32.ofNat (size.toNat - n)).toNat = size.toNat - n :=
    UInt32.toNat_ofNat_of_lt' (show _ < 2 ^ 32 by omega)
  rw [hsub, apply_ite UInt32.toNat, hcast]
  split <;> omega

variable (p offset) in
/-- **In front of the loop** the octets that fit are taken, and the logical file has them in their
place. It is the start of the course. -/
theorem Writing.start_at {c : FCache} {count : UInt32} (hheld : c.count ≤ size.toNat)
    (hne : count ≠ 0) (hlen : buffer.length = count.toNat) (name far : Bytes) (free : ℤ) :
    ∃ v, (Writing.overwrite size ⟨name, offset, count, 0, buffer, c.forWrite offset.toNat, (far, 0),
        none⟩).bind (Writing.append size) = some v ∧
      v.At (course p size c offset count) offset (logical ⟨some c, free, (far, 0)⟩) buffer 0 := by
  have hsize32 := size.toNat_lt
  have hoffset32 := offset.toNat_lt
  unfold FCache.forWrite course fits
  cases htype : c.type with
  | read =>
    have hlogical : logical ⟨some c, free, (far, 0)⟩ = far := by simp only [logical, htype]
    rw [hlogical]
    dsimp only
    -- a buffer that was read into is given up, and all that fits is appended to nothing
    have hback : ¬ (offset.toNat ≤ offset.toNat ∧ offset.toNat < offset.toNat + 0) := by omega
    have hfree := toNat_room size count (Nat.zero_le _)
    rw [Nat.sub_zero] at hfree
    rw [Writing.overwrite, if_neg hback, Option.bind_some, Writing.append, if_pos ⟨hne, rfl⟩]
    dsimp only
    rw [Nat.sub_self]
    obtain ⟨v, hv, hat, -⟩ := Writing.put_at size offset name
      { c with offset := offset.toNat, count := 0, type := .write } far
      (a := ⟨p, c.new, min count.toNat size.toNat, size.toNat, offset.toNat, count.toNat⟩) (o := 0)
      rfl rfl hlen rfl rfl rfl rfl le_rfl (Nat.zero_le _) (by omega) hfree (by omega)
      (Nat.max_eq_right (Nat.zero_le _)).symm
    refine ⟨v, hv, ?_⟩
    rwa [FCache.held, fetch_zero, store_nil] at hat
  | write =>
    have hlogical : logical ⟨some c, free, (far, 0)⟩ = store far c.offset c.held := by
      simp only [logical, htype]
    rw [hlogical]
    dsimp only
    by_cases hin : c.offset ≤ offset.toNat ∧ offset.toNat < c.offset + c.count
    · -- in the middle of what is in the buffer
      have ho : (UInt32.ofNat (offset.toNat - c.offset)).toNat = offset.toNat - c.offset :=
        UInt32.toNat_ofNat_of_lt' (show _ < 2 ^ 32 by omega)
      have hsub : (size - UInt32.ofNat (offset.toNat - c.offset)).toNat =
          size.toNat - (offset.toNat - c.offset) := by
        rw [UInt32.toNat_sub_of_le, ho]
        exact UInt32.le_iff_toNat_le.mpr (by omega)
      rw [if_pos ⟨hin.1, hin.2.le⟩, Writing.overwrite, if_pos hin]
      dsimp only
      set k : UInt32 := if count > size - UInt32.ofNat (offset.toNat - c.offset) then
        size - UInt32.ofNat (offset.toNat - c.offset) else count with hkdef
      have hk : k.toNat = min count.toNat (size.toNat - (offset.toNat - c.offset)) := by
        rw [hkdef, apply_ite UInt32.toNat]
        simp only [gt_iff_lt, UInt32.lt_iff_toNat_lt, hsub]
        split <;> omega
      have hsum : (UInt32.ofNat (offset.toNat - c.offset) + k).toNat =
          offset.toNat - c.offset + k.toNat := by
        rw [toNat_add, ho]
        omega
      have hmax : ∀ m : ℕ, (if m > c.count then m else c.count) = max c.count m := fun m => by
        split <;> omega
      rw [hsum, hmax, ho]
      obtain ⟨v, hv, hat, hvcount⟩ := Writing.put_at size offset name c far
        (a := ⟨p, c.new, min count.toNat (size.toNat - (offset.toNat - c.offset)), size.toNat,
          offset.toNat, count.toNat⟩)
        (o := offset.toNat - c.offset) rfl rfl hlen htype rfl
        rfl (by omega) (by omega) hheld (by omega) hk (by omega) rfl
      refine ⟨v, ?_, hat⟩
      rw [hv, Option.bind_some]
      by_cases hleft : v.count ≠ 0
      · refine Writing.append_full ?_
        have hmore := hat.more_iff.mpr hleft
        unfold Course.More at hmore
        dsimp only at hmore
        omega
      · exact if_neg fun h => hleft h.1
    · by_cases hedge : offset.toNat = c.offset + c.count
      · -- right behind it
        have ho : (UInt32.ofNat (offset.toNat - c.offset)).toNat = c.count := by
          rw [hedge, Nat.add_sub_cancel_left]
          exact UInt32.toNat_ofNat_of_lt' (show _ < 2 ^ 32 by omega)
        rw [if_pos ⟨by omega, by omega⟩, Writing.overwrite, if_neg hin, Option.bind_some,
          Writing.append, if_pos ⟨hne, hedge⟩]
        have hroom := toNat_room size count hheld
        dsimp only
        rw [ho]
        set k : UInt32 := if count.toNat > ulongSub size.toNat c.count then
          .ofNat (ulongSub size.toNat c.count) else count
        obtain ⟨v, hv, hat, -⟩ := Writing.put_at size offset name c far
          (a := ⟨p, c.new, min count.toNat (size.toNat - (offset.toNat - c.offset)), size.toNat,
            offset.toNat, count.toNat⟩)
          (o := c.count) (c := k) rfl rfl hlen htype rfl rfl hedge le_rfl hheld (by omega)
          (hroom.trans (by dsimp only; omega)) (by omega)
          (Nat.max_eq_right (Nat.le_add_right _ _)).symm
        exact ⟨v, hv, hat⟩
      · -- elsewhere
        have hout : ¬ (c.offset ≤ offset.toNat ∧ offset.toNat ≤ c.offset + c.count) := by omega
        rw [if_neg hout, Writing.overwrite, if_neg hin, Option.bind_some, Writing.append,
          if_neg fun h => hedge h.2]
        refine ⟨_, rfl, htype, rfl, hheld, fun h => absurd rfl h, ?_, ?_, ?_, rfl, rfl, rfl,
          by rintro _ ⟨⟩, ?_⟩
        · exact (UInt32.add_zero offset).symm
        · simp [Course.taken]
        · exact Nat.zero_add _
        · simp [Course.landed, Writing.file]

/-- How the loop ends, with the number of flushes that have got through: nothing is left, or the
next one has failed. -/
def Writing.Ended (a : Course) (offset : UInt32) (before buffer : Bytes) (i : ℕ)
    (v : Writing (Bytes × ℕ)) : Prop :=
  (v.At a offset before buffer i ∧ ¬ a.More i) ∨
    ∃ (e : Errno) (w : Writing (Bytes × ℕ)), a.fails i = some e ∧ a.More i ∧
      w.At a offset before buffer i ∧ v = { w with remote := (w.remote.1, i + 1), failed := some e }

/-- **The loop** ends, and in one of these two ways: all octets have been taken, or the write at
which the course stops has failed. -/
theorem Writing.At.ends (h : v.At a offset before buffer 0) (hsize : size.toNat = a.size)
    (hpos : 0 < a.size) (hlen : buffer.length = a.count) (hcount : a.count < 2 ^ 32)
    (hoffset : a.offset = offset.toNat) (ino : ℕ) {fuel : ℕ} (hfuel : v.count.toNat ≤ fuel) :
    ∃ r i v',
      loop (fun v => decide (v.count ≠ 0)) (Writing.drain (faulty a.fails) size ino) fuel v =
        some r ∧ (r = .inl (some v') ∨ r = .inr v') ∧ a.Stops i ∧
      v'.Ended a offset before buffer i := by
  have hround : ∀ v : Writing (Bytes × ℕ), (∃ i, v.At a offset before buffer i) →
      decide (v.count ≠ 0) = true →
      Sum.elim (fun x => ∃ i v', x = some v' ∧ a.Stops i ∧ Ended a offset before buffer i v')
        (fun v' => (∃ i, v'.At a offset before buffer i) ∧ v'.count.toNat < v.count.toNat)
        (v.drain (faulty a.fails) size ino) := by
    rintro v ⟨i, hv⟩ hne
    have hne' := of_decide_eq_true hne
    cases hi : a.fails i with
    | none =>
      obtain ⟨v', hdrain, hv', hlt⟩ := hv.drain_ok hsize hpos hlen hcount hoffset ino hne' hi
      rw [hdrain]
      exact ⟨⟨i + 1, hv'⟩, hlt⟩
    | some e =>
      have hmore := hv.more_iff.mpr hne'
      rw [hv.drain_error hsize ino hi]
      refine ⟨i, _, rfl, ⟨hv.through, fun _ => ?_⟩, .inr ⟨e, v, hi, hmore, hv, rfl⟩⟩
      rw [hi]
      exact Option.some_ne_none e
  have hpositive : ∀ v : Writing (Bytes × ℕ), (∃ i, v.At a offset before buffer i) →
      decide (v.count ≠ 0) = true → 0 < v.count.toNat := by
    intro v _ hne
    exact Nat.pos_of_ne_zero fun hz => of_decide_eq_true hne (UInt32.toNat_inj.mp hz)
  obtain ⟨r, hr, hend⟩ := loop_correct _ _ (fun v : Writing (Bytes × ℕ) => v.count.toNat)
    hpositive hround ⟨0, h⟩ hfuel
  refine ⟨r, ?_⟩
  cases r with
  | inl x =>
    obtain ⟨i, v', rfl, hstops, hended⟩ := hend
    exact ⟨i, v', hr, .inl rfl, hstops, hended⟩
  | inr v' =>
    obtain ⟨⟨i, hv'⟩, hdone⟩ := hend
    have hmore : ¬ a.More i := fun hm => of_decide_eq_false hdone (hv'.more_iff.mp hm)
    exact ⟨i, v', hr, .inr rfl, ⟨hv'.through, fun hm => absurd hm hmore⟩, .inl ⟨hv', hmore⟩⟩

/-- What is known behind the loop, in either case. -/
theorem Writing.Ended.known (h : v.Ended a offset before buffer i) :
    v.cache.type = .write ∧ v.cache.new = a.new ∧ v.wrote.toNat = a.taken i ∧
      (v.wrote ≠ 0 → v.cache.count ≠ 0) ∧ v.file = a.landed before buffer i ∧
      v.remote.2 = (if a.More i then i + 1 else i) ∧ (v.failed.isSome ↔ a.More i) := by
  rcases h with ⟨hv, hmore⟩ | ⟨e, w, -, hmore, hw, rfl⟩
  · rw [if_neg hmore]
    refine ⟨hv.type, hv.new, hv.wrote, hv.nonempty, hv.landed, hv.sent, ?_⟩
    rw [hv.failed]
    exact ⟨fun h => absurd h (by simp), fun h => absurd h hmore⟩
  · rw [if_pos hmore]
    exact ⟨hw.type, hw.new, hw.wrote, hw.nonempty, hw.landed, rfl, fun _ => hmore, fun _ => rfl⟩

/-- **Behind the loop** the probing octet changes nothing but the result, and `result >= 0 ? wrote :
result` makes the number of octets taken an `int`. -/
theorem Writing.Ended.probe (h : v.Ended a offset before buffer i) (ino : ℕ) (free : ℤ) :
    logical ⟨some (v.probe (faulty a.fails) ino).cache, free,
        (v.probe (faulty a.fails) ino).remote⟩ = a.landed before buffer i ∧
      ((a.Fails i ∧ ∃ e, (v.probe (faulty a.fails) ino).result = .error e) ∨
        (¬ a.Fails i ∧ (v.probe (faulty a.fails) ino).result = intResult (a.taken i))) := by
  obtain ⟨htype, hnew, hwrote, hnonempty, hfile, hsent, hfailed⟩ := h.known
  have hiff : v.cache.new ∧ v.wrote ≠ 0 ↔ a.new ∧ a.taken i ≠ 0 := by
    rw [hnew, ← hwrote, ne_eq, ← UInt32.toNat_inj]
    rfl
  by_cases hprobe : v.cache.new ∧ v.wrote ≠ 0
  · have hfails : a.Fails i ↔ a.fails v.remote.2 ≠ none := by
      rw [Course.Fails, if_pos (hiff.mp hprobe), hsent]
    rw [Writing.probe, if_pos hprobe]
    cases hp : a.fails v.remote.2 with
    | some e =>
      have hwrite : (faulty a.fails).write v.name v.cache.offset (fetch v.cache.data 0 1) ino
          v.remote = ⟨.error e, v.name, (v.remote.1, v.remote.2 + 1)⟩ := by
        simp only [faulty, hp]
      rw [hwrite]
      refine ⟨?_, .inl ⟨hfails.mpr ?_, e, rfl⟩⟩
      · simp only [logical, htype]
        exact hfile
      · rw [hp]
        exact Option.some_ne_none e
    | none =>
      have hwrite : (faulty a.fails).write v.name v.cache.offset (fetch v.cache.data 0 1) ino
          v.remote = ⟨.ok 1, v.name,
            (store v.remote.1 v.cache.offset (fetch v.cache.data 0 1), v.remote.2 + 1)⟩ := by
        simp only [faulty, hp, length_fetch]
      -- the octet sent ahead is the first one of the buffer, so the logical file has it already
      have hcovered : (fetch v.cache.data 0 1).length ≤ v.cache.held.length := by
        rw [length_fetch, FCache.length_held]
        exact Nat.pos_of_ne_zero (hnonempty hprobe.2)
      rw [hwrite]
      refine ⟨?_, .inr ⟨fun h => hfails.mp h hp, by rw [← hwrote]; rfl⟩⟩
      simp only [logical, htype]
      exact (store_covered _ _ hcovered).trans hfile
  · have hfails : a.Fails i ↔ a.More i := by
      rw [Course.Fails, if_neg fun h => hprobe (hiff.mpr h)]
    rw [Writing.probe, if_neg hprobe, hfails, ← hfailed, Writing.result, ← hwrote]
    simp only [logical, htype]
    refine ⟨hfile, ?_⟩
    cases v.failed with
    | none =>
      dsimp only
      exact .inr ⟨Bool.false_ne_true, .refl _⟩
    | some e => exact .inl ⟨rfl, e, rfl⟩

/-- What `int` makes of the octets taken. -/
theorem Course.returns (htaken : a.taken i < 2 ^ 32) {result : Except Errno ℕ}
    (h : (a.Fails i ∧ ∃ e, result = .error e) ∨ (¬ a.Fails i ∧ result = intResult (a.taken i))) :
    (a.Negative i ∧ ∃ e, result = .error e) ∨ (¬ a.Negative i ∧ result = .ok (a.taken i)) := by
  rcases h with ⟨hf, he⟩ | ⟨hf, heq⟩
  · exact .inl ⟨.inl hf, he⟩
  · rw [heq]
    by_cases hbig : 2 ^ 31 ≤ a.taken i
    · exact .inl ⟨.inr hbig, intResult_of_le hbig htaken⟩
    · exact .inr ⟨fun hn => hn.elim hf hbig, intResult_of_lt (Nat.lt_of_not_le hbig)⟩

variable (offset) in
/-- **What a write through a buffer does**: it stops after some flush, leaves the octets taken in
the logical file, and fails or returns their number. -/
theorem fcacheFileWrite_landed {mem : Memory} {f : OpenFile} {c : FCache} {count : UInt32}
    {free : ℤ} {far : Bytes} {s : Slot (Bytes × ℕ)} {fuel : ℕ} (hpos : 0 < size.toNat)
    (hs : s.alloc mem = ⟨some c, free, (far, 0)⟩) (hheld : c.count ≤ size.toNat) (hne : count ≠ 0)
    (hlen : buffer.length = count.toNat) (hfuel : count.toNat ≤ fuel) :
    ∃ i result s', fcacheFileWrite (faulty p) size fuel mem f.file offset count buffer s =
        some (.back result s' []) ∧
      (course p size c offset count).Stops i ∧
      logical s' =
        (course p size c offset count).landed (logical ⟨some c, free, (far, 0)⟩) buffer i ∧
      (((course p size c offset count).Negative i ∧ ∃ e, result = .error e) ∨
        (¬ (course p size c offset count).Negative i ∧
          result = .ok ((course p size c offset count).taken i))) := by
  obtain ⟨v, hstart, hv⟩ := Writing.start_at p offset hheld hne hlen f.name far free
  have hcount : v.count.toNat ≤ fuel := by
    have hleft := hv.left
    change _ = count.toNat at hleft
    omega
  obtain ⟨r, i, v', hloop, hr, hstops, hended⟩ :=
    hv.ends rfl hpos hlen count.toNat_lt rfl f.ino hcount
  obtain ⟨hlogical, hresult⟩ := hended.probe f.ino free
  have htaken : (course p size c offset count).taken i < 2 ^ 32 :=
    (min_le_left ..).trans_lt count.toNat_lt
  refine ⟨i, _, _, ?_, hstops, hlogical, Course.returns htaken hresult⟩
  rw [fcacheFileWrite, OpenFile.checkName]
  dsimp only
  rw [hs]
  dsimp only
  rw [hstart]
  dsimp only
  have hloop' : loop (fun v => decide (v.count ≠ 0)) (Writing.drain (faulty p) size f.ino) fuel v =
      some r := hloop
  rw [hloop']
  rcases hr with rfl | rfl <;> rfl

/-- A call through a buffer is truthful if its course keeps what it says. -/
theorem truthful_iff_kept {mem : Memory} {f : OpenFile} {c : FCache} {count : UInt32}
    {free : ℤ} {far : Bytes} {s : Slot (Bytes × ℕ)} {fuel : ℕ} (hpos : 0 < size.toNat)
    (hs : s.alloc mem = ⟨some c, free, (far, 0)⟩) (hheld : c.count ≤ size.toNat) (hne : count ≠ 0)
    (hlen : buffer.length = count.toNat) (hfuel : count.toNat ≤ fuel) :
    Truthful (logical ⟨some c, free, (far, 0)⟩) offset buffer
        (fcacheFileWrite (faulty p) size fuel mem f.file offset count buffer s) ↔
      ∀ i, (course p size c offset count).Stops i →
        (course p size c offset count).Kept (logical ⟨some c, free, (far, 0)⟩) buffer i := by
  obtain ⟨i, result, s', hcall, hstops, hlanded, hresult⟩ :=
    fcacheFileWrite_landed offset (p := p) (f := f) hpos hs hheld hne hlen hfuel
  have hfor : (∀ j, (course p size c offset count).Stops j →
      (course p size c offset count).Kept (logical ⟨some c, free, (far, 0)⟩) buffer j) ↔
      (course p size c offset count).Kept (logical ⟨some c, free, (far, 0)⟩) buffer i :=
    ⟨fun h => h i hstops, fun h j hj => hj.unique hstops ▸ h⟩
  rw [hcall, hfor, Course.Kept, ← hlanded]
  rcases hresult with ⟨hf, e, rfl⟩ | ⟨hf, rfl⟩
  · exact ⟨fun h => ⟨fun _ => h, fun hnf => absurd hf hnf⟩, fun h => h.1 hf⟩
  · have hle : (course p size c offset count).taken i ≤ buffer.length := by
      rw [hlen]
      exact min_le_left ..
    exact ⟨fun h => ⟨fun hf' => absurd hf' hf, fun _ => h.2⟩, fun h => ⟨hle, h.2 hf⟩⟩

end Write

/-! ## The condition -/

/-- A buffer and a remote file with these octets. -/
def holding (cache : Option FCache) (free : ℤ) (far data : Bytes) : Slot (Bytes × ℕ) :=
  ⟨cache.map fun c => { c with data := data }, free, (far, 0)⟩

/-- The buffer that a call works with. -/
def buffered (cache : Option FCache) (free : ℤ) (mem : Memory) : Option FCache :=
  cache.or (allocFcache mem free).1

section Truth

variable {p : ℕ → Option Errno} {size offset count : UInt32} {cache : Option FCache} {free : ℤ}
  {mem : Memory} {f : OpenFile} {fuel : ℕ}

/-- The octets of an empty file under a buffer of zeros. -/
theorem getD_logical_zero (c : FCache) (x : ℕ) :
    (logical ⟨some { c with data := [] }, free, ([], 0)⟩).getD x 0 = 0 := by
  unfold logical
  dsimp only
  split
  · rfl
  · rw [getD_store, FCache.held]
    split
    · rw [getD_fetch]
      split <;> rfl
    · rfl

/-- The two directions, for a call that works with the buffer `c`. -/
theorem truthful_iff_safe (hpos : 0 < size.toNat) (hne : count ≠ 0) (hfuel : count.toNat ≤ fuel)
    {c : FCache} (hheld : c.count ≤ size.toNat) {s : Bytes → Bytes → Slot (Bytes × ℕ)}
    {d : Bytes → Bytes → Bytes}
    (hs : ∀ far data, (s far data).alloc mem =
      ⟨some { c with data := d far data }, free, (far, 0)⟩)
    (hlogical : ∀ far data, logical (s far data) =
      logical ⟨some { c with data := d far data }, free, (far, 0)⟩)
    (hzero : ∀ x, (logical (s [] [])).getD x 0 = 0) :
    (∀ far data buffer : Bytes, buffer.length = count.toNat →
      Truthful (logical (s far data)) offset buffer
        (fcacheFileWrite (faulty p) size fuel mem f.file offset count buffer (s far data))) ↔
      (course p size c offset count).Safe := by
  have hcount : 0 < count.toNat := Nat.pos_of_ne_zero fun h => hne (UInt32.toNat_inj.mp h)
  constructor
  · intro h
    have htrue := h [] [] (List.replicate count.toNat 1) List.length_replicate
    rw [hlogical, truthful_iff_kept hpos (hs [] []) hheld hne List.length_replicate hfuel] at htrue
    rw [hlogical] at hzero
    exact Course.safe_of_kept hpos offset.toNat_lt count.toNat_lt hcount hzero htrue
  · intro h far data buffer hlen
    rw [hlogical, truthful_iff_kept hpos (hs far data) hheld hne hlen hfuel]
    exact fun i hi => Course.Safe.kept h hcount hlen.symm hi

/-- A write without a buffer is the write of the remote side, whose result is an `int`. -/
theorem fcacheFileWrite_direct (hnew : (allocFcache mem free).1 = none) (far data : Bytes)
    {buffer : Bytes} (hlen : buffer.length = count.toNat) :
    fcacheFileWrite (faulty p) size fuel mem f.file offset count buffer
      (holding none free far data) = some (match p 0 with
        | some e => .back (.error e) ⟨none, (allocFcache mem free).2, (far, 1)⟩ []
        | none => .back (intResult count.toNat)
            ⟨none, (allocFcache mem free).2, (store far offset.toNat buffer, 1)⟩ []) := by
  have halloc : (holding none free far data).alloc mem =
      ⟨none, (allocFcache mem free).2, (far, 0)⟩ :=
    congrArg (fun c => (⟨c, (allocFcache mem free).2, (far, 0)⟩ : Slot (Bytes × ℕ))) hnew
  rw [fcacheFileWrite, OpenFile.checkName]
  dsimp only
  rw [halloc]
  dsimp only [faulty]
  rw [← hlen, List.take_length]
  cases p 0 <;> dsimp only [Except.bind]

/-- It is truthful for all octets if it fails, or their number is an `int`. -/
theorem truthful_direct_iff (hne : count ≠ 0) (hnew : (allocFcache mem free).1 = none) :
    (∀ far data buffer : Bytes, buffer.length = count.toNat →
      Truthful (logical (holding none free far data)) offset buffer
        (fcacheFileWrite (faulty p) size fuel mem f.file offset count buffer
          (holding none free far data))) ↔
      (p 0 = none → count.toNat < 2 ^ 31) := by
  constructor
  · intro h hp
    by_contra hbig
    have htrue := h [] [] (List.replicate count.toNat 1) List.length_replicate
    rw [fcacheFileWrite_direct hnew [] [] List.length_replicate, hp] at htrue
    obtain ⟨e, he⟩ := intResult_of_le (Nat.le_of_not_lt hbig) count.toNat_lt
    simp only [he] at htrue
    -- the first octet is in the file, and the result says that nothing is
    have hfirst : (store [] offset.toNat (List.replicate count.toNat 1)).getD offset.toNat 0 = 0 :=
      congrArg (fun d : Bytes => d.getD offset.toNat 0) htrue
    have hpos : 0 < count.toNat := Nat.pos_of_ne_zero fun h => hne (UInt32.toNat_inj.mp h)
    rw [getD_store, if_pos (by rw [List.length_replicate]; omega), Nat.sub_self] at hfirst
    rw [List.getD_eq_getElem _ _ (by rwa [List.length_replicate]), List.getElem_replicate] at hfirst
    exact absurd hfirst (by decide)
  · intro h far data buffer hlen
    rw [fcacheFileWrite_direct hnew far data hlen]
    cases hp : p 0 with
    | some e => exact rfl
    | none =>
      simp only [intResult_of_lt (h hp)]
      rw [← hlen]
      exact ⟨le_rfl, by rw [List.take_length]; exact .refl _⟩

/-- **When `fcache_file_write` tells the truth**, for all octets in the remote file, in the buffer
of the inode and in the one of the caller: exactly if the course is safe or, where there is no
buffer to be had, the write that goes to the server fails or is of less than 2^31 octets. -/
theorem fcacheFileWrite_truthful_iff (hpos : 0 < size.toNat)
    (hroom : ∀ c ∈ cache, c.count ≤ size.toNat) (hne : count ≠ 0) (hfuel : count.toNat ≤ fuel) :
    (∀ far data buffer : Bytes, buffer.length = count.toNat →
      Truthful (logical (holding cache free far data)) offset buffer
        (fcacheFileWrite (faulty p) size fuel mem f.file offset count buffer
          (holding cache free far data))) ↔
      (buffered cache free mem = none → p 0 = none → count.toNat < 2 ^ 31) ∧
        ∀ c ∈ buffered cache free mem, (course p size c offset count).Safe := by
  cases cache with
  | some c =>
    refine (truthful_iff_safe (s := holding (some c) free) (d := fun _ data => data) hpos hne hfuel
      (hroom c rfl) (fun _ _ => rfl) (fun _ _ => rfl) (getD_logical_zero c)).trans ?_
    exact ⟨fun h => ⟨nofun, fun c' hc' => Option.some.inj hc' ▸ h⟩, fun h => h.2 c rfl⟩
  | none =>
    have halloc : ∀ far data, (holding none free far data).alloc mem =
        ⟨(allocFcache mem free).1, (allocFcache mem free).2, (far, 0)⟩ := fun _ _ => rfl
    have hbuffered : buffered none free mem = (allocFcache mem free).1 := rfl
    rw [hbuffered]
    cases hnew : (allocFcache mem free).1 with
    | none =>
      exact (truthful_direct_iff hne hnew).trans ⟨fun h => ⟨fun _ => h, nofun⟩, fun h => h.1 rfl⟩
    | some c =>
      obtain ⟨new, rfl⟩ := allocFcache_eq hnew
      have hlogical : ∀ far data, logical (holding none free far data) =
          logical ⟨some ⟨.read, true, 0, 0, new⟩, (allocFcache mem free).2, (far, 0)⟩ :=
        fun _ _ => rfl
      refine (truthful_iff_safe (s := holding none free) (c := ⟨.read, true, 0, 0, new⟩)
        (d := fun _ _ => new) hpos hne hfuel (Nat.zero_le _) (fun far data => by rw [halloc, hnew])
        hlogical (fun _ => rfl)).trans ?_
      exact ⟨fun h => ⟨nofun, fun c' hc' => Option.some.inj hc' ▸ h⟩, fun h => h.2 _ rfl⟩

end Truth

/-! ### Examples -/

/-- The first write fails. -/
def diskFull (n : ℕ) : Option Errno := if n = 0 then some .enospc else none

open CacheOp in
theorem fcacheFileWrite_truthful_iff_openA :
    (∀ far data buffer : Bytes, buffer.length = (1 : UInt32).toNat →
      Truthful (logical (holding none 1 far data)) 0 buffer
        (fcacheFileWrite (faulty diskFull) 4096 1 plenty openA.file 0 1 buffer
          (holding none 1 far data))) ↔
      (buffered none 1 plenty = none → diskFull 0 = none → (1 : UInt32).toNat < 2 ^ 31) ∧
        ∀ c ∈ buffered none 1 plenty, (course diskFull 4096 c 0 1).Safe :=
  fcacheFileWrite_truthful_iff (by decide) (by rintro _ ⟨⟩) (by decide) (by decide)

open CacheOp in
/-- A new file of one octet: the octet is in the buffer and counts, the probing write fails, and the
call says that nothing has been written. -/
theorem not_fcacheFileWrite_truthful :
    ¬ ∀ (p : ℕ → Option Errno) (size offset count : UInt32) (cache : Option FCache) (free : ℤ)
      (mem : Memory) (f : OpenFile) (fuel : ℕ) (far data buffer : Bytes), 0 < size.toNat →
      (∀ c ∈ cache, c.count ≤ size.toNat) → count ≠ 0 → count.toNat ≤ fuel →
      buffer.length = count.toNat →
      Truthful (logical (holding cache free far data)) offset buffer
        (fcacheFileWrite (faulty p) size fuel mem f.file offset count buffer
          (holding cache free far data)) := by
  intro h
  have htruth := h diskFull 4096 0 1 none 1 plenty openA 1 [] [] [65] (by decide)
    (by rintro _ ⟨⟩) (by decide) (by decide) rfl
  revert htruth
  decide +kernel

end Shfs.Words
