import Shfs.Transparency

/-!
# The file cache on `unsigned` variables

`fcache_file_read` and `fcache_file_write` once more, on the variables of their C types: `unsigned`
is `UInt32`, where sums wrap around, and the `long` fields of `struct shfs_file` are numbers. Every
copy is checked here: one that leaves the buffer of the inode or the one of the caller ends the call
with `outside`. The refills that are asked for are kept in `sent`.

For every offset, and every count that can be rounded up to pages, the functions are those of
`FileCache` (`fcacheFileRead_eq`, `fcacheFileWrite_eq`): of all variables only `offset` wraps
around. `bounded_run` is about any run of calls.
-/

namespace Shfs.Words

open Lib

/-! ## The functions -/

/-- `& PAGE_MASK` -/
def pageMask (n : UInt32) : UInt32 := n &&& 0xfffff000

/-- A difference of type `unsigned long`. -/
def ulongSub (a b : ℕ) : ℕ := (a + 2 ^ 64 - b) % 2 ^ 64

/-- A refill that is asked for, with the octet that is needed and the number of octets in the buffer
that it goes behind. -/
structure Refill : Type where
  offset : UInt32
  length : UInt32
  wanted : UInt32
  behind : ℕ
  deriving DecidableEq, Repr

/-- How a call ends: it leaves one of the buffers, or it comes back. -/
inductive Outcome (ρ σ : Type) : Type where
  | outside
  | back (result : Except Errno ρ) (s : Slot σ) (sent : List Refill)

/-- The variables of `fcache_file_read`. -/
structure Reading (σ : Type) : Type where
  name : Bytes
  offset : UInt32
  count : UInt32
  read : UInt32
  buffer : Bytes
  cache : FCache
  remote : σ
  sent : List Refill

/-- The variables of `fcache_file_write`; `buffer` is what is left of the caller's. -/
structure Writing (σ : Type) : Type where
  name : Bytes
  offset : UInt32
  count : UInt32
  wrote : UInt32
  buffer : Bytes
  cache : FCache
  remote : σ
  failed : Option Errno

section Functions

variable {σ : Type} (ops : Fops σ) (size : UInt32) (fuel : ℕ)

/-- `readahead` -/
def readahead (offset count : UInt32) (cached : ℕ) : UInt32 :=
  let o := pageMask offset
  let x := offset - o
  let ahead : UInt32 := .ofNat cached
  let ahead := if ahead < x + count then x + count else ahead
  let ahead := pageMask (ahead + 4095)
  let ahead := if ahead > size then size else ahead
  if o % ahead ≠ 0 then .ofNat (gcdLoop o.toNat ahead.toNat) else ahead

/-- `memcpy(buffer, cache->data + src, c)`, and the updates that follow it. The caller's buffer has
`room` octets. -/
def Reading.copy (room : ℕ) (v : Reading σ) (src : ℕ) (c : UInt32) : Option (Reading σ) :=
  if src + c.toNat ≤ size.toNat ∧ v.buffer.length + c.toNat ≤ room then
    some { v with
      buffer := v.buffer ++ fetch v.cache.data src c.toNat
      offset := v.offset + c
      count := v.count - c
      read := v.read + c }
  else none

/-- The part of the request that is in the buffer. -/
def Reading.hit (room : ℕ) (v : Reading σ) : Option (Reading σ) :=
  if v.cache.offset ≤ v.offset.toNat ∧ v.offset.toNat < v.cache.offset + v.cache.count then
    let o : UInt32 := .ofNat (v.offset.toNat - v.cache.offset)
    let c : UInt32 := if v.count.toNat > ulongSub v.cache.count o.toNat then
      .ofNat (ulongSub v.cache.count o.toNat) else v.count
    v.copy size room o.toNat c
  else some v

/-- Dirty octets give way to the read. -/
def Reading.flush (ino : ℕ) (v : Reading σ) : Option (Reading σ) :=
  if v.count ≠ 0 ∧ v.cache.type = .write then
    if v.cache.count ≤ size.toNat then
      let w := ops.write v.name v.cache.offset v.cache.held ino v.remote
      some { v with
        name := w.name
        cache := { v.cache with type := .read, offset := v.offset.toNat, count := 0 }
        remote := w.remote }
    else none
  else some v

/-- A round of the loop. -/
def Reading.fill (room : ℕ) (v : Reading σ) : Option (Errno × Reading σ) ⊕ Reading σ :=
  let o := pageMask v.offset
  let x := v.offset - o
  let cache := if v.cache.offset + v.cache.count = v.offset.toNat then v.cache
    else { v.cache with offset := o.toNat, count := 0 }
  let ahead := readahead size v.offset v.count cache.count
  let cache := if cache.count + ahead.toNat > size.toNat then
    { cache with offset := o.toNat, count := 0 } else cache
  let r := ops.read v.name o.toNat ahead.toNat 0 v.remote
  let v := { v with
    name := r.name
    remote := r.remote
    sent := v.sent ++ [(⟨o, ahead, v.offset, cache.count⟩ : Refill)] }
  match r.result with
  | .error e => .inl (some (e, { v with cache := { cache with count := 0 } }))
  | .ok d =>
    if cache.count + d.length ≤ size.toNat then
      let v := { v with cache := { cache with data := store cache.data cache.count d } }
      let c := UInt32.ofNat d.length - x
      match v.copy size room (cache.count + x.toNat) (if c > v.count then v.count else c) with
      | none => .inl none
      | some v => .inr { v with cache := { v.cache with count := v.cache.count + d.length } }
    else .inl none

/-- `fcache_file_read`, which returns `read` and leaves these octets in the caller's buffer. -/
def fcacheFileRead (mem : Memory) (f : File) (offset count : UInt32) (s : Slot σ) :
    Option (Outcome (UInt32 × Bytes) σ) :=
  match f.checkName with
  | .error e => some (.back (.error e) s [])
  | .ok (ino, name) =>
    let s := s.alloc mem
    match s.cache with
    | none =>
      let r := ops.read name offset.toNat count.toNat 0 s.remote
      match r.result with
      | .error e => some (.back (.error e) { s with remote := r.remote } [])
      | .ok d =>
        if d.length ≤ count.toNat then
          some (.back (.ok (.ofNat d.length, d)) { s with remote := r.remote } [])
        else some .outside
    | some c =>
      let v : Option (Reading σ) :=
        (Reading.hit size count.toNat ⟨name, offset, count, 0, [], c, s.remote, []⟩).bind
          (Reading.flush ops size ino)
      match v with
      | none => some .outside
      | some v =>
        (loop (fun v => decide (v.count ≠ 0)) (Reading.fill ops size count.toNat) fuel v).map fun
          | .inl none => .outside
          | .inl (some (e, v)) =>
            .back (.error e) { s with cache := some v.cache, remote := v.remote } v.sent
          | .inr v =>
            .back (.ok (v.read, v.buffer)) { s with cache := some v.cache, remote := v.remote }
              v.sent

/-- `memcpy(cache->data + o, buffer, c)`, and the updates that follow it; `count` octets of the
buffer count then. -/
def Writing.put (v : Writing σ) (o : ℕ) (c : UInt32) (count : ℕ) : Option (Writing σ) :=
  if o + c.toNat ≤ size.toNat ∧ c.toNat ≤ v.buffer.length then
    some { v with
      offset := v.offset + c
      count := v.count - c
      buffer := v.buffer.drop c.toNat
      wrote := v.wrote + c
      cache :=
        { v.cache with data := store v.cache.data o (v.buffer.take c.toNat), count := count } }
  else none

/-- Octets that are in the buffer already are written over. -/
def Writing.overwrite (v : Writing σ) : Option (Writing σ) :=
  if v.cache.offset ≤ v.offset.toNat ∧ v.offset.toNat < v.cache.offset + v.cache.count then
    let o : UInt32 := .ofNat (v.offset.toNat - v.cache.offset)
    let c := if v.count > size - o then size - o else v.count
    v.put size o.toNat c
      (if (o + c).toNat > v.cache.count then (o + c).toNat else v.cache.count)
  else some v

/-- Octets right behind those in the buffer are added. -/
def Writing.append (v : Writing σ) : Option (Writing σ) :=
  if v.count ≠ 0 ∧ v.offset.toNat = v.cache.offset + v.cache.count then
    let o : UInt32 := .ofNat (v.offset.toNat - v.cache.offset)
    let c : UInt32 := if v.count.toNat > ulongSub size.toNat v.cache.count then
      .ofNat (ulongSub size.toNat v.cache.count) else v.count
    v.put size o.toNat c (v.cache.count + c.toNat)
  else some v

/-- A round of the loop; `.inl (some v)` is the `break`. -/
def Writing.drain (ino : ℕ) (v : Writing σ) : Option (Writing σ) ⊕ Writing σ :=
  if v.cache.count ≤ size.toNat then
    let w := ops.write v.name v.cache.offset v.cache.held ino v.remote
    let v := { v with name := w.name, remote := w.remote }
    match w.result with
    | .error e => .inl (some { v with failed := some e })
    | .ok _ =>
      let c := if v.count > size then size else v.count
      let v := { v with cache := { v.cache with offset := v.offset.toNat } }
      match v.put size 0 c c.toNat with
      | none => .inl none
      | some v => .inr v
  else .inl none

/-- The octet that is sent after the first write to a new buffer. -/
def Writing.probe (ino : ℕ) (v : Writing σ) : Writing σ :=
  if v.cache.new ∧ v.wrote ≠ 0 then
    let w := ops.write v.name v.cache.offset (fetch v.cache.data 0 1) ino v.remote
    { v with
      name := w.name
      remote := w.remote
      cache := { v.cache with new := false }
      failed := match w.result with
        | .error e => some e
        | .ok _ => none }
  else v

/-- `result >= 0 ? wrote : result` -/
def Writing.result (v : Writing σ) : Except Errno ℕ :=
  match v.failed with
  | some e => .error e
  | none => intResult v.wrote.toNat

/-- `fcache_file_write` of the `count` octets `buffer`. -/
def fcacheFileWrite (mem : Memory) (f : File) (offset count : UInt32) (buffer : Bytes)
    (s : Slot σ) : Option (Outcome ℕ σ) :=
  match f.checkName with
  | .error e => some (.back (.error e) s [])
  | .ok (ino, name) =>
    let s := s.alloc mem
    match s.cache with
    | none =>
      let w := ops.write name offset.toNat (buffer.take count.toNat) ino s.remote
      some (.back (w.result.bind intResult) { s with remote := w.remote } [])
    | some c =>
      let v : Option (Writing σ) :=
        (Writing.overwrite size ⟨name, offset, count, 0, buffer, c.forWrite offset.toNat, s.remote,
          none⟩).bind (Writing.append size)
      match v with
      | none => some .outside
      | some v =>
        (loop (fun v => decide (v.count ≠ 0)) (Writing.drain ops size ino) fuel v).map fun
          | .inl none => .outside
          | .inl (some v) =>
            let v := v.probe ops ino
            .back v.result { s with cache := some v.cache, remote := v.remote } []
          | .inr v =>
            let v := v.probe ops ino
            .back v.result { s with cache := some v.cache, remote := v.remote } []

end Functions

/-! ## Nothing wraps around -/

theorem toNat_pageMask (n : UInt32) : (pageMask n).toNat = pageBase n.toNat := by
  have hmask : (0xfffff000 : UInt32).toNat = (2 ^ 20 - 1) <<< 12 := by decide
  have hpage : pageBase n.toNat = (n.toNat >>> 12) <<< 12 := by
    rw [Nat.shiftLeft_eq, Nat.shiftRight_eq_div_pow]
    rfl
  rw [pageMask, UInt32.toNat_and, hmask, hpage]
  apply Nat.eq_of_testBit_eq
  intro i
  rw [Nat.testBit_and, Nat.testBit_shiftLeft, Nat.testBit_shiftLeft, Nat.testBit_shiftRight,
    Nat.testBit_two_pow_sub_one]
  by_cases hi : 12 ≤ i
  · rw [Nat.add_sub_cancel' hi, decide_eq_true hi, Bool.true_and, Bool.true_and]
    by_cases h32 : i < 32
    · rw [decide_eq_true (show i - 12 < 20 by omega), Bool.and_true]
    · -- the word has no such bit
      have hbit : n.toNat.testBit i = false :=
        Nat.testBit_lt_two_pow (n.toNat_lt.trans_le (Nat.pow_le_pow_right (by decide) (by omega)))
      rw [hbit, Bool.false_and]
  · rw [decide_eq_false hi, Bool.false_and, Bool.false_and, Bool.and_false]

/-- The first cell of a read is the one on numbers. -/
theorem meet_word (c : FCache) (offset : UInt32) :
    (if c.offset + c.count = offset.toNat then c
      else { c with offset := (pageMask offset).toNat, count := 0 }) = c.meet offset.toNat := by
  rw [toNat_pageMask]
  rfl

/-- So is the room that it makes. -/
theorem makeRoom_word (c : FCache) (size : ℕ) (offset : UInt32) (ahead : ℕ) :
    (if c.count + ahead > size then { c with offset := (pageMask offset).toNat, count := 0 }
      else c) = c.makeRoom size offset.toNat ahead := by
  rw [toNat_pageMask]
  rfl

theorem toNat_add {a b : UInt32} (h : a.toNat + b.toNat < 2 ^ 32) :
    (a + b).toNat = a.toNat + b.toNat := by
  rw [UInt32.toNat_add, Nat.mod_eq_of_lt h]

theorem ulongSub_of_le {a b : ℕ} (h : b ≤ a) (ha : a < 2 ^ 64) : ulongSub a b = a - b := by
  unfold ulongSub
  omega

section Arithmetic

variable {size offset count : UInt32}

theorem toNat_sub_pageMask (n : UInt32) : (n - pageMask n).toNat = n.toNat - pageBase n.toNat := by
  have hle : pageMask n ≤ n := by
    rw [UInt32.le_iff_toNat_le, toNat_pageMask]
    exact pageBase_le _
  rw [UInt32.toNat_sub_of_le _ _ hle, toNat_pageMask]

theorem lt_size (hsize : PAGE_SIZE ∣ size.toNat) : size.toNat + PAGE_SIZE ≤ 2 ^ 32 := by
  have hlt : size.toNat < 2 ^ 32 := size.toNat_lt
  unfold PAGE_SIZE at hsize ⊢
  omega

/-- `readahead` is the length of the refill on numbers, if what is needed of the pages can be
rounded up. -/
theorem toNat_readahead_of_room (hsize : PAGE_SIZE ∣ size.toNat) (hpos : 0 < size.toNat)
    (h : offset.toNat - pageBase offset.toNat + count.toNat + PAGE_SIZE ≤ 2 ^ 32)
    (hcount : count ≠ 0) {cached : ℕ} (hcached : cached ≤ size.toNat) :
    (readahead size offset count cached).toNat =
      Shfs.readahead size.toNat offset.toNat count.toNat cached := by
  have htop := lt_size hsize
  unfold PAGE_SIZE at htop h
  unfold readahead Shfs.readahead
  extract_lets o x a₀ a₁ a₂ a₃ p y b₁ b₂ b₃
  have ho : o.toNat = p := toNat_pageMask offset
  have hx : x.toNat = y := toNat_sub_pageMask offset
  -- none of the sums wraps around, so every value is the one on numbers
  have hneed : (x + count).toNat = y + count.toNat := by
    rw [toNat_add, hx]
    rw [hx]
    omega
  have h₀ : a₀.toNat = cached := UInt32.toNat_ofNat_of_lt' (show cached < 2 ^ 32 by omega)
  have h₁ : a₁.toNat = b₁ := by
    rw [show a₁ = if a₀ < x + count then x + count else a₀ from rfl, apply_ite UInt32.toNat]
    simp only [UInt32.lt_iff_toNat_lt, hneed, h₀]
    rfl
  have hb₁ : b₁ ≤ 2 ^ 32 - 4096 ∧ 0 < b₁ := by
    have hb : b₁ = if cached < y + count.toNat then y + count.toNat else cached := rfl
    have hy : y = offset.toNat - pageBase offset.toNat := rfl
    have hpages := Nat.le_of_dvd hpos hsize
    have hne : count.toNat ≠ 0 := fun h => hcount (UInt32.toNat_inj.mp h)
    unfold PAGE_SIZE at hpages
    split at hb <;> omega
  have h₂ : a₂.toNat = b₂ := by
    rw [show a₂ = pageMask (a₁ + 4095) from rfl, toNat_pageMask, toNat_add, h₁]
    · rfl
    · rw [h₁]
      exact (show b₁ + 4095 < 2 ^ 32 by omega)
  have h₃ : a₃.toNat = b₃ := by
    rw [show a₃ = if a₂ > size then size else a₂ from rfl, apply_ite UInt32.toNat]
    simp only [gt_iff_lt, UInt32.lt_iff_toNat_lt, h₂]
    rfl
  rw [apply_ite UInt32.toNat, h₃]
  have hmod : o % a₃ ≠ 0 ↔ p % b₃ ≠ 0 := by
    rw [ne_eq, ne_eq, ← UInt32.toNat_inj, UInt32.toNat_mod, ho, h₃]
    rfl
  simp only [hmod, ho]
  split
  · have hgcd : gcdLoop p b₃ ≤ b₃ := by
      rw [gcdLoop_eq]
      refine Nat.gcd_le_right p ?_
      have hb : b₃ = if pageUp b₁ > size.toNat then size.toNat else pageUp b₁ := rfl
      have hup := le_pageUp b₁
      split at hb <;> omega
    exact UInt32.toNat_ofNat_of_lt' (hgcd.trans_lt (h₃ ▸ a₃.toNat_lt))
  · rfl

/-- What is needed of its pages can be rounded up. -/
def Rounds (offset count : UInt32) : Prop :=
  offset.toNat % PAGE_SIZE + count.toNat + PAGE_SIZE ≤ 2 ^ 32

theorem Rounds.of_below (hsize : PAGE_SIZE ∣ size.toNat) (hpos : 0 < size.toNat)
    (h : offset.toNat + count.toNat + size.toNat < 2 ^ 32) : Rounds offset count := by
  have hpage := Nat.le_of_dvd hpos hsize
  have hmod := Nat.mod_le offset.toNat PAGE_SIZE
  unfold Rounds
  omega

/-- Taking octets from the front leaves a request that can be rounded up, whether its offset wraps
around or not. -/
theorem Rounds.advance (h : Rounds offset count) {c : UInt32} (hc : c.toNat ≤ count.toNat) :
    Rounds (offset + c) (count - c) := by
  have hleft : (count - c).toNat = count.toNat - c.toNat :=
    UInt32.toNat_sub_of_le _ _ (UInt32.le_iff_toNat_le.mpr hc)
  unfold Rounds PAGE_SIZE at *
  rw [hleft, UInt32.toNat_add]
  omega

theorem Rounds.toNat_readahead (h : Rounds offset count) (hsize : PAGE_SIZE ∣ size.toNat)
    (hpos : 0 < size.toNat) (hcount : count ≠ 0) {cached : ℕ} (hcached : cached ≤ size.toNat) :
    (readahead size offset count cached).toNat =
      Shfs.readahead size.toNat offset.toNat count.toNat cached :=
  toNat_readahead_of_room hsize hpos ((sub_pageBase offset.toNat).symm ▸ h) hcount hcached

end Arithmetic

/-! ## Reading -/

/-- A refill in keeping with what the server can read and with the room in the buffer: whole pages,
at most the buffer, of a length that divides the offset, with the octet that is needed among them,
and room for all of them behind those that are in the buffer. -/
structure Refill.Good (size : UInt32) (q : Refill) : Prop where
  pos : 0 < q.length.toNat
  pages : PAGE_SIZE ∣ q.length.toNat
  le : q.length.toNat ≤ size.toNat
  aligned : PAGE_SIZE ∣ q.offset.toNat
  dvd : q.length.toNat ∣ q.offset.toNat
  wanted_ge : q.offset.toNat ≤ q.wanted.toNat
  wanted_lt : q.wanted.toNat < q.offset.toNat + q.length.toNat
  behind : q.behind + q.length.toNat ≤ size.toNat

/-- The octets that count fit in the buffer. -/
def Room {σ : Type} (size : UInt32) (s : Slot σ) : Prop := ∀ c ∈ s.cache, c.count ≤ size.toNat

theorem Room.alloc {σ : Type} {size : UInt32} {s : Slot σ} (h : Room size s) (mem : Memory) :
    Room size (s.alloc mem) := by
  unfold Room
  obtain hc | ⟨-, data, hc⟩ := s.alloc_cases mem
  · rw [hc]
    exact h
  · rw [hc]
    rintro c ⟨⟩
    exact Nat.zero_le _

/-- A read brings what was asked for, or fails. -/
def Exact {σ : Type} (ops : Fops σ) : Prop :=
  ∀ name off n ino s d, (ops.read name off n ino s).result = .ok d → d.length = n

section Read

variable {σ : Type} {ops : Fops σ} {size : UInt32} {room : ℕ} {v : Reading σ}

/-- The variables as numbers. -/
def Reading.plain (v : Reading σ) : Shfs.Reading σ :=
  ⟨v.name, v.offset.toNat, v.count.toNat, v.buffer, v.cache, v.remote⟩

/-- The variables fit into their types, and what is left of the request into the caller's buffer. -/
structure Reading.Fits (size : UInt32) (room : ℕ) (v : Reading σ) : Prop where
  rounds : Rounds v.offset v.count
  top : room < 2 ^ 32
  room : v.buffer.length + v.count.toNat = room
  read : v.read.toNat = v.buffer.length
  held : v.cache.count ≤ size.toNat
  sent : ∀ q ∈ v.sent, q.Good size

/-- A copy from inside of the buffer, of octets that are still to be read. -/
theorem Reading.Fits.copy (hv : v.Fits size room) (src : ℕ) {c : UInt32}
    (hsrc : src + c.toNat ≤ size.toNat) (hc : c.toNat ≤ v.count.toNat) :
    ∃ v', v.copy size room src c = some v' ∧ v'.plain = v.plain.copy src c.toNat ∧
      v'.Fits size room := by
  have hroom := hv.room
  have htop := hv.top
  have hread := hv.read
  have hoffset : (v.offset + c).toNat = (v.offset.toNat + c.toNat) % 2 ^ 32 := UInt32.toNat_add ..
  have hcount : (v.count - c).toNat = v.count.toNat - c.toNat :=
    UInt32.toNat_sub_of_le _ _ (UInt32.le_iff_toNat_le.mpr hc)
  have hread' : (v.read + c).toNat = v.read.toNat + c.toNat := toNat_add (by omega)
  rw [Reading.copy, if_pos ⟨hsrc, by omega⟩]
  refine ⟨_, rfl, ?_, hv.rounds.advance hc, htop, ?_, ?_, hv.held, hv.sent⟩
  · simp only [Reading.plain, Shfs.Reading.copy, hoffset, hcount]
  · dsimp only
    rw [List.length_append, length_fetch]
    omega
  · dsimp only
    rw [List.length_append, length_fetch]
    omega

theorem Reading.Fits.hit (hv : v.Fits size room) :
    ∃ v', v.hit size room = some v' ∧ v'.plain = v.plain.hit ∧ v'.Fits size room := by
  have hheld := hv.held
  have hsize : size.toNat < 2 ^ 32 := size.toNat_lt
  by_cases hin : v.cache.offset ≤ v.offset.toNat ∧
      v.offset.toNat < v.cache.offset + v.cache.count
  · have hin' : v.plain.cache.offset ≤ v.plain.offset ∧
        v.plain.offset < v.plain.cache.offset + v.plain.cache.count := hin
    rw [Reading.hit, if_pos hin, Shfs.Reading.hit, if_pos hin']
    have ho : (UInt32.ofNat (v.offset.toNat - v.cache.offset)).toNat =
        v.offset.toNat - v.cache.offset :=
      UInt32.toNat_ofNat_of_lt' (show _ < 2 ^ 32 by omega)
    have hsub : ulongSub v.cache.count (v.offset.toNat - v.cache.offset) =
        v.cache.count - (v.offset.toNat - v.cache.offset) := ulongSub_of_le (by omega) (by omega)
    have hleft : (UInt32.ofNat (v.cache.count - (v.offset.toNat - v.cache.offset))).toNat =
        v.cache.count - (v.offset.toNat - v.cache.offset) :=
      UInt32.toNat_ofNat_of_lt' (show _ < 2 ^ 32 by omega)
    dsimp only
    rw [ho, hsub]
    set c : UInt32 := if v.count.toNat > v.cache.count - (v.offset.toNat - v.cache.offset) then
      .ofNat (v.cache.count - (v.offset.toNat - v.cache.offset)) else v.count with hc
    have hcn : c.toNat = if v.count.toNat > v.cache.count - (v.offset.toNat - v.cache.offset) then
        v.cache.count - (v.offset.toNat - v.cache.offset) else v.count.toNat := by
      rw [hc, apply_ite UInt32.toNat, hleft]
    have hle : c.toNat ≤ v.count.toNat ∧
        c.toNat ≤ v.cache.count - (v.offset.toNat - v.cache.offset) := by
      split at hcn <;> omega
    obtain ⟨v', hcopy, hplain, hv'⟩ := hv.copy (v.offset.toNat - v.cache.offset) (by omega) hle.1
    refine ⟨v', hcopy, ?_, hv'⟩
    rw [hplain, hcn]
    rfl
  · exact ⟨v, if_neg hin, (if_neg hin).symm, hv⟩

variable (ops) in
theorem Reading.Fits.flush (hv : v.Fits size room) (ino : ℕ) :
    ∃ v', v.flush ops size ino = some v' ∧ v'.plain = v.plain.flush ops ino ∧
      v'.Fits size room := by
  have hiff : v.count ≠ 0 ↔ v.plain.count ≠ 0 := by
    rw [ne_eq, ← UInt32.toNat_inj]
    rfl
  by_cases hdirty : v.count ≠ 0 ∧ v.cache.type = .write
  · have hdirty' : v.plain.count ≠ 0 ∧ v.plain.cache.type = .write :=
      ⟨hiff.mp hdirty.1, hdirty.2⟩
    rw [Reading.flush, if_pos hdirty, if_pos hv.held, Shfs.Reading.flush, if_pos hdirty']
    exact ⟨_, rfl, rfl, hv.rounds, hv.top, hv.room, hv.read, Nat.zero_le _, hv.sent⟩
  · exact ⟨v, if_neg hdirty, (if_neg fun h => hdirty ⟨hiff.mpr h.1, h.2⟩).symm, hv⟩

/-- There is room for a refill that is not larger than the buffer. -/
theorem makeRoom_le {c : FCache} {size offset ahead : ℕ} (h : ahead ≤ size) :
    (c.makeRoom size offset ahead).count + ahead ≤ size := by
  unfold FCache.makeRoom
  split
  · simpa using h
  · next hle => exact not_lt.mp hle

/-- What a round asks for, next to the one on numbers. -/
theorem Reading.Fits.asks (hsize : PAGE_SIZE ∣ size.toNat) (hpos : 0 < size.toNat)
    (hv : v.Fits size room) (hne : v.count ≠ 0) :
    (readahead size v.offset v.count (v.cache.meet v.offset.toNat).count).toNat =
        v.plain.ahead size.toNat ∧
      Refill.Good size ⟨pageMask v.offset,
        readahead size v.offset v.count (v.cache.meet v.offset.toNat).count, v.offset,
        (v.plain.room size.toNat).count⟩ := by
  have hmeet : (v.cache.meet v.offset.toNat).count ≤ size.toNat := by
    have := hv.held
    unfold FCache.meet
    split <;> simp [this]
  have hahead : (readahead size v.offset v.count (v.cache.meet v.offset.toNat).count).toNat =
      v.plain.ahead size.toNat := hv.rounds.toNat_readahead hsize hpos hne hmeet
  have hne' : v.plain.count ≠ 0 := fun h => hne (UInt32.toNat_inj.mp h)
  obtain ⟨hlt, hle, hpages, hdvd⟩ :=
    readahead_spec hsize hpos v.plain.offset (v.plain.cache.meet v.plain.offset).count hne'
  have hbase := pageBase_le v.offset.toNat
  have hmod := sub_pageBase v.offset.toNat
  have hin : v.offset.toNat % PAGE_SIZE < PAGE_SIZE := Nat.mod_lt _ (by decide)
  have hpage := Nat.le_of_dvd hlt hpages
  refine ⟨hahead, ?_, ?_, ?_, ?_, ?_, ?_, ?_, ?_⟩
  · exact hahead ▸ hlt
  · exact hahead ▸ hpages
  · exact hahead ▸ hle
  · exact toNat_pageMask v.offset ▸ dvd_pageBase _
  · dsimp only
    rw [hahead, toNat_pageMask]
    exact hdvd
  · dsimp only
    rw [toNat_pageMask]
    exact hbase
  · dsimp only
    rw [hahead, toNat_pageMask]
    change _ < _ + Shfs.readahead _ v.plain.offset _ _
    omega
  · dsimp only
    rw [hahead]
    exact makeRoom_le hle

/-- `n` more octets of the buffer count. -/
def grown (n : ℕ) (v : Shfs.Reading σ) : Shfs.Reading σ :=
  { v with cache := { v.cache with count := v.cache.count + n } }

/-- A round on numbers that fails. -/
theorem plain_fill_error {v : Shfs.Reading σ} {size : ℕ} {r : Done Bytes σ} {e : Errno}
    (hr : ops.read v.name (pageBase v.offset) (v.ahead size) 0 v.remote = r)
    (h : r.result = .error e) :
    v.fill ops size = .inl (e,
      { v with name := r.name, cache := { v.room size with count := 0 }, remote := r.remote }) := by
  subst hr
  unfold Reading.ahead at h
  unfold Shfs.Reading.fill
  dsimp only
  rw [h]
  rfl

/-- A round on numbers that brings octets. -/
theorem plain_fill_ok {v : Shfs.Reading σ} {size : ℕ} {r : Done Bytes σ} {d : Bytes}
    (hr : ops.read v.name (pageBase v.offset) (v.ahead size) 0 v.remote = r)
    (h : r.result = .ok d) :
    v.fill ops size = .inr (grown d.length
      (({ v with
          name := r.name
          cache := { v.room size with data := store (v.room size).data (v.room size).count d }
          remote := r.remote } : Shfs.Reading σ).copy
        ((v.room size).count + (v.offset - pageBase v.offset))
        (if d.length < v.offset - pageBase v.offset ∨
            d.length - (v.offset - pageBase v.offset) > v.count then v.count
          else d.length - (v.offset - pageBase v.offset)))) := by
  subst hr
  unfold Reading.ahead at h
  unfold Shfs.Reading.fill
  dsimp only
  rw [h]
  rfl

/-- A round of the loop, next to the one on numbers. -/
theorem Reading.Fits.fill (hops : Exact ops) (hsize : PAGE_SIZE ∣ size.toNat)
    (hpos : 0 < size.toNat) (hv : v.Fits size room) (hne : v.count ≠ 0) :
    (∃ e v', v.fill ops size room = .inl (some (e, v')) ∧
      v.plain.fill ops size.toNat = .inl (e, v'.plain) ∧ v'.Fits size room) ∨
    ∃ v', v.fill ops size room = .inr v' ∧ v.plain.fill ops size.toNat = .inr v'.plain ∧
      v'.Fits size room ∧ v'.count.toNat < v.count.toNat := by
  obtain ⟨hahead, hgood⟩ := hv.asks hsize hpos hne
  set ahead := readahead size v.offset v.count (v.cache.meet v.offset.toNat).count with hdef
  have hmask := toNat_pageMask v.offset
  have hx := toNat_sub_pageMask v.offset
  have hroom : (v.cache.meet v.offset.toNat).makeRoom size.toNat v.offset.toNat ahead.toNat =
      v.plain.room size.toNat := by
    rw [hahead]
    rfl
  have hsent : ∀ q ∈ v.sent ++
      [⟨pageMask v.offset, ahead, v.offset, (v.plain.room size.toNat).count⟩], q.Good size := by
    intro q hq
    rcases List.mem_append.mp hq with hq | hq
    · exact hv.sent q hq
    · exact List.mem_singleton.mp hq ▸ hgood
  have hbehind : (v.plain.room size.toNat).count + ahead.toNat ≤ size.toNat := hgood.behind
  have hpage : PAGE_SIZE ≤ ahead.toNat := Nat.le_of_dvd hgood.pos hgood.pages
  have hin : v.offset.toNat - pageBase v.offset.toNat < PAGE_SIZE := by
    rw [sub_pageBase]
    exact Nat.mod_lt _ (by decide)
  have hne' : v.count.toNat ≠ 0 := fun h => hne (UInt32.toNat_inj.mp h)
  rw [Reading.fill]
  dsimp only
  rw [meet_word, ← hdef, makeRoom_word, hroom, hmask, hahead]
  set r := ops.read v.name (pageBase v.offset.toNat) (v.plain.ahead size.toNat) 0 v.remote with hr
  cases hres : r.result with
  | error e =>
    left
    refine ⟨e, _, rfl, ?_, hv.rounds, hv.top, hv.room, hv.read, Nat.zero_le _, hsent⟩
    exact plain_fill_error (v := v.plain) hr.symm hres
  | ok d =>
    right
    have hlen : d.length = ahead.toNat := hahead ▸ hops _ _ _ _ _ _ hres
    have hcast : (UInt32.ofNat d.length).toNat = d.length := by
      rw [hlen, UInt32.ofNat_toNat]
    -- at least a page has come, so that the offset in the page is not past it
    have hc : (UInt32.ofNat d.length - (v.offset - pageMask v.offset)).toNat =
        d.length - (v.offset.toNat - pageBase v.offset.toNat) := by
      rw [UInt32.toNat_sub_of_le, hcast, hx]
      rw [UInt32.le_iff_toNat_le, hcast, hx]
      omega
    set w : Reading σ := { v with
      name := r.name
      remote := r.remote
      sent := v.sent ++ [⟨pageMask v.offset, ahead, v.offset, (v.plain.room size.toNat).count⟩]
      cache := { v.plain.room size.toNat with
        data := store (v.plain.room size.toNat).data (v.plain.room size.toNat).count d } } with hw
    have hwfits : w.Fits size room :=
      ⟨hv.rounds, hv.top, hv.room, hv.read,
        show (v.plain.room size.toNat).count ≤ _ by omega, hsent⟩
    set c : UInt32 :=
      if UInt32.ofNat d.length - (v.offset - pageMask v.offset) > v.count then v.count
      else UInt32.ofNat d.length - (v.offset - pageMask v.offset) with hcdef
    have hcn : c.toNat = if d.length < v.offset.toNat - pageBase v.offset.toNat ∨
        d.length - (v.offset.toNat - pageBase v.offset.toNat) > v.count.toNat then v.count.toNat
        else d.length - (v.offset.toNat - pageBase v.offset.toNat) := by
      rw [hcdef, apply_ite UInt32.toNat]
      simp only [gt_iff_lt, UInt32.lt_iff_toNat_lt, hc]
      split <;> split <;> omega
    have hcle : c.toNat ≤ v.count.toNat ∧ 0 < c.toNat ∧
        v.offset.toNat - pageBase v.offset.toNat + c.toNat ≤ d.length := by
      split at hcn <;> omega
    -- the copy is inside of both buffers, and goes on as on numbers
    obtain ⟨v', hcopy, hplain, hv'⟩ := hwfits.copy
      ((v.plain.room size.toNat).count + (v.offset - pageMask v.offset).toNat) (c := c)
      (by rw [hx]; omega) hcle.1
    have hcache : v'.cache = w.cache := congrArg (·.cache) hplain
    have hcount : v'.count.toNat = v.count.toNat - c.toNat := congrArg (·.count) hplain
    have hheld : v'.cache.count + d.length ≤ size.toNat := by
      rw [hcache, hlen]
      exact hbehind
    refine ⟨{ v' with cache := { v'.cache with count := v'.cache.count + d.length } }, ?_, ?_,
      ⟨hv'.rounds, hv'.top, hv'.room, hv'.read, hheld, hv'.sent⟩, ?_⟩
    · rw [hcache] at hheld
      dsimp only
      rw [if_pos hheld, hcopy]
    · rw [plain_fill_ok (v := v.plain) hr.symm hres]
      change _ = Sum.inr (grown d.length v'.plain)
      rw [hplain, hcn, hx]
      rfl
    · change v'.count.toNat < _
      omega

/-- The loop ends, and with what the loop on numbers ends with. -/
theorem Reading.Fits.runs (hops : Exact ops) (hsize : PAGE_SIZE ∣ size.toNat)
    (hpos : 0 < size.toNat) (hv : v.Fits size room) {fuel : ℕ} (hfuel : v.count.toNat ≤ fuel) :
    (∃ e v', loop (fun v => decide (v.count ≠ 0)) (Reading.fill ops size room) fuel v =
        some (.inl (some (e, v'))) ∧
      loop (fun v => decide (v.count ≠ 0)) (Shfs.Reading.fill ops size.toNat) fuel v.plain =
        some (.inl (e, v'.plain)) ∧ v'.Fits size room) ∨
    ∃ v', loop (fun v => decide (v.count ≠ 0)) (Reading.fill ops size room) fuel v =
        some (.inr v') ∧
      loop (fun v => decide (v.count ≠ 0)) (Shfs.Reading.fill ops size.toNat) fuel v.plain =
        some (.inr v'.plain) ∧ v'.Fits size room := by
  have hround : ∀ v : Reading σ, v.Fits size room → decide (v.count ≠ 0) = true →
      ∀ v', v.fill ops size room = .inr v' →
        v'.Fits size room ∧ v'.count.toNat < v.count.toNat := by
    intro v hv hne v' hfill
    rcases hv.fill hops hsize hpos (of_decide_eq_true hne) with ⟨e, w, hw, -⟩ | ⟨w, hw, -, hrest⟩
    · rw [hw] at hfill
      cases hfill
    · rw [hw] at hfill
      obtain rfl := Sum.inr.inj hfill
      exact hrest
  have hpositive : ∀ v : Reading σ, v.Fits size room → decide (v.count ≠ 0) = true →
      0 < v.count.toNat := by
    intro v _ hne
    exact Nat.pos_of_ne_zero fun h => of_decide_eq_true hne (UInt32.toNat_inj.mp h)
  obtain ⟨r, hr⟩ := loop_total (Reading.Fits size room) (·.count.toNat) hpositive hround hv hfuel
  have hcond : ∀ (v : Reading σ) (w : Shfs.Reading σ), w = v.plain ∧ v.Fits size room →
      decide (v.count ≠ 0) = decide (w.count ≠ 0) := by
    rintro v _ ⟨rfl, -⟩
    rw [decide_eq_decide, ne_eq, ← UInt32.toNat_inj]
    rfl
  have hbody : ∀ (v : Reading σ) (w : Shfs.Reading σ), w = v.plain ∧ v.Fits size room →
      decide (v.count ≠ 0) = true →
      Sum.LiftRel (fun x y => ∃ e v', x = some (e, v') ∧ y = (e, v'.plain) ∧ v'.Fits size room)
        (fun v w => w = v.plain ∧ v.Fits size room) (v.fill ops size room)
        (w.fill ops size.toNat) := by
    rintro v _ ⟨rfl, hv⟩ hne
    rcases hv.fill hops hsize hpos (of_decide_eq_true hne) with ⟨e, v', h, h', hv'⟩ |
      ⟨v', h, h', hv', -⟩
    · rw [h, h']
      exact .inl ⟨e, v', rfl, rfl, hv'⟩
    · rw [h, h']
      exact .inr ⟨rfl, hv'⟩
  -- both loops make the same rounds, as long as the sums of every round fit
  obtain ⟨r', hr', hrel⟩ := loop_rel _ _ hcond hbody ⟨rfl, hv⟩ hr
  rw [hr, hr']
  cases hrel with
  | inl h =>
    obtain ⟨e, v', rfl, rfl, hv'⟩ := h
    exact .inl ⟨e, v', rfl, rfl, hv'⟩
  | inr h =>
    obtain ⟨rfl, hv'⟩ := h
    exact .inr ⟨_, rfl, rfl, hv'⟩

/-- **`fcache_file_read`** on 32 bits comes back with what it does on numbers, as long as what is
needed of its pages can be rounded up (`Rounds`), and its refills are good. It stays inside of the
buffers, since otherwise it would have no result. -/
theorem fcacheFileRead_eq (hops : Exact ops) (hsize : PAGE_SIZE ∣ size.toNat)
    (hpos : 0 < size.toNat) {offset count : UInt32} (hrounds : Rounds offset count) {s : Slot σ}
    (hs : Room size s) {fuel : ℕ} (hfuel : count.toNat ≤ fuel) (mem : Memory) (f : File) :
    ∃ result s' sent,
      fcacheFileRead ops size fuel mem f offset count s = some (.back result s' sent) ∧
      Shfs.fcacheFileRead ops size.toNat fuel mem f offset.toNat count.toNat s =
        some (result.map Prod.snd, s') ∧
      (∀ x, result = .ok x → x.1.toNat = x.2.length) ∧
      Room size s' ∧ ∀ q ∈ sent, q.Good size := by
  have hs' := hs.alloc mem
  rw [fcacheFileRead, Shfs.fcacheFileRead]
  cases f.checkName with
  | error e => exact ⟨.error e, s, [], rfl, rfl, by rintro _ ⟨⟩, hs, by rintro _ ⟨⟩⟩
  | ok x =>
    obtain ⟨ino, name⟩ := x
    dsimp only
    cases hcache : (s.alloc mem).cache with
    | none =>
      dsimp only
      cases hres : (ops.read name offset.toNat count.toNat 0 (s.alloc mem).remote).result with
      | error e => exact ⟨.error e, _, [], rfl, rfl, by rintro _ ⟨⟩, by rintro _ ⟨⟩, by rintro _ ⟨⟩⟩
      | ok d =>
        have hlen := hops _ _ _ _ _ _ hres
        have hcast : (UInt32.ofNat d.length).toNat = d.length := by rw [hlen, UInt32.ofNat_toNat]
        dsimp only
        rw [if_pos hlen.le]
        exact ⟨.ok (.ofNat d.length, d), _, [], rfl, rfl, fun x h => Except.ok.inj h ▸ hcast,
          by rintro _ ⟨⟩, by rintro _ ⟨⟩⟩
    | some c =>
      dsimp only
      have hfits : (⟨name, offset, count, 0, [], c, (s.alloc mem).remote, []⟩ : Reading σ).Fits
          size count.toNat :=
        ⟨hrounds, count.toNat_lt, Nat.zero_add _, rfl, hs' c hcache, by rintro _ ⟨⟩⟩
      -- each step is the one on numbers, as long as its sums fit
      obtain ⟨v₁, hhit, hplain₁, hv₁⟩ := hfits.hit
      obtain ⟨v₂, hflush, hplain₂, hv₂⟩ := hv₁.flush ops ino
      have hcount : v₂.count.toNat ≤ fuel := by
        have := hv₂.room
        omega
      rw [hhit, Option.bind_some, hflush]
      rw [hplain₁] at hplain₂
      have hend := hv₂.runs hops hsize hpos hcount
      rw [hplain₂] at hend
      dsimp only
      rcases hend with ⟨e, v', hloop, hloop', hv'⟩ | ⟨v', hloop, hloop', hv'⟩
      · rw [hloop]
        refine ⟨.error e, ⟨some v'.cache, (s.alloc mem).free, v'.remote⟩, v'.sent, rfl, ?_, ?_,
          ?_, hv'.sent⟩
        · exact congrArg _ hloop'
        · rintro _ ⟨⟩
        · rintro c ⟨⟩
          exact hv'.held
      · rw [hloop]
        refine ⟨.ok (v'.read, v'.buffer), ⟨some v'.cache, (s.alloc mem).free, v'.remote⟩, v'.sent,
          rfl, ?_, fun x h => Except.ok.inj h ▸ hv'.read, ?_, hv'.sent⟩
        · exact congrArg _ hloop'
        · rintro c ⟨⟩
          exact hv'.held

end Read

/-! ## Writing -/

section Write

variable {σ : Type} {ops : Fops σ} {size : UInt32} {total : ℕ} {v : Writing σ}

/-- The variables as numbers. -/
def Writing.plain (v : Writing σ) : Shfs.Writing σ :=
  ⟨v.name, v.offset.toNat, v.buffer, v.wrote.toNat, v.cache, v.remote, v.failed⟩

/-- The variables fit into their types, and `count` is what is left of the caller's buffer. -/
structure Writing.Fits (size : UInt32) (total : ℕ) (v : Writing σ) : Prop where
  top : total < 2 ^ 32
  wrote : v.wrote.toNat + v.count.toNat = total
  rest : v.buffer.length = v.count.toNat
  held : v.cache.count ≤ size.toNat

/-- A copy into the buffer, of octets that are still to be written. -/
theorem Writing.Fits.put (hv : v.Fits size total) (o count : ℕ) {c : UInt32}
    (ho : o + c.toNat ≤ size.toNat) (hc : c.toNat ≤ v.count.toNat) (hcount : count ≤ size.toNat) :
    ∃ v', v.put size o c count = some v' ∧ v'.plain = v.plain.put o c.toNat count ∧
      v'.Fits size total := by
  have htop := hv.top
  have hwrote := hv.wrote
  have hrest := hv.rest
  have hoffset : (v.offset + c).toNat = (v.offset.toNat + c.toNat) % 2 ^ 32 := UInt32.toNat_add ..
  have hleft : (v.count - c).toNat = v.count.toNat - c.toNat :=
    UInt32.toNat_sub_of_le _ _ (UInt32.le_iff_toNat_le.mpr hc)
  have hwrote' : (v.wrote + c).toNat = v.wrote.toNat + c.toNat := toNat_add (by omega)
  rw [Writing.put, if_pos ⟨ho, by omega⟩]
  refine ⟨_, rfl, ?_, htop, ?_, ?_, hcount⟩
  · simp only [Writing.plain, Shfs.Writing.put, hoffset, hwrote']
  · dsimp only
    omega
  · dsimp only
    rw [List.length_drop]
    omega

theorem Writing.Fits.overwrite (hv : v.Fits size total) :
    ∃ v', v.overwrite size = some v' ∧ v'.plain = v.plain.overwrite size.toNat ∧
      v'.Fits size total := by
  have hheld := hv.held
  have hsize : size.toNat < 2 ^ 32 := size.toNat_lt
  have hrest : v.plain.count = v.count.toNat := hv.rest
  by_cases hin : v.cache.offset ≤ v.offset.toNat ∧
      v.offset.toNat < v.cache.offset + v.cache.count
  · have hin' : v.plain.cache.offset ≤ v.plain.offset ∧
        v.plain.offset < v.plain.cache.offset + v.plain.cache.count := hin
    rw [Writing.overwrite, if_pos hin, Shfs.Writing.overwrite, if_pos hin', hrest]
    dsimp only
    set o : UInt32 := .ofNat (v.offset.toNat - v.cache.offset) with hodef
    have ho : o.toNat = v.offset.toNat - v.cache.offset :=
      UInt32.toNat_ofNat_of_lt' (show _ < 2 ^ 32 by omega)
    have hsub : (size - o).toNat = size.toNat - o.toNat :=
      UInt32.toNat_sub_of_le _ _ (UInt32.le_iff_toNat_le.mpr (by omega))
    set c : UInt32 := if v.count > size - o then size - o else v.count with hcdef
    have hc : c.toNat =
        if v.count.toNat > size.toNat - o.toNat then size.toNat - o.toNat else v.count.toNat := by
      rw [hcdef, apply_ite UInt32.toNat]
      simp only [gt_iff_lt, UInt32.lt_iff_toNat_lt, hsub]
    have hle : c.toNat ≤ v.count.toNat ∧ o.toNat + c.toNat ≤ size.toNat := by
      split at hc <;> omega
    have hsum : (o + c).toNat = o.toNat + c.toNat := toNat_add (by omega)
    obtain ⟨v', hput, hplain, hv'⟩ := hv.put o.toNat
      (if (o + c).toNat > v.cache.count then (o + c).toNat else v.cache.count) hle.2 hle.1
      (by split <;> omega)
    refine ⟨v', hput, ?_, hv'⟩
    rw [hplain, hsum, hc, ho]
    rfl
  · exact ⟨v, if_neg hin, (if_neg hin).symm, hv⟩

theorem Writing.Fits.append (hv : v.Fits size total) :
    ∃ v', v.append size = some v' ∧ v'.plain = v.plain.append size.toNat ∧ v'.Fits size total := by
  have hheld := hv.held
  have hsize : size.toNat < 2 ^ 32 := size.toNat_lt
  have hrest : v.plain.count = v.count.toNat := hv.rest
  have hiff : v.count ≠ 0 ↔ v.plain.count ≠ 0 := by
    rw [hrest, ne_eq, ← UInt32.toNat_inj]
    rfl
  by_cases hin : v.count ≠ 0 ∧ v.offset.toNat = v.cache.offset + v.cache.count
  · have hin' : v.plain.count ≠ 0 ∧ v.plain.offset = v.plain.cache.offset + v.plain.cache.count :=
      ⟨hiff.mp hin.1, hin.2⟩
    rw [Writing.append, if_pos hin, Shfs.Writing.append, if_pos hin', hrest]
    dsimp only
    have ho : (UInt32.ofNat (v.offset.toNat - v.cache.offset)).toNat =
        v.offset.toNat - v.cache.offset := UInt32.toNat_ofNat_of_lt' (show _ < 2 ^ 32 by omega)
    have hsub : ulongSub size.toNat v.cache.count = size.toNat - v.cache.count :=
      ulongSub_of_le hheld (by omega)
    have hcast : (UInt32.ofNat (size.toNat - v.cache.count)).toNat = size.toNat - v.cache.count :=
      UInt32.toNat_ofNat_of_lt' (show _ < 2 ^ 32 by omega)
    rw [ho, hsub]
    set c : UInt32 := if v.count.toNat > size.toNat - v.cache.count then
      .ofNat (size.toNat - v.cache.count) else v.count with hcdef
    have hc : c.toNat = if v.count.toNat > size.toNat - v.cache.count then
        size.toNat - v.cache.count else v.count.toNat := by
      rw [hcdef, apply_ite UInt32.toNat, hcast]
    have hle : c.toNat ≤ v.count.toNat ∧ v.cache.count + c.toNat ≤ size.toNat := by
      split at hc <;> omega
    obtain ⟨v', hput, hplain, hv'⟩ := hv.put (v.offset.toNat - v.cache.offset)
      (v.cache.count + c.toNat) (c := c) (by omega) hle.1 hle.2
    refine ⟨v', hput, ?_, hv'⟩
    rw [hplain, hc]
    rfl
  · exact ⟨v, if_neg hin, (if_neg fun h => hin ⟨hiff.mpr h.1, h.2⟩).symm, hv⟩

/-- A round of the loop, next to the one on numbers. -/
theorem Writing.Fits.drain (hpos : 0 < size.toNat) (ino : ℕ) (hv : v.Fits size total)
    (hne : v.count ≠ 0) :
    (∃ v', v.drain ops size ino = .inl (some v') ∧
      v.plain.drain ops size.toNat ino = .inl v'.plain ∧ v'.Fits size total) ∨
    ∃ v', v.drain ops size ino = .inr v' ∧ v.plain.drain ops size.toNat ino = .inr v'.plain ∧
      v'.Fits size total ∧ v'.count.toNat < v.count.toNat := by
  have hrest : v.plain.count = v.count.toNat := hv.rest
  have hne' : v.count.toNat ≠ 0 := fun h => hne (UInt32.toNat_inj.mp h)
  rw [Writing.drain, if_pos hv.held]
  unfold Shfs.Writing.drain
  rw [hrest]
  dsimp only [Writing.plain]
  cases hres : (ops.write v.name v.cache.offset v.cache.held ino v.remote).result with
  | error e => exact .inl ⟨_, rfl, rfl, hv.top, hv.wrote, hv.rest, hv.held⟩
  | ok n =>
    right
    set w : Writing σ := { v with
      name := (ops.write v.name v.cache.offset v.cache.held ino v.remote).name
      remote := (ops.write v.name v.cache.offset v.cache.held ino v.remote).remote
      cache := { v.cache with offset := v.offset.toNat } } with hw
    have hwfits : w.Fits size total := ⟨hv.top, hv.wrote, hv.rest, hv.held⟩
    set c : UInt32 := if v.count > size then size else v.count with hcdef
    have hc : c.toNat = if v.count.toNat > size.toNat then size.toNat else v.count.toNat := by
      rw [hcdef, apply_ite UInt32.toNat]
      simp only [gt_iff_lt, UInt32.lt_iff_toNat_lt]
    have hle : c.toNat ≤ v.count.toNat ∧ c.toNat ≤ size.toNat ∧ 0 < c.toNat := by
      split at hc <;> omega
    obtain ⟨v', hput, hplain, hv'⟩ := hwfits.put 0 c.toNat (c := c) (by omega) hle.1 hle.2.1
    dsimp only
    refine ⟨v', ?_, ?_, hv', ?_⟩
    · rw [hput]
    · change _ = Sum.inr v'.plain
      rw [hplain, hc]
      rfl
    · have hleft := hv'.rest
      have hbuffer : v'.buffer = v.buffer.drop c.toNat := congrArg (·.buffer) hplain
      rw [hbuffer, List.length_drop, hv.rest] at hleft
      omega

variable (ops) in
/-- The loop ends, and with what the loop on numbers ends with. -/
theorem Writing.Fits.runs (hpos : 0 < size.toNat) (ino : ℕ) (hv : v.Fits size total) {fuel : ℕ}
    (hfuel : v.count.toNat ≤ fuel) :
    ∃ r r', loop (fun v => decide (v.count ≠ 0)) (Writing.drain ops size ino) fuel v = some r ∧
      loop (fun v => decide (v.count ≠ 0)) (Shfs.Writing.drain ops size.toNat ino) fuel v.plain =
        some r' ∧
      Sum.LiftRel (fun x y => ∃ v', x = some v' ∧ y = v'.plain ∧ v'.Fits size total)
        (fun v w => w = v.plain ∧ v.Fits size total) r r' := by
  have hround : ∀ v : Writing σ, v.Fits size total → decide (v.count ≠ 0) = true →
      ∀ v', v.drain ops size ino = .inr v' →
        v'.Fits size total ∧ v'.count.toNat < v.count.toNat := by
    intro v hv hne v' hdrain
    rcases hv.drain hpos ino (of_decide_eq_true hne) with ⟨w, hw, -⟩ | ⟨w, hw, -, hrest⟩
    · rw [hw] at hdrain
      cases hdrain
    · rw [hw] at hdrain
      obtain rfl := Sum.inr.inj hdrain
      exact hrest
  have hpositive : ∀ v : Writing σ, v.Fits size total → decide (v.count ≠ 0) = true →
      0 < v.count.toNat := by
    intro v _ hne
    exact Nat.pos_of_ne_zero fun h => of_decide_eq_true hne (UInt32.toNat_inj.mp h)
  obtain ⟨r, hr⟩ := loop_total (Writing.Fits size total) (·.count.toNat) hpositive hround hv hfuel
  have hcond : ∀ (v : Writing σ) (w : Shfs.Writing σ), w = v.plain ∧ v.Fits size total →
      decide (v.count ≠ 0) = decide (w.count ≠ 0) := by
    rintro v _ ⟨rfl, hv⟩
    rw [decide_eq_decide, ne_eq, ← UInt32.toNat_inj, ← hv.rest]
    rfl
  have hbody : ∀ (v : Writing σ) (w : Shfs.Writing σ), w = v.plain ∧ v.Fits size total →
      decide (v.count ≠ 0) = true →
      Sum.LiftRel (fun x y => ∃ v', x = some v' ∧ y = v'.plain ∧ v'.Fits size total)
        (fun v w => w = v.plain ∧ v.Fits size total) (v.drain ops size ino)
        (w.drain ops size.toNat ino) := by
    rintro v _ ⟨rfl, hv⟩ hne
    rcases hv.drain hpos ino (of_decide_eq_true hne) with ⟨v', h, h', hv'⟩ | ⟨v', h, h', hv', -⟩
    · rw [h, h']
      exact .inl ⟨v', rfl, rfl, hv'⟩
    · rw [h, h']
      exact .inr ⟨rfl, hv'⟩
  obtain ⟨r', hr', hrel⟩ := loop_rel _ _ hcond hbody ⟨rfl, hv⟩ hr
  exact ⟨r, r', hr, hr', hrel⟩

theorem Writing.plain_probe (ino : ℕ) (v : Writing σ) :
    (v.probe ops ino).plain = v.plain.probe ops ino := by
  have hiff : v.wrote ≠ 0 ↔ v.plain.wrote ≠ 0 := by
    rw [ne_eq, ← UInt32.toNat_inj]
    rfl
  by_cases hnew : v.cache.new ∧ v.wrote ≠ 0
  · have hnew' : v.plain.cache.new ∧ v.plain.wrote ≠ 0 := ⟨hnew.1, hiff.mp hnew.2⟩
    rw [Writing.probe, if_pos hnew, Shfs.Writing.probe, if_pos hnew']
    rfl
  · rw [Writing.probe, if_neg hnew, Shfs.Writing.probe,
      if_neg fun h => hnew ⟨h.1, hiff.mpr h.2⟩]

theorem Writing.probe_count (ino : ℕ) (v : Writing σ) :
    (v.probe ops ino).cache.count = v.cache.count := by
  unfold Writing.probe
  split <;> rfl

/-- **`fcache_file_write`** on 32 bits comes back with what it does on numbers, for every offset and
every count. It stays inside of the buffers, since otherwise it would have no result. -/
theorem fcacheFileWrite_eq (hpos : 0 < size.toNat) {offset count : UInt32} {buffer : Bytes}
    (hbuffer : buffer.length = count.toNat) {s : Slot σ} (hs : Room size s) {fuel : ℕ}
    (hfuel : count.toNat ≤ fuel) (mem : Memory) (f : File) :
    ∃ result s', fcacheFileWrite ops size fuel mem f offset count buffer s =
        some (.back result s' []) ∧
      Shfs.fcacheFileWrite ops size.toNat fuel mem f offset.toNat buffer s = some (result, s') ∧
      Room size s' := by
  have hs' := hs.alloc mem
  rw [fcacheFileWrite, Shfs.fcacheFileWrite]
  cases f.checkName with
  | error e => exact ⟨.error e, s, rfl, rfl, hs⟩
  | ok x =>
    obtain ⟨ino, name⟩ := x
    dsimp only
    cases hcache : (s.alloc mem).cache with
    | none =>
      dsimp only
      rw [← hbuffer, List.take_length]
      exact ⟨_, _, rfl, rfl, by rintro _ ⟨⟩⟩
    | some c =>
      dsimp only
      have hfits : (⟨name, offset, count, 0, buffer, c.forWrite offset.toNat, (s.alloc mem).remote,
          none⟩ : Writing σ).Fits size count.toNat := by
        refine ⟨count.toNat_lt, Nat.zero_add _, hbuffer, ?_⟩
        unfold FCache.forWrite
        split
        · exact Nat.zero_le _
        · exact hs' c hcache
      -- each step is the one on numbers, as long as its sums fit
      obtain ⟨v₁, hover, hplain₁, hv₁⟩ := hfits.overwrite
      obtain ⟨v₂, happend, hplain₂, hv₂⟩ := hv₁.append
      rw [hplain₁] at hplain₂
      have hcount : v₂.count.toNat ≤ fuel := by
        have := hv₂.wrote
        omega
      obtain ⟨r, r', hr, hr', hrel⟩ := hv₂.runs ops hpos ino hcount
      rw [hplain₂] at hr'
      -- the octet sent ahead changes neither the buffer nor its count
      have hprobe : ∀ v : Writing σ, v.Fits size count.toNat →
          Room size
            ⟨some (v.probe ops ino).cache, (s.alloc mem).free, (v.probe ops ino).remote⟩ := by
        rintro v hv _ ⟨⟩
        rw [Writing.probe_count]
        exact hv.held
      have hback : ∀ v : Writing σ,
          ((v.plain.probe ops ino).result, (⟨some (v.plain.probe ops ino).cache, (s.alloc mem).free,
            (v.plain.probe ops ino).remote⟩ : Slot σ)) =
          ((v.probe ops ino).result, ⟨some (v.probe ops ino).cache, (s.alloc mem).free,
            (v.probe ops ino).remote⟩) := by
        intro v
        rw [← Writing.plain_probe]
        rfl
      rw [hover, Option.bind_some, happend]
      dsimp only
      rw [hr]
      cases hrel with
      | inl h =>
        obtain ⟨v, rfl, rfl, hv⟩ := h
        refine ⟨(v.probe ops ino).result, _, rfl, ?_, hprobe v hv⟩
        rw [← hback v]
        exact congrArg _ hr'
      | inr h =>
        rename_i v w
        obtain ⟨rfl, hv⟩ := h
        refine ⟨(v.probe ops ino).result, _, rfl, ?_, hprobe v hv⟩
        rw [← hback v]
        exact congrArg _ hr'

end Write

/-! ## Runs -/

/-- A call on the inode; `elsewhere` stands for the calls on other inodes. -/
inductive Op : Type where
  | open (f : File) (mem : Memory)
  | read (f : File) (mem : Memory) (offset count : UInt32)
  | write (f : File) (mem : Memory) (offset count : UInt32) (buffer : Bytes)
  | sync (f : File)
  | close (f : File)
  | clear (f : File)
  | elsewhere (free : ℤ)
  deriving DecidableEq, Repr

/-- The status of a call. -/
def Outcome.status {ρ σ : Type} (g : ρ → ℕ) : Outcome ρ σ → Outcome ℕ σ
  | outside => .outside
  | back result s sent => .back (result.map g) s sent

namespace Op

variable {σ : Type} (ops : Fops σ) (size : UInt32) (fuel : ℕ)

/-- A call that may send all octets that count in the buffer of `s`. -/
def sending (s : Slot σ) (r : Except Errno Unit × Slot σ) : Outcome ℕ σ :=
  if ∀ c ∈ s.cache, c.count ≤ size.toNat then .back (r.1.map fun _ => 0) r.2 [] else .outside

/-- The call. -/
def call (s : Slot σ) : Op → Option (Outcome ℕ σ)
  | .open f mem =>
    some (.back ((fcacheFileOpen mem f s).1.map fun _ => 0) (fcacheFileOpen mem f s).2 [])
  | read f mem offset count =>
    (fcacheFileRead ops size fuel mem f offset count s).map (.status fun x => x.1.toNat)
  | write f mem offset count buffer => fcacheFileWrite ops size fuel mem f offset count buffer s
  | sync f => some (sending size s (fcacheFileSync ops f s))
  | close f => some (sending size s (fcacheFileClose ops f s))
  | clear f => some (.back ((fcacheFileClear f s).1.map fun _ => 0) (fcacheFileClear f s).2 [])
  | elsewhere free => some (.back (.ok 0) { s with free := free } [])

/-- The state after the call. -/
def next (s : Slot σ) (op : Op) : Slot σ :=
  match op.call ops size fuel s with
  | some (.back _ s' _) => s'
  | _ => s

/-- Offset, count and `fcache_size` are together below 2^32, and the buffer has `count` octets. -/
def Below : Op → Prop
  | read _ _ offset count => offset.toNat + count.toNat + size.toNat < 2 ^ 32
  | write _ _ offset count buffer =>
    offset.toNat + count.toNat + size.toNat < 2 ^ 32 ∧ buffer.length = count.toNat
  | _ => True

/-- The rounds the loops of the call may take. -/
def rounds : Op → ℕ
  | read _ _ _ count | write _ _ _ count _ => count.toNat
  | _ => 0

/-- The call comes back without having left a buffer, all its refills were good, and the octets that
count then fit in the buffer. -/
def Bounded (s : Slot σ) (op : Op) : Prop :=
  ∃ result s' sent, op.call ops size fuel s = some (.back result s' sent) ∧ Room size s' ∧
    ∀ q ∈ sent, q.Good size

variable {ops size fuel} {s : Slot σ} {op : Op}

variable (ops) in
theorem sync_room (hs : Room size s) (f : File) : Room size (fcacheFileSync ops f s).2 := by
  unfold fcacheFileSync
  split
  · exact hs
  · split
    · exact hs
    · split
      · dsimp only
        split
        · exact hs
        · rintro c ⟨⟩
          exact Nat.zero_le _
      · exact hs

variable (ops) in
theorem close_room (hs : Room size s) (f : File) : Room size (fcacheFileClose ops f s).2 := by
  have hsync := sync_room ops hs f
  unfold fcacheFileClose
  split
  · next heq => exact heq ▸ hsync
  · next heq =>
    rw [heq] at hsync
    split
    · exact hsync
    · nofun

theorem clear_room (hs : Room size s) (f : File) : Room size (fcacheFileClear f s).2 := by
  unfold fcacheFileClear
  split
  · exact hs
  · split
    · exact hs
    · split
      · rintro c ⟨⟩
        exact Nat.zero_le _
      · exact hs

/-- **A call** in a state where the octets that count fit in the buffer comes back, stays inside of
the buffers and asks for good refills only; and they fit behind it. -/
theorem call_bounded (hops : Exact ops) (hsize : PAGE_SIZE ∣ size.toNat) (hpos : 0 < size.toNat)
    (hs : Room size s) (hop : op.Below size) (hfuel : op.rounds ≤ fuel) :
    op.Bounded ops size fuel s := by
  cases op with
  | «open» f mem =>
    refine ⟨_, _, [], rfl, ?_, nofun⟩
    unfold fcacheFileOpen
    split
    · exact hs
    · exact hs.alloc mem
  | read f mem offset count =>
    obtain ⟨result, s', sent, hread, -, -, hs', hsent⟩ :=
      fcacheFileRead_eq hops hsize hpos (.of_below hsize hpos hop) hs hfuel mem f
    refine ⟨result.map fun x => x.1.toNat, s', sent, ?_, hs', hsent⟩
    rw [call, hread]
    rfl
  | write f mem offset count buffer =>
    obtain ⟨result, s', hwrite, -, hs'⟩ :=
      fcacheFileWrite_eq hpos hop.2 hs hfuel mem f
    exact ⟨result, s', [], hwrite, hs', nofun⟩
  | sync f => exact ⟨_, _, [], congrArg some (if_pos hs), sync_room ops hs f, nofun⟩
  | close f => exact ⟨_, _, [], congrArg some (if_pos hs), close_room ops hs f, nofun⟩
  | clear f => exact ⟨_, _, [], rfl, clear_room hs f, nofun⟩
  | elsewhere free => exact ⟨_, _, [], rfl, hs, nofun⟩

/-- **Bounds and progress**: in every run of calls on an inode that has no buffer yet, every call
comes back, stays inside of the buffers and asks for good refills only. All variables have 32 bits
here, and every copy is checked, so a call that would copy too much has no result. -/
theorem bounded_run (hops : Exact ops) (hsize : PAGE_SIZE ∣ size.toNat) (hpos : 0 < size.toNat)
    (hs : s.cache = none) {run : List Op} (hrun : ∀ op ∈ run, op.Below size)
    (hfuel : ∀ op ∈ run, op.rounds ≤ fuel) :
    Along (next ops size fuel) (Bounded ops size fuel) s run := by
  have hguard :
      Along (next ops size fuel) (fun _ op => op.Below size ∧ op.rounds ≤ fuel) s run := by
    refine along_iff.mpr fun pre op post heq => ?_
    have hmem : op ∈ run := heq ▸ List.mem_append_right _ (List.mem_cons_self ..)
    exact ⟨hrun op hmem, hfuel op hmem⟩
  refine Along.of_guarded (Room size) (fun s op hs hop => ?_) ?_ hguard
  · have hbounded := call_bounded hops hsize hpos hs hop.1 hop.2
    refine ⟨hbounded, ?_⟩
    obtain ⟨result, s', sent, hcall, hs', -⟩ := hbounded
    rw [next, hcall]
    exact hs'
  · intro c hc
    rw [hs] at hc
    cases hc

/-! ### An example -/

theorem plainOps_exact : Exact CacheOp.plainOps := by
  intro name off n ino s d h
  obtain rfl := Except.ok.inj h
  exact length_fetch ..

open CacheOp in
/-- Two octets are written around the end of a page, and read in the middle of what is there. -/
def acrossRun : List Op :=
  [.write openA.file plenty 4095 2 [65, 66], .read openA.file plenty 4096 3, .sync openA.file]

open CacheOp in
theorem acrossRun_bounded :
    Along (next plainOps 4096 3) (Bounded plainOps 4096 3) fresh acrossRun :=
  bounded_run plainOps_exact (by decide) (by decide) rfl (by simp [acrossRun, Below])
    (by simp [acrossRun, rounds])

end Op

end Shfs.Words
