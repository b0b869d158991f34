import Shfs.Lib.Image
import Shfs.Lib.Loop
import Shfs.Sock
import Mathlib.Tactic.Linarith

/-!
# The file cache

`fcache.c`: every inode may have one buffer of `fcache_size` octets, which holds either octets read
ahead or octets still to be written. The remote commands go through `info->fops`, which is a
parameter here: a command gets the path buffer of its caller and leaves it, possibly changed, with
the result and the state of the remote side (`Done`).

The loops of `fcache_file_read` and `fcache_file_write` work on the variables collected in
`Reading` and `Writing`; `fuel` bounds their rounds, and `none` stands for a call that needs more.

Their `offset` is an `unsigned`: it starts below 2^32, and goes on at 0 when it gets there. For a
count below 2^31, which is what their `int` can return, and a buffer that holds no more than
`fcache_size` octets, nothing else wraps around (`CacheWords` has every variable at its own width).
-/

namespace Shfs

open Lib

/-- `PAGE_SIZE` -/
abbrev PAGE_SIZE : ℕ := 4096

/-- `& PAGE_MASK` -/
def pageBase (n : ℕ) : ℕ := n / PAGE_SIZE * PAGE_SIZE

/-- `(n + PAGE_SIZE - 1) & PAGE_MASK` -/
def pageUp (n : ℕ) : ℕ := pageBase (n + PAGE_SIZE - 1)

/-! ## Paths -/

/-- A dentry below the root of the mount, with the name it has in its parent. -/
inductive Dentry : Type where
  | root
  | child (parent : Dentry) (name : Bytes)
  deriving DecidableEq, Repr

/-- The length of the path, as the first loop of `get_name` counts it. -/
def Dentry.len : Dentry → ℕ
  | root => 0
  | child parent name => parent.len + (name.length + 1)

/-- The path as the second loop of `get_name` writes it, from the end. -/
def Dentry.path : Dentry → Bytes
  | root => []
  | child parent name => parent.path ++ 47 :: name

/-- `get_name`, into a buffer that holds `stack`: the result, and the string in the buffer. A path
that is too long leaves the buffer alone, and the result is 0 for it. -/
def getName (d : Dentry) (stack : Bytes) : ℤ × Bytes :=
  if d.len + 1 > SHFS_PATH_MAX then (0, stack)
  else if d.len = 0 then (1, [47])
  else (1, d.path)

/-! ## Remote commands -/

/-- What a remote command leaves: its result, the caller's path buffer and the remote side. -/
structure Done (ρ σ : Type) : Type where
  result : Except Errno ρ
  name : Bytes
  remote : σ

/-- `info->fops.read` (name, offset, count, ino) and `info->fops.write` (name, offset, the octets,
ino). -/
structure Fops (σ : Type) : Type where
  read : Bytes → ℕ → ℕ → ℕ → σ → Done Bytes σ
  write : Bytes → ℕ → Bytes → ℕ → σ → Done ℕ σ

/-! ## The state -/

/-- `SHFS_FCACHE_READ` and `SHFS_FCACHE_WRITE`. -/
inductive CacheType : Type where
  | read
  | write
  deriving DecidableEq, Repr

/-- `struct shfs_file` -/
structure FCache : Type where
  type : CacheType
  new : Bool
  offset : ℕ
  count : ℕ
  data : Bytes
  deriving DecidableEq, Repr

/-- The octets that count. -/
def FCache.held (c : FCache) : Bytes := fetch c.data 0 c.count

/-- What the functions change: the buffer of the inode, if it has one, `info->fcache_free` with the
number of buffers that may still be had, and the remote side. The remote side is of any type, so the
same functions run on a plain file, on a recorder of commands and on the server itself. -/
structure Slot (σ : Type) : Type where
  cache : Option FCache
  free : ℤ
  remote : σ
  deriving DecidableEq, Repr

/-- What is checked of an inode. -/
structure Inode : Type where
  ino : ℕ
  /-- `S_ISDIR(inode->i_mode)` -/
  isDir : Bool
  /-- `inode->i_private` is not NULL -/
  info : Bool
  deriving DecidableEq, Repr

/-- An open file, and what the path buffer of a call on it holds before it is written. -/
structure File : Type where
  dentry : Dentry
  /-- `f->f_dentry->d_inode` -/
  inode : Option Inode
  stack : Bytes
  deriving DecidableEq, Repr

/-- The checks of an inode every function makes. -/
def Inode.check (i : Inode) : Except Errno ℕ :=
  if i.isDir then .error .einval -- dir in file cache?
  else if !i.info then .error .einval
  else .ok i.ino

/-- The checks of a function that does not need the path. -/
def File.check (f : File) : Except Errno ℕ :=
  match f.inode with
  | none => .error .einval
  | some i => i.check

/-- The checks of `fcache_file_read` and `fcache_file_write`, with `get_name` among them: the
inode number and the path. -/
def File.checkName (f : File) : Except Errno (ℕ × Bytes) :=
  match f.inode with
  | none => .error .einval
  | some i =>
    let (result, name) := getName f.dentry f.stack
    if result < 0 then .error .enametoolong
    else i.check.map fun ino => (ino, name)

/-! ## Slots -/

/-- What the two allocations of `alloc_fcache` return: the cell, and the octets of the new
buffer. -/
structure Memory : Type where
  cell : Bool
  block : Option Bytes
  deriving DecidableEq, Repr

/-- `alloc_fcache` -/
def allocFcache (mem : Memory) (free : ℤ) : Option FCache × ℤ :=
  if free ≤ 0 then (none, free)
  else if !mem.cell then (none, free - 1)
  else
    match mem.block with
    | none => (none, free - 1)
    | some data => (some ⟨.read, true, 0, 0, data⟩, free - 1)

/-- A new buffer is empty, and not dirty. -/
theorem allocFcache_eq {mem : Memory} {free : ℤ} {c : FCache}
    (h : (allocFcache mem free).1 = some c) : ∃ data, c = ⟨.read, true, 0, 0, data⟩ := by
  unfold allocFcache at h
  split at h
  · cases h
  · split at h
    · cases h
    · split at h
      · cases h
      · next data _ => exact ⟨data, (Option.some.inj h).symm⟩

/-- `if (!p->cache) p->cache = alloc_fcache(info)` -/
def Slot.alloc {σ : Type} (mem : Memory) (s : Slot σ) : Slot σ :=
  match s.cache with
  | some _ => s
  | none => { s with cache := (allocFcache mem s.free).1, free := (allocFcache mem s.free).2 }

theorem Slot.alloc_remote {σ : Type} (mem : Memory) (s : Slot σ) :
    (s.alloc mem).remote = s.remote := by
  unfold Slot.alloc
  split <;> rfl

/-- **What an allocation brings**: nothing, or a new buffer, clean and with no octets that count. -/
theorem Slot.alloc_cases {σ : Type} (mem : Memory) (s : Slot σ) :
    (s.alloc mem).cache = s.cache ∨
      s.cache = none ∧ ∃ data, (s.alloc mem).cache = some ⟨.read, true, 0, 0, data⟩ := by
  unfold Slot.alloc
  cases hc : s.cache with
  | some c => exact .inl hc
  | none =>
    cases hnew : (allocFcache mem s.free).1 with
    | none => exact .inl rfl
    | some c =>
      obtain ⟨data, rfl⟩ := allocFcache_eq hnew
      exact .inr ⟨rfl, data, rfl⟩

section Functions

variable {σ : Type} (ops : Fops σ) (size fuel : ℕ)

/-- `fcache_file_open` -/
def fcacheFileOpen (mem : Memory) (f : File) (s : Slot σ) : Except Errno Unit × Slot σ :=
  match f.check with
  | .error e => (.error e, s)
  | .ok _ => (.ok (), s.alloc mem)

/-- `fcache_file_sync` -/
def fcacheFileSync (f : File) (s : Slot σ) : Except Errno Unit × Slot σ :=
  match f.check with
  | .error e => (.error e, s)
  | .ok ino =>
    match s.cache with
    | none => (.ok (), s)
    | some c =>
      if c.count ≠ 0 ∧ c.type = .write then
        let (result, name) := getName f.dentry f.stack
        if result < 0 then (.error .enametoolong, s)
        else
          let w := ops.write name c.offset c.held ino s.remote
          (w.result.map fun _ => (),
            { s with cache := some { c with type := .read, count := 0 }, remote := w.remote })
      else (.ok (), s)

/-- `fcache_file_close` -/
def fcacheFileClose (f : File) (s : Slot σ) : Except Errno Unit × Slot σ :=
  match fcacheFileSync ops f s with
  | (.error e, s) => (.error e, s)
  | (.ok _, s) =>
    match s.cache with
    | none => (.ok (), s)
    | some _ => (.ok (), { s with cache := none, free := s.free + 1 }) -- `free_fcache`

/-- `fcache_file_clear` -/
def fcacheFileClear (f : File) (s : Slot σ) : Except Errno Unit × Slot σ :=
  match f.check with
  | .error e => (.error e, s)
  | .ok _ =>
    match s.cache with
    | none => (.ok (), s)
    | some c =>
      if c.count ≠ 0 ∧ c.type = .read then (.ok (), { s with cache := some { c with count := 0 } })
      else (.ok (), s) -- a dirty buffer is out of sync, and stays

/-! ## `fcache_file_read` -/

/-- The variables of `fcache_file_read`; `buffer` is what it has copied to the caller. -/
structure Reading (σ : Type) : Type where
  name : Bytes
  offset : ℕ
  count : ℕ
  buffer : Bytes
  cache : FCache
  remote : σ

variable {σ : Type} (ops : Fops σ) (size fuel : ℕ)

/-- `memcpy(buffer, cache->data + src, c)`, and the updates that follow it. The new `offset` is that
of an `unsigned`. -/
def Reading.copy (v : Reading σ) (src c : ℕ) : Reading σ :=
  { v with
    buffer := v.buffer ++ fetch v.cache.data src c
    offset := (v.offset + c) % 2 ^ 32
    count := v.count - c }

/-- The part of the request that is in the buffer. -/
def Reading.hit (v : Reading σ) : Reading σ :=
  if v.cache.offset ≤ v.offset ∧ v.offset < v.cache.offset + v.cache.count then
    let o := v.offset - v.cache.offset
    v.copy o (if v.count > v.cache.count - o then v.cache.count - o else v.count)
  else v

/-- Dirty octets give way to the read; whether the write succeeds is not looked at. -/
def Reading.flush (ino : ℕ) (v : Reading σ) : Reading σ :=
  if v.count ≠ 0 ∧ v.cache.type = .write then
    let w := ops.write v.name v.cache.offset v.cache.held ino v.remote
    { v with
      name := w.name
      cache := { v.cache with type := .read, offset := v.offset, count := 0 }
      remote := w.remote }
  else v

/-- The inline loop marked `HD`. -/
def gcdLoop (y z : ℕ) : ℕ :=
  if y = 0 ∨ z = 0 then if y > z then y else z
  else if y > z then gcdLoop (y % z) z
  else gcdLoop y (z % y)
termination_by y + z
decreasing_by
  · have := Nat.mod_lt y (y := z) (by omega)
    omega
  · have := Nat.mod_lt z (y := y) (by omega)
    omega

/-- `readahead`, when `cached` octets end where the request for `count` octets at `offset` goes
on. -/
def readahead (offset count cached : ℕ) : ℕ :=
  let o := pageBase offset
  let x := offset - o
  let ahead := if cached < x + count then x + count else cached
  let ahead := pageUp ahead
  let ahead := if ahead > size then size else ahead
  if o % ahead ≠ 0 then gcdLoop o ahead else ahead

/-- A buffer that does not end at `offset` starts again at its page. -/
def FCache.meet (c : FCache) (offset : ℕ) : FCache :=
  if c.offset + c.count = offset then c else { c with offset := pageBase offset, count := 0 }

/-- A buffer without room for `ahead` more octets starts again, too. -/
def FCache.makeRoom (c : FCache) (offset ahead : ℕ) : FCache :=
  if c.count + ahead > size then { c with offset := pageBase offset, count := 0 } else c

/-- A round of the loop: one `info->fops.read` behind the octets in the buffer. -/
def Reading.fill (v : Reading σ) : (Errno × Reading σ) ⊕ Reading σ :=
  let o := pageBase v.offset
  let x := v.offset - o
  let cache := v.cache.meet v.offset
  let ahead := readahead size v.offset v.count cache.count
  let cache := cache.makeRoom size v.offset ahead
  let r := ops.read v.name o ahead 0 v.remote
  match r.result with
  | .error e =>
      .inl (e, { v with name := r.name, cache := { cache with count := 0 }, remote := r.remote })
  | .ok d =>
    let v := { v with
      name := r.name
      cache := { cache with data := store cache.data cache.count d }
      remote := r.remote }
    -- `c = result - x` is unsigned
    let v := v.copy (cache.count + x)
      (if d.length < x ∨ d.length - x > v.count then v.count else d.length - x)
    .inr { v with cache := { v.cache with count := v.cache.count + d.length } }

/-- `fcache_file_read`: the octets in the caller's buffer, or the error. It takes from the buffer
what is there, writes out what is dirty, and refills the buffer until it has all that it was asked
for. Without a buffer the read goes straight to the server. No result is a loop that has used up its
`fuel`. -/
def fcacheFileRead (mem : Memory) (f : File) (offset count : ℕ) (s : Slot σ) :
    Option (Except Errno Bytes × Slot σ) :=
  match f.checkName with
  | .error e => some (.error e, s)
  | .ok (ino, name) =>
    let s := s.alloc mem
    match s.cache with
    | none =>
      let r := ops.read name offset count 0 s.remote
      some (r.result, { s with remote := r.remote })
    | some c =>
      let v := ((⟨name, offset, count, [], c, s.remote⟩ : Reading σ).hit).flush ops ino
      (loop (fun v => decide (v.count ≠ 0)) (Reading.fill ops size) fuel v).map fun
        | .inl (e, v) => (.error e, { s with cache := some v.cache, remote := v.remote })
        | .inr v => (.ok v.buffer, { s with cache := some v.cache, remote := v.remote })

/-! ## `fcache_file_write` -/

/-- The variables of `fcache_file_write`; `buffer` is what is left of the caller's octets, and
`failed` the error in `result`. -/
structure Writing (σ : Type) : Type where
  name : Bytes
  offset : ℕ
  buffer : Bytes
  wrote : ℕ
  cache : FCache
  remote : σ
  failed : Option Errno

variable {σ : Type} (ops : Fops σ) (size fuel : ℕ)

/-- `count` -/
abbrev Writing.count (v : Writing σ) : ℕ := v.buffer.length

/-- `memcpy(cache->data + o, buffer, c)`, and the updates that follow it; `count` octets of the
buffer count then. The new `offset` is that of an `unsigned`. -/
def Writing.put (v : Writing σ) (o c count : ℕ) : Writing σ :=
  { v with
    offset := (v.offset + c) % 2 ^ 32
    buffer := v.buffer.drop c
    wrote := v.wrote + c
    cache := { v.cache with data := store v.cache.data o (v.buffer.take c), count := count } }

/-- A buffer with octets read ahead is given up for the write. -/
def FCache.forWrite (c : FCache) (offset : ℕ) : FCache :=
  match c.type with
  | .read => { c with offset := offset, count := 0, type := .write }
  | .write => c

/-- Octets that are in the buffer already are written over. -/
def Writing.overwrite (v : Writing σ) : Writing σ :=
  if v.cache.offset ≤ v.offset ∧ v.offset < v.cache.offset + v.cache.count then
    let o := v.offset - v.cache.offset
    let c := if v.count > size - o then size - o else v.count
    v.put o c (if o + c > v.cache.count then o + c else v.cache.count)
  else v

/-- Octets right behind those in the buffer are added. -/
def Writing.append (v : Writing σ) : Writing σ :=
  if v.count ≠ 0 ∧ v.offset = v.cache.offset + v.cache.count then
    let o := v.offset - v.cache.offset
    let c := if v.count > size - v.cache.count then size - v.cache.count else v.count
    v.put o c (v.cache.count + c)
  else v

/-- A round of the loop: the buffer is written out and filled again. `.inl` is the `break`. -/
def Writing.drain (ino : ℕ) (v : Writing σ) : Writing σ ⊕ Writing σ :=
  let w := ops.write v.name v.cache.offset v.cache.held ino v.remote
  match w.result with
  | .error e => .inl { v with name := w.name, remote := w.remote, failed := some e }
  | .ok _ =>
    let c := if v.count > size then size else v.count
    .inr (({ v with
      name := w.name
      remote := w.remote
      cache := { v.cache with offset := v.offset } } : Writing σ).put 0 c c)

/-- The octet that is sent after the first write to a new buffer. -/
def Writing.probe (ino : ℕ) (v : Writing σ) : Writing σ :=
  if v.cache.new ∧ v.wrote ≠ 0 then
    let w := ops.write v.name v.cache.offset (fetch v.cache.data 0 1) ino v.remote
    { v with
      name := w.name
      remote := w.remote
      cache := { v.cache with new := false }
      failed := match w.result with
        | .error e => some e
        | .ok _ => none }
  else v

/-- A count that is returned as an `int`: from 2^31 on it is negative. -/
def intResult (count : ℕ) : Except Errno ℕ :=
  if count % 2 ^ 32 < 2 ^ 31 then .ok (count % 2 ^ 32)
  else .error (.other (2 ^ 32 - count % 2 ^ 32))

theorem intResult_of_lt {count : ℕ} (h : count < 2 ^ 31) : intResult count = .ok count := by
  have hmod : count % 2 ^ 32 = count := Nat.mod_eq_of_lt (by omega)
  rw [intResult, hmod, if_pos h]

/-- A count from 2^31 on looks like an error. -/
theorem intResult_of_le {count : ℕ} (hle : 2 ^ 31 ≤ count) (hlt : count < 2 ^ 32) :
    ∃ e, intResult count = .error e := by
  rw [intResult, Nat.mod_eq_of_lt hlt, if_neg (Nat.not_lt_of_le hle)]
  exact ⟨_, rfl⟩

/-- What is returned as a count is the count. -/
theorem intResult_eq_ok {count n : ℕ} (h : intResult count = .ok n) (hlt : count < 2 ^ 32) :
    count = n := by
  by_cases hsmall : count < 2 ^ 31
  · exact Except.ok.inj ((intResult_of_lt hsmall).symm.trans h)
  · obtain ⟨e, he⟩ := intResult_of_le (Nat.le_of_not_lt hsmall) hlt
    cases he.symm.trans h

/-- `result >= 0 ? wrote : result` -/
def Writing.result (v : Writing σ) : Except Errno ℕ :=
  match v.failed with
  | some e => .error e
  | none => intResult v.wrote

/-- The steps of `fcache_file_write` in front of its loop. -/
def Writing.start (name : Bytes) (offset : ℕ) (buffer : Bytes) (c : FCache) (remote : σ) :
    Writing σ :=
  (⟨name, offset, buffer, 0, c.forWrite offset, remote, none⟩ : Writing σ)
    |>.overwrite size |>.append size

/-- `fcache_file_write` of the octets `buffer`: how many of them it has taken, or the error. Without
a buffer the write goes straight to the server. With one, the loop writes the buffer out and fills
it again, and behind the loop the first octet of a new buffer is sent ahead. No result is a loop
that has used up its `fuel`. -/
def fcacheFileWrite (mem : Memory) (f : File) (offset : ℕ) (buffer : Bytes) (s : Slot σ) :
    Option (Except Errno ℕ × Slot σ) :=
  match f.checkName with
  | .error e => some (.error e, s)
  | .ok (ino, name) =>
    let s := s.alloc mem
    match s.cache with
    | none =>
      let w := ops.write name offset buffer ino s.remote
      some (w.result.bind intResult, { s with remote := w.remote })
    | some c =>
      (loop (fun v => decide (v.count ≠ 0)) (Writing.drain ops size ino) fuel
          (Writing.start size name offset buffer c s.remote)).map fun r =>
        let v := (r.elim id id).probe ops ino
        (v.result, { s with cache := some v.cache, remote := v.remote })

end Functions

/-! ## Calls on regular files -/

theorem getName_nonneg (d : Dentry) (stack : Bytes) : ¬ (getName d stack).1 < 0 := by
  unfold getName
  split
  · exact Int.not_lt.mpr (Int.le_refl 0)
  · split <;> exact Int.not_lt.mpr Int.one_nonneg

theorem File.checkName_eq (f : File) :
    f.checkName = f.check.map fun ino => (ino, (getName f.dentry f.stack).2) := by
  unfold File.checkName File.check
  cases f.inode with
  | none => rfl
  | some i => exact if_neg (getName_nonneg f.dentry f.stack)

section Cases

variable {σ : Type} {ops : Fops σ} {size fuel : ℕ} {mem : Memory} {f : File} {s : Slot σ}

/-- **What a read can do**: fail in its checks, go to the server when there is no buffer to be had,
or go through the buffer. All that is proved of reads starts from this. -/
theorem fcacheFileRead_cases {offset count : ℕ} {r : Except Errno Bytes × Slot σ}
    (hr : fcacheFileRead ops size fuel mem f offset count s = some r) :
    (∃ e, f.check = .error e ∧ r = (.error e, s)) ∨
      ∃ ino, f.check = .ok ino ∧
        ((s.alloc mem).cache = none ∧
            (∃ q, q = ops.read (getName f.dentry f.stack).2 offset count 0 (s.alloc mem).remote ∧
              r = (q.result, { s.alloc mem with remote := q.remote })) ∨
          ∃ c out, (s.alloc mem).cache = some c ∧
            loop (fun v => decide (v.count ≠ 0)) (Reading.fill ops size) fuel
                ((⟨(getName f.dentry f.stack).2, offset, count, [], c, (s.alloc mem).remote⟩ :
                  Reading σ).hit.flush ops ino) = some out ∧
              r = match out with
                | .inl (e, v) =>
                  (.error e, { s.alloc mem with cache := some v.cache, remote := v.remote })
                | .inr v =>
                  (.ok v.buffer,
                    { s.alloc mem with cache := some v.cache, remote := v.remote })) := by
  rw [fcacheFileRead, File.checkName_eq] at hr
  cases hcheck : f.check with
  | error e =>
    rw [hcheck] at hr
    exact Or.inl ⟨e, rfl, (Option.some.inj hr).symm⟩
  | ok ino =>
    rw [hcheck] at hr
    dsimp only [Except.map] at hr
    refine Or.inr ⟨ino, rfl, ?_⟩
    cases hc : (s.alloc mem).cache with
    | none =>
      rw [hc] at hr
      refine Or.inl ⟨rfl, _, rfl, (Option.some.inj hr).symm.trans ?_⟩
      dsimp only
      rw [hc]
    | some c =>
      rw [hc] at hr
      obtain ⟨out, hout, rfl⟩ := Option.map_eq_some_iff.mp hr
      refine Or.inr ⟨c, out, rfl, hout, ?_⟩
      cases out <;> rfl

/-- **What a write can do**: fail in its checks, go to the server when there is no buffer to be had,
or go through the buffer. All that is proved of writes starts from this. -/
theorem fcacheFileWrite_cases {offset : ℕ} {buffer : Bytes} {r : Except Errno ℕ × Slot σ}
    (hr : fcacheFileWrite ops size fuel mem f offset buffer s = some r) :
    (∃ e, f.check = .error e ∧ r = (.error e, s)) ∨
      ∃ ino, f.check = .ok ino ∧
        ((s.alloc mem).cache = none ∧
            (∃ w, w = ops.write (getName f.dentry f.stack).2 offset buffer ino
                (s.alloc mem).remote ∧
              r = (w.result.bind intResult, { s.alloc mem with remote := w.remote })) ∨
          ∃ c out, (s.alloc mem).cache = some c ∧
            loop (fun v => decide (v.count ≠ 0)) (Writing.drain ops size ino) fuel
                (Writing.start size (getName f.dentry f.stack).2 offset buffer c
                  (s.alloc mem).remote) = some out ∧
              ∃ v, v = (out.elim id id).probe ops ino ∧
                r = (v.result,
                  { s.alloc mem with cache := some v.cache, remote := v.remote })) := by
  rw [fcacheFileWrite, File.checkName_eq] at hr
  cases hcheck : f.check with
  | error e =>
    rw [hcheck] at hr
    exact Or.inl ⟨e, rfl, (Option.some.inj hr).symm⟩
  | ok ino =>
    rw [hcheck] at hr
    dsimp only [Except.map] at hr
    refine Or.inr ⟨ino, rfl, ?_⟩
    cases hc : (s.alloc mem).cache with
    | none =>
      rw [hc] at hr
      refine Or.inl ⟨rfl, _, rfl, (Option.some.inj hr).symm.trans ?_⟩
      dsimp only
      rw [hc]
    | some c =>
      rw [hc] at hr
      obtain ⟨out, hout, rfl⟩ := Option.map_eq_some_iff.mp hr
      exact Or.inr ⟨c, out, rfl, hout, _, rfl, rfl⟩

end Cases

/-- An open regular file with its inode data. -/
structure OpenFile : Type where
  dentry : Dentry
  ino : ℕ
  stack : Bytes
  deriving DecidableEq, Repr

namespace OpenFile

/-- The file as the functions get it. -/
def file (f : OpenFile) : File := ⟨f.dentry, some ⟨f.ino, false, true⟩, f.stack⟩

/-- The path buffer after `get_name`. -/
def name (f : OpenFile) : Bytes := (getName f.dentry f.stack).2

@[simp] theorem check (f : OpenFile) : f.file.check = .ok f.ino := rfl

@[simp] theorem checkName (f : OpenFile) : f.file.checkName = .ok (f.ino, f.name) :=
  if_neg (getName_nonneg f.dentry f.stack)

end OpenFile

section Calls

variable {σ : Type} {ops : Fops σ} {size fuel : ℕ} {mem : Memory} {s : Slot σ} (f : OpenFile)

/-- Without a buffer a read goes to the server. -/
theorem fcacheFileRead_uncached (h : (s.alloc mem).cache = none) (offset count : ℕ) :
    fcacheFileRead ops size fuel mem f.file offset count s =
      some ((ops.read f.name offset count 0 (s.alloc mem).remote).result,
        ⟨none, (s.alloc mem).free,
          (ops.read f.name offset count 0 (s.alloc mem).remote).remote⟩) := by
  simp only [fcacheFileRead, OpenFile.checkName, h]

/-- A read through a buffer. -/
theorem fcacheFileRead_cached {c : FCache} (h : (s.alloc mem).cache = some c) (offset count : ℕ) :
    fcacheFileRead ops size fuel mem f.file offset count s =
      (loop (fun v => decide (v.count ≠ 0)) (Reading.fill ops size) fuel
          ((⟨f.name, offset, count, [], c, (s.alloc mem).remote⟩ : Reading σ).hit.flush ops
            f.ino)).map
        fun
        | .inl (e, v) => (.error e, ⟨some v.cache, (s.alloc mem).free, v.remote⟩)
        | .inr v => (.ok v.buffer, ⟨some v.cache, (s.alloc mem).free, v.remote⟩) := by
  simp only [fcacheFileRead, OpenFile.checkName, h]

/-- Without a buffer a write goes to the server. -/
theorem fcacheFileWrite_uncached (h : (s.alloc mem).cache = none) (offset : ℕ) (buffer : Bytes) :
    fcacheFileWrite ops size fuel mem f.file offset buffer s =
      some ((ops.write f.name offset buffer f.ino (s.alloc mem).remote).result.bind intResult,
        ⟨none, (s.alloc mem).free,
          (ops.write f.name offset buffer f.ino (s.alloc mem).remote).remote⟩) := by
  simp only [fcacheFileWrite, OpenFile.checkName, h]

/-- A write through a buffer. -/
theorem fcacheFileWrite_cached {c : FCache} (h : (s.alloc mem).cache = some c) (offset : ℕ)
    (buffer : Bytes) :
    fcacheFileWrite ops size fuel mem f.file offset buffer s =
      (loop (fun v => decide (v.count ≠ 0)) (Writing.drain ops size f.ino) fuel
          (Writing.start size f.name offset buffer c (s.alloc mem).remote)).map
        fun r =>
          (((r.elim id id).probe ops f.ino).result,
            ⟨some ((r.elim id id).probe ops f.ino).cache, (s.alloc mem).free,
              ((r.elim id id).probe ops f.ino).remote⟩) := by
  simp only [fcacheFileWrite, OpenFile.checkName, h]

end Calls

/-! ## What a read does in front of its loop -/

section Hits

variable {σ : Type}

theorem Reading.hit_name (v : Reading σ) : v.hit.name = v.name ∧ v.hit.remote = v.remote := by
  unfold Reading.hit
  split <;> exact ⟨rfl, rfl⟩

theorem Reading.hit_cache (v : Reading σ) : v.hit.cache = v.cache := by
  unfold Reading.hit
  split <;> rfl

end Hits

/-! ## What a write does in front of its loop -/

section Puts

variable {σ : Type} {size : ℕ}

/-- Nothing, or a put of `n` octets among those in the buffer or right behind them. -/
def Writing.Puts (size : ℕ) (v v' : Writing σ) : Prop :=
  v' = v ∨ ∃ o n, v.offset = v.cache.offset + o ∧ o ≤ v.cache.count ∧ n ≤ v.count ∧
    (v.cache.count ≤ size → o + n ≤ size) ∧ v' = v.put o n (max v.cache.count (o + n))

theorem Writing.overwrite_puts (v : Writing σ) : v.Puts size (v.overwrite size) := by
  unfold Writing.overwrite
  split
  · next h =>
    right
    set o := v.offset - v.cache.offset with ho
    set n := if v.count > size - o then size - o else v.count with hn
    have hcount : (if o + n > v.cache.count then o + n else v.cache.count) =
        max v.cache.count (o + n) := by
      split <;> omega
    refine ⟨o, n, by omega, by omega, ?_, fun hroom => ?_, by dsimp only; rw [hcount]⟩ <;>
      (rw [hn]; split <;> omega)
  · exact Or.inl rfl

theorem Writing.append_puts (v : Writing σ) : v.Puts size (v.append size) := by
  unfold Writing.append
  split
  · next h =>
    right
    have ho : v.offset - v.cache.offset = v.cache.count := by omega
    set n := if v.count > size - v.cache.count then size - v.cache.count else v.count with hn
    have hcount : v.cache.count + n = max v.cache.count (v.cache.count + n) := by omega
    refine ⟨v.cache.count, n, h.2, Nat.le_refl _, ?_, fun hroom => ?_, ?_⟩
    · rw [hn]
      split <;> omega
    · rw [hn]
      split <;> omega
    · dsimp only
      rw [ho, ← hcount]
  · exact Or.inl rfl

/-- The octets a write has taken so far, from a request to store `buffer` at `offset`. -/
structure Writing.Taken (offset : ℕ) (buffer : Bytes) (v : Writing σ) : Prop where
  start : v.offset = (offset + v.wrote) % 2 ^ 32
  rest : v.buffer = buffer.drop v.wrote
  le : v.wrote ≤ buffer.length

variable {offset : ℕ} {buffer : Bytes} {v : Writing σ}

theorem Writing.Taken.left (h : v.Taken offset buffer) : v.wrote + v.count = buffer.length := by
  have := h.le
  rw [Writing.count, h.rest, List.length_drop]
  omega

/-- A write that ends below 2^32 does not wrap around. -/
theorem Writing.Taken.offset_eq (h : v.Taken offset buffer)
    (hbelow : offset + buffer.length < 2 ^ 32) :
    v.offset = offset + v.wrote := by
  have := h.start
  have := h.le
  omega

theorem Writing.Taken.put (h : v.Taken offset buffer) {n : ℕ} (hn : n ≤ v.count) (o count : ℕ) :
    (v.put o n count).Taken offset buffer := by
  have hleft := h.left
  refine ⟨?_, ?_, ?_⟩
  · simp only [Writing.put, h.start]
    omega
  · simp only [Writing.put, h.rest, List.drop_drop]
  · simp only [Writing.put]
    omega

/-- A put that starts the buffer again holds exactly its octets. -/
theorem Writing.held_put_zero {v : Writing σ} {n : ℕ} (hn : n ≤ v.count) :
    (v.put 0 n n).cache.held = v.buffer.take n := by
  have hlen : (v.buffer.take n).length = n := List.length_take_of_le hn
  have hheld := fetch_store_self v.cache.data (v.buffer.take n)
  rwa [hlen] at hheld

/-- The part a round of the loop takes. -/
theorem Writing.drain_part (hpos : 0 < size) (hne : v.count ≠ 0) :
    let n := if v.count > size then size else v.count
    n ≤ v.count ∧ n ≤ size ∧ 0 < n := by
  dsimp only
  split <;> omega

end Puts

end Shfs
