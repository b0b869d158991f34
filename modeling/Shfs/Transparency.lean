import Shfs.Mirror
import Shfs.Lib.Run

/-!
# What a caller sees through the file cache

The calls on one inode (`CacheOp`) next to a file without a cache. In every run whose reads refill
the buffer at the right place, the calls return what the file without a cache would, and a sync
leaves it on the remote side (`CacheOp.transparent_of_refills`). `shiftedRun` is a run where a read
does not.

The requests are those whose offset, count and `fcache_size` are together below 2^31
(`CacheOp.Below`): no `unsigned` wraps around then, and every count can be returned as an `int`.
-/

namespace Shfs

open Lib

/-! ## Runs -/

/-- A call on the inode, with its arguments and with the memory that there is when it needs a
buffer. `elsewhere` stands for the calls on other inodes, which have `info->fcache_free` in common
with it. -/
inductive CacheOp : Type where
  | open (f : OpenFile) (mem : Memory)
  | read (f : OpenFile) (mem : Memory) (offset count : ℕ)
  | write (f : OpenFile) (mem : Memory) (offset : ℕ) (buffer : Bytes)
  | sync (f : OpenFile)
  | close (f : OpenFile)
  | clear (f : OpenFile)
  | elsewhere (free : ℤ)
  deriving DecidableEq, Repr

/-- What a call returns: a status, or octets. -/
inductive Answer : Type where
  | status (result : Except Errno ℕ)
  | data (result : Except Errno Bytes)
  deriving DecidableEq

namespace CacheOp

variable {σ : Type} (ops : Fops σ) (size fuel : ℕ)

/-- The call. -/
def call (s : Slot σ) : CacheOp → Option (Answer × Slot σ)
  | .open f mem =>
    let (r, s) := fcacheFileOpen mem f.file s
    some (.status (r.map fun _ => 0), s)
  | read f mem offset count =>
    (fcacheFileRead ops size fuel mem f.file offset count s).map fun (r, s) => (.data r, s)
  | write f mem offset buffer =>
    (fcacheFileWrite ops size fuel mem f.file offset buffer s).map fun (r, s) => (.status r, s)
  | sync f =>
    let (r, s) := fcacheFileSync ops f.file s
    some (.status (r.map fun _ => 0), s)
  | close f =>
    let (r, s) := fcacheFileClose ops f.file s
    some (.status (r.map fun _ => 0), s)
  | clear f =>
    let (r, s) := fcacheFileClear f.file s
    some (.status (r.map fun _ => 0), s)
  | elsewhere free => some (.status (.ok 0), { s with free := free })

/-- The file without a cache after the call. -/
def plain (file : Bytes) : CacheOp → Bytes
  | write _ _ offset buffer => store file offset buffer
  | _ => file

/-- The rounds the loops of the call may take. -/
def rounds : CacheOp → ℕ
  | read _ _ _ count => count
  | write _ _ _ buffer => buffer.length
  | _ => 0

/-- Offset and count are together below 2^31, for a read also with `fcache_size`, by which it may
read ahead. The `unsigned` offsets of the functions do not wrap then, and no count is a negative
`int`. -/
def Below : CacheOp → Prop
  | read _ _ offset count => offset + count + size < 2 ^ 31
  | write _ _ offset buffer => offset + buffer.length < 2 ^ 31
  | _ => True

/-- No `unsigned` of the call wraps around, and its count can be returned as an `int`. -/
def Unwrapped : CacheOp → Prop
  | read _ _ offset count => count < 2 ^ 31 ∧ offset + count + size < 2 ^ 32
  | write _ _ offset buffer => buffer.length < 2 ^ 31 ∧ offset + buffer.length < 2 ^ 32
  | _ => True

/-- What a caller may expect, next to the file without a cache: the octets it holds, and after a
sync the same file on the remote side. -/
def Right (contents : σ → Bytes) (file : Bytes) (answer : Answer) (s : Slot σ) : CacheOp → Prop
  | read _ _ offset count => answer = .data (.ok (fetch file offset count))
  | sync _ | close _ => contents s.remote = file
  | _ => True

/-- The call returns, and is right: its answer is that of a file without a cache, and after a sync
or a close the remote file is this file. -/
def Transparent (contents : σ → Bytes) (s : Slot σ × Bytes) (op : CacheOp) : Prop :=
  ∃ answer s', op.call ops size fuel s.1 = some (answer, s') ∧ op.Right contents s.2 answer s'

/-- The state after the call, with the file without a cache beside it. -/
def next (s : Slot σ × Bytes) (op : CacheOp) : Slot σ × Bytes :=
  (((op.call ops size fuel s.1).map Prod.snd).getD s.1, op.plain s.2)

/-- A read does not refill the buffer at the wrong place. `FCache.Refills` says so of the buffer
that the read finds, or of the one that it is given; without a buffer nothing is refilled. -/
def Refills (s : Slot σ) : CacheOp → Prop
  | read _ mem offset count => ∀ c ∈ (s.alloc mem).cache, c.Refills size offset count
  | _ => True

variable {ops size fuel} {contents : σ → Bytes}

/-- Below 2^31, nothing wraps around. -/
theorem Below.unwrapped {op : CacheOp} (h : op.Below size) : op.Unwrapped size := by
  cases op with
  | read f mem offset count =>
    unfold Below at h
    exact ⟨by omega, by omega⟩
  | write f mem offset buffer =>
    unfold Below at h
    exact ⟨by omega, by omega⟩
  | _ => trivial

/-- **A call** on a mirrored inode is right, and leaves it mirrored. This is the step of
`transparent_of_refills`. -/
theorem call_mirrors (hops : ops.Plain contents) (hsize : PAGE_SIZE ∣ size) (hpos : 0 < size)
    {s : Slot σ} {file : Bytes} {op : CacheOp} (hs : s.Mirrors contents size file)
    (hfuel : op.rounds ≤ fuel) (hwraps : op.Unwrapped size) (hrefills : op.Refills size s) :
    ∃ answer s', op.call ops size fuel s = some (answer, s') ∧
      op.Right contents file answer s' ∧ s'.Mirrors contents size (op.plain file) := by
  cases op with
  | «open» f mem => exact ⟨_, _, rfl, trivial, hs.alloc mem⟩
  | read f mem offset count =>
    have hend : offset + count < 2 ^ 32 := lt_of_le_of_lt (Nat.le_add_right ..) hwraps.2
    obtain ⟨s', hcall, hs'⟩ := fcacheFileRead_mirrors hops hsize hpos hend mem f hs
      (show count ≤ fuel from hfuel) hrefills
    exact ⟨.data (.ok (fetch file offset count)), s', by rw [call, hcall]; rfl, rfl, hs'⟩
  | write f mem offset buffer =>
    obtain ⟨s', hcall, hs'⟩ := fcacheFileWrite_mirrors hops hpos hwraps.1 hwraps.2 mem f hs hfuel
    exact ⟨.status (.ok buffer.length), s', by rw [call, hcall]; rfl, trivial, hs'⟩
  | sync f =>
    obtain ⟨s', hcall, hs', hfile⟩ := fcacheFileSync_mirrors hops f hs
    exact ⟨.status (.ok 0), s', by rw [call, hcall]; rfl, hfile, hs'⟩
  | close f =>
    obtain ⟨s', hcall, hs', hfile⟩ := fcacheFileClose_mirrors hops f hs
    exact ⟨.status (.ok 0), s', by rw [call, hcall]; rfl, hfile, hs'⟩
  | clear f =>
    obtain ⟨s', hcall, hs'⟩ := fcacheFileClear_mirrors f hs
    exact ⟨.status (.ok 0), s', by rw [call, hcall]; rfl, trivial, hs'⟩
  | elsewhere free => exact ⟨_, _, rfl, trivial, hs⟩

/-- **The cache is not visible** in any run whose reads refill the buffer at the right place: every
call returns what a file without a cache would, and every sync makes the remote file that file. -/
theorem transparent_of_refills (hops : ops.Plain contents) (j : ℕ) {s : Slot σ}
    (hs : s.cache = none) {run : List CacheOp} (hfuel : ∀ op ∈ run, op.rounds ≤ fuel)
    (hbelow : ∀ op ∈ run, op.Below (2 ^ j * PAGE_SIZE))
    (hrefills : Along (next ops (2 ^ j * PAGE_SIZE) fuel)
      (fun s op => op.Refills (2 ^ j * PAGE_SIZE) s.1) (s, contents s.remote) run) :
    Along (next ops (2 ^ j * PAGE_SIZE) fuel) (Transparent ops (2 ^ j * PAGE_SIZE) fuel contents)
      (s, contents s.remote) run := by
  have hstart : s.Mirrors contents (2 ^ j * PAGE_SIZE) (contents s.remote) := by
    simp only [Slot.Mirrors, hs]
  refine Along.of_guarded (fun x => x.1.Mirrors contents (2 ^ j * PAGE_SIZE) x.2)
    (fun x op hx hq => ?_) hstart ((hrefills.and_mem hfuel).and_mem hbelow)
  obtain ⟨answer, s', hcall, hright, hs'⟩ :=
    call_mirrors hops (Dvd.intro_left _ rfl) (by positivity) hx hq.1.2 hq.2.unwrapped hq.1.1
  refine ⟨⟨answer, s', hcall, hright⟩, ?_⟩
  simp only [next, hcall, Option.map_some, Option.getD_some]
  exact hs'

/-! ### An example -/

instance (op : CacheOp) : Decidable (op.Below size) :=
  match op with
  | read .. => inferInstanceAs (Decidable (_ < _))
  | write .. => inferInstanceAs (Decidable (_ < _))
  | .open .. | sync _ | close _ | clear _ | elsewhere _ => isTrue trivial

instance (op : CacheOp) : Decidable (op.Unwrapped size) :=
  match op with
  | read .. => inferInstanceAs (Decidable (_ ∧ _))
  | write .. => inferInstanceAs (Decidable (_ ∧ _))
  | .open .. | sync _ | close _ | clear _ | elsewhere _ => isTrue trivial

instance (s : Slot σ) (op : CacheOp) : Decidable (op.Refills size s) :=
  match op with
  | read .. => inferInstanceAs (Decidable (∀ c ∈ _, _))
  | .open .. | write .. | sync _ | close _ | clear _ | elsewhere _ => isTrue trivial

/-- A remote file as its contents. -/
def plainOps : Fops Bytes where
  read name off n _ s := ⟨.ok (fetch s off n), name, s⟩
  write name off d _ s := ⟨.ok d.length, name, store s off d⟩

theorem plainOps_plain : plainOps.Plain id where
  read _ _ _ _ _ := rfl
  read_remote _ _ _ _ _ := rfl
  write _ _ _ _ _ := rfl
  write_remote _ _ _ _ _ := rfl

/-- The file `/a`. -/
def openA : OpenFile := ⟨.child .root (ascii "a"), 7, []⟩

/-- Both allocations succeed. -/
def plenty : Memory := ⟨true, some []⟩

/-- No buffer yet, one to be had, and an empty remote file. -/
def fresh : Slot Bytes := ⟨none, 1, []⟩

/-- A write, a read of what was written and of the octet behind it in two parts, and a sync. -/
def quietRun : List CacheOp :=
  [.write openA plenty 4095 [65], .read openA plenty 4095 1, .read openA plenty 4096 1, .sync openA]

/-- A write, a read of the octet behind it in the middle of a page, and a read further on. -/
def shiftedRun : List CacheOp :=
  [.write openA plenty 100 [65], .read openA plenty 101 1, .read openA plenty 201 1]

theorem quietRun_transparent :
    Along (next plainOps (2 ^ 0 * PAGE_SIZE) 1) (Transparent plainOps (2 ^ 0 * PAGE_SIZE) 1 id)
      (fresh, []) quietRun :=
  transparent_of_refills plainOps_plain 0 rfl (by decide) (by decide) (by decide +kernel)

/-- The refill of the second read goes behind an empty buffer at offset 101, but starts at offset 0:
the third read gets the octet at 100 for the one at 201. -/
theorem not_transparent_shifted :
    ¬ Along (next plainOps (2 ^ 0 * PAGE_SIZE) 1) (Transparent plainOps (2 ^ 0 * PAGE_SIZE) 1 id)
      (fresh, []) shiftedRun := by
  rintro ⟨-, -, ⟨answer, s', hcall, hright⟩, -⟩
  have h := congrArg (Option.map Prod.fst) hcall
  rw [Option.map_some, show answer = _ from hright] at h
  change _ = some (Answer.data _) at h
  revert h
  decide +kernel

end CacheOp

end Shfs
