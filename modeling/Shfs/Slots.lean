import Shfs.Transparency
import Shfs.Lib.Pool
import Mathlib.Data.Set.Card

/-!
# The slots of the file cache

`info->fcache_free` says how many buffers may still be allocated, for all inodes of a mount
together. Here the calls of the file cache go to any inode of a set (`Caches`), with allocations and
remote commands that may fail, and the buffers are the tickets of a pool (`Caches.Tallies`).

`alloc_fcache` takes a ticket before it allocates and does not give it back when an allocation
fails; `fcache_file_close` skips `free_fcache` when the flush has failed. In every run without
these two the tickets are conserved (`Caches.conserved_of_kept`).
-/

namespace Shfs

open Lib

/-! ## Calls -/

/-- A function of the file cache with its arguments. -/
inductive FcacheOp : Type where
  | open (mem : Memory)
  | read (mem : Memory) (offset count : ℕ)
  | write (mem : Memory) (offset : ℕ) (buffer : Bytes)
  | sync
  | close
  deriving DecidableEq, Repr

/-- A call for an open file: which inode it is for, how its path is found, and what is to be done.
-/
structure FcacheCall (ι : Type) : Type where
  inode : ι
  dentry : Dentry
  /-- what the path buffer holds before `get_name` -/
  stack : Bytes
  op : FcacheOp
  deriving DecidableEq, Repr

/-- The buffers of all the inodes, `info->fcache_free`, which they have in common, and the remote
side. -/
structure Caches (ι σ : Type) : Type where
  cache : ι → Option FCache
  free : ℤ
  remote : σ

section Calls

variable {ι σ : Type} (ops : Fops σ) (size fuel : ℕ)

/-- The slot after the call. A read or a write that never comes back has its buffer by then. -/
def FcacheOp.slot (f : File) (s : Slot σ) : FcacheOp → Slot σ
  | .open mem => (fcacheFileOpen mem f s).2
  | read mem offset count =>
    ((fcacheFileRead ops size fuel mem f offset count s).map Prod.snd).getD (s.alloc mem)
  | write mem offset buffer =>
    ((fcacheFileWrite ops size fuel mem f offset buffer s).map Prod.snd).getD (s.alloc mem)
  | sync => (fcacheFileSync ops f s).2
  | close => (fcacheFileClose ops f s).2

/-- What a call on `i` sees. -/
def Caches.slot (s : Caches ι σ) (i : ι) : Slot σ := ⟨s.cache i, s.free, s.remote⟩

variable (table : ι → Inode)

/-- The file of a call; `table` says what its inode is. -/
def FcacheCall.file (c : FcacheCall ι) : File := ⟨c.dentry, some (table c.inode), c.stack⟩

variable [DecidableEq ι]

/-- The state after a call. -/
def Caches.next (s : Caches ι σ) (c : FcacheCall ι) : Caches ι σ :=
  let t := c.op.slot ops size fuel (c.file table) (s.slot c.inode)
  ⟨Function.update s.cache c.inode t.cache, t.free, t.remote⟩

end Calls

/-- The mount before the first call, for `cachemax=initial`. -/
def Caches.fresh {σ : Type} (ι : Type) (initial : ℕ) (remote : σ) : Caches ι σ :=
  ⟨fun _ => none, initial, remote⟩

/-- How many inodes hold a buffer. -/
noncomputable def Caches.holding {ι σ : Type} (s : Caches ι σ) : ℕ := {i | (s.cache i).isSome}.ncard

/-! ## Calls as moves -/

section Moves

variable {σ : Type} (ops : Fops σ) {size fuel : ℕ}

/-- Do both allocations succeed? -/
def Memory.granted (mem : Memory) : Bool := mem.cell && mem.block.isSome

/-- What `alloc_fcache` does to the tickets. -/
def Slot.allocMove (mem : Memory) (s : Slot σ) : Pool.Move :=
  if s.cache.isSome ∨ s.free ≤ 0 then .keep
  else if mem.granted then .take
  else .lose

/-- What the last part of `fcache_file_close` does to them: it is reached if there is nothing to
write, or the write has succeeded. -/
def Slot.closeMove (f : File) (ino : ℕ) (s : Slot σ) : Pool.Move :=
  match s.cache with
  | none => .keep
  | some c =>
    if c.count ≠ 0 ∧ c.type = .write then
      match (ops.write (getName f.dentry f.stack).2 c.offset c.held ino s.remote).result with
      | .error _ => .keep
      | .ok _ => .give
    else .give

/-- What a call does to the tickets. -/
def FcacheOp.move (f : File) (s : Slot σ) (op : FcacheOp) : Pool.Move :=
  match f.check with
  | .error _ => .keep
  | .ok ino =>
    match op with
    | .open mem | read mem _ _ | write mem _ _ => s.allocMove mem
    | sync => .keep
    | close => s.closeMove ops f ino

/-- A slot before and after a move. -/
def Slot.Moves (s s' : Slot σ) : Pool.Move → Prop
  | .keep => s'.cache.isSome = s.cache.isSome ∧ s'.free = s.free
  | .take => s.cache = none ∧ 0 < s.free ∧ s'.cache.isSome ∧ s'.free = s.free - 1
  | .give => s.cache.isSome ∧ s'.cache = none ∧ s'.free = s.free + 1
  | .lose => s.cache = none ∧ 0 < s.free ∧ s'.cache = none ∧ s'.free = s.free - 1

variable {ops} {s : Slot σ} {f : File}

theorem Slot.alloc_moves (mem : Memory) (s : Slot σ) : s.Moves (s.alloc mem) (s.allocMove mem) := by
  obtain ⟨cache, free, remote⟩ := s
  obtain ⟨cell, block⟩ := mem
  cases cache with
  | some c => exact ⟨rfl, rfl⟩
  | none =>
    by_cases hfree : free ≤ 0
    · simp [Slot.allocMove, Slot.alloc, allocFcache, hfree, Slot.Moves]
    · have hpos : 0 < free := Int.not_le.mp hfree
      cases cell <;> cases block <;>
        simp [Slot.allocMove, Slot.alloc, allocFcache, hfree, Slot.Moves, Memory.granted, hpos]

/-- What comes behind the allocation of a read or a write keeps the buffer, if there is one. -/
theorem Slot.Moves.of_eq {s s' s'' : Slot σ} {m : Pool.Move} (h : s.Moves s' m)
    (hcache : s''.cache.isSome = s'.cache.isSome) (hfree : s''.free = s'.free) : s.Moves s'' m := by
  cases m with
  | keep => exact ⟨hcache.trans h.1, hfree.trans h.2⟩
  | take => exact ⟨h.1, h.2.1, hcache.trans h.2.2.1, hfree.trans h.2.2.2⟩
  | give =>
    obtain ⟨h1, h2, h3⟩ := h
    exact ⟨h1, by simpa [h2] using hcache, hfree.trans h3⟩
  | lose =>
    obtain ⟨h1, h2, h3, h4⟩ := h
    exact ⟨h1, h2, by simpa [h3] using hcache, hfree.trans h4⟩

theorem fcacheFileOpen_moves (mem : Memory) (f : File) (s : Slot σ) :
    s.Moves (fcacheFileOpen mem f s).2 (FcacheOp.move ops f s (.open mem)) := by
  unfold fcacheFileOpen FcacheOp.move
  cases f.check with
  | error e => exact ⟨rfl, rfl⟩
  | ok ino => exact s.alloc_moves mem

theorem fcacheFileRead_moves (mem : Memory) (f : File) (offset count : ℕ) (s : Slot σ) :
    s.Moves (((fcacheFileRead ops size fuel mem f offset count s).map Prod.snd).getD (s.alloc mem))
      (FcacheOp.move ops f s (.read mem offset count)) := by
  unfold fcacheFileRead FcacheOp.move
  rw [File.checkName_eq]
  cases f.check with
  | error e => exact ⟨rfl, rfl⟩
  | ok ino =>
    refine (s.alloc_moves mem).of_eq ?_ ?_ <;> simp only [Except.map] <;>
      cases hc : (s.alloc mem).cache with
      | none => simp
      | some c =>
        -- whatever the loop does to the buffer, it is still there
        dsimp only
        cases loop _ (Reading.fill ops size) fuel _ with
        | none => simp [hc]
        | some r => cases r <;> simp

theorem fcacheFileWrite_moves (mem : Memory) (f : File) (offset : ℕ) (buffer : Bytes) (s : Slot σ) :
    s.Moves
      (((fcacheFileWrite ops size fuel mem f offset buffer s).map Prod.snd).getD (s.alloc mem))
      (FcacheOp.move ops f s (.write mem offset buffer)) := by
  unfold fcacheFileWrite FcacheOp.move
  rw [File.checkName_eq]
  cases f.check with
  | error e => exact ⟨rfl, rfl⟩
  | ok ino =>
    refine (s.alloc_moves mem).of_eq ?_ ?_ <;> simp only [Except.map] <;>
      cases hc : (s.alloc mem).cache with
      | none => simp
      | some c =>
        dsimp only
        cases loop _ (Writing.drain ops size ino) fuel _ with
        | none => simp [hc]
        | some r => simp

theorem fcacheFileSync_moves (f : File) (s : Slot σ) :
    s.Moves (fcacheFileSync ops f s).2 (FcacheOp.move ops f s .sync) := by
  unfold fcacheFileSync FcacheOp.move
  cases f.check with
  | error e => exact ⟨rfl, rfl⟩
  | ok ino =>
    cases hc : s.cache with
    | none => exact ⟨rfl, rfl⟩
    | some c =>
      dsimp only
      split
      · rw [if_neg (getName_nonneg f.dentry f.stack)]
        exact ⟨by rw [hc]; rfl, rfl⟩
      · exact ⟨rfl, rfl⟩

theorem fcacheFileClose_moves (f : File) (s : Slot σ) :
    s.Moves (fcacheFileClose ops f s).2 (FcacheOp.move ops f s .close) := by
  unfold fcacheFileClose fcacheFileSync FcacheOp.move Slot.closeMove
  cases f.check with
  | error e => exact ⟨rfl, rfl⟩
  | ok ino =>
    cases hc : s.cache with
    | none => simp [hc, Slot.Moves]
    | some c =>
      dsimp only
      by_cases hdirty : c.count ≠ 0 ∧ c.type = .write
      · rw [if_pos hdirty, if_pos hdirty, if_neg (getName_nonneg f.dentry f.stack)]
        cases (ops.write _ c.offset c.held ino s.remote).result with
        | error e => exact ⟨by rw [hc]; rfl, rfl⟩
        | ok n => exact ⟨by rw [hc]; rfl, rfl, rfl⟩
      · rw [if_neg hdirty, if_neg hdirty]
        dsimp only
        rw [hc]
        exact ⟨by rw [hc]; rfl, rfl, rfl⟩

variable (ops size fuel) in
/-- **A call is a move of its ticket**: it takes one, gives it back, loses it, or leaves it where it
is, and the counter goes with it. -/
theorem FcacheOp.slot_moves (op : FcacheOp) (f : File) (s : Slot σ) :
    s.Moves (op.slot ops size fuel f s) (op.move ops f s) := by
  cases op with
  | «open» mem => exact fcacheFileOpen_moves mem f s
  | read mem offset count => exact fcacheFileRead_moves mem f offset count s
  | write mem offset buffer => exact fcacheFileWrite_moves mem f offset buffer s
  | sync => exact fcacheFileSync_moves f s
  | close => exact fcacheFileClose_moves f s

end Moves

/-! ## Runs -/

section Runs

variable {ι σ : Type} (ops : Fops σ) {size fuel : ℕ} (table : ι → Inode)

/-- The pool that the buffers and `info->fcache_free` stand for. -/
structure Caches.Tallies (s : Caches ι σ) (p : Pool ι) : Prop where
  free : p.free = s.free
  holders : ∀ i, i ∈ p.holders ↔ (s.cache i).isSome

/-- What a call does to the ticket of its inode. -/
def Caches.move (s : Caches ι σ) (c : FcacheCall ι) : Pool.Move :=
  c.op.move ops (c.file table) (s.slot c.inode)

/-- The condition on a call: allocations that it gets a ticket for succeed, and so does the last
flush. -/
def FcacheOp.Kept (f : File) (s : Slot σ) (op : FcacheOp) : Prop :=
  ∀ ino, f.check = .ok ino →
    match op with
    | .open mem | read mem _ _ | write mem _ _ => s.cache = none → 0 < s.free → mem.granted
    | sync => True
    | close =>
      ∀ c ∈ s.cache, c.count ≠ 0 → c.type = .write →
        ∃ n, (ops.write (getName f.dentry f.stack).2 c.offset c.held ino s.remote).result = .ok n

/-- The condition on a call, in a state: it does not lose its ticket, by an allocation that fails
behind it, and a last flush does not keep the buffer of a file that is closed. -/
def Caches.Kept (s : Caches ι σ) (c : FcacheCall ι) : Prop :=
  c.op.Kept ops (c.file table) (s.slot c.inode)

/-- The last of the calls on `i`, if there is one, closes it. -/
def Closed [DecidableEq ι] (i : ι) (calls : List (FcacheCall ι)) : Prop :=
  ∀ c ∈ (calls.filter fun c => c.inode = i).getLast?, c.op = .close

variable {ops} {s : Slot σ} {f : File} {op : FcacheOp}

theorem FcacheOp.move_refused {e : Errno} (h : f.check = .error e) : op.move ops f s = .keep := by
  unfold FcacheOp.move
  rw [h]

theorem Slot.allocMove_ne_lose {mem : Memory} (h : s.cache = none → 0 < s.free → mem.granted) :
    s.allocMove mem ≠ .lose := by
  unfold Slot.allocMove
  split
  · exact Pool.Move.noConfusion
  · next hnone =>
    obtain ⟨hcache, hfree⟩ := not_or.mp hnone
    rw [if_pos (h (by simpa using hcache) (Int.not_le.mp hfree))]
    exact Pool.Move.noConfusion

theorem Slot.closeMove_ne_lose (f : File) (ino : ℕ) (s : Slot σ) :
    s.closeMove ops f ino ≠ .lose := by
  unfold Slot.closeMove
  cases s.cache with
  | none => exact Pool.Move.noConfusion
  | some c =>
    dsimp only
    split
    · cases (ops.write _ c.offset c.held ino s.remote).result <;> exact Pool.Move.noConfusion
    · exact Pool.Move.noConfusion

theorem FcacheOp.Kept.move_ne_lose (h : op.Kept ops f s) : op.move ops f s ≠ .lose := by
  unfold FcacheOp.move
  cases hf : f.check with
  | error e => exact Pool.Move.noConfusion
  | ok ino =>
    cases op with
    | «open» mem | read mem | write mem => exact Slot.allocMove_ne_lose (h ino hf)
    | sync => exact Pool.Move.noConfusion
    | close => exact Slot.closeMove_ne_lose f ino s

/-- A close whose flush succeeds gives a buffer back. -/
theorem FcacheOp.Kept.move_close (h : FcacheOp.close.Kept ops f s) {ino : ℕ}
    (hf : f.check = .ok ino) :
    FcacheOp.close.move ops f s = if s.cache.isSome then .give else .keep := by
  have hkept := h ino hf
  unfold FcacheOp.move
  rw [hf]
  unfold Slot.closeMove
  cases hc : s.cache with
  | none => rfl
  | some c =>
    dsimp only
    split
    · next hdirty =>
      obtain ⟨n, hn⟩ := hkept c hc hdirty.1 hdirty.2
      rw [hn]
      rfl
    · rfl

variable {table} {s : Caches ι σ} {p : Pool ι}

theorem Caches.Tallies.holding (h : s.Tallies p) : s.holding = p.holders.card := by
  have : {i | (s.cache i).isSome} = (p.holders : Set ι) := Set.ext fun i => (h.holders i).symm
  rw [Caches.holding, this, Set.ncard_coe_finset]

theorem Caches.Tallies.total (h : s.Tallies p) : s.free + s.holding = p.total := by
  rw [h.holding, ← h.free]
  rfl

/-- What holds in every state of a run that meets the condition: the buffers and the counter are the
tickets of a pool, whose total is what `cachemax` has said, and the counter is not negative. -/
structure Caches.Sound (initial : ℕ) (table : ι → Inode) (s : Caches ι σ) (p : Pool ι) : Prop where
  tallies : s.Tallies p
  total : p.total = initial
  nonneg : 0 ≤ p.free
  /-- an inode that no function accepts has no buffer -/
  refused : ∀ i e, (table i).check = .error e → s.cache i = none

theorem Caches.fresh_sound (initial : ℕ) (remote : σ) :
    (fresh ι initial remote).Sound initial table ⟨∅, initial⟩ where
  tallies := ⟨rfl, fun _ => iff_of_false (Finset.notMem_empty _) Bool.noConfusion⟩
  total := by simp [Pool.total]
  nonneg := Int.natCast_nonneg initial
  refused _ _ _ := rfl

variable [DecidableEq ι]

theorem Caches.next_cache_of_ne {c : FcacheCall ι} {i : ι} (h : i ≠ c.inode) :
    (s.next ops size fuel table c).cache i = s.cache i :=
  Function.update_of_ne h _ _

variable (ops size fuel) in
/-- **Every call is a legal move of the pool.** So the tickets of the caches can be counted in the
pool, whatever the calls are. -/
theorem Caches.Tallies.next (h : s.Tallies p) (c : FcacheCall ι) :
    p.Legal c.inode (s.move ops table c) ∧
      (s.next ops size fuel table c).Tallies (p.move c.inode (s.move ops table c)) := by
  have hslot := c.op.slot_moves ops size fuel (c.file table) (s.slot c.inode)
  set t := c.op.slot ops size fuel (c.file table) (s.slot c.inode) with ht
  have hself : (s.next ops size fuel table c).cache c.inode = t.cache := Function.update_self ..
  have hmem : c.inode ∈ p.holders ↔ (s.cache c.inode).isSome := h.holders c.inode
  have hothers : ∀ i m, i ≠ c.inode →
      (i ∈ (p.move c.inode m).holders ↔ ((s.next ops size fuel table c).cache i).isSome) := by
    intro i m hi
    rw [Pool.mem_move_of_ne hi, next_cache_of_ne hi]
    exact h.holders i
  unfold Caches.move
  -- what is left is the inode of the call itself
  suffices hmine : p.Legal c.inode (c.op.move ops (c.file table) (s.slot c.inode)) ∧
      (p.move c.inode (c.op.move ops (c.file table) (s.slot c.inode))).free = t.free ∧
      (c.inode ∈ (p.move c.inode (c.op.move ops (c.file table) (s.slot c.inode))).holders ↔
        t.cache.isSome) by
    refine ⟨hmine.1, hmine.2.1, fun i => ?_⟩
    by_cases hi : i = c.inode
    · rw [hi, hself]
      exact hmine.2.2
    · exact hothers i _ hi
  cases hm : c.op.move ops (c.file table) (s.slot c.inode) with
  | keep =>
    obtain ⟨hcache, hfree⟩ := hm ▸ hslot
    refine ⟨trivial, h.free.trans hfree.symm, ?_⟩
    rw [hcache]
    exact hmem
  | take =>
    obtain ⟨hnone, hpos, hcache, hfree⟩ := hm ▸ hslot
    refine ⟨⟨fun hi => ?_, h.free ▸ hpos⟩, ?_, ?_⟩
    · have := hmem.mp hi
      rw [show s.cache c.inode = none from hnone] at this
      cases this
    · rw [hfree]
      exact congrArg (· - 1) h.free
    · exact ⟨fun _ => hcache, fun _ => Finset.mem_insert_self ..⟩
  | give =>
    obtain ⟨hsome, hcache, hfree⟩ := hm ▸ hslot
    refine ⟨hmem.mpr hsome, ?_, ?_⟩
    · rw [hfree]
      exact congrArg (· + 1) h.free
    · rw [hcache]
      exact iff_of_false (Finset.notMem_erase c.inode p.holders) Bool.noConfusion
  | lose =>
    obtain ⟨hnone, hpos, hcache, hfree⟩ := hm ▸ hslot
    refine ⟨show 0 < p.free from h.free ▸ hpos, ?_, ?_⟩
    · rw [hfree]
      exact congrArg (· - 1) h.free
    · rw [hcache]
      have hno : ¬ c.inode ∈ p.holders := by
        intro hi
        have := hmem.mp hi
        rw [show s.cache c.inode = none from hnone] at this
        cases this
      exact iff_of_false hno Bool.noConfusion

theorem Caches.Sound.next {initial : ℕ} (h : s.Sound initial table p) {c : FcacheCall ι}
    (hc : s.Kept ops table c) :
    (s.next ops size fuel table c).Sound initial table (p.move c.inode (s.move ops table c)) := by
  obtain ⟨hlegal, htallies⟩ := h.tallies.next ops size fuel c
  refine ⟨htallies, ?_, Pool.free_move hlegal h.nonneg, fun i e hi => ?_⟩
  · have hkept : s.move ops table c ≠ .lose := hc.move_ne_lose
    rw [Pool.total_move hlegal, if_neg hkept, h.total]
    exact Int.sub_zero _
  · by_cases hic : i = c.inode
    · subst hic
      have hslot := c.op.slot_moves ops size fuel (c.file table) (s.slot c.inode)
      rw [FcacheOp.move_refused (show (c.file table).check = .error e from hi)] at hslot
      have hnone := hslot.1
      rw [show (s.slot c.inode).cache = none from h.refused c.inode e hi] at hnone
      rw [show (s.next ops size fuel table c).cache c.inode = _ from Function.update_self ..]
      exact Option.isSome_eq_false_iff.mp hnone |> Option.isNone_iff_eq_none.mp
    · rw [next_cache_of_ne hic]
      exact h.refused i e hi

/-- A close that meets the condition leaves its inode without a buffer. -/
theorem Caches.Sound.close {initial : ℕ} (h : s.Sound initial table p) {c : FcacheCall ι}
    (hc : s.Kept ops table c) (hop : c.op = .close) :
    (s.next ops size fuel table c).cache c.inode = none := by
  cases htable : (table c.inode).check with
  | error e => exact (h.next hc).refused c.inode e htable
  | ok ino =>
    have hkept : FcacheOp.close.Kept ops (c.file table) (s.slot c.inode) := hop ▸ hc
    have hself : (s.next ops size fuel table c).cache c.inode =
        (FcacheOp.close.slot ops size fuel (c.file table) (s.slot c.inode)).cache := by
      rw [← hop]
      exact Function.update_self ..
    have hslot := FcacheOp.close.slot_moves ops size fuel (c.file table) (s.slot c.inode)
    rw [hkept.move_close htable] at hslot
    rw [hself]
    cases hsome : (s.slot c.inode).cache.isSome with
    | true =>
      rw [hsome] at hslot
      exact hslot.2.1
    | false =>
      rw [hsome] at hslot
      exact Option.isNone_iff_eq_none.mp (Option.isSome_eq_false_iff.mp (hslot.1.trans hsome))

/-- The run rule of the pool, with the inodes that are closed. -/
theorem Caches.run_sound {initial : ℕ} {remote : σ} {calls : List (FcacheCall ι)}
    (h : Along (next ops size fuel table) (Kept ops table) (fresh ι initial remote) calls) :
    (∃ p, (run (next ops size fuel table) (fresh ι initial remote) calls).Sound initial table p) ∧
      ∀ i, Closed i calls →
        (run (next ops size fuel table) (fresh ι initial remote) calls).cache i = none := by
  induction calls using List.reverseRecOn with
  | nil => exact ⟨⟨_, fresh_sound initial remote⟩, fun _ _ => rfl⟩
  | append_singleton calls c ih =>
    obtain ⟨hcalls, hc, -⟩ := along_append.mp h
    obtain ⟨⟨p, hp⟩, hclosed⟩ := ih hcalls
    rw [run_append]
    refine ⟨⟨_, hp.next hc⟩, fun i hi => ?_⟩
    unfold Closed at hi
    rw [List.filter_append] at hi
    by_cases hic : i = c.inode
    · subst hic
      simp only [List.filter_cons, List.filter_nil, decide_true, if_true,
        List.getLast?_append, List.getLast?_singleton] at hi
      exact hp.close hc (hi c rfl)
    · have hother : List.filter (fun c => decide (c.inode = i)) [c] = [] := by
        simp [Ne.symm hic]
      rw [hother, List.append_nil] at hi
      exact (next_cache_of_ne hic).trans (hclosed i hi)

/-- **Slots are conserved** in every run whose allocations, once they have a ticket, and whose last
flushes succeed: at every moment the free slots and the buffers add up to `initial`, and when all
inodes are closed there is no buffer left. -/
theorem Caches.conserved_of_kept {initial : ℕ} {remote : σ} {calls : List (FcacheCall ι)}
    (h : Along (next ops size fuel table) (Kept ops table) (fresh ι initial remote) calls)
    {before : List (FcacheCall ι)} (hbefore : before <+: calls) :
    let s := run (next ops size fuel table) (fresh ι initial remote) before
    s.free + s.holding = initial ∧ 0 ≤ s.free ∧
      ((∀ i, Closed i before) → (∀ i, s.cache i = none) ∧ s.free = initial) := by
  obtain ⟨after, rfl⟩ := hbefore
  obtain ⟨⟨p, hp⟩, hclosed⟩ := run_sound (along_append.mp h).1
  have htotal := hp.tallies.total.trans hp.total
  refine ⟨htotal, hp.tallies.free ▸ hp.nonneg, fun hall => ?_⟩
  have hnone := fun i => hclosed i (hall i)
  refine ⟨hnone, ?_⟩
  have hholders : p.holders = ∅ := by
    apply Finset.eq_empty_of_forall_notMem
    intro i hi
    have := (hp.tallies.holders i).mp hi
    rw [hnone i] at this
    cases this
  rw [← hp.tallies.free, Pool.free_of_holders hholders, hp.total]

end Runs

/-! ### An example -/

/-- The only inode of the examples. -/
def soleInode : Unit → Inode := fun _ => ⟨7, false, true⟩

/-- A call for `/a`. -/
def callA (op : FcacheOp) : FcacheCall Unit := ⟨(), .child .root (ascii "a"), [], op⟩

/-- No allocation succeeds. -/
def exhausted : Memory := ⟨false, none⟩

/-- A remote side that is full. -/
def fullOps : Fops Bytes where
  read name off n _ s := ⟨.ok (fetch s off n), name, s⟩
  write name _ _ _ s := ⟨.error (.other 28), name, s⟩

/-- A file is opened, written, and closed. -/
def closedRun : List (FcacheCall Unit) :=
  [callA (.open CacheOp.plenty), callA (.write CacheOp.plenty 0 [65]), callA .close]

/-- A file is opened without memory. -/
def lostRun : List (FcacheCall Unit) := [callA (.open exhausted)]

theorem closedRun_conserved :
    let s := run (Caches.next CacheOp.plainOps PAGE_SIZE 1 soleInode) (.fresh Unit 1 []) closedRun
    s.free + s.holding = 1 ∧ 0 ≤ s.free ∧
      ((∀ i, Closed i closedRun) → (∀ i, s.cache i = none) ∧ s.free = 1) := by
  have hkept : Along (Caches.next CacheOp.plainOps PAGE_SIZE 1 soleInode)
      (Caches.Kept CacheOp.plainOps soleInode) (.fresh Unit 1 []) closedRun :=
    ⟨fun _ _ _ _ => rfl, fun _ _ _ _ => rfl, fun _ _ _ _ _ _ => ⟨_, rfl⟩, trivial⟩
  exact Caches.conserved_of_kept hkept (List.prefix_refl closedRun)

/-- The ticket of an allocation that fails is lost, and a flush that fails keeps the buffer of a
file that is closed. -/
theorem not_conserved :
    (run (Caches.next CacheOp.plainOps PAGE_SIZE 1 soleInode) (.fresh Unit 1 []) lostRun).free +
        (run (Caches.next CacheOp.plainOps PAGE_SIZE 1 soleInode)
          (.fresh Unit 1 []) lostRun).holding ≠
      1 ∧
    ((∀ i, Closed i closedRun) ∧
      (run (Caches.next fullOps PAGE_SIZE 1 soleInode) (.fresh Unit 1 []) closedRun).free ≠ 1) := by
  constructor
  · have hnone : ∀ i, ((run (Caches.next CacheOp.plainOps PAGE_SIZE 1 soleInode)
        (.fresh Unit 1 []) lostRun).cache i).isSome = false := fun i => by cases i; rfl
    have hzero : (run (Caches.next CacheOp.plainOps PAGE_SIZE 1 soleInode)
        (.fresh Unit 1 []) lostRun).holding = 0 := by simp [Caches.holding, hnone]
    rw [hzero]
    decide
  · refine ⟨fun i c hc => ?_, by decide +kernel⟩
    cases i
    exact (Option.some.inj hc) ▸ rfl

end Shfs
