import Shfs.Notify
import Shfs.Transparency

/-!
# Truncation behind the back of the file cache

`shfs_notify_change` cuts the remote file and the pages of the kernel, but not the buffer of the
inode. Next to a plain file, where the same writes and truncations happen in the same order, this is
right only while the truncation does not concern what the buffer holds (`FCache.Survives`): dirty
octets have to end in front of the new size, and octets read ahead have to be zero behind it.

The run theorem is that of the file cache, with truncations added; its condition on reads is still
needed, and no offset may wrap around (`CacheOp.Unwrapped`): a write that reaches 2^32 goes on at 0.
-/

namespace Shfs

open Lib

variable {σ : Type}

/-- A file cut or filled up with zeros to `n` octets. -/
abbrev resize (file : Bytes) (n : ℕ) : Bytes := fetch file 0 n

/-- Attribute commands on the same remote file: a truncation succeeds and sets the size, the others
leave the contents alone. -/
structure Aops.Plain (aops : Aops σ) (contents : σ → Bytes) : Prop where
  trunc : ∀ name size s, ∃ n, (aops.trunc name size s).result = .ok n
  trunc_remote : ∀ name size s,
    contents (aops.trunc name size s).remote = resize (contents s) size.toNat
  chmod : ∀ name mode s, contents (aops.chmod name mode s).remote = contents s
  chown : ∀ name user s, contents (aops.chown name user s).remote = contents s
  chgrp : ∀ name group s, contents (aops.chgrp name group s).remote = contents s
  settime : ∀ name which sec s, contents (aops.settime name which sec s).remote = contents s

theorem resize_resize (file : Bytes) (n : ℕ) : resize (resize file n) n = resize file n := by
  have := fetch_all (resize file n)
  rwa [length_fetch] at this

/-! ## The handler -/

section Handler

variable {aops : Aops σ} {contents : σ → Bytes} (haops : aops.Plain contents) {info : MountOpts}
  {verdicts : Verdicts} {attr : Iattr}

include haops

variable (attr) in
theorem AttrCmd.op_contents (a : AttrCmd) (name : Bytes) (s : σ) :
    contents (a.op aops attr name s).remote =
      if a = .trunc then resize (contents s) attr.size.toNat else contents s := by
  cases a with
  | trunc => exact haops.trunc_remote ..
  | chmod => exact haops.chmod ..
  | chown => exact haops.chown ..
  | chgrp => exact haops.chgrp ..
  | settime which => cases which <;> exact haops.settime ..

theorem Change.step_contents {v : Change σ} {a : AttrCmd} {n : ℕ}
    (h : (Change.step aops info verdicts attr v a).result = .ok n) :
    contents (Change.step aops info verdicts attr v a).remote =
      if a = .trunc then resize (contents v.remote) attr.size.toNat else contents v.remote := by
  rw [← AttrCmd.op_contents haops attr a v.name v.remote]
  unfold Change.step at h ⊢
  split at h
  · next e he =>
    rw [he] at h
    cases h
  · next hok =>
    dsimp only
    split
    · rfl
    · split <;> rfl

/-- When all commands have succeeded, the file has the size asked for, if any. -/
theorem Change.foldl_contents {l : List AttrCmd} {v : Change σ} {n : ℕ}
    (h : (l.foldl (Change.step aops info verdicts attr) v).result = .ok n) :
    contents (l.foldl (Change.step aops info verdicts attr) v).remote =
      if .trunc ∈ l then resize (contents v.remote) attr.size.toNat else contents v.remote := by
  induction l generalizing v with
  | nil => simp
  | cons a l ih =>
    rw [List.foldl_cons] at h ⊢
    -- had the first command failed, the whole list would have
    have hstep : ∃ m, (Change.step aops info verdicts attr v a).result = .ok m := by
      cases hres : (Change.step aops info verdicts attr v a).result with
      | ok m => exact ⟨m, rfl⟩
      | error e =>
        rw [Change.foldl_failed hres, hres] at h
        cases h
    obtain ⟨m, hm⟩ := hstep
    rw [ih h, Change.step_contents haops hm]
    by_cases ha : a = .trunc <;> by_cases hl : AttrCmd.trunc ∈ l <;>
      simp [ha, hl, Ne.symm, resize_resize]

end Handler

theorem Iattr.trunc_mem_asks (attr : Iattr) : AttrCmd.trunc ∈ attr.asks ↔
    attr.valid.size = true := by
  have hone : ∀ (b : Bool) (a : AttrCmd), AttrCmd.trunc ∈ (if b then [a] else []) ↔
      b = true ∧ .trunc = a := by
    intro b a
    cases b <;> simp
  unfold Iattr.asks
  simp only [List.mem_append, hone, reduceCtorEq, and_false, false_or, and_true, or_false]
  split
  · simp
  · simp only [List.mem_append, hone, reduceCtorEq, and_false, or_self, or_false]

/-! ## The buffer -/

/-- A truncation to `n` octets is not noticed behind this buffer: what is dirty ends in front of
the new size, and what was read ahead has only zeros behind it. -/
def FCache.Survives (n : ℕ) (c : FCache) : Prop :=
  match c.type with
  | .read => ∀ b ∈ c.held.drop (n - c.offset), b = 0
  | .write => c.count = 0 ∨ c.offset + c.count ≤ n

instance (n : ℕ) (c : FCache) : Decidable (c.Survives n) := by
  unfold FCache.Survives
  split
  · exact List.decidableBAll _ _
  · infer_instance

/-- Dirty octets inside the new size end up in the file in either order. -/
theorem resize_store (file : Bytes) {off n : ℕ} {d : Bytes} (h : d = [] ∨ off + d.length ≤ n) :
    resize (store file off d) n = store (resize file n) off d := by
  by_cases hd : d = []
  · rw [hd, store_nil, store_nil]
  have hle := h.resolve_left hd
  refine image_ext ?_ fun i hi => ?_
  · rw [length_store hd, length_fetch, length_fetch]
    omega
  · rw [length_fetch] at hi
    simp only [getD_fetch, getD_store, Nat.zero_add, if_pos hi]

/-- Zeros behind the new size are what a fetch returns there. -/
theorem fetch_resize {file : Bytes} {off count n : ℕ}
    (h : ∀ b ∈ (fetch file off count).drop (n - off), b = 0) :
    fetch (resize file n) off count = fetch file off count := by
  refine image_ext (by rw [length_fetch, length_fetch]) fun i hi => ?_
  rw [length_fetch] at hi
  rw [getD_fetch, getD_fetch, getD_fetch, if_pos hi, if_pos hi, Nat.zero_add]
  split
  · rfl
  · next hn =>
    have hmem : (fetch file off count).getD i 0 ∈ (fetch file off count).drop (n - off) := by
      have hlen : i < (fetch file off count).length := by rwa [length_fetch]
      rw [List.getD_eq_getElem _ _ hlen, List.mem_drop_iff_getElem]
      refine ⟨i - (n - off), by omega, ?_⟩
      congr 1
      omega
    have := h _ hmem
    rw [getD_fetch, if_pos hi] at this
    exact this.symm

theorem FCache.Mirrors.resize {size n : ℕ} {far file : Bytes} {c : FCache}
    (h : c.Mirrors size far file) (hc : c.Survives n) :
    c.Mirrors size (resize far n) (resize file n) := by
  unfold FCache.Survives at hc
  refine ⟨h.room, fun ht => ?_, fun ht => ?_⟩
  · obtain ⟨rfl, hahead⟩ := h.clean ht
    rw [ht] at hc
    refine ⟨rfl, fun hz => ?_⟩
    obtain ⟨hoff, hcount, hheld⟩ := hahead hz
    rw [hheld] at hc
    exact ⟨hoff, hcount, hheld.trans (fetch_resize hc).symm⟩
  · rw [ht] at hc
    rw [h.dirty ht]
    refine resize_store far ?_
    rw [c.length_held]
    refine hc.imp_left fun hz => ?_
    rw [FCache.held, hz, fetch_zero]

/-! ## Runs -/

/-- A call on the inode: one of the file cache, or a `setattr`, with the verdicts of the kernel. A
`setattr` may truncate the remote file, and leaves the buffer as it is. -/
inductive SizeOp : Type where
  | cache (op : CacheOp)
  | setattr (d : Dentry) (stack : Bytes) (info : MountOpts) (verdicts : Verdicts) (attr : Iattr)
    (inode : Stat)

namespace SizeOp

variable (ops : Fops σ) (aops : Aops σ) (size fuel : ℕ)

/-- The call. -/
def call (s : Slot σ) : SizeOp → Option (Answer × Slot σ)
  | cache op => op.call ops size fuel s
  | setattr d stack info verdicts attr inode =>
    let (r, _, remote) := shfsNotifyChange aops info verdicts d stack attr inode s.remote
    some (.status r, { s with remote := remote })

/-- The plain file after the call. -/
def plain (file : Bytes) : SizeOp → Bytes
  | cache op => op.plain file
  | setattr _ _ _ _ attr _ => if attr.valid.size then resize file attr.size.toNat else file

/-- The call returns, and is right. A `setattr` has nothing to return of the contents, and what it
has done shows in the calls behind it. -/
def Transparent (contents : σ → Bytes) (s : Slot σ × Bytes) : SizeOp → Prop
  | cache op => op.Transparent ops size fuel contents s
  | setattr .. => True

/-- The state after the call, with the plain file beside it. -/
def next (s : Slot σ × Bytes) (op : SizeOp) : Slot σ × Bytes :=
  (((op.call ops aops size fuel s.1).map Prod.snd).getD s.1, op.plain s.2)

/-- A `setattr` succeeds. One that fails may have truncated the remote file without the inode
knowing of it. -/
def Succeeds (s : Slot σ) : SizeOp → Prop
  | cache _ => True
  | setattr d stack info verdicts attr inode =>
    (shfsNotifyChange aops info verdicts d stack attr inode s.remote).1 matches .ok _

/-- No offset wraps around, a read refills the buffer at the right place, and a truncation does not
concern it. -/
def Fits (s : Slot σ) : SizeOp → Prop
  | cache op => op.Unwrapped size ∧ op.Refills size s
  | setattr _ _ _ _ attr _ => attr.valid.size = true → ∀ c ∈ s.cache, c.Survives attr.size.toNat

/-- The rounds the loops of the call may take. -/
def rounds : SizeOp → ℕ
  | cache op => op.rounds
  | setattr .. => 0

variable {ops aops size fuel} {contents : σ → Bytes}

/-- A `setattr` that succeeds resizes the remote file, if that is asked for. -/
theorem shfsNotifyChange_contents (haops : aops.Plain contents) {info : MountOpts}
    {verdicts : Verdicts} {d : Dentry} {stack : Bytes} {attr : Iattr} {inode : Stat} {s : σ} {n : ℕ}
    (h : (shfsNotifyChange aops info verdicts d stack attr inode s).1 = .ok n) :
    contents (shfsNotifyChange aops info verdicts d stack attr inode s).2.2 =
      if attr.valid.size then resize (contents s) attr.size.toNat else contents s := by
  rw [shfsNotifyChange_eq] at h ⊢
  cases hc : verdicts.change with
  | error e =>
    rw [hc] at h
    cases h
  | ok u =>
    rw [hc] at h
    dsimp only at h ⊢
    by_cases hro : info.readonly = true
    · rw [if_pos hro] at h
      cases h
    · rw [if_neg hro] at h ⊢
      rw [Change.foldl_contents haops h]
      simp only [attr.trunc_mem_asks]

/-- **A call** on a mirrored inode is right, and leaves it mirrored. This is the step of
`transparent_of_fits`. -/
theorem call_mirrors (hops : ops.Plain contents) (haops : aops.Plain contents)
    (hsize : PAGE_SIZE ∣ size) (hpos : 0 < size) {s : Slot σ} {file : Bytes} {op : SizeOp}
    (hs : s.Mirrors contents size file) (hfuel : op.rounds ≤ fuel) (hok : op.Succeeds aops s)
    (hfits : op.Fits size s) :
    op.Transparent ops size fuel contents (s, file) ∧
      (op.next ops aops size fuel (s, file)).1.Mirrors contents size (op.plain file) := by
  cases op with
  | cache op =>
    obtain ⟨answer, s', hcall, hright, hs'⟩ :=
      op.call_mirrors hops hsize hpos hs hfuel hfits.1 hfits.2
    refine ⟨⟨answer, s', hcall, hright⟩, ?_⟩
    simp only [next, call, hcall, Option.map_some, Option.getD_some]
    exact hs'
  | setattr d stack info verdicts attr inode =>
    refine ⟨trivial, ?_⟩
    obtain ⟨n, hn⟩ : ∃ n, (shfsNotifyChange aops info verdicts d stack attr inode s.remote).1 =
        .ok n := by
      unfold Succeeds at hok
      dsimp only at hok
      cases hres : (shfsNotifyChange aops info verdicts d stack attr inode s.remote).1 with
      | error e =>
        rw [hres] at hok
        cases hok
      | ok n => exact ⟨n, rfl⟩
    have hremote := shfsNotifyChange_contents haops hn
    simp only [next, call, Option.map_some, Option.getD_some, plain]
    unfold Slot.Mirrors at hs ⊢
    cases hcache : s.cache with
    | none =>
      simp only [hcache] at hs ⊢
      rw [hremote, hs]
    | some c =>
      simp only [hcache] at hs ⊢
      rw [hremote]
      split
      · next hsz => exact hs.resize (hfits hsz c hcache)
      · exact hs

/-- **Truncations and the file cache**: in every run whose offsets do not wrap around, whose
reads refill the buffer at the right place and whose truncations do not concern it, the calls return
what a plain file would after the same writes and truncations, and a sync leaves it on the remote
side. -/
theorem transparent_of_fits (hops : ops.Plain contents) (haops : aops.Plain contents) (j : ℕ)
    {s : Slot σ} (hs : s.cache = none) {run : List SizeOp} (hfuel : ∀ op ∈ run, op.rounds ≤ fuel)
    (hok : Along (next ops aops (2 ^ j * PAGE_SIZE) fuel) (fun x op => op.Succeeds aops x.1)
      (s, contents s.remote) run)
    (hfits : Along (next ops aops (2 ^ j * PAGE_SIZE) fuel)
      (fun x op => op.Fits (2 ^ j * PAGE_SIZE) x.1) (s, contents s.remote) run) :
    Along (next ops aops (2 ^ j * PAGE_SIZE) fuel)
      (Transparent ops (2 ^ j * PAGE_SIZE) fuel contents) (s, contents s.remote) run := by
  have hstart : s.Mirrors contents (2 ^ j * PAGE_SIZE) (contents s.remote) := by
    simp only [Slot.Mirrors, hs]
  refine Along.of_guarded (fun x => x.1.Mirrors contents (2 ^ j * PAGE_SIZE) x.2)
    (fun x op hx hq => ?_) hstart ((hok.and hfits).and_mem hfuel)
  obtain ⟨⟨hok, hfits⟩, hfuel⟩ := hq
  exact call_mirrors hops haops (Dvd.intro_left _ rfl) (by positivity) hx hfuel hok hfits

/-! ### An example -/

instance (s : Slot σ) (op : SizeOp) : Decidable (op.Succeeds aops s) :=
  match op with
  | cache _ => isTrue trivial
  | setattr .. => inferInstanceAs (Decidable (_ = true))

instance (s : Slot σ) (op : SizeOp) : Decidable (op.Fits size s) :=
  match op with
  | cache op => inferInstanceAs (Decidable (op.Unwrapped size ∧ op.Refills size s))
  | setattr .. => inferInstanceAs (Decidable (_ = true → ∀ c ∈ _, _))

/-- A remote file as its contents. -/
def plainAops : Aops Bytes where
  chmod name _ s := ⟨.ok 0, name, s⟩
  chown name _ s := ⟨.ok 0, name, s⟩
  chgrp name _ s := ⟨.ok 0, name, s⟩
  trunc name size s := ⟨.ok 0, name, resize s size.toNat⟩
  settime name _ _ s := ⟨.ok 0, name, s⟩

theorem plainAops_plain : plainAops.Plain id where
  trunc _ _ _ := ⟨0, rfl⟩
  trunc_remote _ _ _ := rfl
  chmod _ _ _ := rfl
  chown _ _ _ := rfl
  chgrp _ _ _ := rfl
  settime _ _ _ _ := rfl

/-- A `setattr` that sets the size and nothing else. -/
def setSize (size : UInt64) : SizeOp :=
  .setattr (.child .root (ascii "a")) [] ⟨false, false, 0, 0⟩ ⟨.ok (), .ok ()⟩
    ⟨⟨false, false, false, true, false, false⟩, 0, 0, 0, size, ⟨0, 0⟩, ⟨0, 0⟩⟩
    ⟨0, 0, 0, 0, ⟨0, 0⟩, ⟨0, 0⟩⟩

/-- Two octets are written, the file is set to so many octets, and synced. -/
def cutRun (size : UInt64) : List SizeOp :=
  [.cache (.write CacheOp.openA CacheOp.plenty 0 [65, 66]), setSize size,
    .cache (.sync CacheOp.openA)]

theorem cutRun_transparent :
    Along (next CacheOp.plainOps plainAops (2 ^ 0 * PAGE_SIZE) 2)
      (Transparent CacheOp.plainOps (2 ^ 0 * PAGE_SIZE) 2 id) (CacheOp.fresh, []) (cutRun 4) :=
  transparent_of_fits CacheOp.plainOps_plain plainAops_plain 0 rfl (by decide) (by decide +kernel)
    (by decide +kernel)

/-- A truncation to nothing, while both octets are dirty: the sync brings them back. -/
theorem not_transparent_cut :
    ¬ Along (next CacheOp.plainOps plainAops (2 ^ 0 * PAGE_SIZE) 2)
      (Transparent CacheOp.plainOps (2 ^ 0 * PAGE_SIZE) 2 id) (CacheOp.fresh, []) (cutRun 0) := by
  rintro ⟨-, -, ⟨answer, s', hcall, hright⟩, -⟩
  have h := congrArg (Option.map fun x => x.2.remote) hcall
  rw [Option.map_some] at h
  change _ = some s'.remote at h
  rw [show s'.remote = _ from hright] at h
  revert h
  decide +kernel

end SizeOp

end Shfs
