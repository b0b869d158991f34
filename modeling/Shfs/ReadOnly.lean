import Shfs.Mounted

/-!
# Read-only mounts

Every function that changes names asks for `info->readonly` first, and so do `shfs_notify_change`
and an open for writing. Two functions do not ask: `fcache_file_sync` writes what is dirty, and
`shfs_file_release` takes a permission back that `shfs_create` has forced. `readOnly` is the
invariant that leaves them nothing to do: no buffer of a read-only mount is dirty, and no inode has
the note.
-/

namespace Shfs

open Lib

/-- The commands that change something. -/
def changing : List Bytes :=
  [ascii "s_write", ascii "s_mkdir", ascii "s_rmdir", ascii "s_mv", ascii "s_rm", ascii "s_creat",
    ascii "s_ln", ascii "s_sln", ascii "s_chmod", ascii "s_chown", ascii "s_chgrp", ascii "s_trunc",
    ascii "s_settime"]

theorem notMem_changing_of_asking : ∀ name ∈ asking, name ∉ changing := by decide

/-- No note, no dirty buffer, and no command that changes something. -/
def readOnly : Invariant where
  inode v := v.unsetWriteOnClose = false
  cache c := ∀ x ∈ c, x.type = .read
  cmd c := c.cmd ∉ changing
  inode_cache _ _ h := h
  inode_bad _ h := h
  cache_none := nofun
  cache_clear := by
    rintro c h _ ⟨⟩
    exact h c rfl
  cmd_asking c h := notMem_changing_of_asking c.cmd h

section Cache

variable {τ : Type} {sb : SuperBlock τ} {s : Slot (Far τ)}

theorem alloc_readOnly (h : readOnly.OfSlot s) (mem : Memory) : readOnly.OfSlot (s.alloc mem) := by
  refine ⟨?_, (congrArg (fun far : Far τ => ∀ c ∈ far.cmds, readOnly.cmd c)
    (s.alloc_remote mem)).mpr h.cmds⟩
  obtain hc | ⟨-, data, hc⟩ := s.alloc_cases mem
  · rw [hc]
    exact h.cache
  · rw [hc]
    rintro _ ⟨⟩
    rfl

/-- A buffer that is not dirty is not written. -/
theorem fcacheFileSync_readOnly (h : readOnly.OfSlot s) (f : File) :
    (fcacheFileSync sb.fops f s).2 = s := by
  unfold fcacheFileSync
  cases f.check with
  | error e => rfl
  | ok ino =>
    cases hc : s.cache with
    | none => rfl
    | some c =>
      have htype : c.type = .read := h.cache c hc
      dsimp only
      rw [if_neg fun hdirty => by rw [htype] at hdirty; exact absurd hdirty.2 nofun]

theorem FCache.meet_type (c : FCache) (offset : ℕ) : (c.meet offset).type = c.type := by
  unfold FCache.meet
  split <;> rfl

theorem FCache.makeRoom_type (c : FCache) (size offset ahead : ℕ) :
    (c.makeRoom size offset ahead).type = c.type := by
  unfold FCache.makeRoom
  split <;> rfl

/-- A round of a read changes the octets of the buffer, and not its type. -/
theorem Reading.fill_type {σ : Type} (ops : Fops σ) (size : ℕ) (v : Reading σ) :
    Sum.elim (fun b => b.2.cache.type = v.cache.type) (fun v' => v'.cache.type = v.cache.type)
      (v.fill ops size) := by
  have htype : ∀ ahead, ((v.cache.meet v.offset).makeRoom size v.offset ahead).type =
      v.cache.type := fun ahead => (FCache.makeRoom_type ..).trans (v.cache.meet_type v.offset)
  unfold Reading.fill
  dsimp only
  split
  · exact htype _
  · exact htype _

/-- What a read keeps of the buffer and the commands. -/
def Reading.Clean (v : Reading (Far τ)) : Prop :=
  v.cache.type = .read ∧ ∀ c ∈ v.remote.cmds, readOnly.cmd c

theorem Reading.fill_clean {v : Reading (Far τ)} {size : ℕ} (hv : v.Clean) :
    Sum.elim (fun b => b.2.Clean) Reading.Clean (v.fill sb.fops size) := by
  have hreq : ∀ c ∈ (v.request sb.fops size).remote.cmds, readOnly.cmd c :=
    fops_read_cmds hv.2 _ _ _ _
  have hcmds := Reading.fill_of_request (P := fun far : Far τ => ∀ c ∈ far.cmds,
    readOnly.cmd c) hreq
  have htype := v.fill_type sb.fops size
  cases hfill : v.fill sb.fops size with
  | inl b =>
    rw [hfill] at hcmds htype
    exact ⟨htype.trans hv.1, hcmds⟩
  | inr v' =>
    rw [hfill] at hcmds htype
    exact ⟨htype.trans hv.1, hcmds⟩

theorem fcacheFileRead_readOnly (h : readOnly.OfSlot s) {fuel : ℕ} {mem : Memory} {f : File}
    {offset count : ℕ} {r : Except Errno Bytes × Slot (Far τ)}
    (hr : fcacheFileRead sb.fops sb.fcacheSize fuel mem f offset count s = some r) :
    readOnly.OfSlot r.2 := by
  have halloc := alloc_readOnly h mem
  obtain ⟨e, hcheck, rfl⟩ | ⟨ino, hcheck, ⟨hc, q, rfl, rfl⟩ | ⟨c, out, hc, hout, rfl⟩⟩ :=
    fcacheFileRead_cases hr
  · exact h
  · exact ⟨halloc.cache, fops_read_cmds halloc.cmds _ _ _ _⟩
  · have htype : c.type = .read := halloc.cache c hc
    set v : Reading (Far τ) := (⟨(getName f.dentry f.stack).2, offset, count, [], c,
      (s.alloc mem).remote⟩ : Reading (Far τ)).hit with hv
    have hclean : v.Clean := by
      refine ⟨?_, ?_⟩
      · rw [hv, Reading.hit_cache]
        exact htype
      · rw [hv, (Reading.hit_name _).2]
        exact halloc.cmds
    have hflush : v.flush sb.fops ino = v :=
      if_neg fun hdirty => by
        rw [hclean.1] at hdirty
        exact absurd hdirty.2 nofun
    rw [hflush] at hout
    have hrule := loop_rule Reading.Clean (fun b : Errno × Reading (Far τ) => b.2.Clean)
      (fun v hv _ => Reading.fill_clean hv) hclean hout
    have hslot : ∀ v : Reading (Far τ), v.Clean →
        readOnly.OfSlot { s.alloc mem with cache := some v.cache, remote := v.remote } := by
      rintro v ⟨hread, hcmds⟩
      refine ⟨?_, hcmds⟩
      rintro _ ⟨⟩
      exact hread
    cases out with
    | inl b => exact hslot _ hrule
    | inr v' => exact hslot _ hrule.1

/-- **The file cache** never has anything to write. -/
theorem readOnly_keptByCache : readOnly.KeptByCache sb where
  openFile mem f s h := by
    unfold fcacheFileOpen
    split
    · exact h
    · exact alloc_readOnly h mem
  sync f s h := by
    rw [fcacheFileSync_readOnly h f]
    exact h
  close f s h := by
    have hsync : (fcacheFileSync sb.fops f s).2 = s := fcacheFileSync_readOnly h f
    unfold fcacheFileClose
    rcases hr : fcacheFileSync sb.fops f s with ⟨e | u, s'⟩
    · rw [hr] at hsync
      exact hsync ▸ h
    · rw [hr] at hsync
      obtain rfl : s' = s := hsync
      dsimp only
      split
      · exact h
      · exact ⟨nofun, h.cmds⟩
  read _ _ _ _ _ _ _ h hr := fcacheFileRead_readOnly h hr

end Cache

section Run

variable {τ : Type} {sb : SuperBlock τ}

/-- Every operation of a read-only mount is admitted. -/
theorem VfsOp.admitted_readOnly (hro : sb.info.readonly = true) (w : World τ) (op : VfsOp) :
    op.Admitted readOnly sb w where
  refreshes _ _ _ _ _ _ hv _ _ _ _ := hv
  builds _ _ _ _ _ := rfl
  fills := by
    refine VfsOp.lists_of_entry (fun buf shown fattr _ w target => ?_) w op
    cases target with
    | existing i => exact fun v _ hv => hv
    | new new => rfl
    | nowhere => trivial
  note _ _ _ _ _ _ hopen := absurd (hopen.symm.trans hro) nofun
  change _ _ _ _ _ _ _ _ hv := hv
  unset _ hnote hset := absurd (hset.symm.trans hnote) nofun

/-- **A read-only mount** never sends a command that changes something, whatever is done with it and
whatever the server answers. What does not ask for the option before it sends a command, a sync and
a release, has nothing to send: no buffer is dirty, and no inode has the note. -/
theorem readonly_sends_no_change (host : Host τ) (clock : Clock) (now : UInt64) (server : τ)
    (opts : Bytes) (uid gid : UInt32) (hro : (optionsOf opts uid gid).readonly = true) {fuel : ℕ}
    (hfuel : PAGE_SIZE ≤ fuel) (ops : List VfsOp) :
    let info := optionsOf opts uid gid
    ∃ w, VfsOp.reached (info.superBlock host clock) fuel (info.mounted host clock now server) ops =
        some w ∧ ∀ c ∈ w.far.cmds, c.cmd ∉ changing := by
  intro info
  obtain ⟨w, hw⟩ := VfsOp.reached_total (info.superBlock host clock)
    (dvd_fcacheSize opts uid gid) hfuel (info.mounted host clock now server) ops
  refine ⟨w, hw, ?_⟩
  have hheld : readOnly.Holds w := by
    refine VfsOp.reached_holds (fun _ _ => True) ?_ readOnly_keptByCache
      (fun w op _ _ => op.admitted_readOnly hro w) (mounted_holds rfl) ?_ (List.prefix_refl ops) hw
    · intro hopen
      exact absurd (hopen.symm.trans hro) nofun
    · exact along_iff.mpr fun _ _ _ _ _ _ => trivial
  exact hheld.cmds

end Run

/-- With the option `ro`, a directory is made, a file is opened and closed, and a link is
removed. -/
theorem readonly_ro :
    let info := optionsOf (ascii "ro") 0 0
    ∃ w, VfsOp.reached (info.superBlock deafHost stillClock) PAGE_SIZE
        (info.mounted deafHost stillClock 0 ())
        [.mkdir nodeA.dentry [] blankFrame ⟨7, true⟩, .open nodeA [] .rdonly ⟨true, none⟩,
          .release nodeA [] [], .unlink nodeA.dentry []] = some w ∧
      ∀ c ∈ w.far.cmds, c.cmd ∉ changing :=
  readonly_sends_no_change deafHost stillClock 0 () (ascii "ro") 0 0 (by decide) (Nat.le_refl _) _

end Shfs
