import Shfs.Mirror
import Shfs.PathBuffers
import Shfs.Lib.Mutex

/-!
# The discipline of the mutex

`info->shfs_mutex` does not nest. Every function that sends a command takes it (`sock_lock`), and so
do `shfs_revalidate_inode`, `shfs_d_revalidate`, `shfs_file_readpage`, `shfs_slow_read` and the
flushes around their work. Here the operations run on a thread with that mutex
(`SuperBlock.threaded`): a command is a critical section, and `mutex_lock` and `mutex_unlock` are
those of `Lib.Guarded`.

Four functions do work under the mutex that takes it again: a revalidation that asks the server, a
page or a slow read that needs a command, and the revalidation of an old dentry.
`VfsOp.free_iff` says when an operation gets by without that.
-/

namespace Shfs

open Lib

/-! ## The thread -/

/-- The server behind the mutex, for one thread: `sock_lock` may be interrupted, and gets the thread
stuck when it has the mutex already. `mutexLock` and `mutexUnlock` are those of the operations. -/
def Host.threaded {τ : Type} (h : Host τ) : Host (Guarded τ) where
  data c := Guarded.critical (h.data c) (.error .eintr)
  status c := Guarded.critical (h.status c) (.error .eintr)
  listing c := Guarded.critical (h.listing c) (.error .eintr)
  link c := Guarded.critical (h.link c) ⟨none, .error .eintr⟩
  mutexLock := Guarded.lock
  mutexUnlock := Guarded.unlock

/-- A mount whose operations run on a thread. It is the same mount on a server that keeps a record
of the mutex. -/
def SuperBlock.threaded {τ : Type} (sb : SuperBlock τ) : SuperBlock (Guarded τ) :=
  ⟨sb.host.threaded, sb.info, sb.fmask, sb.fcacheSize, sb.clock⟩

section Commands

variable {τ : Type} {P : Guarded τ → Prop} {sb : SuperBlock τ}

/-- A property that critical sections keep. -/
def Kept (P : Guarded τ → Prop) : Prop :=
  ∀ {ρ : Type} (step : τ → ρ × τ) (interrupted : ρ) (t : Guarded τ), P t →
    P (Guarded.critical step interrupted t).2

theorem kept_free : Kept (Guarded.Free (σ := τ)) := fun _ _ _ h => Guarded.critical_free h

theorem kept_stuck : Kept (Guarded.Stuck (σ := τ)) := fun _ _ _ h => Guarded.critical_stuck h

/-- A command is a critical section, or is refused. -/
theorem issue_keeps {ρ : Type} {answer : Cmd → Guarded τ → Except Errno ρ × Guarded τ}
    {b : Bytes → Option Cmd} {name : Bytes} {s : Far (Guarded τ)}
    (hanswer : ∀ c, P (answer c s.server).2) (hs : P s.server) :
    P (issue answer b name s).remote.server := by
  unfold issue
  split
  · exact hs
  · exact hanswer _

theorem World.send_keeps {ρ : Type} {answer : Cmd → Guarded τ → Except Errno ρ × Guarded τ}
    {b : Bytes → Option Cmd} {name : Bytes} {w : World (Guarded τ)}
    (hanswer : ∀ c, P (answer c w.far.server).2) (hw : P w.far.server) :
    P (w.send answer b name).2.far.server :=
  issue_keeps hanswer hw

variable (hP : Kept P)
include hP

theorem keeps_status {b : Bytes → Option Cmd} {name : Bytes} {w : World (Guarded τ)}
    (hw : P w.far.server) : P (w.send sb.threaded.host.status b name).2.far.server :=
  World.send_keeps (fun _ => hP _ _ _ hw) hw

theorem keeps_stat {name : Bytes} {fattr : Fattr} {w : World (Guarded τ)} (hw : P w.far.server) :
    P (shellStat sb.threaded name fattr w).2.far.server :=
  World.send_keeps (fun _ => hP _ _ _ hw) hw

theorem keeps_fops : sb.threaded.fops.Keeps fun far => P far.server where
  read _ _ _ _ _ hs := issue_keeps (fun _ => hP _ _ _ hs) hs
  write _ _ _ _ _ hs := issue_keeps (fun _ => hP _ _ _ hs) hs

theorem keeps_aops : (shellAops sb.threaded.host.toRemote).Keeps fun far => P far.server := by
  intro attr a name s hs
  have hissue : ∀ b, P (issue sb.threaded.host.status b name s).remote.server :=
    fun _ => issue_keeps (fun _ => hP _ _ _ hs) hs
  match a with
  | .chmod => exact hissue (shellChmod · attr.mode)
  | .chown => exact hissue (shellChown · attr.uid)
  | .chgrp => exact hissue (shellChgrp · attr.gid)
  | .trunc => exact hissue (shellTrunc · attr.size)
  | .settime .both => exact hissue (shellSettime · .both attr.atime.sec)
  | .settime .atime => exact hissue (shellSettime · .atime attr.atime.sec)
  | .settime .mtime => exact hissue (shellSettime · .mtime attr.mtime.sec)

theorem shfsRefreshInode_keeps {n : Node} {frame : Frame} {w : World (Guarded τ)}
    (hw : P w.far.server) : P (shfsRefreshInode sb.threaded n frame w).2.far.server := by
  unfold shfsRefreshInode
  split
  · exact hw
  · split
    · exact hw
    · rw [World.named_eq]
      refine World.ifOk_keeps (P := fun w => P w.far.server) (keeps_stat hP hw) fun fattr w hw => ?_
      split
      · exact hw
      · split <;> exact hw

theorem shfsInstantiate_keeps {d : Dentry} {frame : Frame} {new : NewInode}
    {w : World (Guarded τ)} (hw : P w.far.server) :
    P (shfsInstantiate sb.threaded d frame new w).2.far.server := by
  unfold shfsInstantiate
  rw [World.named_eq]
  refine World.ifOk_keeps (P := fun w => P w.far.server) (keeps_stat hP hw) fun fattr w hw => ?_
  have higet : (shfsIget sb.threaded new.ino new.memory fattr w).2.far = w.far := shfsIget_far ..
  split
  · next heq =>
    rw [heq] at higet
    exact (congrArg (fun far => P far.server) higet).mpr hw
  · next heq =>
    rw [heq] at higet
    exact (congrArg (fun far => P far.server) higet).mpr hw

end Commands

/-! ## Operations that are free throughout -/

/-- The thread does not hold the mutex. -/
abbrev World.Free {τ : Type} (w : World (Guarded τ)) : Prop := w.far.server.Free

section Free

variable {τ : Type} {sb : SuperBlock τ} {w : World (Guarded τ)}

theorem World.Free.status (sb : SuperBlock τ) (hw : w.Free) (b : Bytes → Option Cmd)
    (name : Bytes) :
    (w.send sb.threaded.host.status b name).2.Free := keeps_status kept_free hw

theorem World.Free.instantiate (hw : w.Free) (d : Dentry) (frame : Frame) (new : NewInode) :
    (shfsInstantiate sb.threaded d frame new w).2.Free := shfsInstantiate_keeps kept_free hw

/-- Taken and given back. -/
theorem World.Free.pair (hw : w.Free) : ((w.lock sb.threaded).unlock sb.threaded).Free :=
  Guarded.unlock_held (Guarded.lock_free hw)

theorem shfsLookup_free (hw : w.Free) (d : Dentry) (frame : Frame) (new : NewInode) :
    (shfsLookup sb.threaded d frame new w).2.Free := by
  unfold shfsLookup
  rw [World.named_eq]
  have hstat : (shellStat sb.threaded (getName d frame.name).2 frame.fattr w).2.Free :=
    keeps_stat kept_free hw
  rcases h : shellStat sb.threaded (getName d frame.name).2 frame.fattr w with ⟨result, w'⟩
  rw [h] at hstat
  split
  · next heq => exact (Prod.mk.inj heq).2 ▸ hstat
  · next heq => exact (Prod.mk.inj heq).2 ▸ hstat
  · next fattr w'' heq =>
    obtain ⟨-, rfl⟩ := Prod.mk.inj heq
    refine (congrArg (fun far : Far (Guarded τ) => far.server.Free) ?_).mpr hstat
    exact shfsIget_far ..

theorem shfsMkdir_free (hw : w.Free) (d : Dentry) (stack : Bytes) (frame : Frame) (new : NewInode) :
    (shfsMkdir sb.threaded d stack frame new w).2.Free := by
  unfold shfsMkdir
  split
  · exact hw
  · rw [World.named_eq]
    refine World.ifOk_keeps (P := World.Free) (hw.status sb _ _) fun _ w hw => ?_
    exact World.ifOk_keeps (hw.instantiate ..) fun _ w hw => hw

theorem shfsCreate_free (hw : w.Free) (d : Dentry) (stack : Bytes) (mode : UInt16) (frame : Frame)
    (new : NewInode) : (shfsCreate sb.threaded d stack mode frame new w).2.Free := by
  unfold shfsCreate
  split
  · exact hw
  · rw [World.named_eq]
    refine World.ifOk_keeps (P := World.Free) (hw.status sb _ _) fun _ w hw => ?_
    refine World.ifOk_keeps (hw.instantiate ..) fun i w hw => ?_
    split <;> exact hw

theorem shfsRmdir_free (hw : w.Free) (d : Dentry) (unhashed : Bool) (stack : Bytes) :
    (shfsRmdir sb.threaded d unhashed stack w).2.Free := by
  unfold shfsRmdir
  split
  · exact hw
  · split
    · exact hw
    · rw [World.named_eq]
      exact hw.status sb _ _

theorem shfsRename_free (hw : w.Free) (old new : Dentry) (oldStack newStack : Bytes) :
    (shfsRename sb.threaded old new oldStack newStack w).2.Free := by
  unfold shfsRename
  split
  · exact hw
  · rw [World.named_eq, World.named_eq]
    exact hw.status sb _ _

theorem shfsUnlink_free (hw : w.Free) (d : Dentry) (stack : Bytes) :
    (shfsUnlink sb.threaded d stack w).2.Free := by
  unfold shfsUnlink
  split
  · exact hw
  · rw [World.named_eq]
    exact hw.status sb _ _

theorem shfsLink_free (hw : w.Free) (old new : Dentry) (oldStack newStack : Bytes) (frame : Frame)
    (inode : NewInode) :
    (shfsLink sb.threaded old new oldStack newStack frame inode w).2.Free := by
  unfold shfsLink
  split
  · exact hw
  · rw [World.named_eq, World.named_eq]
    refine World.ifOk_keeps (P := World.Free) (hw.status sb _ _) fun _ w hw => ?_
    exact World.ifOk_keeps (hw.instantiate ..) fun _ w hw => hw

theorem shfsSymlink_free (hw : w.Free) (d : Dentry) (oldname stack : Bytes) (frame : Frame)
    (inode : NewInode) : (shfsSymlink sb.threaded d oldname stack frame inode w).2.Free := by
  unfold shfsSymlink
  split
  · exact hw
  · rw [World.named_eq]
    split
    · exact hw
    · refine World.ifOk_keeps (P := World.Free) (hw.status sb _ _) fun _ w hw => ?_
      exact World.ifOk_keeps (hw.instantiate ..) fun _ w hw => hw

theorem setattr_free (hw : w.Free) (verdicts : Verdicts) (n : Node) (stack : Bytes) (attr : Iattr) :
    (w.setattr sb.threaded verdicts n stack attr).2.Free := by
  unfold World.setattr
  split
  · exact hw
  · exact shfsNotifyChange_keeps (keeps_aops kept_free) hw

theorem shfsFileOpen_free (hw : w.Free) (n : Node) (stack : Bytes) (mode : AccMode) (mem : Memory) :
    (shfsFileOpen sb.threaded n stack mode mem w).2.Free := by
  unfold shfsFileOpen
  split
  · exact hw
  · dsimp only
    split
    · exact hw
    · refine World.ifOk_keeps (P := World.Free) (hw.status sb _ _) fun r w hw => ?_
      dsimp only
      split
      · refine (congrArg (fun far : Far (Guarded τ) => far.server.Free) ?_).mpr hw
        rw [World.putSlot_far, fcacheFileOpen_remote, World.slot_remote]
      · exact hw

theorem doFileFlush_free (hw : w.Free) (n : Node) (stack : Bytes) :
    (doFileFlush sb.threaded n stack w).2.Free := by
  unfold doFileFlush
  split
  · have hsync : ((w.putSlot n.inode (fcacheFileSync sb.threaded.fops (w.file n stack)
        (w.slot n.inode)).2)).Free := fcacheFileSync_keeps (keeps_fops kept_free) hw
    dsimp only
    split
    · exact hsync
    · exact hsync.pair
  · exact hw

theorem unsetWrite_free (hw : w.Free) (n : Node) (stack : Bytes) :
    (w.unsetWrite sb.threaded n stack).Free := by
  unfold World.unsetWrite
  split
  · exact hw
  · split
    · dsimp only
      rw [World.named_eq]
      exact World.ifOk_keeps (P := World.Free) (hw.status sb _ _) fun _ w hw => hw
    · exact hw

theorem shfsFileRelease_free (hw : w.Free) (n : Node) (cacheStack stack : Bytes) :
    (shfsFileRelease sb.threaded n cacheStack stack w).Free := by
  unfold shfsFileRelease
  refine unsetWrite_free ?_ n stack
  split
  · have hclose : ((w.putSlot n.inode (fcacheFileClose sb.threaded.fops (w.file n cacheStack)
        (w.slot n.inode)).2)).Free := fcacheFileClose_keeps (keeps_fops kept_free) hw
    dsimp only
    split
    · exact hclose
    · exact hclose.pair
  · exact hw

theorem shfsSlowWrite_free (hw : w.Free) (n : Node) (stack : Bytes) (written : Except Errno ℕ) :
    (shfsSlowWrite sb.threaded n stack written w).2.Free := by
  unfold shfsSlowWrite
  split
  · exact hw
  · exact hw
  · exact World.ifOk_keeps (P := World.Free) (doFileFlush_free hw n stack) fun _ w hw => hw

theorem readlink_free (hw : w.Free) (name realName : Bytes) :
    (w.readlink sb.threaded name realName).2.2.Free := by
  rw [World.readlink_snd]
  exact World.send_keeps (fun _ => kept_free _ _ _ hw) hw

theorem shfsReadlink_free (hw : w.Free) (d : Dentry) (stack realName : Bytes) :
    (shfsReadlink sb.threaded d stack realName w).2.Free := by
  rw [shfsReadlink_snd]
  exact readlink_free hw _ _

theorem shfsFollowLink_free (hw : w.Free) (d : Dentry) (stack realName : Bytes) :
    (shfsFollowLink sb.threaded d stack realName w).2.Free := by
  rw [shfsFollowLink_snd]
  exact readlink_free hw _ _

end Free

/-! ## Revalidation -/

/-- A revalidation gets as far as a command: the inode is a good one of this file system and not its
root, its age is over, and its path is not refused. -/
def Node.Asks {τ : Type} (n : Node) (age : Age) (frame : Frame) (w : World τ) : Prop :=
  ∃ v ∈ w.inodes[n.inode]?, v.bad = false ∧ age.magic = true ∧ age.fresh = false ∧ v.ino ≠ 2 ∧
    (checkPath (getName n.dentry frame.name).2).isSome = true

section Revalidate

variable {τ : Type} {sb : SuperBlock τ} {w : World (Guarded τ)} {n : Node} {age : Age}
  {frame : Frame}

theorem shellStat_refused {name : Bytes} (h : checkPath name = none) (fattr : Fattr) :
    shellStat sb.threaded name fattr w = (.error .enametoolong, w) := by
  unfold shellStat World.send
  rw [issue_refused ((builds_doLs true).eq_none_iff.mpr h)]

theorem shellStat_held (sb : SuperBlock τ) {name : Bytes} (h : (checkPath name).isSome = true)
    (fattr : Fattr) (hw : w.far.server.Held) :
    (shellStat sb.threaded name fattr w).1 = .error .eintr ∧
      (shellStat sb.threaded name fattr w).2.far.server.Stuck := by
  obtain ⟨q, hq⟩ := Option.isSome_iff_exists.mp h
  have hfst : ∀ c, (sb.threaded.host.listing c w.far.server).1 = .error .eintr :=
    fun _ => Guarded.critical_held_fst hw
  have hsnd : ∀ c, (sb.threaded.host.listing c w.far.server).2.Stuck :=
    fun _ => Guarded.critical_held hw
  unfold shellStat World.send issue doLsCmd onPath
  rw [hq]
  refine ⟨?_, hsnd _⟩
  exact congrArg (fun r => Except.bind r (readStat sb.fmask sb.clock fattr)) (hfst _)

/-- A refresh that sends nothing leaves the far side alone. -/
theorem shfsRefreshInode_quiet
    (h : ∀ v ∈ w.inodes[n.inode]?, v.ino ≠ 2 → checkPath (getName n.dentry frame.name).2 = none) :
    (shfsRefreshInode sb.threaded n frame w).2.far = w.far := by
  unfold shfsRefreshInode
  split
  · rfl
  · next v hv =>
    split
    · rfl
    · next hino => rw [World.named_eq, shellStat_refused (h v hv hino) frame.fattr, World.ifOk]

/-- A refresh under the mutex that asks the server waits for ever. -/
theorem shfsRefreshInode_held (hw : w.far.server.Held) {v : VInode}
    (hv : w.inodes[n.inode]? = some v) (hino : v.ino ≠ 2)
    (hpath : (checkPath (getName n.dentry frame.name).2).isSome = true) :
    (shfsRefreshInode sb.threaded n frame w).2.far.server.Stuck := by
  obtain ⟨hfst, hsnd⟩ := shellStat_held sb hpath frame.fattr hw
  unfold shfsRefreshInode
  rw [hv]
  dsimp only
  rw [if_neg hino, World.named_eq]
  rcases hstat : shellStat sb.threaded (getName n.dentry frame.name).2 frame.fattr w with ⟨r, w'⟩
  rw [hstat] at hfst hsnd
  obtain rfl : r = .error .eintr := hfst
  exact hsnd

/-- **A revalidation** that asks the server does so under the mutex. The stat takes the mutex once
more, so the thread is stuck. -/
theorem shfsRevalidateInode_stuck (hw : w.Free) (hasks : n.Asks age frame w) :
    (shfsRevalidateInode sb.threaded n age frame w).2.far.server.Stuck := by
  have hlock : (w.lock sb.threaded).far.server.Held := Guarded.lock_free hw
  obtain ⟨v, hv, hbad, hmagic, hfresh, hino, hpath⟩ := hasks
  unfold shfsRevalidateInode
  dsimp only
  rw [World.lock_inodes, hv, hmagic, hfresh, Option.any_some, hbad, if_neg (by decide)]
  exact Guarded.unlock_stuck (shfsRefreshInode_held hlock hv hino hpath)

/-- One that does not gives it back. -/
theorem shfsRevalidateInode_free (hw : w.Free) (hquiet : ¬ n.Asks age frame w) :
    (shfsRevalidateInode sb.threaded n age frame w).2.Free := by
  have hlock : (w.lock sb.threaded).far.server.Held := Guarded.lock_free hw
  unfold shfsRevalidateInode
  dsimp only
  split
  · exact Guarded.unlock_held hlock
  · next hgo =>
    refine Guarded.unlock_held ((congrArg (fun far : Far (Guarded τ) => far.server.Held) ?_).mpr
      hlock)
    refine shfsRefreshInode_quiet fun v hv hino => ?_
    cases hpath : checkPath (getName n.dentry frame.name).2 with
    | none => rfl
    | some q =>
      rw [World.lock_inodes, Option.mem_def] at hv
      simp only [World.lock_inodes, hv, Option.any_some, Bool.or_eq_true, Bool.not_eq_true',
        not_or, Bool.not_eq_false, Bool.not_eq_true] at hgo
      exact absurd ⟨v, hv, hgo.1.1, hgo.1.2, hgo.2, hino, hpath ▸ rfl⟩ hquiet

theorem shfsRevalidateInode_free_iff (hw : w.Free) :
    (shfsRevalidateInode sb.threaded n age frame w).2.Free ↔ ¬ n.Asks age frame w :=
  ⟨fun hfree hasks => (shfsRevalidateInode_stuck hw hasks).not_free hfree,
    shfsRevalidateInode_free hw⟩

/-- A revalidation by a thread that holds the mutex waits for ever. -/
theorem shfsRevalidateInode_held (hw : w.far.server.Held) :
    (shfsRevalidateInode sb.threaded n age frame w).2.far.server.Stuck := by
  have hlock : (w.lock sb.threaded).far.server.Stuck := Guarded.lock_held hw
  unfold shfsRevalidateInode
  dsimp only
  split
  · exact hlock
  · exact shfsRefreshInode_keeps (P := Guarded.Stuck) kept_stuck hlock

theorem shfsDirOpen_free_iff (hw : w.Free) :
    (shfsDirOpen sb.threaded n age frame w).2.Free ↔ n.dentry = .root ∨ ¬ n.Asks age frame w := by
  unfold shfsDirOpen
  split
  · next h => exact iff_of_true hw (.inl h)
  · next h =>
    rw [shfsRevalidateInode_free_iff hw]
    exact ⟨.inr, fun hor => hor.resolve_left h⟩

/-- An old dentry of a good inode is revalidated under the mutex, which takes it at once. -/
theorem shfsDRevalidate_free_iff (hw : w.Free) {positive old : Bool} :
    (shfsDRevalidate sb.threaded n positive old age frame w).2.Free ↔
      ¬ (positive = true ∧ (w.inodes[n.inode]?).any VInode.bad = false ∧ old = true) := by
  have hlock : (w.lock sb.threaded).far.server.Held := Guarded.lock_free hw
  unfold shfsDRevalidate
  cases positive with
  | false => exact iff_of_true hw fun h => Bool.false_ne_true h.1
  | true =>
    dsimp only
    rw [if_neg (by decide), World.lock_inodes]
    cases hbad : (w.inodes[n.inode]?).any VInode.bad with
    | true => exact iff_of_true (Guarded.unlock_held hlock) fun h => Bool.false_ne_true h.2.1.symm
    | false =>
      rw [if_neg Bool.false_ne_true]
      cases old with
      | false => exact iff_of_true (Guarded.unlock_held hlock) fun h => Bool.false_ne_true h.2.2
      | true =>
        rw [if_pos rfl]
        refine iff_of_false (Guarded.Stuck.not_free ?_) fun h => h ⟨rfl, rfl, rfl⟩
        have hstuck : (shfsRevalidateInode sb.threaded n age frame
            (w.lock sb.threaded)).2.far.server.Stuck := shfsRevalidateInode_held hlock
        rcases hrev : shfsRevalidateInode sb.threaded n age frame (w.lock sb.threaded) with ⟨r, w'⟩
        rw [hrev] at hstuck
        cases r <;> exact hstuck

/-- The command of a listing, behind the revalidation. -/
theorem shellReaddir_keeps {P : Guarded τ → Prop} (hP : Kept P) {name : Bytes}
    {fills : List (FillTarget × Bool)} {w : World (Guarded τ)} (hw : P w.far.server) :
    P (shellReaddir sb.threaded name fills w).2.far.server := by
  unfold shellReaddir
  refine World.ifOk_keeps (P := fun w => P w.far.server)
    (World.send_keeps (fun _ => hP _ _ _ hw) hw) fun l w hw => ?_
  exact (congrArg (fun far : Far (Guarded τ) => P far.server)
    (lsLoop_fillLine_far l.residue l.lost l.lines (w, fills))).mpr hw

/-- A call of `shfs_readdir` that is not at its dots revalidates the directory. -/
theorem shfsReaddir_free_iff (hw : w.Free) {how : DirRead} :
    (shfsReaddir sb.threaded n age frame how w).2.Free ↔ how = .dots ∨ ¬ n.Asks age frame w := by
  have hrev : (shfsRevalidateInode sb.threaded n age frame w).2.Free ↔ ¬ n.Asks age frame w :=
    shfsRevalidateInode_free_iff hw
  cases how with
  | dots => exact iff_of_true hw (.inl rfl)
  | cached => exact hrev.trans ⟨.inr, fun hor => hor.resolve_left (fun h => by cases h)⟩
  | list page stack fills =>
    unfold shfsReaddir
    constructor
    · refine fun hfree => .inr fun hasks => Guarded.Stuck.not_free ?_ hfree
      refine World.ifOk_keeps (P := fun w : World (Guarded τ) => w.far.server.Stuck)
        (shfsRevalidateInode_stuck hw hasks) fun _ w hw => ?_
      rw [World.named_eq]
      refine shellReaddir_keeps (P := Guarded.Stuck) kept_stuck ?_
      split
      · exact Guarded.unlock_stuck (Guarded.lock_stuck hw)
      · exact hw
    · intro hor
      refine World.ifOk_keeps (P := World.Free)
        (shfsRevalidateInode_free hw (hor.resolve_left fun h => by cases h)) fun _ w hw => ?_
      rw [World.named_eq]
      refine shellReaddir_keeps (P := Guarded.Free) kept_free ?_
      split
      · exact hw.pair
      · exact hw

end Revalidate

/-! ## Pages and slow reads -/

section Pages

variable {τ : Type} {sb : SuperBlock τ} {w : World (Guarded τ)} {n : Node} {stack : Bytes}
  {mem : Memory}

/-- A read whose path is refused leaves the far side alone. -/
theorem read_refused (sb : SuperBlock τ) {name : Bytes} (h : checkPath name = none)
    (off count ino : ℕ) (s : Far (Guarded τ)) :
    (sb.threaded.fops.read name off count ino s).remote = s ∧
      ∃ e, (sb.threaded.fops.read name off count ino s).result = .error e := by
  rw [(shellRead_passes ..).refused h]
  exact ⟨rfl, _, rfl⟩

/-- Another one waits for ever, if the thread holds the mutex. -/
theorem read_held {name : Bytes} (h : (checkPath name).isSome = true) (off count ino : ℕ)
    {s : Far (Guarded τ)} (hs : s.server.Held) :
    (sb.threaded.fops.read name off count ino s).remote.server.Stuck := by
  obtain ⟨q, hq⟩ := Option.isSome_iff_exists.mp h
  unfold SuperBlock.fops shellFops issue shellReadCmd onPath
  dsimp only
  rw [hq]
  exact Guarded.critical_held hs

theorem write_held {name : Bytes} (h : (checkPath name).isSome = true) (off : ℕ) (d : Bytes)
    (ino : ℕ) {s : Far (Guarded τ)} (hs : s.server.Held) :
    (sb.threaded.fops.write name off d ino s).remote.server.Stuck := by
  obtain ⟨q, hq⟩ := Option.isSome_iff_exists.mp h
  unfold SuperBlock.fops shellFops issue shellWriteCmd onPath
  dsimp only
  rw [hq]
  exact Guarded.critical_held hs

/-- `shfs_slow_read` reads under the mutex. -/
theorem shfsSlowRead_free_iff (hw : w.Free) {page : Bool} {count offset : ℕ} :
    (shfsSlowRead sb.threaded n stack page count offset w).2.Free ↔
      page = false ∨ checkPath (getName n.dentry stack).2 = none := by
  have hlock : (w.lock sb.threaded).far.server.Held := Guarded.lock_free hw
  unfold shfsSlowRead
  cases page with
  | false => exact iff_of_true (Guarded.unlock_held hlock) (.inl rfl)
  | true =>
    dsimp only
    rw [if_neg (by decide), World.named_eq]
    cases hpath : checkPath (getName n.dentry stack).2 with
    | none =>
      refine iff_of_true (Guarded.unlock_held ?_) (.inr rfl)
      exact (congrArg (fun far : Far (Guarded τ) => far.server.Held)
        (read_refused sb hpath _ _ _ _).1).mpr hlock
    | some q =>
      refine iff_of_false (Guarded.Stuck.not_free (Guarded.unlock_stuck ?_)) fun h => ?_
      · exact read_held (hpath ▸ rfl) _ _ _ hlock
      · rcases h with h | h <;> cases h

/-- How many octets of a request the buffer of a slot has. -/
def Slot.got {σ : Type} (s : Slot σ) (offset count : ℕ) : ℕ :=
  s.cache.elim 0 fun c => c.got offset count

/-- A new buffer has nothing. -/
theorem Slot.alloc_got {σ : Type} (s : Slot σ) (mem : Memory) (offset count : ℕ) :
    (s.alloc mem).got offset count = s.got offset count := by
  unfold Slot.got
  obtain hc | ⟨hnone, data, hc⟩ := s.alloc_cases mem
  · rw [hc]
  · rw [hc, hnone]
    have hempty : FCache.got ⟨.read, true, 0, 0, data⟩ offset count = 0 :=
      if_neg fun h => Nat.not_lt_zero _ h.2
    exact hempty

theorem Reading.flush_count {σ : Type} (ops : Fops σ) (ino : ℕ) (v : Reading σ) :
    (v.flush ops ino).count = v.count := by
  unfold Reading.flush
  split <;> rfl

/-- A read that the buffer has, or that is refused. -/
theorem fcacheFileRead_quiet (sb : SuperBlock τ) (mem : Memory) {f : File} {offset count : ℕ}
    (hcount : count ≠ 0) (s : Slot (Far (Guarded τ)))
    (h : (∃ e, f.check = .error e) ∨ checkPath (getName f.dentry f.stack).2 = none ∨
      s.got offset count = count) (size fuel : ℕ) :
    ∃ r, fcacheFileRead sb.threaded.fops size (fuel + 1) mem f offset count s = some r ∧
      r.2.remote = s.remote ∧ ∀ d, r.1 = .ok d → d.length = count := by
  unfold fcacheFileRead
  rw [File.checkName_eq]
  cases hcheck : f.check with
  | error e => exact ⟨_, rfl, rfl, fun d hd => by cases hd⟩
  | ok ino =>
    have hor := h.resolve_left fun ⟨e, he⟩ => by cases hcheck.symm.trans he
    rw [← s.alloc_got mem] at hor
    dsimp only [Except.map]
    unfold Slot.got at hor
    cases hc : (s.alloc mem).cache with
    | none =>
      rw [hc] at hor
      have hpath := hor.resolve_right fun hzero => hcount hzero.symm
      obtain ⟨hremote, e, he⟩ := read_refused sb hpath offset count 0 (s.alloc mem).remote
      exact ⟨_, rfl, hremote.trans (s.alloc_remote mem), fun d hd => by cases he.symm.trans hd⟩
    | some c =>
      rw [hc] at hor
      dsimp only
      set v : Reading (Far (Guarded τ)) :=
        ⟨(getName f.dentry f.stack).2, offset, count, [], c, (s.alloc mem).remote⟩ with hv
      have hleft : v.hit.count = count - c.got offset count := v.hit_count
      obtain ⟨hname, hremote⟩ := v.hit_name
      by_cases hall : c.got offset count = count
      · -- the hit is the whole request
        have hzero : v.hit.count = 0 := by rw [hleft, hall, Nat.sub_self]
        have hstay : v.hit.flush sb.threaded.fops ino = v.hit := if_neg fun h => h.1 hzero
        rw [hstay, loop_zero Reading.count hzero]
        refine ⟨_, rfl, hremote.trans (s.alloc_remote mem), fun d hd => ?_⟩
        obtain rfl := Except.ok.inj hd
        have hsum : v.hit.buffer.length + v.hit.count = 0 + count := v.hit_length
        rwa [hzero, Nat.zero_add] at hsum
      -- the path is refused in every command, so neither the flush nor the refill gets to the mutex
      · have hpath : checkPath v.hit.name = none := hname.symm ▸ hor.resolve_right hall
        obtain ⟨hflushName, hflush, -⟩ :=
          Reading.flush_refused sb.threaded.host.toRemote sb.threaded.fcacheSize hpath ino
        set v' := v.hit.flush sb.threaded.fops ino with hv'
        have hleft' : v'.count = count - c.got offset count := (Reading.flush_count ..).trans hleft
        have hne : v'.count ≠ 0 := by
          have := c.got_le offset count
          omega
        obtain ⟨hsame, e, he⟩ : (v'.request sb.threaded.fops size).remote = v'.remote ∧
            ∃ e, (v'.request sb.threaded.fops size).result = .error e :=
          read_refused sb (hflushName.symm ▸ hpath) _ _ _ _
        obtain ⟨v'', hfill, -, hlast⟩ := Reading.fill_error sb.threaded.fops size he
        have hloop : loop (fun v => decide (v.count ≠ 0)) (Reading.fill sb.threaded.fops size)
            (fuel + 1) v' = some (.inl (e, v'')) := by
          rw [loop, if_pos (decide_eq_true hne), hfill]
        rw [hloop]
        refine ⟨_, rfl, ?_, fun d hd => by cases hd⟩
        exact hlast.trans (hsame.trans (hflush.trans (hremote.trans (s.alloc_remote mem))))

/-- Another read waits for ever, if the thread holds the mutex. -/
theorem fcacheFileRead_held {f : File} {offset count : ℕ} (s : Slot (Far (Guarded τ)))
    (hs : s.remote.server.Held) {ino : ℕ} (hcheck : f.check = .ok ino)
    (hpath : (checkPath (getName f.dentry f.stack).2).isSome = true)
    (hgot : s.got offset count ≠ count) {size fuel : ℕ}
    {r : Except Errno Bytes × Slot (Far (Guarded τ))}
    (hr : fcacheFileRead sb.threaded.fops size fuel mem f offset count s = some r) :
    r.2.remote.server.Stuck := by
  rw [← s.alloc_got mem] at hgot
  have hheld : (s.alloc mem).remote.server.Held := (s.alloc_remote mem).symm ▸ hs
  unfold Slot.got at hgot
  obtain ⟨e, herror, -⟩ | ⟨ino, -, ⟨hc, q, rfl, rfl⟩ | ⟨c, out, hc, hout, rfl⟩⟩ :=
    fcacheFileRead_cases hr
  · cases hcheck.symm.trans herror
  · exact read_held hpath _ _ _ hheld
  · rw [hc] at hgot
    set v : Reading (Far (Guarded τ)) :=
      ⟨(getName f.dentry f.stack).2, offset, count, [], c, (s.alloc mem).remote⟩ with hv
    obtain ⟨hname, hremote⟩ := v.hit_name
    have hleft : v.hit.count = count - c.got offset count := v.hit_count
    have hne : v.hit.count ≠ 0 := by
      have := c.got_le offset count
      have : c.got offset count ≠ count := hgot
      omega
    -- the flush is the first command, or the first round has it
    have hflush : (v.hit.flush sb.threaded.fops ino).remote.server.Stuck ∨
        v.hit.flush sb.threaded.fops ino = v.hit := by
      unfold Reading.flush
      split
      · exact .inl (write_held (hname.symm ▸ hpath) _ _ _ (hremote.symm ▸ hheld))
      · exact .inr rfl
    have hstuck := loop_rule
      (fun v => v.remote.server.Stuck ∨
        v.remote.server.Held ∧ (checkPath v.name).isSome = true ∧ v.count ≠ 0)
      (fun b => b.2.remote.server.Stuck) ?_ ?_ hout
    · cases out with
      | inl b => exact hstuck
      | inr v =>
        refine hstuck.1.resolve_right fun hand => hand.2.2 ?_
        simpa using hstuck.2
    · rintro v hinv -
      have hreq : (v.request sb.threaded.fops size).remote.server.Stuck := by
        rcases hinv with h | ⟨hheld, hpath, -⟩
        · exact (keeps_fops kept_stuck).read _ _ _ _ _ h
        · exact read_held hpath _ _ _ hheld
      have := Reading.fill_of_request (P := fun far : Far (Guarded τ) => far.server.Stuck) hreq
      rcases hfill : v.fill sb.threaded.fops size with b | v'
      · rw [hfill] at this
        exact this
      · rw [hfill] at this
        exact .inl this
    · rcases hflush with h | h
      · exact .inl h
      · rw [h]
        exact .inr ⟨hremote.symm ▸ hheld, hname.symm ▸ hpath, hne⟩

/-- Octets that `shfs_file_readpage` has without a command: their path is refused, or the file is,
or they are in the buffer, where they are looked for at an `unsigned` offset. -/
def Node.Has {τ : Type} (sb : SuperBlock τ) (n : Node) (stack : Bytes) (offset count : ℕ)
    (w : World τ) : Prop :=
  checkPath (getName n.dentry stack).2 = none ∨
    sb.fcacheSize ≠ 0 ∧
      ((∃ e, (w.file n stack).check = .error e) ∨
        (w.slot n.inode).got (offset % 2 ^ 32) count = count)

/-- A round that has its octets is the last one. -/
theorem Paging.round_quiet (mem : Memory) {v : Paging (Guarded τ)} (hcount : v.count ≠ 0)
    (h : n.Has sb.threaded stack v.offset v.count v.world) (fuel : ℕ) :
    (∃ e w', v.round sb.threaded (fuel + 1) n stack mem = .inl (some (.error e), w') ∧
        w'.far = v.world.far) ∨
      ∃ v', v.round sb.threaded (fuel + 1) n stack mem = .inr v' ∧ v'.count = 0 ∧
        v'.world.far = v.world.far := by
  unfold Paging.round Paging.read
  by_cases hsize : sb.threaded.fcacheSize ≠ 0
  · obtain ⟨⟨result, s⟩, hread, hremote, hlen⟩ := fcacheFileRead_quiet sb mem hcount
      (v.world.slot n.inode) (f := v.world.file n stack)
      (by
        rcases h with h | ⟨-, h | h⟩
        · exact .inr (.inl h)
        · exact .inl h
        · exact .inr (.inr h)) sb.threaded.fcacheSize fuel
    rw [if_pos hsize, hread]
    dsimp only [Option.map]
    cases result with
    | error e => exact .inl ⟨e, _, rfl, hremote⟩
    | ok data =>
      have hdata : data.length = v.count := hlen data rfl
      have hne : data ≠ [] := fun h => hcount (by rw [← hdata, h]; rfl)
      refine .inr ⟨_, if_neg hne, ?_, hremote⟩
      rw [hdata]
      exact Nat.sub_self _
  · have hpath := h.resolve_right fun hand => hsize hand.1
    obtain ⟨hremote, e, he⟩ := read_refused sb hpath (v.offset % 2 ^ 32) v.count 0 v.world.far
    rw [if_neg hsize, World.named_eq]
    dsimp only
    rw [he]
    exact .inl ⟨e, _, rfl, hremote⟩

/-- Another round waits for ever. -/
theorem Paging.read_held {v : Paging (Guarded τ)} (hheld : v.world.far.server.Held)
    (h : ¬ n.Has sb.threaded stack v.offset v.count v.world) {fuel : ℕ}
    {r : Except Errno Bytes × World (Guarded τ)}
    (hr : v.read sb.threaded fuel n stack mem = some r) : r.2.far.server.Stuck := by
  have hpath : (checkPath (getName n.dentry stack).2).isSome = true :=
    Option.isSome_iff_ne_none.mpr fun hnone => h (.inl hnone)
  unfold Paging.read at hr
  by_cases hsize : sb.threaded.fcacheSize ≠ 0
  · rw [if_pos hsize] at hr
    obtain ⟨⟨result, s⟩, hread, rfl⟩ := Option.map_eq_some_iff.mp hr
    have hcheck : ∃ ino, (v.world.file n stack).check = .ok ino := by
      cases hc : (v.world.file n stack).check with
      | ok ino => exact ⟨ino, rfl⟩
      | error e => exact absurd (.inr ⟨hsize, .inl ⟨e, hc⟩⟩) h
    exact fcacheFileRead_held (f := v.world.file n stack) (v.world.slot n.inode) hheld
      hcheck.choose_spec hpath (fun hgot => h (.inr ⟨hsize, .inr hgot⟩)) hread
  · rw [if_neg hsize, World.named_eq] at hr
    obtain rfl := Option.some.inj hr
    exact Shfs.read_held hpath _ _ _ hheld

theorem Paging.read_stuck {v : Paging (Guarded τ)} (hstuck : v.world.far.server.Stuck) {fuel : ℕ}
    {r : Except Errno Bytes × World (Guarded τ)}
    (hr : v.read sb.threaded fuel n stack mem = some r) : r.2.far.server.Stuck := by
  unfold Paging.read at hr
  split at hr
  · obtain ⟨⟨result, s⟩, hread, rfl⟩ := Option.map_eq_some_iff.mp hr
    exact fcacheFileRead_keeps (s := v.world.slot n.inode) (keeps_fops kept_stuck) hstuck hread
  · rw [World.named_eq] at hr
    obtain rfl := Option.some.inj hr
    exact (keeps_fops kept_stuck).read _ _ _ _ _ hstuck

/-- **A page** is read under the mutex. So the thread comes back without it only if the page is had
without a command, as any command takes the mutex once more. -/
theorem shfsFileReadpage_free_iff (hw : w.Free) {index fuel : ℕ} :
    (∃ r, shfsFileReadpage sb.threaded (fuel + 1) n stack mem index w = some r ∧ r.2.Free) ↔
      n.Has sb.threaded stack (index * PAGE_SIZE) PAGE_SIZE w := by
  have hlock : (w.lock sb.threaded).far.server.Held := Guarded.lock_free hw
  have hhas : n.Has sb.threaded stack (index * PAGE_SIZE) PAGE_SIZE (w.lock sb.threaded) ↔
      n.Has sb.threaded stack (index * PAGE_SIZE) PAGE_SIZE w := Iff.rfl
  unfold shfsFileReadpage
  dsimp only
  set start : Paging (Guarded τ) := ⟨index * PAGE_SIZE, PAGE_SIZE, w.lock sb.threaded⟩ with hstart
  constructor
  · rintro ⟨r, hr, hfree⟩
    by_contra hno
    cases hout : loop (fun v => decide (v.count ≠ 0))
        (Paging.round sb.threaded (fuel + 1) n stack mem) (fuel + 1) start with
    | none =>
      rw [hout] at hr
      cases hr
    | some out =>
      rw [hout] at hr
      -- the first round leaves a thread that is stuck
      have hstuck := loop_rule (fun v => v = start ∨ v.world.far.server.Stuck)
        (fun b => b.1 = none ∨ b.2.far.server.Stuck) ?_ (.inl rfl) hout
      · rcases out with ⟨_ | result, w'⟩ | v
        · cases hr
        · obtain rfl := Option.some.inj hr
          have : w'.far.server.Stuck := hstuck.resolve_left fun h => by cases h
          exact (Guarded.unlock_stuck this).not_free hfree
        · obtain rfl := Option.some.inj hr
          have hzero : v.count = 0 := by simpa using hstuck.2
          have : v.world.far.server.Stuck := hstuck.1.resolve_left fun h => by
            rw [h] at hzero
            cases hzero
          exact (Guarded.unlock_stuck this).not_free hfree
      · rintro v hv -
        have hread : ∀ r, v.read sb.threaded (fuel + 1) n stack mem = some r →
            r.2.far.server.Stuck := by
          intro r hr
          rcases hv with rfl | hv
          · exact Paging.read_held hlock hno hr
          · exact Paging.read_stuck hv hr
        have hround :=
          Paging.round_of_read (P := fun w : World (Guarded τ) => w.far.server.Stuck) hread
        rcases hv' : v.round sb.threaded (fuel + 1) n stack mem with b | v'
        · rw [hv'] at hround
          exact hround
        · rw [hv'] at hround
          exact .inr hround
  · intro h
    have hpage : start.count ≠ 0 := Nat.succ_ne_zero _
    rcases Paging.round_quiet mem hpage h fuel with
      ⟨e, w', hround, hfar⟩ | ⟨v', hround, hzero, hfar⟩
    · rw [loop, if_pos (decide_eq_true hpage), hround]
      exact ⟨_, rfl, Guarded.unlock_held (hfar ▸ hlock)⟩
    · rw [loop, if_pos (decide_eq_true hpage), hround]
      dsimp only
      rw [loop_zero Paging.count hzero]
      exact ⟨_, rfl, Guarded.unlock_held (hfar ▸ hlock)⟩

end Pages

/-! ## All operations -/

/-- An operation gets by without taking the mutex twice, and gives it back. Those that ask for the
attributes of an inode under the mutex must not have to ask the server; a page must be had without a
command; and `shfs_put_super` never gives the mutex back. -/
def VfsOp.Disciplined {τ : Type} (sb : SuperBlock τ) (w : World τ) : VfsOp → Prop
  | dirOpen n age frame => n.dentry = .root ∨ ¬ n.Asks age frame w
  | readdir n age frame how => how = .dots ∨ ¬ n.Asks age frame w
  | dRevalidate n positive old _ _ =>
    ¬ (positive = true ∧ (w.inodes[n.inode]?).any VInode.bad = false ∧ old = true)
  | getattr n age frame => ¬ n.Asks age frame w
  | readpage n stack _ index => n.Has sb stack (index * PAGE_SIZE) PAGE_SIZE w
  | slowRead n stack page _ _ => page = false ∨ checkPath (getName n.dentry stack).2 = none
  | putSuper => False
  | lookup .. | mkdir .. | create .. | rmdir .. | rename .. | unlink .. | link .. | symlink ..
  | setattr .. | statfs | .open .. | flush .. | release .. | slowWrite .. | readlink ..
  | followLink .. => True

/-- **The discipline of the mutex**: a thread that does not hold it comes back from an operation
without it, and without having tried to take it twice, exactly if the operation is disciplined. -/
theorem VfsOp.free_iff {τ : Type} (sb : SuperBlock τ) (op : VfsOp) (fuel : ℕ)
    {w : World (Guarded τ)} (hw : w.Free) :
    (∃ w', op.run sb.threaded (fuel + 1) w = some w' ∧ w'.Free) ↔ op.Disciplined sb.threaded w := by
  have hsome : ∀ {w' : World (Guarded τ)} {P : Prop}, (w'.Free ↔ P) →
      ((∃ w'', some w' = some w'' ∧ w''.Free) ↔ P) := by
    rintro w' P hiff
    refine ⟨?_, fun h => ⟨w', rfl, hiff.mpr h⟩⟩
    rintro ⟨w'', heq, hfree⟩
    exact hiff.mp (Option.some.inj heq ▸ hfree)
  cases op with
  | dirOpen n age frame => exact hsome (shfsDirOpen_free_iff hw)
  | readdir n age frame how => exact hsome (shfsReaddir_free_iff hw)
  | lookup d frame new => exact hsome (iff_true_intro (shfsLookup_free hw d frame new))
  | dRevalidate n positive old age frame => exact hsome (shfsDRevalidate_free_iff hw)
  | mkdir d stack frame new => exact hsome (iff_true_intro (shfsMkdir_free hw d stack frame new))
  | create d stack mode frame new =>
    exact hsome (iff_true_intro (shfsCreate_free hw d stack mode frame new))
  | rmdir d unhashed stack => exact hsome (iff_true_intro (shfsRmdir_free hw d unhashed stack))
  | rename old new oldStack newStack =>
    exact hsome (iff_true_intro (shfsRename_free hw old new oldStack newStack))
  | unlink d stack => exact hsome (iff_true_intro (shfsUnlink_free hw d stack))
  | link old new oldStack newStack frame inode =>
    exact hsome (iff_true_intro (shfsLink_free hw old new oldStack newStack frame inode))
  | symlink d oldname stack frame inode =>
    exact hsome (iff_true_intro (shfsSymlink_free hw d oldname stack frame inode))
  | setattr verdicts n stack attr =>
    exact hsome (iff_true_intro (setattr_free hw verdicts n stack attr))
  | getattr n age frame => exact hsome (shfsRevalidateInode_free_iff hw)
  | statfs => exact hsome (iff_true_intro (hw.status sb _ _))
  | putSuper =>
    refine hsome (iff_of_false (fun h => ?_) not_false)
    have hheld := Guarded.lock_free (World.Free.status sb hw (fun _ => shellFinish) [])
    exact Bool.false_ne_true (h.held.symm.trans hheld.held)
  | «open» n stack mode mem =>
    exact hsome (iff_true_intro (shfsFileOpen_free hw n stack mode mem))
  | flush n stack => exact hsome (iff_true_intro (doFileFlush_free hw n stack))
  | release n cacheStack stack =>
    exact hsome (iff_true_intro (shfsFileRelease_free hw n cacheStack stack))
  | readpage n stack mem index =>
    have hiff : (∃ r, shfsFileReadpage sb.threaded (fuel + 1) n stack mem index w = some r ∧
        r.2.Free) ↔ n.Has sb.threaded stack (index * PAGE_SIZE) PAGE_SIZE w :=
      shfsFileReadpage_free_iff hw
    refine Iff.trans ?_ hiff
    constructor
    · rintro ⟨w', hrun, hfree⟩
      obtain ⟨r, hr, rfl⟩ := Option.map_eq_some_iff.mp hrun
      exact ⟨r, hr, hfree⟩
    · rintro ⟨r, hr, hfree⟩
      exact ⟨r.2, Option.map_eq_some_iff.mpr ⟨r, hr, rfl⟩, hfree⟩
  | slowRead n stack page count offset => exact hsome (shfsSlowRead_free_iff hw)
  | slowWrite n stack written =>
    exact hsome (iff_true_intro (shfsSlowWrite_free hw n stack written))
  | readlink d stack realName =>
    exact hsome (iff_true_intro (shfsReadlink_free hw d stack realName))
  | followLink d stack realName =>
    exact hsome (iff_true_intro (shfsFollowLink_free hw d stack realName))

/-! ### An example -/

/-- A mount of it, without a file cache. -/
def deafMount : SuperBlock Unit := ⟨deafHost, ⟨false, false, 0, 0⟩, 0xFFFF, 0, stillClock⟩

/-- A good inode, and a thread without the mutex. -/
def quietWorld : World (Guarded Unit) :=
  ⟨[⟨7, ⟨0x81A4, 0, 0, 0, ⟨0, 0⟩, ⟨0, 0⟩⟩, .file, false, false, none⟩], 0,
    ⟨⟨false, false, [], ()⟩, []⟩⟩

/-- A stat that is early enough. -/
theorem getattr_free_iff :
    (∃ w', (VfsOp.getattr nodeA ⟨true, true⟩ blankFrame).run deafMount.threaded 1 quietWorld =
        some w' ∧ w'.Free) ↔
      (VfsOp.getattr nodeA ⟨true, true⟩ blankFrame).Disciplined deafMount.threaded quietWorld :=
  VfsOp.free_iff deafMount _ 0 ⟨rfl, rfl⟩

/-- One that is late, and the revalidation of an old dentry. -/
theorem not_free_late :
    quietWorld.Free ∧
      ((VfsOp.getattr nodeA ⟨true, false⟩ blankFrame).run deafMount.threaded 1 quietWorld).map
        (fun w => w.far.server.stuck) = some true ∧
      ((VfsOp.dRevalidate nodeA true true ⟨true, true⟩ blankFrame).run deafMount.threaded 1
        quietWorld).map (fun w => w.far.server.stuck) = some true :=
  ⟨⟨rfl, rfl⟩, by decide +kernel, by decide +kernel⟩

end Shfs
