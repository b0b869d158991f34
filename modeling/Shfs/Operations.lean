import Shfs.Vfs
import Shfs.Lib.Loop

/-!
# The operations

The functions in the tables of dir.c, file.c, symlink.c and inode.c, on a `World`. What the kernel
decides is an argument: the dentries and inodes of a call, what `filldir` accepts, whether memory
can be had, how old something is. Of the pages of a directory only the outcome is left here: whether
a listing is served from them or read again (`DirRead`).

`VfsOp` collects them, with their arguments, and `VfsOp.run` runs one.
-/

namespace Shfs

open Lib

/-- `-EACCES` -/
abbrev Errno.eacces : Errno := .other 13

/-- `-EBUSY` -/
abbrev Errno.ebusy : Errno := .other 16

/-- `-ENOMEM` -/
abbrev Errno.enomem : Errno := .other 12

/-- `S_IWUSR` -/
abbrev S_IWUSR : UInt16 := 0x80

section Operations

variable {τ : Type} (sb : SuperBlock τ)

/-! ## Directories: looking up -/

/-- `shfs_dir_open` -/
def shfsDirOpen (n : Node) (age : Age) (frame : Frame) (w : World τ) :
    Except Errno Unit × World τ :=
  if n.dentry = .root then (.ok (), w) -- always open root dir
  else shfsRevalidateInode sb n age frame w

/-- `shfs_getattr` -/
def shfsGetattr (n : Node) (age : Age) (frame : Frame) (w : World τ) :
    Except Errno Unit × World τ :=
  shfsRevalidateInode sb n age frame w

/-- What a call of `shfs_iget` gets: a number, and memory or none. -/
structure NewInode : Type where
  ino : ℕ
  memory : Bool
  deriving DecidableEq, Repr

/-- `shfs_lookup`: the error pointer, or NULL. -/
def shfsLookup (d : Dentry) (frame : Frame) (new : NewInode) (w : World τ) :
    Except Errno Unit × World τ :=
  w.named d frame.name fun name =>
    match shellStat sb name frame.fattr w with
    | (.error .eintr, w) => (.error .eintr, w)
    | (.error _, w) => (.ok (), w) -- a negative dentry
    | (.ok fattr, w) => (.ok (), (shfsIget sb new.ino new.memory fattr w).2)

/-- `shfs_d_revalidate`, for a dentry with or without an inode: is it valid? -/
def shfsDRevalidate (n : Node) (positive old : Bool) (age : Age) (frame : Frame) (w : World τ) :
    Bool × World τ :=
  if !positive then (!old, w) -- negative dentry
  else
    let w := w.lock sb
    let (result, w) :=
      if (w.inodes[n.inode]?).any VInode.bad then (false, w)
      else if old then
        match shfsRevalidateInode sb n age frame w with
        | (.ok _, w) => (true, w)
        | (.error _, w) => (false, w)
      else (true, w)
    (result, w.unlock sb)

/-! ## Directories: reading -/

/-- The inode that an entry is for: the one of its dentry, a new one, or none for want of memory. -/
inductive FillTarget : Type where
  | existing (i : ℕ)
  | new (new : NewInode)
  | nowhere
  deriving DecidableEq, Repr

/-- `shfs_fill_cache`, as far as inodes go. -/
def shfsFillCache (fattr : Fattr) (w : World τ) : FillTarget → World τ
  | .existing i => w.update i (·.setAttr sb.info fattr)
  | .new new => (shfsIget sb new.ino new.memory fattr w).2
  | .nowhere => w

/-- One line in the loop of `do_ls`; `fills` are the targets of the entries to come, with what
`shfs_fill_cache` returns. -/
def fillLine (residue : Bytes → Bytes) (v : World τ × List (FillTarget × Bool)) (s : Bytes) :
    (World τ × List (FillTarget × Bool)) × Bool :=
  match lsEntry sb.fmask sb.clock (s ++ 0 :: residue s) with
  | none => (v, true)
  | some (_, fattr) =>
    match v.2 with
    | [] => (v, false)
    | (target, more) :: fills => ((shfsFillCache sb fattr v.1 target, fills), more)

/-- `info->fops.readdir` -/
def shellReaddir (name : Bytes) (fills : List (FillTarget × Bool)) (w : World τ) :
    Except Errno Unit × World τ :=
  World.ifOk (w.send sb.host.listing (doLsCmd false) name) fun l w =>
    let r := lsLoop (fillLine sb l.residue) l.lost l.lines (w, fills)
    (r.1, r.2.1)

/-- How a call of `shfs_readdir` goes on: it stops at the dots, it is served from the pages of the
directory, or it reads the listing again, behind `shfs_invalidate_dircache_entries` if there is a
page at all. -/
inductive DirRead : Type where
  | dots
  | cached
  | list (page : Bool) (stack : Bytes) (fills : List (FillTarget × Bool))

/-- `shfs_readdir` -/
def shfsReaddir (n : Node) (age : Age) (frame : Frame) (how : DirRead) (w : World τ) :
    Except Errno Unit × World τ :=
  match how with
  | .dots => (.ok (), w)
  | .cached => shfsRevalidateInode sb n age frame w
  | .list page stack fills =>
    World.ifOk (shfsRevalidateInode sb n age frame w) fun _ w =>
      let w := if page then (w.lock sb).unlock sb else w
      w.named n.dentry stack fun name => shellReaddir sb name fills w

/-! ## Directories: changing -/

/-- `shfs_instantiate`: the inode that the dentry gets. -/
def shfsInstantiate (d : Dentry) (frame : Frame) (new : NewInode) (w : World τ) :
    Except Errno ℕ × World τ :=
  w.named d frame.name fun name =>
    World.ifOk (shellStat sb name frame.fattr w) fun fattr w =>
      match shfsIget sb new.ino new.memory fattr w with
      | (none, w) => (.error .eacces, w)
      | (some i, w) => (.ok i, w)

/-- `shfs_mkdir` -/
def shfsMkdir (d : Dentry) (stack : Bytes) (frame : Frame) (new : NewInode) (w : World τ) :
    Except Errno ℕ × World τ :=
  if sb.info.readonly then (.error .erofs, w)
  else
    w.named d stack fun name =>
      World.ifOk (w.send sb.host.status shellMkdir name) fun _ w =>
        World.ifOk (shfsInstantiate sb d frame new w) fun _ w => (.ok 0, w)

/-- `shfs_create` -/
def shfsCreate (d : Dentry) (stack : Bytes) (mode : UInt16) (frame : Frame) (new : NewInode)
    (w : World τ) : Except Errno ℕ × World τ :=
  if sb.info.readonly then (.error .erofs, w)
  else
    w.named d stack fun name =>
      let forcedWrite := mode &&& S_IWUSR = 0
      let mode := if forcedWrite then mode ||| S_IWUSR else mode
      World.ifOk (w.send sb.host.status (shellCreate · mode.toUInt32) name) fun _ w =>
        World.ifOk (shfsInstantiate sb d frame new w) fun i w =>
          (.ok 0, if forcedWrite then w.update i fun v =>
            { v with unsetWriteOnClose := true } else w)

/-- `shfs_rmdir` -/
def shfsRmdir (d : Dentry) (unhashed : Bool) (stack : Bytes) (w : World τ) :
    Except Errno ℕ × World τ :=
  if sb.info.readonly then (.error .erofs, w)
  else if !unhashed then (.error .ebusy, w)
  else w.named d stack fun name => w.send sb.host.status shellRmdir name

/-- `shfs_rename` -/
def shfsRename (oldDentry newDentry : Dentry) (oldStack newStack : Bytes) (w : World τ) :
    Except Errno ℕ × World τ :=
  if sb.info.readonly then (.error .erofs, w)
  else
    w.named oldDentry oldStack fun old =>
      w.named newDentry newStack fun new => w.send sb.host.status (shellRename · new) old

/-- `shfs_unlink` -/
def shfsUnlink (d : Dentry) (stack : Bytes) (w : World τ) : Except Errno ℕ × World τ :=
  if sb.info.readonly then (.error .erofs, w)
  else w.named d stack fun name => w.send sb.host.status shellUnlink name

/-- `shfs_link` -/
def shfsLink (oldDentry newDentry : Dentry) (oldStack newStack : Bytes) (frame : Frame)
    (inode : NewInode) (w : World τ) : Except Errno ℕ × World τ :=
  if sb.info.readonly then (.error .erofs, w)
  else
    w.named oldDentry oldStack fun old =>
      w.named newDentry newStack fun new =>
        World.ifOk (w.send sb.host.status (shellLink · new) old) fun _ w =>
          World.ifOk (shfsInstantiate sb newDentry frame inode w) fun _ w => (.ok 0, w)

/-- `shfs_symlink` -/
def shfsSymlink (d : Dentry) (oldname : Bytes) (stack : Bytes) (frame : Frame) (inode : NewInode)
    (w : World τ) : Except Errno ℕ × World τ :=
  if sb.info.readonly then (.error .erofs, w)
  else
    w.named d stack fun new =>
      if oldname.length + 1 > SHFS_PATH_MAX then (.error .enametoolong, w)
      else
        World.ifOk (w.send sb.host.status (shellSymlink · new) oldname) fun _ w =>
          World.ifOk (shfsInstantiate sb d frame inode w) fun _ w => (.ok 0, w)

/-! ## Attributes and the super block -/

/-- `shfs_notify_change`, of the inode of a dentry. -/
def World.setattr (verdicts : Verdicts) (n : Node) (stack : Bytes) (attr : Iattr) (w : World τ) :
    Except Errno ℕ × World τ :=
  match w.inodes[n.inode]? with
  | none => (.ok 0, w)
  | some v =>
    let (result, stat, far) :=
      shfsNotifyChange (shellAops sb.host.toRemote) sb.info verdicts n.dentry
      stack attr v.stat w.far
    (result, { w.update n.inode fun v => { v with stat := stat } with far := far })

/-- `shfs_statfs` -/
def shfsStatfs (w : World τ) : Except Errno ℕ × World τ :=
  w.send sb.host.status (fun _ => shellStatfsCmd) []

/-- `shfs_put_super`, up to the end of the super block. -/
def shfsPutSuper (w : World τ) : World τ :=
  ((w.send sb.host.status (fun _ => shellFinish) []).2).lock sb

/-! ## Files -/

/-- The slot of an inode in the file cache. -/
def World.slot (w : World τ) (i : ℕ) : Slot (Far τ) :=
    ⟨(w.inodes[i]?).bind VInode.cache, w.free, w.far⟩

/-- The state after a function of the file cache. -/
def World.putSlot (w : World τ) (i : ℕ) (s : Slot (Far τ)) : World τ :=
  ⟨w.inodes.modify i fun v => { v with cache := s.cache }, s.free, s.remote⟩

/-- An open file, as the functions of the file cache get it. -/
def World.file (w : World τ) (n : Node) (stack : Bytes) : File :=
  ⟨n.dentry, (w.inodes[n.inode]?).map VInode.inode, stack⟩

/-- `info->fops` for reads and writes. -/
abbrev SuperBlock.fops : Fops (Far τ) := shellFops sb.host.toRemote sb.fcacheSize

/-- `shfs_file_open`: 1 for a file that gets the special read handler. -/
def shfsFileOpen (n : Node) (stack : Bytes) (mode : AccMode) (mem : Memory) (w : World τ) :
    Except Errno Bool × World τ :=
  if mode ≠ .rdonly ∧ sb.info.readonly then (.error .erofs, w)
  else
    let (result, name) := getName n.dentry stack
    if result = 0 then (.error .enametoolong, w)
    else
      World.ifOk (w.send sb.host.status (shellOpen · mode) name) fun r w =>
        let w := if sb.fcacheSize ≠ 0 then
            w.putSlot n.inode (fcacheFileOpen mem (w.file n []) (w.slot n.inode)).2
          else w
        (.ok (r = 1), w)

/-- What follows a flush that has succeeded: the dirty pages, under the mutex. -/
def World.flushPages (w : World τ) : World τ := (w.lock sb).unlock sb

/-- `do_file_flush` -/
def doFileFlush (n : Node) (stack : Bytes) (w : World τ) : Except Errno Unit × World τ :=
  if sb.fcacheSize ≠ 0 then
    let (result, s) := fcacheFileSync sb.fops (w.file n stack) (w.slot n.inode)
    let w := w.putSlot n.inode s
    match result with
    | .error e => (.error e, w)
    | .ok _ => (.ok (), w.flushPages sb)
  else (.ok (), w)

/-- The last part of `shfs_file_release`. -/
def World.unsetWrite (n : Node) (stack : Bytes) (w : World τ) : World τ :=
  match w.inodes[n.inode]? with
  | none => w
  | some v =>
    if v.unsetWriteOnClose then
      let mode := v.stat.mode &&& ~~~S_IWUSR
      (w.named n.dentry stack fun name =>
        World.ifOk (w.send sb.host.status (shellChmod · mode) name) fun _ w =>
          (.ok (), w.update n.inode fun v => { v with stat := { v.stat with mode := mode } })).2
    else w

/-- `shfs_file_release`; its result is 0. -/
def shfsFileRelease (n : Node) (cacheStack stack : Bytes) (w : World τ) : World τ :=
  let w := if sb.fcacheSize ≠ 0 then
      let (result, s) := fcacheFileClose sb.fops (w.file n cacheStack) (w.slot n.inode)
      let w := w.putSlot n.inode s
      match result with
      | .error _ => w
      | .ok _ => w.flushPages sb
    else w
  w.unsetWrite sb n stack

/-- The variables of `shfs_file_readpage`. -/
structure Paging (τ : Type) : Type where
  offset : ℕ
  count : ℕ
  world : World τ

/-- The read of a round. Its offset is handed on as an `unsigned`. -/
def Paging.read (fuel : ℕ) (n : Node) (stack : Bytes) (mem : Memory) (v : Paging τ) :
    Option (Except Errno Bytes × World τ) :=
  if sb.fcacheSize ≠ 0 then
    (fcacheFileRead sb.fops sb.fcacheSize fuel mem (v.world.file n stack) (v.offset % 2 ^ 32)
        v.count (v.world.slot n.inode)).map fun (result, s) => (result, v.world.putSlot n.inode s)
  else
    some (v.world.named n.dentry stack fun name =>
      let r := sb.fops.read name (v.offset % 2 ^ 32) v.count 0 v.world.far
      (r.result, { v.world with far := r.remote }))

/-- A round of its loop; a round without octets is the last one. -/
def Paging.round (fuel : ℕ) (n : Node) (stack : Bytes) (mem : Memory) (v : Paging τ) :
    (Option (Except Errno Unit) × World τ) ⊕ Paging τ :=
  match v.read sb fuel n stack mem with
  | none => .inl (none, v.world)
  | some (.error e, w) => .inl (some (.error e), w)
  | some (.ok data, w) =>
    if data = [] then .inl (some (.ok ()), w)
    else .inr ⟨v.offset + data.length, v.count - data.length, w⟩

/-- `shfs_file_readpage`; no result is a call that has used up its `fuel`. -/
def shfsFileReadpage (fuel : ℕ) (n : Node) (stack : Bytes) (mem : Memory) (index : ℕ)
    (w : World τ) : Option (Except Errno Unit × World τ) :=
  let w := w.lock sb
  match loop (fun v => decide (v.count ≠ 0)) (Paging.round sb fuel n stack mem) fuel
      ⟨index * PAGE_SIZE, PAGE_SIZE, w⟩ with
  | none | some (.inl (none, _)) => none
  | some (.inl (some result, w)) => some (result, w.unlock sb)
  | some (.inr v) => some (.ok (), v.world.unlock sb)

/-- `shfs_slow_read`: the octets that are copied to the user. The position is handed on as an
`unsigned`. -/
def shfsSlowRead (n : Node) (stack : Bytes) (page : Bool) (count offset : ℕ) (w : World τ) :
    Except Errno Bytes × World τ :=
  let w := w.lock sb
  let (result, w) : Except Errno Bytes × World τ :=
    if !page then (.error .enomem, w)
    else
      w.named n.dentry stack fun name =>
        let ino := ((w.inodes[n.inode]?).map VInode.ino).getD 0
        let count := if count > PAGE_SIZE then PAGE_SIZE else count
        let r := sb.fops.read name (offset % 2 ^ 32) count ino w.far
        (r.result, { w with far := r.remote })
  (result, w.unlock sb)

/-- `shfs_slow_write`, when `do_sync_write` has returned `written`. -/
def shfsSlowWrite (n : Node) (stack : Bytes) (written : Except Errno ℕ) (w : World τ) :
    Except Errno ℕ × World τ :=
  match written with
  | .error e => (.error e, w)
  | .ok 0 => (.ok 0, w)
  | .ok k => World.ifOk (doFileFlush sb n stack w) fun _ w => (.ok k, w)

/-! ## Symbolic links -/

/-- `info->fops.readlink`, into a buffer that holds `realName`: the result, and the buffer. -/
def World.readlink (name realName : Bytes) (w : World τ) : Except Errno Unit × Bytes × World τ :=
  match w.send (fun c t => let (a, t) := sb.host.link c t; (.ok a, t))
      (shellReadlinkCmd · realName) name with
  | (.error e, w) => (.error e, realName, w)
  | (.ok a, w) => (a.result, a.copied.getD ((checkPath realName).getD realName), w)

/-- `shfs_readlink`: what `vfs_readlink` gets. -/
def shfsReadlink (d : Dentry) (stack realName : Bytes) (w : World τ) :
    Except Errno Bytes × World τ :=
  w.named d stack fun name =>
    match w.readlink sb name realName with
    | (.error e, _, w) => (.error e, w)
    | (.ok _, realName, w) => (.ok realName, w)

/-- `shfs_follow_link`: what `vfs_follow_link` gets, if it is called. The result of the command is
tested for 0, which is success. -/
def shfsFollowLink (d : Dentry) (stack realName : Bytes) (w : World τ) : Option Bytes × World τ :=
  let (result, name) := getName d stack
  if result < 0 then (none, w)
  else
    match w.readlink sb name realName with
    | (.ok _, _, w) => (none, w)
    | (.error _, realName, w) => (some realName, w)

/-! ## All of them -/

/-- A call of one of the operations, with its arguments. What the kernel decides comes with the
call: the ages of dentries, the contents of stack buffers, the verdicts of `inode_change_ok` and the
results of allocations. A theorem about every list of `VfsOp` is one about every use of the mount.
-/
inductive VfsOp : Type where
  | dirOpen (n : Node) (age : Age) (frame : Frame)
  | readdir (n : Node) (age : Age) (frame : Frame) (how : DirRead)
  | lookup (d : Dentry) (frame : Frame) (new : NewInode)
  | dRevalidate (n : Node) (positive old : Bool) (age : Age) (frame : Frame)
  | mkdir (d : Dentry) (stack : Bytes) (frame : Frame) (new : NewInode)
  | create (d : Dentry) (stack : Bytes) (mode : UInt16) (frame : Frame) (new : NewInode)
  | rmdir (d : Dentry) (unhashed : Bool) (stack : Bytes)
  | rename (oldDentry newDentry : Dentry) (oldStack newStack : Bytes)
  | unlink (d : Dentry) (stack : Bytes)
  | link (oldDentry newDentry : Dentry) (oldStack newStack : Bytes) (frame : Frame)
      (inode : NewInode)
  | symlink (d : Dentry) (oldname stack : Bytes) (frame : Frame) (inode : NewInode)
  | setattr (verdicts : Verdicts) (n : Node) (stack : Bytes) (attr : Iattr)
  | getattr (n : Node) (age : Age) (frame : Frame)
  | statfs
  | putSuper
  | open (n : Node) (stack : Bytes) (mode : AccMode) (mem : Memory)
  | flush (n : Node) (stack : Bytes)
  | release (n : Node) (cacheStack stack : Bytes)
  | readpage (n : Node) (stack : Bytes) (mem : Memory) (index : ℕ)
  | slowRead (n : Node) (stack : Bytes) (page : Bool) (count offset : ℕ)
  | slowWrite (n : Node) (stack : Bytes) (written : Except Errno ℕ)
  | readlink (d : Dentry) (stack realName : Bytes)
  | followLink (d : Dentry) (stack realName : Bytes)

/-- The state after an operation. Only `shfs_file_readpage` has a loop whose rounds are counted, so
it is the only one that may have no result. -/
def VfsOp.run (fuel : ℕ) (w : World τ) : VfsOp → Option (World τ)
  | dirOpen n age frame => some (shfsDirOpen sb n age frame w).2
  | readdir n age frame how => some (shfsReaddir sb n age frame how w).2
  | lookup d frame new => some (shfsLookup sb d frame new w).2
  | dRevalidate n positive old age frame => some (shfsDRevalidate sb n positive old age frame w).2
  | mkdir d stack frame new => some (shfsMkdir sb d stack frame new w).2
  | create d stack mode frame new => some (shfsCreate sb d stack mode frame new w).2
  | rmdir d unhashed stack => some (shfsRmdir sb d unhashed stack w).2
  | rename old new oldStack newStack => some (shfsRename sb old new oldStack newStack w).2
  | unlink d stack => some (shfsUnlink sb d stack w).2
  | link old new oldStack newStack frame inode =>
    some (shfsLink sb old new oldStack newStack frame inode w).2
  | symlink d oldname stack frame inode => some (shfsSymlink sb d oldname stack frame inode w).2
  | setattr verdicts n stack attr => some (w.setattr sb verdicts n stack attr).2
  | getattr n age frame => some (shfsGetattr sb n age frame w).2
  | statfs => some (shfsStatfs sb w).2
  | putSuper => some (shfsPutSuper sb w)
  | .open n stack mode mem => some (shfsFileOpen sb n stack mode mem w).2
  | flush n stack => some (doFileFlush sb n stack w).2
  | release n cacheStack stack => some (shfsFileRelease sb n cacheStack stack w)
  | readpage n stack mem index => (shfsFileReadpage sb fuel n stack mem index w).map Prod.snd
  | slowRead n stack page count offset => some (shfsSlowRead sb n stack page count offset w).2
  | slowWrite n stack written => some (shfsSlowWrite sb n stack written w).2
  | readlink d stack realName => some (shfsReadlink sb d stack realName w).2
  | followLink d stack realName => some (shfsFollowLink sb d stack realName w).2

end Operations

/-! ### Arguments for examples -/

/-- A server that answers nothing but errors. -/
def deafHost : Host Unit where
  data _ t := (.error .eio, t)
  status _ t := (.error .eio, t)
  listing _ t := (.error .eio, t)
  link _ t := (⟨none, .error .eio⟩, t)
  mutexLock t := t
  mutexUnlock t := t

/-- `/a`, which has inode 7. -/
def nodeA : Node := ⟨.child .root (ascii "a"), 0⟩

/-- The variables of a call that does not use them. -/
def blankFrame : Frame := ⟨[], ⟨0, 0, 0, 0, 0, 0, 0, 0, 0⟩⟩

end Shfs
