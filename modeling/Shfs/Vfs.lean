import Shfs.SameFile
import Shfs.Attributes

/-!
# Inodes and the other side

The operations that the module installs in the tables of the kernel work on inodes and send
commands. `World` holds both: the inodes in the order in which `shfs_iget` has built them, the free
slots of the file cache, and the far side with the commands it has been sent. A `Host` is a server
together with what `mutex_lock` and `mutex_unlock` do to the thread, so that the operations can be
run with any meaning of the two.

Time, memory and the caches of the kernel are inputs of the operations; so is what an uninitialised
local variable holds, which matters where a failed check does not stop a function. A stat that ends
well without an entry leaves such a variable as it was (`readStat`).
-/

namespace Shfs

open Lib

/-! ## The server -/

/-- The lines of a listing, as `sock_readln` hands them over, until it fails with `lost`. -/
structure Listing : Type where
  lines : List Bytes
  /-- what is in `sockbuf` behind the end of a line -/
  residue : Bytes → Bytes
  lost : Errno

/-- What `shell_readlink` gets: the text that it has copied to `real_name` by the time it returns,
and its result. -/
structure LinkAnswer : Type where
  copied : Option Bytes
  result : Except Errno Unit

/-- A server, and the mutex. The answers are arbitrary functions of the command and of a state that
they may change, so every server is one of these. `mutexLock` and `mutexUnlock` are what the
operations do around their commands. -/
structure Host (τ : Type) : Type extends Remote τ where
  listing : Cmd → τ → Except Errno Listing × τ
  link : Cmd → τ → LinkAnswer × τ
  mutexLock : τ → τ
  mutexUnlock : τ → τ

/-- What the operations read of the super block: the server behind it, the options and the mask of
the mount, the size of the buffers, and what `do_ls` takes from the clock. Nothing of it changes
while the mount lasts. -/
structure SuperBlock (τ : Type) : Type where
  host : Host τ
  info : MountOpts
  fmask : UInt16
  fcacheSize : ℕ
  clock : Clock

/-- The words of `do_ls` behind its credentials. -/
def doLsCmd (stat : Bool) (file : Bytes) : Option Cmd :=
  onPath file fun file => ⟨if stat then ascii "s_stat" else ascii "s_lsdir", squoted file⟩

/-- The words of `shell_readlink`; `real_name` goes through `check_path` as well. -/
def shellReadlinkCmd (name realName : Bytes) : Option Cmd :=
  onPaths name realName fun name _ => ⟨ascii "s_readlink", squoted name⟩

/-- The words of `shell_statfs`. -/
def shellStatfsCmd : Option Cmd := some ⟨ascii "s_statfs", []⟩

/-- The loop of `do_ls` for a stat: the last entry, or what `fattr` holds if there is none. -/
def readStat (fmask : UInt16) (clock : Clock) (fattr : Fattr) (l : Listing) : Except Errno Fattr :=
  let (result, fattr) := lsLoop
    (fun fattr s => (((lsEntry fmask clock (s ++ 0 :: l.residue s)).map Prod.snd).getD fattr, true))
    l.lost l.lines fattr
  result.map fun _ => fattr

/-! ## Inodes -/

/-- The operation tables that `shfs_iget` chooses between. -/
inductive Tables : Type where
  | dir
  | symlink
  | file
  | none
  deriving DecidableEq, Repr

/-- The tables for a mode. -/
def tablesOf (mode : UInt16) : Tables :=
  if mode &&& S_IFMT = S_IFDIR then .dir
  else if mode &&& S_IFMT = S_IFLNK then .symlink
  else if mode &&& S_IFMT = S_IFREG ∨ mode &&& S_IFMT = S_IFBLK ∨ mode &&& S_IFMT = S_IFCHR then
    .file
  else .none

/-- An inode, with its `shfs_inode_info`. -/
structure VInode : Type where
  ino : ℕ
  stat : Stat
  tables : Tables
  /-- `is_bad_inode` -/
  bad : Bool
  unsetWriteOnClose : Bool
  cache : Option FCache
  deriving DecidableEq, Repr

/-- The inode, as the functions of the file cache look at it. -/
def VInode.inode (v : VInode) : Inode := ⟨v.ino, v.stat.mode &&& S_IFMT = S_IFDIR, true⟩

/-- `shfs_set_inode_attr`, with the call of `fcache_file_clear`. -/
def VInode.setAttr (info : MountOpts) (fattr : Fattr) (v : VInode) : VInode :=
  let new := { v with stat := shfsSetInodeAttr info fattr }
  if new.stat.mtime ≠ v.stat.mtime ∨ new.stat.size ≠ v.stat.size then
    { new with
      cache :=
        (fcacheFileClear ⟨.root, some new.inode, []⟩ (⟨v.cache, 0, ()⟩ : Slot Unit)).2.cache }
  else new

/-- What the operations change: the table of inodes, in which an inode is known by its position, the
number of buffers that may still be had, and the far side with the commands it has been sent. -/
structure World (τ : Type) : Type where
  inodes : List VInode
  free : ℤ
  far : Far τ

/-- A dentry, and its inode by its position in the table. -/
structure Node : Type where
  dentry : Dentry
  inode : ℕ

/-- What the local variables `name` and `fattr` of a call hold before they are assigned. -/
structure Frame : Type where
  name : Bytes
  fattr : Fattr

namespace World

variable {τ : Type} (sb : SuperBlock τ)

/-- A change of one inode. -/
def update (w : World τ) (i : ℕ) (f : VInode → VInode) : World τ :=
  { w with inodes := w.inodes.modify i f }

/-- `mutex_lock` -/
def lock (w : World τ) : World τ :=
    { w with far := { w.far with server := sb.host.mutexLock w.far.server } }

/-- `mutex_unlock` -/
def unlock (w : World τ) : World τ :=
  { w with far := { w.far with server := sb.host.mutexUnlock w.far.server } }

/-- A command of `info->fops`. -/
def send {ρ : Type} (answer : Cmd → τ → Except Errno ρ × τ) (b : Bytes → Option Cmd) (name : Bytes)
    (w : World τ) : Except Errno ρ × World τ :=
  let r := issue answer b name w.far
  (r.result, { w with far := r.remote })

/-- `if (get_name(dentry, name) < 0) return -ENAMETOOLONG`, and what follows. -/
def named {ρ : Type} (d : Dentry) (stack : Bytes) (w : World τ)
    (k : Bytes → Except Errno ρ × World τ) : Except Errno ρ × World τ :=
  let (result, name) := getName d stack
  if result < 0 then (.error .enametoolong, w) else k name

/-- `if (result < 0) return result`, and what follows. -/
def ifOk {ρ ρ' : Type} (r : Except Errno ρ × World τ)
    (k : ρ → World τ → Except Errno ρ' × World τ) : Except Errno ρ' × World τ :=
  match r with
  | (.error e, w) => (.error e, w)
  | (.ok x, w) => k x w

end World

section Functions

variable {τ : Type} (sb : SuperBlock τ)

/-- `shell_stat` -/
def shellStat (name : Bytes) (fattr : Fattr) (w : World τ) : Except Errno Fattr × World τ :=
  w.send (fun c t =>
    let (l, t) := sb.host.listing c t
    (l.bind (readStat sb.fmask sb.clock fattr), t)) (doLsCmd true) name

/-- `shfs_iget`: the inode, if there is memory for it. -/
def shfsIget (ino : ℕ) (memory : Bool) (fattr : Fattr) (w : World τ) : Option ℕ × World τ :=
  if memory then
    (some w.inodes.length, { w with inodes := w.inodes ++
      [⟨ino, shfsSetInodeAttr sb.info fattr, tablesOf fattr.mode, false, false, none⟩] })
  else (none, w)

/-! ## Revalidation -/

/-- `shfs_refresh_inode` -/
def shfsRefreshInode (n : Node) (frame : Frame) (w : World τ) : Except Errno Unit × World τ :=
  match w.inodes[n.inode]? with
  | none => (.ok (), w)
  | some v =>
    if v.ino = 2 then (.ok (), w)
    else
      w.named n.dentry frame.name fun name =>
        World.ifOk (shellStat sb name frame.fattr w) fun fattr w =>
          if v.stat.mode &&& S_IFMT = S_IFLNK then (.ok (), w)
          else if v.stat.mode &&& S_IFMT = fattr.mode &&& S_IFMT then
            (.ok (), w.update n.inode (·.setAttr sb.info fattr))
          else -- the mode is saved over `make_bad_inode`
            (.error .eio, w.update n.inode fun v => { v with bad := true })

/-- What `shfs_revalidate_inode` finds out on its way: is the magic number right, and is it too
early to ask again? -/
structure Age : Type where
  magic : Bool
  fresh : Bool
  deriving DecidableEq, Repr

/-- `shfs_revalidate_inode` -/
def shfsRevalidateInode (n : Node) (age : Age) (frame : Frame) (w : World τ) :
    Except Errno Unit × World τ :=
  let w := w.lock sb
  let bad := (w.inodes[n.inode]?).any VInode.bad
  let (result, w) := if bad || !age.magic || age.fresh then (.ok (), w)
    else shfsRefreshInode sb n frame w
  (result, w.unlock sb)

end Functions

end Shfs
