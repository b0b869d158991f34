import Shfs.Time

/-!
# Building command lines in `sockbuf`

Every client function of shell.c assembles its command in the `SOCKBUF_SIZE` octets of
`info->sockbuf` before anything goes to the socket: the command word, what `get_ugid` adds for
`preserve`, and the arguments. `Sockbuf` is that buffer as the builders use it, the string from
its start together with the highest octet written so far, so that a write behind the end is
visible. A builder returns the buffer and what it hands to `sock_write`; no line at all is the
`-ENAMETOOLONG` exit, taken before the first octet is sent.

There are two ways to bound the arguments. `do_command`, `do_ls` and `shell_readlink` compare the
length with the buffer and refuse; `shell_read` and `shell_write` only look at the sign of
`snprintf`'s result, and `shell_statfs` does not look at all.
-/

namespace Shfs

open Lib

/-- `SOCKBUF_SIZE` (shfs_fs.h). -/
abbrev SOCKBUF_SIZE : ℕ := SHFS_PATH_MAX * 10

/-- What `current_cred()` says about the caller. -/
structure Cred : Type where
  uid : UInt32
  groups : List UInt32
  deriving DecidableEq, Repr

/-- `%d` on a 32-bit unsigned argument: numbers from 2^31 on print as negative ones. -/
def fmtD (x : UInt32) : Bytes :=
  if x.toNat < 2 ^ 31 then dec x.toNat else ascii "-" ++ dec (2 ^ 32 - x.toNat)

/-- `'%s'` -/
def squoted (s : Bytes) : Bytes := apos :: s ++ [apos]

/-! ## The buffer -/

/-- A buffer in which a string is being built. -/
structure Sockbuf : Type where
  /-- the string from the start of the buffer up to its terminator -/
  str : Bytes
  /-- one past the highest octet written so far -/
  top : ℕ
  deriving DecidableEq, Repr

namespace Sockbuf

/-- `strcpy` to position `p` of the string. -/
def strcpy (b : Sockbuf) (p : ℕ) (s : Bytes) : Sockbuf :=
  ⟨b.str.take p ++ s, max b.top (p + s.length + 1)⟩

/-- `snprintf` to position `p` with the bound `n`: at most `n - 1` octets and the terminator. -/
def snprintf (b : Sockbuf) (p n : ℕ) (s : Bytes) : Sockbuf :=
  if n = 0 then b else b.strcpy p (s.take (n - 1))

/-- Copying to the end of the string appends. -/
theorem strcpy_end (b : Sockbuf) {p : ℕ} (hp : p = b.str.length) (s : Bytes) :
    b.strcpy p s = ⟨b.str ++ s, max b.top (p + s.length + 1)⟩ := by
  subst hp
  simp [strcpy]

end Sockbuf

/-- What a builder leaves behind: the buffer, and the octets handed to `sock_write` (`none` where
it returned `-ENAMETOOLONG` before that). -/
structure Built : Type where
  buf : Sockbuf
  line : Option Bytes
  deriving DecidableEq, Repr

/-! ## `get_ugid` -/

/-- The loop over the groups. `str` is where the function started to write, `s` the write
pointer; `none` is the result NULL. -/
def getUgidGroups (str max : ℕ) (b : Sockbuf) (s : ℕ) : List UInt32 → Sockbuf × Option ℕ
  | [] => (b, some s)
  | g :: gs =>
    let buffer := fmtD g ++ [sp]
    if s - str + buffer.length + 2 > max then (b, none)
    else getUgidGroups str max (b.strcpy s buffer) (s + buffer.length) gs

/-- `get_ugid`: write at `str`, with room for `max` octets. The last step goes back over the space
behind the last group to close the quote — when there is no group it is the opening quote that is
there. -/
def getUgid (preserveOwn : Bool) (cred : Cred) (b : Sockbuf) (str max : ℕ) :
    Sockbuf × Option ℕ :=
  if max < 2 then (b, none)
  else
    let b := b.strcpy str [sp]
    let s := str + 1
    if preserveOwn then
      let buffer := fmtD cred.uid ++ [sp, apos]
      if s - str + buffer.length + 1 > max then (b, none)
      else
        match getUgidGroups str max (b.strcpy s buffer) (s + buffer.length) cred.groups with
        | (b, none) => (b, none)
        | (b, some s) => (b.strcpy (s - 1) [apos, sp], some (s + 1))
    else (b, some s)

/-! ## The builders -/

section Builders

variable (preserveOwn : Bool) (cred : Cred)

/-- The command word and `get_ugid`, which every builder starts with. -/
def startLine (cmd : Bytes) : Sockbuf × Option ℕ :=
  getUgid preserveOwn cred ((⟨[], 0⟩ : Sockbuf).strcpy 0 cmd) cmd.length (SOCKBUF_SIZE - cmd.length)

/-- `do_command` up to `sock_write`; `args` is what `vsnprintf` makes of its arguments. -/
def doCommandLine (cmd args : Bytes) : Built :=
  match startLine preserveOwn cred cmd with
  | (b, none) => ⟨b, none⟩
  | (b, some s) =>
    let b := b.snprintf s (SOCKBUF_SIZE - s) args
    if b.str.length + 2 > SOCKBUF_SIZE then ⟨b, none⟩
    else
      let b := b.strcpy (s + args.length) [nl]
      ⟨b, some b.str⟩

/-- `do_ls` and `shell_readlink` up to `sock_write`: one path, copied with `strcpy`. -/
def pathLine (cmd file : Bytes) : Built :=
  match startLine preserveOwn cred cmd with
  | (b, none) => ⟨b, none⟩
  | (b, some s) =>
    if s + file.length + 4 > SOCKBUF_SIZE then ⟨b, none⟩
    else
      let b := b.strcpy s [apos]
      let b := b.strcpy (s + 1) file
      let b := b.strcpy (s + 1 + file.length) [apos]
      let b := b.strcpy (s + 1 + file.length + 1) [nl]
      ⟨b, some b.str⟩

/-- `shell_read` and `shell_write` up to `sock_write`: one `snprintf` of the whole rest of the
line. Its result is never negative, and it is not compared with the bound. -/
def printLine (cmd rest : Bytes) : Built :=
  match startLine preserveOwn cred cmd with
  | (b, none) => ⟨b, none⟩
  | (b, some s) =>
    let b := b.snprintf s (SOCKBUF_SIZE - s) rest
    ⟨b, some b.str⟩

/-- `do_ls`; `file` is the path after `check_path`. -/
def doLsLine (stat : Bool) (file : Bytes) : Built :=
  pathLine preserveOwn cred (if stat then ascii "s_stat" else ascii "s_lsdir") file

/-- `shell_readlink`. -/
def shellReadlinkLine (name : Bytes) : Built :=
  pathLine preserveOwn cred (ascii "s_readlink") name

/-- The last three words of a read: block size, first block and number of blocks. -/
def readBlocks (offset count : UInt32) : UInt32 × UInt32 × UInt32 :=
  if count ≠ 0 ∧ offset % count = 0 then (count, offset / count, 1) else (1, offset, count)

/-- `shell_read`; `ino` 0 is a normal read, anything else a slow one. -/
def shellReadLine (file : Bytes) (offset count : UInt32) (ino : UInt64) : Built :=
  let (bs, offset2, count2) := readBlocks offset count
  let nums := [offset, count, bs, offset2, count2].map fun x => dec x.toNat
  if ino ≠ 0 then
    printLine preserveOwn cred (ascii "s_sread")
      (joinWith sp (squoted file :: nums ++ [dec ino.toNat]) ++ [nl])
  else
    printLine preserveOwn cred (ascii "s_read") (joinWith sp (squoted file :: nums) ++ [nl])

/-- The block size and the first block of a write. `fcache_size` is not 0 where the file cache is
in use, which is the only place writes come from. -/
def writeBlocks (fcacheSize offset : UInt32) : UInt32 × UInt32 :=
  if offset % fcacheSize = 0 then (fcacheSize, offset / fcacheSize) else (1, offset)

/-- `shell_write`. -/
def shellWriteLine (fcacheSize : UInt32) (file : Bytes) (offset count : UInt32) (ino : UInt64) :
    Built :=
  let (bs, offset2) := writeBlocks fcacheSize offset
  printLine preserveOwn cred (ascii "s_write")
    (joinWith sp (squoted file :: ([offset, count, bs, offset2].map fun x => dec x.toNat) ++
      [dec ino.toNat]) ++ [nl])

/-- `shell_statfs`: the line feed is copied behind whatever `get_ugid` wrote. -/
def shellStatfsLine : Built :=
  match startLine preserveOwn cred (ascii "s_statfs") with
  | (b, none) => ⟨b, none⟩
  | (b, some s) =>
    let b := b.strcpy s [nl]
    ⟨b, some b.str⟩

end Builders

/-! ## The callers of `do_command` -/

/-- The arguments of a call of `do_command`: the command word and the formatted rest. -/
structure Cmd : Type where
  cmd : Bytes
  args : Bytes
  deriving DecidableEq, Repr

/-- Access modes of `open`. -/
inductive AccMode : Type where
  | rdonly
  | wronly
  | rdwr
  deriving DecidableEq, Repr

/-- The calls of a one-path command: `check_path`, then `do_command`. `none` is the exit with
`-ENAMETOOLONG`. -/
def onPath (path : Bytes) (k : Bytes → Cmd) : Option Cmd := (checkPath path).map k

/-- The calls of a two-path command. -/
def onPaths (old new : Bytes) (k : Bytes → Bytes → Cmd) : Option Cmd :=
  (checkPath old).bind fun old => (checkPath new).map fun new => k old new

/-- `shell_open` -/
def shellOpen (file : Bytes) (mode : AccMode) : Option Cmd :=
  onPath file fun file =>
    ⟨ascii "s_open", squoted file ++ [sp] ++
      (match mode with
        | .rdonly => ascii "R"
        | .wronly => ascii "W"
        | .rdwr => ascii "RW")⟩

/-- `shell_mkdir` -/
def shellMkdir (dir : Bytes) : Option Cmd := onPath dir fun dir => ⟨ascii "s_mkdir", squoted dir⟩

/-- `shell_rmdir` -/
def shellRmdir (dir : Bytes) : Option Cmd := onPath dir fun dir => ⟨ascii "s_rmdir", squoted dir⟩

/-- `shell_rename` -/
def shellRename (old new : Bytes) : Option Cmd :=
  onPaths old new fun old new => ⟨ascii "s_mv", squoted old ++ [sp] ++ squoted new⟩

/-- `shell_unlink` -/
def shellUnlink (file : Bytes) : Option Cmd := onPath file fun file => ⟨ascii "s_rm", squoted file⟩

/-- `S_IALLUGO` -/
def S_IALLUGO : UInt32 := 0o7777

/-- `shell_create` -/
def shellCreate (file : Bytes) (mode : UInt32) : Option Cmd :=
  onPath file fun file =>
    ⟨ascii "s_creat", squoted file ++ [sp] ++ oct (mode &&& S_IALLUGO).toNat⟩

/-- `shell_link` -/
def shellLink (old new : Bytes) : Option Cmd :=
  onPaths old new fun old new => ⟨ascii "s_ln", squoted old ++ [sp] ++ squoted new⟩

/-- `shell_symlink` -/
def shellSymlink (old new : Bytes) : Option Cmd :=
  onPaths old new fun old new => ⟨ascii "s_sln", squoted old ++ [sp] ++ squoted new⟩

/-- `shell_chmod`; `umode_t` is 16 bits wide. -/
def shellChmod (file : Bytes) (mode : UInt16) : Option Cmd :=
  onPath file fun file => ⟨ascii "s_chmod", squoted file ++ [sp] ++ oct mode.toNat⟩

/-- `shell_chown` -/
def shellChown (file : Bytes) (user : UInt32) : Option Cmd :=
  onPath file fun file => ⟨ascii "s_chown", squoted file ++ [sp] ++ dec user.toNat⟩

/-- `shell_chgrp` -/
def shellChgrp (file : Bytes) (group : UInt32) : Option Cmd :=
  onPath file fun file => ⟨ascii "s_chgrp", squoted file ++ [sp] ++ dec group.toNat⟩

/-- `shell_trunc`: the size is cut to `unsigned`, and size 0 is sent as block size 1 with seek 0
because `dd` does not like `bs=0`. -/
def shellTrunc (file : Bytes) (size : UInt64) : Option Cmd :=
  let (size, seek) := if size = 0 then ((1 : UInt64), 0) else (size, 1)
  onPath file fun file =>
    ⟨ascii "s_trunc", squoted file ++ [sp] ++ dec size.toUInt32.toNat ++ [sp] ++ dec seek⟩

/-- Which times `shell_settime` sets. -/
inductive TimeSet : Type where
  | both
  | atime
  | mtime
  deriving DecidableEq, Repr

/-- `atime ? "a" : "", mtime ? "m" : ""` -/
def TimeSet.text : TimeSet → Bytes
  | both => ascii "am"
  | atime => ascii "a"
  | mtime => ascii "m"

/-- `shell_settime` -/
def shellSettime (file : Bytes) (which : TimeSet) (tvSec : ℤ) : Option Cmd :=
  onPath file fun file =>
    ⟨ascii "s_settime", squoted file ++ [sp] ++ which.text ++ [sp] ++ strctime tvSec⟩

/-- `shell_finish` -/
def shellFinish : Option Cmd := some ⟨ascii "s_finish", []⟩

end Shfs
