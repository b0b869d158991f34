import Shfs.FileCache
import Shfs.Command

/-!
# `shfs_notify_change`

The handler of `setattr` (proc.c): one remote command for every attribute that is to change, in a
fixed order, until one fails. All of them get the same path buffer, and the inode takes over what
has succeeded. The commands are parameters (`Aops`), and so are the verdicts of the kernel
functions that check the request (`Verdicts`).
-/

namespace Shfs

open Lib

/-- The commands of `info->fops` that change attributes. -/
structure Aops (σ : Type) : Type where
  chmod : Bytes → UInt16 → σ → Done ℕ σ
  chown : Bytes → UInt32 → σ → Done ℕ σ
  chgrp : Bytes → UInt32 → σ → Done ℕ σ
  trunc : Bytes → UInt64 → σ → Done ℕ σ
  settime : Bytes → TimeSet → ℤ → σ → Done ℕ σ

/-- `struct timespec` -/
structure Timespec : Type where
  sec : ℤ
  nsec : ℤ
  deriving DecidableEq, Repr

/-- The bits of `ia_valid` the handler looks at. -/
structure Valid : Type where
  mode : Bool
  uid : Bool
  gid : Bool
  size : Bool
  atime : Bool
  mtime : Bool
  deriving DecidableEq, Repr

/-- `struct iattr` -/
structure Iattr : Type where
  valid : Valid
  mode : UInt16
  uid : UInt32
  gid : UInt32
  size : UInt64
  atime : Timespec
  mtime : Timespec
  deriving DecidableEq, Repr

/-- The attributes in the inode. -/
structure Stat : Type where
  mode : UInt16
  uid : UInt32
  gid : UInt32
  size : UInt64
  atime : Timespec
  mtime : Timespec
  deriving DecidableEq, Repr

/-- What the handler reads of `shfs_sb_info`. -/
structure MountOpts : Type where
  readonly : Bool
  preserveOwn : Bool
  uid : UInt32
  gid : UInt32
  deriving DecidableEq, Repr

/-- What `inode_change_ok` and `inode_newsize_ok` say. -/
structure Verdicts : Type where
  change : Except Errno Unit
  newsize : Except Errno Unit

/-- `-EROFS` -/
abbrev Errno.erofs : Errno := .other 30

/-- The state between two commands; `result` is the last one's, and a negative one skips the
rest. -/
structure Change (σ : Type) : Type where
  result : Except Errno ℕ
  name : Bytes
  inode : Stat
  remote : σ

section Notify

variable {σ : Type}

/-- One command, if it is `asked` for, and what the inode takes over after it. -/
def Change.set (asked : Bool) (op : Bytes → σ → Done ℕ σ) (take : Stat → Stat) (v : Change σ) :
    Change σ :=
  match v.result with
  | .error _ => v -- `goto error`
  | .ok _ =>
    if asked then
      let r := op v.name v.remote
      match r.result with
      | .error e => ⟨.error e, r.name, v.inode, r.remote⟩
      | .ok n => ⟨.ok n, r.name, take v.inode, r.remote⟩
    else v

/-- The check between the truncation on the remote side and that of the inode. -/
def Change.newsize (asked : Bool) (verdict : Except Errno Unit) (take : Stat → Stat)
    (v : Change σ) : Change σ :=
  match v.result with
  | .error _ => v
  | .ok _ =>
    if asked then
      match verdict with
      | .error e => { v with result := .error e }
      | .ok _ => { v with result := .ok 0, inode := take v.inode }
    else v

/-- Are both times to be set, to the same value? -/
def Iattr.sameTimes (attr : Iattr) : Bool :=
  attr.valid.atime && attr.valid.mtime && attr.atime.sec == attr.mtime.sec &&
    attr.atime.nsec == attr.mtime.nsec

variable (aops : Aops σ)

/-- The commands of the handler, in their order: mode, owner, group, size and times. Each is sent
only if those in front of it have succeeded, and what the inode takes over is not undone when a
later one fails. -/
def Change.run (info : MountOpts) (verdicts : Verdicts) (attr : Iattr) (v : Change σ) : Change σ :=
  let v := v.set attr.valid.mode (aops.chmod · attr.mode) fun i => { i with mode := attr.mode }
  let v := v.set attr.valid.uid (aops.chown · attr.uid) fun i =>
    { i with uid := if info.preserveOwn then info.uid else attr.uid }
  let v := v.set attr.valid.gid (aops.chgrp · attr.gid) fun i =>
    { i with gid := if info.preserveOwn then info.gid else attr.gid }
  let v := v.set attr.valid.size (aops.trunc · attr.size) id
  let v := v.newsize attr.valid.size verdicts.newsize fun i => { i with size := attr.size }
  if attr.sameTimes then
    v.set true (aops.settime · .both attr.atime.sec) fun i =>
      { i with atime := attr.atime, mtime := attr.mtime }
  else
    let v := v.set attr.valid.atime (aops.settime · .atime attr.atime.sec) fun i =>
      { i with atime := attr.atime }
    v.set attr.valid.mtime (aops.settime · .mtime attr.mtime.sec) fun i =>
      { i with mtime := attr.mtime }

/-- `shfs_notify_change`, for a path buffer that holds `stack` before: the result, the attributes of
the inode, and the remote side. The verdicts are those of the kernel's own checks, before the
commands and for the new size. -/
def shfsNotifyChange (info : MountOpts) (verdicts : Verdicts) (d : Dentry) (stack : Bytes)
    (attr : Iattr) (inode : Stat) (s : σ) : Except Errno ℕ × Stat × σ :=
  let (result, name) := getName d stack
  if result < 0 then (.error .enametoolong, inode, s)
  else
    match verdicts.change with
    | .error e => (.error e, inode, s)
    | .ok _ =>
      if info.readonly then (.error .erofs, inode, s)
      else
        let v := Change.run aops info verdicts attr ⟨.ok 0, name, inode, s⟩
        (v.result, v.inode, v.remote)

/-! ## The commands as a list -/

/-- A command of the handler. -/
inductive AttrCmd : Type where
  | chmod
  | chown
  | chgrp
  | trunc
  | settime (which : TimeSet)
  deriving DecidableEq, Repr

/-- The commands a request asks for, in their order. -/
def Iattr.asks (attr : Iattr) : List AttrCmd :=
  (if attr.valid.mode then [.chmod] else []) ++ (if attr.valid.uid then [.chown] else []) ++
    (if attr.valid.gid then [.chgrp] else []) ++ (if attr.valid.size then [.trunc] else []) ++
    if attr.sameTimes then [.settime .both]
    else (if attr.valid.atime then [.settime .atime] else []) ++
      if attr.valid.mtime then [.settime .mtime] else []

/-- The remote command. -/
def AttrCmd.op (aops : Aops σ) (attr : Iattr) : AttrCmd → Bytes → σ → Done ℕ σ
  | chmod, name => aops.chmod name attr.mode
  | chown, name => aops.chown name attr.uid
  | chgrp, name => aops.chgrp name attr.gid
  | trunc, name => aops.trunc name attr.size
  | settime .both, name => aops.settime name .both attr.atime.sec
  | settime .atime, name => aops.settime name .atime attr.atime.sec
  | settime .mtime, name => aops.settime name .mtime attr.mtime.sec

/-- What the inode takes over. -/
def AttrCmd.take (info : MountOpts) (attr : Iattr) (i : Stat) : AttrCmd → Stat
  | chmod => { i with mode := attr.mode }
  | chown => { i with uid := if info.preserveOwn then info.uid else attr.uid }
  | chgrp => { i with gid := if info.preserveOwn then info.gid else attr.gid }
  | trunc => { i with size := attr.size }
  | settime .both => { i with atime := attr.atime, mtime := attr.mtime }
  | settime .atime => { i with atime := attr.atime }
  | settime .mtime => { i with mtime := attr.mtime }

/-- The verdict after a command that has succeeded. -/
def AttrCmd.verdict (verdicts : Verdicts) (n : ℕ) : AttrCmd → Except Errno ℕ
  | trunc => verdicts.newsize.map fun _ => 0
  | _ => .ok n

/-- One command of the list. -/
def Change.step (info : MountOpts) (verdicts : Verdicts) (attr : Iattr) (v : Change σ)
    (a : AttrCmd) : Change σ :=
  match v.result with
  | .error _ => v
  | .ok _ =>
    let r := a.op aops attr v.name v.remote
    match r.result with
    | .error e => ⟨.error e, r.name, v.inode, r.remote⟩
    | .ok n =>
      match a.verdict verdicts n with
      | .error e => ⟨.error e, r.name, v.inode, r.remote⟩
      | .ok n => ⟨.ok n, r.name, a.take info attr v.inode, r.remote⟩

variable {aops} {info : MountOpts} {verdicts : Verdicts} {attr : Iattr}

theorem Change.set_false (op : Bytes → σ → Done ℕ σ) (take : Stat → Stat) (v : Change σ) :
    v.set false op take = v := by
  unfold Change.set
  split <;> rfl

/-- A command that is not the truncation, as a step. -/
theorem Change.set_eq {a : AttrCmd} (ha : a ≠ .trunc) (asked : Bool) (v : Change σ) :
    (if asked then [a] else []).foldl (Change.step aops info verdicts attr) v =
      v.set asked (a.op aops attr) (a.take info attr ·) := by
  have hverdict : ∀ n, a.verdict verdicts n = .ok n := fun n => by
    cases a with
    | trunc => exact absurd rfl ha
    | _ => rfl
  cases asked with
  | false => exact (v.set_false _ _).symm
  | true =>
    unfold Change.set
    simp only [if_true, List.foldl_cons, List.foldl_nil, Change.step, hverdict]

theorem Change.trunc_eq (asked : Bool) (v : Change σ) :
    (if asked then [.trunc] else []).foldl (Change.step aops info verdicts attr) v =
      (v.set asked (aops.trunc · attr.size) id).newsize asked verdicts.newsize
        (fun i => { i with size := attr.size }) := by
  cases asked with
  | false =>
    rw [v.set_false]
    obtain ⟨result, name, inode, remote⟩ := v
    cases result <;> rfl
  | true =>
    obtain ⟨result, name, inode, remote⟩ := v
    cases result with
    | error e => rfl
    | ok n =>
      simp only [Change.set, if_true, List.foldl_cons, List.foldl_nil, Change.step, AttrCmd.op]
      cases (aops.trunc name attr.size remote).result with
      | error e => rfl
      | ok m =>
        simp only [Change.newsize, if_true, AttrCmd.verdict, id_eq]
        cases verdicts.newsize <;> rfl

/-- **The handler runs the commands of the list** until one fails. -/
theorem Change.run_eq (v : Change σ) :
    Change.run aops info verdicts attr v =
      attr.asks.foldl (Change.step aops info verdicts attr) v := by
  unfold Change.run Iattr.asks
  simp only [List.foldl_append]
  rw [Change.set_eq (a := .chmod) (by decide), Change.set_eq (a := .chown) (by decide),
    Change.set_eq (a := .chgrp) (by decide), Change.trunc_eq]
  split
  · rw [show [AttrCmd.settime .both] = if true then [AttrCmd.settime .both] else [] from rfl,
      Change.set_eq (a := .settime .both) (by decide)]
    rfl
  · rw [List.foldl_append, Change.set_eq (a := .settime .atime) (by decide),
      Change.set_eq (a := .settime .mtime) (by decide)]
    rfl

/-- A failure is final. -/
theorem Change.foldl_failed {v : Change σ} {e : Errno} (h : v.result = .error e)
    (l : List AttrCmd) :
    l.foldl (Change.step aops info verdicts attr) v = v := by
  induction l with
  | nil => rfl
  | cons a l ih =>
    have : Change.step aops info verdicts attr v a = v := by
      unfold Change.step
      rw [h]
    rw [List.foldl_cons, this, ih]

variable (aops info verdicts attr) in
/-- One command: what it leaves, and whether it fails. -/
theorem Change.step_ok {v : Change σ} {m : ℕ} (h : v.result = .ok m) (a : AttrCmd) :
    (Change.step aops info verdicts attr v a).name = (a.op aops attr v.name v.remote).name ∧
      (Change.step aops info verdicts attr v a).remote = (a.op aops attr v.name v.remote).remote ∧
      ((∃ e, (Change.step aops info verdicts attr v a).result = .error e) ↔
        match (a.op aops attr v.name v.remote).result with
        | .error _ => True
        | .ok n => ∃ e, a.verdict verdicts n = .error e) := by
  unfold Change.step
  rw [h]
  dsimp only
  cases hr : (a.op aops attr v.name v.remote).result with
  | error e => exact ⟨rfl, rfl, fun _ => trivial, fun _ => ⟨e, rfl⟩⟩
  | ok n =>
    dsimp only
    cases ha : a.verdict verdicts n with
    | error e => exact ⟨rfl, rfl, fun _ => ⟨e, rfl⟩, fun _ => ⟨e, rfl⟩⟩
    | ok k => exact ⟨rfl, rfl, fun ⟨e, he⟩ => (nomatch he), fun ⟨e, he⟩ => (nomatch he)⟩

/-- The handler behind `get_name`, which never reports a path that is too long. -/
theorem shfsNotifyChange_eq (d : Dentry) (stack : Bytes) (inode : Stat) (s : σ) :
    shfsNotifyChange aops info verdicts d stack attr inode s =
      match verdicts.change with
      | .error e => (.error e, inode, s)
      | .ok _ =>
        if info.readonly then (.error .erofs, inode, s)
        else
          let v := attr.asks.foldl (Change.step aops info verdicts attr)
            ⟨.ok 0, (getName d stack).2, inode, s⟩
          (v.result, v.inode, v.remote) := by
  unfold shfsNotifyChange
  dsimp only
  rw [if_neg (getName_nonneg d stack), Change.run_eq]

end Notify

end Shfs
