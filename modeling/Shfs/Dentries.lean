import Mathlib.Logic.Function.Basic
import Shfs.Operations

/-!
# Dentries

The functions that change names get dentries from the kernel. What they do to them is little: a new
file gets its inode, and `shfs_rename` gives up a dentry that it is going to replace. That is done
by `d_delete`, which makes the dentry negative if nobody else has it, and takes it out of the hash
table otherwise; and it is done before the remote command.

`Tree` is a `World` with its dentries, and `DirOp` is a call of one of the functions. There are two
results. The tree refines the world: on its `World` a call is the operation of `VfsOp` (`run_world`,
from one lemma of the `world_` family for each of the steps that a call is made of). And `keeps_iff`
says which calls leave all dentries alone when their remote command fails. The ages of dentries are
left to `Ages`.
-/

namespace Shfs

open Lib

/-! ## The tree -/

/-- A dentry of the kernel. -/
structure KDentry : Type where
  /-- `d_parent` and `d_name`, up to the root -/
  place : Dentry
  /-- `d_inode`, by its position in the table -/
  inode : Option ℕ
  /-- not `d_unhashed` -/
  hashed : Bool
  /-- `d_count` -/
  count : ℕ

/-- The functions of the kernel that change a dentry. -/
structure Dcache : Type where
  dDelete : KDentry → KDentry
  dInstantiate : ℕ → KDentry → KDentry

/-- What they are documented to do: `d_delete` turns "the dentry into a negative dentry if
possible", and removes it from the hash queues otherwise. -/
structure Dcache.Documented (dc : Dcache) : Prop where
  unused : ∀ d, d.inode ≠ none → d.count = 1 →
    (dc.dDelete d).inode = none ∧ (dc.dDelete d).hashed = d.hashed
  shared : ∀ d, d.inode ≠ none → d.count ≠ 1 →
    (dc.dDelete d).inode = d.inode ∧ (dc.dDelete d).hashed = false
  filled : ∀ i d, d.inode = none →
    (dc.dInstantiate i d).inode = some i ∧ (dc.dInstantiate i d).hashed = d.hashed

/-- A mount with its dentries. The kernel knows them by their addresses, for which any type will do.
-/
structure Tree (ι τ : Type) : Type where
  dentries : ι → KDentry
  world : World τ

/-- A call that changes names, with the dentries that it gets. The contents of buffers on the stack,
which a refusal may leave as they are, come with the call. -/
inductive DirOp (ι : Type) : Type where
  | mkdir (d : ι) (stack : Bytes) (frame : Frame) (new : NewInode)
  | create (d : ι) (stack : Bytes) (mode : UInt16) (frame : Frame) (new : NewInode)
  | rmdir (d : ι) (stack : Bytes)
  | rename (oldDentry newDentry : ι) (oldStack newStack : Bytes)
  | unlink (d : ι) (stack : Bytes)
  | link (oldDentry newDentry : ι) (oldStack newStack : Bytes) (frame : Frame) (inode : NewInode)
  | symlink (d : ι) (oldname stack : Bytes) (frame : Frame) (inode : NewInode)

section Tree

variable {ι τ ρ ρ' : Type} [DecidableEq ι]

namespace Tree

/-- A change of one dentry. -/
def change (t : Tree ι τ) (d : ι) (f : KDentry → KDentry) : Tree ι τ :=
  { t with dentries := Function.update t.dentries d (f (t.dentries d)) }

/-- What goes on behind the dentries. -/
def behind (t : Tree ι τ) (f : World τ → Except Errno ρ × World τ) : Except Errno ρ × Tree ι τ :=
  ((f t.world).1, { t with world := (f t.world).2 })

/-- The name of a dentry, as `get_name` leaves it, unless that fails. -/
def pathOf (t : Tree ι τ) (d : ι) (stack : Bytes) : Option Bytes :=
  let (result, name) := getName (t.dentries d).place stack
  if result < 0 then none else some name

/-- `if (get_name(dentry, name) < 0) return -ENAMETOOLONG`, and what follows. -/
def named (t : Tree ι τ) (d : ι) (stack : Bytes) (k : Bytes → Except Errno ρ × Tree ι τ) :
    Except Errno ρ × Tree ι τ :=
  match t.pathOf d stack with
  | none => (.error .enametoolong, t)
  | some name => k name

/-- `if (result < 0) return result`, and what follows. -/
def ifOk (r : Except Errno ρ × Tree ι τ) (k : ρ → Tree ι τ → Except Errno ρ' × Tree ι τ) :
    Except Errno ρ' × Tree ι τ :=
  match r with
  | (.error e, t) => (.error e, t)
  | (.ok x, t) => k x t

end Tree

/-! ## The functions -/

section Functions

variable (sb : SuperBlock τ) (dc : Dcache)

/-- A remote command that changes a name. -/
def Tree.command (t : Tree ι τ) (b : Bytes → Option Cmd) (name : Bytes) :
    Except Errno ℕ × Tree ι τ :=
  t.behind fun w => w.send sb.host.status b name

/-- `shfs_instantiate` -/
def Tree.instantiate (t : Tree ι τ) (d : ι) (frame : Frame) (new : NewInode) :
    Except Errno Unit × Tree ι τ :=
  Tree.ifOk (t.behind (shfsInstantiate sb (t.dentries d).place frame new)) fun i t =>
    (.ok (), t.change d (dc.dInstantiate i))

/-- What `shfs_create` does behind its command. -/
def Tree.created (t : Tree ι τ) (d : ι) (frame : Frame) (new : NewInode) (forcedWrite : Prop)
    [Decidable forcedWrite] : Except Errno Unit × Tree ι τ :=
  let (result, t) := t.instantiate sb dc d frame new
  match (t.dentries d).inode with
  | some i =>
    (result, if forcedWrite then
      { t with world := t.world.update i fun v => { v with unsetWriteOnClose := true } }
      else t)
  | none => (result, t)

/-- The functions, but for the ages: which dentries get an inode, and which are given up, beside
what they do to the world. `shfs_rename` is the only one that touches a dentry before its command.
-/
def DirOp.run (t : Tree ι τ) : DirOp ι → Except Errno Unit × Tree ι τ
  | mkdir d stack frame new =>
    if sb.info.readonly then (.error .erofs, t)
    else
      t.named d stack fun name =>
        Tree.ifOk (t.command sb shellMkdir name) fun _ t => t.instantiate sb dc d frame new
  | create d stack mode frame new =>
    if sb.info.readonly then (.error .erofs, t)
    else
      t.named d stack fun name =>
        let forcedWrite := mode &&& S_IWUSR = 0
        let mode := if forcedWrite then mode ||| S_IWUSR else mode
        Tree.ifOk (t.command sb (shellCreate · mode.toUInt32) name) fun _ t =>
          t.created sb dc d frame new forcedWrite
  | rmdir d stack =>
    if sb.info.readonly then (.error .erofs, t)
    else if (t.dentries d).hashed then (.error .ebusy, t)
    else
      t.named d stack fun name =>
        Tree.ifOk (t.command sb shellRmdir name) fun _ t => (.ok (), t)
  | rename oldDentry newDentry oldStack newStack =>
    if sb.info.readonly then (.error .erofs, t)
    else
      t.named oldDentry oldStack fun old =>
        t.named newDentry newStack fun new =>
          let t := if (t.dentries newDentry).inode ≠ none then t.change newDentry dc.dDelete else t
          Tree.ifOk (t.command sb (shellRename · new) old) fun _ t => (.ok (), t)
  | unlink d stack =>
    if sb.info.readonly then (.error .erofs, t)
    else
      t.named d stack fun name =>
        Tree.ifOk (t.command sb shellUnlink name) fun _ t => (.ok (), t)
  | link oldDentry newDentry oldStack newStack frame inode =>
    if sb.info.readonly then (.error .erofs, t)
    else
      t.named oldDentry oldStack fun old =>
        t.named newDentry newStack fun new =>
          Tree.ifOk (t.command sb (shellLink · new) old) fun _ t =>
            t.instantiate sb dc newDentry frame inode
  | symlink d oldname stack frame inode =>
    if sb.info.readonly then (.error .erofs, t)
    else
      t.named d stack fun new =>
        if oldname.length + 1 > SHFS_PATH_MAX then (.error .enametoolong, t)
        else
          Tree.ifOk (t.command sb (shellSymlink · new) oldname) fun _ t =>
            t.instantiate sb dc d frame inode

/-- The remote command of a call, with the name that it is sent with, if the call gets as far. -/
def DirOp.request (t : Tree ι τ) (op : DirOp ι) : Option ((Bytes → Option Cmd) × Bytes) :=
  if sb.info.readonly then none
  else
    match op with
    | mkdir d stack .. => (t.pathOf d stack).map fun name => (shellMkdir, name)
    | create d stack mode .. =>
      let mode := if mode &&& S_IWUSR = 0 then mode ||| S_IWUSR else mode
      (t.pathOf d stack).map fun name => (fun name => shellCreate name mode.toUInt32, name)
    | rmdir d stack =>
      if (t.dentries d).hashed then none
      else (t.pathOf d stack).map fun name => (shellRmdir, name)
    | rename oldDentry newDentry oldStack newStack =>
      (t.pathOf oldDentry oldStack).bind fun old =>
        (t.pathOf newDentry newStack).map fun new => (fun old => shellRename old new, old)
    | unlink d stack => (t.pathOf d stack).map fun name => (shellUnlink, name)
    | link oldDentry newDentry oldStack newStack .. =>
      (t.pathOf oldDentry oldStack).bind fun old =>
        (t.pathOf newDentry newStack).map fun new => (fun old => shellLink old new, old)
    | symlink d oldname stack .. =>
      (t.pathOf d stack).bind fun new =>
        if oldname.length + 1 > SHFS_PATH_MAX then none
        else some (fun old => shellSymlink old new, oldname)

/-- The tree when the command is sent. -/
def DirOp.before (t : Tree ι τ) : DirOp ι → Tree ι τ
  | rename _ newDentry .. =>
    if (t.dentries newDentry).inode ≠ none then t.change newDentry dc.dDelete else t
  | _ => t

variable {sb} {dc} {t : Tree ι τ} {op : DirOp ι} {b : Bytes → Option Cmd} {name : Bytes} {e : Errno}

omit [DecidableEq ι] in
theorem named_some {k : Bytes → Except Errno ρ × Tree ι τ} {d : ι} {stack : Bytes}
    (h : t.pathOf d stack = some name) : t.named d stack k = k name := by
  rw [Tree.named, h]

omit [DecidableEq ι] in
@[simp] theorem command_dentries : (t.command sb b name).2.dentries = t.dentries := rfl

omit [DecidableEq ι] in
@[simp] theorem command_world :
    (t.command sb b name).2.world = (t.world.send sb.host.status b name).2 := rfl

omit [DecidableEq ι] in
theorem ifOk_command_error {k : ℕ → Tree ι τ → Except Errno ρ × Tree ι τ}
    (hfail : (t.world.send sb.host.status b name).1 = .error e) :
    Tree.ifOk (t.command sb b name) k = (.error e, (t.command sb b name).2) := by
  simp only [Tree.command, Tree.behind, Tree.ifOk, hfail]

@[simp] theorem world_before (dc : Dcache) (t : Tree ι τ) (op : DirOp ι) :
    (op.before dc t).world = t.world := by
  cases op with
  | rename old new oldStack newStack =>
    rw [DirOp.before]
    split <;> rfl
  | mkdir | create | rmdir | unlink | link | symlink => rfl

/-- **A call whose remote command fails** leaves what it has made of the tree before. -/
theorem run_failed (hreq : op.request sb t = some (b, name))
    (hfail : (t.world.send sb.host.status b name).1 = .error e) :
    op.run sb dc t = (.error e, ((op.before dc t).command sb b name).2) := by
  rw [DirOp.request.eq_def] at hreq
  split at hreq
  · cases hreq
  next hrw =>
  cases op with
  | mkdir d stack frame new =>
    obtain ⟨_, hpath, heq⟩ := Option.map_eq_some_iff.mp hreq
    obtain ⟨rfl, rfl⟩ := Prod.mk.inj heq
    rw [DirOp.run, if_neg hrw, named_some hpath]
    exact ifOk_command_error hfail
  | create d stack mode frame new =>
    obtain ⟨_, hpath, heq⟩ := Option.map_eq_some_iff.mp hreq
    obtain ⟨rfl, rfl⟩ := Prod.mk.inj heq
    rw [DirOp.run, if_neg hrw, named_some hpath]
    exact ifOk_command_error hfail
  | rmdir d stack =>
    dsimp only at hreq
    split at hreq
    · cases hreq
    next hhashed =>
    obtain ⟨_, hpath, heq⟩ := Option.map_eq_some_iff.mp hreq
    obtain ⟨rfl, rfl⟩ := Prod.mk.inj heq
    rw [DirOp.run, if_neg hrw, if_neg hhashed, named_some hpath]
    exact ifOk_command_error hfail
  | rename old new oldStack newStack =>
    obtain ⟨_, hold, hboth⟩ := Option.bind_eq_some_iff.mp hreq
    obtain ⟨_, hnew, heq⟩ := Option.map_eq_some_iff.mp hboth
    obtain ⟨rfl, rfl⟩ := Prod.mk.inj heq
    rw [DirOp.run, if_neg hrw, named_some hold, named_some hnew]
    -- the dentry has been given up by now
    rw [← world_before dc t (.rename old new oldStack newStack)] at hfail
    exact ifOk_command_error hfail
  | unlink d stack =>
    obtain ⟨_, hpath, heq⟩ := Option.map_eq_some_iff.mp hreq
    obtain ⟨rfl, rfl⟩ := Prod.mk.inj heq
    rw [DirOp.run, if_neg hrw, named_some hpath]
    exact ifOk_command_error hfail
  | link old new oldStack newStack frame inode =>
    obtain ⟨_, hold, hboth⟩ := Option.bind_eq_some_iff.mp hreq
    obtain ⟨_, hnew, heq⟩ := Option.map_eq_some_iff.mp hboth
    obtain ⟨rfl, rfl⟩ := Prod.mk.inj heq
    rw [DirOp.run, if_neg hrw, named_some hold, named_some hnew]
    exact ifOk_command_error hfail
  | symlink d oldname stack frame inode =>
    obtain ⟨_, hpath, hshort⟩ := Option.bind_eq_some_iff.mp hreq
    split at hshort
    · cases hshort
    next hfits =>
    obtain ⟨rfl, rfl⟩ := Prod.mk.inj (Option.some.inj hshort)
    rw [DirOp.run, if_neg hrw, named_some hpath, if_neg hfits]
    exact ifOk_command_error hfail

/-! ## Failed calls -/

/-- The remote command of the call fails: the call gets as far as sending one, and the server
refuses it. -/
def DirOp.Fails (sb : SuperBlock τ) (t : Tree ι τ) (op : DirOp ι) : Prop :=
  ∃ b name e, op.request sb t = some (b, name) ∧
    (t.world.send sb.host.status b name).1 = .error e

/-- Every dentry has the inode it had, and is hashed if it was. The counts of their users are left
out, since a failed call may well change them. -/
def Tree.Same (t t' : Tree ι τ) : Prop :=
  ∀ d, (t'.dentries d).inode = (t.dentries d).inode ∧ (t'.dentries d).hashed = (t.dentries d).hashed

/-- A rename over a file that `d_delete` does something about: that nobody else has open, or that
can be looked up. -/
def DirOp.Replaces (t : Tree ι τ) : DirOp ι → Prop
  | rename _ newDentry .. =>
    (t.dentries newDentry).inode ≠ none ∧
      ((t.dentries newDentry).count = 1 ∨ (t.dentries newDentry).hashed = true)
  | _ => False

omit [DecidableEq ι] in
theorem Tree.Same.refl (t : Tree ι τ) : t.Same t := fun _ => ⟨rfl, rfl⟩

/-- What `d_delete` changes. -/
theorem same_change_iff (hdc : dc.Documented) {d : ι} (hd : (t.dentries d).inode ≠ none) :
    t.Same (t.change d dc.dDelete) ↔
      ¬ ((t.dentries d).count = 1 ∨ (t.dentries d).hashed = true) := by
  have hself : (t.change d dc.dDelete).dentries d = dc.dDelete (t.dentries d) :=
    Function.update_self ..
  constructor
  · intro h hused
    obtain ⟨hinode, hhashed⟩ := h d
    rw [hself] at hinode hhashed
    by_cases hcount : (t.dentries d).count = 1
    · exact hd (hinode.symm.trans (hdc.unused _ hd hcount).1)
    · have hdrop := (hdc.shared _ hd hcount).2
      rw [hdrop, hused.resolve_left hcount] at hhashed
      cases hhashed
  · intro h d'
    obtain ⟨hcount, hunhashed⟩ := not_or.mp h
    by_cases hdd : d' = d
    · subst hdd
      obtain ⟨hinode, hhashed⟩ := hdc.shared _ hd hcount
      have hoff : (t.dentries d').hashed = false := Bool.eq_false_iff.mpr hunhashed
      rw [hself, hinode, hhashed, hoff]
      exact ⟨rfl, rfl⟩
    · have hother : (t.change d dc.dDelete).dentries d' = t.dentries d' :=
        Function.update_of_ne hdd ..
      rw [hother]
      exact ⟨rfl, rfl⟩

theorem same_before_iff (hdc : dc.Documented) (t : Tree ι τ) (op : DirOp ι) :
    t.Same (op.before dc t) ↔ ¬ op.Replaces t := by
  cases op with
  | rename old new oldStack newStack =>
    rw [DirOp.before, DirOp.Replaces]
    split
    · next hpos => rw [same_change_iff hdc hpos, not_and, forall_prop_of_true hpos]
    · next hneg => exact iff_of_true (Tree.Same.refl t) fun h => hneg h.1
  | mkdir | create | rmdir | unlink | link | symlink => exact iff_of_true (Tree.Same.refl t) id

/-- **Which failed calls leave the dentries alone**: all but a rename over a file that `d_delete`
does something about. `shfs_rename` gives up the dentry of the target before it sends `s_mv`, so a
refusal of the server comes too late for it; every other call waits for its command. -/
theorem keeps_iff (hdc : dc.Documented) (op : DirOp ι) (t : Tree ι τ) (hfail : op.Fails sb t) :
    t.Same (op.run sb dc t).2 ↔ ¬ op.Replaces t := by
  obtain ⟨b, name, e, hreq, hsend⟩ := hfail
  rw [run_failed hreq hsend, ← same_before_iff hdc t op]
  simp only [Tree.Same, command_dentries]

/-! ## The world -/

/-- The operation on the world. -/
def DirOp.vfsOp (t : Tree ι τ) : DirOp ι → VfsOp
  | mkdir d stack frame new => .mkdir (t.dentries d).place stack frame new
  | create d stack mode frame new => .create (t.dentries d).place stack mode frame new
  | rmdir d stack => .rmdir (t.dentries d).place (!(t.dentries d).hashed) stack
  | rename old new oldStack newStack =>
    .rename (t.dentries old).place (t.dentries new).place oldStack newStack
  | unlink d stack => .unlink (t.dentries d).place stack
  | link old new oldStack newStack frame inode =>
    .link (t.dentries old).place (t.dentries new).place oldStack newStack frame inode
  | symlink d oldname stack frame inode =>
    .symlink (t.dentries d).place oldname stack frame inode

omit [DecidableEq ι] in
theorem world_named {k : Bytes → Except Errno ρ × Tree ι τ}
    {k' : Bytes → Except Errno ρ' × World τ} (h : ∀ name, (k name).2.world = (k' name).2) (d : ι)
    (stack : Bytes) :
    (t.named d stack k).2.world = (t.world.named (t.dentries d).place stack k').2 := by
  simp only [Tree.named, Tree.pathOf, World.named]
  by_cases hneg : (getName (t.dentries d).place stack).1 < 0
  · rw [if_pos hneg, if_pos hneg]
  · rw [if_neg hneg, if_neg hneg]
    exact h _

omit [DecidableEq ι] in
theorem world_ifOk {ρ'' : Type} {f : World τ → Except Errno ρ × World τ}
    {k : ρ → Tree ι τ → Except Errno ρ' × Tree ι τ}
    {k' : ρ → World τ → Except Errno ρ'' × World τ}
    (h : ∀ x, (k x (t.behind f).2).2.world = (k' x (f t.world).2).2) :
    (Tree.ifOk (t.behind f) k).2.world = (World.ifOk (f t.world) k').2 := by
  rcases hf : f t.world with ⟨_ | x, w⟩
  · simp only [Tree.ifOk, Tree.behind, World.ifOk, hf]
  · have := h x
    simp only [Tree.behind, hf] at this
    simp only [Tree.ifOk, Tree.behind, World.ifOk, hf, this]

omit [DecidableEq ι] in
/-- Nothing follows but the result. -/
theorem world_ifOk_done (f : World τ → Except Errno ρ × World τ) :
    (Tree.ifOk (t.behind f) fun _ t => (.ok (), t)).2.world = (f t.world).2 := by
  rcases hf : f t.world with ⟨_ | x, w⟩ <;> simp only [Tree.ifOk, Tree.behind, hf]

omit [DecidableEq ι] in
theorem world_command {k : ℕ → Tree ι τ → Except Errno ρ × Tree ι τ}
    {k' : ℕ → World τ → Except Errno ρ' × World τ}
    (h : ∀ x, (k x (t.command sb b name).2).2.world =
      (k' x (t.world.send sb.host.status b name).2).2) :
    (Tree.ifOk (t.command sb b name) k).2.world =
      (World.ifOk (t.world.send sb.host.status b name) k').2 :=
  world_ifOk h

theorem world_instantiate (d : ι) (frame : Frame) (new : NewInode) :
    (t.instantiate sb dc d frame new).2.world =
      (World.ifOk (shfsInstantiate sb (t.dentries d).place frame new t.world) fun _ w =>
        ((.ok 0 : Except Errno ℕ), w)).2 :=
  world_ifOk fun _ => rfl

/-- To a dentry that has no inode. -/
theorem world_created (hdc : dc.Documented) {d : ι} (hneg : (t.dentries d).inode = none)
    (frame : Frame) (new : NewInode) (forcedWrite : Prop) [Decidable forcedWrite] :
    (t.created sb dc d frame new forcedWrite).2.world =
      (World.ifOk (shfsInstantiate sb (t.dentries d).place frame new t.world) fun i w =>
      ((.ok 0 : Except Errno ℕ),
        if forcedWrite then w.update i fun v =>
          { v with unsetWriteOnClose := true } else w)).2 := by
  rw [Tree.created, Tree.instantiate]
  rcases hf : shfsInstantiate sb (t.dentries d).place frame new t.world with ⟨e | i, w⟩
  · simp only [Tree.ifOk, Tree.behind, World.ifOk, hf, hneg]
  · have hself : ((Tree.mk t.dentries w).change d (dc.dInstantiate i)).dentries d =
        dc.dInstantiate i (t.dentries d) := Function.update_self ..
    have hpos := (hdc.filled i _ hneg).1
    simp only [Tree.ifOk, Tree.behind, World.ifOk, hf, hself, hpos]
    split <;> rfl

/-- **The tree refines the world**: what a call does to the world of its tree is what the operation
of `VfsOp` does to it. So what is proved of runs of `VfsOp` (which inodes there are, what is sent,
which commands a read-only mount refuses) holds of the calls with their dentries, and the dentries
are all that a call has on top of it. The dentry of a `create` has no inode, as the kernel looks it
up first. -/
theorem run_world (hdc : dc.Documented) (fuel : ℕ)
    (hnew : ∀ d stack mode frame new, op = .create d stack mode frame new →
      (t.dentries d).inode = none) :
    (op.vfsOp t).run sb fuel t.world = some (op.run sb dc t).2.world := by
  cases op with
  | mkdir d stack frame new =>
    rw [DirOp.vfsOp, VfsOp.run, shfsMkdir, DirOp.run]
    split
    · rfl
    · rw [world_named]
      intro name
      exact world_command fun _ => world_instantiate d frame new
  | create d stack mode frame new =>
    rw [DirOp.vfsOp, VfsOp.run, shfsCreate, DirOp.run]
    split
    · rfl
    · rw [world_named]
      intro name
      refine world_command fun x => ?_
      -- a name that is to be made has no inode yet
      have hneg := hnew d stack mode frame new rfl
      rw [world_created hdc (by rwa [command_dentries]), command_dentries, command_world]
  | rmdir d stack =>
    rw [DirOp.vfsOp, VfsOp.run, shfsRmdir, DirOp.run]
    split
    · rfl
    · cases (t.dentries d).hashed with
      | true => rfl
      | false =>
        simp only [Bool.not_false, Bool.not_true, Bool.false_eq_true, if_false]
        rw [world_named]
        exact fun name => world_ifOk_done _
  | rename old new oldStack newStack =>
    -- `d_delete` of the target changes no inode and sends nothing
    have hsend : ∀ oldName newName,
        (Tree.ifOk (((DirOp.rename old new oldStack newStack).before dc t).command sb
          (shellRename · newName) oldName) fun _ t => ((.ok () : Except Errno Unit), t)).2.world =
        (t.world.send sb.host.status (shellRename · newName) oldName).2 := by
      intro oldName newName
      rw [← world_before dc t (.rename old new oldStack newStack)]
      exact world_ifOk_done _
    rw [DirOp.vfsOp, VfsOp.run, shfsRename, DirOp.run]
    split
    · rfl
    · refine congrArg some (world_named (fun oldName => ?_) old oldStack).symm
      exact world_named (hsend oldName) new newStack
  | unlink d stack =>
    rw [DirOp.vfsOp, VfsOp.run, shfsUnlink, DirOp.run]
    split
    · rfl
    · rw [world_named]
      exact fun name => world_ifOk_done _
  | link old new oldStack newStack frame inode =>
    rw [DirOp.vfsOp, VfsOp.run, shfsLink, DirOp.run]
    split
    · rfl
    · rw [world_named fun name => world_named (fun name' => ?_) new newStack]
      exact world_command fun _ => world_instantiate new frame inode
  | symlink d oldname stack frame inode =>
    rw [DirOp.vfsOp, VfsOp.run, shfsSymlink, DirOp.run]
    split
    · rfl
    · rw [world_named]
      intro name
      split
      · rfl
      · exact world_command fun _ => world_instantiate d frame inode

end Functions

end Tree

/-! ### A rename -/

/-- A `d_delete` that does what is documented. -/
def plainDcache : Dcache where
  dDelete d := if d.count = 1 then { d with inode := none } else { d with hashed := false }
  dInstantiate i d := { d with inode := some i }

theorem plainDcache_documented : plainDcache.Documented where
  unused d _ h := by simp only [plainDcache, h, if_true, and_self]
  shared d _ h := by simp only [plainDcache, h, if_false, and_self]
  filled _ _ _ := ⟨rfl, rfl⟩

/-- A mount on a server that refuses everything. -/
def refusing : SuperBlock Unit := ⟨deafHost, ⟨false, false, 0, 0⟩, 0xFFFF, 0, stillClock⟩

/-- `/a` and `/b`, which have inodes. -/
def twoFiles : Tree Bool Unit :=
  ⟨fun b => ⟨.child .root (if b then ascii "b" else ascii "a"), some b.toNat, true, 1⟩,
    ⟨[], 0, ⟨(), []⟩⟩⟩

/-- A file is not deleted. -/
theorem keeps_iff_unlink : (DirOp.unlink true []).Fails refusing twoFiles ∧
    (twoFiles.Same ((DirOp.unlink true []).run refusing plainDcache twoFiles).2 ↔
      ¬ (DirOp.unlink true []).Replaces twoFiles) :=
  ⟨⟨_, _, _, rfl, rfl⟩,
    keeps_iff plainDcache_documented _ twoFiles ⟨_, _, _, rfl, rfl⟩⟩

/-- A file is not renamed, and the one that it was to replace is gone. -/
theorem not_keeps_rename : (DirOp.rename false true [] []).Fails refusing twoFiles ∧
    ¬ twoFiles.Same ((DirOp.rename false true [] []).run refusing plainDcache twoFiles).2 := by
  refine ⟨⟨_, _, _, rfl, rfl⟩, fun h => ?_⟩
  exact absurd (h true).1 (by decide)

end Shfs
