import Shfs.Mounted
import Shfs.PathBuffers

/-!
# Paths that do not fit

`get_name` returns 0 for a path that does not fit in `SHFS_PATH_MAX` octets, and leaves the buffer
of its caller as it was. Only `shfs_file_open` tests for that 0. The other callers test for a
negative result, which there is none, so they go on with whatever is in the buffer: the path of
another file, or something that `check_path` refuses.

`NameCall` is a call of one of them. `NameCall.Meets` is what is wanted of it: no command and
`-ENAMETOOLONG` for a path that is too long, and no other path than its own in the commands of a
call whose path fits.
-/

namespace Shfs

open Lib

/-! ## Paths -/

/-- The path, with its terminator, does not fit in a path buffer. -/
def Dentry.TooLong (d : Dentry) : Prop := SHFS_PATH_MAX < d.text.length + 1

theorem Dentry.tooLong_iff (d : Dentry) : d.TooLong ↔ d.len + 1 > SHFS_PATH_MAX := by
  unfold TooLong text
  split
  · next h =>
    rw [h]
    exact iff_of_false (by decide) (by decide)
  · rw [d.length_path]

/-- A path that is too long leaves the buffer alone. -/
theorem getName_long {d : Dentry} (h : d.TooLong) (stack : Bytes) : getName d stack = (0, stack) :=
  if_pos (d.tooLong_iff.mp h)

/-- Any other path is in the buffer then. -/
theorem getName_short {d : Dentry} (h : ¬ d.TooLong) (stack : Bytes) :
    getName d stack = (1, d.text) := by
  rw [getName, if_neg (mt d.tooLong_iff.mpr h), Dentry.text]
  split <;> rfl

/-! ## The calls -/

/-- A call of one of the functions that ask `get_name` for a path. -/
inductive NameCall : Type where
  | lookup (d : Dentry) (frame : Frame) (new : NewInode)
  | mkdir (d : Dentry) (stack : Bytes) (frame : Frame) (new : NewInode)
  | create (d : Dentry) (stack : Bytes) (mode : UInt16) (frame : Frame) (new : NewInode)
  | rmdir (d : Dentry) (stack : Bytes)
  | rename (oldDentry newDentry : Dentry) (oldStack newStack : Bytes)
  | unlink (d : Dentry) (stack : Bytes)
  | link (oldDentry newDentry : Dentry) (oldStack newStack : Bytes) (frame : Frame)
      (inode : NewInode)
  | symlink (d : Dentry) (oldname stack : Bytes) (frame : Frame) (inode : NewInode)
  | readdir (n : Node) (age : Age) (frame : Frame) (how : DirRead)
  | refreshInode (n : Node) (frame : Frame)
  | notifyChange (verdicts : Verdicts) (n : Node) (stack : Bytes) (attr : Iattr)
  | fileOpen (n : Node) (stack : Bytes) (mode : AccMode) (mem : Memory)
  | fileRelease (n : Node) (cacheStack stack : Bytes)
  | fileReadpage (n : Node) (stack : Bytes) (mem : Memory) (index : ℕ)
  | slowRead (n : Node) (stack : Bytes) (page : Bool) (count offset : ℕ)
  | readlink (d : Dentry) (stack realName : Bytes)
  | cacheRead (n : Node) (stack : Bytes) (mem : Memory) (span : Span)
  | cacheWrite (n : Node) (stack : Bytes) (mem : Memory) (offset : UInt32) (buffer : Bytes)
  | cacheSync (n : Node) (stack : Bytes)

/-- A result without its value. -/
def forget {τ ρ : Type} (r : Except Errno ρ × World τ) : Except Errno Unit × World τ :=
  (r.1.map fun _ => (), r.2)

namespace NameCall

/-- The dentry that the call is about, the new one if there are two. -/
def dentry : NameCall → Dentry
  | lookup d .. | mkdir d .. | create d .. | rmdir d _ | unlink d _ | symlink d ..
  | readlink d .. => d
  | rename _ d .. | link _ d .. => d
  | readdir n .. | refreshInode n _ | notifyChange _ n .. | fileOpen n .. | fileRelease n ..
  | fileReadpage n .. | slowRead n .. | cacheRead n .. | cacheWrite n .. | cacheSync n _ => n.dentry

/-- The old one. -/
def source : NameCall → Option Dentry
  | rename old .. | link old .. => some old
  | _ => none

/-- The names that the call is given, as C strings. -/
def texts (c : NameCall) : List Bytes :=
  match c with
  | rename old new .. | link old new .. => [old.text, new.text]
  | symlink d oldname .. => [oldname, d.text]
  | c => [c.dentry.text]

section Run

variable {τ : Type} (sb : SuperBlock τ)

/-- The result of a call, and the state behind it. The result of `shfs_file_release` is always 0. -/
def run (fuel : ℕ) (w : World τ) : NameCall → Option (Except Errno Unit × World τ)
  | lookup d frame new => some (shfsLookup sb d frame new w)
  | mkdir d stack frame new => some (forget (shfsMkdir sb d stack frame new w))
  | create d stack mode frame new => some (forget (shfsCreate sb d stack mode frame new w))
  | rmdir d stack => some (forget (shfsRmdir sb d true stack w))
  | rename old new oldStack newStack => some (forget (shfsRename sb old new oldStack newStack w))
  | unlink d stack => some (forget (shfsUnlink sb d stack w))
  | link old new oldStack newStack frame inode =>
    some (forget (shfsLink sb old new oldStack newStack frame inode w))
  | symlink d oldname stack frame inode =>
      some (forget (shfsSymlink sb d oldname stack frame inode w))
  | readdir n age frame how => some (shfsReaddir sb n age frame how w)
  | refreshInode n frame => some (shfsRefreshInode sb n frame w)
  | notifyChange verdicts n stack attr => some (forget (w.setattr sb verdicts n stack attr))
  | fileOpen n stack mode mem => some (forget (shfsFileOpen sb n stack mode mem w))
  | fileRelease n cacheStack stack => some (.ok (), shfsFileRelease sb n cacheStack stack w)
  | fileReadpage n stack mem index => shfsFileReadpage sb fuel n stack mem index w
  | slowRead n stack page count offset =>
      some (forget (shfsSlowRead sb n stack page count offset w))
  | readlink d stack realName => some (forget (shfsReadlink sb d stack realName w))
  | cacheRead n stack mem span =>
    (fcacheFileRead sb.fops sb.fcacheSize fuel mem (w.file n stack) span.offset span.count
      (w.slot n.inode)).map fun (result, s) => forget (result, w.putSlot n.inode s)
  | cacheWrite n stack mem offset buffer =>
    (fcacheFileWrite sb.fops sb.fcacheSize fuel mem (w.file n stack) offset.toNat buffer
      (w.slot n.inode)).map fun (result, s) => forget (result, w.putSlot n.inode s)
  | cacheSync n stack =>
    let (result, s) := fcacheFileSync sb.fops (w.file n stack) (w.slot n.inode)
    some (result, w.putSlot n.inode s)

/-- The rounds that the loops of a call need at most. -/
def rounds : NameCall → ℕ
  | fileReadpage .. => PAGE_SIZE
  | cacheRead _ _ _ span => span.count
  | cacheWrite _ _ _ _ buffer => buffer.length
  | _ => 0

/-- A sync has something to write, and the functions of the file cache are called on a mount that
has one. -/
def Applies (w : World τ) : NameCall → Prop
  | cacheRead .. | cacheWrite .. => sb.fcacheSize ≠ 0
  | cacheSync n stack =>
    (∃ ino, (w.file n stack).check = .ok ino) ∧ ∃ c, (w.slot n.inode).cache = some c ∧ c.Dirty
  | _ => True

end Run

end NameCall

/-! ## What is wanted -/

/-- The arguments `getline` takes from a command. -/
def Cmd.words (c : Cmd) : List Bytes :=
  match scan getlineStep ⟨.between, [], []⟩ (c.args ++ [nl]) with
  | .inr (ws, _) => ws
  | .inl _ => []

/-- Nothing has been sent, and the result says why. -/
def Refusal {τ ρ : Type} (r : Except Errno ρ × World τ) : Prop :=
  r.2.far.cmds = [] ∧ r.1 = .error .enametoolong

namespace NameCall

/-- One of the paths is too long. -/
def TooLong (c : NameCall) : Prop := c.dentry.TooLong ∨ ∃ old ∈ c.source, old.TooLong

/-- A command has the paths of the call. Behind a link and a symbolic link comes a stat, which has
only the new one. -/
def Meant : NameCall → Cmd → Prop
  | rename old new .., cmd => cmd.words = [old.text, new.text]
  | link old new .., cmd =>
    if cmd.cmd = ascii "s_stat" then cmd.path = some new.text else cmd.words = [old.text, new.text]
  | symlink d oldname .., cmd =>
    if cmd.cmd = ascii "s_stat" then cmd.path = some d.text else cmd.words = [oldname, d.text]
  | c, cmd => cmd.path = some c.dentry.text

/-- A path that is too long is refused, and otherwise every path that is sent is the one that is
meant. -/
def Meets {τ : Type} (c : NameCall) (r : Except Errno Unit × World τ) : Prop :=
  (c.TooLong → Refusal r) ∧ (¬ c.TooLong → ∀ cmd ∈ r.2.far.cmds, c.Meant cmd)

end NameCall

/-! ## When it happens -/

/-- Is the inode of a node one that a revalidation asks about? -/
def Node.Due {τ : Type} (n : Node) (age : Age) (w : World τ) : Prop :=
  ∃ v ∈ w.inodes[n.inode]?, v.bad = false ∧ age.magic = true ∧ age.fresh = false ∧ v.ino ≠ 2

/-- The slot of an inode, for a server that has not seen a command yet. -/
def World.still {τ : Type} (w : World τ) (i : ℕ) : Slot τ :=
  ⟨(w.inodes[i]?).bind VInode.cache, w.free, w.far.server⟩

namespace NameCall

section Conditions

variable {τ : Type} (sb : SuperBlock τ) (w : World τ)

/-- With a path that is too long, what stops a call is its buffer, if it gets as far as that. Only
an open is always stopped; a lookup and a release never say why they stop. -/
def Stopped : NameCall → Prop
  | lookup .. | fileRelease .. => False
  | mkdir _ stack _ _ | create _ stack _ _ _ | rmdir _ stack | unlink _ stack =>
    sb.info.readonly = false ∧ checkPath stack = none
  | rename old new oldStack newStack | link old new oldStack newStack _ _ =>
    sb.info.readonly = false ∧
      (checkPath (getName old oldStack).2 = none ∨ checkPath (getName new newStack).2 = none)
  | symlink _ oldname stack _ _ =>
    sb.info.readonly = false ∧
      (SHFS_PATH_MAX < oldname.length + 1 ∨ checkPath oldname = none ∨ checkPath stack = none)
  | readdir _ _ _ .dots => False
  | readdir n age frame .cached => n.Due age w ∧ checkPath frame.name = none
  | readdir n age frame (.list _ stack _) =>
    n.Due age w ∧ checkPath frame.name = none ∨ ¬ n.Due age w ∧ checkPath stack = none
  | refreshInode n frame => (∃ v ∈ w.inodes[n.inode]?, v.ino ≠ 2) ∧ checkPath frame.name = none
  | notifyChange verdicts n stack attr =>
    w.inodes[n.inode]? ≠ none ∧ (verdicts.change = .error .enametoolong ∨
      AsksNotify sb.info verdicts attr ∧ checkPath stack = none)
  | fileOpen _ _ mode _ => ¬ (mode ≠ .rdonly ∧ sb.info.readonly = true)
  | fileReadpage n stack mem index =>
    checkPath stack = none ∧ (sb.fcacheSize ≠ 0 →
      AsksRead mem ((w.lock sb).file n stack) ((w.lock sb).slot n.inode)
        (index * PAGE_SIZE % 2 ^ 32) PAGE_SIZE)
  | slowRead _ stack page _ _ => page = true ∧ checkPath stack = none
  | readlink _ stack realName => checkPath stack = none ∨ checkPath realName = none
  | cacheRead n stack mem span =>
    checkPath stack = none ∧
      AsksRead mem (w.file n stack) (w.slot n.inode) span.offset span.count
  | cacheWrite n stack mem offset buffer =>
    checkPath stack = none ∧
      AsksWrite sb.fcacheSize mem (w.file n stack) (w.slot n.inode) offset.toNat buffer
  | cacheSync _ stack => checkPath stack = none

/-- A call on one buffer: its commands have the path of their file. -/
def Faithful (n : Node) (stack : Bytes) (mem : Memory) (call : PathCall) : Prop :=
  apos ∉ n.dentry.text ∨ ¬ Fits (quoteText n.dentry.text) ∨
    call.Alone sb.host.toRemote sb.fcacheSize mem (w.file n stack) (w.still n.inode)

/-- With a path that fits, only the calls that may send several commands out of one buffer can get
it wrong. -/
def Steady : NameCall → Prop
  | notifyChange verdicts n stack attr =>
    ∀ v ∈ w.inodes[n.inode]?,
      Faithful sb w n stack ⟨false, none⟩ (.notify sb.info verdicts attr v.stat)
  | fileReadpage n stack mem index =>
    sb.fcacheSize ≠ 0 → Faithful sb (w.lock sb) n stack mem (.read (.page index))
  | cacheRead n stack mem span => Faithful sb w n stack mem (.read span)
  | cacheWrite n stack mem offset buffer => Faithful sb w n stack mem (.write offset buffer)
  | _ => True

/-- The condition for both: a call on a path that is too long is stopped, and one on a path that
fits is steady. -/
def Safe (c : NameCall) : Prop := (c.TooLong → c.Stopped sb w) ∧ (¬ c.TooLong → c.Steady sb w)

end Conditions

end NameCall

/-! ## One command -/

section Send

variable {τ ρ ρ' : Type} {sb : SuperBlock τ} {w : World τ} {answer : Cmd → τ → Except Errno ρ × τ}
  {b : Bytes → Option Cmd} {name : Bytes}

theorem refusal_forget {r : Except Errno ρ × World τ} : Refusal (forget r) ↔ Refusal r := by
  obtain ⟨result, w⟩ := r
  cases result with
  | error e => exact and_congr_right fun _ => ⟨fun h => congrArg _ (Except.error.inj h),
      fun h => congrArg _ (Except.error.inj h)⟩
  | ok x => exact and_congr_right fun _ => iff_of_false nofun nofun

theorem not_refusal_of_sent {r : Except Errno ρ × World τ} (h : r.2.far.Sent) : ¬ Refusal r :=
  fun hr => h hr.1

theorem World.send_refused (h : b name = none) :
    w.send answer b name = (.error .enametoolong, w) := by
  unfold World.send
  rw [issue_refused h]

theorem World.send_sent (h : b name ≠ none) : (w.send answer b name).2.far.Sent := issue_sent h

theorem World.send_keeps_sent (h : w.far.Sent) : (w.send answer b name).2.far.Sent := h.issue

/-- **A command that comes first** is what stops a function: it is refused with nothing sent exactly
if the command is not built. -/
theorem World.ifOk_send_refusal_iff (hw : w.far.cmds = [])
    {k : ρ → World τ → Except Errno ρ' × World τ}
    (hk : ∀ x w, w.far.Sent → (k x w).2.far.Sent) :
    Refusal (World.ifOk (w.send answer b name) k) ↔ b name = none := by
  constructor
  · intro h
    by_contra hsent
    exact not_refusal_of_sent
      (World.ifOk_keeps (P := fun w => w.far.Sent) (World.send_sent hsent) hk) h
  · intro h
    rw [World.send_refused h]
    exact ⟨hw, rfl⟩

theorem World.send_refusal_iff (hw : w.far.cmds = []) :
    Refusal (w.send answer b name) ↔ b name = none := by
  constructor
  · intro h
    by_contra hsent
    exact not_refusal_of_sent (World.send_sent hsent) h
  · intro h
    rw [World.send_refused h]
    exact ⟨hw, rfl⟩

theorem onPaths_eq_none_iff {old new : Bytes} {k : Bytes → Bytes → Cmd} :
    onPaths old new k = none ↔ checkPath old = none ∨ checkPath new = none := by
  unfold onPaths
  cases checkPath old with
  | none => exact iff_of_true rfl (.inl rfl)
  | some old => exact Option.map_eq_none_iff.trans ⟨.inr, fun h => h.resolve_left nofun⟩

/-- The far side behind a stat, and behind what is made of it. -/
theorem shfsInstantiate_far (d : Dentry) (frame : Frame) (new : NewInode) (w : World τ) :
    (shfsInstantiate sb d frame new w).2.far =
      (shellStat sb (getName d frame.name).2 frame.fattr w).2.far := by
  unfold shfsInstantiate
  rw [World.named_eq]
  rcases shellStat sb (getName d frame.name).2 frame.fattr w with ⟨result, w'⟩
  cases result with
  | error e => rfl
  | ok fattr =>
    dsimp only [World.ifOk]
    unfold shfsIget
    cases new.memory <;> rfl

theorem shfsInstantiate_sent (d : Dentry) (frame : Frame) (new : NewInode) (h : w.far.Sent) :
    (shfsInstantiate sb d frame new w).2.far.Sent := by
  rw [shfsInstantiate_far]
  exact World.send_keeps_sent h

end Send

/-! ## Refusals -/

section Refusals

variable {τ ρ : Type} {sb : SuperBlock τ} {w : World τ}

/-- The check for a read-only mount has its own error. -/
theorem refusal_readonly_iff {r : Except Errno ρ × World τ} :
    Refusal (if sb.info.readonly then (.error .erofs, w) else r) ↔
      sb.info.readonly = false ∧ Refusal r := by
  cases sb.info.readonly with
  | true => exact iff_of_false (fun h => nomatch h.2) (fun h => nomatch h.1)
  | false => exact (and_iff_right rfl).symm

/-! ### Directories -/

theorem shfsLookup_not_refusal (d : Dentry) (frame : Frame) (new : NewInode) :
    ¬ Refusal (shfsLookup sb d frame new w) := by
  unfold shfsLookup
  rw [World.named_eq]
  split
  · exact fun h => nomatch h.2
  · exact fun h => nomatch h.2
  · exact fun h => nomatch h.2

variable (hw : w.far.cmds = [])
include hw

theorem shfsMkdir_refusal_iff (d : Dentry) (stack : Bytes) (frame : Frame) (new : NewInode) :
    Refusal (shfsMkdir sb d stack frame new w) ↔
      sb.info.readonly = false ∧ checkPath (getName d stack).2 = none := by
  rw [shfsMkdir, refusal_readonly_iff, World.named_eq, World.ifOk_send_refusal_iff hw,
    builds_mkdir.eq_none_iff]
  intro _ w₁ hsent
  exact World.ifOk_keeps (P := fun w => w.far.Sent) (shfsInstantiate_sent d frame new hsent)
    fun _ _ h => h

theorem shfsCreate_refusal_iff (d : Dentry) (stack : Bytes) (mode : UInt16) (frame : Frame)
    (new : NewInode) :
    Refusal (shfsCreate sb d stack mode frame new w) ↔
      sb.info.readonly = false ∧ checkPath (getName d stack).2 = none := by
  rw [shfsCreate, refusal_readonly_iff, World.named_eq]
  refine and_congr_right fun _ => (World.ifOk_send_refusal_iff hw fun _ w₁ hsent => ?_).trans
    (builds_create _).eq_none_iff
  refine World.ifOk_keeps (P := fun w => w.far.Sent) (shfsInstantiate_sent d frame new hsent)
    fun i w₂ h => ?_
  dsimp only
  split
  · exact h
  · exact h

theorem shfsRmdir_refusal_iff (d : Dentry) (stack : Bytes) :
    Refusal (shfsRmdir sb d true stack w) ↔
      sb.info.readonly = false ∧ checkPath (getName d stack).2 = none := by
  rw [shfsRmdir, refusal_readonly_iff, if_neg (by decide), World.named_eq,
    World.send_refusal_iff hw, builds_rmdir.eq_none_iff]

theorem shfsUnlink_refusal_iff (d : Dentry) (stack : Bytes) :
    Refusal (shfsUnlink sb d stack w) ↔
      sb.info.readonly = false ∧ checkPath (getName d stack).2 = none := by
  rw [shfsUnlink, refusal_readonly_iff, World.named_eq, World.send_refusal_iff hw,
    builds_unlink.eq_none_iff]

theorem shfsRename_refusal_iff (old new : Dentry) (oldStack newStack : Bytes) :
    Refusal (shfsRename sb old new oldStack newStack w) ↔ sb.info.readonly = false ∧
      (checkPath (getName old oldStack).2 = none ∨ checkPath (getName new newStack).2 = none) := by
  rw [shfsRename, refusal_readonly_iff, World.named_eq, World.named_eq, World.send_refusal_iff hw,
    shellRename, onPaths_eq_none_iff]

theorem shfsLink_refusal_iff (old new : Dentry) (oldStack newStack : Bytes) (frame : Frame)
    (inode : NewInode) :
    Refusal (shfsLink sb old new oldStack newStack frame inode w) ↔ sb.info.readonly = false ∧
      (checkPath (getName old oldStack).2 = none ∨ checkPath (getName new newStack).2 = none) := by
  rw [shfsLink, refusal_readonly_iff, World.named_eq, World.named_eq,
    World.ifOk_send_refusal_iff hw, shellLink, onPaths_eq_none_iff]
  intro _ w₁ hsent
  exact World.ifOk_keeps (P := fun w => w.far.Sent) (shfsInstantiate_sent new frame inode hsent)
    fun _ _ h => h

theorem shfsSymlink_refusal_iff (d : Dentry) (oldname stack : Bytes) (frame : Frame)
    (inode : NewInode) :
    Refusal (shfsSymlink sb d oldname stack frame inode w) ↔ sb.info.readonly = false ∧
      (SHFS_PATH_MAX < oldname.length + 1 ∨ checkPath oldname = none ∨
        checkPath (getName d stack).2 = none) := by
  rw [shfsSymlink, refusal_readonly_iff, World.named_eq]
  refine and_congr_right fun _ => ?_
  split
  · next hlong => exact iff_of_true ⟨hw, rfl⟩ (.inl hlong)
  · next hshort =>
    rw [World.ifOk_send_refusal_iff hw, shellSymlink, onPaths_eq_none_iff, or_iff_right hshort]
    intro _ w₁ hsent
    exact World.ifOk_keeps (P := fun w => w.far.Sent) (shfsInstantiate_sent d frame inode hsent)
      fun _ _ h => h

/-! ### Revalidation -/

theorem shfsRefreshInode_refusal_iff (n : Node) (frame : Frame) :
    Refusal (shfsRefreshInode sb n frame w) ↔
      (∃ v ∈ w.inodes[n.inode]?, v.ino ≠ 2) ∧ checkPath (getName n.dentry frame.name).2 = none := by
  unfold shfsRefreshInode
  cases hv : w.inodes[n.inode]? with
  | none => exact iff_of_false (fun h => nomatch h.2) fun ⟨⟨v, hmem, _⟩, _⟩ => nomatch hmem
  | some v =>
    have hino : (∃ u ∈ some v, u.ino ≠ 2) ↔ v.ino ≠ 2 :=
      ⟨fun ⟨u, hu, hne⟩ => Option.some.inj hu ▸ hne, fun hne => ⟨v, rfl, hne⟩⟩
    rw [hino]
    dsimp only
    split
    · next h => exact iff_of_false (fun hr => nomatch hr.2) fun hand => hand.1 h
    · next h =>
      rw [World.named_eq, and_iff_right h]
      refine (World.ifOk_send_refusal_iff hw fun fattr w₁ hsent => ?_).trans
        (builds_doLs true).eq_none_iff
      split
      · exact hsent
      · split
        · exact hsent
        · exact hsent

omit hw in
/-- A refresh that sends its command. -/
theorem shfsRefreshInode_sent (n : Node) (frame : Frame)
    (hino : ∃ v ∈ w.inodes[n.inode]?, v.ino ≠ 2)
    (h : checkPath (getName n.dentry frame.name).2 ≠ none) :
    (shfsRefreshInode sb n frame w).2.far.Sent := by
  obtain ⟨v, hv, hne⟩ := hino
  unfold shfsRefreshInode
  rw [show w.inodes[n.inode]? = some v from hv]
  dsimp only
  rw [if_neg hne, World.named_eq]
  refine World.ifOk_keeps (P := fun w => w.far.Sent)
    (World.send_sent (mt (builds_doLs true).eq_none_iff.mp h)) fun fattr w₁ hsent => ?_
  split
  · exact hsent
  · split
    · exact hsent
    · exact hsent

omit hw in
/-- An inode that is due is refreshed, under the mutex. -/
theorem shfsRevalidateInode_due {n : Node} {age : Age} (h : n.Due age w) (frame : Frame) :
    shfsRevalidateInode sb n age frame w =
      ((shfsRefreshInode sb n frame (w.lock sb)).1,
        (shfsRefreshInode sb n frame (w.lock sb)).2.unlock sb) := by
  obtain ⟨v, hv, hbad, hmagic, hfresh, -⟩ := h
  unfold shfsRevalidateInode
  dsimp only
  rw [World.lock_inodes, show w.inodes[n.inode]? = some v from hv, hmagic, hfresh, Option.any, hbad]
  rfl

variable (sb) in
omit hw in
/-- Another one is left alone. -/
theorem shfsRevalidateInode_early {n : Node} {age : Age} (h : ¬ n.Due age w) (frame : Frame) :
    (shfsRevalidateInode sb n age frame w).1 = .ok () ∧
      (shfsRevalidateInode sb n age frame w).2.far.cmds = w.far.cmds := by
  unfold shfsRevalidateInode
  dsimp only
  split
  · exact ⟨rfl, rfl⟩
  · next hnot =>
    rw [World.lock_inodes, Bool.or_eq_true, Bool.or_eq_true, not_or, not_or] at hnot
    obtain ⟨⟨hbad, hmagic⟩, hfresh⟩ := hnot
    unfold shfsRefreshInode
    rw [World.lock_inodes]
    cases hv : w.inodes[n.inode]? with
    | none => exact ⟨rfl, rfl⟩
    | some v =>
      rw [hv] at hbad
      have hino : v.ino = 2 := by
        by_contra hne
        exact h ⟨v, hv, Bool.not_eq_true _ ▸ hbad, by simpa using hmagic,
          Bool.not_eq_true _ ▸ hfresh, hne⟩
      dsimp only
      rw [if_pos hino]
      exact ⟨rfl, rfl⟩

theorem shfsRevalidateInode_refusal_iff (n : Node) (age : Age) (frame : Frame) :
    Refusal (shfsRevalidateInode sb n age frame w) ↔
      n.Due age w ∧ checkPath (getName n.dentry frame.name).2 = none := by
  by_cases hdue : n.Due age w
  · rw [shfsRevalidateInode_due hdue, and_iff_right hdue]
    obtain ⟨v, hv, -, -, -, hne⟩ := hdue
    exact (shfsRefreshInode_refusal_iff (w := w.lock sb) hw n frame).trans
      (and_iff_right ⟨v, hv, hne⟩)
  · refine iff_of_false (fun h => ?_) fun h => hdue h.1
    have hok := (shfsRevalidateInode_early sb hdue frame).1
    rw [h.2] at hok
    cases hok

/-! ### Listings -/

omit hw in
/-- The entries of a listing come behind its command. -/
theorem shellReaddir_filled (l : Listing) (fills : List (FillTarget × Bool)) (h : w.far.Sent) :
    (lsLoop (fillLine sb l.residue) l.lost l.lines (w, fills)).2.1.far.Sent :=
  (congrArg Far.Sent (lsLoop_fillLine_far l.residue l.lost l.lines (w, fills))).mpr h

theorem shellReaddir_refusal_iff (name : Bytes) (fills : List (FillTarget × Bool)) :
    Refusal (shellReaddir sb name fills w) ↔ checkPath name = none :=
  (World.ifOk_send_refusal_iff hw fun l _ h => shellReaddir_filled l fills h).trans
    (builds_doLs false).eq_none_iff

theorem shfsReaddir_refusal_iff (n : Node) (age : Age) (frame : Frame) (page : Bool) (stack : Bytes)
    (fills : List (FillTarget × Bool)) :
    Refusal (shfsReaddir sb n age frame (.list page stack fills) w) ↔
      n.Due age w ∧ checkPath (getName n.dentry frame.name).2 = none ∨
        ¬ n.Due age w ∧ checkPath (getName n.dentry stack).2 = none := by
  have hcmds : ∀ w : World τ, (if page then (w.lock sb).unlock sb else w).far.cmds =
      w.far.cmds := by
    intro w
    split <;> rfl
  unfold shfsReaddir
  by_cases hdue : n.Due age w
  · rw [and_iff_right hdue, or_iff_left fun h => h.1 hdue]
    by_cases hcheck : checkPath (getName n.dentry frame.name).2 = none
    · refine iff_of_true ?_ hcheck
      have hrefused : Refusal (shfsRevalidateInode sb n age frame w) :=
        (shfsRevalidateInode_refusal_iff hw n age frame).mpr ⟨hdue, hcheck⟩
      rcases hrev : shfsRevalidateInode sb n age frame w with ⟨result, w₁⟩
      rw [hrev] at hrefused
      obtain ⟨hcmds₁, hresult⟩ := hrefused
      obtain rfl : result = .error .enametoolong := hresult
      exact ⟨hcmds₁, rfl⟩
    · refine iff_of_false (not_refusal_of_sent ?_) hcheck
      refine World.ifOk_keeps (P := fun w => w.far.Sent) ?_ fun _ w₁ hsent => ?_
      · rw [shfsRevalidateInode_due hdue]
        obtain ⟨v, hv, -, -, -, hne⟩ := hdue
        exact shfsRefreshInode_sent (w := w.lock sb) n frame ⟨v, hv, hne⟩ hcheck
      · rw [World.named_eq]
        refine World.ifOk_keeps (P := fun w => w.far.Sent) (World.send_keeps_sent ?_)
          fun l _ h => shellReaddir_filled l fills h
        exact (congrArg (· ≠ []) (hcmds w₁)).mpr hsent
  · obtain ⟨hok, hquiet⟩ := shfsRevalidateInode_early sb hdue frame
    rw [or_iff_right fun h => hdue h.1, and_iff_right hdue]
    rcases hrev : shfsRevalidateInode sb n age frame w with ⟨result, w₁⟩
    rw [hrev] at hok hquiet
    obtain rfl : result = .ok () := hok
    dsimp only [World.ifOk]
    rw [World.named_eq]
    exact shellReaddir_refusal_iff ((hcmds w₁).trans (hquiet.trans hw)) _ fills

/-! ### Files -/

theorem shfsFileOpen_refusal_iff {n : Node} (hlong : n.dentry.TooLong) (stack : Bytes)
    (mode : AccMode) (mem : Memory) :
    Refusal (shfsFileOpen sb n stack mode mem w) ↔
      ¬ (mode ≠ .rdonly ∧ sb.info.readonly = true) := by
  unfold shfsFileOpen
  split
  · next h => exact iff_of_false (fun hr => nomatch hr.2) fun hn => hn h
  · next h =>
    rw [getName_long hlong]
    exact iff_of_true ⟨hw, rfl⟩ h

theorem shfsSlowRead_refusal_iff (n : Node) (stack : Bytes) (page : Bool) (count offset : ℕ) :
    Refusal (shfsSlowRead sb n stack page count offset w) ↔
      page = true ∧ checkPath (getName n.dentry stack).2 = none := by
  unfold shfsSlowRead
  cases page with
  | false => exact iff_of_false (fun h => nomatch h.2) fun h => nomatch h.1
  | true =>
    dsimp only
    rw [if_neg (by decide), World.named_eq, and_iff_right rfl]
    set ino := (((w.lock sb).inodes[n.inode]?).map VInode.ino).getD 0
    have hpasses :=
      shellRead_passes sb.host.toRemote sb.fcacheSize (getName n.dentry stack).2 (offset % 2 ^ 32)
        (if count > PAGE_SIZE then PAGE_SIZE else count) ino (w.lock sb).far
    by_cases h : checkPath (getName n.dentry stack).2 = none
    · refine iff_of_true ?_ h
      rw [hpasses.refused h]
      exact ⟨hw, rfl⟩
    · exact iff_of_false (not_refusal_of_sent (hpasses.sent h)) h

theorem shfsReadlink_refusal_iff (d : Dentry) (stack realName : Bytes) :
    Refusal (shfsReadlink sb d stack realName w) ↔
      checkPath (getName d stack).2 = none ∨ checkPath realName = none := by
  have hbuild : shellReadlinkCmd (getName d stack).2 realName = none ↔
      checkPath (getName d stack).2 = none ∨ checkPath realName = none := onPaths_eq_none_iff
  rw [← hbuild]
  by_cases h : shellReadlinkCmd (getName d stack).2 realName = none
  · refine iff_of_true ?_ h
    rw [shfsReadlink, World.named_eq, World.readlink,
      World.send_refused (b := (shellReadlinkCmd · realName)) h]
    exact ⟨hw, rfl⟩
  · refine iff_of_false (not_refusal_of_sent ?_) h
    rw [shfsReadlink_snd, World.readlink_snd]
    exact World.send_sent h

/-! ### Pages -/

omit hw in
/-- **A page** takes one read: it fails, or has all the octets. So the loop of `shfs_file_readpage`
never goes round a second time. -/
theorem shfsFileReadpage_once {fuel : ℕ} {n : Node} {stack : Bytes} {mem : Memory} {index : ℕ}
    {r : Except Errno Unit × World τ}
    (h : shfsFileReadpage sb fuel n stack mem index w = some r) :
    ∃ result w₁, (⟨index * PAGE_SIZE, PAGE_SIZE, w.lock sb⟩ : Paging τ).read sb fuel n stack mem =
        some (result, w₁) ∧ r = (result.map fun _ => (), w₁.unlock sb) := by
  set v : Paging τ := ⟨index * PAGE_SIZE, PAGE_SIZE, w.lock sb⟩ with hv
  -- a read that succeeds brings all that it was asked for, so the loop ends behind its first round
  have hlength : ∀ data w₁, v.read sb fuel n stack mem = some (.ok data, w₁) →
      data.length = PAGE_SIZE := by
    intro data w₁ hread
    unfold Paging.read at hread
    split at hread
    · obtain ⟨q, hq, heq⟩ := Option.map_eq_some_iff.mp hread
      exact fcacheFileRead_length hq (Prod.mk.inj heq).1
    · rw [World.named_eq] at hread
      exact length_shellRead (Prod.mk.inj (Option.some.inj hread)).1
  unfold shfsFileReadpage at h
  dsimp only at h
  rw [← hv] at h
  have hcond : decide (v.count ≠ 0) = true := rfl
  cases fuel with
  | zero =>
    rw [loop, if_pos hcond] at h
    cases h
  | succ fuel =>
    rw [loop, if_pos hcond] at h
    rcases hread : v.read sb (fuel + 1) n stack mem with _ | ⟨e | data, w₁⟩
    · have hround : v.round sb (fuel + 1) n stack mem = .inl (none, v.world) := by
        unfold Paging.round
        rw [hread]
      rw [hround] at h
      cases h
    · have hround : v.round sb (fuel + 1) n stack mem = .inl (some (.error e), w₁) := by
        unfold Paging.round
        rw [hread]
      rw [hround] at h
      exact ⟨_, w₁, rfl, (Option.some.inj h).symm⟩
    · have hdata : data.length = PAGE_SIZE := hlength data w₁ hread
      have hne : data ≠ [] := by
        rintro rfl
        cases hdata
      have hround : v.round sb (fuel + 1) n stack mem =
          .inr ⟨v.offset + data.length, v.count - data.length, w₁⟩ := by
        unfold Paging.round
        rw [hread]
        exact if_neg hne
      have hdone : Paging.count ⟨v.offset + data.length, v.count - data.length, w₁⟩ = 0 :=
        (congrArg (v.count - ·) hdata).trans (Nat.sub_self PAGE_SIZE)
      rw [hround] at h
      dsimp only at h
      rw [loop_zero Paging.count hdone fuel] at h
      exact ⟨_, w₁, rfl, (Option.some.inj h).symm⟩

theorem shfsFileReadpage_refusal_iff {fuel : ℕ} {n : Node} {stack : Bytes} {mem : Memory}
    {index : ℕ} {r : Except Errno Unit × World τ}
    (h : shfsFileReadpage sb fuel n stack mem index w = some r) :
    Refusal r ↔ checkPath (getName n.dentry stack).2 = none ∧ (sb.fcacheSize ≠ 0 →
      AsksRead mem ((w.lock sb).file n stack) ((w.lock sb).slot n.inode)
        (index * PAGE_SIZE % 2 ^ 32) PAGE_SIZE) := by
  obtain ⟨result, w₁, hread, rfl⟩ := shfsFileReadpage_once h
  have hunlock : Refusal (forget (result, w₁.unlock sb)) ↔ Refusal (result, w₁) :=
    refusal_forget.trans Iff.rfl
  refine hunlock.trans ?_
  unfold Paging.read at hread
  split at hread
  · next hsize =>
    obtain ⟨q, hq, heq⟩ := Option.map_eq_some_iff.mp hread
    obtain ⟨rfl, rfl⟩ := Prod.mk.inj heq
    by_cases hcheck : checkPath (getName n.dentry stack).2 = none
    · obtain ⟨hremote, hresult⟩ := fcacheFileRead_silent (f := (w.lock sb).file n stack) hcheck hq
      rw [and_iff_right hcheck, imp_iff_right hsize, ← hresult]
      exact and_iff_right ((congrArg Far.cmds hremote).trans hw)
    · refine iff_of_false (fun hr => ?_) fun hr => hcheck hr.1
      rcases fcacheFileRead_sent (f := (w.lock sb).file n stack) hcheck hq with hsent | hres
      · exact hsent hr.1
      · exact hres hr.2
  · next hsize =>
    rw [World.named_eq] at hread
    obtain ⟨rfl, rfl⟩ := Prod.mk.inj (Option.some.inj hread)
    have hpasses := shellRead_passes sb.host.toRemote sb.fcacheSize (getName n.dentry stack).2
      (index * PAGE_SIZE % 2 ^ 32) PAGE_SIZE 0 (w.lock sb).far
    rw [and_iff_left fun hne => absurd hne hsize]
    by_cases hcheck : checkPath (getName n.dentry stack).2 = none
    · refine iff_of_true ?_ hcheck
      dsimp only
      rw [hpasses.refused hcheck]
      exact ⟨hw, rfl⟩
    · exact iff_of_false (not_refusal_of_sent (hpasses.sent hcheck)) hcheck

/-! ### The rest -/

theorem setattr_refusal_iff (verdicts : Verdicts) (n : Node) (stack : Bytes) (attr : Iattr) :
    Refusal (w.setattr sb verdicts n stack attr) ↔
      w.inodes[n.inode]? ≠ none ∧ (verdicts.change = .error .enametoolong ∨
        AsksNotify sb.info verdicts attr ∧ checkPath (getName n.dentry stack).2 = none) := by
  unfold World.setattr
  cases w.inodes[n.inode]? with
  | none => exact iff_of_false (fun h => nomatch h.2) fun h => h.1 rfl
  | some v =>
    rw [and_iff_right (Option.some_ne_none v)]
    have hsilent := shfsNotifyChange_silent sb.host.toRemote sb.info verdicts attr n.dentry stack
      v.stat w.far
    have hsent := shfsNotifyChange_sent sb.host.toRemote sb.info verdicts attr n.dentry stack
      v.stat w.far
    have hverdict : ∀ e, verdicts.change = .error e →
        shfsNotifyChange (shellAops sb.host.toRemote) sb.info verdicts n.dentry stack attr v.stat
          w.far = (.error e, v.stat, w.far) := by
      intro e he
      rw [shfsNotifyChange_eq, he]
    dsimp only
    revert hsilent hsent hverdict
    rcases shfsNotifyChange (shellAops sb.host.toRemote) sb.info verdicts n.dentry stack attr v.stat
      w.far with ⟨result, stat, far⟩
    intro hsilent hsent hverdict
    change far.cmds = [] ∧ result = .error .enametoolong ↔ _
    by_cases hcheck : checkPath (getName n.dentry stack).2 = none
    · obtain ⟨hfar, hresult⟩ := hsilent hcheck
      rw [and_iff_left hcheck, ← hresult]
      exact and_iff_right ((congrArg Far.cmds hfar).trans hw)
    · rw [or_iff_left fun h => hcheck h.2]
      constructor
      · rintro ⟨hcmds, hres⟩
        exact ((hsent hcheck).resolve_left fun h => h hcmds).resolve_left fun h => h hres
      · intro he
        obtain ⟨rfl, hrest⟩ := Prod.mk.inj (hverdict _ he)
        exact ⟨(congrArg Far.cmds (Prod.mk.inj hrest).2).trans hw, rfl⟩

/-- **A path that is too long** is refused, with nothing sent, exactly if its call is stopped by the
buffer that has the path. -/
theorem NameCall.refusal_iff {c : NameCall} (hlong : c.TooLong) (happlies : c.Applies sb w)
    {fuel : ℕ} {r : Except Errno Unit × World τ} (h : c.run sb fuel w = some r) :
    Refusal r ↔ c.Stopped sb w := by
  -- one arm for each function: what it does with a path is said by its own lemma, and `get_name`
  -- leaves the buffer as it was
  cases c with
  | lookup d frame new =>
    obtain rfl := Option.some.inj h
    exact iff_of_false (shfsLookup_not_refusal d frame new) id
  | mkdir d stack frame new =>
    obtain rfl := Option.some.inj h
    have hd : d.TooLong := hlong.resolve_right nofun
    rw [refusal_forget, shfsMkdir_refusal_iff hw, getName_long hd]
    exact Iff.rfl
  | create d stack mode frame new =>
    obtain rfl := Option.some.inj h
    have hd : d.TooLong := hlong.resolve_right nofun
    rw [refusal_forget, shfsCreate_refusal_iff hw, getName_long hd]
    exact Iff.rfl
  | rmdir d stack =>
    obtain rfl := Option.some.inj h
    have hd : d.TooLong := hlong.resolve_right nofun
    rw [refusal_forget, shfsRmdir_refusal_iff hw, getName_long hd]
    exact Iff.rfl
  | rename old new oldStack newStack =>
    obtain rfl := Option.some.inj h
    exact refusal_forget.trans (shfsRename_refusal_iff hw old new oldStack newStack)
  | unlink d stack =>
    obtain rfl := Option.some.inj h
    have hd : d.TooLong := hlong.resolve_right nofun
    rw [refusal_forget, shfsUnlink_refusal_iff hw, getName_long hd]
    exact Iff.rfl
  | link old new oldStack newStack frame inode =>
    obtain rfl := Option.some.inj h
    exact refusal_forget.trans (shfsLink_refusal_iff hw old new oldStack newStack frame inode)
  | symlink d oldname stack frame inode =>
    obtain rfl := Option.some.inj h
    have hd : d.TooLong := hlong.resolve_right nofun
    rw [refusal_forget, shfsSymlink_refusal_iff hw, getName_long hd]
    exact Iff.rfl
  | readdir n age frame how =>
    obtain rfl := Option.some.inj h
    have hd : n.dentry.TooLong := hlong.resolve_right nofun
    cases how with
    | dots => exact iff_of_false (fun hr => nomatch hr.2) id
    | cached =>
      refine (shfsRevalidateInode_refusal_iff hw n age frame).trans ?_
      rw [getName_long hd]
      exact Iff.rfl
    | list page stack fills =>
      rw [shfsReaddir_refusal_iff hw, getName_long hd, getName_long hd]
      exact Iff.rfl
  | refreshInode n frame =>
    obtain rfl := Option.some.inj h
    have hd : n.dentry.TooLong := hlong.resolve_right nofun
    rw [shfsRefreshInode_refusal_iff hw, getName_long hd]
    exact Iff.rfl
  | notifyChange verdicts n stack attr =>
    obtain rfl := Option.some.inj h
    have hd : n.dentry.TooLong := hlong.resolve_right nofun
    rw [refusal_forget, setattr_refusal_iff hw, getName_long hd]
    exact Iff.rfl
  | fileOpen n stack mode mem =>
    obtain rfl := Option.some.inj h
    exact refusal_forget.trans
      (shfsFileOpen_refusal_iff hw (hlong.resolve_right nofun) stack mode mem)
  | fileRelease n cacheStack stack =>
    obtain rfl := Option.some.inj h
    exact iff_of_false (fun hr => nomatch hr.2) id
  | fileReadpage n stack mem index =>
    have hd : n.dentry.TooLong := hlong.resolve_right nofun
    rw [shfsFileReadpage_refusal_iff hw h, getName_long hd]
    exact Iff.rfl
  | slowRead n stack page count offset =>
    obtain rfl := Option.some.inj h
    have hd : n.dentry.TooLong := hlong.resolve_right nofun
    rw [refusal_forget, shfsSlowRead_refusal_iff hw, getName_long hd]
    exact Iff.rfl
  | readlink d stack realName =>
    obtain rfl := Option.some.inj h
    have hd : d.TooLong := hlong.resolve_right nofun
    rw [refusal_forget, shfsReadlink_refusal_iff hw, getName_long hd]
    exact Iff.rfl
  -- a read of octets that are in the buffer succeeds without a look at the path
  | cacheRead n stack mem span =>
    have hd : n.dentry.TooLong := hlong.resolve_right nofun
    obtain ⟨q, hq, rfl⟩ := Option.map_eq_some_iff.mp h
    have hname : (getName n.dentry stack).2 = stack := congrArg Prod.snd (getName_long hd stack)
    refine refusal_forget.trans ?_
    by_cases hcheck : checkPath stack = none
    · obtain ⟨hremote, hresult⟩ := fcacheFileRead_silent (f := w.file n stack)
        (hname.symm ▸ hcheck : checkPath (getName n.dentry stack).2 = none) hq
      refine Iff.trans ?_ (and_iff_right hcheck).symm
      rw [← hresult]
      exact and_iff_right ((congrArg Far.cmds hremote).trans hw)
    · refine iff_of_false (fun hr => ?_) fun hr => hcheck hr.1
      rcases fcacheFileRead_sent (f := w.file n stack)
        (hname.symm ▸ hcheck : checkPath (getName n.dentry stack).2 ≠ none) hq with hsent | hres
      · exact hsent hr.1
      · exact hres hr.2
  | cacheWrite n stack mem offset buffer =>
    have hd : n.dentry.TooLong := hlong.resolve_right nofun
    obtain ⟨q, hq, rfl⟩ := Option.map_eq_some_iff.mp h
    have hname : (getName n.dentry stack).2 = stack := congrArg Prod.snd (getName_long hd stack)
    refine refusal_forget.trans ?_
    by_cases hcheck : checkPath stack = none
    · obtain ⟨hremote, hresult⟩ := fcacheFileWrite_silent (f := w.file n stack)
        (hname.symm ▸ hcheck : checkPath (getName n.dentry stack).2 = none) hq
      refine Iff.trans ?_ (and_iff_right hcheck).symm
      rw [← hresult]
      exact and_iff_right ((congrArg Far.cmds hremote).trans hw)
    · refine iff_of_false (fun hr => ?_) fun hr => hcheck hr.1
      rcases fcacheFileWrite_sent (f := w.file n stack)
        (hname.symm ▸ hcheck : checkPath (getName n.dentry stack).2 ≠ none) hq with hsent | hres
      · exact hsent hr.1
      · exact hres hr.2
  -- the call applies to a dirty buffer only, so there is a write to be refused
  | cacheSync n stack =>
    have hd : n.dentry.TooLong := hlong.resolve_right nofun
    obtain ⟨⟨ino, hino⟩, c, hc, hdirty⟩ := happlies
    obtain ⟨hresult, hremote⟩ := fcacheFileSync_dirty sb.host.toRemote sb.fcacheSize hino
      hc hdirty
    have hname : (getName n.dentry stack).2 = stack := congrArg Prod.snd (getName_long hd stack)
    obtain rfl := Option.some.inj h
    have hpasses := shellWrite_passes sb.host.toRemote sb.fcacheSize (getName n.dentry stack).2
      c.offset c.held ino w.far
    by_cases hcheck : checkPath stack = none
    · refine iff_of_true ⟨?_, ?_⟩ hcheck
      · refine (congrArg Far.cmds (hremote.trans ?_)).trans hw
        exact congrArg Done.remote (hpasses.refused (hname.symm ▸ hcheck))
      · refine hresult.trans ?_
        exact congrArg (fun d : Done ℕ (Far τ) => d.result.map fun _ => ())
          (hpasses.refused (hname.symm ▸ hcheck))
    · refine iff_of_false (fun hr => ?_) hcheck
      exact hpasses.sent (hname.symm ▸ hcheck) ((congrArg Far.cmds hremote).symm.trans hr.1)

end Refusals

/-! ## Paths that fit -/

/-- The words of arguments that are put together like this. -/
theorem Cmd.words_joined (cmd : Bytes) {ws : List Word} (h : ∀ w ∈ ws, w.Ok) :
    Cmd.words ⟨cmd, joinWith sp (ws.map Word.text)⟩ = ws.map Word.value := by
  have hscan := scan_args h [] []
  rw [List.nil_append] at hscan
  rw [Cmd.words, hscan]

section Paths

variable {τ ρ : Type} {sb : SuperBlock τ} {w : World τ} {d : Dentry} {P : Cmd → Prop}

theorem Dentry.length_of_short (hd : ¬ d.TooLong) : d.text.length < SHFS_PATH_MAX :=
  Nat.lt_of_succ_le (Nat.le_of_not_lt hd)

theorem World.only_of_fresh (hw : w.far.cmds = []) : w.far.Only P := by
  intro c hc
  rw [hw] at hc
  cases hc

theorem World.send_only {answer : Cmd → τ → Except Errno ρ × τ} {b : Bytes → Option Cmd}
    {name : Bytes} (h : w.far.Only P) (hb : ∀ c, b name = some c → P c) :
    (w.send answer b name).2.far.Only P := h.issue hb

/-- Both paths of a command that has two. -/
theorem onPaths_words {old new : Bytes} (hold : old.length < SHFS_PATH_MAX)
    (hnew : new.length < SHFS_PATH_MAX) (hold0 : (0 : Byte) ∉ old) (hnew0 : (0 : Byte) ∉ new)
    {cmd : Bytes} {c : Cmd}
    (hc : onPaths old new (fun old new => ⟨cmd, squoted old ++ [sp] ++ squoted new⟩) = some c) :
    c.cmd = cmd ∧ c.words = [old, new] := by
  rw [onPaths, checkPath_eq hold0 hold, checkPath_eq hnew0 hnew] at hc
  split at hc
  · cases hc
  · split at hc
    · cases hc
    · obtain rfl := Option.some.inj hc
      refine ⟨rfl, ?_⟩
      have hok : ∀ w ∈ [Word.quoted old, .quoted new], w.Ok := by simp [Word.Ok]
      have hwords := Cmd.words_joined cmd hok
      rw [← show squoted (quoteText old) ++ [sp] ++ squoted (quoteText new) =
        joinWith sp ([Word.quoted old, .quoted new].map Word.text) by
          simp [Word.text, squoted]] at hwords
      exact hwords

variable (hd : ¬ d.TooLong) (hnul : (0 : Byte) ∉ d.text)
include hd hnul

/-- A command has the path that `get_name` has made. -/
theorem Dentry.cmd_path {b : Bytes → Option Cmd} (hb : Builds b) (stack : Bytes) :
    ∀ c, b (getName d stack).2 = some c → c.path = some d.text := by
  intro c hc
  rw [getName_short hd] at hc
  exact hb.cmd_path (Dentry.length_of_short hd) hnul hc

theorem shfsInstantiate_only (hP : ∀ c, c.cmd = ascii "s_stat" → c.path = some d.text → P c)
    (h : w.far.Only P) (frame : Frame) (new : NewInode) :
    (shfsInstantiate sb d frame new w).2.far.Only P := by
  rw [shfsInstantiate_far]
  refine World.send_only h fun c hc => hP c ?_ (Dentry.cmd_path hd hnul (builds_doLs true) _ c hc)
  obtain ⟨quoted, -, rfl⟩ := Option.map_eq_some_iff.mp hc
  rfl

variable (h : w.far.Only fun c => c.path = some d.text)
include h

/-- The commands of a call on this path. -/
theorem World.send_path {answer : Cmd → τ → Except Errno ρ × τ} {b : Bytes → Option Cmd}
    (hb : Builds b) (stack : Bytes) :
    (w.send answer b (getName d stack).2).2.far.Only fun c => c.path = some d.text :=
  World.send_only h (Dentry.cmd_path hd hnul hb stack)

theorem shfsLookup_path (frame : Frame) (new : NewInode) :
    (shfsLookup sb d frame new w).2.far.Only fun c => c.path = some d.text := by
  have hstat : (shellStat sb (getName d frame.name).2 frame.fattr w).2.far.Only
    fun c => c.path = some d.text := World.send_path hd hnul h (builds_doLs true) frame.name
  unfold shfsLookup
  rw [World.named_eq]
  split
  · next heq =>
    rw [heq] at hstat
    exact hstat
  · next heq =>
    rw [heq] at hstat
    exact hstat
  · next heq =>
    rw [heq] at hstat
    rw [shfsIget_far]
    exact hstat

theorem shfsMkdir_path (stack : Bytes) (frame : Frame) (new : NewInode) :
    (shfsMkdir sb d stack frame new w).2.far.Only fun c => c.path = some d.text := by
  unfold shfsMkdir
  split
  · exact h
  · rw [World.named_eq]
    refine World.ifOk_keeps (P := fun w => w.far.Only fun c => c.path = some d.text)
      (World.send_path hd hnul h builds_mkdir stack) fun _ w₁ h₁ => ?_
    exact World.ifOk_keeps (P := fun w => w.far.Only fun c => c.path = some d.text)
      (shfsInstantiate_only hd hnul (fun _ _ h => h) h₁ frame new) fun _ _ h => h

theorem shfsCreate_path (stack : Bytes) (mode : UInt16) (frame : Frame) (new : NewInode) :
    (shfsCreate sb d stack mode frame new w).2.far.Only fun c => c.path = some d.text := by
  unfold shfsCreate
  split
  · exact h
  · rw [World.named_eq]
    refine World.ifOk_keeps (P := fun w => w.far.Only fun c => c.path = some d.text)
      (World.send_path hd hnul h (builds_create _) stack) fun _ w₁ h₁ => ?_
    refine World.ifOk_keeps (P := fun w => w.far.Only fun c => c.path = some d.text)
      (shfsInstantiate_only hd hnul (fun _ _ h => h) h₁ frame new) fun i w₂ h₂ => ?_
    dsimp only
    split
    · exact h₂
    · exact h₂

theorem shfsRmdir_path (stack : Bytes) :
    (shfsRmdir sb d true stack w).2.far.Only fun c => c.path = some d.text := by
  unfold shfsRmdir
  split
  · exact h
  · rw [if_neg (by decide), World.named_eq]
    exact World.send_path hd hnul h builds_rmdir stack

theorem shfsUnlink_path (stack : Bytes) :
    (shfsUnlink sb d stack w).2.far.Only fun c => c.path = some d.text := by
  unfold shfsUnlink
  split
  · exact h
  · rw [World.named_eq]
    exact World.send_path hd hnul h builds_unlink stack

theorem shfsReadlink_path (stack realName : Bytes) :
    (shfsReadlink sb d stack realName w).2.far.Only fun c => c.path = some d.text := by
  have hsend : ∀ answer : Cmd → τ → Except Errno LinkAnswer × τ,
      (w.send answer (shellReadlinkCmd · realName) (getName d stack).2).2.far.Only
        fun c => c.path = some d.text := by
    intro answer
    refine World.send_only h fun c hc => ?_
    rw [shellReadlinkCmd, onPaths] at hc
    cases hreal : checkPath realName with
    | none =>
      rw [hreal] at hc
      cases hquoted : checkPath (getName d stack).2 <;> (rw [hquoted] at hc; cases hc)
    | some real =>
      rw [hreal] at hc
      have hbuilds : Builds fun name => onPath name fun name =>
          ⟨ascii "s_readlink", squoted name⟩ :=
        ⟨_, fun _ => rfl, fun _ => ⟨[], by simp, by simp⟩⟩
      refine Dentry.cmd_path hd hnul hbuilds stack c ?_
      rw [onPath, Option.map_eq_bind]
      exact hc
  rw [shfsReadlink_snd, World.readlink_snd]
  exact hsend _

theorem shfsFileOpen_path (i : ℕ) (stack : Bytes) (mode : AccMode) (mem : Memory) :
    (shfsFileOpen sb ⟨d, i⟩ stack mode mem w).2.far.Only fun c => c.path = some d.text := by
  have hsend : (w.send sb.host.status (shellOpen · mode) (getName d stack).2).2.far.Only
    fun c => c.path = some d.text := World.send_path hd hnul h (builds_open mode) stack
  unfold shfsFileOpen
  split
  · exact h
  · rw [getName_short hd] at hsend ⊢
    refine World.ifOk_keeps (P := fun w => w.far.Only fun c => c.path = some d.text) hsend
      fun r w₁ h₁ => ?_
    dsimp only
    split
    · rw [World.putSlot_far, fcacheFileOpen_remote]
      exact h₁
    · exact h₁

theorem shfsRefreshInode_path (i : ℕ) (frame : Frame) :
    (shfsRefreshInode sb ⟨d, i⟩ frame w).2.far.Only fun c => c.path = some d.text := by
  unfold shfsRefreshInode
  split
  · exact h
  · split
    · exact h
    · rw [World.named_eq]
      refine World.ifOk_keeps (P := fun w => w.far.Only fun c => c.path = some d.text)
        (World.send_path hd hnul h (builds_doLs true) frame.name) fun fattr w₁ h₁ => ?_
      split
      · exact h₁
      · split
        · exact h₁
        · exact h₁

theorem shfsRevalidateInode_path (i : ℕ) (age : Age) (frame : Frame) :
    (shfsRevalidateInode sb ⟨d, i⟩ age frame w).2.far.Only fun c => c.path = some d.text := by
  unfold shfsRevalidateInode
  dsimp only
  split
  · exact h
  · exact shfsRefreshInode_path (w := w.lock sb) hd hnul h i frame

theorem shfsReaddir_path (i : ℕ) (age : Age) (frame : Frame) (how : DirRead) :
    (shfsReaddir sb ⟨d, i⟩ age frame how w).2.far.Only fun c => c.path = some d.text := by
  cases how with
  | dots => exact h
  | cached => exact shfsRevalidateInode_path hd hnul h i age frame
  | list page stack fills =>
    refine World.ifOk_keeps (P := fun w => w.far.Only fun c => c.path = some d.text)
      (shfsRevalidateInode_path hd hnul h i age frame) fun _ w₁ h₁ => ?_
    have hpage : (if page then (w₁.lock sb).unlock sb else w₁).far.Only
        fun c => c.path = some d.text := by
      split
      · exact h₁
      · exact h₁
    rw [World.named_eq]
    refine World.ifOk_keeps (P := fun w => w.far.Only fun c => c.path = some d.text)
      (World.send_path hd hnul hpage (builds_doLs false) stack) fun l w₂ h₂ => ?_
    exact (congrArg (Far.Only fun c => c.path = some d.text)
      (lsLoop_fillLine_far l.residue l.lost l.lines (w₂, fills))).mpr h₂

theorem shfsSlowRead_path (i : ℕ) (stack : Bytes) (page : Bool) (count offset : ℕ) :
    (shfsSlowRead sb ⟨d, i⟩ stack page count offset w).2.far.Only fun c =>
      c.path = some d.text := by
  unfold shfsSlowRead
  cases page with
  | false => exact h
  | true =>
    dsimp only
    rw [if_neg (by decide), World.named_eq]
    have hlock : (w.lock sb).far.Only fun c => c.path = some d.text := h
    exact hlock.issue (Dentry.cmd_path hd hnul (builds_read ..) stack)

omit h in
variable (sb) in
theorem fcacheFileSync_path {f : File} (hf : f.dentry = d) {s : Slot (Far τ)}
    (hs : s.remote.Only fun c => c.path = some d.text) :
    (fcacheFileSync sb.fops f s).2.remote.Only fun c => c.path = some d.text := by
  refine fcacheFileSync_keeps' hs fun ino c _ => ?_
  rw [hf]
  exact Far.Only.issue hs (Dentry.cmd_path hd hnul (builds_write ..) f.stack)

theorem unsetWrite_path (i : ℕ) (stack : Bytes) :
    (w.unsetWrite sb ⟨d, i⟩ stack).far.Only fun c => c.path = some d.text := by
  unfold World.unsetWrite
  split
  · exact h
  · dsimp only
    split
    · rw [World.named_eq]
      exact World.ifOk_keeps (P := fun w => w.far.Only fun c => c.path = some d.text)
        (World.send_path hd hnul h (builds_chmod _) stack) fun _ _ h₁ => h₁
    · exact h

theorem shfsFileRelease_path (i : ℕ) (cacheStack stack : Bytes) :
    (shfsFileRelease sb ⟨d, i⟩ cacheStack stack w).far.Only fun c => c.path = some d.text := by
  unfold shfsFileRelease
  refine unsetWrite_path hd hnul ?_ i stack
  split
  · have hclose :=
      fcacheFileSync_path sb hd hnul (f := w.file ⟨d, i⟩ cacheStack) (s := w.slot i) rfl h
    rw [← fcacheFileClose_remote] at hclose
    rcases hr : fcacheFileClose sb.fops (w.file ⟨d, i⟩ cacheStack) (w.slot i) with ⟨e | u, s⟩
    · rw [hr] at hclose
      exact hclose
    · rw [hr] at hclose
      exact hclose
  · exact h

end Paths

/-! ### Several commands from one buffer -/

section Faithful

variable {τ : Type} {sb : SuperBlock τ} {w : World τ} (hw : w.far.cmds = [])
include hw

theorem World.slot_still (i : ℕ) : w.slot i = (w.still i).watch := by
  obtain ⟨inodes, free, ⟨server, cmds⟩⟩ := w
  obtain rfl : cmds = [] := hw
  rfl

omit hw in
/-- A path that does not fit when it is quoted does not fit when it is quoted twice. -/
theorem NameCall.faithful_of_unfit {n : Node} (h : ¬ Fits n.dentry.text) (stack : Bytes)
    (mem : Memory) (call : PathCall) : Faithful sb w n stack mem call := by
  refine .inr (.inl fun hfits => h ?_)
  exact (Nat.succ_le_succ (le_length_iterate (quoteText n.dentry.text) 1)).trans hfits

variable {n : Node} (hd : ¬ n.dentry.TooLong) (hnul : (0 : Byte) ∉ n.dentry.text) {stack : Bytes}
  {mem : Memory}
include hd hnul

omit hw in
/-- It is refused then. -/
theorem checkPath_unfit (h : ¬ Fits n.dentry.text) :
    checkPath (getName n.dentry stack).2 = none := by
  rw [getName_short hd, checkPath_eq hnul (Dentry.length_of_short hd)]
  exact if_pos (Nat.lt_of_not_le h)

theorem fcacheFileRead_faithful {fuel : ℕ} {span : Span} {r : Except Errno Bytes × Slot (Far τ)}
    (h : fcacheFileRead sb.fops sb.fcacheSize fuel mem (w.file n stack) span.offset span.count
      (w.slot n.inode) = some r) :
    SameFile n.dentry.text r.2.remote.cmds ↔ NameCall.Faithful sb w n stack mem (.read span) := by
  by_cases hfit : Fits n.dentry.text
  · rw [World.slot_still hw] at h
    exact (PathCall.leaves (f := w.file n stack) hnul hfit (.read span)
      (Option.map_eq_some_iff.mpr ⟨r, h, rfl⟩)).sameFile_iff
  · obtain ⟨hremote, -⟩ :=
      fcacheFileRead_silent (f := w.file n stack) (checkPath_unfit hd hnul hfit) h
    refine iff_of_true (fun c hc => ?_) (NameCall.faithful_of_unfit hfit ..)
    rw [hremote, show (w.slot n.inode).remote.cmds = [] from hw] at hc
    cases hc

theorem fcacheFileWrite_faithful {fuel : ℕ} {offset : UInt32} {buffer : Bytes}
    {r : Except Errno ℕ × Slot (Far τ)}
    (h : fcacheFileWrite sb.fops sb.fcacheSize fuel mem (w.file n stack) offset.toNat buffer
      (w.slot n.inode) = some r) :
    SameFile n.dentry.text r.2.remote.cmds ↔
      NameCall.Faithful sb w n stack mem (.write offset buffer) := by
  by_cases hfit : Fits n.dentry.text
  · rw [World.slot_still hw] at h
    exact (PathCall.leaves (f := w.file n stack) hnul hfit (.write offset buffer)
      (Option.map_eq_some_iff.mpr ⟨r, h, rfl⟩)).sameFile_iff
  · obtain ⟨hremote, -⟩ :=
      fcacheFileWrite_silent (f := w.file n stack) (checkPath_unfit hd hnul hfit) h
    refine iff_of_true (fun c hc => ?_) (NameCall.faithful_of_unfit hfit ..)
    rw [hremote, show (w.slot n.inode).remote.cmds = [] from hw] at hc
    cases hc

theorem shfsNotifyChange_faithful (verdicts : Verdicts) (attr : Iattr) (inode : Stat) :
    SameFile n.dentry.text (shfsNotifyChange (shellAops sb.host.toRemote) sb.info verdicts n.dentry
        stack attr inode w.far).2.2.cmds ↔
      NameCall.Faithful sb w n stack mem (.notify sb.info verdicts attr inode) := by
  by_cases hfit : Fits n.dentry.text
  · have hfar : w.far = (w.still n.inode).watch.remote :=
      congrArg Slot.remote (World.slot_still hw n.inode)
    rw [hfar]
    exact (PathCall.leaves hnul hfit (.notify sb.info verdicts attr inode)
      (show PathCall.cmds sb.host.toRemote sb.fcacheSize 0 mem (w.file n stack) (w.still n.inode)
        (.notify sb.info verdicts attr inode) = some _ from rfl)).sameFile_iff
  · obtain ⟨hremote, -⟩ :=
      shfsNotifyChange_silent sb.host.toRemote sb.info verdicts attr n.dentry stack
      inode w.far (checkPath_unfit hd hnul hfit)
    refine iff_of_true (fun c hc => ?_) (NameCall.faithful_of_unfit hfit ..)
    rw [hremote, hw] at hc
    cases hc

end Faithful

/-! ## Every call comes back, and meets what is wanted of it -/

section Calls

variable {τ : Type} {sb : SuperBlock τ} {w : World τ} {c : NameCall} {fuel : ℕ}
  {r : Except Errno Unit × World τ}

/-- **A path that fits** is the one that is sent, in every command of the call, exactly if the call
is steady. -/
theorem NameCall.meant_iff (hw : w.far.cmds = []) (hshort : ¬ c.TooLong)
    (hnul : ∀ s ∈ c.texts, (0 : Byte) ∉ s) (h : c.run sb fuel w = some r) :
    (∀ cmd ∈ r.2.far.cmds, c.Meant cmd) ↔ c.Steady sb w := by
  have hd : ¬ c.dentry.TooLong := fun hlong => hshort (.inl hlong)
  -- a function that sends one command is steady; those that may send more use the same buffer for
  -- all of them, and are as good as `Faithful` says
  cases c with
  | lookup d frame new =>
    obtain rfl := Option.some.inj h
    exact iff_of_true (shfsLookup_path hd (hnul _ (.head _)) (World.only_of_fresh hw) frame new)
      trivial
  | mkdir d stack frame new =>
    obtain rfl := Option.some.inj h
    exact iff_of_true
      (shfsMkdir_path hd (hnul _ (.head _)) (World.only_of_fresh hw) stack frame new)
      trivial
  | create d stack mode frame new =>
    obtain rfl := Option.some.inj h
    exact iff_of_true
      (shfsCreate_path hd (hnul _ (.head _)) (World.only_of_fresh hw) stack mode frame new) trivial
  | rmdir d stack =>
    obtain rfl := Option.some.inj h
    exact iff_of_true (shfsRmdir_path hd (hnul _ (.head _)) (World.only_of_fresh hw) stack) trivial
  -- two paths in one command, each from a buffer of its own
  | rename old new oldStack newStack =>
    obtain rfl := Option.some.inj h
    have hold : ¬ old.TooLong := fun hlong => hshort (.inr ⟨old, rfl, hlong⟩)
    have hnew : ¬ new.TooLong := hd
    refine iff_of_true ?_ trivial
    change (shfsRename sb old new oldStack newStack w).2.far.Only fun cmd =>
      cmd.words = [old.text, new.text]
    unfold shfsRename
    split
    · exact World.only_of_fresh hw
    · rw [World.named_eq, World.named_eq, getName_short hold, getName_short hnew]
      refine World.send_only (World.only_of_fresh hw) fun cmd hcmd => ?_
      exact (onPaths_words (Dentry.length_of_short hold) (Dentry.length_of_short hd)
        (hnul _ (.head _)) (hnul _ (.tail _ (.head _))) hcmd).2
  | unlink d stack =>
    obtain rfl := Option.some.inj h
    exact iff_of_true (shfsUnlink_path hd (hnul _ (.head _)) (World.only_of_fresh hw) stack) trivial
  -- a second command asks for the attributes of what has been made; it has the new path only
  | link old new oldStack newStack frame inode =>
    obtain rfl := Option.some.inj h
    have hold : ¬ old.TooLong := fun hlong => hshort (.inr ⟨old, rfl, hlong⟩)
    have hnew : ¬ new.TooLong := hd
    refine iff_of_true ?_ trivial
    change (shfsLink sb old new oldStack newStack frame inode w).2.far.Only
      (Meant (.link old new oldStack newStack frame inode))
    unfold shfsLink
    split
    · exact World.only_of_fresh hw
    · rw [World.named_eq, World.named_eq, getName_short hold, getName_short hnew]
      refine World.ifOk_keeps (P := fun w => w.far.Only
        (Meant (.link old new oldStack newStack frame inode))) ?_ fun _ w₁ h₁ => ?_
      · refine World.send_only (World.only_of_fresh hw) fun cmd hcmd => ?_
        obtain ⟨hname, hwords⟩ := onPaths_words (Dentry.length_of_short hold)
          (Dentry.length_of_short hd) (hnul _ (.head _)) (hnul _ (.tail _ (.head _))) hcmd
        rw [Meant, hname, if_neg (by decide)]
        exact hwords
      · refine World.ifOk_keeps (P := fun w => w.far.Only
          (Meant (.link old new oldStack newStack frame inode))) ?_ fun _ _ h₂ => h₂
        refine shfsInstantiate_only hd (hnul _ (.tail _ (.head _))) (fun cmd hcmd hpath => ?_) h₁
          frame inode
        rw [Meant, if_pos hcmd]
        exact hpath
  | symlink d oldname stack frame inode =>
    obtain rfl := Option.some.inj h
    have hnew : ¬ d.TooLong := hd
    refine iff_of_true ?_ trivial
    change (shfsSymlink sb d oldname stack frame inode w).2.far.Only
      (Meant (.symlink d oldname stack frame inode))
    unfold shfsSymlink
    split
    · exact World.only_of_fresh hw
    · rw [World.named_eq, getName_short hnew]
      split
      · exact World.only_of_fresh hw
      · next hroom =>
        refine World.ifOk_keeps (P := fun w => w.far.Only
          (Meant (.symlink d oldname stack frame inode))) ?_ fun _ w₁ h₁ => ?_
        · refine World.send_only (World.only_of_fresh hw) fun cmd hcmd => ?_
          obtain ⟨hname, hwords⟩ := onPaths_words (Nat.lt_of_succ_le (Nat.le_of_not_lt hroom))
            (Dentry.length_of_short hd) (hnul _ (.head _)) (hnul _ (.tail _ (.head _))) hcmd
          rw [Meant, hname, if_neg (by decide)]
          exact hwords
        · refine World.ifOk_keeps (P := fun w => w.far.Only
            (Meant (.symlink d oldname stack frame inode))) ?_ fun _ _ h₂ => h₂
          refine shfsInstantiate_only hd (hnul _ (.tail _ (.head _))) (fun cmd hcmd hpath => ?_) h₁
            frame inode
          rw [Meant, if_pos hcmd]
          exact hpath
  | readdir n age frame how =>
    obtain rfl := Option.some.inj h
    refine iff_of_true ?_ trivial
    exact shfsReaddir_path hd (hnul _ (.head _)) (World.only_of_fresh hw) n.inode age frame how
  | refreshInode n frame =>
    obtain rfl := Option.some.inj h
    exact iff_of_true
      (shfsRefreshInode_path hd (hnul _ (.head _)) (World.only_of_fresh hw) n.inode frame) trivial
  | notifyChange verdicts n stack attr =>
    obtain rfl := Option.some.inj h
    change SameFile n.dentry.text (w.setattr sb verdicts n stack attr).2.far.cmds ↔
      ∀ v ∈ w.inodes[n.inode]?,
        Faithful sb w n stack ⟨false, none⟩ (.notify sb.info verdicts attr v.stat)
    unfold World.setattr
    cases w.inodes[n.inode]? with
    | none =>
      refine iff_of_true (World.only_of_fresh hw) fun v hmem => ?_
      cases hmem
    | some v =>
      have hfaithful : SameFile n.dentry.text (shfsNotifyChange (shellAops sb.host.toRemote) sb.info
          verdicts n.dentry stack attr v.stat w.far).2.2.cmds ↔
            Faithful sb w n stack ⟨false, none⟩ (.notify sb.info verdicts attr v.stat) :=
        shfsNotifyChange_faithful hw hd (hnul _ (.head _)) verdicts attr v.stat
      refine hfaithful.trans ⟨fun hf u hu => ?_, fun hall => hall v rfl⟩
      obtain rfl := Option.some.inj hu
      exact hf
  | fileOpen n stack mode mem =>
    obtain rfl := Option.some.inj h
    refine iff_of_true ?_ trivial
    exact shfsFileOpen_path hd (hnul _ (.head _)) (World.only_of_fresh hw) n.inode stack mode mem
  | fileRelease n cacheStack stack =>
    obtain rfl := Option.some.inj h
    refine iff_of_true ?_ trivial
    exact shfsFileRelease_path hd (hnul _ (.head _)) (World.only_of_fresh hw) n.inode
      cacheStack stack
  | fileReadpage n stack mem index =>
    -- its loop makes one round
    obtain ⟨result, w₁, hread, rfl⟩ := shfsFileReadpage_once h
    change SameFile n.dentry.text w₁.far.cmds ↔ (sb.fcacheSize ≠ 0 → _)
    unfold Paging.read at hread
    split at hread
    · next hsize =>
      obtain ⟨q, hq, heq⟩ := Option.map_eq_some_iff.mp hread
      obtain ⟨rfl, rfl⟩ := Prod.mk.inj heq
      rw [imp_iff_right hsize]
      exact fcacheFileRead_faithful (w := w.lock sb) hw hd (hnul _ (.head _))
        (show fcacheFileRead sb.fops sb.fcacheSize fuel mem _ (Span.page index).offset _ _ =
          some q from hq)
    · next hsize =>
      rw [World.named_eq] at hread
      obtain ⟨-, rfl⟩ := Prod.mk.inj (Option.some.inj hread)
      refine iff_of_true ?_ fun hne => absurd hne hsize
      have hlock : (w.lock sb).far.Only fun cmd => cmd.path = some n.dentry.text :=
        World.only_of_fresh hw
      exact hlock.issue (Dentry.cmd_path hd (hnul _ (.head _)) (builds_read ..) stack)
  | slowRead n stack page count offset =>
    obtain rfl := Option.some.inj h
    refine iff_of_true ?_ trivial
    exact shfsSlowRead_path hd (hnul _ (.head _)) (World.only_of_fresh hw) n.inode stack page count
      offset
  | readlink d stack realName =>
    obtain rfl := Option.some.inj h
    exact iff_of_true
      (shfsReadlink_path hd (hnul _ (.head _)) (World.only_of_fresh hw) stack realName) trivial
  | cacheRead n stack mem span =>
    obtain ⟨q, hq, rfl⟩ := Option.map_eq_some_iff.mp h
    exact fcacheFileRead_faithful hw hd (hnul _ (.head _)) hq
  | cacheWrite n stack mem offset buffer =>
    obtain ⟨q, hq, rfl⟩ := Option.map_eq_some_iff.mp h
    exact fcacheFileWrite_faithful hw hd (hnul _ (.head _)) hq
  | cacheSync n stack =>
    obtain rfl := Option.some.inj h
    refine iff_of_true ?_ trivial
    exact fcacheFileSync_path sb hd (hnul _ (.head _)) (f := w.file n stack)
      (s := w.slot n.inode) rfl
      (World.only_of_fresh hw)

/-- Every round of a write takes some octets, or is the last one. -/
theorem Writing.loop_total {σ : Type} (ops : Fops σ) {size : ℕ} (hpos : 0 < size) (ino : ℕ)
    {v : Writing σ} (hfuel : v.count ≤ fuel) :
    ∃ out, loop (fun v => decide (v.count ≠ 0)) (Writing.drain ops size ino) fuel v = some out := by
  refine Lib.loop_total (fun _ => True) Writing.count
    (fun v _ hne => Nat.pos_of_ne_zero (of_decide_eq_true hne)) ?_ trivial hfuel
  intro v _ hne v' hdrain
  have hcount : v.count ≠ 0 := of_decide_eq_true hne
  refine ⟨trivial, ?_⟩
  cases hres : (v.request ops ino).result with
  | error e =>
    obtain ⟨v'', hv'', -⟩ := Writing.drain_error ops size ino hres
    rw [hv''] at hdrain
    cases hdrain
  | ok n =>
    obtain ⟨v'', hv'', -, -, -, hleft, -⟩ := Writing.drain_ok ops size ino hres
    rw [hv''] at hdrain
    obtain rfl := Sum.inr.inj hdrain
    omega

theorem fcacheFileWrite_total {σ : Type} (ops : Fops σ) {size : ℕ}
    (hpos : 0 < size) {buffer : Bytes} (hfuel : buffer.length ≤ fuel) (mem : Memory) (f : File)
    (offset : ℕ) (s : Slot σ) :
    ∃ q, fcacheFileWrite ops size fuel mem f offset buffer s = some q := by
  unfold fcacheFileWrite
  cases f.checkName with
  | error e => exact ⟨_, rfl⟩
  | ok x =>
    dsimp only
    cases (s.alloc mem).cache with
    | none => exact ⟨_, rfl⟩
    | some c =>
      have htaken : (Writing.start size x.2 offset buffer c (s.alloc mem).remote).count ≤
          buffer.length := by
        have hle : ∀ {v v' : Writing σ}, v.Puts size v' → v'.count ≤ v.count := by
          rintro v v' (rfl | ⟨o, n, -, -, -, -, rfl⟩)
          · exact Nat.le_refl _
          · simp [Writing.put, Writing.count]
        exact (hle (Writing.append_puts _)).trans (hle (Writing.overwrite_puts _))
      obtain ⟨out, hout⟩ := Writing.loop_total ops hpos x.1 (htaken.trans hfuel)
      dsimp only
      rw [hout]
      exact ⟨_, rfl⟩

/-- Every call comes back. -/
theorem NameCall.run_total (hsize : PAGE_SIZE ∣ sb.fcacheSize) (happlies : c.Applies sb w)
    (hfuel : c.rounds ≤ fuel) : ∃ r, c.run sb fuel w = some r := by
  cases c with
  | fileReadpage n stack mem index =>
    exact shfsFileReadpage_total hsize hfuel n stack mem index w
  | cacheRead n stack mem span =>
    obtain ⟨q, hq⟩ : ∃ q, fcacheFileRead sb.fops sb.fcacheSize fuel mem (w.file n stack) span.offset
        span.count (w.slot n.inode) = some q :=
      fcacheFileRead_total hsize (Nat.pos_of_ne_zero happlies) hfuel mem _ span.offset _
    exact ⟨_, Option.map_eq_some_iff.mpr ⟨q, hq, rfl⟩⟩
  | cacheWrite n stack mem offset buffer =>
    obtain ⟨q, hq⟩ := fcacheFileWrite_total sb.fops (Nat.pos_of_ne_zero happlies) hfuel mem
      (w.file n stack) offset.toNat (w.slot n.inode)
    exact ⟨_, Option.map_eq_some_iff.mpr ⟨q, hq, rfl⟩⟩
  | _ => exact ⟨_, rfl⟩

/-- **Over-long paths**: a call comes back, and it does what is wanted exactly if it is safe. A path
that is too long is refused with no command sent when a command comes first, or the cache refuses
the file; and a path that fits is the one that is sent when the buffer still has it. -/
theorem nameCall_meets_iff (hsize : PAGE_SIZE ∣ sb.fcacheSize) (hw : w.far.cmds = [])
    (happlies : c.Applies sb w) (hnul : ∀ s ∈ c.texts, (0 : Byte) ∉ s) (hfuel : c.rounds ≤ fuel) :
    ∃ r, c.run sb fuel w = some r ∧ (c.Meets r ↔ c.Safe sb w) := by
  obtain ⟨r, hr⟩ := NameCall.run_total hsize happlies hfuel
  refine ⟨r, hr, and_congr ?_ ?_⟩
  · exact forall_congr' fun hlong => NameCall.refusal_iff hw hlong happlies hr
  · exact forall_congr' fun hshort => NameCall.meant_iff hw hshort hnul hr

end Calls

/-! ### A deep tree -/

/-- A name of 255 octets, which is as long as a name may be. -/
def longName : Bytes := List.replicate 255 97

/-- A directory three levels down, with a path of 768 octets. -/
def deepDentry : Dentry := .child (.child (.child .root longName) longName) longName

/-- A mount without a file cache, on a server that answers nothing but errors. -/
def deafSuper : SuperBlock Unit := ⟨deafHost, ⟨false, false, 0, 0⟩, 0xFFFF, 0, stillClock⟩

/-- An open of it. -/
theorem deep_meets_iff :
    ∃ r, (NameCall.fileOpen ⟨deepDentry, 0⟩ [] .rdonly ⟨true, none⟩).run deafSuper 0
        ⟨[], 0, ⟨(), []⟩⟩ = some r ∧
      ((NameCall.fileOpen ⟨deepDentry, 0⟩ [] .rdonly ⟨true, none⟩).Meets r ↔
        (NameCall.fileOpen ⟨deepDentry, 0⟩ [] .rdonly ⟨true, none⟩).Safe deafSuper
          ⟨[], 0, ⟨(), []⟩⟩) :=
  nameCall_meets_iff (Nat.dvd_zero _) rfl trivial (by decide +kernel) (Nat.le_refl _)

/-- The buffer holds the path of another directory, and that one is removed. -/
theorem not_meets_rmdir :
    ¬ ∀ (c : NameCall) (w : World Unit) (r : Except Errno Unit × World Unit), w.far.cmds = [] →
      (∀ s ∈ c.texts, (0 : Byte) ∉ s) → c.run deafSuper 0 w = some r → c.Meets r := by
  intro h
  have hmeets := h (.rmdir deepDentry (ascii "/x")) ⟨[], 0, ⟨(), []⟩⟩ _ rfl (by decide +kernel) rfl
  have hlong : (NameCall.rmdir deepDentry (ascii "/x")).TooLong := by
    left
    change SHFS_PATH_MAX < deepDentry.text.length + 1
    decide +kernel
  have hcmds := (hmeets.1 hlong).1
  revert hcmds
  decide +kernel

end Shfs
