import Shfs.InodeModes
import Shfs.Shfsmount

/-!
# Who may unmount

`umount_ok` (shfsumount.c) asks the mount itself. `statfs` gets the type from `shell_statfs`, and
fails with it when the server does not answer; `lstat` gets the attributes of the root, which
`shfs_refresh_inode` never asks the server about. So its answer rests on what `init_root_dirent` has
taken from the options, and an operation changes that only by a `chmod` or a `chown` of the root
that the server accepts: an entry of a directory is never stored in the root, and neither
`shfs_create` nor `shfs_file_release` has a note about it.
-/

namespace Shfs

open Lib

/-! ## `umount_ok` -/

/-- `SHFS_SUPER_MAGIC` -/
abbrev SHFS_SUPER_MAGIC : ℕ := 0xD0D0

/-- `S_IRWXU` -/
abbrev S_IRWXU : UInt16 := 0x1C0

/-- `ENOTDIR` -/
abbrev Errno.enotdir : Errno := .other 20

/-- `umount_ok`, with what `getuid`, `statfs` (the type) and `lstat` say. -/
def umountOk (uid : UInt32) (stfs : Except Errno ℕ) (st : Except Errno Stat) :
    Except Errno Unit := do
  let type ← stfs
  if type ≠ SHFS_SUPER_MAGIC then .error .einval
  else
    let st ← st
    if st.mode &&& S_IFMT ≠ S_IFDIR then .error .enotdir
    else if uid ≠ 0 ∧ (uid ≠ st.uid ∨ st.mode &&& S_IRWXU ≠ S_IRWXU) then .error .eperm
    else .ok ()

section Calls

variable {τ : Type} (sb : SuperBlock τ)

/-- `statfs` of the mount point: the type that `shell_statfs` fills in. -/
def World.statfs (w : World τ) : Except Errno ℕ × World τ :=
  World.ifOk (shfsStatfs sb w) fun _ w => (.ok SHFS_SUPER_MAGIC, w)

/-- `lstat` of the mount point: the attributes that `shfs_getattr` leaves there. -/
def World.lstat (age : Age) (frame : Frame) (w : World τ) : Except Errno Stat × World τ :=
  World.ifOk (shfsGetattr sb ⟨.root, 0⟩ age frame w) fun _ w =>
    match w.inodes[0]? with
    | none => (.error .eio, w)
    | some v => (.ok v.stat, w)

/-- `umount_ok` on a mount. -/
def World.umountOk (uid : UInt32) (age : Age) (frame : Frame) (w : World τ) : Except Errno Unit :=
  let (stfs, w) := w.statfs sb
  Shfs.umountOk uid stfs (w.lstat sb age frame).1

end Calls

/-! ## The inode of the root -/

/-- The inode is the root's, as the options have made it. -/
structure VInode.IsRoot (info : SbInfo) (v : VInode) : Prop where
  ino : v.ino = 2
  note : v.unsetWriteOnClose = false
  mode : v.stat.mode = .ofNat info.rootMode
  uid : v.stat.uid = info.uid

/-- The first inode is. -/
def World.Rooted {τ : Type} (info : SbInfo) (w : World τ) : Prop :=
  ∃ v, w.inodes[0]? = some v ∧ v.IsRoot info

section Rooted

variable {τ : Type} {sb : SuperBlock τ} {info : SbInfo} {w : World τ}

/-- A change of an inode that leaves the root as it is. -/
theorem World.Rooted.update (h : w.Rooted info) {i : ℕ} {f : VInode → VInode}
    (hf : ∀ v, i = 0 → w.inodes[0]? = some v → v.IsRoot info → (f v).IsRoot info) :
    (w.update i f).Rooted info := by
  obtain ⟨v, hv, hroot⟩ := h
  by_cases hi : i = 0
  · subst hi
    exact ⟨f v, by rw [World.update, List.getElem?_modify_eq, hv]; rfl, hf v rfl hv hroot⟩
  · exact ⟨v, by rw [World.update, List.getElem?_modify_ne _ _ hi, hv], hroot⟩

/-- A change of another inode. -/
theorem World.Rooted.update_ne (h : w.Rooted info) {i : ℕ} (hi : i ≠ 0) (f : VInode → VInode) :
    (w.update i f).Rooted info :=
  h.update fun _ hzero => absurd hzero hi

/-- There is one inode at least. -/
theorem World.Rooted.length_pos (h : w.Rooted info) : 0 < w.inodes.length := by
  obtain ⟨v, hv, -⟩ := h
  exact (List.getElem?_eq_some_iff.mp hv).1

/-- The slot of an inode is no business of the root. -/
theorem World.Rooted.putSlot (h : w.Rooted info) (i : ℕ) (s : Slot (Far τ)) :
    (w.putSlot i s).Rooted info :=
  h.update fun _ _ _ hroot => ⟨hroot.ino, hroot.note, hroot.mode, hroot.uid⟩

theorem shfsIget_rooted (h : w.Rooted info) (ino : ℕ) (memory : Bool) (fattr : Fattr) :
    (shfsIget sb ino memory fattr w).2.Rooted info := by
  cases memory with
  | false => exact h
  | true =>
    obtain ⟨v, hv, hroot⟩ := h
    exact ⟨v, (List.getElem?_append_left (World.Rooted.length_pos ⟨v, hv, hroot⟩)).trans hv, hroot⟩

/-- A new inode is not the root. -/
theorem shfsIget_ne (h : w.Rooted info) {ino : ℕ} {memory : Bool} {fattr : Fattr} {i : ℕ}
    (hi : (shfsIget sb ino memory fattr w).1 = some i) : i ≠ 0 := by
  cases memory with
  | false => cases hi
  | true =>
    obtain rfl := Option.some.inj hi
    exact h.length_pos.ne'

/-- **The root is never refreshed**: `shfs_refresh_inode` only renews its times, since its number is
2. So no listing changes its owner or its mode. -/
theorem shfsRefreshInode_rooted (h : w.Rooted info) (n : Node) (frame : Frame) :
    (shfsRefreshInode sb n frame w).2.Rooted info := by
  unfold shfsRefreshInode
  cases hv : w.inodes[n.inode]? with
  | none => exact h
  | some v =>
    dsimp only
    split
    · exact h
    · next hino =>
      have hne : n.inode ≠ 0 := by
        intro hi
        obtain ⟨u, hu, hroot⟩ := h
        rw [hi, hu] at hv
        exact hino (Option.some.inj hv ▸ hroot.ino)
      rw [World.named_eq]
      refine World.ifOk_keeps (P := World.Rooted info) h fun fattr w' h' => ?_
      split
      · exact h'
      · split
        · exact h'.update_ne hne _
        · exact h'.update_ne hne _

/-! ## Every operation -/

theorem shfsRevalidateInode_rooted (h : w.Rooted info) (n : Node) (age : Age) (frame : Frame) :
    (shfsRevalidateInode sb n age frame w).2.Rooted info := by
  have hlock : (w.lock sb).Rooted info := h
  unfold shfsRevalidateInode
  dsimp only
  split
  · exact hlock
  · exact shfsRefreshInode_rooted hlock n frame

theorem shfsLookup_rooted (h : w.Rooted info) (d : Dentry) (frame : Frame) (new : NewInode) :
    (shfsLookup sb d frame new w).2.Rooted info := by
  unfold shfsLookup
  rw [World.named_eq]
  have hstat : (shellStat sb (getName d frame.name).2 frame.fattr w).2.Rooted info := h
  rcases hr : shellStat sb (getName d frame.name).2 frame.fattr w with ⟨e | fattr, w'⟩
  · rw [hr] at hstat
    split
    · next heq => exact (Prod.mk.inj heq).2 ▸ hstat
    · next heq => exact (Prod.mk.inj heq).2 ▸ hstat
    · next heq => cases heq
  · rw [hr] at hstat
    exact shfsIget_rooted hstat _ _ _

theorem shfsDRevalidate_rooted (h : w.Rooted info) (n : Node) (positive old : Bool) (age : Age)
    (frame : Frame) : (shfsDRevalidate sb n positive old age frame w).2.Rooted info := by
  have hrev : (shfsRevalidateInode sb n age frame (w.lock sb)).2.Rooted info :=
    shfsRevalidateInode_rooted (w := w.lock sb) h n age frame
  unfold shfsDRevalidate
  split
  · exact h
  · dsimp only
    split
    · exact h
    · split
      · rcases hr : shfsRevalidateInode sb n age frame (w.lock sb) with ⟨e | u, w'⟩
        · rw [hr] at hrev
          exact hrev
        · rw [hr] at hrev
          exact hrev
      · exact h

/-- What a listing has for another inode. -/
theorem shfsFillCache_rooted (h : w.Rooted info) (fattr : Fattr) {target : FillTarget}
    (ht : target ≠ .existing 0) : (shfsFillCache sb fattr w target).Rooted info := by
  cases target with
  | existing i => exact h.update_ne (fun hi => ht (hi ▸ rfl)) _
  | new new => exact shfsIget_rooted h _ _ _
  | nowhere => exact h

theorem lsLoop_fillLine_rooted {residue : Bytes → Bytes} {lost : Errno} {lines : List Bytes}
    {v : World τ × List (FillTarget × Bool)} (h : v.1.Rooted info)
    (hfill : EachFill sb (fun _ _ target => target ≠ .existing 0) residue lines v) :
    (lsLoop (fillLine sb residue) lost lines v).2.1.Rooted info := by
  induction lines generalizing v with
  | nil => exact h
  | cons s lines ih =>
    unfold lsLoop
    split
    · exact h
    · next hs =>
      split
      · exact h
      · next hcode =>
        obtain ⟨hline, hrest⟩ := hfill hs hcode
        have hnext : (fillLine sb residue v s).1.1.Rooted info := by
          unfold fillLine
          cases hentry : lsEntry sb.fmask sb.clock (s ++ 0 :: residue s) with
          | none => exact h
          | some e =>
            dsimp only
            split
            · exact h
            · next target more fills hfills =>
              exact shfsFillCache_rooted h _ (hline _ _ target more fills hentry hfills)
        split
        · next hmore => exact ih hnext (hrest hmore)
        · exact hnext

theorem shfsReaddir_rooted (h : w.Rooted info) {n : Node} {age : Age} {frame : Frame}
    {how : DirRead}
    (hfill : (VfsOp.readdir n age frame how).Lists sb (fun _ _ target => target ≠ .existing 0) w) :
    (shfsReaddir sb n age frame how w).2.Rooted info := by
  have hrev : (shfsRevalidateInode sb n age frame w).2.Rooted info :=
    shfsRevalidateInode_rooted h n age frame
  cases how with
  | dots => exact h
  | cached => exact hrev
  | list page stack fills =>
    replace hfill : (shfsRevalidateInode sb n age frame w).1 = .ok () →
      EachEntry sb (fun _ _ target => target ≠ .existing 0) (getName n.dentry stack).2 fills
        (beforeListing sb n age frame page w) := hfill
    unfold EachEntry beforeListing at hfill
    unfold shfsReaddir
    rcases hr : shfsRevalidateInode sb n age frame w with ⟨e | u, w'⟩
    · rw [hr] at hrev
      exact hrev
    · rw [hr] at hrev hfill
      replace hfill := hfill rfl
      set w₁ := if page then (w'.lock sb).unlock sb else w' with hw₁
      have hbefore : w₁.Rooted info := by
        rw [hw₁]
        split
        · exact hrev
        · exact hrev
      change (w₁.named n.dentry stack fun name => shellReaddir sb name fills w₁).2.Rooted info
      rw [World.named_eq]
      have hsend : (w₁.send sb.host.listing (doLsCmd false) (getName n.dentry stack).2).2.Rooted
          info :=
        hbefore
      unfold shellReaddir
      rcases hl : w₁.send sb.host.listing (doLsCmd false) (getName n.dentry stack).2
        with ⟨e | l, w₂⟩
      · rw [hl] at hsend
        exact hsend
      · rw [hl] at hsend hfill
        exact lsLoop_fillLine_rooted hsend (hfill l rfl)

/-- The inode that `shfs_instantiate` gives the dentry is a new one. -/
theorem shfsInstantiate_rooted (h : w.Rooted info) (d : Dentry) (frame : Frame) (new : NewInode) :
    (shfsInstantiate sb d frame new w).2.Rooted info ∧
      ∀ i, (shfsInstantiate sb d frame new w).1 = .ok i → i ≠ 0 := by
  unfold shfsInstantiate
  rw [World.named_eq]
  have hstat : (shellStat sb (getName d frame.name).2 frame.fattr w).2.Rooted info := h
  rcases hr : shellStat sb (getName d frame.name).2 frame.fattr w with ⟨e | fattr, w'⟩
  · rw [hr] at hstat
    exact ⟨hstat, fun i hi => by cases hi⟩
  · rw [hr] at hstat
    have higet : (shfsIget sb new.ino new.memory fattr w').2.Rooted info :=
      shfsIget_rooted hstat _ _ _
    rw [World.ifOk]
    rcases hget : shfsIget sb new.ino new.memory fattr w' with ⟨_ | i, w''⟩
    · rw [hget] at higet
      exact ⟨higet, fun i hi => by cases hi⟩
    · rw [hget] at higet
      refine ⟨higet, fun j hj => ?_⟩
      obtain rfl : i = j := Except.ok.inj hj
      exact shfsIget_ne hstat (congrArg Prod.fst hget)

theorem shfsMkdir_rooted (h : w.Rooted info) (d : Dentry) (stack : Bytes) (frame : Frame)
    (new : NewInode) : (shfsMkdir sb d stack frame new w).2.Rooted info := by
  unfold shfsMkdir
  split
  · exact h
  · rw [World.named_eq]
    exact World.ifOk_keeps (P := World.Rooted info) h fun _ w' h' =>
      World.ifOk_keeps (shfsInstantiate_rooted h' d frame new).1 fun _ _ h'' => h''

theorem shfsCreate_rooted (h : w.Rooted info) (d : Dentry) (stack : Bytes) (mode : UInt16)
    (frame : Frame) (new : NewInode) : (shfsCreate sb d stack mode frame new w).2.Rooted info := by
  unfold shfsCreate
  split
  · exact h
  · rw [World.named_eq]
    dsimp only
    refine World.ifOk_keeps (P := World.Rooted info) h fun _ w' h' => ?_
    obtain ⟨hinst, hne⟩ : (shfsInstantiate sb d frame new w').2.Rooted info ∧
        ∀ i, (shfsInstantiate sb d frame new w').1 = .ok i → i ≠ 0 :=
      shfsInstantiate_rooted h' d frame new
    rcases hr : shfsInstantiate sb d frame new w' with ⟨e | i, w''⟩
    · rw [hr] at hinst
      exact hinst
    · rw [hr] at hinst hne
      rw [World.ifOk]
      dsimp only
      split
      · exact hinst.update_ne (hne i rfl) _
      · exact hinst

theorem shfsLink_rooted (h : w.Rooted info) (old new : Dentry) (oldStack newStack : Bytes)
    (frame : Frame) (inode : NewInode) :
    (shfsLink sb old new oldStack newStack frame inode w).2.Rooted info := by
  unfold shfsLink
  split
  · exact h
  · rw [World.named_eq, World.named_eq]
    exact World.ifOk_keeps (P := World.Rooted info) h fun _ w' h' =>
      World.ifOk_keeps (shfsInstantiate_rooted h' new frame inode).1 fun _ _ h'' => h''

theorem shfsSymlink_rooted (h : w.Rooted info) (d : Dentry) (oldname stack : Bytes) (frame : Frame)
    (inode : NewInode) : (shfsSymlink sb d oldname stack frame inode w).2.Rooted info := by
  unfold shfsSymlink
  split
  · exact h
  · rw [World.named_eq]
    split
    · exact h
    · exact World.ifOk_keeps (P := World.Rooted info) h fun _ w' h' =>
        World.ifOk_keeps (shfsInstantiate_rooted h' d frame inode).1 fun _ _ h'' => h''

theorem doFileFlush_rooted (h : w.Rooted info) (n : Node) (stack : Bytes) :
    (doFileFlush sb n stack w).2.Rooted info := by
  unfold doFileFlush
  split
  · rcases fcacheFileSync sb.fops (w.file n stack) (w.slot n.inode) with ⟨e | u, s⟩
    · exact h.putSlot _ s
    · exact h.putSlot n.inode s
  · exact h

/-- There is no note about the root. -/
theorem unsetWrite_rooted (h : w.Rooted info) (n : Node) (stack : Bytes) :
    (w.unsetWrite sb n stack).Rooted info := by
  unfold World.unsetWrite
  cases hv : w.inodes[n.inode]? with
  | none => exact h
  | some v =>
    dsimp only
    split
    · next hnote =>
      have hne : n.inode ≠ 0 := by
        intro hi
        obtain ⟨u, hu, hroot⟩ := h
        rw [hi, hu] at hv
        obtain rfl := Option.some.inj hv
        rw [hroot.note] at hnote
        cases hnote
      rw [World.named_eq]
      exact World.ifOk_keeps (P := World.Rooted info) h fun _ w' h' => h'.update_ne hne _
    · exact h

theorem shfsFileRelease_rooted (h : w.Rooted info) (n : Node) (cacheStack stack : Bytes) :
    (shfsFileRelease sb n cacheStack stack w).Rooted info := by
  unfold shfsFileRelease
  refine unsetWrite_rooted ?_ n stack
  split
  · rcases fcacheFileClose sb.fops (w.file n cacheStack) (w.slot n.inode) with ⟨e | u, s⟩
    · exact h.putSlot n.inode s
    · exact h.putSlot n.inode s
  · exact h

theorem shfsFileOpen_rooted (h : w.Rooted info) (n : Node) (stack : Bytes) (mode : AccMode)
    (mem : Memory) : (shfsFileOpen sb n stack mode mem w).2.Rooted info := by
  unfold shfsFileOpen
  split
  · exact h
  · dsimp only
    split
    · exact h
    · refine World.ifOk_keeps (P := World.Rooted info) h fun _ w' h' => ?_
      dsimp only
      split
      · exact h'.putSlot _ _
      · exact h'

theorem shfsFileReadpage_rooted (h : w.Rooted info) {fuel : ℕ} {n : Node} {stack : Bytes}
    {mem : Memory} {index : ℕ} {r : Except Errno Unit × World τ}
    (hr : shfsFileReadpage sb fuel n stack mem index w = some r) : r.2.Rooted info := by
  have hread : ∀ v : Paging τ, v.world.Rooted info → ∀ r, v.read sb fuel n stack mem = some r →
      r.2.Rooted info := by
    intro v hv r hr
    unfold Paging.read at hr
    split at hr
    · obtain ⟨out, -, rfl⟩ := Option.map_eq_some_iff.mp hr
      exact hv.putSlot _ _
    · obtain rfl := Option.some.inj hr
      rw [World.named_eq]
      exact hv
  unfold shfsFileReadpage at hr
  dsimp only at hr
  split at hr
  · cases hr
  · cases hr
  · next hloop =>
    obtain rfl := Option.some.inj hr
    have := loop_rule (fun v : Paging τ => v.world.Rooted info)
      (fun b => b.1 = none ∨ World.Rooted info b.2)
      (fun v hv _ => Paging.round_of_read (hread v hv)) h hloop
    rcases this with hnone | hkept
    · cases hnone
    · exact hkept
  · next hloop =>
    obtain rfl := Option.some.inj hr
    have := loop_rule (fun v : Paging τ => v.world.Rooted info)
      (fun b => b.1 = none ∨ World.Rooted info b.2)
      (fun v hv _ => Paging.round_of_read (hread v hv)) h hloop
    exact this.1

theorem shfsSlowRead_rooted (h : w.Rooted info) (n : Node) (stack : Bytes) (page : Bool)
    (count offset : ℕ) : (shfsSlowRead sb n stack page count offset w).2.Rooted info := by
  unfold shfsSlowRead
  dsimp only
  split
  · exact h
  · rw [World.named_eq]
    exact h

theorem shfsSlowWrite_rooted (h : w.Rooted info) (n : Node) (stack : Bytes)
    (written : Except Errno ℕ) : (shfsSlowWrite sb n stack written w).2.Rooted info := by
  unfold shfsSlowWrite
  split
  · exact h
  · exact h
  · exact World.ifOk_keeps (doFileFlush_rooted h n stack) fun _ _ h' => h'

/-! ## The root stays as it is -/

/-- The operation leaves the root to its owner: the server accepts no `chmod` and no `chown` of it,
and no entry of a directory is for it. -/
structure VfsOp.SparesRoot (sb : SuperBlock τ) (w : World τ) (op : VfsOp) : Prop where
  change : ∀ verdicts n stack attr, op = .setattr verdicts n stack attr → n.inode = 0 →
    let as := attr.accepted (shellAops sb.host.toRemote) verdicts sb.info n.dentry stack w.far
    AttrCmd.chmod ∉ as ∧ AttrCmd.chown ∉ as
  fills : op.Lists sb (fun _ _ target => target ≠ .existing 0) w

/-- The mode and the owner behind a `setattr`. -/
theorem changedStat_spared {verdicts : Verdicts} {n : Node} {stack : Bytes} {attr : Iattr}
    {stat : Stat} (hmode : AttrCmd.chmod ∉
      attr.accepted (shellAops sb.host.toRemote) verdicts sb.info n.dentry stack w.far)
    (huid : AttrCmd.chown ∉
      attr.accepted (shellAops sb.host.toRemote) verdicts sb.info n.dentry stack w.far) :
    (changedStat sb verdicts n stack attr stat w).mode = stat.mode ∧
      (changedStat sb verdicts n stack attr stat w).uid = stat.uid := by
  unfold Iattr.accepted at hmode huid
  unfold changedStat
  rw [shfsNotifyChange_eq]
  cases hchange : verdicts.change with
  | error e => exact ⟨rfl, rfl⟩
  | ok u =>
    cases hro : sb.info.readonly with
    | true => exact ⟨rfl, rfl⟩
    | false =>
      simp only [hchange, hro, Bool.false_eq_true, if_false] at hmode huid ⊢
      set v : Change (Far τ) := ⟨.ok 0, (getName n.dentry stack).2, stat, w.far⟩
      obtain ⟨hm, hu, -⟩ := Change.foldl_stat (shellAops sb.host.toRemote) verdicts attr sb.info
        (show v.result = .ok 0 from rfl) attr.asks
      exact ⟨hm.trans (if_neg hmode), hu.trans (if_neg huid)⟩

theorem setattr_rooted (h : w.Rooted info) {verdicts : Verdicts} {n : Node} {stack : Bytes}
    {attr : Iattr} (hop : (VfsOp.setattr verdicts n stack attr).SparesRoot sb w) :
    (w.setattr sb verdicts n stack attr).2.Rooted info := by
  unfold World.setattr
  cases hv : w.inodes[n.inode]? with
  | none => exact h
  | some v =>
    refine World.Rooted.update (f := fun u =>
      { u with stat := changedStat sb verdicts n stack attr v.stat w }) h fun u hi hu hroot => ?_
    obtain ⟨hmode, huid⟩ := hop.change verdicts n stack attr rfl hi
    obtain ⟨hm, hown⟩ := changedStat_spared hmode huid
    obtain rfl : v = u := Option.some.inj (hv.symm.trans (hi ▸ hu))
    exact ⟨hroot.ino, hroot.note, hm.trans hroot.mode, hown.trans hroot.uid⟩

/-- **One operation** leaves the root as the options have made it, if the server accepts no `chmod`
and no `chown` of the root, and no entry of a directory is for its inode. -/
theorem VfsOp.run_rooted (h : w.Rooted info) {op : VfsOp} (hop : op.SparesRoot sb w) {fuel : ℕ}
    {w' : World τ} (hrun : op.run sb fuel w = some w') : w'.Rooted info := by
  -- what an operation does to the root is in the lemma of its function; those that send a command
  -- and ask for nothing leave the inodes alone
  cases op with
  | readpage n stack mem index =>
    obtain ⟨r, hr, rfl⟩ := Option.map_eq_some_iff.mp hrun
    exact shfsFileReadpage_rooted h hr
  | dirOpen n age frame =>
    obtain rfl := Option.some.inj hrun
    unfold shfsDirOpen
    split
    · exact h
    · exact shfsRevalidateInode_rooted h n age frame
  | readdir n age frame how =>
    obtain rfl := Option.some.inj hrun
    exact shfsReaddir_rooted h hop.fills
  | lookup d frame new =>
    obtain rfl := Option.some.inj hrun
    exact shfsLookup_rooted h d frame new
  | dRevalidate n positive old age frame =>
    obtain rfl := Option.some.inj hrun
    exact shfsDRevalidate_rooted h n positive old age frame
  | mkdir d stack frame new =>
    obtain rfl := Option.some.inj hrun
    exact shfsMkdir_rooted h d stack frame new
  | create d stack mode frame new =>
    obtain rfl := Option.some.inj hrun
    exact shfsCreate_rooted h d stack mode frame new
  | rmdir d unhashed stack =>
    obtain rfl := Option.some.inj hrun
    unfold shfsRmdir
    split
    · exact h
    · split
      · exact h
      · rw [World.named_eq]
        exact h
  | rename old new oldStack newStack =>
    obtain rfl := Option.some.inj hrun
    unfold shfsRename
    split
    · exact h
    · rw [World.named_eq, World.named_eq]
      exact h
  | unlink d stack =>
    obtain rfl := Option.some.inj hrun
    unfold shfsUnlink
    split
    · exact h
    · rw [World.named_eq]
      exact h
  | link old new oldStack newStack frame inode =>
    obtain rfl := Option.some.inj hrun
    exact shfsLink_rooted h old new oldStack newStack frame inode
  | symlink d oldname stack frame inode =>
    obtain rfl := Option.some.inj hrun
    exact shfsSymlink_rooted h d oldname stack frame inode
  | setattr verdicts n stack attr =>
    obtain rfl := Option.some.inj hrun
    exact setattr_rooted h hop
  | getattr n age frame =>
    obtain rfl := Option.some.inj hrun
    exact shfsRevalidateInode_rooted h n age frame
  | statfs =>
    obtain rfl := Option.some.inj hrun
    exact h
  | putSuper =>
    obtain rfl := Option.some.inj hrun
    exact h
  | «open» n stack mode mem =>
    obtain rfl := Option.some.inj hrun
    exact shfsFileOpen_rooted h n stack mode mem
  | flush n stack =>
    obtain rfl := Option.some.inj hrun
    exact doFileFlush_rooted h n stack
  | release n cacheStack stack =>
    obtain rfl := Option.some.inj hrun
    exact shfsFileRelease_rooted h n cacheStack stack
  | slowRead n stack page count offset =>
    obtain rfl := Option.some.inj hrun
    exact shfsSlowRead_rooted h n stack page count offset
  | slowWrite n stack written =>
    obtain rfl := Option.some.inj hrun
    exact shfsSlowWrite_rooted h n stack written
  | readlink d stack realName =>
    obtain rfl := Option.some.inj hrun
    rw [shfsReadlink_snd, World.readlink_snd]
    exact h
  | followLink d stack realName =>
    obtain rfl := Option.some.inj hrun
    rw [shfsFollowLink_snd, World.readlink_snd]
    exact h

/-- **The root in every state that is reached**: it is as the options have made it, as long as each
operation leaves it to its owner. -/
theorem VfsOp.reached_rooted {fuel : ℕ} (h : w.Rooted info) {ops before : List VfsOp}
    (hops : Along (VfsOp.next sb fuel) (fun s op => ∀ w ∈ s, op.SparesRoot sb w) (some w) ops)
    (hbefore : before <+: ops) {w' : World τ} (hw' : VfsOp.reached sb fuel w before = some w') :
    w'.Rooted info := by
  obtain ⟨after, rfl⟩ := hbefore
  refine (along_append.mp hops).1.run_of_guarded (fun s => ∀ w ∈ s, w.Rooted info) ?_ ?_ w' hw'
  · intro s op hs hop w₂ hw₂
    obtain ⟨w₁, hw₁, hrun⟩ := Option.bind_eq_some_iff.mp hw₂
    exact VfsOp.run_rooted (hs w₁ hw₁) (hop w₁ hw₁) hrun
  · intro w₁ hw₁
    exact Option.some.inj hw₁ ▸ h

/-! ## The answer -/

/-- Whoever has the right to unmount: root, and the owner of the root, if its mode lets him do
everything. -/
def SbInfo.Unmounts (info : SbInfo) (uid : UInt32) : Prop :=
  uid = 0 ∨ uid = info.uid ∧ UInt16.ofNat info.rootMode &&& S_IRWXU = S_IRWXU

instance (info : SbInfo) (uid : UInt32) : Decidable (info.Unmounts uid) :=
  inferInstanceAs (Decidable (_ ∨ _))

/-- `lstat` never fails, and asks nobody. -/
theorem World.Rooted.lstat (h : w.Rooted info) (age : Age) (frame : Frame) :
    ∃ st, (w.lstat sb age frame).1 = .ok st ∧ st.mode = .ofNat info.rootMode ∧
      st.uid = info.uid := by
  obtain ⟨v, hv, hroot⟩ := h
  refine ⟨v.stat, ?_, hroot.mode, hroot.uid⟩
  have hrefresh : shfsRefreshInode sb ⟨.root, 0⟩ frame (w.lock sb) = (.ok (), w.lock sb) := by
    unfold shfsRefreshInode
    rw [World.lock_inodes, hv]
    exact if_pos hroot.ino
  have hget : ∃ w', shfsGetattr sb ⟨.root, 0⟩ age frame w = (.ok (), w') ∧
      w'.inodes = w.inodes := by
    unfold shfsGetattr shfsRevalidateInode
    dsimp only
    split
    · exact ⟨_, rfl, rfl⟩
    · rw [hrefresh]
      exact ⟨_, rfl, rfl⟩
  obtain ⟨w', hget, hinodes⟩ := hget
  unfold World.lstat
  rw [hget, World.ifOk, hinodes, hv]

/-- **What `umount_ok` says** of a mount whose root is as the options have made it. -/
theorem World.Rooted.umountOk (h : w.Rooted info)
    (hdir : UInt16.ofNat info.rootMode &&& S_IFMT = S_IFDIR) (uid : UInt32) (age : Age)
    (frame : Frame) :
    w.umountOk sb uid age frame =
      (shfsStatfs sb w).1.bind fun _ => if info.Unmounts uid then .ok () else .error .eperm := by
  have hstatfs : (shfsStatfs sb w).2.Rooted info := h
  unfold World.umountOk World.statfs
  rcases hr : shfsStatfs sb w with ⟨e | n, w'⟩
  · rfl
  · rw [hr] at hstatfs
    obtain ⟨st, hst, hmode, huid⟩ : ∃ st, (w'.lstat sb age frame).1 = .ok st ∧
        st.mode = .ofNat info.rootMode ∧ st.uid = info.uid := hstatfs.lstat age frame
    change Shfs.umountOk uid (.ok SHFS_SUPER_MAGIC) (w'.lstat sb age frame).1 =
      if info.Unmounts uid then .ok () else .error .eperm
    rw [hst]
    change (if st.mode &&& S_IFMT ≠ S_IFDIR then (.error .enotdir : Except Errno Unit)
      else if uid ≠ 0 ∧ (uid ≠ st.uid ∨ st.mode &&& S_IRWXU ≠ S_IRWXU) then .error .eperm
      else .ok ()) = _
    rw [hmode, huid, if_neg (not_not.mpr hdir)]
    have hiff : info.Unmounts uid ↔ ¬ (uid ≠ 0 ∧
        (uid ≠ info.uid ∨ UInt16.ofNat info.rootMode &&& S_IRWXU ≠ S_IRWXU)) := by
      unfold SbInfo.Unmounts
      tauto
    by_cases hmay : info.Unmounts uid
    · rw [if_pos hmay, if_neg (hiff.mp hmay)]
    · rw [if_neg hmay, if_pos (not_not.mp (mt hiff.mpr hmay))]

end Rooted

/-! ## Mounts of users -/

section Users

variable {τ : Type}

/-- The root of a fresh mount. -/
theorem mounted_rooted (info : SbInfo) (host : Host τ) (clock : Clock) (now : UInt64) (server : τ) :
    (info.mounted host clock now server).Rooted info := by
  refine ⟨_, rfl, rfl, rfl, rfl, ?_⟩
  change (if info.preserveOwn then info.uid else info.uid) = info.uid
  exact ite_self _

/-- Whatever `rmode=` says, the root is a directory. -/
theorem rootMode_dir (opts : Bytes) (uid gid : UInt32) :
    UInt16.ofNat (optionsOf opts uid gid).rootMode &&& S_IFMT = S_IFDIR := by
  have hdir : ∀ k : Fin 512, UInt16.ofNat (0x4000 + k) &&& S_IFMT = S_IFDIR := by decide +kernel
  refine parseLoop_rule (fun info => UInt16.ofNat info.rootMode &&& S_IFMT = S_IFDIR) ?_
    (hdir ⟨0x1C0, by decide⟩)
  intro c arg rest info h
  cases c with
  | rmode => exact hdir ⟨(parseMode (arg ++ 0 :: rest) % 512).toNat, by omega⟩
  | _ => exact h

variable {sys : Sys} {flags : List Flag} {args : List Bytes} {remote : Option Bytes}
  {path mnt : Bytes} {sock : ℕ} {m : Mounted}

/-- The root belongs to the user who has mounted. -/
theorem Harmless.uid (hharmless : Harmless sys flags mnt sock) (hroot : sys.root = false)
    (h : shfsmount sys flags args = some m) (hargs : operands args = some (remote, path))
    (hmnt : sys.fullpath path = some mnt) (hsock : sys.createSocket = some sock)
    (uid gid : UInt32) :
    (optionsOf m.options uid gid).uid = uid := by
  obtain ⟨hholds, -, -⟩ := shfsmount_spec hroot h hargs hmnt hsock
  have htext : m.options = joinWith comma (kernelOptions sys flags mnt sock) :=
    hholds.resolve_right fun hlong => absurd hharmless.room (Nat.not_lt.mpr hlong.2)
  have hunpriv : Unprivileged m.options := by
    rw [unprivileged_iff, htext, privileged_iff_userOptions]
    exact hharmless.options
  exact (hunpriv (.start uid gid) rfl).2.1

/-- **Who may unmount what a user has mounted.** Whatever is done on the mount, as long as nobody
changes the owner or the mode of its root, `shfsumount` is for root and for this user, if `rmode=`
has left him all the rights, and for nobody else; and for nobody at all when the server does not
answer. -/
theorem unmount_rights (hroot : sys.root = false) (h : shfsmount sys flags args = some m)
    (hargs : operands args = some (remote, path)) (hmnt : sys.fullpath path = some mnt)
    (hsock : sys.createSocket = some sock) (hharmless : Harmless sys flags mnt sock)
    (uid gid : UInt32) (host : Host τ) (clock : Clock) (now : UInt64) (server : τ) {fuel : ℕ}
    (hfuel : PAGE_SIZE ≤ fuel) {ops before : List VfsOp}
    (hops : let info := optionsOf m.options uid gid
      let sb := info.superBlock host clock
      Along (VfsOp.next sb fuel) (fun s op => ∀ w ∈ s, op.SparesRoot sb w)
        (some (info.mounted host clock now server)) ops) (hbefore : before <+: ops) :
    let info := optionsOf m.options uid gid
    let sb := info.superBlock host clock
    ∃ w, VfsOp.reached sb fuel (info.mounted host clock now server) before = some w ∧
      ∀ v age frame, w.umountOk sb v age frame = (shfsStatfs sb w).1.bind fun _ =>
        if v = 0 ∨ v = uid ∧ UInt16.ofNat info.rootMode &&& S_IRWXU = S_IRWXU then .ok ()
        else .error .eperm := by
  intro info sb
  obtain ⟨w, hw⟩ := VfsOp.reached_total sb (dvd_fcacheSize m.options uid gid) hfuel
    (info.mounted host clock now server) before
  refine ⟨w, hw, fun v age frame => ?_⟩
  have hrooted : w.Rooted info :=
    VfsOp.reached_rooted (mounted_rooted info host clock now server) hops hbefore hw
  have howner : info.uid = uid := hharmless.uid hroot h hargs hmnt hsock uid gid
  have hmay : info.Unmounts v ↔
      v = 0 ∨ v = uid ∧ UInt16.ofNat info.rootMode &&& S_IRWXU = S_IRWXU := by
    unfold SbInfo.Unmounts
    rw [howner]
  rw [hrooted.umountOk (rootMode_dir m.options uid gid)]
  congr 1
  funext _
  exact if_congr hmay rfl rfl

end Users

/-! ### A mount of Joe's -/

/-- What is accepted has been asked for. -/
theorem Iattr.mem_asks {σ : Type} {aops : Aops σ} {verdicts : Verdicts} {attr : Iattr}
    {info : MountOpts} {d : Dentry} {stack : Bytes} {s : σ} {a : AttrCmd}
    (h : a ∈ attr.accepted aops verdicts info d stack s) : a ∈ attr.asks := by
  have hlist : ∀ (as : List AttrCmd) name s, a ∈ Shfs.accepted aops verdicts attr as name s →
      a ∈ as := by
    intro as
    induction as with
    | nil => exact fun _ _ hmem => hmem
    | cons b as ih =>
      intro name s hmem
      unfold Shfs.accepted at hmem
      dsimp only at hmem
      split at hmem
      · cases hmem
      · split at hmem
        · exact List.mem_singleton.mp hmem ▸ List.mem_cons_self
        · rcases List.mem_cons.mp hmem with rfl | hlater
          · exact List.mem_cons_self
          · exact List.mem_cons_of_mem _ (ih _ _ hlater)
  unfold Iattr.accepted at h
  split at h
  · cases h
  · split at h
    · cases h
    · exact hlist _ _ _ h

/-- `touch` of the root. -/
def touchRoot : VfsOp :=
  .setattr easy rootNode [] ⟨⟨false, false, false, false, true, true⟩, 0, 0, 0, 0, ⟨5, 0⟩, ⟨5, 0⟩⟩

/-- Joe may unmount, and his neighbour may not. -/
theorem unmount_rights_joe :
    ∃ m, shfsmount userSys [.options (ascii "cachesize=8")] [ascii "host", ascii "/mnt"] = some m ∧
      let info := optionsOf m.options 1000 1000
      let sb := info.superBlock scriptedHost stillClock
      ∃ w, VfsOp.reached sb PAGE_SIZE (info.mounted scriptedHost stillClock 0 [[lineOfFile]])
          [lookupA 0, touchRoot] = some w ∧
        w.umountOk sb 1000 ⟨true, false⟩ blankFrame = .ok () ∧
          w.umountOk sb 1001 ⟨true, false⟩ blankFrame = .error .eperm := by
  have hharmless : Harmless userSys [.options (ascii "cachesize=8")] (ascii "/mnt") 3 :=
    ⟨by decide +kernel, by decide +kernel, by decide +kernel⟩
  obtain ⟨m, hm⟩ : ∃ m, shfsmount userSys [.options (ascii "cachesize=8")]
      [ascii "host", ascii "/mnt"] = some m := ⟨_, rfl⟩
  refine ⟨m, hm, ?_⟩
  intro info sb
  have hlookup : ∀ w, (lookupA 0).SparesRoot sb w := by
    refine fun w => ⟨?_, trivial⟩
    rintro _ _ _ _ ⟨⟩
  have htouch : ∀ w, touchRoot.SparesRoot sb w := by
    refine fun w => ⟨?_, trivial⟩
    rintro _ _ _ _ ⟨⟩ _
    exact ⟨fun h => absurd (Iattr.mem_asks h) (by decide), fun h =>
      absurd (Iattr.mem_asks h) (by decide)⟩
  have hops : Along (VfsOp.next sb PAGE_SIZE) (fun s op => ∀ w ∈ s, op.SparesRoot sb w)
      (some (info.mounted scriptedHost stillClock 0 [[lineOfFile]])) [lookupA 0, touchRoot] :=
    ⟨fun w _ => hlookup w, fun w _ => htouch w, trivial⟩
  obtain ⟨w, hw, hanswer⟩ := unmount_rights rfl hm rfl rfl rfl hharmless 1000 1000 scriptedHost
    stillClock 0 [[lineOfFile]] (Nat.le_refl _) hops (List.prefix_refl _)
  have hmode : UInt16.ofNat info.rootMode &&& S_IRWXU = S_IRWXU := by
    obtain rfl := Option.some.inj hm
    decide +kernel
  have hstatfs : (shfsStatfs sb w).1 = .ok 0 := rfl
  refine ⟨w, hw, ?_, ?_⟩
  · rw [hanswer, hstatfs, Except.bind]
    exact if_pos (Or.inr ⟨rfl, hmode⟩)
  · rw [hanswer, hstatfs, Except.bind]
    refine if_neg ?_
    rintro (h | ⟨h, -⟩)
    · exact absurd h (by decide)
    · exact absurd h (by decide)

end Shfs
