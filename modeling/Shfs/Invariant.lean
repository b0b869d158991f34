import Shfs.Keeps
import Shfs.Lib.Run

/-!
# Invariants of the operations

An `Invariant` says what every inode is like, what its buffer is like, and which commands are sent.
What the operations do to an inode is said here once: `shfs_iget` builds it from the attributes of a
stat or of an entry, `shfs_refresh_inode` and `shfs_fill_cache` write new ones over the old,
`shfs_notify_change` and `shfs_file_release` change the mode, `shfs_create` leaves its note, and the
rest is the business of the file cache. `VfsOp.Admitted` asks of an operation that whatever it does
of this is all right; `VfsOp.run_holds` and `VfsOp.reached_holds` are the rules that follow.
-/

namespace Shfs

open Lib

/-! ## Invariants -/

/-- The commands that only ask. -/
def asking : List Bytes :=
  [ascii "s_stat", ascii "s_lsdir", ascii "s_open", ascii "s_read", ascii "s_sread",
    ascii "s_readlink", ascii "s_statfs", ascii "s_finish"]

/-- A property of the inodes, of their buffers and of the commands. -/
structure Invariant : Type where
  inode : VInode → Prop
  cache : Option FCache → Prop
  cmd : Cmd → Prop
  /-- the buffer has its own part -/
  inode_cache : ∀ v c, inode v → inode { v with cache := c }
  inode_bad : ∀ v, inode v → inode { v with bad := true }
  cache_none : cache none
  cache_clear : ∀ c, cache (some c) → cache (some { c with count := 0 })
  cmd_asking : ∀ c : Cmd, c.cmd ∈ asking → cmd c

namespace Invariant

variable {τ : Type} (I : Invariant)

/-- An inode with its buffer. -/
def Good (v : VInode) : Prop := I.inode v ∧ I.cache v.cache

/-- The invariant holds of all the inodes there are, and of what has been sent. -/
structure Holds (w : World τ) : Prop where
  inodes : ∀ v ∈ w.inodes, I.Good v
  cmds : ∀ c ∈ w.far.cmds, I.cmd c

/-- What the functions of the file cache get to see of it. -/
structure OfSlot (s : Slot (Far τ)) : Prop where
  cache : I.cache s.cache
  cmds : ∀ c ∈ s.remote.cmds, I.cmd c

/-- The functions of the file cache keep it. -/
structure KeptByCache (sb : SuperBlock τ) : Prop where
  openFile : ∀ mem f (s : Slot (Far τ)), I.OfSlot s → I.OfSlot (fcacheFileOpen mem f s).2
  sync : ∀ f s, I.OfSlot s → I.OfSlot (fcacheFileSync sb.fops f s).2
  close : ∀ f s, I.OfSlot s → I.OfSlot (fcacheFileClose sb.fops f s).2
  read : ∀ fuel mem f offset count s r, I.OfSlot s →
    fcacheFileRead sb.fops sb.fcacheSize fuel mem f offset count s = some r → I.OfSlot r.2

end Invariant

section Keep

variable {τ : Type} {I : Invariant} {sb : SuperBlock τ} {w : World τ}

namespace Invariant

/-- An invariant of the inodes alone. -/
def ofInodes (P : VInode → Prop) (hcache : ∀ v c, P v → P { v with cache := c })
    (hbad : ∀ v, P v → P { v with bad := true }) : Invariant where
  inode := P
  cache _ := True
  cmd _ := True
  inode_cache := hcache
  inode_bad := hbad
  cache_none := trivial
  cache_clear _ _ := trivial
  cmd_asking _ _ := trivial

/-- The file cache has no part in it. -/
theorem ofInodes_keptByCache {P : VInode → Prop} (hcache : ∀ v c, P v → P { v with cache := c })
    (hbad : ∀ v, P v → P { v with bad := true }) : (ofInodes P hcache hbad).KeptByCache sb where
  openFile _ _ _ _ := ⟨trivial, fun _ _ => trivial⟩
  sync _ _ _ := ⟨trivial, fun _ _ => trivial⟩
  close _ _ _ := ⟨trivial, fun _ _ => trivial⟩
  read _ _ _ _ _ _ _ _ _ := ⟨trivial, fun _ _ => trivial⟩

theorem Good.setAttr {v : VInode} (h : I.Good v) {info : MountOpts} {fattr : Fattr}
    (hset : I.inode { v with stat := shfsSetInodeAttr info fattr }) :
    I.Good (v.setAttr info fattr) := by
  have hnew : I.Good { v with stat := shfsSetInodeAttr info fattr } := ⟨hset, h.2⟩
  unfold VInode.setAttr
  dsimp only
  split
  · refine ⟨I.inode_cache _ _ hset, ?_⟩
    unfold fcacheFileClear
    split
    · exact h.2
    · cases hc : v.cache with
      | none => exact I.cache_none
      | some c =>
        have hcache : I.cache (some c) := hc ▸ h.2
        dsimp only
        split
        · exact I.cache_clear c hcache
        · exact hcache
  · exact hnew

/-- A change of one inode. -/
theorem Holds.update (h : I.Holds w) {i : ℕ} {f : VInode → VInode}
    (hf : ∀ v, w.inodes[i]? = some v → I.Good v → I.Good (f v)) : I.Holds (w.update i f) := by
  refine ⟨fun v hv => ?_, h.cmds⟩
  obtain ⟨j, hj⟩ := List.getElem?_of_mem hv
  rw [World.update, List.getElem?_modify] at hj
  obtain ⟨u, hu, rfl⟩ := Option.map_eq_some_iff.mp hj
  have hgood := h.inodes u (List.mem_of_getElem? hu)
  split
  · next hij => exact hf u (hij ▸ hu) hgood
  · exact hgood

/-- A new one. -/
theorem Holds.push (h : I.Holds w) {v : VInode} (hv : I.Good v) :
    I.Holds { w with inodes := w.inodes ++ [v] } := by
  refine ⟨fun u hu => ?_, h.cmds⟩
  rcases List.mem_append.mp hu with hu | hu
  · exact h.inodes u hu
  · exact List.mem_singleton.mp hu ▸ hv

/-- A command. -/
theorem Holds.send (h : I.Holds w) {ρ : Type} {answer : Cmd → τ → Except Errno ρ × τ}
    {b : Bytes → Option Cmd} {name : Bytes} (hb : ∀ c, b name = some c → I.cmd c) :
    I.Holds (w.send answer b name).2 := by
  refine ⟨h.inodes, ?_⟩
  unfold World.send issue
  cases hc : b name with
  | none => exact h.cmds
  | some c =>
    intro c' hc'
    rcases List.mem_append.mp hc' with hc' | hc'
    · exact h.cmds c' hc'
    · exact List.mem_singleton.mp hc' ▸ hb c hc

theorem Holds.lock (h : I.Holds w) : I.Holds (w.lock sb) := ⟨h.inodes, h.cmds⟩

theorem Holds.unlock (h : I.Holds w) : I.Holds (w.unlock sb) := ⟨h.inodes, h.cmds⟩

end Invariant

/-! ## The stat -/

theorem doLsCmd_asking {stat : Bool} {name : Bytes} {c : Cmd} (h : doLsCmd stat name = some c) :
    c.cmd ∈ asking := by
  obtain ⟨quoted, -, rfl⟩ := Option.map_eq_some_iff.mp h
  cases stat with
  | false => exact (by decide : ascii "s_lsdir" ∈ asking)
  | true => exact (by decide : ascii "s_stat" ∈ asking)

theorem Invariant.Holds.stat (h : I.Holds w) (name : Bytes) (fattr : Fattr) :
    I.Holds (shellStat sb name fattr w).2 :=
  h.send fun c hc => I.cmd_asking c (doLsCmd_asking hc)

/-- A stat: the dentry, the variables of the call, and the state in which it is asked for. -/
structure Asked (τ : Type) : Type where
  dentry : Dentry
  frame : Frame
  world : World τ

/-- The attributes that it ends with. -/
def Asked.Gives (sb : SuperBlock τ) (q : Asked τ) (fattr : Fattr) : Prop :=
  (shellStat sb (getName q.dentry q.frame.name).2 q.frame.fattr q.world).1 = .ok fattr

/-- It ends well, and leaves the attributes as they were. -/
def Asked.Silent (sb : SuperBlock τ) (q : Asked τ) : Prop :=
  ∀ fattr, (shellStat sb (getName q.dentry q.frame.name).2 fattr q.world).1 = .ok fattr

/-- What `shfs_refresh_inode` stores in the inode is all right. -/
def Invariant.Refreshes (I : Invariant) (sb : SuperBlock τ) (i : ℕ) (q : Asked τ) : Prop :=
  ∀ v fattr, q.world.inodes[i]? = some v → I.inode v → v.ino ≠ 2 → q.Gives sb fattr →
    v.stat.mode &&& S_IFMT ≠ S_IFLNK → v.stat.mode &&& S_IFMT = fattr.mode &&& S_IFMT →
      I.inode { v with stat := shfsSetInodeAttr sb.info fattr }

/-- The inode that `shfs_iget` builds of these attributes. -/
def builtInode (sb : SuperBlock τ) (ino : ℕ) (fattr : Fattr) : VInode :=
  ⟨ino, shfsSetInodeAttr sb.info fattr, tablesOf fattr.mode, false, false, none⟩

/-- The inode that is built after a stat is all right. -/
def Invariant.Builds (I : Invariant) (sb : SuperBlock τ) (new : NewInode) (q : Asked τ) : Prop :=
  ∀ fattr, q.Gives sb fattr → I.inode (builtInode sb new.ino fattr)

theorem shfsIget_holds (h : I.Holds w) {ino : ℕ} {memory : Bool} {fattr : Fattr}
    (hnew : I.inode (builtInode sb ino fattr)) : I.Holds (shfsIget sb ino memory fattr w).2 := by
  cases memory with
  | false => exact h
  | true => exact h.push ⟨hnew, I.cache_none⟩

theorem shfsRefreshInode_holds (h : I.Holds w) {n : Node} {frame : Frame}
    (hset : I.Refreshes sb n.inode ⟨n.dentry, frame, w⟩) :
    I.Holds (shfsRefreshInode sb n frame w).2 := by
  unfold shfsRefreshInode
  cases hv : w.inodes[n.inode]? with
  | none => exact h
  | some v =>
    dsimp only
    split
    · exact h
    · next hino =>
      rw [World.named_eq]
      have hstat : I.Holds (shellStat sb (getName n.dentry frame.name).2 frame.fattr w).2 :=
        h.stat _ _
      rcases hr : shellStat sb (getName n.dentry frame.name).2 frame.fattr w with ⟨e | fattr, w'⟩
      · rw [hr] at hstat
        exact hstat
      · rw [hr] at hstat
        have hinodes : w'.inodes = w.inodes := by
          have : (shellStat sb (getName n.dentry frame.name).2 frame.fattr w).2.inodes = w.inodes :=
            rfl
          rwa [hr] at this
        change I.Holds (if _ then _ else if _ then _ else _ : Except Errno Unit × World τ).2
        split
        · exact hstat
        · next hlink =>
          split
          · next hkind =>
            refine hstat.update fun u hu hgood => hgood.setAttr ?_
            obtain rfl : v = u := Option.some.inj (hv.symm.trans (hinodes ▸ hu))
            exact hset v fattr hv hgood.1 hino (congrArg Prod.fst hr) hlink hkind
          · exact hstat.update fun u _ hgood => ⟨I.inode_bad u hgood.1, hgood.2⟩

/-- The stat of `shfs_revalidate_inode`, if it gets that far. -/
def revalidation (sb : SuperBlock τ) (n : Node) (age : Age) (frame : Frame) (w : World τ) :
    Option (Asked τ) :=
  if (w.inodes[n.inode]?).any VInode.bad || !age.magic || age.fresh then none
  else some ⟨n.dentry, frame, w.lock sb⟩

theorem shfsRevalidateInode_holds (h : I.Holds w) {n : Node} {age : Age} {frame : Frame}
    (hset : ∀ q ∈ revalidation sb n age frame w, I.Refreshes sb n.inode q) :
    I.Holds (shfsRevalidateInode sb n age frame w).2 := by
  unfold shfsRevalidateInode
  refine Invariant.Holds.unlock ?_
  split
  · exact h.lock
  · next hlate =>
    refine shfsRefreshInode_holds h.lock (hset _ ?_)
    exact if_neg hlate

/-! ## Directories -/

theorem shfsLookup_holds (h : I.Holds w) {d : Dentry} {frame : Frame} {new : NewInode}
    (hnew : I.Builds sb new ⟨d, frame, w⟩) : I.Holds (shfsLookup sb d frame new w).2 := by
  unfold shfsLookup
  rw [World.named_eq]
  have hstat : I.Holds (shellStat sb (getName d frame.name).2 frame.fattr w).2 := h.stat _ _
  rcases hr : shellStat sb (getName d frame.name).2 frame.fattr w with ⟨e | fattr, w'⟩
  · rw [hr] at hstat
    split
    · next heq => exact (Prod.mk.inj heq).2 ▸ hstat
    · next heq => exact (Prod.mk.inj heq).2 ▸ hstat
    · next heq => cases heq
  · rw [hr] at hstat
    exact shfsIget_holds hstat (hnew fattr (congrArg Prod.fst hr))

theorem shfsDRevalidate_holds (h : I.Holds w) {n : Node} {positive old : Bool} {age : Age}
    {frame : Frame}
    (hset : positive = true → old = true →
      ∀ q ∈ revalidation sb n age frame (w.lock sb), I.Refreshes sb n.inode q) :
    I.Holds (shfsDRevalidate sb n positive old age frame w).2 := by
  unfold shfsDRevalidate
  split
  · exact h
  · next hpositive =>
    refine Invariant.Holds.unlock ?_
    split
    · exact h.lock
    · split
      · next hold =>
        have hrev : I.Holds (shfsRevalidateInode sb n age frame (w.lock sb)).2 :=
          shfsRevalidateInode_holds h.lock (hset (by simpa using hpositive) hold)
        rcases hr : shfsRevalidateInode sb n age frame (w.lock sb) with ⟨e | u, w'⟩
        · rw [hr] at hrev
          exact hrev
        · rw [hr] at hrev
          exact hrev
      · exact h.lock

/-- What `shfs_fill_cache` stores of an entry is all right. -/
def Invariant.Fills (I : Invariant) (sb : SuperBlock τ) (w : World τ) (fattr : Fattr) :
    FillTarget → Prop
  | .existing i => ∀ v, w.inodes[i]? = some v → I.inode v →
      I.inode { v with stat := shfsSetInodeAttr sb.info fattr }
  | .new new => I.inode (builtInode sb new.ino fattr)
  | .nowhere => True

theorem shfsFillCache_holds (h : I.Holds w) {fattr : Fattr} {target : FillTarget}
    (hfill : I.Fills sb w fattr target) : I.Holds (shfsFillCache sb fattr w target) := by
  cases target with
  | existing i => exact h.update fun v hv hgood => hgood.setAttr (hfill v hv hgood.1)
  | new new => exact shfsIget_holds h hfill
  | nowhere => exact h

/-- Every entry of a listing, as far as it is read, meets `P` in the state in which it is stored. -/
def EachFill (sb : SuperBlock τ) (P : World τ → Fattr → FillTarget → Prop)
    (residue : Bytes → Bytes) : List Bytes → World τ × List (FillTarget × Bool) → Prop
  | [], _ => True
  | s :: lines, v =>
    s ≠ [] → lsResult (reply s) = none →
      (∀ shown fattr target more fills, lsEntry sb.fmask sb.clock (s ++ 0 :: residue s) =
        some (shown, fattr) → v.2 = (target, more) :: fills → P v.1 fattr target) ∧
      ((fillLine sb residue v s).2 = true →
        EachFill sb P residue lines (fillLine sb residue v s).1)

theorem EachFill.mono {P Q : World τ → Fattr → FillTarget → Prop} {residue : Bytes → Bytes}
    {lines : List Bytes} {v : World τ × List (FillTarget × Bool)}
    (hPQ : ∀ w fattr target, P w fattr target → Q w fattr target)
    (h : EachFill sb P residue lines v) : EachFill sb Q residue lines v := by
  induction lines generalizing v with
  | nil => trivial
  | cons s lines ih =>
    intro hs hcode
    obtain ⟨hline, hrest⟩ := h hs hcode
    exact ⟨fun shown fattr target more fills hentry hfills =>
      hPQ _ _ _ (hline shown fattr target more fills hentry hfills), fun hmore => ih (hrest hmore)⟩

/-- A listing stores what it has decoded. -/
theorem EachFill.of_entry {P : World τ → Fattr → FillTarget → Prop} (residue : Bytes → Bytes)
    (lines : List Bytes)
    (h : ∀ buf shown fattr, lsEntry sb.fmask sb.clock buf = some (shown, fattr) →
      ∀ w target, P w fattr target) (v : World τ × List (FillTarget × Bool)) :
    EachFill sb P residue lines v := by
  induction lines generalizing v with
  | nil => trivial
  | cons s lines ih =>
    intro _ _
    exact ⟨fun shown fattr target _ _ hentry _ => h _ shown fattr hentry _ target, fun _ => ih _⟩

theorem fillLine_holds {residue : Bytes → Bytes} {v : World τ × List (FillTarget × Bool)}
    {s : Bytes} (h : I.Holds v.1)
    (hfill : ∀ shown fattr target more fills, lsEntry sb.fmask sb.clock (s ++ 0 :: residue s) =
      some (shown, fattr) → v.2 = (target, more) :: fills → I.Fills sb v.1 fattr target) :
    I.Holds (fillLine sb residue v s).1.1 := by
  unfold fillLine
  cases hentry : lsEntry sb.fmask sb.clock (s ++ 0 :: residue s) with
  | none => exact h
  | some e =>
    obtain ⟨shown, fattr⟩ := e
    dsimp only
    split
    · exact h
    · next target more fills hfills =>
      exact shfsFillCache_holds h (hfill _ _ _ _ _ hentry hfills)

theorem lsLoop_fillLine_holds {residue : Bytes → Bytes} {lost : Errno} {lines : List Bytes}
    {v : World τ × List (FillTarget × Bool)} (h : I.Holds v.1)
    (hfill : EachFill sb (I.Fills sb) residue lines v) :
    I.Holds (lsLoop (fillLine sb residue) lost lines v).2.1 := by
  induction lines generalizing v with
  | nil => exact h
  | cons s lines ih =>
    unfold lsLoop
    split
    · exact h
    · next hs =>
      split
      · exact h
      · next hcode =>
        obtain ⟨hline, hrest⟩ := hfill hs hcode
        have hnext := fillLine_holds h hline
        split
        · next hmore => exact ih hnext (hrest hmore)
        · exact hnext

/-- Every entry of the listing that `info->fops.readdir` gets in this state meets `P`. -/
def EachEntry (sb : SuperBlock τ) (P : World τ → Fattr → FillTarget → Prop) (name : Bytes)
    (fills : List (FillTarget × Bool)) (w : World τ) : Prop :=
  let r := w.send sb.host.listing (doLsCmd false) name
  ∀ l, r.1 = .ok l → EachFill sb P l.residue l.lines (r.2, fills)

theorem shellReaddir_holds (h : I.Holds w) {name : Bytes} {fills : List (FillTarget × Bool)}
    (hfill : EachEntry sb (I.Fills sb) name fills w) :
    I.Holds (shellReaddir sb name fills w).2 := by
  have hsend : I.Holds (w.send sb.host.listing (doLsCmd false) name).2 :=
    h.send fun c hc => I.cmd_asking c (doLsCmd_asking hc)
  unfold shellReaddir
  unfold EachEntry at hfill
  rcases hr : w.send sb.host.listing (doLsCmd false) name with ⟨e | l, w'⟩
  · rw [hr] at hsend
    exact hsend
  · rw [hr] at hsend hfill
    exact lsLoop_fillLine_holds hsend (hfill l rfl)

/-- The state in which `shfs_readdir` asks for the listing. -/
def beforeListing (sb : SuperBlock τ) (n : Node) (age : Age) (frame : Frame) (page : Bool)
    (w : World τ) : World τ :=
  let w := (shfsRevalidateInode sb n age frame w).2
  if page then (w.lock sb).unlock sb else w

theorem shfsReaddir_holds (h : I.Holds w) {n : Node} {age : Age} {frame : Frame} {how : DirRead}
    (hset : ∀ q ∈ revalidation sb n age frame w, I.Refreshes sb n.inode q)
    (hfill : ∀ page stack fills, how = .list page stack fills →
      (shfsRevalidateInode sb n age frame w).1 = .ok () →
      EachEntry sb (I.Fills sb) (getName n.dentry stack).2 fills
        (beforeListing sb n age frame page w)) :
    I.Holds (shfsReaddir sb n age frame how w).2 := by
  have hrev : I.Holds (shfsRevalidateInode sb n age frame w).2 := shfsRevalidateInode_holds h hset
  cases how with
  | dots => exact h
  | cached => exact hrev
  | list page stack fills =>
    have hlist := hfill page stack fills rfl
    unfold beforeListing at hlist
    unfold shfsReaddir
    rcases hr : shfsRevalidateInode sb n age frame w with ⟨e | u, w'⟩
    · rw [hr] at hrev
      exact hrev
    · rw [hr] at hrev hlist
      replace hlist := hlist rfl
      set w₁ := if page then (w'.lock sb).unlock sb else w' with hw₁
      change I.Holds (w₁.named n.dentry stack fun name => shellReaddir sb name fills w₁).2
      rw [World.named_eq]
      refine shellReaddir_holds ?_ hlist
      cases page with
      | false => exact hrev
      | true => exact hrev.lock.unlock

/-! ## Changes of the directory tree -/

/-- All commands are all right, if the mount is not read-only. -/
def Invariant.Open (I : Invariant) (sb : SuperBlock τ) : Prop :=
  sb.info.readonly = false → ∀ c, I.cmd c

/-- What follows a call that succeeds, in the state the call leaves. -/
theorem ifOk_holds {ρ ρ' : Type} {r : Except Errno ρ × World τ}
    {k : ρ → World τ → Except Errno ρ' × World τ} (hr : I.Holds r.2)
    (hk : ∀ x, r.1 = .ok x → I.Holds (k x r.2).2) : I.Holds (World.ifOk r k).2 := by
  obtain ⟨result, w⟩ := r
  cases result with
  | error e => exact hr
  | ok x => exact hk x rfl

theorem shfsInstantiate_holds (h : I.Holds w) {d : Dentry} {frame : Frame} {new : NewInode}
    (hnew : I.Builds sb new ⟨d, frame, w⟩) : I.Holds (shfsInstantiate sb d frame new w).2 := by
  unfold shfsInstantiate
  rw [World.named_eq]
  have hstat : I.Holds (shellStat sb (getName d frame.name).2 frame.fattr w).2 := h.stat _ _
  rcases hr : shellStat sb (getName d frame.name).2 frame.fattr w with ⟨e | fattr, w'⟩
  · rw [hr] at hstat
    exact hstat
  · rw [hr] at hstat
    have higet : I.Holds (shfsIget sb new.ino new.memory fattr w').2 :=
      shfsIget_holds hstat (hnew fattr (congrArg Prod.fst hr))
    rw [World.ifOk]
    rcases hget : shfsIget sb new.ino new.memory fattr w' with ⟨_ | i, w''⟩
    · rw [hget] at higet
      exact higet
    · rw [hget] at higet
      exact higet

/-- The end of an operation that makes something. -/
theorem instantiated_holds (h : I.Holds w) {d : Dentry} {frame : Frame} {new : NewInode}
    (hnew : I.Builds sb new ⟨d, frame, w⟩) :
    I.Holds (World.ifOk (shfsInstantiate sb d frame new w) fun _ w => (.ok (0 : ℕ), w)).2 :=
  ifOk_holds (shfsInstantiate_holds h hnew) fun _ _ => shfsInstantiate_holds h hnew

/-- The state after a command. -/
abbrev afterCmd (sb : SuperBlock τ) (b : Bytes → Option Cmd) (name : Bytes) (w : World τ) :
    World τ :=
  (w.send sb.host.status b name).2

/-- The stat behind a command that has made something. -/
def making (sb : SuperBlock τ) (b : Bytes → Option Cmd) (name : Bytes) (d : Dentry) (frame : Frame)
    (w : World τ) : Option (Asked τ) :=
  if sb.info.readonly || !(w.send sb.host.status b name).1.isOk then none
  else some ⟨d, frame, afterCmd sb b name w⟩

theorem mem_making {b : Bytes → Option Cmd} {name : Bytes} {d : Dentry} {frame : Frame}
    (hro : sb.info.readonly = false) {n : ℕ} (hn : (w.send sb.host.status b name).1 = .ok n) :
    (⟨d, frame, afterCmd sb b name w⟩ : Asked τ) ∈ making sb b name d frame w := by
  unfold making
  rw [hro, hn]
  rfl

/-- An operation on a mount where changes are allowed, or none at all. -/
theorem changing_holds {ρ : Type} (h : I.Holds w) {e : Errno} {r : Except Errno ρ × World τ}
    (hr : sb.info.readonly = false → I.Holds r.2) :
    I.Holds (if sb.info.readonly then (.error e, w) else r).2 := by
  split
  · exact h
  · next hro => exact hr (Bool.eq_false_iff.mpr hro)

theorem shfsMkdir_holds (h : I.Holds w) (hopen : I.Open sb) {d : Dentry} {stack : Bytes}
    {frame : Frame} {new : NewInode}
    (hnew : ∀ q ∈ making sb shellMkdir (getName d stack).2 d frame w, I.Builds sb new q) :
    I.Holds (shfsMkdir sb d stack frame new w).2 := by
  refine changing_holds h fun hro => ?_
  rw [World.named_eq]
  have hsend : I.Holds (afterCmd sb shellMkdir (getName d stack).2 w) :=
    h.send fun c _ => hopen hro c
  exact ifOk_holds hsend fun _ hok => instantiated_holds hsend (hnew _ (mem_making hro hok))

/-- The mode that `shfs_create` sends. -/
def forcedMode (mode : UInt16) : UInt16 := if mode &&& S_IWUSR = 0 then mode ||| S_IWUSR else mode

theorem shfsCreate_holds (h : I.Holds w) (hopen : I.Open sb) {d : Dentry} {stack : Bytes}
    {mode : UInt16} {frame : Frame} {new : NewInode}
    (hnew : ∀ q ∈ making sb (shellCreate · (forcedMode mode).toUInt32) (getName d stack).2 d frame
      w, I.Builds sb new q)
    (hnote : sb.info.readonly = false → mode &&& S_IWUSR = 0 →
      ∀ v, I.inode v → I.inode { v with unsetWriteOnClose := true }) :
    I.Holds (shfsCreate sb d stack mode frame new w).2 := by
  refine changing_holds h fun hro => ?_
  rw [World.named_eq]
  change I.Holds (World.ifOk (w.send sb.host.status (shellCreate · (forcedMode mode).toUInt32)
    (getName d stack).2) _).2
  have hsend : I.Holds
      (afterCmd sb (shellCreate · (forcedMode mode).toUInt32) (getName d stack).2 w) :=
    h.send fun c _ => hopen hro c
  refine ifOk_holds hsend fun _ hok => ?_
  have hinst := shfsInstantiate_holds hsend (hnew _ (mem_making hro hok))
  refine ifOk_holds hinst fun i _ => ?_
  split
  · next hforced =>
    exact hinst.update fun v _ hgood => ⟨hnote hro hforced v hgood.1, hgood.2⟩
  · exact hinst

theorem shfsLink_holds (h : I.Holds w) (hopen : I.Open sb) {oldDentry newDentry : Dentry}
    {oldStack newStack : Bytes} {frame : Frame} {inode : NewInode}
    (hnew : ∀ q ∈ making sb (shellLink · (getName newDentry newStack).2)
      (getName oldDentry oldStack).2 newDentry frame w, I.Builds sb inode q) :
    I.Holds (shfsLink sb oldDentry newDentry oldStack newStack frame inode w).2 := by
  refine changing_holds h fun hro => ?_
  rw [World.named_eq, World.named_eq]
  have hsend : I.Holds
      (afterCmd sb (shellLink · (getName newDentry newStack).2) (getName oldDentry oldStack).2 w) :=
    h.send fun c _ => hopen hro c
  exact ifOk_holds hsend fun _ hok => instantiated_holds hsend (hnew _ (mem_making hro hok))

theorem shfsSymlink_holds (h : I.Holds w) (hopen : I.Open sb) {d : Dentry} {oldname stack : Bytes}
    {frame : Frame} {inode : NewInode}
    (hnew : oldname.length + 1 ≤ SHFS_PATH_MAX →
      ∀ q ∈ making sb (shellSymlink · (getName d stack).2) oldname d frame w, I.Builds sb inode q) :
    I.Holds (shfsSymlink sb d oldname stack frame inode w).2 := by
  refine changing_holds h fun hro => ?_
  rw [World.named_eq]
  split
  · exact h
  · next hlen =>
    have hsend : I.Holds (afterCmd sb (shellSymlink · (getName d stack).2) oldname w) :=
      h.send fun c _ => hopen hro c
    exact ifOk_holds hsend fun _ hok =>
      instantiated_holds hsend (hnew (Nat.not_lt.mp hlen) _ (mem_making hro hok))

/-- The operations that only take something away, or move it. -/
theorem removed_holds (h : I.Holds w) (hopen : I.Open sb) {b : Bytes → Option Cmd} {name : Bytes}
    (hro : sb.info.readonly = false) : I.Holds (w.send sb.host.status b name).2 :=
  h.send fun c _ => hopen hro c

theorem shfsRmdir_holds (h : I.Holds w) (hopen : I.Open sb) (d : Dentry) (unhashed : Bool)
    (stack : Bytes) : I.Holds (shfsRmdir sb d unhashed stack w).2 := by
  refine changing_holds h fun hro => ?_
  split
  · exact h
  · rw [World.named_eq]
    exact removed_holds h hopen hro

theorem shfsRename_holds (h : I.Holds w) (hopen : I.Open sb) (old new : Dentry)
    (oldStack newStack : Bytes) : I.Holds (shfsRename sb old new oldStack newStack w).2 := by
  refine changing_holds h fun hro => ?_
  rw [World.named_eq, World.named_eq]
  exact removed_holds h hopen hro

theorem shfsUnlink_holds (h : I.Holds w) (hopen : I.Open sb) (d : Dentry) (stack : Bytes) :
    I.Holds (shfsUnlink sb d stack w).2 := by
  refine changing_holds h fun hro => ?_
  rw [World.named_eq]
  exact removed_holds h hopen hro

/-! ## Attributes -/

/-- What the request leaves in an inode. -/
def changedStat (sb : SuperBlock τ) (verdicts : Verdicts) (n : Node) (stack : Bytes) (attr : Iattr)
    (stat : Stat) (w : World τ) : Stat :=
  (shfsNotifyChange (shellAops sb.host.toRemote) sb.info verdicts n.dentry stack attr stat
    w.far).2.1

/-- On a read-only mount nothing is changed. -/
theorem shfsNotifyChange_readonly {σ : Type} (aops : Aops σ) {info : MountOpts}
    (hro : info.readonly = true) (verdicts : Verdicts) (d : Dentry) (stack : Bytes) (attr : Iattr)
    (inode : Stat) (s : σ) :
    (shfsNotifyChange aops info verdicts d stack attr inode s).2 = (inode, s) := by
  rw [shfsNotifyChange_eq]
  cases verdicts.change with
  | error e => rfl
  | ok u =>
    dsimp only
    rw [if_pos hro]

theorem setattr_holds (h : I.Holds w) (hopen : I.Open sb) {verdicts : Verdicts} {n : Node}
    {stack : Bytes} {attr : Iattr}
    (hset : sb.info.readonly = false → ∀ v, w.inodes[n.inode]? = some v → I.inode v →
      I.inode { v with stat := changedStat sb verdicts n stack attr v.stat w }) :
    I.Holds (w.setattr sb verdicts n stack attr).2 := by
  unfold World.setattr
  cases hv : w.inodes[n.inode]? with
  | none => exact h
  | some v =>
    have hstat : I.Holds (w.update n.inode fun u =>
        { u with stat := changedStat sb verdicts n stack attr v.stat w }) := by
      refine h.update fun u hu hgood => ⟨?_, hgood.2⟩
      obtain rfl : v = u := Option.some.inj (hv.symm.trans hu)
      cases hro : sb.info.readonly with
      | false => exact hset hro v hv hgood.1
      | true =>
        rw [changedStat, shfsNotifyChange_readonly _ hro]
        exact hgood.1
    refine ⟨hstat.inodes, ?_⟩
    cases hro : sb.info.readonly with
    | false => exact fun c _ => hopen hro c
    | true =>
      change ∀ c ∈
        (shfsNotifyChange (shellAops sb.host.toRemote) sb.info verdicts n.dentry stack attr
        v.stat w.far).2.2.cmds, I.cmd c
      rw [shfsNotifyChange_readonly _ hro]
      exact h.cmds

/-! ## Files -/

/-- The inode's slot has the invariant. -/
theorem Invariant.Holds.slot (h : I.Holds w) (i : ℕ) : I.OfSlot (w.slot i) := by
  refine ⟨?_, h.cmds⟩
  change I.cache ((w.inodes[i]?).bind VInode.cache)
  cases hv : w.inodes[i]? with
  | none => exact I.cache_none
  | some v => exact (h.inodes v (List.mem_of_getElem? hv)).2

/-- And the inodes have it with a slot that has it. -/
theorem Invariant.Holds.putSlot (h : I.Holds w) {i : ℕ} {s : Slot (Far τ)} (hs : I.OfSlot s) :
    I.Holds (w.putSlot i s) :=
  ⟨(h.update fun v _ hgood => ⟨I.inode_cache v s.cache hgood.1, hs.cache⟩).inodes, hs.cmds⟩

theorem shellOpen_asking {mode : AccMode} {name : Bytes} {c : Cmd}
    (h : shellOpen name mode = some c) :
    c.cmd ∈ asking := by
  obtain ⟨quoted, -, rfl⟩ := Option.map_eq_some_iff.mp h
  exact (by decide : ascii "s_open" ∈ asking)

theorem shellReadCmd_asking {name : Bytes} {offset count : UInt32} {ino : UInt64} {c : Cmd}
    (h : shellReadCmd name offset count ino = some c) : c.cmd ∈ asking := by
  obtain ⟨quoted, -, rfl⟩ := Option.map_eq_some_iff.mp h
  dsimp only
  split
  · exact (by decide : ascii "s_sread" ∈ asking)
  · exact (by decide : ascii "s_read" ∈ asking)

/-- A read past the file cache. -/
theorem fops_read_cmds {far : Far τ} (h : ∀ c ∈ far.cmds, I.cmd c) (name : Bytes) (off n ino : ℕ) :
    ∀ c ∈ (sb.fops.read name off n ino far).remote.cmds, I.cmd c := by
  have hholds : I.Holds (⟨[], 0, far⟩ : World τ) := ⟨fun v hv => (nomatch hv), h⟩
  have hsend : I.Holds ((⟨[], 0, far⟩ : World τ).send (sb.host.toRemote.octets n)
      (shellReadCmd · (.ofNat off) (.ofNat n) (.ofNat ino)) name).2 :=
    hholds.send fun c hc => I.cmd_asking c (shellReadCmd_asking hc)
  exact hsend.cmds

theorem shfsFileOpen_holds (h : I.Holds w) (hcache : I.KeptByCache sb) (n : Node) (stack : Bytes)
    (mode : AccMode) (mem : Memory) : I.Holds (shfsFileOpen sb n stack mode mem w).2 := by
  unfold shfsFileOpen
  split
  · exact h
  · dsimp only
    split
    · exact h
    · have hsend : I.Holds
          (w.send sb.host.status (shellOpen · mode) (getName n.dentry stack).2).2 :=
        h.send fun c hc => I.cmd_asking c (shellOpen_asking hc)
      refine ifOk_holds hsend fun r _ => ?_
      dsimp only
      split
      · exact hsend.putSlot (hcache.openFile _ _ _ (hsend.slot _))
      · exact hsend

theorem doFileFlush_holds (h : I.Holds w) (hcache : I.KeptByCache sb) (n : Node) (stack : Bytes) :
    I.Holds (doFileFlush sb n stack w).2 := by
  unfold doFileFlush
  split
  · have hsync := hcache.sync (w.file n stack) (w.slot n.inode) (h.slot _)
    rcases hr : fcacheFileSync sb.fops (w.file n stack) (w.slot n.inode) with ⟨e | u, s⟩
    · rw [hr] at hsync
      exact h.putSlot hsync
    · rw [hr] at hsync
      exact (h.putSlot hsync).lock.unlock
  · exact h

theorem unsetWrite_holds (h : I.Holds w) {n : Node} {stack : Bytes}
    (hunset : ∀ v, w.inodes[n.inode]? = some v → I.inode v → v.unsetWriteOnClose = true →
      (∀ c, I.cmd c) ∧
        I.inode { v with stat := { v.stat with mode := v.stat.mode &&& ~~~S_IWUSR } }) :
    I.Holds (w.unsetWrite sb n stack) := by
  unfold World.unsetWrite
  cases hv : w.inodes[n.inode]? with
  | none => exact h
  | some v =>
    dsimp only
    split
    · next hset =>
      obtain ⟨hcmd, hmode⟩ := hunset v hv (h.inodes v (List.mem_of_getElem? hv)).1 hset
      rw [World.named_eq]
      have hsend : I.Holds
          (w.send sb.host.status (shellChmod · (v.stat.mode &&& ~~~S_IWUSR))
            (getName n.dentry stack).2).2 :=
        h.send fun c _ => hcmd c
      refine ifOk_holds hsend fun r _ => hsend.update fun u hu hgood => ⟨?_, hgood.2⟩
      obtain rfl : v = u := Option.some.inj (hv.symm.trans hu)
      exact hmode
    · exact h

/-- The part of `shfs_file_release` in front of that. -/
def closed (sb : SuperBlock τ) (n : Node) (stack : Bytes) (w : World τ) : World τ :=
  if sb.fcacheSize ≠ 0 then
    let (result, s) := fcacheFileClose sb.fops (w.file n stack) (w.slot n.inode)
    let w := w.putSlot n.inode s
    match result with
    | .error _ => w
    | .ok _ => w.flushPages sb
  else w

theorem closed_holds (h : I.Holds w) (hcache : I.KeptByCache sb) (n : Node) (stack : Bytes) :
    I.Holds (closed sb n stack w) := by
  unfold closed
  split
  · have hclose := hcache.close (w.file n stack) (w.slot n.inode) (h.slot _)
    rcases hr : fcacheFileClose sb.fops (w.file n stack) (w.slot n.inode) with ⟨e | u, s⟩
    · rw [hr] at hclose
      exact h.putSlot hclose
    · rw [hr] at hclose
      exact (h.putSlot hclose).lock.unlock
  · exact h

theorem Paging.read_holds {v : Paging τ} (h : I.Holds v.world) (hcache : I.KeptByCache sb)
    {fuel : ℕ} {n : Node} {stack : Bytes} {mem : Memory} {r : Except Errno Bytes × World τ}
    (hr : v.read sb fuel n stack mem = some r) : I.Holds r.2 := by
  unfold Paging.read at hr
  split at hr
  · obtain ⟨out, hout, rfl⟩ := Option.map_eq_some_iff.mp hr
    exact h.putSlot (hcache.read _ _ _ _ _ _ _ (h.slot _) hout)
  · obtain rfl := Option.some.inj hr
    rw [World.named_eq]
    exact ⟨h.inodes, fops_read_cmds h.cmds _ _ _ _⟩

theorem shfsFileReadpage_holds (h : I.Holds w) (hcache : I.KeptByCache sb) {fuel : ℕ} {n : Node}
    {stack : Bytes} {mem : Memory} {index : ℕ} {r : Except Errno Unit × World τ}
    (hr : shfsFileReadpage sb fuel n stack mem index w = some r) : I.Holds r.2 := by
  unfold shfsFileReadpage at hr
  dsimp only at hr
  split at hr
  · cases hr
  · cases hr
  · next hloop =>
    obtain rfl := Option.some.inj hr
    have := loop_rule (fun v : Paging τ => I.Holds v.world) (fun b => b.1 = none ∨ I.Holds b.2)
      (fun v hv _ => Paging.round_of_read fun r hr => Paging.read_holds hv hcache hr) h.lock hloop
    rcases this with hnone | hheld
    · cases hnone
    · exact hheld.unlock
  · next hloop =>
    obtain rfl := Option.some.inj hr
    have := loop_rule (fun v : Paging τ => I.Holds v.world) (fun b => b.1 = none ∨ I.Holds b.2)
      (fun v hv _ => Paging.round_of_read fun r hr => Paging.read_holds hv hcache hr) h.lock hloop
    exact this.1.unlock

theorem shfsSlowRead_holds (h : I.Holds w) (n : Node) (stack : Bytes) (page : Bool)
    (count offset : ℕ) : I.Holds (shfsSlowRead sb n stack page count offset w).2 := by
  unfold shfsSlowRead
  refine Invariant.Holds.unlock ?_
  split
  · exact h.lock
  · rw [World.named_eq]
    have hlock : I.Holds (w.lock sb) := h.lock
    exact ⟨hlock.inodes, fops_read_cmds hlock.cmds _ _ _ _⟩

theorem shfsSlowWrite_holds (h : I.Holds w) (hcache : I.KeptByCache sb) (n : Node) (stack : Bytes)
    (written : Except Errno ℕ) : I.Holds (shfsSlowWrite sb n stack written w).2 := by
  have hflush := doFileFlush_holds h hcache n stack
  unfold shfsSlowWrite
  split
  · exact h
  · exact h
  · exact ifOk_holds hflush fun _ _ => hflush

/-! ## Links and the super block -/

theorem shellReadlinkCmd_asking {name realName : Bytes} {c : Cmd}
    (h : shellReadlinkCmd name realName = some c) : c.cmd ∈ asking := by
  obtain ⟨quoted, -, h⟩ := Option.bind_eq_some_iff.mp h
  obtain ⟨-, -, rfl⟩ := Option.map_eq_some_iff.mp h
  exact (by decide : ascii "s_readlink" ∈ asking)

theorem readlink_holds (h : I.Holds w) (name realName : Bytes) :
    I.Holds (w.readlink sb name realName).2.2 := by
  rw [World.readlink_snd]
  exact h.send fun c hc => I.cmd_asking c (shellReadlinkCmd_asking hc)

theorem shfsReadlink_holds (h : I.Holds w) (d : Dentry) (stack realName : Bytes) :
    I.Holds (shfsReadlink sb d stack realName w).2 := by
  rw [shfsReadlink_snd]
  exact readlink_holds h _ _

theorem shfsFollowLink_holds (h : I.Holds w) (d : Dentry) (stack realName : Bytes) :
    I.Holds (shfsFollowLink sb d stack realName w).2 := by
  rw [shfsFollowLink_snd]
  exact readlink_holds h _ _

theorem shfsStatfs_holds (h : I.Holds w) : I.Holds (shfsStatfs sb w).2 := by
  refine h.send fun c hc => I.cmd_asking c ?_
  obtain rfl := Option.some.inj hc
  exact (by decide : ascii "s_statfs" ∈ asking)

theorem shfsPutSuper_holds (h : I.Holds w) : I.Holds (shfsPutSuper sb w) := by
  refine Invariant.Holds.lock (h.send fun c hc => I.cmd_asking c ?_)
  obtain rfl := Option.some.inj hc
  exact (by decide : ascii "s_finish" ∈ asking)

/-! ## All operations -/

/-- The stat that an operation asks for. -/
def VfsOp.asks (sb : SuperBlock τ) (w : World τ) : VfsOp → Option (Asked τ)
  | dirOpen n age frame => if n.dentry = .root then none else revalidation sb n age frame w
  | readdir n age frame how =>
    match how with
    | .dots => none
    | .cached | .list .. => revalidation sb n age frame w
  | lookup d frame _ => some ⟨d, frame, w⟩
  | dRevalidate n positive old age frame =>
    if positive && old then revalidation sb n age frame (w.lock sb) else none
  | mkdir d stack frame _ => making sb shellMkdir (getName d stack).2 d frame w
  | create d stack mode frame _ =>
    making sb (shellCreate · (forcedMode mode).toUInt32) (getName d stack).2 d frame w
  | link old new oldStack newStack frame _ =>
    making sb (shellLink · (getName new newStack).2) (getName old oldStack).2 new frame w
  | symlink d oldname stack frame _ =>
    if oldname.length + 1 > SHFS_PATH_MAX then none
    else making sb (shellSymlink · (getName d stack).2) oldname d frame w
  | getattr n age frame => revalidation sb n age frame w
  | rmdir .. | rename .. | unlink .. | setattr .. | statfs | putSuper | .open .. | flush ..
  | release .. | readpage .. | slowRead .. | slowWrite .. | readlink .. | followLink .. => none

/-- Every entry that the operation reads in a directory meets `P` where it is stored. -/
def VfsOp.Lists (sb : SuperBlock τ) (P : World τ → Fattr → FillTarget → Prop) (w : World τ) :
    VfsOp → Prop
  | readdir n age frame (.list page stack fills) =>
    (shfsRevalidateInode sb n age frame w).1 = .ok () →
      EachEntry sb P (getName n.dentry stack).2 fills (beforeListing sb n age frame page w)
  | _ => True

theorem VfsOp.lists_of_entry {P : World τ → Fattr → FillTarget → Prop}
    (h : ∀ buf shown fattr, lsEntry sb.fmask sb.clock buf = some (shown, fattr) →
      ∀ w target, P w fattr target) (w : World τ) (op : VfsOp) : op.Lists sb P w := by
  unfold VfsOp.Lists
  split
  · exact fun _ l _ => EachFill.of_entry _ _ h _
  · trivial

theorem VfsOp.Lists.mono {P Q : World τ → Fattr → FillTarget → Prop}
    (hPQ : ∀ w fattr target, P w fattr target → Q w fattr target) {op : VfsOp}
    (h : op.Lists sb P w) : op.Lists sb Q w := by
  unfold VfsOp.Lists at h ⊢
  split
  · exact fun hok l hl => (h hok l hl).mono hPQ
  · trivial

/-- Whatever the operation does to an inode is all right. -/
structure VfsOp.Admitted (I : Invariant) (sb : SuperBlock τ) (w : World τ) (op : VfsOp) : Prop where
  refreshes : ∀ q ∈ op.asks sb w, ∀ i, I.Refreshes sb i q
  builds : ∀ q ∈ op.asks sb w, ∀ new, I.Builds sb new q
  fills : op.Lists sb (I.Fills sb) w
  note : ∀ d stack mode frame new, op = .create d stack mode frame new →
    sb.info.readonly = false → mode &&& S_IWUSR = 0 →
      ∀ v, I.inode v → I.inode { v with unsetWriteOnClose := true }
  change : ∀ verdicts n stack attr, op = .setattr verdicts n stack attr →
    sb.info.readonly = false → ∀ v, w.inodes[n.inode]? = some v → I.inode v →
      I.inode { v with stat := changedStat sb verdicts n stack attr v.stat w }
  unset : ∀ v, I.inode v → v.unsetWriteOnClose = true → (∀ c, I.cmd c) ∧
    I.inode { v with stat := { v.stat with mode := v.stat.mode &&& ~~~S_IWUSR } }

/-- **The rule for an operation**: what holds of all inodes, buffers and commands holds behind it,
if the operation brings nothing of its own that breaks it (`Admitted`). Every invariant of the mount
is proved by this rule alone. -/
theorem VfsOp.run_holds (h : I.Holds w) (hopen : I.Open sb) (hcache : I.KeptByCache sb) {op : VfsOp}
    (hop : op.Admitted I sb w) {fuel : ℕ} {w' : World τ} (hrun : op.run sb fuel w = some w') :
    I.Holds w' := by
  -- an operation brings attributes to inodes at the points that `Admitted` names; everything else
  -- of it keeps the invariant for any answers
  cases op with
  | readpage n stack mem index =>
    obtain ⟨r, hr, rfl⟩ := Option.map_eq_some_iff.mp hrun
    exact shfsFileReadpage_holds h hcache hr
  | dirOpen n age frame =>
    obtain rfl := Option.some.inj hrun
    unfold shfsDirOpen
    split
    · exact h
    -- the root itself is never asked for, any other directory is
    · next hroot =>
      refine shfsRevalidateInode_holds h fun q hq => hop.refreshes q ?_ _
      rwa [asks, if_neg hroot]
  | readdir n age frame how =>
    obtain rfl := Option.some.inj hrun
    cases how with
    | dots => exact h
    | cached => exact shfsRevalidateInode_holds h fun q hq => hop.refreshes q hq _
    | list page stack fills =>
      refine shfsReaddir_holds h (fun q hq => hop.refreshes q hq _) ?_
      rintro _ _ _ ⟨⟩ hok
      exact hop.fills hok
  | lookup d frame new =>
    obtain rfl := Option.some.inj hrun
    exact shfsLookup_holds h (hop.builds _ rfl new)
  | dRevalidate n positive old age frame =>
    obtain rfl := Option.some.inj hrun
    refine shfsDRevalidate_holds h fun hpositive hold q hq => hop.refreshes q ?_ _
    rwa [asks, hpositive, hold]
  | mkdir d stack frame new =>
    obtain rfl := Option.some.inj hrun
    exact shfsMkdir_holds h hopen fun q hq => hop.builds q hq new
  | create d stack mode frame new =>
    obtain rfl := Option.some.inj hrun
    exact shfsCreate_holds h hopen (fun q hq => hop.builds q hq new)
      (hop.note d stack mode frame new rfl)
  | rmdir d unhashed stack =>
    obtain rfl := Option.some.inj hrun
    exact shfsRmdir_holds h hopen d unhashed stack
  | rename old new oldStack newStack =>
    obtain rfl := Option.some.inj hrun
    exact shfsRename_holds h hopen old new oldStack newStack
  | unlink d stack =>
    obtain rfl := Option.some.inj hrun
    exact shfsUnlink_holds h hopen d stack
  | link old new oldStack newStack frame inode =>
    obtain rfl := Option.some.inj hrun
    exact shfsLink_holds h hopen fun q hq => hop.builds q hq inode
  | symlink d oldname stack frame inode =>
    obtain rfl := Option.some.inj hrun
    refine shfsSymlink_holds h hopen fun hlen q hq => hop.builds q ?_ inode
    rwa [asks, if_neg (Nat.not_lt.mpr hlen)]
  | setattr verdicts n stack attr =>
    obtain rfl := Option.some.inj hrun
    exact setattr_holds h hopen (hop.change verdicts n stack attr rfl)
  | getattr n age frame =>
    obtain rfl := Option.some.inj hrun
    exact shfsRevalidateInode_holds h fun q hq => hop.refreshes q hq _
  | statfs =>
    obtain rfl := Option.some.inj hrun
    exact shfsStatfs_holds h
  | putSuper =>
    obtain rfl := Option.some.inj hrun
    exact shfsPutSuper_holds h
  | «open» n stack mode mem =>
    obtain rfl := Option.some.inj hrun
    exact shfsFileOpen_holds h hcache n stack mode mem
  | flush n stack =>
    obtain rfl := Option.some.inj hrun
    exact doFileFlush_holds h hcache n stack
  | release n cacheStack stack =>
    obtain rfl := Option.some.inj hrun
    exact unsetWrite_holds (closed_holds h hcache n cacheStack) fun v _ => hop.unset v
  | slowRead n stack page count offset =>
    obtain rfl := Option.some.inj hrun
    exact shfsSlowRead_holds h n stack page count offset
  | slowWrite n stack written =>
    obtain rfl := Option.some.inj hrun
    exact shfsSlowWrite_holds h hcache n stack written
  | readlink d stack realName =>
    obtain rfl := Option.some.inj hrun
    exact shfsReadlink_holds h d stack realName
  | followLink d stack realName =>
    obtain rfl := Option.some.inj hrun
    exact shfsFollowLink_holds h d stack realName

/-! ## Runs -/

/-- The state after one more operation, if all of them have come back. -/
def VfsOp.next (sb : SuperBlock τ) (fuel : ℕ) (s : Option (World τ)) (op : VfsOp) :
    Option (World τ) :=
  s.bind fun w => op.run sb fuel w

/-- The state after a run of operations. -/
def VfsOp.reached (sb : SuperBlock τ) (fuel : ℕ) (w : World τ) (ops : List VfsOp) :
    Option (World τ) :=
  Lib.run (VfsOp.next sb fuel) (some w) ops

/-- **The rule for a run**: an invariant of the first state holds in every state that is reached, if
every operation of the run is admitted where it starts. -/
theorem VfsOp.reached_holds {fuel : ℕ} (Cond : World τ → VfsOp → Prop) (hopen : I.Open sb)
    (hcache : I.KeptByCache sb) (hadmitted : ∀ w op, I.Holds w → Cond w op → op.Admitted I sb w)
    (h : I.Holds w) {ops before : List VfsOp}
    (hops : Along (VfsOp.next sb fuel) (fun s op => ∀ w ∈ s, Cond w op) (some w) ops)
    (hbefore : before <+: ops) {w' : World τ}
    (hw' : w' ∈ VfsOp.reached sb fuel w before) : I.Holds w' := by
  obtain ⟨after, rfl⟩ := hbefore
  refine (along_append.mp hops).1.run_of_guarded (fun s => ∀ w ∈ s, I.Holds w) ?_ ?_ w' hw'
  · intro s op hs hcond w₂ hw₂
    obtain ⟨w₁, hw₁, hrun⟩ := Option.bind_eq_some_iff.mp hw₂
    have hw₁' := hs w₁ hw₁
    exact VfsOp.run_holds hw₁' hopen hcache (hadmitted w₁ op hw₁' (hcond w₁ hw₁)) hrun
  · rintro w₁ hw₁
    exact Option.some.inj hw₁ ▸ h

end Keep

end Shfs
