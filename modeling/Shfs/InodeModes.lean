import Shfs.Mounted

/-!
# Modes of inodes

`i_mode` comes from a listing line, through the mask of the mount, wherever `shfs_set_inode_attr` is
called. In three places it does not. `shfs_notify_change` assigns what it has been asked for; a stat
that ends well without an entry leaves what the variable has held; and the root has the mode of
`init_root_dirent`, which is a directory.

The operation tables of an inode are chosen once, by `shfs_iget`. `shfs_refresh_inode` compares the
types before it writes another mode over the first one, and `shfs_fill_cache` does not.
-/

namespace Shfs

open Lib

/-! ## The mask -/

/-- A regular file has no set-id bit and no execute bit outside the mask, and without the device
bits in the mask there are no devices. -/
def Masked (fmask mode : UInt16) : Prop :=
  (mode &&& S_IFMT = S_IFREG → mode &&& 0xC49 &&& ~~~fmask = 0) ∧
    (fmask &&& 0x6000 = 0 → mode &&& S_IFMT ≠ S_IFBLK ∧ mode &&& S_IFMT ≠ S_IFCHR)

instance (fmask mode : UInt16) : Decidable (Masked fmask mode) :=
  inferInstanceAs (Decidable (_ ∧ _))

section Mask

variable {fmask : UInt16}

theorem mask_right_comm (a b c : UInt16) : a &&& b &&& c = a &&& c &&& b := by
  rw [UInt16.and_assoc, UInt16.and_comm b c, ← UInt16.and_assoc]

/-- The permissions are not part of the type. -/
theorem foldl_addBits_and (s : ℕ → Byte) (ts : List (ℕ × Byte × UInt16))
    (hts : ∀ t ∈ ts, t.2.2 &&& S_IFMT = 0) (mode : UInt16) :
    ts.foldl (addBits s) mode &&& S_IFMT = mode &&& S_IFMT := by
  induction ts generalizing mode with
  | nil => rfl
  | cons t ts ih =>
    rw [List.foldl_cons, ih fun u hu => hts u (List.mem_cons_of_mem _ hu)]
    unfold addBits
    split
    · rw [or_and_right, hts t (List.mem_cons_self ..), UInt16.or_zero]
    · rfl

theorem modeOf_and (fmask : UInt16) (s : ℕ → Byte) :
    modeOf fmask s &&& S_IFMT = typeOf fmask (s 0) &&& S_IFMT :=
  foldl_addBits_and s permTable (by decide) _

theorem typeOf_and (fmask : UInt16) (c : Byte) : typeOf fmask c &&& S_IFMT = typeOf fmask c := by
  unfold typeOf
  repeat' split
  all_goals rfl

/-- A device in a listing is a regular file without the device bits. -/
theorem typeOf_noDevice (hdev : fmask &&& 0x6000 = 0) (c : Byte) :
    typeOf fmask c ≠ S_IFBLK ∧ typeOf fmask c ≠ S_IFCHR := by
  have hblk : (fmask &&& S_IFMT) &&& S_IFBLK = 0 := by
    rw [UInt16.and_assoc]
    exact hdev
  have hchr : (fmask &&& S_IFMT) &&& S_IFCHR = 0 := by
    rw [UInt16.and_assoc, show S_IFMT &&& S_IFCHR = 0x6000 &&& S_IFCHR from rfl, ← UInt16.and_assoc,
      hdev, UInt16.zero_and]
  unfold typeOf
  simp only [hblk, hchr, ne_eq, not_true, if_false]
  repeat' split
  all_goals decide

/-- What the mask takes off a mode of this type is not a device. -/
theorem masked_of_and {mode : UInt16} (htype : mode &&& S_IFMT = S_IFREG) :
    Masked fmask (mode &&& fmask) := by
  have hkind : mode &&& fmask &&& S_IFMT = S_IFREG &&& fmask := by
    rw [mask_right_comm, htype]
  refine ⟨fun _ => ?_, fun hdev => ?_⟩
  · rw [mask_right_comm mode fmask, UInt16.and_assoc, UInt16.and_not_self, UInt16.and_zero]
  · have hoff : (S_IFREG &&& fmask) &&& 0x6000 = 0 := by
      rw [UInt16.and_assoc, hdev, UInt16.and_zero]
    rw [hkind]
    refine ⟨fun h => ?_, fun h => ?_⟩
    · rw [h] at hoff
      exact absurd hoff (by decide)
    · rw [h] at hoff
      exact absurd hoff (by decide)

/-- **An entry of a listing** is masked, whatever the line says: `do_ls` applies the mask to the
mode that it has read. -/
theorem lsEntry_masked {clock : Clock} {buf shown : Bytes} {fattr : Fattr}
    (h : lsEntry fmask clock buf = some (shown, fattr)) : Masked fmask fattr.mode := by
  unfold lsEntry at h
  dsimp only at h
  split at h
  · cases h
  · split at h
    · cases h
    · obtain ⟨-, rfl⟩ := Prod.mk.inj (Option.some.inj h)
      unfold lsFattr
      dsimp only
      split
      · next htype => exact masked_of_and htype
      · next htype =>
        refine ⟨fun hreg => absurd hreg htype, fun hdev => ?_⟩
        rw [modeOf_and, typeOf_and]
        exact typeOf_noDevice hdev _

end Mask

/-! ## Where a mode comes from -/

section Source

variable {τ : Type} {sb : SuperBlock τ} {w : World τ}

/-- The loop of a stat ends with an entry that it has decoded, or with what it has started from. -/
theorem lsLoop_stat {decode : Bytes → Option Fattr} {lost : Errno} {lines : List Bytes}
    {fattr fattr' : Fattr}
    (h : lsLoop (fun f s => ((decode s).getD f, true)) lost lines fattr = (.ok (), fattr')) :
    (∃ s, decode s = some fattr') ∨ fattr' = fattr ∧
      ∀ f, lsLoop (fun f s => ((decode s).getD f, true)) lost lines f = (.ok (), f) := by
  induction lines generalizing fattr with
  | nil => cases h
  | cons s lines ih =>
    unfold lsLoop at h ⊢
    by_cases hs : s = []
    · rw [if_pos hs] at h
      obtain rfl := (Prod.mk.inj h).2
      exact .inr ⟨rfl, fun f => if_pos hs⟩
    · rw [if_neg hs] at h
      simp only [if_neg hs]
      cases hcode : lsResult (reply s) with
      | some result =>
        rw [hcode] at h
        obtain ⟨rfl, rfl⟩ := Prod.mk.inj h
        exact .inr ⟨rfl, fun f => rfl⟩
      | none =>
        rw [hcode] at h
        simp only [if_true] at h ⊢
        cases hd : decode s with
        | none =>
          rw [hd] at h
          exact ih h
        | some f =>
          rw [hd] at h
          obtain hdecoded | ⟨rfl, -⟩ := ih h
          · exact .inl hdecoded
          · exact .inl ⟨s, hd⟩

/-- **The attributes of a stat** are those of an entry, or those that were there before. -/
theorem Asked.Gives.decoded_or_silent {q : Asked τ} {fattr : Fattr} (h : q.Gives sb fattr) :
    (∃ buf shown, lsEntry sb.fmask sb.clock buf = some (shown, fattr)) ∨
      fattr = q.frame.fattr ∧ q.Silent sb := by
  unfold Asked.Gives at h
  unfold Asked.Silent
  unfold shellStat World.send issue at h ⊢
  cases hc : doLsCmd true (getName q.dentry q.frame.name).2 with
  | none =>
    rw [hc] at h
    cases h
  | some c =>
    rw [hc] at h
    dsimp only at h ⊢
    cases hl : (sb.host.listing c q.world.far.server).1 with
    | error e =>
      rw [hl] at h
      cases h
    | ok l =>
      rw [hl] at h
      unfold Except.bind readStat at h ⊢
      dsimp only at h ⊢
      rcases hloop : lsLoop (fun fattr s => (((lsEntry sb.fmask sb.clock
        (s ++ 0 :: l.residue s)).map Prod.snd).getD fattr, true)) l.lost l.lines q.frame.fattr
        with ⟨e | u, f⟩
      · rw [hloop] at h
        cases h
      · rw [hloop] at h
        obtain rfl : f = fattr := Except.ok.inj h
        obtain ⟨s, hs⟩ | ⟨hsame, hsilent⟩ := lsLoop_stat hloop
        · obtain ⟨⟨shown, f'⟩, hentry, rfl⟩ := Option.map_eq_some_iff.mp hs
          exact .inl ⟨_, shown, hentry⟩
        · refine .inr ⟨hsame, fun f => ?_⟩
          rw [hsilent f]
          rfl

/-- The request of a `setattr`, where the server has accepted its mode. -/
def Iattr.Chmods (sb : SuperBlock τ) (verdicts : Verdicts) (n : Node) (stack : Bytes) (attr : Iattr)
    (w : World τ) : Prop :=
  .chmod ∈ attr.accepted (shellAops sb.host.toRemote) verdicts sb.info n.dentry stack w.far

/-- **The mode behind a `setattr`** is the one that was asked for, if the server accepts it. -/
theorem changedStat_mode (sb : SuperBlock τ) (verdicts : Verdicts) (n : Node) (stack : Bytes)
    (attr : Iattr) (stat : Stat) (w : World τ) :
    (changedStat sb verdicts n stack attr stat w).mode = stat.mode ∨
      attr.Chmods sb verdicts n stack w ∧
        (changedStat sb verdicts n stack attr stat w).mode = attr.mode := by
  unfold changedStat Iattr.Chmods Iattr.accepted
  rw [shfsNotifyChange_eq]
  cases verdicts.change with
  | error e => exact .inl rfl
  | ok u =>
    cases sb.info.readonly with
    | true => exact .inl rfl
    | false =>
      simp only [Bool.false_eq_true, if_false]
      set v : Change (Far τ) := ⟨.ok 0, (getName n.dentry stack).2, stat, w.far⟩
      obtain ⟨hmode, -⟩ := Change.foldl_stat (shellAops sb.host.toRemote) verdicts attr sb.info
        (show v.result = .ok 0 from rfl) attr.asks
      rw [hmode]
      split
      · next hmem => exact .inr ⟨hmem, rfl⟩
      · exact .inl rfl

end Source

/-! ## Masks for the life of the mount -/

section Masks

variable {τ : Type} {sb : SuperBlock τ}

theorem noWrite_and (mode : UInt16) : mode &&& ~~~S_IWUSR &&& S_IFMT = mode &&& S_IFMT := by
  rw [UInt16.and_assoc]
  rfl

/-- `shfs_file_release` takes a bit off that no mask is about. -/
theorem Masked.noWrite {fmask mode : UInt16} (h : Masked fmask mode) :
    Masked fmask (mode &&& ~~~S_IWUSR) := by
  unfold Masked
  rw [noWrite_and]
  refine ⟨fun hreg => ?_, h.2⟩
  rw [mask_right_comm mode, mask_right_comm (mode &&& _), h.1 hreg, UInt16.zero_and]

/-- Every inode is masked. -/
def masked (fmask : UInt16) : Invariant :=
  .ofInodes (fun v => Masked fmask v.stat.mode) (fun _ _ h => h) fun _ h => h

/-- The modes that do not come from a listing are masked. -/
structure VfsOp.KeepsMask (sb : SuperBlock τ) (w : World τ) (op : VfsOp) : Prop where
  /-- what the variable of a stat holds, where the reply has no entry -/
  silent : ∀ q ∈ op.asks sb w, q.Silent sb → Masked sb.fmask q.frame.fattr.mode
  /-- what is asked for, where the server accepts it -/
  chmod : ∀ verdicts n stack attr, op = .setattr verdicts n stack attr →
    attr.Chmods sb verdicts n stack w → Masked sb.fmask attr.mode

theorem VfsOp.admitted_masked {w : World τ} {op : VfsOp} (h : op.KeepsMask sb w) :
    op.Admitted (masked sb.fmask) sb w := by
  have hgiven : ∀ q ∈ op.asks sb w, ∀ fattr, q.Gives sb fattr → Masked sb.fmask fattr.mode := by
    intro q hq fattr hgives
    obtain ⟨buf, shown, hentry⟩ | ⟨rfl, hsilent⟩ := hgives.decoded_or_silent
    · exact lsEntry_masked hentry
    · exact h.silent q hq hsilent
  refine ⟨?_, ?_, ?_, ?_, ?_, ?_⟩
  · intro q hq i v fattr _ _ _ hgives _ _
    exact hgiven q hq fattr hgives
  · intro q hq new fattr hgives
    exact hgiven q hq fattr hgives
  · refine VfsOp.lists_of_entry (fun buf shown fattr hentry w target => ?_) w op
    cases target with
    | existing i => exact fun _ _ _ => lsEntry_masked hentry
    | new new => exact lsEntry_masked hentry
    | nowhere => trivial
  · exact fun _ _ _ _ _ _ _ _ v hv => hv
  · intro verdicts n stack attr hop _ v _ hv
    change Masked sb.fmask (changedStat sb verdicts n stack attr v.stat w).mode
    obtain hsame | ⟨hchmod, hmode⟩ := changedStat_mode sb verdicts n stack attr v.stat w
    · rw [hsame]
      exact hv
    · rw [hmode]
      exact h.chmod verdicts n stack attr hop hchmod
  · exact fun v hv _ => ⟨fun _ => trivial, Masked.noWrite hv⟩

/-- The root is a directory. -/
theorem rootMode_masked (opts : Bytes) (uid gid : UInt32) (fmask : UInt16) :
    Masked fmask (.ofNat (optionsOf opts uid gid).rootMode) := by
  obtain ⟨k, hk⟩ : ∃ k : Fin 512, (optionsOf opts uid gid).rootMode = 0x4000 + k := by
    refine parseLoop_rule (fun info => ∃ k : Fin 512, info.rootMode = 0x4000 + k) ?_ ⟨0x1C0, rfl⟩
    intro c arg rest info h
    cases c with
    | rmode => exact ⟨⟨(parseMode (arg ++ 0 :: rest) % 512).toNat, by omega⟩, rfl⟩
    | _ => exact h
  have hdir : ∀ k : Fin 512, UInt16.ofNat (0x4000 + k) &&& S_IFMT = S_IFDIR := by decide +kernel
  rw [hk]
  unfold Masked
  rw [hdir k]
  exact ⟨fun h => absurd h (by decide), fun _ => by decide⟩

/-- **The mask holds for the life of the mount** if every mode that does not come from a listing is
masked. Such modes come from a `setattr`, which stores what it was asked for, and from a stat that
ends well without an entry, which stores what its variable has held. -/
theorem inodes_masked (host : Host τ) (clock : Clock) (now : UInt64) (server : τ) (opts : Bytes)
    (uid gid : UInt32) {fuel : ℕ} (hfuel : PAGE_SIZE ≤ fuel) {ops before : List VfsOp}
    (hops : let info := optionsOf opts uid gid
      let sb := info.superBlock host clock
      Along (VfsOp.next sb fuel) (fun s op => ∀ w ∈ s, op.KeepsMask sb w)
        (some (info.mounted host clock now server)) ops) (hbefore : before <+: ops) :
    let info := optionsOf opts uid gid
    let sb := info.superBlock host clock
    ∃ w, VfsOp.reached sb fuel (info.mounted host clock now server) before = some w ∧
      ∀ v ∈ w.inodes, Masked sb.fmask v.stat.mode := by
  intro info sb
  obtain ⟨w, hw⟩ := VfsOp.reached_total sb (dvd_fcacheSize opts uid gid) hfuel
    (info.mounted host clock now server) before
  refine ⟨w, hw, ?_⟩
  have hheld : (masked sb.fmask).Holds w := by
    refine VfsOp.reached_holds (fun w op => op.KeepsMask sb w) (fun _ _ => trivial)
      (Invariant.ofInodes_keptByCache _ _) (fun w op _ hop => VfsOp.admitted_masked hop)
      (mounted_holds (rootMode_masked opts uid gid _)) hops hbefore hw
  exact fun v hv => (hheld.inodes v hv).1

end Masks

/-! ### Two servers -/

/-- A server that accepts every command. Its listings are scripted, and end with `COMPLETE`. -/
def scriptedHost : Host (List (List Bytes)) where
  data _ t := (.error .eio, t)
  status _ t := (.ok 0, t)
  listing _ t := (.ok ⟨t.headD [] ++ [statusText REP_COMPLETE], fun _ => [], .eio⟩, t.tail)
  link _ t := (⟨none, .error .eio⟩, t)
  mutexLock t := t
  mutexUnlock t := t

/-- The line of the file `a`. -/
def lineOfFile : Bytes := ascii "-rw-r--r-- 1 0 0 5 Jan 1 2003 a"

/-- The line of a directory `a`. -/
def lineOfDir : Bytes := ascii "drwxr-xr-x 2 0 0 0 Jan 1 2003 a"

/-- The file `a`, which has the second inode. -/
def nodeOfFile : Node := ⟨.child .root (ascii "a"), 1⟩

/-- `chmod`, with all the bits of the mode. -/
def chmodTo (mode : UInt16) : Iattr :=
  ⟨⟨true, false, false, false, false, false⟩, mode, 0, 0, 0, ⟨0, 0⟩, ⟨0, 0⟩⟩

/-- A lookup of `a`, where the variable `fattr` holds this mode. -/
def lookupA (mode : UInt16) : VfsOp :=
  .lookup nodeOfFile.dentry ⟨[], { blankFrame.fattr with mode := mode }⟩ ⟨7, true⟩

/-- Under `nosuid` a file is found and gets the mode 644. -/
theorem inodes_masked_nosuid :
    let info := optionsOf (ascii "nosuid") 0 0
    let sb := info.superBlock scriptedHost stillClock
    ∃ w, VfsOp.reached sb PAGE_SIZE (info.mounted scriptedHost stillClock 0 [[lineOfFile]])
        [lookupA 0, .setattr easy nodeOfFile [] (chmodTo 0x81A4)] = some w ∧
      ∀ v ∈ w.inodes, Masked sb.fmask v.stat.mode := by
  intro info sb
  have hblank : Masked sb.fmask 0 := ⟨fun _ => UInt16.zero_and, fun _ => by decide⟩
  have hfile : Masked sb.fmask 0x81A4 := ⟨fun _ => UInt16.zero_and, fun _ => by decide⟩
  have hlookup : ∀ w, (lookupA 0).KeepsMask sb w := by
    refine fun w => ⟨?_, ?_⟩
    · rintro _ ⟨⟩ _
      exact hblank
    · rintro _ _ _ _ ⟨⟩
  have hchmod : ∀ w, (VfsOp.setattr easy nodeOfFile [] (chmodTo 0x81A4)).KeepsMask sb w := by
    refine fun w => ⟨?_, ?_⟩
    · rintro _ ⟨⟩
    · rintro _ _ _ _ ⟨⟩ _
      exact hfile
  refine inodes_masked scriptedHost stillClock 0 [[lineOfFile]] (ascii "nosuid") 0 0 (Nat.le_refl _)
    ?_ (List.prefix_refl _)
  exact ⟨fun w _ => hlookup w, fun w _ => hchmod w, trivial⟩

/-- Under `nosuid` a file gets the mode 4755, by a `chmod` that the server accepts. And a file has
it when the reply to its stat has no entry, and the variable has held it. -/
theorem not_inodes_masked :
    let info := optionsOf (ascii "nosuid") 0 0
    let sb := info.superBlock scriptedHost stillClock
    (∃ w ∈ VfsOp.reached sb PAGE_SIZE (info.mounted scriptedHost stillClock 0 [[lineOfFile]])
        [lookupA 0, .setattr easy nodeOfFile [] (chmodTo 0x89ED)],
      ∃ v ∈ w.inodes, ¬ Masked sb.fmask v.stat.mode) ∧
    ∃ w ∈ VfsOp.reached sb PAGE_SIZE (info.mounted scriptedHost stillClock 0 []) [lookupA 0x89ED],
      ∃ v ∈ w.inodes, ¬ Masked sb.fmask v.stat.mode := by
  decide +kernel

/-! ## Kinds -/

/-- The operation tables, if there are any, are still those for the mode. -/
def VInode.KeepsKind (v : VInode) : Prop :=
  v.bad = false → v.tables ≠ .none → tablesOf v.stat.mode = v.tables

instance (v : VInode) : Decidable v.KeepsKind := inferInstanceAs (Decidable (_ → _))

section Kinds

variable {τ : Type} {sb : SuperBlock τ}

/-- The tables are chosen by the type. -/
theorem tablesOf_congr {m m' : UInt16} (h : m &&& S_IFMT = m' &&& S_IFMT) :
    tablesOf m = tablesOf m' := by
  unfold tablesOf
  rw [h]

/-- Every inode is of its kind. -/
def ofKind : Invariant :=
  .ofInodes VInode.KeepsKind (fun _ _ h => h) fun _ _ hbad => absurd hbad nofun

/-- This mode can be written over the mode of the inode. -/
def VInode.Takes (v : VInode) (mode : UInt16) : Prop :=
  v.bad = false → v.tables ≠ .none → tablesOf mode = v.tables

instance (v : VInode) (mode : UInt16) : Decidable (v.Takes mode) :=
  inferInstanceAs (Decidable (_ → _))

/-- An entry of a listing is for an inode of its kind, or for a new one. -/
def EntryKind (w : World τ) (fattr : Fattr) : FillTarget → Prop
  | .existing i => ∀ v ∈ w.inodes[i]?, v.Takes fattr.mode
  | .new _ | .nowhere => True

/-- What is not compared before it is written is of the kind of the inode: the entries of a listing,
and a mode that is asked for and accepted. -/
structure VfsOp.KeepsKinds (sb : SuperBlock τ) (w : World τ) (op : VfsOp) : Prop where
  lists : op.Lists sb EntryKind w
  chmod : ∀ verdicts n stack attr, op = .setattr verdicts n stack attr →
    attr.Chmods sb verdicts n stack w → ∀ v ∈ w.inodes[n.inode]?, v.Takes attr.mode

theorem VfsOp.admitted_ofKind {w : World τ} {op : VfsOp} (h : op.KeepsKinds sb w) :
    op.Admitted ofKind sb w := by
  refine ⟨?_, ?_, ?_, ?_, ?_, ?_⟩
  · -- `shfs_refresh_inode` has compared the types
    intro q _ i v fattr _ hv _ _ _ hsame hbad htables
    exact (tablesOf_congr hsame.symm).trans (hv hbad htables)
  · exact fun q _ new fattr _ _ _ => rfl
  · refine h.lists.mono fun w fattr target hkind => ?_
    cases target with
    | existing i => exact fun v hv _ => hkind v hv
    | new new => exact fun _ _ => rfl
    | nowhere => trivial
  · exact fun _ _ _ _ _ _ _ _ v hv => hv
  · intro verdicts n stack attr hop _ v hv hkind hbad htables
    change tablesOf (changedStat sb verdicts n stack attr v.stat w).mode = v.tables
    obtain hsame | ⟨hchmod, hmode⟩ := changedStat_mode sb verdicts n stack attr v.stat w
    · rw [hsame]
      exact hkind hbad htables
    · rw [hmode]
      exact h.chmod verdicts n stack attr hop hchmod v hv hbad htables
  · intro v hv _
    refine ⟨fun _ => trivial, fun hbad htables => ?_⟩
    exact (tablesOf_congr (noWrite_and v.stat.mode)).trans (hv hbad htables)

/-- **An inode keeps its kind** if whatever is written over its mode without a comparison is of that
kind. `shfs_refresh_inode` compares the kinds before it writes the mode; what comes with a listing
or with a `setattr` is written as it is. -/
theorem inodes_keepKind (host : Host τ) (clock : Clock) (now : UInt64) (server : τ) (opts : Bytes)
    (uid gid : UInt32) {fuel : ℕ} (hfuel : PAGE_SIZE ≤ fuel) {ops before : List VfsOp}
    (hops : let info := optionsOf opts uid gid
      let sb := info.superBlock host clock
      Along (VfsOp.next sb fuel) (fun s op => ∀ w ∈ s, op.KeepsKinds sb w)
        (some (info.mounted host clock now server)) ops) (hbefore : before <+: ops) :
    let info := optionsOf opts uid gid
    let sb := info.superBlock host clock
    ∃ w, VfsOp.reached sb fuel (info.mounted host clock now server) before = some w ∧
      ∀ v ∈ w.inodes, v.KeepsKind := by
  intro info sb
  obtain ⟨w, hw⟩ := VfsOp.reached_total sb (dvd_fcacheSize opts uid gid) hfuel
    (info.mounted host clock now server) before
  refine ⟨w, hw, ?_⟩
  have hheld : ofKind.Holds w := by
    refine VfsOp.reached_holds (fun w op => op.KeepsKinds sb w) (fun _ _ => trivial)
      (Invariant.ofInodes_keptByCache _ _) (fun w op _ hop => VfsOp.admitted_ofKind hop)
      (mounted_holds fun _ _ => rfl) hops hbefore hw
  exact fun v hv => (hheld.inodes v hv).1

end Kinds

/-- A file is found, and its mode is changed. -/
theorem inodes_keepKind_file :
    let info := optionsOf [] 0 0
    let sb := info.superBlock scriptedHost stillClock
    ∃ w, VfsOp.reached sb PAGE_SIZE (info.mounted scriptedHost stillClock 0 [[lineOfFile]])
        [lookupA 0, .setattr easy nodeOfFile [] (chmodTo 0x81ED)] = some w ∧
      ∀ v ∈ w.inodes, v.KeepsKind := by
  intro info sb
  have hlookup : ∀ w, (lookupA 0).KeepsKinds sb w := by
    refine fun w => ⟨trivial, ?_⟩
    rintro _ _ _ _ ⟨⟩
  have hfile : ∀ w ∈ VfsOp.next sb PAGE_SIZE
      (some (info.mounted scriptedHost stillClock 0 [[lineOfFile]])) (lookupA 0),
      ∀ v ∈ w.inodes[1]?, v.Takes 0x81ED := by
    decide +kernel
  refine inodes_keepKind scriptedHost stillClock 0 [[lineOfFile]] [] 0 0 (Nat.le_refl _) ?_
    (List.prefix_refl _)
  refine ⟨fun w _ => hlookup w, fun w hw => ⟨trivial, ?_⟩, trivial⟩
  rintro _ _ _ _ ⟨⟩ _
  exact hfile w hw

/-- The root directory. -/
def rootNode : Node := ⟨.root, 0⟩

/-- The listing of the root directory, where the first entry is for this inode. -/
def listRoot (target : FillTarget) : VfsOp :=
  .readdir rootNode ⟨true, false⟩ blankFrame (.list false [] [(target, true)])

/-- `a` is found as a file, and then listed as a directory. -/
theorem not_inodes_keepKind :
    let info := optionsOf [] 0 0
    let sb := info.superBlock scriptedHost stillClock
    ∃ w ∈ VfsOp.reached sb PAGE_SIZE
        (info.mounted scriptedHost stillClock 0 [[lineOfFile], [lineOfDir]])
        [lookupA 0, listRoot (.existing 1)],
      ∃ v ∈ w.inodes, ¬ v.KeepsKind := by
  decide +kernel

end Shfs
