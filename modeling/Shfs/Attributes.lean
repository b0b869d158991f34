import Shfs.Notify
import Shfs.LsLine

/-!
# Attributes on both sides

An inode and its remote file agree (`Agrees`) when a listing would store in the inode what is there
already: `do_ls` decodes the entry with `info->fmask`, and `shfs_set_inode_attr` puts in the mount's
owner unless ownership is preserved. `shfs_notify_change` assigns the same fields, one after each
command that has succeeded, but without the mask and with the two owners exchanged; and a size that
`inode_newsize_ok` refuses has been set on the remote side by then.

`shfsNotifyChange_agrees_iff` says for which commands, of those that succeed, this does no harm.
-/

namespace Shfs

open Lib

/-! ## Agreement -/

/-- `shfs_set_inode_attr` -/
def shfsSetInodeAttr (info : MountOpts) (fattr : Fattr) : Stat where
  mode := fattr.mode
  uid := if info.preserveOwn then fattr.uid else info.uid
  gid := if info.preserveOwn then fattr.gid else info.gid
  size := fattr.size
  atime := ⟨fattr.time.toBitVec.toInt, 0⟩
  mtime := ⟨fattr.time.toBitVec.toInt, 0⟩

/-- A regular file on the server. -/
structure RemoteAttr : Type where
  perm : Perm
  uid : UInt32
  gid : UInt32
  size : Fin (2 ^ 63)
  deriving DecidableEq, Repr

/-- The file as an entry of a directory. -/
def RemoteAttr.entry (r : RemoteAttr) (nlink : UInt32) (name : EntryName) : RemoteEntry :=
  ⟨.regular r.size, r.perm, nlink, r.uid, r.gid, name⟩

/-- The inode has the attributes that an entry of the file, decoded with `fmask`, would give it. -/
def Agrees (fmask : UInt16) (info : MountOpts) (inode : Stat) (r : RemoteAttr) : Prop :=
  ∀ clock l nlink name behind shown fattr,
    lsEntry fmask clock (lsLine l (r.entry nlink name) ++ 0 :: behind) = some (shown, fattr) →
      let stored := shfsSetInodeAttr info fattr
      inode.mode = stored.mode ∧ inode.uid = stored.uid ∧ inode.gid = stored.gid ∧
        inode.size = stored.size

section Decoding

variable {fmask : UInt16} {info : MountOpts} {inode : Stat} {r : RemoteAttr}

/-- What `do_ls` makes of the entry of a regular file. -/
theorem lsEntry_regular (fmask : UInt16) (clock : Clock) (l : Layout) (r : RemoteAttr)
    (nlink : UInt32) (name : EntryName) (behind : Bytes) (h : ∃ b ∈ name.text, b ≠ sp) :
    ∃ fattr, lsEntry fmask clock (lsLine l (r.entry nlink name) ++ 0 :: behind) =
        some (name.text, fattr) ∧
      fattr.mode = (S_IFREG ||| r.perm.bits) &&& fmask ∧ fattr.uid = r.uid ∧ fattr.gid = r.gid ∧
        fattr.size.toNat = r.size := by
  set e := r.entry nlink name with he
  have hname : e.nameText = name.text := List.append_nil _
  obtain ⟨tail, htail⟩ : ∃ tail, lsLine l e ++ 0 :: behind = e.modeText ++ tail :=
    ⟨_, List.append_assoc ..⟩
  have hletter := e.unbroken_modeText.2 _ (List.mem_cons_self ..)
  have hdrop : (lsLine l e ++ 0 :: behind).dropWhile (· = sp) = e.modeText ++ tail := by
    rw [htail, RemoteEntry.modeText, List.cons_append]
    exact List.dropWhile_cons_of_neg (by simpa using hletter.1)
  have hmode : modeOf fmask (fun i => (e.modeText ++ tail).getD i 0) = S_IFREG ||| r.perm.bits :=
    modeOf_text fmask e tail
  have htype : (S_IFREG ||| r.perm.bits) &&& S_IFMT = S_IFREG := e.mode_and
  have hdesc := e.describes_lsFattr clock l tail
  refine ⟨lsFattr fmask clock (fun i => (e.modeText ++ tail).getD i 0)
    fun i => (e.columns l ++ [e.nameText]).getD i [], ?_, ?_, hdesc.uid, hdesc.gid, hdesc.size⟩
  · have hcols : (e.columns l ++ [e.nameText]).length = DIR_COLS := rfl
    rw [lsEntry, parseDir_lsLine]
    simp only [if_pos (hname ▸ h), hdrop, hmode, htype]
    rw [if_neg (not_not.mpr hcols), if_neg (of_decide_eq_true rfl : ¬ S_IFREG = S_IFLNK)]
    refine (if_neg e.nameText_ne_dots).trans ?_
    exact congrArg (fun n => some (n, _)) hname
  · simp only [lsFattr, hmode, htype, if_true]

/-- **Agreement in numbers**: the mode of a listing through the mask, the owner and the group that
the mount gives to a file, and the size. It is what `Agrees` comes to when the line of the file is
read. -/
theorem agrees_fields_iff : Agrees fmask info inode r ↔
    inode.mode = (S_IFREG ||| r.perm.bits) &&& fmask ∧
      inode.uid = (if info.preserveOwn then r.uid else info.uid) ∧
      inode.gid = (if info.preserveOwn then r.gid else info.gid) ∧ inode.size.toNat = r.size := by
  constructor
  · intro h
    obtain ⟨fattr, hentry, hmode, huid, hgid, hsize⟩ :=
      lsEntry_regular fmask stillClock narrow r 1 nameA [] (by decide)
    obtain ⟨h1, h2, h3, h4⟩ := h _ _ _ _ _ _ _ hentry
    exact ⟨h1.trans hmode, huid ▸ h2, hgid ▸ h3, h4.symm ▸ hsize⟩
  · rintro ⟨h1, h2, h3, h4⟩ clock l nlink name behind shown fattr hentry
    by_cases hname : ∃ b ∈ name.text, b ≠ sp
    · obtain ⟨f, hf, hmode, huid, hgid, hsize⟩ :=
        lsEntry_regular fmask clock l r nlink name behind hname
      obtain ⟨-, rfl⟩ := Prod.mk.inj (Option.some.inj (hf.symm.trans hentry))
      refine ⟨h1.trans hmode.symm, h2.trans (by rw [← huid]; rfl), h3.trans (by rw [← hgid]; rfl),
        ?_⟩
      exact UInt64.toNat_inj.mp (h4.trans hsize.symm)
    · -- such a line is no entry
      have hno : ¬ ∃ b ∈ (r.entry nlink name).nameText, b ≠ sp := by
        rwa [show (r.entry nlink name).nameText = name.text from List.append_nil _]
      rw [lsEntry, parseDir_lsLine] at hentry
      simp only [if_neg hno] at hentry
      exact absurd hentry (by simp [RemoteEntry.columns])

end Decoding

/-! ## Commands that succeed -/

section Commands

variable {σ : Type} (aops : Aops σ) (attrs : σ → RemoteAttr)

/-- A command that fails changes nothing, and one that succeeds applies the value it gets. -/
structure Aops.Exact : Prop where
  chmod : ∀ name mode s, match (aops.chmod name mode s).result with
    | .error _ => attrs (aops.chmod name mode s).remote = attrs s
    | .ok _ => ∃ perm, perm.bits = mode &&& 0x0FFF ∧
        attrs (aops.chmod name mode s).remote = { attrs s with perm := perm }
  chown : ∀ name uid s, match (aops.chown name uid s).result with
    | .error _ => attrs (aops.chown name uid s).remote = attrs s
    | .ok _ => attrs (aops.chown name uid s).remote = { attrs s with uid := uid }
  chgrp : ∀ name gid s, match (aops.chgrp name gid s).result with
    | .error _ => attrs (aops.chgrp name gid s).remote = attrs s
    | .ok _ => attrs (aops.chgrp name gid s).remote = { attrs s with gid := gid }
  trunc : ∀ name size s, match (aops.trunc name size s).result with
    | .error _ => attrs (aops.trunc name size s).remote = attrs s
    | .ok _ => ∃ n : Fin (2 ^ 63), n = size.toNat ∧
        attrs (aops.trunc name size s).remote = { attrs s with size := n }
  settime : ∀ name which time s, attrs (aops.settime name which time s).remote = attrs s

variable (verdicts : Verdicts) (attr : Iattr)

/-- The commands of a list that succeed on the server, until one fails or a verdict stops them. -/
def accepted : List AttrCmd → Bytes → σ → List AttrCmd
  | [], _, _ => []
  | a :: as, name, s =>
    let r := a.op aops attr name s
    match r.result with
    | .error _ => []
    | .ok n =>
      match a.verdict verdicts n with
      | .error _ => [a]
      | .ok _ => a :: accepted as r.name r.remote

/-- The commands of `shfs_notify_change` that succeed on the server. -/
def Iattr.accepted (info : MountOpts) (d : Dentry) (stack : Bytes) (s : σ) : List AttrCmd :=
  match verdicts.change with
  | .error _ => []
  | .ok _ =>
    if info.readonly then []
    else Shfs.accepted aops verdicts attr attr.asks (getName d stack).2 s

/-- What the value of a command has to be like, for a file that is `r` before. -/
def AttrCmd.Harmless (fmask : UInt16) (info : MountOpts) (r : RemoteAttr) : AttrCmd → Prop
  | chmod => attr.mode = (S_IFREG ||| (attr.mode &&& 0x0FFF)) &&& fmask
  | chown => attr.uid = info.uid
  | chgrp => attr.gid = info.gid
  | trunc => verdicts.newsize = .ok () ∨ attr.size.toNat = r.size
  | settime _ => True

variable {aops attrs verdicts attr} {info : MountOpts}

/-- **One writer**: what only one command writes is written if that command succeeds. -/
theorem Change.foldl_get {β : Type} (get : Change σ → β) (a₀ : AttrCmd) (f : β → β)
    (hf : ∀ b, f (f b) = f b)
    (hset : ∀ v n m, v.result = .ok n → (a₀.op aops attr v.name v.remote).result = .ok m →
      get (Change.step aops info verdicts attr v a₀) = f (get v))
    (hkeep : ∀ v n a, v.result = .ok n →
      (a ≠ a₀ ∨ ∃ e, (a.op aops attr v.name v.remote).result = .error e) →
      get (Change.step aops info verdicts attr v a) = get v)
    {v : Change σ} {n : ℕ} (hv : v.result = .ok n) (l : List AttrCmd) :
    get (l.foldl (Change.step aops info verdicts attr) v) =
      if a₀ ∈ accepted aops verdicts attr l v.name v.remote then f (get v) else get v := by
  induction l generalizing v n with
  | nil => rfl
  | cons a l ih =>
    obtain ⟨hname, hremote, hfails⟩ := Change.step_ok aops info verdicts attr hv a
    rw [List.foldl_cons]
    cases hr : (a.op aops attr v.name v.remote).result with
    | error e =>
      have haccepted : accepted aops verdicts attr (a :: l) v.name v.remote = [] := by
        simp only [accepted, hr]
      -- nothing follows a command that has failed
      obtain ⟨e', he'⟩ := hfails.mpr (by rw [hr]; trivial)
      rw [Change.foldl_failed he', hkeep v n a hv (Or.inr ⟨e, hr⟩), haccepted]
      exact (if_neg List.not_mem_nil).symm
    | ok m =>
      rw [hr] at hfails
      have hwrite : get (Change.step aops info verdicts attr v a) =
          if a = a₀ then f (get v) else get v := by
        split
        · next ha => exact ha ▸ hset v n m hv (ha ▸ hr)
        · next ha => exact hkeep v n a hv (Or.inl ha)
      cases hverdict : a.verdict verdicts m with
      | error e =>
        have haccepted : accepted aops verdicts attr (a :: l) v.name v.remote = [a] := by
          simp only [accepted, hr, hverdict]
        obtain ⟨e', he'⟩ := hfails.mpr ⟨e, hverdict⟩
        rw [Change.foldl_failed he', hwrite, haccepted]
        simp only [List.mem_singleton, eq_comm]
      | ok k =>
        have haccepted : accepted aops verdicts attr (a :: l) v.name v.remote = a ::
            accepted aops verdicts attr l (a.op aops attr v.name v.remote).name
              (a.op aops attr v.name v.remote).remote := by
          simp only [accepted, hr, hverdict]
        cases hstep : (Change.step aops info verdicts attr v a).result with
        | error e =>
          obtain ⟨e', he'⟩ := hfails.mp ⟨e, hstep⟩
          rw [hverdict] at he'
          cases he'
        | ok k' =>
          rw [ih hstep, hname, hremote, hwrite, haccepted]
          by_cases ha : a = a₀
          · rw [if_pos ha, ha, if_pos (List.mem_cons_self ..)]
            split
            · exact hf _
            · rfl
          · simp only [if_neg ha, List.mem_cons, Ne.symm ha, false_or]

/-- What a command leaves in the inode. -/
theorem Change.step_inode {v : Change σ} {n : ℕ} (hv : v.result = .ok n) (a : AttrCmd) :
    (Change.step aops info verdicts attr v a).inode =
      match (a.op aops attr v.name v.remote).result with
      | .error _ => v.inode
      | .ok m =>
        match a.verdict verdicts m with
        | .error _ => v.inode
        | .ok _ => a.take info attr v.inode := by
  unfold Change.step
  rw [hv]
  dsimp only
  cases (a.op aops attr v.name v.remote).result with
  | error e => rfl
  | ok m =>
    dsimp only
    cases a.verdict verdicts m <;> rfl

/-- A field of the inode that one command takes over from the request, if no verdict stops it. -/
theorem Change.foldl_inode {β : Type} (get : Stat → β) (a₀ : AttrCmd) (f : β → β)
    (hf : ∀ b, f (f b) = f b)
    (hset : ∀ i m, match a₀.verdict verdicts m with
      | .error _ => get i = f (get i)
      | .ok _ => get (a₀.take info attr i) = f (get i))
    (hkeep : ∀ a i, a ≠ a₀ → get (a.take info attr i) = get i) {v : Change σ} {n : ℕ}
    (hv : v.result = .ok n) (l : List AttrCmd) :
    get (l.foldl (Change.step aops info verdicts attr) v).inode =
      if a₀ ∈ accepted aops verdicts attr l v.name v.remote then f (get v.inode)
      else get v.inode := by
  refine Change.foldl_get (fun v => get v.inode) a₀ f hf ?_ ?_ hv l
  · intro v n m hv hr
    have := hset v.inode m
    rw [Change.step_inode hv, hr]
    dsimp only
    cases hverdict : a₀.verdict verdicts m <;> rwa [hverdict] at this
  · intro v n a hv ha
    rw [Change.step_inode hv]
    cases hr : (a.op aops attr v.name v.remote).result with
    | error e => rfl
    | ok m =>
      dsimp only
      cases a.verdict verdicts m with
      | error e => rfl
      | ok k =>
        obtain ha | ⟨e, he⟩ := ha
        · exact hkeep a v.inode ha
        · rw [hr] at he
          cases he

/-- An attribute of the file that is set by one command. -/
theorem Change.foldl_remote {β : Type} (get : RemoteAttr → β) (a₀ : AttrCmd) (b : β)
    (hset : ∀ name s m, (a₀.op aops attr name s).result = .ok m →
      get (attrs (a₀.op aops attr name s).remote) = b)
    (hkeep : ∀ a name s, (a ≠ a₀ ∨ ∃ e, (a.op aops attr name s).result = .error e) →
      get (attrs (a.op aops attr name s).remote) = get (attrs s)) {v : Change σ} {n : ℕ}
    (hv : v.result = .ok n) (l : List AttrCmd) :
    get (attrs (l.foldl (Change.step aops info verdicts attr) v).remote) =
      if a₀ ∈ accepted aops verdicts attr l v.name v.remote then b else get (attrs v.remote) := by
  refine Change.foldl_get (fun v => get (attrs v.remote)) a₀ (fun _ => b) (fun _ => rfl) ?_ ?_ hv l
  · intro v n m hv hr
    rw [(Change.step_ok aops info verdicts attr hv a₀).2.1]
    exact hset _ _ m hr
  · intro v n a hv ha
    rw [(Change.step_ok aops info verdicts attr hv a).2.1]
    exact hkeep a _ _ ha

namespace Aops.Exact

variable (h : aops.Exact attrs)
include h

/-- A command that fails changes nothing. -/
theorem attrs_of_failed {a : AttrCmd} {name : Bytes} {s : σ} {e : Errno}
    (he : (a.op aops attr name s).result = .error e) :
    attrs (a.op aops attr name s).remote = attrs s := by
  cases a with
  | chmod =>
    have := h.chmod name attr.mode s
    rwa [show (aops.chmod name attr.mode s).result = .error e from he] at this
  | chown =>
    have := h.chown name attr.uid s
    rwa [show (aops.chown name attr.uid s).result = .error e from he] at this
  | chgrp =>
    have := h.chgrp name attr.gid s
    rwa [show (aops.chgrp name attr.gid s).result = .error e from he] at this
  | trunc =>
    have := h.trunc name attr.size s
    rwa [show (aops.trunc name attr.size s).result = .error e from he] at this
  | settime which => cases which <;> exact h.settime ..

/-- What a command makes of the attributes. -/
theorem attrs_of_ok {a : AttrCmd} {name : Bytes} {s : σ} {m : ℕ}
    (hm : (a.op aops attr name s).result = .ok m) :
    match a with
    | .chmod => ∃ perm, perm.bits = attr.mode &&& 0x0FFF ∧
        attrs (AttrCmd.chmod.op aops attr name s).remote = { attrs s with perm := perm }
    | .chown => attrs (AttrCmd.chown.op aops attr name s).remote = { attrs s with uid := attr.uid }
    | .chgrp => attrs (AttrCmd.chgrp.op aops attr name s).remote = { attrs s with gid := attr.gid }
    | .trunc => ∃ n : Fin (2 ^ 63), n = attr.size.toNat ∧
        attrs (AttrCmd.trunc.op aops attr name s).remote = { attrs s with size := n }
    | .settime which =>
        attrs ((AttrCmd.settime which).op aops attr name s).remote = attrs s := by
  cases a with
  | chmod =>
    have := h.chmod name attr.mode s
    rwa [show (aops.chmod name attr.mode s).result = .ok m from hm] at this
  | chown =>
    have := h.chown name attr.uid s
    rwa [show (aops.chown name attr.uid s).result = .ok m from hm] at this
  | chgrp =>
    have := h.chgrp name attr.gid s
    rwa [show (aops.chgrp name attr.gid s).result = .ok m from hm] at this
  | trunc =>
    have := h.trunc name attr.size s
    rwa [show (aops.trunc name attr.size s).result = .ok m from hm] at this
  | settime which => cases which <;> exact h.settime ..

/-- An attribute that the other commands leave alone. -/
theorem attrs_keep {β : Type} (get : RemoteAttr → β) {a₀ : AttrCmd}
    (hperm : a₀ ≠ .chmod → ∀ r p, get { r with perm := p } = get r)
    (huid : a₀ ≠ .chown → ∀ r u, get { r with uid := u } = get r)
    (hgid : a₀ ≠ .chgrp → ∀ r g, get { r with gid := g } = get r)
    (hsize : a₀ ≠ .trunc → ∀ r n, get { r with size := n } = get r) (a : AttrCmd) (name : Bytes)
    (s : σ) (ha : a ≠ a₀ ∨ ∃ e, (a.op aops attr name s).result = .error e) :
    get (attrs (a.op aops attr name s).remote) = get (attrs s) := by
  cases hr : (a.op aops attr name s).result with
  | error e => rw [h.attrs_of_failed hr]
  | ok m =>
    have hne : a₀ ≠ a := by
      rintro rfl
      obtain ha | ⟨e, he⟩ := ha
      · exact ha rfl
      · rw [hr] at he
        cases he
    have hok := h.attrs_of_ok hr
    cases a with
    | chmod =>
      obtain ⟨perm, -, heq⟩ := hok
      rw [heq]
      exact hperm hne _ _
    | chown =>
      rw [show attrs _ = _ from hok]
      exact huid hne _ _
    | chgrp =>
      rw [show attrs _ = _ from hok]
      exact hgid hne _ _
    | trunc =>
      obtain ⟨n, -, heq⟩ := hok
      rw [heq]
      exact hsize hne _ _
    | settime which => rw [show attrs _ = _ from hok]

variable (verdicts attr info) in
/-- The attributes of the file behind the commands. -/
theorem foldl_attrs {v : Change σ} {n : ℕ} (hv : v.result = .ok n) (l : List AttrCmd) :
    let as := accepted aops verdicts attr l v.name v.remote
    let r := attrs (l.foldl (Change.step aops info verdicts attr) v).remote
    r.perm.bits = (if .chmod ∈ as then attr.mode &&& 0x0FFF else (attrs v.remote).perm.bits) ∧
      r.uid = (if .chown ∈ as then attr.uid else (attrs v.remote).uid) ∧
      r.gid = (if .chgrp ∈ as then attr.gid else (attrs v.remote).gid) ∧
      r.size.val = (if .trunc ∈ as then attr.size.toNat else (attrs v.remote).size.val) := by
  refine ⟨?_, ?_, ?_, ?_⟩
  · refine Change.foldl_remote (fun r => r.perm.bits) .chmod _ (fun name s m hm => ?_)
      (h.attrs_keep (fun r => r.perm.bits) (fun hne => absurd rfl hne) ?_ ?_ ?_) hv l
    · obtain ⟨perm, hperm, heq⟩ := h.attrs_of_ok hm
      rw [heq]
      exact hperm
    all_goals exact fun _ _ _ => rfl
  · refine Change.foldl_remote (fun r => r.uid) .chown _ (fun name s m hm => ?_)
      (h.attrs_keep (fun r => r.uid) ?_ (fun hne => absurd rfl hne) ?_ ?_) hv l
    · rw [show attrs _ = _ from h.attrs_of_ok hm]
    all_goals exact fun _ _ _ => rfl
  · refine Change.foldl_remote (fun r => r.gid) .chgrp _ (fun name s m hm => ?_)
      (h.attrs_keep (fun r => r.gid) ?_ ?_ (fun hne => absurd rfl hne) ?_) hv l
    · rw [show attrs _ = _ from h.attrs_of_ok hm]
    all_goals exact fun _ _ _ => rfl
  · refine Change.foldl_remote (fun r => r.size.val) .trunc _ (fun name s m hm => ?_)
      (h.attrs_keep (fun r => r.size.val) ?_ ?_ ?_ (fun hne => absurd rfl hne)) hv l
    · obtain ⟨n, hn, heq⟩ := h.attrs_of_ok hm
      rw [heq]
      exact hn
    all_goals exact fun _ _ _ => rfl

end Aops.Exact

variable (aops verdicts attr info) in
/-- The fields of the inode behind the commands. -/
theorem Change.foldl_stat {v : Change σ} {n : ℕ} (hv : v.result = .ok n) (l : List AttrCmd) :
    let as := accepted aops verdicts attr l v.name v.remote
    let i := (l.foldl (Change.step aops info verdicts attr) v).inode
    i.mode = (if .chmod ∈ as then attr.mode else v.inode.mode) ∧
      i.uid = (if .chown ∈ as then if info.preserveOwn then info.uid else attr.uid
        else v.inode.uid) ∧
      i.gid = (if .chgrp ∈ as then if info.preserveOwn then info.gid else attr.gid
        else v.inode.gid) ∧
      i.size = (if .trunc ∈ as ∧ verdicts.newsize = .ok () then attr.size else v.inode.size) := by
  refine ⟨?_, ?_, ?_, ?_⟩
  · refine Change.foldl_inode (fun i => i.mode) .chmod (fun _ => attr.mode) (fun _ => rfl)
      (fun _ _ => rfl) (fun a i ha => ?_) hv l
    cases a with
    | chmod => exact absurd rfl ha
    | settime when => cases when <;> rfl
    | chown | chgrp | trunc => rfl
  · refine Change.foldl_inode (fun i => i.uid) .chown
      (fun _ => if info.preserveOwn then info.uid else attr.uid) (fun _ => rfl) (fun _ _ => rfl)
      (fun a i ha => ?_) hv l
    cases a with
    | chown => exact absurd rfl ha
    | settime when => cases when <;> rfl
    | chmod | chgrp | trunc => rfl
  · refine Change.foldl_inode (fun i => i.gid) .chgrp
      (fun _ => if info.preserveOwn then info.gid else attr.gid) (fun _ => rfl) (fun _ _ => rfl)
      (fun a i ha => ?_) hv l
    cases a with
    | chgrp => exact absurd rfl ha
    | settime when => cases when <;> rfl
    | chmod | chown | trunc => rfl
  · -- the size is the only field with a verdict between its command and the inode
    refine (Change.foldl_inode (fun i => i.size) .trunc
      (fun b => if verdicts.newsize = .ok () then attr.size else b) (fun b => ?_) (fun i m => ?_)
      (fun a i ha => ?_) hv l).trans ?_
    · split <;> rfl
    · rw [AttrCmd.verdict]
      cases verdicts.newsize with
      | error e => rfl
      | ok u => rfl
    · cases a with
      | trunc => exact absurd rfl ha
      | settime when => cases when <;> rfl
      | chmod | chown | chgrp => rfl
    · split
      · next hmem => simp only [hmem, true_and]
      · next hmem => simp only [hmem, false_and, if_false]

/-! ## `shfs_notify_change` -/

variable {fmask : UInt16}

theorem AttrCmd.forall_harmless {r : RemoteAttr} {as : List AttrCmd} :
    (∀ a ∈ as, a.Harmless verdicts attr fmask info r) ↔
      (.chmod ∈ as → attr.mode = (S_IFREG ||| (attr.mode &&& 0x0FFF)) &&& fmask) ∧
        (.chown ∈ as → attr.uid = info.uid) ∧ (.chgrp ∈ as → attr.gid = info.gid) ∧
        (.trunc ∈ as → verdicts.newsize = .ok () ∨ attr.size.toNat = r.size) := by
  constructor
  · intro h
    exact ⟨fun ha => h _ ha, fun ha => h _ ha, fun ha => h _ ha, fun ha => h _ ha⟩
  · rintro ⟨hchmod, hchown, hchgrp, htrunc⟩ a ha
    cases a with
    | chmod => exact hchmod ha
    | chown => exact hchown ha
    | chgrp => exact hchgrp ha
    | trunc => exact htrunc ha
    | settime which => trivial

/-- **Agreement is kept** exactly if none of the commands that succeed does harm. A command does
harm where it makes the inode and a listing part: by a mode that the mask would change, by an owner
or a group that is not that of the mount, or by a size that the check of the kernel keeps out of the
inode. -/
theorem shfsNotifyChange_agrees_iff (haops : aops.Exact attrs) (d : Dentry) (stack : Bytes)
    {inode : Stat} {s : σ} (h : Agrees fmask info inode (attrs s)) :
    Agrees fmask info (shfsNotifyChange aops info verdicts d stack attr inode s).2.1
        (attrs (shfsNotifyChange aops info verdicts d stack attr inode s).2.2) ↔
      ∀ a ∈ attr.accepted aops verdicts info d stack s,
        a.Harmless verdicts attr fmask info (attrs s) := by
  rw [shfsNotifyChange_eq, Iattr.accepted]
  cases verdicts.change with
  | error e => exact iff_of_true h fun a ha => absurd ha List.not_mem_nil
  | ok u =>
    cases info.readonly with
    | true => exact iff_of_true h fun a ha => absurd ha List.not_mem_nil
    | false =>
      simp only [Bool.false_eq_true, if_false]
      obtain ⟨hmode, huid, hgid, hsize⟩ := agrees_fields_iff.mp h
      set v : Change σ := ⟨.ok 0, (getName d stack).2, inode, s⟩
      have hv : v.result = .ok 0 := rfl
      obtain ⟨rmode, ruid, rgid, rsize⟩ :=
        haops.foldl_attrs verdicts attr info hv attr.asks
      obtain ⟨imode, iuid, igid, isize⟩ :=
        Change.foldl_stat aops verdicts attr info hv attr.asks
      rw [agrees_fields_iff, rmode, ruid, rgid, rsize, imode, iuid, igid, isize,
        AttrCmd.forall_harmless]
      -- mode, owner, group and size one by one: a command that has been accepted changes both
      -- sides, and they agree where it is harmless
      refine and_congr ?_ (and_congr ?_ (and_congr ?_ ?_))
      · split
        · next hmem => exact ⟨fun heq _ => heq, fun himp => himp hmem⟩
        · next hmem => exact iff_of_true hmode fun hin => absurd hin hmem
      · split
        · next hmem =>
          cases info.preserveOwn with
          | true => exact ⟨fun heq _ => heq.symm, fun himp => (himp hmem).symm⟩
          | false => exact ⟨fun heq _ => heq, fun himp => himp hmem⟩
        · next hmem => exact iff_of_true huid fun hin => absurd hin hmem
      · split
        · next hmem =>
          cases info.preserveOwn with
          | true => exact ⟨fun heq _ => heq.symm, fun himp => (himp hmem).symm⟩
          | false => exact ⟨fun heq _ => heq, fun himp => himp hmem⟩
        · next hmem => exact iff_of_true hgid fun hin => absurd hin hmem
      · by_cases hmem : AttrCmd.trunc ∈ accepted aops verdicts attr attr.asks v.name v.remote
        -- the size of the inode is only set when `inode_setattr` is called for it
        · by_cases hok : verdicts.newsize = .ok ()
          · rw [if_pos ⟨hmem, hok⟩, if_pos hmem]
            exact iff_of_true rfl fun _ => Or.inl hok
          · rw [if_neg fun hand => hok hand.2, if_pos hmem]
            refine ⟨fun heq _ => Or.inr (heq.symm.trans hsize), fun himp => ?_⟩
            exact hsize.trans ((himp hmem).resolve_left hok).symm
        · rw [if_neg fun hand => hmem hand.1, if_neg hmem]
          exact iff_of_true hsize fun hin => absurd hin hmem

end Commands

/-! ### An example -/

/-- `rw-r--r--` -/
def plainPerm : Perm :=
  ⟨⟨true, true, false, false⟩, ⟨true, false, false, false⟩, ⟨true, false, false, false⟩⟩

/-- `rwxr-xr-x` -/
def execPerm : Perm :=
  ⟨⟨true, true, true, false⟩, ⟨true, false, true, false⟩, ⟨true, false, true, false⟩⟩

/-- A server that sets one mode, and nothing else. -/
def execAops : Aops RemoteAttr where
  chmod name mode s :=
    if mode = 0x81ED then ⟨.ok 0, name, { s with perm := execPerm }⟩ else ⟨.error .eperm, name, s⟩
  chown name _ s := ⟨.error .eperm, name, s⟩
  chgrp name _ s := ⟨.error .eperm, name, s⟩
  trunc name _ s := ⟨.error .eperm, name, s⟩
  settime name _ _ s := ⟨.error .eperm, name, s⟩

theorem execAops_exact : execAops.Exact id where
  chmod name mode s := by
    by_cases h : mode = 0x81ED
    · simp only [execAops, if_pos h]
      exact ⟨execPerm, h ▸ rfl, rfl⟩
    · simp only [execAops, if_neg h, id]
  chown _ _ _ := rfl
  chgrp _ _ _ := rfl
  trunc _ _ _ := rfl
  settime _ _ _ _ := rfl

/-- Nothing is to be checked. -/
def easy : Verdicts := ⟨.ok (), .ok ()⟩

/-- `chmod 755` -/
def makeExec : Iattr :=
  ⟨⟨true, false, false, false, false, false⟩, 0x81ED, 0, 0, 0, ⟨0, 0⟩, ⟨0, 0⟩⟩

def plainRemote : RemoteAttr := ⟨plainPerm, 500, 500, ⟨3, by decide⟩⟩

/-- The inode of the file, on a mount that preserves ownership. -/
def plainInode : Stat := ⟨0x81A4, 500, 500, 3, ⟨0, 0⟩, ⟨0, 0⟩⟩

theorem makeExec_agrees_iff :
    let r := shfsNotifyChange execAops ⟨false, true, 500, 500⟩ easy (.child .root (ascii "a")) []
      makeExec plainInode plainRemote
    Agrees 0xFFFF ⟨false, true, 500, 500⟩ r.2.1 r.2.2 ↔
      ∀ a ∈ makeExec.accepted execAops easy ⟨false, true, 500, 500⟩ (.child .root (ascii "a")) []
        plainRemote, a.Harmless easy makeExec 0xFFFF ⟨false, true, 500, 500⟩ plainRemote :=
  shfsNotifyChange_agrees_iff execAops_exact _ _
    (agrees_fields_iff.mpr ⟨by decide, by decide, by decide, by decide⟩)

/-- Under `noexec` the inode gets the execute bits that a listing would take off. -/
theorem not_agrees_exec :
    let r := shfsNotifyChange execAops ⟨false, true, 500, 500⟩ easy (.child .root (ascii "a")) []
      makeExec plainInode plainRemote
    Agrees 0xFFB6 ⟨false, true, 500, 500⟩ plainInode plainRemote ∧
      ¬ Agrees 0xFFB6 ⟨false, true, 500, 500⟩ r.2.1 r.2.2 := by
  refine ⟨agrees_fields_iff.mpr ⟨by decide, by decide, by decide, by decide⟩, fun h => ?_⟩
  have hmode := (agrees_fields_iff.mp h).1
  revert hmode
  decide

end Shfs
