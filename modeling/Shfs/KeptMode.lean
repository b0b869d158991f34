import Mathlib.Data.Nat.Bitwise
import Shfs.InodeModes

/-!
# Permissions that were asked for

A file that is created without `S_IWUSR` is created with it: `shfs_create` forces the bit on, and
leaves a note in the inode, so that `shfs_file_release` takes it off again. The note is never taken
back. So every release of a handle takes the bit off, whatever has been asked for since; and it
sends `i_mode`, which behind a `shfs_create` has gone through the mask of the mount.

`FileLife` is one file in the hands of the four functions, with what has been asked for, and
`ModeView` is what counts of it. The server is one that does exactly what it is told about
permissions (`SetsModes`).
-/

namespace Shfs

open Lib

/-! ## A server that sets modes -/

/-- The listing of the file begins with its entry. -/
def ListsFile (perm : Perm) (l : Listing) : Prop :=
  ∃ (r : RemoteAttr) (layout : Layout) (nlink : UInt32) (name : EntryName) (more : List Bytes),
    r.perm = perm ∧ (∃ b ∈ name.text, b ≠ sp) ∧
      l.lines = lsLine layout (r.entry nlink name) :: statusText REP_COMPLETE :: more

/-- Every command succeeds, `s_creat` and `s_chmod` set the mode that is sent, a stat tells it, and
nothing else changes it. -/
structure SetsModes {τ : Type} (host : Host τ) (file : Bytes) (perm : τ → Perm) : Prop where
  succeeds : ∀ c t, ∃ k, (host.status c t).1 = .ok k
  creat : ∀ (mode : UInt16) c t, shellCreate file mode.toUInt32 = some c →
    (perm (host.status c t).2).bits = mode &&& 0xFFF
  chmod : ∀ mode c t, shellChmod file mode = some c →
    (perm (host.status c t).2).bits = mode &&& 0xFFF
  others : ∀ c t, c.cmd ≠ ascii "s_creat" → c.cmd ≠ ascii "s_chmod" →
    perm (host.status c t).2 = perm t
  data : ∀ c t, perm (host.data c t).2 = perm t
  listed : ∀ c t, doLsCmd true file = some c →
    ∃ l, (host.listing c t).1 = .ok l ∧ ListsFile (perm t) l
  listing : ∀ c t, perm (host.listing c t).2 = perm t
  locks : ∀ t, perm (host.mutexLock t) = perm t
  unlocks : ∀ t, perm (host.mutexUnlock t) = perm t

/-! ## What the functions do -/

/-- The modes of the inodes, with the notes. -/
def World.modes {τ : Type} (w : World τ) : List (UInt16 × Bool) :=
  w.inodes.map fun v => (v.stat.mode, v.unsetWriteOnClose)

section Functions

variable {τ : Type} {sb : SuperBlock τ} {d : Dentry} {perm : τ → Perm} {w : World τ}

theorem World.modes_putSlot (w : World τ) (i : ℕ) (s : Slot (Far τ)) :
    (w.putSlot i s).modes = w.modes := by
  refine List.ext_getElem? fun j => ?_
  simp only [World.modes, World.putSlot, List.getElem?_map, List.getElem?_modify]
  cases w.inodes[j]? with
  | none => rfl
  | some v =>
    change some _ = some _
    split <;> rfl

theorem World.modes_update {i : ℕ} {v : VInode} (hv : w.inodes[i]? = some v)
    (f : VInode → VInode) :
    (w.update i f).modes[i]? = some ((f v).stat.mode, (f v).unsetWriteOnClose) := by
  rw [World.modes, World.update, List.getElem?_map, List.getElem?_modify_eq, hv]
  rfl

/-- The server has these permissions for the file. -/
def Holding (perm : τ → Perm) (p : Perm) (far : Far τ) : Prop := perm far.server = p

/-- A command that is about something else. -/
theorem issue_holding {ρ : Type} {answer : Cmd → τ → Except Errno ρ × τ} {b : Bytes → Option Cmd}
    {name : Bytes} {p : Perm} {far : Far τ} (hfar : Holding perm p far)
    (hb : ∀ c, b name = some c → perm (answer c far.server).2 = perm far.server) :
    Holding perm p (issue answer b name far).remote := by
  unfold issue
  cases hc : b name with
  | none => exact hfar
  | some c => exact (hb c hc).trans hfar

theorem fops_holding (h : SetsModes sb.host d.text perm) (p : Perm) :
    sb.fops.Keeps (Holding perm p) where
  read _ _ _ _ _ hs := issue_holding hs fun c _ => h.data c _
  write _ _ _ _ _ hs := by
    refine issue_holding hs fun c hc => ?_
    obtain ⟨quoted, -, rfl⟩ := Option.map_eq_some_iff.mp hc
    exact h.others _ _ (by decide : ascii "s_write" ≠ ascii "s_creat")
      (by decide : ascii "s_write" ≠ ascii "s_chmod")

theorem World.ifOk_failed {ρ ρ' : Type} {r : Except Errno ρ × World τ}
    {k : ρ → World τ → Except Errno ρ' × World τ} (hr : ∃ e, r.1 = .error e) :
    ∃ e, (World.ifOk r k).1 = .error e := by
  obtain ⟨e, he⟩ := hr
  obtain ⟨result, w⟩ := r
  obtain rfl : result = .error e := he
  exact ⟨e, rfl⟩

theorem World.ifOk_fails {ρ ρ' : Type} {r : Except Errno ρ × World τ}
    {k : ρ → World τ → Except Errno ρ' × World τ} (hk : ∀ x w, ∃ e, (k x w).1 = .error e) :
    ∃ e, (World.ifOk r k).1 = .error e := by
  obtain ⟨result, w⟩ := r
  cases result with
  | error e => exact ⟨e, rfl⟩
  | ok x => exact hk x w

/-- A command that does what it is told. -/
theorem World.send_fits {ρ : Type} (answer : Cmd → τ → Except Errno ρ × τ) {b : Bytes → Option Cmd}
    {name : Bytes} {c : Cmd} (hb : b name = some c) (w : World τ) :
    w.send answer b name = ((answer c w.far.server).1,
      { w with far := ⟨(answer c w.far.server).2, w.far.cmds ++ [c]⟩ }) := by
  unfold World.send issue
  rw [hb]

theorem checkPath_fits {path : Bytes} (hpath : Fits path) (hnul : (0 : Byte) ∉ path) :
    checkPath path = some (quoteText path) := by
  have hroom : path.length < SHFS_PATH_MAX :=
    (Nat.succ_le_succ (le_length_iterate path 1)).trans hpath
  rw [checkPath_eq hnul hroom, if_neg (Nat.not_lt.mpr hpath)]

/-- A stat of the file. -/
theorem shellStat_file (h : SetsModes sb.host d.text perm) (hpath : Fits d.text)
    (hnul : (0 : Byte) ∉ d.text) (fattr : Fattr) (w : World τ) :
    ∃ fattr', (shellStat sb d.text fattr w).1 = .ok fattr' ∧
      fattr'.mode = (S_IFREG ||| (perm w.far.server).bits) &&& sb.fmask ∧
      (shellStat sb d.text fattr w).2.inodes = w.inodes ∧
      perm (shellStat sb d.text fattr w).2.far.server = perm w.far.server := by
  obtain ⟨c, hc⟩ : ∃ c, doLsCmd true d.text = some c :=
    ⟨_, by rw [doLsCmd, onPath, checkPath_fits hpath hnul]; rfl⟩
  obtain ⟨l, hl, r, layout, nlink, name, more, hperm, hname, hlines⟩ := h.listed c w.far.server hc
  obtain ⟨fattr', hentry, hmode, -⟩ := lsEntry_regular sb.fmask sb.clock layout r nlink name
    (l.residue (lsLine layout (r.entry nlink name))) hname
  have hline : lsLine layout (r.entry nlink name) ≠ [] := by
    intro hnil
    rw [hnil] at hentry
    cases hentry
  have hread : readStat sb.fmask sb.clock fattr l = .ok fattr' := by
    unfold readStat
    rw [hlines, lsLoop, if_neg hline, reply_lsLine, lsResult_zero]
    dsimp only
    rw [hentry]
    rfl
  unfold shellStat
  rw [World.send_fits _ hc w]
  refine ⟨fattr', ?_, hperm ▸ hmode, rfl, h.listing c w.far.server⟩
  change (sb.host.listing c w.far.server).1.bind (readStat sb.fmask sb.clock fattr) = .ok fattr'
  rw [hl]
  exact hread

variable (h : SetsModes sb.host d.text perm) (hpath : Fits d.text) (hnul : (0 : Byte) ∉ d.text)
include h hpath hnul

/-- **A create** that is allowed, and gets its inode: the server has the file with the mode that was
asked for and `S_IWUSR`, and the inode has that mode through the mask. The note says whether
`S_IWUSR` was asked for. -/
theorem shfsCreate_done (hro : sb.info.readonly = false) {new : NewInode} (hnew : new.memory = true)
    (stack : Bytes) (mode : UInt16) (frame : Frame) (w : World τ) :
    let r := shfsCreate sb d stack mode frame new w
    r.1 = .ok 0 ∧ r.2.modes = w.modes ++ [((S_IFREG ||| (forcedMode mode &&& 0xFFF)) &&& sb.fmask,
        decide (mode &&& S_IWUSR = 0))] ∧
      (perm r.2.far.server).bits = forcedMode mode &&& 0xFFF := by
  -- s_creat with the mode forced, s_stat, and a new inode with the answer
  obtain ⟨c, hc⟩ : ∃ c, shellCreate d.text (forcedMode mode).toUInt32 = some c :=
    ⟨_, by rw [shellCreate, onPath, checkPath_fits hpath hnul]; rfl⟩
  obtain ⟨k, hk⟩ := h.succeeds c w.far.server
  have hsend := World.send_fits (b := (shellCreate · (forcedMode mode).toUInt32)) sb.host.status hc
    w
  set w₁ : World τ := { w with far := ⟨(sb.host.status c w.far.server).2, w.far.cmds ++ [c]⟩ }
  have hbits : (perm w₁.far.server).bits = forcedMode mode &&& 0xFFF := h.creat _ c _ hc
  obtain ⟨fattr, hok, hmode, hinodes, hperm⟩ := shellStat_file h hpath hnul frame.fattr w₁
  rcases hstat : shellStat sb d.text frame.fattr w₁ with ⟨result, w₂⟩
  rw [hstat] at hok hinodes hperm
  obtain rfl : result = .ok fattr := hok
  have hinst : shfsInstantiate sb d frame new w₁ = (.ok w₂.inodes.length, { w₂ with
      inodes := w₂.inodes ++ [builtInode sb new.ino fattr] }) := by
    unfold shfsInstantiate
    rw [World.named_eq, getName_text hpath, hstat]
    simp only [World.ifOk, shfsIget, hnew, if_true]
    rfl
  intro r
  have hr : r = (.ok 0, if mode &&& S_IWUSR = 0 then
      ({ w₂ with inodes := w₂.inodes ++ [builtInode sb new.ino fattr] } : World τ).update
        w₂.inodes.length fun v => { v with unsetWriteOnClose := true }
      else { w₂ with inodes := w₂.inodes ++ [builtInode sb new.ino fattr] }) := by
    change shfsCreate sb d stack mode frame new w = _
    unfold shfsCreate
    rw [hro, World.named_eq, getName_text hpath]
    change World.ifOk (w.send sb.host.status (shellCreate · (forcedMode mode).toUInt32) d.text) _ =
      _
    rw [hsend, hk]
    change World.ifOk (shfsInstantiate sb d frame new w₁) _ = _
    rw [hinst]
    rfl
  have hlast : ∀ v : VInode, (w.inodes ++ [v]).modify w.inodes.length
      (fun v => { v with unsetWriteOnClose := true }) =
        w.inodes ++ [{ v with unsetWriteOnClose := true }] := by
    intro v
    simp [List.modify_eq_take_drop]
  have hnewMode : (builtInode sb new.ino fattr).stat.mode =
      (S_IFREG ||| (forcedMode mode &&& 0xFFF)) &&& sb.fmask := by
    rw [← hbits]
    exact hmode
  rw [hr]
  refine ⟨rfl, ?_, ?_⟩
  · by_cases hforced : mode &&& S_IWUSR = 0
    · rw [if_pos hforced, decide_eq_true hforced, World.modes, World.update, hinodes, hlast,
        List.map_append]
      exact congrArg (fun m => _ ++ [(m, true)]) hnewMode
    · rw [if_neg hforced, decide_eq_false hforced, World.modes, hinodes, List.map_append]
      exact congrArg (fun m => _ ++ [(m, false)]) hnewMode
  · have hserver : ∀ w₃ : World τ, w₃.far = w₂.far → (perm w₃.far.server).bits =
        forcedMode mode &&& 0xFFF := by
      intro w₃ hfar
      rw [hfar, hperm, hbits]
    by_cases hforced : mode &&& S_IWUSR = 0
    · rw [if_pos hforced]
      exact hserver _ rfl
    · rw [if_neg hforced]
      exact hserver _ rfl

omit h hpath hnul in
/-- **A create** that is not allowed, or gets no inode, fails. The file may have been made on the
server all the same. -/
theorem shfsCreate_failed {new : NewInode} (hno : ¬ (sb.info.readonly = false ∧ new.memory = true))
    (stack : Bytes) (mode : UInt16) (frame : Frame) (w : World τ) :
    ∃ e, (shfsCreate sb d stack mode frame new w).1 = .error e := by
  unfold shfsCreate
  cases hro : sb.info.readonly with
  | true => exact ⟨_, rfl⟩
  | false =>
    have hnew : new.memory = false := Bool.eq_false_iff.mpr fun hnew => hno ⟨hro, hnew⟩
    rw [World.named_eq]
    refine World.ifOk_fails fun _ w₁ => World.ifOk_failed ?_
    unfold shfsInstantiate
    rw [World.named_eq]
    refine World.ifOk_fails fun fattr w₂ => ?_
    rw [shfsIget, hnew]
    exact ⟨_, rfl⟩

omit hpath hnul in
/-- **An open** changes no mode, neither in the inode nor on the server, whether it succeeds or not.
-/
theorem shfsFileOpen_holding (i : ℕ) (stack : Bytes) (mode : AccMode) (mem : Memory) (w : World τ) :
    let r := shfsFileOpen sb ⟨d, i⟩ stack mode mem w
    r.2.modes = w.modes ∧ Holding perm (perm w.far.server) r.2.far := by
  have hsend : Holding perm (perm w.far.server)
      (w.send sb.host.status (shellOpen · mode) (getName d stack).2).2.far := by
    refine issue_holding rfl fun c hc => ?_
    have hask : ∀ name ∈ asking, name ≠ ascii "s_creat" ∧ name ≠ ascii "s_chmod" := by decide
    obtain ⟨hcreat, hchmod⟩ := hask _ (shellOpen_asking hc)
    exact h.others c _ hcreat hchmod
  unfold shfsFileOpen
  split
  · exact ⟨rfl, rfl⟩
  · dsimp only
    split
    · exact ⟨rfl, rfl⟩
    · refine World.ifOk_keeps (P := fun v => v.modes = w.modes ∧
        Holding perm (perm w.far.server) v.far) ⟨rfl, hsend⟩ fun r v hv => ?_
      dsimp only
      split
      · refine ⟨(v.modes_putSlot _ _).trans hv.1, ?_⟩
        rw [World.putSlot_far, fcacheFileOpen_remote]
        exact hv.2
      · exact hv

omit hpath hnul in
/-- What `shfs_file_release` does first changes no mode. -/
theorem closed_holding (i : ℕ) (stack : Bytes) (w : World τ) :
    (closed sb ⟨d, i⟩ stack w).modes = w.modes ∧
      Holding perm (perm w.far.server) (closed sb ⟨d, i⟩ stack w).far := by
  unfold closed
  split
  · have hclose : Holding perm (perm w.far.server) (fcacheFileClose sb.fops (w.file ⟨d, i⟩ stack)
        (w.slot i)).2.remote := fcacheFileClose_keeps (fops_holding h _) rfl
    rcases hr : fcacheFileClose sb.fops (w.file ⟨d, i⟩ stack) (w.slot i) with ⟨e | u, s⟩
    · rw [hr] at hclose
      exact ⟨w.modes_putSlot i s, hclose⟩
    · rw [hr] at hclose
      refine ⟨w.modes_putSlot i s, ?_⟩
      exact ((h.unlocks _).trans (h.locks _)).trans hclose
  · exact ⟨rfl, rfl⟩

/-- **A release** takes the permission to write off a file with the note, in the inode and on the
server, and leaves every other file as it is. The note stays, so the next release does it again. -/
theorem shfsFileRelease_done {i : ℕ} {m : UInt16} {note : Bool} (hm : w.modes[i]? = some (m, note))
    (cacheStack stack : Bytes) :
    let w' := shfsFileRelease sb ⟨d, i⟩ cacheStack stack w
    if note then w'.modes[i]? = some (m &&& ~~~S_IWUSR, true) ∧
        (perm w'.far.server).bits = m &&& ~~~S_IWUSR &&& 0xFFF
    else w'.modes[i]? = some (m, false) ∧ perm w'.far.server = perm w.far.server := by
  obtain ⟨hmodes, hfar⟩ := closed_holding h i cacheStack w
  change let w' := (closed sb ⟨d, i⟩ cacheStack w).unsetWrite sb ⟨d, i⟩ stack
    if note then w'.modes[i]? = some (m &&& ~~~S_IWUSR, true) ∧
        (perm w'.far.server).bits = m &&& ~~~S_IWUSR &&& 0xFFF
    else w'.modes[i]? = some (m, false) ∧ perm w'.far.server = perm w.far.server
  set w₁ := closed sb ⟨d, i⟩ cacheStack w with hw₁
  rw [← hmodes, World.modes, List.getElem?_map] at hm
  obtain ⟨v, hv, hmv⟩ := Option.map_eq_some_iff.mp hm
  obtain ⟨rfl, rfl⟩ := Prod.mk.inj hmv
  intro w'
  cases hnote : v.unsetWriteOnClose with
  | false =>
    -- nothing is noted, so the mode is left alone
    have hsame : w' = w₁ := by
      change w₁.unsetWrite sb ⟨d, i⟩ stack = w₁
      unfold World.unsetWrite
      rw [hv]
      dsimp only
      rw [hnote]
      rfl
    rw [hsame]
    refine ⟨?_, hfar⟩
    rw [World.modes, List.getElem?_map, hv, ← hnote]
    rfl
  | true =>
    -- the note brings an s_chmod, and the mode it asks for is stored
    obtain ⟨c, hc⟩ : ∃ c, shellChmod d.text (v.stat.mode &&& ~~~S_IWUSR) = some c :=
      ⟨_, by rw [shellChmod, onPath, checkPath_fits hpath hnul]; rfl⟩
    obtain ⟨k, hk⟩ := h.succeeds c w₁.far.server
    have hsend := World.send_fits (b := (shellChmod · (v.stat.mode &&& ~~~S_IWUSR)))
      sb.host.status hc w₁
    set w₂ : World τ := { w₁ with far := ⟨(sb.host.status c w₁.far.server).2, w₁.far.cmds ++ [c]⟩ }
    have hv₂ : w₂.inodes[i]? = some v := hv
    have hw' : w' = w₂.update i fun u =>
        { u with stat := { u.stat with mode := v.stat.mode &&& ~~~S_IWUSR } } := by
      change w₁.unsetWrite sb ⟨d, i⟩ stack = _
      unfold World.unsetWrite
      rw [hv]
      dsimp only
      rw [hnote, if_pos rfl, World.named_eq, getName_text hpath, hsend, hk]
      rfl
    rw [hw']
    refine ⟨?_, h.chmod _ c _ hc⟩
    rw [World.modes_update hv₂]
    exact congrArg (fun b => some (v.stat.mode &&& ~~~S_IWUSR, b)) hnote

/-- **A `chmod`** is refused, and nothing happens, or it is done on both sides: the server gets the
bits of the mode, and the inode the mode as it was asked for. -/
theorem setattr_chmodTo {i : ℕ} {m : UInt16} {note : Bool} (hm : w.modes[i]? = some (m, note))
    (verdicts : Verdicts) (stack : Bytes) (mode : UInt16) :
    let r := w.setattr sb verdicts ⟨d, i⟩ stack (chmodTo mode)
    (∃ e, r.1 = .error e) ∧ r.2.modes[i]? = some (m, note) ∧
        perm r.2.far.server = perm w.far.server ∨
      (∃ k, r.1 = .ok k) ∧ r.2.modes[i]? = some (mode, note) ∧
        (perm r.2.far.server).bits = mode &&& 0xFFF := by
  rw [World.modes, List.getElem?_map] at hm
  obtain ⟨v, hv, hmv⟩ := Option.map_eq_some_iff.mp hm
  obtain ⟨rfl, rfl⟩ := Prod.mk.inj hmv
  have hstay : (w.update i fun u => { u with stat := v.stat }).modes[i]? =
      some (v.stat.mode, v.unsetWriteOnClose) := World.modes_update hv _
  unfold World.setattr
  rw [hv]
  dsimp only
  rw [shfsNotifyChange_eq]
  cases hverdict : verdicts.change with
  | error e => exact .inl ⟨⟨e, rfl⟩, hstay, rfl⟩
  | ok u =>
    cases hro : sb.info.readonly with
    | true => exact .inl ⟨⟨_, rfl⟩, hstay, rfl⟩
    | false =>
      obtain ⟨c, hc⟩ : ∃ c, shellChmod d.text mode = some c :=
        ⟨_, by rw [shellChmod, onPath, checkPath_fits hpath hnul]; rfl⟩
      obtain ⟨k, hk⟩ := h.succeeds c w.far.server
      have hissue : (shellAops sb.host.toRemote).chmod d.text mode w.far = ⟨.ok k,
          (checkPath d.text).getD d.text, (sb.host.status c w.far.server).2,
          w.far.cmds ++ [c]⟩ := by
        change issue sb.host.status (shellChmod · mode) d.text w.far = _
        unfold issue
        dsimp only
        rw [hc, ← hk]
      have hrun : (chmodTo mode).asks.foldl
          (Change.step (shellAops sb.host.toRemote) sb.info verdicts (chmodTo mode))
          ⟨.ok 0, d.text, v.stat, w.far⟩ = ⟨.ok k, (checkPath d.text).getD d.text,
            { v.stat with mode := mode }, (sb.host.status c w.far.server).2,
            w.far.cmds ++ [c]⟩ := by
        change Change.step (shellAops sb.host.toRemote) sb.info verdicts (chmodTo mode)
          ⟨.ok 0, d.text, v.stat, w.far⟩ .chmod = _
        unfold Change.step
        dsimp only [AttrCmd.op, chmodTo]
        rw [hissue]
        rfl
      dsimp only
      rw [if_neg Bool.false_ne_true, getName_text hpath, hrun]
      exact .inr ⟨⟨k, rfl⟩, World.modes_update hv _, h.chmod mode c _ hc⟩

end Functions

/-! ## The life of a file -/

/-- What has been asked for: the permission bits, by a create or by a `chmod`. -/
structure ModeRequest : Type where
  bits : UInt16
  byCreate : Bool
  deriving DecidableEq, Repr

/-- One file: its inode, if its dentry has one, the number of open handles, and the last request
that was granted. -/
structure FileLife (τ : Type) : Type where
  world : World τ
  inode : Option ℕ
  handles : ℕ
  asked : Option ModeRequest
  /-- a handle has been closed since the create -/
  closed : Bool

/-- A call of one of the four functions that have to do with the mode of a file, with what the
kernel hands to it. -/
inductive FileCall : Type where
  | create (stack : Bytes) (mode : UInt16) (frame : Frame) (new : NewInode)
  | open (stack : Bytes) (mode : AccMode) (mem : Memory)
  | release (cacheStack stack : Bytes)
  | chmod (verdicts : Verdicts) (stack : Bytes) (mode : UInt16)

section Life

variable {τ : Type} (sb : SuperBlock τ) (d : Dentry)

/-- The calls, as they can be made: a create for a dentry without an inode, the others for one with
an inode, and a release of a handle that is open. -/
def FileLife.step (s : FileLife τ) : FileCall → FileLife τ
  | .create stack mode frame new =>
    match s.inode with
    | some _ => s
    | none =>
      match shfsCreate sb d stack mode frame new s.world with
      | (.error _, w) => { s with world := w }
      | (.ok _, w) =>
        ⟨w, some s.world.inodes.length, s.handles, some ⟨mode &&& 0xFFF, true⟩, false⟩
  | .open stack mode mem =>
    match s.inode with
    | none => s
    | some i =>
      match shfsFileOpen sb ⟨d, i⟩ stack mode mem s.world with
      | (.error _, w) => { s with world := w }
      | (.ok _, w) => { s with world := w, handles := s.handles + 1 }
  | .release cacheStack stack =>
    match s.inode with
    | none => s
    | some i =>
      if s.handles = 0 then s
      else
        { s with
          world := shfsFileRelease sb ⟨d, i⟩ cacheStack stack s.world
          handles := s.handles - 1
          closed := true }
  | .chmod verdicts stack mode =>
    match s.inode with
    | none => s
    | some i =>
      match s.world.setattr sb verdicts ⟨d, i⟩ stack (chmodTo mode) with
      | (.error _, w) => { s with world := w }
      | (.ok _, w) => { s with world := w, asked := some ⟨mode &&& 0xFFF, false⟩ }

variable (perm : τ → Perm)

/-- When no handle is open, the file has the permissions that were asked for last. While one is open
it may be writable for its sake. -/
def FileLife.Persists (s : FileLife τ) : Prop :=
  s.handles = 0 → ∀ q ∈ s.asked, (perm s.world.far.server).bits = q.bits

/-- The same, but for the time between a create and what comes next, a `chmod` or the end of a
handle. -/
def FileLife.PersistsOnceClosed (s : FileLife τ) : Prop :=
  s.handles = 0 → ∀ q ∈ s.asked, (q.byCreate = true → s.closed = true) →
    (perm s.world.far.server).bits = q.bits

/-- No handle is open and nothing has been asked for. The file may be there already, without the
note. -/
structure FileLife.Start (s : FileLife τ) : Prop where
  handles : s.handles = 0
  asked : s.asked = none
  inode : ∀ i ∈ s.inode, ∃ m, s.world.modes[i]? = some (m, false)

/-- A create that is done asks for `S_IWUSR`. Otherwise `shfs_create` forces it, and leaves the note
that each release acts on. -/
def FileLife.AsksWrite (s : FileLife τ) : FileCall → Prop
  | .create _ mode _ new =>
    s.inode = none → sb.info.readonly = false → new.memory = true → mode &&& S_IWUSR ≠ 0
  | _ => True

/-- A release leaves what was asked for: the bits of a create that are in the mask, and the bits of
a `chmod` but for `S_IWUSR`. -/
def ModeRequest.Left (fmask : UInt16) (q : ModeRequest) : Prop :=
  if q.byCreate then q.bits &&& ~~~fmask = 0 else q.bits &&& S_IWUSR = 0

/-- The release of the last handle of a file with the note leaves what was asked for. -/
def FileLife.LastCloseLeaves (s : FileLife τ) : FileCall → Prop
  | .release .. => s.handles = 1 → ∀ i ∈ s.inode, ∀ m, s.world.modes[i]? = some (m, true) →
    ∀ q ∈ s.asked, q.Left sb.fmask
  | _ => True

end Life

/-! ## What counts of it -/

/-- The mode and the note of the inode, and the permission bits on the server. -/
structure ModeView : Type where
  entry : Option (UInt16 × Bool)
  handles : ℕ
  asked : Option ModeRequest
  closed : Bool
  bits : UInt16

/-- The calls, where they are granted. -/
inductive ModeEvent : Type where
  | create (mode : UInt16)
  | open
  | release
  | chmod (mode : UInt16)

/-- What a granted call does. -/
def ModeView.step (fmask : UInt16) (v : ModeView) : ModeEvent → ModeView
  | .create mode =>
    ⟨some ((S_IFREG ||| (forcedMode mode &&& 0xFFF)) &&& fmask, decide (mode &&& S_IWUSR = 0)),
      v.handles, some ⟨mode &&& 0xFFF, true⟩, false, forcedMode mode &&& 0xFFF⟩
  | .open => { v with handles := v.handles + 1 }
  | .release =>
    let v := { v with handles := v.handles - 1, closed := true }
    match v.entry with
    | some (m, true) =>
      { v with entry := some (m &&& ~~~S_IWUSR, true), bits := m &&& ~~~S_IWUSR &&& 0xFFF }
    | _ => v
  | .chmod mode =>
    { v with
      entry := v.entry.map fun e => (mode, e.2)
      bits := mode &&& 0xFFF
      asked := some ⟨mode &&& 0xFFF, false⟩ }

/-! ### Bits -/

theorem mask_eq_self_iff {x f : UInt16} : x &&& f = x ↔ x &&& ~~~f = 0 := by
  constructor
  · intro h
    rw [← h, UInt16.and_assoc, UInt16.and_not_self, UInt16.and_zero]
  · intro h
    have hsplit : x &&& f ||| x &&& ~~~f = x := by
      apply UInt16.eq_of_toBitVec_eq
      ext i hi
      simp
      grind
    rwa [h, UInt16.or_zero] at hsplit

theorem mask_regroup (r m p f w : UInt16) :
    (r ||| (m &&& p)) &&& f &&& w &&& p = ((r &&& p) &&& w ||| (m &&& w) &&& p) &&& f := by
  apply UInt16.eq_of_toBitVec_eq
  ext i hi
  simp
  grind

theorem noWrite_of_off {mode : UInt16} (hoff : mode &&& S_IWUSR = 0) : mode &&& ~~~S_IWUSR = mode :=
  mask_eq_self_iff.mpr hoff

theorem forcedMode_noWrite {mode : UInt16} (hoff : mode &&& S_IWUSR = 0) :
    forcedMode mode &&& ~~~S_IWUSR = mode := by
  rw [forcedMode, if_pos hoff, or_and_right, noWrite_of_off hoff, UInt16.and_not_self,
    UInt16.or_zero]

/-- The mode that a release sends for a file that was created without `S_IWUSR`. -/
theorem created_noWrite {mode : UInt16} (hoff : mode &&& S_IWUSR = 0) (fmask : UInt16) :
    (S_IFREG ||| (forcedMode mode &&& 0xFFF)) &&& fmask &&& ~~~S_IWUSR &&& 0xFFF =
      mode &&& 0xFFF &&& fmask := by
  have hreg : S_IFREG &&& 0xFFF = 0 := rfl
  rw [mask_regroup, hreg, UInt16.zero_and, UInt16.zero_or, forcedMode_noWrite hoff]

/-- The bit that is forced on is one that was not asked for. -/
theorem forcedMode_ne {mode : UInt16} (hoff : mode &&& S_IWUSR = 0) :
    forcedMode mode &&& 0xFFF ≠ mode &&& 0xFFF := by
  intro h
  have hbit := congrArg (· &&& S_IWUSR) h
  rw [mask_right_comm, mask_right_comm mode, hoff, forcedMode, if_pos hoff, or_and_right,
    hoff] at hbit
  exact absurd hbit (by decide)

/-- What a release leaves of a request. -/
def ModeRequest.left (fmask : UInt16) (q : ModeRequest) : UInt16 :=
  if q.byCreate then q.bits &&& fmask else q.bits &&& ~~~S_IWUSR

theorem ModeRequest.left_eq_iff {fmask : UInt16} {q : ModeRequest} :
    q.left fmask = q.bits ↔ q.Left fmask := by
  unfold left Left
  split
  · exact mask_eq_self_iff
  · exact mask_eq_self_iff

/-! ### What always holds -/

/-- A file without the note has the permissions that were asked for last. With the note, a release
will leave of them what it leaves of the last request. -/
def ModeView.Told (fmask : UInt16) (v : ModeView) : Prop :=
  match v.entry with
  | none => v.handles = 0 ∧ v.asked = none
  | some (_, false) => ∀ q ∈ v.asked, v.bits = q.bits
  | some (m, true) => ∃ q, v.asked = some q ∧ m &&& ~~~S_IWUSR &&& 0xFFF = q.left fmask

/-- `FileLife.PersistsOnceClosed` -/
def ModeView.PersistsOnceClosed (v : ModeView) : Prop :=
  v.handles = 0 → ∀ q ∈ v.asked, (q.byCreate = true → v.closed = true) → v.bits = q.bits

section Told

variable {fmask : UInt16} {v : ModeView}

theorem ModeView.told_create (fmask : UInt16) (v : ModeView) (mode : UInt16) :
    (v.step fmask (.create mode)).Told fmask := by
  unfold Told step
  dsimp only
  by_cases hoff : mode &&& S_IWUSR = 0
  · rw [decide_eq_true hoff]
    exact ⟨_, rfl, created_noWrite hoff fmask⟩
  · rw [decide_eq_false hoff]
    rintro _ ⟨⟩
    rw [forcedMode, if_neg hoff]

theorem ModeView.told_open (h : v.Told fmask) (hentry : v.entry ≠ none) :
    (v.step fmask .open).Told fmask := by
  unfold Told step at *
  dsimp only
  split at h
  · next hnone => exact absurd hnone hentry
  · exact h
  · exact h

theorem ModeView.told_release (h : v.Told fmask) (hentry : v.entry ≠ none) :
    (v.step fmask .release).Told fmask := by
  obtain ⟨entry, handles, asked, closed, bits⟩ := v
  match entry with
  | none => exact absurd rfl hentry
  | some (m, false) => exact h
  | some (m, true) =>
    obtain ⟨q, hq, hleft⟩ := h
    refine ⟨q, hq, ?_⟩
    rw [UInt16.and_assoc m, UInt16.and_self]
    exact hleft

theorem ModeView.told_chmod (h : v.Told fmask) (hentry : v.entry ≠ none) (mode : UInt16) :
    (v.step fmask (.chmod mode)).Told fmask := by
  obtain ⟨entry, handles, asked, closed, bits⟩ := v
  match entry with
  | none => exact absurd rfl hentry
  | some (m, false) =>
    rintro _ ⟨⟩
    rfl
  | some (m, true) => exact ⟨_, rfl, mask_right_comm ..⟩

/-- The inode has no note. -/
def ModeView.Unnoted (v : ModeView) : Prop := ∀ e ∈ v.entry, e.2 = false

theorem ModeView.Unnoted.release (h : v.Unnoted) : (v.step fmask .release).Unnoted := by
  obtain ⟨entry, handles, asked, closed, bits⟩ := v
  match entry with
  | none | some (m, false) => exact h
  | some (m, true) => exact absurd (h _ rfl) nofun

theorem ModeView.Unnoted.chmod (h : v.Unnoted) (mode : UInt16) :
    (v.step fmask (.chmod mode)).Unnoted := by
  intro e he
  obtain ⟨e', he', rfl⟩ := Option.map_eq_some_iff.mp he
  exact h e' he'

/-- A release of the last handle leaves the permissions that were asked for, if it leaves those of
the last request. -/
theorem ModeView.persists_release (h : v.Told fmask)
    (hleft : v.handles = 1 → ∀ m, v.entry = some (m, true) → ∀ q ∈ v.asked, q.Left fmask)
    (hopen : v.handles ≠ 0) : (v.step fmask .release).PersistsOnceClosed := by
  obtain ⟨entry, handles, asked, closed, bits⟩ := v
  match entry with
  | none => exact absurd h.1 hopen
  | some (m, false) =>
    intro _ q hq _
    exact h q hq
  | some (m, true) =>
    obtain ⟨q, hq, hkept⟩ := h
    intro hlast q' hq' _
    obtain rfl : q = q' := Option.some.inj (hq.symm.trans hq')
    have hone : handles = 1 := by
      have hlast' : handles - 1 = 0 := hlast
      have hopen' : handles ≠ 0 := hopen
      omega
    exact hkept.trans (ModeRequest.left_eq_iff.mpr (hleft hone m rfl q hq))

/-- And only then. -/
theorem ModeView.left_of_persists (h : v.Told fmask)
    (hpersists : (v.step fmask .release).PersistsOnceClosed) (hone : v.handles = 1) {m : UInt16}
    (hm : v.entry = some (m, true)) {q : ModeRequest} (hq : q ∈ v.asked) : q.Left fmask := by
  obtain ⟨entry, handles, asked, closed, bits⟩ := v
  obtain rfl : entry = some (m, true) := hm
  obtain rfl : handles = 1 := hone
  obtain ⟨q', hq', hkept⟩ := h
  obtain rfl : q' = q := Option.some.inj (hq'.symm.trans hq)
  exact ModeRequest.left_eq_iff.mp (hkept.symm.trans (hpersists rfl q' hq' fun _ => rfl))

end Told

namespace FileLife

variable {τ : Type} {sb : SuperBlock τ} {d : Dentry} {perm : τ → Perm} {s : FileLife τ}

variable (perm) in
/-- The view of a file. -/
def view (s : FileLife τ) : ModeView :=
  ⟨s.inode.bind (s.world.modes[·]?), s.handles, s.asked, s.closed, (perm s.world.far.server).bits⟩

/-- The inode is in the table. -/
def Placed (s : FileLife τ) : Prop := ∀ i ∈ s.inode, ∃ e, s.world.modes[i]? = some e

section Steps

variable (h : SetsModes sb.host d.text perm) (hpath : Fits d.text) (hnul : (0 : Byte) ∉ d.text)
include h hpath hnul

/-- **A create**, for a dentry without an inode: it is granted, and the file gets the mode with
`S_IWUSR`, or it is refused and there is still no inode. -/
theorem step_create (hnone : s.inode = none) (stack : Bytes) (mode : UInt16) (frame : Frame)
    (new : NewInode) :
    let s' := s.step sb d (.create stack mode frame new)
    if sb.info.readonly = false ∧ new.memory = true then
      s'.Placed ∧ s'.view perm = (s.view perm).step sb.fmask (.create mode)
    else s'.inode = none ∧ ∃ b, s'.view perm = { s.view perm with bits := b } := by
  unfold step
  rw [hnone]
  dsimp only
  split
  · next hdone =>
    obtain ⟨hok, hmodes, hbits⟩ :=
      shfsCreate_done h hpath hnul hdone.1 hdone.2 stack mode frame s.world
    rcases hr : shfsCreate sb d stack mode frame new s.world with ⟨result, w⟩
    rw [hr] at hok hmodes hbits
    obtain rfl : result = .ok 0 := hok
    have hentry : w.modes[s.world.inodes.length]? =
        some ((S_IFREG ||| (forcedMode mode &&& 0xFFF)) &&& sb.fmask,
          decide (mode &&& S_IWUSR = 0)) := by
      rw [show w.modes = _ from hmodes]
      have hlen : s.world.inodes.length = s.world.modes.length := (List.length_map ..).symm
      rw [hlen, List.getElem?_concat_length]
    refine ⟨?_, ?_⟩
    · rintro _ ⟨⟩
      exact ⟨_, hentry⟩
    · simp only [view, ModeView.step, Option.bind_some, hentry]
      exact congrArg _ hbits
  · next hno =>
    obtain ⟨e, he⟩ := shfsCreate_failed (d := d) hno stack mode frame s.world
    rcases hr : shfsCreate sb d stack mode frame new s.world with ⟨result, w⟩
    rw [hr] at he
    obtain rfl : result = .error e := he
    refine ⟨rfl, (perm w.far.server).bits, ?_⟩
    simp only [view, hnone]
    rfl

omit hpath hnul in
/-- **An open**, of a file with an inode, changes neither mode nor note. There may be a handle more.
-/
theorem step_open {i : ℕ} (hi : s.inode = some i) (hs : s.Placed) (stack : Bytes) (mode : AccMode)
    (mem : Memory) :
    let s' := s.step sb d (.open stack mode mem)
    s'.Placed ∧ (s'.view perm = s.view perm ∨
      s'.view perm = (s.view perm).step sb.fmask .open) := by
  obtain ⟨hmodes, hperm⟩ := shfsFileOpen_holding h i stack mode mem s.world
  obtain ⟨e, he⟩ := hs i hi
  unfold step
  rw [hi]
  dsimp only
  rcases hr : shfsFileOpen sb ⟨d, i⟩ stack mode mem s.world with ⟨result, w⟩
  rw [hr] at hmodes hperm
  have hentry : w.modes[i]? = s.world.modes[i]? := congrArg (·[i]?) hmodes
  have hplaced : ∀ j ∈ some i, ∃ e, w.modes[j]? = some e := by
    rintro _ ⟨⟩
    exact ⟨e, hentry.trans he⟩
  have hbits : (perm w.far.server).bits = (perm s.world.far.server).bits := congrArg Perm.bits hperm
  cases result with
  | error e =>
    refine ⟨hplaced, .inl ?_⟩
    simp only [view, hi, Option.bind_some, hentry, hbits]
  | ok k =>
    refine ⟨hplaced, .inr ?_⟩
    simp only [view, ModeView.step, hi, Option.bind_some, hentry, hbits]

/-- **A release** of a handle that is open: there is a handle less, and a file with the note cannot
be written from then on. -/
theorem step_release {i : ℕ} (hi : s.inode = some i) (hs : s.Placed) (hopen : s.handles ≠ 0)
    (cacheStack stack : Bytes) :
    let s' := s.step sb d (.release cacheStack stack)
    s'.Placed ∧ s'.view perm = (s.view perm).step sb.fmask .release := by
  obtain ⟨⟨m, note⟩, hm⟩ := hs i hi
  have hdone := shfsFileRelease_done h hpath hnul hm cacheStack stack
  unfold step
  rw [hi]
  dsimp only at hdone ⊢
  rw [if_neg hopen]
  cases note with
  | false =>
    obtain ⟨hentry, hperm⟩ := hdone
    refine ⟨?_, ?_⟩
    · rintro _ ⟨⟩
      exact ⟨_, hentry⟩
    · simp only [view, ModeView.step, hi, Option.bind_some, hentry, hm, hperm]
  | true =>
    obtain ⟨hentry, hbits⟩ := hdone
    refine ⟨?_, ?_⟩
    · rintro _ ⟨⟩
      exact ⟨_, hentry⟩
    · simp only [view, ModeView.step, hi, Option.bind_some, hentry, hm, hbits]

/-- **A `chmod`**, of a file with an inode: it is refused, or it sets the mode on both sides and
leaves the note as it is. -/
theorem step_chmod {i : ℕ} (hi : s.inode = some i) (hs : s.Placed) (verdicts : Verdicts)
    (stack : Bytes) (mode : UInt16) :
    let s' := s.step sb d (.chmod verdicts stack mode)
    s'.Placed ∧ (s'.view perm = s.view perm ∨
      s'.view perm = (s.view perm).step sb.fmask (.chmod mode)) := by
  obtain ⟨⟨m, note⟩, hm⟩ := hs i hi
  have hdone := setattr_chmodTo h hpath hnul hm verdicts stack mode
  unfold step
  rw [hi]
  dsimp only at hdone ⊢
  rcases hr : s.world.setattr sb verdicts ⟨d, i⟩ stack (chmodTo mode) with ⟨result, w⟩
  rw [hr] at hdone
  obtain ⟨⟨e, rfl⟩, hentry, hperm⟩ | ⟨⟨k, rfl⟩, hentry, hbits⟩ := hdone
  · refine ⟨?_, .inl ?_⟩
    · rintro _ ⟨⟩
      exact ⟨_, hentry⟩
    · simp only [view, hi, Option.bind_some, hentry, hm, hperm]
  · refine ⟨?_, .inr ?_⟩
    · rintro _ ⟨⟩
      exact ⟨_, hentry⟩
    · simp only [view, ModeView.step, hi, Option.bind_some, hentry, hm, hbits, Option.map_some]

end Steps

variable (sb) in
/-- A call that takes effect, or may take effect. -/
inductive Grants (s : FileLife τ) : FileCall → ModeEvent → Prop where
  | create (stack : Bytes) (mode : UInt16) (frame : Frame) (new : NewInode) (hnone : s.inode = none)
      (hdone : sb.info.readonly = false ∧ new.memory = true) :
      Grants s (.create stack mode frame new) (.create mode)
  | open {i : ℕ} (hi : s.inode = some i) (stack : Bytes) (mode : AccMode) (mem : Memory) :
      Grants s (.open stack mode mem) .open
  | release {i : ℕ} (hi : s.inode = some i) (cacheStack stack : Bytes) (hopen : s.handles ≠ 0) :
      Grants s (.release cacheStack stack) .release
  | chmod {i : ℕ} (hi : s.inode = some i) (verdicts : Verdicts) (stack : Bytes) (mode : UInt16) :
      Grants s (.chmod verdicts stack mode) (.chmod mode)

variable (sb perm) in
/-- What a call does to the view: nothing, or its event. A create that fails can still have reached
the server. -/
inductive Moves (s : FileLife τ) (call : FileCall) (s' : FileLife τ) : Prop where
  | stays (hview : s'.view perm = s.view perm)
  | failed (hnone : s.inode = none) (b : UInt16)
      (hview : s'.view perm = { s.view perm with bits := b })
  | takes (e : ModeEvent) (hgrants : Grants sb s call e)
      (hview : s'.view perm = (s.view perm).step sb.fmask e)

/-- **What a call does**: it leaves the modes and the notes as they were, or it is granted and does
to them what `ModeView.step` says. The case split over the four functions is made here once. -/
theorem step_moves (h : SetsModes sb.host d.text perm) (hpath : Fits d.text)
    (hnul : (0 : Byte) ∉ d.text) (hs : s.Placed) (call : FileCall) :
    (s.step sb d call).Placed ∧ Moves sb perm s call (s.step sb d call) := by
  -- a call that does not apply to the file changes nothing
  have hsame : s.step sb d call = s →
      (s.step sb d call).Placed ∧ Moves sb perm s call (s.step sb d call) := by
    intro heq
    rw [heq]
    exact ⟨hs, .stays rfl⟩
  cases hi : s.inode with
  | none =>
    cases call with
    | create stack mode frame new =>
      have hcreate := step_create h hpath hnul hi stack mode frame new
      by_cases hdone : sb.info.readonly = false ∧ new.memory = true
      · rw [if_pos hdone] at hcreate
        exact ⟨hcreate.1, .takes _ (.create stack mode frame new hi hdone) hcreate.2⟩
      · rw [if_neg hdone] at hcreate
        obtain ⟨hnone, b, hb⟩ := hcreate
        refine ⟨fun j hj => ?_, .failed hi b hb⟩
        rw [hnone] at hj
        cases hj
    | «open» | release | chmod =>
      refine hsame ?_
      unfold step
      rw [hi]
  | some i =>
    cases call with
    | create stack mode frame new =>
      refine hsame ?_
      unfold step
      rw [hi]
    | «open» stack mode mem =>
      obtain ⟨hplaced, hview⟩ := step_open h hi hs stack mode mem
      refine ⟨hplaced, ?_⟩
      obtain hview | hview := hview
      · exact .stays hview
      · exact .takes _ (.open hi stack mode mem) hview
    | release cacheStack stack =>
      by_cases hopen : s.handles = 0
      · refine hsame ?_
        unfold step
        rw [hi]
        exact if_pos hopen
      · obtain ⟨hplaced, hview⟩ := step_release h hpath hnul hi hs hopen cacheStack stack
        exact ⟨hplaced, .takes _ (.release hi cacheStack stack hopen) hview⟩
    | chmod verdicts stack mode =>
      obtain ⟨hplaced, hview⟩ := step_chmod h hpath hnul hi hs verdicts stack mode
      refine ⟨hplaced, ?_⟩
      obtain hview | hview := hview
      · exact .stays hview
      · exact .takes _ (.chmod hi verdicts stack mode) hview

theorem view_entry {i : ℕ} (hi : s.inode = some i) : (s.view perm).entry = s.world.modes[i]? := by
  rw [view, hi]
  rfl

theorem view_entry_none (hnone : s.inode = none) : (s.view perm).entry = none := by
  rw [view, hnone]
  rfl

theorem view_entry_ne {i : ℕ} (hi : s.inode = some i) (hs : s.Placed) :
    (s.view perm).entry ≠ none := by
  obtain ⟨e, he⟩ := hs i hi
  rw [view_entry hi, he]
  exact nofun

variable (sb perm) in
/-- The inode is in the table, and the file is as it is told. -/
structure Sound (s : FileLife τ) : Prop where
  placed : s.Placed
  told : (s.view perm).Told sb.fmask

/-- Without an inode, no handle is open and nothing has been asked for. -/
theorem Sound.absent (hs : s.Sound sb perm) (hnone : s.inode = none) :
    s.handles = 0 ∧ s.asked = none := by
  have htold := hs.told
  unfold ModeView.Told at htold
  rw [view_entry_none hnone] at htold
  exact htold

theorem Moves.told {s' : FileLife τ} {call : FileCall} (hmoves : Moves sb perm s call s')
    (hs : s.Sound sb perm) : (s'.view perm).Told sb.fmask := by
  cases hmoves with
  | stays hview => exact hview ▸ hs.told
  | failed hnone b hview =>
    have hbefore : (s.view perm).entry = none := view_entry_none hnone
    have hentry : (s'.view perm).entry = none := by
      rw [hview]
      exact hbefore
    have habsent := hs.absent hnone
    unfold ModeView.Told
    rw [hentry, hview]
    exact habsent
  | takes e hgrants hview =>
    rw [hview]
    cases hgrants with
    | create => exact ModeView.told_create ..
    | «open» hi => exact ModeView.told_open hs.told (view_entry_ne hi hs.placed)
    | release hi => exact ModeView.told_release hs.told (view_entry_ne hi hs.placed)
    | chmod hi => exact ModeView.told_chmod hs.told (view_entry_ne hi hs.placed) _

end FileLife

/-! ## Which requests persist -/

section Persist

variable {τ : Type} {sb : SuperBlock τ} {d : Dentry} {perm : τ → Perm} {s : FileLife τ}

namespace FileLife

theorem Start.sound (hs : s.Start) : s.Sound sb perm := by
  refine ⟨?_, ?_⟩
  · intro i hi
    obtain ⟨m, hm⟩ := hs.inode i hi
    exact ⟨_, hm⟩
  · unfold ModeView.Told
    cases hi : s.inode with
    | none =>
      rw [view_entry_none hi]
      exact ⟨hs.handles, hs.asked⟩
    | some i =>
      obtain ⟨m, hm⟩ := hs.inode i hi
      rw [view_entry hi, hm]
      intro q hq
      rw [show (s.view perm).asked = none from hs.asked] at hq
      cases hq

theorem Sound.persists (hs : s.Sound sb perm) (hnote : (s.view perm).Unnoted) :
    s.Persists perm := by
  intro _ q hq
  have htold := hs.told
  unfold ModeView.Told at htold
  split at htold
  · rw [show s.asked = none from htold.2] at hq
    cases hq
  · exact htold q hq
  · next hentry => exact absurd (hnote _ hentry) nofun

theorem Moves.unnoted {s' : FileLife τ} {call : FileCall} (hmoves : Moves sb perm s call s')
    (hasks : s.AsksWrite sb call) (hnote : (s.view perm).Unnoted) : (s'.view perm).Unnoted := by
  cases hmoves with
  | stays hview => exact hview ▸ hnote
  | failed _ b hview => exact hview ▸ hnote
  | takes e hgrants hview =>
    rw [hview]
    cases hgrants with
    | create stack mode frame new hnone hdone =>
      rintro _ ⟨⟩
      exact decide_eq_false (hasks hnone hdone.1 hdone.2)
    | «open» => exact hnote
    | release => exact hnote.release
    | chmod => exact hnote.chmod _

/-- **All requests persist** exactly if no create asks for a file that cannot be written. -/
theorem persists_iff (h : SetsModes sb.host d.text perm) (hpath : Fits d.text)
    (hnul : (0 : Byte) ∉ d.text) (hs : s.Start) (calls : List FileCall) :
    (∀ before, before <+: calls → (run (FileLife.step sb d) s before).Persists perm) ↔
      Along (FileLife.step sb d) (fun s call => s.AsksWrite sb call) s calls := by
  refine forall_prefix_iff_along (fun s => s.Sound sb perm ∧ (s.view perm).Unnoted) ?_ ?_ ?_ ?_
  · exact fun s hs => hs.1.persists hs.2
  · rintro s call ⟨hsound, hnote⟩ hasks
    obtain ⟨hplaced, hmoves⟩ := step_moves h hpath hnul hsound.placed call
    exact ⟨⟨hplaced, hmoves.told hsound⟩, hmoves.unnoted hasks hnote⟩
  · rintro s call ⟨hsound, hnote⟩ hpersists
    cases call with
    | «open» | release | chmod => trivial
    | create stack mode frame new =>
      intro hnone hro hnew hoff
      have hcreate := step_create h hpath hnul hnone stack mode frame new
      rw [if_pos ⟨hro, hnew⟩] at hcreate
      obtain ⟨-, hview⟩ := hcreate
      have hhandles : (s.step sb d (.create stack mode frame new)).handles = 0 :=
        (congrArg ModeView.handles hview).trans (hsound.absent hnone).1
      have hasked : (s.step sb d (.create stack mode frame new)).asked =
          some ⟨mode &&& 0xFFF, true⟩ := congrArg ModeView.asked hview
      have hbits := congrArg ModeView.bits hview
      exact forcedMode_ne hoff (hbits.symm.trans (hpersists hhandles _ hasked))
  · refine ⟨hs.sound, ?_⟩
    intro e he
    cases hi : s.inode with
    | none =>
      rw [view_entry_none hi] at he
      cases he
    | some i =>
      obtain ⟨m, hm⟩ := hs.inode i hi
      rw [view_entry hi, hm] at he
      obtain rfl := Option.some.inj he
      rfl

theorem Moves.persistsOnceClosed {s' : FileLife τ} {call : FileCall}
    (hmoves : Moves sb perm s call s') (hs : s.Sound sb perm) (hleaves : s.LastCloseLeaves sb call)
    (hold : (s.view perm).PersistsOnceClosed) : (s'.view perm).PersistsOnceClosed := by
  cases hmoves with
  | stays hview => exact hview ▸ hold
  | failed hnone b hview =>
    intro _ q hq _
    have hq' : q ∈ s.asked := by
      rw [hview] at hq
      exact hq
    rw [(hs.absent hnone).2] at hq'
    cases hq'
  | takes e hgrants hview =>
    rw [hview]
    cases hgrants with
    | create =>
      rintro _ _ ⟨⟩ hclosed
      exact absurd (hclosed rfl) nofun
    | «open» => exact fun hzero => absurd hzero (Nat.succ_ne_zero _)
    | release hi cacheStack stack hopen =>
      refine ModeView.persists_release hs.told ?_ hopen
      intro hone m hm q hq
      rw [view_entry hi] at hm
      exact hleaves hone _ hi m hm q hq
    | chmod =>
      rintro _ _ ⟨⟩ _
      rfl

/-- **Requests persist beyond the close** of the last handle exactly if that leaves the last
request. -/
theorem persistsOnceClosed_iff (h : SetsModes sb.host d.text perm) (hpath : Fits d.text)
    (hnul : (0 : Byte) ∉ d.text) (hs : s.Start) (calls : List FileCall) :
    (∀ before, before <+: calls → (run (FileLife.step sb d) s before).PersistsOnceClosed perm) ↔
      Along (FileLife.step sb d) (fun s call => s.LastCloseLeaves sb call) s calls := by
  refine forall_prefix_iff_along (fun s => s.Sound sb perm ∧ (s.view perm).PersistsOnceClosed)
    ?_ ?_ ?_ ?_
  · exact fun s hs => hs.2
  · rintro s call ⟨hsound, hold⟩ hleaves
    obtain ⟨hplaced, hmoves⟩ := step_moves h hpath hnul hsound.placed call
    exact ⟨⟨hplaced, hmoves.told hsound⟩, hmoves.persistsOnceClosed hsound hleaves hold⟩
  · rintro s call ⟨hsound, hold⟩ hpersists
    cases call with
    | «open» | create | chmod => trivial
    | release cacheStack stack =>
      intro hone i hi m hm q hq
      obtain ⟨-, hview⟩ := step_release h hpath hnul hi hsound.placed (by omega) cacheStack stack
      have hview' : ((s.view perm).step sb.fmask .release).PersistsOnceClosed := hview ▸ hpersists
      exact ModeView.left_of_persists hsound.told hview' hone ((view_entry hi).trans hm) hq
  · refine ⟨hs.sound, ?_⟩
    intro _ q hq
    rw [show (s.view perm).asked = none from hs.asked] at hq
    cases hq

end FileLife

/-- **Permissions that were asked for persist**, in every state without an open handle, exactly if
every create that is done asks for `S_IWUSR`. But for the time from a create to the first `chmod` or
close, they do exactly if every close of the last handle leaves the last request. -/
theorem requests_persist_iff (h : SetsModes sb.host d.text perm) (hpath : Fits d.text)
    (hnul : (0 : Byte) ∉ d.text) (hs : s.Start) (calls : List FileCall) :
    ((∀ before, before <+: calls → (run (FileLife.step sb d) s before).Persists perm) ↔
      Along (FileLife.step sb d) (fun s call => s.AsksWrite sb call) s calls) ∧
    ((∀ before, before <+: calls → (run (FileLife.step sb d) s before).PersistsOnceClosed perm) ↔
      Along (FileLife.step sb d) (fun s call => s.LastCloseLeaves sb call) s calls) :=
  ⟨FileLife.persists_iff h hpath hnul hs calls,
    FileLife.persistsOnceClosed_iff h hpath hnul hs calls⟩

end Persist

/-! ### A server with one file -/

/-- The value of an octal numeral. -/
def octVal (bs : Bytes) : ℕ := Nat.ofDigits 8 (bs.reverse.map fun b => b.toNat - 48)

theorem octVal_oct (n : ℕ) : octVal (oct n) = n := by
  unfold octVal oct numeral
  split
  · next h => rw [h]; rfl
  · rw [← List.map_reverse, List.reverse_reverse, List.map_map]
    have hdigits : (Nat.digits 8 n).map ((fun b : Byte => b.toNat - 48) ∘ digit) =
        Nat.digits 8 n := by
      refine (List.map_congr_left fun d hd => ?_).trans (List.map_id _)
      have hlt : d < 8 := Nat.digits_lt_base (by omega) hd
      change (digit d).toNat - 48 = d
      rw [toNat_digit (by omega)]
      omega
    rw [hdigits, Nat.ofDigits_digits]

/-- The permissions with these bits. -/
def Perm.ofBits (m : UInt16) : Perm :=
  ⟨⟨m &&& 0x100 ≠ 0, m &&& 0x80 ≠ 0, m &&& 0x40 ≠ 0, m &&& 0x800 ≠ 0⟩,
    ⟨m &&& 0x20 ≠ 0, m &&& 0x10 ≠ 0, m &&& 0x8 ≠ 0, m &&& 0x400 ≠ 0⟩,
    ⟨m &&& 0x4 ≠ 0, m &&& 0x2 ≠ 0, m &&& 0x1 ≠ 0, m &&& 0x200 ≠ 0⟩⟩

theorem mask_bit (m : UInt16) {b : UInt16} {k : ℕ} (hb : b.toNat = 2 ^ k) :
    (if m &&& b ≠ 0 then b else 0) = m &&& b := by
  split
  · next h =>
    have hbit : m.toNat &&& 2 ^ k ≠ 0 := by
      intro h0
      refine h (UInt16.toNat_inj.mp ?_)
      rw [UInt16.toNat_and, hb, h0]
      rfl
    rw [Nat.and_two_pow] at hbit
    apply UInt16.toNat_inj.mp
    rw [UInt16.toNat_and, hb, Nat.and_two_pow]
    cases hm : m.toNat.testBit k with
    | false => simp [hm] at hbit
    | true => simp
  · next h => exact (not_not.mp h).symm

theorem mask_or_left (m a b : UInt16) : m &&& a ||| m &&& b = m &&& (a ||| b) := by
  rw [UInt16.and_comm m, UInt16.and_comm m, ← or_and_right, UInt16.and_comm]

theorem Rwx.bits_masked (m r w unit special : UInt16) {i j k l : ℕ}
    (hr : r.toNat = 2 ^ i) (hw : w.toNat = 2 ^ j) (hu : unit.toNat = 2 ^ k)
    (hs : special.toNat = 2 ^ l) (hr4 : 4 * unit = r) (hw2 : 2 * unit = w) :
    (Rwx.mk (m &&& r ≠ 0) (m &&& w ≠ 0) (m &&& unit ≠ 0) (m &&& special ≠ 0)).bits unit special =
      m &&& (r ||| w ||| unit ||| special) := by
  unfold bits
  simp only [hr4, hw2, decide_eq_true_eq]
  rw [mask_bit m hr, mask_bit m hw, mask_bit m hu, mask_bit m hs, mask_or_left, mask_or_left,
    mask_or_left]

theorem Perm.bits_ofBits (m : UInt16) : (ofBits m).bits = m &&& 0xFFF := by
  unfold ofBits bits
  dsimp only
  rw [Rwx.bits_masked m 0x100 0x80 0x40 0x800 (i := 8) (j := 7) (k := 6) (l := 11) rfl rfl rfl rfl
      rfl rfl,
    Rwx.bits_masked m 0x20 0x10 0x8 0x400 (i := 5) (j := 4) (k := 3) (l := 10) rfl rfl rfl rfl
      rfl rfl,
    Rwx.bits_masked m 0x4 0x2 0x1 0x200 (i := 2) (j := 1) (k := 0) (l := 9) rfl rfl rfl rfl rfl rfl,
    mask_or_left, mask_or_left]
  rfl

/-- `/a` -/
def dentryA : Dentry := .child .root (ascii "a")

theorem fits_dentryA : Fits dentryA.text := Nat.le_of_ble_eq_true rfl

/-- A server with the file `/a`, whose state is the permission bits. -/
def modeHost : Host UInt16 where
  data _ t := (.error .eio, t)
  status c t :=
    (.ok 0,
      if c.cmd = ascii "s_creat" ∨ c.cmd = ascii "s_chmod" then .ofNat (octVal (c.args.drop 5))
      else t)
  listing _ t :=
    (.ok ⟨[lsLine narrow (RemoteAttr.entry ⟨.ofBits t, 0, 0, ⟨5, by decide⟩⟩ 1 nameA),
      statusText REP_COMPLETE], fun _ => [], .eio⟩, t)
  link _ t := (⟨none, .error .eio⟩, t)
  mutexLock t := t
  mutexUnlock t := t

/-- Its permissions. -/
def modePerm (t : UInt16) : Perm := .ofBits t

theorem modeHost_setsModes : SetsModes modeHost dentryA.text modePerm where
  succeeds _ _ := ⟨0, rfl⟩
  creat mode c t hc := by
    rw [shellCreate, onPath, checkPath_fits fits_dentryA (by decide)] at hc
    obtain rfl := Option.some.inj hc
    change (Perm.ofBits (UInt16.ofNat (octVal (oct _)))).bits = _
    rw [octVal_oct, Perm.bits_ofBits]
    have hbits : UInt16.ofNat (mode.toUInt32 &&& S_IALLUGO).toNat = mode &&& 0xFFF := by
      have hmask : S_IALLUGO.toNat = (0xFFF : UInt16).toNat := rfl
      rw [UInt32.toNat_and, UInt16.toNat_toUInt32, hmask, ← UInt16.toNat_and, UInt16.ofNat_toNat]
    rw [hbits, UInt16.and_assoc]
    rfl
  chmod mode c t hc := by
    rw [shellChmod, onPath, checkPath_fits fits_dentryA (by decide)] at hc
    obtain rfl := Option.some.inj hc
    change (Perm.ofBits (UInt16.ofNat (octVal (oct _)))).bits = _
    rw [octVal_oct, Perm.bits_ofBits, UInt16.ofNat_toNat]
  others c t hcreat hchmod := by
    change modePerm (if c.cmd = ascii "s_creat" ∨ c.cmd = ascii "s_chmod" then _ else t) =
      modePerm t
    rw [if_neg (not_or.mpr ⟨hcreat, hchmod⟩)]
  data _ _ := rfl
  listed _ t _ :=
    ⟨_, rfl, ⟨.ofBits t, 0, 0, ⟨5, by decide⟩⟩, narrow, 1, nameA, [], rfl, by decide, rfl⟩
  listing _ _ := rfl
  locks _ := rfl
  unlocks _ := rfl

/-- A mount of it. -/
def modeMount : SuperBlock UInt16 := ⟨modeHost, ⟨false, false, 0, 0⟩, 0xFFFF, 0, stillClock⟩

/-- The file is not known yet. -/
def unknownFile : FileLife UInt16 := ⟨⟨[], 0, ⟨0, []⟩⟩, none, 0, none, false⟩

/-- A create. -/
def createA (mode : UInt16) : FileCall := .create [] mode blankFrame ⟨7, true⟩

/-- A handle that is opened and closed. -/
def openAndClose : List FileCall := [.open [] .rdonly ⟨true, none⟩, .release [] []]

theorem unknownFile_start : unknownFile.Start := ⟨rfl, rfl, nofun⟩

/-- For a file that is made, changed and closed. -/
theorem requests_persist_iff_a :
    let calls := createA 0x1A4 :: .chmod easy [] 0x8180 :: openAndClose
    ((∀ before, before <+: calls →
        (run (FileLife.step modeMount dentryA) unknownFile before).Persists modePerm) ↔
        Along (FileLife.step modeMount dentryA) (fun s call => s.AsksWrite modeMount call)
          unknownFile calls) ∧
      ((∀ before, before <+: calls →
        (run (FileLife.step modeMount dentryA) unknownFile before).PersistsOnceClosed modePerm) ↔
        Along (FileLife.step modeMount dentryA) (fun s call => s.LastCloseLeaves modeMount call)
          unknownFile calls) :=
  requests_persist_iff modeHost_setsModes fits_dentryA (by decide) unknownFile_start _

/-- A file is created with the mode 444, opened and closed; then its mode is changed to 644, and it
is opened and closed again: now it has the mode 444. -/
theorem not_requests_persist :
    let s := run (FileLife.step modeMount dentryA) unknownFile
      (createA 0x124 :: openAndClose ++ .chmod easy [] 0x81A4 :: openAndClose)
    (s.handles = 0 ∧ s.asked = some ⟨0x1A4, false⟩ ∧ s.closed = true ∧
      (modePerm s.world.far.server).bits = 0x124) ∧
      ¬ s.Persists modePerm ∧ ¬ s.PersistsOnceClosed modePerm := by
  intro s
  have hrun : s.handles = 0 ∧ s.asked = some ⟨0x1A4, false⟩ ∧ s.closed = true ∧
      (modePerm s.world.far.server).bits = 0x124 := by decide +kernel
  obtain ⟨hhandles, hasked, hclosed, hbits⟩ := hrun
  refine ⟨⟨hhandles, hasked, hclosed, hbits⟩, ?_, ?_⟩
  · intro h
    have := h hhandles _ hasked
    rw [hbits] at this
    exact absurd this (by decide)
  · intro h
    have := h hhandles _ hasked fun _ => hclosed
    rw [hbits] at this
    exact absurd this (by decide)

end Shfs
