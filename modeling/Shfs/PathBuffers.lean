import Shfs.Keeps

/-!
# What a path buffer lets through

A command goes out of the buffer of its caller only if `check_path` takes what is in there. When it
does not, the command reports `-ENAMETOOLONG` and nothing is sent; when it does, the command is on
its way, whatever comes behind it. The lemmas say so for one command, for the functions of the file
cache and for `shfs_notify_change`: each of them has a `silent` lemma for a buffer that is refused,
and a `sent` lemma for one that is taken.
-/

namespace Shfs

open Lib

/-! ## Builders -/

section Builders

variable {b : Bytes → Option Cmd} {name : Bytes}

theorem Builds.eq_none_iff (hb : Builds b) : b name = none ↔ checkPath name = none := by
  obtain ⟨k, hk, -⟩ := hb
  rw [hk, onPath, Option.map_eq_none_iff]

/-- The command of a path that is in its buffer has this path. -/
theorem Builds.cmd_path (hb : Builds b) {path : Bytes} (hroom : path.length < SHFS_PATH_MAX)
    (hnul : (0 : Byte) ∉ path) {c : Cmd} (hc : b path = some c) : c.path = some path := by
  obtain ⟨k, hk, hcarries⟩ := hb
  rw [hk, onPath, checkPath_eq hnul hroom] at hc
  split at hc
  · cases hc
  · obtain rfl := Option.some.inj hc
    exact (hcarries path).path

theorem builds_mkdir : Builds shellMkdir := ⟨_, fun _ => rfl, fun _ => ⟨[], nofun, by simp⟩⟩

theorem builds_rmdir : Builds shellRmdir := ⟨_, fun _ => rfl, fun _ => ⟨[], nofun, by simp⟩⟩

theorem builds_unlink : Builds shellUnlink := ⟨_, fun _ => rfl, fun _ => ⟨[], nofun, by simp⟩⟩

theorem builds_doLs (stat : Bool) : Builds (doLsCmd stat) :=
  ⟨_, fun _ => rfl, fun _ => ⟨[], nofun, by simp⟩⟩

theorem builds_create (mode : UInt32) : Builds (shellCreate · mode) :=
  ⟨_, fun _ => rfl, fun _ => ⟨[oct (mode &&& S_IALLUGO).toNat], by simp [bareWord_oct], by simp⟩⟩

theorem builds_open (mode : AccMode) : Builds (shellOpen · mode) := by
  cases mode with
  | rdonly => exact ⟨_, fun _ => rfl, fun _ => ⟨[ascii "R"], by decide, by simp⟩⟩
  | wronly => exact ⟨_, fun _ => rfl, fun _ => ⟨[ascii "W"], by decide, by simp⟩⟩
  | rdwr => exact ⟨_, fun _ => rfl, fun _ => ⟨[ascii "RW"], by decide, by simp⟩⟩

end Builders

/-! ## One command -/

section Issue

variable {τ ρ : Type} {answer : Cmd → τ → Except Errno ρ × τ} {b : Bytes → Option Cmd}
  {name : Bytes} {far : Far τ}

/-- Has anything been sent? -/
def Far.Sent (far : Far τ) : Prop := far.cmds ≠ []

/-- Everything that has been sent is like this. -/
def Far.Only (P : Cmd → Prop) (far : Far τ) : Prop := ∀ c ∈ far.cmds, P c

theorem issue_refused (h : b name = none) :
    issue answer b name far = ⟨.error .enametoolong, name, far⟩ := by
  rw [issue, h]

theorem issue_sent (h : b name ≠ none) : (issue answer b name far).remote.Sent := by
  obtain ⟨c, hc⟩ := Option.ne_none_iff_exists'.mp h
  rw [issue, hc]
  exact List.concat_ne_nil c far.cmds

theorem Far.Sent.issue (h : far.Sent) : (issue answer b name far).remote.Sent := by
  unfold Shfs.issue
  split
  · exact h
  · exact List.append_ne_nil_of_left_ne_nil h _

theorem Far.Only.issue {P : Cmd → Prop} (h : far.Only P) (hb : ∀ c, b name = some c → P c) :
    (issue answer b name far).remote.Only P := by
  unfold Shfs.issue
  cases hc : b name with
  | none => exact h
  | some c =>
    intro c' hc'
    rcases List.mem_append.mp hc' with hold | hnew
    · exact h c' hold
    · obtain rfl := List.mem_singleton.mp hnew
      exact hb c' hc

/-- A command for the path in a buffer. -/
structure Passes (name : Bytes) (far : Far τ) (d : Done ρ (Far τ)) : Prop where
  refused : checkPath name = none → d = ⟨.error .enametoolong, name, far⟩
  sent : checkPath name ≠ none → d.remote.Sent
  keeps : far.Sent → d.remote.Sent

theorem Builds.passes (hb : Builds b) : Passes name far (Shfs.issue answer b name far) :=
  ⟨fun h => issue_refused (hb.eq_none_iff.mpr h), fun h => issue_sent (mt hb.eq_none_iff.mp h),
    Far.Sent.issue⟩

end Issue

section Commands

variable {τ : Type} (server : Remote τ) (size : ℕ)

theorem shellRead_passes (name : Bytes) (off n ino : ℕ) (far : Far τ) :
    Passes name far ((shellFops server size).read name off n ino far) :=
  (builds_read (.ofNat off) (.ofNat n) (.ofNat ino)).passes

theorem shellWrite_passes (name : Bytes) (off : ℕ) (d : Bytes) (ino : ℕ) (far : Far τ) :
    Passes name far ((shellFops server size).write name off d ino far) :=
  (builds_write (.ofNat size) (.ofNat off) (.ofNat d.length) (.ofNat ino)).passes

theorem AttrCmd.op_passes (a : AttrCmd) (attr : Iattr) (name : Bytes) (far : Far τ) :
    Passes name far (a.op (shellAops server) attr name far) := by
  cases a with
  | chmod => exact (builds_chmod attr.mode).passes
  | chown => exact (builds_chown attr.uid).passes
  | chgrp => exact (builds_chgrp attr.gid).passes
  | trunc => exact (builds_trunc attr.size).passes
  | settime which => cases which <;> exact (builds_settime _ _).passes

theorem fops_keeps_sent : (shellFops server size).Keeps Far.Sent where
  read name off n ino far := (shellRead_passes server size name off n ino far).keeps
  write name off d ino far := (shellWrite_passes server size name off d ino far).keeps

theorem aops_keeps_sent : (shellAops server).Keeps Far.Sent :=
  fun attr a name far => (a.op_passes server attr name far).keeps

end Commands

/-! ## The file cache -/

section Cache

variable {τ : Type} {server : Remote τ} {size fuel : ℕ} {mem : Memory} {f : File} {s : Slot (Far τ)}

theorem File.check_error {e : Errno} (h : f.check = .error e) : e = .einval := by
  unfold File.check at h
  split at h
  · exact (Except.error.inj h).symm
  · unfold Inode.check at h
    split at h
    · exact (Except.error.inj h).symm
    · split at h
      · exact (Except.error.inj h).symm
      · cases h

/-! ### Writing what is dirty -/

/-- A buffer that has something to write. -/
def FCache.Dirty (c : FCache) : Prop := c.count ≠ 0 ∧ c.type = .write

variable (server size) in
/-- A dirty buffer, behind the checks. -/
theorem fcacheFileSync_dirty {ino : ℕ} {c : FCache} (hcheck : f.check = .ok ino)
    (hc : s.cache = some c) (hdirty : c.Dirty) :
    let w := (shellFops server size).write (getName f.dentry f.stack).2 c.offset c.held ino s.remote
    (fcacheFileSync (shellFops server size) f s).1 = w.result.map (fun _ => ()) ∧
      (fcacheFileSync (shellFops server size) f s).2.remote = w.remote := by
  unfold fcacheFileSync
  rw [hcheck, hc]
  dsimp only
  rw [if_pos (show c.count ≠ 0 ∧ c.type = .write from hdirty),
    if_neg (getName_nonneg f.dentry f.stack)]
  exact ⟨rfl, rfl⟩

/-! ### Reading -/

variable (server size) in
theorem Reading.flush_refused {v : Reading (Far τ)} (h : checkPath v.name = none) (ino : ℕ) :
    (v.flush (shellFops server size) ino).name = v.name ∧
      (v.flush (shellFops server size) ino).remote = v.remote ∧
      (v.flush (shellFops server size) ino).count = v.count := by
  unfold Reading.flush
  split
  · rw [(shellWrite_passes ..).refused h]
    exact ⟨rfl, rfl, rfl⟩
  · exact ⟨rfl, rfl, rfl⟩

variable (server size) in
/-- Without a command the flush leaves the buffer of the caller alone. -/
theorem Reading.flush_sent {v : Reading (Far τ)} (h : checkPath v.name ≠ none) (ino : ℕ) :
    (v.flush (shellFops server size) ino).remote.Sent ∨
      checkPath (v.flush (shellFops server size) ino).name ≠ none := by
  unfold Reading.flush
  split
  · exact .inl ((shellWrite_passes ..).sent h)
  · exact .inr h

/-- The rounds of a read end with the first one. -/
theorem Reading.loop_refused {v : Reading (Far τ)} (hcount : v.count ≠ 0)
    (h : checkPath v.name = none) {r : (Errno × Reading (Far τ)) ⊕ Reading (Far τ)}
    (hr : loop (fun v => decide (v.count ≠ 0)) (Reading.fill (shellFops server size) size) fuel v =
      some r) :
    ∃ v', r = .inl (.enametoolong, v') ∧ v'.remote = v.remote := by
  have hreq : v.request (shellFops server size) size = ⟨.error .enametoolong, v.name, v.remote⟩ :=
    (shellRead_passes ..).refused h
  cases fuel with
  | zero =>
    rw [loop, if_pos (decide_eq_true hcount)] at hr
    cases hr
  | succ fuel =>
    obtain ⟨v', hfill, -, hremote⟩ := Reading.fill_error (shellFops server size) size
      (congrArg Done.result hreq)
    rw [loop, if_pos (decide_eq_true hcount), hfill] at hr
    obtain rfl := Option.some.inj hr
    exact ⟨v', rfl, hremote.trans (congrArg Done.remote hreq)⟩

/-- The first round of a read sends its command. -/
theorem Reading.loop_sent {v : Reading (Far τ)} (hcount : v.count ≠ 0)
    (h : v.remote.Sent ∨ checkPath v.name ≠ none)
    {r : (Errno × Reading (Far τ)) ⊕ Reading (Far τ)}
    (hr : loop (fun v => decide (v.count ≠ 0)) (Reading.fill (shellFops server size) size) fuel v =
      some r) :
    Sum.elim (fun b => b.2.remote.Sent) (fun v => v.remote.Sent) r := by
  have hpasses : Passes v.name v.remote (v.request (shellFops server size) size) :=
    shellRead_passes ..
  have hsent : (v.request (shellFops server size) size).remote.Sent :=
    h.elim hpasses.keeps hpasses.sent
  have hround := Reading.fill_of_request hsent
  cases fuel with
  | zero =>
    rw [loop, if_pos (decide_eq_true hcount)] at hr
    cases hr
  | succ fuel =>
    rw [loop, if_pos (decide_eq_true hcount)] at hr
    cases hfill : v.fill (shellFops server size) size with
    | inl b =>
      rw [hfill] at hr hround
      obtain rfl := Option.some.inj hr
      exact hround
    | inr v' =>
      rw [hfill] at hr hround
      exact Reading.loop_keeps (fops_keeps_sent server size).read hround hr

/-- Does a read through the buffer of its file leave octets to be asked for? Without a buffer it
asks for all of them. -/
def AsksRead (mem : Memory) (f : File) (s : Slot (Far τ)) (offset count : ℕ) : Prop :=
  (∃ ino, f.check = .ok ino) ∧ ∀ c ∈ (s.alloc mem).cache,
    (⟨(getName f.dentry f.stack).2, offset, count, [], c, s.remote⟩ : Reading (Far τ)).hit.count ≠ 0

variable {offset count : ℕ} {r : Except Errno Bytes × Slot (Far τ)}

theorem fcacheFileRead_silent (h : checkPath (getName f.dentry f.stack).2 = none)
    (hr : fcacheFileRead (shellFops server size) size fuel mem f offset count s = some r) :
    r.2.remote = s.remote ∧ (r.1 = .error .enametoolong ↔ AsksRead mem f s offset count) := by
  unfold AsksRead
  obtain ⟨e, hcheck, rfl⟩ | ⟨ino, hcheck, ⟨hc, q, rfl, rfl⟩ | ⟨c, out, hc, hout, rfl⟩⟩ :=
    fcacheFileRead_cases hr
  · -- the file is not one to be used
    obtain rfl := File.check_error hcheck
    rw [hcheck]
    exact ⟨rfl, iff_of_false (by rintro ⟨⟩) (by rintro ⟨⟨ino, ⟨⟩⟩, -⟩)⟩
  · -- no buffer
    rw [(shellRead_passes ..).refused h, hcheck, hc]
    exact ⟨s.alloc_remote mem, fun _ => ⟨⟨ino, rfl⟩, by rintro _ ⟨⟩⟩, fun _ => rfl⟩
  · -- through the buffer
    rw [s.alloc_remote mem] at hout
    rw [hcheck, hc]
    obtain ⟨hname, hremote⟩ :=
      Reading.hit_name
        (⟨(getName f.dentry f.stack).2, offset, count, [], c, s.remote⟩ : Reading (Far τ))
    set v := (⟨(getName f.dentry f.stack).2, offset, count, [], c, s.remote⟩ :
      Reading (Far τ)).hit
    obtain ⟨hflushName, hflushRemote, hflushCount⟩ :=
      Reading.flush_refused server size (hname.symm ▸ h : checkPath v.name = none) ino
    by_cases hcount : v.count = 0
    · -- everything is in the buffer
      obtain rfl :=
        Option.some.inj ((loop_zero Reading.count (hflushCount.trans hcount) fuel).symm.trans
        hout)
      refine ⟨hflushRemote.trans hremote, iff_of_false (by rintro ⟨⟩) ?_⟩
      rintro ⟨-, hasks⟩
      exact hasks c rfl hcount
    · obtain ⟨v', rfl, hremote'⟩ := Reading.loop_refused (hflushCount.symm ▸ hcount)
        (hflushName.symm ▸ hname ▸ h) hout
      refine ⟨hremote'.trans (hflushRemote.trans hremote), fun _ => ⟨⟨ino, rfl⟩, ?_⟩, fun _ => rfl⟩
      rintro _ ⟨⟩
      exact hcount

theorem fcacheFileRead_sent (h : checkPath (getName f.dentry f.stack).2 ≠ none)
    (hr : fcacheFileRead (shellFops server size) size fuel mem f offset count s = some r) :
    r.2.remote.Sent ∨ r.1 ≠ .error .enametoolong := by
  obtain ⟨e, hcheck, rfl⟩ | ⟨ino, hcheck, ⟨hc, q, rfl, rfl⟩ | ⟨c, out, hc, hout, rfl⟩⟩ :=
    fcacheFileRead_cases hr
  · -- the file is not one to be used
    obtain rfl := File.check_error hcheck
    exact .inr (by rintro ⟨⟩)
  · -- no buffer
    exact .inl ((shellRead_passes ..).sent h)
  · -- through the buffer
    have hname : checkPath (⟨(getName f.dentry f.stack).2, offset, count, [], c,
        (s.alloc mem).remote⟩ : Reading (Far τ)).hit.name ≠ none := by
      rwa [(Reading.hit_name _).1]
    have hflush := Reading.flush_sent server size hname ino
    set v := ((⟨(getName f.dentry f.stack).2, offset, count, [], c, (s.alloc mem).remote⟩ :
      Reading (Far τ)).hit).flush (shellFops server size) ino
    by_cases hcount : v.count = 0
    · obtain rfl := Option.some.inj ((loop_zero Reading.count hcount fuel).symm.trans hout)
      exact .inr (by rintro ⟨⟩)
    · have hsent := Reading.loop_sent hcount hflush hout
      cases out with
      | inl b => exact .inl hsent
      | inr v' => exact .inl hsent

/-- What a read hands over and what it still needs make up what it was asked for. -/
theorem Reading.fill_length {v : Reading (Far τ)} {total : ℕ}
    (h : v.buffer.length + v.count = total) :
    Sum.elim (fun _ => True) (fun v' => v'.buffer.length + v'.count = total)
      (v.fill (shellFops server size) size) := by
  unfold Reading.fill
  dsimp only
  split
  · trivial
  · simp only [Sum.elim_inr, Reading.copy, List.length_append, length_fetch]
    split <;> omega

theorem Reading.hit_length (v : Reading (Far τ)) :
    v.hit.buffer.length + v.hit.count = v.buffer.length + v.count := by
  unfold Reading.hit
  split
  · simp only [Reading.copy, List.length_append, length_fetch]
    split <;> omega
  · rfl

/-- **A read that succeeds** has all the octets it was asked for, whatever the server is: a refill
is a positive number of octets, and the loop goes on until there is nothing to copy any more. -/
theorem fcacheFileRead_length {d : Bytes}
    (hr : fcacheFileRead (shellFops server size) size fuel mem f offset count s = some r)
    (hd : r.1 = .ok d) : d.length = count := by
  obtain ⟨e, hcheck, rfl⟩ | ⟨ino, hcheck, ⟨hc, q, rfl, rfl⟩ | ⟨c, out, hc, hout, rfl⟩⟩ :=
    fcacheFileRead_cases hr
  · -- the file is not one to be used
    cases hd
  · -- no buffer
    exact length_shellRead hd
  · -- through the buffer
    have hstart := Reading.hit_length (⟨(getName f.dentry f.stack).2, offset, count, [], c,
      (s.alloc mem).remote⟩ : Reading (Far τ))
    set v := (⟨(getName f.dentry f.stack).2, offset, count, [], c, (s.alloc mem).remote⟩ :
      Reading (Far τ)).hit
    have hflush : (v.flush (shellFops server size) ino).buffer.length +
        (v.flush (shellFops server size) ino).count = count := by
      unfold Reading.flush
      split <;> exact hstart.trans (Nat.zero_add count)
    have hrule := loop_rule (fun v : Reading (Far τ) => v.buffer.length + v.count = count)
      (fun _ : Errno × Reading (Far τ) => True) (fun v hv _ => Reading.fill_length hv) hflush hout
    cases out with
    | inl b => cases hd
    | inr v' =>
      obtain rfl := Except.ok.inj hd
      have hsum : v'.buffer.length + v'.count = count := hrule.1
      have hdone : v'.count = 0 := by simpa using hrule.2
      rw [← hsum, hdone]
      rfl

/-! ### Writing -/

variable (size) in
/-- A round of a write leaves the far side as its command does. -/
theorem Writing.drain_of_request {σ : Type} {ops : Fops σ} {P : σ → Prop} {ino : ℕ} {v : Writing σ}
    (hreq : P (v.request ops ino).remote) :
    Sum.elim (fun v => P v.remote) (fun v => P v.remote) (v.drain ops size ino) := by
  cases hr : (v.request ops ino).result with
  | error e =>
    obtain ⟨v', heq, -, hremote, -⟩ := Writing.drain_error ops size ino hr
    rw [heq]
    exact (congrArg P hremote).mpr hreq
  | ok n =>
    obtain ⟨v', heq, -, hremote, -⟩ := Writing.drain_ok ops size ino hr
    rw [heq]
    exact (congrArg P hremote).mpr hreq

/-- The first round of a write sends its command. -/
theorem Writing.loop_sent {ino : ℕ} {v : Writing (Far τ)} (hcount : v.count ≠ 0)
    (h : checkPath v.name ≠ none) {out : Writing (Far τ) ⊕ Writing (Far τ)}
    (hout : loop (fun v => decide (v.count ≠ 0)) (Writing.drain (shellFops server size) size ino)
      fuel v = some out) : (out.elim id id).remote.Sent := by
  have hround := Writing.drain_of_request size (P := Far.Sent)
    ((shellWrite_passes server size v.name v.cache.offset v.cache.held ino v.remote).sent h)
  cases fuel with
  | zero =>
    rw [loop, if_pos (decide_eq_true hcount)] at hout
    cases hout
  | succ fuel =>
    rw [loop, if_pos (decide_eq_true hcount)] at hout
    cases hdrain : v.drain (shellFops server size) size ino with
    | inl v' =>
      rw [hdrain] at hout hround
      obtain rfl := Option.some.inj hout
      exact hround
    | inr v' =>
      rw [hdrain] at hout hround
      have hrule := loop_rule (fun v : Writing (Far τ) => v.remote.Sent)
        (fun v : Writing (Far τ) => v.remote.Sent) (fun v hv _ => Writing.drain_of_request size
          ((fops_keeps_sent server size).write _ _ _ _ _ hv)) hround hout
      cases out with
      | inl v'' => exact hrule
      | inr v'' => exact hrule.1

/-- The rounds of a write end with the first one. -/
theorem Writing.loop_refused {ino : ℕ} {v : Writing (Far τ)} (hcount : v.count ≠ 0)
    (h : checkPath v.name = none) {out : Writing (Far τ) ⊕ Writing (Far τ)}
    (hout : loop (fun v => decide (v.count ≠ 0)) (Writing.drain (shellFops server size) size ino)
      fuel v = some out) : out = .inl { v with failed := some .enametoolong } := by
  have hdrain : v.drain (shellFops server size) size ino =
      .inl { v with failed := some .enametoolong } := by
    unfold Writing.drain
    rw [(shellWrite_passes ..).refused h]
  cases fuel with
  | zero =>
    rw [loop, if_pos (decide_eq_true hcount)] at hout
    cases hout
  | succ fuel =>
    rw [loop, if_pos (decide_eq_true hcount), hdrain] at hout
    exact (Option.some.inj hout).symm

variable (server size) in
theorem Writing.probe_refused {v : Writing (Far τ)} (h : checkPath v.name = none) (ino : ℕ) :
    (v.probe (shellFops server size) ino).remote = v.remote ∧
      (v.probe (shellFops server size) ino).failed =
        if v.cache.new = true ∧ v.wrote ≠ 0 then some .enametoolong else v.failed := by
  unfold Writing.probe
  split
  · rw [(shellWrite_passes ..).refused h]
    exact ⟨rfl, rfl⟩
  · exact ⟨rfl, rfl⟩

theorem Writing.probe_keeps {σ : Type} {ops : Fops σ} {P : σ → Prop} (h : ops.Keeps P) (ino : ℕ)
    {v : Writing σ} (hv : P v.remote) : P (v.probe ops ino).remote := by
  unfold Writing.probe
  split
  · exact h.write _ _ _ _ _ hv
  · exact hv

/-- A count is never taken for this error. -/
theorem Writing.result_error_iff {σ : Type} {v : Writing σ} :
    v.result = .error .enametoolong ↔ v.failed = some .enametoolong := by
  unfold Writing.result
  cases v.failed with
  | none =>
    dsimp only
    unfold intResult
    exact iff_of_false (by split <;> rintro ⟨⟩) (by rintro ⟨⟩)
  | some e' => rw [Except.error.injEq, Option.some.injEq]

variable (size) in
/-- The part of a write that its buffer takes at once has not failed yet. -/
theorem Writing.start_failed {σ : Type} (name : Bytes) (offset : ℕ) (buffer : Bytes) (c : FCache)
    (remote : σ) : (Writing.start size name offset buffer c remote).failed = none := by
  unfold Writing.start Writing.append
  split <;> (unfold Writing.overwrite; split <;> rfl)

/-- Does a write through the buffer of its file need a command? Without a buffer it does; otherwise
octets are left, or one of them is sent ahead. -/
def AsksWrite (size : ℕ) (mem : Memory) (f : File) (s : Slot (Far τ)) (offset : ℕ)
    (buffer : Bytes) : Prop :=
  (∃ ino, f.check = .ok ino) ∧ ∀ c ∈ (s.alloc mem).cache,
    let v := Writing.start size (getName f.dentry f.stack).2 offset buffer c s.remote
    v.count ≠ 0 ∨ v.cache.new = true ∧ v.wrote ≠ 0

variable {buffer : Bytes} {r : Except Errno ℕ × Slot (Far τ)}

theorem fcacheFileWrite_silent (h : checkPath (getName f.dentry f.stack).2 = none)
    (hr : fcacheFileWrite (shellFops server size) size fuel mem f offset buffer s = some r) :
    r.2.remote = s.remote ∧
      (r.1 = .error .enametoolong ↔ AsksWrite size mem f s offset buffer) := by
  unfold AsksWrite
  obtain ⟨e, hcheck, rfl⟩ | ⟨ino, hcheck, ⟨hc, q, rfl, rfl⟩ | ⟨c, out, hc, hout, v, rfl, rfl⟩⟩ :=
    fcacheFileWrite_cases hr
  · -- the file is not one to be used
    obtain rfl := File.check_error hcheck
    rw [hcheck]
    exact ⟨rfl, iff_of_false (by rintro ⟨⟩) (by rintro ⟨⟨ino, ⟨⟩⟩, -⟩)⟩
  · -- no buffer
    rw [(shellWrite_passes ..).refused h, hcheck, hc]
    exact ⟨s.alloc_remote mem, fun _ => ⟨⟨ino, rfl⟩, by rintro _ ⟨⟩⟩, fun _ => rfl⟩
  · -- through the buffer
    rw [s.alloc_remote mem] at hout
    rw [hcheck, hc]
    obtain ⟨hname, hremote, -⟩ :=
      Writing.start_far size (getName f.dentry f.stack).2 offset buffer c
      s.remote
    have hfailed := Writing.start_failed size (getName f.dentry f.stack).2 offset buffer c
      s.remote
    set v := Writing.start size (getName f.dentry f.stack).2 offset buffer c s.remote
    have hrefused : checkPath v.name = none := hname.symm ▸ h
    have hasks : ((∃ i, Except.ok ino = (.ok i : Except Errno ℕ)) ∧ ∀ c' ∈ some c,
        let v := Writing.start size (getName f.dentry f.stack).2 offset buffer c' s.remote
        v.count ≠ 0 ∨ v.cache.new = true ∧ v.wrote ≠ 0) ↔
          v.count ≠ 0 ∨ v.cache.new = true ∧ v.wrote ≠ 0 := by
      refine ⟨fun h => h.2 c rfl, fun h => ⟨⟨ino, rfl⟩, ?_⟩⟩
      rintro _ ⟨⟩
      exact h
    rw [hasks, Writing.result_error_iff]
    by_cases hcount : v.count = 0
    · -- the buffer has taken everything, and only the octet ahead is left
      obtain rfl := Option.some.inj ((loop_zero Writing.count hcount fuel).symm.trans hout)
      obtain ⟨hprobe, hresult⟩ := Writing.probe_refused server size hrefused ino
      refine ⟨hprobe.trans hremote, ?_⟩
      rw [or_iff_right (not_not_intro hcount)]
      refine (Eq.congr_left hresult).trans ?_
      rw [hfailed]
      split
      · next hnew => exact iff_of_true rfl hnew
      · next hnew => exact iff_of_false (by rintro ⟨⟩) hnew
    · obtain rfl := Writing.loop_refused hcount hrefused hout
      obtain ⟨hprobe, hresult⟩ := Writing.probe_refused server size
        (v := { v with failed := some .enametoolong }) hrefused ino
      refine ⟨hprobe.trans hremote, iff_of_true (hresult.trans ?_) (.inl hcount)⟩
      split <;> rfl

theorem fcacheFileWrite_sent (h : checkPath (getName f.dentry f.stack).2 ≠ none)
    (hr : fcacheFileWrite (shellFops server size) size fuel mem f offset buffer s = some r) :
    r.2.remote.Sent ∨ r.1 ≠ .error .enametoolong := by
  obtain ⟨e, hcheck, rfl⟩ | ⟨ino, hcheck, ⟨hc, q, rfl, rfl⟩ | ⟨c, out, hc, hout, v, rfl, rfl⟩⟩ :=
    fcacheFileWrite_cases hr
  · -- the file is not one to be used
    obtain rfl := File.check_error hcheck
    exact .inr (by rintro ⟨⟩)
  · -- no buffer
    exact .inl ((shellWrite_passes ..).sent h)
  · -- through the buffer
    obtain ⟨hname, -, -⟩ := Writing.start_far size (getName f.dentry f.stack).2 offset buffer c
      (s.alloc mem).remote
    have hfailed := Writing.start_failed size (getName f.dentry f.stack).2 offset buffer c
      (s.alloc mem).remote
    set v := Writing.start size (getName f.dentry f.stack).2 offset buffer c (s.alloc mem).remote
    have hpass : checkPath v.name ≠ none := hname.symm ▸ h
    by_cases hcount : v.count = 0
    · obtain rfl := Option.some.inj ((loop_zero Writing.count hcount fuel).symm.trans hout)
      change (v.probe (shellFops server size) ino).remote.Sent ∨
        (v.probe (shellFops server size) ino).result ≠ .error .enametoolong
      by_cases hnew : v.cache.new = true ∧ v.wrote ≠ 0
      · left
        rw [Writing.probe, if_pos hnew]
        exact (shellWrite_passes ..).sent hpass
      · right
        rw [Writing.probe, if_neg hnew, Ne, Writing.result_error_iff, hfailed]
        rintro ⟨⟩
    · exact .inl (Writing.probe_keeps (fops_keeps_sent server size) ino
        (Writing.loop_sent hcount hpass hout))

end Cache

/-! ## Changing attributes -/

section Notify

variable {τ : Type} {server : Remote τ} {info : MountOpts} {verdicts : Verdicts} {attr : Iattr}
  {d : Dentry} {stack : Bytes} {inode : Stat} {far : Far τ}

/-- Does a request to change attributes ask the server for anything? -/
def AsksNotify (info : MountOpts) (verdicts : Verdicts) (attr : Iattr) : Prop :=
  verdicts.change = .ok () ∧ info.readonly = false ∧ attr.asks ≠ []

variable (server info verdicts attr d stack inode far) in
theorem shfsNotifyChange_silent (h : checkPath (getName d stack).2 = none) :
    let r := shfsNotifyChange (shellAops server) info verdicts d stack attr inode far
    r.2.2 = far ∧ (r.1 = .error .enametoolong ↔
      verdicts.change = .error .enametoolong ∨ AsksNotify info verdicts attr) := by
  unfold AsksNotify
  rw [shfsNotifyChange_eq]
  cases verdicts.change with
  | error e =>
    refine ⟨rfl, fun he => .inl (congrArg _ (Except.error.inj he)), fun h => ?_⟩
    rcases h with he | ⟨hok, -⟩
    · exact congrArg _ (Except.error.inj he)
    · cases hok
  | ok u =>
    cases info.readonly with
    | true => exact ⟨rfl, fun he => (nomatch he), fun h => h.elim nofun fun h => (nomatch h.2.1)⟩
    | false =>
      cases hasks : attr.asks with
      | nil => exact ⟨rfl, fun he => (nomatch he), fun h => h.elim nofun fun h => absurd rfl h.2.2⟩
      | cons a l =>
        have hop := (a.op_passes server attr (getName d stack).2 far).refused h
        have hstep : Change.step (shellAops server) info verdicts attr
            ⟨.ok 0, (getName d stack).2, inode, far⟩ a =
              ⟨.error .enametoolong, (getName d stack).2, inode, far⟩ := by
          unfold Change.step
          simp only [hop]
        dsimp only
        rw [if_neg Bool.false_ne_true, List.foldl_cons, hstep, Change.foldl_failed rfl]
        exact ⟨rfl, fun _ => .inr ⟨rfl, rfl, List.cons_ne_nil a l⟩, fun _ => rfl⟩

variable (server info verdicts attr d stack inode far) in
theorem shfsNotifyChange_sent (h : checkPath (getName d stack).2 ≠ none) :
    let r := shfsNotifyChange (shellAops server) info verdicts d stack attr inode far
    r.2.2.Sent ∨ r.1 ≠ .error .enametoolong ∨ verdicts.change = .error .enametoolong := by
  rw [shfsNotifyChange_eq]
  cases verdicts.change with
  | error e =>
    by_cases he : e = .enametoolong
    · exact .inr (.inr (congrArg _ he))
    · exact .inr (.inl fun herr => he (Except.error.inj herr))
  | ok u =>
    cases info.readonly with
    | true => exact .inr (.inl nofun)
    | false =>
      cases hasks : attr.asks with
      | nil => exact .inr (.inl nofun)
      | cons a l =>
        left
        refine Change.foldl_keeps (aops_keeps_sent server) ?_ l
        rw [(Change.step_ok (shellAops server) info verdicts attr rfl a).2.1]
        exact (a.op_passes server attr _ far).sent h

end Notify

end Shfs
