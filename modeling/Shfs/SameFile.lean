import Shfs.Notify
import Shfs.Request

/-!
# One path buffer for several commands

Every `shell_*` function quotes the path in the buffer of its caller, and the callers use the buffer
again for their next command. `issue` is the part the functions have in common: `check_path`, and
the command with the path as it is then. What the server makes of a command is arbitrary, so the
far side only keeps a record of the commands that `check_path` has let through.

`Trail` says what is in the buffer after so many commands: the path quoted that often, while the
`i`-th command carries it quoted once more than that. So all commands of a call name the same file
when the path has no quote in it or there is only one of them (`Trail.sameFile_iff`); and there is
only one, too, when the path quoted twice does not fit in the buffer. `pathCall_sameFile_iff` says
when a call of `shfs_notify_change`, `fcache_file_read` or `fcache_file_write` needs just one.
-/

namespace Shfs

open Lib

/-! ## Commands and their paths -/

/-- The words of a read behind its credentials. -/
def shellReadCmd (file : Bytes) (offset count : UInt32) (ino : UInt64) : Option Cmd :=
  onPath file fun file =>
    let (bs, offset2, count2) := readBlocks offset count
    let nums := [offset, count, bs, offset2, count2].map fun x => dec x.toNat
    if ino ≠ 0 then ⟨ascii "s_sread", joinWith sp (squoted file :: nums ++ [dec ino.toNat])⟩
    else ⟨ascii "s_read", joinWith sp (squoted file :: nums)⟩

/-- The words of a write behind its credentials. -/
def shellWriteCmd (fcacheSize : UInt32) (file : Bytes) (offset count : UInt32) (ino : UInt64) :
    Option Cmd :=
  onPath file fun file =>
    let (bs, offset2) := writeBlocks fcacheSize offset
    ⟨ascii "s_write", joinWith sp (squoted file :: ([offset, count, bs, offset2].map fun x =>
      dec x.toNat) ++ [dec ino.toNat])⟩

section Lines

variable (preserveOwn : Bool) (cred : Cred)

/-- **The line of a read** is printed from these words. What is proved here about the command of a
read is about the line that `shell_read` of the client sends, behind the credentials and in front of
the line feed. -/
theorem shellReadLine_eq (file : Bytes) (offset count : UInt32) (ino : UInt64) :
    (checkPath file).map (fun file => shellReadLine preserveOwn cred file offset count ino) =
      (shellReadCmd file offset count ino).map fun c =>
        printLine preserveOwn cred c.cmd (c.args ++ [nl]) := by
  unfold shellReadCmd onPath
  rw [Option.map_map]
  congr 1
  funext file
  unfold shellReadLine
  dsimp only [Function.comp]
  split <;> rfl

/-- **The line of a write** is printed from these words, in the same way. -/
theorem shellWriteLine_eq (fcacheSize : UInt32) (file : Bytes) (offset count : UInt32)
    (ino : UInt64) :
    (checkPath file).map
        (fun file => shellWriteLine preserveOwn cred fcacheSize file offset count ino) =
      (shellWriteCmd fcacheSize file offset count ino).map fun c =>
        printLine preserveOwn cred c.cmd (c.args ++ [nl]) := by
  unfold shellWriteCmd onPath
  rw [Option.map_map]
  rfl

end Lines

/-- The first argument `getline` takes from a command, which is its path. -/
def Cmd.path (c : Cmd) : Option Bytes :=
  match scan getlineStep ⟨.between, [], []⟩ (c.args ++ [nl]) with
  | .inr (w :: _, _) => some w
  | _ => none

/-- A command whose first argument is this path, quoted once. -/
def Cmd.Carries (c : Cmd) (path : Bytes) : Prop :=
  ∃ ws, (∀ w ∈ ws, BareWord w) ∧ c.args = joinWith sp (squoted (quoteText path) :: ws)

theorem Cmd.Carries.path {c : Cmd} {path : Bytes} (h : c.Carries path) : c.path = some path := by
  obtain ⟨ws, hws, hargs⟩ := h
  have hok : ∀ w ∈ Word.quoted path :: ws.map Word.bare, w.Ok := by
    intro w hw
    rcases List.mem_cons.mp hw with rfl | hw
    · trivial
    · obtain ⟨v, hv, rfl⟩ := List.mem_map.mp hw
      exact hws v hv
  have hscan := scan_args hok [] []
  simp only [List.map_cons, List.map_map, List.nil_append] at hscan
  have htext : ws.map (Word.text ∘ Word.bare) = ws := by
    rw [show Word.text ∘ Word.bare = id from rfl, List.map_id]
  rw [htext] at hscan
  unfold Cmd.path
  rw [hargs]
  rw [show squoted (quoteText path) = (Word.quoted path).text from rfl, hscan]
  rfl

/-- A builder puts the path first, and nothing else that is quoted. -/
def Builds (b : Bytes → Option Cmd) : Prop :=
  ∃ k : Bytes → Cmd, (∀ file, b file = onPath file k) ∧
    ∀ path, (k (quoteText path)).Carries path

theorem builds_chmod (mode : UInt16) : Builds (shellChmod · mode) :=
  ⟨_, fun _ => rfl, fun path => ⟨[oct mode.toNat], by simp [bareWord_oct], by simp⟩⟩

theorem builds_chown (user : UInt32) : Builds (shellChown · user) :=
  ⟨_, fun _ => rfl, fun path => ⟨[dec user.toNat], by simp [bareWord_dec], by simp⟩⟩

theorem builds_chgrp (group : UInt32) : Builds (shellChgrp · group) :=
  ⟨_, fun _ => rfl, fun path => ⟨[dec group.toNat], by simp [bareWord_dec], by simp⟩⟩

theorem builds_trunc (size : UInt64) : Builds (shellTrunc · size) := by
  unfold shellTrunc
  generalize (if size = 0 then ((1 : UInt64), 0) else (size, 1)) = r
  obtain ⟨size, seek⟩ := r
  exact ⟨_, fun _ => rfl, fun path =>
    ⟨[dec size.toUInt32.toNat, dec seek], by simp [bareWord_dec], by simp⟩⟩

theorem builds_settime (which : TimeSet) (sec : ℤ) : Builds (shellSettime · which sec) := by
  have hwhich : BareWord which.text := by cases which <;> decide
  exact ⟨_, fun _ => rfl, fun path =>
    ⟨[which.text, strctime sec], by simp [hwhich, bareWord_strctime], by simp⟩⟩

theorem builds_read (offset count : UInt32) (ino : UInt64) :
    Builds (shellReadCmd · offset count ino) := by
  refine ⟨_, fun _ => rfl, fun path => ?_⟩
  dsimp only
  split
  · exact ⟨([offset, count, (readBlocks offset count).1, (readBlocks offset count).2.1,
      (readBlocks offset count).2.2].map fun x => dec x.toNat) ++ [dec ino.toNat],
      by simp [bareWord_dec], by simp⟩
  · exact ⟨[offset, count, (readBlocks offset count).1, (readBlocks offset count).2.1,
      (readBlocks offset count).2.2].map fun x => dec x.toNat, by simp [bareWord_dec], by simp⟩

theorem builds_write (fcacheSize offset count : UInt32) (ino : UInt64) :
    Builds (shellWriteCmd fcacheSize · offset count ino) :=
  ⟨_, fun _ => rfl, fun path =>
    ⟨([offset, count, (writeBlocks fcacheSize offset).1, (writeBlocks fcacheSize offset).2].map
      fun x => dec x.toNat) ++ [dec ino.toNat], by simp [bareWord_dec], by simp⟩⟩

/-! ## The far side -/

/-- A server with any answers, for the commands that read and for all the others. Its state may
change with each command, so that nothing can be said of an answer from those before. -/
structure Remote (τ : Type) : Type where
  data : Cmd → τ → Except Errno Bytes × τ
  status : Cmd → τ → Except Errno ℕ × τ

/-- The first octets of an answer. -/
def Remote.octets {τ : Type} (server : Remote τ) (n : ℕ) (c : Cmd) (t : τ) :
    Except Errno Bytes × τ :=
  ((server.data c t).1.map (fetch · 0 n), (server.data c t).2)

/-- The server, with the commands it has been sent. The record is what the theorems about commands
speak of. -/
structure Far (τ : Type) : Type where
  server : τ
  cmds : List Cmd

variable {τ : Type}

/-- A `shell_*` function: the path in the buffer is quoted for good, or refused. -/
def issue {ρ : Type} (answer : Cmd → τ → Except Errno ρ × τ) (b : Bytes → Option Cmd)
    (name : Bytes) (s : Far τ) : Done ρ (Far τ) :=
  match b name with
  | none => ⟨.error .enametoolong, name, s⟩
  | some c =>
    ⟨(answer c s.server).1, (checkPath name).getD name, (answer c s.server).2, s.cmds ++ [c]⟩

/-- `shell_read` and `shell_write` as `info->fops`, on a mount with this `fcache_size`. A read takes
as many octets as it has asked for. -/
def shellFops (server : Remote τ) (size : ℕ) : Fops (Far τ) where
  read name off n ino :=
    issue (server.octets n) (shellReadCmd · (.ofNat off) (.ofNat n) (.ofNat ino)) name
  write name off d ino :=
    issue server.status (shellWriteCmd (.ofNat size) · (.ofNat off) (.ofNat d.length) (.ofNat ino))
      name

/-- The attribute commands of `info->fops`. -/
def shellAops (server : Remote τ) : Aops (Far τ) where
  chmod name mode := issue server.status (shellChmod · mode) name
  chown name user := issue server.status (shellChown · user) name
  chgrp name group := issue server.status (shellChgrp · group) name
  trunc name size := issue server.status (shellTrunc · size) name
  settime name which sec := issue server.status (shellSettime · which sec) name

/-! ## The trail of a path buffer -/

/-- Does the path fit in its buffer after quoting? -/
def Fits (path : Bytes) : Prop := (quoteText path).length + 1 ≤ SHFS_PATH_MAX

/-- The buffer and the commands after `n` or more calls of `issue` with the buffer of a path. The
buffer holds the path quoted once for each command, and every command has it quoted once more than
the command before. -/
structure Trail (path : Bytes) (n : ℕ) (name : Bytes) (cmds : List Cmd) : Prop where
  text : name = quoteText^[cmds.length] path
  room : name.length + 1 ≤ SHFS_PATH_MAX
  carried : ∀ (i : ℕ) (c : Cmd), cmds[i]? = some c → c.Carries (quoteText^[i] path)
  many : n ≤ cmds.length

/-- All commands name the file: the first argument that the server reads in each of them is this
path. -/
def SameFile (path : Bytes) (cmds : List Cmd) : Prop := ∀ c ∈ cmds, c.path = some path

theorem zero_notMem_iterate {path : Bytes} (h : (0 : Byte) ∉ path) (n : ℕ) :
    (0 : Byte) ∉ quoteText^[n] path := by
  induction n with
  | zero => exact h
  | succ n ih =>
    rw [Function.iterate_succ_apply']
    intro hm
    rcases mem_quoteText hm with h' | h' | h'
    · exact ih h'
    · cases h'
    · cases h'

theorem le_length_iterate (path : Bytes) (n : ℕ) :
    path.length ≤ (quoteText^[n] path).length := by
  induction n with
  | zero => exact Nat.le_refl _
  | succ n ih =>
    rw [Function.iterate_succ_apply', length_quoteText]
    omega

section Trail

variable {path name : Bytes} {n : ℕ} {cmds : List Cmd} {s : Far τ}

theorem Trail.start (h : Fits path) : Trail path 0 path [] := by
  refine ⟨rfl, ?_, fun i c hc => ?_, Nat.le_refl 0⟩
  · have := le_length_iterate path 1
    exact (Nat.succ_le_succ this).trans h
  · rw [List.getElem?_nil] at hc
    cases hc

theorem Trail.mono (h : Trail path n name cmds) {m : ℕ} (hm : m ≤ n) : Trail path m name cmds :=
  ⟨h.text, h.room, h.carried, hm.trans h.many⟩

/-- **One more command**: it is refused, and nothing changes, or it carries the path as it is in
the buffer, and leaves it quoted once more. -/
theorem Trail.issue {ρ : Type} (answer : Cmd → τ → Except Errno ρ × τ) {b : Bytes → Option Cmd}
    (hb : Builds b) (hnul : (0 : Byte) ∉ path) (h : Trail path n name s.cmds) :
    (¬ Fits name ∧ Shfs.issue answer b name s = ⟨.error .enametoolong, name, s⟩) ∨
      (Fits name ∧ ∃ c, Shfs.issue answer b name s =
          ⟨(answer c s.server).1, quoteText name, (answer c s.server).2, s.cmds ++ [c]⟩ ∧
        Trail path (n + 1) (quoteText name) (s.cmds ++ [c])) := by
  obtain ⟨k, hk, hcarries⟩ := hb
  have hname0 : (0 : Byte) ∉ name := h.text ▸ zero_notMem_iterate hnul _
  have hroom := h.room
  have hcheck := checkPath_eq hname0 (by omega)
  unfold Shfs.issue
  rw [hk, onPath, hcheck]
  by_cases hfit : Fits name
  · right
    have : ¬ (quoteText name).length + 1 > SHFS_PATH_MAX := Nat.not_lt.mpr hfit
    rw [if_neg this]
    refine ⟨hfit, k (quoteText name), rfl, ?_, hfit, fun i c hc => ?_, ?_⟩
    · rw [List.length_append, List.length_singleton, Function.iterate_succ_apply', ← h.text]
    · -- the last command is the new one
      rcases Nat.lt_trichotomy i s.cmds.length with hlt | rfl | hgt
      · rw [List.getElem?_append_left hlt] at hc
        exact h.carried i c hc
      · rw [List.getElem?_append_right (Nat.le_refl _), Nat.sub_self] at hc
        obtain rfl := Option.some.inj hc
        rw [← h.text]
        exact hcarries name
      · rw [List.getElem?_eq_none (by rw [List.length_append]; exact hgt)] at hc
        cases hc
    · rw [List.length_append]
      exact Nat.succ_le_succ h.many
  · left
    rw [if_pos (Nat.lt_of_not_le hfit)]
    exact ⟨hfit, rfl⟩

/-- A command keeps the trail. -/
theorem Trail.keep {ρ : Type} {answer : Cmd → τ → Except Errno ρ × τ} {b : Bytes → Option Cmd}
    (hb : Builds b) (hnul : (0 : Byte) ∉ path) (h : Trail path n name s.cmds) :
    Trail path n (Shfs.issue answer b name s).name (Shfs.issue answer b name s).remote.cmds := by
  rcases h.issue answer hb hnul with ⟨-, heq⟩ | ⟨-, c, heq, htrail⟩
  · rw [heq]
    exact h
  · rw [heq]
    exact htrail.mono (Nat.le_succ n)

/-- A command whose path fits makes the trail longer. -/
theorem Trail.grow {ρ : Type} {answer : Cmd → τ → Except Errno ρ × τ} {b : Bytes → Option Cmd}
    (hb : Builds b) (hnul : (0 : Byte) ∉ path) (hfit : Fits name) (h : Trail path n name s.cmds) :
    Trail path (n + 1) (Shfs.issue answer b name s).name
      (Shfs.issue answer b name s).remote.cmds := by
  rcases h.issue answer hb hnul with ⟨hn, -⟩ | ⟨-, c, heq, htrail⟩
  · exact absurd hfit hn
  · rw [heq]
    exact htrail

/-- One command adds at most one to the trail. -/
theorem length_issue {ρ : Type} (answer : Cmd → τ → Except Errno ρ × τ) (b : Bytes → Option Cmd)
    (name : Bytes) (s : Far τ) :
    (issue answer b name s).remote.cmds.length ≤ s.cmds.length + 1 := by
  unfold Shfs.issue
  split
  · exact Nat.le_succ _
  · rw [List.length_append, List.length_singleton]

/-- **The commands of a trail name the same file** when the path has no quote, or there is at most
one of them. -/
theorem Trail.sameFile_iff (h : Trail path n name cmds) :
    SameFile path cmds ↔ apos ∉ path ∨ cmds.length ≤ 1 := by
  constructor
  · intro hsame
    by_contra hn
    simp only [not_or, not_not, not_le] at hn
    obtain ⟨hquote, hlen⟩ := hn
    -- the second command carries the path with its quotes doubled
    have hcarries := (h.carried 1 cmds[1] (List.getElem?_eq_getElem hlen)).path
    have := hsame cmds[1] (List.getElem_mem hlen)
    rw [this] at hcarries
    exact quoteText_eq_self_iff.mp (Option.some.inj hcarries).symm hquote
  · intro hor c hc
    obtain ⟨i, hi, rfl⟩ := List.mem_iff_getElem.mp hc
    have hcarries := (h.carried i cmds[i] (List.getElem?_eq_getElem hi)).path
    rcases hor with hquote | hlen
    · rw [Function.iterate_fixed (quoteText_eq_self hquote)] at hcarries
      exact hcarries
    · obtain rfl : i = 0 := by omega
      exact hcarries

/-- A second command means that the path fits quoted twice. -/
theorem Trail.fits_twice (h : Trail path n name cmds) (hlen : 2 ≤ cmds.length) :
    Fits (quoteText path) := by
  have hroom := h.room
  obtain ⟨n, hn⟩ := Nat.exists_eq_add_of_le' hlen
  have hname := h.text
  rw [hn, Function.iterate_add_apply] at hname
  have hle := le_length_iterate (quoteText^[2] path) n
  rw [← hname] at hle
  exact (Nat.succ_le_succ hle).trans hroom

/-- With one command behind it, the buffer holds the path quoted once. -/
theorem Trail.name_eq (h : Trail path n name cmds) (hlen : cmds.length = 1) :
    name = quoteText path := by
  rw [h.text, hlen]
  rfl

end Trail

/-! ## The calls -/

/-- The path of a dentry. -/
def Dentry.text (d : Dentry) : Bytes := if d.len = 0 then [47] else d.path

theorem Dentry.length_path (d : Dentry) : d.path.length = d.len := by
  induction d with
  | root => rfl
  | child parent name ih =>
    rw [Dentry.path, Dentry.len, List.length_append, List.length_cons, ih]

/-- A path that fits is what `get_name` returns. -/
theorem getName_text {d : Dentry} (h : Fits d.text) (stack : Bytes) :
    getName d stack = (1, d.text) := by
  have hlen : d.len ≤ d.text.length := by
    unfold Dentry.text
    split
    · next h => exact h ▸ Nat.zero_le _
    · exact d.length_path.ge
  have hle := le_length_iterate d.text 1
  have hfit : ¬ d.len + 1 > SHFS_PATH_MAX :=
    Nat.not_lt.mpr ((Nat.succ_le_succ (hlen.trans hle)).trans h)
  unfold getName Dentry.text
  rw [if_neg hfit]
  split <;> rfl

/-- What `fcache_file_read` is asked for: `count` octets, which can be rounded up to pages from the
start of the first one on. When they cannot, `readahead` wraps around, and the next line divides by
the 0 that is left of it. -/
structure Span : Type where
  offset : ℕ
  count : ℕ
  below : offset < 2 ^ 32
  rounds : offset % PAGE_SIZE + count + PAGE_SIZE ≤ 2 ^ 32
  deriving DecidableEq, Repr

theorem pageOffset_below (index : ℕ) : index * PAGE_SIZE % 2 ^ 32 < 2 ^ 32 :=
  Nat.mod_lt _ (Nat.two_pow_pos 32)

theorem pageOffset_rounds (index : ℕ) :
    index * PAGE_SIZE % 2 ^ 32 % PAGE_SIZE + PAGE_SIZE + PAGE_SIZE ≤ 2 ^ 32 := by
  unfold PAGE_SIZE
  omega

/-- A page, at the `unsigned` offset of its index. -/
def Span.page (index : ℕ) : Span :=
  ⟨index * PAGE_SIZE % 2 ^ 32, PAGE_SIZE, pageOffset_below index, pageOffset_rounds index⟩

/-- A call of one of the three functions that send commands for one path: a `setattr`, a read and a
write through the cache. The offset of a read or a write is an `unsigned`, as it is for the
functions. -/
inductive PathCall : Type where
  | notify (info : MountOpts) (verdicts : Verdicts) (attr : Iattr) (inode : Stat)
  | read (span : Span)
  | write (offset : UInt32) (buffer : Bytes)

/-- The slot, with a far side that has not seen a command yet. -/
def Slot.watch (s : Slot τ) : Slot (Far τ) := ⟨s.cache, s.free, ⟨s.remote, []⟩⟩

section Calls

variable (server : Remote τ) (size fuel : ℕ) (mem : Memory) (f : File) (s : Slot τ)

/-- The commands that a call on `f` issues. -/
def PathCall.cmds : PathCall → Option (List Cmd)
  | notify info verdicts attr inode =>
    some (shfsNotifyChange (shellAops server) info verdicts f.dentry f.stack attr inode
      s.watch.remote).2.2.cmds
  | read span =>
    (fcacheFileRead (shellFops server size) size fuel mem f span.offset span.count s.watch).map
      fun r => r.2.remote.cmds
  | write offset buffer =>
    (fcacheFileWrite (shellFops server size) size fuel mem f offset.toNat buffer s.watch).map
      fun r => r.2.remote.cmds

/-- Has the first command of a request to change attributes no second one behind it? -/
def Alone.notify (info : MountOpts) (verdicts : Verdicts) (attr : Iattr) : Prop :=
  (∃ e, verdicts.change = .error e) ∨ info.readonly = true ∨
    match attr.asks with
    | a :: _ :: _ =>
      match (a.op (shellAops server) attr f.dentry.text ⟨s.remote, []⟩).result with
      | .error _ => True
      | .ok n => ∃ e, a.verdict verdicts n = .error e
    | _ => True

/-- Is a read through this buffer done with one command? The octets it does not find are clean, and
one refill has them all, or fails. -/
def Alone.read (c : FCache) (offset count : ℕ) : Prop :=
  let v := (⟨f.dentry.text, offset, count, [], c, ⟨s.remote, []⟩⟩ : Reading (Far τ)).hit
  let o := pageBase v.offset
  let ahead := readahead size v.offset v.count (c.meet v.offset).count
  v.count = 0 ∨ c.type = .read ∧
    ((∃ e, ((shellFops server size).read f.dentry.text o ahead 0 ⟨s.remote, []⟩).result =
      .error e) ∨ ahead < v.offset - o ∨ v.offset - o + v.count ≤ ahead)

/-- Is a write through this buffer done with one command? What it does not take at once goes in one
round, or the first one fails; and there is no octet to be sent ahead. -/
def Alone.write (ino : ℕ) (c : FCache) (offset : ℕ) (buffer : Bytes) : Prop :=
  let v := Writing.start size f.dentry.text offset buffer c (⟨s.remote, []⟩ : Far τ)
  v.count = 0 ∨
    match ((shellFops server size).write f.dentry.text v.cache.offset v.cache.held ino
      ⟨s.remote, []⟩).result with
    | .error _ => ¬ (c.new = true ∧ v.wrote ≠ 0)
    | .ok _ => v.count ≤ size ∧ c.new = false

/-- Does the call need at most one command? For a `setattr` that is so when nothing or one attribute
is asked for, or when nothing is done behind the first command. For a read or a write it is a
question of the buffer, and of what the server answers to the first command. -/
def PathCall.Alone : PathCall → Prop
  | notify info verdicts attr _ => Alone.notify server f s info verdicts attr
  | read span =>
    ∀ ino name c, f.checkName = .ok (ino, name) → (s.alloc mem).cache = some c →
      Alone.read server size f s c span.offset span.count
  | write offset buffer =>
    ∀ ino name c, f.checkName = .ok (ino, name) → (s.alloc mem).cache = some c →
      Alone.write server size f s ino c offset.toNat buffer

end Calls

/-! ## Counting the commands of a call -/

/-- What a call leaves: a trail, with a second command unless the call needs just one or the path
does not fit a second time. -/
def LeavesTrail (path : Bytes) (alone : Prop) (cmds : List Cmd) : Prop :=
  ∃ name, Trail path 0 name cmds ∧ (alone → cmds.length ≤ 1) ∧
    (¬ alone → Fits (quoteText path) → 2 ≤ cmds.length)

theorem LeavesTrail.sameFile_iff {path : Bytes} {alone : Prop} {cmds : List Cmd}
    (h : LeavesTrail path alone cmds) :
    SameFile path cmds ↔ apos ∉ path ∨ ¬ Fits (quoteText path) ∨ alone := by
  obtain ⟨name, htrail, hone, htwo⟩ := h
  rw [htrail.sameFile_iff]
  refine or_congr_right ⟨fun hlen => ?_, fun hor => ?_⟩
  · by_contra hn
    obtain ⟨hfit, halone⟩ := not_or.mp hn
    have := htwo halone (not_not.mp hfit)
    omega
  · rcases hor with hfit | halone
    · by_contra hlen
      exact hfit (htrail.fits_twice (Nat.lt_of_not_le hlen))
    · exact hone halone

theorem LeavesTrail.congr {path : Bytes} {p q : Prop} {cmds : List Cmd}
    (h : LeavesTrail path p cmds) (hpq : p ↔ q) : LeavesTrail path q cmds := propext hpq ▸ h

section Reads

variable {σ : Type} (ops : Fops σ) (size : ℕ)

/-- The command of a round. -/
def Reading.request (v : Reading σ) : Done Bytes σ :=
  ops.read v.name (pageBase v.offset)
    (readahead size v.offset v.count (v.cache.meet v.offset).count) 0 v.remote

/-- A round without an answer. -/
theorem Reading.fill_error {v : Reading σ} {e : Errno}
    (h : (v.request ops size).result = .error e) :
    ∃ v', v.fill ops size = .inl (e, v') ∧ v'.name = (v.request ops size).name ∧
      v'.remote = (v.request ops size).remote := by
  unfold Reading.request at h ⊢
  unfold Reading.fill
  dsimp only
  rw [h]
  exact ⟨_, rfl, rfl, rfl⟩

/-- A round, as far as the next one looks at it. -/
theorem Reading.fill_ok {v : Reading σ} {d : Bytes} (h : (v.request ops size).result = .ok d) :
    ∃ v', v.fill ops size = .inr v' ∧ v'.name = (v.request ops size).name ∧
      v'.remote = (v.request ops size).remote ∧
      v'.count = v.count -
        if d.length < v.offset - pageBase v.offset ∨
            d.length - (v.offset - pageBase v.offset) > v.count then v.count
        else d.length - (v.offset - pageBase v.offset) := by
  unfold Reading.request at h ⊢
  unfold Reading.fill
  dsimp only
  rw [h]
  exact ⟨_, rfl, rfl, rfl, rfl⟩

end Reads

section Writes

variable {σ : Type} (ops : Fops σ) (size ino : ℕ)

/-- The command of a round. -/
def Writing.request (v : Writing σ) : Done ℕ σ :=
  ops.write v.name v.cache.offset v.cache.held ino v.remote

/-- A round whose write fails. -/
theorem Writing.drain_error {v : Writing σ} {e : Errno}
    (h : (v.request ops ino).result = .error e) :
    ∃ v', v.drain ops size ino = .inl v' ∧ v'.name = (v.request ops ino).name ∧
      v'.remote = (v.request ops ino).remote ∧ v'.cache.new = v.cache.new ∧ v'.wrote = v.wrote := by
  unfold Writing.request at h ⊢
  unfold Writing.drain
  dsimp only
  rw [h]
  exact ⟨_, rfl, rfl, rfl, rfl, rfl⟩

/-- A round, as far as what comes behind looks at it. -/
theorem Writing.drain_ok {v : Writing σ} {n : ℕ} (h : (v.request ops ino).result = .ok n) :
    ∃ v', v.drain ops size ino = .inr v' ∧ v'.name = (v.request ops ino).name ∧
      v'.remote = (v.request ops ino).remote ∧ v'.cache.new = v.cache.new ∧
      v'.count = v.count - min v.count size ∧ v'.wrote = v.wrote + min v.count size := by
  have hmin : (if v.count > size then size else v.count) = min v.count size := by
    split <;> omega
  unfold Writing.request at h ⊢
  unfold Writing.drain
  dsimp only
  rw [h, hmin]
  exact ⟨_, rfl, rfl, rfl, rfl, List.length_drop, rfl⟩

theorem Writing.Puts.far {v v' : Writing σ} (h : v.Puts size v') :
    v'.name = v.name ∧ v'.remote = v.remote ∧ v'.cache.new = v.cache.new := by
  rcases h with rfl | ⟨o, n, -, -, -, -, rfl⟩
  · exact ⟨rfl, rfl, rfl⟩
  · exact ⟨rfl, rfl, rfl⟩

theorem Writing.start_far (name : Bytes) (offset : ℕ) (buffer : Bytes) (c : FCache) (remote : σ) :
    (Writing.start size name offset buffer c remote).name = name ∧
      (Writing.start size name offset buffer c remote).remote = remote ∧
      (Writing.start size name offset buffer c remote).cache.new = c.new := by
  obtain ⟨hn, hr, hc⟩ := (Writing.overwrite_puts
    ⟨name, offset, buffer, 0, c.forWrite offset, remote, none⟩).far
  obtain ⟨hn', hr', hc'⟩ := (Writing.append_puts
    (Writing.overwrite size ⟨name, offset, buffer, 0, c.forWrite offset, remote, none⟩)).far
  refine ⟨hn'.trans hn, hr'.trans hr, hc'.trans (hc.trans ?_)⟩
  unfold FCache.forWrite
  split <;> rfl

end Writes

/-- What a command does to the trail it is part of. -/
structure Sends {ρ : Type} (path name : Bytes) (s : Far τ) (d : Done ρ (Far τ)) : Prop where
  keep : ∀ n, Trail path n name s.cmds → Trail path n d.name d.remote.cmds
  grow : ∀ n, Fits name → Trail path n name s.cmds → Trail path (n + 1) d.name d.remote.cmds
  length : d.remote.cmds.length ≤ s.cmds.length + 1

theorem Sends.of_builds {ρ : Type} {answer : Cmd → τ → Except Errno ρ × τ} {b : Bytes → Option Cmd}
    {path : Bytes} (hb : Builds b) (hnul : (0 : Byte) ∉ path) (name : Bytes) (s : Far τ) :
    Sends path name s (issue answer b name s) :=
  ⟨fun _ => Trail.keep hb hnul, fun _ hfit => Trail.grow hb hnul hfit, length_issue answer b name s⟩

section LeavesTrail

variable (server : Remote τ) (size : ℕ) {fuel : ℕ} {path : Bytes} (hnul : (0 : Byte) ∉ path)

include hnul

theorem sends_read (name : Bytes) (off k ino : ℕ) (s : Far τ) :
    Sends path name s ((shellFops server size).read name off k ino s) :=
  Sends.of_builds (builds_read (.ofNat off) (.ofNat k) (.ofNat ino)) hnul name s

theorem sends_write (name : Bytes) (off : ℕ) (d : Bytes) (ino : ℕ) (s : Far τ) :
    Sends path name s ((shellFops server size).write name off d ino s) :=
  Sends.of_builds (builds_write (.ofNat size) (.ofNat off) (.ofNat d.length) (.ofNat ino)) hnul
    name s

theorem sends_op (attr : Iattr) (a : AttrCmd) (name : Bytes) (s : Far τ) :
    Sends path name s (a.op (shellAops server) attr name s) := by
  cases a with
  | chmod => exact Sends.of_builds (builds_chmod _) hnul name s
  | chown => exact Sends.of_builds (builds_chown _) hnul name s
  | chgrp => exact Sends.of_builds (builds_chgrp _) hnul name s
  | trunc => exact Sends.of_builds (builds_trunc _) hnul name s
  | settime which => cases which <;> exact Sends.of_builds (builds_settime _ _) hnul name s

/-! ### Reading -/

theorem sends_request (v : Reading (Far τ)) :
    Sends path v.name v.remote (v.request (shellFops server size) size) :=
  sends_read server size hnul _ _ _ _ _

/-- The rounds of a read stay on the trail. -/
theorem Reading.loop_trail {n : ℕ} {v : Reading (Far τ)}
    {r : (Errno × Reading (Far τ)) ⊕ Reading (Far τ)} (hv : Trail path n v.name v.remote.cmds)
    (h : loop (fun v => decide (v.count ≠ 0)) (Reading.fill (shellFops server size) size) fuel v =
      some r) :
    Trail path n (r.elim Prod.snd id).name (r.elim Prod.snd id).remote.cmds := by
  have hrule := loop_rule (fun v : Reading (Far τ) => Trail path n v.name v.remote.cmds)
    (fun r : Errno × Reading (Far τ) => Trail path n r.2.name r.2.remote.cmds)
    (fun v hv _ => by
      have hkeep := (sends_request server size hnul v).keep n hv
      cases hres : (v.request (shellFops server size) size).result with
      | error e =>
        obtain ⟨v', hv', hname, hremote⟩ := Reading.fill_error (shellFops server size) size hres
        rw [hv']
        simp only [Sum.elim_inl, hname, hremote]
        exact hkeep
      | ok d =>
        obtain ⟨v', hv', hname, hremote, -⟩ := Reading.fill_ok (shellFops server size) size hres
        rw [hv']
        simp only [Sum.elim_inr, hname, hremote]
        exact hkeep)
    hv h
  cases r with
  | inl r => exact hrule
  | inr v => exact hrule.1

/-- A read that still needs octets sends one more command, if the path fits. -/
theorem Reading.loop_grow {n : ℕ} {v : Reading (Far τ)}
    {r : (Errno × Reading (Far τ)) ⊕ Reading (Far τ)} (hv : Trail path n v.name v.remote.cmds)
    (hfit : Fits v.name) (hcount : v.count ≠ 0)
    (h : loop (fun v => decide (v.count ≠ 0)) (Reading.fill (shellFops server size) size) fuel v =
      some r) :
    Trail path (n + 1) (r.elim Prod.snd id).name (r.elim Prod.snd id).remote.cmds := by
  have hgrow := (sends_request server size hnul v).grow n hfit hv
  cases fuel with
  | zero =>
    rw [loop, if_pos (decide_eq_true hcount)] at h
    cases h
  | succ fuel =>
    rw [loop, if_pos (decide_eq_true hcount)] at h
    cases hres : (v.request (shellFops server size) size).result with
    | error e =>
      obtain ⟨v', hv', hname, hremote⟩ := Reading.fill_error (shellFops server size) size hres
      rw [hv'] at h
      obtain rfl := Option.some.inj h
      simp only [Sum.elim_inl, hname, hremote]
      exact hgrow
    | ok d =>
      obtain ⟨v', hv', hname, hremote, -⟩ := Reading.fill_ok (shellFops server size) size hres
      rw [hv'] at h
      refine Reading.loop_trail (v := v') server size hnul ?_ h
      rw [hname, hremote]
      exact hgrow

/-! ### Writing -/

theorem sends_drain (ino : ℕ) (v : Writing (Far τ)) :
    Sends path v.name v.remote (v.request (shellFops server size) ino) :=
  sends_write server size hnul _ _ _ _ _

/-- The rounds of a write stay on the trail. -/
theorem Writing.loop_trail {n ino : ℕ} {v : Writing (Far τ)} {r : Writing (Far τ) ⊕ Writing (Far τ)}
    (hv : Trail path n v.name v.remote.cmds)
    (h : loop (fun v => decide (v.count ≠ 0)) (Writing.drain (shellFops server size) size ino)
      fuel v = some r) :
    Trail path n (r.elim id id).name (r.elim id id).remote.cmds := by
  have hrule := loop_rule (fun v : Writing (Far τ) => Trail path n v.name v.remote.cmds)
    (fun v : Writing (Far τ) => Trail path n v.name v.remote.cmds)
    (fun v hv _ => by
      have hkeep := (sends_drain server size hnul ino v).keep n hv
      cases hres : (v.request (shellFops server size) ino).result with
      | error e =>
        obtain ⟨v', hv', hname, hremote, -⟩ :=
          Writing.drain_error (shellFops server size) size ino hres
        rw [hv']
        simp only [Sum.elim_inl, hname, hremote]
        exact hkeep
      | ok n =>
        obtain ⟨v', hv', hname, hremote, -⟩ :=
          Writing.drain_ok (shellFops server size) size ino hres
        rw [hv']
        simp only [Sum.elim_inr, hname, hremote]
        exact hkeep)
    hv h
  cases r with
  | inl v => exact hrule
  | inr v => exact hrule.1

/-- A write that is not done sends one more command, if the path fits. -/
theorem Writing.loop_grow {n ino : ℕ} {v : Writing (Far τ)} {r : Writing (Far τ) ⊕ Writing (Far τ)}
    (hv : Trail path n v.name v.remote.cmds) (hfit : Fits v.name) (hcount : v.count ≠ 0)
    (h : loop (fun v => decide (v.count ≠ 0)) (Writing.drain (shellFops server size) size ino)
      fuel v = some r) :
    Trail path (n + 1) (r.elim id id).name (r.elim id id).remote.cmds := by
  have hgrow := (sends_drain server size hnul ino v).grow n hfit hv
  cases fuel with
  | zero =>
    rw [loop, if_pos (decide_eq_true hcount)] at h
    cases h
  | succ fuel =>
    rw [loop, if_pos (decide_eq_true hcount)] at h
    cases hres : (v.request (shellFops server size) ino).result with
    | error e =>
      obtain ⟨v', hv', hname, hremote, -⟩ :=
        Writing.drain_error (shellFops server size) size ino hres
      rw [hv'] at h
      obtain rfl := Option.some.inj h
      simp only [Sum.elim_inl, id_eq, hname, hremote]
      exact hgrow
    | ok n =>
      obtain ⟨v', hv', hname, hremote, -⟩ :=
        Writing.drain_ok (shellFops server size) size ino hres
      rw [hv'] at h
      refine Writing.loop_trail (v := v') server size hnul ?_ h
      rw [hname, hremote]
      exact hgrow

/-- The octet sent ahead stays on the trail, and makes it longer if the path fits. -/
theorem Writing.probe_trail (ino : ℕ) {n : ℕ} {v : Writing (Far τ)}
    (hv : Trail path n v.name v.remote.cmds) :
    Trail path n (v.probe (shellFops server size) ino).name
        (v.probe (shellFops server size) ino).remote.cmds ∧
      (v.probe (shellFops server size) ino).remote.cmds.length ≤ v.remote.cmds.length + 1 ∧
      (¬ (v.cache.new = true ∧ v.wrote ≠ 0) → (v.probe (shellFops server size) ino) = v) ∧
      (v.cache.new = true ∧ v.wrote ≠ 0 → Fits v.name →
        Trail path (n + 1) (v.probe (shellFops server size) ino).name
          (v.probe (shellFops server size) ino).remote.cmds) := by
  unfold Writing.probe
  split
  · next hnew =>
    have hsends := sends_write server size hnul v.name v.cache.offset
      (fetch v.cache.data 0 1) ino v.remote
    exact ⟨hsends.keep n hv, hsends.length, fun hn => absurd hnew hn, fun _ hfit =>
      hsends.grow n hfit hv⟩
  · next hnew => exact ⟨hv, Nat.le_succ _, fun _ => rfl, fun h => absurd h hnew⟩

end LeavesTrail

section Calls

variable {server : Remote τ} {size fuel : ℕ} {mem : Memory} {f : File} {s : Slot τ}

theorem Slot.watch_alloc (mem : Memory) (s : Slot τ) :
    (s.watch.alloc mem).cache = (s.alloc mem).cache ∧
      (s.watch.alloc mem).remote = ⟨s.remote, []⟩ := by
  obtain ⟨cache, free, remote⟩ := s
  cases cache <;> exact ⟨rfl, rfl⟩

theorem checkName_text (hfit : Fits f.dentry.text) {ino : ℕ} {name : Bytes}
    (h : f.checkName = .ok (ino, name)) : name = f.dentry.text := by
  unfold File.checkName at h
  split at h
  · cases h
  · rw [getName_text hfit] at h
    dsimp only at h
    rw [if_neg (by decide)] at h
    unfold Except.map at h
    split at h
    · cases h
    · exact (Prod.mk.inj (Except.ok.inj h)).2.symm

/-- A call without a command leaves its trail. -/
theorem LeavesTrail.nil {path : Bytes} {alone : Prop} (hfit : Fits path) (h : alone) :
    LeavesTrail path alone [] :=
  ⟨path, Trail.start hfit, fun _ => Nat.zero_le _, fun hn => absurd h hn⟩

/-- So does a call with one command. -/
theorem LeavesTrail.one {ρ : Type} {path : Bytes} {alone : Prop} {t : τ} {d : Done ρ (Far τ)}
    (hfit : Fits path) (h : alone) (hd : Sends path path ⟨t, []⟩ d) :
    LeavesTrail path alone d.remote.cmds :=
  ⟨d.name, hd.keep 0 (Trail.start hfit), fun _ => hd.length, fun hn => absurd h hn⟩

variable (hnul : (0 : Byte) ∉ f.dentry.text) (hfit : Fits f.dentry.text)

include hnul hfit

omit hnul hfit in
/-- A read has as many octets as it has asked for. -/
theorem length_shellRead {name : Bytes} {off n ino : ℕ} {t : Far τ} {d : Bytes}
    (h : ((shellFops server size).read name off n ino t).result = .ok d) : d.length = n := by
  replace h : (issue (server.octets n) (shellReadCmd · (.ofNat off) (.ofNat n) (.ofNat ino)) name
    t).result = .ok d := h
  unfold issue at h
  split at h
  · cases h
  · next c _ =>
    replace h : (server.data c t.server).1.map (fetch · 0 n) = .ok d := h
    unfold Except.map at h
    split at h
    · cases h
    · obtain rfl := Except.ok.inj h
      exact length_fetch _ _ _

/-- A read through a buffer leaves its trail. -/
theorem leaves_reading {ino offset count : ℕ} {c : FCache}
    {r : (Errno × Reading (Far τ)) ⊕ Reading (Far τ)}
    (h : loop (fun v => decide (v.count ≠ 0)) (Reading.fill (shellFops server size) size) fuel
      ((⟨f.dentry.text, offset, count, [], c, ⟨s.remote, []⟩⟩ : Reading (Far τ)).hit.flush
        (shellFops server size) ino) = some r) :
    LeavesTrail f.dentry.text (Alone.read server size f s c offset count)
      (r.elim Prod.snd id).remote.cmds := by
  unfold Alone.read
  obtain ⟨hname, hremote⟩ := Reading.hit_name
    (⟨f.dentry.text, offset, count, [], c, ⟨s.remote, []⟩⟩ : Reading (Far τ))
  have hcache := Reading.hit_cache
    (⟨f.dentry.text, offset, count, [], c, ⟨s.remote, []⟩⟩ : Reading (Far τ))
  dsimp only at hname hremote hcache ⊢
  generalize Reading.hit
    (⟨f.dentry.text, offset, count, [], c, ⟨s.remote, []⟩⟩ : Reading (Far τ)) = v at *
  have hstart : Trail f.dentry.text 0 v.name v.remote.cmds := by
    rw [hname, hremote]
    exact Trail.start hfit
  have hsends := sends_request server size hnul v
  by_cases hcount : v.count = 0
  · -- the buffer has all octets
    have hflush : v.flush (shellFops server size) ino = v := if_neg fun hand => hand.1 hcount
    rw [hflush, loop_zero Reading.count hcount] at h
    obtain rfl := Option.some.inj h
    simp only [Sum.elim_inr, id_eq, hremote]
    exact LeavesTrail.nil hfit (Or.inl hcount)
  · cases htype : c.type with
    | write =>
      -- dirty octets are written first
      have hflush : ∃ v', v.flush (shellFops server size) ino = v' ∧ v'.count = v.count ∧
          Sends f.dentry.text v.name v.remote
            (⟨.ok (), v'.name, v'.remote⟩ : Done Unit (Far τ)) := by
        refine ⟨_, if_pos ⟨hcount, by rw [hcache, htype]⟩, rfl, ?_⟩
        obtain ⟨hkeep, hgrow, hlength⟩ := sends_write server size hnul v.name
          v.cache.offset v.cache.held ino v.remote
        exact ⟨hkeep, hgrow, hlength⟩
      obtain ⟨v', hv', hcount', hkeep, hgrow, hlength⟩ := hflush
      rw [hv'] at h
      have hone : Trail f.dentry.text 1 v'.name v'.remote.cmds := hgrow 0 (hname ▸ hfit) hstart
      have hlen : v'.remote.cmds.length = 1 := by
        have := hone.many
        rw [hremote] at hlength
        exact Nat.le_antisymm hlength this
      refine ⟨_, Reading.loop_trail server size hnul (hone.mono (Nat.zero_le 1)) h, fun halone =>
        ?_, fun _ hfits => ?_⟩
      · rcases halone with h0 | ⟨h0, -⟩
        · exact absurd h0 hcount
        · cases h0
      · exact (Reading.loop_grow server size hnul hone (hone.name_eq hlen ▸ hfits)
          (hcount' ▸ hcount) h).many
    -- a clean buffer: the first round of the loop sends the first command
    | read =>
      have hflush : v.flush (shellFops server size) ino = v :=
        if_neg fun hand => by
          rw [hcache, htype] at hand
          exact absurd hand.2 nofun
      rw [hflush] at h
      have hrequest : v.request (shellFops server size) size =
          (shellFops server size).read f.dentry.text (pageBase v.offset)
            (readahead size v.offset v.count (c.meet v.offset).count) 0 ⟨s.remote, []⟩ := by
        rw [Reading.request, hname, hremote, hcache]
      rw [← hrequest]
      cases fuel with
      | zero =>
        rw [loop, if_pos (decide_eq_true hcount)] at h
        cases h
      | succ fuel =>
        rw [loop, if_pos (decide_eq_true hcount)] at h
        cases hres : (v.request (shellFops server size) size).result with
        | error e =>
          obtain ⟨v', hv', -, hremote'⟩ := Reading.fill_error (shellFops server size) size hres
          rw [hv'] at h
          obtain rfl := Option.some.inj h
          simp only [Sum.elim_inl, hremote']
          rw [hname, hremote] at hsends
          exact LeavesTrail.one hfit (Or.inr ⟨trivial, Or.inl ⟨e, rfl⟩⟩) hsends
        | ok d =>
          obtain ⟨v', hv', hname', hremote', hleft⟩ :=
            Reading.fill_ok (shellFops server size) size hres
          rw [hv'] at h
          have hd := length_shellRead (hrequest ▸ hres)
          rw [hd] at hleft
          by_cases hround : readahead size v.offset v.count (c.meet v.offset).count <
                v.offset - pageBase v.offset ∨
              v.offset - pageBase v.offset + v.count ≤
                readahead size v.offset v.count (c.meet v.offset).count
          · -- one round has filled the rest
            have hdone : v'.count = 0 := by
              rw [hleft]
              split <;> omega
            replace h := (loop_zero Reading.count hdone fuel).symm.trans h
            obtain rfl := Option.some.inj h
            simp only [Sum.elim_inr, id_eq, hremote']
            rw [hname, hremote] at hsends
            exact LeavesTrail.one hfit (Or.inr ⟨trivial, Or.inr hround⟩) hsends
          -- there are more rounds, and the second command has the path quoted twice
          · have hmore : v'.count ≠ 0 := by
              rw [hleft]
              split <;> omega
            have hone : Trail f.dentry.text 1 v'.name v'.remote.cmds := by
              rw [hname', hremote']
              exact hsends.grow 0 (hname ▸ hfit) hstart
            have hlen : v'.remote.cmds.length = 1 := by
              have hlength := hsends.length
              rw [hremote] at hlength
              rw [hremote'] at hone ⊢
              exact Nat.le_antisymm hlength hone.many
            refine ⟨_, Reading.loop_trail server size hnul (hone.mono (Nat.zero_le 1)) h,
              fun halone => ?_, fun _ hfits => ?_⟩
            · rcases halone with h0 | ⟨-, ⟨e, he⟩ | h0⟩
              · exact absurd h0 hcount
              · cases he
              · exact absurd h0 hround
            · exact (Reading.loop_grow server size hnul hone (hone.name_eq hlen ▸ hfits) hmore
                h).many

/-- A write through a buffer leaves its trail. -/
theorem leaves_writing {ino offset : ℕ} {buffer : Bytes} {c : FCache}
    {r : Writing (Far τ) ⊕ Writing (Far τ)}
    (h : loop (fun v => decide (v.count ≠ 0)) (Writing.drain (shellFops server size) size ino) fuel
      (Writing.start size f.dentry.text offset buffer c (⟨s.remote, []⟩ : Far τ)) = some r) :
    LeavesTrail f.dentry.text (Alone.write server size f s ino c offset buffer)
      ((r.elim id id).probe (shellFops server size) ino).remote.cmds := by
  unfold Alone.write
  obtain ⟨hname, hremote, hnew⟩ := Writing.start_far size f.dentry.text offset buffer c
    (⟨s.remote, []⟩ : Far τ)
  dsimp only
  generalize Writing.start size f.dentry.text offset buffer c (⟨s.remote, []⟩ : Far τ) = v at *
  have hstart : Trail f.dentry.text 0 v.name v.remote.cmds := by
    rw [hname, hremote]
    exact Trail.start hfit
  have hsends := sends_drain server size hnul ino v
  by_cases hcount : v.count = 0
  · -- the buffer takes all octets, and one may be sent ahead
    rw [loop_zero Writing.count hcount] at h
    obtain rfl := Option.some.inj h
    obtain ⟨hkeep, hlength, -, -⟩ := Writing.probe_trail server size hnul ino hstart
    refine ⟨_, hkeep, fun _ => ?_, fun hn => absurd (Or.inl hcount) hn⟩
    rwa [hremote] at hlength
  · have hrequest : v.request (shellFops server size) ino =
        (shellFops server size).write f.dentry.text v.cache.offset v.cache.held ino
          ⟨s.remote, []⟩ := by
      rw [Writing.request, hname, hremote]
    rw [← hrequest]
    cases fuel with
    | zero =>
      rw [loop, if_pos (decide_eq_true hcount)] at h
      cases h
    | succ fuel =>
      rw [loop, if_pos (decide_eq_true hcount)] at h
      -- the first round writes the buffer out, and this is one command
      have hone := hsends.grow 0 (hname ▸ hfit) hstart
      have hlength := hsends.length
      rw [hremote] at hlength
      have hlen := Nat.le_antisymm hlength hone.many
      cases hres : (v.request (shellFops server size) ino).result with
      | error e =>
        obtain ⟨v', hv', hname', hremote', hnew', hwrote'⟩ :=
          Writing.drain_error (shellFops server size) size ino hres
        rw [hv'] at h
        obtain rfl := Option.some.inj h
        rw [← hname', ← hremote'] at hone
        rw [← hremote'] at hlen
        obtain ⟨hkeep, -, hsame, hgrow⟩ := Writing.probe_trail server size hnul ino hone
        rw [hnew', hnew, hwrote'] at hsame hgrow
        refine ⟨_, hkeep.mono (Nat.zero_le 1), fun halone => ?_, fun halone hfits => ?_⟩
        · rcases halone with h0 | h0
          · exact absurd h0 hcount
          · rw [Sum.elim_inl, id_eq, hsame h0]
            exact hlen.le
        · have hsent : c.new = true ∧ v.wrote ≠ 0 := by
            by_contra hn
            exact halone (Or.inr hn)
          exact (hgrow hsent (hone.name_eq hlen ▸ hfits)).many
      | ok n =>
        obtain ⟨v', hv', hname', hremote', hnew', hcount', hwrote'⟩ :=
          Writing.drain_ok (shellFops server size) size ino hres
        rw [hv'] at h
        rw [← hname', ← hremote'] at hone
        rw [← hremote'] at hlen
        have hfinal := Writing.loop_trail server size hnul hone h
        obtain ⟨hkeep, -, -, -⟩ := Writing.probe_trail server size hnul ino hfinal
        refine ⟨_, hkeep.mono (Nat.zero_le 1), fun halone => ?_, fun halone hfits => ?_⟩
        · -- the round was the only one, and no octet is sent ahead
          rcases halone with h0 | ⟨hle, hold⟩
          · exact absurd h0 hcount
          · have hdone : v'.count = 0 := by
              rw [hcount', Nat.min_eq_left hle, Nat.sub_self]
            obtain rfl := Option.some.inj ((loop_zero Writing.count hdone fuel).symm.trans h)
            obtain ⟨-, -, hsame, -⟩ := Writing.probe_trail server size hnul ino hone
            rw [Sum.elim_inr, id_eq, hsame]
            · exact hlen.le
            · rw [hnew', hnew, hold]
              exact fun hn => absurd hn.1 (by simp)
        · by_cases hmore : v'.count = 0
          · -- no other round, so the octet is sent ahead
            obtain rfl := Option.some.inj ((loop_zero Writing.count hmore fuel).symm.trans h)
            obtain ⟨-, -, -, hgrow⟩ := Writing.probe_trail server size hnul ino hone
            have hsize : v.count ≤ size := by omega
            refine (hgrow ⟨?_, ?_⟩ (hone.name_eq hlen ▸ hfits)).many
            · rw [hnew', hnew]
              by_contra hold
              exact halone (Or.inr ⟨hsize, Bool.not_eq_true _ ▸ hold⟩)
            · rw [hwrote', Nat.min_eq_left hsize]
              omega
          -- a second round sends the second command
          · have htwo := Writing.loop_grow server size hnul hone (hone.name_eq hlen ▸ hfits) hmore h
            exact (Writing.probe_trail server size hnul ino htwo).1.many

theorem leaves_read {span : Span} {r : Except Errno Bytes × Slot (Far τ)}
    (h : fcacheFileRead (shellFops server size) size fuel mem f span.offset span.count s.watch =
      some r) :
    LeavesTrail f.dentry.text (PathCall.Alone server size mem f s (.read span))
      r.2.remote.cmds := by
  unfold PathCall.Alone
  unfold fcacheFileRead at h
  split at h
  · next e hcheck =>
    obtain rfl := Option.some.inj h
    refine LeavesTrail.nil hfit fun ino name c hok => ?_
    rw [hcheck] at hok
    cases hok
  · next ino name hcheck =>
    obtain rfl := checkName_text hfit hcheck
    obtain ⟨hcache, hremote⟩ := Slot.watch_alloc mem s
    dsimp only at h
    rw [hcache, hremote] at h
    split at h
    · next hnone =>
      obtain rfl := Option.some.inj h
      refine LeavesTrail.one hfit (fun ino name c _ hc => ?_)
        (sends_read server size hnul _ _ _ _ _)
      rw [hnone] at hc
      cases hc
    · next c hsome =>
      obtain ⟨q, hq, rfl⟩ := Option.map_eq_some_iff.mp h
      have hleaves := (leaves_reading hnul hfit hq).congr
        (q := PathCall.Alone server size mem f s (.read span)) ?_
      · cases q <;> exact hleaves
      · refine ⟨fun halone ino' name c' _ hc => ?_, fun halone => halone _ _ c hcheck hsome⟩
        obtain rfl := Option.some.inj (hsome.symm.trans hc)
        exact halone

theorem leaves_write {offset : UInt32} {buffer : Bytes} {r : Except Errno ℕ × Slot (Far τ)}
    (h : fcacheFileWrite (shellFops server size) size fuel mem f offset.toNat buffer s.watch =
      some r) :
    LeavesTrail f.dentry.text (PathCall.Alone server size mem f s (.write offset buffer))
      r.2.remote.cmds := by
  unfold PathCall.Alone
  unfold fcacheFileWrite at h
  split at h
  · next e hcheck =>
    obtain rfl := Option.some.inj h
    refine LeavesTrail.nil hfit fun ino name c hok => ?_
    rw [hcheck] at hok
    cases hok
  · next ino name hcheck =>
    obtain rfl := checkName_text hfit hcheck
    obtain ⟨hcache, hremote⟩ := Slot.watch_alloc mem s
    dsimp only at h
    rw [hcache, hremote] at h
    split at h
    · next hnone =>
      obtain rfl := Option.some.inj h
      refine LeavesTrail.one hfit (fun ino name c _ hc => ?_)
        (sends_write server size hnul _ _ _ _ _)
      rw [hnone] at hc
      cases hc
    · next c hsome =>
      obtain ⟨q, hq, rfl⟩ := Option.map_eq_some_iff.mp h
      refine (leaves_writing hnul hfit hq).congr
        ⟨fun halone ino' name c' hok hc => ?_, fun halone => halone _ _ c hcheck hsome⟩
      obtain rfl := Option.some.inj (hsome.symm.trans hc)
      obtain ⟨rfl, -⟩ := Prod.mk.inj (Except.ok.inj (hcheck.symm.trans hok))
      exact halone

/-! ### Changing attributes -/

omit hfit in
/-- The rest of the request stays on the trail. -/
theorem Change.foldl_trail {n : ℕ} {info : MountOpts} {verdicts : Verdicts} {attr : Iattr}
    {v : Change (Far τ)} (hv : Trail f.dentry.text n v.name v.remote.cmds) (l : List AttrCmd) :
    Trail f.dentry.text n
      (l.foldl (Change.step (shellAops server) info verdicts attr) v).name
      (l.foldl (Change.step (shellAops server) info verdicts attr) v).remote.cmds := by
  induction l generalizing v with
  | nil => exact hv
  | cons a l ih =>
    rw [List.foldl_cons]
    apply ih
    cases hres : v.result with
    | error e => rwa [show Change.step (shellAops server) info verdicts attr v a = v from
        Change.foldl_failed hres [a]]
    | ok m =>
      obtain ⟨hname, hremote, -⟩ := Change.step_ok (shellAops server) info verdicts attr hres a
      rw [hname, hremote]
      exact (sends_op server hnul attr a v.name v.remote).keep n hv

theorem leaves_notify (info : MountOpts) (verdicts : Verdicts) (attr : Iattr) (inode : Stat) :
    LeavesTrail f.dentry.text
      (PathCall.Alone server size mem f s (.notify info verdicts attr inode))
      (shfsNotifyChange (shellAops server) info verdicts f.dentry f.stack attr inode
        s.watch.remote).2.2.cmds := by
  unfold PathCall.Alone Alone.notify
  rw [shfsNotifyChange_eq, getName_text hfit]
  have hstart := Trail.start hfit
  dsimp only [Slot.watch]
  cases hchange : verdicts.change with
  | error e => exact LeavesTrail.nil hfit (Or.inl ⟨e, rfl⟩)
  | ok u =>
    by_cases hro : info.readonly = true
    · simp only [if_pos hro]
      exact LeavesTrail.nil hfit (Or.inr (Or.inl hro))
    · simp only [if_neg hro]
      -- the commands are those that are asked for, up to the first one that fails
      cases hasks : attr.asks with
      | nil => exact LeavesTrail.nil hfit (Or.inr (Or.inr trivial))
      | cons a l =>
        obtain ⟨hname, hremote, hfails⟩ :=
          Change.step_ok (shellAops server) info verdicts attr
            (v := ⟨.ok 0, f.dentry.text, inode, ⟨s.remote, []⟩⟩) rfl a
        have hsends := sends_op server hnul attr a f.dentry.text ⟨s.remote, []⟩
        rw [List.foldl_cons]
        generalize Change.step (shellAops server) info verdicts attr
          ⟨.ok 0, f.dentry.text, inode, ⟨s.remote, []⟩⟩ a = v at *
        dsimp only at hname hremote hfails
        cases l with
        | nil =>
          rw [List.foldl_nil, hremote]
          exact LeavesTrail.one hfit (Or.inr (Or.inr trivial)) hsends
        | cons b l =>
          -- whether there is a second command is up to the first one
          cases hres : v.result with
          | error e =>
            rw [Change.foldl_failed hres, hremote]
            exact LeavesTrail.one hfit (Or.inr (Or.inr (hfails.mp ⟨e, hres⟩))) hsends
          | ok m =>
            have hone : Trail f.dentry.text 1 v.name v.remote.cmds := by
              rw [hname, hremote]
              exact hsends.grow 0 hfit hstart
            have hlen : v.remote.cmds.length = 1 := by
              have hlength := hsends.length
              rw [← hremote] at hlength
              exact Nat.le_antisymm hlength hone.many
            refine ⟨_, (Change.foldl_trail hnul hone (b :: l)).mono (Nat.zero_le 1),
              fun halone => ?_, fun _ hfits => ?_⟩
            · rcases halone with ⟨e, he⟩ | h | h
              · cases he
              · exact absurd h hro
              · obtain ⟨e, he⟩ := hfails.mpr h
                exact absurd (hres.symm.trans he) nofun
            · obtain ⟨hname', hremote', -⟩ :=
                Change.step_ok (shellAops server) info verdicts attr hres b
              have htwo := (sends_op server hnul attr b v.name v.remote).grow 1
                (hone.name_eq hlen ▸ hfits) hone
              rw [← hname', ← hremote'] at htwo
              rw [List.foldl_cons]
              exact (Change.foldl_trail hnul htwo l).many

theorem PathCall.leaves (call : PathCall) {cmds : List Cmd}
    (h : call.cmds server size fuel mem f s = some cmds) :
    LeavesTrail f.dentry.text (call.Alone server size mem f s) cmds := by
  cases call with
  | notify info verdicts attr inode =>
    obtain rfl := Option.some.inj h
    exact leaves_notify hnul hfit info verdicts attr inode
  | read span =>
    obtain ⟨r, hr, rfl⟩ := Option.map_eq_some_iff.mp h
    exact leaves_read hnul hfit hr
  | write offset buffer =>
    obtain ⟨r, hr, rfl⟩ := Option.map_eq_some_iff.mp h
    exact leaves_write hnul hfit hr

/-- **The commands of a call name the same file** exactly when the path has no quote, or does not
fit quoted twice, or the call needs at most one command. A path with a quote is quoted in place, so
the second command quotes it once more. -/
theorem pathCall_sameFile_iff (call : PathCall) {cmds : List Cmd}
    (h : call.cmds server size fuel mem f s = some cmds) :
    SameFile f.dentry.text cmds ↔
      apos ∉ f.dentry.text ∨ ¬ Fits (quoteText f.dentry.text) ∨ call.Alone server size mem f s :=
  (call.leaves hnul hfit h).sameFile_iff

end Calls

/-! ## A name with a quote -/

/-- A server that says yes to everything. -/
def yesServer : Remote Unit := ⟨fun _ t => (.ok [], t), fun _ t => (.ok 0, t)⟩

/-- The file `/it's`. -/
def quoteFile : File := ⟨.child .root (ascii "it's"), some ⟨7, false, true⟩, []⟩

/-- A page without a buffer is read with one command, which names the file. -/
theorem quoteFile_read :
    ∃ cmds, (PathCall.read (.page 3)).cmds yesServer 0 0 ⟨false, none⟩ quoteFile ⟨none, 0, ()⟩ =
        some cmds ∧
      SameFile quoteFile.dentry.text cmds := by
  have halone : (PathCall.read (.page 3)).Alone yesServer 0 ⟨false, none⟩ quoteFile
      ⟨none, 0, ()⟩ := by
    intro ino name c _ hc
    cases hc
  obtain ⟨cmds, hcmds⟩ : ∃ cmds,
      (PathCall.read (.page 3)).cmds yesServer 0 0 ⟨false, none⟩ quoteFile ⟨none, 0, ()⟩ =
        some cmds :=
    ⟨_, rfl⟩
  exact ⟨cmds, hcmds, (pathCall_sameFile_iff (by decide) (by unfold Fits; decide) _ hcmds).mpr
    (Or.inr (Or.inr halone))⟩

/-- Owner and group are changed in one request. -/
def quoteCall : PathCall :=
  .notify ⟨false, false, 0, 0⟩ ⟨.ok (), .ok ()⟩
    ⟨⟨false, true, true, false, false, false⟩, 0, 5, 6, 0, ⟨0, 0⟩, ⟨0, 0⟩⟩
    ⟨0, 0, 0, 0, ⟨0, 0⟩, ⟨0, 0⟩⟩

/-- **The second command names another file** when the path has a quote: the one that quoting it
twice stands for. -/
theorem not_sameFile_quote :
    ¬ ∀ (f : File) (call : PathCall) (cmds : List Cmd), (0 : Byte) ∉ f.dentry.text →
      Fits f.dentry.text →
      call.cmds yesServer 0 0 ⟨false, none⟩ f ⟨none, 0, ()⟩ = some cmds →
      SameFile f.dentry.text cmds := by
  intro h
  refine absurd (h quoteFile quoteCall _ (by decide) (by unfold Fits; decide) rfl) ?_
  unfold SameFile
  decide +kernel

end Shfs
