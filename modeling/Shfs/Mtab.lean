import Shfs.Lib.Bytes
import Shfs.Lib.Sections

/-!
# The table of mounts

After `mount(2)` shfsmount adds an entry to `MOUNTED`, and after `umount(2)` shfsumount copies the
file without the entries of its directory and renames the copy. Both do it in a function called
`update_mtab`, which first makes the lock file `MOUNTED~` with `O_EXCL` and removes it at the end.
Any number of these processes run at once, each of their calls may fail, and each may be killed
between any two calls; a process that does not come to the end leaves the lock file where it is.

`MtabFiles` holds the octets of the two files that are written; the lock file is the lock of
`Lib.Threads`. Inside the lock nobody else renames `MOUNTED`, so a stream that has been opened on it
and the file of that name are the same. What the lines look like is up to the C library (`Mntents`):
it says what `addmntent` writes, piece by piece, and what `getmntent` finds in a file, which skips
lines that are no entries. An `addmntent` leaves nothing in the stream when it returns; one that
fails has written a beginning of its line.

No update is lost, and one that is under way shows at most by the beginning of the new line
(`mtab_account`). But whoever fails inside keeps everybody else out for good (`mtab_frozen`), and
shfsumount does not look at the result of `addmntent`: a copy that is not whole is renamed all the
same, and what is missing there are the mounts of others.
-/

namespace Shfs

open Lib

/-- `struct mntent` -/
structure Mntent : Type where
  fsname : Bytes
  dir : Bytes
  type : Bytes
  opts : Bytes
  freq : ℕ
  passno : ℕ
  deriving DecidableEq, Repr

/-- The entry that shfsmount adds. -/
def shfsMntent (mnt dev opts : Bytes) : Mntent := ⟨dev, mnt, ascii "shfs", opts, 0, 0⟩

/-- The C library: the line that `addmntent` writes for an entry, and the entries that `getmntent`
gets from a file, one after another. -/
structure Mntents : Type where
  line : Mntent → Bytes
  read : Bytes → List Mntent

/-- `MOUNTED` and `MOUNTED.tmp`. -/
structure MtabFiles : Type where
  mtab : Option Bytes
  tmp : Option Bytes

/-- A call of `update_mtab`, by `shfsmount`, which adds an entry, or by `shfsumount`, which takes
the entries of a mount point away. -/
inductive UpdateMtab : Type where
  | shfsmount (mnt dev opts : Bytes)
  | shfsumount (mnt : Bytes)

/-- What `update_mtab` is about to do. `whole` says that every entry that was to be copied has
been. -/
inductive UpdateAt : Type where
  | setmntentAppend (ment : Mntent)
  /-- `addmntent`, with so many octets of the line behind it -/
  | addmntent (ment : Mntent) (sent : ℕ)
  | fchmod
  | setmntentOld (mnt : Bytes)
  | setmntentNew (mnt : Bytes)
  /-- `getmntent`, with so many entries behind it -/
  | getmntent (mnt : Bytes) (behind : ℕ) (whole : Bool)
  | fchmodNew (whole : Bool)
  | rename (whole : Bool)
  | unlink (whole : Bool)

/-- The first call behind the lock. -/
def UpdateMtab.start : UpdateMtab → UpdateAt
  | shfsmount mnt dev opts => .setmntentAppend (shfsMntent mnt dev opts)
  | shfsumount mnt => .setmntentOld mnt

section Steps

variable (lib : Mntents)

/-- One call that works, or a piece of it, or, in the loop of shfsumount, an `addmntent` that does
not work. -/
inductive UpdateStep : UpdateAt → MtabFiles → UpdateAt → MtabFiles → Prop
  | setmntentAppend (ment s) :
    UpdateStep (.setmntentAppend ment) s
      (.addmntent ment 0) { s with mtab := some (s.mtab.getD []) }
  /-- some more octets of the line -/
  | write (ment sent n s) :
    UpdateStep (.addmntent ment sent) s (.addmntent ment (sent + n))
      { s with mtab := s.mtab.map (· ++ ((lib.line ment).drop sent).take n) }
  | addmntent (ment sent s) (hall : (lib.line ment).length ≤ sent) :
    UpdateStep (.addmntent ment sent) s .fchmod s
  | fchmod (s) : UpdateStep .fchmod s (.unlink true) s
  | setmntentOld (mnt s) (h : s.mtab ≠ none) :
    UpdateStep (.setmntentOld mnt) s (.setmntentNew mnt) s
  | setmntentNew (mnt s) :
    UpdateStep (.setmntentNew mnt) s (.getmntent mnt 0 true) { s with tmp := some [] }
  | skip (mnt behind whole s file ment) (hfile : s.mtab = some file)
    (hment : (lib.read file)[behind]? = some ment) (hdir : ment.dir = mnt) :
    UpdateStep (.getmntent mnt behind whole) s (.getmntent mnt (behind + 1) whole) s
  | copy (mnt behind whole s file ment) (hfile : s.mtab = some file)
    (hment : (lib.read file)[behind]? = some ment) (hdir : ment.dir ≠ mnt) :
    UpdateStep (.getmntent mnt behind whole) s (.getmntent mnt (behind + 1) whole)
      { s with tmp := s.tmp.map (· ++ lib.line ment) }
  /-- `addmntent` fails -/
  | lose (mnt behind whole s file ment part) (hfile : s.mtab = some file)
    (hment : (lib.read file)[behind]? = some ment) (hdir : ment.dir ≠ mnt)
    (hpart : part <+: lib.line ment) :
    UpdateStep (.getmntent mnt behind whole) s (.getmntent mnt (behind + 1) false)
      { s with tmp := s.tmp.map (· ++ part) }
  | eof (mnt behind whole s file) (hfile : s.mtab = some file)
    (hend : (lib.read file)[behind]? = none) :
    UpdateStep (.getmntent mnt behind whole) s (.fchmodNew whole) s
  | fchmodNew (whole s) : UpdateStep (.fchmodNew whole) s (.rename whole) s
  | rename (whole s) : UpdateStep (.rename whole) s (.unlink whole) ⟨s.tmp, none⟩

/-- `update_mtab` behind the lock. Every call may be the last one, as the process may be killed
anywhere; then the lock file stays. Nobody else writes the two files. -/
def updateMtab : Sections UpdateMtab UpdateAt MtabFiles Bool where
  enter g _ t := t = g.start
  step := UpdateStep lib
  leave t s whole s' := t = .unlink whole ∧ s' = s
  halt _ _ := True
  drift _ _ := False

end Steps

/-! ## What an update is -/

/-- The octets of the table, if there is one. -/
def MtabFiles.text (s : MtabFiles) : Bytes := s.mtab.getD []

section Update

variable (lib : Mntents)

/-- A copy: of every entry the line, or, if it is not whole, the beginning of one. -/
def Copied (whole : Bool) (ments : List Mntent) (copy : Bytes) : Prop :=
  ∃ parts : List Bytes, copy = parts.flatten ∧
    List.Forall₂ (fun part ment => part <+: lib.line ment) parts ments ∧
      (whole = true → parts = ments.map lib.line)

/-- **The update** as a change of the table: shfsmount adds the line of its entry, and shfsumount
puts the copy of the entries of other directories in its place. -/
def UpdateMtab.means (g : UpdateMtab) (file : Bytes) (whole : Bool) (file' : Bytes) : Prop :=
  match g with
  | shfsmount mnt dev opts => whole = true ∧ file' = file ++ lib.line (shfsMntent mnt dev opts)
  | shfsumount mnt => Copied lib whole ((lib.read file).filter (·.dir ≠ mnt)) file'

/-- What is to be seen of an update before it is made: of shfsmount, the beginning of the line. -/
def UpdateMtab.Begun (g : UpdateMtab) (file file' : Bytes) : Prop :=
  match g with
  | shfsmount mnt dev opts => ∃ part, part <+: lib.line (shfsMntent mnt dev opts) ∧
      file' = file ++ part
  | shfsumount _ => file' = file

/-- How far an update of the table `file` has come. -/
def UpdateMtab.Progress (g : UpdateMtab) (file : Bytes) (t : UpdateAt) (s : MtabFiles) : Prop :=
  match g, t with
  | shfsmount mnt dev opts, .setmntentAppend ment => ment = shfsMntent mnt dev opts ∧ s.text = file
  | shfsmount mnt dev opts, .addmntent ment sent =>
    ment = shfsMntent mnt dev opts ∧ s.mtab = some (file ++ (lib.line ment).take sent)
  | shfsmount mnt dev opts, .fchmod => s.mtab = some (file ++ lib.line (shfsMntent mnt dev opts))
  | shfsmount mnt dev opts, .unlink whole =>
    whole = true ∧ s.mtab = some (file ++ lib.line (shfsMntent mnt dev opts))
  | shfsumount mnt, .setmntentOld mnt' => mnt' = mnt ∧ s.text = file
  | shfsumount mnt, .setmntentNew mnt' => mnt' = mnt ∧ s.mtab = some file
  | shfsumount mnt, .getmntent mnt' behind whole =>
    mnt' = mnt ∧ s.mtab = some file ∧ ∃ copy, s.tmp = some copy ∧
      Copied lib whole (((lib.read file).take behind).filter (·.dir ≠ mnt)) copy
  | shfsumount mnt, .fchmodNew whole | shfsumount mnt, .rename whole =>
    s.mtab = some file ∧
      ∃ copy, s.tmp = some copy ∧ Copied lib whole ((lib.read file).filter (·.dir ≠ mnt)) copy
  | shfsumount mnt, .unlink whole =>
    ∃ copy, s.mtab = some copy ∧ Copied lib whole ((lib.read file).filter (·.dir ≠ mnt)) copy
  | _, _ => False

variable {lib} {g : UpdateMtab} {file : Bytes} {t t' : UpdateAt} {s s' : MtabFiles}

theorem MtabFiles.text_of_some (h : s.mtab = some file) : s.text = file := by
  rw [text, h, Option.getD_some]

theorem UpdateMtab.progress_start (g : UpdateMtab) (s : MtabFiles) :
    g.Progress lib s.text g.start s := by
  cases g <;> exact ⟨rfl, rfl⟩

/-- The loop has one entry more behind it. -/
theorem filter_take_succ {ments : List Mntent} {mnt : Bytes} {behind : ℕ} {ment : Mntent}
    (h : ments[behind]? = some ment) :
    (ments.take (behind + 1)).filter (·.dir ≠ mnt) =
      (ments.take behind).filter (·.dir ≠ mnt) ++ if ment.dir ≠ mnt then [ment] else [] := by
  rw [List.take_add_one, h, Option.toList_some, List.filter_append]
  congr 1
  by_cases hdir : ment.dir = mnt <;> simp [hdir]

/-- One entry more is copied, or a beginning of it. -/
theorem Copied.concat {whole whole' : Bool} {ments : List Mntent} {copy part : Bytes}
    {ment : Mntent} (h : Copied lib whole ments copy) (hpart : part <+: lib.line ment)
    (hwhole : whole' = true → whole = true ∧ part = lib.line ment) :
    Copied lib whole' (ments ++ [ment]) (copy ++ part) := by
  obtain ⟨parts, rfl, hparts, hall⟩ := h
  refine ⟨parts ++ [part], by simp, List.rel_append hparts (.cons hpart .nil), fun hw => ?_⟩
  obtain ⟨hbefore, rfl⟩ := hwhole hw
  rw [hall hbefore, List.map_append, List.map_singleton]

/-- **One call** brings the update one step further. -/
theorem UpdateStep.progress (hstep : UpdateStep lib t s t' s') (h : g.Progress lib file t s) :
    g.Progress lib file t' s' := by
  cases hstep with
  | setmntentAppend ment s =>
    cases g with
    | shfsmount mnt dev opts =>
      refine ⟨h.1, ?_⟩
      rw [List.take_zero, List.append_nil]
      exact congrArg some h.2
    | shfsumount mnt => exact h.elim
  | write ment sent n s =>
    cases g with
    | shfsmount mnt dev opts =>
      obtain ⟨rfl, hmtab⟩ := h
      refine ⟨rfl, ?_⟩
      change s.mtab.map _ = _
      rw [hmtab, Option.map_some, List.append_assoc, List.take_add]
    | shfsumount mnt => exact h.elim
  | addmntent ment sent s hall =>
    cases g with
    | shfsmount mnt dev opts =>
      obtain ⟨rfl, hmtab⟩ := h
      rwa [List.take_of_length_le hall] at hmtab
    | shfsumount mnt => exact h.elim
  | fchmod s =>
    cases g with
    | shfsmount mnt dev opts => exact ⟨rfl, h⟩
    | shfsumount mnt => exact h.elim
  | setmntentOld mnt s hmtab =>
    cases g with
    | shfsmount mnt dev opts => exact h.elim
    | shfsumount mnt =>
      obtain ⟨rfl, htext⟩ := h
      obtain ⟨file', hfile'⟩ := Option.ne_none_iff_exists'.mp hmtab
      rw [MtabFiles.text_of_some hfile'] at htext
      exact ⟨rfl, htext ▸ hfile'⟩
  | setmntentNew mnt s =>
    cases g with
    | shfsmount mnt dev opts => exact h.elim
    | shfsumount mnt => exact ⟨h.1, h.2, [], rfl, [], rfl, .nil, fun _ => rfl⟩
  | skip mnt behind whole s file' ment hfile hment hdir =>
    cases g with
    | shfsmount mnt dev opts => exact h.elim
    | shfsumount mnt =>
      obtain ⟨rfl, hmtab, copy, htmp, hcopy⟩ := h
      obtain rfl := Option.some.inj (hfile.symm.trans hmtab)
      refine ⟨rfl, hmtab, copy, htmp, ?_⟩
      rwa [filter_take_succ hment, if_neg (not_not.mpr hdir), List.append_nil]
  | copy mnt behind whole s file' ment hfile hment hdir =>
    cases g with
    | shfsmount mnt dev opts => exact h.elim
    | shfsumount mnt =>
      obtain ⟨rfl, hmtab, copy, htmp, hcopy⟩ := h
      obtain rfl := Option.some.inj (hfile.symm.trans hmtab)
      refine ⟨rfl, hmtab, copy ++ lib.line ment, by simp only [htmp, Option.map_some], ?_⟩
      rw [filter_take_succ hment, if_pos hdir]
      exact hcopy.concat List.prefix_rfl fun hw => ⟨hw, rfl⟩
  | lose mnt behind whole s file' ment part hfile hment hdir hpart =>
    cases g with
    | shfsmount mnt dev opts => exact h.elim
    | shfsumount mnt =>
      obtain ⟨rfl, hmtab, copy, htmp, hcopy⟩ := h
      obtain rfl := Option.some.inj (hfile.symm.trans hmtab)
      refine ⟨rfl, hmtab, copy ++ part, by simp only [htmp, Option.map_some], ?_⟩
      rw [filter_take_succ hment, if_pos hdir]
      exact hcopy.concat hpart fun hw => by cases hw
  | eof mnt behind whole s file' hfile hend =>
    cases g with
    | shfsmount mnt dev opts => exact h.elim
    | shfsumount mnt =>
      obtain ⟨rfl, hmtab, copy, htmp, hcopy⟩ := h
      obtain rfl := Option.some.inj (hfile.symm.trans hmtab)
      rw [List.take_of_length_le (List.getElem?_eq_none_iff.mp hend)] at hcopy
      exact ⟨hmtab, copy, htmp, hcopy⟩
  | fchmodNew whole s =>
    cases g with
    | shfsmount mnt dev opts => exact h.elim
    | shfsumount mnt => exact h
  | rename whole s =>
    cases g with
    | shfsmount mnt dev opts => exact h.elim
    | shfsumount mnt =>
      obtain ⟨-, copy, htmp, hcopy⟩ := h
      exact ⟨copy, htmp, hcopy⟩

/-- Wherever an update is, its calls have brought it there from the table it has begun with: nobody
else has come in between. -/
theorem progress_of_runs (h : (updateMtab lib).Runs (g.start, s) (t, s')) :
    g.Progress lib s.text t s' := by
  generalize hd : (t, s') = d at h
  induction h generalizing t s' with
  | refl =>
    obtain ⟨rfl, rfl⟩ := Prod.mk.inj hd
    exact g.progress_start _
  | @tail e f _ hstep ih =>
    subst hd
    rcases hstep with hstep | ⟨-, hdrift⟩
    · exact hstep.progress (ih (show (e.1, e.2) = e from rfl))
    · exact False.elim hdrift

/-- **At every point** the update is begun at most, or has been made. -/
theorem UpdateMtab.Progress.seen (h : g.Progress lib file t s) :
    g.Begun lib file s.text ∨ ∃ whole, g.means lib file whole s.text := by
  cases g with
  | shfsmount mnt dev opts =>
    cases t with
    | setmntentAppend ment => exact Or.inl ⟨[], List.nil_prefix, by rw [h.2, List.append_nil]⟩
    | addmntent ment sent =>
      obtain ⟨rfl, hmtab⟩ := h
      exact Or.inl ⟨_, List.take_prefix _ _, MtabFiles.text_of_some hmtab⟩
    | fchmod => exact Or.inr ⟨true, rfl, MtabFiles.text_of_some h⟩
    | unlink whole => exact Or.inr ⟨true, rfl, MtabFiles.text_of_some h.2⟩
    | _ => exact h.elim
  | shfsumount mnt =>
    cases t with
    | setmntentOld mnt' => exact Or.inl h.2
    | setmntentNew mnt' => exact Or.inl (MtabFiles.text_of_some h.2)
    | getmntent mnt' behind whole => exact Or.inl (MtabFiles.text_of_some h.2.1)
    | fchmodNew whole => exact Or.inl (MtabFiles.text_of_some h.1)
    | rename whole => exact Or.inl (MtabFiles.text_of_some h.1)
    | unlink whole =>
      obtain ⟨copy, hmtab, hcopy⟩ := h
      refine Or.inr ⟨whole, ?_⟩
      rw [MtabFiles.text_of_some hmtab]
      exact hcopy
    | _ => exact h.elim

/-- At the end the update has been made. -/
theorem UpdateMtab.Progress.done {whole : Bool} (h : g.Progress lib file (.unlink whole) s) :
    g.means lib file whole s.text := by
  cases g with
  | shfsmount mnt dev opts =>
    obtain ⟨rfl, hmtab⟩ := h
    exact ⟨rfl, MtabFiles.text_of_some hmtab⟩
  | shfsumount mnt =>
    obtain ⟨copy, hmtab, hcopy⟩ := h
    rw [means, MtabFiles.text_of_some hmtab]
    exact hcopy

end Update

/-! ## Any number of processes -/

section Processes

variable {ι : Type} [DecidableEq ι] {lib : Mntents} {s₀ : MtabFiles}
  {u u' : Threads ι UpdateMtab UpdateAt MtabFiles Bool}

/-- One update after another. -/
theorem replay_updates {l : List (UpdateMtab × Bool)} {s : MtabFiles}
    (h : Serial (updateMtab lib) s₀ l s) : Replay (UpdateMtab.means lib) s₀.text l s.text := by
  obtain ⟨file, hl, rfl⟩ := h.replay (R := fun s file => s.text = file) rfl
    (fun _ _ _ _ hdrift => hdrift.elim) fun g s t t' s' whole s'' file hs henter hruns hleave => by
      obtain rfl : t = g.start := henter
      obtain ⟨rfl, rfl⟩ := hleave
      subst hs
      exact ⟨_, (progress_of_runs hruns).done, rfl⟩
  exact hl

/-- **No update is lost**: whatever the interleaving, whatever fails and whoever is killed, the
table is what the updates that have ended have made of it, one after another, with at most one more
update, of a process that is inside or has ended there. Of this one everything is to be seen, or the
beginning of the line that it adds, or nothing. -/
theorem mtab_account (h : Turns (updateMtab lib) (Threads.start s₀) u) :
    ∃ file, Replay (UpdateMtab.means lib) s₀.text u.log file ∧
      (u.state.text = file ∨ ∃ i g t, (u.place i).Holds g t ∧
        (g.Begun lib file u.state.text ∨ ∃ whole, g.means lib file whole u.state.text)) := by
  rcases ho : u.owner with _ | i
  · exact ⟨_, replay_updates (h.account.free ho), Or.inl rfl⟩
  · obtain ⟨g, t₀, t, s₁, hplace, hserial, rfl, hruns⟩ := h.account.held i ho
    exact ⟨_, replay_updates hserial, Or.inr ⟨i, g, t, hplace, (progress_of_runs hruns).seen⟩⟩

/-- **A lock file that is left behind**: when a process has ended inside, `MOUNTED` stays as it is,
whatever the others do. `O_EXCL` makes the lock file once, so none of the others is ever inside
again. -/
theorem mtab_frozen (h : Turns (updateMtab lib) (Threads.start s₀) u) {i : ι} {g : UpdateMtab}
    {t : UpdateAt} (hi : u.place i = .gone g t) (hlater : Turns (updateMtab lib) u u') :
    u'.state = u.state ∧ u'.log = u.log ∧ ∀ j g' t', u'.place j ≠ .inside g' t' := by
  obtain ⟨hplace, howner, hlog, hstate⟩ := h.frozen hi hlater
  have hsame : u'.state = u.state := by
    rcases hstate.cases_head with heq | ⟨_, hdrift, _⟩
    · exact heq.symm
    · exact False.elim hdrift
  refine ⟨hsame, hlog, fun j g' t' hj => ?_⟩
  obtain rfl := Turns.exclusive (h.trans hlater) (.inl hj) (.inr hplace)
  cases hj.symm.trans hplace

end Processes

/-! ### An example -/

/-- The format of the table, for names that need no escapes: six words on a line, where lines that
are blank or begin with `#` are no entries. -/
def wordMntents : Mntents where
  line m := joinWith sp [m.fsname, m.dir, m.type, m.opts, dec m.freq, dec m.passno] ++ [nl]
  read file := ((file.splitOn nl).filter fun l => l ≠ [] ∧ l.head? ≠ some 35).map fun l =>
    let words := (l.splitOn sp).filter (· ≠ [])
    ⟨words.getD 0 [], words.getD 1 [], words.getD 2 [], words.getD 3 [], decVal (words.getD 4 []),
      decVal (words.getD 5 [])⟩

/-- A mount on `/mnt`. -/
def mountMnt : UpdateMtab := .shfsmount (ascii "/mnt") (ascii "host:/") (ascii "rw")

/-- Its entry. -/
def entryMnt : Mntent := shfsMntent (ascii "/mnt") (ascii "host:/") (ascii "rw")

/-- It is killed inside `addmntent`, behind 4 octets. -/
def leftBehind : Threads Bool UpdateMtab UpdateAt MtabFiles Bool :=
  let u := ((Threads.start ⟨none, none⟩ : Threads Bool UpdateMtab UpdateAt MtabFiles Bool).move true
    (.waiting mountMnt)).move true (.inside mountMnt mountMnt.start)
  { ((u.move true (.inside mountMnt (.addmntent entryMnt 0))).move true
      (.inside mountMnt (.addmntent entryMnt (0 + 4)))).move true
      (.gone mountMnt (.addmntent entryMnt (0 + 4))) with
    owner := some true
    state := ⟨some ([] ++ ((wordMntents.line entryMnt).drop 0).take 4), none⟩ }

theorem leftBehind_turns : Turns (updateMtab wordMntents)
    (Threads.start ⟨none, none⟩) leftBehind := by
  refine .tail (.tail (.tail (.tail (.tail .refl (.ask _ true mountMnt rfl))
    (.take _ true mountMnt _ rfl rfl rfl)) (.work _ true mountMnt _ _ _ rfl (.setmntentAppend _ _)))
    (.work _ true mountMnt _ _ _ rfl (.write _ _ 4 _))) (.halt _ true mountMnt _ rfl trivial)

/-- `host` is there. -/
theorem mtab_account_left_behind : ∃ file, Replay (UpdateMtab.means wordMntents) [] [] file ∧
    (leftBehind.state.text = file ∨ ∃ i g t, (leftBehind.place i).Holds g t ∧
      (g.Begun wordMntents file leftBehind.state.text ∨
        ∃ whole, g.means wordMntents file whole leftBehind.state.text)) :=
  mtab_account leftBehind_turns

/-- Another process does not get in. -/
theorem mtab_frozen_left_behind :
    (leftBehind.move false (.waiting mountMnt)).state = leftBehind.state ∧
      (leftBehind.move false (.waiting mountMnt)).log = leftBehind.log ∧
      ∀ j g t, (leftBehind.move false (.waiting mountMnt)).place j ≠ .inside g t :=
  mtab_frozen leftBehind_turns (i := true) rfl (.single (.ask _ false mountMnt rfl))

end Shfs
