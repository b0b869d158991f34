import Shfs.CommandLine

/-!
# When the server reads what the client meant

`Request` collects the commands the client functions build: the fourteen callers of `do_command`,
and `do_ls`, `shell_read`, `shell_write`, `shell_readlink` and `shell_statfs`. `Delivers` is the
contract of a builder — no write behind the buffer, and either no line at all or one complete line
that decodes to the words that are meant.

`Request.delivers_iff` says for which credentials and lengths the contract holds. Two things break
it. The credential fields are only right for a caller with at least one supplementary group and
ids below 2^31. And where the length is not compared with the buffer (`measured`), a line that is
too long is sent cut, or, for `statfs`, terminated one octet behind the buffer.
-/

namespace Shfs

open Lib

/-- The contents of a path buffer. -/
structure Path : Type where
  text : Bytes
  /-- C strings end at the first NUL -/
  nul : (0 : Byte) ∉ text
  /-- the terminator is inside the buffer -/
  room : text.length + 1 ≤ SHFS_PATH_MAX

/-- The quoted form and its terminator fit in the buffer. -/
def Path.Fits (p : Path) : Prop := (quoteText p.text).length + 1 ≤ SHFS_PATH_MAX

theorem Path.Fits.checkPath {p : Path} (h : p.Fits) :
    checkPath p.text = some (quoteText p.text) := by
  rw [checkPath_eq p.nul p.room, if_neg (by unfold Fits at h; omega)]

theorem Path.checkPath_of_not_fits {p : Path} (h : ¬ p.Fits) : checkPath p.text = none := by
  rw [checkPath_eq p.nul p.room, if_pos (by unfold Fits at h; omega)]

/-! ## Requests -/

/-- The calls of `do_command`, each with the arguments of the function that makes it. -/
inductive Call : Type where
  | open (file : Path) (mode : AccMode)
  | mkdir (dir : Path)
  | rmdir (dir : Path)
  | rename (old new : Path)
  | unlink (file : Path)
  | create (file : Path) (mode : UInt32)
  | link (old new : Path)
  | symlink (old new : Path)
  | chmod (file : Path) (mode : UInt16)
  | chown (file : Path) (user : UInt32)
  | chgrp (file : Path) (group : UInt32)
  | trunc (file : Path) (size : UInt64)
  | settime (file : Path) (which : TimeSet) (tvSec : ℤ)
  | finish

namespace Call

/-- The function behind the call. -/
def cmd : Call → Option Cmd
  | .open file mode => shellOpen file.text mode
  | mkdir dir => shellMkdir dir.text
  | rmdir dir => shellRmdir dir.text
  | rename old new => shellRename old.text new.text
  | unlink file => shellUnlink file.text
  | create file mode => shellCreate file.text mode
  | link old new => shellLink old.text new.text
  | symlink old new => shellSymlink old.text new.text
  | chmod file mode => shellChmod file.text mode
  | chown file user => shellChown file.text user
  | chgrp file group => shellChgrp file.text group
  | trunc file size => shellTrunc file.text size
  | settime file which tvSec => shellSettime file.text which tvSec
  | finish => shellFinish

/-- The paths of the call. -/
def paths : Call → List Path
  | .open file _ | mkdir file | rmdir file | unlink file | create file _ | chmod file _
  | chown file _ | chgrp file _ | trunc file _ | settime file _ _ => [file]
  | rename old new | link old new | symlink old new => [old, new]
  | finish => []

/-- The command word. -/
def name : Call → Bytes
  | .open .. => ascii "s_open"
  | mkdir .. => ascii "s_mkdir"
  | rmdir .. => ascii "s_rmdir"
  | rename .. => ascii "s_mv"
  | unlink .. => ascii "s_rm"
  | create .. => ascii "s_creat"
  | link .. => ascii "s_ln"
  | symlink .. => ascii "s_sln"
  | chmod .. => ascii "s_chmod"
  | chown .. => ascii "s_chown"
  | chgrp .. => ascii "s_chgrp"
  | trunc .. => ascii "s_trunc"
  | settime .. => ascii "s_settime"
  | finish => ascii "s_finish"

/-- The arguments that are meant. -/
def args : Call → List Word
  | .open file .rdonly => [.quoted file.text, .bare (ascii "R")]
  | .open file .wronly => [.quoted file.text, .bare (ascii "W")]
  | .open file .rdwr => [.quoted file.text, .bare (ascii "RW")]
  | mkdir dir => [.quoted dir.text]
  | rmdir dir => [.quoted dir.text]
  | rename old new => [.quoted old.text, .quoted new.text]
  | unlink file => [.quoted file.text]
  | create file mode => [.quoted file.text, .bare (oct (mode &&& S_IALLUGO).toNat)]
  | link old new => [.quoted old.text, .quoted new.text]
  | symlink old new => [.quoted old.text, .quoted new.text]
  | chmod file mode => [.quoted file.text, .bare (oct mode.toNat)]
  | chown file user => [.quoted file.text, .bare (dec user.toNat)]
  | chgrp file group => [.quoted file.text, .bare (dec group.toNat)]
  | trunc file size =>
    if size = 0 then [.quoted file.text, .bare (dec 1), .bare (dec 0)]
    else [.quoted file.text, .bare (dec size.toUInt32.toNat), .bare (dec 1)]
  | settime file which tvSec => [.quoted file.text, .bare which.text, .bare (strctime tvSec)]
  | finish => []

/-- `do_command` is called with the command word and the arguments, one space between them. -/
theorem cmd_eq (c : Call) (h : ∀ p ∈ c.paths, p.Fits) :
    c.cmd = some ⟨c.name, joinWith sp (c.args.map Word.text)⟩ := by
  have hcheck : ∀ p ∈ c.paths, checkPath p.text = some (quoteText p.text) :=
    fun p hp => (h p hp).checkPath
  cases c with
  | «open» file mode =>
    cases mode <;>
      simp [cmd, shellOpen, onPath, hcheck file (by simp [paths]), name, args, Word.text, squoted]
  | trunc file size =>
    by_cases h : size = 0 <;>
      simp [cmd, shellTrunc, onPath, hcheck file (by simp [paths]), name, args, Word.text, squoted,
        h]
  | rename old new | link old new | symlink old new =>
    simp [cmd, shellRename, shellLink, shellSymlink, onPaths, hcheck old (by simp [paths]),
      hcheck new (by simp [paths]), name, args, Word.text, squoted]
  | finish => rfl
  | mkdir file | rmdir file | unlink file | create file _ | chmod file _ | chown file _
  | chgrp file _ | settime file _ _ =>
    simp [cmd, shellMkdir, shellRmdir, shellUnlink, shellCreate, shellChmod, shellChown, shellChgrp,
      shellSettime, onPath, hcheck file (by simp [paths]), name, args, Word.text, squoted]

/-- A path that does not fit stops the call. -/
theorem cmd_refused (c : Call) (h : ∃ p ∈ c.paths, ¬ p.Fits) : c.cmd = none := by
  have hcheck : ∀ p : Path, ¬ p.Fits → checkPath p.text = none :=
    fun _ => Path.checkPath_of_not_fits
  cases c with
  | rename old new | link old new | symlink old new =>
    by_cases ho : old.Fits
    · have hn : ¬ new.Fits := by simpa [paths, ho] using h
      simp [cmd, shellRename, shellLink, shellSymlink, onPaths, hcheck new hn]
    · simp [cmd, shellRename, shellLink, shellSymlink, onPaths, hcheck old ho]
  | finish => simp [paths] at h
  | «open» file _ | mkdir file | rmdir file | unlink file | create file _ | chmod file _
  | chown file _ | chgrp file _ | trunc file _ | settime file _ _ =>
    have hf : ¬ file.Fits := by simpa [paths] using h
    simp [cmd, shellOpen, shellMkdir, shellRmdir, shellUnlink, shellCreate, shellChmod, shellChown,
      shellChgrp, shellTrunc, shellSettime, onPath, hcheck file hf]

theorem args_ok (c : Call) : ∀ w ∈ c.args, w.Ok := by
  have hwhich : ∀ t : TimeSet, BareWord t.text := by
    intro t
    cases t <;> decide
  cases c with
  | «open» file mode => cases mode <;> simp [args, Word.Ok, ascii] <;> decide
  | trunc file size =>
    by_cases h : size = 0 <;> simp [args, Word.Ok, bareWord_dec, h]
  | _ => simp [args, Word.Ok, bareWord_dec, bareWord_oct, bareWord_strctime, hwhich]

end Call

/-- The commands of the client: one of the calls of `do_command`, or one of the functions that have
a reply of their own. -/
inductive Request : Type where
  /-- `do_command` -/
  | command (c : Call)
  /-- `do_ls`, for `shell_stat` or for `shell_readdir` -/
  | ls (stat : Bool) (file : Path)
  /-- `shell_read` -/
  | read (file : Path) (offset count : UInt32) (ino : UInt64)
  /-- `shell_write`, on a mount with this `fcache_size` -/
  | write (fcacheSize : UInt32) (file : Path) (offset count : UInt32) (ino : UInt64)
  /-- `shell_readlink` -/
  | readlink (name : Path)
  /-- `shell_statfs` -/
  | statfs

namespace Request

/-- The paths of the request. -/
def paths : Request → List Path
  | command c => c.paths
  | ls _ file | read file _ _ _ | write _ file _ _ _ | readlink file => [file]
  | statfs => []

/-- The command word. -/
def name : Request → Bytes
  | command c => c.name
  | ls stat _ => if stat then ascii "s_stat" else ascii "s_lsdir"
  | read _ _ _ ino => if ino ≠ 0 then ascii "s_sread" else ascii "s_read"
  | write .. => ascii "s_write"
  | readlink _ => ascii "s_readlink"
  | statfs => ascii "s_statfs"

/-- The arguments that are meant. -/
def args : Request → List Word
  | command c => c.args
  | ls _ file => [.quoted file.text]
  | read file offset count ino =>
    let (bs, offset2, count2) := readBlocks offset count
    .quoted file.text :: ([offset, count, bs, offset2, count2].map fun x => .bare (dec x.toNat)) ++
      if ino ≠ 0 then [.bare (dec ino.toNat)] else []
  | write fcacheSize file offset count ino =>
    let (bs, offset2) := writeBlocks fcacheSize offset
    .quoted file.text :: ([offset, count, bs, offset2].map fun x => .bare (dec x.toNat)) ++
      [.bare (dec ino.toNat)]
  | readlink file => [.quoted file.text]
  | statfs => []

/-- Does the builder compare the length of the line with the buffer? -/
def measured : Request → Bool
  | command _ | ls .. | readlink _ => true
  | read .. | write .. | statfs => false

/-- `check_path`, and the builder on its result. -/
def onQuoted (file : Path) (k : Bytes → Built) : Built :=
  match checkPath file.text with
  | none => ⟨⟨[], 0⟩, none⟩
  | some file => k file

theorem onQuoted_line (file : Path) (k : Bytes → Built) :
    (onQuoted file k).line = (checkPath file.text).bind fun file => (k file).line := by
  unfold onQuoted
  rcases checkPath file.text with _ | q <;> rfl

variable (preserveOwn : Bool) (cred : Cred)

/-- The builder of the request. -/
def built : Request → Built
  | command c =>
    match c.cmd with
    | none => ⟨⟨[], 0⟩, none⟩
    | some c => doCommandLine preserveOwn cred c.cmd c.args
  | ls stat file => onQuoted file (doLsLine preserveOwn cred stat)
  | read file offset count ino =>
    onQuoted file fun file => shellReadLine preserveOwn cred file offset count ino
  | write fcacheSize file offset count ino =>
    onQuoted file fun file => shellWriteLine preserveOwn cred fcacheSize file offset count ino
  | readlink file => onQuoted file (shellReadlinkLine preserveOwn cred)
  | statfs => shellStatfsLine preserveOwn cred

/-- The words the server should get: the command, the uid and the groups if they are preserved,
and the arguments. -/
def words (r : Request) : List Bytes :=
  r.name :: meantCred preserveOwn cred ++ r.args.map Word.value

/-- The arguments as they stand on the line. -/
def argText (r : Request) : Bytes := joinWith sp (r.args.map Word.text)

/-- The octets the line takes in the buffer, line feed and terminator included. -/
def room (r : Request) : ℕ := r.name.length + cred.width preserveOwn + r.argText.length + 2

end Request

/-! ## The contract -/

/-- A builder delivers these words: it stays inside the buffer, and if it sends anything, then one
line, complete at its last octet, that decodes to them. -/
structure Delivers (b : Built) (words : List Bytes) : Prop where
  inside : b.buf.top ≤ SOCKBUF_SIZE
  line : ∀ l, b.line = some l → l.getLast? = some nl ∧ scan getlineStep .init l = .inr (words, [])

/-- The credentials that `get_ugid` prints as they are. -/
def CredOk (preserveOwn : Bool) (cred : Cred) : Prop :=
  preserveOwn = true →
    cred.groups ≠ [] ∧ cred.uid.toNat < 2 ^ 31 ∧ ∀ g ∈ cred.groups, g.toNat < 2 ^ 31

namespace Request

/-- When a request with paths that fit reaches the server as it was meant. The credentials have to
be readable, and the line has to fit; a builder that compares the two refuses a line that does not,
and the others cut it, which is only noticed where not even the head fits. -/
def Deliverable (preserveOwn : Bool) (cred : Cred) (r : Request) : Prop :=
  if r.measured then CredOk preserveOwn cred ∨ SOCKBUF_SIZE < r.room preserveOwn cred
  else (CredOk preserveOwn cred ∧ r.room preserveOwn cred ≤ SOCKBUF_SIZE) ∨
    SOCKBUF_SIZE < r.name.length + cred.width preserveOwn + 1

variable {preserveOwn : Bool} {cred : Cred}

/-! ### The words of a request -/

theorem name_ok (r : Request) : BareWord r.name ∧ r.name.length ≤ 20 := by
  cases r with
  | command c => cases c <;> (simp only [name, Call.name]; decide)
  | ls stat file => cases stat <;> (simp only [name]; decide)
  | read file offset count ino =>
    simp only [name]
    split <;> decide
  | _ => simp only [name]; decide

theorem args_ok (r : Request) : ∀ w ∈ r.args, w.Ok := by
  cases r with
  | command c => exact c.args_ok
  | read file offset count ino =>
    by_cases h : ino = 0 <;> simp [args, Word.Ok, bareWord_dec, h]
  | write fcacheSize file offset count ino => simp [args, Word.Ok, bareWord_dec]
  | _ => simp [args, Word.Ok]

/-- The line the builder is after. -/
def fullLine (preserveOwn : Bool) (cred : Cred) (r : Request) : Bytes :=
  headText preserveOwn cred r.name ++ r.argText ++ [nl]

theorem length_fullLine (preserveOwn : Bool) (cred : Cred) (r : Request) :
    (r.fullLine preserveOwn cred).length + 1 = r.room preserveOwn cred := by
  simp only [fullLine, room, List.length_append, length_headText, List.length_singleton]

/-- The credential fields mean what they say exactly for the credentials of `CredOk`. -/
theorem sentCred_eq_iff (hg : preserveOwn = true → cred.groups ≠ []) :
    sentCred preserveOwn cred = meantCred preserveOwn cred ↔ CredOk preserveOwn cred := by
  cases preserveOwn with
  | false => simp [sentCred, meantCred, CredOk]
  | true =>
    have hne := hg rfl
    simp only [sentCred, meantCred, CredOk, if_true, List.cons.injEq, and_true, forall_const,
      fmtD_eq_dec_iff]
    rw [and_iff_right hne]
    refine and_congr_right fun _ => ⟨fun h g hmem => ?_, fun h => ?_⟩
    · have hd : ∀ w ∈ cred.groups.map (fun g => dec g.toNat), sp ∉ w := fun w hw hs => by
        obtain ⟨g, -, rfl⟩ := List.mem_map.mp hw
        exact absurd (isDigit_of_mem_dec hs) (by decide)
      have hf : ∀ w ∈ cred.groups.map fmtD, sp ∉ w := fun w hw hs => by
        obtain ⟨g, -, rfl⟩ := List.mem_map.mp hw
        exact ((bareWord_fmtD g).2 _ hs).1 rfl
      have := joinWith_inj hf hd (by simpa using hne) (by simpa using hne) h
      exact (fmtD_eq_dec_iff g).mp (List.map_inj_left.mp this g hmem)
    · congr 1
      exact List.map_congr_left fun g hmem => (fmtD_eq_dec_iff g).mpr (h g hmem)

/-- With a group to close the quote after, the full line decodes. -/
theorem scan_fullLine (r : Request) (hg : preserveOwn = true → cred.groups ≠ []) :
    scan getlineStep .init (r.fullLine preserveOwn cred) =
      .inr (r.name :: sentCred preserveOwn cred ++ r.args.map Word.value, []) := by
  rw [fullLine, List.append_assoc, scan_head r.name_ok.1 hg, argText, scan_args r.args_ok]

/-- With no group, no line that starts like this one decodes to the words that are meant. -/
theorem scan_ne_of_no_groups (r : Request) (hp : preserveOwn = true) (hg : cred.groups = [])
    (rest : Bytes) : scan getlineStep .init (headText preserveOwn cred r.name ++ rest) ≠
      .inr (r.words preserveOwn cred, []) := by
  subst hp
  intro h
  refine scan_no_groups r.name_ok.1 hg h ?_
  simp [words, meantCred, hg]

/-- **The full line** is read as it was meant exactly for the credentials of `CredOk`. -/
theorem scan_fullLine_iff (r : Request) :
    scan getlineStep .init (r.fullLine preserveOwn cred) = .inr (r.words preserveOwn cred, []) ↔
      CredOk preserveOwn cred := by
  by_cases hg : preserveOwn = true → cred.groups ≠ []
  · rw [scan_fullLine r hg, words, Sum.inr.injEq, Prod.mk.injEq, List.cons_append, List.cons_append,
      List.cons.injEq]
    simp only [true_and, and_true]
    rw [List.append_left_inj, sentCred_eq_iff hg]
  · simp only [Classical.not_imp, not_not] at hg
    rw [fullLine, List.append_assoc]
    exact ⟨fun h => absurd h (scan_ne_of_no_groups r hg.1 hg.2 _), fun h => absurd hg.2 (h hg.1).1⟩

/-- A line cut short behind the head leaves the server waiting for the rest. -/
theorem scan_cut_hungry (r : Request) (hg : preserveOwn = true → cred.groups ≠ [])
    {cut tail : Bytes} (htail : tail ≠ []) (h : r.argText ++ [nl] = cut ++ tail) :
    ∃ g, scan getlineStep .init (headText preserveOwn cred r.name ++ cut) = .inl g := by
  have hfull := scan_fullLine r hg
  rw [fullLine, List.append_assoc, h, ← List.append_assoc] at hfull
  exact scan_front hfull htail

/-- **A line cut short** behind the head is not read as it was meant, whatever is cut off: the line
feed is missing at least. -/
theorem scan_cut (r : Request) {cut tail : Bytes} (htail : tail ≠ [])
    (h : r.argText ++ [nl] = cut ++ tail) :
    scan getlineStep .init (headText preserveOwn cred r.name ++ cut) ≠
      .inr (r.words preserveOwn cred, []) := by
  by_cases hg : preserveOwn = true → cred.groups ≠ []
  · obtain ⟨g, hcut⟩ := r.scan_cut_hungry hg htail h
    rw [hcut]
    exact Sum.inl_ne_inr
  · simp only [Classical.not_imp, not_not] at hg
    exact scan_ne_of_no_groups r hg.1 hg.2 cut

/-! ### The builders, by family -/

/-- A path that does not fit is refused before anything is built. -/
theorem built_refused {r : Request} (h : ∃ p ∈ r.paths, ¬ p.Fits) :
    r.built preserveOwn cred = ⟨⟨[], 0⟩, none⟩ := by
  cases r with
  | command c => simp [built, c.cmd_refused h]
  | statfs => simp [paths] at h
  | ls _ file | read file _ _ _ | write _ file _ _ _ | readlink file =>
    have hf : ¬ file.Fits := by simpa [paths] using h
    simp [built, onQuoted, Path.checkPath_of_not_fits hf]

/-- The builder of a measured request sends the full line or nothing. -/
theorem built_measured (preserveOwn : Bool) (cred : Cred) {r : Request} (h : r.measured = true)
    (hfits : ∀ p ∈ r.paths, p.Fits) :
    (r.room preserveOwn cred ≤ SOCKBUF_SIZE →
      r.built preserveOwn cred =
        ⟨.of (r.fullLine preserveOwn cred), some (r.fullLine preserveOwn cred)⟩) ∧
    (SOCKBUF_SIZE < r.room preserveOwn cred →
      ∃ t, r.built preserveOwn cred = ⟨.of t, none⟩ ∧ t.length + 1 ≤ SOCKBUF_SIZE) := by
  have hhead := length_headText preserveOwn cred r.name
  have hname := r.name_ok.2
  have hpath : ∀ file : Path, joinWith sp ([Word.quoted file.text].map Word.text) =
      squoted (quoteText file.text) := fun file => by simp [Word.text, squoted]
  unfold room fullLine argText
  rw [← hhead]
  cases r with
  | command c =>
    simp only [built, c.cmd_eq hfits]
    exact ⟨fun hr => doCommandLine_fit hname hr, fun hr => doCommandLine_long hname hr⟩
  | ls stat file =>
    have hfile := (hfits file (List.mem_singleton_self file)).checkPath
    simp only [built, onQuoted, hfile, args, hpath, doLsLine, name] at hname ⊢
    exact ⟨fun hr => pathLine_fit hname hr, fun hr => pathLine_long hname hr⟩
  | readlink file =>
    have hfile := (hfits file (List.mem_singleton_self file)).checkPath
    simp only [built, onQuoted, hfile, args, hpath, shellReadlinkLine, name] at hname ⊢
    exact ⟨fun hr => pathLine_fit hname hr, fun hr => pathLine_long hname hr⟩
  | read _ _ _ _ => cases h
  | write _ _ _ _ _ => cases h
  | statfs => cases h

theorem built_read {file : Path} (hfits : file.Fits) (offset count : UInt32) (ino : UInt64) :
    (read file offset count ino).built preserveOwn cred =
      printLine preserveOwn cred (read file offset count ino).name
        ((read file offset count ino).argText ++ [nl]) := by
  by_cases h : ino = 0 <;>
    simp [built, onQuoted, hfits.checkPath, shellReadLine, h, name, argText, args, Word.text,
      squoted]

theorem built_write (fcacheSize : UInt32) {file : Path} (hfits : file.Fits) (offset count : UInt32)
    (ino : UInt64) : (write fcacheSize file offset count ino).built preserveOwn cred =
      printLine preserveOwn cred (write fcacheSize file offset count ino).name
        ((write fcacheSize file offset count ino).argText ++ [nl]) := by
  simp [built, onQuoted, hfits.checkPath, shellWriteLine, name, argText, args, Word.text, squoted]

theorem delivers_none {t : Bytes} {words : List Bytes} (h : t.length + 1 ≤ SOCKBUF_SIZE) :
    Delivers ⟨.of t, none⟩ words :=
  ⟨h, fun _ hl => by cases hl⟩

theorem getLast?_fullLine (r : Request) : (r.fullLine preserveOwn cred).getLast? = some nl := by
  simp [fullLine]

/-- Sending the full line from inside the buffer. -/
theorem delivers_fullLine_iff (r : Request) :
    Delivers ⟨.of (r.fullLine preserveOwn cred), some (r.fullLine preserveOwn cred)⟩
        (r.words preserveOwn cred) ↔
      CredOk preserveOwn cred ∧ r.room preserveOwn cred ≤ SOCKBUF_SIZE := by
  rw [← length_fullLine]
  refine ⟨fun h => ⟨r.scan_fullLine_iff.mp (h.line _ rfl).2, h.inside⟩, fun h => ⟨h.2, ?_⟩⟩
  intro l hl
  obtain rfl := Option.some.inj hl
  exact ⟨r.getLast?_fullLine, r.scan_fullLine_iff.mpr h.1⟩

/-- The three things a single `snprintf` can do: refuse, send the full line, or send one that is
cut behind the head. -/
theorem printLine_cases (preserveOwn : Bool) (cred : Cred) (r : Request) :
    (SOCKBUF_SIZE < r.name.length + cred.width preserveOwn + 1 ∧
      ∃ t, printLine preserveOwn cred r.name (r.argText ++ [nl]) = ⟨.of t, none⟩ ∧
        t.length + 1 ≤ SOCKBUF_SIZE) ∨
    (r.room preserveOwn cred ≤ SOCKBUF_SIZE ∧
      printLine preserveOwn cred r.name (r.argText ++ [nl]) =
        ⟨.of (r.fullLine preserveOwn cred), some (r.fullLine preserveOwn cred)⟩) ∨
    (r.name.length + cred.width preserveOwn + 1 ≤ SOCKBUF_SIZE ∧
      SOCKBUF_SIZE < r.room preserveOwn cred ∧
      ∃ cut tail, tail ≠ [] ∧ r.argText ++ [nl] = cut ++ tail ∧
        printLine preserveOwn cred r.name (r.argText ++ [nl]) =
          ⟨.of (headText preserveOwn cred r.name ++ cut),
            some (headText preserveOwn cred r.name ++ cut)⟩) := by
  have hhead := length_headText preserveOwn cred r.name
  have hname := r.name_ok.2
  have hfull : headText preserveOwn cred r.name ++ (r.argText ++ [nl]) =
      r.fullLine preserveOwn cred := (List.append_assoc ..).symm
  have hlen := r.length_fullLine preserveOwn cred
  by_cases hlong : SOCKBUF_SIZE < (headText preserveOwn cred r.name).length + 1
  · exact Or.inl ⟨by omega, printLine_long hname hlong⟩
  · rw [printLine_fit hname (by omega), hfull]
    by_cases hroom : r.room preserveOwn cred ≤ SOCKBUF_SIZE
    · rw [List.take_of_length_le (by omega)]
      exact Or.inr (Or.inl ⟨hroom, rfl⟩)
    · -- the line is cut somewhere behind the head
      set k := SOCKBUF_SIZE - 1 - (headText preserveOwn cred r.name).length
      have hcut : (r.fullLine preserveOwn cred).take (SOCKBUF_SIZE - 1) =
          headText preserveOwn cred r.name ++ (r.argText ++ [nl]).take k := by
        rw [← hfull, List.take_append, List.take_of_length_le (by omega)]
      have htail : (r.argText ++ [nl]).drop k ≠ [] := by
        intro hnil
        have h1 := congrArg List.length hfull
        rw [List.length_append] at h1
        have h2 := List.drop_eq_nil_iff.mp hnil
        omega
      rw [hcut]
      exact Or.inr (Or.inr ⟨by omega, by omega, _, _, htail, (List.take_append_drop k _).symm, rfl⟩)

/-- The requests printed with one `snprintf`. -/
theorem printLine_delivers_iff (r : Request) :
    Delivers (printLine preserveOwn cred r.name (r.argText ++ [nl])) (r.words preserveOwn cred) ↔
      (CredOk preserveOwn cred ∧ r.room preserveOwn cred ≤ SOCKBUF_SIZE) ∨
        SOCKBUF_SIZE < r.name.length + cred.width preserveOwn + 1 := by
  have hroom : r.name.length + cred.width preserveOwn + 1 ≤ r.room preserveOwn cred := by
    unfold room
    omega
  rcases r.printLine_cases preserveOwn cred with
    ⟨hlong, t, ht, htlen⟩ | ⟨hfit, heq⟩ | ⟨hhead, hlong, cut, tail, htail, hsplit, heq⟩
  · rw [ht]
    exact ⟨fun _ => Or.inr hlong, fun _ => delivers_none htlen⟩
  · rw [heq, or_iff_left (by omega)]
    exact r.delivers_fullLine_iff
  · rw [heq, or_iff_left (by omega)]
    exact ⟨fun h => absurd (h.line _ rfl).2 (r.scan_cut htail hsplit), fun h => by omega⟩

/-- Requests with paths that fit. -/
theorem delivers_of_fits {r : Request} (hfits : ∀ p ∈ r.paths, p.Fits) :
    Delivers (r.built preserveOwn cred) (r.words preserveOwn cred) ↔
      r.Deliverable preserveOwn cred := by
  unfold Deliverable
  by_cases hm : r.measured = true
  · rw [if_pos hm]
    obtain ⟨hfit, hlong⟩ := built_measured preserveOwn cred hm hfits
    by_cases hroom : r.room preserveOwn cred ≤ SOCKBUF_SIZE
    · rw [hfit hroom, delivers_fullLine_iff, and_iff_left hroom, or_iff_left (by omega)]
    · obtain ⟨t, ht, htlen⟩ := hlong (by omega)
      rw [ht]
      exact ⟨fun _ => Or.inr (by omega), fun _ => delivers_none htlen⟩
  · rw [if_neg hm]
    cases r with
    | read file offset count ino =>
      rw [built_read (hfits file (List.mem_singleton_self file))]
      exact printLine_delivers_iff _
    | write fcacheSize file offset count ino =>
      rw [built_write _ (hfits file (List.mem_singleton_self file))]
      exact printLine_delivers_iff _
    | statfs =>
      have hhead := length_headText preserveOwn cred (ascii "s_statfs")
      change Delivers (shellStatfsLine preserveOwn cred) _ ↔
        _ ∨ SOCKBUF_SIZE < (ascii "s_statfs").length + cred.width preserveOwn + 1
      by_cases hlong : SOCKBUF_SIZE < (headText preserveOwn cred (ascii "s_statfs")).length + 1
      · obtain ⟨t, ht, htlen⟩ := shellStatfsLine_long hlong
        rw [ht]
        exact ⟨fun _ => Or.inr (by omega), fun _ => delivers_none htlen⟩
      · have hfull : headText preserveOwn cred (ascii "s_statfs") ++ [nl] =
            statfs.fullLine preserveOwn cred := by simp [fullLine, argText, args, name]
        rw [shellStatfsLine_fit (by omega), hfull, delivers_fullLine_iff, or_iff_left (by omega)]
    | command c => exact absurd rfl hm
    | ls stat file => exact absurd rfl hm
    | readlink file => exact absurd rfl hm

/-- **Command construction**: a request reaches the server as it was meant, or is refused with
nothing sent, exactly when one of its paths does not fit or it is `Deliverable`. What keeps a
request from that are a caller without groups on a mount with `preserve`, whose line never ends, and
a line that has been cut. -/
theorem delivers_iff (preserveOwn : Bool) (cred : Cred) (r : Request) :
    Delivers (r.built preserveOwn cred) (r.words preserveOwn cred) ↔
      (∃ p ∈ r.paths, ¬ p.Fits) ∨ r.Deliverable preserveOwn cred := by
  by_cases h : ∃ p ∈ r.paths, ¬ p.Fits
  · rw [built_refused h, iff_true_intro (Or.inl h), iff_true]
    exact ⟨Nat.zero_le _, fun _ hl => by cases hl⟩
  · rw [or_iff_right h]
    exact delivers_of_fits (by simpa using h)

/-- What is sent is the full line, or the start of it. -/
theorem built_line_prefix (r : Request) {l : Bytes} (h : (r.built preserveOwn cred).line = some l) :
    l <+: r.fullLine preserveOwn cred := by
  have hprint : ∀ r : Request,
      (printLine preserveOwn cred r.name (r.argText ++ [nl])).line = some l →
        l <+: r.fullLine preserveOwn cred := by
    intro r h
    rcases r.printLine_cases preserveOwn cred with
      ⟨-, t, ht, -⟩ | ⟨-, heq⟩ | ⟨-, -, cut, tail, htail, hsplit, heq⟩
    · simp [ht] at h
    · rw [heq] at h
      obtain rfl := Option.some.inj h
      exact List.prefix_rfl
    · rw [heq] at h
      obtain rfl := Option.some.inj h
      rw [fullLine, List.append_assoc, hsplit, ← List.append_assoc]
      exact List.prefix_append _ _
  by_cases hfits : ∃ p ∈ r.paths, ¬ p.Fits
  · simp [built_refused hfits] at h
  simp only [not_exists, not_and, not_not] at hfits
  by_cases hm : r.measured = true
  · obtain ⟨hfit, hlong⟩ := built_measured preserveOwn cred hm hfits
    by_cases hroom : r.room preserveOwn cred ≤ SOCKBUF_SIZE
    · rw [hfit hroom] at h
      obtain rfl := Option.some.inj h
      exact List.prefix_rfl
    · obtain ⟨t, ht, -⟩ := hlong (by omega)
      simp [ht] at h
  -- the builders that do not measure print the line and cut it
  · cases r with
    | read file offset count ino =>
      rw [built_read (hfits file (List.mem_singleton_self file))] at h
      exact hprint _ h
    | write fcacheSize file offset count ino =>
      rw [built_write _ (hfits file (List.mem_singleton_self file))] at h
      exact hprint _ h
    | statfs =>
      change (shellStatfsLine preserveOwn cred).line = some l at h
      by_cases hlong : SOCKBUF_SIZE < (headText preserveOwn cred (ascii "s_statfs")).length + 1
      · obtain ⟨t, ht, -⟩ := shellStatfsLine_long hlong
        simp [ht] at h
      · have hfull : headText preserveOwn cred (ascii "s_statfs") ++ [nl] =
            statfs.fullLine preserveOwn cred := by simp [fullLine, argText, args, name]
        rw [shellStatfsLine_fit (by omega), hfull] at h
        obtain rfl := Option.some.inj h
        exact List.prefix_rfl
    | command c => exact absurd rfl hm
    | ls stat file => exact absurd rfl hm
    | readlink file => exact absurd rfl hm

/-- **What is sent**, whenever there is a group to close the quote after, is a line that decodes
to the command, the credential fields and the arguments, or the start of one. -/
theorem scan_sent (r : Request) (hg : preserveOwn = true → cred.groups ≠ []) {l : Bytes}
    (h : (r.built preserveOwn cred).line = some l) :
    scan getlineStep .init l =
        .inr (r.name :: sentCred preserveOwn cred ++ r.args.map Word.value, []) ∨
      ∃ g, scan getlineStep .init l = .inl g := by
  obtain ⟨tail, htail⟩ := r.built_line_prefix h
  have hfull := r.scan_fullLine hg
  rw [← htail] at hfull
  by_cases hnil : tail = []
  · subst hnil
    rw [List.append_nil] at hfull
    exact Or.inl hfull
  · exact Or.inr (scan_front hfull hnil)

/-- A caller without supplementary groups, with ownership preserved: the opening quote of the
groups is gone and the line of a `mkdir` never ends. -/
theorem not_delivers_no_groups :
    ¬ Delivers ((command (.mkdir ⟨ascii "/a", by decide, by decide⟩)).built true ⟨1000, []⟩)
      ((command (.mkdir ⟨ascii "/a", by decide, by decide⟩)).words true ⟨1000, []⟩) := by
  intro h
  have := (h.line _ rfl).2
  revert this
  decide

end Request

end Shfs
