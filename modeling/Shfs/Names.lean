import Shfs.Agreement

/-!
# The name space

Six commands change names: `s_mkdir`, `s_rmdir`, `s_mv`, `s_rm`, `s_ln` and `s_sln`. `NameCalls` are
the calls of the system for them, on the places that paths resolve to, and `NameOp.meaning` is the
call that is meant, with all paths below the root. The two servers run on the same tree; what they
run there acts as the calls.

`NameOp.Agrees` quantifies over all systems in which paths resolve in the same way, so that it is
also about the paths: a system that keeps what it is asked for tells an operation that goes
elsewhere from the one that is meant.
-/

namespace Shfs

open Lib

/-! ## The calls -/

/-- mkdir(2), rmdir(2), rename(2), unlink(2), link(2) and symlink(2) with the privileges of the
servers. `resolve` is the place of a path; the target of a symbolic link is no path here. -/
structure NameCalls (σ ρ : Type) : Type where
  resolve : σ → Bytes → ρ
  isDir : σ → ρ → Bool
  exists' : σ → ρ → Bool
  mkdir : σ → ρ → σ
  rmdir : σ → ρ → σ
  rename : σ → (old new : ρ) → σ
  unlink : σ → ρ → σ
  link : σ → (old new : ρ) → σ
  symlink : σ → (target : Bytes) → ρ → σ
  /-- ENOTDIR and ENOENT -/
  rmdir_other : ∀ s place, isDir s place = false → rmdir s place = s

/-- A command with its arguments, as a server gets them: what the client sends for the operations
that change names. -/
inductive NameOp : Type where
  | mkdir (dir : Bytes)
  | rmdir (dir : Bytes)
  | mv (file1 file2 : Bytes)
  | rm (file : Bytes)
  | ln (file1 file2 : Bytes)
  | sln (file1 file2 : Bytes)
  deriving DecidableEq, Repr

namespace NameOp

/-- The word for the command. -/
def name : NameOp → Bytes
  | mkdir _ => ascii "s_mkdir"
  | rmdir _ => ascii "s_rmdir"
  | mv .. => ascii "s_mv"
  | rm _ => ascii "s_rm"
  | ln .. => ascii "s_ln"
  | sln .. => ascii "s_sln"

/-- The words behind it. -/
def args : NameOp → List Bytes
  | mkdir dir | rmdir dir => [dir]
  | rm file => [file]
  | mv file1 file2 | ln file1 file2 | sln file1 file2 => [file1, file2]

/-- The path that must not be there yet, if the command has one. -/
def destination : NameOp → Option Bytes
  | mv _ file2 | ln _ file2 | sln _ file2 => some file2
  | mkdir _ | rmdir _ | rm _ => none

/-- The call that is meant: all paths but the target of a symbolic link are below the root. It is
the specification that the two servers are compared with. -/
def meaning {σ ρ : Type} (calls : NameCalls σ ρ) (root : Bytes) (s : σ) : NameOp → σ
  | mkdir dir => calls.mkdir s (calls.resolve s (root ++ dir))
  | rmdir dir => calls.rmdir s (calls.resolve s (root ++ dir))
  | mv file1 file2 =>
    calls.rename s (calls.resolve s (root ++ file1)) (calls.resolve s (root ++ file2))
  | rm file => calls.unlink s (calls.resolve s (root ++ file))
  | ln file1 file2 =>
    calls.link s (calls.resolve s (root ++ file1)) (calls.resolve s (root ++ file2))
  | sln file1 file2 => calls.symlink s file1 (calls.resolve s (root ++ file2))

end NameOp

/-! ## The servers on one system -/

/-- What Perl asks the system for are these calls. -/
structure OS.Calls {σ ρ : Type} (os : OS σ) (ids : Ids) (calls : NameCalls σ ρ) : Prop where
  isDir : ∀ s path, os.isDir ids s path = calls.isDir s (calls.resolve s path)
  mkdir : ∀ s path, (os.mkdir ids s path).2 = calls.mkdir s (calls.resolve s path)
  rmdir : ∀ s path, (os.rmdir ids s path).2 = calls.rmdir s (calls.resolve s path)
  rename : ∀ s old new, (os.rename ids s old new).2 =
    calls.rename s (calls.resolve s old) (calls.resolve s new)
  unlink : ∀ s path, (os.unlink ids s path).2 = calls.unlink s (calls.resolve s path)
  link : ∀ s old new, (os.link ids s old new).2 =
    calls.link s (calls.resolve s old) (calls.resolve s new)
  symlink : ∀ s target path, (os.symlink ids s target path).2 =
    calls.symlink s target (calls.resolve s path)

/-- The commands of the shell act as these calls, on a destination that is not there. -/
structure ShellOS.Calls {σ ρ : Type} (os : ShellOS σ) (calls : NameCalls σ ρ) : Prop where
  isDir : ∀ s path, os.isDir s path = calls.isDir s (calls.resolve s path)
  mkdir : ∀ s path, (os.mkdir s path).2 = calls.mkdir s (calls.resolve s path)
  rmdir : ∀ s path, (os.rmdir s path).2 = calls.rmdir s (calls.resolve s path)
  mv : ∀ s old new, calls.exists' s (calls.resolve s new) = false →
    (os.mv s old new).2 = calls.rename s (calls.resolve s old) (calls.resolve s new)
  rm : ∀ s path, (os.rm s path).2 = calls.unlink s (calls.resolve s path)
  ln : ∀ s old new, calls.exists' s (calls.resolve s new) = false →
    (os.ln s old new).2 = calls.link s (calls.resolve s old) (calls.resolve s new)
  lnSymbolic : ∀ s target path, calls.exists' s (calls.resolve s path) = false →
    (os.lnSymbolic s target path).2 = calls.symlink s target (calls.resolve s path)

/-- On every system and every tree in which paths resolve by `resolve` and the destination does not
exist, both servers leave the tree that is meant. -/
def NameOp.Agrees {ρ : Type} (resolve : Bytes → ρ) (root : Bytes) (op : NameOp) : Prop :=
  ∀ (σ : Type) (calls : NameCalls σ ρ) (os : OS σ) (tools : ShellOS σ) (home : Bytes) (p : Perl σ)
    (s : Shell σ), os.Calls p.ids calls → tools.Calls calls → p.root = root → s.root = root →
    p.fs = s.fs → calls.resolve s.fs = resolve →
    (∀ path ∈ op.destination, calls.exists' s.fs (resolve (root ++ path)) = false) →
      ((p.runCommand os home op.name op.args).returned []).map Perl.fs =
          some (op.meaning calls root s.fs) ∧
        ((s.runCommand tools op.name op.args).returned []).map Shell.fs =
          some (op.meaning calls root s.fs)

section Agree

variable {σ ρ : Type} {calls : NameCalls σ ρ} {root : Bytes}

/-- **The shell server** does what is meant, if its tools do what the system calls do, and nothing
is in the place of a new name. With a directory there the tools would take the name for one inside
of it. -/
theorem Shell.name_meaning {tools : ShellOS σ} (h : tools.Calls calls) {s : Shell σ}
    (hroot : s.root = root) (op : NameOp)
    (hdest : ∀ path ∈ op.destination, calls.exists' s.fs (calls.resolve s.fs (root ++ path)) =
      false) :
    ((s.runCommand tools op.name op.args).returned []).map Shell.fs =
      some (op.meaning calls root s.fs) := by
  subst hroot
  cases op with
  | mkdir dir => exact congrArg some (h.mkdir _ _)
  | rmdir dir =>
    change ((s.sRmdir tools [dir]).returned []).map Shell.fs = _
    rw [Shell.sRmdir]
    split
    · exact congrArg some (h.rmdir _ _)
    · next hdir =>
      have hother : calls.isDir s.fs (calls.resolve s.fs (s.root ++ dir)) = false := by
        rw [← h.isDir]
        exact Bool.eq_false_iff.mpr hdir
      exact congrArg some (calls.rmdir_other _ _ hother).symm
  | mv file1 file2 => exact congrArg some (h.mv _ _ _ (hdest _ rfl))
  | rm file => exact congrArg some (h.rm _ _)
  | ln file1 file2 => exact congrArg some (h.ln _ _ _ (hdest _ rfl))
  | sln file1 file2 => exact congrArg some (h.lnSymbolic _ _ _ (hdest _ rfl))

/-- **The Perl server** does what is meant, but `s_ln` takes its first name as it is. -/
theorem Perl.name_meaning {os : OS σ} {p : Perl σ} (h : os.Calls p.ids calls) (home : Bytes)
    (hroot : p.root = root) (op : NameOp)
    (hln : ∀ file1 file2, op = .ln file1 file2 →
      calls.resolve p.fs file1 = calls.resolve p.fs (root ++ file1)) :
    ((p.runCommand os home op.name op.args).returned []).map Perl.fs =
      some (op.meaning calls root p.fs) := by
  subst hroot
  cases op with
  | mkdir dir => exact congrArg some (h.mkdir _ _)
  | rmdir dir =>
    change ((p.sRmdir os [dir]).returned []).map Perl.fs = _
    rw [Perl.sRmdir]
    split
    · next hdir =>
      have hother : calls.isDir p.fs (calls.resolve p.fs (p.root ++ dir)) = false := by
        rw [← h.isDir]
        exact Bool.eq_false_iff.mpr hdir
      exact congrArg some (calls.rmdir_other _ _ hother).symm
    · exact congrArg some (h.rmdir _ _)
  | mv file1 file2 => exact congrArg some (h.rename _ _ _)
  | rm file => exact congrArg some (h.unlink _ _)
  | ln file1 file2 =>
    refine congrArg some ((h.link _ _ _).trans ?_)
    exact congrArg (calls.link p.fs · _) (hln _ _ rfl)
  | sln file1 file2 => exact congrArg some (h.symlink _ _ _)

end Agree

/-! ## A system that writes things down -/

/-- A system on which nothing happens. -/
def OS.idle (σ : Type) : OS σ where
  isDir _ _ _ := false
  exists' _ _ _ := false
  nonEmpty _ _ _ := false
  ls _ _ _ _ _ := ([], false)
  open' _ _ _ _ := false
  firstByte _ _ _ _ := false
  readFile _ _ _ _ _ := none
  writeFile _ s _ _ _ := (false, s)
  mkdir _ s _ := (false, s)
  rmdir _ s _ := (false, s)
  rename _ s _ _ := (false, s)
  unlink _ s _ := (false, s)
  creat _ s _ _ := (false, s)
  link _ s _ _ := (false, s)
  symlink _ s _ _ := (false, s)
  readlink _ _ _ := none
  chmod _ s _ _ := (false, s)
  chown _ s _ _ := (false, s)
  chgrp _ s _ _ := (false, s)
  truncate _ s _ _ := (false, s)
  utime _ s _ _ _ := (false, s)
  df _ _ _ := none
  readFile_le := by rintro _ _ _ _ _ _ ⟨⟩
  df_line := by rintro _ _ _ _ ⟨⟩

/-- The same for the shell. -/
def ShellOS.idle (σ : Type) : ShellOS σ where
  readable _ _ := false
  writable _ _ := false
  isFile _ _ := false
  isDir _ _ := false
  exists' _ _ := false
  nonEmpty _ _ := false
  ls _ _ _ _ := ([], false)
  lsPlain _ _ := false
  lsName _ _ := false
  firstByte _ _ := false
  dd _ _ _ _ _ := []
  ddSync _ _ _ _ _ := ([], false)
  newFile _ _ := false
  tee _ _ _ := []
  wc _ _ := false
  head _ _ _ := none
  ddWrite s _ _ _ _ := (false, s)
  ddStdin s _ _ _ := (none, fun _ => s)
  mkdir s _ := (false, s)
  rmdir s _ := (false, s)
  mv s _ _ := (false, s)
  rm s _ := (false, s)
  clobber s _ := (false, s)
  ln s _ _ := (false, s)
  lnSymbolic s _ _ := (false, s)
  readlink _ _ := none
  lsLink _ _ := ([], true)
  chmod s _ _ := (false, s)
  chown s _ _ := (false, s)
  chgrp s _ _ := (false, s)
  ddTrunc s _ _ _ := (false, s)
  touch s _ _ _ := (false, s)
  df _ _ := []
  rmTree s _ := s
  head_le := by rintro _ _ _ _ ⟨⟩
  ddStdin_le := by rintro _ _ _ _ _ ⟨⟩
  ls_line := by simp
  readlink_line := by rintro _ _ _ ⟨⟩
  lsLink_line := by simp
  df_line := by simp

/-- Systems on which only link(2) does something. -/
def NameCalls.linking {σ ρ : Type} (resolve : Bytes → ρ) (exists' : σ → ρ → Bool)
    (link : σ → ρ → ρ → σ) : NameCalls σ ρ where
  resolve _ := resolve
  isDir _ _ := false
  exists' := exists'
  mkdir s _ := s
  rmdir s _ := s
  rename s _ _ := s
  unlink s _ := s
  link := link
  symlink s _ _ := s
  rmdir_other _ _ _ := rfl

section Linking

variable {σ ρ : Type} (resolve : Bytes → ρ) (exists' : σ → ρ → Bool) (link : σ → ρ → ρ → σ)

/-- Such a system below the Perl server. -/
def OS.linking : OS σ :=
  { OS.idle σ with link := fun _ s old new => (true, link s (resolve old) (resolve new)) }

/-- And below the shell server. -/
def ShellOS.linking : ShellOS σ :=
  { ShellOS.idle σ with ln := fun s old new => (true, link s (resolve old) (resolve new)) }

theorem OS.calls_linking (ids : Ids) :
    (OS.linking resolve link).Calls ids (.linking resolve exists' link) where
  isDir _ _ := rfl
  mkdir _ _ := rfl
  rmdir _ _ := rfl
  rename _ _ _ := rfl
  unlink _ _ := rfl
  link _ _ _ := rfl
  symlink _ _ _ := rfl

theorem ShellOS.calls_linking :
    (ShellOS.linking resolve link).Calls (.linking resolve exists' link) where
  isDir _ _ := rfl
  mkdir _ _ := rfl
  rmdir _ _ := rfl
  mv _ _ _ _ := rfl
  rm _ _ := rfl
  ln _ _ _ _ := rfl
  lnSymbolic _ _ _ _ := rfl

end Linking

/-- **The same operation**: the two servers agree on all of them, but on `s_ln` only if its first
name resolves to the same place with the root in front of it and without. -/
theorem NameOp.agrees_iff {ρ : Type} (resolve : Bytes → ρ) (root : Bytes) (op : NameOp) :
    op.Agrees resolve root ↔
      ∀ file1 file2, op = .ln file1 file2 → resolve file1 = resolve (root ++ file1) := by
  constructor
  · rintro h file1 file2 rfl
    -- a system that keeps the places of the links it has made
    let link : List (ρ × ρ) → ρ → ρ → List (ρ × ρ) := fun s old new => (old, new) :: s
    obtain ⟨hperl, -⟩ := h _ (.linking resolve (fun _ _ => false) link) (.linking resolve link)
      (.linking resolve link) [] ⟨⟨0, 0, [], []⟩, [], root, false, false⟩
      ⟨[], root, [], [], false, false⟩ (OS.calls_linking resolve _ link _)
      (ShellOS.calls_linking resolve _ link) rfl rfl rfl rfl fun _ _ => rfl
    have hkept : [(resolve file1, resolve (root ++ file2))] =
        [(resolve (root ++ file1), resolve (root ++ file2))] := Option.some.inj hperl
    exact (Prod.mk.inj (List.cons.inj hkept).1).1
  · intro hln σ calls os tools home p s hos htools hp hs hfs hresolve hdest
    subst hresolve
    refine ⟨?_, s.name_meaning htools hs op hdest⟩
    rw [← hfs] at hln ⊢
    exact p.name_meaning hos home hp op hln

/-- A link below `/r`. In a tree with `/r/a` the shell server makes `/r/b`; the Perl server looks
for `/a`, which is not there. -/
theorem not_agrees_ln : ¬ (NameOp.ln (ascii "/a") (ascii "/b")).Agrees id (ascii "/r") := by
  intro h
  let link : List Bytes → Bytes → Bytes → List Bytes := fun s old new =>
    if old ∈ s then new :: s else s
  let tree : List Bytes := [ascii "/r/a"]
  obtain ⟨hperl, -⟩ := h _ (.linking id (fun s path => path ∈ s) link) (.linking id link)
    (.linking id link) [] ⟨⟨0, 0, [], []⟩, tree, ascii "/r", false, false⟩
    ⟨tree, ascii "/r", [], [], false, false⟩ (OS.calls_linking id _ link _)
    (ShellOS.calls_linking id _ link) rfl rfl rfl rfl (by
      rintro path ⟨⟩
      decide)
  revert hperl
  decide

end Shfs
