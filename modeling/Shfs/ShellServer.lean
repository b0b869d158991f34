import Shfs.PerlServer

/-!
# The shell server

The functions of shell-code.in as `Proc`s. The words are those the remote shell makes of a line; how
it does that is not part of this module. `ShellOS` is what the functions ask of the remote system,
`ls`, `dd`, `head` and so on included: what a command prints or copies, whether it fails, and the
file-system state it leaves.
-/

namespace Shfs

open Lib

/-- The commands below the shell server, with what they print and how they exit. What they do to the
file system is theirs alone: a state of any type goes through those that change it. -/
structure ShellOS (σ : Type) : Type where
  /-- `test -r`, `test -w`, `test -f`, `test -d`, `test -e` and `test -s` -/
  readable : σ → Bytes → Bool
  writable : σ → Bytes → Bool
  isFile : σ → Bytes → Bool
  isDir : σ → Bytes → Bool
  exists' : σ → Bytes → Bool
  nonEmpty : σ → Bytes → Bool
  /-- `ls -lan`, or with `true` `ls -land`: the lines it prints, and whether it exits with 0 -/
  ls : σ → (stat : Bool) → (stable : Bytes) → Bytes → List Bytes × Bool
  /-- does `ls` of a directory exit with 0? -/
  lsPlain : σ → Bytes → Bool
  /-- does `ls -1d` print anything? -/
  lsName : σ → Bytes → Bool
  /-- does `dd` of one octet give one? -/
  firstByte : σ → Bytes → Bool
  /-- `dd` from a file: block size, blocks to skip, blocks to copy -/
  dd : σ → Bytes → (bs skip count : ℕ) → Bytes
  /-- `dd` with `conv=sync`: what it copies, and whether `grep "$6+0"` finds something in its
  report -/
  ddSync : σ → Bytes → (bs skip count : ℕ) → Bytes × Bool
  /-- `>file`, for a file in `$s_TMP` -/
  newFile : σ → Bytes → Bool
  /-- what `cat` prints of a file in `$s_TMP` after `tee` has copied some octets to it -/
  tee : σ → Bytes → Bytes → Bytes
  /-- does `wc` exit with 0 in the pipeline of `s_sread`? -/
  wc : σ → Bytes → Bool
  /-- `head -c` into a file in `$s_TMP`: `none` when it takes all it is asked for and exits with 0,
  otherwise the octets it has taken -/
  head : σ → Bytes → (count : ℕ) → Option ℕ
  /-- `dd` into a file with `conv=notrunc`: block size, blocks to seek, and the input -/
  ddWrite : σ → Bytes → (bs seek : ℕ) → Bytes → Bool × σ
  /-- the same for `count` single octets of the standard input: as for `head`, and the state it
  leaves, given what it has taken -/
  ddStdin : σ → Bytes → (seek count : ℕ) → Option ℕ × (Bytes → σ)
  mkdir : σ → Bytes → Bool × σ
  rmdir : σ → Bytes → Bool × σ
  mv : σ → Bytes → Bytes → Bool × σ
  rm : σ → Bytes → Bool × σ
  /-- `>file` in a subshell -/
  clobber : σ → Bytes → Bool × σ
  ln : σ → Bytes → Bytes → Bool × σ
  /-- `ln -s`: the target, and where the link is made -/
  lnSymbolic : σ → Bytes → Bytes → Bool × σ
  /-- `readlink`: the lines it prints if it exits with 0 -/
  readlink : σ → Bytes → Option (List Bytes)
  /-- `ls -ld` and `sed` behind it: the lines `sed` prints, and whether it exits with 0 -/
  lsLink : σ → Bytes → List Bytes × Bool
  /-- `chmod`, `chown` and `chgrp`: the mode or the id, and the file -/
  chmod : σ → Bytes → Bytes → Bool × σ
  chown : σ → Bytes → Bytes → Bool × σ
  chgrp : σ → Bytes → Bytes → Bool × σ
  /-- `dd` from `/dev/zero` with `count=0`: block size and blocks to seek -/
  ddTrunc : σ → Bytes → (bs seek : ℕ) → Bool × σ
  /-- `touch`: which times, the time, and the file -/
  touch : σ → Bytes → Bytes → Bytes → Bool × σ
  /-- the lines `df -k` prints -/
  df : σ → Bytes → List Bytes
  /-- `rm -rf` -/
  rmTree : σ → Bytes → σ
  head_le : ∀ s file count n, head s file count = some n → n ≤ count
  ddStdin_le : ∀ s file seek count n, (ddStdin s file seek count).1 = some n → n ≤ count
  /-- a line contains no line feed -/
  ls_line : ∀ s stat stable file, ∀ l ∈ (ls s stat stable file).1, nl ∉ l
  readlink_line : ∀ s file ls, readlink s file = some ls → ∀ l ∈ ls, nl ∉ l
  lsLink_line : ∀ s file, ∀ l ∈ (lsLink s file).1, nl ∉ l
  df_line : ∀ s root, ∀ l ∈ df s root, nl ∉ l

/-- What `s_init` asks of the remote system: two variables of its environment, and whether three of
its commands succeed. -/
structure ShellEnv (σ : Type) : Type where
  /-- `$HOME` -/
  home : Bytes
  /-- `$L`; no part of the program sets it -/
  l : Bytes
  /-- `mkdir /tmp/._shfs_.$i` -/
  mkdirTmp : σ → ℕ → Bool × σ
  /-- does `head -c 1` exit with 0? -/
  head : Bool
  /-- `type readlink` -/
  readlink : Bool

/-- The shell server between two commands. The first two variables are set by `s_init` from its
arguments, and the others once from what the remote system has. -/
structure Shell (σ : Type) : Type where
  fs : σ
  /-- `$s_ROOT` -/
  root : Bytes
  /-- `$s_STABLE` -/
  stable : Bytes
  /-- `$s_TMP`; empty if there is no directory for temporary files -/
  tmp : Bytes
  /-- `$s_HEAD` is set -/
  head : Bool
  /-- `$s_READLINK` is set -/
  readlink : Bool

namespace Shell

variable {σ : Type} (os : ShellOS σ) (s : Shell σ)

/-- `echo` of a status line at the end of a function. -/
def answer (code : ℕ) : Proc (Shell σ) := .print false (status code) (.done s)

@[simp] theorem answer_bytes {G : Type} (srv : Server G (Shell σ)) (code : ℕ) :
    ((s.answer code).wire srv).bytes = status code := by
  simp [answer, Wire.bytes]

/-- `$1`, `$2` and so on, counted from 0. -/
def arg (args : List Bytes) (i : ℕ) : Bytes := args.getD i []

/-- `"$s_ROOT$1"` -/
def path (file : Bytes) : Bytes := s.root ++ file

/-- The temporary file of a command; the number of the shell process is the same all the time and
left out. -/
def tmpFile (ino : Bytes) : Bytes := s.tmp ++ ascii "._shfs_" ++ ino

/-- The end of a function that runs one command: COMPLETE, or some other code. -/
def change (r : Bool × σ) (code : ℕ) : Proc (Shell σ) :=
  { s with fs := r.2 }.answer (if r.1 then 200 else code)

/-- The lines a command prints. -/
def output (lines : List Bytes) (k : Proc (Shell σ)) : Proc (Shell σ) :=
  .print false (lines.flatMap fun l => l ++ [nl]) k

/-- `test -f` decides between two errors. -/
def notDone (fs : σ) (file : Bytes) : ℕ := if os.isFile fs file then 501 else 503

/-- The loop of `s_init`, for `n` rounds from `i` on: the directory for temporary files, if there is
one. -/
def tmpLoop (env : ShellEnv σ) : (n i : ℕ) → σ → Bytes × σ
  | 0, _, fs => ([], fs)
  | n + 1, i, fs =>
    match env.mkdirTmp fs i with
    | (true, fs) => (ascii "/tmp/._shfs_." ++ dec i ++ ascii "/", fs)
    | (false, fs) => tmpLoop env n (i + 1) fs

/-- `s_init`. Where it is asked for `stable`, `$s_STABLE` becomes `$L`. -/
def sInit (env : ShellEnv σ) (args : List Bytes) : Proc (Shell σ) :=
  let r := tmpLoop env 10000 0 s.fs
  { fs := r.2
    root := if arg args 0 = [] then env.home else arg args 0
    stable := if arg args 1 = ascii "stable" then env.l else s.stable
    tmp := r.1
    head := r.1 ≠ [] ∧ env.head = true
    readlink := env.readlink : Shell σ }.answer 200

/-- `s_lsdir` -/
def sLsdir (args : List Bytes) : Proc (Shell σ) :=
  let dir := s.path (arg args 0)
  let r := os.ls s.fs false s.stable dir
  output r.1 (s.answer
    (if r.2 then 200
    else if os.isDir s.fs dir then if os.lsPlain s.fs dir then 200 else 501
    else 503))

/-- `s_stat` -/
def sStat (args : List Bytes) : Proc (Shell σ) :=
  let file := s.path (arg args 0)
  if ¬ os.lsName s.fs file then s.answer 503
  else
    let r := os.ls s.fs true s.stable file
    output r.1 (s.answer (if r.2 then 200 else 501))

/-- `s_open` -/
def sOpen (args : List Bytes) : Proc (Shell σ) :=
  let file := s.path (arg args 0)
  let mode := arg args 1
  let ok := (mode = ascii "R" ∨ mode = ascii "RW") ∧ os.readable s.fs file
  let ok := if mode = ascii "W" ∨ mode = ascii "RW" then os.writable s.fs file else ok
  if ok then
    s.answer
      (if os.nonEmpty s.fs file then 200 else if os.firstByte s.fs file then 202 else 200)
  else s.answer (notDone os s.fs file)

/-- The two `dd`s of `s_read`: without the count in the report, zeros follow. -/
def readData (file : Bytes) (bs skip count : ℕ) : Bytes :=
  let r := os.ddSync s.fs file bs skip count
  if r.2 then r.1 else r.1 ++ List.replicate (bs * count) 0

/-- `s_read`. The branch for count 0 answers, and the function goes on. -/
def sRead (args : List Bytes) : Proc (Shell σ) :=
  let file := s.path (arg args 0)
  let data := s.readData os file (decVal (arg args 3)) (decVal (arg args 4)) (decVal (arg args 5))
  let rest := .print false (status 100) (.print true data (s.answer 200))
  if arg args 2 = ascii "0" then
    if os.readable s.fs file then
      .print false (status 100) (.print false (status 200) rest)
    else .print false (status 501) rest
  else rest

/-- `s_sread`; without a temporary file `return` is given no number and nothing is printed. -/
def sSread (args : List Bytes) : Proc (Shell σ) :=
  let file := s.path (arg args 0)
  let missing := s.answer (if os.isFile s.fs file then 501 else 503)
  if s.tmp = [] then .done s
  else if arg args 2 = ascii "0" then
    if os.readable s.fs file then .print false (status 100) (s.answer 200) else s.answer 501
  else if os.newFile s.fs (s.tmpFile (arg args 6)) then
    let data :=
      os.dd s.fs file (decVal (arg args 3)) (decVal (arg args 4)) (decVal (arg args 5))
    if os.wc s.fs (s.tmpFile (arg args 6)) then
      .print false (status 100) (.print false (dec data.length ++ [nl])
        (.print true (os.tee s.fs (s.tmpFile (arg args 6)) data) (s.answer 200)))
    else missing
  else missing

/-- The end of a failed `s_write`: it says so, and `dd of=/dev/null` takes as many octets as there
were to write. -/
def sWriteFailed (count : ℕ) : Proc (Shell σ) :=
  .print false (status 502) (.take count fun _ => .done s)

/-- `s_write` -/
def sWrite (args : List Bytes) : Proc (Shell σ) :=
  let file := s.path (arg args 0)
  let count := decVal (arg args 2)
  let tmp := s.tmpFile (arg args 5)
  if s.head ∧ os.newFile s.fs tmp then
    .print false (status 100)
      (match os.head s.fs tmp count with
      | none => .take count fun data =>
        let r := os.ddWrite s.fs file (decVal (arg args 3)) (decVal (arg args 4)) data
        let s' := { s with fs := r.2 }
        if r.1 then s'.answer 200
        else if os.writable r.2 file then s'.answer 502
        else s'.answer 501
      | some n => .take n fun _ => s.sWriteFailed count)
  else if os.writable s.fs file then
    .print false (status 100)
      (if arg args 2 = ascii "0" then s.answer 200
      else
        let r := os.ddStdin s.fs file (decVal (arg args 1)) count
        match r.1 with
        | none => .take count fun data => { s with fs := r.2 data }.answer 200
        | some n => .take n fun data => { s with fs := r.2 data }.sWriteFailed count)
  else .done s

/-- `s_mkdir` -/
def sMkdir (args : List Bytes) : Proc (Shell σ) :=
  s.change (os.mkdir s.fs (s.path (arg args 0))) 501

/-- `s_rmdir`; `$_ENOENT` is not set, and `echo` prints a line without text. -/
def sRmdir (args : List Bytes) : Proc (Shell σ) :=
  if os.isDir s.fs (s.path (arg args 0)) then s.change (os.rmdir s.fs (s.path (arg args 0))) 501
  else .print false [nl] (.done s)

/-- `s_mv` -/
def sMv (args : List Bytes) : Proc (Shell σ) :=
  let r := os.mv s.fs (s.path (arg args 0)) (s.path (arg args 1))
  s.change r (notDone os r.2 (s.path (arg args 0)))

/-- `s_rm` -/
def sRm (args : List Bytes) : Proc (Shell σ) :=
  let r := os.rm s.fs (s.path (arg args 0))
  s.change r (notDone os r.2 (s.path (arg args 0)))

/-- `s_creat`: whether the file can be written to does not matter, only `chmod` does. -/
def sCreat (args : List Bytes) : Proc (Shell σ) :=
  let file := s.path (arg args 0)
  s.change (os.chmod (os.clobber s.fs file).2 (arg args 1) file) 501

/-- `s_ln` -/
def sLn (args : List Bytes) : Proc (Shell σ) :=
  s.change (os.ln s.fs (s.path (arg args 0)) (s.path (arg args 1))) 501

/-- `s_sln` -/
def sSln (args : List Bytes) : Proc (Shell σ) :=
  s.change (os.lnSymbolic s.fs (arg args 0) (s.path (arg args 1))) 501

/-- `s_readlink` -/
def sReadlink (args : List Bytes) : Proc (Shell σ) :=
  let file := s.path (arg args 0)
  if s.readlink then
    match os.readlink s.fs file with
    | some lines => output lines (s.answer 200)
    | none => s.answer 501
  else
    let r := os.lsLink s.fs file
    output r.1 (s.answer (if r.2 then 200 else 501))

/-- `s_chmod` -/
def sChmod (args : List Bytes) : Proc (Shell σ) :=
  let r := os.chmod s.fs (arg args 1) (s.path (arg args 0))
  s.change r (notDone os r.2 (s.path (arg args 0)))

/-- `s_chown` -/
def sChown (args : List Bytes) : Proc (Shell σ) :=
  let r := os.chown s.fs (arg args 1) (s.path (arg args 0))
  s.change r (notDone os r.2 (s.path (arg args 0)))

/-- `s_chgrp` -/
def sChgrp (args : List Bytes) : Proc (Shell σ) :=
  let r := os.chgrp s.fs (arg args 1) (s.path (arg args 0))
  s.change r (notDone os r.2 (s.path (arg args 0)))

/-- `s_trunc` -/
def sTrunc (args : List Bytes) : Proc (Shell σ) :=
  let file := s.path (arg args 0)
  let r :=
    if arg args 2 = ascii "0" then os.clobber s.fs file
    else os.ddTrunc s.fs file (decVal (arg args 1)) (decVal (arg args 2))
  s.change r (notDone os r.2 file)

/-- `s_settime` -/
def sSettime (args : List Bytes) : Proc (Shell σ) :=
  let file := s.path (arg args 0)
  if os.exists' s.fs file then s.change (os.touch s.fs (arg args 1) (arg args 2) file) 501
  else s.answer 503

/-- The three words `read` keeps of a line, as `echo` prints them. -/
def dfNumbers (line : Bytes) : Bytes :=
  joinWith sp ((((line.splitOn sp).filter (· ≠ [])).drop 1).take 3)

/-- What the loop of `s_statfs` keeps: the numbers of the last line. -/
def statfsLine (df : List Bytes) : Bytes := (df.map dfNumbers).getLastD (ascii "0 0 0")

/-- `s_statfs` -/
def sStatfs : Proc (Shell σ) := output [statfsLine (os.df s.fs s.root)] (s.answer 200)

/-- `s_finish` -/
def sFinish : Proc (Shell σ) :=
  { s with fs := if s.tmp = [] then s.fs else os.rmTree s.fs s.tmp }.answer 200

/-- `s_ping` -/
def sPing (args : List Bytes) : Proc (Shell σ) :=
  .print false (status 100) (.print false (arg args 0 ++ [nl]) (s.answer 201))

/-- The call of a function by its name, without `s_init`. A word that is no function prints nothing
that the client can read. -/
def runCommand (cmd : Bytes) (args : List Bytes) : Proc (Shell σ) :=
  if cmd = ascii "s_finish" then s.sFinish os
  else if cmd = ascii "s_lsdir" then s.sLsdir os args
  else if cmd = ascii "s_stat" then s.sStat os args
  else if cmd = ascii "s_open" then s.sOpen os args
  else if cmd = ascii "s_read" then s.sRead os args
  else if cmd = ascii "s_sread" then s.sSread os args
  else if cmd = ascii "s_write" then s.sWrite os args
  else if cmd = ascii "s_mkdir" then s.sMkdir os args
  else if cmd = ascii "s_rmdir" then s.sRmdir os args
  else if cmd = ascii "s_mv" then s.sMv os args
  else if cmd = ascii "s_rm" then s.sRm os args
  else if cmd = ascii "s_creat" then s.sCreat os args
  else if cmd = ascii "s_ln" then s.sLn os args
  else if cmd = ascii "s_sln" then s.sSln os args
  else if cmd = ascii "s_readlink" then s.sReadlink os args
  else if cmd = ascii "s_chmod" then s.sChmod os args
  else if cmd = ascii "s_chown" then s.sChown os args
  else if cmd = ascii "s_chgrp" then s.sChgrp os args
  else if cmd = ascii "s_trunc" then s.sTrunc os args
  else if cmd = ascii "s_settime" then s.sSettime os args
  else if cmd = ascii "s_statfs" then s.sStatfs os
  else if cmd = ascii "s_ping" then s.sPing args
  else .done s

end Shell

end Shfs
