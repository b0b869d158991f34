import Shfs.Lib.Dialogue
import Shfs.Credentials

/-!
# The Perl server

perl-code.in as a `Server`: `getline` reads the words of a line, the main loop switches the ids
and runs the sub for the command. `OS` is what the subs ask of the system, on an arbitrary type of
file-system states; a sub is the `Proc` of what it prints, and the state it leaves.

Nearly all subs print one status line. The others are the listings, `s_read` and `s_sread` with
their data, `s_write`, which takes raw octets from the stream of commands, `s_readlink` and
`s_statfs` with a line of text, and `s_ping`.
-/

namespace Shfs

open Lib

/-- The system below the server: results, and the file-system state after a change. Every call is
made with the ids of the process. -/
structure OS (σ : Type) : Type where
  /-- `-d`, `-e` and `-s` -/
  isDir : Ids → σ → Bytes → Bool
  exists' : Ids → σ → Bytes → Bool
  nonEmpty : Ids → σ → Bytes → Bool
  /-- `ls -lan`, or with `true` `ls -land`: what it prints (an entry, or a line such as the total,
  always followed by a line feed), and whether it exits with 0; `stable` adds `L` -/
  ls : Ids → σ → (stat stable : Bool) → Bytes → List Bytes × Bool
  /-- `sysopen` of an existing file -/
  open' : Ids → σ → AccMode → Bytes → Bool
  /-- does reading one octet from the file, opened in this way, give one? -/
  firstByte : Ids → σ → AccMode → Bytes → Bool
  /-- the `sysread` loop on an open file, from an offset; `none` when it ends undefined -/
  readFile : Ids → σ → Bytes → (offset size : ℕ) → Option Bytes
  /-- the `syswrite` loop on an open file: whether it ends defined -/
  writeFile : Ids → σ → Bytes → (offset : ℕ) → Bytes → Bool × σ
  mkdir : Ids → σ → Bytes → Bool × σ
  rmdir : Ids → σ → Bytes → Bool × σ
  rename : Ids → σ → Bytes → Bytes → Bool × σ
  unlink : Ids → σ → Bytes → Bool × σ
  /-- `sysopen` with `O_RDWR|O_TRUNC|O_CREAT` -/
  creat : Ids → σ → Bytes → Bytes → Bool × σ
  link : Ids → σ → Bytes → Bytes → Bool × σ
  symlink : Ids → σ → Bytes → Bytes → Bool × σ
  readlink : Ids → σ → Bytes → Option Bytes
  chmod : Ids → σ → Bytes → Bytes → Bool × σ
  chown : Ids → σ → Bytes → Bytes → Bool × σ
  chgrp : Ids → σ → Bytes → Bytes → Bool × σ
  truncate : Ids → σ → Bytes → Bytes → Bool × σ
  /-- `stat` and `utime`, given the fields `type` and `time` of `s_settime` -/
  utime : Ids → σ → Bytes → Bytes → Bytes → Bool × σ
  /-- the last line `df -k` prints, if it can be run -/
  df : Ids → σ → Bytes → Option Bytes
  /-- a read gives at most what is asked for -/
  readFile_le : ∀ ids s path offset size data,
    readFile ids s path offset size = some data → data.length ≤ size
  /-- a line contains no line feed -/
  df_line : ∀ ids s path line, df ids s path = some line → nl ∉ line

/-- The server process between two commands. `$ROOT`, `$STABLE` and `$PRESERVE` are set by `s_init`;
the ids are those that the last command was run with. -/
structure Perl (σ : Type) : Type where
  ids : Ids
  fs : σ
  /-- `$ROOT` -/
  root : Bytes
  /-- `$STABLE` is set -/
  stable : Bool
  /-- `$PRESERVE` -/
  preserve : Bool

/-- A status line. -/
def status (code : ℕ) : Bytes := ascii "### " ++ dec code ++ [nl]

namespace Perl

variable {σ : Type} (os : OS σ) (s : Perl σ)

/-- Print a status line and go back to the main loop. -/
def answer (code : ℕ) : Proc (Perl σ) := .print false (status code) (.done s)

@[simp] theorem answer_bytes {G : Type} (srv : Server G (Perl σ)) (code : ℕ) :
    ((s.answer code).wire srv).bytes = status code := by
  simp [answer, Wire.bytes]

/-- The end of a sub that asks for one change: COMPLETE, or some other code. -/
def change (r : Bool × σ) (code : ℕ) : Proc (Perl σ) :=
  { s with fs := r.2 }.answer (if r.1 then 200 else code)

/-- `$$args[i]`, as a string. -/
def arg (args : List Bytes) (i : ℕ) : Bytes := args.getD i []

/-- `"$ROOT$file"` -/
def path (file : Bytes) : Bytes := s.root ++ file

/-- `s_init` -/
def sInit (home : Bytes) (args : List Bytes) : Proc (Perl σ) :=
  let root := if arg args 0 = [] then home else arg args 0
  -- the loop ends at the first false word
  let words := (args.drop 1).takeWhile fun w => w ≠ [] ∧ w ≠ ascii "0"
  { s with
    root := root
    stable := s.stable || decide (ascii "stable" ∈ words)
    preserve := s.preserve || decide (ascii "preserve" ∈ words) }.answer 200

/-- `s_lsdir` and `s_stat`: the listing, and how it ended. -/
def listing (stat : Bool) (file : Bytes) : Proc (Perl σ) :=
  let (entries, ok) := os.ls s.ids s.fs stat s.stable (s.path file)
  .print false (entries.flatMap fun e => e ++ [nl]) (s.answer (if ok then 200 else 501))

/-- `s_lsdir` -/
def sLsdir (args : List Bytes) : Proc (Perl σ) :=
  if ¬ os.isDir s.ids s.fs (s.path (arg args 0)) then s.answer 503
  else s.listing os false (arg args 0)

/-- `s_stat` -/
def sStat (args : List Bytes) : Proc (Perl σ) :=
  if ¬ os.exists' s.ids s.fs (s.path (arg args 0)) then s.answer 503
  else s.listing os true (arg args 0)

/-- `s_open`; a mode other than `W` and `RW` opens for reading. -/
def sOpen (args : List Bytes) : Proc (Perl σ) :=
  let file := s.path (arg args 0)
  let mode :=
    if arg args 1 = ascii "W" then AccMode.wronly
    else if arg args 1 = ascii "RW" then AccMode.rdwr else AccMode.rdonly
  if ¬ os.open' s.ids s.fs mode file then
    s.answer (if os.exists' s.ids s.fs file then 501 else 503)
  else if os.nonEmpty s.ids s.fs file then s.answer 200
  else s.answer (if os.firstByte s.ids s.fs mode file then 202 else 200)

/-- The start of `s_read`, `s_sread` and `s_write`: a file that cannot be opened. -/
def notOpen (file : Bytes) : Proc (Perl σ) :=
  s.answer (if os.exists' s.ids s.fs file then 501 else 200)

/-- `s_read`: the data, filled up with zeros. -/
def sRead (args : List Bytes) : Proc (Perl σ) :=
  let file := s.path (arg args 0)
  let size := decVal (arg args 2)
  if ¬ os.open' s.ids s.fs .rdonly file then s.notOpen os file
  else
    match os.readFile s.ids s.fs file (decVal (arg args 1)) size with
    | some data =>
      .print false (status 100)
        (.print true (data ++ List.replicate (size - data.length) 0) (s.answer 200))
    | none => s.answer 500

/-- `s_sread`: the number of octets — with no line feed behind it — and the data. -/
def sSread (args : List Bytes) : Proc (Perl σ) :=
  let file := s.path (arg args 0)
  if ¬ os.open' s.ids s.fs .rdonly file then s.notOpen os file
  else
    match os.readFile s.ids s.fs file (decVal (arg args 1)) (decVal (arg args 2)) with
    | some data =>
      .print false (status 100)
        (.print false (dec data.length) (.print true data (s.answer 200)))
    | none => s.answer 500

/-- `s_write`: all the data is taken off the stream before the first `syswrite`. -/
def sWrite (args : List Bytes) : Proc (Perl σ) :=
  let file := s.path (arg args 0)
  if ¬ os.open' s.ids s.fs .wronly file then s.notOpen os file
  else
    .print false (status 100) (.take (decVal (arg args 2)) fun data =>
      s.change (os.writeFile s.ids s.fs file (decVal (arg args 1)) data) 500)

/-- `s_mkdir` -/
def sMkdir (args : List Bytes) : Proc (Perl σ) :=
  s.change (os.mkdir s.ids s.fs (s.path (arg args 0))) 501

/-- `s_rmdir` -/
def sRmdir (args : List Bytes) : Proc (Perl σ) :=
  if ¬ os.isDir s.ids s.fs (s.path (arg args 0)) then s.answer 503
  else s.change (os.rmdir s.ids s.fs (s.path (arg args 0))) 501

/-- `s_mv` -/
def sMv (args : List Bytes) : Proc (Perl σ) :=
  let r := os.rename s.ids s.fs (s.path (arg args 0)) (s.path (arg args 1))
  s.change r (if os.exists' s.ids r.2 (s.path (arg args 0)) then 501 else 503)

/-- `s_rm` -/
def sRm (args : List Bytes) : Proc (Perl σ) :=
  let r := os.unlink s.ids s.fs (s.path (arg args 0))
  s.change r (if os.exists' s.ids r.2 (s.path (arg args 0)) then 501 else 503)

/-- `s_creat` -/
def sCreat (args : List Bytes) : Proc (Perl σ) :=
  s.change (os.creat s.ids s.fs (s.path (arg args 0)) (arg args 1)) 501

/-- `s_ln`: the old name is taken as it is. -/
def sLn (args : List Bytes) : Proc (Perl σ) :=
  s.change (os.link s.ids s.fs (arg args 0) (s.path (arg args 1))) 501

/-- `s_sln` -/
def sSln (args : List Bytes) : Proc (Perl σ) :=
  s.change (os.symlink s.ids s.fs (arg args 0) (s.path (arg args 1))) 501

/-- `s_readlink`; the empty string and `0` are false. -/
def sReadlink (args : List Bytes) : Proc (Perl σ) :=
  match os.readlink s.ids s.fs (s.path (arg args 0)) with
  | none => s.answer 501
  | some target =>
    if target = [] ∨ target = ascii "0" then s.answer 501
    else .print false (target ++ [nl]) (s.answer 200)

/-- `s_chmod` -/
def sChmod (args : List Bytes) : Proc (Perl σ) :=
  s.change (os.chmod s.ids s.fs (s.path (arg args 0)) (arg args 1)) 501

/-- `s_chown` -/
def sChown (args : List Bytes) : Proc (Perl σ) :=
  s.change (os.chown s.ids s.fs (s.path (arg args 0)) (arg args 1)) 501

/-- `s_chgrp` -/
def sChgrp (args : List Bytes) : Proc (Perl σ) :=
  s.change (os.chgrp s.ids s.fs (s.path (arg args 0)) (arg args 1)) 501

/-- `s_trunc` -/
def sTrunc (args : List Bytes) : Proc (Perl σ) :=
  s.change (os.truncate s.ids s.fs (s.path (arg args 0)) (arg args 1)) 501

/-- `s_settime` -/
def sSettime (args : List Bytes) : Proc (Perl σ) :=
  s.change (os.utime s.ids s.fs (s.path (arg args 0)) (arg args 1) (arg args 2)) 501

/-- `split(/ +/, $line)`: only the first field can be empty. -/
def splitSpaces (line : Bytes) : List Bytes :=
  match line.splitOn sp with
  | [] => []
  | f :: fs => f :: fs.filter (· ≠ [])

/-- The line of numbers `s_statfs` prints. -/
def statfsLine (df : Option Bytes) : Bytes :=
  match df with
  | none => ascii "0 0 0"
  | some last =>
    let list := splitSpaces last
    arg list 1 ++ [sp] ++ arg list 2 ++ [sp] ++ arg list 3

/-- `s_statfs` -/
def sStatfs : Proc (Perl σ) :=
  .print false (statfsLine (os.df s.ids s.fs s.root) ++ [nl]) (s.answer 200)

/-- `s_ping` -/
def sPing (args : List Bytes) : Proc (Perl σ) :=
  .print false (status 100) (.print false (arg args 0 ++ [nl]) (s.answer 201))

/-- The chain of comparisons in the main loop; `home` is `$ENV{'HOME'}`. A word that is no command
is answered with an error, and nothing else of the line is looked at. -/
def runCommand (home cmd : Bytes) (args : List Bytes) : Proc (Perl σ) :=
  if cmd = ascii "s_init" then s.sInit home args
  else if cmd = ascii "s_finish" then s.answer 200
  else if cmd = ascii "s_lsdir" then s.sLsdir os args
  else if cmd = ascii "s_stat" then s.sStat os args
  else if cmd = ascii "s_open" then s.sOpen os args
  else if cmd = ascii "s_read" then s.sRead os args
  else if cmd = ascii "s_sread" then s.sSread os args
  else if cmd = ascii "s_write" then s.sWrite os args
  else if cmd = ascii "s_mkdir" then s.sMkdir os args
  else if cmd = ascii "s_rmdir" then s.sRmdir os args
  else if cmd = ascii "s_mv" then s.sMv os args
  else if cmd = ascii "s_rm" then s.sRm os args
  else if cmd = ascii "s_creat" then s.sCreat os args
  else if cmd = ascii "s_ln" then s.sLn os args
  else if cmd = ascii "s_sln" then s.sSln os args
  else if cmd = ascii "s_readlink" then s.sReadlink os args
  else if cmd = ascii "s_chmod" then s.sChmod os args
  else if cmd = ascii "s_chown" then s.sChown os args
  else if cmd = ascii "s_chgrp" then s.sChgrp os args
  else if cmd = ascii "s_trunc" then s.sTrunc os args
  else if cmd = ascii "s_settime" then s.sSettime os args
  else if cmd = ascii "s_statfs" then s.sStatfs os
  else if cmd = ascii "s_ping" then s.sPing args
  else s.answer 500

/-- One turn of the main loop, for the words of a line. -/
def mainLoop (home : Bytes) (words : List Bytes) : Proc (Perl σ) :=
  match words with
  | [] => .done s
  | cmd :: args =>
    if s.preserve then
      { s with ids := s.ids.mainLoop words }.runCommand os home cmd (args.drop 2)
    else s.runCommand os home cmd args

end Perl

/-- The Perl server: `getline` takes a line apart, octet by octet, and the main loop runs the sub
for its first word. -/
def perlServer {σ : Type} (os : OS σ) (home : Bytes) : Server Getline (Perl σ) where
  init := .init
  step := getlineStep
  dispatch s words := s.mainLoop os home words

end Shfs
