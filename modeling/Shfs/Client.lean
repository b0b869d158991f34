import Shfs.Sock
import Shfs.Request

/-!
# The client functions of shell.c

What `do_command`, `do_ls`, `shell_read`, `shell_write`, `shell_readlink` and `shell_statfs` do
between `sock_lock` and `sock_unlock`, as programs over a connection. Each of them sends the line
its builder makes (`sendLine`, with the builders of `Shfs.Command`) and then reads its reply; the
second halves have their own names, since that is where the functions differ: the order of the
transfers, the meaning of the status lines and the calls of `set_garbage`.

`do_ls` hands every line of a listing to `entry`, which stands for `parse_dir`, the decoding of the
columns and `shfs_fill_cache` (or the assignment to `*entry` for a stat). The loop goes on as long
as `entry` says so. It has no bound of its own, so `lsReply` gets one, and does not come back when
it is used up.
-/

namespace Shfs

open Lib

variable {β γ : Type}

/-- The first half of every function: no line is the exit with `-ENAMETOOLONG`. -/
def sendLine (line : Option Bytes) (info : Info) (fail : Errno → Info → Talk Fault β)
    (k : Bytes → Info → Talk Fault β) : Talk Fault β :=
  match line with
  | none => fail .enametoolong info
  | some line =>
    sockWrite line info fun
      | .error e, info => fail e info
      | .ok _, info => k line info

/-! ## `do_command` -/

/-- The result of `do_command` for a status code. -/
def commandResult (code : ℕ) : Except Errno ℕ :=
  if code = REP_COMPLETE then .ok 0
  else if code = REP_EPERM then .error .eperm
  else if code = REP_ENOENT then .error .enoent
  else if code = REP_NOTEMPTY then .ok 1
  else .error .eio

/-- The reply of `do_command`. The result of `sock_readln` is not looked at: when it fails,
`sockbuf` still holds the command. -/
def commandReply (line : Bytes) (info : Info) (k : Cont ℕ β) : Talk Fault β :=
  sockReadln SOCKBUF_SIZE info fun
    | .error _, info => k (commandResult (reply line)) info
    | .ok s, info => k (commandResult (reply s)) info

/-! ## `do_ls` -/

/-- The status codes that end a listing. -/
def lsResult (code : ℕ) : Option (Except Errno Unit) :=
  if code = REP_COMPLETE then some (.ok ())
  else if code = REP_EPERM then some (.error .eperm)
  else if code = REP_ENOENT then some (.error .enoent)
  else if code = REP_ERROR then some (.error .eio)
  else none

/-- The loop of `do_ls`, over the lines of the listing. -/
def lsReply (entry : γ → Bytes → γ × Bool) :
    ℕ → γ → Info → (Except Errno Unit → γ → Info → Talk Fault β) → Talk Fault β
  | 0, _, _, _ => .spin
  | fuel + 1, acc, info, k =>
    sockReadln SOCKBUF_SIZE info fun
      | .error e, info => k (.error e) acc info
      | .ok s, info =>
        if s = [] then k (.ok ()) acc info
        else
          match lsResult (reply s) with
          | some result => k result acc info
          | none =>
            if (entry acc s).2 then lsReply entry fuel (entry acc s).1 info k
            else k (.ok ()) (entry acc s).1 info -- `break`, with the result 0 of `shfs_fill_cache`

/-! ## `shell_read` and `shell_write` -/

/-- The last status line of a read or a write. -/
def transferResult {ρ : Type} (code : ℕ) (r : ρ) : Except Errno ρ :=
  if code = REP_COMPLETE then .ok r
  else if code = REP_EPERM then .error .eperm
  else if code = REP_ENOENT then .error .enoent
  else .error .eio

/-- The end of `shell_read`: the data and the status line behind it. -/
def dataReply (count : ℕ) (info : Info) (k : Cont (ℕ × Bytes) β) : Talk Fault β :=
  sockRead count info fun
    | .error e, info => k (.error e) info
    | .ok data, info =>
      sockReadln SOCKBUF_SIZE info fun
        | .error e, info => k (.error e) info
        | .ok s, info => k (transferResult (reply s) (count, data)) info

/-- The reply of `shell_read`. -/
def readReply (count : ℕ) (ino : UInt64) (info : Info) (k : Cont (ℕ × Bytes) β) : Talk Fault β :=
  sockReadln SOCKBUF_SIZE info fun
    | .error e, info => k (.error e) (info.setGarbage false count)
    | .ok s, info =>
      if reply s = REP_PRELIM then
        if ino ≠ 0 then
          sockReadln SOCKBUF_SIZE info fun
            | .error e, info => k (.error e) info
            | .ok s, info => dataReply (decVal s % 2 ^ 32) info k
        else dataReply count info k
      else if reply s = REP_EPERM then k (.error .eperm) info
      else if reply s = REP_ENOENT then k (.error .enoent) info
      else k (.error .eio) (info.setGarbage false count)

/-- The end of `shell_write`: the status line behind the data. -/
def writtenReply (count : ℕ) (info : Info) (k : Cont ℕ β) : Talk Fault β :=
  sockReadln SOCKBUF_SIZE info fun
    | .error e, info => k (.error e) info
    | .ok s, info =>
      if reply s = REP_ENOSPC then k (.error .enospc) (info.setGarbage true count)
      else k (transferResult (reply s) count) info

/-- The reply of `shell_write`. -/
def writeReply (count : ℕ) (data : Bytes) (info : Info) (k : Cont ℕ β) : Talk Fault β :=
  sockReadln SOCKBUF_SIZE info fun
    | .error e, info => k (.error e) (info.setGarbage true count)
    | .ok s, info =>
      if reply s = REP_PRELIM then
        sockWrite data info fun
          | .error e, info => k (.error e) info
          | .ok _, info => writtenReply count info k
      else if reply s = REP_EPERM then k (.error .eperm) info
      else if reply s = REP_ENOENT then k (.error .enoent) info
      else k (.error .eio) info

/-! ## `shell_readlink` and `shell_statfs` -/

/-- The end of `shell_readlink` and of `shell_statfs`. -/
def textReply {ρ : Type} (r : ρ) (info : Info) (k : Cont ρ β) : Talk Fault β :=
  sockReadln SOCKBUF_SIZE info fun
    | .error e, info => k (.error e) info
    | .ok s, info =>
      if reply s = REP_COMPLETE then k (.ok r) info
      else if reply s = REP_EPERM then k (.error .eperm) info
      else k (.error .eio) { info with garbage := true }

/-- The reply of `shell_readlink`: the string that is copied to `real_name`. -/
def readlinkReply (info : Info) (k : Cont Bytes β) : Talk Fault β :=
  sockReadln SOCKBUF_SIZE info fun
    | .error e, info => k (.error e) info
    | .ok real, info =>
      if reply real = REP_COMPLETE then k (.error .eio) info
      else if reply real = REP_EPERM then k (.error .eperm) info
      else textReply (real.take (SHFS_PATH_MAX - 1)) info k

/-- The numbers `shell_statfs` fills in. -/
structure Kstatfs : Type where
  blocks : UInt64
  bfree : UInt64
  bavail : UInt64
  deriving DecidableEq, Repr

/-- The line of numbers: `strsep` at single spaces, a field that is missing leaves the default. -/
def parseStatfs (s : Bytes) : Kstatfs :=
  let fields := (s.splitOn sp).map fun w => UInt64.ofNat (decVal w) >>> 2
  let blocks := fields.getD 0 0
  ⟨blocks, (fields[1]?.map fun used => blocks - used).getD 0, fields.getD 2 1⟩

/-- The reply of `shell_statfs`. -/
def statfsReply (info : Info) (k : Cont Kstatfs β) : Talk Fault β :=
  sockReadln SOCKBUF_SIZE info fun
    | .error e, info => k (.error e) info
    | .ok numbers, info => textReply (parseStatfs numbers) info k

/-! ## The functions -/

section Client

variable (preserveOwn : Bool) (cred : Cred)

/-- `do_command`, for the result of one of its callers. -/
def doCommand (c : Option Cmd) (info : Info) (k : Cont ℕ β) : Talk Fault β :=
  sendLine (c.bind fun c => (doCommandLine preserveOwn cred c.cmd c.args).line) info
    (fun e info => k (.error e) info) fun line info => commandReply line info k

/-- `do_ls`, for `shell_stat` or for `shell_readdir`. -/
def doLs (entry : γ → Bytes → γ × Bool) (fuel : ℕ) (stat : Bool) (file : Bytes) (acc : γ)
    (info : Info) (k : Except Errno Unit → γ → Info → Talk Fault β) : Talk Fault β :=
  sendLine ((checkPath file).bind fun file => (doLsLine preserveOwn cred stat file).line) info
    (fun e info => k (.error e) acc info) fun _ info => lsReply entry fuel acc info k

/-- `shell_read`: the number of octets and what has been stored. `ino` 0 is a normal read, for any
other the server tells the count before the data. -/
def shellRead (file : Bytes) (offset count : UInt32) (ino : UInt64) (info : Info)
    (k : Cont (ℕ × Bytes) β) : Talk Fault β :=
  sendLine ((checkPath file).bind fun file =>
      (shellReadLine preserveOwn cred file offset count ino).line) info
    (fun e info => k (.error e) info) fun _ info => readReply count.toNat ino info k

/-- `shell_write` of the `count` octets `data`, on a mount with this `fcache_size`. -/
def shellWrite (fcacheSize : UInt32) (file : Bytes) (offset count : UInt32) (data : Bytes)
    (ino : UInt64) (info : Info) (k : Cont ℕ β) : Talk Fault β :=
  sendLine ((checkPath file).bind fun file =>
      (shellWriteLine preserveOwn cred fcacheSize file offset count ino).line) info
    (fun e info => k (.error e) info) fun _ info => writeReply count.toNat data info k

/-- `shell_readlink`; the old contents of `real_name` go through `check_path` as well. -/
def shellReadlink (name realName : Bytes) (info : Info) (k : Cont Bytes β) : Talk Fault β :=
  sendLine ((checkPath name).bind fun name => (checkPath realName).bind fun _ =>
      (shellReadlinkLine preserveOwn cred name).line) info
    (fun e info => k (.error e) info) fun _ info => readlinkReply info k

/-- `shell_statfs` -/
def shellStatfs (info : Info) (k : Cont Kstatfs β) : Talk Fault β :=
  sendLine (shellStatfsLine preserveOwn cred).line info
    (fun e info => k (.error e) info) fun _ info => statfsReply info k

end Client

end Shfs
