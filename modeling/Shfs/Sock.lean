import Shfs.Lib.Dialogue
import Shfs.Quote

/-!
# `sock_write`, `sock_read`, `sock_readln` and `clear_garbage`

The transfers of proc.c as programs over a connection. `Info` is what they keep in
`shfs_sb_info`: whether the socket is still there, and what an interrupted command has left on the
streams. Each transfer first looks at `info->garbage`, and clears it with `clearGarbage`: fill up
what the server still waits for, read what it still sends, then send a ping and read lines until
its answer has come.

A transfer is written with a continuation, which gets the result of the C function — an error, or
the octets read — and the `Info` it leaves. Inside `clearGarbage` the flag is off, so there the
transfers are called without the check (`sendOpen`, `recvOpen`, `recvlnOpen`).
-/

namespace Shfs

open Lib

/-- `READLNBUF_SIZE` (shfs_fs.h). -/
abbrev READLNBUF_SIZE : ℕ := SHFS_PATH_MAX * 10

/-- The error codes of the module, and those that only come from the socket. -/
inductive Errno : Type where
  | eperm
  | enoent
  | eintr
  | eio
  | eagain
  | einval
  | enospc
  | enametoolong
  | other (code : ℕ)
  deriving DecidableEq, Repr

/-- A failed transfer: the result, and for `sock_readln` how much of the line buffer was free. -/
structure Fault : Type where
  errno : Errno
  room : ℕ
  deriving DecidableEq, Repr

/-- The connection state in `shfs_sb_info`. -/
structure Info : Type where
  /-- `info->sock` is not NULL -/
  sock : Bool
  garbage : Bool
  garbageRead : ℤ
  garbageWrite : ℤ
  deriving DecidableEq, Repr

/-- A count passed as an `int`. -/
def asInt (count : ℕ) : ℤ := (count : ℤ).bmod (2 ^ 32)

theorem asInt_of_lt {count : ℕ} (h : count < 2 ^ 31) : asInt count = count := by
  have hmod : ((count : ℤ) % (2 ^ 32 : ℕ)) = count := Int.emod_eq_of_lt (by omega) (by omega)
  unfold asInt
  rw [Int.bmod_def, hmod]
  split <;> omega

/-- `set_garbage`. -/
def Info.setGarbage (info : Info) (write : Bool) (count : ℕ) : Info :=
  if write then { info with garbage := true, garbageWrite := asInt count }
  else { info with garbage := true, garbageRead := asInt count }

@[simp] theorem Info.setGarbage_sock (info : Info) (write : Bool) (count : ℕ) :
    (info.setGarbage write count).sock = info.sock := by
  cases write <;> rfl

@[simp] theorem Info.setGarbage_garbage (info : Info) (write : Bool) (count : ℕ) :
    (info.setGarbage write count).garbage = true := by
  cases write <;> rfl

/-- What a failed transfer leaves: the socket is given up, and the octets it was after are garbage.
A socket has no file position, so `f->f_pos - begin` is 0. -/
def Info.fail (info : Info) (write : Bool) (count : ℕ) : Info :=
  { info.setGarbage write count with sock := false }

/-! ## Replies -/

/-- `reply`: the code of a status line, 0 for any other line. -/
def reply (s : Bytes) : ℕ :=
  if ascii "### " <+: s then decVal (s.drop 4) % 2 ^ 32 else 0

/-- `REP_PRELIM` -/
abbrev REP_PRELIM : ℕ := 100

/-- `REP_COMPLETE` -/
abbrev REP_COMPLETE : ℕ := 200

/-- `REP_NOP` -/
abbrev REP_NOP : ℕ := 201

/-- `REP_NOTEMPTY`: file with zero size but not empty. -/
abbrev REP_NOTEMPTY : ℕ := 202

/-- `REP_ERROR` -/
abbrev REP_ERROR : ℕ := 500

/-- `REP_EPERM` -/
abbrev REP_EPERM : ℕ := 501

/-- `REP_ENOSPC` -/
abbrev REP_ENOSPC : ℕ := 502

/-- `REP_ENOENT` -/
abbrev REP_ENOENT : ℕ := 503

/-! ## Transfers without the check for garbage -/

/-- A program that goes on with the result of a C function. -/
abbrev Cont (ρ β : Type) : Type := Except Errno ρ → Info → Talk Fault β

variable {β : Type}

/-- `sock_write` behind its checks. -/
def send (bs : Bytes) (info : Info) (k : Cont Unit β) : Talk Fault β :=
  .write bs fun
    | .ok _ => k (.ok ()) info
    | .error f => k (.error f.errno) (info.fail true bs.length)

/-- `sock_read` behind its checks; the result is what it has stored. -/
def recv (count : ℕ) (info : Info) (k : Cont Bytes β) : Talk Fault β :=
  .read count fun
    | .ok bs => k (.ok bs) info
    | .error f => k (.error f.errno) (info.fail false count)

/-- `sock_readln` behind its checks: the string it stores, of at most `count - 1` octets. -/
def recvln (count : ℕ) (info : Info) (k : Cont Bytes β) : Talk Fault β :=
  .readln fun
    | .ok l => k (.ok ((cstr l).take (count - 1))) info
    | .error f => k (.error f.errno) (info.fail false f.room)

/-- `sock_write` with `info->garbage` off. -/
def sendOpen (bs : Bytes) (info : Info) (k : Cont Unit β) : Talk Fault β :=
  if info.sock then send bs info k else k (.error .eio) info

/-- `sock_read` with `info->garbage` off. -/
def recvOpen (count : ℕ) (info : Info) (k : Cont Bytes β) : Talk Fault β :=
  if info.sock then recv count info k else k (.error .eio) info

/-- `sock_readln` with `info->garbage` off. -/
def recvlnOpen (count : ℕ) (info : Info) (k : Cont Bytes β) : Talk Fault β :=
  if info.sock then recvln count info k else k (.error .eio) info

/-! ## `clear_garbage` -/

/-- Octets `clear_garbage` moves at once. -/
abbrev GARBAGEBUF_SIZE : ℕ := 256

/-- The first loop of `clear_garbage`: blanks for what the server still waits for. -/
def fillGarbage (garbage : ℕ) (info : Info) (k : Cont Unit β) : Talk Fault β :=
  if garbage = 0 then k (.ok ()) info
  else
    let c := min garbage GARBAGEBUF_SIZE
    sendOpen (List.replicate c sp) { info with garbage := false } fun
      | .ok _, info => fillGarbage (garbage - c) info k
      | .error e, info => k (.error e) { info with garbageWrite := garbage }
termination_by garbage
decreasing_by
  have : GARBAGEBUF_SIZE = 256 := rfl
  omega

/-- The second loop of `clear_garbage`: read what the server still sends. -/
def drainGarbage (garbage : ℕ) (info : Info) (k : Cont Unit β) : Talk Fault β :=
  if garbage = 0 then k (.ok ()) info
  else
    let c := min garbage GARBAGEBUF_SIZE
    recvOpen c { info with garbage := false } fun
      | .ok _, info => drainGarbage (garbage - c) info k
      | .error e, info => k (.error e) { info with garbageRead := garbage }
termination_by garbage
decreasing_by
  have : GARBAGEBUF_SIZE = 256 := rfl
  omega

/-- `static unsigned long seq`, which nothing ever changes. -/
def seq : ℕ := 12345

/-- The ping, as `sprintf` makes it. -/
def pingLine : Bytes := [nl, nl] ++ ascii "s_ping " ++ dec seq

/-- The `state` of the last loop: nothing of the answer, its first line, or the first two. -/
inductive Seen : Type where
  | nothing
  | prelim
  | number
  deriving DecidableEq, Repr

/-- One line in the last loop; `none` is the end of the answer. -/
def seenStep (state : Seen) (buffer : Bytes) : Option Seen :=
  if (state = .nothing ∨ state = .prelim) ∧ reply buffer = REP_PRELIM then some .prelim
  else if state = .prelim ∧ decVal buffer % 2 ^ 64 = seq - 1 then some .number
  else if state = .number ∧ reply buffer = REP_NOP then none
  else some .nothing

/-- The last loop of `clear_garbage`, with `i` turns left. Running out of turns leaves the flag on
and returns the length of the last line. -/
def awaitPong : ℕ → Seen → Info → Cont Unit β → Talk Fault β
  | 0, _, info, k => k (.ok ()) { info with garbage := true }
  | i + 1, state, info, k =>
    recvlnOpen GARBAGEBUF_SIZE { info with garbage := false } fun
      | .error e, info => k (.error e) { info with garbage := true }
      | .ok buffer, info =>
        match seenStep state buffer with
        | none => k (.ok ()) info
        | some state => awaitPong i state info k

/-- `clear_garbage`; for a count that is not positive its loops do nothing. -/
def clearGarbage (info : Info) (k : Cont Unit β) : Talk Fault β :=
  fillGarbage info.garbageWrite.toNat info fun
    | .error e, info => k (.error e) { info with garbage := true }
    | .ok _, info =>
      let info := { info with garbageWrite := 0 }
      drainGarbage info.garbageRead.toNat info fun
        | .error e, info => k (.error e) { info with garbage := true }
        | .ok _, info =>
          let info := { info with garbageRead := 0, garbage := false }
          sendOpen pingLine info fun
            | .error e, info => k (.error e) { info with garbage := true }
            | .ok _, info => awaitPong 100000 .nothing info k

/-! ## The transfers -/

/-- The checks every transfer starts with. -/
def checked {ρ : Type} (info : Info) (k : Cont ρ β) (transfer : Info → Talk Fault β) :
    Talk Fault β :=
  if info.sock then
    if info.garbage then
      clearGarbage info fun
        | .error e, info => k (.error e) info
        | .ok _, info => transfer info
    else transfer info
  else k (.error .eio) info

/-- `sock_write` -/
def sockWrite (bs : Bytes) (info : Info) (k : Cont Unit β) : Talk Fault β :=
  checked info k fun info => send bs info k

/-- `sock_read` -/
def sockRead (count : ℕ) (info : Info) (k : Cont Bytes β) : Talk Fault β :=
  checked info k fun info => recv count info k

/-- `sock_readln` -/
def sockReadln (count : ℕ) (info : Info) (k : Cont Bytes β) : Talk Fault β :=
  checked info k fun info => recvln count info k

/-- A connection on which nothing is left over. -/
structure Info.Clean (info : Info) : Prop where
  sock : info.sock = true
  garbage : info.garbage = false

variable {info : Info} {count : ℕ} {bs : Bytes}

theorem checked_clean (h : info.Clean) {ρ : Type} (k : Cont ρ β) (transfer : Info → Talk Fault β) :
    checked info k transfer = transfer info := by
  simp [checked, h.sock, h.garbage]

theorem sockWrite_clean (h : info.Clean) (k : Cont Unit β) :
    sockWrite bs info k = send bs info k :=
  checked_clean h k _

theorem sockRead_clean (h : info.Clean) (k : Cont Bytes β) :
    sockRead count info k = recv count info k :=
  checked_clean h k _

theorem sockReadln_clean (h : info.Clean) (k : Cont Bytes β) :
    sockReadln count info k = recvln count info k :=
  checked_clean h k _

end Shfs
