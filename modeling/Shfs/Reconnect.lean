import Shfs.Chunks
import Shfs.Command

/-!
# `shfs_ioctl`: a new connection under a mount

`SHFS_IOC_NEWCONN` (ioctl.c) puts another socket under a mounted file system. It resets the garbage
counts of `shfs_sb_info`, but not `readlnbuf_len`: the octets that `sock_readln` had read ahead from
the old connection stay in `readlnbuf` and come before the first octets of the new one.

What the later calls give is observed call by call, with the result and with what stands in the
caller's buffer (`hearAll`). Two mounts are told apart by it exactly when their line buffers differ
(`hearAll_newConn_iff`).
-/

namespace Shfs

open Lib

/-- A file that `fget` finds: what it will bring, and how much each write to it will take. -/
structure Socket : Type where
  incoming : List Chunk
  accepts : List Accept

/-- `SHFS_IOC_NEWCONN`, which is `_IOW('s', 2, int)`. -/
abbrev SHFS_IOC_NEWCONN : UInt32 := 0x40047302

/-- The `SHFS_IOC_NEWCONN` case: another socket, or none, and nothing to clear. -/
def Link.newConn (l : Link) (sock : Option Socket) : Link where
  info := ⟨sock.isSome, false, 0, 0⟩
  peer :=
    { lnbuf := l.peer.lnbuf
      incoming := (sock.map Socket.incoming).getD []
      accepts := (sock.map Socket.accepts).getD []
      sent := [] }

/-- `shfs_ioctl`, in a process with these open files. -/
def shfsIoctl (fget : UInt64 → Option Socket) (cmd : UInt32) (arg : UInt64) (l : Link) :
    Except Errno Unit × Link :=
  if cmd = SHFS_IOC_NEWCONN then (.ok (), l.newConn (fget arg)) else (.error .einval, l)

/-- A call of one of the transfers. -/
def Link.call (l : Link) (t : Transfer) : Option (Except Errno Bytes × Link) :=
  (runPeer (t.call l.info) l.peer).map fun ((r, info), peer) => (r, ⟨info, peer⟩)

/-- The checks that every transfer makes first. -/
def Link.cleared (l : Link) : Option (Except Errno Unit × Link) :=
  (runPeer (checked l.info (fun r info => .ret (r, info)) fun info => .ret (.ok (), info))
    l.peer).map fun ((r, info), peer) => (r, ⟨info, peer⟩)

/-- What is in the line buffer needs no read. -/
theorem Peer.read_of_le {p : Peer} {count : ℕ} (h : count ≤ p.lnbuf.length) :
    p.read count = (.ok (p.lnbuf.take count), { p with lnbuf := p.lnbuf.drop count }) := by
  rw [Peer.read, if_pos]
  rw [List.length_take, min_eq_left h, Nat.sub_self]

/-- The peer has closed, and the line buffer has too little. -/
theorem Peer.read_closed {p : Peer} {count : ℕ} (h : p.lnbuf.length < count)
    (hin : p.incoming = []) :
    p.read count = (.error ⟨.eio, 0⟩, { p with lnbuf := p.lnbuf.drop count }) := by
  have hne : count - (p.lnbuf.take count).length ≠ 0 := by
    rw [List.length_take]
    omega
  rw [Peer.read, if_neg hne, Peer.doSyncRead, hin]

/-- The peer has closed, and the line buffer has no line. -/
theorem Peer.readln_closed {p : Peer} (h : nextLine READLNBUF_SIZE p.lnbuf = none)
    (hin : p.incoming = []) :
    p.readln = (.error ⟨.eio, READLNBUF_SIZE - p.lnbuf.length⟩, p) := by
  have hread : p.doSyncRead (READLNBUF_SIZE - p.lnbuf.length) = (.ok [], p) := by
    rw [Peer.doSyncRead, hin]
  rw [Peer.readln, h]
  simp only
  split
  · next heq => cases hread ▸ heq
  · next heq => cases hread ▸ heq
  · next heq =>
    rw [hread] at heq
    obtain ⟨-, rfl⟩ := Prod.mk.inj heq
    rfl
  · next heq => cases hread ▸ heq

/-- A line that fits in one piece, behind what the line buffer already has. -/
theorem Peer.readln_glued {p : Peer} {line : Bytes} (hline : nl ∉ p.lnbuf ++ line)
    (hlen : (p.lnbuf ++ line).length < READLNBUF_SIZE) (hin : p.incoming = [.data (line ++ [nl])]) :
    p.readln = (.ok (p.lnbuf ++ line), { p with lnbuf := [], incoming := [] }) := by
  obtain ⟨b, bs, hb⟩ : ∃ b bs, line ++ [nl] = b :: bs := by
    cases line with
    | nil => exact ⟨nl, [], rfl⟩
    | cons b line => exact ⟨b, line ++ [nl], rfl⟩
  have hroom : p.lnbuf.length + (b :: bs).length ≤ READLNBUF_SIZE := by
    rw [← hb, ← List.length_append, ← List.append_assoc, List.length_append]
    exact hlen
  have hnone : nextLine READLNBUF_SIZE p.lnbuf = none := by
    refine nextLine_eq_none_iff.mpr ⟨fun h => hline (List.mem_append_left _ h), ?_⟩
    rw [List.length_append] at hlen
    omega
  have hread : p.doSyncRead (READLNBUF_SIZE - p.lnbuf.length) =
      (.ok (b :: bs), { p with incoming := [] }) := by
    rw [Peer.doSyncRead, hin, hb]
    dsimp only
    rw [List.take_of_length_le (by omega), if_neg (by omega)]
  have hnext : nextLine READLNBUF_SIZE (p.lnbuf ++ b :: bs) =
      some (p.lnbuf ++ line, (p.lnbuf ++ b :: bs).length) := by
    rw [← hb, ← List.append_assoc, nextLine_of_fits hline hlen, List.length_append,
      List.length_append, List.length_append]
    rfl
  rw [Peer.readln_of_data hnone hread, Peer.readln_of_line hnext]
  simp

namespace Transfer

/-- The two functions that read. -/
def Reads : Transfer → Prop
  | write _ => False
  | read _ | readln _ => True

/-- What a failing call has stored before it failed: `sock_read` first copies what the line buffer
has, once the checks are passed. -/
def begun (l : Link) (t : Transfer) : Bytes :=
  match l.cleared with
  | some (.ok (), l) =>
    match t with
    | read count => l.peer.lnbuf.take count
    | _ => []
  | _ => []

/-- What the caller of one function gets: the result, with the octets in its buffer. -/
structure Heard : Type where
  result : Except Errno Unit
  buffer : Bytes

/-- One call, and the connection state after it. -/
def hear (l : Link) (t : Transfer) : Option (Heard × Link) :=
  (l.call t).map fun
    | (.ok bs, l') => (⟨.ok (), bs⟩, l')
    | (.error e, l') => (⟨.error e, begun l t⟩, l')

/-- What the callers get from one call after the other, failed ones among them. -/
def hearAll (l : Link) : List Transfer → Option (List Heard)
  | [] => some []
  | t :: ts => do
    let (out, l) ← hear l t
    let outs ← hearAll l ts
    return out :: outs

/-- A peer that has closed the connection at once. -/
def closed : Socket := ⟨[], []⟩

variable {l : Link} {t : Transfer} {count : ℕ}

theorem hearAll_singleton :
    hearAll l [t] = ((hear l t).map Prod.fst).map fun out => [out] := by
  rw [hearAll]
  rcases hear l t with _ | ⟨out, l'⟩ <;> rfl

/-- A `sock_read` from a connection that was closed at once gives what the line buffer has, if that
is enough. -/
theorem hear_closed_of_le (h : count ≤ l.peer.lnbuf.length) :
    (hear (l.newConn (some closed)) (read count)).map Prod.fst =
      some ⟨.ok (), l.peer.lnbuf.take count⟩ := by
  have hc : (l.newConn (some closed)).info.Clean := ⟨rfl, rfl⟩
  have hread := Peer.read_of_le (p := (l.newConn (some closed)).peer) h
  rw [hear, Link.call, call, sockRead_clean hc, recv, runPeer, hread]
  rfl

/-- If it is not enough, the call fails. -/
theorem hear_closed_of_lt (h : l.peer.lnbuf.length < count) :
    ((hear (l.newConn (some closed)) (read count)).map Prod.fst).map Heard.result =
      some (.error .eio) := by
  have hc : (l.newConn (some closed)).info.Clean := ⟨rfl, rfl⟩
  have hread := Peer.read_closed (p := (l.newConn (some closed)).peer) h rfl
  rw [hear, Link.call, call, sockRead_clean hc, recv, runPeer, hread]
  rfl

/-- The octets left over are glued to the first line of the new server. -/
theorem hear_glued {line : Bytes} (hline : nl ∉ l.peer.lnbuf ++ line)
    (hlen : (l.peer.lnbuf ++ line).length < READLNBUF_SIZE) :
    (hear (l.newConn (some ⟨[.data (line ++ [nl])], []⟩)) (readln count)).map Prod.fst =
      some ⟨.ok (), (cstr (l.peer.lnbuf ++ line)).take (count - 1)⟩ := by
  have hc : (l.newConn (some ⟨[.data (line ++ [nl])], []⟩)).info.Clean := ⟨rfl, rfl⟩
  have hread := Peer.readln_glued (p := (l.newConn (some ⟨[.data (line ++ [nl])], []⟩)).peer)
    hline hlen rfl
  rw [hear, Link.call, call, sockReadln_clean hc, recvln, runPeer, hread]
  rfl

/-- **What a new connection starts with**: the later calls give the same over either mount, whatever
the new socket brings, exactly when the old connections had left the same octets in `readlnbuf`.
`SHFS_IOC_NEWCONN` changes the socket and leaves the buffer as it is. -/
theorem hearAll_newConn_iff (l₁ l₂ : Link) :
    (∀ fget arg ts, (∀ t ∈ ts, t.Reads) →
        hearAll (shfsIoctl fget SHFS_IOC_NEWCONN arg l₁).2 ts =
          hearAll (shfsIoctl fget SHFS_IOC_NEWCONN arg l₂).2 ts) ↔
      l₁.peer.lnbuf = l₂.peer.lnbuf := by
  constructor
  · intro h
    have hfirst : ∀ count, (hear (l₁.newConn (some closed)) (read count)).map Prod.fst =
        (hear (l₂.newConn (some closed)) (read count)).map Prod.fst := by
      intro count
      have hone := h (fun _ => some closed) 0 [read count] (by simp [Reads])
      simp only [shfsIoctl, if_pos, hearAll_singleton] at hone
      exact Option.map_injective (fun _ _ heq => (List.cons.inj heq).1) hone
    have hlen : ∀ {l l' : Link}, (∀ count, (hear (l.newConn (some closed)) (read count)).map
        Prod.fst = (hear (l'.newConn (some closed)) (read count)).map Prod.fst) →
          l'.peer.lnbuf.length ≤ l.peer.lnbuf.length := by
      intro l l' hfirst
      by_contra! hlt
      have hres := congrArg (Option.map Heard.result) (hfirst l'.peer.lnbuf.length)
      rw [hear_closed_of_lt hlt, hear_closed_of_le le_rfl] at hres
      cases hres
    have heq := (hlen hfirst).antisymm (hlen fun count => (hfirst count).symm)
    have hall := hfirst l₁.peer.lnbuf.length
    rw [hear_closed_of_le le_rfl, hear_closed_of_le heq.ge, List.take_length, ← heq,
      List.take_length] at hall
    exact (Heard.mk.inj (Option.some.inj hall)).2
  · intro h fget arg ts _
    have hlink : l₁.newConn (fget arg) = l₂.newConn (fget arg) := by
      rw [Link.newConn, Link.newConn, h]
    simp only [shfsIoctl, if_pos, hlink]

/-- A mount whose connection broke in the middle of a status line. -/
def brokenOff : Link := ⟨⟨false, true, 0, 0⟩, ⟨ascii "### 5", [], [], []⟩⟩

/-- The new server says that its first command is done. -/
def saysDone : Socket := ⟨[.data (ascii "### 200" ++ [nl])], []⟩

/-- The mount that has `### 5` left over hears of another status than one that has nothing left. -/
theorem not_hearAll_newConn_brokenOff :
    hearAll (shfsIoctl (fun _ => some saysDone) SHFS_IOC_NEWCONN 3 brokenOff).2
        [.readln SOCKBUF_SIZE] = some [⟨.ok (), ascii "### 5### 200"⟩] ∧
      hearAll (shfsIoctl (fun _ => some saysDone) SHFS_IOC_NEWCONN 3
        { brokenOff with peer := ⟨[], [], [], []⟩ }).2 [.readln SOCKBUF_SIZE] =
          some [⟨.ok (), ascii "### 200"⟩] := by
  simp only [shfsIoctl, if_pos, hearAll_singleton]
  constructor
  · rw [saysDone, hear_glued (by decide) (by decide)]
    rfl
  · rw [saysDone, hear_glued (by decide) (by decide)]
    rfl

end Transfer

end Shfs
