import Shfs.Lib.Run
import Shfs.Sock

/-!
# The transfers over a chunked socket

What `do_sync_read` and `do_sync_write` do to the two streams: a read returns some of the octets
still to come, a write accepts some of what it is given. `Peer` is the kernel's side of the
connection — the line buffer, the chunks in which the incoming stream will turn up, and how much
each write will accept — and `Talk.runPeer` runs a program on it.

`sock_readln` reads until its buffer holds a line, so it does not notice the chunks
(`Peer.readln_spec`). `sock_read` and `sock_write` call the kernel once and return `count` whatever
it moved; `transfers_eq_stream_iff` says that they are right exactly when that one call moves
everything.
-/

namespace Shfs

open Lib

/-- What the next `do_sync_read` finds: some octets (none when the peer has closed), or an error. -/
inductive Chunk : Type where
  | data (bs : Bytes)
  | fail (e : Errno)
  deriving DecidableEq, Repr

/-- How much of its data the next `do_sync_write` accepts: `k + 1` octets, or an error. -/
inductive Accept : Type where
  | upTo (k : ℕ)
  | fail (e : Errno)
  deriving DecidableEq, Repr

/-- The connection below the transfers. -/
structure Peer : Type where
  /-- the `readlnbuf_len` octets of `readlnbuf` -/
  lnbuf : Bytes
  incoming : List Chunk
  accepts : List Accept
  /-- what has been put on the wire -/
  sent : Bytes
  deriving DecidableEq, Repr

namespace Peer

/-- `do_sync_read` of at most `n` octets. -/
def doSyncRead (p : Peer) (n : ℕ) : Except Errno Bytes × Peer :=
  match p.incoming with
  | [] => (.ok [], p)
  | .fail e :: cs => (.error e, { p with incoming := cs })
  | .data bs :: cs =>
    (.ok (bs.take n), { p with incoming := if n < bs.length then .data (bs.drop n) :: cs else cs })

/-- `do_sync_write`: how many of the octets it has accepted. -/
def doSyncWrite (p : Peer) (bs : Bytes) : Except Errno ℕ × Peer :=
  match p.accepts with
  | [] => (.ok bs.length, { p with sent := p.sent ++ bs })
  | .fail e :: as => (.error e, { p with accepts := as })
  | .upTo k :: as =>
    (.ok (min (k + 1) bs.length), { p with accepts := as, sent := p.sent ++ bs.take (k + 1) })

/-- `sock_write` behind its checks: one call of `do_sync_write`. -/
def write (p : Peer) (bs : Bytes) : Except Fault Unit × Peer :=
  match p.doSyncWrite bs with
  | (.ok _, p) => (.ok (), p)
  | (.error e, p) => (.error ⟨e, 0⟩, p)

/-- `sock_read` behind its checks: what the line buffer has, and one call of `do_sync_read` for
the rest. -/
def read (p : Peer) (count : ℕ) : Except Fault Bytes × Peer :=
  let head := p.lnbuf.take count
  let c := count - head.length
  let p := { p with lnbuf := p.lnbuf.drop count }
  if c = 0 then (.ok head, p)
  else
    match p.doSyncRead c with
    | (.error e, p) => (.error ⟨e, 0⟩, p)
    | (.ok [], p) => (.error ⟨.eio, 0⟩, p)
    | (.ok (b :: bs), p) => (.ok (head ++ b :: bs), p)

/-- The octets still to come from the socket. -/
def chunkBytes : List Chunk → Bytes
  | [] => []
  | .data bs :: cs => bs ++ chunkBytes cs
  | .fail _ :: cs => chunkBytes cs

/-- The whole incoming stream: what `sock_readln` has left over in `readlnbuf`, and in front of the
client the chunks in which the kernel has the rest. -/
def stream (p : Peer) : Bytes := p.lnbuf ++ chunkBytes p.incoming

/-- What is left to do, for the loop of `sock_readln`. -/
def weight (p : Peer) : ℕ := p.incoming.length + (chunkBytes p.incoming).length

/-- A read that yields octets or an error other than the end uses up some of what is to come. -/
theorem weight_doSyncRead {p p' : Peer} {n : ℕ} {r : Except Errno Bytes}
    (h : p.doSyncRead n = (r, p')) (hr : r ≠ .ok []) : p'.weight < p.weight := by
  unfold doSyncRead at h
  split at h
  · obtain ⟨rfl, -⟩ := Prod.mk.inj h
    exact absurd rfl hr
  · next e cs hin =>
    obtain ⟨-, rfl⟩ := Prod.mk.inj h
    simp [weight, hin, chunkBytes]
  · next bs cs hin =>
    obtain ⟨rfl, rfl⟩ := Prod.mk.inj h
    have hn : 0 < n ∧ bs ≠ [] := by
      simpa [Nat.pos_iff_ne_zero] using hr
    simp only [weight, hin]
    split
    · simp [chunkBytes]
      omega
    · simp [chunkBytes]
      omega

/-- `sock_readln` behind its checks: read until the buffer has a line. With the buffer full, the
last octet in it is taken for the end of the line. -/
def readln (p : Peer) : Except Fault Bytes × Peer :=
  match nextLine READLNBUF_SIZE p.lnbuf with
  | some (l, n) => (.ok l, { p with lnbuf := p.lnbuf.drop n })
  | none =>
    match _h : p.doSyncRead (READLNBUF_SIZE - p.lnbuf.length) with
    | (.error .eagain, p') => p'.readln
    | (.error e, p') => (.error ⟨e, READLNBUF_SIZE - p.lnbuf.length⟩, p')
    | (.ok [], p') => (.error ⟨.eio, READLNBUF_SIZE - p.lnbuf.length⟩, p')
    | (.ok (b :: bs), p') => { p' with lnbuf := p'.lnbuf ++ b :: bs }.readln
termination_by p.weight
decreasing_by
  · exact weight_doSyncRead _h (by simp)
  · change p'.weight < p.weight
    exact weight_doSyncRead _h (by simp)

/-! ## What a call does to the stream -/

variable {p p' : Peer} {n count : ℕ} {bs l out : Bytes} {e : Errno}

theorem doSyncRead_ok (h : p.doSyncRead n = (.ok bs, p')) :
    p'.lnbuf = p.lnbuf ∧ bs.length ≤ n ∧
      chunkBytes p.incoming = bs ++ chunkBytes p'.incoming := by
  unfold doSyncRead at h
  split at h
  · next hin =>
    obtain ⟨hbs, rfl⟩ := Prod.mk.inj h
    obtain rfl := Except.ok.inj hbs
    simp
  · cases (Prod.mk.inj h).1
  · next bs' cs hin =>
    obtain ⟨hbs, rfl⟩ := Prod.mk.inj h
    obtain rfl := Except.ok.inj hbs
    refine ⟨rfl, List.length_take_le _ _, ?_⟩
    simp only [hin, chunkBytes]
    split
    · rw [chunkBytes, ← List.append_assoc, List.take_append_drop]
    · rw [List.take_of_length_le (by omega)]

theorem doSyncRead_error (h : p.doSyncRead n = (.error e, p')) :
    p'.lnbuf = p.lnbuf ∧ chunkBytes p'.incoming = chunkBytes p.incoming := by
  unfold doSyncRead at h
  split at h
  · cases (Prod.mk.inj h).1
  · next e' cs hin =>
    obtain ⟨-, rfl⟩ := Prod.mk.inj h
    simp [hin, chunkBytes]
  · cases (Prod.mk.inj h).1

/-- A line in the buffer is the result. -/
theorem readln_of_line (h : nextLine READLNBUF_SIZE p.lnbuf = some (l, n)) :
    p.readln = (.ok l, { p with lnbuf := p.lnbuf.drop n }) := by
  rw [readln, h]

/-- Without one, the octets of the next read are added to the buffer. -/
theorem readln_of_data {b : Byte} (h : nextLine READLNBUF_SIZE p.lnbuf = none)
    (hread : p.doSyncRead (READLNBUF_SIZE - p.lnbuf.length) = (.ok (b :: bs), p')) :
    p.readln = { p' with lnbuf := p'.lnbuf ++ b :: bs }.readln := by
  rw [readln, h]
  simp only
  split
  · next heq => cases hread ▸ heq
  · next heq => cases hread ▸ heq
  · next heq => cases hread ▸ heq
  · next heq =>
    rw [hread] at heq
    obtain ⟨hbs, rfl⟩ := Prod.mk.inj heq
    cases Except.ok.inj hbs
    rfl

/-- A read that is to be tried again leaves the buffer as it was. -/
theorem readln_of_again (h : nextLine READLNBUF_SIZE p.lnbuf = none)
    (hread : p.doSyncRead (READLNBUF_SIZE - p.lnbuf.length) = (.error .eagain, p')) :
    p.readln = p'.readln := by
  rw [readln, h]
  simp only
  split
  · next heq => rw [(Prod.mk.inj (hread.symm.trans heq)).2]
  · next hne heq => exact absurd (Except.error.inj (Prod.mk.inj (hread.symm.trans heq)).1).symm hne
  · next heq => cases hread ▸ heq
  · next heq => cases hread ▸ heq

/-- **`sock_readln` reads the next line of the stream**, however it comes, and takes it off the
stream. What it has read ahead is part of the stream still. -/
theorem readln_spec (hbuf : p.lnbuf.length ≤ READLNBUF_SIZE) (h : p.readln = (.ok l, p')) :
    ∃ n, nextLine READLNBUF_SIZE p.stream = some (l, n) ∧ p'.stream = p.stream.drop n ∧
      p'.lnbuf.length ≤ READLNBUF_SIZE := by
  induction hw : p.weight using Nat.strong_induction_on generalizing p with
  | _ w ih =>
    rw [readln] at h
    split at h
    · next l' n hline =>
      obtain ⟨hl, rfl⟩ := Prod.mk.inj h
      obtain rfl := Except.ok.inj hl
      have hle := nextLine_le_length hline
      refine ⟨n, nextLine_append hline _, ?_, ?_⟩
      · simp only [stream, List.drop_append_of_le_length hle]
      · simp only [List.length_drop]
        omega
    · next hnone =>
      have hroom := (nextLine_eq_none_iff.mp hnone).2
      split at h
      · next p₁ hread =>
        obtain ⟨hln, hbytes⟩ := doSyncRead_error hread
        have hstream : p₁.stream = p.stream := by rw [stream, stream, hln, hbytes]
        have hlt := weight_doSyncRead hread (by simp)
        rw [← hstream]
        exact ih _ (hw ▸ hlt) (by rwa [hln]) h rfl
      · cases (Prod.mk.inj h).1
      · cases (Prod.mk.inj h).1
      · next b bs p₁ hread =>
        obtain ⟨hln, hlen, hbytes⟩ := doSyncRead_ok hread
        have hstream : ({ p₁ with lnbuf := p₁.lnbuf ++ b :: bs } : Peer).stream = p.stream := by
          simp only [stream, hln, hbytes, List.append_assoc]
        have hlt := weight_doSyncRead hread (by simp)
        rw [← hstream]
        refine ih p₁.weight (hw ▸ hlt) ?_ h rfl
        rw [hln, List.length_append]
        omega

/-- What `sock_read` stores is what it takes off the stream, and all of it if the kernel hands over
the missing octets at once. -/
theorem read_spec (h : p.read count = (.ok out, p')) :
    p.stream = out ++ p'.stream ∧ out.length ≤ count ∧ p'.lnbuf.length ≤ p.lnbuf.length ∧
      (out.length = count ↔
        ∀ bs, p.incoming.head? = some (.data bs) → count ≤ p.lnbuf.length + bs.length) := by
  unfold read at h
  simp only [List.length_take] at h
  split at h
  · next hc =>
    obtain ⟨hout, rfl⟩ := Prod.mk.inj h
    obtain rfl := Except.ok.inj hout
    have hle : count ≤ p.lnbuf.length := by omega
    refine ⟨?_, List.length_take_le _ _, ?_, ?_⟩
    · simp only [stream, ← List.append_assoc, List.take_append_drop]
    · simp only [List.length_drop]
      omega
    · rw [List.length_take, min_eq_left hle]
      exact ⟨fun _ _ _ => by omega, fun _ => rfl⟩
  · next hc =>
    split at h
    · cases (Prod.mk.inj h).1
    · cases (Prod.mk.inj h).1
    · next p₁ b bs hread =>
      obtain ⟨hout, rfl⟩ := Prod.mk.inj h
      obtain rfl := Except.ok.inj hout
      obtain ⟨hln, hlen, hbytes⟩ := doSyncRead_ok hread
      have hgt : p.lnbuf.length < count := by omega
      have hdrop : p.lnbuf.drop count = [] := List.drop_eq_nil_of_le hgt.le
      rw [List.take_of_length_le hgt.le]
      simp only [min_eq_right hgt.le] at hlen hread
      refine ⟨?_, ?_, ?_, ?_⟩
      · simp only [stream, hln, hdrop, hbytes, List.nil_append, List.append_assoc]
      · rw [List.length_append]
        omega
      · rw [hln, hdrop]
        exact Nat.zero_le _
      · unfold doSyncRead at hread
        simp only at hread
        split at hread
        · cases Except.ok.inj (Prod.mk.inj hread).1
        · cases (Prod.mk.inj hread).1
        · next bs' cs hin =>
          obtain hbs := Except.ok.inj (Prod.mk.inj hread).1
          rw [hin, ← hbs, List.length_append, List.length_take]
          simp only [List.head?_cons, Option.some.injEq, Chunk.data.injEq, forall_eq']
          omega

/-- What `sock_write` puts on the wire: some octets, and the right ones if the kernel accepts
everything at once. -/
theorem write_spec {u : Unit} (h : p.write bs = (.ok u, p')) :
    p'.lnbuf = p.lnbuf ∧ p'.incoming = p.incoming ∧ ∃ out, p'.sent = p.sent ++ out ∧
      (out = bs ↔ ∀ k, p.accepts.head? = some (.upTo k) → bs.length ≤ k + 1) := by
  unfold write doSyncWrite at h
  rcases hacc : p.accepts with _ | ⟨k | e, as⟩
  · simp only [hacc] at h
    obtain ⟨-, rfl⟩ := Prod.mk.inj h
    exact ⟨rfl, rfl, bs, rfl, by simp⟩
  · simp only [hacc] at h
    obtain ⟨-, rfl⟩ := Prod.mk.inj h
    exact ⟨rfl, rfl, bs.take (k + 1), rfl, by simp⟩
  · simp only [hacc] at h
    cases (Prod.mk.inj h).1

end Peer

/-! ## Sequences of transfers -/

/-- A program on a chunked connection; `none` if it does not come back. -/
def runPeer {α : Type} : Talk Fault α → Peer → Option (α × Peer)
  | .ret a, p => some (a, p)
  | .spin, _ => none
  | .write bs k, p => runPeer (k (p.write bs).1) (p.write bs).2
  | .readln k, p => runPeer (k p.readln.1) p.readln.2
  | .read n k, p => runPeer (k (p.read n).1) (p.read n).2

/-- A call of one of the three functions that move octets: `sock_write`, `sock_read` and
`sock_readln`. -/
inductive Transfer : Type where
  | write (bs : Bytes)
  | read (count : ℕ)
  | readln (count : ℕ)

/-- The two halves of the connection state. -/
structure Link : Type where
  info : Info
  peer : Peer

namespace Transfer

/-- The call: its result, and the connection state after it. -/
def call (t : Transfer) (info : Info) : Talk Fault (Except Errno Bytes × Info) :=
  match t with
  | write bs => sockWrite bs info fun r info => .ret (r.map fun _ => [], info)
  | read count => sockRead count info fun r info => .ret (r, info)
  | readln count => sockReadln count info fun r info => .ret (r, info)

/-- A call that does not fail: what it moved — for `sock_write` the octets put on the wire, for
the others the octets stored — and the state after it. -/
def perform (l : Link) (t : Transfer) : Option (Bytes × Link) :=
  match runPeer (t.call l.info) l.peer with
  | some ((.ok bs, info), peer) =>
    match t with
    | write _ => some (peer.sent.drop l.peer.sent.length, ⟨info, peer⟩)
    | _ => some (bs, ⟨info, peer⟩)
  | _ => none

/-- Calls none of which fails, in their order, with what each of them has moved. There is no result
if one of them does not come back or fails. -/
def performAll (l : Link) : List Transfer → Option (List Bytes × Link)
  | [] => some ([], l)
  | t :: ts => do
    let (out, l) ← perform l t
    let (outs, l) ← performAll l ts
    return (out :: outs, l)

/-- The call on the stream itself: what it should move, and the stream after it. -/
def onStream (stream : Bytes) : Transfer → Option (Bytes × Bytes)
  | write bs => some (bs, stream)
  | read count =>
    if count ≤ stream.length then some (stream.take count, stream.drop count) else none
  | readln count =>
    (nextLine READLNBUF_SIZE stream).map fun (l, n) => ((cstr l).take (count - 1), stream.drop n)

/-- The calls on the stream itself, which is not cut: what each of them should move, and what should
be left. -/
def allOnStream (stream : Bytes) : List Transfer → Option (List Bytes × Bytes)
  | [] => some ([], stream)
  | t :: ts => do
    let (out, stream) ← t.onStream stream
    let (outs, stream) ← allOnStream stream ts
    return (out :: outs, stream)

/-- The kernel moves everything the call needs in the one call it gets: what `sock_read` does not
find in the line buffer comes in one piece, what `sock_write` has is accepted in one piece. -/
def InOnePiece (p : Peer) : Transfer → Prop
  | write bs => ∀ k, p.accepts.head? = some (.upTo k) → bs.length ≤ k + 1
  | read count =>
    ∀ bs, p.incoming.head? = some (.data bs) → count ≤ p.lnbuf.length + bs.length
  | readln _ => True

/-- The state after a call, for runs. -/
def next (l : Link) (t : Transfer) : Link := ((perform l t).map Prod.snd).getD l

variable {l l' : Link} {t : Transfer} {ts : List Transfer} {out : Bytes} {outs : List Bytes}

/-- **One call**: it leaves the connection clean, and moves what it should move exactly when the
kernel does it in one piece. -/
theorem perform_spec (hc : l.info.Clean) (hbuf : l.peer.lnbuf.length ≤ READLNBUF_SIZE)
    (h : perform l t = some (out, l')) :
    l'.info.Clean ∧ l'.peer.lnbuf.length ≤ READLNBUF_SIZE ∧
      (t.InOnePiece l.peer → t.onStream l.peer.stream = some (out, l'.peer.stream)) ∧
      (¬ t.InOnePiece l.peer → ∀ rest, t.onStream l.peer.stream ≠ some (out, rest)) := by
  cases t with
  | write bs =>
    simp only [perform, call, sockWrite_clean hc, send, runPeer] at h
    rcases hw : l.peer.write bs with ⟨f | u, p'⟩
    · simp [hw, runPeer, Except.map] at h
    · simp only [hw, runPeer, Except.map, Option.some.injEq, Prod.mk.injEq] at h
      obtain ⟨hout, rfl⟩ := h
      obtain ⟨hln, hin, acc, hsent, hone⟩ := Peer.write_spec hw
      rw [hsent, List.drop_left] at hout
      obtain rfl := hout
      refine ⟨hc, by rwa [hln], fun h1 => ?_, fun hnot rest heq => hnot (hone.mp ?_)⟩
      · simp only [onStream, Peer.stream, hln, hin, hone.mpr h1]
      · exact (Prod.mk.inj (Option.some.inj heq)).1.symm
  | read count =>
    simp only [perform, call, sockRead_clean hc, recv, runPeer] at h
    rcases hr : l.peer.read count with ⟨f | bs, p'⟩
    · simp [hr, runPeer] at h
    · simp only [hr, runPeer, Option.some.injEq, Prod.mk.injEq] at h
      obtain ⟨rfl, rfl⟩ := h
      obtain ⟨hstream, hle, hln, hone⟩ := Peer.read_spec hr
      refine ⟨hc, hln.trans hbuf, fun h1 => ?_, fun hnot rest heq => hnot (hone.mp ?_)⟩
      · have hlen := hone.mpr h1
        rw [onStream, hstream, if_pos (by rw [List.length_append]; omega), ← hlen, List.take_left,
          List.drop_left]
      · simp only [onStream] at heq
        split at heq
        · next hcount =>
          obtain ⟨hout, -⟩ := Prod.mk.inj (Option.some.inj heq)
          rw [← hout, List.length_take, min_eq_left hcount]
        · cases heq
  | readln count =>
    simp only [perform, call, sockReadln_clean hc, recvln, runPeer] at h
    rcases hr : l.peer.readln with ⟨f | bs, p'⟩
    · simp [hr, runPeer] at h
    · simp only [hr, runPeer, Option.some.injEq, Prod.mk.injEq] at h
      obtain ⟨rfl, rfl⟩ := h
      obtain ⟨n, hline, hdrop, hln⟩ := Peer.readln_spec hbuf hr
      refine ⟨hc, hln, fun _ => ?_, fun hnot => absurd trivial hnot⟩
      simp [onStream, hline, hdrop]

/-- **The byte-stream contract**: when none of the calls fails, what they move is what they should
move on the unchunked stream, exactly when the kernel moves everything each of them needs in one
piece. -/
theorem transfers_eq_stream_iff (hc : l.info.Clean) (hbuf : l.peer.lnbuf.length ≤ READLNBUF_SIZE)
    (h : performAll l ts = some (outs, l')) :
    allOnStream l.peer.stream ts = some (outs, l'.peer.stream) ↔
      Along next (fun l t => t.InOnePiece l.peer) l ts := by
  induction ts generalizing l outs with
  | nil =>
    obtain ⟨rfl, rfl⟩ := Prod.mk.inj (Option.some.inj h)
    exact ⟨fun _ => trivial, fun _ => rfl⟩
  | cons t ts ih =>
    rcases hp : perform l t with _ | ⟨out, l₁⟩
    · simp [performAll, hp] at h
    · rcases hps : performAll l₁ ts with _ | ⟨outs', l₂⟩
      · simp [performAll, hp, hps] at h
      · simp only [performAll, hp, hps, Option.bind_eq_bind, Option.bind_some, Option.pure_def,
          Option.some.injEq, Prod.mk.injEq] at h
        obtain ⟨rfl, rfl⟩ := h
        obtain ⟨hc₁, hbuf₁, hyes, hno⟩ := perform_spec hc hbuf hp
        have hnext : next l t = l₁ := by simp [next, hp]
        rw [Along, hnext, ← ih hc₁ hbuf₁ hps]
        by_cases hone : t.InOnePiece l.peer
        · rw [and_iff_right hone, allOnStream, hyes hone]
          rcases hts : allOnStream l₁.peer.stream ts with _ | ⟨os, stream⟩ <;> simp [hts]
        · refine ⟨fun heq => absurd heq ?_, fun hand => absurd hand.1 hone⟩
          rw [allOnStream]
          rcases ht : t.onStream l.peer.stream with _ | ⟨o, stream⟩
          · simp
          · rcases hts : allOnStream stream ts with _ | ⟨os, stream'⟩
            · simp [hts]
            · simp only [hts, Option.bind_eq_bind, Option.bind_some, Option.pure_def,
                Option.some.injEq, Prod.mk.injEq, List.cons.injEq, not_and, and_imp]
              rintro rfl
              exact absurd ht (hno hone stream)

/-- A connection with nothing in the line buffer, and these chunks still to come. -/
def linkOf (chunks : List Chunk) : Link := ⟨⟨true, false, 0, 0⟩, ⟨[], chunks, [], []⟩⟩

theorem perform_readln_linkOf :
    perform (linkOf [.data [98, 99, nl]]) (.readln 10) = some ([98, 99], linkOf []) := by
  have hreadln : (⟨[], [.data [98, 99, nl]], [], []⟩ : Peer).readln =
      (.ok [98, 99], ⟨[], [], [], []⟩) := by
    have hread : (⟨[], [.data [98, 99, nl]], [], []⟩ : Peer).doSyncRead READLNBUF_SIZE =
        (.ok (98 :: [99, nl]), ⟨[], [], [], []⟩) := by rfl
    rw [Peer.readln_of_data (by decide) hread,
      Peer.readln_of_line (l := [98, 99]) (n := 3) (by decide)]
    rfl
  have hrun : runPeer ((readln 10).call (linkOf [.data [98, 99, nl]]).info)
      (linkOf [.data [98, 99, nl]]).peer =
        some ((.ok [98, 99], ⟨true, false, 0, 0⟩), ⟨[], [], [], []⟩) := by
    rw [call, sockReadln_clean ⟨rfl, rfl⟩, recvln, runPeer]
    rw [show (linkOf [.data [98, 99, nl]]).peer = ⟨[], [.data [98, 99, nl]], [], []⟩ from rfl,
      hreadln]
    rfl
  rw [perform, hrun]
  rfl

/-- Two octets that come in two chunks: the read comes back with one of them, and the line starts
with the other. -/
theorem not_transfers_eq_stream_split :
    performAll (linkOf [.data [97], .data [98, 99, nl]]) [.read 2, .readln 10] =
        some ([[97], [98, 99]], linkOf []) ∧
      allOnStream (linkOf [.data [97], .data [98, 99, nl]]).peer.stream [.read 2, .readln 10] ≠
        some ([[97], [98, 99]], (linkOf []).peer.stream) := by
  have hread : perform (linkOf [.data [97], .data [98, 99, nl]]) (.read 2) =
      some ([97], linkOf [.data [98, 99, nl]]) := rfl
  refine ⟨?_, by decide⟩
  simp only [performAll, hread, perform_readln_linkOf, Option.bind_eq_bind, Option.bind_some,
    Option.pure_def]

/-- The same octets with the first two in one chunk. -/
theorem transfers_eq_stream_whole :
    (linkOf [.data [97, 98], .data [98, 99, nl]]).info.Clean ∧
      performAll (linkOf [.data [97, 98], .data [98, 99, nl]]) [.read 2, .readln 10] =
        some ([[97, 98], [98, 99]], linkOf []) ∧
      allOnStream (linkOf [.data [97, 98], .data [98, 99, nl]]).peer.stream [.read 2, .readln 10] =
        some ([[97, 98], [98, 99]], []) := by
  have hread : perform (linkOf [.data [97, 98], .data [98, 99, nl]]) (.read 2) =
      some ([97, 98], linkOf [.data [98, 99, nl]]) := rfl
  have hall : performAll (linkOf [.data [97, 98], .data [98, 99, nl]]) [.read 2, .readln 10] =
      some ([[97, 98], [98, 99]], linkOf []) := by
    simp only [performAll, hread, perform_readln_linkOf, Option.bind_eq_bind, Option.bind_some,
      Option.pure_def]
  have hnext : next (linkOf [.data [97, 98], .data [98, 99, nl]]) (.read 2) =
      linkOf [.data [98, 99, nl]] := rfl
  refine ⟨⟨rfl, rfl⟩, hall, ?_⟩
  refine (transfers_eq_stream_iff ⟨rfl, rfl⟩ (by decide) hall).mpr ⟨?_, trivial, trivial⟩
  intro bs hbs
  obtain rfl := Chunk.data.inj (Option.some.inj hbs)
  decide

end Transfer

end Shfs
