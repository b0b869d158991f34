import Mathlib.Data.List.TakeWhile
import Shfs.Reconnect
import Shfs.Replies

/-!
# What the reading functions write to their caller's buffer

`sock_read`, `sock_readln`, `shell_read` and `shell_readlink` over a chunked socket, with the C
types of their counts. A count is `unsigned` in `shell_read`, `int` in `sock_read` and `size_t` in
`memcpy` and `do_sync_read`, so a count from 2^31 on is negative in between and close to 2^64 at the
end.

`Leaving` is what such a call leaves: the result, what it has written to the start of the caller's
buffer, and the connection; or `overrun`, when `memcpy` or `strncpy` was given a size that no buffer
has, after which nothing is known. `netCalls_within` bounds the whole module's traffic by that.
`runPeer_dataReply` ties the widths to `Shfs.dataReply` of the client, which has none: below 2^31
the two end in the same way.
-/

namespace Shfs

open Lib

/-! ## Sizes and buffers -/

/-- `(size_t) count` -/
def sizeT (count : ℤ) : ℕ := (count % 2 ^ 64).toNat

theorem sizeT_of_nonneg {count : ℤ} (h : 0 ≤ count) (hlt : count < 2 ^ 64) :
    sizeT count = count.toNat := by
  rw [sizeT, Int.emod_eq_of_lt h hlt]

/-- `strncpy`: exactly `n` octets, padded with zeros behind the string. -/
def strncpy (s : Bytes) (n : ℕ) : Bytes :=
  (cstr s).take n ++ List.replicate (n - (cstr s).length) 0

@[simp] theorem length_strncpy (s : Bytes) (n : ℕ) : (strncpy s n).length = n := by
  rw [strncpy, List.length_append, List.length_take, List.length_replicate]
  omega

/-- What a call leaves: its result, the octets it has stored from the start of the caller's buffer
on, and the connection; or an overrun, when it has been told to copy what no buffer has room for. -/
inductive Leaving : Type where
  | back (r : Except Errno ℤ) (buffer : Bytes) (l : Link)
  | overrun

/-! ## The functions -/

namespace Link

/-- `sock_read`. With a negative `count` and octets in the line buffer, `memcpy` gets it as a
size. -/
def sockRead (l : Link) (count : ℤ) : Option Leaving :=
  match l.cleared with
  | none => none
  | some (.error e, l) => some (.back (.error e) [] l)
  | some (.ok (), l) =>
    if count < 0 ∧ l.peer.lnbuf ≠ [] then some .overrun
    else
      match l.peer.read (sizeT count) with
      | (.ok bs, p) => some (.back (.ok count) bs ⟨l.info, p⟩)
      | (.error f, p) =>
        some (.back (.error f.errno) (l.peer.lnbuf.take (sizeT count))
          ⟨l.info.fail false (sizeT count), p⟩)

/-- A call of a transfer, and how the caller goes on if it does not fail. -/
def callThen (l : Link) (t : Transfer) (fail : Errno → Link → Leaving)
    (k : Bytes → Link → Option Leaving) : Option Leaving :=
  match l.call t with
  | none => none
  | some (.error e, l) => some (fail e l)
  | some (.ok s, l) => k s l

/-- The exit of a function that has written `buffer`. -/
def exit (buffer : Bytes) (e : Errno) (l : Link) : Leaving := .back (.error e) buffer l

/-- `sock_readln`; it returns the length of the string. A `count` of 0 makes the size of the
`strncpy` negative. -/
def sockReadln (l : Link) (count : ℤ) : Option Leaving :=
  l.callThen (.readln count.toNat) (exit []) fun s l =>
    if 0 < count then
      let buffer := strncpy s (count.toNat - 1) ++ [0]
      some (.back (.ok (cstr buffer).length) buffer l)
    else some .overrun

/-- The end of `shell_read`: the data and the status line behind it. The count is passed as an
`int`, and a negative result of `sock_read` is returned. -/
def dataReply (l : Link) (count : UInt32) : Option Leaving :=
  match l.sockRead (asInt count.toNat) with
  | some (.back (.ok r) buffer l) =>
    if r < 0 then some (exit buffer (.other (-r).toNat) l)
    else
      l.callThen (.readln SOCKBUF_SIZE) (exit buffer) fun s l =>
        some (.back (transferResult (reply s) r) buffer l)
  | other => other

/-- The reply of `shell_read`. -/
def readReply (l : Link) (count : UInt32) (ino : UInt64) : Option Leaving :=
  l.callThen (.readln SOCKBUF_SIZE)
    (fun e l => exit [] e { l with info := l.info.setGarbage false count.toNat }) fun s l =>
      if reply s = REP_PRELIM then
        if ino ≠ 0 then
          l.callThen (.readln SOCKBUF_SIZE) (exit []) fun s l => l.dataReply (.ofNat (decVal s))
        else l.dataReply count
      else if reply s = REP_EPERM then some (exit [] .eperm l)
      else if reply s = REP_ENOENT then some (exit [] .enoent l)
      else some (exit [] .eio { l with info := l.info.setGarbage false count.toNat })

/-- `shell_read`, with the line it sends. -/
def shellRead (l : Link) (line : Option Bytes) (count : UInt32) (ino : UInt64) : Option Leaving :=
  match line with
  | none => some (exit [] .enametoolong l)
  | some line => l.callThen (.write line) (exit []) fun _ l => l.readReply count ino

/-- The end of `shell_readlink`, with what is in `real_name`. -/
def linkReply (l : Link) (real : Bytes) : Option Leaving :=
  l.callThen (.readln SOCKBUF_SIZE) (exit real) fun s l =>
    if reply s = REP_COMPLETE then some (.back (.ok 0) real l)
    else if reply s = REP_EPERM then some (exit real .eperm l)
    else some (exit real .eio { l with info := { l.info with garbage := true } })

/-- `shell_readlink`, with the line it sends. -/
def shellReadlink (l : Link) (line : Option Bytes) : Option Leaving :=
  match line with
  | none => some (exit [] .enametoolong l)
  | some line =>
    l.callThen (.write line) (exit []) fun _ l =>
      l.callThen (.readln SOCKBUF_SIZE) (exit []) fun s l =>
        if reply s = REP_COMPLETE then some (exit [] .eio l)
        else if reply s = REP_EPERM then some (exit [] .eperm l)
        else l.linkReply (strncpy s (SHFS_PATH_MAX - 1) ++ [0])

/-- The number that the server puts in the second line of its reply to this command, if it gets
there. -/
def told (l : Link) (line : Bytes) : Option UInt32 :=
  match l.call (.write line) with
  | some (.ok _, l) =>
    match l.call (.readln SOCKBUF_SIZE) with
    | some (.ok s, l) =>
      if reply s = REP_PRELIM then
        match l.call (.readln SOCKBUF_SIZE) with
        | some (.ok s, _) => some (.ofNat (decVal s))
        | _ => none
      else none
    | _ => none
  | _ => none

end Link

/-! ## Programs that come back -/

section NeverSpins

variable {β : Type}

/-- No run of the program gets to `spin`. -/
def NeverSpins : Talk Fault β → Prop
  | .ret _ => True
  | .spin => False
  | .write _ k => ∀ r, NeverSpins (k r)
  | .readln k => ∀ r, NeverSpins (k r)
  | .read _ k => ∀ r, NeverSpins (k r)

/-- Over a chunked connection such a program comes back. -/
theorem NeverSpins.runPeer {t : Talk Fault β} (h : NeverSpins t) (p : Peer) :
    ∃ a p', runPeer t p = some (a, p') := by
  induction t generalizing p with
  | ret a => exact ⟨a, p, rfl⟩
  | spin => exact h.elim
  | write bs k ih => exact ih _ (h _) _
  | readln k ih => exact ih _ (h _) _
  | read n k ih => exact ih _ (h _) _

variable {info : Info} {bs : Bytes} {count : ℕ}

theorem neverSpins_send {k : Cont Unit β} (hk : ∀ r info, NeverSpins (k r info)) :
    NeverSpins (send bs info k) := by
  rintro (f | u)
  · exact hk _ _
  · exact hk _ _

theorem neverSpins_recv {k : Cont Bytes β} (hk : ∀ r info, NeverSpins (k r info)) :
    NeverSpins (recv count info k) := by
  rintro (f | bs)
  · exact hk _ _
  · exact hk _ _

theorem neverSpins_recvln {k : Cont Bytes β} (hk : ∀ r info, NeverSpins (k r info)) :
    NeverSpins (recvln count info k) := by
  rintro (f | l)
  · exact hk _ _
  · exact hk _ _

theorem neverSpins_ite {c : Prop} [Decidable c] {t t' : Talk Fault β} (h : NeverSpins t)
    (h' : NeverSpins t') : NeverSpins (if c then t else t') := by
  split
  · exact h
  · exact h'

theorem neverSpins_fillGarbage {k : Cont Unit β} (hk : ∀ r info, NeverSpins (k r info))
    (garbage : ℕ) (info : Info) : NeverSpins (fillGarbage garbage info k) := by
  induction garbage using Nat.strong_induction_on generalizing info with
  | _ garbage ih =>
    rw [fillGarbage]
    split
    · exact hk _ _
    · next h0 =>
      have hlt : garbage - min garbage GARBAGEBUF_SIZE < garbage := by
        have : GARBAGEBUF_SIZE = 256 := rfl
        omega
      refine neverSpins_ite (neverSpins_send ?_) (hk _ _)
      rintro (e | u) info
      · exact hk _ _
      · exact ih _ hlt _

theorem neverSpins_drainGarbage {k : Cont Unit β} (hk : ∀ r info, NeverSpins (k r info))
    (garbage : ℕ) (info : Info) : NeverSpins (drainGarbage garbage info k) := by
  induction garbage using Nat.strong_induction_on generalizing info with
  | _ garbage ih =>
    rw [drainGarbage]
    split
    · exact hk _ _
    · next h0 =>
      have hlt : garbage - min garbage GARBAGEBUF_SIZE < garbage := by
        have : GARBAGEBUF_SIZE = 256 := rfl
        omega
      refine neverSpins_ite (neverSpins_recv ?_) (hk _ _)
      rintro (e | bs) info
      · exact hk _ _
      · exact ih _ hlt _

theorem neverSpins_awaitPong {k : Cont Unit β} (hk : ∀ r info, NeverSpins (k r info)) (i : ℕ)
    (state : Seen) (info : Info) : NeverSpins (awaitPong i state info k) := by
  induction i generalizing state info with
  | zero => exact hk _ _
  | succ i ih =>
    refine neverSpins_ite (neverSpins_recvln ?_) (hk _ _)
    rintro (e | buffer) info
    · exact hk _ _
    · dsimp only
      split
      · exact hk _ _
      · exact ih _ _

theorem neverSpins_clearGarbage {k : Cont Unit β} (hk : ∀ r info, NeverSpins (k r info))
    (info : Info) : NeverSpins (clearGarbage info k) := by
  refine neverSpins_fillGarbage ?_ _ _
  rintro (e | u) info
  · exact hk _ _
  refine neverSpins_drainGarbage ?_ _ _
  rintro (e | u) info
  · exact hk _ _
  refine neverSpins_ite (neverSpins_send ?_) (hk _ _)
  rintro (e | u) info
  · exact hk _ _
  · exact neverSpins_awaitPong hk _ _ _

theorem neverSpins_checked {ρ : Type} {k : Cont ρ β} {transfer : Info → Talk Fault β}
    (hk : ∀ r info, NeverSpins (k r info)) (ht : ∀ info, NeverSpins (transfer info)) :
    NeverSpins (checked info k transfer) := by
  refine neverSpins_ite (neverSpins_ite (neverSpins_clearGarbage ?_ _) (ht _)) (hk _ _)
  rintro (e | u) info
  · exact hk _ _
  · exact ht _

/-- Every transfer comes back. -/
theorem neverSpins_call (t : Transfer) (info : Info) : NeverSpins (t.call info) := by
  have hret : ∀ (a : Except Errno Bytes × Info), NeverSpins (.ret a) := fun _ => trivial
  cases t with
  | write bs =>
    exact neverSpins_checked (fun _ _ => hret _) fun _ => neverSpins_send fun _ _ => hret _
  | read count =>
    exact neverSpins_checked (fun _ _ => hret _) fun _ => neverSpins_recv fun _ _ => hret _
  | readln count =>
    exact neverSpins_checked (fun _ _ => hret _) fun _ => neverSpins_recvln fun _ _ => hret _

end NeverSpins

/-! ## The line buffer -/

/-- `readlnbuf_len` is at most `READLNBUF_SIZE`. That is what the functions rely on when they append
to the buffer, and what they leave. -/
def Peer.InBuf (p : Peer) : Prop := p.lnbuf.length ≤ READLNBUF_SIZE

namespace Peer

variable {p p' : Peer} {bs : Bytes} {count : ℕ}

theorem InBuf.of_eq (h : p.InBuf) (heq : p'.lnbuf = p.lnbuf) : p'.InBuf := by
  rwa [InBuf, heq]

theorem InBuf.write (h : p.InBuf) (bs : Bytes) : (p.write bs).2.InBuf := by
  rw [Peer.write, doSyncWrite]
  rcases p.accepts with _ | ⟨k | e, as⟩ <;> exact h

/-- A `do_sync_read` into another buffer leaves the line buffer alone. -/
theorem doSyncRead_lnbuf (p : Peer) (n : ℕ) : (p.doSyncRead n).2.lnbuf = p.lnbuf := by
  rw [doSyncRead]
  split <;> rfl

theorem InBuf.read (h : p.InBuf) (count : ℕ) : (p.read count).2.InBuf := by
  have hdrop : (p.lnbuf.drop count).length ≤ READLNBUF_SIZE := by
    rw [List.length_drop]
    exact (Nat.sub_le _ _).trans h
  have hln := doSyncRead_lnbuf { p with lnbuf := p.lnbuf.drop count }
    (count - (p.lnbuf.take count).length)
  rw [Peer.read]
  split
  · exact hdrop
  · split <;> next heq =>
      rw [heq] at hln
      exact InBuf.of_eq (p := { p with lnbuf := p.lnbuf.drop count }) hdrop hln

theorem InBuf.readln (h : p.InBuf) : p.readln.2.InBuf := by
  induction hw : p.weight using Nat.strong_induction_on generalizing p with
  | _ w ih =>
    rw [Peer.readln]
    split
    · next l n hline =>
      change (p.lnbuf.drop n).length ≤ READLNBUF_SIZE
      rw [List.length_drop]
      exact (Nat.sub_le _ _).trans h
    · next hnone =>
      have hroom := (nextLine_eq_none_iff.mp hnone).2
      have hln := doSyncRead_lnbuf p (READLNBUF_SIZE - p.lnbuf.length)
      split
      · next p₁ hread =>
        rw [hread] at hln
        exact ih _ (hw ▸ weight_doSyncRead hread (by simp)) (h.of_eq hln) rfl
      · next e p₁ _ hread =>
        rw [hread] at hln
        exact h.of_eq hln
      · next p₁ hread =>
        rw [hread] at hln
        exact h.of_eq hln
      · next b bs p₁ hread =>
        obtain ⟨hln₁, hlen, -⟩ := doSyncRead_ok hread
        refine ih p₁.weight (hw ▸ weight_doSyncRead hread (by simp)) ?_ rfl
        rw [InBuf, List.length_append, hln₁]
        omega

/-- With an empty line buffer there is only the one call. -/
theorem read_of_empty {b : Byte} (h : p.lnbuf = []) (hcount : count ≠ 0)
    (hread : p.doSyncRead count = (.ok (b :: bs), p')) : p.read count = (.ok (b :: bs), p') := by
  obtain ⟨lnbuf, incoming, accepts, sent⟩ := p
  obtain rfl := h
  rw [Peer.read]
  simp only [List.take_nil, List.drop_nil, List.length_nil, Nat.sub_zero, if_neg hcount, hread,
    List.nil_append]

/-- What `sock_read` stores fits in what it was asked for. -/
theorem length_read_le (h : p.read count = (.ok bs, p')) : bs.length ≤ count :=
  (read_spec h).2.1

end Peer

/-- **No program makes the line buffer grow beyond its size.** Only `sock_readln` appends to it, and
no more than there is room for. -/
theorem runPeer_inBuf {α : Type} {t : Talk Fault α} {p p' : Peer} {a : α} (hp : p.InBuf)
    (h : runPeer t p = some (a, p')) : p'.InBuf := by
  induction t generalizing p with
  | ret a =>
    obtain ⟨-, rfl⟩ := Prod.mk.inj (Option.some.inj h)
    exact hp
  | spin => cases h
  | write bs k ih => exact ih _ (hp.write bs) h
  | readln k ih => exact ih _ hp.readln h
  | read n k ih => exact ih _ (hp.read n) h

/-! ## What a call leaves -/

/-- At most `bound` octets written and returned, and the line buffer within its size. -/
def Leaving.Within (bound : ℕ) : Leaving → Prop
  | .back r buffer l => buffer.length ≤ bound ∧ (∀ n, r = .ok n → n ≤ bound) ∧ l.peer.InBuf
  | .overrun => False

/-- The call comes back, and leaves this. -/
def Comes (Q : Leaving → Prop) (x : Option Leaving) : Prop := ∃ y, x = some y ∧ Q y

theorem comes_some {Q : Leaving → Prop} {y : Leaving} (h : Q y) : Comes Q (some y) := ⟨y, rfl, h⟩

theorem within_exit {bound : ℕ} {buffer : Bytes} {l : Link} (hb : buffer.length ≤ bound) (e : Errno)
    (hl : l.peer.InBuf) : Leaving.Within bound (Link.exit buffer e l) :=
  ⟨hb, nofun, hl⟩

namespace Link

variable {l : Link} {Q : Leaving → Prop} {bound : ℕ}

theorem call_inBuf (hl : l.peer.InBuf) (t : Transfer) :
    ∃ r l', l.call t = some (r, l') ∧ l'.peer.InBuf := by
  obtain ⟨⟨r, info⟩, p', h⟩ := (neverSpins_call t l.info).runPeer l.peer
  refine ⟨r, ⟨info, p'⟩, ?_, runPeer_inBuf hl h⟩
  rw [call, h]
  rfl

theorem cleared_inBuf (hl : l.peer.InBuf) : ∃ r l', l.cleared = some (r, l') ∧ l'.peer.InBuf := by
  have hspin : NeverSpins (checked l.info (fun r info => .ret (r, info))
      fun info => .ret ((.ok () : Except Errno Unit), info)) :=
    neverSpins_checked (fun _ _ => trivial) fun _ => trivial
  obtain ⟨⟨r, info⟩, p', h⟩ := hspin.runPeer l.peer
  refine ⟨r, ⟨info, p'⟩, ?_, runPeer_inBuf hl h⟩
  rw [cleared, h]
  rfl

/-- The rule for a call that its caller may have to give up after. -/
theorem comes_callThen (hl : l.peer.InBuf) {t : Transfer} {fail : Errno → Link → Leaving}
    {k : Bytes → Link → Option Leaving} (hfail : ∀ e l', l'.peer.InBuf → Q (fail e l'))
    (hk : ∀ s l', l.call t = some (.ok s, l') → l'.peer.InBuf → Comes Q (k s l')) :
    Comes Q (l.callThen t fail k) := by
  obtain ⟨r, l', h, hl'⟩ := call_inBuf hl t
  rw [callThen, h]
  cases r with
  | error e => exact comes_some (hfail e l' hl')
  | ok s => exact hk s l' h hl'

theorem transferResult_ok {code : ℕ} {r m : ℤ} (h : transferResult code r = .ok m) : m = r := by
  unfold transferResult at h
  split_ifs at h
  exact (Except.ok.inj h).symm

/-- `sock_read` of a count that is not negative. -/
theorem sockRead_within (hl : l.peer.InBuf) (count : ℕ) (hcount : count < 2 ^ 64) :
    Comes (Leaving.Within count) (l.sockRead count) := by
  obtain ⟨r, l', h, hl'⟩ := cleared_inBuf hl
  have hsize : sizeT count = count := sizeT_of_nonneg (Int.natCast_nonneg _) (by omega)
  have hneg : ¬ ((count : ℤ) < 0 ∧ l'.peer.lnbuf ≠ []) := by omega
  rw [sockRead, h]
  cases r with
  | error e => exact comes_some (within_exit (Nat.zero_le _) e hl')
  | ok u =>
    have hread := hl'.read count
    simp only [if_neg hneg, hsize]
    rcases hp : l'.peer.read count with ⟨f | bs, p⟩
    · rw [hp] at hread
      exact comes_some (within_exit (List.length_take_le _ _) _ hread)
    · rw [hp] at hread
      refine comes_some ⟨Peer.length_read_le hp, ?_, hread⟩
      rintro n ⟨⟩
      exact le_rfl

/-- `sock_readln` of a positive count. -/
theorem sockReadln_within (hl : l.peer.InBuf) {count : ℤ} (hcount : 0 < count) :
    Comes (Leaving.Within count.toNat) (l.sockReadln count) := by
  refine comes_callThen hl (fun e l' hl' => within_exit (Nat.zero_le _) e hl') fun s l' _ hl' => ?_
  have hlen : (strncpy s (count.toNat - 1) ++ [0]).length = count.toNat := by
    rw [List.length_append, length_strncpy]
    exact Nat.sub_add_cancel (by omega)
  rw [if_pos hcount]
  refine comes_some ⟨hlen.le, ?_, hl'⟩
  rintro n ⟨⟩
  exact_mod_cast (length_cstr_le _).trans hlen.le

/-- The data of a count that was announced within the bounds. -/
theorem dataReply_within (hl : l.peer.InBuf) {n : UInt32} (hn : n.toNat ≤ bound)
    (h31 : n.toNat < 2 ^ 31) : Comes (Leaving.Within bound) (l.dataReply n) := by
  have hint : asInt n.toNat = n.toNat := asInt_of_lt h31
  obtain ⟨y, hy, hwithin⟩ := sockRead_within hl n.toNat (by omega)
  rw [dataReply, hint, hy]
  rcases y with ⟨e | r, buffer, l'⟩ | _
  · obtain ⟨hb, -, hl'⟩ := hwithin
    exact comes_some (within_exit (hb.trans hn) e hl')
  · obtain ⟨hb, hr, hl'⟩ := hwithin
    have hrn := hr r rfl
    dsimp only
    split
    · exact comes_some (within_exit (hb.trans hn) _ hl')
    · refine comes_callThen hl' (fun e l' hl' => within_exit (hb.trans hn) e hl')
        fun s l' _ hl' => ?_
      refine comes_some ⟨hb.trans hn, ?_, hl'⟩
      intro m hm
      rw [transferResult_ok hm]
      exact hrn.trans (by exact_mod_cast hn)
  · exact hwithin.elim

/-- **The same end of `shell_read`** as in `Shfs.dataReply`, which has one width for all counts:
where the count is no negative `int` and nothing is left over, the two agree. -/
theorem runPeer_dataReply (hc : l.info.Clean) {n : UInt32} (h31 : n.toNat < 2 ^ 31)
    {r : Except Errno ℤ} {buffer : Bytes} {l' : Link}
    (h : l.dataReply n = some (.back r buffer l')) :
    runPeer (Shfs.dataReply n.toNat l.info fun r info => .ret (r, info)) l.peer =
      some ((r.map fun _ => (n.toNat, buffer), l'.info), l'.peer) := by
  have hcleared : l.cleared = some (.ok (), l) := by
    rw [cleared, checked_clean hc]
    rfl
  have hsize : sizeT (n.toNat : ℤ) = n.toNat := sizeT_of_nonneg (Int.natCast_nonneg _) (by omega)
  have hneg : ¬ ((n.toNat : ℤ) < 0 ∧ l.peer.lnbuf ≠ []) := by omega
  have hnonneg : ¬ (n.toNat : ℤ) < 0 := by omega
  rw [dataReply, asInt_of_lt h31, sockRead, hcleared] at h
  simp only [if_neg hneg, hsize] at h
  rw [Shfs.dataReply, sockRead_clean hc, recv, runPeer]
  rcases hp : l.peer.read n.toNat with ⟨f | data, p⟩
  · simp only [hp] at h ⊢
    obtain ⟨rfl, rfl, rfl⟩ := Leaving.back.inj (Option.some.inj h)
    rfl
  · simp only [hp, if_neg hnonneg, callThen, call, Transfer.call, sockReadln_clean hc, recvln,
      runPeer] at h ⊢
    rcases hln : p.readln with ⟨f | s, p'⟩
    · simp only [hln, runPeer, Option.map_some] at h ⊢
      obtain ⟨rfl, rfl, rfl⟩ := Leaving.back.inj (Option.some.inj h)
      rfl
    · simp only [hln, runPeer, Option.map_some] at h ⊢
      obtain ⟨rfl, rfl, rfl⟩ := Leaving.back.inj (Option.some.inj h)
      rw [transferResult, transferResult]
      split_ifs <;> rfl

/-- A reply that announces, if anything, a count within the bounds. -/
theorem shellRead_within (hl : l.peer.InBuf) (line : Option Bytes) {count : UInt32} {ino : UInt64}
    (hplain : ino = 0 → ∀ cmd, line = some cmd → count.toNat < 2 ^ 31)
    (hslow : ino ≠ 0 → ∀ cmd, line = some cmd → ∀ n, l.told cmd = some n →
      n.toNat ≤ count.toNat ∧ n.toNat < 2 ^ 31) :
    Comes (Leaving.Within count.toNat) (l.shellRead line count ino) := by
  have hexit : ∀ e {l' : Link}, l'.peer.InBuf → Leaving.Within count.toNat (exit [] e l') :=
    fun e _ hl' => within_exit (Nat.zero_le _) e hl'
  rcases line with _ | cmd
  · exact comes_some (hexit _ hl)
  refine comes_callThen hl (fun e l' hl' => hexit e hl') fun s₁ l₁ h₁ hl₁ => ?_
  refine comes_callThen hl₁ (fun e l' hl' => hexit e hl') fun s₂ l₂ h₂ hl₂ => ?_
  split
  · next hprelim =>
    split
    · next hino =>
      refine comes_callThen hl₂ (fun e l' hl' => hexit e hl') fun s₃ l₃ h₃ hl₃ => ?_
      have htold : l.told cmd = some (.ofNat (decVal s₃)) := by
        simp only [told, h₁, h₂, if_pos hprelim, h₃]
      obtain ⟨hle, hlt⟩ := hslow hino cmd rfl _ htold
      exact dataReply_within hl₃ hle hlt
    · next hino =>
      exact dataReply_within hl₂ le_rfl (hplain (not_not.mp hino) cmd rfl)
  · split
    · exact comes_some (hexit _ hl₂)
    · split
      · exact comes_some (hexit _ hl₂)
      · exact comes_some (hexit _ hl₂)

/-- `shell_readlink`, whatever the server sends. -/
theorem shellReadlink_within (hl : l.peer.InBuf) (line : Option Bytes) :
    Comes (Leaving.Within SHFS_PATH_MAX) (l.shellReadlink line) := by
  have hexit : ∀ {buffer : Bytes} e {l' : Link}, buffer.length ≤ SHFS_PATH_MAX → l'.peer.InBuf →
      Leaving.Within SHFS_PATH_MAX (exit buffer e l') :=
    fun e _ hb hl' => within_exit hb e hl'
  rcases line with _ | cmd
  · exact comes_some (hexit _ (Nat.zero_le _) hl)
  refine comes_callThen hl (fun e l' hl' => hexit e (Nat.zero_le _) hl') fun s₁ l₁ _ hl₁ => ?_
  refine comes_callThen hl₁ (fun e l' hl' => hexit e (Nat.zero_le _) hl') fun s₂ l₂ _ hl₂ => ?_
  split
  · exact comes_some (hexit _ (Nat.zero_le _) hl₂)
  split
  · exact comes_some (hexit _ (Nat.zero_le _) hl₂)
  have hreal : (strncpy s₂ (SHFS_PATH_MAX - 1) ++ [0]).length ≤ SHFS_PATH_MAX := by
    rw [List.length_append, length_strncpy]
    exact le_rfl
  refine comes_callThen hl₂ (fun e l' hl' => hexit e hreal hl') fun s₃ l₃ _ hl₃ => ?_
  split
  · refine comes_some ⟨hreal, ?_, hl₃⟩
    rintro n ⟨⟩
    exact Int.natCast_nonneg _
  · split
    · exact comes_some (hexit _ hreal hl₃)
    · exact comes_some (hexit _ hreal hl₃)

end Link

/-! ## The calls of the module -/

/-- What the module does on a connection: the two functions whose results the file system copies
on, `sock_readln`, and the steps of all the other functions. -/
inductive NetCall : Type where
  | shellRead (file : Bytes) (offset count : UInt32) (ino : UInt64)
  | shellReadlink (name realName : Bytes)
  | sockReadln (count : ℤ)
  | transfer (t : Transfer)
  | setGarbage (write : Bool) (count : ℕ)
  | newConn (sock : Option Socket)

namespace NetCall

variable (preserveOwn : Bool) (cred : Cred)

/-- The line that `shell_read` sends. -/
def readLine (file : Bytes) (offset count : UInt32) (ino : UInt64) : Option Bytes :=
  (checkPath file).bind fun file => (shellReadLine preserveOwn cred file offset count ino).line

/-- The call. -/
def run (l : Link) : NetCall → Option Leaving
  | shellRead file offset count ino =>
    l.shellRead (readLine preserveOwn cred file offset count ino) count ino
  | shellReadlink name realName =>
    l.shellReadlink ((checkPath name).bind fun name => (checkPath realName).bind fun _ =>
      (shellReadlinkLine preserveOwn cred name).line)
  | sockReadln count => l.sockReadln count
  | transfer t => l.callThen t (Link.exit []) fun _ l => some (.back (.ok 0) [] l)
  | setGarbage write count =>
    some (.back (.ok 0) [] { l with info := l.info.setGarbage write count })
  | newConn sock => some (.back (.ok 0) [] (l.newConn sock))

/-- The state after a call, for runs. -/
def next (l : Link) (c : NetCall) : Link :=
  match c.run preserveOwn cred l with
  | some (.back _ _ l) => l
  | _ => l

/-- How long the caller's buffer is. -/
def size : NetCall → ℕ
  | shellRead _ _ count _ => count.toNat
  | shellReadlink _ _ => SHFS_PATH_MAX
  | sockReadln count => count.toNat
  | transfer _ | setGarbage _ _ | newConn _ => 0

/-- The call comes back, has stored and returns no more than the size of the buffer, and leaves
`readlnbuf_len` in its bounds. -/
def Bounded (l : Link) (c : NetCall) : Prop :=
  Comes (Leaving.Within c.size) (c.run preserveOwn cred l)

/-- The number that the server announces for a slow read, if it does. -/
def told (l : Link) : NetCall → Option UInt32
  | shellRead file offset count ino =>
    (readLine preserveOwn cred file offset count ino).bind l.told
  | _ => none

/-- The counts are in order: a normal read asks for less than 2^31 octets, for a slow one the
server announces less than that and no more than was asked for, and a line is read into a buffer
that is not empty. -/
def InOrder (l : Link) : NetCall → Prop
  | shellRead file offset count ino =>
    (ino = 0 → ∀ cmd, readLine preserveOwn cred file offset count ino = some cmd →
      count.toNat < 2 ^ 31) ∧
    (ino ≠ 0 → ∀ n, told preserveOwn cred l (shellRead file offset count ino) = some n →
      n.toNat ≤ count.toNat ∧ n.toNat < 2 ^ 31)
  | sockReadln count => 0 < count
  | _ => True

variable {preserveOwn cred}

/-- **One call** whose counts are in order stores and returns no more than its caller's buffer has,
and leaves `readlnbuf_len` in its bounds. The run follows from it. -/
theorem bounded_of_inOrder {l : Link} (hl : l.peer.InBuf) {c : NetCall}
    (h : InOrder preserveOwn cred l c) : Bounded preserveOwn cred l c := by
  cases c with
  | shellRead file offset count ino =>
    refine Link.shellRead_within hl _ h.1 fun hino cmd hcmd n hn => h.2 hino n ?_
    rw [told, hcmd]
    exact hn
  | shellReadlink name realName => exact Link.shellReadlink_within hl _
  | sockReadln count => exact Link.sockReadln_within hl h
  | transfer t =>
    refine Link.comes_callThen hl (fun e l' hl' => within_exit le_rfl e hl') fun s l' _ hl' => ?_
    refine comes_some ⟨le_rfl, ?_, hl'⟩
    rintro n ⟨⟩
    exact le_rfl
  | setGarbage write count =>
    refine comes_some ⟨le_rfl, ?_, hl⟩
    rintro n ⟨⟩
    exact le_rfl
  | newConn sock =>
    refine comes_some ⟨le_rfl, ?_, hl⟩
    rintro n ⟨⟩
    exact le_rfl

/-- The line buffer stays within its size. -/
theorem inBuf_next {l : Link} {c : NetCall} (h : Bounded preserveOwn cred l c) :
    (next preserveOwn cred l c).peer.InBuf := by
  obtain ⟨y, hy, hwithin⟩ := h
  rcases y with ⟨r, buffer, l'⟩ | _
  · rw [next, hy]
    exact hwithin.2.2
  · exact hwithin.elim

end NetCall

/-! ## Servers that announce too much -/

/-- A connection in order, with this text in the line buffer. -/
def textLink (text : Bytes) (incoming : List Chunk) (sent : Bytes) : Link :=
  ⟨⟨true, false, 0, 0⟩, ⟨text, incoming, [], sent⟩⟩

namespace Link

variable {text line rest sent : Bytes} {incoming : List Chunk} {count : ℕ}

theorem clean_textLink : (textLink text incoming sent).info.Clean := ⟨rfl, rfl⟩

theorem call_write_textLink (bs : Bytes) :
    (textLink text incoming sent).call (.write bs) =
      some (.ok [], textLink text incoming (sent ++ bs)) := by
  rw [call, Transfer.call, sockWrite_clean clean_textLink]
  rfl

theorem call_readln_textLink (hnl : nl ∉ line) (h0 : (0 : Byte) ∉ line)
    (hlen : line.length < READLNBUF_SIZE) (hcount : line.length ≤ count - 1) :
    (textLink (line ++ nl :: rest) incoming sent).call (.readln count) =
      some (.ok line, textLink rest incoming sent) := by
  have hread : (textLink (line ++ nl :: rest) incoming sent).peer.readln =
      (.ok line, (textLink rest incoming sent).peer) := by
    have hline : nextLine READLNBUF_SIZE (line ++ nl :: rest) = some (line, line.length + 1) :=
      nextLine_of_fits hnl hlen
    rw [Peer.readln_of_line hline]
    simp [textLink]
  rw [call, Transfer.call, sockReadln_clean clean_textLink, recvln, runPeer, hread]
  simp only [runPeer, Option.map_some, cstr_eq_self h0, List.take_of_length_le hcount]
  rfl

/-- The stream ends in the middle of a line. -/
theorem call_readln_broken (hnl : nl ∉ text) (hlen : text.length < READLNBUF_SIZE) :
    (textLink text [] sent).call (.readln count) = some (.error .eio,
      ⟨(textLink text [] sent).info.fail false (READLNBUF_SIZE - text.length),
        (textLink text [] sent).peer⟩) := by
  have hnone : nextLine READLNBUF_SIZE text = none := nextLine_eq_none_iff.mpr ⟨hnl, hlen⟩
  have hread := Peer.readln_closed (p := (textLink text [] sent).peer) hnone rfl
  rw [call, Transfer.call, sockReadln_clean clean_textLink, recvln, runPeer, hread]
  rfl

theorem cleared_textLink :
    (textLink text incoming sent).cleared = some (.ok (), textLink text incoming sent) := by
  rw [cleared, checked_clean clean_textLink]
  rfl

/-- A negative count, with octets in the line buffer. -/
theorem sockRead_overrun {n : ℤ} (hn : n < 0) (htext : text ≠ []) :
    (textLink text incoming sent).sockRead n = some .overrun := by
  simp only [sockRead, cleared_textLink]
  exact if_pos ⟨hn, htext⟩

/-- A count that the line buffer covers. -/
theorem sockRead_buffered {n : ℕ} (hn : n < 2 ^ 64) (htext : n ≤ text.length) :
    (textLink text incoming sent).sockRead n =
      some (.back (.ok n) (text.take n) (textLink (text.drop n) incoming sent)) := by
  have hsize : sizeT n = n := sizeT_of_nonneg (Int.natCast_nonneg _) (by omega)
  have hneg : ¬ ((n : ℤ) < 0 ∧ (textLink text incoming sent).peer.lnbuf ≠ []) := by omega
  have hpeer := Peer.read_of_le (p := (textLink text incoming sent).peer) htext
  simp only [sockRead, cleared_textLink, hsize, if_neg hneg, hpeer]
  rfl

/-- More octets than fit, in one piece. -/
theorem sockRead_long {n k : ℕ} (hn : n < 2 ^ 64) (hk : 0 < k) (hkn : k ≤ n) :
    (textLink [] [.data (List.replicate k sp)] sent).sockRead n =
      some (.back (.ok n) (List.replicate k sp) (textLink [] [] sent)) := by
  have hsize : sizeT n = n := sizeT_of_nonneg (Int.natCast_nonneg _) (by omega)
  obtain ⟨j, rfl⟩ : ∃ j, k = j + 1 := ⟨k - 1, by omega⟩
  have hread : (textLink [] [.data (List.replicate (j + 1) sp)] sent).peer.doSyncRead n =
      (.ok (sp :: List.replicate j sp), (textLink [] [] sent).peer) := by
    have hlen : (List.replicate (j + 1) sp).length ≤ n := by rwa [List.length_replicate]
    simp only [Peer.doSyncRead, textLink]
    rw [List.take_of_length_le hlen, if_neg (by omega)]
    rfl
  have hpeer := Peer.read_of_empty rfl (by omega) hread
  simp only [sockRead, cleared_textLink, hsize]
  rw [if_neg (by simp [textLink]), hpeer]
  rfl

/-- What the data have been stored in stays in the caller's buffer. -/
theorem dataReply_buffer {l l' : Link} {n : UInt32} {r : ℤ} {buffer : Bytes} {y : Leaving}
    (h : l.sockRead (asInt n.toNat) = some (.back (.ok r) buffer l'))
    (hy : l.dataReply n = some y) :
    ∃ r l, y = .back r buffer l := by
  rw [dataReply, h] at hy
  dsimp only at hy
  split at hy
  · obtain rfl := Option.some.inj hy
    exact ⟨_, _, rfl⟩
  · unfold callThen at hy
    split at hy
    · cases hy
    · obtain rfl := Option.some.inj hy
      exact ⟨_, _, rfl⟩
    · obtain rfl := Option.some.inj hy
      exact ⟨_, _, rfl⟩

/-- The start of a reply: `PRELIM`, and the number if there is one. -/
def announce (t : Option UInt32) (behind : Bytes) : Bytes :=
  statusText REP_PRELIM ++ nl :: t.elim behind fun n => dec n.toNat ++ nl :: behind

theorem call_readln_prelim :
    (textLink (statusText REP_PRELIM ++ nl :: rest) incoming sent).call (.readln SOCKBUF_SIZE) =
      some (.ok (statusText REP_PRELIM), textLink rest incoming sent) :=
  call_readln_textLink (nl_notMem_statusText _) (zero_notMem_statusText _)
    (length_statusText_lt (by decide)) (by decide)

theorem call_readln_number (n : UInt32) :
    (textLink (dec n.toNat ++ nl :: rest) incoming sent).call (.readln SOCKBUF_SIZE) =
      some (.ok (dec n.toNat), textLink rest incoming sent) := by
  have hlen : (dec n.toNat).length ≤ 10 :=
    length_dec_le (by omega) (n.toNat_lt.trans (by decide))
  have hdigit : ∀ c, isDigit c = false → c ∉ dec n.toNat := fun c hc h => by
    rw [isDigit_of_mem_dec h] at hc
    cases hc
  have hR := READLNBUF_SIZE_eq
  have hS : SOCKBUF_SIZE = 5120 := rfl
  exact call_readln_textLink (hdigit _ rfl) (hdigit _ rfl) (by omega) (by omega)

theorem told_announce (n : UInt32) (cmd behind : Bytes) :
    (textLink (announce (some n) behind) incoming sent).told cmd = some n := by
  simp only [told, call_write_textLink, announce, Option.elim_some, call_readln_prelim,
    reply_statusText (show REP_PRELIM < 2 ^ 32 by decide), if_pos, call_readln_number,
    decVal_dec_self, UInt32.ofNat_toNat]

theorem told_announce_none (cmd : Bytes) :
    (textLink (announce none [sp]) [] sent).told cmd = none := by
  simp only [told, call_write_textLink, announce, Option.elim_none, call_readln_prelim,
    reply_statusText (show REP_PRELIM < 2 ^ 32 by decide), if_pos,
    @call_readln_broken [sp] _ _ (by decide) (by decide)]

/-- A normal read gets to the data behind `PRELIM`. -/
theorem shellRead_plain (cmd : Bytes) (count : UInt32) :
    (textLink (statusText REP_PRELIM ++ nl :: rest) incoming sent).shellRead (some cmd) count 0 =
      (textLink rest incoming (sent ++ cmd)).dataReply count := by
  simp only [shellRead, readReply, callThen, call_write_textLink, call_readln_prelim,
    reply_statusText (show REP_PRELIM < 2 ^ 32 by decide), if_pos, ne_eq, not_true, if_false]

/-- A slow read gets to them behind the number. -/
theorem shellRead_slow (cmd behind : Bytes) (count n : UInt32) {ino : UInt64} (hino : ino ≠ 0) :
    (textLink (announce (some n) behind) incoming sent).shellRead (some cmd) count ino =
      (textLink behind incoming (sent ++ cmd)).dataReply n := by
  simp only [shellRead, readReply, callThen, call_write_textLink, announce, Option.elim_some,
    call_readln_prelim, reply_statusText (show REP_PRELIM < 2 ^ 32 by decide), if_pos, hino, ne_eq,
    not_false_eq_true, call_readln_number, decVal_dec_self, UInt32.ofNat_toNat]

/-- The data, and the status line that says that they are complete. -/
theorem dataReply_complete {data : Bytes} {n : UInt32} (hlen : data.length = n.toNat)
    (h31 : n.toNat < 2 ^ 31) :
    (textLink (data ++ (statusText REP_COMPLETE ++ nl :: rest)) incoming sent).dataReply n =
      some (.back (.ok n.toNat) data (textLink rest incoming sent)) := by
  have hread := @sockRead_buffered (data ++ (statusText REP_COMPLETE ++ nl :: rest)) sent incoming
    n.toNat (by omega) (by simp [hlen])
  rw [← hlen, List.take_left, List.drop_left] at hread
  have hline : (textLink (statusText REP_COMPLETE ++ nl :: rest) incoming sent).call
      (.readln SOCKBUF_SIZE) = some (.ok (statusText REP_COMPLETE), textLink rest incoming sent) :=
    call_readln_textLink (nl_notMem_statusText _) (zero_notMem_statusText _)
      (length_statusText_lt (by decide)) (by decide)
  have hneg : ¬ ((data.length : ℕ) : ℤ) < 0 := by omega
  rw [dataReply, asInt_of_lt h31, ← hlen, hread]
  simp only [if_neg hneg, callThen, hline, reply_statusText (show REP_COMPLETE < 2 ^ 32 by decide),
    transferResult, if_pos]

/-- From 2^31 on the count is negative as an `int`. -/
theorem dataReply_overrun {n : UInt32} (hn : 2 ^ 31 ≤ n.toNat) (htext : text ≠ []) :
    (textLink text incoming sent).dataReply n = some .overrun := by
  have hneg : asInt n.toNat < 0 := by
    have hlt := n.toNat_lt
    have hmod : ((n.toNat : ℤ) % (2 ^ 32 : ℕ)) = n.toNat :=
      Int.emod_eq_of_lt (by omega) (by omega)
    unfold asInt
    rw [Int.bmod_def, hmod]
    split <;> omega
  rw [dataReply, sockRead_overrun hneg htext]

theorem inBuf_announce (t : Option UInt32) {behind : Bytes} (hb : behind.length ≤ 1) :
    (textLink (announce t behind) incoming sent).peer.InBuf := by
  have h8 : (statusText REP_PRELIM).length = 7 := by rfl
  have hR := READLNBUF_SIZE_eq
  rw [Peer.InBuf]
  change (announce t behind).length ≤ _
  rcases t with _ | n
  · simp only [announce, Option.elim_none, List.length_append, List.length_cons]
    omega
  · have hlen : (dec n.toNat).length ≤ 10 :=
      length_dec_le (by omega) (n.toNat_lt.trans (by decide))
    simp only [announce, Option.elim_some, List.length_append, List.length_cons]
    omega

end Link

theorem not_comes_overrun {bound : ℕ} : ¬ Comes (Leaving.Within bound) (some .overrun) := by
  rintro ⟨y, hy, hwithin⟩
  obtain rfl := Option.some.inj hy
  exact hwithin

/-- An announced count that is too large for the caller's buffer, and data to fill it. -/
theorem not_within_long {n : UInt32} {bound : ℕ} {sent : Bytes} (hlt : bound < n.toNat)
    (h31 : n.toNat < 2 ^ 31) :
    ¬ Comes (Leaving.Within bound)
      ((textLink [] [.data (List.replicate (bound + 1) sp)] sent).dataReply n) := by
  rintro ⟨y, hy, hwithin⟩
  have hread := @Link.sockRead_long sent n.toNat _ (by omega) (Nat.succ_pos bound) hlt
  rw [← asInt_of_lt h31] at hread
  obtain ⟨r, l, rfl⟩ := Link.dataReply_buffer hread hy
  have hlen := hwithin.1
  rw [List.length_replicate] at hlen
  omega

namespace NetCall

variable {preserveOwn : Bool} {cred : Cred}

/-- A call that is bounded in all states in which the server announces the same. -/
theorem inOrder_of_bounded (l : Link) (c : NetCall)
    (h : ∀ l', l'.peer.InBuf → told preserveOwn cred l' c = told preserveOwn cred l c →
      Bounded preserveOwn cred l' c) : InOrder preserveOwn cred l c := by
  cases c with
  | shellReadlink name realName => trivial
  | transfer t => trivial
  | setGarbage write count => trivial
  | newConn sock => trivial
  | sockReadln count =>
    by_contra hneg
    have hcount : ¬ 0 < count := hneg
    have hrun := h (textLink [nl] [] []) (show 1 ≤ READLNBUF_SIZE by decide) rfl
    have hcall : (textLink [nl] [] []).call (.readln count.toNat) =
        some (.ok [], textLink [] [] []) :=
      @Link.call_readln_textLink [] _ _ _ _ (by decide) (by decide) (by decide) (Nat.zero_le _)
    rw [Bounded, run, Link.sockReadln, Link.callThen, hcall] at hrun
    dsimp only at hrun
    rw [if_neg hcount] at hrun
    exact not_comes_overrun hrun
  | shellRead file offset count ino =>
    constructor
    · rintro rfl cmd hcmd
      by_contra! h31
      -- a server that tells the same count, but sends more octets, would run over the buffer
      have htold : ∀ l',
          told preserveOwn cred l' (shellRead file offset count 0) = l'.told cmd := by
        intro l'
        rw [told, hcmd]
        rfl
      simp only [htold, Bounded, run, hcmd] at h
      rcases ht : l.told cmd with _ | n
      · have hrun := h (textLink (Link.announce none [sp]) [] [])
          (Link.inBuf_announce _ le_rfl) ((Link.told_announce_none cmd).trans ht.symm)
        rw [Link.announce, Link.shellRead_plain, Link.dataReply_overrun h31 (by simp)] at hrun
        exact not_comes_overrun hrun
      · have hrun := h (textLink (Link.announce (some n) []) [] [])
          (Link.inBuf_announce _ (Nat.zero_le _)) ((Link.told_announce n cmd []).trans ht.symm)
        rw [Link.announce, Link.shellRead_plain, Link.dataReply_overrun h31 (by simp)] at hrun
        exact not_comes_overrun hrun
    -- for a slow read the count is the one that the server tells
    · intro hino n hn
      rcases hcmd : readLine preserveOwn cred file offset count ino with _ | cmd
      · rw [told, hcmd] at hn
        cases hn
      · have htold : ∀ l', told preserveOwn cred l' (shellRead file offset count ino) =
            l'.told cmd := by
          intro l'
          rw [told, hcmd]
          rfl
        rw [htold] at hn
        simp only [htold, Bounded, run, hcmd, hn] at h
        have hrun : ∀ behind incoming, behind.length ≤ 1 → Comes (Leaving.Within count.toNat)
            ((textLink behind incoming cmd).dataReply n) := by
          intro behind incoming hb
          have hl := h (textLink (Link.announce (some n) behind) incoming [])
            (Link.inBuf_announce _ hb) (Link.told_announce n cmd behind)
          rwa [Link.shellRead_slow cmd behind count n hino] at hl
        have h31 : n.toNat < 2 ^ 31 := by
          by_contra! h31
          have hover := hrun [sp] [] le_rfl
          rw [Link.dataReply_overrun h31 (by simp)] at hover
          exact not_comes_overrun hover
        refine ⟨?_, h31⟩
        by_contra! hlt
        exact not_within_long hlt h31 (hrun [] _ (Nat.zero_le _))

/-- **Bounded network reads**: in every run in which the counts are in order, every call stores and
returns no more than its caller's buffer has, and `readlnbuf_len` stays in its bounds; and a call is
so in all states in which the server announces the same number only if its counts are in order. -/
theorem netCalls_within_iff (preserveOwn : Bool) (cred : Cred) :
    (∀ (l : Link) (calls : List NetCall), l.peer.InBuf →
      Along (next preserveOwn cred) (InOrder preserveOwn cred) l calls →
        Along (next preserveOwn cred) (Bounded preserveOwn cred) l calls) ∧
      ∀ (l : Link) (c : NetCall),
        (∀ l', l'.peer.InBuf → told preserveOwn cred l' c = told preserveOwn cred l c →
          Bounded preserveOwn cred l' c) ↔ InOrder preserveOwn cred l c := by
  constructor
  · intro l calls hl
    refine Along.of_guarded (fun l => l.peer.InBuf) (fun l c hl hc => ?_) hl
    have hb := bounded_of_inOrder hl hc
    exact ⟨hb, inBuf_next hb⟩
  · intro l c
    refine ⟨inOrder_of_bounded l c, fun hc l' hl' htold => bounded_of_inOrder hl' ?_⟩
    cases c with
    | shellRead file offset count ino => exact ⟨hc.1, fun hino n hn => hc.2 hino n (htold ▸ hn)⟩
    | shellReadlink name realName => trivial
    | sockReadln count => exact hc
    | transfer t => trivial
    | setGarbage write count => trivial
    | newConn sock => trivial

/-- A server that announces and sends two octets. -/
def generous : Link :=
  textLink (Link.announce (some 2) (ascii "xy" ++ (statusText REP_COMPLETE ++ [nl]))) [] []

/-- A slow read of one octet from it: both are stored, and the result is 2. -/
theorem not_bounded_generous :
    generous.peer.InBuf ∧
      (∃ l, run false ⟨0, []⟩ generous (shellRead (ascii "/f") 0 1 7) =
        some (.back (.ok 2) (ascii "xy") l)) ∧
      ¬ Bounded false ⟨0, []⟩ generous (shellRead (ascii "/f") 0 1 7) := by
  have hin : generous.peer.InBuf := by
    change generous.peer.lnbuf.length ≤ READLNBUF_SIZE
    decide
  have hrun : ∃ l, run false ⟨0, []⟩ generous (shellRead (ascii "/f") 0 1 7) =
      some (.back (.ok 2) (ascii "xy") l) := by
    obtain ⟨cmd, hcmd⟩ : ∃ cmd, readLine false ⟨0, []⟩ (ascii "/f") 0 1 7 = some cmd := ⟨_, rfl⟩
    rw [run, hcmd, generous, Link.shellRead_slow _ _ _ _ (by decide),
      Link.dataReply_complete rfl (by decide)]
    exact ⟨_, rfl⟩
  refine ⟨hin, hrun, ?_⟩
  obtain ⟨l, h⟩ := hrun
  rintro ⟨y, hy, hwithin⟩
  obtain rfl := Option.some.inj (h.symm.trans hy)
  exact absurd hwithin.1 (by decide)

end NetCall

end Shfs
