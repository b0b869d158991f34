import Shfs.Lib.Residue
import Shfs.Served
import Shfs.ShellServer

/-!
# The accounts of `set_garbage`

`shell_read` and `shell_write` set `info->garbage` in one place each on a connection that works:
after a first status line that is none of PRELIM, EPERM and ENOENT (`post_readReply`), and after
ENOSPC behind the data (`post_writeReply`). `Accounted` compares the counts they leave with what
the server in fact still sends and takes.

The Perl server never sends data behind such a status line, and the shell server takes octets
behind ENOSPC only when `head` (or its `dd`) gave up early. So the counts are right in few cases
only; `garbage_accounted` says in which.
-/

namespace Shfs

open Lib

/-- The counts in `info` are those of the connection: the payload that is still to come for the
client, and the raw octets the server still takes. -/
def Accounted {G S : Type} (srv : Server G S) (info : Info) (w : Wire G S) : Prop :=
  info.garbageRead = payloadCount (w.left srv) ∧ info.garbageWrite = w.mode.demand

/-- Whenever the call comes back with `info->garbage` set and the socket still there, its counts
are right; client and server take turns in any order. -/
def Accounts {G S : Type} (srv : Server G S) (s : S) (t : Talk Fault Info) : Prop :=
  ∀ info pipe w, Steps srv READLNBUF_SIZE ⟨t, [], ⟨.line s srv.init, [], true⟩⟩
    ⟨.ret info, pipe, w⟩ →
    info.sock = true → info.garbage = true → Accounted srv info (w.feed srv pipe)

/-- The server reads this line as a command for which it runs `p`. -/
def Reads {G S : Type} (srv : Server G S) (s : S) (line : Bytes) (p : Proc S) : Prop :=
  ∃ words, scan srv.step srv.init line = .inr (words, []) ∧ srv.dispatch s words = p

section Client

variable {G S : Type} {srv : Server G S} {s : S} {w : Wire G S} {info : Info}

/-- What `Accounts` asks of a call that comes back. -/
abbrev Booked (srv : Server G S) (info : Info) (w : Wire G S) : Prop :=
  info.sock = true → info.garbage = true → Accounted srv info w

theorem accounts_iff_post {t : Talk Fault Info} : Accounts srv s t ↔
    t.Post srv READLNBUF_SIZE (Booked srv) ⟨.line s srv.init, [], true⟩ := by
  constructor
  · intro h info w hrun
    exact h info [] w (Steps.of_run hrun)
  · intro h info pipe w hsteps
    exact h info _ hsteps.run_of_ret

/-- A run that has an end is all there is to say about what holds afterwards. -/
theorem post_iff_of_run {t t' : Talk Fault Info} {w' : Wire G S} {Q : Info → Wire G S → Prop}
    (h : t.run srv READLNBUF_SIZE w = t'.run srv READLNBUF_SIZE w') :
    t.Post srv READLNBUF_SIZE Q w ↔ t'.Post srv READLNBUF_SIZE Q w' := by
  unfold Talk.Post
  rw [h]

theorem post_ret_iff {Q : Info → Wire G S → Prop} :
    (.ret info : Talk Fault Info).Post srv READLNBUF_SIZE Q w ↔ Q info w :=
  ⟨fun h => h info w rfl, Talk.post_ret⟩

/-- A clear flag is not on the books. -/
theorem booked_clear (hf : Fresh info) : Booked srv info w := by
  intro _ hg
  rw [hf.clean.garbage] at hg
  cases hg

/-- What the client sends, the server reads. -/
theorem post_sendLine_iff (hf : Fresh info) {l : Bytes} {p : Proc S} (h : Reads srv s l p)
    {fail : Errno → Info → Talk Fault Info} {k : Bytes → Info → Talk Fault Info}
    {Q : Info → Wire G S → Prop} :
    (sendLine (some l) info fail k).Post srv READLNBUF_SIZE Q ⟨.line s srv.init, [], true⟩ ↔
      (k l info).Post srv READLNBUF_SIZE Q (p.wire srv) := by
  obtain ⟨words, hscan, rfl⟩ := h
  refine post_iff_of_run ?_
  rw [sendLine, sockWrite_clean hf.clean, send, Talk.run, Wire.feed_line_inr hscan]
  rfl

/-! ## Counts -/

theorem asInt_eq_iff {count k : ℕ} (hc : count < 2 ^ 32) (hk : k ≤ count) :
    asInt count = k ↔ k = count ∧ count < 2 ^ 31 := by
  unfold asInt
  rw [Int.bmod_def]
  split <;> omega

/-- A server that sends nothing more. -/
theorem accounted_iff {n : ℕ} (h : w.mode.Sinks srv n) (hw : w.bytes = []) :
    Accounted srv info w ↔ info.garbageRead = 0 ∧ info.garbageWrite = n := by
  rw [Accounted, h.left, h.demand, Wire.inbox_eq_nil hw]
  rfl

/-- Data counted that do not come. -/
theorem booked_read_iff (hf : Fresh info) {count : ℕ} (hc : count < 2 ^ 32)
    (h : w.mode.Sinks srv 0) (hw : w.bytes = []) :
    Booked srv (info.setGarbage false count) w ↔ count = 0 := by
  have hcount := asInt_eq_iff hc (Nat.zero_le count)
  have hbooked : Booked srv (info.setGarbage false count) w ↔
      asInt count = (0 : ℕ) ∧ info.garbageWrite = (0 : ℕ) := by
    simp [Booked, accounted_iff h hw, hf.clean.sock, Info.setGarbage]
  rw [hbooked, hcount, hf.write]
  omega

/-- Octets counted that the server takes, if it takes as many. -/
theorem booked_write_iff (hf : Fresh info) {count n : ℕ} (hc : count < 2 ^ 32) (hn : n ≤ count)
    (h : w.mode.Sinks srv n) (hw : w.bytes = []) :
    Booked srv (info.setGarbage true count) w ↔ n = count ∧ count < 2 ^ 31 := by
  have hbooked : Booked srv (info.setGarbage true count) w ↔
      info.garbageRead = (0 : ℕ) ∧ asInt count = n := by
    simp [Booked, accounted_iff h hw, hf.clean.sock, Info.setGarbage]
  rw [hbooked, asInt_eq_iff hc hn, hf.read]
  simp

/-! ## `shell_read` -/

/-- The status lines `shell_read` and `shell_write` expect first. -/
def Expected (code : ℕ) : Prop := code = REP_PRELIM ∨ code = REP_EPERM ∨ code = REP_ENOENT

/-- After the data, `info->garbage` is clear. -/
theorem booked_dataReply (hf : Fresh info) (count : ℕ) (w : Wire G S) :
    (dataReply count info fun _ info => .ret info).Post srv READLNBUF_SIZE (Booked srv) w :=
  post_sockRead hf.clean fun _ => post_sockReadln hf.clean fun _ _ _ =>
    Talk.post_ret (booked_clear hf)

/-- With an expected status line `shell_read` leaves `info->garbage` clear. -/
theorem booked_readReply (hf : Fresh info) {code : ℕ} (hcode : code < 1000) (h : Expected code)
    {rest : Bytes} (hw : w.bytes = status code ++ rest) (count : ℕ) (ino : UInt64) :
    (readReply count ino info fun _ info => .ret info).Post srv READLNBUF_SIZE (Booked srv) w := by
  refine post_sockReadln_status hf.clean hcode hw fun n hn => ?_
  simp only [reply_statusText (show code < 2 ^ 32 by omega)]
  split
  · split
    · exact post_sockReadln hf.clean fun _ _ _ => booked_dataReply hf _ _
    · exact booked_dataReply hf _ _
  · next hne =>
    rcases h with h | rfl | rfl
    · exact absurd h hne
    · exact Talk.post_ret (booked_clear hf)
    · exact Talk.post_ret (booked_clear hf)

/-- With any other one it counts data that do not come. -/
theorem booked_readReply_iff (hf : Fresh info) {code : ℕ} (hcode : code < 1000)
    (h : ¬ Expected code) (hw : w.bytes = status code) (hsink : w.mode.Sinks srv 0)
    (count : UInt32) (ino : UInt64) :
    (readReply count.toNat ino info fun _ info => .ret info).Post srv READLNBUF_SIZE
      (Booked srv) w ↔ count = 0 := by
  have hw' : w.bytes = status code ++ [] := hw.trans (List.append_nil _).symm
  rw [readReply, post_iff_of_run (run_sockReadln_status hf.clean hcode hw')]
  simp only [reply_statusText (show code < 2 ^ 32 by omega), Expected, not_or] at h ⊢
  have hpast : (pastStatus w code).mode.Sinks srv 0 := hsink
  rw [if_neg h.1, if_neg h.2.1, if_neg h.2.2, post_ret_iff,
    booked_read_iff hf count.toNat_lt hpast (pastStatus_bytes hw')]
  exact ⟨fun hc => UInt32.toNat_inj.mp hc, fun hc => hc ▸ rfl⟩

/-! ## `shell_write` -/

/-- After a first status line other than PRELIM, `info->garbage` is clear. -/
theorem booked_writeReply (hf : Fresh info) {code : ℕ} (hcode : code < 1000)
    (h : code ≠ REP_PRELIM) (hw : w.bytes = status code) (count : ℕ) (data : Bytes) :
    (writeReply count data info fun _ info => .ret info).Post srv READLNBUF_SIZE
      (Booked srv) w := by
  refine post_sockReadln_last hf.clean hcode hw fun n hn => ?_
  simp only [reply_statusText (show code < 2 ^ 32 by omega), if_neg h]
  split
  · exact Talk.post_ret (booked_clear hf)
  · split <;> exact Talk.post_ret (booked_clear hf)

/-- After PRELIM the data go out. -/
theorem run_writeReply (hf : Fresh info) {rest : Bytes} (hw : w.bytes = status 100 ++ rest)
    (count : ℕ) (data : Bytes) :
    (writeReply count data info fun _ info => .ret info).run srv READLNBUF_SIZE w =
      (writtenReply count info fun _ info => .ret info).run srv READLNBUF_SIZE
        ((pastStatus w 100).feed srv data) := by
  rw [writeReply, run_sockReadln_status hf.clean (by decide) hw]
  simp only [reply_statusText (show 100 < 2 ^ 32 by decide), if_true]
  rw [sockWrite_clean hf.clean, send, Talk.run]

/-- Behind the data, `info->garbage` is only set for ENOSPC. -/
theorem booked_writtenReply (hf : Fresh info) {code : ℕ} (hcode : code < 1000)
    (h : code ≠ REP_ENOSPC) (hw : w.bytes = status code) (count : ℕ) :
    (writtenReply count info fun _ info => .ret info).Post srv READLNBUF_SIZE (Booked srv) w := by
  refine post_sockReadln_last hf.clean hcode hw fun n hn => ?_
  simp only [reply_statusText (show code < 2 ^ 32 by omega), if_neg h]
  exact Talk.post_ret (booked_clear hf)

theorem booked_writtenReply_iff (hf : Fresh info) {n count : ℕ} (hc : count < 2 ^ 32)
    (hn : n ≤ count) (hw : w.bytes = status 502) (hsink : w.mode.Sinks srv n) :
    (writtenReply count info fun _ info => .ret info).Post srv READLNBUF_SIZE (Booked srv) w ↔
      n = count ∧ count < 2 ^ 31 := by
  have hw' : w.bytes = status 502 ++ [] := hw.trans (List.append_nil _).symm
  rw [writtenReply, post_iff_of_run (run_sockReadln_status hf.clean (by decide) hw')]
  simp only [reply_statusText (show 502 < 2 ^ 32 by decide), if_true]
  have hpast : (pastStatus w 502).mode.Sinks srv n := hsink
  rw [post_ret_iff, booked_write_iff hf hc hn hpast (pastStatus_bytes hw')]

/-- PRELIM and the data, for a server that says PRELIM first. -/
theorem post_writeReply_prelim_iff (hf : Fresh info) (body : Proc S) (count : ℕ) (data : Bytes)
    {Q : Info → Wire G S → Prop} :
    ∃ w' : Wire G S, w'.mode = ((body.wire srv).feed srv data).mode ∧
      w'.bytes = ((body.wire srv).feed srv data).bytes ∧
      ((writeReply count data info fun _ info => .ret info).Post srv READLNBUF_SIZE Q
          ((Proc.print false (status 100) body).wire srv) ↔
        (writtenReply count info fun _ info => .ret info).Post srv READLNBUF_SIZE Q w') := by
  have hbytes : ((Proc.print false (status 100) body).wire srv).bytes =
      status 100 ++ (body.wire srv).bytes := Proc.wire_print_bytes
  obtain ⟨hmode, hfed, -⟩ := Wire.feed_congr (by rfl) (pastStatus_bytes hbytes) (fun _ => rfl) data
  exact ⟨_, hmode, hfed, post_iff_of_run (run_writeReply hf hbytes count data)⟩

end Client

/-! ## The Perl server -/

namespace Perl

variable {G σ : Type} (os : OS σ) (s : Perl σ) (args : List Bytes)

/-- `s_read` and `s_sread` end with COMPLETE for a file that is not there, or with ERROR. -/
def ReadFails : Prop :=
  let file := s.path (arg args 0)
  if os.open' s.ids s.fs .rdonly file then
    os.readFile s.ids s.fs file (decVal (arg args 1)) (decVal (arg args 2)) = none
  else os.exists' s.ids s.fs file = false

/-- The sub for `shell_read`: `s_sread` for a slow read, which has the number of the inode in its
line, and `s_read` for all others. -/
def readSub (ino : UInt64) : Proc (Perl σ) := if ino = 0 then s.sRead os args else s.sSread os args

variable {os s args} {srv : Server G (Perl σ)} {info : Info}

theorem sinks_answer (s : Perl σ) (code : ℕ) : ((s.answer code).wire srv).mode.Sinks srv 0 :=
  Or.inl ⟨rfl, s, rfl⟩

/-- The two ways a read begins: an expected status line, or one that is all there is. -/
theorem readSub_cases (srv : Server G (Perl σ)) (os : OS σ) (s : Perl σ) (args : List Bytes)
    (ino : UInt64) :
    (¬ s.ReadFails os args ∧ ∃ code rest, code < 1000 ∧ Expected code ∧
      ((s.readSub os args ino).wire srv).bytes = status code ++ rest) ∨
    (s.ReadFails os args ∧ ∃ code, code < 1000 ∧ ¬ Expected code ∧
      s.readSub os args ino = s.answer code) := by
  have hexpected : Expected 100 ∧ Expected 501 ∧ ¬ Expected 200 ∧ ¬ Expected 500 := by
    simp [Expected]
  unfold ReadFails readSub sRead sSread notOpen
  dsimp only
  by_cases hopen : os.open' s.ids s.fs .rdonly (s.path (arg args 0)) = true
  · simp only [hopen, not_true, if_false, if_true]
    rcases hread : os.readFile s.ids s.fs (s.path (arg args 0)) (decVal (arg args 1))
        (decVal (arg args 2)) with _ | data
    · simp only [ite_self]
      exact Or.inr ⟨trivial, 500, by decide, hexpected.2.2.2, rfl⟩
    · simp only [reduceCtorEq, not_false_eq_true, true_and, false_and, or_false]
      split <;> exact ⟨100, _, by decide, hexpected.1, Proc.wire_print_bytes⟩
  · simp only [hopen, if_true, Bool.false_eq_true, if_false, ite_self, not_false_eq_true]
    rcases hex : os.exists' s.ids s.fs (s.path (arg args 0)) with _ | _
    · exact Or.inr ⟨rfl, 200, by decide, hexpected.2.2.1, rfl⟩
    · exact Or.inl ⟨by simp, 501, [], by decide, hexpected.2.1, by simp⟩

/-- `shell_read` against the Perl server. -/
theorem booked_read_iff (hf : Fresh info) (count : UInt32) (ino : UInt64) :
    (readReply count.toNat ino info fun _ info => .ret info).Post srv READLNBUF_SIZE (Booked srv)
        ((s.readSub os args ino).wire srv) ↔ (s.ReadFails os args → count = 0) := by
  rcases readSub_cases srv os s args ino with
    ⟨hread, code, rest, hcode, hexp, hw⟩ | ⟨hread, code, hcode, hexp, hsub⟩
  · exact ⟨fun _ h => absurd h hread, fun _ => booked_readReply hf hcode hexp hw _ _⟩
  · rw [hsub, booked_readReply_iff hf hcode hexp (s.answer_bytes srv code) (sinks_answer s code)]
    exact ⟨fun h _ => h, fun h => h hread⟩

/-- `shell_write` against the Perl server never sets `info->garbage`. -/
theorem booked_write (hf : Fresh info) {data : Bytes} (hargs : arg args 2 = dec data.length) :
    (writeReply data.length data info fun _ info => .ret info).Post srv READLNBUF_SIZE (Booked srv)
      ((s.sWrite os args).wire srv) := by
  unfold sWrite notOpen
  simp only [hargs, decVal_dec_self]
  split
  · split
    · exact booked_writeReply hf (show 501 < 1000 by decide) (by decide) (s.answer_bytes srv _) _ _
    · exact booked_writeReply hf (show 200 < 1000 by decide) (by decide) (s.answer_bytes srv _) _ _
  · obtain ⟨w', -, hbytes, hiff⟩ := post_writeReply_prelim_iff (Q := Booked srv) hf
      (.take data.length fun data =>
        s.change (os.writeFile s.ids s.fs (s.path (arg args 0)) (decVal (arg args 1)) data) 500)
      data.length data
    rw [hiff]
    rw [Wire.feed_take] at hbytes
    refine booked_writtenReply hf ?_ ?_ (hbytes.trans (answer_bytes _ srv _)) _
    · split <;> decide
    · split <;> decide

end Perl

/-! ## The shell server -/

namespace Shell

variable {G σ : Type} (os : ShellOS σ) (s : Shell σ) (args : List Bytes)

/-- The function for `shell_read`, chosen in the same way. -/
def readSub (ino : UInt64) : Proc (Shell σ) := if ino = 0 then s.sRead os args else s.sSread os args

/-- When the count `shell_write` leaves behind is what `s_write` still takes: if it fails after it
has read all the data, only for no data, and if it fails before, only when it has read as much as
it was sent. -/
def WriteBooked (data : Bytes) : Prop :=
  let file := s.path (arg args 0)
  let tmp := s.tmpFile (arg args 5)
  if s.head ∧ os.newFile s.fs tmp then
    match os.head s.fs tmp data.length with
    | none =>
      let r := os.ddWrite s.fs file (decVal (arg args 3)) (decVal (arg args 4)) data
      r.1 = false → os.writable r.2 file = true → data.length = 0
    | some n => n = data.length ∧ data.length < 2 ^ 31
  else
    os.writable s.fs file = true → data.length ≠ 0 →
      ∀ n, (os.ddStdin s.fs file (decVal (arg args 1)) data.length).1 = some n →
        n = data.length ∧ data.length < 2 ^ 31

variable {os s args} {srv : Server G (Shell σ)} {info : Info}

theorem sinks_answer (s : Shell σ) (code : ℕ) : ((s.answer code).wire srv).mode.Sinks srv 0 :=
  Or.inl ⟨rfl, s, rfl⟩

/-- The shell server answers a read with an expected status line, or not at all. -/
theorem readSub_cases (srv : Server G (Shell σ)) (os : ShellOS σ) (s : Shell σ) (args : List Bytes)
    (ino : UInt64) :
    ((s.readSub os args ino).wire srv).bytes = [] ∨
      ∃ code rest, code < 1000 ∧ Expected code ∧
        ((s.readSub os args ino).wire srv).bytes = status code ++ rest := by
  have h100 : Expected 100 := Or.inl rfl
  have h501 : Expected 501 := Or.inr (Or.inl rfl)
  have h503 : Expected 503 := Or.inr (Or.inr rfl)
  have hmissing : ∃ code rest, code < 1000 ∧ Expected code ∧
      ((s.answer (if os.isFile s.fs (s.path (arg args 0)) then 501 else 503)).wire srv).bytes =
        status code ++ rest := by
    split
    · exact ⟨501, [], by decide, h501, by simp⟩
    · exact ⟨503, [], by decide, h503, by simp⟩
  unfold readSub sRead sSread
  dsimp only
  split
  · refine Or.inr ?_
    split
    · split
      · exact ⟨100, _, by decide, h100, Proc.wire_print_bytes⟩
      · exact ⟨501, _, by decide, h501, Proc.wire_print_bytes⟩
    · exact ⟨100, _, by decide, h100, Proc.wire_print_bytes⟩
  · split
    · exact Or.inl rfl
    · refine Or.inr ?_
      split
      · split
        · exact ⟨100, _, by decide, h100, Proc.wire_print_bytes⟩
        · exact ⟨501, [], by decide, h501, by simp⟩
      · split
        · split
          · exact ⟨100, _, by decide, h100, Proc.wire_print_bytes⟩
          · exact hmissing
        · exact hmissing

/-- `shell_read` against the shell server never sets `info->garbage`. -/
theorem booked_read (hf : Fresh info) (count : ℕ) (ino : UInt64) :
    (readReply count ino info fun _ info => .ret info).Post srv READLNBUF_SIZE (Booked srv)
      ((s.readSub os args ino).wire srv) := by
  rcases readSub_cases srv os s args ino with hnil | ⟨code, rest, hcode, hexp, hw⟩
  · refine post_sockReadln hf.clean fun l n hn => ?_
    rw [hnil] at hn
    cases hn
  · exact booked_readReply hf hcode hexp hw count ino

/-- Behind PRELIM, a function that ends with a status line once it has the data. -/
theorem booked_written_iff (hf : Fresh info) {data : Bytes} (hdata : data.length < 2 ^ 32)
    {body : Proc (Shell σ)} {code : ℕ} (hcode : code < 1000) (s' : Shell σ)
    (hbody : (body.wire srv).feed srv data = (s'.answer code).wire srv) :
    (writeReply data.length data info fun _ info => .ret info).Post srv READLNBUF_SIZE (Booked srv)
        ((Proc.print false (status 100) body).wire srv) ↔
          (code = REP_ENOSPC → data.length = 0) := by
  obtain ⟨w', hmode, hbytes, hiff⟩ :=
    post_writeReply_prelim_iff hf body data.length data (Q := Booked srv)
  rw [hbody] at hmode hbytes
  rw [hiff]
  by_cases h : code = REP_ENOSPC
  · subst h
    have hsink : w'.mode.Sinks srv 0 := hmode ▸ sinks_answer s' _
    rw [booked_writtenReply_iff hf hdata (Nat.zero_le _) (hbytes.trans (s'.answer_bytes srv _))
      hsink]
    simp only [forall_const]
    omega
  · exact ⟨fun _ h' => absurd h' h, fun _ =>
      booked_writtenReply hf hcode h (hbytes.trans (s'.answer_bytes srv _)) _⟩

/-- Behind PRELIM, a function that takes `n` octets and then gives up. -/
theorem booked_writeFailed_iff (hf : Fresh info) {data : Bytes} (hdata : data.length < 2 ^ 32)
    {n : ℕ} (hn : n ≤ data.length) (s' : Bytes → Shell σ) :
    (writeReply data.length data info fun _ info => .ret info).Post srv READLNBUF_SIZE (Booked srv)
        ((Proc.print false (status 100)
          (.take n fun got => (s' got).sWriteFailed data.length)).wire srv) ↔
      n = data.length ∧ data.length < 2 ^ 31 := by
  obtain ⟨w', hmode, hbytes, hiff⟩ := post_writeReply_prelim_iff hf
    (.take n fun got => (s' got).sWriteFailed data.length) data.length data (Q := Booked srv)
  rw [hiff]
  -- the first `n` octets of the data, and the others
  have hsplit : ((Proc.take n fun got => (s' got).sWriteFailed data.length).wire srv).feed srv
    data = (((s' (data.take n)).sWriteFailed data.length).wire srv).feed srv (data.drop n) := by
    have htake : (data.take n).length = n := List.length_take_of_le hn
    conv_lhs => rw [← List.take_append_drop n data, Wire.feed_append]
    nth_rewrite 1 [← htake]
    rw [Wire.feed_take, List.take_append_drop]
  set v := ((s' (data.take n)).sWriteFailed data.length).wire srv
  have hsink : v.mode.Sinks srv data.length := Proc.sinks_take srv data.length _
  have hv : v.bytes = status 502 := by
    refine Proc.wire_print_bytes.trans ?_
    rw [Proc.wire_sink_bytes, List.append_nil]
  have hlen : (data.drop n).length ≤ data.length := by simp
  obtain ⟨hrest, hinbox⟩ := hsink.feed hlen
  rw [hsplit] at hmode hbytes
  refine booked_writtenReply_iff hf hdata hn ?_ ?_
  · rw [hbytes, ← hv, Wire.bytes, hinbox, Wire.bytes]
  · rw [List.length_drop, show data.length - (data.length - n) = n by omega] at hrest
    rwa [hmode]

/-- `shell_write` against the shell server. -/
theorem booked_write_iff (hf : Fresh info) {data : Bytes} (hdata : data.length < 2 ^ 32)
    (hargs : arg args 2 = dec data.length) :
    (writeReply data.length data info fun _ info => .ret info).Post srv READLNBUF_SIZE (Booked srv)
        ((s.sWrite os args).wire srv) ↔ s.WriteBooked os args data := by
  have hzero : dec data.length = ascii "0" ↔ data.length = 0 := by
    rw [show ascii "0" = dec 0 from rfl, dec_injective.eq_iff]
  unfold sWrite WriteBooked
  simp only [hargs, hzero, decVal_dec_self]
  split
  · rcases hhead : os.head s.fs (s.tmpFile (arg args 5)) data.length with _ | n
    · set r := os.ddWrite s.fs (s.path (arg args 0)) (decVal (arg args 3)) (decVal (arg args 4))
      rcases hok : (r data).1 with _ | _
      · rcases hwritable : os.writable (r data).2 (s.path (arg args 0)) with _ | _
        · rw [booked_written_iff hf hdata (show 501 < 1000 by decide) { s with fs := (r data).2 }
            (by rw [Wire.feed_take]; simp [hok, hwritable])]
          simp
        · rw [booked_written_iff hf hdata (show 502 < 1000 by decide) { s with fs := (r data).2 }
            (by rw [Wire.feed_take]; simp [hok, hwritable])]
          simp
      · rw [booked_written_iff hf hdata (show 200 < 1000 by decide) { s with fs := (r data).2 }
            (by rw [Wire.feed_take]; simp [hok])]
        simp
    · exact booked_writeFailed_iff hf hdata (os.head_le _ _ _ _ hhead) fun _ => s
  · split
    · next hw =>
      simp only [hw, forall_const]
      split
      · next hnil =>
        obtain rfl := List.length_eq_zero_iff.mp hnil
        rw [booked_written_iff hf hdata (show 200 < 1000 by decide) s rfl]
        simp
      · next hne =>
        simp only [ne_eq, hne, not_false_eq_true, forall_const]
        rcases hdd : (os.ddStdin s.fs (s.path (arg args 0)) (decVal (arg args 1)) data.length).1
          with _ | n
        · rw [booked_written_iff hf hdata (show 200 < 1000 by decide) _ (by rw [Wire.feed_take])]
          simp
        · rw [booked_writeFailed_iff hf hdata (os.ddStdin_le _ _ _ _ _ hdd)]
          simp
    · next hw =>
      refine ⟨fun _ h => absurd h hw, fun _ => ?_⟩
      refine post_sockReadln hf.clean fun l n hn => ?_
      cases hn

end Shell

/-! ## Both servers -/

/-- The line of the request is sent, and the server reads it as a command for which it runs `p`. -/
def Sent {G S : Type} (srv : Server G S) (s : S) (preserveOwn : Bool) (cred : Cred) (r : Request)
    (p : Proc S) : Prop :=
  ∃ l, (r.built preserveOwn cred).line = some l ∧ Reads srv s l p

section Sent

variable {G S : Type} {srv : Server G S} {s : S} {preserveOwn : Bool} {cred : Cred} {info : Info}
  {p : Proc S} {file : Path} {offset count : UInt32} {ino : UInt64}

theorem accounts_shellRead_iff (hf : Fresh info)
    (h : Sent srv s preserveOwn cred (.read file offset count ino) p) :
    Accounts srv s (shellRead preserveOwn cred file.text offset count ino info
        fun _ info => .ret info) ↔
      (readReply count.toNat ino info fun _ info => .ret info).Post srv READLNBUF_SIZE (Booked srv)
        (p.wire srv) := by
  obtain ⟨l, hl, hreads⟩ := h
  rw [Request.built, Request.onQuoted_line] at hl
  rw [accounts_iff_post, shellRead, hl]
  exact post_sendLine_iff hf hreads

theorem accounts_shellWrite_iff (hf : Fresh info) {fcacheSize : UInt32} {data : Bytes}
    (h : Sent srv s preserveOwn cred (.write fcacheSize file offset count ino) p) :
    Accounts srv s (shellWrite preserveOwn cred fcacheSize file.text offset count data ino info
        fun _ info => .ret info) ↔
      (writeReply count.toNat data info fun _ info => .ret info).Post srv READLNBUF_SIZE
        (Booked srv) (p.wire srv) := by
  obtain ⟨l, hl, hreads⟩ := h
  rw [Request.built, Request.onQuoted_line] at hl
  rw [accounts_iff_post, shellWrite, hl]
  exact post_sendLine_iff hf hreads

end Sent

/-- **Garbage accounting**: when the counts of `shell_read` and `shell_write` are those of the
connection, against either server. Against the Perl server a read is booked right unless the file
is missing or cannot be read; a write never leaves garbage. Against the shell server a read never
does, and a write is booked right as `WriteBooked` says. -/
theorem garbage_accounted {G σ : Type} (preserveOwn : Bool) (cred : Cred) {info : Info}
    (hf : Fresh info) (file : Path) (offset count : UInt32) (ino : UInt64) (args : List Bytes) :
    (∀ (srv : Server G (Perl σ)) (os : OS σ) (s s' : Perl σ),
      Sent srv s preserveOwn cred (.read file offset count ino) (s'.readSub os args ino) →
        (Accounts srv s (shellRead preserveOwn cred file.text offset count ino info
            fun _ info => .ret info) ↔ (s'.ReadFails os args → count = 0))) ∧
    (∀ (srv : Server G (Perl σ)) (os : OS σ) (s s' : Perl σ) (fcacheSize : UInt32) (data : Bytes),
      Sent srv s preserveOwn cred (.write fcacheSize file offset count ino) (s'.sWrite os args) →
      Perl.arg args 2 = dec count.toNat → data.length = count.toNat →
        Accounts srv s (shellWrite preserveOwn cred fcacheSize file.text offset count data ino info
          fun _ info => .ret info)) ∧
    (∀ (srv : Server G (Shell σ)) (os : ShellOS σ) (s s' : Shell σ),
      Sent srv s preserveOwn cred (.read file offset count ino) (s'.readSub os args ino) →
        Accounts srv s (shellRead preserveOwn cred file.text offset count ino info
          fun _ info => .ret info)) ∧
    ∀ (srv : Server G (Shell σ)) (os : ShellOS σ) (s s' : Shell σ) (fcacheSize : UInt32)
      (data : Bytes),
      Sent srv s preserveOwn cred (.write fcacheSize file offset count ino) (s'.sWrite os args) →
      Shell.arg args 2 = dec count.toNat → data.length = count.toNat →
        (Accounts srv s (shellWrite preserveOwn cred fcacheSize file.text offset count data ino info
          fun _ info => .ret info) ↔ s'.WriteBooked os args data) := by
  refine ⟨?_, ?_, ?_, ?_⟩
  · intro srv os s s' h
    rw [accounts_shellRead_iff hf h]
    exact Perl.booked_read_iff hf count ino
  · intro srv os s s' fcacheSize data h hargs hlen
    rw [accounts_shellWrite_iff hf h]
    rw [← hlen] at hargs ⊢
    exact Perl.booked_write hf hargs
  · intro srv os s s' h
    rw [accounts_shellRead_iff hf h]
    exact Shell.booked_read hf count.toNat ino
  · intro srv os s s' fcacheSize data h hargs hlen
    have hdata : data.length < 2 ^ 32 := hlen ▸ count.toNat_lt
    rw [accounts_shellWrite_iff hf h]
    rw [← hlen] at hargs ⊢
    exact Shell.booked_write_iff hf hdata hargs

/-- A system without files. -/
def noFile : OS Unit := { oneFile [] with exists' := fun _ _ _ => false }

/-- A connection on which nothing is left over. -/
def freshInfo : Info := ⟨true, false, 0, 0⟩

theorem fresh_freshInfo : Fresh freshInfo := ⟨⟨rfl, rfl⟩, rfl, rfl⟩

/-- The file of the runs below. -/
def fileA : Path := ⟨ascii "/a", by decide, by decide⟩

/-- The condition for a page of a file, against the Perl server. It is met as long as the file is
there and can be read. -/
theorem garbage_accounted_page :
    Accounts (perlServer noFile []) rootPerl (shellRead false ⟨0, []⟩ fileA.text 0 4096 0 freshInfo
        fun _ info => .ret info) ↔
      (rootPerl.ReadFails noFile [ascii "/a", ascii "0", ascii "4096", ascii "4096", ascii "0",
        ascii "1"] → (4096 : UInt32) = 0) :=
  (garbage_accounted false ⟨0, []⟩ fresh_freshInfo fileA 0 4096 0 [ascii "/a", ascii "0",
    ascii "4096", ascii "4096", ascii "0", ascii "1"]).1 (perlServer noFile []) noFile rootPerl
      rootPerl ⟨ascii "s_read '/a' 0 4096 4096 0 1\n", by decide, [ascii "s_read", ascii "/a",
        ascii "0", ascii "4096", ascii "4096", ascii "0", ascii "1"], by decide, rfl⟩

/-- `shell_read` of a page of a file that is not there: `s_read` says COMPLETE, and the client
counts a page of data that never come. -/
theorem not_accounts_missing :
    ¬ Accounts (perlServer noFile []) rootPerl (shellRead false ⟨0, []⟩ fileA.text 0 4096 0
      freshInfo fun _ info => .ret info) := by
  intro h
  have hsteps : Steps (perlServer noFile []) READLNBUF_SIZE
      ⟨shellRead false ⟨0, []⟩ fileA.text 0 4096 0 freshInfo fun _ info => .ret info, [],
        ⟨.line rootPerl .init, [], true⟩⟩
      ⟨.ret (freshInfo.setGarbage false (4096 : UInt32).toNat), [],
        ⟨.line rootPerl .init, [], true⟩⟩ := Steps.of_run (by rfl)
  have hread := (h _ _ _ hsteps rfl rfl).1
  revert hread
  decide

end Shfs
