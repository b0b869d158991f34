import Shfs.Align

/-!
# Runs of calls against the Perl server

Every call of a client function, on the server's answer to it: where the answer is plain, the call
leaves the connection as `Aftermath` says. From this `Served` follows the connection over a whole
run, in which the two sides take turns in any order.
-/

namespace Shfs

open Lib

namespace Ask

variable {σ : Type} {os : OS σ} {home : Bytes}

/-- The main loop on the words of a call that were sent. -/
theorem mainLoop_sent (m : Mount) (cred : Cred) (a : Ask) {s : Perl σ}
    (hp : s.preserve = m.preserveOwn) :
    s.mainLoop os home ((a.request m).name :: sentCred m.preserveOwn cred ++
        (a.request m).args.map Word.value) =
      (a.switched m cred s).runCommand os home (a.request m).name
        ((a.request m).args.map Word.value) := by
  unfold switched
  cases hm : m.preserveOwn with
  | false =>
    rw [hm] at hp
    simp [Perl.mainLoop, sentCred, hp]
  | true =>
    rw [hm] at hp
    simp [Perl.mainLoop, sentCred, hp]

@[simp] theorem switched_preserve (m : Mount) (cred : Cred) (s : Perl σ) (a : Ask) :
    (a.switched m cred s).preserve = s.preserve := by
  unfold switched
  split <;> rfl

/-! ## The answers -/

section Answers

variable {p : Bool} {info : Info} {s : Perl σ}

/-- The server after the command of a call. -/
def served (os : OS σ) (home : Bytes) (m : Mount) (s : Perl σ) (a : Ask) : Wire Getline (Perl σ) :=
  (s.runCommand os home (a.request m).name ((a.request m).args.map Word.value)).wire
    (perlServer os home)

/-- Printing a status line last makes the server ready. -/
theorem ready_answer (hp : s.preserve = p) (code : ℕ) :
    Ready p ((s.answer code).wire (perlServer os home)) :=
  ⟨⟨s, rfl, hp⟩, rfl⟩

theorem ready_print {proc : Proc (Perl σ)} (h : Ready p (proc.wire (perlServer os home)))
    (payload : Bool) (bs : Bytes) :
    Ready p ((Proc.print payload bs proc).wire (perlServer os home)) := by
  refine ⟨h.mode, ?_⟩
  have := h.answered
  rw [Proc.wire_answered, Proc.wire_print_inbox] at *
  simp only [Bool.not_eq_true', List.isEmpty_eq_false_iff] at *
  simp [this]

/-- `do_command` -/
theorem leaves_command (hf : Fresh info) (hp : s.preserve = p) (m : Mount) (c : Call)
    (line : Bytes) :
    Leaves os home p ((command c).reply line info) ((command c).served os home m s) := by
  obtain ⟨code, s', hproc, hcode, hp'⟩ :=
    oneLine_command hp c (c.args.map Word.value)
  change Leaves os home p _ ((s.runCommand os home c.name (c.args.map Word.value)).wire _)
  rw [hproc]
  exact leaves_commandReply hf (ready_answer hp' code) hcode (s'.answer_bytes _ code) line

/-- `do_ls`: a listing, or the status line without one. -/
theorem leaves_ls (hf : Fresh info) (hp : s.preserve = p) (m : Mount) (stat : Bool) (file : Path)
    (more : List Bytes → Bool) (fuel : ℕ) (hplain : (ls stat file more fuel).ReplyPlain os s)
    (line : Bytes) :
    Leaves os home p ((ls stat file more fuel).reply line info)
      ((ls stat file more fuel).served os home m s) := by
  have hlist : Leaves os home p ((ls stat file more fuel).reply line info)
      ((s.listing os stat file.text).wire (perlServer os home)) := by
    have hbytes : ((s.listing os stat file.text).wire (perlServer os home)).bytes =
        ((os.ls s.ids s.fs stat s.stable (s.path file.text)).1.flatMap fun e => e ++ [nl]) ++
          status (if (os.ls s.ids s.fs stat s.stable (s.path file.text)).2 then 200 else 501) := by
      rw [← s.answer_bytes (perlServer os home)]
      exact Proc.wire_print_bytes
    refine leaves_lsReply hf (ready_print (ready_answer hp _) _ _) ?_ ?_ hbytes
      (endsLine_flatMap _) hplain fuel
    · split <;> decide
    · split <;> decide
  have hnone : Leaves os home p ((ls stat file more fuel).reply line info)
      ((s.answer 503).wire (perlServer os home)) :=
    leaves_lsReply hf (ready_answer hp 503) (by decide) (by decide) (s.answer_bytes _ 503)
      (Or.inl rfl) trivial fuel
  cases stat with
  | true =>
    change Leaves os home p _ ((s.sStat os [file.text]).wire _)
    unfold Perl.sStat
    split
    · exact hnone
    · exact hlist
  | false =>
    change Leaves os home p _ ((s.sLsdir os [file.text]).wire _)
    unfold Perl.sLsdir
    split
    · exact hnone
    · exact hlist

/-- A file that cannot be opened, as `s_read` and `s_write` report it. -/
theorem notOpen_eq (os : OS σ) (s : Perl σ) (file : Bytes) :
    ∃ code, code < 1000 ∧ code ≠ REP_PRELIM ∧ s.notOpen os file = s.answer code := by
  unfold Perl.notOpen
  split
  · exact ⟨_, by decide, by decide, rfl⟩
  · exact ⟨_, by decide, by decide, rfl⟩

/-- The first words of a read. -/
theorem read_values (m : Mount) (file : Path) (offset count : UInt32) (ino : UInt64) :
    ∃ rest, ((read file offset count ino).request m).args.map Word.value =
      file.text :: dec offset.toNat :: dec count.toNat :: rest :=
  ⟨_, rfl⟩

/-- `shell_read`: the data, or a status line without them. -/
theorem leaves_read (hf : Fresh info) (hp : s.preserve = p) (m : Mount) (file : Path)
    (offset count : UInt32) (ino : UInt64) (hplain : (read file offset count ino).ReplyPlain os s)
    (line : Bytes) :
    Leaves os home p ((read file offset count ino).reply line info)
      ((read file offset count ino).served os home m s) := by
  have hcode : ∀ code, code < 1000 → code ≠ REP_PRELIM →
      Leaves os home p (readReply count.toNat ino info fun _ info => .ret info)
        ((s.answer code).wire (perlServer os home)) :=
    fun code h h' =>
      leaves_readReply_code hf (ready_answer hp code) h h' (s.answer_bytes _ code) _ _
  obtain ⟨code, hlt, hne, hopen⟩ := notOpen_eq os s (s.path file.text)
  obtain ⟨rest, hrest⟩ := read_values m file offset count ino
  rw [served, hrest]
  change Leaves os home p (readReply count.toNat ino info fun _ info => .ret info) _
  by_cases hino : ino = 0
  -- s_read: PRELIM and the page
  · subst hino
    change Leaves os home p _
      ((s.sRead os (file.text :: dec offset.toNat :: dec count.toNat :: rest)).wire _)
    simp only [Perl.sRead, Perl.arg, List.getD_cons_zero, List.getD_cons_succ, decVal_dec_self,
      hopen]
    split
    · exact hcode code hlt hne
    · split
      · next data hdata =>
        have hle := os.readFile_le _ _ _ _ _ _ hdata
        refine post_sockReadln_status hf.clean (show 100 < 1000 by decide) Proc.wire_print_bytes
          fun n hn => ?_
        rw [Proc.wire_print_bytes, Perl.answer_bytes] at hn
        simp only [reply_statusText (show 100 < 2 ^ 32 by decide), if_true, ne_eq, not_true,
          if_false]
        refine leaves_dataReply hf
          ((ready_print (ready_print (ready_answer hp 200) _ _) _ _).drop n)
          (by decide) hn ?_
        rw [List.length_append, List.length_replicate]
        omega
      · exact hcode 500 (by decide) (by decide)
  -- s_sread: PRELIM, the count on a line of its own, and the octets
  · have hname : ((read file offset count ino).request m).name = ascii "s_sread" := if_pos hino
    rw [hname]
    change Leaves os home p _
      ((s.sSread os (file.text :: dec offset.toNat :: dec count.toNat :: rest)).wire _)
    simp only [Perl.sSread, Perl.arg, List.getD_cons_zero, List.getD_cons_succ, decVal_dec_self,
      hopen]
    split
    · exact hcode code hlt hne
    · split
      · next data hdata =>
        refine leaves_slowReply hf
          (ready_print (ready_print (ready_print (ready_answer hp 200) _ _) _ _) _ _) ?_
            (hplain hino data hdata) count.toNat hino
        rw [Proc.wire_print_bytes, Proc.wire_print_bytes, Proc.wire_print_bytes, Perl.answer_bytes,
          List.append_assoc]
      · exact hcode 500 (by decide) (by decide)

/-- The first words of a write. -/
theorem write_values (m : Mount) (file : Path) (offset : UInt32) (data : Bytes)
    (hdata : data.length < 2 ^ 32) (ino : UInt64) :
    ∃ rest, ((write file offset data hdata ino).request m).args.map Word.value =
      file.text :: dec offset.toNat :: dec data.length :: rest := by
  have hlen : (UInt32.ofNat data.length).toNat = data.length := by
    rw [UInt32.toNat_ofNat']
    exact Nat.mod_eq_of_lt hdata
  refine ⟨[(writeBlocks m.fcacheSize offset).1, (writeBlocks m.fcacheSize offset).2].map
    (fun x => dec x.toNat) ++ [dec ino.toNat], ?_⟩
  simp [request, Request.args, Word.value, hlen]

/-- `shell_write`: the status lines around the data, or one without them. -/
theorem leaves_write (hf : Fresh info) (hp : s.preserve = p) (m : Mount) (file : Path)
    (offset : UInt32) (data : Bytes) (hdata : data.length < 2 ^ 32) (ino : UInt64) (line : Bytes) :
    Leaves os home p ((write file offset data hdata ino).reply line info)
      ((write file offset data hdata ino).served os home m s) := by
  have hcode : ∀ code, code < 1000 → code ≠ REP_PRELIM →
      Leaves os home p ((write file offset data hdata ino).reply line info)
        ((s.answer code).wire (perlServer os home)) :=
    fun code h h' =>
      leaves_writeReply_code hf (ready_answer hp code) h h' (s.answer_bytes _ code) _ _
  obtain ⟨code, hlt, hne, hopen⟩ := notOpen_eq os s (s.path file.text)
  obtain ⟨rest, hrest⟩ := write_values m file offset data hdata ino
  rw [served, hrest]
  change Leaves os home p _
    ((s.sWrite os (file.text :: dec offset.toNat :: dec data.length :: rest)).wire _)
  simp only [Perl.sWrite, Perl.arg, List.getD_cons_zero, List.getD_cons_succ, decVal_dec_self,
    hopen]
  split
  · exact hcode code hlt hne
  · let r := os.writeFile s.ids s.fs (s.path file.text) offset.toNat data
    change Leaves os home p (writeReply _ data info fun _ info => .ret info) _
    refine post_sockReadln_status hf.clean (show 100 < 1000 by decide) Proc.wire_print_bytes
      fun n hn => ?_
    simp only [reply_statusText (show 100 < 2 ^ 32 by decide), if_true]
    refine post_sockWrite hf.clean ?_
    obtain ⟨hmode, hbytes, hanswered⟩ := Wire.feed_congr (by rfl) hn (fun _ => rfl) data
    rw [Wire.feed_take] at hmode hbytes hanswered
    have hreply : ((s.change r 500).wire (perlServer os home)).bytes =
        status (if r.1 then 200 else 500) := Perl.answer_bytes _ _ _
    refine leaves_writtenReply hf ⟨⟨_, hmode, hp⟩, hanswered rfl⟩ ?_ ?_ (hbytes.trans hreply) _
    · split <;> decide
    · split <;> decide

/-- The numbers of `df` are one line. -/
theorem nl_notMem_statfsLine {df : Option Bytes} (h : ∀ line, df = some line → nl ∉ line) :
    nl ∉ Perl.statfsLine df := by
  cases df with
  | none => decide
  | some last =>
    have hfield : ∀ w ∈ Perl.splitSpaces last, nl ∉ w := by
      intro w hw hnl
      refine h last rfl (mem_of_mem_splitOn (b := sp) ?_ hnl)
      unfold Perl.splitSpaces at hw
      split at hw
      · cases hw
      · next f fs hsplit =>
        rw [hsplit]
        rcases List.mem_cons.mp hw with rfl | hw
        · exact List.mem_cons_self ..
        · exact List.mem_cons_of_mem _ (List.mem_of_mem_filter hw)
    have harg : ∀ i, nl ∉ Perl.arg (Perl.splitSpaces last) i := by
      intro i hnl
      rw [Perl.arg, List.getD_eq_getElem?_getD] at hnl
      rcases hi : (Perl.splitSpaces last)[i]? with _ | w
      · rw [hi] at hnl
        cases hnl
      · rw [hi] at hnl
        exact hfield w (List.mem_of_getElem? hi) hnl
    have hsp : nl ≠ sp := by decide
    simp [Perl.statfsLine, harg, hsp]

theorem leaves_readlink (hf : Fresh info) (hp : s.preserve = p) (m : Mount) (name : Path)
    (realName : Bytes) (hplain : (readlink name realName).ReplyPlain os s) (line : Bytes) :
    Leaves os home p ((readlink name realName).reply line info)
      ((readlink name realName).served os home m s) := by
  have hnone : Leaves os home p ((readlink name realName).reply line info)
      ((s.answer 501).wire (perlServer os home)) := by
    change Leaves os home p (readlinkReply info fun _ info => .ret info) _
    refine post_sockReadln_last hf.clean (show 501 < 1000 by decide) (s.answer_bytes _ 501)
      fun n hn => ?_
    simp only [reply_statusText (show 501 < 2 ^ 32 by decide)]
    exact leaves_ret hf ((ready_answer hp 501).drop n) hn
  change Leaves os home p _ ((s.sReadlink os [name.text]).wire _)
  unfold Perl.sReadlink
  split
  · exact hnone
  · next target htarget =>
    split
    · exact hnone
    · refine leaves_readlinkReply hf (ready_print (ready_answer hp 200) _ _) ?_
        (hplain target htarget)
      rw [Proc.wire_print_bytes, Perl.answer_bytes]

theorem leaves_statfs (hf : Fresh info) (hp : s.preserve = p) (m : Mount)
    (hplain : statfs.ReplyPlain os s) (line : Bytes) :
    Leaves os home p (statfs.reply line info) (statfs.served os home m s) := by
  change Leaves os home p (statfsReply info fun _ info => .ret info) ((s.sStatfs os).wire _)
  refine leaves_statfsReply hf (ready_print (ready_answer hp 200) _ _)
    (nl_notMem_statfsLine fun line h => os.df_line _ _ _ _ h) hplain ?_
  rw [Perl.sStatfs, Proc.wire_print_bytes, Perl.answer_bytes]

/-- **One answer**: with a plain reply, a call that comes back leaves the connection in order. -/
theorem leaves_served (hf : Fresh info) (hp : s.preserve = p) (m : Mount) (a : Ask)
    (hplain : a.ReplyPlain os s) (line : Bytes) :
    Leaves os home p (a.reply line info) (a.served os home m s) := by
  cases a with
  | command c => exact leaves_command hf hp m c line
  | ls stat file more fuel => exact leaves_ls hf hp m stat file more fuel hplain line
  | read file offset count ino => exact leaves_read hf hp m file offset count ino hplain line
  | write file offset data hdata ino => exact leaves_write hf hp m file offset data hdata ino line
  | readlink name realName => exact leaves_readlink hf hp m name realName hplain line
  | statfs => exact leaves_statfs hf hp m hplain line

end Answers

/-! ## A call -/

variable {p : Bool} {info : Info} {w : Wire Getline (Perl σ)}

/-- A call whose line was cut short waits for a reply that does not come. -/
theorem leaves_hungry (hf : Fresh info) (hw : w.bytes = []) (a : Ask) (line : Bytes) :
    Leaves os home p (a.reply line info) w := by
  have hread : ∀ k : Cont Bytes Info, Leaves os home p (sockReadln SOCKBUF_SIZE info k) w := by
    intro k
    refine post_sockReadln hf.clean fun l n hn => ?_
    have hnone : nextLine READLNBUF_SIZE w.bytes = none :=
      nextLine_eq_none_iff.mpr ⟨by simp [hw], by simp [hw]⟩
    rw [hnone] at hn
    cases hn
  cases a with
  | ls stat file more fuel =>
    cases fuel with
    | zero => exact Talk.post_spin
    | succ fuel =>
      simp only [reply]
      exact hread _
  | _ =>
    simp only [reply]
    exact hread _

/-- **One call**, with nothing left over before it, leaves the connection as the next one wants it,
if its line decodes and its reply is plain. -/
theorem leaves_talk (hf : Fresh info) {s : Perl σ} {m : Mount} {cred : Cred}
    (hp : s.preserve = m.preserveOwn) (a : Ask) (hplain : a.Plain os m cred s) :
    Leaves os home m.preserveOwn (a.talk m cred info) ⟨.line s .init, [], true⟩ := by
  obtain ⟨line, htalk, hline⟩ := a.talk_eq m cred info
  rw [htalk]
  cases line with
  | none => exact leaves_ret hf ⟨⟨s, rfl, hp⟩, rfl⟩ rfl
  | some l =>
    refine post_sockWrite hf.clean ?_
    rcases (a.request m).scan_sent hplain.1 (hline l rfl) with hscan | ⟨g, hscan⟩
    · rw [Wire.feed_line_inr hscan]
      have hserver : ((perlServer os home).dispatch s ((a.request m).name ::
          sentCred m.preserveOwn cred ++ (a.request m).args.map Word.value)).wire
            (perlServer os home) = a.served os home m (a.switched m cred s) := by
        rw [served, ← a.mainLoop_sent m cred hp]
        rfl
      have hleaves : Leaves os home m.preserveOwn (a.reply l info)
          (a.served os home m (a.switched m cred s)) :=
        leaves_served hf ((a.switched_preserve m cred s).trans hp) m a hplain.2 l
      rw [← hserver] at hleaves
      exact hleaves
    · rw [Wire.feed_line_inl hscan]
      exact leaves_hungry hf rfl a l

/-- A call with `info->garbage` set comes back only before it has sent anything. -/
theorem leaves_dirty {m : Mount} {cred : Cred} (h : Aftermath p info w) (hg : info.garbage = true)
    (hpong : NoPong w.bytes) (a : Ask) : Leaves os home p (a.talk m cred info) w := by
  obtain ⟨line, htalk, -⟩ := a.talk_eq m cred info
  rw [htalk]
  cases line with
  | none => exact Talk.post_ret h
  | some l =>
    obtain ⟨s, hmode, -⟩ := h.ready.mode
    rw [sendLine, sockWrite, checked]
    simp only [h.sock, hg, if_true]
    exact post_clearGarbage h.sock h.write hmode (fun hr => (h.read hr).2) hpong

/-- The condition on a call, at the connection it finds: what it will be answered is plain, or,
with `info->garbage` set, what is left in the stream does not look like the answer to a ping. -/
def Safe (os : OS σ) (m : Mount) (info : Info) (w : Wire Getline (Perl σ)) (cred : Cred) (a : Ask) :
    Prop :=
  if info.garbage then NoPong w.bytes else ∀ s, w.mode = .line s .init → a.Plain os m cred s

/-- **The step**: a safe call that comes back leaves the connection as it should find it. -/
theorem leaves_next {m : Mount} {cred : Cred} (h : Aftermath m.preserveOwn info w) (a : Ask)
    (hsafe : a.Safe os m info w cred) : Leaves os home m.preserveOwn (a.talk m cred info) w := by
  unfold Safe at hsafe
  split at hsafe
  · next hg => exact leaves_dirty h hg hsafe a
  · next hg =>
    have hclean : info.garbage = false := by simpa using hg
    have hread : info.garbageRead = 0 := by
      by_contra hr
      exact hg (h.read hr).1
    obtain ⟨s, hmode, hp⟩ := h.ready.mode
    obtain ⟨mode, inbox, answered⟩ := w
    obtain rfl : mode = .line s .init := hmode
    obtain rfl : inbox = [] := h.clean hclean
    obtain rfl : answered = true := h.ready.answered
    exact leaves_talk ⟨⟨h.sock, hclean⟩, hread, h.write⟩ hp a (hsafe s rfl)

end Ask

/-! ## Runs -/

/-- The connection between two calls: what the client keeps, what is on its way to the server, and
the server with what is on its way back. So the server need not have taken what it was sent when the
next call begins. -/
structure Conn (σ : Type) : Type where
  info : Info
  pipe : Bytes
  wire : Wire Getline (Perl σ)

/-- A new connection, on which nothing has been sent: `info->garbage` is clear, and the server waits
for its first line. -/
def Conn.new {σ : Type} (s : Perl σ) : Conn σ :=
    ⟨⟨true, false, 0, 0⟩, [], ⟨.line s .init, [], true⟩⟩

/-- The connections that calls meeting `guard` lead to, when each call has come back before the
next one; client and server take turns in any order, and the guard sees the connection as it is
when the server has taken what is on its way. -/
inductive Served {σ : Type} (os : OS σ) (home : Bytes) (m : Mount)
    (guard : Info → Wire Getline (Perl σ) → Cred → Ask → Prop) : Conn σ → Prop
  | new (s : Perl σ) (h : s.preserve = m.preserveOwn) : Served os home m guard (Conn.new s)
  | call (c c' : Conn σ) (cred : Cred) (a : Ask) (h : Served os home m guard c)
    (hguard : guard c.info (c.wire.feed (perlServer os home) c.pipe) cred a)
    (hsteps : Steps (perlServer os home) READLNBUF_SIZE ⟨a.talk m cred c.info, c.pipe, c.wire⟩
      ⟨.ret c'.info, c'.pipe, c'.wire⟩) : Served os home m guard c'

/-- Client and server have nothing for each other: nothing is on its way in either direction, and
the server waits for a new line. -/
structure Conn.Aligned {σ : Type} (c : Conn σ) : Prop where
  pipe : c.pipe = []
  inbox : c.wire.inbox = []
  mode : ∃ s, c.wire.mode = .line s .init

section Runs

variable {σ : Type} {os : OS σ} {home : Bytes} {m : Mount} {c : Conn σ}

/-- The invariant along a run of safe calls. -/
theorem Served.aftermath (h : Served os home m (Ask.Safe os m) c) :
    Aftermath m.preserveOwn c.info (c.wire.feed (perlServer os home) c.pipe) := by
  induction h with
  | new s h => exact ⟨rfl, rfl, ⟨⟨s, rfl, h⟩, rfl⟩, fun h => absurd rfl h, fun _ => rfl⟩
  | call c c' cred a _ hguard hsteps ih =>
    exact Ask.leaves_next ih a hguard _ _ hsteps.run_of_ret

/-- **Alignment**: in a run of safe calls, whenever a client function comes back with
`info->garbage` clear, both streams are empty and the server waits for a new line. A call that
leaves something behind says so in `info->garbage`, and the next one clears it. -/
theorem Served.aligned (h : Served os home m (Ask.Safe os m) c) (hg : c.info.garbage = false) :
    c.Aligned := by
  have hafter := h.aftermath
  have hinbox := hafter.clean hg
  have hpipe := Wire.eq_nil_of_answered hinbox hafter.ready.answered
  rw [hpipe, Wire.feed_nil] at hafter hinbox
  obtain ⟨s, hs, -⟩ := hafter.ready.mode
  exact ⟨hpipe, hinbox, s, hs⟩

end Runs

/-! ## A directory with one file -/

/-- A system with one directory that holds one empty file; nothing can be changed. -/
def oneFile (name : Bytes) : OS Unit where
  isDir _ _ _ := true
  exists' _ _ _ := true
  nonEmpty _ _ _ := false
  ls _ _ _ _ _ := ([ascii "total 0", ascii "-rw-r--r-- 1 0 0 0 Jan 1 00:00 " ++ name], true)
  open' _ _ _ _ := false
  firstByte _ _ _ _ := false
  readFile _ _ _ _ _ := none
  writeFile _ _ _ _ _ := (false, ())
  mkdir _ _ _ := (false, ())
  rmdir _ _ _ := (false, ())
  rename _ _ _ _ := (false, ())
  unlink _ _ _ := (false, ())
  creat _ _ _ _ := (false, ())
  link _ _ _ _ := (false, ())
  symlink _ _ _ _ := (false, ())
  readlink _ _ _ := none
  chmod _ _ _ _ := (false, ())
  chown _ _ _ _ := (false, ())
  chgrp _ _ _ _ := (false, ())
  truncate _ _ _ _ := (false, ())
  utime _ _ _ _ _ := (false, ())
  df _ _ _ := none
  readFile_le := by simp
  df_line := by simp

/-- A server that has just been started. -/
def rootPerl : Perl Unit := ⟨⟨0, 0, [], []⟩, (), [], false, false⟩

/-- A listing of the root directory. -/
def lsRoot : Ask := .ls false ⟨ascii "/", by decide, by decide⟩ (fun _ => true) 10

/-- A mount that does not preserve ownership. -/
def plainMount : Mount := ⟨false, 0⟩

/-- The listing of a directory with a file `a` leaves nothing behind. -/
theorem aligned_one_file : (Conn.new rootPerl).Aligned := by
  have hsteps : Steps (perlServer (oneFile (ascii "a")) []) READLNBUF_SIZE
      ⟨lsRoot.talk plainMount ⟨0, []⟩ (Conn.new rootPerl).info, [], (Conn.new rootPerl).wire⟩
      ⟨.ret (Conn.new rootPerl).info, [], (Conn.new rootPerl).wire⟩ := Steps.of_run (by rfl)
  refine Served.aligned (m := plainMount) (.call _ _ ⟨0, []⟩ lsRoot (.new rootPerl rfl) ?_ hsteps)
    rfl
  intro s hs
  cases hs
  refine ⟨(by decide), ?_⟩
  have hlines : lines READLNBUF_SIZE
      ([ascii "total 0", ascii "-rw-r--r-- 1 0 0 0 Jan 1 00:00 a"].flatMap fun e => e ++ [nl]) =
        [ascii "total 0", ascii "-rw-r--r-- 1 0 0 0 Jan 1 00:00 a"] := by decide
  change ListingPlain (fun _ => true) [] (lines READLNBUF_SIZE
    ([ascii "total 0", ascii "-rw-r--r-- 1 0 0 0 Jan 1 00:00 a"].flatMap fun e => e ++ [nl]))
  rw [hlines]
  exact ⟨⟨by decide, by decide, rfl⟩, ⟨by decide, by decide, rfl⟩, trivial⟩

/-- A file name can hold a line that looks like the end of the listing: the real end is still in
the stream when `do_ls` comes back, and `info->garbage` is clear. -/
theorem not_aligned_listing :
    ¬ ∀ c : Conn Unit, Served (oneFile (ascii "a\n### 200")) [] plainMount (fun _ _ _ _ => True) c →
      c.info.garbage = false → c.Aligned := by
  intro h
  let w : Wire Getline (Perl Unit) := ⟨.line rootPerl .init, cells false (status 200), true⟩
  have hsteps : Steps (perlServer (oneFile (ascii "a\n### 200")) []) READLNBUF_SIZE
      ⟨lsRoot.talk plainMount ⟨0, []⟩ (Conn.new rootPerl).info, [], (Conn.new rootPerl).wire⟩
      ⟨.ret (Conn.new rootPerl).info, [], w⟩ := Steps.of_run (by rfl)
  have haligned := h ⟨(Conn.new rootPerl).info, [], w⟩
    (.call _ _ ⟨0, []⟩ lsRoot (.new rootPerl rfl) trivial hsteps) rfl
  cases haligned.inbox

end Shfs
