import Shfs.Symlink

/-!
# A call is a system call on the other side

What a client function is for, against the Perl server: its caller gets what the system call behind
it says on the machine of the server. `Ask.onServer` makes the system call there, and maps what it
says to the error codes of the client; no line, no status code and no stream is left in it.
`Ask.effect` adds the ids the server works with in the meantime, and the calls that are refused
before anything is sent.

`Ask.call_run` is the result: a call whose line fits, and whose reply can be told apart from the
status lines around it, comes back with exactly this and leaves both streams empty. By
`Lib.Steps.run_eq` that does not depend on the order in which the two sides take turns.

Some calls are left out by `Ask.Orderly`: a slow read, because the server does not end the line of
its length, and a read of a file that is not there or that fails half-way, after which the client
expects data that do not come.
-/

namespace Shfs

open Lib

/-! ## What a call returns -/

/-- The result of a client function, with all that it hands to its caller. -/
inductive Outcome : Type where
  /-- `do_command` and `shell_write` -/
  | code (r : Except Errno ℕ)
  /-- `do_ls`, with the lines it has handed on -/
  | listing (r : Except Errno Unit) (lines : List Bytes)
  | data (r : Except Errno (ℕ × Bytes))
  | link (r : Except Errno Bytes)
  | numbers (r : Except Errno Kstatfs)

/-- The end of a call. -/
abbrev ending {ρ : Type} (outcome : Except Errno ρ → Outcome) : Cont ρ (Outcome × Info) :=
  fun r info => .ret (outcome r, info)

/-- The end of `do_ls`, with the lines it has handed on. -/
abbrev listingEnd : Except Errno Unit → List Bytes → Info → Talk Fault (Outcome × Info) :=
  fun r lines info => .ret (.listing r lines, info)

namespace Ask

/-- The call as a program that keeps its result. -/
def call (m : Mount) (cred : Cred) (info : Info) : Ask → Talk Fault (Outcome × Info)
  | command c => doCommand m.preserveOwn cred c.cmd info (ending .code)
  | ls stat file more fuel =>
    doLs m.preserveOwn cred (entry more) fuel stat file.text [] info listingEnd
  | read file offset count ino =>
    shellRead m.preserveOwn cred file.text offset count ino info (ending .data)
  | write file offset data _ ino =>
    shellWrite m.preserveOwn cred m.fcacheSize file.text offset (UInt32.ofNat data.length) data ino
      info (ending .code)
  | readlink name realName =>
    shellReadlink m.preserveOwn cred name.text realName info (ending .link)
  | statfs => shellStatfs m.preserveOwn cred info (ending .numbers)

/-- What it does once its line is sent. -/
def await (line : Bytes) (info : Info) : Ask → Talk Fault (Outcome × Info)
  | command _ => commandReply line info (ending .code)
  | ls _ _ more fuel =>
    lsReply (entry more) fuel [] info listingEnd
  | read _ _ count ino => readReply count.toNat ino info (ending .data)
  | write _ _ data _ _ =>
    writeReply (UInt32.ofNat data.length).toNat data info (ending .code)
  | readlink _ _ => readlinkReply info (ending .link)
  | statfs => statfsReply info (ending .numbers)

/-- An error that stops it before. -/
def failed (e : Errno) : Ask → Outcome
  | command _ | write .. => .code (.error e)
  | ls .. => .listing (.error e) []
  | read .. => .data (.error e)
  | readlink .. => .link (.error e)
  | statfs => .numbers (.error e)

/-- The line it sends. `shell_readlink` passes both its buffers to `check_path`. -/
def line (m : Mount) (cred : Cred) (a : Ask) : Option Bytes :=
  let built := ((a.request m).built m.preserveOwn cred).line
  match a with
  | readlink _ realName => (checkPath realName).bind fun _ => built
  | _ => built

/-- Send this line, or none, and await the reply. -/
def exchange (l : Option Bytes) (info : Info) (a : Ask) : Talk Fault (Outcome × Info) :=
  sendLine l info (fun e info => .ret (a.failed e, info)) fun l info => a.await l info

/-- That is what a call does. -/
theorem call_eq (m : Mount) (cred : Cred) (info : Info) (a : Ask) :
    a.call m cred info = a.exchange (a.line m cred) info := by
  cases a with
  | command c =>
    have hline : (c.cmd.bind fun c => (doCommandLine m.preserveOwn cred c.cmd c.args).line) =
        line m cred (command c) := by
      change _ = (Request.built _ _ (.command c)).line
      rw [Request.built]
      cases c.cmd <;> rfl
    exact congrArg (exchange · info (command c)) hline
  | ls stat file more fuel =>
    exact congrArg (exchange · info (ls stat file more fuel)) (Request.onQuoted_line file _).symm
  | read file offset count ino =>
    exact congrArg (exchange · info (read file offset count ino))
      (Request.onQuoted_line file _).symm
  | write file offset data hdata ino =>
    exact congrArg (exchange · info (write file offset data hdata ino))
      (Request.onQuoted_line file _).symm
  | readlink name realName =>
    have hline : ((checkPath name.text).bind fun name => (checkPath realName).bind fun _ =>
        (shellReadlinkLine m.preserveOwn cred name).line) =
          line m cred (readlink name realName) := by
      change _ = (checkPath realName).bind fun _ => (Request.built _ _ (.readlink name)).line
      rw [Request.built, Request.onQuoted_line]
      rcases checkPath name.text with _ | n <;> rcases checkPath realName with _ | r <;> rfl
    exact congrArg (exchange · info (readlink name realName)) hline
  | statfs => rfl

/-- A line that is sent is the one of the request. -/
theorem line_sent {m : Mount} {cred : Cred} {a : Ask} {l : Bytes} (h : a.line m cred = some l) :
    ((a.request m).built m.preserveOwn cred).line = some l := by
  cases a with
  | readlink name realName =>
    obtain ⟨r, -, h⟩ := Option.bind_eq_some_iff.mp h
    exact h
  | _ => exact h

end Ask

/-! ## The system calls -/

section OnServer

variable {σ : Type}

/-- A system call that is done or fails. -/
def verdict (e : Errno) (r : Bool × σ) : Except Errno ℕ × σ :=
    (if r.1 then .ok 0 else .error e, r.2)

/-- The calls of `do_command`. 1 is the answer for a file of size 0 that is not empty. -/
def Call.onServer (os : OS σ) (s : Perl σ) : Call → Except Errno ℕ × σ
  | .open file mode =>
    let file := s.path file.text
    (if os.open' s.ids s.fs mode file then
      .ok (if ¬ os.nonEmpty s.ids s.fs file ∧ os.firstByte s.ids s.fs mode file then 1 else 0)
    else .error (if os.exists' s.ids s.fs file then .eperm else .enoent), s.fs)
  | mkdir dir => verdict .eperm (os.mkdir s.ids s.fs (s.path dir.text))
  | rmdir dir =>
    if os.isDir s.ids s.fs (s.path dir.text) then
      verdict .eperm (os.rmdir s.ids s.fs (s.path dir.text))
    else (.error .enoent, s.fs)
  | rename old new =>
    let r := os.rename s.ids s.fs (s.path old.text) (s.path new.text)
    verdict (if os.exists' s.ids r.2 (s.path old.text) then .eperm else .enoent) r
  | unlink file =>
    let r := os.unlink s.ids s.fs (s.path file.text)
    verdict (if os.exists' s.ids r.2 (s.path file.text) then .eperm else .enoent) r
  | create file mode =>
    verdict .eperm (os.creat s.ids s.fs (s.path file.text) (oct (mode &&& S_IALLUGO).toNat))
  | link old new => verdict .eperm (os.link s.ids s.fs old.text (s.path new.text))
  | symlink old new => verdict .eperm (os.symlink s.ids s.fs old.text (s.path new.text))
  | chmod file mode => verdict .eperm (os.chmod s.ids s.fs (s.path file.text) (oct mode.toNat))
  | chown file user => verdict .eperm (os.chown s.ids s.fs (s.path file.text) (dec user.toNat))
  | chgrp file group => verdict .eperm (os.chgrp s.ids s.fs (s.path file.text) (dec group.toNat))
  | trunc file size =>
    verdict .eperm (os.truncate s.ids s.fs (s.path file.text)
      (dec (if size = 0 then 1 else size.toUInt32.toNat)))
  | settime file which tvSec =>
    verdict .eperm (os.utime s.ids s.fs (s.path file.text) which.text (strctime tvSec))
  | finish => (.ok 0, s.fs)

/-- The call on the system of the server. -/
def Ask.onServer (os : OS σ) (s : Perl σ) : Ask → Outcome × σ
  | command c => (.code (c.onServer os s).1, (c.onServer os s).2)
  | ls stat file _ _ =>
    let file := s.path file.text
    (if (if stat then os.exists' s.ids s.fs file else os.isDir s.ids s.fs file) then
      let r := os.ls s.ids s.fs stat s.stable file
      .listing (if r.2 then .ok () else .error .eperm) r.1
    else .listing (.error .enoent) [], s.fs)
  | read file offset count _ =>
    let file := s.path file.text
    (.data
      (if os.open' s.ids s.fs .rdonly file then
        match os.readFile s.ids s.fs file offset.toNat count.toNat with
        | some data => .ok (count.toNat, data ++ List.replicate (count.toNat - data.length) 0)
        | none => .error .eio
      else .error (if os.exists' s.ids s.fs file then .eperm else .eio)), s.fs)
  | write file offset data _ _ =>
    let file := s.path file.text
    if os.open' s.ids s.fs .wronly file then
      let r := os.writeFile s.ids s.fs file offset.toNat data
      (Outcome.code (if r.1 then .ok data.length else .error .eio), r.2)
    else (.code (.error (if os.exists' s.ids s.fs file then .eperm else .eio)), s.fs)
  | readlink name _ =>
    (.link
      (match os.readlink s.ids s.fs (s.path name.text) with
      | some target => if target = [] ∨ target = ascii "0" then .error .eperm else .ok target
      | none => .error .eperm), s.fs)
  | statfs => (.numbers (.ok (parseStatfs (Perl.statfsLine (os.df s.ids s.fs s.root)))), s.fs)

/-- The result of the call, and the server behind it: what the system call does, with the ids of the
caller, or the refusal of a path that is too long, which changes nothing. There is no connection in
it. -/
def Ask.effect (os : OS σ) (m : Mount) (cred : Cred) (s : Perl σ) (a : Ask) : Outcome × Perl σ :=
  if a.line m cred = none then (a.failed .enametoolong, s)
  else
    let s := a.switched m cred s
    ((a.onServer os s).1, { s with fs := (a.onServer os s).2 })

/-- A line that its builder compares with the buffer, or that fits, is not cut. -/
theorem Request.line_eq_fullLine {preserveOwn : Bool} {cred : Cred} (r : Request)
    (hfits : r.measured = true ∨ r.room preserveOwn cred ≤ SOCKBUF_SIZE) {l : Bytes}
    (h : (r.built preserveOwn cred).line = some l) : l = r.fullLine preserveOwn cred := by
  have hprint : ∀ r : Request, r.room preserveOwn cred ≤ SOCKBUF_SIZE →
      (printLine preserveOwn cred r.name (r.argText ++ [nl])).line = some l →
        l = r.fullLine preserveOwn cred := by
    intro r hroom h
    rcases r.printLine_cases preserveOwn cred with ⟨-, t, ht, -⟩ | ⟨-, heq⟩ | ⟨-, hlong, -⟩
    · simp [ht] at h
    · rw [heq] at h
      exact (Option.some.inj h).symm
    · omega
  by_cases hpaths : ∃ p ∈ r.paths, ¬ p.Fits
  · simp [built_refused hpaths] at h
  simp only [not_exists, not_and, not_not] at hpaths
  by_cases hm : r.measured = true
  · obtain ⟨hfit, hlong⟩ := built_measured preserveOwn cred hm hpaths
    by_cases hroom : r.room preserveOwn cred ≤ SOCKBUF_SIZE
    · rw [hfit hroom] at h
      exact (Option.some.inj h).symm
    · obtain ⟨t, ht, -⟩ := hlong (by omega)
      simp [ht] at h
  have hroom := hfits.resolve_left hm
  cases r with
  | read file offset count ino =>
    rw [built_read (hpaths file (List.mem_singleton_self file))] at h
    exact hprint _ hroom h
  | write fcacheSize file offset count ino =>
    rw [built_write _ (hpaths file (List.mem_singleton_self file))] at h
    exact hprint _ hroom h
  | statfs =>
    have hfull : headText preserveOwn cred (ascii "s_statfs") ++ [nl] =
        statfs.fullLine preserveOwn cred := by simp [fullLine, argText, args, name]
    have hlen := statfs.length_fullLine preserveOwn cred
    rw [← hfull, List.length_append, List.length_singleton] at hlen
    change (shellStatfsLine preserveOwn cred).line = some l at h
    rw [shellStatfsLine_fit (by omega), hfull] at h
    exact (Option.some.inj h).symm
  | command c => exact absurd rfl hm
  | ls stat file => exact absurd rfl hm
  | readlink file => exact absurd rfl hm

theorem length_joinWith_le {k : ℕ} {ws : List Bytes} (h : ∀ w ∈ ws, w.length ≤ k) :
    (joinWith sp ws).length ≤ ws.length * (k + 1) := by
  induction ws with
  | nil => simp
  | cons w ws ih =>
    have hw := h w (List.mem_cons_self ..)
    have hrest := ih fun v hv => h v (List.mem_cons_of_mem _ hv)
    rw [List.length_cons, Nat.add_mul]
    cases ws with
    | nil =>
      simp only [joinWith_singleton]
      omega
    | cons v ws =>
      rw [joinWith_cons_cons, List.length_append, List.length_cons]
      omega

/-- With the credentials of its caller in a fifth of the buffer, a line whose paths fit is never
cut. -/
theorem Request.room_le {preserveOwn : Bool} {cred : Cred} (hwidth : cred.width preserveOwn ≤ 1024)
    (r : Request) (h : ∀ p ∈ r.paths, p.Fits) (hm : r.measured = false) :
    r.room preserveOwn cred ≤ SOCKBUF_SIZE := by
  have hname := r.name_ok.2
  have hS := SOCKBUF_SIZE_eq
  have hmax : SHFS_PATH_MAX = 512 := rfl
  have hpath : ∀ p ∈ r.paths, (Word.quoted p.text).text.length ≤ 514 := by
    intro p hp
    have : (quoteText p.text).length + 1 ≤ SHFS_PATH_MAX := h p hp
    simp only [Word.text, List.length_append, List.length_cons, List.length_nil]
    omega
  have hdec : ∀ x : UInt32, (Word.bare (dec x.toNat)).text.length ≤ 514 := fun x =>
    (length_dec_le (k := 20) (by decide) (by have := x.toNat_lt; omega)).trans (by decide)
  have hino : ∀ x : UInt64, (Word.bare (dec x.toNat)).text.length ≤ 514 := fun x =>
    (length_dec_le (k := 20) (by decide) (by have := x.toNat_lt; omega)).trans (by decide)
  have hwords : (∀ w ∈ r.args.map Word.text, w.length ≤ 514) ∧
      (r.args.map Word.text).length ≤ 7 := by
    cases r with
    | read file offset count ino =>
      have hfile := hpath file (List.mem_singleton_self file)
      by_cases hz : ino = 0 <;> simp [args, hz, hfile, hdec, hino]
    | write fcacheSize file offset count ino =>
      have hfile := hpath file (List.mem_singleton_self file)
      simp [args, hfile, hdec, hino]
    | statfs => simp [args]
    | _ => cases hm
  have htext := length_joinWith_le hwords.1
  have hcount := Nat.mul_le_mul_right (514 + 1) hwords.2
  unfold room argText
  omega

/-! ## Calls that come back with it -/

/-- A line of a listing, for `do_ls`. -/
structure ListLine (l : Bytes) : Prop where
  nl : nl ∉ l
  nul : (0 : Byte) ∉ l
  ne_nil : l ≠ []
  fits : l.length < READLNBUF_SIZE
  plain : lsResult (reply l) = none

/-- A target of a link, for `shell_readlink`. -/
structure LinkTarget (t : Bytes) : Prop where
  nl : nl ∉ t
  nul : (0 : Byte) ∉ t
  room : t.length + 1 ≤ SHFS_PATH_MAX
  complete : reply t ≠ REP_COMPLETE
  eperm : reply t ≠ REP_EPERM

/-- The reply to the call can be told apart from the status lines around it, and a reader takes all
of it: no line of a listing and no target reads as a status line, and the caller wants all lines. A
read is a plain one, of a file that is there and can be read, or may not be opened. -/
def Ask.Orderly (os : OS σ) (s : Perl σ) : Ask → Prop
  | command _ | write .. => True
  | ls stat file more fuel =>
    let entries := (os.ls s.ids s.fs stat s.stable (s.path file.text)).1
    (∀ l ∈ entries, ListLine l) ∧ (∀ shown, shown <+: entries → shown ≠ [] → more shown = true) ∧
      entries.length < fuel
  | read file offset count ino =>
    ino = 0 ∧
      if os.open' s.ids s.fs .rdonly (s.path file.text) then
        os.readFile s.ids s.fs (s.path file.text) offset.toNat count.toNat ≠ none
      else os.exists' s.ids s.fs (s.path file.text) = true
  | readlink name _ =>
    ∀ target, os.readlink s.ids s.fs (s.path name.text) = some target → LinkTarget target
  | statfs =>
    (Perl.statfsLine (os.df s.ids s.fs s.root)).length < READLNBUF_SIZE ∧
      (0 : Byte) ∉ Perl.statfsLine (os.df s.ids s.fs s.root)

/-- The line of the call is sent as it is meant. On a mount that preserves ownership its caller is
in a group, since an empty list of groups is never read to its end; and the line fits in its buffer,
or its builder compares the two and refuses one that does not. -/
def Ask.Fits (m : Mount) (cred : Cred) (a : Ask) : Prop :=
  (m.preserveOwn = true → cred.groups ≠ []) ∧
    ((a.request m).measured = true ∨ (a.request m).room m.preserveOwn cred ≤ SOCKBUF_SIZE)

/-- Credentials that are always sent as they are: on a mount that preserves ownership, those of a
caller with some groups, but not too many of them. -/
structure Mount.Sends (m : Mount) (cred : Cred) : Prop where
  groups : m.preserveOwn = true → cred.groups ≠ []
  width : cred.width m.preserveOwn ≤ 1024

/-- A mount that does not preserve ownership sends none. -/
theorem Mount.sends_plain {m : Mount} (hp : m.preserveOwn = false) (cred : Cred) :
    m.Sends cred where
  groups hon := absurd (hp.symm.trans hon) Bool.false_ne_true
  width := by rw [hp]; exact Nat.one_le_two_pow (n := 10)

/-- A call that sends a line fits. -/
theorem Ask.fits_of_line {m : Mount} {cred : Cred} {a : Ask} (hcred : m.Sends cred)
    (h : a.line m cred ≠ none) : a.Fits m cred := by
  obtain ⟨l, hl⟩ := Option.ne_none_iff_exists'.mp h
  have hbuilt := line_sent hl
  refine ⟨hcred.groups, ?_⟩
  rcases hm : (a.request m).measured with _ | _
  · refine Or.inr ((a.request m).room_le hcred.width ?_ hm)
    by_contra hpaths
    simp only [not_forall] at hpaths
    obtain ⟨p, hmem, hfits⟩ := hpaths
    rw [Request.built_refused ⟨p, hmem, hfits⟩] at hbuilt
    cases hbuilt
  · exact Or.inl rfl

/-- Nothing is on its way, and the server waits for a line, with its automaton in the state `g`. -/
structure Idle {G S : Type} (g : G) (s : S) (w : Wire G S) : Prop where
  mode : w.mode = .line s g
  inbox : w.inbox = []
  answered : w.answered = true

end OnServer

/-! ## Reading the replies -/

/-- The program comes back with `a`, and leaves the server in this mode and nothing to read. -/
def Gives {G S α : Type} (srv : Server G S) (t : Talk Fault α) (w : Wire G S) (a : α)
    (mode : Lib.Mode G S) : Prop :=
  ∃ w', t.run srv READLNBUF_SIZE w = .inl (a, w') ∧ w'.mode = mode ∧ w'.inbox = [] ∧
    w'.answered = true

section Replies

variable {G S α : Type} {srv : Server G S} {w : Wire G S} {info : Info} {a : α}
  {mode : Lib.Mode G S}

theorem answered_print {p : Proc S} (h : (p.wire srv).answered = true) (payload : Bool)
    (bs : Bytes) :
    ((Proc.print payload bs p).wire srv).answered = true := by
  rw [Proc.wire_answered, Bool.not_eq_true', List.isEmpty_eq_false_iff] at h ⊢
  rw [Proc.wire_print_inbox]
  exact List.append_ne_nil_of_right_ne_nil _ h

theorem gives_ret (hmode : w.mode = mode) (hw : w.bytes = []) (ha : w.answered = true) :
    Gives srv (.ret a) w a mode :=
  ⟨w, rfl, hmode, Wire.inbox_eq_nil hw, ha⟩

/-- `sock_readln` on a line -/
theorem gives_line (hc : info.Clean) {k : Cont Bytes α} {line rest : Bytes} (hnl : nl ∉ line)
    (h0 : (0 : Byte) ∉ line) (hfit : line.length < READLNBUF_SIZE)
    (hw : w.bytes = line ++ nl :: rest)
    (h : ∀ n, (w.drop n).bytes = rest → Gives srv (k (.ok line) info) (w.drop n) a mode) :
    Gives srv (sockReadln SOCKBUF_SIZE info k) w a mode := by
  unfold Gives
  rw [run_sockReadln_line hc hnl h0 hfit hw]
  refine h _ ?_
  rw [Wire.drop_bytes, hw, ← List.singleton_append, ← List.append_assoc]
  exact List.drop_left' (by simp)

/-- `sock_readln` on a status line -/
theorem gives_status (hc : info.Clean) {k : Cont Bytes α} {code : ℕ} (hcode : code < 1000)
    {rest : Bytes} (hw : w.bytes = status code ++ rest)
    (h : ∀ n, (w.drop n).bytes = rest →
      Gives srv (k (.ok (statusText code)) info) (w.drop n) a mode) :
    Gives srv (sockReadln SOCKBUF_SIZE info k) w a mode := by
  unfold Gives
  rw [run_sockReadln_status hc hcode hw]
  exact h _ (pastStatus_bytes hw)

/-- `sock_readln` on the last status line -/
theorem gives_last (hc : info.Clean) {k : Cont Bytes α} {code : ℕ} (hcode : code < 1000)
    (hw : w.bytes = status code) (hmode : w.mode = mode) (ha : w.answered = true)
    (hk : k (.ok (statusText code)) info = .ret a) :
    Gives srv (sockReadln SOCKBUF_SIZE info k) w a mode := by
  refine gives_status hc hcode (hw.trans (List.append_nil _).symm) fun n hn => ?_
  rw [hk]
  exact gives_ret hmode hn ha

/-- `sock_read` on the octets it asks for -/
theorem gives_read (hc : info.Clean) {k : Cont Bytes α} {d rest : Bytes} (hw : w.bytes = d ++ rest)
    (h : ∀ n, (w.drop n).bytes = rest → Gives srv (k (.ok d) info) (w.drop n) a mode) :
    Gives srv (sockRead d.length info k) w a mode := by
  have hlen : d.length ≤ w.inbox.length := by
    rw [← Wire.length_bytes, hw, List.length_append]
    exact Nat.le_add_right _ _
  have htake : w.bytes.take d.length = d := by rw [hw, List.take_left]
  unfold Gives
  rw [sockRead_clean hc, recv, Talk.run, if_pos hlen]
  simp only [htake]
  refine h _ ?_
  rw [Wire.drop_bytes, hw, List.drop_left]

/-- `sock_write` -/
theorem gives_write (hc : info.Clean) {k : Cont Unit α} {bs : Bytes}
    (h : Gives srv (k (.ok ()) info) (w.feed srv bs) a mode) :
    Gives srv (sockWrite bs info k) w a mode := by
  unfold Gives
  rw [sockWrite_clean hc, send, Talk.run]
  exact h

/-- **An exchange**: when the server reads in the line of a call the words it dispatches, and the
call gets its result from the reply, the call comes back with it. -/
theorem Ask.exchange_run (srv : Server G S) (hf : Fresh info) {m : Mount} {cred : Cred} {a : Ask}
    {l : Bytes} (hl : a.line m cred = some l) {words : List Bytes}
    (hscan : scan srv.step srv.init l = .inr (words, [])) {s s' : S} {r : Outcome} {w : Wire G S}
    (hw : Idle srv.init s w)
    (hgives : Gives srv (a.await l info) ((srv.dispatch s words).wire srv) (r, info)
      (.line s' srv.init)) :
    ∃ w', (a.call m cred info).run srv READLNBUF_SIZE w = .inl ((r, info), w') ∧
      Idle srv.init s' w' := by
  obtain ⟨mode, inbox, answered⟩ := w
  obtain ⟨rfl, rfl, -⟩ := hw
  have hserved : (⟨.line s srv.init, [], answered⟩ : Wire G S).feed srv l =
      (srv.dispatch s words).wire srv := by
    rw [Wire.feed_line_inr hscan]
    rfl
  obtain ⟨w', hrun, hmode, hinbox, hanswered⟩ := hgives
  refine ⟨w', ?_, hmode, hinbox, hanswered⟩
  rw [call_eq, exchange, hl, sendLine, sockWrite_clean hf.clean, send, Talk.run, hserved]
  exact hrun

variable (ha : w.answered = true)
include ha

/-- `do_command` -/
theorem gives_commandReply (hc : info.Clean) {code : ℕ} (hcode : code < 1000)
    (hw : w.bytes = status code) (hmode : w.mode = mode) (line : Bytes) :
    Gives srv (commandReply line info (ending .code)) w
      (Outcome.code (commandResult code), info) mode := by
  refine gives_last hc hcode hw hmode ha ?_
  simp only [reply_statusText (show code < 2 ^ 32 by omega)]

/-- The loop of `do_ls`, over the lines of a listing. -/
theorem gives_lsReply (hc : info.Clean) {code : ℕ} (hcode : code < 1000)
    {result : Except Errno Unit} (hresult : lsResult code = some result) {more : List Bytes → Bool}
    {entries : List Bytes} (hlines : ∀ l ∈ entries, ListLine l) {acc : List Bytes}
    (hmore : ∀ shown, shown <+: entries → shown ≠ [] → more (acc ++ shown) = true) {fuel : ℕ}
    (hfuel : entries.length < fuel)
    (hw : w.bytes = (entries.flatMap fun e => e ++ [nl]) ++ status code) (hmode : w.mode = mode) :
    Gives srv (lsReply (Ask.entry more) fuel acc info listingEnd) w
      (Outcome.listing result (acc ++ entries), info) mode := by
  induction entries generalizing acc fuel w with
  | nil =>
    obtain ⟨fuel, rfl⟩ := Nat.exists_eq_succ_of_ne_zero (Nat.ne_of_gt hfuel)
    rw [lsReply]
    refine gives_last hc hcode (by simpa using hw) hmode ha ?_
    have htext : statusText code ≠ [] := by simp [statusText, ascii]
    simp only [if_neg htext, reply_statusText (show code < 2 ^ 32 by omega), hresult,
      List.append_nil]
  | cons l entries ih =>
    obtain ⟨fuel, rfl⟩ := Nat.exists_eq_succ_of_ne_zero (Nat.ne_zero_of_lt hfuel)
    have hl := hlines l (List.mem_cons_self ..)
    rw [lsReply]
    refine gives_line hc hl.nl hl.nul hl.fits (by simpa using hw) fun n hn => ?_
    have hfirst : more (acc ++ [l]) = true := hmore [l] ⟨entries, rfl⟩ (List.cons_ne_nil _ _)
    simp only [if_neg hl.ne_nil, hl.plain, Ask.entry, hfirst, if_true]
    have hanswered : (w.drop n).answered = true := ha
    have hshown : ∀ shown, shown <+: entries → shown ≠ [] → more (acc ++ [l] ++ shown) = true := by
      intro shown hpre _
      rw [List.append_assoc]
      exact hmore (l :: shown) (List.cons_prefix_cons.mpr ⟨rfl, hpre⟩) (List.cons_ne_nil _ _)
    have hrest := ih hanswered (fun x hx => hlines x (List.mem_cons_of_mem _ hx)) hshown
      (Nat.lt_of_succ_lt_succ hfuel) hn hmode
    rwa [List.append_assoc, List.singleton_append] at hrest

/-- `shell_read`, when there are no data. -/
theorem gives_readReply_code (hc : info.Clean) {code : ℕ} (hcode : code = REP_EPERM)
    (hw : w.bytes = status code) (hmode : w.mode = mode) (count : ℕ) (ino : UInt64) :
    Gives srv (readReply count ino info (ending .data)) w
      (Outcome.data (.error .eperm), info) mode := by
  subst hcode
  exact gives_last hc (by decide) hw hmode ha rfl

/-- `shell_read` of a page. -/
theorem gives_readReply (hc : info.Clean) {d : Bytes}
    (hw : w.bytes = status 100 ++ (d ++ status 200)) (hmode : w.mode = mode) :
    Gives srv (readReply d.length 0 info (ending .data)) w
      (Outcome.data (.ok (d.length, d)), info) mode := by
  refine gives_status hc (by decide) hw fun n hn => ?_
  simp only [reply_statusText (show 100 < 2 ^ 32 by decide), if_true, ne_eq, not_true, if_false]
  refine gives_read hc hn fun n' hn' => ?_
  exact gives_last hc (by decide) hn' hmode ha rfl

/-- `shell_write`, when the data are not wanted. -/
theorem gives_writeReply_code (hc : info.Clean) {code : ℕ} (hcode : code < 1000)
    (hne : code ≠ REP_PRELIM ∧ code ≠ REP_ENOENT) (hw : w.bytes = status code)
    (hmode : w.mode = mode) (count : ℕ) (data : Bytes) :
    Gives srv (writeReply count data info (ending .code)) w
      (Outcome.code (.error (if code = REP_EPERM then .eperm else .eio)), info) mode := by
  refine gives_last hc hcode hw hmode ha ?_
  simp only [reply_statusText (show code < 2 ^ 32 by omega), if_neg hne.1, if_neg hne.2]
  split <;> rfl

/-- `shell_readlink`, when there is no target. -/
theorem gives_readlinkReply_code (hc : info.Clean) (hw : w.bytes = status 501)
    (hmode : w.mode = mode) :
    Gives srv (readlinkReply info (ending .link)) w
      (Outcome.link (.error .eperm), info) mode :=
  gives_last hc (by decide) hw hmode ha rfl

/-- `shell_readlink` -/
theorem gives_readlinkReply (hc : info.Clean) {target : Bytes} (ht : LinkTarget target)
    (hw : w.bytes = target ++ nl :: status 200) (hmode : w.mode = mode) :
    Gives srv (readlinkReply info (ending .link)) w
      (Outcome.link (.ok target), info) mode := by
  have hmax : SHFS_PATH_MAX < READLNBUF_SIZE := by decide
  have hroom := ht.room
  refine gives_line hc ht.nl ht.nul (by omega) hw fun n hn => ?_
  simp only [if_neg ht.complete, if_neg ht.eperm]
  rw [List.take_of_length_le (by omega)]
  exact gives_last hc (by decide) hn hmode ha rfl

/-- `shell_statfs` -/
theorem gives_statfsReply (hc : info.Clean) {line : Bytes} (hnl : nl ∉ line)
    (h0 : (0 : Byte) ∉ line) (hfit : line.length < READLNBUF_SIZE)
    (hw : w.bytes = line ++ nl :: status 200) (hmode : w.mode = mode) :
    Gives srv (statfsReply info (ending .numbers)) w
      (Outcome.numbers (.ok (parseStatfs line)), info) mode := by
  refine gives_line hc hnl h0 hfit hw fun n hn => ?_
  exact gives_last hc (by decide) hn hmode ha rfl

end Replies

/-! ## The subs -/

section Subs

variable {σ : Type} {os : OS σ} {home : Bytes} {s : Perl σ} {info : Info}

/-- The sub prints one status line, which stands for this result. -/
def Answers (s : Perl σ) (proc : Proc (Perl σ)) (r : Except Errno ℕ × σ) : Prop :=
  ∃ code, code < 1000 ∧ proc = ({ s with fs := r.2 } : Perl σ).answer code ∧
    commandResult code = r.1

theorem answers_answer {code : ℕ} (hcode : code < 1000) {r : Except Errno ℕ}
    (hr : commandResult code = r) : Answers s (s.answer code) (r, s.fs) :=
  ⟨code, hcode, rfl, hr⟩

theorem answers_change {code : ℕ} (hcode : code < 1000) {e : Errno}
    (he : commandResult code = .error e) (r : Bool × σ) :
    Answers s (s.change r code) (verdict e r) := by
  refine ⟨if r.1 then 200 else code, ?_, rfl, ?_⟩
  · split
    · decide
    · exact hcode
  · unfold verdict
    cases r.1
    · exact he
    · rfl

theorem answers_ite {c : Prop} [Decidable c] {p p' : Proc (Perl σ)} {r r' : Except Errno ℕ × σ}
    (h : Answers s p r) (h' : Answers s p' r') :
    Answers s (if c then p else p') (if c then r else r') := by
  split
  · exact h
  · exact h'

/-- **A command** is answered with what the system call says, by one status line, and leaves the
server where the system call does. -/
theorem Call.answers (os : OS σ) (home : Bytes) (s : Perl σ) (c : Call) :
    Answers s (s.runCommand os home c.name (c.args.map Word.value)) (c.onServer os s) := by
  have hperm : ∀ r : Bool × σ, Answers s (s.change r 501) (verdict .eperm r) :=
    answers_change (by decide) rfl
  have hgone : ∀ (there : Bool) (r : Bool × σ), Answers s (s.change r (if there then 501 else 503))
      (verdict (if there then .eperm else .enoent) r) := by
    intro there r
    cases there
    · exact answers_change (by decide) rfl r
    · exact hperm r
  -- most commands are one system call, with EPERM or ENOENT if it fails
  cases c with
  -- the mode comes as a word
  | «open» file mode =>
    obtain ⟨w, hw⟩ : ∃ w, (Call.open file mode).args.map Word.value = [file.text, w] ∧
        (if w = ascii "W" then AccMode.wronly else if w = ascii "RW" then .rdwr else .rdonly) =
          mode := by
      cases mode with
      | rdonly => exact ⟨_, rfl, by decide⟩
      | wronly => exact ⟨_, rfl, by decide⟩
      | rdwr => exact ⟨_, rfl, by decide⟩
    rw [hw.1]
    change Answers s (s.sOpen os [file.text, w]) _
    unfold Perl.sOpen onServer
    simp only [Perl.arg, List.getD_cons_zero, List.getD_cons_succ, hw.2]
    cases os.open' s.ids s.fs mode (s.path file.text) with
    | false =>
      cases os.exists' s.ids s.fs (s.path file.text)
      · exact answers_answer (by decide) rfl
      · exact answers_answer (by decide) rfl
    | true =>
      cases os.nonEmpty s.ids s.fs (s.path file.text) <;>
        cases os.firstByte s.ids s.fs mode (s.path file.text) <;>
        exact answers_answer (by decide) rfl
  | mkdir dir => exact hperm _
  | rmdir dir =>
    change Answers s (s.sRmdir os [dir.text]) _
    unfold Perl.sRmdir onServer
    change Answers s (if ¬ os.isDir s.ids s.fs (s.path dir.text) then _ else _) _
    rw [ite_not]
    exact answers_ite (hperm _) (answers_answer (by decide) rfl)
  | rename old new => exact hgone _ _
  | unlink file => exact hgone _ _
  | create file mode => exact hperm _
  | link old new => exact hperm _
  | symlink old new => exact hperm _
  | chmod file mode => exact hperm _
  | chown file user => exact hperm _
  | chgrp file group => exact hperm _
  -- one block of the size, or none of size 1
  | trunc file size =>
    have hargs : (Call.trunc file size).args.map Word.value =
        [file.text, dec (if size = 0 then 1 else size.toUInt32.toNat),
          dec (if size = 0 then 0 else 1)] := by
      by_cases h : size = 0 <;> simp [args, Word.value, h]
    rw [hargs]
    exact hperm _
  | settime file which tvSec => exact hperm _
  | finish => exact answers_answer (by decide) rfl

/-- A status line printed last leaves nothing unanswered. -/
theorem answered_answer (s : Perl σ) (code : ℕ) :
    ((s.answer code).wire (perlServer os home)).answered = true := rfl

namespace Ask

/-- `do_ls` -/
theorem await_ls (hc : info.Clean) (m : Mount) {stat : Bool} {file : Path}
    {more : List Bytes → Bool} {fuel : ℕ} (ho : (ls stat file more fuel).Orderly os s)
    (line : Bytes) :
    Gives (perlServer os home) ((ls stat file more fuel).await line info)
      ((ls stat file more fuel).served os home m s)
      (((ls stat file more fuel).onServer os s).1, info) (.line s .init) := by
  obtain ⟨hlines, hmore, hfuel⟩ := ho
  have hlist : Gives (perlServer os home) ((ls stat file more fuel).await line info)
      ((s.listing os stat file.text).wire (perlServer os home))
      (.listing (if (os.ls s.ids s.fs stat s.stable (s.path file.text)).2 then .ok ()
        else .error .eperm) (os.ls s.ids s.fs stat s.stable (s.path file.text)).1, info)
      (.line s .init) := by
    have hbytes : ((s.listing os stat file.text).wire (perlServer os home)).bytes =
        ((os.ls s.ids s.fs stat s.stable (s.path file.text)).1.flatMap fun e => e ++ [nl]) ++
          status (if (os.ls s.ids s.fs stat s.stable (s.path file.text)).2 then 200 else 501) := by
      rw [← s.answer_bytes (perlServer os home)]
      exact Proc.wire_print_bytes
    have hans : ((s.listing os stat file.text).wire (perlServer os home)).answered = true :=
      answered_print (answered_answer s _) false _
    refine gives_lsReply hans hc ?_ ?_ hlines hmore hfuel hbytes rfl
    · split <;> decide
    · split <;> rfl
  have hnone : Gives (perlServer os home) ((ls stat file more fuel).await line info)
      ((s.answer 503).wire (perlServer os home)) (.listing (.error .enoent) ([] ++ []), info)
      (.line s .init) := by
    refine gives_lsReply (answered_answer s 503) hc (by decide) rfl ?_ ?_
      (Nat.zero_lt_of_lt hfuel) (s.answer_bytes _ 503) rfl
    · simp
    · intro shown hshown hne
      exact absurd (List.prefix_nil.mp hshown) hne
  cases stat with
  | true =>
    change Gives _ _ ((s.sStat os [file.text]).wire _) _ _
    unfold Perl.sStat onServer
    simp only [Perl.arg, List.getD_cons_zero, if_true, ite_not]
    split
    · exact hlist
    · exact hnone
  | false =>
    change Gives _ _ ((s.sLsdir os [file.text]).wire _) _ _
    unfold Perl.sLsdir onServer
    simp only [Perl.arg, List.getD_cons_zero, Bool.false_eq_true, if_false, ite_not]
    split
    · exact hlist
    · exact hnone

/-- `shell_read` -/
theorem await_read (hc : info.Clean) (m : Mount) {file : Path} {offset count : UInt32}
    {ino : UInt64} (ho : (read file offset count ino).Orderly os s) (line : Bytes) :
    Gives (perlServer os home) ((read file offset count ino).await line info)
      ((read file offset count ino).served os home m s)
      (((read file offset count ino).onServer os s).1, info) (.line s .init) := by
  obtain ⟨rfl, ho⟩ := ho
  obtain ⟨rest, hrest⟩ := read_values m file offset count 0
  rw [served, hrest]
  change Gives _ (readReply count.toNat 0 info (ending .data)) ((s.sRead os _).wire _) _ _
  unfold Perl.sRead onServer Perl.notOpen
  simp only [Perl.arg, List.getD_cons_zero, List.getD_cons_succ, decVal_dec_self, ite_not]
  split
  · next hopen =>
    rw [if_pos hopen] at ho
    obtain ⟨d, hd⟩ := Option.ne_none_iff_exists'.mp ho
    have hle := os.readFile_le _ _ _ _ _ _ hd
    simp only [hd]
    set padded := d ++ List.replicate (count.toNat - d.length) 0 with hpadded
    have hlen : padded.length = count.toNat := by
      rw [hpadded, List.length_append, List.length_replicate]
      omega
    rw [← hlen]
    refine gives_readReply (answered_print (answered_print (answered_answer s 200) _ _) _ _) hc ?_
      rfl
    rw [Proc.wire_print_bytes, Proc.wire_print_bytes, Perl.answer_bytes]
  · next hopen =>
    rw [if_neg hopen] at ho
    simp only [ho, if_true]
    exact gives_readReply_code (answered_answer s 501) hc rfl (s.answer_bytes _ 501) rfl _ _

/-- `shell_write` -/
theorem await_write (hc : info.Clean) (m : Mount) (file : Path) (offset : UInt32) (data : Bytes)
    (hdata : data.length < 2 ^ 32) (ino : UInt64) (line : Bytes) :
    Gives (perlServer os home) ((write file offset data hdata ino).await line info)
      ((write file offset data hdata ino).served os home m s)
      (((write file offset data hdata ino).onServer os s).1, info)
      (.line { s with fs := ((write file offset data hdata ino).onServer os s).2 } .init) := by
  obtain ⟨rest, hrest⟩ := write_values m file offset data hdata ino
  rw [served, hrest]
  have hcount : (UInt32.ofNat data.length).toNat = data.length := by
    rw [UInt32.toNat_ofNat']
    exact Nat.mod_eq_of_lt hdata
  change Gives _ (writeReply (UInt32.ofNat data.length).toNat data info (ending .code))
    ((s.sWrite os _).wire _) _ _
  rw [hcount]
  unfold Perl.sWrite onServer Perl.notOpen
  simp only [Perl.arg, List.getD_cons_zero, List.getD_cons_succ, decVal_dec_self, ite_not]
  split
  · set r := os.writeFile s.ids s.fs (s.path file.text) offset.toNat data
    refine gives_status hc (show 100 < 1000 by decide) Proc.wire_print_bytes fun n hn => ?_
    simp only [reply_statusText (show 100 < 2 ^ 32 by decide), if_true]
    refine gives_write hc ?_
    obtain ⟨hmode, hbytes, hanswered⟩ := Wire.feed_congr (by rfl) hn (fun _ => rfl) data
    rw [Wire.feed_take] at hmode hbytes hanswered
    have hreply : ((s.change r 500).wire (perlServer os home)).bytes =
        status (if r.1 then 200 else 500) := Perl.answer_bytes _ _ _
    refine gives_last hc ?_ (hbytes.trans hreply) hmode (hanswered rfl) ?_
    · split <;> decide
    · cases r.1 <;> rfl
  · cases os.exists' s.ids s.fs (s.path file.text) with
    | true =>
      exact gives_writeReply_code (answered_answer s 501) hc (by decide) (by decide)
        (s.answer_bytes _ 501) rfl _ _
    | false =>
      exact gives_writeReply_code (answered_answer s 200) hc (by decide) (by decide)
        (s.answer_bytes _ 200) rfl _ _

/-- `shell_readlink` -/
theorem await_readlink (hc : info.Clean) (m : Mount) {name : Path} {realName : Bytes}
    (ho : (readlink name realName).Orderly os s) (line : Bytes) :
    Gives (perlServer os home) ((readlink name realName).await line info)
      ((readlink name realName).served os home m s)
      (((readlink name realName).onServer os s).1, info) (.line s .init) := by
  have hnone : Gives (perlServer os home) ((readlink name realName).await line info)
      ((s.answer 501).wire (perlServer os home)) (.link (.error .eperm), info) (.line s .init) :=
    gives_readlinkReply_code (answered_answer s 501) hc (s.answer_bytes _ 501) rfl
  change Gives _ _ ((s.sReadlink os [name.text]).wire _) _ _
  unfold Perl.sReadlink onServer
  simp only [Perl.arg, List.getD_cons_zero]
  split
  · next h =>
    simp only [h]
    exact hnone
  · next target h =>
    simp only [h]
    split
    · exact hnone
    · refine gives_readlinkReply (answered_print (answered_answer s 200) _ _) hc
        (ho target h) ?_ rfl
      rw [Proc.wire_print_bytes, Perl.answer_bytes, List.append_assoc, List.singleton_append]

/-- `shell_statfs` -/
theorem await_statfs (hc : info.Clean) (m : Mount) (ho : statfs.Orderly os s) (line : Bytes) :
    Gives (perlServer os home) (statfs.await line info) (statfs.served os home m s)
      ((statfs.onServer os s).1, info) (.line s .init) := by
  change Gives _ (statfsReply info (ending .numbers)) ((s.sStatfs os).wire _) _ _
  refine gives_statfsReply (answered_print (answered_answer s 200) _ _) hc
    (nl_notMem_statfsLine fun line h => os.df_line _ _ _ _ h) ho.2 ho.1 ?_ rfl
  refine Proc.wire_print_bytes.trans ?_
  rw [Perl.answer_bytes, List.append_assoc, List.singleton_append]

/-- **The reply**: what the server prints for an orderly call is read back as what the system call
said. -/
theorem await_gives (hc : info.Clean) (m : Mount) {a : Ask} (ho : a.Orderly os s) (line : Bytes) :
    Gives (perlServer os home) (a.await line info) (a.served os home m s)
      ((a.onServer os s).1, info) (.line { s with fs := (a.onServer os s).2 } .init) := by
  cases a with
  | command c =>
    obtain ⟨code, hcode, hproc, hres⟩ := c.answers os home s
    change Gives _ (commandReply line info (ending .code))
      ((s.runCommand os home c.name (c.args.map Word.value)).wire _) _ _
    rw [hproc, onServer, ← hres]
    exact gives_commandReply (answered_answer _ code) hc hcode (Perl.answer_bytes _ _ code) rfl line
  | ls stat file more fuel => exact await_ls hc m ho line
  | read file offset count ino => exact await_read hc m ho line
  | write file offset data hdata ino => exact await_write hc m file offset data hdata ino line
  | readlink name realName => exact await_readlink hc m ho line
  | statfs => exact await_statfs hc m ho line

/-! ## The call -/

/-- A line that fits is read as it was meant. -/
theorem scan_line {m : Mount} {cred : Cred} {a : Ask} (hfits : a.Fits m cred) {l : Bytes}
    (h : a.line m cred = some l) :
    scan getlineStep .init l = .inr ((a.request m).name :: sentCred m.preserveOwn cred ++
      (a.request m).args.map Word.value, []) := by
  rw [(a.request m).line_eq_fullLine hfits.2 (line_sent h)]
  exact (a.request m).scan_fullLine hfits.1

/-- A call over an idle connection has its effect. -/
theorem call_gives (hf : Fresh info) {m : Mount} {cred : Cred} {a : Ask}
    (hp : s.preserve = m.preserveOwn)
    (ho : a.line m cred ≠ none → a.Fits m cred ∧ a.Orderly os (a.switched m cred s))
    {w : Wire Getline (Perl σ)} (hw : Idle .init s w) :
    Gives (perlServer os home) (a.call m cred info) w ((a.effect os m cred s).1, info)
      (.line (a.effect os m cred s).2 .init) := by
  unfold effect
  rcases hl : a.line m cred with _ | l
  · rw [if_pos rfl, call_eq, exchange, hl]
    exact ⟨w, rfl, hw.mode, hw.inbox, hw.answered⟩
  · rw [if_neg (Option.some_ne_none l)]
    obtain ⟨hfits, horderly⟩ := ho (by rw [hl]; exact Option.some_ne_none l)
    have hgives : Gives (perlServer os home) (a.await l info)
        (a.served os home m (a.switched m cred s)) _ _ :=
      await_gives hf.clean m horderly l
    rw [served, ← a.mainLoop_sent m cred hp] at hgives
    have hscan := scan_line hfits hl
    obtain ⟨w', hrun, hidle⟩ := exchange_run (perlServer os home) hf hl hscan hw hgives
    exact ⟨w', hrun, hidle.mode, hidle.inbox, hidle.answered⟩

/-- **A call is a system call**: what it comes back with is what the system call says on the machine
of the server, or the refusal of a path that is too long, and nothing is left on the streams. -/
theorem call_run (hf : Fresh info) {m : Mount} {cred : Cred} {a : Ask}
    (hp : s.preserve = m.preserveOwn)
    (ho : a.line m cred ≠ none → a.Fits m cred ∧ a.Orderly os (a.switched m cred s))
    {w : Wire Getline (Perl σ)} (hw : Idle .init s w) :
    ∃ w', (a.call m cred info).run (perlServer os home) READLNBUF_SIZE w =
      .inl (((a.effect os m cred s).1, info), w') ∧ Idle .init (a.effect os m cred s).2 w' := by
  obtain ⟨w', hrun, hmode, hinbox, hanswered⟩ := call_gives hf hp ho hw
  exact ⟨w', hrun, hmode, hinbox, hanswered⟩

/-- The directory with a file `a` is listed. -/
theorem call_run_one_file : ∃ w',
    (lsRoot.call plainMount ⟨0, []⟩ (Conn.new rootPerl).info).run
      (perlServer (oneFile (ascii "a")) [])
        READLNBUF_SIZE (Conn.new rootPerl).wire =
      .inl (((lsRoot.effect (oneFile (ascii "a")) plainMount ⟨0, []⟩ rootPerl).1,
        (Conn.new rootPerl).info), w') ∧
      Idle .init (lsRoot.effect (oneFile (ascii "a")) plainMount ⟨0, []⟩ rootPerl).2 w' := by
  have horderly : lsRoot.Orderly (oneFile (ascii "a")) rootPerl := by
    refine ⟨fun l hl => ?_, fun _ _ _ => rfl, by decide⟩
    rcases List.mem_cons.mp hl with rfl | hl
    · exact ⟨by decide, by decide, by decide, by decide, by decide⟩
    · obtain rfl := List.mem_singleton.mp hl
      exact ⟨by decide, by decide, by decide, by decide, by decide⟩
  exact call_run
    ⟨⟨rfl, rfl⟩, rfl, rfl⟩ rfl (fun hl => ⟨fits_of_line (Mount.sends_plain rfl _) hl, horderly⟩)
    ⟨rfl, rfl, rfl⟩

end Ask

end Subs

end Shfs
