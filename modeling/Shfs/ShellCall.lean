import Shfs.ShellLine
import Shfs.ShellReplies

/-!
# A session with the shell server

Where there is no Perl, a call goes to the functions of shell-code.in, and what it comes back with
is what the tools of the remote system said. `Ask.onShell` is the call on these tools, without a
line, a reply or a status code: for `shell_read` the octets `dd` has copied, for `do_ls` the lines
`ls` has printed, and for an error which of the two `test -f` has found.

`Ask.Tidy` is what it needs. Some replies cannot be told apart from what is around them, `s_write`
says nothing at all about a file it may not write to, and a copy that fails leaves the client with
garbage on the streams. Of these, nothing is said. Everything else comes back right, and leaves the
connection as it was: `Ask.shell_session` is a whole session, call after call, the words read from
each line as a shell does.
-/

namespace Shfs

open Lib

variable {σ : Type}

/-- The shell server: the shell takes a line apart and calls the function for its first word. An
empty line is no command. -/
def shellServer (os : ShellOS σ) : Server Sh.Line (Shell σ) where
  init := .init
  step := Sh.step
  dispatch s words :=
    match words with
    | [] => .done s
    | cmd :: args => s.runCommand os cmd args

/-! ## The calls on the tools -/

namespace Shell

variable (os : ShellOS σ) (s : Shell σ)

/-- What `test -f` finds. -/
def missing (fs : σ) (file : Bytes) : Errno := if os.isFile fs file then .eperm else .enoent

/-- A command that may fail because there is no such file. -/
def onFile (r : Bool × σ) (file : Bytes) : Except Errno ℕ × σ := verdict (missing os r.2 file) r

/-- The lines that are printed for a link, and whether that was all right. -/
def linkLines (file : Bytes) : List Bytes × Bool :=
  if s.readlink then
    match os.readlink s.fs file with
    | some lines => (lines, true)
    | none => ([], false)
  else os.lsLink s.fs file

/-- The lines of a listing. -/
def entries (stat : Bool) (file : Bytes) : List Bytes :=
  if stat ∧ ¬ os.lsName s.fs file then [] else (os.ls s.fs stat s.stable file).1

/-- How it ends. -/
def listed (stat : Bool) (file : Bytes) : Except Errno Unit :=
  if stat ∧ ¬ os.lsName s.fs file then .error .enoent
  else if (os.ls s.fs stat s.stable file).2 then .ok ()
  else if stat then .error .eperm
  else if os.isDir s.fs file then if os.lsPlain s.fs file then .ok () else .error .eperm
  else .error .enoent

end Shell

/-- The calls of `do_command`. To open a file for both, it is enough to be able to write to it. -/
def Call.onShell (os : ShellOS σ) (s : Shell σ) : Call → Except Errno ℕ × σ
  | .open file mode =>
    let file := s.path file.text
    (if if mode = .rdonly then os.readable s.fs file else os.writable s.fs file then
      .ok (if ¬ os.nonEmpty s.fs file ∧ os.firstByte s.fs file then 1 else 0)
    else .error (Shell.missing os s.fs file), s.fs)
  | mkdir dir => verdict .eperm (os.mkdir s.fs (s.path dir.text))
  | rmdir dir =>
    if os.isDir s.fs (s.path dir.text) then verdict .eperm (os.rmdir s.fs (s.path dir.text))
    else (.error .eio, s.fs) -- the line has no text
  | rename old new =>
      Shell.onFile os (os.mv s.fs (s.path old.text) (s.path new.text)) (s.path old.text)
  | unlink file => Shell.onFile os (os.rm s.fs (s.path file.text)) (s.path file.text)
  | create file mode =>
    verdict .eperm (os.chmod (os.clobber s.fs (s.path file.text)).2 (oct (mode &&& S_IALLUGO).toNat)
      (s.path file.text))
  | link old new => verdict .eperm (os.ln s.fs (s.path old.text) (s.path new.text))
  | symlink old new => verdict .eperm (os.lnSymbolic s.fs old.text (s.path new.text))
  | chmod file mode =>
    Shell.onFile os (os.chmod s.fs (oct mode.toNat) (s.path file.text)) (s.path file.text)
  | chown file user =>
    Shell.onFile os (os.chown s.fs (dec user.toNat) (s.path file.text)) (s.path file.text)
  | chgrp file group =>
    Shell.onFile os (os.chgrp s.fs (dec group.toNat) (s.path file.text)) (s.path file.text)
  | trunc file size =>
    Shell.onFile os
      (if size = 0 then os.clobber s.fs (s.path file.text)
      else os.ddTrunc s.fs (s.path file.text) size.toUInt32.toNat 1) (s.path file.text)
  | settime file which tvSec =>
    if os.exists' s.fs (s.path file.text) then
      verdict .eperm (os.touch s.fs which.text (strctime tvSec) (s.path file.text))
    else (.error .enoent, s.fs)
  | finish => (.ok 0, if s.tmp = [] then s.fs else os.rmTree s.fs s.tmp)

namespace Ask

/-- The call on the tools of the remote system, on a mount with this `fcache_size`. -/
def onShell (os : ShellOS σ) (m : Mount) (s : Shell σ) : Ask → Outcome × σ
  | command c => (.code (c.onShell os s).1, (c.onShell os s).2)
  | ls stat file _ _ =>
    (.listing (s.listed os stat (s.path file.text)) (s.entries os stat (s.path file.text)), s.fs)
  | read file offset count ino =>
    let file := s.path file.text
    let (bs, skip, blocks) := readBlocks offset count
    let tmp := s.tmpFile (dec ino.toNat)
    let data := os.dd s.fs file bs.toNat skip.toNat blocks.toNat
    (.data
      (if ino = 0 then .ok (count.toNat, s.readData os file bs.toNat skip.toNat blocks.toNat)
      else if count = 0 then .error .eperm
      else if os.newFile s.fs tmp ∧ os.wc s.fs tmp then .ok (data.length, os.tee s.fs tmp data)
      else .error (Shell.missing os s.fs file)), s.fs)
  | write file offset data _ ino =>
    let file := s.path file.text
    let (bs, seek) := writeBlocks m.fcacheSize offset
    if s.head ∧ os.newFile s.fs (s.tmpFile (dec ino.toNat)) then
      let r := os.ddWrite s.fs file bs.toNat seek.toNat data
      (.code (if r.1 then .ok data.length else .error .eperm), r.2)
    else if data = [] then (.code (.ok 0), s.fs)
    else (.code (.ok data.length), (os.ddStdin s.fs file offset.toNat data.length).2 data)
  | readlink name _ =>
    let r := s.linkLines os (s.path name.text)
    (.link
      (match r.1 with
      | [] => .error (if r.2 then .eio else .eperm)
      | target :: _ => if r.2 then .ok target else .error .eperm), s.fs)
  | statfs => (.numbers (.ok (parseStatfs (Shell.statfsLine (os.df s.fs s.root)))), s.fs)

/-- The server answers, the reply can be told apart from the status lines around it, and no copy
fails half way. A page is not empty and comes as one piece of its length; a slow read has a
directory for temporary files; a write has one too, or its file can be written to; and a caller
wants all lines of a listing. -/
def Tidy (os : ShellOS σ) (m : Mount) (s : Shell σ) : Ask → Prop
  | command _ => True
  | ls stat file more fuel =>
    let entries := s.entries os stat (s.path file.text)
    (∀ l ∈ entries, ListLine l) ∧ (∀ shown, shown <+: entries → shown ≠ [] → more shown = true) ∧
      entries.length < fuel
  | read file offset count ino =>
    let file := s.path file.text
    let (bs, skip, blocks) := readBlocks offset count
    let tmp := s.tmpFile (dec ino.toNat)
    let data := os.dd s.fs file bs.toNat skip.toNat blocks.toNat
    if ino = 0 then
      count ≠ 0 ∧ (s.readData os file bs.toNat skip.toNat blocks.toNat).length = count.toNat
    else
      s.tmp ≠ [] ∧ (count = 0 → os.readable s.fs file = false) ∧
        (os.newFile s.fs tmp = true → os.wc s.fs tmp = true →
          data.length < 2 ^ 32 ∧ (os.tee s.fs tmp data).length = data.length)
  | write file offset data _ ino =>
    let file := s.path file.text
    let (bs, seek) := writeBlocks m.fcacheSize offset
    let tmp := s.tmpFile (dec ino.toNat)
    if s.head ∧ os.newFile s.fs tmp then
      let r := os.ddWrite s.fs file bs.toNat seek.toNat data
      os.head s.fs tmp data.length = none ∧ (r.1 = true ∨ os.writable r.2 file = false)
    else
      os.writable s.fs file = true ∧
        (data ≠ [] → (os.ddStdin s.fs file offset.toNat data.length).1 = none)
  | readlink name _ =>
    let lines := (s.linkLines os (s.path name.text)).1
    lines = [] ∨ ∃ target, lines = [target] ∧ LinkTarget target
  | statfs =>
    (Shell.statfsLine (os.df s.fs s.root)).length < READLNBUF_SIZE ∧
      (0 : Byte) ∉ Shell.statfsLine (os.df s.fs s.root)

/-- The result of the call, and the server behind it. A path that is too long is refused at once. -/
def byShell (os : ShellOS σ) (m : Mount) (cred : Cred) (s : Shell σ) (a : Ask) :
    Outcome × Shell σ :=
  if a.line m cred = none then (a.failed .enametoolong, s)
  else ((a.onShell os m s).1, { s with fs := (a.onShell os m s).2 })

end Ask

/-! ## The functions -/

section Functions

variable {os : ShellOS σ} {s : Shell σ} {info : Info}

/-- The function prints one line, which stands for this result. -/
def Says (s : Shell σ) (proc : Proc (Shell σ)) (r : Except Errno ℕ × σ) : Prop :=
  ∃ line, (nl ∉ line ∧ (0 : Byte) ∉ line ∧ line.length < READLNBUF_SIZE) ∧
    proc = .print false (line ++ [nl]) (.done { s with fs := r.2 }) ∧
      commandResult (reply line) = r.1

theorem says_answer (fs : σ) {code : ℕ} (hcode : code < 1000) {r : Except Errno ℕ}
    (hr : commandResult code = r) : Says s (({ s with fs := fs } : Shell σ).answer code)
    (r, fs) := by
  refine ⟨statusText code,
    ⟨nl_notMem_statusText code, zero_notMem_statusText code, length_statusText_lt hcode⟩, rfl, ?_⟩
  rw [reply_statusText (show code < 2 ^ 32 by omega), hr]

theorem says_change {code : ℕ} (hcode : code < 1000) {e : Errno}
    (he : commandResult code = .error e) (r : Bool × σ) : Says s (s.change r code)
    (verdict e r) := by
  obtain ⟨ok, fs⟩ := r
  cases ok with
  | false => exact says_answer fs hcode he
  | true => exact says_answer fs (show 200 < 1000 by decide) rfl

/-- Where `test -f` decides between two errors. -/
theorem says_onFile (r : Bool × σ) (file : Bytes) :
    Says s (s.change r (Shell.notDone os r.2 file)) (Shell.onFile os r file) := by
  unfold Shell.onFile Shell.missing Shell.notDone
  cases os.isFile r.2 file with
  | false => exact says_change (by decide) rfl r
  | true => exact says_change (by decide) rfl r

/-- **A command** is answered with what its tool says, by one status line, and leaves the server
where the tool does. -/
theorem Call.shell_says (os : ShellOS σ) (s : Shell σ) (c : Call) :
    Says s (s.runCommand os c.name (c.args.map Word.value)) (c.onShell os s) := by
  have hperm : ∀ r : Bool × σ, Says s (s.change r 501) (verdict .eperm r) :=
    says_change (by decide) rfl
  -- most functions are one tool and its verdict, with or without a test that the file is there
  cases c with
  | «open» file mode =>
    obtain ⟨w, hw, hmode⟩ : ∃ w, (Call.open file mode).args.map Word.value = [file.text, w] ∧
        (if w = ascii "W" ∨ w = ascii "RW" then os.writable s.fs (s.path file.text)
          else decide ((w = ascii "R" ∨ w = ascii "RW") ∧ os.readable s.fs (s.path file.text) =
            true)) = if mode = .rdonly then os.readable s.fs (s.path file.text)
            else os.writable s.fs (s.path file.text) := by
      cases mode with
      | rdonly =>
        refine ⟨ascii "R", rfl, (if_neg (by decide)).trans ?_⟩
        simp only [true_or, true_and, Bool.decide_eq_true, if_true]
      | wronly => exact ⟨ascii "W", rfl, if_pos (by decide)⟩
      | rdwr => exact ⟨ascii "RW", rfl, if_pos (by decide)⟩
    rw [hw]
    change Says s (s.sOpen os [file.text, w]) _
    unfold Shell.sOpen onShell
    simp only [Shell.arg, List.getD_cons_zero, List.getD_cons_succ, hmode]
    generalize (if mode = .rdonly then os.readable s.fs (s.path file.text)
      else os.writable s.fs (s.path file.text)) = ok
    split
    · refine says_answer s.fs ?_ ?_
      · split
        · decide
        · split <;> decide
      · cases os.nonEmpty s.fs (s.path file.text) <;> cases os.firstByte s.fs (s.path file.text) <;>
          rfl
    · unfold Shell.missing Shell.notDone
      refine says_answer s.fs ?_ ?_
      · split <;> decide
      · cases os.isFile s.fs (s.path file.text) <;> rfl
  | mkdir dir => exact hperm _
  -- if there is no such directory, the reply is a blank line
  | rmdir dir =>
    change Says s (s.sRmdir os [dir.text]) _
    unfold Shell.sRmdir onShell
    simp only [Shell.arg, List.getD_cons_zero]
    split
    · exact hperm _
    · exact ⟨[], ⟨List.not_mem_nil, List.not_mem_nil, by decide⟩, rfl, rfl⟩
  | rename old new => exact says_onFile _ _
  | unlink file => exact says_onFile _ _
  | create file mode => exact hperm _
  | link old new => exact hperm _
  | symlink old new => exact hperm _
  | chmod file mode => exact says_onFile _ _
  | chown file user => exact says_onFile _ _
  | chgrp file group => exact says_onFile _ _
  -- the client asks for one block of the size, or for none of size 1
  | trunc file size =>
    have hargs : (Call.trunc file size).args.map Word.value =
        [file.text, dec (if size = 0 then 1 else size.toUInt32.toNat),
          dec (if size = 0 then 0 else 1)] := by
      by_cases h : size = 0 <;> simp [args, Word.value, h]
    rw [hargs]
    change Says s (s.sTrunc os _) _
    unfold Shell.sTrunc onShell
    simp only [Shell.arg, List.getD_cons_zero, List.getD_cons_succ, decVal_dec_self,
      dec_eq_zero_iff]
    by_cases h : size = 0
    · simp only [h, if_true]
      exact says_onFile _ _
    · simp only [h, if_false, Nat.one_ne_zero]
      exact says_onFile _ _
  | settime file which tvSec =>
    change Says s (s.sSettime os [file.text, which.text, strctime tvSec]) _
    unfold Shell.sSettime onShell
    simp only [Shell.arg, List.getD_cons_zero, List.getD_cons_succ]
    split
    · exact hperm _
    · exact says_answer s.fs (by decide) rfl
  | finish => exact says_answer _ (by decide) rfl

/-! ## The replies -/

/-- A status line printed last leaves nothing unanswered. -/
theorem answered_shell (s : Shell σ) (code : ℕ) :
    ((s.answer code).wire (shellServer os)).answered = true :=
  rfl

namespace Ask

/-- The server after the function of a call. -/
def ran (os : ShellOS σ) (m : Mount) (s : Shell σ) (a : Ask) : Wire Sh.Line (Shell σ) :=
  (s.runCommand os (a.request m).name ((a.request m).args.map Word.value)).wire (shellServer os)

/-- `do_command` -/
theorem ran_command (hc : info.Clean) (m : Mount) (c : Call) (line : Bytes) :
    Gives (shellServer os) ((command c).await line info) ((command c).ran os m s)
      (((command c).onShell os m s).1, info)
        (.line { s with fs := ((command c).onShell os m s).2 } .init) := by
  obtain ⟨l, ⟨hnl, hnul, hfits⟩, hproc, hresult⟩ := c.shell_says os s
  change Gives _ (commandReply line info (ending .code))
    ((s.runCommand os c.name (c.args.map Word.value)).wire _) _ _
  rw [hproc, onShell, ← hresult]
  have hbytes : ((Proc.print false (l ++ [nl]) (.done { s with fs := (c.onShell os s).2 })).wire
      (shellServer os)).bytes = l ++ nl :: [] := by simp [Wire.bytes]
  refine gives_line hc hnl hnul hfits hbytes fun n hn => ?_
  refine gives_ret rfl hn ?_
  simp [Wire.drop, Proc.wire_answered, cells]

/-- `do_ls` -/
theorem ran_ls (hc : info.Clean) (m : Mount) {stat : Bool} {file : Path} {more : List Bytes → Bool}
    {fuel : ℕ} (ht : (ls stat file more fuel).Tidy os m s) (line : Bytes) :
    Gives (shellServer os) ((ls stat file more fuel).await line info)
      ((ls stat file more fuel).ran os m s)
      (((ls stat file more fuel).onShell os m s).1, info) (.line s .init) := by
  obtain ⟨hlines, hmore, hfuel⟩ := ht
  obtain ⟨code, hcode, hresult, hran⟩ : ∃ code, code < 1000 ∧
      lsResult code = some (s.listed os stat (s.path file.text)) ∧
      (ls stat file more fuel).ran os m s =
        (Shell.output (s.entries os stat (s.path file.text)) (s.answer code)).wire
          (shellServer os) := by
    cases stat with
    | true =>
      change ∃ code, code < 1000 ∧ _ ∧ (s.sStat os [file.text]).wire _ = _
      unfold Shell.sStat Shell.entries Shell.listed
      simp only [Shell.arg, List.getD_cons_zero, true_and, if_true]
      by_cases hname : os.lsName s.fs (s.path file.text) = true
      · simp only [hname, not_true, if_false]
        refine ⟨_, ?_, ?_, rfl⟩
        · split <;> decide
        · cases (os.ls s.fs true s.stable (s.path file.text)).2 <;> rfl
      · simp only [hname]
        exact ⟨503, by decide, rfl, rfl⟩
    | false =>
      change ∃ code, code < 1000 ∧ _ ∧ (s.sLsdir os [file.text]).wire _ = _
      unfold Shell.sLsdir Shell.entries Shell.listed
      simp only [Shell.arg, List.getD_cons_zero, Bool.false_eq_true, false_and, if_false]
      refine ⟨_, ?_, ?_, rfl⟩
      · split
        · decide
        · split
          · split <;> decide
          · decide
      · cases (os.ls s.fs false s.stable (s.path file.text)).2 <;>
          cases os.isDir s.fs (s.path file.text) <;>
          cases os.lsPlain s.fs (s.path file.text) <;> rfl
  rw [hran]
  refine gives_lsReply (answered_print (answered_shell s code) false _) hc hcode hresult hlines
    hmore hfuel ?_ rfl
  exact Proc.wire_print_bytes.trans (congrArg _ (s.answer_bytes _ code))

/-- `shell_read`, refused. -/
theorem gives_readReply_refused {G S : Type} {srv : Server G S} {w : Wire G S} {mode : Lib.Mode G S}
    (ha : w.answered = true) (hc : info.Clean) (there : Bool)
    (hw : w.bytes = status (if there then 501 else 503)) (hmode : w.mode = mode) (count : ℕ)
    (ino : UInt64) :
    Gives srv (readReply count ino info (ending .data)) w
      (.data (.error (if there then .eperm else .enoent)), info) mode := by
  cases there with
  | true => exact gives_last hc (by decide) hw hmode ha rfl
  | false => exact gives_last hc (by decide) hw hmode ha rfl

/-- `shell_read`, told the count. -/
theorem gives_countedReply {G S : Type} {srv : Server G S} {w : Wire G S} {mode : Lib.Mode G S}
    (ha : w.answered = true) (hc : info.Clean) {d : Bytes} (hd : d.length < 2 ^ 32)
    (hw : w.bytes = status 100 ++ (dec d.length ++ nl :: (d ++ status 200))) (hmode : w.mode = mode)
    (count : ℕ) {ino : UInt64} (hino : ino ≠ 0) :
    Gives srv (readReply count ino info (ending .data)) w (.data (.ok (d.length, d)), info)
      mode := by
  have hdigit : ∀ b : Byte, isDigit b = false → b ∉ dec d.length := fun b hb hmem =>
    absurd (isDigit_of_mem_dec hmem) (by rw [hb]; exact Bool.false_ne_true)
  have hlen := length_dec_le (n := d.length) (k := 10) (by decide) (by omega)
  have hR := READLNBUF_SIZE_eq
  refine gives_status hc (by decide) hw fun n hn => ?_
  simp only [reply_statusText (show 100 < 2 ^ 32 by decide), if_true, ne_eq, hino,
    not_false_eq_true]
  refine gives_line hc (hdigit _ rfl) (hdigit _ rfl) (by omega) hn fun n' hn' => ?_
  simp only [decVal_dec_self, Nat.mod_eq_of_lt hd]
  refine gives_read hc hn' fun n'' hn'' => ?_
  exact gives_last hc (by decide) hn'' hmode ha rfl

/-- `shell_read` of a page -/
theorem ran_page (hc : info.Clean) (m : Mount) {file : Path} {offset count : UInt32}
    (ht : (read file offset count 0).Tidy os m s) (line : Bytes) :
    Gives (shellServer os) ((read file offset count 0).await line info)
      ((read file offset count 0).ran os m s)
      (((read file offset count 0).onShell os m s).1, info) (.line s .init) := by
  simp only [Tidy, if_true] at ht
  obtain ⟨hcount, hlen⟩ := ht
  have hzero : dec count.toNat ≠ ascii "0" := fun h =>
    hcount (UInt32.toNat_inj.mp ((dec_eq_zero_iff _).mp h))
  have hran : (read file offset count 0).ran os m s = (Proc.print false (status 100) (.print true
      (s.readData os (s.path file.text) (readBlocks offset count).1.toNat
        (readBlocks offset count).2.1.toNat (readBlocks offset count).2.2.toNat)
      (s.answer 200))).wire (shellServer os) := by
    change (s.sRead os
      [file.text, dec offset.toNat, dec count.toNat, dec (readBlocks offset count).1.toNat,
        dec (readBlocks offset count).2.1.toNat, dec (readBlocks offset count).2.2.toNat]).wire _ =
          _
    rw [Shell.sRead]
    simp only [Shell.arg, List.getD_cons_zero, List.getD_cons_succ, decVal_dec_self, if_neg hzero]
  change Gives _ (readReply count.toNat 0 info (ending .data)) _ _ _
  simp only [onShell, if_true]
  rw [hran, ← hlen]
  refine gives_readReply (answered_print (answered_print (answered_shell s 200) _ _) _ _) hc ?_ rfl
  rw [Proc.wire_print_bytes, Proc.wire_print_bytes, s.answer_bytes]

/-- `shell_read`, the slow one -/
theorem ran_slow (hc : info.Clean) (m : Mount) {file : Path} {offset count : UInt32} {ino : UInt64}
    (hino : ino ≠ 0) (ht : (read file offset count ino).Tidy os m s) (line : Bytes) :
    Gives (shellServer os) ((read file offset count ino).await line info)
      ((read file offset count ino).ran os m s)
      (((read file offset count ino).onShell os m s).1, info) (.line s .init) := by
  simp only [Tidy, if_neg hino] at ht
  obtain ⟨htmp, hempty, hcopy⟩ := ht
  have hzero : dec count.toNat = ascii "0" ↔ count = 0 := by
    rw [dec_eq_zero_iff]
    exact UInt32.toNat_inj (a := count) (b := 0)
  have hran : (read file offset count ino).ran os m s = (s.sSread os [file.text, dec offset.toNat,
      dec count.toNat, dec (readBlocks offset count).1.toNat,
        dec (readBlocks offset count).2.1.toNat,
      dec (readBlocks offset count).2.2.toNat, dec ino.toNat]).wire (shellServer os) := by
    have hname : ((read file offset count ino).request m).name = ascii "s_sread" := if_pos hino
    have hargs : ((read file offset count ino).request m).args.map Word.value = [file.text,
        dec offset.toNat, dec count.toNat, dec (readBlocks offset count).1.toNat,
        dec (readBlocks offset count).2.1.toNat, dec (readBlocks offset count).2.2.toNat,
        dec ino.toNat] := by
      simp [request, Request.args, Word.value, hino]
    rw [ran, hname, hargs]
    rfl
  have hmissing : Gives (shellServer os) (readReply count.toNat ino info (ending .data))
      ((s.answer (if os.isFile s.fs (s.path file.text) then 501 else 503)).wire (shellServer os))
      (.data (.error (Shell.missing os s.fs (s.path file.text))), info) (.line s .init) :=
    gives_readReply_refused (answered_shell s _) hc _ (s.answer_bytes _ _) rfl _ _
  change Gives _ (readReply count.toNat ino info (ending .data)) _ _ _
  rw [hran, Shell.sSread]
  simp only [Shell.arg, List.getD_cons_zero, List.getD_cons_succ, decVal_dec_self, hzero,
    if_neg htmp, onShell, if_neg hino]
  -- a count of zero is refused, if the file cannot be read
  by_cases hcount : count = 0
  · simp only [if_pos hcount, hempty hcount]
    exact gives_readReply_refused (answered_shell s 501) hc true (s.answer_bytes _ 501) rfl _ _
  simp only [if_neg hcount]
  by_cases hnew : os.newFile s.fs (s.tmpFile (dec ino.toNat)) = true
  · by_cases hwc : os.wc s.fs (s.tmpFile (dec ino.toNat)) = true
    · obtain ⟨hlt, hlen⟩ := hcopy hnew hwc
      simp only [hnew, hwc, and_self, if_true]
      rw [← hlen] at hlt ⊢
      refine gives_countedReply
        (answered_print (answered_print (answered_print (answered_shell s 200) _ _) _ _) _ _) hc hlt
          ?_ rfl _ hino
      rw [Proc.wire_print_bytes, Proc.wire_print_bytes, Proc.wire_print_bytes, s.answer_bytes,
        List.append_assoc, List.singleton_append]
    · simp only [hnew, hwc, if_true]
      exact hmissing
  · simp only [hnew]
    exact hmissing

/-- `shell_write` -/
theorem ran_write (hc : info.Clean) (m : Mount) {file : Path} {offset : UInt32} {data : Bytes}
    {hdata : data.length < 2 ^ 32} {ino : UInt64}
    (ht : (write file offset data hdata ino).Tidy os m s) (line : Bytes) :
    Gives (shellServer os) ((write file offset data hdata ino).await line info)
      ((write file offset data hdata ino).ran os m s)
      (((write file offset data hdata ino).onShell os m s).1, info)
      (.line { s with fs := ((write file offset data hdata ino).onShell os m s).2 } .init) := by
  have hcount : (UInt32.ofNat data.length).toNat = data.length := by
    rw [UInt32.toNat_ofNat']
    exact Nat.mod_eq_of_lt hdata
  have hran : (write file offset data hdata ino).ran os m s =
    (s.sWrite os [file.text, dec offset.toNat,
      dec data.length, dec (writeBlocks m.fcacheSize offset).1.toNat,
      dec (writeBlocks m.fcacheSize offset).2.toNat, dec ino.toNat]).wire (shellServer os) := by
    have hargs : ((write file offset data hdata ino).request m).args.map Word.value = [file.text,
        dec offset.toNat, dec data.length, dec (writeBlocks m.fcacheSize offset).1.toNat,
        dec (writeBlocks m.fcacheSize offset).2.toNat, dec ino.toNat] := by
      simp [request, Request.args, Word.value, hcount]
    rw [ran, hargs]
    rfl
  -- what comes behind the first status line, given the data
  have hreply : ∀ (p : Proc (Shell σ)) (s' : Shell σ) (code : ℕ), code < 1000 → code ≠ REP_ENOSPC →
      (p.wire (shellServer os)).feed (shellServer os) data =
        (s'.answer code).wire (shellServer os) →
      Gives (shellServer os) (writeReply data.length data info (ending .code))
        ((Proc.print false (status 100) p).wire (shellServer os))
        (.code (transferResult code data.length), info) (.line s' .init) := by
    intro p s' code hcode hne hfeed
    refine gives_status hc (show 100 < 1000 by decide) Proc.wire_print_bytes fun n hn => ?_
    simp only [reply_statusText (show 100 < 2 ^ 32 by decide), if_true]
    refine gives_write hc ?_
    obtain ⟨hmode, hbytes, hanswered⟩ := Wire.feed_congr (by rfl) hn (fun _ => rfl) data
    rw [hfeed] at hmode hbytes hanswered
    refine gives_last hc hcode (hbytes.trans (s'.answer_bytes _ code)) hmode (hanswered rfl) ?_
    simp only [reply_statusText (show code < 2 ^ 32 by omega), if_neg hne]
  simp only [Tidy] at ht
  change Gives _ (writeReply (UInt32.ofNat data.length).toNat data info (ending .code)) _ _ _
  rw [hcount, hran, Shell.sWrite]
  simp only [Shell.arg, List.getD_cons_zero, List.getD_cons_succ, decVal_dec_self, dec_eq_zero_iff,
    onShell]
  split at ht
  · next htmp =>
    obtain ⟨hhead, hdone⟩ := ht
    simp only [if_pos htmp, hhead]
    cases hok : (os.ddWrite s.fs (s.path file.text) (writeBlocks m.fcacheSize offset).1.toNat
        (writeBlocks m.fcacheSize offset).2.toNat data).1 with
    | true =>
      refine hreply _ _ 200 (by decide) (by decide) ((Wire.feed_take _ _).trans ?_)
      simp only [hok, if_true]
    | false =>
      have hrefused := hdone.resolve_left (by rw [hok]; exact Bool.false_ne_true)
      refine hreply _ _ 501 (by decide) (by decide) ((Wire.feed_take _ _).trans ?_)
      simp only [hok, hrefused, Bool.false_eq_true, if_false]
  · next htmp =>
    obtain ⟨hwritable, hcopied⟩ := ht
    simp only [if_neg htmp, hwritable, if_true]
    by_cases hnil : data = []
    · subst hnil
      exact hreply _ s 200 (by decide) (by decide) rfl
    · have hlen : data.length ≠ 0 := fun h => hnil (List.length_eq_zero_iff.mp h)
      simp only [if_neg hlen, if_neg hnil, hcopied hnil]
      exact hreply _ _ 200 (by decide) (by decide) (Wire.feed_take _ _)

/-- `shell_readlink` -/
theorem ran_readlink (hc : info.Clean) (m : Mount) {name : Path} {realName : Bytes}
    (ht : (readlink name realName).Tidy os m s) (line : Bytes) :
    Gives (shellServer os) ((readlink name realName).await line info)
      ((readlink name realName).ran os m s)
      (((readlink name realName).onShell os m s).1, info) (.line s .init) := by
  have hran : (readlink name realName).ran os m s =
    (Shell.output (s.linkLines os (s.path name.text)).1
      (s.answer (if (s.linkLines os (s.path name.text)).2 then 200 else 501))).wire
        (shellServer os) := by
    change (s.sReadlink os [name.text]).wire _ = _
    unfold Shell.sReadlink Shell.linkLines
    simp only [Shell.arg, List.getD_cons_zero]
    split
    · rcases os.readlink s.fs (s.path name.text) with _ | lines <;> rfl
    · rfl
  change Gives _ (readlinkReply info (ending .link)) _ _ _
  rw [hran, onShell]
  simp only [Tidy] at ht
  generalize s.linkLines os (s.path name.text) = r at ht ⊢
  obtain ⟨lines, ok⟩ := r
  rcases ht with rfl | ⟨target, rfl, ht⟩
  · cases ok with
    | true =>
      exact gives_last hc (show 200 < 1000 by decide)
        (s.answer_bytes _ 200) rfl (answered_shell s 200) rfl
    | false => exact gives_readlinkReply_code (answered_shell s 501) hc (s.answer_bytes _ 501) rfl
  · have hmax : SHFS_PATH_MAX < READLNBUF_SIZE := by decide
    have hroom := ht.room
    have hbytes : ((Shell.output [target] (s.answer (if ok then 200 else 501))).wire
        (shellServer os)).bytes = target ++ nl :: status (if ok then 200 else 501) := by
      rw [Shell.output, Proc.wire_print_bytes, s.answer_bytes]
      simp
    have hans : ((Shell.output [target] (s.answer (if ok then 200 else 501))).wire
        (shellServer os)).answered = true := answered_print (answered_shell s _) _ _
    cases ok with
    | true => exact gives_readlinkReply hans hc ht hbytes rfl
    | false =>
      refine gives_line hc ht.nl ht.nul (by omega) hbytes fun n hn => ?_
      simp only [if_neg ht.complete, if_neg ht.eperm]
      exact gives_last hc (show 501 < 1000 by decide) hn rfl hans rfl

/-- `shell_statfs` -/
theorem ran_statfs (hc : info.Clean) (m : Mount) (ht : statfs.Tidy os m s) (line : Bytes) :
    Gives (shellServer os) (statfs.await line info) (statfs.ran os m s)
      ((statfs.onShell os m s).1, info) (.line s .init) := by
  change Gives _ (statfsReply info (ending .numbers)) ((s.sStatfs os).wire _) _ _
  refine gives_statfsReply (answered_print (answered_shell s 200) _ _) hc
    (Shell.nl_notMem_statfsLine (os.df_line _ _)) ht.2 ht.1 ?_ rfl
  refine Proc.wire_print_bytes.trans ?_
  rw [s.answer_bytes]
  simp

/-- **The reply**: what the shell server prints for a tidy call is read back as what the tools
said. -/
theorem ran_gives (hc : info.Clean) (m : Mount) {a : Ask} (ht : a.Tidy os m s) (line : Bytes) :
    Gives (shellServer os) (a.await line info) (a.ran os m s) ((a.onShell os m s).1, info)
      (.line { s with fs := (a.onShell os m s).2 } .init) := by
  cases a with
  | command c => exact ran_command hc m c line
  | ls stat file more fuel => exact ran_ls hc m ht line
  | read file offset count ino =>
    by_cases hino : ino = 0
    · subst hino
      exact ran_page hc m ht line
    · exact ran_slow hc m hino ht line
  | write file offset data hdata ino => exact ran_write hc m ht line
  | readlink name realName => exact ran_readlink hc m ht line
  | statfs => exact ran_statfs hc m ht line

/-- **A call** on a connection where nothing is on its way comes back with what the tools said, and
leaves nothing on its way. -/
theorem call_shell (hf : Fresh info) {m : Mount} (hp : m.preserveOwn = false) {cred : Cred}
    {a : Ask} (ht : a.line m cred ≠ none → a.Tidy os m s) {w : Wire Sh.Line (Shell σ)}
    (hw : Idle .init s w) :
    ∃ w', (a.call m cred info).run (shellServer os) READLNBUF_SIZE w =
      .inl (((a.byShell os m cred s).1, info), w') ∧ Idle .init (a.byShell os m cred s).2 w' := by
  unfold byShell
  rcases hl : a.line m cred with _ | l
  · rw [if_pos rfl, call_eq, exchange, hl]
    exact ⟨w, rfl, hw⟩
  · rw [if_neg (Option.some_ne_none l)]
    have hsent := line_sent hl
    rw [hp] at hsent
    have hscan := Request.shell_reads hsent []
    rw [List.append_nil] at hscan
    have htidy := ht (by rw [hl]; exact Option.some_ne_none l)
    exact exchange_run (shellServer os) hf hl hscan hw (ran_gives hf.clean m htidy l)

end Ask

/-! ## A session -/

/-- Calls one after another on a connection, and what they come back with; `none` if one does
not. -/
def session {G S : Type} (srv : Server G S) (m : Mount) (info : Info) :
    List (Cred × Ask) → Wire G S → Option (List Outcome × Wire G S)
  | [], w => some ([], w)
  | (cred, a) :: calls, w =>
    match (a.call m cred info).run srv READLNBUF_SIZE w with
    | .inl ((r, info), w) => (session srv m info calls w).map fun (rs, w) => (r :: rs, w)
    | .inr _ => none

/-- The same calls on the tools, one after another: their results, and where they leave the machine.
There is no connection in it. -/
def onTools (os : ShellOS σ) (m : Mount) : List (Cred × Ask) → Shell σ → List Outcome × Shell σ
  | [], s => ([], s)
  | (cred, a) :: calls, s =>
    ((a.byShell os m cred s).1 :: (onTools os m calls (a.byShell os m cred s).2).1,
      (onTools os m calls (a.byShell os m cred s).2).2)

/-- Every call that sends a line is tidy when its turn comes, in the state in which the calls in
front of it leave the machine. -/
def AllTidy (os : ShellOS σ) (m : Mount) : List (Cred × Ask) → Shell σ → Prop
  | [], _ => True
  | (cred, a) :: calls, s =>
    (a.line m cred ≠ none → a.Tidy os m s) ∧ AllTidy os m calls (a.byShell os m cred s).2

/-- **A session with the shell server**: however many calls are made, and whatever the names of the
files are, each comes back with what the tools of the remote system said to it. -/
theorem shell_session (hf : Fresh info) {m : Mount} (hp : m.preserveOwn = false)
    {calls : List (Cred × Ask)} (ht : AllTidy os m calls s) {w : Wire Sh.Line (Shell σ)}
    (hw : Idle .init s w) :
    ∃ w', session (shellServer os) m info calls w = some ((onTools os m calls s).1, w') ∧
      Idle .init (onTools os m calls s).2 w' := by
  induction calls generalizing s w with
  | nil => exact ⟨w, rfl, hw⟩
  | cons call calls ih =>
    obtain ⟨cred, a⟩ := call
    obtain ⟨w₁, hrun, hidle⟩ := Ask.call_shell hf hp ht.1 hw
    obtain ⟨w', hrest, hend⟩ := ih ht.2 hidle
    refine ⟨w', ?_, hend⟩
    simp only [session, hrun, hrest, Option.map_some, onTools]

end Functions

/-- A slow read of a file whose name has a quote in it, and an attempt to remove it as a
directory. -/
def quotedCalls : List (Cred × Ask) :=
  [(⟨0, []⟩, .read ⟨ascii "/it's", by decide, by decide⟩ 0 3 7),
    (⟨0, []⟩, .command (.rmdir ⟨ascii "/it's", by decide, by decide⟩))]

/-- There are three octets in the file, and it is no directory. -/
theorem shell_session_quoted : ∃ w', session
    (shellServer (oneFileTools (ascii "/it's") (ascii "abc")))
      plainMount ⟨true, false, 0, 0⟩ quotedCalls ⟨.line rootShell .init, [], true⟩ =
        some ([.data (.ok (3, ascii "abc")), .code (.error .eio)], w') ∧
    Idle .init rootShell w' := by
  have htidy : AllTidy (oneFileTools (ascii "/it's") (ascii "abc")) plainMount quotedCalls
      rootShell := by
    refine ⟨fun _ => ?_, fun _ => trivial, trivial⟩
    exact ⟨by decide, fun h => absurd h (by decide), fun _ _ => ⟨by decide, by decide⟩⟩
  exact shell_session ⟨⟨rfl, rfl⟩, rfl, rfl⟩ rfl htidy ⟨rfl, rfl, rfl⟩

end Shfs
