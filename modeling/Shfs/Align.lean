import Shfs.Replies

/-!
# Request and reply stay aligned

The client functions against the Perl server, one call after another, with the two sides taking
turns in any order (`Served`). `Ask` is a call, and `Aftermath` the invariant between calls: the
server waits for a new line, and if `info->garbage` is clear, nothing is left on its way to the
client.

What the server prints is fixed by the call except for three kinds of text: the lines of a
listing, the target of a link and the data of a slow read. `Ask.Plain` says that this text does not
look like the status lines around it, and that the caller has a group if ownership is preserved.
With `info->garbage` set the next call starts with a ping that is never answered, so it does not
come back (`post_clearGarbage`), unless what is left in the stream looks like an answer.

`aligned` is the result: in a run of such calls, whenever a client function comes back with
`info->garbage` clear, both streams are empty.
-/

namespace Shfs

open Lib

/-! ## Calls -/

/-- The mount options the client functions depend on: whether the ids of the caller go in front of a
command, and the size of the cache, which decides the blocks of a write. -/
structure Mount : Type where
  preserveOwn : Bool
  fcacheSize : UInt32

/-- A call of a client function. `more` is what `shfs_fill_cache` makes of the lines so far. -/
inductive Ask : Type where
  | command (c : Call)
  | ls (stat : Bool) (file : Path) (more : List Bytes → Bool) (fuel : ℕ)
  | read (file : Path) (offset count : UInt32) (ino : UInt64)
  | write (file : Path) (offset : UInt32) (data : Bytes) (hdata : data.length < 2 ^ 32)
      (ino : UInt64)
  | readlink (name : Path) (realName : Bytes)
  | statfs

namespace Ask

/-- What a listing does with one more line. -/
def entry (more : List Bytes → Bool) (acc : List Bytes) (s : Bytes) : List Bytes × Bool :=
  (acc ++ [s], more (acc ++ [s]))

/-- The call as a program; its result here is the connection state it leaves. -/
def talk (m : Mount) (cred : Cred) (info : Info) : Ask → Talk Fault Info
  | command c => doCommand m.preserveOwn cred c.cmd info fun _ info => .ret info
  | ls stat file more fuel =>
    doLs m.preserveOwn cred (entry more) fuel stat file.text [] info fun _ _ info => .ret info
  | read file offset count ino =>
    shellRead m.preserveOwn cred file.text offset count ino info fun _ info => .ret info
  | write file offset data _ ino =>
    shellWrite m.preserveOwn cred m.fcacheSize file.text offset (UInt32.ofNat data.length) data ino
      info fun _ info => .ret info
  | readlink name realName =>
    shellReadlink m.preserveOwn cred name.text realName info fun _ info => .ret info
  | statfs => shellStatfs m.preserveOwn cred info fun _ info => .ret info

/-- The request behind the call. -/
def request (m : Mount) : Ask → Request
  | command c => .command c
  | ls stat file _ _ => .ls stat file
  | read file offset count ino => .read file offset count ino
  | write file offset data _ ino => .write m.fcacheSize file offset (UInt32.ofNat data.length) ino
  | readlink name _ => .readlink name
  | statfs => .statfs

/-- What the call does once its line is sent. A `readdir` goes on for as long as its caller takes
lines, for `fuel` lines at most. -/
def reply (line : Bytes) (info : Info) : Ask → Talk Fault Info
  | command _ => commandReply line info fun _ info => .ret info
  | ls _ _ more fuel => lsReply (entry more) fuel [] info fun _ _ info => .ret info
  | read _ _ count ino => readReply count.toNat ino info fun _ info => .ret info
  | write _ _ data _ _ =>
    writeReply (UInt32.ofNat data.length).toNat data info fun _ info => .ret info
  | readlink _ _ => readlinkReply info fun _ info => .ret info
  | statfs => statfsReply info fun _ info => .ret info

/-- A call sends the line of its request, or none, and reads its reply. -/
theorem talk_eq (m : Mount) (cred : Cred) (info : Info) (a : Ask) :
    ∃ line, a.talk m cred info =
        sendLine line info (fun _ info => .ret info) (fun line info => a.reply line info) ∧
      ∀ l, line = some l → ((a.request m).built m.preserveOwn cred).line = some l := by
  have hquoted : ∀ (file : Path) (k : Bytes → Built) (l : Bytes),
      ((checkPath file.text).bind fun file => (k file).line) = some l →
        (Request.onQuoted file k).line = some l := fun file k l h =>
    (Request.onQuoted_line file k).trans h
  cases a with
  | command c =>
    refine ⟨_, rfl, fun l h => ?_⟩
    rcases hc : c.cmd with _ | cmd
    · simp [hc] at h
    · simpa [request, Request.built, hc] using h
  | ls stat file more fuel => exact ⟨_, rfl, hquoted _ _⟩
  | read file offset count ino => exact ⟨_, rfl, hquoted _ _⟩
  | write file offset data hdata ino => exact ⟨_, rfl, hquoted _ _⟩
  | readlink name realName =>
    refine ⟨_, rfl, fun l h => hquoted _ _ _ ?_⟩
    rcases hr : checkPath realName with _ | q
    · simp [hr] at h
    · simpa [hr] using h
  | statfs => exact ⟨_, rfl, fun l h => h⟩

end Ask

/-! ## Plain replies -/

/-- The status codes after which `shell_readlink` does not read on. -/
def EndsReadlink (l : Bytes) : Prop := reply (cstr l) = REP_COMPLETE ∨ reply (cstr l) = REP_EPERM

/-- The lines of a listing: none of them is empty, none is a status line, and `do_ls` is not told
to stop. -/
def ListingPlain (more : List Bytes → Bool) : List Bytes → List Bytes → Prop
  | _, [] => True
  | acc, l :: ls =>
    (cstr l ≠ [] ∧ lsResult (reply (cstr l)) = none ∧ more (acc ++ [cstr l]) = true) ∧
      ListingPlain more (acc ++ [cstr l]) ls

/-- The target of a link: its first line is not taken for a status line, and neither is the second
one if it has one. -/
def TargetPlain (target : Bytes) : Prop :=
  ∀ l n, nextLine READLNBUF_SIZE (target ++ [nl]) = some (l, n) →
    ¬ EndsReadlink l ∧
      ∀ l' n', nextLine READLNBUF_SIZE ((target ++ [nl]).drop n) = some (l', n') → ¬ EndsReadlink l'

/-- The data of a slow read, with the number before it and the status line behind it: after the
first line, and as many octets as the number it starts with says, there is at most one line. -/
def SlowPlain (data : Bytes) : Prop :=
  ∀ l n, nextLine READLNBUF_SIZE (dec data.length ++ data ++ status 200) = some (l, n) →
    ∀ l' n', nextLine READLNBUF_SIZE
        (((dec data.length ++ data ++ status 200).drop n).drop (decVal (cstr l) % 2 ^ 32)) =
          some (l', n') →
      ((dec data.length ++ data ++ status 200).drop n).drop (decVal (cstr l) % 2 ^ 32 + n') = []

namespace Ask

variable {σ : Type}

/-- The text the server sends for this call does not look like anything else. -/
def ReplyPlain (os : OS σ) (s : Perl σ) : Ask → Prop
  | ls stat file more _ =>
    ListingPlain more [] (lines READLNBUF_SIZE
      ((os.ls s.ids s.fs stat s.stable (s.path file.text)).1.flatMap fun e => e ++ [nl]))
  | read file offset count ino =>
    ino ≠ 0 → ∀ data,
      os.readFile s.ids s.fs (s.path file.text) offset.toNat count.toNat = some data →
        SlowPlain data
  | readlink name _ =>
    ∀ target, os.readlink s.ids s.fs (s.path name.text) = some target → TargetPlain target
  | statfs => (Perl.statfsLine (os.df s.ids s.fs s.root)).length < READLNBUF_SIZE
  | _ => True

/-- The server with the ids of this caller. On a mount without `preserve` they stay those of the
process. -/
def switched (m : Mount) (cred : Cred) (s : Perl σ) (a : Ask) : Perl σ :=
  if m.preserveOwn then
    { s with ids := s.ids.mainLoop ((a.request m).name :: sentCred true cred ++
        (a.request m).args.map Word.value) }
  else s

/-- A call whose line decodes, and whose reply is plain. The line of a mount with `preserve` decodes
only if its caller is in a group, and a reply is plain if none of its lines reads as a status line
before the end. -/
def Plain (os : OS σ) (m : Mount) (cred : Cred) (s : Perl σ) (a : Ask) : Prop :=
  (m.preserveOwn = true → cred.groups ≠ []) ∧ a.ReplyPlain os (a.switched m cred s)

end Ask

/-! ## The invariant -/

/-- The server waits for a new line, and the last octet it took was the end of an answer. -/
structure Ready {σ : Type} (preserve : Bool) (w : Wire Getline (Perl σ)) : Prop where
  mode : ∃ s, w.mode = .line s .init ∧ s.preserve = preserve
  answered : w.answered = true

theorem Ready.drop {σ : Type} {p : Bool} {w : Wire Getline (Perl σ)} (h : Ready p w) (n : ℕ) :
    Ready p (w.drop n) :=
  ⟨h.mode, h.answered⟩

/-- The connection between two calls. -/
structure Aftermath {σ : Type} (preserve : Bool) (info : Info) (w : Wire Getline (Perl σ)) :
    Prop where
  sock : info.sock = true
  write : info.garbageWrite = 0
  ready : Ready preserve w
  /-- data is only counted as left over when nothing is -/
  read : info.garbageRead ≠ 0 → info.garbage = true ∧ w.inbox = []
  clean : info.garbage = false → w.inbox = []

section Replies

variable {σ : Type} {os : OS σ} {home : Bytes} {p : Bool} {info : Info} {s : Perl σ}
  {w : Wire Getline (Perl σ)}

/-- A call that comes back leaves the connection as the invariant says. -/
abbrev Leaves (os : OS σ) (home : Bytes) (p : Bool) (t : Talk Fault Info)
    (w : Wire Getline (Perl σ)) : Prop :=
  t.Post (perlServer os home) READLNBUF_SIZE (Aftermath p) w

/-- Between two calls with nothing left over: nothing is in `readlnbuf`, `info->garbage` is clear,
and so are both its counts. -/
structure Fresh (info : Info) : Prop where
  clean : info.Clean
  read : info.garbageRead = 0
  write : info.garbageWrite = 0

theorem leaves_ret (hf : Fresh info) (hr : Ready p w)
    (hw : w.bytes = []) : Leaves os home p (.ret info) w :=
  Talk.post_ret ⟨hf.clean.sock, hf.write, hr, fun h => absurd hf.read h,
    fun _ => Wire.inbox_eq_nil hw⟩

/-- Data left over, for `shell_read`; nothing is. -/
theorem leaves_setGarbage (hf : Fresh info) (hr : Ready p w)
    (hw : w.bytes = []) (count : ℕ) : Leaves os home p (.ret (info.setGarbage false count)) w :=
  Talk.post_ret ⟨hf.clean.sock, hf.write, hr, fun _ => ⟨rfl, Wire.inbox_eq_nil hw⟩,
    fun h => by cases h⟩

/-- Lines left over, for `shell_readlink` and `shell_statfs`. -/
theorem leaves_garbage (hf : Fresh info) (hr : Ready p w) :
    Leaves os home p (.ret { info with garbage := true }) w :=
  Talk.post_ret ⟨hf.clean.sock, hf.write, hr, fun h => absurd hf.read h,
    fun h => by cases h⟩

/-! ## The subs with one status line -/

/-- One status line, and back to the main loop. -/
def OneLine (p : Bool) (proc : Proc (Perl σ)) : Prop :=
  ∃ code s', proc = Perl.answer s' code ∧ code < 1000 ∧ s'.preserve = p

theorem oneLine_answer {code : ℕ} (hcode : code < 1000) (hp : s.preserve = p) :
    OneLine p (s.answer code) :=
  ⟨code, s, rfl, hcode, hp⟩

theorem oneLine_change {code : ℕ} (hcode : code < 1000) (hp : s.preserve = p) (r : Bool × σ) :
    OneLine p (s.change r code) := by
  refine ⟨_, _, rfl, ?_, hp⟩
  split
  · decide
  · exact hcode

/-- Every command of `do_command` is answered with one status line. -/
theorem oneLine_command (hp : s.preserve = p) (c : Call) (args : List Bytes) :
    OneLine p (s.runCommand os home c.name args) := by
  cases c with
  | «open» file mode =>
    change OneLine p (s.sOpen os args)
    unfold Perl.sOpen
    dsimp only
    repeat' split
    all_goals exact oneLine_answer (by decide) hp
  | mkdir dir => exact oneLine_change (by decide) hp _
  | rmdir dir =>
    change OneLine p (s.sRmdir os args)
    unfold Perl.sRmdir
    split
    · exact oneLine_answer (by decide) hp
    · exact oneLine_change (by decide) hp _
  | rename old new =>
    change OneLine p (s.sMv os args)
    refine oneLine_change ?_ hp _
    split <;> decide
  | unlink file =>
    change OneLine p (s.sRm os args)
    refine oneLine_change ?_ hp _
    split <;> decide
  | finish => exact oneLine_answer (by decide) hp
  | create file mode => exact oneLine_change (by decide) hp _
  | link old new => exact oneLine_change (by decide) hp _
  | symlink old new => exact oneLine_change (by decide) hp _
  | chmod file mode => exact oneLine_change (by decide) hp _
  | chown file user => exact oneLine_change (by decide) hp _
  | chgrp file group => exact oneLine_change (by decide) hp _
  | trunc file size => exact oneLine_change (by decide) hp _
  | settime file which tvSec => exact oneLine_change (by decide) hp _

/-! ## Reading the replies -/

theorem leaves_commandReply (hf : Fresh info) (hr : Ready p w)
    {code : ℕ} (hcode : code < 1000) (hw : w.bytes = status code) (line : Bytes) :
    Leaves os home p (commandReply line info fun _ info => .ret info) w := by
  refine post_sockReadln_last hf.clean hcode hw fun n hn => ?_
  exact leaves_ret hf (hr.drop n) hn

/-- A stream of lines up to here. -/
def EndsLine (out : Bytes) : Prop := out = [] ∨ out.getLast? = some nl

theorem EndsLine.drop {out : Bytes} (h : EndsLine out) (n : ℕ) : EndsLine (out.drop n) := by
  by_cases hn : out.length ≤ n
  · exact Or.inl (List.drop_eq_nil_of_le hn)
  · rcases h with rfl | h
    · exact Or.inl (by simp)
    · exact Or.inr (by rw [List.getLast?_drop, if_neg hn, h])

theorem endsLine_flatMap (es : List Bytes) : EndsLine (es.flatMap fun e => e ++ [nl]) := by
  rcases List.eq_nil_or_concat es with rfl | ⟨init, e, rfl⟩
  · exact Or.inl rfl
  · exact Or.inr (by simp [List.flatMap_append])

/-- A listing that is not at its end has another line. -/
theorem EndsLine.nextLine {out : Bytes} (h : EndsLine out) (hne : out ≠ []) :
    ∃ l n, Lib.nextLine READLNBUF_SIZE out = some (l, n) := by
  have hmem : nl ∈ out := List.mem_of_getLast? (h.resolve_left hne)
  rcases hn : Lib.nextLine READLNBUF_SIZE out with _ | ⟨l, n⟩
  · exact absurd hmem (nextLine_eq_none_iff.mp hn).1
  · exact ⟨l, n, rfl⟩

/-- The loop of `do_ls` over a plain listing: it reads every line, and then the status line. -/
theorem leaves_lsReply (hf : Fresh info) (hr : Ready p w)
    {more : List Bytes → Bool} {acc : List Bytes} {out : Bytes} {code : ℕ} (hcode : code < 1000)
    (hend : lsResult code ≠ none) (hw : w.bytes = out ++ status code) (hout : EndsLine out)
    (hplain : ListingPlain more acc (lines READLNBUF_SIZE out)) (fuel : ℕ) :
    Leaves os home p (lsReply (Ask.entry more) fuel acc info fun _ _ info => .ret info) w := by
  induction fuel generalizing acc out w with
  | zero => exact Talk.post_spin
  | succ fuel ih =>
    rw [lsReply]
    by_cases hne : out = []
    · subst hne
      refine post_sockReadln_last hf.clean hcode (by simpa using hw)
        fun n hn => ?_
      have htext : statusText code ≠ [] := by simp [statusText, ascii]
      obtain ⟨result, hresult⟩ := Option.ne_none_iff_exists'.mp hend
      simp only [if_neg htext, reply_statusText (show code < 2 ^ 32 by omega), hresult]
      exact leaves_ret hf (hr.drop n) hn
    · obtain ⟨l, n, hline⟩ := hout.nextLine hne
      have hle := nextLine_le_length hline
      refine post_sockReadln hf.clean fun l' n' hn => ?_
      rw [hw, nextLine_append hline] at hn
      obtain ⟨rfl, rfl⟩ := Prod.mk.inj (Option.some.inj hn)
      rw [lines_of_nextLine (by decide) hline] at hplain
      obtain ⟨⟨hs, hnone, hmore⟩, hrest⟩ := hplain
      simp only [if_neg hs, hnone, Ask.entry, hmore, if_true]
      refine ih (hr.drop n) ?_ (hout.drop n) hrest
      rw [Wire.drop_bytes, hw, List.drop_append_of_le_length hle]

/-- The data of a read, and the status line behind it. -/
theorem leaves_dataReply (hf : Fresh info) (hr : Ready p w)
    {count code : ℕ} {data : Bytes} (hcode : code < 1000) (hw : w.bytes = data ++ status code)
    (hdata : data.length = count) :
    Leaves os home p (dataReply count info fun _ info => .ret info) w := by
  refine post_sockRead hf.clean fun _ => ?_
  have hdrop : (w.drop count).bytes = status code := by
    rw [Wire.drop_bytes, hw, ← hdata, List.drop_left]
  exact post_sockReadln_last hf.clean hcode hdrop fun n hn =>
    leaves_ret hf ((hr.drop count).drop n) hn

/-- A reply to `shell_read` or `shell_write` other than PRELIM. -/
theorem leaves_readReply_code (hf : Fresh info) (hr : Ready p w) {code : ℕ} (hcode : code < 1000)
    (hne : code ≠ REP_PRELIM) (hw : w.bytes = status code) (count : ℕ) (ino : UInt64) :
    Leaves os home p (readReply count ino info fun _ info => .ret info) w := by
  refine post_sockReadln_last hf.clean hcode hw fun n hn => ?_
  simp only [reply_statusText (show code < 2 ^ 32 by omega), if_neg hne]
  split
  · exact leaves_ret hf (hr.drop n) hn
  · split
    · exact leaves_ret hf (hr.drop n) hn
    · exact leaves_setGarbage hf (hr.drop n) hn count

theorem leaves_writeReply_code (hf : Fresh info) (hr : Ready p w) {code : ℕ} (hcode : code < 1000)
    (hne : code ≠ REP_PRELIM) (hw : w.bytes = status code) (count : ℕ) (data : Bytes) :
    Leaves os home p (writeReply count data info fun _ info => .ret info) w := by
  refine post_sockReadln_last hf.clean hcode hw fun n hn => ?_
  simp only [reply_statusText (show code < 2 ^ 32 by omega), if_neg hne]
  split
  · exact leaves_ret hf (hr.drop n) hn
  · split
    · exact leaves_ret hf (hr.drop n) hn
    · exact leaves_ret hf (hr.drop n) hn

/-- The status line behind the data of a write; the Perl server never says ENOSPC. -/
theorem leaves_writtenReply (hf : Fresh info) (hr : Ready p w)
    {code : ℕ} (hcode : code < 1000) (hne : code ≠ REP_ENOSPC) (hw : w.bytes = status code)
    (count : ℕ) : Leaves os home p (writtenReply count info fun _ info => .ret info) w := by
  refine post_sockReadln_last hf.clean hcode hw fun n hn => ?_
  simp only [reply_statusText (show code < 2 ^ 32 by omega), if_neg hne]
  exact leaves_ret hf (hr.drop n) hn

/-- The last line of a link or of the numbers of `statfs`. -/
theorem leaves_textReply {ρ : Type} (r : ρ) (hf : Fresh info) (hr : Ready p w)
    (hw : w.bytes = status 200) :
    Leaves os home p (textReply r info fun _ info => .ret info) w := by
  refine post_sockReadln_last hf.clean (show 200 < 1000 by decide) hw
    fun n hn => ?_
  simp only [reply_statusText (show 200 < 2 ^ 32 by decide), if_true]
  exact leaves_ret hf (hr.drop n) hn

/-- The data of a slow read: the number and the data are read as `SlowPlain` says. -/
theorem leaves_slowReply (hf : Fresh info) (hr : Ready p w)
    {data : Bytes} (hw : w.bytes = status 100 ++ (dec data.length ++ data ++ status 200))
    (hplain : SlowPlain data) (count : ℕ) {ino : UInt64} (hino : ino ≠ 0) :
    Leaves os home p (readReply count ino info fun _ info => .ret info) w := by
  refine post_sockReadln_status hf.clean (show 100 < 1000 by decide) hw fun n₁ hn₁ => ?_
  simp only [reply_statusText (show 100 < 2 ^ 32 by decide), if_true, if_pos hino]
  refine post_sockReadln hf.clean fun l n hn => ?_
  refine post_sockRead hf.clean fun _ => ?_
  refine post_sockReadln hf.clean fun l' n' hn' => ?_
  rw [hn₁] at hn
  rw [Wire.drop_bytes, Wire.drop_bytes, hn₁] at hn'
  refine leaves_ret hf ((((hr.drop n₁).drop n).drop _).drop n') ?_
  rw [Wire.drop_bytes, Wire.drop_bytes, Wire.drop_bytes, hn₁, List.drop_drop]
  exact hplain l n hn l' n' hn'

/-- The target of a link, and the status line behind it. -/
theorem leaves_readlinkReply (hf : Fresh info) (hr : Ready p w)
    {target : Bytes} (hw : w.bytes = target ++ [nl] ++ status 200) (hplain : TargetPlain target) :
    Leaves os home p (readlinkReply info fun _ info => .ret info) w := by
  have hends : EndsLine (target ++ [nl]) := Or.inr (by simp)
  obtain ⟨l, n, hline⟩ := hends.nextLine (by simp)
  obtain ⟨hfirst, hsecond⟩ := hplain l n hline
  have hle := nextLine_le_length hline
  refine post_sockReadln hf.clean fun l' n' hn => ?_
  rw [hw, nextLine_append hline] at hn
  obtain ⟨rfl, rfl⟩ := Prod.mk.inj (Option.some.inj hn)
  have hdrop : (w.drop n).bytes = (target ++ [nl]).drop n ++ status 200 := by
    rw [Wire.drop_bytes, hw, List.drop_append_of_le_length hle]
  rw [EndsReadlink, not_or] at hfirst
  simp only [if_neg hfirst.1, if_neg hfirst.2]
  by_cases hnil : (target ++ [nl]).drop n = []
  · rw [hnil, List.nil_append] at hdrop
    exact leaves_textReply _ hf (hr.drop n) hdrop
  · obtain ⟨l₂, n₂, hline₂⟩ := (hends.drop n).nextLine hnil
    refine post_sockReadln hf.clean fun l' n' hn => ?_
    rw [hdrop, nextLine_append hline₂] at hn
    obtain ⟨rfl, rfl⟩ := Prod.mk.inj (Option.some.inj hn)
    have := hsecond l₂ n₂ hline₂
    rw [EndsReadlink, not_or] at this
    simp only [if_neg this.1, if_neg this.2]
    exact leaves_garbage hf ((hr.drop n).drop n₂)

/-- The line of numbers, and the status line behind it. -/
theorem leaves_statfsReply (hf : Fresh info) (hr : Ready p w)
    {line : Bytes} (hnl : nl ∉ line) (hlen : line.length < READLNBUF_SIZE)
    (hw : w.bytes = line ++ [nl] ++ status 200) :
    Leaves os home p (statfsReply info fun _ info => .ret info) w := by
  refine post_sockReadln hf.clean fun l n hn => ?_
  rw [hw, List.append_assoc, List.cons_append, nextLine_of_fits hnl hlen] at hn
  obtain ⟨rfl, rfl⟩ := Prod.mk.inj (Option.some.inj hn)
  refine leaves_textReply _ hf (hr.drop _) ?_
  rw [Wire.drop_bytes, hw, show line.length + 1 = (line ++ [nl]).length by simp, List.drop_left]

end Replies

end Shfs
