import Shfs.CutShort
import Shfs.Callers
import Shfs.Lib.Breaks

/-!
# A mount that gets new connections

With `persistent`, `shfsmount` starts another server when the connection is lost, and passes it to
the mounted file system with `SHFS_IOC_NEWCONN`. In the meantime the calls fail, and one of them may
have been under way: its caller gets an error, and cannot know what the server has done.

`Persistent.Step` is what happens to such a mount: a call, on a connection that may break anywhere,
or a new connection. `Attempt` is the same for somebody who only knows of system calls.
`at_most_once` compares the two: a call that does not fail has been made once; a call that fails has
been made once or not at all, or has written the front of its data; and nothing else happens on the
machine of the server. A line that is cut short is where this ends (`Request.CutHarmless`), and so
are octets that the new connection finds in `readlnbuf`.
-/

namespace Shfs

open Lib

/-! ## Breaking off -/

/-- An error is returned. -/
def Outcome.Failed : Outcome → Prop
  | .code (.error _) | .listing (.error _) _ | .data (.error _) | .link (.error _) | .numbers
      (.error _) => True
  | _ => False

theorem Ask.failed_failed (e : Errno) (a : Ask) : (a.failed e).Failed := by
  cases a <;> trivial

/-- A call that has failed, and has given the socket up. -/
def BrokenOff (x : Outcome × Info) : Prop := x.1.Failed ∧ x.2.sock = false

section Transfers

variable {β : Type} {info : Info} {f : Fault} {Q : β → Prop}

/-- What a function does with an error of a transfer. -/
def QuitsOn {ρ : Type} (k : Cont ρ β) (Q : β → Prop) : Prop :=
  ∀ e info, info.sock = false → ∃ b, k (.error e) info = .ret b ∧ Q b

theorem quits_sockReadln (hc : info.Clean) {count : ℕ} {k : Cont Bytes β} (hk : QuitsOn k Q)
    (hok : ∀ s, (k (.ok s) info).Quits f Q) : (sockReadln count info k).Quits f Q := by
  rw [sockReadln_clean hc]
  exact ⟨hk _ _ rfl, fun l => hok _⟩

theorem quits_sockRead (hc : info.Clean) {count : ℕ} {k : Cont Bytes β} (hk : QuitsOn k Q)
    (hok : ∀ bs, (k (.ok bs) info).Quits f Q) : (sockRead count info k).Quits f Q := by
  rw [sockRead_clean hc]
  exact ⟨hk _ _ rfl, hok⟩

theorem quits_sockWrite (hc : info.Clean) {bs : Bytes} {k : Cont Unit β} (hk : QuitsOn k Q)
    (hok : (k (.ok ()) info).Quits f Q) : (sockWrite bs info k).Quits f Q := by
  rw [sockWrite_clean hc]
  exact ⟨hk _ _ rfl, hok⟩

theorem listens_sockReadln (hc : info.Clean) {count : ℕ} {k : Cont Bytes β}
    (hok : ∀ s, (k (.ok s) info).Listens) : (sockReadln count info k).Listens := by
  rw [sockReadln_clean hc]
  exact fun l => hok _

theorem listens_sockRead (hc : info.Clean) {count : ℕ} {k : Cont Bytes β}
    (hok : ∀ bs, (k (.ok bs) info).Listens) : (sockRead count info k).Listens := by
  rw [sockRead_clean hc]
  exact hok

/-- `sock_readln` on a status line. -/
theorem leaves_sockReadln_status {G S : Type} {srv : Server G S}
    (hc : info.Clean) {k : Cont Bytes β} {code : ℕ} (hcode : code < 1000) {w : Wire G S}
    {rest : Bytes} (hw : w.bytes = status code ++ rest) {m : ℕ} {mode : Lib.Mode G S}
    (h : (sockReadln SOCKBUF_SIZE info k).Leaves srv READLNBUF_SIZE m mode w) :
    mode = w.mode ∨
      (k (.ok (statusText code)) info).Leaves srv READLNBUF_SIZE m mode (pastStatus w code) := by
  have hline : nextLine READLNBUF_SIZE w.bytes =
      some (statusText code, (statusText code).length + 1) := by
    rw [hw, status_eq, List.append_assoc, List.singleton_append]
    exact nextLine_of_fits (nl_notMem_statusText code) (length_statusText_lt hcode)
  have htake := take_cstr hline
  rw [cstr_eq_self (zero_notMem_statusText code)] at htake
  rw [sockReadln_clean hc] at h
  rcases h with rfl | ⟨l, n, hn, h⟩
  · exact .inl rfl
  · obtain ⟨rfl, rfl⟩ := Prod.mk.inj (Option.some.inj (hline.symm.trans hn))
    dsimp only at h
    rw [cstr_eq_self (zero_notMem_statusText code), htake] at h
    exact .inr h

end Transfers

section Awaiting

variable {info : Info} {f : Fault} {line : Bytes}

/-- The end of `shell_read`. -/
theorem quits_dataReply (hc : info.Clean) (count : ℕ) :
    (dataReply count info (ending .data)).Quits f BrokenOff := by
  unfold dataReply
  refine quits_sockRead hc (fun e info hs => ⟨_, rfl, trivial, hs⟩) fun bs => ?_
  exact quits_sockReadln hc (fun e info hs => ⟨_, rfl, trivial, hs⟩) fun s => trivial

theorem listens_dataReply (hc : info.Clean) (count : ℕ) :
    (dataReply count info (ending .data)).Listens := by
  unfold dataReply
  exact listens_sockRead hc fun bs => listens_sockReadln hc fun s => trivial

/-- The loop of `do_ls`. -/
theorem quits_lsReply (hc : info.Clean) (more : List Bytes → Bool) (fuel : ℕ) (acc : List Bytes) :
    (lsReply (Ask.entry more) fuel acc info listingEnd).Quits f BrokenOff := by
  induction fuel generalizing acc with
  | zero => trivial
  | succ fuel ih =>
    rw [lsReply]
    refine quits_sockReadln hc (fun e info hs => ⟨_, rfl, trivial, hs⟩) fun s => ?_
    dsimp only
    split
    · trivial
    · split
      · trivial
      · split
        · exact ih _
        · trivial

theorem listens_lsReply (hc : info.Clean) (more : List Bytes → Bool) (fuel : ℕ) (acc : List Bytes) :
    (lsReply (Ask.entry more) fuel acc info listingEnd).Listens := by
  induction fuel generalizing acc with
  | zero => trivial
  | succ fuel ih =>
    rw [lsReply]
    refine listens_sockReadln hc fun s => ?_
    dsimp only
    split
    · trivial
    · split
      · trivial
      · split
        · exact ih _
        · trivial

/-- The end of `shell_readlink` and of `shell_statfs`. -/
theorem quits_textReply (hc : info.Clean) {ρ : Type} {outcome : Except Errno ρ → Outcome}
    (h : ∀ e, (outcome (.error e)).Failed) (r : ρ) :
    (textReply r info (ending outcome)).Quits f BrokenOff := by
  unfold textReply
  refine quits_sockReadln hc (fun e info hs => ⟨_, rfl, h e, hs⟩) fun s => ?_
  dsimp only
  split
  · trivial
  · split <;> trivial

theorem listens_textReply (hc : info.Clean) {ρ : Type} {outcome : Except Errno ρ → Outcome}
    (r : ρ) :
    (textReply r info (ending outcome)).Listens := by
  unfold textReply
  refine listens_sockReadln hc fun s => ?_
  dsimp only
  split
  · trivial
  · split <;> trivial

namespace Ask

/-- **Whatever it waits for**, a call comes back at the first fault. What `do_command` sees then is
its own line. -/
theorem quits_await (hc : info.Clean) (hline : Shfs.reply line = 0) (a : Ask) :
    (a.await line info).Quits f BrokenOff := by
  -- every transfer of a reply is checked, and its error handed on; none of the functions sends or
  -- reads anything behind it
  cases a with
  | command c =>
    change (commandReply line info (ending .code)).Quits f BrokenOff
    unfold commandReply
    refine quits_sockReadln hc (fun e info hs => ⟨_, rfl, ?_, hs⟩) fun s => trivial
    rw [hline]
    trivial
  | ls stat file more fuel => exact quits_lsReply hc more fuel []
  | read file offset count ino =>
    change (readReply count.toNat ino info (ending .data)).Quits f BrokenOff
    unfold readReply
    refine quits_sockReadln hc
      (fun e info hs => ⟨_, rfl, trivial, (Info.setGarbage_sock ..).trans hs⟩)
      fun s => ?_
    dsimp only
    split
    · split
      · refine quits_sockReadln hc (fun e info hs => ⟨_, rfl, trivial, hs⟩) fun s => ?_
        exact quits_dataReply hc _
      · exact quits_dataReply hc _
    · split
      · trivial
      · split <;> trivial
  | write file offset data hdata ino =>
    change (writeReply (UInt32.ofNat data.length).toNat data info (ending .code)).Quits f BrokenOff
    unfold writeReply writtenReply
    refine quits_sockReadln hc
      (fun e info hs => ⟨_, rfl, trivial, (Info.setGarbage_sock ..).trans hs⟩)
      fun s => ?_
    dsimp only
    split
    · refine quits_sockWrite hc (fun e info hs => ⟨_, rfl, trivial, hs⟩) ?_
      refine quits_sockReadln hc (fun e info hs => ⟨_, rfl, trivial, hs⟩) fun s => ?_
      dsimp only
      split <;> trivial
    · split
      · trivial
      · split <;> trivial
  | readlink name realName =>
    change (readlinkReply info (ending .link)).Quits f BrokenOff
    unfold readlinkReply
    refine quits_sockReadln hc (fun e info hs => ⟨_, rfl, trivial, hs⟩) fun s => ?_
    dsimp only
    split
    · trivial
    · split
      · trivial
      · exact quits_textReply hc
          (show ∀ e, (Outcome.link (.error e)).Failed from fun _ => trivial) _
  | statfs =>
    change (statfsReply info (ending .numbers)).Quits f BrokenOff
    unfold statfsReply
    refine quits_sockReadln hc (fun e info hs => ⟨_, rfl, trivial, hs⟩) fun s => ?_
    exact quits_textReply hc (show ∀ e, (Outcome.numbers (.error e)).Failed from fun _ => trivial) _

/-- Only `shell_write` has more to send than its line. -/
def isWrite : Ask → Bool
  | write .. => true
  | _ => false

theorem listens_await (hc : info.Clean) {a : Ask} (ha : a.isWrite = false) :
    (a.await line info).Listens := by
  cases a with
  | command c =>
    change (commandReply line info (ending .code)).Listens
    unfold commandReply
    exact listens_sockReadln hc fun s => trivial
  | ls stat file more fuel => exact listens_lsReply hc more fuel []
  | read file offset count ino =>
    change (readReply count.toNat ino info (ending .data)).Listens
    unfold readReply
    refine listens_sockReadln hc fun s => ?_
    dsimp only
    split
    · split
      · exact listens_sockReadln hc fun s => listens_dataReply hc _
      · exact listens_dataReply hc _
    · split
      · trivial
      · split <;> trivial
  | write file offset data hdata ino => cases ha
  | readlink name realName =>
    change (readlinkReply info (ending .link)).Listens
    unfold readlinkReply
    refine listens_sockReadln hc fun s => ?_
    dsimp only
    split
    · trivial
    · split
      · trivial
      · exact listens_textReply hc _
  | statfs =>
    change (statfsReply info (ending .numbers)).Listens
    unfold statfsReply
    exact listens_sockReadln hc fun s => listens_textReply hc _

end Ask

end Awaiting

/-! ## The end of the input -/

section Ended

variable {σ : Type} (os : OS σ) (home : Bytes)

/-- The file system when the input has ended, and the server has run to its end: the main loop gets
the words that are complete, and a read what there is. -/
def Perl.ended : Mode Getline (Perl σ) → σ
  | .line s g => if g.args = [] then s.fs else ((s.mainLoop os home g.args).drain []).1.fs
  | .raw _ got k => ((k got).drain []).1.fs

variable {os home}

/-- Where the server ends in the middle of a line: in the file system of `Perl.ended`, which is that
of the words that are complete. So what `cut_short` proves of a line that is cut, on `Perl.serve`,
holds of a server whose connection has broken. -/
theorem Perl.ended_line {s s' : Perl σ} {g : Getline} {input : Bytes}
    (hscan : scan getlineStep .init input = .inl g)
    (h : s.serve os home (input.length + 1) input = some s') : ended os home
    (.line s g) = s'.fs := by
  have hline : getline input = if g.args = [] then .exit else .line g.args [] := by
    rw [getline, hscan]
  rw [ended]
  split at hline
  · next hargs =>
    rw [if_pos hargs]
    rw [serve, hline] at h
    exact congrArg Perl.fs (Option.some.inj h)
  · next hargs =>
    rw [if_neg hargs]
    exact congrArg Perl.fs (Option.some.inj ((serve_last hline).symm.trans h))

/-- Every command word starts with an `s`. -/
theorem Request.name_head (r : Request) : r.name.head? = some 115 := by
  cases r with
  | command c => cases c <;> rfl
  | ls stat file => cases stat <;> rfl
  | read file offset count ino =>
    rw [name]
    split <;> rfl
  | _ => rfl

/-- A sent line is none of the status lines. -/
theorem Ask.reply_line {m : Mount} {cred : Cred} {a : Ask} (hfits : a.Fits m cred) {l : Bytes}
    (hl : a.line m cred = some l) : Shfs.reply l = 0 := by
  obtain rfl := (a.request m).line_eq_fullLine hfits.2 (line_sent hl)
  obtain ⟨t, ht⟩ := (a.request m).fullLine_eq m.preserveOwn cred
  obtain ⟨w, hw⟩ := List.head?_eq_some_iff.mp (a.request m).name_head
  rw [ht, hw, Shfs.reply, if_neg]
  rintro ⟨u, hu⟩
  cases hu

/-- The data of a write, all of them or the front of them, before the input ends. -/
theorem ended_take {s : Perl σ} {n code : ℕ} {write : Bytes → Bool × σ} {w : Wire Getline (Perl σ)}
    (hw : w.mode = ((Proc.take n fun d => s.change (write d) code).wire (perlServer os home)).mode)
    {d : Bytes} (hd : d.length ≤ n) :
    Perl.ended os home (w.feed (perlServer os home) d).mode = (write d).2 := by
  rw [Wire.feed_mode hw]
  rcases Nat.lt_or_eq_of_le hd with hlt | rfl
  · rw [Proc.wire_take_pos (Nat.zero_lt_of_lt hlt), Wire.feed_raw_lt hlt]
    rfl
  · rw [Wire.feed_take]
    rfl

end Ended

/-! ## A call that is broken off -/

section Broken

variable {σ : Type} (os : OS σ)

/-- A write of the first `k` octets; any other call has no front. -/
def Ask.front (s : Perl σ) (k : ℕ) : Ask → σ
  | .write file offset data _ _ =>
    if os.open' s.ids s.fs .wronly (s.path file.text) then
      (os.writeFile s.ids s.fs (s.path file.text) offset.toNat (data.take k)).2
    else s.fs
  | _ => s.fs

/-- What a call that has failed may have made of the file system: nothing, what it does, or what its
front does. -/
def Ask.InDoubt (m : Mount) (cred : Cred) (s : Perl σ) (a : Ask) (fs : σ) : Prop :=
  fs = s.fs ∨ fs = (a.effect os m cred s).2.fs ∨ ∃ k, fs = a.front os (a.switched m cred s) k

/-- Where a connection breaks: behind how many transfers of the call, with what error, and how much
of a write still gets through. -/
structure Break : Type where
  transfers : ℕ
  fault : Fault
  octets : ℕ

/-- The call on a connection that breaks there, or does not. -/
def Break.on {α : Type} (t : Talk Fault α) : Option Break → Talk Fault α
  | none => t
  | some b => t.breakAt b.fault b.octets b.transfers

variable {os} {home : Bytes} {m : Mount} {cred : Cred} {s : Perl σ} {info : Info}

namespace Ask

variable (home) in
/-- `shell_write`: wherever it is broken off behind its line, the front of the data has been
written. -/
theorem ended_write (hc : info.Clean) (m : Mount) {file : Path} {offset : UInt32} {data : Bytes}
    (hdata : data.length < 2 ^ 32) (ino : UInt64) (line : Bytes) {w : Wire Getline (Perl σ)}
    (hmode : w.mode = ((write file offset data hdata ino).served os home m s).mode)
    (hbytes : w.bytes = ((write file offset data hdata ino).served os home m s).bytes) :
    (∃ k, Perl.ended os home w.mode = (write file offset data hdata ino).front os s k) ∧
      ∀ k mode, ((write file offset data hdata ino).await line info).Leaves (perlServer os home)
        READLNBUF_SIZE k mode w →
          ∃ k, Perl.ended os home mode = (write file offset data hdata ino).front os s k := by
  obtain ⟨rest, hrest⟩ := write_values m file offset data hdata ino
  rw [served, hrest] at hmode hbytes
  change _ = ((s.sWrite os (file.text :: dec offset.toNat :: dec data.length :: rest)).wire _).mode
    at hmode
  change _ = ((s.sWrite os (file.text :: dec offset.toNat :: dec data.length :: rest)).wire _).bytes
    at hbytes
  unfold Perl.sWrite Perl.notOpen at hmode hbytes
  simp only [Perl.arg, List.getD_cons_zero, List.getD_cons_succ, decVal_dec_self, ite_not]
    at hmode hbytes
  by_cases hopen : os.open' s.ids s.fs .wronly (s.path file.text) = true
  · rw [if_pos hopen, Proc.wire_print_mode] at hmode
    rw [if_pos hopen, Proc.wire_print_bytes] at hbytes
    -- the server has printed PRELIM and takes the octets: what it has of them when the input ends
    -- is what it writes
    have hended : ∀ v : Wire Getline (Perl σ), v.mode = w.mode → ∀ k,
        Perl.ended os home (v.feed (perlServer os home) (data.take k)).mode =
          (write file offset data hdata ino).front os s k := by
      intro v hv k
      refine (ended_take (hv.trans hmode) (List.length_take_le' ..)).trans ?_
      rw [front, if_pos hopen]
    refine ⟨⟨0, hended w rfl 0⟩, fun k mode hleaves => ?_⟩
    change (writeReply _ data info (ending .code)).Leaves _ _ _ _ _ at hleaves
    unfold writeReply at hleaves
    rcases leaves_sockReadln_status hc (by decide) hbytes hleaves with rfl | hleaves
    · exact ⟨0, hended w rfl 0⟩
    simp only [reply_statusText (show 100 < 2 ^ 32 by decide), if_true] at hleaves
    rw [sockWrite_clean hc] at hleaves
    rcases hleaves with rfl | hleaves
    · exact ⟨k, hended (pastStatus w 100) rfl k⟩
    · have hlistens :
          (writtenReply (UInt32.ofNat data.length).toNat info (ending .code)).Listens := by
        unfold writtenReply
        refine listens_sockReadln hc fun s => ?_
        dsimp only
        split <;> trivial
      rw [hlistens.leaves_eq hleaves]
      have hall := hended (pastStatus w 100) rfl data.length
      rw [List.take_length] at hall
      exact ⟨_, hall⟩
  · rw [if_neg hopen] at hmode hbytes
    -- the file may not be opened, so nothing is written whatever the client does
    have hfront : ∀ k, (write file offset data hdata ino).front os s k = s.fs :=
      fun k => if_neg hopen
    have hended : Perl.ended os home w.mode = s.fs := by
      rw [hmode]
      rfl
    refine ⟨⟨0, hended.trans (hfront 0).symm⟩, fun k mode hleaves => ?_⟩
    change (writeReply _ data info (ending .code)).Leaves _ _ _ _ _ at hleaves
    unfold writeReply at hleaves
    rw [Perl.answer_bytes] at hbytes
    have hsame : mode = w.mode := by
      generalize hcode : (if os.exists' s.ids s.fs (s.path file.text) then 501 else 200) =
        code at hbytes
      have hlt : code < 1000 ∧ code ≠ REP_PRELIM := by
        subst hcode
        split <;> decide
      rcases leaves_sockReadln_status hc hlt.1 (hbytes.trans (List.append_nil _).symm) hleaves with
        hsame | hleaves
      · exact hsame
      · simp only [reply_statusText (show code < 2 ^ 32 by omega), if_neg hlt.2] at hleaves
        split at hleaves
        · exact hleaves.elim
        · split at hleaves <;> exact hleaves.elim
    exact ⟨0, by rw [hsame, hended, hfront]⟩

variable (os home) in
/-- The server with the whole line. -/
theorem feed_call (hp : s.preserve = m.preserveOwn) {a : Ask} (hfits : a.Fits m cred) {l : Bytes}
    (hl : a.line m cred = some l) {w : Wire Getline (Perl σ)} (hw : Idle .init s w) :
    w.feed (perlServer os home) l = a.served os home m (a.switched m cred s) := by
  obtain ⟨mode, inbox, answered⟩ := w
  obtain ⟨rfl, rfl, -⟩ := hw
  have hscan : scan (perlServer os home).step .init l = _ := scan_line hfits hl
  rw [served, ← a.mainLoop_sent m cred hp, Wire.feed_line_inr hscan]
  rfl

variable (home info) in
/-- Broken off behind its line, a call is in doubt. -/
theorem inDoubt_await (hc : info.Clean) {a : Ask} (ho : a.Orderly os (a.switched m cred s))
    {l : Bytes} (hl : a.line m cred = some l) :
    a.InDoubt os m cred s (Perl.ended os home (a.served os home m (a.switched m cred s)).mode) ∧
      ∀ k mode, (a.await l info).Leaves (perlServer os home) READLNBUF_SIZE k mode
          (a.served os home m (a.switched m cred s)) →
        a.InDoubt os m cred s (Perl.ended os home mode) := by
  cases ha : a.isWrite with
  | false =>
    have hlistens : (a.await l info).Listens := listens_await hc ha
    have hgives : Gives (perlServer os home) (a.await l info)
        (a.served os home m (a.switched m cred s)) _ _ :=
      await_gives hc m ho l
    obtain ⟨w', hrun, hmode, -⟩ := hgives
    have hended : Perl.ended os home (a.served os home m (a.switched m cred s)).mode =
        (a.effect os m cred s).2.fs := by
      rw [← hlistens.run_mode hrun, hmode, effect, hl, if_neg (Option.some_ne_none l)]
      rfl
    refine ⟨.inr (.inl hended), fun k mode hleaves => .inr (.inl ?_)⟩
    rw [hlistens.leaves_eq hleaves, hended]
  | true =>
    cases a with
    | write file offset data hdata ino =>
      obtain ⟨hfirst, hbehind⟩ := ended_write home hc m hdata ino l rfl rfl
      exact ⟨.inr (.inr hfirst), fun k mode hleaves => .inr (.inr (hbehind k mode hleaves))⟩
    | _ => cases ha

/-- A line that is cut without any harm. -/
theorem ended_cut (hos : os.Idle) (hp : s.preserve = m.preserveOwn) {a : Ask}
    (hfits : a.Fits m cred) {l : Bytes} (hl : a.line m cred = some l) {k : ℕ} (hk : k < l.length)
    (hharmless : (a.request m).CutHarmless m.preserveOwn cred k) {w : Wire Getline (Perl σ)}
    (hw : Idle .init s w) : Perl.ended os home (w.feed (perlServer os home) (l.take k)).mode =
    s.fs := by
  obtain ⟨mode, inbox, answered⟩ := w
  obtain ⟨rfl, rfl, -⟩ := hw
  have hscan := scan_line hfits hl
  rw [← List.take_append_drop k l] at hscan
  obtain ⟨g, hg⟩ := scan_front hscan (List.ne_nil_of_length_pos (by rw [List.length_drop]; omega))
  have hfull := (a.request m).line_eq_fullLine hfits.2 (line_sent hl)
  have huntouched := (a.request m).untouched_of_harmless hharmless (hfull ▸ hk)
  rw [← hfull] at huntouched
  obtain ⟨s', hserve, hfs⟩ := huntouched σ os hos home s hp
  rw [Wire.feed_line_inl (show scan (perlServer os home).step .init _ = _ from hg)]
  exact (Perl.ended_line hg hserve).trans hfs

/-- The line of the call is not cut where that does harm. -/
def CutWell (m : Mount) (cred : Cred) (a : Ask) (broken : Option Break) : Prop :=
  ∀ b l, broken = some b → b.transfers = 0 → a.line m cred = some l → b.octets < l.length →
    (a.request m).CutHarmless m.preserveOwn cred b.octets

/-- **A call on a connection that may break** comes back: with what it does, or with an error, and
in doubt. -/
theorem tries_run (hos : os.Idle) (hf : Fresh info) (hp : s.preserve = m.preserveOwn) {a : Ask}
    (ho : a.line m cred ≠ none → a.Fits m cred ∧ a.Orderly os (a.switched m cred s))
    {broken : Option Break} (hcut : a.CutWell m cred broken) {w : Wire Getline (Perl σ)}
    (hw : Idle .init s w) :
    ∃ r info' w', (Break.on (a.call m cred info) broken).run (perlServer os home) READLNBUF_SIZE w =
        .inl ((r, info'), w') ∧
      (r = (a.effect os m cred s).1 ∧ info' = info ∧ Idle .init (a.effect os m cred s).2 w' ∨
        broken ≠ none ∧ r.Failed ∧ info'.sock = false ∧
          a.InDoubt os m cred s (Perl.ended os home w'.mode)) := by
  have hgives : Gives (perlServer os home) (a.call m cred info) w _ _ := call_gives hf hp ho hw
  obtain ⟨w', hrun, hmode, hinbox, hanswered⟩ := hgives
  have hidle : Idle .init (a.effect os m cred s).2 w' := ⟨hmode, hinbox, hanswered⟩
  rcases broken with _ | ⟨n, f, k⟩
  · exact ⟨_, _, w', hrun, .inl ⟨rfl, rfl, hidle⟩⟩
  rcases hl : a.line m cred with _ | l
  · rw [call_eq, exchange, hl] at hrun ⊢
    exact ⟨_, _, w', by cases n <;> exact hrun, .inl ⟨rfl, rfl, hidle⟩⟩
  obtain ⟨hfits, horderly⟩ := ho (by rw [hl]; exact Option.some_ne_none l)
  have hfeed := feed_call os home hp hfits hl hw
  obtain ⟨hline, hbehind⟩ := inDoubt_await home info hf.clean horderly hl
  rw [call_eq, exchange, hl, sendLine, sockWrite_clean hf.clean, send] at hrun ⊢
  cases n with
  | zero =>
    refine ⟨a.failed f.errno, info.fail true l.length, w.feed (perlServer os home) (l.take k), rfl,
      .inr ⟨Option.some_ne_none _, failed_failed .., rfl, ?_⟩⟩
    rcases Nat.lt_or_ge k l.length with hk | hk
    · exact .inl (ended_cut hos hp hfits hl hk (hcut ⟨0, f, k⟩ l rfl rfl hl hk) hw)
    · rw [List.take_of_length_le hk, hfeed]
      exact hline
  | succ n =>
    rw [Talk.run, hfeed] at hrun
    obtain ⟨⟨r, info'⟩, v, hbreak, hcases⟩ := Talk.break_cases
      (quits_await (f := f) hf.clean (reply_line hfits hl) a) hrun k n
    refine ⟨r, info', v, ?_, ?_⟩
    · change Talk.run _ _ (Talk.breakAt f k n (a.await l info)) (w.feed _ l) = _
      rw [hfeed]
      exact hbreak
    · rcases hcases with ⟨hsame, rfl⟩ | ⟨⟨hfailed, hsock⟩, hleaves⟩
      · obtain ⟨rfl, rfl⟩ := Prod.mk.inj hsame
        exact .inl ⟨rfl, rfl, hidle⟩
      · exact .inr ⟨Option.some_ne_none _, hfailed, hsock, hbehind k _ hleaves⟩

end Ask

end Broken

/-! ## One connection after another -/

/-- A mount with `persistent`: what the module keeps of the connection, and the server behind it. -/
structure Persistent (σ : Type) : Type where
  info : Info
  wire : Wire Getline (Perl σ)
  /-- what `sock_readln` has read ahead -/
  readlnbuf : Bytes

/-- What happens to it: a call, or `SHFS_IOC_NEWCONN`, with a socket if `create_socket` has returned
one. -/
inductive Persistent.Event : Type where
  | call (cred : Cred) (a : Ask) (broken : Option Break)
  | newConn (sock : Bool)

section Persistent

variable {σ : Type} (os : OS σ) (home : Bytes) (m : Mount) (s₀ : Perl σ)

/-- A fresh mount: a new connection, with nothing in `readlnbuf`. -/
def Persistent.new : Persistent σ := ⟨(Conn.new s₀).info, (Conn.new s₀).wire, []⟩

/-- An event, with what its caller gets. `shfsmount` waits for the end of the server that has lost
its connection before it starts the next one. -/
inductive Persistent.Step : Persistent σ → Event → Outcome → Persistent σ → Prop where
  | call (p : Persistent σ) (cred : Cred) (a : Ask) (broken : Option Break) (r : Outcome)
      (info : Info) (wire : Wire Getline (Perl σ)) (readlnbuf : Bytes)
      (run : (Break.on (a.call m cred p.info) broken).run (perlServer os home) READLNBUF_SIZE
        p.wire = .inl ((r, info), wire))
      (ahead : readlnbuf <+: wire.bytes) :
      Step p (.call cred a broken) r ⟨info, wire, readlnbuf⟩
  | newConn (p : Persistent σ) :
      Step p (.newConn true) (.code (.ok 0))
        ⟨⟨true, false, 0, 0⟩,
          ⟨.line { s₀ with fs := Perl.ended os home p.wire.mode } .init,
            cells false p.readlnbuf, true⟩,
          p.readlnbuf⟩
  | noConn (p : Persistent σ) :
      Step p (.newConn false) (.code (.ok 0)) { p with info := ⟨false, false, 0, 0⟩ }

/-- Calls whose line is sent as it is meant and is not cut where that does harm, and whose reply is
orderly; and no octets are left over for a new connection. -/
def Persistent.Safe (p : Persistent σ) : Event → Prop
  | .call cred a broken =>
    p.info.sock = true → ∀ s, p.wire.mode = .line s .init → a.CutWell m cred broken ∧
      (a.line m cred ≠ none → a.Fits m cred ∧ a.Orderly os (a.switched m cred s))
  | .newConn sock => sock = true → p.readlnbuf = []

/-- A run of such events, with what the callers got. -/
inductive Persistent.Runs : List (Event × Outcome) → Persistent σ → Prop where
  | new : Runs [] (new s₀)
  | step (l : List (Event × Outcome)) (p : Persistent σ) (e : Event) (r : Outcome)
      (p' : Persistent σ) (before : Runs l p) (safe : p.Safe os m e)
        (step : Step os home m s₀ p e r p') :
      Runs (l ++ [(e, r)]) p'

/-- The same for somebody who only knows of system calls on the machine of the server, and whether
there is a connection. -/
inductive Attempt : Persistent.Event → Bool × Perl σ → Outcome → Bool × Perl σ → Prop where
  | made (s : Perl σ) (cred : Cred) (a : Ask) (broken : Option Break) :
      Attempt (.call cred a broken) (true, s) (a.effect os m cred s).1
        (true, (a.effect os m cred s).2)
  | lost (s : Perl σ) (cred : Cred) (a : Ask) (b : Break) (r : Outcome) (fs : σ) (failed : r.Failed)
      (inDoubt : a.InDoubt os m cred s fs) :
      Attempt (.call cred a (some b)) (true, s) r (false, { s with fs := fs })
  | down (s : Perl σ) (cred : Cred) (a : Ask) (broken : Option Break) (r : Outcome)
      (failed : r.Failed) :
      Attempt (.call cred a broken) (false, s) r (false, s)
  | newConn (up : Bool) (s : Perl σ) :
      Attempt (.newConn true) (up, s) (.code (.ok 0)) (true, { s₀ with fs := s.fs })
  | noConn (up : Bool) (s : Perl σ) : Attempt (.newConn false) (up, s) (.code (.ok 0)) (false, s)

/-- The two compared: while there is a connection, it is quiet and the server is where the system
calls have left it; and without one, the file system is, once the server has come to the end of its
input. -/
structure Persistent.Stands (p : Persistent σ) (s : Perl σ) : Prop where
  preserve : s.preserve = m.preserveOwn
  up : p.info.sock = true → Fresh p.info ∧ Idle .init s p.wire
  down : p.info.sock = false → Perl.ended os home p.wire.mode = s.fs

variable {os home m s₀} {p p' : Persistent σ} {s : Perl σ}

/-- Without a socket, a call does not get to its first transfer. -/
theorem Ask.call_down {info : Info} (hsock : info.sock = false) (m : Mount) (cred : Cred)
    (a : Ask) :
    ∃ e, a.call m cred info = .ret (a.failed e, info) := by
  rw [call_eq, exchange]
  rcases a.line m cred with _ | l
  · exact ⟨.enametoolong, rfl⟩
  · exact ⟨.eio, by
      rw [sendLine, sockWrite, checked, if_neg (by rw [hsock]; exact Bool.false_ne_true)]⟩

theorem Break.on_ret {α : Type} (a : α) (broken : Option Break) : Break.on
    (.ret a) broken = .ret a := by
  rcases broken with _ | ⟨_ | n, f, k⟩ <;> rfl

namespace Persistent

/-- Where the machine is left when the server ends. -/
theorem Stands.ended (h : p.Stands os home m s) : Perl.ended os home p.wire.mode = s.fs := by
  cases hsock : p.info.sock with
  | false => exact h.down hsock
  | true =>
    rw [(h.up hsock).2.mode]
    rfl

/-- **One event** is one attempt on the machine of the server, and the two sides stand as before
behind it. The event is a call, whose connection may break in the middle of it, or
`SHFS_IOC_NEWCONN`. -/
theorem Stands.step (hos : os.Idle) (hp : s₀.preserve = m.preserveOwn) (h : p.Stands os home m s)
    {e : Event} (hsafe : p.Safe os m e) {r : Outcome} (hstep : Step os home m s₀ p e r p') :
    ∃ s', Attempt os m s₀ e (p.info.sock, s) r (p'.info.sock, s') ∧ p'.Stands os home m s' := by
  cases hstep with
  | call cred a broken _ info' w' readlnbuf hrun =>
    cases hsock : p.info.sock with
    | false =>
      obtain ⟨e, hcall⟩ := a.call_down hsock m cred
      rw [hcall, Break.on_ret] at hrun
      obtain ⟨hres, rfl⟩ := Prod.mk.inj (Sum.inl.inj hrun)
      obtain ⟨rfl, rfl⟩ := Prod.mk.inj hres
      refine ⟨s, ?_, h.preserve, h.up, h.down⟩
      dsimp only
      rw [hsock]
      exact .down s cred a broken _ (a.failed_failed e)
    | true =>
      obtain ⟨hfresh, hidle⟩ := h.up hsock
      obtain ⟨hcut, ho⟩ := hsafe hsock s hidle.mode
      obtain ⟨r', info', w', htried, hcases⟩ := Ask.tries_run hos hfresh h.preserve ho hcut hidle
      obtain ⟨hres, rfl⟩ := Prod.mk.inj (Sum.inl.inj (hrun.symm.trans htried))
      obtain ⟨rfl, rfl⟩ := Prod.mk.inj hres
      rcases hcases with ⟨rfl, rfl, hidle⟩ | ⟨hbroken, hfailed, hdown, hdoubt⟩
      · refine ⟨_, ?_, (a.effect_preserve os m cred s).trans h.preserve, fun _ => ⟨hfresh, hidle⟩,
          fun hdown => ?_⟩
        · dsimp only
          rw [hsock]
          exact .made s cred a broken
        · cases hsock.symm.trans hdown
      · obtain ⟨b, rfl⟩ := Option.ne_none_iff_exists'.mp hbroken
        refine ⟨{ s with fs := Perl.ended os home w'.mode }, ?_, h.preserve, fun hup => ?_,
          fun _ => rfl⟩
        · dsimp only
          rw [hdown]
          exact .lost s cred a b _ _ hfailed hdoubt
        · cases hdown.symm.trans hup
  | newConn =>
    have hnone : p.readlnbuf = [] := hsafe rfl
    refine ⟨{ s₀ with fs := s.fs }, .newConn .., hp, fun _ => ⟨⟨⟨rfl, rfl⟩, rfl, rfl⟩, ?_, ?_, rfl⟩,
      fun hdown => (by cases hdown)⟩
    · dsimp only
      rw [h.ended]
    · dsimp only
      rw [hnone]
      rfl
  | noConn => exact ⟨s, .noConn .., h.preserve, fun hup => (by cases hup), fun _ => h.ended⟩

/-- **Every event can take place**: a call comes back, whether its connection breaks or not, and a
new connection is taken at any time. -/
theorem Stands.progress (hos : os.Idle) (h : p.Stands os home m s) {e : Event}
    (hsafe : p.Safe os m e) :
    ∃ r p', Step os home m s₀ p e r p' := by
  rcases e with ⟨cred, a, broken⟩ | _ | _
  · cases hsock : p.info.sock with
    | false =>
      obtain ⟨e, hcall⟩ := a.call_down hsock m cred
      refine ⟨_, _, .call p cred a broken (a.failed e) p.info p.wire [] ?_ List.nil_prefix⟩
      rw [hcall, Break.on_ret]
      rfl
    | true =>
      obtain ⟨hfresh, hidle⟩ := h.up hsock
      obtain ⟨hcut, ho⟩ := hsafe hsock s hidle.mode
      obtain ⟨r, info, w, hrun, -⟩ := Ask.tries_run hos hfresh h.preserve ho hcut hidle
      exact ⟨_, _, .call p cred a broken r info w [] hrun List.nil_prefix⟩
  · exact ⟨_, _, .noConn p⟩
  · exact ⟨_, _, .newConn p⟩

end Persistent

/-- **At most once**: however often the connection breaks, and wherever it does, the machine of the
server has seen every call that has not failed exactly once, and every call that has failed at most
once, or the front of it, in the order in which they were made; and no call is stuck. -/
theorem at_most_once (hos : os.Idle) (hp : s₀.preserve = m.preserveOwn)
    {l : List (Persistent.Event × Outcome)} (h : Persistent.Runs os home m s₀ l p) :
    (∃ s, Replay (Attempt os m s₀) (true, s₀) l (p.info.sock, s) ∧ p.Stands os home m s) ∧
      ∀ e, p.Safe os m e → ∃ r p', Persistent.Step os home m s₀ p e r p' := by
  have hstands : ∃ s, Replay (Attempt os m s₀) (true, s₀) l (p.info.sock, s) ∧
      p.Stands os home m s := by
    induction h with
    | new => exact ⟨s₀, rfl, hp, fun _ => ⟨⟨⟨rfl, rfl⟩, rfl, rfl⟩, rfl, rfl, rfl⟩,
        fun hdown => (by cases hdown)⟩
    | step l p e r p' before safe step ih =>
      obtain ⟨s, hreplay, hs⟩ := ih
      obtain ⟨s', hattempt, hs'⟩ := hs.step hos hp safe step
      exact ⟨s', hreplay.concat hattempt, hs'⟩
  refine ⟨hstands, fun e hsafe => ?_⟩
  obtain ⟨s, -, hs⟩ := hstands
  exact hs.progress hos hsafe

end Persistent

/-! ### A directory that is made, although the call fails -/

/-- The connection breaks when the line has been sent. -/
def brokenMkdir : Persistent.Event := .call makeDir.1 makeDir.2 (some ⟨1, ⟨.eio, 0⟩, 0⟩)

/-- The mount in the meantime. -/
def brokenMount : Persistent Bool where
  info := ⟨false, true, 0, 0⟩
  wire := ⟨.line { Request.unchanged false with fs := true } .init, cells false (status 200), true⟩
  readlnbuf := []

theorem brokenMkdir_step : Persistent.Step Request.changedOS [] plainMount (Request.unchanged false)
    (.new (Request.unchanged false)) brokenMkdir (.code (.error .eio)) brokenMount :=
  .call _ _ _ _ _ _ _ _ rfl List.nil_prefix

theorem brokenMkdir_safe :
    (Persistent.new (Request.unchanged false)).Safe Request.changedOS plainMount brokenMkdir := by
  intro _ s _
  refine ⟨fun b l hb hfirst => ?_, fun hl =>
    ⟨Ask.fits_of_line (Mount.sends_plain rfl _) hl, trivial⟩⟩
  cases hb
  cases hfirst

theorem brokenMkdir_runs : Persistent.Runs Request.changedOS [] plainMount (Request.unchanged false)
    [(brokenMkdir, .code (.error .eio)), (.newConn true, .code (.ok 0))]
    (.new { Request.unchanged false with fs := true }) :=
  .step [_] brokenMount _ _ _ (.step [] _ _ _ _ .new brokenMkdir_safe brokenMkdir_step)
    (fun _ => rfl) (.newConn brokenMount)

/-- The next server finds the directory. -/
theorem at_most_once_broken_mkdir :
    (∃ s, Replay (Attempt Request.changedOS plainMount (Request.unchanged false))
      (true, Request.unchanged false)
        [(brokenMkdir, .code (.error .eio)), (.newConn true, .code (.ok 0))] (true, s) ∧
      (Persistent.new { Request.unchanged false with fs := true }).Stands Request.changedOS []
        plainMount s) ∧
      ∀ e, (Persistent.new { Request.unchanged false with fs := true }).Safe Request.changedOS
        plainMount e →
          ∃ r p', Persistent.Step Request.changedOS [] plainMount (Request.unchanged false)
          (.new { Request.unchanged false with fs := true }) e r p' :=
  at_most_once Request.idle_changedOS rfl brokenMkdir_runs

end Shfs
