import Shfs.SlowRead
import Shfs.Names
import Shfs.Keeps

/-!
# Symbolic links

A link is made with `s_sln` and read back with `s_readlink`, by `shfs_readlink` and by
`shfs_follow_link`. `Returns` is a call of the client that comes back from the server, and
`LinkRoundTrip` what is wanted of the two functions for a link that has been made. `linkOutcome` is
what the client makes of a link that is there, in `linkCall` (`sReadlink_answer`) and so in
`shell_readlink` (`shellReadlink_answer`).

It never happens. `shfs_follow_link` tests the result of the command the wrong way round, so it
follows nothing when the command has succeeded, and when it has failed it follows whatever is in its
buffer. `shfs_readlink` is right but for three targets (a lone `0`, which is false in Perl, and what
reads as the status line of COMPLETE or of EPERM), and for a buffer that `check_path` does not take.
-/

namespace Shfs

open Lib

/-! ## The two calls -/

section Calls

variable {G S β : Type} {srv : Server G S} {s : S} {w : Wire G S} {info : Info}

/-- The reply of `shell_readlink`, with the text that it has copied to `real_name` when it
returns. -/
def linkReply (info : Info) (k : LinkAnswer → Info → Talk Fault β) : Talk Fault β :=
  sockReadln SOCKBUF_SIZE info fun
    | .error e, info => k ⟨none, .error e⟩ info
    | .ok real, info =>
      if reply real = REP_COMPLETE then k ⟨none, .error .eio⟩ info
      else if reply real = REP_EPERM then k ⟨none, .error .eperm⟩ info
      else textReply () info fun r info => k ⟨some (real.take (SHFS_PATH_MAX - 1)), r⟩ info

/-- `shell_readlink` once `check_path` has taken both buffers. -/
def linkCall (preserveOwn : Bool) (cred : Cred) (path : Path) (info : Info)
    (k : LinkAnswer → Info → Talk Fault β) : Talk Fault β :=
  sendLine ((Request.readlink path).built preserveOwn cred).line info
    (fun e info => k ⟨none, .error e⟩ info) fun _ info => linkReply info k

/-- It is what `shell_readlink` does then, with its caller told what has been copied to the
buffer. -/
theorem shellReadlink_eq (preserveOwn : Bool) (cred : Cred) (path : Path) {realName quoted : Bytes}
    (h : checkPath realName = some quoted) (info : Info) (k : Cont Bytes β) :
    shellReadlink preserveOwn cred path.text realName info k =
      linkCall preserveOwn cred path info fun a info =>
        k (a.result.map fun _ => a.copied.getD []) info := by
  rw [shellReadlink, linkCall, Request.built, Request.onQuoted_line, h]
  rfl

/-- A call that finds the server waiting for a line comes back with `r`, and leaves the server in
the state `s'`, waiting again. -/
def Returns {ρ : Type} (srv : Server G S) (s : S) (t : Talk Fault (ρ × Info)) (r : ρ) (s' : S) :
    Prop :=
  ∃ info w, Steps srv READLNBUF_SIZE ⟨t, [], ⟨.line s srv.init, [], true⟩⟩ ⟨.ret (r, info), [], w⟩ ∧
    w.mode = .line s' srv.init

/-- What the client sends, the server reads. -/
theorem run_sendLine (hf : Fresh info) {l : Bytes} {p : Proc S} (h : Reads srv s l p)
    {fail : Errno → Info → Talk Fault β} {k : Bytes → Info → Talk Fault β} :
    (sendLine (some l) info fail k).run srv READLNBUF_SIZE ⟨.line s srv.init, [], true⟩ =
      (k l info).run srv READLNBUF_SIZE (p.wire srv) := by
  obtain ⟨words, hscan, rfl⟩ := h
  rw [sendLine, sockWrite_clean hf.clean, send, Talk.run, Wire.feed_line_inr hscan]
  rfl

/-- A status line that answers a command. -/
theorem run_commandReply_status (hf : Fresh info) {code : ℕ} (hcode : code < 1000)
    (hw : w.bytes = status code) (line : Bytes) :
    (commandReply line info back).run srv READLNBUF_SIZE w =
      .inl ((commandResult code, info), pastStatus w code) := by
  rw [commandReply, run_sockReadln_status hf.clean hcode (hw.trans (List.append_nil _).symm)]
  simp only [reply_statusText (show code < 2 ^ 32 by omega)]
  rfl

/-- A status line that answers a `s_readlink`. -/
theorem run_linkReply_refused (hf : Fresh info) (hw : w.bytes = status 501) (f : LinkAnswer → β) :
    (linkReply info fun a info => .ret (f a, info)).run srv READLNBUF_SIZE w =
      .inl ((f ⟨none, .error .eperm⟩, info), pastStatus w 501) := by
  rw [linkReply, run_sockReadln_status hf.clean (by decide) (hw.trans (List.append_nil _).symm)]
  simp only [reply_statusText (show 501 < 2 ^ 32 by decide)]
  rfl

/-- What `shell_readlink` makes of a target and COMPLETE. -/
def linkAnswer (target : Bytes) : LinkAnswer :=
  if reply target = REP_COMPLETE then ⟨none, .error .eio⟩
  else if reply target = REP_EPERM then ⟨none, .error .eperm⟩
  else ⟨some target, .ok ()⟩

/-- A target on a line of its own, and COMPLETE. -/
theorem run_linkReply (hf : Fresh info) (target : Path) (hnl : nl ∉ target.text)
    (hw : w.bytes = target.text ++ nl :: status 200) (f : LinkAnswer → β) :
    ∃ info' w', (linkReply info fun a info => .ret (f a, info)).run srv READLNBUF_SIZE w =
      .inl ((f (linkAnswer target.text), info'), w') := by
  have hroom := target.room
  have hmax : SHFS_PATH_MAX < READLNBUF_SIZE := by decide
  rw [linkReply, run_sockReadln_line hf.clean hnl target.nul (by omega) hw]
  simp only
  rw [linkAnswer]
  split
  · exact ⟨_, _, rfl⟩
  · split
    · exact ⟨_, _, rfl⟩
    · have hw' : (w.drop (target.text.length + 1)).bytes = status 200 ++ [] := by
        rw [Wire.drop_bytes, hw, List.append_nil, ← List.singleton_append, ← List.append_assoc]
        exact List.drop_left' (by simp)
      rw [textReply, run_sockReadln_status hf.clean (by decide) hw']
      simp only [reply_statusText (show 200 < 2 ^ 32 by decide)]
      rw [List.take_of_length_le (by omega)]
      exact ⟨_, _, rfl⟩

/-- **`s_sln`**: when the call succeeds, the link has been made, and nothing else has happened to
the server. -/
theorem sSln_succeeded {σ : Type} {srv : Server G (Perl σ)} {os : OS σ} {s s₁ s' : Perl σ}
    (hf : Fresh info) {preserveOwn : Bool} {cred : Cred} {target path : Path} {n : ℕ}
    (hsent : Sent srv s preserveOwn cred (.command (.symlink target path))
      (s₁.sSln os [target.text, path.text]))
    (h : Returns srv s (doCommand preserveOwn cred (Call.symlink target path).cmd info back)
      (.ok n) s') :
    ∃ fs, os.symlink s₁.ids s₁.fs target.text (s₁.path path.text) = (true, fs) ∧
      s' = { s₁ with fs := fs } := by
  obtain ⟨info', w, hsteps, hmode⟩ := h
  obtain ⟨l, hl, hreads⟩ := hsent
  have hrun := hsteps.run_of_ret
  have hline : ((Call.symlink target path).cmd.bind fun c =>
      (doCommandLine preserveOwn cred c.cmd c.args).line) = some l := by
    rw [← hl, Request.built]
    cases (Call.symlink target path).cmd <;> rfl
  set r := os.symlink s₁.ids s₁.fs target.text (s₁.path path.text) with hr
  have hsub : s₁.sSln os [target.text, path.text] =
      ({ s₁ with fs := r.2 } : Perl σ).answer (if r.1 then 200 else 501) := rfl
  rw [hsub] at hreads
  rw [doCommand, hline, Wire.feed_nil, Wire.feed_nil, run_sendLine hf hreads,
    run_commandReply_status hf (by split <;> decide) (Perl.answer_bytes ..)] at hrun
  obtain ⟨hres, rfl⟩ := Prod.mk.inj (Sum.inl.inj hrun)
  have hok : commandResult (if r.1 then 200 else 501) = .ok n := congrArg Prod.fst hres
  cases h1 : r.1 with
  | false =>
    rw [h1] at hok
    cases hok
  | true =>
    have hleft : Lib.Mode.line { s₁ with fs := r.2 } srv.init = .line s' srv.init := hmode
    exact ⟨r.2, Prod.ext h1 rfl, (Lib.Mode.line.inj hleft).1.symm⟩

section Readlink

variable {σ : Type} {srv : Server G (Perl σ)} {os : OS σ} {s s₂ s' : Perl σ} {preserveOwn : Bool}
  {cred : Cred} {target path : Path}

/-- What the client makes of a link that is there. -/
def linkOutcome (target : Bytes) : LinkAnswer :=
  if target = ascii "0" then ⟨none, .error .eperm⟩ else linkAnswer target

/-- **`s_readlink`**: what the client makes of a link that is there, whatever it hands on of it. The
answer depends on the target alone: a target that reads as a number of the protocol is taken for a
status line. -/
theorem sReadlink_answer (hf : Fresh info) (hne : target.text ≠ []) (hnl : nl ∉ target.text)
    (hsent : Sent srv s preserveOwn cred (.readlink path) (s₂.sReadlink os [path.text]))
    (hlink : os.readlink s₂.ids s₂.fs (s₂.path path.text) = some target.text) (f : LinkAnswer → β)
    {b : β}
    (h : Returns srv s (linkCall preserveOwn cred path info fun a info => .ret (f a, info)) b s') :
    b = f (linkOutcome target.text) := by
  obtain ⟨info', w, hsteps, -⟩ := h
  obtain ⟨l, hl, hreads⟩ := hsent
  have hrun := hsteps.run_of_ret
  rw [linkCall, hl, Wire.feed_nil, Wire.feed_nil, run_sendLine hf hreads] at hrun
  have hsub : s₂.sReadlink os [path.text] =
      if target.text = ascii "0" then s₂.answer 501
      else .print false (target.text ++ [nl]) (s₂.answer 200) := by
    unfold Perl.sReadlink
    have harg : Perl.arg [path.text] 0 = path.text := rfl
    rw [harg, hlink]
    simp only [hne, false_or]
  rw [hsub] at hrun
  split at hrun
  · next h0 =>
    rw [run_linkReply_refused hf (Perl.answer_bytes ..)] at hrun
    rw [linkOutcome, if_pos h0]
    exact (congrArg (fun r => r.1.1) (Sum.inl.inj hrun)).symm
  · next h0 =>
    have hbytes : ((Proc.print false (target.text ++ [nl]) (s₂.answer 200)).wire srv).bytes =
        target.text ++ nl :: status 200 := by simp
    obtain ⟨i, w', hreply⟩ := run_linkReply hf target hnl hbytes f
    rw [hreply] at hrun
    rw [linkOutcome, if_neg h0]
    exact (congrArg (fun r => r.1.1) (Sum.inl.inj hrun)).symm

/-- **`shell_readlink` on a link that is there**, once both paths have been checked: the function of
the client returns what `linkOutcome` says, with the target in the caller's buffer if there is
one. -/
theorem shellReadlink_answer (hf : Fresh info) (hne : target.text ≠ []) (hnl : nl ∉ target.text)
    (hsent : Sent srv s preserveOwn cred (.readlink path) (s₂.sReadlink os [path.text]))
    (hlink : os.readlink s₂.ids s₂.fs (s₂.path path.text) = some target.text)
    {realName : Bytes} (hreal : checkPath realName ≠ none) {r : Except Errno Bytes}
    (h : Returns srv s
      (shellReadlink preserveOwn cred path.text realName info fun r info => .ret (r, info)) r s') :
    r = (linkOutcome target.text).result.map fun _ => (linkOutcome target.text).copied.getD [] := by
  obtain ⟨quoted, hquoted⟩ := Option.ne_none_iff_exists'.mp hreal
  rw [shellReadlink_eq preserveOwn cred path hquoted] at h
  exact sReadlink_answer hf hne hnl hsent hlink (fun a => a.result.map fun _ => a.copied.getD []) h

end Readlink

end Calls

/-- A link that has been made holds its target. -/
def OS.KeepsLinks {σ : Type} (os : OS σ) : Prop :=
  ∀ ids s target path s', os.symlink ids s target path = (true, s') →
    os.readlink ids s' path = some target

/-- A link with this target has been made from the state `s`, and `a` is what `shell_readlink` gets
when the same caller asks for it next. The subs run in the states `s₁` and `s₂`. -/
structure LinkMade {G σ : Type} (srv : Server G (Perl σ)) (os : OS σ) (preserveOwn : Bool)
    (cred : Cred) (info : Info) (target path : Path) (s s₁ s' s₂ : Perl σ) (a : LinkAnswer) :
    Prop where
  sent : Sent srv s preserveOwn cred (.command (.symlink target path))
    (s₁.sSln os [target.text, path.text])
  made : ∃ n, Returns srv s
    (doCommand preserveOwn cred (Call.symlink target path).cmd info back) (.ok n) s'
  asked : Sent srv s' preserveOwn cred (.readlink path) (s₂.sReadlink os [path.text])
  answered : ∃ s'', Returns srv s'
    (linkCall preserveOwn cred path info fun a info => .ret (a, info)) a s''
  ids : s₂.ids = s₁.ids
  fs : s₂.fs = s'.fs
  root : s₂.root = s₁.root

namespace LinkMade

variable {G σ : Type} {srv : Server G (Perl σ)} {os : OS σ} {preserveOwn : Bool} {cred : Cred}
  {info : Info} {target path : Path} {s s₁ s' s₂ : Perl σ} {a : LinkAnswer}

/-- A path that has been sent fits. -/
theorem fits (h : LinkMade srv os preserveOwn cred info target path s s₁ s' s₂ a) : path.Fits := by
  obtain ⟨l, hl, -⟩ := h.asked
  rw [Request.built, Request.onQuoted_line] at hl
  by_contra hfits
  rw [Path.checkPath_of_not_fits hfits] at hl
  cases hl

/-- What `shell_readlink` gets. -/
theorem answer (h : LinkMade srv os preserveOwn cred info target path s s₁ s' s₂ a)
    (hos : os.KeepsLinks) (hf : Fresh info) (hne : target.text ≠ []) (hnl : nl ∉ target.text) :
    a = if target.text = ascii "0" then ⟨none, .error .eperm⟩ else linkAnswer target.text := by
  obtain ⟨n, hmade⟩ := h.made
  obtain ⟨s'', hanswered⟩ := h.answered
  obtain ⟨fs, hsymlink, hs'⟩ := sSln_succeeded hf h.sent hmade
  refine sReadlink_answer hf hne hnl h.asked ?_ id hanswered
  have hfs : s₂.fs = fs := by rw [h.fs, hs']
  have hpath : s₂.path path.text = s₁.path path.text := congrArg (· ++ path.text) h.root
  rw [h.ids, hfs, hpath]
  exact hos _ _ _ _ _ hsymlink

end LinkMade

/-! ## The two functions -/

/-- What the local variables `name` and `real_name` hold before they are assigned. -/
structure LinkFrame : Type where
  name : Bytes
  realName : Bytes

section Functions

variable {τ : Type} (sb : SuperBlock τ) (d : Dentry) (w : World τ)

/-- What is wanted of the two functions: `vfs_readlink` and `vfs_follow_link` get the target, and
nothing is followed when the command has failed. -/
structure LinkRoundTrip (target : Bytes) (forRead forFollow : LinkFrame) : Prop where
  read : (shfsReadlink sb d forRead.name forRead.realName w).1 = .ok target
  follow : (shfsFollowLink sb d forFollow.name forFollow.realName w).1 = some target
  failed : ∀ e,
    (w.readlink sb (getName d forFollow.name).2 forFollow.realName).1 = .error e →
      (shfsFollowLink sb d forFollow.name forFollow.realName w).1 = none

theorem shfsReadlink_eq (f : LinkFrame) :
    (shfsReadlink sb d f.name f.realName w).1 =
      let r := w.readlink sb (getName d f.name).2 f.realName
      r.1.map fun _ => r.2.1 := by
  rw [shfsReadlink, World.named_eq]
  rcases w.readlink sb (getName d f.name).2 f.realName with ⟨e | u, realName, w'⟩ <;> rfl

/-- **The test for success is the wrong way round**: the buffer is followed when the command has
failed. -/
theorem shfsFollowLink_eq (f : LinkFrame) :
    (shfsFollowLink sb d f.name f.realName w).1 =
      let r := w.readlink sb (getName d f.name).2 f.realName
      match r.1 with
      | .ok _ => none
      | .error _ => some r.2.1 := by
  rw [shfsFollowLink]
  dsimp only
  rw [if_neg (getName_nonneg d f.name)]
  rcases w.readlink sb (getName d f.name).2 f.realName with ⟨e | u, realName, w'⟩ <;> rfl

theorem shfsFollowLink_eq_none_iff (f : LinkFrame) :
    (shfsFollowLink sb d f.name f.realName w).1 = none ↔
      ∃ u, (w.readlink sb (getName d f.name).2 f.realName).1 = .ok u := by
  rw [shfsFollowLink_eq]
  rcases w.readlink sb (getName d f.name).2 f.realName with ⟨e | u, realName, w'⟩
  · simp
  · simp

/-- The words that ask for a link. -/
abbrev readlinkWords (path : Path) : Cmd := ⟨ascii "s_readlink", squoted (quoteText path.text)⟩

/-- `info->fops.readlink`, for a path that fits. -/
theorem World.readlink_eq {path : Path} (hpath : path.Fits) (realName : Bytes) :
    let r := w.readlink sb path.text realName
    (r.1, r.2.1) =
      match checkPath realName with
      | none => (.error .enametoolong, realName)
      | some quoted =>
        let a := (sb.host.link (readlinkWords path) w.far.server).1
        (a.result, a.copied.getD quoted) := by
  have hquoted := hpath.checkPath
  cases hreal : checkPath realName with
  | none => simp [World.readlink, World.send, issue, shellReadlinkCmd, onPaths, hquoted, hreal]
  | some quoted =>
    simp [World.readlink, World.send, issue, shellReadlinkCmd, onPaths, hquoted, hreal]

/-- **A link that has been made** is never read back by both functions. `shfs_follow_link` follows
something whenever the command fails, and `shfs_readlink` is right on its own for most targets. -/
theorem LinkMade.roundTrip_never {G σ : Type} {srv : Server G (Perl σ)} {os : OS σ}
    {preserveOwn : Bool} {cred : Cred} {info : Info} {target path : Path} {s s₁ s' s₂ : Perl σ}
    {a : LinkAnswer} (h : LinkMade srv os preserveOwn cred info target path s s₁ s' s₂ a)
    (hos : os.KeepsLinks) (hf : Fresh info) (hne : target.text ≠ []) (hnl : nl ∉ target.text)
    (hfits : target.Fits) (hd : ∀ stack, (getName d stack).2 = path.text)
    (hhost : (sb.host.link (readlinkWords path) w.far.server).1 = a)
    (forRead forFollow : LinkFrame) :
    ¬ LinkRoundTrip sb d w target.text forRead forFollow ∧
      (∀ (w' : World τ) e, (w'.readlink sb path.text forFollow.realName).1 = .error e →
        (shfsFollowLink sb d forFollow.name forFollow.realName w').1 ≠ none) ∧
      ((shfsReadlink sb d forRead.name forRead.realName w).1 = .ok target.text ↔
        target.text ≠ ascii "0" ∧ reply target.text ≠ REP_COMPLETE ∧
          reply target.text ≠ REP_EPERM ∧ checkPath forRead.realName ≠ none) := by
  have hanswer := h.answer hos hf hne hnl
  have hread : (shfsReadlink sb d forRead.name forRead.realName w).1 = .ok target.text ↔
      target.text ≠ ascii "0" ∧ reply target.text ≠ REP_COMPLETE ∧
        reply target.text ≠ REP_EPERM ∧ checkPath forRead.realName ≠ none := by
    have hcommand := w.readlink_eq sb h.fits forRead.realName
    rw [shfsReadlink_eq, hd]
    rw [hhost, hanswer] at hcommand
    cases hreal : checkPath forRead.realName with
    | none =>
      rw [hreal] at hcommand
      obtain ⟨hfailed, -⟩ := Prod.mk.inj hcommand
      simp [hfailed, Except.map]
    | some quoted =>
      rw [hreal] at hcommand
      obtain ⟨hresult, hcopied⟩ := Prod.mk.inj hcommand
      simp only [hresult, hcopied]
      by_cases h0 : target.text = ascii "0"
      · simp [h0, Except.map]
      · by_cases hcomplete : reply target.text = REP_COMPLETE
        · simp [h0, linkAnswer, hcomplete, Except.map]
        · by_cases hperm : reply target.text = REP_EPERM
          · simp [h0, linkAnswer, hperm, Except.map]
          · simp [h0, linkAnswer, hcomplete, hperm, Except.map]
  refine ⟨?_, ?_, hread⟩
  · intro hround
    obtain ⟨h0, hcomplete, hperm, -⟩ := hread.mp hround.read
    have hcommand := w.readlink_eq sb h.fits forFollow.realName
    rw [hhost, hanswer, if_neg h0, linkAnswer, if_neg hcomplete, if_neg hperm] at hcommand
    have hfollow := hround.follow
    rw [shfsFollowLink_eq, hd] at hfollow
    cases hreal : checkPath forFollow.realName with
    | none =>
      -- what is followed does not fit, so it is not the target
      rw [hreal] at hcommand
      obtain ⟨hresult, hcopied⟩ := Prod.mk.inj hcommand
      simp only [hresult, hcopied, Option.some.injEq] at hfollow
      rw [hfollow, hfits.checkPath] at hreal
      cases hreal
    | some quoted =>
      rw [hreal] at hcommand
      obtain ⟨hresult, -⟩ := Prod.mk.inj hcommand
      simp only [hresult] at hfollow
      cases hfollow
  · intro w' e he hnone
    obtain ⟨u, hu⟩ := (shfsFollowLink_eq_none_iff sb d w' forFollow).mp hnone
    rw [hd, he] at hu
    cases hu

end Functions

/-! ## One link -/

/-- A system that can hold one link. -/
def oneLink : OS (Option (Bytes × Bytes)) :=
  { OS.idle (Option (Bytes × Bytes)) with
    symlink := fun _ s target path =>
      match s with
      | none => (true, some (path, target))
      | some l => (false, some l)
    readlink := fun _ s path => (s.filter fun l => l.1 = path).map Prod.snd }

theorem keepsLinks_oneLink : oneLink.KeepsLinks := by
  intro ids s target path s' h
  cases s with
  | none =>
    obtain ⟨-, rfl⟩ := Prod.mk.inj h
    simp [oneLink, Option.filter]
  | some l => cases h

/-- The server in front of it, with or without a link from `/l` to `b`. -/
def linkPerl (link : Option (Bytes × Bytes)) : Perl (Option (Bytes × Bytes)) :=
  ⟨⟨0, 0, [], []⟩, link, [], false, false⟩

/-- `/l` -/
def pathL : Path := ⟨ascii "/l", by decide, by decide⟩

/-- `b` -/
def targetB : Path := ⟨ascii "b", by decide, by decide⟩

/-- A mount of this server, as far as `/l` goes. -/
def linkMount : SuperBlock (Perl (Option (Bytes × Bytes))) where
  host :=
    { data := fun _ s => (.error .eio, s)
      status := fun _ s => (.error .eio, s)
      listing := fun _ s => (.error .eio, s)
      link := fun _ s =>
        match (linkCall false ⟨0, []⟩ pathL freshInfo fun a info => .ret (a, info)).run
            (perlServer oneLink []) READLNBUF_SIZE ⟨.line s .init, [], true⟩ with
        | .inl ((a, _), _) => (a, s)
        | .inr _ => (⟨none, .error .eio⟩, s)
      mutexLock := id
      mutexUnlock := id }
  info := ⟨false, false, 0, 0⟩
  fmask := 0xFFFF
  fcacheSize := 0
  clock := stillClock

/-- It has no inodes yet. -/
def linkWorld (link : Option (Bytes × Bytes)) : World (Perl (Option (Bytes × Bytes))) :=
  ⟨[], 0, ⟨linkPerl link, []⟩⟩

theorem linkMade_b : LinkMade (perlServer oneLink []) oneLink false ⟨0, []⟩ freshInfo targetB pathL
    (linkPerl none) (linkPerl none) (linkPerl (some (ascii "/l", ascii "b")))
    (linkPerl (some (ascii "/l", ascii "b"))) ⟨some (ascii "b"), .ok ()⟩ where
  sent := ⟨ascii "s_sln 'b' '/l'\n", by decide, _, by rfl, rfl⟩
  made := ⟨0, freshInfo, _, Steps.of_run (by rfl), rfl⟩
  asked := ⟨ascii "s_readlink '/l'\n", by decide, _, by rfl, rfl⟩
  answered := ⟨_, freshInfo, _, Steps.of_run (by rfl), rfl⟩
  ids := rfl
  fs := rfl
  root := rfl

/-- For a link to `b`, with empty buffers. -/
theorem roundTrip_never_b :
    ¬ LinkRoundTrip linkMount (.child .root (ascii "l"))
        (linkWorld (some (ascii "/l", ascii "b"))) (ascii "b") ⟨[], []⟩ ⟨[], []⟩ ∧
      (shfsReadlink linkMount (.child .root (ascii "l")) [] []
        (linkWorld (some (ascii "/l", ascii "b")))).1 = .ok (ascii "b") := by
  have hfits : targetB.Fits := Nat.le_of_ble_eq_true rfl
  have h := linkMade_b.roundTrip_never linkMount (.child .root (ascii "l"))
    (linkWorld (some (ascii "/l", ascii "b"))) keepsLinks_oneLink fresh_freshInfo (by decide)
    (by decide) hfits (fun _ => rfl) rfl ⟨[], []⟩ ⟨[], []⟩
  exact ⟨h.1, h.2.2.mpr (by decide)⟩

/-- The link is there, `shfs_readlink` reads `b`, and `shfs_follow_link` follows nothing. Without
the link the command fails, and what was in the buffer is followed. -/
theorem not_roundTrip :
    LinkMade (perlServer oneLink []) oneLink false ⟨0, []⟩ freshInfo targetB pathL (linkPerl none)
        (linkPerl none) (linkPerl (some (ascii "/l", ascii "b")))
        (linkPerl (some (ascii "/l", ascii "b"))) ⟨some (ascii "b"), .ok ()⟩ ∧
      ¬ LinkRoundTrip linkMount (.child .root (ascii "l"))
        (linkWorld (some (ascii "/l", ascii "b"))) (ascii "b") ⟨[], []⟩ ⟨[], []⟩ ∧
      (shfsFollowLink linkMount (.child .root (ascii "l")) [] (ascii "x") (linkWorld none)).1 =
        some (ascii "x") := by
  refine ⟨linkMade_b, ?_, by rfl⟩
  intro h
  have hnone : (shfsFollowLink linkMount (.child .root (ascii "l")) [] []
      (linkWorld (some (ascii "/l", ascii "b")))).1 = none := by rfl
  rw [h.follow] at hnone
  cases hnone

end Shfs
