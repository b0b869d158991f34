import Shfs.RemoteCall
import Shfs.Lib.Sections

/-!
# Many callers, one connection

Any number of threads use a mount at once. Each client function takes `info->shfs_mutex` with
`sock_lock`, which a signal may interrupt, works on the connection with the socket and the counters
in `shfs_sb_info`, and gives the mutex back; the server takes what is on its way to it at any time.
`mount` is this as `Lib.Sections`: the state is the connection, a job is a call with the credentials
of its caller, and no thread ends inside.

`serialized` puts the pieces together. `Lib.Turns.account` orders the calls, `Lib.Steps.run_eq`
removes the server from the schedule, and `Ask.call_gives` says what one call does: the threads get
what they would get from system calls on the machine of the server, made one after another in the
order in which the mutex is given back.
-/

namespace Shfs

open Lib

section Callers

variable {σ : Type} (os : OS σ) (home : Bytes) (m : Mount)

/-- A call that fits and whose reply is orderly, on the server as it will be when it has taken what
is on its way. -/
def Admitted (c : Conn σ) (cred : Cred) (a : Ask) : Prop :=
  ∀ s, (c.wire.feed (perlServer os home) c.pipe).mode = .line s .init → a.line m cred ≠ none →
    a.Fits m cred ∧ a.Orderly os (a.switched m cred s)

/-- The client functions between `sock_lock` and `sock_unlock`. A thread that has the mutex begins
one of them, makes its steps and gives the mutex back with the result; the server takes what is on
its way to it at any time. -/
def mount : Sections (Cred × Ask) (Talk Fault (Outcome × Info)) (Conn σ) Outcome where
  enter g c t := Admitted os home m c g.1 g.2 ∧ t = g.2.call m g.1 c.info
  step t c t' c' := c'.info = c.info ∧
    Step (perlServer os home) READLNBUF_SIZE ⟨t, c.pipe, c.wire⟩ ⟨t', c'.pipe, c'.wire⟩
  leave t c r c' := ∃ info, t = .ret (r, info) ∧ c' = { c with info := info }
  halt _ _ := False
  drift c c' := ∃ b pipe, c.pipe = b :: pipe ∧
    c' = { c with pipe := pipe, wire := c.wire.feed1 (perlServer os home) b }

/-- What the job is on the machine of the server: one system call, with its result. -/
def Job.means (g : Cred × Ask) (s : Perl σ) (r : Outcome) (s' : Perl σ) : Prop :=
  (r, s') = g.2.effect os m g.1 s

/-- The connection between two calls, for the server in this state: nothing is left over on the
client's side, and once the server has taken what is on its way it waits for a line in this state,
with nothing on its way back. -/
structure Quiet (c : Conn σ) (s : Perl σ) : Prop where
  info : Fresh c.info
  idle : Idle .init s (c.wire.feed (perlServer os home) c.pipe)
  preserve : s.preserve = m.preserveOwn

variable {os home m} {c c' : Conn σ} {s : Perl σ} {t t' : Talk Fault (Outcome × Info)}

/-- The steps of a call are steps of the connection. -/
theorem steps_of_runs (h : (mount os home m).Runs (t, c) (t', c')) :
    c'.info = c.info ∧ Steps (perlServer os home) READLNBUF_SIZE ⟨t, c.pipe, c.wire⟩
      ⟨t', c'.pipe, c'.wire⟩ := by
  generalize hd : (t', c') = d at h
  induction h generalizing t' c' with
  | refl =>
    obtain ⟨rfl, rfl⟩ := Prod.mk.inj hd
    exact ⟨rfl, .refl⟩
  | tail _ hstep ih =>
    rename_i e f _
    subst hd
    obtain ⟨hinfo, hsteps⟩ := ih (show (e.1, e.2) = e from rfl)
    rcases hstep with ⟨hsame, hstep⟩ | ⟨ht, b, pipe, hpipe, rfl⟩
    · exact ⟨hsame.trans hinfo, hsteps.tail hstep⟩
    · obtain rfl : e.1 = t' := ht
      refine ⟨hinfo, hsteps.tail ?_⟩
      rw [hpipe]
      exact .serve _ b pipe _

/-- The steps of the connection are steps of a call. -/
theorem runs_of_steps (m : Mount) (info : Info) {pipe pipe' : Bytes} {w w' : Wire Getline (Perl σ)}
    (h : Steps (perlServer os home) READLNBUF_SIZE ⟨t, pipe, w⟩ ⟨t', pipe', w'⟩) :
    (mount os home m).Runs (t, ⟨info, pipe, w⟩) (t', ⟨info, pipe', w'⟩) := by
  generalize hd : (⟨t', pipe', w'⟩ : Config Fault (Outcome × Info) Getline (Perl σ)) = d at h
  induction h generalizing t' pipe' w' with
  | refl =>
    cases hd
    exact .refl
  | tail _ hstep ih =>
    rename_i e f _
    subst hd
    exact (ih (show ⟨e.talk, e.pipe, e.wire⟩ = e from rfl)).tail (.inl ⟨rfl, hstep⟩)

/-- What a quiet connection with an admitted call comes to. -/
theorem Quiet.call (h : Quiet os home m c s) {cred : Cred} {a : Ask}
    (hadm : Admitted os home m c cred a) :
    ∃ w', (a.call m cred c.info).run (perlServer os home) READLNBUF_SIZE
        (c.wire.feed (perlServer os home) c.pipe) = .inl (((a.effect os m cred s).1, c.info), w') ∧
      Idle .init (a.effect os m cred s).2 w' := by
  obtain ⟨w', hrun, hmode, hinbox, hanswered⟩ :=
    Ask.call_gives h.info h.preserve (fun hl => hadm s h.idle.mode hl) h.idle
  exact ⟨w', hrun, hmode, hinbox, hanswered⟩

theorem Ask.effect_preserve (os : OS σ) (m : Mount) (cred : Cred) (s : Perl σ) (a : Ask) :
    (a.effect os m cred s).2.preserve = s.preserve := by
  unfold effect
  split
  · rfl
  · exact a.switched_preserve m cred s

/-- **One call**, with the server taking its turns: its result and what it leaves are those of the
system call. -/
theorem Quiet.section (h : Quiet os home m c s) {g : Cred × Ask} {r : Outcome} {c'' : Conn σ}
    (henter : (mount os home m).enter g c t) (hruns : (mount os home m).Runs (t, c) (t', c'))
    (hleave : (mount os home m).leave t' c' r c'') :
    ∃ s', Job.means os m g s r s' ∧ Quiet os home m c'' s' := by
  obtain ⟨hadm, rfl⟩ := henter
  obtain ⟨hinfo, hsteps⟩ := steps_of_runs hruns
  obtain ⟨info', rfl, rfl⟩ := hleave
  obtain ⟨w', hrun, hidle⟩ := h.call hadm
  rw [hsteps.run_of_ret] at hrun
  obtain ⟨hres, rfl⟩ := Prod.mk.inj (Sum.inl.inj hrun)
  obtain ⟨rfl, rfl⟩ := Prod.mk.inj hres
  exact ⟨_, rfl, h.info, hidle, (g.2.effect_preserve os m g.1 s).trans h.preserve⟩

theorem Quiet.drift (h : Quiet os home m c s) (hdrift : (mount os home m).drift c c') :
    Quiet os home m c' s := by
  obtain ⟨b, pipe, hpipe, rfl⟩ := hdrift
  refine ⟨h.info, ?_, h.preserve⟩
  have := h.idle
  rwa [hpipe] at this

/-- A new connection is quiet. -/
theorem quiet_new (hp : s.preserve = m.preserveOwn) : Quiet os home m (Conn.new s) s :=
  ⟨⟨⟨rfl, rfl⟩, rfl, rfl⟩, ⟨rfl, rfl, rfl⟩, hp⟩

/-- With nothing left to serve, a quiet connection is aligned. -/
theorem Quiet.streams_empty (h : Quiet os home m c s) :
    c.Aligned ∧ c.wire.mode = .line s .init := by
  have hpipe := Wire.eq_nil_of_answered h.idle.inbox h.idle.answered
  have hidle := h.idle
  rw [hpipe, Wire.feed_nil] at hidle
  exact ⟨⟨hpipe, hidle.inbox, s, hidle.mode⟩, hidle.mode⟩

/-- One section after another is one system call after another. -/
theorem replay_serial (hp : s.preserve = m.preserveOwn) {l : List ((Cred × Ask) × Outcome)}
    (h : Serial (mount os home m) (Conn.new s) l c) :
    ∃ s', Replay (Job.means os m) s l s' ∧ Quiet os home m c s' :=
  h.replay (R := Quiet os home m) (quiet_new hp) (fun _ _ _ hq hd => hq.drift hd)
    fun _ _ _ _ _ _ _ _ hq he hr hl => hq.section he hr hl

variable {ι : Type} [DecidableEq ι]
  {u : Threads ι (Cred × Ask) (Talk Fault (Outcome × Info)) (Conn σ)
  Outcome}

/-- **The mount is linearizable**: whatever the interleaving of the callers and the server, the
calls that have come back are system calls on the machine of the server, one after another; and
whenever the mutex is free, both streams are empty and the server is where these calls have left
it. -/
theorem serialized (hp : s.preserve = m.preserveOwn)
    (h : Turns (mount os home m) (Threads.start (Conn.new s)) u) :
    ∃ s', Replay (Job.means os m) s u.log s' ∧
      (u.owner = none → u.state.Aligned ∧ u.state.wire.mode = .line s' .init) := by
  have haccount := h.account
  rcases ho : u.owner with _ | i
  · obtain ⟨s', hl, hq⟩ := replay_serial hp (haccount.free ho)
    exact ⟨s', hl, fun _ => hq.streams_empty⟩
  · obtain ⟨g, t₀, t, c₁, -, hserial, -⟩ := haccount.held i ho
    obtain ⟨s', hl, -⟩ := replay_serial hp hserial
    exact ⟨s', hl, fun hnone => by cases hnone⟩

/-- **No caller is stuck**: the call under way can always be brought to its end, with the result of
the system call, by turns of its thread and of the server alone. So whoever waits for the mutex can
have it. -/
theorem finishes (hp : s.preserve = m.preserveOwn)
    (h : Turns (mount os home m) (Threads.start (Conn.new s)) u) {i : ι} (hi : u.owner = some i) :
    ∃ g r u', Turns (mount os home m) u u' ∧ u'.owner = none ∧ u'.log = u.log ++ [(g, r)] ∧
      ∃ s₁ s', Replay (Job.means os m) s u.log s₁ ∧ Job.means os m g s₁ r s' := by
  obtain ⟨g, t₀, t, c₁, hplace, hserial, ⟨hadm, rfl⟩, hruns⟩ := h.account.held i hi
  have hinside : u.place i = .inside g t :=
    hplace.resolve_right (h.not_gone (fun _ _ hh => hh) i g t)
  obtain ⟨s₁, hl, hq⟩ := replay_serial hp hserial
  obtain ⟨-, hsteps⟩ := steps_of_runs hruns
  obtain ⟨w', hrun, -⟩ := hq.call hadm
  rw [← hsteps.run_eq] at hrun
  have hrest := runs_of_steps m u.state.info
    ((Steps.serve_all t u.state.pipe u.state.wire).trans (Steps.of_run hrun))
  have hturns := Turns.of_runs hinside hrest
  refine ⟨g, _, _, hturns.tail (.leave _ i g _ _ _ (Threads.move_self ..) ⟨_, rfl, rfl⟩), rfl, rfl,
    s₁, _, hl, rfl⟩

end Callers

/-! ## Two callers -/

theorem makeDir_nul : (0 : Byte) ∉ ascii "/a" := by decide

theorem makeDir_room : (ascii "/a").length + 1 ≤ SHFS_PATH_MAX := by decide

/-- A directory that is to be made. -/
def makeDir : Cred × Ask := (⟨0, []⟩, .command (.mkdir ⟨ascii "/a", makeDir_nul, makeDir_room⟩))

/-- The first caller has its directory refused, while the second one waits for the mutex. -/
def twoCallers : Threads Bool (Cred × Ask) (Talk Fault (Outcome × Info)) (Conn Unit) Outcome :=
  { ((((Threads.start (Conn.new rootPerl) : Threads Bool (Cred × Ask) _ _ Outcome).move true
      (.waiting makeDir)).move false (.waiting makeDir)).move true
        (.inside makeDir (makeDir.2.call plainMount makeDir.1 (Conn.new rootPerl).info))) with
    owner := some true }

theorem twoCallers_turns :
    Turns (mount (oneFile (ascii "a")) [] plainMount) (Threads.start (Conn.new rootPerl))
      twoCallers := by
  refine .tail (.tail (.tail .refl (.ask _ true makeDir rfl)) (.ask _ false makeDir rfl))
    (.take _ true makeDir _
      rfl rfl ⟨fun s _ hl => ⟨Ask.fits_of_line (Mount.sends_plain rfl _) hl, trivial⟩, rfl⟩)

/-- It comes back, and the mutex is free. -/
def oneDone : Threads Bool (Cred × Ask) (Talk Fault (Outcome × Info)) (Conn Unit) Outcome :=
  { (twoCallers.move true (.inside makeDir
      (.ret (.code (.error .eperm), (Conn.new rootPerl).info)))).move true .outside with
    owner := none
    log := [(makeDir, .code (.error .eperm))] }

theorem oneDone_turns :
    Turns (mount (oneFile (ascii "a")) [] plainMount) (Threads.start (Conn.new rootPerl))
      oneDone := by
  have hruns : (mount (oneFile (ascii "a")) [] plainMount).Runs
      (makeDir.2.call plainMount makeDir.1 (Conn.new rootPerl).info, Conn.new rootPerl)
      (.ret (.code (.error .eperm), (Conn.new rootPerl).info), Conn.new rootPerl) :=
    runs_of_steps _ _ (Steps.of_run (by rfl))
  exact (twoCallers_turns.trans (Turns.of_runs (Threads.move_self ..) hruns)).tail
    (.leave _ true makeDir _ _ _ (Threads.move_self ..) ⟨_, rfl, rfl⟩)

/-- The refusal is what `mkdir` says on the machine of the server. -/
theorem serialized_one_done : ∃ s',
    Replay (Job.means (oneFile (ascii "a")) plainMount) rootPerl
        [(makeDir, .code (.error .eperm))] s' ∧
      ((none : Option Bool) = none → (Conn.new rootPerl).Aligned ∧
        (Conn.new rootPerl).wire.mode = .line s' .init) :=
  serialized rfl oneDone_turns

/-- The call under way comes back. -/
theorem finishes_two_callers : ∃ g r u',
    Turns (mount (oneFile (ascii "a")) [] plainMount) twoCallers u' ∧ u'.owner = none ∧
      u'.log = [] ++ [(g, r)] ∧ ∃ s₁ s',
        Replay (Job.means (oneFile (ascii "a")) plainMount) rootPerl [] s₁ ∧
          Job.means (oneFile (ascii "a")) plainMount g s₁ r s' :=
  finishes (i := true) rfl twoCallers_turns rfl

end Shfs
