import Shfs.Lib.Residue
import Shfs.Served

/-!
# `clear_garbage`

What `clear_garbage` does to a connection on which a command was interrupted. `Leftover` is such a
connection: the server still wants `garbage_write` raw octets, `garbage_read` octets of payload are
still to come, and behind them some lines. `Resync` is what the function is for: it does not wait
for a server that waits itself, and when it succeeds both sides are at the start of a command.

The two loops do their part (`run_fillGarbage`, `run_drainGarbage`): behind them the server is at a
new line. Then the ping is sent without a line feed, and the server is in the middle of its line
from there to the end, whatever `clear_garbage` makes of the lines it reads (`not_resync`).
-/

namespace Shfs

open Lib

universe v w

/-! ## The server -/

/-- A server in a state in which it answers a complete ping and ignores empty lines. -/
structure PingServer {G : Type v} {S : Type w} (srv : Server G S) (s : S) : Prop where
  blank : srv.step srv.init nl = .inr []
  ignore : srv.dispatch s [] = .done s
  ping : ∀ n, scan srv.step srv.init (ascii "s_ping " ++ dec n ++ [nl]) =
    .inr ([ascii "s_ping", dec n], [])
  pong : ∀ n, srv.dispatch s [ascii "s_ping", dec n] =
    .print false (status 100) (.print false (dec n ++ [nl]) (.print false (status 201) (.done s)))

/-- The Perl server, when it does not take the first two words for credentials. -/
theorem perlServer_pingServer {σ : Type} (os : OS σ) (home : Bytes) {s : Perl σ}
    (h : s.preserve = false) : PingServer (perlServer os home) s where
  blank := rfl
  ignore := rfl
  ping n := by
    have hok : ∀ w ∈ [Word.bare (ascii "s_ping"), Word.bare (dec n)], w.Ok := by
      intro w hw
      simp only [List.mem_cons, List.not_mem_nil, or_false] at hw
      rcases hw with rfl | rfl
      · exact show BareWord _ by decide
      · exact bareWord_dec n
    have htext : ascii "s_ping " ++ dec n ++ [nl] =
        joinWith sp ([Word.bare (ascii "s_ping"), Word.bare (dec n)].map Word.text) ++ [nl] := by
      simp [Word.text, ascii, sp]
    rw [htext]
    exact scan_joined (by simp) hok [] []
  pong n := by
    have hloop : s.mainLoop os home [ascii "s_ping", dec n] = s.sPing [dec n] := by
      rw [Perl.mainLoop, if_neg (by simp [h])]
      rfl
    exact hloop

variable {G : Type v} {S : Type w} {srv : Server G S}

/-! ## The state after an interrupted command -/

/-- A connection with `info->garbage` set: `payload` is what the server still sends of the data of
the last command, and `stale` the lines behind it. -/
structure Leftover (srv : Server G S) (info : Info) (w : Wire G S) (payload : Bytes)
    (stale : List Bytes) : Prop where
  sock : info.sock = true
  garbage : info.garbage = true
  write : info.garbageWrite = w.mode.demand
  read : info.garbageRead = payload.length
  whole : w.mode.Whole srv
  left : w.left srv = cells true payload ++ cells false (stale.flatMap fun l => l ++ [nl])
  lines : ∀ l ∈ stale, nl ∉ l ∧ l ≠ dec seq

/-- `clear_garbage` on its own: the result, and the connection state it leaves. -/
def clearing (info : Info) : Talk Fault (Except Errno Unit × Info) :=
  clearGarbage info fun r info => .ret (r, info)

/-- The program on a connection that breaks after some transfers, or does not. -/
def onLine {α : Type} (fault : Fault) : Option ℕ → Talk Fault α → Talk Fault α
  | none, t => t
  | some n, t => t.breakAfter fault n

/-- What `clear_garbage` is for: it does not wait for what never comes, what it reports as done is
done, and on a connection that does not break it succeeds. -/
structure Resync (srv : Server G S) (info : Info) (w : Wire G S) (stale : List Bytes) : Prop where
  /-- it does not wait for what never comes while the server is inside a line -/
  moves : ∀ fault broken w', (onLine fault broken (clearing info)).run srv READLNBUF_SIZE w =
    .inr w' → w'.mode.Whole srv
  /-- a result that is not an error leaves both sides at the start of a command -/
  clears : ∀ fault broken info' w',
    (onLine fault broken (clearing info)).run srv READLNBUF_SIZE w = .inl ((.ok (), info'), w') →
      w'.mode.Whole srv ∧ w'.inbox = [] ∧
        info'.garbage = false ∧ info'.garbageRead = 0 ∧ info'.garbageWrite = 0
  /-- with not too many lines, on a connection that does not break, it succeeds -/
  succeeds : stale.length < 33000 → ∃ info' w',
    (clearing info).run srv READLNBUF_SIZE w = .inl ((.ok (), info'), w')

/-! ## The loops -/

section Loops

variable {β : Type} {info : Info} {w : Wire G S}

/-- The first loop feeds the server as many blanks as it is told. -/
theorem run_fillGarbage (hs : info.sock = true) (n : ℕ) (k : Cont Unit β) :
    ∃ info' : Info, info'.sock = true ∧ info'.garbageRead = info.garbageRead ∧
      (fillGarbage n info k).run srv READLNBUF_SIZE w =
        (k (.ok ()) info').run srv READLNBUF_SIZE (w.feed srv (blanks n)) := by
  induction n using Nat.strong_induction_on generalizing info w with
  | _ n ih =>
    rw [fillGarbage]
    by_cases h : n = 0
    · subst h
      exact ⟨info, hs, rfl, rfl⟩
    · rw [if_neg h]
      have hbuf : GARBAGEBUF_SIZE = 256 := rfl
      set c := min n GARBAGEBUF_SIZE
      have hs' : ({ info with garbage := false } : Info).sock = true := hs
      obtain ⟨info', hsock, hr, hrun⟩ := ih (n - c) (by omega) hs' (w := w.feed srv (blanks c))
      refine ⟨info', hsock, hr, ?_⟩
      rw [← Wire.feed_append, ← blanks_add, show c + (n - c) = n by omega] at hrun
      rw [← hrun]
      simp only [sendOpen, hs, if_true]
      rfl

/-- The second loop reads as many octets as it is told. -/
theorem run_drainGarbage (hs : info.sock = true) {n : ℕ} (hn : n ≤ w.inbox.length)
    (k : Cont Unit β) :
    ∃ info' : Info, info'.sock = true ∧
      (drainGarbage n info k).run srv READLNBUF_SIZE w =
        (k (.ok ()) info').run srv READLNBUF_SIZE (w.drop n) := by
  induction n using Nat.strong_induction_on generalizing info w with
  | _ n ih =>
    rw [drainGarbage]
    by_cases h : n = 0
    · subst h
      exact ⟨info, hs, rfl⟩
    · rw [if_neg h]
      have hbuf : GARBAGEBUF_SIZE = 256 := rfl
      set c := min n GARBAGEBUF_SIZE
      have hs' : ({ info with garbage := false } : Info).sock = true := hs
      have hc : c ≤ w.inbox.length := by omega
      have hrest : n - c ≤ (w.drop c).inbox.length := by
        rw [Wire.drop, List.length_drop]
        omega
      obtain ⟨info', hsock, hrun⟩ := ih (n - c) (by omega) hs' hrest
      refine ⟨info', hsock, ?_⟩
      rw [Wire.drop_drop, show c + (n - c) = n by omega] at hrun
      rw [← hrun]
      simp only [recvOpen, hs, if_true, recv]
      rw [Talk.run, if_pos hc]

/-- **The last loop** never finds the server at a new line, and does not change where it is. -/
theorem run_awaitPong (hs : info.sock = true) (i : ℕ) (state : Seen) :
    (∃ w', (awaitPong i state info fun r info => .ret (r, info)).run srv READLNBUF_SIZE w =
      .inr w' ∧ w'.mode = w.mode) ∨
      ∃ info' w', (awaitPong i state info fun r info => .ret (r, info)).run srv READLNBUF_SIZE w =
          .inl ((.ok (), info'), w') ∧ w'.mode = w.mode := by
  induction i generalizing state info w with
  | zero => exact Or.inr ⟨_, _, rfl, rfl⟩
  | succ i ih =>
    rw [awaitPong, recvlnOpen]
    simp only [hs, if_true, recvln]
    rw [Talk.run]
    rcases hn : nextLine READLNBUF_SIZE w.bytes with _ | ⟨l, n⟩
    · exact Or.inl ⟨w, rfl, rfl⟩
    · simp only
      rcases hst : seenStep state ((cstr l).take (GARBAGEBUF_SIZE - 1)) with _ | state'
      · exact Or.inr ⟨_, _, rfl, rfl⟩
      · exact ih rfl state' (w := w.drop n)

end Loops

/-! ## No state is cleared -/

/-- The ping leaves the server inside its line. -/
theorem ping_inside {w : Wire G S} {s : S} (hsrv : PingServer srv s)
    (h : w.mode = .line s srv.init) : ¬ (w.feed srv pingLine).mode.Whole srv := by
  obtain ⟨mode, inbox, a⟩ := w
  obtain rfl : mode = .line s srv.init := h
  have hblank : ∀ (a : Bool) (rest : Bytes), (⟨.line s srv.init, inbox, a⟩ : Wire G S).feed srv
    (nl :: rest) = (⟨.line s srv.init, inbox, false⟩ : Wire G S).feed srv rest := by
    intro a rest
    rw [Wire.feed_line_inr (scan_cons_inr hsrv.blank rest), hsrv.ignore]
    simp
  have hping := hsrv.ping seq
  obtain ⟨g, hg⟩ := scan_front hping (by simp)
  rw [pingLine, List.append_assoc, List.cons_append, List.cons_append, List.nil_append, hblank,
    hblank, Wire.feed_line_inl hg]
  -- at a new line, the line feed alone would not be the end of a ping
  intro hwhole
  obtain rfl : g = srv.init := hwhole
  rw [scan_append_inl hg, scan_cons_inr hsrv.blank] at hping
  cases hping

/-- Behind the loops, and with the ping sent. -/
theorem run_clearing {info : Info} {w : Wire G S} {payload : Bytes} {stale : List Bytes}
    (h : Leftover srv info w payload stale) :
    ∃ info₁ : Info, info₁.sock = true ∧
      (clearing info).run srv READLNBUF_SIZE w =
        (awaitPong 100000 .nothing info₁ fun r info => .ret (r, info)).run srv READLNBUF_SIZE
          (((w.feed srv (blanks w.mode.demand)).drop payload.length).feed srv pingLine) := by
  have hleft : payload.length ≤ (w.feed srv (blanks w.mode.demand)).inbox.length := by
    have := congrArg List.length h.left
    rw [Wire.left] at this
    rw [this]
    simp [cells]
  rw [clearing, clearGarbage, h.write, Int.toNat_natCast]
  obtain ⟨info₁, hs₁, hread, hfill⟩ := run_fillGarbage h.sock w.mode.demand _ (w := w)
  rw [hfill]
  simp only
  rw [hread, h.read, Int.toNat_natCast]
  have hs₁' : ({ info₁ with garbageRead := payload.length, garbageWrite := 0 } : Info).sock =
      true :=
    hs₁
  obtain ⟨info₂, hs₂, hdrain⟩ := run_drainGarbage hs₁' hleft _
  rw [hdrain]
  refine ⟨{ info₂ with garbageRead := 0, garbage := false }, hs₂, ?_⟩
  simp only [sendOpen, hs₂, if_true, send, Talk.run]

/-- Where `clear_garbage` ends: inside the line of its ping, waiting or back without an error. -/
theorem run_clearing_inside {info : Info} {w : Wire G S} {payload : Bytes} {stale : List Bytes}
    (hsrv : ∀ s, (w.feed srv (blanks w.mode.demand)).mode = .line s srv.init → PingServer srv s)
    (h : Leftover srv info w payload stale) :
    ∃ w' : Wire G S, ¬ w'.mode.Whole srv ∧
      ((clearing info).run srv READLNBUF_SIZE w = .inr w' ∨
        ∃ info', (clearing info).run srv READLNBUF_SIZE w = .inl ((.ok (), info'), w')) := by
  obtain ⟨info₁, hs, hrun⟩ := run_clearing h
  obtain ⟨s, hline⟩ := Wire.feed_demand h.whole
  have hinside :=
    ping_inside (hsrv s hline) (w := (w.feed srv (blanks w.mode.demand)).drop payload.length)
    hline
  rw [hrun]
  rcases run_awaitPong hs 100000 .nothing
    (w := ((w.feed srv (blanks w.mode.demand)).drop payload.length).feed srv pingLine) with
    ⟨w', hw', hmode⟩ | ⟨info', w', hw', hmode⟩
  · exact ⟨w', by rwa [hmode], Or.inl hw'⟩
  · exact ⟨w', by rwa [hmode], Or.inr ⟨info', hw'⟩⟩

/-- A run that ends inside a line is none of what the function is for. -/
theorem Resync.whole {info : Info} {w w' : Wire G S} {stale : List Bytes}
    (h : Resync srv info w stale)
    (hrun : (clearing info).run srv READLNBUF_SIZE w = .inr w' ∨
      ∃ info', (clearing info).run srv READLNBUF_SIZE w = .inl ((.ok (), info'), w')) :
    w'.mode.Whole srv := by
  rcases hrun with hrun | ⟨info', hrun⟩
  · exact h.moves ⟨.eio, 0⟩ none w' hrun
  · exact (h.clears ⟨.eio, 0⟩ none info' w' hrun).1

/-- **`clear_garbage` never resynchronises**: whatever is left of the last command and whatever
lines follow, it ends with the server inside the line of its ping. The ping has no line feed, so the
server goes on waiting for the end of it while the client takes the line for sent. -/
theorem not_resync {info : Info} {w : Wire G S} {payload : Bytes} {stale : List Bytes}
    (hsrv : ∀ s, (w.feed srv (blanks w.mode.demand)).mode = .line s srv.init → PingServer srv s)
    (h : Leftover srv info w payload stale) : ¬ Resync srv info w stale := by
  intro hres
  obtain ⟨w', hinside, hrun⟩ := run_clearing_inside hsrv h
  exact hinside (hres.whole hrun)

/-- The Perl server in the middle of a write, with two octets to go and one status line behind
them. -/
theorem not_resync_write :
    ¬ Resync (perlServer (oneFile (ascii "a")) []) ⟨true, true, 0, 2⟩
      ⟨.raw 2 [] fun _ => rootPerl.answer 200, [], false⟩ [statusText 200] := by
  have hleft : Leftover (perlServer (oneFile (ascii "a")) []) ⟨true, true, 0, 2⟩
      ⟨.raw 2 [] fun _ => rootPerl.answer 200, [], false⟩ [] [statusText 200] :=
    ⟨rfl, rfl, rfl, rfl, Nat.two_pos, rfl, by decide⟩
  refine not_resync (fun s hs => ?_) hleft
  cases hs
  exact perlServer_pingServer _ _ rfl

/-- With nothing left over at all, `clear_garbage` waits for the answer to its ping, and the Perl
server for the end of it. -/
theorem not_resync_idle :
    Leftover (perlServer (oneFile (ascii "a")) []) ⟨true, true, 0, 0⟩
      ⟨.line rootPerl .init, [], true⟩
        [] [] ∧
      ¬ Resync (perlServer (oneFile (ascii "a")) []) ⟨true, true, 0, 0⟩
        ⟨.line rootPerl .init, [], true⟩ [] := by
  have hleft : Leftover (perlServer (oneFile (ascii "a")) []) ⟨true, true, 0, 0⟩
      ⟨.line rootPerl .init, [], true⟩ [] [] :=
    ⟨rfl, rfl, rfl, rfl, rfl, rfl, by simp⟩
  refine ⟨hleft, fun h => ?_⟩
  obtain ⟨w', hinside, hrun⟩ := run_clearing_inside
    (fun s hs => by cases hs; exact perlServer_pingServer _ _ rfl) hleft
  exact hinside (h.whole hrun)

end Shfs
