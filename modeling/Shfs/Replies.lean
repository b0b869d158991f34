import Mathlib.Data.List.TakeWhile
import Shfs.Client
import Shfs.PerlServer

/-!
# Transfers against a server

The transfers of proc.c with nothing left over, run against a server: what each of them does to
the two streams, as rules for `Talk.Post`. A status line is read back as its code
(`reply_statusText`), and what the client sees of any other line is the text up to its first NUL.

The second half is about `clear_garbage` when the server waits for a line: the ping it sends has
no line feed, so the server never answers it, and unless the lines still waiting look like an
answer, the call does not come back.
-/

namespace Shfs

open Lib

theorem READLNBUF_SIZE_eq : READLNBUF_SIZE = 5120 := rfl

/-! ## Strings and status lines -/

theorem length_cstr_le (l : Bytes) : (cstr l).length ≤ l.length :=
  (List.takeWhile_sublist _).length_le

/-- The buffer of the client functions takes any line. -/
theorem take_cstr {bs l : Bytes} {n : ℕ} (h : nextLine READLNBUF_SIZE bs = some (l, n)) :
    (cstr l).take (SOCKBUF_SIZE - 1) = cstr l := by
  have hlt := nextLine_length_lt (by decide) h
  have hle := length_cstr_le l
  have hR := READLNBUF_SIZE_eq
  have hS := SOCKBUF_SIZE_eq
  exact List.take_of_length_le (by omega)

/-- A status line without its end. -/
def statusText (code : ℕ) : Bytes := ascii "### " ++ dec code

theorem status_eq (code : ℕ) : status code = statusText code ++ [nl] := rfl

theorem isDigit_or_of_mem_statusText {code : ℕ} {c : Byte} (h : c ∈ statusText code) :
    c ∈ ascii "### " ∨ isDigit c = true := by
  rcases List.mem_append.mp h with h | h
  · exact Or.inl h
  · exact Or.inr (isDigit_of_mem_dec h)

theorem nl_notMem_statusText (code : ℕ) : nl ∉ statusText code := by
  intro h
  rcases isDigit_or_of_mem_statusText h with h | h
  · revert h
    decide
  · exact absurd h (by decide)

theorem zero_notMem_statusText (code : ℕ) : (0 : Byte) ∉ statusText code := by
  intro h
  rcases isDigit_or_of_mem_statusText h with h | h
  · revert h
    decide
  · exact absurd h (by decide)

theorem length_statusText_lt {code : ℕ} (h : code < 1000) :
    (statusText code).length < READLNBUF_SIZE := by
  have hlen := length_dec_le (n := code) (k := 3) (by omega) (by omega)
  have h4 : (ascii "### ").length = 4 := rfl
  have hR := READLNBUF_SIZE_eq
  rw [statusText, List.length_append]
  omega

/-- **A status line is read back as its code**, by the decimal digits behind the three signs. -/
theorem reply_statusText {code : ℕ} (h : code < 2 ^ 32) : reply (statusText code) = code := by
  have hpre : ascii "### " <+: statusText code := List.prefix_append _ _
  have hval : decVal ((statusText code).drop 4) = code := decVal_dec_self code
  rw [reply, if_pos hpre, hval, Nat.mod_eq_of_lt h]

theorem drop_status (code : ℕ) (rest : Bytes) :
    (status code ++ rest).drop ((statusText code).length + 1) = rest := by
  rw [status_eq, show (statusText code).length + 1 = (statusText code ++ [nl]).length by simp,
    List.drop_left]

/-! ## Rules for the transfers -/

section Rules

variable {G S β : Type} {srv : Server G S} {Q : β → Wire G S → Prop} {w : Wire G S} {info : Info}
  {k : Cont Bytes β} {count : ℕ} {bs : Bytes}

/-- `sock_write` -/
theorem post_sockWrite {k : Cont Unit β} (hc : info.Clean)
    (h : (k (.ok ()) info).Post srv READLNBUF_SIZE Q (w.feed srv bs)) :
    (sockWrite bs info k).Post srv READLNBUF_SIZE Q w := by
  rw [sockWrite_clean hc]
  exact Talk.post_write h

/-- `sock_read` -/
theorem post_sockRead (hc : info.Clean)
    (h : count ≤ w.bytes.length →
      (k (.ok (w.bytes.take count)) info).Post srv READLNBUF_SIZE Q (w.drop count)) :
    (sockRead count info k).Post srv READLNBUF_SIZE Q w := by
  rw [sockRead_clean hc]
  exact Talk.post_read fun hn => h (by rwa [Wire.length_bytes])

/-- `sock_readln` into `sockbuf` -/
theorem post_sockReadln (hc : info.Clean)
    (h : ∀ l n, nextLine READLNBUF_SIZE w.bytes = some (l, n) →
      (k (.ok (cstr l)) info).Post srv READLNBUF_SIZE Q (w.drop n)) :
    (sockReadln SOCKBUF_SIZE info k).Post srv READLNBUF_SIZE Q w := by
  rw [sockReadln_clean hc]
  refine Talk.post_readln fun l n hn => ?_
  have := h l n hn
  rwa [← take_cstr hn] at this

/-- The client has read a status line. -/
abbrev pastStatus (w : Wire G S) (code : ℕ) : Wire G S := w.drop ((statusText code).length + 1)

theorem pastStatus_bytes {code : ℕ} {rest : Bytes} (hw : w.bytes = status code ++ rest) :
    (pastStatus w code).bytes = rest := by
  rw [Wire.drop_bytes, hw, drop_status]

/-- `sock_readln` on a line that fits and has no NUL in it -/
theorem run_sockReadln_line (hc : info.Clean) {line rest : Bytes} (hnl : nl ∉ line)
    (h0 : (0 : Byte) ∉ line) (hfit : line.length < READLNBUF_SIZE)
    (hw : w.bytes = line ++ nl :: rest) :
    (sockReadln SOCKBUF_SIZE info k).run srv READLNBUF_SIZE w =
      (k (.ok line) info).run srv READLNBUF_SIZE (w.drop (line.length + 1)) := by
  have hline : nextLine READLNBUF_SIZE w.bytes = some (line, line.length + 1) := by
    rw [hw]
    exact nextLine_of_fits hnl hfit
  have htake := take_cstr hline
  rw [cstr_eq_self h0] at htake
  rw [sockReadln_clean hc, recvln, Talk.run, hline]
  simp only [cstr_eq_self h0, htake]

/-- `sock_readln` on a status line -/
theorem run_sockReadln_status (hc : info.Clean) {code : ℕ} (hcode : code < 1000) {rest : Bytes}
    (hw : w.bytes = status code ++ rest) :
    (sockReadln SOCKBUF_SIZE info k).run srv READLNBUF_SIZE w =
      (k (.ok (statusText code)) info).run srv READLNBUF_SIZE (pastStatus w code) := by
  have hline : w.bytes = statusText code ++ nl :: rest := by
    rw [hw, status_eq, List.append_assoc, List.singleton_append]
  exact run_sockReadln_line hc (nl_notMem_statusText code) (zero_notMem_statusText code)
    (length_statusText_lt hcode) hline

/-- The same for what holds afterwards. -/
theorem post_sockReadln_status (hc : info.Clean) {code : ℕ} (hcode : code < 1000) {rest : Bytes}
    (hw : w.bytes = status code ++ rest)
    (h : ∀ n, (w.drop n).bytes = rest →
      (k (.ok (statusText code)) info).Post srv READLNBUF_SIZE Q (w.drop n)) :
    (sockReadln SOCKBUF_SIZE info k).Post srv READLNBUF_SIZE Q w := by
  intro a w' hrun
  rw [run_sockReadln_status hc hcode hw] at hrun
  exact h _ (pastStatus_bytes hw) a w' hrun

/-- `sock_readln` on the last status line -/
theorem post_sockReadln_last (hc : info.Clean) {code : ℕ} (hcode : code < 1000)
    (hw : w.bytes = status code)
    (h : ∀ n, (w.drop n).bytes = [] →
      (k (.ok (statusText code)) info).Post srv READLNBUF_SIZE Q (w.drop n)) :
    (sockReadln SOCKBUF_SIZE info k).Post srv READLNBUF_SIZE Q w :=
  post_sockReadln_status hc hcode (hw.trans (List.append_nil _).symm) h

end Rules

/-! ## `clear_garbage` with the server waiting for a line -/

/-- The lines `clear_garbage` reads, through the last loop: `none` is a complete answer to a
ping. -/
def seenRun (state : Seen) : List Bytes → Option Seen
  | [] => some state
  | l :: ls => (seenStep state ((cstr l).take (GARBAGEBUF_SIZE - 1))).bind fun s => seenRun s ls

/-- The octets that wait for the client hold nothing that looks like the answer to a ping, and
`clear_garbage` has enough turns to see it. -/
def NoPong (bs : Bytes) : Prop :=
  seenRun .nothing (lines READLNBUF_SIZE bs) ≠ none ∧ (lines READLNBUF_SIZE bs).length < 100000

section Hang

variable {G S β : Type} {srv : Server G S} {Q : β → Wire G S → Prop} {info : Info}
  {k : Cont Unit β}

/-- The last loop of `clear_garbage` does not come back without an answer. -/
theorem post_awaitPong (hs : info.sock = true) {i : ℕ} {state : Seen} {w : Wire G S}
    (hne : seenRun state (lines READLNBUF_SIZE w.bytes) ≠ none)
    (hlen : (lines READLNBUF_SIZE w.bytes).length < i) :
    (awaitPong i state info k).Post srv READLNBUF_SIZE Q w := by
  induction i generalizing state w info with
  | zero => omega
  | succ i ih =>
    rw [awaitPong, recvlnOpen]
    simp only [hs, if_true]
    refine Talk.post_readln fun l n hn => ?_
    rw [lines_of_nextLine (by decide) hn] at hne hlen
    rw [seenRun] at hne
    rw [List.length_cons] at hlen
    rcases hst : seenStep state ((cstr l).take (GARBAGEBUF_SIZE - 1)) with _ | state'
    · rw [hst] at hne
      exact absurd rfl hne
    · rw [hst, Option.bind_some] at hne
      simp only [hst]
      exact ih rfl (by rwa [Wire.drop_bytes]) (by rw [Wire.drop_bytes]; omega)

/-- A ping does not end its line: the Perl server is left in the middle of it, and has printed
nothing. -/
theorem feed_pingLine {σ : Type} (os : OS σ) (home : Bytes) (s : Perl σ) (inbox : List Cell)
    (a : Bool) :
    ∃ g, (⟨.line s .init, inbox, a⟩ : Wire Getline (Perl σ)).feed (perlServer os home) pingLine =
      ⟨.line s g, inbox, false⟩ := by
  have hblank : ∀ (a : Bool) (rest : Bytes),
    (⟨.line s .init, inbox, a⟩ : Wire Getline (Perl σ)).feed
      (perlServer os home) (nl :: rest) =
        (⟨.line s .init, inbox, false⟩ : Wire Getline (Perl σ)).feed (perlServer os home) rest := by
    intro a rest
    have hempty : scan getlineStep .init (nl :: rest) = .inr ([], rest) := rfl
    rw [Wire.feed_line_inr hempty]
    simp [perlServer, Perl.mainLoop]
  obtain ⟨g, hg⟩ : ∃ g, scan getlineStep .init (ascii "s_ping " ++ dec seq) = .inl g := ⟨_, rfl⟩
  refine ⟨g, ?_⟩
  rw [pingLine, List.append_assoc, List.cons_append, List.cons_append, List.nil_append, hblank,
    hblank]
  exact Wire.feed_line_inl hg

/-- **`clear_garbage` does not come back** with the Perl server waiting for a line and nothing in
the stream that looks like an answer. -/
theorem post_clearGarbage {σ : Type} {os : OS σ} {home : Bytes} {s : Perl σ}
    {Q : β → Wire Getline (Perl σ) → Prop} {w : Wire Getline (Perl σ)} (hs : info.sock = true)
    (hwrite : info.garbageWrite = 0) (hmode : w.mode = .line s .init)
    (hread : info.garbageRead ≠ 0 → w.inbox = []) (hp : NoPong w.bytes) :
    (clearGarbage info k).Post (perlServer os home) READLNBUF_SIZE Q w := by
  rw [clearGarbage, hwrite, Int.toNat_zero, fillGarbage, if_pos rfl]
  simp only
  rw [drainGarbage]
  by_cases hr : info.garbageRead.toNat = 0
  · rw [if_pos hr]
    simp only [sendOpen, hs, if_true]
    refine Talk.post_write ?_
    obtain ⟨m, inbox, a⟩ := w
    obtain rfl : m = .line s .init := hmode
    obtain ⟨g, hg⟩ := feed_pingLine os home s inbox a
    rw [hg]
    exact post_awaitPong rfl hp.1 hp.2
  · rw [if_neg hr]
    simp only [recvOpen, hs, if_true]
    refine Talk.post_read fun hn => ?_
    rw [hread (by omega)] at hn
    have : GARBAGEBUF_SIZE = 256 := rfl
    simp only [List.length_nil] at hn
    omega

end Hang

end Shfs
