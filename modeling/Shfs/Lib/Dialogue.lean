import Shfs.Lib.Lines
import Shfs.Lib.Scan

/-!
# Two programs over two byte streams

A client and a server that share nothing but a stream of octets in each direction. The client is a
`Talk`: the tree of what it writes and reads and how it goes on. The server reads lines with an
automaton; a complete line makes it run a `Proc`, which prints and may take a fixed number of raw
octets before it returns to reading lines. Octets printed as payload are marked, so that one can
say how many of them are still on their way.

`Talk.run` runs the client against a server that answers at once. That is one schedule among many:
`Step` lets the two sides proceed in any order, with any part of what the client wrote still on its
way. `Steps.run_eq` says that the order does not matter — the streams are queues, the readers are
deterministic, and `nextLine` does not look beyond what it takes.
-/

namespace Lib

universe u v w x

variable {F : Type u} {α : Type v} {G : Type w} {S : Type x}

/-! ## The client -/

/-- A client program. Every transfer can fail with a fault from `F`; `spin` is a program that does
not come back. -/
inductive Talk (F : Type u) (α : Type v) : Type max u v
  | ret (a : α)
  | spin
  | write (bs : Bytes) (k : Except F Unit → Talk F α)
  | readln (k : Except F Bytes → Talk F α)
  | read (n : ℕ) (k : Except F Bytes → Talk F α)

/-- The program on a connection that fails with `f` after `n` transfers. -/
def Talk.breakAfter (f : F) : ℕ → Talk F α → Talk F α
  | _, ret a => ret a
  | _, spin => spin
  | 0, write _ k => breakAfter f 0 (k (.error f))
  | 0, readln k => breakAfter f 0 (k (.error f))
  | 0, read _ k => breakAfter f 0 (k (.error f))
  | n + 1, write bs k => write bs fun r => breakAfter f n (k r)
  | n + 1, readln k => readln fun r => breakAfter f n (k r)
  | n + 1, read m k => read m fun r => breakAfter f n (k r)

/-! ## The server -/

/-- What the server does for one line, until it reads the next one. -/
inductive Proc (S : Type x) : Type x
  | done (s : S)
  | print (payload : Bool) (bs : Bytes) (k : Proc S)
  | take (n : ℕ) (k : Bytes → Proc S)

/-- A server: the automaton that reads a line, and what is done for a line. -/
structure Server (G : Type w) (S : Type x) where
  init : G
  step : G → Byte → G ⊕ List Bytes
  dispatch : S → List Bytes → Proc S

/-- An octet on its way to the client. -/
structure Cell : Type where
  byte : Byte
  payload : Bool
  deriving DecidableEq, Repr

/-- What the server waits for: more of a line, or `missing` more raw octets. -/
inductive Mode (G : Type w) (S : Type x) : Type max w x
  | line (s : S) (g : G)
  | raw (missing : ℕ) (got : Bytes) (k : Bytes → Proc S)

/-- The server, and what it printed that the client has not read. `answered` says that the last
octet it took, if there was one, made it print something. -/
structure Wire (G : Type w) (S : Type x) : Type max w x where
  mode : Mode G S
  inbox : List Cell
  answered : Bool

/-- The octets of some cells. -/
def cells (payload : Bool) (bs : Bytes) : List Cell := bs.map fun b => ⟨b, payload⟩

/-- The octets waiting for the client. -/
def Wire.bytes (w : Wire G S) : Bytes := w.inbox.map Cell.byte

/-- The client has read `n` octets. -/
def Wire.drop (w : Wire G S) (n : ℕ) : Wire G S := { w with inbox := w.inbox.drop n }

variable (srv : Server G S)

/-- Run the server until it needs input: where it waits, and what it printed. -/
def Proc.settle : Proc S → Mode G S × List Cell
  | done s => (.line s srv.init, [])
  | print payload bs k => ((settle k).1, cells payload bs ++ (settle k).2)
  | take 0 k => settle (k [])
  | take (n + 1) k => (.raw (n + 1) [] k, [])

/-- The server after a `Proc`, with what it printed. -/
def Proc.wire (p : Proc S) : Wire G S :=
  ⟨(p.settle srv).1, (p.settle srv).2, !(p.settle srv).2.isEmpty⟩

/-- What is printed when these octets are all there is to take. -/
def Proc.printed : Proc S → Bytes → Bytes
  | done _, _ => []
  | print _ bs k, input => bs ++ printed k input
  | take n k, input => if n ≤ input.length then printed (k (input.take n)) (input.drop n) else []

/-- The state it returns with then, if it does. -/
def Proc.returned : Proc S → Bytes → Option S
  | done s, _ => some s
  | print _ _ k, input => returned k input
  | take n k, input => if n ≤ input.length then returned (k (input.take n)) (input.drop n) else none

/-- What it returns with when the input ends behind these octets, and what is left of them: a read
gets what there is. -/
def Proc.drain : Proc S → Bytes → S × Bytes
  | done s, input => (s, input)
  | print _ _ k, input => drain k input
  | take n k, input => drain (k (input.take n)) (input.drop n)

/-- Every state it can return with is one of these, whatever octets it takes. -/
def Proc.Ends (P : S → Prop) : Proc S → Prop
  | done s => P s
  | print _ _ k => Ends P k
  | take _ k => ∀ bs, Ends P (k bs)

/-- The server gets one octet. -/
def Mode.feed : Mode G S → Byte → Mode G S × List Cell
  | line s g, b =>
    match srv.step g b with
    | .inl g => (.line s g, [])
    | .inr args => (srv.dispatch s args).settle srv
  | raw missing got k, b =>
    if missing ≤ 1 then (k (got ++ [b])).settle srv else (.raw (missing - 1) (got ++ [b]) k, [])

/-- The server gets one octet, and what it prints goes to the client. -/
def Wire.feed1 (w : Wire G S) (b : Byte) : Wire G S :=
  ⟨(w.mode.feed srv b).1, w.inbox ++ (w.mode.feed srv b).2, !(w.mode.feed srv b).2.isEmpty⟩

/-- The server gets some octets. -/
def Wire.feed (w : Wire G S) (bs : Bytes) : Wire G S := bs.foldl (Wire.feed1 srv) w

/-! ## Running -/

/-- The client against a server that answers at once, with a line buffer of `max` octets. `inl` is
the result; `inr` where the client waits for what the server will never print. -/
def Talk.run (max : ℕ) : Talk F α → Wire G S → (α × Wire G S) ⊕ Wire G S
  | ret a, w => .inl (a, w)
  | spin, w => .inr w
  | write bs k, w => run max (k (.ok ())) (w.feed srv bs)
  | readln k, w =>
    match nextLine max w.bytes with
    | none => .inr w
    | some (l, n) => run max (k (.ok l)) (w.drop n)
  | read n k, w =>
    if n ≤ w.inbox.length then run max (k (.ok (w.bytes.take n))) (w.drop n) else .inr w

/-! ## Feeding -/

variable {srv}

@[simp] theorem Wire.drop_mode (w : Wire G S) (n : ℕ) : (w.drop n).mode = w.mode := rfl

@[simp] theorem Wire.drop_answered (w : Wire G S) (n : ℕ) : (w.drop n).answered = w.answered := rfl

theorem Wire.drop_drop (w : Wire G S) (m n : ℕ) : (w.drop m).drop n = w.drop (m + n) := by
  simp [drop]

@[simp] theorem Wire.drop_bytes (w : Wire G S) (n : ℕ) : (w.drop n).bytes = w.bytes.drop n := by
  simp [bytes, drop]

@[simp] theorem map_byte_cells (payload : Bool) (bs : Bytes) :
    (cells payload bs).map Cell.byte = bs := by
  simp [cells, Function.comp_def]

@[simp] theorem Wire.length_bytes (w : Wire G S) : w.bytes.length = w.inbox.length := by
  simp [bytes]

theorem Wire.inbox_eq_nil {w : Wire G S} (h : w.bytes = []) : w.inbox = [] := by
  simpa [bytes] using h

section Wire

variable {payload : Bool} {bs : Bytes} {k : Proc S} {f : Bytes → Proc S} {n : ℕ} {s : S}

@[simp] theorem Proc.wire_done : (done s).wire srv = ⟨.line s srv.init, [], false⟩ := rfl

@[simp] theorem Proc.wire_print_mode : ((print payload bs k).wire srv).mode = (k.wire srv).mode :=
  rfl

@[simp] theorem Proc.wire_print_inbox :
    ((print payload bs k).wire srv).inbox = cells payload bs ++ (k.wire srv).inbox := rfl

theorem Proc.wire_answered (p : Proc S) :
    (p.wire srv).answered = !(p.wire srv).inbox.isEmpty := rfl

@[simp] theorem Proc.wire_print_bytes :
    ((print payload bs k).wire srv).bytes = bs ++ (k.wire srv).bytes := by
  simp [Wire.bytes]

@[simp] theorem Proc.wire_take_zero : (take 0 f).wire srv = (f []).wire srv := rfl

@[simp] theorem Proc.printed_done (input : Bytes) : (done s).printed input = [] := rfl

@[simp] theorem Proc.printed_print (input : Bytes) :
    (print payload bs k).printed input = bs ++ k.printed input := rfl

theorem Proc.printed_take {input : Bytes} (h : n ≤ input.length) :
    (take n f).printed input = (f (input.take n)).printed (input.drop n) := by
  rw [printed, if_pos h]

@[simp] theorem Proc.returned_done (input : Bytes) : (done s).returned input = some s := rfl

@[simp] theorem Proc.returned_print (input : Bytes) :
    (print payload bs k).returned input = k.returned input := rfl

theorem Proc.returned_take {input : Bytes} (h : n ≤ input.length) :
    (take n f).returned input = (f (input.take n)).returned (input.drop n) := by
  rw [returned, if_pos h]

/-- What is left is not more than there was. -/
theorem Proc.length_drain_le (p : Proc S) (input : Bytes) :
    (p.drain input).2.length ≤ input.length := by
  induction p generalizing input with
  | done s => exact le_rfl
  | print payload bs k ih => exact ih input
  | take n k ih => exact (ih _ _).trans (by rw [List.length_drop]; exact Nat.sub_le _ _)

theorem Proc.Ends.ite {P : S → Prop} {c : Prop} [Decidable c] {p q : Proc S} (hp : p.Ends P)
    (hq : q.Ends P) : (if c then p else q).Ends P := by
  split
  · exact hp
  · exact hq

theorem Proc.Ends.drain {P : S → Prop} {p : Proc S} (h : p.Ends P) (input : Bytes) :
    P (p.drain input).1 := by
  induction p generalizing input with
  | done s => exact h
  | print payload bs k ih => exact ih h input
  | take n k ih => exact ih _ (h _) _

theorem Proc.wire_take_pos (h : 0 < n) : (take n f).wire srv = ⟨.raw n [] f, [], false⟩ := by
  obtain ⟨k, rfl⟩ := Nat.exists_eq_succ_of_ne_zero (Nat.pos_iff_ne_zero.mp h)
  rfl

end Wire

@[simp] theorem Wire.feed_nil (w : Wire G S) : w.feed srv [] = w := rfl

@[simp] theorem Wire.feed_cons (w : Wire G S) (b : Byte) (bs : Bytes) :
    w.feed srv (b :: bs) = (w.feed1 srv b).feed srv bs := rfl

theorem Wire.feed_append (w : Wire G S) (bs cs : Bytes) :
    w.feed srv (bs ++ cs) = (w.feed srv bs).feed srv cs := by
  simp [feed]

/-- What the client has not read does not matter to the server. -/
theorem Wire.feed_mk (m : Mode G S) (inbox : List Cell) (a : Bool) (bs : Bytes) :
    (⟨m, inbox, a⟩ : Wire G S).feed srv bs =
      { (⟨m, [], a⟩ : Wire G S).feed srv bs with
        inbox := inbox ++ ((⟨m, [], a⟩ : Wire G S).feed srv bs).inbox } := by
  induction bs generalizing m inbox a with
  | nil => simp
  | cons b bs ih =>
    simp only [feed_cons, feed1, List.nil_append]
    rw [ih, ih _ (m.feed srv b).2, List.append_assoc]

/-- What was waiting stays in front of what is printed. -/
theorem Wire.feed_inbox (srv : Server G S) (w : Wire G S) (bs : Bytes) :
    ∃ out, (w.feed srv bs).inbox = w.inbox ++ out ∧
      ∀ n ≤ w.inbox.length, (w.drop n).feed srv bs = (w.feed srv bs).drop n := by
  obtain ⟨m, inbox, a⟩ := w
  refine ⟨((⟨m, [], a⟩ : Wire G S).feed srv bs).inbox, by rw [feed_mk], fun n hn => ?_⟩
  rw [drop, drop, feed_mk, feed_mk m inbox]
  simp only [List.drop_append_of_le_length hn]

/-- A server that has printed nothing for some octets, and has left nothing unanswered, has not
been given any. -/
theorem Wire.eq_nil_of_answered {w : Wire G S} {bs : Bytes} (hin : (w.feed srv bs).inbox = [])
    (ha : (w.feed srv bs).answered = true) : bs = [] := by
  rcases List.eq_nil_or_concat bs with rfl | ⟨init, b, rfl⟩
  · rfl
  · rw [List.concat_eq_append, feed_append, feed_cons, feed_nil, feed1] at hin ha
    rw [(List.append_eq_nil_iff.mp hin).2] at ha
    cases ha

/-- A server that reads a line, given octets on which the automaton does not stop. -/
theorem Wire.feed_line_inl {s : S} {g g' : G} {inbox : List Cell} {a : Bool} {bs : Bytes}
    (h : scan srv.step g bs = .inl g') :
    (⟨.line s g, inbox, a⟩ : Wire G S).feed srv bs = ⟨.line s g', inbox, a && bs.isEmpty⟩ := by
  induction bs generalizing g a with
  | nil =>
    cases h
    simp
  | cons b bs ih =>
    rcases hb : srv.step g b with g₁ | args
    · rw [scan_cons_inl hb] at h
      simp [feed1, Mode.feed, hb, ih h]
    · rw [scan_cons_inr hb] at h
      cases h

/-- A server that reads a line, given one and something behind it. -/
theorem Wire.feed_line_inr {s : S} {g : G} {inbox : List Cell} {a : Bool} {bs rest : Bytes}
    {args : List Bytes} (h : scan srv.step g bs = .inr (args, rest)) :
    (⟨.line s g, inbox, a⟩ : Wire G S).feed srv bs =
      { (srv.dispatch s args).wire srv with
        inbox := inbox ++ ((srv.dispatch s args).wire srv).inbox }.feed srv rest := by
  induction bs generalizing g a with
  | nil => cases h
  | cons b bs ih =>
    rcases hb : srv.step g b with g₁ | args'
    · rw [scan_cons_inl hb] at h
      simp [feed1, Mode.feed, hb, ih h]
    · rw [scan_cons_inr hb] at h
      obtain ⟨rfl, rfl⟩ := Prod.mk.inj (Sum.inr.inj h)
      simp [feed1, Mode.feed, hb, Proc.wire]

/-- A server that waits for raw octets, given fewer of them. -/
theorem Wire.feed_raw_lt {missing : ℕ} {got : Bytes} {k : Bytes → Proc S} {inbox : List Cell}
    {a : Bool} {bs : Bytes} (h : bs.length < missing) :
    (⟨.raw missing got k, inbox, a⟩ : Wire G S).feed srv bs =
      ⟨.raw (missing - bs.length) (got ++ bs) k, inbox, a && bs.isEmpty⟩ := by
  induction bs generalizing missing got a with
  | nil => simp
  | cons b bs ih =>
    rw [List.length_cons] at h
    rw [feed_cons, feed1, Mode.feed, if_neg (by omega)]
    simp only [List.append_nil]
    rw [ih (by omega)]
    simp only [List.append_assoc, List.singleton_append, List.length_cons, Wire.mk.injEq,
      Mode.raw.injEq, and_true, List.isEmpty_nil, Bool.not_true, Bool.false_and, List.isEmpty_cons,
      Bool.and_false]
    omega

/-- A server that waits for raw octets, given exactly those. -/
theorem Wire.feed_raw_eq {missing : ℕ} {got : Bytes} {k : Bytes → Proc S} {inbox : List Cell}
    {a : Bool} {bs : Bytes} (hpos : 0 < missing) (h : bs.length = missing) :
    (⟨.raw missing got k, inbox, a⟩ : Wire G S).feed srv bs =
      { (k (got ++ bs)).wire srv with inbox := inbox ++ ((k (got ++ bs)).wire srv).inbox } := by
  obtain ⟨init, b, rfl⟩ : ∃ init b, bs = init ++ [b] := by
    refine ⟨bs.dropLast, bs.getLast (by rintro rfl; simp at h; omega), ?_⟩
    rw [List.dropLast_append_getLast]
  rw [List.length_append, List.length_singleton] at h
  rw [feed_append, feed_raw_lt (by omega), feed_cons, feed1, Mode.feed, if_pos (by omega)]
  simp [Proc.wire]

/-- A server that takes as many octets as it is given. -/
theorem Wire.feed_take (bs : Bytes) (f : Bytes → Proc S) :
    ((Proc.take bs.length f).wire srv).feed srv bs = (f bs).wire srv := by
  rcases Nat.eq_zero_or_pos bs.length with h | h
  · obtain rfl := List.length_eq_zero_iff.mp h
    rfl
  · rw [Proc.wire_take_pos h, feed_raw_eq h rfl, List.nil_append, List.nil_append]

/-- Input does not tell apart what is payload. -/
theorem Wire.feed_congr {w v : Wire G S} (hmode : w.mode = v.mode) (hbytes : w.bytes = v.bytes)
    (ha : v.answered = true → w.answered = true) (bs : Bytes) :
    (w.feed srv bs).mode = (v.feed srv bs).mode ∧ (w.feed srv bs).bytes = (v.feed srv bs).bytes ∧
      ((v.feed srv bs).answered = true → (w.feed srv bs).answered = true) := by
  induction bs generalizing w v with
  | nil => exact ⟨hmode, hbytes, ha⟩
  | cons b bs ih =>
    rw [feed_cons, feed_cons]
    refine ih ?_ ?_ fun h => ?_
    · simp only [feed1, hmode]
    · simp only [feed1, bytes, hmode, List.map_append, List.append_left_inj] at hbytes ⊢
      exact hbytes
    · simpa only [feed1, hmode] using h

/-! ## Postconditions -/

/-- If the client comes back, `Q` holds of its result and of where that leaves the server. -/
def Talk.Post (srv : Server G S) (max : ℕ) (Q : α → Wire G S → Prop) (t : Talk F α)
    (w : Wire G S) : Prop :=
  ∀ a w', t.run srv max w = .inl (a, w') → Q a w'

section Post

variable {max : ℕ} {Q : α → Wire G S → Prop} {w : Wire G S}

theorem Talk.post_ret {a : α} (h : Q a w) : (ret a : Talk F α).Post srv max Q w := by
  intro a' w' hrun
  obtain ⟨rfl, rfl⟩ := Prod.mk.inj (Sum.inl.inj hrun)
  exact h

theorem Talk.post_spin : (spin : Talk F α).Post srv max Q w := by
  intro a' w' hrun
  cases hrun

theorem Talk.post_write {bs : Bytes} {k : Except F Unit → Talk F α}
    (h : (k (.ok ())).Post srv max Q (w.feed srv bs)) : (write bs k).Post srv max Q w :=
  h

/-- A client that waits for a line comes back only if there is one. -/
theorem Talk.post_readln {k : Except F Bytes → Talk F α}
    (h : ∀ l n, nextLine max w.bytes = some (l, n) → (k (.ok l)).Post srv max Q (w.drop n)) :
    (readln k).Post srv max Q w := by
  intro a w' hrun
  rw [run] at hrun
  rcases hn : nextLine max w.bytes with _ | ⟨l, n⟩
  · simp [hn] at hrun
  · simp only [hn] at hrun
    exact h l n hn a w' hrun

/-- A client that waits for some octets comes back only if they are there. -/
theorem Talk.post_read {n : ℕ} {k : Except F Bytes → Talk F α}
    (h : n ≤ w.inbox.length → (k (.ok (w.bytes.take n))).Post srv max Q (w.drop n)) :
    (read n k).Post srv max Q w := by
  intro a w' hrun
  rw [run] at hrun
  split at hrun
  · next hn => exact h hn a w' hrun
  · cases hrun

end Post

/-! ## Any order -/

variable (srv)

/-- The two sides with `pipe` on its way from the client to the server. -/
structure Config (F : Type u) (α : Type v) (G : Type w) (S : Type x) where
  talk : Talk F α
  pipe : Bytes
  wire : Wire G S

/-- One step of one side. -/
inductive Step (max : ℕ) : Config F α G S → Config F α G S → Prop
  /-- the server takes the next octet -/
  | serve (t b pipe w) : Step max ⟨t, b :: pipe, w⟩ ⟨t, pipe, w.feed1 srv b⟩
  | write (bs k pipe w) : Step max ⟨.write bs k, pipe, w⟩ ⟨k (.ok ()), pipe ++ bs, w⟩
  | readln (k pipe w l n) (h : nextLine max w.bytes = some (l, n)) :
    Step max ⟨.readln k, pipe, w⟩ ⟨k (.ok l), pipe, w.drop n⟩
  | read (n k pipe w) (h : n ≤ w.inbox.length) :
    Step max ⟨.read n k, pipe, w⟩ ⟨k (.ok (w.bytes.take n)), pipe, w.drop n⟩

/-- Any number of steps of the two sides, in any order. What holds of all `Steps` holds however long
the octets are on their way, and whoever goes first. -/
abbrev Steps (max : ℕ) : Config F α G S → Config F α G S → Prop :=
  Relation.ReflTransGen (Step srv max)

variable {srv} {max : ℕ} {c c' : Config F α G S}

/-- One step does not change what the client gets from a server that answers at once. -/
theorem Step.run_eq (h : Step srv max c c') :
    c'.talk.run srv max (c'.wire.feed srv c'.pipe) =
      c.talk.run srv max (c.wire.feed srv c.pipe) := by
  cases h with
  | serve t b pipe w => rfl
  | write bs k pipe w => simp only [Talk.run, Wire.feed_append]
  | readln k pipe w l n h =>
    obtain ⟨out, hout, hdrop⟩ := w.feed_inbox srv pipe
    have hlen : n ≤ w.inbox.length := by
      have := nextLine_le_length h
      simpa [Wire.bytes] using this
    have hline : nextLine max (w.feed srv pipe).bytes = some (l, n) := by
      rw [Wire.bytes, hout, List.map_append]
      exact nextLine_append h _
    simp only [Talk.run, hline, hdrop n hlen]
  | read n k pipe w h =>
    obtain ⟨out, hout, hdrop⟩ := w.feed_inbox srv pipe
    have hbytes : (w.feed srv pipe).bytes.take n = w.bytes.take n := by
      rw [Wire.bytes, hout, List.map_append, List.take_append_of_le_length (by simpa using h)]
      rfl
    have hlen : n ≤ (w.feed srv pipe).inbox.length := by
      rw [hout, List.length_append]
      omega
    simp only [Talk.run, if_pos hlen, hbytes, hdrop n h]

/-- **The order does not matter**: however the two sides take turns, what the client gets is what
it gets from a server that answers at once. -/
theorem Steps.run_eq (h : Steps srv max c c') :
    c'.talk.run srv max (c'.wire.feed srv c'.pipe) =
      c.talk.run srv max (c.wire.feed srv c.pipe) := by
  induction h with
  | refl => rfl
  | tail _ hstep ih => rw [hstep.run_eq, ih]

/-- The server takes all that is on its way. -/
theorem Steps.serve_all (t : Talk F α) (pipe : Bytes) (w : Wire G S) :
    Steps srv max ⟨t, pipe, w⟩ ⟨t, [], w.feed srv pipe⟩ := by
  induction pipe generalizing w with
  | nil => exact .refl
  | cons b pipe ih => exact .head (.serve t b pipe w) (ih _)

/-- A run against a server that answers at once is one of the schedules. -/
theorem Steps.of_run {t : Talk F α} {w w' : Wire G S} {a : α} (h : t.run srv max w = .inl (a, w')) :
    Steps srv max ⟨t, [], w⟩ ⟨.ret a, [], w'⟩ := by
  induction t generalizing w with
  | ret a' =>
    obtain ⟨rfl, rfl⟩ := Prod.mk.inj (Sum.inl.inj h)
    exact .refl
  | spin => cases h
  | write bs k ih =>
    refine .head (.write bs k [] w) ?_
    rw [List.nil_append]
    exact (serve_all _ bs w).trans (ih _ h)
  | readln k ih =>
    rw [Talk.run] at h
    rcases hn : nextLine max w.bytes with _ | ⟨l, n⟩
    · simp [hn] at h
    · simp only [hn] at h
      exact .head (.readln k [] w l n hn) (ih _ h)
  | read n k ih =>
    rw [Talk.run] at h
    split at h
    · next hn => exact .head (.read n k [] w hn) (ih _ h)
    · cases h

/-- A client that has come back came back with that result, and when the server has taken what is
still on its way, the two are where the server that answers at once is. -/
theorem Steps.run_of_ret {t : Talk F α} {pipe pipe' : Bytes} {w w' : Wire G S} {a : α}
    (h : Steps srv max ⟨t, pipe, w⟩ ⟨.ret a, pipe', w'⟩) :
    t.run srv max (w.feed srv pipe) = .inl (a, w'.feed srv pipe') :=
  h.run_eq.symm

end Lib
