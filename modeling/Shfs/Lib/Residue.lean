import Shfs.Lib.Dialogue

/-!
# What a command leaves on the streams

A server in the middle of a command still wants a number of raw octets, and when it gets them it
prints the rest of its answer. `Mode.demand` is that number and `Wire.left` everything that is
still to come for the client, with the octets of the payload marked. Both are counted with blanks
for the missing octets; `Wire.feed_demand` says that as many blanks bring the server back to its
lines.
-/

namespace Lib

universe w x

variable {G : Type w} {S : Type x}

/-- Something to send for raw octets nobody has. -/
def blanks (n : ℕ) : Bytes := List.replicate n sp

@[simp] theorem length_blanks (n : ℕ) : (blanks n).length = n := List.length_replicate

theorem blanks_add (m n : ℕ) : blanks (m + n) = blanks m ++ blanks n := List.replicate_add ..

/-- The raw octets a `Proc` takes. -/
def Proc.demand : Proc S → ℕ
  | done _ => 0
  | print _ _ k => demand k
  | take n k => n + demand (k (blanks n))

/-- The raw octets the server still takes before it reads a line. -/
def Mode.demand : Mode G S → ℕ
  | line _ _ => 0
  | raw missing got k => missing + (k (got ++ blanks missing)).demand

variable (srv : Server G S)

/-- The server is not inside a line. -/
def Mode.Whole : Mode G S → Prop
  | line _ g => g = srv.init
  | raw missing _ _ => 0 < missing

/-- What waits for the client, and what the server still prints for this command. -/
def Wire.left (w : Wire G S) : List Cell := (w.feed srv (blanks w.mode.demand)).inbox

/-- The octets of the payload among some cells. -/
def payloadCount (cs : List Cell) : ℕ := cs.countP Cell.payload

variable {srv}

@[simp] theorem payloadCount_append (cs ds : List Cell) :
    payloadCount (cs ++ ds) = payloadCount cs + payloadCount ds :=
  List.countP_append

@[simp] theorem payloadCount_cells (payload : Bool) (bs : Bytes) :
    payloadCount (cells payload bs) = if payload then bs.length else 0 := by
  cases payload <;> simp [payloadCount, cells, List.countP_map, Function.comp_def]

/-- Where the server gets depends on where it is and what it takes. -/
theorem Wire.feed_mode {w v : Wire G S} (h : w.mode = v.mode) (bs : Bytes) :
    (w.feed srv bs).mode = (v.feed srv bs).mode := by
  induction bs generalizing w v with
  | nil => exact h
  | cons b bs ih => exact ih (by rw [feed1, feed1, h])

/-- A `Proc` that is given what it wants ends at a new line. -/
theorem Proc.feed_demand (srv : Server G S) (p : Proc S) :
    ∃ s, ((p.wire srv).feed srv (blanks p.demand)).mode = .line s srv.init := by
  induction p with
  | done s => exact ⟨s, rfl⟩
  | print payload bs k ih =>
    obtain ⟨s, hs⟩ := ih
    exact ⟨s, (Wire.feed_mode wire_print_mode _).trans hs⟩
  | take n k ih =>
    obtain ⟨s, hs⟩ := ih (blanks n)
    refine ⟨s, ?_⟩
    rw [demand, blanks_add, Wire.feed_append]
    nth_rewrite 1 [← length_blanks n]
    rw [Wire.feed_take, hs]

/-- **As many blanks as it wants** bring a server that is not inside a line to a new line. -/
theorem Wire.feed_demand {w : Wire G S} (h : w.mode.Whole srv) :
    ∃ s, (w.feed srv (blanks w.mode.demand)).mode = .line s srv.init := by
  obtain ⟨mode, inbox, a⟩ := w
  cases mode with
  | line s g =>
    obtain rfl : g = srv.init := h
    exact ⟨s, rfl⟩
  | raw missing got k =>
    obtain ⟨s, hs⟩ := Proc.feed_demand srv (k (got ++ blanks missing))
    refine ⟨s, ?_⟩
    rw [Mode.demand, blanks_add, feed_append, feed_raw_eq h (length_blanks missing), ← hs]
    exact feed_mode (by rfl) _

/-! ## Octets that are thrown away -/

/-- The server takes `n` octets and says nothing until it reads a line. -/
def Mode.Sinks (srv : Server G S) (n : ℕ) (m : Mode G S) : Prop :=
  (n = 0 ∧ ∃ s, m = .line s srv.init) ∨ (0 < n ∧ ∃ got s, m = .raw n got fun _ => .done s)

theorem Proc.sinks_take (srv : Server G S) (n : ℕ) (s : S) :
    ((take n fun _ => done s).wire srv).mode.Sinks srv n := by
  rcases Nat.eq_zero_or_pos n with rfl | h
  · exact Or.inl ⟨rfl, s, rfl⟩
  · rw [wire_take_pos h]
    exact Or.inr ⟨h, [], s, rfl⟩

theorem Proc.wire_sink_bytes (srv : Server G S) (n : ℕ) (s : S) :
    ((take n fun _ => done s).wire srv).bytes = [] := by
  rcases Nat.eq_zero_or_pos n with rfl | h
  · rfl
  · rw [wire_take_pos h]
    rfl

theorem Mode.Sinks.feed {w : Wire G S} {n : ℕ} (h : w.mode.Sinks srv n) {bs : Bytes}
    (hlen : bs.length ≤ n) :
    (w.feed srv bs).mode.Sinks srv (n - bs.length) ∧ (w.feed srv bs).inbox = w.inbox := by
  obtain ⟨mode, inbox, a⟩ := w
  rcases h with ⟨rfl, s, hs⟩ | ⟨hpos, got, s, hs⟩
  · obtain rfl := List.length_eq_zero_iff.mp (Nat.le_zero.mp hlen)
    exact ⟨Or.inl ⟨rfl, s, hs⟩, rfl⟩
  · obtain rfl : mode = .raw n got fun _ => .done s := hs
    rcases Nat.lt_or_ge bs.length n with hlt | hge
    · rw [Wire.feed_raw_lt hlt]
      exact ⟨Or.inr ⟨by omega, _, s, rfl⟩, rfl⟩
    · rw [Wire.feed_raw_eq hpos (by omega)]
      exact ⟨Or.inl ⟨by omega, s, rfl⟩, by simp⟩

theorem Mode.Sinks.demand {m : Mode G S} {n : ℕ} (h : m.Sinks srv n) : m.demand = n := by
  rcases h with ⟨rfl, s, rfl⟩ | ⟨-, got, s, rfl⟩ <;> rfl

/-- Nothing more comes from a server that throws away what it gets. -/
theorem Mode.Sinks.left {w : Wire G S} {n : ℕ} (h : w.mode.Sinks srv n) :
    w.left srv = w.inbox := by
  rw [Wire.left, h.demand]
  exact (h.feed (length_blanks n).le).2

end Lib
