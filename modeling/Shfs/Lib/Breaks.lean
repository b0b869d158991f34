import Shfs.Lib.Residue

/-!
# Connections that break

A connection that breaks in one of the transfers of a client: the transfer fails, and all that come
after it. When it was a write, some of its octets may have got through. A client that `Quits` comes
back at the first fault, with a result of a certain kind, and the server is then in one of the
states that it has on the way (`Talk.break_cases`). As long as the client only `Listens`, that is
the same one all the time.
-/

namespace Lib

universe u v w x

variable {F : Type u} {α : Type v} {G : Type w} {S : Type x}

/-- The program on a connection that breaks with `f` after `n` transfers; of a write that it breaks
in, `m` octets get through. -/
def Talk.breakAt (f : F) (m : ℕ) : ℕ → Talk F α → Talk F α
  | _, ret a => ret a
  | _, spin => spin
  | 0, write bs k => write (bs.take m) fun _ => breakAfter f 0 (k (.error f))
  | 0, readln k => breakAfter f 0 (k (.error f))
  | 0, read _ k => breakAfter f 0 (k (.error f))
  | n + 1, write bs k => write bs fun r => breakAt f m n (k r)
  | n + 1, readln k => readln fun r => breakAt f m n (k r)
  | n + 1, read i k => read i fun r => breakAt f m n (k r)

/-- The program comes back at the first fault, with such a result. -/
def Talk.Quits (f : F) (Q : α → Prop) : Talk F α → Prop
  | ret _ => True
  | spin => True
  | write _ k => (∃ a, k (.error f) = ret a ∧ Q a) ∧ Quits f Q (k (.ok ()))
  | readln k => (∃ a, k (.error f) = ret a ∧ Q a) ∧ ∀ l, Quits f Q (k (.ok l))
  | read _ k => (∃ a, k (.error f) = ret a ∧ Q a) ∧ ∀ bs, Quits f Q (k (.ok bs))

/-- The program writes nothing, unless there is a fault. -/
def Talk.Listens : Talk F α → Prop
  | ret _ => True
  | spin => True
  | write _ _ => False
  | readln k => ∀ l, Listens (k (.ok l))
  | read _ k => ∀ bs, Listens (k (.ok bs))

/-- A break in one of the transfers leaves the server in this state. -/
def Talk.Leaves (srv : Server G S) (max m : ℕ) (mode : Mode G S) : Talk F α → Wire G S → Prop
  | ret _, _ => False
  | spin, _ => False
  | write bs k, w =>
    (w.feed srv (bs.take m)).mode = mode ∨ Leaves srv max m mode (k (.ok ())) (w.feed srv bs)
  | readln k, w =>
    w.mode = mode ∨
      ∃ l n, nextLine max w.bytes = some (l, n) ∧ Leaves srv max m mode (k (.ok l)) (w.drop n)
  | read n k, w =>
    w.mode = mode ∨ n ≤ w.inbox.length ∧ Leaves srv max m mode (k (.ok (w.bytes.take n))) (w.drop n)

section Breaks

variable {srv : Server G S} {max m : ℕ} {f : F} {Q : α → Prop} {t : Talk F α} {w w' : Wire G S}
  {a : α}

/-- A program at its first fault. -/
theorem Talk.run_fault {k : Talk F α} (h : ∃ a, k = ret a ∧ Q a) (w : Wire G S) :
    ∃ b, (k.breakAfter f 0).run srv max w = .inl (b, w) ∧ Q b := by
  obtain ⟨b, rfl, hb⟩ := h
  exact ⟨b, rfl, hb⟩

/-- **Breaking off**: a program that would have come back comes back all the same, with what it
would have had, or at a fault. -/
theorem Talk.break_cases (hq : t.Quits f Q) (h : t.run srv max w = .inl (a, w')) (m n : ℕ) :
    ∃ b v, (t.breakAt f m n).run srv max w = .inl (b, v) ∧
      (b = a ∧ v = w' ∨ Q b ∧ t.Leaves srv max m v.mode w) := by
  induction t generalizing w n with
  | ret b =>
    obtain ⟨rfl, rfl⟩ := Prod.mk.inj (Sum.inl.inj h)
    exact ⟨b, w, by cases n <;> rfl, .inl ⟨rfl, rfl⟩⟩
  | spin => cases h
  | write bs k ih =>
    cases n with
    | zero =>
      obtain ⟨b, hrun, hb⟩ := run_fault hq.1 (w.feed srv (bs.take m))
      exact ⟨b, _, hrun, .inr ⟨hb, .inl rfl⟩⟩
    | succ n =>
      obtain ⟨b, v, hrun, hcases⟩ := ih (.ok ()) hq.2 h n
      exact ⟨b, v, hrun, hcases.imp_right (And.imp_right .inr)⟩
  | readln k ih =>
    cases n with
    | zero =>
      obtain ⟨b, hrun, hb⟩ := run_fault hq.1 w
      exact ⟨b, w, hrun, .inr ⟨hb, .inl rfl⟩⟩
    | succ n =>
      rw [run] at h
      rcases hn : nextLine max w.bytes with _ | ⟨l, i⟩
      · simp [hn] at h
      · simp only [hn] at h
        obtain ⟨b, v, hrun, hcases⟩ := ih (.ok l) (hq.2 l) h n
        refine ⟨b, v, by
          simpa only [breakAt, run, hn] using hrun, hcases.imp_right (And.imp_right ?_)⟩
        exact fun hleaves => .inr ⟨l, i, hn, hleaves⟩
  | read i k ih =>
    cases n with
    | zero =>
      obtain ⟨b, hrun, hb⟩ := run_fault hq.1 w
      exact ⟨b, w, hrun, .inr ⟨hb, .inl rfl⟩⟩
    | succ n =>
      rw [run] at h
      split at h
      · next hi =>
        obtain ⟨b, v, hrun, hcases⟩ := ih (.ok (w.bytes.take i)) (hq.2 _) h n
        refine ⟨b, v, by simpa only [breakAt, run, if_pos hi] using hrun,
          hcases.imp_right (And.imp_right ?_)⟩
        exact fun hleaves => .inr ⟨hi, hleaves⟩
      · cases h

/-- A program that listens leaves the server as it is. -/
theorem Talk.Listens.leaves_eq (ht : t.Listens) {mode : Mode G S} (h : t.Leaves srv max m mode w) :
    mode = w.mode := by
  induction t generalizing w with
  | ret a => exact h.elim
  | spin => exact h.elim
  | write bs k ih => cases ht
  | readln k ih =>
    rcases h with rfl | ⟨l, n, -, h⟩
    · rfl
    · exact (ih (.ok l) (ht l) h).trans (w.drop_mode n)
  | read n k ih =>
    rcases h with rfl | ⟨-, h⟩
    · rfl
    · exact (ih (.ok _) (ht _) h).trans (w.drop_mode n)

theorem Talk.Listens.run_mode (ht : t.Listens) (h : t.run srv max w = .inl (a, w')) :
    w'.mode = w.mode := by
  induction t generalizing w with
  | ret b =>
    obtain ⟨-, rfl⟩ := Prod.mk.inj (Sum.inl.inj h)
    rfl
  | spin => cases h
  | write bs k ih => cases ht
  | readln k ih =>
    rw [run] at h
    rcases hn : nextLine max w.bytes with _ | ⟨l, n⟩
    · simp [hn] at h
    · simp only [hn] at h
      exact (ih (.ok l) (ht l) h).trans (w.drop_mode n)
  | read n k ih =>
    rw [run] at h
    split at h
    · exact (ih (.ok _) (ht _) h).trans (w.drop_mode n)
    · cases h

end Breaks

end Lib
