import Shfs.Transparency

/-!
# Writes that get lost

Here the remote commands may fail. `Fops.Logs` is all that is assumed of them: the remote side
keeps a log of the writes that have succeeded. An octet is *owed* (`CacheOp.owed`) from the moment
a call reports it as written, until it has been stored with its value by a successful write, another
one has been reported in its place, or a call has failed. No octet is lost without a failure as long
as everything owed is in a dirty buffer, with its value (`Slot.Keeps`).

Every call keeps this but one. A read that needs octets behind the buffer writes out what is dirty,
and does not look whether that succeeds. `CacheOp.Flushes` is the condition that it does. A write
that reaches 2^32 goes on at 0 in the middle of its octets, and one of 2^31 octets and more has a
result that looks like an error; the condition leaves both of them out.
-/

namespace Shfs

open Lib

variable {σ : Type}

/-- The remote side logs what has been stored, and a write that fails stores nothing. -/
structure Fops.Logs (ops : Fops σ) (log : σ → List (ℕ × Bytes)) : Prop where
  read : ∀ name off n ino s, log (ops.read name off n ino s).remote = log s
  stored : ∀ name off d ino s n, (ops.write name off d ino s).result = .ok n →
    log (ops.write name off d ino s).remote = log s ++ [(off, d)]
  failed : ∀ name off d ino s e, (ops.write name off d ino s).result = .error e →
    log (ops.write name off d ino s).remote = log s

/-! ## What is owed -/

/-- The octet that is still to be written at position `i`. -/
def FCache.dirty (c : FCache) (i : ℕ) : Option Byte :=
  match c.type with
  | .read => none
  | .write => octet c.offset c.held i

/-- The octet that is still to be written at position `i`. -/
def Slot.dirty (s : Slot σ) (i : ℕ) : Option Byte := s.cache.bind (·.dirty i)

/-- Is this octet among what has been stored at position `i`? -/
def storedAs (stores : List (ℕ × Bytes)) (i : ℕ) (b : Byte) : Bool :=
  stores.any fun w => octet w.1 w.2 i == some b

/-- A negative result. -/
def Answer.failed : Answer → Bool
  | .status (.error _) | .data (.error _) => true
  | _ => false

namespace CacheOp

/-- The octet the call reports as written at position `i`. -/
def reported (answer : Answer) (i : ℕ) : CacheOp → Option Byte
  | write _ _ offset buffer =>
    match answer with
    | .status (.ok n) => octet offset (buffer.take n) i
    | _ => none
  | _ => none

/-- The octets owed after the call, with what has been stored during it: those that it reports and,
at other positions, those owed before, unless they are among what has been stored. -/
def owed (owed : ℕ → Option Byte) (answer : Answer) (stores : List (ℕ × Bytes)) (op : CacheOp)
    (i : ℕ) : Option Byte :=
  if answer.failed then none
  else ((op.reported answer i).or (owed i)).filter fun b => !storedAs stores i b

/-- The call, and what is owed after it. The octets that the remote side has been given during the
call are taken from its log; a call that does not come back changes nothing. -/
def track (ops : Fops σ) (size fuel : ℕ) (log : σ → List (ℕ × Bytes))
    (s : Slot σ × (ℕ → Option Byte)) (op : CacheOp) : Slot σ × (ℕ → Option Byte) :=
  match op.call ops size fuel s.1 with
  | none => s
  | some (answer, s') =>
    (s', op.owed s.2 answer ((log s'.remote).drop (log s.1.remote).length))

/-- The octets a read has to write out before it goes on are stored, and a write stays below 2^32. A
read that finds all its octets in the buffer has nothing to write out, and neither has one that
finds no dirty octets there. -/
def Flushes (ops : Fops σ) (s : Slot σ) : CacheOp → Prop
  | read f mem offset count => ∀ c ∈ (s.alloc mem).cache, c.type = .write → c.count ≠ 0 →
    c.got offset count < count →
      ((ops.write f.name c.offset c.held f.ino (s.alloc mem).remote).result matches .ok _)
  | write _ _ offset buffer => offset + buffer.length < 2 ^ 32
  | _ => True

end CacheOp

/-- What is owed is in a dirty buffer, with its value. An octet is owed from the call that has
reported it until it is stored, another one is reported in its place, or a call fails. -/
def Slot.Keeps (s : Slot σ) (owed : ℕ → Option Byte) : Prop :=
  ∀ i b, owed i = some b → s.dirty i = some b

/-! ## Reads, syncs and closes

These report nothing: what is owed has to stay in the buffer or be stored. -/

/-- What is dirty in `s` is stored during a call, or still dirty in `s'`. -/
def Slot.Carries (s s' : Slot σ) (stores : List (ℕ × Bytes)) : Prop :=
  ∀ i b, s.dirty i = some b → storedAs stores i b = true ∨ s'.dirty i = some b

theorem storedAs_singleton {off : ℕ} {d : Bytes} {i : ℕ} {b : Byte} (h : octet off d i = some b) :
    storedAs [(off, d)] i b = true := by
  rw [storedAs, List.any_cons, h, beq_self_eq_true, Bool.true_or]

/-- A buffer that is not dirty, or has no octets, owes nothing. -/
theorem FCache.dirty_eq_none {c : FCache} (h : c.type = .read ∨ c.count = 0) (i : ℕ) :
    c.dirty i = none := by
  unfold FCache.dirty
  split
  · rfl
  · next ht =>
    rcases h with h | h
    · rw [h] at ht
      cases ht
    · rw [FCache.held, h, fetch_zero]
      unfold octet
      split <;> rfl

theorem Slot.dirty_alloc (s : Slot σ) (mem : Memory) : (s.alloc mem).dirty = s.dirty := by
  funext i
  unfold Slot.dirty
  obtain hc | ⟨hnone, data, hc⟩ := s.alloc_cases mem
  · rw [hc]
  · rw [hc, hnone]
    exact FCache.dirty_eq_none (c := ⟨.read, true, 0, 0, data⟩) (.inl rfl) i

/-- Writing the buffer out stores what is dirty in it. -/
theorem FCache.storedAs_held {c : FCache} {i : ℕ} {b : Byte} (h : c.dirty i = some b) :
    storedAs [(c.offset, c.held)] i b = true := by
  unfold FCache.dirty at h
  split at h
  · cases h
  · exact storedAs_singleton h

section Steps

variable {ops : Fops σ} {size fuel : ℕ} {log : σ → List (ℕ × Bytes)} (hops : ops.Logs log)

include hops in
/-- A write either fails and stores nothing, or stores its octets. -/
theorem Fops.Logs.write_cases (name : Bytes) (off : ℕ) (d : Bytes) (ino : ℕ) (s : σ) :
    (∃ e, (ops.write name off d ino s).result = .error e ∧
      log (ops.write name off d ino s).remote = log s) ∨
    (∃ n, (ops.write name off d ino s).result = .ok n ∧
      log (ops.write name off d ino s).remote = log s ++ [(off, d)]) := by
  cases h : (ops.write name off d ino s).result with
  | error e => exact Or.inl ⟨e, rfl, hops.failed _ _ _ _ _ _ h⟩
  | ok n => exact Or.inr ⟨n, rfl, hops.stored _ _ _ _ _ _ h⟩

include hops in
/-- The reading loop writes nothing. -/
theorem Reading.loop_log {v : Reading σ} {x : (Errno × Reading σ) ⊕ Reading σ}
    (h : loop (fun v => decide (v.count ≠ 0)) (Reading.fill ops size) fuel v = some x) :
    log (x.elim (·.2.remote) (·.remote)) = log v.remote := by
  have hround : ∀ v' : Reading σ, log v'.remote = log v.remote →
      Sum.elim (fun x => log x.2.remote = log v.remote) (fun v' => log v'.remote = log v.remote)
        (v'.fill ops size) := by
    intro v' hv'
    unfold Reading.fill
    dsimp only
    split <;> exact (hops.read ..).trans hv'
  have hend := loop_rule (fun v' => log v'.remote = log v.remote)
    (fun x => log x.2.remote = log v.remote) (fun v' hv' _ => hround v' hv') rfl h
  cases x with
  | inl x => exact hend
  | inr v' => exact hend.1

/-- What `fcache_file_read` makes of the variables behind its loop. -/
theorem fcacheFileRead_end {mem : Memory} {f : OpenFile} {offset count : ℕ} {s s' : Slot σ}
    {r : Except Errno Bytes} {c : FCache} (hcache : (s.alloc mem).cache = some c)
    (h : fcacheFileRead ops size fuel mem f.file offset count s = some (r, s')) :
    ∃ x, loop (fun v => decide (v.count ≠ 0)) (Reading.fill ops size) fuel
        ((⟨f.name, offset, count, [], c, (s.alloc mem).remote⟩ : Reading σ).hit.flush ops f.ino) =
          some x ∧
      s' = ⟨some (x.elim (·.2.cache) (·.cache)), (s.alloc mem).free,
        x.elim (·.2.remote) (·.remote)⟩ := by
  rw [fcacheFileRead_cached f hcache] at h
  obtain ⟨x, hloop, hx⟩ := Option.map_eq_some_iff.mp h
  refine ⟨x, hloop, ?_⟩
  cases x <;> exact (Prod.mk.inj hx).2.symm

include hops in
/-- **A read** carries what is dirty, when the octets it writes out are stored: each octet is still
dirty behind it, or it is among what the remote side has been given. -/
theorem fcacheFileRead_carries {mem : Memory} {f : OpenFile} {offset count : ℕ} {s s' : Slot σ}
    {r : Except Errno Bytes} (hflush : (CacheOp.read f mem offset count).Flushes ops s)
    (h : fcacheFileRead ops size fuel mem f.file offset count s = some (r, s')) :
    ∃ stores, log s'.remote = log s.remote ++ stores ∧ s.Carries s' stores := by
  have hdirty := s.dirty_alloc mem
  have hremote := s.alloc_remote mem
  cases hcache : (s.alloc mem).cache with
  | none =>
    rw [fcacheFileRead_uncached f hcache] at h
    obtain ⟨-, rfl⟩ := Prod.mk.inj (Option.some.inj h)
    refine ⟨[], ?_, fun i b hi => ?_⟩
    · rw [List.append_nil, hops.read, hremote]
    · rw [← hdirty, Slot.dirty, hcache] at hi
      cases hi
  | some c =>
    have hsdirty : ∀ i, s.dirty i = c.dirty i := fun i => by
      rw [← hdirty, Slot.dirty, hcache, Option.bind_some]
    obtain ⟨x, hloop, rfl⟩ := fcacheFileRead_end hcache h
    -- the loop only reads, so all that is stored is stored in front of it
    have hlog := Reading.loop_log hops hloop
    set v : Reading σ := ⟨f.name, offset, count, [], c, (s.alloc mem).remote⟩ with hv
    have hleft : v.hit.count = count - c.got offset count := v.hit_count
    have hname : v.hit.name = f.name := v.hit_name.1
    have hfar : v.hit.remote = (s.alloc mem).remote := v.hit_name.2
    have hbuffer : v.hit.cache = c := v.hit_cache
    by_cases hneed : v.hit.count ≠ 0 ∧ v.hit.cache.type = .write
    · -- the dirty octets are written out, and nothing more is written
      rw [Reading.flush, if_pos hneed] at hlog
      rw [hleft, hbuffer] at hneed
      obtain ⟨hne, htype⟩ := hneed
      have hgot : c.got offset count < count := by omega
      dsimp only at hlog
      rw [hname, hfar, hbuffer] at hlog
      rcases hops.write_cases f.name c.offset c.held f.ino (s.alloc mem).remote with
        ⟨e, hres, herr⟩ | ⟨n, -, hstored⟩
      · refine ⟨[], by rw [List.append_nil, ← hremote, ← herr]; exact hlog, fun i b hi => ?_⟩
        have hz : c.count = 0 := by
          by_contra hz
          have := hflush c hcache htype hz hgot
          rw [hres] at this
          cases this
        rw [hsdirty, FCache.dirty_eq_none (.inr hz)] at hi
        cases hi
      · refine ⟨[(c.offset, c.held)], by rw [← hremote, ← hstored]; exact hlog, fun i b hi => ?_⟩
        rw [hsdirty] at hi
        exact Or.inl (FCache.storedAs_held hi)
    · rw [Reading.flush, if_neg hneed] at hlog hloop
      rw [hfar] at hlog
      refine ⟨[], by rw [List.append_nil, ← hremote]; exact hlog, fun i b hi => ?_⟩
      rw [hsdirty] at hi
      by_cases htype : c.type = .read
      · rw [FCache.dirty_eq_none (.inl htype)] at hi
        cases hi
      · -- nothing was needed behind the buffer, which stays as it is
        have hz : v.hit.count = 0 := by
          by_contra hz
          refine hneed ⟨hz, ?_⟩
          rw [hbuffer]
          cases ht : c.type with
          | read => exact absurd ht htype
          | write => rfl
        rw [loop_done (by simp [hz])] at hloop
        obtain rfl := Option.some.inj hloop
        refine Or.inr ?_
        change v.hit.cache.dirty i = some b
        rw [hbuffer]
        exact hi

include hops in
/-- **A sync** carries what is dirty, or fails. When it succeeds, nothing is dirty any more. -/
theorem fcacheFileSync_carries {f : OpenFile} {s s' : Slot σ} {r : Except Errno Unit}
    (h : fcacheFileSync ops f.file s = (r, s')) :
    ∃ stores, log s'.remote = log s.remote ++ stores ∧
      ((∃ e, r = .error e) ∨ (s.Carries s' stores ∧ ∀ i, s'.dirty i = none)) := by
  obtain ⟨cache, free, remote⟩ := s
  unfold fcacheFileSync at h
  simp only [OpenFile.check] at h
  cases cache with
  | none =>
    obtain ⟨-, rfl⟩ := Prod.mk.inj h
    exact ⟨[], (List.append_nil _).symm, Or.inr ⟨fun i b hi => Or.inr hi, fun i => rfl⟩⟩
  | some c =>
    dsimp only at h
    split at h
    · next hdirty =>
      rw [if_neg (getName_nonneg _ _)] at h
      obtain ⟨rfl, rfl⟩ := Prod.mk.inj h
      rcases hops.write_cases f.name c.offset c.held f.ino remote with
        ⟨e, hres, herr⟩ | ⟨n, hres, hstored⟩
      · exact ⟨[], by rw [List.append_nil]; exact herr, Or.inl ⟨e, congrArg _ hres⟩⟩
      · refine ⟨[(c.offset, c.held)], hstored, Or.inr ⟨fun i b hi => ?_, fun i => ?_⟩⟩
        · exact Or.inl (FCache.storedAs_held hi)
        · exact FCache.dirty_eq_none (c := { c with type := .read, count := 0 }) (.inl rfl) i
    · next hdirty =>
      obtain ⟨-, rfl⟩ := Prod.mk.inj h
      refine ⟨[], (List.append_nil _).symm, Or.inr ⟨fun i b hi => Or.inr hi, fun i => ?_⟩⟩
      refine FCache.dirty_eq_none ?_ i
      cases ht : c.type with
      | read => exact Or.inl rfl
      | write =>
        right
        by_contra hz
        exact hdirty ⟨hz, ht⟩

include hops in
/-- **A close** carries what is dirty, or fails. What it has not been able to write out stays in the
buffer when it fails. -/
theorem fcacheFileClose_carries {f : OpenFile} {s s' : Slot σ} {r : Except Errno Unit}
    (h : fcacheFileClose ops f.file s = (r, s')) :
    ∃ stores, log s'.remote = log s.remote ++ stores ∧
      ((∃ e, r = .error e) ∨ s.Carries s' stores) := by
  unfold fcacheFileClose at h
  obtain ⟨rs, s₁, hsync⟩ : ∃ rs s₁, fcacheFileSync ops f.file s = (rs, s₁) := ⟨_, _, rfl⟩
  obtain ⟨stores, hlog, hcarries⟩ := fcacheFileSync_carries hops hsync
  rw [hsync] at h
  cases rs with
  | error e =>
    obtain ⟨rfl, rfl⟩ := Prod.mk.inj h
    exact ⟨stores, hlog, Or.inl ⟨e, rfl⟩⟩
  | ok u =>
    rcases hcarries with ⟨e, he⟩ | ⟨hcarries, hclean⟩
    · cases he
    refine ⟨stores, ?_, Or.inr fun i b hi => ?_⟩
    · dsimp only at h
      split at h <;> (obtain ⟨-, rfl⟩ := Prod.mk.inj h; exact hlog)
    · -- after the sync nothing is dirty, so it has been stored
      rcases hcarries i b hi with hstored | hstill
      · exact Or.inl hstored
      · rw [hclean] at hstill
        cases hstill

/-- A clear touches only what is not dirty. -/
theorem fcacheFileClear_carries {f : OpenFile} {s s' : Slot σ} {r : Except Errno Unit}
    (h : fcacheFileClear f.file s = (r, s')) : s'.remote = s.remote ∧ s.Carries s' [] := by
  obtain ⟨cache, free, remote⟩ := s
  unfold fcacheFileClear at h
  simp only [OpenFile.check] at h
  cases cache with
  | none =>
    obtain ⟨-, rfl⟩ := Prod.mk.inj h
    exact ⟨rfl, fun i b hi => Or.inr hi⟩
  | some c =>
    dsimp only at h
    split at h
    · next hclean =>
      obtain ⟨-, rfl⟩ := Prod.mk.inj h
      refine ⟨rfl, fun i b hi => ?_⟩
      rw [Slot.dirty, Option.bind_some, FCache.dirty_eq_none (.inl hclean.2)] at hi
      cases hi
    · obtain ⟨-, rfl⟩ := Prod.mk.inj h
      exact ⟨rfl, fun i b hi => Or.inr hi⟩

/-! ## Writes -/

/-- Every octet that is due is held, or has been stored as it is. -/
def Secured (stores : List (ℕ × Bytes)) (held due : ℕ → Option Byte) : Prop :=
  ∀ i b, due i = some b → held i = some b ∨ storedAs stores i b = true

variable {stores : List (ℕ × Bytes)} {held due owed : ℕ → Option Byte}

/-- New octets that are due, and held. -/
theorem Secured.or (h : Secured stores held due) (new : ℕ → Option Byte) :
    Secured stores (fun i => (new i).or (held i)) (fun i => (new i).or (due i)) := by
  intro i b hi
  dsimp only at hi ⊢
  cases hnew : new i with
  | some b' =>
    rw [hnew] at hi
    exact Or.inl hi
  | none =>
    rw [hnew] at hi
    exact h i b hi

theorem storedAs_append {more : List (ℕ × Bytes)} {i : ℕ} {b : Byte} :
    storedAs (stores ++ more) i b = (storedAs stores i b || storedAs more i b) :=
  List.any_append ..

/-- More has been stored. -/
theorem Secured.append (h : Secured stores held due) (more : List (ℕ × Bytes)) :
    Secured (stores ++ more) held due := by
  intro i b hi
  rw [storedAs_append, Bool.or_eq_true]
  exact (h i b hi).imp_right Or.inl

/-- What was held has been stored, and the buffer can be used again. -/
theorem Secured.drain {off : ℕ} {d : Bytes} (h : Secured stores (octet off d) due)
    (held : ℕ → Option Byte) : Secured (stores ++ [(off, d)]) held due := by
  intro i b hi
  rw [storedAs_append, Bool.or_eq_true]
  exact Or.inr ((h i b hi).symm.imp_right storedAs_singleton)

/-- What is due in a write that has taken the front of its buffer: these octets, and what was owed
at other positions. -/
def Due (owed : ℕ → Option Byte) (offset : ℕ) (taken : Bytes) (i : ℕ) : Option Byte :=
  (octet offset taken i).or (owed i)

theorem Due.nil (owed : ℕ → Option Byte) (offset : ℕ) : Due owed offset [] = owed := by
  funext i
  unfold Due octet
  split <;> rfl

/-- The invariant of `fcache_file_write`, with the log at the start of the call: all that was owed,
and all that the call has taken, is dirty in the buffer or among what has been stored since. -/
structure Writing.Keeps (log : σ → List (ℕ × Bytes)) (before : List (ℕ × Bytes))
    (owed : ℕ → Option Byte) (offset : ℕ) (buffer : Bytes) (v : Writing σ) : Prop where
  taken : v.Taken offset buffer
  type : v.cache.type = .write
  accounted : ∃ stores, log v.remote = before ++ stores ∧
    Secured stores (octet v.cache.offset v.cache.held) (Due owed offset (buffer.take v.wrote))

variable {before : List (ℕ × Bytes)} {offset : ℕ} {buffer : Bytes} {v v' : Writing σ}

/-- What is due after taking `n` more octets. -/
theorem Writing.Taken.due_add (h : v.Taken offset buffer) (hbelow : offset + buffer.length < 2 ^ 32)
    (n : ℕ) : Due owed offset (buffer.take (v.wrote + n)) =
      fun i => (octet v.offset (v.buffer.take n) i).or
        (Due owed offset (buffer.take v.wrote) i) := by
  have hlen : (buffer.take v.wrote).length = v.wrote := List.length_take_of_le h.le
  have happend := store_length (buffer.take v.wrote) ((buffer.drop v.wrote).take n)
  rw [hlen, ← List.take_add] at happend
  funext i
  unfold Due
  rw [← happend, octet_store _ hlen.ge, h.offset_eq hbelow, h.rest, Option.or_assoc]

theorem Writing.Keeps.puts (hbelow : offset + buffer.length < 2 ^ 32)
    (hv : v.Keeps log before owed offset buffer) (h : v.Puts size v') :
    v'.Keeps log before owed offset buffer := by
  obtain rfl | ⟨o, n, ho, hin, hn, -, rfl⟩ := h
  · exact hv
  obtain ⟨stores, hlog, hacc⟩ := hv.accounted
  refine ⟨hv.taken.put hn _ _, hv.type, stores, hlog, ?_⟩
  have hlen : (v.buffer.take n).length = n := List.length_take_of_le hn
  have hheld := fetch_store_front v.cache.data hin (v.buffer.take n)
  rw [hlen] at hheld
  have hnew := hacc.or (Lib.octet v.offset (v.buffer.take n))
  rw [← hv.taken.due_add hbelow] at hnew
  intro i b hi
  have := hnew i b hi
  simp only [Writing.put, FCache.held]
  rw [hheld, octet_store _ (by rw [length_fetch]; exact hin), ← ho]
  exact this

include hops in
theorem Writing.drain_keeps (hpos : 0 < size) (hbelow : offset + buffer.length < 2 ^ 32) (ino : ℕ)
    (hv : v.Keeps log before owed offset buffer) (hne : v.count ≠ 0) :
    Sum.elim (Writing.Keeps log before owed offset buffer)
      (Writing.Keeps log before owed offset buffer) (v.drain ops size ino) := by
  obtain ⟨stores, hlog, hacc⟩ := hv.accounted
  obtain ⟨hn, -, -⟩ := Writing.drain_part (v := v) hpos hne
  unfold Writing.drain
  rcases hops.write_cases v.name v.cache.offset v.cache.held ino v.remote with
    ⟨e, hres, herr⟩ | ⟨m, hres, hstored⟩
  · simp only [hres]
    exact ⟨⟨hv.taken.start, hv.taken.rest, hv.taken.le⟩, hv.type, stores, herr.trans hlog, hacc⟩
  · simp only [hres]
    set n := if v.count > size then size else v.count
    have htaken := hv.taken.put hn 0 n
    refine ⟨⟨htaken.start, htaken.rest, htaken.le⟩, hv.type,
      stores ++ [(v.cache.offset, v.cache.held)], ?_, fun i b hi => ?_⟩
    · change log (ops.write ..).remote = _
      rw [hstored, hlog, List.append_assoc]
    · -- the old octets are stored, and the buffer holds the ones just taken
      have hnew := (hacc.drain fun _ => none).or (Lib.octet v.offset (v.buffer.take n))
      rw [← hv.taken.due_add hbelow] at hnew
      have := hnew i b hi
      rw [Writing.held_put_zero]
      · simp only [Option.or_none] at this
        exact this
      · exact hn

include hops in
theorem Writing.Keeps.probe (hv : v.Keeps log before owed offset buffer) (ino : ℕ) :
    (v.probe ops ino).Keeps log before owed offset buffer := by
  obtain ⟨stores, hlog, hacc⟩ := hv.accounted
  unfold Writing.probe
  split
  · rcases hops.write_cases v.name v.cache.offset (fetch v.cache.data 0 1) ino v.remote with
      ⟨e, -, herr⟩ | ⟨n, -, hstored⟩
    · exact ⟨⟨hv.taken.start, hv.taken.rest, hv.taken.le⟩, hv.type, stores, herr.trans hlog, hacc⟩
    · refine ⟨⟨hv.taken.start, hv.taken.rest, hv.taken.le⟩, hv.type,
        stores ++ [(v.cache.offset, fetch v.cache.data 0 1)], ?_, hacc.append _⟩
      change log (ops.write ..).remote = _
      rw [hstored, hlog, List.append_assoc]
  · exact hv

/-- A shorter front of a buffer has the same octets. -/
theorem octet_take {off n i : ℕ} {d : Bytes} {b : Byte} (h : octet off (d.take n) i = some b) :
    octet off d i = some b := by
  unfold octet at h ⊢
  split at h
  · next hle =>
    rw [if_pos hle]
    rw [List.getElem?_take] at h
    split at h
    · exact h
    · cases h
  · cases h

include hops in
/-- **A write** accounts for what it reports, and for what was owed: when it says that it has taken
`n` octets, each of them is dirty or has been stored, and so is everything that was owed and has not
been overwritten. -/
theorem fcacheFileWrite_keeps (hpos : 0 < size) {mem : Memory} {f : OpenFile} {s s' : Slot σ}
    {r : Except Errno ℕ} (hs : s.Keeps owed) (hbelow : offset + buffer.length < 2 ^ 32)
    (h : fcacheFileWrite ops size fuel mem f.file offset buffer s = some (r, s')) :
    ∃ stores, log s'.remote = log s.remote ++ stores ∧
      ∀ n, r = .ok n → Secured stores s'.dirty (Due owed offset (buffer.take n)) := by
  have hdirty := s.dirty_alloc mem
  have hremote := s.alloc_remote mem
  cases hcache : (s.alloc mem).cache with
  | none =>
    rw [fcacheFileWrite_uncached f hcache] at h
    obtain ⟨rfl, rfl⟩ := Prod.mk.inj (Option.some.inj h)
    -- without a buffer nothing is owed, and the octets reported are the ones stored
    have howed : ∀ i, owed i = none := fun i => by
      cases hi : owed i with
      | none => rfl
      | some b =>
        have := hs i b hi
        rw [← hdirty, Slot.dirty, hcache] at this
        cases this
    rcases hops.write_cases f.name offset buffer f.ino (s.alloc mem).remote with
      ⟨e, hres, herr⟩ | ⟨m, hres, hstored⟩
    · refine ⟨[], by rw [List.append_nil, ← hremote]; exact herr, fun n hn => ?_⟩
      rw [hres] at hn
      cases hn
    · refine ⟨[(offset, buffer)], by rw [← hremote]; exact hstored, fun n _ i b hi => ?_⟩
      unfold Due at hi
      rw [howed, Option.or_none] at hi
      exact Or.inr (storedAs_singleton (octet_take hi))
  | some c =>
    rw [fcacheFileWrite_cached f hcache] at h
    obtain ⟨x, hloop, hx⟩ := Option.map_eq_some_iff.mp h
    obtain ⟨rfl, rfl⟩ := Prod.mk.inj hx
    -- the first part of the write owes what was owed, and the rounds keep the account
    have hstart : (Writing.start size f.name offset buffer c (s.alloc mem).remote).Keeps log
        (log s.remote) owed offset buffer := by
      refine Writing.Keeps.puts hbelow (Writing.Keeps.puts hbelow ?_ (Writing.overwrite_puts _))
        (Writing.append_puts _)
      have hsdirty : ∀ i b, owed i = some b → c.dirty i = some b := fun i b hi => by
        have := hs i b hi
        rwa [← hdirty, Slot.dirty, hcache, Option.bind_some] at this
      have hoffset : offset = (offset + 0) % 2 ^ 32 := by omega
      unfold FCache.forWrite
      cases ht : c.type with
      | read =>
        refine ⟨⟨hoffset, rfl, Nat.zero_le _⟩, rfl, [], by rw [List.append_nil, ← hremote],
          fun i b hi => ?_⟩
        rw [List.take_zero, Due.nil] at hi
        have := hsdirty i b hi
        rw [FCache.dirty_eq_none (.inl ht)] at this
        cases this
      | write =>
        refine ⟨⟨hoffset, rfl, Nat.zero_le _⟩, ht, [], by rw [List.append_nil, ← hremote],
          fun i b hi => ?_⟩
        rw [List.take_zero, Due.nil] at hi
        have := hsdirty i b hi
        unfold FCache.dirty at this
        rw [ht] at this
        exact Or.inl this
    have hend := loop_rule (Writing.Keeps log (log s.remote) owed offset buffer)
      (Writing.Keeps log (log s.remote) owed offset buffer)
      (fun v hv hc => Writing.drain_keeps hops hpos hbelow f.ino hv (of_decide_eq_true hc)) hstart
      hloop
    have hkeeps : (x.elim id id).Keeps log (log s.remote) owed offset buffer := by
      cases x with
      | inl v => exact hend
      | inr v => exact hend.1
    have hprobe := hkeeps.probe hops f.ino
    set v := (x.elim id id).probe ops f.ino
    obtain ⟨stores, hlog, hacc⟩ := hprobe.accounted
    refine ⟨stores, hlog, fun n hn => ?_⟩
    have hwrote : v.wrote = n := by
      unfold Writing.result at hn
      split at hn
      · cases hn
      · have hle := hprobe.taken.le
        exact intResult_eq_ok hn (by omega)
    rw [← hwrote]
    have : (⟨some v.cache, (s.alloc mem).free, v.remote⟩ : Slot σ).dirty =
        octet v.cache.offset v.cache.held := by
      funext i
      rw [Slot.dirty, Option.bind_some, FCache.dirty, hprobe.type]
    rwa [this]

/-! ## Runs -/

namespace CacheOp

variable {s s' : Slot σ} {op : CacheOp}

/-- An octet that is owed after a call, which has not failed: reported by it or owed before, and not
stored by it. -/
theorem owed_eq_some {answer : Answer} {i : ℕ} {b : Byte}
    (h : op.owed owed answer stores i = some b) :
    answer.failed = false ∧ (op.reported answer i).or (owed i) = some b ∧
      storedAs stores i b = false := by
  unfold CacheOp.owed at h
  split at h
  · cases h
  · next hok =>
    obtain ⟨hdue, hnot⟩ := Option.filter_eq_some_iff.mp h
    exact ⟨Bool.not_eq_true _ ▸ hok, hdue, by simpa using hnot⟩

/-- A call that reports nothing keeps what is owed, if it fails or carries what is dirty. -/
theorem keeps_of_carries (hs : s.Keeps owed) {answer : Answer}
    (hreport : ∀ i, op.reported answer i = none)
    (h : answer.failed = true ∨ s.Carries s' stores) : s'.Keeps (op.owed owed answer stores) := by
  intro i b hi
  obtain ⟨hok, howed, hnot⟩ := owed_eq_some hi
  rw [hreport, Option.none_or] at howed
  rcases h with hfailed | hcarries
  · rw [hok] at hfailed
    cases hfailed
  · rcases hcarries i b (hs i b howed) with hstored | hstill
    · rw [hnot] at hstored
      cases hstored
    · exact hstill

include hops in
/-- **A call** keeps what is owed, when a read stores what it has to write out and a write stays
below 2^32. This is the step of `keeps_of_flushes`. -/
theorem call_keeps (hpos : 0 < size) (hs : s.Keeps owed) (hflush : op.Flushes ops s)
    {answer : Answer} (h : op.call ops size fuel s = some (answer, s')) :
    s'.Keeps (op.owed owed answer ((log s'.remote).drop (log s.remote).length)) := by
  have hdrop : ∀ stores, log s'.remote = log s.remote ++ stores →
      (log s'.remote).drop (log s.remote).length = stores := fun stores hlog => by
    rw [hlog, List.drop_left]
  cases op with
  | «open» f mem =>
    obtain ⟨rfl, rfl⟩ := Prod.mk.inj (Option.some.inj h)
    refine keeps_of_carries hs (fun _ => rfl) (Or.inr fun i b hi => Or.inr ?_)
    change (s.alloc mem).dirty i = some b
    rwa [s.dirty_alloc mem]
  | read f mem offset count =>
    obtain ⟨⟨r, s₁⟩, hread, hx⟩ := Option.map_eq_some_iff.mp h
    obtain ⟨rfl, rfl⟩ := Prod.mk.inj hx
    obtain ⟨stores, hlog, hcarries⟩ := fcacheFileRead_carries hops hflush hread
    rw [hdrop stores hlog]
    exact keeps_of_carries hs (fun _ => rfl) (Or.inr hcarries)
  | write f mem offset buffer =>
    obtain ⟨⟨r, s₁⟩, hwrite, hx⟩ := Option.map_eq_some_iff.mp h
    obtain ⟨rfl, rfl⟩ := Prod.mk.inj hx
    obtain ⟨stores, hlog, hacc⟩ := fcacheFileWrite_keeps hops hpos hs hflush hwrite
    rw [hdrop stores hlog]
    intro i b hi
    obtain ⟨hok, howed, hnot⟩ := owed_eq_some hi
    cases r with
    | error e => cases hok
    | ok n =>
      -- what the call reports is in the buffer or stored, and so is what was owed before
      rcases hacc n rfl i b howed with hheld | hstored
      · exact hheld
      · rw [hnot] at hstored
        cases hstored
  | sync f =>
    obtain ⟨r, s₁, hcall⟩ : ∃ r s₁, fcacheFileSync ops f.file s = (r, s₁) := ⟨_, _, rfl⟩
    simp only [call, hcall] at h
    obtain ⟨rfl, rfl⟩ := Prod.mk.inj (Option.some.inj h)
    obtain ⟨stores, hlog, hcarries⟩ := fcacheFileSync_carries hops hcall
    rw [hdrop stores hlog]
    refine keeps_of_carries hs (fun _ => rfl) ?_
    rcases hcarries with ⟨e, rfl⟩ | ⟨hcarries, -⟩
    · exact Or.inl rfl
    · exact Or.inr hcarries
  | close f =>
    obtain ⟨r, s₁, hcall⟩ : ∃ r s₁, fcacheFileClose ops f.file s = (r, s₁) := ⟨_, _, rfl⟩
    simp only [call, hcall] at h
    obtain ⟨rfl, rfl⟩ := Prod.mk.inj (Option.some.inj h)
    obtain ⟨stores, hlog, hcarries⟩ := fcacheFileClose_carries hops hcall
    rw [hdrop stores hlog]
    refine keeps_of_carries hs (fun _ => rfl) ?_
    rcases hcarries with ⟨e, rfl⟩ | hcarries
    · exact Or.inl rfl
    · exact Or.inr hcarries
  | clear f =>
    obtain ⟨r, s₁, hcall⟩ : ∃ r s₁, fcacheFileClear f.file s = (r, s₁) := ⟨_, _, rfl⟩
    simp only [call, hcall] at h
    obtain ⟨rfl, rfl⟩ := Prod.mk.inj (Option.some.inj h)
    obtain ⟨hremote, hcarries⟩ := fcacheFileClear_carries hcall
    rw [hdrop [] (by rw [hremote, List.append_nil])]
    exact keeps_of_carries hs (fun _ => rfl) (Or.inr hcarries)
  | elsewhere free =>
    obtain ⟨rfl, rfl⟩ := Prod.mk.inj (Option.some.inj h)
    exact keeps_of_carries hs (fun _ => rfl) (Or.inr fun i b hi => Or.inr hi)

include hops in
/-- **No write is lost silently** in any run whose reads store what they have to write out, and
whose writes stay below 2^32: at every point, every octet that a call has reported is in a dirty
buffer or has been stored, with its value, or another one has been reported in its place, or a call
has failed. -/
theorem keeps_of_flushes (hpos : 0 < size) (s : Slot σ) {run : List CacheOp}
    (hflush : Along (track ops size fuel log) (fun x op => op.Flushes ops x.1) (s, fun _ => none)
      run) :
    Along (track ops size fuel log)
      (fun x op => (track ops size fuel log x op).1.Keeps (track ops size fuel log x op).2)
      (s, fun _ => none) run := by
  refine Along.of_guarded (fun x => x.1.Keeps x.2) (fun x op hx hq => ?_)
    (fun i b hi => by cases hi) hflush
  have : (track ops size fuel log x op).1.Keeps (track ops size fuel log x op).2 := by
    unfold track
    split
    · exact hx
    · next answer s' hcall => exact call_keeps hops hpos hx hq hcall
  exact ⟨this, this⟩

/-! ### An example -/

instance (ops : Fops σ) (s : Slot σ) (op : CacheOp) : Decidable (op.Flushes ops s) :=
  match op with
  | read .. => inferInstanceAs (Decidable (∀ c ∈ _, _))
  | write .. => inferInstanceAs (Decidable (_ < _))
  | .open .. | sync _ | close _ | clear _ | elsewhere _ => isTrue trivial

/-- A remote side with room for so many writes more, and its log. -/
def limitedOps : Fops (ℕ × List (ℕ × Bytes)) where
  read name _ n _ s := ⟨.ok (List.replicate n 0), name, s⟩
  write name off d _ s :=
    match s.1 with
    | 0 => ⟨.error .enospc, name, s⟩
    | k + 1 => ⟨.ok d.length, name, (k, s.2 ++ [(off, d)])⟩

theorem limitedOps_logs : limitedOps.Logs Prod.snd where
  read _ _ _ _ _ := rfl
  stored name off d ino s n h := by
    obtain ⟨_ | k, stores⟩ := s
    · cases h
    · rfl
  failed name off d ino s e h := by
    obtain ⟨_ | k, stores⟩ := s
    · rfl
    · cases h

/-- No buffer yet, one to be had, and room for `k` writes. -/
def limited (k : ℕ) : Slot (ℕ × List (ℕ × Bytes)) := ⟨none, 1, (k, [])⟩

/-- Two octets are written, and something else is read. -/
def forgetfulRun : List CacheOp :=
  [.write openA plenty 100 [65, 66], .read openA plenty 4096 1]

theorem forgetfulRun_keeps :
    Along (track limitedOps PAGE_SIZE 1 Prod.snd)
      (fun x op => (track limitedOps PAGE_SIZE 1 Prod.snd x op).1.Keeps
        (track limitedOps PAGE_SIZE 1 Prod.snd x op).2)
      (limited 2, fun _ => none) forgetfulRun :=
  keeps_of_flushes limitedOps_logs (by decide) (limited 2) (by decide +kernel)

/-- With room for one write, the probing octet goes through and the write from inside the read does
not: the octet at 101 is gone, and both calls have succeeded. -/
theorem not_keeps_forgetful :
    ¬ Along (track limitedOps PAGE_SIZE 1 Prod.snd)
      (fun x op => (track limitedOps PAGE_SIZE 1 Prod.snd x op).1.Keeps
        (track limitedOps PAGE_SIZE 1 Prod.snd x op).2)
      (limited 1, fun _ => none) forgetfulRun := by
  rintro ⟨-, hread, -⟩
  have h := hread 101 66 (by decide +kernel)
  revert h
  decide +kernel

end CacheOp

end Steps

end Shfs
