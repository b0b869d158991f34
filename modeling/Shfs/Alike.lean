import Shfs.CacheWords
import Shfs.SameFile

/-!
# Far sides that answer alike

The file cache looks at the far side through the results of `info->fops` only. So two far sides that
answer the same commands alike cannot be told apart: `Fops.Alike` says this of one command, about
one name and below some offset, and `CacheOp.call_alike` of a call on the inode.

Whether the commands of a call stay below the offset is a matter of the call and of the buffer it
meets. A refill is at most as long as the buffer, and reads from the page of an octet that is
wanted.
-/

namespace Shfs

open Lib

section Alike

variable {σ τ : Type}

/-- Two commands with the same end, which leave the path buffer as it is. -/
structure Done.Alike {ρ : Type} (R : σ → τ → Prop) (name : Bytes) (a : Done ρ σ) (b : Done ρ τ) :
    Prop where
  result : a.result = b.result
  name : a.name = name ∧ b.name = name
  remote : R a.remote b.remote

/-- Reads and writes of one file, up to the octet `top`, have the same ends. -/
structure Fops.Alike (R : σ → τ → Prop) (name : Bytes) (top : ℕ) (ops : Fops σ) (ops' : Fops τ) :
    Prop where
  read : ∀ off n s t, off + n ≤ top → R s t →
    (ops.read name off n 0 s).Alike R name (ops'.read name off n 0 t)
  exact : ∀ off n s d, (ops.read name off n 0 s).result = .ok d → d.length = n
  write : ∀ off d ino s t, off + d.length ≤ top → R s t →
    (ops.write name off d ino s).Alike R name (ops'.write name off d ino t)

/-- The same slot on two far sides, with a buffer below `top`. -/
structure Slot.Alike (R : σ → τ → Prop) (top : ℕ) (s : Slot σ) (t : Slot τ) : Prop where
  cache : s.cache = t.cache
  free : s.free = t.free
  remote : R s.remote t.remote
  below : ∀ c ∈ s.cache, c.offset + c.count < top

variable {R : σ → τ → Prop} {name : Bytes} {size top fuel : ℕ} {ops : Fops σ} {ops' : Fops τ}

theorem Slot.Alike.alloc {s : Slot σ} {t : Slot τ} (h : s.Alike R top t) (hpos : 0 < top)
    (mem : Memory) : (s.alloc mem).Alike R top (t.alloc mem) := by
  obtain ⟨cache, free, remote⟩ := s
  obtain ⟨cache', free', remote'⟩ := t
  obtain ⟨rfl, rfl, hremote, hbelow⟩ := h
  refine ⟨?_, ?_, ?_, ?_⟩
  · cases cache <;> rfl
  · cases cache <;> rfl
  · rw [Slot.alloc_remote, Slot.alloc_remote]
    exact hremote
  · obtain hsame | ⟨-, data, hnew⟩ := Slot.alloc_cases mem (⟨cache, free, remote⟩ : Slot σ)
    · rw [hsame]
      exact hbelow
    · rw [hnew]
      rintro c ⟨⟩
      exact hpos

/-! ## Reads -/

/-- The variables of a read on the other far side. -/
def Reading.on (t : τ) (v : Reading σ) : Reading τ :=
  ⟨v.name, v.offset, v.count, v.buffer, v.cache, t⟩

/-- The same variables, with a request and a buffer below `top`. -/
structure Reading.Alike (R : σ → τ → Prop) (name : Bytes) (size top : ℕ) (v : Reading σ)
    (u : Reading τ) : Prop where
  same : u = v.on u.remote
  remote : R v.remote u.remote
  name : v.name = name
  below : v.offset + v.count + size < top
  cache : v.cache.offset + v.cache.count < top

theorem Reading.hit_on (t : τ) (v : Reading σ) : (v.on t).hit = v.hit.on t := by
  unfold Reading.hit Reading.on
  dsimp only
  split <;> rfl

/-- Octets that are copied from the front do not move the end of a request up. -/
theorem Reading.copy_end_le (v : Reading σ) (src : ℕ) {c : ℕ} (hc : c ≤ v.count) :
    (v.copy src c).offset + (v.copy src c).count ≤ v.offset + v.count := by
  have := Nat.mod_le (v.offset + c) (2 ^ 32)
  simp only [Reading.copy]
  omega

theorem Reading.Alike.hit {v : Reading σ} {u : Reading τ} (h : v.Alike R name size top u) :
    v.hit.Alike R name size top u.hit := by
  have hsum : v.hit.offset + v.hit.count ≤ v.offset + v.count := by
    unfold Reading.hit
    split
    · dsimp only
      refine v.copy_end_le _ ?_
      split <;> omega
    · exact Nat.le_refl _
  have hsame : u.hit = v.hit.on u.remote := by rw [h.same, Reading.hit_on]; rfl
  refine ⟨by rw [hsame]; rfl, ?_, v.hit_name.1.trans h.name, ?_, ?_⟩
  · rw [hsame, v.hit_name.2]
    exact h.remote
  · have := h.below
    omega
  · rw [v.hit_cache]
    exact h.cache

theorem Reading.Alike.flush (hops : ops.Alike R name top ops') {v : Reading σ} {u : Reading τ}
    (h : v.Alike R name size top u) (ino : ℕ) :
    (v.flush ops ino).Alike R name size top (u.flush ops' ino) := by
  obtain ⟨hsame, hremote, rfl, hbelow, hcache⟩ := h
  generalize u.remote = t at hsame hremote
  subst hsame
  by_cases hdirty : v.count ≠ 0 ∧ v.cache.type = .write
  · obtain ⟨-, hname, hend⟩ := hops.write v.cache.offset v.cache.held ino v.remote t
      (by rw [v.cache.length_held]; exact hcache.le) hremote
    have hdirty' : (v.on t).count ≠ 0 ∧ (v.on t).cache.type = .write := hdirty
    rw [Reading.flush, if_pos hdirty, Reading.flush, if_pos hdirty']
    refine ⟨?_, hend, hname.1, hbelow, ?_⟩
    · simp only [Reading.on, hname.1, hname.2]
    · change v.offset + 0 < top
      omega
  · have hclean : ¬ ((v.on t).count ≠ 0 ∧ (v.on t).cache.type = .write) := hdirty
    rw [Reading.flush, if_neg hdirty, Reading.flush, if_neg hclean]
    exact ⟨rfl, hremote, rfl, hbelow, hcache⟩

/-- The buffer that is read into begins in front of the octet that is wanted. -/
theorem FCache.meet_offset_le (c : FCache) (offset : ℕ) : (c.meet offset).offset ≤ offset := by
  unfold FCache.meet
  split
  · next hend => exact Nat.le.intro hend
  · exact pageBase_le offset

theorem FCache.makeRoom_offset_le {c : FCache} {offset ahead : ℕ} (h : c.offset ≤ offset) :
    (c.makeRoom size offset ahead).offset ≤ offset := by
  unfold FCache.makeRoom
  split
  · exact pageBase_le offset
  · exact h

/-- **A round of a read** ends in the same way on both far sides: both fail with the same error, or
both go on alike. The refill is asked at an offset below `top`, where the two answer alike. -/
theorem Reading.Alike.fill (hops : ops.Alike R name top ops') (hsize : PAGE_SIZE ∣ size)
    (hpos : 0 < size) {v : Reading σ} {u : Reading τ} (h : v.Alike R name size top u)
    (hne : v.count ≠ 0) :
    Sum.LiftRel (fun x y => x.1 = y.1 ∧ x.2.Alike R name size top y.2)
      (Reading.Alike R name size top)
      (v.fill ops size) (u.fill ops' size) := by
  obtain ⟨hsame, hremote, rfl, hbelow, hcache⟩ := h
  generalize u.remote = t at hsame hremote
  subst hsame
  obtain ⟨-, hahead, -⟩ := readahead_spec hsize hpos v.offset (v.cache.meet v.offset).count hne
  have hbase := pageBase_le v.offset
  have hask := hops.read (pageBase v.offset) (v.ahead size) v.remote t
    (by unfold Reading.ahead; omega) hremote
  have hexact := hops.exact (pageBase v.offset) (v.ahead size) v.remote
  generalize ha : ops.read v.name (pageBase v.offset) (v.ahead size) 0 v.remote = a at hask hexact
  generalize hb : ops'.read v.name (pageBase v.offset) (v.ahead size) 0 t = b at hask
  obtain ⟨hres, hname, hend⟩ := hask
  have hb' : ops'.read (v.on t).name (pageBase (v.on t).offset) ((v.on t).ahead size) 0 t = b := hb
  have hroom : (v.room size).offset ≤ v.offset :=
    FCache.makeRoom_offset_le (v.cache.meet_offset_le v.offset)
  have hcount : (v.room size).count + v.ahead size ≤ size := Words.makeRoom_le hahead
  -- both sides answer the same command alike, and the rest of the round is on the same values
  cases hr : a.result with
  | error e =>
    rw [Words.plain_fill_error ha hr, Words.plain_fill_error (v := v.on t) hb' (hres.symm.trans hr)]
    refine .inl ⟨rfl, ?_, hend, hname.1, hbelow, ?_⟩
    · rw [hname.2, ← hname.1]
      rfl
    · change (v.room size).offset + 0 < top
      omega
  | ok d =>
    have hlen := hexact d hr
    rw [Words.plain_fill_ok ha hr, Words.plain_fill_ok (v := v.on t) hb' (hres.symm.trans hr)]
    refine .inr ⟨?_, hend, hname.1, ?_, ?_⟩
    · rw [hname.2, ← hname.1]
      rfl
    · set part := if d.length < v.offset - pageBase v.offset ∨
          d.length - (v.offset - pageBase v.offset) > v.count then v.count
        else d.length - (v.offset - pageBase v.offset) with hpart
      have hle : part ≤ v.count := by
        rw [hpart]
        split <;> omega
      have hend := v.copy_end_le ((v.room size).count + (v.offset - pageBase v.offset)) hle
      change (v.offset + part) % 2 ^ 32 + (v.count - part) + size < top
      change (v.offset + part) % 2 ^ 32 + (v.count - part) ≤ _ at hend
      omega
    · change (v.room size).offset + ((v.room size).count + d.length) < top
      omega

/-- The rounds of a read that comes back. -/
theorem Reading.Alike.loop (hops : ops.Alike R name top ops') (hsize : PAGE_SIZE ∣ size)
    (hpos : 0 < size) {v : Reading σ} {u : Reading τ} (h : v.Alike R name size top u)
    {r : (Errno × Reading σ) ⊕ Reading σ}
    (hr : loop (fun v => decide (v.count ≠ 0)) (Reading.fill ops size) fuel v = some r) :
    ∃ r', loop (fun v => decide (v.count ≠ 0)) (Reading.fill ops' size) fuel u = some r' ∧
      Sum.LiftRel (fun x y => x.1 = y.1 ∧ x.2.Alike R name size top y.2)
        (Reading.Alike R name size top) r r' := by
  refine loop_rel (Reading.Alike R name size top) _ (fun v u h => ?_) (fun v u h hne => ?_) h hr
  · rw [h.same]
    rfl
  · exact h.fill hops hsize hpos (of_decide_eq_true hne)

/-! ## Writes -/

/-- The variables of a write on the other far side. -/
def Writing.on (t : τ) (v : Writing σ) : Writing τ :=
  ⟨v.name, v.offset, v.buffer, v.wrote, v.cache, t, v.failed⟩

/-- The same variables, with what is left and a buffer below `top`. -/
structure Writing.Alike (R : σ → τ → Prop) (name : Bytes) (top : ℕ) (v : Writing σ)
    (u : Writing τ) : Prop where
  same : u = v.on u.remote
  remote : R v.remote u.remote
  name : v.name = name
  below : v.offset + v.count < top
  cache : v.cache.offset + v.cache.count < top

theorem Writing.overwrite_on (t : τ) (v : Writing σ) :
    (v.on t).overwrite size = (v.overwrite size).on t := by
  by_cases h : v.cache.offset ≤ v.offset ∧ v.offset < v.cache.offset + v.cache.count
  · have h' : (v.on t).cache.offset ≤ (v.on t).offset ∧
        (v.on t).offset < (v.on t).cache.offset + (v.on t).cache.count := h
    rw [Writing.overwrite, if_pos h', Writing.overwrite, if_pos h]
    rfl
  · have h' : ¬ ((v.on t).cache.offset ≤ (v.on t).offset ∧
        (v.on t).offset < (v.on t).cache.offset + (v.on t).cache.count) := h
    rw [Writing.overwrite, if_neg h', Writing.overwrite, if_neg h]

theorem Writing.append_on (t : τ) (v : Writing σ) :
    (v.on t).append size = (v.append size).on t := by
  by_cases h : v.count ≠ 0 ∧ v.offset = v.cache.offset + v.cache.count
  · have h' : (v.on t).count ≠ 0 ∧
        (v.on t).offset = (v.on t).cache.offset + (v.on t).cache.count := h
    rw [Writing.append, if_pos h', Writing.append, if_pos h]
    rfl
  · have h' : ¬ ((v.on t).count ≠ 0 ∧
        (v.on t).offset = (v.on t).cache.offset + (v.on t).cache.count) := h
    rw [Writing.append, if_neg h', Writing.append, if_neg h]

/-- A put stays below `top`. -/
theorem Writing.Alike.puts {v v' : Writing σ} {u : Writing τ} (h : v.Alike R name top u)
    (hputs : v.Puts size v') : v'.Alike R name top (v'.on u.remote) := by
  obtain ⟨-, hremote, rfl, hbelow, hcache⟩ := h
  rcases hputs with rfl | ⟨o, n, hoffset, -, hn, -, rfl⟩
  · exact ⟨rfl, hremote, rfl, hbelow, hcache⟩
  · refine ⟨rfl, hremote, rfl, ?_, ?_⟩
    · simp only [Writing.put, Writing.count, List.length_drop] at hn hbelow ⊢
      omega
    · simp only [Writing.put]
      omega

/-- In front of the loop. -/
theorem Writing.Alike.start (size : ℕ) {offset : ℕ} {buffer : Bytes} {c : FCache} {s : σ} {t : τ}
    (hR : R s t) (hbelow : offset + buffer.length < top) (hcache : c.offset + c.count < top) :
    (Writing.start size name offset buffer c s).Alike R name top
      (Writing.start size name offset buffer c t) := by
  have hfor : (c.forWrite offset).offset + (c.forWrite offset).count < top := by
    unfold FCache.forWrite
    split
    · change offset + 0 < top
      omega
    · exact hcache
  set v : Writing σ := ⟨name, offset, buffer, 0, c.forWrite offset, s, none⟩ with hv
  have h : v.Alike R name top (v.on t) := ⟨rfl, hR, rfl, hbelow, hfor⟩
  have hstart : Writing.start size name offset buffer c t =
      ((v.overwrite size).append size).on t := by
    rw [← Writing.append_on, ← Writing.overwrite_on]
    rfl
  rw [hstart]
  exact (h.puts v.overwrite_puts).puts (v.overwrite size).append_puts

/-- **A round of a write** ends in the same way on both far sides. What is written out lies below
`top`, since the buffer and the octets of the call do. -/
theorem Writing.Alike.drain (hops : ops.Alike R name top ops') (ino : ℕ) {v : Writing σ}
    {u : Writing τ} (h : v.Alike R name top u) :
    Sum.LiftRel (Writing.Alike R name top) (Writing.Alike R name top) (v.drain ops size ino)
      (u.drain ops' size ino) := by
  obtain ⟨hsame, hremote, rfl, hbelow, hcache⟩ := h
  generalize u.remote = t at hsame hremote
  subst hsame
  have hask := hops.write v.cache.offset v.cache.held ino v.remote t
    (by rw [v.cache.length_held]; exact hcache.le) hremote
  unfold Writing.drain
  generalize ops.write v.name v.cache.offset v.cache.held ino v.remote = a at hask
  have hb : ops'.write (v.on t).name (v.on t).cache.offset (v.on t).cache.held ino (v.on t).remote =
    ops'.write v.name v.cache.offset v.cache.held ino t := rfl
  rw [hb]
  generalize ops'.write v.name v.cache.offset v.cache.held ino t = b at hask
  obtain ⟨hres, hname, hend⟩ := hask
  dsimp only
  rw [← hres]
  cases a.result with
  | error e =>
    refine .inl ⟨?_, hend, hname.1, hbelow, hcache⟩
    rw [hname.2, ← hname.1]
    rfl
  | ok n =>
    dsimp only
    have hle : (if v.count > size then size else v.count) ≤ v.count := by
      split <;> omega
    set part := if v.count > size then size else v.count
    refine .inr ⟨?_, hend, hname.1, ?_, ?_⟩
    · rw [hname.2, ← hname.1]
      rfl
    · simp only [Writing.put, Writing.count, List.length_drop] at hle hbelow ⊢
      omega
    · change v.offset + part < top
      omega

/-- The octet that is sent after the first write. -/
theorem Writing.Alike.probe (hops : ops.Alike R name top ops') (ino : ℕ) {v : Writing σ}
    {u : Writing τ} (h : v.Alike R name top u) :
    (v.probe ops ino).Alike R name top (u.probe ops' ino) := by
  obtain ⟨hsame, hremote, rfl, hbelow, hcache⟩ := h
  generalize u.remote = t at hsame hremote
  subst hsame
  by_cases hnew : v.cache.new ∧ v.wrote ≠ 0
  · have hnew' : (v.on t).cache.new ∧ (v.on t).wrote ≠ 0 := hnew
    obtain ⟨hres, hname, hend⟩ := hops.write v.cache.offset (fetch v.cache.data 0 1) ino v.remote t
      (by rw [length_fetch]; omega) hremote
    rw [Writing.probe, if_pos hnew, Writing.probe, if_pos hnew']
    refine ⟨?_, hend, hname.1, hbelow, hcache⟩
    simp only [Writing.on, hname.1, hname.2, hres]
  · have hnew' : ¬ ((v.on t).cache.new ∧ (v.on t).wrote ≠ 0) := hnew
    rw [Writing.probe, if_neg hnew, Writing.probe, if_neg hnew']
    exact ⟨rfl, hremote, rfl, hbelow, hcache⟩

/-- The rounds of a write that comes back, and what follows them. -/
theorem Writing.Alike.loop (hops : ops.Alike R name top ops') (ino : ℕ) {v : Writing σ}
    {u : Writing τ} (h : v.Alike R name top u) {r : Writing σ ⊕ Writing σ}
    (hr : loop (fun v => decide (v.count ≠ 0)) (Writing.drain ops size ino) fuel v = some r) :
    ∃ r', loop (fun v => decide (v.count ≠ 0)) (Writing.drain ops' size ino) fuel u = some r' ∧
      (r.elim id id).Alike R name top (r'.elim id id) := by
  have hcond : ∀ (v : Writing σ) (u : Writing τ), v.Alike R name top u →
      decide (v.count ≠ 0) = decide (u.count ≠ 0) := by
    intro v u h
    rw [h.same]
    rfl
  obtain ⟨r', hr', hrel⟩ := loop_rel (Writing.Alike R name top) (Writing.Alike R name top) hcond
    (fun v u h _ => h.drain hops ino) h hr
  refine ⟨r', hr', ?_⟩
  cases hrel with
  | inl h => exact h
  | inr h => exact h

/-! ## Calls -/

/-- The call is on the file, and stays below `top`. -/
def CacheOp.On (name : Bytes) (size top : ℕ) : CacheOp → Prop
  | read f _ offset count => f.name = name ∧ offset + count + size < top
  | write f _ offset buffer => f.name = name ∧ offset + buffer.length < top
  | sync f | close f => f.name = name
  | «open» .. | clear _ | elsewhere _ => True

theorem CacheOp.On.below {op : CacheOp} (h : op.On name size (2 ^ 31)) : op.Below size := by
  cases op with
  | read f mem offset count => exact h.2
  | write f mem offset buffer => exact h.2
  | _ => trivial

variable {s : Slot σ} {t : Slot τ}

theorem fcacheFileRead_alike (hops : ops.Alike R name top ops') (hsize : PAGE_SIZE ∣ size)
    (hpos : 0 < size) (hs : s.Alike R top t) {f : OpenFile} (hf : f.name = name) {offset count : ℕ}
    (hbelow : offset + count + size < top) (mem : Memory) {r : Except Errno Bytes} {s' : Slot σ}
    (hr : fcacheFileRead ops size fuel mem f.file offset count s = some (r, s')) :
    ∃ t', fcacheFileRead ops' size fuel mem f.file offset count t = some (r, t') ∧
      s'.Alike R top t' := by
  subst hf
  obtain ⟨hcache, hfree, hremote, hcbelow⟩ := hs.alloc (by omega) mem
  cases hc : (s.alloc mem).cache with
  | none =>
    rw [fcacheFileRead_uncached f hc] at hr
    obtain ⟨rfl, rfl⟩ := Prod.mk.inj (Option.some.inj hr)
    rw [fcacheFileRead_uncached f (hcache ▸ hc)]
    obtain ⟨hres, -, hend⟩ := hops.read offset count _ _ (by omega) hremote
    rw [← hres, ← hfree]
    exact ⟨_, rfl, rfl, rfl, hend, fun c hc => by cases hc⟩
  | some c =>
    rw [fcacheFileRead_cached f hc] at hr
    rw [fcacheFileRead_cached f (hcache ▸ hc)]
    have hstart : Reading.Alike R f.name size top
        (⟨f.name, offset, count, [], c, (s.alloc mem).remote⟩ : Reading σ)
        ⟨f.name, offset, count, [], c, (t.alloc mem).remote⟩ :=
      ⟨rfl, hremote, rfl, hbelow, hcbelow c hc⟩
    obtain ⟨x, hx, heq⟩ := Option.map_eq_some_iff.mp hr
    obtain ⟨y, hy, hrel⟩ := (hstart.hit.flush hops f.ino).loop hops hsize hpos hx
    rw [hy, ← hfree, Option.map_some]
    cases hrel with
    | @inl x y h =>
      obtain ⟨e, v⟩ := x
      obtain ⟨e', u⟩ := y
      obtain ⟨rfl, rfl⟩ := Prod.mk.inj heq
      obtain ⟨rfl, hsame, hend, -, -, hbuffer⟩ : e = e' ∧ v.Alike R f.name size top u := h
      rw [hsame]
      exact ⟨_, rfl, rfl, rfl, hend, by rintro c ⟨⟩; exact hbuffer⟩
    | inr h =>
      obtain ⟨rfl, rfl⟩ := Prod.mk.inj heq
      obtain ⟨hsame, hend, -, -, hbuffer⟩ := h
      rw [hsame]
      exact ⟨_, rfl, rfl, rfl, hend, by rintro c ⟨⟩; exact hbuffer⟩

theorem fcacheFileWrite_alike (hops : ops.Alike R name top ops')
    (hs : s.Alike R top t) {f : OpenFile} (hf : f.name = name) {offset : ℕ} {buffer : Bytes}
    (hbelow : offset + buffer.length < top) (mem : Memory) {r : Except Errno ℕ} {s' : Slot σ}
    (hr : fcacheFileWrite ops size fuel mem f.file offset buffer s = some (r, s')) :
    ∃ t', fcacheFileWrite ops' size fuel mem f.file offset buffer t = some (r, t') ∧
      s'.Alike R top t' := by
  subst hf
  obtain ⟨hcache, hfree, hremote, hcbelow⟩ := hs.alloc (by omega) mem
  cases hc : (s.alloc mem).cache with
  | none =>
    rw [fcacheFileWrite_uncached f hc] at hr
    obtain ⟨rfl, rfl⟩ := Prod.mk.inj (Option.some.inj hr)
    rw [fcacheFileWrite_uncached f (hcache ▸ hc)]
    obtain ⟨hres, -, hend⟩ := hops.write offset buffer f.ino _ _ hbelow.le hremote
    rw [← hres, ← hfree]
    exact ⟨_, rfl, rfl, rfl, hend, fun c hc => by cases hc⟩
  | some c =>
    rw [fcacheFileWrite_cached f hc] at hr
    rw [fcacheFileWrite_cached f (hcache ▸ hc)]
    obtain ⟨x, hx, heq⟩ := Option.map_eq_some_iff.mp hr
    obtain ⟨y, hy, hrel⟩ :=
      (Writing.Alike.start size hremote hbelow (hcbelow c hc)).loop hops f.ino hx
    obtain ⟨hsame, hend, -, -, hbuffer⟩ := hrel.probe hops f.ino
    obtain ⟨rfl, rfl⟩ := Prod.mk.inj heq
    rw [hy, ← hfree, Option.map_some, hsame]
    exact ⟨_, rfl, rfl, rfl, hend, by rintro c ⟨⟩; exact hbuffer⟩

theorem fcacheFileSync_alike (hops : ops.Alike R name top ops')
    (hs : s.Alike R top t) {f : OpenFile} (hf : f.name = name) :
    (fcacheFileSync ops f.file s).1 = (fcacheFileSync ops' f.file t).1 ∧
      (fcacheFileSync ops f.file s).2.Alike R top (fcacheFileSync ops' f.file t).2 := by
  subst hf
  obtain ⟨cache, free, remote⟩ := s
  obtain ⟨cache', free', remote'⟩ := t
  obtain ⟨rfl, rfl, hremote, hbelow⟩ := hs
  unfold fcacheFileSync
  cases cache with
  | none => exact ⟨rfl, rfl, rfl, hremote, hbelow⟩
  | some c =>
    have hc : c.offset + c.count < top := hbelow c rfl
    dsimp only [OpenFile.check]
    by_cases hdirty : c.count ≠ 0 ∧ c.type = .write
    · rw [if_pos hdirty, if_pos hdirty, if_neg (getName_nonneg _ _), if_neg (getName_nonneg _ _)]
      obtain ⟨hres, -, hend⟩ := hops.write c.offset c.held f.ino remote remote'
        (by rw [c.length_held]; exact hc.le) hremote
      refine ⟨congrArg (Except.map fun _ => ()) hres, rfl, rfl, hend, ?_⟩
      rintro _ ⟨⟩
      change c.offset + 0 < top
      omega
    · rw [if_neg hdirty, if_neg hdirty]
      exact ⟨rfl, rfl, rfl, hremote, hbelow⟩

theorem fcacheFileClose_alike (hops : ops.Alike R name top ops')
    (hs : s.Alike R top t) {f : OpenFile} (hf : f.name = name) :
    (fcacheFileClose ops f.file s).1 = (fcacheFileClose ops' f.file t).1 ∧
      (fcacheFileClose ops f.file s).2.Alike R top (fcacheFileClose ops' f.file t).2 := by
  obtain ⟨hres, hend⟩ := fcacheFileSync_alike hops hs hf
  unfold fcacheFileClose
  generalize fcacheFileSync ops f.file s = x at hres hend
  generalize fcacheFileSync ops' f.file t = y at hres hend
  obtain ⟨r, cache, free, remote⟩ := x
  obtain ⟨r', cache', free', remote'⟩ := y
  obtain rfl : r = r' := hres
  obtain ⟨rfl, rfl, hremote, hbelow⟩ := hend
  cases r with
  | error e => exact ⟨rfl, rfl, rfl, hremote, hbelow⟩
  | ok u =>
    cases cache with
    | none => exact ⟨rfl, rfl, rfl, hremote, hbelow⟩
    | some c => exact ⟨rfl, rfl, rfl, hremote, fun c hc => by cases hc⟩

theorem fcacheFileClear_alike (hs : s.Alike R top t) (f : OpenFile) :
    (fcacheFileClear f.file s).1 = (fcacheFileClear f.file t).1 ∧
      (fcacheFileClear f.file s).2.Alike R top (fcacheFileClear f.file t).2 := by
  obtain ⟨cache, free, remote⟩ := s
  obtain ⟨cache', free', remote'⟩ := t
  obtain ⟨rfl, rfl, hremote, hbelow⟩ := hs
  unfold fcacheFileClear
  cases cache with
  | none => exact ⟨rfl, rfl, rfl, hremote, hbelow⟩
  | some c =>
    have hc : c.offset + c.count < top := hbelow c rfl
    dsimp only [OpenFile.check]
    by_cases hahead : c.count ≠ 0 ∧ c.type = .read
    · rw [if_pos hahead, if_pos hahead]
      refine ⟨rfl, rfl, rfl, hremote, ?_⟩
      rintro _ ⟨⟩
      change c.offset + 0 < top
      omega
    · rw [if_neg hahead, if_neg hahead]
      exact ⟨rfl, rfl, rfl, hremote, hbelow⟩

/-- **A call** on far sides that answer alike returns the same on both, and leaves the same
buffer. -/
theorem CacheOp.call_alike (hops : ops.Alike R name top ops') (hsize : PAGE_SIZE ∣ size)
    (hpos : 0 < size) (htop : 0 < top) (hs : s.Alike R top t) {op : CacheOp}
    (hon : op.On name size top) {answer : Answer} {s' : Slot σ}
    (h : op.call ops size fuel s = some (answer, s')) :
    ∃ t', op.call ops' size fuel t = some (answer, t') ∧ s'.Alike R top t' := by
  have hstatus : ∀ {x : Except Errno Unit × Slot σ} {y : Except Errno Unit × Slot τ},
      x.1 = y.1 ∧ x.2.Alike R top y.2 →
      some (Answer.status (x.1.map fun _ => 0), x.2) = some (answer, s') →
      ∃ t', some (Answer.status (y.1.map fun _ => 0), y.2) = some (answer, t') ∧
        s'.Alike R top t' := by
    rintro x y ⟨hres, hend⟩ hx
    obtain ⟨rfl, rfl⟩ := Prod.mk.inj (Option.some.inj hx)
    exact ⟨_, by rw [hres], hend⟩
  cases op with
  | «open» f mem =>
    obtain ⟨rfl, rfl⟩ := Prod.mk.inj (Option.some.inj h)
    exact ⟨_, rfl, hs.alloc htop mem⟩
  | read f mem offset count =>
    obtain ⟨⟨r, s₁⟩, hr, heq⟩ := Option.map_eq_some_iff.mp h
    obtain ⟨rfl, rfl⟩ := Prod.mk.inj heq
    obtain ⟨t', ht, hs'⟩ := fcacheFileRead_alike hops hsize hpos hs hon.1 hon.2 mem hr
    exact ⟨t', by rw [call, ht]; rfl, hs'⟩
  | write f mem offset buffer =>
    obtain ⟨⟨r, s₁⟩, hr, heq⟩ := Option.map_eq_some_iff.mp h
    obtain ⟨rfl, rfl⟩ := Prod.mk.inj heq
    obtain ⟨t', ht, hs'⟩ := fcacheFileWrite_alike hops hs hon.1 hon.2 mem hr
    exact ⟨t', by rw [call, ht]; rfl, hs'⟩
  | sync f => exact hstatus (fcacheFileSync_alike hops hs hon) h
  | close f => exact hstatus (fcacheFileClose_alike hops hs hon) h
  | clear f => exact hstatus (fcacheFileClear_alike hs f) h
  | elsewhere free =>
    obtain ⟨rfl, rfl⟩ := Prod.mk.inj (Option.some.inj h)
    exact ⟨_, rfl, hs.cache, rfl, hs.remote, hs.below⟩

end Alike

end Shfs
