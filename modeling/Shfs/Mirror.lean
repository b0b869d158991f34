import Shfs.Readahead

/-!
# The buffer and the file without a cache

Against a remote file that nobody else changes and whose commands always succeed (`Fops.Plain`),
`FCache.Mirrors` relates the buffer, the remote file and the file without a cache: octets still to
be written make up the difference between the two files, and octets read ahead are whole pages of
them. Every function keeps the relation, with one exception.

A refill reads from the page of the offset it needs, but puts the octets behind those already in
the buffer whenever the buffer ends at that offset. If the offset is not the start of its page, the
buffer then holds octets from the start of the page under a later offset. `FCache.Refills` says when
this cannot happen: the offset where the hit ends is the start of a page, or the buffer is clean
and ends elsewhere, or one refill is not enough, so that the next one starts the buffer again.
-/

namespace Shfs

open Lib

/-! ## The invariant -/

section Cache

variable {σ : Type}

/-- Commands on a remote file that nobody else changes, and that always succeed. `contents` is the
file in the remote state. -/
structure Fops.Plain (ops : Fops σ) (contents : σ → Bytes) : Prop where
  read : ∀ name off n ino s, (ops.read name off n ino s).result = .ok (fetch (contents s) off n)
  read_remote : ∀ name off n ino s, contents (ops.read name off n ino s).remote = contents s
  write : ∀ name off d ino s, (ops.write name off d ino s).result = .ok d.length
  write_remote : ∀ name off d ino s,
    contents (ops.write name off d ino s).remote = store (contents s) off d

/-- Octets read ahead are whole pages of the file. -/
def FCache.Ahead (file : Bytes) (c : FCache) : Prop :=
  c.count ≠ 0 → PAGE_SIZE ∣ c.offset ∧ PAGE_SIZE ∣ c.count ∧ c.held = fetch file c.offset c.count

/-- The buffer between the remote contents `far` and the file without a cache. -/
structure FCache.Mirrors (size : ℕ) (far file : Bytes) (c : FCache) : Prop where
  room : c.count ≤ size
  clean : c.type = .read → far = file ∧ c.Ahead file
  dirty : c.type = .write → file = store far c.offset c.held

/-- The invariant of an inode, with a buffer or without. -/
def Slot.Mirrors (contents : σ → Bytes) (size : ℕ) (file : Bytes) (s : Slot σ) : Prop :=
  match s.cache with
  | none => contents s.remote = file
  | some c => c.Mirrors size (contents s.remote) file

/-- How many octets of a request the buffer has. -/
def FCache.got (c : FCache) (offset count : ℕ) : ℕ :=
  if c.offset ≤ offset ∧ offset < c.offset + c.count then
    min count (c.count - (offset - c.offset))
  else 0

/-- No refill puts octets of this request at the wrong place. -/
def FCache.Refills (size : ℕ) (c : FCache) (offset count : ℕ) : Prop :=
  let resume := offset + c.got offset count
  let need := count - c.got offset count
  need = 0 ∨ PAGE_SIZE ∣ resume ∨ (c.type = .read ∧ c.offset + c.count ≠ resume) ∨
    ¬ OneRound size resume need

instance (size : ℕ) (c : FCache) (offset count : ℕ) : Decidable (c.Refills size offset count) :=
  inferInstanceAs (Decidable (_ ∨ _ ∨ _ ∧ _ ∨ _))

theorem FCache.got_le (c : FCache) (offset count : ℕ) : c.got offset count ≤ count := by
  unfold FCache.got
  split <;> omega

theorem FCache.got_inside {c : FCache} {offset count : ℕ} (h : c.got offset count ≠ 0) :
    c.offset ≤ offset ∧ offset - c.offset + c.got offset count ≤ c.count := by
  unfold FCache.got at h ⊢
  split at h
  · next hin =>
    rw [if_pos hin]
    omega
  · exact absurd rfl h

theorem FCache.length_held (c : FCache) : c.held.length = c.count := length_fetch ..

theorem FCache.fetch_held (c : FCache) {o n : ℕ} (h : o + n ≤ c.count) :
    fetch c.held o n = fetch c.data o n := by
  rw [FCache.held, fetch_fetch _ _ h, Nat.zero_add]

variable {size : ℕ} {far file : Bytes} {c : FCache}

theorem FCache.Ahead.empty (h : c.count = 0) : c.Ahead file := fun hne => absurd h hne

/-- An empty clean buffer is right as soon as the remote file is. -/
theorem FCache.Mirrors.empty (ht : c.type = .read) (hc : c.count = 0) (h : far = file) :
    c.Mirrors size far file where
  room := by omega
  clean _ := ⟨h, .empty hc⟩
  dirty hw := by rw [ht] at hw; cases hw

/-- **A hit** returns octets of the file, read ahead or still to be written. Which of the two does
not matter to the reader. -/
theorem FCache.Mirrors.hit (h : c.Mirrors size far file) {o n : ℕ} (hn : n ≠ 0)
    (hin : o + n ≤ c.count) : fetch c.data o n = fetch file (c.offset + o) n := by
  rw [← c.fetch_held hin]
  cases ht : c.type with
  | read =>
    obtain ⟨-, -, hheld⟩ := (h.clean ht).2 (by omega)
    rw [hheld, fetch_fetch _ _ hin]
  | write => rw [h.dirty ht, fetch_store_inside _ _ (by rwa [c.length_held])]

/-! ## Reading -/

variable {contents : σ → Bytes} {offset count : ℕ}

/-- The buffer is fit for the next round: if the round adds to it, then at the start of a page, or
the round is not the last one and spoils an empty buffer. -/
def Reading.Ready (contents : σ → Bytes) (size : ℕ) (file : Bytes) (v : Reading σ) : Prop :=
  contents v.remote = file ∧ v.cache.type = .read ∧ v.cache.count ≤ size ∧
    (v.cache.offset + v.cache.count = v.offset →
      (PAGE_SIZE ∣ v.offset ∧ v.cache.Ahead file) ∨
      (v.cache.count = 0 ∧ ¬ PAGE_SIZE ∣ v.offset ∧ ¬ OneRound size v.offset v.count))

/-- The invariant of the loop for a request of `count` octets at `offset`. -/
structure Reading.Sound (contents : σ → Bytes) (size : ℕ) (file : Bytes) (offset count : ℕ)
    (v : Reading σ) : Prop where
  got : ∃ n, v.offset = offset + n ∧ n + v.count = count ∧ v.buffer = fetch file offset n
  done : v.count = 0 → v.cache.Mirrors size (contents v.remote) file
  ready : v.count ≠ 0 → v.Ready contents size file

theorem Reading.hit_eq {v : Reading σ} (h : v.offset < 2 ^ 32) :
    v.hit = v.copy (v.offset - v.cache.offset) (v.cache.got v.offset v.count) := by
  unfold Reading.hit FCache.got
  split
  · dsimp only
    congr 1
    split <;> omega
  · simp only [Reading.copy, fetch_zero, List.append_nil, Nat.add_zero, Nat.mod_eq_of_lt h,
      Nat.sub_zero]

/-- What is left of a request behind the hit. -/
theorem Reading.hit_count (v : Reading σ) :
    v.hit.count = v.count - v.cache.got v.offset v.count := by
  unfold Reading.hit FCache.got
  split
  · simp only [Reading.copy]
    split <;> omega
  · rfl

/-- Copying the next octets of the file. -/
theorem Reading.copy_got (hbelow : offset + count < 2 ^ 32) {v : Reading σ} {src n : ℕ}
    (hn : n ≤ v.count)
    (hgot : ∃ m, v.offset = offset + m ∧ m + v.count = count ∧ v.buffer = fetch file offset m)
    (hsrc : fetch v.cache.data src n = fetch file v.offset n) :
    ∃ m, (v.copy src n).offset = offset + m ∧ m + (v.copy src n).count = count ∧
      (v.copy src n).buffer = fetch file offset m := by
  obtain ⟨m, hoff, hcount, hbuf⟩ := hgot
  refine ⟨m + n, ?_, ?_, ?_⟩
  · simp only [Reading.copy]
    omega
  · simp only [Reading.copy]
    omega
  · rw [Reading.copy, hsrc, hbuf, hoff, fetch_add]

variable {ops : Fops σ} (hops : ops.Plain contents)

include hops in
/-- **In front of the loop**: the octets of the hit are copied, and the buffer is ready if more are
needed. What was dirty in it has been written out. -/
theorem Reading.start_sound (name : Bytes) {remote : σ} (ino : ℕ)
    (h : c.Mirrors size (contents remote) file) (hbelow : offset + count < 2 ^ 32)
    (hc : c.Refills size offset count) :
    (((⟨name, offset, count, [], c, remote⟩ : Reading σ).hit).flush ops ino).Sound
      contents size file offset count := by
  have hgot := c.got_le offset count
  set v := (⟨name, offset, count, [], c, remote⟩ : Reading σ).hit with hv
  have hcopy : v = (⟨name, offset, count, [], c, remote⟩ : Reading σ).copy (offset - c.offset)
    (c.got offset count) := Reading.hit_eq (show offset < 2 ^ 32 by omega)
  have hvgot : ∃ n, v.offset = offset + n ∧ n + v.count = count ∧
      v.buffer = fetch file offset n := by
    rw [hcopy]
    refine Reading.copy_got hbelow hgot ⟨0, rfl, Nat.zero_add _, (fetch_zero _ _).symm⟩ ?_
    by_cases hz : c.got offset count = 0
    · rw [hz, fetch_zero, fetch_zero]
    · obtain ⟨hle, hin⟩ := c.got_inside hz
      have := h.hit hz hin
      rwa [Nat.add_sub_cancel' hle] at this
  have hcache : v.cache = c := by rw [hcopy]; rfl
  have hremote : v.remote = remote := by rw [hcopy]; rfl
  have hoffset : v.offset = offset + c.got offset count := by
    rw [hcopy]
    exact Nat.mod_eq_of_lt (show offset + c.got offset count < 2 ^ 32 by omega)
  have hcount : v.count = count - c.got offset count := by rw [hcopy]; rfl
  clear_value v
  unfold FCache.Refills at hc
  simp only [← hoffset, ← hcount] at hc
  unfold Reading.flush
  split
  · next hflush =>
    -- the dirty octets are written out: the remote file is the file, and the buffer is empty
    obtain ⟨hne, htype⟩ := hflush
    refine ⟨hvgot, fun hz => absurd hz hne, fun _ => ⟨?_, rfl, Nat.zero_le _, fun _ => ?_⟩⟩
    · rw [hops.write_remote, hremote, hcache]
      rw [hcache] at htype
      exact (h.dirty htype).symm
    · rw [hcache] at htype
      by_cases hpage : PAGE_SIZE ∣ v.offset
      · exact Or.inl ⟨hpage, .empty rfl⟩
      · refine Or.inr ⟨rfl, hpage, ?_⟩
        rcases hc with hz | hdvd | ⟨hread, -⟩ | hround
        · exact absurd hz hne
        · exact absurd hdvd hpage
        · rw [htype] at hread
          cases hread
        · exact hround
  · next hflush =>
    refine ⟨hvgot, fun _ => by rwa [hcache, hremote], fun hne => ?_⟩
    have htype : c.type = .read := by
      cases ht : c.type with
      | read => rfl
      | write => exact absurd ⟨hne, by rw [hcache]; exact ht⟩ hflush
    obtain ⟨hfar, hahead⟩ := h.clean htype
    refine ⟨by rw [hremote, hfar], by rwa [hcache], by rw [hcache]; exact h.room, fun hend => ?_⟩
    rw [hcache] at hend ⊢
    by_cases hpage : PAGE_SIZE ∣ v.offset
    · exact Or.inl ⟨hpage, hahead⟩
    · -- the end of octets read ahead is the start of a page, so the buffer is empty
      have hempty : c.count = 0 := by
        by_contra hcz
        obtain ⟨hoff, hcnt, -⟩ := hahead hcz
        exact hpage (hend ▸ Nat.dvd_add hoff hcnt)
      refine Or.inr ⟨hempty, hpage, ?_⟩
      rcases hc with hz | hdvd | ⟨-, hother⟩ | hround
      · exact absurd hz hne
      · exact absurd hdvd hpage
      · exact absurd hend hother
      · exact hround

/-! ### A round -/

/-- What a round has in the buffer when the read comes back. -/
def FCache.refilled (c : FCache) (d : Bytes) : FCache :=
  { c with data := store c.data c.count d, count := c.count + d.length }

theorem FCache.held_refilled (c : FCache) (d : Bytes) : (c.refilled d).held = c.held ++ d := by
  have h := fetch_store_front c.data (Nat.le_refl c.count) d
  rw [Nat.max_eq_right (Nat.le_add_right ..)] at h
  have happend := store_length c.held d
  rw [c.length_held] at happend
  rw [FCache.held, FCache.refilled, h, ← FCache.held, happend]

/-- Octets read behind a good buffer, from where it ends, make a good buffer. -/
theorem FCache.Ahead.refilled (h : c.Ahead file) {n : ℕ} (hoff : PAGE_SIZE ∣ c.offset)
    (hend : PAGE_SIZE ∣ c.offset + c.count) (hn : PAGE_SIZE ∣ n) :
    (c.refilled (fetch file (c.offset + c.count) n)).Ahead file := by
  intro _
  have hcount : PAGE_SIZE ∣ c.count := (Nat.dvd_add_right hoff).mp hend
  refine ⟨hoff, ?_, ?_⟩
  · simp only [FCache.refilled, length_fetch]
    exact Nat.dvd_add hcount hn
  · have hheld : c.held = fetch file c.offset c.count := by
      by_cases hz : c.count = 0
      · rw [FCache.held, hz, fetch_zero, fetch_zero]
      · exact (h hz).2.2
    rw [FCache.held_refilled, hheld, ← fetch_add]
    simp only [FCache.refilled, length_fetch]

/-- The octets a round wants are in the buffer behind the ones that were there. -/
theorem FCache.fetch_refilled (c : FCache) (d : Bytes) {x n : ℕ} (h : x + n ≤ d.length) :
    fetch (c.refilled d).data (c.count + x) n = fetch d x n :=
  fetch_store_inside c.data c.count h

/-- The buffer a round reads into: it ends where the reading starts, or is about to be started
again. -/
theorem Reading.Ready.room {v : Reading σ} (hv : v.Ready contents size file) {ahead : ℕ}
    (hle : ahead ≤ size) :
    let c := (v.cache.meet v.offset).makeRoom size v.offset ahead
    c.type = .read ∧ c.count + ahead ≤ size ∧
      ((c.offset + c.count = pageBase v.offset ∧ PAGE_SIZE ∣ c.offset ∧ c.Ahead file) ∨
        (c.offset = v.offset ∧ c.count = 0 ∧ ¬ PAGE_SIZE ∣ v.offset ∧
          ¬ OneRound size v.offset v.count)) := by
  obtain ⟨-, htype, hroom, hready⟩ := hv
  have hfresh : ∀ {c : FCache}, c.type = .read → c.offset = pageBase v.offset → c.count = 0 →
      c.type = .read ∧ c.count + ahead ≤ size ∧
        ((c.offset + c.count = pageBase v.offset ∧ PAGE_SIZE ∣ c.offset ∧ c.Ahead file) ∨
          (c.offset = v.offset ∧ c.count = 0 ∧ ¬ PAGE_SIZE ∣ v.offset ∧
            ¬ OneRound size v.offset v.count)) := by
    intro c ht ho hz
    refine ⟨ht, by omega, Or.inl ⟨by omega, ?_, .empty hz⟩⟩
    rw [ho]
    exact dvd_pageBase _
  unfold FCache.meet
  split
  · next hend =>
    unfold FCache.makeRoom
    split
    · exact hfresh htype rfl rfl
    · next hfit =>
      refine ⟨htype, by omega, ?_⟩
      rcases hready hend with ⟨hpage, hahead⟩ | ⟨hz, hpage, hround⟩
      · refine Or.inl ⟨by rw [hend, pageBase_of_dvd hpage], ?_, hahead⟩
        by_cases hz : v.cache.count = 0
        · rwa [← hend, hz, Nat.add_zero] at hpage
        · exact (hahead hz).1
      · exact Or.inr ⟨by omega, hz, hpage, hround⟩
  · unfold FCache.makeRoom
    split <;> exact hfresh htype rfl rfl

/-- The length of the refill in this round. -/
def Reading.ahead (size : ℕ) (v : Reading σ) : ℕ :=
  readahead size v.offset v.count (v.cache.meet v.offset).count

/-- The buffer this round reads into. -/
def Reading.room (size : ℕ) (v : Reading σ) : FCache :=
  (v.cache.meet v.offset).makeRoom size v.offset (v.ahead size)

/-- What a round copies: the octets it has read from the page on, as far as they are wanted. -/
def Reading.part (size : ℕ) (v : Reading σ) : ℕ :=
  min (v.ahead size - v.offset % PAGE_SIZE) v.count

include hops in
/-- A round, with the octets it reads. -/
theorem Reading.fill_eq {v : Reading σ} (hx : v.offset % PAGE_SIZE < v.ahead size) :
    ∃ v' : Reading σ, v.fill ops size = .inr v' ∧ contents v'.remote = contents v.remote ∧
      v'.cache = (v.room size).refilled
        (fetch (contents v.remote) (pageBase v.offset) (v.ahead size)) ∧
      v'.offset = (v.offset + v.part size) % 2 ^ 32 ∧ v'.count = v.count - v.part size ∧
      v'.buffer = v.buffer ++
        fetch v'.cache.data ((v.room size).count + v.offset % PAGE_SIZE) (v.part size) := by
  unfold Reading.fill
  simp only [hops.read, ← Reading.ahead.eq_1, ← Reading.room.eq_1, length_fetch, sub_pageBase]
  have hpart : (if v.ahead size < v.offset % PAGE_SIZE ∨
      v.ahead size - v.offset % PAGE_SIZE > v.count then v.count
      else v.ahead size - v.offset % PAGE_SIZE) = v.part size := by
    unfold Reading.part
    split <;> omega
  rw [hpart]
  refine ⟨_, rfl, hops.read_remote .., ?_, rfl, rfl, rfl⟩
  simp only [Reading.copy, FCache.refilled, length_fetch]

include hops in
/-- **A round** of the loop copies octets of the file, at least one, and leaves the buffer ready. -/
theorem Reading.fill_sound (hsize : PAGE_SIZE ∣ size) (hpos : 0 < size)
    (hbelow : offset + count < 2 ^ 32) {v : Reading σ}
    (hv : v.Sound contents size file offset count) (hne : v.count ≠ 0) :
    Sum.elim (fun _ => False)
      (fun v' => v'.Sound contents size file offset count ∧ v'.count < v.count)
      (v.fill ops size) := by
  have hready := hv.ready hne
  obtain ⟨hahead, hle, hpages, -⟩ :=
    readahead_spec hsize hpos v.offset (v.cache.meet v.offset).count hne
  rw [← Reading.ahead.eq_1] at hahead hle hpages
  obtain ⟨htype, hroom, hcache⟩ := hready.room hle
  rw [← Reading.room.eq_1] at htype hroom hcache
  have hx : v.offset % PAGE_SIZE < v.ahead size :=
    (Nat.mod_lt _ (by decide)).trans_le (Nat.le_of_dvd hahead hpages)
  have hbase : pageBase v.offset + v.offset % PAGE_SIZE = v.offset := by
    have := pageBase_le v.offset
    have := sub_pageBase v.offset
    omega
  obtain ⟨v', hfill, hremote, hc', hoff', hcount', hbuf'⟩ := Reading.fill_eq hops hx
  have hpart : v.part size ≤ v.count ∧ v.offset % PAGE_SIZE + v.part size ≤ v.ahead size ∧
      0 < v.part size := by
    unfold Reading.part
    omega
  -- the request ends below 2^32
  have hnext : v'.offset = v.offset + v.part size := by
    obtain ⟨m, hm, hmc, -⟩ := hv.got
    omega
  rw [hready.1] at hremote hc'
  -- the octets that are copied are those of the file at `v.offset`
  have hcopied : fetch v'.cache.data ((v.room size).count + v.offset % PAGE_SIZE) (v.part size) =
      fetch file v.offset (v.part size) := by
    rw [hc', FCache.fetch_refilled _ _ (by rw [length_fetch]; omega), fetch_fetch _ _ (by omega),
      hbase]
  have hctype : v'.cache.type = .read := by rw [hc']; exact htype
  have hcount'' : v'.cache.count = (v.room size).count + v.ahead size := by
    rw [hc', FCache.refilled, length_fetch]
  have hcoff : v'.cache.offset = (v.room size).offset := by rw [hc']; rfl
  -- a good buffer stays good; a spoilt one is left only when the octets do not suffice
  have hgood : v'.cache.Ahead file ∨
      (v'.count ≠ 0 ∧ v'.cache.offset + v'.cache.count ≠ v'.offset) := by
    rcases hcache with ⟨hend, hoff, hcahead⟩ | ⟨hoff, hz, hpage, hround⟩
    · left
      rw [hc', ← hend]
      exact hcahead.refilled hoff (hend ▸ dvd_pageBase _) hpages
    · right
      have hshort : v.ahead size < v.offset % PAGE_SIZE + v.count := by
        have hz' : (v.cache.meet v.offset).count = 0 := by
          unfold Reading.room FCache.makeRoom at hoff hz
          split at hoff
          · have hcon : pageBase v.offset = v.offset := hoff
            exact absurd (hcon ▸ dvd_pageBase _) hpage
          · next hn =>
            rwa [if_neg hn] at hz
        have := readahead_lt hsize hpos hne hround
        rwa [Reading.ahead, hz']
      have hmod : v.offset % PAGE_SIZE ≠ 0 := fun h => hpage (Nat.dvd_of_mod_eq_zero h)
      unfold Reading.part at hnext hcount'
      omega
  rw [hfill]
  refine ⟨⟨?_, fun hz => ?_, fun hnz => ?_⟩, by omega⟩
  · obtain ⟨m, hm, hmc, hmb⟩ := hv.got
    refine ⟨m + v.part size, by omega, by omega, ?_⟩
    rw [hbuf', hcopied, hmb, hm, fetch_add]
  · refine ⟨by omega, fun _ => ⟨hremote, ?_⟩, fun hw => ?_⟩
    · rcases hgood with h | ⟨h, -⟩
      · exact h
      · exact absurd hz h
    · rw [hctype] at hw
      cases hw
  · refine ⟨hremote, hctype, by omega, fun hend => Or.inl ?_⟩
    rcases hgood with h | ⟨-, h⟩
    · refine ⟨?_, h⟩
      obtain ⟨hoff, hcnt, -⟩ := h (by omega)
      exact hend ▸ Nat.dvd_add hoff hcnt
    · exact absurd hend h

/-! ### The call -/

/-- A buffer that is new mirrors the file. -/
theorem Slot.Mirrors.alloc {s : Slot σ} (h : s.Mirrors contents size file) (mem : Memory) :
    (s.alloc mem).Mirrors contents size file := by
  unfold Slot.Mirrors at h ⊢
  rw [s.alloc_remote mem]
  obtain hc | ⟨hnone, data, hc⟩ := s.alloc_cases mem
  · rw [hc]
    exact h
  · rw [hnone] at h
    rw [hc]
    exact .empty rfl rfl h

variable {fuel : ℕ}

include hops in
/-- **`fcache_file_read`** returns the octets of the file, when no refill goes wrong, and leaves the
buffer with octets of the file again. -/
theorem fcacheFileRead_mirrors (hsize : PAGE_SIZE ∣ size) (hpos : 0 < size)
    (hbelow : offset + count < 2 ^ 32) (mem : Memory) (f : OpenFile) {s : Slot σ}
    (hs : s.Mirrors contents size file) (hfuel : count ≤ fuel)
    (hrefills : ∀ c, (s.alloc mem).cache = some c → c.Refills size offset count) :
    ∃ s', fcacheFileRead ops size fuel mem f.file offset count s =
      some (.ok (fetch file offset count), s') ∧ s'.Mirrors contents size file := by
  have hs' := hs.alloc mem
  unfold Slot.Mirrors at hs'
  cases hcache : (s.alloc mem).cache with
  | none =>
    simp only [hcache] at hs'
    rw [fcacheFileRead_uncached f hcache, hops.read, hs']
    exact ⟨_, rfl, (hops.read_remote ..).trans hs'⟩
  | some c =>
    simp only [hcache] at hs'
    rw [fcacheFileRead_cached f hcache]
    have hstart := Reading.start_sound hops f.name f.ino hs' hbelow (hrefills c hcache)
    set v := (⟨f.name, offset, count, [], c, (s.alloc mem).remote⟩ : Reading σ).hit.flush ops f.ino
    have hle : v.count ≤ count := by
      obtain ⟨n, -, hn, -⟩ := hstart.got
      omega
    obtain ⟨r, hr, hend⟩ := loop_correct (Reading.Sound contents size file offset count)
      (fun _ => False) (·.count) (fun v _ hc => Nat.pos_of_ne_zero (of_decide_eq_true hc))
      (fun v hv hc => Reading.fill_sound hops hsize hpos hbelow hv (of_decide_eq_true hc)) hstart
      (hle.trans hfuel)
    rw [hr]
    cases r with
    | inl e => exact hend.elim
    | inr v' =>
      obtain ⟨hsound, hdone⟩ := hend
      have hz : v'.count = 0 := by simpa using hdone
      obtain ⟨n, -, hn, hbuf⟩ := hsound.got
      obtain rfl : n = count := by omega
      rw [← hbuf]
      exact ⟨_, rfl, hsound.done hz⟩

/-! ## Writing -/

/-- The invariant of `fcache_file_write` for a request to store `buffer` at `offset`: the buffer
with the octets taken so far makes the file with these octets stored. -/
structure Writing.Sound (contents : σ → Bytes) (size : ℕ) (file : Bytes) (offset : ℕ)
    (buffer : Bytes) (v : Writing σ) : Prop where
  taken : v.Taken offset buffer
  type : v.cache.type = .write
  room : v.cache.count ≤ size
  now : store file offset (buffer.take v.wrote) =
    store (contents v.remote) v.cache.offset v.cache.held
  nonempty : v.wrote ≠ 0 → v.cache.count ≠ 0
  ok : v.failed = none

variable {buffer : Bytes}

/-- Taking `n` more octets stores them in the file, behind those taken before. -/
theorem Writing.Sound.take (hbelow : offset + buffer.length < 2 ^ 32) {v : Writing σ}
    (hv : v.Sound contents size file offset buffer) (n : ℕ) :
    store (store file offset (buffer.take v.wrote)) v.offset (v.buffer.take n) =
      store file offset (buffer.take (v.wrote + n)) := by
  have hlen : (buffer.take v.wrote).length = v.wrote := List.length_take_of_le hv.taken.le
  have happend := store_length (buffer.take v.wrote) ((buffer.drop v.wrote).take n)
  rw [hlen, ← List.take_add] at happend
  rw [hv.taken.offset_eq hbelow, hv.taken.rest, store_store _ _ _ hlen.ge, happend]

/-- **A put** into the octets held, or right behind them, keeps the invariant of a write: the buffer
has what the call has taken so far, on top of what it had. -/
theorem Writing.Sound.puts (hbelow : offset + buffer.length < 2 ^ 32) {v v' : Writing σ}
    (hv : v.Sound contents size file offset buffer) (h : v.Puts size v') :
    v'.Sound contents size file offset buffer := by
  obtain rfl | ⟨o, n, ho, hin, hn, hfit, rfl⟩ := h
  · exact hv
  have hlen : (v.buffer.take n).length = n := List.length_take_of_le hn
  have hroom := hv.room
  have hfit := hfit hroom
  refine ⟨hv.taken.put hn _ _, hv.type, ?_, ?_, fun hw => ?_, hv.ok⟩
  · simp only [Writing.put]
    omega
  · have hheld := fetch_store_front v.cache.data hin (v.buffer.take n)
    rw [hlen] at hheld
    simp only [Writing.put, FCache.held]
    rw [hheld, ← hv.take hbelow, hv.now, ho, store_store _ _ _ (by rwa [FCache.length_held])]
    rfl
  · have := hv.nonempty
    simp only [Writing.put] at hw ⊢
    omega

/-- **In front of the loop** the octets that fit in the buffer are taken, and the others wait for it
to be written out. -/
theorem Writing.start_sound (name : Bytes) {remote : σ}
    (h : c.Mirrors size (contents remote) file) (hbelow : offset + buffer.length < 2 ^ 32) :
    (Writing.start size name offset buffer c remote).Sound contents size file offset buffer := by
  refine Writing.Sound.puts hbelow (Writing.Sound.puts hbelow ?_ (Writing.overwrite_puts _))
    (Writing.append_puts _)
  have hoffset : offset = (offset + 0) % 2 ^ 32 := by omega
  unfold FCache.forWrite
  split
  · next htype =>
    obtain ⟨hfar, -⟩ := h.clean htype
    refine ⟨⟨hoffset, rfl, Nat.zero_le _⟩, rfl, Nat.zero_le _, ?_, fun hw => absurd rfl hw, rfl⟩
    simp only [List.take_zero, store_nil, FCache.held, fetch_zero, hfar]
  · next htype =>
    refine ⟨⟨hoffset, rfl, Nat.zero_le _⟩, htype, h.room, ?_, fun hw => absurd rfl hw, rfl⟩
    simp only [List.take_zero, store_nil]
    exact h.dirty htype

include hops in
/-- **A round** writes the buffer out and fills it again, with at least one octet. So the rounds are
no more than the octets. -/
theorem Writing.drain_sound (hpos : 0 < size) (hbelow : offset + buffer.length < 2 ^ 32) (ino : ℕ)
    {v : Writing σ} (hv : v.Sound contents size file offset buffer) (hne : v.count ≠ 0) :
    Sum.elim (fun _ => False)
      (fun v' => v'.Sound contents size file offset buffer ∧ v'.count < v.count)
      (v.drain ops size ino) := by
  obtain ⟨hn, hfit, hlt⟩ := Writing.drain_part (v := v) hpos hne
  unfold Writing.drain
  simp only [hops.write]
  set n := if v.count > size then size else v.count
  refine ⟨⟨?_, hv.type, ?_, ?_, fun _ => ?_, hv.ok⟩, ?_⟩
  · have htaken := hv.taken.put hn 0 n
    exact ⟨htaken.start, htaken.rest, htaken.le⟩
  · simp only [Writing.put]
    omega
  · -- the buffer holds exactly the octets taken, in front of what was there
    rw [Writing.held_put_zero]
    · simp only [Writing.put]
      rw [hops.write_remote, ← hv.now, hv.take hbelow]
    · exact hn
  · simp only [Writing.put]
    omega
  · change (v.buffer.drop n).length < v.count
    rw [List.length_drop]
    exact Nat.sub_lt (Nat.pos_of_ne_zero hne) hlt

include hops in
/-- The probing octet is part of what is held, and changes nothing. -/
theorem Writing.Sound.probe {v : Writing σ} (hv : v.Sound contents size file offset buffer)
    (ino : ℕ) : (v.probe ops ino).Sound contents size file offset buffer := by
  unfold Writing.probe
  split
  · next h =>
    have hheld := hv.nonempty h.2
    refine ⟨⟨hv.taken.start, hv.taken.rest, hv.taken.le⟩, hv.type, hv.room, ?_, hv.nonempty,
      by simp only [hops.write]⟩
    rw [hv.now, hops.write_remote]
    refine (store_covered _ _ ?_).symm
    rw [length_fetch, FCache.length_held]
    exact Nat.pos_of_ne_zero hheld
  · exact hv

theorem Writing.Sound.mirrors {v : Writing σ} (hv : v.Sound contents size file offset buffer)
    (hcount : buffer.length < 2 ^ 31) (hdone : v.count = 0) :
    v.result = .ok buffer.length ∧
      v.cache.Mirrors size (contents v.remote) (store file offset buffer) := by
  have hleft := hv.taken.left
  have hall : v.wrote = buffer.length := by omega
  refine ⟨?_, hv.room, fun ht => ?_, fun _ => ?_⟩
  · simp only [Writing.result, hv.ok, hall, intResult_of_lt hcount]
  · rw [hv.type] at ht
    cases ht
  · rw [← hv.now, hall, List.take_length]

include hops in
/-- **`fcache_file_write`** stores its octets in the file: it takes all of them, and the inode
mirrors the file with the octets in their place. -/
theorem fcacheFileWrite_mirrors (hpos : 0 < size) (hcount31 : buffer.length < 2 ^ 31)
    (hbelow : offset + buffer.length < 2 ^ 32) (mem : Memory) (f : OpenFile) {s : Slot σ}
    (hs : s.Mirrors contents size file) (hfuel : buffer.length ≤ fuel) :
    ∃ s', fcacheFileWrite ops size fuel mem f.file offset buffer s = some (.ok buffer.length, s') ∧
      s'.Mirrors contents size (store file offset buffer) := by
  have hs' := hs.alloc mem
  unfold Slot.Mirrors at hs'
  cases hcache : (s.alloc mem).cache with
  | none =>
    simp only [hcache] at hs'
    rw [fcacheFileWrite_uncached f hcache, hops.write, Except.bind, intResult_of_lt hcount31]
    refine ⟨_, rfl, ?_⟩
    change contents (ops.write ..).remote = _
    rw [hops.write_remote, hs']
  | some c =>
    simp only [hcache] at hs'
    rw [fcacheFileWrite_cached f hcache]
    -- the loop stores what has been taken so far, and ends when all is
    have hstart := Writing.start_sound f.name hs' hbelow
    have hcount := hstart.taken.left
    obtain ⟨r, hr, hend⟩ := loop_correct (Writing.Sound contents size file offset buffer)
      (fun _ => False) (·.count) (fun v _ hc => Nat.pos_of_ne_zero (of_decide_eq_true hc))
      (fun v hv hc =>
        Writing.drain_sound hops hpos hbelow f.ino hv (of_decide_eq_true hc)) hstart
      (show _ ≤ fuel by omega)
    rw [hr]
    cases r with
    | inl v => exact hend.elim
    | inr v =>
      obtain ⟨hsound, hdone⟩ := hend
      have hz : (v.probe ops f.ino).count = 0 := by
        have : v.count = 0 := by simpa using hdone
        unfold Writing.probe
        split <;> exact this
      obtain ⟨hresult, hmirrors⟩ := (hsound.probe hops f.ino).mirrors hcount31 hz
      refine ⟨⟨some (v.probe ops f.ino).cache, (s.alloc mem).free, (v.probe ops f.ino).remote⟩, ?_,
        hmirrors⟩
      simp only [Option.map_some, Sum.elim_inr, id_eq, hresult]

/-! ## The other calls -/

include hops in
/-- **`fcache_file_sync`** makes the remote file the file without a cache, and nothing is dirty
behind it. -/
theorem fcacheFileSync_mirrors (f : OpenFile) {s : Slot σ} (hs : s.Mirrors contents size file) :
    ∃ s', fcacheFileSync ops f.file s = (.ok (), s') ∧ s'.Mirrors contents size file ∧
      contents s'.remote = file := by
  obtain ⟨cache, free, remote⟩ := s
  unfold fcacheFileSync
  simp only [OpenFile.check]
  cases cache with
  | none => exact ⟨_, rfl, hs, hs⟩
  | some c =>
    change c.Mirrors size (contents remote) file at hs
    dsimp only
    split
    · next h =>
      have hremote : contents (ops.write f.name c.offset c.held f.ino remote).remote = file :=
        (hops.write_remote ..).trans (hs.dirty h.2).symm
      rw [if_neg (getName_nonneg _ _), hops.write]
      exact ⟨_, rfl, .empty rfl rfl hremote, hremote⟩
    · next h =>
      refine ⟨_, rfl, hs, ?_⟩
      cases ht : c.type with
      | read => exact (hs.clean ht).1
      | write =>
        -- a dirty buffer without octets
        have hz : c.count = 0 := by
          by_contra hz
          exact h ⟨hz, ht⟩
        rw [hs.dirty ht, FCache.held, hz, fetch_zero, store_nil]

include hops in
theorem fcacheFileClose_mirrors (f : OpenFile) {s : Slot σ} (hs : s.Mirrors contents size file) :
    ∃ s', fcacheFileClose ops f.file s = (.ok (), s') ∧ s'.Mirrors contents size file ∧
      contents s'.remote = file := by
  obtain ⟨s', hsync, hs', hfile⟩ := fcacheFileSync_mirrors hops f hs
  unfold fcacheFileClose
  rw [hsync]
  obtain ⟨cache, free, remote⟩ := s'
  cases cache with
  | none => exact ⟨_, rfl, hs', hfile⟩
  | some c => exact ⟨_, rfl, hfile, hfile⟩

theorem fcacheFileClear_mirrors (f : OpenFile) {s : Slot σ} (hs : s.Mirrors contents size file) :
    ∃ s', fcacheFileClear f.file s = (.ok (), s') ∧ s'.Mirrors contents size file := by
  obtain ⟨cache, free, remote⟩ := s
  unfold fcacheFileClear
  simp only [OpenFile.check]
  cases cache with
  | none => exact ⟨_, rfl, hs⟩
  | some c =>
    change c.Mirrors size (contents remote) file at hs
    dsimp only
    split
    · next h => exact ⟨_, rfl, .empty h.2 rfl (hs.clean h.2).1⟩
    · exact ⟨_, rfl, hs⟩

end Cache

end Shfs
