import Shfs.Operations
import Shfs.SlowRead
import Shfs.WriteTruth

/-!
# From a page to the offset in a command

`shfs_file_readpage` has a page index, and `shfs_slow_read` a file position, of 64 bits. Both hand
it to functions that take `unsigned offset`, and from there it goes into the words of the read
command, as a decimal number and as a number of blocks.

The server that is modelled here takes the words literally (`farFile`). Whatever is in the buffer of
the inode, if it is what the buffer says, a page that is read is the one at its offset modulo 2^32
(`shfsFileReadpage_eq`), and so is a slow read (`shfsSlowRead_eq`). That is the page asked for, for
every file, exactly if the offset is below 2^32.

The file of a command is not looked at here, only the place in it.
-/

namespace Shfs.Words

open Lib

/-! ## The server -/

/-- How a server finds the place: the Perl server seeks to an offset, the shell server has `dd` skip
blocks. -/
inductive Finding : Type where
  | seek
  | skip
  deriving DecidableEq, Repr

/-- The part of the file that the words of a read command are for. -/
def Finding.part (how : Finding) (words : List Bytes) (file : Bytes) : Bytes :=
  let word (i : ℕ) := decVal (words.getD i [])
  match how with
  | .seek => (file.drop (word 1)).take (word 2)
  | .skip => blocks file (word 3) (word 4) (word 5)

/-- What is sent for a part: a normal read is filled up with zeros. -/
def filled (ino : UInt64) (n : ℕ) (part : Bytes) : Bytes := if ino = 0 then fetch part 0 n else part

/-- The remote side of an open file, with the number of reads so far: a read fails, or is answered
with the part that its words are for. -/
def farFile (how : Finding) (path : Path) (p : ℕ → Option Errno) : Fops (Bytes × ℕ) where
  read name off n ino s :=
    match p s.2 with
    | some e => ⟨.error e, name, (s.1, s.2 + 1)⟩
    | none =>
      let words := (Request.read path (.ofNat off) (.ofNat n) (.ofNat ino)).args.map Word.value
      ⟨.ok (filled (.ofNat ino) n (how.part words s.1)), name, (s.1, s.2 + 1)⟩
  write name off d _ s := ⟨.ok d.length, name, (store s.1 (UInt32.ofNat off).toNat d, s.2)⟩

/-- The octets that a read of `n` octets at `off` should bring. -/
def wanted (file : Bytes) (ino : UInt64) (off n : ℕ) : Bytes :=
  filled ino n ((file.drop off).take n)

theorem wanted_zero (file : Bytes) (off n : ℕ) : wanted file 0 off n = fetch file off n := by
  simp only [wanted, filled, if_true, fetch, List.drop_zero, List.take_take, Nat.min_self,
    List.length_take, List.length_drop]
  congr 2
  omega

/-- **The words of a read command** say what they mean, in either way. -/
theorem Finding.part_eq (how : Finding) (path : Path) (offset count : UInt32) (ino : UInt64)
    (file : Bytes) :
    how.part ((Request.read path offset count ino).args.map Word.value) file =
      (file.drop offset.toNat).take count.toNat := by
  have hvalues : ∃ rest, (Request.read path offset count ino).args.map Word.value =
      path.text :: dec offset.toNat :: dec count.toNat :: dec (readBlocks offset count).1.toNat ::
        dec (readBlocks offset count).2.1.toNat :: dec (readBlocks offset count).2.2.toNat ::
          rest := ⟨_, rfl⟩
  obtain ⟨rest, hrest⟩ := hvalues
  rw [hrest]
  cases how with
  | seek => simp only [part, List.getD_cons_succ, List.getD_cons_zero, decVal_dec_self]
  | skip =>
    simp only [part, List.getD_cons_succ, List.getD_cons_zero, decVal_dec_self, blocks]
    by_cases hcount : count = 0
    · rw [readBlocks, if_neg fun h => h.1 hcount, hcount]
      simp
    · obtain ⟨-, -, hmul, hskip⟩ := readBlocks_spec offset hcount
      rw [hmul, hskip]

section FarFile

variable {how : Finding} {path : Path} {p : ℕ → Option Errno}

/-- A read of an offset of 32 bits. -/
theorem farFile_read (name : Bytes) (offset count : UInt32) (ino : ℕ) (s : Bytes × ℕ) :
    (farFile how path p).read name offset.toNat count.toNat ino s =
      ⟨match p s.2 with
        | some e => .error e
        | none => .ok (wanted s.1 (.ofNat ino) offset.toNat count.toNat),
        name, (s.1, s.2 + 1)⟩ := by
  have hof : ∀ n : UInt32, UInt32.ofNat n.toNat = n := fun n => UInt32.ofNat_toNat
  simp only [farFile, hof, Finding.part_eq]
  cases p s.2 <;> rfl

theorem farFile_write (name : Bytes) {off : ℕ} (hoff : off < 2 ^ 32) (d : Bytes) (ino : ℕ)
    (s : Bytes × ℕ) :
    (farFile how path p).write name off d ino s = ⟨.ok d.length, name, (store s.1 off d, s.2)⟩ := by
  simp only [farFile, UInt32.toNat_ofNat_of_lt' hoff]

end FarFile

/-! ## The functions -/

/-- The variables of `shfs_file_readpage`; `page` is what it has put there. -/
structure Paging (σ : Type) : Type where
  offset : UInt64
  count : UInt64
  page : Bytes
  slot : Slot σ

section Functions

variable {σ : Type} (ops : Fops σ) (size : UInt32) (fuel : ℕ)

/-- The read of a round, which takes `unsigned` arguments. -/
def Paging.read (mem : Memory) (f : OpenFile) (v : Paging σ) :
    Option (Outcome (UInt32 × Bytes) σ) :=
  if size ≠ 0 then
    fcacheFileRead ops size fuel mem f.file v.offset.toUInt32 v.count.toUInt32 v.slot
  else
    let (result, name) := getName f.dentry f.stack
    if result < 0 then some (.back (.error .enametoolong) v.slot [])
    else
      let r := ops.read name v.offset.toUInt32.toNat v.count.toUInt32.toNat 0 v.slot.remote
      some (.back (r.result.map fun d => (.ofNat d.length, d))
        { v.slot with remote := r.remote } [])

/-- `memset(buffer, 0, count)` -/
def Paging.full (v : Paging σ) : Bytes := v.page ++ List.replicate v.count.toNat 0

/-- A round of its loop; a round without octets is the last one. -/
def Paging.round (mem : Memory) (f : OpenFile) (v : Paging σ) :
    Option (Outcome Bytes σ) ⊕ Paging σ :=
  match v.read ops size fuel mem f with
  | none => .inl none
  | some .outside => .inl (some .outside)
  | some (.back (.error e) s sent) => .inl (some (.back (.error e) s sent))
  | some (.back (.ok (n, d)) s sent) =>
    let v : Paging σ := ⟨v.offset + n.toUInt64, v.count - n.toUInt64, v.page ++ d, s⟩
    if n = 0 then .inl (some (.back (.ok v.full) s sent)) else .inr v

/-- `shfs_file_readpage`: the page. -/
def shfsFileReadpage (mem : Memory) (f : OpenFile) (index : UInt64) (s : Slot σ) :
    Option (Outcome Bytes σ) :=
  match loop (fun v => decide (v.count ≠ 0)) (Paging.round ops size fuel mem f) fuel
      ⟨index <<< 12, 4096, [], s⟩ with
  | none => none
  | some (.inl r) => r
  | some (.inr v) => some (.back (.ok v.full) v.slot [])

/-- `shfs_slow_read`: the octets that are copied to the user, and `*ppos`. -/
def shfsSlowRead (f : OpenFile) (page : Bool) (count ppos : UInt64) (remote : σ) :
    Except Errno Bytes × UInt64 × σ :=
  if !page then (.error .enomem, ppos, remote)
  else
    let (result, name) := getName f.dentry f.stack
    if result < 0 then (.error .enametoolong, ppos, remote)
    else
      let count := if count > 4096 then 4096 else count
      let r := ops.read name ppos.toUInt32.toNat count.toUInt32.toNat f.ino remote
      match r.result with
      | .error e => (.error e, ppos, r.remote)
      | .ok d => (.ok d, ppos + .ofNat d.length, r.remote)

end Functions

/-! ## A page through the cache -/

/-- What is in the buffer of the inode and counts as read is from where the buffer says. -/
def Coherent (s : Slot (Bytes × ℕ)) : Prop :=
  ∀ c ∈ s.cache, c.type = .read → c.held = fetch s.remote.1 c.offset c.count

/-- What holds of the variables in front of the loop, for the page at `offset` of this file. -/
structure Reading.Front (size offset : UInt32) (file : Bytes) (v : Reading (Bytes × ℕ)) : Prop where
  got : v.buffer = fetch file offset.toNat v.read.toNat
  left : v.read.toNat + v.count.toNat = PAGE_SIZE
  place : v.count ≠ 0 → v.offset.toNat = offset.toNat + v.read.toNat
  held : v.cache.count ≤ size.toNat
  start : v.cache.offset < 2 ^ 32
  logical : logical ⟨some v.cache, 0, v.remote⟩ = file

section Page

variable {how : Finding} {path : Path} {p : ℕ → Option Errno} {size offset : UInt32} {file : Bytes}
  {v : Reading (Bytes × ℕ)}

/-- The octets in the buffer are those of the logical file. -/
theorem Coherent.fetch_data {s : Slot (Bytes × ℕ)} (h : Coherent s) {c : FCache}
    (hc : s.cache = some c) {o k : ℕ} (hk : o + k ≤ c.count) :
    fetch c.data o k = fetch (Words.logical s) (c.offset + o) k := by
  have hheld : fetch c.held o k = fetch c.data o k := by
    rw [FCache.held, fetch_fetch _ _ hk, Nat.zero_add]
  rw [← hheld]
  cases htype : c.type with
  | read =>
    simp only [Words.logical, hc, htype]
    rw [h c hc htype, fetch_fetch _ _ hk]
  | write =>
    simp only [Words.logical, hc, htype]
    exact (fetch_store_inside _ _ (by rwa [FCache.length_held])).symm

/-- The part of the page that is in the buffer. -/
theorem Reading.front_hit (hdvd : PAGE_SIZE ∣ offset.toNat) {c : FCache} {far : Bytes × ℕ}
    (hheld : c.count ≤ size.toNat) (hstart : c.offset < 2 ^ 32)
    (hc : Coherent ⟨some c, 0, far⟩) (name : Bytes) :
    ∃ v, (⟨name, offset, 4096, 0, [], c, far, []⟩ : Reading (Bytes × ℕ)).hit size
        (4096 : UInt32).toNat = some v ∧
      v.Front size offset (Words.logical ⟨some c, 0, far⟩) := by
  have hoffset : offset.toNat < 2 ^ 32 := offset.toNat_lt
  have hsize : size.toNat < 2 ^ 32 := size.toNat_lt
  have hpage : (4096 : UInt32).toNat = 4096 := by decide
  by_cases hin : c.offset ≤ offset.toNat ∧ offset.toNat < c.offset + c.count
  -- the page begins in the buffer, and either ends there or goes on at its end
  · have ho : (UInt32.ofNat (offset.toNat - c.offset)).toNat = offset.toNat - c.offset :=
      UInt32.toNat_ofNat_of_lt' (show _ < 2 ^ 32 by omega)
    have hsub : ulongSub c.count (offset.toNat - c.offset) = c.count - (offset.toNat - c.offset) :=
      ulongSub_of_le (by omega) (by omega)
    have hleft : (UInt32.ofNat (c.count - (offset.toNat - c.offset))).toNat =
        c.count - (offset.toNat - c.offset) :=
      UInt32.toNat_ofNat_of_lt' (show _ < 2 ^ 32 by omega)
    rw [Reading.hit, if_pos hin]
    dsimp only
    rw [ho, hsub]
    set k : UInt32 := if (4096 : UInt32).toNat > c.count - (offset.toNat - c.offset) then
      .ofNat (c.count - (offset.toNat - c.offset)) else 4096 with hkdef
    have hk : k.toNat = min 4096 (c.count - (offset.toNat - c.offset)) := by
      rw [hkdef, apply_ite UInt32.toNat, hleft, hpage]
      split <;> omega
    have hcopy : offset.toNat - c.offset + k.toNat ≤ size.toNat ∧
        ([] : Bytes).length + k.toNat ≤ (4096 : UInt32).toNat := by
      rw [hpage, List.length_nil]
      omega
    have hread : (0 : UInt32) + k = k := UInt32.zero_add k
    have hcount : (4096 - k).toNat = 4096 - k.toNat := by
      rw [UInt32.toNat_sub_of_le, hpage]
      rw [UInt32.le_iff_toNat_le, hpage]
      omega
    rw [Reading.copy, if_pos hcopy]
    refine ⟨_, rfl, ?_, ?_, ?_, hheld, hstart, rfl⟩
    · dsimp only
      rw [List.nil_append, hread, hc.fetch_data rfl (by omega), Nat.add_sub_cancel' hin.1]
    · dsimp only
      rw [hread, hcount]
      unfold PAGE_SIZE
      omega
    · dsimp only
      intro hne
      rw [hread, toNat_add]
      have hne' : (4096 - k).toNat ≠ 0 := fun h => hne (UInt32.toNat_inj.mp h)
      unfold PAGE_SIZE at hdvd
      omega
  · rw [Reading.hit, if_neg hin]
    refine ⟨_, rfl, (fetch_zero _ _).symm, rfl, fun _ => rfl, hheld, hstart, rfl⟩

variable (how path p) in
/-- Dirty octets go to the server. -/
theorem Reading.Front.flush (h : v.Front size offset file) (ino : ℕ) :
    ∃ v', v.flush (farFile how path p) size ino = some v' ∧ v'.Front size offset file ∧
      (v'.count ≠ 0 → v'.cache.type = .read) ∧ v'.remote.2 = v.remote.2 := by
  have hlogical := h.logical
  by_cases hdirty : v.count ≠ 0 ∧ v.cache.type = .write
  · simp only [Words.logical, hdirty.2] at hlogical
    rw [Reading.flush, if_pos hdirty, if_pos h.held, farFile_write _ h.start]
    refine ⟨_, rfl, ⟨h.got, h.left, h.place, Nat.zero_le _, v.offset.toNat_lt, ?_⟩, fun _ => rfl,
      rfl⟩
    exact hlogical
  · refine ⟨v, if_neg hdirty, h, fun hne => ?_, rfl⟩
    cases htype : v.cache.type with
    | read => rfl
    | write => exact absurd ⟨hne, htype⟩ hdirty

variable (how path p) in
/-- **One refill** is enough for the rest of the page. -/
theorem Reading.Front.fill (h : v.Front size offset file) (hdvd : PAGE_SIZE ∣ offset.toNat)
    (hsize : PAGE_SIZE ∣ size.toNat) (hpos : 0 < size.toNat) (hne : v.count ≠ 0)
    (htype : v.cache.type = .read) :
    match p v.remote.2 with
    | some e => ∃ v', v.fill (farFile how path p) size (4096 : UInt32).toNat = .inl (some (e, v'))
    | none => ∃ v', v.fill (farFile how path p) size (4096 : UInt32).toNat = .inr v' ∧
        v'.count = 0 ∧ v'.read = 4096 ∧ v'.buffer = fetch file offset.toNat PAGE_SIZE := by
  have hfar : v.remote.1 = file := by
    have hlogical := h.logical
    simpa only [Words.logical, htype] using hlogical
  have hplace := h.place hne
  have hleft := h.left
  have hne' : v.count.toNat ≠ 0 := fun h => hne (UInt32.toNat_inj.mp h)
  have hpage : (4096 : UInt32).toNat = 4096 := by decide
  have hsize32 := lt_size hsize
  have hbase : pageBase v.offset.toNat = offset.toNat := by
    obtain ⟨a, ha⟩ := hdvd
    unfold PAGE_SIZE at ha hleft
    unfold pageBase PAGE_SIZE
    omega
  have ho : (pageMask v.offset).toNat = offset.toNat := (toNat_pageMask _).trans hbase
  have hx : (v.offset - pageMask v.offset).toNat = v.read.toNat := by
    rw [toNat_sub_pageMask, hbase]
    omega
  -- the readahead does not wrap around
  have hmeet : (v.cache.meet v.offset.toNat).count ≤ size.toNat := by
    have := h.held
    unfold FCache.meet
    split <;> simp [this]
  have hroom : v.offset.toNat - pageBase v.offset.toNat + v.count.toNat + PAGE_SIZE ≤ 2 ^ 32 := by
    unfold PAGE_SIZE at hleft ⊢
    omega
  set ahead := readahead size v.offset v.count (v.cache.meet v.offset.toNat).count with hdef
  have hahead : ahead.toNat = Shfs.readahead size.toNat v.offset.toNat v.count.toNat
      (v.cache.meet v.offset.toNat).count := toNat_readahead_of_room hsize hpos hroom hne hmeet
  obtain ⟨hlt, hle, hpages, -⟩ :=
    readahead_spec hsize hpos v.offset.toNat (v.cache.meet v.offset.toNat).count hne'
  rw [← hahead] at hlt hle hpages
  have hpageful : PAGE_SIZE ≤ ahead.toNat := Nat.le_of_dvd hlt hpages
  set c := (v.cache.meet v.offset.toNat).makeRoom size.toNat v.offset.toNat ahead.toNat with hc
  have hbehind : c.count + ahead.toNat ≤ size.toNat := makeRoom_le hle
  rw [Reading.fill]
  dsimp only
  rw [meet_word, ← hdef, makeRoom_word, ← hc, farFile_read]
  cases p v.remote.2 with
  | some e => exact ⟨_, rfl⟩
  | none =>
    dsimp only
    set d := wanted v.remote.1 (.ofNat 0) (pageMask v.offset).toNat ahead.toNat with hd
    have hdfetch : d = fetch file offset.toNat ahead.toNat := by
      rw [hd, hfar, ho]
      exact wanted_zero _ _ _
    have hlen : d.length = ahead.toNat := by rw [hdfetch, length_fetch]
    -- a page is at least what is left, so this round is the last one
    have hcount : (UInt32.ofNat d.length - (v.offset - pageMask v.offset)).toNat =
        ahead.toNat - v.read.toNat := by
      rw [UInt32.toNat_sub_of_le, hx, hlen, UInt32.ofNat_toNat]
      rw [UInt32.le_iff_toNat_le, hx, hlen, UInt32.ofNat_toNat]
      omega
    have hall : (if UInt32.ofNat d.length - (v.offset - pageMask v.offset) > v.count then v.count
        else UInt32.ofNat d.length - (v.offset - pageMask v.offset)) = v.count := by
      split
      · rfl
      · next hle =>
        refine UInt32.toNat_inj.mp ?_
        rw [gt_iff_lt, UInt32.lt_iff_toNat_lt, hcount] at hle
        rw [hcount]
        omega
    have hgot : v.buffer.length = v.read.toNat := by rw [h.got, length_fetch]
    have hcopy : c.count + v.read.toNat + v.count.toNat ≤ size.toNat ∧
        v.buffer.length + v.count.toNat ≤ (4096 : UInt32).toNat := by
      rw [hgot, hpage, ← PAGE_SIZE, ← hleft]
      omega
    have hrest : fetch (store c.data c.count d) (c.count + v.read.toNat) v.count.toNat =
        fetch file (offset.toNat + v.read.toNat) v.count.toNat := by
      rw [fetch_store_inside _ _ (by omega), hdfetch, fetch_fetch _ _ (by omega)]
    rw [if_pos (by rw [hlen]; exact hbehind), hall, hx, Reading.copy]
    dsimp only
    rw [if_pos hcopy]
    refine ⟨_, rfl, UInt32.sub_self _, ?_, ?_⟩
    · refine UInt32.toNat_inj.mp ?_
      rw [toNat_add, hleft]
      · rfl
      · rw [hleft]
        decide
    · dsimp only
      rw [hrest, h.got, ← fetch_add, hleft]

/-- What a new buffer changes. -/
theorem Coherent.alloc {s : Slot (Bytes × ℕ)} (hs : Coherent s)
    (hstart : ∀ c ∈ s.cache, c.offset < 2 ^ 32) (mem : Memory) :
    Coherent (s.alloc mem) ∧ (∀ c ∈ (s.alloc mem).cache, c.offset < 2 ^ 32) ∧
      Words.logical (s.alloc mem) = Words.logical s ∧ (s.alloc mem).remote = s.remote := by
  have hremote := s.alloc_remote mem
  unfold Coherent Words.logical at *
  rw [hremote]
  obtain hc | ⟨hnone, data, hc⟩ := s.alloc_cases mem
  · rw [hc]
    exact ⟨hs, hstart, rfl, rfl⟩
  · rw [hc, hnone]
    refine ⟨?_, ?_, rfl, rfl⟩
    · rintro _ ⟨⟩ -
      exact (fetch_zero _ _).trans (fetch_zero _ _).symm
    · rintro _ ⟨⟩
      exact Nat.two_pow_pos 32

variable (how path p) in
/-- **A page through the cache** is the one of the logical file, at an offset of 32 bits. -/
theorem fcacheFileRead_page (hdvd : PAGE_SIZE ∣ offset.toNat) (hsize : PAGE_SIZE ∣ size.toNat)
    (hpos : 0 < size.toNat) {s : Slot (Bytes × ℕ)} (hs : Coherent s) (hroom : Room size s)
    (hstart : ∀ c ∈ s.cache, c.offset < 2 ^ 32) {fuel : ℕ} (hfuel : 0 < fuel) (mem : Memory)
    (f : OpenFile) :
    ∃ result s' sent, fcacheFileRead (farFile how path p) size fuel mem f.file offset 4096 s =
        some (.back result s' sent) ∧
      (∀ x, result = .ok x → x = (4096, fetch (logical s) offset.toNat PAGE_SIZE)) ∧
      ((∀ k, p k = none) → ∃ x, result = .ok x) := by
  have hroom' := hroom.alloc mem
  obtain ⟨hs', hstart', hlogical, hremote⟩ := hs.alloc hstart mem
  rw [fcacheFileRead, OpenFile.checkName]
  dsimp only
  cases hcache : (s.alloc mem).cache with
  | none =>
    -- without a buffer the page comes straight from the file
    have hfar : s.remote.1 = Words.logical s := by
      rw [← hlogical, ← hremote]
      simp only [Words.logical, hcache]
    dsimp only
    rw [farFile_read, hremote]
    cases hp : p s.remote.2 with
    | some e =>
      refine ⟨.error e, _, [], rfl, by rintro _ ⟨⟩, fun hnone => ?_⟩
      rw [hnone] at hp
      cases hp
    | none =>
      have hpage : wanted s.remote.1 (.ofNat 0) offset.toNat (4096 : UInt32).toNat =
          fetch (Words.logical s) offset.toNat PAGE_SIZE := by
        rw [← hfar]
        exact wanted_zero _ _ _
      dsimp only
      rw [hpage, length_fetch, if_pos (show PAGE_SIZE ≤ (4096 : UInt32).toNat by decide)]
      exact ⟨_, _, _, rfl, fun x hx => (Except.ok.inj hx).symm, fun _ => ⟨_, rfl⟩⟩
  | some c =>
    have hfront : Coherent ⟨some c, 0, (s.alloc mem).remote⟩ := fun c' hc' => hs' c' (hcache ▸ hc')
    have hfile : Words.logical ⟨some c, 0, (s.alloc mem).remote⟩ = Words.logical s := by
      rw [← hlogical]
      simp only [Words.logical, hcache]
    obtain ⟨v, hhit, hv⟩ :=
      Reading.front_hit hdvd (hroom' c hcache) (hstart' c hcache) hfront f.name
    obtain ⟨v', hflush, hv', htype, hsent⟩ := hv.flush how path p f.ino
    rw [hfile] at hv'
    obtain ⟨fuel, rfl⟩ := Nat.exists_eq_succ_of_ne_zero hfuel.ne'
    dsimp only
    rw [hhit, Option.bind_some, hflush]
    dsimp only
    by_cases hne : v'.count = 0
    · rw [loop_done (a := v') (decide_eq_false fun h => h hne)]
      -- all of the page is in the buffer
      have hread : v'.read.toNat = PAGE_SIZE := by
        have hleft := hv'.left
        rw [hne] at hleft
        exact hleft
      refine ⟨_, _, _, rfl, fun x hx => ?_, fun _ => ⟨_, rfl⟩⟩
      rw [← Except.ok.inj hx, hv'.got, hread]
      exact congrArg (·, _) (UInt32.toNat_inj.mp hread)
    -- a page is asked for at its start, so that one round is enough
    · have hfill := hv'.fill how path p hdvd hsize hpos hne (htype hne)
      rw [loop, if_pos (decide_eq_true hne)]
      cases hp : p v'.remote.2 with
      | some e =>
        rw [hp] at hfill
        obtain ⟨w, hw⟩ := hfill
        rw [hw]
        refine ⟨.error e, _, _, rfl, by rintro _ ⟨⟩, fun hnone => ?_⟩
        rw [hnone] at hp
        cases hp
      | none =>
        rw [hp] at hfill
        obtain ⟨w, hw, hdone, hread, hgot⟩ := hfill
        rw [hw]
        dsimp only
        rw [loop_done (a := w) (decide_eq_false fun h => h hdone)]
        refine ⟨_, _, _, rfl, fun x hx => ?_, fun _ => ⟨_, rfl⟩⟩
        rw [← Except.ok.inj hx, hgot, hread]

/-- The byte offset of a page, as far as it fits into `unsigned`. -/
theorem toNat_offset {index : UInt64} (h : index.toNat * PAGE_SIZE < 2 ^ 63) :
    (index <<< 12).toUInt32.toNat = index.toNat * PAGE_SIZE % 2 ^ 32 := by
  have hshift : (index <<< 12).toNat = index.toNat * PAGE_SIZE := by
    rw [UInt64.toNat_shiftLeft, show (12 : UInt64).toNat % 64 = 12 by decide, Nat.shiftLeft_eq]
    exact Nat.mod_eq_of_lt (h.trans (by decide))
  rw [UInt64.toNat_toUInt32, hshift]

theorem dvd_offset {index : UInt64} (h : index.toNat * PAGE_SIZE < 2 ^ 63) :
    PAGE_SIZE ∣ (index <<< 12).toUInt32.toNat := by
  rw [toNat_offset h]
  exact (Nat.dvd_mod_iff (by decide)).mpr (Dvd.intro_left _ rfl)

/-- Without a cache there is only the remote file. -/
theorem logical_of_room {s : Slot (Bytes × ℕ)} (h : Room 0 s) : logical s = s.remote.1 := by
  unfold logical
  split
  · rfl
  · next c hc =>
    have hempty : c.count = 0 := Nat.le_zero.mp (h c hc)
    split
    · rfl
    · rw [FCache.held, hempty, fetch_zero, store_nil]

variable (how path p) in
/-- The first read brings the whole page, on a mount with a cache or without one. -/
theorem Paging.read_page {index : UInt64} (hindex : index.toNat * PAGE_SIZE < 2 ^ 63)
    (hsize : PAGE_SIZE ∣ size.toNat) {s : Slot (Bytes × ℕ)} (hs : Coherent s) (hroom : Room size s)
    (hstart : ∀ c ∈ s.cache, c.offset < 2 ^ 32) {fuel : ℕ} (hfuel : 0 < fuel) (mem : Memory)
    (f : OpenFile) :
    ∃ result s' sent, (⟨index <<< 12, 4096, [], s⟩ : Paging (Bytes × ℕ)).read (farFile how path p)
        size fuel mem f = some (.back result s' sent) ∧
      (∀ x, result = .ok x →
        x = (4096, fetch (logical s) (index.toNat * PAGE_SIZE % 2 ^ 32) PAGE_SIZE)) ∧
      ((∀ k, p k = none) → ∃ x, result = .ok x) := by
  rw [← toNat_offset hindex]
  by_cases hzero : size = 0
  · have hfar : s.remote.1 = logical s := (logical_of_room (hzero ▸ hroom)).symm
    rw [Paging.read, if_neg fun h => h hzero]
    dsimp only
    rw [if_neg (getName_nonneg _ _), farFile_read]
    dsimp only
    cases hp : p s.remote.2 with
    | some e =>
      refine ⟨.error e, _, [], rfl, by rintro _ ⟨⟩, fun hnone => ?_⟩
      rw [hnone] at hp
      cases hp
    | none =>
      have hpage : wanted s.remote.1 (.ofNat 0) (index <<< 12).toUInt32.toNat
          (4096 : UInt64).toUInt32.toNat =
          fetch (logical s) (index <<< 12).toUInt32.toNat PAGE_SIZE := by
        rw [← hfar]
        exact wanted_zero _ _ _
      dsimp only
      rw [hpage]
      refine ⟨_, _, _, rfl, fun x hx => ?_, fun _ => ⟨_, rfl⟩⟩
      rw [← Except.ok.inj hx]
      dsimp only
      rw [length_fetch]
      rfl
  · have hpos : 0 < size.toNat := Nat.pos_of_ne_zero fun h => hzero (UInt32.toNat_inj.mp h)
    rw [Paging.read, if_pos hzero]
    exact fcacheFileRead_page how path p (dvd_offset hindex) hsize hpos hs hroom hstart hfuel mem f

variable (how path p) in
/-- **The page that is read** is the one of the logical file at its offset modulo 2^32. -/
theorem shfsFileReadpage_eq {index : UInt64} (hindex : index.toNat * PAGE_SIZE < 2 ^ 63)
    (hsize : PAGE_SIZE ∣ size.toNat) {s : Slot (Bytes × ℕ)} (hs : Coherent s) (hroom : Room size s)
    (hstart : ∀ c ∈ s.cache, c.offset < 2 ^ 32) {fuel : ℕ} (hfuel : 0 < fuel) (mem : Memory)
    (f : OpenFile) :
    ∃ result s' sent, shfsFileReadpage (farFile how path p) size fuel mem f index s =
        some (.back result s' sent) ∧
      (∀ page, result = .ok page →
        page = fetch (logical s) (index.toNat * PAGE_SIZE % 2 ^ 32) PAGE_SIZE) ∧
      ((∀ k, p k = none) → ∃ page, result = .ok page) := by
  obtain ⟨result, s', sent, hread, hpage, hall⟩ :=
    Paging.read_page how path p hindex hsize hs hroom hstart hfuel mem f
  have hne : (⟨index <<< 12, 4096, [], s⟩ : Paging (Bytes × ℕ)).count ≠ 0 := by
    show (4096 : UInt64) ≠ 0
    decide
  obtain ⟨n, rfl⟩ := Nat.exists_eq_succ_of_ne_zero hfuel.ne'
  rw [shfsFileReadpage, loop, if_pos (decide_eq_true hne), Paging.round, hread]
  cases result with
  | error e =>
    exact ⟨.error e, s', sent, rfl, by rintro _ ⟨⟩, fun hnone => absurd (hall hnone) (by simp)⟩
  | ok x =>
    obtain rfl := hpage x rfl
    have hmore : (4096 : UInt32) ≠ 0 := by decide
    dsimp only
    rw [if_neg hmore]
    dsimp only
    have hdone : (4096 : UInt64) - (4096 : UInt32).toUInt64 = 0 := by decide
    rw [hdone, loop_done (by rfl)]
    refine ⟨_, _, _, rfl, fun page hp => ?_, fun _ => ⟨_, rfl⟩⟩
    rw [← Except.ok.inj hp]
    simp [Paging.full]

variable (how path p) in
/-- **A slow read** is one at the file position modulo 2^32. -/
theorem shfsSlowRead_eq (f : OpenFile) (page : Bool) (count ppos : UInt64) (far : Bytes × ℕ) :
    (∀ d, (shfsSlowRead (farFile how path p) f page count ppos far).1 = .ok d →
      d = wanted far.1 (.ofNat f.ino) (ppos.toNat % 2 ^ 32) (min count.toNat PAGE_SIZE)) ∧
    (page = true → (∀ k, p k = none) →
      ∃ d, (shfsSlowRead (farFile how path p) f page count ppos far).1 = .ok d) := by
  have hcount : (if count > 4096 then 4096 else count).toUInt32.toNat =
      min count.toNat PAGE_SIZE := by
    have hpage : (4096 : UInt64).toNat = PAGE_SIZE := by decide
    rw [UInt64.toNat_toUInt32]
    split
    · next hgt =>
      rw [gt_iff_lt, UInt64.lt_iff_toNat_lt, hpage] at hgt
      rw [hpage, Nat.min_eq_right hgt.le]
      rfl
    · next hle =>
      rw [gt_iff_lt, UInt64.lt_iff_toNat_lt, hpage, not_lt] at hle
      rw [Nat.min_eq_left hle]
      exact Nat.mod_eq_of_lt (hle.trans_lt (by decide))
  unfold shfsSlowRead
  cases page with
  | false => exact ⟨nofun, nofun⟩
  | true =>
    dsimp only
    rw [if_neg (by decide), if_neg (getName_nonneg _ _), farFile_read, hcount,
      UInt64.toNat_toUInt32]
    dsimp only
    cases hp : p far.2 with
    | some e =>
      refine ⟨nofun, fun _ hnone => ?_⟩
      rw [hnone] at hp
      cases hp
    | none => exact ⟨fun d hd => (Except.ok.inj hd).symm, fun _ _ => ⟨_, rfl⟩⟩

end Page

/-! ## Where the octets are from -/

/-- The page that comes back is this one. -/
def Filled (page : Bytes) : Option (Outcome Bytes (Bytes × ℕ)) → Prop
  | some (.back (.ok d) _ _) => d = page
  | some (.back (.error _) _ _) => True
  | _ => False

instance (page : Bytes) : ∀ r, Decidable (Filled page r)
  | some (.back (.ok _) _ _) => inferInstanceAs (Decidable (_ = _))
  | some (.back (.error _) _ _) => .isTrue trivial
  | some .outside | none => .isFalse id

/-- If there are octets, then these. -/
def Copied (octets : Bytes) : Except Errno Bytes → Prop
  | .ok d => d = octets
  | .error _ => True

instance (octets : Bytes) : ∀ r, Decidable (Copied octets r)
  | .ok _ => inferInstanceAs (Decidable (_ = _))
  | .error _ => .isTrue trivial

/-- A file with one octet that is not 0. -/
def mark (off : ℕ) : Bytes := store [] off [1]

theorem getD_mark (off i : ℕ) : (mark off).getD i 0 = if i = off then 1 else 0 := by
  rw [mark, getD_store]
  simp only [List.length_singleton]
  by_cases hi : i = off
  · rw [hi, if_pos ⟨le_rfl, Nat.lt_succ_self _⟩, if_pos rfl, Nat.sub_self]
    rfl
  · rw [if_neg (by omega), if_neg hi]
    rfl

/-- There are octets for the buffer that are those of the file. -/
theorem exists_coherent (cache : Option FCache) (free : ℤ) (far : Bytes) :
    ∃ data, Coherent (holding cache free far data) ∧
      ∀ i, (logical (holding cache free far data)).getD i 0 = far.getD i 0 := by
  cases cache with
  | none => exact ⟨[], nofun, fun _ => rfl⟩
  | some c =>
    have hheld : ({ c with data := fetch far c.offset c.count } : FCache).held =
        fetch far c.offset c.count := by
      rw [FCache.held, fetch_fetch _ _ (Nat.zero_add _).le, Nat.add_zero]
    refine ⟨fetch far c.offset c.count, ?_, fun i => ?_⟩
    · rintro _ ⟨⟩ -
      exact hheld
    · unfold logical holding
      dsimp only [Option.map_some]
      split
      · rfl
      · rw [hheld, getD_store]
        split
        · next hin =>
          rw [length_fetch] at hin
          rw [getD_fetch, if_pos (by omega), Nat.add_sub_cancel' hin.1]
        · rfl

/-- The first octet of a read. -/
theorem getD_wanted (file : Bytes) (ino : UInt64) (off : ℕ) {n : ℕ} (hn : 0 < n) :
    (wanted file ino off n).getD 0 0 = file.getD off 0 := by
  have hpart : ((file.drop off).take n).getD 0 0 = file.getD off 0 := by
    rw [List.getD_eq_getElem?_getD, List.getElem?_take_of_lt hn, List.getElem?_drop, Nat.add_zero,
      List.getD_eq_getElem?_getD]
  unfold wanted filled
  split
  · rw [getD_fetch, if_pos hn, Nat.zero_add, hpart]
  · exact hpart

section Reach

variable {size : UInt32} {cache : Option FCache} {free : ℤ} {mem : Memory} {f : OpenFile} {fuel : ℕ}

/-- **Offsets reach the server** exactly if they are below 2^32. Whatever the file, and whatever of
it is in the buffer: a page is the one at its byte offset, and a slow read brings the octets from
the file position on, if that has 32 bits or nothing is asked for. -/
theorem offsets_reach_iff (how : Finding) (path : Path) (hsize : PAGE_SIZE ∣ size.toNat)
    (hroom : ∀ c ∈ cache, c.count ≤ size.toNat) (hstart : ∀ c ∈ cache, c.offset < 2 ^ 32)
    {index : UInt64} (hindex : index.toNat * PAGE_SIZE < 2 ^ 63) (hfuel : 0 < fuel)
    (count ppos : UInt64) :
    ((∀ (p : ℕ → Option Errno) (far data : Bytes), Coherent (holding cache free far data) →
        Filled (fetch (logical (holding cache free far data)) (index.toNat * PAGE_SIZE) PAGE_SIZE)
          (shfsFileReadpage (farFile how path p) size fuel mem f index
            (holding cache free far data))) ↔
      index.toNat * PAGE_SIZE < 2 ^ 32) ∧
    ((∀ (p : ℕ → Option Errno) (far : Bytes × ℕ) (page : Bool),
        Copied (wanted far.1 (.ofNat f.ino) ppos.toNat (min count.toNat PAGE_SIZE))
          (shfsSlowRead (farFile how path p) f page count ppos far).1) ↔
      ppos.toNat < 2 ^ 32 ∨ count = 0) := by
  have hholding : ∀ far data, Room size (holding cache free far data) ∧
      ∀ c ∈ (holding cache free far data).cache, c.offset < 2 ^ 32 := by
    intro far data
    cases cache with
    | none => exact ⟨nofun, nofun⟩
    | some c =>
      refine ⟨?_, ?_⟩
      · rintro _ ⟨⟩
        exact hroom c rfl
      · rintro _ ⟨⟩
        exact hstart c rfl
  refine ⟨⟨fun h => ?_, fun hlt p far data hc => ?_⟩, fun h => ?_, fun hor p far page => ?_⟩
  · -- a file that has an octet at the page, and nothing at the one that is read
    by_contra! hle
    obtain ⟨data, hc, hsame⟩ := exists_coherent cache free (mark (index.toNat * PAGE_SIZE))
    have hfilled := h (fun _ => none) _ data hc
    obtain ⟨result, s', sent, hread, hpage, hall⟩ := shfsFileReadpage_eq how path
      (fun _ => none) hindex hsize hc (hholding _ data).1 (hholding _ data).2 hfuel mem f
    obtain ⟨page, rfl⟩ := hall fun _ => rfl
    rw [hread] at hfilled
    have hfirst := congrArg (·.getD 0 0) ((hpage page rfl).symm.trans hfilled)
    have hpos : 0 < PAGE_SIZE := by decide
    -- cut to 32 bits, the position is another one
    have hother : index.toNat * PAGE_SIZE % 2 ^ 32 ≠ index.toNat * PAGE_SIZE := by omega
    rw [getD_fetch, getD_fetch, if_pos hpos, if_pos hpos, hsame, hsame, getD_mark, getD_mark,
      Nat.add_zero, Nat.add_zero, if_neg hother, if_pos rfl] at hfirst
    exact absurd hfirst (by decide)
  · obtain ⟨result, s', sent, hread, hpage, -⟩ := shfsFileReadpage_eq how path
      p hindex hsize hc (hholding far data).1 (hholding far data).2 hfuel mem f
    rw [hread]
    cases result with
    | error e => exact trivial
    | ok page =>
      rw [Nat.mod_eq_of_lt hlt] at hpage
      exact hpage page rfl
  · by_contra! hor
    have hcopied := h (fun _ => none) (mark ppos.toNat, 0) true
    obtain ⟨hslow, hall⟩ := shfsSlowRead_eq how path (fun _ => none) f true count ppos
      (mark ppos.toNat, 0)
    obtain ⟨d, hd⟩ := hall rfl fun _ => rfl
    rw [hd] at hcopied
    have hfirst := congrArg (·.getD 0 0) ((hslow d hd).symm.trans hcopied)
    -- the same for a slow read of at least one octet
    have hne : count.toNat ≠ 0 := fun h => hor.2 (UInt64.toNat_inj.mp h)
    have hpos : 0 < min count.toNat PAGE_SIZE := by
      unfold PAGE_SIZE
      omega
    have hother : ppos.toNat % 2 ^ 32 ≠ ppos.toNat := by
      have := hor.1
      omega
    rw [getD_wanted _ _ _ hpos, getD_wanted _ _ _ hpos, getD_mark, getD_mark, if_neg hother,
      if_pos rfl] at hfirst
    exact absurd hfirst (by decide)
  · cases hd : (shfsSlowRead (farFile how path p) f page count ppos far).1 with
    | error e => exact trivial
    | ok d =>
      have hslow := (shfsSlowRead_eq how path p f page count ppos far).1 d hd
      rcases hor with hlt | rfl
      · rwa [Nat.mod_eq_of_lt hlt] at hslow
      · rw [show min (0 : UInt64).toNat PAGE_SIZE = 0 from rfl] at hslow ⊢
        simpa [Copied, wanted, filled] using hslow

end Reach

/-! ### Examples -/

open CacheOp in
theorem offsets_reach_first :
    ((∀ (p : ℕ → Option Errno) (far data : Bytes), Coherent (holding none 1 far data) →
        Filled
          (fetch (logical (holding none 1 far data)) ((0 : UInt64).toNat * PAGE_SIZE) PAGE_SIZE)
          (shfsFileReadpage (farFile .seek fileA p) 4096 1 plenty openA 0
            (holding none 1 far data))) ↔
      (0 : UInt64).toNat * PAGE_SIZE < 2 ^ 32) ∧
    ((∀ (p : ℕ → Option Errno) (far : Bytes × ℕ) (page : Bool),
        Copied (wanted far.1 (.ofNat openA.ino) (4294967296 : UInt64).toNat
            (min (1 : UInt64).toNat PAGE_SIZE))
          (shfsSlowRead (farFile .seek fileA p) openA page 1 4294967296 far).1) ↔
      (4294967296 : UInt64).toNat < 2 ^ 32 ∨ (1 : UInt64) = 0) :=
  offsets_reach_iff .seek fileA (by decide) (by simp) (by simp) (by decide) (by decide) 1 4294967296

open CacheOp in
/-- A file of one octet: the page at 4 GiB is the first one again, and a slow read there brings the
octet, on a mount without a cache. -/
theorem not_offsets_reach :
    ¬ Filled (fetch [65] ((1048576 : UInt64).toNat * PAGE_SIZE) PAGE_SIZE)
        (shfsFileReadpage (farFile .seek fileA fun _ => none) 0 1 plenty openA 1048576
          ⟨none, 0, ([65], 0)⟩) ∧
      ¬ Copied (wanted [65] (.ofNat openA.ino) (4294967296 : UInt64).toNat
          (min (1 : UInt64).toNat PAGE_SIZE))
        (shfsSlowRead (farFile .seek fileA fun _ => none) openA true 1 4294967296 ([65], 0)).1 := by
  constructor
  · decide +kernel
  · decide +kernel

end Shfs.Words
