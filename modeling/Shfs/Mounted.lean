import Shfs.Invariant
import Shfs.Readahead
import Shfs.Options

/-!
# From the mount on

`shfs_read_super` fills in the super block from the option string and builds the inode of the root;
from there on it is operations. Their only loops are those of `shfs_file_readpage` and of the read
behind it, and both of them end, whatever the server answers: a mount has a buffer of whole pages,
and a refill that succeeds is never empty. So every run of operations comes to an end
(`VfsOp.reached_total`).
-/

namespace Shfs

open Lib

/-! ## Mounts -/

section Mount

variable {τ : Type}

/-- The super block with these options. -/
def SbInfo.superBlock (info : SbInfo) (host : Host τ) (clock : Clock) : SuperBlock τ where
  host := host
  info := ⟨info.readonly, info.preserveOwn, info.uid, info.gid⟩
  fmask := info.fmask.toUInt16
  fcacheSize := info.fcacheSize
  clock := clock

/-- `init_root_dirent`, at a time. -/
def initRootDirent (info : SbInfo) (now : UInt64) : Fattr where
  mode := .ofNat info.rootMode
  nlink := 1
  uid := info.uid
  gid := info.gid
  rdev := 0
  size := 512
  time := now
  blksize := 512
  blocks := 0

/-- The world behind `shfs_read_super`. -/
def SbInfo.mounted (info : SbInfo) (host : Host τ) (clock : Clock) (now : UInt64) (server : τ) :
    World τ :=
  (shfsIget (info.superBlock host clock) 2 true (initRootDirent info now)
    ⟨[], info.fcacheFree, ⟨server, []⟩⟩).2

/-- The options of a string, for a user. -/
def optionsOf (opts : Bytes) (uid gid : UInt32) : SbInfo :=
    (parseOptions opts (.start uid gid)).info

/-- The buffers are whole pages. -/
theorem dvd_fcacheSize (opts : Bytes) (uid gid : UInt32) :
    PAGE_SIZE ∣ (optionsOf opts uid gid).fcacheSize := by
  refine parseLoop_rule (fun info => PAGE_SIZE ∣ info.fcacheSize) ?_ (Dvd.intro_left 32 rfl)
  intro c arg rest info h
  cases c with
  | cachesize => exact Dvd.intro_left _ rfl
  | _ => exact h

/-- An invariant holds on a fresh mount if it holds of the inode of the root. -/
theorem mounted_holds {I : Invariant} {info : SbInfo} {host : Host τ} {clock : Clock} {now : UInt64}
    {server : τ}
    (hroot : I.inode (builtInode (info.superBlock host clock) 2 (initRootDirent info now))) :
    I.Holds (info.mounted host clock now server) :=
  shfsIget_holds ⟨fun _ hv => absurd hv List.not_mem_nil, fun _ hc => absurd hc List.not_mem_nil⟩
    hroot

end Mount

/-! ## Every operation comes back -/

section Total

variable {τ : Type}

/-- Every round of a read gets some octets, or is the last one. -/
theorem Reading.loop_total (server : Remote τ) {size : ℕ} (hsize : PAGE_SIZE ∣ size)
    (hpos : 0 < size) {fuel : ℕ} {v : Reading (Far τ)} (hfuel : v.count ≤ fuel) :
    ∃ r, loop (fun v => decide (v.count ≠ 0)) (Reading.fill (shellFops server size) size) fuel v =
      some r := by
  refine Lib.loop_total (fun _ => True) Reading.count
    (fun v _ hne => Nat.pos_of_ne_zero (of_decide_eq_true hne)) ?_ trivial hfuel
  intro v _ hne v' hfill
  refine ⟨trivial, ?_⟩
  have hcount : v.count ≠ 0 := of_decide_eq_true hne
  cases hres : (v.request (shellFops server size) size).result with
  | error e =>
    obtain ⟨v'', hv'', -⟩ := Reading.fill_error (shellFops server size) size hres
    rw [hv''] at hfill
    cases hfill
  | ok d =>
    obtain ⟨v'', hv'', -, -, hleft⟩ := Reading.fill_ok (shellFops server size) size hres
    rw [hv''] at hfill
    obtain rfl := Sum.inr.inj hfill
    obtain ⟨hahead, -, hpages, -⟩ :=
      readahead_spec hsize hpos v.offset (v.cache.meet v.offset).count hcount
    have hd := length_shellRead hres
    have hpage : PAGE_SIZE ≤ d.length := hd ▸ Nat.le_of_dvd hahead hpages
    have hx : v.offset - pageBase v.offset < PAGE_SIZE := by
      rw [sub_pageBase]
      exact Nat.mod_lt _ (by decide)
    rw [hleft]
    split <;> omega

theorem fcacheFileRead_total {server : Remote τ} {size : ℕ} (hsize : PAGE_SIZE ∣ size)
    (hpos : 0 < size) {fuel count : ℕ} (hfuel : count ≤ fuel) (mem : Memory) (f : File) (offset : ℕ)
    (s : Slot (Far τ)) :
    ∃ r, fcacheFileRead (shellFops server size) size fuel mem f offset count s = some r := by
  unfold fcacheFileRead
  cases f.checkName with
  | error e => exact ⟨_, rfl⟩
  | ok x =>
    dsimp only
    cases (s.alloc mem).cache with
    | none => exact ⟨_, rfl⟩
    | some c =>
      dsimp only
      set v := ((⟨x.2, offset, count, [], c, (s.alloc mem).remote⟩ : Reading (Far τ)).hit).flush
        (shellFops server size) x.1 with hv
      have hcount : v.count ≤ count := by
        have hflush : v.count =
            (⟨x.2, offset, count, [], c, (s.alloc mem).remote⟩ : Reading (Far τ)).hit.count := by
          rw [hv]
          unfold Reading.flush
          split <;> rfl
        rw [hflush]
        unfold Reading.hit
        split
        · exact Nat.sub_le _ _
        · exact Nat.le_refl _
      obtain ⟨r, hr⟩ := Reading.loop_total server hsize hpos (hcount.trans hfuel)
      rw [hr]
      cases r <;> exact ⟨_, rfl⟩

variable {sb : SuperBlock τ}

theorem shfsFileReadpage_total (hsize : PAGE_SIZE ∣ sb.fcacheSize) {fuel : ℕ}
    (hfuel : PAGE_SIZE ≤ fuel) (n : Node) (stack : Bytes) (mem : Memory) (index : ℕ) (w : World τ) :
    ∃ r, shfsFileReadpage sb fuel n stack mem index w = some r := by
  have hread : ∀ v : Paging τ, v.count ≤ fuel → ∃ r, v.read sb fuel n stack mem = some r := by
    intro v hv
    unfold Paging.read
    split
    · next hne =>
      obtain ⟨r, hr⟩ := fcacheFileRead_total hsize (Nat.pos_of_ne_zero hne) hv mem
        (v.world.file n stack) (v.offset % 2 ^ 32) (v.world.slot n.inode)
      rw [hr]
      exact ⟨_, rfl⟩
    · exact ⟨_, rfl⟩
  obtain ⟨r, hr, hexit⟩ : ∃ r, loop (fun v : Paging τ => decide (v.count ≠ 0))
      (Paging.round sb fuel n stack mem) fuel ⟨index * PAGE_SIZE, PAGE_SIZE, w.lock sb⟩ = some r ∧
        Sum.elim (fun b => b.1 ≠ none) (fun _ => True) r := by
    -- a round without octets ends the loop, any other one leaves less to be read
    have hround : ∀ v : Paging τ, v.count ≤ fuel → decide (v.count ≠ 0) = true →
        Sum.elim (fun b => b.1 ≠ none) (fun v' => v'.count ≤ fuel ∧ v'.count < v.count)
          (v.round sb fuel n stack mem) := by
      intro v hv hne
      have hcount : v.count ≠ 0 := of_decide_eq_true hne
      obtain ⟨⟨result, w'⟩, hr⟩ := hread v hv
      unfold Paging.round
      rw [hr]
      cases result with
      | error e => exact nofun
      | ok data =>
        dsimp only
        split
        · exact nofun
        · next hdata =>
          have hlen := List.length_pos_of_ne_nil hdata
          exact ⟨(Nat.sub_le _ _).trans hv, Nat.sub_lt (Nat.pos_of_ne_zero hcount) hlen⟩
    have hstart : Paging.count ⟨index * PAGE_SIZE, PAGE_SIZE, w.lock sb⟩ ≤ fuel := hfuel
    obtain ⟨r, hr, hexit⟩ := loop_correct (fun v : Paging τ => v.count ≤ fuel) _ Paging.count
      (fun v _ hne => Nat.pos_of_ne_zero (of_decide_eq_true hne)) hround hstart hstart
    refine ⟨r, hr, ?_⟩
    cases r with
    | inl b => exact hexit
    | inr v => trivial
  unfold shfsFileReadpage
  dsimp only
  rw [hr]
  rcases r with ⟨result, w'⟩ | v
  · cases result with
    | none => exact absurd rfl hexit
    | some result => exact ⟨_, rfl⟩
  · exact ⟨_, rfl⟩

/-- **Every operation comes back.** The only loop is that of a page, and each of its rounds brings
it nearer to the end of the page. -/
theorem VfsOp.run_total (hsize : PAGE_SIZE ∣ sb.fcacheSize) {fuel : ℕ} (hfuel : PAGE_SIZE ≤ fuel)
    (op : VfsOp) (w : World τ) : ∃ w', op.run sb fuel w = some w' := by
  cases op with
  | readpage n stack mem index =>
    obtain ⟨r, hr⟩ := shfsFileReadpage_total hsize hfuel n stack mem index w
    exact ⟨r.2, Option.map_eq_some_iff.mpr ⟨r, hr, rfl⟩⟩
  | _ => exact ⟨_, rfl⟩

/-- **Every run comes to its end**: from any state, a list of operations leads to a state. So a
statement about the states that are reached is about something. -/
theorem VfsOp.reached_total (sb : SuperBlock τ) (hsize : PAGE_SIZE ∣ sb.fcacheSize) {fuel : ℕ}
    (hfuel : PAGE_SIZE ≤ fuel) (w : World τ) (ops : List VfsOp) :
    ∃ w', VfsOp.reached sb fuel w ops = some w' := by
  induction ops generalizing w with
  | nil => exact ⟨w, rfl⟩
  | cons op ops ih =>
    obtain ⟨w₁, hw₁⟩ := op.run_total hsize hfuel w
    obtain ⟨w', hw'⟩ := ih w₁
    refine ⟨w', ?_⟩
    change Lib.run (VfsOp.next sb fuel) (VfsOp.next sb fuel (some w) op) ops = some w'
    rw [show VfsOp.next sb fuel (some w) op = some w₁ from hw₁]
    exact hw'

end Total

end Shfs
