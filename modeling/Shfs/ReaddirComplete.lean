import Shfs.Lib.Run
import Shfs.LsLine
import Shfs.ReaddirOnce
import Shfs.Vfs

/-!
# A listing that is marked complete

The header of a directory is marked complete by `ctl.valid`, and that is what `shfs_fill_cache` has
made of the entries: it says whether all of them have got a slot. How the transfer has ended is not
asked. A reply that breaks off in front of its first entry has got a slot for all of them.

Neither is it asked whether a slot leads anywhere. A new dentry for which there is no inode is not
hashed, and is freed behind its entry; a name that comes twice has one dentry, which has the place
of the second entry.

`Filled` is what holds of the slots as long as the pages are valid, and `feed_filled` says when they
are. `feed_recorded_iff` says when every slot leads to its entry then. In a run of calls, a header
that is marked complete belongs to a reply that was, with every entry recorded, exactly under these
conditions (`leavesRight_iff`).
-/

namespace Shfs

open Lib

section Fill

variable {ν : Type} {garbage : ℕ → ℕ} {mem : FillMemory} {d d' : DirCache ν} {t : Filling ν}
  {p i : ℕ} {q : ν}

/-! ## Slots -/

/-- What is in the slot of position `j`, if its page is there. -/
def DirCache.slot (d : DirCache ν) (j : ℕ) : Option ℕ :=
  (d.pages ((j + SHFS_DIRCACHE_START) / SHFS_DIRCACHE_SIZE)).map fun slots =>
    slots ((j + SHFS_DIRCACHE_START) % SHFS_DIRCACHE_SIZE)

/-- The place of the next entry, behind `i` entries: in a page that is there, or right behind it. -/
structure AtSlot (i : ℕ) (t : Filling ν) : Prop where
  cache : t.ctl.cache = true
  idx : t.ctl.idx ≤ SHFS_DIRCACHE_SIZE
  position : SHFS_DIRCACHE_SIZE * t.ctl.ofs + t.ctl.idx = i + SHFS_DIRCACHE_START
  page : (t.dir.pages t.ctl.ofs).isSome = true

/-- The next entry is the first one of a page. -/
def OnNewPage (i : ℕ) : Prop := (i + SHFS_DIRCACHE_START) % SHFS_DIRCACHE_SIZE = 0

theorem AtSlot.full_iff (h : AtSlot i t) : SHFS_DIRCACHE_SIZE ≤ t.ctl.idx ↔
    OnNewPage i ∧ t.ctl.idx ≠ 0 := by
  obtain ⟨-, hidx, hposition, -⟩ := h
  dsimp only [OnNewPage, SHFS_DIRCACHE_SIZE, SHFS_DIRCACHE_START] at *
  omega

theorem turnPage_of_full (hfull : SHFS_DIRCACHE_SIZE ≤ t.ctl.idx) (hpage : mem.page = true) :
    t.turnPage mem garbage =
      { t with
        ctl := { t.ctl with
          idx := t.ctl.idx - SHFS_DIRCACHE_SIZE, ofs := t.ctl.ofs + 1, cache := true }
        dir := { t.dir with
          pages := Function.update t.dir.pages (t.ctl.ofs + 1)
            (some ((t.dir.pages (t.ctl.ofs + 1)).getD garbage)) } } := by
  simp only [Filling.turnPage, ge_iff_le, if_pos hfull, hpage, if_true]

variable (garbage) in
/-- **Turning the page**: the slots behind are left alone, and there is a slot for the next address.
-/
theorem AtSlot.turnPage (h : AtSlot i t) (hpage : OnNewPage i → mem.page = true) :
    AtSlot i (t.turnPage mem garbage) ∧ (t.turnPage mem garbage).ctl.idx < SHFS_DIRCACHE_SIZE ∧
      ∀ j < i, (t.turnPage mem garbage).dir.slot j = t.dir.slot j := by
  by_cases hfull : SHFS_DIRCACHE_SIZE ≤ t.ctl.idx
  · rw [turnPage_of_full hfull (hpage (h.full_iff.mp hfull).1)]
    obtain ⟨-, hidx, hposition, -⟩ := h
    refine ⟨⟨rfl, ?_, ?_, ?_⟩, ?_, fun j hj => ?_⟩
    all_goals dsimp only [DirCache.slot, SHFS_DIRCACHE_SIZE, SHFS_DIRCACHE_START] at *
    · omega
    · omega
    · rw [Function.update_self]
      rfl
    · omega
    · rw [Function.update_of_ne (by omega)]
  · rw [Filling.turnPage, if_neg hfull]
    exact ⟨h, Nat.not_le.mp hfull, fun _ _ => rfl⟩

/-- **Storing an address**: the slot has it then, and the other slots are left alone. -/
theorem AtSlot.store (h : AtSlot i t) (hroom : t.ctl.idx < SHFS_DIRCACHE_SIZE) (p : ℕ) :
    ∃ dir, t.store p = (true, { t with dir := dir }) ∧ dir.children = t.dir.children ∧
      AtSlot (i + 1) ({ t with dir := dir } : Filling ν).advance ∧ dir.slot i = some p ∧
      ∀ j < i, dir.slot j = t.dir.slot j := by
  obtain ⟨hcache, -, hposition, hsome⟩ := h
  obtain ⟨slots, hslots⟩ := Option.isSome_iff_exists.mp hsome
  refine ⟨_, (if_pos hcache).trans (if_pos hroom), rfl, ⟨hcache, hroom, ?_, ?_⟩, ?_, fun j hj => ?_⟩
  all_goals dsimp only [DirCache.slot, Filling.advance, SHFS_DIRCACHE_SIZE,
    SHFS_DIRCACHE_START] at *
  · omega
  · rw [Function.update_self, hslots]
    rfl
  · have hofs : (i + 3) / 512 = t.ctl.ofs := by omega
    have hidx : (i + 3) % 512 = t.ctl.idx := by omega
    rw [hofs, hidx, Function.update_self, hslots]
    exact congrArg some (Function.update_self ..)
  · by_cases hsame : (j + 3) / 512 = t.ctl.ofs
    · rw [hsame, Function.update_self, hslots]
      exact congrArg some (Function.update_of_ne (by omega) ..)
    · rw [Function.update_of_ne hsame]

/-! ## Dentries -/

/-- The slot of position `j` leads to the dentry with the name, and this has its place in the
listing: it is what `shfs_dget_fpos` finds. -/
def Recorded (d : DirCache ν) (j : ℕ) (q : ν) : Prop :=
  ∃ p, d.slot j = some p ∧ ∃ c, d.dgetFpos p (j + 2) = some c ∧ c.name = q

/-- Nobody has the place of position `j`. -/
def Lost (d : DirCache ν) (j : ℕ) : Prop := ∀ x ∈ d.children, x.2.fsdata ≠ j + 2

/-- What `shfs_dget_fpos` finds is in the directory, at its place. -/
theorem dgetFpos_cases {fpos : ℕ} {c : Child ν} (h : d.dgetFpos p fpos = some c) :
    (p, c) ∈ d.children ∧ c.fsdata = fpos := by
  rw [DirCache.dgetFpos] at h
  split at h
  · next c' hlookup =>
    split at h
    · next hplace =>
      obtain rfl := Option.some.inj h
      obtain ⟨l₁, l₂, hl, -⟩ := List.lookup_eq_some_iff.mp hlookup
      refine ⟨?_, hplace.1⟩
      rw [hl]
      exact List.mem_append_right _ (List.mem_cons_self ..)
    · cases h
  · cases h

theorem Lost.not_recorded (h : Lost d i) : ¬ Recorded d i q := by
  rintro ⟨p, -, c, hc, -⟩
  obtain ⟨hmem, hplace⟩ := dgetFpos_cases hc
  exact h _ hmem hplace

variable [DecidableEq ν]

/-- The dentry at the address `p` is the one that is found by the name, and the only one that has
the place of position `j`. -/
structure Placed (d : DirCache ν) (p j : ℕ) (q : ν) : Prop where
  found : d.children.find? (fun x => x.2.hashed && x.2.name = q) = some (p, ⟨q, j + 2, true, true⟩)
  only : ∀ x ∈ d.children, x.1 = p ∨ x.2.fsdata = j + 2 → x = (p, ⟨q, j + 2, true, true⟩)

theorem Placed.congr (h : Placed d p i q) (hc : d'.children = d.children) : Placed d' p i q :=
  ⟨hc ▸ h.found, hc ▸ h.only⟩

theorem Placed.recorded (h : Placed d p i q) (hslot : d.slot i = some p) : Recorded d i q := by
  have hmem := List.mem_of_find?_eq_some h.found
  refine ⟨p, hslot, ⟨q, i + 2, true, true⟩, ?_, rfl⟩
  rw [DirCache.dgetFpos]
  cases hlookup : d.children.lookup p with
  | none =>
    have hno := List.lookup_eq_none_iff.mp hlookup _ hmem
    simp at hno
  | some c =>
    obtain ⟨l₁, l₂, hl, -⟩ := List.lookup_eq_some_iff.mp hlookup
    have hc : (p, c) ∈ d.children := by
      rw [hl]
      exact List.mem_append_right _ (List.mem_cons_self ..)
    obtain rfl := (Prod.mk.inj (h.only _ hc (.inl rfl))).2
    exact if_pos ⟨rfl, rfl⟩

/-- A dentry is found by its name, or has been allocated. -/
theorem getDentry_cases {c : Child ν} (h : d.getDentry mem q = some (p, c)) :
    d.children.find? (fun x => x.2.hashed && x.2.name = q) = some (p, c) ∨
      (∀ x ∈ d.children, x.1 ≠ p) ∧ c = ⟨q, 0, false, false⟩ := by
  rw [DirCache.getDentry, Option.or_eq_some_iff] at h
  rcases h with hfound | ⟨-, hnew⟩
  · exact Or.inl hfound
  · obtain ⟨p', hfree, heq⟩ := Option.map_eq_some_iff.mp hnew
    obtain ⟨rfl, rfl⟩ := Prod.mk.inj heq
    obtain ⟨-, hnone⟩ := Option.filter_eq_some_iff.mp hfree
    refine Or.inr ⟨fun x hx hxp => ?_, rfl⟩
    have hlookup := List.lookup_eq_none_iff.mp (Option.isNone_iff_eq_none.mp hnone) x hx
    simp [hxp] at hlookup

/-- The place that a dentry has before it is given one is that of an entry before, or none. -/
theorem getDentry_fsdata {c : Child ν} (h : d.getDentry mem q = some (p, c)) :
    c.fsdata = 0 ∨ (p, c) ∈ d.children := by
  rcases getDentry_cases h with hfound | ⟨-, rfl⟩
  · exact Or.inr (List.mem_of_find?_eq_some hfound)
  · exact Or.inl rfl

/-- The dentries behind the entry. -/
def DirCache.noted (mem : FillMemory) (fpos : ℕ) (d : DirCache ν) (q : ν) : DirCache ν :=
  match d.getDentry mem q with
  | none => d
  | some (p, c) => (d.put p (c.fill mem fpos)).dput p

/-- There is an inode for the dentry of the entry. -/
def HasInode (mem : FillMemory) (d : DirCache ν) (q : ν) : Prop :=
  ∀ p c, d.getDentry mem q = some (p, c) → c.positive = true ∨ mem.inode = true

section Noted

variable {j fpos : ℕ} {q' : ν} {c : Child ν} {x : ℕ × Child ν}

theorem noted_of_get (hget : d.getDentry mem q = some (p, c)) :
    (d.noted mem fpos q).children =
      ((p, c.fill mem fpos) :: d.children.filter fun x => x.1 ≠ p).filter
        fun x => x.1 ≠ p ∨ x.2.hashed = true := by
  rw [DirCache.noted, hget]
  rfl

theorem mem_noted (hget : d.getDentry mem q = some (p, c))
    (hx : x ∈ (d.noted mem fpos q).children) :
    x = (p, c.fill mem fpos) ∨ x ∈ d.children ∧ x.1 ≠ p := by
  rw [noted_of_get hget] at hx
  rcases List.mem_cons.mp (List.mem_filter.mp hx).1 with hself | hother
  · exact Or.inl hself
  · exact Or.inr ⟨(List.mem_filter.mp hother).1, by simpa using (List.mem_filter.mp hother).2⟩

/-- **The places** behind the entry are its own and those of the entries before. So no dentry has a
place further on. -/
theorem noted_fsdata (hx : x ∈ (d.noted mem fpos q).children) :
    x.2.fsdata = fpos ∨ x.2.fsdata = 0 ∨ ∃ y ∈ d.children, y.2.fsdata = x.2.fsdata := by
  cases hget : d.getDentry mem q with
  | none =>
    rw [DirCache.noted, hget] at hx
    exact Or.inr (Or.inr ⟨x, hx, rfl⟩)
  | some pc =>
    obtain ⟨p, c⟩ := pc
    rcases mem_noted hget hx with rfl | ⟨hold, -⟩
    · rcases fill_fsdata c fpos with hnew | hkept
      · exact Or.inl hnew
      · rcases getDentry_fsdata hget with hzero | hmem
        · exact Or.inr (Or.inl (hkept.trans hzero))
        · exact Or.inr (Or.inr ⟨_, hmem, hkept.symm⟩)
    · exact Or.inr (Or.inr ⟨x, hold, rfl⟩)

/-- A place that nobody has is given to nobody but its own entry. -/
theorem Lost.noted (h : Lost d j) (hne : fpos ≠ j + 2) : Lost (d.noted mem fpos q) j := by
  intro x hx hplace
  rcases noted_fsdata hx with hnew | hzero | ⟨y, hy, hsame⟩
  · exact hne (hnew.symm.trans hplace)
  · omega
  · exact h y hy (hsame.trans hplace)

/-- The dentry of an entry with an inode. -/
theorem fill_inode (hget : d.getDentry mem q = some (p, c)) (hinode : HasInode mem d q) :
    c.fill mem fpos = ⟨q, fpos, true, true⟩ := by
  have hino := hinode p c hget
  rcases getDentry_cases hget with hfound | ⟨-, rfl⟩
  · obtain ⟨name, fsdata, positive, hashed⟩ := c
    have hname : hashed = true ∧ name = q := by simpa using List.find?_some hfound
    obtain ⟨rfl, rfl⟩ := hname
    cases positive with
    | true => rfl
    | false => simp [Child.fill, show mem.inode = true by simpa using hino]
  · simp [Child.fill, show mem.inode = true by simpa using hino]

variable (hb : ∀ x ∈ d.children, x.2.fsdata < i + 2)
include hb

theorem fsdata_noted_lt : ∀ x ∈ (d.noted mem (i + 2) q).children, x.2.fsdata < i + 3 := by
  intro x hx
  rcases noted_fsdata hx with hnew | hzero | ⟨y, hy, hsame⟩
  · omega
  · omega
  · have := hb y hy
    omega

/-- **An entry with an inode** gets its place: its dentry, new or not, is the only one with the
place, and it is found by the name. -/
theorem Placed.noted_self (hget : d.getDentry mem q = some (p, c)) (hinode : HasInode mem d q) :
    Placed (d.noted mem (i + 2) q) p i q := by
  have hfill : c.fill mem (i + 2) = ⟨q, i + 2, true, true⟩ := fill_inode hget hinode
  constructor
  · rw [noted_of_get hget, hfill, List.filter_cons_of_pos (by simp),
      List.find?_cons_of_pos (by simp)]
  · intro x hx hplace
    rcases mem_noted hget hx with rfl | ⟨hold, hp⟩
    · rw [hfill]
    · have := hb x hold
      rcases hplace with h | h
      · exact absurd h hp
      · omega

/-- **Without an inode** its place is nobody's: `dput` has freed the dentry, and the slot of the
entry leads to an address that has none. -/
theorem lost_of_no_inode (hno : ¬ HasInode mem d q) : Lost (d.noted mem (i + 2) q) i := by
  simp only [HasInode, not_forall, not_or] at hno
  obtain ⟨p, c, hget, hnegative, hnone⟩ := hno
  have hfill : c.fill mem (i + 2) = c := by rw [Child.fill, if_neg hnegative, if_neg hnone]
  intro x hx
  rcases mem_noted hget hx with rfl | ⟨hold, -⟩
  · rw [hfill]
    rcases getDentry_fsdata hget with hzero | hmem
    · dsimp only
      omega
    · exact (hb _ hmem).ne
  · exact (hb x hold).ne

omit hb

/-- **A second entry with the name** takes the place of the first one, as they have one dentry
between them. Nobody has the first place then. -/
theorem Placed.lost (h : Placed d p j q) (hne : fpos ≠ j + 2) : Lost (d.noted mem fpos q) j := by
  have hget : d.getDentry mem q = some (p, ⟨q, j + 2, true, true⟩) := by
    rw [DirCache.getDentry, h.found]
    rfl
  intro x hx hplace
  rcases mem_noted hget hx with rfl | ⟨hold, hp⟩
  · exact hne hplace
  · exact hp (congrArg Prod.fst (h.only x hold (.inr hplace)))

/-- What is found in a list is found in the rest of it, if it is not taken away. -/
theorem find?_filter_of {α : Type} {f g : α → Bool} {l : List α} {a : α} (h : l.find? f = some a)
    (hg : g a = true) : (l.filter g).find? f = some a := by
  obtain ⟨hf, before, behind, rfl, hnone⟩ := List.find?_eq_some_iff_append.mp h
  rw [List.find?_filter]
  refine List.find?_eq_some_iff_append.mpr ⟨?_, before, behind, rfl, fun x hx => ?_⟩
  · simp [hf, hg]
  · simp [(Bool.not_eq_true' _).mp (hnone x hx)]

/-- **Another entry**, with another name and another place, leaves a dentry and its place alone. -/
theorem Placed.noted_other (h : Placed d p j q) (hname : q' ≠ q) (hne : fpos ≠ j + 2) :
    Placed (d.noted mem fpos q') p j q := by
  cases hget : d.getDentry mem q' with
  | none =>
    rw [DirCache.noted, hget]
    exact h
  | some pc =>
    obtain ⟨p', c⟩ := pc
    have hmem := List.mem_of_find?_eq_some h.found
    have hp : p ≠ p' := by
      rintro rfl
      rcases getDentry_cases hget with hfound | ⟨hfree, -⟩
      · have hsame := h.only _ (List.mem_of_find?_eq_some hfound) (.inl rfl)
        have hq : c.hashed = true ∧ c.name = q' := by simpa using List.find?_some hfound
        exact hname (hq.2.symm.trans (congrArg (fun x => x.2.name) hsame))
      · exact hfree _ hmem rfl
    have hfillname : (c.fill mem fpos).name = q' := (fill_name c fpos).trans (getDentry_name hget).1
    constructor
    · rw [noted_of_get hget]
      refine find?_filter_of ?_ (by simp)
      rw [List.find?_cons_of_neg
        (by simp only [hfillname, hname, decide_false, Bool.and_false]; decide)]
      exact find?_filter_of h.found (by simpa using hp)
    · intro x hx hplace
      rcases mem_noted hget hx with rfl | ⟨hold, -⟩
      · -- the entry has another address, and another place
        exfalso
        rcases hplace with hsame | hsame
        · exact hp hsame.symm
        · rcases fill_fsdata c fpos with hnew | hkept
          · exact hne (hnew.symm.trans hsame)
          · have hplace' : c.fsdata = j + 2 := hkept.symm.trans hsame
            rcases getDentry_fsdata hget with hzero | hold
            · omega
            · exact hp (congrArg Prod.fst (h.only _ hold (.inr hplace'))).symm
      · exact h.only x hold hplace

end Noted

/-! ## One entry -/

/-- **There is memory** for the entry: a dentry, and a page if it is the first one of a page. -/
def HasRoom (mem : FillMemory) (d : DirCache ν) (i : ℕ) (q : ν) : Prop :=
  (d.getDentry mem q).isSome = true ∧ (OnNewPage i → mem.page = true)

/-- The pages are valid behind `n` entries: `f_pos` counts them, nothing has been lost, and the
control structure is at their slot. -/
structure Filled (n : ℕ) (t : Filling ν) : Prop where
  fpos : t.ctl.fpos = n + 2
  valid : t.ctl.valid = true
  slot : AtSlot n t
  begun : t.ctl.idx ≠ 0

/-- What an entry leaves in the slots and the dentries. -/
structure Entered (mem : FillMemory) (n : ℕ) (q : ν) (d d' : DirCache ν) : Prop where
  children : d'.children = (d.noted mem (n + 2) q).children
  slot : ∀ p c, d.getDentry mem q = some (p, c) → d'.slot n = some p
  kept : ∀ j < n, d'.slot j = d.slot j

variable {n : ℕ}

variable (garbage) in
/-- **An entry for which there is memory** gets its slot, and the pages are valid behind it. Whether
the slot leads to a dentry is left to `Placed`. -/
theorem Filled.record (h : Filled n t) (hroom : HasRoom mem t.dir n q) :
    ∃ t', t.record mem garbage q = (true, t') ∧ Filled (n + 1) t'.advance ∧
      Entered mem n q t.dir t'.dir := by
  obtain ⟨⟨p, c⟩, hget⟩ := Option.isSome_iff_exists.mp hroom.1
  let t₁ : Filling ν := { t with dir := t.dir.put p (c.fill mem t.ctl.fpos) }
  have hslot₁ : AtSlot n t₁ := ⟨h.slot.cache, h.slot.idx, h.slot.position, h.slot.page⟩
  obtain ⟨hslot₂, hlt, hkeep₂⟩ := hslot₁.turnPage garbage hroom.2
  have halike : t₁.Alike (t₁.turnPage mem garbage) := turnPage_alike t₁
  obtain ⟨dir, hstore, hchildren, hslot₃, hself, hkeep₃⟩ := hslot₂.store hlt p
  have hdentries : dir.children = t₁.dir.children := hchildren.trans halike.children
  refine ⟨{ t₁.turnPage mem garbage with dir := dir.dput p }, ?_, ⟨?_, ?_, ?_, Nat.succ_ne_zero _⟩,
    ⟨?_, fun p' c' hget' => ?_, fun j hj => ?_⟩⟩
  · rw [Filling.record, hget]
    dsimp only
    rw [hstore]
  · exact congrArg (· + 1) (halike.fpos.trans h.fpos)
  · exact halike.valid.trans h.valid
  · exact ⟨hslot₃.cache, hslot₃.idx, hslot₃.position, hslot₃.page⟩
  · rw [DirCache.noted, hget, ← h.fpos]
    exact congrArg (List.filter _) hdentries
  · obtain ⟨rfl, -⟩ := Prod.mk.inj (Option.some.inj (hget.symm.trans hget'))
    exact hself
  · exact (hkeep₃ j hj).trans (hkeep₂ j hj)

/-- An entry for which there is none. -/
theorem Filled.record_false (h : Filled n t) (hroom : ¬ HasRoom mem t.dir n q) :
    (t.record mem garbage q).1 = false := by
  rw [Filling.record]
  split
  · rfl
  · next p c hget =>
    obtain ⟨hnew, hpage⟩ : OnNewPage n ∧ mem.page = false := by
      rw [HasRoom, hget] at hroom
      simpa using hroom
    have hfull : SHFS_DIRCACHE_SIZE ≤ t.ctl.idx := h.slot.full_iff.mpr ⟨hnew, h.begun⟩
    simp [Filling.turnPage, Filling.store, hfull, hpage]

omit [DecidableEq ν] in
/-- Handing an entry on leaves the pages alone. -/
theorem offer_pages (t : Filling ν) (q : ν) : ∃ fPos buf filled,
    t.offer q = { t with fPos := fPos, buf := buf, ctl := { t.ctl with filled := filled } } := by
  rw [Filling.offer]
  split
  · split
    · exact ⟨_, _, _, rfl⟩
    · exact ⟨_, _, _, rfl⟩
  · exact ⟨_, _, _, rfl⟩

variable (garbage) in
/-- **Filling one entry** for which there is memory: more are wanted, the pages are valid behind one
entry more, and the entry is in them. -/
theorem Filled.fillCache {mem : ℕ → FillMemory} (h : Filled n t)
    (hroom : HasRoom (mem (n + 2)) t.dir n q) :
    ∃ t', fillCache garbage mem q t = (true, t') ∧ Filled (n + 1) t' ∧
      Entered (mem (n + 2)) n q t.dir t'.dir := by
  obtain ⟨t₁, hrec, hfilled, hentered⟩ := h.record garbage hroom
  obtain ⟨fPos, buf, filled, hoffer⟩ := offer_pages t₁ q
  obtain ⟨hfpos, hvalid, ⟨hcache, hidx, hposition, hpage⟩, hbegun⟩ := hfilled
  have hmore : t₁.ctl.valid = true := hvalid
  refine ⟨(t₁.offer q).advance, ?_, ?_, ?_⟩
  · simp [Shfs.fillCache, h.fpos, hrec, hoffer, Filling.advance, hmore]
  · rw [hoffer]
    exact ⟨hfpos, hvalid, ⟨hcache, hidx, hposition, hpage⟩, hbegun⟩
  · rw [hoffer]
    exact hentered

/-- Nothing makes the pages valid again. -/
theorem fillCache_valid (mem : ℕ → FillMemory) (t : Filling ν) (q : ν) :
    (fillCache garbage mem q t).2.ctl.valid =
      (t.ctl.valid && (t.record (mem t.ctl.fpos) garbage q).1) := by
  obtain ⟨-, -, -, -, hvalid⟩ := record_frame (mem t.ctl.fpos) garbage t q
  rw [fillCache]
  rcases hrec : t.record (mem t.ctl.fpos) garbage q with ⟨_ | _, t₁⟩
  · rw [Bool.and_false]
    exact (offer_ctl _ q).1
  · rw [Bool.and_true, ← hvalid, hrec]
    exact (offer_ctl _ q).1

/-! ## A listing -/

/-- There is memory for every entry from position `i` on: for its dentry, if it has none, and for
the page of its slot, if that is a new one. -/
def Remembers (mem : ℕ → FillMemory) : (i : ℕ) → DirCache ν → List ν → Prop
  | _, _, [] => True
  | i, d, q :: qs => HasRoom (mem (i + 2)) d i q ∧
      Remembers mem (i + 1) (d.noted (mem (i + 2)) (i + 2) q) qs

theorem getDentry_congr (hc : d'.children = d.children) (q : ν) :
    d'.getDentry mem q = d.getDentry mem q := by
  rw [DirCache.getDentry, DirCache.getDentry, hc]

/-- Only the dentries count. -/
theorem Remembers.congr {mem : ℕ → FillMemory} (hc : d'.children = d.children) {qs : List ν} :
    Remembers mem i d' qs ↔ Remembers mem i d qs := by
  induction qs generalizing i d d' with
  | nil => exact Iff.rfl
  | cons q qs ih =>
    have hnext : (d'.noted (mem (i + 2)) (i + 2) q).children =
        (d.noted (mem (i + 2)) (i + 2) q).children := by
      rw [DirCache.noted, DirCache.noted, getDentry_congr hc]
      split
      · exact hc
      · simp only [DirCache.put, DirCache.dput, hc]
    rw [Remembers, Remembers, ih hnext, HasRoom, HasRoom, getDentry_congr hc]

theorem feed_invalid (mem : ℕ → FillMemory) {rest : List ν} (h : t.ctl.valid = false) :
    (feed garbage mem rest t).ctl.valid = false := by
  induction rest generalizing t with
  | nil => exact h
  | cons q rest ih =>
    have hnext : (fillCache garbage mem q t).2.ctl.valid = false := by
      rw [fillCache_valid, h, Bool.false_and]
    rw [feed]
    rcases hfill : fillCache garbage mem q t with ⟨_ | _, t'⟩
    · rw [hfill] at hnext
      exact hnext
    · rw [hfill] at hnext
      exact ih hnext

theorem feed_cons_invalid {mem : ℕ → FillMemory} {rest : List ν}
    (h : (fillCache garbage mem q t).2.ctl.valid = false) :
    (feed garbage mem (q :: rest) t).ctl.valid = false := by
  rw [feed]
  rcases hfill : fillCache garbage mem q t with ⟨_ | _, t'⟩
  · rw [hfill] at h
    exact h
  · rw [hfill] at h
    exact feed_invalid mem h

variable (garbage) in
/-- **A whole listing**: the pages are valid behind it if and only if there has been memory for
every entry. -/
theorem feed_filled (mem : ℕ → FillMemory) (rest : List ν) (h : Filled n t) :
    ((feed garbage mem rest t).ctl.valid = true ↔ Remembers mem n t.dir rest) ∧
      ((feed garbage mem rest t).ctl.valid = true →
        Filled (n + rest.length) (feed garbage mem rest t)) := by
  induction rest generalizing t n with
  | nil =>
    rw [feed, Remembers]
    exact ⟨iff_of_true h.valid trivial, fun _ => h⟩
  | cons q rest ih =>
    by_cases hroom : HasRoom (mem (n + 2)) t.dir n q
    · obtain ⟨t', hfill, hfilled, hentered⟩ := h.fillCache garbage hroom
      have hrest := ih hfilled
      rw [Remembers.congr hentered.children] at hrest
      rw [feed, hfill, Remembers, and_iff_right hroom, List.length_cons, Nat.add_comm rest.length 1,
        ← Nat.add_assoc]
      exact hrest
    · have hinvalid : (fillCache garbage mem q t).2.ctl.valid = false := by
        rw [fillCache_valid, h.fpos, h.record_false hroom, Bool.and_false]
      rw [feed_cons_invalid hinvalid]
      exact ⟨iff_of_false Bool.false_ne_true fun hall => hroom hall.1,
        fun hvalid => Bool.noConfusion hvalid⟩

/-! ## What is recorded of it -/

/-- There is an inode for every entry from position `i` on. -/
def Inodes (mem : ℕ → FillMemory) : (i : ℕ) → DirCache ν → List ν → Prop
  | _, _, [] => True
  | i, d, q :: qs => HasInode (mem (i + 2)) d q ∧
      Inodes mem (i + 1) (d.noted (mem (i + 2)) (i + 2) q) qs

theorem noted_congr (hc : d'.children = d.children) (fpos : ℕ) (q : ν) :
    (d'.noted mem fpos q).children = (d.noted mem fpos q).children := by
  rw [DirCache.noted, DirCache.noted, getDentry_congr hc]
  split
  · exact hc
  · simp only [DirCache.put, DirCache.dput, hc]

theorem Inodes.congr {mem : ℕ → FillMemory} (hc : d'.children = d.children) {qs : List ν} :
    Inodes mem i d' qs ↔ Inodes mem i d qs := by
  induction qs generalizing i d d' with
  | nil => exact Iff.rfl
  | cons q qs ih =>
      rw [Inodes, Inodes, ih (noted_congr hc _ q), HasInode, HasInode, getDentry_congr hc]

theorem inodes_of_inode {mem : ℕ → FillMemory} (h : ∀ fpos, (mem fpos).inode = true) {qs : List ν} :
    Inodes mem i d qs := by
  induction qs generalizing i d with
  | nil => trivial
  | cons q qs ih => exact ⟨fun _ _ _ => Or.inr (h _), ih⟩

/-- Every entry has the place that its slot leads to, and no place is further on. -/
structure Slotted (qs : List ν) (d : DirCache ν) : Prop where
  below : ∀ x ∈ d.children, x.2.fsdata < qs.length + 2
  each : ∀ j q, qs[j]? = some q → ∃ p, d.slot j = some p ∧ Placed d p j q

theorem Entered.lost (h : Entered mem n q d d') {j : ℕ} (hlost : Lost (d.noted mem (n + 2) q) j) :
    Lost d' j := by
  unfold Lost at hlost ⊢
  rwa [h.children]

/-- **One entry more**: if it has an inode and a name of its own, its slot leads to its dentry, and
so do all the slots in front of it. -/
theorem Slotted.entered {qs : List ν} (h : Slotted qs d) (hentered : Entered mem qs.length q d d')
    (hroom : HasRoom mem d qs.length q) (hinode : HasInode mem d q) (hnew : q ∉ qs) :
    Slotted (qs ++ [q]) d' := by
  obtain ⟨⟨p, c⟩, hget⟩ := Option.isSome_iff_exists.mp hroom.1
  refine ⟨?_, fun j q' hq' => ?_⟩
  · rw [hentered.children, List.length_append]
    exact fsdata_noted_lt h.below
  · rcases Nat.lt_trichotomy j qs.length with hj | rfl | hj
    · rw [List.getElem?_append_left hj] at hq'
      obtain ⟨p', hp', hplaced⟩ := h.each j q' hq'
      have hname : q ≠ q' := by
        rintro rfl
        exact hnew (List.mem_of_getElem? hq')
      exact ⟨p', (hentered.kept j hj).trans hp',
        (hplaced.noted_other hname (by omega)).congr hentered.children⟩
    · rw [List.getElem?_concat_length] at hq'
      obtain rfl := Option.some.inj hq'
      exact ⟨p, hentered.slot p c hget,
        (Placed.noted_self h.below hget hinode).congr hentered.children⟩
    · rw [List.getElem?_eq_none (by rw [List.length_append]; exact hj)] at hq'
      cases hq'

/-- An entry without an inode has no place, and one whose name has come before takes the place of
the other. -/
theorem Slotted.loses {qs : List ν} (h : Slotted qs d) (hentered : Entered mem qs.length q d d')
    (hbad : ¬ HasInode mem d q ∨ q ∈ qs) : ∃ j ≤ qs.length, Lost d' j := by
  rcases hbad with hno | hold
  · exact ⟨qs.length, le_rfl, hentered.lost (lost_of_no_inode h.below hno)⟩
  · obtain ⟨j, hj⟩ := List.mem_iff_getElem?.mp hold
    obtain ⟨hlt, -⟩ := List.getElem?_eq_some_iff.mp hj
    obtain ⟨p, -, hplaced⟩ := h.each j q hj
    exact ⟨j, hlt.le, hentered.lost (hplaced.lost (by omega))⟩

theorem feed_lost {mem : ℕ → FillMemory} {rest : List ν} (h : Filled n t)
    (hroom : Remembers mem n t.dir rest) {j : ℕ} (hj : j < n) (hlost : Lost t.dir j) :
    Lost (feed garbage mem rest t).dir j := by
  induction rest generalizing t n with
  | nil => exact hlost
  | cons q rest ih =>
    obtain ⟨t', hfill, hfilled, hentered⟩ := h.fillCache garbage hroom.1
    rw [feed, hfill]
    exact ih hfilled ((Remembers.congr hentered.children).mpr hroom.2) (Nat.lt_succ_of_lt hj)
      (hentered.lost (hlost.noted (by omega)))

variable (garbage) in
/-- **A listing for which there is memory** is recorded if and only if there is an inode for every
entry, and no name comes twice. -/
theorem feed_recorded_iff (mem : ℕ → FillMemory) (qs rest : List ν)
    (h : Filled qs.length t) (hslotted : Slotted qs t.dir) (hnodup : qs.Nodup)
    (hroom : Remembers mem qs.length t.dir rest) :
    (∀ j q, (qs ++ rest)[j]? = some q → Recorded (feed garbage mem rest t).dir j q) ↔
      (qs ++ rest).Nodup ∧ Inodes mem qs.length t.dir rest := by
  induction rest generalizing t qs with
  | nil =>
    rw [List.append_nil, feed, Inodes]
    refine iff_of_true (fun j q hq => ?_) ⟨hnodup, trivial⟩
    obtain ⟨p, hslot, hplaced⟩ := hslotted.each j q hq
    exact hplaced.recorded hslot
  | cons q rest ih =>
    obtain ⟨t', hfill, hfilled, hentered⟩ := h.fillCache garbage hroom.1
    have hrest : Remembers mem (qs.length + 1) t'.dir rest :=
      (Remembers.congr hentered.children).mpr hroom.2
    rw [feed, hfill, Inodes]
    dsimp only
    by_cases hgood : HasInode (mem (qs.length + 2)) t.dir q ∧ q ∉ qs
    · obtain ⟨hinode, hnew⟩ := hgood
      have hlength : (qs ++ [q]).length = qs.length + 1 := List.length_append
      have hnext := ih (qs ++ [q]) (hlength ▸ hfilled)
        (hslotted.entered hentered hroom.1 hinode hnew) (List.nodup_append.mpr ?_) (hlength ▸ hrest)
      · rw [List.append_assoc, hlength, Inodes.congr hentered.children] at hnext
        rw [and_iff_right hinode]
        exact hnext
      · refine ⟨hnodup, List.nodup_singleton q, ?_⟩
        rintro a ha b hb rfl
        exact hnew (List.mem_singleton.mp hb ▸ ha)
    · -- some place is nobody's now, and stays so
      have hbad : ¬ HasInode (mem (qs.length + 2)) t.dir q ∨ q ∈ qs := by
        rw [Classical.not_and_iff_not_or_not, not_not] at hgood
        exact hgood
      obtain ⟨j, hj, hlost⟩ := hslotted.loses hentered hbad
      refine iff_of_false (fun hall => ?_) ?_
      · obtain ⟨q', hq'⟩ : ∃ q', (qs ++ q :: rest)[j]? = some q' :=
          ⟨_, List.getElem?_eq_getElem (by rw [List.length_append, List.length_cons]; omega)⟩
        exact (feed_lost hfilled hrest (Nat.lt_succ_of_le hj) hlost).not_recorded (hall j q' hq')
      · rintro ⟨hdistinct, hinodes, -⟩
        rcases hbad with hno | hold
        · exact hno hinodes
        · exact (List.nodup_append.mp hdistinct).2.2 q hold q (List.mem_cons_self ..) rfl

variable {L : List ν}

variable (garbage) in
/-- The dentries have their places, whatever the caller gets. -/
theorem fillCache_named (mem : ℕ → FillMemory) (h : Named L t.dir) (hfpos : t.ctl.fpos = i + 2)
    (hq : L[i]? = some q) :
    Named L (fillCache garbage mem q t).2.dir ∧ (fillCache garbage mem q t).2.ctl.fpos = i + 3 := by
  obtain ⟨-, -, hctl, -, -⟩ := record_frame (mem t.ctl.fpos) garbage t q
  have hnamed : Named L (t.record (mem t.ctl.fpos) garbage q).2.dir := record_named h hfpos hq
  rw [fillCache]
  rcases hrec : t.record (mem t.ctl.fpos) garbage q with ⟨valid, t₁⟩
  rw [hrec] at hctl hnamed
  have hnext : t₁.ctl.fpos + 1 = i + 3 := congrArg (· + 1) (hctl.trans hfpos)
  cases valid with
  | true =>
    obtain ⟨fPos, buf, filled, hoffer⟩ := offer_pages t₁ q
    dsimp only
    rw [if_pos rfl, hoffer]
    exact ⟨hnamed, hnext⟩
  | false =>
    obtain ⟨fPos, buf, filled, hoffer⟩ :=
      offer_pages { t₁ with ctl := { t₁.ctl with valid := false } } q
    dsimp only
    rw [if_neg Bool.false_ne_true, hoffer]
    exact ⟨hnamed, hnext⟩

theorem feed_named {mem : ℕ → FillMemory} {rest : List ν} (h : Named L t.dir)
    (hfpos : t.ctl.fpos = i + 2) (hrest : rest = L.drop i) :
    Named L (feed garbage mem rest t).dir := by
  induction rest generalizing t i with
  | nil => exact h
  | cons q rest ih =>
    have hq : L[i]? = some q := by rw [← List.head?_drop, ← hrest, List.head?_cons]
    have hnext : rest = L.drop (i + 1) := by rw [← List.tail_drop, ← hrest, List.tail_cons]
    obtain ⟨hnamed, hfpos'⟩ := fillCache_named garbage mem h hfpos hq
    rw [feed]
    rcases hfill : fillCache garbage mem q t with ⟨_ | _, t'⟩
    · rw [hfill] at hnamed
      exact hnamed
    · rw [hfill] at hnamed hfpos'
      exact ih hnamed hfpos' hnext

end Fill

/-! ## A reply -/

/-- Does the loop of `do_ls` end with this line? -/
def endsListing (s : Bytes) : Bool := s = [] || (lsResult (reply s)).isSome

/-- The reply ends with `REP_COMPLETE`. -/
def endsComplete : Except Errno Listing → Bool
  | .error _ => false
  | .ok l => (l.lines.find? endsListing).any fun s => s ≠ [] && reply s = REP_COMPLETE

section Reply

variable (fmask : UInt16) (clock : Clock)

/-- The names of the entries in front of the end of a reply. -/
def entriesOf : Except Errno Listing → List Bytes
  | .error _ => []
  | .ok l => (l.lines.takeWhile fun s => !endsListing s).filterMap fun s =>
      (lsEntry fmask clock (s ++ 0 :: l.residue s)).map Prod.fst

variable (garbage : ℕ → ℕ) (mem : ℕ → FillMemory)

/-- A turn of the loop of `do_ls`, for `shell_readdir`. -/
def fillEntry (residue : Bytes → Bytes) (t : Filling Bytes) (s : Bytes) : Filling Bytes × Bool :=
  match lsEntry fmask clock (s ++ 0 :: residue s) with
  | none => (t, true)
  | some (name, _) => (fillCache garbage mem name t).swap

/-- `shell_readdir`, where the command has got this answer. -/
def readListing (answer : Except Errno Listing) (t : Filling Bytes) :
    Except Errno Unit × Filling Bytes :=
  match answer with
  | .error e => (.error e, t)
  | .ok l => lsLoop (fillEntry fmask clock garbage mem l.residue) l.lost l.lines t

/-- **What is filled in** are the entries, whatever comes behind them. The end of the reply only
decides the result. -/
theorem readListing_snd (answer : Except Errno Listing) (t : Filling Bytes) :
    (readListing fmask clock garbage mem answer t).2 =
      feed garbage mem (entriesOf fmask clock answer) t := by
  cases answer with
  | error e => rfl
  | ok l =>
    obtain ⟨lines, residue, lost⟩ := l
    rw [readListing, entriesOf]
    dsimp only
    induction lines generalizing t with
    | nil => rfl
    | cons s lines ih =>
      rw [lsLoop, List.takeWhile_cons]
      by_cases hs : s = []
      · simp [hs, endsListing, feed]
      rw [if_neg hs]
      cases hresult : lsResult (reply s) with
      | some result => simp [endsListing, hresult, feed]
      | none =>
        have hgo : endsListing s = false := by simp [endsListing, hs, hresult]
        rw [hgo, Bool.not_false, if_pos rfl, List.filterMap_cons, fillEntry]
        cases lsEntry fmask clock (s ++ 0 :: residue s) with
        | none => exact ih t
        | some entry =>
          obtain ⟨name, fattr⟩ := entry
          dsimp only [Option.map_some]
          rw [feed]
          obtain ⟨⟨more, t'⟩, hfill⟩ : ∃ x, fillCache garbage mem name t = x := ⟨_, rfl⟩
          simp only [hfill, Prod.swap_prod_mk]
          cases more with
          | false => rfl
          | true => exact ih t'

end Reply

/-! ## A call -/

/-- Where a call gets its entries from: it is over before, or they are in the pages, or the server
is asked. -/
inductive Source : Type where
  | none
  | pages
  | server
  deriving DecidableEq

section Call

variable {ν : Type}

def ReaddirCall.source (c : ReaddirCall) (d : DirCache ν) (fPos : ℕ) : Source :=
  match dots fPos ⟨[], c.room, 0⟩ with
  | (false, _, _) => .none
  | (true, fPos, buf) =>
    match c.revalidated with
    | .error _ => .none
    | .ok () => if (c.cached d fPos buf).1 then .pages else .server

/-- The position at which a call starts, cut to an `unsigned int` for the dots. -/
def startOf (fPos : ℕ) : ℕ := if fPos % 2 ^ 32 < 2 then fPos % 2 ^ 32 else fPos

/-- What a call delivers is a piece of the listing, up to its end if the caller has room. -/
structure ListsFrom (L : List ν) (fPos : ℕ) (r : Readdir ν) : Prop where
  piece : r.buf.accepted = ((fullListing L).take r.fPos).drop (startOf fPos)
  whole : r.buf.Full ∨ L.length + 2 ≤ r.fPos

variable {c : ReaddirCall} {d : DirCache ν} {fPos : ℕ} {L : List ν}
  {read : Filling ν → Except Errno Unit × Filling ν}

variable (c d read fPos) in
/-- **What a call does**, by where it gets its entries from: the directory stays as it is, or the
call is answered from the pages, or it asks the server. -/
theorem run_cases :
    (c.source d fPos = .none ∧ (c.run d read fPos).dir = d) ∨
      (c.source d fPos = .pages ∧ ∃ pos₁ buf₁ pos₂ buf₂,
        dots fPos ⟨[], c.room, 0⟩ = (true, pos₁, buf₁) ∧
          c.cached d pos₁ buf₁ = (true, pos₂, buf₂) ∧
            c.run d read fPos = ⟨.ok (), d, pos₂, buf₂⟩) ∨
      (c.source d fPos = .server ∧ ∃ pos buf, c.run d read fPos = c.reread d read pos buf) := by
  rw [ReaddirCall.source]
  rcases hdots : dots fPos (⟨[], c.room, 0⟩ : Dirent ν) with ⟨_ | _, pos₁, buf₁⟩
  · exact .inl ⟨rfl, by simp only [ReaddirCall.run, hdots]⟩
  · cases hrev : c.revalidated with
    | error e => exact .inl ⟨rfl, by simp only [ReaddirCall.run, hdots, hrev]⟩
    | ok u =>
      rcases hcached : c.cached d pos₁ buf₁ with ⟨_ | _, pos₂, buf₂⟩
      · refine .inr (.inr ⟨?_, pos₂, buf₂, by simp only [ReaddirCall.run, hdots, hrev, hcached]⟩)
        simp only [hcached, Bool.false_eq_true, if_false]
      · refine .inr (.inl ⟨?_, pos₁, buf₁, pos₂, buf₂, rfl, hcached, by
          simp only [ReaddirCall.run, hdots, hrev, hcached]⟩)
        simp only [hcached, if_true]

/-- Behind the dots. Where the position is cut, they are those of a new caller. -/
theorem dots_start (L : List ν) {room pos : ℕ} {buf : Dirent ν}
    (h : dots fPos ⟨[], room, 0⟩ = (true, pos, buf)) : 2 ≤ pos ∧
      (Progress (fullListing L) (startOf fPos) room pos buf ∨
        L.length + 2 < pos ∧ pos = startOf fPos ∧ buf.accepted = []) := by
  by_cases hzero : fPos % 2 ^ 32 = 0
  · have hcut : dots 0 ⟨[], room, 0⟩ = (true, pos, buf) := by
      rw [dots, if_pos hzero] at h
      rw [dots, if_pos (Nat.zero_mod _)]
      split at h
      · cases h
      · exact h
    obtain ⟨hp, htwo, -⟩ := dots_progress (by decide) (Nat.zero_le (L.length + 2)) hcut
    rw [startOf, hzero, if_pos (by decide)]
    exact ⟨htwo rfl, Or.inl hp⟩
  by_cases hone : fPos % 2 ^ 32 = 1
  · have hcut : dots 1 ⟨[], room, 0⟩ = (true, pos, buf) := by
      rw [dots, if_neg hzero, if_pos hone] at h
      rw [dots, if_neg (by decide), if_pos (Nat.mod_eq_of_lt (by decide))]
      split at h
      · cases h
      · exact h
    have hle : 1 ≤ L.length + 2 := Nat.le_add_left ..
    obtain ⟨hp, htwo, -⟩ := dots_progress (by decide) hle hcut
    rw [startOf, hone, if_pos (by decide)]
    exact ⟨htwo rfl, Or.inl hp⟩
  · rw [dots, if_neg hzero, if_neg hone] at h
    obtain ⟨⟩ := h
    have hstart : startOf fPos = fPos := if_neg (by omega)
    have hmod := Nat.mod_le fPos (2 ^ 32)
    rw [hstart]
    refine ⟨by omega, ?_⟩
    rcases Nat.lt_or_ge (L.length + 2) fPos with hbehind | hle
    · exact Or.inr ⟨hbehind, rfl, rfl⟩
    · exact Or.inl (.begin (hle.trans_eq (length_fullListing L).symm))

theorem cached_true {pos pos' : ℕ} {buf buf' : Dirent ν}
    (h : c.cached d pos buf = (true, pos', buf')) : ∃ head, d.head = some head ∧ head.eof = true ∧
      (head.last < pos → pos' = pos ∧ buf' = buf) := by
  rw [ReaddirCall.cached] at h
  split at h
  · cases h
  next head hhead =>
  split at h
  · cases h
  next heof =>
  refine ⟨head, hhead, Bool.not_eq_false _ ▸ heof, fun hlt => ?_⟩
  split at h
  · cases h
  · obtain ⟨⟩ := h
    exact ⟨rfl, rfl⟩

/-- **From the pages**, what is delivered is a piece of the listing that they are from. -/
theorem listsFrom_of_pages (hd : Listed L d) {pos₁ pos₂ : ℕ} {buf₁ buf₂ : Dirent ν}
    (hdots : dots fPos ⟨[], c.room, 0⟩ = (true, pos₁, buf₁))
    (hcached : c.cached d pos₁ buf₁ = (true, pos₂, buf₂))
    (hrun : c.run d read fPos = ⟨.ok (), d, pos₂, buf₂⟩) :
    (∃ head, d.head = some head ∧ head.eof = true) ∧ ListsFrom L fPos (c.run d read fPos) := by
  obtain ⟨htwo, hstart⟩ := dots_start L hdots
  obtain ⟨head, hhead, heof, hbehind⟩ := cached_true hcached
  refine ⟨⟨head, hhead, heof⟩, ?_⟩
  rw [hrun]
  rcases hstart with hp | ⟨hend, hpos, hempty⟩
  · obtain ⟨hp₂, -, hend⟩ := cached_progress hd c hp htwo hcached
    exact ⟨hp₂.accepted, (hend rfl).imp_right fun h => h.ge⟩
  · have hlast := hd.counted head hhead heof
    obtain ⟨rfl, rfl⟩ := hbehind (by omega)
    refine ⟨?_, Or.inr hend.le⟩
    rw [hempty, hpos, List.drop_eq_nil_of_le (List.length_take_le ..)]

/-- **From the server**: the header is marked complete if and only if there has been memory for
every entry, and then every entry is recorded if and only if there has been an inode for it, too,
and no name has come twice. -/
theorem reread_complete [DecidableEq ν] {mem : ℕ → FillMemory} {names : List ν}
    (hread : ∀ t, (read t).2 = feed c.garbage mem names t) (fPos : ℕ) (buf : Dirent ν) :
    ∃ head, (c.reread d read fPos buf).dir.head = some head ∧
      (head.eof = true ↔ Remembers mem 0 d.invalidateEntries names) ∧
      Named names (c.reread d read fPos buf).dir ∧
      (head.eof = true → head.last = names.length + 1 ∧
        ((∀ j q, names[j]? = some q → Recorded (c.reread d read fPos buf).dir j q) ↔
          names.Nodup ∧ Inodes mem 0 d.invalidateEntries names)) := by
  let d' : DirCache ν := { d.invalidateEntries with
    pages := Function.update d.invalidateEntries.pages 0
      (some ((d.invalidateEntries.pages 0).getD c.garbage)) }
  let t : Filling ν := ⟨d', ⟨2, 0, SHFS_DIRCACHE_START, true, false, true⟩, fPos, buf⟩
  have hstart : Filled 0 t := by
    have hidx : SHFS_DIRCACHE_START ≤ SHFS_DIRCACHE_SIZE := by decide
    refine ⟨rfl, rfl, ⟨rfl, hidx, rfl, ?_⟩, Nat.succ_ne_zero 2⟩
    simp only [t, d', Function.update_self, Option.isSome_some]
  have hslotted : Slotted [] t.dir := by
    refine ⟨fun x hx => ?_, fun j q hq => by cases hq⟩
    obtain ⟨y, -, rfl⟩ := List.mem_map.mp hx
    exact Nat.zero_lt_succ 1
  have hnamed : Named names (feed c.garbage mem names t).dir :=
    feed_named ((Named.invalidate names d).congr rfl) rfl rfl
  obtain ⟨hvalid, hfilled⟩ := feed_filled c.garbage mem names hstart
  have hrecorded := feed_recorded_iff c.garbage mem [] names hstart hslotted List.nodup_nil
  rw [← hread t] at hvalid hfilled hnamed hrecorded
  have hdentries : t.dir.children = d.invalidateEntries.children := rfl
  refine ⟨⟨(read t).2.ctl.fpos - 1, (read t).2.ctl.valid⟩, rfl,
    hvalid.trans (Remembers.congr hdentries), hnamed.congr rfl, fun heof => ⟨?_, ?_⟩⟩
  · have hfpos : (read t).2.ctl.fpos = 0 + names.length + 2 := (hfilled heof).fpos
    dsimp only
    omega
  · exact (hrecorded (hvalid.mp heof)).trans (and_congr_right' (Inodes.congr hdentries))

end Call

/-! ## A run of calls -/

/-- What a directory in memory goes through between two calls. -/
structure Between : Type where
  after : DirCache Bytes → DirCache Bytes
  dropped : ∀ d, Dropped d (after d)

/-- A call, with the memory that there is for each position, the mask and the clock of the mount,
and the answer of the server. -/
structure ReaddirStep : Type extends ReaddirCall where
  fPos : ℕ
  mem : ℕ → FillMemory
  fmask : UInt16
  clock : Clock
  answer : Except Errno Listing

namespace ReaddirStep

variable (a : ReaddirStep) (d : DirCache Bytes)

def source : Source := a.toReaddirCall.source d a.fPos

def entries : List Bytes := entriesOf a.fmask a.clock a.answer

def leaves : Readdir Bytes :=
  a.toReaddirCall.run d (readListing a.fmask a.clock a.garbage a.mem a.answer) a.fPos

end ReaddirStep

inductive DirStep : Type where
  | between (b : Between)
  | readdir (a : ReaddirStep)

/-- A directory in memory, with the entries of the reply that its listing is from, and whether the
reply was a whole one. The last two are a record for the statements; nothing that the code does
depends on them. -/
structure DirState : Type where
  dir : DirCache Bytes
  entries : List Bytes
  /-- The reply was ended with `REP_COMPLETE`. -/
  complete : Bool

namespace DirState

def step (s : DirState) : DirStep → DirState
  | .between b => { s with dir := b.after s.dir }
  | .readdir a =>
    if a.source s.dir = .server then ⟨(a.leaves s.dir).dir, a.entries, endsComplete a.answer⟩
    else { s with dir := (a.leaves s.dir).dir }

/-- **A header that is marked complete is complete**: behind a call that has asked the server, the
reply is, and has every entry in the pages; and what comes from the pages is all of a reply that
was. -/
def LeavesRight (s : DirState) : DirStep → Prop
  | .between _ => True
  | .readdir a =>
    (a.source s.dir = .server → ∀ head, (a.leaves s.dir).dir.head = some head → head.eof = true →
      endsComplete a.answer = true ∧ head.last = a.entries.length + 1 ∧
        ∀ j q, a.entries[j]? = some q → Recorded (a.leaves s.dir).dir j q) ∧
    (a.source s.dir = .pages → s.complete = true ∧ ListsFrom s.entries a.fPos (a.leaves s.dir))

/-- If the server is asked, and there is memory for a dentry and a page of every entry of the reply,
then the reply is complete, names every entry once, and there is an inode for each of them. -/
def Safe (s : DirState) : DirStep → Prop
  | .between _ => True
  | .readdir a => a.source s.dir = .server → Remembers a.mem 0 s.dir.invalidateEntries a.entries →
      endsComplete a.answer = true ∧ a.entries.Nodup ∧
        Inodes a.mem 0 s.dir.invalidateEntries a.entries

/-- The invariant of a run: the pages have the entries of a complete reply, all of them and in their
order, if they are marked so. -/
structure Kept (s : DirState) : Prop where
  named : Named s.entries s.dir
  complete : ∀ head, s.dir.head = some head → head.eof = true →
    s.complete = true ∧ head.last = s.entries.length + 1

variable {s : DirState}

theorem Kept.listed (h : s.Kept) : Listed s.entries s.dir :=
  ⟨h.named, fun head hhead heof => (h.complete head hhead heof).2⟩

theorem Kept.between (h : s.Kept) (b : Between) : (s.step (.between b)).Kept := by
  obtain ⟨hnamed, hcounted⟩ := h.listed.drop (b.dropped s.dir)
  refine ⟨hnamed, fun head hhead heof => ⟨?_, hcounted head hhead heof⟩⟩
  rcases (b.dropped s.dir).head with hsame | hnone
  · exact (h.complete head (hsame ▸ hhead) heof).1
  · rw [step, hnone] at hhead
    cases hhead

/-- The server is asked. -/
theorem Kept.server {a : ReaddirStep} (h : a.source s.dir = .server) {pos : ℕ} {buf : Dirent Bytes}
    (hrun : a.leaves s.dir =
      a.reread s.dir (readListing a.fmask a.clock a.garbage a.mem a.answer) pos buf) :
    (s.LeavesRight (.readdir a) ↔ s.Safe (.readdir a)) ∧
      (s.Safe (.readdir a) → (s.step (.readdir a)).Kept) := by
  obtain ⟨head, hhead, heof, hnamed, hall⟩ := reread_complete (c := a.toReaddirCall) (d := s.dir)
    (readListing_snd a.fmask a.clock a.garbage a.mem a.answer) pos buf
  rw [← hrun] at hhead hnamed hall
  have hsafe : s.Safe (.readdir a) ↔ (head.eof = true → endsComplete a.answer = true ∧
      a.entries.Nodup ∧ Inodes a.mem 0 s.dir.invalidateEntries a.entries) := by
    rw [heof]
    exact ⟨fun hs => hs h, fun hs _ => hs⟩
  rw [hsafe, step, if_pos h]
  constructor
  · constructor
    · intro hleaves hmarked
      obtain ⟨hends, -, hrecorded⟩ := hleaves.1 h head hhead hmarked
      exact ⟨hends, (hall hmarked).2.mp hrecorded⟩
    · intro hends
      refine ⟨fun _ head' hhead' hmarked => ?_, fun hpages => by rw [h] at hpages; cases hpages⟩
      obtain rfl : head = head' := Option.some.inj (hhead.symm.trans hhead')
      obtain ⟨hcomplete, hinodes⟩ := hends hmarked
      exact ⟨hcomplete, (hall hmarked).1, (hall hmarked).2.mpr hinodes⟩
  · refine fun hends => ⟨hnamed, fun head' hhead' hmarked => ?_⟩
    obtain rfl : head = head' := Option.some.inj (hhead.symm.trans hhead')
    exact ⟨(hends hmarked).1, (hall hmarked).1⟩

/-- **A call**: it leaves the header right if and only if it is safe, and then the pages are right
for the next one. -/
theorem Kept.readdir (h : s.Kept) (a : ReaddirStep) :
    (s.LeavesRight (.readdir a) ↔ s.Safe (.readdir a)) ∧
      (s.Safe (.readdir a) → (s.step (.readdir a)).Kept) := by
  let read := readListing a.fmask a.clock a.garbage a.mem a.answer
  obtain ⟨hsource, hdir⟩ | ⟨hsource, pos₁, buf₁, pos₂, buf₂, hdots, hcached, hrun⟩ |
      ⟨hsource, pos, buf, hrun⟩ := run_cases a.toReaddirCall s.dir a.fPos read
  · -- over before
    change a.source s.dir = .none at hsource
    change (a.leaves s.dir).dir = s.dir at hdir
    have hserver : a.source s.dir ≠ .server := by rw [hsource]; decide
    have hpages : a.source s.dir ≠ .pages := by rw [hsource]; decide
    rw [LeavesRight, Safe, step, if_neg hserver, hdir]
    exact ⟨iff_of_true ⟨fun hs => absurd hs hserver, fun hp => absurd hp hpages⟩
      (fun hs => absurd hs hserver), fun _ => h⟩
  · -- from the pages
    change a.source s.dir = .pages at hsource
    have hdir : (a.leaves s.dir).dir = s.dir := congrArg Readdir.dir hrun
    obtain ⟨⟨head, hhead, heof⟩, hlists⟩ := listsFrom_of_pages h.listed hdots hcached hrun
    have hcomplete := (h.complete head hhead heof).1
    have hserver : a.source s.dir ≠ .server := by rw [hsource]; decide
    rw [LeavesRight, Safe, step, if_neg hserver, hdir]
    exact ⟨iff_of_true ⟨fun hs => absurd hs hserver, fun _ => ⟨hcomplete, hlists⟩⟩
      (fun hs => absurd hs hserver), fun _ => h⟩
  · -- from the server
    exact Kept.server hsource hrun

end DirState

open DirState

/-- **In every run**, the header is left right by every call exactly if every call is safe: if the
server is asked, and there is a dentry and a page for every entry, the reply is complete and every
entry has an inode and a name of its own. Between the calls, pages and dentries may be dropped. -/
theorem leavesRight_iff {s : DirState} (hs : Unread s.dir) (as : List DirStep) :
    Along step LeavesRight s as ↔ Along step Safe s as := by
  have hkept : s.Kept := by
    refine ⟨(hs.listed s.entries).named, fun head hhead => ?_⟩
    rw [hs.1] at hhead
    cases hhead
  constructor
  · refine Along.of_guarded DirState.Kept (fun s a hk hright => ?_) hkept
    cases a with
    | between b => exact ⟨trivial, hk.between b⟩
    | readdir a =>
      obtain ⟨hiff, hstep⟩ := hk.readdir a
      exact ⟨hiff.mp hright, hstep (hiff.mp hright)⟩
  · refine Along.of_guarded DirState.Kept (fun s a hk hsafe => ?_) hkept
    cases a with
    | between b => exact ⟨trivial, hk.between b⟩
    | readdir a =>
      obtain ⟨hiff, hstep⟩ := hk.readdir a
      exact ⟨hiff.mpr hsafe, hstep hsafe⟩

/-- A directory of which nothing has been read. -/
def untouched : DirState := ⟨⟨[], none, fun _ => none⟩, [], false⟩

/-- A call from the beginning, with memory for everything. -/
def fromStart (lines : List Bytes) : ReaddirStep where
  room := 8
  revalidated := .ok ()
  expired := false
  garbage _ := 0
  fPos := 0
  mem fpos := ⟨some fpos, true, true⟩
  fmask := 0
  clock := stillClock
  answer := .ok ⟨lines, fun _ => [], .eio⟩

theorem leavesRight_iff_file :
    Along step LeavesRight untouched
      [.readdir (fromStart
        [ascii "total 4", ascii "-rw-r--r-- 1 0 0 3 Jan 1 2003 a", ascii "### 200"]),
          .readdir (fromStart [])] :=
  (leavesRight_iff ⟨rfl, fun x hx => absurd hx List.not_mem_nil⟩ _).mpr
    ⟨fun _ _ => ⟨by decide, by decide, inodes_of_inode fun _ => rfl⟩, fun h =>
      absurd h (by decide), trivial⟩

/-- The server refuses the listing. The next call finds the directory empty. -/
theorem not_leavesRight_refused :
    ((fromStart [ascii "### 501"]).leaves untouched.dir).result = .error .eperm ∧
      ((fromStart []).leaves (untouched.step (.readdir (fromStart [ascii "### 501"]))).dir).result =
        .ok () ∧
      ((fromStart []).leaves
        (untouched.step (.readdir (fromStart [ascii "### 501"]))).dir).buf.accepted =
        [.dot, .dotdot] ∧
      ¬ Along step LeavesRight untouched
        [.readdir (fromStart [ascii "### 501"]), .readdir (fromStart [])] := by
  refine ⟨rfl, rfl, rfl, fun h => ?_⟩
  have hends := (h.1.1 (by decide) ⟨1, true⟩ rfl rfl).1
  revert hends
  decide

end Shfs
