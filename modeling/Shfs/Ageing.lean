import Mathlib.Logic.Function.Basic
import Shfs.Lib.Run
import Shfs.Lib.Ticks
import Shfs.Options

/-!
# The ages of dentries and directory pages

A dentry has the tick at which it was last known to be right, and so has the page in which
`shfs_readdir` keeps the listing of a directory. An entry is stale when more than `SHFS_MAX_AGE`
ticks have gone by since then; to make it stale at once, the tick is dated back by just that much.
The tests differ: `shfs_d_revalidate` still takes an age of `SHFS_MAX_AGE` for fresh, `shfs_readdir`
does not.

`Ages` has the counter and all the ticks, `Event` is what can happen to them, and `history` says of
an entry what was done to it last, and how many ticks ago. `agesRight_iff` says when the tests judge
by that history: always, unless the product in `SHFS_MAX_AGE` overflows, and but for a dentry in the
tick in which it is aged.
-/

namespace Shfs

open Lib

/-- `((info)->ttl * HZ) / 1000`, an `int` -/
def SHFS_MAX_AGE (hz : ℕ) (info : SbInfo) : Int32 := info.ttl.toInt32 * .ofNat hz / 1000

/-- The same, where it is compared with an `unsigned long` or subtracted from one. -/
def maxAge (w hz : ℕ) (info : SbInfo) : BitVec w := .ofInt w (SHFS_MAX_AGE hz info).toInt

/-! ## The stamps -/

/-- What has an age: a dentry, or the listing of a directory. -/
inductive Entry (ι : Type) : Type where
  | dentry (d : ι)
  | listing (dir : ι)
  deriving DecidableEq

/-- The counter, and the ticks of all entries. -/
structure Ages (ι : Type) (w : ℕ) : Type where
  jiffies : BitVec w
  dTime : ι → BitVec w
  /-- `head.time`, where page 0 of the directory is up to date -/
  headTime : ι → Option (BitVec w)

namespace Ages

variable {ι : Type} [DecidableEq ι] {w : ℕ} (max : BitVec w) (s : Ages ι w)

/-- `shfs_new_dentry` -/
def newDentry (d : ι) : Ages ι w := { s with dTime := Function.update s.dTime d s.jiffies }

/-- `shfs_age_dentry` -/
def ageDentry (d : ι) : Ages ι w :=
  { s with dTime := Function.update s.dTime d (s.jiffies - max) }

/-- `shfs_renew_times`, of a dentry and the ones above it, up to the root. -/
def renewTimes (s : Ages ι w) : List ι → Ages ι w
  | [] => s
  | d :: above => renewTimes { s with dTime := Function.update s.dTime d s.jiffies } above

/-- `shfs_invalid_dir_cache` -/
def invalidDirCache (dir : ι) : Ages ι w :=
  match s.headTime dir with
  | none => s
  | some _ => { s with headTime := Function.update s.headTime dir (some (s.jiffies - max)) }

/-- `shfs_invalidate_dircache_entries`, of the dentries in `d_subdirs`. -/
def invalidateDircacheEntries (s : Ages ι w) : List ι → Ages ι w
  | [] => s
  | d :: next => invalidateDircacheEntries (s.ageDentry max d) next

/-- `shfs_readdir`, where it reads the listing anew. -/
def readdir (subdirs : List ι) (dir : ι) : Ages ι w :=
  let s := s.invalidateDircacheEntries max subdirs
  { s with headTime := Function.update s.headTime dir (some s.jiffies) }

/-- The tests: that of `shfs_d_revalidate`, and that of `shfs_readdir`, which reads the listing anew
when there is no page as well. -/
def fresh : Entry ι → Bool
  | .dentry d => s.jiffies - s.dTime d ≤ max
  | .listing dir =>
    match s.headTime dir with
    | some time => !(s.jiffies - time ≥ max)
    | none => false

/-- The stamp of an entry. -/
def time : Entry ι → Option (BitVec w)
  | .dentry d => some (s.dTime d)
  | .listing dir => s.headTime dir

end Ages

/-! ## Runs -/

/-- What can happen to the ages. -/
inductive Event (ι : Type) : Type where
  | tick
  | newDentry (d : ι)
  | ageDentry (d : ι)
  | renewTimes (up : List ι)
  | invalidDirCache (dir : ι)
  | readdir (subdirs : List ι) (dir : ι)
  /-- the kernel drops the page -/
  | evict (dir : ι)

section Runs

variable {ι : Type} [DecidableEq ι] {w : ℕ} (max : BitVec w)

/-- One event. -/
def Ages.step (s : Ages ι w) : Event ι → Ages ι w
  | .tick => { s with jiffies := s.jiffies + 1 }
  | .newDentry d => s.newDentry d
  | .ageDentry d => s.ageDentry max d
  | .renewTimes up => s.renewTimes up
  | .invalidDirCache dir => s.invalidDirCache max dir
  | .readdir subdirs dir => s.readdir max subdirs dir
  | .evict dir => { s with headTime := Function.update s.headTime dir none }

/-- The entries that an event is to make fresh, and those that it is to make stale. -/
def Event.renews : Event ι → List (Entry ι)
  | newDentry d => [.dentry d]
  | renewTimes up => up.map .dentry
  | readdir _ dir => [.listing dir]
  | _ => []

def Event.ages : Event ι → List (Entry ι)
  | ageDentry d => [.dentry d]
  | invalidDirCache dir => [.listing dir]
  | readdir subdirs _ => subdirs.map .dentry
  | _ => []

/-- What was done to an entry last. -/
inductive Mark : Type where
  | renewed
  | aged
  deriving DecidableEq

/-- The mark of an entry, and the ticks since it was made, behind an event that makes no mark. -/
def Event.passes (e : Entry ι) (m : Option (Mark × ℕ)) : Event ι → Option (Mark × ℕ)
  | tick => m.map fun m => (m.1, m.2 + 1)
  | evict dir => if e = .listing dir then none else m
  | _ => m

/-- The same behind one more event. -/
def note (e : Entry ι) (m : Option (Mark × ℕ)) (ev : Event ι) : Option (Mark × ℕ) :=
  if e ∈ ev.renews then some (.renewed, 0)
  else if e ∈ ev.ages then some (.aged, 0)
  else ev.passes e m

/-- The mark of an entry behind a run. -/
def history (events : List (Event ι)) (e : Entry ι) : Option (Mark × ℕ) :=
  run (note e) none events

/-! ## The step -/

namespace Ages

variable {max} {s : Ages ι w}

/-- The dentries on the way up are all renewed, and nothing else is. -/
theorem renewTimes_eq (s : Ages ι w) (up : List ι) :
    s.renewTimes up = { s with dTime := fun d => if d ∈ up then s.jiffies else s.dTime d } := by
  induction up generalizing s with
  | nil => simp [renewTimes]
  | cons d above ih =>
    rw [renewTimes, ih]
    simp only [Ages.mk.injEq, true_and, and_true]
    funext d'
    simp only [Function.update_apply, List.mem_cons]
    split <;> split <;> simp_all

/-- The children are all aged, and nothing else is. -/
theorem invalidateDircacheEntries_eq (s : Ages ι w) (subdirs : List ι) :
    s.invalidateDircacheEntries max subdirs =
      { s with dTime := fun d => if d ∈ subdirs then s.jiffies - max else s.dTime d } := by
  induction subdirs generalizing s with
  | nil => simp [invalidateDircacheEntries]
  | cons d next ih =>
    rw [invalidateDircacheEntries, ih]
    simp only [ageDentry, Ages.mk.injEq, true_and, and_true]
    funext d'
    simp only [Function.update_apply, List.mem_cons]
    split <;> split <;> simp_all

omit [DecidableEq ι] in
theorem mem_map_dentry {ds : List ι} {d : ι} : Entry.dentry d ∈ ds.map .dentry ↔ d ∈ ds := by
  simp

variable (max) in
/-- **What an event does to the stamp of an entry**: it renews the stamp, sets it to the age from
which on an entry is stale, or leaves it alone; and a page that is dropped takes its stamp with it.
-/
theorem time_step (s : Ages ι w) (ev : Event ι) (e : Entry ι) :
    (s.step max ev).time e =
      if e ∈ ev.renews then some s.jiffies
      else if e ∈ ev.ages then (s.time e).map fun _ => s.jiffies - max
      else
        match ev with
        | .evict dir => if e = .listing dir then none else s.time e
        | _ => s.time e := by
  -- each event writes the time of one kind of entry, at one place or along a list, and leaves the
  -- other kind alone
  cases ev with
  | tick => cases e <;> rfl
  | newDentry d =>
    cases e with
    | dentry d' =>
      simp only [step, newDentry, time, Event.renews, Event.ages, Function.update_apply,
        List.mem_singleton, Entry.dentry.injEq, List.not_mem_nil, if_false]
      exact apply_ite some ..
    | listing dir' => simp [step, newDentry, time, Event.renews, Event.ages]
  | ageDentry d =>
    cases e with
    | dentry d' =>
      simp only [step, ageDentry, time, Event.renews, Event.ages, Function.update_apply,
        List.mem_singleton, Entry.dentry.injEq, List.not_mem_nil, if_false, Option.map_some]
      exact apply_ite some ..
    | listing dir' => simp [step, ageDentry, time, Event.renews, Event.ages]
  | renewTimes up =>
    cases e with
    | dentry d' =>
      simp only [step, renewTimes_eq, time, Event.renews, Event.ages, mem_map_dentry,
        List.not_mem_nil, if_false]
      exact apply_ite some ..
    | listing dir' => simp [step, renewTimes_eq, time, Event.renews, Event.ages]
  | invalidDirCache dir =>
    cases e with
    | dentry d' =>
      simp only [step, invalidDirCache, Event.renews, Event.ages, List.mem_singleton, reduceCtorEq,
        List.not_mem_nil, if_false]
      split <;> rfl
    | listing dir' =>
      simp only [step, invalidDirCache, Event.renews, Event.ages, List.mem_singleton,
        Entry.listing.injEq, List.not_mem_nil, if_false]
      by_cases hdir : dir' = dir
      · subst hdir
        rw [if_pos rfl]
        cases hpage : s.headTime dir' with
        | none => simp only [time, hpage, Option.map_none]
        | some t => simp only [time, hpage, Function.update_self, Option.map_some]
      · rw [if_neg hdir]
        split
        · rfl
        · exact Function.update_of_ne hdir ..
  | readdir subdirs dir =>
    cases e with
    | dentry d' =>
      simp only [step, readdir, invalidateDircacheEntries_eq, time, Event.renews, Event.ages,
        mem_map_dentry, List.mem_singleton, reduceCtorEq, if_false, Option.map_some]
      exact apply_ite some ..
    | listing dir' =>
      simp [step, readdir, invalidateDircacheEntries_eq, time, Event.renews, Event.ages,
        Function.update_apply]
  | evict dir =>
    cases e with
    | dentry d' => simp [step, time, Event.renews, Event.ages]
    | listing dir' => simp [step, time, Event.renews, Event.ages, Function.update_apply]

variable (max) in
/-- The counter. -/
theorem jiffies_step (s : Ages ι w) (ev : Event ι) :
    (s.step max ev).jiffies =
      match ev with
      | .tick => s.jiffies + 1
      | _ => s.jiffies := by
  cases ev with
  | renewTimes up => rw [step, renewTimes_eq]
  | invalidDirCache dir =>
    rw [step, invalidDirCache]
    split <;> rfl
  | readdir subdirs dir => rw [step, readdir, invalidateDircacheEntries_eq]
  | tick | newDentry d | ageDentry d | evict dir => rfl

variable (max s) in
theorem jiffies_of_marked {ev : Event ι} {e : Entry ι} (h : e ∈ ev.renews ∨ e ∈ ev.ages) :
    (s.step max ev).jiffies = s.jiffies := by
  rw [jiffies_step]
  cases ev with
  | tick => rcases h with h | h <;> cases h
  | newDentry d | ageDentry d | renewTimes up | invalidDirCache dir | readdir subdirs dir
  | evict dir => rfl

end Ages

/-! ## The history of an entry -/

/-- The stamp of an entry is that of its history; the page of an aged listing may be gone. -/
def Tracks (max : BitVec w) (s : Ages ι w) (e : Entry ι) : Option (Mark × ℕ) → Prop
  | none => True
  | some (.renewed, n) => ∃ t, s.time e = some t ∧ Since s.jiffies t n
  | some (.aged, n) => ∀ t, s.time e = some t → Since s.jiffies t (max.toNat + n)

variable {max}

omit [DecidableEq ι] in
/-- An event that leaves the entry and the counter alone. -/
theorem Tracks.congr {s s' : Ages ι w} {e : Entry ι} {m : Option (Mark × ℕ)} (h : Tracks max s e m)
    (hj : s'.jiffies = s.jiffies) (ht : s'.time e = s.time e) : Tracks max s' e m := by
  rcases m with _ | ⟨_ | _, n⟩
  · trivial
  · simp only [Tracks, hj, ht]
    exact h
  · simp only [Tracks, hj, ht]
    exact h

/-- **The stamps follow the history**, event by event: whatever happens, the mark of an entry says
how its stamp was set and how long ago. -/
theorem Tracks.step {s : Ages ι w} {e : Entry ι} {m : Option (Mark × ℕ)} (h : Tracks max s e m)
    (ev : Event ι) : Tracks max (s.step max ev) e (note e m ev) := by
  have htime := Ages.time_step max s ev e
  by_cases hr : e ∈ ev.renews
  · have hj := Ages.jiffies_of_marked max s (Or.inl hr)
    rw [if_pos hr] at htime
    rw [note, if_pos hr]
    exact ⟨s.jiffies, htime, hj ▸ since_now _⟩
  rw [if_neg hr] at htime
  rw [note, if_neg hr]
  by_cases ha : e ∈ ev.ages
  · have hj := Ages.jiffies_of_marked max s (Or.inr ha)
    rw [if_pos ha] at htime ⊢
    intro t ht
    rw [htime] at ht
    obtain ⟨_, _, rfl⟩ := Option.map_eq_some_iff.mp ht
    rw [hj]
    exact (since_now _).back max
  rw [if_neg ha] at htime ⊢
  have hj := Ages.jiffies_step max s ev
  cases ev with
  | tick =>
    rcases m with _ | ⟨_ | _, n⟩
    · trivial
    · obtain ⟨t, ht, hs⟩ := h
      refine ⟨t, htime.trans ht, ?_⟩
      rw [hj]
      exact hs.tick
    · intro t ht
      rw [hj]
      exact (h t (htime.symm.trans ht)).tick
  | evict dir =>
    rw [Event.passes]
    dsimp only at htime
    split at htime
    · next he =>
      rw [if_pos he]
      trivial
    · next he =>
      rw [if_neg he]
      exact h.congr hj htime
  | newDentry d | ageDentry d | renewTimes up | invalidDirCache dir | readdir subdirs dir =>
    exact h.congr hj htime

variable (max) in
/-- **Behind every run**, the stamps are those of the history. The counter may have wrapped any
number of times on the way, since only differences are compared. -/
theorem tracks_run (s : Ages ι w) (events : List (Event ι)) (e : Entry ι) :
    Tracks max (run (Ages.step max) s events) e (history events e) := by
  have hrun : ∀ m, Tracks max s e m →
      Tracks max (run (Ages.step max) s events) e (run (note e) m events) := by
    induction events generalizing s with
    | nil => exact fun m h => h
    | cons ev events ih => exact fun m h => ih _ _ (h.step ev)
  exact hrun none trivial

omit [DecidableEq ι] in
/-- What the tests say of a renewed entry. -/
theorem fresh_renewed {s : Ages ι w} {e : Entry ι} {n : ℕ}
    (h : Tracks max s e (some (.renewed, n))) (hn : n < 2 ^ w) :
    (n < max.toNat → s.fresh max e = true) ∧ (max.toNat < n → s.fresh max e = false) := by
  obtain ⟨t, ht, hs⟩ := h
  cases e with
  | dentry d =>
    obtain rfl := Option.some.inj ht
    simp only [Ages.fresh, hs.age_le hn, decide_eq_true_eq, decide_eq_false_iff_not, Nat.not_le]
    exact ⟨Nat.le_of_lt, id⟩
  | listing dir =>
    simp only [Ages.time] at ht
    simp only [Ages.fresh, ht, ge_iff_le, hs.le_age hn, Bool.not_eq_true', Bool.not_eq_false',
      decide_eq_true_eq, decide_eq_false_iff_not, Nat.not_le]
    exact ⟨id, Nat.le_of_lt⟩

omit [DecidableEq ι] in
/-- **What the tests say of an aged entry**: a dentry is still fresh in the same tick. -/
theorem fresh_aged {s : Ages ι w} {e : Entry ι} {n : ℕ} (h : Tracks max s e (some (.aged, n)))
    (hn : max.toNat + n < 2 ^ w) :
    s.fresh max e = true ↔ n = 0 ∧ ∃ d, e = .dentry d := by
  cases e with
  | dentry d =>
    have hs := h (s.dTime d) rfl
    simp only [Ages.fresh, hs.age_le hn, decide_eq_true_eq]
    constructor
    · intro hle
      exact ⟨by omega, d, rfl⟩
    · rintro ⟨rfl, -⟩
      exact Nat.le_refl _
  | listing dir =>
    have hstale : s.fresh max (.listing dir) = false := by
      rw [Ages.fresh]
      cases hpage : s.headTime dir with
      | none => rfl
      | some t => simp [(h t hpage).le_age hn]
    rw [hstale]
    refine iff_of_false Bool.false_ne_true ?_
    rintro ⟨-, d, hd⟩
    cases hd

end Runs

/-! ## The maximal age -/

/-- The product, with its overflow, and the quotient. -/
theorem toInt_SHFS_MAX_AGE (hz : ℕ) (arg rest : Bytes) (info : SbInfo) :
    (SHFS_MAX_AGE hz (Clause.ttl.run arg rest info)).toInt =
      (Int.bmod (decVal arg * 1000 * hz : ℕ) (2 ^ 32)).tdiv 1000 := by
  have hprod : (UInt32.ofNat (decVal arg) * 1000).toInt32 * .ofNat hz =
      Int32.ofNat (decVal arg * 1000 * hz) := by
    rw [Int32.ofNat_mul, Int32.ofNat_mul]
    rfl
  rw [SHFS_MAX_AGE, Clause.run, hprod, Int32.toInt_div_of_ne_right _ _ (by decide),
    Int32.toInt_ofNat']
  rfl

/-- **The age is right** as long as the product is an `int`: `SHFS_MAX_AGE` is the time to live in
ticks, and otherwise what is left of it in 32 bits. -/
theorem maxAge_iff (hz : ℕ) (arg rest : Bytes) (info : SbInfo) :
    (SHFS_MAX_AGE hz (Clause.ttl.run arg rest info)).toInt = (decVal arg * hz : ℕ) ↔
      decVal arg * 1000 * hz < 2 ^ 31 := by
  have hmul : decVal arg * 1000 * hz = decVal arg * hz * 1000 := Nat.mul_right_comm ..
  rw [toInt_SHFS_MAX_AGE, hmul]
  generalize decVal arg * hz = n
  constructor
  · intro h
    -- the quotient of an `int` is too small
    have hlt : Int.bmod (n * 1000 : ℕ) (2 ^ 32) < 2 ^ 31 := Int.bmod_lt (by decide)
    generalize Int.bmod (n * 1000 : ℕ) (2 ^ 32) = x at h hlt
    rcases Int.le_total 0 x with hx | hx
    · rw [Int.tdiv_eq_ediv_of_nonneg hx] at h
      omega
    · have hneg : 0 ≤ (-x).tdiv 1000 := Int.tdiv_nonneg (by omega) (by decide)
      rw [Int.neg_tdiv] at hneg
      omega
  · intro h
    rw [Int.bmod_eq_of_le (by omega) (by omega), Int.natCast_mul]
    exact Int.mul_tdiv_cancel _ (by decide)

theorem toNat_maxAge {w hz T : ℕ} {info : SbInfo} (hw : 32 ≤ w)
    (h : (SHFS_MAX_AGE hz info).toInt = (T : ℕ)) :
    (maxAge w hz info).toNat = T ∧ T < 2 ^ (w - 1) := by
  have hlt : (SHFS_MAX_AGE hz info).toInt < 2 ^ 31 := Int32.toInt_lt _
  have hpow : 2 ^ 31 ≤ 2 ^ (w - 1) := Nat.pow_le_pow_right (by decide) (by omega)
  have hdouble : 2 ^ (w - 1) ≤ 2 ^ w := Nat.pow_le_pow_right (by decide) (Nat.sub_le ..)
  have hT : T < 2 ^ (w - 1) := by omega
  refine ⟨?_, hT⟩
  rw [maxAge, h, BitVec.ofInt_natCast, BitVec.toNat_ofNat, Nat.mod_eq_of_lt (hT.trans_le hdouble)]

/-! ## Freshness -/

section Right

variable {ι : Type} [DecidableEq ι] {w : ℕ}

/-- The test of an entry behind a run. -/
def freshBehind (hz : ℕ) (info : SbInfo) (start : Ages ι w) (events : List (Event ι))
    (e : Entry ι) : Bool :=
  (run (Ages.step (maxAge w hz info)) start events).fresh (maxAge w hz info) e

/-- **The ages are right** for an entry, behind a run, with `TIME` seconds to live: it is stale
from the tick on in which it is aged, and fresh for `TIME` seconds when it is renewed. -/
structure AgesRight (hz : ℕ) (info : SbInfo) (TIME : ℕ) (start : Ages ι w)
    (events : List (Event ι)) (e : Entry ι) : Prop where
  seconds : (SHFS_MAX_AGE hz info).toInt = (TIME * hz : ℕ)
  aged : ∀ n < 2 ^ (w - 1), history events e = some (.aged, n) →
    freshBehind hz info start events e = false
  renewed : ∀ n < TIME * hz, history events e = some (.renewed, n) →
    freshBehind hz info start events e = true
  expired : ∀ n < 2 ^ (w - 1), TIME * hz < n → history events e = some (.renewed, n) →
    freshBehind hz info start events e = false

/-- **When the ages are right**: the product in `SHFS_MAX_AGE` is an `int`, and the entry is not a
dentry that has been aged in this tick. Then what the tests of `shfs_d_revalidate` and of the others
say is what the history says, for every list of events and with a counter that wraps. -/
theorem agesRight_iff (hw : 32 ≤ w) (hz : ℕ) (arg rest : Bytes) (info : SbInfo) (start : Ages ι w)
    (events : List (Event ι)) (e : Entry ι) :
    AgesRight hz (Clause.ttl.run arg rest info) (decVal arg) start events e ↔
      decVal arg * 1000 * hz < 2 ^ 31 ∧
        ¬ ((∃ d, e = .dentry d) ∧ history events e = some (.aged, 0)) := by
  have hhalf : 2 ^ w = 2 ^ (w - 1) + 2 ^ (w - 1) := by
    rw [← Nat.two_mul, ← Nat.pow_succ', Nat.succ_eq_add_one, Nat.sub_add_cancel (by omega)]
  have hzero : 0 < 2 ^ (w - 1) := Nat.two_pow_pos _
  have htracks := tracks_run (maxAge w hz (Clause.ttl.run arg rest info)) start events e
  rw [← maxAge_iff hz arg rest info]
  constructor
  · rintro ⟨hsec, haged, -, -⟩
    refine ⟨hsec, ?_⟩
    rintro ⟨hdentry, hnow⟩
    obtain ⟨hmax, hT⟩ := toNat_maxAge hw hsec
    rw [hnow] at htracks
    have hfresh := (fresh_aged htracks (by omega)).mpr ⟨rfl, hdentry⟩
    exact absurd (hfresh.symm.trans (haged 0 hzero hnow)) (by decide)
  · rintro ⟨hsec, hnow⟩
    obtain ⟨hmax, hT⟩ := toNat_maxAge hw hsec
    refine ⟨hsec, fun n hn hlast => ?_, fun n hn hlast => ?_, fun n hn hlate hlast => ?_⟩
    · rw [hlast] at htracks hnow
      rw [freshBehind, Bool.eq_false_iff]
      intro hfresh
      obtain ⟨rfl, hdentry⟩ := (fresh_aged htracks (by omega)).mp hfresh
      exact hnow ⟨hdentry, rfl⟩
    · rw [hlast] at htracks
      exact (fresh_renewed htracks (by omega)).1 (hmax ▸ hn)
    · rw [hlast] at htracks
      exact (fresh_renewed htracks (by omega)).2 (hmax ▸ hlate)

end Right

/-- A mount with the option `ttl=`, on a machine of 32 or 64 bits. -/
def withTtl (arg : Bytes) : SbInfo := Clause.ttl.run arg [] (.start 0 0)

theorem agesRight_iff_twenty : 32 ≤ 64 ∧
    (AgesRight 250 (withTtl (ascii "20")) (decVal (ascii "20")) (⟨0, fun _ => 0, fun _ => none⟩ :
        Ages Unit 64) [.ageDentry (), .tick] (.dentry ()) ↔
      decVal (ascii "20") * 1000 * 250 < 2 ^ 31 ∧
        ¬ ((∃ d, Entry.dentry () = .dentry d) ∧
          history [.ageDentry (), .tick] (Entry.dentry ()) = some (.aged, 0))) :=
  ⟨by decide, agesRight_iff (by decide) 250 (ascii "20") [] (.start 0 0) _ _ _⟩

/-- The aged dentry is taken for fresh; and 36 minutes are too long for a clock of 1000 Hz. -/
theorem not_agesRight :
    (¬ AgesRight 100 (withTtl (ascii "20")) 20 (⟨0, fun _ => 0, fun _ => none⟩ : Ages Unit 32)
      [.ageDentry ()] (.dentry ())) ∧
    ¬ AgesRight 1000 (withTtl (ascii "2160")) 2160 (⟨0, fun _ => 0, fun _ => none⟩ : Ages Unit 32)
      [] (.dentry ()) := by
  constructor
  · intro h
    have hstale := h.aged 0 (by decide) (by decide)
    exact absurd hstale (by decide)
  · intro h
    exact absurd h.seconds (by decide)

end Shfs
