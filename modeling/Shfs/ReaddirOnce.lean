import Shfs.DirCache

/-!
# Every entry once

A caller reads a directory in pieces, and between two pieces dentries and pages may be dropped.
Whether a piece comes from the pages or from the server, it starts at the position at which the one
before has ended: `Progress` says so for one call, and `Listed` is what has to hold of the pages for
it.

The position is cut to 32 bits where `shfs_readdir` looks for the two dots. `onceEach_iff` says that
this is all that can go wrong: directories with less than 2 ^ 32 - 2 entries are listed entry by
entry, each once.
-/

namespace Shfs

open Lib

variable {ν : Type}

/-! ## Progress of a call -/

/-- What the caller is to get: the two entries that every directory has, and then those of the
reply, in their order. -/
def fullListing (L : List ν) : List (Item ν) := .dot :: .dotdot :: L.map .entry

@[simp] theorem length_fullListing (L : List ν) : (fullListing L).length = L.length + 2 := by
  simp [fullListing]

theorem fullListing_entry {L : List ν} {i : ℕ} {q : ν} (h : L[i]? = some q) :
    (fullListing L)[i + 2]? = some (.entry q) := by
  simp [fullListing, h]

/-- A call that has started at `pos₀`, with room for `room₀` items, has come to `pos`. -/
structure Progress (xs : List (Item ν)) (pos₀ room₀ pos : ℕ) (buf : Dirent ν) : Prop where
  inside : pos ≤ xs.length
  start : pos₀ ≤ pos
  accepted : buf.accepted = (xs.take pos).drop pos₀
  room : pos + buf.room = pos₀ + room₀
  quiet : buf.offers = 0 → pos = pos₀

/-- The caller has no more room, and has been asked. -/
def Dirent.Full (buf : Dirent ν) : Prop := buf.room = 0 ∧ buf.offers ≠ 0

section Progress

variable {xs : List (Item ν)} {pos₀ room₀ pos : ℕ} {buf : Dirent ν} {x : Item ν}

theorem Progress.begin (h : pos₀ ≤ xs.length) : Progress xs pos₀ room₀ pos₀ ⟨[], room₀, 0⟩ := by
  refine ⟨h, le_rfl, ?_, rfl, fun _ => rfl⟩
  rw [List.drop_eq_nil_of_le (List.length_take_le ..)]

/-- The piece of this call, behind those of the calls before. -/
theorem Progress.take_append (h : Progress xs pos₀ room₀ pos buf) :
    xs.take pos₀ ++ (xs.take pos).drop pos₀ = xs.take pos := by
  have hcut := List.take_append_drop pos₀ (xs.take pos)
  rwa [List.take_take, Nat.min_eq_left h.start] at hcut

/-- The next item is taken. -/
theorem Progress.take (h : Progress xs pos₀ room₀ pos buf) (hx : xs[pos]? = some x)
    (hroom : buf.room ≠ 0) :
    buf.filldir x = (true, ⟨buf.accepted ++ [x], buf.room - 1, buf.offers + 1⟩) ∧
      Progress xs pos₀ room₀ (pos + 1) ⟨buf.accepted ++ [x], buf.room - 1, buf.offers + 1⟩ := by
  refine ⟨if_neg hroom, ?_⟩
  obtain ⟨hlt, hget⟩ := List.getElem?_eq_some_iff.mp hx
  have hroom' := h.room
  refine ⟨hlt, h.start.trans (Nat.le_succ _), ?_, by dsimp only; omega, fun h0 => by cases h0⟩
  rw [h.accepted, List.take_succ_eq_append_getElem hlt, hget, List.drop_append_of_le_length]
  rw [List.length_take, Nat.min_eq_left h.inside]
  exact h.start

/-- The next item is refused. -/
theorem Progress.refuse (h : Progress xs pos₀ room₀ pos buf) (hroom : buf.room = 0) :
    buf.filldir x = (false, { buf with offers := buf.offers + 1 }) ∧
      Progress xs pos₀ room₀ pos { buf with offers := buf.offers + 1 } ∧
      ({ buf with offers := buf.offers + 1 } : Dirent ν).Full :=
  ⟨if_pos hroom, ⟨h.inside, h.start, h.accepted, h.room, fun h0 => by cases h0⟩,
    hroom, Nat.succ_ne_zero _⟩

end Progress

/-! ## The pages -/

/-- A dentry with a place has the name of that place. -/
def Named (L : List ν) (d : DirCache ν) : Prop :=
  ∀ x ∈ d.children, x.2.fsdata ≠ 0 → ∃ i, x.2.fsdata = i + 2 ∧ L[i]? = some x.2.name

/-- **The pages are right**: the dentries are, and a header that is marked complete counts all
entries. -/
structure Listed (L : List ν) (d : DirCache ν) : Prop where
  named : Named L d
  counted : ∀ head, d.head = some head → head.eof = true → head.last = L.length + 1

section Pages

variable {L : List ν} {d : DirCache ν}

theorem Named.invalidate (L : List ν) (d : DirCache ν) : Named L d.invalidateEntries := by
  intro x hx h0
  obtain ⟨y, -, rfl⟩ := List.mem_map.mp hx
  exact absurd rfl h0

theorem Named.put (h : Named L d) {p : ℕ} {c : Child ν}
    (hc : c.fsdata ≠ 0 → ∃ i, c.fsdata = i + 2 ∧ L[i]? = some c.name) : Named L (d.put p c) := by
  intro x hx
  rcases List.mem_cons.mp hx with rfl | hx
  · exact hc
  · exact h x (List.mem_filter.mp hx).1

theorem Named.dput (h : Named L d) (p : ℕ) : Named L (d.dput p) :=
  fun x hx => h x (List.mem_filter.mp hx).1

theorem Named.congr {d' : DirCache ν} (h : Named L d) (hc : d'.children = d.children) :
    Named L d' := by
  intro x hx
  rw [hc] at hx
  exact h x hx

/-- A dentry that has the place is the right one. -/
theorem Named.dgetFpos (h : Named L d) {p i : ℕ} {c : Child ν}
    (hc : d.dgetFpos p (i + 2) = some c) : L[i]? = some c.name := by
  rw [DirCache.dgetFpos] at hc
  split at hc
  · next c' hlookup =>
    split at hc
    · next hplace =>
      obtain rfl := Option.some.inj hc
      obtain ⟨l₁, l₂, hl, -⟩ := List.lookup_eq_some_iff.mp hlookup
      have hmem : (p, c') ∈ d.children := by
        rw [hl]
        exact List.mem_append_right _ (List.mem_cons_self ..)
      obtain ⟨j, hj, hname⟩ := h _ hmem (by rw [hplace.1]; exact Nat.succ_ne_zero _)
      rw [hplace.1] at hj
      obtain rfl : i = j := Nat.add_right_cancel hj
      exact hname
    · cases hc
  · cases hc

/-- **From the pages**: what is delivered is the next piece of the listing. Where a slot leads
nowhere the caller gets no more of it from there. -/
theorem replay_progress (h : Named L d) {n : ℕ} (ofs idx : ℕ) {pos₀ room₀ pos : ℕ} {buf : Dirent ν}
    (hp : Progress (fullListing L) pos₀ room₀ pos buf) (htwo : 2 ≤ pos)
    (hn : pos + n = L.length + 2) {done : Bool} {pos' : ℕ} {buf' : Dirent ν}
    (hr : d.replay n ofs idx pos buf = (done, pos', buf')) :
    Progress (fullListing L) pos₀ room₀ pos' buf' ∧ 2 ≤ pos' ∧
      (done = true → buf'.Full ∨ pos' = L.length + 2) := by
  induction n generalizing ofs idx pos buf with
  | zero =>
    obtain ⟨rfl, rfl, rfl⟩ : done = true ∧ pos' = pos ∧ buf' = buf := by
      simpa [DirCache.replay, eq_comm] using hr
    exact ⟨hp, htwo, fun _ => Or.inr hn⟩
  | succ n ih =>
    obtain ⟨i, rfl⟩ : ∃ i, pos = i + 2 := ⟨pos - 2, by omega⟩
    rw [DirCache.replay] at hr
    split at hr
    · obtain ⟨rfl, rfl, rfl⟩ : done = false ∧ pos' = i + 2 ∧ buf' = buf := by
        simpa [eq_comm] using hr
      exact ⟨hp, htwo, fun hdone => by cases hdone⟩
    · next c hslot =>
      obtain ⟨slots, -, hc⟩ := Option.bind_eq_some_iff.mp hslot
      have hentry := fullListing_entry (h.dgetFpos hc)
      by_cases hroom : buf.room = 0
      · obtain ⟨hfill, hp', hfull⟩ := hp.refuse (x := .entry c.name) hroom
        rw [hfill] at hr
        obtain ⟨rfl, rfl, rfl⟩ : done = true ∧ pos' = i + 2 ∧ buf' = _ := by
          simpa [eq_comm] using hr
        exact ⟨hp', htwo, fun _ => Or.inl hfull⟩
      · obtain ⟨hfill, hp'⟩ := hp.take hentry hroom
        rw [hfill] at hr
        dsimp only at hr
        split at hr
        · exact ih _ _ hp' (by omega) (by omega) hr
        · exact ih _ _ hp' (by omega) (by omega) hr

end Pages

/-! ## Reading the listing -/

/-- A call while it reads: with room left it is not behind the position of the listing. -/
structure Fills (L : List ν) (pos₀ room₀ : ℕ) (t : Filling ν) : Prop where
  named : Named L t.dir
  progress : Progress (fullListing L) pos₀ room₀ t.fPos t.buf
  behind : t.ctl.filled = false → t.ctl.fpos ≤ t.fPos
  full : t.ctl.filled = true → t.buf.Full

section Fill

variable {L : List ν} {mem : FillMemory} {garbage : ℕ → ℕ} {pos₀ room₀ i : ℕ} {t : Filling ν}
  {q : ν}

theorem getDentry_name [DecidableEq ν] {d : DirCache ν} {p : ℕ} {c : Child ν}
    (h : d.getDentry mem q = some (p, c)) :
    c.name = q ∧ (c.fsdata ≠ 0 → (p, c) ∈ d.children) := by
  rw [DirCache.getDentry, Option.or_eq_some_iff] at h
  rcases h with hfound | ⟨-, hnew⟩
  · have hname := List.find?_some hfound
    simp only [Bool.and_eq_true, decide_eq_true_eq] at hname
    exact ⟨hname.2, fun _ => List.mem_of_find?_eq_some hfound⟩
  · obtain ⟨_, -, heq⟩ := Option.map_eq_some_iff.mp hnew
    obtain ⟨-, rfl⟩ := Prod.mk.inj heq
    exact ⟨rfl, fun h0 => absurd rfl h0⟩

@[simp] theorem fill_name (c : Child ν) (fpos : ℕ) : (c.fill mem fpos).name = c.name := by
  rw [Child.fill]
  split
  · rfl
  · split <;> rfl

/-- The place of a dentry is the new one, or it has none. -/
theorem fill_fsdata (c : Child ν) (fpos : ℕ) :
    (c.fill mem fpos).fsdata = fpos ∨ (c.fill mem fpos).fsdata = c.fsdata := by
  rw [Child.fill]
  split
  · exact Or.inl rfl
  · split
    · exact Or.inl rfl
    · exact Or.inr rfl

/-- The pages, and the place in them, are all that differs. -/
structure Filling.Alike (t t' : Filling ν) : Prop where
  children : t'.dir.children = t.dir.children
  fPos : t'.fPos = t.fPos
  buf : t'.buf = t.buf
  fpos : t'.ctl.fpos = t.ctl.fpos
  filled : t'.ctl.filled = t.ctl.filled
  valid : t'.ctl.valid = t.ctl.valid

theorem Filling.Alike.refl (t : Filling ν) : t.Alike t := ⟨rfl, rfl, rfl, rfl, rfl, rfl⟩

theorem Filling.Alike.trans {t t' t'' : Filling ν} (h : t.Alike t') (h' : t'.Alike t'') :
    t.Alike t'' :=
  ⟨h'.1.trans h.1, h'.2.trans h.2, h'.3.trans h.3, h'.4.trans h.4, h'.5.trans h.5, h'.6.trans h.6⟩

theorem turnPage_alike (t : Filling ν) : t.Alike (t.turnPage mem garbage) := by
  rw [Filling.turnPage]
  split
  · dsimp only
    split <;> exact ⟨rfl, rfl, rfl, rfl, rfl, rfl⟩
  · exact .refl t

theorem store_alike (t : Filling ν) (p : ℕ) : t.Alike (t.store p).2 := by
  rw [Filling.store]
  split
  · split
    · exact ⟨rfl, rfl, rfl, rfl, rfl, rfl⟩
    · exact .refl t
  · exact .refl t

theorem Filling.Alike.dput {t t' : Filling ν} (h : t.Alike t') (p : ℕ) :
    Filling.Alike { t with dir := t.dir.dput p } { t' with dir := t'.dir.dput p } := by
  refine ⟨?_, h.fPos, h.buf, h.fpos, h.filled, h.valid⟩
  simp only [DirCache.dput, h.children]

variable [DecidableEq ν]

/-- **Recording an entry**: at most one dentry is changed, that of the entry. Whether the entry gets
a slot or not, nothing of the listing is handed on here. -/
theorem record_cases (t : Filling ν) (q : ν) :
    t.record mem garbage q = (false, t) ∨
      ∃ p c, t.dir.getDentry mem q = some (p, c) ∧
        Filling.Alike { t with dir := (t.dir.put p (c.fill mem t.ctl.fpos)).dput p }
          (t.record mem garbage q).2 := by
  rw [Filling.record]
  split
  · exact Or.inl rfl
  · next p c hget =>
    let t₁ : Filling ν := { t with dir := t.dir.put p (c.fill mem t.ctl.fpos) }
    have halike : t₁.Alike ((t₁.turnPage mem garbage).store p).2 :=
      (turnPage_alike t₁).trans (store_alike _ p)
    exact Or.inr ⟨p, c, hget, halike.dput p⟩

variable (mem garbage) in
/-- The caller's side is left alone. -/
theorem record_frame (t : Filling ν) (q : ν) :
    (t.record mem garbage q).2.fPos = t.fPos ∧ (t.record mem garbage q).2.buf = t.buf ∧
      (t.record mem garbage q).2.ctl.fpos = t.ctl.fpos ∧
      (t.record mem garbage q).2.ctl.filled = t.ctl.filled ∧
      (t.record mem garbage q).2.ctl.valid = t.ctl.valid := by
  rcases record_cases t q with hnone | ⟨p, c, -, h⟩
  · rw [hnone]
    exact ⟨rfl, rfl, rfl, rfl, rfl⟩
  · exact ⟨h.fPos, h.buf, h.fpos, h.filled, h.valid⟩

/-- A dentry gets the place of its entry. -/
theorem record_named (h : Named L t.dir) (hfpos : t.ctl.fpos = i + 2) (hq : L[i]? = some q) :
    Named L (t.record mem garbage q).2.dir := by
  rcases record_cases t q with hnone | ⟨p, c, hget, halike⟩
  · rw [hnone]
    exact h
  · obtain ⟨rfl, hold⟩ := getDentry_name hget
    refine Named.congr ((h.put fun hplace => ?_).dput p) halike.children
    rw [fill_name]
    rcases fill_fsdata c t.ctl.fpos with hnew | hkept
    · exact ⟨i, hnew.trans hfpos, hq⟩
    · rw [hkept] at hplace ⊢
      exact h _ (hold hplace) hplace

omit [DecidableEq ν] in
/-- **Handing an entry on**, if it is the next one: the caller takes it or is full, and what it has
is a piece of the listing either way. -/
theorem offer_fills (h : Fills L pos₀ room₀ t) (hfpos : t.ctl.fpos = i + 2)
    (hq : L[i]? = some q) : Fills L pos₀ room₀ (t.offer q).advance := by
  rw [Filling.offer]
  by_cases hnext : t.ctl.filled = false ∧ t.ctl.fpos = t.fPos
  · obtain ⟨hopen, hpos⟩ := hnext
    rw [if_pos ⟨hopen, hpos⟩]
    have hx : (fullListing L)[t.fPos]? = some (.entry q) := by
      rw [← hpos, hfpos]
      exact fullListing_entry hq
    by_cases hroom : t.buf.room = 0
    · obtain ⟨hfill, hp, hfull⟩ := h.progress.refuse (x := .entry q) hroom
      rw [hfill]
      exact ⟨h.named, hp, fun hf => Bool.noConfusion hf, fun _ => hfull⟩
    · obtain ⟨hfill, hp⟩ := h.progress.take hx hroom
      rw [hfill]
      refine ⟨h.named, hp, fun _ => Nat.succ_le_succ hpos.le, fun hf => ?_⟩
      exact absurd (hopen.symm.trans hf) Bool.false_ne_true
  · rw [if_neg hnext]
    refine ⟨h.named, h.progress, fun hopen => ?_, h.full⟩
    -- the caller is further on than the listing
    exact Nat.lt_of_le_of_ne (h.behind hopen) fun hpos => hnext ⟨hopen, hpos⟩

omit [DecidableEq ν] in
theorem offer_ctl (t : Filling ν) (q : ν) :
    (t.offer q).ctl.valid = t.ctl.valid ∧ (t.offer q).ctl.fpos = t.ctl.fpos := by
  rw [Filling.offer]
  split
  · split <;> exact ⟨rfl, rfl⟩
  · exact ⟨rfl, rfl⟩

variable (garbage) in
/-- **One entry.** No more are wanted if the caller is satisfied and the pages are not valid. -/
theorem fillCache_fills (mem : ℕ → FillMemory) (h : Fills L pos₀ room₀ t)
    (hfpos : t.ctl.fpos = i + 2) (hq : L[i]? = some q) :
    Fills L pos₀ room₀ (fillCache garbage mem q t).2 ∧
      (fillCache garbage mem q t).2.ctl.fpos = i + 3 ∧
      ((fillCache garbage mem q t).1 = false →
        (fillCache garbage mem q t).2.ctl.filled = true ∧
          (fillCache garbage mem q t).2.ctl.valid = false) := by
  obtain ⟨hpos, hbuf, hctl, hfilled, -⟩ := record_frame (mem t.ctl.fpos) garbage t q
  have hnamed : Named L (t.record (mem t.ctl.fpos) garbage q).2.dir := record_named h.named hfpos hq
  rw [fillCache]
  rcases hrec : t.record (mem t.ctl.fpos) garbage q with ⟨valid, t₁⟩
  rw [hrec] at hpos hbuf hctl hfilled hnamed
  have h₁ : Fills L pos₀ room₀ t₁ := by
    refine ⟨hnamed, ?_, ?_, ?_⟩
    · rw [hpos, hbuf]
      exact h.progress
    · rw [hpos, hctl, hfilled]
      exact h.behind
    · rw [hbuf, hfilled]
      exact h.full
  dsimp only at hctl ⊢
  generalize ht₂ : (if valid then t₁ else { t₁ with ctl := { t₁.ctl with valid := false } }) = t₂
  have h₂ : Fills L pos₀ room₀ t₂ ∧ t₂.ctl.fpos = i + 2 := by
    subst ht₂
    split
    · exact ⟨h₁, hctl.trans hfpos⟩
    · exact ⟨⟨h₁.named, h₁.progress, h₁.behind, h₁.full⟩, hctl.trans hfpos⟩
  refine ⟨offer_fills h₂.1 h₂.2 hq, ?_, fun hmore => ?_⟩
  · exact congrArg (· + 1) ((offer_ctl t₂ q).2.trans h₂.2)
  · simpa [and_comm] using hmore

variable (garbage) in
/-- **A whole listing**: the caller gets the next piece of it, entry by entry. At the end all of it
has been handed on, or the caller has had enough and the pages are not valid. -/
theorem feed_fills (mem : ℕ → FillMemory) (qs : List ν) (h : Fills L pos₀ room₀ t)
    (hfpos : t.ctl.fpos = i + 2) (hqs : qs = L.drop i) (hi : i ≤ L.length) :
    Fills L pos₀ room₀ (feed garbage mem qs t) ∧
      ((feed garbage mem qs t).ctl.fpos = L.length + 2 ∨
        (feed garbage mem qs t).ctl.filled = true ∧ (feed garbage mem qs t).ctl.valid = false) := by
  induction qs generalizing t i with
  | nil =>
    have hend : L.length ≤ i := List.drop_eq_nil_iff.mp hqs.symm
    exact ⟨h, Or.inl (by rw [feed, hfpos, Nat.le_antisymm hi hend])⟩
  | cons q qs ih =>
    have hlt : i < L.length := by
      by_contra hle
      rw [List.drop_eq_nil_of_le (Nat.not_lt.mp hle)] at hqs
      cases hqs
    rw [List.drop_eq_getElem_cons hlt] at hqs
    obtain ⟨hq, hqs⟩ := List.cons_eq_cons.mp hqs
    have hget : L[i]? = some q := by rw [List.getElem?_eq_getElem hlt, hq]
    obtain ⟨hfills, hnext, hstop⟩ := fillCache_fills garbage mem h hfpos hget
    rw [feed]
    rcases hfill : fillCache garbage mem q t with ⟨_ | _, t'⟩
    · rw [hfill] at hfills hstop
      exact ⟨hfills, Or.inr (hstop rfl)⟩
    · rw [hfill] at hfills hnext
      exact ih hfills hnext hqs hlt

end Fill

/-! ## A call -/

section Call

variable {L : List ν} {d : DirCache ν} {pos₀ room₀ pos pos' : ℕ} {buf buf' : Dirent ν}

/-- The second dot. -/
theorem dotdot_progress (hp : Progress (fullListing L) pos₀ room₀ 1 buf) {go : Bool}
    (h : (match buf.filldir .dotdot with
      | (false, buf) => (false, 1, buf)
      | (true, buf) => (true, 2, buf)) = (go, pos', buf')) :
    Progress (fullListing L) pos₀ room₀ pos' buf' ∧ (go = true → 2 ≤ pos') ∧
      (go = false → buf'.Full) := by
  by_cases hroom : buf.room = 0
  · obtain ⟨hfill, hp', hfull⟩ := hp.refuse (x := .dotdot) hroom
    rw [hfill] at h
    obtain ⟨⟩ := h
    exact ⟨hp', fun hgo => Bool.noConfusion hgo, fun _ => hfull⟩
  · obtain ⟨hfill, hp'⟩ := hp.take (x := .dotdot) rfl hroom
    rw [hfill] at h
    obtain ⟨⟩ := h
    exact ⟨hp', fun _ => le_rfl, fun hgo => Bool.noConfusion hgo⟩

/-- The dots, as long as the position is not cut. -/
theorem dots_progress (hsmall : pos < 2 ^ 32) (hpos : pos ≤ L.length + 2) {room : ℕ} {go : Bool}
    (h : dots pos ⟨[], room, 0⟩ = (go, pos', buf')) :
    Progress (fullListing L) pos room pos' buf' ∧ (go = true → 2 ≤ pos') ∧
      (go = false → buf'.Full) := by
  have hbegin : Progress (fullListing L) pos room pos ⟨[], room, 0⟩ :=
    .begin (hpos.trans_eq (length_fullListing L).symm)
  rw [dots, Nat.mod_eq_of_lt hsmall] at h
  split at h
  · next hzero =>
    subst hzero
    by_cases hroom : room = 0
    · obtain ⟨hfill, hp, hfull⟩ := hbegin.refuse (x := .dot) hroom
      rw [hfill] at h
      obtain ⟨⟩ := h
      exact ⟨hp, fun hgo => Bool.noConfusion hgo, fun _ => hfull⟩
    · obtain ⟨hfill, hp⟩ := hbegin.take (x := .dot) rfl hroom
      rw [hfill] at h
      exact dotdot_progress hp h
  next hne =>
  split at h
  · next hone =>
    subst hone
    exact dotdot_progress hbegin h
  · next hne' =>
    obtain ⟨⟩ := h
    exact ⟨hbegin, fun _ => by omega, fun hgo => Bool.noConfusion hgo⟩

/-- **From the pages** the caller gets the next piece of the listing, and if nothing more is to be
done, its buffer is full or that was the end. -/
theorem cached_progress (hd : Listed L d) (c : ReaddirCall)
    (hp : Progress (fullListing L) pos₀ room₀ pos buf) (htwo : 2 ≤ pos) {done : Bool}
    (h : c.cached d pos buf = (done, pos', buf')) :
    Progress (fullListing L) pos₀ room₀ pos' buf' ∧ 2 ≤ pos' ∧
      (done = true → buf'.Full ∨ pos' = L.length + 2) := by
  have hle := hp.inside
  rw [length_fullListing] at hle
  have hstay : (false, pos, buf) = (done, pos', buf') →
      Progress (fullListing L) pos₀ room₀ pos' buf' ∧ 2 ≤ pos' ∧
        (done = true → buf'.Full ∨ pos' = L.length + 2) := by
    rintro ⟨⟩
    exact ⟨hp, htwo, fun hdone => Bool.noConfusion hdone⟩
  rw [ReaddirCall.cached] at h
  split at h
  · exact hstay h
  next head hhead =>
  split at h
  · exact hstay h
  next heof =>
  have hlast := hd.counted head hhead (Bool.not_eq_false _ ▸ heof)
  split at h
  · exact hstay h
  split at h
  · next hend =>
    obtain ⟨⟩ := h
    exact ⟨hp, htwo, fun _ => Or.inr (by omega)⟩
  · next hin => exact replay_progress hd.named _ _ hp htwo (by omega) h

variable [DecidableEq ν]

/-- The listing as `info->fops.readdir` reads it: entry by entry, and without an error. -/
def readWhole (garbage : ℕ → ℕ) (mem : ℕ → FillMemory) (L : List ν) (t : Filling ν) :
    Except Errno Unit × Filling ν :=
  (.ok (), feed garbage mem L t)

/-- **From the server** the caller gets the next piece of the listing. What has been accepted before
is passed over, by its position. -/
theorem reread_progress (c : ReaddirCall) (d : DirCache ν) (mem : ℕ → FillMemory)
    (hp : Progress (fullListing L) pos₀ room₀ pos buf) (htwo : 2 ≤ pos) :
    let r := c.reread d (readWhole c.garbage mem L) pos buf
    Listed L r.dir ∧ Progress (fullListing L) pos₀ room₀ r.fPos r.buf ∧
      (r.buf.Full ∨ r.fPos = L.length + 2) := by
  let d' : DirCache ν := { d.invalidateEntries with
    pages := Function.update d.invalidateEntries.pages 0
      (some ((d.invalidateEntries.pages 0).getD c.garbage)) }
  have hstart : Fills L pos₀ room₀
      ⟨d', ⟨2, 0, SHFS_DIRCACHE_START, true, false, true⟩, pos, buf⟩ :=
    ⟨(Named.invalidate L d).congr rfl, hp, fun _ => htwo, fun hf => Bool.noConfusion hf⟩
  obtain ⟨hfills, hend⟩ := feed_fills c.garbage mem L hstart rfl rfl (Nat.zero_le _)
  refine ⟨⟨hfills.named, ?_⟩, hfills.progress, ?_⟩
  · rintro _ ⟨⟩ hvalid
    -- a listing that is given up is not valid
    rcases hend with hend | ⟨-, hinvalid⟩
    · exact congrArg (· - 1) hend
    · exact absurd (hinvalid.symm.trans hvalid) Bool.false_ne_true
  · have hinside := hfills.progress.inside
    rw [length_fullListing] at hinside
    cases hfilled : (feed c.garbage mem L _).ctl.filled with
    | true => exact Or.inl (hfills.full hfilled)
    | false =>
      rcases hend with hend | ⟨hfull, -⟩
      · exact Or.inr (Nat.le_antisymm hinside (hend ▸ hfills.behind hfilled))
      · exact absurd (hfilled.symm.trans hfull) Bool.false_ne_true

/-- **A call** goes on where the caller is: what it hands on is the next piece of the listing, and
if it hands on nothing although there is room, that was the end. -/
theorem run_progress (hd : Listed L d) (c : ReaddirCall) (mem : ℕ → FillMemory)
    (hsmall : pos < 2 ^ 32) (hpos : pos ≤ L.length + 2) :
    let r := c.run d (readWhole c.garbage mem L) pos
    Listed L r.dir ∧ Progress (fullListing L) pos c.room r.fPos r.buf ∧
      (r.result = .ok () → r.buf.Full ∨ r.fPos = L.length + 2) := by
  rw [ReaddirCall.run]
  rcases hdots : dots pos ⟨[], c.room, 0⟩ with ⟨_ | _, pos₁, buf₁⟩
  · obtain ⟨hp, -, hstop⟩ := dots_progress hsmall hpos hdots
    exact ⟨hd, hp, fun _ => Or.inl (hstop rfl)⟩
  obtain ⟨hp, htwo, -⟩ := dots_progress hsmall hpos hdots
  dsimp only
  cases hrev : c.revalidated with
  | error e => exact ⟨hd, hp, fun hok => by cases hok⟩
  | ok u =>
    dsimp only
    rcases hcached : c.cached d pos₁ buf₁ with ⟨_ | _, pos₂, buf₂⟩
    · obtain ⟨hp₂, htwo₂, -⟩ := cached_progress hd c hp (htwo rfl) hcached
      obtain ⟨hlisted, hprogress, hend⟩ := reread_progress c d mem hp₂ htwo₂
      exact ⟨hlisted, hprogress, fun _ => hend⟩
    · obtain ⟨hp₂, -, hend⟩ := cached_progress hd c hp (htwo rfl) hcached
      exact ⟨hd, hp₂, fun _ => hend rfl⟩

end Call

/-! ## All calls -/

/-- Nothing has been read yet. -/
def Unread (d : DirCache ν) : Prop := d.head = none ∧ ∀ x ∈ d.children, x.2.fsdata = 0

/-- What can happen between two calls: pages are dropped, and dentries; a dentry that comes up has
no place. -/
structure Dropped (d d' : DirCache ν) : Prop where
  head : d'.head = d.head ∨ d'.head = none
  pages : ∀ ofs, d'.pages ofs = d.pages ofs ∨ d'.pages ofs = none
  children : ∀ x ∈ d'.children, x.2.fsdata ≠ 0 →
    ∃ y ∈ d.children, y.1 = x.1 ∧ y.2.name = x.2.name ∧ y.2.fsdata = x.2.fsdata

/-- A caller that reads an open directory: the directory in memory, `f_pos`, and what `filldir` has
accepted so far. -/
inductive ReadSoFar [DecidableEq ν] (L : List ν) : DirCache ν → ℕ → List (Item ν) → Prop
  | start {d : DirCache ν} (hd : Unread d) : ReadSoFar L d 0 []
  | drop {d d' : DirCache ν} {pos : ℕ} {out : List (Item ν)} (h : ReadSoFar L d pos out)
      (hdrop : Dropped d d') : ReadSoFar L d' pos out
  | call {d : DirCache ν} {pos : ℕ} {out : List (Item ν)} (h : ReadSoFar L d pos out)
      (c : ReaddirCall) (mem : ℕ → FillMemory) :
      ReadSoFar L (c.run d (readWhole c.garbage mem L) pos).dir
        (c.run d (readWhole c.garbage mem L) pos).fPos
        (out ++ (c.run d (readWhole c.garbage mem L) pos).buf.accepted)

/-- **Every entry once**: what has been accepted is a piece of the listing from its beginning, and
all of it when a call that does not fail has nothing to offer. -/
structure OnceEach [DecidableEq ν] (L : List ν) : Prop where
  inOrder : ∀ d pos out, ReadSoFar L d pos out → out <+: fullListing L
  complete : ∀ d pos out, ReadSoFar L d pos out → ∀ (c : ReaddirCall) (mem : ℕ → FillMemory),
    (c.run d (readWhole c.garbage mem L) pos).result = .ok () →
    (c.run d (readWhole c.garbage mem L) pos).buf.offers = 0 → out = fullListing L

section Runs

variable {L : List ν} {d d' : DirCache ν} {pos : ℕ} {out : List (Item ν)}

theorem Unread.listed (h : Unread d) (L : List ν) : Listed L d := by
  refine ⟨fun x hx h0 => absurd (h.2 x hx) h0, fun head hhead => ?_⟩
  rw [h.1] at hhead
  cases hhead

theorem Listed.drop (h : Listed L d) (hdrop : Dropped d d') : Listed L d' := by
  constructor
  · intro x hx h0
    obtain ⟨y, hy, -, hname, hplace⟩ := hdrop.children x hx h0
    rw [← hname, ← hplace]
    exact h.named y hy (hplace ▸ h0)
  · intro head hhead
    rcases hdrop.head with hsame | hnone
    · exact h.counted head (hsame ▸ hhead)
    · rw [hnone] at hhead
      cases hhead

variable [DecidableEq ν]

/-- **Behind every call**, `f_pos` counts what has been accepted, and that is the listing up to
there. -/
theorem ReadSoFar.taken (hsmall : L.length + 2 < 2 ^ 32) (h : ReadSoFar L d pos out) :
    Listed L d ∧ pos ≤ L.length + 2 ∧ out = (fullListing L).take pos := by
  induction h with
  | start hd => exact ⟨hd.listed L, Nat.zero_le _, rfl⟩
  | drop h hdrop ih =>
    obtain ⟨hlisted, hpos, hout⟩ := ih
    exact ⟨hlisted.drop hdrop, hpos, hout⟩
  | call h c mem ih =>
    obtain ⟨hlisted, hpos, hout⟩ := ih
    obtain ⟨hlisted', hp, -⟩ := run_progress hlisted c mem (hpos.trans_lt hsmall) hpos
    refine ⟨hlisted', hp.inside.trans_eq (length_fullListing L), ?_⟩
    rw [hp.accepted, hout]
    exact hp.take_append

/-- The dot comes a second time at position 2 ^ 32. -/
theorem not_onceEach_of_le (hlarge : 2 ^ 32 ≤ L.length + 2) : ¬ OnceEach L := by
  intro h
  let d₀ : DirCache ν := ⟨[], none, fun _ => none⟩
  let mem : ℕ → FillMemory := fun _ => ⟨none, false, false⟩
  let c₁ : ReaddirCall := ⟨2 ^ 32, .ok (), false, fun _ => 0⟩
  let c₂ : ReaddirCall := ⟨1, .ok (), false, fun _ => 0⟩
  have hunread : Unread d₀ := ⟨rfl, fun x hx => by cases hx⟩
  have hfirst := (ReadSoFar.start hunread : ReadSoFar L d₀ 0 []).call c₁ mem
  obtain ⟨-, hp, hend⟩ := run_progress (hunread.listed L) c₁ mem (by decide) (Nat.zero_le _)
  have hpos : (c₁.run d₀ (readWhole c₁.garbage mem L) 0).fPos = 2 ^ 32 := by
    have hroom : _ + _ = 0 + 2 ^ 32 := hp.room
    have hinside := hp.inside
    rw [length_fullListing] at hinside
    rcases hend rfl with hfull | hdone
    · have := hfull.1
      omega
    · omega
  rw [hp.accepted, hpos, List.drop_zero, List.nil_append] at hfirst
  have hdot : ∀ d : DirCache ν, (c₂.run d (readWhole c₂.garbage mem L) (2 ^ 32)).buf.accepted =
      [.dot] := fun d => rfl
  have hsecond := h.inOrder _ _ _ (hfirst.call c₂ mem)
  rw [hdot] at hsecond
  obtain ⟨rest, hrest⟩ := hsecond
  -- the dot stands where an entry should be
  have hlen : ((fullListing L).take (2 ^ 32)).length = 2 ^ 32 := by
    rw [List.length_take, length_fullListing, Nat.min_eq_left hlarge]
  have hget : (fullListing L)[2 ^ 32]? = some .dot := by
    rw [← hrest, List.append_assoc, List.getElem?_append_right hlen.le, hlen, Nat.sub_self]
    rfl
  have hentry : (fullListing L)[2 ^ 32]? = (L.map Item.entry)[2 ^ 32 - 2]? := rfl
  rw [hentry, List.getElem?_map] at hget
  obtain ⟨q, -, hq⟩ := Option.map_eq_some_iff.mp hget
  cases hq

/-- **Directories with less than 2 ^ 32 - 2 entries** are listed entry by entry: whatever is dropped
between the calls, and however small the buffers of the caller are, each entry is accepted once, in
the order of the listing. From there on the `switch` over the lower 32 bits of `f_pos` gives the
dots again. -/
theorem onceEach_iff (L : List ν) : OnceEach L ↔ L.length + 2 < 2 ^ 32 := by
  constructor
  · intro h
    by_contra hlarge
    exact not_onceEach_of_le (Nat.not_lt.mp hlarge) h
  · intro hsmall
    constructor
    · intro d pos out h
      rw [(h.taken hsmall).2.2]
      exact List.take_prefix _ _
    · intro d pos out h c mem hok hquiet
      obtain ⟨hlisted, hpos, hout⟩ := h.taken hsmall
      obtain ⟨-, hp, hend⟩ := run_progress hlisted c mem (hpos.trans_lt hsmall) hpos
      have hstay := hp.quiet hquiet
      rcases hend hok with hfull | hdone
      · exact absurd hquiet hfull.2
      · rw [hout, ← hstay, hdone, ← length_fullListing, List.take_length]

end Runs

/-- One entry too many, or two. -/
theorem not_onceEach_range : ¬ OnceEach (List.range (2 ^ 32 - 2)) := by
  apply not_onceEach_of_le
  rw [List.length_range]
  decide

end Shfs
