import Shfs.InodeModes
import Shfs.ReaddirComplete
import Shfs.RemoteFile

/-!
# A directory behind its pages and the connection

`shfs_readdir` all the way down: where the pages do not have the listing, `do_ls` asks the server
and hands every line to `shfs_fill_cache`, which keeps it and passes it on to the caller.
`Conn.readdir` is that on the connection, and `runOn` the call of `shfs_readdir` around it.

On a directory that stays as it is (`OS.Directory`), what comes over the connection is the listing
that `ReadSoFar` reads from (`Quiet.readdir`). So whoever reads the directory gets each of the
entries that are on the server once, and in their order, whatever else is called on the mount in
between and whatever is dropped from memory (`remote_listing`).

There has to be memory for every entry: `do_ls` gives the reply up when nothing more is wanted, and
leaves the rest of it on the connection.
-/

namespace Shfs

open Lib

/-! ## The lines of a directory -/

/-- A line that `do_ls` passes over: the total, and the two dots. -/
def Skipped (l : Bytes) : Prop := ∀ fmask clock behind, lsEntry fmask clock
    (l ++ 0 :: behind) = none

/-- No mask makes a link of anything else. -/
theorem typeOf_link_iff (fmask : UInt16) (c : Byte) : typeOf fmask c = S_IFLNK ↔ c = 108 := by
  constructor
  · intro h
    by_contra hne
    unfold typeOf at h
    rw [if_neg hne] at h
    split_ifs at h <;> exact absurd h (by decide)
  · rintro rfl
    rfl

/-- The name of an entry does not depend on the mask. -/
theorem lsEntry_name (fmask : UInt16) (clock : Clock) (buf : Bytes) :
    (lsEntry fmask clock buf).map Prod.fst = (lsEntry 0xFFFF clock buf).map Prod.fst := by
  have hlink : ∀ s : ℕ → Byte, modeOf fmask s &&& S_IFMT = S_IFLNK ↔
      modeOf 0xFFFF s &&& S_IFMT = S_IFLNK := by
    intro s
    rw [modeOf_and, modeOf_and, typeOf_and, typeOf_and, typeOf_link_iff, typeOf_link_iff]
  unfold lsEntry
  dsimp only
  split
  · rfl
  · split
    · rfl
    · simp only [Option.map_some, hlink]

/-- **The line of an entry** says its name, if that is legible, whatever the spacing of the columns
and whatever is left behind the line. -/
theorem RemoteEntry.Legible.name_lsLine {e : RemoteEntry} (h : e.Legible) (fmask : UInt16)
    (clock : Clock) (l : Layout) (behind : Bytes) :
    (lsEntry fmask clock (lsLine l e ++ 0 :: behind)).map Prod.fst = some e.name.text := by
  obtain ⟨hblank, hname⟩ := e.shownName_eq_iff.mpr h
  obtain ⟨f, -, hentry⟩ := lsEntry_lsLine clock l behind hblank
  rw [lsEntry_name, hentry, Option.map_some, hname]

theorem listLine_lsLine {l : Layout} {e : RemoteEntry} (h : (lsLine l e).length < READLNBUF_SIZE) :
    ListLine (lsLine l e) where
  nl := nl_notMem_lsLine l e
  nul := zero_notMem_lsLine l e
  ne_nil := List.cons_ne_nil _ _
  fits := h
  plain := by rw [reply_lsLine, lsResult_zero]

/-- A directory that anyone may list, and that stays as it is: `ls -lan` has up to three lines that
are no entries, and one for each entry. -/
structure OS.Directory {σ : Type} (os : OS σ) (dir : Bytes) (entries : List RemoteEntry) :
    Prop where
  isDir : ∀ ids s, os.isDir ids s dir = true
  ls : ∀ ids s stable, ∃ (head : List Bytes) (lay : RemoteEntry → Layout),
    os.ls ids s false stable dir = (head ++ entries.map fun e => lsLine (lay e) e, true) ∧
      head.length ≤ 3 ∧ (∀ l ∈ head, ListLine l ∧ Skipped l) ∧
        ∀ e ∈ entries, (lsLine (lay e) e).length < READLNBUF_SIZE
  legible : ∀ e ∈ entries, e.Legible

/-- The names in a directory. -/
def namesOf (entries : List RemoteEntry) : List Bytes := entries.map fun e => e.name.text

/-! ## Filling the pages, line by line -/

section Fill

variable (fmask : UInt16) (clock : Clock) (garbage : ℕ → ℕ) (mem : ℕ → FillMemory)
  (residue : Bytes → Bytes)

/-- What `shfs_fill_cache` has made of the lines so far, and whether more are wanted. -/
def fillLines (t : Filling Bytes) (lines : List Bytes) : Filling Bytes × Bool :=
  lines.foldl (fun x s => fillEntry fmask clock garbage mem residue x.1 s) (t, true)

/-- The names that `do_ls` finds in some lines. -/
def lineNames (lines : List Bytes) : List Bytes :=
  lines.filterMap fun s => (lsEntry fmask clock (s ++ 0 :: residue s)).map Prod.fst

variable {mem} {t : Filling Bytes} {n : ℕ}

theorem Remembers.left {d : DirCache Bytes} {i : ℕ} {vs ws : List Bytes}
    (h : Remembers mem i d (vs ++ ws)) :
    Remembers mem i d vs := by
  induction vs generalizing i d with
  | nil => trivial
  | cons v vs ih => exact ⟨h.1, ih h.2⟩

/-- **Line by line**, with memory for every entry: all of them are kept, and more are wanted. -/
theorem Filled.fillLines {lines : List Bytes} (h : Filled n t)
    (hmem : Remembers mem n t.dir (lineNames fmask clock residue lines)) :
    Shfs.fillLines fmask clock garbage mem residue t lines =
      (feed garbage mem (lineNames fmask clock residue lines) t, true) := by
  induction lines generalizing t n with
  | nil => rfl
  | cons s lines ih =>
    rw [Shfs.fillLines, List.foldl_cons]
    cases hentry : lsEntry fmask clock (s ++ 0 :: residue s) with
    | none =>
      have hskip : fillEntry fmask clock garbage mem residue t s = (t, true) := by
        rw [fillEntry, hentry]
      have hnames : lineNames fmask clock residue (s :: lines) =
          lineNames fmask clock residue lines :=
        List.filterMap_cons_none (by rw [hentry]; rfl)
      rw [hnames] at hmem ⊢
      rw [hskip]
      exact ih h hmem
    | some entry =>
      obtain ⟨name, fattr⟩ := entry
      have hnames : lineNames fmask clock residue (s :: lines) =
          name :: lineNames fmask clock residue lines :=
        List.filterMap_cons_some (by rw [hentry]; rfl)
      rw [hnames] at hmem ⊢
      obtain ⟨t', hfill, hfilled, hentered⟩ := h.fillCache garbage hmem.1
      have hkeep : fillEntry fmask clock garbage mem residue t s = (t', true) := by
        rw [fillEntry, hentry]
        simp only [hfill, Prod.swap_prod_mk]
      rw [hkeep, feed, hfill]
      exact ih hfilled ((Remembers.congr hentered.children).mpr hmem.2)

/-- As long as there is memory, nothing makes `do_ls` stop. -/
theorem Filled.more {lines shown : List Bytes} (h : Filled n t)
    (hmem : Remembers mem n t.dir (lineNames fmask clock residue lines))
    (hshown : shown <+: lines) :
    (Shfs.fillLines fmask clock garbage mem residue t shown).2 = true := by
  obtain ⟨others, rfl⟩ := hshown
  rw [lineNames, List.filterMap_append] at hmem
  rw [h.fillLines fmask clock garbage residue hmem.left]

end Fill

/-! ## On the connection -/

section OnConn

variable {σ : Type}

/-- `shell_readdir` on the connection: `do_ls`, which hands its lines to `shfs_fill_cache`. Its
result and what has been filled in, and the connection behind it, if it comes back. -/
def Conn.readdir (os : OS σ) (home : Bytes) (m : Mount) (cred : Cred) (p : Path) (fuel : ℕ)
    (fmask : UInt16) (clock : Clock) (garbage : ℕ → ℕ) (mem : ℕ → FillMemory)
    (residue : Bytes → Bytes) (t : Filling Bytes) (c : Conn σ) :
    Option ((Except Errno Unit × Filling Bytes) × Conn σ) :=
  let fill := fillLines fmask clock garbage mem residue t
  match c.comes os home fun info =>
    (Ask.ls false p (fun lines => (fill lines).2) fuel).call m cred info with
  | some (.listing r lines, c') => some ((r, (fill lines).1), c')
  | _ => none

variable {os : OS σ} {home : Bytes} {m : Mount} {cred : Cred} {p : Path} {s : Perl σ} {c : Conn σ}
  {entries : List RemoteEntry} {fuel : ℕ} {fmask : UInt16} {clock : Clock} {garbage : ℕ → ℕ}
  {mem : ℕ → FillMemory} {residue : Bytes → Bytes} {t : Filling Bytes}

theorem Ask.effect_root (os : OS σ) (m : Mount) (cred : Cred) (s : Perl σ) (a : Ask) :
    (a.effect os m cred s).2.root = s.root := by
  unfold effect
  split
  · rfl
  · exact (switched_same m cred s a).2

/-- The line of `do_ls` is sent, for a path that fits. -/
theorem ls_line_ne_none (hcred : m.Sends cred) (hp : p.Fits) (stat : Bool)
    (more : List Bytes → Bool) (fuel : ℕ) : (Ask.ls stat p more fuel).line m cred ≠ none := by
  have hroom : (Request.ls stat p).room m.preserveOwn cred ≤ SOCKBUF_SIZE := by
    have hname := (Request.ls stat p).name_ok.2
    have hwidth := hcred.width
    have hS := SOCKBUF_SIZE_eq
    have hquoted : (quoteText p.text).length + 1 ≤ 512 := hp
    have hargs : (Request.ls stat p).argText.length = (quoteText p.text).length + 2 := by
      simp [Request.argText, Request.args, Word.text]
    rw [Request.room, hargs]
    omega
  have hbuilt := (Request.built_measured m.preserveOwn cred rfl
    (r := .ls stat p) fun q hq => List.mem_singleton.mp hq ▸ hp).1 hroom
  change ((Request.ls stat p).built m.preserveOwn cred).line ≠ none
  rw [hbuilt]
  exact Option.some_ne_none _

/-- The lines of a directory say its names. -/
theorem lineNames_directory {head : List Bytes} {lay : RemoteEntry → Layout}
    (hhead : ∀ l ∈ head, Skipped l) (hlegible : ∀ e ∈ entries, e.Legible) :
    lineNames fmask clock residue (head ++ entries.map fun e => lsLine (lay e) e) =
      namesOf entries := by
  have hnone : head.filterMap (fun s => (lsEntry fmask clock (s ++ 0 :: residue s)).map Prod.fst) =
      [] :=
    List.filterMap_eq_nil_iff.mpr fun l hl => by rw [hhead l hl]; rfl
  rw [lineNames, List.filterMap_append, hnone, List.nil_append, List.filterMap_map, namesOf,
    ← List.filterMap_eq_map]
  exact List.filterMap_congr fun e he => (hlegible e he).name_lsLine fmask clock _ _

/-- **`shell_readdir`** of such a directory, with memory for its entries: it comes back, with all of
them filled in, and leaves the connection quiet. -/
theorem Quiet.readdir (h : Quiet os home m c s) (hcred : m.Sends cred) (hp : p.Fits)
    (hdir : os.Directory (s.path p.text) entries) (hfuel : entries.length + 3 < fuel)
    (ht : Filled 0 t) (hmem : Remembers mem 0 t.dir (namesOf entries)) :
    ∃ c', c.readdir os home m cred p fuel fmask clock garbage mem residue t =
        some ((.ok (), feed garbage mem (namesOf entries) t), c') ∧
      ∃ s', Quiet os home m c' s' ∧ s'.root = s.root := by
  set fill := fillLines fmask clock garbage mem residue t with hfill
  set a : Ask := .ls false p (fun lines => (fill lines).2) fuel with ha
  obtain ⟨hfs, hroot⟩ := switched_same m cred s a
  have hpath : (a.switched m cred s).path p.text = s.path p.text := by
    rw [Perl.path, hroot, Perl.path]
  obtain ⟨head, lay, hls, hfew, hhead, hfits⟩ :=
    hdir.ls (a.switched m cred s).ids s.fs (a.switched m cred s).stable
  have hnames : lineNames fmask clock residue (head ++ entries.map fun e => lsLine (lay e) e) =
      namesOf entries := lineNames_directory (fun l hl => (hhead l hl).2) hdir.legible
  have hmem' : Remembers mem 0 t.dir
      (lineNames fmask clock residue (head ++ entries.map fun e => lsLine (lay e) e)) :=
        hnames ▸ hmem
  have horderly : a.Orderly os (a.switched m cred s) := by
    rw [ha, Ask.Orderly, ← ha]
    simp only [hpath, hfs, hls]
    refine ⟨fun l hl => ?_, fun shown hshown _ => ht.more fmask clock garbage residue hmem' hshown,
      ?_⟩
    · rcases List.mem_append.mp hl with hl | hl
      · exact (hhead l hl).1
      · obtain ⟨e, he, rfl⟩ := List.mem_map.mp hl
        exact listLine_lsLine (hfits e he)
    · rw [List.length_append, List.length_map]
      omega
  have hserver : a.onServer os (a.switched m cred s) =
      (.listing (.ok ()) (head ++ entries.map fun e => lsLine (lay e) e), s.fs) := by
    rw [ha, Ask.onServer, ← ha]
    simp only [hpath, hfs, hdir.isDir, hls, if_true, Bool.false_eq_true, if_false]
  obtain ⟨c', hcomes, hquiet⟩ := h.comes cred (a := a) fun hl =>
    ⟨Ask.fits_of_line hcred hl, horderly⟩
  rw [effect_sent (ls_line_ne_none hcred hp _ _ _), hserver] at hcomes hquiet
  refine ⟨c', ?_, _, hquiet, hroot⟩
  rw [Conn.readdir, hcomes]
  simp only [ht.fillLines fmask clock garbage residue hmem', hnames]

end OnConn

/-! ## A call of `shfs_readdir` -/

section Call

variable {ν : Type}

/-- What the server is asked with, from `init_cache` on. -/
def ReaddirCall.fresh (a : ReaddirCall) (d : DirCache ν) (fPos : ℕ) (buf : Dirent ν) : Filling ν :=
  let d := d.invalidateEntries
  ⟨{ d with pages := Function.update d.pages 0 (some ((d.pages 0).getD a.garbage)) },
    ⟨2, 0, SHFS_DIRCACHE_START, true, false, true⟩, fPos, buf⟩

/-- Does a call ask the server, and with what? -/
def ReaddirCall.asks (a : ReaddirCall) (d : DirCache ν) (fPos : ℕ) : Option (Filling ν) :=
  match dots fPos ⟨[], a.room, 0⟩ with
  | (false, _, _) => none
  | (true, fPos, buf) =>
    match a.revalidated with
    | .error _ => none
    | .ok () =>
      match a.cached d fPos buf with
      | (true, _, _) => none
      | (false, fPos, buf) => some (a.fresh d fPos buf)

variable {a : ReaddirCall} {d : DirCache ν} {fPos : ℕ} {t : Filling ν}

/-- Only what the server is asked with counts. -/
theorem run_congr {read read' : Filling ν → Except Errno Unit × Filling ν}
    (h : ∀ t, a.asks d fPos = some t → read t = read' t) :
    a.run d read fPos = a.run d read' fPos := by
  unfold ReaddirCall.asks at h
  unfold ReaddirCall.run
  split
  · rfl
  · next hdots =>
    rw [hdots] at h
    split
    · rfl
    · next hrev =>
      simp only [hrev] at h
      split
      · rfl
      · next hcached =>
        simp only [hcached, Option.some.injEq, forall_eq'] at h
        rw [ReaddirCall.reread, ReaddirCall.reread]
        exact congrArg (fun x : Except Errno Unit × Filling ν => (⟨x.1, { x.2.dir with
          head := some ⟨x.2.ctl.fpos - 1, x.2.ctl.valid⟩ }, x.2.fPos, x.2.buf⟩ : Readdir ν)) h

/-- No slot has been filled yet. -/
theorem filled_asks (h : a.asks d fPos = some t) : Filled 0 t := by
  obtain ⟨pos, buf, rfl⟩ : ∃ pos buf, t = a.fresh d pos buf := by
    unfold ReaddirCall.asks at h
    split at h
    · cases h
    · split at h
      · cases h
      · split at h
        · cases h
        · exact ⟨_, _, (Option.some.inj h).symm⟩
  have hidx : SHFS_DIRCACHE_START ≤ SHFS_DIRCACHE_SIZE := by decide
  refine ⟨rfl, rfl, ⟨rfl, hidx, rfl, ?_⟩, Nat.succ_ne_zero 2⟩
  simp only [ReaddirCall.fresh, Function.update_self, Option.isSome_some]

end Call

/-- An open directory: the mount with its mask and its clock, the caller and the path. -/
structure OpenDir : Type where
  m : Mount
  fmask : UInt16
  clock : Clock
  cred : Cred
  path : Path

/-- A call, with what there is memory for at each position and what `sockbuf` has behind a line. -/
structure DirCall : Type extends ReaddirCall where
  mem : ℕ → FillMemory
  residue : Bytes → Bytes

section Run

variable {σ : Type} (os : OS σ) (home : Bytes) (o : OpenDir) (fuel : ℕ)

/-- `shfs_readdir`, if it comes back. -/
def DirCall.runOn (a : DirCall) (d : DirCache Bytes) (fPos : ℕ) (c : Conn σ) :
    Option (Readdir Bytes × Conn σ) :=
  match a.asks d fPos with
  | none => some (a.run d (fun t => (.ok (), t)) fPos, c)
  | some t =>
    (c.readdir os home o.m o.cred o.path fuel o.fmask o.clock a.garbage a.mem a.residue t).map
      fun x => (a.run d (fun _ => x.1) fPos, x.2)

/-- There is memory for all of these names, if the server is asked. -/
def DirCall.Remembers (a : DirCall) (names : List Bytes) (d : DirCache Bytes) (fPos : ℕ) : Prop :=
  ∀ t, a.asks d fPos = some t → Shfs.Remembers a.mem 0 t.dir names

/-- A caller that reads an open directory of a mount, while dentries and pages are dropped, and
while others use the connection: the directory in memory, the connection, `f_pos` and what `filldir`
has accepted. -/
inductive Browsed (names : List Bytes) (c₀ : Conn σ) :
    DirCache Bytes → Conn σ → ℕ → List (Item Bytes) → Prop
  | start {d : DirCache Bytes} (hd : Unread d) : Browsed names c₀ d c₀ 0 []
  | drop {d d' : DirCache Bytes} {c : Conn σ} {pos : ℕ} {out : List (Item Bytes)}
      (h : Browsed names c₀ d c pos out) (hdrop : Dropped d d') : Browsed names c₀ d' c pos out
  | other {d : DirCache Bytes} {c c' : Conn σ} {pos : ℕ} {out : List (Item Bytes)}
      (h : Browsed names c₀ d c pos out) (cred : Cred) (b : Ask) (r : Outcome)
      (hadm : Admitted os home o.m c cred b)
      (hcomes : c.comes os home (fun info => b.call o.m cred info) = some (r, c')) :
      Browsed names c₀ d c' pos out
  | call {d : DirCache Bytes} {c c' : Conn σ} {pos : ℕ} {out : List (Item Bytes)}
      (h : Browsed names c₀ d c pos out) (a : DirCall) (r : Readdir Bytes)
        (hmem : a.Remembers names d pos)
      (hcall : a.runOn os home o fuel d pos c = some (r, c')) :
      Browsed names c₀ r.dir c' r.fPos (out ++ r.buf.accepted)

variable {os home o fuel} {s : Perl σ} {c c₀ : Conn σ} {d : DirCache Bytes} {pos : ℕ}
  {out : List (Item Bytes)} {entries : List RemoteEntry}

/-- **A call on a quiet connection** is one that reads the listing itself, and leaves the connection
quiet. There has to be memory for all names, or the client would stop in the middle of the reply. -/
theorem Quiet.runOn (h : Quiet os home o.m c s) (hcred : o.m.Sends o.cred) (hp : o.path.Fits)
    (hdir : os.Directory (s.path o.path.text) entries) (hfuel : entries.length + 3 < fuel)
    {a : DirCall} (hmem : a.Remembers (namesOf entries) d pos) :
    ∃ c', a.runOn os home o fuel d pos c =
        some (a.run d (readWhole a.garbage a.mem (namesOf entries)) pos, c') ∧
      ∃ s', Quiet os home o.m c' s' ∧ s'.root = s.root := by
  rw [DirCall.runOn]
  cases hasks : a.asks d pos with
  | none =>
    refine ⟨c, ?_, s, h, rfl⟩
    exact congrArg (fun r => some (r, c)) (run_congr fun t ht => by rw [hasks] at ht; cases ht)
  | some t =>
    obtain ⟨c', hread, hquiet⟩ : ∃ c',
      c.readdir os home o.m o.cred o.path fuel o.fmask o.clock a.garbage
        a.mem a.residue t = some ((.ok (), feed a.garbage a.mem (namesOf entries) t), c') ∧
          ∃ s', Quiet os home o.m c' s' ∧ s'.root = s.root :=
      h.readdir hcred hp hdir hfuel (filled_asks hasks) (hmem t hasks)
    refine ⟨c', ?_, hquiet⟩
    simp only [hread, Option.map_some]
    refine congrArg (fun r => some (r, c')) (run_congr fun t' ht' => ?_)
    obtain rfl := Option.some.inj (hasks.symm.trans ht')
    rfl

/-- **Every run** is one that reads the listing itself, and the connection stays quiet. So all that
is proved of readers of a list holds of readers of a mount. -/
theorem Browsed.readSoFar (hq : Quiet os home o.m c₀ s) (hcred : o.m.Sends o.cred)
    (hp : o.path.Fits) (hdir : os.Directory (s.path o.path.text) entries)
    (hfuel : entries.length + 3 < fuel)
    (h : Browsed os home o fuel (namesOf entries) c₀ d c pos out) :
    ReadSoFar (namesOf entries) d pos out ∧ ∃ s', Quiet os home o.m c s' ∧ s'.root = s.root := by
  induction h with
  | start hd => exact ⟨.start hd, s, hq, rfl⟩
  | drop _ hdrop ih => exact ⟨ih.1.drop hdrop, ih.2⟩
  | other _ cred b r hadm hcomes ih =>
    obtain ⟨hread, s', hquiet, hroot⟩ := ih
    obtain ⟨c', hcomes', hquiet'⟩ := hquiet.comes cred (hadm s' hquiet.idle.mode)
    obtain ⟨-, rfl⟩ := Prod.mk.inj (Option.some.inj (hcomes.symm.trans hcomes'))
    exact ⟨hread, _, hquiet', (b.effect_root os o.m cred s').trans hroot⟩
  | call _ a r hmem hcall ih =>
    obtain ⟨hread, s', hquiet, hroot⟩ := ih
    have hdir' : os.Directory (s'.path o.path.text) entries := by rwa [Perl.path, hroot]
    obtain ⟨c', hcall', s'', hquiet', hroot'⟩ := hquiet.runOn hcred hp hdir' hfuel hmem
    obtain ⟨rfl, rfl⟩ := Prod.mk.inj (Option.some.inj (hcall.symm.trans hcall'))
    exact ⟨hread.call a.toReaddirCall a.mem, s'', hquiet', hroot'.trans hroot⟩

/-- **A remote directory is listed as it is.** Whatever is dropped, and whoever else uses the mount:
what has been accepted is a piece of the listing from its beginning; every further call comes back;
one that does not fail and has nothing to offer says that all of it has been accepted; and the
connection is quiet. -/
theorem remote_listing (hq : Quiet os home o.m c₀ s) (hcred : o.m.Sends o.cred) (hp : o.path.Fits)
    (hdir : os.Directory (s.path o.path.text) entries) (hfuel : entries.length + 3 < fuel)
    (hsmall : entries.length + 2 < 2 ^ 32)
    (h : Browsed os home o fuel (namesOf entries) c₀ d c pos out) :
    out <+: fullListing (namesOf entries) ∧ (∃ s', Quiet os home o.m c s') ∧
      ∀ a : DirCall, a.Remembers (namesOf entries) d pos → ∃ r c',
        a.runOn os home o fuel d pos c = some (r, c') ∧
          (r.result = .ok () → r.buf.offers = 0 → out = fullListing (namesOf entries)) := by
  have hsmall' : (namesOf entries).length + 2 < 2 ^ 32 := by rwa [namesOf, List.length_map]
  obtain ⟨hread, s', hquiet, hroot⟩ := h.readSoFar hq hcred hp hdir hfuel
  obtain ⟨hlisted, hpos, hout⟩ := hread.taken hsmall'
  refine ⟨hout ▸ List.take_prefix _ _, ⟨s', hquiet⟩, fun a hmem => ?_⟩
  have hdir' : os.Directory (s'.path o.path.text) entries := by rwa [Perl.path, hroot]
  obtain ⟨c', hcall, -⟩ := hquiet.runOn hcred hp hdir' hfuel hmem
  refine ⟨_, c', hcall, fun hok hquiet => ?_⟩
  obtain ⟨-, hp, hend⟩ := run_progress hlisted a.toReaddirCall a.mem (hpos.trans_lt hsmall') hpos
  have hstay := hp.quiet hquiet
  rcases hend hok with hfull | hdone
  · exact absurd hquiet hfull.2
  · rw [hout, ← hstay, hdone, ← length_fullListing, List.take_length]

end Run

/-! ### An example -/

/-- A machine on which every directory has a file `a`. -/
def smallDir : OS Unit :=
  { oneFile (ascii "a") with
    ls := fun _ _ _ _ _ => ([ascii "total 4", lsLine narrow (smallFile nameA)], true) }

theorem directory_smallDir (dir : Bytes) : smallDir.Directory dir [smallFile nameA] where
  isDir _ _ := rfl
  ls _ _ _ := by
    refine ⟨[ascii "total 4"], fun _ => narrow, rfl, by decide, fun l hl => ?_, fun e he => ?_⟩
    · obtain rfl := List.mem_singleton.mp hl
      exact ⟨⟨by decide, by decide, by decide, by decide, by decide⟩, fun _ _ _ => rfl⟩
    · obtain rfl := List.mem_singleton.mp he
      decide
  legible e he := by
    obtain rfl := List.mem_singleton.mp he
    exact ⟨97, by decide, by decide⟩

theorem smallOpen_nul : (0 : Byte) ∉ ascii "/" := by decide

theorem smallOpen_room : (ascii "/").length + 1 ≤ SHFS_PATH_MAX := by decide

/-- Its root on a mount, and a call with room for eight. -/
def smallOpen : OpenDir :=
    ⟨plainMount, 0xFFFF, stillClock, ⟨0, []⟩, ⟨ascii "/", smallOpen_nul, smallOpen_room⟩⟩

def callEight : DirCall :=
    ⟨⟨8, .ok (), false, fun _ => 0⟩, fun fpos => ⟨some fpos, true, true⟩, fun _ => []⟩

/-- The file is behind the dots. -/
theorem remote_listing_small : ∃ d c,
    Browsed smallDir [] smallOpen 5 [ascii "a"] (Conn.new rootPerl) d c 3
      [.dot, .dotdot, .entry (ascii "a")] ∧
      [.dot, .dotdot, .entry (ascii "a")] <+: fullListing (namesOf [smallFile nameA]) ∧
        (∃ s', Quiet smallDir [] plainMount c s') ∧
          ∀ a : DirCall, a.Remembers (namesOf [smallFile nameA]) d 3 → ∃ r c',
            a.runOn smallDir [] smallOpen 5 d 3 c = some (r, c') ∧
              (r.result = .ok () → r.buf.offers = 0 →
                [.dot, .dotdot, .entry (ascii "a")] = fullListing (namesOf [smallFile nameA])) := by
  have hquiet : Quiet smallDir [] smallOpen.m (Conn.new rootPerl) rootPerl := quiet_new rfl
  have hcred : smallOpen.m.Sends smallOpen.cred := Mount.sends_plain rfl _
  have hp : smallOpen.path.Fits := by
    unfold Path.Fits
    decide
  have hmem : callEight.Remembers (namesOf [smallFile nameA]) untouched.dir 0 := by
    intro t ht
    obtain rfl := Option.some.inj ht
    exact ⟨⟨rfl, fun _ => rfl⟩, trivial⟩
  have hfuel : [smallFile nameA].length + 3 < 5 := by decide
  have hstart : Browsed smallDir [] smallOpen 5 (namesOf [smallFile nameA]) (Conn.new rootPerl)
      untouched.dir (Conn.new rootPerl) 0 [] := .start ⟨rfl, fun x hx => absurd hx List.not_mem_nil⟩
  obtain ⟨c, hcall, -⟩ := hquiet.runOn hcred hp (directory_smallDir _) hfuel hmem
  have hrun := hstart.call callEight _ hmem hcall
  exact ⟨_, c, hrun, remote_listing hquiet hcred hp (directory_smallDir _) hfuel (by decide) hrun⟩

end Shfs
