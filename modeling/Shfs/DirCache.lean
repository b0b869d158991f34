import Mathlib.Logic.Function.Basic
import Mathlib.Data.List.Infix
import Shfs.Sock

/-!
# The cached listing of a directory

`shfs_readdir` keeps the listing of a directory as addresses of dentries, in the slots of its pages,
and every dentry has its place in the listing in `d_fsdata`. A call is served from the slots as long
as they lead to dentries that have the right place; otherwise the listing is read again from its
beginning, and `shfs_fill_cache` fills the slots, and goes on with `filldir` where the call has
stopped.

Here is the code on the level of slots, for one call. What the kernel has memory for, and how old
the listing is, are inputs, and so is the way in which the listing is read. Nothing depends on what
a name is.
-/

namespace Shfs

open Lib

/-- `SHFS_DIRCACHE_SIZE`, where a pointer has 8 octets -/
abbrev SHFS_DIRCACHE_SIZE : ℕ := 512

/-- `SHFS_DIRCACHE_START`: the header has the size of 3 slots. -/
abbrev SHFS_DIRCACHE_START : ℕ := 3

variable {ν : Type}

/-! ## The buffer of the caller -/

/-- What `filldir` is called with. -/
inductive Item (ν : Type) : Type where
  | dot
  | dotdot
  | entry (name : ν)
  deriving DecidableEq

/-- The buffer: what it has taken, for how many more there is room, and how often `filldir` has been
called. -/
structure Dirent (ν : Type) : Type where
  accepted : List (Item ν)
  room : ℕ
  offers : ℕ

/-- `filldir`: has the item been taken? -/
def Dirent.filldir (buf : Dirent ν) (x : Item ν) : Bool × Dirent ν :=
  if buf.room = 0 then (false, { buf with offers := buf.offers + 1 })
  else (true, ⟨buf.accepted ++ [x], buf.room - 1, buf.offers + 1⟩)

/-! ## Dentries and pages -/

/-- A dentry in the directory. -/
structure Child (ν : Type) : Type where
  name : ν
  /-- `d_fsdata`, 0 for NULL -/
  fsdata : ℕ
  /-- `d_inode` is not NULL -/
  positive : Bool
  hashed : Bool

/-- `struct shfs_cache_head` without the time. -/
structure DirHead : Type where
  /-- `end` -/
  last : ℕ
  eof : Bool

/-- A directory in memory: its dentries by their addresses, the header of page 0 if that is up to
date, and the slots of the pages that are. -/
structure DirCache (ν : Type) : Type where
  children : List (ℕ × Child ν)
  head : Option DirHead
  pages : ℕ → Option (ℕ → ℕ)

namespace DirCache

/-- The dentry at an address is this one now. -/
def put (d : DirCache ν) (p : ℕ) (c : Child ν) : DirCache ν :=
  { d with children := (p, c) :: d.children.filter fun x => x.1 ≠ p }

/-- `dput`: a dentry that is not hashed goes with its last reference. -/
def dput (d : DirCache ν) (p : ℕ) : DirCache ν :=
  { d with children := d.children.filter fun x => x.1 ≠ p ∨ x.2.hashed = true }

/-- `shfs_invalidate_dircache_entries`, but for the ages. -/
def invalidateEntries (d : DirCache ν) : DirCache ν :=
  { d with children := d.children.map fun x => (x.1, { x.2 with fsdata := 0 }) }

/-- `shfs_dget_fpos`. The search behind `d_validate` never returns what it finds. -/
def dgetFpos (d : DirCache ν) (p fpos : ℕ) : Option (Child ν) :=
  match d.children.lookup p with
  | some c => if c.fsdata = fpos ∧ c.positive = true then some c else none
  | none => none

/-- The loop of `shfs_readdir` over the slots, for `n` positions from `fPos` on: has it come to
`finished`, or to `invalid_cache`? Page 0 is the one with the header, which is locked. -/
def replay (d : DirCache ν) : ℕ → ℕ → ℕ → ℕ → Dirent ν → Bool × ℕ × Dirent ν
  | 0, _, _, fPos, buf => (true, fPos, buf)
  | n + 1, ofs, idx, fPos, buf =>
    match (d.pages ofs).bind fun slots => d.dgetFpos (slots idx) fPos with
    | none => (false, fPos, buf)
    | some c =>
      match buf.filldir (.entry c.name) with
      | (false, buf) => (true, fPos, buf)
      | (true, buf) =>
        if idx + 1 < SHFS_DIRCACHE_SIZE then d.replay n ofs (idx + 1) (fPos + 1) buf
        else d.replay n (ofs + 1) 0 (fPos + 1) buf

end DirCache

/-! ## Filling the pages -/

/-- `struct shfs_cache_control`, where the pointer into the page is NULL or not. -/
structure Ctl : Type where
  fpos : ℕ
  ofs : ℕ
  idx : ℕ
  cache : Bool
  filled : Bool
  valid : Bool

/-- What the kernel has for one entry: the address of a new dentry, an inode, and a page. -/
structure FillMemory : Type where
  alloc : Option ℕ
  inode : Bool
  page : Bool

/-- A call of `shfs_readdir` while it reads: the directory in memory, the control structure of the
pages, the position, and the buffer of the caller. `shfs_fill_cache` changes all four for an entry.
-/
structure Filling (ν : Type) : Type where
  dir : DirCache ν
  ctl : Ctl
  /-- `filp->f_pos` -/
  fPos : ℕ
  buf : Dirent ν

section Fill

variable [DecidableEq ν] (mem : FillMemory) (garbage : ℕ → ℕ)

/-- `d_lookup`, or `d_alloc`, which gives no address that is in use. -/
def DirCache.getDentry (d : DirCache ν) (q : ν) : Option (ℕ × Child ν) :=
  (d.children.find? fun x => x.2.hashed && x.2.name = q).or
    ((mem.alloc.filter fun p => (d.children.lookup p).isNone).map fun p =>
      (p, ⟨q, 0, false, false⟩))

/-- What becomes of a dentry: it gets an inode if it has none, and its place if it has one then. -/
def Child.fill (c : Child ν) (fpos : ℕ) : Child ν :=
  if c.positive then { c with fsdata := fpos }
  else if mem.inode then { c with positive := true, hashed := true, fsdata := fpos }
  else c

namespace Filling

/-- The next page, behind the last slot of one. What is in a new page nobody knows. -/
def turnPage (t : Filling ν) : Filling ν :=
  if t.ctl.idx ≥ SHFS_DIRCACHE_SIZE then
    let ofs := t.ctl.ofs + 1
    { t with
      ctl := { t.ctl with idx := t.ctl.idx - SHFS_DIRCACHE_SIZE, ofs := ofs, cache := mem.page }
      dir := if mem.page then { t.dir with
          pages := Function.update t.dir.pages ofs (some ((t.dir.pages ofs).getD garbage)) }
        else t.dir }
  else t

/-- The slot, if there is a page: `valid`. The page is turned only for an entry that has a dentry;
after 512 entries without one in a row the slot lies behind it, and who is hit then nobody knows. -/
def store (t : Filling ν) (p : ℕ) : Bool × Filling ν :=
  if t.ctl.cache then
    if t.ctl.idx < SHFS_DIRCACHE_SIZE then
      (true, { t with dir := { t.dir with
        pages := Function.update t.dir.pages t.ctl.ofs
          ((t.dir.pages t.ctl.ofs).map fun slots => Function.update slots t.ctl.idx p) } })
    else (true, t)
  else (false, t)

/-- `shfs_fill_cache` up to `end_advance`. -/
def record (q : ν) (t : Filling ν) : Bool × Filling ν :=
  match t.dir.getDentry mem q with
  | none => (false, t)
  | some (p, c) =>
    let r := (turnPage mem garbage { t with dir := t.dir.put p (c.fill mem t.ctl.fpos) }).store p
    (r.1, { r.2 with dir := r.2.dir.dput p })

/-- The entry is handed on if it is the next one for the caller. -/
def offer (q : ν) (t : Filling ν) : Filling ν :=
  if t.ctl.filled = false ∧ t.ctl.fpos = t.fPos then
    match t.buf.filldir (.entry q) with
    | (true, buf) => { t with buf := buf, fPos := t.fPos + 1 }
    | (false, buf) => { t with buf := buf, ctl := { t.ctl with filled := true } }
  else t

/-- `ctl.fpos += 1` and `ctl.idx += 1` -/
def advance (t : Filling ν) : Filling ν :=
  { t with ctl := { t.ctl with fpos := t.ctl.fpos + 1, idx := t.ctl.idx + 1 } }

end Filling

/-- `shfs_fill_cache`: are more entries wanted? `mem` is what there is memory for at each
position. -/
def fillCache (mem : ℕ → FillMemory) (q : ν) (t : Filling ν) : Bool × Filling ν :=
  let (valid, t) := t.record (mem t.ctl.fpos) garbage q
  let t := if valid then t else { t with ctl := { t.ctl with valid := false } }
  let t := (t.offer q).advance
  (t.ctl.valid || !t.ctl.filled, t)

/-- A listing, entry by entry, until the caller has had enough and nothing is to be kept any more.
`mem` says what memory there is for each of them. -/
def feed (mem : ℕ → FillMemory) : List ν → Filling ν → Filling ν
  | [], t => t
  | q :: qs, t =>
    match fillCache garbage mem q t with
    | (true, t) => feed mem qs t
    | (false, t) => t

end Fill

/-! ## The call -/

/-- The inputs of a call: the room in the buffer, the result of `shfs_revalidate_inode`, the age of
the listing, and what is in a new page. -/
structure ReaddirCall : Type where
  room : ℕ
  revalidated : Except Errno Unit
  expired : Bool
  garbage : ℕ → ℕ

/-- What a call leaves. -/
structure Readdir (ν : Type) : Type where
  result : Except Errno Unit
  dir : DirCache ν
  fPos : ℕ
  buf : Dirent ν

/-- The `switch`: does the call go on? The position is cut to an `unsigned int`. -/
def dots (fPos : ℕ) (buf : Dirent ν) : Bool × ℕ × Dirent ν :=
  if fPos % 2 ^ 32 = 0 then
    match buf.filldir .dot with
    | (false, buf) => (false, fPos, buf)
    | (true, buf) =>
      match buf.filldir .dotdot with
      | (false, buf) => (false, 1, buf)
      | (true, buf) => (true, 2, buf)
  else if fPos % 2 ^ 32 = 1 then
    match buf.filldir .dotdot with
    | (false, buf) => (false, fPos, buf)
    | (true, buf) => (true, 2, buf)
  else (true, fPos, buf)

namespace ReaddirCall

variable (c : ReaddirCall) (d : DirCache ν)

/-- What the pages are used for: the call comes to `finished`, or to `init_cache`. -/
def cached (fPos : ℕ) (buf : Dirent ν) : Bool × ℕ × Dirent ν :=
  match d.head with
  | none => (false, fPos, buf)
  | some head =>
    if head.eof = false then (false, fPos, buf)
    else if fPos = 2 ∧ c.expired = true then (false, fPos, buf)
    else if fPos > head.last then (true, fPos, buf)
    else
      let fpos := fPos + (SHFS_DIRCACHE_START - 2)
      d.replay (head.last + 1 - fPos) (fpos / SHFS_DIRCACHE_SIZE) (fpos % SHFS_DIRCACHE_SIZE)
        fPos buf

/-- From `init_cache` on; `read` is `info->fops.readdir`. -/
def reread (read : Filling ν → Except Errno Unit × Filling ν) (fPos : ℕ) (buf : Dirent ν) :
    Readdir ν :=
  let d := d.invalidateEntries
  let d := { d with pages := Function.update d.pages 0 (some ((d.pages 0).getD c.garbage)) }
  let (result, t) := read ⟨d, ⟨2, 0, SHFS_DIRCACHE_START, true, false, true⟩, fPos, buf⟩
  ⟨result, { t.dir with head := some ⟨t.ctl.fpos - 1, t.ctl.valid⟩ }, t.fPos, t.buf⟩

/-- `shfs_readdir`: the dots, the revalidation of the directory, what the pages have, and the
listing of the server for the rest. `read` stands for the listing, so that the same function runs on
a list of entries and on a connection. -/
def run (read : Filling ν → Except Errno Unit × Filling ν) (fPos : ℕ) : Readdir ν :=
  match dots fPos ⟨[], c.room, 0⟩ with
  | (false, fPos, buf) => ⟨.ok (), d, fPos, buf⟩
  | (true, fPos, buf) =>
    match c.revalidated with
    | .error e => ⟨.error e, d, fPos, buf⟩
    | .ok () =>
      match c.cached d fPos buf with
      | (true, fPos, buf) => ⟨.ok (), d, fPos, buf⟩
      | (false, fPos, buf) => c.reread d read fPos buf

end ReaddirCall

end Shfs
