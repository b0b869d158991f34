import Shfs.Listing
import Shfs.Replies

/-!
# What a line of a listing says

`RemoteEntry` is a file on the server as `ls -lan` describes it, and `Layout` what `ls` is free to
choose: how many blanks stand between two fields, and the three words of the time. `lsLine` is the
line. The question is whether `do_ls` gets the entry back from it.

The columns in front of the name cause no trouble (`parseDir_lsLine`): none of their words is empty
or has a blank in it, and the numbers of a device stay together. The name does. A name of blanks
only is taken for the gap in front of a name, so that the line has one column too few and is skipped
like the `total` line; and a link whose name has an arrow in it is cut at that one.
-/

namespace Shfs

open Lib

/-! ## Permissions -/

/-- The permissions of one class, with the bit that is shown in the place of the third one:
set-user-ID, set-group-ID or the sticky bit. -/
structure Rwx : Type where
  read : Bool
  write : Bool
  exec : Bool
  special : Bool
  deriving DecidableEq, Repr

/-- The three letters. -/
def Rwx.text (lower upper : Byte) (p : Rwx) : Bytes :=
  [if p.read then 114 else 45, if p.write then 119 else 45,
    if p.special then if p.exec then lower else upper else if p.exec then 120 else 45]

/-- The bits of a mode, where `unit` is the bit of the third letter. -/
def Rwx.bits (unit special : UInt16) (p : Rwx) : UInt16 :=
  (if p.read then 4 * unit else 0) ||| (if p.write then 2 * unit else 0) |||
    (if p.exec then unit else 0) ||| (if p.special then special else 0)

/-- The twelve permission bits. -/
structure Perm : Type where
  owner : Rwx
  group : Rwx
  other : Rwx
  deriving DecidableEq, Repr

/-- The nine letters. -/
def Perm.text (p : Perm) : Bytes :=
  p.owner.text 115 83 ++ p.group.text 115 83 ++ p.other.text 116 84

/-- The bits of a mode. -/
def Perm.bits (p : Perm) : UInt16 :=
  p.owner.bits 0x40 0x800 ||| p.group.bits 0x8 0x400 ||| p.other.bits 0x1 0x200

/-! ## Entries -/

/-- The number of a device. -/
structure Device : Type where
  major : Fin (2 ^ 12)
  minor : Fin (2 ^ 12)
  deriving DecidableEq, Repr

/-- The text a symbolic link points to. -/
structure Target : Type where
  text : Bytes
  zero_notMem : (0 : Byte) ∉ text
  nl_notMem : nl ∉ text

/-- The types of a file. -/
inductive Kind : Type where
  | regular (size : Fin (2 ^ 63))
  | directory (size : Fin (2 ^ 63))
  | symlink (size : Fin (2 ^ 63)) (target : Target)
  | fifo (size : Fin (2 ^ 63))
  | socket (size : Fin (2 ^ 63))
  | block (device : Device)
  | character (device : Device)

/-- The letter of a type. -/
def Kind.letter : Kind → Byte
  | regular _ => 45
  | directory _ => 100
  | symlink _ _ => 108
  | fifo _ => 112
  | socket _ => 115
  | block _ => 98
  | character _ => 99

/-- The bits of a type. -/
def Kind.bits : Kind → UInt16
  | regular _ => S_IFREG
  | directory _ => S_IFDIR
  | symlink _ _ => S_IFLNK
  | fifo _ => S_IFIFO
  | socket _ => S_IFSOCK
  | block _ => S_IFBLK
  | character _ => S_IFCHR

/-- The size; a device has none. -/
def Kind.size : Kind → ℕ
  | regular size | directory size | symlink size _ | fifo size | socket size => size
  | block _ | character _ => 0

/-- The number of the device, as `MKDEV` makes it; 0 for any other file. -/
def Kind.rdev : Kind → ℕ
  | block d | character d => d.major * 2 ^ 20 + d.minor
  | regular _ | directory _ | symlink _ _ | fifo _ | socket _ => 0

/-- What stands behind the name. -/
def Kind.suffix : Kind → Bytes
  | symlink _ target => ascii " -> " ++ target.text
  | _ => []

/-- The name of an entry of a directory. -/
structure EntryName : Type where
  text : Bytes
  ne_nil : text ≠ []
  zero_notMem : (0 : Byte) ∉ text
  nl_notMem : nl ∉ text
  slash_notMem : (47 : Byte) ∉ text
  ne_dot : text ≠ ascii "."
  ne_dots : text ≠ ascii ".."

/-- A file on the server. -/
structure RemoteEntry : Type where
  kind : Kind
  perm : Perm
  nlink : UInt32
  uid : UInt32
  gid : UInt32
  name : EntryName

/-! ## The line -/

/-- A word of the time. -/
structure TimeWord : Type where
  text : Bytes
  ne_nil : text ≠ []
  plain : ∀ b ∈ text, (b ≠ sp ∧ b ≠ 0) ∧ b ≠ nl

/-- What `ls` is free to choose: the blanks behind a column and behind the comma of a device, beyond
the first one, and the words of the time. -/
structure Layout : Type where
  gap : ℕ → ℕ
  deviceGap : ℕ
  month : TimeWord
  day : TimeWord
  year : TimeWord

/-- A column, the blanks behind it and what follows. -/
def columnText (w : Bytes) (gap : ℕ) (rest : Bytes) : Bytes :=
  w ++ sp :: (List.replicate gap sp ++ rest)

/-- `major, minor` -/
def Device.text (gap : ℕ) (d : Device) : Bytes :=
  columnText (dec d.major ++ [44]) gap (dec d.minor)

/-- The column of the size. -/
def Kind.sizeText (gap : ℕ) : Kind → Bytes
  | block d | character d => d.text gap
  | regular size | directory size | symlink size _ | fifo size | socket size => dec size

/-- The first column. -/
def RemoteEntry.modeText (e : RemoteEntry) : Bytes := e.kind.letter :: e.perm.text

/-- The name with the target of a link. -/
def RemoteEntry.nameText (e : RemoteEntry) : Bytes := e.name.text ++ e.kind.suffix

/-- The line of `ls -lan`. -/
def lsLine (l : Layout) (e : RemoteEntry) : Bytes :=
  columnText e.modeText (l.gap DIR_PERM) <|
  columnText (dec e.nlink.toNat) (l.gap DIR_NLINK) <|
  columnText (dec e.uid.toNat) (l.gap DIR_UID) <|
  columnText (dec e.gid.toNat) (l.gap DIR_GID) <|
  columnText (e.kind.sizeText l.deviceGap) (l.gap DIR_SIZE) <|
  columnText l.month.text (l.gap DIR_MONTH) <|
  columnText l.day.text (l.gap DIR_DAY) <|
  columnText l.year.text 0 e.nameText

/-- The attributes of `f` are those of the entry. -/
structure RemoteEntry.Describes (e : RemoteEntry) (f : Fattr) : Prop where
  mode : f.mode = e.kind.bits ||| e.perm.bits
  nlink : f.nlink = e.nlink
  uid : f.uid = e.uid
  gid : f.gid = e.gid
  size : f.size.toNat = e.kind.size
  rdev : f.rdev.toNat = e.kind.rdev

/-! ## Modes -/

theorem foldl_addBits (s : ℕ → Byte) (ts : List (ℕ × Byte × UInt16)) (mode : UInt16) :
    ts.foldl (addBits s) mode = mode ||| ts.foldl (addBits s) 0 := by
  induction ts generalizing mode with
  | nil => rw [List.foldl_nil, List.foldl_nil, UInt16.or_zero]
  | cons t ts ih =>
    rw [List.foldl_cons, List.foldl_cons, ih, ih (addBits s 0 t), ← UInt16.or_assoc]
    congr 1
    unfold addBits
    split
    · rw [UInt16.zero_or]
    · rw [UInt16.or_zero]

/-- The part of the table about the class with the letters from `i` on. -/
def classTable (i : ℕ) (lower upper : Byte) (unit special : UInt16) : List (ℕ × Byte × UInt16) :=
  [(i, 114, 4 * unit), (i + 1, 119, 2 * unit), (i + 2, 120, unit), (i + 2, lower, unit ||| special),
    (i + 2, upper, special)]

/-- The three letters of a class stand for its bits. -/
theorem foldl_classTable (p : Rwx) {s : ℕ → Byte} {i : ℕ} {lower upper : Byte}
    (unit special : UInt16) (h : [s i, s (i + 1), s (i + 2)] = p.text lower upper)
    (hlower : lower ≠ 120 ∧ lower ≠ 45) (hupper : upper ≠ 120 ∧ upper ≠ 45)
    (hne : lower ≠ upper) :
    (classTable i lower upper unit special).foldl (addBits s) 0 = p.bits unit special := by
  obtain ⟨r, w, x, t⟩ := p
  simp only [Rwx.text, List.cons.injEq, and_true] at h
  simp only [classTable, List.foldl_cons, List.foldl_nil, addBits, h.1, h.2.1, h.2.2, Rwx.bits]
  cases w <;> cases x <;> cases t
  all_goals simp [hlower, hupper, hne, hne.symm, hlower.1.symm, hlower.2.symm, hupper.1.symm,
    hupper.2.symm, UInt16.or_assoc]

/-- The mode, for any `fmask`. -/
theorem modeOf_text (fmask : UInt16) (e : RemoteEntry) (rest : Bytes) :
    modeOf fmask (fun i => (e.modeText ++ rest).getD i 0) =
      typeOf fmask e.kind.letter ||| e.perm.bits := by
  have hparts : permTable = classTable 1 115 83 0x40 0x800 ++
      (classTable 4 115 83 0x8 0x400 ++ classTable 7 116 84 0x1 0x200) := rfl
  have htype : (e.modeText ++ rest).getD 0 0 = e.kind.letter := rfl
  rw [modeOf, hparts, htype, List.foldl_append, List.foldl_append, foldl_addBits _ _ (typeOf _ _),
    foldl_addBits _ _ (typeOf _ _ ||| _), foldl_addBits _ _ (_ ||| _ ||| _)]
  rw [foldl_classTable e.perm.owner _ _ rfl (by decide) (by decide) (by decide),
    foldl_classTable e.perm.group _ _ rfl (by decide) (by decide) (by decide),
    foldl_classTable e.perm.other _ _ rfl (by decide) (by decide) (by decide)]
  rw [Perm.bits, ← UInt16.or_assoc, ← UInt16.or_assoc]

/-- **The mode of an entry** is read from its first column: the kind from the first letter, and the
permissions from the nine behind it. -/
theorem modeOf_modeText (e : RemoteEntry) (rest : Bytes) :
    modeOf 0xFFFF (fun i => (e.modeText ++ rest).getD i 0) = e.kind.bits ||| e.perm.bits := by
  have htype : typeOf 0xFFFF e.kind.letter = e.kind.bits := by
    cases e.kind <;> rfl
  rw [modeOf_text, htype]

theorem or_and_right (a b c : UInt16) : (a ||| b) &&& c = (a &&& c) ||| (b &&& c) :=
  UInt16.toBitVec_inj.mp BitVec.and_or_distrib_right

theorem Perm.bits_and (p : Perm) : p.bits &&& S_IFMT = 0 := by
  have howner : ∀ r w x t, (Rwx.mk r w x t).bits 0x40 0x800 &&& S_IFMT = 0 := by decide
  have hgroup : ∀ r w x t, (Rwx.mk r w x t).bits 0x8 0x400 &&& S_IFMT = 0 := by decide
  have hother : ∀ r w x t, (Rwx.mk r w x t).bits 0x1 0x200 &&& S_IFMT = 0 := by decide
  rw [bits, or_and_right, or_and_right]
  exact congrArg₂ _ (congrArg₂ _ (howner ..) (hgroup ..)) (hother ..)

/-- The permissions are no part of the type. -/
theorem RemoteEntry.mode_and (e : RemoteEntry) :
    (e.kind.bits ||| e.perm.bits) &&& S_IFMT = e.kind.bits := by
  rw [or_and_right, e.perm.bits_and, UInt16.or_zero]
  cases e.kind
  all_goals
    rw [Kind.bits]
    decide

/-! ## Columns -/

section Columns

variable {cols : List Bytes} {device : Bool} {w rest : Bytes} {gap : ℕ}

/-- No octet ends a column. -/
def Unbroken (w : Bytes) : Prop := w ≠ [] ∧ ∀ b ∈ w, b ≠ sp ∧ b ≠ 0

theorem TimeWord.unbroken (w : TimeWord) : Unbroken w.text :=
  ⟨w.ne_nil, fun b hb => (w.plain b hb).1⟩

theorem unbroken_dec (n : ℕ) : Unbroken (dec n) :=
  ⟨numeral_ne_nil 10 n, fun _ hb =>
    ⟨ne_of_isDigit (isDigit_of_mem_dec hb) rfl, ne_of_isDigit (isDigit_of_mem_dec hb) rfl⟩⟩

/-- The letters of the first column. -/
theorem RemoteEntry.mem_modeText {e : RemoteEntry} {b : Byte} (hb : b ∈ e.modeText) :
    b ∈ ascii "-rwxsStTdlpbc" := by
  have hclass : ∀ (p : Rwx) (lower upper : Byte), lower ∈ ascii "-rwxsStTdlpbc" →
      upper ∈ ascii "-rwxsStTdlpbc" → ∀ b ∈ p.text lower upper, b ∈ ascii "-rwxsStTdlpbc" := by
    rintro ⟨r, w, x, t⟩ lower upper hl hu b hb
    simp only [Rwx.text, List.mem_cons, List.not_mem_nil, or_false] at hb
    rcases hb with rfl | rfl | rfl
    · cases r <;> exact of_decide_eq_true rfl
    · cases w <;> exact of_decide_eq_true rfl
    · cases t <;> cases x
      · exact of_decide_eq_true rfl
      · exact of_decide_eq_true rfl
      · exact hu
      · exact hl
  rcases List.mem_cons.mp hb with rfl | hb
  · cases e.kind <;> exact of_decide_eq_true rfl
  · rw [Perm.text, List.mem_append, List.mem_append] at hb
    rcases hb with (hb | hb) | hb
    · exact hclass _ _ _ (by decide) (by decide) b hb
    · exact hclass _ _ _ (by decide) (by decide) b hb
    · exact hclass _ _ _ (by decide) (by decide) b hb

theorem RemoteEntry.unbroken_modeText (e : RemoteEntry) : Unbroken e.modeText := by
  refine ⟨List.cons_ne_nil _ _, fun b hb => ⟨?_, ?_⟩⟩
  · rintro rfl
    exact absurd (mem_modeText hb) (by decide)
  · rintro rfl
    exact absurd (mem_modeText hb) (by decide)

/-- A column behind the first one, up to the next octet that is not a blank. -/
theorem parseDirFrom_columnText (hw : Unbroken w) (h0 : cols.length ≠ DIR_PERM)
    (hname : cols.length + 1 < DIR_NAME) (h : ¬ (cols.length = DIR_SIZE ∧ device = true)) :
    parseDirFrom .space cols [] device (columnText w gap rest) =
      parseDirFrom .space (cols ++ [w]) [] device rest := by
  obtain ⟨b, v, rfl⟩ := List.exists_cons_of_ne_nil hw.1
  have hflag : devFlag cols device b = device := by simp [devFlag, h0]
  have hfield : parseDirFrom .space cols [] device (columnText (b :: v) gap rest) =
      parseDirFrom .space (cols ++ [b :: v]) [] (devFlag cols device b)
        (List.replicate gap sp ++ rest) :=
    parseDirFrom_field (Nat.lt_of_succ_lt hname) (by rwa [hflag]) hw.2 0
  have hne : (cols ++ [b :: v]).length ≠ DIR_NAME := by
    rw [List.length_append]
    exact hname.ne
  rw [hflag] at hfield
  exact hfield.trans (parseDirFrom_blanks hne gap)

/-- The two numbers of a device. -/
theorem parseDirFrom_deviceText (hcols : cols.length = DIR_SIZE) (deviceGap : ℕ) (d : Device) :
    parseDirFrom .space cols [] true (columnText (d.text deviceGap) gap rest) =
      parseDirFrom .space (cols ++ [d.text deviceGap]) [] true rest := by
  obtain ⟨b, v, hv⟩ := List.exists_cons_of_ne_nil (unbroken_dec d.major).1
  obtain ⟨c, w, hw⟩ := List.exists_cons_of_ne_nil (unbroken_dec d.minor).1
  have hmajor : ∀ x ∈ b :: (v ++ [44]), x ≠ sp ∧ x ≠ 0 := by
    rw [← List.cons_append, ← hv]
    intro x hx
    rcases List.mem_append.mp hx with hx | hx
    · exact (unbroken_dec d.major).2 x hx
    · rw [List.mem_singleton.mp hx]
      decide
  have htext : d.text deviceGap =
      b :: (v ++ [44]) ++ sp :: (List.replicate deviceGap sp ++ c :: w) := by
    rw [Device.text, hv, hw]
    rfl
  have hne : (cols ++ [d.text deviceGap]).length ≠ DIR_NAME := by
    rw [List.length_append, hcols]
    exact of_decide_eq_true rfl
  have key : parseDirFrom .space cols [] true (columnText (d.text deviceGap) gap rest) =
      parseDirFrom .space (cols ++ [d.text deviceGap]) [] true (List.replicate gap sp ++ rest) := by
    rw [htext, ← parseDirFrom_device hcols hmajor (hw ▸ (unbroken_dec d.minor).2) 0 deviceGap,
      columnText, List.replicate_zero, List.nil_append]
    simp only [List.append_assoc, List.cons_append]
  exact key.trans (parseDirFrom_blanks hne gap)

/-- The letter of a device. -/
abbrev RemoteEntry.isDevice (e : RemoteEntry) : Bool :=
  decide (e.kind.letter = 98 ∨ e.kind.letter = 99)

/-- The column of the size. -/
theorem parseDirFrom_sizeText (hcols : cols.length = DIR_SIZE) (deviceGap : ℕ) (e : RemoteEntry) :
    parseDirFrom .space cols [] e.isDevice
        (columnText (e.kind.sizeText deviceGap) gap rest) =
      parseDirFrom .space (cols ++ [e.kind.sizeText deviceGap]) [] e.isDevice rest := by
  have hnumber : ∀ n : ℕ, parseDirFrom .space cols [] false (columnText (dec n) gap rest) =
      parseDirFrom .space (cols ++ [dec n]) [] false rest := by
    intro n
    refine parseDirFrom_columnText (unbroken_dec n) ?_ ?_ (by simp)
    all_goals
      rw [hcols]
      decide
  unfold RemoteEntry.isDevice
  cases e.kind with
  | regular size => exact hnumber size
  | directory size => exact hnumber size
  | symlink size target => exact hnumber size
  | fifo size => exact hnumber size
  | socket size => exact hnumber size
  | block d => exact parseDirFrom_deviceText hcols deviceGap d
  | character d => exact parseDirFrom_deviceText hcols deviceGap d

/-- The first column, which says whether the entry is a device. -/
theorem parseDirFrom_modeText (e : RemoteEntry) :
    parseDirFrom .space [] [] false (columnText e.modeText gap rest) =
      parseDirFrom .space [e.modeText] [] e.isDevice rest := by
  have hfield : parseDirFrom .space [] [] false (columnText e.modeText gap rest) =
      parseDirFrom .space [e.modeText] [] (devFlag [] false e.kind.letter)
        (List.replicate gap sp ++ rest) :=
    parseDirFrom_field (by decide) (by simp) e.unbroken_modeText.2 0
  have hne : [e.modeText].length ≠ DIR_NAME := of_decide_eq_true rfl
  have hflag : devFlag [] false e.kind.letter = e.isDevice := by simp [devFlag]
  rw [hflag] at hfield
  exact hfield.trans (parseDirFrom_blanks hne gap)

theorem columnText_append (w rest behind : Bytes) (gap : ℕ) :
    columnText w gap rest ++ behind = columnText w gap (rest ++ behind) := by
  simp only [columnText, List.append_assoc, List.cons_append]

end Columns

/-- An octet that is neither in the name, nor in a target, nor in the arrow. -/
theorem RemoteEntry.notMem_nameText {e : RemoteEntry} {c : Byte} (hname : c ∉ e.name.text)
    (harrow : c ∉ ascii " -> ") (htarget : ∀ t : Target, c ∉ t.text) : c ∉ e.nameText := by
  have hsuffix : c ∉ e.kind.suffix := by
    cases e.kind with
    | symlink size target =>
      exact fun h => (List.mem_append.mp h).elim harrow (htarget target)
    | _ => exact List.not_mem_nil
  exact fun h => (List.mem_append.mp h).elim hname hsuffix

theorem RemoteEntry.zero_notMem_nameText (e : RemoteEntry) : (0 : Byte) ∉ e.nameText :=
  notMem_nameText e.name.zero_notMem (by decide) fun t => t.zero_notMem

theorem RemoteEntry.nl_notMem_nameText (e : RemoteEntry) : nl ∉ e.nameText :=
  notMem_nameText e.name.nl_notMem (by decide) fun t => t.nl_notMem

/-- The columns in front of the name. -/
def RemoteEntry.columns (l : Layout) (e : RemoteEntry) : List Bytes :=
  [e.modeText, dec e.nlink.toNat, dec e.uid.toNat, dec e.gid.toNat, e.kind.sizeText l.deviceGap,
    l.month.text, l.day.text, l.year.text]

/-- **The columns of a line.** There is one too few if what should be the name is blank. -/
theorem parseDir_lsLine (l : Layout) (e : RemoteEntry) (behind : Bytes) :
    parseDir (lsLine l e ++ 0 :: behind) =
      if ∃ b ∈ e.nameText, b ≠ sp then e.columns l ++ [e.nameText] else e.columns l := by
  have hstep : ∀ {cols : List Bytes} {w rest : Bytes} {gap : ℕ}, Unbroken w →
      cols.length ≠ DIR_PERM → cols.length + 1 < DIR_NAME → cols.length ≠ DIR_SIZE →
      parseDirFrom .space cols [] e.isDevice (columnText w gap rest) =
        parseDirFrom .space (cols ++ [w]) [] e.isDevice rest := by
    intro cols w rest gap hw h0 hname hsize
    exact parseDirFrom_columnText hw h0 hname fun h => hsize h.1
  have hyear : ∀ {cols : List Bytes} {rest : Bytes}, cols.length = DIR_YEAR →
      parseDirFrom .space cols [] e.isDevice (columnText l.year.text 0 rest) =
        parseDirFrom .space (cols ++ [l.year.text]) [] e.isDevice rest := by
    intro cols rest hcols
    obtain ⟨b, v, hv⟩ := List.exists_cons_of_ne_nil l.year.ne_nil
    have hflag : devFlag cols e.isDevice b = e.isDevice := by simp [devFlag, hcols]
    have hfield : parseDirFrom .space cols [] e.isDevice (columnText (b :: v) 0 rest) =
        parseDirFrom .space (cols ++ [b :: v]) [] (devFlag cols e.isDevice b) rest :=
      parseDirFrom_field (hcols ▸ by decide) (by simp [hcols]) (hv ▸ l.year.unbroken.2) 0
    rw [hflag] at hfield
    rw [hv]
    exact hfield
  rw [parseDir, lsLine]
  simp only [columnText_append]
  rw [parseDirFrom_modeText, hstep (unbroken_dec _), hstep (unbroken_dec _), hstep (unbroken_dec _),
    parseDirFrom_sizeText, hstep l.month.unbroken, hstep l.day.unbroken, hyear,
    parseDirFrom_name _ e.zero_notMem_nameText]
  all_goals first | rfl | exact of_decide_eq_true rfl

/-! ## Numbers -/

theorem strtouint_dec (n : UInt32) : strtouint (dec n.toNat) = n := by
  rw [strtouint, decVal_dec_self, UInt32.ofNat_toNat]

/-- The size of a file that is not a device. -/
theorem toNat_decVal_size (size : Fin (2 ^ 63)) :
    (UInt64.ofNat (decVal (dec size))).toNat = size := by
  rw [decVal_dec_self, UInt64.toNat_ofNat']
  exact Nat.mod_eq_of_lt (lt_trans size.isLt (by decide))

/-- Digits, and the octet behind them. -/
theorem dropWhile_dec (n : ℕ) {b : Byte} (hb : isDigit b = false) (rest : Bytes) :
    (dec n ++ b :: rest).dropWhile isDigit = b :: rest := by
  rw [List.dropWhile_append_of_pos fun c hc => isDigit_of_mem_dec hc]
  exact List.dropWhile_cons_of_neg (by simp [hb])

/-- The number of a device, from its two numbers. -/
theorem toNat_lsRdev (d : Device) (gap : ℕ) :
    (lsRdev (d.text gap)).toNat = d.major * 2 ^ 20 + d.minor := by
  have htext : d.text gap = dec d.major ++ 44 :: sp :: (List.replicate gap sp ++ dec d.minor) := by
    simp only [Device.text, columnText, List.append_assoc, List.singleton_append]
  have hmajor : decVal (d.text gap) = d.major := by
    rw [htext]
    exact decVal_dec _ _ (by simp; decide)
  have hminor : decVal (((d.text gap).dropWhile isDigit).dropWhile fun b => !isDigit b) =
      d.minor := by
    obtain ⟨b, v, hv⟩ := List.exists_cons_of_ne_nil (numeral_ne_nil 10 d.minor)
    have hb : isDigit b = true := isDigit_of_mem_dec (hv ▸ List.mem_cons_self ..)
    have hskip : ∀ n : ℕ, (List.replicate n sp ++ b :: v).dropWhile (fun c => !isDigit c) =
        b :: v := by
      intro n
      rw [List.dropWhile_append_of_pos]
      · exact List.dropWhile_cons_of_neg (by simp [hb])
      · intro c hc
        rw [List.eq_of_mem_replicate hc]
        decide
    have h := decVal_dec_self d.minor
    rw [dec, hv] at h
    rw [htext, dropWhile_dec _ rfl, dec, hv, List.dropWhile_cons_of_pos (by decide)]
    exact (congrArg decVal (hskip (gap + 1))).trans h
  have hM := d.major.isLt
  have hm := d.minor.isLt
  have h16 : ∀ n < 2 ^ 12, (UInt16.ofNat n).toUInt32.toNat = n := by
    intro n hn
    rw [UInt16.toNat_toUInt32, UInt16.toNat_ofNat']
    omega
  rw [lsRdev]
  simp only [hmajor, hminor]
  rw [UInt32.toNat_or, UInt32.toNat_shiftLeft, h16 _ hM, h16 _ hm]
  have hshift : (d.major : ℕ) <<< ((20 : UInt32).toNat % 32) % 2 ^ 32 = (d.major : ℕ) <<< 20 := by
    refine Nat.mod_eq_of_lt ?_
    change (d.major : ℕ) <<< 20 < 2 ^ 32
    rw [Nat.shiftLeft_eq]
    omega
  rw [hshift, ← Nat.shiftLeft_add_eq_or_of_lt (by omega), Nat.shiftLeft_eq]

/-! ## The entry -/

/-- The name `do_ls` finds. -/
def RemoteEntry.shownName (e : RemoteEntry) : Bytes :=
  if e.kind.bits = S_IFLNK then beforeArrow e.nameText else e.nameText

theorem RemoteEntry.nameText_ne_dots (e : RemoteEntry) :
    ¬ (e.nameText = ascii "." ∨ e.nameText = ascii "..") := by
  have hname : e.kind.suffix = [] → e.nameText = e.name.text := by
    intro h
    rw [nameText, h, List.append_nil]
  cases hk : e.kind with
  | symlink size target =>
    have hlen : 2 < e.nameText.length := by
      rw [nameText, hk, Kind.suffix, List.length_append, List.length_append]
      have h4 : (ascii " -> ").length = 4 := rfl
      omega
    rintro (h | h)
    · exact absurd (h ▸ hlen) (by decide)
    · exact absurd (h ▸ hlen) (by decide)
  | _ =>
    rw [hname (by rw [hk]; rfl)]
    exact not_or.mpr ⟨e.name.ne_dot, e.name.ne_dots⟩

/-- A line without a name is skipped. -/
theorem lsEntry_blank (clock : Clock) (l : Layout) {e : RemoteEntry} (behind : Bytes)
    (h : ¬ ∃ b ∈ e.nameText, b ≠ sp) :
    lsEntry 0xFFFF clock (lsLine l e ++ 0 :: behind) = none := by
  rw [lsEntry, parseDir_lsLine]
  simp only [if_neg h]
  exact if_pos (of_decide_eq_true rfl)

/-- The attributes are those of the entry. -/
theorem RemoteEntry.describes_lsFattr (clock : Clock) (l : Layout) (e : RemoteEntry)
    (rest : Bytes) :
    e.Describes (lsFattr 0xFFFF clock (fun i => (e.modeText ++ rest).getD i 0)
      fun i => (e.columns l ++ [e.nameText]).getD i []) where
  mode := by
    simp only [lsFattr, modeOf_modeText]
    split
    · rw [show (0xFFFF : UInt16) = -1 from rfl, UInt16.and_neg_one]
    · rfl
  nlink := strtouint_dec e.nlink
  uid := strtouint_dec e.uid
  gid := strtouint_dec e.gid
  size := by
    change (if e.kind.letter = 98 ∨ e.kind.letter = 99 then (0 : UInt64)
      else .ofNat (decVal (e.kind.sizeText l.deviceGap))).toNat = e.kind.size
    cases e.kind with
    | regular size => exact toNat_decVal_size size
    | directory size => exact toNat_decVal_size size
    | symlink size target => exact toNat_decVal_size size
    | fifo size => exact toNat_decVal_size size
    | socket size => exact toNat_decVal_size size
    | block d => rfl
    | character d => rfl
  rdev := by
    change (if e.kind.letter = 98 ∨ e.kind.letter = 99 then lsRdev (e.kind.sizeText l.deviceGap)
      else 0).toNat = e.kind.rdev
    cases e.kind with
    | block d => exact toNat_lsRdev d _
    | character d => exact toNat_lsRdev d _
    | _ => rfl

/-- **The entry of a line**, but for its name, is the one on the server. -/
theorem lsEntry_lsLine (clock : Clock) (l : Layout) {e : RemoteEntry} (behind : Bytes)
    (h : ∃ b ∈ e.nameText, b ≠ sp) :
    ∃ f, e.Describes f ∧
      lsEntry 0xFFFF clock (lsLine l e ++ 0 :: behind) = some (e.shownName, f) := by
  obtain ⟨tail, htail⟩ : ∃ tail, lsLine l e ++ 0 :: behind = e.modeText ++ tail :=
    ⟨_, List.append_assoc ..⟩
  have hletter := e.unbroken_modeText.2 _ (List.mem_cons_self ..)
  have hdrop : (lsLine l e ++ 0 :: behind).dropWhile (· = sp) = e.modeText ++ tail := by
    rw [htail, RemoteEntry.modeText, List.cons_append]
    exact List.dropWhile_cons_of_neg (by simpa using hletter.1)
  have hcols : (e.columns l ++ [e.nameText]).length = DIR_COLS := rfl
  refine ⟨_, e.describes_lsFattr clock l tail, ?_⟩
  rw [lsEntry, parseDir_lsLine]
  simp only [if_pos h, hdrop, modeOf_modeText, e.mode_and]
  rw [if_neg (not_not.mpr hcols)]
  exact if_neg e.nameText_ne_dots

/-! ## Names -/

/-- What the name has to be like: not all blanks, or for a link without an arrow, which may share
its last blank with the real one. -/
def RemoteEntry.Legible (e : RemoteEntry) : Prop :=
  match e.kind with
  | .symlink _ _ => ¬ ascii " -> " <:+: e.name.text ++ [sp]
  | _ => ∃ b ∈ e.name.text, b ≠ sp

/-- The arrow found is the one behind the name. -/
theorem beforeArrow_eq_iff (name target : Bytes) :
    beforeArrow (name ++ (ascii " -> " ++ target)) = name ↔ ¬ ascii " -> " <:+: name ++ [sp] := by
  induction name with
  | nil =>
    simp only [List.nil_append]
    exact ⟨fun _ h => absurd h.length_le (by decide), fun _ => rfl⟩
  | cons b name ih =>
    rw [List.cons_append, beforeArrow, List.cons_append, List.infix_cons_iff, not_or]
    -- an arrow that starts in the name ends in it, or with the blank behind it
    have hprefix : ascii " -> " <+: b :: (name ++ (ascii " -> " ++ target)) ↔
        ascii " -> " <+: b :: (name ++ [sp]) := by
      rw [show ascii " -> " = [32, 45, 62, 32] from rfl]
      match name with
      | [] => simp [List.cons_prefix_cons]
      | [c] => simp [List.cons_prefix_cons]
      | [c, d] => simp [List.cons_prefix_cons]
      | c :: d :: x :: name => simp [List.cons_prefix_cons]
    simp only [List.isPrefixOf_iff_prefix, hprefix]
    by_cases hp : ascii " -> " <+: b :: (name ++ [sp])
    · simp [hp]
    · simp [hp, ih]

/-- **The name comes back** from a legible one only. Of all others it is cut, or taken for no name.
-/
theorem RemoteEntry.shownName_eq_iff (e : RemoteEntry) :
    ((∃ b ∈ e.nameText, b ≠ sp) ∧ e.shownName = e.name.text) ↔ e.Legible := by
  unfold shownName nameText Legible
  cases e.kind with
  | symlink size target =>
    simp only [Kind.bits, if_true, Kind.suffix, beforeArrow_eq_iff, and_iff_right_iff_imp]
    intro _
    refine ⟨45, ?_, by decide⟩
    exact List.mem_append_right _ (List.mem_append_left _ (by decide))
  | _ =>
    simp only [Kind.suffix, List.append_nil]
    exact and_iff_left (if_neg (of_decide_eq_true rfl))

/-! ## The listing of one entry -/

section Wire

variable {G S : Type} {srv : Server G S} {w : Wire G S} {info : Info} {e : RemoteEntry} {l : Layout}

theorem mem_columnText {b : Byte} {w rest : Bytes} {gap : ℕ} (h : b ∈ columnText w gap rest) :
    b ∈ w ∨ b = sp ∨ b ∈ rest := by
  rcases List.mem_append.mp h with h | h
  · exact Or.inl h
  · rcases List.mem_cons.mp h with h | h
    · exact Or.inr (Or.inl h)
    · rcases List.mem_append.mp h with h | h
      · exact Or.inr (Or.inl (List.eq_of_mem_replicate h))
      · exact Or.inr (Or.inr h)

/-- What the column of the size is made of. -/
theorem Kind.mem_sizeText {b : Byte} {k : Kind} {gap : ℕ} (h : b ∈ k.sizeText gap) :
    isDigit b = true ∨ b = 44 ∨ b = sp := by
  have hdevice : ∀ d : Device, b ∈ d.text gap → isDigit b = true ∨ b = 44 ∨ b = sp := by
    intro d h
    rcases mem_columnText h with h | h | h
    · rcases List.mem_append.mp h with h | h
      · exact Or.inl (isDigit_of_mem_dec h)
      · exact Or.inr (Or.inl (List.mem_singleton.mp h))
    · exact Or.inr (Or.inr h)
    · exact Or.inl (isDigit_of_mem_dec h)
  cases k with
  | block d => exact hdevice d h
  | character d => exact hdevice d h
  | _ => exact Or.inl (isDigit_of_mem_dec h)

/-- An octet that neither the name nor a word of the time has, and that is not of the alphabet of
the other columns. -/
theorem notMem_lsLine {c : Byte} (hsp : c ≠ sp) (hdigit : isDigit c = false) (hcomma : c ≠ 44)
    (hmode : c ∉ ascii "-rwxsStTdlpbc") (hword : ∀ w : TimeWord, c ∉ w.text)
    (hname : c ∉ e.nameText) (l : Layout) : c ∉ lsLine l e := by
  have hnumber : ∀ n : ℕ, c ∉ dec n := fun n h =>
    absurd (isDigit_of_mem_dec h) (by rw [hdigit]; decide)
  have hcolumn : ∀ {w rest : Bytes} {gap : ℕ}, c ∉ w → c ∉ rest → c ∉ columnText w gap rest := by
    intro w rest gap hw hrest h
    rcases mem_columnText h with h | h | h
    · exact hw h
    · exact hsp h
    · exact hrest h
  refine hcolumn (fun h => hmode (RemoteEntry.mem_modeText h)) ?_
  refine hcolumn (hnumber _) (hcolumn (hnumber _) (hcolumn (hnumber _) (hcolumn ?_ ?_)))
  · intro h
    rcases Kind.mem_sizeText h with h | h | h
    · rw [hdigit] at h
      cases h
    · exact hcomma h
    · exact hsp h
  · exact hcolumn (hword _) (hcolumn (hword _) (hcolumn (hword _) hname))

theorem nl_notMem_lsLine (l : Layout) (e : RemoteEntry) : nl ∉ lsLine l e :=
  notMem_lsLine (by decide) rfl (by decide) (by decide) (fun w h => (w.plain _ h).2 rfl)
    e.nl_notMem_nameText l

theorem zero_notMem_lsLine (l : Layout) (e : RemoteEntry) : (0 : Byte) ∉ lsLine l e :=
  notMem_lsLine (by decide) rfl (by decide) (by decide) (fun w h => (w.plain _ h).1.2 rfl)
    e.zero_notMem_nameText l

/-- The line of an entry is no status line. -/
theorem reply_lsLine (l : Layout) (e : RemoteEntry) : reply (lsLine l e) = 0 := by
  refine if_neg fun h => ?_
  obtain ⟨t, ht⟩ := h
  have hhead : (35 : Byte) = e.kind.letter := (List.cons.inj ht).1
  cases hk : e.kind with
  | _ =>
    rw [hk] at hhead
    exact absurd hhead (of_decide_eq_true rfl)

theorem lsResult_zero : lsResult 0 = none := rfl

/-- What `do_ls` makes of what comes back: its result, and what it has handed on. -/
def listed (srv : Server G S) (w : Wire G S) (info : Info) (fuel : ℕ) (clock : Clock)
    (behind : Bytes) (more : Bool) : Option (Except Errno Unit × List (Bytes × Fattr)) :=
  ((lsReply (collect 0xFFFF clock behind more) fuel [] info fun r acc _ => .ret (r, acc)).run srv
    READLNBUF_SIZE w).elim (fun r => some r.1) fun _ => none

/-- The listing of one entry. -/
theorem listed_line (hc : info.Clean) (hfit : (lsLine l e).length < READLNBUF_SIZE)
    (hw : w.bytes = lsLine l e ++ nl :: status REP_COMPLETE) (fuel : ℕ) (clock : Clock)
    (behind : Bytes) (more : Bool) :
    listed srv w info (fuel + 2) clock behind more =
      some (.ok (), (lsEntry 0xFFFF clock (lsLine l e ++ 0 :: behind)).toList) := by
  have hne : lsLine l e ≠ [] := List.cons_ne_nil _ _
  have hbytes : (w.drop ((lsLine l e).length + 1)).bytes = status REP_COMPLETE ++ [] := by
    rw [Wire.drop_bytes, hw, List.append_nil, ← List.drop_drop, List.drop_left]
    rfl
  have hlast : ∀ acc, (lsReply (collect 0xFFFF clock behind more) (fuel + 1) acc info
      fun r acc _ => .ret (r, acc)).run srv READLNBUF_SIZE (w.drop ((lsLine l e).length + 1)) =
        .inl ((.ok (), acc), pastStatus (w.drop ((lsLine l e).length + 1)) REP_COMPLETE) := by
    intro acc
    rw [lsReply, run_sockReadln_status hc (by decide) hbytes]
    rfl
  rw [listed, lsReply,
    run_sockReadln_line hc (nl_notMem_lsLine l e) (zero_notMem_lsLine l e) hfit hw]
  simp only [if_neg hne, reply_lsLine, lsResult_zero]
  cases hentry : lsEntry 0xFFFF clock (lsLine l e ++ 0 :: behind) with
  | none =>
    have hstep : collect 0xFFFF clock behind more [] (lsLine l e) = ([], true) := by
      rw [collect, hentry]
    rw [hstep, if_pos rfl, hlast]
    rfl
  | some entry =>
    have hstep : collect 0xFFFF clock behind more [] (lsLine l e) = ([entry], more) := by
      rw [collect, hentry]
      rfl
    rw [hstep]
    cases more with
    | true =>
      rw [if_pos rfl, hlast]
      rfl
    | false => rfl

/-- **A listed entry arrives** as it is on the server exactly if its name is legible: it is not all
blanks, or, for a link, it has no arrow in it. The line of a link has an arrow of its own behind the
name, and `do_ls` takes the first one that it finds. -/
theorem listed_iff (hc : info.Clean) (hfit : (lsLine l e).length < READLNBUF_SIZE)
    (hw : w.bytes = lsLine l e ++ nl :: status REP_COMPLETE) (fuel : ℕ) (clock : Clock)
    (behind : Bytes) (more : Bool) :
    (∃ f, e.Describes f ∧ listed srv w info (fuel + 2) clock behind more =
      some (.ok (), [(e.name.text, f)])) ↔ e.Legible := by
  rw [listed_line hc hfit hw, ← e.shownName_eq_iff]
  by_cases hblank : ∃ b ∈ e.nameText, b ≠ sp
  · obtain ⟨f, hf, hentry⟩ := lsEntry_lsLine clock l behind hblank
    rw [hentry]
    constructor
    · rintro ⟨f', hf', heq⟩
      simp only [Option.toList_some, Option.some.injEq, Prod.mk.injEq, List.cons.injEq, and_true,
        true_and] at heq
      exact ⟨hblank, heq.1⟩
    · rintro ⟨-, hname⟩
      exact ⟨f, hf, by rw [hname]; rfl⟩
  · rw [lsEntry_blank clock l behind hblank]
    constructor
    · rintro ⟨f', hf', heq⟩
      simp at heq
    · rintro ⟨h, -⟩
      exact absurd h hblank

end Wire

/-! ## Two files -/

/-- A file of five octets that anyone may read. -/
def smallFile (name : EntryName) : RemoteEntry where
  kind := .regular 5
  perm := ⟨⟨true, true, false, false⟩, ⟨true, false, false, false⟩, ⟨true, false, false, false⟩⟩
  nlink := 1
  uid := 0
  gid := 0
  name := name

/-- Nothing is padded. -/
def narrow : Layout where
  gap _ := 0
  deviceGap := 0
  month := ⟨ascii "Jan", by decide, List.forall_iff_forall_mem.mp (by decide)⟩
  day := ⟨ascii "1", by decide, List.forall_iff_forall_mem.mp (by decide)⟩
  year := ⟨ascii "2003", by decide, List.forall_iff_forall_mem.mp (by decide)⟩

/-- A server that has printed the listing of one entry. -/
def listing (e : RemoteEntry) : Wire Unit Unit :=
  ⟨.line () (), cells false (lsLine narrow e ++ nl :: status REP_COMPLETE), true⟩

theorem listing_bytes (e : RemoteEntry) :
    (listing e).bytes = lsLine narrow e ++ nl :: status REP_COMPLETE :=
  map_byte_cells ..

/-- It does nothing else. -/
def mute : Server Unit Unit := ⟨(), fun _ _ => .inl (), fun s _ => .done s⟩

/-- A clock that stands still. -/
def stillClock : Clock := ⟨2003, 0, fun _ _ _ _ _ => 0⟩

/-- A connection on which nothing has happened. -/
def idle : Info := ⟨true, false, 0, 0⟩

/-- The name `a`. -/
def nameA : EntryName :=
    ⟨ascii "a", by decide, by decide, by decide, by decide, by decide, by decide⟩

/-- The name that is one blank. -/
def nameBlank : EntryName :=
  ⟨[sp], by decide, by decide, by decide, by decide, by decide, by decide⟩

theorem listed_smallFile : ∃ f, (smallFile nameA).Describes f ∧
    listed mute (listing (smallFile nameA)) idle 2 stillClock [] true =
      some (.ok (), [(ascii "a", f)]) :=
  (listed_iff ⟨rfl, rfl⟩ (by decide) (listing_bytes _) 0 stillClock [] true).mpr
    ⟨97, by decide, by decide⟩

/-- The file whose name is a blank is not there. -/
theorem not_listed_blank : ¬ ∃ f, (smallFile nameBlank).Describes f ∧
    listed mute (listing (smallFile nameBlank)) idle 2 stillClock [] true =
      some (.ok (), [([sp], f)]) := by
  rintro ⟨f, -, h⟩
  have hblank : ¬ ∃ b ∈ (smallFile nameBlank).nameText, b ≠ sp := by
    rintro ⟨b, hb, hne⟩
    exact hne (List.mem_singleton.mp hb)
  rw [listed_line ⟨rfl, rfl⟩ (by decide) (listing_bytes _), lsEntry_blank _ _ _ hblank] at h
  cases h

end Shfs
