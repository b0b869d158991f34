import Shfs.Client

/-!
# Lines of a listing

What `do_ls` does with a line of `ls -lan` between `sock_readln` and `shfs_fill_cache`: `parse_dir`
cuts the line into columns, in place, and the columns are decoded into a name and a `shfs_fattr`.

`parse_dir` ends a column by writing a NUL over the blank behind it. In the column of the size a
device has two numbers with a blank between them; the column of the name keeps its leading blanks,
and takes the rest of the line. `parseDirFrom` goes over the octets of `sockbuf` in the same way,
with the NUL that ends the line, since the two numbers of a device can make it run past that.
-/

namespace Shfs

open Lib

/-! ## `parse_dir` -/

/-- `DIR_COLS` -/
abbrev DIR_COLS : ℕ := 9

/-- `DIR_PERM` -/
abbrev DIR_PERM : ℕ := 0

/-- `DIR_NLINK` -/
abbrev DIR_NLINK : ℕ := 1

/-- `DIR_UID` -/
abbrev DIR_UID : ℕ := 2

/-- `DIR_GID` -/
abbrev DIR_GID : ℕ := 3

/-- `DIR_SIZE` -/
abbrev DIR_SIZE : ℕ := 4

/-- `DIR_MONTH` -/
abbrev DIR_MONTH : ℕ := 5

/-- `DIR_DAY` -/
abbrev DIR_DAY : ℕ := 6

/-- `DIR_YEAR` -/
abbrev DIR_YEAR : ℕ := 7

/-- `DIR_NAME` -/
abbrev DIR_NAME : ℕ := 8

/-- Where `parse_dir` is: `is_space`, not `is_space`, and in the two loops over the second number of
a device. -/
inductive DirPhase : Type where
  | space
  | column
  | devBlanks
  | devNumber
  deriving DecidableEq, Repr

/-- `device` behind the first octet of a column. -/
def devFlag (cols : List Bytes) (device : Bool) (b : Byte) : Bool :=
  device || cols.length = DIR_PERM && (b = 98 || b = 99)

/-- The loop of `parse_dir`, with the columns that have ended, the text from `start` to `s`, and
`device`. The result is the columns. -/
def parseDirFrom (phase : DirPhase) (cols : List Bytes) (text : Bytes) (device : Bool) :
    Bytes → List Bytes
  | [] => if phase = .space then cols else cols ++ [text]
  | b :: bs =>
    match phase with
    | .space =>
      if b = 0 then cols
      else if b = sp then
        parseDirFrom .space cols (if cols.length ≠ DIR_NAME then [] else text ++ [b]) device bs
      else if cols.length + 1 = DIR_COLS then cols ++ [text ++ cstr (b :: bs)] -- the `break`
      else parseDirFrom .column cols (text ++ [b]) (devFlag cols device b) bs
    | .column =>
      if b = 0 then cols ++ [text]
      else if b = sp then
        if cols.length = DIR_SIZE ∧ device then parseDirFrom .devBlanks cols (text ++ [b]) device bs
        else parseDirFrom .space (cols ++ [text]) [] device bs
      else parseDirFrom .column cols (text ++ [b]) device bs
    | .devBlanks =>
      if b = sp then parseDirFrom .devBlanks cols (text ++ [b]) device bs
      else if b = 0 then parseDirFrom .space (cols ++ [text]) [] device bs -- `s++` leaves the line
      else parseDirFrom .devNumber cols (text ++ [b]) device bs
    | .devNumber =>
      if b = sp ∨ b = 0 then parseDirFrom .space (cols ++ [text]) [] device bs
      else parseDirFrom .devNumber cols (text ++ [b]) device bs

/-- `parse_dir`, of what is in `sockbuf`. -/
def parseDir (buf : Bytes) : List Bytes := parseDirFrom .space [] [] false buf

/-! ## Types and modes -/

/-- `S_IFMT` -/
abbrev S_IFMT : UInt16 := 0xF000

/-- `S_IFSOCK` -/
abbrev S_IFSOCK : UInt16 := 0xC000

/-- `S_IFLNK` -/
abbrev S_IFLNK : UInt16 := 0xA000

/-- `S_IFREG` -/
abbrev S_IFREG : UInt16 := 0x8000

/-- `S_IFBLK` -/
abbrev S_IFBLK : UInt16 := 0x6000

/-- `S_IFDIR` -/
abbrev S_IFDIR : UInt16 := 0x4000

/-- `S_IFCHR` -/
abbrev S_IFCHR : UInt16 := 0x2000

/-- `S_IFIFO` -/
abbrev S_IFIFO : UInt16 := 0x1000

/-- The type in front of the permissions. -/
def typeOf (fmask : UInt16) (c : Byte) : UInt16 :=
  if c = 98 then if (fmask &&& S_IFMT) &&& S_IFBLK ≠ 0 then S_IFBLK else S_IFREG
  else if c = 99 then if (fmask &&& S_IFMT) &&& S_IFCHR ≠ 0 then S_IFCHR else S_IFREG
  else if c = 115 ∨ c = 83 then S_IFSOCK
  else if c = 100 then S_IFDIR
  else if c = 108 then S_IFLNK
  else if c = 45 then S_IFREG
  else if c = 112 then S_IFIFO
  else 0

/-- What the octets of the permissions stand for: `if (s[i] == c) mode |= bits`. -/
def permTable : List (ℕ × Byte × UInt16) :=
  [(1, 114, 0x100), (2, 119, 0x80), (3, 120, 0x40), (3, 115, 0x840), (3, 83, 0x800),
    (4, 114, 0x20), (5, 119, 0x10), (6, 120, 0x8), (6, 115, 0x408), (6, 83, 0x400),
    (7, 114, 0x4), (8, 119, 0x2), (9, 120, 0x1), (9, 116, 0x201), (9, 84, 0x200)]

/-- One line of the table. -/
def addBits (s : ℕ → Byte) (mode : UInt16) (t : ℕ × Byte × UInt16) : UInt16 :=
  if s t.1 = t.2.1 then mode ||| t.2.2 else mode

/-- The mode, where `s i` is `s[i]`. -/
def modeOf (fmask : UInt16) (s : ℕ → Byte) : UInt16 :=
  permTable.foldl (addBits s) (typeOf fmask (s 0))

/-! ## Times -/

/-- `get_month` -/
def getMonth (mon : Bytes) : Option ℕ :=
  [ascii "Jan", ascii "Feb", ascii "Mar", ascii "Apr", ascii "May", ascii "Jun", ascii "Jul",
    ascii "Aug", ascii "Sep", ascii "Oct", ascii "Nov", ascii "Dec"].findIdx? (· = mon)

/-- What `do_ls` takes from the kernel: `get_this_year`, `get_this_month` and `mktime`, which gets
the year, the month, the day, the hour and the minute. -/
structure Clock : Type where
  thisYear : UInt32
  thisMonth : UInt32
  mktime : UInt32 → UInt32 → UInt32 → UInt32 → UInt32 → UInt64

/-- `simple_strtoul(s, NULL, 10)` as an `unsigned int`. -/
def strtouint (s : Bytes) : UInt32 := .ofNat (decVal s)

/-- The time in the three columns. -/
def lsTime (clock : Clock) (month day year : Bytes) : UInt64 :=
  let (mon, day) :=
    match getMonth month with
    -- some systems have month and day swapped; without a month `mon` is -1
    | none => (((getMonth day).map UInt32.ofNat).getD (-1), strtouint month)
    | some m => (.ofNat m, strtouint day)
  if 58 ∉ year then clock.mktime (strtouint year) (mon + 1) day 12 0
  else
    let y := if mon > clock.thisMonth then clock.thisYear - 1 else clock.thisYear
    clock.mktime y (mon + 1) day (strtouint (year.takeWhile (· ≠ 58)))
      (strtouint ((year.dropWhile (· ≠ 58)).drop 1))

/-! ## An entry -/

/-- `struct shfs_fattr`, without the inode number, which is 0 here; the three times are the same. -/
structure Fattr : Type where
  mode : UInt16
  nlink : UInt32
  uid : UInt32
  gid : UInt32
  rdev : UInt32
  size : UInt64
  time : UInt64
  blksize : ℕ
  blocks : UInt64
  deriving DecidableEq, Repr

/-- The text in front of the first ` -> `, or all of it. -/
def beforeArrow : Bytes → Bytes
  | [] => []
  | b :: bs => if (ascii " -> ").isPrefixOf (b :: bs) then [] else b :: beforeArrow bs

/-- The device number, from the column of the size. -/
def lsRdev (size : Bytes) : UInt32 :=
  let s := size.dropWhile isDigit
  let major := UInt16.ofNat (decVal size)
  let minor := UInt16.ofNat (decVal (s.dropWhile fun b => !isDigit b))
  major.toUInt32 <<< 20 ||| minor.toUInt32

/-- The attributes, from the octets of the first column and the columns. -/
def lsFattr (fmask : UInt16) (clock : Clock) (s : ℕ → Byte) (col : ℕ → Bytes) : Fattr :=
  let device := s 0 = 98 ∨ s 0 = 99
  let mode := modeOf fmask s
  let size : UInt64 := if device then 0 else .ofNat (decVal (col DIR_SIZE))
  { mode := if mode &&& S_IFMT = S_IFREG then mode &&& fmask else mode
    nlink := strtouint (col DIR_NLINK)
    uid := strtouint (col DIR_UID)
    gid := strtouint (col DIR_GID)
    rdev := if device then lsRdev (col DIR_SIZE) else 0
    size := size
    time := lsTime clock (col DIR_MONTH) (col DIR_DAY) (col DIR_YEAR)
    blksize := 4096
    blocks := .ofBitVec ((size + 511).toBitVec.sshiftRight 9) } -- of a signed number

/-- A line of the listing: the name and the attributes of an entry, if it is one. `buf` is what is
in `sockbuf`. -/
def lsEntry (fmask : UInt16) (clock : Clock) (buf : Bytes) : Option (Bytes × Fattr) :=
  let cols := parseDir buf
  if cols.length ≠ DIR_COLS then none -- skip `total xx' line
  else
    let col := fun i => cols.getD i []
    let name := col DIR_NAME
    if name = ascii "." ∨ name = ascii ".." then none
    else
      -- the octets behind a short first column are those of the next one
      let s := fun i => (buf.dropWhile (· = sp)).getD i 0
      let link := modeOf fmask s &&& S_IFMT = S_IFLNK
      some (if link then beforeArrow name else name, lsFattr fmask clock s col)

/-- A turn of the loop of `do_ls`: an entry is handed on to `shfs_fill_cache`, which answers `more`.
Behind the line there is what `sockbuf` has had before. -/
def collect (fmask : UInt16) (clock : Clock) (behind : Bytes) (more : Bool)
    (acc : List (Bytes × Fattr)) (line : Bytes) : List (Bytes × Fattr) × Bool :=
  match lsEntry fmask clock (line ++ 0 :: behind) with
  | none => (acc, true)
  | some entry => (acc ++ [entry], more)

/-! ## The loop of `do_ls` -/

/-- The loop of `do_ls` over the lines that `sock_readln` hands over, until it fails with `lost`. -/
def lsLoop {γ : Type} (entry : γ → Bytes → γ × Bool) (lost : Errno) :
    List Bytes → γ → Except Errno Unit × γ
  | [], acc => (.error lost, acc)
  | s :: ls, acc =>
    if s = [] then (.ok (), acc)
    else
      match lsResult (reply s) with
      | some result => (result, acc)
      | none =>
        if (entry acc s).2 then lsLoop entry lost ls (entry acc s).1
        else (.ok (), (entry acc s).1)

/-! ## Columns -/

section Columns

variable {cols : List Bytes} {device : Bool} {rest : Bytes}

theorem parseDirFrom_space_cons (text : Bytes) (b : Byte) : parseDirFrom .space cols text device
    (b :: rest) = if b = 0 then cols
    else if b = sp then
      parseDirFrom .space cols (if cols.length ≠ DIR_NAME then [] else text ++ [b]) device rest
    else if cols.length + 1 = DIR_COLS then cols ++ [text ++ cstr (b :: rest)]
    else parseDirFrom .column cols (text ++ [b]) (devFlag cols device b) rest := rfl

theorem parseDirFrom_column_cons (text : Bytes) (b : Byte) :
    parseDirFrom .column cols text device (b :: rest) =
      if b = 0 then cols ++ [text]
      else if b = sp then
        if cols.length = DIR_SIZE ∧ device then
          parseDirFrom .devBlanks cols (text ++ [b]) device rest
        else parseDirFrom .space (cols ++ [text]) [] device rest
      else parseDirFrom .column cols (text ++ [b]) device rest := rfl

theorem parseDirFrom_devBlanks_cons (text : Bytes) (b : Byte) :
    parseDirFrom .devBlanks cols text device (b :: rest) =
      if b = sp then parseDirFrom .devBlanks cols (text ++ [b]) device rest
      else if b = 0 then parseDirFrom .space (cols ++ [text]) [] device rest
      else parseDirFrom .devNumber cols (text ++ [b]) device rest := rfl

theorem parseDirFrom_devNumber_cons (text : Bytes) (b : Byte) :
    parseDirFrom .devNumber cols text device (b :: rest) =
      if b = sp ∨ b = 0 then parseDirFrom .space (cols ++ [text]) [] device rest
      else parseDirFrom .devNumber cols (text ++ [b]) device rest := rfl

/-- Blanks in front of a column that is not the name are passed over. -/
theorem parseDirFrom_blanks (h : cols.length ≠ DIR_NAME) (n : ℕ) :
    parseDirFrom .space cols [] device (List.replicate n sp ++ rest) =
      parseDirFrom .space cols [] device rest := by
  induction n with
  | zero => rfl
  | succ n ih =>
    rw [List.replicate_succ, List.cons_append, parseDirFrom_space_cons]
    simp only [if_neg (show sp ≠ 0 by decide), if_true, if_pos h]
    exact ih

/-- A column goes on up to a blank. -/
theorem parseDirFrom_column (h : ¬ (cols.length = DIR_SIZE ∧ device = true)) {w : Bytes}
    (hw : ∀ b ∈ w, b ≠ sp ∧ b ≠ 0) (text : Bytes) :
    parseDirFrom .column cols text device (w ++ sp :: rest) =
      parseDirFrom .space (cols ++ [text ++ w]) [] device rest := by
  induction w generalizing text with
  | nil =>
    rw [List.nil_append, parseDirFrom_column_cons, List.append_nil]
    simp only [if_neg (show sp ≠ 0 by decide), if_true, if_neg h]
  | cons b w ih =>
    obtain ⟨hsp, h0⟩ := hw b (List.mem_cons_self ..)
    rw [List.cons_append, parseDirFrom_column_cons]
    simp only [if_neg h0, if_neg hsp]
    rw [ih fun c hc => hw c (List.mem_cons_of_mem _ hc), List.append_assoc, List.singleton_append]

/-- **A field of the line** becomes a column, whatever number of blanks is in front of it. -/
theorem parseDirFrom_field {b : Byte} {w : Bytes} (hcols : cols.length < DIR_NAME)
    (h : ¬ (cols.length = DIR_SIZE ∧ devFlag cols device b = true))
    (hw : ∀ c ∈ b :: w, c ≠ sp ∧ c ≠ 0) (n : ℕ) :
    parseDirFrom .space cols [] device (List.replicate n sp ++ (b :: w ++ sp :: rest)) =
      parseDirFrom .space (cols ++ [b :: w]) [] (devFlag cols device b) rest := by
  obtain ⟨hsp, h0⟩ := hw b (List.mem_cons_self ..)
  rw [parseDirFrom_blanks hcols.ne, List.cons_append, parseDirFrom_space_cons]
  simp only [if_neg h0, if_neg hsp, if_neg (show ¬ cols.length + 1 = DIR_COLS from
    fun heq => absurd (Nat.succ.inj heq) hcols.ne)]
  rw [parseDirFrom_column h fun c hc => hw c (List.mem_cons_of_mem _ hc)]
  rfl

/-- The second number of a device. -/
theorem parseDirFrom_devNumber {w : Bytes} (hw : ∀ b ∈ w, b ≠ sp ∧ b ≠ 0) (text : Bytes) :
    parseDirFrom .devNumber cols text device (w ++ sp :: rest) =
      parseDirFrom .space (cols ++ [text ++ w]) [] device rest := by
  induction w generalizing text with
  | nil =>
    rw [List.nil_append, parseDirFrom_devNumber_cons, List.append_nil]
    simp only [true_or, if_true]
  | cons b w ih =>
    obtain ⟨hsp, h0⟩ := hw b (List.mem_cons_self ..)
    rw [List.cons_append, parseDirFrom_devNumber_cons]
    simp only [if_neg (not_or.mpr ⟨hsp, h0⟩)]
    rw [ih fun c hc => hw c (List.mem_cons_of_mem _ hc), List.append_assoc, List.singleton_append]

/-- The blanks between the numbers of a device, and the second one. -/
theorem parseDirFrom_devBlanks {b : Byte} {w : Bytes} (hw : ∀ c ∈ b :: w, c ≠ sp ∧ c ≠ 0) (n : ℕ)
    (text : Bytes) :
    parseDirFrom .devBlanks cols text device (List.replicate n sp ++ (b :: w ++ sp :: rest)) =
      parseDirFrom .space (cols ++ [text ++ List.replicate n sp ++ b :: w]) [] device rest := by
  obtain ⟨hsp, h0⟩ := hw b (List.mem_cons_self ..)
  induction n generalizing text with
  | zero =>
    rw [List.replicate_zero, List.nil_append, List.append_nil, List.cons_append,
      parseDirFrom_devBlanks_cons]
    simp only [if_neg hsp, if_neg h0]
    rw [parseDirFrom_devNumber fun c hc => hw c (List.mem_cons_of_mem _ hc), List.append_assoc,
      List.singleton_append]
  | succ n ih =>
    rw [List.replicate_succ, List.cons_append, parseDirFrom_devBlanks_cons]
    simp only [if_true]
    rw [ih, List.append_assoc text, List.singleton_append]

/-- The first number of a device, up to the blank behind it. -/
theorem parseDirFrom_major (h : cols.length = DIR_SIZE) {w : Bytes}
    (hw : ∀ b ∈ w, b ≠ sp ∧ b ≠ 0) (text : Bytes) :
    parseDirFrom .column cols text true (w ++ sp :: rest) =
      parseDirFrom .devBlanks cols (text ++ w ++ [sp]) true rest := by
  induction w generalizing text with
  | nil =>
    rw [List.nil_append, parseDirFrom_column_cons, List.append_nil]
    simp only [if_neg (show sp ≠ 0 by decide), if_true]
    rw [if_pos ⟨h, trivial⟩]
  | cons b w ih =>
    obtain ⟨hsp, h0⟩ := hw b (List.mem_cons_self ..)
    rw [List.cons_append, parseDirFrom_column_cons]
    simp only [if_neg h0, if_neg hsp]
    rw [ih fun c hc => hw c (List.mem_cons_of_mem _ hc), List.append_assoc text,
      List.singleton_append]

/-- **The two numbers of a device** become one column, with one blank between them, so that the
columns behind them are counted as for any other file. -/
theorem parseDirFrom_device {b c : Byte} {v w : Bytes} (hcols : cols.length = DIR_SIZE)
    (hv : ∀ x ∈ b :: v, x ≠ sp ∧ x ≠ 0) (hw : ∀ x ∈ c :: w, x ≠ sp ∧ x ≠ 0) (m n : ℕ) :
    parseDirFrom .space cols [] true
        (List.replicate m sp ++ (b :: v ++ sp :: (List.replicate n sp ++ (c :: w ++ sp :: rest)))) =
      parseDirFrom .space
        (cols ++ [b :: v ++ sp :: (List.replicate n sp ++ c :: w)]) [] true rest := by
  obtain ⟨hsp, h0⟩ := hv b (List.mem_cons_self ..)
  have hname : cols.length ≠ DIR_NAME := by
    rw [hcols]
    decide
  rw [parseDirFrom_blanks hname, List.cons_append, parseDirFrom_space_cons]
  simp only [if_neg h0, if_neg hsp, if_neg (show ¬ cols.length + 1 = DIR_COLS from
    fun heq => hname (Nat.succ.inj heq)), devFlag, Bool.true_or]
  rw [parseDirFrom_major hcols fun x hx => hv x (List.mem_cons_of_mem _ hx),
    parseDirFrom_devBlanks hw]
  simp only [List.nil_append, List.cons_append, List.append_assoc]

/-- **The name** is the rest of the line, with its blanks, unless there is nothing else. -/
theorem parseDirFrom_name (hcols : cols.length = DIR_NAME) {name : Bytes} (h0 : (0 : Byte) ∉ name)
    (text behind : Bytes) :
    parseDirFrom .space cols text device (name ++ 0 :: behind) =
      if ∃ b ∈ name, b ≠ sp then cols ++ [text ++ name] else cols := by
  induction name generalizing text with
  | nil =>
    rw [List.nil_append, parseDirFrom_space_cons]
    simp
  | cons b name ih =>
    have hb : b ≠ 0 := fun heq => h0 (heq ▸ List.mem_cons_self ..)
    have htail : (0 : Byte) ∉ name := fun hm => h0 (List.mem_cons_of_mem _ hm)
    rw [List.cons_append, parseDirFrom_space_cons]
    simp only [if_neg hb, hcols, ne_eq, not_true, if_false]
    by_cases hsp : b = sp
    · rw [if_pos hsp, ih htail, List.append_assoc, List.singleton_append]
      simp only [List.mem_cons, exists_eq_or_imp, hsp, ne_eq, not_true, false_or]
    · rw [if_neg hsp, if_pos trivial, if_pos ⟨b, List.mem_cons_self .., hsp⟩, ← List.cons_append,
        cstr_append_zero h0]

end Columns

end Shfs
